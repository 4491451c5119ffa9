/-
OkRn/Gatt/Writes.lean

The writes of the FIDO and the vendor characteristic, and the messages made of them.

A write is checked against the policy on its Binder thread and pushed to the door's
assembler in a later step; `setIoPolicy` swaps the policy and resets the assemblers
in two steps.  Each write carries the policy it was written under, which no code
reads.
-/
import Mathlib.Logic.Function.Basic

namespace OkRn.Gatt

/-- A computer's address. -/
abbrev Address := String

/-- The two characteristics that are written to. -/
inductive Door
  | fido
  | vendor
  deriving DecidableEq

/-- The policy: the target, and which doors are open. -/
structure IoPolicy where
  target : Option Address := none
  webauthn : Bool := false
  api : Bool := false
  deriving DecidableEq

/-- The gate of a door. -/
def IoPolicy.gate (p : IoPolicy) : Door → Bool
  | .fido => p.webauthn
  | .vendor => p.api

/-- A write as it came, and the policy it came under: how often the target had changed and the door
had closed, the target, and whether the door was open. -/
structure Write where
  sender : Address
  door : Door
  value : List UInt8
  targets : Nat
  closings : Nat
  target : Option Address
  gateOpen : Bool
  checked : Bool := false

/-- What a fragment adds to its message. -/
def Write.data (w : Write) : List UInt8 :=
  match w.value with
  | [] => []
  | head :: _ => if 0x80 ≤ head.toNat then w.value.drop 3 else w.value.drop 1

/-! ### The assembler -/

/-- `CtapBleAssembler`, with the fragments that its buffer is made of. -/
structure Assembler where
  command : Nat := 0
  expected : Nat := 0
  nextSeq : Nat := 0
  inProgress : Bool := false
  buffer : List UInt8 := []
  parts : List Write := []

/-- A message that was handed over, and the writes it is made of. -/
structure Message where
  command : Nat
  payload : List UInt8
  parts : List Write

namespace Assembler

/-- `reset`. -/
def reset (a : Assembler) : Assembler :=
  { a with inProgress := false, expected := 0, nextSeq := 0, buffer := [], parts := [] }

/-- A whole message is handed over. -/
def finish (a : Assembler) : Assembler × Option Message :=
  if a.inProgress ∧ a.expected ≤ a.buffer.length then
    (a.reset, some ⟨a.command, a.buffer.take a.expected, a.parts⟩)
  else (a, none)

/-- `push`. -/
def push (a : Assembler) (w : Write) : Assembler × Option Message :=
  match w.value with
  | [] => (a, none)
  | head :: rest =>
      if 0x80 ≤ head.toNat then
        match rest with
        | high :: low :: data =>
            finish
              { command := head.toNat % 0x80
                expected := high.toNat * 256 + low.toNat
                nextSeq := 0
                inProgress := true
                buffer := data
                parts := [w] }
        | _ => (a, none)
      else if !a.inProgress || head.toNat != a.nextSeq then (a.reset, none)
      else
        finish
          { a with
            nextSeq := a.nextSeq + 1, buffer := a.buffer ++ rest, parts := a.parts ++ [w] }

/-- The buffer is made of the fragments, and is empty where nothing is under way. -/
structure Sound (a : Assembler) : Prop where
  buffer : a.buffer = a.parts.flatMap Write.data
  idle : a.inProgress = false → a.parts = []

/-- What a push can do. -/
inductive Pushed (a : Assembler) (w : Write) : Assembler × Option Message → Prop
  | keep : Pushed a w (a, none)
  | drop : Pushed a w (a.reset, none)
  | hold (a' : Assembler) (hsound : a'.Sound) (hparts : a'.parts = [w] ∨ a'.parts = a.parts ++ [w]) :
      Pushed a w (a', none)
  | whole (a' : Assembler) (m : Message) (hempty : a'.parts = []) (hsound : a'.Sound)
      (hparts : m.parts = [w] ∨ m.parts = a.parts ++ [w])
      (hpayload : m.payload <+: m.parts.flatMap Write.data) : Pushed a w (a', some m)

/-- A reset assembler is sound. -/
theorem sound_reset (a : Assembler) : a.reset.Sound := ⟨rfl, fun _ => rfl⟩

theorem pushed_finish {a b : Assembler} {w : Write} (hsound : b.Sound)
    (hparts : b.parts = [w] ∨ b.parts = a.parts ++ [w]) : Pushed a w b.finish := by
  unfold finish
  split
  · refine .whole _ _ rfl (sound_reset b) hparts ?_
    rw [hsound.buffer]
    exact List.take_prefix _ _
  · exact .hold b hsound hparts

/-- What a push does to a sound assembler. -/
theorem pushed_push {a : Assembler} (h : a.Sound) (w : Write) : Pushed a w (a.push w) := by
  unfold push
  split
  · exact .keep
  · rename_i head rest hvalue
    split
    · rename_i hinitial
      split
      · rename_i high low data
        refine pushed_finish ⟨?_, fun hidle => by cases hidle⟩ (.inl rfl)
        simp [Write.data, hvalue, hinitial]
      · exact .keep
    · rename_i hcontinues
      split
      · exact .drop
      · rename_i hnext
        refine pushed_finish ⟨?_, fun hidle => ?_⟩ (.inr rfl)
        · simp [h.buffer, Write.data, hvalue, hcontinues]
        · rw [hidle] at hnext
          simp at hnext

end Assembler

/-! ### The writes and the policy -/

/-- A message handed up to JS, with its sender. -/
structure Handed where
  sender : Address
  door : Door
  message : Message

/-- The service, with its writes on their threads. -/
structure Service where
  policy : IoPolicy := {}
  /-- The target has changed, and the assemblers are still to be reset. -/
  resetting : Bool := false
  assembler : Door → Assembler := fun _ => {}
  /-- The writes on their threads, in the order they came. -/
  writes : List Write := []
  handed : List Handed := []
  /-- How often the target has changed, and a door has closed. -/
  targets : Nat := 0
  closings : Door → Nat := fun _ => 0

/-- What can happen. -/
inductive Event
  /-- A write comes, and its door's gate is read. -/
  | writes (sender : Address) (door : Door) (value : List UInt8)
  /-- `refusalReason` compares the sender with the target. -/
  | checks (i : Nat)
  | pushes (i : Nat)
  | setIoPolicy (next : IoPolicy)
  /-- The assemblers are reset for a new target. -/
  | resets
  /-- The service is stopped. -/
  | stops

namespace Service

/-- The assemblers are reset. -/
def resetAll (s : Service) : Service := { s with assembler := fun door => (s.assembler door).reset }

/-- `refusalReason` is null. -/
def passes (s : Service) (w : Write) : Bool := s.policy.target == some w.sender && w.gateOpen

/-- `setIoPolicy`, up to the reset. -/
def setIoPolicy (s : Service) (next : IoPolicy) : Service :=
  -- one call at a time
  if s.resetting then s
  else
    { s with
      policy := next
      resetting := s.policy.target != next.target
      targets := if s.policy.target = next.target then s.targets else s.targets + 1
      closings := fun door =>
        if s.policy.gate door && !next.gate door then s.closings door + 1 else s.closings door }

/-- One event. -/
def step (s : Service) : Event → Service
  | .writes sender door value =>
      { s with
        writes := s.writes ++
          [{ sender, door, value
             targets := s.targets
             closings := s.closings door
             target := s.policy.target
             gateOpen := s.policy.gate door }] }
  | .checks i =>
      match s.writes[i]? with
      | some w =>
          if w.checked then s
          else if s.passes w then { s with writes := s.writes.set i { w with checked := true } }
          else { s with writes := s.writes.eraseIdx i }
      | none => s
  | .pushes i =>
      match s.writes[i]? with
      | some w =>
          if w.checked then
            let pushed := (s.assembler w.door).push w
            { s with
              writes := s.writes.eraseIdx i
              assembler := Function.update s.assembler w.door pushed.1
              handed := s.handed ++
                pushed.2.toList.map fun m => { sender := w.sender, door := w.door, message := m } }
          else s
      | none => s
  | .setIoPolicy next => s.setIoPolicy next
  | .resets => if s.resetting then { s.resetAll with resetting := false } else s
  | .stops => s.resetAll

end Service

end OkRn.Gatt
