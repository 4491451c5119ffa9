/-
OkRn/Keyboard/Forwarder.lean

The phone as a keyboard: what goes to the computer of the key's reports.

The forwarder reads three refs at each report of the key: the IO switch's, which
follows the state at the next render, the one that `suspend` and `typeSecret` share,
and the one that the radio's status sets.  `sendReport` delivers to the computer
that is connected at that moment.
-/
import Mathlib.Data.List.Basic

namespace OkRn.Keyboard

/-- A keyboard report. -/
abbrev Report := List UInt8

/-- Its length. -/
def reportBytes : Nat := 8

/-- The report with every key up. -/
def releaseAll : Report := List.replicate reportBytes 0

/-- Who a report is of: the key, a typed secret, or a release. -/
inductive By
  | key
  | secret
  | release
  deriving DecidableEq

/-- A report that was delivered. -/
structure Sent where
  by_ : By
  report : Report
  deriving DecidableEq

/-- A `suspend` whose body runs, or a `typeSecret` that waits for a report to be taken, with the
reports that follow. -/
inductive Body
  | suspended
  | typing (rest : List Report)
  deriving DecidableEq

/-- A `chooseHost` at one of its awaits. -/
inductive Choice (Host : Type)
  | storing (address : Option Host)
  | releasing (address : Option Host)
  | disconnecting (address : Option Host)
  deriving DecidableEq

/-- The state of `useBtKeyboard`, and what came to the computer. -/
structure BtKeyboard (Host : Type) where
  /-- The IO switch's state. -/
  forwarding : Bool := false
  /-- `forwardingRef.current`. -/
  forwardingRef : Bool := false
  /-- `suspendedRef.current`. -/
  suspended : Bool := false
  /-- `connectedRef.current` and `connectedAddrRef.current`. -/
  connected : Bool := false
  connectedAddr : Option Host := none
  /-- The computer that the radio is connected to. -/
  link : Option Host := none
  bodies : List Body := []
  choices : List (Choice Host) := []
  /-- The reports of the key that were sent. -/
  keySent : List Report := []
  /-- What was delivered to the computer that is connected, since it connected. -/
  delivered : List Sent := []
  deriving DecidableEq

/-- What can happen. -/
inductive Event (Host : Type)
  /-- A report of the key comes through the pipe. -/
  | key (bytes : Report)
  | setForwarding (next : Bool)
  /-- The stored switch is read. -/
  | loaded (value : Bool)
  | render
  | onStatus (host : Option Host)
  /-- `refreshHosts` finds a computer connected. -/
  | live (host : Host)
  | linkUp (host : Host)
  | linkDown
  /-- The active key changes. -/
  | backend
  | withdraw
  | suspend
  | settle (i : Nat)
  | typeSecret (reports : List Report)
  | answered (i : Nat) (ok : Bool)
  | chooseHost (address : Option Host)
  | chooseNext (i : Nat)

namespace BtKeyboard

variable {Host : Type}

/-- `sendReport`: it is delivered where a computer is linked. -/
def sendReport (by_ : By) (report : Report) (s : BtKeyboard Host) : BtKeyboard Host :=
  if s.link.isSome then { s with delivered := s.delivered ++ [⟨by_, report⟩] } else s

/-- Every key is let go. -/
def release (s : BtKeyboard Host) : BtKeyboard Host := s.sendReport .release releaseAll

/-- The forwarder lets the key's reports through. -/
def forwards (s : BtKeyboard Host) : Bool := s.forwardingRef && !s.suspended && s.connected

/-- The `finally` of `suspend` and `typeSecret`. -/
def unsuspend (s : BtKeyboard Host) : BtKeyboard Host := { s.release with suspended := false }

/-- The loop of `typeSecret` from one of its reports on. -/
def typeFrom (s : BtKeyboard Host) : List Report → BtKeyboard Host × Option Body
  | [] => (s.unsuspend, none)
  | report :: rest =>
      if s.connected then (s.sendReport .secret report, some (.typing rest)) else (s.unsuspend, none)

/-! ### What a report leaves alone -/

section

variable (by_ : By) (report : Report) (s : BtKeyboard Host)

/-- A report is delivered, or nothing happens. -/
theorem sendReport_eq : s.sendReport by_ report = s ∨
    s.link.isSome = true ∧
      s.sendReport by_ report = { s with delivered := s.delivered ++ [⟨by_, report⟩] } := by
  unfold sendReport
  split
  · rename_i h
    exact .inr ⟨h, rfl⟩
  · exact .inl rfl

@[simp] theorem sendReport_forwarding : (s.sendReport by_ report).forwarding = s.forwarding := by
  rcases s.sendReport_eq by_ report with h | ⟨-, h⟩ <;> rw [h]

@[simp] theorem sendReport_forwardingRef :
    (s.sendReport by_ report).forwardingRef = s.forwardingRef := by
  rcases s.sendReport_eq by_ report with h | ⟨-, h⟩ <;> rw [h]

@[simp] theorem sendReport_suspended : (s.sendReport by_ report).suspended = s.suspended := by
  rcases s.sendReport_eq by_ report with h | ⟨-, h⟩ <;> rw [h]

@[simp] theorem sendReport_connected : (s.sendReport by_ report).connected = s.connected := by
  rcases s.sendReport_eq by_ report with h | ⟨-, h⟩ <;> rw [h]

@[simp] theorem sendReport_link : (s.sendReport by_ report).link = s.link := by
  rcases s.sendReport_eq by_ report with h | ⟨-, h⟩ <;> rw [h]

@[simp] theorem sendReport_bodies : (s.sendReport by_ report).bodies = s.bodies := by
  rcases s.sendReport_eq by_ report with h | ⟨-, h⟩ <;> rw [h]

@[simp] theorem sendReport_keySent : (s.sendReport by_ report).keySent = s.keySent := by
  rcases s.sendReport_eq by_ report with h | ⟨-, h⟩ <;> rw [h]

end

/-- A secret goes on with its next report, or is at its end. -/
theorem typeFrom_cases (s : BtKeyboard Host) (reports : List Report) :
    ((reports.isEmpty || !s.connected) = true ∧ s.typeFrom reports = (s.unsuspend, none)) ∨
      ∃ report rest, reports = report :: rest ∧ s.connected = true ∧
        s.typeFrom reports = (s.sendReport .secret report, some (.typing rest)) := by
  cases reports with
  | nil => exact .inl ⟨rfl, rfl⟩
  | cons report rest =>
    cases hconnected : s.connected with
    | false => exact .inl ⟨rfl, by simp [typeFrom, hconnected]⟩
    | true => exact .inr ⟨report, rest, rfl, rfl, by simp [typeFrom, hconnected]⟩

/-! ### The events -/

variable [DecidableEq Host]

/-- A choice of a computer goes on after its await. -/
def chooseNext (s : BtKeyboard Host) (i : Nat) : BtKeyboard Host :=
  match s.choices[i]? with
  | none => s
  | some (.storing address) =>
      -- the host that is already live changes nothing
      if address.isSome && s.connected && s.connectedAddr == address then
        { s with choices := s.choices.eraseIdx i }
      else { s.release with choices := s.choices.set i (.releasing address) }
  | some (.releasing address) => { s with choices := s.choices.set i (.disconnecting address) }
  | some (.disconnecting _) => { s with choices := s.choices.eraseIdx i }

/-- One event. -/
def step (s : BtKeyboard Host) : Event Host → BtKeyboard Host
  | .key bytes =>
      if s.forwards && bytes.length == reportBytes then
        { s.sendReport .key bytes with keySent := s.keySent ++ [bytes] }
      else s
  | .setForwarding next => { s.release with forwarding := next }
  | .loaded value => { s with forwarding := value }
  | .render => { s with forwardingRef := s.forwarding }
  | .onStatus host =>
      let s := { s with connected := host.isSome, connectedAddr := host }
      if host.isSome then s else s.release
  | .live host => { s with connected := true, connectedAddr := some host }
  | .linkUp host => { s with link := some host, delivered := [] }
  | .linkDown => { s with link := none, delivered := [] }
  | .backend => s.release
  | .withdraw => s.release
  | .suspend => { s with suspended := true, bodies := s.bodies ++ [.suspended] }
  | .settle i =>
      match s.bodies[i]? with
      | some .suspended => { s.unsuspend with bodies := s.bodies.eraseIdx i }
      | _ => s
  | .typeSecret reports =>
      if s.connected && s.forwardingRef && !s.suspended then
        let next := { s with suspended := true }.typeFrom reports
        { next.1 with bodies := s.bodies ++ next.2.toList }
      else s
  | .answered i ok =>
      match s.bodies[i]? with
      | some (.typing rest) =>
          let next := if ok then s.typeFrom rest else (s.unsuspend, none)
          { next.1 with
            bodies := match next.2 with
              | some body => s.bodies.set i body
              | none => s.bodies.eraseIdx i }
      | _ => s
  | .chooseHost address => { s with choices := s.choices ++ [.storing address] }
  | .chooseNext i => s.chooseNext i

/-- The keyboard after a run. -/
def run (es : List (Event Host)) : BtKeyboard Host := es.foldl step {}

end BtKeyboard

end OkRn.Keyboard
