/-
OkRn/Edge/Run.lean

Runs of the key: any requests, priming, presses, refusals, timeouts, restarts,
power cuts, backups, restores and wipes, in any order and of any length.

`step` is what one event does.  The clock of an event never runs backwards and
never starts before the last event's (`Event.Valid`).  A power cut falls at a
save: the event is cut off just before it, and the sector being written is left
as it was or unreadable.  `Reachable` collects the keys of all runs from an
erased flash.
-/
import OkRn.Edge.Recv
import Mathlib.Order.Monotone.Defs

namespace OkRn.Edge

/-! ### Restarts -/

/-- The flash after everything in the history. -/
def flashOf : List Entry → Bool → Sector
  | [] => fun _ => erased
  | .saved side sector :: l => Function.update (flashOf l) side sector
  | .boot (some (side, junk)) _ :: l => Function.update (flashOf l) side junk
  | .wiped :: _ => fun _ => erased
  | _ :: l => flashOf l

/-- The flash when the write of a sector was cut off. -/
def tear (torn : Option (Bool × Sector)) (flash : Bool → Sector) : Bool → Sector :=
  match torn with
  | none => flash
  | some (side, junk) => Function.update flash side junk

/-- The generation has just wrapped to 0: the record before it has the highest there is. -/
def wrapped (env : Env) (flash : Bool → Sector) : Bool :=
  match stateDecode env (flash false), stateDecode env (flash true) with
  | some a, some b => a.gen == 0 && b.gen == 0xFFFFFFFF
  | _, _ => false

/-- The process starts anew on this flash. -/
def reboot (env : Env) (torn : Option (Bool × Sector)) (flash : Bool → Sector) (core : Core)
    (log : List Entry) : Key :=
  let flash := tear torn flash
  Key.fresh flash core (.boot torn (!wrapped env flash) :: log)

/-! ### Events -/

/-- The inputs of a key: the host's reports, the core's hooks, the starts and stops. -/
inductive Event
  /-- An OKEDGE report. -/
  | recv (buf : Report) (t : Clock) (d : Draw)
  /-- The core primes an operation; `mode` is the slot's own input mode. -/
  | prime (opcode slot : UInt8) (msg : List UInt8) (mode : InputMode) (t : Clock)
  /-- The wait is over: a press, a solved challenge, or no press was needed. -/
  | run (t : Clock) (d : Draw)
  /-- A wrong challenge. -/
  | deny (t : Clock) (d : Draw)
  /-- The 20 s fade. -/
  | timeout (t : Clock) (d : Draw)
  | restart
  | backup (d : Draw) (max : Nat)
  | restore (sec : List UInt8)
  | wipe
  /-- Unlocking, config mode, setting a PIN: whatever the core does to its own state. -/
  | core (c : Core)

/-- The clock of an event goes on from the last one's. -/
def Clock.From (t : Clock) (now : Nat) : Prop := now ≤ t 0 ∧ Monotone t

/-- What can happen to a key: the clock goes on, and only the plugin primes its own opcode. -/
def Event.Valid (k : Key) : Event → Prop
  | .recv _ t _ | .run t _ | .deny t _ | .timeout t _ => t.From k.now
  | .prime opcode _ _ _ t => opcode ≠ okEdge ∧ t.From k.now
  | .restart | .backup _ _ | .restore _ | .wipe | .core _ => True

namespace Key

/-- Nothing sent yet. -/
def hush (k : Key) : Key := { k with out := [] }

/-- The clock has reached `n`. -/
def at_ (n : Nat) (k : Key) : Key := { k with now := n }

end Key

/-- One event; no event reads the clock at more than 16 places. -/
def step (env : Env) (e : Event) (k : Key) : Key :=
  match e with
  | .recv buf t d => (k.hush.recv env t d buf).at_ (t 16)
  | .prime opcode slot msg mode t => (k.hush.okcorePrime env t opcode slot msg mode).at_ (t 16)
  | .run t d => (k.hush.runPendingOp env t d).at_ (t 16)
  | .deny t d => (k.hush.giveUp env t d .deny).at_ (t 16)
  | .timeout t d => (k.hush.giveUp env t d .timeout).at_ (t 16)
  | .restart => reboot env none k.flash k.core k.log
  | .backup d max => (k.hush.backup env d max).1
  | .restore sec => k.hush.restore env sec
  | .wipe => k.hush.wipe
  | .core c => { k.hush with core := c }

/-- The sector being written when the power went: as it was, or unreadable. -/
def Torn (env : Env) (side : Bool) (torn : Option (Bool × Sector)) : Prop :=
  torn = none ∨ ∃ junk, torn = some (side, junk) ∧ stateDecode env junk = none

/-- The keys of all runs. -/
inductive Reachable (env : Env) : Key → Prop
  | new (core : Core) : Reachable env (Key.fresh (fun _ => erased) core [])
  | event {k : Key} (e : Event) : Reachable env k → e.Valid k → Reachable env (step env e k)
  /-- The power goes during `e`, at a save. -/
  | cut {k : Key} (e : Event) {post pre : List Entry} {side : Bool} {sector : Sector}
      {torn : Option (Bool × Sector)} : Reachable env k → e.Valid k →
      (step env e k).log = post ++ .saved side sector :: pre → k.log <:+ pre →
      Torn env side torn → Reachable env (reboot env torn (flashOf pre) k.core pre)

end OkRn.Edge
