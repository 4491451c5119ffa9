/-
OkRn/Press/Wait.lean

The press sheet, and the press queue under it.

The firmware's wait is polled, its record of what it was handed is an event, and the
sheet joins the two by opcode, slot and time.  A tap on the sheet queues a press; a
sense round gives it to the operation that waits by then.
-/
import Mathlib.Data.List.Basic

namespace OkRn.Press

/-- How a request is approved. -/
inductive Mode
  | press
  | code
  | unknown
  deriving DecidableEq

/-- What a request does. -/
inductive What
  | sign
  | decrypt
  | hmac
  | edge
  | other
  deriving DecidableEq

/-- What an opcode does. -/
def whatOf (opcode : Nat) : What :=
  if opcode = 0xed then .sign
  else if opcode = 0xf0 then .decrypt
  else if opcode = 0xf5 then .hmac
  else if opcode = 0xf8 then .edge
  else .other

/-- A request the firmware waits for a press on, by its number. -/
structure Op where
  opcode : Nat
  slot : Nat
  inputMode : Mode
  label : Option (List UInt8)
  subject : List UInt8
  deriving DecidableEq

/-- HMAC and Edge always take a single press. -/
def Op.mode (op : Op) : Mode :=
  if whatOf op.opcode = .hmac ∨ whatOf op.opcode = .edge then .press else op.inputMode

/-- A sign or a decrypt comes with a record. -/
def Op.records (op : Op) : Bool := whatOf op.opcode = .sign || whatOf op.opcode = .decrypt

/-- What a poll reads; `op` is the request's number, which the app does not see. -/
structure KeyWaiting where
  what : What
  opcode : Nat
  slot : Nat
  mode : Mode
  entered : Nat
  op : Nat
  deriving DecidableEq

/-- What a poll says of a request that waits. -/
def Op.waiting (op : Op) (n entered : Nat) : KeyWaiting :=
  ⟨whatOf op.opcode, op.opcode, op.slot, op.mode, if op.mode = .code then entered else 0, n⟩

/-- `useKeyWaiting`'s: the poll saw nothing new. -/
def same (a b : KeyWaiting) : Bool :=
  a.what = b.what && a.opcode = b.opcode && a.slot = b.slot && a.mode = b.mode &&
    a.entered = b.entered

/-- `sameWait`. -/
def sameWait (a b : KeyWaiting) : Bool :=
  a.what = b.what && a.opcode = b.opcode && a.slot = b.slot

/-- The firmware's record, with the request's number, which is not in it. -/
structure FirmwarePress where
  opcode : Nat
  slot : Nat
  subject : List UInt8
  label : Option (List UInt8)
  at_ : Nat
  op : Nat
  deriving DecidableEq

/-- The record of a request. -/
def Op.press (op : Op) (n now : Nat) : FirmwarePress :=
  ⟨op.opcode, op.slot, op.subject, op.label, now, n⟩

/-- A wait, and when the app first saw it. -/
structure Wait where
  w : KeyWaiting
  since : Nat
  deriving DecidableEq

/-- The record of this wait: same opcode and slot, made just before the wait was seen. -/
def firmwarePressFor (lastPress : Option FirmwarePress) (wait : Wait) : Option FirmwarePress :=
  lastPress.filter fun p =>
    p.opcode = wait.w.opcode && p.slot = wait.w.slot && decide (wait.since - 3000 ≤ p.at_)

/-- What is on the screen. -/
structure Sheet where
  w : KeyWaiting
  fw : Option FirmwarePress
  deriving DecidableEq

/-- The request whose facts the sheet shows. -/
def Sheet.about (sheet : Sheet) : Nat := (sheet.fw.map (·.op)).getD sheet.w.op

/-- A press in the queue, and the sheet it was tapped on. -/
structure Queued where
  button : Nat
  sheet : Sheet
  deriving DecidableEq

/-- The firmware, and the app's side. -/
structure Phone where
  /-- The firmware: the request that waits with the digits entered, the records on their way to the
  app and the press queue. -/
  ops : List Op := []
  waiting : Option (Nat × Nat) := none
  records : List Nat := []
  queue : List Queued := []
  now : Nat := 1
  /-- The app: the last record, the poll that is out, what it saw last, and the sheet's state. -/
  lastPress : Option FirmwarePress := none
  reading : Option (Option KeyWaiting) := none
  seen : Option KeyWaiting := none
  changed : Bool := false
  last : Option KeyWaiting := none
  lastRecord : Nat := 0
  wait : Option Wait := none
  armed : Nat := 0
  armedAt : Nat := 0
  ready : Bool := false
  pressed : Bool := false
  sheet : Option Sheet := none
  edgeAsking : Bool := false
  calls : List Queued := []
  /-- Every sheet that was drawn, and who took each press; no code reads these. -/
  drawn : List Sheet := []
  taken : List (Queued × Nat) := []
  deriving DecidableEq

/-- What can happen. -/
inductive Event
  | starts (op : Op)
  /-- The request is answered, denied or timed out. -/
  | ends
  | recordArrives
  | polls
  | sees
  /-- The key is not the soft key any more, or not running. -/
  | disabled
  | effect
  | arms
  | wakes
  /-- The Edge request's own sheet comes or goes. -/
  | edgeSheet (asking : Bool)
  | draws
  | taps (button : Nat) (consentRefusal : Bool)
  | queues
  | sense
  | passes (ms : Nat)

namespace Phone

/-- When the last record came. -/
def latestPressAt (s : Phone) : Nat := (s.lastPress.map (·.at_)).getD 0

/-- When the wait was first seen. -/
def since (s : Phone) : Nat := (s.wait.map (·.since)).getD 0

/-- What a poll is answered. -/
def confirmState (s : Phone) : Option KeyWaiting :=
  s.waiting.bind fun x => s.ops[x.1]?.map fun op => op.waiting x.1 x.2

/-- `setWaiting`: what looks the same stays what it is, and is another request's if the poll saw
that one. -/
def setWaiting (s : Phone) (w : Option KeyWaiting) : Phone :=
  match s.seen, w with
  | some a, some b =>
      if same a b then
        { s with seen := w, wait := s.wait.map fun x => if x.w = a then { x with w := b } else x }
      else { s with seen := w, changed := true }
  | none, none => s
  | _, _ => { s with seen := w, changed := true }

/-- The effect that follows what was seen. -/
def effect (s : Phone) : Phone :=
  match s.seen with
  | none => { s with last := none, lastRecord := s.latestPressAt, wait := none }
  | some w =>
      if s.last.any (sameWait · w) && !decide (s.lastRecord < s.latestPressAt) then
        { s with wait := s.wait.map fun x => { x with w } }
      else
        { s with last := some w, lastRecord := s.latestPressAt, wait := some ⟨w, s.now⟩ }

/-- `okemu_press_queue`: six buttons, and 32 presses at once. -/
def pressQueue (s : Phone) (p : Queued) : Phone :=
  if s.queue.length < 32 ∧ 1 ≤ p.button ∧ p.button ≤ 6 then { s with queue := s.queue ++ [p] }
  else s

/-- The press goes to whichever request waits; the third digit of a code ends its wait. -/
def take (s : Phone) : Phone :=
  match s.queue with
  | [] => s
  | p :: queue =>
      match s.waiting with
      | none => { s with queue }
      | some (n, entered) =>
          let more := s.ops[n]?.any fun op => op.mode = .code && decide (entered < 2)
          { s with
            queue
            waiting := if more then some (n, entered + 1) else none
            taken := s.taken ++ [(p, n)] }

/-- One event. -/
def step (s : Phone) : Event → Phone
  | .starts op =>
      if s.waiting.isNone then
        { s with
          ops := s.ops ++ [op]
          waiting := some (s.ops.length, 0)
          records := if op.records then s.records ++ [s.ops.length] else s.records }
      else s
  | .ends => { s with waiting := none }
  | .recordArrives =>
      match s.records with
      | n :: records =>
          { s with
            records
            lastPress := s.ops[n]?.map fun op => op.press n s.now
            changed := true }
      | [] => s
  | .polls => if s.reading.isNone then { s with reading := some s.confirmState } else s
  | .sees =>
      match s.reading with
      | some w => { s with reading := none }.setWaiting w
      | none => s
  | .disabled => { s with reading := none }.setWaiting none
  | .effect => if s.changed then { s.effect with changed := false } else s
  | .arms =>
      if s.armed = s.since then s
      else { s with armed := s.since, armedAt := s.now, ready := false, pressed := false }
  | .wakes => if s.armedAt + 1000 ≤ s.now then { s with ready := true } else s
  | .edgeSheet asking => { s with edgeAsking := asking }
  | .draws =>
      let shown := s.wait.filter fun wait => !(wait.w.what = .edge && s.edgeAsking)
      let sheet := shown.map fun wait => ⟨wait.w, firmwarePressFor s.lastPress wait⟩
      { s with sheet, drawn := s.drawn ++ sheet.toList }
  | .taps button consentRefusal =>
      match s.sheet with
      | some sheet =>
          if s.ready = false ∨ sheet.w.mode = .press ∧ s.pressed = true ∨
              sheet.w.what = .edge ∧ consentRefusal = true then s
          else
            { s with
              pressed := s.pressed || sheet.w.mode = .press
              calls := s.calls ++ [⟨button, sheet⟩] }
      | none => s
  | .queues =>
      match s.calls with
      | p :: calls => { s with calls }.pressQueue p
      | [] => s
  | .sense => s.take
  | .passes ms => { s with now := s.now + ms }

end Phone

end OkRn.Press
