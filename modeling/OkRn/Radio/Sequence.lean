/-
OkRn/Radio/Sequence.lean

`RadioStatus`: the phone's Bluetooth going off and on, as an app restart for ours.

The radio's going off puts the chosen computer away; its coming back restarts our
services, again while they do not land where the computer knows them, and then picks
the computer again.  A render commits what the setters and the native side said, and
runs the effects whose values changed, in their order.

The choice is kept in storage, which answers later than it is asked:

* at a start the stored choice is read, and until the answer comes no computer is
  chosen (`reading`);
* a choice is in storage when its write has landed, one after the other (`writes`), so
  a kill before that loses it.
-/
import Mathlib.Data.List.Basic

namespace OkRn.Radio

/-- So often the services are restarted to land. -/
def LAYOUT_MAX_TRIES : Nat := 5

/-- The steps of a cycle. -/
inductive Step
  | idle
  | waitReady
  | waitStopped
  | waitPublished
  | waitLanded
  deriving DecidableEq

/-- What the hooks say at a render. -/
structure Status where
  radioOn : Option Bool := none
  ready : Bool := false
  published : Bool := false
  advertising : Bool := false
  deriving DecidableEq

/-- The services are stopped. -/
def Status.stopped (v : Status) : Bool := !v.published && !v.advertising

/-- Where our FIDO service is, and where a computer last completed a message with it. -/
structure Handles where
  now : Int
  known : Int
  deriving DecidableEq

/-- The state of the app that a cycle goes through. -/
structure App (Host : Type) where
  status : Status := {}
  on : Bool := false
  chosenHost : Option Host := none
  /-- What `setOn` and `setChosenHost` were last called with. -/
  nextOn : Bool := false
  nextChosen : Option Host := none
  /-- The choice in storage. -/
  stored : Option Host := none
  /-- The writes of choices under way, the oldest first. -/
  writes : List (Option Host) := []
  /-- What the read at the start found, until its answer is there. -/
  reading : Option (Option Host) := none
  step : Step := .idle
  layoutTries : Nat := 0
  lastRadio : Option Bool := none
  resumeHost : Option Host := none
  startChecked : Bool := false
  /-- The timers of landings to be tried again. -/
  timers : Nat := 0
  /-- The person's last choice, and how often this cycle stopped ours; no code reads these. -/
  lastChoice : Option Host := none
  restarts : Nat := 0
  deriving DecidableEq

/-- What can happen. -/
inductive Event (Host : Type)
  /-- A render; `radio` is the answer of `isRadioOn`, if one came. -/
  | commits (radio : Option Bool) (ready published advertising : Bool) (handles : Handles)
  /-- A landing's timer fires. -/
  | timeout
  | chooses (address : Option Host)
  | switches (next : Bool)
  /-- The stored choice has been read. -/
  | loads
  /-- The oldest write lands. -/
  | lands
  /-- The app is killed and started; the writes under way are lost. -/
  | killed

namespace App

variable {Host : Type}

/-- The app as it starts, with the person's choice in storage. -/
def start (stored : Option Host) : App Host :=
  { stored, reading := some stored, lastChoice := stored }

/-- A computer is chosen. -/
def chooseHost (s : App Host) (address : Option Host) : App Host :=
  { s with nextChosen := address, writes := s.writes ++ [address] }

/-- The answer of the read at the start; one that found nothing sets nothing. -/
def load (s : App Host) : App Host :=
  { s with nextChosen := s.reading.join.or s.nextChosen, reading := none }

/-- The oldest write lands. -/
def land (s : App Host) : App Host :=
  match s.writes with
  | [] => s
  | address :: writes => { s with stored := address, writes }

/-- The services are stopped. -/
def stopOurs (s : App Host) : App Host :=
  { s with step := .waitStopped, nextOn := false, restarts := s.restarts + 1 }

/-- A cycle begins. -/
def beginCycle (s : App Host) : App Host :=
  { s with layoutTries := 0, step := .waitReady, restarts := 0 }

/-- A cycle begins, at once where the radio is ready. -/
def waitReady (s : App Host) : App Host :=
  if s.status.ready then s.beginCycle.stopOurs else s.beginCycle

/-- The radio went off: the target is remembered, and none is chosen. -/
def putAway (s : App Host) : App Host :=
  match s.chosenHost with
  | some h => { s with step := .idle, resumeHost := some h }.chooseHost none
  | none => { s with step := .idle }

/-- The remembered computer is chosen again. -/
def pickAgain (s : App Host) : App Host :=
  match s.resumeHost with
  | some h => { s with step := .idle, resumeHost := none }.chooseHost (some h)
  | none => { s with step := .idle }

/-! ### The effects -/

/-- The radio's state is noted. -/
def noteRadio (s : App Host) : App Host := { s with lastRadio := s.status.radioOn }

/-- The effect of the radio's going off and on. -/
def radioEffect (s : App Host) : App Host :=
  if s.status.radioOn = none ∨ s.lastRadio = none ∨ s.status.radioOn = s.lastRadio then s.noteRadio
  else if s.status.radioOn = some false then s.noteRadio.putAway
  else if s.on then s.noteRadio.waitReady
  else s.noteRadio

/-- The check at the start. -/
def startCheck (handles : Handles) (s : App Host) : App Host :=
  if s.startChecked ∨ s.on = false ∨ s.status.advertising = false ∨ s.step ≠ .idle then s
  else if handles.known ≤ 0 ∨ handles.now = handles.known then { s with startChecked := true }
  else waitReady { s with startChecked := true, resumeHost := s.chosenHost }

/-- The radio is ready again. -/
def readyEffect (s : App Host) : App Host :=
  if s.step = .waitReady ∧ s.status.ready = true then s.stopOurs else s

/-- The services have stopped. -/
def stoppedEffect (s : App Host) : App Host :=
  if s.step ≠ .waitStopped ∨ s.on = true ∨ s.status.stopped = false then s
  else { s with step := .waitPublished, nextOn := true }

/-- The services are on again. -/
def onEffect (s : App Host) : App Host :=
  if s.step ≠ .waitPublished ∨ s.on = false then s else { s with step := .waitLanded }

/-- Ours landed elsewhere: once for an unknown position, and while tries are left. -/
def again (handles : Handles) (s : App Host) : Bool :=
  (handles.known ≤ 0 && s.layoutTries = 0 || 0 < handles.known && handles.now ≠ handles.known) &&
    decide (s.layoutTries < LAYOUT_MAX_TRIES)

/-- They have landed, somewhere. -/
def landedEffect (handles : Handles) (s : App Host) : App Host :=
  if s.step ≠ .waitLanded ∨ s.status.advertising = false then s
  else if s.again handles then
    { s with layoutTries := s.layoutTries + 1, step := .waitReady, timers := s.timers + 1 }
  else s.pickAgain

/-- The effect runs when one of its values changed. -/
def run (changed : Prop) [Decidable changed] (effect : App Host → App Host) (s : App Host) :
    App Host :=
  if changed then effect s else s

/-- A render, and the effects of what it changed. -/
def commit (s : App Host) (v : Status) (handles : Handles) : App Host :=
  let on := s.on ≠ s.nextOn
  let advertising := s.status.advertising ≠ v.advertising
  let next := { s with status := v, on := s.nextOn, chosenHost := s.nextChosen }
  run advertising (landedEffect handles)
    (run on onEffect
      (run (on ∨ s.status.stopped ≠ v.stopped) stoppedEffect
        (run (s.status.ready ≠ v.ready) readyEffect
          (run (advertising ∨ on) (startCheck handles)
            (run (s.status.radioOn ≠ v.radioOn) radioEffect next)))))

/-- One event. -/
def handle (s : App Host) : Event Host → App Host
  | .commits radio ready published advertising handles =>
      s.commit ⟨radio.or s.status.radioOn, ready, published, advertising⟩ handles
  | .timeout =>
      if s.timers = 0 then s
      else if s.step = .waitReady then { s with timers := s.timers - 1 }.stopOurs
      else { s with timers := s.timers - 1 }
  | .chooses address => { s.chooseHost address with lastChoice := address }
  | .switches next => { s with nextOn := next }
  | .loads => s.load
  | .lands => s.land
  | .killed => { start s.stored with lastChoice := s.lastChoice }

end App

end OkRn.Radio
