/-
OkRn/Gatt/Notify.lean

The notification queue: one message at a time, one fragment in the air.

All messages to all computers share one queue, one in-flight flag and one promise.
Each synchronized section is one step; a thread that is between two of them, or
outside the lock with a fragment it took, is a task.
-/
import Mathlib.Data.List.Basic

namespace OkRn.Gatt.Notify

/-- A computer's address. -/
abbrev Address := String

/-- The fragment `index` of a message. -/
structure Frag where
  msg : Nat
  index : Nat
  deriving DecidableEq

/-- A message that was queued. -/
structure Msg where
  size : Nat
  device : Address
  /-- A promise waits for it. -/
  asked : Bool
  deriving DecidableEq

/-- What a thread is about to do. -/
inductive Task
  | pump
  /-- Outside the lock, with a fragment that was taken. -/
  | hand (f : Frag) (device : Address)
  /-- The stack refused the fragment. -/
  | refused (f : Frag)
  /-- `onNotificationSent` has been called. -/
  | sent (f : Frag) (ok : Bool)
  /-- `clearNotifications` after a refusal or a bad status. -/
  | failed
  | clear
  /-- `onConnectionStateChange` of a computer that is gone. -/
  | gone (device : Address)
  | left (device : Address)
  /-- `setIoPolicy` with a new target. -/
  | retarget (next : Option Address)
  deriving DecidableEq

/-- The thread has a fragment, or its acknowledgement or refusal. -/
def Task.carries : Task → Bool
  | .hand .. | .refused _ | .sent .. => true
  | _ => false

/-- A fragment handed to the stack, and those of the same computer that it had not acknowledged. -/
structure Handed where
  frag : Frag
  device : Address
  unacked : List Frag
  deriving DecidableEq

/-- The notification queue, and what the stack has of it. -/
structure Queue where
  queue : List Frag := []
  inFlight : Bool := false
  busy : Bool := false
  promise : Option Nat := none
  device : Option Address := none
  centrals : List Address := []
  server : Bool := true
  tasks : List Task := []
  /-- The stack's side: the links, and what it accepted and has not acknowledged. -/
  linked : List Address := []
  outstanding : List (Frag × Address) := []
  /-- What happened, which no code reads: the messages by number, the one in the queue and how many
  of its fragments were taken, what was handed over and acknowledged, and how promises ended. -/
  messages : List Msg := []
  cur : Nat := 0
  taken : Nat := 0
  handed : List Handed := []
  acked : List (Frag × Address) := []
  settled : List (Nat × Bool) := []
  deriving DecidableEq

/-- What can happen. -/
inductive Event
  | enqueue (size : Nat) (device : Address) (asked : Bool)
  /-- A thread goes on; `accepts` is the stack's answer. -/
  | run (i : Nat) (accepts : Bool)
  | acknowledged (j : Nat) (ok : Bool)
  | connects (device : Address)
  | drops (device : Address)
  | setTarget (next : Option Address)
  | starts
  | stops

namespace Queue

/-- A thread begins. -/
def begins (s : Queue) (t : Task) : Queue := { s with tasks := s.tasks ++ [t] }

/-- The promise is resolved or rejected. -/
def settle (s : Queue) (ok : Bool) : Queue :=
  { s with promise := none, settled := s.settled ++ s.promise.toList.map (·, ok) }

/-- `clearNotifications`. -/
def clearNotifications (s : Queue) : Queue :=
  { s.settle false with queue := [], inFlight := false, device := none, busy := false }

/-- `enqueueNotifications`. -/
def enqueueNotifications (s : Queue) (size : Nat) (device : Address) (asked : Bool) : Queue :=
  let id := s.messages.length
  let messages := s.messages ++ [⟨size, device, asked⟩]
  if s.busy then
    { s with messages, settled := s.settled ++ if asked then [(id, false)] else [] }
  else
    { s with
      messages
      busy := true
      promise := if asked then some id else none
      device := some device
      queue := (List.range' 0 size).map (Frag.mk id)
      cur := id
      taken := 0
      tasks := s.tasks ++ [.pump] }

/-- `pumpNotifications`. -/
def pumpNotifications (s : Queue) : Queue :=
  if s.inFlight then s
  else
    match s.queue with
    | [] => { s.settle true with device := none, busy := false }
    | f :: queue =>
        match s.device.filter fun d => d ∈ s.centrals ∧ s.server = true with
        | none => s.clearNotifications
        | some d =>
            { s with queue, inFlight := true, taken := s.taken + 1, tasks := s.tasks ++ [.hand f d] }

/-- The next step of a thread. -/
def act (s : Queue) (accepts : Bool) : Task → Queue
  | .pump => s.pumpNotifications
  | .hand f device =>
      if accepts && decide (device ∈ s.linked) then
        { s with
          outstanding := s.outstanding ++ [(f, device)]
          handed := s.handed ++
            [⟨f, device, (s.outstanding.filter fun x => x.2 = device).map (·.1)⟩] }
      else s.begins (.refused f)
  | .refused _ => { s with inFlight := false }.begins .failed
  | .sent _ ok => { s with inFlight := false }.begins (if ok then .pump else .failed)
  | .failed => s.clearNotifications
  | .clear => s.clearNotifications
  | .gone device => { s with centrals := s.centrals.filter (· ≠ device) }.begins (.left device)
  | .left device => if s.device = some device then s.begins .clear else s
  | .retarget next => if s.device.isSome && s.device != next then s.begins .clear else s

/-- One event. -/
def step (s : Queue) : Event → Queue
  | .enqueue size device asked => s.enqueueNotifications size device asked
  | .run i accepts =>
      match s.tasks[i]? with
      | some t => { s with tasks := s.tasks.eraseIdx i }.act accepts t
      | none => s
  | .acknowledged j ok =>
      match s.outstanding[j]? with
      | some (f, device) =>
          { s with
            outstanding := s.outstanding.eraseIdx j
            acked := if ok then s.acked ++ [(f, device)] else s.acked }.begins (.sent f ok)
      | none => s
  | .connects device => { s with linked := s.linked ++ [device], centrals := s.centrals ++ [device] }
  | .drops device =>
      { s with
        linked := s.linked.filter (· ≠ device)
        outstanding := s.outstanding.filter fun x => x.2 ≠ device }.begins (.gone device)
  | .setTarget next => s.begins (.retarget next)
  | .starts => { s with server := true }
  | .stops =>
      { s with server := false, centrals := [], linked := [], outstanding := [] }.begins .clear

end Queue

end OkRn.Gatt.Notify
