/-
OkRn/Gatt/Bridges.lean

The two bridges on the one notification queue, for a target whose link and doors
stay up.

`fidoBridge` relays the key's keepalives and answers a request once; `vendorBridge`
chains its frames, and sends one when the promise of the one before has settled.
Both are rejected while a message is still being sent.
-/
import OkRn.Gatt.Notify

namespace OkRn.Gatt.Bridges

open Notify

/-! ### Fragments -/

/-- The largest fragment for an MTU. -/
def maxFragmentSize (mtu : Option Nat) : Nat := min (max (mtu.getD 23 - 3) 20) 512

/-- The continuation fragments of `left` bytes, with `room` sequence numbers left; none when they
run out. -/
def continuations (capacity : Nat) : Nat → Nat → Option Nat
  | _, 0 => some 0
  | 0, _ + 1 => none
  | room + 1, left + 1 => (continuations capacity room (left + 1 - capacity)).map (· + 1)

/-- How many fragments `CtapBle.fragment` makes. -/
def fragments (payload : List UInt8) (maxFragmentSize : Nat) : Option Nat :=
  let first := min (maxFragmentSize - 3) payload.length
  (continuations (maxFragmentSize - 1) 0x80 (payload.length - first)).map (· + 1)

/-! ### The bridges -/

/-- What the key gives: the response to a request, or a report. -/
inductive Answer
  | response (id : Nat) (payload : List UInt8)
  | report (payload : List UInt8)
  deriving DecidableEq

/-- The report that was given. -/
def Answer.report? : Answer → Option (List UInt8)
  | .report payload => some payload
  | .response .. => none

/-- The two bridges and the queue. -/
structure Radio where
  queue : Queue := {}
  mtu : Option Nat := none
  requestCounter : Nat := 0
  pendingRequests : List (Nat × Address) := []
  /-- The requests the FIDO bridge waits on the key for. -/
  handling : List Nat := []
  /-- The frames whose turn has not come, and the message whose promise the chain awaits. -/
  sending : List (List UInt8) := []
  awaited : Option Nat := none
  /-- What was sent or refused, with the message's number if it came to the queue, and the reports
  the key gave; no code reads these. -/
  given : List (Answer × Option Nat) := []
  pushed : List (List UInt8) := []

/-- The target has connected. -/
def Radio.start (target : Address) : Radio :=
  { queue := { centrals := [target], linked := [target] } }

/-- What can happen. -/
inductive Event
  | mtuChanged (mtu : Nat)
  | asks
  | keepAlive (id : Nat)
  /-- The key answers a request. -/
  | answers (id : Nat) (payload : List UInt8)
  | pushes (report : List UInt8)
  /-- The chain goes on. -/
  | turn
  /-- A thread of the queue goes on. -/
  | run (i : Nat)
  | acknowledged (j : Nat)

namespace Radio

variable (target : Address)

/-- `approvedDevice`. -/
def approvedDevice (s : Radio) (sender : Address) : Option Address :=
  if sender = target ∧ sender ∈ s.queue.centrals then some sender else none

/-- The computer that a request came from. -/
def pending (s : Radio) (id : Nat) : Option Address :=
  (s.pendingRequests.find? fun x => x.1 = id).map (·.2)

/-- A message that a promise waits for is queued. -/
def enqueue (s : Radio) (size : Nat) (device : Address) : Radio :=
  { s with queue := s.queue.enqueueNotifications size device true }

/-- `sendKeepAlive`. -/
def sendKeepAlive (s : Radio) (id : Nat) : Radio :=
  match (s.pending id).bind (s.approvedDevice target) with
  | some device => s.enqueue 1 device
  | none => s

/-- `respondToRequest`. -/
def respondToRequest (s : Radio) (id : Nat) (payload : List UInt8) : Radio :=
  let rest := { s with pendingRequests := s.pendingRequests.filter fun x => x.1 ≠ id }
  match (s.pending id).bind (s.approvedDevice target), fragments payload (maxFragmentSize s.mtu) with
  | some device, some size =>
      { rest.enqueue size device with
        given := s.given ++ [(.response id payload, some s.queue.messages.length)] }
  | _, _ => { rest with given := s.given ++ [(.response id payload, none)] }

/-- `sendVendorFrame`, a link of the chain. -/
def sendVendorFrame (s : Radio) (payload : List UInt8) : Radio :=
  match s.approvedDevice target target, fragments payload (maxFragmentSize s.mtu) with
  | some device, some size =>
      { s.enqueue size device with
        awaited := some s.queue.messages.length
        given := s.given ++ [(.report payload, some s.queue.messages.length)] }
  | _, _ => { s with awaited := none, given := s.given ++ [(.report payload, none)] }

/-- The promise the chain waits for has settled. -/
def Ready (s : Radio) : Prop := ∀ m ∈ s.awaited, m ∈ s.queue.settled.map (·.1)

instance (s : Radio) : Decidable s.Ready := inferInstanceAs (Decidable (∀ m ∈ s.awaited, _))

/-- One event. -/
def step (s : Radio) : Event → Radio
  | .mtuChanged mtu => { s with mtu := some mtu }
  | .asks =>
      { s with
        requestCounter := s.requestCounter + 1
        pendingRequests := (s.requestCounter + 1, target) :: s.pendingRequests
        handling := (s.requestCounter + 1) :: s.handling }
  | .keepAlive id => if id ∈ s.handling then s.sendKeepAlive target id else s
  | .answers id payload =>
      if id ∈ s.handling then
        { s with handling := s.handling.filter (· ≠ id) }.respondToRequest target id payload
      else s
  | .pushes report => { s with sending := s.sending ++ [report], pushed := s.pushed ++ [report] }
  | .turn =>
      match s.sending with
      | frame :: sending =>
          if s.Ready then { s with sending }.sendVendorFrame target frame else s
      | [] => s
  | .run i => { s with queue := s.queue.step (.run i true) }
  | .acknowledged j => { s with queue := s.queue.step (.acknowledged j true) }

end Radio

end OkRn.Gatt.Bridges
