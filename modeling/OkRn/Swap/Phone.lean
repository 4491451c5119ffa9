/-
OkRn/Swap/Phone.lean

One phone of a swap: the handshake's answers, the card, the goodbyes, and the link
they all go over.

A message is sent fragment by fragment; each waits for its acknowledgement, and in
between anything else may run.  What the library makes of a message comes with the
event: the number of fragments of the answer (one more than `n`), or a throw.

What a phone knows of the other is in its events only: nothing here assumes that the two
agree, or that the radio is in order.
-/
import Mathlib.Data.List.Basic

namespace OkRn.Swap

variable {Card : Type}

/-! ### The phone -/

/-- What `linked.link` shows. -/
inductive LinkShown
  | «open» | done | left | dropped
  deriving DecidableEq

/-- `SwapView`; all steps before `linked` are one. -/
inductive View (Card : Type)
  | before
  | linked (sent : Bool) (received : Option Card) (link : LinkShown)
  | failed
  deriving DecidableEq

/-- `state.step`; `past` is the state after the handshake, null in the source. -/
inductive Step
  | «open» | reveal | confirm | keys | done | past
  deriving DecidableEq

/-- What waits for the device or the link, before its message is sent. -/
inductive Pending
  | reveal | done | joining
  deriving DecidableEq

/-- What a message of a swap is. -/
inductive Kind (Card : Type)
  /-- The joiner's first message. -/
  | start
  /-- An answer of the handshake; the last one of the joiner's, after which it is linked. -/
  | answer (last : Bool)
  | card (c : Card)
  /-- `sealBye(session, 'done')`. -/
  | bye
  /-- `sealBye(session, 'leaving')`. -/
  | leaving
  deriving DecidableEq

/-- A fragment given to the link; `late` if the link was closed by then. -/
structure Fragment where
  message : Nat
  index : Nat
  total : Nat
  late : Bool
  deriving DecidableEq

/-- `sendMsg`, waiting for the acknowledgement of the last fragment `given`. -/
structure Sending (Card : Type) where
  message : Nat
  kind : Kind Card
  total : Nat
  given : Nat
  deriving DecidableEq

/-- One phone: the session, the link, and what is under way. -/
structure Phone (Card : Type) where
  state : Step
  view : View Card
  session : Bool
  ended : Bool
  linkClosed : Bool
  listening : Bool
  /-- `link.close` was called. -/
  closed : Bool
  pending : List Pending
  sendings : List (Sending Card)
  wire : List Fragment
  /-- The messages begun. -/
  begun : Nat
  /-- The cards sealed. -/
  cards : Nat

/-- A message that has come in whole, and what the library makes of it. -/
inductive Incoming (Card : Type)
  /-- The next of the handshake, with its answer. -/
  | shake (n : Nat)
  | card (c : Card)
  | bye
  | leaving
  /-- The library throws. -/
  | bad

/-- What may happen to a phone. -/
inductive Event (Card : Type)
  /-- A message is complete; `bye` is for a goodbye that it may cause. -/
  | message (m : Incoming Card) (bye : Nat)
  | badFrame
  /-- The radio's closed. -/
  | drop
  /-- The device shows its press, or the digits. -/
  | press
  /-- What was pending at `i` is there, and its message has `n + 1` fragments. -/
  | stepped (i : Nat) (n : Nat)
  | stepFails (i : Nat)
  /-- `host` fails before the link is up. -/
  | hostFails
  /-- The last fragment given of sending `i` is acknowledged. -/
  | acked (i : Nat) (bye : Nat)
  | refused (i : Nat)
  | send (c : Card) (n : Nat)
  /-- `send`, where the sealing throws. -/
  | sealFails
  | close (bye : Nat)
  /-- The 2 s that `close` gives its goodbye. -/
  | timeout

namespace Phone

/-- A message begins: its first fragment goes to the link. -/
def begin (p : Phone Card) (kind : Kind Card) (n : Nat) : Phone Card :=
  { p with
    wire := p.wire ++ [⟨p.begun, 0, n + 1, p.closed⟩]
    sendings := p.sendings ++ [⟨p.begun, kind, n + 1, 1⟩]
    begun := p.begun + 1 }

/-- `fail(e)`: the swap ends, once, and shows that it failed. -/
def fail (p : Phone Card) : Phone Card :=
  if p.ended then p
  else { p with ended := true, view := .failed, closed := true, listening := false }

/-- Only a linked view shows how the link ended. -/
def showLink (why : LinkShown) : View Card → View Card
  | .linked sent received _ => .linked sent received why
  | view => view

/-- The link is closed, once, and the view says why. -/
def closeLink (p : Phone Card) (why : LinkShown) : Phone Card :=
  if p.linkClosed then p
  else { p with linkClosed := true, listening := false, closed := true, view := showLink why p.view }

/-- The end of `close`. -/
def hangUp (p : Phone Card) : Phone Card :=
  { p with ended := true, linkClosed := true, listening := false, closed := true }

/-- Sent and received, on an open link. -/
def isDone (p : Phone Card) : Bool :=
  match p.view with
  | .linked true (some _) _ => !p.linkClosed
  | _ => false

/-- When both cards are over, the goodbye is sent. -/
def finishIfDone (p : Phone Card) (bye : Nat) : Phone Card :=
  if p.isDone then p.begin .bye bye else p

/-- Past the handshake, with no card yet. -/
def link (p : Phone Card) : Phone Card := { p with view := .linked false none .open }

/-- `onSealed`. -/
def onSealed (p : Phone Card) (m : Incoming Card) (bye : Nat) : Phone Card :=
  match m with
  | .shake _ | .bad => p.fail
  | .card c =>
      match p.view with
      | .linked sent _ link => { p with view := .linked sent (some c) link }.finishIfDone bye
      | _ => p
  | .bye =>
      match p.view with
      | .linked .. => p.closeLink .done
      | _ => p
  | .leaving =>
      match p.view with
      | .linked .. => p.closeLink .left
      | _ => p

/-- `onMessage`, the host's and the joiner's; a step that waits for the device keeps its state. -/
def onMessage (p : Phone Card) (m : Incoming Card) (bye : Nat) : Phone Card :=
  match p.state, m with
  | .past, m => p.onSealed m bye
  | .open, .shake n => { p with state := .reveal }.begin (.answer false) n
  | .keys, .shake n => { p with state := .done }.begin (.answer false) n
  -- the state is set after the wait, so a second message finds the old one
  | .reveal, _ => { p with pending := p.pending ++ [.reveal] }
  | .done, _ => { p with pending := p.pending ++ [.done] }
  -- the host is linked with the last message, the joiner when its last answer is out
  | .confirm, .shake _ => { p with state := .past, session := true }.link
  | _, _ => p.fail

/-- The listener hears. -/
def hears (p : Phone Card) : Bool := p.listening && !p.ended

/-- What was pending is there. -/
def resume (p : Phone Card) (n : Nat) : Pending → Phone Card
  | .joining => p.begin .start n
  | .reveal => { p with state := .confirm }.begin (.answer false) n
  | .done => { p with state := .past, session := true }.begin (.answer true) n

/-- `show({...view, sent: true})`, where the view is still linked. -/
def markSent (p : Phone Card) : Phone Card :=
  match p.view with
  | .linked _ received link => { p with view := .linked true received link }
  | _ => p

/-- A message went out whole. -/
def finished (p : Phone Card) (bye : Nat) : Kind Card → Phone Card
  | .start | .answer false => p
  | .answer true => p.link
  | .card _ => p.markSent.finishIfDone bye
  | .bye => p.closeLink .done
  | .leaving => p.hangUp

/-- A fragment was not acknowledged. -/
def broken (p : Phone Card) : Kind Card → Phone Card
  -- `send` catches with `fail`, which does not ask whether the link was closed
  | .start | .answer _ | .card _ => p.fail
  | .bye => p.closeLink .done
  | .leaving => p.hangUp

/-- `sendMsg`, after an acknowledgement: the next fragment, or the end. -/
def acked (p : Phone Card) (i bye : Nat) : Phone Card :=
  match p.sendings[i]? with
  | none => p
  | some s =>
      if s.given < s.total then
        -- whether the link was closed meanwhile is not asked
        { p with
          wire := p.wire ++ [⟨s.message, s.given, s.total, p.closed⟩]
          sendings := p.sendings.set i { s with given := s.given + 1 } }
      else { p with sendings := p.sendings.eraseIdx i }.finished bye s.kind

/-- A fragment is refused: its message is given up, and whoever waits for it hears. -/
def refused (p : Phone Card) (i : Nat) : Phone Card :=
  match p.sendings[i]? with
  | none => p
  | some s => { p with sendings := p.sendings.eraseIdx i }.broken s.kind

/-- The guard of `send`. -/
def maySend (p : Phone Card) : Bool :=
  match p.view with
  -- `sent` is set at the end of a send, so a second one may begin before
  | .linked false _ _ => p.session && !p.linkClosed
  | _ => false

/-- `send`: the card goes out, where it may. -/
def send (p : Phone Card) (c : Card) (n : Nat) : Phone Card :=
  if p.maySend then { p with cards := p.cards + 1 }.begin (.card c) n else p

/-- `close` says goodbye first. -/
def saysBye (p : Phone Card) : Bool :=
  match p.view with
  | .linked .. => p.session && !p.linkClosed
  | _ => false

/-- A goodbye of `close` is on its way. -/
def leaves (p : Phone Card) : Bool :=
  p.sendings.any fun s => match s.kind with
    | .leaving => true
    | _ => false

/-- What was pending goes on. -/
def stepped (p : Phone Card) (i n : Nat) : Phone Card :=
  match p.pending[i]? with
  | none => p
  | some x => { p with pending := p.pending.eraseIdx i }.resume n x

/-- What was pending throws. -/
def stepFails (p : Phone Card) (i : Nat) : Phone Card :=
  match p.pending[i]? with
  | none => p
  | some _ => { p with pending := p.pending.eraseIdx i }.fail

/-- One event. -/
def step (p : Phone Card) : Event Card → Phone Card
  | .message m bye => if p.hears then p.onMessage m bye else p
  | .badFrame => if p.hears then p.fail else p
  | .drop =>
      if p.hears then
        match p.view with
        | .linked .. => p.closeLink .dropped
        | _ => p.fail
      else p
  | .press => if .reveal ∈ p.pending ∨ .done ∈ p.pending then { p with view := .before } else p
  | .stepped i n => p.stepped i n
  | .stepFails i => p.stepFails i
  | .hostFails => if p.state = .open then p.fail else p
  | .acked i bye => p.acked i bye
  | .refused i => p.refused i
  | .send c n => p.send c n
  | .sealFails => if p.maySend then p.fail else p
  | .close bye => if p.saysBye then p.begin .leaving bye else p.hangUp
  | .timeout => if p.leaves then p.hangUp else p

/-- The phone that shows the invite. -/
def host : Phone Card := ⟨.open, .before, false, false, false, true, false, [], [], [], 0, 0⟩

/-- The phone that scanned it. -/
def join : Phone Card :=
  ⟨.keys, .before, false, false, false, true, false, [.joining], [], [], 0, 0⟩

/-! ### What an operation leaves alone -/

section

variable (p : Phone Card)

/-- It either leaves the phone or begins a goodbye. -/
theorem finishIfDone_eq (bye : Nat) :
    p.finishIfDone bye = p ∨ p.isDone = true ∧ p.finishIfDone bye = p.begin .bye bye := by
  unfold finishIfDone
  cases h : p.isDone with
  | false => exact .inl rfl
  | true => exact .inr ⟨rfl, rfl⟩

theorem fail_eq : (p.ended = true ∧ p.fail = p) ∨ (p.ended = false ∧
    p.fail = { p with ended := true, view := .failed, closed := true, listening := false }) := by
  unfold fail
  cases h : p.ended with
  | false => exact .inr ⟨rfl, rfl⟩
  | true => exact .inl ⟨rfl, rfl⟩

theorem closeLink_eq (why : LinkShown) :
    (p.linkClosed = true ∧ p.closeLink why = p) ∨ (p.linkClosed = false ∧
      p.closeLink why = { p with
        linkClosed := true, listening := false, closed := true, view := showLink why p.view }) := by
  unfold closeLink
  cases h : p.linkClosed with
  | false => exact .inr ⟨rfl, rfl⟩
  | true => exact .inl ⟨rfl, rfl⟩

variable {p}

/-- A card may go out of a linked phone that has sent none, on an open link. -/
theorem maySend_iff : p.maySend = true ↔
    (∃ received link, p.view = .linked false received link) ∧ p.session = true ∧
      p.linkClosed = false := by
  cases hv : p.view with
  | before => simp [maySend, hv]
  | failed => simp [maySend, hv]
  | linked sent received link => cases sent <;> simp [maySend, hv]

/-- A closing phone says so to the other only on an open link. -/
theorem saysBye_iff : p.saysBye = true ↔
    (∃ sent received link, p.view = .linked sent received link) ∧ p.session = true ∧
      p.linkClosed = false := by
  cases hv : p.view with
  | before => simp [saysBye, hv]
  | failed => simp [saysBye, hv]
  | linked sent received link => simp [saysBye, hv]

end

end Phone

end OkRn.Swap
