/-
OkRn/Approve/Sheet.lean

The Edge request sheet, and the messages, taps and timers that share it.

Messages are handled one at a time; a budget or identity request that comes while
one is under way is answered busy.  There is one sheet: a request shows its own, and
a handler that fails ends whatever sheet is up, also one that an earlier request has
left there, and also the request's own sheet that has timed out (`caught`).  A tap on
Press waits for the key and then marks the sheet that is up by then (`pressEnds`).

* `Change.Own` says what may become of a sheet: its own request changes it until it is
  done, a tap changes the sheet it was made on, a sheet that timed out is only closed;
* `World.Own` says it of all changes of a run, with the answers that the messages and
  the approve taps got;
* `World.KeepsToItsSheet` is the condition on the events: no message fails while
  another's sheet or one that timed out is up, no press ends on another's sheet, and
  no lookup of a computer fails;
* `World.Inv` ties the sheet that is up to the stage of the handler under way.

Main results: `sheet_is_its_requests_own` (runs of such events), and
`failed_sync_ends_a_timeout`, `failed_save_ends_its_own_timeout` (a failure takes
away a sheet that nobody has closed).
-/
import OkRn.Lib.Along
import Mathlib.Data.List.Perm.Basic

namespace OkRn.Approve.Sheet

/-! ### The sheet -/

/-- What a message is answered. -/
inductive Result
  | ok (text : String) (grantId : Option Nat)
  | refused (refusal : String) (detail : Option String)
  deriving DecidableEq

/-- How far a sheet is. -/
inductive Phase
  | ask | press | pressed
  | done (result : Result)
  deriving DecidableEq

/-- The sheet, with the number of the request it shows. -/
structure SheetState where
  owner : Nat
  phase : Phase
  deriving DecidableEq

namespace SheetState

/-- Ended with this refusal. -/
def endedWith (sheet : SheetState) (refusal : String) : Bool :=
  match sheet.phase with
  | .done (.refused r _) => r == refusal
  | _ => false

/-- The sheet shows a result and waits to be closed. -/
def isDone (sheet : SheetState) : Bool :=
  match sheet.phase with
  | .done _ => true
  | _ => false

/-- Ended because nobody answered; it waits for somebody to close it. -/
def timedOut (sheet : SheetState) : Bool := sheet.endedWith "timeout"

end SheetState

/-- What changed the sheet. -/
inductive Cause
  /-- A message's own progress or failure. -/
  | own (message : Nat)
  /-- A tap on Press, made on this request's sheet. -/
  | tap (owner : Nat)
  | close
  /-- The 30 s after a decline. -/
  | timer

/-- A change of the sheet that is shown, with what made it. -/
structure Change where
  before : Option SheetState
  after : Option SheetState
  cause : Cause

/-- The change is the sheet's own: by its request, by a tap on it, by its timer, or by the next
request once it is done. A sheet that timed out is closed by the person, and nothing else
changes it: not its own request either. -/
def Change.Own (ch : Change) : Prop :=
  match ch.before, ch.after, ch.cause with
  | none, some a, .own m => a.owner = m
  | some b, some a, .own m =>
      b.timedOut = false ∧ a.owner = m ∧ (b.owner = m ∨ b.isDone = true ∧ a.phase = .ask)
  | some b, some a, .tap o => b.timedOut = false ∧ b.owner = o ∧ a.owner = o
  | some b, none, .close => b.isDone = true
  | some b, none, .timer => b.timedOut = false ∧ b.endedWith "declined" = true
  | _, _, _ => False

/-! ### The messages -/

/-- The messages that ask a person, and the others. -/
inductive Kind
  | budget
  | identitySet
  /-- A sync message, an identity GET, or another type. -/
  | other
  deriving DecidableEq

/-- Only a request that shows a sheet is turned away while another is under way. -/
def Kind.asks : Kind → Bool
  | other => false
  | _ => true

/-- What became of the question on a sheet. -/
inductive Answer
  | approve | decline | timeout
  deriving DecidableEq

/-- Why a message gets no answer. -/
inductive Silence
  | malformed | replayed | switchedOff | unpaired
  /-- `btTransit.computer` failed. -/
  | lookupFailed
  deriving DecidableEq

/-- How far the handler is. -/
inductive Stage
  /-- Before `unattended`. -/
  | early
  /-- After it, before the sheet. -/
  | late
  | asking
  | answered (a : Answer)
  /-- The press was asked for. -/
  | pressing
  /-- `saveSeen`, with what is to be returned. -/
  | saving (reply : Option Result)
  deriving DecidableEq

/-- The message that is handled, and how far it is. -/
structure Active where
  id : Nat
  kind : Kind
  stage : Stage
  deriving DecidableEq

/-- The messages and their queue, the sheet that is up, the taps on it, and what came of all of
them. -/
structure World where
  next : Nat
  queue : List (Nat × Kind)
  active : Option Active
  inFlight : Bool
  current : Option SheetState
  /-- `answer`: the request that it answers. -/
  answer : Option Nat
  /-- The taps on Press whose press has not ended, with the requests they were made on. -/
  presses : List Nat
  /-- What the messages were answered. -/
  replies : List (Nat × Kind × Option Result)
  silences : List (Nat × Silence)
  changes : List Change
  /-- The approve taps: the request shown, and the one that was answered. -/
  approved : List (Option Nat × Nat)

/-- The parts of a handler, the taps on the sheet, and the messages that come in. -/
inductive Event
  | arrive (kind : Kind)
  | begin
  /-- The handler returns null. -/
  | silent (why : Silence)
  /-- It returns without a sheet; a request that asks is refused so, or not at all. -/
  | returns (r : Result)
  /-- `unattended`. -/
  | check
  /-- `askPerson`. -/
  | ask
  /-- An awaited step throws. -/
  | throws
  /-- The key is asked, `onPress`. -/
  | onPress
  /-- The request's end is shown. -/
  | decided (r : Result)
  | saved
  | saveFails
  | answerSheet (approve : Bool)
  /-- The 2 minutes. -/
  | timeUp
  | pressFromSheet
  | pressEnds (i : Nat) (ok : Bool)
  | closeSheet
  | declinedTimer

/-- The request was carried out. -/
def Result.isOk : Result → Bool
  | .ok _ _ => true
  | .refused _ _ => false

/-- The answer to a request that comes while another one is under way. -/
def busy : Result :=
  .refused "busy" (some "another request is on the phone - ask again when it is answered")

/-- The answer to a request while a sheet that timed out is still up. -/
def unattendedResult : Result :=
  .refused "timeout"
    (some "nobody is at the phone - an earlier request timed out and nobody has checked yet")

/-- The end of a handler that failed; the reason is left out. -/
def failed : Result := .refused "invalid" (some "the phone failed")

namespace World

/-- `show`. -/
def «show» (w : World) (cause : Cause) (sheet : Option SheetState) : World :=
  { w with current := sheet, changes := w.changes ++ [⟨w.current, sheet, cause⟩] }

/-- A sheet that timed out is still up: nobody has looked. -/
def unattended (w : World) : Bool := w.current.any SheetState.timedOut

/-- The handler goes on to this stage. -/
def setStage (w : World) (a : Active) (stage : Stage) : World :=
  { w with active := some { a with stage := stage } }

/-- The message is answered, and the next may begin. -/
def finish (w : World) (a : Active) (reply : Option Result) : World :=
  { w with
    active := none
    inFlight := if a.kind.asks then false else w.inFlight
    replies := w.replies ++ [(a.id, a.kind, reply)] }

/-- The `catch` of `handleEdgeMessage`. -/
def caught (w : World) (a : Active) : World :=
  match w.current with
  | none => w.finish a (some failed)
  | some sheet =>
      -- the sheet that is up, whoever's it is
      (w.show (.own a.id) (some { sheet with phase := .done failed })).finish a (some failed)

/-- A message comes in: it is answered busy at once, or it joins the queue. -/
def arrive (w : World) (kind : Kind) : World :=
  -- one request at a time: a second one is turned away before the queue
  if kind.asks && w.inFlight then
    { w with next := w.next + 1, replies := w.replies ++ [(w.next, kind, some busy)] }
  else
    { w with
      next := w.next + 1
      inFlight := w.inFlight || kind.asks
      queue := w.queue ++ [(w.next, kind)] }

/-- The first of the queue is handled, when none is. -/
def begin (w : World) : World :=
  match w.active, w.queue with
  | none, (id, kind) :: rest => { w with active := some ⟨id, kind, .early⟩, queue := rest }
  | _, _ => w

/-- What the handler under way does. -/
def handle (w : World) (a : Active) (e : Event) : World :=
  match e, a.stage with
  | .silent why, .early | .silent why, .late =>
      { w with silences := w.silences ++ [(a.id, why)] }.setStage a (.saving none)
  | .returns r, .early | .returns r, .late =>
      if a.kind.asks && r.isOk then w else w.setStage a (.saving (some r))
  | .check, .early =>
      if w.unattended then w.setStage a (.saving (some unattendedResult))
      else w.setStage a .late
  | .ask, .late =>
      if a.kind.asks then
        { (w.show (.own a.id) (some ⟨a.id, .ask⟩)).setStage a .asking with answer := some a.id }
      else w
  -- the sheet stays as it is until the end is decided
  | .timeUp, .asking => { w.setStage a (.answered .timeout) with answer := none }
  | .onPress, .answered .approve =>
      (w.show (.own a.id) (some ⟨a.id, .press⟩)).setStage a .pressing
  | .decided r, .answered _ | .decided r, .pressing =>
      (w.show (.own a.id) (some ⟨a.id, .done r⟩)).setStage a (.saving (some r))
  -- the wait for the person does not throw
  | .throws, .asking | .throws, .saving _ => w
  | .throws, _ => w.caught a
  | .saved, .saving reply => w.finish a reply
  | .saveFails, .saving _ => w.caught a
  | _, _ => w

/-- `answerSheet`. -/
def answerSheet (w : World) (approve : Bool) : World :=
  match w.answer, w.active with
  | some id, some a =>
      { w.setStage a (.answered (if approve then .approve else .decline)) with
        answer := none
        approved :=
          if approve then w.approved ++ [(w.current.map SheetState.owner, id)] else w.approved }
  | _, _ => w

/-- The rest of `pressFromSheet`. -/
def pressEnds (w : World) (i : Nat) (ok : Bool) : World :=
  match w.presses[i]? with
  | none => w
  | some owner =>
      let w := { w with presses := w.presses.eraseIdx i }
      match w.current with
      | some sheet =>
          -- whose press it was is not asked
          if ok ∧ sheet.phase = .press then
            w.show (.tap owner) (some { sheet with phase := .pressed })
          else w
      | none => w

/-- What an event does to the sheet and the messages. -/
def step (w : World) (e : Event) : World :=
  match e with
  | .arrive kind => w.arrive kind
  | .begin => w.begin
  | .answerSheet approve => w.answerSheet approve
  | .pressFromSheet =>
      match w.current with
      | some sheet => { w with presses := w.presses ++ [sheet.owner] }
      | none => w
  | .pressEnds i ok => w.pressEnds i ok
  | .closeSheet =>
      match w.current with
      | some sheet => if sheet.isDone then w.show .close none else w
      | none => w
  | .declinedTimer =>
      match w.current with
      | some sheet => if sheet.endedWith "declined" then w.show .timer none else w
      | none => w
  | e =>
      match w.active with
      | some a => w.handle a e
      | none => w

/-- The app has started. -/
def started : World := ⟨0, [], none, false, none, none, [], [], [], [], []⟩

/-- Answered, under way or waiting. -/
def ids (w : World) : List Nat :=
  w.replies.map Prod.fst ++ (w.active.toList.map Active.id ++ w.queue.map Prod.fst)

/-- The request's sheet has come up, to ask the person. -/
def Shown (w : World) (id : Nat) : Prop := ∃ ch ∈ w.changes, ch.after = some ⟨id, .ask⟩

/-- The message got what it is due: nothing only if it is malformed, replayed, switched off or of
no paired computer, and a request's Yes only after its sheet was up. -/
def Due (w : World) (id : Nat) (kind : Kind) : Option Result → Prop
  | none => ∃ why, (id, why) ∈ w.silences ∧ why ≠ .lookupFailed
  | some r => kind.asks = true → r.isOk = true → w.Shown id

/-- Every change of the sheet is its own; every message is answered once, with what it is due; an
approve tap answers the request that is shown. -/
def Own (w : World) : Prop :=
  (∀ ch ∈ w.changes, ch.Own) ∧ w.ids.Perm (List.range w.next) ∧
    (∀ r ∈ w.replies, w.Due r.1 r.2.1 r.2.2) ∧ ∀ t ∈ w.approved, t.1 = some t.2

/-- No message fails while another's sheet or one that timed out is up, no press ends on another's
sheet, and no lookup of a computer fails. -/
def KeepsToItsSheet (w : World) : Event → Prop
  | .throws | .saveFails => ∀ a ∈ w.active, ∀ sheet ∈ w.current,
      sheet.owner = a.id ∧ sheet.timedOut = false
  | .pressEnds i _ => ∀ owner ∈ w.presses[i]?, ∀ sheet ∈ w.current,
      sheet.phase = .press → sheet.owner = owner
  | .silent why => why ≠ .lookupFailed
  | _ => True

/-! ### What such events keep -/

/-- Nobody is asked: a sheet that is up is done. -/
def Idle (w : World) : Prop :=
  w.answer = none ∧ ∀ sheet, w.current = some sheet → sheet.isDone = true

/-- The sheet is where the handler is. -/
def Placed (w : World) : Prop :=
  match w.active with
  | none => w.Idle
  | some a =>
      match a.stage with
      | .early => w.Idle
      | .late => w.Idle ∧ w.unattended = false
      | .asking => w.Shown a.id ∧ w.answer = some a.id ∧ w.current = some ⟨a.id, .ask⟩
      | .answered _ => w.Shown a.id ∧ w.answer = none ∧ w.current = some ⟨a.id, .ask⟩
      | .pressing =>
          w.Shown a.id ∧ w.answer = none ∧
            (w.current = some ⟨a.id, .press⟩ ∨ w.current = some ⟨a.id, .pressed⟩)
      | .saving reply => w.Idle ∧ w.Due a.id a.kind reply

/-- The changes so far are each its request's own, and the sheet that is up fits the handler. -/
structure Inv (w : World) : Prop where
  own : w.Own
  placed : w.Placed

variable {w : World} {a : Active}

/-- What was shown is still shown of the run after another change. -/
theorem Shown.show {id : Nat} (h : w.Shown id) (cause : Cause) (sheet : Option SheetState) :
    (w.show cause sheet).Shown id :=
  h.imp fun _ hch => ⟨List.mem_append_left _ hch.1, hch.2⟩

/-- What a message is due stays its due: changes and silences are only added. -/
theorem Due.mono {w' : World} {id : Nat} {kind : Kind} {reply : Option Result}
    (h : w.Due id kind reply) (hchanges : ∀ ch ∈ w.changes, ch ∈ w'.changes)
    (hsilences : ∀ x ∈ w.silences, x ∈ w'.silences) : w'.Due id kind reply := by
  cases reply with
  | none =>
    obtain ⟨why, hmem, hne⟩ := h
    exact ⟨why, hsilences _ hmem, hne⟩
  | some r =>
    intro hasks hok
    obtain ⟨ch, hmem, hafter⟩ := h hasks hok
    exact ⟨ch, hchanges ch hmem, hafter⟩

/-- What a message is due stays due after another change. -/
theorem Due.show {id : Nat} {kind : Kind} {reply : Option Result} (h : w.Due id kind reply)
    (cause : Cause) (sheet : Option SheetState) : (w.show cause sheet).Due id kind reply :=
  h.mono (fun _ hch => List.mem_append_left _ hch) fun _ hx => hx

/-- A sheet that ended is done. -/
theorem isDone_of_endedWith {sheet : SheetState} {refusal : String}
    (h : sheet.endedWith refusal = true) : sheet.isDone = true := by
  obtain ⟨owner, phase⟩ := sheet
  cases phase with
  | done result => rfl
  | _ => cases h

/-- A sheet that is not done has not timed out. -/
theorem timedOut_of_phase {owner : Nat} {phase : Phase}
    (h : SheetState.isDone ⟨owner, phase⟩ = false) : SheetState.timedOut ⟨owner, phase⟩ = false := by
  cases phase with
  | done result => cases h
  | _ => rfl

/-- A sheet that was declined did not time out. -/
theorem timedOut_of_declined {sheet : SheetState} (h : sheet.endedWith "declined" = true) :
    sheet.timedOut = false := by
  obtain ⟨owner, phase⟩ := sheet
  cases phase with
  | done result =>
    cases result with
    | ok text grantId => rfl
    | refused refusal detail =>
      simp only [SheetState.endedWith, beq_iff_eq] at h
      subst h
      rfl
  | _ => rfl

/-- A change of the sheet that is its own. -/
theorem Own.show (h : w.Own) {cause : Cause} {sheet : Option SheetState}
    (hch : Change.Own ⟨w.current, sheet, cause⟩) : (w.show cause sheet).Own := by
  refine ⟨fun ch hmem => ?_, h.2.1, fun r hr => (h.2.2.1 r hr).show cause sheet, h.2.2.2⟩
  rcases List.mem_append.mp hmem with hmem | hmem
  · exact h.1 ch hmem
  · rw [List.mem_singleton.mp hmem]
    exact hch

/-- The end of a handler answers its message and leaves the others. -/
theorem ids_finish (hact : w.active = some a) (reply : Option Result) :
    (w.finish a reply).ids = w.ids := by
  simp [ids, World.finish, hact]

/-- The handler ends, with what the message is due. -/
theorem Own.finish (h : w.Own) (hact : w.active = some a) {reply : Option Result}
    (hreply : w.Due a.id a.kind reply) : (w.finish a reply).Own := by
  refine ⟨h.1, ?_, fun r hr => ?_, h.2.2.2⟩
  · rw [ids_finish hact]
    exact h.2.1
  · rcases List.mem_append.mp hr with hr | hr
    · exact h.2.2.1 r hr
    · rw [List.mem_singleton.mp hr]
      exact hreply

/-- A stage says nothing about the changes. -/
theorem Own.setStage (h : w.Own) (hact : w.active = some a) (stage : Stage) :
    (w.setStage a stage).Own := by
  refine ⟨h.1, ?_, h.2.2⟩
  have hids : (w.setStage a stage).ids = w.ids := by simp [ids, World.setStage, hact]
  rw [hids]
  exact h.2.1

/-- A refusal is due whatever was shown. -/
theorem due_refused (w : World) (id : Nat) (kind : Kind) {r : Result} (hr : r.isOk = false) :
    w.Due id kind (some r) := fun _ hok => by
  rw [hr] at hok
  cases hok

/-- A failed message ends its own sheet. -/
theorem Inv.caught (h : Inv w) (hact : w.active = some a)
    (hkeeps : ∀ sheet, w.current = some sheet → sheet.owner = a.id ∧ sheet.timedOut = false)
    (hans : w.answer = none) : Inv (w.caught a) := by
  unfold World.caught
  cases hcur : w.current with
  | none =>
    refine ⟨h.own.finish hact (due_refused w a.id a.kind rfl), hans, fun sheet hs => ?_⟩
    have hs' : w.current = some sheet := hs
    rw [hcur] at hs'
    cases hs'
  | some sheet =>
    obtain ⟨howner, htime⟩ := hkeeps sheet hcur
    have hch : Change.Own ⟨w.current, some { sheet with phase := .done failed }, .own a.id⟩ := by
      rw [hcur]
      exact ⟨htime, howner, .inl howner⟩
    have hshow : (w.show (.own a.id) (some { sheet with phase := .done failed })).active = some a :=
      hact
    refine ⟨(h.own.show hch).finish hshow (due_refused _ a.id a.kind rfl), hans,
      fun sheet' hs => ?_⟩
    cases hs
    rfl

/-- The request's end is shown on its sheet. -/
theorem Inv.decided (h : Inv w) (hact : w.active = some a) (hshown : w.Shown a.id)
    (hans : w.answer = none) {phase : Phase} (hcur : w.current = some ⟨a.id, phase⟩)
    (hphase : SheetState.isDone ⟨a.id, phase⟩ = false) (r : Result) :
    Inv ((w.show (.own a.id) (some ⟨a.id, .done r⟩)).setStage a (.saving (some r))) := by
  have hch : Change.Own ⟨w.current, some ⟨a.id, .done r⟩, .own a.id⟩ := by
    rw [hcur]
    exact ⟨timedOut_of_phase hphase, rfl, .inl rfl⟩
  have hshow : (w.show (.own a.id) (some ⟨a.id, .done r⟩)).active = some a := hact
  refine ⟨(h.own.show hch).setStage hshow _, ⟨hans, fun sheet hs => ?_⟩,
    fun _ _ => hshown.show _ _⟩
  cases hs
  rfl

/-- A message that comes in changes no sheet. -/
theorem Inv.arrive (h : Inv w) (kind : Kind) : Inv (w.arrive kind) := by
  unfold World.arrive
  split
  · refine ⟨⟨h.own.1, ?_, fun r hr => ?_, h.own.2.2.2⟩, h.placed⟩
    · show List.Perm ((w.replies ++ [_]).map Prod.fst ++ _) (List.range (w.next + 1))
      rw [List.map_append, List.range_succ, List.append_assoc]
      refine List.Perm.trans ?_ (h.own.2.1.append_right [w.next])
      rw [ids, List.append_assoc]
      exact List.perm_append_comm.append_left _
    · rcases List.mem_append.mp hr with hr | hr
      · exact h.own.2.2.1 r hr
      · rw [List.mem_singleton.mp hr]
        exact due_refused w w.next kind rfl
  · refine ⟨⟨h.own.1, ?_, h.own.2.2⟩, h.placed⟩
    show List.Perm (w.replies.map Prod.fst ++ (w.active.toList.map Active.id ++
      (w.queue ++ [_]).map Prod.fst)) (List.range (w.next + 1))
    rw [List.map_append, List.range_succ, ← List.append_assoc, ← List.append_assoc,
      List.append_assoc (w.replies.map Prod.fst)]
    exact h.own.2.1.append_right [w.next]

/-- The turn of a message changes no sheet. -/
theorem Inv.begin (h : Inv w) : Inv w.begin := by
  have hplaced := h.placed
  unfold World.begin
  split
  · rename_i id kind rest hact hqueue
    refine ⟨⟨h.own.1, ?_, h.own.2.2⟩, ?_⟩
    · have hids := h.own.2.1
      unfold ids at hids ⊢
      rw [hact, hqueue] at hids
      exact hids
    · unfold Placed at hplaced
      rw [hact] at hplaced
      exact hplaced
  · exact h

/-- The person's answer changes the sheet of the request that asked. -/
theorem Inv.answerSheet (h : Inv w) (approve : Bool) : Inv (w.answerSheet approve) := by
  have hplaced := h.placed
  unfold World.answerSheet
  split
  · rename_i id a hans hact
    -- only a handler that asks has an answer to come
    have hasking : a.id = id ∧ w.Shown a.id ∧ w.current = some ⟨a.id, .ask⟩ := by
      unfold Placed Idle at hplaced
      rw [hact, hans] at hplaced
      cases hst : a.stage with
      | asking =>
        simp only [hst] at hplaced
        exact ⟨(Option.some.inj hplaced.2.1).symm, hplaced.1, hplaced.2.2⟩
      | _ =>
        simp only [hst] at hplaced
        grind
    obtain ⟨rfl, hshown, hcur⟩ := hasking
    have hstage := h.own.setStage hact (.answered (if approve then .approve else .decline))
    refine ⟨⟨hstage.1, hstage.2.1, hstage.2.2.1, fun t ht => ?_⟩, hshown, rfl, hcur⟩
    cases approve with
    | false => exact h.own.2.2.2 t ht
    | true =>
      rcases List.mem_append.mp ht with ht | ht
      · exact h.own.2.2.2 t ht
      · rw [List.mem_singleton.mp ht, hcur]
        rfl
  · exact h

/-- The sheet goes; nobody was asked. -/
theorem Inv.hide (h : Inv w) {sheet : SheetState} (hcur : w.current = some sheet)
    (hdone : sheet.isDone = true) {cause : Cause}
    (hch : Change.Own ⟨some sheet, none, cause⟩) : Inv (w.show cause none) := by
  have hplaced := h.placed
  refine ⟨h.own.show (by rw [hcur]; exact hch), ?_⟩
  have hidle (hi : w.Idle) : (w.show cause none).Idle := ⟨hi.1, fun _ hs => by cases hs⟩
  -- a sheet that is up for the handler is not done
  have hnot (id : Nat) (phase : Phase) (hp : w.current = some ⟨id, phase⟩)
      (hph : SheetState.isDone ⟨id, phase⟩ = false) : False := by
    rw [hcur] at hp
    cases hp
    rw [hph] at hdone
    cases hdone
  unfold Placed at hplaced ⊢
  cases hact : w.active with
  | none =>
    simp only [hact] at hplaced
    show (match w.active with
      | none => _
      | some a => _)
    rw [hact]
    exact hidle hplaced
  | some a =>
    simp only [hact] at hplaced
    show (match w.active with
      | none => _
      | some a => _)
    rw [hact]
    -- only where nobody is asked can the sheet that goes be done
    cases hst : a.stage with
    | early =>
      simp only [hst] at hplaced ⊢
      exact hidle hplaced
    | late =>
      simp only [hst] at hplaced ⊢
      exact ⟨hidle hplaced.1, rfl⟩
    | asking =>
      simp only [hst] at hplaced
      exact (hnot a.id .ask hplaced.2.2 rfl).elim
    | answered x =>
      simp only [hst] at hplaced
      exact (hnot a.id .ask hplaced.2.2 rfl).elim
    | pressing =>
      simp only [hst] at hplaced
      rcases hplaced.2.2 with hp | hp
      · exact (hnot a.id .press hp rfl).elim
      · exact (hnot a.id .pressed hp rfl).elim
    | saving reply =>
      simp only [hst] at hplaced ⊢
      exact ⟨hidle hplaced.1, hplaced.2.show cause none⟩

/-- A tap's press ends: the sheet that waits for it is the one it was made on. -/
theorem Inv.pressEnds (h : Inv w) {i : Nat} {ok : Bool}
    (hkeeps : w.KeepsToItsSheet (.pressEnds i ok)) : Inv (w.pressEnds i ok) := by
  have hplaced := h.placed
  unfold World.pressEnds
  split
  · exact h
  · rename_i owner howner
    have hbase : Inv { w with presses := w.presses.eraseIdx i } := ⟨h.own, h.placed⟩
    dsimp only
    split
    · rename_i sheet hcur
      have hcur' : w.current = some sheet := hcur
      split
      · rename_i hpress
        have hsame : sheet.owner = owner := hkeeps owner howner sheet hcur' hpress.2
        have hch : Change.Own ⟨w.current, some { sheet with phase := .pressed }, .tap owner⟩ := by
          rw [hcur']
          refine ⟨?_, hsame, hsame⟩
          simp [SheetState.timedOut, SheetState.endedWith, hpress.2]
        refine ⟨hbase.own.show hch, ?_⟩
        -- the sheet waits for the press, and so does its handler
        have hnot (hd : sheet.isDone = true) : False := by
          obtain ⟨o, phase⟩ := sheet
          obtain rfl : phase = .press := hpress.2
          cases hd
        unfold Placed at hplaced ⊢
        show (match w.active with
          | none => _
          | some a => _)
        cases hact : w.active with
        | none =>
          simp only [hact] at hplaced
          exact (hnot (hplaced.2 sheet hcur')).elim
        | some a =>
          simp only [hact] at hplaced
          cases hst : a.stage with
          | early =>
            simp only [hst] at hplaced
            exact (hnot (hplaced.2 sheet hcur')).elim
          | late =>
            simp only [hst] at hplaced
            exact (hnot (hplaced.1.2 sheet hcur')).elim
          | saving reply =>
            simp only [hst] at hplaced
            exact (hnot (hplaced.1.2 sheet hcur')).elim
          | asking =>
            simp only [hst] at hplaced
            rw [hplaced.2.2] at hcur'
            cases hcur'
            cases hpress.2
          | answered x =>
            simp only [hst] at hplaced
            rw [hplaced.2.2] at hcur'
            cases hcur'
            cases hpress.2
          | pressing =>
            simp only [hst] at hplaced
            obtain ⟨hshown, hans, hp | hp⟩ := hplaced
            · rw [hp] at hcur'
              cases hcur'
              simp only [hst]
              exact ⟨hshown.show _ _, hans, .inr rfl⟩
            · rw [hp] at hcur'
              cases hcur'
              cases hpress.2
      · exact hbase
    · exact hbase

/-- A request's sheet is shown over one that is done. -/
theorem Inv.ask (h : Inv w) (hact : w.active = some a) (hst : a.stage = .late) :
    Inv { (w.show (.own a.id) (some ⟨a.id, .ask⟩)).setStage a .asking with
      answer := some a.id } := by
  have hplaced := h.placed
  unfold Placed at hplaced
  simp only [hact, hst] at hplaced
  obtain ⟨⟨-, hdone⟩, hun⟩ := hplaced
  have hch : Change.Own ⟨w.current, some ⟨a.id, .ask⟩, .own a.id⟩ := by
    cases hcur : w.current with
    | none => rfl
    | some sheet =>
      rw [unattended, hcur] at hun
      exact ⟨hun, rfl, .inr ⟨hdone sheet hcur, rfl⟩⟩
  have hshow : (w.show (.own a.id) (some ⟨a.id, .ask⟩)).active = some a := hact
  have hown := (h.own.show hch).setStage hshow .asking
  exact ⟨hown, ⟨_, List.mem_append_right _ (.head _), rfl⟩, rfl, rfl⟩

/-- The handler's own events, under the condition. -/
theorem Inv.handle (h : Inv w) (hact : w.active = some a) {e : Event}
    (hkeeps : w.KeepsToItsSheet e) : Inv (w.handle a e) := by
  have hplaced := h.placed
  unfold Placed at hplaced
  simp only [hact] at hplaced
  -- a refusal without a sheet
  have hsaving (hi : w.Idle) (reply : Result) (hr : (a.kind.asks && reply.isOk) = false) :
      Inv (w.setStage a (.saving (some reply))) := by
    refine ⟨h.own.setStage hact _, hi, fun hasks hok => ?_⟩
    rw [show a.kind.asks = true from hasks, hok] at hr
    cases hr
  -- no answer at all
  have hsilent (hi : w.Idle) (why : Silence) (hwhy : why ≠ .lookupFailed) :
      Inv ({ w with silences := w.silences ++ [(a.id, why)] }.setStage a (.saving none)) := by
    have hown := h.own.setStage hact (.saving none)
    refine ⟨⟨hown.1, hown.2.1, fun r hr => ?_, hown.2.2.2⟩, hi,
      why, List.mem_append_right _ (.head _), hwhy⟩
    exact (hown.2.2.1 r hr).mono (fun _ hch => hch) fun _ hx => List.mem_append_left _ hx
  -- what the handler may do depends on its stage only
  cases hst : a.stage with
  | early =>
    simp only [hst] at hplaced
    cases e <;> simp only [World.handle, hst]
    case silent why => exact hsilent hplaced why hkeeps
    case returns r =>
      split
      · exact h
      · rename_i hr
        exact hsaving hplaced r (by simpa using hr)
    case check =>
      split
      · exact hsaving hplaced unattendedResult (Bool.and_false _)
      · rename_i hun
        have hoff : w.unattended = false := by simpa using hun
        exact ⟨h.own.setStage hact .late, hplaced, hoff⟩
    case throws => exact h.caught hact (hkeeps a hact) hplaced.1
    all_goals exact h
  | late =>
    simp only [hst] at hplaced
    cases e <;> simp only [World.handle, hst]
    case silent why => exact hsilent hplaced.1 why hkeeps
    case returns r =>
      split
      · exact h
      · rename_i hr
        exact hsaving hplaced.1 r (by simpa using hr)
    case ask =>
      split
      · exact h.ask hact hst
      · exact h
    case throws => exact h.caught hact (hkeeps a hact) hplaced.1.1
    all_goals exact h
  | asking =>
    simp only [hst] at hplaced
    cases e <;> simp only [World.handle, hst]
    case timeUp => exact ⟨h.own.setStage hact _, hplaced.1, rfl, hplaced.2.2⟩
    all_goals exact h
  | answered x =>
    simp only [hst] at hplaced
    cases e
    case onPress =>
      cases x with
      | approve =>
        simp only [World.handle, hst]
        have hch : Change.Own ⟨w.current, some ⟨a.id, .press⟩, .own a.id⟩ := by
          rw [hplaced.2.2]
          exact ⟨rfl, rfl, .inl rfl⟩
        have hshow : (w.show (.own a.id) (some ⟨a.id, .press⟩)).active = some a := hact
        exact ⟨(h.own.show hch).setStage hshow _, hplaced.1.show _ _, hplaced.2.1, .inl rfl⟩
      | decline =>
        simp only [World.handle, hst]
        exact h
      | timeout =>
        simp only [World.handle, hst]
        exact h
    case decided r =>
      simp only [World.handle, hst]
      exact h.decided hact hplaced.1 hplaced.2.1 hplaced.2.2 rfl r
    case throws =>
      simp only [World.handle, hst]
      exact h.caught hact (hkeeps a hact) hplaced.2.1
    all_goals
      simp only [World.handle, hst]
      exact h
  | pressing =>
    simp only [hst] at hplaced
    cases e <;> simp only [World.handle, hst]
    case decided r =>
      rcases hplaced.2.2 with hcur | hcur
      · exact h.decided hact hplaced.1 hplaced.2.1 hcur rfl r
      · exact h.decided hact hplaced.1 hplaced.2.1 hcur rfl r
    case throws => exact h.caught hact (hkeeps a hact) hplaced.2.1
    all_goals exact h
  | saving reply =>
    simp only [hst] at hplaced
    cases e <;> simp only [World.handle, hst]
    case saved => exact ⟨h.own.finish hact hplaced.2, hplaced.1⟩
    case saveFails => exact h.caught hact (hkeeps a hact) hplaced.1.1
    all_goals exact h

/-- Every event that meets the condition keeps the invariant. -/
theorem Inv.step (h : Inv w) (e : Event) (hkeeps : w.KeepsToItsSheet e) : Inv (w.step e) := by
  -- whatever is not below is the handler's
  have hhandle : Inv (match w.active with
      | some a => w.handle a e
      | none => w) := by
    cases hact : w.active with
    | none => exact h
    | some a => exact h.handle hact hkeeps
  cases e with
  | arrive kind => exact h.arrive kind
  | begin => exact h.begin
  | answerSheet approve => exact h.answerSheet approve
  | pressFromSheet =>
    simp only [World.step]
    split
    · exact ⟨h.own, h.placed⟩
    · exact h
  | pressEnds i ok => exact h.pressEnds hkeeps
  | closeSheet =>
    simp only [World.step]
    split
    · rename_i sheet hcur
      split
      · rename_i hdone
        exact h.hide hcur hdone hdone
      · exact h
    · exact h
  | declinedTimer =>
    simp only [World.step]
    split
    · rename_i sheet hcur
      split
      · rename_i hdec
        exact h.hide hcur (isDone_of_endedWith hdec) ⟨timedOut_of_declined hdec, hdec⟩
      · exact h
    · exact h
  | _ => exact hhandle

theorem inv_started : Inv started where
  own := ⟨fun _ hch => (by cases hch), List.Perm.refl _, fun _ hr => (by cases hr),
    fun _ ht => (by cases ht)⟩
  placed := ⟨rfl, fun _ hs => by cases hs⟩

end World

/-! ### The result -/

/-- In a run of such events the sheet changes only by its own request and by taps made on it, a
sheet that timed out stays until it is closed and no request gets a sheet or a Yes meanwhile,
every message is answered once, and a tap answers the request it was made on. -/
theorem sheet_is_its_requests_own (history : List Event)
    (hkeeps : AllAlong World.step World.KeepsToItsSheet World.started history) :
    (history.foldl World.step World.started).Own :=
  (hkeeps.keeps World.inv_started fun _ e h he => h.step e he).own

/-- A request times out and its sheet stays up. -/
def timesOut : List Event :=
  [.arrive .budget, .begin, .check, .ask, .timeUp, .decided (.refused "timeout" none)]

/-- A budget request comes and times out; the next is refused with no sheet, and a sync message
meanwhile is answered; the person closes the sheet, and a third request is approved, pressed for
and opened. -/
def closedAndOpened : List Event :=
  timesOut ++ [.saved, .arrive .budget, .begin, .check, .saved,
    .arrive .other, .begin, .returns (.ok "" none), .saved, .closeSheet,
    .arrive .identitySet, .begin, .silent .replayed, .saved,
    .arrive .budget, .begin, .check, .ask, .answerSheet true, .onPress, .pressFromSheet,
    .pressEnds 0 true, .decided (.ok "Budget 1 is open" (some 1)), .saveFails]

theorem sheet_is_its_requests_own_once :
    (closedAndOpened.foldl World.step World.started).Own :=
  sheet_is_its_requests_own closedAndOpened (by
    simp only [closedAndOpened, timesOut, List.cons_append, List.nil_append, AllAlong,
      World.KeepsToItsSheet, true_and, and_true]
    refine ⟨by decide, ?_, ?_⟩
    · rintro owner ⟨⟩ sheet ⟨⟩ -
      rfl
    · rintro a ⟨⟩ sheet ⟨⟩
      exact ⟨rfl, rfl⟩)

/-- A request times out and nobody is there; a sync message that fails takes its sheet away, so
the next request is shown. -/
theorem failed_sync_ends_a_timeout :
    ¬ ((timesOut ++ ([.saved, .arrive .other, .begin, .throws] : List Event)).foldl World.step
      World.started).Own := by
  rintro ⟨hchanges, -⟩
  have hlast : (⟨some ⟨0, .done (.refused "timeout" none)⟩, some ⟨0, .done failed⟩, .own 1⟩ :
      Change).Own := hchanges _ (.tail _ (.tail _ (.head _)))
  exact absurd hlast.1 (by decide)

/-- So does the request itself, when what it has seen cannot be saved. -/
theorem failed_save_ends_its_own_timeout :
    ¬ ((timesOut ++ ([.saveFails] : List Event)).foldl World.step World.started).Own := by
  rintro ⟨hchanges, -⟩
  have hlast : (⟨some ⟨0, .done (.refused "timeout" none)⟩, some ⟨0, .done failed⟩, .own 0⟩ :
      Change).Own := hchanges _ (.tail _ (.tail _ (.head _)))
  exact absurd hlast.1 (by decide)

end OkRn.Approve.Sheet
