/-
OkRn/Bridge/Kept.lean

The messages the vendor bridge keeps for the app.

A computer's frames pass the pairing gate and become reports; each report goes on
to the key, or is a piece of an Edge message and is kept.  The pieces of a message
are gathered by address, with a flag that says whether all of them came sealed.

Edge hears only what came sealed, and nothing of it reaches the key.  An answer
that takes the person's time is sent only after the gates were asked again; a pong
and the refusal of another chain's request are not, and the gates were asked
before the frame was opened and before the reports ahead of it went to the key
(`edge_hears_what_came_sealed`).
-/
import OkRn.Bt.Gate
import OkRn.Lib.Along

namespace OkRn.Bridge

open OkRn.Bt

/-! ### The library's part -/

/-- What an assembler makes of the pieces since its last yield. -/
inductive Gathered (M : Type)
  | error (reason : String)
  | other
  /-- A message of the kind REQUEST. -/
  | request (message : M)

/-- The types of an Edge message that the bridge tells apart. -/
inductive MessageType
  | receipt | ping | edge
  deriving DecidableEq

/-- What the bridge uses of the library: `M` is a message, `A` an answer. -/
structure WireLib (M A : Type) where
  okHeader : List UInt8
  okFwUpdate : UInt8
  isEdgeRequestFrame : Msg → Bool
  assemble : List Msg → Option (Gathered M)
  messageType : M → MessageType
  netOf : M → String
  answerPing : M → Option A
  netRefusal : String → A
  encodeAnswer : M → A → List Msg
  pingInProduction : Bool

/-! ### The state -/

/-- A report that was gathered: where it came from, and the session it was sealed for. -/
structure Piece where
  data : Msg
  sender : String
  session : Option Nat

/-- A frame whose reports go on one after another; `busy` is the one that is going to the key. -/
structure Frame where
  sender : String
  sealed : Bool
  session : Option Nat
  reports : List Msg
  busy : Option Msg

/-- A message handed to Edge, and its pieces. -/
structure EdgeCall (M : Type) where
  message : M
  sender : String
  pieces : List Piece

/-- An answer that went out: to whom, for what, and how the gates stood. -/
structure Out (M : Type) where
  dest : String
  asked : EdgeCall M
  pong : Bool
  api : Bool
  target : Option String

/-- The pairing gate, the switches, the frames that are sent on, the messages that are gathered, and
what went out. -/
structure World (σ π ρ M : Type) where
  gate : Gate σ π ρ
  testing : Bool
  transitOffWanted : Bool
  api : Bool
  target : Option String
  net : String
  halted : Bool
  frames : List Frame
  gathering : String → List Piece
  allSealed : String → Option Bool
  /-- What was written to the key. -/
  written : List Msg
  /-- Every call of `onEdgeRequest`. -/
  calls : List (EdgeCall M)
  /-- The calls without an answer yet. -/
  open_ : List (EdgeCall M)
  outs : List (Out M)

variable {σ π ρ M A : Type}

/-- The upper case of an address. -/
def upper (s : String) : List Char := s.toList.map Char.toUpper

/-- `isFromTarget`. -/
def isFromTarget (address : String) (target : Option String) : Bool :=
  match target with
  | none => false
  | some t => address != "" && t != "" && upper address == upper t

/-- `isFirmwareUpdate`. -/
def isFirmwareUpdate (W : WireLib M A) (data : Msg) : Bool :=
  decide (W.okHeader.length < data.length) && data.take W.okHeader.length == W.okHeader
    && data[W.okHeader.length]? == some W.okFwUpdate

namespace World

/-- The gates of a request and of an answer: API is on, and the computer is the target. -/
def mayUse (address : String) (w : World σ π ρ M) : Bool := isFromTarget address w.target && w.api

/-- Transit is switched off, which counts in testing mode only. -/
def transitOff (w : World σ π ρ M) : Bool := w.testing && w.transitOffWanted

/-- A report for a computer leaves, if it has a session or transit is off. -/
def leaves (dest : String) (w : World σ π ρ M) : Bool := (w.gate.sessions dest).isSome || w.transitOff

/-- `push`, of one report. -/
def push (L : BtLib σ π ρ) (now : Nat) (dest : String) (w : World σ π ρ M) (data : Msg) :
    World σ π ρ M :=
  { w with gate := w.gate.step L (.outgoing data dest now) }

/-- The reports of an answer. -/
def pushAll (L : BtLib σ π ρ) (now : Nat) (dest : String) (frames : List Msg)
    (w : World σ π ρ M) : World σ π ρ M :=
  frames.foldl (fun w data => w.push L now dest data) w

/-- An answer is sent to the computer that asked. -/
def answer (L : BtLib σ π ρ) (W : WireLib M A) (now : Nat) (c : EdgeCall M) (pong : Bool) (a : A)
    (w : World σ π ρ M) : World σ π ρ M :=
  let frames := W.encodeAnswer c.message a
  let w' := w.pushAll L now c.sender frames
  if frames ≠ [] ∧ w.leaves c.sender then
    { w' with outs := ⟨c.sender, c, pong, w.api, w.target⟩ :: w'.outs }
  else w'

/-! ### A frame comes in -/

/-- `transit.handle`: the reports for the key or the app. -/
def handle (L : BtLib σ π ρ) (cmd : Cmd) (bytes : Msg) (address : String) (now : Nat)
    (w : World σ π ρ M) : World σ π ρ M × List Msg :=
  match cmd with
  | .pair => ({ w with gate := w.gate.step L (.pairMessage bytes address now) }, [])
  | .sealed =>
      ({ w with gate := w.gate.step L (.sealed bytes address now) },
        (w.gate.onSealed L address bytes now).2)
  | .plain =>
      (w, if w.transitOff then [bytes] else [])

/-- `onRequest`. -/
def onRequest (L : BtLib σ π ρ) (cmd : Cmd) (bytes : Msg) (address : String) (now : Nat)
    (w : World σ π ρ M) : World σ π ρ M :=
  if w.mayUse address then
    let session := match cmd with
      | .sealed => (w.gate.sessions address).map Session.nr
      | _ => none
    let r := w.handle L cmd bytes address now
    { r.1 with frames := r.1.frames ++ [⟨address, cmd = .sealed, session, r.2, none⟩] }
  else w

/-! ### A report goes on -/

/-- `keepForApp`, with the message complete. -/
def onMessage (L : BtLib σ π ρ) (W : WireLib M A) (now : Nat) (wasSealed : Bool) (c : EdgeCall M)
    (w : World σ π ρ M) : World σ π ρ M :=
  match W.messageType c.message with
  | .receipt => w
  | .ping =>
      match wasSealed && (w.testing || W.pingInProduction), W.answerPing c.message with
      | true, some pong => w.answer L W now c true pong
      | _, _ => w
  | .edge =>
      if !wasSealed then w
      else if W.netOf c.message ≠ w.net then w.answer L W now c false (W.netRefusal w.net)
      else { w with calls := c :: w.calls, open_ := w.open_ ++ [c] }

/-- The piece joins the others of its sender, and the flag follows. -/
def gather (p : Piece) (sealed : Bool) (w : World σ π ρ M) : World σ π ρ M :=
  { w with
    gathering := Function.update w.gathering p.sender (w.gathering p.sender ++ [p])
    allSealed := Function.update w.allSealed p.sender
      (some ((w.allSealed p.sender).getD true && sealed)) }

/-- The assembler has yielded. -/
def clear (sender : String) (w : World σ π ρ M) : World σ π ρ M :=
  { w with
    gathering := Function.update w.gathering sender []
    allSealed := Function.update w.allSealed sender none }

/-- `keepForApp`. -/
def keepForApp (L : BtLib σ π ρ) (W : WireLib M A) (now : Nat) (p : Piece) (sealed : Bool)
    (w : World σ π ρ M) : World σ π ρ M :=
  let w := w.gather p sealed
  match W.assemble ((w.gathering p.sender).map Piece.data) with
  | none => w
  | some (.error _) => w.clear p.sender
  | some .other => w.clear p.sender
  | some (.request m) =>
      (w.clear p.sender).onMessage L W now (w.allSealed p.sender = some true)
        ⟨m, p.sender, w.gathering p.sender⟩

/-- The text for a computer whose soft key has stopped. -/
def keyStopped : Msg := "Error soft key stopped, restart ok-rn on the phone".toUTF8.toList

/-- The first part of `forward`; the frame waits while its report goes to the key. -/
def forward (L : BtLib σ π ρ) (W : WireLib M A) (now i : Nat) (f : Frame) (data : Msg)
    (w : World σ π ρ M) : World σ π ρ M :=
  let w' := { w with frames := w.frames.set i { f with reports := f.reports.tail } }
  if isFirmwareUpdate W data then w'
  else if W.isEdgeRequestFrame data then
    w'.keepForApp L W now ⟨data, f.sender, f.session⟩ f.sealed
  else if w.halted then w'.push L now f.sender keyStopped
  else { w with frames := w.frames.set i { f with reports := f.reports.tail, busy := some data } }

end World

/-! ### Events -/

/-- The frames and what becomes of them, Edge's answers, the gate's own events and the switches. -/
inductive Event (A : Type)
  /-- A frame comes in. -/
  | request (cmd : Cmd) (bytes : Msg) (address : String) (now : Nat)
  /-- The next report of frame `i` has its turn. -/
  | next (i now : Nat)
  /-- The report that frame `i` waits for is written to the key, or the write fails. -/
  | write (i : Nat) (ok : Bool)
  /-- Edge has answered the call `i`, or has nothing to say. -/
  | answered (i : Nat) (answer : Option A) (now : Nat)
  /-- Anything else at the pairing gate. -/
  | gate (e : Bt.Event)
  | setApi (on : Bool)
  | setTarget (target : Option String)
  | setTesting (on : Bool)
  | setTransitOff (off : Bool)
  | setNet (net : String)
  | setHalted (halted : Bool)

namespace World

/-- What an event does; a frame or call that is not there is left. -/
def step (L : BtLib σ π ρ) (W : WireLib M A) (w : World σ π ρ M) : Event A → World σ π ρ M
  | .request cmd bytes address now => w.onRequest L cmd bytes address now
  | .next i now => match w.frames[i]? with
    | some ⟨sender, sealed, session, data :: rest, none⟩ =>
        w.forward L W now i ⟨sender, sealed, session, data :: rest, none⟩ data
    | _ => w
  | .write i ok => match w.frames[i]? with
    | some ⟨sender, sealed, session, rest, some data⟩ =>
        { w with
          frames := w.frames.set i ⟨sender, sealed, session, rest, none⟩
          written := if ok then data :: w.written else w.written }
    | _ => w
  | .answered i a now => match w.open_[i]?, a with
    | some c, some a =>
        let w := { w with open_ := w.open_.eraseIdx i }
        if w.mayUse c.sender then w.answer L W now c false a else w
    | _, none => { w with open_ := w.open_.eraseIdx i }
    | none, _ => w
  | .gate e => { w with gate := w.gate.step L e }
  | .setApi on => { w with api := on }
  | .setTarget target => { w with target := target }
  | .setTesting on => { w with testing := on }
  | .setTransitOff off => { w with transitOffWanted := off }
  | .setNet net => { w with net := net }
  | .setHalted halted => { w with halted := halted }

/-- The bridge has just started. -/
def started (store : Store) (api : Bool) (target : Option String) : World σ π ρ M where
  gate := Gate.started store
  testing := false
  transitOffWanted := false
  api := api
  target := target
  net := "live"
  halted := false
  frames := []
  gathering := fun _ => []
  allSealed := fun _ => none
  written := []
  calls := []
  open_ := []
  outs := []

end World

/-! ### What is claimed of a message -/

/-- The message is made of these pieces, and each of them came inside a session of its sender. -/
def InSession (W : WireLib M A) (c : EdgeCall M) : Prop :=
  W.assemble (c.pieces.map Piece.data) = some (.request c.message) ∧
    ∀ p ∈ c.pieces, p.sender = c.sender ∧ p.session.isSome = true

/-- A report that may go to the key. -/
def Plain (W : WireLib M A) (data : Msg) : Prop :=
  isFirmwareUpdate W data = false ∧ W.isEdgeRequestFrame data = false

/-- What went out went to the computer that asked, while it was the target and API was on. -/
def Out.Allowed (o : Out M) : Prop :=
  o.dest = o.asked.sender ∧ o.api = true ∧ isFromTarget o.dest o.target = true

namespace World

variable {L : BtLib σ π ρ} {W : WireLib M A} {w : World σ π ρ M}

/-- Edge heard only what came sealed in a session, the key got nothing of it, and every answer was
allowed out. -/
structure OnlySealed (W : WireLib M A) (w : World σ π ρ M) : Prop where
  calls : ∀ c ∈ w.calls, InSession W c
  pongs : ∀ o ∈ w.outs, o.pong = true → InSession W o.asked
  written : ∀ data ∈ w.written, Plain W data
  outs : ∀ o ∈ w.outs, o.Allowed

/-- The answer the bridge makes itself, if any. -/
def ownAnswer (W : WireLib M A) (wasSealed : Bool) (m : M) (w : World σ π ρ M) :
    Option (Bool × A) :=
  match W.messageType m with
  | .receipt => none
  | .ping =>
      if wasSealed && (w.testing || W.pingInProduction) then
        (W.answerPing m).map fun a => (true, a)
      else none
  | .edge =>
      if wasSealed && W.netOf m != w.net then some (false, W.netRefusal w.net) else none

/-- The piece completes a message that the bridge answers itself, and the answer can leave. -/
def AnswersNow (W : WireLib M A) (w : World σ π ρ M) (f : Frame) (data : Msg) : Prop :=
  ∃ m x, isFirmwareUpdate W data = false ∧ W.isEdgeRequestFrame data = true ∧
    W.assemble ((w.gathering f.sender ++ [(⟨data, f.sender, f.session⟩ : Piece)]).map Piece.data) =
      some (.request m) ∧
    w.ownAnswer W ((w.allSealed f.sender).getD true && f.sealed) m = some x ∧
    W.encodeAnswer m x.2 ≠ [] ∧ w.leaves f.sender = true

/-- The gates are still open when the bridge answers a message itself. -/
def AnswersTheTarget (W : WireLib M A) (w : World σ π ρ M) : Event A → Prop
  | .next i _ => ∀ f data rest, w.frames[i]? = some f → f.reports = data :: rest → f.busy = none →
      w.AnswersNow W f data → w.mayUse f.sender = true
  | _ => True

/-! ### What every run keeps -/

/-- A frame that is marked sealed has its session, and the pieces under an address are all sealed
when its flag says so. -/
structure Inv (W : WireLib M A) (w : World σ π ρ M) : Prop where
  frames : ∀ f ∈ w.frames, (f.sealed = true → f.reports ≠ [] → f.session.isSome = true) ∧
    ∀ data, f.busy = some data → Plain W data
  senders : ∀ a, ∀ p ∈ w.gathering a, p.sender = a
  sealed : ∀ a, w.allSealed a = some true → ∀ p ∈ w.gathering a, p.session.isSome = true
  fresh : ∀ a, w.allSealed a = none → w.gathering a = []
  calls : ∀ c ∈ w.calls, InSession W c
  pongs : ∀ o ∈ w.outs, o.pong = true → InSession W o.asked
  written : ∀ data ∈ w.written, Plain W data

theorem inv_started (store : Store) (api : Bool) (target : Option String) :
    Inv W (started store api target : World σ π ρ M) where
  frames _ h := by cases h
  senders _ _ h := by cases h
  sealed _ _ _ h := by cases h
  fresh _ _ := rfl
  calls _ h := by cases h
  pongs _ h := by cases h
  written _ h := by cases h

/-- Under the invariant only the answers are left to be judged. -/
theorem Inv.onlySealed_iff (h : w.Inv W) : w.OnlySealed W ↔ ∀ o ∈ w.outs, o.Allowed :=
  ⟨OnlySealed.outs, fun houts => ⟨h.calls, h.pongs, h.written, houts⟩⟩

/-- Nothing of this is about the pairing gate. -/
theorem Inv.withGate (h : w.Inv W) (g : Gate σ π ρ) : Inv W { w with gate := g } := { h with }

/-- What is sent over the link changes the pairing gate and nothing else. -/
theorem pushAll_eq (now : Nat) (dest : String) (frames : List Msg) (w : World σ π ρ M) :
    ∃ g, w.pushAll L now dest frames = { w with gate := g } := by
  unfold pushAll
  induction frames generalizing w with
  | nil => exact ⟨w.gate, rfl⟩
  | cons data rest ih =>
    obtain ⟨g, hg⟩ := ih (w.push L now dest data)
    exact ⟨g, hg⟩

/-- An answer that leaves is on record, with the gates as they are. -/
theorem answer_eq (now : Nat) (c : EdgeCall M) (pong : Bool) (a : A) (w : World σ π ρ M) :
    ∃ g, w.answer L W now c pong a =
      { w with
        gate := g
        outs := if W.encodeAnswer c.message a ≠ [] ∧ w.leaves c.sender then
          ⟨c.sender, c, pong, w.api, w.target⟩ :: w.outs else w.outs } := by
  obtain ⟨g, hg⟩ := pushAll_eq (L := L) now c.sender (W.encodeAnswer c.message a) w
  refine ⟨g, ?_⟩
  unfold answer
  dsimp only
  rw [hg]
  split <;> rfl

/-- An answer that is sent keeps the invariant. -/
theorem Inv.answer (h : w.Inv W) (now : Nat) {c : EdgeCall M} {pong : Bool}
    (hc : pong = true → InSession W c) (a : A) : (w.answer L W now c pong a).Inv W := by
  obtain ⟨g, hg⟩ := answer_eq (L := L) (W := W) now c pong a w
  rw [hg]
  refine { h with pongs := fun o ho hp => ?_ }
  dsimp only at ho
  split at ho
  · rcases List.mem_cons.mp ho with rfl | ho
    · exact hc hp
    · exact h.pongs o ho hp
  · exact h.pongs o ho hp

/-- Answers go out just if the gates are open, when any go out. -/
theorem allowed_answer (hout : ∀ o ∈ w.outs, o.Allowed) (now : Nat) (c : EdgeCall M) (pong : Bool)
    (a : A) : (∀ o ∈ (w.answer L W now c pong a).outs, o.Allowed) ↔
      (W.encodeAnswer c.message a ≠ [] ∧ w.leaves c.sender = true → w.mayUse c.sender = true) := by
  obtain ⟨g, hg⟩ := answer_eq (L := L) (W := W) now c pong a w
  rw [hg]
  dsimp only
  split
  · rename_i hleaves
    constructor
    · intro hall _
      obtain ⟨-, hapi, htarget⟩ := hall _ (.head _)
      exact Bool.and_eq_true_iff.mpr ⟨htarget, hapi⟩
    · intro hmay o ho
      rcases List.mem_cons.mp ho with rfl | ho
      · obtain ⟨htarget, hapi⟩ := Bool.and_eq_true_iff.mp (hmay hleaves)
        exact ⟨rfl, hapi, htarget⟩
      · exact hout o ho
  · rename_i hleaves
    exact ⟨fun _ hl => absurd hl hleaves, fun _ => hout⟩

/-! ### Gathering -/

/-- A piece joins the others of its sender. -/
theorem Inv.gather (h : w.Inv W) {p : Piece} {sealed : Bool}
    (hp : sealed = true → p.session.isSome = true) : (w.gather p sealed).Inv W := by
  refine { h with senders := fun a q hq => ?_, sealed := fun a ha q hq => ?_, fresh := fun a ha => ?_ }
  · change q ∈ Function.update w.gathering p.sender _ a at hq
    rcases eq_or_ne a p.sender with rfl | ha
    · rw [Function.update_self] at hq
      rcases List.mem_append.mp hq with hq | hq
      · exact h.senders _ q hq
      · rw [List.mem_singleton.mp hq]
    · rw [Function.update_of_ne ha] at hq
      exact h.senders a q hq
  · -- all sealed: the reports so far were, and so is this one
    change Function.update w.allSealed p.sender _ a = some true at ha
    change q ∈ Function.update w.gathering p.sender _ a at hq
    rcases eq_or_ne a p.sender with rfl | hne
    · rw [Function.update_self, Option.some.injEq, Bool.and_eq_true] at ha
      rw [Function.update_self] at hq
      rcases List.mem_append.mp hq with hq | hq
      · rcases hflag : w.allSealed p.sender with - | flag
        · rw [h.fresh _ hflag] at hq
          cases hq
        · rw [hflag, Option.getD_some] at ha
          exact h.sealed _ (hflag.trans (congrArg some ha.1)) q hq
      · rw [List.mem_singleton.mp hq]
        exact hp ha.2
    · rw [Function.update_of_ne hne] at ha hq
      exact h.sealed a ha q hq
  · change Function.update w.allSealed p.sender _ a = none at ha
    rcases eq_or_ne a p.sender with rfl | hne
    · rw [Function.update_self] at ha
      cases ha
    · rw [Function.update_of_ne hne] at ha
      change Function.update w.gathering p.sender _ a = []
      rw [Function.update_of_ne hne]
      exact h.fresh a ha

/-- The pieces of a sender are dropped. -/
theorem Inv.clear (h : w.Inv W) (sender : String) : (w.clear sender).Inv W := by
  refine { h with senders := fun a q hq => ?_, sealed := fun a ha q hq => ?_, fresh := fun a ha => ?_ }
  · change q ∈ Function.update w.gathering sender [] a at hq
    rcases eq_or_ne a sender with rfl | hne
    · rw [Function.update_self] at hq
      cases hq
    · rw [Function.update_of_ne hne] at hq
      exact h.senders a q hq
  · change Function.update w.allSealed sender none a = some true at ha
    change q ∈ Function.update w.gathering sender [] a at hq
    rcases eq_or_ne a sender with rfl | hne
    · rw [Function.update_self] at hq
      cases hq
    · rw [Function.update_of_ne hne] at ha hq
      exact h.sealed a ha q hq
  · change Function.update w.allSealed sender none a = none at ha
    change Function.update w.gathering sender [] a = []
    rcases eq_or_ne a sender with rfl | hne
    · exact Function.update_self ..
    · rw [Function.update_of_ne hne] at ha ⊢
      exact h.fresh a ha

/-! ### A message is complete -/

/-- The bridge answers itself, hands the message to Edge, or lets it go. -/
theorem onMessage_eq (now : Nat) (wasSealed : Bool) (c : EdgeCall M) (w : World σ π ρ M) :
    w.onMessage L W now wasSealed c = match w.ownAnswer W wasSealed c.message with
      | some x => w.answer L W now c x.1 x.2
      | none => if wasSealed = true ∧ W.messageType c.message = .edge then
          { w with calls := c :: w.calls, open_ := w.open_ ++ [c] } else w := by
  unfold onMessage ownAnswer
  rcases W.messageType c.message with - | - | -
  · simp
  · rcases hallowed : wasSealed && (w.testing || W.pingInProduction) with - | -
    · simp
    · rcases W.answerPing c.message with - | pong <;> simp
  · rcases wasSealed with - | -
    · simp
    · by_cases hnet : W.netOf c.message = w.net <;> simp [hnet]

/-- A pong answers what came sealed. -/
theorem ownAnswer_pong {wasSealed : Bool} {m : M} {x : Bool × A}
    (h : w.ownAnswer W wasSealed m = some x) : wasSealed = true := by
  unfold ownAnswer at h
  split at h
  · cases h
  · split at h
    · rename_i hallowed
      exact (Bool.and_eq_true_iff.mp hallowed).1
    · cases h
  · split at h
    · rename_i hallowed
      exact (Bool.and_eq_true_iff.mp hallowed).1
    · cases h

/-- A whole message is Edge's or is answered here. -/
theorem Inv.onMessage (h : w.Inv W) (now : Nat) {wasSealed : Bool} {c : EdgeCall M}
    (hc : wasSealed = true → InSession W c) : (w.onMessage L W now wasSealed c).Inv W := by
  rw [onMessage_eq]
  split
  · rename_i x hx
    exact h.answer now (fun _ => hc (ownAnswer_pong hx)) x.2
  · split
    · rename_i hsealed
      refine { h with calls := fun d hd => ?_ }
      rcases List.mem_cons.mp hd with rfl | hd
      · exact hc hsealed.1
      · exact h.calls d hd
    · exact h

/-- The bridge's own answers go out allowed exactly when the sender may use the key by then. -/
theorem allowed_onMessage (hout : ∀ o ∈ w.outs, o.Allowed) (now : Nat) (wasSealed : Bool)
    (c : EdgeCall M) : (∀ o ∈ (w.onMessage L W now wasSealed c).outs, o.Allowed) ↔
      ∀ x, w.ownAnswer W wasSealed c.message = some x → W.encodeAnswer c.message x.2 ≠ [] →
        w.leaves c.sender = true → w.mayUse c.sender = true := by
  rw [onMessage_eq]
  split
  · rename_i x hx
    rw [allowed_answer hout]
    constructor
    · rintro hmay y hy hne hleaves
      cases hx.symm.trans hy
      exact hmay ⟨hne, hleaves⟩
    · rintro hall ⟨hne, hleaves⟩
      exact hall x hx hne hleaves
  · rename_i hx
    refine ⟨fun _ y hy => absurd (hx.symm.trans hy) nofun, fun _ => ?_⟩
    split <;> exact hout

/-- What the assembler yields of the pieces gathered. -/
theorem Inv.complete (h : w.Inv W) {a : String} {m : M}
    (hm : W.assemble ((w.gathering a).map Piece.data) = some (.request m))
    (hsealed : w.allSealed a = some true) : InSession W ⟨m, a, w.gathering a⟩ :=
  ⟨hm, fun p hp => ⟨h.senders a p hp, h.sealed a hsealed p hp⟩⟩

/-- A report that is a piece of an Edge message is kept. -/
theorem Inv.keepForApp (h : w.Inv W) (now : Nat) {p : Piece} {sealed : Bool}
    (hp : sealed = true → p.session.isSome = true) : (w.keepForApp L W now p sealed).Inv W := by
  have hg := h.gather hp
  unfold World.keepForApp
  dsimp only
  split
  · exact hg
  · exact hg.clear p.sender
  · exact hg.clear p.sender
  · rename_i m hm
    refine (hg.clear p.sender).onMessage now fun hsealed => ?_
    exact hg.complete hm (decide_eq_true_eq.mp hsealed)

/-- The flag of the sender says that all the pieces so far came sealed. -/
theorem gather_sender (p : Piece) (sealed : Bool) (w : World σ π ρ M) :
    (w.gather p sealed).gathering p.sender = w.gathering p.sender ++ [p] ∧
      decide ((w.gather p sealed).allSealed p.sender = some true) =
        ((w.allSealed p.sender).getD true && sealed) := by
  refine ⟨Function.update_self .., ?_⟩
  change decide (Function.update w.allSealed p.sender _ p.sender = some true) = _
  rw [Function.update_self]
  cases (w.allSealed p.sender).getD true && sealed <;> rfl

/-- The piece that completes a message decides as the message does. -/
theorem allowed_keepForApp (hout : ∀ o ∈ w.outs, o.Allowed) (now : Nat) (p : Piece)
    (sealed : Bool) : (∀ o ∈ (w.keepForApp L W now p sealed).outs, o.Allowed) ↔
      ∀ m x, W.assemble ((w.gathering p.sender ++ [p]).map Piece.data) = some (.request m) →
        w.ownAnswer W ((w.allSealed p.sender).getD true && sealed) m = some x →
        W.encodeAnswer m x.2 ≠ [] → w.leaves p.sender = true → w.mayUse p.sender = true := by
  obtain ⟨hpieces, hflag⟩ := gather_sender p sealed w
  unfold World.keepForApp
  dsimp only
  rw [hpieces, hflag]
  split
  · rename_i hm
    exact ⟨fun _ m x hm' => absurd (hm.symm.trans hm') nofun, fun _ => hout⟩
  · rename_i hm
    exact ⟨fun _ m x hm' => absurd (hm.symm.trans hm') nofun, fun _ => hout⟩
  · rename_i hm
    exact ⟨fun _ m x hm' => absurd (hm.symm.trans hm') nofun, fun _ => hout⟩
  · rename_i m hm
    rw [allowed_onMessage (w := (w.gather p sealed).clear p.sender) hout]
    constructor
    · intro hall m' x hm'
      cases hm.symm.trans hm'
      exact hall x
    · intro hall x
      exact hall m x hm

/-! ### The steps -/

/-- The frames are as they were, but for the one that goes on. -/
theorem Inv.setFrame (h : w.Inv W) {i : Nat} {f' : Frame}
    (hsealed : f'.sealed = true → f'.reports ≠ [] → f'.session.isSome = true)
    (hbusy : ∀ data, f'.busy = some data → Plain W data) :
    Inv W { w with frames := w.frames.set i f' } := by
  refine { h with frames := fun x hx => ?_ }
  rcases List.mem_or_eq_of_mem_set hx with hx | rfl
  · exact h.frames x hx
  · exact ⟨hsealed, hbusy⟩

/-- Reports come out of a sealed frame only in a session. -/
theorem onSealed_none {address : String} {bytes : Msg} {now : Nat} {g : Gate σ π ρ}
    (h : (g.onSealed L address bytes now).2 ≠ []) : (g.sessions address).isSome = true := by
  rcases hx : g.sessions address with - | x
  · simp [Gate.onSealed, hx] at h
  · rfl

theorem Inv.onRequest (h : w.Inv W) (cmd : Cmd) (bytes : Msg) (address : String) (now : Nat) :
    (w.onRequest L cmd bytes address now).Inv W := by
  unfold World.onRequest
  split
  · refine { h with frames := ?_, senders := ?_, sealed := ?_, fresh := ?_, calls := ?_,
                    pongs := ?_, written := ?_ }
    · intro f hf
      rcases List.mem_append.mp hf with hf | hf
      · cases cmd <;> exact h.frames f hf
      · rw [List.mem_singleton.mp hf]
        refine ⟨fun hsealed hne => ?_, nofun⟩
        rw [decide_eq_true_eq] at hsealed
        subst hsealed
        have hsome := onSealed_none hne
        rw [← Option.isSome_map] at hsome
        exact hsome
    all_goals cases cmd
    all_goals first
      | exact h.senders
      | exact h.sealed
      | exact h.fresh
      | exact h.calls
      | exact h.pongs
      | exact h.written
  · exact h

/-- The next report of a frame is kept or sent on to the key. -/
theorem Inv.forward (h : w.Inv W) (now : Nat) {i : Nat} {f : Frame} {data : Msg} {rest : List Msg}
    (hf : w.frames[i]? = some f) (hreports : f.reports = data :: rest) (hbusy : f.busy = none) :
    (w.forward L W now i f data).Inv W := by
  have hmem := List.mem_of_getElem? hf
  have hsession : f.sealed = true → f.session.isSome = true := fun hs =>
    (h.frames f hmem).1 hs (by rw [hreports]; exact nofun)
  have hset : Inv W { w with frames := w.frames.set i { f with reports := f.reports.tail } } :=
    h.setFrame (fun hs _ => hsession hs) fun d hd => absurd (hbusy.symm.trans hd) nofun
  unfold World.forward
  dsimp only
  split
  · exact hset
  · rename_i hfw
    split
    · exact hset.keepForApp now hsession
    · rename_i hedge
      split
      · exact hset.withGate _
      · refine h.setFrame (fun hs _ => hsession hs) fun d hd => ?_
        cases hd
        exact ⟨by simpa using hfw, by simpa using hedge⟩

/-- Every event keeps the invariant. -/
theorem Inv.step (h : w.Inv W) (e : Event A) : (w.step L W e).Inv W := by
  cases e with
  | request cmd bytes address now => exact h.onRequest cmd bytes address now
  | next i now =>
    simp only [World.step]
    split
    · rename_i hf
      exact h.forward now hf rfl rfl
    · exact h
  | write i ok =>
    simp only [World.step]
    split
    · rename_i sender sealed session rest data hf
      have hframe := h.frames _ (List.mem_of_getElem? hf)
      have hset : Inv W { w with frames := w.frames.set i ⟨sender, sealed, session, rest, none⟩ } :=
        h.setFrame hframe.1 nofun
      refine { hset with written := fun d hd => ?_ }
      -- only what was taken is written
      cases ok with
      | false => exact h.written d hd
      | true =>
        rcases List.mem_cons.mp hd with rfl | hd
        · exact hframe.2 _ rfl
        · exact h.written d hd
    · exact h
  | answered i a now =>
    have hopen : Inv W { w with open_ := w.open_.eraseIdx i } := { h with }
    simp only [World.step]
    split
    · split
      · exact hopen.answer now (fun hpong => by cases hpong) _
      · exact hopen
    · exact hopen
    · exact h
  | gate e => exact h.withGate _
  | setApi on => exact { h with }
  | setTarget target => exact { h with }
  | setTesting on => exact { h with }
  | setTransitOff off => exact { h with }
  | setNet net => exact { h with }
  | setHalted halted => exact { h with }

/-- A frame that comes in sends nothing. -/
theorem outs_onRequest (cmd : Cmd) (bytes : Msg) (address : String) (now : Nat)
    (w : World σ π ρ M) : (w.onRequest L cmd bytes address now).outs = w.outs := by
  unfold onRequest
  split
  · cases cmd <;> rfl
  · rfl

/-- Sending a report on is allowed unless it makes the bridge answer for a sender that may not. -/
theorem allowed_forward (hout : ∀ o ∈ w.outs, o.Allowed) (now i : Nat) (f : Frame) (data : Msg) :
    (∀ o ∈ (w.forward L W now i f data).outs, o.Allowed) ↔
      (w.AnswersNow W f data → w.mayUse f.sender = true) := by
  unfold World.forward AnswersNow
  dsimp only
  split
  · rename_i hfw
    exact ⟨fun _ ⟨_, _, hfw', _⟩ => absurd (hfw'.symm.trans hfw) (by decide), fun _ => hout⟩
  · rename_i hfw
    rw [Bool.not_eq_true] at hfw
    split
    · rename_i hedge
      rw [allowed_keepForApp
        (w := { w with frames := w.frames.set i { f with reports := f.reports.tail } }) hout]
      constructor
      · rintro hall ⟨m, x, -, -, hm, hx, hne, hleaves⟩
        exact hall m x hm hx hne hleaves
      · intro hall m x hm hx hne hleaves
        exact hall ⟨m, x, hfw, hedge, hm, hx, hne, hleaves⟩
    · rename_i hedge
      refine ⟨fun _ ⟨_, _, _, hedge', _⟩ => absurd hedge' hedge, fun _ => ?_⟩
      split
      · exact hout
      · exact hout

/-- What holds of a run goes on holding through an event exactly when the answer it brings is
allowed. -/
theorem onlySealed_step (h : w.Inv W) (hw : w.OnlySealed W) (e : Event A) :
    (w.step L W e).OnlySealed W ↔ w.AnswersTheTarget W e := by
  rw [(h.step e).onlySealed_iff]
  have hout := hw.outs
  cases e with
  | request cmd bytes address now =>
    refine ⟨fun _ => trivial, fun _ => ?_⟩
    simp only [World.step, outs_onRequest]
    exact hout
  | next i now =>
    simp only [World.step]
    split
    · rename_i sender sealed session data rest hf
      rw [allowed_forward hout]
      -- the one step where a frame that came in the clear may go to the key
      constructor
      · intro hmay f d r hf' hr _ hnow
        cases hf.symm.trans hf'
        cases hr
        exact hmay hnow
      · intro hcond hnow
        exact hcond _ data rest hf rfl rfl hnow
    · rename_i hf
      refine ⟨fun _ f d r hf' hr hb _ => ?_, fun _ => hout⟩
      obtain ⟨sender, sealed, session, reports, busy⟩ := f
      cases hr
      cases hb
      exact absurd hf' (hf sender sealed session d r)
  | write i ok =>
    refine ⟨fun _ => trivial, fun _ => ?_⟩
    simp only [World.step]
    split <;> exact hout
  | answered i a now =>
    refine ⟨fun _ => trivial, fun _ => ?_⟩
    simp only [World.step]
    split
    · split
      · rename_i hmay
        exact (allowed_answer (w := { w with open_ := w.open_.eraseIdx i }) hout now _ false _).mpr
          fun _ => hmay
      · exact hout
    · exact hout
    · exact hout
  | _ => exact ⟨fun _ => trivial, fun _ => hout⟩

/-- All along a run Edge hears, and pings are answered for, only what came sealed in whole, nothing
of it is written to the key, and answers go out only to the computer that asked while it is the
target and API is on, exactly if the gates are open whenever the bridge answers a message itself. -/
theorem edge_hears_what_came_sealed (L : BtLib σ π ρ) (W : WireLib M A) (store : Store) (api : Bool)
    (target : Option String) (events : List (Event A)) :
    (∀ p, p <+: events → (p.foldl (step L W) (started store api target)).OnlySealed W) ↔
      ∀ p e, p ++ [e] <+: events →
        (p.foldl (step L W) (started store api target)).AnswersTheTarget W e :=
  holds_along_iff (inv_started store api target) (fun _ e h => h.step e)
    ((inv_started store api target).onlySealed_iff.mpr fun _ h => by cases h)
    (fun _ e h hw => onlySealed_step h hw e) events

/-! ### A pong after API was switched off -/

/-- Every Edge report is a ping in one piece. -/
def pingLib : WireLib Unit Unit where
  okHeader := [0xFF, 0xFF, 0xFF, 0xFF]
  okFwUpdate := 0xF4
  isEdgeRequestFrame data := data.head? = some 0xF7
  assemble pieces := if pieces = [] then none else some (.request ())
  messageType _ := .ping
  netOf _ := "live"
  answerPing _ := some ()
  netRefusal _ := ()
  encodeAnswer _ _ := [[0xF7]]
  pingInProduction := false

/-- A report for the key and a ping, packed in one frame; API goes off while the report is being
written. -/
def packedPing : List (Event Unit) :=
  [.setTesting true, .gate (.pairMessage [1] "c0" 5), .gate (.saved 0 6),
    .request .sealed (3 :: (List.replicate 64 0 ++ 0xF7 :: List.replicate 63 0)) "c0" 7, .next 0 8,
    .setApi false, .write 0 true, .next 0 9]

theorem pong_after_api_off :
    ¬ ∀ (L : BtLib Unit Unit Unit) (W : WireLib Unit Unit) (store : Store) (api : Bool)
      (target : Option String) (events p : List (Event Unit)), p <+: events →
      (p.foldl (step L W) (started store api target)).OnlySealed W := by
  intro h
  have hall := (h Demo.btLib pingLib Demo.store true (some "C0") packedPing _
    (List.prefix_refl _)).outs
  have hout : (packedPing.foldl (step Demo.btLib pingLib) (started Demo.store true (some "C0"))).outs.any
      (fun o => !o.api) = true := by decide +kernel
  obtain ⟨o, ho, hoff⟩ := List.any_eq_true.mp hout
  rw [(hall o ho).2.1] at hoff
  cases hoff

end World

end OkRn.Bridge
