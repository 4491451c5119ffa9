/-
OkRn/Swap/Wire.lean

What a swap gives to its link.

Nothing orders the messages among themselves: the flag that a card was sent is set
when its last fragment is acknowledged, and a closed link is not looked at between
two fragments or after a wait for the device.  So messages stay whole, one card goes
out and nothing follows the close in a run where a message begins only when none is
being sent, a step only when none is under way, and the link closes when neither is
(`wire_is_in_order`).

`two_sends_mix` is a run that is not in turn: a card and a goodbye begin side by side
and their fragments mix.  The condition of a step is `Phone.InTurn`, and the invariant
has three parts: what went out (`Sent`), what a closed link excludes (`Shut`), and how
far the handshake is (`Stage`).
-/
import OkRn.Swap.Phone
import OkRn.Lib.Along
import Mathlib.Data.List.Chain

namespace OkRn.Swap

variable {Card : Type}

/-! ### The wire -/

/-- Where the fragment before ends, this one goes on. -/
def Follows (a b : Fragment) : Prop :=
  (b.message = a.message ∧ b.total = a.total ∧ b.index = a.index + 1) ∨
    (a.index + 1 = a.total ∧ b.index = 0)

instance (a b : Fragment) : Decidable (Follows a b) := inferInstanceAs (Decidable (_ ∨ _))

/-- Whole messages one after another; the last may be a part of one. -/
def Unmixed (wire : List Fragment) : Prop :=
  (∀ f ∈ wire.head?, f.index = 0) ∧ wire.IsChain Follows

/-- A fragment more, where it follows the last. -/
theorem Unmixed.append {wire : List Fragment} {f : Fragment} (h : Unmixed wire)
    (hfirst : wire = [] → f.index = 0) (hlast : ∀ a ∈ wire.getLast?, Follows a f) :
    Unmixed (wire ++ [f]) := by
  constructor
  · intro g hg
    cases wire with
    | nil =>
      cases hg
      exact hfirst rfl
    | cons a as => exact h.1 g hg
  · refine List.isChain_append.mpr ⟨h.2, List.isChain_singleton f, ?_⟩
    intro a ha b hb
    cases hb
    exact hlast a ha

namespace Phone

/-- Nothing is being sent, and nothing is about to be. -/
def Quiet (p : Phone Card) : Prop := p.sendings = [] ∧ p.pending = []

/-- A message that comes in finds things in order: its answer no other message, its step no other
step, and the close that it causes neither. -/
def MessageInTurn (p : Phone Card) (m : Incoming Card) : Prop :=
  match p.state, m with
  | .past, .card _ => (∃ received link, p.view = .linked true received link) → p.sendings = []
  | .past, _ => p.Quiet
  | .open, .shake _ | .keys, .shake _ => p.sendings = []
  | .reveal, _ | .done, _ => p.pending = []
  | .confirm, .shake _ => True
  | _, _ => p.Quiet

/-- A message begins only when none is being sent, a step only when none is under way, and the
link is closed only when neither is. -/
def InTurn (p : Phone Card) : Event Card → Prop
  | .message m _ => p.hears = true → p.MessageInTurn m
  | .badFrame | .drop => p.hears = true → p.Quiet
  | .press => True
  | .stepped _ _ => p.sendings = []
  | .stepFails _ => p.sendings = []
  | .hostFails => p.Quiet
  | .acked i _ => ∀ s ∈ p.sendings[i]?, s.kind = .bye ∨ s.kind = .leaving → p.pending = []
  | .refused _ => p.pending = []
  | .send _ _ => p.maySend = true → p.sendings = []
  | .sealFails => p.maySend = true → p.Quiet
  | .close _ => p.sendings = [] ∧ (p.saysBye = false → p.pending = [])
  | .timeout => p.leaves = false

/-- Whole messages one after another, one card at most, nothing after the close. -/
def InOrder (p : Phone Card) : Prop :=
  Unmixed p.wire ∧ p.cards ≤ 1 ∧ ∀ f ∈ p.wire, f.late = false

/-! ### What such events keep -/

/-- What is on the wire, with what is being sent. -/
structure Sent (p : Phone Card) : Prop where
  unmixed : Unmixed p.wire
  prompt : ∀ f ∈ p.wire, f.late = false
  /-- At most one message is being sent, and the last fragment is of it. -/
  one : p.sendings = [] ∨ ∃ s, p.sendings = [s] ∧ s.given ≠ 0 ∧ s.given ≤ s.total ∧
    p.wire.getLast? = some ⟨s.message, s.given - 1, s.total, false⟩
  whole : p.sendings = [] → p.closed = false → ∀ f ∈ p.wire.getLast?, f.index + 1 = f.total
  quiet : p.closed = true → p.Quiet

/-- A closed phone neither hears nor sends. -/
structure Shut (p : Phone Card) : Prop where
  hears : p.closed = true → p.hears = false
  stopped : p.closed = true → p.linkClosed = true ∨ p.view = .failed
  ended : p.ended = true → p.closed = true
  linkClosed : p.linkClosed = true → p.closed = true

/-- Where the phone is in its swap, and how many cards there are. -/
structure Stage (p : Phone Card) : Prop where
  past : ∀ sent received link, p.view = .linked sent received link → p.state = .past
  linked : ∀ sent received link, p.view = .linked sent received link →
    p.cards = 0 ∨ sent = true ∨ ∃ s ∈ p.sendings, ∃ c, s.kind = .card c
  before : p.view = .before → p.cards = 0
  failed : p.view = .failed → p.closed = true
  last : ∀ s ∈ p.sendings, s.kind = .answer true → p.state = .past ∧ p.view = .before
  reveal : Pending.reveal ∈ p.pending → p.state = .reveal
  done : Pending.done ∈ p.pending → p.state = .done
  single : p.pending.length ≤ 1
  cards : p.cards ≤ 1

/-- What holds of a phone whose messages come in turn. -/
structure Inv (p : Phone Card) : Prop where
  sent : Sent p
  shut : Shut p
  stage : Stage p

variable {p q : Phone Card} {kind : Kind Card}

/-- A phone that hears has not closed. -/
theorem Shut.closed_of_hears (h : Shut p) (hh : p.hears = true) : p.closed = false := by
  cases hc : p.closed with
  | false => rfl
  | true => rw [h.hears hc] at hh; cases hh

/-- A step that waits is of its own state. -/
theorem Stage.not_reveal (h : Stage p) {state : Step} (hstate : p.state = state)
    (hne : state ≠ .reveal) : Pending.reveal ∉ p.pending :=
  fun hr => hne (hstate.symm.trans (h.reveal hr))

/-- Only the last stage has the last step pending. -/
theorem Stage.not_done (h : Stage p) {state : Step} (hstate : p.state = state)
    (hne : state ≠ .done) : Pending.done ∉ p.pending :=
  fun hd => hne (hstate.symm.trans (h.done hd))

/-- Nothing is being sent on a closed link. -/
theorem Sent.closed_of_sending (h : Sent p) {s : Sending Card} (hs : s ∈ p.sendings) :
    p.closed = false := by
  cases hc : p.closed with
  | false => rfl
  | true => rw [(h.quiet hc).1] at hs; cases hs

theorem Sent.closed_of_pending (h : Sent p) {x : Pending} (hx : x ∈ p.pending) :
    p.closed = false := by
  cases hc : p.closed with
  | false => rfl
  | true => rw [(h.quiet hc).2] at hx; cases hx

/-- On an open link of a linked phone nothing is closed. -/
theorem Shut.closed_of_linked (h : Shut p) {sent : Bool} {received : Option Card}
    {link : LinkShown} (hv : p.view = .linked sent received link) (hl : p.linkClosed = false) :
    p.closed = false := by
  cases hc : p.closed with
  | false => rfl
  | true =>
    rcases h.stopped hc with hstop | hstop
    · rw [hl] at hstop
      cases hstop
    · rw [hv] at hstop
      cases hstop

/-! ### A message begins -/

/-- A message begun where none is being sent stays whole. -/
theorem Sent.begin (h : Sent p) (hnone : p.sendings = []) (hopen : p.closed = false)
    (kind : Kind Card) (n : Nat) : Sent (p.begin kind n) where
  unmixed := h.unmixed.append (fun _ => rfl) fun a ha => .inr ⟨h.whole hnone hopen a ha, rfl⟩
  prompt f hf := by
    rcases List.mem_append.mp hf with hf | hf
    · exact h.prompt f hf
    · rw [List.mem_singleton.mp hf]
      exact hopen
  one := by
    refine .inr ⟨⟨p.begun, kind, n + 1, 1⟩, ?_, Nat.one_ne_zero, Nat.succ_le_succ (Nat.zero_le n), ?_⟩
    · show p.sendings ++ _ = _
      rw [hnone]
      rfl
    · show (p.wire ++ [_]).getLast? = _
      rw [List.getLast?_append, hopen]
      rfl
  whole hs := by
    have hs' : p.sendings ++ [_] = [] := hs
    rw [hnone] at hs'
    cases hs'
  quiet hc := by
    have hc' : p.closed = true := hc
    rw [hopen] at hc'
    cases hc'

/-- Beginning a message leaves the phone where it is; only the joiner's last answer and a card
need more. -/
theorem Stage.begin (h : Stage p) (hnone : p.sendings = [])
    (hlast : kind = .answer true → p.state = .past ∧ p.view = .before) (n : Nat) :
    Stage (p.begin kind n) where
  past := h.past
  linked sent received link hv := by
    rcases h.linked sent received link hv with h0 | hs | ⟨s, hs, -⟩
    · exact .inl h0
    · exact .inr (.inl hs)
    · rw [hnone] at hs
      cases hs
  before := h.before
  failed := h.failed
  last s hs := by
    have hs' : s ∈ p.sendings ++ [⟨p.begun, kind, n + 1, 1⟩] := hs
    rw [hnone] at hs'
    rw [List.mem_singleton.mp hs']
    exact hlast
  reveal := h.reveal
  done := h.done
  single := h.single
  cards := h.cards

/-- Beginning one keeps the invariant. -/
theorem Inv.begin (h : Inv p) (hnone : p.sendings = []) (hopen : p.closed = false)
    (hlast : kind = .answer true → p.state = .past ∧ p.view = .before) (n : Nat) :
    Inv (p.begin kind n) :=
  ⟨h.sent.begin hnone hopen kind n, ⟨h.shut.hears, h.shut.stopped, h.shut.ended, h.shut.linkClosed⟩,
    h.stage.begin hnone hlast n⟩

/-! ### The link closes -/

/-- The same phone, but for what it is sending and waiting for. -/
structure Same (p q : Phone Card) : Prop where
  state : q.state = p.state
  view : q.view = p.view
  ended : q.ended = p.ended
  linkClosed : q.linkClosed = p.linkClosed
  wire : q.wire = p.wire
  cards : q.cards = p.cards

/-- A quiet phone whose link is closed: what counts of its past is kept. -/
theorem Inv.stop (h : Inv p) (hwire : q.wire = p.wire) (hcards : q.cards = p.cards)
    (hstate : q.state = p.state) (hquiet : q.Quiet) (hclosed : q.closed = true)
    (hhears : q.hears = false) (hstop : q.linkClosed = true ∨ q.view = .failed)
    (hlinked : ∀ sent received link, q.view = .linked sent received link →
      (∃ link', p.view = .linked sent received link') ∧
        ∀ s ∈ p.sendings, ∀ c, s.kind ≠ .card c)
    (hbefore : q.view = .before → p.view = .before) : Inv q where
  sent := {
    unmixed := by rw [hwire]; exact h.sent.unmixed
    prompt := by rw [hwire]; exact h.sent.prompt
    one := .inl hquiet.1
    whole := fun _ hc => by rw [hclosed] at hc; cases hc
    quiet := fun _ => hquiet }
  shut := ⟨fun _ => hhears, fun _ => hstop, fun _ => hclosed, fun _ => hclosed⟩
  stage := {
    past := fun sent received link hv => by
      obtain ⟨⟨link', hv'⟩, -⟩ := hlinked sent received link hv
      rw [hstate]
      exact h.stage.past sent received link' hv'
    linked := fun sent received link hv => by
      obtain ⟨⟨link', hv'⟩, hno⟩ := hlinked sent received link hv
      rw [hcards]
      -- a card given out is acknowledged or being sent
      rcases h.stage.linked sent received link' hv' with h0 | hs | ⟨s, hs, c, hk⟩
      · exact .inl h0
      · exact .inr (.inl hs)
      · exact absurd hk (hno s hs c)
    before := fun hv => by rw [hcards]; exact h.stage.before (hbefore hv)
    failed := fun _ => hclosed
    last := fun s hs => by rw [hquiet.1] at hs; cases hs
    reveal := fun hx => by rw [hquiet.2] at hx; cases hx
    done := fun hx => by rw [hquiet.2] at hx; cases hx
    single := by rw [hquiet.2]; exact Nat.zero_le 1
    cards := by rw [hcards]; exact h.stage.cards }

/-- An ended phone hears nothing. -/
theorem hears_of_ended (h : q.ended = true) : q.hears = false := by
  simp [hears, h]

/-- Failing keeps it, with nothing under way. -/
theorem Inv.fail (h : Inv p) (hsame : Same p q) (hquiet : q.Quiet)
    (hended : q.ended = true → Inv q) : Inv q.fail := by
  rcases q.fail_eq with ⟨he, heq⟩ | ⟨-, heq⟩
  · rw [heq]
    exact hended he
  · rw [heq]
    refine h.stop hsame.wire hsame.cards hsame.state hquiet rfl (hears_of_ended rfl) (.inr rfl)
      (fun _ _ _ hv => ?_) fun hv => ?_
    · cases hv
    · cases hv

/-- The same for a phone that was open. -/
theorem Inv.fail_open (h : Inv p) (hsame : Same p q) (hquiet : q.Quiet)
    (hopen : p.closed = false) : Inv q.fail := by
  refine h.fail hsame hquiet fun he => ?_
  rw [hsame.ended] at he
  rw [h.shut.ended he] at hopen
  cases hopen

/-- A view shown as linked was linked. -/
theorem showLink_linked {why link : LinkShown} {view : View Card} {sent : Bool}
    {received : Option Card} (h : showLink why view = .linked sent received link) :
    ∃ link', view = .linked sent received link' := by
  cases view with
  | before => cases h
  | linked s r l =>
    cases h
    exact ⟨l, rfl⟩
  | failed => cases h

/-- A view shown as before was before. -/
theorem showLink_before {why : LinkShown} {view : View Card} (h : showLink why view = .before) :
    view = .before := by
  cases view with
  | before => rfl
  | linked s r l => cases h
  | failed => cases h

theorem Inv.closeLink (h : Inv p) (hsame : Same p q) (hquiet : q.Quiet)
    (hopen : p.closed = false) (hno : ∀ s ∈ p.sendings, ∀ c, s.kind ≠ .card c)
    (why : LinkShown) : Inv (q.closeLink why) := by
  rcases q.closeLink_eq why with ⟨hl, -⟩ | ⟨-, heq⟩
  · rw [hsame.linkClosed] at hl
    rw [h.shut.linkClosed hl] at hopen
    cases hopen
  · rw [heq]
    refine h.stop hsame.wire hsame.cards hsame.state hquiet rfl (by simp [hears]) (.inl rfl)
      (fun sent received link hv => ⟨?_, hno⟩) fun hv => ?_
    · rw [← hsame.view]
      exact showLink_linked hv
    · rw [← hsame.view]
      exact showLink_before hv

theorem Inv.hangUp (h : Inv p) (hsame : Same p q) (hquiet : q.Quiet)
    (hno : ∀ s ∈ p.sendings, ∀ c, s.kind ≠ .card c) : Inv q.hangUp := by
  refine h.stop hsame.wire hsame.cards hsame.state hquiet rfl (hears_of_ended rfl) (.inl rfl)
    (fun sent received link hv => ⟨⟨link, ?_⟩, hno⟩) fun hv => ?_
  · rw [← hsame.view]
    exact hv
  · rw [← hsame.view]
    exact hv

/-! ### The events -/

theorem same_refl (p : Phone Card) : Same p p := ⟨rfl, rfl, rfl, rfl, rfl, rfl⟩

/-- A quiet phone is sending no card. -/
theorem Quiet.no_card (h : p.Quiet) : ∀ s ∈ p.sendings, ∀ c, s.kind ≠ .card c := by
  intro s hs
  rw [h.1] at hs
  cases hs

theorem Inv.fail_quiet (h : Inv p) (hquiet : p.Quiet) : Inv p.fail :=
  h.fail (same_refl p) hquiet fun _ => h

/-- A change of the view from one linked view to another. -/
theorem Inv.view (h : Inv p) {sent sent' : Bool} {received received' : Option Card}
    {link link' : LinkShown} (hv : p.view = .linked sent received link)
    (hcards : p.cards = 0 ∨ sent' = true ∨ ∃ s ∈ p.sendings, ∃ c, s.kind = .card c) :
    Inv { p with view := .linked sent' received' link' } where
  sent := ⟨h.sent.unmixed, h.sent.prompt, h.sent.one, h.sent.whole, h.sent.quiet⟩
  shut := {
    hears := h.shut.hears
    stopped := fun hc => by
      rcases h.shut.stopped hc with hstop | hstop
      · exact .inl hstop
      · rw [hv] at hstop
        cases hstop
    ended := h.shut.ended
    linkClosed := h.shut.linkClosed }
  stage := {
    past := fun _ _ _ _ => h.stage.past sent received link hv
    linked := fun _ _ _ hv' => by
      cases hv'
      exact hcards
    before := fun hv' => by cases hv'
    failed := fun hv' => by cases hv'
    last := fun s hs hk => by
      rw [(h.stage.last s hs hk).2] at hv
      cases hv
    reveal := h.stage.reveal
    done := h.stage.done
    single := h.stage.single
    cards := h.stage.cards }

/-- A swap is done with both cards over and the link open. -/
theorem isDone_iff : p.isDone = true ↔
    (∃ c link, p.view = .linked true (some c) link) ∧ p.linkClosed = false := by
  unfold isDone
  split
  · rename_i c link hv
    constructor
    · intro h
      exact ⟨⟨c, link, hv⟩, by simpa using h⟩
    · rintro ⟨-, hl⟩
      simp [hl]
  · rename_i hv
    constructor
    · intro h
      cases h
    · rintro ⟨⟨c, link, hv'⟩, -⟩
      exact absurd hv' (hv c link)

/-- The goodbye, begun where nothing is being sent. -/
theorem Inv.finishIfDone (h : Inv p) (hnone : p.isDone = true → p.sendings = []) (bye : Nat) :
    Inv (p.finishIfDone bye) := by
  rcases p.finishIfDone_eq bye with heq | ⟨hdone, heq⟩
  · rw [heq]
    exact h
  · rw [heq]
    obtain ⟨⟨c, link, hv⟩, hl⟩ := isDone_iff.mp hdone
    exact h.begin (hnone hdone) (h.shut.closed_of_linked hv hl) (fun hk => by cases hk) bye

/-- A sealed message in turn keeps the invariant. -/
theorem Inv.onSealed (h : Inv p) (hh : p.hears = true) (hover : p.state = .past)
    {m : Incoming Card} (hcond : p.MessageInTurn m) (bye : Nat) : Inv (p.onSealed m bye) := by
  have hopen := h.shut.closed_of_hears hh
  -- past the handshake a message is a card or an end
  cases m with
  | shake n => exact h.fail_quiet (by simpa [MessageInTurn, hover] using hcond)
  | bad => exact h.fail_quiet (by simpa [MessageInTurn, hover] using hcond)
  | card c =>
    simp only [Phone.onSealed]
    split
    · rename_i sent received link hv
      have hnone : (∃ received link, p.view = .linked true received link) → p.sendings = [] := by
        simpa only [MessageInTurn, hover] using hcond
      refine (h.view hv (h.stage.linked sent received link hv)).finishIfDone (fun hd => ?_) bye
      obtain ⟨⟨c', link', hv'⟩, -⟩ := isDone_iff.mp hd
      cases hv'
      exact hnone ⟨received, link, hv⟩
    · exact h
  | bye =>
    have hquiet : p.Quiet := by simpa [MessageInTurn, hover] using hcond
    simp only [Phone.onSealed]
    split
    · exact h.closeLink (same_refl p) hquiet hopen hquiet.no_card .done
    · exact h
  | leaving =>
    have hquiet : p.Quiet := by simpa [MessageInTurn, hover] using hcond
    simp only [Phone.onSealed]
    split
    · exact h.closeLink (same_refl p) hquiet hopen hquiet.no_card .left
    · exact h

/-- Before the handshake is over the view is not the linked one, so no card is out. -/
theorem Inv.before (h : Inv p) (hopen : p.closed = false) (hstate : p.state ≠ .past) :
    p.view = .before := by
  cases hv : p.view with
  | before => rfl
  | linked sent received link => exact absurd (h.stage.past sent received link hv) hstate
  | failed =>
    rw [h.stage.failed hv] at hopen
    cases hopen

/-- A step of the handshake that ends: nothing is pending for the old state any more. -/
theorem Inv.state (h : Inv p) (hopen : p.closed = false) (hstate : p.state ≠ .past)
    (state : Step) (pending : List Pending) (session : Bool)
    (hreveal : Pending.reveal ∈ pending → state = .reveal)
    (hdone : Pending.done ∈ pending → state = .done) (hsingle : pending.length ≤ 1) :
    Inv { p with state := state, pending := pending, session := session } := by
  have hv := h.before hopen hstate
  refine ⟨⟨h.sent.unmixed, h.sent.prompt, h.sent.one, h.sent.whole, fun hc => ?_⟩,
    ⟨h.shut.hears, h.shut.stopped, h.shut.ended, h.shut.linkClosed⟩, ?_⟩
  · have hc' : p.closed = true := hc
    rw [hopen] at hc'
    cases hc'
  · exact {
      past := fun _ _ _ hv' => by
        rw [show p.view = _ from hv'] at hv
        cases hv
      linked := fun _ _ _ _ => .inl (h.stage.before hv)
      before := h.stage.before
      failed := h.stage.failed
      last := fun s hs hk => absurd (h.stage.last s hs hk).1 hstate
      reveal := hreveal
      done := hdone
      single := hsingle
      cards := h.stage.cards }

theorem Inv.link (h : Inv p) (hopen : p.closed = false) (hv : p.view = .before)
    (hover : p.state = .past) (hlast : ∀ s ∈ p.sendings, s.kind ≠ .answer true) :
    Inv p.link where
  sent := ⟨h.sent.unmixed, h.sent.prompt, h.sent.one, h.sent.whole, h.sent.quiet⟩
  shut := {
    hears := h.shut.hears
    stopped := fun hc => by
      have hc' : p.closed = true := hc
      rw [hopen] at hc'
      cases hc'
    ended := h.shut.ended
    linkClosed := h.shut.linkClosed }
  stage := {
    past := fun _ _ _ _ => hover
    linked := fun _ _ _ _ => .inl (h.stage.before hv)
    before := fun hv' => by cases hv'
    failed := fun hv' => by cases hv'
    last := fun s hs hk => absurd hk (hlast s hs)
    reveal := h.stage.reveal
    done := h.stage.done
    single := h.stage.single
    cards := h.stage.cards }

/-- No answer is the joiner's last while its state is still `done`. -/
theorem Inv.no_last (h : Inv p) (hstate : p.state ≠ .past) :
    ∀ s ∈ p.sendings, s.kind ≠ .answer true :=
  fun s hs hk => hstate (h.stage.last s hs hk).1

theorem Inv.onMessage (h : Inv p) (hh : p.hears = true) {m : Incoming Card}
    (hcond : p.MessageInTurn m) (bye : Nat) : Inv (p.onMessage m bye) := by
  have hopen := h.shut.closed_of_hears hh
  have hwaits (x : Pending) (state : Step) (hs : p.state = state) (hne : state ≠ .past)
      (hx : x = .reveal ∧ state = .reveal ∨ x = .done ∧ state = .done)
      (hnone : p.pending = []) : Inv { p with pending := p.pending ++ [x] } := by
    have hnext := h.state hopen (by rw [hs]; exact hne) state [x] p.session
      (fun hr => by rcases hx with ⟨rfl, rfl⟩ | ⟨rfl, rfl⟩ <;> simp at hr ⊢)
      (fun hr => by rcases hx with ⟨rfl, rfl⟩ | ⟨rfl, rfl⟩ <;> simp at hr ⊢) le_rfl
    rw [hnone]
    rw [← hs] at hnext
    exact hnext
  cases hstate : p.state with
  | past =>
    have heq : p.onMessage m bye = p.onSealed m bye := by
      simp only [Phone.onMessage, hstate]
    rw [heq]
    exact h.onSealed hh hstate hcond bye
  | «open» =>
    have hne : p.state ≠ .past := by rw [hstate]; decide
    cases m with
    | shake n =>
      have hnone : p.sendings = [] := by simpa only [MessageInTurn, hstate] using hcond
      have heq : p.onMessage (.shake n) bye = { p with state := .reveal }.begin (.answer false) n := by
        simp only [Phone.onMessage, hstate]
      rw [heq]
      have hdone := h.stage.not_done hstate (by decide)
      exact (h.state hopen hne .reveal p.pending p.session (fun _ => rfl)
        (fun hd => absurd hd hdone) h.stage.single).begin hnone hopen (fun hk => by cases hk) n
    | _ =>
      have hquiet : p.Quiet := by simpa only [MessageInTurn, hstate] using hcond
      simp only [Phone.onMessage, hstate]
      exact h.fail_quiet hquiet
  | keys =>
    have hne : p.state ≠ .past := by rw [hstate]; decide
    cases m with
    | shake n =>
      have hnone : p.sendings = [] := by simpa only [MessageInTurn, hstate] using hcond
      have heq : p.onMessage (.shake n) bye = { p with state := .done }.begin (.answer false) n := by
        simp only [Phone.onMessage, hstate]
      rw [heq]
      have hreveal := h.stage.not_reveal hstate (by decide)
      exact (h.state hopen hne .done p.pending p.session (fun hr => absurd hr hreveal)
        (fun _ => rfl) h.stage.single).begin hnone hopen (fun hk => by cases hk) n
    | _ =>
      have hquiet : p.Quiet := by simpa only [MessageInTurn, hstate] using hcond
      simp only [Phone.onMessage, hstate]
      exact h.fail_quiet hquiet
  | reveal =>
    have hnone : p.pending = [] := by simpa only [MessageInTurn, hstate] using hcond
    have heq : p.onMessage m bye = { p with pending := p.pending ++ [.reveal] } := by
      simp only [Phone.onMessage, hstate]
    rw [heq]
    exact hwaits .reveal .reveal hstate (by decide) (.inl ⟨rfl, rfl⟩) hnone
  | done =>
    have hnone : p.pending = [] := by simpa only [MessageInTurn, hstate] using hcond
    have heq : p.onMessage m bye = { p with pending := p.pending ++ [.done] } := by
      simp only [Phone.onMessage, hstate]
    rw [heq]
    exact hwaits .done .done hstate (by decide) (.inr ⟨rfl, rfl⟩) hnone
  | confirm =>
    have hne : p.state ≠ .past := by rw [hstate]; decide
    cases m with
    | shake n =>
      have heq : p.onMessage (.shake n) bye = { p with state := .past, session := true }.link := by
        simp only [Phone.onMessage, hstate]
      rw [heq]
      have hreveal := h.stage.not_reveal hstate (by decide)
      have hdone := h.stage.not_done hstate (by decide)
      -- the shown phone is linked here; no answer of it is the last
      exact (h.state hopen hne .past p.pending true (fun hr => absurd hr hreveal)
        (fun hd => absurd hd hdone) h.stage.single).link hopen (h.before hopen hne) rfl
        (h.no_last hne)
    | _ =>
      have hquiet : p.Quiet := by simpa only [MessageInTurn, hstate] using hcond
      simp only [Phone.onMessage, hstate]
      exact h.fail_quiet hquiet

/-- What is pending is pending alone. -/
theorem Inv.erase_pending (h : Inv p) {i : Nat} {x : Pending} (hx : p.pending[i]? = some x) :
    p.pending.eraseIdx i = [] := by
  have hlen := h.stage.single
  obtain ⟨hi, -⟩ := List.getElem?_eq_some_iff.mp hx
  rw [← List.length_eq_zero_iff, List.length_eraseIdx_of_lt hi]
  omega

/-- A step that goes on, with nothing being sent. -/
theorem Inv.stepped (h : Inv p) (hnone : p.sendings = []) (i n : Nat) : Inv (p.stepped i n) := by
  unfold Phone.stepped
  split
  · exact h
  · rename_i x hx
    have hmem := List.mem_of_getElem? hx
    have hopen := h.sent.closed_of_pending hmem
    rw [h.erase_pending hx]
    -- the three waits of the handshake
    cases x with
    | joining =>
      have hbase : Inv { p with pending := [] } := by
        refine ⟨⟨h.sent.unmixed, h.sent.prompt, h.sent.one, h.sent.whole, fun _ => ⟨hnone, rfl⟩⟩,
          ⟨h.shut.hears, h.shut.stopped, h.shut.ended, h.shut.linkClosed⟩, ?_⟩
        exact { h.stage with
          reveal := fun hr => by cases hr
          done := fun hd => by cases hd
          single := Nat.zero_le 1 }
      exact hbase.begin hnone hopen (fun hk => by cases hk) n
    | reveal =>
      have hne : p.state ≠ .past := by
        rw [h.stage.reveal hmem]
        decide
      exact (h.state hopen hne .confirm [] p.session (fun hr => by cases hr) (fun hd => by cases hd)
        (Nat.zero_le 1)).begin hnone hopen (fun hk => by cases hk) n
    | done =>
      have hne : p.state ≠ .past := by
        rw [h.stage.done hmem]
        decide
      exact (h.state hopen hne .past [] true (fun hr => by cases hr) (fun hd => by cases hd)
        (Nat.zero_le 1)).begin hnone hopen (fun _ => ⟨rfl, h.before hopen hne⟩) n

theorem Inv.stepFails (h : Inv p) (hnone : p.sendings = []) (i : Nat) : Inv (p.stepFails i) := by
  unfold Phone.stepFails
  split
  · exact h
  · rename_i x hx
    have hopen := h.sent.closed_of_pending (List.mem_of_getElem? hx)
    exact h.fail_open ⟨rfl, rfl, rfl, rfl, rfl, rfl⟩ ⟨hnone, h.erase_pending hx⟩ hopen

/-- What is being sent is being sent alone. -/
theorem Inv.sending (h : Inv p) {i : Nat} {s : Sending Card} (hs : p.sendings[i]? = some s) :
    i = 0 ∧ p.sendings = [s] ∧ s.given ≠ 0 ∧ s.given ≤ s.total ∧
      p.wire.getLast? = some ⟨s.message, s.given - 1, s.total, false⟩ := by
  rcases h.sent.one with hnone | ⟨s', hs', hrest⟩
  · rw [hnone] at hs
    cases hs
  · rw [hs'] at hs
    obtain ⟨hi, heq⟩ := List.getElem?_eq_some_iff.mp hs
    have hi0 : i = 0 := Nat.lt_one_iff.mp hi
    subst hi0
    cases heq
    exact ⟨rfl, hs', hrest⟩

/-- The next fragment of what is being sent. -/
theorem Inv.next (h : Inv p) {s : Sending Card} (hs : p.sendings = [s]) (hgiven : s.given ≠ 0)
    (hlt : s.given < s.total)
    (hlast : p.wire.getLast? = some ⟨s.message, s.given - 1, s.total, false⟩) :
    Inv { p with
      wire := p.wire ++ [⟨s.message, s.given, s.total, p.closed⟩]
      sendings := [{ s with given := s.given + 1 }] } := by
  have hopen : p.closed = false := h.sent.closed_of_sending (s := s) (by rw [hs]; exact .head _)
  refine ⟨?_, ⟨h.shut.hears, h.shut.stopped, h.shut.ended, h.shut.linkClosed⟩, ?_⟩
  · refine ⟨?_, ?_, .inr ⟨_, rfl, Nat.succ_ne_zero _, hlt, ?_⟩, ?_, ?_⟩
    · -- the next fragment follows the last one of the same message
      refine h.sent.unmixed.append (fun hnil => ?_) fun a ha => ?_
      · rw [hnil] at hlast
        cases hlast
      · rw [hlast] at ha
        cases ha
        exact .inl ⟨rfl, rfl, (Nat.succ_pred_eq_of_ne_zero hgiven).symm⟩
    · intro f hf
      rcases List.mem_append.mp hf with hf | hf
      · exact h.sent.prompt f hf
      · rw [List.mem_singleton.mp hf]
        exact hopen
    · show (p.wire ++ [_]).getLast? = _
      rw [List.getLast?_append, hopen]
      rfl
    · intro hnil
      cases hnil
    · intro hc
      have hc' : p.closed = true := hc
      rw [hopen] at hc'
      cases hc'
  · exact { h.stage with
      linked := fun sent received link hv => by
        rcases h.stage.linked sent received link hv with h0 | hsent | ⟨t, ht, c, hk⟩
        · exact .inl h0
        · exact .inr (.inl hsent)
        · rw [hs, List.mem_singleton] at ht
          subst ht
          exact .inr (.inr ⟨_, .head _, c, hk⟩)
      last := fun t ht hk => by
        cases List.mem_singleton.mp ht
        exact h.stage.last s (by rw [hs]; exact .head _) hk }

/-- What was being sent is out; if it was a card, that is marked. -/
theorem Inv.out (h : Inv p) {s : Sending Card} (hs : p.sendings = [s])
    (hmarked : ∀ sent received link, p.view = .linked sent received link →
      sent = true ∨ ∀ c, s.kind ≠ .card c) (heq : s.given = s.total)
    (hgiven : s.given ≠ 0)
    (hlast : p.wire.getLast? = some ⟨s.message, s.given - 1, s.total, false⟩) :
    Inv { p with sendings := [] } := by
  have hopen : p.closed = false := h.sent.closed_of_sending (s := s) (by rw [hs]; exact .head _)
  refine ⟨⟨h.sent.unmixed, h.sent.prompt, .inl rfl, fun _ _ f hf => ?_, fun hc => ?_⟩,
    ⟨h.shut.hears, h.shut.stopped, h.shut.ended, h.shut.linkClosed⟩, ?_⟩
  · rw [show p.wire.getLast? = _ from hlast] at hf
    cases hf
    show s.given - 1 + 1 = s.total
    omega
  · have hc' : p.closed = true := hc
    rw [hopen] at hc'
    cases hc'
  · exact { h.stage with
      linked := fun sent received link hv => by
        rcases h.stage.linked sent received link hv with h0 | hsent | ⟨t, ht, c, hk⟩
        · exact .inl h0
        · exact .inr (.inl hsent)
        · rw [hs, List.mem_singleton] at ht
          subst ht
          rcases hmarked sent received link hv with hsent | hno
          · exact .inr (.inl hsent)
          · exact absurd hk (hno c)
      last := fun t ht => by cases ht }

/-- An acknowledgement, with nothing pending where it ends a goodbye. -/
theorem Inv.acked (h : Inv p) {i : Nat} (bye : Nat)
    (hcond : ∀ s ∈ p.sendings[i]?, s.kind = .bye ∨ s.kind = .leaving → p.pending = []) :
    Inv (p.acked i bye) := by
  unfold Phone.acked
  split
  · exact h
  · rename_i s hs
    obtain ⟨rfl, hone, hgiven, hle, hlast⟩ := h.sending hs
    have hmem : s ∈ p.sendings := List.mem_of_getElem? hs
    have hopen := h.sent.closed_of_sending hmem
    split
    · rename_i hlt
      rw [hone]
      exact h.next hone hgiven hlt hlast
    · rename_i hge
      have heq : s.given = s.total := by omega
      have herase : p.sendings.eraseIdx 0 = [] := by rw [hone]; rfl
      rw [herase]
      have hno (hk : ∀ c, s.kind ≠ .card c) : ∀ t ∈ p.sendings, ∀ c, t.kind ≠ .card c := by
        intro t ht
        rw [hone, List.mem_singleton] at ht
        rw [ht]
        exact hk
      cases hkind : s.kind with
      | start =>
        refine h.out hone (fun _ _ _ _ => .inr fun c hk => ?_) heq hgiven hlast
        rw [hkind] at hk
        cases hk
      | answer last =>
        have hout : Inv { p with sendings := [] } := by
          refine h.out hone (fun _ _ _ _ => .inr fun c hk => ?_) heq hgiven hlast
          rw [hkind] at hk
          cases hk
        cases last with
        | false => exact hout
        | true =>
          obtain ⟨hover, hv⟩ := h.stage.last s hmem hkind
          exact hout.link hopen hv hover fun t ht => by cases ht
      | card c =>
        -- marked as sent first, the card may leave the list
        have hout : Inv ({ p with sendings := [] } : Phone Card).markSent := by
          unfold markSent
          split
          · rename_i sent received link hv
            have hmarked : Inv { p with view := .linked true received link } :=
              h.view hv (.inr (.inl rfl))
            refine hmarked.out hone (fun _ _ _ hv' => .inl ?_) heq hgiven hlast
            cases hv'
            rfl
          · rename_i hv
            exact h.out hone (fun sent received link hv' => absurd hv' (hv sent received link))
              heq hgiven hlast
        refine hout.finishIfDone (fun _ => ?_) bye
        unfold markSent
        split <;> rfl
      | bye =>
        refine h.closeLink (q := { p with sendings := [] }) ⟨rfl, rfl, rfl, rfl, rfl, rfl⟩
          ⟨rfl, hcond s hs (.inl hkind)⟩ hopen (hno fun c hk => ?_) .done
        rw [hkind] at hk
        cases hk
      | leaving =>
        refine h.hangUp (q := { p with sendings := [] }) ⟨rfl, rfl, rfl, rfl, rfl, rfl⟩
          ⟨rfl, hcond s hs (.inr hkind)⟩ (hno fun c hk => ?_)
        rw [hkind] at hk
        cases hk

/-- A refusal, with nothing pending. -/
theorem Inv.refused (h : Inv p) {i : Nat} (hcond : p.pending = []) : Inv (p.refused i) := by
  unfold Phone.refused
  split
  · exact h
  · rename_i s hs
    obtain ⟨rfl, hone, -⟩ := h.sending hs
    have hopen := h.sent.closed_of_sending (List.mem_of_getElem? hs)
    have herase : p.sendings.eraseIdx 0 = [] := by rw [hone]; rfl
    rw [herase]
    have hsame : Same p { p with sendings := [] } := ⟨rfl, rfl, rfl, rfl, rfl, rfl⟩
    have hquiet : Quiet ({ p with sendings := [] } : Phone Card) := ⟨rfl, hcond⟩
    have hno (hk : ∀ c, s.kind ≠ .card c) : ∀ t ∈ p.sendings, ∀ c, t.kind ≠ .card c := by
      intro t ht
      rw [hone, List.mem_singleton] at ht
      rw [ht]
      exact hk
    -- with nothing else under way the phone fails or closes quietly
    cases hkind : s.kind with
    | start => exact h.fail_open hsame hquiet hopen
    | answer last => exact h.fail_open hsame hquiet hopen
    | card c => exact h.fail_open hsame hquiet hopen
    | bye =>
      refine h.closeLink hsame hquiet hopen (hno fun c hk => ?_) .done
      rw [hkind] at hk
      cases hk
    | leaving =>
      refine h.hangUp hsame hquiet (hno fun c hk => ?_)
      rw [hkind] at hk
      cases hk

/-- The first card: none is out, none is on its way. -/
theorem Inv.send (h : Inv p) (hcond : p.maySend = true → p.sendings = []) (c : Card) (n : Nat) :
    Inv (p.send c n) := by
  unfold Phone.send
  split
  · rename_i hmay
    have hnone := hcond hmay
    obtain ⟨⟨received, link, hv⟩, -, hl⟩ := maySend_iff.mp hmay
    -- the flag is not set, so no card went out: none is being sent
    have hzero : p.cards = 0 := by
      rcases h.stage.linked false received link hv with h0 | hsent | ⟨s, hs, -⟩
      · exact h0
      · cases hsent
      · rw [hnone] at hs
        cases hs
    have hopen := h.shut.closed_of_linked hv hl
    refine ⟨?_, ⟨h.shut.hears, h.shut.stopped, h.shut.ended, h.shut.linkClosed⟩, ?_⟩
    · have hbase := h.sent.begin hnone hopen (.card c) n
      exact ⟨hbase.unmixed, hbase.prompt, hbase.one, hbase.whole, hbase.quiet⟩
    · have hbase : Stage (p.begin (.card c) n) :=
        h.stage.begin hnone (fun hk => by cases hk) n
      exact {
        past := hbase.past
        linked := fun _ _ _ _ =>
          .inr (.inr ⟨_, List.mem_append_right _ (.head _), c, rfl⟩)
        before := fun hv' => by
          rw [show p.view = _ from hv'] at hv
          cases hv
        failed := hbase.failed
        last := hbase.last
        reveal := hbase.reveal
        done := hbase.done
        single := hbase.single
        cards := by
          show p.cards + 1 ≤ 1
          omega }
  · exact h

/-- The sheet closed, between two messages. -/
theorem Inv.close (h : Inv p) (hnone : p.sendings = [])
    (hcond : p.saysBye = false → p.pending = []) (bye : Nat) :
    Inv (if p.saysBye then p.begin .leaving bye else p.hangUp) := by
  cases hsays : p.saysBye with
  | true =>
    obtain ⟨⟨sent, received, link, hv⟩, -, hl⟩ := saysBye_iff.mp hsays
    exact h.begin hnone (h.shut.closed_of_linked hv hl) (fun hk => by cases hk) bye
  | false =>
    have hquiet : p.Quiet := ⟨hnone, hcond hsays⟩
    exact h.hangUp (same_refl p) hquiet hquiet.no_card

/-- While a step waits for the device the view is none of the linked ones. -/
theorem Inv.press (h : Inv p) (hx : Pending.reveal ∈ p.pending ∨ Pending.done ∈ p.pending) :
    Inv { p with view := .before } := by
  have hne : p.state ≠ .past := by
    rcases hx with hx | hx
    · rw [h.stage.reveal hx]
      decide
    · rw [h.stage.done hx]
      decide
  have hopen : p.closed = false := by
    rcases hx with hx | hx
    · exact h.sent.closed_of_pending hx
    · exact h.sent.closed_of_pending hx
  have hv := h.before hopen hne
  have heq : ({ p with view := .before } : Phone Card) = p := by
    rw [← hv]
  rw [heq]
  exact h

/-- Every event in turn keeps it. -/
theorem Inv.step (h : Inv p) (e : Event Card) (hcond : p.InTurn e) : Inv (p.step e) := by
  -- one lemma for each event, where the phone hears it
  cases e with
  | message m bye =>
    simp only [Phone.step]
    split
    · rename_i hh
      exact h.onMessage hh (hcond hh) bye
    · exact h
  | badFrame =>
    simp only [Phone.step]
    split
    · rename_i hh
      exact h.fail_quiet (hcond hh)
    · exact h
  | drop =>
    simp only [Phone.step]
    split
    · rename_i hh
      have hquiet : p.Quiet := hcond hh
      split
      · exact h.closeLink (same_refl p) hquiet (h.shut.closed_of_hears hh) hquiet.no_card .dropped
      · exact h.fail_quiet hquiet
    · exact h
  | press =>
    simp only [Phone.step]
    split
    · rename_i hx
      exact h.press hx
    · exact h
  | stepped i n => exact h.stepped hcond i n
  | stepFails i => exact h.stepFails hcond i
  | hostFails =>
    simp only [Phone.step]
    split
    · exact h.fail_quiet hcond
    · exact h
  | acked i bye => exact h.acked bye hcond
  | refused i => exact h.refused hcond
  | send c n => exact h.send hcond c n
  | sealFails =>
    simp only [Phone.step]
    split
    · rename_i hmay
      exact h.fail_quiet (hcond hmay)
    · exact h
  | close bye => exact h.close hcond.1 hcond.2 bye
  | timeout =>
    simp only [Phone.step]
    split
    · rename_i hl
      have hoff : p.leaves = false := hcond
      rw [hoff] at hl
      cases hl
    · exact h

/-- A phone that has just begun, to host or to join. -/
theorem inv_begun (state : Step) (pending : List Pending)
    (hreveal : Pending.reveal ∉ pending) (hdone : Pending.done ∉ pending)
    (hsingle : pending.length ≤ 1) :
    Inv (⟨state, .before, false, false, false, true, false, pending, [], [], 0, 0⟩ :
      Phone Card) where
  sent := ⟨⟨fun _ hf => (by cases hf), List.isChain_nil⟩, fun _ hf => (by cases hf), .inl rfl,
    fun _ _ _ hf => (by cases hf), fun hc => (by cases hc)⟩
  shut := ⟨fun hc => (by cases hc), fun hc => (by cases hc), fun hc => (by cases hc),
    fun hc => (by cases hc)⟩
  stage := {
    past := fun _ _ _ hv => by cases hv
    linked := fun _ _ _ hv => by cases hv
    before := fun _ => rfl
    failed := fun hv => by cases hv
    last := fun _ hs => by cases hs
    reveal := fun hr => absurd hr hreveal
    done := fun hd => absurd hd hdone
    single := hsingle
    cards := Nat.zero_le 1 }

theorem inv_host : Inv (host : Phone Card) :=
  inv_begun .open [] (by decide) (by decide) (by decide)

theorem inv_join : Inv (join : Phone Card) :=
  inv_begun .keys [.joining] (by decide) (by decide) (by decide)

theorem Inv.inOrder (h : Inv p) : p.InOrder := ⟨h.sent.unmixed, h.stage.cards, h.sent.prompt⟩

end Phone

/-! ### The result -/

/-- In a run in which each message has its turn, the host's or the joiner's, the fragments on the
link are whole messages one after another, of one card at most, and none comes after the close. -/
theorem wire_is_in_order (role : Phone Card) (hrole : role = Phone.host ∨ role = Phone.join)
    (history : List (Event Card)) (hcond : AllAlong Phone.step Phone.InTurn role history) :
    (history.foldl Phone.step role).InOrder := by
  have hinv : Phone.Inv role := by
    rcases hrole with rfl | rfl
    · exact Phone.inv_host
    · exact Phone.inv_join
  exact (hcond.keeps hinv fun _ e h he => h.step e he).inOrder

/-- The handshake at the host, each answer of one fragment. -/
def handshake : List (Event Unit) :=
  [.message (.shake 0) 0, .acked 0 0, .message (.shake 0) 0, .stepped 0 0, .acked 0 0,
    .message (.shake 0) 0]

/-- A swap whose card goes out in two fragments, and that ends with the goodbye. -/
theorem wire_is_in_order_once :
    Phone.InOrder ((handshake ++ [Event.message (.card ()) 0, .send () 1, .acked 0 0, .acked 0 0,
      .acked 0 0]).foldl Phone.step Phone.host) :=
  wire_is_in_order Phone.host (.inl rfl) _ ⟨fun _ => rfl, fun _ _ _ => rfl, fun _ => rfl, rfl,
    fun _ _ _ => rfl, fun _ => trivial, fun _ _ => rfl, fun _ => rfl, fun _ _ _ => rfl,
    fun _ _ _ => rfl, fun _ _ _ => rfl, trivial⟩

/-- Two taps on send: both cards go out, mixed. -/
theorem two_sends_mix :
    ¬ Phone.InOrder ((handshake ++ [Event.send () 1, .send () 1, .acked 0 0]).foldl Phone.step
      Phone.host) := by
  rintro ⟨⟨-, hchain⟩, -⟩
  exact absurd hchain (by decide)

end OkRn.Swap
