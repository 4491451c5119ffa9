/-
OkRn/Swap/Received.lean

What a phone holds of a swap, and what may take it away.

A phone that holds the other's card, or whose link is closed, still answers to
whatever fails: a refused fragment of its own card shows `failed` in place of
both.  In a run where nothing fails from then on and no step of the handshake
comes twice, what is held stays (`received_card_stays`).

An end that is not the goodbye (the radio's, a leave, the sheet closed) counts for
the link only while it is open.  So two phones that have each other's card end on
`done` where none of these comes before the goodbye.

Main results: `received_card_stays`, for the two phones over whole runs, and
`goodbye_takes_the_card`, for a run that is not gentle.  The condition `Phone.Gentle`
asks of each event only that nothing fails and that no step of the handshake comes
again; what it does to the phone is listed once, in `Effect`.
-/
import OkRn.Swap.Phone
import OkRn.Lib.Along

namespace OkRn.Swap

variable {Card : Type}

namespace Phone

/-! ### What is held -/

/-- The other's card, as shown. -/
def received (p : Phone Card) : Option Card :=
  match p.view with
  | .linked _ received _ => received
  | _ => none

/-- Whether one's own is shown as sent. -/
def sent (p : Phone Card) : Bool :=
  match p.view with
  | .linked sent _ _ => sent
  | _ => false

/-- `linked.link`. -/
def shown (p : Phone Card) : Option LinkShown :=
  match p.view with
  | .linked _ _ link => some link
  | _ => none

/-- A card, or the end of the link. -/
def holds (p : Phone Card) : Bool :=
  p.received.isSome || match p.shown with
    | none | some .open => false
    | some _ => true

/-- Both cards have crossed, and the link is open. -/
def crossed (p : Phone Card) : Bool :=
  p.received.isSome && p.shown == some .open && p.cards != 0

/-! ### What may take it away -/

/-- A message for which `onMessage` throws. -/
def throws (p : Phone Card) (m : Incoming Card) : Bool :=
  match p.state, m with
  | .past, .shake _ | .past, .bad => true
  | .past, _ => false
  | .reveal, _ | .done, _ => false
  | _, .shake _ => false
  | _, _ => true

/-- The step ends in `fail`. -/
def fails (p : Phone Card) : Event Card → Bool
  | .message m _ => p.hears && p.throws m
  | .badFrame => p.hears
  | .drop => p.hears && p.shown.isNone
  | .stepFails i => !p.ended && p.pending[i]?.isSome
  | .hostFails => !p.ended && p.state == .open
  | .refused i =>
      !p.ended && match p.sendings[i]? with
        | none => false
        | some s => match s.kind with
          | .bye | .leaving => false
          | _ => true
  | .sealFails => !p.ended && p.maySend
  | _ => false

/-- The step is one of the handshake: the press is shown, or the link comes up. -/
def shakes (p : Phone Card) : Event Card → Bool
  | .press => decide (.reveal ∈ p.pending ∨ .done ∈ p.pending)
  | .message (.shake _) _ => p.hears && p.state == .confirm
  | .acked i _ =>
      match p.sendings[i]? with
      | none => false
      | some s => decide (s.total ≤ s.given) && match s.kind with
        | .answer true => true
        | _ => false
  | _ => false

/-- The step ends the link without the goodbye `done`: the radio, the other's close or this
phone's. -/
def breaks (p : Phone Card) : Event Card → Bool
  | .message .leaving _ => p.hears && p.state == .past
  | .drop => p.hears
  | .close _ => !p.saysBye
  | .timeout => p.leaves
  | .acked i _ =>
      match p.sendings[i]? with
      | none => false
      | some s => decide (s.total ≤ s.given) && match s.kind with
        | .leaving => true
        | _ => false
  | .refused i =>
      match p.sendings[i]? with
      | none => false
      | some s => match s.kind with
        | .leaving => true
        | _ => false
  | _ => false

/-- The card of a message. -/
def cardOf : Event Card → Option Card
  | .message (.card c) _ => some c
  | _ => none

/-- A card that comes is the one that is held. -/
def SameCard (p : Phone Card) (e : Event Card) : Prop :=
  p.hears = true → p.state = .past → ∀ c ∈ cardOf e, ∀ c' ∈ p.received, c' = c

instance [DecidableEq Card] (p : Phone Card) (e : Event Card) : Decidable (p.SameCard e) :=
  inferInstanceAs (Decidable (_ → _ → ∀ c ∈ cardOf e, ∀ c' ∈ p.received, c' = c))

/-- Nothing fails at a phone that holds something, no other card comes, the handshake does not come
again, and the goodbye is the end of a swap whose cards have crossed. -/
structure Gentle (p : Phone Card) (e : Event Card) : Prop where
  held : p.holds = true → p.fails e = false
  same : p.SameCard e
  once : p.holds = true ∨ p.cards ≠ 0 → p.shakes e = false
  ended : p.crossed = true → p.breaks e = false

instance [DecidableEq Card] (p : Phone Card) (e : Event Card) : Decidable (p.Gentle e) :=
  decidable_of_iff ((p.holds = true → p.fails e = false) ∧ p.SameCard e ∧
      (p.holds = true ∨ p.cards ≠ 0 → p.shakes e = false) ∧
      (p.crossed = true → p.breaks e = false))
    ⟨fun ⟨held, same, once, ended⟩ => ⟨held, same, once, ended⟩,
      fun h => ⟨h.held, h.same, h.once, h.ended⟩⟩

/-! ### What a step can do -/

/-- The same view, and the same flags that a message or the radio is heard by. -/
structure Alike (p p' : Phone Card) : Prop where
  view : p'.view = p.view
  ended : p'.ended = p.ended
  linkClosed : p'.linkClosed = p.linkClosed
  listening : p'.listening = p.listening
  cards : p'.cards = p.cards

/-- A goodbye is being sent. -/
def SendsBye (p : Phone Card) : Prop := ∃ s ∈ p.sendings, s.kind = .bye

/-- A card is being sent. -/
def SendsCard (p : Phone Card) : Prop := ∃ s ∈ p.sendings, ∃ c, s.kind = .card c

/-- A goodbye or a card that was being sent is being sent. -/
structure Sends (p p' : Phone Card) : Prop where
  bye : p.SendsBye → p'.SendsBye
  card : p.SendsCard → p'.SendsCard

/-- What an event may do to the view, the link and the cards. -/
inductive Effect (p : Phone Card) (e : Event Card) (p' : Phone Card) : Prop
  | keep (hsame : Alike p p') (hsends : Sends p p')
  /-- A sending ends that nobody waits for. -/
  | deaf (hsame : Alike p p') (hdeaf : p.hears = false ∨ p.shown = none)
  | fail (hfails : p.fails e = true) (hview : p'.view = .failed) (hdeaf : p'.listening = false)
      (hcards : p'.cards = p.cards)
  | close (why : LinkShown) (hwhy : why = .done ∨ p.breaks e = true) (hopen : p.linkClosed = false)
      (hview : p'.view = showLink why p.view) (hclosed : p'.linkClosed = true)
      (hdeaf : p'.listening = false) (hcards : p'.cards = p.cards) (hne : why ≠ .open)
  | hangUp (hbreaks : p.breaks e = true) (hview : p'.view = p.view)
      (hclosed : p'.linkClosed = true) (hdeaf : p'.listening = false) (hcards : p'.cards = p.cards)
  | handshake (hshakes : p.shakes e = true)
      (hview : p'.view = .before ∨ p'.view = .linked false none .open)
      (hclosed : p'.linkClosed = p.linkClosed) (hdeaf : p'.listening = p.listening)
      (hcards : p'.cards = p.cards)
  | receive (c : Card) (bye : Nat) (he : e = .message (.card c) bye) (hh : p.hears = true)
      (hpast : p.state = .past) (sent : Bool) (received : Option Card) (link : LinkShown)
      (hview : p.view = .linked sent received link)
      (hview' : p'.view = .linked sent (some c) link) (hended : p'.ended = p.ended)
      (hclosed : p'.linkClosed = p.linkClosed) (hdeaf : p'.listening = p.listening)
      (hcards : p'.cards = p.cards) (hsends : Sends p p')
      (hbye : sent = true → p.linkClosed = false → p'.SendsBye)
  | out (sent : Bool) (received : Option Card) (link : LinkShown)
      (hview : p.view = .linked sent received link)
      (hview' : p'.view = .linked true received link) (hended : p'.ended = p.ended)
      (hclosed : p'.linkClosed = p.linkClosed) (hdeaf : p'.listening = p.listening)
      (hcards : p'.cards = p.cards)
      (hbye : received.isSome = true → p.linkClosed = false → p'.SendsBye)
  | seal_ (hmay : p.maySend = true) (hview : p'.view = p.view) (hended : p'.ended = p.ended)
      (hclosed : p'.linkClosed = p.linkClosed) (hdeaf : p'.listening = p.listening)
      (hcards : p'.cards ≠ 0) (hsends : Sends p p') (hcard : p'.SendsCard)

section

variable {p : Phone Card} {e : Event Card}

theorem Alike.refl (p : Phone Card) : Alike p p := ⟨rfl, rfl, rfl, rfl, rfl⟩

/-- What is sent goes on where each of its kinds does. -/
theorem Sends.of_kinds {p' : Phone Card}
    (h : ∀ s ∈ p.sendings, ∃ s' ∈ p'.sendings, s'.kind = s.kind) : Sends p p' where
  bye := by
    rintro ⟨s, hs, hkind⟩
    obtain ⟨s', hs', hsame⟩ := h s hs
    exact ⟨s', hs', hsame.trans hkind⟩
  card := by
    rintro ⟨s, hs, c, hkind⟩
    obtain ⟨s', hs', hsame⟩ := h s hs
    exact ⟨s', hs', c, hsame.trans hkind⟩

/-- Nothing changed, so it goes on. -/
theorem Sends.refl (p : Phone Card) : Sends p p := ⟨id, id⟩

/-- Beginning a message ends none. -/
theorem sends_begin {q : Phone Card} (hq : q.sendings = p.sendings) (kind : Kind Card) (n : Nat) :
    Sends p (q.begin kind n) :=
  .of_kinds fun s hs => ⟨s, List.mem_append_left _ (hq ▸ hs), rfl⟩

theorem sends_eraseIdx {i : Nat} {s : Sending Card} (hs : p.sendings[i]? = some s)
    (hbye : s.kind ≠ .bye) (hcard : ∀ c, s.kind ≠ .card c) :
    Sends p { p with sendings := p.sendings.eraseIdx i } := by
  have hrest {x : Sending Card} (hx : x ∈ p.sendings) (hne : x ≠ s) :
      x ∈ p.sendings.eraseIdx i := by
    obtain ⟨j, hj⟩ := List.mem_iff_getElem?.mp hx
    refine List.mem_eraseIdx_iff_getElem?.mpr ⟨j, ?_, hj⟩
    rintro rfl
    exact hne (Option.some.inj (hj.symm.trans hs))
  constructor
  · rintro ⟨x, hx, hkind⟩
    refine ⟨x, hrest hx ?_, hkind⟩
    rintro rfl
    exact hbye hkind
  · rintro ⟨x, hx, c, hkind⟩
    refine ⟨x, hrest hx ?_, c, hkind⟩
    rintro rfl
    exact hcard c hkind

/-- The next fragment of a message. -/
theorem sends_set {q : Phone Card} {i : Nat} {s s' : Sending Card} (hs : p.sendings[i]? = some s)
    (hkind : s'.kind = s.kind) (hq : q.sendings = p.sendings.set i s') : Sends p q := by
  refine .of_kinds fun x hx => ?_
  rw [hq]
  obtain ⟨j, hj⟩ := List.mem_iff_getElem?.mp hx
  by_cases hij : i = j
  · subst hij
    obtain ⟨hlt, -⟩ := List.getElem?_eq_some_iff.mp hs
    obtain rfl := Option.some.inj (hj.symm.trans hs)
    exact ⟨s', List.mem_set hlt s', hkind⟩
  · have hset : (p.sendings.set i s')[j]? = some x := by rw [List.getElem?_set_ne hij, hj]
    exact ⟨x, List.mem_of_getElem? hset, rfl⟩

/-- The message begun is being sent. -/
theorem begin_sends (kind : Kind Card) (n : Nat) : ∃ s ∈ (p.begin kind n).sendings, s.kind = kind :=
  ⟨_, List.mem_append_right _ List.mem_cons_self, rfl⟩

/-- Beginning a message shows nothing new. -/
theorem Effect.of_begin {q : Phone Card} (hsame : Alike p q) (hq : q.sendings = p.sendings)
    (kind : Kind Card) (n : Nat) : Effect p e (q.begin kind n) :=
  .keep ⟨hsame.view, hsame.ended, hsame.linkClosed, hsame.listening, hsame.cards⟩
    (sends_begin hq kind n)

/-- A `fail` of the step, or of a phone that has ended. -/
theorem Effect.of_fail {q : Phone Card} (hsame : Alike p q) (hfails : p.ended = false →
    p.fails e = true) : Effect p e q.fail := by
  rcases q.fail_eq with ⟨hended, heq⟩ | ⟨hended, heq⟩
  · rw [heq]
    refine .deaf hsame (.inl ?_)
    rw [hsame.ended] at hended
    simp [hears, hended]
  · rw [heq]
    rw [hsame.ended] at hended
    exact .fail (hfails hended) rfl rfl hsame.cards

/-- Closing the link, for the goodbye or for a break. -/
theorem Effect.of_close {q : Phone Card} (hsame : Alike p q)
    (hshut : p.linkClosed = true → p.listening = false) {why : LinkShown}
    (hwhy : why = .done ∨ p.breaks e = true) (hne : why ≠ .open) :
    Effect p e (q.closeLink why) := by
  rcases q.closeLink_eq why with ⟨hclosed, heq⟩ | ⟨hclosed, heq⟩
  · rw [heq]
    refine .deaf hsame (.inl ?_)
    rw [hsame.linkClosed] at hclosed
    simp [hears, hshut hclosed]
  · rw [heq]
    rw [hsame.linkClosed] at hclosed
    exact .close why hwhy hclosed (by rw [← hsame.view]) rfl rfl hsame.cards hne

theorem Effect.of_hangUp {q : Phone Card} (hsame : Alike p q) (hbreaks : p.breaks e = true) :
    Effect p e q.hangUp :=
  .hangUp hbreaks hsame.view rfl rfl hsame.cards

/-- Before the link, no end of it is shown. -/
theorem shown_eq_none (h : ∀ sent received link, p.view ≠ .linked sent received link) :
    p.shown = none := by
  unfold shown
  cases hv : p.view with
  | before => rfl
  | failed => rfl
  | linked sent received link => exact absurd hv (h sent received link)

/-- The goodbye begins where both are there. -/
theorem finishIfDone_same (q : Phone Card) (bye : Nat) :
    Alike q (q.finishIfDone bye) ∧ Sends q (q.finishIfDone bye) ∧
      (q.isDone = true → (q.finishIfDone bye).SendsBye) := by
  rcases q.finishIfDone_eq bye with heq | ⟨-, heq⟩
  · rw [heq]
    refine ⟨.refl q, .refl q, fun hdone => ?_⟩
    rw [finishIfDone, if_pos hdone] at heq
    rw [← heq]
    exact begin_sends .bye bye
  · rw [heq]
    exact ⟨⟨rfl, rfl, rfl, rfl, rfl⟩, sends_begin rfl _ _, fun _ => begin_sends .bye bye⟩

/-- Before the link is up a message that opens does nothing. -/
theorem onSealed_of_unlinked (h : p.shown = none) {m : Incoming Card} (bye : Nat)
    (hopens : p.throws m = false) (hpast : p.state = .past) : p.onSealed m bye = p := by
  -- by this the match of each case takes its last branch
  have hview (sent : Bool) (received : Option Card) (link : LinkShown) :
      p.view ≠ .linked sent received link := by
    intro hv
    simp [shown, hv] at h
  cases m with
  | shake n => simp [throws, hpast] at hopens
  | bad => simp [throws, hpast] at hopens
  | card c => simp only [onSealed]
  | bye => simp only [onSealed]
  | leaving => simp only [onSealed]

/-- What a sealed message does. -/
theorem effect_onSealed (hshut : p.linkClosed = true → p.listening = false)
    (hh : p.hears = true) (hpast : p.state = .past) (m : Incoming Card) (bye : Nat)
    (hopens : p.throws m = false) : Effect p (.message m bye) (p.onSealed m bye) := by
  cases hv : p.view with
  | before =>
    rw [onSealed_of_unlinked (by simp [shown, hv]) bye hopens hpast]
    exact .keep (.refl p) (.refl p)
  | failed =>
    rw [onSealed_of_unlinked (by simp [shown, hv]) bye hopens hpast]
    exact .keep (.refl p) (.refl p)
  | linked sent received link =>
    cases m with
    | shake n => simp [throws, hpast] at hopens
    | bad => simp [throws, hpast] at hopens
    | card c =>
      -- the goodbye begins here if this phone's card is out
      obtain ⟨hsame, hsends, hdone⟩ :=
        finishIfDone_same { p with view := .linked sent (some c) link } bye
      simp only [onSealed, hv]
      refine .receive c bye rfl hh hpast sent received link hv hsame.view hsame.ended
        hsame.linkClosed hsame.listening hsame.cards ⟨hsends.bye, hsends.card⟩
        fun hsent hopen => hdone ?_
      simp [isDone, hsent, hopen]
    | bye =>
      simp only [onSealed, hv]
      exact .of_close (.refl p) hshut (.inl rfl) (by decide)
    | leaving =>
      simp only [onSealed, hv]
      exact .of_close (.refl p) hshut (.inr (by simp [breaks, hh, hpast])) (by decide)

/-- A message that throws fails the swap. -/
theorem onMessage_of_throws {m : Incoming Card} (bye : Nat) (h : p.throws m = true) :
    p.onMessage m bye = p.fail := by
  cases hstate : p.state <;> cases m <;> simp_all [throws, onMessage, onSealed]

theorem effect_onMessage (hshut : p.linkClosed = true → p.listening = false)
    (hh : p.hears = true) (m : Incoming Card) (bye : Nat) :
    Effect p (.message m bye) (p.onMessage m bye) := by
  cases hthrows : p.throws m with
  | true =>
    rw [onMessage_of_throws bye hthrows]
    exact .of_fail (.refl p) fun _ => by simp [fails, hh, hthrows]
  | false =>
    have hshake (h₁ : p.state ≠ .past) (h₂ : p.state ≠ .reveal) (h₃ : p.state ≠ .done) :
        ∃ n, m = .shake n := by
      cases m with
      | shake n => exact ⟨n, rfl⟩
      | _ => cases hstate : p.state <;> simp_all [throws]
    cases hstate : p.state with
    | past =>
      have heq : p.onMessage m bye = p.onSealed m bye := by simp [onMessage, hstate]
      rw [heq]
      exact effect_onSealed hshut hh hstate m bye hthrows
    | reveal =>
      have heq : p.onMessage m bye = { p with pending := p.pending ++ [.reveal] } := by
        simp [onMessage, hstate]
      rw [heq]
      exact .keep ⟨rfl, rfl, rfl, rfl, rfl⟩ ⟨id, id⟩
    | done =>
      have heq : p.onMessage m bye = { p with pending := p.pending ++ [.done] } := by
        simp [onMessage, hstate]
      rw [heq]
      exact .keep ⟨rfl, rfl, rfl, rfl, rfl⟩ ⟨id, id⟩
    | «open» =>
      obtain ⟨n, rfl⟩ := hshake (by simp [hstate]) (by simp [hstate]) (by simp [hstate])
      simp only [onMessage, hstate]
      apply Effect.of_begin
      · exact ⟨rfl, rfl, rfl, rfl, rfl⟩
      · rfl
    | keys =>
      obtain ⟨n, rfl⟩ := hshake (by simp [hstate]) (by simp [hstate]) (by simp [hstate])
      simp only [onMessage, hstate]
      apply Effect.of_begin
      · exact ⟨rfl, rfl, rfl, rfl, rfl⟩
      · rfl
    | confirm =>
      obtain ⟨n, rfl⟩ := hshake (by simp [hstate]) (by simp [hstate]) (by simp [hstate])
      simp only [onMessage, hstate]
      -- the host's link comes up
      exact .handshake (by simp [shakes, hh, hstate]) (.inr rfl) rfl rfl rfl

/-- A message went out whole: what that does by its kind. -/
theorem effect_finished (hshut : p.linkClosed = true → p.listening = false) {i bye : Nat}
    {s : Sending Card} (hs : p.sendings[i]? = some s) (hlast : s.total ≤ s.given) :
    Effect p (.acked i bye)
      ({ p with sendings := p.sendings.eraseIdx i }.finished bye s.kind) := by
  have hsame : Alike p { p with sendings := p.sendings.eraseIdx i } := ⟨rfl, rfl, rfl, rfl, rfl⟩
  cases hk : s.kind with
  | start =>
    exact .keep hsame (sends_eraseIdx hs (by rw [hk]; nofun) fun c => by rw [hk]; nofun)
  | answer last =>
    cases last with
    | false =>
      exact .keep hsame (sends_eraseIdx hs (by rw [hk]; nofun) fun c => by rw [hk]; nofun)
    -- the joiner's link comes up
    | true => exact .handshake (by simp [shakes, hs, hlast, hk]) (.inr rfl) rfl rfl rfl
  | card c =>
    obtain ⟨hsame', hsends, hdone⟩ := finishIfDone_same
      ({ p with sendings := p.sendings.eraseIdx i }.markSent) bye
    simp only [finished]
    cases hv : p.view with
    | before =>
      refine .deaf ?_ (.inr (by simp [shown, hv]))
      simpa [markSent, hv, finishIfDone, isDone] using hsame
    | failed =>
      refine .deaf ?_ (.inr (by simp [shown, hv]))
      simpa [markSent, hv, finishIfDone, isDone] using hsame
    | linked sent received link =>
      simp only [markSent, hv] at hsame' hdone ⊢
      refine .out sent received link hv hsame'.view hsame'.ended hsame'.linkClosed
        hsame'.listening hsame'.cards fun hreceived hopen => hdone ?_
      obtain ⟨c', rfl⟩ := Option.isSome_iff_exists.mp hreceived
      simp [isDone, hopen]
  | bye => exact .of_close hsame hshut (.inl rfl) (by decide)
  | leaving => exact .of_hangUp hsame (by simp [breaks, hs, hlast, hk])

/-- What an acknowledgement does. -/
theorem effect_acked (hshut : p.linkClosed = true → p.listening = false) (i bye : Nat) :
    Effect p (.acked i bye) (p.acked i bye) := by
  unfold acked
  cases hs : p.sendings[i]? with
  | none => exact .keep (.refl p) (.refl p)
  | some s =>
    by_cases hmore : s.given < s.total
    · have hkind : ({ s with given := s.given + 1 } : Sending Card).kind = s.kind := rfl
      simp only [if_pos hmore]
      exact .keep ⟨rfl, rfl, rfl, rfl, rfl⟩ (sends_set hs hkind rfl)
    · simp only [if_neg hmore]
      exact effect_finished hshut hs (Nat.le_of_not_lt hmore)

theorem effect_refused (hshut : p.linkClosed = true → p.listening = false) (i : Nat) :
    Effect p (.refused i) (p.refused i) := by
  unfold refused
  cases hs : p.sendings[i]? with
  | none => exact .keep (.refl p) (.refl p)
  | some s =>
    have hsame : Alike p { p with sendings := p.sendings.eraseIdx i } := ⟨rfl, rfl, rfl, rfl, rfl⟩
    dsimp only
    cases hk : s.kind with
    | start => exact .of_fail hsame fun hended => by simp [fails, hended, hs, hk]
    | answer last => exact .of_fail hsame fun hended => by simp [fails, hended, hs, hk]
    | card c => exact .of_fail hsame fun hended => by simp [fails, hended, hs, hk]
    | bye => exact .of_close hsame hshut (.inl rfl) (by decide)
    | leaving => exact .of_hangUp hsame (by simp [breaks, hs, hk])

/-- What a step of the handshake does. -/
theorem effect_stepped (i n : Nat) : Effect p (.stepped i n) (p.stepped i n) := by
  unfold stepped
  cases hx : p.pending[i]? with
  | none => exact .keep (.refl p) (.refl p)
  | some x =>
    dsimp only
    cases x with
    | reveal =>
      apply Effect.of_begin
      · exact ⟨rfl, rfl, rfl, rfl, rfl⟩
      · rfl
    | done =>
      apply Effect.of_begin
      · exact ⟨rfl, rfl, rfl, rfl, rfl⟩
      · rfl
    | joining =>
      apply Effect.of_begin
      · exact ⟨rfl, rfl, rfl, rfl, rfl⟩
      · rfl

/-- What sending one's card does. -/
theorem effect_send (c : Card) (n : Nat) : Effect p (.send c n) (p.send c n) := by
  unfold send
  cases hmay : p.maySend with
  | false => exact .keep (.refl p) (.refl p)
  | true =>
    obtain ⟨s, hs, hkind⟩ := begin_sends (p := { p with cards := p.cards + 1 }) (.card c) n
    have hsends : Sends p ({ p with cards := p.cards + 1 }.begin (.card c) n) :=
      sends_begin (p := p) (q := { p with cards := p.cards + 1 }) rfl (.card c) n
    exact .seal_ hmay rfl rfl rfl rfl (Nat.succ_ne_zero _) hsends ⟨s, hs, c, hkind⟩

/-- Everything that one step can do. -/
theorem effect_step (hshut : p.linkClosed = true → p.listening = false) (e : Event Card) :
    Effect p e (p.step e) := by
  have hkeep : Effect p e p := .keep (.refl p) (.refl p)
  -- each event has one of the effects; a phone that does not hear has none
  cases e with
  | message m bye =>
    simp only [step]
    split
    · exact effect_onMessage hshut ‹_› m bye
    · exact hkeep
  | badFrame =>
    simp only [step]
    split
    · exact .of_fail (.refl p) fun _ => ‹_›
    · exact hkeep
  | drop =>
    simp only [step]
    split
    · rename_i hh
      split
      · exact .of_close (.refl p) hshut (.inr hh) (by decide)
      · rename_i hview
        refine .of_fail (.refl p) fun _ => ?_
        simp [fails, hh, shown_eq_none fun sent received link hv => hview sent received link hv]
    · exact hkeep
  | press =>
    simp only [step]
    split
    · exact .handshake (decide_eq_true ‹_›) (.inl rfl) rfl rfl rfl
    · exact hkeep
  | stepped i n => exact effect_stepped i n
  | stepFails i =>
    simp only [step, stepFails]
    cases hx : p.pending[i]? with
    | none => exact hkeep
    | some x => exact .of_fail ⟨rfl, rfl, rfl, rfl, rfl⟩ fun hended => by simp [fails, hended, hx]
  | hostFails =>
    simp only [step]
    split
    · exact .of_fail (.refl p) fun hended => by simp [fails, *]
    · exact hkeep
  | acked i bye => exact effect_acked hshut i bye
  | refused i => exact effect_refused hshut i
  | send c n => exact effect_send c n
  | sealFails =>
    simp only [step]
    split
    · exact .of_fail (.refl p) fun hended => by simp [fails, *]
    · exact hkeep
  | close bye =>
    simp only [step]
    split
    · apply Effect.of_begin
      · exact ⟨rfl, rfl, rfl, rfl, rfl⟩
      · rfl
    · exact .of_hangUp (.refl p) (by simp [breaks, *])
  | timeout =>
    simp only [step]
    split
    · exact .of_hangUp (.refl p) ‹_›
    · exact hkeep

end

/-! ### What a view shows -/

section

variable {p p' : Phone Card}

/-- The end shown is in the view. -/
theorem shown_of_view (h : p'.view = p.view) : p'.shown = p.shown := by
  rw [shown, shown, h]

theorem received_of_view (h : p'.view = p.view) : p'.received = p.received := by
  rw [received, received, h]

theorem sent_of_view (h : p'.view = p.view) : p'.sent = p.sent := by
  rw [sent, sent, h]

/-- Before the link there is neither. -/
theorem received_of_shown (h : p.shown = none) : p.received = none ∧ p.sent = false := by
  unfold shown at h
  unfold received sent
  cases hv : p.view with
  | before => exact ⟨rfl, rfl⟩
  | failed => exact ⟨rfl, rfl⟩
  | linked sent received link =>
    rw [hv] at h
    cases h

/-- A phone hears as long as it has not ended and listens. -/
theorem hears_eq (hended : p'.ended = p.ended) (hlistening : p'.listening = p.listening) :
    p'.hears = p.hears := by
  rw [hears, hears, hended, hlistening]

/-- It hears nothing when it does not listen. -/
theorem hears_of_deaf (h : p.listening = false) : p.hears = false := by
  simp [hears, h]

/-- A closed link shows why, and what was received. -/
theorem received_showLink {why : LinkShown} (h : p'.view = showLink why p.view) :
    p'.received = p.received ∧ (p.shown ≠ none → p'.shown = some why) ∧
      (p'.shown = none ∨ p'.shown = some why) := by
  unfold received shown
  rw [h]
  cases p.view with
  | before => exact ⟨rfl, fun hne => absurd rfl hne, .inl rfl⟩
  | failed => exact ⟨rfl, fun hne => absurd rfl hne, .inl rfl⟩
  | linked sent received link => exact ⟨rfl, fun _ => rfl, .inr rfl⟩

end

/-! ### The invariant -/

/-- What holds of a phone in every gentle run. -/
structure Holding (p : Phone Card) : Prop where
  shut : p.linkClosed = true → p.listening = false
  closed : ∀ link, p.shown = some link → link ≠ .open → p.linkClosed = true
  hears : p.received.isSome = true → p.linkClosed = false → p.hears = true
  /-- A card given out is acknowledged, or is being sent. -/
  out : p.hears = true → p.cards ≠ 0 → p.shown ≠ none → p.sent = false → p.SendsCard
  bye : p.hears = true → p.sent = true → p.received.isSome = true → p.SendsBye
  crossed : p.cards ≠ 0 → p.received.isSome = true →
    p.shown = some .done ∨ (p.shown = some .open ∧ p.linkClosed = false)

section

variable {p p' : Phone Card} {e : Event Card}

/-- A phone that hears has its link open. -/
theorem Holding.linkClosed_of_hears (h : Holding p) (hh : p.hears = true) : p.linkClosed = false := by
  cases hclosed : p.linkClosed with
  | false => rfl
  | true =>
    rw [hears_of_deaf (h.shut hclosed)] at hh
    cases hh

/-- Where the card is there and the link is not closed, it is shown as open. -/
theorem Holding.shown_open (h : Holding p) (hlinked : p.shown ≠ none) (hopen : p.linkClosed = false) :
    p.shown = some .open := by
  obtain ⟨link, hlink⟩ := Option.ne_none_iff_exists'.mp hlinked
  by_contra hne
  have hclosed := h.closed link hlink (by rintro rfl; exact hne hlink)
  rw [hopen] at hclosed
  cases hclosed

/-- The view and the flags are as they were. -/
theorem Holding.of_view (h : Holding p) (hview : p'.view = p.view) (hended : p'.ended = p.ended)
    (hclosed : p'.linkClosed = p.linkClosed) (hlistening : p'.listening = p.listening)
    (hout : p.hears = true → p'.cards ≠ 0 → p.shown ≠ none → p.sent = false → p'.SendsCard)
    (hbye : p.hears = true → p.sent = true → p.received.isSome = true → p'.SendsBye)
    (hcrossed : p'.cards ≠ 0 → p.received.isSome = true →
      p.shown = some .done ∨ (p.shown = some .open ∧ p.linkClosed = false)) : Holding p' := by
  have hshown := shown_of_view hview
  have hreceived := received_of_view hview
  have hsent := sent_of_view hview
  have hhears := hears_eq hended hlistening
  constructor
  · rw [hclosed, hlistening]
    exact h.shut
  · rw [hshown, hclosed]
    exact h.closed
  · rw [hreceived, hclosed, hhears]
    exact h.hears
  · rw [hhears, hshown, hsent]
    exact hout
  · rw [hhears, hsent, hreceived]
    exact hbye
  · rw [hreceived, hshown, hclosed]
    exact hcrossed

/-- The phone hears nothing any more. -/
theorem Holding.of_deaf (hdeaf : p'.listening = false)
    (hclosed : ∀ link, p'.shown = some link → link ≠ .open → p'.linkClosed = true)
    (hreceived : p'.received.isSome = true → p'.linkClosed = true)
    (hcrossed : p'.cards ≠ 0 → p'.received.isSome = true →
      p'.shown = some .done ∨ (p'.shown = some .open ∧ p'.linkClosed = false)) : Holding p' := by
  have hnot := hears_of_deaf hdeaf
  constructor
  · exact fun _ => hdeaf
  · exact hclosed
  · intro hr hopen
    rw [hreceived hr] at hopen
    cases hopen
  · intro hh
    rw [hnot] at hh
    cases hh
  · intro hh
    rw [hnot] at hh
    cases hh
  · exact hcrossed

/-- A card is there, the other's has come or this one is out, and the link is open. -/
theorem Holding.not_breaks (h : Holding p) (hcond : p.Gentle e) (hbreaks : p.breaks e = true)
    (hcards : p.cards ≠ 0) (hreceived : p.received.isSome = true) : p.shown = some .done := by
  rcases h.crossed hcards hreceived with hdone | ⟨hopen, -⟩
  · exact hdone
  · have hcrossed : p.crossed = true := by simp [Phone.crossed, hreceived, hopen, hcards]
    rw [hcond.ended hcrossed] at hbreaks
    cases hbreaks

/-- Every effect of a gentle event keeps it. -/
theorem Holding.effect (h : Holding p) (hcond : p.Gentle e) (heffect : Effect p e p') :
    Holding p' := by
  cases heffect with
  | keep hsame hsends =>
    refine h.of_view hsame.view hsame.ended hsame.linkClosed hsame.listening ?_ ?_ ?_
    · rw [hsame.cards]
      exact fun hh hcards hshown hsent => hsends.card (h.out hh hcards hshown hsent)
    · exact fun hh hsent hreceived => hsends.bye (h.bye hh hsent hreceived)
    · rw [hsame.cards]
      exact h.crossed
  | deaf hsame hdeaf =>
    refine h.of_view hsame.view hsame.ended hsame.linkClosed hsame.listening ?_ ?_ ?_
    · intro hh _ hshown
      rcases hdeaf with hdeaf | hdeaf
      · rw [hdeaf] at hh
        cases hh
      · exact absurd hdeaf hshown
    · intro hh hsent _
      rcases hdeaf with hdeaf | hdeaf
      · rw [hdeaf] at hh
        cases hh
      · rw [(received_of_shown hdeaf).2] at hsent
        cases hsent
    · rw [hsame.cards]
      exact h.crossed
  | fail hfails hview hdeaf hcards =>
    have hshown : p'.shown = none := by simp [shown, hview]
    have hreceived := (received_of_shown hshown).1
    refine .of_deaf hdeaf ?_ ?_ ?_
    · simp [hshown]
    · simp [hreceived]
    · simp [hreceived]
  | close why hwhy hopen hview hclosed hdeaf hcards hne =>
    -- by the goodbye, or before both cards have crossed
    obtain ⟨hreceived, hlinked, -⟩ := received_showLink hview
    refine .of_deaf hdeaf (fun _ _ _ => hclosed) (fun _ => hclosed) ?_
    rw [hcards, hreceived]
    intro hc hr
    have hshown : p.shown ≠ none := by
      intro hnone
      rw [(received_of_shown hnone).1] at hr
      cases hr
    rcases hwhy with rfl | hbreaks
    · exact .inl (hlinked hshown)
    · have hdone := h.closed .done (h.not_breaks hcond hbreaks hc hr) (by decide)
      rw [hopen] at hdone
      cases hdone
  | hangUp hbreaks hview hclosed hdeaf hcards =>
    refine .of_deaf hdeaf (fun _ _ _ => hclosed) (fun _ => hclosed) ?_
    rw [hcards, received_of_view hview, shown_of_view hview]
    exact fun hc hr => .inl (h.not_breaks hcond hbreaks hc hr)
  | handshake hshakes hview hclosed hdeaf hcards =>
    -- no card is out yet, and none was received
    have hfirst : p'.cards = 0 := by
      by_contra hne
      rw [hcards] at hne
      rw [hcond.once (.inr hne)] at hshakes
      cases hshakes
    have hreceived : p'.received = none := by
      rcases hview with hview | hview <;> simp [received, hview]
    constructor
    · rw [hclosed, hdeaf]
      exact h.shut
    · rcases hview with hview | hview <;> simp [shown, hview]
    · simp [hreceived]
    · exact fun _ hne => absurd hfirst hne
    · simp [hreceived]
    · exact fun hne => absurd hfirst hne
  | receive c bye he hh hpast sent received link hview hview' hended hclosed hdeaf hcards hsends
      hbye =>
    have hopen := h.linkClosed_of_hears hh
    have hshown : p.shown = some link := by simp [shown, hview]
    have hshown' : p'.shown = some link := by simp [shown, hview']
    have hsent : p.sent = sent := by simp [Phone.sent, hview]
    have hsent' : p'.sent = sent := by simp [Phone.sent, hview']
    -- a phone that hears has its link open
    have hlink : p.shown = some .open := h.shown_open (by simp [hshown]) hopen
    have hhears := hears_eq hended hdeaf
    constructor
    · rw [hclosed, hdeaf]
      exact h.shut
    · rw [hshown', hclosed, ← hshown]
      exact h.closed
    · exact fun _ _ => hhears.trans hh
    · rw [hcards, hsent', hshown', ← hshown, ← hsent]
      exact fun _ hc hs hno => hsends.card (h.out hh hc hs hno)
    · rw [hsent']
      exact fun _ hs _ => hbye hs hopen
    · rw [hshown', ← hshown, hclosed]
      exact fun _ _ => .inr ⟨hlink, hopen⟩
  | out sent received link hview hview' hended hclosed hdeaf hcards hbye =>
    have hshown : p.shown = some link := by simp [shown, hview]
    have hshown' : p'.shown = some link := by simp [shown, hview']
    have hreceived : p.received = received := by simp [Phone.received, hview]
    have hreceived' : p'.received = received := by simp [Phone.received, hview']
    have hhears := hears_eq hended hdeaf
    constructor
    · rw [hclosed, hdeaf]
      exact h.shut
    · rw [hshown', hclosed, ← hshown]
      exact h.closed
    · rw [hreceived', ← hreceived, hclosed, hhears]
      exact h.hears
    · simp [Phone.sent, hview']
    · rw [hhears, hreceived']
      exact fun hh _ hr => hbye hr (h.linkClosed_of_hears hh)
    · rw [hcards, hreceived', ← hreceived, hshown', ← hshown, hclosed]
      exact h.crossed
  | seal_ hmay hview hended hclosed hdeaf hcards hsends hcard =>
    refine h.of_view hview hended hclosed hdeaf (fun _ _ _ _ => hcard) ?_ ?_
    · exact fun hh hsent hreceived => hsends.bye (h.bye hh hsent hreceived)
    · intro _ hreceived
      have hopen : p.linkClosed = false := (maySend_iff.mp hmay).2.2
      have hshown : p.shown ≠ none := by
        intro hnone
        rw [(received_of_shown hnone).1] at hreceived
        cases hreceived
      exact .inr ⟨h.shown_open hshown hopen, hopen⟩

theorem Holding.step (h : Holding p) (hcond : p.Gentle e) : Holding (p.step e) :=
  h.effect hcond (effect_step h.shut e)

end

/-! ### What is held stays -/

/-- The card that was there is there, and the closed link shows what it showed. -/
structure Keeps (p p' : Phone Card) : Prop where
  card : ∀ c, p.received = some c → p'.received = some c
  link : ∀ link, p.shown = some link → link ≠ .open → p'.shown = some link

/-- What the end of a link that is up is shown as. -/
def endsOn (p : Phone Card) : Event Card → Option LinkShown
  | .message .bye _ => if p.hears && p.state == .past then some .done else none
  | .message .leaving _ => if p.hears && p.state == .past then some .left else none
  | .drop => if p.hears then some .dropped else none
  | _ => none

section

variable {p p' p'' : Phone Card} {e : Event Card}

/-- Nothing is lost where nothing happens. -/
theorem Keeps.refl (p : Phone Card) : Keeps p p := ⟨fun _ h => h, fun _ h _ => h⟩

theorem Keeps.trans (h : Keeps p p') (h' : Keeps p' p'') : Keeps p p'' where
  card c hc := h'.card c (h.card c hc)
  link link hl hne := h'.link link (h.link link hl hne) hne

theorem Keeps.of_view (hview : p'.view = p.view) : Keeps p p' where
  card c hc := by rwa [received_of_view hview]
  link link hl _ := by rwa [shown_of_view hview]

/-- Where nothing is held, nothing is lost. -/
theorem Keeps.of_holds (h : p.holds = false) : Keeps p p' := by
  unfold holds at h
  simp only [Bool.or_eq_false_iff] at h
  obtain ⟨hreceived, hshown⟩ := h
  constructor
  · intro c hc
    rw [hc] at hreceived
    cases hreceived
  · intro link hl hne
    rw [hl] at hshown
    cases link with
    | «open» => exact absurd rfl hne
    | done => cases hshown
    | left => cases hshown
    | dropped => cases hshown

/-- A gentle event takes away no card, and no end of the link once shown. -/
theorem Holding.keeps (h : Holding p) (hcond : p.Gentle e) : Keeps p (p.step e) := by
  cases effect_step h.shut e with
  | keep hsame => exact .of_view hsame.view
  | deaf hsame => exact .of_view hsame.view
  | fail hfails =>
    -- only a phone that holds nothing may fail
    cases hholds : p.holds with
    | false => exact .of_holds hholds
    | true =>
      rw [hcond.held hholds] at hfails
      cases hfails
  | close why hwhy hopen hview =>
    obtain ⟨hreceived, -, -⟩ := received_showLink hview
    constructor
    · exact fun c hc => hreceived.trans hc
    · intro link hl hne
      rw [h.closed link hl hne] at hopen
      cases hopen
  | hangUp hbreaks hview => exact .of_view hview
  | handshake hshakes =>
    cases hholds : p.holds with
    | false => exact .of_holds hholds
    | true =>
      rw [hcond.once (.inl hholds)] at hshakes
      cases hshakes
  | receive c bye he hh hpast sent received link hview hview' =>
    subst he
    constructor
    · intro c' hc'
      have hsame : c' = c := hcond.same hh hpast c rfl c' hc'
      simp [Phone.received, hview', hsame]
    · intro link' hl _
      simpa [shown, hview, hview'] using hl
  | out sent received link hview hview' =>
    constructor
    · intro c' hc'
      simpa [Phone.received, hview, hview'] using hc'
    · intro link' hl _
      simpa [shown, hview, hview'] using hl
  | seal_ hmay hview => exact .of_view hview

/-- The goodbye, the leave or the radio's close: the link shows it. -/
theorem Holding.endsOn (h : Holding p) (hlinked : p.shown ≠ none) {why : LinkShown}
    (hwhy : p.endsOn e = some why) : (p.step e).shown = some why := by
  -- a link that is open closes with the end that comes
  have hclose (hh : p.hears = true) (why : LinkShown) : (p.closeLink why).shown = some why := by
    have hview : (p.closeLink why).view = showLink why p.view := by
      rcases p.closeLink_eq why with ⟨hclosed, -⟩ | ⟨-, heq⟩
      · rw [h.linkClosed_of_hears hh] at hclosed
        cases hclosed
      · rw [heq]
    exact (received_showLink hview).2.1 hlinked
  obtain ⟨sent, received, link, hview⟩ : ∃ sent received link,
      p.view = .linked sent received link := by
    by_contra hnot
    exact hlinked (shown_eq_none fun sent received link hv => hnot ⟨sent, received, link, hv⟩)
  unfold Phone.endsOn at hwhy
  split at hwhy
  · split at hwhy
    · rename_i hheard
      simp only [Bool.and_eq_true, beq_iff_eq] at hheard
      cases hwhy
      simpa [Phone.step, hheard, onMessage, onSealed, hview] using hclose hheard.1 .done
    · cases hwhy
  · split at hwhy
    · rename_i hheard
      simp only [Bool.and_eq_true, beq_iff_eq] at hheard
      cases hwhy
      simpa [Phone.step, hheard, onMessage, onSealed, hview] using hclose hheard.1 .left
    · cases hwhy
  · split at hwhy
    · rename_i hheard
      cases hwhy
      simpa [Phone.step, hheard, hview] using hclose hheard .dropped
    · cases hwhy
  · cases hwhy

/-- A card comes with its message, and its count with `send`. -/
theorem Holding.only (h : Holding p) (e : Event Card) :
    (p.cards ≠ 0 → (p.step e).cards ≠ 0) ∧
      ((p.step e).received.isSome = true → p.received.isSome = true ∨
        ∃ c bye, e = .message (.card c) bye) := by
  -- a card comes only from a message that brings one
  cases effect_step h.shut e with
  | keep hsame =>
    rw [hsame.cards, received_of_view hsame.view]
    exact ⟨id, .inl⟩
  | deaf hsame =>
    rw [hsame.cards, received_of_view hsame.view]
    exact ⟨id, .inl⟩
  | fail hfails hview hdeaf hcards =>
    rw [hcards]
    refine ⟨id, fun hr => ?_⟩
    simp [Phone.received, hview] at hr
  | close why hwhy hopen hview hclosed hdeaf hcards =>
    rw [hcards, (received_showLink hview).1]
    exact ⟨id, .inl⟩
  | hangUp hbreaks hview hclosed hdeaf hcards =>
    rw [hcards, received_of_view hview]
    exact ⟨id, .inl⟩
  | handshake hshakes hview hclosed hdeaf hcards =>
    rw [hcards]
    refine ⟨id, fun hr => ?_⟩
    rcases hview with hview | hview <;> simp [Phone.received, hview] at hr
  | receive c bye he hh hpast sent received link hview hview' hended hclosed hdeaf hcards =>
    rw [hcards]
    exact ⟨id, fun _ => .inr ⟨c, bye, he⟩⟩
  | out sent received link hview hview' hended hclosed hdeaf hcards =>
    rw [hcards]
    refine ⟨id, fun hr => .inl ?_⟩
    simpa [Phone.received, hview, hview'] using hr
  | seal_ hmay hview hended hclosed hdeaf hcards =>
    rw [received_of_view hview]
    exact ⟨fun _ => hcards, .inl⟩

/-- The link shows `done`, or what will end on it is still being sent. -/
def EndsOnDone (p : Phone Card) : Prop :=
  (p.shown = some .done ∨ p.shown = some .open ∧ (p.SendsCard ∨ p.SendsBye)) ∧
    (p.sendings = [] → p.shown = some .done)

/-- With both cards over, what is left to come is the goodbye. -/
theorem Holding.endsOnDone (h : Holding p) (hcards : p.cards ≠ 0)
    (hreceived : p.received.isSome = true) : p.EndsOnDone := by
  have hshown : p.shown = some .done ∨ p.shown = some .open ∧ (p.SendsCard ∨ p.SendsBye) := by
    refine (h.crossed hcards hreceived).imp_right ?_
    rintro ⟨hopen, hclosed⟩
    have hh := h.hears hreceived hclosed
    refine ⟨hopen, ?_⟩
    cases hsent : p.sent with
    | false => exact .inl (h.out hh hcards (by simp [hopen]) hsent)
    | true => exact .inr (h.bye hh hsent hreceived)
  -- with nothing being sent only `done` is left
  refine ⟨hshown, fun hquiet => hshown.resolve_right ?_⟩
  rintro ⟨-, ⟨s, hs, -⟩ | ⟨s, hs, -⟩⟩
  · rw [hquiet] at hs
    cases hs
  · rw [hquiet] at hs
    cases hs

/-- A phone that has just begun, to host or to join. -/
theorem inv_begun_holding (state : Step) (pending : List Pending) :
    Holding (⟨state, .before, false, false, false, true, false, pending, [], [], 0, 0⟩ :
      Phone Card) where
  shut := nofun
  closed _ h := by cases h
  hears h := by cases h
  out _ h := absurd rfl h
  bye _ h := by cases h
  crossed h := absurd rfl h

end

end Phone

/-! ### Two phones -/

/-- The two phones. -/
structure Pair (Card : Type) where
  left : Phone Card
  right : Phone Card

/-- What happens at one of the two. -/
inductive PairEvent (Card : Type)
  | left (e : Event Card)
  | right (e : Event Card)

/-- A card comes in only where the other phone has given one out. -/
def Phone.mayGet (other : Phone Card) : Event Card → Bool
  | .message (.card _) _ => other.cards != 0
  | _ => true

namespace Pair

/-- The one shows the invite, the other has scanned it. -/
def start : Pair Card := ⟨.host, .join⟩

/-- A card reaches one phone only when the other has sent one. -/
def step (w : Pair Card) : PairEvent Card → Pair Card
  | .left e => if w.right.mayGet e then { w with left := w.left.step e } else w
  | .right e => if w.left.mayGet e then { w with right := w.right.step e } else w

/-- Both from the start. -/
def run (history : List (PairEvent Card)) : Pair Card := history.foldl step start

/-- What happens at either phone is gentle there. -/
def Gentle (w : Pair Card) : PairEvent Card → Prop
  | .left e => w.right.mayGet e = true → w.left.Gentle e
  | .right e => w.left.mayGet e = true → w.right.Gentle e

instance [DecidableEq Card] (w : Pair Card) : ∀ e, Decidable (w.Gentle e)
  | .left e => inferInstanceAs (Decidable (w.right.mayGet e = true → w.left.Gentle e))
  | .right e => inferInstanceAs (Decidable (w.left.mayGet e = true → w.right.Gentle e))

/-- What holds of both in every gentle run. -/
structure Inv (w : Pair Card) : Prop where
  left : w.left.Holding
  right : w.right.Holding
  fromRight : w.left.received.isSome = true → w.right.cards ≠ 0
  fromLeft : w.right.received.isSome = true → w.left.cards ≠ 0

/-- Neither loses anything. -/
structure Keeps (w w' : Pair Card) : Prop where
  left : w.left.Keeps w'.left
  right : w.right.Keeps w'.right

variable {w w' w'' : Pair Card}

theorem Keeps.refl (w : Pair Card) : Keeps w w := ⟨.refl _, .refl _⟩

/-- By one event after another. -/
theorem Keeps.trans (h : Keeps w w') (h' : Keeps w' w'') : Keeps w w'' :=
  ⟨h.left.trans h'.left, h.right.trans h'.right⟩

/-- Two phones that have begun nothing. -/
theorem inv_start : Inv (start : Pair Card) where
  left := Phone.inv_begun_holding .open []
  right := Phone.inv_begun_holding .keys [.joining]
  fromRight h := by cases h
  fromLeft h := by cases h

/-- What one phone gets, the other has given out. -/
theorem given {p other : Phone Card} (h : p.Holding) {e : Event Card} (hget : other.mayGet e = true)
    (hgave : p.received.isSome = true → other.cards ≠ 0)
    (hr : (p.step e).received.isSome = true) : other.cards ≠ 0 := by
  rcases (h.only e).2 hr with hr | ⟨c, bye, rfl⟩
  · exact hgave hr
  · simpa [Phone.mayGet] using hget

/-- Every gentle event keeps it, and takes nothing away. -/
theorem Inv.step (h : Inv w) {e : PairEvent Card} (hcond : w.Gentle e) :
    Inv (w.step e) ∧ Keeps w (w.step e) := by
  cases e with
  | left e =>
    simp only [Pair.step]
    split
    · rename_i hget
      refine ⟨⟨h.left.step (hcond hget), h.right, ?_, fun hr => ?_⟩, h.left.keeps (hcond hget),
        .refl _⟩
      · exact given h.left hget h.fromRight
      · exact (h.left.only e).1 (h.fromLeft hr)
    · exact ⟨h, .refl w⟩
  | right e =>
    simp only [Pair.step]
    split
    · rename_i hget
      refine ⟨⟨h.left, h.right.step (hcond hget), fun hr => ?_, ?_⟩, .refl _,
        h.right.keeps (hcond hget)⟩
      · exact (h.right.only e).1 (h.fromRight hr)
      · exact given h.right hget h.fromLeft
    · exact ⟨h, .refl w⟩

/-- From one state of a run to a later one. -/
theorem Inv.run (h : Inv w) {more : List (PairEvent Card)}
    (hmore : AllAlong Pair.step Pair.Gentle w more) :
    Inv (more.foldl Pair.step w) ∧ Keeps w (more.foldl Pair.step w) := by
  let Later : Pair Card → Prop := fun w' => Inv w' ∧ Keeps w w'
  have hfirst : Later w := ⟨h, .refl w⟩
  have hnext (w' : Pair Card) (e : PairEvent Card) : Later w' → w'.Gentle e → Later (w'.step e) := by
    rintro ⟨hinv, hkeeps⟩ hcond
    obtain ⟨hinv', hstep⟩ := hinv.step hcond
    exact ⟨hinv', hkeeps.trans hstep⟩
  exact hmore.keeps hfirst hnext

end Pair

/-- In a run in which what happens at each phone is gentle: what a phone received stays in every
later view, and what a closed link shows; a goodbye, a leave or the radio's close is shown as that;
and where each has the other's card, both links show `done` when nothing is being sent. -/
theorem received_card_stays (history more : List (PairEvent Card))
    (hhistory : AllAlong Pair.step Pair.Gentle .start history)
    (hmore : AllAlong Pair.step Pair.Gentle (Pair.run history) more) :
    (Pair.run history).Keeps (Pair.run (history ++ more)) ∧
      (∀ e why, (Pair.run history).left.shown ≠ none →
        (Pair.run history).left.endsOn e = some why →
        ((Pair.run history).left.step e).shown = some why) ∧
      (∀ e why, (Pair.run history).right.shown ≠ none →
        (Pair.run history).right.endsOn e = some why →
        ((Pair.run history).right.step e).shown = some why) ∧
      ((Pair.run history).left.received.isSome = true →
        (Pair.run history).right.received.isSome = true →
        (Pair.run history).left.EndsOnDone ∧ (Pair.run history).right.EndsOnDone) := by
  obtain ⟨hinv, -⟩ := Pair.inv_start.run hhistory
  have hlater : Pair.run (history ++ more) = more.foldl Pair.step (Pair.run history) :=
    List.foldl_append
  rw [hlater]
  refine ⟨(hinv.run hmore).2, fun e why => ?_, fun e why => ?_, fun hleft hright => ⟨?_, ?_⟩⟩
  · exact fun hlinked hwhy => hinv.left.endsOn hlinked hwhy
  · exact fun hlinked hwhy => hinv.right.endsOn hlinked hwhy
  · exact hinv.left.endsOnDone (hinv.fromLeft hright) hleft
  · exact hinv.right.endsOnDone (hinv.fromRight hleft) hright

/-- The handshake of the two, each message of one fragment. -/
def handshakeBoth : List (PairEvent Unit) :=
  [.right (.stepped 0 0), .right (.acked 0 0),
    .left (.message (.shake 0) 0), .left (.acked 0 0),
    .right (.message (.shake 0) 0), .right (.acked 0 0),
    .left (.message (.shake 0) 0), .left .press, .left (.stepped 0 0), .left (.acked 0 0),
    .right (.message (.shake 0) 0), .right .press, .right (.stepped 0 0), .right (.acked 0 0),
    .left (.message (.shake 0) 0)]

/-- Both cards cross; the host's is acknowledged first, and its goodbye begins. -/
def cardsCross : List (PairEvent Unit) :=
  [.left (.send () 0), .right (.send () 0), .left (.message (.card ()) 0),
    .right (.message (.card ()) 0), .left (.acked 0 0)]

/-- The other acknowledgement, the goodbyes, and the radio's close. -/
def goodbyes : List (PairEvent Unit) :=
  [.right (.acked 0 0), .right (.message .bye 0), .left (.acked 0 0), .right (.refused 0),
    .left .drop, .right .drop]

/-- Two phones that shake hands, exchange their cards and say goodbye. -/
theorem received_card_stays_once :
    (Pair.run (handshakeBoth ++ cardsCross)).Keeps
        (Pair.run ((handshakeBoth ++ cardsCross) ++ goodbyes)) ∧
      (∀ e why, (Pair.run (handshakeBoth ++ cardsCross)).left.shown ≠ none →
        (Pair.run (handshakeBoth ++ cardsCross)).left.endsOn e = some why →
        ((Pair.run (handshakeBoth ++ cardsCross)).left.step e).shown = some why) ∧
      (∀ e why, (Pair.run (handshakeBoth ++ cardsCross)).right.shown ≠ none →
        (Pair.run (handshakeBoth ++ cardsCross)).right.endsOn e = some why →
        ((Pair.run (handshakeBoth ++ cardsCross)).right.step e).shown = some why) ∧
      ((Pair.run (handshakeBoth ++ cardsCross)).left.received.isSome = true →
        (Pair.run (handshakeBoth ++ cardsCross)).right.received.isSome = true →
        (Pair.run (handshakeBoth ++ cardsCross)).left.EndsOnDone ∧
          (Pair.run (handshakeBoth ++ cardsCross)).right.EndsOnDone) :=
  received_card_stays (handshakeBoth ++ cardsCross) goodbyes (by decide +kernel)
    (by decide +kernel)

/-- The goodbye comes before the acknowledgement: the link closes, and what was still being sent
fails. -/
theorem goodbye_takes_the_card :
    ¬ ∀ (history more : List (PairEvent Unit)) (c : Unit),
      (Pair.run history).right.received = some c →
        (Pair.run (history ++ more)).right.received = some c := by
  intro h
  have hlost : (Pair.run ((handshakeBoth ++ cardsCross) ++
      [.right (.message .bye 0), .right (.refused 0)])).right.received = none := rfl
  have hkept := h (handshakeBoth ++ cardsCross) [.right (.message .bye 0), .right (.refused 0)] ()
    rfl
  rw [hlost] at hkept
  cases hkept

end OkRn.Swap
