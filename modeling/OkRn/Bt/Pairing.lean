/-
OkRn/Bt/Pairing.lean

No pairing without the person.

A record is added by a CONFIRM alone, and behind every CONFIRM that was taken
stand, in the same window and from the same address, a COMMIT, the REVEAL whose
code was shown, and the person's approval of that code; each of them came while
the window was open.  `no_pairing_without_the_person` puts this together with
what a message outside the window can do.
-/
import OkRn.Bt.Gate
import OkRn.Lib.Along

namespace OkRn.Bt

variable {σ π ρ : Type} {L : BtLib σ π ρ}

/-! ### What stands behind a pairing -/

/-- The window opens anew, or nothing more comes of it. -/
def Step.Turns : Step π → Prop
  | .opened _ | .closed | .failed | .paired => True
  | _ => False

/-- Steps of one window. -/
def SameWindow (l : List (Step π)) : Prop := ∀ s ∈ l, ¬ s.Turns

/-- The present window is the one that was opened until `u`. -/
def OpenedIn (u : Nat) (l : List (Step π)) : Prop :=
  ∃ between before, l = between ++ .opened u :: before ∧ SameWindow between

/-- The pairing state `p` is what the COMMIT of `a`, and its REVEALs since, came to; the last
REVEAL gave this code. -/
inductive Reached (u : Nat) (a : String) : π → Option String → List (Step π) → Prop
  | committed {p : π} {t : Nat} (between before : List (Step π)) (ht : t < u)
      (hw : SameWindow between) (ho : OpenedIn u before) :
      Reached u a p none (between ++ .committed a p t :: before)
  | revealed {p p' : π} {code : String} {c : Option String} {t : Nat}
      (between before : List (Step π)) (ht : t < u) (hw : SameWindow between)
      (hr : Reached u a p c before) :
      Reached u a p' (some code) (between ++ .revealed a p p' code t :: before)

/-- The person approved the code that the exchange with `a` had come to, for this record. -/
def ApprovedIn (u : Nat) (a : String) (r : PairRecord) (l : List (Step π)) : Prop :=
  ∃ p code t between before, l = between ++ .approved p code r t :: before ∧ t < u ∧
    SameWindow between ∧ Reached u a p (some code) before

/-- Behind every CONFIRM that was taken. -/
def Approved (l : List (Step π)) : Prop :=
  ∀ after a r t before, l = after ++ .confirmed a r t :: before → ∃ u, t < u ∧ ApprovedIn u a r before

variable {u : Nat} {a : String} {s : Step π} {l : List (Step π)}

/-- Before the first step there is no other window. -/
theorem sameWindow_nil : SameWindow ([] : List (Step π)) := fun _ hs => by cases hs

/-- A step that opens no window is in the same one. -/
theorem SameWindow.cons (h : SameWindow l) (hs : ¬ s.Turns) : SameWindow (s :: l) := by
  rintro x (- | ⟨-, hx⟩)
  · exact hs
  · exact h x hx

/-- The window that was opened is still the last one. -/
theorem OpenedIn.cons (h : OpenedIn u l) (hs : ¬ s.Turns) : OpenedIn u (s :: l) := by
  obtain ⟨between, before, rfl, hw⟩ := h
  exact ⟨s :: between, before, rfl, hw.cons hs⟩

/-- What a pairing has reached in this window it keeps. -/
theorem Reached.cons {p : π} {c : Option String} (h : Reached u a p c l) (hs : ¬ s.Turns) :
    Reached u a p c (s :: l) := by
  cases h with
  | committed between before ht hw ho => exact .committed (s :: between) before ht (hw.cons hs) ho
  | revealed between before ht hw hr => exact .revealed (s :: between) before ht (hw.cons hs) hr

/-- An approval in this window stays one. -/
theorem ApprovedIn.cons {r : PairRecord} (h : ApprovedIn u a r l) (hs : ¬ s.Turns) :
    ApprovedIn u a r (s :: l) := by
  obtain ⟨p, code, t, between, before, rfl, ht, hw, hr⟩ := h
  exact ⟨p, code, t, s :: between, before, rfl, ht, hw.cons hs, hr⟩

/-- A step is approved when, if it is a pairing taken, it was approved in its window. -/
theorem Approved.cons (h : Approved l)
    (hs : ∀ a r t, s = .confirmed a r t → ∃ u, t < u ∧ ApprovedIn u a r l) : Approved (s :: l) := by
  intro after a r t before heq
  cases after with
  | nil =>
    cases heq
    exact hs a r t rfl
  | cons x xs =>
    cases heq
    exact h xs a r t before rfl

/-! ### The window -/

/-- The code on show. -/
def View.shown : View → Option String
  | .code _ c _ _ => some c
  | _ => none

/-- A pairing is under way. -/
def View.alive : View → Bool
  | .closed | .paired _ _ | .failed _ => false
  | _ => true

namespace Gate

variable {g g' g'' : Gate σ π ρ}

/-- The window is open while it is shown and its time has not come. -/
theorem pairWindowOpen_iff {now : Nat} :
    g.pairWindowOpen now = true ↔ g.pair.view.alive = true ∧ now < g.pair.until_ := by
  rcases hview : g.pair.view <;> simp [pairWindowOpen, View.alive, hview]

/-- What the pairing under way rests on. -/
structure Paired (g : Gate σ π ρ) : Prop where
  window : g.pair.view.alive = true → OpenedIn g.pair.until_ g.steps
  lib : ∀ p, g.pair.view.alive = true → g.pair.lib = some p → ∃ a, g.pair.address = some a ∧
    Reached g.pair.until_ a p g.pair.view.shown g.steps
  pending : ∀ r, g.pair.view.alive = true → g.pair.pending = some r →
    ∃ a, g.pair.address = some a ∧ ApprovedIn g.pair.until_ a r g.steps
  approved : Approved g.steps

theorem paired_started (store : Store) : Paired (started store : Gate σ π ρ) where
  window h := by cases h
  lib _ h := by cases h
  pending _ h := by cases h
  approved after _ _ _ _ h := by cases after <;> cases h

/-- Once nothing more comes of the window, only what was confirmed matters. -/
theorem paired_dead (hview : g.pair.view.alive = false) (h : Approved g.steps) : g.Paired where
  window halive := absurd (hview.symm.trans halive) (by decide)
  lib _ halive := absurd (hview.symm.trans halive) (by decide)
  pending _ halive := absurd (hview.symm.trans halive) (by decide)
  approved := h

/-- The pairing is as it was, and no record is new. -/
structure Quiet (g g' : Gate σ π ρ) : Prop where
  pair : g'.pair = g.pair
  steps : g'.steps = g.steps
  records : ∀ r' ∈ g'.records, ∃ r ∈ g.records, r.id = r'.id

/-- A step that touches neither the pairing nor the records is quiet. -/
theorem Quiet.of_eq (hpair : g'.pair = g.pair) (hsteps : g'.steps = g.steps)
    (hrec : g'.records = g.records) : Quiet g g' :=
  ⟨hpair, hsteps, fun r hr => ⟨r, hrec ▸ hr, rfl⟩⟩

theorem Quiet.refl (g : Gate σ π ρ) : Quiet g g := .of_eq rfl rfl rfl

theorem Quiet.trans (h : Quiet g g') (h' : Quiet g' g'') : Quiet g g'' where
  pair := h'.pair.trans h.pair
  steps := h'.steps.trans h.steps
  records r'' hr'' := by
    obtain ⟨r', hr', hid'⟩ := h'.records r'' hr''
    obtain ⟨r, hr, hid⟩ := h.records r' hr'
    exact ⟨r, hr, hid.trans hid'⟩

/-- A quiet step keeps what stands behind the pairings. -/
theorem Paired.quiet (h : g.Paired) (hq : Quiet g g') : g'.Paired where
  window := by rw [hq.pair, hq.steps]; exact h.window
  lib := by rw [hq.pair, hq.steps]; exact h.lib
  pending := by rw [hq.pair, hq.steps]; exact h.pending
  approved := by rw [hq.steps]; exact h.approved

/-! ### What leaves the pairing alone -/

theorem quiet_revoke (id : String) (g : Gate σ π ρ) : Quiet g (g.revoke id) :=
  ⟨rfl, rfl, fun r hr => ⟨r, (List.mem_filter.mp hr).1, rfl⟩⟩

/-- The records are changed, each with its id. -/
theorem quiet_records {f : PairRecord → PairRecord} (hf : ∀ r ∈ g.records, ∃ x ∈ g.records, x.id = (f r).id) :
    Quiet g { g with records := g.records.map f } where
  pair := rfl
  steps := rfl
  records r' hr' := by
    obtain ⟨r, hr, rfl⟩ := List.mem_map.mp hr'
    exact hf r hr

/-- A record is switched on or off. -/
theorem quiet_setOn (id : String) (on : Bool) (g : Gate σ π ρ) : Quiet g (g.setOn id on) := by
  have hrec : Quiet g { g with
      records := g.records.map fun r => if r.id = id then { r with on := on } else r } := by
    refine quiet_records fun r hr => ⟨r, hr, ?_⟩
    split <;> rfl
  unfold setOn
  cases on with
  | true => exact hrec
  | false => exact hrec.trans (.of_eq rfl rfl rfl)

theorem quiet_onHello (msg : Msg) (now : Nat) (address : String) (g : Gate σ π ρ) :
    Quiet g (g.onHello L msg now address) := by
  unfold onHello
  split
  · exact .refl g
  · exact quiet_revoke _ g
  · exact quiet_revoke _ g
  · exact quiet_revoke _ g
  · rename_i s r m _
    have hrec : Quiet g { g with records := g.records.map fun x => if x.id = r.id then r else x } := by
      refine quiet_records fun x hx => ⟨x, hx, ?_⟩
      split
      · assumption
      · rfl
    exact hrec.trans (.of_eq rfl rfl rfl)

theorem quiet_openSession (now : Nat) (h : Hello σ) (g : Gate σ π ρ) :
    Quiet g (g.openSession L now h) := by
  unfold openSession
  dsimp only
  split
  · unfold offerRenewal
    split
    · exact .of_eq rfl rfl rfl
    · exact .of_eq rfl rfl rfl
  · exact .of_eq rfl rfl rfl

/-- A control message changes its session's record. -/
theorem quiet_finishControl (hL : L.Lawful) (now : Nat) (x : Session σ) (payload : Msg)
    (g : Gate σ π ρ) : Quiet g (g.finishControl L now x payload) := by
  unfold finishControl
  split
  · rename_i r offer hr _
    dsimp only
    split
    · rename_i r' hfinish
      refine ⟨rfl, rfl, fun y' hy' => ?_⟩
      obtain ⟨y, hy, rfl⟩ := List.mem_map.mp hy'
      refine ⟨y, hy, ?_⟩
      split
      · rename_i hid
        exact hid.trans (hL.renew hfinish).1.symm
      · rfl
    · exact .of_eq rfl rfl rfl
  · exact .refl g

/-- A sealed frame makes no record. -/
theorem quiet_onSealed (address : String) (bytes : Msg) (now : Nat) (g : Gate σ π ρ) :
    Quiet g (g.onSealed L address bytes now).1 := by
  have hcontrol : ∀ (x : Session σ) (payload : Msg) (m : Gate σ π ρ), Quiet g m →
      Quiet g (m.onControl address x payload) := by
    intro x payload m hm
    unfold onControl
    split
    · exact hm.trans (.of_eq rfl rfl rfl)
    · split
      · exact hm.trans (.of_eq rfl rfl rfl)
      · exact hm
  unfold onSealed
  split
  · exact .of_eq rfl rfl rfl
  · dsimp only
    split
    · exact .of_eq rfl rfl rfl
    · split
      · exact .of_eq rfl rfl rfl
      · split
        · split <;> exact .of_eq rfl rfl rfl
        · split
          · exact hcontrol _ _ _ (.of_eq rfl rfl rfl)
          · exact .of_eq rfl rfl rfl

theorem quiet_outgoing (address : String) (report : Msg) (now : Nat) (g : Gate σ π ρ) :
    Quiet g (g.outgoing L address report now).1 := by
  unfold outgoing
  split
  · exact .refl g
  · exact .of_eq rfl rfl rfl

/-! ### The pairing messages -/

/-- A commit begins a pairing in the window that is open. -/
theorem paired_onCommit (h : g.Paired) {msg : Msg} {now : Nat} {address : String}
    (hopen : g.pairWindowOpen now = true) : (g.onCommit L msg now address).Paired := by
  obtain ⟨halive, hnow⟩ := pairWindowOpen_iff.mp hopen
  unfold onCommit
  split
  · exact h
  · rename_i hsame
    have haddr : ∀ b, g.pair.address = some b → b = address := by
      intro b hb
      by_contra hne
      exact hsame ⟨by rw [hb]; rfl, fun heq => hne (by rw [hb] at heq; cases heq; rfl)⟩
    split
    · exact h
    · rename_i p answer _
      have hquiet : ¬ (Step.committed address p now).Turns := fun hf => hf
      refine ⟨fun _ => (h.window halive).cons hquiet, fun q _ hq => ?_, fun r _ hr => ?_, ?_⟩
      · cases hq
        exact ⟨address, rfl, .committed [] g.steps hnow sameWindow_nil (h.window halive)⟩
      · obtain ⟨b, hb, hr⟩ := h.pending r halive hr
        exact ⟨address, rfl, (haddr b hb ▸ hr).cons hquiet⟩
      · exact h.approved.cons fun _ _ _ heq => by cases heq

theorem paired_onReveal (h : g.Paired) {p : π} {msg : Msg} {now : Nat} {address : String}
    (hopen : g.pairWindowOpen now = true) (haddr : g.pair.address = some address)
    (hp : g.pair.lib = some p) : (g.onReveal L p msg now address).Paired := by
  obtain ⟨halive, hnow⟩ := pairWindowOpen_iff.mp hopen
  unfold onReveal
  split
  · exact paired_dead rfl (h.approved.cons fun _ _ _ heq => by cases heq)
  · rename_i p' code _
    have hquiet : ¬ (Step.revealed address p p' code now).Turns := fun hf => hf
    refine ⟨fun _ => (h.window halive).cons hquiet, fun q _ hq => ?_, fun r _ hr => ?_, ?_⟩
    · cases hq
      obtain ⟨b, hb, hreached⟩ := h.lib p halive hp
      rw [haddr] at hb
      cases hb
      exact ⟨address, haddr, .revealed [] g.steps hnow sameWindow_nil hreached⟩
    · obtain ⟨b, hb, hr⟩ := h.pending r halive hr
      exact ⟨b, hb, hr.cons hquiet⟩
    · exact h.approved.cons fun _ _ _ heq => by cases heq

/-- A record is taken at the confirm, after the person's approval. -/
theorem paired_onConfirm (h : g.Paired) {r : PairRecord} {msg : Msg} {now : Nat}
    {address : String} (hopen : g.pairWindowOpen now = true)
    (haddr : g.pair.address = some address) (hr : g.pair.pending = some r) :
    (g.onConfirm L r msg now address).Paired := by
  obtain ⟨halive, hnow⟩ := pairWindowOpen_iff.mp hopen
  unfold onConfirm
  split
  · have hquiet : ¬ (Step.confirmed (π := π) address r now).Turns := fun hf => hf
    refine ⟨fun _ => (h.window halive).cons hquiet, fun q _ hq => ?_, fun x _ hx => ?_, ?_⟩
    · obtain ⟨b, hb, hreached⟩ := h.lib q halive hq
      exact ⟨b, hb, hreached.cons hquiet⟩
    · obtain ⟨b, hb, hx⟩ := h.pending x halive hx
      exact ⟨b, hb, hx.cons hquiet⟩
    · refine h.approved.cons fun b x t heq => ?_
      cases heq
      obtain ⟨b, hb, happ⟩ := h.pending r halive hr
      rw [haddr] at hb
      cases hb
      exact ⟨g.pair.until_, hnow, happ⟩
  · exact h

/-- A message of a pairing, whichever it is. -/
theorem paired_onPairMessage (h : g.Paired) (msg : Msg) (now : Nat) (address : String) :
    (g.onPairMessage L msg now address).Paired := by
  unfold onPairMessage
  split
  · exact h.quiet (quiet_onHello msg now address g)
  · split
    · exact h
    · rename_i hopen
      rw [Bool.not_eq_false] at hopen
      split
      · exact paired_onCommit h hopen
      · split
        · exact h
        · rename_i haddr
          rw [not_not] at haddr
          split
          · rename_i hp
            exact paired_onReveal h hopen haddr hp
          · rename_i hr
            exact paired_onConfirm h hopen haddr hr
          · exact h

/-- The person's approval is of the code that is shown. -/
theorem paired_approvePairing (h : g.Paired) (now : Nat) : (g.approvePairing L now).Paired := by
  unfold approvePairing
  split
  · rename_i u code name b p hopen hview hp
    obtain ⟨halive, hnow⟩ := pairWindowOpen_iff.mp hopen
    have hquiet : ¬ (Step.approved p code (L.phonePairApprove p now g.pair.address).1 now).Turns :=
      fun hf => hf
    refine ⟨fun _ => (h.window halive).cons hquiet, fun _ _ hq => (by cases hq),
      fun r _ hr => ?_, h.approved.cons fun _ _ _ heq => (by cases heq)⟩
    cases hr
    obtain ⟨a, ha, hreached⟩ := h.lib p halive hp
    rw [hview] at hreached
    exact ⟨a, ha, p, code, now, [], g.steps, rfl, hnow, sameWindow_nil, hreached⟩
  · exact h

/-- Every event keeps what stands behind the pairings. -/
theorem Paired.step (hL : L.Lawful) (h : g.Paired) (e : Event) : (g.step L e).Paired := by
  suffices hact : (g.act L e).Paired from hact.quiet (.of_eq rfl rfl rfl)
  -- a turn that confirms nothing needs no approval
  have hturn : ∀ s : Step π, (∀ a r t, s ≠ .confirmed a r t) → Approved (s :: g.steps) :=
    fun s hs => h.approved.cons fun a r t heq => absurd heq (hs a r t)
  cases e with
  | pairMessage msg address now => exact paired_onPairMessage h msg now address
  | saved i now =>
    simp only [act]
    split
    · have hrest : Quiet g { g with hellos := g.hellos.eraseIdx i } := .of_eq rfl rfl rfl
      exact h.quiet (hrest.trans (quiet_openSession now _ _))
    · exact h
  | unsaved i => exact h.quiet (.of_eq rfl rfl rfl)
  | confirmSaved i =>
    simp only [act]
    split
    · exact paired_dead rfl (hturn .paired nofun)
    · exact h
  | confirmUnsaved i => exact h.quiet (.of_eq rfl rfl rfl)
  | sealed bytes address now => exact h.quiet (quiet_onSealed address bytes now g)
  | control i now =>
    simp only [act]
    split
    · have hrest : Quiet g { g with controls := g.controls.eraseIdx i } := .of_eq rfl rfl rfl
      exact h.quiet (hrest.trans (quiet_finishControl hL now _ _ _))
    · exact h
  | outgoing report address now => exact h.quiet (quiet_outgoing address report now g)
  | setOn id on => exact h.quiet (quiet_setOn id on g)
  | revoke id => exact h.quiet (quiet_revoke id g)
  | endSessions => exact h.quiet (.of_eq rfl rfl rfl)
  | linkGone quietMs now => exact h.quiet (.of_eq rfl rfl rfl)
  | ageForTest id ms =>
    refine h.quiet (quiet_records fun r hr => ⟨r, hr, ?_⟩)
    split <;> rfl
  | openPairWindow now window =>
    exact ⟨fun _ => ⟨[], g.steps, rfl, sameWindow_nil⟩, fun _ _ hq => (by cases hq),
      fun _ _ hr => (by cases hr), hturn _ nofun⟩
  | closePairWindow =>
    exact paired_dead rfl (hturn .closed nofun)
  | approvePairing now => exact paired_approvePairing h now

/-! ### Messages and records -/

/-- A pairing message that comes while no window is open does nothing, unless it is a hello of a
record of the store. -/
theorem message_outside (hL : L.Lawful) {msg : Msg} {now : Nat} {address : String}
    (hclosed : g.pairWindowOpen now = false) :
    g.onPairMessage L msg now address = g ∨ L.msgType msg = .hello ∧ ∃ x ∈ g.records,
      (L.phoneOnHello g.records msg now address).names = some x.id := by
  unfold onPairMessage
  split
  · rename_i hhello
    rcases hnames : (L.phoneOnHello g.records msg now address).names with - | id
    · left
      unfold onHello
      split
      · rfl
      all_goals
        rename_i hres
        rw [hres] at hnames
        cases hnames
    · obtain ⟨x, hx, rfl⟩ := hL.known hnames
      exact Or.inr ⟨hhello, x, hx, rfl⟩
  · exact Or.inl rfl

/-- The message confirms the pairing that the person approved. -/
def Confirms (L : BtLib σ π ρ) (g : Gate σ π ρ) (e : Event) : Prop :=
  ∃ msg a t r, e = .pairMessage msg a t ∧ L.msgType msg = .confirm ∧
    g.pairWindowOpen t = true ∧ g.pair.pending = some r ∧ L.phonePairOnConfirm r msg = true ∧
    (∀ r' ∈ (g.step L e).records, r' = r ∨ r' ∈ g.records) ∧
    (g.step L e).steps = .confirmed a r t :: g.steps

/-- A commit changes no record. -/
theorem records_onCommit (L : BtLib σ π ρ) (msg : Msg) (now : Nat) (address : String)
    (g : Gate σ π ρ) : (g.onCommit L msg now address).records = g.records := by
  unfold onCommit
  split
  · rfl
  · split <;> rfl

theorem records_onReveal (L : BtLib σ π ρ) (p : π) (msg : Msg) (now : Nat) (address : String)
    (g : Gate σ π ρ) : (g.onReveal L p msg now address).records = g.records := by
  unfold onReveal
  split <;> rfl

/-- A record that is new was confirmed. -/
theorem records_step (hL : L.Lawful) (g : Gate σ π ρ) (e : Event) :
    (∀ r' ∈ (g.step L e).records, ∃ r ∈ g.records, r.id = r'.id) ∨ g.Confirms L e := by
  -- a step that leaves the records alone
  have hsame : ∀ g' : Gate σ π ρ, g'.records = g.records → ∀ r' ∈ g'.records, ∃ r ∈ g.records, r.id = r'.id :=
    fun g' hrec r' hr' => ⟨r', hrec ▸ hr', rfl⟩
  cases e with
  | pairMessage msg address now =>
    change (∀ r' ∈ (g.onPairMessage L msg now address).records, _) ∨ _
    unfold onPairMessage
    split
    · exact Or.inl (quiet_onHello msg now address g).records
    · split
      · exact Or.inl (hsame g rfl)
      · rename_i hhello hopen
        rw [Bool.not_eq_false] at hopen
        split
        · exact Or.inl (hsame _ (records_onCommit L msg now address g))
        · split
          · exact Or.inl (hsame g rfl)
          · rename_i hcommit haddr
            split
            · exact Or.inl (hsame _ (records_onReveal L _ msg now address g))
            · rename_i r htype hr
              by_cases hok : L.phonePairOnConfirm r msg = true
              · right
                have hstep : g.act L (.pairMessage msg address now) =
                    g.onConfirm L r msg now address := by
                  simp [act, onPairMessage, hopen, haddr, htype, hr]
                refine ⟨msg, address, now, r, rfl, htype, hopen, hr, hok, fun r' hr' => ?_, ?_⟩
                · change r' ∈ (g.act L (.pairMessage msg address now)).records at hr'
                  rw [hstep, onConfirm, if_pos hok] at hr'
                  rcases List.mem_append.mp hr' with hr' | hr'
                  · exact Or.inr (List.mem_filter.mp hr').1
                  · exact Or.inl (List.mem_singleton.mp hr')
                · change (g.act L (.pairMessage msg address now)).steps = _
                  rw [hstep, onConfirm, if_pos hok]
                  rfl
              · left
                apply hsame
                rw [onConfirm, if_neg hok]
            · exact Or.inl (hsame g rfl)
  | saved i now =>
    left
    simp only [step, act]
    split
    · exact (quiet_openSession now _ { g with hellos := g.hellos.eraseIdx i }).records
    · exact hsame g rfl
  | unsaved i => exact Or.inl (hsame _ rfl)
  | confirmSaved i =>
    left
    simp only [step, act]
    split <;> exact hsame _ rfl
  | confirmUnsaved i => exact Or.inl (hsame _ rfl)
  | sealed bytes address now => exact Or.inl (quiet_onSealed address bytes now g).records
  | control i now =>
    left
    simp only [step, act]
    split
    · exact (quiet_finishControl hL now _ _ { g with controls := g.controls.eraseIdx i }).records
    · exact hsame g rfl
  | outgoing report address now => exact Or.inl (quiet_outgoing address report now g).records
  | setOn id on => exact Or.inl (quiet_setOn id on g).records
  | revoke id => exact Or.inl (quiet_revoke id g).records
  | endSessions => exact Or.inl (hsame _ rfl)
  | linkGone quietMs now => exact Or.inl (hsame _ rfl)
  | ageForTest id ms =>
    left
    refine (quiet_records (g := g) fun r hr => ⟨r, hr, ?_⟩).records
    split <;> rfl
  | openPairWindow now window => exact Or.inl (hsame _ rfl)
  | closePairWindow => exact Or.inl (hsame _ rfl)
  | approvePairing now =>
    left
    apply hsame
    simp only [step, act]
    unfold approvePairing
    split <;> rfl

/-- Along every run: a record is new only when a CONFIRM verifies against the record that an
approval has left pending; behind it stand the approval of the shown code and the REVEAL and COMMIT
of the same address, all in one window while it was open; a window that is closed or opened anew
leaves nothing pending; and a pairing message that comes while no window is open, or after the
pairing failed, changes nothing and gets no answer, unless it is a hello of a known record. -/
theorem no_pairing_without_the_person (hL : L.Lawful) (store : Store) (events : List Event) :
    let g := events.foldl (step L) (started store)
    (∀ e, (∀ r' ∈ (g.step L e).records, ∃ r ∈ g.records, r.id = r'.id) ∨ g.Confirms L e) ∧
      Approved g.steps ∧
      (g.step L .closePairWindow).pair.pending = none ∧
      (∀ now window, (g.step L (.openPairWindow now window)).pair.pending = none) ∧
      ∀ msg now address, g.pairWindowOpen now = false ∨ g.pair.view.alive = false →
        g.onPairMessage L msg now address = g ∨ L.msgType msg = .hello ∧ ∃ x ∈ g.records,
          (L.phoneOnHello g.records msg now address).names = some x.id := by
  have hpaired : (events.foldl (step L) (started store)).Paired :=
    inv_along (paired_started store) (fun _ e h => h.step hL e) events
  refine ⟨fun e => records_step hL _ e, hpaired.approved, rfl, fun _ _ => rfl, ?_⟩
  intro msg now address hclosed
  refine message_outside hL (hclosed.elim id fun hdead => ?_)
  rw [← Bool.not_eq_true, pairWindowOpen_iff, hdead]
  exact fun h => absurd h.1 (by decide)

/-- A computer is paired. -/
def pairedRun : List Event :=
  [.openPairWindow 0 120, .pairMessage [2] "c0" 1, .pairMessage [3, 0] "c0" 2, .approvePairing 3,
    .pairMessage [4, 0] "c0" 4]

theorem no_pairing_without_the_person_paired :
    let g := pairedRun.foldl (step Demo.btLib) (started ⟨[], List.nodup_nil⟩)
    (∀ e, (∀ r' ∈ (g.step Demo.btLib e).records, ∃ r ∈ g.records, r.id = r'.id) ∨
      g.Confirms Demo.btLib e) ∧
      Approved g.steps ∧
      (g.step Demo.btLib .closePairWindow).pair.pending = none ∧
      (∀ now window, (g.step Demo.btLib (.openPairWindow now window)).pair.pending = none) ∧
      ∀ msg now address, g.pairWindowOpen now = false ∨ g.pair.view.alive = false →
        g.onPairMessage Demo.btLib msg now address = g ∨ Demo.btLib.msgType msg = .hello ∧
          ∃ x ∈ g.records,
            (Demo.btLib.phoneOnHello g.records msg now address).names = some x.id :=
  no_pairing_without_the_person Demo.btLib_lawful _ pairedRun

/-- After the approval the computer commits again, and reveals something else: the window failed,
and the approved record is still pending. -/
theorem failed_window_keeps_pending :
    ¬ ∀ (L : BtLib Unit Unit Unit), L.Lawful → ∀ (store : Store) (events : List Event) (reason : String),
      (events.foldl (step L) (started store)).pair.view = .failed reason →
      (events.foldl (step L) (started store)).pair.pending = none := by
  intro h
  have hnone := h Demo.btLib Demo.btLib_lawful Demo.store
    [.openPairWindow 0 120, .pairMessage [2] "c0" 1, .pairMessage [3, 0] "c0" 2, .approvePairing 3,
      .pairMessage [2] "c0" 4, .pairMessage [3] "c0" 5] _ rfl
  cases hnone

end Gate

end OkRn.Bt
