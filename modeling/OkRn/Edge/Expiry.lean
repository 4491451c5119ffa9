/-
OkRn/Edge/Expiry.lean

Expired budgets: no reading past its lifetime finds a budget alive, up to the
wrap of the clock.

Every budget in a place was opened by a press the history holds, with the time
of that press (`Reachable.backed`): no request but the press writes the terms of
a budget.  Whether it is alive is then a matter of the time since that press,
modulo 2^32 ms (`alive_iff`).  Nothing records that a budget has expired, so once
the counter has wrapped it is alive again (`expired_budget_returns`).

* `OpenedBy` is a budget with the terms and the time of a press, and `Backed` a key
  whose budgets all have theirs in the log;
* `Gone` says of a place that no request of the plugin can tell it from an empty one.

Main results: `expired_stays_gone`, exact for every reading of the clock, and
`expired_budget_returns` past the counter's wrap.
-/
import OkRn.Edge.Demo

namespace OkRn.Edge

variable {E : Env} {P : Label → Prop} {k m k' : Key} {l : Label} {i : Fin 4} {t : Clock}

/-! ### The press that opened a budget -/

/-- What the press fixed: all of a budget but its uses so far and its hold. -/
def Budget.terms (b : Budget) : Budget :=
  { b with onHold := false, used := 0, scopes := fun j => { b.scopes j with used := 0 } }

/-- The press at `t₀` opened this budget. -/
structure OpenedBy (p : Press) (t₀ : Nat) (b : Budget) : Prop where
  terms : b.terms = p.b.terms
  opened : b.opened = UInt32.ofNat t₀

/-- Every budget was opened by a press of the history. -/
def Backed (k : Key) : Prop :=
  ∀ i, (k.budgets i).id ≠ 0 → ∃ p t₀, .opened p t₀ ∈ k.log ∧ OpenedBy p t₀ (k.budgets i)

/-- A use changes no term of its budget. -/
theorem charge_terms (b : Budget) (j : Fin 4) : (b.charge j).terms = b.terms := by
  have hscopes : (fun n => { Function.update b.scopes j
        { b.scopes j with used := (b.scopes j).used + 1 } n with used := 0 }) =
      fun n => { b.scopes n with used := 0 } := by
    funext n
    by_cases hn : n = j
    · subst hn
      rw [Function.update_self]
    · rw [Function.update_of_ne hn]
  simp only [Budget.terms, Budget.charge, hscopes]

/-- The id is one of the terms. -/
theorem id_of_terms {b c : Budget} (h : b.terms = c.terms) : b.id = c.id :=
  show b.terms.id = c.terms.id from congrArg Budget.id h

/-- A budget with the same terms was opened by the same press. -/
theorem OpenedBy.of_terms {p : Press} {t₀ : Nat} {b c : Budget} (h : OpenedBy p t₀ b)
    (hc : c.terms = b.terms) : OpenedBy p t₀ c where
  terms := hc.trans h.terms
  opened := (show c.terms.opened = b.terms.opened from congrArg Budget.opened hc).trans h.opened

/-- No budget in a place of `k'` has other terms than in `k`. -/
def SameTerms (k k' : Key) : Prop :=
  ∀ i, (k'.budgets i).id ≠ 0 → (k'.budgets i).terms = (k.budgets i).terms

/-- The same budgets have the same terms. -/
theorem SameTerms.of_eq (h : k'.budgets = k.budgets) : SameTerms k k' := fun i _ => by rw [h]

/-- Blank places have no terms to keep. -/
theorem SameTerms.of_blank (h : k'.budgets = fun _ => Budget.blank) : SameTerms k k' := by
  intro i hid
  rw [h] at hid
  exact absurd rfl hid

/-- One place is written, with the terms it had or nothing. -/
theorem SameTerms.of_update {b : Budget} (h : k'.budgets = Function.update k.budgets i b)
    (hb : b.id ≠ 0 → b.terms = (k.budgets i).terms) : SameTerms k k' := by
  intro n hid
  rw [h] at hid ⊢
  by_cases hn : n = i
  · subst hn
    rw [Function.update_self] at hid ⊢
    exact hb hid
  · rw [Function.update_of_ne hn]

/-- The terms stay over two steps. -/
theorem SameTerms.trans (h : SameTerms k m) (h' : SameTerms m k') : SameTerms k k' := by
  intro i hid
  have hterms := h' i hid
  have hid' : (m.budgets i).id ≠ 0 := by
    rw [← id_of_terms hterms]
    exact hid
  exact hterms.trans (h i hid')

/-- Every budget with the same terms has its press in the longer log. -/
theorem Backed.of_terms (h : SameTerms k k') (hlog : ∀ e ∈ k.log, e ∈ k'.log)
    (hk : Backed k) : Backed k' := by
  intro i hid
  have hterms := h i hid
  have hid' : (k.budgets i).id ≠ 0 := by
    rw [← id_of_terms hterms]
    exact hid
  obtain ⟨p, t₀, hmem, hopened⟩ := hk i hid'
  exact ⟨p, t₀, hlog _ hmem, hopened.of_terms hterms⟩

/-- No act but an opening writes terms. -/
theorem Act.sameTerms {link : Link} {reveal : Option Digest} {budgets : Fin 4 → Budget}
    (h : Act E k l link reveal budgets) (hl : l ≠ .grant) (hk' : k'.budgets = budgets) :
    SameTerms k k' := by
  cases h with
  | spend => exact .of_update hk' fun _ => charge_terms _ _
  | create => exact absurd rfl hl
  | finish => exact .of_update hk' fun h => absurd rfl h
  | hold => exact .of_update hk' fun _ => rfl
  | resume => exact .of_update hk' fun _ => rfl
  | receipt => exact .of_eq hk'
  | settle => exact .of_eq hk'
  | loss => exact .of_eq hk'

/-- The load of the record leaves the budgets. -/
theorem stateLoad_budgets (E : Env) (k : Key) : (k.stateLoad E).budgets = k.budgets := by
  unfold Key.stateLoad
  split
  · rfl
  · dsimp only
    split <;> rfl

/-- Only the press of a grant writes the terms of a budget. -/
theorem Move.sameTerms (h : Move E l k k') (hl : l ≠ .grant) : SameTerms k k' := by
  cases h with
  | ram h => exact .of_eq h.sameChain.budgets
  | announce t buf =>
    rcases recvTxStart_cases t buf k with hstill | ⟨-, -, token, intent, htx⟩
    · exact .of_eq hstill.budgets
    · rw [htx]
      exact .of_eq rfl
  | load _ => exact .of_eq (stateLoad_budgets E k)
  | salt => exact .of_eq rfl
  | known => exact .of_eq rfl
  | genesis => exact .of_eq rfl
  | continued => exact .of_blank rfl
  | resave => exact .of_eq rfl
  | act _ _ hact => exact hact.sameTerms hl rfl
  | restore sec hload hsec =>
    rw [restore_eq sec hload hsec]
    exact .of_blank rfl
  | wipe => exact .of_blank rfl

/-- Moves without an opening keep the terms. -/
theorem Moves.sameTerms (h : Moves E (· ≠ .grant) k k') : SameTerms k k' := by
  induction h with
  | refl => exact .of_eq rfl
  | tail _ hl hmove ih => exact ih.trans (hmove.sameTerms hl)

/-- The log of a run goes on from where it was. -/
theorem Moves.suffix (h : Moves E P k k') : k.log <:+ k'.log := by
  induction h with
  | refl => exact List.suffix_rfl
  | tail _ _ hmove ih => exact ih.trans hmove.suffix

/-- Moves without an opening keep every budget's press. -/
theorem Moves.backed (h : Moves E (· ≠ .grant) k k') (hk : Backed k) : Backed k' :=
  hk.of_terms h.sameTerms fun _ he => h.suffix.subset he

theorem Still.backed (h : Still k k') (hk : Backed k) : Backed k' := by
  refine hk.of_terms (.of_eq h.budgets) fun e he => ?_
  rcases h.log with hl | ⟨w, hl⟩ | ⟨p, n, hl⟩
  · rwa [hl]
  · exact hl ▸ List.mem_cons_of_mem _ he
  · exact hl ▸ List.mem_cons_of_mem _ he

/-! ### The press of a grant -/

/-- An opening is of the press that the log then holds. -/
theorem openBudget_backed (now : Nat) (i : Fin 4) (hk : Backed k) :
    Backed (k.openBudget E now i) := by
  intro n hid
  by_cases hn : n = i
  · subst hn
    refine ⟨_, now, List.mem_cons_self, ?_, ?_⟩
    · show (Function.update k.budgets n _ n).terms = _
      rw [Function.update_self]
    · show (Function.update k.budgets n _ n).opened = _
      rw [Function.update_self]
      rfl
  · have hsame : (k.openBudget E now i).budgets n = k.budgets n := Function.update_of_ne hn _ _
    rw [hsame] at hid ⊢
    obtain ⟨p, t₀, hmem, hopened⟩ := hk n hid
    exact ⟨p, t₀, List.mem_cons_of_mem _ (List.mem_cons_of_mem _ (List.mem_cons_of_mem _ hmem)),
      hopened⟩

theorem grantPressed_backed (t : Clock) (hk : Backed k) : Backed (k.grantPressed E t) := by
  unfold Key.grantPressed
  split
  · exact Still.backed ((Sent.refl k).status _).still hk
  · split
    · exact Still.backed ((Sent.refl k).status _).still hk
    · split
      · exact Still.backed ((Sent.refl k).status _).still hk
      · exact Still.backed (((Sent.refl _).reply _).checkpoint (E := E)).still
          (openBudget_backed (t 4) _ hk)

theorem decidePress_backed (t : Clock) (d : Draw) (dec : Decision) (hk : Backed k) :
    Backed (k.decidePress E t d dec) := by
  by_cases hwhat : k.press.what = .grant
  · have hid := ensureIdentity_moves (E := E) (P := (· ≠ .grant)) (k := k) (by decide) d
    have hpress := (ensureIdentity_requests E d k).press
    unfold Key.decidePress
    split
    · exact Still.backed (still_pressDrop k) hk
    · generalize k.ensureIdentity E d = r at hid hpress
      rcases r with ⟨m, - | -⟩
      · have hdrop := Still.backed (still_pressDrop m) (hid.1.backed hk)
        exact Still.backed ((Sent.refl _).status _).still hdrop
      · have hgrant : m.pressed E (t.after 1) = m.grantPressed E (t.after 1) := by
          rw [Key.pressed, show m.press.what = .grant from hpress ▸ hwhat]
        dsimp only
        rw [hgrant]
        exact Still.backed (still_pressDrop _) (grantPressed_backed _ (hid.1.backed hk))
  · exact (decidePress_moves (by decide) (by decide) (by decide) (fun h => absurd h hwhat)
      (fun _ => by decide) t d dec).backed hk

theorem runPendingOp_backed (t : Clock) (d : Draw) (hk : Backed k) :
    Backed (k.runPendingOp E t d) := by
  have hrefused := Still.backed (still_refused t k) hk
  unfold Key.runPendingOp
  split
  · exact hk
  · rename_i w _
    generalize k.refused t = r at hrefused
    rcases r with ⟨m, - | -⟩
    · refine Still.backed (still_ran w _) ?_
      unfold Key.decision
      split
      · exact decidePress_backed _ d .approve hrefused
      · exact (decidePending_moves (by decide) (by decide) (by decide) _ d _ _).backed hrefused
    · refine Still.backed ?_ hrefused
      constructor <;> first | rfl | exact Or.inl rfl

/-- An event that is no run of what waits does not press for a grant. -/
theorem Event.labels_ne_grant (e : Event) (hrun : ∀ t d, e ≠ .run t d) :
    ∀ l ∈ e.labels k, l ≠ .grant := by
  cases e with
  | recv buf t d =>
    intro l hl
    rcases hsub : subOp (byteAt buf 5) with - | sub
    · rw [Event.labels, hsub] at hl
      rintro rfl
      revert hl
      decide
    · rw [Event.labels, hsub] at hl
      rintro rfl
      revert hl
      cases sub <;> decide
  | run t d => exact absurd rfl (hrun t d)
  | _ =>
    intro l hl
    rintro rfl
    revert hl
    simp [Event.labels]

theorem step_backed (e : Event) (hne : e ≠ .restart) (hvalid : e.Valid k) (hk : Backed k) :
    Backed (step E e k) := by
  by_cases hrun : ∃ t d, e = .run t d
  · obtain ⟨t, d, rfl⟩ := hrun
    have hhush := Still.backed (still_hush k) hk
    exact Still.backed (still_at _ _) (runPendingOp_backed t d hhush)
  · have hlabels := e.labels_ne_grant (k := k) fun t d he => hrun ⟨t, d, he⟩
    exact (step_moves e hne hvalid hlabels).backed hk

/-- Without budgets there is nothing to be opened. -/
theorem backed_of_blank (h : k.budgets = fun _ => Budget.blank) : Backed k := by
  intro i hid
  rw [h] at hid
  exact absurd rfl hid

/-- Every budget of every key a run reaches was opened by a press of its history. -/
theorem Reachable.backed (h : Reachable E k) : Backed k := by
  induction h with
  | new core => exact backed_of_blank rfl
  | event e _ hvalid ih =>
    by_cases hne : e = .restart
    · subst hne
      exact backed_of_blank rfl
    · exact step_backed e hne hvalid ih
  | cut => exact backed_of_blank rfl

/-! ### Gone -/

/-- The difference of two readings of the counter is the time between them, modulo its wrap. -/
theorem millis_sub {t₀ n : Nat} (h : t₀ ≤ n) :
    (UInt32.ofNat n - UInt32.ofNat t₀).toNat = (n - t₀) % 2 ^ 32 := by
  have hn : UInt32.ofNat n = UInt32.ofNat (n - t₀) + UInt32.ofNat t₀ := by
    rw [← UInt32.ofNat_add, Nat.sub_add_cancel h]
  rw [hn, UInt32.add_sub_cancel, UInt32.toNat_ofNat']

/-- A budget is alive while the time since its press, modulo the wrap, is in its lifetime. -/
theorem alive_iff {b : Budget} {t₀ n : Nat} (hid : b.id ≠ 0) (hb : b.opened = UInt32.ofNat t₀)
    (h : t₀ ≤ n) : alive (UInt32.ofNat n) b = true ↔ (n - t₀) % 2 ^ 32 ≤ b.lifetimeMs.toNat := by
  rw [alive, hb, Bool.and_eq_true, bne_iff_ne, decide_eq_true_eq, UInt32.le_iff_toNat_le,
    millis_sub h]
  exact and_iff_right hid

/-- The key without the budget in place `i`. -/
def Key.without (i : Fin 4) (k : Key) : Key :=
  { k with budgets := Function.update k.budgets i Budget.blank }

/-- The budget in place `i` does nothing at this clock: it pays for no use, counts for no TX
start, HEAD does not list it, no request finds it, and no receipt or settle ends it. -/
structure Gone (E : Env) (t : Clock) (i : Fin 4) (k : Key) : Prop where
  pays : ∀ op slot label j, k.budgetFor t op slot label ≠ some (i, j)
  counts : (k.without i).anyBudgetPayable t = k.anyBudgetPayable t
  listed : (k.without i).liveIds t = k.liveIds t ∧ (k.without i).holdMask t = k.holdMask t
  named : ∀ id, k.liveBudget t id ≠ some i
  completes : k.completeAt E t i = k
  settles : k.settleAt E t i = k

/-- A budget that may pay is alive. -/
theorem budgetFor_alive {op slot : UInt8} {label : Option (Bytes labelPrefix)} {j : Fin 4}
    (h : k.budgetFor t op slot label = some (i, j)) : alive (t.millis i) (k.budgets i) = true := by
  unfold Key.budgetFor at h
  split at h
  · cases h
  · obtain ⟨n, -, hn⟩ := List.exists_of_findSome?_eq_some h
    dsimp only at hn
    split at hn
    · cases hn
    · rename_i hlive
      obtain ⟨j', -, hj⟩ := Option.map_eq_some_iff.mp hn
      obtain ⟨rfl, -⟩ := Prod.mk.inj hj
      simp only [Bool.or_eq_true, Bool.not_eq_true', not_or, Bool.not_eq_false] at hlive
      exact hlive.1.1

theorem without_self (k : Key) (i : Fin 4) : (k.without i).budgets i = Budget.blank := by
  rw [Key.without]
  exact Function.update_self ..

theorem without_of_ne {n : Fin 4} (hn : n ≠ i) : (k.without i).budgets n = k.budgets n :=
  Function.update_of_ne hn _ _

/-- A place that is not alive reads as an empty one. -/
theorem alive_without (hdead : alive (t.millis i) (k.budgets i) = false) (n : Fin 4) :
    alive (t.millis n) ((k.without i).budgets n) = alive (t.millis n) (k.budgets n) := by
  by_cases hn : n = i
  · subst hn
    rw [hdead, without_self]
    rfl
  · rw [without_of_ne hn]

/-- A budget that is alive is not the dead one. -/
theorem budgets_without {n : Fin 4} (hdead : alive (t.millis i) (k.budgets i) = false)
    (hn : alive (t.millis n) (k.budgets n) = true) : (k.without i).budgets n = k.budgets n := by
  refine without_of_ne ?_
  rintro rfl
  rw [hdead] at hn
  cases hn

/-- A budget that is not alive is gone for every request. -/
theorem gone_of_not_alive (hdead : alive (t.millis i) (k.budgets i) = false) : Gone E t i k where
  pays op slot label j h := by
    rw [budgetFor_alive h] at hdead
    cases hdead
  counts := by
    -- a dead budget counts nowhere, so it may as well not be in its place
    refine congrArg (List.any (List.finRange 4)) (funext fun n => ?_)
    rw [alive_without hdead]
    rcases hn : alive (t.millis n) (k.budgets n) with - | -
    · rfl
    · rw [budgets_without hdead hn]
  listed := by
    constructor
    · refine List.flatMap_congr fun n _ => ?_
      rw [alive_without hdead]
      rcases hn : alive (t.millis n) (k.budgets n) with - | -
      · rfl
      · rw [budgets_without hdead hn]
    · have hround : ∀ (mask : UInt8) (n : Fin 4),
          (alive (t.millis n) ((k.without i).budgets n) && ((k.without i).budgets n).onHold) =
            (alive (t.millis n) (k.budgets n) && (k.budgets n).onHold) := by
        intro _ n
        rw [alive_without hdead]
        rcases hn : alive (t.millis n) (k.budgets n) with - | -
        · rfl
        · rw [budgets_without hdead hn]
      unfold Key.holdMask
      simp only [hround 0]
  named id h := by
    have hlive := List.find?_some h
    rw [hdead, Bool.and_false] at hlive
    cases hlive
  completes := by
    rw [Key.completeAt, hdead, Bool.false_and, if_neg Bool.false_ne_true]
  settles := by
    rw [Key.settleAt, hdead, if_neg Bool.false_ne_true]

/-- A settle ends a live budget with a link. -/
theorem not_gone_of_alive (hlive : alive (t.millis i) (k.budgets i) = true) : ¬ Gone E t i k := by
  intro h
  have hsettles := h.settles
  rw [Key.settleAt, if_pos hlive] at hsettles
  have hend : (k.endBudget E endSettled i).log.length = k.log.length + 2 := by
    unfold Key.endBudget Key.append Key.appendScoped
    rw [weldIn_log]
    rfl
  rw [hsettles] at hend
  omega

/-- What an expired budget does, at any clock: nothing, unless the time since its press is in its
lifetime again modulo the wrap of the counter. -/
theorem expired_stays_gone (hreach : Reachable E k) {i : Fin 4} (hid : (k.budgets i).id ≠ 0) :
    ∃ p t₀, .opened p t₀ ∈ k.log ∧ OpenedBy p t₀ (k.budgets i) ∧
      ∀ t : Clock, p.b.lifetimeMs.toNat < t i - t₀ →
        (Gone E t i k ↔ p.b.lifetimeMs.toNat < (t i - t₀) % 2 ^ 32) := by
  obtain ⟨p, t₀, hmem, hopened⟩ := hreach.backed i hid
  refine ⟨p, t₀, hmem, hopened, fun t hpast => ?_⟩
  have hlife : (k.budgets i).lifetimeMs = p.b.lifetimeMs :=
    show (k.budgets i).terms.lifetimeMs = p.b.terms.lifetimeMs from congrArg _ hopened.terms
  have halive := alive_iff (n := t i) hid hopened.opened (by omega)
  rw [hlife, ← not_lt] at halive
  constructor
  · intro hgone
    by_contra hno
    exact not_gone_of_alive (halive.mpr hno) hgone
  · intro hover
    refine gone_of_not_alive ?_
    rw [Bool.eq_false_iff]
    exact fun hlive => halive.mp hlive hover

theorem expired_stays_gone_opened :
    ∃ p t₀, .opened p t₀ ∈ (Demo.opened 1 5 0 10 Demo.started).log ∧
      OpenedBy p t₀ ((Demo.opened 1 5 0 10 Demo.started).budgets 0) ∧
      ∀ t : Clock, p.b.lifetimeMs.toNat < t (0 : Fin 4) - t₀ →
        (Gone Demo.env t 0 (Demo.opened 1 5 0 10 Demo.started) ↔
          p.b.lifetimeMs.toNat < (t (0 : Fin 4) - t₀) % 2 ^ 32) :=
  expired_stays_gone
    (Demo.reachable_opened 1 5 0 Demo.reachable_started (by decide +kernel)) (by decide +kernel)

/-- A budget pays again one wrap of the counter after its press. -/
theorem expired_budget_returns :
    ∃ k p t₀ t, Reachable Demo.env k ∧ .opened p t₀ ∈ k.log ∧ OpenedBy p t₀ (k.budgets 0) ∧
      t.From k.now ∧ p.b.lifetimeMs.toNat < t (0 : Fin 4) - t₀ ∧ ¬ Gone Demo.env t 0 k := by
  have hreach := Demo.reachable_opened 1 5 0 (n := 10) Demo.reachable_started (by decide +kernel)
  have hid : ((Demo.opened 1 5 0 10 Demo.started).budgets 0).id ≠ 0 := by decide +kernel
  have hnow : (Demo.opened 1 5 0 10 Demo.started).now = 10 := by decide +kernel
  obtain ⟨p, t₀, hmem, hopened⟩ := hreach.backed 0 hid
  have hlife := p.b.lifetimeMs.toNat_lt
  refine ⟨_, p, t₀, Demo.clock (t₀ + 2 ^ 32), hreach, hmem, hopened, ?_, ?_, ?_⟩
  · exact Demo.clock_from (by omega)
  · show p.b.lifetimeMs.toNat < t₀ + 2 ^ 32 - t₀
    omega
  · refine not_gone_of_alive ((alive_iff hid hopened.opened (Nat.le_add_right _ _)).mpr ?_)
    rw [Nat.add_sub_cancel_left, Nat.mod_self]
    exact Nat.zero_le _

end OkRn.Edge
