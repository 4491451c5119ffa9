/-
OkRn/Edge/Paid.lean

An operation that a budget pays for, and its link.

Whether the budget pays is asked three times: when the operation is primed, in
`refused` and in `decision`, each with its own readings of the clock.  Between
the last two no request comes, so only the time can tell them apart.  The
operation is linked or refused exactly when the answers agree, and it is still
the pending one (`paid_operation_is_linked`); a budget whose life ends between
them lets it run without its link (`expires_between_the_hooks`).

* `PaidWaits` is what an operation that a budget pays for waits with;
* `NotRun` and `RanLinked` are the two ways it may end.
-/
import OkRn.Edge.Kept
import OkRn.Edge.Labels

namespace OkRn.Edge

variable {E : Env} {k k' : Key} {w : Waiting} {t : Clock}

/-! ### What a run does -/

/-- The operation did not run, and nothing was linked or taken. -/
def NotRun (k k' : Key) : Prop := k'.log = k.log ∧ k'.budgets = k.budgets

/-- Before it ran, the operation's self-press link was saved, and one use taken from the budget. -/
def RanLinked (E : Env) (w : Waiting) (k k' : Key) : Prop :=
  ∃ u side sector, ∃ i j : Fin 4,
    k'.log = .ran w :: .link u :: .saved side sector :: k.log ∧ u.link.selfPress = true ∧
      u.link.op = opOf w.opcode ∧ u.link.slot = w.slot ∧ u.link.subject = E.sha256 w.msg ∧
      u.link.grantId = (k.budgets i).id ∧
      k'.budgets = Function.update k.budgets i ((k.budgets i).charge j)

/-! ### The operation that waits -/

/-- A paid operation that is still pending has its budget, no press, and its own subject. -/
def PaidWaits (E : Env) (k : Key) : Prop :=
  k.pend.active = true → ∀ w, k.waiting = some w → w.paid = true →
    k.pend.budget.isSome = true ∧ k.pend.press = false ∧ k.pend.subject = E.sha256 w.msg

/-- Nothing is pending, so nothing is paid. -/
theorem paidWaits_of_inactive (h : k.pend.active = false) : PaidWaits E k := by
  intro hactive
  rw [h] at hactive
  cases hactive

/-- What is pending is paid as it was. -/
theorem PaidWaits.same (h : PaidWaits E k) (hs : SamePend k k') : PaidWaits E k' := by
  rcases hs with ⟨hpend, hwait⟩ | hnone
  · rw [PaidWaits, hpend, hwait]
    exact h
  · exact paidWaits_of_inactive hnone

/-- A priming asks whether a budget pays. -/
theorem okcorePrime_paidWaits (t : Clock) {opcode : UInt8} (slot : UInt8) (msg : List UInt8)
    (mode : InputMode) (hedge : opcode ≠ okEdge) :
    PaidWaits E (k.okcorePrime E t opcode slot msg mode) := by
  unfold Key.okcorePrime Key.primed
  dsimp only
  rw [if_neg hedge]
  split
  · exact paidWaits_of_inactive rfl
  · generalize hloaded : Key.stateLoad E _ = m
    have hpend : m.pend = { k.pend with
        active := true, budget := none, intent := none, refuse := 0, opcode := opcode, slot := slot
        subject := E.sha256 msg, label := requestLabel slot msg } := by
      rw [← hloaded, (stateLoad_requests E _).pend]
    split
    · -- a refused operation has no budget
      intro _ w hw hpaid
      obtain rfl := Option.some.inj hw
      simp [Key.refusePending, hpend] at hpaid
    · unfold Key.choosePayer
      split
      · intro _ w hw _
        obtain rfl := Option.some.inj hw
        simp [Key.push, hpend]
      · intro _ w hw hpaid
        obtain rfl := Option.some.inj hw
        simp [hpend] at hpaid

theorem Reachable.paidWaits (h : Reachable E k) : PaidWaits E k := by
  induction h with
  | new core => exact paidWaits_of_inactive rfl
  | event e hreach hvalid ih =>
    by_cases he : ∃ opcode slot msg mode t, e = .prime opcode slot msg mode t
    · obtain ⟨opcode, slot, msg, mode, t, rfl⟩ := he
      exact okcorePrime_paidWaits (E := E) t slot msg mode hvalid.1
    · refine ih.same (step_samePend e hreach.pendWaits fun opcode slot msg mode t heq => ?_)
      exact he ⟨opcode, slot, msg, mode, t, heq⟩
  | cut => exact paidWaits_of_inactive rfl

/-! ### The hooks around the operation -/

/-- The operation is refused: its start was for another request, or no budget pays any more. -/
theorem run_refused (hwait : k.waiting = some w) (hactive : k.pend.active = true)
    (hbudget : k.pend.budget.isSome = true) (hpress : k.pend.press = false) (d : Draw)
    (h : k.pend.refuse ≠ 0 ∨ k.stillPays t = none) : NotRun k (k.runPendingOp E t d) := by
  have hrefused : ∃ m, k.refused t = (m, true) ∧ m.log = k.log ∧ m.budgets = k.budgets := by
    unfold Key.refused
    rw [if_neg (by simp [hactive])]
    by_cases hrefuse : k.pend.refuse ≠ 0
    · rw [if_pos hrefuse]
      exact ⟨_, rfl, rfl, rfl⟩
    · rw [if_neg hrefuse, if_pos ⟨hbudget, by simp [hpress], h.resolve_left hrefuse⟩]
      exact ⟨_, rfl, rfl, rfl⟩
  obtain ⟨m, hm, hlog, hbudgets⟩ := hrefused
  have hrun : k.runPendingOp E t d = { m with userInputMode := .challenge, waiting := none } := by
    simp only [Key.runPendingOp, hwait, hm]
  rw [hrun]
  exact ⟨hlog, hbudgets⟩

/-- What is not pending any more runs as it is. -/
theorem run_forgotten (hwait : k.waiting = some w) (hop : w.opcode ≠ okEdge)
    (hactive : k.pend.active = false) (d : Draw) : k.runPendingOp E t d = k.ran w := by
  have hrefused : k.refused t = (k, false) := by
    unfold Key.refused
    rw [if_pos (by simp [hactive])]
  have hdec : k.decision E (t.after 4) d w.opcode .approve = k := by
    rw [Key.decision, if_neg hop, Key.decidePending, if_pos (by simp [hactive])]
  simp only [Key.runPendingOp, hwait, hrefused, hdec]

/-- With a budget that pays, the decision takes the use if it pays then too. -/
theorem run_decided (hsane : Sane k) (hwait : k.waiting = some w) (hop : w.opcode ≠ okEdge)
    (hactive : k.pend.active = true) (hopcode : w.opcode = k.pend.opcode)
    (hrefuse : k.pend.refuse = 0) (hpays : k.stillPays t ≠ none) (d : Draw) :
    k.runPendingOp E t d = (k.unpend.takeUse E (t.after 4)).ran w := by
  have hrefused : k.refused t = (k, false) := by
    unfold Key.refused
    rw [if_neg (by simp [hactive]), if_neg (by simp [hrefuse]), if_neg fun h => hpays h.2.2]
  -- a pending start means that the identity is known
  have hid : k.ident.isSome = true := by
    obtain ⟨⟨i, j⟩, hij⟩ := Option.ne_none_iff_exists'.mp hpays
    exact hsane.started (budgetFor_pays (stillPays_pays hij).2).1
  have hensure : k.unpend.ensureIdentity E d = (k.unpend, true) := by
    rw [Key.ensureIdentity, stateLoad_of_loaded (k := k.unpend) (hsane.loaded hid)]
    exact if_pos hid
  have hdec : k.decision E (t.after 4) d w.opcode .approve = k.unpend.takeUse E (t.after 4) := by
    rw [Key.decision, if_neg hop, Key.decidePending, if_neg (by simp [hactive]),
      if_neg (by simp [hopcode]), hensure]
    rfl
  simp only [Key.runPendingOp, hwait, hrefused, hdec]

/-- The link of a use, which is saved before it. -/
theorem spend_link (i j : Fin 4) (k : Key) : ∃ u side sector,
    (k.spend E i j).log = .link u :: .saved side sector :: k.log ∧ u.link.selfPress = true ∧
      u.link.op = opOf k.pend.opcode ∧ u.link.slot = k.pend.slot ∧
      u.link.subject = k.pend.subject ∧ u.link.grantId = (k.budgets i).id := by
  refine ⟨_, _, _, weldIn_log _ _ _, ?_, rfl, rfl, rfl, rfl⟩
  show ((opOf k.pend.opcode == opSign || opOf k.pend.opcode == opDecrypt) &&
    decisionSelfPress == decisionSelfPress) = true
  unfold opOf
  split <;> decide

/-- An operation that ran without its link. -/
theorem ran_log_ne (hlog : k'.log = .ran w :: k.log) : ¬ (NotRun k k' ∨ RanLinked E w k k') := by
  rintro (⟨hsame, -⟩ | ⟨u, side, sector, i, j, hlinked, -⟩)
  · rw [hsame] at hlog
    exact absurd (congrArg List.length hlog) (by simp)
  · rw [hlinked] at hlog
    have hlen := congrArg List.length hlog
    simp only [List.length_cons] at hlen
    omega

/-- A sign or decrypt that a budget was found to pay for is refused, or linked before it runs,
exactly when it is still pending and is set to be refused, or the budget pays no more when
`refused` asks, or pays still when `decision` asks. -/
theorem paid_operation_is_linked (h : Reachable E k) (hwait : k.waiting = some w)
    (hop : w.opcode = okSign ∨ w.opcode = okDecrypt) (hpaid : w.paid = true) (t : Clock) (d : Draw) :
    (NotRun k (step E (.run t d) k) ∨ RanLinked E w k (step E (.run t d) k)) ↔
      k.pend.active = true ∧
        (k.pend.refuse ≠ 0 ∨ k.stillPays t = none ∨ k.stillPays (t.after 4) ≠ none) := by
  have hedge : w.opcode ≠ okEdge := by
    rintro hw
    rw [hw] at hop
    exact absurd hop (by decide)
  have hhush : k.hush.waiting = some w := hwait
  cases hactive : k.pend.active with
  | false =>
    have hran : (step E (.run t d) k).log = .ran w :: k.log := by
      show (k.hush.runPendingOp E t d).log = _
      rw [run_forgotten hhush hedge hactive d]
      rfl
    exact ⟨fun hrun => absurd hrun (ran_log_ne hran), fun hno => (nomatch hno.1)⟩
  | true =>
    obtain ⟨-, w', hw', hopcode, hslot, -⟩ := h.pendWaits hactive
    obtain rfl : w = w' := Option.some.inj (hwait.symm.trans hw')
    obtain ⟨hbudget, hpress, hsubject⟩ := h.paidWaits hactive w hwait hpaid
    -- a refusal is pending, or the budget has ended since: nothing is linked
    by_cases hrefuse : k.pend.refuse ≠ 0 ∨ k.stillPays t = none
    · refine ⟨fun _ => ⟨rfl, hrefuse.imp_right Or.inl⟩, fun _ => Or.inl ?_⟩
      exact run_refused (k := k.hush) hhush hactive hbudget hpress d hrefuse
    · obtain ⟨hzero, hpays⟩ := not_or.mp hrefuse
      have hsane : Sane k := h.trace.sane
      have hstep : step E (.run t d) k = ((k.hush.unpend.takeUse E (t.after 4)).ran w).at_ (t 16) :=
        congrArg (Key.at_ (t 16)) (run_decided (k := k.hush)
          ⟨hsane.loaded, hsane.budgets, hsane.started, hsane.intent⟩ hhush hedge hactive hopcode
          (not_not.mp hzero) hpays d)
      -- the clock is read again before the link, and a budget may end in between
      cases hlast : k.stillPays (t.after 4) with
      | none =>
        have hran : (step E (.run t d) k).log = .ran w :: k.log := by
          have htake : k.hush.unpend.takeUse E (t.after 4) = k.hush.unpend := by
            have hnone : k.hush.unpend.stillPays (t.after 4) = none := hlast
            rw [Key.takeUse, hnone]
          rw [hstep, htake]
          rfl
        refine ⟨fun hrun => absurd hrun (ran_log_ne hran), fun hno => ?_⟩
        exact absurd hno.2 (by simp [not_not.mp hzero, hpays])
      | some pays =>
        obtain ⟨i, j⟩ := pays
        refine ⟨fun _ => ⟨rfl, Or.inr (Or.inr (by simp))⟩, fun _ => Or.inr ?_⟩
        have htake : k.hush.unpend.takeUse E (t.after 4) = k.hush.unpend.spend E i j := by
          have hsome : k.hush.unpend.stillPays (t.after 4) = some (i, j) := hlast
          rw [Key.takeUse, hsome]
        obtain ⟨u, side, sector, hlog, hself, hu⟩ := spend_link (E := E) i j k.hush.unpend
        refine ⟨u, side, sector, i, j, ?_, hself, ?_, ?_, ?_, ?_, ?_⟩
        · rw [hstep, htake]
          exact congrArg (Entry.ran w :: ·) hlog
        · rw [hu.1, hopcode]
          rfl
        · exact hu.2.1.trans hslot.symm
        · exact hu.2.2.1.trans hsubject
        · exact hu.2.2.2
        · rw [hstep, htake]
          rfl

namespace Demo

/-- A sign on slot 1 waits; the budget that pays for it ends after a minute. -/
def waitingUse : Key := primed 1 [1, 2, 3] 20 (opened 1 5 1 10 started)

/-- The operation that waits. -/
def paidUse : Waiting := ⟨okSign, 1, [1, 2, 3], .none, true⟩

/-- The run of the example can happen. -/
theorem reachable_waitingUse : Reachable env waitingUse := by
  have hstarted : started.now ≤ 10 := by decide +kernel
  exact reachable_primed 1 [1, 2, 3] (reachable_opened 1 5 1 reachable_started hstarted)
    (by decide +kernel)

theorem waiting_waitingUse : waitingUse.waiting = some paidUse := by
  have hfields : waitingUse.waiting.map (fun w => (w.opcode, w.slot, w.msg, w.mode, w.paid)) =
      some (okSign, 1, [1, 2, 3], .none, true) := by decide +kernel
  obtain ⟨w, hw, hfields⟩ := Option.map_eq_some_iff.mp hfields
  rw [hw]
  cases w
  simp only [Prod.mk.injEq] at hfields
  obtain ⟨rfl, rfl, rfl, rfl, rfl⟩ := hfields
  rfl

/-- The fifth reading comes after the minute. -/
def lateClock : Clock := fun n => if n < 4 then 20 else 70000

/-- The clock of the late reading. -/
theorem lateClock_from : lateClock.From waitingUse.now := by
  have hnow : waitingUse.now ≤ 20 := by decide +kernel
  refine ⟨hnow, fun a b hab => ?_⟩
  simp only [lateClock]
  split_ifs <;> omega

end Demo

theorem paid_operation_is_linked_of_use :
    (NotRun Demo.waitingUse (step Demo.env (.run (Demo.clock 20) Demo.draw) Demo.waitingUse) ∨
      RanLinked Demo.env Demo.paidUse Demo.waitingUse
        (step Demo.env (.run (Demo.clock 20) Demo.draw) Demo.waitingUse)) ↔
      Demo.waitingUse.pend.active = true ∧
        (Demo.waitingUse.pend.refuse ≠ 0 ∨ Demo.waitingUse.stillPays (Demo.clock 20) = none ∨
          Demo.waitingUse.stillPays ((Demo.clock 20).after 4) ≠ none) :=
  paid_operation_is_linked Demo.reachable_waitingUse Demo.waiting_waitingUse (Or.inl rfl) rfl
    (Demo.clock 20) Demo.draw

/-- A budget that ends between the two hooks lets its operation run without a link. -/
theorem expires_between_the_hooks :
    ¬ ∀ (E : Env) (k : Key) (w : Waiting) (t : Clock) (d : Draw), Reachable E k → t.From k.now →
      k.waiting = some w → (w.opcode = okSign ∨ w.opcode = okDecrypt) → w.paid = true →
      NotRun k (step E (.run t d) k) ∨ RanLinked E w k (step E (.run t d) k) := by
  intro h
  have hrun := h Demo.env _ _ Demo.lateClock Demo.draw Demo.reachable_waitingUse
    Demo.lateClock_from Demo.waiting_waitingUse (Or.inl rfl) rfl
  have hlen : (step Demo.env (.run Demo.lateClock Demo.draw) Demo.waitingUse).log.length =
      Demo.waitingUse.log.length + 1 := by decide +kernel
  rcases hrun with ⟨hlog, -⟩ | ⟨u, side, sector, i, j, hlog, -⟩
  · rw [hlog] at hlen
    omega
  · rw [hlog] at hlen
    simp only [List.length_cons] at hlen
    omega

end OkRn.Edge
