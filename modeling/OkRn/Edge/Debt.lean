/-
OkRn/Edge/Debt.lean

The debt: at most one use is owed, and nothing starts while it is.

`Trace.debt` says the record owes exactly what the history says is unpaid.  The
moves that start something check the record first, so no such entry follows an
unpaid use (`Trace.guarded`).  Both rest on restarts that find the record the
key had: where the generation has just wrapped to 0 a restart finds the record
before, and the debt is gone (`debt_lost_at_wrap`).
-/
import OkRn.Edge.Demo

namespace OkRn.Edge

variable {E : Env} {k k' : Key} {l : Label}

/-! ### What a record owes -/

/-- The owed use of a record. -/
def EdgeState.debt (s : EdgeState) : Option OwedUse := if s.owes then some s.owed else none

/-- A record that owes nothing has no debt. -/
theorem debt_eq_none {s : EdgeState} (h : s.owes = false) : s.debt = none := by
  simp [EdgeState.debt, h]

/-- The links the key writes owe by a self-press only. -/
theorem Act.owes_eq {link : Link} {reveal : Option Digest} {budgets : Fin 4 → Budget}
    (h : Act E k l link reveal budgets) : link.owes = link.owing := by
  cases h <;> simp [Link.owes, Link.owing, Link.selfPress, Key.nextLink, opSign, opDecrypt,
    opGrantCreate, opGrantEnd, opReceipt, opLoss, opGrantHold, opGrantResume, decisionApprove,
    decisionSelfPress, codeNeedsReview]

/-- The continue link owes what the record owes. -/
theorem continueLink_owes (E : Env) (k : Key) :
    (k.continueLink E).owes = (k.continueLink E).owing := by
  simp [Link.owes, Link.owing, Link.selfPress, Key.continueLink, Key.nextLink, opSign, opDecrypt,
    opContinue]

/-- What a receipt must be of to pay the debt. -/
theorem pays_iff (link : Link) (s : EdgeState) :
    link.pays E s.owed = true ↔
      link.op = opReceipt ∧ (link.settles E s = true ∨ link.grantId = s.owed.seq) := by
  simp only [Link.pays, Link.pressedSettle, Link.settles, settleSubject, Bool.or_eq_true,
    Bool.and_eq_true, beq_iff_eq]
  tauto

/-- A link that is no sign or decrypt clears the debt when it pays it. -/
theorem weldDebt_of_not_use {link : Link} (head : Digest) (s : EdgeState)
    (hop : ¬(link.op = opSign ∨ link.op = opDecrypt)) :
    weldDebt E link head s =
      if s.owes = true ∧ link.pays E s.owed = true then
        { s with owes := false, owed := OwedUse.blank }
      else s := by
  simp only [weldDebt, if_neg hop, pays_iff]
  by_cases hr : link.op = opReceipt
  · simp only [hr, if_true, true_and]
  · simp only [hr, if_false, false_and, and_false]

/-- The debt after a link, paid or not. -/
theorem debt_filter (s : EdgeState) (link : Link) :
    s.debt.filter (fun d => !link.pays E d) =
      if s.owes = true ∧ link.pays E s.owed = true then none else s.debt := by
  rcases howes : s.owes with - | - <;> rcases hpay : link.pays E s.owed with - | - <;>
    simp [EdgeState.debt, howes, hpay, Option.filter]

/-- The weld does to the debt what the history does. -/
theorem weldDebt_debt {link : Link} (head : Digest) (s : EdgeState) (h : link.owes = link.owing) :
    (weldDebt E link head s).debt =
      if link.owing then some ⟨link.seq, head⟩ else s.debt.filter fun d => !link.pays E d := by
  rw [debt_filter]
  by_cases hop : link.op = opSign ∨ link.op = opDecrypt
  · have hpay : link.pays E s.owed = false := by
      rw [Bool.eq_false_iff, ne_eq, pays_iff]
      rintro ⟨hr, -⟩
      rw [hr] at hop
      revert hop
      decide
    rw [weldDebt, if_pos hop, h, hpay]
    rcases link.owing with - | -
    · simp
    · simp [EdgeState.debt]
  · have howing : link.owing = false := by
      simp only [Link.owing, Link.selfPress, Bool.and_eq_false_iff, Bool.or_eq_false_iff,
        beq_eq_false_iff_ne]
      tauto
    rw [weldDebt_of_not_use head s hop, howing]
    simp only [Bool.false_eq_true, if_false]
    split
    · simp [EdgeState.debt]
    · rfl

/-! ### The record owes what the history says -/

/-- The debt of the history is the debt of the record. -/
def Owes (E : Env) (k : Key) : Prop := debtOf E k.log = (k.kept E).debt

/-- A step without a link keeps what is owed. -/
theorem SameChain.owes (h : SameChain E k k') (hk : Owes E k) : Owes E k' := by
  obtain ⟨seg, hlog, hseg⟩ := h.log
  rw [Owes, hlog, debtOf_append hseg, h.kept]
  exact hk

/-- A link that owes what it says keeps it. -/
theorem weldIn_owes {link : Link} (reveal : Option Digest) (hload : k.loaded = true)
    (howes : link.owes = link.owing) (hk : Owes E k) : Owes E (k.weldIn E link reveal) := by
  have hload' : (k.weldIn E link reveal).loaded = true := hload
  rw [Owes, kept_of_loaded hload] at hk
  rw [Owes, kept_of_loaded hload', weldIn_log, weldIn_st]
  dsimp only [debtOf]
  rw [hk]
  exact (weldDebt_debt (weldHead E k.st.head link) k.st howes).symm

/-- Every move keeps what is owed. -/
theorem Move.owes (h : Move E l k k') (hk : Owes E k) : Owes E k' := by
  -- what a move does to the record, the log says too
  cases h with
  | ram h => exact h.sameChain.owes hk
  | announce t buf hload =>
    rcases recvTxStart_cases t buf k with hstill | ⟨-, -, token, intent, htx⟩
    · exact hstill.sameChain.owes hk
    · rw [htx]
      exact hk
  | load _ =>
    rw [Owes, stateLoad_log, stateLoad_kept]
    exact hk
  | salt salt hload =>
    rw [Owes, kept_of_loaded hload] at hk
    exact hk.trans (by rw [kept_of_loaded (by exact hload)]; rfl)
  | known => exact hk
  | genesis hload =>
    rw [Owes, kept_of_loaded hload] at hk
    exact hk.trans (by rw [kept_of_loaded (by exact hload)]; rfl)
  | continued hload =>
    rename_i id _ _ _ _
    rw [Owes, kept_of_loaded hload] at hk
    refine weldIn_owes (k := { k.continuing E id with nextIntent := none }) none hload
      (continueLink_owes E k) ?_
    rw [Owes, kept_of_loaded (by exact hload)]
    exact hk
  | resave hload =>
    rw [Owes, kept_of_loaded hload] at hk
    exact hk.trans (by rw [kept_of_loaded (by exact hload)]; rfl)
  | act hload hid hact =>
    rename_i link reveal budgets
    exact weldIn_owes (k := { k with budgets := budgets, nextIntent := none }) reveal hload
      hact.owes_eq hk
  | restore sec hload hsec =>
    have hgen := sectionState_gen k.st.gen sec
    rw [restore_eq sec hload hsec, Owes, restored_log hgen, kept_of_loaded (by rfl),
      restored_st hgen]
    rfl
  | wipe => rfl

/-- So it is in every run whose restarts are clean. -/
theorem Trace.owes (h : Trace E k) (hclean : CleanBoots k.log) : Owes E k := by
  induction h with
  | new core =>
    have hload : (Key.fresh (fun _ => erased) core []).kept E = EdgeState.empty :=
      DoubleBuffer.Backed.load_eq stored_erased fun _ => stateDecode_erased E
    rw [Owes, hload]
    rfl
  | move _ hmove ih => exact hmove.owes (ih (hclean.of_suffix hmove.suffix))
  | boot core htrace htorn ih =>
    rw [Owes, reboot_kept htrace core htorn hclean]
    exact ih (hclean.of_suffix ⟨[_], rfl⟩)

/-! ### Nothing starts while a use is owed -/

/-- The history never starts anything over a debt. -/
def Waits (E : Env) (log : List Entry) : Prop :=
  History.Guarded (fun past e => (debtOf E past).isSome = true → e.starts = false) log

/-- A silent entry starts nothing. -/
theorem silent_starts {e : Entry} (h : e.silent = true) : e.starts = false := by
  cases e <;> simp_all [Entry.silent, Entry.starts]

/-- A step without a link lets nothing start. -/
theorem SameChain.waits (h : SameChain E k k') (hk : Waits E k.log) : Waits E k'.log := by
  obtain ⟨seg, hlog, hseg⟩ := h.log
  rw [hlog]
  exact hk.append fun e he _ _ => silent_starts (hseg e he)

/-- A link that starts something is written over a record that owes nothing. -/
theorem Act.starts {link : Link} {reveal : Option Digest} {budgets : Fin 4 → Budget}
    (h : Act E k l link reveal budgets) (howes : k.st.owes = true) (w : Welded)
    (hw : w.link = link) : (Entry.link w).starts = false := by
  cases h with
  | spend _ _ hpay =>
    simp [Key.budgetsMayPay, howes] at hpay
  | create _ _ _ hnot =>
    rw [howes] at hnot
    cases hnot
  | resume _ _ hnot =>
    rw [howes] at hnot
    cases hnot
  | _ =>
    simp [Entry.starts, hw, Link.selfPress, Key.nextLink, opSign, opDecrypt, opGrantCreate,
      opGrantEnd, opReceipt, opLoss, opGrantHold, opGrantResume]

/-- Where the history owes a use, so does the record. -/
theorem owes_of_debt {log : List Entry} (hload : k.loaded = true) (hk : Owes E k)
    (h : (debtOf E log).isSome = true) (hlog : debtOf E log = debtOf E k.log) :
    k.st.owes = true := by
  rw [hlog, hk, kept_of_loaded hload] at h
  by_contra hno
  rw [debt_eq_none (by simpa using hno)] at h
  cases h

/-- A link over a debt starts nothing. -/
theorem weldIn_waits {link : Link} (reveal : Option Digest) (hload : k.loaded = true)
    (hk : Owes E k) (hwaits : Waits E k.log)
    (hstarts : k.st.owes = true → ∀ w : Welded, w.link = link → (Entry.link w).starts = false) :
    Waits E (k.weldIn E link reveal).log := by
  rw [weldIn_log]
  have hsaved : Waits E (.saved (DoubleBuffer.side (k.st.gen + 1))
      (stateEncode E (k.weldIn E link reveal).st) :: k.log) := hwaits.cons fun _ => rfl
  exact hsaved.cons fun hdebt => hstarts (owes_of_debt hload hk hdebt rfl) _ rfl

/-- Every move lets nothing start over a debt. -/
theorem Move.waits (h : Move E l k k') (hk : Owes E k) (hwaits : Waits E k.log) :
    Waits E k'.log := by
  -- a TX start and an act of a use come over no debt; nothing else starts anything
  cases h with
  | ram h => exact h.sameChain.waits hwaits
  | announce t buf hload =>
    rcases recvTxStart_cases t buf k with hstill | ⟨howes, -, token, intent, htx⟩
    · exact SameChain.waits hstill.sameChain hwaits
    · rw [htx]
      refine hwaits.cons fun hdebt => ?_
      rw [owes_of_debt hload hk hdebt rfl] at howes
      cases howes
  | load _ =>
    rw [stateLoad_log]
    exact hwaits
  | salt salt => exact (hwaits.cons fun _ => rfl).cons fun _ => rfl
  | known => exact hwaits
  | genesis => exact hwaits.cons fun _ => rfl
  | continued hload =>
    rename_i id _ _ _ _
    refine weldIn_waits (k := { k.continuing E id with nextIntent := none }) none hload ?_ hwaits ?_
    · rw [Owes, kept_of_loaded hload] at hk
      rw [Owes, kept_of_loaded (by exact hload)]
      exact hk
    · intro _ w hw
      simp [Entry.starts, hw, Link.selfPress, Key.continueLink, Key.nextLink, opSign, opDecrypt,
        opContinue, opGrantCreate, opGrantResume]
  | resave => exact hwaits.cons fun _ => rfl
  | act hload hid hact =>
    rename_i link reveal budgets
    exact weldIn_waits (k := { k with budgets := budgets, nextIntent := none }) reveal hload hk
      hwaits hact.starts
  | restore sec hload hsec =>
    rw [restore_eq sec hload hsec, restored_log (sectionState_gen k.st.gen sec)]
    exact (hwaits.cons fun _ => rfl).cons fun _ => rfl
  | wipe => exact hwaits.cons fun _ => rfl

/-- So it is in every run whose restarts are clean. -/
theorem Trace.waits (h : Trace E k) (hclean : CleanBoots k.log) : Waits E k.log := by
  induction h with
  | new core => exact History.guarded_nil
  | move htrace hmove ih =>
    have hclean' := hclean.of_suffix hmove.suffix
    exact hmove.waits (htrace.owes hclean') (ih hclean')
  | boot core _ _ ih =>
    have hwaits := ih (hclean.of_suffix ⟨[_], rfl⟩)
    exact hwaits.cons fun _ => rfl

/-! ### The debt discipline -/

/-- The use `d` was linked, and no receipt for it and no settle of it since. -/
def Unpaid (E : Env) (log : List Entry) (d : OwedUse) : Prop :=
  ∃ post w pre, log = post ++ .link w :: pre ∧ w.link.owing = true ∧
    d = ⟨w.link.seq, w.head⟩ ∧ ∀ w', Entry.link w' ∈ post → w'.link.pays E d = false

/-- Nothing starts over an unpaid use, and the key goes on owing it. -/
structure Disciplined (E : Env) (k : Key) : Prop where
  guarded : ∀ post e pre d, k.log = post ++ e :: pre → Unpaid E pre d → e.starts = false
  owed : ∀ d, Unpaid E k.log d → (k.kept E).owes = true ∧ (k.kept E).owed = d

/-- Without restores and wipes an unpaid use is the debt. -/
theorem debtOf_of_unpaid {log : List Entry} {d : OwedUse} (hwaits : Waits E log)
    (hkeep : NoReset log) (h : Unpaid E log d) : debtOf E log = some d := by
  obtain ⟨post, w, pre, rfl, howing, rfl, hpays⟩ := h
  induction post with
  | nil => simp [debtOf, howing]
  | cons e post ih =>
    rw [List.cons_append] at hwaits hkeep
    obtain ⟨hstarts, hwaits'⟩ := History.guarded_cons.mp hwaits
    have hrest := ih hwaits' (fun e' he' => hkeep e' (by simp [he']))
      fun w' hw' => hpays w' (by simp [hw'])
    cases e with
    | link w' =>
      -- a later link neither owes anew nor pays
      have hnot : w'.link.owing = false := by
        have := hstarts (by rw [hrest]; rfl)
        simp only [Entry.starts, Bool.or_eq_false_iff] at this
        simp [Link.owing, this.1.1]
      have hpay := hpays w' (by simp)
      simp only [List.cons_append, debtOf, hnot, Bool.false_eq_true, if_false, hrest,
        Option.filter, hpay, Bool.not_false, if_true]
    | restored r => exact absurd (hkeep (.restored r) (by simp)) (by simp [Entry.isReset])
    | wiped => exact absurd (hkeep .wiped (by simp)) (by simp [Entry.isReset])
    | _ => exact hrest

/-- In every run without restores and wipes whose restarts find the generation not just
wrapped to 0, nothing starts over an unpaid use. -/
theorem debt_discipline (h : Reachable E k) (hkeep : NoReset k.log) (hclean : CleanBoots k.log) :
    Disciplined E k := by
  have hwaits := h.trace.waits hclean
  have howes := h.trace.owes hclean
  constructor
  · intro post e pre d hlog hunpaid
    have hsuffix : pre <:+ k.log := ⟨post ++ [e], by simp [hlog]⟩
    have hwaits' : Waits E pre := by
      intro post' e' pre' hpre
      exact hwaits (post ++ e :: post') e' pre' (by simp [hlog, hpre])
    have hdebt := debtOf_of_unpaid hwaits' (fun e he => hkeep e (hsuffix.subset he)) hunpaid
    exact hwaits post e pre hlog (by rw [hdebt]; rfl)
  · intro d hunpaid
    have hdebt := debtOf_of_unpaid hwaits hkeep hunpaid
    rw [howes, EdgeState.debt] at hdebt
    split at hdebt
    · exact ⟨‹_›, Option.some.inj hdebt⟩
    · cases hdebt

theorem debt_discipline_of_use :
    Disciplined Demo.env (Demo.used 1 [1, 2, 3] 20 (Demo.opened 1 5 0 10 Demo.started)) := by
  have hnow : Demo.started.now ≤ 10 := by decide +kernel
  have hreach := Demo.reachable_used 1 [1, 2, 3] (n := 20)
    (Demo.reachable_opened 1 5 0 Demo.reachable_started hnow) (by decide +kernel)
  have hkeep := Demo.noReset_used 1 [1, 2, 3] (n := 20) (by decide +kernel)
    (Demo.noReset_opened 1 5 0 hnow Demo.started_noReset)
  exact debt_discipline hreach hkeep (by decide +kernel)

/-- The debt of a history is unpaid. -/
theorem unpaid_of_debtOf {log : List Entry} {d : OwedUse} (hkeep : NoReset log)
    (h : debtOf E log = some d) : Unpaid E log d := by
  induction log with
  | nil => cases h
  | cons e log ih =>
    have hkeep' : NoReset log := fun e' he' => hkeep e' (by simp [he'])
    have hlater : debtOf E log = some d → (∀ w, e = .link w → w.link.pays E d = false) →
        Unpaid E (e :: log) d := by
      intro hdebt hpays
      obtain ⟨post, w, pre, rfl, howing, hd, hrest⟩ := ih hkeep' hdebt
      refine ⟨e :: post, w, pre, rfl, howing, hd, fun w' hw' => ?_⟩
      rcases List.mem_cons.mp hw' with he | hw'
      · exact hpays w' he.symm
      · exact hrest w' hw'
    cases e with
    | link w =>
      rw [debtOf] at h
      split at h
      · exact ⟨[], w, log, rfl, ‹_›, (Option.some.inj h).symm, by simp⟩
      · obtain ⟨hdebt, hpays⟩ := Option.filter_eq_some_iff.mp h
        refine hlater hdebt fun w' hw' => ?_
        obtain rfl := Entry.link.inj hw'
        simpa using hpays
    | restored r => exact absurd (hkeep (.restored r) (by simp)) (by simp [Entry.isReset])
    | wiped => exact absurd (hkeep .wiped (by simp)) (by simp [Entry.isReset])
    | _ => exact hlater h fun w hw => by cases hw

namespace Demo

/-- A use linked by the save that wraps the generation, and a restart. -/
def wrappedUse : Key :=
  step env .restart (used 1 [1, 2, 3] 20 (opened 1 5 0 10 (idle 0xFFFFFFFE (againLogs 4294967291))))

end Demo

/-- At the wrap the restart loses the debt: the record before is the one it finds. -/
theorem debt_lost_at_wrap :
    ∃ k, Reachable Demo.env k ∧ NoReset k.log ∧ ¬ Disciplined Demo.env k := by
  have hidle := Demo.reachable_idle 4294967291 (by decide)
  have hnow : (Demo.idle 0xFFFFFFFE (Demo.againLogs 4294967291)).now ≤ 10 := by decide +kernel
  have hreach := Demo.reachable_used 1 [1, 2, 3] (n := 20)
    (Demo.reachable_opened 1 5 0 (n := 10) hidle hnow) (by decide +kernel)
  have hkeep := Demo.noReset_used 1 [1, 2, 3] (n := 20)
    (k := Demo.opened 1 5 0 10 (Demo.idle 0xFFFFFFFE (Demo.againLogs 4294967291)))
    (by decide +kernel) (Demo.noReset_opened 1 5 0 (n := 10) hnow (Demo.againLogs_noReset _))
  refine ⟨Demo.wrappedUse, hreach.event .restart trivial, hkeep.cons rfl, fun hdisc => ?_⟩
  have hdebt : (debtOf Demo.env Demo.wrappedUse.log).isSome = true := by decide +kernel
  have hlost : (Demo.wrappedUse.kept Demo.env).owes = false := by decide +kernel
  obtain ⟨d, hd⟩ := Option.isSome_iff_exists.mp hdebt
  have howed := hdisc.owed d (unpaid_of_debtOf (NoReset.cons hkeep rfl) hd)
  rw [hlost] at howed
  exact absurd howed.1 (by decide)

/-! ### Restores -/

/-- A use was linked on this key, and no receipt and no settle has paid what the key owed since;
a restore pays nothing. -/
def dueOf (E : Env) : List Entry → Bool
  | [] => false
  | .link w :: l =>
      if w.link.owing then true
      else if (debtOf E l).any fun d => w.link.pays E d then false
      else dueOf E l
  | .wiped :: _ => false
  | _ :: l => dueOf E l

/-- Every section restored while a use is due carries a debt. -/
def CarriesDebt (E : Env) (log : List Entry) : Prop :=
  History.Guarded (fun past e => ∀ r, e = .restored r → dueOf E past = true → r.owes = true) log

instance decidableCarries (E : Env) (past : List Entry) (e : Entry) :
    Decidable (∀ r, e = .restored r → dueOf E past = true → r.owes = true) :=
  match e with
  | .restored r =>
    decidable_of_iff (dueOf E past = true → r.owes = true)
      ⟨fun h r' he => Entry.restored.inj he ▸ h, fun h => h r rfl⟩
  | .link _ | .saved _ _ | .salt _ | .txStart _ _ | .primed _ _ | .label _ _ _ | .consumed
  | .asked _ _ _ | .opened _ _ | .ran _ | .wiped | .boot _ _ => isTrue fun r he => by cases he

instance (E : Env) : DecidablePred (CarriesDebt E) := fun log =>
  inferInstanceAs (Decidable (History.Guarded _ log))

/-- Where every restore carries a debt over, what is due is owed. -/
theorem debtOf_of_due {log : List Entry} (hcarry : CarriesDebt E log)
    (h : dueOf E log = true) : (debtOf E log).isSome = true := by
  induction log with
  | nil => cases h
  | cons e log ih =>
    obtain ⟨hrestore, hcarry'⟩ := History.guarded_cons.mp hcarry
    cases e with
    | link w =>
      rw [dueOf] at h
      rw [debtOf]
      split
      · rfl
      · rename_i howing
        rw [if_neg howing] at h
        rcases hpaid : (debtOf E log).any fun d => w.link.pays E d with - | -
        · rw [hpaid] at h
          obtain ⟨d, hd⟩ := Option.isSome_iff_exists.mp (ih hcarry' h)
          rw [hd] at hpaid ⊢
          simp only [Option.any_some] at hpaid
          simp [Option.filter, hpaid]
        · rw [hpaid] at h
          cases h
    | restored r =>
      have howes := hrestore r rfl h
      simp [debtOf, howes]
    | wiped => cases h
    | _ => exact ih hcarry' h

/-- Nothing can pay while the record owes. -/
theorem budgetFor_of_owes (hsane : Sane k) (howes : (k.kept E).owes = true) (t : Clock)
    (op slot : UInt8) (label : Option (Bytes labelPrefix)) :
    k.budgetFor t op slot label = none := by
  rw [Key.budgetFor, if_pos]
  rcases hs : k.started with - | -
  · rfl
  · have hload := hsane.loaded (hsane.started hs)
    rw [kept_of_loaded hload] at howes
    simp [Key.budgetsMayPay, howes]

/-- What is due stays owed: nothing starts and no budget pays. -/
structure Unforgiven (E : Env) (k : Key) : Prop where
  guarded : ∀ post e pre, k.log = post ++ e :: pre → dueOf E pre = true → e.starts = false
  owed : dueOf E k.log = true → (k.kept E).owes = true
  unpaid : dueOf E k.log = true → ∀ t op slot label, k.budgetFor t op slot label = none

/-- In every run where each section restored over a due use carries a debt, and whose restarts
find the generation not just wrapped to 0, a restore forgives nothing. -/
theorem restore_never_forgives (h : Reachable E k) (hcarry : CarriesDebt E k.log)
    (hclean : CleanBoots k.log) : Unforgiven E k := by
  have hwaits := h.trace.waits hclean
  have howed : dueOf E k.log = true → (k.kept E).owes = true := by
    intro hdue
    have hdebt := debtOf_of_due hcarry hdue
    by_contra hno
    rw [h.trace.owes hclean, debt_eq_none (by simpa using hno)] at hdebt
    cases hdebt
  refine ⟨fun post e pre hlog hdue => ?_, howed, fun hdue => ?_⟩
  · have hpast : CarriesDebt E pre := by
      intro post' e' pre' hpre
      exact hcarry (post ++ e :: post') e' pre' (by simp [hlog, hpre])
    exact hwaits post e pre hlog (debtOf_of_due hpast hdue)
  · exact budgetFor_of_owes h.trace.sane (howed hdue)

namespace Demo

/-- A key with an open budget, and the section backed up then. -/
def backedUp : Key := opened 1 5 0 10 started

/-- The backup of a key before its use. -/
def earlySection : List UInt8 := (backedUp.hush.backup env draw 200).2

/-- The section is restored after a use. -/
def forgiven : Key :=
  step env (.restore earlySection) (used 1 [1, 2, 3] 20 (step env (.backup draw 200) backedUp))

/-- The run of the restore can happen. -/
theorem reachable_forgiven : Reachable env forgiven := by
  have hopened : Reachable env backedUp := reachable_opened 1 5 0 reachable_started (by decide +kernel)
  have hused := reachable_used 1 [1, 2, 3] (n := 20)
    (hopened.event (.backup draw 200) trivial) (by decide +kernel)
  exact hused.event (.restore earlySection) trivial

/-- A key that owes for a use, and the section backed up then. -/
def owing : Key := used 1 [1, 2, 3] 20 backedUp

/-- The backup of a key that owes a receipt. -/
def lateSection : List UInt8 := (owing.hush.backup env draw 200).2

/-- That section is restored over the due use. -/
def carried : Key := step env (.restore lateSection) (step env (.backup draw 200) owing)

theorem reachable_carried : Reachable env carried := by
  have hopened : Reachable env backedUp := reachable_opened 1 5 0 reachable_started (by decide +kernel)
  have howing : Reachable env owing := reachable_used 1 [1, 2, 3] hopened (by decide +kernel)
  exact (howing.event (.backup draw 200) trivial).event (.restore lateSection) trivial

end Demo

/-- The section of the key that owes carries the debt: it is restored over the use that is due,
and the use stays owed. -/
theorem restore_never_forgives_of_restore :
    dueOf Demo.env Demo.owing.log = true ∧
      Demo.carried.log.any (fun e => e.isReset) = true ∧
      dueOf Demo.env Demo.carried.log = true ∧ Unforgiven Demo.env Demo.carried := by
  refine ⟨by decide +kernel, by decide +kernel, by decide +kernel, ?_⟩
  exact restore_never_forgives Demo.reachable_carried (by decide +kernel) (by decide +kernel)

/-- A section backed up before the use forgives it. -/
theorem early_section_forgives :
    ∃ k, Reachable Demo.env k ∧ CleanBoots k.log ∧ ¬ Unforgiven Demo.env k := by
  refine ⟨Demo.forgiven, Demo.reachable_forgiven, by decide +kernel, fun h => ?_⟩
  have hdue : dueOf Demo.env Demo.forgiven.log = true := by decide +kernel
  have hfree : (Demo.forgiven.kept Demo.env).owes = false := by decide +kernel
  have howed := h.owed hdue
  rw [hfree] at howed
  cases howed

end OkRn.Edge
