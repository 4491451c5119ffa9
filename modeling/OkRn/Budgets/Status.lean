/-
OkRn/Budgets/Status.lean

The status word of a budget: active, validated, settled, unchecked or failed.

`budgetStatus` reads three counts that should agree: the spends that `budgetFrom` counts in
the copy and by their steps, the receipts it counts, and the rows of the view, each with its
own check and its answer.  The steps tell of a spend that the copy misses, unless it is one
of the last.  Whether the budget is live is known of this phone's key only: another device's
budgets are all shown as not live.

The pairing of uses with receipts and settles is the library's, and so is the check of the
copy; `Trusted` is what is taken of both.

Main result: `status_is_earned_iff`.

* `CopyCheck` is what the library's check gives of a copy, and `Trusted` what the phone
  relies on of it;
* `Earned` is what a green card should mean of the key's own chain;
* `Vouched` is what the copy itself shows, and `Complete` that it misses no spend and
  that the budget is over.
-/
import OkRn.Budgets.Left
import OkRn.Edge.Demo
import OkRn.Store.Check

namespace OkRn.Budgets

open OkRn.Edge

/-! ### The view -/

/-- The state of a use in `receipts.pairReceipts`. -/
inductive PairStatus
  | receipted
  | alarm
  | waiting
  | missing
  | noReceiptOwed
  | settled
  deriving DecidableEq

/-- What a use is paired with: the seq of its receipt, or of the settle that cleared it. -/
structure Paired where
  status : PairStatus
  receipt : Option UInt32
  settledBy : Option UInt32
  deriving DecidableEq

/-- A row of the view: a link, whether it was checked, and what answers it. -/
structure EdgeRow where
  fields : Link
  verified : Bool
  receipt : Option Paired

/-- What a check of the copy says, in whole and row by row. -/
structure EdgeView where
  verdict : Store.Verdict
  rows : List EdgeRow

/-- What a check says of a copy, and the pairing by the use's seq. -/
structure CopyCheck where
  verdict : Store.Verdict
  unverified : List UInt32
  pair : UInt32 → Option Paired

/-- The row of a link. -/
def CopyCheck.row (check : CopyCheck) (f : Link) : EdgeRow :=
  ⟨f, !check.unverified.contains f.seq, check.pair f.seq⟩

/-- `rowsOf`, newest first. -/
def rowsOf (copy : List Link) (check : CopyCheck) : List EdgeRow := (copy.map check.row).reverse

/-- The view of a copy after its check. -/
def CopyCheck.view (check : CopyCheck) (copy : List Link) : EdgeView :=
  ⟨check.verdict, rowsOf copy check⟩

/-! ### The status -/

/-- What the card of a budget says of it. -/
inductive BudgetStatus
  | active (owed : Nat) (live noUsesLeft : Bool)
  | validated (unused : Bool)
  | settled
  | unchecked
  | failed (seq : Int) (reason : String)
  deriving DecidableEq

namespace EdgeRow

/-- `answered`: the seq of the receipt. -/
def answered (r : EdgeRow) : Option UInt32 := r.receipt.bind Paired.receipt

/-- `settledBy`: the seq of the settle link that cleared the use. -/
def settledBy (r : EdgeRow) : Option UInt32 :=
  r.receipt.bind fun t => if t.status = .settled then t.settledBy else none

/-- One of `owedRows`: no receipt, no settle, and one is owed. -/
def owed (r : EdgeRow) : Bool :=
  r.answered.isNone &&
    (r.receipt.all fun t => decide (t.status ≠ .noReceiptOwed) && decide (t.status ≠ .settled))

end EdgeRow

/-- Is the row of this seq verified?  Of two rows with a seq the map keeps the later one. -/
def verifiedAt (rows : List EdgeRow) (seq : UInt32) : Bool :=
  (rows.reverse.find? fun r => r.fields.seq == seq).any EdgeRow.verified

/-- A use that is verified, and answered by a row that is. -/
def EdgeRow.checked (rows : List EdgeRow) (r : EdgeRow) : Bool :=
  r.verified && match r.answered with
    | some t => verifiedAt rows t
    | none => match r.settledBy with
      | some s => verifiedAt rows s
      | none => false

/-- The status, in the order of the source: a failed check first, then what is owed, then what is
checked. -/
def budgetStatus (b : EdgeBudget) (live : Bool) (view : Option EdgeView) : BudgetStatus :=
  match view.map EdgeView.verdict with
  | some (.tampered seq reason) => .failed seq reason
  | verdict =>
    let rows := (view.map EdgeView.rows).getD []
    let uses := rows.filter fun r =>
      r.fields.grantId == b.grantId && r.fields.decision == decisionSelfPress
    -- a count that is short in the copy, or a row without its answer
    let owed := max (uses.filter EdgeRow.owed).length (b.used - b.receiptsFiled)
    let noUsesLeft := !live || decide (0 < b.uses) && decide (b.uses ≤ b.used)
    if live || decide (0 < owed) then .active owed live noUsesLeft
    else
      let allChecked := uses.length == b.used && uses.all (EdgeRow.checked rows)
      if !verdict.any Store.Verdict.isVerified || !allChecked then .unchecked
      else if uses.any fun r => r.settledBy.isSome then .settled
      else .validated (b.used == 0)

/-! ### The budgets that are shown -/

/-- How a grant-end link says a budget ended. -/
def endName (decision : UInt8) : String :=
  if decision = endCompleted then "completed"
  else if decision = endSettled then "settled (incomplete)"
  else if decision = endRevoked then "revoked"
  else "ended"

/-- A budget of the history: with how it ended, and its first and last links. -/
structure PastBudget extends EdgeBudget where
  endedHow : String
  firstSeq : Option UInt32
  lastSeq : Option UInt32

/-- Is a budget past its lifetime, by the phone's clock? -/
def EdgeBudget.expired (now : Nat) (b : EdgeBudget) : Bool :=
  b.endsAt.any fun endsAt => decide (endsAt < now)

/-- A copy of a device's chain, with what the phone keeps and knows of its budgets.  `other` is
another device than this phone's key, and `live` is what the device's key lists. -/
structure Copy where
  links : List Link
  other : Bool
  live : List UInt32
  ids : List UInt32
  kept : UInt32 → Option Kept
  seen : UInt32 → Option Nat
  now : Nat

namespace Copy

/-- One budget of `historyOf`. -/
def past (c : Copy) (id : UInt32) : PastBudget :=
  let b := budgetFrom id (c.kept id) c.links c.other
  let ends := c.links.filter fun f => f.op == opGrantEnd && f.grantId == id
  let useSeqs := (c.links.filter fun f => f.grantId == id && f.op != opReceipt).map Link.seq
  let mine := c.links.filter fun f =>
    f.op != opReceipt && f.grantId == id || f.op == opReceipt && useSeqs.contains f.grantId
  let endSeen := (ends.head?.bind fun f => c.seen f.seq).or b.endedAt
  { b with
    endedHow := match ends.getLast? with
      | some f => endName f.decision
      | none => if b.expired c.now then "expired" else "lost when the key locked or restarted"
    firstSeq := mine.head?.map Link.seq
    lastSeq := mine.getLast?.map Link.seq
    endedAt := match b.endsAt with
      | none => endSeen
      | some endsAt => some ((endSeen.filter fun t => decide (t ≤ endsAt)).getD endsAt) }

/-- `historyOf`: the budgets with a record that are not in `live`, newest first. -/
def historyOf (c : Copy) (live : List UInt32) : List PastBudget :=
  ((c.ids.filter fun id => !live.contains id).map c.past).mergeSort
    fun a b => decide (b.grantId ≤ a.grantId)

/-- The budgets shown of a copy, each with whether it is shown as live: of another device's all
are past ones, and of this phone's key one past its lifetime is not live, whatever the key lists. -/
def shown (c : Copy) : List (EdgeBudget × Bool) :=
  if c.other then (c.historyOf []).map fun b => (b.toEdgeBudget, false)
  else
    (c.live.map fun id =>
      let b := budgetFrom id (c.kept id) c.links false
      (b, !b.expired c.now)) ++
    (c.historyOf c.live).map fun b => (b.toEdgeBudget, false)

end Copy

/-! ### What a status says -/

/-- A budget that its key lists and that is not past its lifetime. -/
def Copy.LiveOn (c : Copy) (b : EdgeBudget) : Prop :=
  b.grantId ∈ c.live ∧ b.expired c.now = false

/-- A link that the copy has and the check has verified. -/
def Copy.Verified (c : Copy) (check : CopyCheck) (f : Link) : Prop :=
  f ∈ c.links ∧ f.seq ∉ check.unverified

/-- A verified receipt of the chain for a use. -/
structure ReceiptOf (E : Env) (chain : List Link) (c : Copy) (check : CopyCheck) (u f : Link) :
    Prop where
  verified : c.Verified check f
  linked : f ∈ chain
  op : f.op = opReceipt
  use : f.grantId = u.seq
  plain : f.pressedSettle E u.seq = false

/-- A verified settle of the chain for a use. -/
structure SettleOf (E : Env) (chain : List Link) (c : Copy) (check : CopyCheck) (u f : Link) :
    Prop where
  verified : c.Verified check f
  linked : f ∈ chain
  op : f.op = opReceipt
  use : f.grantId = u.seq
  pressed : f.pressedSettle E u.seq = true

/-- A use that owes, and that no link of the chain pays. -/
def Owes (E : Env) (chain : List Link) (u : Link) : Prop :=
  u.owing = true ∧ ∀ f ∈ chain, ∀ head, f.pays E ⟨u.seq, head⟩ = false

/-- Validated or settled. -/
def BudgetStatus.done : BudgetStatus → Bool
  | .validated _ | .settled => true
  | _ => false

/-- A status says no more than the chain bears out. -/
structure Earned (E : Env) (chain : List Link) (c : Copy) (check : CopyCheck) (b : EdgeBudget)
    (status : BudgetStatus) : Prop where
  validated : ∀ unused, status = .validated unused →
    check.verdict.isVerified = true ∧ ¬ c.LiveOn b ∧ ∀ u ∈ spends chain b.grantId,
      c.Verified check u ∧ ∃ f, ReceiptOf E chain c check u f
  settled : status = .settled →
    (∃ u ∈ spends chain b.grantId, ∃ f, SettleOf E chain c check u f) ∧
      ∀ u ∈ spends chain b.grantId, c.Verified check u ∧
        ∃ f, ReceiptOf E chain c check u f ∨ SettleOf E chain c check u f
  paid : status.done = true → ∀ u ∈ spends chain b.grantId, ¬ Owes E chain u

/-- What is taken of the check and of the pairing: where a copy is verified, a verified row is a
link of the chain; only signs and decrypts are paired, each with the receipt or the settle that
names it. -/
structure Trusted (E : Env) (chain : List Link) (c : Copy) (check : CopyCheck) : Prop where
  own : check.verdict.isVerified = true → ∀ f, c.Verified check f → f ∈ chain
  use : ∀ u ∈ c.links, (check.pair u.seq).isSome = true → u.op = opSign ∨ u.op = opDecrypt
  receipt : ∀ q t s, check.pair q = some t → t.receipt = some s →
    ∃ f ∈ c.links, f.seq = s ∧ f.op = opReceipt ∧ f.grantId = q ∧ f.pressedSettle E q = false
  settle : ∀ q t s, check.pair q = some t → t.status = .settled → t.settledBy = some s →
    t.receipt = none ∧
      ∃ f ∈ c.links, f.seq = s ∧ f.op = opReceipt ∧ f.grantId = q ∧ f.pressedSettle E q = true

/-- The seq of what answers a use: its receipt, or the settle that cleared it. -/
def CopyCheck.Answer (check : CopyCheck) (u : Link) (s : UInt32) : Prop :=
  (check.row u).answered = some s ∨
    (check.row u).answered = none ∧ (check.row u).settledBy = some s

/-- A use that a settle cleared. -/
def CopyCheck.Cleared (check : CopyCheck) (u : Link) : Prop :=
  (check.row u).settledBy.isSome = true

/-- What the copy shows for a budget: it is verified, each spend that it has is verified and
answered by a verified link, and the steps of these spends are not past their number. -/
structure Vouched (c : Copy) (check : CopyCheck) (id : UInt32) : Prop where
  verdict : check.verdict.isVerified = true
  answered : ∀ u ∈ spentOf c.links id, u.seq ∉ check.unverified ∧
    ∃ s, check.Answer u s ∧ ∃ f, c.Verified check f ∧ f.seq = s
  steps : ∀ u ∈ spentOf c.links id, u.grantStep.toNat ≤ (spentOf c.links id).length

/-! ### Rows and counts -/

variable {E : Env} {chain : List Link} {c : Copy} {check : CopyCheck} {b : EdgeBudget}
  {live : Bool} {id : UInt32}

/-- The rows are those of the copy's links. -/
theorem mem_rowsOf {copy : List Link} {r : EdgeRow} :
    r ∈ rowsOf copy check ↔ ∃ f ∈ copy, check.row f = r := by
  simp [rowsOf]

/-- The rows taken for uses are those of the links taken for spends. -/
theorem uses_eq (copy : List Link) (id : UInt32) :
    (rowsOf copy check).filter
        (fun r => r.fields.grantId == id && r.fields.decision == decisionSelfPress) =
      rowsOf (spentOf copy id) check := by
  rw [rowsOf, rowsOf, List.filter_reverse, List.filter_map, spentOf]
  rfl

/-- A row with the seq is verified when a link with it was. -/
theorem verifiedAt_iff {seq : UInt32} :
    verifiedAt (rowsOf c.links check) seq = true ↔ ∃ f, c.Verified check f ∧ f.seq = seq := by
  rw [verifiedAt, rowsOf, List.reverse_reverse, List.find?_map]
  constructor
  · intro h
    obtain ⟨r, hr, hver⟩ := (Option.any_eq_true _ _).mp h
    obtain ⟨f, hf, rfl⟩ := Option.map_eq_some_iff.mp hr
    have hseq : f.seq = seq := by simpa [CopyCheck.row] using List.find?_some hf
    exact ⟨f, ⟨List.mem_of_find?_eq_some hf, by simpa [CopyCheck.row] using hver⟩, hseq⟩
  · rintro ⟨f, ⟨hf, hver⟩, rfl⟩
    have hsome : (c.links.find? ((fun r => r.fields.seq == f.seq) ∘ check.row)).isSome := by
      rw [List.find?_isSome]
      exact ⟨f, hf, by simp [CopyCheck.row]⟩
    obtain ⟨g, hg⟩ := Option.isSome_iff_exists.mp hsome
    have hseq : g.seq = f.seq := by simpa [CopyCheck.row] using List.find?_some hg
    rw [hg]
    simp [CopyCheck.row, hseq, hver]

theorem CopyCheck.Answer.unique {u : Link} {s t : UInt32} (hs : check.Answer u s)
    (ht : check.Answer u t) : s = t := by
  rcases hs with hs | ⟨hnone, hs⟩ <;> rcases ht with ht | ⟨hnone', ht⟩
  · exact Option.some.inj (hs.symm.trans ht)
  · exact absurd (hs.symm.trans hnone') (Option.some_ne_none s)
  · exact absurd (ht.symm.trans hnone) (Option.some_ne_none t)
  · exact Option.some.inj (hs.symm.trans ht)

/-- A use is checked when it was verified and its answer was. -/
theorem checked_iff {u : Link} :
    (check.row u).checked (rowsOf c.links check) = true ↔
      u.seq ∉ check.unverified ∧ ∃ s, check.Answer u s ∧ ∃ f, c.Verified check f ∧ f.seq = s := by
  rw [EdgeRow.checked, Bool.and_eq_true]
  refine and_congr (by simp [CopyCheck.row]) ?_
  rcases hans : (check.row u).answered with - | t
  · rcases hset : (check.row u).settledBy with - | s
    · simp [CopyCheck.Answer, hans, hset]
    · have hs : check.Answer u s := Or.inr ⟨hans, hset⟩
      constructor
      · exact fun h => ⟨s, hs, verifiedAt_iff.mp h⟩
      · rintro ⟨s', hs', hver⟩
        exact verifiedAt_iff.mpr (hs'.unique hs ▸ hver)
  · have ht : check.Answer u t := Or.inl hans
    constructor
    · exact fun h => ⟨t, ht, verifiedAt_iff.mp h⟩
    · rintro ⟨t', ht', hver⟩
      exact verifiedAt_iff.mpr (ht'.unique ht ▸ hver)

/-- An answered use is none of `owedRows`. -/
theorem owed_of_answer {u : Link} {s : UInt32} (h : check.Answer u s) :
    (check.row u).owed = false := by
  rcases h with h | ⟨-, h⟩
  · rw [EdgeRow.owed, h]
    rfl
  · obtain ⟨t, ht, hs⟩ := Option.bind_eq_some_iff.mp h
    have hsettled : t.status = .settled := by
      by_contra hne
      rw [if_neg hne] at hs
      cases hs
    rw [EdgeRow.owed, ht]
    simp [hsettled]

/-- The counts of a budget that is shown are those of `budgetFrom`. -/
structure Counted (c : Copy) (b : EdgeBudget) : Prop where
  used : b.used = max ((spentOf c.links b.grantId).foldl (fun m f => max m f.grantStep.toNat) 0)
    (spentOf c.links b.grantId).length
  filed : b.receiptsFiled = receipted c.links ((spentOf c.links b.grantId).map Link.seq)

/-- The counts of a card are those of its copy. -/
theorem counted_budgetFrom (id : UInt32) (kept : Option Kept) (other : Bool) :
    Counted c (budgetFrom id kept c.links other) := ⟨rfl, rfl⟩

/-- The history holds every budget of the copy that is not live. -/
theorem mem_historyOf {p : PastBudget} {live : List UInt32} :
    p ∈ c.historyOf live ↔ ∃ id ∈ c.ids, id ∉ live ∧ c.past id = p := by
  rw [Copy.historyOf, List.mem_mergeSort, List.mem_map]
  simp [List.mem_filter, and_assoc]

/-- Every card that is shown has such counts. -/
theorem counted_of_shown {card : EdgeBudget × Bool} (h : card ∈ c.shown) : Counted c card.1 := by
  rw [Copy.shown] at h
  split at h
  · obtain ⟨p, hp, rfl⟩ := List.mem_map.mp h
    obtain ⟨id, -, -, rfl⟩ := mem_historyOf.mp hp
    exact ⟨rfl, rfl⟩
  · rcases List.mem_append.mp h with h | h
    · obtain ⟨id, -, rfl⟩ := List.mem_map.mp h
      exact counted_budgetFrom _ _ _
    · obtain ⟨p, hp, rfl⟩ := List.mem_map.mp h
      obtain ⟨id, -, -, rfl⟩ := mem_historyOf.mp hp
      exact ⟨rfl, rfl⟩

theorem le_foldl_steps {ls : List Link} {m : Nat} :
    m ≤ ls.foldl (fun m f => max m f.grantStep.toNat) m ∧
      ∀ l ∈ ls, l.grantStep.toNat ≤ ls.foldl (fun m f => max m f.grantStep.toNat) m := by
  induction ls generalizing m with
  | nil => exact ⟨Nat.le_refl m, fun l hl => absurd hl List.not_mem_nil⟩
  | cons l ls ih =>
    obtain ⟨hm, hsteps⟩ := @ih (max m l.grantStep.toNat)
    refine ⟨(le_max_left _ _).trans hm, fun f hf => ?_⟩
    rcases List.mem_cons.mp hf with rfl | hf
    · exact (le_max_right _ _).trans hm
    · exact hsteps f hf

/-- As many are used as are taken for spends: no step is past their number. -/
theorem Counted.used_eq_iff (h : Counted c b) :
    b.used = (spentOf c.links b.grantId).length ↔
      ∀ u ∈ spentOf c.links b.grantId,
        u.grantStep.toNat ≤ (spentOf c.links b.grantId).length := by
  rw [h.used]
  constructor
  · intro heq u hu
    have hstep := (le_foldl_steps (m := 0)).2 u hu
    omega
  · intro hsteps
    exact max_eq_right (foldl_steps_le (Nat.zero_le _) hsteps)

/-- Every use that is answered counts among the filed. -/
theorem Counted.filed_of_answered (h : Counted c b) (hs : Trusted E chain c check)
    (hans : ∀ u ∈ spentOf c.links b.grantId, ∃ s, check.Answer u s) :
    b.receiptsFiled = (spentOf c.links b.grantId).length := by
  rw [h.filed, receipted]
  refine (List.countP_eq_length.mpr fun q hq => ?_).trans (List.length_map _)
  obtain ⟨u, hu, rfl⟩ := List.mem_map.mp hq
  obtain ⟨s, hanswer⟩ := hans u hu
  -- a settle names its use too
  have hnamed : ∃ f ∈ c.links, f.op = opReceipt ∧ f.grantId = u.seq := by
    rcases hanswer with hanswer | ⟨-, hanswer⟩
    · obtain ⟨t, ht, hreceipt⟩ := Option.bind_eq_some_iff.mp hanswer
      obtain ⟨f, hf, -, hop, huse, -⟩ := hs.receipt _ t s ht hreceipt
      exact ⟨f, hf, hop, huse⟩
    · obtain ⟨t, ht, hset⟩ := Option.bind_eq_some_iff.mp hanswer
      split at hset
      · rename_i hsettled
        obtain ⟨-, f, hf, -, hop, huse, -⟩ := hs.settle _ t s ht hsettled hset
        exact ⟨f, hf, hop, huse⟩
      · cases hset
  obtain ⟨f, hf, hop, huse⟩ := hnamed
  exact List.any_eq_true.mpr ⟨f, hf, by simp [hop, huse]⟩

/-! ### What the status comes to -/

/-- Settled or validated, for a budget that is shown as not live and that the copy vouches for. -/
theorem status_of_vouched (hcount : Counted c b) (hs : Trusted E chain c check)
    (h : Vouched c check b.grantId) :
    budgetStatus b false (some (check.view c.links)) =
      if ((rowsOf (spentOf c.links b.grantId) check).any fun r => r.settledBy.isSome) then .settled
      else .validated (b.used == 0) := by
  have hused := hcount.used_eq_iff.mpr h.steps
  have hfiled := hcount.filed_of_answered hs fun u hu =>
    (h.answered u hu).2.imp fun _ hs => hs.1
  -- every use is answered, so no row is owed
  have howed : (rowsOf (spentOf c.links b.grantId) check).filter EdgeRow.owed = [] := by
    refine List.filter_eq_nil_iff.mpr fun r hr => ?_
    obtain ⟨u, hu, rfl⟩ := mem_rowsOf.mp hr
    obtain ⟨s, hanswer, -⟩ := (h.answered u hu).2
    rw [owed_of_answer hanswer]
    exact Bool.false_ne_true
  have hall : (rowsOf (spentOf c.links b.grantId) check).all
      (EdgeRow.checked (rowsOf c.links check)) = true := by
    refine List.all_eq_true.mpr fun r hr => ?_
    obtain ⟨u, hu, rfl⟩ := mem_rowsOf.mp hr
    exact checked_iff.mpr (h.answered u hu)
  have hlength : (rowsOf (spentOf c.links b.grantId) check).length = b.used := by
    rw [rowsOf, List.length_reverse, List.length_map, hused]
  -- what is left of the status is its verdict
  have hverdict := h.verdict
  unfold budgetStatus
  simp only [Option.map_some, Option.getD_some, CopyCheck.view, uses_eq]
  split
  · rename_i heq
    rw [Option.some.inj heq] at hverdict
    cases hverdict
  · simp [howed, hall, hlength, hused, hfiled, hverdict]

/-- Only what the copy vouches for is validated or settled. -/
theorem vouched_of_done (hcount : Counted c b)
    (h : (budgetStatus b live (some (check.view c.links))).done = true) :
    live = false ∧ Vouched c check b.grantId := by
  unfold budgetStatus at h
  simp only [Option.map_some, Option.getD_some, CopyCheck.view, uses_eq] at h
  split at h
  · cases h
  · split at h
    · cases h
    · rename_i hidle
      split at h
      · cases h
      · rename_i hchecked
        simp only [Bool.or_eq_true, Bool.not_eq_true', not_or, Bool.not_eq_false,
          Bool.and_eq_true, beq_iff_eq] at hidle hchecked
        obtain ⟨hverdict, hlength, hall⟩ := hchecked
        rw [rowsOf, List.length_reverse, List.length_map] at hlength
        refine ⟨by simpa using hidle.1, hverdict, fun u hu => ?_,
          hcount.used_eq_iff.mp hlength.symm⟩
        exact checked_iff.mp (List.all_eq_true.mp hall _ (mem_rowsOf.mpr ⟨u, hu, rfl⟩))

/-- Without a view nothing is validated or settled. -/
theorem not_done_of_no_view : (budgetStatus b live none).done = false := by
  unfold budgetStatus
  simp only [Option.map_none, Option.getD_none]
  split <;> rfl

/-! ### The result -/

/-- Of this phone's key a budget that is shown as not live is not live. -/
theorem not_liveOn_of_shown {card : EdgeBudget × Bool} (h : card ∈ c.shown)
    (hother : c.other = false) (hlive : card.2 = false) : ¬ c.LiveOn card.1 := by
  rintro ⟨hmem, hexpired⟩
  rw [Copy.shown, hother, if_neg Bool.false_ne_true] at h
  rcases List.mem_append.mp h with h | h
  · obtain ⟨id, -, rfl⟩ := List.mem_map.mp h
    dsimp only at hexpired hlive
    rw [hexpired] at hlive
    cases hlive
  · obtain ⟨p, hp, rfl⟩ := List.mem_map.mp h
    obtain ⟨id, -, hid, rfl⟩ := mem_historyOf.mp hp
    exact hid hmem

/-- A spend of the chain that the copy holds is counted in the copy. -/
theorem mem_spentOf_of_spends {u : Link} (h : u ∈ spends chain id) (hu : u ∈ c.links) :
    u ∈ spentOf c.links id := by
  obtain ⟨-, hpress, hid⟩ := mem_spends.mp h
  simp only [Link.selfPress, Bool.and_eq_true, beq_iff_eq] at hpress
  exact mem_spentOf.mpr ⟨hu, hid, hpress.2⟩

/-- A verified spend is answered by a verified receipt, or cleared by a verified settle. -/
theorem Vouched.answer (h : Vouched c check id) (hs : Trusted E chain c check) {u : Link}
    (hu : u ∈ spentOf c.links id) : u ∈ spends chain id ∧ c.Verified check u ∧
      ((¬ check.Cleared u ∧ ∃ f, ReceiptOf E chain c check u f) ∨
        check.Cleared u ∧ ∃ f, SettleOf E chain c check u f) := by
  obtain ⟨hver, s, hanswer, g, ⟨-, hgver⟩, rfl⟩ := h.answered u hu
  obtain ⟨hmem, hid, hdecision⟩ := mem_spentOf.mp hu
  have hown : u ∈ chain := hs.own h.verdict u ⟨hmem, hver⟩
  have hpaired : (check.pair u.seq).isSome = true := by
    rcases hanswer with hanswer | ⟨-, hanswer⟩ <;>
      obtain ⟨t, ht, -⟩ := Option.bind_eq_some_iff.mp hanswer <;>
      exact Option.isSome_iff_exists.mpr ⟨t, ht⟩
  -- a receipt with a spend's decision is paired with nothing
  have hpress : u.selfPress = true := by
    rcases hs.use u hmem hpaired with hop | hop <;> simp [Link.selfPress, hop, hdecision]
  refine ⟨mem_spends.mpr ⟨hown, hpress, hid⟩, ⟨hmem, hver⟩, ?_⟩
  rcases hanswer with hanswer | ⟨-, hanswer⟩
  · left
    obtain ⟨t, ht, hreceipt⟩ := Option.bind_eq_some_iff.mp hanswer
    obtain ⟨f, hf, hseq, hop, huse, hplain⟩ := hs.receipt _ t _ ht hreceipt
    have hfver : c.Verified check f := ⟨hf, hseq ▸ hgver⟩
    refine ⟨fun hcleared => ?_, f, hfver, hs.own h.verdict f hfver, hop, huse, hplain⟩
    -- a use that a settle cleared has no receipt
    obtain ⟨s, hset⟩ := Option.isSome_iff_exists.mp hcleared
    obtain ⟨t', ht', hset⟩ := Option.bind_eq_some_iff.mp hset
    obtain rfl : t = t' := Option.some.inj (ht.symm.trans ht')
    split at hset
    · rename_i hsettled
      have hnone := (hs.settle _ t s ht hsettled hset).1
      exact Option.some_ne_none _ (hreceipt.symm.trans hnone)
    · cases hset
  · right
    obtain ⟨t, ht, hset⟩ := Option.bind_eq_some_iff.mp hanswer
    split at hset
    · rename_i hsettled
      obtain ⟨-, f, hf, hseq, hop, huse, hpressed⟩ := hs.settle _ t _ ht hsettled hset
      have hfver : c.Verified check f := ⟨hf, hseq ▸ hgver⟩
      exact ⟨Option.isSome_iff_exists.mpr ⟨_, hanswer⟩, f, hfver, hs.own h.verdict f hfver, hop,
        huse, hpressed⟩
    · cases hset

/-- A use that a link of the chain refers to owes no more. -/
theorem not_owes {u f : Link} (hf : f ∈ chain) (hop : f.op = opReceipt)
    (huse : f.grantId = u.seq) : ¬ Owes E chain u := by
  rintro ⟨-, hnone⟩
  have hpays := hnone f hf (Bytes.zero 32)
  simp [Link.pays, hop, huse] at hpays

/-- The rows of the spends have one that a settle cleared. -/
theorem any_settled_iff : ((rowsOf (spentOf c.links id) check).any fun r => r.settledBy.isSome) =
    true ↔ ∃ u ∈ spentOf c.links id, check.Cleared u := by
  rw [List.any_eq_true]
  constructor
  · rintro ⟨r, hr, hset⟩
    obtain ⟨u, hu, rfl⟩ := mem_rowsOf.mp hr
    exact ⟨u, hu, hset⟩
  · rintro ⟨u, hu, hset⟩
    exact ⟨check.row u, mem_rowsOf.mpr ⟨u, hu, rfl⟩, hset⟩

/-- For a budget that is shown as not live and that the copy vouches for: the copy misses no spend
of the chain, and another device's budget is not live on that device, or a settle cleared one of
its spends. -/
def Complete (chain : List Link) (c : Copy) (check : CopyCheck) (card : EdgeBudget × Bool) : Prop :=
  card.2 = false → Vouched c check card.1.grantId →
    (∀ u ∈ spends chain card.1.grantId, u ∈ c.links) ∧
      (c.other = true → c.LiveOn card.1 → ∃ u ∈ spentOf c.links card.1.grantId, check.Cleared u)

/-- Validated and settled say no more than the chain bears out exactly when what the copy vouches
for is complete. -/
theorem status_is_earned_iff (hs : Trusted E chain c check) {card : EdgeBudget × Bool}
    (hcard : card ∈ c.shown) :
    Earned E chain c check card.1 (budgetStatus card.1 card.2 (some (check.view c.links))) ↔
      Complete chain c check card := by
  obtain ⟨b, live⟩ := card
  have hcount : Counted c b := counted_of_shown hcard
  constructor
  · -- the status is one of the two, so what it promises is there
    intro hearned (hlive : live = false) hvouched
    subst hlive
    have hstatus := status_of_vouched hcount hs hvouched
    by_cases hcleared : ∃ u ∈ spentOf c.links b.grantId, check.Cleared u
    · rw [if_pos (any_settled_iff.mpr hcleared)] at hstatus
      refine ⟨fun u hu => ?_, fun _ _ => hcleared⟩
      exact ((hearned.settled hstatus).2 u hu).1.1
    · rw [if_neg (any_settled_iff.not.mpr hcleared)] at hstatus
      -- nothing was settled: the status says that it was not
      obtain ⟨-, hnot, hspends⟩ := hearned.validated _ hstatus
      exact ⟨fun u hu => (hspends u hu).1.1, fun _ hliveOn => absurd hliveOn hnot⟩
  · intro hcomplete
    -- a status that is not done promises nothing
    by_cases hdone : (budgetStatus b live (some (check.view c.links))).done = true
    · -- whatever is done is vouched for
      obtain ⟨rfl, hvouched⟩ := vouched_of_done hcount hdone
      obtain ⟨hmem, hliveOn⟩ := hcomplete rfl hvouched
      have hstatus := status_of_vouched hcount hs hvouched
      have hanswer (u : Link) (hu : u ∈ spends chain b.grantId) :=
        hvouched.answer hs (mem_spentOf_of_spends hu (hmem u hu))
      refine ⟨fun unused heq => ?_, fun heq => ?_, fun _ u hu howes => ?_⟩
      · have hnone : ¬ ∃ u ∈ spentOf c.links b.grantId, check.Cleared u := by
          intro hcleared
          rw [if_pos (any_settled_iff.mpr hcleared), heq] at hstatus
          cases hstatus
        refine ⟨hvouched.verdict, fun hon => ?_, fun u hu => ?_⟩
        · by_cases hother : c.other = true
          · exact hnone (hliveOn hother hon)
          · exact not_liveOn_of_shown hcard (by simpa using hother) rfl hon
        · obtain ⟨-, hver, ⟨-, hreceipt⟩ | ⟨hcleared, -⟩⟩ := hanswer u hu
          · exact ⟨hver, hreceipt⟩
          · exact absurd ⟨u, mem_spentOf_of_spends hu (hmem u hu), hcleared⟩ hnone
      · have hcleared : ∃ u ∈ spentOf c.links b.grantId, check.Cleared u := by
          by_contra hnone
          rw [if_neg (any_settled_iff.not.mpr hnone), heq] at hstatus
          cases hstatus
        obtain ⟨u, hu, hcleared⟩ := hcleared
        obtain ⟨hspend, -, ⟨hnot, -⟩ | ⟨-, hsettle⟩⟩ := hvouched.answer hs hu
        · exact absurd hcleared hnot
        refine ⟨⟨u, hspend, hsettle⟩, fun v hv => ?_⟩
        obtain ⟨-, hver, ⟨-, f, hf⟩ | ⟨-, f, hf⟩⟩ := hanswer v hv
        · exact ⟨hver, f, Or.inl hf⟩
        · exact ⟨hver, f, Or.inr hf⟩
      · obtain ⟨-, -, ⟨-, f, hf⟩ | ⟨-, f, hf⟩⟩ := hanswer u hu
        · exact not_owes hf.linked hf.op hf.use howes
        · exact not_owes hf.linked hf.op hf.use howes
    · refine ⟨fun unused heq => ?_, fun heq => ?_, fun h => absurd h hdone⟩
      · rw [heq] at hdone
        exact absurd rfl hdone
      · rw [heq] at hdone
        exact absurd rfl hdone

/-! ### Three copies -/

namespace Demo

/-- The opening of budget 1. -/
def openingOf : Link :=
  { Link.blank with op := opGrantCreate, decision := decisionApprove, grantId := 1, scope := 1 }

/-- A use of budget 1 that owes a receipt. -/
def owingUse (seq : UInt32) (step : UInt16) : Link :=
  { useOf seq 1 with flags := flagOwesReceipt ||| flagBudgetSpent, grantStep := step }

/-- One use of three, with its receipt. -/
def onceUsed : List Link := [openingOf, owingUse 1 1, receiptOf 0]

/-- Budget 1 is revoked. -/
def revoked (seq : UInt32) : Link :=
  { Link.blank with seq := seq, op := opGrantEnd, decision := endRevoked, grantId := 1 }

/-- Link 3 is accepted as lost. -/
def lossOf : Link :=
  { Link.blank with
    seq := 5, op := opLoss, decision := decisionApprove, flags := flagPressObserved, grantId := 3 }

/-- Two uses, the second of them without a receipt. -/
def twiceUsed : List Link := onceUsed ++ [owingUse 3 2, revoked 4, lossOf]

/-- The check of a copy in which use 1 is paired with receipt 2. -/
def checkOf (verdict : Store.Verdict) (unverified : List UInt32) : CopyCheck where
  verdict := verdict
  unverified := unverified
  pair := fun q => if q = 1 then some ⟨.receipted, some 2, none⟩ else none

/-- A copy with these links and the record of budget 1, a minute after it was opened. -/
def copyOf (links : List Link) (other : Bool) (live : List UInt32) : Copy where
  links := links
  other := other
  live := live
  ids := [1]
  kept := fun _ => some (record [⟨opSign, 221, 3⟩])
  seen := fun _ => none
  now := 60001

/-- A chain of a budget with one scope. -/
theorem written_of_scope {copy : List Link}
    (hspends : ∀ l ∈ spends copy 1, (l.op = opSign ∧ l.slot = 221 ∧ l.scope = 1) ∧
      l.grantStep.toNat ≤ (spends copy 1).length)
    (hroom : (spends copy 1).length ≤ 3)
    (hothers : ∀ l ∈ copy, l.decision = decisionSelfPress →
      l.selfPress = true ∨ l.op = opReceipt ∨ l.op = opGrantEnd) :
    Written copy 1 (record [⟨opSign, 221, 3⟩]) where
  uses := rfl
  ops := by decide
  named := by
    intro l hl
    obtain ⟨⟨hop, hslot, hscope⟩, -⟩ := hspends l hl
    exact ⟨0, ⟨opSign, 221, 3⟩, rfl, by rw [hscope]; rfl, hop, hslot⟩
  room := by
    intro j sc hsc
    have hle : paidBy copy 1 j ≤ 3 := List.countP_le_length.trans hroom
    cases j with
    | zero => obtain rfl := Option.some.inj hsc; exact Int.ofNat_le.mpr hle
    | succ j => cases hsc
  others := hothers
  steps := fun l hl => (hspends l hl).2

/-- The pairing of the tests answers one use. -/
theorem pair_checkOf {verdict : Store.Verdict} {unverified : List UInt32} {q : UInt32} {t : Paired}
    (h : (checkOf verdict unverified).pair q = some t) :
    q = 1 ∧ t = ⟨.receipted, some 2, none⟩ := by
  change (if q = 1 then some (⟨.receipted, some 2, none⟩ : Paired) else none) = some t at h
  split at h
  · exact ⟨‹_›, (Option.some.inj h).symm⟩
  · cases h

/-- A copy with use 1 and receipt 2 in it. -/
theorem trusted_of_links {chain : List Link} {c : Copy} {verdict : Store.Verdict}
    {unverified : List UInt32} (hown : ∀ f ∈ c.links, f ∈ chain)
    (huse : ∀ u ∈ c.links, u.seq = 1 → u.op = opSign) (hreceipt : receiptOf 0 ∈ c.links) :
    Trusted Edge.Demo.env chain c (checkOf verdict unverified) where
  own := fun _ f hf => hown f hf.1
  use := by
    intro u hu hpair
    obtain ⟨t, hpair⟩ := Option.isSome_iff_exists.mp hpair
    exact Or.inl (huse u hu (pair_checkOf hpair).1)
  receipt := by
    intro q t s hpair hs
    obtain ⟨rfl, rfl⟩ := pair_checkOf hpair
    obtain rfl := Option.some.inj hs
    exact ⟨receiptOf 0, hreceipt, rfl, rfl, rfl, rfl⟩
  settle := by
    intro q t s hpair hsettled
    obtain ⟨-, rfl⟩ := pair_checkOf hpair
    cases hsettled

/-- Another device's budget is among the cards, and so is one of this phone that is not live. -/
theorem past_mem_shown {links : List Link} {other : Bool} {live : List UInt32}
    (h : other = true ∨ live = []) :
    (((copyOf links other live).past 1).toEdgeBudget, false) ∈ (copyOf links other live).shown := by
  have hmem {live' : List UInt32} (h : 1 ∉ live') :
      (copyOf links other live).past 1 ∈ (copyOf links other live).historyOf live' :=
    mem_historyOf.mpr ⟨1, List.mem_singleton.mpr rfl, h, rfl⟩
  rw [Copy.shown]
  by_cases hother : other = true
  · rw [if_pos (show (copyOf links other live).other = true from hother)]
    exact List.mem_map.mpr ⟨_, hmem List.not_mem_nil, rfl⟩
  · rw [if_neg (show ¬ (copyOf links other live).other = true from hother)]
    obtain rfl := h.resolve_left hother
    exact List.mem_append_right _ (List.mem_map.mpr ⟨_, hmem List.not_mem_nil, rfl⟩)

/-- A revoked budget with its one use receipted, in a copy that misses nothing. -/
theorem status_is_earned_revoked :
    Earned Edge.Demo.env (onceUsed ++ [revoked 3]) (copyOf (onceUsed ++ [revoked 3]) false [])
      (checkOf (.verified 3 []) [])
      ((copyOf (onceUsed ++ [revoked 3]) false []).past 1).toEdgeBudget (.validated false) := by
  have htrusted : Trusted Edge.Demo.env (onceUsed ++ [revoked 3])
      (copyOf (onceUsed ++ [revoked 3]) false []) (checkOf (.verified 3 []) []) :=
    trusted_of_links (fun f hf => hf) (by decide) (by decide)
  refine (status_is_earned_iff htrusted (past_mem_shown (Or.inr rfl))).mpr fun _ _ =>
    ⟨fun u hu => (mem_spends.mp hu).1, fun h => ?_⟩
  cases h

/-- A budget of another device that is live there is validated after its first use; and so is one
whose last use is in a range that was accepted as lost, and owes its receipt. -/
theorem validated_without_its_last_spend :
    (Written onceUsed 1 (record [⟨opSign, 221, 3⟩]) ∧
      Trusted Edge.Demo.env onceUsed (copyOf onceUsed true [1]) (checkOf (.verified 2 []) []) ∧
      ∃ card ∈ (copyOf onceUsed true [1]).shown, ¬ Earned Edge.Demo.env onceUsed
        (copyOf onceUsed true [1]) (checkOf (.verified 2 []) []) card.1
        (budgetStatus card.1 card.2 (some ((checkOf (.verified 2 []) []).view onceUsed)))) ∧
    Written twiceUsed 1 (record [⟨opSign, 221, 3⟩]) ∧
      Trusted Edge.Demo.env twiceUsed (copyOf (twiceUsed.eraseIdx 3) false [])
        (checkOf (.verified 5 [⟨3, 3⟩]) [3]) ∧
      ∃ card ∈ (copyOf (twiceUsed.eraseIdx 3) false []).shown, ¬ Earned Edge.Demo.env twiceUsed
        (copyOf (twiceUsed.eraseIdx 3) false []) (checkOf (.verified 5 [⟨3, 3⟩]) [3]) card.1
        (budgetStatus card.1 card.2
          (some ((checkOf (.verified 5 [⟨3, 3⟩]) [3]).view (twiceUsed.eraseIdx 3)))) := by
  refine ⟨⟨written_of_scope (by decide) (by decide) (by decide),
      trusted_of_links (fun f hf => hf) (by decide) (by decide), _, past_mem_shown (Or.inl rfl), ?_⟩,
    written_of_scope (by decide) (by decide) (by decide),
    trusted_of_links (by decide) (by decide) (by decide), _, past_mem_shown (Or.inr rfl), ?_⟩
  · intro h
    exact (h.validated false rfl).2.1 ⟨by decide, by decide⟩
  · intro h
    refine h.paid rfl (owingUse 3 2) (by decide) ⟨by decide, fun f hf head => ?_⟩
    simp only [twiceUsed, onceUsed, List.cons_append, List.nil_append, List.mem_cons,
      List.not_mem_nil, or_false] at hf
    rcases hf with rfl | rfl | rfl | rfl | rfl | rfl <;> rfl

end Demo

end OkRn.Budgets
