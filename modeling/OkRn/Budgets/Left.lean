/-
OkRn/Budgets/Left.lean

What is left of a budget, counted twice on the phone.

`ended` offers to continue a budget the key no longer has, with what its spends left of
each scope; `budgetFrom` shows what was used of each.  The key names in byte 46 of a
spend the scope that paid.  `budgetFrom` reads that byte, when every link it takes for
a spend has one; `ended` goes by op and slot, which two scopes may share.  Both take a
link for a spend by its decision byte and its grant id, which in a receipt are the code
and the seq it answers.

Main result: `continue_offers_what_is_left_iff`, over the chains a key writes
(`Written`).

* `paidBy` counts what a scope paid, by byte 46; `usesAt` what the phone counts for
  the scope's op and slot;
* `Told` asks that no scope with something left shares its op and slot with another
  one that paid, and that no receipt of the chain looks like a spend of the budget;
* the two counts are compared scope by scope, and then over all scopes.
-/
import OkRn.Edge.Ledger
import Mathlib.Algebra.Order.BigOperators.Group.List
import Mathlib.Algebra.BigOperators.Group.Finset.Basic

namespace OkRn.Budgets

open OkRn.Edge

/-! ### The record of a budget -/

/-- A scope of a budget, its cap or what is left of it. -/
structure KeptScope where
  op : UInt8
  slot : UInt8
  cap : Int
  deriving DecidableEq

/-- `Kept`: what the phone keeps of a budget it approved. -/
structure Kept where
  reason : String
  scopes : List KeptScope
  uses : Nat
  sender : String
  /-- In minutes; 0 is the default. -/
  lifetime : Nat
  /-- By the phone's clock; 0 is none. -/
  opened : Nat
  continued : Bool
  dismissed : Bool
  endedAt : Option Nat
  computer : Option String

/-- `DEFAULT_LIFETIME_MINUTES`. -/
def defaultLifetimeMinutes : Nat := 12 * 60

/-- A budget without a lifetime has the default one. -/
def Kept.lifetimeMinutes (kept : Kept) : Nat :=
  if kept.lifetime = 0 then defaultLifetimeMinutes else kept.lifetime

/-- The whole minutes left of the lifetime. -/
def Kept.minutesLeft (kept : Kept) (now : Nat) : Int :=
  ((kept.lifetimeMinutes : Int) * 60000 - ((now : Int) - kept.opened)) / 60000

/-! ### The two counts -/

/-- The links of a copy that are taken for spends of a budget. -/
def spentOf (copy : List Link) (id : UInt32) : List Link :=
  copy.filter fun f => f.grantId == id && f.decision == decisionSelfPress

/-- The spends with a scope's op and slot. -/
def usesAt (spent : List Link) (sc : KeptScope) : Nat :=
  spent.countP fun f => f.op == sc.op && f.slot == sc.slot

/-- A budget that is offered to be continued. -/
structure EdgeEnded where
  grantId : UInt32
  reason : String
  scopes : List KeptScope
  usesLeft : Int
  minutesLeft : Int
  agent : Option String
  deriving DecidableEq

/-- The record `id` in `SoftKeyEdge.ended`; `live` are the budgets the key lists. -/
def ended (copy : List Link) (live : List UInt32) (now : Nat) (id : UInt32) (kept : Kept) :
    Option EdgeEnded :=
  if kept.continued || kept.dismissed || decide (kept.opened = 0) || live.contains id then none
  else if copy.any fun f => f.op == opGrantEnd && f.grantId == id then none
  else
    let spent := spentOf copy id
    let scopes := (kept.scopes.map fun sc => { sc with cap := sc.cap - usesAt spent sc }).filter
      fun sc => decide (0 < sc.cap)
    if scopes.isEmpty || decide (kept.minutesLeft now < 1) then none
    else some ⟨id, kept.reason, scopes, (scopes.map KeptScope.cap).sum, kept.minutesLeft now,
      kept.computer.map fun _ => kept.sender⟩

/-- The uses among some that a receipt of the copy answers. -/
def receipted (copy : List Link) (uses : List UInt32) : Nat :=
  uses.countP fun q => copy.any fun f => f.op == opReceipt && f.grantId == q

/-- A scope with what was used of it. -/
structure ScopeUsed extends KeptScope where
  used : Nat
  deriving DecidableEq

/-- A budget as the screen shows it. -/
structure EdgeBudget where
  grantId : UInt32
  reason : String
  computerId : Option String
  uses : Nat
  used : Nat
  scopes : List ScopeUsed
  exact : Bool
  endsAt : Option Nat
  openedAt : Option Nat
  lifetime : Nat
  receiptsFiled : Nat
  endedAt : Option Nat
  agent : Option String

/-- `SoftKeyEdge.budgetFrom`; `other` is another device's budget. -/
def budgetFrom (id : UInt32) (kept : Option Kept) (copy : List Link) (other : Bool) : EdgeBudget :=
  let spent := spentOf copy id
  let exact := !spent.isEmpty && spent.all fun f => f.scope != 0
  let stepsSpent := spent.foldl (fun m f => max m f.grantStep.toNat) 0
  let opened := kept.bind fun kept => if kept.opened = 0 then none else some kept.opened
  let lifetime := (kept.map Kept.lifetimeMinutes).getD defaultLifetimeMinutes
  { grantId := id
    reason := (kept.map Kept.reason).getD s!"Budget {id.toNat} (opened elsewhere)"
    computerId := kept.bind Kept.computer
    uses := (kept.map Kept.uses).getD spent.length
    used := max stepsSpent spent.length
    scopes := ((kept.map Kept.scopes).getD []).mapIdx fun j sc =>
      ⟨sc, if exact then spent.countP fun f => f.scope.toNat == j + 1 else usesAt spent sc⟩
    exact := exact || spent.isEmpty
    endsAt := opened.map fun opened => opened + lifetime * 60000
    openedAt := opened
    lifetime := lifetime
    receiptsFiled := receipted copy (spent.map Link.seq)
    endedAt := kept.bind Kept.endedAt
    agent := kept.bind fun kept =>
      if kept.computer.isSome || other && !kept.sender.isEmpty then some kept.sender else none }

/-! ### What the key counted -/

/-- The spends of a budget. -/
def spends (copy : List Link) (id : UInt32) : List Link :=
  copy.filter fun l => l.selfPress && l.grantId == id

/-- The spends that a scope paid. -/
def paidBy (copy : List Link) (id : UInt32) (j : Nat) : Nat :=
  (spends copy id).countP fun l => l.scope.toNat == j + 1

/-- What is left of each scope, for those with something left. -/
def left (copy : List Link) (id : UInt32) (kept : Kept) : List KeptScope :=
  (kept.scopes.zipIdx.map fun x => { x.1 with cap := x.1.cap - paidBy copy id x.2 }).filter
    fun sc => decide (0 < sc.cap)

/-- A chain that the key can have written, for a budget with this record: each spend names the scope
that paid, none of them more often than its cap, and only a receipt or a budget's end can
carry a spend's decision without being one. -/
structure Written (copy : List Link) (id : UInt32) (kept : Kept) : Prop where
  uses : (kept.scopes.map KeptScope.cap).sum = kept.uses
  ops : ∀ sc ∈ kept.scopes, sc.op = opSign ∨ sc.op = opDecrypt
  named : ∀ l ∈ spends copy id, ∃ j sc, kept.scopes[j]? = some sc ∧ l.scope.toNat = j + 1 ∧
    l.op = sc.op ∧ l.slot = sc.slot
  room : ∀ j sc, kept.scopes[j]? = some sc → (paidBy copy id j : Int) ≤ sc.cap
  others : ∀ l ∈ copy, l.decision = decisionSelfPress →
    l.selfPress = true ∨ l.op = opReceipt ∨ l.op = opGrantEnd
  steps : ∀ l ∈ spends copy id, l.grantStep.toNat ≤ (spends copy id).length

/-- A budget to continue: the record is not answered, the key does not list the budget and did not
end it, and time is left. -/
structure ToContinue (copy : List Link) (live : List UInt32) (now : Nat) (id : UInt32)
    (kept : Kept) : Prop where
  waiting : kept.continued = false ∧ kept.dismissed = false ∧ kept.opened ≠ 0
  gone : id ∉ live
  unended : ∀ l ∈ copy, l.op = opGrantEnd → l.grantId ≠ id
  time : 1 ≤ kept.minutesLeft now

/-- The offer is what is left, and what is shown as used is what the key counted. -/
structure OffersLeft (copy : List Link) (live : List UInt32) (now : Nat) (id : UInt32)
    (kept : Kept) : Prop where
  offered : ended copy live now id kept =
    if left copy id kept = [] then none
    else some ⟨id, kept.reason, left copy id kept, kept.uses - (spends copy id).length,
      kept.minutesLeft now, kept.computer.map fun _ => kept.sender⟩
  agreed : ∀ other, (budgetFrom id (some kept) copy other).scopes =
    kept.scopes.mapIdx fun j sc => ⟨sc, paidBy copy id j⟩
  counted : ∀ other, (budgetFrom id (some kept) copy other).used = (spends copy id).length

/-- No scope with something left shares its op and slot with another that has paid, and no receipt
is taken for a spend. -/
structure Told (copy : List Link) (id : UInt32) (kept : Kept) : Prop where
  unshared : ∀ j sc, kept.scopes[j]? = some sc → (paidBy copy id j : Int) < sc.cap →
    ∀ l ∈ spends copy id, l.op = sc.op → l.slot = sc.slot → l.scope.toNat = j + 1
  plain : ∀ l ∈ copy, l.op = opReceipt → l.grantId = id → l.decision ≠ decisionSelfPress

/-! ### Lists -/

section

variable {α : Type}

/-- One property within another, and as often. -/
theorem countP_eq_iff {p q : α → Bool} {l : List α} (hpq : ∀ x ∈ l, p x = true → q x = true) :
    l.countP p = l.countP q ↔ ∀ x ∈ l, q x = true → p x = true := by
  constructor
  · intro heq x hx hq
    by_contra hp
    have hle : l.countP p < l.countP q := by
      rw [List.countP_eq_length_filter, List.countP_eq_length_filter]
      have hsub : (l.filter q).filter p = l.filter p := by
        rw [List.filter_filter]
        refine List.filter_congr fun y hy => ?_
        by_cases hy' : p y = true
        · simp [hy', hpq y hy hy']
        · simp [hy']
      rw [← hsub]
      refine List.length_filter_lt_length_iff_exists.mpr ⟨x, List.mem_filter.mpr ⟨hx, hq⟩, ?_⟩
      simpa using hp
    omega
  · intro hqp
    exact List.countP_congr fun x hx => ⟨hpq x hx, hqp x hx⟩

/-- The caps over nothing of a list. -/
theorem sum_caps_filter (xs : List α) (f : α → KeptScope) :
    (((xs.map f).filter fun sc => decide (0 < sc.cap)).map KeptScope.cap).sum =
      (xs.map fun x => max 0 (f x).cap).sum := by
  induction xs with
  | nil => rfl
  | cons x xs ih =>
    rw [List.map_cons, List.map_cons, List.sum_cons, ← ih]
    by_cases hpos : 0 < (f x).cap
    · rw [List.filter_cons_of_pos (by simpa using hpos), List.map_cons, List.sum_cons,
        max_eq_right (le_of_lt hpos)]
    · rw [List.filter_cons_of_neg (by simpa using hpos), max_eq_left (not_lt.mp hpos), zero_add]

/-- What is left by two counts, one never below the other. -/
theorem filter_caps_eq_iff {xs : List α} {f g : α → KeptScope}
    (hle : ∀ x ∈ xs, (f x).cap ≤ (g x).cap)
    (hsame : ∀ x ∈ xs, (f x).cap = (g x).cap → f x = g x) :
    ((xs.map f).filter fun sc => decide (0 < sc.cap)) =
        ((xs.map g).filter fun sc => decide (0 < sc.cap)) ↔
      ∀ x ∈ xs, 0 < (g x).cap → (f x).cap = (g x).cap := by
  constructor
  · -- were one cap smaller, so would be the sum
    intro heq x hx hpos
    by_contra hne
    have hsum : (xs.map fun x => max 0 (f x).cap).sum = (xs.map fun x => max 0 (g x).cap).sum := by
      rw [← sum_caps_filter, ← sum_caps_filter, heq]
    have hlt : (xs.map fun x => max 0 (f x).cap).sum < (xs.map fun x => max 0 (g x).cap).sum := by
      refine List.sum_lt_sum _ _ (fun y hy => ?_) ⟨x, hx, ?_⟩
      · have hley := hle y hy
        omega
      · have hlex := hle x hx
        omega
    exact absurd hsum (ne_of_lt hlt)
  · intro h
    induction xs with
    | nil => rfl
    | cons x xs ih =>
      have hrest := ih (fun y hy => hle y (List.mem_cons_of_mem _ hy))
        (fun y hy => hsame y (List.mem_cons_of_mem _ hy))
        (fun y hy => h y (List.mem_cons_of_mem _ hy))
      have hx : x ∈ x :: xs := List.mem_cons_self
      rw [List.map_cons, List.map_cons]
      by_cases hpos : 0 < (g x).cap
      · rw [hsame x hx (h x hx hpos), List.filter_cons_of_pos (by simpa using hpos),
          List.filter_cons_of_pos (by simpa using hpos), hrest]
      · have hneg : ¬ 0 < (f x).cap := fun hf => hpos (hf.trans_le (hle x hx))
        rw [List.filter_cons_of_neg (by simpa using hneg),
          List.filter_cons_of_neg (by simpa using hpos), hrest]

end

/-! ### The counts of a chain -/

variable {copy : List Link} {live : List UInt32} {now : Nat} {id : UInt32} {kept : Kept}

/-- The spends of a budget that its life knows, told by the whole link. -/
theorem mem_spends {l : Link} :
    l ∈ spends copy id ↔ l ∈ copy ∧ l.selfPress = true ∧ l.grantId = id := by
  simp [spends, List.mem_filter]

/-- The links that the phone takes for spends, told by the decision byte alone. -/
theorem mem_spentOf {l : Link} :
    l ∈ spentOf copy id ↔ l ∈ copy ∧ l.grantId = id ∧ l.decision = decisionSelfPress := by
  simp [spentOf, List.mem_filter]

/-- The spends are those taken for spends that are a sign or a decrypt. -/
theorem spends_eq_filter : spends copy id = (spentOf copy id).filter Link.selfPress := by
  rw [spends, spentOf, List.filter_filter]
  refine List.filter_congr fun l _ => ?_
  by_cases hpress : l.selfPress = true
  · have hdecision : l.decision == decisionSelfPress := by
      simp only [Link.selfPress, Bool.and_eq_true] at hpress
      exact hpress.2
    simp [hpress, hdecision]
  · simp [hpress]

namespace Written

/-- In a budget that was not ended, only a receipt is taken for a spend without being one. -/
theorem length_spentOf_iff (h : Written copy id kept)
    (hend : ∀ l ∈ copy, l.op = opGrantEnd → l.grantId ≠ id) :
    (spentOf copy id).length ≤ (spends copy id).length ↔
      ∀ l ∈ copy, l.op = opReceipt → l.grantId = id → l.decision ≠ decisionSelfPress := by
  have hnot {l : Link} (hop : l.op = opReceipt) : l.selfPress = false := by
    rw [Link.selfPress, hop]
    rfl
  constructor
  · intro hle l hl hop hid hdecision
    have hlt : (spends copy id).length < (spentOf copy id).length := by
      rw [spends_eq_filter]
      exact List.length_filter_lt_length_iff_exists.mpr
        ⟨l, mem_spentOf.mpr ⟨hl, hid, hdecision⟩, by rw [hnot hop]; decide⟩
    omega
  · intro hplain
    have hall : (spentOf copy id).filter Link.selfPress = spentOf copy id := by
      refine List.filter_eq_self.mpr fun l hl => ?_
      obtain ⟨hmem, hid, hdecision⟩ := mem_spentOf.mp hl
      rcases h.others l hmem hdecision with hpress | hop | hop
      · exact hpress
      · exact absurd hdecision (hplain l hmem hop hid)
      · exact absurd hid (hend l hmem hop)
    rw [spends_eq_filter, hall]

/-- No scope has a receipt's op. -/
theorem usesAt_spentOf (h : Written copy id kept) {sc : KeptScope} (hsc : sc ∈ kept.scopes) :
    usesAt (spentOf copy id) sc = usesAt (spends copy id) sc := by
  rw [spends_eq_filter, usesAt, usesAt, List.countP_filter]
  refine List.countP_congr fun l hl => ?_
  obtain ⟨hmem, -, hdecision⟩ := mem_spentOf.mp hl
  by_cases hpress : l.selfPress = true
  · simp [hpress]
  · -- a receipt's or an end's op is no scope's
    have hne : (l.op == sc.op) = false := by
      rcases (h.others l hmem hdecision).resolve_left hpress with hop | hop <;> rw [hop] <;>
        rcases h.ops sc hsc with hsc | hsc <;> rw [hsc] <;> rfl
    simp [hne]

/-- A spend of a scope has its op and slot. -/
theorem of_scope (h : Written copy id kept) {j : Nat} {sc : KeptScope}
    (hsc : kept.scopes[j]? = some sc) {l : Link} (hl : l ∈ spends copy id)
    (hscope : l.scope.toNat = j + 1) : l.op = sc.op ∧ l.slot = sc.slot := by
  obtain ⟨j', sc', hsc', hscope', hop, hslot⟩ := h.named l hl
  obtain rfl : j = j' := by omega
  obtain rfl : sc = sc' := Option.some.inj (hsc.symm.trans hsc')
  exact ⟨hop, hslot⟩

/-- What a scope paid is among what the phone counts for its op and slot. -/
theorem paidBy_le_usesAt (h : Written copy id kept) {j : Nat} {sc : KeptScope}
    (hsc : kept.scopes[j]? = some sc) : paidBy copy id j ≤ usesAt (spends copy id) sc := by
  refine List.countP_mono_left fun l hl hscope => ?_
  obtain ⟨hop, hslot⟩ := h.of_scope hsc hl (by simpa using hscope)
  simp [hop, hslot]

/-- As many spends with a scope's op and slot as it paid: no other paid one. -/
theorem paidBy_eq_usesAt_iff (h : Written copy id kept) {j : Nat} {sc : KeptScope}
    (hsc : kept.scopes[j]? = some sc) :
    paidBy copy id j = usesAt (spends copy id) sc ↔
      ∀ l ∈ spends copy id, l.op = sc.op → l.slot = sc.slot → l.scope.toNat = j + 1 := by
  rw [paidBy, usesAt, countP_eq_iff]
  · simp
  · intro l hl hscope
    obtain ⟨hop, hslot⟩ := h.of_scope hsc hl (by simpa using hscope)
    simp [hop, hslot]

/-- Links that each name one of `n` scopes, counted by scope. -/
theorem sum_countP_scope {n : Nat} {ls : List Link}
    (h : ∀ l ∈ ls, ∃ j < n, l.scope.toNat = j + 1) :
    (∑ j ∈ Finset.range n, ((ls.countP fun l => l.scope.toNat == j + 1 : Nat) : Int)) =
      ls.length := by
  induction ls with
  | nil => simp
  | cons l ls ih =>
    obtain ⟨j, hj, hscope⟩ := h l List.mem_cons_self
    have hsum := ih fun l hl => h l (List.mem_cons_of_mem _ hl)
    have hj' : j ∈ Finset.range n := Finset.mem_range.mpr hj
    simp only [List.countP_cons, Nat.cast_add, Finset.sum_add_distrib, hsum, List.length_cons]
    -- of the summands of `l` all but one are 0
    rw [Finset.sum_eq_single_of_mem j hj' fun i _ hi => ?_]
    · simp [hscope]
    · have hne : ¬ l.scope.toNat = i + 1 := by omega
      simp [hne]

/-- Each spend is paid by one scope. -/
theorem sum_paidBy (h : Written copy id kept) :
    ((kept.scopes.zipIdx.map fun x => (paidBy copy id x.2 : Int)).sum) =
      (spends copy id).length := by
  have hrange : kept.scopes.zipIdx.map (fun x => (paidBy copy id x.2 : Int)) =
      (List.range kept.scopes.length).map fun j => (paidBy copy id j : Int) := by
    show kept.scopes.zipIdx.map ((fun j => (paidBy copy id j : Int)) ∘ Prod.snd) = _
    rw [← List.map_map, List.zipIdx_map_snd, ← List.range_eq_range']
  rw [hrange]
  have hnamed : ∀ l ∈ spends copy id, ∃ j < kept.scopes.length, l.scope.toNat = j + 1 := by
    intro l hl
    obtain ⟨j, sc, hsc, hscope, -, -⟩ := h.named l hl
    exact ⟨j, (List.getElem?_eq_some_iff.mp hsc).1, hscope⟩
  exact sum_countP_scope hnamed

end Written

/-! ### The result -/

/-- What `ended` leaves of the scopes. -/
def offeredScopes (copy : List Link) (id : UInt32) (kept : Kept) : List KeptScope :=
  (kept.scopes.map fun sc => { sc with cap := sc.cap - usesAt (spentOf copy id) sc }).filter
    fun sc => decide (0 < sc.cap)

/-- A record that waits to be continued is offered with what is left of its scopes, if anything. -/
theorem ended_toContinue (h : ToContinue copy live now id kept) :
    ended copy live now id kept =
      if offeredScopes copy id kept = [] then none
      else some ⟨id, kept.reason, offeredScopes copy id kept,
        ((offeredScopes copy id kept).map KeptScope.cap).sum, kept.minutesLeft now,
        kept.computer.map fun _ => kept.sender⟩ := by
  obtain ⟨⟨hcontinued, hdismissed, hopened⟩, hgone, hend, htime⟩ := h
  have hany : (copy.any fun f => f.op == opGrantEnd && f.grantId == id) = false := by
    refine List.any_eq_false.mpr fun l hl => ?_
    by_cases hop : l.op = opGrantEnd
    · simp [hend l hl hop]
    · simp [hop]
  rw [ended, if_neg (by simp [hcontinued, hdismissed, hopened, hgone]), hany,
    if_neg Bool.false_ne_true]
  show (if (offeredScopes copy id kept).isEmpty || decide (kept.minutesLeft now < 1) then _
    else _) = _
  by_cases hnil : offeredScopes copy id kept = []
  · rw [if_pos (by simp [hnil]), if_pos hnil]
  · rw [if_neg (by simp [hnil, htime]), if_neg hnil]
    rfl

/-- The offered scopes are what is left exactly when each scope with something left shares its op
and slot with no other that has paid. -/
theorem offeredScopes_eq_left_iff (h : Written copy id kept) :
    offeredScopes copy id kept = left copy id kept ↔
      ∀ j sc, kept.scopes[j]? = some sc → (paidBy copy id j : Int) < sc.cap →
        ∀ l ∈ spends copy id, l.op = sc.op → l.slot = sc.slot → l.scope.toNat = j + 1 := by
  have hscope {x : KeptScope × Nat} (hx : x ∈ kept.scopes.zipIdx) : kept.scopes[x.2]? = some x.1 :=
    List.mk_mem_zipIdx_iff_getElem?.mp hx
  have huses {x : KeptScope × Nat} (hx : x ∈ kept.scopes.zipIdx) :
      usesAt (spentOf copy id) x.1 = usesAt (spends copy id) x.1 :=
    h.usesAt_spentOf (List.mem_of_getElem? (hscope hx))
  have hmap : kept.scopes.map (fun sc => { sc with cap := sc.cap - usesAt (spentOf copy id) sc }) =
      kept.scopes.zipIdx.map fun x : KeptScope × Nat =>
        { x.1 with cap := x.1.cap - usesAt (spentOf copy id) x.1 } := by
    conv_lhs => rw [← List.zipIdx_map_fst 0 kept.scopes]
    rw [List.map_map]
    rfl
  rw [offeredScopes, left, hmap, filter_caps_eq_iff]
  -- by op and slot never fewer are counted than by the byte
  · constructor
    · intro hcaps j sc hsc hroom
      have hx : (sc, j) ∈ kept.scopes.zipIdx := List.mk_mem_zipIdx_iff_getElem?.mpr hsc
      refine (h.paidBy_eq_usesAt_iff hsc).mp ?_
      have hcap := hcaps (sc, j) hx (by dsimp only; omega)
      have hu := huses hx
      dsimp only at hcap hu
      omega
    · intro hunshared x hx hpos
      dsimp only at hpos ⊢
      rw [huses hx, (h.paidBy_eq_usesAt_iff (hscope hx)).mpr
        (hunshared x.2 x.1 (hscope hx) (by omega))]
  · intro x hx
    have hle := h.paidBy_le_usesAt (hscope hx)
    dsimp only
    rw [huses hx]
    omega
  · intro x _ heq
    exact congrArg (fun cap => { x.1 with cap := cap }) heq

/-- What is left of some scopes, none of them overdrawn. -/
theorem sum_left_of_room (f : KeptScope × Nat → Int) {xs : List (KeptScope × Nat)}
    (h : ∀ x ∈ xs, f x ≤ x.1.cap) :
    (xs.map fun x => max 0 (x.1.cap - f x)).sum =
      (xs.map fun x => x.1.cap).sum - (xs.map f).sum := by
  induction xs with
  | nil => rfl
  | cons x xs ih =>
    have hx := h x List.mem_cons_self
    simp only [List.map_cons, List.sum_cons, ih fun y hy => h y (List.mem_cons_of_mem _ hy)]
    omega

/-- What is left is the budget's uses minus its spends. -/
theorem sum_left (h : Written copy id kept) :
    ((left copy id kept).map KeptScope.cap).sum = kept.uses - (spends copy id).length := by
  rw [left, sum_caps_filter, ← h.sum_paidBy, ← h.uses]
  show (kept.scopes.zipIdx.map fun x => max 0 (x.1.cap - (paidBy copy id x.2 : Int))).sum = _
  rw [sum_left_of_room (fun x => (paidBy copy id x.2 : Int)) fun x hx =>
    h.room x.2 x.1 (List.mk_mem_zipIdx_iff_getElem?.mp hx)]
  congr 2
  conv_rhs => rw [← List.zipIdx_map_fst 0 kept.scopes]
  rw [List.map_map]
  rfl

/-- The steps of the spends go no further than their number. -/
theorem foldl_steps_le {ls : List Link} {n m : Nat} (hm : m ≤ n)
    (h : ∀ l ∈ ls, l.grantStep.toNat ≤ n) :
    ls.foldl (fun m f => max m f.grantStep.toNat) m ≤ n := by
  induction ls generalizing m with
  | nil => exact hm
  | cons l ls ih =>
    exact ih (max_le hm (h l List.mem_cons_self)) fun l hl => h l (List.mem_cons_of_mem _ hl)

/-- Continue offers what is left, and the same is shown as used, exactly when no scope with
something left shares its op and slot with another that paid, and no receipt of the chain has a
spend's decision for its code and the budget's id for its use. -/
theorem continue_offers_what_is_left_iff (h : Written copy id kept)
    (hto : ToContinue copy live now id kept) :
    OffersLeft copy live now id kept ↔ Told copy id kept := by
  constructor
  · rintro ⟨hoffered, -, hcounted⟩
    refine ⟨(offeredScopes_eq_left_iff h).mp ?_, (h.length_spentOf_iff hto.unended).mp ?_⟩
    · rw [ended_toContinue hto] at hoffered
      by_cases hnil : offeredScopes copy id kept = []
      · rw [if_pos hnil] at hoffered
        split at hoffered
        · rename_i hleft
          rw [hnil, hleft]
        · cases hoffered
      · rw [if_neg hnil] at hoffered
        split at hoffered
        · cases hoffered
        · exact (EdgeEnded.mk.inj (Option.some.inj hoffered)).2.2.1
    · -- what is shown as used is no less than what is taken for a spend
      rw [← hcounted false]
      exact le_max_right _ _
  · -- each scope then offers its cap less what was spent on it
    rintro ⟨hunshared, hplain⟩
    have hscopes := (offeredScopes_eq_left_iff h).mpr hunshared
    have hlength := (h.length_spentOf_iff hto.unended).mpr hplain
    have hspent : spentOf copy id = spends copy id := by
      rw [spends_eq_filter] at hlength ⊢
      exact (List.filter_eq_self.mpr (List.length_filter_eq_length_iff.mp
        (le_antisymm (List.length_filter_le _ _) hlength))).symm
    refine ⟨?_, fun other => ?_, fun other => ?_⟩
    · rw [ended_toContinue hto, hscopes, sum_left h]
    · show kept.scopes.mapIdx _ = _
      refine List.mapIdx_eq_mapIdx_iff.mpr fun j hj => ?_
      have hsc : kept.scopes[j]? = some kept.scopes[j] := List.getElem?_eq_getElem hj
      congr 1
      rw [hspent]
      by_cases hnil : spends copy id = []
      · have hnone : paidBy copy id j = 0 := by rw [paidBy, hnil]; rfl
        rw [hnone, hnil]
        rfl
      · -- the key names a scope in every spend, so the counts are exact
        have hnamed : ((spends copy id).all fun f => f.scope != 0) = true := by
          refine List.all_eq_true.mpr fun l hl => ?_
          obtain ⟨j', -, -, hscope, -, -⟩ := h.named l hl
          have hne : l.scope ≠ 0 := by
            rintro hzero
            rw [hzero] at hscope
            cases hscope
          simpa using hne
        rw [if_pos (by simp [hnil, hnamed])]
        rfl
    · show max _ _ = _
      rw [hspent]
      exact max_eq_right (foldl_steps_le (Nat.zero_le _) h.steps)

/-! ### Two chains -/

namespace Demo

/-- A use of budget 1 that this scope of two on slot 221 paid. -/
def useOf (seq : UInt32) (scope : UInt8) : Link :=
  { Link.blank with
    seq := seq, op := opSign, decision := decisionSelfPress, slot := 221, grantId := 1
    grantStep := 1, scope := scope }

/-- The receipt of link 1, with this code. -/
def receiptOf (code : UInt8) : Link :=
  { Link.blank with seq := 2, op := opReceipt, decision := code, grantId := 1 }

/-- A record with these scopes. -/
def record (scopes : List KeptScope) : Kept :=
  ⟨"", scopes, (scopes.map KeptScope.cap).sum.toNat, "", 60, 1, false, false, none, none⟩

/-- A record of the tests waits to be continued as long as the chain does not end it. -/
theorem toContinue_of_links {copy : List Link} {scopes : List KeptScope}
    (h : ∀ l ∈ copy, l.op ≠ opGrantEnd) : ToContinue copy [] 60001 1 (record scopes) where
  waiting := ⟨rfl, rfl, Nat.one_ne_zero⟩
  gone := by simp
  unended := fun l hl hop => absurd hop (h l hl)
  time := by simp [Kept.minutesLeft, Kept.lifetimeMinutes, record]

theorem written_of_one (scope : UInt8) {copy : List Link} {scopes : List KeptScope} {j : Nat}
    (hspends : spends copy 1 = [useOf 1 scope])
    (hsc : ∃ sc, scopes[j]? = some sc ∧ sc.op = opSign ∧ sc.slot = 221) (hj : scope.toNat = j + 1)
    (hscopes : ∀ sc ∈ scopes, sc.op = opSign ∧ 1 ≤ sc.cap)
    (hothers : ∀ l ∈ copy, l.decision = decisionSelfPress →
      l.selfPress = true ∨ l.op = opReceipt ∨ l.op = opGrantEnd) :
    Written copy 1 (record scopes) where
  uses := by
    have hsum : 0 ≤ (scopes.map KeptScope.cap).sum := by
      refine List.sum_nonneg fun cap hcap => ?_
      obtain ⟨sc, hmem, rfl⟩ := List.mem_map.mp hcap
      exact Int.le_trans (by decide) (hscopes sc hmem).2
    exact (Int.toNat_of_nonneg hsum).symm
  ops := fun sc hmem => Or.inl (hscopes sc hmem).1
  named := by
    intro l hl
    rw [hspends] at hl
    rw [List.mem_singleton.mp hl]
    obtain ⟨sc, hget, hop, hslot⟩ := hsc
    exact ⟨j, sc, hget, hj, hop.symm, hslot.symm⟩
  room := by
    intro j sc hget
    have hcap := (hscopes sc (List.mem_of_getElem? hget)).2
    -- of the one use at most one is counted in the scope
    have hone : paidBy copy 1 j ≤ 1 := by
      rw [paidBy, hspends]
      exact List.countP_le_length
    omega
  others := hothers
  steps := by
    intro l hl
    rw [hspends] at hl ⊢
    rw [List.mem_singleton.mp hl]
    exact Nat.le_refl 1

/-- One scope, and a use with an ordinary receipt. -/
theorem continue_offers_what_is_left_once :
    OffersLeft [useOf 1 1, receiptOf 0] [] 60001 1 (record [⟨opSign, 221, 3⟩]) := by
  have hwritten : Written [useOf 1 1, receiptOf 0] 1 (record [⟨opSign, 221, 3⟩]) :=
    written_of_one 1 (by decide) ⟨_, rfl, rfl, rfl⟩ rfl (by decide) (by decide)
  refine (continue_offers_what_is_left_iff hwritten (toContinue_of_links (by decide))).mpr
    ⟨fun j sc hsc _ l hl _ _ => ?_, by decide⟩
  rw [show spends [useOf 1 1, receiptOf 0] 1 = [useOf 1 1] by decide, List.mem_singleton] at hl
  cases j with
  | zero => rw [hl]; rfl
  | succ j => cases hsc

/-- The second of two identities on slot 221 paid, and the first is offered one use short; and the
receipt of the first use of a budget, with code 4, is shown as a second use. -/
theorem offer_counts_another_identity :
    (Written [useOf 1 2] 1 (record [⟨opSign, 221, 3⟩, ⟨opSign, 221, 1⟩]) ∧
      ¬ OffersLeft [useOf 1 2] [] 60001 1 (record [⟨opSign, 221, 3⟩, ⟨opSign, 221, 1⟩])) ∧
    Written [useOf 1 1, receiptOf 4] 1 (record [⟨opSign, 221, 3⟩]) ∧
      ¬ OffersLeft [useOf 1 1, receiptOf 4] [] 60001 1 (record [⟨opSign, 221, 3⟩]) := by
  refine ⟨⟨written_of_one 2 (by decide) ⟨_, rfl, rfl, rfl⟩ (j := 1) rfl (by decide) (by decide),
      ?_⟩, written_of_one 1 (by decide) ⟨_, rfl, rfl, rfl⟩ (j := 0) rfl (by decide) (by decide), ?_⟩
  · intro h
    exact absurd h.offered (by decide +kernel)
  · intro h
    exact absurd (h.counted false) (by decide +kernel)

end Demo

end OkRn.Budgets
