/-
OkRn/Budgets/Life.lean

The life of a budget, as its chain tells it.

`life id` reads a chain, oldest link first, and follows the one budget: it is opened
once, pays uses in steps while it is not on hold, may be held and resumed, and once
ended nothing of it comes again.  Every chain a key writes is read by the life of
every id (`Lived`), and a budget in a place of the key is where its chain says.

* `Deed` is what a link does to a budget, `Phase` where the budget stands, and
  `Phase.next` which deeds are possible there;
* `Accounts` says that a budget's counters fit what it paid, and `Follows` that they
  are those of the phase its chain ends in;
* `Lived` is carried through every move of the key (`Move.lived`), and `OneLife`
  unfolds it into the order of the links.

Main results: `budget_follows_its_chain` and `budgets_live_once`, for the runs without
a half-written sector at a restart and up to 2^32 links.
-/
import OkRn.Budgets.Tally
import OkRn.Lib.Monitor

namespace OkRn.Budgets

open OkRn.Edge

variable {E : Env} {k k' : Key} {l : Label}

/-! ### A life -/

/-- What a link does to the budget it names. -/
inductive Deed
  | opened (nscopes : Nat)
  | spent (step scope : Nat)
  | held
  | resumed
  | ended
  deriving DecidableEq

/-- What a link does to its budget; most links do nothing to any. -/
def Link.deed (x : Link) : Option Deed :=
  if x.selfPress then some (.spent x.grantStep.toNat x.scope.toNat)
  else if x.op = opGrantCreate then some (.opened x.scope.toNat)
  else if x.op = opGrantHold then some .held
  else if x.op = opGrantResume then some .resumed
  else if x.op = opGrantEnd then some .ended
  else none

/-- Where a budget is: `paid` are the scope bytes of its spends, oldest first. -/
inductive Phase
  | unopened
  | running (onHold : Bool) (nscopes : Nat) (paid : List Nat)
  | past (paid : List Nat)
  deriving DecidableEq

namespace Phase

/-- The phase after a deed; a budget that is on hold pays nothing, and one that ended does nothing
more. -/
def next : Phase → Deed → Option Phase
  | .unopened, .opened n => some (.running false n [])
  | .running false n paid, .spent step scope =>
      if step = paid.length + 1 ∧ 1 ≤ scope ∧ scope ≤ n then some (.running false n (paid ++ [scope]))
      else none
  | .running false n paid, .held => some (.running true n paid)
  | .running true n paid, .resumed => some (.running false n paid)
  | .running _ _ paid, .ended => some (.past paid)
  | _, _ => none

/-- A budget may be ended whether or not it is on hold. -/
theorem next_ended {onHold : Bool} {n : Nat} {paid : List Nat} :
    (running onHold n paid).next .ended = some (.past paid) := by
  cases onHold <;> rfl

end Phase

/-- The life of the budget `id`. -/
def life (id : UInt32) : Monitor Link Phase where
  start := .unopened
  next p x := match Link.deed x with
    | some d => if x.grantId = id then p.next d else some p
    | none => some p

section

variable {id : UInt32} {x : Link} {p : Phase} {d : Deed} {ls : List Link}

/-- A link without a deed leaves every budget as it is. -/
theorem life_next_of_plain (h : Link.deed x = none) : (life id).next p x = some p := by
  simp only [life, h]

theorem life_next_of_other (h : x.grantId ≠ id) : (life id).next p x = some p := by
  simp only [life]
  split
  · rw [if_neg h]
  · rfl

/-- A link about this budget takes it on by its deed. -/
theorem life_next_of_deed (hd : Link.deed x = some d) (hid : x.grantId = id) :
    (life id).next p x = p.next d := by
  simp only [life, hd, if_pos hid]

/-- A budget of the key is where its chain says. -/
def Follows (ls : List Link) (b : Budget) : Prop :=
  ∃ paid, (life b.id).read ls = some (.running b.onHold b.nscopes paid) ∧ paid.length = b.used ∧
    ∀ j : Fin 4, paid.count (j.val + 1) = (b.scopes j).used

end

/-! ### A budget's accounts -/

/-- What a budget counted is within what its press allowed. -/
structure Accounts (b : Budget) : Prop where
  uses_le : b.uses ≤ maxUses
  used_le : b.used ≤ b.uses
  used_eq : b.used = ((List.finRange 4).map fun j => (b.scopes j).used).sum
  caps : ∀ j, (b.scopes j).used ≤ (b.scopes j).cap

/-- Hold and resume change no account. -/
theorem Accounts.held {b : Budget} (h : Accounts b) (held : Bool) :
    Accounts { b with onHold := held } := ⟨h.uses_le, h.used_le, h.used_eq, h.caps⟩

/-- A use more in one scope is a use more in all. -/
theorem sum_update_succ (f : Fin 4 → Scope) (j : Fin 4) :
    ((List.finRange 4).map fun n =>
      (Function.update f j { f j with used := (f j).used + 1 } n).used).sum =
        ((List.finRange 4).map fun n => (f n).used).sum + 1 := by
  match j with
  | 0 | 1 | 2 | 3 =>
    simp [List.finRange_succ, Function.update_apply]
    omega

/-- A use is charged where there was room for it, in the budget and in its scope. -/
theorem Accounts.charge {b : Budget} (h : Accounts b) {j : Fin 4} (hroom : b.used < b.uses)
    (hcap : (b.scopes j).used < (b.scopes j).cap) : Accounts (b.charge j) := by
  refine ⟨h.uses_le, hroom, ?_, fun n => ?_⟩
  · show b.used + 1 = _
    rw [h.used_eq]
    exact (sum_update_succ b.scopes j).symm
  · show (Function.update b.scopes j _ n).used ≤ (Function.update b.scopes j _ n).cap
    rcases eq_or_ne n j with rfl | hne
    · rw [Function.update_self]
      exact hcap
    · rw [Function.update_of_ne hne]
      exact h.caps n

section

variable {buf : Report} {fresh : Bool} {labels : Fin 4 → Option Digest} {p : Press}

/-- A budget that is about to be opened has paid nothing. -/
theorem Checked.unused (h : Checked E buf fresh labels p) :
    p.b.used = 0 ∧ ∀ j, (p.b.scopes j).used = 0 := by
  obtain ⟨seed, hp⟩ := h.press_eq
  rw [hp]
  refine ⟨rfl, fun j => ?_⟩
  show (Grant.scopes buf labels j).used = 0
  unfold Grant.scopes
  split <;> rfl

/-- A budget that was just opened. -/
theorem Checked.accounts (h : Checked E buf fresh labels p) (id now : UInt32) :
    Accounts (Grant.opened p id now) := by
  obtain ⟨seed, hp⟩ := h.press_eq
  have hused (j : Fin 4) : ((Grant.opened p id now).scopes j).used = 0 :=
    (Checked.unused h).2 j
  have hzero : (Grant.opened p id now).used = 0 := (Checked.unused h).1
  refine ⟨?_, ?_, ?_, fun j => ?_⟩
  · show p.b.uses ≤ maxUses
    rw [hp]
    exact h.uses_le
  · rw [hzero]
    exact Nat.zero_le _
  · simp only [hused, hzero]
    rfl
  · rw [hused]
    exact Nat.zero_le _

end

/-! ### The chains a key writes -/

/-- The chain is read by the life of every id, an id past its end is unopened, and each budget of
the key is where the chain says. -/
structure Lived (k : Key) : Prop where
  reads : ∀ id, ((life id).read (links k)).isSome = true
  fresh : ∀ id : UInt32, top k < id.toNat → (life id).read (links k) = some .unopened
  here : ∀ i, (k.budgets i).id ≠ 0 → Follows (links k) (k.budgets i) ∧ Accounts (k.budgets i)

section

variable {x : Link} {d : Deed} {p q : Phase} {i : Fin 4} {c : Budget}

/-- A budget follows any chain that reads the same for its id. -/
theorem Follows.of_read {ls ls' : List Link} {b : Budget} (h : Follows ls b)
    (hread : (life b.id).read ls' = (life b.id).read ls) : Follows ls' b := by
  obtain ⟨paid, hpaid, hcounts⟩ := h
  exact ⟨paid, hread.trans hpaid, hcounts⟩

/-- A step without a link or a change of budget keeps every life. -/
theorem Lived.same (h : Lived k) (hchain : chainOf k'.log = chainOf k.log)
    (hbudgets : k'.budgets = k.budgets) : Lived k' := by
  have hlinks := links_same hchain
  refine ⟨?_, ?_, ?_⟩
  · rw [hlinks]
    exact h.reads
  · rw [hlinks, top, hchain]
    exact h.fresh
  · rw [hlinks, hbudgets]
    exact h.here

/-- An empty chain and blank places. -/
theorem lived_of_nil (hchain : chainOf k.log = []) (hblank : k.budgets = fun _ => Budget.blank) :
    Lived k := by
  have hlinks : links k = [] := by
    rw [links, hchain]
    rfl
  refine ⟨fun id => ?_, fun id _ => ?_, fun i hid => ?_⟩
  · rw [hlinks]
    rfl
  · rw [hlinks]
    rfl
  · rw [hblank] at hid
    exact absurd rfl hid

/-- A link that does nothing to a budget; the key may drop its budgets. -/
theorem Lived.plain (h : Lived k) (hlinks : links k' = links k ++ [x]) (hx : Link.deed x = none)
    (htop : top k ≤ top k')
    (hbudgets : ∀ i, (k'.budgets i).id ≠ 0 → k'.budgets i = k.budgets i) : Lived k' := by
  have hread (id : UInt32) : (life id).read (links k') = (life id).read (links k) := by
    rw [hlinks, Monitor.read_concat]
    cases (life id).read (links k) with
    | none => rfl
    | some p => exact life_next_of_plain hx
  refine ⟨fun id => ?_, fun id hid => ?_, fun i hid => ?_⟩
  · rw [hread]
    exact h.reads id
  · rw [hread]
    exact h.fresh id (by omega)
  · have hsame := hbudgets i hid
    rw [hsame] at hid ⊢
    exact ⟨(h.here i hid).1.of_read (hread _), (h.here i hid).2⟩

/-- A link that does something to one budget, in its place or in a new one. -/
theorem Lived.deed (h : Lived k) (hlinks : links k' = links k ++ [x])
    (hd : Link.deed x = some d) (hp : (life x.grantId).read (links k) = some p)
    (hnext : p.next d = some q) (htop : top k ≤ top k') (hlow : x.grantId.toNat ≤ top k')
    (hbudgets : k'.budgets = Function.update k.budgets i c)
    (hothers : ∀ n, n ≠ i → (k.budgets n).id ≠ 0 → (k.budgets n).id ≠ x.grantId)
    (hc : c.id ≠ 0 → (life x.grantId).read (links k') = some q →
      Follows (links k') c ∧ Accounts c) : Lived k' := by
  have hself : (life x.grantId).read (links k') = some q := by
    rw [hlinks, Monitor.read_concat, hp]
    exact (life_next_of_deed hd rfl).trans hnext
  have hread (id : UInt32) (hid : id ≠ x.grantId) :
      (life id).read (links k') = (life id).read (links k) := by
    rw [hlinks, Monitor.read_concat]
    cases (life id).read (links k) with
    | none => rfl
    | some p => exact life_next_of_other fun heq => hid heq.symm
  refine ⟨fun id => ?_, fun id hid => ?_, fun n hn => ?_⟩
  · -- one budget lives on by the deed, the others are read as before
    rcases eq_or_ne id x.grantId with rfl | hne
    · rw [hself]
      rfl
    · rw [hread id hne]
      exact h.reads id
  · rw [hread id (by rintro rfl; omega)]
    exact h.fresh id (by omega)
  · rw [hbudgets] at hn ⊢
    rcases eq_or_ne n i with rfl | hne
    · rw [Function.update_self] at hn ⊢
      exact hc hn hself
    · rw [Function.update_of_ne hne] at hn ⊢
      obtain ⟨hfollows, haccounts⟩ := h.here n hn
      exact ⟨hfollows.of_read (hread _ (hothers n hne hn)), haccounts⟩

end

/-- A use, as the life of its budget reads it. -/
theorem spend_deed {used : Nat} {j : Fin 4} {slot flags : UInt8} {opcode : UInt8} {subject : Digest}
    {id : UInt32} {intent : Option Intent} (hused : used + 1 < 2 ^ 16) (k : Key) :
    Link.deed (k.nextLink (opOf opcode) decisionSelfPress slot flags subject id
      (UInt16.ofNat (used + 1)) (UInt8.ofNat (j.val + 1)) intent) =
        some (.spent (used + 1) (j.val + 1)) := by
  have hself : (k.nextLink (opOf opcode) decisionSelfPress slot flags subject id
      (UInt16.ofNat (used + 1)) (UInt8.ofNat (j.val + 1)) intent).selfPress = true := by
    unfold opOf
    split <;> rfl
  have hstep : (UInt16.ofNat (used + 1)).toNat = used + 1 := by
    rw [UInt16.toNat_ofNat']
    exact Nat.mod_eq_of_lt hused
  have hscope : (UInt8.ofNat (j.val + 1)).toNat = j.val + 1 := by
    rw [UInt8.toNat_ofNat']
    exact Nat.mod_eq_of_lt (by omega)
  rw [Link.deed, if_pos hself]
  exact congrArg some (congrArg₂ Deed.spent hstep hscope)

/-- The place of a budget is the only one with its id. -/
theorem Tallied.other_id (h : Tallied k) {i n : Fin 4} (hid : (k.budgets i).id ≠ 0) (hne : n ≠ i) :
    (k.budgets n).id ≠ (k.budgets i).id :=
  fun heq => hne ((h.live i hid).1.one n i heq rfl)

/-- A link of a plain act takes the life of its budget on and leaves the others. -/
theorem Lived.act (h : Lived k) (ht : Tallied k) (hpress : PressOk E k) {w : Welded}
    {reveal : Option Digest} (hact : Act E k l w.link reveal k'.budgets)
    (hchain : chainOf k'.log = w :: chainOf k.log) (hnext : top k ≤ w.link.seq.toNat)
    (hlast : w.link.seq.toNat + 1 < 2 ^ 32) : Lived k' := by
  have hlinks := links_cons hchain
  have htop : top k' = w.link.seq.toNat + 1 := top_cons hchain
  have hle : top k ≤ top k' := by omega
  have hlow {i : Fin 4} (hid : (k.budgets i).id ≠ 0) : (k.budgets i).id.toNat ≤ top k' :=
    (ht.live i hid).1.low.trans hle
  generalize hx : w.link = x at hact hlinks hnext hlast htop
  generalize hb : k'.budgets = budgets at hact
  -- one link for each of the key's acts; only some of them are deeds of a budget
  cases hact with
  | @spend i j now hpend hstart hpay halive hfree hroom hscope =>
    have hid : (k.budgets i).id ≠ 0 := id_ne_zero_of_alive halive
    obtain ⟨⟨paid, hread, hlen, hcounts⟩, haccounts⟩ := h.here i hid
    have hfound := List.find?_some hscope
    simp only [Bool.and_eq_true, decide_eq_true_eq] at hfound
    obtain ⟨⟨hj, -⟩, hcap⟩ := hfound
    have huses : (k.budgets i).uses ≤ 1024 := haccounts.uses_le
    rw [hfree] at hread
    refine h.deed (q := .running false (k.budgets i).nscopes (paid ++ [j.val + 1])) hlinks
      (spend_deed (by omega) k) hread ?_ hle (hlow hid) hb (fun n hne _ => ht.other_id hid hne)
      fun _ hself => ⟨⟨paid ++ [j.val + 1], ?_, ?_, fun n => ?_⟩, haccounts.charge hroom hcap⟩
    · exact if_pos ⟨by rw [hlen], by omega, hj⟩
    · exact hself.trans (by rw [← hfree]; rfl)
    · rw [List.length_append, hlen]
      rfl
    · rw [List.count_append, hcounts n]
      show _ = (Function.update (k.budgets i).scopes j _ n).used
      rcases eq_or_ne n j with rfl | hne
      · rw [Function.update_self, List.count_singleton_self]
      · rw [Function.update_of_ne hne, List.count_singleton,
          if_neg fun heq => hne (Fin.ext (Nat.succ.inj (beq_iff_eq.mp heq)).symm)]
        rfl
  | create i now hwhat howes =>
    obtain ⟨buf, fresh, labels, hchecked⟩ := hpress hwhat
    obtain ⟨seed, hp⟩ := hchecked.press_eq
    have hcount := hchecked.count_le
    have hn : k.press.b.nscopes = Grant.count buf := by
      rw [hp]
      rfl
    have hid : (k.st.nextSeq + 1).toNat = top k' := by
      rw [htop, UInt32.toNat_add]
      exact Nat.mod_eq_of_lt hlast
    have hscope : (UInt8.ofNat k.press.b.nscopes).toNat = k.press.b.nscopes := by
      rw [UInt8.toNat_ofNat']
      exact Nat.mod_eq_of_lt (by omega)
    have hread : (life (k.st.nextSeq + 1)).read (links k) = some .unopened :=
      h.fresh _ (by omega)
    refine h.deed (d := .opened k.press.b.nscopes) (q := .running false k.press.b.nscopes [])
      hlinks (congrArg (some <| Deed.opened ·) hscope) hread rfl hle (le_of_eq hid) hb
      (fun n _ hne heq => ?_) fun _ hself => ⟨⟨[], ?_, ?_, fun j => ?_⟩,
        Checked.accounts hchecked _ _⟩
    · -- a budget of the key has an id of the chain so far
      have hbelow := (ht.live n hne).1.low
      rw [heq] at hbelow
      have hbelow : (k.st.nextSeq + 1).toNat ≤ top k := hbelow
      omega
    · rw [show (Grant.opened k.press (k.st.nextSeq + 1) now).onHold = false by
        show k.press.b.onHold = false; rw [hp]; rfl]
      exact hself
    · exact (Checked.unused hchecked).1.symm
    · exact ((Checked.unused hchecked).2 j).symm
  | @finish how i hid =>
    obtain ⟨⟨paid, hread, -⟩, -⟩ := h.here i hid
    exact h.deed hlinks (d := .ended) rfl hread Phase.next_ended hle (hlow hid) hb
      (fun n hne _ => ht.other_id hid hne) fun hblank => absurd rfl hblank
  | @hold i hid hfree =>
    obtain ⟨⟨paid, hread, hcounts⟩, haccounts⟩ := h.here i hid
    rw [hfree] at hread
    exact h.deed hlinks (d := .held) rfl hread rfl hle (hlow hid) hb
      (fun n hne _ => ht.other_id hid hne) fun _ hself =>
        ⟨⟨paid, hself, hcounts⟩, haccounts.held true⟩
  | @resume i hid hheld howes =>
    obtain ⟨⟨paid, hread, hcounts⟩, haccounts⟩ := h.here i hid
    rw [hheld] at hread
    exact h.deed hlinks (d := .resumed) rfl hread rfl hle (hlow hid) hb
      (fun n hne _ => ht.other_id hid hne) fun _ hself =>
        ⟨⟨paid, hself, hcounts⟩, haccounts.held false⟩
  | receipt code subject howes => exact h.plain hlinks rfl hle fun i _ => by rw [hb]
  | settle howes => exact h.plain hlinks rfl hle fun i _ => by rw [hb]
  | loss first subject => exact h.plain hlinks rfl hle fun i _ => by rw [hb]

/-- Every move of the key keeps the lives of its budgets. -/
theorem Move.lived (h : Move E l k k') (hk : Linked E k) (hpress : PressOk E k)
    (hshort : Short k'.log) (ht : Tallied k) (hl : Lived k) : Lived k' := by
  have hshort' : Short k.log := hshort.of_suffix h.suffix
  have hk' : Linked E k' := h.linked hshort' hk
  cases h with
  | ram h =>
    obtain ⟨seg, hlog, hseg⟩ := h.sameChain.log
    exact hl.same (by rw [hlog, chainOf_append hseg]) h.sameChain.budgets
  | announce t buf =>
    rcases recvTxStart_cases t buf k with hstill | ⟨-, -, token, intent, htx⟩
    · obtain ⟨seg, hlog, hseg⟩ := hstill.sameChain.log (E := E)
      exact hl.same (by rw [hlog, chainOf_append hseg]) hstill.budgets
    · rw [htx]
      exact hl.same rfl rfl
  | load _ => exact hl.same (by rw [stateLoad_log]) (stateLoad_budgets E k)
  | salt salt hload hid hsalt =>
    -- a record without a salt has no links
    have hnil : chainOf k.log = [] := hk.chain_nil fun w _ hends => by
      have hsalted := hends.salted
      rw [Key.kept, if_pos hload, hsalt] at hsalted
      cases hsalted
    exact hl.same (by rw [hnil]; rfl) rfl
  | known => exact hl.same rfl rfl
  | genesis => exact hl.same rfl rfl
  | continued hload hid hsalt hident hcont =>
    rename_i id
    have hchain := congrArg chainOf (continued_log (E := E) id k)
    have hnext := next_link hchain hk' hshort' hshort
    refine hl.plain (links_cons hchain) rfl ?_ fun i hne => absurd rfl hne
    rw [top_cons hchain]
    omega
  | resave => exact hl.same rfl rfl
  | @act l link reveal budgets k hload hid hact =>
    have hchain := congrArg chainOf
      (weldIn_log (E := E) link reveal { k with budgets := budgets, nextIntent := none })
    have hnext := next_link hchain hk' hshort' hshort
    exact hl.act ht hpress hact hchain hnext.1 hnext.2
  | restore sec hload hsec =>
    rw [restore_eq sec hload hsec]
    exact lived_of_nil (by rw [restored_log (sectionState_gen _ _)]; rfl) rfl
  | wipe => exact lived_of_nil rfl rfl

theorem Trace.lived (h : Trace E k) (hclean : CleanBoots k.log) (hshort : Short k.log) :
    Lived k := by
  induction h with
  | new core => exact lived_of_nil rfl rfl
  | move htrace hmove ih =>
    have hclean' := hclean.of_suffix hmove.suffix
    have hshort' := hshort.of_suffix hmove.suffix
    exact Move.lived hmove (htrace.linked hclean' hshort') htrace.granted.1 hshort
      (Trace.tallied htrace hclean' hshort') (ih hclean' hshort')
  | @boot k core torn _ _ ih =>
    have hl : Lived k := ih (hclean.of_suffix ⟨[_], rfl⟩) (hshort.of_suffix ⟨[_], rfl⟩)
    exact ⟨hl.reads, hl.fresh, fun i hid => absurd rfl hid⟩

/-- The counters of every budget of the key are what its chain says, and within its caps. -/
theorem budget_follows_its_chain (h : Reachable E k) (hclean : CleanBoots k.log)
    (hshort : Short k.log) {i : Fin 4} (hid : (k.budgets i).id ≠ 0) :
    Follows (links k) (k.budgets i) ∧ Accounts (k.budgets i) ∧
      (k.budgets i).uses = ((List.finRange 4).map fun j : Fin 4 =>
        if j.val < (k.budgets i).nscopes then ((k.budgets i).scopes j).cap else 0).sum ∧
      ∀ n, n ≠ i → (k.budgets n).id ≠ (k.budgets i).id := by
  have ht := Trace.tallied h.trace hclean hshort
  obtain ⟨hfollows, haccounts⟩ := (Trace.lived h.trace hclean hshort).here i hid
  exact ⟨hfollows, haccounts, (ht.live i hid).2.uses, fun n hne => ht.other_id hid hne⟩

theorem budget_follows_its_chain_of_use :
    Follows (links Demo.usedOnce) (Demo.usedOnce.budgets 0) ∧
      Accounts (Demo.usedOnce.budgets 0) ∧
      (Demo.usedOnce.budgets 0).uses = ((List.finRange 4).map fun j : Fin 4 =>
        if j.val < (Demo.usedOnce.budgets 0).nscopes then
          ((Demo.usedOnce.budgets 0).scopes j).cap else 0).sum ∧
      ∀ n, n ≠ 0 → (Demo.usedOnce.budgets n).id ≠ (Demo.usedOnce.budgets 0).id :=
  budget_follows_its_chain Demo.reachable_usedOnce (by decide +kernel) (by decide +kernel)
    (by decide +kernel)

/-! ### What a life is -/

/-- The link does `d` to the budget `id`. -/
def Does (id : UInt32) (d : Deed) (x : Link) : Prop := Link.deed x = some d ∧ x.grantId = id

/-- The deed that begins a life. -/
def Deed.isOpening : Deed → Bool
  | .opened _ => true
  | _ => false

/-- A budget is opened once and ended at most once, pays in steps, and not while on hold. -/
structure OneLife (ls : List Link) (id : UInt32) : Prop where
  opening : ∀ xs x ys d, ls = xs ++ x :: ys → Does id d x → d.isOpening = false →
    ∃ y ∈ xs, ∃ n, Does id (.opened n) y
  once : ∀ xs x ys n, ls = xs ++ x :: ys → Does id (.opened n) x →
    ∀ y ∈ ys, ∀ m, ¬ Does id (.opened m) y
  ended : ∀ xs x ys, ls = xs ++ x :: ys → Does id .ended x → ∀ y ∈ ys, ∀ d, ¬ Does id d y
  held : ∀ xs x ys z zs step scope, ls = xs ++ x :: (ys ++ z :: zs) → Does id .held x →
    Does id (.spent step scope) z → ∃ y ∈ ys, Does id .resumed y
  steps : ∀ xs x ys step scope, ls = xs ++ x :: ys → Does id (.spent step scope) x →
    step = (spends xs id).length + 1

section

variable {id : UInt32} {x : Link} {p q : Phase} {d : Deed} {ls : List Link}

/-- A link leaves the budget alone, or does something to it. -/
theorem life_next_cases (h : (life id).next p x = some q) :
    (q = p ∧ ∀ d, ¬ Does id d x) ∨ ∃ d, Does id d x ∧ p.next d = some q := by
  rcases hd : Link.deed x with - | d
  · rw [life_next_of_plain hd] at h
    refine .inl ⟨(Option.some.inj h).symm, fun d hdoes => ?_⟩
    rw [hdoes.1] at hd
    cases hd
  · by_cases hid : x.grantId = id
    · rw [life_next_of_deed hd hid] at h
      exact .inr ⟨d, ⟨hd, hid⟩, h⟩
    · rw [life_next_of_other hid] at h
      exact .inl ⟨(Option.some.inj h).symm, fun d hdoes => hid hdoes.2⟩

/-- A link that does something to the budget takes its life on. -/
theorem life_next_of_does (h : Does id d x) : (life id).next p x = p.next d :=
  life_next_of_deed h.1 h.2

/-- After a deed the budget has been opened. -/
theorem Phase.next_ne (h : p.next d = some q) : q ≠ .unopened := by
  rintro rfl
  unfold Phase.next at h
  split at h <;> first | cases h | (split at h <;> cases h)

/-- The spends so far. -/
def Phase.paid : Phase → List Nat
  | .unopened => []
  | .running _ _ paid => paid
  | .past paid => paid

/-- A deed pays one use, the next step, or none. -/
theorem Phase.next_paid (h : p.next d = some q) :
    (q.paid = p.paid ∧ ∀ step scope, d ≠ .spent step scope) ∨
      ∃ step scope, d = .spent step scope ∧ step = p.paid.length + 1 ∧
        q.paid = p.paid ++ [scope] := by
  unfold Phase.next at h
  split at h
  case h_2 =>
    split at h
    · rename_i hstep
      obtain rfl := Option.some.inj h
      exact .inr ⟨_, _, rfl, hstep.1, rfl⟩
    · cases h
  case h_6 => cases h
  all_goals
    obtain rfl := Option.some.inj h
    exact .inl ⟨rfl, by simp⟩

/-- What a spend says of its budget. -/
theorem does_spent_iff {step scope : Nat} : Does id (.spent step scope) x ↔
    x.selfPress = true ∧ x.grantId = id ∧ step = x.grantStep.toNat ∧ scope = x.scope.toNat := by
  constructor
  · rintro ⟨hd, hid⟩
    unfold Link.deed at hd
    split at hd
    · rename_i hpress
      obtain ⟨rfl, rfl⟩ := Deed.spent.inj (Option.some.inj hd)
      exact ⟨hpress, hid, rfl, rfl⟩
    · split_ifs at hd <;> cases hd
  · rintro ⟨hpress, hid, rfl, rfl⟩
    exact ⟨if_pos hpress, hid⟩

/-- The life counts the spends. -/
theorem life_paid (h : (life id).read ls = some p) : p.paid.length = (spends ls id).length := by
  refine Monitor.read_induction (P := fun ls p => p.paid.length = (spends ls id).length) rfl
    (fun ls p x q hp hnext => ?_) h
  rcases life_next_cases hnext with ⟨rfl, hno⟩ | ⟨d, hd, hnext⟩
  · rw [hp, spends_append_of_plain]
    by_contra hspend
    simp only [not_or, Bool.not_eq_false, not_not] at hspend
    exact hno _ (does_spent_iff.mpr ⟨hspend.1, hspend.2, rfl, rfl⟩)
  · rcases Phase.next_paid hnext with ⟨hpaid, hno⟩ | ⟨step, scope, rfl, -, hpaid⟩
    · rw [hpaid, hp, spends_append_of_plain]
      by_contra hspend
      simp only [not_or, Bool.not_eq_false, not_not] at hspend
      have hdeed := does_spent_iff.mpr ⟨hspend.1, hspend.2, rfl, rfl⟩
      exact hno _ _ (Option.some.inj (hd.1.symm.trans hdeed.1))
    · obtain ⟨hpress, hgrant, -⟩ := does_spent_iff.mp hd
      rw [hpaid, spends_append_of_spend hpress hgrant, List.length_append, List.length_append, hp]
      rfl

/-! ### The sets of phases that nothing leaves -/

/-- Without an opening the budget stays unopened. -/
theorem closed_unopened :
    (life id).Closed (fun x => ∀ n, ¬ Does id (.opened n) x) (· = .unopened) := by
  intro p x q hp hx hnext
  subst hp
  rcases life_next_cases hnext with ⟨rfl, -⟩ | ⟨d, hd, hnext⟩
  · rfl
  · cases d with
    | opened n => exact absurd hd (hx n)
    | _ => cases hnext

/-- Once opened it never is unopened again. -/
theorem closed_opened : (life id).Closed (fun _ => True) (· ≠ .unopened) := by
  intro p x q hp _ hnext
  rcases life_next_cases hnext with ⟨rfl, -⟩ | ⟨d, -, hnext⟩
  · exact hp
  · exact Phase.next_ne hnext

theorem closed_past : (life id).Closed (fun _ => True) (fun p => ∃ paid, p = .past paid) := by
  rintro p x q ⟨paid, rfl⟩ _ hnext
  rcases life_next_cases hnext with ⟨rfl, -⟩ | ⟨d, -, hnext⟩
  · exact ⟨paid, rfl⟩
  · cases d <;> cases hnext

/-- A budget on hold stays so until it is resumed or ended. -/
theorem closed_held : (life id).Closed (fun x => ¬ Does id .resumed x)
    (fun p => (∃ n paid, p = .running true n paid) ∨ ∃ paid, p = .past paid) := by
  rintro p x q hp hx hnext
  rcases life_next_cases hnext with ⟨rfl, -⟩ | ⟨d, hd, hnext⟩
  · exact hp
  · rcases hp with ⟨n, paid, rfl⟩ | ⟨paid, rfl⟩
    · cases d with
      | resumed => exact absurd hd hx
      | ended =>
        obtain rfl := Option.some.inj hnext
        exact .inr ⟨paid, rfl⟩
      | _ => cases hnext
    · cases d <;> cases hnext

/-- A chain that the life of the id reads has it live once. -/
theorem oneLife_of_read (h : ((life id).read ls).isSome = true) : OneLife ls id := by
  obtain ⟨p, h⟩ := Option.isSome_iff_exists.mp h
  -- each part is a letter that the automaton cannot read in the state it is in
  refine ⟨?_, ?_, ?_, ?_, ?_⟩
  · rintro xs x ys d rfl hd hopening
    by_contra hno
    have hq : ∀ y ∈ xs, ∀ n, ¬ Does id (.opened n) y := fun y hy n hn => hno ⟨y, hy, n, hn⟩
    refine closed_unopened.never (p := Does id d) (fun p y hp hy => ?_) rfl hq h hd
    subst hp
    rw [life_next_of_does hy]
    cases d <;> first | rfl | cases hopening
  · rintro xs x ys n rfl hd y hy m hm
    obtain ⟨a, b, -, hb, hrest⟩ := Monitor.readFrom_split h
    obtain ⟨us, vs, rfl⟩ := List.append_of_mem hy
    have hopened : b ≠ .unopened := by
      rw [life_next_of_does hd] at hb
      exact Phase.next_ne hb
    refine closed_opened.never (p := Does id (.opened m)) (fun p y hp hy => ?_) hopened
      (fun _ _ => trivial) hrest hm
    rw [life_next_of_does hy]
    cases p with
    | unopened => exact absurd rfl hp
    | running held n paid => cases held <;> rfl
    | past paid => rfl
  · rintro xs x ys rfl hd y hy d hdoes
    obtain ⟨a, b, -, hb, hrest⟩ := Monitor.readFrom_split h
    obtain ⟨us, vs, rfl⟩ := List.append_of_mem hy
    have hpast : ∃ paid, b = .past paid := by
      rw [life_next_of_does hd] at hb
      cases a with
      | running held n paid =>
        rw [Phase.next_ended] at hb
        exact ⟨paid, (Option.some.inj hb).symm⟩
      | _ => cases hb
    refine closed_past.never (p := Does id d) (fun p y hp hy => ?_) hpast
      (fun _ _ => trivial) hrest hdoes
    obtain ⟨paid, rfl⟩ := hp
    rw [life_next_of_does hy]
    cases d <;> rfl
  · rintro xs x ys z zs step scope rfl hd hz
    by_contra hno
    have hq : ∀ y ∈ ys, ¬ Does id .resumed y := fun y hy hr => hno ⟨y, hy, hr⟩
    obtain ⟨a, b, -, hb, hrest⟩ := Monitor.readFrom_split h
    have hheld : ∃ n paid, b = .running true n paid := by
      rw [life_next_of_does hd] at hb
      cases a with
      | running held n paid =>
        cases held with
        | false => exact ⟨n, paid, (Option.some.inj hb).symm⟩
        | true => cases hb
      | _ => cases hb
    refine closed_held.never (p := Does id (.spent step scope)) (fun p y hp hy => ?_) (.inl hheld)
      hq hrest hz
    rw [life_next_of_does hy]
    rcases hp with ⟨n, paid, rfl⟩ | ⟨paid, rfl⟩ <;> rfl
  · rintro xs x ys step scope rfl hd
    obtain ⟨a, b, ha, hb, -⟩ := Monitor.readFrom_split h
    rw [life_next_of_does hd] at hb
    rcases Phase.next_paid hb with ⟨-, hno⟩ | ⟨step', scope', heq, hstep, -⟩
    · exact absurd rfl (hno step scope)
    · obtain ⟨rfl, -⟩ := Deed.spent.inj heq
      rw [hstep, life_paid ha]

/-- Whatever a key does, each budget has one life on its chain. -/
theorem budgets_live_once (h : Reachable E k) (hclean : CleanBoots k.log) (hshort : Short k.log)
    (id : UInt32) : OneLife (links k) id :=
  oneLife_of_read ((Trace.lived h.trace hclean hshort).reads id)

theorem budgets_live_once_of_use : OneLife (links Demo.usedOnce) 1 :=
  budgets_live_once Demo.reachable_usedOnce (by decide +kernel) (by decide +kernel) 1

end

end OkRn.Budgets
