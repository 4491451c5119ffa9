/-
OkRn/Budgets/Tally.lean

The chains a key writes for a budget, from the key's own model.

While a budget is in a place of the key, its counters are the numbers of its spends in
the chain (`Paid`), and what holds of the spends then stays true when the budget is
gone.  An id is the seq of the link that opened the budget, plus one, so no later
budget of the chain has it.

Main result: `written_of_had`.

* `Paid` ties the counters of a place to the spends of its id;
* `Sound` is what the key checks of the terms before it opens a budget;
* `Tallied` says both of every place, with what a spend may look like, and every move
  keeps it (`Move.tallied`);
* `Had` is a budget that is, or was, in a place of the run.
-/
import OkRn.Budgets.Left
import OkRn.Edge.Pickup
import OkRn.Edge.Labels
import Mathlib.Data.Fin.SuccPred

namespace OkRn.Budgets

open OkRn.Edge

variable {E : Env} {k k' : Key} {l : Label}

/-! ### What a move does to the chain -/

/-- The links of the chain, oldest first. -/
def links (k : Key) : List Link := ((chainOf k.log).map Welded.link).reverse

/-- What a move does to the chain and the budgets. -/
inductive Changes (E : Env) (k k' : Key) : Prop
  | quiet (hchain : chainOf k'.log = chainOf k.log) (hbudgets : k'.budgets = k.budgets)
  | anew (hchain : chainOf k'.log = []) (hbudgets : k'.budgets = fun _ => Budget.blank)
  | continued {w : Welded} (hchain : chainOf k'.log = w :: chainOf k.log)
      (hpress : w.link.selfPress = false) (hdecision : w.link.decision ≠ decisionSelfPress)
      (hbudgets : k'.budgets = fun _ => Budget.blank)
  | act {w : Welded} {reveal : Option Digest} {l : Label}
      (hchain : chainOf k'.log = w :: chainOf k.log)
      (hact : Act E k l w.link reveal k'.budgets)

/-- What a move does to the places of the key, with the link it welds. -/
theorem Move.changes (h : Move E l k k') (hk : Linked E k) : Changes E k k' := by
  cases h with
  | ram h =>
    obtain ⟨seg, hlog, hseg⟩ := h.sameChain.log
    exact .quiet (by rw [hlog, chainOf_append hseg]) h.sameChain.budgets
  | announce t buf =>
    rcases recvTxStart_cases t buf k with hstill | ⟨-, -, token, intent, htx⟩
    · obtain ⟨seg, hlog, hseg⟩ := hstill.sameChain.log (E := E)
      exact .quiet (by rw [hlog, chainOf_append hseg]) hstill.budgets
    · rw [htx]
      exact .quiet rfl rfl
  | load _ => exact .quiet (by rw [stateLoad_log]) (stateLoad_budgets E k)
  | salt salt hload hid hsalt =>
    -- a record without a salt has no links
    have hnil : chainOf k.log = [] := hk.chain_nil fun w _ hends => by
      have hsalted := hends.salted
      rw [Key.kept, if_pos hload, hsalt] at hsalted
      cases hsalted
    exact .quiet (by rw [hnil]; rfl) rfl
  | known => exact .quiet rfl rfl
  | genesis => exact .quiet rfl rfl
  | continued hload hid hsalt hident hcont =>
    exact .continued (w := ⟨_, _, _, _⟩) (by rw [continued_log]; rfl) rfl
      (show decisionApprove ≠ decisionSelfPress by decide) rfl
  | resave => exact .quiet rfl rfl
  | act hload hid hact =>
    exact .act (w := ⟨_, _, _, _⟩) (by rw [weldIn_log]; rfl) hact
  | restore sec hload hsec =>
    rw [restore_eq sec hload hsec]
    exact .anew (by rw [restored_log (sectionState_gen _ _)]; rfl) rfl
  | wipe => exact .anew rfl rfl

/-- One more than the seq of the last link; 0 without links. -/
def top (k : Key) : Nat := ((chainOf k.log).head?.map fun w => w.link.seq.toNat + 1).getD 0

/-- The next link is past the last. -/
theorem top_le_seq {w : Welded} (hchain : chainOf k'.log = w :: chainOf k.log)
    (hk' : Linked E k') (hshort : Short k.log) : top k ≤ w.link.seq.toNat := by
  have hwelds := hk'.welds
  rw [hchain] at hwelds
  rcases hc : chainOf k.log with - | ⟨v, vs⟩
  · rw [top, hc]
    exact Nat.zero_le _
  · rw [hc] at hwelds
    have hmem : .link v ∈ k.log := mem_of_chainOf (by rw [hc]; exact List.mem_cons_self)
    have hne : v.link.seq.toNat ≠ 4294967295 := by
      intro heq
      have hnone : v.link.seq = seqNone := UInt32.toNat_inj.mp heq
      exact absurd hnone (by simpa [Entry.short] using hshort _ hmem)
    have hbound := v.link.seq.toNat_lt
    have hseq : w.link.seq.toNat = v.link.seq.toNat + 1 := by
      rw [hwelds.1, UInt32.toNat_add]
      show (v.link.seq.toNat + 1) % 4294967296 = v.link.seq.toNat + 1
      omega
    rw [top, hc, hseq]
    exact Nat.le_refl _

/-- A link takes the counter on by one. -/
theorem top_cons {w : Welded} (hchain : chainOf k'.log = w :: chainOf k.log) :
    top k' = w.link.seq.toNat + 1 := by
  rw [top, hchain]
  rfl

/-- It is the last of the chain. -/
theorem links_cons {w : Welded} (hchain : chainOf k'.log = w :: chainOf k.log) :
    links k' = links k ++ [w.link] := by
  rw [links, hchain, List.map_cons, List.reverse_cons]
  rfl

/-- Without a link the chain is the same. -/
theorem links_same (hchain : chainOf k'.log = chainOf k.log) : links k' = links k := by
  rw [links, hchain]
  rfl

/-! ### The spends of a chain that grows -/

variable {ls ls' : List Link} {x : Link} {id : UInt32}

/-- What holds of the links so far and of one more. -/
theorem forall_mem_grown {P : Link → Prop} (hgrown : ls' = ls ++ [x]) (hold : ∀ l ∈ ls, P l)
    (hnew : P x) : ∀ l ∈ ls', P l := by
  intro l hl
  rw [hgrown] at hl
  rcases List.mem_append.mp hl with hl | hl
  · exact hold l hl
  · rw [List.mem_singleton.mp hl]
    exact hnew

/-- A link that is no spend of the budget adds none. -/
theorem spends_append_of_plain (h : x.selfPress = false ∨ x.grantId ≠ id) :
    spends (ls ++ [x]) id = spends ls id := by
  have hnot : (x.selfPress && x.grantId == id) = false := by
    rcases h with h | h <;> simp [h]
  rw [spends, List.filter_append, List.filter_cons_of_neg (by simp [hnot]), List.filter_nil,
    List.append_nil]
  rfl

theorem spends_append_of_spend (h : x.selfPress = true) (hid : x.grantId = id) :
    spends (ls ++ [x]) id = spends ls id ++ [x] := by
  rw [spends, List.filter_append, List.filter_cons_of_pos (by simp [h, hid]), List.filter_nil]
  rfl

/-- A spend is paid by the scope that it names. -/
theorem paidBy_append_of_spend (h : x.selfPress = true) (hid : x.grantId = id) (j : Nat) :
    paidBy (ls ++ [x]) id j = paidBy ls id j + if x.scope.toNat = j + 1 then 1 else 0 := by
  rw [paidBy, spends_append_of_spend h hid, List.countP_append, List.countP_singleton, paidBy]
  simp only [beq_iff_eq]

/-! ### A budget and its spends -/

/-- What a budget's spends are, while it lives and after. -/
structure Paid (b : Budget) (k : Key) : Prop where
  named : ∀ l ∈ spends (links k) b.id, ∃ j : Fin 4, j.val < b.nscopes ∧
    l.scope.toNat = j.val + 1 ∧ l.op = (b.scopes j).op ∧ l.slot = (b.scopes j).slot
  room : ∀ j : Fin 4, paidBy (links k) b.id j ≤ (b.scopes j).cap
  steps : ∀ l ∈ spends (links k) b.id, l.grantStep.toNat ≤ (spends (links k) b.id).length
  low : b.id.toNat ≤ top k
  places : ∀ i, (k.budgets i).id = b.id → (k.budgets i).terms = b.terms ∧
    (k.budgets i).used = (spends (links k) b.id).length ∧
      ∀ j : Fin 4, ((k.budgets i).scopes j).used = paidBy (links k) b.id j
  one : ∀ i n, (k.budgets i).id = b.id → (k.budgets n).id = b.id → i = n

/-- Budgets on the same terms have the same scopes. -/
theorem terms_scope {b c : Budget} (h : b.terms = c.terms) (j : Fin 4) :
    (b.scopes j).op = (c.scopes j).op ∧ (b.scopes j).slot = (c.scopes j).slot ∧
      (b.scopes j).cap = (c.scopes j).cap := by
  have hscopes : b.terms.scopes j = c.terms.scopes j := by rw [h]
  show (b.terms.scopes j).op = (c.terms.scopes j).op ∧ (b.terms.scopes j).slot =
    (c.terms.scopes j).slot ∧ (b.terms.scopes j).cap = (c.terms.scopes j).cap
  rw [hscopes]
  exact ⟨rfl, rfl, rfl⟩

theorem terms_nscopes {b c : Budget} (h : b.terms = c.terms) : b.nscopes = c.nscopes :=
  show b.terms.nscopes = c.terms.nscopes from congrArg Budget.nscopes h

/-- What was paid is a matter of the terms and the chain. -/
theorem Paid.of_terms {b c : Budget} (h : Paid b k) (hterms : c.terms = b.terms) : Paid c k := by
  have hid := id_of_terms hterms
  refine ⟨?_, ?_, ?_, ?_, ?_, ?_⟩
  · intro l hl
    rw [hid] at hl
    obtain ⟨j, hj, hscope, hop, hslot⟩ := h.named l hl
    obtain ⟨hop', hslot', -⟩ := terms_scope hterms j
    exact ⟨j, (terms_nscopes hterms).symm ▸ hj, hscope, hop.trans hop'.symm,
      hslot.trans hslot'.symm⟩
  · intro j
    rw [hid, (terms_scope hterms j).2.2]
    exact h.room j
  · rw [hid]
    exact h.steps
  · rw [hid]
    exact h.low
  · rw [hid, hterms]
    exact h.places
  · rw [hid]
    exact h.one

/-- No spend of the budget is added, and a place that has it keeps its terms and counters. -/
theorem Paid.plain {b : Budget} (h : Paid b k)
    (hspends : spends (links k') b.id = spends (links k) b.id) (htop : top k ≤ top k')
    (hbudgets : ∀ i, (k'.budgets i).id = b.id → (k'.budgets i).terms = (k.budgets i).terms ∧
      (k'.budgets i).used = (k.budgets i).used ∧
        ∀ j, ((k'.budgets i).scopes j).used = ((k.budgets i).scopes j).used) : Paid b k' := by
  have hpaid (j : Nat) : paidBy (links k') b.id j = paidBy (links k) b.id j := by
    rw [paidBy, hspends, paidBy]
  have hid (i : Fin 4) (hi : (k'.budgets i).id = b.id) : (k.budgets i).id = b.id :=
    (id_of_terms (hbudgets i hi).1).symm.trans hi
  refine ⟨?_, ?_, ?_, h.low.trans htop, ?_, fun i n hi hn => h.one i n (hid i hi) (hid n hn)⟩
  · rw [hspends]
    exact h.named
  · intro j
    rw [hpaid]
    exact h.room j
  · rw [hspends]
    exact h.steps
  · intro i hi
    obtain ⟨hterms, hused, hscopes⟩ := hbudgets i hi
    obtain ⟨hterms', hused', hscopes'⟩ := h.places i (hid i hi)
    refine ⟨hterms.trans hterms', ?_, fun j => ?_⟩
    · rw [hused, hused', hspends]
    · rw [hscopes, hscopes', hpaid]

/-- One place is written, with the budget it had, held or not, or with another's. -/
theorem Paid.update {b c : Budget} (h : Paid b k) {i : Fin 4}
    (hspends : spends (links k') b.id = spends (links k) b.id) (htop : top k ≤ top k')
    (hbudgets : k'.budgets = Function.update k.budgets i c)
    (hc : c.id = b.id → ∃ held, c = { k.budgets i with onHold := held }) : Paid b k' := by
  refine h.plain hspends htop fun n hn => ?_
  rw [hbudgets] at hn ⊢
  rcases eq_or_ne n i with rfl | hne
  · rw [Function.update_self] at hn ⊢
    obtain ⟨held, rfl⟩ := hc hn
    exact ⟨rfl, rfl, fun _ => rfl⟩
  · rw [Function.update_of_ne hne]
    exact ⟨rfl, rfl, fun _ => rfl⟩

/-- The use that place `i` pays, by its scope `j`. -/
structure Spend (k : Key) (link : Link) (i j : Fin 4) : Prop where
  press : link.selfPress = true
  id : link.grantId = (k.budgets i).id
  step : link.grantStep = UInt16.ofNat ((k.budgets i).used + 1)
  scope : link.scope.toNat = j.val + 1
  named : j.val < (k.budgets i).nscopes
  room : ((k.budgets i).scopes j).used < ((k.budgets i).scopes j).cap
  op : link.op = ((k.budgets i).scopes j).op
  slot : link.slot = ((k.budgets i).scopes j).slot

/-- What an act does to the budgets: one of them pays a use, or one place is emptied, held or not,
or has a new budget. -/
theorem Act.effect {link : Link} {reveal : Option Digest} {budgets : Fin 4 → Budget}
    (h : Act E k l link reveal budgets) :
    (∃ i j, Spend k link i j ∧ budgets = Function.update k.budgets i ((k.budgets i).charge j)) ∨
      link.selfPress = false ∧ (link.decision = decisionSelfPress →
        link.op = opReceipt ∨ link.op = opGrantEnd) ∧
      ∃ i c, budgets = Function.update k.budgets i c ∧
        (c = Budget.blank ∨ (∃ held, c = { k.budgets i with onHold := held }) ∨
          ∃ now, k.press.what = .grant ∧ c = Grant.opened k.press (link.seq + 1) now) := by
  have hno : ¬ decisionApprove = decisionSelfPress := by decide
  have hsame : k.budgets = Function.update k.budgets 0 { k.budgets 0 with
      onHold := (k.budgets 0).onHold } := (Function.update_eq_self 0 k.budgets).symm
  cases h with
  | @spend i j now hpend hstart hpay halive hfree hroom hscope =>
    have hfound := List.find?_some hscope
    simp only [Bool.and_eq_true, decide_eq_true_eq, scopeMatches] at hfound
    obtain ⟨⟨hj, hmatch⟩, hcap⟩ := hfound
    -- the scope found is the one that the request names
    have hneither : ¬ (((k.budgets i).scopes j).op != opOf k.pend.opcode ||
        ((k.budgets i).scopes j).slot != k.pend.slot) = true := by
      intro hneither
      rw [if_pos hneither] at hmatch
      cases hmatch
    simp only [Bool.or_eq_true, bne_iff_ne, not_or, not_not] at hneither
    have hop : opOf k.pend.opcode = opSign ∨ opOf k.pend.opcode = opDecrypt := by
      unfold opOf
      split
      · exact Or.inl rfl
      · exact Or.inr rfl
    refine Or.inl ⟨i, j, ⟨?_, rfl, rfl, ?_, hj, hcap, hneither.1.symm, hneither.2.symm⟩, rfl⟩
    · simp only [Link.selfPress, Key.nextLink]
      rcases hop with hop | hop <;> rw [hop] <;> rfl
    · show (UInt8.ofNat (j.val + 1)).toNat = j.val + 1
      have hj4 := j.isLt
      rw [UInt8.toNat_ofNat']
      exact Nat.mod_eq_of_lt (by omega)
  | create i now hwhat howes =>
    exact Or.inr ⟨rfl, fun h => absurd h hno, i, _, rfl, Or.inr (Or.inr ⟨now, hwhat, rfl⟩)⟩
  | @finish how i hid =>
    exact Or.inr ⟨rfl, fun _ => Or.inr rfl, i, _, rfl, Or.inl rfl⟩
  | @hold i hid hfree =>
    exact Or.inr ⟨rfl, fun h => absurd h hno, i, _, rfl, Or.inr (Or.inl ⟨true, rfl⟩)⟩
  | @resume i hid hheld howes =>
    exact Or.inr ⟨rfl, fun h => absurd h hno, i, _, rfl, Or.inr (Or.inl ⟨false, rfl⟩)⟩
  | receipt code subject howes =>
    exact Or.inr ⟨rfl, fun _ => Or.inl rfl, 0, _, hsame, Or.inr (Or.inl ⟨_, rfl⟩)⟩
  | settle howes => exact Or.inr ⟨rfl, fun _ => Or.inl rfl, 0, _, hsame, Or.inr (Or.inl ⟨_, rfl⟩)⟩
  | loss first subject =>
    exact Or.inr ⟨rfl, fun h => absurd h hno, 0, _, hsame, Or.inr (Or.inl ⟨_, rfl⟩)⟩

/-- The budget pays a use: its counters go up with its spends. -/
theorem Paid.spend {b : Budget} (h : Paid b k) {link : Link} {i j : Fin 4}
    (hspend : Spend k link i j) (hid : (k.budgets i).id = b.id)
    (hlinks : links k' = links k ++ [link]) (htop : top k ≤ top k')
    (hbudgets : k'.budgets = Function.update k.budgets i ((k.budgets i).charge j)) :
    Paid b k' := by
  obtain ⟨hterms, hused, hscopes⟩ := h.places i hid
  have hgrant : link.grantId = b.id := hspend.id.trans hid
  have hspends : spends (links k') b.id = spends (links k) b.id ++ [link] := by
    rw [hlinks, spends_append_of_spend hspend.press hgrant]
  have hpaid (n : Fin 4) :
      paidBy (links k') b.id n = paidBy (links k) b.id n + if n = j then 1 else 0 := by
    rw [hlinks, paidBy_append_of_spend hspend.press hgrant, hspend.scope]
    congr 1
    -- byte 46 is one more than the scope's number
    by_cases hn : n = j
    · rw [if_pos hn, if_pos (by rw [hn])]
    · rw [if_neg hn, if_neg fun heq => hn (Fin.ext (Nat.succ.inj heq).symm)]
  have hids (n : Fin 4) : (k'.budgets n).id = (k.budgets n).id := by
    rw [hbudgets]
    rcases eq_or_ne n i with rfl | hne
    · rw [Function.update_self]
      rfl
    · rw [Function.update_of_ne hne]
  refine ⟨?_, ?_, ?_, h.low.trans htop, ?_, fun n n' hn hn' =>
    h.one n n' ((hids n).symm.trans hn) ((hids n').symm.trans hn')⟩
  · obtain ⟨hop, hslot, -⟩ := terms_scope hterms j
    exact forall_mem_grown hspends h.named ⟨j, terms_nscopes hterms ▸ hspend.named, hspend.scope,
      hspend.op.trans hop, hspend.slot.trans hslot⟩
  · intro n
    rw [hpaid]
    split
    · rename_i hn
      subst hn
      have hroom := hspend.room
      rw [hscopes, (terms_scope hterms n).2.2] at hroom
      exact hroom
    · exact h.room n
  · have hlen : (spends (links k') b.id).length = (spends (links k) b.id).length + 1 := by
      rw [hspends, List.length_append, List.length_singleton]
    rw [hlen]
    refine forall_mem_grown hspends (fun l hl => (h.steps l hl).trans (Nat.le_succ _)) ?_
    rw [hspend.step, hused, UInt16.toNat_ofNat']
    exact Nat.mod_le _ _
  · intro n hn
    -- no other place has the budget
    obtain rfl : n = i := h.one n i ((hids n).symm.trans hn) hid
    rw [hbudgets, Function.update_self]
    refine ⟨(charge_terms _ _).trans hterms, ?_, fun j' => ?_⟩
    · rw [hspends, List.length_append, List.length_singleton, ← hused]
      rfl
    · rw [hpaid, ← hscopes]
      show (Function.update (k.budgets n).scopes j _ j').used = _
      rcases eq_or_ne j' j with rfl | hne
      · rw [Function.update_self, if_pos rfl]
      · rw [Function.update_of_ne hne, if_neg hne]
        rfl

/-- An act leaves what is paid of a budget as it was, or pays one more use. -/
theorem Paid.act {b : Budget} (h : Paid b k) (hid : b.id ≠ 0) {w : Welded} {reveal : Option Digest}
    (hact : Act E k l w.link reveal k'.budgets) (hchain : chainOf k'.log = w :: chainOf k.log)
    (hnext : top k ≤ w.link.seq.toNat) (hlast : w.link.seq.toNat + 1 < 2 ^ 32) : Paid b k' := by
  have htop : top k ≤ top k' := by
    rw [top_cons hchain]
    omega
  have hlinks := links_cons hchain
  rcases Act.effect hact with ⟨i, j, hspend, hbudgets⟩ | ⟨hpress, -, i, c, hbudgets, hc⟩
  · by_cases hb : (k.budgets i).id = b.id
    · exact h.spend hspend hb hlinks htop hbudgets
    · have hne : w.link.grantId ≠ b.id := fun heq => hb (hspend.id.symm.trans heq)
      refine h.update (i := i) ?_ htop hbudgets fun hcharge => absurd hcharge hb
      rw [hlinks, spends_append_of_plain (Or.inr hne)]
  · refine h.update (i := i) ?_ htop hbudgets fun hcid => ?_
    · rw [hlinks, spends_append_of_plain (Or.inl hpress)]
    · rcases hc with rfl | hheld | ⟨now, -, rfl⟩
      · exact absurd hcid.symm hid
      · exact hheld
      · -- its id is past every link so far
        have hseq : b.id.toNat = w.link.seq.toNat + 1 := by
          rw [← hcid, show (Grant.opened k.press (w.link.seq + 1) now).id = w.link.seq + 1 from rfl,
            UInt32.toNat_add]
          exact Nat.mod_eq_of_lt hlast
        have hlow := h.low
        omega

/-! ### The budgets of a key -/

/-- The terms a press can have fixed. -/
structure Sound (b : Budget) : Prop where
  nscopes : b.nscopes ≤ 4
  ops : ∀ j : Fin 4, j.val < b.nscopes → (b.scopes j).op = opSign ∨ (b.scopes j).op = opDecrypt
  uses : b.uses = ((List.finRange 4).map fun j : Fin 4 =>
    if j.val < b.nscopes then (b.scopes j).cap else 0).sum

theorem Sound.of_terms {b c : Budget} (h : Sound b) (hterms : c.terms = b.terms) : Sound c := by
  have hn := terms_nscopes hterms
  refine ⟨hn.symm ▸ h.nscopes, fun j hj => ?_, ?_⟩
  · rw [(terms_scope hterms j).1]
    exact h.ops j (hn ▸ hj)
  · have huses : c.uses = b.uses :=
      show c.terms.uses = b.terms.uses from congrArg Budget.uses hterms
    rw [huses, h.uses, hn]
    simp only [(terms_scope hterms _).2.2]

/-- A budget that passed the key's checks is sound. -/
theorem Checked.sound {buf : Report} {fresh : Bool} {labels : Fin 4 → Option Digest} {p : Press}
    (h : Checked E buf fresh labels p) (id now : UInt32) : Sound (Grant.opened p id now) := by
  obtain ⟨seed, hp⟩ := h.press_eq
  have hb : p.b = Grant.budget E buf labels seed := by
    rw [hp]
    rfl
  have hscope (j : Fin 4) (hj : j.val < Grant.count buf) :
      ((Grant.opened p id now).scopes j) = Grant.scope buf labels j := by
    show p.b.scopes j = _
    rw [hb]
    exact if_pos hj
  have hn : (Grant.opened p id now).nscopes = Grant.count buf := by
    show p.b.nscopes = _
    rw [hb]
    rfl
  refine ⟨hn ▸ h.count_le, fun j hj => ?_, ?_⟩
  · rw [hn] at hj
    have hok := List.all_eq_true.mp h.scopes_ok j (List.mem_finRange j)
    rw [decide_eq_true hj, Bool.not_true, Bool.false_or, Grant.scopeOk, Bool.and_eq_true,
      Bool.and_eq_true] at hok
    -- a scope's operation is sign or decrypt, nothing else passes
    have hallowed := hok.1.1
    rw [hscope j hj]
    unfold scopeAllowed at hallowed
    dsimp only at hallowed
    split at hallowed
    · rename_i hsign
      exact Or.inl hsign
    · split at hallowed
      · rename_i hdecrypt
        exact Or.inr hdecrypt
      · cases hallowed
  · rw [hn, show (Grant.opened p id now).uses = Grant.uses buf by show p.b.uses = _; rw [hb]; rfl]
    refine congrArg List.sum (List.map_congr_left fun j _ => ?_)
    by_cases hj : j.val < Grant.count buf
    · rw [if_pos hj, if_pos hj, hscope j hj]
      rfl
    · rw [if_neg hj, if_neg hj]

/-- The spends are of budgets so far, and what the key counts of its budgets is what it wrote. -/
structure Tallied (k : Key) : Prop where
  past : ∀ l ∈ links k, l.selfPress = true → l.grantId.toNat ≤ top k
  others : ∀ l ∈ links k, l.decision = decisionSelfPress →
    l.selfPress = true ∨ l.op = opReceipt ∨ l.op = opGrantEnd
  live : ∀ i, (k.budgets i).id ≠ 0 → Paid (k.budgets i) k ∧ Sound (k.budgets i)

/-- With blank places there is nothing to count. -/
theorem Tallied.of_blank (hpast : ∀ l ∈ links k, l.selfPress = true → l.grantId.toNat ≤ top k)
    (hothers : ∀ l ∈ links k, l.decision = decisionSelfPress →
      l.selfPress = true ∨ l.op = opReceipt ∨ l.op = opGrantEnd)
    (hblank : k.budgets = fun _ => Budget.blank) : Tallied k := by
  refine ⟨hpast, hothers, fun i hid => ?_⟩
  rw [hblank] at hid
  exact absurd rfl hid

/-- A budget with an id past every spend. -/
theorem Tallied.opened (h : Tallied k) {i : Fin 4} {c : Budget} {x : Link}
    (hlinks : links k' = links k ++ [x]) (hx : x.selfPress = false)
    (hbudgets : k'.budgets = Function.update k.budgets i c) (hlow : c.id.toNat = top k')
    (hlt : top k < top k') (hused : c.used = 0) (hscopes : ∀ j, (c.scopes j).used = 0) :
    Paid c k' := by
  have hnil : spends (links k') c.id = [] := by
    rw [hlinks, spends_append_of_plain (Or.inl hx)]
    -- every spend so far is of an earlier budget
    refine List.eq_nil_iff_forall_not_mem.mpr fun l hl => ?_
    obtain ⟨hmem, hpress, hgrant⟩ := mem_spends.mp hl
    have hpast := h.past l hmem hpress
    rw [hgrant] at hpast
    omega
  have hpaid (j : Nat) : paidBy (links k') c.id j = 0 := by
    rw [paidBy, hnil]
    rfl
  have hplace (n : Fin 4) (hn : (k'.budgets n).id = c.id) : n = i := by
    by_contra hne
    rw [hbudgets, Function.update_of_ne hne] at hn
    have hid : (k.budgets n).id ≠ 0 := by
      intro hzero
      rw [← hn, hzero] at hlow
      have hlow : 0 = top k' := hlow
      omega
    have hbelow := (h.live n hid).1.low
    rw [hn] at hbelow
    omega
  refine ⟨?_, ?_, ?_, le_of_eq hlow, ?_, fun n m hn hm => (hplace n hn).trans (hplace m hm).symm⟩
  · rw [hnil]
    exact fun l hl => absurd hl List.not_mem_nil
  · intro j
    rw [hpaid]
    exact Nat.zero_le _
  · rw [hnil]
    exact fun l hl => absurd hl List.not_mem_nil
  · intro n hn
    obtain rfl := hplace n hn
    rw [hbudgets, Function.update_self, hnil]
    exact ⟨rfl, hused, fun j => by rw [hscopes, hpaid]⟩

/-- A link of a plain act counts for its budget alone. -/
theorem Tallied.act (h : Tallied k) (hpress : PressOk E k) {w : Welded} {reveal : Option Digest}
    (hact : Act E k l w.link reveal k'.budgets) (hchain : chainOf k'.log = w :: chainOf k.log)
    (hnext : top k ≤ w.link.seq.toNat) (hlast : w.link.seq.toNat + 1 < 2 ^ 32) : Tallied k' := by
  have hlinks := links_cons hchain
  have htop : top k' = w.link.seq.toNat + 1 := top_cons hchain
  have hpast : ∀ l ∈ links k, l.selfPress = true → l.grantId.toNat ≤ top k' := fun l hl hpress => by
    have hold := h.past l hl hpress
    omega
  have hlive {i n : Fin 4} {c : Budget} (hn : (k'.budgets n).id ≠ 0)
      (hbudgets : k'.budgets = Function.update k.budgets i c)
      (hc : n = i → c.terms = (k.budgets i).terms) :
      Paid (k'.budgets n) k' ∧ Sound (k'.budgets n) := by
    have hterms : (k'.budgets n).terms = (k.budgets n).terms := by
      rw [hbudgets]
      rcases eq_or_ne n i with rfl | hne
      · rw [Function.update_self]
        exact hc rfl
      · rw [Function.update_of_ne hne]
    have hid : (k.budgets n).id ≠ 0 := id_of_terms hterms ▸ hn
    obtain ⟨hpaid, hsound⟩ := h.live n hid
    exact ⟨(hpaid.act hid hact hchain hnext hlast).of_terms hterms, hsound.of_terms hterms⟩
  -- a use is counted in its scope; any other link leaves the counts alone
  rcases Act.effect hact with ⟨i, j, hspend, hbudgets⟩ | ⟨hplain, hother, i, c, hbudgets, hc⟩
  · refine ⟨forall_mem_grown hlinks hpast fun _ => ?_,
      forall_mem_grown hlinks h.others fun _ => Or.inl hspend.press,
      fun n hn => hlive hn hbudgets fun _ => charge_terms _ _⟩
    rw [hspend.id]
    -- a place that was free has a new id now
    by_cases hid : (k.budgets i).id = 0
    · rw [hid]
      exact Nat.zero_le _
    · have hlow := (h.live i hid).1.low
      omega
  · refine ⟨forall_mem_grown hlinks hpast fun hpress => ?_,
      forall_mem_grown hlinks h.others fun hdecision => Or.inr (hother hdecision), fun n hn => ?_⟩
    · rw [hplain] at hpress
      cases hpress
    · by_cases hni : n = i
      · subst hni
        have hself : k'.budgets n = c := by rw [hbudgets, Function.update_self]
        rcases hc with rfl | ⟨held, rfl⟩ | ⟨now, hwhat, rfl⟩
        · rw [hself] at hn
          exact absurd rfl hn
        · exact hlive hn hbudgets fun _ => rfl
        · -- a new budget, as its request was checked
          obtain ⟨buf, fresh, labels, hchecked⟩ := hpress hwhat
          obtain ⟨seed, hp⟩ := hchecked.press_eq
          have hid : (Grant.opened k.press (w.link.seq + 1) now).id.toNat = top k' := by
            rw [htop, show (Grant.opened k.press (w.link.seq + 1) now).id = w.link.seq + 1 from rfl,
              UInt32.toNat_add]
            exact Nat.mod_eq_of_lt hlast
          rw [hself]
          refine ⟨h.opened hlinks hplain hbudgets hid (by omega) ?_ fun j => ?_,
            Checked.sound hchecked _ _⟩
          · show k.press.b.used = 0
            rw [hp]
            rfl
          · show (k.press.b.scopes j).used = 0
            rw [hp]
            show (Grant.scopes buf labels j).used = 0
            unfold Grant.scopes
            split <;> rfl
      · exact hlive hn hbudgets fun heq => absurd heq hni

/-- The next link of a chain that is not full. -/
theorem next_link {w : Welded} (hchain : chainOf k'.log = w :: chainOf k.log) (hk' : Linked E k')
    (hshort : Short k.log) (hshort' : Short k'.log) :
    top k ≤ w.link.seq.toNat ∧ w.link.seq.toNat + 1 < 2 ^ 32 := by
  refine ⟨top_le_seq hchain hk' hshort, ?_⟩
  have hmem : .link w ∈ k'.log := mem_of_chainOf (by rw [hchain]; exact List.mem_cons_self)
  have hbound := w.link.seq.toNat_lt
  have hne : w.link.seq.toNat ≠ 4294967295 := by
    intro heq
    have hnone : w.link.seq = seqNone := UInt32.toNat_inj.mp heq
    exact absurd hnone (by simpa [Entry.short] using hshort' _ hmem)
  omega

/-- Every move of the key keeps the counts. -/
theorem Move.tallied (h : Move E l k k') (hk : Linked E k) (hpress : PressOk E k)
    (hshort : Short k'.log) (ht : Tallied k) : Tallied k' := by
  have hshort' : Short k.log := hshort.of_suffix h.suffix
  -- what a move may do to the chain and to the budgets
  cases Move.changes h hk with
  | quiet hchain hbudgets =>
    have hlinks := links_same hchain
    have htop : top k' = top k := by rw [top, hchain, top]
    refine ⟨?_, ?_, fun i hid => ?_⟩
    · rw [hlinks, htop]
      exact ht.past
    · rw [hlinks]
      exact ht.others
    · rw [hbudgets] at hid ⊢
      obtain ⟨hpaid, hsound⟩ := ht.live i hid
      refine ⟨hpaid.plain (by rw [hlinks]) (le_of_eq htop.symm) fun n _ => ?_, hsound⟩
      rw [hbudgets]
      exact ⟨rfl, rfl, fun _ => rfl⟩
  | anew hchain hblank =>
    have hnil : links k' = [] := by
      rw [links, hchain]
      rfl
    exact .of_blank (by rw [hnil]; exact fun l hl => absurd hl List.not_mem_nil)
      (by rw [hnil]; exact fun l hl => absurd hl List.not_mem_nil) hblank
  | @continued w hchain hplain hdecision hblank =>
    have hlinks := links_cons hchain
    have hnext := next_link hchain (h.linked hshort' hk) hshort' hshort
    have htop : top k' = w.link.seq.toNat + 1 := top_cons hchain
    refine .of_blank (forall_mem_grown hlinks (fun l hl hpress => ?_) fun hpress => ?_)
      (forall_mem_grown hlinks ht.others fun heq => absurd heq hdecision) hblank
    · have hpast := ht.past l hl hpress
      omega
    · rw [hplain] at hpress
      cases hpress
  | act hchain hact =>
    have hnext := next_link hchain (h.linked hshort' hk) hshort' hshort
    exact ht.act hpress hact hchain hnext.1 hnext.2

theorem Trace.tallied (h : Trace E k) (hclean : CleanBoots k.log) (hshort : Short k.log) :
    Tallied k := by
  induction h with
  | new core =>
    exact .of_blank (fun l hl => absurd hl List.not_mem_nil)
      (fun l hl => absurd hl List.not_mem_nil) rfl
  | move htrace hmove ih =>
    have hclean' := hclean.of_suffix hmove.suffix
    have hshort' := hshort.of_suffix hmove.suffix
    exact Move.tallied hmove (htrace.linked hclean' hshort') htrace.granted.1 hshort
      (ih hclean' hshort')
  | boot core _ _ ih =>
    have ht := ih (hclean.of_suffix ⟨[_], rfl⟩) (hshort.of_suffix ⟨[_], rfl⟩)
    exact .of_blank ht.past ht.others rfl

/-! ### A budget that is gone -/

/-- A budget that the key has, or had on the chain it has. -/
inductive Had (E : Env) (b : Budget) : Key → Prop
  | live {k : Key} (h : Trace E k) {i : Fin 4} (hi : k.budgets i = b) (hid : b.id ≠ 0) : Had E b k
  | move {k k' : Key} {l : Label} : Had E b k → Move E l k k' →
      chainOf k.log <:+ chainOf k'.log → Had E b k'
  | boot {k : Key} (core : Core) {torn : Option (Bool × Sector)} : Had E b k →
      Torn E (DoubleBuffer.side ((k.kept E).gen + 1)) torn →
      Had E b (reboot E torn k.flash core k.log)

variable {b : Budget}

/-- A key that has or had a budget has its run. -/
theorem Had.trace (h : Had E b k) : Trace E k := by
  induction h with
  | live htrace => exact htrace
  | move _ hmove _ ih => exact ih.move hmove
  | boot core _ htorn ih => exact ih.boot core htorn

/-- The counts of a budget are its spends in the chain. -/
theorem Had.paid (h : Had E b k) (hclean : CleanBoots k.log) (hshort : Short k.log) :
    b.id ≠ 0 ∧ Paid b k ∧ Sound b := by
  induction h with
  | @live k htrace i hi hid =>
    obtain ⟨hpaid, hsound⟩ := (Trace.tallied htrace hclean hshort).live i (hi ▸ hid)
    exact ⟨hid, hi ▸ hpaid, hi ▸ hsound⟩
  | @move k k' l hhad hmove hsuffix ih =>
    have hclean' := hclean.of_suffix hmove.suffix
    have hshort' := hshort.of_suffix hmove.suffix
    have hk := hhad.trace.linked hclean' hshort'
    obtain ⟨hid, hpaid, hsound⟩ := ih hclean' hshort'
    refine ⟨hid, ?_, hsound⟩
    cases Move.changes hmove hk with
    | quiet hchain hbudgets =>
      refine hpaid.plain (by rw [links_same hchain]) (le_of_eq (by rw [top, top, hchain]))
        fun n _ => ?_
      rw [hbudgets]
      exact ⟨rfl, rfl, fun _ => rfl⟩
    | anew hchain =>
      -- the chain the budget was opened on is not empty
      rw [hchain, List.suffix_nil] at hsuffix
      have hlow := hpaid.low
      rw [top, hsuffix] at hlow
      have hzero : b.id.toNat = 0 := Nat.le_zero.mp hlow
      exact absurd (UInt32.toNat_inj.mp hzero) hid
    | @continued w hchain hplain _ hblank =>
      -- the key drops its budgets, and the spends stay on the chain
      have hnext := next_link hchain (hmove.linked hshort' hk) hshort' hshort
      refine hpaid.plain ?_ ?_ fun n hn => ?_
      · rw [links_cons hchain, spends_append_of_plain (Or.inl hplain)]
      · rw [top_cons hchain]
        omega
      · rw [hblank] at hn
        exact absurd hn.symm hid
    | act hchain hact =>
      have hnext := next_link hchain (hmove.linked hshort' hk) hshort' hshort
      exact hpaid.act hid hact hchain hnext.1 hnext.2
  | @boot k core torn _ _ ih =>
    obtain ⟨hid, hpaid, hsound⟩ := ih (hclean.of_suffix ⟨[_], rfl⟩) (hshort.of_suffix ⟨[_], rfl⟩)
    exact ⟨hid, hpaid.plain rfl (Nat.le_refl _) fun n hn => absurd hn.symm hid, hsound⟩

/-- The scopes of a budget, as the phone keeps them. -/
def scopesOf (b : Budget) : List KeptScope :=
  ((List.finRange 4).take b.nscopes).map fun j =>
    ⟨(b.scopes j).op, (b.scopes j).slot, (b.scopes j).cap⟩

/-- The scopes of the phone's record are the key's. -/
theorem scopesOf_getElem? {j : Nat} {sc : KeptScope} (h : (scopesOf b)[j]? = some sc) :
    ∃ hj : j < 4, j < b.nscopes ∧ sc = ⟨(b.scopes ⟨j, hj⟩).op, (b.scopes ⟨j, hj⟩).slot,
      (b.scopes ⟨j, hj⟩).cap⟩ := by
  rw [scopesOf, List.getElem?_map, Option.map_eq_some_iff] at h
  obtain ⟨i, hi, rfl⟩ := h
  obtain ⟨hlt, hi⟩ := List.getElem?_eq_some_iff.mp hi
  rw [List.length_take, List.length_finRange, Nat.lt_min] at hlt
  rw [List.getElem_take, List.getElem_finRange] at hi
  refine ⟨hlt.2, hlt.1, ?_⟩
  rw [← hi]
  rfl

/-- Each scope of the key is in the record, at its place. -/
theorem getElem?_scopesOf {j : Fin 4} (hj : j.val < b.nscopes) :
    (scopesOf b)[j.val]? = some ⟨(b.scopes j).op, (b.scopes j).slot, (b.scopes j).cap⟩ := by
  have hlt : j.val < ((List.finRange 4).take b.nscopes).length := by
    rw [List.length_take, List.length_finRange, Nat.lt_min]
    exact ⟨hj, j.isLt⟩
  rw [scopesOf, List.getElem?_map, List.getElem?_eq_getElem hlt, List.getElem_take,
    List.getElem_finRange]
  rfl

/-- The caps of the scopes add up to the budget's uses. -/
theorem sum_scopesOf (h : Sound b) : ((scopesOf b).map KeptScope.cap).sum = b.uses := by
  have hn := h.nscopes
  have hcases : b.nscopes = 0 ∨ b.nscopes = 1 ∨ b.nscopes = 2 ∨ b.nscopes = 3 ∨ b.nscopes = 4 := by
    omega
  rw [h.uses, scopesOf, List.map_map]
  rcases hcases with hn | hn | hn | hn | hn <;> rw [hn] <;>
    simp [List.finRange_succ, Function.comp_def]

/-- The phone's record of a budget it approved. -/
structure Approved (kept : Kept) (b : Budget) : Prop where
  scopes : kept.scopes = scopesOf b
  uses : kept.uses = b.uses

/-- Whatever budget a key has or had on its chain, the chain is one it can have written for it. -/
theorem written_of_had (h : Had E b k) (hclean : CleanBoots k.log) (hshort : Short k.log)
    {kept : Kept} (hkept : Approved kept b) : Written (links k) b.id kept := by
  obtain ⟨-, hpaid, hsound⟩ := h.paid hclean hshort
  have htallied := Trace.tallied h.trace hclean hshort
  refine ⟨?_, fun sc hsc => ?_, fun l hl => ?_, fun j sc hsc => ?_, htallied.others, hpaid.steps⟩
  · rw [hkept.scopes, hkept.uses, sum_scopesOf hsound]
  · rw [hkept.scopes] at hsc
    obtain ⟨j, hsc⟩ := List.getElem?_of_mem hsc
    obtain ⟨hj, hlt, rfl⟩ := scopesOf_getElem? hsc
    exact hsound.ops ⟨j, hj⟩ hlt
  · obtain ⟨j, hj, hscope, hop, hslot⟩ := hpaid.named l hl
    have hsc : kept.scopes[j.val]? =
        some ⟨(b.scopes j).op, (b.scopes j).slot, (b.scopes j).cap⟩ := by
      rw [hkept.scopes]
      exact getElem?_scopesOf hj
    exact ⟨j.val, _, hsc, hscope, hop, hslot⟩
  · rw [hkept.scopes] at hsc
    obtain ⟨hj, hlt, rfl⟩ := scopesOf_getElem? hsc
    exact Int.ofNat_le.mpr (hpaid.room ⟨j, hj⟩)

end OkRn.Budgets
