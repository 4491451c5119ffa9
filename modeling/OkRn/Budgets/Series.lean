/-
OkRn/Budgets/Series.lean

The hash series of a budget.

A grant-create link commits to the end of a series of hashes, and each use reveals the
value before it: the reveal of step `n` hashes `n` times to the committed value, and a
later reveal hashes to an earlier one.  So whoever holds the opening can check that a use
is of this budget, and the key cannot be made to give the same value for two links, for
the steps of a life are all different (`OneLife`).

* `SpendOf` says that a use is of the budget that a link opened, `Reveals` that its
  reveal hashes to the committed value in the number of its step;
* `Serial` is what every move of the key keeps, beside the lives (`Lived`).

Main result: `uses_reveal_the_series`.
-/
import OkRn.Budgets.Life

namespace OkRn.Budgets

open OkRn.Edge

variable {E : Env} {k k' : Key} {l : Label} {c w : Welded} {p : Press}

/-! ### Hashing again and again -/

/-- To hash `m` times and then `n` times is to hash `m + n` times. -/
theorem hashTimes_add (v : Digest) (m n : Nat) :
    hashTimes E v (m + n) = hashTimes E (hashTimes E v m) n := by
  rw [Nat.add_comm]
  exact Function.iterate_add_apply _ n m v

/-! ### The spends of an opening -/

/-- The use of a budget that this link opened. -/
def SpendOf (c w : Welded) : Prop :=
  w.link.selfPress = true ∧ w.link.grantId = c.link.grantId

/-- The link commits to the press, and each use so far revealed its own value of the series. -/
structure Series (E : Env) (chain : List Welded) (c : Welded) (p : Press) : Prop where
  subject : c.link.subject = Grant.subject E p
  genesis : p.b.genesis = hashTimes E p.b.seed p.b.uses
  reveals : ∀ w ∈ chain, SpendOf c w → w.link.grantStep.toNat ≤ p.b.uses ∧
    w.reveal = some (hashTimes E p.b.seed (p.b.uses - w.link.grantStep.toNat))

/-- The budget is one of the press. -/
def Seeded (p : Press) (b : Budget) : Prop := b.seed = p.b.seed ∧ b.uses = p.b.uses

/-- Every opening of the chain has its series, which its budget goes on with. -/
def Serial (E : Env) (k : Key) : Prop :=
  ∀ c ∈ chainOf k.log, c.link.op = opGrantCreate → c.link.grantId.toNat ≤ top k ∧
    ∃ p, Series E (chainOf k.log) c p ∧
      ∀ i, (k.budgets i).id ≠ 0 → (k.budgets i).id = c.link.grantId → Seeded p (k.budgets i)

/-- A step without a link or a change of budget keeps the series. -/
theorem Serial.same (h : Serial E k) (hchain : chainOf k'.log = chainOf k.log)
    (hbudgets : k'.budgets = k.budgets) : Serial E k' := by
  rw [Serial, hchain, hbudgets, top, hchain]
  exact h

/-- An empty chain reveals nothing. -/
theorem serial_of_nil (hchain : chainOf k.log = []) : Serial E k := by
  rw [Serial, hchain]
  exact fun c hc => nomatch hc

/-- A link that is no opening: it may be a use, which reveals the next value. -/
theorem Serial.grow (h : Serial E k) (hchain : chainOf k'.log = w :: chainOf k.log)
    (htop : top k ≤ top k') (hop : w.link.op ≠ opGrantCreate)
    (hspend : ∀ c p, c ∈ chainOf k.log → SpendOf c w →
      (∀ i, (k.budgets i).id ≠ 0 → (k.budgets i).id = c.link.grantId → Seeded p (k.budgets i)) →
      w.link.grantStep.toNat ≤ p.b.uses ∧
        w.reveal = some (hashTimes E p.b.seed (p.b.uses - w.link.grantStep.toNat)))
    (hbudgets : ∀ i, (k'.budgets i).id ≠ 0 → (k'.budgets i).id = (k.budgets i).id ∧
      (k'.budgets i).seed = (k.budgets i).seed ∧ (k'.budgets i).uses = (k.budgets i).uses) :
    Serial E k' := by
  intro c hc hcop
  rw [hchain] at hc ⊢
  rcases List.mem_cons.mp hc with rfl | hmem
  · exact absurd hcop hop
  · obtain ⟨hlow, p, hseries, hlive⟩ := h c hmem hcop
    refine ⟨hlow.trans htop, p, ⟨hseries.subject, hseries.genesis, fun v hv hspent => ?_⟩, fun i hid heq => ?_⟩
    · rcases List.mem_cons.mp hv with rfl | hv
      · exact hspend c p hmem hspent hlive
      · exact hseries.reveals v hv hspent
    · obtain ⟨hsame, hseed, huses⟩ := hbudgets i hid
      have hseeded := hlive i (hsame ▸ hid) (hsame ▸ heq)
      exact ⟨hseed.trans hseeded.1, huses.trans hseeded.2⟩

/-- What an act other than an opening leaves of each budget. -/
theorem Act.keeps_seed {link : Link} {reveal : Option Digest} {budgets : Fin 4 → Budget}
    (h : Act E k l link reveal budgets) (hop : link.op ≠ opGrantCreate) (i : Fin 4)
    (hid : (budgets i).id ≠ 0) : (budgets i).id = (k.budgets i).id ∧
      (budgets i).seed = (k.budgets i).seed ∧ (budgets i).uses = (k.budgets i).uses := by
  have hset {n : Fin 4} {b : Budget} (hb : budgets = Function.update k.budgets n b)
      (hn : b.id ≠ 0 → b.id = (k.budgets n).id ∧ b.seed = (k.budgets n).seed ∧
        b.uses = (k.budgets n).uses) : (budgets i).id = (k.budgets i).id ∧
      (budgets i).seed = (k.budgets i).seed ∧ (budgets i).uses = (k.budgets i).uses := by
    rw [hb] at hid ⊢
    rcases eq_or_ne i n with rfl | hne
    · rw [Function.update_self] at hid ⊢
      exact hn hid
    · rw [Function.update_of_ne hne]
      exact ⟨rfl, rfl, rfl⟩
  cases h with
  | spend => exact hset rfl fun _ => ⟨rfl, rfl, rfl⟩
  | create => exact absurd rfl hop
  | finish => exact hset rfl fun h => absurd rfl h
  | hold => exact hset rfl fun _ => ⟨rfl, rfl, rfl⟩
  | resume => exact hset rfl fun _ => ⟨rfl, rfl, rfl⟩
  | receipt => exact ⟨rfl, rfl, rfl⟩
  | settle => exact ⟨rfl, rfl, rfl⟩
  | loss => exact ⟨rfl, rfl, rfl⟩

theorem Act.spend_reveal {link : Link} {reveal : Option Digest} {budgets : Fin 4 → Budget}
    (h : Act E k l link reveal budgets) (hpress : link.selfPress = true)
    (haccounts : ∀ i, (k.budgets i).id ≠ 0 → Accounts (k.budgets i)) :
    ∃ i, (k.budgets i).id ≠ 0 ∧ link.grantId = (k.budgets i).id ∧
      link.grantStep.toNat ≤ (k.budgets i).uses ∧
      reveal = some (hashTimes E (k.budgets i).seed
        ((k.budgets i).uses - link.grantStep.toNat)) := by
  cases h with
  | @spend i j now hpend hstart hpay halive hfree hroom hscope =>
    have hid := id_ne_zero_of_alive halive
    have huses : (k.budgets i).uses ≤ 1024 := (haccounts i hid).uses_le
    have hstep : (UInt16.ofNat ((k.budgets i).used + 1)).toNat = (k.budgets i).used + 1 := by
      rw [UInt16.toNat_ofNat']
      exact Nat.mod_eq_of_lt (by omega)
    refine ⟨i, hid, rfl, ?_, ?_⟩
    · show (UInt16.ofNat ((k.budgets i).used + 1)).toNat ≤ _
      rw [hstep]
      exact hroom
    · show some (((k.budgets i).charge j).reveal E) = some (hashTimes E (k.budgets i).seed
        ((k.budgets i).uses - (UInt16.ofNat ((k.budgets i).used + 1)).toNat))
      rw [hstep]
      rfl
  | _ => cases hpress

/-- The opening of a budget with an id past every use so far. -/
theorem Serial.opened (h : Serial E k) (ht : Tallied k) {i : Fin 4} {b : Budget}
    (hchain : chainOf k'.log = w :: chainOf k.log) (hplain : w.link.selfPress = false)
    (hbudgets : k'.budgets = Function.update k.budgets i b) (hid : b.id = w.link.grantId)
    (hpast : top k < w.link.grantId.toNat) (hlast : w.link.grantId.toNat = top k')
    (hp : w.link.subject = Grant.subject E p) (hgenesis : p.b.genesis = hashTimes E p.b.seed p.b.uses)
    (hb : Seeded p b) : Serial E k' := by
  intro c hc hcop
  rw [hchain] at hc ⊢
  -- older uses are of older budgets, whose ids are smaller
  have hbelow (v : Welded) (hv : v ∈ chainOf k.log) (hpress : v.link.selfPress = true) :
      v.link.grantId.toNat ≤ top k :=
    ht.past v.link (List.mem_reverse.mpr (List.mem_map_of_mem hv)) hpress
  rcases List.mem_cons.mp hc with rfl | hmem
  · refine ⟨le_of_eq hlast, p, ⟨hp, hgenesis, fun v hv hspent => ?_⟩, fun n hne heq => ?_⟩
    · -- no use has this id yet
      rcases List.mem_cons.mp hv with rfl | hmem
      · exact absurd hspent.1 (by simp [hplain])
      · have hlow := hbelow v hmem hspent.1
        rw [hspent.2] at hlow
        omega
    · rw [hbudgets] at hne heq ⊢
      rcases eq_or_ne n i with rfl | hni
      · rw [Function.update_self]
        exact hb
      · rw [Function.update_of_ne hni] at hne heq
        have hlow := (ht.live n hne).1.low
        rw [heq] at hlow
        omega
  · obtain ⟨hlow, q, hseries, hlive⟩ := h c hmem hcop
    refine ⟨by omega, q, ⟨hseries.subject, hseries.genesis, fun v hv hspent => ?_⟩, fun n hne heq => ?_⟩
    · rcases List.mem_cons.mp hv with rfl | hmem
      · exact absurd hspent.1 (by simp [hplain])
      · exact hseries.reveals v hmem hspent
    · rw [hbudgets] at hne heq ⊢
      rcases eq_or_ne n i with rfl | hni
      · rw [Function.update_self, hid] at heq
        rw [heq] at hpast
        omega
      · rw [Function.update_of_ne hni] at hne heq ⊢
        exact hlive n hne heq

/-- A use reveals the next value, and no other link reveals one of a series. -/
theorem Serial.act (h : Serial E k) (ht : Tallied k) (hl : Lived k) (hpress : PressOk E k)
    (hact : Act E k l w.link w.reveal k'.budgets) (hchain : chainOf k'.log = w :: chainOf k.log)
    (hnext : top k ≤ w.link.seq.toNat) (hlast : w.link.seq.toNat + 1 < 2 ^ 32) : Serial E k' := by
  have htop : top k' = w.link.seq.toNat + 1 := top_cons hchain
  -- only a grant begins a series; a use reveals the next value of its own
  by_cases hop : w.link.op = opGrantCreate
  · obtain ⟨link, prev, head, reveal⟩ := w
    dsimp only at hact hop hnext hlast htop
    generalize hb : k'.budgets = budgets at hact
    cases hact with
    | create i now hwhat howes =>
      obtain ⟨buf, fresh, labels, hchecked⟩ := hpress hwhat
      obtain ⟨seed, hp⟩ := hchecked.press_eq
      have hid : (k.st.nextSeq + 1).toNat = top k' := by
        rw [htop, UInt32.toNat_add]
        exact Nat.mod_eq_of_lt hlast
      have hpast : top k < (k.st.nextSeq + 1).toNat := by omega
      exact h.opened ht (p := k.press) hchain rfl hb rfl hpast hid rfl (by rw [hp]; rfl) ⟨rfl, rfl⟩
    | spend =>
      refine absurd hop ?_
      show opOf k.pend.opcode ≠ opGrantCreate
      unfold opOf
      split <;> decide
    | _ =>
      simp only [Key.nextLink] at hop
      exact absurd hop (by decide)
  · refine h.grow hchain (by omega) hop (fun c p hc hspent hlive => ?_) (Act.keeps_seed hact hop)
    obtain ⟨i, hid, hgrant, hstep, hreveal⟩ :=
      Act.spend_reveal hact hspent.1 fun i hid => (hl.here i hid).2
    obtain ⟨hseed, huses⟩ := hlive i hid (hgrant.symm.trans hspent.2)
    rw [← hseed, ← huses]
    exact ⟨hstep, hreveal⟩

/-- Every move of the key keeps the series. -/
theorem Move.serial (h : Move E l k k') (hk : Linked E k) (hpress : PressOk E k)
    (hshort : Short k'.log) (ht : Tallied k) (hl : Lived k) (hs : Serial E k) : Serial E k' := by
  have hshort' : Short k.log := hshort.of_suffix h.suffix
  have hk' : Linked E k' := h.linked hshort' hk
  -- only two moves add a link: the continue link, which is of no budget, and an act's
  cases h with
  | ram h =>
    obtain ⟨seg, hlog, hseg⟩ := h.sameChain.log
    exact hs.same (by rw [hlog, chainOf_append hseg]) h.sameChain.budgets
  | announce t buf =>
    rcases recvTxStart_cases t buf k with hstill | ⟨-, -, token, intent, htx⟩
    · obtain ⟨seg, hlog, hseg⟩ := hstill.sameChain.log (E := E)
      exact hs.same (by rw [hlog, chainOf_append hseg]) hstill.budgets
    · rw [htx]
      exact hs.same rfl rfl
  | load _ => exact hs.same (by rw [stateLoad_log]) (stateLoad_budgets E k)
  | salt => exact serial_of_nil rfl
  | known => exact hs.same rfl rfl
  | genesis => exact hs.same rfl rfl
  | continued hload hid hsalt hident hcont =>
    rename_i id
    have hchain := congrArg chainOf (continued_log (E := E) id k)
    have hnext := next_link hchain hk' hshort' hshort
    refine hs.grow hchain ?_ (show opContinue ≠ opGrantCreate by decide)
      (fun c p _ hspent => nomatch hspent.1) fun i hne => absurd rfl hne
    rw [top_cons hchain]
    omega
  | resave => exact hs.same rfl rfl
  | @act l link reveal budgets k hload hid hact =>
    have hchain := congrArg chainOf
      (weldIn_log (E := E) link reveal { k with budgets := budgets, nextIntent := none })
    have hnext := next_link hchain hk' hshort' hshort
    exact hs.act ht hl hpress hact hchain hnext.1 hnext.2
  | restore sec hload hsec =>
    rw [restore_eq sec hload hsec]
    exact serial_of_nil (by rw [restored_log (sectionState_gen _ _)]; rfl)
  | wipe => exact serial_of_nil rfl

theorem Trace.serial (h : Trace E k) (hclean : CleanBoots k.log) (hshort : Short k.log) :
    Serial E k := by
  induction h with
  | new core => exact serial_of_nil rfl
  | move htrace hmove ih =>
    have hclean' := hclean.of_suffix hmove.suffix
    have hshort' := hshort.of_suffix hmove.suffix
    exact Move.serial hmove (htrace.linked hclean' hshort') htrace.granted.1 hshort
      (Trace.tallied htrace hclean' hshort') (Trace.lived htrace hclean' hshort')
      (ih hclean' hshort')
  | boot core _ _ ih =>
    intro c hc hop
    obtain ⟨hlow, p, hseries, -⟩ :=
      ih (hclean.of_suffix ⟨[_], rfl⟩) (hshort.of_suffix ⟨[_], rfl⟩) c hc hop
    exact ⟨hlow, p, hseries, fun i hid => absurd rfl hid⟩

/-! ### What a holder of the opening can check -/

/-- The links of a key are those it has welded. -/
theorem mem_links {x : Link} : x ∈ links k ↔ ∃ w ∈ chainOf k.log, w.link = x := by
  rw [links, List.mem_reverse, List.mem_map]

/-- A link that opens a budget is a grant-create link. -/
theorem opened_op {id : UInt32} {n : Nat} {x : Link} (h : Does id (.opened n) x) :
    x.op = opGrantCreate := by
  have hd := h.1
  unfold Link.deed at hd
  split_ifs at hd <;> first | assumption | cases hd

/-- A use of the chain has its opening there, too. -/
theorem Lived.opening (hl : Lived k) (hw : w ∈ chainOf k.log) (hpress : w.link.selfPress = true) :
    ∃ c ∈ chainOf k.log, c.link.op = opGrantCreate ∧ SpendOf c w := by
  have hlife := oneLife_of_read (hl.reads w.link.grantId)
  obtain ⟨xs, ys, hsplit⟩ := List.append_of_mem (mem_links.mpr ⟨w, hw, rfl⟩)
  have hdoes : Does w.link.grantId (.spent w.link.grantStep.toNat w.link.scope.toNat) w.link :=
    does_spent_iff.mpr ⟨hpress, rfl, rfl, rfl⟩
  obtain ⟨y, hy, n, hopened⟩ := hlife.opening xs w.link ys _ hsplit hdoes rfl
  have hmem : y ∈ links k := by
    rw [hsplit]
    exact List.mem_append_left _ hy
  obtain ⟨c, hc, rfl⟩ := mem_links.mp hmem
  exact ⟨c, hc, opened_op hopened, hpress, hopened.2.symm⟩

/-- The reveal `r` of the use hashes to the value the opening committed to, and every later use's
reveal hashes to it. -/
def Reveals (E : Env) (chain : List Welded) (c : Welded) (p : Press) (w : Welded) : Prop :=
  ∃ r, w.reveal = some r ∧ hashTimes E r w.link.grantStep.toNat = p.b.genesis ∧
    ∀ w' ∈ chain, SpendOf c w' → w.link.grantStep ≤ w'.link.grantStep → ∀ r',
      w'.reveal = some r' → hashTimes E r' (w'.link.grantStep.toNat - w.link.grantStep.toNat) = r

/-- Every use of the chain is of a budget opened there, and its reveal is of the series that the
opening committed to. -/
theorem uses_reveal_the_series (h : Reachable E k) (hclean : CleanBoots k.log)
    (hshort : Short k.log) :
    (∀ w ∈ chainOf k.log, w.link.selfPress = true →
      ∃ c ∈ chainOf k.log, c.link.op = opGrantCreate ∧ SpendOf c w) ∧
    ∀ c ∈ chainOf k.log, c.link.op = opGrantCreate → ∃ p, c.link.subject = Grant.subject E p ∧
      ∀ w ∈ chainOf k.log, SpendOf c w → Reveals E (chainOf k.log) c p w := by
  have hl := Trace.lived h.trace hclean hshort
  refine ⟨fun w hw hpress => hl.opening hw hpress, fun c hc hop => ?_⟩
  obtain ⟨-, p, hseries, -⟩ := Trace.serial h.trace hclean hshort c hc hop
  refine ⟨p, hseries.subject, fun w hw hspent => ?_⟩
  obtain ⟨hstep, hreveal⟩ := hseries.reveals w hw hspent
  refine ⟨_, hreveal, ?_, fun w' hw' hspent' hle r' hr' => ?_⟩
  · rw [← hashTimes_add, Nat.sub_add_cancel hstep, hseries.genesis]
  · obtain ⟨hstep', hreveal'⟩ := hseries.reveals w' hw' hspent'
    have hle := UInt16.le_iff_toNat_le.mp hle
    rw [hreveal'] at hr'
    obtain rfl := Option.some.inj hr'
    rw [← hashTimes_add]
    congr 1
    omega

theorem uses_reveal_the_series_of_use :
    (∀ w ∈ chainOf Demo.usedOnce.log, w.link.selfPress = true →
      ∃ c ∈ chainOf Demo.usedOnce.log, c.link.op = opGrantCreate ∧ SpendOf c w) ∧
    ∀ c ∈ chainOf Demo.usedOnce.log, c.link.op = opGrantCreate →
      ∃ p, c.link.subject = Grant.subject Demo.env p ∧
        ∀ w ∈ chainOf Demo.usedOnce.log, SpendOf c w →
          Reveals Demo.env (chainOf Demo.usedOnce.log) c p w :=
  uses_reveal_the_series Demo.reachable_usedOnce (by decide +kernel) (by decide +kernel)

end OkRn.Budgets
