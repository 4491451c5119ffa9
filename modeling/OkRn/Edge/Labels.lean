/-
OkRn/Edge/Labels.lean

The labels a budget on a derived code pays for.

A grant-create link commits to the full label of each scope on a derived code
(`Trace.granted`).  The scope keeps the first bytes of it, and an operation is
matched by the first bytes of its own label: the one that waits is the one that
was primed (`Reachable.pendWaits`), so what a budget pays for starts as a label
of its opening does.  Two labels that start alike are not told apart.

* `GrantedBy` ties a budget to its grant-create link and to the press with the labels;
* `PendWaits` says that the operation that waits is the one that was primed.

Main results: `paid_label_starts`, and a pair of labels that start alike as its
counterexample.
-/
import OkRn.Edge.Expiry

namespace OkRn.Edge

variable {E : Env} {P : Label → Prop} {k m k' : Key} {l : Label}

/-! ### What the press names -/

/-- A scope on a derived code keeps the first bytes of the label the press commits to. -/
def Press.Labelled (p : Press) : Prop :=
  ∀ j, j.val < p.b.nscopes → derivedCode (p.b.scopes j).slot = true →
    (p.b.scopes j).label = some ((p.labels j).first labelPrefix)

/-- A request that passed the checks has a label for each scope that needs one. -/
theorem Checked.labelled {buf : Report} {fresh : Bool} {labels : Fin 4 → Option Digest} {p : Press}
    (h : Checked E buf fresh labels p) : p.Labelled := by
  obtain ⟨seed, hp⟩ := h.press_eq
  rw [hp]
  intro j hj hcode
  have hj' : j.val < Grant.count buf := hj
  have hscopes : Grant.scopes buf labels j = Grant.scope buf labels j := if_pos hj'
  have hcode' : derivedCode (byteAt buf (8 + 4 * j)) = true := by
    have hslot : derivedCode (Grant.scopes buf labels j).slot = true := hcode
    rw [hscopes] at hslot
    exact hslot
  have hok := List.all_eq_true.mp h.scopes_ok j (List.mem_finRange j)
  simp only [hj', decide_true, Bool.not_true, Bool.false_or, Grant.scopeOk, Grant.scope, hcode',
    Bool.and_eq_true] at hok
  obtain ⟨label, hlabel⟩ := Option.isSome_iff_exists.mp hok.2.2
  show (Grant.scopes buf labels j).label = some (Bytes.first labelPrefix
    (if j.val < Grant.count buf && derivedCode (byteAt buf (8 + 4 * j)) then
      (labels j).getD (Bytes.zero 32) else Bytes.zero 32))
  rw [hscopes]
  simp [Grant.scope, hcode', hlabel, hj']

/-- Every move keeps what waits for a press well formed. -/
theorem Move.pressOk (h : Move E l k k') (hk : PressOk E k) : PressOk E k' := by
  cases h with
  | ram h => exact h.sameChain.press hk
  | announce t buf =>
    rcases recvTxStart_cases t buf k with hstill | ⟨-, -, token, intent, htx⟩
    · exact hstill.sameChain.press hk
    · rw [htx]
      exact pressOk_of_eq rfl hk
  | load _ => exact pressOk_of_eq (stateLoad_requests E k).press hk
  | restore sec hload hsec =>
    rw [restore_eq sec hload hsec]
    exact pressOk_of_eq rfl hk
  | wipe => exact pressOk_of_what (by simp [Key.wipe, Key.push, Key.pressDrop, Press.blank])
  | _ => exact pressOk_of_eq rfl hk

/-! ### The grant-create link of a budget -/

/-- The link commits to this press, which named the budget's scopes. -/
structure GrantedBy (E : Env) (g : Link) (p : Press) (b : Budget) : Prop where
  op : g.op = opGrantCreate
  id : g.grantId = b.id
  subject : g.subject = Grant.subject E p
  labelled : p.Labelled
  nscopes : b.nscopes = p.b.nscopes
  scopes : ∀ j, { b.scopes j with used := 0 } = { p.b.scopes j with used := 0 }

/-- Every budget has its grant-create link. -/
def Granted (E : Env) (k : Key) : Prop :=
  ∀ i, (k.budgets i).id ≠ 0 → ∃ g p, .link g ∈ k.log ∧ GrantedBy E g.link p (k.budgets i)

/-- A budget with the same terms has the same opening. -/
theorem GrantedBy.of_terms {g : Link} {p : Press} {b c : Budget} (h : GrantedBy E g p b)
    (hc : c.terms = b.terms) : GrantedBy E g p c where
  op := h.op
  id := h.id.trans (id_of_terms hc).symm
  subject := h.subject
  labelled := h.labelled
  nscopes := (show c.terms.nscopes = b.terms.nscopes from congrArg Budget.nscopes hc).trans h.nscopes
  scopes j := by
    have hscopes : c.terms.scopes j = b.terms.scopes j := by rw [hc]
    exact (show ({ c.scopes j with used := 0 } : Scope) = { b.scopes j with used := 0 } from
      hscopes).trans (h.scopes j)

/-- So every budget still has its opening in the log. -/
theorem Granted.of_terms (hk : Granted E k) (h : SameTerms k k')
    (hlog : ∀ e ∈ k.log, e ∈ k'.log) : Granted E k' := by
  intro i hid
  have hterms := h i hid
  have hid' : (k.budgets i).id ≠ 0 := by
    rw [← id_of_terms hterms]
    exact hid
  obtain ⟨g, p, hmem, hgranted⟩ := hk i hid'
  exact ⟨g, p, hlog _ hmem, hgranted.of_terms hterms⟩

/-- One place is written, with the budget of this link. -/
theorem Granted.of_update {i : Fin 4} {g : Welded} {p : Press} {b : Budget} (hk : Granted E k)
    (h : k'.budgets = Function.update k.budgets i b) (hlog : ∀ e ∈ k.log, e ∈ k'.log)
    (hmem : .link g ∈ k'.log) (hg : GrantedBy E g.link p b) : Granted E k' := by
  intro n hn
  rw [h] at hn ⊢
  rcases eq_or_ne n i with rfl | hne
  · rw [Function.update_self]
    exact ⟨g, p, hmem, hg⟩
  · rw [Function.update_of_ne hne] at hn ⊢
    obtain ⟨g', p', hmem', hg'⟩ := hk n hn
    exact ⟨g', p', hlog _ hmem', hg'⟩

/-- Every move keeps the openings of the budgets. -/
theorem Move.granted (h : Move E l k k') (hpress : PressOk E k) (hk : Granted E k) :
    Granted E k' := by
  have hlog : ∀ e ∈ k.log, e ∈ k'.log := fun e he => h.writes.suffix.subset he
  by_cases hl : l = .grant
  · subst hl
    cases h with
    | ram h => cases h
    | act hload hid hact =>
      cases hact with
      | create i now hwhat howes =>
        obtain ⟨buf, fresh, labels, hchecked⟩ := hpress hwhat
        exact hk.of_update rfl hlog (weldIn_log (E := E) _ _ _ ▸ List.mem_cons_self)
          ⟨rfl, rfl, rfl, hchecked.labelled, rfl, fun _ => rfl⟩
  · exact hk.of_terms (h.sameTerms hl) hlog

/-- Without budgets there is nothing to be opened. -/
theorem granted_of_blank (h : k.budgets = fun _ => Budget.blank) : Granted E k := by
  intro i hid
  rw [h] at hid
  exact absurd rfl hid

/-- Every budget of every key has its grant-create link in the history. -/
theorem Trace.granted (h : Trace E k) : PressOk E k ∧ Granted E k := by
  induction h with
  | new core => exact ⟨pressOk_of_what (by simp [Key.fresh, Press.blank]), granted_of_blank rfl⟩
  | move _ hmove ih => exact ⟨hmove.pressOk ih.1, hmove.granted ih.1 ih.2⟩
  | boot core _ _ _ =>
    exact ⟨pressOk_of_what (by simp [reboot, Key.fresh, Press.blank]), granted_of_blank rfl⟩

/-! ### The operation that waits -/

/-- The pending sign or decrypt is the operation that waits. -/
def PendWaits (k : Key) : Prop :=
  k.pend.active = true → (k.pend.opcode = okSign ∨ k.pend.opcode = okDecrypt) ∧
    ∃ w, k.waiting = some w ∧ w.opcode = k.pend.opcode ∧ w.slot = k.pend.slot ∧
      k.pend.label = requestLabel w.slot w.msg

/-- What is pending is left alone, or nothing is pending. -/
def SamePend (k k' : Key) : Prop :=
  (k'.pend = k.pend ∧ k'.waiting = k.waiting) ∨ k'.pend.active = false

theorem SamePend.refl (k : Key) : SamePend k k := Or.inl ⟨rfl, rfl⟩

theorem SamePend.trans (h : SamePend k m) (h' : SamePend m k') : SamePend k k' := by
  rcases h' with ⟨hpend, hwait⟩ | hnone
  · rcases h with h | hnone
    · exact Or.inl ⟨hpend.trans h.1, hwait.trans h.2⟩
    · exact Or.inr (hpend ▸ hnone)
  · exact Or.inr hnone

/-- A reply leaves what is pending. -/
theorem Sent.samePend (h : Sent k k') : SamePend k k' := by
  rw [h]
  exact Or.inl ⟨rfl, rfl⟩

theorem SameRequests.samePend (h : SameRequests k k') : SamePend k k' := Or.inl ⟨h.pend, h.waiting⟩

/-- With nothing pending nothing need wait. -/
theorem pendWaits_of_inactive (h : k.pend.active = false) : PendWaits k := fun hactive => by
  rw [h] at hactive
  cases hactive

/-- What is pending is what waits, as long as neither changes. -/
theorem PendWaits.same (h : PendWaits k) (hs : SamePend k k') : PendWaits k' := by
  rcases hs with ⟨hpend, hwait⟩ | hnone
  · rw [PendWaits, hpend, hwait]
    exact h
  · exact pendWaits_of_inactive hnone

/-- A step for each place leaves what is pending. -/
theorem foldl_samePend {f : Key → Fin 4 → Key} (hf : ∀ k i, SamePend k (f k i))
    (places : List (Fin 4)) (k : Key) : SamePend k (places.foldl f k) := by
  induction places generalizing k with
  | nil => exact .refl k
  | cons i places ih => exact (hf k i).trans (ih (f k i))

theorem append_samePend {op decision slot flags : UInt8} {subject : Digest} {grantId : UInt32}
    {grantStep : UInt16} {reveal : Option Digest} (k : Key) :
    SamePend k (k.append E op decision slot flags subject grantId grantStep reveal) :=
  Or.inl ⟨rfl, rfl⟩

/-- The ends of spent budgets leave it. -/
theorem completeFulfilled_samePend (t : Clock) (k : Key) :
    SamePend k (k.completeFulfilled E t) := by
  unfold Key.completeFulfilled
  split
  · exact .refl k
  · refine foldl_samePend (fun k i => ?_) _ k
    unfold Key.completeAt
    split <;> exact Or.inl ⟨rfl, rfl⟩

theorem grantPressed_samePend (t : Clock) (k : Key) : SamePend k (k.grantPressed E t) := by
  unfold Key.grantPressed
  split
  · exact Or.inl ⟨rfl, rfl⟩
  · split
    · exact Or.inl ⟨rfl, rfl⟩
    · split
      · exact Or.inl ⟨rfl, rfl⟩
      · rename_i i _
        have hopened : SamePend k (k.openBudget E (t 4) i) := Or.inl ⟨rfl, rfl⟩
        exact hopened.trans (((Sent.refl _).reply _).checkpoint (E := E)).samePend

theorem resumePressed_samePend (t : Clock) (k : Key) : SamePend k (k.resumePressed E t) := by
  unfold Key.resumePressed
  split
  · exact Or.inl ⟨rfl, rfl⟩
  · dsimp only
    split_ifs <;> exact Or.inl ⟨rfl, rfl⟩

theorem settlePressed_samePend (t : Clock) (k : Key) : SamePend k (k.settlePressed E t) := by
  unfold Key.settlePressed
  split
  · exact Or.inl ⟨rfl, rfl⟩
  · have hfold : SamePend k ((List.finRange 4).foldl (Key.settleAt E t) k) := by
      refine foldl_samePend (fun k i => ?_) _ k
      unfold Key.settleAt
      split <;> exact Or.inl ⟨rfl, rfl⟩
    dsimp only
    generalize (List.finRange 4).foldl (Key.settleAt E t) k = m at hfold
    exact hfold.trans ((append_samePend m).trans ((Sent.refl _).replySeqHead).samePend)

theorem pressed_samePend (t : Clock) (k : Key) : SamePend k (k.pressed E t) := by
  unfold Key.pressed
  split
  · exact grantPressed_samePend t k
  · exact resumePressed_samePend t k
  · exact settlePressed_samePend t k
  · exact Or.inl ⟨rfl, rfl⟩
  · exact .refl k

/-- What comes before a request leaves it. -/
theorem ensureIdentity_samePend (d : Draw) (k : Key) : SamePend k (k.ensureIdentity E d).1 :=
  (ensureIdentity_requests E d k).samePend

/-- A decision about a press leaves it. -/
theorem decidePress_samePend (t : Clock) (d : Draw) (dec : Decision) (k : Key) :
    SamePend k (k.decidePress E t d dec) := by
  have hid := ensureIdentity_samePend (E := E) d k
  unfold Key.decidePress
  split
  · exact Or.inl ⟨rfl, rfl⟩
  · generalize k.ensureIdentity E d = r at hid
    rcases r with ⟨m, - | -⟩
    · exact hid.trans (Or.inl ⟨rfl, rfl⟩)
    · exact (hid.trans (pressed_samePend _ m)).trans (Or.inl ⟨rfl, rfl⟩)

theorem status_samePend (code : UInt8) (k : Key) : SamePend k (k.status code) := Or.inl ⟨rfl, rfl⟩

/-- A request that waits for its press ends the pending one. -/
theorem pressWait_samePend (t : Clock) (what : PressKind) (subject : Digest) (request : Report)
    (m : Key) : SamePend k (m.pressWait E t what subject request) := Or.inr rfl

theorem grantLabel_samePend (t : Clock) (buf : Report) (k : Key) :
    SamePend k (k.grantLabel E t buf) := by
  unfold Key.grantLabel
  split
  · exact SamePend.trans (Or.inl ⟨rfl, rfl⟩) (status_samePend _ _)
  · exact status_samePend _ k

/-- A request for a budget leaves it. -/
theorem grantCreate_samePend (t : Clock) (d : Draw) (buf : Report) (k : Key) :
    SamePend k (k.grantCreate E t d buf) := by
  have hconsume : SamePend k ((({ k with staged := Staged.blank }).pressDrop).push .consumed) :=
    Or.inl ⟨rfl, rfl⟩
  unfold Key.grantCreate
  dsimp only
  split
  · exact hconsume.trans (status_samePend _ _)
  · split
    · exact hconsume.trans (status_samePend _ _)
    · split
      · exact SamePend.trans (Or.inl ⟨rfl, rfl⟩) (status_samePend _ _)
      · split
        · exact hconsume.trans (status_samePend _ _)
        · split
          · exact hconsume.trans (status_samePend _ _)
          · exact pressWait_samePend _ _ _ _ _

theorem appendScoped_samePend {op decision slot flags : UInt8} {subject : Digest} {grantId : UInt32}
    {grantStep : UInt16} {scope : UInt8} {reveal : Option Digest} {budgets : Fin 4 → Budget}
    (k : Key) : SamePend k (Key.appendScoped E op decision slot flags subject grantId grantStep scope
      reveal { k with budgets := budgets }) := Or.inl ⟨rfl, rfl⟩

/-- The end of a budget leaves it. -/
theorem endBudget_samePend (how : UInt8) (i : Fin 4) (k : Key) :
    SamePend k (k.endBudget E how i) := appendScoped_samePend k

theorem recvRevoke_samePend (t : Clock) (buf : Report) (k : Key) :
    SamePend k (k.recvRevoke E t buf) := by
  unfold Key.recvRevoke
  generalize k.liveBudget t (get32 buf 6) = place
  rcases place with - | i
  · exact status_samePend _ k
  · exact (endBudget_samePend _ i k).trans (status_samePend _ _)

theorem recvHold_samePend (t : Clock) (buf : Report) (k : Key) :
    SamePend k (k.recvHold E t buf) := by
  unfold Key.recvHold
  generalize k.liveBudget t (get32 buf 6) = place
  rcases place with - | i
  · exact status_samePend _ k
  · unfold Key.holdAt
    dsimp only
    split
    · exact (appendScoped_samePend k).trans (status_samePend _ _)
    · exact status_samePend _ k

theorem recvResume_samePend (t : Clock) (buf : Report) (k : Key) :
    SamePend k (k.recvResume E t buf) := by
  have hdrop : SamePend k k.pressDrop := Or.inl ⟨rfl, rfl⟩
  unfold Key.recvResume
  dsimp only
  split
  · exact hdrop.trans (status_samePend _ _)
  · split
    · exact hdrop.trans (status_samePend _ _)
    · split
      · exact hdrop.trans (status_samePend _ _)
      · exact pressWait_samePend _ _ _ _ _

theorem recvReceipt_samePend (t : Clock) (buf : Report) (k : Key) :
    SamePend k (k.recvReceipt E t buf) := by
  unfold Key.recvReceipt
  dsimp only
  split
  · exact status_samePend _ k
  · exact ((append_samePend k).trans (completeFulfilled_samePend t _)).trans
      ((Sent.refl _).replySeqHead).samePend

theorem recvSettle_samePend (t : Clock) (buf : Report) (k : Key) :
    SamePend k (k.recvSettle E t buf) := by
  have hdrop : SamePend k k.pressDrop := Or.inl ⟨rfl, rfl⟩
  unfold Key.recvSettle
  dsimp only
  split
  · exact hdrop.trans (status_samePend _ _)
  · exact pressWait_samePend _ _ _ _ _

theorem recvTxStart_samePend (t : Clock) (buf : Report) (k : Key) :
    SamePend k (k.recvTxStart t buf) := by
  have hrefuse : ∀ code, SamePend k (k.refuseTx code) := fun _ => Or.inl ⟨rfl, rfl⟩
  unfold Key.recvTxStart
  dsimp only
  split
  · exact hrefuse _
  · split
    · exact hrefuse _
    · exact SamePend.trans (Or.inl ⟨rfl, rfl⟩) (status_samePend _ _)

theorem recvLoss_samePend (t : Clock) (buf : Report) (k : Key) :
    SamePend k (k.recvLoss E t buf) := by
  have hdrop : SamePend k k.pressDrop := Or.inl ⟨rfl, rfl⟩
  unfold Key.recvLoss
  dsimp only
  split
  · exact hdrop.trans (status_samePend _ _)
  · exact pressWait_samePend _ _ _ _ _

theorem recvWipeDebug_samePend (k : Key) : SamePend k (k.recvWipeDebug E) := by
  unfold Key.recvWipeDebug
  split
  · exact Or.inr rfl
  · exact status_samePend _ k

theorem serve_samePend (t : Clock) (d : Draw) (buf : Report) (k : Key) :
    SamePend k (k.serve E t d buf) := by
  unfold Key.serve
  split
  · exact ((Sent.refl k).reply _).samePend
  · exact ((Sent.refl k).pickup buf).samePend
  · exact ((Sent.refl k).checkpoint (E := E)).samePend
  · exact ((Sent.refl k).reply _).samePend
  · exact ((Sent.refl k).mldsaPubkeyReply (E := E) _).samePend
  · exact ((Sent.refl k).statement (E := E) _).samePend
  · exact grantLabel_samePend t buf k
  · exact grantCreate_samePend t d buf k
  · exact recvRevoke_samePend t buf k
  · exact recvWipeDebug_samePend k
  · exact recvHold_samePend t buf k
  · exact recvResume_samePend t buf k
  · exact recvReceipt_samePend t buf k
  · exact recvSettle_samePend t buf k
  · exact recvTxStart_samePend t buf k
  · exact recvLoss_samePend t buf k
  · exact status_samePend _ k

/-- No report of the plugin's own changes what is pending. -/
theorem recv_samePend (t : Clock) (d : Draw) (buf : Report) (k : Key) :
    SamePend k (k.recv E t d buf) := by
  have hid := ensureIdentity_samePend (E := E) d k
  unfold Key.recv
  split
  · exact .refl k
  · generalize k.ensureIdentity E d = r at hid
    rcases r with ⟨m, - | -⟩
    · exact hid.trans (Or.inl ⟨rfl, rfl⟩)
    · have hdrop : SamePend m (m.dropStalePress E t) := by
        unfold Key.dropStalePress
        split <;> exact Or.inl ⟨rfl, rfl⟩
      exact (hid.trans hdrop).trans (serve_samePend _ d buf _)

/-- What is primed is what waits. -/
theorem okcorePrime_pendWaits (t : Clock) {opcode : UInt8} (slot : UInt8) (msg : List UInt8)
    (mode : InputMode) (hedge : opcode ≠ okEdge) :
    PendWaits (k.okcorePrime E t opcode slot msg mode) := by
  unfold Key.okcorePrime Key.primed
  dsimp only
  rw [if_neg hedge]
  split
  · exact pendWaits_of_inactive rfl
  · rename_i hop
    have hop' : opcode = okSign ∨ opcode = okDecrypt := by tauto
    generalize hloaded : Key.stateLoad E _ = m
    have hpend : m.pend = { k.pend with
        active := true, budget := none, intent := none, refuse := 0, opcode := opcode, slot := slot
        subject := E.sha256 msg, label := requestLabel slot msg } := by
      rw [← hloaded, (stateLoad_requests E _).pend]
    split
    · refine fun _ => ⟨?_, _, rfl, ?_, ?_, ?_⟩ <;> simp [Key.refusePending, hpend, hop']
    · unfold Key.choosePayer
      split
      · refine fun _ => ⟨?_, _, rfl, ?_, ?_, ?_⟩ <;> simp [Key.push, hpend, hop']
      · refine fun _ => ⟨?_, _, rfl, ?_, ?_, ?_⟩ <;> simp [hpend, hop']

/-! ### The decision -/

/-- A use leaves what is pending until the decision ends it. -/
theorem spend_pend (i j : Fin 4) (k : Key) : (k.spend E i j).pend = k.pend := rfl

/-- After a decision nothing is pending. -/
theorem decidePending_inactive (t : Clock) (d : Draw) {opcode : UInt8} (dec : Decision)
    (h : k.pend.active = true → opcode = k.pend.opcode) :
    (k.decidePending E t d opcode dec).pend.active = false := by
  have hid := (ensureIdentity_requests E d k.unpend).pend
  unfold Key.decidePending
  split
  · simp_all
  · rename_i hactive
    rw [if_neg (by simp only [h (by simpa using hactive)]; tauto)]
    generalize k.unpend.ensureIdentity E d = r at hid
    have hnone : r.1.pend.active = false := by rw [hid]; rfl
    rcases r with ⟨m, - | -⟩
    · exact hnone
    · dsimp only
      split
      · unfold Key.takeUse
        split
        · rw [spend_pend]
          exact hnone
        · exact hnone
      · exact hnone

/-- After the decision on what waits nothing is pending. -/
theorem decision_inactive (t : Clock) (d : Draw) {w : Waiting} (dec : Decision) (h : PendWaits k)
    (hw : k.waiting = some w) : (k.decision E t d w.opcode dec).pend.active = false := by
  have hop : k.pend.active = true → w.opcode = k.pend.opcode := by
    intro hactive
    obtain ⟨-, w', hw', hop, -⟩ := h hactive
    rw [hw] at hw'
    rw [Option.some.inj hw']
    exact hop
  unfold Key.decision
  split
  · rename_i hedge
    have hnone : k.pend.active = false := by
      rcases hactive : k.pend.active with - | -
      · rfl
      · have hops := (h hactive).1
        rw [← hop hactive, hedge] at hops
        exact absurd hops (by decide)
    rcases decidePress_samePend (E := E) t d dec k with ⟨hpend, -⟩ | hnone'
    · rw [hpend]
      exact hnone
    · exact hnone'
  · exact decidePending_inactive t d dec hop

/-- A request that is not refused leaves the key as it was. -/
theorem refused_false {t : Clock} (h : (k.refused t).2 = false) : (k.refused t).1 = k := by
  unfold Key.refused at h ⊢
  split_ifs at h ⊢ <;> simp_all

/-- A refused operation is pending no more. -/
theorem refused_true {t : Clock} (h : (k.refused t).2 = true) :
    (k.refused t).1.pend.active = false ∧ (k.refused t).1.log = k.log := by
  unfold Key.refused at h ⊢
  split_ifs at h ⊢ <;> exact ⟨rfl, rfl⟩

/-- After the turn of what waited nothing is pending. -/
theorem runPendingOp_inactive (t : Clock) (d : Draw) (h : PendWaits k) :
    (k.runPendingOp E t d).pend.active = false := by
  unfold Key.runPendingOp
  split
  · rename_i hwait
    rcases hactive : k.pend.active with - | -
    · rfl
    · obtain ⟨-, w, hw, -⟩ := h hactive
      rw [hwait] at hw
      cases hw
  · rename_i w hwait
    rcases hrefused : k.refused t with ⟨m, - | -⟩
    · have hm := refused_false (k := k) (t := t) (by rw [hrefused])
      rw [hrefused] at hm
      subst hm
      exact decision_inactive _ d .approve h hwait
    · have hm := (refused_true (k := k) (t := t) (by rw [hrefused])).1
      rw [hrefused] at hm
      exact hm

theorem giveUp_inactive (t : Clock) (d : Draw) (dec : Decision) (h : PendWaits k) :
    (k.giveUp E t d dec).pend.active = false := by
  unfold Key.giveUp
  split
  · rename_i hwait
    rcases hactive : k.pend.active with - | -
    · rfl
    · obtain ⟨-, w, hw, -⟩ := h hactive
      rw [hwait] at hw
      cases hw
  · rename_i w hwait
    exact decision_inactive t d dec h hwait

/-- Every event leaves what is pending alone, ends it, or primes the next operation. -/
theorem step_samePend (e : Event) (h : PendWaits k)
    (he : ∀ opcode slot msg mode t, e ≠ .prime opcode slot msg mode t) :
    SamePend k (step E e k) := by
  have hhush : PendWaits k.hush := h
  -- no event but a prime leaves an operation waiting that was not waiting
  cases e with
  | recv buf t d => exact (recv_samePend t d buf k.hush).trans (Or.inl ⟨rfl, rfl⟩)
  | prime opcode slot msg mode t => exact absurd rfl (he opcode slot msg mode t)
  | run t d => exact Or.inr (runPendingOp_inactive t d hhush)
  | deny t d => exact Or.inr (giveUp_inactive t d .deny hhush)
  | timeout t d => exact Or.inr (giveUp_inactive t d .timeout hhush)
  | restart => exact Or.inr rfl
  | backup d max =>
    have hreq := (stateLoad_requests E k.hush).samePend.trans
      (ensureIdentity_samePend (E := E) d (k.hush.stateLoad E))
    refine hreq.trans ?_
    show SamePend _ (Key.backup E d max k.hush).1
    rw [Key.backup]
    generalize (k.hush.stateLoad E).ensureIdentity E d = r
    rcases r with ⟨m, - | -⟩ <;> exact .refl _
  | restore sec =>
    have hload := (stateLoad_requests E k.hush).samePend
    show SamePend k.hush (k.hush.restore E sec)
    unfold Key.restore
    split
    · exact .refl _
    · exact hload.trans (Or.inl ⟨rfl, rfl⟩)
  | wipe => exact Or.inr rfl
  | core c => exact Or.inl ⟨rfl, rfl⟩

/-- Every event keeps what is pending the one that waits. -/
theorem step_pendWaits (e : Event) (hvalid : e.Valid k) (h : PendWaits k) :
    PendWaits (step E e k) := by
  by_cases he : ∃ opcode slot msg mode t, e = .prime opcode slot msg mode t
  · obtain ⟨opcode, slot, msg, mode, t, rfl⟩ := he
    exact okcorePrime_pendWaits (k := k.hush) t slot msg mode hvalid.1
  · refine h.same (step_samePend e h fun opcode slot msg mode t heq => ?_)
    exact he ⟨opcode, slot, msg, mode, t, heq⟩

theorem Reachable.pendWaits (h : Reachable E k) : PendWaits k := by
  induction h with
  | new core => exact pendWaits_of_inactive rfl
  | event e _ hvalid ih => exact step_pendWaits e hvalid ih
  | cut => exact pendWaits_of_inactive rfl

/-! ### What a budget pays for -/

/-- The link of an operation that a budget paid for. -/
def Entry.paid : Entry → Bool
  | .link u => u.link.selfPress
  | _ => false

/-- Writing the record pays for nothing. -/
theorem Move.record_log (h : Move E .record k k') :
    ∃ seg, k'.log = seg ++ k.log ∧ ∀ e ∈ seg, e.paid = false := by
  cases h with
  | ram h => cases h
  | load _ => exact ⟨[], stateLoad_log E k, by simp⟩
  | salt salt => exact ⟨[.salt salt, .saved _ _], rfl, by simp [Entry.paid]⟩
  | known => exact ⟨[], rfl, by simp⟩
  | genesis => exact ⟨[.saved _ _], rfl, by simp [Entry.paid]⟩
  | continued =>
    refine ⟨[_, _], continued_log _ k, ?_⟩
    intro e he
    rcases List.mem_cons.mp he with rfl | he
    · rfl
    · obtain rfl := List.mem_singleton.mp he
      rfl
  | resave => exact ⟨[.saved _ _], rfl, by simp [Entry.paid]⟩
  | act _ _ h => cases h

/-- Moves of the record make no use. -/
theorem Moves.record_log (h : Moves E (· = .record) k k') :
    ∃ seg, k'.log = seg ++ k.log ∧ ∀ e ∈ seg, e.paid = false := by
  induction h with
  | refl => exact ⟨[], rfl, by simp⟩
  | tail _ hl hmove ih =>
    subst hl
    obtain ⟨seg, hlog, hseg⟩ := ih
    obtain ⟨seg', hlog', hseg'⟩ := hmove.record_log
    refine ⟨seg' ++ seg, by rw [hlog', hlog, List.append_assoc], fun e he => ?_⟩
    rcases List.mem_append.mp he with he | he
    · exact hseg' e he
    · exact hseg e he

/-- The use that is linked, and the key it is linked by, when a run writes one. -/
theorem runPendingOp_paid {w : Waiting} {t : Clock} {d : Draw} {u : Welded} {seg : List Entry}
    (hwait : k.waiting = some w) (hop : w.opcode ≠ okEdge)
    (hlog : (k.runPendingOp E t d).log = seg ++ k.log) (hu : .link u ∈ seg)
    (hpaid : u.link.selfPress = true) :
    k.pend.active = true ∧ ∃ m i j, Moves E (· = .record) k.unpend m ∧ m.pend = k.unpend.pend ∧
      (∀ e ∈ m.log, e ∈ (k.runPendingOp E t d).log) ∧ m.stillPays (t.after 4) = some (i, j) ∧
      u.link.grantId = (m.budgets i).id ∧ u.link.scope = UInt8.ofNat (j.val + 1) := by
  have hnone : ∀ l : List Entry, l = seg → (∀ e ∈ l, e.paid = false) → False := by
    rintro l rfl hl
    have hfalse := hl _ hu
    rw [Entry.paid, hpaid] at hfalse
    cases hfalse
  -- a refused press runs nothing; an approved one comes to the pending decision
  rcases hrefused : k.refused t with ⟨m, - | -⟩
  · have hrun : k.runPendingOp E t d = (m.decision E (t.after 4) d w.opcode .approve).ran w := by
      simp [Key.runPendingOp, hwait, hrefused]
    rw [hrun] at hlog ⊢
    have hm := refused_false (k := k) (t := t) (by rw [hrefused])
    rw [hrefused] at hm
    obtain rfl : m = k := hm
    have hdec : m.decision E (t.after 4) d w.opcode .approve =
        m.decidePending E (t.after 4) d w.opcode .approve := if_neg hop
    rw [hdec] at hlog ⊢
    have hran : ∀ k' : Key, (k'.ran w).log = .ran w :: k'.log := fun _ => rfl
    rw [hran] at hlog ⊢
    have hid := (ensureIdentity_moves (E := E) (P := (· = .record)) (k := m.unpend) rfl d).1
    have hpend := (ensureIdentity_requests E d m.unpend).pend
    unfold Key.decidePending at hlog ⊢
    split_ifs at hlog ⊢ with hactive hother happrove
    · exact (hnone [.ran w] (List.append_cancel_right hlog) (by simp [Entry.paid])).elim
    · exact (hnone [.ran w] (List.append_cancel_right hlog) (by simp [Entry.paid])).elim
    · obtain ⟨seg', hlog', hseg'⟩ := hid.record_log
      generalize m.unpend.ensureIdentity E d = r at hid hpend hlog' hlog
      have hseg : ∀ e ∈ Entry.ran w :: seg', e.paid = false := by
        intro e he
        rcases List.mem_cons.mp he with rfl | he
        · rfl
        · exact hseg' e he
      have hm' : r.1.log = seg' ++ m.log := hlog'
      rcases r with ⟨m', - | -⟩
      · dsimp only at hlog hm'
        rw [hm'] at hlog
        exact (hnone (.ran w :: seg') (List.append_cancel_right hlog) hseg).elim
      · dsimp only at hlog hm' ⊢
        rcases hpays : m'.stillPays (t.after 4) with - | ⟨i, j⟩
        · simp only [Key.takeUse, hpays] at hlog
          rw [hm'] at hlog
          exact (hnone (.ran w :: seg') (List.append_cancel_right hlog) hseg).elim
        · -- the one entry that is paid for is the spend of this budget and scope
          simp only [Key.takeUse, hpays] at hlog ⊢
          have hspend : ∃ side sector v, (m'.spend E i j).log =
              .link v :: .saved side sector :: m'.log ∧
              v.link.grantId = (m'.budgets i).id ∧ v.link.scope = UInt8.ofNat (j.val + 1) :=
            ⟨_, _, _, weldIn_log _ _ _, rfl, rfl⟩
          obtain ⟨side, sector, v, hv, hgrant, hscope⟩ := hspend
          rw [hv, hm'] at hlog
          have hcut : Entry.ran w :: .link v :: .saved side sector :: seg' = seg :=
            List.append_cancel_right hlog
          have huv : u = v := by
            rw [← hcut] at hu
            simp only [List.mem_cons, reduceCtorEq, false_or, Entry.link.injEq] at hu
            rcases hu with rfl | hu
            · rfl
            · have hfalse := hseg' _ hu
              rw [Entry.paid, hpaid] at hfalse
              cases hfalse
          subst huv
          refine ⟨by simpa using hactive, m', i, j, hid, hpend, fun e he => ?_, hpays, hgrant,
            hscope⟩
          rw [hv]
          exact List.mem_cons_of_mem _ (List.mem_cons_of_mem _ (List.mem_cons_of_mem _ he))
    · exact absurd rfl happrove
  · have hrun : k.runPendingOp E t d =
        { m with userInputMode := .challenge, waiting := none } := by
      simp [Key.runPendingOp, hwait, hrefused]
    rw [hrun] at hlog
    have hm := (refused_true (k := k) (t := t) (by rw [hrefused])).2
    rw [hrefused] at hm
    have hlog' : k.log = seg ++ k.log := by
      rw [← hm]
      exact hm ▸ hlog
    have hempty : seg = [] := List.append_cancel_right (hlog'.symm.trans (List.nil_append _).symm)
    exact (hnone [] hempty.symm (by simp)).elim

/-- An operation on a derived code that a budget paid for carries a label that starts as a label
its grant-create link commits to, at the scope the use is charged to. -/
theorem paid_label_starts (hreach : Reachable E k) {w : Waiting} (hwait : k.waiting = some w)
    (hop : w.opcode ≠ okEdge) (hcode : derivedCode w.slot = true) {t : Clock} {d : Draw}
    {u : Welded} {seg : List Entry} (hlog : (step E (.run t d) k).log = seg ++ k.log)
    (hu : .link u ∈ seg) (hpaid : u.link.selfPress = true) :
    32 ≤ w.msg.length ∧ ∃ g p, ∃ j : Fin 4, .link g ∈ (step E (.run t d) k).log ∧
      g.link.op = opGrantCreate ∧ g.link.grantId = u.link.grantId ∧
      g.link.subject = Grant.subject E p ∧ u.link.scope = UInt8.ofNat (j.val + 1) ∧
      j.val < p.b.nscopes ∧ (p.b.scopes j).slot = w.slot ∧ (p.b.scopes j).label.isSome = true ∧
      (p.labels j).first labelPrefix = Bytes.slice w.msg (w.msg.length - 32) labelPrefix := by
  have hhush : k.hush.waiting = some w := hwait
  obtain ⟨hactive, m, i, j, hmoves, hpend, hmem, hpays, hgrant, hscope⟩ :=
    runPendingOp_paid (k := k.hush) (E := E) hhush hop hlog hu hpaid
  obtain ⟨-, w', hw', -, hslot, hlabel⟩ := hreach.pendWaits hactive
  obtain rfl : w = w' := Option.some.inj (hwait.symm.trans hw')
  have hslot' : m.pend.slot = w.slot := by rw [hpend]; exact hslot.symm
  have hlabel' : m.pend.label = requestLabel w.slot w.msg := by rw [hpend]; exact hlabel
  have htrace : Trace E m := by
    have hstart : Moves E (fun _ => True) k k.hush.unpend :=
      (Moves.still trivial (still_hush k)).trans (.still trivial (still_unpend _))
    exact (hreach.trace.moves hstart).moves hmoves
  -- the budget that pays was opened by a grant-create link, whose terms it still has
  obtain ⟨-, hfor⟩ := stillPays_pays hpays
  obtain ⟨-, -, halive, -, -, hfound⟩ := budgetFor_pays hfor
  obtain ⟨g, p, hg, hgranted⟩ := htrace.granted.2 i (id_ne_zero_of_alive halive)
  have hmatch := List.find?_some hfound
  simp only [Bool.and_eq_true, decide_eq_true_eq] at hmatch
  obtain ⟨⟨hj, hmatches⟩, -⟩ := hmatch
  have hsame := hgranted.scopes j
  have hslots : ((m.budgets i).scopes j).slot = (p.b.scopes j).slot := by
    have hslot := congrArg Scope.slot hsame
    exact hslot
  have hlabels : ((m.budgets i).scopes j).label = (p.b.scopes j).label := by
    have hlabel := congrArg Scope.label hsame
    exact hlabel
  unfold scopeMatches at hmatches
  split at hmatches
  · cases hmatches
  · rename_i hopslot
    have hpslot : (p.b.scopes j).slot = w.slot := by
      rw [← hslots, ← hslot']
      simp only [Bool.or_eq_true, bne_iff_ne, ne_eq, not_or, not_not] at hopslot
      exact hopslot.2
    have hnamed := hgranted.labelled j (hgranted.nscopes ▸ hj) (hpslot ▸ hcode)
    rw [hlabels, hnamed] at hmatches
    have hrequest : requestLabel w.slot w.msg = some ((p.labels j).first labelPrefix) := by
      rw [← hlabel']
      simpa using hmatches
    unfold requestLabel at hrequest
    split at hrequest
    · rename_i hlen
      refine ⟨by simp only [Bool.and_eq_true, decide_eq_true_eq] at hlen; exact hlen.2, g, p, j,
        hmem _ hg, hgranted.op, hgranted.id.trans hgrant.symm, hgranted.subject, hscope,
        hgranted.nscopes ▸ hj, hpslot, by rw [hnamed]; rfl, ?_⟩
      exact (Option.some.inj hrequest).symm
    · cases hrequest

/-! ### Two labels that start alike -/

namespace Demo

/-- The label the person approved. -/
def label : List UInt8 := List.replicate 16 5 ++ List.replicate 16 6

/-- A request under another label, which starts as the approved one does. -/
def derivedMsg : List UInt8 := [1, 2, 3] ++ (List.replicate 16 5 ++ List.replicate 16 7)

/-- A budget on derived code 201 is opened for the label, and the request is announced and
primed. -/
def derived : Key :=
  primed 201 derivedMsg 10 (opened 201 5 0 10
    (play env [.recv (request 0x11 ([0] ++ label)) (clock 10) draw] started))

/-- The run of the example can happen. -/
theorem reachable_derived : Reachable env derived := by
  refine reachable_primed _ _ (reachable_opened _ _ _ (reachable_play _ reachable_started ?_) ?_) ?_
  · exact ⟨clock_from (by decide +kernel), trivial⟩
  · decide +kernel
  · decide +kernel

theorem derived_paid : ∃ w u seg, derived.waiting = some w ∧ w.opcode ≠ okEdge ∧
    derivedCode w.slot = true ∧ w.msg = derivedMsg ∧
    (step env (.run (clock 10) draw) derived).log = seg ++ derived.log ∧ .link u ∈ seg ∧
    u.link.selfPress = true ∧ u.link.grantId = 1 := by
  have hnow : (Event.run (clock 10) draw).Valid derived := clock_from (by decide +kernel)
  obtain ⟨seg, hlog⟩ := (step_moves (E := env) (P := fun _ => True) (.run (clock 10) draw)
    (by simp) hnow fun _ _ => trivial).suffix
  have hwait : ∃ w, derived.waiting = some w ∧ w.opcode ≠ okEdge ∧ derivedCode w.slot = true ∧
      w.msg = derivedMsg := ⟨_, rfl, by decide, by decide, rfl⟩
  have htake : seg = (step env (.run (clock 10) draw) derived).log.take
      ((step env (.run (clock 10) draw) derived).log.length - derived.log.length) := by
    rw [← hlog, List.length_append, Nat.add_sub_cancel, List.take_left]
  have hany : ((step env (.run (clock 10) draw) derived).log.take
      ((step env (.run (clock 10) draw) derived).log.length - derived.log.length)).any (fun e =>
        match e with
        | .link u => u.link.selfPress && u.link.grantId == 1
        | _ => false) = true := by
    decide +kernel
  rw [← htake] at hany
  obtain ⟨e, he, hpaid⟩ := List.any_eq_true.mp hany
  cases e with
  | link u =>
    simp only [Bool.and_eq_true, beq_iff_eq] at hpaid
    obtain ⟨w, hw⟩ := hwait
    exact ⟨w, u, seg, hw.1, hw.2.1, hw.2.2.1, hw.2.2.2, hlog.symm, he, hpaid.1, hpaid.2⟩
  | _ => cases hpaid

end Demo

theorem paid_label_starts_derived : ∃ (w : Waiting) (u g : Welded) (p : Press) (j : Fin 4),
    Demo.derived.waiting = some w ∧ u.link.selfPress = true ∧
      g.link.grantId = u.link.grantId ∧ g.link.subject = Grant.subject Demo.env p ∧
      u.link.scope = UInt8.ofNat (j.val + 1) ∧
      (p.labels j).first labelPrefix = Bytes.slice w.msg (w.msg.length - 32) labelPrefix := by
  obtain ⟨w, u, seg, hwait, hop, hcode, -, hlog, hu, hpaid, -⟩ := Demo.derived_paid
  obtain ⟨-, g, p, j, -, -, hgrant, hsubject, hscope, -, -, -, hlabel⟩ :=
    paid_label_starts Demo.reachable_derived hwait hop hcode hlog hu hpaid
  exact ⟨w, u, g, p, j, hwait, hpaid, hgrant, hsubject, hscope, hlabel⟩

/-- A budget pays for a request under a label the press did not name. -/
theorem other_label_paid : ∃ (k : Key) (w : Waiting) (t : Clock) (d : Draw) (u : Welded)
    (seg : List Entry), Reachable Demo.env k ∧ k.waiting = some w ∧ derivedCode w.slot = true ∧
      (step Demo.env (.run t d) k).log = seg ++ k.log ∧ .link u ∈ seg ∧ u.link.selfPress = true ∧
      (∃ p n, .opened p n ∈ k.log ∧ p.b.id = u.link.grantId) ∧
      ∀ p n, .opened p n ∈ k.log → ∀ j, (p.labels j).toList ≠ w.msg.drop (w.msg.length - 32) := by
  obtain ⟨w, u, seg, hwait, -, hcode, hmsg, hlog, hu, hpaid, hgrant⟩ := Demo.derived_paid
  have hopened : Demo.derived.log.any (fun e => match e with
      | .opened p _ => p.b.id == 1
      | _ => false) = true := by
    decide +kernel
  have hother : Demo.derived.log.all (fun e => match e with
      | .opened p _ => (List.finRange 4).all fun j =>
          (p.labels j).toList != Demo.derivedMsg.drop (Demo.derivedMsg.length - 32)
      | _ => true) = true := by
    decide +kernel
  refine ⟨_, w, _, _, u, seg, Demo.reachable_derived, hwait, hcode, hlog, hu, hpaid, ?_, ?_⟩
  · obtain ⟨e, he, hid⟩ := List.any_eq_true.mp hopened
    cases e with
    | opened p n => exact ⟨p, n, he, by rw [hgrant]; simpa using hid⟩
    | _ => cases hid
  · intro p n hp j
    have hne := List.all_eq_true.mp (List.all_eq_true.mp hother _ hp) j (List.mem_finRange j)
    rw [hmsg]
    simpa using hne

end OkRn.Edge
