/-
OkRn/Edge/Events.lean

Every event is a run of moves.

One lemma for each function of the plugin says which kinds of moves it makes;
`P` is any property that allows these kinds.  `Ready` is what `ensureIdentity`
leaves behind when it succeeds, and what the links need.

* `Moves E P` is a run of moves of kinds that `P` allows;
* `Sent` are the steps that only reply;
* `Still` steps change no record, no chain and no budget.

Main result: `step_moves`, over every event.
-/
import OkRn.Edge.Moves

namespace OkRn.Edge

variable {E : Env} {P Q : Label → Prop} {k m k' : Key}

/-! ### Putting moves together -/

namespace Moves

theorem trans (h : Moves E P k m) (h' : Moves E P m k') : Moves E P k k' := by
  induction h' with
  | refl => exact h
  | tail _ hl hmove ih => exact ih.tail hl hmove

theorem single {l : Label} (hl : P l) (h : Move E l k k') : Moves E P k k' :=
  Moves.refl.tail hl h

/-- A run of such moves is one of any others that allow them. -/
theorem mono (h : Moves E P k k') (himp : ∀ l, P l → Q l) : Moves E Q k k' := by
  induction h with
  | refl => exact .refl
  | tail _ hl hmove ih => exact ih.tail (himp _ hl) hmove

/-- A still step is a run of moves. -/
theorem still (hq : P .quiet) (h : Still k k') : Moves E P k k' := single hq (.ram (.still h))

end Moves

/-- The record is loaded and the identity known. -/
structure Ready (k : Key) : Prop where
  loaded : k.loaded = true
  ident : k.ident.isSome = true

/-! ### Answers -/

/-- Nothing happened but answers. -/
def Sent (k k' : Key) : Prop := k' = { k with out := k'.out }

namespace Sent

/-- To send nothing changes nothing else. -/
theorem refl (k : Key) : Sent k k := rfl

theorem trans (h : Sent k m) (h' : Sent m k') : Sent k k' := by
  rw [Sent] at *
  rw [h', h]

theorem send (h : Sent k k') (r : Reply) : Sent k (k'.send r) := h.trans rfl

theorem status (h : Sent k k') (code : UInt8) : Sent k (k'.status code) := h.send _

theorem reply (h : Sent k k') (data : List UInt8) : Sent k (k'.reply data) := h.send _

theorem replySeqHead (h : Sent k k') : Sent k k'.replySeqHead := h.send _

theorem still (h : Sent k k') : Still k k' := by
  rw [h]
  constructor <;> first | rfl | exact Or.inl rfl

/-- A key that was ready is ready after its replies. -/
theorem ready (h : Sent k k') (hk : Ready k) : Ready k' := by
  rw [h]
  exact ⟨hk.loaded, hk.ident⟩

/-- A signature of the second key, or its error. -/
theorem mldsaSignReply (h : Sent k k') (which : MldsaKey) (digest : Digest) :
    Sent k (k'.mldsaSignReply E which digest) := by
  unfold Key.mldsaSignReply
  dsimp only
  split
  · exact h.status _
  · exact h.send _

theorem mldsaPubkeyReply (h : Sent k k') (which : MldsaKey) :
    Sent k (k'.mldsaPubkeyReply E which) := by
  unfold Key.mldsaPubkeyReply
  split
  · exact h.status _
  · exact h.send _

theorem checkpoint (h : Sent k k') : Sent k (k'.checkpoint E) := by
  unfold Key.checkpoint
  dsimp only
  split
  · exact h.status _
  · exact (h.replySeqHead.reply _).mldsaSignReply _ _

theorem statement (h : Sent k k') (nametagHash : Digest) :
    Sent k (k'.statement E nametagHash) := by
  unfold Key.statement
  split
  · exact h.status _
  · dsimp only
    split
    · exact h.status _
    · exact (((h.reply _).reply _).reply _).mldsaSignReply _ _

/-- Held links, one after another. -/
theorem sendAll (h : Sent k k') (links : List HeldLink) :
    Sent k (links.foldl (fun k h => k.sendHeld h) k') := by
  induction links generalizing k' with
  | nil => exact h
  | cons link links ih => exact ih ((h.reply _).reply _)

/-- A range of them, or the error. -/
theorem sendRange (h : Sent k k') (links : Option (List HeldLink)) :
    Sent k (k'.sendRange links) := by
  rcases links with - | links
  · exact h.status _
  · exact h.sendAll _

/-- A pickup of the links from a seq on. -/
theorem pickup (h : Sent k k') (buf : Report) : Sent k (k'.recvPickup buf) := h.sendRange _

end Sent

/-! ### The record and the identity -/

/-- The record is loaded afterwards. -/
theorem stateLoad_loaded (E : Env) (k : Key) : (k.stateLoad E).loaded = true := by
  unfold Key.stateLoad
  split
  · assumption
  · dsimp only
    split <;> rfl

theorem stateLoad_of_loaded (h : k.loaded = true) : k.stateLoad E = k := by
  simp [Key.stateLoad, h]

/-- The load of the record is a move of the record. -/
theorem stateLoad_moves (hr : P .record) : Moves E P k (k.stateLoad E) := by
  rcases h : k.loaded with - | -
  · exact .single hr (.load h)
  · rw [stateLoad_of_loaded h]
    exact .refl

/-- The continue link is welded and saved once more; the genesis is saved; or the chain is
under way. -/
theorem beginChain_moves (hr : P .record) {id : Ident} (hload : k.loaded = true)
    (hid : k.ident = none) (hsalt : k.st.salted = true)
    (hident : identityOf E k.core k.st = some id) :
    Moves E P k (k.beginChain E id) ∧ Ready (k.beginChain E id) := by
  unfold Key.beginChain
  dsimp only
  split
  · rename_i hcont
    have hmove : Move E .record k (k.continued E id) :=
      .continued hload hid hsalt hident hcont
    exact ⟨(Moves.single hr hmove).tail hr (.resave hload), hload, rfl⟩
  · rename_i hcont
    split
    · rename_i hseq
      have hmove : Move E .record k (k.genesisSet E id) :=
        .genesis hload hid hsalt hident (by simpa using hcont) hseq
      exact ⟨.single hr hmove, hload, rfl⟩
    · rename_i hseq
      exact ⟨.single hr (.known hload hid hsalt hident (by simpa using hcont) hseq), hload, rfl⟩

/-- A salt is drawn where there was none. -/
theorem ensureSalt_moves (hr : P .record) {d : Draw} (hload : k.loaded = true)
    (hid : k.ident = none) (h : k.ensureSalt E d = some k') :
    Moves E P k k' ∧ k'.loaded = true ∧ k'.ident = none ∧ k'.st.salted = true := by
  unfold Key.ensureSalt at h
  split at h
  · rename_i hsalt
    obtain rfl : k = k' := by simpa using h
    exact ⟨.refl, hload, hid, hsalt⟩
  · rename_i hsalt
    split at h
    · cases h
    · obtain rfl : k.salted E d.salt = k' := by simpa [Key.salted] using h
      exact ⟨.single hr (.salt d.salt hload hid (by simpa using hsalt)), hload, hid, rfl⟩

/-- The identity is there, and the chain begun, before anything else. -/
theorem ensureIdentity_moves (hr : P .record) (d : Draw) :
    Moves E P k (k.ensureIdentity E d).1 ∧
      ((k.ensureIdentity E d).2 = true → Ready (k.ensureIdentity E d).1) := by
  have hloaded : (k.stateLoad E).loaded = true := stateLoad_loaded E k
  have hmoves : Moves E P k (k.stateLoad E) := stateLoad_moves hr
  unfold Key.ensureIdentity
  dsimp only
  generalize k.stateLoad E = m at hloaded hmoves
  split
  · rename_i hid
    exact ⟨hmoves, fun _ => ⟨hloaded, hid⟩⟩
  · rename_i hid
    have hid : m.ident = none := by simpa using hid
    rcases hsalt : m.ensureSalt E d with - | m'
    · exact ⟨hmoves, fun h => by cases h⟩
    · obtain ⟨hmoves', hload', hid', hsalt'⟩ := ensureSalt_moves hr hloaded hid hsalt
      rcases hident : identityOf E m'.core m'.st with - | id
      · simp only [hident]
        exact ⟨hmoves.trans hmoves', fun h => by cases h⟩
      · obtain ⟨hbegin, hready⟩ := beginChain_moves hr hload' hid' hsalt' hident
        simp only [hident]
        exact ⟨(hmoves.trans hmoves').trans hbegin, fun _ => hready⟩

/-! ### Links -/

/-- A link of a chain under way. -/
theorem act_moves {l : Label} {link : Link} {reveal : Option Digest} {budgets : Fin 4 → Budget}
    (hl : P l) (hk : Ready k) (h : Act E k l link reveal budgets) :
    Moves E P k (Key.weldIn E link reveal { k with budgets := budgets, nextIntent := none }) ∧
      Ready (Key.weldIn E link reveal { k with budgets := budgets, nextIntent := none }) :=
  ⟨.single hl (.act hk.loaded hk.ident h), hk.loaded, hk.ident⟩

theorem id_ne_zero_of_alive {now : UInt32} {b : Budget} (h : alive now b = true) : b.id ≠ 0 := by
  simp only [alive, Bool.and_eq_true, bne_iff_ne] at h
  exact h.1

/-- The end of a budget is a link. -/
theorem endBudget_moves (hu : P .use) (hk : Ready k) (how : UInt8) {i : Fin 4}
    (hid : (k.budgets i).id ≠ 0) :
    Moves E P k (k.endBudget E how i) ∧ Ready (k.endBudget E how i) :=
  act_moves hu hk (.finish how hid)

/-- A loop over the four places that ends budgets. -/
theorem foldl_moves {f : Key → Fin 4 → Key}
    (hf : ∀ k i, Ready k → Moves E P k (f k i) ∧ Ready (f k i)) (places : List (Fin 4))
    (hk : Ready k) : Moves E P k (places.foldl f k) ∧ Ready (places.foldl f k) := by
  induction places generalizing k with
  | nil => exact ⟨.refl, hk⟩
  | cons i places ih =>
    obtain ⟨hmoves, hready⟩ := hf k i hk
    obtain ⟨hmoves', hready'⟩ := ih hready
    exact ⟨hmoves.trans hmoves', hready'⟩

/-- A budget with no use left is ended. -/
theorem completeFulfilled_moves (hu : P .use) (hk : Ready k) (t : Clock) :
    Moves E P k (k.completeFulfilled E t) ∧ Ready (k.completeFulfilled E t) := by
  unfold Key.completeFulfilled
  split
  · exact ⟨.refl, hk⟩
  · refine foldl_moves (fun k i hk => ?_) _ hk
    unfold Key.completeAt
    split
    · rename_i h
      simp only [Bool.and_eq_true] at h
      exact endBudget_moves hu hk _ (id_ne_zero_of_alive h.1)
    · exact ⟨.refl, hk⟩

/-- The budget that an id finds is live. -/
theorem liveBudget_alive {t : Clock} {id : UInt32} {i : Fin 4} (h : k.liveBudget t id = some i) :
    alive (t.millis i) (k.budgets i) = true ∧ (k.budgets i).id = id := by
  have hi := List.find?_some h
  simp only [Bool.and_eq_true, beq_iff_eq] at hi
  exact ⟨hi.2, hi.1.2⟩

/-- The scope that is found may pay, and so may its budget. -/
theorem budgetFor_pays {t : Clock} {op slot : UInt8} {label : Option (Bytes labelPrefix)}
    {i j : Fin 4} (h : k.budgetFor t op slot label = some (i, j)) :
    k.started = true ∧ k.budgetsMayPay = true ∧ alive (t.millis i) (k.budgets i) = true ∧
      (k.budgets i).onHold = false ∧ (k.budgets i).used < (k.budgets i).uses ∧
      scopeFor (k.budgets i) op slot label = some j := by
  unfold Key.budgetFor at h
  split at h
  · cases h
  · rename_i hmay
    obtain ⟨i', -, hi'⟩ := List.exists_of_findSome?_eq_some h
    dsimp only at hi'
    split at hi'
    · cases hi'
    · rename_i hpays
      obtain ⟨j', hj', hij⟩ := Option.map_eq_some_iff.mp hi'
      obtain ⟨rfl, rfl⟩ := Prod.mk.inj hij
      simp only [Bool.or_eq_true, Bool.not_eq_true', decide_eq_true_eq, not_or, Bool.not_eq_false,
        Bool.not_eq_true, not_le] at hmay hpays
      exact ⟨hmay.1, hmay.2, hpays.1.1, hpays.1.2, hpays.2, hj'⟩

/-! ### Presses -/

theorem still_pressDrop (k : Key) : Still k k.pressDrop := by
  constructor <;> first | rfl | exact Or.inl rfl | exact Or.inr rfl

/-- An entry of the log that no function reads. -/
theorem still_opened (p : Press) (t : Nat) (k : Key) : Still k (k.push (.opened p t)) := by
  constructor <;> first | rfl | exact Or.inl rfl | exact Or.inr (Or.inr ⟨_, _, rfl⟩)

/-- An opening is a link of its own kind. -/
theorem openBudget_moves (hq : P .quiet) (hg : P .grant) (hk : Ready k)
    (hwhat : k.press.what = .grant) (howes : k.st.owes = false) (now : Nat) (i : Fin 4) :
    Moves E P k (k.openBudget E now i) := by
  have hact := Act.create (E := E) i (UInt32.ofNat now) hwhat howes
  exact (act_moves hg hk hact).1.trans (.still hq (still_opened _ now _))

theorem grantPressed_moves (hq : P .quiet) (hg : P .grant) (hk : Ready k)
    (hwhat : k.press.what = .grant) (t : Clock) : Moves E P k (k.grantPressed E t) := by
  unfold Key.grantPressed
  split
  · exact .still hq ((Sent.refl k).status _).still
  · rename_i howes
    split
    · exact .still hq ((Sent.refl k).status _).still
    · split
      · exact .still hq ((Sent.refl k).status _).still
      · rename_i i _
        have hopen := openBudget_moves (E := E) hq hg hk hwhat (by simpa using howes) (t 4) i
        exact hopen.trans (.still hq (((Sent.refl _).reply _).checkpoint).still)

/-- A budget that is resumed makes a link. -/
theorem resumePressed_moves (hq : P .quiet) (hu : P .use) (hk : Ready k) (t : Clock) :
    Moves E P k (k.resumePressed E t) := by
  unfold Key.resumePressed
  split
  · exact .still hq ((Sent.refl k).status _).still
  · rename_i i hlive
    split
    · exact .still hq ((Sent.refl k).status _).still
    · rename_i howes
      split
      · exact .still hq ((Sent.refl k).status _).still
      · dsimp only
        split
        · rename_i hheld
          have hid := id_ne_zero_of_alive (liveBudget_alive hlive).1
          have hact := Act.resume (E := E) hid hheld (by simpa using howes)
          exact (act_moves hu hk hact).1.tail hq (.ram (.still ((Sent.refl _).status _).still))
        · exact .still hq ((Sent.refl k).status _).still

/-- The debt stays owed while the budgets end. -/
theorem settleLoop_owes (t : Clock) (places : List (Fin 4)) (k : Key) :
    (places.foldl (Key.settleAt E t) k).st.owes = k.st.owes := by
  induction places generalizing k with
  | nil => rfl
  | cons i places ih =>
    rw [List.foldl_cons, ih]
    unfold Key.settleAt
    split <;> rfl

theorem settlePressed_moves (hq : P .quiet) (hu : P .use) (hp : P .pay) (hk : Ready k)
    (t : Clock) : Moves E P k (k.settlePressed E t) := by
  unfold Key.settlePressed
  split
  · exact .still hq ((Sent.refl k).status _).still
  · rename_i howes
    have hloop := settleLoop_owes (E := E) t (List.finRange 4) k
    obtain ⟨hmoves, hready⟩ : Moves E P k ((List.finRange 4).foldl (Key.settleAt E t) k) ∧
        Ready ((List.finRange 4).foldl (Key.settleAt E t) k) := by
      refine foldl_moves (fun k i hk => ?_) _ hk
      unfold Key.settleAt
      split
      · exact endBudget_moves hu hk _ (id_ne_zero_of_alive ‹_›)
      · exact ⟨.refl, hk⟩
    dsimp only
    generalize (List.finRange 4).foldl (Key.settleAt E t) k = m at hmoves hready hloop
    have hact := Act.settle (E := E) (k := m) (by rw [hloop]; simpa using howes)
    exact (hmoves.trans (act_moves hp hready hact).1).tail hq
      (.ram (.still (Sent.refl _).replySeqHead.still))

theorem lossPressed_moves (hq : P .quiet) (hu : P .use) (hk : Ready k) :
    Moves E P k (k.lossPressed E) :=
  (act_moves hu hk (.loss _ _)).1.tail hq (.ram (.still (Sent.refl _).replySeqHead.still))

/-! ### What the record moves leave alone -/

/-- Everything the requests keep in RAM beside the budgets. -/
structure SameRequests (k k' : Key) : Prop where
  press : k'.press = k.press
  staged : k'.staged = k.staged
  pend : k'.pend = k.pend
  waiting : k'.waiting = k.waiting
  core : k'.core = k.core
  out : k'.out = k.out
  now : k'.now = k.now

/-- The requests stay over two steps. -/
theorem SameRequests.trans (h : SameRequests k m) (h' : SameRequests m k') :
    SameRequests k k' :=
  ⟨h'.press.trans h.press, h'.staged.trans h.staged, h'.pend.trans h.pend,
    h'.waiting.trans h.waiting, h'.core.trans h.core, h'.out.trans h.out, h'.now.trans h.now⟩

/-- The load of the record leaves the requests. -/
theorem stateLoad_requests (E : Env) (k : Key) : SameRequests k (k.stateLoad E) := by
  unfold Key.stateLoad
  split
  · constructor <;> rfl
  · dsimp only
    split <;> constructor <;> rfl

theorem Move.requests (h : Move E .record k k') : SameRequests k k' := by
  cases h with
  | ram h => cases h
  | load _ => exact stateLoad_requests E k
  | act _ _ h => cases h
  | _ => constructor <;> rfl

theorem Moves.requests (h : Moves E (· = .record) k k') : SameRequests k k' := by
  induction h with
  | refl => constructor <;> rfl
  | tail _ hl hmove ih =>
    subst hl
    exact ih.trans hmove.requests

/-- What comes before every request leaves it as it was. -/
theorem ensureIdentity_requests (E : Env) (d : Draw) (k : Key) :
    SameRequests k (k.ensureIdentity E d).1 :=
  (ensureIdentity_moves (P := (· = .record)) rfl d).1.requests

/-! ### Decisions -/

/-- A press does what waited for it. -/
theorem pressed_moves (hq : P .quiet) (hu : P .use) (hg : k.press.what = .grant → P .grant)
    (hp : k.press.what = .settle → P .pay) (hk : Ready k) (t : Clock) :
    Moves E P k (k.pressed E t) := by
  unfold Key.pressed
  split
  · rename_i hwhat
    exact grantPressed_moves hq (hg hwhat) hk hwhat t
  · exact resumePressed_moves hq hu hk t
  · rename_i hwhat
    exact settlePressed_moves hq hu (hp hwhat) hk t
  · exact lossPressed_moves hq hu hk
  · exact .refl

/-- A decision about it, or its end. -/
theorem decidePress_moves (hq : P .quiet) (hr : P .record) (hu : P .use)
    (hg : k.press.what = .grant → P .grant) (hp : k.press.what = .settle → P .pay)
    (t : Clock) (d : Draw) (dec : Decision) : Moves E P k (k.decidePress E t d dec) := by
  have hid := ensureIdentity_moves (E := E) (P := P) (k := k) hr d
  have hpress := (ensureIdentity_requests E d k).press
  unfold Key.decidePress
  split
  · exact .still hq (still_pressDrop k)
  · generalize k.ensureIdentity E d = r at hid hpress
    rcases r with ⟨m, - | -⟩
    · exact (hid.1.trans (.still hq (still_pressDrop m))).trans
        (.still hq ((Sent.refl _).status _).still)
    · have hpressed := pressed_moves (E := E) hq hu (hpress ▸ hg) (hpress ▸ hp) (hid.2 rfl)
        (t.after 1)
      exact (hid.1.trans hpressed).trans (.still hq (still_pressDrop _))

/-- Nothing is pending any more. -/
theorem still_unpend (k : Key) : Still k k.unpend := by
  constructor <;> first | rfl | exact Or.inl rfl

theorem still_ran (w : Waiting) (k : Key) : Still k (k.ran w) := by
  constructor <;> first | rfl | exact Or.inl rfl | exact Or.inr (Or.inl ⟨w, rfl⟩)

/-- The use is paid by the budget that was primed, if that may still pay. -/
theorem stillPays_pays {t : Clock} {i j : Fin 4} (h : k.stillPays t = some (i, j)) :
    k.pend.budget = some i ∧
      k.budgetFor t (opOf k.pend.opcode) k.pend.slot k.pend.label = some (i, j) := by
  unfold Key.stillPays at h
  split at h
  · rename_i i' i'' j' hpend hfor
    split at h
    · rename_i heq
      subst heq
      cases h
      exact ⟨hpend, hfor⟩
    · cases h
  · cases h

theorem spend_moves (hu : P .use) (hk : Ready k) {t : Clock} {i j : Fin 4}
    (h : k.stillPays t = some (i, j)) : Moves E P k (k.spend E i j) := by
  obtain ⟨hpend, hfor⟩ := stillPays_pays h
  obtain ⟨hstart, hpay, halive, hfree, hroom, hscope⟩ := budgetFor_pays hfor
  exact (act_moves hu hk (.spend hpend hstart hpay halive hfree hroom hscope)).1

theorem takeUse_moves (hu : P .use) (hk : Ready k) (t : Clock) :
    Moves E P k (k.takeUse E t) := by
  unfold Key.takeUse
  split
  · rename_i hpays
    exact spend_moves hu hk hpays
  · exact .refl

/-- A decision about the operation that is pending. -/
theorem decidePending_moves (hq : P .quiet) (hr : P .record) (hu : P .use) (t : Clock) (d : Draw)
    (opcode : UInt8) (dec : Decision) : Moves E P k (k.decidePending E t d opcode dec) := by
  have hid := ensureIdentity_moves (E := E) (P := P) (k := k.unpend) hr d
  have hdecided : Moves E P k k.unpend := .still hq (still_unpend k)
  unfold Key.decidePending
  split
  · exact .refl
  · split
    · exact .refl
    · generalize k.unpend.ensureIdentity E d = r at hid
      rcases r with ⟨m, - | -⟩
      · exact hdecided.trans hid.1
      · dsimp only
        split
        · exact (hdecided.trans hid.1).trans (takeUse_moves hu (hid.2 rfl) t)
        · exact hdecided.trans hid.1

theorem decision_moves (hq : P .quiet) (hr : P .record) (hu : P .use)
    (hg : k.press.what = .grant → P .grant) (hp : k.press.what = .settle → P .pay)
    (t : Clock) (d : Draw) (opcode : UInt8) (dec : Decision) :
    Moves E P k (k.decision E t d opcode dec) := by
  unfold Key.decision
  split
  · exact decidePress_moves hq hr hu hg hp t d dec
  · exact decidePending_moves hq hr hu t d opcode dec

/-- A refused start is counted. -/
theorem still_refused (t : Clock) (k : Key) : Still k (k.refused t).1 := by
  unfold Key.refused
  split
  · exact (Sent.refl k).still
  · split
    · constructor <;> first | rfl | exact Or.inl rfl
    · split
      · constructor <;> first | rfl | exact Or.inl rfl
      · exact (Sent.refl k).still

/-- A refusal changes neither the waiting press nor which operation waits. -/
theorem refused_press (t : Clock) (k : Key) : (k.refused t).1.press = k.press := by
  unfold Key.refused
  split
  · rfl
  · split
    · rfl
    · split <;> rfl

/-- The turn of what is pending. -/
theorem runPendingOp_moves (hq : P .quiet) (hr : P .record) (hu : P .use)
    (hg : k.press.what = .grant → P .grant) (hp : k.press.what = .settle → P .pay)
    (t : Clock) (d : Draw) : Moves E P k (k.runPendingOp E t d) := by
  have hrefused : Moves E P k (k.refused t).1 := .still hq (still_refused t k)
  have hpress := refused_press t k
  unfold Key.runPendingOp
  split
  · exact .refl
  · rename_i w _
    generalize k.refused t = r at hrefused hpress
    rcases r with ⟨m, - | -⟩
    · have hdec := decision_moves (E := E) hq hr hu (hpress ▸ hg) (hpress ▸ hp) (t.after 4) d
        w.opcode .approve
      exact (hrefused.trans hdec).trans (.still hq (still_ran w _))
    · refine hrefused.trans (.still hq ?_)
      constructor <;> first | rfl | exact Or.inl rfl

/-- Or its end without a decision. -/
theorem giveUp_moves (hq : P .quiet) (hr : P .record) (hu : P .use)
    (t : Clock) (d : Draw) (dec : Decision) (hdec : dec ≠ .approve) :
    Moves E P k (k.giveUp E t d dec) := by
  unfold Key.giveUp
  split
  · exact .refl
  · rename_i w _
    have hdecided : Moves E P k (k.decision E t d w.opcode dec) := by
      unfold Key.decision Key.decidePress
      split
      · rw [if_pos (Or.inl hdec)]
        exact .still hq (still_pressDrop k)
      · exact decidePending_moves hq hr hu t d w.opcode dec
    refine hdecided.trans (.still hq ?_)
    constructor <;> first | rfl | exact Or.inl rfl

/-! ### Requests -/

theorem recvRevoke_moves (hq : P .quiet) (hu : P .use) (hk : Ready k) (t : Clock) (buf : Report) :
    Moves E P k (k.recvRevoke E t buf) := by
  rw [Key.recvRevoke]
  rcases hlive : k.liveBudget t (get32 buf 6) with - | i
  · exact .still hq ((Sent.refl k).status _).still
  · have hend := endBudget_moves (E := E) hu hk endRevoked
      (id_ne_zero_of_alive (liveBudget_alive hlive).1)
    exact hend.1.trans (.still hq ((Sent.refl _).status _).still)

theorem recvHold_moves (hq : P .quiet) (hu : P .use) (hk : Ready k) (t : Clock) (buf : Report) :
    Moves E P k (k.recvHold E t buf) := by
  rw [Key.recvHold]
  rcases hlive : k.liveBudget t (get32 buf 6) with - | i
  · exact .still hq ((Sent.refl k).status _).still
  · dsimp only [Key.holdAt]
    split
    · rename_i hfree
      have hid := id_ne_zero_of_alive (liveBudget_alive hlive).1
      have hact := Act.hold (E := E) hid (by simpa using hfree)
      exact (act_moves hu hk hact).1.trans (.still hq ((Sent.refl _).status _).still)
    · exact .still hq ((Sent.refl k).status _).still

/-- A receipt may pay the debt. -/
theorem recvReceipt_moves (hq : P .quiet) (hu : P .use) (hp : P .pay) (hk : Ready k) (t : Clock)
    (buf : Report) : Moves E P k (k.recvReceipt E t buf) := by
  unfold Key.recvReceipt
  dsimp only
  split
  · exact .still hq ((Sent.refl k).status _).still
  · rename_i howed
    simp only [Bool.not_eq_true', not_or, Bool.not_eq_false, ne_eq, not_not] at howed
    obtain ⟨howes, href⟩ := howed
    rw [← href]
    obtain ⟨hpaid, hready⟩ := act_moves (E := E) hp hk (.receipt (byteAt buf 10)
      (Key.receiptSubject E ⟨k.st.owed.seq, k.st.owed.head⟩ (byteAt buf 10)
        (bytesAt buf 11 32)) howes)
    have hdone := completeFulfilled_moves (E := E) hu hready t
    exact (hpaid.trans hdone.1).trans (.still hq (Sent.refl _).replySeqHead.still)

/-- The kinds of moves a sub-op makes. -/
def SubOp.labels : SubOp → List Label
  | .grantLabel => [.stage]
  | .grantCreate => [.request]
  | .grantResume | .settle | .loss => [.ask]
  | .txStart => [.announce]
  | .receipt => [.quiet, .use, .pay]
  | .grantRevoke | .grantHold => [.quiet, .use]
  | .wipeDebug => [.quiet, .wipe]
  | _ => [.quiet]

/-- A request makes the moves of its kind. -/
theorem serve_moves (hk : Ready k) (t : Clock) (d : Draw) (buf : Report) {sub : SubOp}
    (hsub : subOp (byteAt buf 5) = some sub) (hP : ∀ l ∈ sub.labels, P l) :
    Moves E P k (k.serve E t d buf) := by
  have hsent : ∀ {k'}, Sent k k' → P .quiet → Moves E P k k' := fun h hq => .still hq h.still
  unfold Key.serve
  rw [hsub]
  -- a subcommand that only answers is a quiet move
  cases sub with
  | head => exact hsent ((Sent.refl k).reply _) (hP _ (by decide))
  | pickup => exact hsent ((Sent.refl k).pickup buf) (hP _ (by decide))
  | checkpoint => exact hsent (Sent.refl k).checkpoint (hP _ (by decide))
  | pubkey => exact hsent ((Sent.refl k).reply _) (hP _ (by decide))
  | pubkeyPq => exact hsent ((Sent.refl k).mldsaPubkeyReply _) (hP _ (by decide))
  | statement => exact hsent ((Sent.refl k).statement _) (hP _ (by decide))
  | grantLabel => exact .single (hP _ (by decide)) (.ram (.stage t buf k))
  | grantCreate => exact .single (hP _ (by decide)) (.ram (.request t d buf k))
  | grantRevoke => exact recvRevoke_moves (hP _ (by decide)) (hP _ (by decide)) hk t buf
  | wipeDebug =>
    dsimp only [Key.recvWipeDebug]
    split
    · exact (Moves.single (hP _ (by decide)) (.wipe k)).trans
        (.still (hP _ (by decide)) ((Sent.refl _).status _).still)
    · exact hsent ((Sent.refl k).status _) (hP _ (by decide))
  | grantHold => exact recvHold_moves (hP _ (by decide)) (hP _ (by decide)) hk t buf
  | grantResume => exact .single (hP _ (by decide)) (.ram (.askResume t buf k))
  | receipt =>
    exact recvReceipt_moves (hP _ (by decide)) (hP _ (by decide)) (hP _ (by decide)) hk t buf
  | settle => exact .single (hP _ (by decide)) (.ram (.askSettle t buf k))
  | txStart => exact .single (hP _ (by decide)) (.announce t buf hk.loaded hk.ident)
  | loss => exact .single (hP _ (by decide)) (.ram (.askLoss t buf k))

/-- A press that is too old is dropped. -/
theorem still_dropStalePress (E : Env) (t : Clock) (k : Key) :
    Still k (k.dropStalePress E t) := by
  unfold Key.dropStalePress
  split
  · exact still_pressDrop k
  · exact (Sent.refl k).still

theorem dropStalePress_ready (t : Clock) (hk : Ready k) : Ready (k.dropStalePress E t) := by
  unfold Key.dropStalePress
  split
  · exact ⟨hk.loaded, hk.ident⟩
  · exact hk

/-- A report is served, or refused. -/
theorem recv_moves (hq : P .quiet) (hr : P .record) (t : Clock) (d : Draw) (buf : Report)
    (hP : ∀ sub, subOp (byteAt buf 5) = some sub → ∀ l ∈ sub.labels, P l) :
    Moves E P k (k.recv E t d buf) := by
  have hid := ensureIdentity_moves (E := E) (P := P) (k := k) hr d
  unfold Key.recv
  split
  · exact .refl
  · generalize k.ensureIdentity E d = r at hid
    rcases r with ⟨m, - | -⟩
    · exact hid.1.trans (.still hq ((Sent.refl m).status _).still)
    · have hdrop : Moves E P m (m.dropStalePress E t) :=
        .still hq (still_dropStalePress E t m)
      have hready := dropStalePress_ready (E := E) t (hid.2 rfl)
      refine (hid.1.trans hdrop).trans ?_
      rcases hsub : subOp (byteAt buf 5) with - | sub
      · dsimp only [Key.serve]
        rw [hsub]
        exact .still hq ((Sent.refl _).status _).still
      · exact serve_moves hready (t.after 1) d buf hsub (hP sub hsub)

/-! ### Priming, backup and restore -/

/-- A sign or decrypt is primed over the loaded record. -/
theorem okcorePrime_stateLoad (t : Clock) {opcode : UInt8} (slot : UInt8) (msg : List UInt8)
    (mode : InputMode) (hop : opcode = okSign ∨ opcode = okDecrypt) :
    (k.stateLoad E).okcorePrime E t opcode slot msg mode =
      k.okcorePrime E t opcode slot msg mode := by
  have hedge : opcode ≠ okEdge := by rcases hop with rfl | rfl <;> decide
  have hop' : ¬(opcode ≠ okSign ∧ opcode ≠ okDecrypt) := by tauto
  have hcomm : ∀ pend mode, Key.stateLoad E
      { k.stateLoad E with pend := pend, userInputMode := mode } =
      Key.stateLoad E { k with pend := pend, userInputMode := mode } := by
    intro pend mode
    rw [stateLoad_of_loaded (by exact stateLoad_loaded E k)]
    unfold Key.stateLoad
    split
    · rfl
    · dsimp only
      split <;> rfl
  unfold Key.okcorePrime Key.primed
  simp only [if_neg hedge, if_neg hop']
  rw [hcomm, (stateLoad_requests E k).pend]

/-- A priming checks the token and the budgets. -/
theorem okcorePrime_moves (hr : P .record) (hp : P .prime) (t : Clock) {opcode : UInt8}
    (slot : UInt8) (msg : List UInt8) (mode : InputMode) (hedge : opcode ≠ okEdge) :
    Moves E P k (k.okcorePrime E t opcode slot msg mode) := by
  by_cases hop : opcode = okSign ∨ opcode = okDecrypt
  · rw [← okcorePrime_stateLoad t slot msg mode hop]
    have hload := stateLoad_loaded E k
    exact (stateLoad_moves hr).tail hp (.ram (.prime t opcode slot msg mode hedge fun _ => hload))
  · exact .single hp (.ram (.prime t opcode slot msg mode hedge fun h => absurd h hop))

/-- A backup loads the record and ends. -/
theorem backup_moves (hr : P .record) (d : Draw) (max : Nat) :
    Moves E P k (k.backup E d max).1 := by
  have hid := ensureIdentity_moves (E := E) (P := P) (k := k.stateLoad E) hr d
  have hload : Moves E P k (k.stateLoad E) := stateLoad_moves hr
  unfold Key.backup
  generalize (k.stateLoad E).ensureIdentity E d = r at hid
  rcases r with ⟨m, - | -⟩
  · exact hload.trans hid.1
  · exact hload.trans hid.1

theorem restore_moves (hr : P .record) (hs : P .restore) (sec : List UInt8) :
    Moves E P k (k.restore E sec) := by
  rcases hsec : Key.sectionOk sec with - | -
  · simp only [Key.restore, hsec, Bool.not_false, if_true]
    exact .refl
  · have hload := stateLoad_loaded E k
    have hrestore : (k.stateLoad E).restore E sec = k.restore E sec := by
      simp only [Key.restore, hsec, stateLoad_of_loaded hload, Bool.not_true, Bool.false_eq_true,
        if_false]
    rw [← hrestore]
    exact (stateLoad_moves hr).tail hs (.restore sec hload hsec)

/-! ### Events -/

theorem still_hush (k : Key) : Still k k.hush := by
  constructor <;> first | rfl | exact Or.inl rfl

theorem still_at (n : Nat) (k : Key) : Still k (k.at_ n) := by
  constructor <;> first | rfl | exact Or.inl rfl

/-- The kinds of moves an event makes. -/
def Event.labels (k : Key) : Event → List Label
  | .recv buf _ _ => .quiet :: .record :: ((subOp (byteAt buf 5)).map SubOp.labels).getD []
  | .prime .. => [.quiet, .record, .prime]
  | .run .. => [.quiet, .record, .use] ++ (if k.press.what = .grant then [.grant] else [])
      ++ (if k.press.what = .settle then [.pay] else [])
  | .deny .. | .timeout .. => [.quiet, .record, .use]
  | .restart => []
  | .backup .. => [.quiet, .record]
  | .restore _ => [.quiet, .record, .restore]
  | .wipe => [.quiet, .wipe]
  | .core _ => [.quiet]

/-- Every event but a restart is a run of moves. -/
theorem step_moves (e : Event) (hne : e ≠ .restart) (hvalid : e.Valid k)
    (hP : ∀ l ∈ e.labels k, P l) : Moves E P k (step E e k) := by
  -- each event's moves are of the kinds that its labels allow
  cases e with
  | recv buf t d =>
    have hq : P .quiet := hP _ (by simp [Event.labels])
    have hrecv := recv_moves (E := E) (k := k.hush) hq (hP _ (by simp [Event.labels])) t d buf
      fun sub hsub l hl => hP l (by simp [Event.labels, hsub, hl])
    exact ((Moves.still hq (still_hush k)).trans hrecv).trans (.still hq (still_at _ _))
  | prime opcode slot msg mode t =>
    have hq : P .quiet := hP _ (by simp [Event.labels])
    have hprime := okcorePrime_moves (E := E) (k := k.hush) (hP _ (by simp [Event.labels]))
      (hP _ (by simp [Event.labels])) t slot msg mode hvalid.1
    exact ((Moves.still hq (still_hush k)).trans hprime).trans (.still hq (still_at _ _))
  | run t d =>
    have hq : P .quiet := hP _ (by simp [Event.labels])
    have hrun := runPendingOp_moves (E := E) (k := k.hush) hq (hP _ (by simp [Event.labels]))
      (hP _ (by simp [Event.labels])) (fun h => hP _ (by simp [Event.labels, show k.press.what = _ from h]))
      (fun h => hP _ (by simp [Event.labels, show k.press.what = _ from h])) t d
    exact ((Moves.still hq (still_hush k)).trans hrun).trans (.still hq (still_at _ _))
  | deny t d =>
    have hq : P .quiet := hP _ (by simp [Event.labels])
    have hdeny := giveUp_moves (E := E) (k := k.hush) hq (hP _ (by simp [Event.labels]))
      (hP _ (by simp [Event.labels])) t d .deny (by decide)
    exact ((Moves.still hq (still_hush k)).trans hdeny).trans (.still hq (still_at _ _))
  | timeout t d =>
    have hq : P .quiet := hP _ (by simp [Event.labels])
    have hdeny := giveUp_moves (E := E) (k := k.hush) hq (hP _ (by simp [Event.labels]))
      (hP _ (by simp [Event.labels])) t d .timeout (by decide)
    exact ((Moves.still hq (still_hush k)).trans hdeny).trans (.still hq (still_at _ _))
  | restart => exact absurd rfl hne
  | backup d max =>
    have hq : P .quiet := hP _ (by simp [Event.labels])
    exact (Moves.still hq (still_hush k)).trans (backup_moves (hP _ (by simp [Event.labels])) d max)
  | restore sec =>
    have hq : P .quiet := hP _ (by simp [Event.labels])
    exact (Moves.still hq (still_hush k)).trans
      (restore_moves (hP _ (by simp [Event.labels])) (hP _ (by simp [Event.labels])) sec)
  | wipe =>
    have hq : P .quiet := hP _ (by simp [Event.labels])
    exact (Moves.still hq (still_hush k)).tail (hP _ (by simp [Event.labels])) (.wipe _)
  | core c =>
    refine .still (hP _ (by simp [Event.labels])) ?_
    constructor <;> first | rfl | exact Or.inl rfl

end OkRn.Edge
