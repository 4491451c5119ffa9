/-
OkRn/Edge/Trace.lean

Every key a run reaches is reached by moves and restarts.

The requests that touch RAM only leave the chain, the record and the budgets
alone (`Ram.sameChain`).  A move saves at most once, before anything else it
writes to the history (`Move.writes`), so a cut at a save is a restart between
two moves.  `Reachable.trace` is the bridge: the invariants are proved over
`Trace`, and hold of every run.
-/
import OkRn.Edge.Events

namespace OkRn.Edge

variable {E : Env} {P : Label → Prop} {k m k' : Key} {l : Label}

/-! ### The RAM requests -/

/-- A press of this shape passed the checks of GRANT_CREATE. -/
structure Checked (E : Env) (buf : Report) (fresh : Bool) (labels : Fin 4 → Option Digest)
    (p : Press) : Prop where
  count_pos : 1 ≤ Grant.count buf
  count_le : Grant.count buf ≤ 4
  scopes_ok : Grant.scopesOk buf fresh labels = true
  uses_le : Grant.uses buf ≤ maxUses
  press_eq : ∃ seed, p = { Grant.press E buf labels seed with what := p.what, since := p.since }

/-- A budget waiting for its press was checked. -/
def PressOk (E : Env) (k : Key) : Prop :=
  k.press.what = .grant → ∃ buf fresh labels, Checked E buf fresh labels k.press

/-- The chain, the record, the identity and the budgets are left alone. -/
structure SameChain (E : Env) (k k' : Key) : Prop where
  flash : k'.flash = k.flash
  st : k'.st = k.st
  loaded : k'.loaded = k.loaded
  ident : k'.ident = k.ident
  budgets : k'.budgets = k.budgets
  held : k'.held = k.held
  nextIntent : k'.nextIntent = k.nextIntent
  started : k'.started = true → k.started = true
  press : PressOk E k → PressOk E k'
  log : ∃ seg, k'.log = seg ++ k.log ∧ ∀ e ∈ seg, e.silent = true

theorem pressOk_of_eq (h : k'.press = k.press) (hk : PressOk E k) : PressOk E k' := by
  rw [PressOk, h]
  exact hk

/-- Only a request for a budget has anything to check. -/
theorem pressOk_of_what (h : k'.press.what ≠ .grant) : PressOk E k' := fun hwhat =>
  absurd hwhat h

/-- A still step leaves chain, record and budgets. -/
theorem Still.sameChain (h : Still k k') : SameChain E k k' where
  flash := h.flash
  st := h.st
  loaded := h.loaded
  ident := h.ident
  budgets := h.budgets
  held := h.held
  nextIntent := h.nextIntent
  started := by rw [h.started]; exact id
  press hk := by
    rcases h.press with hp | hp
    · exact pressOk_of_eq hp hk
    · exact pressOk_of_what (by rw [hp]; decide)
  log := by
    rcases h.log with hl | ⟨w, hl⟩ | ⟨p, t, hl⟩
    · exact ⟨[], hl, by simp⟩
    · exact ⟨[.ran w], hl, by simp [Entry.silent]⟩
    · exact ⟨[.opened p t], hl, by simp [Entry.silent]⟩

theorem grantLabel_sameChain (t : Clock) (buf : Report) (k : Key) :
    SameChain E k (k.grantLabel E t buf) := by
  unfold Key.grantLabel
  split
  · constructor <;> try rfl
    · exact id
    · exact id
    · exact ⟨[.label _ _ _], rfl, by simp [Entry.silent]⟩
  · exact ((Sent.refl k).status _).still.sameChain

theorem pressWait_sameChain {m : Key} (h : SameChain E k m) (t : Clock) (what : PressKind)
    (subject : Digest) (request : Report)
    (hpress : PressOk E { m with press := { m.press with what := what, since := t.millis 0 } }) :
    SameChain E k (m.pressWait E t what subject request) := by
  obtain ⟨seg, hlog, hseg⟩ := h.log
  have hprime : m.pressWait E t what subject request =
      { m with
        press := { m.press with what := what, since := t.millis 0 }
        pend := { m.pend with active := false, budget := none }
        userInputMode := .press
        waiting := some ⟨okEdge, 0, subject.toList, .press, false⟩
        log := .asked what request (t 0) :: m.log } := rfl
  rw [hprime]
  exact ⟨h.flash, h.st, h.loaded, h.ident, h.budgets, h.held, h.nextIntent, h.started,
    fun _ => hpress, .asked what request (t 0) :: seg, by simp [hlog], by simpa [Entry.silent]⟩

theorem Sent.sameChain (h : SameChain E k m) (h' : Sent m k') : SameChain E k k' := by
  rw [h']
  exact ⟨h.flash, h.st, h.loaded, h.ident, h.budgets, h.held, h.nextIntent, h.started, h.press,
    h.log⟩

/-- Another press takes the place. -/
theorem setPress_sameChain (h : SameChain E k m) (p : Press)
    (hp : PressOk E { m with press := p }) : SameChain E k { m with press := p } :=
  ⟨h.flash, h.st, h.loaded, h.ident, h.budgets, h.held, h.nextIntent, h.started, fun _ => hp, h.log⟩

theorem pressDrop_sameChain (h : SameChain E k m) : SameChain E k m.pressDrop :=
  setPress_sameChain h _ (pressOk_of_what (by simp [Press.blank]))

/-- The staged labels are taken and the waiting press is dropped. -/
theorem consume_sameChain (k : Key) :
    SameChain E k ((({ k with staged := Staged.blank }).pressDrop).push .consumed) :=
  ⟨rfl, rfl, rfl, rfl, rfl, rfl, rfl, id,
    fun _ => pressOk_of_what (by simp [Key.push, Key.pressDrop, Press.blank]),
    [.consumed], rfl, by simp [Entry.silent]⟩

theorem grantCreate_sameChain (t : Clock) (d : Draw) (buf : Report) (k : Key) :
    SameChain E k (k.grantCreate E t d buf) := by
  have hconsume := consume_sameChain (E := E) k
  unfold Key.grantCreate
  dsimp only
  split
  · exact Sent.sameChain hconsume ((Sent.refl _).status _)
  · split
    · exact Sent.sameChain hconsume ((Sent.refl _).status _)
    · split
      · have hnoted := setPress_sameChain hconsume { Press.blank with
          verified := bytesAt buf 58 grantHeadBytes, lifetime := get16 buf 56 }
          (pressOk_of_what (by simp [Press.blank]))
        exact Sent.sameChain hnoted ((Sent.refl _).status _)
      · rename_i hcount
        split
        · exact Sent.sameChain hconsume ((Sent.refl _).status _)
        · rename_i hscopes
          split
          · exact Sent.sameChain hconsume ((Sent.refl _).status _)
          · rename_i huses
            have hset := setPress_sameChain hconsume (Grant.press E buf k.staged.label d.seed)
              (pressOk_of_what (by simp [Grant.press, Press.blank]))
            refine pressWait_sameChain hset _ _ _ _ fun _ => ?_
            exact ⟨buf, k.stagedFresh E t, k.staged.label, by omega, by omega,
              by simpa using hscopes, by omega, d.seed, rfl⟩

theorem recvResume_sameChain (t : Clock) (buf : Report) (k : Key) :
    SameChain E k (k.recvResume E t buf) := by
  have hdrop := pressDrop_sameChain (E := E) ((Sent.refl k).still.sameChain)
  unfold Key.recvResume
  dsimp only
  split
  · exact Sent.sameChain hdrop ((Sent.refl _).status _)
  · split
    · exact Sent.sameChain hdrop ((Sent.refl _).status _)
    · split
      · exact Sent.sameChain hdrop ((Sent.refl _).status _)
      · refine pressWait_sameChain (setPress_sameChain hdrop _ ?_) _ _ _ _
          (pressOk_of_what (by simp))
        exact pressOk_of_what (by simp [Key.pressDrop, Press.blank])

theorem recvSettle_sameChain (t : Clock) (buf : Report) (k : Key) :
    SameChain E k (k.recvSettle E t buf) := by
  have hdrop := pressDrop_sameChain (E := E) ((Sent.refl k).still.sameChain)
  unfold Key.recvSettle
  dsimp only
  split
  · exact Sent.sameChain hdrop ((Sent.refl _).status _)
  · exact pressWait_sameChain hdrop _ _ _ _ (pressOk_of_what (by simp))

theorem recvLoss_sameChain (t : Clock) (buf : Report) (k : Key) :
    SameChain E k (k.recvLoss E t buf) := by
  have hdrop := pressDrop_sameChain (E := E) ((Sent.refl k).still.sameChain)
  unfold Key.recvLoss
  dsimp only
  split
  · exact Sent.sameChain hdrop ((Sent.refl _).status _)
  · refine pressWait_sameChain (setPress_sameChain hdrop _ ?_) _ _ _ _
      (pressOk_of_what (by simp))
    exact pressOk_of_what (by simp [Key.pressDrop, Press.blank])

/-- What a priming may change, and what it writes to the history. -/
structure Primes (k k' : Key) : Prop where
  flash : k'.flash = k.flash
  st : k'.st = k.st
  loaded : k'.loaded = k.loaded
  ident : k'.ident = k.ident
  budgets : k'.budgets = k.budgets
  staged : k'.staged = k.staged
  held : k'.held = k.held
  txToken : k'.txToken = k.txToken
  txIntent : k'.txIntent = k.txIntent
  nextIntent : k'.nextIntent = k.nextIntent
  press : k'.press = k.press
  started : k'.started = true → k.started = true
  log : k'.log = k.log ∨ k'.log = .primed k.st.head k'.pend.subject :: k.log

/-- The choice of the budget that pays. -/
theorem choosePayer_primes (t : Clock) (k : Key) : Primes k (k.choosePayer t) := by
  unfold Key.choosePayer
  split
  · constructor <;> first | rfl | exact id | exact Or.inr rfl
  · constructor <;> first | rfl | exact Or.inl rfl | simp

/-- What is pending and waits is all that a priming sets. -/
theorem Primes.of_pend {pend : Pend} {mode : InputMode} {w : Option Waiting}
    (h : Primes { k with pend := pend, userInputMode := mode } m) :
    Primes k { m with waiting := w } :=
  ⟨h.flash, h.st, h.loaded, h.ident, h.budgets, h.staged, h.held, h.txToken, h.txIntent,
    h.nextIntent, h.press, h.started, h.log⟩

theorem okcorePrime_primes (t : Clock) {opcode : UInt8} (slot : UInt8) (msg : List UInt8)
    (mode : InputMode) (hedge : opcode ≠ okEdge)
    (hload : opcode = okSign ∨ opcode = okDecrypt → k.loaded = true) :
    Primes k (k.okcorePrime E t opcode slot msg mode) := by
  unfold Key.okcorePrime Key.primed
  dsimp only
  rw [if_neg hedge]
  split
  · constructor <;> first | rfl | exact id | exact Or.inl rfl
  · rename_i hop
    have hloaded : k.loaded = true := hload (by tauto)
    rw [stateLoad_of_loaded (by exact hloaded)]
    split
    · constructor <;> first | rfl | exact Or.inl rfl | simp [Key.refusePending]
    · exact Primes.of_pend (choosePayer_primes t _)

theorem Primes.sameChain (h : Primes k k') : SameChain E k k' where
  flash := h.flash
  st := h.st
  loaded := h.loaded
  ident := h.ident
  budgets := h.budgets
  held := h.held
  nextIntent := h.nextIntent
  started := h.started
  press := pressOk_of_eq h.press
  log := by
    rcases h.log with hl | hl
    · exact ⟨[], hl, by simp⟩
    · exact ⟨[.primed _ _], hl, by simp [Entry.silent]⟩

theorem Ram.sameChain (h : Ram E l k k') : SameChain E k k' := by
  cases h with
  | still h => exact h.sameChain
  | stage t buf => exact grantLabel_sameChain t buf k
  | request t d buf => exact grantCreate_sameChain t d buf k
  | askResume t buf => exact recvResume_sameChain t buf k
  | askSettle t buf => exact recvSettle_sameChain t buf k
  | askLoss t buf => exact recvLoss_sameChain t buf k
  | prime t opcode slot msg mode hop hload =>
    exact (okcorePrime_primes t slot msg mode hop hload).sameChain

/-! ### TX starts -/

/-- An accepted TX start. -/
def Key.announced (token : Digest) (intent : Intent) (k : Key) : Key :=
  ({ k with
    txToken := token
    txIntent := intent
    txHasIntent := intent != Bytes.zero 16
    started := true }).push (.txStart token intent)

/-- A TX start is refused and counted, or accepted with nothing owed and a budget to pay. -/
theorem recvTxStart_cases (t : Clock) (buf : Report) (k : Key) :
    Still k (k.recvTxStart t buf) ∨
      (k.st.owes = false ∧ k.anyBudgetPayable t = true ∧ ∃ token intent,
        k.recvTxStart t buf = (k.announced token intent).status edgeOk) := by
  unfold Key.recvTxStart
  dsimp only
  split
  · refine Or.inl ?_
    constructor <;> first | rfl | exact Or.inl rfl
  · rename_i howes
    split
    · refine Or.inl ?_
      constructor <;> first | rfl | exact Or.inl rfl
    · rename_i hpay
      exact Or.inr ⟨by simpa using howes, by simpa using hpay, _, _, rfl⟩

/-! ### The history a move writes -/

/-- The entry is a save. -/
def Entry.isSaved : Entry → Bool
  | .saved .. => true
  | _ => false

theorem isSaved_of_silent {e : Entry} (h : e.silent = true) : e.isSaved = false := by
  cases e <;> simp_all [Entry.silent, Entry.isSaved]

/-- A move writes no save, or one save first. -/
inductive Writes (k k' : Key) : Prop
  | ram (seg : List Entry) (hlog : k'.log = seg ++ k.log) (hseg : ∀ e ∈ seg, e.isSaved = false)
  | save (seg : List Entry) (sector : Sector) (hload : k.loaded = true)
      (hlog : k'.log = seg ++ .saved (DoubleBuffer.side (k.st.gen + 1)) sector :: k.log)
      (hseg : ∀ e ∈ seg, e.isSaved = false)

/-- A step without a link writes nothing but plain entries. -/
theorem SameChain.writes (h : SameChain E k k') : Writes k k' := by
  obtain ⟨seg, hlog, hseg⟩ := h.log
  exact .ram seg hlog fun e he => isSaved_of_silent (hseg e he)

/-- The load of the record writes nothing. -/
theorem stateLoad_log (E : Env) (k : Key) : (k.stateLoad E).log = k.log := by
  unfold Key.stateLoad
  split
  · rfl
  · dsimp only
    split <;> rfl

theorem stateLoad_flash (E : Env) (k : Key) : (k.stateLoad E).flash = k.flash := by
  unfold Key.stateLoad
  split
  · rfl
  · dsimp only
    split <;> rfl

/-- The debt of a link leaves the generation. -/
theorem weldDebt_gen (link : Link) (head : Digest) (s : EdgeState) :
    (weldDebt E link head s).gen = s.gen := by
  unfold weldDebt
  split
  · split <;> rfl
  · split
    · split <;> rfl
    · rfl

theorem weldIn_st (link : Link) (reveal : Option Digest) (k : Key) :
    (k.weldIn E link reveal).st =
      { weldDebt E link (weldHead E k.st.head link) k.st with
        seq := link.seq, head := weldHead E k.st.head link, lastLink := link
        gen := k.st.gen + 1 } := by
  simp only [Key.weldIn, Key.hold, Key.push, Key.stateSave, weldDebt_gen]

/-- A link takes the generation on by one. -/
theorem weldIn_gen (link : Link) (reveal : Option Digest) (k : Key) :
    (k.weldIn E link reveal).st.gen = k.st.gen + 1 := by
  rw [weldIn_st]

/-- And is saved in the sector of that generation. -/
theorem weldIn_flash (link : Link) (reveal : Option Digest) (k : Key) :
    (k.weldIn E link reveal).flash =
      Function.update k.flash (DoubleBuffer.side (k.st.gen + 1))
        (stateEncode E (k.weldIn E link reveal).st) := by
  rw [← weldIn_gen (E := E) link reveal k]
  rfl

/-- A weld writes its save, then the link. -/
theorem weldIn_log (link : Link) (reveal : Option Digest) (k : Key) :
    (k.weldIn E link reveal).log =
      .link ⟨link, k.st.head, weldHead E k.st.head link, reveal⟩ ::
        .saved (DoubleBuffer.side (k.st.gen + 1)) (stateEncode E (k.weldIn E link reveal).st) ::
          k.log := by
  rw [← weldIn_gen (E := E) link reveal k]
  rfl

/-- A continue link, in the log. -/
theorem continued_log (id : Ident) (k : Key) :
    (k.continued E id).log =
      .link ⟨k.continueLink E, genesisOf E id.deviceId,
          weldHead E (genesisOf E id.deviceId) (k.continueLink E), none⟩ ::
        .saved (DoubleBuffer.side (k.st.gen + 1)) (stateEncode E (k.continued E id).st) ::
          k.log :=
  weldIn_log (k.continueLink E) none { k.continuing E id with nextIntent := none }

/-- The key restored to the record `s`. -/
def Key.restored (E : Env) (s : EdgeState) (k : Key) : Key :=
  (Key.stateSave E { k with
    st := s
    ident := none
    held := fun _ => none
    budgets := fun _ => Budget.blank
    started := false
    loaded := true }).push (.restored s)

/-- A restore that passes the checks. -/
theorem restore_eq (sec : List UInt8) {k : Key} (hload : k.loaded = true)
    (hsec : Key.sectionOk sec = true) :
    k.restore E sec = k.restored E (Key.sectionState k.st.gen sec) := by
  rw [Key.restore, hsec, stateLoad_of_loaded hload]
  rfl

theorem sectionState_gen (gen : UInt32) (sec : List UInt8) :
    (Key.sectionState gen sec).gen = gen := rfl

/-- A restored record, in the log. -/
theorem restored_log {s : EdgeState} (hs : s.gen = k.st.gen) :
    (k.restored E s).log = .restored s ::
      .saved (DoubleBuffer.side (k.st.gen + 1)) (stateEncode E (k.restored E s).st) ::
        k.log := by
  rw [← hs]
  rfl

/-- Every move writes its save first. -/
theorem Move.writes (h : Move E l k k') : Writes k k' := by
  cases h with
  | ram h => exact h.sameChain.writes (E := E)
  | announce t buf =>
    rcases recvTxStart_cases t buf k with hstill | ⟨-, -, token, intent, htx⟩
    · exact hstill.sameChain.writes (E := E)
    · rw [htx]
      exact .ram [.txStart token intent] rfl (by simp [Entry.isSaved])
  | load _ => exact .ram [] (stateLoad_log E k) (by simp)
  | salt salt hload => exact .save [.salt salt] _ hload rfl (by simp [Entry.isSaved])
  | known => exact .ram [] rfl (by simp)
  | genesis hload => exact .save [] _ hload rfl (by simp)
  | continued hload =>
    exact .save [_] _ hload (continued_log _ k) (by simp [Entry.isSaved])
  | resave hload => exact .save [] _ hload rfl (by simp)
  | act hload hid hact =>
    rename_i link reveal budgets
    have hlog := weldIn_log (E := E) link reveal { k with budgets := budgets, nextIntent := none }
    exact .save [_] _ hload hlog (by simp [Entry.isSaved])
  | restore sec hload hsec =>
    have hlog := restored_log (E := E) (sectionState_gen k.st.gen sec)
    rw [restore_eq sec hload hsec]
    exact .save [_] _ hload hlog (by simp [Entry.isSaved])
  | wipe => exact .ram [.wiped] rfl (by simp [Entry.isSaved])

theorem Writes.suffix (h : Writes k k') : k.log <:+ k'.log := by
  rcases h with ⟨seg, hlog, -⟩ | ⟨seg, sector, -, hlog, -⟩
  · exact ⟨seg, hlog.symm⟩
  · exact ⟨seg ++ [.saved (DoubleBuffer.side (k.st.gen + 1)) sector], by simp [hlog]⟩

/-- A cut at a save of some moves falls between two of them. -/
theorem Moves.cut {post pre : List Entry} {side : Bool} {sector : Sector}
    (h : Moves E P k k') (hlog : k'.log = post ++ .saved side sector :: pre)
    (hpre : k.log <:+ pre) :
    ∃ m, Moves E P k m ∧ m.log = pre ∧ m.loaded = true ∧
      side = DoubleBuffer.side (m.st.gen + 1) := by
  have hsaved : Entry.isSaved (.saved side sector) = true := rfl
  induction h generalizing post with
  | refl =>
    have hlen := hpre.length_le
    rw [hlog, List.length_append, List.length_cons] at hlen
    omega
  | tail hmoves hl hmove ih =>
    rename_i m _ _
    rcases hmove.writes with ⟨seg, hlog', hseg⟩ | ⟨seg, sector', hload, hlog', hseg⟩
    · rw [hlog'] at hlog
      obtain ⟨post', -, hm⟩ := History.split_of_forall hseg hsaved hlog
      exact ih hm
    · rw [hlog'] at hlog
      obtain ⟨post', -, hm⟩ := History.split_of_forall hseg hsaved hlog
      rcases post' with - | ⟨e, post'⟩
      · obtain ⟨hentry, hrest⟩ := List.cons.inj hm
        obtain ⟨hside, -⟩ := Entry.saved.inj hentry
        exact ⟨m, hmoves, hrest, hload, hside.symm⟩
      · exact ih (List.cons.inj hm).2

/-! ### Traces -/

/-- The record a key has: the one in RAM, or the one a load would pick. -/
def Key.kept (E : Env) (k : Key) : EdgeState := if k.loaded then k.st else Key.loadRecord E k.flash

/-- The keys reached by moves and restarts; a restart may cut off the next save. -/
inductive Trace (E : Env) : Key → Prop
  | new (core : Core) : Trace E (Key.fresh (fun _ => erased) core [])
  | move {k k' : Key} {l : Label} : Trace E k → Move E l k k' → Trace E k'
  | boot {k : Key} (core : Core) {torn : Option (Bool × Sector)} : Trace E k →
      Torn E (DoubleBuffer.side ((k.kept E).gen + 1)) torn →
      Trace E (reboot E torn k.flash core k.log)

theorem Trace.moves (h : Trace E k) (hmoves : Moves E P k k') : Trace E k' := by
  induction hmoves with
  | refl => exact h
  | tail _ _ hmove ih => exact ih.move hmove

/-- The flash is what the history says. -/
def FlashKept (k : Key) : Prop := k.flash = flashOf k.log

/-- A step without a link keeps the flash as the log says. -/
theorem SameChain.flashKept (h : SameChain E k k') (hk : FlashKept k) : FlashKept k' := by
  obtain ⟨seg, hlog, hseg⟩ := h.log
  rw [FlashKept, h.flash, hlog, flashOf_append hseg]
  exact hk

/-- A link saves as the log says. -/
theorem weldIn_flashKept (link : Link) (reveal : Option Digest) (hk : FlashKept k) :
    FlashKept (k.weldIn E link reveal) := by
  rw [FlashKept, weldIn_log, weldIn_flash, hk]
  rfl

theorem stateSave_flashKept (hk : FlashKept k) : FlashKept (k.stateSave E) := by
  rw [FlashKept, Key.stateSave]
  dsimp only [Key.push, flashOf]
  rw [hk]

/-- An entry about something else leaves the flash. -/
theorem push_flashKept (e : Entry) (he : ∀ log, flashOf (e :: log) = flashOf log)
    (hk : FlashKept k) : FlashKept (k.push e) := by
  rw [FlashKept, Key.push]
  dsimp only
  rw [he]
  exact hk

/-- A new salt is saved as the log says. -/
theorem salted_flashKept (salt : Digest) (hk : FlashKept k) : FlashKept (k.salted E salt) := by
  have hm : FlashKept { k with st := { k.st with salt := salt, salted := true } } := hk
  exact push_flashKept _ (fun _ => rfl) (stateSave_flashKept hm)

theorem genesisSet_flashKept (id : Ident) (hk : FlashKept k) :
    FlashKept (k.genesisSet E id) := by
  have hm : FlashKept { k with
      ident := some id, st := { k.st with head := genesisOf E id.deviceId } } := hk
  exact stateSave_flashKept hm

theorem continued_flashKept (id : Ident) (hk : FlashKept k) : FlashKept (k.continued E id) := by
  have hm : FlashKept { k.continuing E id with nextIntent := none } := hk
  exact weldIn_flashKept _ _ hm

theorem restored_flashKept (s : EdgeState) (hk : FlashKept k) : FlashKept (k.restored E s) := by
  have hm : FlashKept { k with
      st := s, ident := none, held := fun _ => none, budgets := fun _ => Budget.blank
      started := false, loaded := true } := hk
  exact push_flashKept _ (fun _ => rfl) (stateSave_flashKept hm)

/-- Every move keeps the flash as the log says. -/
theorem Move.flashKept (h : Move E l k k') (hk : FlashKept k) : FlashKept k' := by
  cases h with
  | ram h => exact h.sameChain.flashKept hk
  | announce t buf =>
    rcases recvTxStart_cases t buf k with hstill | ⟨-, -, token, intent, htx⟩
    · exact SameChain.flashKept (E := E) hstill.sameChain hk
    · rw [htx]
      exact hk
  | load _ =>
    rw [FlashKept, stateLoad_log, stateLoad_flash]
    exact hk
  | salt salt hload => exact salted_flashKept salt hk
  | known => exact hk
  | genesis => exact genesisSet_flashKept _ hk
  | continued => exact continued_flashKept _ hk
  | resave => exact stateSave_flashKept hk
  | act =>
    rename_i budgets _ _ _
    have hm : FlashKept { k with budgets := budgets, nextIntent := none } := hk
    exact weldIn_flashKept _ _ hm
  | restore sec hload hsec =>
    rw [restore_eq sec hload hsec]
    exact restored_flashKept _ hk
  | wipe => rfl

theorem reboot_flashKept (core : Core) (torn : Option (Bool × Sector)) (hk : FlashKept k) :
    FlashKept (reboot E torn k.flash core k.log) := by
  rw [FlashKept, reboot]
  dsimp only [Key.fresh]
  rcases torn with - | ⟨side, junk⟩
  · exact hk
  · dsimp only [tear, flashOf]
    rw [hk]

theorem Trace.flashKept (h : Trace E k) : FlashKept k := by
  induction h with
  | new core => rfl
  | move _ hmove ih => exact hmove.flashKept ih
  | boot core _ _ ih => exact reboot_flashKept core _ ih

/-- A restart writes nothing but itself. -/
theorem restart_no_save {post pre : List Entry} {side : Bool} {sector : Sector} {e : Entry}
    (he : e.isSaved = false) (h : e :: k.log = post ++ .saved side sector :: pre)
    (hpre : k.log <:+ pre) : False := by
  have hlen := hpre.length_le
  rcases post with - | ⟨e', post⟩
  · obtain ⟨rfl, -⟩ := List.cons.inj h
    cases he
  · have hlog : k.log = post ++ .saved side sector :: pre := (List.cons.inj h).2
    rw [hlog, List.length_append, List.length_cons] at hlen
    omega

/-- Every key a run reaches is reached by moves and restarts. -/
theorem Reachable.trace (h : Reachable E k) : Trace E k := by
  induction h with
  | new core => exact .new core
  | event e _ hvalid ih =>
    by_cases he : e = .restart
    · subst he
      exact ih.boot _ (Or.inl rfl)
    · exact ih.moves (step_moves (P := fun _ => True) e he hvalid fun _ _ => trivial)
  | cut e _ hvalid hlog hpre htorn ih =>
    by_cases he : e = .restart
    · subst he
      exact (restart_no_save rfl hlog hpre).elim
    · obtain ⟨m, hmoves, rfl, hload, rfl⟩ :=
        (step_moves (P := fun _ => True) e he hvalid fun _ _ => trivial).cut hlog hpre
      have hm : Trace E m := ih.moves hmoves
      rw [← hm.flashKept]
      refine hm.boot _ ?_
      rw [Key.kept, if_pos hload]
      exact htorn

end OkRn.Edge
