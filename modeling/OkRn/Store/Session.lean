/-
OkRn/Store/Session.lean

A whole session: every task of the store keeps what the session remembers backed
by a signature, so every interleaving of them does.

Three results are read off the history.  Every "verified" for a head with a link
is preceded by a check that verified the key's checkpoint over records the copy
starts with.  A seal that is stored, and links that are kept for a computer, were
checked too, but only when memory could not answer the check: the short paths do
not look at the checkpoint they are handed.

* `StoreCall` lists the tasks, and each of them keeps `Checked` (`StoreCall.keeps`);
* `VerifiedIsSigned`, `SealsChecked` and `KeepsSigned` are the three results, each about
  the history alone.

Main results: `verified_is_signed`, `seals_are_checked` and `commit_keeps_signed`.
-/
import OkRn.Store.Demo
import OkRn.Store.Signed

namespace OkRn.Store

variable {L : EdgeLib} {s s' : Session} {id : Blob} {mirror : Mirror} {head : Head}
  {key : Option EdgeCopyKey} {held : List EdgeLinkRecord} {source : Source}

open OkRn.Task

/-! ### Storage -/

/-- A step that touches no memory of checks. -/
theorem Checked.quiet (h : Checked L s) (hhistory : s'.history = s.history)
    (hmemory : s'.verifiedNow = s.verifiedNow) : Checked L s' ∧ s ≤ s' :=
  ⟨h.of_same hhistory fun _ _ hwas => hmemory ▸ hwas, le_of_history hhistory⟩

/-- An answer of any kind keeps what is checked. -/
theorem keeps_answer {α : Type} {g : Answer → Async α} (h : ∀ a, (g a).Keeps (Checked L)) :
    (Task.answer.bind g).Keeps (Checked L) := keeps_ask h

theorem keeps_wait : Async.wait.Keeps (Checked L) :=
  keeps_answer fun a => by cases a <;> first | exact keeps_fail | exact keeps_ret _

theorem keeps_head : Async.head.Keeps (Checked L) :=
  keeps_answer fun a => by cases a <;> first | exact keeps_ret _ | exact keeps_fail

theorem keeps_messages : Async.messages.Keeps (Checked L) :=
  keeps_answer fun a => by cases a <;> first | exact keeps_ret _ | exact keeps_fail

theorem keeps_budgets : Async.budgets.Keeps (Checked L) :=
  keeps_answer fun a => by cases a <;> first | exact keeps_ret _ | exact keeps_fail

theorem keeps_key : Async.copyKey.Keeps (Checked L) :=
  keeps_answer fun a => by cases a <;> first | exact keeps_ret _ | exact keeps_fail

theorem keeps_keys : Async.keys.Keeps (Checked L) :=
  keeps_answer fun a => by cases a <;> first | exact keeps_ret _ | exact keeps_fail

theorem keeps_readLinks_one : Async.read.Keeps (Checked L) :=
  keeps_answer fun a => by
    cases a
    case links rs => exact keeps_sync fun s h => h.quiet rfl rfl
    all_goals exact keeps_fail

theorem keeps_orThrow {α : Type} (o : Option α) : (Async.orThrow o).Keeps (Checked L) := by
  cases o
  · exact keeps_fail
  · exact keeps_ret _

theorem keeps_getItem (id : Blob) : (getItem id).Keeps (Checked L) :=
  keeps_wait.bind fun _ => keeps_read _

theorem keeps_setItem (id : Blob) (text : StoredText) : (setItem id text).Keeps (Checked L) :=
  keeps_wait.bind fun _ => keeps_modify fun _ h => h.quiet rfl rfl

theorem keeps_removeItem (id : Blob) : (removeItem id).Keeps (Checked L) :=
  keeps_wait.bind fun _ => keeps_modify fun _ h => h.quiet rfl rfl

/-- To parse a copy touches no memory of checks. -/
theorem parseMirror_quiet (id : Blob) (raw : Option StoredText) (s : Session) :
    (parseMirror id raw s).2.history = s.history ∧
      (parseMirror id raw s).2.verifiedNow = s.verifiedNow := by
  unfold parseMirror
  dsimp only
  split
  · exact ⟨rfl, rfl⟩
  · exact ⟨rfl, rfl⟩
  · split <;> exact ⟨rfl, rfl⟩

theorem keeps_readMirror (id : Blob) : (readMirror id).Keeps (Checked L) :=
  (keeps_getItem id).bind fun raw =>
    (keeps_sync fun s h => h.quiet (parseMirror_quiet id raw s).1 (parseMirror_quiet id raw s).2).bind
      fun _ => keeps_orThrow _

theorem keeps_loadMirror (id : Blob) : (loadMirror id).Keeps (Checked L) := by
  refine (keeps_read _).bind fun kept => ?_
  rcases kept with - | m
  · exact (keeps_readMirror id).bind fun m =>
      (keeps_modify fun _ h => h.quiet rfl rfl).bind fun _ => keeps_ret _
  · exact keeps_ret _

/-- What is forgotten needs no backing. -/
theorem Checked.forgetVerifiedFor (h : Checked L s) (id : Blob) :
    Checked L (s.forgetVerifiedFor id) ∧ s ≤ s.forgetVerifiedFor id :=
  ⟨(h.forgetChecked id).of_same rfl fun _ _ h => h, le_of_history rfl⟩

theorem keeps_saveMirror (m : Mirror) : (saveMirror m).Keeps (Checked L) := by
  refine (keeps_getItem _).bind fun now => Keeps.bind (keeps_sync fun s h => ?_) fun write => ?_
  · unfold saveDecision
    dsimp only
    split
    · exact h.forgetVerifiedFor _
    · exact h.quiet rfl rfl
  · rcases write with - | -
    · exact keeps_ret _
    · exact (keeps_setItem _ _).bind fun _ => keeps_modify fun _ h => h.quiet rfl rfl

theorem keeps_forgetMirror (id : Blob) : (forgetMirror id).Keeps (Checked L) :=
  (keeps_modify fun _ h => h.quiet rfl rfl).bind fun _ => keeps_removeItem id

/-! ### Checks -/

/-- What is known of a view: signed when the key gave what to check it with and memory could not
answer. -/
structure Viewed (L : EdgeLib) (mirror : Mirror) (head : Head) (key : Option EdgeCopyKey)
    (view : EdgeView × Basis) (s : Session) : Prop where
  some : view.2.short = false → view.2.anchored = true →
    view.1.verdict.isVerified = true ∨ view.1.verdict.isGap = true →
    ∃ head key, Signs L s.history mirror head key
  this : view.2.short = false → (key.bind EdgeCopyKey.publicKey).isSome = true →
    (usableCheckpoint key head).isSome = true →
    view.1.verdict.isVerified = true ∨ view.1.verdict.isGap = true →
    Signs L s.history mirror head key

/-- What is known of one synchronous check. -/
structure Evaluated (L : EdgeLib) (mirror : Mirror) (head : Head) (key : Option EdgeCopyKey)
    (view : EdgeView × Basis) (s : Session) : Prop where
  anchored : view.2.anchored = ((key.bind EdgeCopyKey.publicKey).isSome &&
    (usableCheckpoint key head).isSome)
  not_unsigned : view.2.anchored = true → view.1.verdict.isUnsigned = false
  signs : view.2.short = false → view.2.anchored = true →
    view.1.verdict.isVerified = true ∨ view.1.verdict.isGap = true →
    Signs L s.history mirror head key

/-- What a check has found is so later. -/
theorem Evaluated.later {view : EdgeView × Basis} (h : Evaluated L mirror head key view s)
    (hle : s ≤ s') : Evaluated L mirror head key view s' :=
  ⟨h.anchored, h.not_unsigned, fun hs ha hv => (h.signs hs ha hv).mono hle⟩

/-- A check has viewed the copy. -/
theorem Evaluated.viewed {view : EdgeView × Basis} (h : Evaluated L mirror head key view s) :
    Viewed L mirror head key view s where
  some hs ha hv := ⟨head, key, h.signs hs ha hv⟩
  this hs hp hc hv := h.signs hs (by rw [h.anchored, hp, hc]; rfl) hv

theorem evaluate_ok (mirror : Mirror) (head : Head)
    (held : List EdgeLinkRecord) (key : Option EdgeCopyKey) (s : Session) :
    (evaluate L mirror head held key).Ok (Checked L) (Evaluated L mirror head key) s := by
  intro s₁ _ hinv
  obtain ⟨hchecked, hle⟩ := evaluateWith_checked mirror key held (some head) false hinv
  refine ⟨hchecked, hle, ?_⟩
  rcases ho : (evaluateWith L mirror (some head) held key false s₁).1 with - | - | v
  · simp only [Task.bind, ho]
    trivial
  · simp only [Task.bind, ho]
    trivial
  · simp only [Task.bind, ho]
    intro s₂ hle' _
    refine ⟨rfl, fun ha => (evaluateWith_answer hinv ha ho).1, fun hs ha hv => ?_⟩
    exact ((evaluateWith_answer hinv ha ho).2 hs hv).mono hle'

theorem keeps_evaluate (mirror : Mirror) (head : Head)
    (held : List EdgeLinkRecord) (key : Option EdgeCopyKey) :
    (evaluate L mirror head held key).Keeps (Checked L) := fun s =>
  (evaluate_ok mirror head held key s).mono fun _ _ _ => trivial

theorem keeps_copyKey (source : Source) : source.copyKey.Keeps (Checked L) := by
  unfold Source.copyKey
  split
  · exact (keeps_key.bind fun _ => keeps_ret _).orElse (keeps_ret _)
  · exact keeps_ret _

theorem keeps_readRing (head : Head) : (readRing head).Keeps (Checked L) := by
  unfold readRing
  split
  · exact keeps_readLinks_one
  · exact keeps_ret _

/-- The key that is asked again has the checkpoint already, or had none. -/
theorem fullKey_ok (P : Prop) [Decidable P]
    (hP : P → (key.bind EdgeCopyKey.checkpoint).isNone = true) (s : Session) :
    (if P then (Async.copyKey.bind fun k => .ret (some k)).orElse (.ret key) else .ret key :
        Async (Option EdgeCopyKey)).Ok (Checked L)
      (fun full _ => (key.bind EdgeCopyKey.checkpoint).isSome = true → full = key) s := by
  split
  · rename_i h
    have hnone := hP h
    have himp : ∀ full : Option EdgeCopyKey,
        (key.bind EdgeCopyKey.checkpoint).isSome = true → full = key := by
      intro full hsome
      rw [Option.isNone_iff_eq_none] at hnone
      rw [hnone] at hsome
      cases hsome
    exact (((keeps_key (L := L)).bind fun _ => keeps_ret _).orElse (keeps_ret _) s).mono
      fun full _ _ => himp full
  · exact fun _ _ _ _ => rfl

/-- A usable checkpoint is one of the key's. -/
theorem isSome_checkpoint (h : (usableCheckpoint key head).isSome = true) :
    (key.bind EdgeCopyKey.checkpoint).isSome = true := by
  obtain ⟨cp, hcp⟩ := Option.isSome_iff_exists.mp h
  rw [(Option.filter_eq_some_iff.mp hcp).1]
  rfl

theorem fullView_ok (source : Source) (mirror : Mirror) (head : Head)
    (key : Option EdgeCopyKey) (s : Session) :
    (fullView L source mirror head key).Ok (Checked L) (Viewed L mirror head key) s := by
  unfold fullView
  dsimp only
  refine (fullKey_ok _ (fun h => ?_) s).bind fun full s₁ _ _ hfull => ?_
  · simp only [Bool.and_eq_true] at h
    exact h.1.2
  · refine (keeps_readRing head s₁).bind fun ring s₂ _ _ _ => ?_
    refine (evaluate_ok mirror head ring full s₂).bind fun x s₃ _ _ hx => ?_
    obtain ⟨view, basis⟩ := x
    dsimp only
    split
    · intro s₄ hle _
      have hx' := hx.later hle
      refine ⟨fun hs ha hv => ⟨head, full, hx'.signs hs ha hv⟩, fun hs hp hc hv => ?_⟩
      -- the first check had a signed head
      obtain rfl := hfull (isSome_checkpoint hc)
      exact hx'.viewed.this hs hp hc hv
    · -- asked once more: the first check had nothing to check the head with
      rename_i hunsigned
      have hno : ¬((key.bind EdgeCopyKey.publicKey).isSome = true ∧
          (usableCheckpoint key head).isSome = true) := by
        rintro ⟨hp, hc⟩
        obtain rfl := hfull (isSome_checkpoint hc)
        have hanchored : basis.anchored = true := by
          rw [show basis.anchored = _ from hx.anchored, hp, hc]
          rfl
        rw [hx.not_unsigned hanchored] at hunsigned
        exact hunsigned rfl
      refine (keeps_head s₃).bind fun head₂ s₄ _ _ _ => ?_
      refine (keeps_copyKey source s₄).bind fun key₂ s₅ _ _ _ => ?_
      refine (keeps_readRing head₂ s₅).bind fun ring₂ s₆ _ _ _ => ?_
      refine (evaluate_ok mirror head₂ ring₂ key₂ s₆).mono fun x s₇ hx => ?_
      exact ⟨fun hs ha hv => ⟨head₂, key₂, hx.signs hs ha hv⟩, fun _ hp hc => absurd ⟨hp, hc⟩ hno⟩

variable (mirror head key) in
theorem quickCheck_checked (h : Checked L s) :
    Checked L (quickCheck L mirror head key s).2 ∧ s ≤ (quickCheck L mirror head key s).2 := by
  have hquick := evaluateWith_checked mirror key [] (some head) true h
  unfold quickCheck
  split
  · generalize evaluateWith L mirror (some head) [] key true s = o at hquick
    obtain ⟨hchecked, hle⟩ := hquick
    rcases o with ⟨- | - | v, s'⟩
    · exact ⟨hchecked, hle⟩
    · exact ⟨hchecked.forgetChecked _, hle⟩
    · dsimp only
      split
      · exact ⟨hchecked, hle⟩
      · exact ⟨hchecked.forgetChecked _, hle⟩
  · exact ⟨h, le_rfl⟩

theorem short_of_quickCheck {o : Outcome} (h : (quickCheck L mirror head key s).1 = some o) :
    shortPath s mirror head = true := by
  by_contra hno
  unfold quickCheck at h
  rw [if_neg hno] at h
  cases h

theorem liveViewOf_ok (source : Source) (mirror : Mirror) (head : Head)
    (key : Option EdgeCopyKey) (s : Session) :
    (liveViewOf L source mirror head key).Ok (Checked L) (Viewed L mirror head key) s := by
  refine (keeps_wait s).bind fun _ s₁ _ _ _ => (keeps_wait s₁).bind fun _ s₂ _ _ _ => ?_
  intro s₃ _ hinv
  obtain ⟨hchecked, hle⟩ := quickCheck_checked mirror head key hinv
  refine ⟨hchecked, hle, ?_⟩
  rcases ho : (quickCheck L mirror head key s₃).1 with - | o
  · simp only [Task.bind, ho, Option.map_none]
    exact fullView_ok source mirror head key _
  · have hshort := short_of_quickCheck ho
    simp only [Task.bind, ho, Option.map_some]
    rcases o with - | - | v
    · trivial
    · trivial
    · refine fun s₄ _ _ => ⟨fun hs => ?_, fun hs => ?_⟩ <;>
      · rw [show (basisOf s₃ mirror head key).short = true from hshort] at hs
        cases hs

theorem keeps_liveViewOf (source : Source) (mirror : Mirror) (head : Head)
    (key : Option EdgeCopyKey) : (liveViewOf L source mirror head key).Keeps (Checked L) := fun s =>
  (liveViewOf_ok source mirror head key s).mono fun _ _ _ => trivial

theorem keeps_keyOr (source : Source) (key : Option EdgeCopyKey) :
    (source.keyOr key).Keeps (Checked L) := by
  cases key with
  | some key => exact keeps_ret _
  | none =>
    simp only [Source.keyOr]
    split
    · exact keeps_key.bind fun _ => keeps_ret _
    · exact keeps_ret _

/-- `liveView` with nothing known. -/
theorem liveView_ok (source : Source) (mirror : Mirror) (s : Session) :
    (liveView L source mirror).Ok (Checked L)
      (fun view s => view.2.short = false → view.2.anchored = true →
        view.1.verdict.isVerified = true ∨ view.1.verdict.isGap = true →
        ∃ head key, Signs L s.history mirror head key) s := by
  refine (keeps_head s).bind fun head s₁ _ _ _ => ?_
  refine (keeps_keyOr source none s₁).bind fun key s₂ _ _ _ => ?_
  exact (liveViewOf_ok source mirror head key s₂).mono fun _ _ h => h.some

/-! ### A sync -/

theorem keeps_readLinks (head : Head) (now rounds : Nat) (mirror : Mirror) (next : Int) :
    (readLinks L head now rounds mirror next).Keeps (Checked L) := by
  induction rounds generalizing mirror next with
  | zero => exact keeps_fail
  | succ rounds ih =>
    unfold readLinks
    split
    · exact keeps_ret _
    · refine keeps_readLinks_one.bind fun got => ?_
      split
      · exact keeps_ret _
      · refine (keeps_orThrow _).bind fun x => ?_
        dsimp only
        split
        · exact keeps_ret _
        · exact (keeps_orThrow _).bind fun seq => ih _ _

/-- The search for an old copy. -/
theorem keeps_continuedOf (link : EdgeLinkRecord) (oldSeq : Int) (found : Bool)
    (unverifiable : Option ContinueCheck) (ids : List Blob) :
    (continuedOf L link oldSeq found unverifiable ids).Keeps (Checked L) := by
  induction ids generalizing unverifiable with
  | nil => exact keeps_ret _
  | cons id ids ih =>
    refine (keeps_loadMirror id).bind fun old => ?_
    dsimp only
    split
    · exact keeps_ret _
    · exact ih _

/-- Where a chain goes on from. -/
theorem keeps_continuedFrom (mirror : Mirror) : (continuedFrom L mirror).Keeps (Checked L) := by
  unfold continuedFrom
  split
  · exact keeps_ret _
  · split
    · exact keeps_ret _
    · exact keeps_keys.bind fun _ => (keeps_continuedOf _ _ _ _ _).bind fun _ => keeps_ret _

/-- The head of a seal is below the seq an empty chain's checkpoint is signed at. -/
theorem usable_of_takesSeal {k : EdgeCopyKey} {cp : Checkpoint} {live : List Nat}
    (hcp : k.checkpoint = some cp) (h : takesSeal L mirror head cp live = true)
    (hseq : cp.seq ≠ noLinkSeq) :
    usableCheckpoint (some k) head = some cp ∧ (cp.seq : Int) = head.seq ∧ cp.head = head.head := by
  simp only [takesSeal, Bool.and_eq_true, decide_eq_true_eq, beq_iff_eq] at h
  obtain ⟨⟨⟨hsame, hhead⟩, -⟩, -⟩ := h
  refine ⟨Option.filter_eq_some_iff.mpr ⟨hcp, ?_⟩, hsame, hhead⟩
  simp [hseq, hsame]

theorem sealAfter_checked (live : Option (List Nat)) {view : EdgeView} {basis : Basis}
    {seen : Mirror} (hcopy : seen.deviceId = mirror.deviceId)
    (hview : Viewed L mirror head key (view, basis) s) (h : Checked L s) :
    Checked L (sealAfter L seen head key live view basis s).2 ∧
      s ≤ (sealAfter L seen head key live view basis s).2 := by
  unfold sealAfter
  split
  · rename_i live k
    split
    · rename_i cp hcp
      split
      · rename_i hseal
        rw [Bool.and_eq_true] at hseal
        refine ⟨h.log fun hs hp hseq => ?_, le_log _ _⟩
        obtain ⟨husable, hsame, hhead⟩ := usable_of_takesSeal hcp hseal.2 hseq
        obtain ⟨c, hmem, hc⟩ := hview.this hs hp (by rw [husable]; rfl) (Or.inl hseal.1)
        obtain rfl : c.checkpoint = cp :=
          Option.some.inj (hc.checkpoint.symm.trans husable)
        exact ⟨c, hmem, hc.holds, hc.copyId.trans hcopy.symm, hc.sameHead, hc.publicKey,
          hc.publicKeyPq, hsame, hhead, rfl, rfl, rfl, rfl⟩
      · exact ⟨h, le_rfl⟩
    · exact ⟨h, le_rfl⟩
  · exact ⟨h, le_rfl⟩

theorem keeps_checkAndSeal (source : Source) (mirror : Mirror) (head : Head)
    (key : Option EdgeCopyKey) (live : Option (List Nat)) :
    (checkAndSeal L source mirror head key live).Keeps (Checked L) := by
  intro s
  rcases key with - | key
  · -- no key from the sync: no seal
    refine ((keeps_keyOr source none).bind fun known => keeps_liveViewOf source mirror head known) s
      |>.bind fun x s₁ _ _ _ => ?_
    refine Ok.bind (Q := fun _ _ => True) ?_ fun _ s₂ _ _ _ => keeps_ret _ s₂
    intro s₂ _ hinv
    have hsame {seen : Mirror} : (sealAfter L seen head none live x.1 x.2 s₂).2 = s₂ := by
      cases live <;> rfl
    have hchecked {seen : Mirror} :
        Checked L (sealAfter L seen head none live x.1 x.2 s₂).2 := by
      rw [hsame]
      exact hinv
    exact ⟨hchecked, le_of_eq hsame.symm, fun _ _ _ => trivial⟩
  refine (liveViewOf_ok source mirror head (some key) s).bind fun x s₁ _ _ hx => ?_
  obtain ⟨view, basis⟩ := x
  have hcopy : (Mirror.saw head view mirror).deviceId = mirror.deviceId := by
    unfold Mirror.saw
    split <;> rfl
  refine Ok.bind (Q := fun _ _ => True) ?_ fun _ s₂ _ _ _ => keeps_ret _ s₂
  intro s₂ hle hinv
  -- what was seen of the copy before is of the copy that is sealed
  have hx' : Viewed L mirror head (some key) (view, basis) s₂ :=
    ⟨fun hs ha hv => by
      obtain ⟨head', key', hsigns⟩ := hx.some hs ha hv
      exact ⟨head', key', hsigns.mono hle⟩,
    fun hs hp hc hv => (hx.this hs hp hc hv).mono hle⟩
  obtain ⟨hchecked, hle'⟩ := sealAfter_checked live hcopy hx' hinv
  exact ⟨hchecked, hle', fun _ _ _ => trivial⟩

theorem keeps_syncLinks (now rounds : Nat) (mirror : Mirror) :
    (syncLinks L now rounds mirror).Keeps (Checked L) := by
  refine keeps_head.bind fun head => (keeps_orThrow _).bind fun mirror => ?_
  refine Keeps.bind ?_ fun next => (keeps_readLinks _ _ _ _ _).bind fun mirror => keeps_ret _
  split
  · exact keeps_ret _
  · exact (keeps_orThrow _).bind fun _ => keeps_ret _

theorem keeps_syncCheck (source : Source) (now : Nat) (mirror : Mirror) (head : Head) :
    (syncCheck L source now mirror head).Keeps (Checked L) := by
  refine Keeps.bind ?_ fun live => (keeps_copyKey source).bind fun key => Keeps.bind ?_
    fun continued => keeps_checkAndSeal source _ head key live
  · exact (keeps_budgets.bind fun _ => keeps_ret _).orElse (keeps_ret _)
  · split
    · exact keeps_ret _
    · exact keeps_continuedFrom _

theorem keeps_syncNow (source : Source) (now rounds : Nat) :
    (syncNow L source now rounds).Keeps (Checked L) :=
  (keeps_loadMirror _).bind fun _ => (keeps_syncLinks _ _ _).bind fun _ =>
    keeps_messages.bind fun _ => (keeps_syncCheck _ _ _ _).bind fun _ =>
      (keeps_saveMirror _).bind fun _ => keeps_ret _

/-! ### Notes, offered links and merges -/

theorem keeps_addNote (id : Blob) (n : EdgeNote) (now : Nat) :
    (addNote L id n now).Keeps (Checked L) :=
  (keeps_loadMirror id).bind fun _ => (keeps_orThrow _).bind keeps_saveMirror

theorem links_of_withMerged {m : Merge} {now : Nat} {candidate : Mirror}
    (h : withMerged L m now mirror = some candidate) : candidate.links = m.links := by
  obtain ⟨seqs, -, rfl⟩ := Option.map_eq_some_iff.mp h
  rfl

theorem orThrow_ok {α : Type} (o : Option α) (s : Session) :
    (Async.orThrow o).Ok (Checked L) (fun a _ => o = some a) s := by
  cases o
  · trivial
  · exact fun _ _ _ => rfl

/-- What is known of a merge of offered links. -/
structure Merged (L : EdgeLib) (x : Mirror × Merge × EdgeView × Basis) (s : Session) : Prop where
  added : L.MergeAdds → ∀ r ∈ x.2.1.added, r ∈ x.1.links
  signs : x.2.2.2.short = false → x.2.2.2.anchored = true →
    x.2.2.1.verdict.isVerified = true ∨ x.2.2.1.verdict.isGap = true →
    ∃ head key, Signs L s.history x.1 head key

/-- What a merge has found is so later. -/
theorem Merged.later {x : Mirror × Merge × EdgeView × Basis} (h : Merged L x s) (hle : s ≤ s') :
    Merged L x s' where
  added := h.added
  signs hs ha hv := by
    obtain ⟨head, key, hsigns⟩ := h.signs hs ha hv
    exact ⟨head, key, hsigns.mono hle⟩

theorem mergeOffered_ok (source : Source)
    (offered : List EdgeLinkRecord) (now : Nat) (s : Session) :
    (mergeOffered L source offered now).Ok (Checked L) (Merged L) s := by
  refine (keeps_loadMirror _ s).bind fun mirror s₁ _ _ _ => ?_
  refine (orThrow_ok _ s₁).bind fun candidate s₂ _ _ hcandidate => ?_
  refine (liveView_ok source candidate s₂).bind fun x s₃ _ _ hx => ?_
  obtain ⟨view, basis⟩ := x
  intro s₄ hle _
  refine Merged.later (s := s₃) ⟨fun hmerge r hr => ?_, hx⟩ hle
  rw [links_of_withMerged hcandidate]
  exact hmerge _ _ r hr

theorem keeps_keepOffered (id : Blob) (added : List EdgeLinkRecord) (now : Nat) :
    (keepOffered L id added now).Keeps (Checked L) := by
  refine (keeps_loadMirror id).bind fun mirror => ?_
  dsimp only
  split
  · exact keeps_fail
  · exact (keeps_orThrow _).bind keeps_saveMirror

theorem keeps_keepMerged (id publicKey publicKeyPq : Blob) (added : List EdgeLinkRecord)
    (point : MergePoint) (now : Nat) :
    (keepMerged L id publicKey publicKeyPq added point now).Keeps (Checked L) := by
  refine (keeps_loadMirror id).bind fun mirror => ?_
  dsimp only
  split
  · exact keeps_fail
  · exact (keeps_orThrow _).bind fun _ => keeps_saveMirror _

theorem keeps_keepSeen (id : Blob) (seen : Dict Nat) : (keepSeen id seen).Keeps (Checked L) :=
  (keeps_loadMirror id).bind fun _ => keeps_saveMirror _

/-- Every record has its seq among them. -/
theorem mem_of_seqsIn {rs : List EdgeLinkRecord} {seqs : List Nat} (h : seqsIn L rs = some seqs)
    {r : EdgeLinkRecord} (hr : r ∈ rs) : ∃ seq ∈ seqs, seqOf L r = some seq := by
  induction rs generalizing seqs with
  | nil => cases hr
  | cons r' rs ih =>
    obtain ⟨seq, hseq, hrest⟩ := Option.bind_eq_some_iff.mp h
    obtain ⟨rest, hrs, rfl⟩ := Option.map_eq_some_iff.mp hrest
    rcases List.mem_cons.mp hr with rfl | hr
    · exact ⟨seq, by simp, hseq⟩
    · obtain ⟨seq', hmem, hseq'⟩ := ih hrs hr
      exact ⟨seq', by simp [hmem], hseq'⟩

theorem keeps_handleCommit (source : Source)
    (offered : List EdgeLinkRecord) (now rounds : Nat) :
    (handleCommit L source offered now rounds).Keeps (Checked L) := by
  intro s
  refine (mergeOffered_ok source offered now s).bind fun x s₁ _ _ hx => ?_
  obtain ⟨candidate, m, view, basis⟩ := x
  dsimp only
  split
  · exact keeps_ret _ s₁
  · split
    · exact keeps_ret _ s₁
    · rename_i hverdict
      refine (orThrow_ok _ s₁).bind fun seqs s₂ hle₂ _ hseqs => ?_
      split
      · exact keeps_ret _ s₂
      · rename_i hchecked
        split
        · exact keeps_ret _ s₂
        · rename_i hadded
          -- only a candidate that verified is kept
          have hv : view.verdict.isVerified = true ∨ view.verdict.isGap = true := by
            by_contra hno
            rw [not_or] at hno
            simp [hadded, hno] at hverdict
          have hlog : ∀ s₃, s₂ ≤ s₃ →
              Happening.Backed L s₃.history (.kept candidate basis view.verifiedSeqs m.added) := by
            intro s₃ hle
            have hx' := (hx.later hle₂).later hle
            refine ⟨fun r hr => ⟨fun hmerge => hx'.added hmerge r hr, ?_⟩,
              fun hs ha => hx'.signs hs ha hv⟩
            obtain ⟨seq, hmem, hseq⟩ := mem_of_seqsIn hseqs hr
            refine ⟨seq, ?_, hseq⟩
            by_contra hno
            refine hchecked (List.any_eq_true.mpr ⟨seq, hmem, ?_⟩)
            simpa using hno
          refine Ok.bind (Q := fun _ _ => True) ?_ fun _ s₃ _ _ _ => ?_
          · exact fun s₃ hle hinv => ⟨hinv.log (hlog s₃ hle), le_log _ _, fun _ _ _ => trivial⟩
          · refine Keeps.bind (keeps_keepOffered _ _ _) (fun _ => ?_) s₃
            exact ((keeps_syncNow source now rounds).bind fun _ => keeps_ret _).orElse
              (keeps_ret _)

/-- An edit touches no memory of checks. -/
theorem tampered_quiet (how : Tamper) (links : List EdgeLinkRecord) (s : Session) :
    (tampered L how links s).2.history = s.history ∧
      (tampered L how links s).2.verifiedNow = s.verifiedNow := by
  unfold tampered
  dsimp only
  split <;> try exact ⟨rfl, rfl⟩
  · split
    · exact ⟨rfl, rfl⟩
    · split <;> exact ⟨rfl, rfl⟩
  · split <;> exact ⟨rfl, rfl⟩

theorem keeps_tamper (id : Blob) (how : Tamper) : (tamper L id how).Keeps (Checked L) := by
  refine (keeps_loadMirror id).bind fun m => ?_
  split
  · exact (keeps_forgetMirror id).bind fun _ => keeps_loadMirror id
  · split
    · exact keeps_ret _
    · refine Keeps.bind (keeps_sync fun s h => ?_) fun links => (keeps_orThrow _).bind fun links =>
        (keeps_saveMirror _).bind fun _ => keeps_ret _
      exact h.quiet (tampered_quiet _ _ s).1 (tampered_quiet _ _ s).2

/-! ### Sessions -/

theorem StoreCall.keeps 
    {t : OkRn.Task Answer Session Unit} (h : StoreCall L t) : t.Keeps (Checked L) := by
  cases h with
  | sync source now rounds => exact (keeps_syncNow source now rounds).bind fun _ => keeps_ret _
  | addNote id n now => exact keeps_addNote id n now
  | commit source offered now rounds =>
    exact (keeps_handleCommit source offered now rounds).bind fun _ => keeps_ret _
  | mergeOffered source offered now =>
    exact Keeps.bind (fun s => (mergeOffered_ok source offered now s).mono
      fun _ _ _ => trivial) fun _ => keeps_ret _
  | keepOffered id added now => exact keeps_keepOffered id added now
  | keepMerged => exact keeps_keepMerged _ _ _ _ _ _
  | keepSeen id seen => exact keeps_keepSeen id seen
  | tamper id how => exact (keeps_tamper id how).bind fun _ => keeps_ret _
  | load id => exact (keeps_loadMirror id).bind fun _ => keeps_ret _
  | save m => exact keeps_saveMirror m
  | forgetMirror id => exact keeps_forgetMirror id
  | forgetVerifiedFor id => exact keeps_modify fun _ h => h.forgetVerifiedFor id
  | liveView source mirror =>
    exact Keeps.bind (fun s => (liveView_ok source mirror s).mono fun _ _ _ => trivial)
      fun _ => keeps_ret _
  | liveViewOf source mirror head key =>
    exact (keeps_liveViewOf source mirror head key).bind fun _ => keeps_ret _
  | evaluate mirror head held key =>
    exact (keeps_evaluate mirror head held key).bind fun _ => keeps_ret _

/-- A session that begins has checked nothing. -/
theorem checked_start (storage : Blob → Option StoredText) : Checked L (Session.start storage) :=
  ⟨fun _ _ h => (by cases h), History.guarded_nil⟩

/-- Every session keeps what it says and what it stores backed. -/
theorem InSession.checked {w : Pool Answer Session} (h : InSession L w) : Checked L w.shared := by
  obtain ⟨storage, hruns⟩ := h
  refine (hruns.sound (fun t ht => ht.keeps) ?_ ⟨checked_start storage, by simp⟩).1.inv
  rintro s _ ⟨id, text⟩ hs
  exact hs.quiet rfl rfl

/-! ### Verified only behind a signature -/

/-- Every check was of a copy of the device whose public key the key gave. -/
def OwnKeys (history : List Happening) : Prop :=
  ∀ c, .signed c ∈ history → c.deviceId = c.copyId

/-- Every verified answer for a head with a link comes after a check that verified a checkpoint of
that device with both halves, over records the copy starts with. -/
def VerifiedIsSigned (L : EdgeLib) (history : List Happening) : Prop :=
  ∀ post mirror head verdict past, history = post ++ .answered mirror head verdict :: past →
    verdict.isVerified = true → 0 ≤ head.seq →
    ∃ c, .signed c ∈ past ∧ c.Holds L ∧ c.deviceId = mirror.deviceId ∧ c.records <+: mirror.links

theorem verified_is_signed (hL : L.FailsPastHead) {w : Pool Answer Session}
    (hrun : InSession L w) (hown : OwnKeys w.shared.history) :
    VerifiedIsSigned L w.shared.history := by
  intro post mirror head verdict past hlog hv hhead
  obtain ⟨c, hmem, hholds, hcopy, hprefix⟩ := hrun.checked.answers post _ past hlog hL hv hhead
  refine ⟨c, hmem, hholds, ?_, hprefix⟩
  rw [hown c (by rw [hlog]; simp [hmem]), hcopy]

namespace Demo

/-- A first sync of a copy that is not stored yet. -/
def firstSync : Session :=
  synced 5 (fullSync [.ok] 0 [rawLink 0] [7] (keyOf [1] (some (checkpointAt 0))))
    (Session.start fun _ => none)

/-- A sync of a stored copy whose device id was edited. -/
def editedSync : Session :=
  synced 5 (fullSync [.ok] 0 [] [7] (keyOf [1] (some (checkpointAt 0))))
    (Session.start (storing (stored [2] 0)))

theorem inSession_firstSync : ∃ w, InSession lib w ∧ w.shared = firstSync :=
  inSession_synced (inSession_start fun _ => none) 5 _

theorem inSession_editedSync : ∃ w, InSession lib w ∧ w.shared = editedSync :=
  inSession_synced (inSession_start (storing (stored [2] 0))) 5 _

/-- What happened in the first. -/
theorem firstSync_history : firstSync.history =
    [.answered (checked [1] [record 0 0] |> fun m => { m with seen := [(0, 5)] }) (headAt 0)
      (.verified 0 []), signedCheck [1] 0 [record 0 0]] := by
  decide +kernel

theorem editedSync_history : editedSync.history =
    [.answered (checked [2] [record 0 0]) (headAt 0) (.verified 0 []),
      signedCheck [2] 0 [record 0 0]] := by
  decide +kernel

end Demo

theorem verified_is_signed_first :
    ∃ w, InSession Demo.lib w ∧ w.shared = Demo.firstSync ∧
      VerifiedIsSigned Demo.lib w.shared.history := by
  obtain ⟨w, hw, hshared⟩ := Demo.inSession_firstSync
  refine ⟨w, hw, hshared, verified_is_signed Demo.lib_failsPastHead hw fun c hc => ?_⟩
  have hmem : .signed c ∈ Demo.firstSync.history := hshared ▸ hc
  rw [Demo.firstSync_history] at hmem
  simp [Demo.signedCheck] at hmem
  rw [hmem]

/-- A copy whose stored device id was edited verifies behind another device's signature. -/
theorem verified_for_another_device :
    ∃ w, Demo.lib.FailsPastHead ∧ InSession Demo.lib w ∧
      ¬ VerifiedIsSigned Demo.lib w.shared.history := by
  obtain ⟨w, hw, hshared⟩ := Demo.inSession_editedSync
  refine ⟨w, Demo.lib_failsPastHead, hw, fun h => ?_⟩
  have hhistory : w.shared.history = _ := hshared ▸ Demo.editedSync_history
  obtain ⟨c, hmem, -, hid, -⟩ := h [] _ _ _ _ hhistory rfl (by decide)
  simp only [Demo.signedCheck, List.mem_singleton, Happening.signed.injEq] at hmem
  rw [hmem] at hid
  exact absurd hid (by decide)

/-! ### Every seal stored was checked -/

/-- Each seal is a checkpoint that a check of this session verified with both halves, under the
key's public keys, over exactly the head of the sync that took it. -/
def SealsChecked (L : EdgeLib) (history : List Happening) : Prop :=
  ∀ post mirror head key basis x past,
    history = post ++ .sealed mirror head key basis x :: past →
    SealChecked L past mirror head key x

/-- A seal was taken only where memory could not answer the sync's check, the key gave its public
key, and the head was not at the last seq. -/
def SealsByFullCheck (history : List Happening) : Prop :=
  ∀ mirror head key basis x, .sealed mirror head key basis x ∈ history →
    basis.short = false ∧ key.publicKey.isSome = true ∧ x.seq ≠ noLinkSeq

theorem seals_are_checked {w : Pool Answer Session} (hrun : InSession L w)
    (hfull : SealsByFullCheck w.shared.history) : SealsChecked L w.shared.history := by
  intro post mirror head key basis x past hlog
  obtain ⟨hshort, hpublic, hseq⟩ := hfull mirror head key basis x (by rw [hlog]; simp)
  exact hrun.checked.answers post _ past hlog hshort hpublic hseq

namespace Demo

/-- The budget ended: the key gives a checkpoint of its head with another signature. -/
def badKey : EdgeCopyKey := keyOf [1] (some ⟨0, (rawLink 0).head, [9], none⟩)

/-- A first sync after the budget of a stored copy ended. -/
def sealedSync : Session :=
  synced 5 (fullSync [.ok] 0 [] [] (keyOf [1] (some (checkpointAt 0))))
    (Session.start (storing (stored [1] 0)))

/-- The budget ends after the first sync, and the next one skips its check. -/
def badlySealed : Session := synced 6 (shortSync 0 [] badKey) firstSync

/-- The copy a sync seals. -/
def sealing (now : Nat) (seen : Dict Nat) : Mirror :=
  { checked [1] [record 0 0] with
    lastSync := some now, seen := seen, lastSeen := some ⟨0, (headAt 0).head⟩ }

/-- A session in which a seal is taken. -/
theorem inSession_sealedSync : ∃ w, InSession lib w ∧ w.shared = sealedSync :=
  inSession_synced (inSession_start (storing (stored [1] 0))) 5 _

/-- One in which memory answers before a seal. -/
theorem inSession_badlySealed : ∃ w, InSession lib w ∧ w.shared = badlySealed := by
  obtain ⟨v, hv, hshared⟩ := inSession_firstSync
  obtain ⟨w, hw, hshared'⟩ := inSession_synced hv 6 (shortSync 0 [] badKey)
  exact ⟨w, hw, by rw [hshared', hshared, badlySealed]⟩

/-- What happened in the first. -/
theorem sealedSync_history : sealedSync.history =
    [.sealed (sealing 5 []) (headAt 0) (keyOf [1] (some (checkpointAt 0))) ⟨false, true⟩
      ⟨0, (headAt 0).head, (checkpointAt 0).signature, (checkpointAt 0).signaturePq, [7]⟩,
      .answered (checked [1] [record 0 0]) (headAt 0) (.verified 0 []),
      signedCheck [1] 0 [record 0 0]] := by
  decide +kernel

theorem badlySealed_history : badlySealed.history =
    .sealed (sealing 6 [(0, 5)]) (headAt 0) badKey ⟨true, true⟩
      ⟨0, (headAt 0).head, [9], none, [7]⟩ ::
    .answered { sealing 6 [(0, 5)] with publicKey := some [1] } (headAt 0) (.verified 0 []) ::
    firstSync.history := by
  decide +kernel

end Demo

theorem seals_are_checked_first :
    ∃ w, InSession Demo.lib w ∧ w.shared = Demo.sealedSync ∧
      SealsChecked Demo.lib w.shared.history := by
  obtain ⟨w, hw, hshared⟩ := Demo.inSession_sealedSync
  refine ⟨w, hw, hshared, seals_are_checked hw fun mirror head key basis x hx => ?_⟩
  have hmem : .sealed mirror head key basis x ∈ Demo.sealedSync.history := hshared ▸ hx
  rw [Demo.sealedSync_history] at hmem
  simp [Demo.signedCheck] at hmem
  obtain ⟨-, -, rfl, rfl, rfl⟩ := hmem
  decide

/-- A seal taken behind a skipped check holds a signature that was never checked. -/
theorem unchecked_seal : ∃ w, InSession Demo.lib w ∧ ¬ SealsChecked Demo.lib w.shared.history := by
  obtain ⟨v, hv, hshared⟩ := Demo.inSession_badlySealed
  refine ⟨v, hv, fun h => ?_⟩
  have hhistory : v.shared.history = _ := hshared ▸ Demo.badlySealed_history
  obtain ⟨c, hmem, -, -, -, -, -, -, -, -, -, hsignature, -⟩ := h [] _ _ _ _ _ _ hhistory
  rw [Demo.firstSync_history] at hmem
  simp only [Demo.signedCheck, List.mem_cons, Happening.signed.injEq, reduceCtorEq, false_or,
    List.not_mem_nil, or_false] at hmem
  rw [hmem] at hsignature
  exact absurd hsignature (by decide)

/-! ### A computer's links are kept behind a signature -/

/-- The links kept are links of the candidate at seqs its check called verified, and a check of
this session verified the key's checkpoint with both halves over the same records. -/
def KeepsSigned (L : EdgeLib) (history : List Happening) : Prop :=
  ∀ post candidate basis verified added past,
    history = post ++ .kept candidate basis verified added :: past →
    (∀ r ∈ added, r ∈ candidate.links ∧ ∃ seq ∈ verified, seqOf L r = some seq) ∧
    ∃ c, .signed c ∈ past ∧ c.Holds L ∧ c.copyId = candidate.deviceId ∧
      c.records = candidate.links

/-- Links were kept only where memory could not answer the candidate's check, and the key gave its
public key and a checkpoint no newer than the head. -/
def KeepsByFullCheck (history : List Happening) : Prop :=
  ∀ candidate basis verified added, .kept candidate basis verified added ∈ history →
    basis.short = false ∧ basis.anchored = true

theorem commit_keeps_signed (hmerge : L.MergeAdds) {w : Pool Answer Session}
    (hrun : InSession L w) (hfull : KeepsByFullCheck w.shared.history) :
    KeepsSigned L w.shared.history := by
  intro post candidate basis verified added past hlog
  obtain ⟨hshort, hanchored⟩ := hfull candidate basis verified added (by rw [hlog]; simp)
  obtain ⟨hkept, hsigns⟩ := hrun.checked.answers post _ past hlog
  refine ⟨fun r hr => ⟨(hkept r hr).1 hmerge, (hkept r hr).2⟩, ?_⟩
  obtain ⟨head, key, c, hmem, hc⟩ := hsigns hshort hanchored
  exact ⟨c, hmem, hc.holds, hc.copyId, hc.records⟩

namespace Demo

/-- The answers of a commit whose candidate gets a full check, up to the kept links. -/
def commitAnswers (n : Nat) (cp : Option Checkpoint) : List Answer :=
  [.ok, .head (headAt n), .key (keyOf [1] cp), .ok, .ok] ++
    (if cp.isNone then [.key (keyOf [1] none)] else []) ++ [.links [], .ok, .ok]

/-- A computer offers link 1, the key's newest, and the key signs it. -/
def signedCommit : Session :=
  committed [record 1 90] (commitAnswers 1 (some (checkpointAt 1)))
    (Session.start (storing (stored [1] 0)))

/-- A computer offers link 2 over a gap, and the key gives no checkpoint. -/
def unsignedCommit : Session :=
  committed [record 2 90] (commitAnswers 2 none) (Session.start (storing (stored [1] 0)))

/-- The copy with an offered link. -/
def candidate (n : Nat) : Mirror :=
  { (emptyMirror [1] : Mirror) with links := [record 0 0, record n 90], seen := [(n, 6)] }

/-- A session with a COMMIT that is signed. -/
theorem inSession_signedCommit : ∃ w, InSession lib w ∧ w.shared = signedCommit :=
  inSession_committed (inSession_start (storing (stored [1] 0))) _ _

/-- One with a COMMIT that is not. -/
theorem inSession_unsignedCommit : ∃ w, InSession lib w ∧ w.shared = unsignedCommit :=
  inSession_committed (inSession_start (storing (stored [1] 0))) _ _

/-- What happened in the first. -/
theorem signedCommit_history : signedCommit.history =
    [.kept (candidate 1) ⟨false, true⟩ [1, 0] [record 1 90],
      .answered (candidate 1) (headAt 1) (.verified 1 []),
      signedCheck [1] 1 [record 0 0, record 1 90]] := by
  decide +kernel

theorem unsignedCommit_history : unsignedCommit.history =
    [.kept (candidate 2) ⟨false, false⟩ [2, 0] [record 2 90],
      .answered (candidate 2) (headAt 2) (.gap 2 ⟨1, 1⟩)] := by
  decide +kernel

end Demo

theorem commit_keeps_signed_first :
    ∃ w, InSession Demo.lib w ∧ w.shared = Demo.signedCommit ∧
      KeepsSigned Demo.lib w.shared.history := by
  obtain ⟨w, hw, hshared⟩ := Demo.inSession_signedCommit
  refine ⟨w, hw, hshared, commit_keeps_signed Demo.lib_mergeAdds hw
    fun candidate basis verified added h => ?_⟩
  have hmem : .kept candidate basis verified added ∈ Demo.signedCommit.history := hshared ▸ h
  rw [Demo.signedCommit_history] at hmem
  simp [Demo.signedCheck] at hmem
  obtain ⟨-, rfl, -, -⟩ := hmem
  decide

/-- A link offered over a gap is kept with no signature checked. -/
theorem unsigned_commit :
    ∃ w, Demo.lib.MergeAdds ∧ InSession Demo.lib w ∧
      ¬ KeepsSigned Demo.lib w.shared.history := by
  obtain ⟨w, hw, hshared⟩ := Demo.inSession_unsignedCommit
  refine ⟨w, Demo.lib_mergeAdds, hw, fun h => ?_⟩
  have hhistory : w.shared.history = _ := hshared ▸ Demo.unsignedCommit_history
  obtain ⟨-, c, hmem, -⟩ := h [] _ _ _ _ _ hhistory
  simp at hmem

end OkRn.Store
