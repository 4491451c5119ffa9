/-
OkRn/Store/Window.lean

Between a load of a copy and its save.

A sync, a note and the other writers load the copy, work on it, and save it.  The
work touches nothing this session holds of the copy: not the copy in memory, not
the text last read or written, not the stored text.  So when the others leave the
session's memory of the copy alone too, the text the save compares with is the
one known when the copy was loaded, whatever was edited in between.

* `Writer` is what the writers have in common: the work leaves the copy in memory, and
  gives a copy of the same device;
* `LeavesCopy` is what the others may do in between.

Main results: `edited_copy_is_not_saved_over`, and `edited_copy_is_saved_over`.
-/
import OkRn.Store.Notes

namespace OkRn.Store

open OkRn.Task

variable {L : EdgeLib} {s s' : Session} {id : Blob} {mirror m m' : Mirror} {head : Head}
  {key : Option EdgeCopyKey} {held : List EdgeLinkRecord} {source : Source}

/-! ### What the work leaves alone -/

/-- What the session and the storage hold of a copy is as it was. -/
structure KeepsCopy (id : Blob) (s s' : Session) : Prop where
  inMemory : s'.inMemory id = s.inMemory id
  storedText : s'.storedText id = s.storedText id
  storage : s'.storage id = s.storage id

/-- The same for every copy. -/
structure KeepsCopies (s s' : Session) : Prop where
  inMemory : s'.inMemory = s.inMemory
  storedText : s'.storedText = s.storedText
  storage : s'.storage = s.storage

theorem KeepsCopies.refl (s : Session) : KeepsCopies s s := ⟨rfl, rfl, rfl⟩

theorem KeepsCopies.trans {s₁ s₂ s₃ : Session} (h : KeepsCopies s₁ s₂) (h' : KeepsCopies s₂ s₃) :
    KeepsCopies s₁ s₃ :=
  ⟨h'.inMemory.trans h.inMemory, h'.storedText.trans h.storedText, h'.storage.trans h.storage⟩

theorem KeepsCopies.copy (h : KeepsCopies s s') (id : Blob) : KeepsCopy id s s' :=
  ⟨congrFun h.inMemory id, congrFun h.storedText id, congrFun h.storage id⟩

/-- The full check touches no copy. -/
theorem fullCheck_copies (decoded : List (EdgeLinkRecord × LinkFields)) (hybridOk : Bool) :
    KeepsCopies s (fullCheck L decoded mirror head held key hybridOk s).2 := by
  unfold fullCheck
  dsimp only
  split <;> exact ⟨rfl, rfl, rfl⟩

theorem anchoredCheck_copies (decoded : List (EdgeLinkRecord × LinkFields)) :
    KeepsCopies s (anchoredCheck L decoded mirror head held key s).2 := by
  unfold anchoredCheck
  split
  · split
    · have hlog : ∀ e, KeepsCopies s (s.log e) := fun _ => ⟨rfl, rfl, rfl⟩
      exact (hlog _).trans (fullCheck_copies _ _)
    · exact ⟨rfl, rfl, rfl⟩
  · exact fullCheck_copies _ _

theorem evaluateWith_copies (head : Option Head) (noFull : Bool) :
    KeepsCopies s (evaluateWith L mirror head held key noFull s).2 := by
  unfold evaluateWith
  split
  · exact .refl s
  · exact .refl s
  · unfold evaluateAt
    dsimp only
    split
    · split
      · exact ⟨rfl, rfl, rfl⟩
      · exact anchoredCheck_copies _
    · split
      · exact ⟨rfl, rfl, rfl⟩
      · split
        · exact ⟨rfl, rfl, rfl⟩
        · split
          · exact ⟨rfl, rfl, rfl⟩
          · exact anchoredCheck_copies _

theorem quickCheck_copies : KeepsCopies s (quickCheck L mirror head key s).2 := by
  have h : KeepsCopies s (evaluateWith L mirror (some head) [] key true s).2 :=
    evaluateWith_copies _ _
  unfold quickCheck
  split
  · generalize evaluateWith L mirror (some head) [] key true s = o at h
    rcases o with ⟨- | - | v, s'⟩
    · exact h
    · exact h.trans ⟨rfl, rfl, rfl⟩
    · dsimp only
      split
      · exact h
      · exact h.trans ⟨rfl, rfl, rfl⟩
  · exact .refl s

/-! ### Frames of the work -/

/-- The key's head touches no copy. -/
theorem frames_head : Async.head.Frames (KeepsCopy id) := fun a => by cases a <;> trivial

theorem frames_messages : Async.messages.Frames (KeepsCopy id) := fun a => by
  cases a <;> trivial

theorem frames_budgets : Async.budgets.Frames (KeepsCopy id) := fun a => by cases a <;> trivial

theorem frames_key : Async.copyKey.Frames (KeepsCopy id) := fun a => by cases a <;> trivial

theorem frames_keys : Async.keys.Frames (KeepsCopy id) := fun a => by cases a <;> trivial

theorem frames_wait : Async.wait.Frames (KeepsCopy id) := fun a => by cases a <;> trivial

theorem frames_orThrow {α : Type} (x : Option α) : (Async.orThrow x).Frames (KeepsCopy id) := by
  cases x <;> trivial

theorem frames_read : Async.read.Frames (KeepsCopy id) := fun a => by
  cases a with
  | links rs => exact frames_sync fun _ => ⟨rfl, rfl, rfl⟩
  | _ => trivial

/-- To parse another copy leaves this one. -/
theorem parseMirror_other {other : Blob} (hne : other ≠ id) (raw : Option StoredText)
    (s : Session) : KeepsCopy id s (parseMirror other raw s).2 := by
  have hset : ∀ (text : Option StoredText) (s : Session),
      KeepsCopy id s (s.setStoredText other text) := fun text s =>
    ⟨rfl, by simp [Session.setStoredText, hne.symm], rfl⟩
  unfold parseMirror
  rcases raw with - | ⟨m⟩ | ⟨tag, p⟩
  · exact hset none s
  · have h := hset (some (.json m)) s
    exact ⟨h.inMemory, h.storedText, h.storage⟩
  · cases p with
    | bad => exact hset _ s
    | old => exact hset none s
    | copy m =>
      have h := hset (some (.other tag (.copy m))) s
      exact ⟨h.inMemory, h.storedText, h.storage⟩

theorem frames_loadMirror {other : Blob} (hne : other ≠ id) :
    (loadMirror other).Frames (KeepsCopy id) := by
  have hread : (readMirror other).Frames (KeepsCopy id) := by
    refine Frames.bind ?_ fun raw _ => Frames.bind ?_ fun x _ => frames_orThrow x
    · exact frames_wait.bind fun _ _ => fun s => ⟨⟨rfl, rfl, rfl⟩, trivial⟩
    · exact frames_sync fun s => parseMirror_other hne raw s
  refine Frames.bind (fun s => ⟨⟨rfl, rfl, rfl⟩, trivial⟩) fun kept _ => ?_
  cases kept with
  | some m => trivial
  | none =>
    refine hread.bind fun m _ => Frames.bind (frames_modify fun s => ?_) fun _ _ => trivial
    exact ⟨by simp [Session.setInMemory, hne.symm], rfl, rfl⟩

theorem frames_readLinks (head : Head) (now rounds : Nat) (next : Int) :
    (readLinks L head now rounds m next).Frames (KeepsCopy id) := by
  induction rounds generalizing m next with
  | zero => trivial
  | succ rounds ih =>
    unfold readLinks
    split
    · trivial
    · refine frames_read.bind fun got _ => ?_
      split
      · trivial
      · refine (frames_orThrow _).bind fun x _ => ?_
        obtain ⟨m₁, welded⟩ := x
        dsimp only
        split
        · trivial
        · exact (frames_orThrow _).bind fun seq _ => ih _

theorem frames_syncLinks (now rounds : Nat) :
    (syncLinks L now rounds m).Frames (KeepsCopy id) := by
  refine frames_head.bind fun head _ => (frames_orThrow _).bind fun m₁ _ => Frames.bind ?_
    fun held _ => (frames_readLinks head now rounds _).bind fun _ _ => trivial
  split
  · trivial
  · exact (frames_orThrow _).bind fun _ _ => trivial

theorem frames_copyKey (source : Source) : source.copyKey.Frames (KeepsCopy id) := by
  unfold Source.copyKey
  split
  · exact (frames_key.bind fun _ _ => frames_ret _).orElse (frames_ret _)
  · trivial

theorem frames_readRing (head : Head) : (readRing head).Frames (KeepsCopy id) := by
  unfold readRing
  split
  · exact frames_read
  · trivial

theorem frames_evaluate (mirror : Mirror) (head : Head) (held : List EdgeLinkRecord)
    (key : Option EdgeCopyKey) : (evaluate L mirror head held key).Frames (KeepsCopy id) := by
  refine Frames.bind (frames_sync fun s => (evaluateWith_copies _ _).copy id) fun x _ => ?_
  obtain ⟨o, basis⟩ := x
  cases o <;> trivial

theorem frames_fullView (mirror : Mirror) (head : Head) (key : Option EdgeCopyKey) :
    (fullView L source mirror head key).Frames (KeepsCopy id) := by
  refine Frames.bind ?_ fun full _ => (frames_readRing head).bind fun ring _ =>
    (frames_evaluate mirror head ring full).bind fun x _ => ?_
  · split
    · exact (frames_key.bind fun _ _ => frames_ret _).orElse (frames_ret _)
    · trivial
  · obtain ⟨view, basis⟩ := x
    dsimp only
    split
    · trivial
    · exact frames_head.bind fun head₂ _ => (frames_copyKey source).bind fun key₂ _ =>
        (frames_readRing head₂).bind fun ring₂ _ => frames_evaluate _ _ _ _

theorem frames_liveViewOf (mirror : Mirror) (head : Head) (key : Option EdgeCopyKey) :
    (liveViewOf L source mirror head key).Frames (KeepsCopy id) := by
  refine frames_wait.bind fun _ _ => frames_wait.bind fun _ _ => Frames.bind
    (frames_sync fun s => quickCheck_copies.copy id) fun quick _ => ?_
  rcases quick with - | ⟨o, basis⟩
  · exact frames_fullView _ _ _
  · cases o <;> trivial

theorem frames_keyOr (key : Option EdgeCopyKey) : (source.keyOr key).Frames (KeepsCopy id) := by
  cases key with
  | some key => trivial
  | none =>
    simp only [Source.keyOr]
    split
    · exact frames_key.bind fun _ _ => frames_ret _
    · trivial

/-- The search for an old copy loads other copies. -/
theorem frames_continuedOf (link : EdgeLinkRecord) (oldSeq : Int) (found : Bool)
    (unverifiable : Option ContinueCheck) (ids : List Blob) (hids : ∀ other ∈ ids, other ≠ id) :
    (continuedOf L link oldSeq found unverifiable ids).Frames (KeepsCopy id) := by
  induction ids generalizing unverifiable with
  | nil => trivial
  | cons other ids ih =>
    refine (frames_loadMirror (hids other List.mem_cons_self)).bind fun old _ => ?_
    dsimp only
    split
    · trivial
    · exact ih _ fun o ho => hids o (List.mem_cons_of_mem _ ho)

theorem frames_continuedFrom (hid : mirror.deviceId = id) :
    (continuedFrom L mirror).Frames (KeepsCopy id) := by
  unfold continuedFrom
  split
  · trivial
  · split
    · trivial
    · refine frames_keys.bind fun ids _ => (frames_continuedOf _ _ _ _ _ ?_).bind
        fun _ _ => trivial
      intro other hother
      have hne := (List.mem_filter.mp hother).2
      rw [hid] at hne
      simpa using hne

theorem sealAfter_copies (head : Head) (key : Option EdgeCopyKey) (live : Option (List Nat))
    (view : EdgeView) (basis : Basis) (s : Session) :
    KeepsCopies s (sealAfter L m head key live view basis s).2 := by
  unfold sealAfter
  split
  · split
    · split <;> exact ⟨rfl, rfl, rfl⟩
    · exact .refl s
  · exact .refl s

theorem frames_checkAndSeal (head : Head) (key : Option EdgeCopyKey)
    (live : Option (List Nat)) :
    (checkAndSeal L source m head key live).Frames (KeepsCopy id) := by
  refine ((frames_keyOr key).bind fun known _ => frames_liveViewOf m head known).bind fun x _ => ?_
  obtain ⟨view, basis⟩ := x
  exact Frames.bind (frames_sync fun s => (sealAfter_copies _ _ _ _ _ s).copy id)
    fun _ _ => trivial

/-- The keys are of its device. -/
theorem deviceId_keepKeys (key : Option EdgeCopyKey) :
    (Mirror.keepKeys key m).deviceId = m.deviceId := (keepKeys_texts key).deviceId

/-- The second half of a sync leaves the copy. -/
theorem frames_syncCheck (now : Nat) (head : Head) (hid : m.deviceId = id) :
    (syncCheck L source now m head).Frames (KeepsCopy id) := by
  refine Frames.bind ((frames_budgets.bind fun _ _ => frames_ret _).orElse (frames_ret _)) fun live _ =>
    (frames_copyKey source).bind fun key _ => Frames.bind ?_ fun continued _ =>
      frames_checkAndSeal _ _ _
  split
  · trivial
  · exact frames_continuedFrom ((deviceId_keepKeys key).trans hid)

/-- The work of a sync on the copy it loaded, up to its save. -/
def syncWork (L : EdgeLib) (source : Source) (now rounds : Nat) (mirror : Mirror) :
    Async (Mirror × EdgeView) :=
  (syncLinks L now rounds mirror).bind fun (mirror, head) =>
    Async.messages.bind fun messages =>
      syncCheck L source now
        { mirror with messages := Dict.spread mirror.messages messages } head

/-- A sync loads the copy, works on it, and saves it. -/
theorem syncNow_eq (source : Source) (now rounds : Nat) : syncNow L source now rounds =
    (loadMirror source.deviceId).bind fun mirror => (syncWork L source now rounds mirror).bind
      fun x => (saveMirror x.1).bind fun _ => .ret x := by
  simp only [syncNow, syncWork, bind_bind]

theorem frames_syncWork (now rounds : Nat) (hid : m.deviceId = id) :
    (syncWork L source now rounds m).Frames (KeepsCopy id) := by
  refine (frames_syncLinks now rounds).bind fun x hx => frames_messages.bind fun messages _ => ?_
  obtain ⟨m₁, head⟩ := x
  exact frames_syncCheck now head ((syncLinks_texts hx).deviceId.trans hid)

theorem deviceId_syncWork {now rounds : Nat} {x : Mirror × EdgeView}
    (h : (syncWork L source now rounds m).Returns x) : x.1.deviceId = m.deviceId := by
  obtain ⟨⟨m₁, head⟩, hlinks, h⟩ := returns_bind.mp h
  obtain ⟨messages, -, h⟩ := returns_bind.mp h
  obtain ⟨m₂, view⟩ := x
  exact (syncCheck_texts h).deviceId.trans (syncLinks_texts hlinks).deviceId

/-- A function that works on a copy of this device, between its load and its save. -/
structure Writer (id : Blob) (work : Mirror → Async Mirror) : Prop where
  frames : ∀ m, m.deviceId = id → (work m).Frames (KeepsCopy id)
  deviceId : ∀ m m', m.deviceId = id → (work m).Returns m' → m'.deviceId = id

theorem sync_writer (source : Source) (now rounds : Nat) :
    Writer id fun m => (syncWork L source now rounds m).bind fun x => .ret x.1 where
  frames _ hid := (frames_syncWork now rounds hid).bind fun _ _ => trivial
  deviceId _ _ hid h := by
    obtain ⟨x, hx, h⟩ := returns_bind.mp h
    cases h
    exact (deviceId_syncWork hx).trans hid

/-- A note stays of its device. -/
theorem deviceId_noted {n : EdgeNote} {now : Nat} (h : noted L n now m = some m') :
    m'.deviceId = m.deviceId := by
  obtain ⟨use, -, rfl⟩ := Option.map_eq_some_iff.mp h
  have hreason : (noteReason L n now use m).deviceId = m.deviceId := by
    unfold noteReason
    split
    · rfl
    · dsimp only
      split <;> rfl
  have hmessage : ∀ m, (noteMessage L n m).deviceId = m.deviceId := by
    intro m
    unfold noteMessage
    split <;> rfl
  have hrefusal : ∀ m, (noteRefusal n now m).deviceId = m.deviceId := by
    intro m
    unfold noteRefusal
    split <;> rfl
  rw [hrefusal, hmessage, hreason]

theorem note_writer (n : EdgeNote) (now : Nat) :
    Writer id fun m => Async.orThrow (noted L n now m) where
  frames _ _ := frames_orThrow _
  deviceId _ _ hid h := (deviceId_noted (returns_orThrow.mp h)).trans hid

/-! ### A save among others -/

/-- The others leave the session's memory of a copy alone: no forgetting, no load that reads the
storage, no other save.  The stored text may be edited. -/
def LeavesMemory (id : Blob) (s s' : Session) : Prop :=
  s'.inMemory id = s.inMemory id ∧ s'.storedText id = s.storedText id

/-- They leave the stored text and what was verified of it alone, too. -/
def LeavesCopy (id : Blob) (s s' : Session) : Prop :=
  LeavesMemory id s s' ∧ s'.storage id = s.storage id ∧ s'.verifiedNow id = s.verifiedNow id

/-- The work, and the text its save reads back. -/
def readBack (work : Mirror → Async Mirror) (m : Mirror) : Async (Mirror × Option StoredText) :=
  (work m).bind fun m => (getItem m.deviceId).bind fun now => .ret (m, now)

/-- The rest of a save, once it has read back. -/
def saveAfter (m : Mirror) (now : Option StoredText) : Async Unit :=
  (Task.sync (saveDecision m now)).bind fun write =>
    if write then
      (setItem m.deviceId (.json (storedForm m))).bind fun _ =>
        Task.modify fun s => s.setStoredText m.deviceId (some (.json (storedForm m)))
    else .ret ()

/-- A save reads the stored text first. -/
theorem saveMirror_eq (m : Mirror) : saveMirror m = (getItem m.deviceId).bind (saveAfter m) := rfl

/-- A read of storage touches no copy. -/
theorem frames_getItem (other : Blob) : (getItem other).Frames (KeepsCopy id) :=
  frames_wait.bind fun _ _ => fun _ => ⟨⟨rfl, rfl, rfl⟩, trivial⟩

/-- What is read back is of the device. -/
theorem deviceId_readBack {work : Mirror → Async Mirror} (hw : Writer id work)
    (hid : m.deviceId = id) {now : Option StoredText} (h : (readBack work m).Returns (m', now)) :
    m'.deviceId = id := by
  obtain ⟨m₁, hwork, h⟩ := returns_bind.mp h
  obtain ⟨now', -, h⟩ := returns_bind.mp h
  cases h
  exact hw.deviceId m m' hid hwork

/-- When the work is done and the text is read back, the session still knows what it knew. -/
theorem memory_at_readBack {work : Mirror → Async Mirror} (hw : Writer id work)
    (hid : m.deviceId = id) {x : Mirror × Option StoredText}
    (h : Among (LeavesMemory id) (readBack work m) s (.ret x) s') :
    s'.inMemory id = s.inMemory id ∧ s'.storedText id = s.storedText id := by
  have hframes : (readBack work m).Frames (KeepsCopy id) :=
    (hw.frames m hid).bind fun m₁ _ => (frames_getItem _).bind fun _ _ => trivial
  refine (h.keeps (I := fun u => u.inMemory id = s.inMemory id ∧
    u.storedText id = s.storedText id) hframes ?_ ?_ ⟨rfl, rfl⟩).1
  · intro u v huv hu
    exact ⟨huv.inMemory.trans hu.1, huv.storedText.trans hu.2⟩
  · intro u v huv hu
    exact ⟨huv.1.trans hu.1, huv.2.trans hu.2⟩

/-- Where a save that found another text than the one known may be: it has not decided yet, or it
has stored nothing and dropped what the session held of the copy. -/
def Dropped (m : Mirror) (now : Option StoredText) (s : Session) (t : Async Unit) (u : Session) :
    Prop :=
  (t = saveAfter m now ∧ LeavesCopy m.deviceId s u) ∨
  (t = .ret () ∧ u.inMemory m.deviceId = none ∧ u.verifiedNow m.deviceId = none ∧
    u.storage m.deviceId = s.storage m.deviceId)

/-- A text that was edited outside is not written over. -/
theorem saveDecision_drops {now : Option StoredText}
    (hmem : (s.inMemory m.deviceId).isSome = true) (hnow : now ≠ s.storedText m.deviceId) :
    saveDecision m now s = (false, s.forgetVerifiedFor m.deviceId) := by
  simp [saveDecision, hmem, hnow]

/-- What a save still does once it has decided. -/
def saveWrites (m : Mirror) (write : Bool) : Async Unit :=
  if write then
    (setItem m.deviceId (.json (storedForm m))).bind fun _ =>
      Task.modify fun s => s.setStoredText m.deviceId (some (.json (storedForm m)))
  else .ret ()

theorem saveAfter_eq (m : Mirror) (now : Option StoredText) : saveAfter m now =
    .act (fun s => (saveDecision m now s).2) fun s => saveWrites m (saveDecision m now s).1 := rfl

theorem dropped_of_among {now : Option StoredText} {t : Async Unit}
    (hmem : (s.inMemory m.deviceId).isSome = true) (hnow : now ≠ s.storedText m.deviceId)
    (h : Among (LeavesCopy m.deviceId) (saveAfter m now) s t s') : Dropped m now s t s' := by
  -- before the check the save has done nothing; from it on the copy is dropped
  induction h with
  | refl => exact Or.inl ⟨rfl, ⟨rfl, rfl⟩, rfl, rfl⟩
  | act hrun ih =>
    rename_i f k u
    rcases ih with ⟨ht, hleft⟩ | ⟨ht, -⟩
    · rw [saveAfter_eq] at ht
      injection ht with hf hk
      subst hf hk
      have hdrop : saveDecision m now u = (false, u.forgetVerifiedFor m.deviceId) :=
        saveDecision_drops (hleft.1.1 ▸ hmem) (hleft.1.2 ▸ hnow)
      show Dropped m now s (saveWrites m (saveDecision m now u).1) (saveDecision m now u).2
      rw [hdrop]
      refine Or.inr ⟨rfl, ?_, ?_, hleft.2.1⟩
      · simp [Session.forgetVerifiedFor, Session.setInMemory]
      · exact Session.forgetChecked_self _
    · cases ht
  | ask hrun a ih =>
    rcases ih with ⟨ht, -⟩ | ⟨ht, -⟩
    · rw [saveAfter_eq] at ht
      cases ht
    · cases ht
  | others hrun hv ih =>
    rcases ih with ⟨ht, hleft⟩ | ⟨ht, hmemory, hverified, hstorage⟩
    · exact Or.inl ⟨ht, ⟨hv.1.1.trans hleft.1.1, hv.1.2.trans hleft.1.2⟩,
        hv.2.1.trans hleft.2.1, hv.2.2.trans hleft.2.2⟩
    · exact Or.inr ⟨ht, hv.1.1.trans hmemory, hv.2.2.trans hverified, hv.2.1.trans hstorage⟩

/-- What was forgotten is not answered from memory. -/
theorem not_short_of_forgotten (h : s.verifiedNow mirror.deviceId = none) (head : Head) :
    shortPath s mirror head = false := by
  rw [shortPath, h]

/-! ### A save after an edit -/

/-- A copy was loaded, and from then on the others leave the session's memory of it alone until its
save has read back, and the copy alone after that.  A save that finds another text than the one
known when the copy was loaded stores nothing at all and, when it ends, has dropped the copy from
memory and what was verified of it, so that no check takes a short path; a text that a save
replaces is the one known then. -/
theorem edited_copy_is_not_saved_over {work : Mirror → Async Mirror} (hw : Writer id work)
    {s₁ s₂ : Session} {now : Option StoredText} {t : Async Unit} (hid : m.deviceId = id)
    (hmem : (s.inMemory id).isSome = true)
    (hwork : Among (LeavesMemory id) (readBack work m) s (.ret (m', now)) s₁)
    (hnow : s₁.storage id = now)
    (hsave : Among (LeavesCopy id) (saveAfter m' now) s₁ t s₂) :
    (now ≠ s.storedText id → s₂.storage id = now ∧
      (t.Settled → s₂.inMemory id = none ∧ ∀ mirror head, mirror.deviceId = id →
        shortPath s₂ mirror head = false)) ∧
    (s₂.storage id ≠ now → now = s.storedText id) := by
  obtain ⟨hmemory, htext⟩ := memory_at_readBack hw hid hwork
  have hid' : m'.deviceId = id := deviceId_readBack hw hid (hwork.returns rfl)
  subst hid'
  have hdropped : now ≠ s.storedText m'.deviceId → Dropped m' now s₁ t s₂ := fun hne =>
    dropped_of_among (hmemory ▸ hmem) (htext ▸ hne) hsave
  constructor
  · intro hne
    rcases hdropped hne with ⟨rfl, hleft⟩ | ⟨-, hnone, hverified, hstorage⟩
    · exact ⟨hleft.2.1.trans hnow, fun hset => hset.elim⟩
    · refine ⟨hstorage.trans hnow, fun _ => ⟨hnone, fun mirror head hmirror => ?_⟩⟩
      exact not_short_of_forgotten (hmirror ▸ hverified) head
  · intro hwritten
    by_contra hne
    rcases hdropped hne with ⟨-, hleft⟩ | ⟨-, -, -, hstorage⟩
    · exact hwritten (hleft.2.1.trans hnow)
    · exact hwritten (hstorage.trans hnow)

namespace Demo

/-- A session that holds a copy, as it is stored. -/
def remembering : Session :=
  { Session.start (storing (stored [1] 0)) with
    inMemory := fun id => if id = [1] then some useCopy else none
    storedText := storing (stored [1] 0) }

/-- The stored text was edited. -/
def edited : Session := { remembering with storage := storing (stored [1] 1) }

/-- The work of a note. -/
def aNote (m : Mirror) : Async Mirror := Async.orThrow (noted lib (noteOf "a" "no") 3 m)

theorem aNote_eq : aNote useCopy = .ret (noteTaken "no" useCopy) := by
  rw [aNote, show noted lib (noteOf "a" "no") 3 useCopy = some (noteTaken "no" useCopy) by decide]
  rfl

/-- The note is worked in, the text is edited, and the save reads it back. -/
theorem readBack_edited : Among (LeavesMemory [1]) (readBack aNote useCopy) remembering
    (.ret (noteTaken "no" useCopy, some (stored [1] 1))) edited := by
  have hstart : readBack aNote useCopy =
      (getItem (noteTaken "no" useCopy).deviceId).bind fun now =>
        .ret (noteTaken "no" useCopy, now) := by
    rw [readBack, aNote_eq]
    rfl
  have hid : (noteTaken "no" useCopy).deviceId = [1] := by decide
  rw [hstart, hid]
  have hedit : Among (LeavesMemory [1])
      ((getItem [1]).bind fun now => .ret (noteTaken "no" useCopy, now)) remembering
      ((getItem [1]).bind fun now => .ret (noteTaken "no" useCopy, now)) edited :=
    .others .refl ⟨rfl, rfl⟩
  exact (Among.ask hedit Answer.ok).act

end Demo

theorem edited_copy_is_not_saved_over_note :
    let s := (saveDecision (Demo.noteTaken "no" Demo.useCopy) (some (Demo.stored [1] 1))
      Demo.edited).2
    s.storage [1] = some (Demo.stored [1] 1) ∧ s.inMemory [1] = none := by
  have hwriter : Writer [1] Demo.aNote := note_writer _ _
  obtain ⟨hstored, hdropped⟩ := (edited_copy_is_not_saved_over hwriter
    (show Demo.useCopy.deviceId = [1] from rfl) (by decide) Demo.readBack_edited rfl
    (.act .refl)).1 (by decide)
  refine ⟨hstored, (hdropped ?_).1⟩
  show (saveWrites _ (saveDecision _ _ _).1).Settled
  rw [saveDecision_drops (by decide) (by decide)]
  trivial

namespace Demo

/-- A note has loaded a copy from storage and waits to read back. -/
def loaded : Pool Answer Session :=
  Pool.play (List.replicate 5 (0, .ok))
    ⟨Session.start (storing (stored [1] 0)), [addNote lib [1] (noteOf "a" "no") 3]⟩

/-- The text is edited, and what was verified of the copy is forgotten. -/
def forgotten : Pool Answer Session :=
  Pool.play [(1, .ok)]
    ⟨{ loaded.shared with
        storage := Function.update loaded.shared.storage [1] (some (stored [1] 1)) },
      loaded.tasks ++ [Task.modify fun s => s.forgetVerifiedFor [1]]⟩

/-- The note's save goes on to its end. -/
def savedOver : Pool Answer Session := forgotten.play (List.replicate 6 (0, .ok))

/-- A session with the copy in memory. -/
theorem inSession_loaded : InSession lib loaded :=
  ⟨_, Pool.runs_play _ (Pool.Runs.refl.tail (.call _ (.addNote [1] (noteOf "a" "no") 3)))⟩

theorem inSession_forgotten : InSession lib forgotten := by
  obtain ⟨storage, hruns⟩ := inSession_loaded
  exact ⟨storage, Pool.runs_play _
    ((hruns.tail (.outside (.edit [1] (some (stored [1] 1))))).tail
      (.call _ (.forgetVerifiedFor [1])))⟩

theorem inSession_savedOver : InSession lib savedOver := by
  obtain ⟨storage, hruns⟩ := inSession_forgotten
  exact ⟨storage, Pool.runs_play _ hruns⟩

end Demo

/-- A save whose load came before an edit replaces the edited text, when the copy is forgotten in
between. -/
theorem edited_copy_is_saved_over :
    InSession Demo.lib Demo.loaded ∧ InSession Demo.lib Demo.forgotten ∧
      InSession Demo.lib Demo.savedOver ∧
      (Demo.loaded.shared.inMemory [1]).isSome = true ∧
      Demo.loaded.shared.storage [1] = some (Demo.stored [1] 0) ∧
      Demo.forgotten.shared.storage [1] = some (Demo.stored [1] 1) ∧
      Demo.storedUse Demo.savedOver.shared = some (some "no", [Demo.rawLink 0]) := by
  refine ⟨Demo.inSession_loaded, Demo.inSession_forgotten, Demo.inSession_savedOver, ?_⟩
  decide +kernel

end OkRn.Store
