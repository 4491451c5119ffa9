/-
OkRn/Store/Queue.lean

The sync queue: the writers of a copy, one after another.

A writer loads the copy, works on it and saves it.  In the queue it runs alone,
so it finds the copy as the writers before it left it (`copyNow`), and the text
stored when it completes is that copy with its change.  A writer that fails
leaves the stored text as it was; when only its last write failed, its change is
in memory, and the next writer goes on from there.

* `Writer` is what a sync, a note, a merge and an edit have in common;
* `Effect` is what a call leaves when it has ended, and `Effects` a run of them.

Main result: `queue_effects`.
-/
import OkRn.Lib.Queue
import OkRn.Store.Window

namespace OkRn.Store

open OkRn.Task

variable {L : EdgeLib} {s s' : Session} {id : Blob} {m m' : Mirror} {source : Source}

/-! ### The writers -/

/-- The links after an edit of testing mode. -/
def tamperWork (L : EdgeLib) (how : Tamper) (m : Mirror) : Async Mirror :=
  (Task.sync (tampered L how m.links)).bind fun links =>
    (Async.orThrow links).bind fun links => .ret { m with links := links }

/-- A copy with offered links merged in, or a fork. -/
def mergeWork (L : EdgeLib) (added : List EdgeLinkRecord) (now : Nat) (m : Mirror) :
    Async Mirror :=
  let x := L.merge m.links added
  if !x.conflicts.isEmpty then .fail else Async.orThrow (withMerged L x now m)

/-- A call of the queue, and what it makes of the copy it loads. -/
inductive Writes (L : EdgeLib) (id : Blob) : Async Unit → (Mirror → Async Mirror) → Prop
  | sync (source : Source) (hsource : source.deviceId = id) (now rounds : Nat) :
      Writes L id ((syncNow L source now rounds).bind fun _ => .ret ())
        fun m => (syncWork L source now rounds m).bind fun x => .ret x.1
  | addNote (n : EdgeNote) (now : Nat) :
      Writes L id (addNote L id n now) fun m => Async.orThrow (noted L n now m)
  | keepOffered (added : List EdgeLinkRecord) (now : Nat) :
      Writes L id (keepOffered L id added now) (mergeWork L added now)
  | keepMerged (publicKey publicKeyPq : Blob) (added : List EdgeLinkRecord) (point : MergePoint)
      (now : Nat) : Writes L id (keepMerged L id publicKey publicKeyPq added point now)
        fun m => (mergeWork L added now m).bind fun m => .ret
          { m with
            publicKey := some publicKey
            publicKeyPq := some publicKeyPq
            merged := oneAnchor MergePoint.dropPq (m.merged ++ [point])
            lastSync := some now }
  | keepSeen (seen : Dict Nat) : Writes L id (keepSeen id seen) fun m => .ret
      { m with seen := Dict.spread m.seen (seen.filter fun x => decide (0 < x.2)) }

/-- An edit of testing mode. -/
def tamperCall (L : EdgeLib) (id : Blob) (how : Tamper) : Async Unit :=
  (tamper L id how).bind fun _ => .ret ()

/-- The calls of the queue on one device. -/
inductive QueueCall (L : EdgeLib) (id : Blob) : Async Unit → Prop
  | writes {c : Async Unit} {work : Mirror → Async Mirror} (h : Writes L id c work) :
      QueueCall L id c
  | tamper (how : Tamper) : QueueCall L id (tamperCall L id how)

/-- A merge stays of its device. -/
theorem deviceId_withMerged {x : Merge} {now : Nat} (h : withMerged L x now m = some m') :
    m'.deviceId = m.deviceId := by
  obtain ⟨seqs, -, rfl⟩ := Option.map_eq_some_iff.mp h
  rfl

theorem merge_writer (added : List EdgeLinkRecord) (now : Nat) :
    Writer id (mergeWork L added now) where
  frames m _ := by
    unfold mergeWork
    dsimp only
    split
    · trivial
    · exact frames_orThrow _
  deviceId m m' hid h := by
    unfold mergeWork at h
    dsimp only at h
    split at h
    · exact h.elim
    · exact (deviceId_withMerged (returns_orThrow.mp h)).trans hid

/-- An edit of testing mode touches no copy in memory. -/
theorem tampered_copies (how : Tamper) (links : List EdgeLinkRecord) (s : Session) :
    KeepsCopies s (tampered L how links s).2 := by
  cases how with
  | receipt =>
    unfold tampered
    dsimp only
    split
    · exact .refl s
    · split <;> exact ⟨rfl, rfl, rfl⟩
  | swap =>
    unfold tampered
    dsimp only
    split <;> exact .refl s
  | _ => exact ⟨rfl, rfl, rfl⟩

theorem tamper_writer (how : Tamper) : Writer id (tamperWork L how) where
  frames m _ := Frames.bind (frames_sync fun s => (tampered_copies how m.links s).copy id)
    fun _ _ => (frames_orThrow _).bind fun _ _ => trivial
  deviceId m m' hid h := by
    obtain ⟨links, -, h⟩ := returns_bind.mp h
    obtain ⟨links', -, h⟩ := returns_bind.mp h
    cases h
    exact hid

/-- Every writer loads the copy, works on it and saves it. -/
theorem Writes.shape {c : Async Unit} {work : Mirror → Async Mirror} (h : Writes L id c work) :
    c = (loadMirror id).bind (fun m => (work m).bind saveMirror) ∧ Writer id work := by
  -- each of the calls is its work and then one save
  cases h with
  | sync source hsource now rounds =>
    refine ⟨?_, sync_writer source now rounds⟩
    subst hsource
    rw [syncNow_eq, bind_bind]
    congr 1
    funext m
    rw [bind_bind, bind_bind]
    congr 1
    funext x
    show ((saveMirror x.1).bind fun _ => .ret x).bind (fun _ => .ret ()) = saveMirror x.1
    rw [bind_bind]
    exact bind_ret _
  | addNote n now => exact ⟨rfl, note_writer n now⟩
  | keepOffered added now =>
    refine ⟨?_, merge_writer added now⟩
    unfold Store.keepOffered mergeWork
    congr 1
    funext m
    dsimp only
    split <;> rfl
  | keepMerged publicKey publicKeyPq added point now =>
    refine ⟨?_, ⟨fun m hid => ((merge_writer added now).frames m hid).bind fun _ _ => trivial,
      fun m m' hid h => ?_⟩⟩
    · unfold Store.keepMerged mergeWork
      congr 1
      funext m
      dsimp only
      split
      · rfl
      · rw [bind_bind]
        rfl
    · obtain ⟨m₁, hm₁, h⟩ := returns_bind.mp h
      cases h
      exact (merge_writer added now).deviceId m m₁ hid hm₁
  | keepSeen seen => exact ⟨rfl, fun _ _ => trivial, fun m m' hid h => by cases h; exact hid⟩

/-! ### What is stored and what is remembered -/

/-- A copy a stored text gives: nothing is stored, or a copy of this device. -/
def ReadsAs (id : Blob) (text : Option StoredText) (m : StoredMirror) : Prop :=
  m.deviceId = id ∧ (text = none ∧ m = emptyMirror id ∨ text = some (.json m) ∨
    ∃ tag, text = some (.other tag (.copy m)))

/-- What the next writer finds: the copy in memory, else the stored one. -/
def CopyNow (id : Blob) (s : Session) (m : StoredMirror) : Prop :=
  (∃ x, s.inMemory id = some x ∧ m = storedForm x) ∨
    (s.inMemory id = none ∧ ReadsAs id (s.storage id) m)

/-- The session knows the text that is stored when it holds the copy, and the text can be read. -/
structure Consistent (id : Blob) (s : Session) : Prop where
  known : ∀ x, s.inMemory id = some x → s.storedText id = s.storage id ∧ x.deviceId = id
  reads : ∃ m, ReadsAs id (s.storage id) m

/-- The session holds this copy of the device, and knows the stored text. -/
structure Holds (id : Blob) (m : Mirror) (text : Option StoredText) (s : Session) : Prop where
  inMemory : s.inMemory id = some m
  known : s.storedText id = text
  storage : s.storage id = text

/-- A copy that is held is known. -/
theorem Holds.consistent {text : Option StoredText} (h : Holds id m text s)
    (hid : m.deviceId = id) (hreads : ∃ x, ReadsAs id text x) : Consistent id s where
  known x hx := by
    rw [h.inMemory] at hx
    obtain rfl := Option.some.inj hx
    exact ⟨h.known.trans h.storage.symm, hid⟩
  reads := h.storage ▸ hreads

theorem Holds.copyNow {text : Option StoredText} (h : Holds id m text s) :
    CopyNow id s (storedForm m) := Or.inl ⟨m, h.inMemory, rfl⟩

theorem Holds.keeps {text : Option StoredText} (h : Holds id m text s) (hk : KeepsCopy id s s') :
    Holds id m text s' :=
  ⟨hk.inMemory.trans h.inMemory, hk.storedText.trans h.known, hk.storage.trans h.storage⟩

/-- New objects have the bytes they were made of. -/
theorem toRawLink_mapIdx (raw : List RawLink) (ref : Nat) :
    (raw.mapIdx fun i r => ({ r with ref := ref + i } : EdgeLinkRecord)).map
      EdgeLinkRecord.toRawLink = raw := by
  apply List.ext_getElem
  · simp
  · intro i h₁ h₂
    simp

/-- So a copy with new objects is stored as it was. -/
theorem storedForm_withLinks (x : StoredMirror) (s : Session) :
    storedForm (x.withLinks (Async.freshRecords x.links s).1) = x := by
  show MirrorOf.withLinks _ _ = x
  rw [show (x.withLinks (Async.freshRecords x.links s).1).links =
    (Async.freshRecords x.links s).1 from rfl, Async.freshRecords, toRawLink_mapIdx]
  rfl

/-- What a text that can be read is parsed to. -/
theorem parseMirror_reads {text : Option StoredText} {x : StoredMirror} (h : ReadsAs id text x)
    (hs : s.storage id = text) :
    ∃ m, (parseMirror id text s).1 = some m ∧ storedForm m = x ∧
      (parseMirror id text s).2.inMemory = s.inMemory ∧
      (parseMirror id text s).2.storedText id = text ∧
      (parseMirror id text s).2.storage id = text := by
  obtain ⟨hid, ⟨rfl, rfl⟩ | rfl | ⟨tag, rfl⟩⟩ := h
  · exact ⟨emptyMirror id, rfl, rfl, rfl, by simp [parseMirror, Session.setStoredText], hs⟩
  · exact ⟨_, rfl, storedForm_withLinks _ _, rfl,
      by simp [parseMirror, Session.setStoredText, Async.freshRecords], hs⟩
  · exact ⟨_, rfl, storedForm_withLinks _ _, rfl,
      by simp [parseMirror, Session.setStoredText, Async.freshRecords], hs⟩

theorem getItem_post (id : Blob) (s : Session) :
    (getItem id).Post (fun r s' => s' = s ∧ ∀ text, r = some text → text = s.storage id) s := by
  intro a
  cases a with
  | failed => exact ⟨rfl, fun _ h => by cases h⟩
  | _ => exact ⟨rfl, fun _ h => (Option.some.inj h).symm⟩

theorem loadMirror_post (h : Consistent id s) : (loadMirror id).Post (fun r s' => match r with
    | some m => Holds id m (s.storage id) s' ∧ m.deviceId = id ∧ CopyNow id s (storedForm m)
    | none => s' = s) s := by
  show Task.Post _ (Task.bind (.ret (s.inMemory id)) _) s
  rcases hmem : s.inMemory id with - | m
  · obtain ⟨x, hx⟩ := h.reads
    obtain ⟨m, hm, hform, -, htext, hstorage⟩ := parseMirror_reads (s := s) hx rfl
    have hid : m.deviceId = id := by
      have hx' := hx.1
      rw [← hform] at hx'
      exact hx'
    refine Post.bind (Q := fun r s' => match r with
      | some m' => m' = m ∧ s' = (parseMirror id (s.storage id) s).2
      | none => s' = s) ?_ ?_ fun _ h => h
    · refine (getItem_post id s).bind (fun text s' hs' => ?_) fun s' hs' => hs'.1
      obtain ⟨rfl, htext'⟩ := hs'
      rw [htext' text rfl]
      show Task.Post _ (Async.orThrow (parseMirror id (s'.storage id) s').1) _
      rw [hm]
      exact ⟨rfl, rfl⟩
    · rintro m' s' ⟨rfl, rfl⟩
      refine ⟨⟨?_, htext, hstorage⟩, hid, Or.inr ⟨hmem, hform ▸ hx⟩⟩
      simp [Session.setInMemory]
  · obtain ⟨htext, hid⟩ := h.known m hmem
    exact ⟨⟨hmem, htext, rfl⟩, hid, Or.inl ⟨m, hmem, rfl⟩⟩

/-- A save that runs alone, of a copy the session holds. -/
theorem saveMirror_post {text : Option StoredText} (h : Holds id m text s)
    (hid : m'.deviceId = id) : (saveMirror m').Post (fun r s' => match r with
    | some _ => Holds id m' (some (.json (storedForm m'))) s'
    | none => Holds id m text s' ∨ Holds id m' text s') s := by
  subst hid
  rw [saveMirror_eq]
  refine (getItem_post m'.deviceId s).bind (fun now s₁ hs₁ => ?_) fun s₁ hs₁ => ?_
  · obtain ⟨rfl, hnow⟩ := hs₁
    have hnow' : now = text := (hnow now rfl).trans h.storage
    have hdecide : saveDecision m' now s₁ = (decide (now ≠ some (.json (storedForm m'))),
        s₁.setInMemory m'.deviceId (some m')) := by
      simp [saveDecision, hnow', h.known]
    show Task.Post _ (saveWrites m' (saveDecision m' now s₁).1) (saveDecision m' now s₁).2
    rw [hdecide]
    have hset : Holds m'.deviceId m' text (s₁.setInMemory m'.deviceId (some m')) :=
      ⟨by simp [Session.setInMemory], h.known, h.storage⟩
    -- stored just so already: nothing is written
    by_cases hsame : now = some (.json (storedForm m'))
    · rw [saveWrites, if_neg (by simp [hsame])]
      exact hsame ▸ hnow' ▸ hset
    · rw [saveWrites, if_pos (by simpa using hsame)]
      intro a
      cases a with
      | failed => exact Or.inr hset
      | _ =>
        refine ⟨?_, ?_, ?_⟩
        · simp [Session.setStoredText, Session.setInMemory]
        · simp [Session.setStoredText]
        · simp [Session.setStoredText]
  · rw [hs₁.1]
    exact Or.inl h

/-! ### One call of the queue -/

/-- The copy is what `work` makes of the copy as it was. -/
def MadeOf (id : Blob) (work : Mirror → Async Mirror) (s : Session) (m' : Mirror) : Prop :=
  ∃ m, CopyNow id s (storedForm m) ∧ (work m).Returns m'

theorem Consistent.copyNow (h : Consistent id s) : ∃ x, CopyNow id s x := by
  rcases hmem : s.inMemory id with - | m
  · obtain ⟨x, hx⟩ := h.reads
    exact ⟨x, Or.inr ⟨hmem, hx⟩⟩
  · exact ⟨storedForm m, Or.inl ⟨m, hmem, rfl⟩⟩

/-- What a writer that runs alone ends in. -/
def WriterEnds (id : Blob) (work : Mirror → Async Mirror) (s : Session) (r : Option Unit)
    (s' : Session) : Prop :=
  Consistent id s' ∧ match r with
    | some _ => ∃ m', MadeOf id work s m' ∧ s'.storage id = some (.json (storedForm m')) ∧
        CopyNow id s' (storedForm m')
    | none => s'.storage id = s.storage id ∧ ((∃ x, CopyNow id s x ∧ CopyNow id s' x) ∨
        ∃ m', MadeOf id work s m' ∧ CopyNow id s' (storedForm m'))

/-- The work on a copy the session holds, and its save. -/
theorem workAndSave_post {work : Mirror → Async Mirror} (hw : Writer id work)
    (hid : m.deviceId = id) (hnow : CopyNow id s (storedForm m))
    (hreads : ∃ x, ReadsAs id (s.storage id) x) {u : Session}
    (hu : Holds id m (s.storage id) u) :
    ((work m).bind saveMirror).Post (WriterEnds id work s) u := by
  have hwork := (hw.frames m hid).post (fun _ _ hk hh => Holds.keeps hh hk) hu
  refine hwork.bind (fun m' s₁ hs₁ => ?_) fun s₁ hs₁ => ?_
  · obtain ⟨hholds, hreturns⟩ := hs₁
    have hid' : m'.deviceId = id := hw.deviceId m m' hid (hreturns m' rfl)
    have hmade : MadeOf id work s m' := ⟨m, hnow, hreturns m' rfl⟩
    refine (saveMirror_post hholds hid').mono fun r s' hr => ?_
    cases r with
    | some _ =>
      refine ⟨hr.consistent hid' ⟨storedForm m', hid', Or.inr (Or.inl rfl)⟩, m', hmade,
        hr.storage, hr.copyNow⟩
    | none =>
      rcases hr with hr | hr
      · exact ⟨hr.consistent hid hreads, hr.storage, Or.inl ⟨_, hnow, hr.copyNow⟩⟩
      · exact ⟨hr.consistent hid' hreads, hr.storage, Or.inr ⟨m', hmade, hr.copyNow⟩⟩
  · exact ⟨hs₁.1.consistent hid hreads, hs₁.1.storage, Or.inl ⟨_, hnow, hs₁.1.copyNow⟩⟩

/-- A writer ends in one of its ways. -/
theorem Writes.post {c : Async Unit} {work : Mirror → Async Mirror} (h : Writes L id c work)
    (hs : Consistent id s) : c.Post (WriterEnds id work s) s := by
  obtain ⟨rfl, hw⟩ := h.shape
  refine (loadMirror_post hs).bind (fun m u hu => ?_) fun u hu => ?_
  · exact workAndSave_post hw hu.2.1 hu.2.2 hs.reads hu.1
  · obtain rfl : u = s := hu
    obtain ⟨x, hx⟩ := hs.copyNow
    exact ⟨hs, rfl, Or.inl ⟨x, hx, hx⟩⟩

/-- What an edit of testing mode that runs alone ends in. -/
def TamperEnds (L : EdgeLib) (id : Blob) (how : Tamper) (s : Session) (r : Option Unit)
    (s' : Session) : Prop :=
  Consistent id s' ∧ (s'.storage id = s.storage id ∨ (how = .forget ∧ s'.storage id = none) ∨
    (r = some () ∧ ∃ m', MadeOf id (tamperWork L how) s m' ∧
      s'.storage id = some (.json (storedForm m'))))

theorem forgetMirror_post (hs : Consistent id s) : (forgetMirror id).Post (fun _ s' =>
    Consistent id s' ∧ (s'.storage id = s.storage id ∨ s'.storage id = none)) s := by
  intro a
  cases a with
  | failed =>
    refine ⟨⟨fun x hx => ?_, hs.reads⟩, Or.inl rfl⟩
    simp [Session.setInMemory, Session.setStoredText] at hx
  | _ =>
    refine ⟨⟨fun x hx => ?_, ⟨emptyMirror id, rfl, Or.inl ⟨?_, rfl⟩⟩⟩, Or.inr ?_⟩
    · simp [Session.setInMemory, Session.setStoredText] at hx
    · simp
    · simp

/-- An edit that does not forget: a short copy is left alone, and any other is saved. -/
theorem tamper_eq (how : Tamper) (hhow : how ≠ .forget) : tamper L id how =
    (loadMirror id).bind fun m =>
      if !how.appends && decide (m.links.length < 3) then .ret m
      else (tamperWork L how m).bind fun m => (saveMirror m).bind fun _ => .ret m := by
  have hwork : ∀ m : Mirror, (tamperWork L how m).bind (fun m => (saveMirror m).bind fun _ =>
      .ret m) = (Task.sync (tampered L how m.links)).bind fun links =>
        (Async.orThrow links).bind fun links =>
          (saveMirror { m with links := links }).bind fun _ => .ret { m with links := links } := by
    intro m
    simp only [tamperWork, bind_bind]
    rfl
  simp only [hwork]
  cases how with
  | forget => exact absurd rfl hhow
  | _ => rfl

theorem tamperWork_post (how : Tamper) (hs : Consistent id s) (hid : m.deviceId = id)
    (hnow : CopyNow id s (storedForm m)) {u : Session} (hu : Holds id m (s.storage id) u) :
    ((tamperWork L how m).bind fun m => (saveMirror m).bind fun _ => .ret m).Post
      (fun r s' => TamperEnds L id how s (r.map fun _ => ()) s') u := by
  have hwork := ((tamper_writer (L := L) how).frames m hid).post (fun _ _ hk hh => Holds.keeps hh hk) hu
  refine hwork.bind (fun m' s₁ hs₁ => ?_) fun s₁ hs₁ => ?_
  · obtain ⟨hholds, hreturns⟩ := hs₁
    have hid' : m'.deviceId = id := (tamper_writer (L := L) how).deviceId m m' hid (hreturns m' rfl)
    refine (saveMirror_post hholds hid').bind (fun _ s₂ hs₂ => ?_) fun s₂ hs₂ => ?_
    · exact ⟨hs₂.consistent hid' ⟨storedForm m', hid', Or.inr (Or.inl rfl)⟩,
        Or.inr (Or.inr ⟨rfl, m', ⟨m, hnow, hreturns m' rfl⟩, hs₂.storage⟩)⟩
    · rcases hs₂ with hs₂ | hs₂
      · exact ⟨hs₂.consistent hid hs.reads, Or.inl hs₂.storage⟩
      · exact ⟨hs₂.consistent hid' hs.reads, Or.inl hs₂.storage⟩
  · exact ⟨hs₁.1.consistent hid hs.reads, Or.inl hs₁.1.storage⟩

theorem tamperCall_post (how : Tamper) (hs : Consistent id s) :
    (tamperCall L id how).Post (TamperEnds L id how s) s := by
  refine Post.bind (Q := fun r s' => TamperEnds L id how s (r.map fun _ => ()) s') ?_
    (fun _ _ h => h) fun _ h => h
  -- `forget` saves by removing, the other edits by writing
  by_cases hhow : how = .forget
  · subst hhow
    refine (loadMirror_post hs).bind (fun m u hu => ?_) fun u hu => ?_
    · obtain ⟨hholds, hid, hnow⟩ := hu
      have hu' : Consistent id u := hholds.consistent hid hs.reads
      have hleft : ∀ s' : Session, (s'.storage id = u.storage id ∨ s'.storage id = none) →
          s'.storage id = s.storage id ∨ (Tamper.forget = .forget ∧ s'.storage id = none) :=
        fun s' h => h.imp (fun h => h.trans hholds.storage) fun h => ⟨rfl, h⟩
      refine (forgetMirror_post hu').bind (fun _ u₁ hu₁ => ?_) fun u₁ hu₁ => ?_
      · obtain ⟨hu₁, hgone⟩ := hu₁
        refine (loadMirror_post hu₁).mono fun r s' hr => ?_
        cases r with
        | some m₁ =>
          refine ⟨hr.1.consistent hr.2.1 hu₁.reads, ?_⟩
          rcases hleft s' (hr.1.storage ▸ hgone) with h | h
          · exact Or.inl h
          · exact Or.inr (Or.inl h)
        | none =>
          obtain rfl : s' = u₁ := hr
          rcases hleft s' hgone with h | h
          · exact ⟨hu₁, Or.inl h⟩
          · exact ⟨hu₁, Or.inr (Or.inl h)⟩
      · rcases hleft u₁ hu₁.2 with h | h
        · exact ⟨hu₁.1, Or.inl h⟩
        · exact ⟨hu₁.1, Or.inr (Or.inl h)⟩
    · obtain rfl : u = s := hu
      exact ⟨hs, Or.inl rfl⟩
  · rw [tamper_eq how hhow]
    refine (loadMirror_post hs).bind (fun m u hu => ?_) fun u hu => ?_
    · obtain ⟨hholds, hid, hnow⟩ := hu
      split
      · exact ⟨hholds.consistent hid hs.reads, Or.inl hholds.storage⟩
      · exact tamperWork_post how hs hid hnow hholds
    · obtain rfl : u = s := hu
      exact ⟨hs, Or.inl rfl⟩

/-! ### The whole queue -/

/-- What a writer of the queue did. -/
inductive Wrote (id : Blob) (work : Mirror → Async Mirror) (t : Async Unit) (s s' : Session) : Prop
  /-- It completed: what is stored is the copy as it was with its change, and that is what the next
  call finds. -/
  | completed (m' : Mirror) (ends : t = .ret ()) (made : MadeOf id work s m')
      (stored : s'.storage id = some (.json (storedForm m')))
      (left : CopyNow id s' (storedForm m'))
  /-- It failed: what is stored is as it was, and the next call finds the copy as it was, or with
  its change when only the last write failed. -/
  | failed (ends : t = .fail) (stored : s'.storage id = s.storage id)
      (left : (∃ x, CopyNow id s x ∧ CopyNow id s' x) ∨
        ∃ m', MadeOf id work s m' ∧ CopyNow id s' (storedForm m'))

/-- What an edit of testing mode did: what is stored is as it was, or forgotten, or edited. -/
def TamperStores (L : EdgeLib) (id : Blob) (how : Tamper) (t : Async Unit) (s s' : Session) :
    Prop :=
  s'.storage id = s.storage id ∨ (how = .forget ∧ s'.storage id = none) ∨
    (t = .ret () ∧ ∃ m', MadeOf id (tamperWork L how) s m' ∧
      s'.storage id = some (.json (storedForm m')))

/-- What one call of the queue did, alone. -/
structure Effect (L : EdgeLib) (id : Blob) (c t : Async Unit) (s s' : Session) : Prop where
  ran : c.ByItself s t s'
  wrote : ∀ work, Writes L id c work → Wrote id work t s s'
  tampered : ∀ how, c = tamperCall L id how → TamperStores L id how t s s'

theorem Writes.wrote {c t : Async Unit} {work : Mirror → Async Mirror} (h : Writes L id c work)
    (hs : Consistent id s) (ran : c.ByItself s t s') (hended : t.Settled) :
    Wrote id work t s s' ∧ Consistent id s' := by
  have hpost := (h.post hs).along ran
  cases t with
  | ret a =>
    obtain ⟨hs', m', hmade, hstored, hleft⟩ := hpost
    exact ⟨.completed m' rfl hmade hstored hleft, hs'⟩
  | fail =>
    obtain ⟨hs', hstored, hleft⟩ := hpost
    exact ⟨.failed rfl hstored hleft, hs'⟩
  | act f k => exact hended.elim
  | ask k => exact hended.elim

theorem tamper_stores {t : Async Unit} {how : Tamper} (hs : Consistent id s)
    (ran : (tamperCall L id how).ByItself s t s') (hended : t.Settled) :
    TamperStores L id how t s s' ∧ Consistent id s' := by
  have hpost := (tamperCall_post how hs).along ran
  cases t with
  | ret a =>
    obtain ⟨hs', hstored⟩ := hpost
    exact ⟨hstored.imp_right fun h => h.imp_right fun h => ⟨rfl, h.2⟩, hs'⟩
  | fail =>
    obtain ⟨hs', hstored⟩ := hpost
    exact ⟨hstored.imp_right fun h => h.imp_right fun h => absurd h.1 (by simp), hs'⟩
  | act f k => exact hended.elim
  | ask k => exact hended.elim

theorem QueueCall.effect {c t : Async Unit} (h : QueueCall L id c) (hs : Consistent id s)
    (ran : c.ByItself s t s') (hended : t.Settled) :
    Effect L id c t s s' ∧ Consistent id s' := by
  have heffect : Effect L id c t s s' :=
    { ran := ran
      wrote := fun _ h => (h.wrote hs ran hended).1
      tampered := by
        rintro how rfl
        exact (tamper_stores hs ran hended).1 }
  cases h with
  | writes h => exact ⟨heffect, (h.wrote hs ran hended).2⟩
  | tamper how => exact ⟨heffect, (tamper_stores hs ran hended).2⟩

/-- However the calls of the queue are made, each runs when those before it have ended, and none is
left out.  A call that completes stores the copy it found with its change, and the next finds it
so; a call that fails leaves what is stored as it was. -/
theorem queue_effects {s₀ : Session} {cs : List (Async Unit)} {w : Pool Answer Session}
    (run : Queued (QueueCall L id) s₀ cs w) (hs : Consistent id s₀)
    (hended : ∀ t ∈ w.tasks, t.Settled) :
    Effects (Effect L id) cs w.tasks s₀ w.shared :=
  (run.inTurn.effects hended hs fun c hc _ _ _ hs ran hended =>
    (run.made c hc).effect hs ran hended).1

end OkRn.Store
