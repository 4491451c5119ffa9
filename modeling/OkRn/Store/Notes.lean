/-
OkRn/Store/Notes.lean

Notes from paired computers, and the syncs that bring what they are judged by.

A note is judged when it arrives: against the use's link (its reason) or its
receipt (its message), when the copy holds it by then.  `NoteRun` is any order of
notes and syncs on one copy; it records each text that arrives for the use and
whether the copy could judge it.  What is stored at the end is the fold of
`keepText` over these arrivals, so the order matters in one way only: a matching
text counts when it can be judged, or when it is the first.

* `keepText` is the rule for one text, and `keepAll_wins` says what it comes to over any
  arrivals;
* `SameTexts` is what a sync leaves, function by function.

Main results: `matching_note_stays`, and `early_note_stays`.
-/
import OkRn.Store.Demo

namespace OkRn.Store

open OkRn.Task

variable {L : EdgeLib} {m m' : Mirror} {seq now : Nat}

/-! ### The keep rule over many texts -/

/-- A text that arrives, and whether the copy holds what it is judged by. -/
structure Arrival where
  text : String
  known : Bool

/-- What is stored after these texts. -/
def keepAll (matched : String → Bool) (was : Option String) (xs : List Arrival) : Option String :=
  xs.foldl (fun was x => some (keepText was x.text fun t => x.known && matched t)) was

variable {matched : String → Bool} {was : Option String} {t : String} {xs ys : List Arrival}

/-- The first arrival, and the rest. -/
theorem keepAll_cons (x : Arrival) : keepAll matched was (x :: xs) =
    keepAll matched (some (keepText was x.text fun t => x.known && matched t)) xs := rfl

theorem keepAll_concat (x : Arrival) : keepAll matched was (xs ++ [x]) =
    some (keepText (keepAll matched was xs) x.text fun t => x.known && matched t) := by
  rw [keepAll, List.foldl_append]
  rfl

theorem keepText_of_matched (h : matched t = true) (text : String) (known : Bool) :
    keepText (some t) text (fun t => known && matched t) = t := by
  cases known <;> simp [keepText, h]

/-- One that does not gives way to one that does. -/
theorem keepText_unmatched (h : matched t = false) (text : String) (known : Bool) :
    keepText (some t) text (fun t => known && matched t) =
      if known = true ∧ matched text = true then text else t := by
  by_cases heq : t = text
  · subst heq
    simp [keepText]
  · cases known <;> simp [keepText, h, heq]

/-- A text that was taken is the one that came. -/
theorem keepText_eq {p : String → Bool} {text : String} (h : some (keepText was text p) ≠ was) :
    keepText was text p = text := by
  rcases was with - | w
  · rfl
  · unfold keepText at h ⊢
    dsimp only at h ⊢
    split
    · rfl
    · rename_i hkeep
      rw [if_neg hkeep] at h
      exact absurd rfl h

theorem keepAll_of_matched (h : matched t = true) : keepAll matched (some t) xs = some t := by
  induction xs with
  | nil => rfl
  | cons x xs ih => rw [keepAll_cons, keepText_of_matched h, ih]

/-- Over a text that does not match, the first that can be judged and matches. -/
theorem keepAll_unmatched (xs : List Arrival) (h : matched t = false) :
    ∃ t', keepAll matched (some t) xs = some t' ∧
      (matched t' = true ↔ ∃ x ∈ xs, x.known = true ∧ matched x.text = true) ∧
      (t' = t ∨ ∃ x ∈ xs, x.text = t') := by
  induction xs with
  | nil => exact ⟨t, rfl, by simp [h], Or.inl rfl⟩
  | cons x xs ih =>
    rw [keepAll_cons, keepText_unmatched h]
    by_cases hx : x.known = true ∧ matched x.text = true
    · rw [if_pos hx, keepAll_of_matched hx.2]
      refine ⟨x.text, rfl, ?_, Or.inr ⟨x, List.mem_cons_self, rfl⟩⟩
      exact ⟨fun _ => ⟨x, List.mem_cons_self, hx⟩, fun _ => hx.2⟩
    · rw [if_neg hx]
      obtain ⟨t', ht', hiff, hmem⟩ := ih
      refine ⟨t', ht', ?_, ?_⟩
      · rw [hiff]
        simp [hx]
      · exact hmem.imp_right fun ⟨y, hy, hyt⟩ => ⟨y, List.mem_cons_of_mem _ hy, hyt⟩

/-- When the text stored at the end matches: it did at the start, or the first of all to arrive
does, or one that can be judged. -/
def Wins (matched : String → Bool) (was : Option String) (xs : List Arrival) : Prop :=
  (∃ t, was = some t ∧ matched t = true) ∨
  (was = none ∧ ∃ x, xs.head? = some x ∧ matched x.text = true) ∨
  ∃ x ∈ xs, x.known = true ∧ matched x.text = true

/-- The text at the end matches exactly when a matching one could be judged, or was first. -/
theorem keepAll_wins :
    (∃ t, keepAll matched was xs = some t ∧ matched t = true) ↔ Wins matched was xs := by
  -- once there is a text, only a matched one takes its place
  have hsome : ∀ (t : String) (xs : List Arrival),
      (∃ t', keepAll matched (some t) xs = some t' ∧ matched t' = true) ↔
        matched t = true ∨ ∃ x ∈ xs, x.known = true ∧ matched x.text = true := by
    intro t xs
    rcases h : matched t with - | -
    · obtain ⟨t', ht', hiff, -⟩ := keepAll_unmatched xs h
      simp [ht', hiff]
    · simp [keepAll_of_matched h, h]
  -- without a text the first arrival is kept
  rcases was with - | t
  · rcases xs with - | ⟨x, xs⟩
    · simp [Wins, keepAll]
    · rw [keepAll_cons]
      show (∃ t', keepAll matched (some x.text) xs = some t' ∧ matched t' = true) ↔ _
      rw [hsome]
      constructor
      · rintro (h | ⟨y, hy, hmatch⟩)
        · exact Or.inr (Or.inl ⟨rfl, x, rfl, h⟩)
        · exact Or.inr (Or.inr ⟨y, List.mem_cons_of_mem _ hy, hmatch⟩)
      · rintro (⟨t, ht, -⟩ | ⟨-, y, hy, hmatch⟩ | ⟨y, hy, hmatch⟩)
        · cases ht
        · cases hy
          exact Or.inl hmatch
        · rcases List.mem_cons.mp hy with rfl | hy
          · exact Or.inl hmatch.2
          · exact Or.inr ⟨y, hy, hmatch⟩
  · rw [hsome, Wins]
    simp

/-- A matching text at the end was there at the start or arrived. -/
theorem keepAll_mem (h : keepAll matched was xs = some t) :
    was = some t ∨ ∃ x ∈ xs, x.text = t := by
  induction xs generalizing was with
  | nil => exact Or.inl h
  | cons x xs ih =>
    rw [keepAll_cons] at h
    rcases ih h with hkeep | ⟨y, hy, hyt⟩
    · rcases was with - | w
      · exact Or.inr ⟨x, List.mem_cons_self, Option.some.inj hkeep⟩
      · have hkept := Option.some.inj hkeep
        simp only [keepText] at hkept
        split at hkept
        · exact Or.inr ⟨x, List.mem_cons_self, hkept⟩
        · exact Or.inl (congrArg some hkept)
    · exact Or.inr ⟨y, List.mem_cons_of_mem _ hy, hyt⟩

/-- The same texts in another order: when both end matching and only one of them matches, it is
shown in both. -/
theorem keepAll_eq (hperm : (xs.map Arrival.text).Perm (ys.map Arrival.text))
    (hone : ∀ x ∈ xs, ∀ y ∈ xs, matched x.text = true → matched y.text = true → x.text = y.text)
    (hxs : Wins matched was xs) (hys : Wins matched was ys) :
    keepAll matched was xs = keepAll matched was ys := by
  obtain ⟨t, ht, hmt⟩ := keepAll_wins.mpr hxs
  obtain ⟨t', ht', hmt'⟩ := keepAll_wins.mpr hys
  by_cases hwas : ∃ w, was = some w ∧ matched w = true
  · obtain ⟨w, rfl, hw⟩ := hwas
    rw [keepAll_of_matched hw, keepAll_of_matched hw]
  · have hx : ∃ x ∈ xs, x.text = t := (keepAll_mem ht).resolve_left fun h => hwas ⟨t, h, hmt⟩
    obtain ⟨y, hy, hyt⟩ := (keepAll_mem ht').resolve_left fun h => hwas ⟨t', h, hmt'⟩
    obtain ⟨x, hx, hxt⟩ := hx
    have hmem : t' ∈ xs.map Arrival.text :=
      hperm.mem_iff.mpr (List.mem_map.mpr ⟨y, hy, hyt⟩)
    obtain ⟨x', hx', hxt'⟩ := List.mem_map.mp hmem
    have heq := hone x hx x' hx' (by rw [hxt]; exact hmt) (by rw [hxt']; exact hmt')
    rw [ht, ht', ← hxt, ← hxt', heq]

/-! ### The two texts of a use -/

/-- The two texts of a note. -/
inductive NoteKind
  | reason
  | message

namespace NoteKind

/-- The text stored for the use at a seq. -/
def stored (seq : Nat) (m : Mirror) : NoteKind → Option String
  | reason => (m.reasons.get seq).map Reason.text
  | message => m.messages.get seq

/-- The text a note brings. -/
def sent (n : EdgeNote) : NoteKind → Option String
  | reason => n.reason
  | message => n.receiptMsg

/-- Does a text hash to what this copy holds for the use? -/
def judges (L : EdgeLib) (seq : Nat) (m : Mirror) : NoteKind → String → Bool
  | reason, text => match findSeq L seq m.links with
    | some use => intentMatches L use text
    | none => false
  | message, text => L.messageMatches m.links seq text

end NoteKind

variable {kind : NoteKind} {n : EdgeNote}

theorem stored_noteRefusal : kind.stored seq (noteRefusal n now m) = kind.stored seq m := by
  unfold noteRefusal
  split <;> cases kind <;> rfl

theorem links_noteReason {use : Option LinkFields} :
    (noteReason L n now use m).links = m.links := by
  unfold noteReason
  split
  · rfl
  · dsimp only
    split <;> rfl

theorem messages_noteReason {use : Option LinkFields} :
    (noteReason L n now use m).messages = m.messages := by
  unfold noteReason
  split
  · rfl
  · dsimp only
    split <;> rfl

/-- A message leaves the reasons. -/
theorem reasons_noteMessage : (noteMessage L n m).reasons = m.reasons := by
  unfold noteMessage
  split <;> rfl

/-- What a note does to the text of the use it is about. -/
theorem stored_noted (h : noted L n now m = some m') {text : String} (hseq : n.seq = seq)
    (htext : kind.sent n = some text) :
    kind.stored seq m' = some (keepText (kind.stored seq m) text (kind.judges L seq m)) := by
  subst hseq
  obtain ⟨use, huse, rfl⟩ := Option.map_eq_some_iff.mp h
  rw [stored_noteRefusal]
  cases kind with
  | reason =>
    have hjudges : NoteKind.reason.judges L n.seq m = intentMatches L use := by
      funext text
      simp only [NoteKind.judges, huse]
    rw [hjudges]
    simp only [NoteKind.stored, reasons_noteMessage]
    rw [noteReason, show n.reason = some text from htext]
    dsimp only
    split
    · rename_i hchanged
      simp [keepText_eq hchanged]
    · rename_i hsame
      exact (not_not.mp hsame).symm
  | message =>
    have hjudges : NoteKind.message.judges L n.seq m = L.messageMatches m.links n.seq := rfl
    rw [hjudges]
    simp only [NoteKind.stored]
    rw [noteMessage, show n.receiptMsg = some text from htext]
    dsimp only
    rw [links_noteReason, messages_noteReason, Dict.get_set_self]

/-- A note about another use, or without such a text, leaves it. -/
theorem stored_noted_of_other (h : noted L n now m = some m')
    (hother : n.seq ≠ seq ∨ kind.sent n = none) : kind.stored seq m' = kind.stored seq m := by
  obtain ⟨use, huse, rfl⟩ := Option.map_eq_some_iff.mp h
  rw [stored_noteRefusal]
  -- the two kinds are kept under different keys, and each use under its seq
  cases kind with
  | reason =>
    simp only [NoteKind.stored, reasons_noteMessage]
    unfold noteReason
    split
    · rfl
    · rename_i text htext
      have hne : seq ≠ n.seq := fun heq => hother.elim (fun h => h heq.symm) fun hnone => by
        rw [show n.reason = none from hnone] at htext
        cases htext
      dsimp only
      split
      · rw [Dict.get_set_of_ne hne]
      · rfl
  | message =>
    simp only [NoteKind.stored]
    unfold noteMessage
    split
    · rw [messages_noteReason]
    · rename_i text htext
      have hne : seq ≠ n.seq := fun heq => hother.elim (fun h => h heq.symm) fun hnone => by
        rw [show n.receiptMsg = none from hnone] at htext
        cases htext
      rw [Dict.get_set_of_ne hne, messages_noteReason]

/-! ### What a sync does to them -/

/-- The same texts, of the same device. -/
structure SameTexts (m m' : Mirror) : Prop where
  deviceId : m'.deviceId = m.deviceId
  reasons : m'.reasons = m.reasons
  messages : m'.messages = m.messages

/-- The texts stay over two steps. -/
theorem SameTexts.trans {m₁ m₂ m₃ : Mirror} (h : SameTexts m₁ m₂) (h' : SameTexts m₂ m₃) :
    SameTexts m₁ m₃ :=
  ⟨h'.deviceId.trans h.deviceId, h'.reasons.trans h.reasons, h'.messages.trans h.messages⟩

/-- Strays that are set aside leave the texts. -/
theorem setAsideStrays_texts {keySeq : Int} (h : setAsideStrays L m keySeq now = some m') :
    SameTexts m m' := by
  obtain ⟨kept, -, rfl⟩ := Option.map_eq_some_iff.mp h
  exact ⟨rfl, rfl, rfl⟩

theorem takeBatch_texts {head : Head} {rs : List EdgeLinkRecord} {welded : Bool}
    (h : takeBatch L head now m rs = some (m', welded)) : SameTexts m m' := by
  induction rs generalizing m with
  | nil =>
    cases h
    exact ⟨rfl, rfl, rfl⟩
  | cons r rs ih =>
    obtain ⟨s, -, h⟩ := Option.bind_eq_some_iff.mp h
    split at h
    · cases h
      exact ⟨rfl, rfl, rfl⟩
    · obtain ⟨b, -, h⟩ := Option.bind_eq_some_iff.mp h
      split at h
      · have hrest := ih h
        exact ⟨hrest.deviceId, hrest.reasons, hrest.messages⟩
      · split at h
        · cases h
          exact ⟨rfl, rfl, rfl⟩
        · obtain ⟨last, -, h⟩ := Option.bind_eq_some_iff.mp h
          split at h
          · cases h
            exact ⟨rfl, rfl, rfl⟩
          · exact ih h

theorem returns_orThrow {α : Type} {x : Option α} {a : α} :
    (Async.orThrow x).Returns a ↔ x = some a := by
  cases x with
  | none => simp [Async.orThrow, Task.Returns]
  | some b => simp [Async.orThrow, Task.Returns]

theorem readLinks_texts {head : Head} {rounds : Nat} {next : Int}
    (h : (readLinks L head now rounds m next).Returns m') : SameTexts m m' := by
  induction rounds generalizing m next with
  | zero => exact h.elim
  | succ rounds ih =>
    unfold readLinks at h
    split at h
    · cases h
      exact ⟨rfl, rfl, rfl⟩
    · obtain ⟨got, -, h⟩ := returns_bind.mp h
      split at h
      · cases h
        exact ⟨rfl, rfl, rfl⟩
      · obtain ⟨⟨m₁, welded⟩, hbatch, h⟩ := returns_bind.mp h
        have hfirst := takeBatch_texts (returns_orThrow.mp hbatch)
        dsimp only at h
        split at h
        · cases h
          exact hfirst
        · obtain ⟨s, -, h⟩ := returns_bind.mp h
          exact hfirst.trans (ih h)

/-- The first half of a sync leaves them. -/
theorem syncLinks_texts {rounds : Nat} {head : Head}
    (h : (syncLinks L now rounds m).Returns (m', head)) : SameTexts m m' := by
  obtain ⟨head', -, h⟩ := returns_bind.mp h
  obtain ⟨m₁, hstrays, h⟩ := returns_bind.mp h
  obtain ⟨held, -, h⟩ := returns_bind.mp h
  obtain ⟨m₂, hread, h⟩ := returns_bind.mp h
  cases h
  exact (setAsideStrays_texts (returns_orThrow.mp hstrays)).trans (readLinks_texts hread)

theorem keepKeys_texts (key : Option EdgeCopyKey) : SameTexts m (Mirror.keepKeys key m) := by
  unfold Mirror.keepKeys
  split <;> exact ⟨rfl, rfl, rfl⟩

theorem saw_texts (head : Head) (view : EdgeView) : SameTexts m (Mirror.saw head view m) := by
  unfold Mirror.saw
  split <;> exact ⟨rfl, rfl, rfl⟩

theorem takeSeal_texts (head : Head) (cp : Checkpoint) (live : List Nat) :
    SameTexts m (takeSeal L m head cp live) := by
  unfold takeSeal
  split <;> exact ⟨rfl, rfl, rfl⟩

theorem sealAfter_texts (head : Head) (key : Option EdgeCopyKey) (live : Option (List Nat))
    (view : EdgeView) (basis : Basis) (s : Session) :
    SameTexts m (sealAfter L m head key live view basis s).1 := by
  unfold sealAfter
  split
  · split
    · split
      · exact takeSeal_texts _ _ _
      · exact ⟨rfl, rfl, rfl⟩
    · exact ⟨rfl, rfl, rfl⟩
  · exact ⟨rfl, rfl, rfl⟩

theorem checkAndSeal_texts {source : Source} {head : Head} {key : Option EdgeCopyKey}
    {live : Option (List Nat)} {view : EdgeView}
    (h : (checkAndSeal L source m head key live).Returns (m', view)) : SameTexts m m' := by
  obtain ⟨⟨view', basis⟩, -, h⟩ := returns_bind.mp h
  obtain ⟨m₁, ⟨s, hseal⟩, h⟩ := returns_bind.mp h
  cases h
  rw [← show _ = m' from hseal]
  exact (saw_texts head view).trans (sealAfter_texts head key live view basis s)

theorem syncCheck_texts {source : Source} {head : Head} {view : EdgeView}
    (h : (syncCheck L source now m head).Returns (m', view)) : SameTexts m m' := by
  obtain ⟨live, -, h⟩ := returns_bind.mp h
  obtain ⟨key, -, h⟩ := returns_bind.mp h
  obtain ⟨continued, -, h⟩ := returns_bind.mp h
  have hlast := checkAndSeal_texts h
  have hkeys := keepKeys_texts (m := m) key
  exact ⟨hlast.deviceId.trans hkeys.deviceId, hlast.reasons.trans hkeys.reasons,
    hlast.messages.trans hkeys.messages⟩

/-- What a sync makes of a copy, when the key gives these messages. -/
def SyncStep (L : EdgeLib) (m : Mirror) (messages : Dict String) (m' : Mirror) : Prop :=
  ∃ (source : Source) (now rounds : Nat) (m₁ : Mirror) (head : Head) (view : EdgeView),
    (syncLinks L now rounds m).Returns (m₁, head) ∧
    (syncCheck L source now { m₁ with messages := Dict.spread m₁.messages messages } head).Returns
      (m', view)

/-- So a sync changes a text only where the key has one. -/
theorem stored_syncStep {messages : Dict String} (h : SyncStep L m messages m')
    (hnone : kind = .message → messages.get seq = none) :
    kind.stored seq m' = kind.stored seq m := by
  obtain ⟨_, _, _, m₁, _, _, hlinks, hcheck⟩ := h
  have hfirst := syncLinks_texts hlinks
  have hsecond := syncCheck_texts hcheck
  cases kind with
  | reason => rw [NoteKind.stored, NoteKind.stored, hsecond.reasons, hfirst.reasons]
  | message =>
    rw [NoteKind.stored, NoteKind.stored, hsecond.messages, Dict.get_spread_of_none (hnone rfl),
      hfirst.messages]

/-- A sync that returns made such a step from the copy it loaded. -/
theorem syncNow_step {source : Source} {rounds : Nat} {view : EdgeView}
    (h : (syncNow L source now rounds).Returns (m', view)) :
    ∃ m messages, (loadMirror source.deviceId).Returns m ∧ SyncStep L m messages m' := by
  obtain ⟨m, hload, h⟩ := returns_bind.mp h
  obtain ⟨⟨m₁, head⟩, hlinks, h⟩ := returns_bind.mp h
  obtain ⟨messages, -, h⟩ := returns_bind.mp h
  obtain ⟨⟨m₂, view'⟩, hcheck, h⟩ := returns_bind.mp h
  obtain ⟨-, -, h⟩ := returns_bind.mp h
  cases h
  exact ⟨m, messages, hload, source, now, rounds, m₁, head, view, hlinks, hcheck⟩

/-- A note that is taken made such a step from the copy it loaded. -/
theorem addNote_step {id : Blob} (h : (addNote L id n now).Returns ()) :
    ∃ m m', (loadMirror id).Returns m ∧ noted L n now m = some m' ∧ (saveMirror m').Returns () := by
  obtain ⟨m, hload, h⟩ := returns_bind.mp h
  obtain ⟨m', hnoted, h⟩ := returns_bind.mp h
  exact ⟨m, m', hload, returns_orThrow.mp hnoted, h⟩

/-! ### Runs of notes and syncs -/

/-- Notes and syncs on one copy, in any order, and what they bring for the use at `seq`.  `matched`
is what its link or receipt says of a text: the copy judges by it once it holds that link or
receipt, and by nothing before.  A copy that is read back has new objects for the same links. -/
inductive NoteRun (L : EdgeLib) (kind : NoteKind) (seq : Nat) (matched : String → Bool)
    (m : Mirror) : List Arrival → Mirror → Prop
  | start : NoteRun L kind seq matched m [] m
  | note {xs : List Arrival} {m₁ m₂ : Mirror} (n : EdgeNote) (now : Nat) (x : Arrival)
      (run : NoteRun L kind seq matched m xs m₁) (taken : noted L n now m₁ = some m₂)
      (about : n.seq = seq) (text : kind.sent n = some x.text)
      (judged : kind.judges L seq m₁ = fun t => x.known && matched t) :
      NoteRun L kind seq matched m (xs ++ [x]) m₂
  | otherNote {xs : List Arrival} {m₁ m₂ : Mirror} (n : EdgeNote) (now : Nat)
      (run : NoteRun L kind seq matched m xs m₁) (taken : noted L n now m₁ = some m₂)
      (other : n.seq ≠ seq ∨ kind.sent n = none) : NoteRun L kind seq matched m xs m₂
  | sync {xs : List Arrival} {m₁ m₂ : Mirror} (messages : Dict String)
      (run : NoteRun L kind seq matched m xs m₁) (step : SyncStep L m₁ messages m₂)
      (silent : kind = .message → messages.get seq = none) : NoteRun L kind seq matched m xs m₂
  | readBack {xs : List Arrival} {m₁ : Mirror} (links : List EdgeLinkRecord)
      (run : NoteRun L kind seq matched m xs m₁)
      (same : links.map EdgeLinkRecord.toRawLink = m₁.links.map EdgeLinkRecord.toRawLink) :
      NoteRun L kind seq matched m xs { m₁ with links := links }

/-- A copy without the use's link judges by nothing; with it, by its intent. -/
theorem judges_reason {use : Option LinkFields} {f : LinkFields}
    (h : findSeq L seq m.links = some use) (huse : use = none ∨ use = some f) :
    NoteKind.reason.judges L seq m = fun t => use.isSome && intentMatches L (some f) t := by
  funext text
  simp only [NoteKind.judges, h]
  rcases huse with rfl | rfl
  · rfl
  · simp

/-- What is stored at the end is the fold of what arrived. -/
theorem NoteRun.stored (run : NoteRun L kind seq matched m xs m') :
    kind.stored seq m' = keepAll matched (kind.stored seq m) xs := by
  induction run with
  | start => rfl
  | note n now x run taken about text judged ih =>
    rw [stored_noted taken about text, judged, ih, keepAll_concat]
  | otherNote n now run taken other ih => rw [stored_noted_of_other taken other, ih]
  | sync messages run step silent ih => rw [stored_syncStep step silent, ih]
  | readBack links run same ih => rw [← ih]; cases kind <;> rfl

/-- A matching text stays, whatever comes.  The text stored at the end matches exactly when it did
at the start, or the first to arrive does, or one does that arrives when it can be judged; two
orders that both have this of the same texts end with the same one. -/
theorem matching_note_stays (run : NoteRun L kind seq matched m xs m') :
    (∀ t, kind.stored seq m = some t → matched t = true → kind.stored seq m' = some t) ∧
    ((∃ t, kind.stored seq m' = some t ∧ matched t = true) ↔
      Wins matched (kind.stored seq m) xs) ∧
    ∀ ys m'', NoteRun L kind seq matched m ys m'' →
      (xs.map Arrival.text).Perm (ys.map Arrival.text) →
      (∀ x ∈ xs, ∀ y ∈ xs, matched x.text = true → matched y.text = true → x.text = y.text) →
      Wins matched (kind.stored seq m) xs → Wins matched (kind.stored seq m) ys →
        kind.stored seq m' = kind.stored seq m'' := by
  refine ⟨fun t ht hmatch => ?_, ?_, fun ys m'' run' hperm hone hxs hys => ?_⟩
  · rw [run.stored, ht]
    exact keepAll_of_matched hmatch
  · rw [run.stored]
    exact keepAll_wins
  · rw [run.stored, run'.stored]
    exact keepAll_eq hperm hone hxs hys

namespace Demo

/-- A use whose intent is the hash of a text of four letters. -/
def intentLink : RawLink :=
  ⟨[0, Edge.opSign, 7, 4], weld [] [0, Edge.opSign, 7, 4], none⟩

/-- A note of a use's reason. -/
def noteOf (computer text : String) : EdgeNote := ⟨computer, 0, some text, none, none⟩

/-- A note that is taken alone. -/
def notedBy (computer text : String) (answers : List Answer) (s : Session) : Session :=
  (addNote lib [1] (noteOf computer text) 3).solo answers s

/-- The key's checkpoint over it. -/
def intentCheckpoint : Checkpoint :=
  ⟨0, intentLink.head, signature intentLink.head, some (signaturePq intentLink.head)⟩

/-- A sync that reads the use. -/
def usedSync (s : Session) : Session :=
  synced 5 [.head ⟨0, intentLink.head, 0⟩, .links [intentLink], .messages [], .budgets [7],
    .key (keyOf [1] (some intentCheckpoint)), .ok, .ok, .links [intentLink], .ok, .ok] s

/-- Both notes before the sync, the matching one last. -/
def matchingLast : Session :=
  usedSync (notedBy "b" "good" [.ok, .ok] (notedBy "a" "no" [.ok, .ok, .ok]
    (Session.start fun _ => none)))

/-- The same notes, the matching one first. -/
def matchingFirst : Session :=
  usedSync (notedBy "a" "no" [.ok, .ok] (notedBy "b" "good" [.ok, .ok, .ok]
    (Session.start fun _ => none)))

/-- The reason stored for the use, and the stored links. -/
def storedUse (s : Session) : Option (Option String × List RawLink) :=
  match s.storage [1] with
  | some (.json m) => some ((m.reasons.get 0).map Reason.text, m.links)
  | _ => none

theorem inSession_notedBy {w : Pool Answer Session} (h : InSession lib w) (computer text : String)
    (answers : List Answer) :
    ∃ v, InSession lib v ∧ v.shared = notedBy computer text answers w.shared :=
  h.solo (.addNote _ _ _) answers

/-- The matching text came last, and too late to be judged. -/
theorem storedUse_matchingLast : storedUse matchingLast = some (some "no", [intentLink]) := by
  decide +kernel

theorem storedUse_matchingFirst : storedUse matchingFirst = some (some "good", [intentLink]) := by
  decide +kernel

/-- A copy that holds the use, and what it says. -/
def useCopy : Mirror := { (emptyMirror [1] : Mirror) with links := [⟨intentLink, 0⟩] }

/-- The use's link. -/
def useFields : LinkFields := ⟨0, Edge.opSign, true, 7, some [4]⟩

/-- The copy after a note about the use. -/
def noteTaken (text : String) (m : Mirror) : Mirror :=
  (noted lib (noteOf "a" text) 3 m).getD m

/-- Both texts came when the link was there. -/
theorem judgedRun : NoteRun lib .reason 0 (intentMatches lib (some useFields)) useCopy
    [⟨"no", true⟩, ⟨"good", true⟩] (noteTaken "good" (noteTaken "no" useCopy)) := by
  have hfirst : findSeq lib 0 useCopy.links = some (some useFields) := by decide
  have hsecond : findSeq lib 0 (noteTaken "no" useCopy).links = some (some useFields) := by decide
  have hrun := NoteRun.note (noteOf "a" "no") 3 ⟨"no", true⟩ NoteRun.start
    (show noted lib (noteOf "a" "no") 3 useCopy = some (noteTaken "no" useCopy) by decide) rfl rfl
    (judges_reason hfirst (Or.inr rfl))
  exact NoteRun.note (noteOf "a" "good") 3 ⟨"good", true⟩ hrun
    (show noted lib (noteOf "a" "good") 3 (noteTaken "no" useCopy) =
      some (noteTaken "good" (noteTaken "no" useCopy)) by decide) rfl rfl
    (judges_reason hsecond (Or.inr rfl))

end Demo

theorem matching_note_stays_judged : ∃ t,
    NoteKind.reason.stored 0 (Demo.noteTaken "good" (Demo.noteTaken "no" Demo.useCopy)) = some t ∧
      intentMatches Demo.lib (some Demo.useFields) t = true :=
  (matching_note_stays Demo.judgedRun).2.1.mpr
    (Or.inr (Or.inr ⟨⟨"good", true⟩, by simp, rfl, by decide⟩))

/-- The same two notes in the other order before the sync end with another text, which does not
hash to the intent the copy holds, though one that does was received. -/
theorem early_note_stays :
    ∃ w w', InSession Demo.lib w ∧ InSession Demo.lib w' ∧
      w.shared = Demo.matchingLast ∧ w'.shared = Demo.matchingFirst ∧
      Demo.storedUse w.shared = some (some "no", [Demo.intentLink]) ∧
      Demo.storedUse w'.shared = some (some "good", [Demo.intentLink]) ∧
      (Demo.decode Demo.intentLink.link).bind LinkFields.intent = some (Demo.lib.intentOf "good") ∧
      Demo.lib.intentOf "no" ≠ Demo.lib.intentOf "good" := by
  obtain ⟨w₁, h₁, hw₁⟩ := Demo.inSession_notedBy (inSession_start fun _ => none) "a" "no"
    [.ok, .ok, .ok]
  obtain ⟨w₂, h₂, hw₂⟩ := Demo.inSession_notedBy h₁ "b" "good" [.ok, .ok]
  obtain ⟨w, h, hw⟩ := Demo.inSession_synced h₂ 5 _
  obtain ⟨v₁, k₁, hv₁⟩ := Demo.inSession_notedBy (inSession_start fun _ => none) "b" "good"
    [.ok, .ok, .ok]
  obtain ⟨v₂, k₂, hv₂⟩ := Demo.inSession_notedBy k₁ "a" "no" [.ok, .ok]
  obtain ⟨w', h', hw'⟩ := Demo.inSession_synced k₂ 5 _
  have hlast : w.shared = Demo.matchingLast := by rw [hw, hw₂, hw₁]; rfl
  have hfirst : w'.shared = Demo.matchingFirst := by rw [hw', hv₂, hv₁]; rfl
  refine ⟨w, w', h, h', hlast, hfirst, ?_, ?_, by decide, by decide⟩
  · rw [hlast]
    exact Demo.storedUse_matchingLast
  · rw [hfirst]
    exact Demo.storedUse_matchingFirst

end OkRn.Store
