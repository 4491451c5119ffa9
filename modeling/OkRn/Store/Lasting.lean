/-
OkRn/Store/Lasting.lean

What a copy has, the copies made of it still have: `Lasts`.

Only an edit of testing mode takes anything away.  The other writers set strays
aside, keep the newest 50 refusals, and keep the ML-DSA half of the newest seal
and merge point only.  Together with the queue, what a completed call stored is
in the stored copy when the calls after it have ended.

* `Has` says that the stored copy has what another had, and `effects_has` carries it over
  the writers of a queue;
* `mergeWork_lasts` asks that a merge keeps the links (`EdgeLib.MergeKeeps`).

Main results: `no_update_is_lost`, and `first_refusal_goes`.
-/
import OkRn.Store.Queue

namespace OkRn

variable {α : Type} {n : Nat} {d d' : Dict α}

theorem Dict.isSome_set (m : Nat) (a : α) (h : (d.get n).isSome) : ((d.set m a).get n).isSome := by
  by_cases heq : n = m
  · rw [heq, Dict.get_set_self]
    rfl
  · rw [Dict.get_set_of_ne heq]
    exact h

theorem Dict.isSome_spread (h : (d.get n).isSome) : ((d.spread d').get n).isSome := by
  induction d' generalizing d with
  | nil => exact h
  | cons x d' ih => exact ih (Dict.isSome_set x.1 x.2 h)

end OkRn

namespace OkRn.Store

open OkRn.Task

variable {L : EdgeLib} {id : Blob} {m m' : Mirror} {now : Nat}

/-- A merge without a conflict keeps the links it is given; it may add their reveals. -/
def EdgeLib.MergeKeeps (L : EdgeLib) : Prop :=
  ∀ links offered, (L.merge links offered).conflicts = [] → ∀ r ∈ links,
    ∃ r' ∈ (L.merge links offered).links, r'.link = r.link ∧ r'.head = r.head

/-! ### What lasts -/

/-- What the first copy has is in the second. -/
structure Lasts (m m' : StoredMirror) : Prop where
  links : ∀ r ∈ m.links, (∃ r' ∈ m'.links, r'.link = r.link ∧ r'.head = r.head) ∨
    ∃ x ∈ m'.setAside, x.link = r.link ∧ x.head = r.head
  setAside : ∀ x ∈ m.setAside, x ∈ m'.setAside
  messages : ∀ seq, (m.messages.get seq).isSome → (m'.messages.get seq).isSome
  reasons : ∀ seq, (m.reasons.get seq).isSome → (m'.reasons.get seq).isSome
  seen : ∀ seq, (m.seen.get seq).isSome → (m'.seen.get seq).isSome
  /-- Only the oldest go, and at least 50 stay. -/
  refusals : ∃ gone new, m'.refusals = (m.refusals ++ new).drop gone ∧
    (0 < gone → 50 ≤ m'.refusals.length)
  merged : ∀ p ∈ m.merged, ∃ p' ∈ m'.merged, p'.dropPq = p.dropPq
  seals : ∀ x ∈ m.seals, ∃ x' ∈ m'.seals, x'.dropPq = x.dropPq

theorem Lasts.refl (m : StoredMirror) : Lasts m m where
  links r hr := Or.inl ⟨r, hr, rfl, rfl⟩
  setAside _ h := h
  messages _ h := h
  reasons _ h := h
  seen _ h := h
  refusals := ⟨0, [], by simp, fun h => absurd h (by simp)⟩
  merged p hp := ⟨p, hp, rfl⟩
  seals x hx := ⟨x, hx, rfl⟩

/-- The newest refusals of the newest. -/
theorem refusals_trans {a b c : List Refusal}
    (h : ∃ gone new, b = (a ++ new).drop gone ∧ (0 < gone → 50 ≤ b.length))
    (h' : ∃ gone new, c = (b ++ new).drop gone ∧ (0 < gone → 50 ≤ c.length)) :
    ∃ gone new, c = (a ++ new).drop gone ∧ (0 < gone → 50 ≤ c.length) := by
  obtain ⟨g, new, rfl, hg⟩ := h
  obtain ⟨g', new', rfl, hg'⟩ := h'
  have hle : g ≤ (a ++ new).length := by
    rcases Nat.eq_zero_or_pos g with rfl | hpos
    · exact Nat.zero_le _
    · have hlen := hg hpos
      rw [List.length_drop] at hlen
      omega
  refine ⟨g + g', new ++ new', ?_, fun hpos => ?_⟩
  · rw [← List.drop_append_of_le_length hle, List.drop_drop, List.append_assoc]
  · rcases Nat.eq_zero_or_pos g' with rfl | hpos'
    · have hlen := hg (by omega)
      simp only [List.drop_zero, List.length_append] at hlen ⊢
      omega
    · exact hg' hpos'

theorem Lasts.trans {m₁ m₂ m₃ : StoredMirror} (h : Lasts m₁ m₂) (h' : Lasts m₂ m₃) :
    Lasts m₁ m₃ where
  links r hr := by
    rcases h.links r hr with ⟨r₂, hr₂, hlink, hhead⟩ | ⟨x, hx, hlink, hhead⟩
    · rcases h'.links r₂ hr₂ with ⟨r₃, hr₃, hlink', hhead'⟩ | ⟨x, hx, hlink', hhead'⟩
      · exact Or.inl ⟨r₃, hr₃, hlink'.trans hlink, hhead'.trans hhead⟩
      · exact Or.inr ⟨x, hx, hlink'.trans hlink, hhead'.trans hhead⟩
    · exact Or.inr ⟨x, h'.setAside x hx, hlink, hhead⟩
  setAside x hx := h'.setAside x (h.setAside x hx)
  messages seq hs := h'.messages seq (h.messages seq hs)
  reasons seq hs := h'.reasons seq (h.reasons seq hs)
  seen seq hs := h'.seen seq (h.seen seq hs)
  refusals := refusals_trans h.refusals h'.refusals
  merged p hp := by
    obtain ⟨p₂, hp₂, heq⟩ := h.merged p hp
    obtain ⟨p₃, hp₃, heq'⟩ := h'.merged p₂ hp₂
    exact ⟨p₃, hp₃, heq'.trans heq⟩
  seals x hx := by
    obtain ⟨x₂, hx₂, heq⟩ := h.seals x hx
    obtain ⟨x₃, hx₃, heq'⟩ := h'.seals x₂ hx₂
    exact ⟨x₃, hx₃, heq'.trans heq⟩

/-- A copy in memory lasts in another. -/
abbrev LastsIn (m m' : Mirror) : Prop := Lasts (storedForm m) (storedForm m')

theorem LastsIn.refl (m : Mirror) : LastsIn m m := Lasts.refl _

/-- Links that stay, in memory. -/
theorem links_stored
    (h : ∀ r ∈ m.links, (∃ r' ∈ m'.links, r'.link = r.link ∧ r'.head = r.head) ∨
      ∃ x ∈ m'.setAside, x.link = r.link ∧ x.head = r.head) :
    ∀ r ∈ (storedForm m).links,
      (∃ r' ∈ (storedForm m').links, r'.link = r.link ∧ r'.head = r.head) ∨
        ∃ x ∈ (storedForm m').setAside, x.link = r.link ∧ x.head = r.head := by
  intro r hr
  obtain ⟨r₀, hr₀, rfl⟩ := List.mem_map.mp hr
  rcases h r₀ hr₀ with ⟨r', hr', heq⟩ | hx
  · exact Or.inl ⟨r'.toRawLink, List.mem_map.mpr ⟨r', hr', rfl⟩, heq⟩
  · exact Or.inr hx

/-- Every anchor is there, but for the half that only the newest keeps. -/
theorem mem_oneAnchor {α : Type} (f : α → α) (hf : ∀ x, f (f x) = f x) {x : α} {xs : List α}
    (h : x ∈ xs) : ∃ y ∈ oneAnchor f xs, f y = f x := by
  induction xs with
  | nil => cases h
  | cons a xs ih =>
    cases xs with
    | nil => exact ⟨x, h, rfl⟩
    | cons b xs =>
      rcases List.mem_cons.mp h with rfl | h
      · exact ⟨f x, List.mem_cons_self, hf x⟩
      · obtain ⟨y, hy, heq⟩ := ih h
        exact ⟨y, List.mem_cons_of_mem _ hy, heq⟩

theorem isSome_markSeen {seen : Dict Nat} {seq : Nat} (seq' : Nat) (h : (seen.get seq).isSome) :
    ((markSeen now seen seq').get seq).isSome := Dict.isSome_set _ _ h

theorem isSome_markAll {seen : Dict Nat} {seq : Nat} (seqs : List Nat)
    (h : (seen.get seq).isSome) : ((seqs.foldl (markSeen now) seen).get seq).isSome := by
  induction seqs generalizing seen with
  | nil => exact h
  | cons seq' seqs ih => exact ih (isSome_markSeen seq' h)

/-! ### A sync -/

theorem strays_suffix {keySeq verified : Int} {links kept : List EdgeLinkRecord}
    (h : strays L keySeq verified links = some kept) : ∃ popped, links = popped ++ kept := by
  induction links with
  | nil =>
    cases h
    exact ⟨[], rfl⟩
  | cons r rest ih =>
    cases rest with
    | nil =>
      simp only [strays] at h
      split_ifs at h <;> cases h
      · exact ⟨[], rfl⟩
      · exact ⟨[r], by simp⟩
    | cons prev rest =>
      rw [strays] at h
      split_ifs at h
      · cases h
        exact ⟨[], rfl⟩
      · obtain ⟨p, -, h⟩ := Option.bind_eq_some_iff.mp h
        obtain ⟨b, -, h⟩ := Option.bind_eq_some_iff.mp h
        split at h
        · cases h
          exact ⟨[], rfl⟩
        · obtain ⟨popped, heq⟩ := ih h
          exact ⟨r :: popped, by rw [heq, List.cons_append]⟩

/-- Nothing is lost when strays are set aside. -/
theorem setAsideStrays_lasts {keySeq : Int} (h : setAsideStrays L m keySeq now = some m') :
    LastsIn m m' := by
  obtain ⟨kept, hkept, rfl⟩ := Option.map_eq_some_iff.mp h
  obtain ⟨popped, hpopped⟩ := strays_suffix hkept
  have htake : m.links.reverse.take (m.links.length - kept.length) = popped := by
    have hlen := congrArg List.length hpopped
    rw [List.length_reverse, List.length_append] at hlen
    rw [hpopped, show m.links.length - kept.length = popped.length by omega, List.take_left]
  refine { Lasts.refl (storedForm m) with
    links := links_stored fun r hr => ?_
    setAside := fun x hx => List.mem_append_left _ hx }
  have hmem : r ∈ popped ++ kept := hpopped ▸ List.mem_reverse.mpr hr
  rcases List.mem_append.mp hmem with hr | hr
  · refine Or.inr ⟨⟨r.link, r.head, now⟩, List.mem_append_right _ ?_, rfl, rfl⟩
    rw [htake]
    exact List.mem_map.mpr ⟨r, hr, rfl⟩
  · exact Or.inl ⟨r, List.mem_reverse.mpr hr, rfl, rfl⟩

/-- One more link, and its seen time. -/
theorem push_lasts (r : EdgeLinkRecord) (seq : Nat) :
    LastsIn m { m with links := m.links ++ [r], seen := markSeen now m.seen seq } :=
  { Lasts.refl (storedForm m) with
    links := links_stored fun r' hr' => Or.inl ⟨r', List.mem_append_left _ hr', rfl, rfl⟩
    seen := fun _ h => isSome_markSeen seq h }

theorem takeBatch_lasts {head : Head} {rs : List EdgeLinkRecord} {welded : Bool}
    (h : takeBatch L head now m rs = some (m', welded)) : LastsIn m m' := by
  induction rs generalizing m with
  | nil =>
    cases h
    exact .refl _
  | cons r rs ih =>
    obtain ⟨s, -, h⟩ := Option.bind_eq_some_iff.mp h
    split at h
    · cases h
      exact .refl _
    · obtain ⟨b, -, h⟩ := Option.bind_eq_some_iff.mp h
      split at h
      · exact (push_lasts r s).trans (ih h)
      · split at h
        · cases h
          exact .refl _
        · obtain ⟨last, -, h⟩ := Option.bind_eq_some_iff.mp h
          split at h
          · cases h
            exact .refl _
          · exact ih h

theorem readLinks_lasts {head : Head} {rounds : Nat} {next : Int}
    (h : (readLinks L head now rounds m next).Returns m') : LastsIn m m' := by
  induction rounds generalizing m next with
  | zero => exact h.elim
  | succ rounds ih =>
    unfold readLinks at h
    split at h
    · cases h
      exact .refl _
    · obtain ⟨got, -, h⟩ := returns_bind.mp h
      split at h
      · cases h
        exact .refl _
      · obtain ⟨⟨m₁, welded⟩, hbatch, h⟩ := returns_bind.mp h
        have hfirst := takeBatch_lasts (returns_orThrow.mp hbatch)
        dsimp only at h
        split at h
        · cases h
          exact hfirst
        · obtain ⟨s, -, h⟩ := returns_bind.mp h
          exact hfirst.trans (ih h)

theorem syncLinks_lasts {rounds : Nat} {head : Head}
    (h : (syncLinks L now rounds m).Returns (m', head)) : LastsIn m m' := by
  obtain ⟨head', -, h⟩ := returns_bind.mp h
  obtain ⟨m₁, hstrays, h⟩ := returns_bind.mp h
  obtain ⟨held, -, h⟩ := returns_bind.mp h
  obtain ⟨m₂, hread, h⟩ := returns_bind.mp h
  cases h
  exact (setAsideStrays_lasts (returns_orThrow.mp hstrays)).trans (readLinks_lasts hread)

theorem keepKeys_lasts (key : Option EdgeCopyKey) : LastsIn m (Mirror.keepKeys key m) := by
  unfold Mirror.keepKeys
  split
  · exact { Lasts.refl (storedForm m) with }
  · exact .refl m

theorem saw_lasts (head : Head) (view : EdgeView) : LastsIn m (Mirror.saw head view m) := by
  unfold Mirror.saw
  split
  · exact { Lasts.refl (storedForm m) with }
  · exact .refl m

theorem takeSeal_lasts (head : Head) (cp : Checkpoint) (live : List Nat) :
    LastsIn m (takeSeal L m head cp live) := by
  unfold takeSeal
  split
  · exact { Lasts.refl (storedForm m) with
      seals := fun x hx => mem_oneAnchor Seal.dropPq (fun _ => rfl) (List.mem_append_left _ hx) }
  · exact .refl m

theorem sealAfter_lasts (head : Head) (key : Option EdgeCopyKey) (live : Option (List Nat))
    (view : EdgeView) (basis : Basis) (s : Session) :
    LastsIn m (sealAfter L m head key live view basis s).1 := by
  unfold sealAfter
  split
  · split
    · split
      · exact takeSeal_lasts _ _ _
      · exact .refl m
    · exact .refl m
  · exact .refl m

theorem syncCheck_lasts {source : Source} {head : Head} {view : EdgeView}
    (h : (syncCheck L source now m head).Returns (m', view)) : LastsIn m m' := by
  obtain ⟨live, -, h⟩ := returns_bind.mp h
  obtain ⟨key, -, h⟩ := returns_bind.mp h
  obtain ⟨continued, -, h⟩ := returns_bind.mp h
  obtain ⟨⟨view', basis⟩, -, h⟩ := returns_bind.mp h
  obtain ⟨m₁, ⟨s, hseal⟩, h⟩ := returns_bind.mp h
  cases h
  rw [← show _ = m' from hseal]
  have hchecked : LastsIn (Mirror.keepKeys key m)
      { Mirror.keepKeys key m with continued := continued, lastSync := some now } :=
    { Lasts.refl (storedForm (Mirror.keepKeys key m)) with }
  exact (keepKeys_lasts key).trans (hchecked.trans
    ((saw_lasts head view).trans (sealAfter_lasts head key live view basis s)))

theorem syncWork_lasts {source : Source} {rounds : Nat} {x : Mirror × EdgeView}
    (h : (syncWork L source now rounds m).Returns x) : LastsIn m x.1 := by
  obtain ⟨⟨m₁, head⟩, hlinks, h⟩ := returns_bind.mp h
  obtain ⟨messages, -, h⟩ := returns_bind.mp h
  have hmessages : LastsIn m₁ { m₁ with messages := Dict.spread m₁.messages messages } :=
    { Lasts.refl (storedForm m₁) with messages := fun _ h => Dict.isSome_spread h }
  exact (syncLinks_lasts hlinks).trans (hmessages.trans (syncCheck_lasts h))

/-! ### The other writers -/

theorem noted_lasts {n : EdgeNote} (h : noted L n now m = some m') : LastsIn m m' := by
  obtain ⟨use, -, rfl⟩ := Option.map_eq_some_iff.mp h
  have hreason : LastsIn m (noteReason L n now use m) := by
    unfold noteReason
    split
    · exact .refl m
    · dsimp only
      split
      · exact { Lasts.refl (storedForm m) with reasons := fun _ h => Dict.isSome_set _ _ h }
      · exact .refl m
  have hmessage : ∀ m, LastsIn m (noteMessage L n m) := by
    intro m
    unfold noteMessage
    split
    · exact .refl m
    · exact { Lasts.refl (storedForm m) with messages := fun _ h => Dict.isSome_set _ _ h }
  have hrefusal : ∀ m, LastsIn m (noteRefusal n now m) := by
    intro m
    unfold noteRefusal
    split
    · exact .refl m
    · refine { Lasts.refl (storedForm m) with refusals := ⟨_, _, rfl, fun hpos => ?_⟩ }
      show 50 ≤ (List.drop _ _).length
      rw [List.length_drop]
      omega
  exact hreason.trans ((hmessage _).trans (hrefusal _))

theorem mergeWork_lasts (hlib : L.MergeKeeps) {added : List EdgeLinkRecord}
    (h : (mergeWork L added now m).Returns m') : LastsIn m m' := by
  unfold mergeWork at h
  dsimp only at h
  split at h
  · exact h.elim
  · rename_i hnone
    have hconflicts : (L.merge m.links added).conflicts = [] := by simpa using hnone
    obtain ⟨seqs, -, rfl⟩ := Option.map_eq_some_iff.mp (returns_orThrow.mp h)
    exact { Lasts.refl (storedForm m) with
      links := links_stored fun r hr => Or.inl (hlib _ _ hconflicts r hr)
      seen := fun _ h => isSome_markAll seqs h }

/-- What a writer makes of a copy has what the copy has. -/
theorem Writes.lasts (hlib : L.MergeKeeps) {c : Async Unit} {work : Mirror → Async Mirror}
    (h : Writes L id c work) (hreturns : (work m).Returns m') : LastsIn m m' := by
  cases h with
  | sync source hsource now rounds =>
    obtain ⟨x, hx, h⟩ := returns_bind.mp hreturns
    cases h
    exact syncWork_lasts hx
  | addNote n now => exact noted_lasts (returns_orThrow.mp hreturns)
  | keepOffered added now => exact mergeWork_lasts hlib hreturns
  | keepMerged publicKey publicKeyPq added point now =>
    obtain ⟨m₁, hm₁, h⟩ := returns_bind.mp hreturns
    cases h
    have hpoint : LastsIn m₁ { m₁ with
        publicKey := some publicKey
        publicKeyPq := some publicKeyPq
        merged := oneAnchor MergePoint.dropPq (m₁.merged ++ [point])
        lastSync := some now } :=
      { Lasts.refl (storedForm m₁) with
        merged := fun p hp =>
          mem_oneAnchor MergePoint.dropPq (fun _ => rfl) (List.mem_append_left _ hp) }
    exact (mergeWork_lasts hlib hm₁).trans hpoint
  | keepSeen seen =>
    cases hreturns
    exact { Lasts.refl (storedForm m) with seen := fun _ h => Dict.isSome_spread h }

/-! ### A queue of writers -/

/-- There is one copy the next call finds. -/
theorem CopyNow.unique {s : Session} {x y : StoredMirror} (hx : CopyNow id s x)
    (hy : CopyNow id s y) : x = y := by
  rcases hx with ⟨a, ha, rfl⟩ | ⟨hnone, -, hx⟩
  · rcases hy with ⟨b, hb, rfl⟩ | ⟨hnone, -⟩
    · rw [ha] at hb
      rw [Option.some.inj hb]
    · rw [ha] at hnone
      cases hnone
  · rcases hy with ⟨b, hb, rfl⟩ | ⟨-, -, hy⟩
    · rw [hb] at hnone
      cases hnone
    · rcases hx with ⟨htext, rfl⟩ | htext | ⟨tag, htext⟩ <;>
        rcases hy with ⟨htext', rfl⟩ | htext' | ⟨tag', htext'⟩ <;>
          simp_all

/-- What is stored, and the copy the next call finds, have this. -/
structure Has (id : Blob) (x : StoredMirror) (s : Session) : Prop where
  stored : ∃ y, s.storage id = some (.json y) ∧ Lasts x y
  now : ∃ y, CopyNow id s y ∧ Lasts x y

/-- A writer keeps what was stored. -/
theorem Wrote.has (hlib : L.MergeKeeps) {c t : Async Unit} {work : Mirror → Async Mirror}
    {s s' : Session} {x : StoredMirror} (hw : Writes L id c work) (h : Wrote id work t s s')
    (hs : Has id x s) : Has id x s' := by
  obtain ⟨y, hy, hlasts⟩ := hs.now
  have hmade : ∀ m', MadeOf id work s m' → Lasts x (storedForm m') := by
    rintro m' ⟨m, hm, hreturns⟩
    rw [hy.unique hm] at hlasts
    exact hlasts.trans (hw.lasts hlib hreturns)
  cases h with
  | completed m' ends made stored left =>
    exact ⟨⟨_, stored, hmade m' made⟩, ⟨_, left, hmade m' made⟩⟩
  | failed ends stored left =>
    refine ⟨stored ▸ hs.stored, ?_⟩
    rcases left with ⟨z, hz, hz'⟩ | ⟨m', made, hm'⟩
    · exact ⟨z, hz', hy.unique hz ▸ hlasts⟩
    · exact ⟨_, hm', hmade m' made⟩

theorem effects_has (hlib : L.MergeKeeps) {cs ts : List (Async Unit)} {s s' : Session}
    {x : StoredMirror} (h : Effects (Effect L id) cs ts s s')
    (hcs : ∀ c ∈ cs, ∃ work, Writes L id c work) (hs : Has id x s) : Has id x s' := by
  induction h with
  | nil s => exact hs
  | cons effect rest ih =>
    obtain ⟨work, hw⟩ := hcs _ List.mem_cons_self
    exact ih (fun c hc => hcs c (List.mem_cons_of_mem _ hc)) ((effect.wrote work hw).has hlib hw hs)

/-- However the calls of the queue are made, each runs alone when those before it have ended, and
none is left out.  What a call that completed stored is in the stored copy at the end, if the calls
after it are no edits of testing mode. -/
theorem no_update_is_lost (hlib : L.MergeKeeps) {s₀ : Session} {cs : List (Async Unit)}
    {w : Pool Answer Session} (run : Queued (QueueCall L id) s₀ cs w) (hs : Consistent id s₀)
    (hended : ∀ t ∈ w.tasks, t.Settled) :
    Effects (Effect L id) cs w.tasks s₀ w.shared ∧
      ∀ i c work, cs[i]? = some c → w.tasks[i]? = some (.ret ()) → Writes L id c work →
        (∀ c' ∈ cs.drop (i + 1), ∃ work', Writes L id c' work') →
        ∃ s s' m' last, c.ByItself s (.ret ()) s' ∧ MadeOf id work s m' ∧
          s'.storage id = some (.json (storedForm m')) ∧
          w.shared.storage id = some (.json last) ∧ Lasts (storedForm m') last := by
  have heffects := queue_effects run hs hended
  refine ⟨heffects, fun i c work hc ht hw hrest => ?_⟩
  obtain ⟨s, s', heffect, hafter⟩ := heffects.at hc ht
  rcases heffect.wrote work hw with ⟨m', -, made, stored, left⟩ | ⟨hfail, -⟩
  · have hhas : Has id (storedForm m') s' :=
      ⟨⟨_, stored, .refl _⟩, ⟨_, left, .refl _⟩⟩
    obtain ⟨last, hlast, hlasts⟩ := (effects_has hlib hafter hrest hhas).stored
    exact ⟨s, s', m', last, heffect.ran, made, stored, hlast, hlasts⟩
  · cases hfail

/-! ### Notes of refusals, one after another -/

namespace Demo

/-- The small library's merge keeps the links. -/
theorem lib_mergeKeeps : lib.MergeKeeps := by
  intro links offered _ r hr
  refine ⟨r, ?_, rfl, rfl⟩
  have hfold : ∀ (added start : List EdgeLinkRecord), r ∈ start →
      r ∈ added.foldl (fun rs r => insertLink r rs) start := by
    intro added
    induction added with
    | nil => exact fun _ h => h
    | cons r' added ih => exact fun start h => ih _ (mem_insertLink.mpr (Or.inr h))
  exact hfold _ _ hr

/-- The refusal of the request at `n`. -/
def refusedNote (n : Nat) : EdgeNote := ⟨"", n, none, none, some ""⟩

/-- A note of a refusal. -/
def refusedCall (n : Nat) : Async Unit := addNote lib [1] (refusedNote n) 0

/-- A session with nothing stored. -/
def nothingStored : Session := Session.start fun _ => none

/-- The session after so many notes. -/
def refusedState : Nat → Session
  | 0 => nothingStored
  | n + 1 => (refusedCall n).solo [.ok, .ok, .ok] (refusedState n)

/-- None of the refusals in the stored copy is the first one. -/
def firstGone : Option StoredText → Bool
  | some (.json m) => m.refusals.all fun r => decide (r.seq ≠ 0)
  | _ => false

/-- What is known of nothing is right. -/
theorem consistent_nothingStored : Consistent [1] nothingStored :=
  ⟨fun _ h => (by cases h), ⟨emptyMirror [1], rfl, Or.inl ⟨rfl, rfl⟩⟩⟩

/-- Every one of the notes returns. -/
theorem refused_returns (n : Nat) (hn : n < 51) :
    ((refusedCall n).soloEnd [.ok, .ok, .ok] (refusedState n)).isReturn = true := by
  have hall : (List.range 51).all (fun n =>
      ((refusedCall n).soloEnd [.ok, .ok, .ok] (refusedState n)).isReturn) = true := by
    decide +kernel
  exact List.all_eq_true.mp hall n (List.mem_range.mpr hn)

/-- The first `n` refusals, one after another. -/
theorem refused_run (n : Nat) (hn : n ≤ 51) : ∃ w : Pool Answer Session,
    Queued (QueueCall lib [1]) nothingStored ((List.range n).map refusedCall) w ∧
      (∀ t ∈ w.tasks, t = .ret ()) ∧ w.shared = refusedState n := by
  induction n with
  | zero => exact ⟨_, .start, fun _ h => (by cases h), rfl⟩
  | succ n ih =>
    obtain ⟨w, hw, hended, hshared⟩ := ih (by omega)
    have hsettled : ∀ t ∈ w.tasks, t.Settled := fun t ht => by
      rw [hended t ht]
      trivial
    have hnext := hw.solo hsettled [.ok, .ok, .ok] (.writes (.addNote (refusedNote n) 0))
    rw [List.range_succ, List.map_append]
    refine ⟨_, hnext, fun t ht => ?_, ?_⟩
    · rcases List.mem_append.mp ht with ht | ht
      · exact hended t ht
      · rw [List.mem_singleton.mp ht, hshared]
        exact Task.eq_ret_of_isReturn (refused_returns n (by omega))
    · show (refusedCall n).solo [.ok, .ok, .ok] w.shared = _
      rw [hshared]
      rfl

end Demo

theorem no_update_is_lost_refusals : ∃ (w : Pool Answer Session) (m' : Mirror)
    (last : StoredMirror),
    Effects (Effect Demo.lib [1]) ((List.range 51).map Demo.refusedCall) w.tasks
        Demo.nothingStored w.shared ∧
      (∃ s, MadeOf [1] (fun m => Async.orThrow (noted Demo.lib (Demo.refusedNote 0) 0 m)) s m') ∧
      w.shared.storage [1] = some (.json last) ∧ Lasts (storedForm m') last := by
  obtain ⟨w, hw, hended, -⟩ := Demo.refused_run 51 (by omega)
  have hsettled : ∀ t ∈ w.tasks, t.Settled := fun t ht => by
    rw [hended t ht]
    trivial
  obtain ⟨heffects, hlasts⟩ := no_update_is_lost Demo.lib_mergeKeeps hw
    Demo.consistent_nothingStored hsettled
  have hwriters : ∀ c ∈ ((List.range 51).map Demo.refusedCall).drop 1,
      ∃ work, Writes Demo.lib [1] c work := by
    intro c hc
    obtain ⟨n, -, rfl⟩ := List.mem_map.mp (List.mem_of_mem_drop hc)
    exact ⟨_, .addNote (Demo.refusedNote n) 0⟩
  have hlen : 0 < w.tasks.length := by
    have hcalls := hw.length
    simp at hcalls
    omega
  have hfirst : w.tasks[0]? = some (.ret ()) := by
    rw [List.getElem?_eq_getElem hlen, hended _ (List.getElem_mem hlen)]
  obtain ⟨s, s', m', last, -, hmade, -, hlast, hm'⟩ := hlasts 0 (Demo.refusedCall 0) _ rfl hfirst
    (.addNote (Demo.refusedNote 0) 0) hwriters
  exact ⟨w, m', last, heffects, ⟨s, hmade⟩, hlast, hm'⟩

/-- Of 51 refusals, each kept by a call that completed, the first is not in the stored copy. -/
theorem first_refusal_goes : ∃ (w : Pool Answer Session) (m : StoredMirror),
    Queued (QueueCall Demo.lib [1]) Demo.nothingStored
      ((List.range 51).map fun n => addNote Demo.lib [1] (Demo.refusedNote n) 0) w ∧
      (∀ t ∈ w.tasks, t = .ret ()) ∧ w.shared.storage [1] = some (.json m) ∧
      (⟨"", 0, "", 0⟩ : Refusal) ∉ m.refusals := by
  obtain ⟨w, hw, hended, hshared⟩ := Demo.refused_run 51 (by omega)
  have hgone : Demo.firstGone ((Demo.refusedState 51).storage [1]) = true := by
    decide +kernel
  unfold Demo.firstGone at hgone
  split at hgone
  · rename_i m hm
    refine ⟨w, m, hw, hended, hshared ▸ hm, fun hmem => ?_⟩
    simpa using List.all_eq_true.mp hgone _ hmem
  · cases hgone

end OkRn.Store
