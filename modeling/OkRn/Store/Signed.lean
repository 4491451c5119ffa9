/-
OkRn/Store/Signed.lean

"Verified" only behind a signature.

Four paths answer from what earlier checks left in memory.  What is in memory
about a verified copy rests on a check of this session in which the key's
checkpoint verified with both halves, over records the remembered ones start with
(`Checked.memory`).  One check keeps that (`evaluateAt_checked`), every task
therefore keeps it, and so does any interleaving of them.
-/
import OkRn.Lib.History
import OkRn.Store.Sync

namespace OkRn.Store

variable {L : EdgeLib} {s s' : Session} {id : Blob} {mirror : Mirror} {head : Head}
  {key : Option EdgeCopyKey} {held : List EdgeLinkRecord}
  {decoded : List (EdgeLinkRecord × LinkFields)}

/-- A later session has a longer history. -/
instance : Preorder Session where
  le s s' := s.history <:+ s'.history
  le_refl s := List.suffix_rfl
  le_trans _ _ _ := List.IsSuffix.trans

theorem le_of_history (h : s'.history = s.history) : s ≤ s' :=
  show s.history <:+ s'.history from h ▸ List.suffix_rfl

theorem le_log (e : Happening) (s : Session) : s ≤ s.log e := List.suffix_cons e s.history

/-! ### Backed by a signature -/

/-- The checkpoint of the check verified with both halves, under the keys it names. -/
def SignedCheck.Holds (L : EdgeLib) (c : SignedCheck) : Prop :=
  L.deviceIdOf c.publicKey = some c.deviceId ∧
    L.verifyCheckpoint c.deviceId c.checkpoint.seq c.checkpoint.head c.checkpoint.signature
      c.publicKey c.checkpoint.signaturePq c.publicKeyPq = true

/-- A check of this copy verified a signature, over records these links start with. -/
def Backs (L : EdgeLib) (past : List Happening) (id : Blob) (links : List EdgeLinkRecord) : Prop :=
  ∃ c, .signed c ∈ past ∧ c.Holds L ∧ c.copyId = id ∧ c.records <+: links

/-- A check backs more records, later. -/
theorem Backs.mono {past past' : List Happening} {links links' : List EdgeLinkRecord}
    (h : Backs L past id links) (hpast : past <:+ past') (hlinks : links <+: links') :
    Backs L past' id links' := by
  obtain ⟨c, hmem, hholds, hcopy, hprefix⟩ := h
  exact ⟨c, hpast.subset hmem, hholds, hcopy, hprefix.trans hlinks⟩

/-- The check of this copy, at this head, under this key, that verified its checkpoint. -/
structure SignedCheck.Is (L : EdgeLib) (c : SignedCheck) (mirror : Mirror) (head : Head)
    (key : Option EdgeCopyKey) : Prop where
  holds : c.Holds L
  copyId : c.copyId = mirror.deviceId
  records : c.records = mirror.links
  sameHead : c.head = head
  publicKey : key.bind EdgeCopyKey.publicKey = some c.publicKey
  publicKeyPq : key.bind EdgeCopyKey.publicKeyPq = c.publicKeyPq
  checkpoint : usableCheckpoint key head = some c.checkpoint

/-- A check verified the key's checkpoint over this copy. -/
def Signs (L : EdgeLib) (past : List Happening) (mirror : Mirror) (head : Head)
    (key : Option EdgeCopyKey) : Prop :=
  ∃ c, .signed c ∈ past ∧ c.Is L mirror head key

theorem Signs.mono {past past' : List Happening} (h : Signs L past mirror head key)
    (hpast : past <:+ past') : Signs L past' mirror head key := by
  obtain ⟨c, hmem, hc⟩ := h
  exact ⟨c, hpast.subset hmem, hc⟩

/-- The checkpoint a seal was made of was checked, over the head of its sync. -/
def SealChecked (L : EdgeLib) (past : List Happening) (mirror : Mirror) (head : Head)
    (key : EdgeCopyKey) (x : Seal) : Prop :=
  ∃ c, .signed c ∈ past ∧ c.Holds L ∧ c.copyId = mirror.deviceId ∧ c.head = head ∧
    key.publicKey = some c.publicKey ∧ key.publicKeyPq = c.publicKeyPq ∧
    (c.checkpoint.seq : Int) = head.seq ∧ c.checkpoint.head = head.head ∧
    x.seq = c.checkpoint.seq ∧ x.head = c.checkpoint.head ∧
    x.signature = c.checkpoint.signature ∧ x.signaturePq = c.checkpoint.signaturePq

/-- The links kept are verified links of the candidate. -/
def KeptVerified (L : EdgeLib) (candidate : Mirror) (verified : List Nat)
    (added : List EdgeLinkRecord) : Prop :=
  ∀ r ∈ added, (L.MergeAdds → r ∈ candidate.links) ∧ ∃ seq ∈ verified, seqOf L r = some seq

/-- A verified answer for a head with a link is backed, a seal was checked, and links are kept
behind a signature; the last two unless memory could answer the check or the key gave nothing to
check it with. -/
def Happening.Backed (L : EdgeLib) (past : List Happening) : Happening → Prop
  | .signed _ => True
  | .answered mirror head verdict => L.FailsPastHead →
      verdict.isVerified = true → 0 ≤ head.seq → Backs L past mirror.deviceId mirror.links
  | .sealed mirror head key basis x =>
      basis.short = false → key.publicKey.isSome = true → x.seq ≠ noLinkSeq →
        SealChecked L past mirror head key x
  | .kept candidate basis verified added => KeptVerified L candidate verified added ∧
      (basis.short = false → basis.anchored = true →
        ∃ head key, Signs L past candidate head key)

/-- What the session remembers, and what it has answered, is backed. -/
structure Checked (L : EdgeLib) (s : Session) : Prop where
  memory : ∀ id was, s.verifiedNow id = some was → was.count = was.records.length ∧
    was.verdict.isUnsigned = false ∧ (L.FailsPastHead → was.verdict.isVerified = true →
      Backs L s.history id was.records ∨ (was.seq < 0 ∧ was.records = []))
  answers : History.Guarded (Happening.Backed L) s.history

/-- Nothing new in memory, nothing said. -/
theorem Checked.of_same (h : Checked L s) (hhistory : s'.history = s.history)
    (hmemory : ∀ id was, s'.verifiedNow id = some was → s.verifiedNow id = some was) :
    Checked L s' where
  memory id was hwas := by
    rw [hhistory]
    exact h.memory id was (hmemory id was hwas)
  answers := by
    rw [hhistory]
    exact h.answers

theorem Checked.log (h : Checked L s) {e : Happening} (he : e.Backed L s.history) :
    Checked L (s.log e) where
  memory id was hwas := by
    obtain ⟨hcount, hnot, hverified⟩ := h.memory id was hwas
    refine ⟨hcount, hnot, fun hL hv => (hverified hL hv).imp_left fun hb => ?_⟩
    exact hb.mono (List.suffix_cons _ _) List.prefix_rfl
  answers := h.answers.cons he

/-- What is left in memory was there. -/
theorem forgetChecked_memory {was : Verified}
    (h : (s.forgetChecked id).verifiedNow id' = some was) : s.verifiedNow id' = some was := by
  by_cases hid : id' = id
  · subst hid
    rw [Session.forgetChecked_self] at h
    cases h
  · rwa [Session.forgetChecked_of_ne s hid] at h

theorem Checked.forgetChecked (h : Checked L s) (id : Blob) : Checked L (s.forgetChecked id) :=
  h.of_same rfl fun _ _ => forgetChecked_memory

theorem Checked.tookPath (h : Checked L s) (p : CheckPath) : Checked L (s.tookPath p) :=
  h.of_same rfl fun _ _ h => h

theorem Checked.remember (h : Checked L s) {v : Verified} (hcount : v.count = v.records.length)
    (hnot : v.verdict.isUnsigned = false) (hv : L.FailsPastHead → v.verdict.isVerified = true →
      Backs L s.history id v.records ∨ (v.seq < 0 ∧ v.records = [])) :
    Checked L (s.remember id v) where
  memory id' was hwas := by
    by_cases hid : id' = id
    · subst hid
      rw [Session.remember_self] at hwas
      obtain rfl := Option.some.inj hwas
      exact ⟨hcount, hnot, hv⟩
    · rw [Session.remember_of_ne v s hid] at hwas
      exact h.memory id' was hwas
  answers := h.answers

/-! ### One check -/

theorem decodeAll_some {links : List EdgeLinkRecord} (h : decodeAll L links = some decoded)
    {r : EdgeLinkRecord} (hr : r ∈ links) : ∃ f, L.decodeLink r.link = some f := by
  induction links generalizing decoded with
  | nil => cases hr
  | cons r' rs ih =>
    obtain ⟨f, hf, hrest⟩ := Option.bind_eq_some_iff.mp h
    obtain ⟨rest, hdec, -⟩ := Option.map_eq_some_iff.mp hrest
    rcases List.mem_cons.mp hr with rfl | hr
    · exact ⟨f, hf⟩
    · exact ih hdec hr

variable (held key) in
/-- A copy with a link does not pass for a key without one. -/
theorem assess_emptyHead (hL : L.FailsPastHead) (hdec : decodeAll L mirror.links = some decoded)
    (hlinks : mirror.links ≠ []) (hhead : head.seq < 0) (start lastSeen sealed : Option Seen) :
    (assessWith L mirror head held key start lastSeen sealed).ok = false ∧
      (assessWith L mirror head held key start lastSeen sealed).failure ≠ none := by
  obtain ⟨r, hr⟩ := List.exists_mem_of_ne_nil _ hlinks
  obtain ⟨f, hf⟩ := decodeAll_some hdec hr
  exact hL _ f ⟨r, hr, hf⟩ (hhead.trans_le (Int.natCast_nonneg f.seq))

/-- A verified copy has no failure. -/
theorem failure_of_isVerified {a : Assessment} (h : (verdictOf head a).isVerified = true) :
    a.failure = none := by
  unfold verdictOf at h
  split at h
  · cases h
  · assumption

/-- A judged copy is not unsigned. -/
theorem verdictOf_not_unsigned (head : Head) (a : Assessment) :
    (verdictOf head a).isUnsigned = false := by
  unfold verdictOf
  split
  · rfl
  · split
    · rfl
    · split <;> rfl

variable (mirror head held key) in
/-- The full judgement, sealed or not. -/
theorem fullAssessment_eq (remembered : Bool) :
    ∃ sealed, (fullAssessment L mirror head held key remembered).2 =
      assessWith L mirror head held key none mirror.lastSeen sealed := by
  unfold fullAssessment
  dsimp only
  split
  · exact ⟨none, rfl⟩
  · split
    · exact ⟨_, rfl⟩
    · exact ⟨none, rfl⟩

variable (head held key) in
theorem fullCheck_checked (hdec : decodeAll L mirror.links = some decoded)
    (h : Checked L s) (hybridOk : Bool)
    (hback : hybridOk = true → Backs L s.history mirror.deviceId mirror.links) :
    Checked L (fullCheck L decoded mirror head held key hybridOk s).2 ∧
      s ≤ (fullCheck L decoded mirror head held key hybridOk s).2 := by
  obtain ⟨sealed, ha⟩ := fullAssessment_eq (L := L) mirror head key held
    (s.verifiedNow mirror.deviceId).isSome
  unfold fullCheck
  dsimp only
  rw [ha]
  generalize hassess : assessWith L mirror head held key none mirror.lastSeen sealed = a
  have hlinks : L.FailsPastHead → (verdictOf head a).isVerified = true → head.seq < 0 →
      mirror.links = [] := by
    intro hL hv hhead
    by_contra hne
    refine (assess_emptyHead key held hL hdec hne hhead none mirror.lastSeen
      sealed).2 ?_
    rw [hassess]
    exact failure_of_isVerified hv
  split
  · refine ⟨((h.tookPath _).forgetChecked _).log ?_, le_log _ _⟩
    intro _ hv
    cases hv
  · rename_i hsigned
    have hbacked : (verdictOf head a).isVerified = true → 0 ≤ head.seq →
        Backs L s.history mirror.deviceId mirror.links := by
      intro hv hhead
      refine hback ?_
      by_contra hno
      simp [hv, hhead, hno] at hsigned
    refine ⟨((h.tookPath _).remember rfl (verdictOf_not_unsigned _ _) fun hL hv => ?_).log
      fun _ => hbacked, le_log _ _⟩
    -- an empty head needs no signature, every other was signed
    rcases lt_or_ge head.seq 0 with hhead | hhead
    · exact Or.inr ⟨hhead, hlinks hL hv hhead⟩
    · exact Or.inl (hbacked hv hhead)

/-- With the key's checkpoint checked, or without one. -/
theorem anchoredCheck_checked
    (hdec : decodeAll L mirror.links = some decoded) (h : Checked L s) :
    Checked L (anchoredCheck L decoded mirror head held key s).2 ∧
      s ≤ (anchoredCheck L decoded mirror head held key s).2 := by
  unfold anchoredCheck
  split
  · rename_i k publicKey cp _ _
    split
    · rename_i hhybrid
      rcases hid : L.deviceIdOf publicKey with - | deviceId
      · rw [hybridCheck, hid] at hhybrid
        cases hhybrid
      · rw [hybridCheck, hid] at hhybrid
        dsimp only [Option.getD_some]
        generalize hc : (⟨mirror.deviceId, deviceId, publicKey, k.publicKeyPq, cp, head,
          mirror.links⟩ : SignedCheck) = c
        -- the checkpoint was checked for just these records
        have hback : Backs L (s.log (.signed c)).history mirror.deviceId mirror.links := by
          refine ⟨c, List.mem_cons_self, ?_, ?_, ?_⟩ <;> subst hc
          · exact ⟨hid, hhybrid⟩
          · rfl
          · exact List.prefix_rfl
        obtain ⟨hchecked, hle⟩ := fullCheck_checked head (some k) held hdec
          (h.log (e := .signed c) trivial) true fun _ => hback
        exact ⟨hchecked, (le_log _ s).trans hle⟩
    · refine ⟨((h.tookPath _).forgetChecked _).log ?_, le_log _ _⟩
      intro _ hv
      cases hv
  · exact fullCheck_checked head _ held hdec h false fun hno => absurd hno Bool.false_ne_true

/-- The remembered records begin the copy. -/
theorem isPrefix_of_samePrefix {links records : List EdgeLinkRecord}
    (h : samePrefix links records = true) : records <+: links :=
  List.isPrefixOf_iff_prefix.mp h

/-- Whatever one check answers and remembers is backed. -/
theorem evaluateAt_checked (hdec : decodeAll L mirror.links = some decoded)
    (noFull : Bool) (h : Checked L s) :
    Checked L (evaluateAt L decoded mirror head held key noFull s).2 ∧
      s ≤ (evaluateAt L decoded mirror head held key noFull s).2 := by
  -- whatever is not answered from memory is a full check
  have hfull : ∀ {o : Outcome × Session},
      o = (if noFull then (.needsFull, s.tookPath .full)
        else anchoredCheck L decoded mirror head held key s) → Checked L o.2 ∧ s ≤ o.2 := by
    rintro o rfl
    split
    · exact ⟨h.tookPath _, le_of_history rfl⟩
    · exact anchoredCheck_checked hdec h
  unfold evaluateAt
  dsimp only
  split
  · exact hfull rfl
  · rename_i was hwas
    obtain ⟨hcount, -, hverified⟩ := h.memory _ _ hwas
    split
    · -- skipped: the records are those of the check
      rename_i hsame
      simp only [Verified.same, sameCopy, Bool.and_eq_true, beq_iff_eq] at hsame
      refine ⟨(h.tookPath _).log fun hL hv hhead => ?_, le_log _ _⟩
      rcases hverified hL hv with hback | ⟨hneg, -⟩
      · exact hback.mono List.suffix_rfl (isPrefix_of_samePrefix hsame.2.2)
      · omega
    · split
      · -- new links: the records go on from those of the check
        rename_i hgrew
        simp only [Verified.grew, Bool.and_eq_true, decide_eq_true_eq] at hgrew
        obtain ⟨⟨⟨⟨⟨hv, hpos⟩, -⟩, -⟩, hprefix⟩, -⟩ := hgrew
        have hback : L.FailsPastHead → Backs L s.history mirror.deviceId mirror.links := by
          intro hL
          rcases hverified hL hv with hback | ⟨-, hnil⟩
          · exact hback.mono List.suffix_rfl (isPrefix_of_samePrefix hprefix)
          · rw [hcount, hnil] at hpos
            cases hpos
        refine ⟨Checked.log ((h.remember rfl rfl fun hL _ => Or.inl (hback hL)).tookPath _)
          fun hL _ _ => hback hL, le_log _ _⟩
      · exact hfull rfl

variable (mirror held key) in
theorem evaluateWith_checked (head : Option Head) (noFull : Bool)
    (h : Checked L s) :
    Checked L (evaluateWith L mirror head held key noFull s).2 ∧
      s ≤ (evaluateWith L mirror head held key noFull s).2 := by
  unfold evaluateWith
  split
  · exact ⟨h, le_rfl⟩
  · exact ⟨h, le_rfl⟩
  · rename_i hdec
    exact evaluateAt_checked hdec noFull h

/-! ### What a full check answers -/

theorem fullCheck_history (decoded : List (EdgeLinkRecord × LinkFields)) (mirror : Mirror) (head : Head)
    (held : List EdgeLinkRecord) (key : Option EdgeCopyKey) (hybridOk : Bool) (s : Session) :
    s.history <:+ (fullCheck L decoded mirror head held key hybridOk s).2.history := by
  unfold fullCheck
  dsimp only
  split
  · exact List.suffix_cons _ _
  · exact List.suffix_cons _ _

/-- With both signatures the answer is not unsigned. -/
theorem fullCheck_answer {hybridOk : Bool} {v : EdgeView} (hybrid : hybridOk = true)
    (h : (fullCheck L decoded mirror head held key hybridOk s).1 = .view v) :
    v.verdict.isUnsigned = false := by
  subst hybrid
  unfold fullCheck at h
  simp only [Bool.not_true, Bool.and_false, Bool.false_and, Bool.false_eq_true, if_false] at h
  cases h
  exact verdictOf_not_unsigned _ _

/-- With a public key and a usable checkpoint, what is not tampered was signed. -/
theorem anchoredCheck_answer {v : EdgeView}
    (hkey : (basisOf s' mirror head key).anchored = true)
    (h : (anchoredCheck L decoded mirror head held key s).1 = .view v) :
    v.verdict.isUnsigned = false ∧ (v.verdict.isVerified = true ∨ v.verdict.isGap = true →
      Signs L (anchoredCheck L decoded mirror head held key s).2.history mirror head key) := by
  simp only [basisOf, Bool.and_eq_true, Option.isSome_iff_exists] at hkey
  obtain ⟨⟨publicKey, hpublic⟩, cp, hcp⟩ := hkey
  rcases key with - | k
  · cases hpublic
  · unfold anchoredCheck at h ⊢
    simp only [hpublic, hcp] at h ⊢
    split at h
    · rename_i hhybrid
      rw [if_pos hhybrid]
      -- the key has to be the device's own
      rcases hid : L.deviceIdOf publicKey with - | deviceId
      · rw [hybridCheck, hid] at hhybrid
        cases hhybrid
      · rw [hybridCheck, hid] at hhybrid
        rw [hid] at h
        dsimp only [Option.getD_some] at h ⊢
        refine ⟨fullCheck_answer rfl h, fun _ => ?_⟩
        generalize hc : (⟨mirror.deviceId, deviceId, publicKey, k.publicKeyPq, cp, head,
          mirror.links⟩ : SignedCheck) = c
        refine ⟨c, (fullCheck_history decoded mirror head held (some k) true (s.log (.signed c))).subset List.mem_cons_self, ?_⟩
        subst hc
        exact ⟨⟨hid, hhybrid⟩, rfl, rfl, rfl, hpublic, rfl, hcp⟩
    · cases h
      refine ⟨rfl, fun hv => ?_⟩
      rcases hv with hv | hv <;> cases hv

/-- With a public key and a usable checkpoint no check is left unsigned, and one that memory could
not answer was signed. -/
theorem evaluateWith_answer {v : EdgeView} (hchecked : Checked L s)
    (hkey : (basisOf s mirror head key).anchored = true)
    (h : (evaluateWith L mirror (some head) held key false s).1 = .view v) :
    v.verdict.isUnsigned = false ∧ (shortPath s mirror head = false →
      v.verdict.isVerified = true ∨ v.verdict.isGap = true →
      Signs L (evaluateWith L mirror (some head) held key false s).2.history mirror head key) := by
  unfold evaluateWith at h ⊢
  split at h
  · cases h
  · rename_i hsome
    cases hsome
  · rename_i decoded head' hdec hsome
    obtain rfl := Option.some.inj hsome
    unfold evaluateAt at h ⊢
    simp only [Bool.false_eq_true, if_false] at h ⊢
    rcases hwas : s.verifiedNow mirror.deviceId with - | was
    · simp only [hwas] at h ⊢
      obtain ⟨hnot, hsigns⟩ := anchoredCheck_answer hkey h
      exact ⟨hnot, fun _ => hsigns⟩
    · simp only [hwas] at h ⊢
      obtain ⟨-, hnot, -⟩ := hchecked.memory _ _ hwas
      -- from memory only where nothing changed, or where the new links are clean
      rcases hsame : was.same mirror head with - | -
      · simp only [hsame, Bool.false_eq_true, if_false] at h ⊢
        rcases hgrew : was.grew mirror head && (assessNew L was mirror head held key).clean with - | -
        · simp only [hgrew, Bool.false_eq_true, if_false] at h ⊢
          obtain ⟨hnot', hsigns⟩ := anchoredCheck_answer hkey h
          exact ⟨hnot', fun _ => hsigns⟩
        · simp only [hgrew, if_true] at h
          cases h
          refine ⟨rfl, fun hshort => ?_⟩
          rw [Bool.and_eq_true] at hgrew
          rw [shortPath, hwas] at hshort
          simp [hgrew.1] at hshort
      · simp only [hsame, if_true] at h
        cases h
        refine ⟨hnot, fun hshort => ?_⟩
        rw [shortPath, hwas] at hshort
        simp [hsame] at hshort

end OkRn.Store
