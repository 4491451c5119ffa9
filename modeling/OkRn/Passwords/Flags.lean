/-
OkRn/Passwords/Flags.lean

A store's press flag, its policy and its asked mark, through the calls that write
its meta back whole.

`stored_flags_are_kept_iff`: all along a run no write changes the flag or loses what
another stored, and no key is used against the stored flag, exactly when every write
finds the flag stored that its call goes by, and the policy or the mark of its copy.

* `Flags` says of each call that its copy is what is stored, as far as it matters;
* `Stores.CopyIsStored` is the condition, at each write.
-/
import OkRn.Passwords.Stores

namespace OkRn.Passwords

set_option linter.unusedSectionVars false

variable {B I : Type} [DecidableEq B] [DecidableEq I]

/-- The flag that a call goes by. -/
def Stage.flag : Stage I → Option Bool
  | .identify _ => none
  | .readMeta _ copy | .applyPolicy _ copy => copy.map StoreMeta.press
  | .freeKey _ copy => some copy.press
  | .key _ _ press | .sessionKey _ press | .writeMeta _ press | .openManager _ press => some press

/-- The meta that a call has read. -/
def Stage.copy : Stage I → Option StoreMeta
  | .readMeta _ copy | .applyPolicy _ copy | .key _ copy _ => copy
  | .freeKey _ copy => some copy
  | _ => none

/-- The flag that must be stored, where a call has read or written one. -/
def Stage.sure : Stage I → Option (I × Bool)
  | .readMeta id (some copy) | .applyPolicy id (some copy) | .freeKey id copy =>
      some (id, copy.press)
  | .key id (some _) press | .sessionKey id press | .writeMeta id press
  | .openManager id press => some (id, press)
  | _ => none

namespace Stores

/-- No write changes a stored flag; only a choice changes the policy, and no copy takes the asked
mark away; a key is used for a store of its flag only. -/
def KeepsFlags (s : Stores B I) : Prop :=
  (∀ w ∈ s.writes, ∀ m, w.before = some m → w.after.press = m.press ∧
    (w.writer ≠ .setPolicy → w.after.policy = m.policy) ∧
      (w.writer = .setPolicy → m.asked = true → w.after.asked = true)) ∧
    ∀ u ∈ s.uses, ∀ m, u.stored = some m → m.press = u.press

/-- A write finds the flag stored that its call goes by, with the policy of its copy, or for a
choice of the policy with no asked mark that the copy lacks. -/
def CopyIsStored (s : Stores B I) : Event B I → Prop
  | .resume i x => ∀ c ∈ s.calls[i]?, ∀ id writer after next,
      s.plan c x = .writes id writer after next → ∀ m, s.metas id = some m →
        c.stage.flag = some m.press ∧
          (writer ≠ .setPolicy → c.stage.copy.bind StoreMeta.policy = m.policy) ∧
            (writer = .setPolicy → m.asked = true →
              c.stage.copy.map StoreMeta.asked = some true)
  | _ => True

variable {s : Stores B I}

/-! ### What a call plans -/

/-- A write is what the call goes by and its copy, but for what the writer decides. -/
def Based (c : Call B I) : Action I → Prop
  | .writes _ writer after _ => c.stage.flag = some after.press ∧
      (writer ≠ .setPolicy → c.stage.copy.bind StoreMeta.policy = after.policy) ∧
        (writer = .setPolicy → c.stage.copy.map StoreMeta.asked = some after.asked)
  | _ => True

/-- A write is planned from the copy that the call has. -/
theorem based_plan (c : Call B I) (x : Outcome I) : Based c (s.plan c x) := by
  have hplan := planned (s := s) c x
  unfold Based
  generalize s.plan c x = a at hplan ⊢
  generalize c.stage = stage at hplan ⊢
  cases hplan with
  | setPolicy id m policy => exact ⟨rfl, fun hne => absurd rfl hne, fun _ => rfl⟩
  | derived id copy press asked now => exact ⟨rfl, fun _ => rfl, nofun⟩
  | asked id copy => exact ⟨rfl, fun _ => rfl, nofun⟩
  | _ => trivial

/-- A touch-free derive is for a store without the flag. -/
def Free (stage : Stage I) : Prop := ∀ id copy, stage = .freeKey id copy → copy.press = false

/-- A call stays sure of what it is sure of, and uses a key by the flag it is sure of. -/
def Sure (c : Call B I) : Action I → Prop
  | .waits stage => Free stage ∧ ∀ y ∈ stage.sure, c.stage.sure = some y
  | .begins id press => c.stage.sure = some (id, press)
  | .writes id _ after next => ∀ stage ∈ next, Free stage ∧ stage.sure = some (id, after.press)
  | _ => True

/-- A key is used by the flag that was read. -/
theorem sure_plan {c : Call B I} (hfree : Free c.stage) (x : Outcome I) : Sure c (s.plan c x) := by
  have hplan := planned (s := s) c x
  unfold Sure
  generalize s.plan c x = a at hplan ⊢
  generalize c.stage = stage at hplan hfree ⊢
  -- plan by plan: what the next stage is sure of, the one before was
  cases hplan with
  | policy id copy =>
    refine ⟨nofun, fun y hy => ?_⟩
    cases copy with
    | none => cases hy
    | some m => exact hy
  | session id m hbefore =>
    refine ⟨nofun, fun y hy => ?_⟩
    rcases hbefore with rfl | rfl <;> exact hy
  | free id m hbefore hoff =>
    refine ⟨fun id' copy' hst => by cases hst; exact hoff, fun y hy => ?_⟩
    rcases hbefore with rfl | rfl <;> exact hy
  | setPolicy id m policy => nofun
  | key id copy broken =>
    refine ⟨nofun, fun y hy => ?_⟩
    cases copy with
    | none => cases hy
    | some m => exact hy
  | again id press => exact ⟨nofun, nofun⟩
  | derived id copy press asked now =>
    rintro stage ⟨⟩
    exact ⟨nofun, rfl⟩
  | asked id copy =>
    rintro stage ⟨⟩
    have hoff : copy.press = false := hfree id copy rfl
    refine ⟨nofun, ?_⟩
    show some (id, false) = some (id, copy.press)
    rw [hoff]
  | begins hready =>
    cases hready with
    | key id m press => rfl
    | sessionKey id press => rfl
    | freeKey _ m =>
      have hoff : m.press = false := hfree _ m rfl
      show some (_, m.press) = _
      rw [hoff]
    | writeMeta id press => rfl
  | _ => trivial

/-! ### What such events keep -/

/-- The flags are kept, and each call is right in what it is sure of. -/
structure Flags (s : Stores B I) : Prop where
  keeps : s.KeepsFlags
  free : ∀ c ∈ s.calls, Free c.stage
  sure : ∀ c ∈ s.calls, ∀ y ∈ c.stage.sure, ∃ m, s.metas y.1 = some m ∧ m.press = y.2

/-- What `KeepsFlags` and the calls' flags are about. -/
def SameMetas (s t : Stores B I) : Prop :=
  t.metas = s.metas ∧ t.writes = s.writes ∧ t.uses = s.uses ∧ t.calls = s.calls

variable {t : Stores B I}

/-- It is about what is stored. -/
theorem Flags.same (h : Flags s) (hsame : SameMetas s t) : Flags t := by
  obtain ⟨hm, hw, hu, hc⟩ := hsame
  obtain ⟨hkeeps, hfree, hsure⟩ := h
  refine ⟨?_, ?_, ?_⟩
  · unfold KeepsFlags at hkeeps ⊢
    rw [hw, hu]
    exact hkeeps
  · rw [hc]
    exact hfree
  · rw [hc, hm]
    exact hsure

/-- To join a store stores nothing. -/
theorem same_join (s : Stores B I) (c : Call B I) (id : I) : SameMetas s (s.join c id) := by
  unfold join
  split
  · exact ⟨rfl, rfl, rfl, rfl⟩
  · exact ⟨rfl, rfl, rfl, rfl⟩

theorem same_close (s : Stores B I) (b : B) : SameMetas s (s.close b) := by
  simp only [close, release]
  split
  · exact ⟨rfl, rfl, rfl, rfl⟩
  · split
    · exact ⟨rfl, rfl, rfl, rfl⟩
    · split
      · exact ⟨rfl, rfl, rfl, rfl⟩
      · exact ⟨rfl, rfl, rfl, rfl⟩

theorem Flags.closes (h : Flags s) (bs : List B) : Flags (bs.foldl close s) := by
  induction bs generalizing s with
  | nil => exact h
  | cons b bs ih => exact ih (h.same (same_close s b))

theorem Flags.finish (h : Flags s) (i : Nat) : Flags (s.finish i) where
  keeps := h.keeps
  free c hc := h.free c (List.mem_of_mem_eraseIdx hc)
  sure c hc := h.sure c (List.mem_of_mem_eraseIdx hc)

/-- The calls after one waits again. -/
theorem mem_calls_wait {i : Nat} {d : Call B I} {stage : Stage I}
    (hd : d ∈ (s.wait i stage).calls) : d ∈ s.calls ∨ d.stage = stage := by
  obtain ⟨j, hj⟩ := List.mem_iff_getElem?.mp hd
  simp only [wait, List.getElem?_modify, Option.map_eq_map] at hj
  obtain ⟨c, hc, rfl⟩ := Option.map_eq_some_iff.mp hj
  by_cases hij : i = j
  · exact .inr (by simp [hij])
  · simp only [hij, if_false]
    exact .inl (List.mem_of_getElem? hc)

/-- A call that waits again keeps it. -/
theorem Flags.wait (h : Flags s) (i : Nat) {stage : Stage I} (hfree : Free stage)
    (hsure : ∀ y ∈ stage.sure, ∃ m, s.metas y.1 = some m ∧ m.press = y.2) :
    Flags (s.wait i stage) where
  keeps := h.keeps
  free c hc := by
    rcases mem_calls_wait hc with hc | hc
    · exact h.free c hc
    · rw [hc]
      exact hfree
  sure c hc := by
    rcases mem_calls_wait hc with hc | hc
    · exact h.sure c hc
    · rw [hc]
      exact hsure

/-- A meta is written that has the stored flag, if any, and loses nothing. -/
theorem Flags.write (h : Flags s) (id : I) (writer : Writer) (after : StoreMeta)
    (hcond : ∀ m, s.metas id = some m → after.press = m.press ∧
      (writer ≠ .setPolicy → after.policy = m.policy) ∧
        (writer = .setPolicy → m.asked = true → after.asked = true)) :
    Flags { s with
      metas := Function.update s.metas id (some after)
      writes := s.writes ++ [⟨id, writer, s.metas id, after⟩] } where
  keeps := by
    refine ⟨fun w hw => ?_, h.keeps.2⟩
    rcases List.mem_append.mp hw with hw | hw
    · exact h.keeps.1 w hw
    · rw [List.mem_singleton.mp hw]
      exact hcond
  free := h.free
  sure c hc y hy := by
    obtain ⟨m, hm, hp⟩ := h.sure c hc y hy
    by_cases heq : y.1 = id
    · refine ⟨after, ?_, ?_⟩
      · show Function.update s.metas id _ y.1 = _
        rw [heq, Function.update_self]
      · rw [heq] at hm
        rw [(hcond m hm).1, hp]
    · exact ⟨m, (Function.update_of_ne heq ..).trans hm, hp⟩

theorem Flags.resume (h : Flags s) {i : Nat} {x : Outcome I}
    (hcond : s.CopyIsStored (.resume i x)) : Flags (s.resume i x) := by
  unfold Stores.resume
  cases hc : s.calls[i]? with
  | none => exact h
  | some c =>
    have hmem := List.mem_of_getElem? hc
    have hsure := sure_plan (s := s) (h.free c hmem) x
    have hbased := based_plan (s := s) c x
    have hcall := h.sure c hmem
    show Flags (s.perform i c (s.plan c x))
    cases hplan : s.plan c x with
    | ends => exact h.finish i
    | waits stage =>
      rw [hplan] at hsure
      exact h.wait i hsure.1 fun y hy => hcall y (hsure.2 y hy)
    | learns id asked =>
      -- what is learned is the id only; the flag it goes on with is the store's own
      have hlearn : Flags (if asked then s.learn c id else s) := by
        cases asked with
        | false => exact h
        | true => exact h.same ⟨rfl, rfl, rfl, rfl⟩
      simp only [perform]
      split
      · exact (hlearn.same (same_join _ c id)).finish i
      · refine hlearn.wait i (fun _ _ hst => by cases hst) fun y hy => ?_
        have hmetas : (if asked then s.learn c id else s).metas = s.metas := by
          cases asked <;> rfl
        rw [hmetas]
        cases hm : s.metas id with
        | none =>
          rw [hm] at hy
          cases hy
        | some m =>
          rw [hm] at hy
          cases hy
          exact ⟨m, hm, rfl⟩
    | joins id => exact (h.same (same_join s c id)).finish i
    | begins id press =>
      rw [hplan] at hsure
      obtain ⟨m, hm, hp⟩ := hcall _ hsure
      have hbase : Flags { s with uses := s.uses ++ [⟨id, press, s.metas id⟩] } := by
        refine ⟨⟨h.keeps.1, fun u hu => ?_⟩, h.free, h.sure⟩
        rcases List.mem_append.mp hu with hu | hu
        · exact h.keeps.2 u hu
        · rw [List.mem_singleton.mp hu]
          intro m' hm'
          cases hm.symm.trans hm'
          exact hp
      refine hbase.wait i (fun _ _ hst => by cases hst) fun y hy => ?_
      cases hy
      exact ⟨m, hm, hp⟩
    | opened id => exact (h.same (t := s.enter c id) ⟨rfl, rfl, rfl, rfl⟩).finish i
    | writes id writer after next =>
      rw [hplan] at hsure hbased
      obtain ⟨hflag, hpolicy, hasked⟩ := hbased
      -- the write is based on the entry the call read
      have hbase := h.write id writer after fun m hm => by
        obtain ⟨hflag', hpolicy', hasked'⟩ := hcond c hc id writer after next hplan m hm
        refine ⟨?_, fun hw => ?_, fun hw ha => ?_⟩
        · rw [hflag] at hflag'
          exact Option.some.inj hflag'
        · rw [← hpolicy hw]
          exact hpolicy' hw
        · have heq := (hasked hw).symm.trans (hasked' hw ha)
          exact Option.some.inj heq
      cases next with
      | none => exact hbase.finish i
      | some stage =>
        obtain ⟨hfree, hst⟩ := hsure stage rfl
        refine hbase.wait i hfree fun y hy => ?_
        rw [hst] at hy
        cases hy
        exact ⟨after, Function.update_self .., rfl⟩

theorem Flags.step (h : Flags s) (e : Event B I) (hcond : s.CopyIsStored e) : Flags (s.step e) := by
  cases e with
  | start b op =>
    refine ⟨h.keeps, fun c hc => ?_, fun c hc => ?_⟩
    · rcases List.mem_append.mp hc with hc | hc
      · exact h.free c hc
      · rw [List.mem_singleton.mp hc]
        intro _ _ hst
        cases hst
    · rcases List.mem_append.mp hc with hc | hc
      · exact h.sure c hc
      · rw [List.mem_singleton.mp hc]
        intro y hy
        cases hy
  | resume i x => exact h.resume hcond
  | touch b unlocked =>
    cases unlocked with
    | true => exact h
    | false => exact h.same (same_close s b)
  | reap b expired =>
    cases expired with
    | true => exact h.same (same_close s b)
    | false => exact h
  | close b => exact h.same (same_close s b)
  | lockNow b => exact h.closes _

/-- A write that keeps the flags was over its copy. -/
theorem KeepsFlags.copyIsStored {e : Event B I} (h : (s.step e).KeepsFlags) : s.CopyIsStored e := by
  cases e with
  | resume i x =>
    intro c hc id writer after next hplan m hm
    have hbased := based_plan (s := s) c x
    rw [hplan] at hbased
    obtain ⟨hflag, hpolicy, hasked⟩ := hbased
    have hwrite : (⟨id, writer, s.metas id, after⟩ : Write I) ∈ (s.step (.resume i x)).writes := by
      have hstep : s.step (.resume i x) = s.perform i c (.writes id writer after next) := by
        rw [← hplan]
        simp only [Stores.step, Stores.resume, Option.mem_def.mp hc]
      rw [hstep]
      cases next with
      | none => exact List.mem_append_right _ (.head _)
      | some stage => exact List.mem_append_right _ (.head _)
    obtain ⟨hp, hpol, hask⟩ := h.1 _ hwrite m hm
    refine ⟨?_, fun hw => ?_, fun hw ha => ?_⟩
    · rw [hflag]
      exact congrArg some hp
    · rw [hpolicy hw]
      exact hpol hw
    · rw [hasked hw]
      exact congrArg some (hask hw ha)
  | _ => trivial

theorem flags_started (metas : I → Option StoreMeta) : Flags (started metas : Stores B I) where
  keeps := ⟨fun _ hw => (by cases hw), fun _ hu => (by cases hu)⟩
  free _ hc := by cases hc
  sure _ hc := by cases hc

end Stores

/-! ### The result -/

/-- All along a run the flags, policies and marks stored are kept and each key is used by its
store's flag, exactly when every write finds stored what its call goes by and keeps. -/
theorem stored_flags_are_kept_iff (metas : I → Option StoreMeta)
    (history : List (Stores.Event B I)) :
    (∀ past, past <+: history → (Stores.run metas past).KeepsFlags) ↔
      ∀ past e, past ++ [e] <+: history → (Stores.run metas past).CopyIsStored e := by
  have hflags := steps_along_iff (Stores.flags_started metas)
    (fun s e h => ⟨fun hnext => Stores.KeepsFlags.copyIsStored (e := e) hnext.keeps, h.step e⟩) history
  constructor
  · intro h past e hp
    have hnext := h _ hp
    unfold Stores.run at hnext
    rw [List.foldl_append] at hnext
    exact Stores.KeepsFlags.copyIsStored hnext
  · exact fun h past hp => (hflags.mpr h past hp).keeps

/-- The derive is refused touch-free, and granted with a press. -/
def refused : Outcome Nat := ⟨false, true, 0, false, false, true, ""⟩

/-- A new store opened from two keys at once, of which one refuses the touch-free derive: the
second meta has the other flag. -/
theorem new_store_changes_its_flag :
    ¬ ∀ past, past <+: [Stores.Event.start true (.openWithKey false),
        .start false (.openWithKey false), .resume 0 goesWell, .resume 1 goesWell,
        .resume 0 goesWell, .resume 1 goesWell, .resume 0 goesWell, .resume 1 goesWell,
        .resume 0 goesWell, .resume 1 refused, .resume 1 goesWell] →
      (Stores.run (fun _ => none) past).KeepsFlags := by
  intro h
  obtain ⟨hwrites, -⟩ := h _ (List.prefix_refl _)
  have hwrite := hwrites ⟨0, .openWithKey, some ⟨false, false, "", none⟩, ⟨true, true, "", none⟩⟩
    (.tail _ (.head _)) _ rfl
  exact absurd hwrite.1 (by decide)

end OkRn.Passwords
