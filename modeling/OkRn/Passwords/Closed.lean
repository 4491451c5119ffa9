/-
OkRn/Passwords/Closed.lean

A closed store stays closed.

`close` bumps a count that no call sees: a call that was under way learns the id of
the key that is gone, or attaches its backend after the close.  `Inv` says what
holds as long as no such call gets that far: each backend of an open store has that
store's id and was not closed since its open began.

* `Stores.NoCallOutlivesClose` is the order of events: no close comes between a call's
  question for the key's id and what the call does with it;
* `Inv.step` goes through the events.

Main results: `closed_stores_stay_closed`, and `store_opens_for_a_closed_backend`.
-/
import OkRn.Passwords.Stores

namespace OkRn.Passwords

set_option linter.unusedSectionVars false

variable {B I : Type} [DecidableEq B] [DecidableEq I]

/-- The store that a call is about, once it knows. -/
def Stage.id : Stage I → Option I
  | .identify known => known
  | .readMeta id _ | .applyPolicy id _ | .key id _ _ | .sessionKey id _ => some id
  | .freeKey id _ | .writeMeta id _ | .openManager id _ => some id

namespace Stores

/-- A store is open only for a backend not closed since its open began; a manager that is open no
more is locked; an id is known only from the time after the last close. -/
def StaysClosed (s : Stores B I) : Prop :=
  (∀ id held, s.open id = some held → ∃ x ∈ held.backends, x.2 = s.closes x.1) ∧
    (∀ m id, s.made[m]? = some id → m ∉ s.locked →
      ∃ held, s.open id = some held ∧ held.manager = m) ∧
      ∀ b id epoch, s.idOf b = some (id, epoch) → epoch = s.closes b

/-- A call whose backend was closed neither learns an id nor attaches; a backend's key is the
same between two closes; a manager's opening does not end on an open store. -/
def NoCallOutlivesClose (s : Stores B I) : Event B I → Prop
  | .resume i x => ∀ c ∈ s.calls[i]?,
      (∀ id, s.plan c x = .learns id true →
        c.epoch = s.closes c.backend ∧ ∀ y ∈ s.idOf c.backend, y.1 = id) ∧
      (∀ id, s.plan c x = .learns id false → c.op = .tryOpen → (s.open id).isSome = true →
        c.epoch = s.closes c.backend) ∧
      (∀ id, s.plan c x = .joins id → c.epoch = s.closes c.backend) ∧
      (∀ id, s.plan c x = .opened id → c.epoch = s.closes c.backend ∧ s.open id = none)
  | _ => True

/-! ### What such events keep -/

/-- A call not closed since it began has the id that is known of its backend. -/
def Knows (s : Stores B I) (b : B) (epoch : Nat) (stage : Stage I) : Prop :=
  epoch = s.closes b → ∀ id, stage.id = some id → s.idOf b = some (id, epoch)

/-- What holds while no call outlives a close. -/
structure Inv (s : Stores B I) : Prop where
  managers : s.Current ∧ s.OneManager
  epochs : ∀ c ∈ s.calls, c.epoch ≤ s.closes c.backend
  knows : ∀ c ∈ s.calls, s.Knows c.backend c.epoch c.stage
  fresh : ∀ b id epoch, s.idOf b = some (id, epoch) → epoch = s.closes b
  some_backend : ∀ id held, s.open id = some held → held.backends ≠ []
  attached : ∀ id held, s.open id = some held → ∀ x ∈ held.backends, s.idOf x.1 = some (id, x.2)

variable {s t : Stores B I}

theorem Inv.staysClosed (h : Inv s) : s.StaysClosed := by
  refine ⟨fun id held hopen => ?_, h.managers.2.1, h.fresh⟩
  obtain ⟨x, hx⟩ := List.exists_mem_of_ne_nil _ (h.some_backend id held hopen)
  exact ⟨x, hx, h.fresh _ _ _ (h.attached id held hopen x hx)⟩

/-! #### The calls -/

/-- The calls after one waits again. -/
theorem mem_wait {i : Nat} {c d : Call B I} {stage : Stage I} (hc : s.calls[i]? = some c)
    (hd : d ∈ (s.wait i stage).calls) : d ∈ s.calls ∨ d = { c with stage := stage } := by
  obtain ⟨j, hj⟩ := List.mem_iff_getElem?.mp hd
  simp only [wait, List.getElem?_modify, Option.map_eq_map] at hj
  by_cases hij : i = j
  · subst hij
    rw [hc] at hj
    simp only [if_true, Option.map_some, Option.some.injEq] at hj
    exact .inr hj.symm
  · simp only [hij, if_false, id_eq, Option.map_id_fun'] at hj
    exact .inl (List.mem_of_getElem? hj)

theorem Inv.wait (h : Inv s) {i : Nat} {c : Call B I} (hc : s.calls[i]? = some c)
    {stage : Stage I} (hstage : s.Knows c.backend c.epoch stage) : Inv (s.wait i stage) where
  managers := h.managers
  epochs d hd := by
    rcases mem_wait hc hd with hd | rfl
    · exact h.epochs d hd
    · exact h.epochs c (List.mem_of_getElem? hc)
  knows d hd := by
    rcases mem_wait hc hd with hd | rfl
    · exact h.knows d hd
    · exact hstage
  fresh := h.fresh
  some_backend := h.some_backend
  attached := h.attached

theorem Inv.finish (h : Inv s) (i : Nat) : Inv (s.finish i) where
  managers := h.managers
  epochs d hd := h.epochs d (List.mem_of_mem_eraseIdx hd)
  knows d hd := h.knows d (List.mem_of_mem_eraseIdx hd)
  fresh := h.fresh
  some_backend := h.some_backend
  attached := h.attached

theorem Inv.start (h : Inv s) (b : B) (op : Op) : Inv (s.start b op) where
  managers := h.managers
  epochs d hd := by
    rcases List.mem_append.mp hd with hd | hd
    · exact h.epochs d hd
    · rw [List.mem_singleton.mp hd]
      exact Nat.le_refl _
  knows d hd := by
    rcases List.mem_append.mp hd with hd | hd
    · exact h.knows d hd
    · rw [List.mem_singleton.mp hd]
      intro _ id hid
      obtain ⟨⟨id', epoch⟩, hknown, rfl⟩ := Option.map_eq_some_iff.mp hid
      have hfresh := h.fresh b id' epoch hknown
      subst hfresh
      exact hknown
  fresh := h.fresh
  some_backend := h.some_backend
  attached := h.attached

/-! #### A backend attaches -/

/-- A call joins an open store. -/
theorem Inv.join (h : Inv s) {c : Call B I} {id : I} (hid : s.idOf c.backend = some (id, c.epoch)) :
    Inv (s.join c id) := by
  have hmanagers : (s.join c id).Current ∧ (s.join c id).OneManager :=
    ⟨h.managers.1.join c id, (one_join_iff c id).mpr h.managers.2⟩
  unfold Stores.join at hmanagers ⊢
  split
  · exact h
  · rename_i held hheld
    rw [hheld] at hmanagers
    refine ⟨hmanagers, h.epochs, h.knows, h.fresh, fun id' held' ho => ?_, fun id' held' ho => ?_⟩
    · have ho' : Function.update s.open id _ id' = some held' := ho
      rcases update_eq_some ho' with ⟨rfl, hself⟩ | ⟨-, ho'⟩
      · cases hself
        exact List.cons_ne_nil _ _
      · exact h.some_backend id' held' ho'
    · have ho' : Function.update s.open id _ id' = some held' := ho
      rcases update_eq_some ho' with ⟨rfl, hself⟩ | ⟨-, ho'⟩
      · cases hself
        intro x hx
        rcases List.mem_cons.mp hx with rfl | hx
        · exact hid
        · exact h.attached id' held hheld x (List.mem_filter.mp hx).1
      · exact h.attached id' held' ho'

theorem Inv.enter (h : Inv s) {c : Call B I} {id : I} (hid : s.idOf c.backend = some (id, c.epoch))
    (hnone : s.open id = none) : Inv (s.enter c id) := by
  refine ⟨⟨h.managers.1.enter c id, (one_enter_iff h.managers.1 h.managers.2 c id).mpr hnone⟩,
    h.epochs, h.knows, h.fresh, fun id' held' ho => ?_, fun id' held' ho => ?_⟩
  · have ho' : Function.update s.open id _ id' = some held' := ho
    rcases update_eq_some ho' with ⟨rfl, hself⟩ | ⟨-, ho'⟩
    · cases hself
      exact List.cons_ne_nil _ _
    · exact h.some_backend id' held' ho'
  · have ho' : Function.update s.open id _ id' = some held' := ho
    rcases update_eq_some ho' with ⟨rfl, hself⟩ | ⟨-, ho'⟩
    · cases hself
      intro x hx
      rw [List.mem_singleton.mp hx]
      exact hid
    · exact h.attached id' held' ho'

/-- The same key again, or the first time: what was known stays so. -/
theorem Inv.learn (h : Inv s) {c : Call B I} {id : I} (hepoch : c.epoch = s.closes c.backend)
    (hsame : ∀ y ∈ s.idOf c.backend, y.1 = id) : Inv (s.learn c id) := by
  have hkeep (b : B) (id' : I) (epoch : Nat) (hb : s.idOf b = some (id', epoch)) :
      (s.learn c id).idOf b = some (id', epoch) := by
    by_cases heq : b = c.backend
    · subst heq
      have hid : id' = id := hsame _ hb
      have hfresh := h.fresh _ id' epoch hb
      show Function.update s.idOf c.backend (some (id, c.epoch)) c.backend = _
      rw [Function.update_self, hid, hfresh, hepoch]
    · exact (Function.update_of_ne heq ..).trans hb
  refine ⟨h.managers, h.epochs, fun d hd he id' hid' => hkeep _ _ _ (h.knows d hd he id' hid'),
    fun b id' epoch hb => ?_, h.some_backend,
    fun id' held ho x hx => hkeep _ _ _ (h.attached id' held ho x hx)⟩
  have hb' : Function.update s.idOf c.backend (some (id, c.epoch)) b = some (id', epoch) := hb
  rcases update_eq_some hb' with ⟨rfl, hself⟩ | ⟨-, hb'⟩
  · cases hself
    exact hepoch
  · exact h.fresh b id' epoch hb'

/-! #### A backend is closed -/

theorem close_closes (s : Stores B I) (b : B) :
    (s.close b).closes = Function.update s.closes b (s.closes b + 1) := by
  simp only [Stores.close, release]
  split
  · rfl
  · split
    · rfl
    · split <;> rfl

theorem close_idOf (s : Stores B I) (b : B) :
    (s.close b).idOf = Function.update s.idOf b none := by
  simp only [Stores.close, release]
  split
  · rfl
  · split
    · rfl
    · split <;> rfl

theorem close_calls (s : Stores B I) (b : B) : (s.close b).calls = s.calls := by
  simp only [Stores.close, release]
  split
  · rfl
  · split
    · rfl
    · split <;> rfl

/-- What stays attached is another backend. -/
theorem Inv.close_open (h : Inv s) {b : B} {id : I} {held : Held B}
    (ho : (s.close b).open id = some held) : held.backends ≠ [] ∧
      ∃ held', s.open id = some held' ∧ ∀ x ∈ held.backends, x ∈ held'.backends ∧ x.1 ≠ b := by
  -- the store stays open: it is another one, or the backend was not its last
  cases hb : s.idOf b with
  | none =>
    simp only [Stores.close, hb] at ho
    refine ⟨h.some_backend id held ho, held, ho, fun x hx => ⟨hx, ?_⟩⟩
    rintro rfl
    rw [h.attached id held ho x hx] at hb
    cases hb
  | some y =>
    obtain ⟨idb, epoch⟩ := y
    have hother (hne : id ≠ idb) (ho' : s.open id = some held) : held.backends ≠ [] ∧
        ∃ held', s.open id = some held' ∧ ∀ x ∈ held.backends, x ∈ held'.backends ∧ x.1 ≠ b := by
      refine ⟨h.some_backend id held ho', held, ho', fun x hx => ⟨hx, ?_⟩⟩
      rintro rfl
      rw [h.attached id held ho' x hx] at hb
      cases hb
      exact hne rfl
    cases hheld : s.open idb with
    | none =>
      simp only [Stores.close, hb, hheld] at ho
      refine hother ?_ ho
      rintro rfl
      rw [ho] at hheld
      cases hheld
    | some heldb =>
      simp only [Stores.close, hb, hheld, release] at ho
      split at ho
      · by_cases hne : id = idb
        · subst hne
          have ho' : Function.update s.open id none id = some held := ho
          rw [Function.update_self] at ho'
          cases ho'
        · exact hother hne ((Function.update_of_ne hne ..).symm.trans ho)
      · rename_i hleft
        by_cases hne : id = idb
        · subst hne
          have ho' : Function.update s.open id (some _) id = some held := ho
          rw [Function.update_self] at ho'
          cases ho'
          refine ⟨hleft, heldb, hheld, fun x hx => ?_⟩
          have hx' := List.mem_filter.mp hx
          exact ⟨hx'.1, of_decide_eq_true hx'.2⟩
        · exact hother hne ((Function.update_of_ne hne ..).symm.trans ho)

/-- No store is open for the backend any more, and no call of it has its epoch. -/
theorem Inv.close (h : Inv s) (b : B) : Inv (s.close b) := by
  have hmanagers : (s.close b).Current ∧ (s.close b).OneManager :=
    ⟨h.managers.1.close b, h.managers.2.close b⟩
  have hcloses := close_closes s b
  have hidOf := close_idOf s b
  have hcalls := close_calls s b
  refine ⟨hmanagers, fun c hc => ?_, fun c hc he id hid => ?_, fun b' id epoch hb' => ?_,
    fun id held ho => (h.close_open ho).1, fun id held ho x hx => ?_⟩
  · rw [hcalls] at hc
    rw [hcloses]
    have hle := h.epochs c hc
    -- the calls of the closed backend are of an epoch that has gone by
    by_cases heq : c.backend = b
    · rw [heq, Function.update_self]
      rw [heq] at hle
      omega
    · rw [Function.update_of_ne heq]
      exact hle
  · rw [hcalls] at hc
    rw [hcloses] at he
    have hle := h.epochs c hc
    by_cases heq : c.backend = b
    · rw [heq, Function.update_self] at he
      rw [heq] at hle
      omega
    · rw [Function.update_of_ne heq] at he
      rw [hidOf, Function.update_of_ne heq]
      exact h.knows c hc he id hid
  · rw [hidOf] at hb'
    rw [hcloses]
    by_cases heq : b' = b
    · subst heq
      rw [Function.update_self] at hb'
      cases hb'
    · rw [Function.update_of_ne heq] at hb' ⊢
      exact h.fresh b' id epoch hb'
  · obtain ⟨-, held', ho', hback⟩ := h.close_open ho
    obtain ⟨hx', hne⟩ := hback x hx
    rw [hidOf, Function.update_of_ne hne]
    exact h.attached id held' ho' x hx'

/-- Any number of closes keep it. -/
theorem Inv.closes (h : Inv s) (bs : List B) : Inv (bs.foldl Stores.close s) := by
  induction bs generalizing s with
  | nil => exact h
  | cons b bs ih => exact ih (h.close b)

/-! #### A call goes on -/

/-- The store that an action is about is the call's. -/
def About (c : Call B I) : Action I → Prop
  | .ends => True
  | .waits stage => stage.id = c.stage.id
  | .learns id asked => asked = false → c.stage.id = some id
  | .joins id | .begins id _ | .opened id => c.stage.id = some id
  | .writes id _ _ next => c.stage.id = some id ∧ ∀ stage ∈ next, stage.id = some id

/-- What a call plans is about its own store. -/
theorem about_plan (c : Call B I) (x : Outcome I) : About c (s.plan c x) := by
  have hplan := planned (s := s) c x
  unfold About
  generalize s.plan c x = a at hplan ⊢
  generalize c.stage = stage at hplan ⊢
  cases hplan with
  | ends => trivial
  | known id => exact fun _ => rfl
  | learns id => nofun
  | policy id copy => rfl
  | session id m hbefore => rcases hbefore with rfl | rfl <;> rfl
  | free id m hbefore => rcases hbefore with rfl | rfl <;> rfl
  | setPolicy id m policy => exact ⟨rfl, nofun⟩
  | key id copy broken => rfl
  | again id press => rfl
  | derived id copy press asked now => exact ⟨rfl, fun _ h => by cases h; rfl⟩
  | asked id copy => exact ⟨rfl, fun _ h => by cases h; rfl⟩
  | joins hready => cases hready <;> rfl
  | begins hready => cases hready <;> rfl
  | opened id press => rfl

theorem Inv.resume (h : Inv s) {i : Nat} {x : Outcome I}
    (hcond : s.NoCallOutlivesClose (.resume i x)) :
    Inv (s.resume i x) := by
  unfold Stores.resume
  cases hc : s.calls[i]? with
  | none => exact h
  | some c =>
    obtain ⟨hlearns, hknown, hjoins, hopened⟩ := hcond c hc
    have habout := about_plan (s := s) c x
    have hknows := h.knows c (List.mem_of_getElem? hc)
    show Inv (s.perform i c (s.plan c x))
    -- what the call does next, with the condition on that
    cases hplan : s.plan c x with
    | ends => exact h.finish i
    | waits stage =>
      rw [hplan] at habout
      refine h.wait hc fun he id hid => hknows he id ?_
      rw [← hid]
      exact habout.symm
    | learns id asked =>
      rw [hplan] at habout
      cases asked with
      | false =>
        have hid : c.stage.id = some id := habout rfl
        simp only [perform, Bool.false_eq_true, if_false]
        split
        · rename_i hjoin
          have hepoch := hknown id hplan hjoin.1 hjoin.2
          exact (h.join (hknows hepoch id hid)).finish i
        · refine h.wait hc fun he id' hid' => hknows he id' ?_
          rw [← hid']
          exact hid
      | true =>
        obtain ⟨hepoch, hsame⟩ := hlearns id hplan
        have hlearn := h.learn hepoch hsame
        have hidOf : (s.learn c id).idOf c.backend = some (id, c.epoch) :=
          Function.update_self ..
        simp only [perform, if_true]
        split
        · exact (hlearn.join hidOf).finish i
        · refine hlearn.wait hc fun _ id' hid' => ?_
          cases hid'
          exact hidOf
    | joins id =>
      rw [hplan] at habout
      exact (h.join (hknows (hjoins id hplan) id habout)).finish i
    | begins id press =>
      rw [hplan] at habout
      have hbase : Inv { s with uses := s.uses ++ [⟨id, press, s.metas id⟩] } :=
        ⟨h.managers, h.epochs, h.knows, h.fresh, h.some_backend, h.attached⟩
      refine hbase.wait hc fun he id' hid' => hknows he id' ?_
      rw [← hid']
      exact habout
    | opened id =>
      rw [hplan] at habout
      obtain ⟨hepoch, hnone⟩ := hopened id hplan
      exact (h.enter (hknows hepoch id habout) hnone).finish i
    | writes id writer after next =>
      rw [hplan] at habout
      obtain ⟨hid, hnext⟩ := habout
      have hbase : Inv { s with
          metas := Function.update s.metas id (some after)
          writes := s.writes ++ [⟨id, writer, s.metas id, after⟩] } :=
        ⟨h.managers, h.epochs, h.knows, h.fresh, h.some_backend, h.attached⟩
      cases next with
      | none => exact hbase.finish i
      | some stage =>
        refine hbase.wait hc fun he id' hid' => hknows he id' ?_
        rw [hid, ← hid']
        exact (hnext stage rfl).symm

theorem Inv.step (h : Inv s) (e : Event B I) (hcond : s.NoCallOutlivesClose e) :
    Inv (s.step e) := by
  cases e with
  | start b op => exact h.start b op
  | resume i x => exact h.resume hcond
  | touch b unlocked =>
    cases unlocked with
    | true => exact h
    | false => exact h.close b
  | reap b expired =>
    cases expired with
    | true => exact h.close b
    | false => exact h
  | close b => exact h.close b
  | lockNow b => exact h.closes _

theorem inv_started (metas : I → Option StoreMeta) : Inv (started metas : Stores B I) where
  managers := ⟨current_started metas, fun _ _ hm => (by cases hm), fun _ hr => (by cases hr)⟩
  epochs _ hc := by cases hc
  knows _ hc := by cases hc
  fresh _ _ _ hb := by cases hb
  some_backend _ _ ho := by cases ho
  attached _ _ ho := by cases ho

end Stores

/-! ### The result -/

/-- In a run where no call whose backend was closed learns an id or attaches, a closed store
stays closed. -/
theorem closed_stores_stay_closed (metas : I → Option StoreMeta)
    (history : List (Stores.Event B I))
    (hcond : AllAlong Stores.step Stores.NoCallOutlivesClose (Stores.started metas) history) :
    (Stores.run metas history).StaysClosed :=
  (hcond.keeps (Stores.inv_started metas) fun _ e h he => h.step e he).staysClosed

/-- A store is opened and closed. -/
theorem closed_store_stays_closed_once :
    (Stores.run (fun _ => some ⟨false, false, "", none⟩) [.start true .tryOpen,
      .resume 0 goesWell, .resume 0 goesWell, .resume 0 goesWell, .resume 0 goesWell,
      .close true]).StaysClosed := by
  apply closed_stores_stay_closed
  refine ⟨trivial, ?_, ?_, ?_, ?_, trivial, trivial⟩
  · rintro c ⟨⟩
    exact ⟨fun id h => ⟨rfl, fun y hy => (by cases hy)⟩, fun id h => (by cases h),
      fun id h => (by cases h), fun id h => (by cases h)⟩
  · rintro c ⟨⟩
    exact ⟨fun id h => (by cases h), fun id h => (by cases h), fun id h => (by cases h),
      fun id h => (by cases h)⟩
  · rintro c ⟨⟩
    exact ⟨fun id h => (by cases h), fun id h => (by cases h), fun id h => (by cases h),
      fun id h => (by cases h)⟩
  · rintro c ⟨⟩
    exact ⟨fun id h => (by cases h), fun id h => (by cases h), fun id h => (by cases h),
      fun id h => ⟨rfl, rfl⟩⟩

/-- The key is unplugged while its store is being opened: the store opens for a backend that is
gone, and its id is no longer known. -/
theorem store_opens_for_a_closed_backend :
    ¬ (Stores.run (fun _ => some ⟨false, false, "", none⟩) [.start true .tryOpen,
      .resume 0 goesWell, .close true, .resume 0 goesWell, .resume 0 goesWell,
      .resume 0 goesWell]).StaysClosed := by
  rintro ⟨hheld, -⟩
  obtain ⟨x, hx, heq⟩ := hheld 0 ⟨0, [(true, 0)]⟩ rfl
  cases List.mem_singleton.mp hx
  exact absurd heq (by decide)

end OkRn.Passwords
