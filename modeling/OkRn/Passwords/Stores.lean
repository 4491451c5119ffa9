/-
OkRn/Passwords/Stores.lean

The password stores: which are open, for which backends, and the calls under way.

A call waits for the key, the storage or the library many times; what happens at
its awaits comes with an event (`Outcome`).  Between two awaits a call runs at once:
`plan` says what it does there, `perform` does it.  The storage runs its calls in
the order they are made, so a read gives what is stored when it is called for.

`opens_share_a_manager_iff`: every manager made is the open one of its store or is
locked, all along a run, exactly when no manager's opening ends while its store is
already open.
-/
import OkRn.Lib.Along
import Mathlib.Logic.Function.Basic

namespace OkRn.Passwords

set_option linter.unusedSectionVars false

variable {B I : Type} [DecidableEq B] [DecidableEq I]

/-! ### The stores -/

/-- How long a store stays open. -/
inductive StorePolicy
  | session5m | session30m | session8h | startup
  deriving DecidableEq

/-- What is stored of a store. -/
structure StoreMeta where
  press : Bool
  asked : Bool
  createdAt : String
  policy : Option StorePolicy
  deriving DecidableEq

/-- An open store; each of its backends with the number of its closes when the call began that
attached it. -/
structure Held (B : Type) where
  manager : Nat
  backends : List (B × Nat)

/-- The calls. -/
inductive Op
  | tryOpen
  | openWithKey (broken : Bool)
  | setPolicy (policy : StorePolicy)
  deriving DecidableEq

/-- What a call waits for. -/
inductive Stage (I : Type)
  /-- `identify`, with the id known when it was called. -/
  | identify (known : Option I)
  /-- `readMeta`, with what is stored. -/
  | readMeta (id : I) (copy : Option StoreMeta)
  | applyPolicy (id : I) (copy : Option StoreMeta)
  /-- The derive of `openWithKey`. -/
  | key (id : I) (copy : Option StoreMeta) (press : Bool)
  /-- The derive of `tryOpen`, for a session that holds the key. -/
  | sessionKey (id : I) (press : Bool)
  /-- The touch-free derive of `tryOpen`. -/
  | freeKey (id : I) (copy : StoreMeta)
  | writeMeta (id : I) (press : Bool)
  | openManager (id : I) (press : Bool)

/-- A call under way. -/
structure Call (B I : Type) where
  backend : B
  op : Op
  /-- The backend's closes when the call began. -/
  epoch : Nat
  stage : Stage I

/-- Who writes a meta. -/
inductive Writer
  | tryOpen | openWithKey | setPolicy
  deriving DecidableEq

/-- A meta written: over which, from which copy. -/
structure Write (I : Type) where
  id : I
  writer : Writer
  before : Option StoreMeta
  after : StoreMeta

/-- A key used to open a store: its flag, and the store's meta. -/
structure Use (I : Type) where
  id : I
  press : Bool
  stored : Option StoreMeta

/-- An open that resolved: its manager, and the one that was open. -/
structure Resolved (I : Type) where
  id : I
  manager : Nat
  held : Option Nat

/-- The open stores, what is stored of each, and the calls. -/
structure Stores (B I : Type) where
  «open» : I → Option (Held B)
  /-- With the backend's closes when the `identify` began. -/
  idOf : B → Option (I × Nat)
  metas : I → Option StoreMeta
  calls : List (Call B I)
  closes : B → Nat
  made : List I
  locked : List Nat
  resolved : List (Resolved I)
  writes : List (Write I)
  uses : List (Use I)

/-- How an await ends, and what the key and the storage say from there to the next. -/
structure Outcome (I : Type) where
  /-- It does not throw. -/
  ok : Bool
  /-- It throws, with a touch-free refusal. -/
  refusal : Bool
  id : I
  /-- `isUnlocked`. -/
  unlocked : Bool
  /-- The key asked for a press. -/
  asked : Bool
  /-- A meta written is stored. -/
  stored : Bool
  now : String

/-! ### Between two awaits -/

/-- What a call does between two awaits. -/
inductive Action (I : Type)
  | ends
  | waits (stage : Stage I)
  /-- `identify` gives its id; `asked` if it came from the key. -/
  | learns (id : I) (asked : Bool)
  /-- `attach` to an open store. -/
  | joins (id : I)
  /-- `attach` opens the manager. -/
  | begins (id : I) (press : Bool)
  /-- The manager is there. -/
  | opened (id : I)
  | writes (id : I) (writer : Writer) (after : StoreMeta) (next : Option (Stage I))

namespace Stores

/-- `attach`. -/
def attach (s : Stores B I) (id : I) (press : Bool) : Action I :=
  if (s.open id).isSome then .joins id else .begins id press

/-- `tryOpen`, once the label has its policy. -/
def tryKey (id : I) (copy : Option StoreMeta) (unlocked : Bool) : Action I :=
  match copy with
  | none => .ends
  | some m =>
      if unlocked then .waits (.sessionKey id m.press)
      else if m.press || m.asked then .ends
      else .waits (.freeKey id m)

/-- The meta that `openWithKey` writes. -/
def nextMeta (copy : Option StoreMeta) (press asked : Bool) (now : String) : StoreMeta where
  press := press
  asked := press || asked
  createdAt := (copy.map StoreMeta.createdAt).getD now
  policy := copy.bind StoreMeta.policy

/-- What a call does when its await ends, up to the next. -/
def plan (s : Stores B I) (c : Call B I) (x : Outcome I) : Action I :=
  match c.stage with
  | .identify known =>
      match known with
      | some id => .learns id false
      | none => if x.ok then .learns x.id true else .ends
  | .readMeta id copy =>
      if x.ok then
        match c.op with
        -- a session that is unlocked needs no policy
        | .tryOpen => if x.unlocked then tryKey id copy true else .waits (.applyPolicy id copy)
        | .openWithKey _ => .waits (.applyPolicy id copy)
        | .setPolicy policy =>
            match copy with
            | some m =>
                if x.stored then .writes id .setPolicy { m with policy := some policy } none
                else .ends
            | none => .ends
      else .ends
  | .applyPolicy id copy =>
      if x.ok then
        match c.op with
        | .tryOpen => tryKey id copy x.unlocked
        | .openWithKey broken => .waits (.key id copy ((copy.map StoreMeta.press).getD broken))
        | .setPolicy _ => .ends
      else .ends
  | .key id copy press =>
      if x.ok then
        -- the meta is written over the copy read at the start, not over what is stored now
        let next := nextMeta copy press x.asked x.now
        if copy.map StoreMeta.asked ≠ some next.asked then
          if x.stored then .writes id .openWithKey next (some (.writeMeta id press)) else .ends
        else s.attach id press
      -- a new store whose key may not be derived without a touch
      else if copy.isNone && !press && x.refusal then .waits (.key id none true)
      else .ends
  | .sessionKey id press => if x.ok then s.attach id press else .ends
  | .freeKey id copy =>
      if x.ok then
        if x.asked then
          if x.stored then
            .writes id .tryOpen { copy with asked := true } (some (.writeMeta id false))
          else .ends
        else s.attach id false
      else .ends
  | .writeMeta id press => if x.ok then s.attach id press else .ends
  | .openManager id _ => if x.ok then .opened id else .ends

/-! ### The steps -/

/-- Call `i` goes on waiting. -/
def wait (s : Stores B I) (i : Nat) (stage : Stage I) : Stores B I :=
  { s with calls := s.calls.modify i fun c => { c with stage := stage } }

/-- Call `i` is over. -/
def finish (s : Stores B I) (i : Nat) : Stores B I := { s with calls := s.calls.eraseIdx i }

/-- A backend joins those of an open store. -/
def join (s : Stores B I) (c : Call B I) (id : I) : Stores B I :=
  match s.open id with
  | none => s
  | some held =>
      { s with
        «open» := Function.update s.open id (some { held with
          backends := (c.backend, c.epoch) :: held.backends.filter fun x => x.1 ≠ c.backend })
        resolved := s.resolved ++ [⟨id, held.manager, some held.manager⟩] }

/-- A manager is made, and is the store's open one from here on. -/
def enter (s : Stores B I) (c : Call B I) (id : I) : Stores B I :=
  { s with
    «open» := Function.update s.open id (some ⟨s.made.length, [(c.backend, c.epoch)]⟩)
    made := s.made ++ [id]
    resolved := s.resolved ++ [⟨id, s.made.length, (s.open id).map Held.manager⟩] }

/-- The id of a backend's key is known. -/
def learn (s : Stores B I) (c : Call B I) (id : I) : Stores B I :=
  { s with idOf := Function.update s.idOf c.backend (some (id, c.epoch)) }

/-- The call does it. -/
def perform (s : Stores B I) (i : Nat) (c : Call B I) : Action I → Stores B I
  | .ends => s.finish i
  | .waits stage => s.wait i stage
  | .learns id asked =>
      let t := if asked then s.learn c id else s
      -- no await between the id and the look at the open stores
      if c.op = .tryOpen ∧ (s.open id).isSome then (t.join c id).finish i
      else t.wait i (.readMeta id (s.metas id))
  | .joins id => (s.join c id).finish i
  | .begins id press =>
      let t : Stores B I := { s with uses := s.uses ++ [⟨id, press, s.metas id⟩] }
      t.wait i (.openManager id press)
  | .opened id => (s.enter c id).finish i
  | .writes id writer after next =>
      let t : Stores B I :=
        { s with
          metas := Function.update s.metas id (some after)
          writes := s.writes ++ [⟨id, writer, s.metas id, after⟩] }
      match next with
      | some stage => t.wait i stage
      | none => t.finish i

/-- A call begins; `identify` is its first await. -/
def start (s : Stores B I) (b : B) (op : Op) : Stores B I :=
  { s with
    calls := s.calls ++ [⟨b, op, s.closes b, .identify ((s.idOf b).map Prod.fst)⟩] }

/-- A backend lets go of an open store; with the last the store closes. -/
def release (s : Stores B I) (b : B) (id : I) (held : Held B) : Stores B I :=
  let backends := held.backends.filter fun x => x.1 ≠ b
  if backends = [] then
    { s with
      «open» := Function.update s.open id none
      locked := s.locked ++ [held.manager] }
  else { s with «open» := Function.update s.open id (some { held with backends := backends }) }

/-- `close`. -/
def close (s : Stores B I) (b : B) : Stores B I :=
  let t := { s with
    idOf := Function.update s.idOf b none
    closes := Function.update s.closes b (s.closes b + 1) }
  match s.idOf b with
  | none => t
  | some (id, _) =>
      match s.open id with
      | none => t
      | some held => t.release b id held

/-- The backends that `lockNow` closes. -/
def lockTargets (s : Stores B I) (b : B) : List B :=
  match s.idOf b with
  | none => [b]
  | some (id, _) =>
      match s.open id with
      | none => [b]
      | some held => held.backends.map Prod.fst

/-- What can happen. -/
inductive Event (B I : Type)
  | start (b : B) (op : Op)
  | resume (i : Nat) (x : Outcome I)
  | touch (b : B) (unlocked : Bool)
  | reap (b : B) (expired : Bool)
  | close (b : B)
  | lockNow (b : B)

/-- A call goes on. -/
def resume (s : Stores B I) (i : Nat) (x : Outcome I) : Stores B I :=
  match s.calls[i]? with
  | none => s
  | some c => s.perform i c (s.plan c x)

/-- One event. -/
def step (s : Stores B I) : Event B I → Stores B I
  | .start b op => s.start b op
  | .resume i x => s.resume i x
  | .touch b unlocked => if unlocked then s else s.close b
  | .reap b expired => if expired then s.close b else s
  | .close b => s.close b
  | .lockNow b => (s.lockTargets b).foldl close s

/-- The app has started; only what is stored is there. -/
def started (metas : I → Option StoreMeta) : Stores B I :=
  ⟨fun _ => none, fun _ => none, metas, [], fun _ => 0, [], [], [], [], []⟩

/-- The stores after a history. -/
def run (metas : I → Option StoreMeta) (history : List (Event B I)) : Stores B I :=
  history.foldl step (started metas)

/-! ### One manager for a store -/

/-- Every manager made is locked or the open one of its store, and an open resolves to the
manager of the store where that is open. -/
def OneManager (s : Stores B I) : Prop :=
  (∀ m id, s.made[m]? = some id → m ∉ s.locked → ∃ held, s.open id = some held ∧ held.manager = m) ∧
    ∀ r ∈ s.resolved, ∀ m, r.held = some m → r.manager = m

/-- A manager's opening does not end on a store that is open. -/
def OpensOnce (s : Stores B I) : Event B I → Prop
  | .resume i x => ∀ c ∈ s.calls[i]?, ∀ id press, c.stage = .openManager id press → x.ok = true →
      s.open id = none
  | _ => True

/-- The open managers are managers made, and not locked. -/
def Current (s : Stores B I) : Prop :=
  (∀ id held, s.open id = some held → s.made[held.manager]? = some id ∧ held.manager ∉ s.locked) ∧
    ∀ m ∈ s.locked, m < s.made.length

/-- What `OneManager` and `Current` are about. -/
def SameManagers (s t : Stores B I) : Prop :=
  t.open = s.open ∧ t.made = s.made ∧ t.locked = s.locked ∧ t.resolved = s.resolved

variable {s t : Stores B I}

/-- What an updated map says of an id. -/
theorem update_eq_some {β : Type} {f : I → Option β} {id id' : I} {v : Option β}
    {x : β} (h : Function.update f id v id' = some x) :
    id' = id ∧ v = some x ∨ id' ≠ id ∧ f id' = some x := by
  by_cases hid : id' = id
  · subst hid
    rw [Function.update_self] at h
    exact .inl ⟨rfl, h⟩
  · rw [Function.update_of_ne hid] at h
    exact .inr ⟨hid, h⟩

/-- What is current is about the managers. -/
theorem SameManagers.current (h : SameManagers s t) (hs : s.Current) : t.Current := by
  obtain ⟨ho, hm, hl, -⟩ := h
  unfold Current
  rw [ho, hm, hl]
  exact hs

theorem SameManagers.one_iff (h : SameManagers s t) : t.OneManager ↔ s.OneManager := by
  obtain ⟨ho, hm, hl, hr⟩ := h
  unfold OneManager
  rw [ho, hm, hl, hr]

/-! #### An open store is joined -/

/-- To join a store makes no manager. -/
theorem Current.join (h : s.Current) (c : Call B I) (id : I) : (s.join c id).Current := by
  unfold Stores.join
  split
  · exact h
  · rename_i held hheld
    refine ⟨fun id' held' ho => ?_, h.2⟩
    have ho' : Function.update s.open id _ id' = some held' := ho
    rcases update_eq_some ho' with ⟨rfl, hself⟩ | ⟨-, ho'⟩
    · cases hself
      exact h.1 id' held hheld
    · exact h.1 id' held' ho'

theorem one_join_iff (c : Call B I) (id : I) : (s.join c id).OneManager ↔ s.OneManager := by
  unfold Stores.join
  split
  · exact Iff.rfl
  · rename_i held hheld
    constructor
    · rintro ⟨hmade, hres⟩
      refine ⟨fun m id' hm hl => ?_, fun r hr => hres r (List.mem_append_left _ hr)⟩
      -- joining changes no manager, so it can break nothing
      obtain ⟨held', ho, hm'⟩ := hmade m id' hm hl
      have ho' : Function.update s.open id _ id' = some held' := ho
      rcases update_eq_some ho' with ⟨rfl, hself⟩ | ⟨-, ho'⟩
      · cases hself
        exact ⟨held, hheld, hm'⟩
      · exact ⟨held', ho', hm'⟩
    · rintro ⟨hmade, hres⟩
      refine ⟨fun m id' hm hl => ?_, fun r hr => ?_⟩
      · obtain ⟨held', ho, hm'⟩ := hmade m id' hm hl
        by_cases hid : id' = id
        · subst hid
          rw [ho] at hheld
          cases hheld
          exact ⟨_, Function.update_self .., hm'⟩
        · exact ⟨held', (Function.update_of_ne hid ..).trans ho, hm'⟩
      · rcases List.mem_append.mp hr with hr | hr
        · exact hres r hr
        · rw [List.mem_singleton.mp hr]
          rintro m ⟨⟩
          rfl

/-! #### A manager is made -/

theorem getElem?_made (s : Stores B I) (id : I) : (s.made ++ [id])[s.made.length]? = some id := by
  simp

theorem Current.enter (h : s.Current) (c : Call B I) (id : I) : (s.enter c id).Current := by
  refine ⟨fun id' held' ho => ?_, fun m hm => ?_⟩
  · have ho' : Function.update s.open id _ id' = some held' := ho
    rcases update_eq_some ho' with ⟨rfl, hself⟩ | ⟨-, ho'⟩
    · cases hself
      exact ⟨getElem?_made s id', fun hl => Nat.lt_irrefl _ (h.2 _ hl)⟩
    · obtain ⟨hmade, hlocked⟩ := h.1 id' held' ho'
      exact ⟨(List.getElem?_append_left (List.getElem?_eq_some_iff.mp hmade).1).trans hmade,
        hlocked⟩
  · show m < (s.made ++ [id]).length
    rw [List.length_append]
    exact Nat.lt_add_right _ (h.2 m hm)

/-- A manager entered over an open one drops that. -/
theorem one_enter_iff (hcur : s.Current) (h : s.OneManager) (c : Call B I) (id : I) :
    (s.enter c id).OneManager ↔ s.open id = none := by
  -- a manager that was open is neither locked nor the open one any more
  constructor
  · rintro ⟨hmade, -⟩
    cases hopen : s.open id with
    | none => rfl
    | some held =>
      obtain ⟨hm, hl⟩ := hcur.1 id held hopen
      obtain ⟨hlt, -⟩ := List.getElem?_eq_some_iff.mp hm
      have hm' : (s.enter c id).made[held.manager]? = some id :=
        (List.getElem?_append_left hlt).trans hm
      obtain ⟨held', ho, heq⟩ := hmade held.manager id hm' hl
      have ho' : Function.update s.open id _ id = some held' := ho
      rw [Function.update_self] at ho'
      cases ho'
      have hlen : s.made.length = held.manager := heq
      omega
  · intro hnone
    refine ⟨fun m id' hm hl => ?_, fun r hr => ?_⟩
    · have hm' : (s.made ++ [id])[m]? = some id' := hm
      by_cases hlt : m < s.made.length
      · rw [List.getElem?_append_left hlt] at hm'
        obtain ⟨held', ho, heq⟩ := h.1 m id' hm' hl
        have hid : id' ≠ id := by
          rintro rfl
          rw [ho] at hnone
          cases hnone
        exact ⟨held', (Function.update_of_ne hid ..).trans ho, heq⟩
      · have hlast : m = s.made.length := by
          obtain ⟨hlt', -⟩ := List.getElem?_eq_some_iff.mp hm'
          rw [List.length_append] at hlt'
          have hone : [id].length = 1 := rfl
          omega
        subst hlast
        rw [getElem?_made] at hm'
        cases hm'
        exact ⟨_, Function.update_self .., rfl⟩
    · rcases List.mem_append.mp hr with hr | hr
      · exact h.2 r hr
      · rw [List.mem_singleton.mp hr, hnone]
        rintro m ⟨⟩

/-! #### A backend lets go -/

/-- A store that is let go is locked. -/
theorem Current.release (h : s.Current) {b : B} {id : I} {held : Held B}
    (hopen : s.open id = some held) : (s.release b id held).Current := by
  simp only [Stores.release]
  split
  · refine ⟨fun id' held' ho => ?_, fun m hm => ?_⟩
    · have ho' : Function.update s.open id none id' = some held' := ho
      rcases update_eq_some ho' with ⟨rfl, hself⟩ | ⟨hid, ho'⟩
      · cases hself
      · obtain ⟨hmade, hlocked⟩ := h.1 id' held' ho'
        refine ⟨hmade, fun hl => ?_⟩
        rcases List.mem_append.mp hl with hl | hl
        · exact hlocked hl
        · rw [List.mem_singleton.mp hl, (h.1 id held hopen).1] at hmade
          cases hmade
          exact hid rfl
    · rcases List.mem_append.mp hm with hm | hm
      · exact h.2 m hm
      · rw [List.mem_singleton.mp hm]
        exact (List.getElem?_eq_some_iff.mp (h.1 id held hopen).1).1
  · refine ⟨fun id' held' ho => ?_, h.2⟩
    have ho' : Function.update s.open id _ id' = some held' := ho
    rcases update_eq_some ho' with ⟨rfl, hself⟩ | ⟨-, ho'⟩
    · cases hself
      exact h.1 id' held hopen
    · exact h.1 id' held' ho'

theorem OneManager.release (h : s.OneManager) {b : B} {id : I} {held : Held B}
    (hopen : s.open id = some held) : (s.release b id held).OneManager := by
  simp only [Stores.release]
  split
  · refine ⟨fun m id' hm hl => ?_, h.2⟩
    obtain ⟨hold, hnew⟩ := not_or.mp fun hor => hl (List.mem_append.mpr hor)
    obtain ⟨held', ho, heq⟩ := h.1 m id' hm hold
    have hid : id' ≠ id := by
      rintro rfl
      rw [ho] at hopen
      cases hopen
      exact hnew (List.mem_singleton.mpr heq.symm)
    exact ⟨held', (Function.update_of_ne hid ..).trans ho, heq⟩
  · refine ⟨fun m id' hm hl => ?_, h.2⟩
    obtain ⟨held', ho, heq⟩ := h.1 m id' hm hl
    by_cases hid : id' = id
    · subst hid
      rw [ho] at hopen
      cases hopen
      exact ⟨_, Function.update_self .., heq⟩
    · exact ⟨held', (Function.update_of_ne hid ..).trans ho, heq⟩

theorem Current.close (h : s.Current) (b : B) : (s.close b).Current := by
  unfold Stores.close
  split
  · exact h
  · split
    · exact h
    · rename_i id e hid held hheld
      exact Current.release (s := { s with
        idOf := Function.update s.idOf b none
        closes := Function.update s.closes b (s.closes b + 1) }) h hheld

theorem OneManager.close (h : s.OneManager) (b : B) : (s.close b).OneManager := by
  unfold Stores.close
  split
  · exact h
  · split
    · exact h
    · rename_i id e hid held hheld
      exact OneManager.release (s := { s with
        idOf := Function.update s.idOf b none
        closes := Function.update s.closes b (s.closes b + 1) }) h hheld

/-- Any number of closes keep it. -/
theorem Current.closes (h : s.Current) (bs : List B) : (bs.foldl Stores.close s).Current := by
  induction bs generalizing s with
  | nil => exact h
  | cons b bs ih => exact ih (h.close b)

theorem OneManager.closes (h : s.OneManager) (bs : List B) :
    (bs.foldl Stores.close s).OneManager := by
  induction bs generalizing s with
  | nil => exact h
  | cons b bs ih => exact ih (h.close b)

/-! #### Every step -/

/-- A call that ends changes no manager. -/
theorem same_finish (s : Stores B I) (i : Nat) : SameManagers s (s.finish i) := ⟨rfl, rfl, rfl, rfl⟩

theorem same_wait (s : Stores B I) (i : Nat) (stage : Stage I) : SameManagers s (s.wait i stage) :=
  ⟨rfl, rfl, rfl, rfl⟩

theorem same_learn (s : Stores B I) (c : Call B I) (id : I) (asked : Bool) :
    SameManagers s (if asked then s.learn c id else s) := by
  cases asked with
  | false => exact ⟨rfl, rfl, rfl, rfl⟩
  | true => exact ⟨rfl, rfl, rfl, rfl⟩

/-- A stage from which the key is used, with its flag. -/
inductive Ready : Stage I → I → Bool → Prop
  | key (id : I) (m : StoreMeta) (press : Bool) : Ready (.key id (some m) press) id press
  | sessionKey (id : I) (press : Bool) : Ready (.sessionKey id press) id press
  | freeKey (id : I) (m : StoreMeta) : Ready (.freeKey id m) id false
  | writeMeta (id : I) (press : Bool) : Ready (.writeMeta id press) id press

/-- Everything that a call can plan, with the stage it plans that from. -/
inductive Planned (x : Outcome I) : Stage I → Action I → Prop
  | ends (stage : Stage I) : Planned x stage .ends
  | known (id : I) : Planned x (.identify (some id)) (.learns id false)
  | learns (id : I) : Planned x (.identify none) (.learns id true)
  | policy (id : I) (copy : Option StoreMeta) :
      Planned x (.readMeta id copy) (.waits (.applyPolicy id copy))
  | session {stage : Stage I} (id : I) (m : StoreMeta)
      (hstage : stage = .readMeta id (some m) ∨ stage = .applyPolicy id (some m)) :
      Planned x stage (.waits (.sessionKey id m.press))
  | free {stage : Stage I} (id : I) (m : StoreMeta)
      (hstage : stage = .readMeta id (some m) ∨ stage = .applyPolicy id (some m))
      (hfree : m.press = false) : Planned x stage (.waits (.freeKey id m))
  | setPolicy (id : I) (m : StoreMeta) (policy : StorePolicy) :
      Planned x (.readMeta id (some m))
        (.writes id .setPolicy { m with policy := some policy } none)
  | key (id : I) (copy : Option StoreMeta) (broken : Bool) :
      Planned x (.applyPolicy id copy)
        (.waits (.key id copy ((copy.map StoreMeta.press).getD broken)))
  | again (id : I) (press : Bool) : Planned x (.key id none press) (.waits (.key id none true))
  | derived (id : I) (copy : Option StoreMeta) (press asked : Bool) (now : String) :
      Planned x (.key id copy press)
        (.writes id .openWithKey (nextMeta copy press asked now) (some (.writeMeta id press)))
  | asked (id : I) (copy : StoreMeta) :
      Planned x (.freeKey id copy)
        (.writes id .tryOpen { copy with asked := true } (some (.writeMeta id false)))
  | joins {stage : Stage I} {id : I} {press : Bool} (hready : Ready stage id press) :
      Planned x stage (.joins id)
  | begins {stage : Stage I} {id : I} {press : Bool} (hready : Ready stage id press) :
      Planned x stage (.begins id press)
  | opened (id : I) (press : Bool) (hok : x.ok = true) :
      Planned x (.openManager id press) (.opened id)

section

variable {x : Outcome I} {stage : Stage I}

theorem planned_attach {id : I} {press : Bool} (hready : Ready stage id press) :
    Planned x stage (s.attach id press) := by
  unfold attach
  split
  · exact .joins hready
  · exact .begins hready

/-- What a try with a known key plans. -/
theorem planned_tryKey {id : I} {copy : Option StoreMeta}
    (hstage : stage = .readMeta id copy ∨ stage = .applyPolicy id copy) (unlocked : Bool) :
    Planned x stage (tryKey id copy unlocked) := by
  cases copy with
  | none => exact .ends stage
  | some m =>
    simp only [tryKey]
    split
    · exact .session id m hstage
    · split
      · exact .ends stage
      · rename_i hfree
        simp only [Bool.or_eq_true, not_or, Bool.not_eq_true] at hfree
        exact .free id m hstage hfree.1

end

/-- What a call plans, at each await. -/
theorem planned (c : Call B I) (x : Outcome I) : Planned x c.stage (s.plan c x) := by
  obtain ⟨b, op, epoch, stage⟩ := c
  simp only [plan]
  -- stage by stage, as `plan` goes through them
  cases stage with
  | identify known =>
    cases known with
    | some id => exact .known id
    | none =>
      dsimp only
      split
      · exact .learns x.id
      · exact .ends _
  | readMeta id copy =>
    dsimp only
    split
    · cases op with
      | tryOpen =>
        dsimp only
        split
        · exact planned_tryKey (.inl rfl) true
        · exact .policy id copy
      | openWithKey broken => exact .policy id copy
      | setPolicy policy =>
        cases copy with
        | none => exact .ends _
        | some m =>
          dsimp only
          split
          · exact .setPolicy id m policy
          · exact .ends _
    · exact .ends _
  | applyPolicy id copy =>
    dsimp only
    split
    · cases op with
      | tryOpen => exact planned_tryKey (.inr rfl) x.unlocked
      | openWithKey broken => exact .key id copy broken
      | setPolicy policy => exact .ends _
    · exact .ends _
  | key id copy press =>
    dsimp only
    split
    · split
      · split
        · exact .derived id copy press x.asked x.now
        · exact .ends _
      · -- nothing to write, so a meta was read
        rename_i hsame
        cases copy with
        | none => exact absurd (fun h => by cases h) hsame
        | some m => exact planned_attach (.key id m press)
    · split
      · rename_i hnew
        simp only [Bool.and_eq_true, Option.isNone_iff_eq_none] at hnew
        obtain ⟨⟨rfl, -⟩, -⟩ := hnew
        exact .again id press
      · exact .ends _
  | sessionKey id press =>
    dsimp only
    split
    · exact planned_attach (.sessionKey id press)
    · exact .ends _
  | freeKey id copy =>
    dsimp only
    split
    · split
      · split
        · exact .asked id copy
        · exact .ends _
      · exact planned_attach (.freeKey id copy)
    · exact .ends _
  | writeMeta id press =>
    dsimp only
    split
    · exact planned_attach (.writeMeta id press)
    · exact .ends _
  | openManager id press =>
    dsimp only
    split
    · exact .opened id press ‹_›
    · exact .ends _

/-- Only the end of a manager's opening plans to enter one. -/
theorem plan_opened {c : Call B I} {x : Outcome I} {id : I} (h : s.plan c x = .opened id) :
    (∃ press, c.stage = .openManager id press) ∧ x.ok = true := by
  have hplan := planned (s := s) c x
  rw [h] at hplan
  generalize hstage : c.stage = stage at hplan
  cases hplan with
  | opened id press hok => exact ⟨⟨press, rfl⟩, hok⟩

/-- Only the end of an opening makes a manager. -/
theorem perform_managers (i : Nat) (c : Call B I) {a : Action I} (ha : ∀ id, a ≠ .opened id) :
    SameManagers s (s.perform i c a) ∨
      ∃ t id, SameManagers s t ∧ SameManagers (t.join c id) (s.perform i c a) := by
  cases a with
  | ends => exact .inl (same_finish s i)
  | waits stage => exact .inl (same_wait s i stage)
  | learns id asked =>
    have hlearn := same_learn s c id asked
    simp only [perform]
    split
    · exact .inr ⟨_, id, hlearn, same_finish _ i⟩
    · exact .inl hlearn
  | joins id => exact .inr ⟨s, id, ⟨rfl, rfl, rfl, rfl⟩, same_finish _ i⟩
  | begins id press => exact .inl ⟨rfl, rfl, rfl, rfl⟩
  | opened id => exact absurd rfl (ha id)
  | writes id writer after next =>
    cases next with
    | none => exact .inl ⟨rfl, rfl, rfl, rfl⟩
    | some stage => exact .inl ⟨rfl, rfl, rfl, rfl⟩

theorem Current.perform (h : s.Current) (i : Nat) (c : Call B I) (a : Action I) :
    (s.perform i c a).Current := by
  by_cases ha : ∃ id, a = .opened id
  · obtain ⟨id, rfl⟩ := ha
    exact (same_finish _ i).current (h.enter c id)
  · rcases perform_managers i c fun id he => ha ⟨id, he⟩ with hsame | ⟨t, id, hsame, hjoin⟩
    · exact hsame.current h
    · exact hjoin.current ((hsame.current h).join c id)

theorem Current.step (h : s.Current) (e : Event B I) : (s.step e).Current := by
  cases e with
  | start b op => exact h
  | resume i x =>
    simp only [Stores.step, resume]
    split
    · exact h
    · exact h.perform i _ _
  | touch b unlocked =>
    cases unlocked with
    | true => exact h
    | false => exact h.close b
  | reap b expired =>
    cases expired with
    | true => exact h.close b
    | false => exact h
  | close b => exact h.close b
  | lockNow b => exact h.closes _

/-- A call that goes on keeps one manager a store exactly when none is open yet. -/
theorem OneManager.resume_iff (hcur : s.Current) (h : s.OneManager) (i : Nat) (x : Outcome I) :
    (s.resume i x).OneManager ↔ s.OpensOnce (.resume i x) := by
  unfold resume
  cases hc : s.calls[i]? with
  | none =>
    refine iff_of_true h fun c hc' => ?_
    rw [hc] at hc'
    cases hc'
  | some c =>
    -- only a plan that opens makes a manager
    by_cases ha : ∃ id, s.plan c x = .opened id
    · obtain ⟨id, ha⟩ := ha
      obtain ⟨⟨press, hstage⟩, hok⟩ := plan_opened ha
      show (s.perform i c (s.plan c x)).OneManager ↔ _
      rw [ha]
      refine ((same_finish _ i).one_iff.trans (one_enter_iff hcur h c id)).trans ⟨?_, ?_⟩
      · intro hnone c' hc' id' press' hstage' _
        rw [hc] at hc'
        cases hc'
        rw [hstage] at hstage'
        cases hstage'
        exact hnone
      · exact fun hcond => hcond c hc id press hstage hok
    · refine iff_of_true ?_ fun c' hc' id press hstage hok => absurd ?_ ha
      · rcases perform_managers i c fun id he => ha ⟨id, he⟩ with hsame | ⟨t, id, hsame, hjoin⟩
        · exact hsame.one_iff.mpr h
        · exact hjoin.one_iff.mpr ((one_join_iff c id).mpr (hsame.one_iff.mpr h))
      · rw [hc] at hc'
        cases hc'
        exact ⟨id, by simp [plan, hstage, hok]⟩

theorem OneManager.step_iff (hcur : s.Current) (h : s.OneManager) (e : Event B I) :
    (s.step e).OneManager ↔ s.OpensOnce e := by
  cases e with
  | start b op => exact iff_of_true h trivial
  | resume i x => exact h.resume_iff hcur i x
  | touch b unlocked =>
    cases unlocked with
    | true => exact iff_of_true h trivial
    | false => exact iff_of_true (h.close b) trivial
  | reap b expired =>
    cases expired with
    | true => exact iff_of_true (h.close b) trivial
    | false => exact iff_of_true h trivial
  | close b => exact iff_of_true (h.close b) trivial
  | lockNow b => exact iff_of_true (h.closes _) trivial

theorem current_started (metas : I → Option StoreMeta) :
    (started metas : Stores B I).Current :=
  ⟨fun _ _ ho => (by cases ho), fun _ hm => (by cases hm)⟩

end Stores

/-- All along a run a store has one manager, and every other one made is locked, exactly when no
manager's opening ends on a store that is open. -/
theorem opens_share_a_manager_iff (metas : I → Option StoreMeta) (history : List (Stores.Event B I)) :
    (∀ past, past <+: history → (Stores.run metas past).OneManager) ↔
      ∀ past e, past ++ [e] <+: history → (Stores.run metas past).OpensOnce e :=
  holds_along_iff (Stores.current_started metas) (fun _ e h => h.step e)
    ⟨fun _ _ hm => (by cases hm), fun _ hr => (by cases hr)⟩
    (fun _ e hcur h => h.step_iff hcur e) history

/-- All goes well: the key is held, no press is asked, the id is 0. -/
def goesWell : Outcome Nat := ⟨true, false, 0, true, false, true, ""⟩

/-- Two backends of one backup open their store at once: a manager is made for each, and the
first is dropped unlocked. -/
theorem two_opens_two_managers :
    ¬ ∀ past, past <+: [Stores.Event.start true .tryOpen, .start false .tryOpen,
        .resume 0 goesWell, .resume 1 goesWell, .resume 0 goesWell, .resume 1 goesWell,
        .resume 0 goesWell, .resume 1 goesWell, .resume 0 goesWell, .resume 0 goesWell] →
      (Stores.run (fun _ => some ⟨false, false, "", none⟩) past).OneManager := by
  intro h
  obtain ⟨hmade, -⟩ := h _ (List.prefix_refl _)
  obtain ⟨held, hopen, hmanager⟩ := hmade 0 0 rfl (by decide)
  cases hopen
  cases hmanager

end OkRn.Passwords
