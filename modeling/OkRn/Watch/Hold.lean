/-
OkRn/Watch/Hold.lean

The Hold of a notification, from the tap to the key.

A tap goes to the running JavaScript if its last heartbeat is young enough, else
into the native store.  A watch takes the stored request when it starts, and
keeps what it is asked for in a variable of its own, which goes with it; it tries
every few seconds until a try ends well.

* a tap taken for a living side finds no watch there;
* a watch that goes takes the request with it;
* a try begun before the tap ends after it and clears the request.

A tap is kept exactly in the runs where none of these happens
(`tapped_hold_is_kept`).

`tap_after_stop_is_dropped` is the shortest run that loses one: a tap soon after the
watch was stopped, while its heartbeat is still young.  The condition of a step is
`WatchedWhileWanted`; that it is exact is proved event by event (`kept_step`) and lifted
to runs by `Lib/Along.lean`.
-/
import OkRn.Lib.Along

namespace OkRn.Watch.Hold

/-! ### The key -/

/-- The budgets of the key, by id. -/
structure Key where
  live : List Nat
  held : List Nat

/-- The key puts a live budget on hold. -/
def Key.hold (id : Nat) (k : Key) : Key :=
  if id ∈ k.live then { k with held := id :: k.held } else k

/-! ### A try -/

/-- What a try has read, and what became of it. -/
structure Reading where
  onHold : List Nat
  live : List Nat
  heldBy : List Nat
  ended : List Nat

/-- Every budget it read was on hold, held by it or ended. -/
def Reading.Complete (r : Reading) : Prop :=
  ∀ id ∈ r.live, id ∈ r.onHold ∨ id ∈ r.heldBy ∨ id ∈ r.ended

instance (r : Reading) : Decidable r.Complete :=
  inferInstanceAs (Decidable (∀ id ∈ r.live, id ∈ r.onHold ∨ id ∈ r.heldBy ∨ id ∈ r.ended))

/-- What `holdAll` waits for. -/
inductive Await
  | opening
  | state
  | budgets
  | holding (ids : List Nat)

/-- A `holdAll` on its way: the watch it belongs to, and how many taps came before it. -/
structure Try where
  watch : Nat
  began : Nat
  awaits : Await
  seen : Reading

/-- A `holdAll` that came to its end. -/
structure Done where
  began : Nat
  seen : Reading

namespace Try

/-- `holdAll` from its start. -/
def begin (watch began : Nat) : Try := ⟨watch, began, .opening, ⟨[], [], [], []⟩⟩

/-- The answer `holdAll` waited for has come. -/
def next (k : Key) (t : Try) : Try :=
  match t.awaits with
  | .opening => { t with awaits := .state }
  | .state => { t with awaits := .budgets, seen := { t.seen with onHold := k.held } }
  | .budgets =>
      { t with
        awaits := .holding (k.live.filter fun id => id ∉ t.seen.onHold)
        seen := { t.seen with live := k.live } }
  | .holding [] => t
  | .holding (id :: ids) =>
      { t with
        awaits := .holding ids
        seen :=
          if id ∈ k.live then { t.seen with heldBy := id :: t.seen.heldBy }
          else { t.seen with ended := id :: t.seen.ended } }

/-- What the answer did at the key. -/
def works (k : Key) (t : Try) : Key :=
  match t.awaits with
  | .holding (id :: _) => k.hold id
  | _ => k

/-- What is read and not seen to yet is still to be held. -/
def Sound (t : Try) : Prop :=
  match t.awaits with
  | .holding ids =>
      ∀ id ∈ t.seen.live, id ∈ ids ∨ id ∈ t.seen.onHold ∨ id ∈ t.seen.heldBy ∨ id ∈ t.seen.ended
  | _ => t.seen.live = []

theorem sound_begin (watch began : Nat) : (begin watch began).Sound := rfl

theorem sound_next {k : Key} {t : Try} (h : t.Sound) : (t.next k).Sound := by
  obtain ⟨watch, began, awaits, seen⟩ := t
  cases awaits with
  | opening => exact h
  | state => exact h
  | budgets =>
    intro id hid
    by_cases hold : id ∈ seen.onHold
    · exact Or.inr (Or.inl hold)
    · exact Or.inl (List.mem_filter.mpr ⟨hid, by simpa using hold⟩)
  | holding ids =>
    cases ids with
    | nil => exact h
    | cons a ids =>
      -- the budget at the front is held now, or has ended
      intro id hid
      by_cases ha : a ∈ k.live
      all_goals
        simp only [next, ha, if_true, if_false] at hid ⊢
        rcases h id hid with hids | hon | hby | hend
        · rcases List.mem_cons.mp hids with rfl | hids
          · simp
          · exact Or.inl hids
        · exact Or.inr (Or.inl hon)
        · simp [hby]
        · simp [hend]

/-- A try that ends well has looked at every chain. -/
theorem Sound.complete {t : Try} (h : t.Sound) (hend : t.awaits = .holding []) :
    t.seen.Complete := by
  intro id hid
  unfold Sound at h
  rw [hend] at h
  simpa using h id hid

@[simp] theorem next_began (k : Key) (t : Try) : (t.next k).began = t.began := by
  obtain ⟨watch, began, awaits, seen⟩ := t
  rcases awaits with _ | _ | _ | ids
  · rfl
  · rfl
  · rfl
  · cases ids <;> rfl

end Try

/-! ### The phone -/

/-- A running watch, and its `holdWanted`. -/
structure Running where
  id : Nat
  holdWanted : Bool

/-- The phone, its JavaScript side and the key. -/
structure World where
  now : Int
  lastBeat : Int
  /-- A JavaScript side is there. -/
  js : Bool
  /-- `holdPending` in the native store. -/
  stored : Bool
  watch : Option Running
  watches : Nat
  tries : List Try
  key : Key
  taps : Nat
  done : List Done

/-- What may happen, and when. -/
inductive Event
  | tap
  | launch
  | start
  | stop
  | reload
  | kill
  | clock (now : Int)
  | beat
  /-- The timer of the watch. -/
  | retry
  /-- A try gets the answer it waits for, or its call fails. -/
  | answer (i : Nat) (ok : Bool)
  /-- Budgets open, end, are put on hold and go on. -/
  | budgets (k : Key)

/-- `JS_ALIVE_MS`. -/
def jsAliveMs : Int := 20000

namespace World

/-- Native takes the JavaScript side for running. -/
def jsAlive (w : World) : Bool := w.js && decide (w.now - w.lastBeat < jsAliveMs)

/-- The running watch wants a hold. -/
def wanted (w : World) : Bool := w.watch.any (·.holdWanted)

/-- `tryHold`. -/
def tryHold (w : World) : World :=
  match w.watch with
  | some r =>
      if r.holdWanted then { w with tries := w.tries ++ [Try.begin r.id w.taps] } else w
  | none => w

/-- `emitOnHoldRequested`, as the running watch hears it. -/
def requestHold (w : World) : World :=
  match w.watch with
  | some r => tryHold { w with watch := some { r with holdWanted := true } }
  | none => w

/-- `HoldReceiver.onReceive`. -/
def tap (w : World) : World :=
  if w.jsAlive then requestHold { w with taps := w.taps + 1 }
  else { w with taps := w.taps + 1, stored := true }

/-- The effect of `useEdgeBackgroundSync` runs. -/
def start (w : World) : World :=
  if w.js && w.watch.isNone then
    tryHold { w with
      watch := some ⟨w.watches, w.stored⟩
      watches := w.watches + 1
      stored := false
      lastBeat := w.now }
  else w

/-- The effect of `useEdgeBackgroundSync` is cleaned up. -/
def stop (w : World) : World := { w with watch := none }

/-- A reload ends the JavaScript side's watch and tries. -/
def reload (w : World) : World := { w with watch := none, tries := [] }

/-- So does a kill, which takes the process too. -/
def kill (w : World) : World := { w with js := false, lastBeat := 0, watch := none, tries := [] }

/-- The end of a try that went well: `holdWanted = false`, in its own watch. -/
def finish (i : Nat) (t : Try) (w : World) : World :=
  { w with
    tries := w.tries.eraseIdx i
    done := w.done ++ [⟨t.began, t.seen⟩]
    watch := w.watch.map fun r => if r.id = t.watch then { r with holdWanted := false } else r }

/-- The next answer of `holdAll`. -/
def answer (i : Nat) (ok : Bool) (w : World) : World :=
  match w.tries[i]? with
  | none => w
  | some t =>
      match t.awaits with
      | .holding [] => w.finish i t
      | _ =>
          if ok then { w with tries := w.tries.set i (t.next w.key), key := t.works w.key }
          else { w with tries := w.tries.eraseIdx i }

/-- One event. -/
def step (w : World) : Event → World
  | .tap => w.tap
  | .launch => { w with js := true }
  | .start => w.start
  | .stop => w.stop
  | .reload => w.reload
  | .kill => w.kill
  | .clock now => { w with now := now }
  | .beat => if w.watch.isSome then { w with lastBeat := w.now } else w
  | .retry => w.tryHold
  | .answer i ok => w.answer i ok
  | .budgets k => { w with key := k }

/-- A phone with no watch yet. -/
def init (now : Int) (k : Key) : World := ⟨now, 0, false, false, none, 0, [], k, 0, []⟩

/-! ### What becomes of a tap -/

/-- A request waits in the native store or in the running watch. -/
def pending (w : World) : Bool := w.stored || w.wanted

/-- A try begun after the tap read the live budgets, and each was seen to. -/
def CarriedOut (w : World) (tap : Nat) : Prop :=
  ∃ d ∈ w.done, tap < d.began ∧ d.seen.Complete

/-- Every tap is pending or carried out. -/
def Kept (w : World) : Prop := ∀ tap < w.taps, w.pending = true ∨ w.CarriedOut tap

/-- No tap is left to carry out. -/
def Served (w : World) : Prop := ∀ tap < w.taps, w.CarriedOut tap

instance (w : World) (tap : Nat) : Decidable (w.CarriedOut tap) :=
  inferInstanceAs (Decidable (∃ d ∈ w.done, tap < d.began ∧ d.seen.Complete))

instance (w : World) : Decidable w.Served :=
  inferInstanceAs (Decidable (∀ tap < w.taps, w.CarriedOut tap))

instance (w : World) : Decidable w.Kept :=
  inferInstanceAs (Decidable (∀ tap < w.taps, w.pending = true ∨ w.CarriedOut tap))

/-- No tap for a side with no watch, no watch that goes with the only request, and no try that ends
well before the last tap was known to it. -/
def WatchedWhileWanted (w : World) : Event → Prop
  | .tap => w.jsAlive = true → w.watch.isSome = true ∨ w.stored = true
  | .stop | .reload | .kill => w.wanted = true → w.stored = true ∨ w.Served
  | .answer i _ => ∀ t ∈ w.tries[i]?, t.awaits = .holding [] →
      (∃ r ∈ w.watch, r.id = t.watch) → w.stored = true ∨ w.Served ∨ t.began = w.taps
  | _ => True

/-- The tries are sound, and none knows of taps to come. -/
structure Inv (w : World) : Prop where
  tries : ∀ t ∈ w.tries, t.Sound ∧ t.began ≤ w.taps
  done : ∀ d ∈ w.done, d.began ≤ w.taps ∧ d.seen.Complete

/-! ### The invariant -/

theorem inv_init (now : Int) (k : Key) : (init now k).Inv where
  tries := by simp [init]
  done := by simp [init]

theorem Inv.tryHold {w : World} (h : w.Inv) : w.tryHold.Inv := by
  unfold World.tryHold
  split
  · split
    · refine { h with tries := ?_ }
      intro t ht
      rcases List.mem_append.mp ht with ht | ht
      · exact h.tries t ht
      · rw [List.mem_singleton.mp ht]
        exact ⟨Try.sound_begin _ _, Nat.le_refl _⟩
    · exact h
  · exact h

theorem Inv.moreTaps {w : World} (h : w.Inv) : Inv { w with taps := w.taps + 1 } where
  tries := fun t ht => ⟨(h.tries t ht).1, Nat.le_succ_of_le (h.tries t ht).2⟩
  done := fun d hd => ⟨Nat.le_succ_of_le (h.done d hd).1, (h.done d hd).2⟩

theorem Inv.tap {w : World} (h : w.Inv) : w.tap.Inv := by
  unfold World.tap
  split
  · unfold requestHold
    split
    · exact Inv.tryHold { h.moreTaps with }
    · exact h.moreTaps
  · exact { h.moreTaps with }

theorem Inv.start {w : World} (h : w.Inv) : w.start.Inv := by
  unfold World.start
  split
  · exact Inv.tryHold { h with }
  · exact h

theorem Inv.finish {w : World} (h : w.Inv) {i : Nat} {t : Try} (ht : t ∈ w.tries)
    (hend : t.awaits = .holding []) : (w.finish i t).Inv where
  tries := fun u hu => h.tries u (List.mem_of_mem_eraseIdx hu)
  done := by
    intro d hd
    rcases List.mem_append.mp hd with hd | hd
    · exact h.done d hd
    · rw [List.mem_singleton.mp hd]
      exact ⟨(h.tries t ht).2, (h.tries t ht).1.complete hend⟩

/-- An answer for a try that is not at its end changes nothing but the try and the key. -/
theorem answer_cases (i : Nat) (ok : Bool) (w : World) :
    (w.answer i ok = w ∧ w.tries[i]? = none) ∨
    (∃ t, w.tries[i]? = some t ∧ t.awaits = .holding [] ∧ w.answer i ok = w.finish i t) ∨
    (∃ t, w.tries[i]? = some t ∧ t.awaits ≠ .holding [] ∧ ∃ tries k,
      (tries = w.tries.set i (t.next w.key) ∨ tries = w.tries.eraseIdx i) ∧
      w.answer i ok = { w with tries := tries, key := k }) := by
  unfold answer
  cases ht : w.tries[i]? with
  | none => exact Or.inl ⟨rfl, rfl⟩
  | some t =>
    by_cases hend : t.awaits = .holding []
    · exact Or.inr (Or.inl ⟨t, rfl, hend, by simp only [hend]⟩)
    · refine Or.inr (Or.inr ⟨t, rfl, hend, ?_⟩)
      dsimp only
      split
      · exact absurd ‹_› hend
      · cases ok
        · exact ⟨_, _, Or.inr rfl, rfl⟩
        · exact ⟨_, _, Or.inl rfl, rfl⟩

theorem Inv.answer {w : World} (h : w.Inv) (i : Nat) (ok : Bool) : (w.answer i ok).Inv := by
  rcases answer_cases i ok w with ⟨heq, -⟩ | ⟨t, ht, hend, heq⟩ | ⟨t, ht, -, tries, k, htries, heq⟩
  · rw [heq]
    exact h
  · rw [heq]
    exact h.finish (List.mem_of_getElem? ht) hend
  · rw [heq]
    refine { h with tries := ?_ }
    intro u hu
    rcases htries with rfl | rfl
    · rcases List.mem_or_eq_of_mem_set hu with hu | rfl
      · exact h.tries u hu
      · have hold := h.tries t (List.mem_of_getElem? ht)
        exact ⟨Try.sound_next hold.1, by simpa using hold.2⟩
    · exact h.tries u (List.mem_of_mem_eraseIdx hu)

/-- Every event keeps the invariant. -/
theorem Inv.step {w : World} (e : Event) (h : w.Inv) : (w.step e).Inv := by
  cases e with
  | tap => exact h.tap
  | launch => exact { h with }
  | start => exact h.start
  | stop => exact { h with }
  | reload => exact { h with tries := by simp [World.step, reload] }
  | kill => exact { h with tries := by simp [World.step, kill] }
  | clock now => exact { h with }
  | beat =>
    show (if w.watch.isSome then { w with lastBeat := w.now } else w).Inv
    split
    · exact { h with }
    · exact h
  | retry => exact h.tryHold
  | answer i ok => exact h.answer i ok
  | budgets k => exact { h with }

/-! ### What each event keeps -/

/-- A tap is kept where it is pending or was served. -/
theorem kept_iff {w : World} : w.Kept ↔ w.pending = true ∨ w.Served := by
  constructor
  · intro h
    by_cases hp : w.pending = true
    · exact Or.inl hp
    · exact Or.inr fun tap htap => (h tap htap).resolve_left hp
  · rintro (hp | hs) tap htap
    · exact Or.inl hp
    · exact Or.inr (hs tap htap)

/-- Only what is pending, the taps and what was done count for it. -/
theorem kept_congr {w v : World} (hp : v.pending = w.pending) (ht : v.taps = w.taps)
    (hd : v.done = w.done) : v.Kept ↔ w.Kept := by
  unfold Kept CarriedOut
  rw [hp, ht, hd]

/-- A try that begins clears nothing. -/
@[simp] theorem tryHold_pending (w : World) : w.tryHold.pending = w.pending := by
  unfold tryHold
  split
  · split <;> rfl
  · rfl

@[simp] theorem tryHold_taps (w : World) : w.tryHold.taps = w.taps := by
  unfold tryHold
  split
  · split <;> rfl
  · rfl

@[simp] theorem tryHold_done (w : World) : w.tryHold.done = w.done := by
  unfold tryHold
  split
  · split <;> rfl
  · rfl

/-- The request of the store goes over to the watch. -/
theorem start_pending (w : World) : w.start.pending = w.pending := by
  unfold start
  split
  · rename_i hc
    rw [tryHold_pending]
    have hnone : w.watch = none := by simpa using (Bool.and_eq_true_iff.mp hc).2
    simp [pending, wanted, hnone]
  · rfl

/-- A watch that starts loses nothing. -/
theorem start_kept {w : World} : w.start.Kept ↔ w.Kept := by
  refine kept_congr (start_pending w) ?_ ?_ <;>
  · unfold start
    split
    · simp
    · rfl

/-- A tap that is not pending is not carried out: no try began after it. -/
theorem tap_kept {w : World} (h : w.Inv) : w.tap.Kept ↔ w.tap.pending = true := by
  have htaps : w.tap.taps = w.taps + 1 := by
    unfold tap requestHold
    split
    · split <;> simp
    · rfl
  have hdone : w.tap.done = w.done := by
    unfold tap requestHold
    split
    · split <;> simp
    · rfl
  constructor
  · intro hk
    rcases hk w.taps (by rw [htaps]; exact Nat.lt_succ_self _) with hp | ⟨d, hd, hlt, -⟩
    · exact hp
    · rw [hdone] at hd
      exact absurd hlt (Nat.not_lt.mpr (h.done d hd).1)
  · exact fun hp => kept_iff.mpr (Or.inl hp)

/-- The running watch hears the request. -/
theorem requestHold_pending (w : World) :
    w.requestHold.pending = (w.stored || w.watch.isSome) := by
  unfold requestHold
  split
  · rename_i r hw
    rw [tryHold_pending]
    simp [pending, wanted, hw]
  · rename_i hw
    simp [pending, wanted, hw]

theorem tap_pending {w : World} :
    w.tap.pending = true ↔ (w.jsAlive = true → w.watch.isSome = true ∨ w.stored = true) := by
  unfold tap
  cases ha : w.jsAlive with
  | false => simp [pending]
  | true =>
    rw [if_pos rfl, requestHold_pending]
    simp only [Bool.or_eq_true, forall_const]
    exact or_comm

/-- The watch goes: what is left is the store. -/
theorem gone_kept {w v : World} (hk : w.Kept) (hs : v.stored = w.stored) (hw : v.watch = none)
    (ht : v.taps = w.taps) (hd : v.done = w.done) :
    v.Kept ↔ (w.wanted = true → w.stored = true ∨ w.Served) := by
  have hserved : v.Served ↔ w.Served := by
    unfold Served CarriedOut
    rw [ht, hd]
  have hpending : v.pending = w.stored := by simp [pending, wanted, hs, hw]
  rw [kept_iff, hserved, hpending]
  constructor
  · exact fun h _ => h
  · intro h
    rcases kept_iff.mp hk with hp | hs
    · rcases Bool.or_eq_true_iff.mp hp with hp | hp
      · exact Or.inl hp
      · exact h hp
    · exact Or.inr hs

/-- A try that ends well serves the taps it began after. -/
theorem finish_served {w : World} (h : w.Inv) {i : Nat} {t : Try} (ht : t ∈ w.tries)
    (hend : t.awaits = .holding []) :
    (w.finish i t).Served ↔ w.Served ∨ t.began = w.taps := by
  have hsound := (h.tries t ht).1.complete hend
  have hbegan := (h.tries t ht).2
  constructor
  · intro hs
    by_cases htaps : t.began = w.taps
    · exact Or.inr htaps
    · -- the last tap is carried out by an earlier try, which then carried out them all
      refine Or.inl fun tap htap => ?_
      obtain ⟨d, hd, hlt, hc⟩ := hs (w.taps - 1) (by show w.taps - 1 < w.taps; omega)
      rcases List.mem_append.mp hd with hd | hd
      · exact ⟨d, hd, by omega, hc⟩
      · rw [List.mem_singleton.mp hd] at hlt
        dsimp only at hlt
        omega
  · rintro (hs | hb) tap htap
    · obtain ⟨d, hd, hlt, hc⟩ := hs tap htap
      exact ⟨d, List.mem_append_left _ hd, hlt, hc⟩
    · refine ⟨⟨t.began, t.seen⟩, List.mem_append_right _ (List.mem_singleton.mpr rfl), ?_, hsound⟩
      rw [hb]
      exact htap

/-- When a try that ends keeps the taps. -/
theorem finish_kept {w : World} (h : w.Inv) (hk : w.Kept) {i : Nat} {t : Try} (ht : t ∈ w.tries)
    (hend : t.awaits = .holding []) :
    (w.finish i t).Kept ↔
      ((∃ r ∈ w.watch, r.id = t.watch) → w.stored = true ∨ w.Served ∨ t.began = w.taps) := by
  rw [kept_iff, finish_served h ht hend]
  by_cases hown : ∃ r ∈ w.watch, r.id = t.watch
  · obtain ⟨r, hr, hid⟩ := hown
    have hpending : (w.finish i t).pending = w.stored := by
      simp [pending, wanted, finish, Option.mem_def.mp hr, hid]
    rw [hpending]
    exact ⟨fun hx _ => hx, fun hx => hx ⟨r, hr, hid⟩⟩
  · have hwatch : (w.finish i t).watch = w.watch := by
      cases hw : w.watch with
      | none => simp [finish, hw]
      | some r =>
        have hne : r.id ≠ t.watch := fun heq => hown ⟨r, hw, heq⟩
        simp [finish, hw, hne]
    have hpending : (w.finish i t).pending = w.pending := by
      unfold pending wanted
      rw [hwatch]
      rfl
    rw [hpending]
    refine ⟨fun _ hx => absurd hx hown, fun _ => ?_⟩
    rcases kept_iff.mp hk with hp | hs
    · exact Or.inl hp
    · exact Or.inr (Or.inl hs)

theorem answer_kept {w : World} (h : w.Inv) (hk : w.Kept) (i : Nat) (ok : Bool) :
    (w.answer i ok).Kept ↔ w.WatchedWhileWanted (.answer i ok) := by
  rcases answer_cases i ok w with ⟨heq, hnone⟩ | ⟨t, ht, hend, heq⟩ |
    ⟨t, ht, hne, tries, k, -, heq⟩
  · rw [heq]
    exact ⟨fun _ t ht => absurd ht (by simp [hnone]), fun _ => hk⟩
  · rw [heq, finish_kept h hk (List.mem_of_getElem? ht) hend]
    constructor
    · intro hx u hu _
      rw [ht] at hu
      obtain rfl := Option.some.inj hu
      exact hx
    · exact fun hx => hx t ht hend
  · rw [heq]
    refine ⟨fun _ u hu hend => ?_, fun _ => (kept_congr rfl rfl rfl).mpr hk⟩
    rw [ht] at hu
    obtain rfl := Option.some.inj hu
    exact absurd hend hne

theorem kept_step {w : World} (e : Event) (h : w.Inv) (hk : w.Kept) :
    (w.step e).Kept ↔ w.WatchedWhileWanted e := by
  cases e with
  | tap => exact (tap_kept h).trans tap_pending
  | launch => exact iff_of_true ((kept_congr rfl rfl rfl).mpr hk) trivial
  | start => exact iff_of_true (start_kept.mpr hk) trivial
  | stop => exact gone_kept hk rfl rfl rfl rfl
  | reload => exact gone_kept hk rfl rfl rfl rfl
  | kill => exact gone_kept hk rfl rfl rfl rfl
  | clock now => exact iff_of_true ((kept_congr rfl rfl rfl).mpr hk) trivial
  | beat =>
    refine iff_of_true ?_ trivial
    show (if w.watch.isSome then { w with lastBeat := w.now } else w).Kept
    split
    · exact (kept_congr rfl rfl rfl).mpr hk
    · exact hk
  | retry => exact
    iff_of_true ((kept_congr (tryHold_pending w) (tryHold_taps w) (tryHold_done w)).mpr hk) trivial
  | answer i ok => exact answer_kept h hk i ok
  | budgets k => exact iff_of_true ((kept_congr rfl rfl rfl).mpr hk) trivial

/-! ### A run -/

/-- All along a run every tap is pending or carried out by a try begun after it, exactly if
no event of the run left a tap unwatched. -/
theorem tapped_hold_is_kept (now : Int) (k : Key) (events : List Event) :
    (∀ p, p <+: events → (p.foldl step (init now k)).Kept) ↔
      ∀ p e, p ++ [e] <+: events → WatchedWhileWanted (p.foldl step (init now k)) e :=
  holds_along_iff (inv_init now k) (fun _ e h => h.step e)
    (fun _ htap => absurd htap (Nat.not_lt_zero _)) (fun _ e h hk => kept_step e h hk) events

/-- The watch stops, and a tap comes before the last beat is old. -/
theorem tap_after_stop_is_dropped :
    ¬ ∀ (now : Int) (k : Key) (events p : List Event), p <+: events →
      (p.foldl step (init now k)).Kept := by
  intro h
  have hlost := h 1000000 ⟨[7], []⟩ _
    [.launch, .start, .stop, .clock 1001000, .tap] (List.prefix_refl _)
  revert hlost
  decide

end World

end OkRn.Watch.Hold
