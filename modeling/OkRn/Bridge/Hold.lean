/-
OkRn/Bridge/Hold.lean

How long a computer's conversation holds the key's lane.

The bridge takes the lane for a computer's first write and gives it back when a
timer, set anew by every write and every report, runs out and the key, asked,
does not wait for a press.  The answer comes later, and acts on what is held then.

* `UntilQuiet` says what a conversation is promised: its lane is given back by the
  timer only in a quiet key, and each hold once;
* `Uncrossed` is the order of events: nothing is written or heard and no hold is given
  back between the timer and the answer, the answer is true when it comes, the bridge
  hears the key while a timer runs, and a hold is given back only when each report that
  waited for it has gone on.

Main results: `held_until_quiet`, and `released_in_mid_answer` for an answer that comes
after a report of the key.
-/
import OkRn.Lib.Along
import Mathlib.Data.List.Nodup

namespace OkRn.Bridge.Hold

/-- `COMPUTER_QUIET_MS`. -/
def computerQuietMs : Nat := 1500

/-- The hold in place, and when its timer was set, if it has not run out. -/
structure Held where
  no : Nat
  timer : Option Nat
  deriving DecidableEq

/-- A timer ran out and the key is asked: for which hold, and after how much traffic. -/
structure Question where
  hold : Nat
  traffic : Nat

/-- Why a hold was given back. -/
inductive Why
  /-- The quiet time of the hold ran out. -/
  | quiet (hold : Nat)
  | urgent
  | stopped
  deriving DecidableEq

/-- A hold was given back. -/
structure Release where
  no : Nat
  why : Why
  time : Nat
  lastTraffic : Option Nat
  press : Bool
  deriving DecidableEq

/-- A computer's write: the hold it waited for, and the one in place. -/
structure Write where
  waited : Nat
  held : Option Nat

/-- The clock, the lane's hold with its timer, the reports that wait for it, the questions to the
key, and what has been released. -/
structure World where
  now : Nat
  /-- The key waits for a press. -/
  press : Bool
  urgentWaiting : Bool
  /-- The bridge hears the key. -/
  bound : Bool
  /-- The promise of `holdForComputer`, by number. -/
  holding : Option Nat
  held : Option Held
  made : Nat
  /-- The reports on their way to the key, by the promise they wait for. -/
  waiting : List Nat
  questions : List Question
  /-- How many writes and reports there were, and when the last one was. -/
  traffic : Nat
  lastTraffic : Option Nat
  grants : List Nat
  releases : List Release
  writes : List Write

/-- What comes at the bridge: reports of both sides, the timer, the key's answers, the lane's urgent
callers. -/
inductive Event
  /-- A computer's report comes to wait for the key. -/
  | forward
  /-- The lane is the computer's. -/
  | granted
  /-- A report whose promise is resolved goes on. -/
  | write (i : Nat)
  /-- A report of the key. -/
  | report
  /-- The timer runs out. -/
  | fire
  /-- The key answers whether it waits for a press; a question that fails is a no. -/
  | answer (i : Nat) (waits : Bool)
  | urgent (waiting : Bool)
  | press (pending : Bool)
  | pass (ms : Nat)
  | stop

namespace World

/-- The quiet time begins anew. -/
def armRelease (w : World) : World :=
  { w with held := w.held.map fun h => { h with timer := some w.now } }

/-- The hold, if there is one, is given back. -/
def releaseHold (why : Why) (w : World) : World :=
  match w.held with
  | none => w
  | some h =>
      { w with
        held := none
        holding := none
        releases := ⟨h.no, why, w.now, w.lastTraffic, w.press⟩ :: w.releases }

/-- `holdForComputer`, up to the wait. -/
def holdForComputer (w : World) : World :=
  match w.holding with
  | some p => { w with waiting := w.waiting ++ [p] }
  | none =>
      { w with
        holding := some w.made
        made := w.made + 1
        waiting := w.waiting ++ [w.made] }

/-- `forward`, up to the wait for the lane. -/
def forward (w : World) : World :=
  let w := { w with bound := true }
  holdForComputer (if w.held.isSome && w.urgentWaiting then w.releaseHold .urgent else w)

/-- `conversation`. -/
def granted (w : World) : World :=
  match w.holding, w.held with
  | some p, none => { w with held := some ⟨p, some w.now⟩, grants := p :: w.grants }
  | _, _ => w

/-- The promise was resolved. -/
def ready (p : Nat) (w : World) : Bool := w.grants.contains p

/-- `forward`, after the wait. -/
def write (i : Nat) (w : World) : World :=
  match w.waiting[i]? with
  | none => w
  | some p =>
      if w.ready p then
        armRelease { w with
          waiting := w.waiting.eraseIdx i
          traffic := w.traffic + 1
          lastTraffic := some w.now
          writes := ⟨p, w.held.map (·.no)⟩ :: w.writes }
      else w

/-- The key's report, heard by the bridge or not. -/
def report (w : World) : World :=
  let w := { w with traffic := w.traffic + 1, lastTraffic := some w.now }
  if w.bound then w.armRelease else w

/-- The callback of the timer, up to its question. -/
def fire (w : World) : World :=
  match w.held with
  | some ⟨no, some t⟩ =>
      if t + computerQuietMs ≤ w.now then
        { w with
          held := some ⟨no, none⟩
          questions := w.questions ++ [⟨no, w.traffic⟩] }
      else w
  | _ => w

/-- The callback of the timer, after its question. -/
def answer (i : Nat) (waits : Bool) (w : World) : World :=
  match w.questions[i]? with
  | none => w
  | some q =>
      let w := { w with questions := w.questions.eraseIdx i }
      if waits then w.armRelease else w.releaseHold (.quiet q.hold)

/-- The bridge stops hearing the key and gives its hold back. -/
def stop (w : World) : World := releaseHold .stopped { w with bound := false }

/-- What an event does at the bridge. -/
def step (w : World) : Event → World
  | .forward => w.forward
  | .granted => w.granted
  | .write i => w.write i
  | .report => w.report
  | .fire => w.fire
  | .answer i waits => w.answer i waits
  | .urgent b => { w with urgentWaiting := b }
  | .press b => { w with press := b }
  | .pass ms => { w with now := w.now + ms }
  | .stop => w.stop

/-- A bridge that holds nothing. -/
def init : World :=
  ⟨0, false, false, false, none, none, 0, [], [], 0, none, [], [], []⟩

/-- The last write or report is a quiet time ago. -/
def Quiet (last : Option Nat) (time : Nat) : Prop := ∀ t ∈ last, t + computerQuietMs ≤ time

/-- A hold that its timer ended had been quiet, with no press pending, and was the timer's own; each
write was made under a hold; each hold is in place or was given back once, and one in place has a
timer set or a question open. -/
structure UntilQuiet (w : World) : Prop where
  quiet : ∀ r ∈ w.releases, ∀ hold, r.why = .quiet hold →
    hold = r.no ∧ Quiet r.lastTraffic r.time ∧ r.press = false
  writes : ∀ x ∈ w.writes, x.held.isSome = true
  once : (w.releases.map (·.no)).Nodup
  given : ∀ n ∈ w.grants, (w.held.map (·.no) = some n ∧ n ∉ w.releases.map (·.no)) ∨
    (w.held.map (·.no) ≠ some n ∧ n ∈ w.releases.map (·.no))
  ends : ∀ h ∈ w.held, h.timer.isSome = true ∨ ∃ q ∈ w.questions, q.hold = h.no

/-- Every report that waited for the hold in place has gone on. -/
def Gone (w : World) : Prop := ∀ h ∈ w.held, h.no ∉ w.waiting

/-- Nothing crosses a question.  Between the timer and a no there is no write, no report and no
release, and the no is true when it comes; the key is heard while a timer runs; and a hold is given
back when the reports that waited for it have gone on. -/
def Uncrossed (w : World) : Event → Prop
  | .report => w.bound = true ∨ ∀ h ∈ w.held, h.timer = none
  | .answer i waits => waits = false → w.held.isSome = true → ∀ q ∈ w.questions[i]?,
      q.hold ∉ w.releases.map (·.no) ∧ q.traffic = w.traffic ∧ w.press = false ∧ w.Gone
  | .forward => w.urgentWaiting = true → w.Gone
  | .stop => w.Gone
  | _ => True

/-- A timer was set after the last traffic, so that it runs out in a quiet key. -/
structure Inv (w : World) : Prop extends UntilQuiet w where
  last : ∀ t ∈ w.lastTraffic, t ≤ w.now
  timer : ∀ h ∈ w.held, ∀ s ∈ h.timer, ∀ t ∈ w.lastTraffic, t ≤ s
  asked : ∀ q ∈ w.questions, q.hold ∈ w.grants ∧ q.traffic ≤ w.traffic ∧
    (q.traffic = w.traffic → Quiet w.lastTraffic w.now)
  holds : ∀ h ∈ w.held, w.holding = some h.no ∧ h.no ∈ w.grants
  fresh : ∀ n ∈ w.grants, n < w.made
  wanted : ∀ p ∈ w.holding, p < w.made ∧ (w.held = none → p ∉ w.grants)
  released : ∀ n ∈ w.releases.map (·.no), n ∈ w.grants
  waits : ∀ p ∈ w.waiting, p ∉ w.releases.map (·.no)

variable {w : World}

theorem inv_init : init.Inv := by
  constructor
  · constructor <;> simp [init]
  all_goals simp [init]

/-! ### What the parts of a step keep -/

/-- The timer is another's, the hold the same. -/
theorem armRelease_held (w : World) :
    w.armRelease.held.map (·.no) = w.held.map (·.no) := by
  cases hh : w.held with
  | none => simp [armRelease, hh]
  | some h => simp [armRelease, hh]

/-- A new quiet time keeps the invariant. -/
theorem Inv.armRelease (h : w.Inv) : w.armRelease.Inv := by
  have hmem : ∀ x ∈ w.armRelease.held, ∃ y ∈ w.held, x = ⟨y.no, some w.now⟩ := by
    intro x hx
    obtain ⟨y, hy, rfl⟩ := Option.map_eq_some_iff.mp hx
    exact ⟨y, hy, rfl⟩
  refine { h with given := ?_, ends := ?_, timer := ?_, holds := ?_, wanted := ?_ }
  · rw [armRelease_held]
    exact h.given
  · intro x hx
    obtain ⟨y, -, rfl⟩ := hmem x hx
    exact Or.inl rfl
  · intro x hx s hs t ht
    obtain ⟨y, -, rfl⟩ := hmem x hx
    obtain rfl := Option.some.inj hs
    exact h.last t ht
  · intro x hx
    obtain ⟨y, hy, rfl⟩ := hmem x hx
    exact h.holds y hy
  · intro p hp
    refine ⟨(h.wanted p hp).1, fun hnone => (h.wanted p hp).2 ?_⟩
    exact Option.map_eq_none_iff.mp hnone

/-- A hold is given back; by its timer only in a quiet key. -/
theorem Inv.releaseHold (h : w.Inv) {why : Why} (hgone : w.Gone)
    (hq : ∀ x ∈ w.held, ∀ hold, why = .quiet hold →
      hold = x.no ∧ Quiet w.lastTraffic w.now ∧ w.press = false) : (w.releaseHold why).Inv := by
  unfold World.releaseHold
  split
  · exact h
  · rename_i x hx
    have hgiven := (h.holds x hx).2
    -- the hold is held still, so it was not released before
    have hnot : x.no ∉ w.releases.map (·.no) := by
      rcases h.given x.no hgiven with ⟨-, hnot⟩ | ⟨hne, -⟩
      · exact hnot
      · exact absurd (by rw [hx]; rfl) hne
    refine { h with
      quiet := ?_, once := ?_, given := ?_, ends := ?_, timer := ?_, holds := ?_, wanted := ?_,
      released := ?_, waits := ?_ }
    · intro r hr hold hwhy
      rcases List.mem_cons.mp hr with rfl | hr
      · exact hq x hx hold hwhy
      · exact h.quiet r hr hold hwhy
    · exact List.nodup_cons.mpr ⟨hnot, h.once⟩
    · intro n hn
      refine Or.inr ⟨by simp, ?_⟩
      rcases h.given n hn with ⟨heq, -⟩ | ⟨-, hmem⟩
      · rw [hx] at heq
        exact List.mem_cons.mpr (Or.inl (Option.some.inj heq).symm)
      · exact List.mem_cons_of_mem _ hmem
    · exact fun y hy => nomatch hy
    · exact fun y hy => nomatch hy
    · exact fun y hy => nomatch hy
    · exact fun p hp => nomatch hp
    · intro n hn
      rcases List.mem_cons.mp hn with rfl | hn
      · exact hgiven
      · exact h.released n hn
    · intro p hp hmem
      rcases List.mem_cons.mp hmem with rfl | hmem
      · exact hgone x hx hp
      · exact h.waits p hp hmem

/-- Nothing is held afterwards. -/
theorem releaseHold_held (why : Why) (w : World) : (w.releaseHold why).held = none := by
  unfold releaseHold
  split
  · assumption
  · rfl

/-- The questions that are open stay open. -/
theorem releaseHold_questions (why : Why) (qs : List Question) (w : World) :
    releaseHold why { w with questions := qs } = { w.releaseHold why with questions := qs } := by
  unfold releaseHold
  dsimp only
  split <;> rfl

/-- A release changes neither the traffic nor the clock nor the grants. -/
theorem releaseHold_asked (w : World) (why : Why) : (w.releaseHold why).traffic = w.traffic ∧
    (w.releaseHold why).lastTraffic = w.lastTraffic ∧ (w.releaseHold why).now = w.now ∧
      (w.releaseHold why).grants = w.grants := by
  unfold releaseHold
  split
  · exact ⟨rfl, rfl, rfl, rfl⟩
  · exact ⟨rfl, rfl, rfl, rfl⟩

/-- The promise that is out was not given back. -/
theorem Inv.holding_not_released (h : w.Inv) {p : Nat} (hp : w.holding = some p) :
    p ∉ w.releases.map (·.no) := by
  intro hmem
  cases hh : w.held with
  | none => exact (h.wanted p hp).2 hh (h.released p hmem)
  | some x =>
    obtain ⟨hx, -⟩ := h.holds x hh
    obtain rfl := Option.some.inj (hp.symm.trans hx)
    rcases h.given x.no (h.released x.no hmem) with ⟨-, hnot⟩ | ⟨hne, -⟩
    · exact hnot hmem
    · exact hne (by rw [hh]; rfl)

/-- The lane is asked for, or is held already. -/
theorem Inv.holdForComputer (h : w.Inv) : w.holdForComputer.Inv := by
  unfold World.holdForComputer
  split
  · rename_i p hp
    refine { h with waits := fun x hx => ?_ }
    rcases List.mem_append.mp hx with hx | hx
    · exact h.waits x hx
    · obtain rfl := List.mem_singleton.mp hx
      exact h.holding_not_released hp
  · rename_i hnone
    -- nothing is held, as no promise is out
    have hheld : w.held = none := by
      cases hh : w.held with
      | none => rfl
      | some x =>
        have := (h.holds x hh).1
        rw [hnone] at this
        cases this
    have hnew : w.made ∉ w.grants := fun hmem => Nat.lt_irrefl _ (h.fresh _ hmem)
    refine { h with holds := ?_, fresh := ?_, wanted := ?_, waits := ?_ }
    · intro x hx
      rw [hheld] at hx
      cases hx
    · exact fun n hn => Nat.lt_succ_of_lt (h.fresh n hn)
    · intro p hp
      obtain rfl := Option.some.inj hp
      exact ⟨Nat.lt_succ_self _, fun _ => hnew⟩
    · intro p hp
      rcases List.mem_append.mp hp with hp | hp
      · exact h.waits p hp
      · obtain rfl := List.mem_singleton.mp hp
        exact fun hmem => hnew (h.released _ hmem)

/-! ### The events -/

/-- A computer's report comes in. -/
theorem Inv.forward (h : w.Inv) (hf : w.Uncrossed .forward) : w.forward.Inv := by
  have hb : Inv { w with bound := true } := { h with }
  refine Inv.holdForComputer ?_
  split
  · rename_i hurgent
    exact hb.releaseHold (hf (Bool.and_eq_true_iff.mp hurgent).2) fun _ _ _ hwhy => nomatch hwhy
  · exact hb

/-- The lane is the computer's. -/
theorem Inv.granted (h : w.Inv) : w.granted.Inv := by
  unfold World.granted
  split
  · rename_i p hp hnone
    -- the press that was waited for is a new hold
    have hnew := (h.wanted p hp).2 hnone
    have hnot : p ∉ w.releases.map (·.no) := fun hmem => hnew (h.released p hmem)
    refine { h with
      given := ?_, ends := ?_, timer := ?_, asked := ?_, holds := ?_, fresh := ?_, wanted := ?_,
      released := ?_ }
    · intro n hn
      rcases List.mem_cons.mp hn with rfl | hn
      · exact Or.inl ⟨rfl, hnot⟩
      · have hne : n ≠ p := fun heq => hnew (heq ▸ hn)
        refine Or.inr ⟨fun heq => hne (Option.some.inj heq).symm, ?_⟩
        rcases h.given n hn with ⟨heq, -⟩ | ⟨-, hmem⟩
        · rw [hnone] at heq
          cases heq
        · exact hmem
    · intro x hx
      obtain rfl := Option.some.inj hx
      exact Or.inl rfl
    · intro x hx s hs t ht
      obtain rfl := Option.some.inj hx
      obtain rfl := Option.some.inj hs
      exact h.last t ht
    · exact fun q hq => ⟨List.mem_cons_of_mem _ (h.asked q hq).1, (h.asked q hq).2⟩
    · intro x hx
      obtain rfl := Option.some.inj hx
      exact ⟨hp, List.mem_cons_self⟩
    · intro n hn
      rcases List.mem_cons.mp hn with rfl | hn
      · exact (h.wanted _ hp).1
      · exact h.fresh n hn
    · exact fun q hq => ⟨(h.wanted q hq).1, fun hx => nomatch hx⟩
    · exact fun n hn => List.mem_cons_of_mem _ (h.released n hn)
  · exact h

/-- Traffic, when no timer was set before it. -/
theorem Inv.traffic (h : w.Inv) (hset : ∀ x ∈ w.held, ∀ s ∈ x.timer, w.now ≤ s) :
    Inv { w with traffic := w.traffic + 1, lastTraffic := some w.now } := by
  refine { h with last := ?_, timer := ?_, asked := ?_ }
  · intro t ht
    obtain rfl := Option.some.inj ht
    exact Nat.le_refl _
  · intro x hx s hs t ht
    obtain rfl := Option.some.inj ht
    exact hset x hx s hs
  · intro q hq
    obtain ⟨hgrant, hle, -⟩ := h.asked q hq
    exact ⟨hgrant, Nat.le_succ_of_le hle, fun heq => absurd heq (by dsimp only; omega)⟩

/-- A timer that is set now runs out later. -/
theorem armRelease_set (w : World) : ∀ x ∈ w.armRelease.held, ∀ s ∈ x.timer, w.now ≤ s := by
  intro x hx s hs
  obtain ⟨y, -, rfl⟩ := Option.map_eq_some_iff.mp hx
  obtain rfl := Option.some.inj hs
  exact Nat.le_refl _

/-- The key says something, and the quiet time begins anew. -/
theorem Inv.report (h : w.Inv) (hf : w.Uncrossed .report) : w.report.Inv := by
  unfold World.report
  dsimp only
  split
  · exact h.armRelease.traffic (armRelease_set w)
  · rename_i hb
    refine h.traffic fun x hx s hs => ?_
    rw [hf.resolve_left hb x hx] at hs
    cases hs

/-- A report that has the lane goes to the key. -/
theorem Inv.write (h : w.Inv) {i : Nat} : (w.write i).Inv := by
  unfold World.write
  split
  · exact h
  · rename_i p hp
    split
    · rename_i hready
      -- the hold the report waited for is in place
      have hheld : w.held.isSome = true := by
        rcases h.given p (by simpa [ready] using hready) with ⟨heq, -⟩ | ⟨-, hmem⟩
        · cases hh : w.held with
          | none =>
            rw [hh] at heq
            cases heq
          | some x => rfl
        · exact absurd hmem (h.waits p (List.mem_of_getElem? hp))
      have htraffic := h.armRelease.traffic (armRelease_set w)
      refine { htraffic with
        writes := ?_, waits := fun q hq => h.waits q (List.mem_of_mem_eraseIdx hq) }
      intro x hx
      rcases List.mem_cons.mp hx with rfl | hx
      · simpa using hheld
      · exact h.writes x hx
    · exact h

/-- The timer runs out, and the key is asked. -/
theorem Inv.fire (h : w.Inv) : w.fire.Inv := by
  unfold World.fire
  split
  · rename_i no t hh
    split
    · rename_i hdue
      have hx := h.holds ⟨no, some t⟩ hh
      refine { h with
        given := ?_, ends := ?_, timer := ?_, asked := ?_, holds := ?_, wanted := ?_ }
      · intro n hn
        have hgiven := h.given n hn
        rw [hh] at hgiven
        exact hgiven
      · intro x hx
        obtain rfl := Option.some.inj hx
        exact Or.inr ⟨⟨no, w.traffic⟩, List.mem_append_right _ List.mem_cons_self, rfl⟩
      · intro x hx s hs
        obtain rfl := Option.some.inj hx
        cases hs
      · -- the timer was set after the last traffic, and has run out
        intro q hq
        rcases List.mem_append.mp hq with hq | hq
        · exact h.asked q hq
        · rw [List.mem_singleton.mp hq]
          refine ⟨hx.2, Nat.le_refl _, fun _ u hu => ?_⟩
          have hset := h.timer ⟨no, some t⟩ hh t rfl u hu
          show u + computerQuietMs ≤ w.now
          omega
      · intro x hx'
        obtain rfl := Option.some.inj hx'
        exact hx
      · exact fun p hp => ⟨(h.wanted p hp).1, fun hnone => nomatch hnone⟩
    · exact h
  · exact h

/-- The key's answer comes; under the condition it is about the hold that asked. -/
theorem Inv.answer (h : w.Inv) {i : Nat} {waits : Bool} (hf : w.Uncrossed (.answer i waits)) :
    (w.answer i waits).Inv := by
  unfold World.answer
  split
  · exact h
  · rename_i q hq
    have hasked : ∀ x ∈ w.questions.eraseIdx i, x.hold ∈ w.grants ∧ x.traffic ≤ w.traffic ∧
        (x.traffic = w.traffic → Quiet w.lastTraffic w.now) := fun x hx =>
      h.asked x (List.mem_of_mem_eraseIdx hx)
    cases waits with
    | true =>
      -- the answered question is gone, but the timer is set
      have harm := h.armRelease
      refine { harm with asked := hasked, ends := ?_ }
      intro x hx
      obtain ⟨y, -, rfl⟩ := Option.map_eq_some_iff.mp hx
      exact Or.inl rfl
    | false =>
      have hrelease : (w.releaseHold (.quiet q.hold)).Inv := by
        refine h.releaseHold (fun x hx => ?_) fun x hx hold hwhy => ?_
        · obtain ⟨-, -, -, hgone⟩ := hf rfl (by rw [Option.mem_def.mp hx]; rfl) q hq
          exact hgone x hx
        · obtain ⟨hkept, htraffic, hpress, -⟩ := hf rfl (by rw [Option.mem_def.mp hx]; rfl) q hq
          obtain ⟨hgrant, -, hquiet⟩ := h.asked q (List.mem_of_getElem? hq)
          obtain rfl := Why.quiet.inj hwhy
          -- the hold that was asked for was not given back, and is the one in place
          have hno : w.held.map (·.no) = some q.hold := by
            rcases h.given q.hold hgrant with ⟨heq, -⟩ | ⟨-, hmem⟩
            · exact heq
            · exact absurd hmem hkept
          rw [Option.mem_def.mp hx] at hno
          exact ⟨(Option.some.inj hno).symm, hquiet htraffic, hpress⟩
      show (World.releaseHold (Why.quiet q.hold) { w with questions := w.questions.eraseIdx i }).Inv
      rw [releaseHold_questions]
      refine { hrelease with
        asked := ?_, ends := fun x hx => absurd hx (by simp [releaseHold_held]) }
      obtain ⟨htraffic, hlast, hnow, hgrants⟩ := w.releaseHold_asked (.quiet q.hold)
      rw [htraffic, hlast, hnow, hgrants]
      exact hasked

/-- Every event that meets the condition keeps the invariant. -/
theorem inv_step (w : World) (e : Event) (h : w.Inv) (hf : w.Uncrossed e) : (w.step e).Inv := by
  cases e with
  | forward => exact h.forward hf
  | granted => exact h.granted
  | write i => exact h.write
  | report => exact h.report hf
  | fire => exact h.fire
  | answer i waits => exact h.answer hf
  | urgent b => exact { h with }
  | press b => exact { h with }
  | pass ms =>
    refine { h with last := fun t ht => Nat.le_add_right_of_le (h.last t ht), asked := ?_ }
    intro q hq
    obtain ⟨hgrant, hle, hquiet⟩ := h.asked q hq
    exact ⟨hgrant, hle, fun heq t ht => Nat.le_add_right_of_le (hquiet heq t ht)⟩
  | stop =>
    have hb : Inv { w with bound := false } := { h with }
    exact hb.releaseHold hf fun _ _ _ hwhy => nomatch hwhy

/-! ### A run -/

/-- A conversation holds the key until it is quiet, as long as nothing crosses a question of its
timer. -/
theorem held_until_quiet (events : List Event) (hf : AllAlong step Uncrossed init events) :
    UntilQuiet (events.foldl step init) :=
  (hf.keeps inv_init inv_step).toUntilQuiet

instance (last : Option Nat) (time : Nat) : Decidable (Quiet last time) :=
  inferInstanceAs (Decidable (∀ t ∈ last, t + computerQuietMs ≤ time))

instance (w : World) : Decidable w.Gone :=
  inferInstanceAs (Decidable (∀ h ∈ w.held, h.no ∉ w.waiting))

instance (w : World) (e : Event) : Decidable (w.Uncrossed e) := by
  cases e <;> unfold Uncrossed <;> infer_instance

/-- Two writes and a press, for which the key is asked twice; then a conversation that makes way for
an urgent request, and one that is quiet. -/
def pressed : List Event :=
  [.forward, .granted, .write 0, .forward, .write 0, .report, .press true, .pass 1500, .fire,
    .answer 0 true, .press false, .report, .pass 1600, .fire, .answer 0 false,
    .forward, .granted, .write 0, .urgent true, .forward, .granted, .write 0, .urgent false,
    .pass 1500, .fire, .answer 0 false]

theorem held_until_quiet_after_press :
    (pressed.foldl step init).releases.map (fun r => (r.no, r.why, r.time)) =
      [(2, .quiet 2, 4600), (1, .urgent, 3100), (0, .quiet 0, 3100)] ∧
      UntilQuiet (pressed.foldl step init) :=
  ⟨by decide, held_until_quiet pressed (by decide)⟩

/-- The key answers a computer between the question and the no. -/
theorem released_in_mid_answer : ¬ ∀ events : List Event, UntilQuiet (events.foldl step init) := by
  intro h
  have hquiet := (h [.forward, .granted, .write 0, .pass 1500, .fire, .report,
    .answer 0 false]).quiet ⟨0, .quiet 0, 1500, some 1500, false⟩ (by decide) 0 rfl
  revert hquiet
  decide

end World

end OkRn.Bridge.Hold
