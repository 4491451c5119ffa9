/-
OkRn/Press/Queue.lean

A run of presses on its way to the firmware.

`pressQueue` refuses by the library's rule, the native call drops what is not a button
and cuts the duration to 16 bits, and the ring takes what fits.  Only then does the
app compare the count, so a run that was cut short is on its way when the call throws.

* `Emu.step` takes the calls apart at their awaits, with the firmware between;
* `Emu.RoomAndTime` is the condition: a run fits the ring or none of it does, and it is
  drained in time.

Main results: `presses_are_whole`, and `half_a_run_is_taken`.
-/
import OkRn.Lib.Ring
import OkRn.Lib.Along
import Mathlib.Algebra.GroupWithZero.Nat

namespace OkRn.PressQueue

/-! ### The ring -/

/-- The size of the ring. -/
def pressQueueMax : Nat := 32

/-- A press in the queue; the call that queued it is not in it. -/
structure Queued where
  button : UInt8
  ticks : UInt16
  call : Nat
  deriving DecidableEq

/-- The ring of presses. -/
abbrev Presses := Ring Queued pressQueueMax

/-- Six buttons, and a zero-tick press is not a press. -/
def Queued.isPress (p : Queued) : Bool :=
  !(decide (p.button < 1) || decide (6 < p.button) || p.ticks == 0)

/-- The queue afterwards, and how many presses it took. -/
def okemuPressQueue : List Queued → Presses → Presses × Nat
  | [], g => (g, 0)
  | p :: ps, g =>
      if room : g.count < pressQueueMax then
        if p.isPress then
          let rest := okemuPressQueue ps (g.push p room)
          (rest.1, rest.2 + 1)
        else okemuPressQueue ps g
      else (g, 0)

/-- What of a run fits. -/
def fitting (ps : List Queued) (g : Presses) : List Queued :=
  (ps.filter Queued.isPress).take (pressQueueMax - g.count)

/-- The ring takes what fits, and counts it. -/
theorem okemuPressQueue_spec (ps : List Queued) (g : Presses) :
    (okemuPressQueue ps g).1.contents = g.contents ++ fitting ps g ∧
      (okemuPressQueue ps g).2 = (fitting ps g).length := by
  induction ps generalizing g with
  | nil => simp [okemuPressQueue, fitting]
  | cons p ps ih =>
    rw [okemuPressQueue]
    -- a press more is queued while there is room; what is no press is passed over
    by_cases room : g.count < pressQueueMax
    · rw [dif_pos room]
      by_cases hp : p.isPress = true
      · obtain ⟨hcontents, hcount⟩ := ih (g.push p room)
        have hfit : fitting (p :: ps) g = p :: fitting ps (g.push p room) := by
          obtain ⟨n, hn⟩ : ∃ n, pressQueueMax - g.count = n + 1 :=
            ⟨pressQueueMax - g.count - 1, by omega⟩
          have hn' : pressQueueMax - (g.push p room).count = n := by
            show pressQueueMax - (g.count + 1) = n
            omega
          rw [fitting, fitting, List.filter_cons_of_pos hp, hn, hn', List.take_succ_cons]
        rw [if_pos hp, hfit]
        refine ⟨?_, by rw [List.length_cons, ← hcount]⟩
        rw [hcontents, Ring.contents_push, List.append_assoc, List.singleton_append]
      · rw [if_neg hp]
        have hfit : fitting (p :: ps) g = fitting ps g := by
          rw [fitting, fitting, List.filter_cons_of_neg hp]
        rw [hfit]
        exact ih g
    · have hnone : fitting (p :: ps) g = [] := by
        rw [fitting, Nat.sub_eq_zero_of_le (Nat.not_lt.mp room), List.take_zero]
      rw [dif_neg room, hnone]
      simp

/-! ### The calls -/

/-- How far a call has come. -/
inductive Stage
  /-- On its way to the native side. -/
  | asked
  | draining (accepted : Nat)
  | resolved (accepted : Nat)
  | thrown (message : String)
  deriving DecidableEq

/-- It waits until its presses are drained. -/
def Stage.isDraining : Stage → Bool
  | .draining _ => true
  | _ => false

/-- A call of `pressQueue`. -/
structure Call where
  buttons : List Char
  ticks : Int
  stage : Stage
  deriving DecidableEq

/-- The ring, the firmware's selected button, and the calls. -/
structure Emu where
  queue : Presses := Ring.empty ⟨0, 0, 0⟩ (by decide)
  running : Bool := true
  /-- The firmware's `button_selected` and `key_press`. -/
  buttonSelected : Nat := 0
  keyPress : Nat := 0
  calls : List Call := []
  /-- Every press that was queued, and those that the firmware was given; no code reads these. -/
  queued : List Queued := []
  taken : List Queued := []

/-- What can happen. -/
inductive Event
  | pressQueue (buttons : List Char) (ticks : Int) (allowGesture : Bool)
  /-- The native side does what was asked. -/
  | native (i : Nat)
  /-- `pressesDrained` looks again. -/
  | poll (i : Nat) (late : Bool)
  | take
  /-- The firmware is done with the press it holds. -/
  | dispatched
  | start
  | stop

/-- `device.press.gestureRefusal(Number(digit), ticks, {allowGesture})`. -/
abbrev Refusal := Char → Int → Bool → Option String

/-- How long a string is in JavaScript. -/
def utf16Length (s : List Char) : Nat := (s.map fun c => if c.toNat < 0x10000 then 1 else 2).sum

/-- A button's digit. -/
def isButton (c : Char) : Bool := decide ('1' ≤ c) && decide (c ≤ '6')

/-- The button. -/
def buttonOf (c : Char) : Nat := c.toNat - '0'.toNat

/-- Kotlin's `Double.toInt`. -/
def toInt (ticks : Int) : Int := max (-0x80000000) (min ticks 0x7fffffff)

/-- What `nativePressQueue` hands to the ring. -/
def nativePresses (buttons : List Char) (ticks : Int) (call : Nat) : List Queued :=
  (buttons.filter isButton).map fun c => ⟨UInt8.ofNat (buttonOf c), UInt16.ofInt ticks, call⟩

/-- These presses are those of the string, with the duration that was given. -/
def Call.Meets (c : Call) (ps : List Queued) : Prop :=
  ps.map (fun p => (p.button.toNat, (p.ticks.toNat : Int))) =
    c.buttons.map fun digit => (buttonOf digit, c.ticks)

namespace Emu

/-- A call comes so far. -/
def setStage (s : Emu) (i : Nat) (c : Call) (stage : Stage) : Emu :=
  { s with calls := s.calls.set i { c with stage := stage } }

/-- `pressQueue`, up to the native call. -/
def pressQueue (refusal : Refusal) (s : Emu) (buttons : List Char) (ticks : Int)
    (allowGesture : Bool) : Emu :=
  let stage := match buttons.findSome? fun digit => refusal digit ticks allowGesture with
    | some message => Stage.thrown message
    | none => .asked
  { s with calls := s.calls ++ [⟨buttons, ticks, stage⟩] }

/-- The native side queues a run of presses. -/
def native (s : Emu) (i : Nat) (c : Call) : Emu :=
  let n := toInt c.ticks
  if s.running = false then s.setStage i c (.thrown "firmware is not running")
  else if n ≤ 0 then s.setStage i c (.thrown s!"ticks must be positive, got {n}")
  else
    let presses := nativePresses c.buttons n i
    let (queue, accepted) := okemuPressQueue presses s.queue
    let s := { s with queue := queue, queued := s.queued ++ fitting presses s.queue }
    if accepted ≠ utf16Length c.buttons then
      -- what was taken stays queued
      s.setStage i c (.thrown (s!"queued {accepted} of {utf16Length c.buttons} presses - " ++
        "the queue was full or a character was not a button 1-6"))
    else s.setStage i c (.draining accepted)

/-- How many presses are pending. -/
def pressPending (s : Emu) : Nat := if s.running then s.queue.count else 0

/-- A call looks whether its presses are drained. -/
def poll (s : Emu) (i : Nat) (c : Call) (accepted : Nat) (late : Bool) : Emu :=
  if s.pressPending = 0 then s.setStage i c (.resolved accepted)
  else if late then s.setStage i c (.thrown "the firmware did not take the queued presses")
  else s

/-- Nothing while the firmware holds a press. -/
def okemuPressTake (s : Emu) : Emu :=
  if s.keyPress ≠ 0 then s
  else if any : 0 < s.queue.count then
    let next := s.queue.front
    { s with
      buttonSelected := '0'.toNat + next.button.toNat
      keyPress := next.ticks.toNat
      queue := s.queue.pop any
      taken := s.taken ++ [next] }
  else s

variable (refusal : Refusal)

/-- One event. -/
def step (s : Emu) : Event → Emu
  | .pressQueue buttons ticks allowGesture => s.pressQueue refusal buttons ticks allowGesture
  | .native i =>
      match s.calls[i]? with
      | some c => if c.stage = .asked then s.native i c else s
      | none => s
  | .poll i late =>
      match s.calls[i]? with
      | some c =>
          match c.stage with
          | .draining accepted => s.poll i c accepted late
          | _ => s
      | none => s
  | .take => s.okemuPressTake
  | .dispatched => { s with keyPress := 0 }
  | .start => { s with running := true }
  | .stop => { s with running := false }

/-- The key after a run. -/
def run (es : List Event) : Emu := es.foldl (step refusal) {}

/-! ### What is promised -/

/-- The presses of one call. -/
def of (i : Nat) (ps : List Queued) : List Queued := ps.filter fun p => p.call = i

/-- A call that resolved queued its run; one that threw has sent the firmware nothing. -/
structure Whole (s : Emu) : Prop where
  resolved : ∀ i (c : Call) accepted, s.calls[i]? = some c → c.stage = .resolved accepted →
    c.Meets (of i s.queued)
  thrown : ∀ i (c : Call) message, s.calls[i]? = some c → c.stage = .thrown message →
    ∀ p ∈ s.taken, p.call ≠ i

/-- The whole run can be queued: buttons only, a duration of 16 bits, and room. -/
structure Fits (s : Emu) (c : Call) : Prop where
  running : s.running = true
  ticks : 1 ≤ c.ticks ∧ c.ticks < 65536
  buttons : ∀ digit ∈ c.buttons, isButton digit = true
  room : s.queue.count + c.buttons.length ≤ pressQueueMax

/-- Nothing of the run can be queued. -/
def TakesNone (s : Emu) (c : Call) : Prop :=
  s.running = false ∨ toInt c.ticks ≤ 0 ∨ 65536 ∣ toInt c.ticks ∨
    (∀ digit ∈ c.buttons, isButton digit = false) ∨ s.queue.count = pressQueueMax

/-- A run fits whole or not at all, and the firmware takes what was queued in time. -/
def RoomAndTime (s : Emu) : Event → Prop
  | .native i => ∀ c ∈ s.calls[i]?, c.stage = .asked → s.Fits c ∨ s.TakesNone c
  | .poll i late => late = true → ∀ c ∈ s.calls[i]?, c.stage.isDraining = true →
      s.pressPending = 0 ∨ c.buttons = []
  | _ => True

instance (s : Emu) (c : Call) : Decidable (s.Fits c) :=
  decidable_of_iff (s.running = true ∧ (1 ≤ c.ticks ∧ c.ticks < 65536) ∧
      c.buttons.all isButton = true ∧ s.queue.count + c.buttons.length ≤ pressQueueMax)
    ⟨fun h => ⟨h.1, h.2.1, List.all_eq_true.mp h.2.2.1, h.2.2.2⟩,
      fun h => ⟨h.running, h.ticks, List.all_eq_true.mpr h.buttons, h.room⟩⟩

instance (s : Emu) (c : Call) : Decidable (s.TakesNone c) :=
  decidable_of_iff (s.running = false ∨ toInt c.ticks ≤ 0 ∨ 65536 ∣ toInt c.ticks ∨
      (c.buttons.all fun digit => !isButton digit) = true ∨ s.queue.count = pressQueueMax)
    (by simp [TakesNone])

instance (s : Emu) (e : Event) : Decidable (s.RoomAndTime e) := by
  cases e <;> unfold RoomAndTime <;> infer_instance

/-! ### What every step keeps -/

/-- What is queued of a call, by how far it has come. -/
def Kept (c : Call) (ps : List Queued) : Prop :=
  match c.stage with
  | .asked | .thrown _ => ps = []
  | .draining _ | .resolved _ => c.Meets ps

/-- What holds while there is room and time. -/
structure Inv (s : Emu) : Prop where
  fifo : s.queued = s.taken ++ s.queue.contents
  numbers : ∀ p ∈ s.queued, p.call < s.calls.length
  kept : ∀ i c, s.calls[i]? = some c → Kept c (of i s.queued)

theorem inv_start : ({} : Emu).Inv where
  fifo := rfl
  numbers _ h := absurd h List.not_mem_nil
  kept _ _ h := by cases h

variable {s : Emu} {i : Nat} {c : Call}

theorem Inv.whole (h : s.Inv) : s.Whole where
  resolved i c accepted hc hstage := by
    have hkept := h.kept i c hc
    rwa [Kept, hstage] at hkept
  thrown i c message hc hstage p hp hcall := by
    have hkept := h.kept i c hc
    rw [Kept, hstage] at hkept
    have hmem : p ∈ of i s.queued := by
      rw [h.fifo]
      exact List.mem_filter.mpr ⟨List.mem_append_left _ hp, by simpa using hcall⟩
    rw [hkept] at hmem
    cases hmem

/-- A call goes on, with more of its own presses in the queue. -/
theorem Inv.goesOn (h : s.Inv) (hc : s.calls[i]? = some c) {queue : Presses} {more : List Queued}
    {stage : Stage} (hqueue : queue.contents = s.queue.contents ++ more)
    (hmore : ∀ p ∈ more, p.call = i)
    (hkept : Kept { c with stage := stage } (of i (s.queued ++ more))) :
    ({ s with queue := queue, queued := s.queued ++ more } |>.setStage i c stage).Inv := by
  obtain ⟨hi, -⟩ := List.getElem?_eq_some_iff.mp hc
  refine ⟨?_, fun p hp => ?_, fun j d hd => ?_⟩
  · show s.queued ++ more = s.taken ++ queue.contents
    rw [hqueue, h.fifo, List.append_assoc]
  · show p.call < (s.calls.set i _).length
    rw [List.length_set]
    rcases List.mem_append.mp hp with hp | hp
    · exact h.numbers p hp
    · rw [hmore p hp]
      exact hi
  · have hd' : (s.calls.set i { c with stage := stage })[j]? = some d := hd
    show Kept d (of j (s.queued ++ more))
    -- the call that goes on keeps what it queued
    by_cases hj : i = j
    · subst hj
      rw [List.getElem?_set_self hi] at hd'
      rw [← Option.some.inj hd']
      exact hkept
    · -- another call has none of them
      rw [List.getElem?_set_ne hj] at hd'
      have hnone : of j more = [] :=
        List.filter_eq_nil_iff.mpr fun p hp => by simpa [hmore p hp] using hj
      have happend : of j (s.queued ++ more) = of j s.queued := by
        rw [of, List.filter_append, ← of, ← of, hnone, List.append_nil]
      rw [happend]
      exact h.kept j d hd'

/-- A call goes on, and nothing is queued. -/
theorem Inv.setStage (h : s.Inv) (hc : s.calls[i]? = some c) {stage : Stage}
    (hkept : Kept { c with stage := stage } (of i s.queued)) : (s.setStage i c stage).Inv := by
  have hkept' : Kept { c with stage := stage } (of i (s.queued ++ [])) := by
    rw [List.append_nil]
    exact hkept
  have hnothing := h.goesOn hc (List.append_nil s.queue.contents).symm
    (fun p hp => absurd hp List.not_mem_nil) hkept'
  simpa only [List.append_nil] using hnothing

/-- What fits is of what was asked. -/
theorem mem_fitting {presses : List Queued} {g : Presses} {p : Queued}
    (h : p ∈ fitting presses g) : p ∈ presses :=
  (List.mem_filter.mp (List.mem_of_mem_take h)).1

/-- Every press is of its call. -/
theorem call_nativePresses {buttons : List Char} {ticks : Int} {p : Queued}
    (h : p ∈ nativePresses buttons ticks i) : p.call = i := by
  obtain ⟨digit, -, rfl⟩ := List.mem_map.mp h
  rfl

theorem ofInt_toNat {ticks : Int} (h : 1 ≤ ticks ∧ ticks < 65536) :
    ((UInt16.ofInt ticks).toNat : Int) = ticks := by
  rw [UInt16.ofInt, UInt16.toNat_ofNat']
  omega

theorem button_range {digit : Char} (h : isButton digit = true) :
    1 ≤ buttonOf digit ∧ buttonOf digit ≤ 6 ∧ digit.toNat < 0x10000 := by
  simp only [isButton, Bool.and_eq_true, decide_eq_true_eq] at h
  have hlow : '1'.toNat ≤ digit.toNat := h.1
  have hhigh : digit.toNat ≤ '6'.toNat := h.2
  have hzero : '0'.toNat = 48 := rfl
  have hone : '1'.toNat = 49 := rfl
  have hsix : '6'.toNat = 54 := rfl
  rw [buttonOf]
  omega

/-- A text has at least as many units as characters. -/
theorem length_le_utf16Length (l : List Char) : l.length ≤ utf16Length l := by
  induction l with
  | nil => exact Nat.le_refl 0
  | cons c l ih =>
    simp only [utf16Length, List.map_cons, List.sum_cons, List.length_cons] at ih ⊢
    split <;> omega

theorem utf16Length_buttons {l : List Char} (h : ∀ digit ∈ l, isButton digit = true) :
    utf16Length l = l.length := by
  induction l with
  | nil => rfl
  | cons c l ih =>
    have hc := (button_range (h c List.mem_cons_self)).2.2
    have hrest := ih fun digit hdigit => h digit (List.mem_cons_of_mem _ hdigit)
    simp only [utf16Length, List.map_cons, List.sum_cons, List.length_cons, if_pos hc] at hrest ⊢
    omega

theorem toInt_eq {ticks : Int} (h : 1 ≤ ticks ∧ ticks < 65536) : toInt ticks = ticks := by
  rw [toInt]
  omega

/-- A run that fits is queued whole. -/
theorem Fits.fitting (h : s.Fits c) :
    PressQueue.fitting (nativePresses c.buttons (toInt c.ticks) i) s.queue =
      c.buttons.map fun digit => ⟨UInt8.ofNat (buttonOf digit), UInt16.ofInt c.ticks, i⟩ := by
  have hall : c.buttons.filter isButton = c.buttons := List.filter_eq_self.mpr h.buttons
  have hticks := ofInt_toNat h.ticks
  have hpress : ∀ p ∈ c.buttons.map fun digit =>
      (⟨UInt8.ofNat (buttonOf digit), UInt16.ofInt c.ticks, i⟩ : Queued), p.isPress = true := by
    intro p hp
    obtain ⟨digit, hdigit, rfl⟩ := List.mem_map.mp hp
    obtain ⟨hlow, hhigh, -⟩ := button_range (h.buttons digit hdigit)
    have hbutton : (UInt8.ofNat (buttonOf digit)).toNat = buttonOf digit := by
      rw [UInt8.toNat_ofNat']
      omega
    have hzero : UInt16.ofInt c.ticks ≠ 0 := by
      intro hzero
      have hpos := h.ticks.1
      rw [hzero] at hticks
      rw [← hticks] at hpos
      exact absurd hpos (by decide)
    simp only [Queued.isPress, UInt8.lt_iff_toNat_lt, hbutton]
    simp [hzero]
    omega
  rw [PressQueue.fitting, nativePresses, hall, toInt_eq h.ticks, List.filter_eq_self.mpr hpress]
  refine List.take_of_length_le ?_
  have hroom := h.room
  rw [List.length_map]
  omega

/-- Of a run that cannot be queued nothing is. -/
theorem TakesNone.fitting (h : s.TakesNone c) (hrunning : s.running = true)
    (hpos : 0 < toInt c.ticks) :
    PressQueue.fitting (nativePresses c.buttons (toInt c.ticks) i) s.queue = [] := by
  rcases h with h | h | h | h | h
  · rw [h] at hrunning
    cases hrunning
  · omega
  · -- the duration is cut to nothing
    have hzero : UInt16.ofInt (toInt c.ticks) = 0 := by
      have hmod : toInt c.ticks % 2 ^ 16 = 0 := Int.emod_eq_zero_of_dvd h
      rw [UInt16.ofInt, hmod]
      rfl
    have hno : (nativePresses c.buttons (toInt c.ticks) i).filter Queued.isPress = [] := by
      refine List.filter_eq_nil_iff.mpr fun p hp => ?_
      obtain ⟨digit, -, rfl⟩ := List.mem_map.mp hp
      simp [Queued.isPress, hzero]
    rw [PressQueue.fitting, hno, List.take_nil]
  · have hno : c.buttons.filter isButton = [] :=
      List.filter_eq_nil_iff.mpr fun digit hdigit => by simp [h digit hdigit]
    rw [PressQueue.fitting, nativePresses, hno, List.map_nil, List.filter_nil, List.take_nil]
  · rw [PressQueue.fitting, h, Nat.sub_self, List.take_zero]

/-- What the native side does keeps it. -/
theorem Inv.native (h : s.Inv) (hc : s.calls[i]? = some c) (hstage : c.stage = .asked)
    (hcond : s.Fits c ∨ s.TakesNone c) : (s.native i c).Inv := by
  have hnone : of i s.queued = [] := by
    have hkept := h.kept i c hc
    rwa [Kept, hstage] at hkept
  unfold Emu.native
  dsimp only
  split_ifs with hrunning hpos hcount
  · exact h.setStage hc hnone
  · exact h.setStage hc hnone
  all_goals
    obtain ⟨hcontents, haccepted⟩ :=
      okemuPressQueue_spec (nativePresses c.buttons (toInt c.ticks) i) s.queue
    have hown : ∀ p ∈ fitting (nativePresses c.buttons (toInt c.ticks) i) s.queue, p.call = i :=
      fun p hp => call_nativePresses (mem_fitting hp)
    have happend : of i (s.queued ++ fitting (nativePresses c.buttons (toInt c.ticks) i) s.queue) =
        fitting (nativePresses c.buttons (toInt c.ticks) i) s.queue := by
      rw [of, List.filter_append, ← of, hnone, List.nil_append]
      exact List.filter_eq_self.mpr fun p hp => by simpa using hown p hp
    refine h.goesOn hc hcontents hown ?_
    rw [happend]
  · -- it throws: then nothing was queued
    rcases hcond with hfits | htakes
    · refine absurd ?_ hcount
      rw [haccepted, hfits.fitting, List.length_map, utf16Length_buttons hfits.buttons]
    · exact htakes.fitting (by simpa using hrunning) (by omega)
  · -- it goes on: all of the run was queued, or the run is empty
    rcases hcond with hfits | htakes
    · have hticks := ofInt_toNat hfits.ticks
      simp only [Kept, Call.Meets, hfits.fitting, List.map_map, Function.comp_def, hticks]
      refine List.map_congr_left fun digit hdigit => ?_
      obtain ⟨-, hhigh, -⟩ := button_range (hfits.buttons digit hdigit)
      rw [UInt8.toNat_ofNat', Nat.mod_eq_of_lt (by omega)]
    · have hno := htakes.fitting (i := i) (by simpa using hrunning) (by omega)
      rw [haccepted, hno] at hcount
      have hlen := length_le_utf16Length c.buttons
      have hempty : c.buttons = [] := by
        refine List.length_eq_zero_iff.mp ?_
        simp at hcount
        omega
      show List.map _ (fitting _ s.queue) = List.map _ c.buttons
      rw [hno, hempty]
      rfl

theorem Inv.poll (h : s.Inv) (hc : s.calls[i]? = some c) {accepted : Nat}
    (hstage : c.stage = .draining accepted) {late : Bool}
    (hcond : late = true → s.pressPending = 0 ∨ c.buttons = []) :
    (s.poll i c accepted late).Inv := by
  have hmeets : c.Meets (of i s.queued) := by
    have hkept := h.kept i c hc
    rwa [Kept, hstage] at hkept
  unfold Emu.poll
  split_ifs with hdrained hlate
  · exact h.setStage hc hmeets
  · -- too late with the queue not empty: only an empty run may throw here
    refine h.setStage hc ?_
    have hempty := (hcond hlate).resolve_left hdrained
    rw [Call.Meets, hempty] at hmeets
    exact List.map_eq_nil_iff.mp hmeets
  · exact h

theorem Inv.take (h : s.Inv) : s.okemuPressTake.Inv := by
  unfold okemuPressTake
  split_ifs with hheld hany
  · exact h
  · refine ⟨?_, h.numbers, h.kept⟩
    show s.queued = s.taken ++ [s.queue.front] ++ (s.queue.pop hany).contents
    rw [h.fifo, s.queue.contents_pop hany, List.append_assoc, List.singleton_append]
  · exact h

variable {refusal : Refusal}

theorem Inv.pressQueue (h : s.Inv) (buttons : List Char) (ticks : Int) (allowGesture : Bool) :
    (s.pressQueue refusal buttons ticks allowGesture).Inv := by
  refine ⟨h.fifo, fun p hp => ?_, fun i c hc => ?_⟩
  · have := h.numbers p hp
    simp only [Emu.pressQueue, List.length_append, List.length_singleton]
    omega
  · show Kept c (of i s.queued)
    simp only [Emu.pressQueue] at hc
    rcases Nat.lt_or_ge i s.calls.length with hi | hi
    · rw [List.getElem?_append_left hi] at hc
      exact h.kept i c hc
    · -- nothing is queued yet under the new number
      have hnone : of i s.queued = [] := by
        refine List.filter_eq_nil_iff.mpr fun p hp => ?_
        have := h.numbers p hp
        simp
        omega
      rw [List.getElem?_append_right hi] at hc
      rw [List.mem_singleton.mp (List.mem_of_getElem? hc), Kept, hnone]
      cases buttons.findSome? fun digit => refusal digit ticks allowGesture <;> rfl

theorem Inv.step (h : s.Inv) (e : Event) (he : s.RoomAndTime e) : (s.step refusal e).Inv := by
  cases e with
  | pressQueue buttons ticks allowGesture => exact h.pressQueue buttons ticks allowGesture
  | native i =>
    simp only [Emu.step]
    split
    · rename_i c hc
      split
      · rename_i hstage
        exact h.native hc hstage (he c hc hstage)
      · exact h
    · exact h
  | poll i late =>
    simp only [Emu.step]
    split
    · rename_i c hc
      split
      · rename_i accepted hstage
        exact h.poll hc hstage fun hlate => he hlate c hc (by rw [hstage]; rfl)
      · exact h
    · exact h
  | take => exact h.take
  | dispatched => exact ⟨h.fifo, h.numbers, h.kept⟩
  | start => exact ⟨h.fifo, h.numbers, h.kept⟩
  | stop => exact ⟨h.fifo, h.numbers, h.kept⟩

/-- Where every run fits whole or not at all and is taken in time, it is queued whole or not at all,
and the firmware is given the presses in their order, one at a time. -/
theorem presses_are_whole (refusal : Refusal) (es : List Event)
    (hes : AllAlong (step refusal) RoomAndTime {} es) :
    (run refusal es).Whole ∧
      (run refusal es).queued = (run refusal es).taken ++ (run refusal es).queue.contents ∧
      ((run refusal es).keyPress ≠ 0 → (run refusal es).okemuPressTake = run refusal es) := by
  have h : (run refusal es).Inv := hes.keeps inv_start fun s e hs he => hs.step e he
  refine ⟨h.whole, h.fifo, fun hheld => ?_⟩
  rw [okemuPressTake, if_pos hheld]

/-- The library's rule for durations below the gestures. -/
def tapsOnly : Refusal := fun _ ticks allowGesture =>
  if ticks < 72 || allowGesture then none else some "a hold that long is a gesture"

/-- A PIN of two digits. -/
def entered : List Event :=
  [.pressQueue "16".toList 10 false, .native 0, .take, .dispatched, .take, .poll 0 false]

theorem presses_are_whole_pin :
    (run tapsOnly entered).calls = [⟨"16".toList, 10, .resolved 2⟩] ∧
      (run tapsOnly entered).Whole := by
  refine ⟨by decide +kernel, ?_⟩
  exact (presses_are_whole tapsOnly entered (by decide +kernel)).1

/-- Thirty presses wait, and four more are asked for: two fit. -/
def overfull : List Event :=
  [.pressQueue (List.replicate 30 '1') 10 false, .native 0, .pressQueue "6543".toList 10 false,
    .native 1] ++ (List.replicate 31 [Event.take, .dispatched]).flatten

/-- Without room half a run is taken. -/
theorem half_a_run_is_taken : ¬ ∀ (refusal : Refusal) (es : List Event),
    (run refusal es).Whole := by
  intro h
  have hthrown : (run tapsOnly overfull).calls[1]? = some ⟨"6543".toList, 10,
      .thrown "queued 2 of 4 presses - the queue was full or a character was not a button 1-6"⟩ := by
    decide +kernel
  have htaken : (⟨6, 10, 1⟩ : Queued) ∈ (run tapsOnly overfull).taken := by
    decide +kernel
  exact (h tapsOnly overfull).thrown 1 _ _ hthrown rfl _ htaken rfl

end Emu

end OkRn.PressQueue
