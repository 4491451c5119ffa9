/-
OkRn/Hal/Pads.lean

The emulated touch pads, and a hold that is counted in sense rounds.

A round reads the six pads one after another, pin 16 last; that read also ages the
counted holds.  The call that arms a hold comes from another thread, before any of the
reads.  A pad that was read earlier in that round misses a round of its hold:
`counted_exactly_iff`.

* `Sense` is a run of reads with the arming call at one of them, and `left` the rounds
  that are left of the hold at each read;
* `padsAt_only` gives the pads at each read, and with it what is read.

Main results: `counted_exactly_iff`, and `late_tap_is_lost`.
-/
import Mathlib.Data.List.Nodup

namespace OkRn.Hal

/-! ### The pads -/

/-- The two kinds of key. -/
inductive Hardware
  | classic
  | duo
  deriving DecidableEq

/-- The buttons by their numbers from 1, and the sense rounds completed. -/
structure Pads where
  button : Nat → Bool := fun _ => false
  ticks : Nat → Nat := fun _ => 0
  rounds : Nat := 0

/-- The number of pads. -/
def numButtons : Nat := 6

/-- The pin that is read last in a round. -/
def lastPinInRound : Nat := 16

/-- The pins of a classic's pads. -/
def kClassic : List Nat := [23, 22, 17, 15, 1, 16]

/-- The pins of a duo's. -/
def kDuo : List Nat := [23, 15, 17, 22, 1, 16]

/-- The pin of a pad. -/
def pinForButton (hw : Hardware) (index : Nat) : Nat :=
  (if hw = .duo then kDuo else kClassic).getD index 0

/-- The DUO's two pads; its third button is both. -/
def duoButtonHoldsPin (pin : Nat) (button : Nat → Bool) : Bool :=
  if pin = 23 then button 1 || button 3
  else if pin = 15 then button 2 || button 3
  else false

/-- `okemu_set_button_ticks`. -/
def Pads.setButtonTicks (s : Pads) (n ticks : Int) : Pads :=
  if n < 1 ∨ (numButtons : Int) < n then s
  else if ticks ≤ 0 then
    { s with
      button := fun m => if (m : Int) = n then false else s.button m
      ticks := fun m => if (m : Int) = n then 0 else s.ticks m }
  else
    { s with
      button := fun m => if (m : Int) = n then true else s.button m
      ticks := fun m => if (m : Int) = n then ticks.toNat else s.ticks m }

/-- The pad at a pin is held. -/
def Pads.held (s : Pads) (hw : Hardware) (pin : Nat) : Bool :=
  if hw = .duo then duoButtonHoldsPin pin s.button
  else match (List.range numButtons).find? fun i => pinForButton hw i = pin with
    | some i => s.button (i + 1)
    | none => false

/-- The end of a round: a hold whose last tick this was is released. -/
def Pads.age (s : Pads) : Pads where
  button n := if 1 ≤ n ∧ n ≤ numButtons ∧ s.ticks n = 1 then false else s.button n
  ticks n := if 1 ≤ n ∧ n ≤ numButtons then s.ticks n - 1 else s.ticks n
  rounds := s.rounds + 1

/-- The reading is taken before the counters age. -/
def Pads.touchForPin (s : Pads) (hw : Hardware) (pin : Nat) : Pads × Nat :=
  (if pin = lastPinInRound then s.age else s, if s.held hw pin then 6000 else 1000)

/-- A read ages the holds at the last pin only. -/
theorem touchForPin_fst (s : Pads) (hw : Hardware) (pin : Nat) :
    (s.touchForPin hw pin).1 = if pin = lastPinInRound then s.age else s := rfl

/-! ### The firmware's rounds -/

/-- An order in which a round reads the pads, pin 16 last. -/
structure Round where
  before : List Nat
  nodup : (before ++ [lastPinInRound]).Nodup
  all : ∀ pin ∈ kClassic, pin ∈ before ++ [lastPinInRound]
  six : before.length = 5

/-- The pins in the order in which they are read. -/
def Round.pins (round : Round) : List Nat := round.before ++ [lastPinInRound]

/-- `rngloop`: a DUO reads two of the pads in each other's place. -/
def rngloop : Hardware → Round
  | .classic => ⟨[1, 22, 15, 23, 17], by decide, by decide, rfl⟩
  | .duo => ⟨[1, 15, 22, 23, 17], by decide, by decide, rfl⟩

/-- A firmware that reads the pads round after round, and one call from another thread. -/
structure Sense where
  hw : Hardware
  round : Round
  start : Pads
  button : Int
  ticks : Int
  /-- How many pads were read before the call. -/
  call : Nat

namespace Sense

variable (w : Sense)

/-- The pin that is read at time `t`. -/
def pinAt (t : Nat) : Nat := w.round.pins.getD (t % 6) 0

/-- The pads just before read `t`; the call comes just before its read. -/
def padsAt : Nat → Pads
  | 0 => if w.call = 0 then w.start.setButtonTicks w.button w.ticks else w.start
  | t + 1 =>
      let s := ((padsAt t).touchForPin w.hw (w.pinAt t)).1
      if w.call = t + 1 then s.setButtonTicks w.button w.ticks else s

/-- What is read at time `t`. -/
def reading (t : Nat) : Nat := ((w.padsAt t).touchForPin w.hw (w.pinAt t)).2

/-- A pad reads held in a round. -/
def HeldIn (round : Nat) (pin : Nat) : Prop :=
  w.reading (6 * round + w.round.pins.idxOf pin) = 6000

end Sense

/-- The pads of a button. -/
def padsOf : Hardware → Int → List Nat
  | .classic, n => if 1 ≤ n ∧ n ≤ numButtons then [pinForButton .classic (n - 1).toNat] else []
  | .duo, 1 => [23]
  | .duo, 2 => [15]
  | .duo, 3 => [23, 15]
  | .duo, _ => []

/-- Each pad of the button reads held in as many rounds as were asked, one after another, and in no
other round. -/
def Sense.CountedExactly (w : Sense) : Prop :=
  padsOf w.hw w.button ≠ [] ∧
    ∃ first : Nat, ∀ round : Nat, ∀ pin ∈ padsOf w.hw w.button,
      w.HeldIn round pin ↔ first ≤ round ∧ (round : Int) < first + w.ticks

/-- The button has a pad, and none of its pads was read yet in the round that the call comes in. -/
def Sense.InTime (w : Sense) : Prop :=
  padsOf w.hw w.button ≠ [] ∧
    ∀ pin ∈ padsOf w.hw w.button, w.call % 6 ≤ w.round.pins.idxOf pin

/-- No button is held. -/
def Pads.Quiet (s : Pads) : Prop := ∀ n, s.button n = false ∧ s.ticks n = 0

/-! ### One hold -/

/-- Of all buttons only `n` is held, with `left` ticks to go; none is when none are left. -/
def Pads.Only (s : Pads) (n left : Nat) : Prop :=
  ∀ m, s.button m = decide (m = n ∧ 0 < left) ∧ s.ticks m = if m = n then left else 0

/-- Pads at rest hold nothing, whatever the pad. -/
theorem Pads.Quiet.only {s : Pads} (h : s.Quiet) (n : Nat) : s.Only n 0 := by
  intro m
  simp [h m]

section

variable {s : Pads} {n left : Nat}

/-- A hold that is counted ages by one. -/
theorem Pads.Only.age (h : s.Only n left) (hn : 1 ≤ n ∧ n ≤ numButtons) :
    s.age.Only n (left - 1) := by
  intro m
  obtain ⟨hbutton, hticks⟩ := h m
  by_cases hm : m = n
  · subst hm
    simp only [Pads.age, hbutton, hticks, hn, if_true, true_and]
    refine ⟨?_, trivial⟩
    -- the last tick also releases the button
    rcases (by omega : left = 0 ∨ left = 1 ∨ 2 ≤ left) with rfl | rfl | hleft
    · rfl
    · rfl
    · rw [if_neg (by omega)]
      simp
      omega
  · simp [Pads.age, hbutton, hticks, hm]

theorem Pads.Only.armed (h : s.Only n 0) (hn : 1 ≤ n ∧ n ≤ numButtons) {ticks : Int}
    (hticks : 1 ≤ ticks) : (s.setButtonTicks n ticks).Only n ticks.toNat := by
  have hnum : numButtons = 6 := rfl
  intro m
  obtain ⟨hbutton, hleft⟩ := h m
  rw [setButtonTicks, if_neg (by omega), if_neg (by omega)]
  by_cases hm : m = n
  · subst hm
    simp
    omega
  · have hm' : (m : Int) ≠ n := by omega
    simp [hm, hm', hbutton, hleft]

/-- On a classic a pad has its own pin. -/
theorem mem_padsOf_classic (hn : 1 ≤ n ∧ n ≤ numButtons) (pin : Nat) :
    pin ∈ padsOf .classic n ↔ pinForButton .classic (n - 1) = pin := by
  have hnum : numButtons = 6 := rfl
  have hin : (1 : Int) ≤ n ∧ (n : Int) ≤ numButtons := by omega
  have hnat : ((n : Int) - 1).toNat = n - 1 := by omega
  simp only [padsOf]
  rw [if_pos hin, List.mem_singleton, hnat, eq_comm]

theorem pinForButton_inj {i j : Nat} (hi : i < numButtons) (hj : j < numButtons)
    (h : pinForButton .classic i = pinForButton .classic j) : i = j := by
  have hall : ∀ i < numButtons, ∀ j < numButtons,
      pinForButton .classic i = pinForButton .classic j → i = j := by
    decide
  exact hall i hi j hj h

/-- What is reported of a pad is whether its button is held. -/
theorem Pads.Only.held_iff (h : s.Only n left) (hn : 1 ≤ n ∧ n ≤ numButtons) (hw : Hardware)
    (pin : Nat) :
    s.held hw pin = true ↔ 0 < left ∧ pin ∈ padsOf hw n := by
  have hnum : numButtons = 6 := rfl
  cases hw with
  | classic =>
    rw [mem_padsOf_classic hn, Pads.held, if_neg (by decide)]
    cases hfind : (List.range numButtons).find? fun i => pinForButton .classic i = pin with
    | none =>
      have hno := List.find?_eq_none.mp hfind (n - 1) (List.mem_range.mpr (by omega))
      simp only [decide_eq_true_eq] at hno
      simp [hno]
    | some i =>
      have hpin : pinForButton .classic i = pin := by simpa using List.find?_some hfind
      have hi := List.mem_range.mp (List.mem_of_find?_eq_some hfind)
      simp only [(h (i + 1)).1, decide_eq_true_eq]
      constructor
      · rintro ⟨hin, hleft⟩
        refine ⟨hleft, ?_⟩
        rw [← hin, Nat.add_sub_cancel, hpin]
      · rintro ⟨hleft, hpin'⟩
        have hsame := pinForButton_inj hi (by omega) (hpin.trans hpin'.symm)
        exact ⟨by omega, hleft⟩
  | duo =>
    rw [Pads.held, if_pos rfl, duoButtonHoldsPin]
    obtain ⟨h1, -⟩ := h 1
    obtain ⟨h2, -⟩ := h 2
    obtain ⟨h3, -⟩ := h 3
    -- the third button is both pads, and the others beyond it none
    have hcases : n = 1 ∨ n = 2 ∨ n = 3 ∨ n = 4 ∨ n = 5 ∨ n = 6 := by omega
    rw [h1, h2, h3]
    rcases hcases with rfl | rfl | rfl | rfl | rfl | rfl
    all_goals
      by_cases h23 : pin = 23
      · subst h23
        simp [padsOf]
      · by_cases h15 : pin = 15
        · subst h15
          simp [padsOf]
        · simp [padsOf, h23, h15]

end

/-! ### The rounds after the call -/

namespace Round

variable (round : Round)

theorem length_pins : round.pins.length = 6 := by
  rw [pins, List.length_append, round.six]
  rfl

/-- Every pad's pin is among them. -/
theorem mem_pins {hw : Hardware} {n : Int} {pin : Nat} (h : pin ∈ padsOf hw n) :
    pin ∈ round.pins := by
  refine round.all pin ?_
  cases hw with
  | classic =>
    simp only [padsOf] at h
    split at h
    · rename_i hn
      have hnum : numButtons = 6 := rfl
      obtain rfl := List.mem_singleton.mp h
      have hall : ∀ i < numButtons, pinForButton .classic i ∈ kClassic := by decide
      exact hall _ (by omega)
    · cases h
  | duo =>
    unfold padsOf at h
    split at h
    · cases ‹Hardware.duo = .classic›
    all_goals revert h; simp only [List.mem_cons, List.not_mem_nil, or_false]
    · rintro rfl
      decide
    · rintro rfl
      decide
    · rintro (rfl | rfl) <;> decide
    · exact False.elim

/-- Pin 16 is the last of them, and only that. -/
theorem pin_last {i : Nat} (hi : i < 6) : round.pins.getD i 0 = lastPinInRound ↔ i = 5 := by
  have hlen := round.length_pins
  have hsix := round.six
  have hfive : 5 < round.pins.length := by omega
  have hlast : round.pins[5] = lastPinInRound := by
    simp [pins, hsix]
  rw [List.getD_eq_getElem?_getD, List.getElem?_eq_getElem (by omega), Option.getD_some]
  constructor
  · intro h
    exact (round.nodup.getElem_inj_iff).mp (h.trans hlast.symm)
  · rintro rfl
    exact hlast

end Round

namespace Sense

variable {w : Sense} {n : Nat}

/-- How many ticks the hold has left before read `t`. -/
def left (w : Sense) (t : Nat) : Nat :=
  if t < w.call then 0 else w.ticks.toNat - (t / 6 - w.call / 6)

/-- At every time just the armed pad is held, for the rounds that are left. -/
theorem padsAt_only (hquiet : w.start.Quiet) (hbutton : w.button = n)
    (hn : 1 ≤ n ∧ n ≤ numButtons) (hticks : 1 ≤ w.ticks) (t : Nat) :
    (w.padsAt t).Only n (w.left t) := by
  induction t with
  | zero =>
    simp only [padsAt, left, hbutton]
    split
    · rename_i hcall
      rw [if_neg (by omega)]
      simpa [hcall] using (hquiet.only n).armed hn hticks
    · rw [if_pos (by omega)]
      exact hquiet.only n
  | succ t ih =>
    -- the last read of a round takes a tick
    have hread : (((w.padsAt t).touchForPin w.hw (w.pinAt t)).1).Only n
        (if t % 6 = 5 then w.left t - 1 else w.left t) := by
      have hlast : w.pinAt t = lastPinInRound ↔ t % 6 = 5 :=
        w.round.pin_last (Nat.mod_lt t (by decide))
      by_cases h5 : t % 6 = 5
      · rw [if_pos h5, touchForPin_fst, if_pos (hlast.mpr h5)]
        exact ih.age hn
      · rw [if_neg h5, touchForPin_fst, if_neg (mt hlast.mp h5)]
        exact ih
    simp only [padsAt]
    split
    · rename_i hcall
      -- nothing was held before the call
      have hnone : (if t % 6 = 5 then w.left t - 1 else w.left t) = 0 := by
        simp [left, hcall]
      rw [hnone] at hread
      have hleft : w.left (t + 1) = w.ticks.toNat := by
        simp [left, hcall]
      rw [hleft, hbutton]
      exact hread.armed hn hticks
    · rename_i hcall
      have hleft : w.left (t + 1) = if t % 6 = 5 then w.left t - 1 else w.left t := by
        unfold left
        split <;> split <;> split <;> omega
      rw [hleft]
      exact hread

/-- A pad of the button reads held from the call on, for as many rounds as were asked, counted from
the round of the call. -/
theorem heldIn_iff (hquiet : w.start.Quiet) (hbutton : w.button = n)
    (hn : 1 ≤ n ∧ n ≤ numButtons) (hticks : 1 ≤ w.ticks) {pin : Nat}
    (hpin : pin ∈ padsOf w.hw w.button) (round : Nat) :
    w.HeldIn round pin ↔ w.call ≤ 6 * round + w.round.pins.idxOf pin ∧
      (round : Int) < w.call / 6 + w.ticks := by
  have hmem := w.round.mem_pins hpin
  have hi : w.round.pins.idxOf pin < 6 := w.round.length_pins ▸ List.idxOf_lt_length_of_mem hmem
  have hat : w.pinAt (6 * round + w.round.pins.idxOf pin) = pin := by
    have hmod : (6 * round + w.round.pins.idxOf pin) % 6 = w.round.pins.idxOf pin := by omega
    rw [pinAt, hmod, List.getD_eq_getElem?_getD, List.getElem?_idxOf hmem, Option.getD_some]
  have honly := w.padsAt_only hquiet hbutton hn hticks (6 * round + w.round.pins.idxOf pin)
  have hheld := honly.held_iff hn w.hw pin
  have hread : w.HeldIn round pin ↔
      (w.padsAt (6 * round + w.round.pins.idxOf pin)).held w.hw pin = true := by
    simp only [HeldIn, reading, Pads.touchForPin, hat]
    split <;> simp_all
  rw [hread, hheld, left, ← hbutton]
  constructor
  · rintro ⟨hleft, -⟩
    split at hleft
    · cases hleft
    · omega
  · rintro ⟨hafter, hbefore⟩
    refine ⟨?_, hpin⟩
    rw [if_neg (by omega)]
    omega

end Sense

/-- A number with a pad is one of the six. -/
theorem padsOf_range {hw : Hardware} {n : Int} (h : padsOf hw n ≠ []) :
    ∃ k : Nat, n = k ∧ 1 ≤ k ∧ k ≤ numButtons := by
  have hnum : numButtons = 6 := rfl
  refine ⟨n.toNat, ?_⟩
  unfold padsOf at h
  split at h
  · split at h
    · omega
    · exact absurd rfl h
  all_goals first | omega | exact absurd rfl h

/-- A hold counts as many rounds as were asked exactly when the call comes before the round reads a
pad of its button. -/
theorem counted_exactly_iff (w : Sense) (hquiet : w.start.Quiet) (hticks : 1 ≤ w.ticks) :
    w.CountedExactly ↔ w.InTime := by
  refine and_congr_right fun hpads => ?_
  obtain ⟨n, hbutton, hn⟩ := padsOf_range hpads
  have hheld {pin : Nat} (hpin : pin ∈ padsOf w.hw w.button) (round : Nat) :=
    w.heldIn_iff hquiet hbutton hn hticks hpin round
  have hround {pin : Nat} (hpin : pin ∈ padsOf w.hw w.button) :
      w.round.pins.idxOf pin < 6 :=
    w.round.length_pins ▸ List.idxOf_lt_length_of_mem (w.round.mem_pins hpin)
  constructor
  · rintro ⟨first, hfirst⟩ pin hpin
    have hi := hround hpin
    -- a pad that was read already has its first round one later, and the last one stays
    by_contra hlate
    have hbegin := (hheld hpin first).mp ((hfirst first pin hpin).mpr ⟨Nat.le_refl _, by omega⟩)
    obtain ⟨last, hlast⟩ : ∃ last : Nat, (last : Int) = first + w.ticks - 1 :=
      ⟨first + (w.ticks - 1).toNat, by omega⟩
    have hend := (hheld hpin last).mp ((hfirst last pin hpin).mpr ⟨by omega, by omega⟩)
    omega
  · intro hin
    refine ⟨w.call / 6, fun round pin hpin => ?_⟩
    have hi := hround hpin
    have hbefore := hin pin hpin
    rw [hheld hpin]
    omega

/-- A tap of one tick on button 1 of a classic key, while it is at rest. -/
def tapAt (call : Nat) : Sense := ⟨.classic, rngloop .classic, {}, 1, 1, call⟩

/-- Pads that nothing has touched. -/
theorem quiet_rest : Pads.Quiet {} := fun _ => ⟨rfl, rfl⟩

theorem counted_exactly_iff_tap : (tapAt 3).CountedExactly :=
  (counted_exactly_iff (tapAt 3) quiet_rest (by decide)).mpr ⟨by decide, by decide⟩

/-- The call comes after the round has read the pad. -/
theorem late_tap_is_lost : ¬ ∀ w : Sense, w.start.Quiet → 1 ≤ w.ticks → w.CountedExactly := by
  intro h
  obtain ⟨-, first, hfirst⟩ := h (tapAt 4) quiet_rest (by decide)
  have hmem : 23 ∈ padsOf .classic 1 := by decide
  have hheld := (Sense.heldIn_iff (w := tapAt 4) (n := 1) quiet_rest rfl (by decide) (by decide)
    hmem first).mp ((hfirst first 23 hmem).mpr ⟨Nat.le_refl _, Int.lt_succ _⟩)
  have hidx : (tapAt 4).round.pins.idxOf 23 = 3 := by decide
  rw [hidx] at hheld
  simp only [tapAt] at hheld
  omega

end OkRn.Hal
