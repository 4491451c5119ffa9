/-
OkRn/Lib/DoubleBuffer.lean

A record kept in two cells, written to one and the other in turn.

Each record carries a generation, a 32-bit counter that every save increments.
A save writes the cell the parity of the new generation names, so the record
saved before stays whole while the new one is being written.  A load reads
both cells and takes the readable record with the higher generation.

`Backed read gen start c r` says the cells `c` hold `r` as the record last saved
(or nothing has been saved and `r` is the start record).  A save
(`Backed.write`) and a save cut off half way (`Backed.torn`) keep it, and a
load returns `r` (`Backed.load_eq`), with one exception: the counter.  When it
has just wrapped to 0, the other cell holds the highest generation there is,
and the comparison takes that one.  `Unwrapped` rules this out and nothing
else.
-/
import Mathlib.Logic.Function.Basic
import Mathlib.Tactic.Linarith

namespace OkRn.DoubleBuffer

variable {σ R : Type*}

/-- The cell a record of generation `g` is written to: the second one when odd. -/
def side (g : UInt32) : Bool := g % 2 == 1

/-- The next generation is on the other side. -/
theorem side_succ (g : UInt32) : side (g + 1) = !side g := by
  have hg := g.toNat_lt
  have h2 : ∀ a : UInt32, side a = decide (a.toNat % 2 = 1) := by
    intro a
    simp only [side, beq_eq_decide, ← UInt32.toNat_inj, UInt32.toNat_mod, UInt32.reduceToNat]
  rw [h2, h2, ← decide_not, decide_eq_decide, UInt32.toNat_add]
  simp only [UInt32.reduceToNat, Nat.reducePow]
  omega

theorem side_zero : side 0 = false := rfl

/-- The generation before a nonzero one is the smaller of the two. -/
theorem lt_of_succ_eq {a b : UInt32} (h : a + 1 = b) (hb : b ≠ 0) : a < b := by
  have ha := a.toNat_lt
  have hb' : b.toNat ≠ 0 := fun e => hb (UInt32.toNat_inj.mp e)
  have h' : (a.toNat + 1) % 2 ^ 32 = b.toNat := by
    simpa [UInt32.toNat_add] using congrArg UInt32.toNat h
  rw [UInt32.lt_iff_toNat_lt]
  omega

section Load

variable (read : σ → Option R) (gen : R → UInt32) (start : R)

/-- The newer readable record of the two cells, the start record when neither reads. -/
def load (c : Bool → σ) : R :=
  match read (c false), read (c true) with
  | some a, some b => if gen b < gen a then a else b
  | some a, none => a
  | none, some b => b
  | none, none => start

/-- The cells hold `r` as the record last saved. -/
structure Holds (c : Bool → σ) (r : R) : Prop where
  newest : read (c (side (gen r))) = some r
  other : ∀ r', read (c (!side (gen r))) = some r' → gen r' + 1 = gen r

/-- The cells hold `r`, or hold nothing and `r` is the start record. -/
def Backed (c : Bool → σ) (r : R) : Prop :=
  Holds read gen c r ∨ (r = start ∧ ∀ s, read (c s) = none)

/-- The generation of `r` did not reach 0 by wrapping round. -/
def Unwrapped (c : Bool → σ) (r : R) : Prop := gen r = 0 → read (c true) = none

variable {read gen start}
variable {c : Bool → σ} {r r' : R} {cell : σ}

/-- A load returns the record last saved, unless its generation wrapped to 0. -/
theorem Backed.load_eq (h : Backed read gen start c r) (hw : Unwrapped read gen c r) :
    load read gen start c = r := by
  rcases h with ⟨hnew, hother⟩ | ⟨rfl, hblank⟩
  · rcases hs : side (gen r) with - | -
    · -- the record is in the first cell
      rw [hs] at hnew hother
      rcases hb : read (c true) with - | b
      · simp [load, hnew, hb]
      · have hg : gen b + 1 = gen r := hother b hb
        have hr0 : gen r ≠ 0 := fun h0 => by simp [hw h0] at hb
        have hlt : gen b < gen r := lt_of_succ_eq hg hr0
        simp [load, hnew, hb, hlt]
    · -- the record is in the second cell: the first one is older or unreadable
      rw [hs] at hnew hother
      rcases ha : read (c false) with - | a
      · simp [load, hnew, ha]
      · have hg : gen a + 1 = gen r := hother a ha
        have hr0 : gen r ≠ 0 := fun h0 => by rw [h0, side_zero] at hs; cases hs
        have hlt : ¬ gen r < gen a := UInt32.lt_asymm (lt_of_succ_eq hg hr0)
        simp [load, hnew, ha, hlt]
  · simp [load, hblank]

/-- A save keeps the cells in step. -/
theorem Backed.write (h : Backed read gen start c r) (hstart : gen start = 0)
    (hgen : gen r' = gen r + 1) (hcell : read cell = some r') :
    Backed read gen start (Function.update c (side (gen r')) cell) r' := by
  refine Or.inl ⟨by simpa using hcell, fun r'' hr'' => ?_⟩
  have hside : (!side (gen r')) = side (gen r) := by rw [hgen, side_succ, Bool.not_not]
  rw [hside, Function.update_of_ne (by rw [← hside]; simp)] at hr''
  rcases h with ⟨hnew, -⟩ | ⟨rfl, hblank⟩
  · obtain rfl : r = r'' := Option.some.inj (hnew.symm.trans hr'')
    exact hgen.symm
  · simp [hblank] at hr''

/-- A save cut off leaves the record saved before it in place. -/
theorem Backed.torn (h : Backed read gen start c r) (hjunk : read cell = none) :
    Backed read gen start (Function.update c (side (gen r + 1)) cell) r := by
  rw [side_succ]
  rcases h with ⟨hnew, -⟩ | ⟨rfl, hblank⟩
  · refine Or.inl ⟨?_, fun r'' hr'' => ?_⟩
    · rw [Function.update_of_ne (by simp)]
      exact hnew
    · simp [hjunk] at hr''
  · refine Or.inr ⟨rfl, fun s => ?_⟩
    by_cases hs : s = !side (gen r)
    · rw [hs, Function.update_self]
      exact hjunk
    · rw [Function.update_of_ne hs]
      exact hblank s

end Load

end OkRn.DoubleBuffer
