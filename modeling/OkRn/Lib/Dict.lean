/-
OkRn/Lib/Dict.lean

Objects with numeric keys, in ascending order, as an association list.
-/
import Mathlib.Data.List.Basic

namespace OkRn

/-- An object whose keys are numbers. -/
abbrev Dict (α : Type) := List (Nat × α)

namespace Dict

variable {α : Type}

/-- The value at a key. -/
def get (n : Nat) : Dict α → Option α
  | [] => none
  | (m, a) :: d => if m = n then some a else get n d

/-- The value at a key, set. -/
def set (n : Nat) (a : α) : Dict α → Dict α
  | [] => [(n, a)]
  | (m, b) :: d => if n < m then (n, a) :: (m, b) :: d else if m = n then (n, a) :: d
      else (m, b) :: set n a d

/-- `{...d, ...d'}`. -/
def spread (d d' : Dict α) : Dict α := d'.foldl (fun d x => d.set x.1 x.2) d

variable {n m : Nat} {a : α} {d d' : Dict α}

/-- Nothing is in the empty one. -/
@[simp] theorem get_nil : get n ([] : Dict α) = none := rfl

/-- The first entry, or one of the rest. -/
theorem get_cons (x : Nat × α) : get n (x :: d) = if x.1 = n then some x.2 else get n d := rfl

@[simp] theorem get_set_self : get n (set n a d) = some a := by
  induction d with
  | nil => simp [set, get_cons]
  | cons x d ih =>
    obtain ⟨m, b⟩ := x
    by_cases hlt : n < m
    · simp [set, hlt, get_cons]
    · by_cases heq : m = n
      · simp [set, heq, get_cons]
      · simp [set, hlt, heq, get_cons, ih]

theorem get_set_of_ne (h : m ≠ n) : get m (set n a d) = get m d := by
  induction d with
  | nil => simp [set, get_cons, h.symm]
  | cons x d ih =>
    obtain ⟨m', b⟩ := x
    by_cases hlt : n < m'
    · simp [set, hlt, get_cons, h.symm]
    · by_cases heq : m' = n
      · subst heq
        simp [set, get_cons, h.symm]
      · simp [set, hlt, heq, get_cons, ih]

/-- What a spread leaves alone: the keys the second object does not have. -/
theorem get_spread_of_none (h : get n d' = none) : get n (spread d d') = get n d := by
  induction d' generalizing d with
  | nil => rfl
  | cons x d' ih =>
    have hx : x.1 ≠ n := by
      intro hx
      rw [get_cons, if_pos hx] at h
      cases h
    rw [get_cons, if_neg hx] at h
    rw [spread, List.foldl_cons]
    exact (ih h).trans (get_set_of_ne hx.symm)

end Dict

end OkRn
