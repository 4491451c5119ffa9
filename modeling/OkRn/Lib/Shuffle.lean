/-
OkRn/Lib/Shuffle.lean

Fisher-Yates, from the last place down.

A shuffle of `i + 1` places takes an index below `i + 1`, then one below `i`, and so
on.  Each order of distinct things comes from exactly one choice of these indices
(`existsUnique_choice`): the index that is taken first says what the last place gets,
and nothing later touches that place.
-/
import Mathlib.Data.List.Nodup

namespace OkRn.Shuffle

variable {α : Type*}

/-- The things at two places change places. -/
def swap (l : List α) (i j : Nat) : List α :=
  match l[i]?, l[j]? with
  | some a, some b => (l.set i b).set j a
  | _, _ => l

/-- The swaps with the indices that were taken, from place `i` down to place 1. -/
def swaps : Nat → List Nat → List α → List α
  | i + 1, j :: js, l => swaps i js (swap l (i + 1) j)
  | _, _, l => l

/-- One index for each place from `i` down to 1, none above its place. -/
def Choice : Nat → List Nat → Prop
  | 0, js => js = []
  | i + 1, js => ∃ j rest, js = j :: rest ∧ j < i + 2 ∧ Choice i rest

variable {l p : List α} {i j : Nat} {js : List Nat}

theorem swap_eq (hi : i < l.length) (hj : j < l.length) :
    swap l i j = (l.set i l[j]).set j l[i] := by
  simp [swap, List.getElem?_eq_getElem hi, List.getElem?_eq_getElem hj]

theorem swap_perm (l : List α) (i j : Nat) : (swap l i j).Perm l := by
  by_cases hi : i < l.length
  · by_cases hj : j < l.length
    · rw [swap_eq hi hj]
      exact List.set_set_perm hi hj
    · simp [swap, List.getElem?_eq_none (Nat.not_lt.mp hj)]
  · simp [swap, List.getElem?_eq_none (Nat.not_lt.mp hi)]

theorem swaps_perm (i : Nat) (js : List Nat) (l : List α) : (swaps i js l).Perm l := by
  induction i generalizing js l with
  | zero => rfl
  | succ i ih =>
    cases js with
    | nil => rfl
    | cons j js => exact (ih js (swap l (i + 1) j)).trans (swap_perm l (i + 1) j)

/-- A swap leaves the places behind it alone. -/
theorem swap_append (hi : i < l.length) (hj : j < l.length) (tail : List α) :
    swap (l ++ tail) i j = swap l i j ++ tail := by
  have hi' : i < (l ++ tail).length := by
    rw [List.length_append]
    omega
  have hj' : j < (l ++ tail).length := by
    rw [List.length_append]
    omega
  rw [swap_eq hi hj, swap_eq hi' hj', List.getElem_append_left hi, List.getElem_append_left hj,
    List.set_append_left _ _ hi, List.set_append_left _ _ (by simpa using hj)]

/-- What is beyond the places stays. -/
theorem swaps_append (hi : i < l.length) (hjs : Choice i js) (tail : List α) :
    swaps i js (l ++ tail) = swaps i js l ++ tail := by
  induction i generalizing l js with
  | zero => rfl
  | succ i ih =>
    obtain ⟨j, rest, rfl, hj, hrest⟩ := hjs
    have hlen : (swap l (i + 1) j).length = l.length := (swap_perm l (i + 1) j).length_eq
    show swaps i rest (swap (l ++ tail) (i + 1) j) = swaps i rest (swap l (i + 1) j) ++ tail
    rw [swap_append hi (by omega)]
    exact ih (by omega) hrest

/-- The first swap puts the thing at the index that was taken last. -/
theorem swap_last (hl : l.length = i + 1) (hj : j < l.length) :
    ∃ front, swap l i j = front ++ [l[j]] ∧ front.length = i := by
  have hlen : (swap l i j).length = i + 1 := (swap_perm l i j).length_eq.trans hl
  have hne : swap l i j ≠ [] := by
    intro h
    rw [h] at hlen
    cases hlen
  refine ⟨(swap l i j).dropLast, ?_, by rw [List.length_dropLast, hlen]; rfl⟩
  have hlast : (swap l i j).getLast hne = l[j] := by
    obtain rfl : i = l.length - 1 := by omega
    simp only [List.getLast_eq_getElem, swap_eq (by omega : l.length - 1 < l.length) hj,
      List.getElem_set, List.length_set]
    split
    · rename_i h
      simp only [h]
    · rfl
  rw [← hlast]
  exact (List.dropLast_append_getLast hne).symm

/-- Each order of distinct things comes from exactly one choice of indices. -/
theorem existsUnique_choice (hl : l.length = i + 1) (hnodup : l.Nodup) (hp : p.Perm l) :
    ∃! js, Choice i js ∧ swaps i js l = p := by
  induction i generalizing l p with
  | zero =>
    obtain ⟨x, rfl⟩ := List.length_eq_one_iff.mp hl
    exact ⟨[], ⟨rfl, (List.perm_singleton.mp hp).symm⟩, fun js h => h.1⟩
  | succ i ih =>
    -- what the order has in the last place
    obtain ⟨before, y, rfl⟩ : ∃ before y, p = before ++ [y] := by
      refine ⟨p.dropLast, p.getLast ?_, (List.dropLast_append_getLast _).symm⟩
      rintro rfl
      rw [hp.symm.eq_nil] at hl
      cases hl
    obtain ⟨j, hj, hy⟩ := List.mem_iff_getElem.mp (hp.subset (List.mem_concat_self))
    obtain ⟨front, hswap, hfront⟩ := swap_last hl hj
    have hperm : (front ++ [l[j]]).Perm l := hswap ▸ swap_perm l (i + 1) j
    have hbefore : before.Perm front := by
      rw [← hy] at hp
      exact (List.perm_append_right_iff _).mp (hp.trans hperm.symm)
    have hfrontNodup : front.Nodup := (hperm.nodup_iff.mpr hnodup).of_append_left
    obtain ⟨js, ⟨hjs, hswaps⟩, honly⟩ := ih hfront hfrontNodup hbefore
    refine ⟨j :: js, ⟨⟨j, js, rfl, by omega, hjs⟩, ?_⟩, ?_⟩
    · show swaps i js (swap l (i + 1) j) = before ++ [y]
      rw [hswap, swaps_append (by omega) hjs, hswaps, hy]
    · rintro _ ⟨⟨j', rest, rfl, hj', hrest⟩, hresult⟩
      have hj'' : j' < l.length := by omega
      obtain ⟨front', hswap', hfront'⟩ := swap_last hl hj''
      have hresult' : swaps i rest front' ++ [l[j']] = before ++ [y] := by
        rw [← swaps_append (by omega) hrest, ← hswap']
        exact hresult
      obtain ⟨hrests, hlast⟩ := List.append_inj' hresult' rfl
      have hsame : l[j'] = l[j] := by
        rw [hy]
        exact List.singleton_inj.mp hlast
      obtain rfl : j' = j := (hnodup.getElem_inj_iff).mp hsame
      obtain rfl : front' = front := List.append_cancel_right (hswap'.symm.trans hswap)
      rw [honly rest ⟨hrest, hrests⟩]

end OkRn.Shuffle
