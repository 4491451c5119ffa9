/-
OkRn/Lib/Numbered.lean

Logs numbered without a gap, newest first, each entry bound to the one before it.

A log of this kind is a chain: each entry has the number after the one before it, and a relation
`Bound` to that entry, such as a hash of it.

* `Numbered.descending`: the numbers go down, so that the newest entry has the greatest
  (`Numbered.le_newest`);
* `Numbered.unique`: an entry is known by its number;
* `Numbered.bound`: an entry is bound to the one whose number comes just before its own, wherever
  the two stand in the log.
-/
import Mathlib.Data.List.Chain

namespace OkRn

variable {α : Type*} {no : α → Nat} {Bound : α → α → Prop} {l : List α} {a b x : α}

/-- Each entry has the number after the one before it, and is bound to it. -/
def Numbered (no : α → Nat) (Bound : α → α → Prop) (l : List α) : Prop :=
  l.IsChain fun a b => no a = no b + 1 ∧ Bound a b

namespace Numbered

theorem tail (h : Numbered no Bound (x :: l)) : Numbered no Bound l := List.IsChain.tail h

theorem descending (h : Numbered no Bound l) : l.Pairwise fun a b => no b < no a := by
  have hchain : (l.map no).IsChain (· > ·) := (List.isChain_map no).mpr <| h.imp fun a b hab => by
    show no b < no a
    omega
  exact List.pairwise_map.mp (List.isChain_iff_pairwise.mp hchain)

/-- The newest has the greatest number. -/
theorem lt_head (h : Numbered no Bound (x :: l)) (hb : b ∈ l) : no b < no x :=
  List.rel_of_pairwise_cons h.descending hb

/-- An entry is known by its number. -/
theorem unique (h : Numbered no Bound l) (ha : a ∈ l) (hb : b ∈ l) (hno : no a = no b) :
    a = b := by
  induction l with
  | nil => cases ha
  | cons x l ih =>
    rcases List.mem_cons.mp ha with rfl | ha' <;> rcases List.mem_cons.mp hb with rfl | hb'
    · rfl
    · exact absurd hno (Nat.ne_of_gt (h.lt_head hb'))
    · exact absurd hno (Nat.ne_of_lt (h.lt_head ha'))
    · exact ih h.tail ha' hb'

/-- The entries of neighbouring numbers are neighbours. -/
theorem bound (h : Numbered no Bound l) (ha : a ∈ l) (hb : b ∈ l) (hno : no a = no b + 1) :
    Bound a b := by
  induction l with
  | nil => cases ha
  | cons x l ih =>
    rcases List.mem_cons.mp ha with rfl | ha' <;> rcases List.mem_cons.mp hb with rfl | hb'
    · omega
    · -- what comes just before `a` has this number as well
      cases l with
      | nil => cases hb'
      | cons y l =>
        obtain ⟨⟨hnext, hbound⟩, -⟩ := List.isChain_cons_cons.mp h
        have hy : y = b := h.tail.unique List.mem_cons_self hb' (by omega)
        exact hy ▸ hbound
    · have hlt := h.lt_head ha'
      omega
    · exact ih h.tail ha' hb'

/-- No entry has a greater number than the newest. -/
theorem le_newest (h : Numbered no Bound l) (hx : x ∈ l.head?) (ha : a ∈ l) : no a ≤ no x := by
  cases l with
  | nil => cases ha
  | cons y l =>
    obtain rfl : y = x := Option.some.inj hx
    rcases List.mem_cons.mp ha with rfl | ha
    · exact Nat.le_refl _
    · exact (h.lt_head ha).le

end Numbered

end OkRn
