/-
OkRn/Lib/Ring.lean

A bounded ring buffer: an array, the place to read, the place to write, a count.

The three numbers belong together, and the structure says how.  `contents` reads the
buffer as the list that it stands for; `push` appends to it and `pop` takes its head.
-/
import Mathlib.Logic.Function.Basic
import Mathlib.Data.List.Basic

namespace OkRn

/-- A ring of `size` slots. -/
structure Ring (α : Type) (size : Nat) where
  slots : Nat → α
  /-- Next to hand over. -/
  head : Nat
  /-- Next free slot. -/
  tail : Nat
  count : Nat
  head_lt : head < size
  tail_eq : tail = (head + count) % size
  count_le : count ≤ size

namespace Ring

variable {α : Type} {size : Nat}

/-- A ring with nothing in it. -/
def empty (filler : α) (hsize : 0 < size) : Ring α size :=
  ⟨fun _ => filler, 0, 0, 0, hsize, (Nat.zero_mod _).symm, Nat.zero_le _⟩

/-- One more at the end. -/
def push (r : Ring α size) (a : α) (room : r.count < size) : Ring α size where
  slots := Function.update r.slots r.tail a
  head := r.head
  tail := (r.tail + 1) % size
  count := r.count + 1
  head_lt := r.head_lt
  tail_eq := by rw [r.tail_eq, Nat.mod_add_mod, Nat.add_assoc]
  count_le := room

/-- The next to hand over. -/
def front (r : Ring α size) : α := r.slots r.head

/-- The next is handed over. -/
def pop (r : Ring α size) (any : 0 < r.count) : Ring α size where
  slots := r.slots
  head := (r.head + 1) % size
  tail := r.tail
  count := r.count - 1
  head_lt := Nat.mod_lt _ (Nat.lt_of_le_of_lt (Nat.zero_le _) r.head_lt)
  tail_eq := by
    rw [r.tail_eq, Nat.mod_add_mod]
    congr 1
    omega
  count_le := Nat.le_trans (Nat.sub_le _ _) r.count_le

/-- What the buffer holds, the oldest first. -/
def contents (r : Ring α size) : List α :=
  (List.range r.count).map fun k => r.slots ((r.head + k) % size)

/-- It holds as many as it counts. -/
@[simp] theorem length_contents (r : Ring α size) : r.contents.length = r.count := by
  simp [contents]

/-- The empty ring holds nothing. -/
@[simp] theorem contents_empty (filler : α) (hsize : 0 < size) :
    (empty filler hsize).contents = [] := rfl

/-- The slots in use are apart from the one that is written. -/
theorem slot_ne_tail (r : Ring α size) {k : Nat} (hk : k < r.count) (room : r.count < size) :
    (r.head + k) % size ≠ r.tail := by
  rw [r.tail_eq]
  intro h
  have hhead := r.head_lt
  -- neither sum passes the end of the array twice
  have hmod (n : Nat) (hn : n < size) :
      (r.head + n) % size = if r.head + n < size then r.head + n else r.head + n - size := by
    split
    · rename_i hlt
      exact Nat.mod_eq_of_lt hlt
    · rename_i hge
      rw [Nat.mod_eq_sub_mod (by omega), Nat.mod_eq_of_lt (by omega)]
  rw [hmod k (by omega), hmod r.count room] at h
  split at h <;> split at h <;> omega

@[simp] theorem contents_push (r : Ring α size) (a : α) (room : r.count < size) :
    (r.push a room).contents = r.contents ++ [a] := by
  have hslots : ∀ k ∈ List.range r.count,
      Function.update r.slots r.tail a ((r.head + k) % size) = r.slots ((r.head + k) % size) := by
    intro k hk
    exact Function.update_of_ne (r.slot_ne_tail (List.mem_range.mp hk) room) a r.slots
  have hlast : Function.update r.slots r.tail a ((r.head + r.count) % size) = a := by
    rw [← r.tail_eq, Function.update_self]
  simp only [contents, push, List.range_succ, List.map_append, List.map_cons, List.map_nil, hlast]
  rw [List.map_congr_left hslots]

theorem contents_pop (r : Ring α size) (any : 0 < r.count) :
    r.contents = r.front :: (r.pop any).contents := by
  obtain ⟨n, hn⟩ : ∃ n, r.count = n + 1 := ⟨r.count - 1, by omega⟩
  have hfirst : (r.head + 0) % size = r.head := Nat.mod_eq_of_lt r.head_lt
  simp only [contents, pop, front, hn, List.range_succ_eq_map, List.map_cons, List.map_map,
    Nat.add_one_sub_one, hfirst]
  refine congrArg (r.slots r.head :: ·) (List.map_congr_left fun k _ => ?_)
  simp only [Function.comp_apply, Nat.mod_add_mod]
  congr 2
  omega

end Ring

end OkRn
