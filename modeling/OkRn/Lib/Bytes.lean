/-
OkRn/Lib/Bytes.lean

Byte strings of a fixed length, and the little-endian words laid out in them.

A record format is a concatenation of fields.  A writer appends the fields; a
reader takes each field back at its offset.  The lemmas `slice_skip` and
`slice_here` (`at_skip` and `at_here` for a single byte) let `simp` walk over the
fields before an offset to the one that starts there.  Together with the round
trips of the words (`ofLe32_le32`, `ofLe16_le16`) they turn "decode undoes encode"
into a computation with lengths.
-/
import Mathlib.Data.List.Basic
import Mathlib.Tactic.Linarith

namespace OkRn

/-- A byte string of length `n`. -/
structure Bytes (n : Nat) where
  toList : List UInt8
  length_toList : toList.length = n
  deriving DecidableEq

namespace Bytes

variable {n m : Nat}

attribute [simp] length_toList

/-- A byte string is its bytes. -/
@[ext] theorem ext {a b : Bytes n} (h : a.toList = b.toList) : a = b := by
  cases a; cases b; simpa using h

/-- The first `n` bytes of `l`, padded with zeros when `l` is shorter. -/
def pack (n : Nat) (l : List UInt8) : Bytes n where
  toList := (l ++ List.replicate n 0).take n
  length_toList := by simp

/-- `n` zero bytes. -/
def zero (n : Nat) : Bytes n := pack n []

instance : Inhabited (Bytes n) := ⟨zero n⟩

/-- The first `m` bytes. -/
def first (m : Nat) (b : Bytes n) : Bytes m := pack m b.toList

/-- The `n` bytes read at offset `off`. -/
def slice (l : List UInt8) (off n : Nat) : Bytes n := pack n (l.drop off)

/-- The byte read at offset `off`. -/
def at? (l : List UInt8) (off : Nat) : UInt8 := l.getD off 0

/-- What is beyond the length is cut off. -/
theorem pack_append (b : Bytes n) (l : List UInt8) : pack n (b.toList ++ l) = b := by
  apply ext
  have hlen : b.toList.length = n := b.length_toList
  simp [pack, hlen]

/-- A byte string packed again. -/
@[simp] theorem pack_toList (b : Bytes n) : pack n b.toList = b := by
  simpa using pack_append b []

/-! ### Reading fields back

The simp set below walks over the fields before an offset and stops at the field
that starts there. -/

@[simp] theorem slice_skip {a l : List UInt8} {off : Nat} (h : a.length ≤ off) :
    slice (a ++ l) off n = slice l (off - a.length) n := by
  simp [slice, List.drop_append, List.drop_eq_nil_of_le h]

@[simp] theorem slice_here (b : Bytes n) (l : List UInt8) : slice (b.toList ++ l) 0 n = b := by
  simp [slice, pack_append]

@[simp] theorem slice_last (b : Bytes n) : slice b.toList 0 n = b := by
  simp [slice]

@[simp] theorem slice_cons {c : UInt8} {l : List UInt8} {off : Nat} (h : 0 < off) :
    slice (c :: l) off n = slice l (off - 1) n := by
  obtain ⟨k, rfl⟩ : ∃ k, off = k + 1 := ⟨off - 1, by omega⟩
  simp [slice]

@[simp] theorem at_skip {a l : List UInt8} {off : Nat} (h : a.length ≤ off) :
    at? (a ++ l) off = at? l (off - a.length) := by
  simp [at?, List.getElem?_append_right h]

@[simp] theorem at_here (c : UInt8) (l : List UInt8) : at? (c :: l) 0 = c := rfl

@[simp] theorem at_cons {c : UInt8} {l : List UInt8} {off : Nat} (h : 0 < off) :
    at? (c :: l) off = at? l (off - 1) := by
  obtain ⟨k, rfl⟩ : ∃ k, off = k + 1 := ⟨off - 1, by omega⟩
  simp [at?]

/-! ### Packed fields -/

/-- The bytes of what is packed. -/
theorem at_pack {N off : Nat} {l : List UInt8} (h : off < N) :
    at? (pack N l).toList off = at? l off := by
  simp only [at?, pack, List.getD_eq_getElem?_getD, List.getElem?_take_of_lt h,
    List.getElem?_append]
  by_cases hin : off < l.length
  · rw [if_pos hin]
  · rw [if_neg hin, List.getElem?_eq_none (Nat.not_lt.mp hin)]
    rw [List.getElem?_replicate]
    split <;> rfl

theorem toList_slice {l : List UInt8} {off : Nat} :
    (slice l off n).toList = (List.range n).map fun i => at? l (off + i) := by
  refine List.ext_getElem (by simp) fun i hi hi' => ?_
  have hi : i < n := by simpa using hi
  have hget : at? (pack n (l.drop off)).toList i = at? (l.drop off) i := at_pack hi
  have hslice : (slice l off n).toList[i] = at? (slice l off n).toList i := by
    simp [at?, List.getD_eq_getElem?_getD, hi]
  rw [hslice]
  simp only [List.getElem_map, List.getElem_range]
  refine hget.trans ?_
  simp [at?, List.getD_eq_getElem?_getD]

theorem slice_pack {N off : Nat} {l : List UInt8} (h : off + n ≤ N) :
    slice (pack N l).toList off n = slice l off n := by
  apply ext
  rw [toList_slice, toList_slice]
  refine List.map_congr_left fun i hi => at_pack ?_
  have hi := List.mem_range.mp hi
  omega

/-! ### Putting fields back -/

/-- A field and what follows it. -/
theorem slice_append_drop {l : List UInt8} (off : Nat) (h : off + n ≤ l.length) :
    (slice l off n).toList ++ l.drop (off + n) = l.drop off := by
  have htake : (slice l off n).toList = (l.drop off).take n := by
    show ((l.drop off) ++ List.replicate n 0).take n = _
    rw [List.take_append_of_le_length (by rw [List.length_drop]; omega)]
  rw [htake, ← List.drop_drop, List.take_append_drop]

/-- A byte and what follows it. -/
theorem at_cons_drop {l : List UInt8} {off : Nat} (h : off < l.length) :
    at? l off :: l.drop (off + 1) = l.drop off := by
  rw [List.drop_eq_getElem_cons h, at?, List.getD_eq_getElem?_getD, List.getElem?_eq_getElem h]
  rfl

/-! ### Little-endian words -/

/-- The four bytes of a 32-bit word, lowest first. -/
def le32 (v : UInt32) : Bytes 4 where
  toList := [v.toUInt8, (v >>> 8).toUInt8, (v >>> 16).toUInt8, (v >>> 24).toUInt8]
  length_toList := rfl

/-- The word whose four bytes, lowest first, are read at the head of `b`. -/
def ofLe32 (b : Bytes 4) : UInt32 :=
  UInt32.ofNat ((at? b.toList 0).toNat + (at? b.toList 1).toNat * 2 ^ 8 +
    (at? b.toList 2).toNat * 2 ^ 16 + (at? b.toList 3).toNat * 2 ^ 24)

/-- The two bytes of a 16-bit word, lowest first. -/
def le16 (v : UInt16) : Bytes 2 where
  toList := [v.toUInt8, (v >>> 8).toUInt8]
  length_toList := rfl

/-- The word whose two bytes, lowest first, are read at the head of `b`. -/
def ofLe16 (b : Bytes 2) : UInt16 :=
  UInt16.ofNat ((at? b.toList 0).toNat + (at? b.toList 1).toNat * 2 ^ 8)

/-- A 32-bit word is read back. -/
@[simp] theorem ofLe32_le32 (v : UInt32) : ofLe32 (le32 v) = v := by
  apply UInt32.toNat.inj
  have hv := v.toNat_lt
  simp only [ofLe32, le32, at?, UInt32.toNat_ofNat', List.getD_cons_zero, List.getD_cons_succ,
    UInt32.toNat_toUInt8, UInt32.toNat_shiftRight, UInt32.reduceToNat,
    Nat.shiftRight_eq_div_pow, Nat.reduceMod, Nat.reducePow]
  omega

@[simp] theorem ofLe16_le16 (v : UInt16) : ofLe16 (le16 v) = v := by
  apply UInt16.toNat.inj
  have hv := v.toNat_lt
  simp only [ofLe16, le16, at?, UInt16.toNat_ofNat', List.getD_cons_zero, List.getD_cons_succ,
    UInt16.toNat_toUInt8, UInt16.toNat_shiftRight, UInt16.reduceToNat,
    Nat.shiftRight_eq_div_pow, Nat.reduceMod, Nat.reducePow]
  omega

@[simp] theorem le32_ofLe32 (b : Bytes 4) : le32 (ofLe32 b) = b := by
  obtain ⟨l, hl⟩ := b
  obtain ⟨a, b, c, d, rfl⟩ := List.length_eq_four.mp hl
  have ha := a.toNat_lt
  have hb := b.toNat_lt
  have hc := c.toNat_lt
  have hd := d.toNat_lt
  apply ext
  simp only [le32, ofLe32, at?, List.getD_cons_zero, List.getD_cons_succ, List.cons.injEq,
    and_true, ← UInt8.toNat_inj, UInt32.toNat_toUInt8, UInt32.toNat_shiftRight,
    UInt32.toNat_ofNat', UInt32.reduceToNat, Nat.shiftRight_eq_div_pow, Nat.reduceMod,
    Nat.reducePow]
  omega

end Bytes

end OkRn
