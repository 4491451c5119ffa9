/-
OkRn/Hal/Flash.lean

The flash array behind the firmware's `flashkinetis` calls.

The array is part of the process's memory, so the firmware reads it with plain loads.
An erase sets a whole sector to 0xFF; programming a word only clears bits, and a word
that would need one set is refused.  `flash_is_nor` says this of any run of calls, and
that nothing else is written: not beside the array, and not the first sector, which
holds the reset vectors, unless the caller asks for it.

The firmware looks for a free sector with a scan from the second one.  What it finds
takes any words that fit: `empty_sector_takes_what_fits`.

* `FlashCall.answer` is one call and `FlashCall.run` any number of them; the lemmas on
  `answer` (`answer_elsewhere`, and those on what a call clears) carry over to runs;
* `scan_spec` says what the scan finds: the start of a free sector, or the top.
-/
import OkRn.Lib.Bytes
import Mathlib.Data.List.Range

namespace OkRn.Hal

/-! ### The array -/

/-- The process's memory, by address. -/
abbrev Mem := Nat → UInt8

/-- The flash's size in bytes. -/
def flashSize : Nat := 0x40000

/-- Where the array is mapped, and the size of its sectors. -/
structure Flash where
  base : Nat
  /-- A sector has `2 ^ bits` bytes. -/
  bits : Nat
  wordsFit : 2 ≤ bits
  whole : bits ≤ 18
  mapped : 2 ^ bits ∣ base

/-- The 32-bit word at an address, as the processor loads it. -/
def Mem.word (m : Mem) (a : Nat) : UInt32 :=
  Bytes.ofLe32 ⟨[m a, m (a + 1), m (a + 2), m (a + 3)], rfl⟩

/-- A word is stored, low byte first. -/
def Mem.store (m : Mem) (a : Nat) (w : UInt32) : Mem := fun x =>
  if a ≤ x ∧ x < a + 4 then Bytes.at? (Bytes.le32 w).toList (x - a) else m x

/-- A run of bytes is set. -/
def Mem.memset (m : Mem) (a : Nat) (v : UInt8) (n : Nat) : Mem := fun x =>
  if a ≤ x ∧ x < a + n then v else m x

namespace Flash

variable (f : Flash)

/-- `FLASH_SECTOR_SIZE`. -/
def sector : Nat := 2 ^ f.bits

/-- The first address after the flash. -/
def top : Nat := f.base + flashSize

/-- The first address after the first sector. -/
def firstSectorEnd : Nat := f.base + f.sector

/-- `in_flash`. -/
def inFlash (a : Nat) : Bool := f.base ≤ a && a < f.top

/-- `address & ~(FLASH_SECTOR_SIZE - 1)`. -/
def sectorOf (a : Nat) : Nat := a / f.sector * f.sector

/-- 0 when the whole sector reads as erased. -/
def checkSectorErased (m : Mem) (address : Nat) : Nat :=
  let a := f.sectorOf address
  if !f.inFlash a then 1
  else if (List.range f.sector).any fun i => m (a + i) != 0xFF then 1 else 0

/-- `flashEraseSector`, with its code: 0 when it was done. -/
def eraseSector (m : Mem) (address : Nat) (allowFirstSector : Bool) : Mem × Nat :=
  let a := f.sectorOf address
  if !f.inFlash a then (m, 1)
  else if a < f.firstSectorEnd && !allowFirstSector then (m, 1)
  else (m.memset a 0xFF f.sector, 0)

/-- `flashProgramWord`, with its code. -/
def programWord (m : Mem) (a : Nat) (want : UInt32)
    (allowFirstSector overrideSafetyForConfig : Bool) : Mem × Nat :=
  if !f.inFlash a || a % 4 != 0 then (m, 1)
  else if a < f.firstSectorEnd && !allowFirstSector && !overrideSafetyForConfig then (m, 1)
  else
    let cur := m.word a
    -- programming may only clear bits
    if cur &&& want != want then (m, 1) else (m.store a want, 0)

/-- The scan of `flashFirstEmptySector`, from the sector at `a` on. -/
def scan (m : Mem) (a : Nat) : Nat :=
  if _h : a < f.top then
    if f.checkSectorErased m a = 0 then a else scan m (a + f.sector)
  else 0
termination_by f.top - a
decreasing_by
  have hpos : 0 < f.sector := Nat.two_pow_pos f.bits
  omega

/-- `flashFirstEmptySector`. -/
def firstEmptySector (m : Mem) : Nat := f.scan m f.firstSectorEnd

end Flash

/-! ### Calls -/

/-- A call of the firmware. -/
inductive FlashCall
  | erase (address : Nat) (allowFirstSector : Bool)
  | program (address : Nat) (data : UInt32) (allowFirstSector overrideSafetyForConfig : Bool)

namespace FlashCall

/-- What a call leaves, and its code. -/
def answer (f : Flash) (c : FlashCall) (m : Mem) : Mem × Nat :=
  match c with
  | .erase a allow => f.eraseSector m a allow
  | .program a w allow override => f.programWord m a w allow override

/-- The memory after a run of calls. -/
def run (f : Flash) (cs : List FlashCall) (m : Mem) : Mem :=
  cs.foldl (fun m c => (c.answer f m).1) m

/-- What the calls of a run return, in order. -/
def codes (f : Flash) : List FlashCall → Mem → List Nat
  | [], _ => []
  | c :: cs, m => (c.answer f m).2 :: codes f cs (c.answer f m).1

/-- The caller asks for the first sector. -/
def Opens : FlashCall → Prop
  | .erase _ allow => allow = true
  | .program _ _ allow override => allow = true ∨ override = true

/-- The call erases the sector of an address. -/
def Erases (f : Flash) (x : Nat) : FlashCall → Prop
  | .erase a _ => f.sectorOf a = f.sectorOf x
  | .program .. => False

/-- The call programs the word at an address. -/
def Programs (a : Nat) : FlashCall → Prop
  | .erase .. => False
  | .program b .. => b = a

end FlashCall

/-! ### Sectors -/

section Sectors

variable {f : Flash} {a x n : Nat}

theorem Flash.sector_pos (f : Flash) : 0 < f.sector := Nat.two_pow_pos f.bits

theorem Flash.four_dvd_sector (f : Flash) : 4 ∣ f.sector := pow_dvd_pow 2 f.wordsFit

/-- The flash ends with a sector. -/
theorem Flash.sector_dvd_top (f : Flash) : f.sector ∣ f.top :=
  Nat.dvd_add f.mapped (pow_dvd_pow 2 f.whole)

theorem Flash.sector_dvd_firstSectorEnd (f : Flash) : f.sector ∣ f.firstSectorEnd :=
  Nat.dvd_add f.mapped (Nat.dvd_refl _)

theorem sectorOf_eq_iff :
    f.sectorOf x = f.sectorOf a ↔ f.sectorOf a ≤ x ∧ x < f.sectorOf a + f.sector := by
  have hpos := f.sector_pos
  constructor
  · intro h
    rw [← h]
    exact ⟨Nat.div_mul_le_self x f.sector, Nat.lt_div_mul_add hpos⟩
  · rintro ⟨hle, hlt⟩
    have h : x / f.sector = a / f.sector :=
      (Nat.div_eq_iff hpos).mpr ⟨hle, by unfold Flash.sectorOf at hlt; omega⟩
    rw [Flash.sectorOf, Flash.sectorOf, h]

/-- Sectors do not cross an address at which one begins. -/
theorem sectorOf_lt_iff (hn : f.sector ∣ n) : f.sectorOf x < n ↔ x < n := by
  obtain ⟨q, rfl⟩ := hn
  constructor
  · intro h
    have hlt : x / f.sector < q := by
      rw [Flash.sectorOf, Nat.mul_comm f.sector q] at h
      exact Nat.lt_of_mul_lt_mul_right h
    rw [Nat.mul_comm]
    exact (Nat.div_lt_iff_lt_mul f.sector_pos).mp hlt
  · intro h
    exact lt_of_le_of_lt (Nat.div_mul_le_self x f.sector) h

/-- The first address of a sector is its own. -/
theorem sectorOf_of_dvd (ha : f.sector ∣ a) : f.sectorOf a = a := Nat.div_mul_cancel ha

/-- The addresses of the flash. -/
theorem inFlash_iff : f.inFlash a = true ↔ f.base ≤ a ∧ a < f.top := by
  simp [Flash.inFlash]

/-- A sector is in the flash as its addresses are. -/
theorem inFlash_sectorOf : f.inFlash (f.sectorOf x) = f.inFlash x := by
  rw [Bool.eq_iff_iff, inFlash_iff, inFlash_iff, sectorOf_lt_iff f.sector_dvd_top, ← not_lt,
    sectorOf_lt_iff f.mapped, not_lt]

/-- So addresses of one sector are in it together. -/
theorem inFlash_congr (h : f.sectorOf x = f.sectorOf a) : f.inFlash x = f.inFlash a := by
  rw [← inFlash_sectorOf, h, inFlash_sectorOf]

theorem firstSector_congr (h : f.sectorOf x = f.sectorOf a) :
    x < f.firstSectorEnd ↔ a < f.firstSectorEnd := by
  rw [← sectorOf_lt_iff f.sector_dvd_firstSectorEnd, h, sectorOf_lt_iff f.sector_dvd_firstSectorEnd]

theorem sectorOf_of_word (ha : a % 4 = 0) (hx : a ≤ x ∧ x < a + 4) :
    f.sectorOf x = f.sectorOf a := by
  have hfour := f.four_dvd_sector
  have hstart : 4 ∣ f.sectorOf a := Dvd.dvd.mul_left hfour _
  have hself := sectorOf_eq_iff.mp (rfl : f.sectorOf a = f.sectorOf a)
  rw [sectorOf_eq_iff]
  omega

end Sectors

/-! ### Words -/

section Words

variable {m m' : Mem} {a x : Nat} {w : UInt32}

/-- A byte of two words' common bits. -/
theorem at_le32_and (u v : UInt32) {i : Nat} (hi : i < 4) :
    Bytes.at? (Bytes.le32 (u &&& v)).toList i =
      Bytes.at? (Bytes.le32 u).toList i &&& Bytes.at? (Bytes.le32 v).toList i := by
  have hcases : i = 0 ∨ i = 1 ∨ i = 2 ∨ i = 3 := by omega
  rcases hcases with rfl | rfl | rfl | rfl
  · exact UInt32.toUInt8_and u v
  · show ((u &&& v) >>> 8).toUInt8 = _
    rw [UInt32.shiftRight_and, UInt32.toUInt8_and]
    rfl
  · show ((u &&& v) >>> 16).toUInt8 = _
    rw [UInt32.shiftRight_and, UInt32.toUInt8_and]
    rfl
  · show ((u &&& v) >>> 24).toUInt8 = _
    rw [UInt32.shiftRight_and, UInt32.toUInt8_and]
    rfl

/-- The bytes of a word that is read. -/
theorem at_le32_word (m : Mem) (a : Nat) {i : Nat} (hi : i < 4) :
    Bytes.at? (Bytes.le32 (m.word a)).toList i = m (a + i) := by
  have hcases : i = 0 ∨ i = 1 ∨ i = 2 ∨ i = 3 := by omega
  rw [Mem.word, Bytes.le32_ofLe32]
  rcases hcases with rfl | rfl | rfl | rfl <;> rfl

theorem word_congr (h : ∀ i < 4, m' (a + i) = m (a + i)) : m'.word a = m.word a := by
  have h0 := h 0 (by omega)
  have h1 := h 1 (by omega)
  have h2 := h 2 (by omega)
  have h3 := h 3 (by omega)
  simp only [Mem.word]
  rw [← h1, ← h2, ← h3]
  simp only [Nat.add_zero] at h0
  rw [← h0]

/-- A stored word is read back. -/
theorem word_store (m : Mem) (a : Nat) (w : UInt32) : (m.store a w).word a = w := by
  have hbyte (i : Nat) (hi : i < 4) :
      (m.store a w) (a + i) = Bytes.at? (Bytes.le32 w).toList i := by
    rw [Mem.store, if_pos (by omega), Nat.add_sub_cancel_left]
  have hword : Bytes.le32 ((m.store a w).word a) = Bytes.le32 w := by
    rw [Mem.word, Bytes.le32_ofLe32]
    apply Bytes.ext
    show [m.store a w (a + 0), m.store a w (a + 1), m.store a w (a + 2), m.store a w (a + 3)] = _
    rw [hbyte 0 (by omega), hbyte 1 (by omega), hbyte 2 (by omega), hbyte 3 (by omega)]
    rfl
  rw [← Bytes.ofLe32_le32 ((m.store a w).word a), hword, Bytes.ofLe32_le32]

/-- The bits of a word are cleared when those of its bytes are. -/
theorem word_and (h : ∀ i < 4, m' (a + i) &&& m (a + i) = m' (a + i)) :
    m'.word a &&& m.word a = m'.word a := by
  have hbytes (i : Nat) (hi : i < 4) :
      Bytes.at? (Bytes.le32 (m'.word a &&& m.word a)).toList i =
        Bytes.at? (Bytes.le32 (m'.word a)).toList i := by
    rw [at_le32_and _ _ hi, at_le32_word _ _ hi, at_le32_word _ _ hi, h i hi]
  have hle : Bytes.le32 (m'.word a &&& m.word a) = Bytes.le32 (m'.word a) := by
    apply Bytes.ext
    have h0 := hbytes 0 (by omega)
    have h1 := hbytes 1 (by omega)
    have h2 := hbytes 2 (by omega)
    have h3 := hbytes 3 (by omega)
    simp only [Bytes.le32, Bytes.at?, List.getD_cons_zero, List.getD_cons_succ] at h0 h1 h2 h3 ⊢
    rw [h0, h1, h2, h3]
  rw [← Bytes.ofLe32_le32 (m'.word a &&& m.word a), hle, Bytes.ofLe32_le32]

end Words

/-! ### One call -/

section OneCall

open FlashCall

variable {f : Flash} {m : Mem} {c : FlashCall} {a x : Nat}

/-- A call is refused and writes nothing, erases a sector, or stores a word over its bits. -/
theorem answer_cases (f : Flash) (c : FlashCall) (m : Mem) :
    (c.answer f m = (m, 1)) ∨
    (∃ a allow, c = .erase a allow ∧ f.inFlash a = true ∧
      (a < f.firstSectorEnd → c.Opens) ∧
      c.answer f m = (m.memset (f.sectorOf a) 0xFF f.sector, 0)) ∨
    (∃ a w allow override, c = .program a w allow override ∧ f.inFlash a = true ∧ a % 4 = 0 ∧
      (a < f.firstSectorEnd → c.Opens) ∧ m.word a &&& w = w ∧
      c.answer f m = (m.store a w, 0)) := by
  -- refused out of the array or in the first sector, else it erases or clears bits
  cases c with
  | erase a allow =>
    simp only [answer, Flash.eraseSector]
    split
    · exact .inl rfl
    · rename_i hin
      split
      · exact .inl rfl
      · rename_i hfirst
        rw [inFlash_sectorOf] at hin
        refine .inr (.inl ⟨a, allow, rfl, by simpa using hin, fun hlt => ?_, rfl⟩)
        have hlt := (sectorOf_lt_iff f.sector_dvd_firstSectorEnd).mpr hlt
        simpa [Opens, hlt] using hfirst
  | program a w allow override =>
    simp only [answer, Flash.programWord]
    split
    · exact .inl rfl
    · rename_i hin
      split
      · exact .inl rfl
      · rename_i hfirst
        split
        · exact .inl rfl
        · rename_i hbits
          simp only [Bool.or_eq_true, not_or, Bool.not_eq_true, Bool.not_eq_false',
            bne_eq_false_iff_eq] at hin
          refine .inr (.inr ⟨a, w, allow, override, rfl, hin.1, hin.2, fun hlt => ?_,
            by simpa using hbits, rfl⟩)
          simp only [hlt, decide_true, Bool.true_and, Bool.and_eq_true, Bool.not_eq_true',
            not_and_or, Bool.not_eq_false] at hfirst
          exact hfirst

/-- A refused call writes nothing. -/
theorem refused_writes_nothing (h : (c.answer f m).2 ≠ 0) : (c.answer f m).1 = m := by
  rcases answer_cases f c m with hans | ⟨_, _, -, -, -, hans⟩ | ⟨_, _, _, _, -, -, -, -, -, hans⟩
  · rw [hans]
  · rw [hans] at h
    exact absurd rfl h
  · rw [hans] at h
    exact absurd rfl h

/-- A call writes nowhere else. -/
theorem answer_elsewhere (h : f.inFlash x = true → x < f.firstSectorEnd ∧ ¬ c.Opens) :
    (c.answer f m).1 x = m x := by
  rcases answer_cases f c m with
    hans | ⟨a, _, -, hin, hopens, hans⟩ | ⟨a, w, _, _, -, hin, hword, hopens, -, hans⟩
  · rw [hans]
  · rw [hans]
    show Mem.memset m _ _ _ x = m x
    rw [Mem.memset, if_neg]
    intro hx
    have hsame := sectorOf_eq_iff.mpr hx
    obtain ⟨hlt, hclosed⟩ := h (by rw [inFlash_congr hsame]; exact hin)
    exact hclosed (hopens ((firstSector_congr hsame).mp hlt))
  · rw [hans]
    show Mem.store m _ _ x = m x
    rw [Mem.store, if_neg]
    intro hx
    have hsame := sectorOf_of_word (f := f) hword hx
    obtain ⟨hlt, hclosed⟩ := h (by rw [inFlash_congr hsame]; exact hin)
    exact hclosed (hopens ((firstSector_congr hsame).mp hlt))

/-- Without an erase of its sector, a byte only loses bits. -/
theorem answer_clears (h : ¬ c.Erases f x) : (c.answer f m).1 x &&& m x = (c.answer f m).1 x := by
  rcases answer_cases f c m with
    hans | ⟨a, _, rfl, -, -, hans⟩ | ⟨a, w, _, _, -, -, -, -, hbits, hans⟩
  · rw [hans]
    exact UInt8.and_self
  · rw [hans]
    show Mem.memset m _ _ _ x &&& m x = Mem.memset m _ _ _ x
    rw [Mem.memset, if_neg fun hx => h (sectorOf_eq_iff.mpr hx).symm]
    exact UInt8.and_self
  · rw [hans]
    show Mem.store m _ _ x &&& m x = Mem.store m _ _ x
    rw [Mem.store]
    split
    · rename_i hx
      obtain ⟨i, rfl⟩ : ∃ i, x = a + i := ⟨x - a, by omega⟩
      rw [Nat.add_sub_cancel_left, ← at_le32_word m a (by omega), ← at_le32_and _ _ (by omega)]
      rw [UInt32.and_comm, hbits]
    · exact UInt8.and_self

/-- A word stays until its sector is erased or the word itself is programmed. -/
theorem answer_keeps_word (ha : a % 4 = 0) (herase : ¬ c.Erases f a) (hprog : ¬ c.Programs a) :
    (c.answer f m).1.word a = m.word a := by
  apply word_congr
  intro i hi
  rcases answer_cases f c m with
    hans | ⟨b, _, rfl, -, -, hans⟩ | ⟨b, w, _, _, rfl, -, hb, -, -, hans⟩
  · rw [hans]
  · rw [hans]
    show Mem.memset m _ _ _ _ = _
    rw [Mem.memset, if_neg]
    intro hx
    apply herase
    rw [Erases, ← sectorOf_of_word (f := f) (a := a) (x := a + i) ha (by omega)]
    exact (sectorOf_eq_iff.mpr hx).symm
  · rw [hans]
    show Mem.store m _ _ _ = _
    have hne : b ≠ a := hprog
    rw [Mem.store, if_neg (by omega)]

end OneCall

/-! ### Runs of calls -/

section Runs

open FlashCall

variable {f : Flash} {m : Mem} {cs : List FlashCall} {a x : Nat}

@[simp] theorem run_nil (f : Flash) (m : Mem) : FlashCall.run f [] m = m := rfl

@[simp] theorem run_cons (f : Flash) (c : FlashCall) (cs : List FlashCall) (m : Mem) :
    FlashCall.run f (c :: cs) m = FlashCall.run f cs (c.answer f m).1 := rfl

theorem run_append (f : Flash) (cs ds : List FlashCall) (m : Mem) :
    FlashCall.run f (cs ++ ds) m = FlashCall.run f ds (FlashCall.run f cs m) := by
  simp [FlashCall.run]

theorem run_elsewhere
    (h : f.inFlash x = true → x < f.firstSectorEnd ∧ ∀ c ∈ cs, ¬ c.Opens) (m : Mem) :
    FlashCall.run f cs m x = m x := by
  induction cs generalizing m with
  | nil => rfl
  | cons c cs ih =>
    rw [run_cons, ih fun hin => ⟨(h hin).1, fun d hd => (h hin).2 d (List.mem_cons_of_mem c hd)⟩]
    exact answer_elsewhere fun hin => ⟨(h hin).1, (h hin).2 c List.mem_cons_self⟩

/-- Without an erase a run only clears bits. -/
theorem run_clears (h : ∀ c ∈ cs, ¬ c.Erases f x) (m : Mem) :
    FlashCall.run f cs m x &&& m x = FlashCall.run f cs m x := by
  induction cs generalizing m with
  | nil => exact UInt8.and_self
  | cons c cs ih =>
    have hlater := ih (fun d hd => h d (List.mem_cons_of_mem c hd)) (c.answer f m).1
    have hnow := answer_clears (m := m) (h c List.mem_cons_self)
    rw [run_cons]
    calc FlashCall.run f cs (c.answer f m).1 x &&& m x
        = (FlashCall.run f cs (c.answer f m).1 x &&& (c.answer f m).1 x) &&& m x := by rw [hlater]
      _ = FlashCall.run f cs (c.answer f m).1 x &&& (c.answer f m).1 x := by
        rw [UInt8.and_assoc, hnow]
      _ = FlashCall.run f cs (c.answer f m).1 x := hlater

/-- A word that is not programmed again stays. -/
theorem run_keeps_word (ha : a % 4 = 0) (herase : ∀ c ∈ cs, ¬ c.Erases f a)
    (hprog : ∀ c ∈ cs, ¬ c.Programs a) (m : Mem) : (FlashCall.run f cs m).word a = m.word a := by
  induction cs generalizing m with
  | nil => rfl
  | cons c cs ih =>
    rw [run_cons, ih (fun d hd => herase d (List.mem_cons_of_mem c hd))
      fun d hd => hprog d (List.mem_cons_of_mem c hd)]
    exact answer_keeps_word ha (herase c List.mem_cons_self) (hprog c List.mem_cons_self)

/-- An erased byte stays erased until its word is programmed. -/
theorem run_keeps_erased (hprog : ∀ c ∈ cs, ¬ c.Programs (x / 4 * 4)) (hm : m x = 0xFF) :
    FlashCall.run f cs m x = 0xFF := by
  induction cs generalizing m with
  | nil => exact hm
  | cons c cs ih =>
    refine ih (fun d hd => hprog d (List.mem_cons_of_mem c hd)) ?_
    have hc := hprog c List.mem_cons_self
    show (c.answer f m).1 x = 0xFF
    rcases answer_cases f c m with
      hans | ⟨b, _, -, -, -, hans⟩ | ⟨b, w, _, _, rfl, -, hb, -, -, hans⟩
    · rw [hans]
      exact hm
    · rw [hans]
      show Mem.memset m _ _ _ x = _
      rw [Mem.memset]
      split
      · rfl
      · exact hm
    · rw [hans]
      have hne : b ≠ x / 4 * 4 := hc
      show Mem.store m _ _ x = _
      rw [Mem.store, if_neg (by omega)]
      exact hm

/-- The flash is a NOR flash: over any run of calls nothing beside it is written, nor the first
sector unless a call opens it; without an erase bits are only cleared; a word that was programmed
reads back until it is erased or programmed again; and an erased sector reads 0xFF. -/
theorem flash_is_nor (f : Flash) (m : Mem) (cs : List FlashCall) :
    (∀ x, f.inFlash x = false → FlashCall.run f cs m x = m x) ∧
    (∀ x, x < f.firstSectorEnd → (∀ c ∈ cs, ¬ c.Opens) → FlashCall.run f cs m x = m x) ∧
    (∀ x, (∀ c ∈ cs, ¬ c.Erases f x) → FlashCall.run f cs m x &&& m x = FlashCall.run f cs m x) ∧
    (∀ before a w allow override after, cs = before ++ .program a w allow override :: after →
      (f.programWord (FlashCall.run f before m) a w allow override).2 = 0 →
      (∀ c ∈ after, ¬ c.Erases f a) →
      (FlashCall.run f cs m).word a &&& w = (FlashCall.run f cs m).word a ∧
      ((∀ c ∈ after, ¬ c.Programs a) → (FlashCall.run f cs m).word a = w)) ∧
    ∀ before a allow after x, cs = before ++ .erase a allow :: after →
      (f.eraseSector (FlashCall.run f before m) a allow).2 = 0 → f.sectorOf x = f.sectorOf a →
      (∀ c ∈ after, ¬ c.Programs (x / 4 * 4)) → FlashCall.run f cs m x = 0xFF := by
  refine ⟨fun x hx => ?_, fun x hx hclosed => ?_, fun x h => run_clears h m, ?_, ?_⟩
  · exact run_elsewhere (fun hin => by rw [hx] at hin; cases hin) m
  · exact run_elsewhere (fun _ => ⟨hx, hclosed⟩) m
  · rintro before a w allow override after rfl hcode herase
    rw [run_append, run_cons]
    -- the code 0 says that the word was programmed, not refused
    rcases answer_cases f (.program a w allow override) (FlashCall.run f before m) with
      hans | ⟨_, _, hc, -⟩ | ⟨_, _, _, _, hc, -, ha, -, -, hans⟩
    · rw [show f.programWord _ a w allow override = _ from hans] at hcode
      cases hcode
    · cases hc
    · cases hc
      rw [hans]
      constructor
      · have hbytes (i : Nat) (hi : i < 4) : ∀ c ∈ after, ¬ c.Erases f (a + i) := by
          intro c hc he
          refine herase c hc ?_
          cases c with
          | erase b _ => exact he.trans (sectorOf_of_word ha (by omega))
          | program => exact he
        have hcleared := word_and (a := a) fun i hi =>
          run_clears (hbytes i hi) ((FlashCall.run f before m).store a w)
        rw [word_store] at hcleared
        exact hcleared
      · intro hprog
        rw [run_keeps_word ha herase hprog]
        exact word_store _ a w
  · rintro before a allow after x rfl hcode hsame hprog
    rw [run_append, run_cons]
    refine run_keeps_erased hprog ?_
    rcases answer_cases f (.erase a allow) (FlashCall.run f before m) with
      hans | ⟨_, _, hc, -, -, hans⟩ | ⟨_, _, _, _, hc, -⟩
    · rw [show f.eraseSector _ a allow = _ from hans] at hcode
      cases hcode
    · cases hc
      rw [hans]
      show Mem.memset _ _ _ _ x = _
      rw [Mem.memset, if_pos (sectorOf_eq_iff.mp hsame)]
    · cases hc

end Runs

/-! ### Words in an erased place -/

/-- Words programmed one after another from an address. -/
def programs : Nat → List UInt32 → List FlashCall
  | _, [] => []
  | a, w :: ws => .program a w false false :: programs (a + 4) ws

section Words

variable {f : Flash} {m : Mem} {a : Nat} {ws : List UInt32}

/-- Words that are programmed over an erased place read back, all of them. -/
theorem run_programs (ha : a % 4 = 0) (hfirst : f.firstSectorEnd ≤ a)
    (htop : a + 4 * ws.length ≤ f.top)
    (herased : ∀ x, a ≤ x → x < a + 4 * ws.length → m x = 0xFF) :
    FlashCall.codes f (programs a ws) m = List.replicate ws.length 0 ∧
    (∀ i w, ws[i]? = some w → (FlashCall.run f (programs a ws) m).word (a + 4 * i) = w) ∧
    ∀ x, ¬ (a ≤ x ∧ x < a + 4 * ws.length) → FlashCall.run f (programs a ws) m x = m x := by
  induction ws generalizing a m with
  | nil => exact ⟨rfl, fun i w h => by simp at h, fun x _ => rfl⟩
  | cons w ws ih =>
    rw [List.length_cons] at htop herased
    have hbase : f.base ≤ a := le_trans (Nat.le_add_right _ _) hfirst
    -- the word is still erased when its turn comes
    have hcur : m.word a = 0xFFFFFFFF := by
      rw [Mem.word, herased a (by omega) (by omega), herased (a + 1) (by omega) (by omega),
        herased (a + 2) (by omega) (by omega), herased (a + 3) (by omega) (by omega)]
      exact (by decide : Bytes.ofLe32 ⟨[0xFF, 0xFF, 0xFF, 0xFF], rfl⟩ = 0xFFFFFFFF)
    have hans : f.programWord m a w false false = (m.store a w, 0) := by
      have hin : f.inFlash a = true := inFlash_iff.mpr ⟨hbase, by omega⟩
      have hbits : (0xFFFFFFFF : UInt32) &&& w = w := by
        rw [← UInt32.toBitVec_inj]
        exact BitVec.allOnes_and
      simp [Flash.programWord, hin, ha, hcur, hbits, Nat.not_lt.mpr hfirst]
    obtain ⟨hcodes, hwords, hrest⟩ := ih (a := a + 4) (m := m.store a w) (by omega) (by omega)
      (by omega) fun x hx hlt => by
        rw [Mem.store, if_neg (by omega)]
        exact herased x (by omega) (by omega)
    have hrun : FlashCall.run f (programs a (w :: ws)) m =
        FlashCall.run f (programs (a + 4) ws) (m.store a w) := by
      show FlashCall.run f (programs (a + 4) ws) (f.programWord m a w false false).1 = _
      rw [hans]
    refine ⟨?_, fun i v hi => ?_, fun x hx => ?_⟩
    · show (f.programWord m a w false false).2 ::
        FlashCall.codes f (programs (a + 4) ws) (f.programWord m a w false false).1 = _
      rw [hans, hcodes]
      rfl
    · rw [hrun]
      cases i with
      | zero =>
        cases hi
        refine (word_congr fun j hj => hrest _ (by omega)).trans (word_store m a w)
      | succ i =>
        have h := hwords i v (by simpa using hi)
        rw [show a + 4 * (i + 1) = a + 4 + 4 * i by omega]
        exact h
    · rw [List.length_cons] at hx
      rw [hrun, hrest x (by omega), Mem.store, if_neg (by omega)]

/-! ### The first empty sector -/

/-- A sector is found erased exactly when all its bytes are 0xFF. -/
theorem checkSectorErased_iff (ha : f.sector ∣ a) (hin : f.inFlash a = true) :
    f.checkSectorErased m a = 0 ↔ ∀ x, f.sectorOf x = a → m x = 0xFF := by
  have hself := sectorOf_of_dvd ha
  simp only [Flash.checkSectorErased, hself, hin, Bool.not_true, Bool.false_eq_true, if_false]
  constructor
  · intro h x hx
    rw [← hself, sectorOf_eq_iff, hself] at hx
    by_contra hne
    rw [if_pos] at h
    · cases h
    · rw [List.any_eq_true]
      refine ⟨x - a, List.mem_range.mpr (by omega), ?_⟩
      rw [Nat.add_sub_cancel' hx.1]
      simpa using hne
  · intro h
    rw [if_neg]
    simp only [List.any_eq_true, List.mem_range, bne_iff_ne, not_exists, not_and, not_not]
    intro i hi
    apply h
    rw [← hself, sectorOf_eq_iff, hself]
    omega

/-- The scan stops at the first erased sector, or at the end. -/
theorem scan_spec (ha : f.sector ∣ a) (hbase : f.firstSectorEnd ≤ a) :
    (f.scan m a = 0 ∧ ∀ b, a ≤ b → b < f.top → f.sector ∣ b →
      ∃ x, f.sectorOf x = b ∧ m x ≠ 0xFF) ∨
    (f.firstSectorEnd ≤ f.scan m a ∧ f.scan m a < f.top ∧ f.sector ∣ f.scan m a ∧
      ∀ x, f.sectorOf x = f.scan m a → m x = 0xFF) := by
  have hpos := f.sector_pos
  -- from sector to sector: this one is free, a later one is, or the top is reached
  induction a using Flash.scan.induct f m with
  | case1 a hlt hcheck =>
    have hin : f.inFlash a = true :=
      inFlash_iff.mpr ⟨le_trans (Nat.le_add_right _ _) hbase, hlt⟩
    rw [Flash.scan, dif_pos hlt, if_pos hcheck]
    exact .inr ⟨hbase, hlt, ha, (checkSectorErased_iff ha hin).mp hcheck⟩
  | case2 a hlt hcheck ih =>
    have hin : f.inFlash a = true :=
      inFlash_iff.mpr ⟨le_trans (Nat.le_add_right _ _) hbase, hlt⟩
    rw [Flash.scan, dif_pos hlt, if_neg hcheck]
    rw [checkSectorErased_iff ha hin] at hcheck
    push Not at hcheck
    refine (ih (Nat.dvd_add ha (Nat.dvd_refl _)) (by omega)).imp_left fun ⟨hzero, hused⟩ => ?_
    refine ⟨hzero, fun b hab hb hdvd => ?_⟩
    rcases eq_or_ne b a with rfl | hne
    · exact hcheck
    · obtain ⟨p, rfl⟩ := ha
      obtain ⟨q, rfl⟩ := hdvd
      have hpq : p < q := Nat.lt_of_mul_lt_mul_left (lt_of_le_of_ne hab (Ne.symm hne))
      refine hused _ ?_ hb (Dvd.intro _ rfl)
      calc f.sector * p + f.sector = f.sector * (p + 1) := by rw [Nat.mul_succ]
        _ ≤ f.sector * q := Nat.mul_le_mul_left _ hpq
  | case3 a hlt =>
    rw [Flash.scan, dif_neg hlt]
    exact .inl ⟨rfl, fun b hab hb _ => absurd (lt_of_le_of_lt hab hb) hlt⟩

/-- The sector the firmware is given takes any words that fit; with none given, every sector
but the first is in use. -/
theorem empty_sector_takes_what_fits (f : Flash) (m : Mem) (ws : List UInt32)
    (hfit : 4 * ws.length ≤ f.sector) :
    let a := f.firstEmptySector m
    (a = 0 ∧ ∀ b, f.firstSectorEnd ≤ b → b < f.top → f.sector ∣ b →
      ∃ x, f.sectorOf x = b ∧ m x ≠ 0xFF) ∨
    (f.firstSectorEnd ≤ a ∧ a < f.top ∧ f.sector ∣ a ∧
      FlashCall.codes f (programs a ws) m = List.replicate ws.length 0 ∧
      (∀ i w, ws[i]? = some w → (FlashCall.run f (programs a ws) m).word (a + 4 * i) = w) ∧
      ∀ x, ¬ (a ≤ x ∧ x < a + 4 * ws.length) → FlashCall.run f (programs a ws) m x = m x) := by
  intro a
  refine (scan_spec (m := m) f.sector_dvd_firstSectorEnd (le_refl _)).imp id ?_
  rintro ⟨hfirst, htop, hdvd, herased⟩
  refine ⟨hfirst, htop, hdvd, run_programs ?_ hfirst ?_ fun x hx hlt => herased x ?_⟩
  · exact Nat.mod_eq_zero_of_dvd (f.four_dvd_sector.trans hdvd)
  · obtain ⟨p, hp⟩ := hdvd
    obtain ⟨q, hq⟩ := f.sector_dvd_top
    rw [hp, hq] at htop
    show f.scan m f.firstSectorEnd + _ ≤ _
    rw [hp]
    have hpq : p < q := Nat.lt_of_mul_lt_mul_left htop
    calc f.sector * p + 4 * ws.length ≤ f.sector * p + f.sector := Nat.add_le_add_left hfit _
      _ = f.sector * (p + 1) := by rw [Nat.mul_succ]
      _ ≤ f.sector * q := Nat.mul_le_mul_left _ hpq
      _ = f.top := hq.symm
  · rw [← sectorOf_of_dvd hdvd, sectorOf_eq_iff, sectorOf_of_dvd hdvd]
    exact ⟨hx, lt_of_lt_of_le hlt (Nat.add_le_add_left hfit _)⟩

/-- The array of the MK20DX256, at the first page that can be mapped. -/
def mk20dx256 : Flash where
  base := 0x10000
  bits := 11
  wordsFit := by decide
  whole := by decide
  mapped := by decide

theorem empty_sector_takes_what_fits_two :
    let m : Mem := fun _ => 0xFF
    let a := mk20dx256.firstEmptySector m
    (a = 0 ∧ ∀ b, mk20dx256.firstSectorEnd ≤ b → b < mk20dx256.top → mk20dx256.sector ∣ b →
      ∃ x, mk20dx256.sectorOf x = b ∧ m x ≠ 0xFF) ∨
    (mk20dx256.firstSectorEnd ≤ a ∧ a < mk20dx256.top ∧ mk20dx256.sector ∣ a ∧
      FlashCall.codes mk20dx256 (programs a [7, 9]) m = [0, 0] ∧
      (∀ i w, [7, 9][i]? = some w →
        (FlashCall.run mk20dx256 (programs a [7, 9]) m).word (a + 4 * i) = w) ∧
      ∀ x, ¬ (a ≤ x ∧ x < a + 8) → FlashCall.run mk20dx256 (programs a [7, 9]) m x = m x) :=
  empty_sector_takes_what_fits mk20dx256 (fun _ => 0xFF) [7, 9] (by decide)

end Words

end OkRn.Hal
