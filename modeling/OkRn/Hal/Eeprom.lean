/-
OkRn/Hal/Eeprom.lean

The emulated EEPROM: an array of the process, and the file behind it.

The file is made at the first start and read at every later one.  A write goes to the
array and, while the file is open, through to the file.  The process can die at any
point, also while the file is being made.  `Cells` says what an EEPROM is for, cells
that keep their last value, and `eeprom_is_cells` that over any run of starts, writes,
resets, stops and deaths the array reads as the cells do.  Only a death between the
sizing of the file and its filling shows: what was not filled then begins as zero.

Words and blocks are runs of single writes, each at an address of 32 bits, and what is
beyond the last cell is lost (`read_writeBlock`).

* `Eeprom.step` is the process and its file, `Cells.step` the cells alone;
* `Backs` relates the two, and each event keeps it (`Backs.step`).

Main result: `eeprom_is_cells`.
-/
import OkRn.Lib.Bytes
import Mathlib.Tactic.NormNum

namespace OkRn.Hal

/-! ### The file -/

/-- The number of cells. -/
def eepromSize : Nat := 2048

/-- `pwrite` of the bytes at an offset. -/
def pwrite (file : List UInt8) (offset : Nat) (bytes : List UInt8) : List UInt8 :=
  (file ++ List.replicate (offset - file.length) 0).take offset ++ bytes ++
    file.drop (offset + bytes.length)

/-- `open_backing`; a file that is not there is empty, once it is open. -/
def openBacking (size : Nat) (fill : UInt8) (file : List UInt8) : List UInt8 :=
  if file.length = size then file else List.replicate size fill

/-- How far `open_backing` came before the process died. -/
inductive Cut
  | untouched
  /-- After the first `ftruncate`. -/
  | emptied
  /-- After the second one, with so many bytes filled. -/
  | filled (n : Nat)

/-- The file that a death in `open_backing` leaves. -/
def openBackingCut (size : Nat) (fill : UInt8) (cut : Cut) (file : List UInt8) : List UInt8 :=
  if file.length = size then file
  else match cut with
    | .untouched => file
    | .emptied => []
    | .filled n => List.replicate (min n size) fill ++ List.replicate (size - n) 0

/-! ### The array -/

/-- The file, the array, and whether the file is open. -/
structure Eeprom where
  file : List UInt8
  array : Bytes eepromSize := Bytes.zero eepromSize
  /-- `eeprom_fd` is open. -/
  opened : Bool := false

namespace Eeprom

variable (e : Eeprom)

/-- A process that has just begun. -/
def start (file : List UInt8) : Eeprom where
  file := file

/-- The part of `okemu_hal_init` about the EEPROM. -/
def init : Eeprom :=
  let file := openBacking eepromSize 0xFF e.file
  { file := file
    array := if h : file.length = eepromSize then ⟨file, h⟩
      else ⟨List.replicate eepromSize 0xFF, List.length_replicate⟩
    opened := true }

/-- `eeprom_read_byte`. -/
def read (addr : UInt32) : UInt8 :=
  if eepromSize ≤ addr.toNat then 0xFF else Bytes.at? e.array.toList addr.toNat

/-- `eeprom_write_byte`. -/
def write (addr : UInt32) (v : UInt8) : Eeprom :=
  if eepromSize ≤ addr.toNat then e
  else if Bytes.at? e.array.toList addr.toNat = v then e
  else
    { e with
      array := ⟨e.array.toList.set addr.toNat v, by simp⟩
      file := if e.opened then pwrite e.file addr.toNat [v] else e.file }

/-- `eeprom_write_block`, and with it the words. -/
def writeBlock (e : Eeprom) (addr : UInt32) : List UInt8 → Eeprom
  | [] => e
  | v :: data => (e.write addr v).writeBlock (addr + 1) data

/-- `eeprom_read_block`. -/
def readBlock (addr : UInt32) (len : Nat) : List UInt8 :=
  (List.range len).map fun i => e.read (addr + UInt32.ofNat i)

/-- `eeprom_read_dword`. -/
def readDword (addr : UInt32) : UInt32 := Bytes.ofLe32 (Bytes.pack 4 (e.readBlock addr 4))

/-- `eeprom_write_dword`. -/
def writeDword (addr : UInt32) (v : UInt32) : Eeprom := e.writeBlock addr (Bytes.le32 v).toList

/-- `eeprom_read_word`. -/
def readWord (addr : UInt32) : UInt16 := Bytes.ofLe16 (Bytes.pack 2 (e.readBlock addr 2))

/-- `eeprom_write_word`. -/
def writeWord (addr : UInt32) (v : UInt16) : Eeprom := e.writeBlock addr (Bytes.le16 v).toList

/-- `okemu_eeprom_shutdown`. -/
def shutdown : Eeprom :=
  { e with
    file := if e.opened then pwrite e.file 0 e.array.toList else e.file
    opened := false }

/-- `okemu_eeprom_factory_reset`. -/
def factoryReset : Eeprom :=
  let array : Bytes eepromSize := ⟨List.replicate eepromSize 0xFF, List.length_replicate⟩
  { e with array := array, file := if e.opened then pwrite e.file 0 array.toList else e.file }

/-- The process ends; the next one has a new array. -/
def kill : Eeprom := start e.file

end Eeprom

/-! ### Runs -/

/-- What can happen to the EEPROM. -/
inductive EepromEvent
  | init
  /-- The process dies in `open_backing`. -/
  | initKilled (cut : Cut)
  /-- A block is written, or the first part of one in which the process dies. -/
  | writes (addr : UInt32) (data : List UInt8) (fits : data.length < 2 ^ 32)
  | factoryReset
  | shutdown
  | kill

/-- One event. -/
def Eeprom.step (e : Eeprom) : EepromEvent → Eeprom
  | .init => e.init
  | .initKilled cut => .start (openBackingCut eepromSize 0xFF cut e.file)
  | .writes addr data _ => e.writeBlock addr data
  | .factoryReset => e.factoryReset
  | .shutdown => e.shutdown
  | .kill => e.kill

/-- The EEPROM after a run. -/
def Eeprom.run (file : List UInt8) (es : List EepromEvent) : Eeprom :=
  es.foldl Eeprom.step (.start file)

/-- Cells that keep their last value. -/
structure Cells where
  cell : Nat → UInt8
  /-- There are cells: the first start has made them. -/
  made : Bool
  opened : Bool := false

namespace Cells

variable (c : Cells)

/-- The cells that a file holds. -/
def start (file : List UInt8) : Cells where
  cell := Bytes.at? file
  made := file.length = eepromSize

/-- A cell is read; beyond the last one it is 0xFF. -/
def read (addr : UInt32) : UInt8 := if eepromSize ≤ addr.toNat then 0xFF else c.cell addr.toNat

/-- What an event does to the cells. -/
def step : EepromEvent → Cells
  | .init => { cell := if c.made then c.cell else fun _ => 0xFF, made := true, opened := true }
  | .initKilled (.filled n) =>
    { cell := if c.made then c.cell else fun a => if a < n then 0xFF else 0, made := true }
  | .initKilled _ => { c with opened := false }
  | .writes addr data _ =>
    if c.opened then
      { c with cell := fun a => (data[(UInt32.ofNat a - addr).toNat]?).getD (c.cell a) }
    else c
  | .factoryReset => if c.opened then { c with cell := fun _ => 0xFF } else c
  | .shutdown | .kill => { c with opened := false }

/-- The cells after a run. -/
def run (file : List UInt8) (es : List EepromEvent) : Cells := es.foldl step (start file)

end Cells

/-! ### Writes -/

section Writes

variable {file : List UInt8} {n : Nat}

theorem pwrite_one {v : UInt8} (h : n < file.length) : pwrite file n [v] = file.set n v := by
  rw [pwrite, List.set_eq_take_append_cons_drop, if_pos h, Nat.sub_eq_zero_of_le h.le]
  simp

theorem pwrite_all {bytes : List UInt8} (h : bytes.length = file.length) :
    pwrite file 0 bytes = bytes := by
  simp [pwrite, h]

/-- The bytes of a list in which one was set. -/
theorem at_set {l : List UInt8} {v : UInt8} (h : n < l.length) (m : Nat) :
    Bytes.at? (l.set n v) m = if m = n then v else Bytes.at? l m := by
  simp only [Bytes.at?, List.getD_eq_getElem?_getD, List.getElem?_set]
  by_cases hm : n = m
  · subst hm
    simp [h]
  · simp [hm, Ne.symm hm]

namespace Eeprom

variable {e : Eeprom} {addr x : UInt32} {v : UInt8}

/-- What is read after a write. -/
theorem read_write : (e.write addr v).read x =
    if x = addr ∧ x.toNat < eepromSize then v else e.read x := by
  unfold write
  split
  · rename_i hout
    rw [if_neg]
    rintro ⟨rfl, hin⟩
    exact absurd hout (Nat.not_le.mpr hin)
  rename_i hin
  split
  · rename_i hsame
    split
    · rename_i hx
      obtain ⟨rfl, -⟩ := hx
      rw [read, if_neg hin, hsame]
    · rfl
  · have hlt : addr.toNat < e.array.toList.length := by
      rw [Bytes.length_toList]
      exact Nat.not_le.mp hin
    unfold read
    rw [at_set hlt]
    by_cases hx : x = addr
    · subst hx
      rw [if_neg hin, if_pos rfl, if_pos ⟨rfl, Nat.not_le.mp hin⟩]
    · rw [if_neg fun hcon : x.toNat = addr.toNat => hx (UInt32.toNat_inj.mp hcon),
        if_neg fun hcon : x = addr ∧ _ => hx hcon.1]

/-- A block is read back where there are cells, and nothing else changes. -/
theorem read_writeBlock {data : List UInt8} (h : data.length < 2 ^ 32) :
    (e.writeBlock addr data).read x = if eepromSize ≤ x.toNat then 0xFF
      else (data[(x - addr).toNat]?).getD (e.read x) := by
  induction data generalizing e addr with
  | nil =>
    show e.read x = _
    split
    · rename_i hout
      exact if_pos hout
    · rfl
  | cons v data ih =>
    have hlen : data.length < 2 ^ 32 - 1 := by
      rw [List.length_cons] at h
      omega
    rw [writeBlock, ih (by omega)]
    split
    · rfl
    rename_i hin
    -- the first byte is this one, or the block goes on at the next address
    by_cases hx : x = addr
    · -- the bytes behind it end before they come round to this address
      subst hx
      have hround : (x - (x + 1)).toNat = 2 ^ 32 - 1 := by
        have hx := x.toNat_lt
        simp only [UInt32.toNat_sub, UInt32.toNat_add, UInt32.toNat_one]
        omega
      have hnone : data[(x - (x + 1)).toNat]? = none := by
        rw [hround]
        exact List.getElem?_eq_none hlen.le
      rw [hnone, read_write, if_pos ⟨rfl, Nat.not_le.mp hin⟩, UInt32.sub_self]
      rfl
    · have hnext : (x - addr).toNat = (x - (addr + 1)).toNat + 1 := by
        have hne : x.toNat ≠ addr.toNat := fun hcon => hx (UInt32.toNat_inj.mp hcon)
        have hx' := x.toNat_lt
        have ha' := addr.toNat_lt
        simp only [UInt32.toNat_sub, UInt32.toNat_add, UInt32.toNat_one]
        omega
      rw [hnext, List.getElem?_cons_succ, read_write, if_neg fun hcon => hx hcon.1]

end Eeprom

end Writes

/-! ### The array reads as the cells -/

section Refinement

variable {e : Eeprom} {c : Cells} {addr : UInt32}

namespace Eeprom

/-- A write neither opens nor closes the file. -/
theorem write_opened {v : UInt8} : (e.write addr v).opened = e.opened := by
  unfold write
  split
  · rfl
  split <;> rfl

/-- With the file closed it stays. -/
theorem write_closed {v : UInt8} (h : e.opened = false) : (e.write addr v).file = e.file := by
  unfold write
  split
  · rfl
  split
  · rfl
  · exact if_neg (by rw [h]; exact Bool.false_ne_true)

/-- While the file is open, it is the array. -/
theorem write_through {v : UInt8} (hopen : e.opened = true) (h : e.array.toList = e.file) :
    (e.write addr v).array.toList = (e.write addr v).file := by
  unfold write
  split
  · exact h
  rename_i hin
  split
  · exact h
  · have hlt : addr.toNat < e.file.length := by
      rw [← h, Bytes.length_toList]
      exact Nat.not_le.mp hin
    show e.array.toList.set addr.toNat v = pwrite e.file addr.toNat [v]
    rw [pwrite_one hlt, h]

theorem writeBlock_opened {data : List UInt8} : (e.writeBlock addr data).opened = e.opened := by
  induction data generalizing e addr with
  | nil => rfl
  | cons v data ih => rw [writeBlock, ih, write_opened]

theorem writeBlock_closed {data : List UInt8} (h : e.opened = false) :
    (e.writeBlock addr data).file = e.file := by
  induction data generalizing e addr with
  | nil => rfl
  | cons v data ih => rw [writeBlock, ih (write_opened.trans h), write_closed h]

/-- With the file open a block goes through to it. -/
theorem writeBlock_through {data : List UInt8} (hopen : e.opened = true)
    (h : e.array.toList = e.file) :
    (e.writeBlock addr data).array.toList = (e.writeBlock addr data).file := by
  induction data generalizing e addr with
  | nil => exact h
  | cons v data ih => exact ih (write_opened.trans hopen) (write_through hopen h)

end Eeprom

/-- The file holds the cells, once there are any, and the array is the file while it is open. -/
structure Backs (e : Eeprom) (c : Cells) : Prop where
  made : c.made = true ↔ e.file.length = eepromSize
  opened : e.opened = c.opened
  cells : e.file.length = eepromSize → ∀ a < eepromSize, Bytes.at? e.file a = c.cell a
  array : e.opened = true → e.array.toList = e.file

namespace Backs

/-- A fresh process and the cells of its file. -/
theorem start (file : List UInt8) : Backs (.start file) (.start file) where
  made := by simp [Cells.start, Eeprom.start]
  opened := rfl
  cells := fun _ a _ => rfl
  array := fun h => absurd h Bool.false_ne_true

/-- An open file has its full size. -/
theorem length (h : Backs e c) (hopen : e.opened = true) : e.file.length = eepromSize := by
  rw [← h.array hopen, Bytes.length_toList]

theorem read (h : Backs e c) (hopen : e.opened = true) : e.read addr = c.read addr := by
  unfold Eeprom.read Cells.read
  split
  · rfl
  · rename_i hin
    rw [h.array hopen, h.cells (h.length hopen) _ (Nat.not_le.mp hin)]

/-- The file stays, and is closed. -/
theorem closed (h : Backs e c) (array : Bytes eepromSize) :
    Backs ⟨e.file, array, false⟩ { c with opened := false } where
  made := h.made
  opened := rfl
  cells := h.cells
  array := fun hopen => absurd hopen Bool.false_ne_true

theorem init (h : Backs e c) : Backs e.init (c.step .init) := by
  by_cases hlen : e.file.length = eepromSize
  · have hfile : openBacking eepromSize 0xFF e.file = e.file := if_pos hlen
    refine ⟨⟨fun _ => ?_, fun _ => rfl⟩, rfl, fun _ a ha => ?_, fun _ => ?_⟩
    · show (openBacking eepromSize 0xFF e.file).length = _
      rw [hfile, hlen]
    · show Bytes.at? (openBacking eepromSize 0xFF e.file) a = (if c.made then c.cell else _) a
      rw [hfile, if_pos (h.made.mpr hlen), h.cells hlen a ha]
    · simp only [Eeprom.init, hfile, dif_pos hlen]
  · have hfile : openBacking eepromSize 0xFF e.file = List.replicate eepromSize 0xFF := if_neg hlen
    refine ⟨⟨fun _ => ?_, fun _ => rfl⟩, rfl, fun _ a ha => ?_, fun _ => ?_⟩
    · show (openBacking eepromSize 0xFF e.file).length = _
      rw [hfile, List.length_replicate]
    · show Bytes.at? (openBacking eepromSize 0xFF e.file) a = (if c.made then c.cell else _) a
      rw [hfile, if_neg (fun hmade => hlen (h.made.mp hmade))]
      simp [Bytes.at?, ha]
    · simp only [Eeprom.init, hfile, List.length_replicate, dite_true]

/-- A death in the making of the file. -/
theorem initKilled (h : Backs e c) (cut : Cut) :
    Backs (e.step (.initKilled cut)) (c.step (.initKilled cut)) := by
  -- a file of the right size is left as it is, whatever the cut
  by_cases hlen : e.file.length = eepromSize
  · have hfile : openBackingCut eepromSize 0xFF cut e.file = e.file := if_pos hlen
    have hmade := h.made.mpr hlen
    show Backs ⟨openBackingCut eepromSize 0xFF cut e.file, _, false⟩ _
    rw [hfile]
    cases cut with
    | untouched => exact h.closed _
    | emptied => exact h.closed _
    | filled n =>
      have hc : c.step (.initKilled (.filled n)) = { c with opened := false } := by
        simp [Cells.step, hmade]
      rw [hc]
      exact h.closed _
  · have hmade : ¬ c.made = true := fun hmade => hlen (h.made.mp hmade)
    cases cut with
    | untouched =>
      have hfile : openBackingCut eepromSize 0xFF .untouched e.file = e.file := if_neg hlen
      show Backs ⟨openBackingCut eepromSize 0xFF .untouched e.file, _, false⟩ _
      rw [hfile]
      exact h.closed _
    | emptied =>
      have hfile : openBackingCut eepromSize 0xFF .emptied e.file = [] := if_neg hlen
      have hnil : ([] : List UInt8).length ≠ eepromSize := by decide
      show Backs ⟨openBackingCut eepromSize 0xFF .emptied e.file, _, false⟩ _
      rw [hfile]
      exact ⟨⟨fun hcon => absurd hcon hmade, fun hcon => absurd hcon hnil⟩, rfl,
        fun hcon => absurd hcon hnil, fun hopen => absurd hopen Bool.false_ne_true⟩
    | filled n =>
      have hfile : openBackingCut eepromSize 0xFF (.filled n) e.file =
          List.replicate (min n eepromSize) 0xFF ++ List.replicate (eepromSize - n) 0 := if_neg hlen
      show Backs ⟨openBackingCut eepromSize 0xFF (.filled n) e.file, _, false⟩ _
      rw [hfile]
      refine ⟨⟨fun _ => ?_, fun _ => rfl⟩, rfl, fun _ a ha => ?_,
        fun hopen => absurd hopen Bool.false_ne_true⟩
      · rw [List.length_append, List.length_replicate, List.length_replicate]
        omega
      · show _ = (if c.made then c.cell else _) a
        rw [if_neg hmade]
        simp only [Bytes.at?, List.getD_eq_getElem?_getD, List.getElem?_append,
          List.length_replicate, List.getElem?_replicate]
        by_cases han : a < n
        · simp [han, ha]
        · have hrest : a - min n eepromSize < eepromSize - n := by omega
          simp [han, hrest]

theorem writes (h : Backs e c) {data : List UInt8} (fits : data.length < 2 ^ 32) :
    Backs (e.writeBlock addr data) (c.step (.writes addr data fits)) := by
  -- while it is closed nothing is written to the file
  cases hopen : e.opened with
  | false =>
    have hc : c.step (.writes addr data fits) = c := by
      simp [Cells.step, ← h.opened, hopen]
    have hopened : (e.writeBlock addr data).opened = e.opened := Eeprom.writeBlock_opened
    rw [hc]
    refine ⟨?_, hopened.trans h.opened, ?_, fun hcon => ?_⟩
    · rw [Eeprom.writeBlock_closed hopen]
      exact h.made
    · rw [Eeprom.writeBlock_closed hopen]
      exact h.cells
    · rw [hopened, hopen] at hcon
      cases hcon
  | true =>
    have hc : c.step (.writes addr data fits) = { c with
        cell := fun a => (data[(UInt32.ofNat a - addr).toNat]?).getD (c.cell a) } := by
      simp [Cells.step, ← h.opened, hopen]
    have hopened : (e.writeBlock addr data).opened = e.opened := Eeprom.writeBlock_opened
    have harray : (e.writeBlock addr data).array.toList = (e.writeBlock addr data).file :=
      Eeprom.writeBlock_through hopen (h.array hopen)
    have hlen : (e.writeBlock addr data).file.length = eepromSize := by
      rw [← harray, Bytes.length_toList]
    rw [hc]
    refine ⟨⟨fun _ => hlen, fun _ => h.made.mpr (h.length hopen)⟩, hopened.trans h.opened,
      fun _ a ha => ?_, fun _ => harray⟩
    have hsize : (UInt32.ofNat a).toNat = a := by
      rw [UInt32.toNat_ofNat']
      exact Nat.mod_eq_of_lt (ha.trans (by decide))
    have hin : ¬ eepromSize ≤ (UInt32.ofNat a).toNat := by
      rw [hsize]
      exact Nat.not_le.mpr ha
    calc Bytes.at? (e.writeBlock addr data).file a
        = (e.writeBlock addr data).read (UInt32.ofNat a) := by
          rw [Eeprom.read, if_neg hin, harray, hsize]
      _ = (data[(UInt32.ofNat a - addr).toNat]?).getD (e.read (UInt32.ofNat a)) := by
          rw [Eeprom.read_writeBlock fits, if_neg hin]
      _ = (data[(UInt32.ofNat a - addr).toNat]?).getD (c.cell a) := by
          rw [h.read hopen, Cells.read, if_neg hin, hsize]

theorem factoryReset (h : Backs e c) : Backs e.factoryReset (c.step .factoryReset) := by
  cases hopen : e.opened with
  | false =>
    have hc : c.step .factoryReset = c := by simp [Cells.step, ← h.opened, hopen]
    have he : e.factoryReset = ⟨e.file, ⟨List.replicate eepromSize 0xFF, List.length_replicate⟩,
        false⟩ := by simp [Eeprom.factoryReset, hopen]
    have hcopen : c = { c with opened := false } := by rw [← hopen, h.opened]
    rw [hc, he, hcopen]
    exact h.closed _
  | true =>
    have hc : c.step .factoryReset = { c with cell := fun _ => 0xFF } := by
      simp [Cells.step, ← h.opened, hopen]
    have hall : pwrite e.file 0 (List.replicate eepromSize 0xFF) = List.replicate eepromSize 0xFF :=
      pwrite_all (by rw [List.length_replicate, h.length hopen])
    have he : e.factoryReset = ⟨List.replicate eepromSize 0xFF,
        ⟨List.replicate eepromSize 0xFF, List.length_replicate⟩, true⟩ := by
      simp [Eeprom.factoryReset, hopen, hall]
    rw [hc, he]
    exact ⟨⟨fun _ => List.length_replicate, fun _ => h.made.mpr (h.length hopen)⟩,
      hopen.symm.trans h.opened, fun _ a ha => by simp [Bytes.at?, ha], fun _ => rfl⟩

theorem shutdown (h : Backs e c) : Backs e.shutdown (c.step .shutdown) := by
  have hfile : e.shutdown.file = e.file := by
    show (if e.opened = true then _ else _) = _
    split
    · rename_i hopen
      rw [pwrite_all (by rw [h.array hopen]), h.array hopen]
    · rfl
  have he : e.shutdown = ⟨e.file, e.array, false⟩ := by
    rw [← hfile]
    rfl
  rw [he]
  exact h.closed _

/-- Every event keeps the two together. -/
theorem step (h : Backs e c) (event : EepromEvent) : Backs (e.step event) (c.step event) := by
  cases event with
  | init => exact h.init
  | initKilled cut => exact h.initKilled cut
  | writes addr data fits => exact h.writes fits
  | factoryReset => exact h.factoryReset
  | shutdown => exact h.shutdown
  | kill => exact h.closed _

theorem run (file : List UInt8) (es : List EepromEvent) :
    Backs (Eeprom.run file es) (Cells.run file es) := by
  suffices ∀ e c, Backs e c → Backs (es.foldl Eeprom.step e) (es.foldl Cells.step c) from
    this _ _ (start file)
  induction es with
  | nil => exact fun e c h => h
  | cons event es ih => exact fun e c h => ih _ _ (h.step event)

/-- A new process reads what the last one did. -/
theorem restart (h : Backs e c) (hopen : e.opened = true) :
    e.kill.init.read addr = e.read addr := by
  have hrestart : e.kill.init.read addr = ((c.step .kill).step .init).read addr :=
    ((h.step .kill).step .init).read rfl
  have hcells : ((c.step .kill).step .init).read addr = c.read addr := by
    simp [Cells.step, Cells.read, h.made.mpr (h.length hopen)]
  exact hrestart.trans (hcells.trans (h.read hopen).symm)

end Backs

/-- From any file, and over any run: while the file is open, each address reads as its cell. -/
theorem eeprom_is_cells (file : List UInt8) (es : List EepromEvent) :
    (Eeprom.run file es).opened = (Cells.run file es).opened ∧
    ((Eeprom.run file es).opened = true → ∀ addr,
      (Eeprom.run file es).read addr = (Cells.run file es).read addr) :=
  ⟨(Backs.run file es).opened, fun hopen _ => (Backs.run file es).read hopen⟩

end Refinement

/-! ### Words -/

namespace Eeprom

variable {e : Eeprom} {addr : UInt32}

/-- A block that fits reads back. -/
theorem readBlock_writeBlock {data : List UInt8} (h : addr.toNat + data.length ≤ eepromSize) :
    (e.writeBlock addr data).readBlock addr data.length = data := by
  have hsize : data.length ≤ eepromSize := (Nat.le_add_left _ _).trans h
  have hfits : data.length < 2 ^ 32 := lt_of_le_of_lt hsize (by decide)
  refine List.ext_getElem (by simp [readBlock]) fun i hi hi' => ?_
  have hnat : (addr + UInt32.ofNat i).toNat = addr.toNat + i := by
    rw [UInt32.toNat_add, UInt32.toNat_ofNat']
    have : eepromSize < 2 ^ 32 := by decide
    omega
  have hin : ¬ eepromSize ≤ (addr + UInt32.ofNat i).toNat := by omega
  have hback : (addr + UInt32.ofNat i - addr).toNat = i := by
    rw [UInt32.toNat_sub, hnat]
    have := addr.toNat_lt
    omega
  simp only [readBlock, List.getElem_map, List.getElem_range]
  rw [read_writeBlock hfits, if_neg hin, hback, List.getElem?_eq_getElem hi', Option.getD_some]

theorem readDword_writeDword {v : UInt32} (h : addr.toNat + 4 ≤ eepromSize) :
    (e.writeDword addr v).readDword addr = v := by
  have hback : (e.writeBlock addr (Bytes.le32 v).toList).readBlock addr _ = _ := readBlock_writeBlock h
  rw [Bytes.length_toList] at hback
  rw [readDword, writeDword, hback, Bytes.pack_toList, Bytes.ofLe32_le32]

theorem readWord_writeWord {v : UInt16} (h : addr.toNat + 2 ≤ eepromSize) :
    (e.writeWord addr v).readWord addr = v := by
  have hback : (e.writeBlock addr (Bytes.le16 v).toList).readBlock addr _ = _ := readBlock_writeBlock h
  rw [Bytes.length_toList] at hback
  rw [readWord, writeWord, hback, Bytes.pack_toList, Bytes.ofLe16_le16]

end Eeprom

end OkRn.Hal
