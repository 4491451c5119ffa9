/-
OkRn/Usb/Descriptors.lean

The interfaces of a hard key, and how a report descriptor says which one it is.

A descriptor is a list of items, each with a head byte that gives its kind and the
length of its data.  The parser walks over them to the first usage page and the first
usage, and stops as soon as it has both.  `usage_is_read_past_any_items`: whatever else
stands before, between and behind the two does not change what is found.

Values longer than four bytes, long items and a descriptor that ends in the middle of an
item are as the source has them.  The theorem is by induction on the items, with what
was found so far as the accumulator.
-/
import Mathlib.Data.List.Basic

namespace OkRn.Usb

/-! ### The firmware's table -/

/-- An interface of the firmware, as the app's table has it. -/
structure IfaceSpec where
  iface : Nat
  usagePage : UInt32
  usage : UInt32
  endpointIn : Nat
  /-- 0: from the device to the host only. -/
  endpointOut : Nat
  required : Bool
  deriving DecidableEq

/-- `USB_IFACE.KEYBOARD`. -/
def keyboard : Nat := 0

/-- `USB_IFACE.FIDO`. -/
def fido : Nat := 1

/-- `USB_IFACE.VENDOR`. -/
def vendor : Nat := 2

/-- `USB_IFACE.SEREMU`. -/
def seremu : Nat := 3

/-- The table, in its order. -/
def all : List IfaceSpec :=
  [⟨keyboard, 0x0001, 0x06, 8, 0, true⟩, ⟨fido, 0xF1D0, 0x01, 64, 64, true⟩,
    ⟨vendor, 0xFFAB, 0x02, 64, 64, true⟩, ⟨seremu, 0xFFC9, 0x04, 64, 32, false⟩]

/-- The interface that has this usage. -/
def identify (usagePage usage : Option UInt32) : Option IfaceSpec :=
  all.find? fun spec => some spec.usagePage = usagePage ∧ some spec.usage = usage

/-! ### The parser -/

/-- The data bytes of a short item, by its head. -/
def dataSize (head : UInt8) : Nat :=
  let sizeIndex := (head &&& 0x03).toNat
  if sizeIndex = 3 then 4 else sizeIndex

/-- The little-endian value of up to four bytes. -/
def itemValue : List UInt8 → UInt32
  | [] => 0
  | byte :: rest => byte.toUInt32 ||| (itemValue rest <<< 8)

/-- The walk of `parseUsage`, with what it has found. -/
def parseFrom (usagePage usage : Option UInt32) : List UInt8 → Option UInt32 × Option UInt32
  | [] => (usagePage, usage)
  | head :: rest =>
    -- a long item: its length byte, its tag and its data
    if head = 0xFE then parseFrom usagePage usage (rest.drop (2 + (rest.headD 0).toNat))
    else
      let value := itemValue (rest.take (dataSize head))
      let usagePage := if head &&& 0xFC = 0x04 then usagePage.or (some value) else usagePage
      let usage := if head &&& 0xFC = 0x08 then usage.or (some value) else usage
      if usagePage.isSome && usage.isSome then (usagePage, usage)
      else parseFrom usagePage usage (rest.drop (dataSize head))
termination_by bytes => bytes.length

/-- `parseUsage`: the first usage page and the first usage of a descriptor. -/
def parseUsage (bytes : List UInt8) (length : Nat) : Option UInt32 × Option UInt32 :=
  parseFrom none none (bytes.take length)

/-! ### Items -/

/-- An item of a report descriptor. -/
inductive Item
  | short (head : UInt8) (data : List UInt8) (notLong : head ≠ 0xFE)
    (fits : data.length = dataSize head)
  | long (tag : UInt8) (data : List UInt8) (fits : data.length < 256)

namespace Item

/-- An item, as its bytes. -/
def bytes : Item → List UInt8
  | short head data _ _ => head :: data
  | long tag data _ => 0xFE :: UInt8.ofNat data.length :: tag :: data

/-- A global usage page. -/
def usagePage : Item → Option UInt32
  | short head data _ _ => if head &&& 0xFC = 0x04 then some (itemValue data) else none
  | long .. => none

/-- A local usage. -/
def usage : Item → Option UInt32
  | short head data _ _ => if head &&& 0xFC = 0x08 then some (itemValue data) else none
  | long .. => none

end Item

section Walk

variable {p u : Option UInt32}

/-- One item of the walk, while it lacks one of the two. -/
theorem parseFrom_item (hopen : (p.isSome && u.isSome) = false) (item : Item)
    (tail : List UInt8) : parseFrom p u (item.bytes ++ tail) =
      if (p.or item.usagePage).isSome && (u.or item.usage).isSome then
        (p.or item.usagePage, u.or item.usage)
      else parseFrom (p.or item.usagePage) (u.or item.usage) tail := by
  -- a short item may name the page or the usage, a long one is passed over
  cases item with
  | short head data notLong fits =>
    have htake : (data ++ tail).take (dataSize head) = data := List.take_left' fits
    have hdrop : (data ++ tail).drop (dataSize head) = tail := List.drop_left' fits
    have hpage : (if head &&& 0xFC = 0x04 then p.or (some (itemValue data)) else p) =
        p.or (Item.usagePage (.short head data notLong fits)) := by
      simp only [Item.usagePage]
      split <;> simp
    have husage : (if head &&& 0xFC = 0x08 then u.or (some (itemValue data)) else u) =
        u.or (Item.usage (.short head data notLong fits)) := by
      simp only [Item.usage]
      split <;> simp
    show parseFrom p u (head :: (data ++ tail)) = _
    rw [parseFrom, if_neg notLong]
    simp only [htake, hdrop, hpage, husage]
  | long tag data fits =>
    have hsize : (UInt8.ofNat data.length).toNat = data.length := by
      rw [UInt8.toNat_ofNat']
      exact Nat.mod_eq_of_lt fits
    show parseFrom p u (0xFE :: UInt8.ofNat data.length :: tag :: (data ++ tail)) =
      if (p.or none).isSome && (u.or none).isSome then _ else parseFrom (p.or none) (u.or none) tail
    rw [parseFrom, if_pos rfl, Option.or_none, Option.or_none, hopen, List.headD_cons, hsize,
      Nat.add_comm, List.drop_succ_cons, List.drop_succ_cons, List.drop_left]
    rfl

/-- Any items are read to their first page and their first usage. -/
theorem parseFrom_items (hopen : (p.isSome && u.isSome) = false) (items : List Item)
    (tail : List UInt8) : parseFrom p u (items.flatMap Item.bytes ++ tail) =
      if (p.or (items.findSome? Item.usagePage)).isSome &&
          (u.or (items.findSome? Item.usage)).isSome then
        (p.or (items.findSome? Item.usagePage), u.or (items.findSome? Item.usage))
      else parseFrom (p.or (items.findSome? Item.usagePage))
        (u.or (items.findSome? Item.usage)) tail := by
  -- what was found first is not found again
  have hcons {f : Item → Option UInt32} (o : Option UInt32) (item : Item) (items : List Item) :
      o.or ((item :: items).findSome? f) = (o.or (f item)).or (items.findSome? f) := by
    rw [List.findSome?_cons, Option.or_assoc]
    cases f item <;> rfl
  induction items generalizing p u with
  | nil =>
    show parseFrom p u tail = if (p.or none).isSome && (u.or none).isSome then _ else
      parseFrom (p.or none) (u.or none) tail
    rw [Option.or_none, Option.or_none, hopen]
    rfl
  | cons item items ih =>
    rw [List.flatMap_cons, List.append_assoc, parseFrom_item hopen, hcons, hcons]
    split
    · -- the walk has stopped, and what it has found stays
      rename_i hboth
      rw [Bool.and_eq_true] at hboth
      obtain ⟨x, hx⟩ := Option.isSome_iff_exists.mp hboth.1
      obtain ⟨y, hy⟩ := Option.isSome_iff_exists.mp hboth.2
      rw [hx, hy]
      rfl
    · rename_i hboth
      exact ih (by simpa using hboth)

/-- The first usage page and the first usage of any items, whatever follows them. -/
theorem usage_is_read_past_any_items (items : List Item) (tail : List UInt8) (length : Nat)
    {page usage : UInt32} (hpage : items.findSome? Item.usagePage = some page)
    (husage : items.findSome? Item.usage = some usage)
    (hread : (items.flatMap Item.bytes).length ≤ length) :
    parseUsage (items.flatMap Item.bytes ++ tail) length = (some page, some usage) := by
  obtain ⟨n, rfl⟩ := Nat.exists_eq_add_of_le hread
  rw [parseUsage, List.take_length_add_append, parseFrom_items rfl, Option.none_or, Option.none_or,
    hpage, husage]
  rfl

/-- A report id, a long item and the vendor interface's two, with more behind them. -/
theorem usage_is_read_past_any_items_vendor :
    parseUsage ([0x85, 0x01, 0xFE, 0x01, 0x20, 0x00, 0x06, 0xAB, 0xFF, 0x09, 0x02] ++ [0xA1, 0x01])
      256 = (some 0xFFAB, some 0x02) :=
  usage_is_read_past_any_items
    [.short 0x85 [0x01] (by decide) rfl, .long 0x20 [0x00] (by decide),
      .short 0x06 [0xAB, 0xFF] (by decide) rfl, .short 0x09 [0x02] (by decide) rfl]
    [0xA1, 0x01] 256 (by decide) (by decide) (by decide)

end Walk

end OkRn.Usb
