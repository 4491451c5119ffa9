/-
OkRn/Edge/Record.lean

The record: 208 bytes in flash, written to sector A or B in turn.

`stateDecode_stateEncode` says a record is read back field for field, so the
two sectors are a double buffer (`OkRn.DoubleBuffer`) over `EdgeState`, with
the record's own `gen` as its generation.  `stateLoad` picks the newer readable
record of the two.
-/
import OkRn.Edge.State
import OkRn.Lib.DoubleBuffer

namespace OkRn.Edge

/-! ### Encoding -/

/-- The bytes that a record begins with. -/
def magic : Bytes 8 := ⟨[79, 75, 69, 68, 71, 69, 118, 49], rfl⟩

/-- A flag is one byte. -/
def flagByte (b : Bool) : UInt8 := if b then 1 else 0

/-- Bytes 0..203 of the record. -/
def stateBytes (s : EdgeState) : Bytes 204 where
  toList := magic.toList ++ ((Bytes.le32 s.gen).toList ++ ((Bytes.le32 s.seq).toList ++
    (s.head.toList ++ ([flagByte s.owes, 0, 0, 0] ++ ((Bytes.le32 s.owed.seq).toList ++
      (s.owed.head.toList ++ (s.lastLink.encode.toList ++ ([flagByte s.salted, flagByte s.cont] ++
        (s.salt.toList ++ (s.contId.toList ++ [0, 0]))))))))))
  length_toList := by simp

/-- `state_encode`: the bytes, then the first 4 bytes of their SHA-256. -/
def stateEncode (env : Env) (s : EdgeState) : Sector where
  toList := (stateBytes s).toList ++ ((env.sha256 (stateBytes s).toList).first 4).toList
  length_toList := by simp

/-- `state_decode`: nothing is read under another magic or a check that fails. -/
def stateDecode (env : Env) (rec : Sector) : Option EdgeState :=
  let r := rec.toList
  if Bytes.slice r 0 8 ≠ magic then none
  else if Bytes.slice r 204 4 ≠ (env.sha256 (Bytes.slice r 0 204).toList).first 4 then none
  else some {
    gen := Bytes.ofLe32 (Bytes.slice r 8 4)
    seq := Bytes.ofLe32 (Bytes.slice r 12 4)
    head := Bytes.slice r 16 32
    owes := Bytes.at? r 48 == 1
    owed := ⟨Bytes.ofLe32 (Bytes.slice r 52 4), Bytes.slice r 56 32⟩
    lastLink := Link.decode (Bytes.slice r 88 64)
    salted := Bytes.at? r 152 == 1
    cont := Bytes.at? r 153 == 1
    salt := Bytes.slice r 154 32
    contId := Bytes.slice r 186 16 }

@[simp] theorem flagByte_eq_one (b : Bool) : (flagByte b == 1) = b := by cases b <;> rfl

/-- A record is read back field for field. -/
@[simp] theorem stateDecode_stateEncode (env : Env) (s : EdgeState) :
    stateDecode env (stateEncode env s) = some s := by
  have hbytes : Bytes.slice (stateEncode env s).toList 0 204 = stateBytes s := by
    simp [stateEncode]
  have hcheck : Bytes.slice (stateEncode env s).toList 204 4
      = (env.sha256 (stateBytes s).toList).first 4 := by
    simp [stateEncode]
  rw [stateDecode]
  simp only [hbytes, hcheck]
  obtain ⟨gen, seq, head, owes, ⟨oseq, ohead⟩, last, salted, cont, salt, contId⟩ := s
  simp [stateEncode, stateBytes]

/-! ### Saving and loading -/

/-- An erased sector. -/
def erased : Sector := ⟨List.replicate 208 0xFF, List.length_replicate⟩

/-- An erased sector holds no record. -/
theorem stateDecode_erased (env : Env) : stateDecode env erased = none := by
  have h : Bytes.slice erased.toList 0 8 ≠ magic := by decide
  simp [stateDecode, h]

namespace Key

/-- `state_save`: the next generation, to the other sector. -/
def stateSave (env : Env) (k : Key) : Key :=
  let st := { k.st with gen := k.st.gen + 1 }
  let side := DoubleBuffer.side st.gen
  let rec' := stateEncode env st
  { k with st := st, flash := Function.update k.flash side rec' }.push (.saved side rec')

/-- `hold`: a link's place in the ring of the last eight. -/
def heldAt (seq : UInt32) : Fin 8 := ⟨seq.toNat % 8, Nat.mod_lt _ (by decide)⟩

/-- A link goes into its place of the ring. -/
def hold (seq : UInt32) (link : Link) (head : Digest) (reveal : Option Digest) (k : Key) : Key :=
  let h : HeldLink := ⟨seq, link, head, reveal.getD (Bytes.zero 32)⟩
  { k with held := Function.update k.held (heldAt seq) (some h) }

/-- The record `state_load` picks. -/
def loadRecord (env : Env) (flash : Bool → Sector) : EdgeState :=
  DoubleBuffer.load (stateDecode env) EdgeState.gen EdgeState.empty flash

/-- `state_load`: the latest link is held again, without its reveal. -/
def stateLoad (env : Env) (k : Key) : Key :=
  if k.loaded then k else
  let st := loadRecord env k.flash
  let k := { k with st := st, loaded := true }
  if st.seq ≠ seqNone then k.hold st.seq st.lastLink st.head none else k

end Key

end OkRn.Edge
