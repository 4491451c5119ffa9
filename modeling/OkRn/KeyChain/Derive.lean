/-
OkRn/KeyChain/Derive.lean

The derive record: written by the soft key's plugin, read by the app.

`okpluginKeyChainDerived` lays the fields out one after another; `decodeDerive` takes
each of them back at its offset.  The reader checks the version and that the length is
the one of the public key, and nothing else: `Canonical` says which records it accepts
that the plugin also writes.

* `HexText` is a text of hex digits, which is what the native side hands over;
* `layout` is a record in its fields; the plugin and the reader are each brought to it
  (`derived_layout`, `decodeDerive_layout`).

Main results: `derive_reads_back_iff`, and `unknown_transport_is_read`.
-/
import OkRn.KeyChain.Recorder
import OkRn.Lib.Bytes

namespace OkRn.KeyChain

open Bytes

/-! ### Hexadecimal -/

/-- A digit of sixteen. -/
def hexDigit (n : Nat) : Char := "0123456789abcdef".toList.getD n '0'

/-- The value of a hexadecimal digit, in either case. -/
def hexValue (c : Char) : Option Nat :=
  if '0' ≤ c ∧ c ≤ '9' then some (c.toNat - '0'.toNat)
  else if 'a' ≤ c ∧ c ≤ 'f' then some (c.toNat - 'a'.toNat + 10)
  else if 'A' ≤ c ∧ c ≤ 'F' then some (c.toNat - 'A'.toNat + 10)
  else none

/-- The bytes as hex. -/
def hexOf (bytes : List UInt8) : String :=
  String.ofList (bytes.flatMap fun b => [hexDigit (b.toNat / 16), hexDigit (b.toNat % 16)])

/-- Pairs of digits; a last one alone is left out. -/
def hexPairs : List Char → List UInt8
  | high :: low :: rest =>
      UInt8.ofNat ((hexValue high).getD 0 * 16 + (hexValue low).getD 0) :: hexPairs rest
  | _ => []

/-- `fromHex`. -/
def fromHex (hex : String) : List UInt8 := hexPairs hex.toList

theorem hexValue_hexDigit {n : Nat} (h : n < 16) : hexValue (hexDigit n) = some n := by
  decide +revert

/-- Bytes written as hex are read back. -/
theorem fromHex_hexOf (bytes : List UInt8) : fromHex (hexOf bytes) = bytes := by
  rw [fromHex, hexOf, String.toList_ofList]
  induction bytes with
  | nil => rfl
  | cons b bytes ih =>
    have hb := b.toNat_lt
    have hvalue : b.toNat / 16 * 16 + b.toNat % 16 = b.toNat := by omega
    simp only [List.flatMap_cons, List.cons_append, List.nil_append, hexPairs,
      hexValue_hexDigit (show b.toNat / 16 < 16 by omega),
      hexValue_hexDigit (Nat.mod_lt b.toNat (by decide)), Option.getD_some, hvalue, ih,
      UInt8.ofNat_toNat]

theorem length_hexOf (bytes : List UInt8) : (hexOf bytes).toList.length = 2 * bytes.length := by
  rw [hexOf, String.toList_ofList]
  induction bytes with
  | nil => rfl
  | cons b bytes ih =>
    simp only [List.flatMap_cons, List.length_append, List.length_cons, ih, List.length_nil]
    omega

theorem digits_hexOf (bytes : List UInt8) :
    ∀ c ∈ (hexOf bytes).toList, (hexValue c).isSome = true := by
  intro c hc
  rw [hexOf, String.toList_ofList] at hc
  obtain ⟨b, -, hc⟩ := List.mem_flatMap.mp hc
  have hb := b.toNat_lt
  rcases List.mem_cons.mp hc with rfl | hc
  · rw [hexValue_hexDigit (by omega)]
    rfl
  · obtain rfl := List.mem_singleton.mp hc
    rw [hexValue_hexDigit (by omega)]
    rfl

/-- A text of hexadecimal digits. -/
structure HexText where
  text : String
  digits : ∀ c ∈ text.toList, (hexValue c).isSome = true

namespace HexText

/-- The bytes that it stands for. -/
def bytes (hex : HexText) : List UInt8 := fromHex hex.text

/-- The number of its digits. -/
def length (hex : HexText) : Nat := hex.text.toList.length

/-- The bytes in lower case. -/
def ofBytes (bytes : List UInt8) : HexText := ⟨hexOf bytes, digits_hexOf bytes⟩

/-- Hex made of bytes stands for them. -/
@[simp] theorem bytes_ofBytes (bytes : List UInt8) : (ofBytes bytes).bytes = bytes :=
  fromHex_hexOf bytes

/-- It has two digits for each. -/
theorem length_ofBytes (bytes : List UInt8) : (ofBytes bytes).length = 2 * bytes.length :=
  length_hexOf bytes

end HexText

/-! ### The writer -/

/-- `KC_MAX_PUB`. -/
def maxPub : Nat := 1216

/-- The length of an agent key's public key. -/
def agentPubLen (keytype : Nat) : Nat := if keytype = 1 ∨ keytype = 4 then 32 else 64

/-- What is handed up, if the public key fits; `pub` is the memory it is read from. -/
def okpluginKeyChainDerived (transport code keytype : Nat) (label32 : Bytes 32)
    (pub : List UInt8) (publen : Nat) (rpid32 : Option (Bytes 32)) : Option (List UInt8) :=
  let publen := if publen = 0 then agentPubLen keytype else publen
  if maxPub < publen then none
  else some <|
    1 :: UInt8.ofNat transport :: UInt8.ofNat code :: UInt8.ofNat (code / 256) ::
      UInt8.ofNat keytype :: (if rpid32.isSome then 1 else 0) ::
      (label32.toList ++ ((rpid32.getD (zero 32)).toList ++
        (UInt8.ofNat publen :: UInt8.ofNat (publen / 256) :: pub.take publen)))

/-! ### The reader -/

/-- `b[at] | (b[at + 1] << 8)`. -/
def word (b : List UInt8) (off : Nat) : Nat :=
  (at? b off).toNat ||| ((at? b (off + 1)).toNat <<< 8)

/-- `decodeDerive`. -/
def decodeDerive (hex : HexText) : Except String DeriveRecord :=
  let b := hex.bytes
  if b.length < 72 ∨ at? b 0 ≠ 1 then
    .error "key_chain: not a version-1 derive record"
  else if b.length ≠ 72 + word b 70 then
    .error "key_chain: the record length does not match its public key"
  else .ok
    { transport := if at? b 1 = 1 then .fido else .vendor
      code := word b 2
      keytype := (at? b 4).toNat
      labelHash := hexOf (slice b 6 32).toList
      rpIdHash := if at? b 5 ≠ 0 then some (hexOf (slice b 38 32).toList) else none
      publicKey := b.drop 72 }

theorem word_eq (b : List UInt8) (off : Nat) :
    word b off = (at? b off).toNat + 256 * (at? b (off + 1)).toNat := by
  rw [word, Nat.or_comm, ← Nat.shiftLeft_add_eq_or_of_lt (at? b off).toNat_lt, Nat.shiftLeft_eq]
  omega

/-! ### One layout for both -/

/-- The bytes of a record, field by field. -/
def layout (b₀ b₁ b₂ b₃ b₄ b₅ : UInt8) (label rp : Bytes 32) (l₀ l₁ : UInt8)
    (pub : List UInt8) : List UInt8 :=
  b₀ :: b₁ :: b₂ :: b₃ :: b₄ :: b₅ :: (label.toList ++ (rp.toList ++ (l₀ :: l₁ :: pub)))

/-- A list of bytes that is long enough begins with a field. -/
theorem exists_field {n : Nat} {l : List UInt8} (h : n ≤ l.length) :
    ∃ (field : Bytes n) (rest : List UInt8), l = field.toList ++ rest :=
  ⟨⟨l.take n, by simp [h]⟩, l.drop n, (List.take_append_drop n l).symm⟩

/-- Bytes of a record's length, in its fields. -/
theorem exists_layout {b : List UInt8} (h : 72 ≤ b.length) :
    ∃ b₀ b₁ b₂ b₃ b₄ b₅ label rp l₀ l₁ pub,
      b = layout b₀ b₁ b₂ b₃ b₄ b₅ label rp l₀ l₁ pub := by
  rcases b with - | ⟨b₀, - | ⟨b₁, - | ⟨b₂, - | ⟨b₃, - | ⟨b₄, - | ⟨b₅, b⟩⟩⟩⟩⟩⟩
  all_goals first | (simp at h; done) | skip
  simp only [List.length_cons] at h
  obtain ⟨label, b, rfl⟩ := exists_field (n := 32) (l := b) (by omega)
  simp only [List.length_append, length_toList] at h
  obtain ⟨rp, b, rfl⟩ := exists_field (n := 32) (l := b) (by omega)
  simp only [List.length_append, length_toList] at h
  rcases b with - | ⟨l₀, - | ⟨l₁, pub⟩⟩
  all_goals first | (simp at h; done) | skip
  exact ⟨b₀, b₁, b₂, b₃, b₄, b₅, label, rp, l₀, l₁, pub, rfl⟩

section

variable {b₀ b₁ b₂ b₃ b₄ b₅ l₀ l₁ : UInt8} {label rp : Bytes 32} {pub : List UInt8}

theorem layout_length :
    (layout b₀ b₁ b₂ b₃ b₄ b₅ label rp l₀ l₁ pub).length = 72 + pub.length := by
  simp only [layout, List.length_cons, List.length_append, length_toList]
  omega

/-- What the reader makes of the fields. -/
theorem decodeDerive_layout {hex : HexText}
    (hex_eq : hex.bytes = layout b₀ b₁ b₂ b₃ b₄ b₅ label rp l₀ l₁ pub) :
    decodeDerive hex =
      if b₀ ≠ 1 then .error "key_chain: not a version-1 derive record"
      else if pub.length ≠ l₀.toNat + 256 * l₁.toNat then
        .error "key_chain: the record length does not match its public key"
      else .ok
        { transport := if b₁ = 1 then .fido else .vendor
          code := b₂.toNat + 256 * b₃.toNat
          keytype := b₄.toNat
          labelHash := hexOf label.toList
          rpIdHash := if b₅ ≠ 0 then some (hexOf rp.toList) else none
          publicKey := pub } := by
  have hlen : (layout b₀ b₁ b₂ b₃ b₄ b₅ label rp l₀ l₁ pub).length = 72 + pub.length :=
    layout_length
  have hpub : (layout b₀ b₁ b₂ b₃ b₄ b₅ label rp l₀ l₁ pub).drop 72 = pub := by
    simp [layout, List.drop_append, List.drop_eq_nil_of_le]
  simp only [decodeDerive, hex_eq, hlen, hpub, word_eq]
  simp only [layout]
  simp

/-- What is written is a layout, with the length of the key that was read. -/
theorem derived_eq_some {transport code keytype publen : Nat} {rpid : Option (Bytes 32)}
    {rec : List UInt8}
    (h : okpluginKeyChainDerived transport code keytype label pub publen rpid = some rec) :
    ∃ n, n = (if publen = 0 then agentPubLen keytype else publen) ∧ n ≤ maxPub ∧
      rec = layout 1 (UInt8.ofNat transport) (UInt8.ofNat code) (UInt8.ofNat (code / 256))
        (UInt8.ofNat keytype) (if rpid.isSome then 1 else 0) label (rpid.getD (zero 32))
        (UInt8.ofNat n) (UInt8.ofNat (n / 256)) (pub.take n) := by
  rw [okpluginKeyChainDerived] at h
  by_cases hmax : maxPub < if publen = 0 then agentPubLen keytype else publen
  · rw [if_pos hmax] at h
    cases h
  · rw [if_neg hmax] at h
    exact ⟨_, rfl, Nat.not_lt.mp hmax, (Option.some.inj h).symm⟩

/-- The fields that the plugin writes. -/
theorem derived_layout {transport code keytype publen : Nat} {rpid : Option (Bytes 32)}
    (hpos : publen ≠ 0) (hmax : publen ≤ maxPub) :
    okpluginKeyChainDerived transport code keytype label pub publen rpid =
      some (layout 1 (UInt8.ofNat transport) (UInt8.ofNat code) (UInt8.ofNat (code / 256))
        (UInt8.ofNat keytype) (if rpid.isSome then 1 else 0) label (rpid.getD (zero 32))
        (UInt8.ofNat publen) (UInt8.ofNat (publen / 256)) (pub.take publen)) := by
  simp [okpluginKeyChainDerived, layout, hpos, Nat.not_lt.mpr hmax]

end

/-! ### Written, then read -/

/-- Reading gives back what was written. -/
theorem decode_derived {transport code keytype : Nat} (ht : transport ≤ 1) (hcode : code < 65536)
    (hkey : keytype < 256) (label : Bytes 32) (rp : Option (Bytes 32)) {pub : List UInt8}
    (hpos : 1 ≤ pub.length) (hmax : pub.length ≤ maxPub) :
    ∃ rec, okpluginKeyChainDerived transport code keytype label pub pub.length rp = some rec ∧
      decodeDerive (.ofBytes rec) = .ok
        { transport := if transport = 1 then .fido else .vendor
          code := code
          keytype := keytype
          labelHash := hexOf label.toList
          rpIdHash := rp.map fun h => hexOf h.toList
          publicKey := pub } := by
  have hmax' : pub.length ≤ 1216 := hmax
  refine ⟨_, derived_layout (by omega) hmax, ?_⟩
  rw [decodeDerive_layout (HexText.bytes_ofBytes _), List.take_length]
  have hlen : pub.length = (UInt8.ofNat pub.length).toNat +
      256 * (UInt8.ofNat (pub.length / 256)).toNat := by
    rw [UInt8.toNat_ofNat', UInt8.toNat_ofNat']
    omega
  have hword : (UInt8.ofNat code).toNat + 256 * (UInt8.ofNat (code / 256)).toNat = code := by
    rw [UInt8.toNat_ofNat', UInt8.toNat_ofNat']
    omega
  rw [if_neg (by simp), if_neg (not_not.mpr hlen), hword]
  congr 2
  · rcases (by omega : transport = 0 ∨ transport = 1) with rfl | rfl <;> rfl
  · rw [UInt8.toNat_ofNat']
    omega
  · cases rp <;> simp

/-! ### Read, then written -/

/-- The firmware's number for it. -/
def Transport.outputmode : Transport → Nat
  | .vendor => 0
  | .fido => 1

/-- What the plugin writes for these fields. -/
def DeriveRecord.encoding (r : DeriveRecord) : Option (List UInt8) :=
  okpluginKeyChainDerived r.transport.outputmode r.code r.keytype
    (pack 32 (fromHex r.labelHash)) r.publicKey r.publicKey.length
    (r.rpIdHash.map fun h => pack 32 (fromHex h))

/-- Two records agree but for the rpId hash of one that has none. -/
structure SameRecord (a b : List UInt8) : Prop where
  length : a.length = b.length
  bytes : ∀ i, (at? b 5 = 0 ∧ 38 ≤ i ∧ i < 70) ∨ at? a i = at? b i

/-- What is read, if anything is, is written as it came. -/
def ReadsBack (hex : HexText) : Prop :=
  ∀ r, decodeDerive hex = .ok r → ∃ rec, r.encoding = some rec ∧
    hex.length = 2 * rec.length ∧ SameRecord rec hex.bytes

/-- A record of another length or version. -/
def Foreign (b : List UInt8) : Prop :=
  b.length < 72 ∨ at? b 0 ≠ 1 ∨ b.length ≠ 72 + word b 70

/-- The values that the plugin gives the transport, the rpId's mark and the key's length. -/
structure Canonical (b : List UInt8) : Prop where
  transport : at? b 1 = 0 ∨ at? b 1 = 1
  hasRp : at? b 5 = 0 ∨ at? b 5 = 1
  publen : 1 ≤ word b 70 ∧ word b 70 ≤ maxPub

/-- A byte for every two digits. -/
theorem length_bytes (hex : HexText) : hex.bytes.length = hex.length / 2 := by
  have hpairs (l : List Char) : (hexPairs l).length = l.length / 2 := by
    induction l using hexPairs.induct with
    | case1 high low rest ih =>
      simp only [hexPairs, List.length_cons, ih]
      omega
    | case2 l h =>
      rcases l with - | ⟨c, - | ⟨c', l⟩⟩
      · simp [hexPairs]
      · simp [hexPairs]
      · exact (h c c' l rfl).elim
  exact hpairs hex.text.toList

/-- Bytes that are no record are refused. -/
theorem decode_foreign {hex : HexText} (h : Foreign hex.bytes) (r : DeriveRecord) :
    decodeDerive hex ≠ .ok r := by
  intro hr
  by_cases hversion : hex.bytes.length < 72 ∨ at? hex.bytes 0 ≠ 1
  · simp [decodeDerive, hversion] at hr
  · have hlen : hex.bytes.length ≠ 72 + word hex.bytes 70 := by
      rcases h with h | h | h
      · exact absurd (.inl h) hversion
      · exact absurd (.inr h) hversion
      · exact h
    simp [decodeDerive, hversion, hlen] at hr

section

variable {b₁ b₂ b₃ b₄ b₅ l₀ l₁ : UInt8} {label rp : Bytes 32} {pub : List UInt8}

theorem ofNat_low (low high : UInt8) : UInt8.ofNat (low.toNat + 256 * high.toNat) = low := by
  apply UInt8.toNat.inj
  have hlow := low.toNat_lt
  rw [UInt8.toNat_ofNat']
  omega

theorem ofNat_high (low high : UInt8) :
    UInt8.ofNat ((low.toNat + 256 * high.toNat) / 256) = high := by
  apply UInt8.toNat.inj
  have hlow := low.toNat_lt
  have hhigh := high.toNat_lt
  rw [UInt8.toNat_ofNat']
  omega

/-- The fields that a record of the right version and length is read as. -/
def readAs (b₁ b₂ b₃ b₄ b₅ : UInt8) (label rp : Bytes 32) (pub : List UInt8) : DeriveRecord where
  transport := if b₁ = 1 then .fido else .vendor
  code := b₂.toNat + 256 * b₃.toNat
  keytype := b₄.toNat
  labelHash := hexOf label.toList
  rpIdHash := if b₅ ≠ 0 then some (hexOf rp.toList) else none
  publicKey := pub

/-- What these fields are written as, if the plugin writes them. -/
theorem encoding_readAs (hlen : pub.length = l₀.toNat + 256 * l₁.toNat) (hpos : 1 ≤ pub.length)
    (hmax : pub.length ≤ maxPub) :
    (readAs b₁ b₂ b₃ b₄ b₅ label rp pub).encoding =
      some (layout 1 (if b₁ = 1 then 1 else 0) b₂ b₃ b₄ (if b₅ ≠ 0 then 1 else 0) label
        (if b₅ ≠ 0 then rp else zero 32) l₀ l₁ pub) := by
  have htransport : UInt8.ofNat (if b₁ = 1 then Transport.fido else .vendor).outputmode =
      if b₁ = 1 then 1 else 0 := by
    by_cases h : b₁ = 1 <;> simp [h, Transport.outputmode]
  have hrp : ((if b₅ ≠ 0 then some (hexOf rp.toList) else none).map
      fun h => pack 32 (fromHex h)) = if b₅ ≠ 0 then some rp else none := by
    by_cases h : b₅ = 0 <;> simp [h, fromHex_hexOf]
  show okpluginKeyChainDerived (if b₁ = 1 then Transport.fido else .vendor).outputmode
    (b₂.toNat + 256 * b₃.toNat) b₄.toNat (pack 32 (fromHex (hexOf label.toList))) pub pub.length
    ((if b₅ ≠ 0 then some (hexOf rp.toList) else none).map fun h => pack 32 (fromHex h)) = _
  rw [hrp, derived_layout (Nat.one_le_iff_ne_zero.mp hpos) hmax, fromHex_hexOf, pack_toList,
    List.take_length, htransport, ofNat_low, ofNat_high, hlen, ofNat_low, ofNat_high,
    UInt8.ofNat_toNat]
  by_cases h : b₅ = 0 <;> simp [h]

/-- A record that agrees with a layout has its bytes. -/
theorem SameRecord.layout {rec : List UInt8}
    (h : SameRecord rec (layout 1 b₁ b₂ b₃ b₄ b₅ label rp l₀ l₁ pub)) :
    at? rec 1 = b₁ ∧ at? rec 5 = b₅ ∧ at? rec 70 = l₀ ∧ at? rec 71 = l₁ := by
  have hbyte (i : Nat) (hi : i < 38 ∨ 70 ≤ i) :
      at? rec i = at? (KeyChain.layout 1 b₁ b₂ b₃ b₄ b₅ label rp l₀ l₁ pub) i := by
    rcases h.bytes i with ⟨-, h38, h70⟩ | h
    · omega
    · exact h
  refine ⟨?_, ?_, ?_, ?_⟩
  · rw [hbyte 1 (by omega)]
    simp [KeyChain.layout]
  · rw [hbyte 5 (by omega)]
    simp [KeyChain.layout]
  · rw [hbyte 70 (by omega)]
    simp [KeyChain.layout]
  · rw [hbyte 71 (by omega)]
    simp [KeyChain.layout]

/-- Two layouts that differ in the rpId hash only, where there is none. -/
theorem sameRecord_layout {rp' : Bytes 32} (h : b₅ = 0 ∨ rp' = rp) :
    SameRecord (layout 1 b₁ b₂ b₃ b₄ b₅ label rp' l₀ l₁ pub)
      (layout 1 b₁ b₂ b₃ b₄ b₅ label rp l₀ l₁ pub) := by
  refine ⟨by rw [layout_length, layout_length], fun i => ?_⟩
  rcases h with rfl | rfl
  · have hmark : at? (layout 1 b₁ b₂ b₃ b₄ 0 label rp l₀ l₁ pub) 5 = 0 := by simp [layout]
    by_cases hlow : i < 38
    · -- before the hash the two are the same list
      have hbefore (rp : Bytes 32) : at? (layout 1 b₁ b₂ b₃ b₄ 0 label rp l₀ l₁ pub) i =
          at? (1 :: b₁ :: b₂ :: b₃ :: b₄ :: 0 :: label.toList) i := by
        have hlen : i < (1 :: b₁ :: b₂ :: b₃ :: b₄ :: 0 :: label.toList).length := by
          simpa using hlow
        simp only [at?, layout, ← List.cons_append, List.getD_eq_getElem?_getD]
        rw [List.getElem?_append_left hlen]
      exact .inr (by rw [hbefore, hbefore])
    · by_cases hhigh : 70 ≤ i
      · -- behind it too
        have hbehind (rp : Bytes 32) : at? (layout 1 b₁ b₂ b₃ b₄ 0 label rp l₀ l₁ pub) i =
            at? (l₀ :: l₁ :: pub) (i - 70) := by
          rw [layout]
          repeat rw [at_cons (by omega)]
          rw [at_skip (by simp; omega), at_skip (by simp; omega)]
          simp only [length_toList]
          congr 1
        exact .inr (by rw [hbehind, hbehind])
      · exact .inl ⟨hmark, by omega, by omega⟩
  · exact .inr rfl

/-- Such a record is written as it came exactly when the plugin writes such values. -/
theorem readsBack_layout {hex : HexText}
    (hhex : hex.bytes = layout 1 b₁ b₂ b₃ b₄ b₅ label rp l₀ l₁ pub)
    (hlen : pub.length = l₀.toNat + 256 * l₁.toNat) :
    ReadsBack hex ↔ hex.length % 2 = 0 ∧ Canonical hex.bytes := by
  have hread : decodeDerive hex = .ok (readAs b₁ b₂ b₃ b₄ b₅ label rp pub) := by
    rw [decodeDerive_layout hhex, if_neg (by simp), if_neg (not_not.mpr hlen)]
    rfl
  have hhalf := length_bytes hex
  have htransport : at? hex.bytes 1 = b₁ := by simp [hhex, layout]
  have hmark : at? hex.bytes 5 = b₅ := by simp [hhex, layout]
  have hword : word hex.bytes 70 = pub.length := by
    rw [hlen, word_eq]
    simp [hhex, layout]
  constructor
  · intro h
    obtain ⟨rec, hrec, hdigits, hsame⟩ := h _ hread
    have hrest := hsame.length
    rw [hhex] at hsame
    obtain ⟨h1, h5, h70, h71⟩ := hsame.layout
    obtain ⟨n, hn, hmax, hlayout⟩ := derived_eq_some hrec
    have hkey : (readAs b₁ b₂ b₃ b₄ b₅ label rp pub).publicKey = pub := rfl
    rw [hkey] at hn
    have hpos : pub.length ≠ 0 := by
      -- an empty key would be written with the length of an agent's
      intro hzero
      rw [if_pos hzero] at hn
      have hl₀ : at? rec 70 = UInt8.ofNat n := by
        rw [hlayout]
        simp [layout]
      have hzero' : l₀ = 0 := UInt8.toNat.inj (by simp; omega)
      rw [hzero', hl₀, hn, agentPubLen] at h70
      split at h70 <;> cases h70
    rw [if_neg hpos] at hn
    have hfull := hrec
    rw [encoding_readAs hlen (by omega) (hn ▸ hmax)] at hfull
    obtain rfl := Option.some.inj hfull
    -- what is written has 0 or 1 in these two places
    refine ⟨by omega, ?_, ?_, by omega, by omega⟩
    · rw [htransport, ← h1]
      by_cases h : b₁ = 1 <;> simp [layout, h]
    · rw [hmark, ← h5]
      by_cases h : b₅ = 0 <;> simp [layout, h]
  · rintro ⟨heven, hcan⟩ r hr
    obtain rfl : readAs b₁ b₂ b₃ b₄ b₅ label rp pub = r := Except.ok.inj (hread.symm.trans hr)
    have hpublen := hcan.publen
    rw [hword] at hpublen
    have hb₁ : (if b₁ = 1 then 1 else 0) = b₁ := by
      rcases htransport ▸ hcan.transport with h | h <;> simp [h]
    have hb₅ : (if b₅ ≠ 0 then 1 else 0) = b₅ := by
      rcases hmark ▸ hcan.hasRp with h | h <;> simp [h]
    refine ⟨_, encoding_readAs hlen hpublen.1 hpublen.2, ?_, ?_⟩
    · rw [hhex, layout_length] at hhalf
      rw [layout_length]
      omega
    · rw [hb₁, hb₅, hhex]
      refine sameRecord_layout ?_
      by_cases h : b₅ = 0
      · exact .inl h
      · exact .inr (if_pos h)

end

/-- A derive record reads back as it was written, and what is read was written so exactly when the
record is of another length or version or carries values that the plugin writes. -/
theorem derive_reads_back_iff {transport code keytype : Nat} (htransport : transport ≤ 1)
    (hcode : code < 65536) (hkeytype : keytype < 256) (label : Bytes 32) (rp : Option (Bytes 32))
    {pub : List UInt8} (hpos : 1 ≤ pub.length) (hmax : pub.length ≤ maxPub) (hex : HexText) :
    (∃ rec, okpluginKeyChainDerived transport code keytype label pub pub.length rp = some rec ∧
      decodeDerive (.ofBytes rec) = .ok
        { transport := if transport = 1 then .fido else .vendor
          code := code
          keytype := keytype
          labelHash := hexOf label.toList
          rpIdHash := rp.map fun h => hexOf h.toList
          publicKey := pub }) ∧
      (ReadsBack hex ↔ Foreign hex.bytes ∨
        hex.length % 2 = 0 ∧ Canonical hex.bytes) := by
  refine ⟨decode_derived htransport hcode hkeytype label rp hpos hmax, ?_⟩
  by_cases hforeign : Foreign hex.bytes
  · exact iff_of_true (fun r hr => absurd hr (decode_foreign hforeign r)) (.inl hforeign)
  · simp only [Foreign, not_or, not_not] at hforeign
    obtain ⟨hlong, hversion, hlen⟩ := hforeign
    -- the record is a layout, and nothing but the values is left to tell
    obtain ⟨b₀, b₁, b₂, b₃, b₄, b₅, label, rp, l₀, l₁, pub, hhex⟩ :=
      exists_layout (Nat.not_lt.mp hlong)
    obtain rfl : b₀ = 1 := by
      rw [hhex] at hversion
      simpa [layout] using hversion
    have hpub : pub.length = l₀.toNat + 256 * l₁.toNat := by
      rw [hhex, layout_length, word_eq] at hlen
      simp [layout] at hlen
      omega
    rw [readsBack_layout hhex hpub]
    refine ⟨.inr, fun h => h.resolve_left ?_⟩
    rintro (h | h | h)
    · exact hlong h
    · exact h hversion
    · exact h hlen

/-- A web derive's record, with a key of one byte. -/
def webRecord (transport : UInt8) : List UInt8 :=
  layout 1 transport 128 0 2 1 (zero 32) (zero 32) 1 0 [9]

theorem derive_reads_back_iff_web :
    (∃ rec, okpluginKeyChainDerived 1 128 2 (zero 32) [9] 1 (some (zero 32)) = some rec ∧
      decodeDerive (.ofBytes rec) = .ok
        ⟨.fido, 128, 2, hexOf (zero 32).toList, some (hexOf (zero 32).toList), [9]⟩) ∧
    ReadsBack (.ofBytes (webRecord 1)) := by
  obtain ⟨hwritten, hread⟩ := derive_reads_back_iff (show 1 ≤ 1 by decide)
    (show 128 < 65536 by decide) (show 2 < 256 by decide) (zero 32) (some (zero 32))
    (show 1 ≤ [(9 : UInt8)].length by decide) (by decide) (.ofBytes (webRecord 1))
  refine ⟨hwritten, hread.mpr (.inr ⟨?_, ?_⟩)⟩
  · rw [HexText.length_ofBytes]
    omega
  · rw [HexText.bytes_ofBytes]
    exact ⟨by decide, by decide, by decide⟩

/-- A transport that there is not is read as the vendor interface. -/
theorem unknown_transport_is_read : ¬ ∀ hex : HexText, ReadsBack hex := by
  intro h
  have hread := h (.ofBytes (webRecord 2))
  have hcan := ((readsBack_layout (HexText.bytes_ofBytes _) (by decide)).mp hread).2
  rw [HexText.bytes_ofBytes] at hcan
  exact absurd hcan.transport (by decide)

end OkRn.KeyChain
