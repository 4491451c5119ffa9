/-
OkRn/Edge/Sectors.lean

The record's two sectors in the flash array, and a save that is cut short.

The record goes through two routines of the firmware, `okcore_flashsector` and
`okcore_flashget_common`, which stand here as parameters (`Okcore`) with what is written
of them (`Okcore.Lawful`): the sector is erased and then written, word by word.

So a save is an erase and 52 words (`saving`), and the process can die between any two
of these calls.

Main result: `cut_save_is_torn` says what the next start then finds: the other sector,
and all the rest of the array, as they were, and this sector as it was, unreadable, or
holding the whole record.  An unreadable one is what a run of the key may find at a cut
(`Torn`).  The check is 4 bytes of a hash, and an erased check reads as four 0xFF: a part
of a record whose SHA-256 begins with them would be read.
-/
import OkRn.Edge.Demo
import OkRn.Edge.Run
import OkRn.Hal.Flash

namespace OkRn.Edge

open Hal

/-! ### The region -/

/-- Where the two sectors of the record are: `EDGE_STATE_A`, and `EDGE_STATE_B` 0x800 after. -/
structure Region (f : Flash) where
  stateA : Nat
  starts : f.sector ∣ stateA
  behind : f.firstSectorEnd ≤ stateA
  within : stateA + 0x1000 ≤ f.top
  apart : f.sector ∣ 0x800
  room : 208 ≤ f.sector

namespace Region

variable {f : Flash} (r : Region f)

/-- The address of sector B. -/
def stateB : Nat := r.stateA + 0x800

/-- Where a sector lies. -/
def addr (side : Bool) : Nat := if side then r.stateB else r.stateA

/-- The record's bytes in each sector, as they are in memory. -/
def held (m : Mem) (side : Bool) : Sector where
  toList := (List.range 208).map fun i => m (r.addr side + i)
  length_toList := by simp

/-- The record's bytes, as the array holds them. -/
theorem held_toList (m : Mem) (side : Bool) :
    (r.held m side).toList = (List.range 208).map fun i => m (r.addr side + i) := rfl

end Region

/-- The 52 words of a record. -/
def words (rec : Sector) : List UInt32 :=
  (List.range 52).map fun i => Bytes.ofLe32 (Bytes.slice rec.toList (4 * i) 4)

/-! ### The firmware's flash routines

They are the firmware's own, so they are parameters here: what `okcore_flashsector` asks of
the flash for some bytes and an address, and what `okcore_flashget_common` reads. -/

/-- The two routines of the firmware, by the calls they make and the bytes they give. -/
structure Okcore where
  flashsector : List UInt8 → Nat → List FlashCall
  flashgetCommon : Mem → Nat → Nat → List UInt8

/-- What is written of them: the sector is erased and then written, and both walk the flash
in 32-bit words, one for every four bytes of the buffer. -/
structure Okcore.Lawful (C : Okcore) : Prop where
  writes : ∀ (rec : Sector) (a : Nat),
    C.flashsector rec.toList a = .erase a false :: programs a (words rec)
  reads : ∀ (m : Mem) (a : Nat), C.flashgetCommon m a 208 = (List.range 208).map fun i => m (a + i)

variable (C : Okcore)

/-- The flash calls of `state_save`, the record encoded. -/
def stateSave {f : Flash} (r : Region f) (side : Bool) (rec : Sector) : List FlashCall :=
  C.flashsector rec.toList (r.addr side)

/-- The two records as `state_load` reads them. -/
def Region.sectors {f : Flash} (r : Region f) (m : Mem) (side : Bool) : Sector :=
  Bytes.pack 208 (C.flashgetCommon m (r.addr side) 208)

variable {C}

/-- What the firmware reads is what the array holds. -/
theorem Okcore.Lawful.sectors (hC : C.Lawful) {f : Flash} (r : Region f) (m : Mem) :
    r.sectors C m = r.held m := by
  funext side
  rw [Region.sectors, hC.reads, ← r.held_toList, Bytes.pack_toList]

/-- An erase, then the words in order. -/
def saving {f : Flash} (r : Region f) (side : Bool) (rec : Sector) : List FlashCall :=
  .erase (r.addr side) false :: programs (r.addr side) (words rec)

/-- A save is an erase and its words. -/
theorem Okcore.Lawful.stateSave (hC : C.Lawful) {f : Flash} (r : Region f) (side : Bool)
    (rec : Sector) : stateSave C r side rec = saving r side rec :=
  hC.writes rec (r.addr side)

/-- A sector with the first `n` words of a record. -/
def begun (rec : Sector) (n : Nat) : Sector where
  toList := rec.toList.take (4 * n) ++ List.replicate (208 - 4 * n) 0xFF
  length_toList := by
    have hlen : rec.toList.length = 208 := rec.length_toList
    simp only [List.length_append, List.length_take, hlen, List.length_replicate]
    omega

/-- An erased check word. -/
def blankCheck : Bytes 4 := ⟨[0xFF, 0xFF, 0xFF, 0xFF], rfl⟩

/-! ### A part of a record -/

section Parts

variable {env : Env} {rec : Sector} {n : Nat}

theorem at_slice {l : List UInt8} {off n i : Nat} (hi : i < n) (hn : off + n ≤ l.length) :
    Bytes.at? (Bytes.slice l off n).toList i = Bytes.at? l (off + i) := by
  show (((l.drop off) ++ List.replicate n 0).take n).getD i 0 = l.getD (off + i) 0
  rw [List.take_append_of_le_length (by rw [List.length_drop]; omega),
    List.getD_eq_getElem?_getD, List.getD_eq_getElem?_getD, List.getElem?_take_of_lt hi,
    List.getElem?_drop]

/-- A save that was cut off has written its first words. -/
theorem at_begun {i : Nat} (hi : i < 208) :
    Bytes.at? (begun rec n).toList i = if i < 4 * n then Bytes.at? rec.toList i else 0xFF := by
  have hlen : rec.toList.length = 208 := rec.length_toList
  show (rec.toList.take (4 * n) ++ List.replicate (208 - 4 * n) 0xFF).getD i 0 = _
  rw [List.getD_eq_getElem?_getD]
  split
  · rename_i hlt
    rw [List.getElem?_append_left (by rw [List.length_take]; omega),
      List.getElem?_take_of_lt hlt, ← List.getD_eq_getElem?_getD]
    rfl
  · rename_i hge
    have htake : (rec.toList.take (4 * n)).length = 4 * n := by
      rw [List.length_take]
      omega
    rw [List.getElem?_append_right (by omega), htake, List.getElem?_replicate,
      if_pos (by omega)]
    rfl

/-- A part of a record is not read, unless its hash happens to begin with four 0xFF. -/
theorem begun_is_unreadable (hn : n < 52)
    (hhash : (env.sha256 (Bytes.slice (begun rec n).toList 0 204).toList).first 4 ≠ blankCheck) :
    stateDecode env (begun rec n) = none := by
  have hlen : (begun rec n).toList.length = 208 := (begun rec n).length_toList
  have hbyte (off i k : Nat) (hi : i < k) (hk : off + k ≤ 208) (hoff : 4 * n ≤ off + i) :
      Bytes.at? (Bytes.slice (begun rec n).toList off k).toList i = 0xFF := by
    rw [at_slice hi (by omega), at_begun (by omega), if_neg (by omega)]
  simp only [stateDecode]
  -- without its second word there is no magic; with it the check is still blank
  by_cases hmagic : n < 2
  · rw [if_pos]
    intro h
    have hfifth := hbyte 0 4 8 (by omega) (by omega) (by omega)
    rw [h] at hfifth
    exact absurd hfifth (by decide)
  · have hcheck : Bytes.slice (begun rec n).toList 204 4 = blankCheck := by
      apply Bytes.ext
      have hfour := (Bytes.slice (begun rec n).toList 204 4).length_toList
      have h0 := hbyte 204 0 4 (by omega) (by omega) (by omega)
      have h1 := hbyte 204 1 4 (by omega) (by omega) (by omega)
      have h2 := hbyte 204 2 4 (by omega) (by omega) (by omega)
      have h3 := hbyte 204 3 4 (by omega) (by omega) (by omega)
      obtain ⟨a, b, c, d, hl⟩ := List.length_eq_four.mp hfour
      rw [hl] at h0 h1 h2 h3 ⊢
      simp only [Bytes.at?, List.getD_cons_zero, List.getD_cons_succ] at h0 h1 h2 h3
      rw [h0, h1, h2, h3]
      rfl
    split
    · rfl
    · rw [if_pos]
      rw [hcheck]
      exact hhash.symm

end Parts

/-! ### A save -/

section Save

variable {f : Flash} (r : Region f) (side : Bool)

/-- The first words of a write. -/
theorem take_programs (a n : Nat) (ws : List UInt32) :
    (programs a ws).take n = programs a (ws.take n) := by
  induction ws generalizing a n with
  | nil => simp [programs]
  | cons w ws ih =>
    cases n with
    | zero => rfl
    | succ n =>
      show FlashCall.program a w false false :: (programs (a + 4) ws).take n = _
      rw [ih]
      rfl

/-- Both sectors lie in the flash array, each on its own. -/
theorem addr_facts : f.sector ∣ r.addr side ∧ f.firstSectorEnd ≤ r.addr side ∧
    r.addr side + 208 ≤ f.top := by
  have hbehind := r.behind
  have hwithin := r.within
  cases side with
  | false => exact ⟨r.starts, hbehind, show r.stateA + 208 ≤ _ by omega⟩
  | true =>
    exact ⟨Nat.dvd_add r.starts r.apart, show _ ≤ r.stateA + 0x800 by omega,
      show r.stateA + 0x800 + 208 ≤ _ by omega⟩

/-- The record's bytes of a sector are in that sector alone. -/
theorem sectorOf_addr {i : Nat} (hi : i < 208) : f.sectorOf (r.addr side + i) = r.addr side := by
  have hdvd := (addr_facts r side).1
  have hroom := r.room
  have h : f.sectorOf (r.addr side + i) = f.sectorOf (r.addr side) :=
    sectorOf_eq_iff.mpr (by rw [sectorOf_of_dvd hdvd]; omega)
  rw [h, sectorOf_of_dvd hdvd]

theorem addr_ne : r.addr (!side) ≠ r.addr side := by
  cases side <;> simp [Region.addr, Region.stateB]

/-- An erase reaches the end of its sector and no further. -/
theorem erase_addr (m : Mem) :
    f.eraseSector m (r.addr side) false = (m.memset (r.addr side) 0xFF f.sector, 0) := by
  obtain ⟨hdvd, hfirst, htop⟩ := addr_facts r side
  have hin : f.inFlash (r.addr side) = true :=
    inFlash_iff.mpr ⟨le_trans (Nat.le_add_right _ _) hfirst, by omega⟩
  simp [Flash.eraseSector, sectorOf_of_dvd hdvd, hin, Nat.not_lt.mpr hfirst]

/-- The flash after the erase and the first `n` words. -/
theorem run_saving (m : Mem) (rec : Sector) {n : Nat} (hn : n ≤ 52) :
    FlashCall.codes f ((saving r side rec).take (n + 1)) m = List.replicate (n + 1) 0 ∧
    r.held (FlashCall.run f ((saving r side rec).take (n + 1)) m) side = begun rec n ∧
    ∀ x, f.sectorOf x ≠ r.addr side →
      FlashCall.run f ((saving r side rec).take (n + 1)) m x = m x := by
  obtain ⟨hdvd, hfirst, htop⟩ := addr_facts r side
  have hroom := r.room
  have hlen : rec.toList.length = 208 := rec.length_toList
  have hwords : ((words rec).take n).length = n := by simp [words, hn]
  -- first the erase, then a word at a time, all in the one sector
  have hself := sectorOf_of_dvd hdvd
  have herased (x : Nat) (hx : r.addr side ≤ x)
      (hlt : x < r.addr side + 4 * ((words rec).take n).length) :
      m.memset (r.addr side) 0xFF f.sector x = 0xFF := by
    rw [hwords] at hlt
    rw [Mem.memset, if_pos (by omega)]
  obtain ⟨hcodes, hword, hrest⟩ := run_programs
    (Nat.mod_eq_zero_of_dvd (f.four_dvd_sector.trans hdvd)) hfirst (by rw [hwords]; omega) herased
  rw [hwords] at hcodes hrest
  have htake : (saving r side rec).take (n + 1) =
      .erase (r.addr side) false :: programs (r.addr side) ((words rec).take n) := by
    rw [saving, List.take_succ_cons, take_programs]
  have hrun : FlashCall.run f ((saving r side rec).take (n + 1)) m =
      FlashCall.run f (programs (r.addr side) ((words rec).take n))
        (m.memset (r.addr side) 0xFF f.sector) := by
    rw [htake, run_cons]
    show FlashCall.run f _ (f.eraseSector m (r.addr side) false).1 = _
    rw [erase_addr]
  refine ⟨?_, ?_, fun x hx => ?_⟩
  · rw [htake]
    show (f.eraseSector m (r.addr side) false).2 ::
      FlashCall.codes f _ (f.eraseSector m (r.addr side) false).1 = _
    rw [erase_addr, hcodes]
    rfl
  · apply Bytes.ext
    apply List.ext_getElem
    · rw [(begun rec n).length_toList]
      simp [Region.held]
    intro i hi _
    have hi : i < 208 := by simpa [Region.held] using hi
    have hright : (begun rec n).toList[i] = Bytes.at? (begun rec n).toList i := by
      rw [Bytes.at?, List.getD_eq_getElem?_getD, List.getElem?_eq_getElem]
      rfl
    rw [hright, at_begun hi]
    simp only [Region.held_toList, List.getElem_map, List.getElem_range]
    rw [hrun]
    split
    · -- byte `i % 4` of word `i / 4`
      rename_i hlt
      have hw := hword (i / 4) (Bytes.ofLe32 (Bytes.slice rec.toList (4 * (i / 4)) 4)) (by
        rw [List.getElem?_take_of_lt (by omega), words, List.getElem?_map,
          List.getElem?_range (by omega)]
        rfl)
      have hbyte := at_le32_word (FlashCall.run f (programs (r.addr side) ((words rec).take n))
        (m.memset (r.addr side) 0xFF f.sector)) (r.addr side + 4 * (i / 4))
        (i := i % 4) (Nat.mod_lt _ (by decide))
      rw [hw, Bytes.le32_ofLe32, at_slice (Nat.mod_lt _ (by decide)) (by omega),
        Nat.add_assoc, Nat.div_add_mod] at hbyte
      exact hbyte.symm
    · rw [hrest _ (by omega), Mem.memset, if_pos (by omega)]
  · have hout : ¬ (r.addr side ≤ x ∧ x < r.addr side + f.sector) := fun h =>
      hx ((sectorOf_eq_iff.mpr (by rw [hself]; exact h)).trans hself)
    rw [hrun, hrest x (by omega), Mem.memset, if_neg hout]

/-- The other sector is as it was. -/
theorem held_of_rest {m m' : Mem} (h : ∀ x, f.sectorOf x ≠ r.addr side → m' x = m x)
    {rec : Sector} (hrec : r.held m' side = rec) :
    r.held m' = Function.update (r.held m) side rec := by
  funext s
  rcases eq_or_ne s side with rfl | hne
  · rw [Function.update_self, hrec]
  · rw [Function.update_of_ne hne]
    have hs : s = !side := by
      cases s <;> cases side <;> simp at hne ⊢
    apply Bytes.ext
    rw [Region.held_toList, Region.held_toList]
    apply List.map_congr_left
    intro i hi
    apply h
    rw [sectorOf_addr r s (List.mem_range.mp hi), hs]
    exact addr_ne r side

/-- After 52 words the record is whole. -/
theorem begun_whole (rec : Sector) : begun rec 52 = rec := by
  apply Bytes.ext
  have hlen : rec.toList.length = 208 := rec.length_toList
  show rec.toList.take 208 ++ List.replicate 0 0xFF = _
  rw [List.take_of_length_le (by omega), List.replicate_zero, List.append_nil]

theorem length_saving (rec : Sector) : (saving r side rec).length = 53 := by
  have hlen (a : Nat) (ws : List UInt32) : (programs a ws).length = ws.length := by
    induction ws generalizing a with
    | nil => rfl
    | cons w ws ih => exact congrArg (· + 1) (ih (a + 4))
  rw [saving, List.length_cons, hlen]
  simp [words]

/-- A save that walks the flash, cut after `n` of its 53 calls. -/
theorem cut_saving (env : Env) (m : Mem) (rec : Sector) (n : Nat) :
    let m' := FlashCall.run f ((saving r side rec).take n) m
    (∀ c ∈ FlashCall.codes f ((saving r side rec).take n) m, c = 0) ∧
    (∀ x, f.sectorOf x ≠ r.addr side → m' x = m x) ∧
    (53 ≤ n → r.held m' = Function.update (r.held m) side rec) ∧
    (n < 53 → (∃ torn, Torn env side torn ∧ r.held m' = tear torn (r.held m)) ∨
      (env.sha256 (Bytes.slice (r.held m' side).toList 0 204).toList).first 4 = blankCheck) := by
  intro m'
  have hfull : (saving r side rec).length = 53 := length_saving r side rec
  rcases Nat.lt_or_ge n 53 with hlt | hge
  · cases n with
    | zero =>
      exact ⟨fun c hc => (nomatch hc), fun x _ => rfl, fun h => absurd h (by decide),
        fun _ => .inl ⟨none, .inl rfl, rfl⟩⟩
    | succ n =>
      obtain ⟨hcodes, hsector, hrest⟩ := run_saving r side m rec (n := n) (by omega)
      refine ⟨fun c hc => ?_, hrest, fun h => absurd h (by omega), fun _ => ?_⟩
      · rw [hcodes] at hc
        exact List.eq_of_mem_replicate hc
      · rw [show r.held m' side = begun rec n from hsector]
        -- a record cut short reads as one only where its hash begins as an erased check does
        by_cases hhash :
            (env.sha256 (Bytes.slice (begun rec n).toList 0 204).toList).first 4 = blankCheck
        · exact .inr hhash
        · exact .inl ⟨some (side, begun rec n),
            .inr ⟨begun rec n, rfl, begun_is_unreadable (by omega) hhash⟩,
            held_of_rest r side hrest hsector⟩
  · have hall : (saving r side rec).take n = (saving r side rec).take (52 + 1) := by
      rw [List.take_of_length_le (by omega), List.take_of_length_le (by omega)]
    obtain ⟨hcodes, hsector, hrest⟩ := run_saving r side m rec (n := 52) (le_refl _)
    rw [begun_whole] at hsector
    rw [← hall] at hcodes hsector hrest
    refine ⟨fun c hc => ?_, hrest, fun _ => held_of_rest r side hrest hsector,
      fun h => absurd h (by omega)⟩
    rw [hcodes] at hc
    exact List.eq_of_mem_replicate hc

/-- A save cut between two of its flash calls: what was called succeeded, the rest of the
memory is as it was, and the next start reads the sectors as a run of the key may leave them. -/
theorem cut_save_is_torn (hC : C.Lawful) (env : Env) (m : Mem) (rec : Sector) (n : Nat) :
    let calls := stateSave C r side rec
    let m' := FlashCall.run f (calls.take n) m
    (∀ c ∈ FlashCall.codes f (calls.take n) m, c = 0) ∧
    (∀ x, f.sectorOf x ≠ r.addr side → m' x = m x) ∧
    (calls.length ≤ n → r.sectors C m' = Function.update (r.sectors C m) side rec) ∧
    (n < calls.length →
      (∃ torn, Torn env side torn ∧ r.sectors C m' = tear torn (r.sectors C m)) ∨
        (env.sha256 (Bytes.slice (r.sectors C m' side).toList 0 204).toList).first 4 =
          blankCheck) := by
  intro calls m'
  have hcalls : calls = saving r side rec := hC.stateSave r side rec
  have hm' : m' = FlashCall.run f ((saving r side rec).take n) m := by rw [← hcalls]
  rw [hC.sectors, hC.sectors, hm', hcalls, length_saving]
  exact cut_saving r side env m rec n

/-- The region as the key has it: its first sector is the third of the array. -/
def region : Region mk20dx256 where
  stateA := 0x11000
  starts := by decide
  behind := by decide
  within := by decide
  apart := by decide
  room := by decide

/-- Routines that walk the flash in words. -/
def walking : Okcore where
  flashsector bytes a := .erase a false :: programs a (words (Bytes.pack 208 bytes))
  flashgetCommon m a n := (List.range n).map fun i => m (a + i)

/-- A firmware that writes word by word does what is asked. -/
theorem walking_lawful : walking.Lawful where
  writes rec a := by
    show FlashCall.erase a false :: programs a (words (Bytes.pack 208 rec.toList)) = _
    rw [Bytes.pack_toList]
  reads _ _ := rfl

/-- A save of a blank record over an erased sector, cut after its erase and four words. -/
theorem cut_save_is_torn_early :
    let calls := stateSave walking region true (Bytes.zero 208)
    let m' := FlashCall.run mk20dx256 (calls.take 5) fun _ => 0xFF
    (∀ c ∈ FlashCall.codes mk20dx256 (calls.take 5) fun _ => 0xFF, c = 0) ∧
    (∀ x, mk20dx256.sectorOf x ≠ region.addr true → m' x = 0xFF) ∧
    (calls.length ≤ 5 → region.sectors walking m' =
      Function.update (region.sectors walking fun _ => 0xFF) true (Bytes.zero 208)) ∧
    (5 < calls.length →
      (∃ torn, Torn Demo.env true torn ∧
        region.sectors walking m' = tear torn (region.sectors walking fun _ => 0xFF)) ∨
        (Demo.env.sha256 (Bytes.slice (region.sectors walking m' true).toList 0 204).toList).first 4 =
          blankCheck) :=
  cut_save_is_torn region true walking_lawful Demo.env (fun _ => 0xFF) (Bytes.zero 208) 5

end Save

end OkRn.Edge
