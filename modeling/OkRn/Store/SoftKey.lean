/-
OkRn/Store/SoftKey.lean

The soft key as the source of a sync.

`softHead` and `softRead` are `SoftKeyEdge.head` and `read`, over the library's HEAD and
PICKUP.  How the library writes these requests and reads their answers is a parameter,
`EdgeWire`; `Lawful` is what the app relies on.

A record is the key's when it has the bytes and the head of a link of the chain
(`KeyWrote`).  `softRead_wrote`: what a read gives are the key's records, one for each seq,
from the seq asked for or the oldest one held, whatever the key does between the requests.
-/
import OkRn.Edge.Later
import OkRn.Store.Mirror

namespace OkRn.Store

open OkRn.Edge (Env Key Reply Report HeldLink Welded Asked Refused Digest chainOf seqNone subOp
  byteAt get32 CleanBoots Short)

/-! ### The library's requests -/

/-- What `edge.head()` gives; `none` is null. -/
structure KeyHead where
  seq : Option Nat
  head : Blob
  oldest : Option Nat
  deriving DecidableEq

/-- The library's HEAD and PICKUP; `none` is a throw. -/
structure EdgeWire where
  headRequest : Report
  pickupRequest : Nat → Nat → Report
  headOf : List Reply → Option KeyHead
  linksOf : List Reply → Option (List RawLink)

/-- A seq as the library gives it. -/
def number (seq : UInt32) : Option Nat := if seq = seqNone then none else some seq.toNat

/-- A record with these bytes and this head. -/
def RawLink.Is (link : Edge.Link) (head : Digest) (r : RawLink) : Prop :=
  r.link = link.encode.toList ∧ r.head = head.toList

/-- What the app relies on of the library's requests. -/
structure EdgeWire.Lawful (W : EdgeWire) : Prop where
  headRequest : subOp (byteAt W.headRequest 5) = some .head
  pickupRequest : ∀ s n, 1 ≤ n → n ≤ 8 → s + n < 2 ^ 32 →
    subOp (byteAt (W.pickupRequest s n) 5) = some .pickup ∧
      (get32 (W.pickupRequest s n) 6).toNat = s ∧ (byteAt (W.pickupRequest s n) 10).toNat = n
  headOf : ∀ (seq oldest : UInt32) (head : Digest) (rest : List UInt8),
    W.headOf [.report (Bytes.pack 64 ((Bytes.le32 seq).toList ++ (head.toList ++
      ((Bytes.le32 oldest).toList ++ rest))))] = some ⟨number seq, head.toList, number oldest⟩
  linksOf : ∀ hs : List HeldLink, hs ≠ [] → ∃ rs,
    W.linksOf (hs.flatMap HeldLink.reports) = some rs ∧
      List.Forall₂ (fun h r => RawLink.Is h.link h.head r) hs rs
  refused : ∀ out, Refused out → W.headOf out = none ∧ W.linksOf out = none

/-! ### The soft key -/

/-- The links of a PICKUP. -/
def pickupMax : Nat := 8

/-- How many links a sync asks for. -/
def readBatch : Nat := 16

/-- `SoftKeyEdge.head`. -/
def softHead (h : KeyHead) : Head where
  seq := match h.seq with
    | none => -1
    | some seq => seq
  head := h.head
  ringFrom := match h.oldest, h.seq with
    | some oldest, _ => oldest
    | none, some seq => seq + 1
    | none, none => 0

/-- The loop of `SoftKeyEdge.read`, with `left` links to go from `s` on. -/
def pickups (pickup : Nat → Nat → Option (List RawLink)) (s left : Nat) : Option (List RawLink) :=
  if left = 0 then some []
  else (pickup s (min pickupMax left)).bind fun got =>
    (pickups pickup (s + pickupMax) (left - pickupMax)).map fun rest => got ++ rest
termination_by left
decreasing_by
  simp only [pickupMax]
  omega

/-- `SoftKeyEdge.read`; `h` is what its own HEAD gave. -/
def softRead (h : KeyHead) (pickup : Nat → Nat → Option (List RawLink)) (fromSeq count : Nat) :
    Option (List RawLink) :=
  match h.seq, h.oldest with
  | some seq, some oldest =>
    let first := max fromSeq oldest
    let last := min seq (fromSeq + count - 1)
    pickups pickup first (last + 1 - first)
  | _, _ => some []

/-! ### The key's records -/

/-- The record of the chain at a seq. -/
def KeyWrote (ws : List Welded) (s : Nat) (r : RawLink) : Prop :=
  ∃ w ∈ ws, w.link.seq.toNat = s ∧ r.Is w.link w.head

section

variable {E : Env} {W : EdgeWire} {k k' : Key} {out : List Reply} {ws : List Welded}

/-- What the library makes of HEAD: the newest link of the chain. -/
theorem headOf_wrote (hW : W.Lawful) {h : KeyHead} (hasked : Asked E k W.headRequest out k')
    (hclean : CleanBoots k'.log) (hshort : Short k'.log) (hh : W.headOf out = some h) :
    (chainOf k'.log = [] → h.seq = none) ∧
      ∀ w ∈ (chainOf k'.log).head?, h.seq = some w.link.seq.toNat ∧ h.head = w.head.toList := by
  rcases hasked.head hW.headRequest hclean hshort with
    hrefused | ⟨seq, head, oldest, rest, hout, hempty, htip⟩
  · rw [(hW.refused out hrefused).1] at hh
    cases hh
  · rw [hout, hW.headOf] at hh
    obtain rfl := Option.some.inj hh
    refine ⟨fun hnil => if_pos (hempty hnil), fun w hw => ?_⟩
    obtain ⟨hseq, hhead⟩ := htip w hw
    have hnone : w.link.seq ≠ seqNone := by
      simpa [Edge.Entry.short] using hshort _ (Edge.mem_of_chainOf (List.mem_of_mem_head? hw))
    rw [hseq] at hnone
    exact ⟨by rw [hseq]; exact if_neg hnone, by rw [hhead]⟩

/-- Seqs counted in 32 bits, without a wrap. -/
theorem numbers_from {x : UInt32} {n : Nat} (h : x.toNat + n < 2 ^ 32) :
    ((List.range n).map fun i => x + UInt32.ofNat i).map UInt32.toNat = List.range' x.toNat n := by
  rw [List.map_map, List.range'_eq_map_range]
  refine List.map_congr_left fun i hi => ?_
  have hi := List.mem_range.mp hi
  rw [Function.comp_apply, UInt32.toNat_add, UInt32.toNat_ofNat']
  omega

/-- What the library makes of PICKUP: the records at the seqs asked for. -/
theorem linksOf_wrote (hW : W.Lawful) {s n : Nat} {rs : List RawLink} (hn : 1 ≤ n) (hn' : n ≤ 8)
    (hsum : s + n < 2 ^ 32) (hasked : Asked E k (W.pickupRequest s n) out k')
    (hclean : CleanBoots k'.log) (hshort : Short k'.log) (hrs : W.linksOf out = some rs) :
    List.Forall₂ (KeyWrote (chainOf k'.log)) (List.range' s n) rs := by
  obtain ⟨hsub, hfrom, hcount⟩ := hW.pickupRequest s n hn hn' hsum
  have hmin : min (byteAt (W.pickupRequest s n) 10).toNat 8 = n := by omega
  rcases hasked.pickup hsub (by omega) (by omega) hclean hshort with
    hrefused | ⟨hs, hseqs, hof, hout⟩
  · rw [(hW.refused out hrefused).2] at hrs
    cases hrs
  · have hlen : hs.length = n := by
      have := congrArg List.length hseqs
      simpa [Edge.asked, hmin] using this
    obtain ⟨rs', hrs', hall⟩ := hW.linksOf hs (by rintro rfl; simp at hlen; omega)
    rw [hout, hrs'] at hrs
    obtain rfl := Option.some.inj hrs
    have hnumbers : hs.map (fun x => x.seq.toNat) = List.range' s n := by
      have hmap := congrArg (List.map UInt32.toNat) hseqs
      rw [Edge.asked, hmin, numbers_from (by omega), hfrom, List.map_map] at hmap
      exact hmap
    rw [← hnumbers, List.forall₂_map_left_iff]
    refine (List.forall₂_iff_get.mp hall).elim fun hlen' hget => List.forall₂_iff_get.mpr
      ⟨hlen', fun i hi hi' => ?_⟩
    obtain ⟨w, hw, hlink, hhead, hseq⟩ := hof _ (List.get_mem hs ⟨i, hi⟩)
    refine ⟨w, hw, by rw [hseq], ?_⟩
    rw [hlink, hhead]
    exact hget i hi hi'

variable {pickup : Nat → Nat → Option (List RawLink)} {rs : List RawLink}

/-- The answers to PICKUP are the key's records. -/
def Picks (ws : List Welded) (pickup : Nat → Nat → Option (List RawLink)) : Prop :=
  ∀ s n rs, 1 ≤ n → n ≤ 8 → s + n < 2 ^ 32 → pickup s n = some rs →
    List.Forall₂ (KeyWrote ws) (List.range' s n) rs

/-- What some PICKUPs give are the key's records, one for each seq. -/
theorem pickups_wrote (hpickup : Picks ws pickup) {s left : Nat} (hsum : s + left < 2 ^ 32)
    (h : pickups pickup s left = some rs) :
    List.Forall₂ (KeyWrote ws) (List.range' s left) rs := by
  -- eight links a request, until none is left
  induction s, left using pickups.induct generalizing rs with
  | case1 s =>
    rw [pickups, if_pos rfl] at h
    obtain rfl := Option.some.inj h
    exact .nil
  | case2 s left hleft ih =>
    rw [pickups, if_neg hleft] at h
    obtain ⟨got, hgot, h⟩ := Option.bind_eq_some_iff.mp h
    obtain ⟨rest, hrest, rfl⟩ := Option.map_eq_some_iff.mp h
    simp only [pickupMax] at hgot hrest ih
    have hfirst := hpickup s (min 8 left) got (by omega) (by omega) (by omega) hgot
    have hsplit : List.range' s left =
        List.range' s (min 8 left) ++ List.range' (s + min 8 left) (left - min 8 left) := by
      rw [List.range'_append_1]
      congr 1
      omega
    rw [hsplit]
    refine List.rel_append hfirst ?_
    by_cases hmore : 8 ≤ left
    · rw [Nat.min_eq_left hmore]
      exact ih (by omega) hrest
    · -- the last one, with nothing behind it
      have hnone : left - 8 = 0 := by omega
      rw [hnone, pickups, if_pos rfl] at hrest
      obtain rfl := Option.some.inj hrest
      rw [show left - min 8 left = 0 by omega]
      exact .nil

/-- A read gives the key's records, from the seq asked for or the oldest one held. -/
theorem softRead_wrote (hpickup : Picks ws pickup) {h : KeyHead} {seq oldest fromSeq count : Nat}
    (hseq : h.seq = some seq) (hold : h.oldest = some oldest) (hsum : seq + 1 < 2 ^ 32)
    (hread : softRead h pickup fromSeq count = some rs) :
    List.Forall₂ (KeyWrote ws) (List.range' (max fromSeq oldest)
      (min seq (fromSeq + count - 1) + 1 - max fromSeq oldest)) rs := by
  simp only [softRead, hseq, hold] at hread
  by_cases hnone : min seq (fromSeq + count - 1) + 1 - max fromSeq oldest = 0
  · rw [hnone, pickups, if_pos rfl] at hread
    obtain rfl := Option.some.inj hread
    rw [hnone]
    exact .nil
  · exact pickups_wrote hpickup (by omega) hread

end

end OkRn.Store
