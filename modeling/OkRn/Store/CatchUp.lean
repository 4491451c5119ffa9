/-
OkRn/Store/CatchUp.lean

The phone's copy and the key, together.

Between the requests of a sync the key does what it likes short of a wipe and a restore,
and any read may fail.  `copy_is_the_keys_chain`: over any run of syncs, the records of the
copy are links the key wrote, in order and welded, and none is ever set aside.
`sync_catches_up`: when no read fails, each read but the last goes 16 links on, and what
the copy then lacks up to the key's head was no longer in the key's ring.

Both rest on `CaughtUp`, the invariant of the reading loop over answers that are the
key's (`FromChain`).

* `Copied` is a copy after any run of syncs, and `OfChain` what it holds then;
* `SyncRun` follows one sync's requests, with the key's own run between them.
-/
import OkRn.Store.Reading
import OkRn.Store.SoftKey

namespace OkRn.Store

open OkRn.Edge (Env Key Welded Chained Later Asked Reachable chainOf weldHead CleanBoots Short)

variable {L : EdgeLib} {W : EdgeWire} {E : Env} {ws : List Welded} {head : Head} {now : Nat}
  {m m' : Mirror} {k k' : Key}

/-! ### Records of the chain -/

/-- The library decodes the links the key wrote, and welds them as the key does. -/
structure EdgeLib.Knows (L : EdgeLib) (E : Env) (ws : List Welded) : Prop where
  link : ∀ w ∈ ws, ∃ f, L.decodeLink w.link.encode.toList = some f ∧ f.seq = w.link.seq.toNat ∧
    f.reservedZero = true
  weld : ∀ v ∈ ws, ∀ w ∈ ws, L.weld v.head.toList w.link.encode.toList =
    (weldHead E v.head w.link).toList

/-- A library that knows a chain knows its older part. -/
theorem EdgeLib.Knows.of_suffix {older : List Welded} (h : L.Knows E ws) (hs : older <:+ ws) :
    L.Knows E older :=
  ⟨fun w hw => h.link w (hs.subset hw), fun v hv w hw => h.weld v (hs.subset hv) w (hs.subset hw)⟩

/-- A record of the older chain is one of the longer. -/
theorem KeyWrote.of_suffix {older : List Welded} {s : Nat} {r : RawLink} (h : KeyWrote older s r)
    (hs : older <:+ ws) : KeyWrote ws s r := by
  obtain ⟨w, hw, hr⟩ := h
  exact ⟨w, hs.subset hw, hr⟩

section

variable {a b r : EdgeLinkRecord} {p s : Nat}

/-- A record of the chain has its link's seq. -/
theorem seqOf_wrote (hL : L.Knows E ws) (h : KeyWrote ws s r.toRawLink) : seqOf L r = some s := by
  obtain ⟨w, hw, rfl, hlink, -⟩ := h
  obtain ⟨f, hf, hseq, -⟩ := hL.link w hw
  rw [seqOf, hlink, hf, Option.map_some, hseq]

theorem follows_first (hL : L.Knows E ws) (h : KeyWrote ws s r.toRawLink) :
    follows L none r = some true := by
  obtain ⟨w, hw, -, hlink, -⟩ := h
  obtain ⟨f, hf, -, hzero⟩ := hL.link w hw
  simp [follows, hlink, hf, hzero]

/-- A later record of the chain follows an earlier one. -/
theorem follows_wrote (hL : L.Knows E ws) (hws : Chained E ws) (ha : KeyWrote ws p a.toRawLink)
    (hb : KeyWrote ws s b.toRawLink) (hlt : p < s) : follows L (some a) b = some true := by
  have hp := seqOf_wrote hL ha
  obtain ⟨v, hv, hvseq, -, hvhead⟩ := ha
  obtain ⟨w, hw, hwseq, hlink, hhead⟩ := hb
  obtain ⟨f, hf, hseq, hzero⟩ := hL.link w hw
  have hweld : s = p + 1 → L.weld a.head b.link = b.head := fun hnext => by
    have hbound : w.head = weldHead E v.head w.link := hws.bound hw hv (by
      show w.link.seq.toNat = v.link.seq.toNat + 1
      omega)
    rw [hvhead, hlink, hL.weld v hv w hw, ← hbound]
    exact hhead.symm
  have hfs : f.seq = s := hseq.trans hwseq
  simp only [follows, hlink, hf, hzero, hp, hfs, Bool.not_true, Bool.false_eq_true, if_false,
    Option.map_some, if_neg (Nat.not_le.mpr hlt)]
  by_cases hnext : s = p + 1
  · rw [← hlink, hweld hnext]
    simp
  · simp [hnext]

end

/-! ### A batch of the chain -/

/-- One record for each seq from `s` on. -/
def Batch (ws : List Welded) (s n : Nat) (rs : List EdgeLinkRecord) : Prop :=
  List.Forall₂ (KeyWrote ws) (List.range' s n) (rs.map EdgeLinkRecord.toRawLink)

section

variable {s n : Nat} {rs : List EdgeLinkRecord}

/-- A batch is as long as it says. -/
theorem Batch.length (h : Batch ws s n rs) : rs.length = n := by
  have := h.length_eq
  simpa using this.symm

theorem Batch.wrote (h : Batch ws s n rs) {i : Nat} (hi : i < rs.length) :
    KeyWrote ws (s + i) rs[i].toRawLink := by
  have hget := h.get (i := i) (by rw [List.length_range', ← h.length]; exact hi) (by simpa using hi)
  simpa using hget

/-- The first of a batch, and the rest. -/
theorem Batch.tail {r : EdgeLinkRecord} (h : Batch ws s (n + 1) (r :: rs)) :
    KeyWrote ws s r.toRawLink ∧ Batch ws (s + 1) n rs := by
  rw [Batch, List.range'_succ, List.map_cons] at h
  obtain ⟨hr, hrs⟩ := List.forall₂_cons.mp h
  exact ⟨hr, hrs⟩

variable (head now) in
/-- A batch is taken up to the head, and goes on if it ends there or before. -/
theorem takeRecords_batch (hL : L.Knows E ws) (hws : Chained E ws) (h : Batch ws s n rs)
    (hlast : ∀ r ∈ m.links.getLast?, ∃ p, p < s ∧ KeyWrote ws p r.toRawLink) :
    (takeRecords L head now m rs).1.links = m.links ++ rs.take (head.seq + 1 - s).toNat ∧
      (takeRecords L head now m rs).2 = some (decide (n ≤ (head.seq + 1 - s).toNat)) := by
  induction rs generalizing m s n with
  | nil =>
    obtain rfl : n = 0 := h.length.symm
    simp [takeRecords]
  | cons r rs ih =>
    obtain ⟨n, rfl⟩ : ∃ n', n = n' + 1 := ⟨rs.length, h.length.symm⟩
    obtain ⟨hr, hrs⟩ := h.tail
    have hseq := seqOf_wrote hL hr
    -- behind the head's seq nothing more is taken
    by_cases hpast : head.seq < (s : Int)
    · have htake : takeRecord L head now m r = (m, some false) := by
        simp [takeRecord, hseq, hpast]
      have hzero : (head.seq + 1 - s).toNat = 0 := by omega
      simp [takeRecords, htake, hzero]
    · -- it comes right after the last record, or first
      have hfollows : follows L m.links.getLast? r = some true := by
        cases hl : m.links.getLast? with
        | none => exact follows_first hL hr
        | some last =>
          obtain ⟨p, hlt, hp⟩ := hlast last (by rw [hl]; exact Option.mem_some_self last)
          exact follows_wrote hL hws hp hr hlt
      have htake : takeRecord L head now m r =
          ({ m with links := m.links ++ [r], seen := markSeen now m.seen s }, some true) := by
        simp [takeRecord, hseq, hpast, hfollows]
      have hrest := ih (m := { m with links := m.links ++ [r], seen := markSeen now m.seen s }) hrs
        fun last hl => by
          obtain rfl : r = last := by simpa using hl
          exact ⟨s, Nat.lt_succ_self s, hr⟩
      have hone : (head.seq + 1 - s).toNat = (head.seq + 1 - (s + 1 : Nat)).toNat + 1 := by omega
      rw [takeRecords, htake]
      refine ⟨hrest.1.trans ?_, hrest.2.trans ?_⟩
      · rw [hone, List.take_succ_cons, List.append_assoc]
        rfl
      · rw [hone]
        simp

end

/-! ### The reading loop -/

/-- What a read gave: what its HEAD said, and the records; `none` is a throw. -/
abbrev ReadAnswer := KeyHead × Option (List EdgeLinkRecord)

/-- A read that fails, or brings nothing. -/
def ReadAnswer.fails (e : ReadAnswer) : Prop := e.2 = none ∨ e.2 = some []

instance : DecidablePred ReadAnswer.fails := fun e =>
  inferInstanceAs (Decidable (e.2 = none ∨ e.2 = some []))

/-- A read for `next` that fails, or gives the chain's records from `next`, or the oldest held, on;
`lost` are the seqs that were not held. -/
def FromChain (ws : List Welded) (head : Head) (lost : Nat → Prop) (failed : Prop) (next : Int)
    (e : ReadAnswer) : Prop :=
  (e.fails ∧ failed) ∨ ∃ (seq oldest : Nat) (rs : List EdgeLinkRecord), e.2 = some rs ∧ rs ≠ [] ∧
    head.seq ≤ (seq : Int) ∧ (∀ s < oldest, lost s) ∧ Batch ws (max next.toNat oldest)
      (min seq (next.toNat + readBatch - 1) + 1 - max next.toNat oldest) rs

/-- Where a sync stands that began to read at `first`. -/
structure CaughtUp (ws : List Welded) (head : Head) (lost : Nat → Prop) (failed : Prop)
    (first : Int) (w : Loop) : Prop where
  own : ∀ r ∈ w.mirror.links, ∃ s, KeyWrote ws s r.toRawLink
  start : 0 ≤ first ∧ first ≤ w.next
  last : w.going = true → ∀ r ∈ w.mirror.links.getLast?, ∃ p : Nat, (p : Int) < w.next ∧
    KeyWrote ws p r.toRawLink
  covered : ∀ s : Nat, first ≤ s → (s : Int) ≤ head.seq → (s : Int) < w.next →
    lost s ∨ ∃ r ∈ w.mirror.links, KeyWrote ws s r.toRawLink
  stopped : w.going = false → failed ∨ ∀ s : Nat, first ≤ s → (s : Int) ≤ head.seq →
    lost s ∨ ∃ r ∈ w.mirror.links, KeyWrote ws s r.toRawLink
  pace : w.going = true → head.seq < w.next ∨ w.next = first + readBatch * w.asked.length

section

variable {lost : Nat → Prop} {failed : Prop} {first : Int} {w : Loop}

/-- A batch that ends with `last` says where to read next. -/
theorem seqOf_last (hL : L.Knows E ws) {s n : Nat} {rs : List EdgeLinkRecord}
    {last : EdgeLinkRecord} (h : Batch ws s n rs) (hlast : rs.getLast? = some last) :
    0 < n ∧ seqOf L last = some (s + n - 1) ∧ KeyWrote ws (s + n - 1) last.toRawLink := by
  have hlen := h.length
  have hpos : 0 < rs.length := List.length_pos_iff.mpr fun hnil => by simp [hnil] at hlast
  have hwrote := h.wrote (i := rs.length - 1) (by omega)
  rw [List.getLast?_eq_getElem?, List.getElem?_eq_getElem (by omega)] at hlast
  rw [Option.some.inj hlast, show s + (rs.length - 1) = s + n - 1 by omega] at hwrote
  exact ⟨by omega, seqOf_wrote hL hwrote, hwrote⟩

/-- What is taken of a batch covers its seqs up to the head. -/
theorem Batch.covers {s n t : Nat} {rs : List EdgeLinkRecord} (h : Batch ws s n rs)
    (hfrom : s ≤ t) (hto : t < s + n) {j : Nat} (hj : t < s + j) :
    ∃ r ∈ rs.take j, KeyWrote ws t r.toRawLink := by
  have hi : t - s < rs.length := by
    rw [h.length]
    omega
  have hwrote := h.wrote hi
  rw [show s + (t - s) = t by omega] at hwrote
  exact ⟨_, List.mem_take_iff_getElem.mpr ⟨t - s, by omega, rfl⟩, hwrote⟩

theorem step_batch {rs : List EdgeLinkRecord} {last : EdgeLinkRecord} {welded : Bool} {t : Nat}
    (hasks : w.asks head = true) (hlast : rs.getLast? = some last)
    (htaken : (takeRecords L head now w.mirror rs).2 = some welded) (hseq : seqOf L last = some t) :
    w.step L head now (some rs) = if welded then
        ⟨(takeRecords L head now w.mirror rs).1, t + 1, w.going, w.asked ++ [w.next]⟩
      else ⟨(takeRecords L head now w.mirror rs).1, w.next, false, w.asked ++ [w.next]⟩ := by
  cases welded <;> simp [Loop.step, hasks, hlast, Loop.taken, htaken, hseq]

/-- The loop ends at a read that fails. -/
theorem CaughtUp.fails (h : CaughtUp ws head lost failed first w) (hf : failed) :
    CaughtUp ws head lost failed first
      { w with asked := w.asked ++ [w.next], going := false } :=
  ⟨h.own, h.start, fun hg => (by cases hg), h.covered, fun _ => Or.inl hf, fun hg => (by cases hg)⟩

/-- Records of the chain are added; they cover what is not lost up to `t`. -/
theorem CaughtUp.added (h : CaughtUp ws head lost failed first w) {s oldest n : Nat}
    {rs added : List EdgeLinkRecord} (hbatch : Batch ws s n rs) {j : Nat}
    (hs : s = max w.next.toNat oldest) (hlost : ∀ s < oldest, lost s)
    (hadded : added = w.mirror.links ++ rs.take j) :
    (∀ r ∈ added, ∃ s, KeyWrote ws s r.toRawLink) ∧
      ∀ t : Nat, first ≤ t → (t : Int) ≤ head.seq → t < s + n → t < s + j →
        lost t ∨ ∃ r ∈ added, KeyWrote ws t r.toRawLink := by
  subst hadded
  refine ⟨fun r hr => ?_, fun t ht hto hin hj => ?_⟩
  · rcases List.mem_append.mp hr with hr | hr
    · exact h.own r hr
    · obtain ⟨i, hi, rfl⟩ := List.mem_iff_getElem.mp (List.mem_of_mem_take hr)
      exact ⟨_, hbatch.wrote hi⟩
  · by_cases hold : (t : Int) < w.next
    · refine (h.covered t ht hto hold).imp_right fun ⟨r, hr, hwrote⟩ => ?_
      exact ⟨r, List.mem_append_left _ hr, hwrote⟩
    · by_cases hring : t < oldest
      · exact Or.inl (hlost t hring)
      · obtain ⟨r, hr, hwrote⟩ := hbatch.covers (t := t) (j := j) (by omega) hin hj
        exact Or.inr ⟨r, List.mem_append_right _ hr, hwrote⟩

theorem CaughtUp.step (hL : L.Knows E ws) (hws : Chained E ws)
    (h : CaughtUp ws head lost failed first w) {e : ReadAnswer}
    (he : w.asks head = true → FromChain ws head lost failed w.next e) :
    CaughtUp ws head lost failed first (w.step L head now e.2) := by
  by_cases hasks : w.asks head = true
  case neg =>
    rw [Loop.step, if_neg hasks]
    exact h
  have hboth := hasks
  simp only [Loop.asks, Bool.and_eq_true, decide_eq_true_eq] at hboth
  obtain ⟨hgoing, hnext⟩ := hboth
  -- the read fails, is empty, or gives a batch of the chain
  rcases he hasks with ⟨hfail | hfail, hf⟩ | ⟨seq, oldest, rs, hrs, hne, hseq, hlost, hbatch⟩
  · rw [hfail, Loop.step, if_pos hasks]
    exact h.fails hf
  · rw [hfail, Loop.step, if_pos hasks]
    exact h.fails hf
  obtain ⟨hfirst, hle⟩ := h.start
  obtain ⟨last, hl⟩ : ∃ last, rs.getLast? = some last :=
    ⟨rs.getLast hne, List.getLast?_eq_some_getLast hne⟩
  obtain ⟨hpos, hlastSeq, hlastWrote⟩ := seqOf_last hL hbatch hl
  generalize ha : max w.next.toNat oldest = a at hbatch hpos hlastSeq hlastWrote
  generalize hn : min seq (w.next.toNat + readBatch - 1) + 1 - a = n
    at hbatch hpos hlastSeq hlastWrote
  obtain ⟨hlinks, hflag⟩ := takeRecords_batch head now (m := w.mirror) hL hws hbatch fun r hr => by
    obtain ⟨p, hp, hwrote⟩ := h.last hgoing r hr
    exact ⟨p, by omega, hwrote⟩
  obtain ⟨hown, hcovers⟩ := h.added hbatch ha.symm hlost hlinks
  rw [hrs, step_batch hasks hl hflag hlastSeq]
  generalize (takeRecords L head now w.mirror rs).1 = m at hlinks hown hcovers
  generalize hj : (head.seq + 1 - a).toNat = j at hlinks hcovers
  by_cases hall : n ≤ j
  · -- all of it is taken, and the loop goes on behind it
    have hlast' : m.links.getLast? = some last := by
      rw [hlinks, List.take_of_length_le (by rw [hbatch.length]; exact hall),
        List.getLast?_append, hl]
      rfl
    rw [if_pos (decide_eq_true hall)]
    refine ⟨hown, ⟨hfirst, ?_⟩, fun _ r hr => ?_, fun s hs hto hin => ?_, fun hg => ?_, fun _ => ?_⟩
    · dsimp only
      omega
    · obtain rfl : last = r := Option.some.inj (hlast'.symm.trans hr)
      exact ⟨a + n - 1, by dsimp only; omega, hlastWrote⟩
    · dsimp only at hin
      exact hcovers s hs hto (by omega) (by omega)
    · exact absurd (hgoing.symm.trans hg) (by decide)
    · dsimp only
      rcases h.pace hgoing with hpast | hpace
      · omega
      · rw [List.length_append, List.length_singleton]
        simp only [readBatch] at hn hpace ⊢
        omega
  · -- the rest is past the head
    rw [if_neg (by simpa using hall)]
    exact ⟨hown, ⟨hfirst, hle⟩, fun hg => (by cases hg),
      fun s hs hto hin => hcovers s hs hto (by omega) (by omega),
      fun _ => Or.inr fun s hs hto => hcovers s hs hto (by omega) (by omega),
      fun hg => (by cases hg)⟩

end

/-! ### The copy and the key -/

/-- Between `k` and `k'` a read for `next` failed, or gave what HEAD and PICKUP answered. -/
def Answered (W : EdgeWire) (E : Env) (k k' : Key) (next : Int) (e : ReadAnswer) : Prop :=
  e.2 = none ∨ ∃ rs pickup, e.2 = some rs ∧
    (∃ out m, Asked E k W.headRequest out m ∧ Later E m k' ∧ W.headOf out = some e.1) ∧
    (∀ s n got, pickup s n = some got → ∃ out m, Asked E k (W.pickupRequest s n) out m ∧
      Later E m k' ∧ W.linksOf out = some got) ∧
    softRead e.1 pickup next.toNat readBatch = some (rs.map EdgeLinkRecord.toRawLink)

/-- The first half of a sync between `k` and `k'`: its HEAD, where it begins to read, and what its
reads gave. -/
structure SyncRun (L : EdgeLib) (W : EdgeWire) (E : Env) (k k' : Key) (now : Nat) (m : Mirror)
    (h : KeyHead) (w : Loop) (es : List ReadAnswer) : Prop where
  start : syncReads L (softHead h) now m [] = some w
  reads : ∃ out k₀, Asked E k W.headRequest out k₀ ∧ W.headOf out = some h ∧ Later E k₀ k' ∧
    AllAlong (fun w e => w.step L (softHead h) now e.2)
      (fun w e => w.asks (softHead h) = true → Answered W E k₀ k' w.next e) w es

/-- The copies a phone can have of a key: it syncs, the key goes on, and what else is written to the
copy leaves its links. -/
inductive Copied (L : EdgeLib) (W : EdgeWire) (E : Env) : Key → Mirror → Prop
  | empty {k : Key} (id : Blob) : Reachable E k → Copied L W E k (emptyMirror id)
  | later {k k' : Key} {m : Mirror} : Copied L W E k m → Later E k k' → Copied L W E k' m
  | sync {k k' : Key} {m : Mirror} {now : Nat} {h : KeyHead} {w : Loop} {es : List ReadAnswer} :
      Copied L W E k m → SyncRun L W E k k' now m h w es →
      Copied L W E k' (w.run L (softHead h) now (es.map Prod.snd)).mirror
  | rest {k : Key} {m m' : Mirror} : Copied L W E k m →
      m'.links.map EdgeLinkRecord.toRawLink = m.links.map EdgeLinkRecord.toRawLink →
      m'.setAside = m.setAside → Copied L W E k m'

/-- A copy of links of the chain. -/
structure OfChain (L : EdgeLib) (ws : List Welded) (m : Mirror) : Prop where
  own : ∀ r ∈ m.links, ∃ s, KeyWrote ws s r.toRawLink
  chain : Chain L m.links
  setAside : m.setAside = []

/-- A copy of the older chain is one of the longer. -/
theorem OfChain.of_suffix {older : List Welded} (h : OfChain L older m) (hs : older <:+ ws) :
    OfChain L ws m := by
  refine ⟨fun r hr => ?_, h.chain, h.setAside⟩
  obtain ⟨s, hwrote⟩ := h.own r hr
  exact ⟨s, hwrote.of_suffix hs⟩

/-- The order and the welds are those of the stored bytes. -/
theorem OfChain.of_raw (h : OfChain L ws m)
    (hlinks : m'.links.map EdgeLinkRecord.toRawLink = m.links.map EdgeLinkRecord.toRawLink)
    (haside : m'.setAside = m.setAside) : OfChain L ws m' := by
  refine ⟨fun r hr => ?_, ?_, haside.trans h.setAside⟩
  · have hmem : r.toRawLink ∈ m.links.map EdgeLinkRecord.toRawLink :=
      hlinks ▸ List.mem_map_of_mem hr
    obtain ⟨r', hr', heq⟩ := List.mem_map.mp hmem
    exact heq ▸ h.own r' hr'
  · have hraw (links : List EdgeLinkRecord) : Chain L links ↔
        (links.map EdgeLinkRecord.toRawLink).IsChain fun a b => Next L ⟨a, 0⟩ ⟨b, 0⟩ := by
      rw [List.isChain_map]
      exact Iff.rfl
    exact (hraw _).mpr (hlinks ▸ (hraw _).mp h.chain)

/-- Nothing of such a copy is past the key's head, so nothing is set aside. -/
theorem syncReads_caughtUp (hL : L.Knows E ws) (h : Chain L m.links) (now : Nat)
    (hown : ∀ r ∈ m.links, ∃ s : Nat, (s : Int) ≤ head.seq ∧ KeyWrote ws s r.toRawLink) :
    ∃ next, syncReads L head now m [] = some (Loop.start m next) ∧
      ∀ lost failed, CaughtUp ws head lost failed next (Loop.start m next) := by
  obtain ⟨kept, popped, hlinks, hstrays, hpopped, -⟩ :=
    setAsideStrays_of_chain now head.seq h
  -- none of the copy's links is past the head, so none is set aside
  have hnone : popped = [] := by
    refine List.eq_nil_iff_forall_not_mem.mpr fun r hr => ?_
    obtain ⟨s, hle, hwrote⟩ := hown r (hlinks ▸ List.mem_append_right _ hr)
    have hpast := (hpopped r hr s (seqOf_wrote hL hwrote)).1
    omega
  subst hnone
  rw [List.append_nil] at hlinks
  have hsame : setAsideStrays L m head.seq now = some m := by
    rw [hstrays, ← hlinks]
    simp
  have hcaught (next : Int) (hpos : 0 ≤ next)
      (hlast : ∀ r ∈ m.links.getLast?, ∃ p : Nat, (p : Int) < next ∧ KeyWrote ws p r.toRawLink)
      (lost : Nat → Prop) (failed : Prop) :
      CaughtUp ws head lost failed next (Loop.start m next) :=
    ⟨fun r hr => (hown r hr).imp fun _ hr => hr.2, ⟨hpos, le_rfl⟩, fun _ => hlast,
      fun s hs _ hin => absurd hin (Int.not_lt.mpr hs), fun hg => (by cases hg),
      fun _ => Or.inr (by simp [Loop.start])⟩
  -- the reading begins after the copy's last record
  cases hl : m.links.getLast? with
  | none =>
    refine ⟨max (-1 + 1) head.ringFrom, by simp [syncReads, Loop.run, hsame, readFrom, hl], ?_⟩
    exact hcaught _ (by omega) (by simp [hl])
  | some last =>
    obtain ⟨s, -, hwrote⟩ := hown last (List.mem_of_getLast? hl)
    refine ⟨max ((s : Int) + 1) head.ringFrom,
      by simp [syncReads, Loop.run, hsame, readFrom, hl, seqOf_wrote hL hwrote], ?_⟩
    refine hcaught _ (by omega) fun r hr => ?_
    obtain rfl : last = r := Option.some.inj (hl.symm.trans hr)
    exact ⟨s, by omega, hwrote⟩

/-- The head of a sync is at the end of the chain, and of any chain the key had before. -/
theorem head_is_newest (hW : W.Lawful) {out : List Edge.Reply} {h : KeyHead}
    (hasked : Asked E k W.headRequest out k') (hh : W.headOf out = some h)
    (hclean : CleanBoots k'.log) (hshort : Short k'.log) :
    (∀ w ∈ chainOf k'.log, (w.link.seq.toNat : Int) ≤ (softHead h).seq) ∧
      ∀ seq, h.seq = some seq → seq + 1 < 2 ^ 32 := by
  have htrace := hasked.later (.inl hW.headRequest) hclean hshort
  have hlinked := htrace.reachable.trace.linked hclean hshort
  have hws : Chained E (chainOf k'.log) := Edge.chained_of_linked hlinked hshort
  obtain ⟨hempty, hnewest⟩ := headOf_wrote hW hasked hclean hshort hh
  -- the head that was reported is the newest link's
  cases hc : chainOf k'.log with
  | nil =>
    refine ⟨fun w hw => (by cases hw), fun seq hseq => ?_⟩
    rw [hempty hc] at hseq
    cases hseq
  | cons x xs =>
    obtain ⟨hseq, -⟩ := hnewest x (by rw [hc]; rfl)
    rw [hc] at hws
    refine ⟨fun w hw => ?_, fun seq hseq' => ?_⟩
    · have hle := hws.le_newest (x := x) rfl hw
      simp only [softHead, hseq]
      exact_mod_cast hle
    · rw [hseq] at hseq'
      obtain rfl := Option.some.inj hseq'
      have hmem : .link x ∈ k'.log := Edge.mem_of_chainOf (by rw [hc]; exact List.mem_cons_self)
      have hshortx : x.link.seq ≠ Edge.seqNone := by simpa [Edge.Entry.short] using hshort _ hmem
      have hlt : x.link.seq.toNat ≠ 4294967295 := fun heq => hshortx (UInt32.toNat_inj.mp heq)
      have hbound := x.link.seq.toNat_lt
      omega

/-- What a read gives is the chain's. -/
theorem Answered.fromChain (hW : W.Lawful) {next : Int} {e : ReadAnswer} {lost : Nat → Prop}
    {failed : Prop} (h : Answered W E k k' next e) (hclean : CleanBoots k'.log)
    (hshort : Short k'.log) (hhead : head.seq = -1 ∨
      ∃ w ∈ chainOf k.log, head.seq = (w.link.seq.toNat : Int))
    (hfails : e.fails → failed) (hlost : ∀ o, e.1.oldest = some o → ∀ s < o, lost s) :
    FromChain (chainOf k'.log) head lost failed next e := by
  rcases h with hnone | ⟨rs, pickup, hrs, ⟨out, m, hasked, hlater, hh⟩, hpickup, hread⟩
  · exact Or.inl ⟨Or.inl hnone, hfails (Or.inl hnone)⟩
  by_cases hempty : rs = []
  · rw [hempty] at hrs
    exact Or.inl ⟨Or.inr hrs, hfails (Or.inr hrs)⟩
  have hcleanm := hclean.of_suffix hlater.log
  have hshortm := hshort.of_suffix hlater.log
  obtain ⟨hnewest, hsmall⟩ := head_is_newest hW hasked hh hcleanm hshortm
  have hpicks : Picks (chainOf k'.log) pickup := fun s n got hn hn' hsum hgot => by
    obtain ⟨out', m', hasked', hlater', hlinks⟩ := hpickup s n got hgot
    exact (linksOf_wrote hW hn hn' hsum hasked' (hclean.of_suffix hlater'.log)
      (hshort.of_suffix hlater'.log) hlinks).imp fun _ _ hr => hr.of_suffix hlater'.chain
  rcases hseq : e.1.seq with - | seq
  · simp [softRead, hseq] at hread
    exact absurd hread hempty
  -- without both bounds of the ring nothing is read
  rcases hold : e.1.oldest with - | oldest
  · simp [softRead, hseq, hold] at hread
    exact absurd hread hempty
  refine Or.inr ⟨seq, oldest, rs, hrs, hempty, ?_, hlost oldest hold,
    softRead_wrote hpicks hseq hold (hsmall seq hseq) hread⟩
  rcases hhead with hnone | ⟨w, hw, heq⟩
  · omega
  · have hle := hnewest w ((hasked.later (.inl hW.headRequest) hcleanm hshortm).chain.subset hw)
    simp only [softHead, hseq] at hle
    omega

/-- The key is later at the end of a sync. -/
theorem SyncRun.later (hW : W.Lawful) {h : KeyHead} {w : Loop} {es : List ReadAnswer}
    (hrun : SyncRun L W E k k' now m h w es) (hclean : CleanBoots k'.log)
    (hshort : Short k'.log) : Later E k k' := by
  obtain ⟨out, k₀, hasked, -, hlater, -⟩ := hrun.reads
  exact (hasked.later (.inl hW.headRequest) (hclean.of_suffix hlater.log)
    (hshort.of_suffix hlater.log)).trans hlater

/-- Where a sync of such a copy stands after its reads. -/
theorem SyncRun.caughtUp (hW : W.Lawful) {h : KeyHead} {w : Loop} {es : List ReadAnswer}
    (hrun : SyncRun L W E k k' now m h w es) (hm : OfChain L (chainOf k.log) m)
    (hclean : CleanBoots k'.log) (hshort : Short k'.log) (hL : L.Knows E (chainOf k'.log)) :
    (∃ next, w = Loop.start m next) ∧ CaughtUp (chainOf k'.log) (softHead h)
      (fun s => ∃ e ∈ es, ∃ o, e.1.oldest = some o ∧ s < o) (∃ e ∈ es, e.fails) w.next
      (w.run L (softHead h) now (es.map Prod.snd)) := by
  obtain ⟨out, k₀, hasked, hh, hlater, hreads⟩ := hrun.reads
  have hclean₀ := hclean.of_suffix hlater.log
  have hshort₀ := hshort.of_suffix hlater.log
  have hlater₀ : Later E k k₀ := hasked.later (.inl hW.headRequest) hclean₀ hshort₀
  obtain ⟨hnewest, -⟩ := head_is_newest hW hasked hh hclean₀ hshort₀
  have hws : Chained E (chainOf k'.log) :=
    Edge.chained_of_linked (hlater.reachable.trace.linked hclean hshort) hshort
  -- an empty chain has the head -1
  have hhead : (softHead h).seq = -1 ∨
      ∃ w ∈ chainOf k₀.log, (softHead h).seq = (w.link.seq.toNat : Int) := by
    obtain ⟨hempty, htip⟩ := headOf_wrote hW hasked hclean₀ hshort₀ hh
    cases hc : chainOf k₀.log with
    | nil => exact Or.inl (by simp [softHead, hempty hc])
    | cons x xs =>
      obtain ⟨hseq, -⟩ := htip x (by rw [hc]; rfl)
      exact Or.inr ⟨x, List.mem_cons_self, by simp [softHead, hseq]⟩
  obtain ⟨next, hstart, hcaught⟩ := syncReads_caughtUp hL hm.chain now fun r hr => by
    obtain ⟨s, x, hx, hxs, hr⟩ := hm.own r hr
    have hx₀ := hlater₀.chain.subset hx
    exact ⟨s, hxs ▸ hnewest x hx₀, x, hlater.chain.subset hx₀, hxs, hr⟩
  obtain rfl : Loop.start m next = w := Option.some.inj (hstart.symm.trans hrun.start)
  refine ⟨⟨next, rfl⟩, ?_⟩
  show CaughtUp _ _ _ _ _ ((es.map Prod.snd).foldl (Loop.step L (softHead h) now) _)
  rw [List.foldl_map]
  exact (hreads.imp fun w e he hanswered hasks => (hanswered hasks).fromChain hW hclean hshort hhead
    (fun hfails => ⟨e, he, hfails⟩) fun o ho s hs => ⟨e, he, o, ho, hs⟩).keeps (hcaught _ _)
      fun w e hw he => hw.step hL hws he

/-- A copy made by syncs is of the key's chain. -/
theorem Copied.ofChain (hW : W.Lawful) (h : Copied L W E k m) (hclean : CleanBoots k.log)
    (hshort : Short k.log) (hL : L.Knows E (chainOf k.log)) : OfChain L (chainOf k.log) m := by
  induction h with
  | empty id _ => exact ⟨fun r hr => (by cases hr), List.isChain_nil, rfl⟩
  | later _ hlater ih =>
    exact (ih (hclean.of_suffix hlater.log) (hshort.of_suffix hlater.log)
      (hL.of_suffix hlater.chain)).of_suffix hlater.chain
  | @sync k k' m now h w es _ hrun ih =>
    have hlater := hrun.later hW hclean hshort
    have hm := ih (hclean.of_suffix hlater.log) (hshort.of_suffix hlater.log)
      (hL.of_suffix hlater.chain)
    obtain ⟨⟨next, rfl⟩, hcaught⟩ := hrun.caughtUp hW hm hclean hshort hL
    have hgrown := Loop.run_start_grown L (softHead h) m now next (es.map Prod.snd)
    exact ⟨hcaught.own, hgrown.chain hm.chain, hgrown.setAside.trans hm.setAside⟩
  | rest _ hlinks haside ih => exact (ih hclean hshort hL).of_raw hlinks haside

namespace Demo

open OkRn.Edge.Demo (env clock draw request usedOnce reachable_usedOnce clock_from)

/-- The bytes of a link. -/
def linkOf (b : Blob) : Edge.Link := Edge.Link.decode (Bytes.pack 64 b)

/-- A library that reads the key's format. -/
def keyLib : EdgeLib :=
  { lib with
    decodeLink := fun b => if b.length = 64 then
        some ⟨(linkOf b).seq.toNat, (linkOf b).op, true, (linkOf b).grantId.toNat, none⟩
      else none
    weld := fun prev b => (weldHead env (Bytes.pack 32 prev) (linkOf b)).toList }

/-- A small library knows every chain. -/
theorem keyLib_knows (ws : List Welded) : keyLib.Knows env ws := by
  have hlink (l : Edge.Link) : linkOf l.encode.toList = l := by
    rw [linkOf, Bytes.pack_toList, Edge.Link.decode_encode]
  refine ⟨fun w _ => ?_, fun v _ w _ => ?_⟩
  · refine ⟨⟨w.link.seq.toNat, w.link.op, true, w.link.grantId.toNat, none⟩, ?_, rfl, rfl⟩
    show (if _ then _ else _) = _
    rw [if_pos (Bytes.length_toList _), hlink]
  · show (weldHead env (Bytes.pack 32 v.head.toList) (linkOf w.link.encode.toList)).toList = _
    rw [Bytes.pack_toList, hlink]

/-- Two reports for each link. -/
def pairs : List Edge.Reply → Option (List RawLink)
  | [] => some []
  | .report a :: .report b :: rest => (pairs rest).map fun rs =>
      ⟨a.toList, b.toList.take 32, some (b.toList.drop 32)⟩ :: rs
  | _ => none

/-- The requests and answers of the library, as they are laid out. -/
def wire : EdgeWire where
  headRequest := request 0x01 []
  pickupRequest := fun s n =>
    request 0x02 ((Bytes.le32 (UInt32.ofNat s)).toList ++ [UInt8.ofNat n])
  headOf := fun out => match out with
    | [.report r] => some ⟨number (Edge.get32 r 0), (Bytes.slice r.toList 4 32).toList,
        number (Edge.get32 r 36)⟩
    | _ => none
  linksOf := fun out => if out = [] then none else pairs out

theorem pairs_reports (hs : List Edge.HeldLink) : ∃ rs,
    pairs (hs.flatMap Edge.HeldLink.reports) = some rs ∧
      List.Forall₂ (fun h r => RawLink.Is h.link h.head r) hs rs := by
  induction hs with
  | nil => exact ⟨[], rfl, .nil⟩
  | cons h hs ih =>
    obtain ⟨rs, hrs, hall⟩ := ih
    have hpacked : (Bytes.pack 64 (h.head.toList ++ h.reveal.toList)).toList =
        h.head.toList ++ h.reveal.toList :=
      congrArg Bytes.toList (Bytes.pack_toList (n := 64) ⟨_, by simp⟩)
    refine ⟨⟨h.link.encode.toList, h.head.toList, some h.reveal.toList⟩ :: rs, ?_,
      .cons ⟨rfl, rfl⟩ hall⟩
    rw [List.flatMap_cons, Edge.HeldLink.reports, List.cons_append, List.singleton_append, pairs,
      hrs, hpacked, Bytes.pack_toList]
    simp

theorem wire_lawful : wire.Lawful where
  headRequest := by decide
  pickupRequest := fun s n hn hn' hsum => by
    have hat (off : Nat) (h : off < 64) : Edge.byteAt (wire.pickupRequest s n) off =
        Bytes.at? ([0, 0, 0, 0, 0, 0x02] ++
          ((Bytes.le32 (UInt32.ofNat s)).toList ++ [UInt8.ofNat n])) off := Bytes.at_pack h
    have hslice : Bytes.slice (wire.pickupRequest s n).toList 6 4 = Bytes.slice
        ([0, 0, 0, 0, 0, 0x02] ++ ((Bytes.le32 (UInt32.ofNat s)).toList ++ [UInt8.ofNat n])) 6 4 :=
      Bytes.slice_pack (by decide)
    refine ⟨?_, ?_, ?_⟩
    · rw [hat 5 (by decide)]
      rfl
    · rw [Edge.get32, hslice]
      simp
      omega
    · rw [hat 10 (by decide)]
      simp
      omega
  headOf := fun seq oldest head rest => by
    -- each field of a report stands where the decoding looks for it
    have hslice (off n : Nat) (h : off + n ≤ 64) (l : List UInt8) :
        Bytes.slice (Bytes.pack 64 l).toList off n = Bytes.slice l off n := Bytes.slice_pack h
    show some _ = _
    rw [Edge.get32, Edge.get32, hslice 0 4 (by decide), hslice 4 32 (by decide),
      hslice 36 4 (by decide)]
    simp
  linksOf := fun hs hne => by
    have hout : hs.flatMap Edge.HeldLink.reports ≠ [] := by
      cases hs with
      | nil => exact absurd rfl hne
      | cons h hs => simp [Edge.HeldLink.reports]
    obtain ⟨rs, hrs, hall⟩ := pairs_reports hs
    exact ⟨rs, (if_neg hout).trans hrs, hall⟩
  refused := fun out hrefused => by
    rcases hrefused with rfl | ⟨code, rfl⟩ <;> exact ⟨rfl, rfl⟩

/-- A key is asked at once. -/
def askedNow (buf : Edge.Report) (k : Key) : Key := Edge.step env (.recv buf (clock 20) draw) k

/-- A request that is answered at once. -/
theorem asked_now (buf : Edge.Report) (h : Reachable env k) (hn : k.now ≤ 20) :
    Asked env k buf (askedNow buf k).out (askedNow buf k) :=
  ⟨k, clock 20, draw, .refl h, clock_from hn, rfl, rfl⟩

/-- A key that was asked for its head. -/
def headed : Key := askedNow wire.headRequest usedOnce

/-- And once more. -/
def headedAgain : Key := askedNow wire.headRequest headed

/-- And then for its links. -/
def pickedUp : Key := askedNow (wire.pickupRequest 0 2) headedAgain

/-- The head that it gave. -/
def usedHead : KeyHead := ⟨some 1, headed.st.head.toList, some 0⟩

/-- And the links. -/
def usedLinks : List RawLink := (wire.linksOf pickedUp.out).getD []

/-- As objects. -/
def usedRecords : List EdgeLinkRecord := usedLinks.map fun r => ⟨r, 0⟩

/-- A phone with no copy reads both links at once. -/
theorem usedRun : SyncRun keyLib wire env usedOnce pickedUp 5 (emptyMirror [1]) usedHead
    (Loop.start (emptyMirror [1]) 0) [(usedHead, some usedRecords)] := by
  -- the requests of one sync in their order: the head, the head again, the links
  have hheaded := asked_now wire.headRequest reachable_usedOnce (by decide +kernel)
  have hlater : Later env usedOnce headed :=
    hheaded.later (.inl wire_lawful.headRequest) (by decide +kernel) (by decide +kernel)
  have hagain := asked_now wire.headRequest hlater.reachable (by decide +kernel)
  have hlater' : Later env headed headedAgain :=
    hagain.later (.inl wire_lawful.headRequest) (by decide +kernel) (by decide +kernel)
  have hpicked := asked_now (wire.pickupRequest 0 2) hlater'.reachable (by decide +kernel)
  have hlater'' : Later env headedAgain pickedUp :=
    hpicked.later (.inr (by decide)) (by decide +kernel) (by decide +kernel)
  refine ⟨rfl, _, headed, hheaded, by decide +kernel, hlater'.trans hlater'', fun _ => ?_, trivial⟩
  refine Or.inr ⟨usedRecords, fun s n => if s = 0 ∧ n = 2 then some usedLinks else none, rfl,
    ⟨_, headedAgain, hagain, hlater'', by decide +kernel⟩, fun s n got hgot => ?_, ?_⟩
  · dsimp only at hgot
    split at hgot
    · rename_i hsn
      obtain ⟨rfl, rfl⟩ := hsn
      refine ⟨pickedUp.out, pickedUp, ⟨headedAgain, clock 20, draw, hlater', ?_, rfl, rfl⟩,
        .refl hlater''.reachable, ?_⟩
      · exact clock_from (by decide +kernel)
      · rw [← hgot]
        decide +kernel
    · cases hgot
  · have hlinks : usedRecords.map EdgeLinkRecord.toRawLink = usedLinks := by
      rw [usedRecords, List.map_map]
      exact List.map_id usedLinks
    rw [hlinks]
    simp [softRead, usedHead, Loop.start, readBatch, pickups, pickupMax]

end Demo

/-- In every run of syncs, among anything the key does short of a wipe and a restore, the copy holds
links the key wrote, ascending and welded, and has set none aside. -/
theorem copy_is_the_keys_chain (hW : W.Lawful) (h : Copied L W E k m) (hclean : CleanBoots k.log)
    (hshort : Short k.log) (hL : L.Knows E (chainOf k.log)) :
    (∀ r ∈ m.links, ∃ s, KeyWrote (chainOf k.log) s r.toRawLink) ∧ Chain L m.links ∧
      m.setAside = [] :=
  ⟨(h.ofChain hW hclean hshort hL).own, (h.ofChain hW hclean hshort hL).chain,
    (h.ofChain hW hclean hshort hL).setAside⟩

theorem copy_is_the_keys_chain_of_used :
    (∀ r ∈ ((Loop.start (emptyMirror [1]) 0).run Demo.keyLib (softHead Demo.usedHead) 5
      [some Demo.usedRecords]).mirror.links,
        ∃ s, KeyWrote (chainOf Demo.pickedUp.log) s r.toRawLink) ∧
      Chain Demo.keyLib ((Loop.start (emptyMirror [1]) 0).run Demo.keyLib (softHead Demo.usedHead) 5
        [some Demo.usedRecords]).mirror.links ∧
      ((Loop.start (emptyMirror [1]) 0).run Demo.keyLib (softHead Demo.usedHead) 5
        [some Demo.usedRecords]).mirror.setAside = [] :=
  copy_is_the_keys_chain Demo.wire_lawful
    (.sync (.empty [1] Edge.Demo.reachable_usedOnce) Demo.usedRun) (by decide +kernel)
    (by decide +kernel) (Demo.keyLib_knows _)

/-- Reads that do not fail, as many as there are sixteens of links to read, end the reading; each
link up to the head is then in the copy, or was older than what the key held at one of the reads. -/
theorem sync_catches_up (hW : W.Lawful) (hm : Copied L W E k m) {h : KeyHead} {w : Loop}
    {es : List ReadAnswer} (hrun : SyncRun L W E k k' now m h w es) (hclean : CleanBoots k'.log)
    (hshort : Short k'.log) (hL : L.Knows E (chainOf k'.log)) (hgot : ∀ e ∈ es, ¬ e.fails)
    (hmany : (softHead h).seq + 1 - w.next ≤ readBatch * es.length) :
    (w.run L (softHead h) now (es.map Prod.snd)).asks (softHead h) = false ∧
      ∀ s : Nat, w.next ≤ s → (s : Int) ≤ (softHead h).seq →
        (∃ e ∈ es, ∃ o, e.1.oldest = some o ∧ s < o) ∨
          ∃ r ∈ (w.run L (softHead h) now (es.map Prod.snd)).mirror.links,
            KeyWrote (chainOf k'.log) s r.toRawLink := by
  have hlater := hrun.later hW hclean hshort
  have hchain := hm.ofChain hW (hclean.of_suffix hlater.log) (hshort.of_suffix hlater.log)
    (hL.of_suffix hlater.chain)
  obtain ⟨⟨next, rfl⟩, hcaught⟩ := hrun.caughtUp hW hchain hclean hshort hL
  have hfailed : ¬ ∃ e ∈ es, e.fails := fun ⟨e, he, hfails⟩ => hgot e he hfails
  have hends : ((Loop.start m next).run L (softHead h) now (es.map Prod.snd)).asks (softHead h) =
      false := by
    by_contra hnot
    have hasks := Bool.eq_true_of_not_eq_false hnot
    -- each read so far was answered, and none was the last
    have hasked := Loop.asked_run _ hasks
    simp only [Loop.asks, Bool.and_eq_true, decide_eq_true_eq] at hasks
    rcases hcaught.pace hasks.1 with hpast | hpace
    · omega
    · have hnone : (Loop.start m next).asked.length = 0 := rfl
      rw [hasked, hnone, Nat.zero_add, List.length_map] at hpace
      omega
  refine ⟨hends, fun s hs hto => ?_⟩
  cases hg : ((Loop.start m next).run L (softHead h) now (es.map Prod.snd)).going with
  | false => exact (hcaught.stopped hg).resolve_left hfailed s hs hto
  | true =>
    have hpast : (softHead h).seq < ((Loop.start m next).run L (softHead h) now
        (es.map Prod.snd)).next := by simpa [Loop.asks, hg] using hends
    exact hcaught.covered s hs hto (by omega)

theorem sync_catches_up_with_used :
    ((Loop.start (emptyMirror [1]) 0).run Demo.keyLib (softHead Demo.usedHead) 5
      [some Demo.usedRecords]).asks (softHead Demo.usedHead) = false ∧
      ∀ s : Nat, s ≤ 1 → ∃ r ∈ ((Loop.start (emptyMirror [1]) 0).run Demo.keyLib
        (softHead Demo.usedHead) 5 [some Demo.usedRecords]).mirror.links,
          KeyWrote (chainOf Demo.pickedUp.log) s r.toRawLink := by
  have hgot : ∀ e ∈ [(Demo.usedHead, some Demo.usedRecords)], ¬ ReadAnswer.fails e := by
    decide +kernel
  obtain ⟨hends, hall⟩ := sync_catches_up Demo.wire_lawful
    (.empty [1] Edge.Demo.reachable_usedOnce) Demo.usedRun (by decide +kernel) (by decide +kernel)
    (Demo.keyLib_knows _) hgot (by decide)
  refine ⟨hends, fun s hs => ?_⟩
  -- nothing is older than link 0
  rcases hall s (by simp [Loop.start]) (by simp only [softHead, Demo.usedHead]; omega) with
    ⟨e, he, o, ho, hlt⟩ | hr
  · obtain rfl := List.mem_singleton.mp he
    obtain rfl : 0 = o := Option.some.inj ho
    omega
  · exact hr

end OkRn.Store
