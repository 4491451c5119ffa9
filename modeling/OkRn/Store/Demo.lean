/-
OkRn/Store/Demo.lean

Sessions that run: a small library, a key with a short chain, and calls that run
alone one after another.

The hash is one byte long and a signature is the bytes it signs, which is enough
to run every path of the store.
-/
import OkRn.Store.Sync

namespace OkRn.Store

variable {L : EdgeLib}

/-- A call that runs alone to its end in a session. -/
theorem InSession.solo {w : Pool Answer Session} {t : OkRn.Task Answer Session Unit}
    (h : InSession L w) (ht : StoreCall L t) (as : List Answer) :
    ∃ v, InSession L v ∧ v.shared = t.solo as w.shared := by
  obtain ⟨storage, hruns⟩ := h
  obtain ⟨v, hruns', hv⟩ := Pool.runs_solo as ht hruns
  exact ⟨v, ⟨storage, hruns'⟩, hv⟩

/-- A session that has just begun. -/
theorem inSession_start (storage : Blob → Option StoredText) :
    InSession L ⟨Session.start storage, []⟩ := ⟨storage, .refl⟩

namespace Demo

/-! ### The library -/

/-- A link is its seq, its operation, its grant and its intent. -/
def decode : Blob → Option LinkFields
  | seq :: op :: grant :: intent =>
      some ⟨seq.toNat, op, true, grant.toNat, if intent.isEmpty then none else some intent⟩
  | _ => none

/-- The hash of one byte. -/
def weld (prev link : Blob) : Blob := [(prev ++ link).foldl (fun h b => h * 31 + b + 1) 0]

/-- The seqs of some links. -/
def seqs (links : List EdgeLinkRecord) : List Nat :=
  links.filterMap fun r => (decode r.link).map LinkFields.seq

/-- The seq of a link. -/
def seqNo (r : EdgeLinkRecord) : Nat := ((decode r.link).map LinkFields.seq).getD 0

/-- The P-256 half over a head. -/
def signature (head : Blob) : Blob := 1 :: head

/-- The ML-DSA half over a head. -/
def signaturePq (head : Blob) : Blob := 2 :: head

/-- The seqs from the first link to the head that the copy lacks. -/
def holes (links : List EdgeLinkRecord) (head : Seen) : List Range :=
  ((List.range (head.seq.toNat + 1)).filter fun n =>
    decide ((seqs links).headD 0 ≤ n) && !(seqs links).contains n).map fun n => ⟨n, n⟩

/-- A copy is judged by the seqs that are missing. -/
def assess (a : Assessed) : Assessment :=
  if (seqs a.links).any fun n => decide (a.head.seq < (n : Int)) then
    ⟨false, some ⟨a.head.seq, "rollback"⟩, [], -1, [], []⟩
  else
    ⟨true, none, holes a.links a.head, a.head.seq, holes a.links a.head, []⟩

/-- Links in the order of their seqs. -/
def insertLink (r : EdgeLinkRecord) : List EdgeLinkRecord → List EdgeLinkRecord
  | [] => [r]
  | r' :: rs => if seqNo r < seqNo r' then r :: r' :: rs else r' :: insertLink r rs

/-- Links are merged by seq; there is never a fork. -/
def merge (links offered : List EdgeLinkRecord) : Merge :=
  let added := offered.filter fun r => !(seqs links).contains (seqNo r)
  ⟨added.foldl (fun rs r => insertLink r rs) links, added, []⟩

/-- The small library. -/
def lib : EdgeLib where
  decodeLink := decode
  weld := weld
  deviceIdOf := some
  verifyCheckpoint := fun _ _ head sig _ sigPq _ =>
    sig == signature head && sigPq == some (signaturePq head)
  verifyCheckpointP256 := fun _ _ head sig _ => sig == signature head
  assess := assess
  merge := merge
  intentOf := fun text => [UInt8.ofNat text.length]
  messageMatches := fun _ _ text => text == "ok"
  checkContinue := fun _ _ _ => ⟨false, none, 0, none, some "no-match"⟩

/-- It fails a copy past the head. -/
theorem lib_failsPastHead : lib.FailsPastHead := by
  rintro a f ⟨r, hr, hf⟩ hpast
  have hmem : f.seq ∈ seqs a.links :=
    List.mem_filterMap.mpr ⟨r, hr, by rw [show decode r.link = some f from hf]; rfl⟩
  have hany : (seqs a.links).any (fun n => decide (a.head.seq < (n : Int))) = true :=
    List.any_eq_true.mpr ⟨f.seq, hmem, by simpa using hpast⟩
  have hassess : lib.assess a = ⟨false, some ⟨a.head.seq, "rollback"⟩, [], -1, [], []⟩ :=
    if_pos hany
  rw [hassess]
  exact ⟨rfl, by simp⟩

theorem mem_insertLink {r r' : EdgeLinkRecord} {links : List EdgeLinkRecord} :
    r' ∈ insertLink r links ↔ r' = r ∨ r' ∈ links := by
  induction links with
  | nil => simp [insertLink]
  | cons r'' rs ih =>
    unfold insertLink
    split
    · simp
    · rw [List.mem_cons, ih, List.mem_cons]
      tauto

/-- What it adds is in what it gives. -/
theorem lib_mergeAdds : lib.MergeAdds := by
  intro links offered r hr
  have hfold : ∀ (added start : List EdgeLinkRecord),
      r ∈ added ∨ r ∈ start → r ∈ added.foldl (fun rs r => insertLink r rs) start := by
    intro added
    induction added with
    | nil => simp
    | cons r' added ih =>
      intro start h
      refine ih _ ?_
      rw [mem_insertLink]
      rcases h with h | h
      · rcases List.mem_cons.mp h with rfl | h
        · exact Or.inr (Or.inl rfl)
        · exact Or.inl h
      · exact Or.inr (Or.inr h)
  exact hfold _ _ (Or.inl hr)

/-! ### A key -/

/-- Link 0 opens budget 7; the others are signatures. -/
def rawLink (n : Nat) : RawLink :=
  let link : Nat → Blob := fun n =>
    [UInt8.ofNat n, if n = 0 then Edge.opGrantCreate else Edge.opSign, 7]
  ⟨link n, (List.range (n + 1)).foldl (fun head n => weld head (link n)) [], none⟩

/-- The head of a chain of `n + 1` links. -/
def headAt (n : Nat) : Head := ⟨n, (rawLink n).head, 0⟩

/-- The checkpoint there. -/
def checkpointAt (n : Nat) : Checkpoint :=
  ⟨n, (rawLink n).head, signature (rawLink n).head, some (signaturePq (rawLink n).head)⟩

/-- The key of device `id`, with this checkpoint. -/
def keyOf (id : Blob) (cp : Option Checkpoint) : EdgeCopyKey := ⟨some id, some id, [], cp⟩

/-- The soft key of device 1. -/
def source : Source := ⟨[1], true⟩

/-- A stored copy of device `id` with the first links of the key. -/
def stored (id : Blob) (n : Nat) : StoredText :=
  .json { (emptyMirror id : StoredMirror) with links := (List.range (n + 1)).map rawLink }

/-- The copy stored under device 1 is this one. -/
def storing (text : StoredText) : Blob → Option StoredText := fun id =>
  if id = [1] then some text else none

/-- The records of a copy loaded from storage. -/
def record (n ref : Nat) : EdgeLinkRecord := ⟨rawLink n, ref⟩

/-- What a copy of device `id` is when a sync at 5 checks it. -/
def checked (id : Blob) (links : List EdgeLinkRecord) : Mirror :=
  { (emptyMirror id : Mirror) with
    links := links, lastSync := some 5, publicKey := some [1], publicKeyPq := some [1] }

/-- A check under device 1's key. -/
def signedCheck (id : Blob) (n : Nat) (links : List EdgeLinkRecord) : Happening :=
  .signed ⟨id, [1], [1], some [1], checkpointAt n, headAt n, links⟩

/-- The answers of a sync that reads `links` and has its check read the ring. -/
def fullSync (loads : List Answer) (n : Nat) (links : List RawLink) (live : List Nat)
    (key : EdgeCopyKey) : List Answer :=
  loads ++ [.head (headAt n)] ++ (if links.isEmpty then [] else [.links links]) ++
    [.messages [], .budgets live, .key key, .ok, .ok, .links links, .ok, .ok]

/-- The answers of a sync whose check memory answers. -/
def shortSync (n : Nat) (live : List Nat) (key : EdgeCopyKey) : List Answer :=
  [.head (headAt n), .messages [], .budgets live, .key key, .ok, .ok, .ok, .ok]

/-- A sync that runs alone. -/
def synced (now : Nat) (answers : List Answer) (s : Session) : Session :=
  ((syncNow lib source now 3).bind fun _ => .ret ()).solo answers s

/-- A commit that runs alone. -/
def committed (offered : List EdgeLinkRecord) (answers : List Answer) (s : Session) : Session :=
  ((handleCommit lib source offered 6 0).bind fun _ => .ret ()).solo answers s

section

variable {w : Pool Answer Session}

theorem inSession_synced (h : InSession lib w) (now : Nat) (answers : List Answer) :
    ∃ v, InSession lib v ∧ v.shared = synced now answers w.shared := h.solo (.sync _ _ _) answers

theorem inSession_committed (h : InSession lib w) (offered : List EdgeLinkRecord)
    (answers : List Answer) :
    ∃ v, InSession lib v ∧ v.shared = committed offered answers w.shared :=
  h.solo (.commit _ _ _ _) answers

end

end Demo

end OkRn.Store
