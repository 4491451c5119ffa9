/-
OkRn/Store/Check.lean

Checking a copy against the key, and what a session remembers of it.

`evaluateWith` answers in one of four ways: from memory when nothing changed
(skipped), from the links after those verified before (new links), from the
newest seal (sealed), or in full.  What it remembers is in `verifiedNow`.

`history` is what the app does not keep: every check in which the key's
checkpoint verified with both halves, every verdict, seal and kept link, newest
first.  No function reads it.
-/
import OkRn.Store.Mirror
import OkRn.Edge.Format

namespace OkRn.Store

/-! ### Verdicts -/

/-- What a check says of a copy. -/
inductive Verdict
  | noEdge
  | locked
  | notSynced
  /-- `lost`: ranges the person accepted as gone; none is the empty list. -/
  | verified (through : Int) (lost : List Range)
  | unsigned (through : Int)
  | gap (through : Int) (hole : Range)
  | tampered (seq : Int) (reason : String)
  deriving DecidableEq

namespace Verdict

/-- The copy verified. -/
def isVerified : Verdict → Bool
  | verified .. => true
  | _ => false

/-- It verified around a gap. -/
def isGap : Verdict → Bool
  | gap .. => true
  | _ => false

/-- It checks, but nothing is signed. -/
def isUnsigned : Verdict → Bool
  | unsigned .. => true
  | _ => false

/-- The losses of a verified verdict. -/
def lost : Verdict → List Range
  | verified _ lost => lost
  | _ => []

end Verdict

/-- One row of the chain view: its seq, whether it is verified, and the note shown. -/
structure EdgeRow where
  seq : Nat
  weld : Blob
  verified : Bool
  seenAt : Option Nat
  note : Option Reason
  deriving DecidableEq

/-- The chain view. -/
structure EdgeView where
  verdict : Verdict
  headSeq : Option Int
  rows : List EdgeRow
  deriving DecidableEq

/-- How a check was answered. -/
inductive CheckPath
  | full | newLinks | sealed | skipped
  deriving DecidableEq

/-! ### The session -/

/-- What a session remembers of a check: the key's head, the copy's records, and the result. -/
structure Verified where
  seq : Int
  head : Blob
  count : Nat
  lastSeq : Int
  lastHead : Blob
  records : List EdgeLinkRecord
  verdict : Verdict
  unverified : List Nat
  deriving DecidableEq

/-- What a stored text that `saveMirror` did not write parses to. -/
inductive Parsed
  | bad
  /-- Another version. -/
  | old
  | copy (s : StoredMirror)
  deriving DecidableEq

/-- A stored text: what `saveMirror` writes for a copy, or any other text. -/
inductive StoredText
  | json (s : StoredMirror)
  | other (tag : Nat) (parsed : Parsed)
  deriving DecidableEq

/-- A check in which a checkpoint verified with both halves: the device of the checked copy, the
device and the keys it verified under, the head of the check, and the copy's records. -/
structure SignedCheck where
  copyId : Blob
  deviceId : Blob
  publicKey : Blob
  publicKeyPq : Option Blob
  checkpoint : Checkpoint
  head : Head
  records : List EdgeLinkRecord
  deriving DecidableEq

/-- What a check had to go on: could memory answer it, and did the key give its public key and a
checkpoint no newer than the head? -/
structure Basis where
  short : Bool
  anchored : Bool
  deriving DecidableEq

/-- What happened in a session. -/
inductive Happening
  | signed (c : SignedCheck)
  /-- A check answered. -/
  | answered (mirror : Mirror) (head : Head) (verdict : Verdict)
  /-- A sync added a seal to a copy. -/
  | sealed (mirror : Mirror) (head : Head) (key : EdgeCopyKey) (basis : Basis) (x : Seal)
  /-- Offered links were taken: the candidate, the verified seqs of its check, and the links. -/
  | kept (candidate : Mirror) (basis : Basis) (verified : List Nat) (added : List EdgeLinkRecord)
  deriving DecidableEq

/-- What a session holds: storage, the copies in memory, and what it has checked. -/
structure Session where
  storage : Blob → Option StoredText
  inMemory : Blob → Option Mirror
  storedText : Blob → Option StoredText
  verifiedNow : Blob → Option Verified
  lastCheck : Option CheckPath
  nextRef : Nat
  history : List Happening

namespace Session

/-- Something happened. -/
def log (e : Happening) (s : Session) : Session := { s with history := e :: s.history }

/-- `verifiedNow.set`. -/
def remember (id : Blob) (v : Verified) (s : Session) : Session :=
  { s with verifiedNow := Function.update s.verifiedNow id (some v) }

/-- `verifiedNow.delete`. -/
def forgetChecked (id : Blob) (s : Session) : Session :=
  { s with verifiedNow := Function.update s.verifiedNow id none }

/-- A check was answered this way. -/
def tookPath (p : CheckPath) (s : Session) : Session := { s with lastCheck := some p }

variable {id id' : Blob} (v : Verified) (s : Session)

/-- What was remembered is there. -/
@[simp] theorem remember_self : (s.remember id v).verifiedNow id = some v := by
  simp [remember]

/-- Of other devices nothing changes. -/
theorem remember_of_ne (h : id' ≠ id) : (s.remember id v).verifiedNow id' = s.verifiedNow id' := by
  simp [remember, h]

/-- What was forgotten is gone. -/
@[simp] theorem forgetChecked_self : (s.forgetChecked id).verifiedNow id = none := by
  simp [forgetChecked]

/-- Of other devices nothing changes. -/
theorem forgetChecked_of_ne (h : id' ≠ id) :
    (s.forgetChecked id).verifiedNow id' = s.verifiedNow id' := by
  simp [forgetChecked, h]

end Session

/-! ### What memory can answer -/

/-- `samePrefix`. -/
def samePrefix (links records : List EdgeLinkRecord) : Bool := records.isPrefixOf links

/-- `sameCopy`. -/
def sameCopy (links records : List EdgeLinkRecord) : Bool :=
  decide (links.length = records.length) && samePrefix links records

/-- The same head and the same copy. -/
def Verified.same (was : Verified) (mirror : Mirror) (head : Head) : Bool :=
  was.seq == head.seq && was.head == head.head && sameCopy mirror.links was.records

/-- A verified copy that grew, or whose key's head moved. -/
def Verified.grew (was : Verified) (mirror : Mirror) (head : Head) : Bool :=
  was.verdict.isVerified && decide (0 < was.count) && decide (was.count ≤ mirror.links.length)
    && (decide (was.count < mirror.links.length) || decide (was.seq < head.seq))
    && samePrefix mirror.links was.records

/-- `shortPath`: can this session's check be reused, or only the new links be checked? -/
def shortPath (s : Session) (mirror : Mirror) (head : Head) : Bool :=
  match s.verifiedNow mirror.deviceId with
  | none => false
  | some was => was.same mirror head || was.grew mirror head

/-! ### The checkpoint -/

/-- A key with no link yet signs its checkpoint at this seq. -/
def noLinkSeq : Nat := 0xFFFFFFFF

/-- The key's checkpoint, when it can anchor this head: not an empty chain's, not a newer one. -/
def usableCheckpoint (key : Option EdgeCopyKey) (head : Head) : Option Checkpoint :=
  (key.bind EdgeCopyKey.checkpoint).filter fun cp =>
    cp.seq != noLinkSeq && decide ((cp.seq : Int) ≤ head.seq)

/-- What a check has to go on. -/
def basisOf (s : Session) (mirror : Mirror) (head : Head) (key : Option EdgeCopyKey) : Basis where
  short := shortPath s mirror head
  anchored := (key.bind EdgeCopyKey.publicKey).isSome && (usableCheckpoint key head).isSome

/-! ### The check -/

/-- The seqs of some ranges. -/
def seqsOf (ranges : List Range) : List Nat :=
  ranges.flatMap fun g => (List.range (g.last + 1 - g.first)).map fun n => g.first + n

variable (L : EdgeLib)

/-- Every record with its fields; `none` when one does not decode. -/
def decodeAll : List EdgeLinkRecord → Option (List (EdgeLinkRecord × LinkFields))
  | [] => some []
  | r :: rs => (L.decodeLink r.link).bind fun f => (decodeAll rs).map fun rest => (r, f) :: rest

/-- `rowsOf`, newest first. -/
def rowsOf (decoded : List (EdgeLinkRecord × LinkFields)) (unverified : List Nat)
    (mirror : Mirror) : List EdgeRow :=
  (decoded.map fun (r, f) =>
    { seq := f.seq, weld := r.head, verified := !unverified.contains f.seq
      seenAt := mirror.seen.get f.seq, note := mirror.reasons.get f.seq }).reverse

/-- `copy.assess` as `evaluateWith` calls it. -/
def assessWith (mirror : Mirror) (head : Head) (held : List EdgeLinkRecord)
    (key : Option EdgeCopyKey) (start lastSeen sealed : Option Seen) : Assessment :=
  L.assess
    { links := mirror.links
      openings := (key.map EdgeCopyKey.openings).getD []
      publicKey := key.bind EdgeCopyKey.publicKey
      publicKeyPq := key.bind EdgeCopyKey.publicKeyPq
      deviceId := mirror.deviceId
      head := ⟨head.seq, head.head⟩
      held := held
      checkpoint := usableCheckpoint key head
      start := start
      ringFrom := head.ringFrom
      lastSeen := lastSeen
      sealed := sealed }

/-- The new links checked from the last verified one. -/
def assessNew (was : Verified) (mirror : Mirror) (head : Head) (held : List EdgeLinkRecord)
    (key : Option EdgeCopyKey) : Assessment :=
  assessWith L mirror head held key (some ⟨was.lastSeq, was.lastHead⟩) none none

/-- Nothing is wrong with the copy, and nothing is missing. -/
def Assessment.clean (a : Assessment) : Bool :=
  a.ok && a.gaps.isEmpty && a.opened.isEmpty && a.missing.isEmpty

/-- `sealedStart`: the newest seal at or below the copy's end, when its P-256 half verifies under
the public key the key gave and that key is this device's. -/
def sealedStart (mirror : Mirror) (head : Head) (key : Option EdgeCopyKey) : Option Seen := do
  let last ← mirror.links.getLast?
  let lastFields ← L.decodeLink last.link
  let publicKey ← key.bind EdgeCopyKey.publicKey
  let deviceId ← L.deviceIdOf publicKey
  if deviceId ≠ mirror.deviceId then none
  else
    let x ← mirror.seals.reverse.find? fun x =>
      decide (x.seq ≤ lastFields.seq) && decide ((x.seq : Int) ≤ head.seq)
    if L.verifyCheckpointP256 deviceId x.seq x.head x.signature publicKey then
      some ⟨x.seq, x.head⟩
    else none

/-- Does the key's checkpoint verify with both halves, under the device id of its public key? -/
def hybridCheck (key : EdgeCopyKey) (publicKey : Blob) (cp : Checkpoint) : Bool :=
  match L.deviceIdOf publicKey with
  | none => false
  | some deviceId =>
      L.verifyCheckpoint deviceId cp.seq cp.head cp.signature publicKey cp.signaturePq
        key.publicKeyPq

/-- What a check gives. -/
inductive Outcome
  /-- A link does not decode. -/
  | threw
  /-- Only the full check would do, and it was not asked for. -/
  | needsFull
  | view (v : EdgeView)
  deriving DecidableEq

/-- What this check remembers. -/
def remembered (mirror : Mirror) (decoded : List (EdgeLinkRecord × LinkFields)) (head : Head)
    (verdict : Verdict) (unverified : List Nat) : Verified where
  seq := head.seq
  head := head.head
  count := mirror.links.length
  lastSeq := match decoded.getLast? with
    | some (_, f) => (f.seq : Int)
    | none => -1
  lastHead := match decoded.getLast? with
    | some (r, _) => r.head
    | none => []
  records := mirror.links
  verdict := verdict
  unverified := unverified

/-- The verdict of an assessment. -/
def verdictOf (head : Head) (a : Assessment) : Verdict :=
  match a.failure with
  | some f => .tampered f.seq f.reason
  | none => match a.opened with
    | hole :: _ => .gap a.verifiedThrough hole
    | [] => if a.missing.isEmpty then .verified a.verifiedThrough [] else .verified head.seq a.missing

/-- The answer of a check goes to the caller. -/
def answered (decoded : List (EdgeLinkRecord × LinkFields)) (mirror : Mirror) (head : Head)
    (verdict : Verdict) (unverified : List Nat) (s : Session) : Outcome × Session :=
  (.view ⟨verdict, some head.seq, rowsOf decoded unverified mirror⟩,
    s.log (.answered mirror head verdict))

/-- The assessment of a full check: from the newest seal when nothing is remembered and that is
clean. -/
def fullAssessment (mirror : Mirror) (head : Head) (held : List EdgeLinkRecord)
    (key : Option EdgeCopyKey) (remembered : Bool) : CheckPath × Assessment :=
  let assess := assessWith L mirror head held key none mirror.lastSeen
  match if remembered then none else sealedStart L mirror head key with
  | none => (.full, assess none)
  | some x =>
      if (assess (some x)).failure.isNone && (assess (some x)).opened.isEmpty then
        (.sealed, assess (some x))
      else (.full, assess none)

/-- The through of a verified verdict. -/
def Verdict.through : Verdict → Int
  | verified through _ => through
  | _ => -1

/-- The full check. -/
def fullCheck (decoded : List (EdgeLinkRecord × LinkFields)) (mirror : Mirror) (head : Head)
    (held : List EdgeLinkRecord) (key : Option EdgeCopyKey) (hybridOk : Bool) (s : Session) :
    Outcome × Session :=
  let id := mirror.deviceId
  let (path, a) := fullAssessment L mirror head held key (s.verifiedNow id).isSome
  let s := s.tookPath path
  let verdict := verdictOf head a
  let unverified := seqsOf a.gaps
  if verdict.isVerified && !hybridOk && decide (0 ≤ head.seq) then
    answered decoded mirror head (.unsigned verdict.through) unverified (s.forgetChecked id)
  else
    answered decoded mirror head verdict unverified
      (s.remember id (remembered mirror decoded head verdict unverified))

/-- The key's checkpoint is checked with both halves before anything else. -/
def anchoredCheck (decoded : List (EdgeLinkRecord × LinkFields)) (mirror : Mirror) (head : Head)
    (held : List EdgeLinkRecord) (key : Option EdgeCopyKey) (s : Session) : Outcome × Session :=
  match key, key.bind EdgeCopyKey.publicKey, usableCheckpoint key head with
  | some k, some publicKey, some cp =>
      if hybridCheck L k publicKey cp then
        fullCheck L decoded mirror head held key true (s.log (.signed
          ⟨mirror.deviceId, (L.deviceIdOf publicKey).getD [], publicKey, k.publicKeyPq, cp, head,
            mirror.links⟩))
      else
        answered decoded mirror head (.tampered cp.seq "bad-checkpoint") []
          ((s.tookPath .full).forgetChecked mirror.deviceId)
  | _, _, _ => fullCheck L decoded mirror head held key false s

/-- `evaluateWith`, on a head the key gave. -/
def evaluateAt (decoded : List (EdgeLinkRecord × LinkFields)) (mirror : Mirror) (head : Head)
    (held : List EdgeLinkRecord) (key : Option EdgeCopyKey) (noFull : Bool) (s : Session) :
    Outcome × Session :=
  let full (s : Session) : Outcome × Session :=
    if noFull then (.needsFull, s.tookPath .full)
    else anchoredCheck L decoded mirror head held key s
  match s.verifiedNow mirror.deviceId with
  | none => full s
  | some was =>
      if was.same mirror head then
        answered decoded mirror head was.verdict was.unverified (s.tookPath .skipped)
      else if was.grew mirror head && (assessNew L was mirror head held key).clean then
        let verdict := Verdict.verified head.seq was.verdict.lost
        answered decoded mirror head verdict was.unverified
          ((s.remember mirror.deviceId
            (remembered mirror decoded head verdict was.unverified)).tookPath .newLinks)
      else full s

/-- `evaluateWith`. -/
def evaluateWith (mirror : Mirror) (head : Option Head) (held : List EdgeLinkRecord)
    (key : Option EdgeCopyKey) (noFull : Bool) (s : Session) : Outcome × Session :=
  match decodeAll L mirror.links, head with
  | none, _ => (.threw, s)
  | some decoded, none => (.view ⟨.notSynced, none, rowsOf decoded [] mirror⟩, s)
  | some decoded, some head => evaluateAt L decoded mirror head held key noFull s

/-! ### Seals -/

/-- `grantIdsIn`: the grant ids the copy has seen opened. -/
def grantIdsIn (mirror : Mirror) : List Nat :=
  (mirror.links.filterMap fun r => (L.decodeLink r.link).bind fun f =>
    if f.op = Edge.opGrantCreate then some f.grantId else none).dedup

/-- `sealDue`: a budget the copy saw opened is not live, and the last seal did not close it. -/
def sealDue (mirror : Mirror) (live : List Nat) : Bool :=
  let before := (mirror.seals.getLast?.map Seal.ended).getD []
  (grantIdsIn L mirror).any fun id => !live.contains id && !before.contains id

/-- The seal `takeSeal` makes of a checkpoint. -/
def sealOf (mirror : Mirror) (cp : Checkpoint) (live : List Nat) : Seal :=
  ⟨cp.seq, cp.head, cp.signature, cp.signaturePq,
    (grantIdsIn L mirror).filter fun id => !live.contains id⟩

/-- Does `takeSeal` take one? -/
def takesSeal (mirror : Mirror) (head : Head) (cp : Checkpoint) (live : List Nat) : Bool :=
  decide ((cp.seq : Int) = head.seq) && cp.head == head.head
    && (match mirror.seals.getLast? with
      | some last => decide (last.seq < cp.seq)
      | none => true)
    && sealDue L mirror live

/-- `takeSeal`. -/
def takeSeal (mirror : Mirror) (head : Head) (cp : Checkpoint) (live : List Nat) : Mirror :=
  if takesSeal L mirror head cp live then
    { mirror with seals := oneAnchor Seal.dropPq (mirror.seals ++ [sealOf L mirror cp live]) }
  else mirror

end OkRn.Store
