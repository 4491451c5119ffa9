/-
OkRn/Store/Mirror.lean

The phone's copy of a key's chain, and what the app takes from the library.

A record is an object: `===` is equality of its reference and its contents, and
no code changes a record in place.  The library that decodes, welds, verifies,
judges and merges is not part of the app, so it is a parameter, `EdgeLib`.
-/
import OkRn.Lib.Dict

namespace OkRn.Store

/-- A `Uint8Array`. -/
abbrev Blob := List UInt8

/-! ### Records -/

/-- A link as it is read or stored: its bytes, its head and its reveal. -/
structure RawLink where
  link : Blob
  head : Blob
  reveal : Option Blob
  deriving DecidableEq

/-- A link in memory. -/
structure EdgeLinkRecord extends RawLink where
  ref : Nat
  deriving DecidableEq

/-- What `chain.decodeLink` reads. -/
structure LinkFields where
  seq : Nat
  op : UInt8
  reservedZero : Bool
  grantId : Nat
  intent : Option Blob
  deriving DecidableEq

/-- A head that the copy was verified up to. -/
structure Seen where
  seq : Int
  head : Blob
  deriving DecidableEq

/-- A stray that was set aside. -/
structure Aside where
  link : Blob
  head : Blob
  time : Nat
  deriving DecidableEq

/-- A use's reason, as a computer told it. -/
structure Reason where
  computer : String
  text : String
  time : Nat
  deriving DecidableEq

/-- A computer's refusal of a transaction. -/
structure Refusal where
  computer : String
  seq : Nat
  status : String
  time : Nat
  deriving DecidableEq

/-- What a restored chain was found to go on from. -/
structure ContinueCheck where
  ok : Bool
  fromDeviceId : Option Blob
  oldSeq : Int
  debtsChecked : Option Bool
  reason : Option String
  deriving DecidableEq

/-- A checkpoint that a computer's log was merged at. -/
structure MergePoint where
  seq : Nat
  head : Blob
  signature : Blob
  signaturePq : Option Blob
  time : Nat
  deriving DecidableEq

/-- A checkpoint that closes the links before it. -/
structure Seal where
  seq : Nat
  head : Blob
  signature : Blob
  signaturePq : Option Blob
  ended : List Nat
  deriving DecidableEq

/-! ### The copy -/

/-- A copy whose links are of type `ρ`. -/
structure MirrorOf (ρ : Type) where
  deviceId : Blob
  links : List ρ
  messages : Dict String
  lastSeen : Option Seen
  lastSync : Option Nat
  setAside : List Aside
  seen : Dict Nat
  reasons : Dict Reason
  refusals : List Refusal
  publicKey : Option Blob
  publicKeyPq : Option Blob
  continued : Option ContinueCheck
  merged : List MergePoint
  seals : List Seal
  deriving DecidableEq

/-- The copy in memory. -/
abbrev Mirror := MirrorOf EdgeLinkRecord

/-- The copy as it is stored. -/
abbrev StoredMirror := MirrorOf RawLink

/-- A copy nothing is known of. -/
def emptyMirror {ρ : Type} (deviceId : Blob) : MirrorOf ρ :=
  ⟨deviceId, [], [], none, none, [], [], [], [], none, none, none, [], []⟩

/-- The same copy with other links. -/
def MirrorOf.withLinks {ρ ρ' : Type} (links : List ρ') (m : MirrorOf ρ) : MirrorOf ρ' :=
  ⟨m.deviceId, links, m.messages, m.lastSeen, m.lastSync, m.setAside, m.seen, m.reasons,
    m.refusals, m.publicKey, m.publicKeyPq, m.continued, m.merged, m.seals⟩

/-- What `saveMirror` writes for a copy. -/
def storedForm (m : Mirror) : StoredMirror :=
  m.withLinks (m.links.map EdgeLinkRecord.toRawLink)

/-! ### The key's answers -/

/-- The key's head. -/
structure Head where
  seq : Int
  head : Blob
  ringFrom : Nat
  deriving DecidableEq

/-- The head, signed by the key. -/
structure Checkpoint where
  seq : Nat
  head : Blob
  signature : Blob
  signaturePq : Option Blob
  deriving DecidableEq

/-- What the key gives beside its links. -/
structure EdgeCopyKey where
  publicKey : Option Blob
  publicKeyPq : Option Blob
  openings : Dict Blob
  checkpoint : Option Checkpoint
  deriving DecidableEq

/-! ### The library -/

/-- A range of seqs. -/
structure Range where
  first : Nat
  last : Nat
  deriving DecidableEq

/-- What `copy.assess` is given: the copy, the key's answers, and where to start. -/
structure Assessed where
  links : List EdgeLinkRecord
  openings : Dict Blob
  publicKey : Option Blob
  publicKeyPq : Option Blob
  deviceId : Blob
  head : Seen
  held : List EdgeLinkRecord
  checkpoint : Option Checkpoint
  start : Option Seen
  ringFrom : Nat
  lastSeen : Option Seen
  sealed : Option Seen
  deriving DecidableEq

/-- Where a copy fails, and why. -/
structure Failure where
  seq : Int
  reason : String
  deriving DecidableEq

/-- What the library finds of a copy. -/
structure Assessment where
  ok : Bool
  failure : Option Failure
  gaps : List Range
  verifiedThrough : Int
  opened : List Range
  missing : List Range
  deriving DecidableEq

/-- What a merge gives. -/
structure Merge where
  links : List EdgeLinkRecord
  added : List EdgeLinkRecord
  conflicts : List Nat

/-- The library functions the app calls; `none` is a throw. -/
structure EdgeLib where
  decodeLink : Blob → Option LinkFields
  weld : Blob → Blob → Blob
  deviceIdOf : Blob → Option Blob
  /-- Both halves; a malformed input does not verify. -/
  verifyCheckpoint : Blob → Nat → Blob → Blob → Blob → Option Blob → Option Blob → Bool
  verifyCheckpointP256 : Blob → Nat → Blob → Blob → Blob → Bool
  assess : Assessed → Assessment
  merge : List EdgeLinkRecord → List EdgeLinkRecord → Merge
  intentOf : String → Blob
  /-- Does `receipts.pairReceipts` over these links say `match` for the use at this seq? -/
  messageMatches : List EdgeLinkRecord → Nat → String → Bool
  checkContinue : Blob → Blob → List EdgeLinkRecord → ContinueCheck

/-- `copy.assess` fails a copy that holds a link past the head. -/
def EdgeLib.FailsPastHead (L : EdgeLib) : Prop :=
  ∀ a f, (∃ r ∈ a.links, L.decodeLink r.link = some f) → a.head.seq < (f.seq : Int) →
    (L.assess a).ok = false ∧ (L.assess a).failure ≠ none

/-- What a merge adds is in what it gives. -/
def EdgeLib.MergeAdds (L : EdgeLib) : Prop :=
  ∀ links offered r, r ∈ (L.merge links offered).added → r ∈ (L.merge links offered).links

/-! ### Anchors -/

/-- `oneAnchor`: only the newest of a list of checkpoints keeps its ML-DSA half. -/
def oneAnchor {α : Type} (dropPq : α → α) : List α → List α
  | [] => []
  | [x] => [x]
  | x :: y :: xs => dropPq x :: oneAnchor dropPq (y :: xs)

/-- A seal without its second signature. -/
def Seal.dropPq (x : Seal) : Seal := { x with signaturePq := none }

/-- A merge point without its second signature. -/
def MergePoint.dropPq (x : MergePoint) : MergePoint := { x with signaturePq := none }

end OkRn.Store
