/-
OkRn/Edge/Format.lean

The format of OnlyKey Edge: the codes of a link, the link's 64 bytes, and the
hash labels.  These are the numbers and layouts the key shares with the host
library, taken from the plugin's source and header.

A link is a record here, and 64 bytes wherever it is hashed, stored or sent
(`Link.encode`).  Nothing is lost in the bytes: `Link.decode_encode`.
-/
import OkRn.Lib.Bytes

namespace OkRn.Edge

/-- A SHA-256 value. -/
abbrev Digest := Bytes 32

/-- The id of a device: 16 bytes of a hash of its Edge key. -/
abbrev DeviceId := Bytes 16

/-- The first 16 bytes of the hash of the intent text; zeros when there is none. -/
abbrev Intent := Bytes 16

/-- One HID report. -/
abbrev Report := Bytes 64

/-! ### Codes -/

/-- A signature, or an approved one. -/
def opSign : UInt8 := 1

/-- A decryption. -/
def opDecrypt : UInt8 := 2

/-- A budget is opened. -/
def opGrantCreate : UInt8 := 6

/-- A budget is ended. -/
def opGrantEnd : UInt8 := 7

/-- A use is answered by its receipt, or settled. -/
def opReceipt : UInt8 := 8

/-- Links that the copies lost are given up. -/
def opLoss : UInt8 := 11

/-- A budget is held. -/
def opGrantHold : UInt8 := 13

/-- And resumed. -/
def opGrantResume : UInt8 := 14

/-- A restored chain goes on here. -/
def opContinue : UInt8 := 16

/-- The person said yes. -/
def decisionApprove : UInt8 := 1

/-- A budget paid for the press. -/
def decisionSelfPress : UInt8 := 4

/-- A receipt that needs a look. -/
def codeNeedsReview : UInt8 := 0x8F

/-- The key saw the press. -/
def flagPressObserved : UInt8 := 0x01

/-- This use was the budget's last. -/
def flagBudgetSpent : UInt8 := 0x02

/-- The use is to be answered by a receipt. -/
def flagOwesReceipt : UInt8 := 0x10

/-- How a budget ended: byte 5 of its grant-end link. -/
def endCompleted : UInt8 := 1

/-- A budget ended by a revoke. -/
def endRevoked : UInt8 := 2

/-- One that a settle ended. -/
def endSettled : UInt8 := 3

/-- The counter of an empty chain. -/
def seqNone : UInt32 := 0xFFFFFFFF

/-- The version of the link's layout. -/
def linkVersion : UInt8 := 1

/-- So many uses a budget may have at most. -/
def maxUses : Nat := 1024

/-- So long a request waits for its press. -/
def pressMs : Nat := 25000

/-- So long a staged label is good. -/
def labelStageMs : Nat := 25000

/-- So many bytes of a label are kept and compared. -/
def labelPrefix : Nat := 16

/-- So many bytes of the head a request names. -/
def grantHeadBytes : Nat := 6

/-- The lifetime of a budget that asks for none. -/
def defaultLifetimeMin : Nat := 720

/-- The core's own opcodes the plugin looks at. -/
def okSign : UInt8 := 0xED

/-- OKDECRYPT. -/
def okDecrypt : UInt8 := 0xF0

/-- OKEDGE. -/
def okEdge : UInt8 := 0xF8

/-! ### Status codes, sent as the text EDGE:xx -/

/-- Done. -/
def edgeOk : UInt8 := 0x00

/-- The key has no identity yet. -/
def edgeNeedPin : UInt8 := 0x01

/-- The scopes of a request do not parse. -/
def edgeBadScopes : UInt8 := 0x02

/-- A scope that no budget may have. -/
def edgeScopeNotAllowed : UInt8 := 0x03

/-- More uses than a budget may have. -/
def edgeTooManyUses : UInt8 := 0x04

/-- All four places are taken. -/
def edgeLiveFull : UInt8 := 0x05

/-- A signature could not be made. -/
def edgeSignFailed : UInt8 := 0x06

/-- No live budget has the id. -/
def edgeNoSuchBudget : UInt8 := 0x07

/-- Nothing is owed. -/
def edgeNoReceiptWaiting : UInt8 := 0x08

/-- A link that the ring does not hold. -/
def edgeNotHeld : UInt8 := 0x09

/-- No such sub-op. -/
def edgeUnknownRequest : UInt8 := 0x0A

/-- The request names another head. -/
def edgeStaleHead : UInt8 := 0x0B

/-- A receipt is owed first. -/
def edgeReceiptOwed : UInt8 := 0x0C

/-- There is nothing to settle. -/
def edgeNothingToPay : UInt8 := 0x0D

/-- The range of a loss is not one. -/
def edgeBadRange : UInt8 := 0x12

/-- The start names another request. -/
def edgeTxMismatch : UInt8 := 0x1C

/-- The OKEDGE sub-ops, byte 5 of a request. -/
inductive SubOp
  | head | pickup | checkpoint | pubkey | pubkeyPq | statement
  | grantCreate | grantLabel | grantRevoke | grantHold | grantResume
  | receipt | settle | txStart | loss | wipeDebug
  deriving DecidableEq

/-- The sub-op a byte names; the switch's `default` is `none`. -/
def subOp (b : UInt8) : Option SubOp :=
  if b = 0x01 then some .head
  else if b = 0x02 then some .pickup
  else if b = 0x03 then some .checkpoint
  else if b = 0x04 then some .pubkey
  else if b = 0x05 then some .pubkeyPq
  else if b = 0x06 then some .statement
  else if b = 0x10 then some .grantCreate
  else if b = 0x11 then some .grantLabel
  else if b = 0x12 then some .grantRevoke
  else if b = 0x13 then some .grantHold
  else if b = 0x14 then some .grantResume
  else if b = 0x20 then some .receipt
  else if b = 0x21 then some .settle
  else if b = 0x22 then some .txStart
  else if b = 0x34 then some .loss
  else if b = 0x7E then some .wipeDebug
  else none

/-! ### The link -/

/-- A link: seq u32, op, decision, slot, flags, subject 32, grant id u32, step u16,
scope, intent 16, version. -/
structure Link where
  seq : UInt32
  op : UInt8
  decision : UInt8
  slot : UInt8
  flags : UInt8
  subject : Digest
  grantId : UInt32
  grantStep : UInt16
  scope : UInt8
  intent : Intent
  version : UInt8
  deriving DecidableEq

namespace Link

/-- 64 zero bytes, read as a link. -/
def blank : Link :=
  ⟨0, 0, 0, 0, 0, Bytes.zero 32, 0, 0, 0, Bytes.zero 16, 0⟩

/-- The 64 bytes of a link. -/
def encode (l : Link) : Bytes 64 where
  toList := (Bytes.le32 l.seq).toList ++ ([l.op, l.decision, l.slot, l.flags] ++
    (l.subject.toList ++ ((Bytes.le32 l.grantId).toList ++ ((Bytes.le16 l.grantStep).toList ++
      ([l.scope] ++ (l.intent.toList ++ [l.version]))))))
  length_toList := by simp

/-- The link read from 64 bytes. -/
def decode (b : Bytes 64) : Link where
  seq := Bytes.ofLe32 (Bytes.slice b.toList 0 4)
  op := Bytes.at? b.toList 4
  decision := Bytes.at? b.toList 5
  slot := Bytes.at? b.toList 6
  flags := Bytes.at? b.toList 7
  subject := Bytes.slice b.toList 8 32
  grantId := Bytes.ofLe32 (Bytes.slice b.toList 40 4)
  grantStep := Bytes.ofLe16 (Bytes.slice b.toList 44 2)
  scope := Bytes.at? b.toList 46
  intent := Bytes.slice b.toList 47 16
  version := Bytes.at? b.toList 63

/-- The offsets the weld reads a link at are those its fields are written to. -/
@[simp] theorem decode_encode (l : Link) : decode (encode l) = l := by
  cases l
  simp [decode, encode]

/-- Two links with the same bytes are the same. -/
theorem encode_injective : Function.Injective encode :=
  Function.LeftInverse.injective decode_encode

end Link

end OkRn.Edge
