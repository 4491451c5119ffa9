/-
OkRn/Edge/Weld.lean

The weld, the one function every link goes through:

    head[n] = SHA256("OKEDGE-LINK-v1" || head[n-1] || link[n])

then the debt, which reads only the link: a sign or decrypt with the owes flag
becomes the owed use, and a receipt clears it when it is a pressed settle or
names the owed seq.
-/
import OkRn.Edge.Record

namespace OkRn.Edge

/-- `settle_subject`. -/
def settleSubject (env : Env) (s : EdgeState) : Digest :=
  env.H "OKEDGE-SETTLE-v1" [(Bytes.le32 s.owed.seq).toList]

/-- The head after a link. -/
def weldHead (env : Env) (prev : Digest) (link : Link) : Digest :=
  env.H "OKEDGE-LINK-v1" [prev.toList, link.encode.toList]

/-- A sign or decrypt link that owes a receipt. -/
def Link.owes (l : Link) : Bool :=
  (l.op == opSign || l.op == opDecrypt)
    && (l.decision == decisionApprove || l.decision == decisionSelfPress)
    && l.flags &&& flagOwesReceipt != 0

/-- A receipt link made by a press over the debt of `s`. -/
def Link.settles (env : Env) (s : EdgeState) (l : Link) : Bool :=
  l.decision == codeNeedsReview && l.flags &&& flagPressObserved != 0
    && l.subject == settleSubject env s

/-- What a link does to the debt. -/
def weldDebt (env : Env) (link : Link) (head : Digest) (s : EdgeState) : EdgeState :=
  if link.op = opSign ∨ link.op = opDecrypt then
    if link.owes then { s with owes := true, owed := ⟨link.seq, head⟩ } else s
  else if link.op = opReceipt then
    if s.owes ∧ (link.settles env s ∨ link.grantId = s.owed.seq) then
      { s with owes := false, owed := OwedUse.blank }
    else s
  else s

/-- The seq of the next link. -/
def EdgeState.nextSeq (s : EdgeState) : UInt32 := if s.seq = seqNone then 0 else s.seq + 1

namespace Key

/-- `weld_in`: the head, the debt, the TX start, the save, the ring. -/
def weldIn (env : Env) (link : Link) (reveal : Option Digest) (k : Key) : Key :=
  let head := weldHead env k.st.head link
  let st := { weldDebt env link head k.st with seq := link.seq, head := head, lastLink := link }
  ((({ k with st := st, started := false }).stateSave env).push
    (.link ⟨link, k.st.head, head, reveal⟩)).hold link.seq link head reveal

/-- The link a key in this state writes next. -/
def nextLink (op decision slot flags : UInt8) (subject : Digest) (grantId : UInt32)
    (grantStep : UInt16) (scope : UInt8) (intent : Option Intent) (k : Key) : Link :=
  { seq := k.st.nextSeq, op, decision, slot, flags, subject, grantId, grantStep, scope
    intent := intent.getD (Bytes.zero 16)
    version := linkVersion }

/-- `append_scoped`: a link the key writes itself, as its next seq. -/
def appendScoped (env : Env) (op decision slot flags : UInt8) (subject : Digest)
    (grantId : UInt32) (grantStep : UInt16) (scope : UInt8) (reveal : Option Digest)
    (k : Key) : Key :=
  let link := k.nextLink op decision slot flags subject grantId grantStep scope k.nextIntent
  weldIn env link reveal { k with nextIntent := none }

/-- `append`. -/
def append (env : Env) (op decision slot flags : UInt8) (subject : Digest) (grantId : UInt32)
    (grantStep : UInt16) (reveal : Option Digest) (k : Key) : Key :=
  k.appendScoped env op decision slot flags subject grantId grantStep 0 reveal

end Key

end OkRn.Edge
