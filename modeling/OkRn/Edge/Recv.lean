/-
OkRn/Edge/Recv.lean

`okplugin_edge_recv`: an OKEDGE request, by its sub-op.

Nothing is answered unless the key is initialized, unlocked and out of config
mode, and only a status without an identity.  The first reading of the clock
drops a press that never came; each sub-op reads from the second place on.
-/
import OkRn.Edge.Hooks

namespace OkRn.Edge

namespace Key

/-! ### HEAD and PICKUP -/

/-- The oldest seq in the ring; `seqNone` when it is empty. -/
def oldestHeld (k : Key) : UInt32 :=
  (List.finRange 8).foldl (fun oldest i =>
    match k.held i with
    | some h => if h.seq < oldest then h.seq else oldest
    | none => oldest) seqNone

/-- The bit of place `i` in the mask of held budgets. -/
def holdMask (t : Clock) (k : Key) : UInt8 :=
  (List.finRange 4).foldl (fun mask (i : Fin 4) =>
    if alive (t.millis i) (k.budgets i) && (k.budgets i).onHold then
      mask ||| ((1 : UInt8) <<< UInt8.ofNat i.val)
    else mask) 0

/-- The ids of the four places, 0 where no budget is live. -/
def liveIds (t : Clock) (k : Key) : List UInt8 :=
  (List.finRange 4).flatMap fun i : Fin 4 =>
    (Bytes.le32 (if alive (t.millis i) (k.budgets i) then (k.budgets i).id else 0)).toList

/-- HEAD. -/
def recvHead (t : Clock) (k : Key) : Key :=
  k.reply ((Bytes.le32 k.st.seq).toList ++ (k.st.head.toList ++
    ((Bytes.le32 k.oldestHeld).toList ++ (k.liveIds t ++
      [k.holdMask t, flagByte k.st.owes, 0, 0, UInt8.ofNat k.refusedTx, 0]))))

/-- The link held for `s`. -/
def heldLink (s : UInt32) (k : Key) : Option HeldLink :=
  (k.held (heldAt s)).filter fun h => h.seq == s

/-- The seqs of `for (uint32_t s = from; s < from + count; s++)`: the bound is a 32-bit sum. -/
def pickupSeqs (first : UInt32) (count : Nat) : List UInt32 :=
  (List.range ((first + UInt32.ofNat count).toNat - first.toNat)).map fun n =>
    first + UInt32.ofNat n

/-- The links PICKUP looks for; `none` when one of them is not held. -/
def heldRange (first : UInt32) (count : Nat) (k : Key) : Option (List HeldLink) :=
  (pickupSeqs first count).mapM fun s => k.heldLink s

/-- The two reports of one link: its bytes, then its head and its reveal. -/
def sendHeld (h : HeldLink) (k : Key) : Key :=
  (k.reply h.link.encode.toList).reply (h.head.toList ++ h.reveal.toList)

/-- Every link is sent, when all of them are held. -/
def sendRange (links : Option (List HeldLink)) (k : Key) : Key :=
  match links with
  | none => k.status edgeNotHeld
  | some links => links.foldl (fun k h => k.sendHeld h) k

/-- PICKUP. -/
def recvPickup (buf : Report) (k : Key) : Key :=
  k.sendRange (k.heldRange (get32 buf 6) (min (byteAt buf 10).toNat 8))

/-! ### Requests that change the key -/

/-- The live budget in place `i` is revoked. -/
def revokeAt (env : Env) (i : Option (Fin 4)) (k : Key) : Key :=
  match i with
  | none => k.status edgeNoSuchBudget
  | some i => (k.endBudget env endRevoked i).status edgeOk

/-- GRANT_REVOKE. -/
def recvRevoke (env : Env) (t : Clock) (buf : Report) (k : Key) : Key :=
  k.revokeAt env (k.liveBudget t (get32 buf 6))

/-- The live budget in place `i` is held; holding a held budget links nothing. -/
def holdAt (env : Env) (i : Option (Fin 4)) (k : Key) : Key :=
  match i with
  | none => k.status edgeNoSuchBudget
  | some i =>
      let b := k.budgets i
      let k :=
        if !b.onHold then
          ({ k with budgets := Function.update k.budgets i { b with onHold := true } }).append env
            opGrantHold decisionApprove 0 0 (Bytes.zero 32) b.id 0 none
        else k
      k.status edgeOk

/-- GRANT_HOLD takes no press. -/
def recvHold (env : Env) (t : Clock) (buf : Report) (k : Key) : Key :=
  k.holdAt env (k.liveBudget t (get32 buf 6))

/-- GRANT_RESUME. -/
def recvResume (env : Env) (t : Clock) (buf : Report) (k : Key) : Key :=
  let id := get32 buf 6
  let k := k.pressDrop
  if k.liveBudget t id = none then k.status edgeNoSuchBudget
  else if k.st.owes then k.status edgeReceiptOwed
  else if !k.headIs (bytesAt buf 10 32) then k.status edgeStaleHead
  else
    ({ k with press := { k.press with verified := bytesAt buf 10 32, id := id } }).pressWait env
      (t.after 4) .resume (env.H "OKEDGE-RESUME" [bytesAt buf 6 4]) buf

/-- The subject of a receipt: the use's seq and head, the code and the message hash. -/
def receiptSubject (env : Env) (owed : OwedUse) (code : UInt8) (msgHash : List UInt8) : Digest :=
  env.H "OKEDGE-RECEIPT-v1" [(Bytes.le32 owed.seq).toList, owed.head.toList, [code], msgHash]

/-- RECEIPT. -/
def recvReceipt (env : Env) (t : Clock) (buf : Report) (k : Key) : Key :=
  let ref := get32 buf 6
  let code := byteAt buf 10
  if !k.st.owes ∨ k.st.owed.seq ≠ ref then k.status edgeNoReceiptWaiting
  else
    let subject := receiptSubject env ⟨ref, k.st.owed.head⟩ code (bytesAt buf 11 32)
    ((k.append env opReceipt code 0 0 subject ref 0 none).completeFulfilled env t).replySeqHead

/-- SETTLE. -/
def recvSettle (env : Env) (t : Clock) (buf : Report) (k : Key) : Key :=
  let k := k.pressDrop
  if !k.st.owes then k.status edgeNoReceiptWaiting
  else k.pressWait env t .settle (env.H "OKEDGE-SETTLE" [k.st.head.toList]) buf

/-- TX_START. -/
def recvTxStart (t : Clock) (buf : Report) (k : Key) : Key :=
  let token : Digest := Bytes.slice buf.toList 6 32
  let intent : Intent := Bytes.slice buf.toList 38 16
  if k.st.owes then k.refuseTx edgeReceiptOwed
  else if !k.anyBudgetPayable t then k.refuseTx edgeNothingToPay
  else
    (({ k with
      txToken := token
      txIntent := intent
      txHasIntent := intent != Bytes.zero 16
      started := true }).push (.txStart token intent)).status edgeOk

/-- LOSS. -/
def recvLoss (env : Env) (t : Clock) (buf : Report) (k : Key) : Key :=
  let first := get32 buf 6
  let last := get32 buf 10
  let k := k.pressDrop
  if k.st.seq = seqNone ∨ last < first ∨ k.st.seq < last then k.status edgeBadRange
  else
    ({ k with press := { k.press with fromSeq := first, id := last } }).pressWait env t .loss
      (env.H "OKEDGE-LOSS" [bytesAt buf 6 8, k.st.head.toList]) buf

/-- WIPE_DEBUG exists in DEBUG builds only. -/
def recvWipeDebug (env : Env) (k : Key) : Key :=
  if env.debug then k.wipe.status edgeOk else k.status edgeUnknownRequest

/-! ### The switch -/

/-- The switch on the sub-op. -/
def serve (env : Env) (t : Clock) (d : Draw) (buf : Report) (k : Key) : Key :=
  match subOp (byteAt buf 5) with
  | some .head => k.recvHead t
  | some .pickup => k.recvPickup buf
  | some .checkpoint => k.checkpoint env
  | some .pubkey => k.reply k.pub.toList
  | some .pubkeyPq => k.mldsaPubkeyReply env (if byteAt buf 6 = 0 then .checkpoint else .owner)
  | some .statement => k.statement env (Bytes.slice buf.toList 6 32)
  | some .grantLabel => k.grantLabel env t buf
  | some .grantCreate => k.grantCreate env t d buf
  | some .grantRevoke => k.recvRevoke env t buf
  | some .wipeDebug => k.recvWipeDebug env
  | some .grantHold => k.recvHold env t buf
  | some .grantResume => k.recvResume env t buf
  | some .receipt => k.recvReceipt env t buf
  | some .settle => k.recvSettle env t buf
  | some .txStart => k.recvTxStart t buf
  | some .loss => k.recvLoss env t buf
  | none => k.status edgeUnknownRequest

/-- A press that never came is dropped by the next request. -/
def dropStalePress (env : Env) (t : Clock) (k : Key) : Key :=
  if k.press.what ≠ .none ∧ pressMs < env.since (t.millis 0) k.press.since then k.pressDrop
  else k

/-- `okplugin_edge_recv`. -/
def recv (env : Env) (t : Clock) (d : Draw) (buf : Report) (k : Key) : Key :=
  if !(k.core.initialized && k.core.unlocked && !k.core.configmode) then k
  else match k.ensureIdentity env d with
    | (k, false) => k.status edgeNeedPin
    | (k, true) => (k.dropStalePress env t).serve env (t.after 1) d buf

end Key

end OkRn.Edge
