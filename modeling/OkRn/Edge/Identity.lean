/-
OkRn/Edge/Identity.lean

The Edge key, the device id and the first save of a chain.

`ensureIdentity` runs before every Edge request and every decision.  It loads
the record, draws the salt when there is none, derives the device id, and then
does one of three things: it writes the continue link a restore left owed, it
sets the genesis of an empty chain, or it goes on with the chain there is.
-/
import OkRn.Edge.Weld

namespace OkRn.Edge

/-! ### Keys -/

/-- `edge_secret_salted`: nothing without a PIN. -/
def edgeSecretSalted (env : Env) (core : Core) (info : String) (salt33 : Option (Bytes 33)) :
    Option Digest :=
  if core.nonencrypted then none
  else if !core.k132 then none
  else env.hkdf salt33 (ascii info)

/-- The salt as the key derivation takes it, with its length before it. -/
def salt33 (salt : Digest) : Bytes 33 := ⟨0x28 :: salt.toList, by simp⟩

/-- `edge_key_with`: there is no Edge key without a salt. -/
def edgeKeyWith (env : Env) (core : Core) (s : EdgeState) : Option Digest :=
  if !s.salted then none
  else edgeSecretSalted env core "onlykey/edge/v1" (some (salt33 s.salt))

/-- The device id, from the Edge key. -/
def deviceIdOf (env : Env) (pub : Bytes 64) : DeviceId :=
  (env.H "OKEDGE-DEVICE-v1" [pub.toList]).first 16

/-- `identity_of`. -/
def identityOf (env : Env) (core : Core) (s : EdgeState) : Option Ident :=
  (edgeKeyWith env core s).bind fun priv =>
    (env.computePublicKey priv).map fun pub => ⟨pub, deviceIdOf env pub⟩

/-- head[-1] of a chain. -/
def genesisOf (env : Env) (id : DeviceId) : Digest := env.H "OKEDGE-GENESIS-v1" [id.toList]

/-- The two second keys: of the checkpoints, and of the owner. -/
inductive MldsaKey
  | checkpoint | owner

/-- The seed of an ML-DSA-65 key pair. -/
def mldsaSeed (env : Env) (core : Core) (s : EdgeState) : MldsaKey → Option Digest
  | .checkpoint =>
      if !s.salted then none
      else edgeSecretSalted env core "onlykey/edge/mldsa/v1" (some (salt33 s.salt))
  | .owner => edgeSecretSalted env core "onlykey/edge/owner-mldsa/v1" none

/-- `mldsa_keypair`: the public key. -/
def mldsaKeypair (env : Env) (core : Core) (s : EdgeState) (which : MldsaKey) :
    Option (List UInt8) :=
  (mldsaSeed env core s which).bind env.mldsaPk

/-! ### The continue link -/

/-- The subject of the continue link: the old chain's device id, seq and head, and the
carried debt's seq when there is one. -/
def continueSubject (env : Env) (oldId : DeviceId) (s : EdgeState) : Digest :=
  env.H "OKEDGE-CONTINUE-v1" [oldId.toList ++ ((Bytes.le32 s.seq).toList ++ (s.head.toList ++
    (if s.owes then (Bytes.le32 s.owed.seq).toList else [])))]

namespace Key

/-- `write_continue`: the next seq after the old chain, welded onto the new genesis. -/
def writeContinue (env : Env) (oldId newId : DeviceId) (k : Key) : Key :=
  let subject := continueSubject env oldId k.st
  let owes := k.st.owes
  let st := { k.st with cont := false, contId := Bytes.zero 16, head := genesisOf env newId }
  let k := { k with
    budgets := fun _ => Budget.blank, held := fun _ => none, started := false, st := st }
  (k.append env opContinue decisionApprove 0 0 subject (if owes then 1 else 0) 0 none).stateSave env

/-- The salt is drawn on first use; `none` without K132. -/
def ensureSalt (env : Env) (d : Draw) (k : Key) : Option Key :=
  if k.st.salted then some k
  else if k.core.nonencrypted || !k.core.k132 then none
  else
    let st := { k.st with salt := d.salt, salted := true }
    some ((({ k with st := st }).stateSave env).push (.salt d.salt))

/-- The identity is known: the continue link, the genesis, or neither is still to be written. -/
def beginChain (env : Env) (id : Ident) (k : Key) : Key :=
  let k := { k with ident := some id }
  if k.st.cont then k.writeContinue env k.st.contId id.deviceId
  else if k.st.seq = seqNone then
    ({ k with st := { k.st with head := genesisOf env id.deviceId } }).stateSave env
  else k

/-- `ensure_identity`. -/
def ensureIdentity (env : Env) (d : Draw) (k : Key) : Key × Bool :=
  let k := k.stateLoad env
  if k.ident.isSome then (k, true)
  else match k.ensureSalt env d with
    | none => (k, false)
    | some k => match identityOf env k.core k.st with
      | none => (k, false)
      | some id => (k.beginChain env id, true)

/-! ### Signatures -/

/-- The key's own device id. -/
def deviceId (k : Key) : DeviceId := (k.ident.map Ident.deviceId).getD (Bytes.zero 16)

/-- And its Edge key. -/
def pub (k : Key) : Bytes 64 := (k.ident.map Ident.pub).getD (Bytes.zero 64)

/-- `mldsa_pubkey_reply`. -/
def mldsaPubkeyReply (env : Env) (which : MldsaKey) (k : Key) : Key :=
  match mldsaKeypair env k.core k.st which with
  | none => k.status edgeSignFailed
  | some pk => k.send (.stream pk)

/-- `mldsa_sign_reply`, with the status its callers send when it fails. -/
def mldsaSignReply (env : Env) (which : MldsaKey) (digest : Digest) (k : Key) : Key :=
  let sig := (mldsaSeed env k.core k.st which).bind fun seed =>
    (env.mldsaPk seed).bind fun _ => env.mldsaSign seed digest
  match sig with
  | none => k.status edgeSignFailed
  | some sig => k.send (.stream sig)

/-- What a checkpoint signs. -/
def checkpointDigest (env : Env) (k : Key) : Digest :=
  env.H "OKEDGE-CKPT-v1"
    [k.deviceId.toList, (Bytes.le32 k.st.seq).toList, k.st.head.toList]

/-- `checkpoint`: two signatures over (seq, head). -/
def checkpoint (env : Env) (k : Key) : Key :=
  let digest := k.checkpointDigest env
  match (edgeKeyWith env k.core k.st).bind fun priv => env.eccSign priv digest with
  | none => k.status edgeSignFailed
  | some sig => (k.replySeqHead.reply sig.toList).mldsaSignReply env .checkpoint digest

/-- What a statement of the device signs. -/
def statementDigest (env : Env) (checkpointPk : List UInt8) (nametagHash : Digest) (k : Key) :
    Digest :=
  env.H "OKEDGE-STATEMENT-v1" [k.deviceId.toList ++ (k.pub.toList ++
    (env.sha256 checkpointPk).toList), (Bytes.le32 k.st.seq).toList, nametagHash.toList]

/-- `statement`: the owner key's word on this device. -/
def statement (env : Env) (nametagHash : Digest) (k : Key) : Key :=
  match mldsaKeypair env k.core k.st .checkpoint with
  | none => k.status edgeSignFailed
  | some pk =>
      let digest := k.statementDigest env pk nametagHash
      let signed := (edgeSecretSalted env k.core "onlykey/edge/owner/v1" none).bind fun priv =>
        (env.computePublicKey priv).bind fun pub => (env.eccSign priv digest).map fun sig =>
          (pub, sig)
      match signed with
      | none => k.status edgeSignFailed
      | some (pub, sig) =>
          (((k.reply ((Bytes.le32 k.st.seq).toList ++ nametagHash.toList)).reply pub.toList).reply
            sig.toList).mldsaSignReply env .owner digest

end Key

end OkRn.Edge
