/-
OkRn/Edge/State.lean

The key's state, as the plugin's own structs and statics hold it, and what the
plugin takes from outside: SHA-256, the key derivation, the two signature
schemes, the clock and the random number generator.

Everything in `Key` but its last two fields is the firmware's.  `log` is the
history of the key, newest entry first, which the firmware does not keep: what
was welded, saved, asked, staged, started, restored or lost.  `now` is the last
reading of the real clock.  No function of the plugin reads either of them; the
properties of whole runs are stated over them.
-/
import OkRn.Edge.Format

namespace OkRn.Edge

/-- The bytes of an ASCII text. -/
def ascii (s : String) : List UInt8 := s.toList.map fun c => UInt8.ofNat c.toNat

/-- What the plugin calls in the core and in third-party code. -/
structure Env where
  sha256 : List UInt8 → Digest
  /-- `okcrypto_hkdf_info` over K132; `none` when K132 cannot be read from flash. -/
  hkdf : Option (Bytes 33) → List UInt8 → Option Digest
  computePublicKey : Digest → Option (Bytes 64)
  eccSign : Digest → Digest → Option (Bytes 64)
  mldsaPk : Digest → Option (List UInt8)
  mldsaSign : Digest → Digest → Option (List UInt8)
  /-- `unsigned long` has 64 bits; else 32 (the app is built for both). -/
  lp64 : Bool
  /-- A DEBUG build. -/
  debug : Bool

/-- SHA-256 over an ASCII tag and byte strings. -/
def Env.H (env : Env) (tag : String) (parts : List (List UInt8)) : Digest :=
  env.sha256 (ascii tag ++ parts.flatten)

/-! ### The clock -/

/-- The real time, in milliseconds since the process started, at each place where one
request reads `millis()`. -/
abbrev Clock := Nat → Nat

/-- `millis()` at the `k`-th place: a free-running 32-bit counter. -/
def Clock.millis (t : Clock) (k : Nat) : UInt32 := UInt32.ofNat (t k)

/-- The readings from the `n`-th place on. -/
def Clock.after (t : Clock) (n : Nat) : Clock := fun k => t (n + k)

/-- A difference of two readings computed in `unsigned long`. -/
def Env.since (env : Env) (now past : UInt32) : Nat :=
  if env.lp64 then (now.toUInt64 - past.toUInt64).toNat else (now - past).toNat

/-- What the random number generator gives one request. -/
structure Draw where
  salt : Digest
  seed : Digest

/-! ### The record -/

/-- The use that is owed a receipt. -/
structure OwedUse where
  seq : UInt32
  head : Digest
  deriving DecidableEq

/-- None is. -/
def OwedUse.blank : OwedUse := ⟨0, Bytes.zero 32⟩

/-- Everything that survives a restart. -/
structure EdgeState where
  gen : UInt32
  seq : UInt32
  head : Digest
  owes : Bool
  owed : OwedUse
  lastLink : Link
  salted : Bool
  /-- A continue link is owed. -/
  cont : Bool
  salt : Digest
  contId : DeviceId
  deriving DecidableEq

/-- All zero bytes. -/
def EdgeState.zero : EdgeState :=
  ⟨0, 0, Bytes.zero 32, false, OwedUse.blank, Link.blank, false, false, Bytes.zero 32,
    Bytes.zero 16⟩

/-- An empty chain. -/
def EdgeState.empty : EdgeState := { EdgeState.zero with seq := seqNone }

/-! ### RAM -/

/-- The Edge key and the device id that it gives. -/
structure Ident where
  pub : Bytes 64
  deviceId : DeviceId
  deriving DecidableEq

/-- A scope of a budget: what it pays for, how often, and how often it did. -/
structure Scope where
  op : UInt8
  slot : UInt8
  cap : Nat
  used : Nat
  /-- On a derived code, the first bytes of the identity's label. -/
  label : Option (Bytes labelPrefix)
  deriving DecidableEq

/-- No scope. -/
def Scope.blank : Scope := ⟨0, 0, 0, 0, none⟩

/-- A budget; id 0 is an empty place. -/
structure Budget where
  id : UInt32
  nscopes : Nat
  onHold : Bool
  scopes : Fin 4 → Scope
  uses : Nat
  used : Nat
  opened : UInt32
  lifetimeMs : UInt32
  seed : Digest
  genesis : Digest

/-- An empty place. -/
def Budget.blank : Budget :=
  ⟨0, 0, false, fun _ => Scope.blank, 0, 0, 0, 0, Bytes.zero 32, Bytes.zero 32⟩

/-- The labels GRANT_LABEL staged; `since` 0 means nothing is staged. -/
structure Staged where
  label : Fin 4 → Option Digest
  since : UInt32

/-- No label is staged. -/
def Staged.blank : Staged := ⟨fun _ => none, 0⟩

/-- A link in the ring, with its head and its reveal. -/
structure HeldLink where
  seq : UInt32
  link : Link
  head : Digest
  reveal : Digest
  deriving DecidableEq

/-- The sign or decrypt waiting for its decision. -/
structure Pend where
  active : Bool
  opcode : UInt8
  slot : UInt8
  press : Bool
  intent : Option Intent
  /-- The status to refuse the request with; 0 is none. -/
  refuse : UInt8
  budget : Option (Fin 4)
  subject : Digest
  label : Option (Bytes labelPrefix)

/-- Nothing is primed. -/
def Pend.blank : Pend := ⟨false, 0, 0, false, none, 0, none, Bytes.zero 32, none⟩

/-- What a press is waited for. -/
inductive PressKind
  | none | grant | resume | settle | loss
  deriving DecidableEq

/-- The OKEDGE request waiting for its press. -/
structure Press where
  what : PressKind
  since : UInt32
  /-- Resume: the budget; loss: the end of the range. -/
  id : UInt32
  /-- Loss: the start of the range. -/
  fromSeq : UInt32
  /-- The bytes of the head the host verified. -/
  verified : List UInt8
  b : Budget
  reason : Digest
  scopesEnc : List UInt8
  lifetime : Nat
  labels : Fin 4 → Digest

/-- Nothing waits for a press. -/
def Press.blank : Press :=
  ⟨.none, 0, 0, 0, [], Budget.blank, Bytes.zero 32, [], 0, fun _ => Bytes.zero 32⟩

/-! ### The core -/

/-- What the core asks of the person. -/
inductive InputMode
  | challenge | press | none
  deriving DecidableEq

/-- The operation the core has primed and not yet decided.  `paid` records what the
priming found: a budget pays for it. -/
structure Waiting where
  opcode : UInt8
  slot : UInt8
  msg : List UInt8
  mode : InputMode
  paid : Bool

/-- The core's own state, as the plugin reads it. -/
structure Core where
  initialized : Bool
  unlocked : Bool
  configmode : Bool
  /-- `profilemode == NONENCRYPTEDPROFILE`. -/
  nonencrypted : Bool
  /-- K132 exists: a PIN was set. -/
  k132 : Bool

/-- What the plugin sends: a report, a long answer in one piece, or a status text. -/
inductive Reply
  | report (r : Report)
  | stream (data : List UInt8)
  | text (code : UInt8)
  deriving DecidableEq

/-! ### The history -/

/-- A welded link, the head it was welded onto, its own head, and the reveal of its use. -/
structure Welded where
  link : Link
  prev : Digest
  head : Digest
  reveal : Option Digest

/-- One of the two flash sectors of the record: its first 208 bytes. -/
abbrev Sector := Bytes 208

/-- An entry of the history. -/
inductive Entry
  | link (w : Welded)
  | saved (side : Bool) (sector : Sector)
  | salt (salt : Digest)
  /-- An accepted TX start. -/
  | txStart (token : Digest) (intent : Intent)
  /-- A priming that found a budget to pay, and the head it was checked against. -/
  | primed (head subject : Digest)
  /-- A label staged for a scope, and when. -/
  | label (j : Fin 4) (label : Digest) (time : Nat)
  /-- A GRANT_CREATE took the staged labels. -/
  | consumed
  /-- An accepted request that waits for its press, and when. -/
  | asked (what : PressKind) (request : Report) (time : Nat)
  /-- The press that opened a budget, and when. -/
  | opened (p : Press) (time : Nat)
  /-- An operation ran. -/
  | ran (w : Waiting)
  /-- A backup was restored, as this record. -/
  | restored (r : EdgeState)
  | wiped
  /-- The process started anew, the write of a sector cut off if `torn`; `clean` says the
  generation had not just wrapped to 0. -/
  | boot (torn : Option (Bool × Sector)) (clean : Bool)

/-! ### The key -/

/-- The plugin's state, with the history and the clock that no function reads. -/
structure Key where
  flash : Bool → Sector
  st : EdgeState
  loaded : Bool
  ident : Option Ident
  budgets : Fin 4 → Budget
  staged : Staged
  started : Bool
  txToken : Digest
  txIntent : Intent
  txHasIntent : Bool
  nextIntent : Option Intent
  refusedTx : Nat
  held : Fin 8 → Option HeldLink
  pend : Pend
  press : Press
  userInputMode : InputMode
  waiting : Option Waiting
  core : Core
  out : List Reply
  log : List Entry
  now : Nat

namespace Key

/-- The process just started on this flash: every static is zero. -/
def fresh (flash : Bool → Sector) (core : Core) (log : List Entry) : Key where
  flash := flash
  st := EdgeState.zero
  loaded := false
  ident := none
  budgets := fun _ => Budget.blank
  staged := Staged.blank
  started := false
  txToken := Bytes.zero 32
  txIntent := Bytes.zero 16
  txHasIntent := false
  nextIntent := none
  refusedTx := 0
  held := fun _ => none
  pend := Pend.blank
  press := Press.blank
  userInputMode := .challenge
  waiting := none
  core := core
  out := []
  log := log
  now := 0

/-- An entry is added to the history. -/
def push (e : Entry) (k : Key) : Key := { k with log := e :: k.log }

/-- A reply goes out. -/
def send (r : Reply) (k : Key) : Key := { k with out := k.out ++ [r] }

/-- `status`: the text EDGE:xx. -/
def status (code : UInt8) (k : Key) : Key := k.send (.text code)

/-- `reply`: one report, zero-padded. -/
def reply (data : List UInt8) (k : Key) : Key := k.send (.report (Bytes.pack 64 data))

/-- `reply_seq_head`. -/
def replySeqHead (k : Key) : Key :=
  k.reply ((Bytes.le32 k.st.seq).toList ++ k.st.head.toList)

/-- `refuse_tx`: a refused TX start is counted, up to 255. -/
def refuseTx (code : UInt8) (k : Key) : Key :=
  { k with refusedTx := if k.refusedTx < 255 then k.refusedTx + 1 else k.refusedTx }.status code

end Key

end OkRn.Edge
