/-
OkRn/KeyChain/Recorder.lean

The phone's Key Chain list, and who writes it.

The recorder reads, changes and writes the stored list, one call at a time.  The
Key Chain screen keeps a copy of the list in its own state: an action takes the copy
of the last render, changes it, and writes the whole of it.
-/
import Mathlib.Data.List.Infix

namespace OkRn.KeyChain

/-! ### Entries -/

/-- The way a derive came. -/
inductive Transport
  | vendor
  | fido
  deriving DecidableEq

/-- What the reader takes from a derive record. -/
structure DeriveRecord where
  transport : Transport
  code : Nat
  keytype : Nat
  labelHash : String
  rpIdHash : Option String
  publicKey : List UInt8

/-- What `createEntry` is given. -/
structure Fields where
  kind : String
  scheme : String := ""
  label : String
  type : String
  publicKey : List UInt8
  code : Option Nat := none
  transport : Option Transport := none
  rpIdHash : Option String := none
  rpId : Option String := none
  firstSeen : String
  lastSeen : String
  tools : List String

/-- An entry of the Key Chain. -/
structure Entry where
  id : String
  label : String
  type : String
  publicKey : List UInt8
  labelHash : Option String := none
  rpIdHash : Option String := none
  rpId : Option String := none
  lastSeen : String := ""
  tools : List String := []
  slots : List Nat := []
  deriving DecidableEq

/-- Which key an entry is for. -/
def Entry.key (x : Entry) : String × List UInt8 := (x.type, x.publicKey)

/-- A list after a merge, with what the screen says of it. -/
structure Merged where
  entries : List Entry
  added : Nat
  paired : Nat
  joined : Nat

/-- What the list's code uses of node-onlykey-lib, and the table of noted rpIds. -/
structure ListLib (Raw : Type) where
  parse : Raw → Option (List Entry)
  serialize : List Entry → Raw
  createEntry : Fields → Entry
  /-- The second entry is for the same key as the first, under another name. -/
  twin : Entry → Entry → Bool
  /-- `keychain.list.findTwin`: where a twin of the entry stands in the list. -/
  findTwin : List Entry → Entry → Option Nat
  merge : List Entry → List Entry → Merged
  rpIds : String → Option String

/-- The scheme of a derive's code. -/
def codeScheme : Nat → Option String
  | 132 => some "agent-v1"
  | 232 => some "agent-v2"
  | 128 => some "web"
  | _ => none

/-- An agent key's type. -/
def agentType : Nat → Option String
  | 1 => some "ed25519"
  | 2 => some "p256"
  | 3 => some "secp256k1"
  | 4 => some "x25519"
  | 6 => some "xwing"
  | _ => none

/-- A web key's type. -/
def webType : Nat → Option String
  | 1 | 4 => some "x25519"
  | 2 => some "p256"
  | 3 => some "secp256k1"
  | 6 => some "xwing"
  | _ => none

/-- The public key as it is kept. -/
def keptPublic (type : String) (pub : List UInt8) : List UInt8 :=
  let pub := if (type = "p256" ∨ type = "secp256k1") ∧ pub.length = 65 ∧ pub.head? = some 4
    then pub.drop 1 else pub
  if (type = "ed25519" ∨ type = "x25519") ∧ pub.length = 64 then pub.take 32 else pub

section

variable {Raw : Type} (L : ListLib Raw)

/-- The entry of a derive; none for a code or a type that is unknown. -/
def deriveEntry (r : DeriveRecord) (now : String) : Option Entry :=
  match codeScheme r.code, (if r.code = 128 then webType else agentType) r.keytype with
  | some scheme, some type =>
      some (L.createEntry
        { kind := "derived", scheme, label := "hash:" ++ r.labelHash, type
          publicKey := keptPublic type r.publicKey
          code := some r.code, transport := some r.transport
          rpIdHash := r.rpIdHash, rpId := r.rpIdHash.bind L.rpIds
          firstSeen := now, lastSeen := now, tools := ["soft key"] })
  | _, _ => none

/-- An entry that is there already is seen again. -/
def seenAgain (r : DeriveRecord) (e : Entry) (now : String) (old : Entry) : Entry :=
  { old with
    lastSeen := now
    rpIdHash := old.rpIdHash.or r.rpIdHash
    rpId := old.rpId.or e.rpId
    labelHash :=
      if old.labelHash.isNone && !"hash:".toList.isPrefixOf old.label.toList then some r.labelHash
      else old.labelHash
    -- as the `Set` that it is made from: each tool once, where it came first
    tools := (old.tools ++ ["soft key"]).eraseDups }

/-- The place of the entry that a derive is for. -/
def oldPlace (entries : List Entry) (e : Entry) : Option Nat :=
  (entries.findIdx? (·.id = e.id)).or (L.findTwin entries e)

/-- The list with an entry recorded: seen again, or added. -/
def recordIn (r : DeriveRecord) (e : Entry) (now : String) (entries : List Entry) : List Entry :=
  match oldPlace L entries e with
  | some i => entries.modify i (seenAgain r e now)
  | none => entries ++ [e]

/-- The entry of a key derived by its name. -/
def namedEntry (scheme label type : String) (publicKey : List UInt8) (tool now : String) : Entry :=
  L.createEntry
    { kind := "derived", scheme, label, type, publicKey, firstSeen := now, lastSeen := now
      tools := [tool] }

/-! ### Changes of the list -/

/-- A change of the list. -/
inductive Change
  /-- `recordDerive`. -/
  | derive (r : DeriveRecord) (now : String)
  /-- `recordNamed`. -/
  | named (scheme label type : String) (publicKey : List UInt8) (tool now : String)
  /-- The screen's derives, PGP identities and imports. -/
  | merge (made : List Entry)
  /-- `removeNow`, and the wiped slots of `writeQueue`. -/
  | remove (gone : List String)
  /-- A composite key made in a slot, in place of the one that was in it. -/
  | composite (slot : Nat) (made : Entry)

/-- A composite key that is in the slot. -/
def inSlot (slot : Nat) (x : Entry) : Bool := x.type == "composite" && x.slots.contains slot

/-- The new list, where there is one to be written. -/
def Change.next (c : Change) (entries : List Entry) : Option (List Entry) :=
  match c with
  | .derive r now => (deriveEntry L r now).map fun e => recordIn L r e now entries
  | .named scheme label type publicKey tool now =>
      let m := L.merge entries [namedEntry L scheme label type publicKey tool now]
      if m.added = 0 ∧ m.paired = 0 ∧ m.joined = 0 then none else some m.entries
  | .merge made => some (L.merge entries made).entries
  | .remove gone => some (entries.filter fun x => !gone.contains x.id)
  | .composite slot made => some (L.merge (entries.filter fun x => !inSlot slot x) [made]).entries

/-- The list after the change. -/
def Change.apply (c : Change) (entries : List Entry) : List Entry := (c.next L entries).getD entries

/-! ### The list, the recorder and the screen -/

/-- A read of the stored list: asked for, or with what was there. -/
inductive Reading (Raw : Type)
  | asked
  | got (raw : Option Raw)

/-- An action of the screen, with the copy of the list it took; once it is computed, with the list
that is being written. -/
structure Save where
  change : Change
  base : List Entry
  next : Option (List Entry) := none

/-- The stored list, the recorder's calls, and the screen. -/
structure Chain (Raw : Type) where
  raw : Option Raw
  /-- The recorder's calls in order: only the first has begun. -/
  queue : List Change := []
  /-- What the first call has read. -/
  read : Option (Option Raw) := none
  mounted : Bool := false
  /-- The screen's `entries`, and those of the last render. -/
  entries : List Entry := []
  shown : List Entry := []
  readings : List (Reading Raw) := []
  saves : List Save := []
  /-- The changes that were carried out, the first one first. -/
  done : List Change := []

/-- What can happen. -/
inductive Event
  /-- `recordDerive` or `recordNamed` is called. -/
  | record (c : Change)
  | recorderReads
  | recorderWrites
  /-- The call's read or write fails. -/
  | recorderFails
  | mount
  | unmount
  | render
  | screenReads (i : Nat)
  | screenGets (i : Nat)
  /-- The person asks for a change on the screen. -/
  | ask (c : Change)
  | compute (i : Nat)
  | lands (i : Nat)
  /-- The action or its write fails. -/
  | fails (i : Nat)

/-- The stored list; `none` where it cannot be read. -/
def listOf (raw : Option Raw) : Option (List Entry) :=
  match raw with
  | none => some []
  | some raw => L.parse raw

namespace Chain

/-- The first call of the recorder has ended. -/
def nextCall (k : Chain Raw) : Chain Raw := { k with queue := k.queue.drop 1, read := none }

/-- The listeners of a write. -/
def tell (k : Chain Raw) : Chain Raw :=
  if k.mounted then { k with readings := k.readings ++ [.asked] } else k

/-- The recorder's first call writes its list. -/
def recorderWrites (k : Chain Raw) : Chain Raw :=
  match k.queue, k.read with
  | c :: _, some raw =>
      match listOf L raw with
      | none => k.nextCall
      | some entries =>
          match c.next L entries with
          | none => { k.nextCall with done := k.done ++ [c] }
          | some next =>
              { k.nextCall with raw := some (L.serialize next), done := k.done ++ [c] }.tell
  | _, _ => k

/-- One event. -/
def step (k : Chain Raw) : Event → Chain Raw
  | .record c => { k with queue := k.queue ++ [c] }
  | .recorderReads =>
      if k.queue ≠ [] ∧ k.read.isNone then { k with read := some k.raw } else k
  | .recorderWrites => k.recorderWrites L
  | .recorderFails => k.nextCall
  | .mount =>
      { k with mounted := true, entries := [], shown := [], readings := k.readings ++ [.asked] }
  | .unmount => { k with mounted := false }
  | .render => { k with shown := k.entries }
  | .screenReads i =>
      match k.readings[i]? with
      | some .asked => { k with readings := k.readings.set i (.got k.raw) }
      | _ => k
  | .screenGets i =>
      match k.readings[i]? with
      | some (.got raw) =>
          { k with
            entries := ((raw.bind L.parse).getD k.entries), readings := k.readings.eraseIdx i }
      | _ => k
  | .ask c => { k with saves := k.saves ++ [{ change := c, base := k.shown }] }
  | .compute i =>
      match k.saves[i]? with
      | some s =>
          match s.next with
          | some _ => k
          | none =>
              let next := s.change.apply L s.base
              { k with entries := next, saves := k.saves.set i { s with next := some next } }
      | none => k
  | .lands i =>
      match k.saves[i]? with
      | some s =>
          match s.next with
          | some next =>
              { k with
                raw := some (L.serialize next), done := k.done ++ [s.change]
                saves := k.saves.eraseIdx i }
          | none => k
      | none => k
  | .fails i => { k with saves := k.saves.eraseIdx i }

end Chain

end

end OkRn.KeyChain
