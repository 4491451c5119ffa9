/-
OkRn/Bt/Gate.lean

The phone's side of Bluetooth pairing: the paired computers, the sessions, the
pairing window.

Every function runs without a break from one await to the next, so the gate is a
machine whose events are these pieces.  A hello is checked, then stored, then its
session opens; a confirmed pairing is taken, then stored, then acknowledged.  In
between anything else may happen.

The pairing steps and the crypto are the library's.  A session is an object: `nr`
is which one, and a renewal offer belongs to the object.
-/
import Mathlib.Logic.Function.Basic
import Mathlib.Data.List.Nodup

namespace OkRn.Bt

/-- The bytes of a message. -/
abbrev Msg := List UInt8

/-! ### The library's part -/

/-- A paired computer. -/
structure PairRecord where
  id : String
  name : String
  mac : Option String
  cliPub : String
  ps : String
  epoch : Nat
  renewedAt : Nat
  on : Bool
  lastUsed : Option Nat
  oldPs : List (Nat × String)
  code : String
  deriving DecidableEq

/-- What a hello comes to. -/
inductive HelloResult (σ : Type)
  | silence
  /-- It proves an old secret. -/
  | alarm (id : String)
  | revoke (id : String) (byName : Bool)
  | expired (id : String)
  | session (s : σ) (record : PairRecord) (msg : Msg)

/-- The messages of a pairing, and a hello. -/
inductive MsgType
  | hello | commit | reveal | confirm | other
  deriving DecidableEq

/-- What the gate uses of the library: `σ` is a session's keys, `π` a pairing under way, `ρ` a
renewal offer. -/
structure BtLib (σ π ρ : Type) where
  msgType : Msg → MsgType
  phoneOnHello : List PairRecord → Msg → Nat → String → HelloResult σ
  phonePairOnCommit : Nat → Nat → Msg → Option (π × Msg)
  phonePairOnReveal : π → Msg → Nat → Option (π × String)
  nameOf : π → String
  phonePairApprove : π → Nat → Option String → PairRecord × Msg
  phonePairOnConfirm : PairRecord → Msg → Bool
  phonePairAck : PairRecord → Msg
  renewDue : PairRecord → Nat → Bool
  phoneRenewOffer : ρ × Msg
  phoneRenewFinish : PairRecord → ρ → Msg → Nat → Option PairRecord
  sealMsg : σ → Msg → σ × Msg
  openMsg : σ → Msg → Option (σ × Msg)

/-- The record a hello is about. -/
def HelloResult.names {σ : Type} : HelloResult σ → Option String
  | .silence => none
  | .alarm id => some id
  | .revoke id _ => some id
  | .expired id => some id
  | .session _ r _ => some r.id

/-- A hello is about a record of the store; it opens a session with one that is switched on, and
the record it leaves behind, like a renewed one, is the same one; a new pairing is switched on. -/
structure BtLib.Lawful {σ π ρ : Type} (L : BtLib σ π ρ) : Prop where
  known : ∀ {records msg now address id}, (L.phoneOnHello records msg now address).names = some id →
    ∃ x ∈ records, x.id = id
  hello : ∀ {records msg now address s r m},
    L.phoneOnHello records msg now address = .session s r m →
      (∃ x ∈ records, x.id = r.id ∧ x.on = true) ∧ r.on = true
  approve : ∀ p now address, (L.phonePairApprove p now address).1.on = true
  renew : ∀ {r offer payload now r'}, L.phoneRenewFinish r offer payload now = some r' →
    r'.id = r.id ∧ r'.on = r.on

/-! ### The state -/

/-- The paired computers, each once. -/
structure Store where
  records : List PairRecord
  nodup : (records.map PairRecord.id).Nodup

/-- What the screen shows of the pairing window. -/
inductive View
  | closed
  | waiting (until_ : Nat)
  | code (until_ : Nat) (code name address : String)
  | approved (until_ : Nat) (code name : String)
  | paired (code name : String)
  | failed (reason : String)
  deriving DecidableEq

/-- The pairing window: at most one pairing at a time, for one computer. -/
structure Pairing (π : Type) where
  until_ : Nat
  address : Option String
  lib : Option π
  pending : Option PairRecord
  view : View

/-- No window, and no pairing in it. -/
def Pairing.closed {π : Type} : Pairing π := ⟨0, none, none, none, .closed⟩

/-- A session with a computer: the library's object, the record it is for, and which object it is.
-/
structure Session (σ : Type) where
  session : σ
  id : String
  at_ : Nat
  nr : Nat

/-- A hello that was accepted and is being stored. -/
structure Hello (σ : Type) where
  address : String
  session : σ
  record : PairRecord
  msg : Msg
  nr : Nat

/-- What has happened to the pairing window. -/
inductive Step (π : Type)
  | opened (until_ : Nat)
  | closed
  | failed
  | paired
  | committed (address : String) (p : π) (now : Nat)
  | revealed (address : String) (p p' : π) (code : String) (now : Nat)
  | approved (p : π) (code : String) (r : PairRecord) (now : Nat)
  | confirmed (address : String) (r : PairRecord) (now : Nat)

/-- How a message goes over the link. -/
inductive Cmd
  | plain | sealed | pair
  deriving DecidableEq

/-- The paired computers, the sessions and their renewals, the pairing window, and what is in
flight; the rest is what the run has seen. -/
structure Gate (σ π ρ : Type) where
  records : List PairRecord
  sessions : String → Option (Session σ)
  /-- The renewal offers, by session object. -/
  renew : Nat → Option ρ
  pair : Pairing π
  /-- What was sent, newest first. -/
  sent : List (Cmd × Msg)
  hellos : List (Hello σ)
  /-- The pairings being stored. -/
  confirms : List PairRecord
  /-- Control messages of a session that wait for the store. -/
  controls : List (Session σ × Msg)
  /-- How many events there were. -/
  ticks : Nat
  /-- When a record was last revoked or switched off. -/
  lastEnd : String → Nat
  /-- When the sessions were last ended. -/
  lastEndAll : Nat
  /-- The pairing window's steps, newest first. -/
  steps : List (Step π)

variable {σ π ρ : Type}

namespace Gate

/-- The app has just started, with these pairings in the store. -/
def started (store : Store) : Gate σ π ρ where
  records := store.records
  sessions := fun _ => none
  renew := fun _ => none
  pair := Pairing.closed
  sent := []
  hellos := []
  confirms := []
  controls := []
  ticks := 1
  lastEnd := fun _ => 0
  lastEndAll := 0
  steps := []

/-- A message goes out. -/
def send (cmd : Cmd) (msg : Msg) (g : Gate σ π ρ) : Gate σ π ρ :=
  { g with sent := (cmd, msg) :: g.sent }

/-- A step of a pairing is noted. -/
def log (s : Step π) (g : Gate σ π ρ) : Gate σ π ρ := { g with steps := s :: g.steps }

/-! ### Sessions -/

/-- `dropSession`. -/
def dropSession (address : String) (g : Gate σ π ρ) : Gate σ π ρ :=
  { g with sessions := Function.update g.sessions address none }

/-- Every session with this record ends. -/
def dropSessionsOf (id : String) (g : Gate σ π ρ) : Gate σ π ρ :=
  { g with sessions := fun address => (g.sessions address).filter fun x => x.id != id }

/-- `drop`. -/
def drop (id : String) (g : Gate σ π ρ) : Gate σ π ρ :=
  { g with records := g.records.filter fun r => r.id != id }.dropSessionsOf id

/-- The record ends here, by the person or by the library's word. -/
def ended (id : String) (g : Gate σ π ρ) : Gate σ π ρ :=
  { g with lastEnd := Function.update g.lastEnd id g.ticks }

/-- `revoke`. -/
def revoke (id : String) (g : Gate σ π ρ) : Gate σ π ρ := (g.drop id).ended id

/-- `setOn`. -/
def setOn (id : String) (on : Bool) (g : Gate σ π ρ) : Gate σ π ρ :=
  let g := { g with records := g.records.map fun r => if r.id = id then { r with on := on } else r }
  if on then g else (g.dropSessionsOf id).ended id

/-- `endSessions`. -/
def endSessions (g : Gate σ π ρ) : Gate σ π ρ :=
  { g with sessions := fun _ => none, lastEndAll := g.ticks }

/-- `linkGone`. -/
def linkGone (quietMs now : Nat) (g : Gate σ π ρ) : Gate σ π ρ :=
  { g with sessions := fun address =>
      (g.sessions address).filter fun x => decide (now - x.at_ < quietMs) }

/-- `ageForTest`. -/
def ageForTest (id : String) (ms : Nat) (g : Gate σ π ρ) : Gate σ π ρ :=
  { g with records := g.records.map fun r =>
      if r.id = id then { r with renewedAt := r.renewedAt - ms } else r }

/-! ### Hellos -/

/-- `onHello`, up to the store. -/
def onHello (L : BtLib σ π ρ) (msg : Msg) (now : Nat) (address : String) (g : Gate σ π ρ) :
    Gate σ π ρ :=
  match L.phoneOnHello g.records msg now address with
  | .silence => g
  | .alarm id => g.revoke id
  | .revoke id _ => g.revoke id
  | .expired id => g.revoke id
  | .session s r m =>
      { g with
        records := g.records.map fun x => if x.id = r.id then r else x
        hellos := g.hellos ++ [⟨address, s, r, m, g.ticks⟩] }

/-- The session's keys move on as it seals a message. -/
def sealFor (L : BtLib σ π ρ) (address : String) (x : Session σ) (msg : Msg) (g : Gate σ π ρ) :
    Gate σ π ρ :=
  let r := L.sealMsg x.session msg
  { g with sessions := Function.update g.sessions address (some { x with session := r.1 }) }.send
    .sealed r.2

/-- A sealed frame that carries one report. -/
def kindReport : UInt8 := 0x01

/-- A sealed frame that carries a control message. -/
def kindControl : UInt8 := 0x02

/-- A sealed frame that carries several reports, one after another. -/
def kindReports : UInt8 := 0x03

/-- The computer says that it can take packed reports. -/
def ctrlBatch : UInt8 := 0x30

/-- The computer ends its session. -/
def ctrlBye : UInt8 := 0x31

/-- `offerRenewal`. -/
def offerRenewal (L : BtLib σ π ρ) (address : String) (g : Gate σ π ρ) : Gate σ π ρ :=
  match g.sessions address with
  | none => g
  | some x =>
      let o := L.phoneRenewOffer
      { g with renew := Function.update g.renew x.nr (some o.1) }.sealFor L address x
        (kindControl :: o.2)

/-- `onHello`, once the record is stored. -/
def openSession (L : BtLib σ π ρ) (now : Nat) (h : Hello σ) (g : Gate σ π ρ) : Gate σ π ρ :=
  let x : Session σ := ⟨h.session, h.record.id, now, h.nr⟩
  let g := ({ g with sessions := Function.update g.sessions h.address (some x) }.send .pair
    h.msg).sealFor L h.address x [kindControl, ctrlBatch, 1]
  if L.renewDue h.record now then g.offerRenewal L h.address else g

/-! ### Frames -/

/-- The reports of a packed message. -/
def reportsOf (body : Msg) : Nat → List Msg
  | 0 => []
  | n + 1 => body.take 64 :: reportsOf (body.drop 64) n

/-- `onControl`, up to the store. -/
def onControl (address : String) (x : Session σ) (payload : Msg) (g : Gate σ π ρ) : Gate σ π ρ :=
  if payload.head? = some ctrlBye then g.dropSession address
  else if (g.renew x.nr).isSome then { g with controls := g.controls ++ [(x, payload)] }
  else g

/-- `onControl`, with the store read; an offer that another answer has used is gone. -/
def finishControl (L : BtLib σ π ρ) (now : Nat) (x : Session σ) (payload : Msg) (g : Gate σ π ρ) :
    Gate σ π ρ :=
  match g.records.find? fun r => r.id == x.id, g.renew x.nr with
  | some r, some offer =>
      let g := { g with renew := Function.update g.renew x.nr none }
      match L.phoneRenewFinish r offer payload now with
      | some r' => { g with records := g.records.map fun y => if y.id = r.id then r' else y }
      | none => g
  | _, _ => g

/-- `handle` of a sealed frame: what the session makes of it, and the reports for the key. -/
def onSealed (L : BtLib σ π ρ) (address : String) (bytes : Msg) (now : Nat) (g : Gate σ π ρ) :
    Gate σ π ρ × List Msg :=
  match g.sessions address with
  | none => (g.dropSession address, [])
  | some x =>
      let g := { g with
        sessions := Function.update g.sessions address (some { x with at_ := now }) }
      match L.openMsg x.session bytes with
      | none => (g, [])
      | some (s, pt) =>
          let x := { x with at_ := now, session := s }
          let g := { g with sessions := Function.update g.sessions address (some x) }
          let kind := pt.head?
          let body := pt.drop 1
          if kind = some kindReport then (g, [body])
          else if kind = some kindReports then
            if body.length < 2 * 64 ∨ body.length % 64 ≠ 0 then (g, [])
            else (g, reportsOf body (body.length / 64))
          else if kind = some kindControl then (g.onControl address x body, [])
          else (g, [])

/-- `outgoing`, of a report for a session. -/
def outgoing (L : BtLib σ π ρ) (address : String) (report : Msg) (now : Nat) (g : Gate σ π ρ) :
    Gate σ π ρ × Option Msg :=
  match g.sessions address with
  | none => (g, none)
  | some x =>
      (g.sealFor L address { x with at_ := now } (kindReport :: report),
        some (L.sealMsg x.session (kindReport :: report)).2)

/-! ### The pairing window -/

/-- `pairWindowOpen`. -/
def pairWindowOpen (now : Nat) (g : Gate σ π ρ) : Bool :=
  (match g.pair.view with
    | .closed | .paired _ _ | .failed _ => false
    | _ => true) && decide (now < g.pair.until_)

/-- `openPairWindow`; the window is two minutes or so. -/
def openPairWindow (now window : Nat) (g : Gate σ π ρ) : Gate σ π ρ :=
  { g with pair := ⟨now + window, none, none, none, .waiting (now + window)⟩ }.log
    (.opened (now + window))

/-- `closePairWindow`. -/
def closePairWindow (g : Gate σ π ρ) : Gate σ π ρ := { g with pair := Pairing.closed }.log .closed

/-- COMMIT. -/
def onCommit (L : BtLib σ π ρ) (msg : Msg) (now : Nat) (address : String) (g : Gate σ π ρ) :
    Gate σ π ρ :=
  if g.pair.address.isSome ∧ g.pair.address ≠ some address then g
  else match L.phonePairOnCommit g.pair.until_ now msg with
    | none => g
    | some (p, answer) =>
        (({ g with pair := { g.pair with
              address := some address
              lib := some p
              view := .waiting g.pair.until_ } }).send .pair answer).log
          (.committed address p now)

/-- REVEAL. -/
def onReveal (L : BtLib σ π ρ) (p : π) (msg : Msg) (now : Nat) (address : String)
    (g : Gate σ π ρ) : Gate σ π ρ :=
  match L.phonePairOnReveal p msg now with
  | none =>
      { g with pair := { g.pair with
          lib := none
          view := .failed "the computer did not keep to what it committed to" } }.log .failed
  | some (p', code) =>
      { g with pair := { g.pair with
          lib := some p'
          view := .code g.pair.until_ code (L.nameOf p') address } }.log
        (.revealed address p p' code now)

/-- CONFIRM, up to the store; pairing again replaces the old pairing. -/
def onConfirm (L : BtLib σ π ρ) (r : PairRecord) (msg : Msg) (now : Nat) (address : String)
    (g : Gate σ π ρ) : Gate σ π ρ :=
  if L.phonePairOnConfirm r msg then
    let g := g.drop r.id
    ({ g with
      records := g.records ++ [r]
      confirms := g.confirms ++ [r] }).log (.confirmed address r now)
  else g

/-- CONFIRM, once the record is stored. -/
def acknowledge (L : BtLib σ π ρ) (r : PairRecord) (g : Gate σ π ρ) : Gate σ π ρ :=
  (({ g with pair := ⟨0, none, none, none, .paired r.code r.name⟩ }).send .pair
    (L.phonePairAck r)).log .paired

/-- `onPairMessage`, with the store read. -/
def onPairMessage (L : BtLib σ π ρ) (msg : Msg) (now : Nat) (address : String) (g : Gate σ π ρ) :
    Gate σ π ρ :=
  if L.msgType msg = .hello then g.onHello L msg now address
  else if g.pairWindowOpen now = false then g
  else if L.msgType msg = .commit then g.onCommit L msg now address
  else if g.pair.address ≠ some address then g
  else match L.msgType msg, g.pair.lib, g.pair.pending with
    | .reveal, some p, _ => g.onReveal L p msg now address
    | .confirm, _, some r => g.onConfirm L r msg now address
    | _, _, _ => g

/-- `approvePairing`. -/
def approvePairing (L : BtLib σ π ρ) (now : Nat) (g : Gate σ π ρ) : Gate σ π ρ :=
  match g.pairWindowOpen now, g.pair.view, g.pair.lib with
  | true, .code _ code name _, some p =>
      let a := L.phonePairApprove p now g.pair.address
      (({ g with pair := { g.pair with
            lib := none
            pending := some a.1
            view := .approved g.pair.until_ code name } }).send .pair a.2).log
        (.approved p code a.1 now)
  | _, _, _ => g

end Gate

/-! ### Events -/

/-- The pieces between two awaits, and what the person and the link do. -/
inductive Event
  /-- A pairing or hello message. -/
  | pairMessage (msg : Msg) (address : String) (now : Nat)
  /-- The save of a hello is done. -/
  | saved (i : Nat) (now : Nat)
  /-- It failed. -/
  | unsaved (i : Nat)
  /-- The save of a pairing is done. -/
  | confirmSaved (i : Nat)
  | confirmUnsaved (i : Nat)
  | sealed (bytes : Msg) (address : String) (now : Nat)
  | control (i : Nat) (now : Nat)
  | outgoing (report : Msg) (address : String) (now : Nat)
  | setOn (id : String) (on : Bool)
  | revoke (id : String)
  | endSessions
  | linkGone (quietMs now : Nat)
  | ageForTest (id : String) (ms : Nat)
  | openPairWindow (now window : Nat)
  | closePairWindow
  | approvePairing (now : Nat)

namespace Gate

/-- What an event does, but for the count of events. -/
def act (L : BtLib σ π ρ) (g : Gate σ π ρ) : Event → Gate σ π ρ
  | .pairMessage msg address now => g.onPairMessage L msg now address
  | .saved i now => match g.hellos[i]? with
    | some h => ({ g with hellos := g.hellos.eraseIdx i }).openSession L now h
    | none => g
  | .unsaved i => { g with hellos := g.hellos.eraseIdx i }
  | .confirmSaved i => match g.confirms[i]? with
    | some r => ({ g with confirms := g.confirms.eraseIdx i }).acknowledge L r
    | none => g
  | .confirmUnsaved i => { g with confirms := g.confirms.eraseIdx i }
  | .sealed bytes address now => (g.onSealed L address bytes now).1
  | .control i now => match g.controls[i]? with
    | some (x, payload) =>
        ({ g with controls := g.controls.eraseIdx i }).finishControl L now x payload
    | none => g
  | .outgoing report address now => (g.outgoing L address report now).1
  | .setOn id on => g.setOn id on
  | .revoke id => g.revoke id
  | .endSessions => g.endSessions
  | .linkGone quietMs now => g.linkGone quietMs now
  | .ageForTest id ms => g.ageForTest id ms
  | .openPairWindow now window => g.openPairWindow now window
  | .closePairWindow => g.closePairWindow
  | .approvePairing now => g.approvePairing L now

/-- An event, counted. -/
def step (L : BtLib σ π ρ) (g : Gate σ π ρ) (e : Event) : Gate σ π ρ :=
  let g := g.act L e
  { g with ticks := g.ticks + 1 }

end Gate

/-! ### A library without secrets -/

namespace Demo

/-- A paired computer. -/
def laptop : PairRecord := ⟨"5a", "laptop", none, "", "", 0, 0, true, none, [], "482913"⟩

/-- Messages are told apart by their first byte; a hello is good for the first record that is on. -/
def btLib : BtLib Unit Unit Unit where
  msgType msg := match msg.head? with
    | some 1 => .hello
    | some 2 => .commit
    | some 3 => .reveal
    | some 4 => .confirm
    | _ => .other
  phoneOnHello records _ now _ := match records.find? fun r => r.on with
    | some r => .session () { r with lastUsed := some now } [5]
    | none => .silence
  phonePairOnCommit _ _ _ := some ((), [6])
  phonePairOnReveal _ msg _ := if msg.length = 2 then some ((), "482913") else none
  nameOf _ := "laptop"
  phonePairApprove _ _ _ := (laptop, [7])
  phonePairOnConfirm _ msg := msg.length = 2
  phonePairAck _ := [8]
  renewDue _ _ := false
  phoneRenewOffer := ((), [9])
  phoneRenewFinish _ _ _ _ := none
  sealMsg _ msg := ((), msg)
  openMsg _ msg := some ((), msg)

/-- A library of one pairing and one session does what the gate relies on. -/
theorem btLib_lawful : btLib.Lawful where
  known := by
    intro records msg now address id h
    change (match records.find? fun r : PairRecord => r.on with
      | some r => HelloResult.session () { r with lastUsed := some now } [5]
      | none => .silence).names = _ at h
    split at h
    · rename_i x hx
      cases h
      exact ⟨x, List.mem_of_find?_eq_some hx, rfl⟩
    · cases h
  hello := by
    intro records msg now address s r m h
    change (match records.find? fun r => r.on with
      | some r => HelloResult.session () { r with lastUsed := some now } [5]
      | none => .silence) = _ at h
    split at h
    · rename_i x hx
      cases h
      have hon : x.on = true := List.find?_some hx
      exact ⟨⟨x, List.mem_of_find?_eq_some hx, rfl, hon⟩, hon⟩
    · cases h
  approve _ _ _ := rfl
  renew h := by cases h

/-- The records of that computer. -/
def store : Store := ⟨[laptop], List.nodup_singleton _⟩

end Demo

end OkRn.Bt
