/-
OkRn/Devices/Held.lean

The logs of your other devices that this phone holds for your approval.

A call reads the whole list of held logs, waits for checks, merges and notes, and
writes the whole list back.  The library that sorts a log and checks it complete
is not part of the app, so it is a parameter, `DevicesLib`; the owner key is
asked of the soft key.  A list that cannot be read is read as empty.

The texts of thrown errors, the alert `notMine` posts and the listeners are left
out.

* `holdLog`, `approveHeld`, `declineHeld` and `notMine` are the four calls that write
  the list of held logs; `HeldOp` names them as one type, with the task of each;
* `handleOffer` joins an offer with what this phone holds of the chain, and holds it;
* `judge` and `reviewHeld` say what the sheet shows, and `checksOut` whether a log
  could be merged.
-/
import OkRn.Store.Sync

namespace OkRn.Devices

open OkRn.Store

/-! ### Logs and views -/

/-- What a device's OnlyKey says of the device's own key. -/
structure Statement where
  deviceId : Blob
  publicKey : Blob
  publicKeyPq : Blob
  seq : Option Nat
  nametag : String
  signature : Blob
  signaturePq : Blob
  deriving DecidableEq

/-- A device that this phone knows, with the statements it has made. -/
structure Device where
  deviceId : Blob
  publicKey : Blob
  publicKeyPq : Blob
  since : Nat
  statements : List Statement
  deriving DecidableEq

/-- A log's newest checkpoint. -/
structure LogPoint where
  seq : Nat
  head : Blob
  signature : Blob
  signaturePq : Blob
  deriving DecidableEq

/-- A budget's opening words, as a computer sends them: JSON. -/
abbrev Opening := String

/-- The opening words that check out, as they are filed. -/
structure Words where
  grantId : Nat
  reason : String
  scopes : String
  uses : String
  genesis : String
  signature : String
  lifetime : String
  opened : Option String
  sender : String
  deriving DecidableEq

/-- A filed budget, and the fields only this phone keeps. -/
structure BudgetRecord where
  words : Words
  fields : Option String
  deriving DecidableEq

/-- The notes that come with an offered log. -/
structure HeldNotes where
  reasons : Dict String
  messages : Dict String
  seen : Option (Dict Nat)
  deriving DecidableEq

/-- A log that is held for the person's approval, with the answer it was given. -/
structure HeldLog where
  deviceId : Blob
  publicKey : Blob
  publicKeyPq : Blob
  sender : String
  time : Nat
  openings : List Opening
  notes : Option HeldNotes
  records : List RawLink
  checkpoint : LogPoint
  statement : Statement
  declined : Bool
  declinedValid : Bool
  leak : Bool
  deriving DecidableEq

/-- What the library says of a log's device. -/
inductive LogClass
  | mineKnown
  | mineNew
  | forged
  deriving DecidableEq

/-- What the sheet shows of a held log. -/
structure HeldView where
  deviceId : Blob
  nametag : Option String
  claimed : String
  logClass : LogClass
  count : Nat
  sender : String
  time : Nat
  checkOk : Bool
  alarm : Option String
  declined : Bool
  leak : Bool
  complete : Bool
  missing : List String
  deriving DecidableEq

/-- Made with your OnlyKey, its chain checks, and complete: a log that could be merged. -/
def checksOut (v : HeldView) : Bool := v.logClass != .forged && v.checkOk && v.complete

/-! ### The library -/

/-- The owner's two public keys, as the soft key gives them. -/
structure OwnerKey where
  ownerKey : Blob
  ownerKeyPq : Blob
  deriving DecidableEq

/-- What `devices.classify` is given of a log. -/
structure DeviceLog where
  deviceId : Blob
  publicKey : Blob
  publicKeyPq : Blob
  records : List EdgeLinkRecord
  checkpoint : LogPoint
  statement : Statement

/-- What the library's check of a log finds. -/
structure Classified where
  logClass : LogClass
  nametag : Option String
  ok : Bool
  alarm : Option String

/-- The library functions of `devices` the app calls; `none` is a throw. -/
structure DevicesLib where
  classify : DeviceLog → OwnerKey → List Device → List (Nat × Blob) → Classified
  remember : List Device → Statement → List Device
  checkOpenings : Blob → Blob → List EdgeLinkRecord → List Opening → Option (List Words)
  completeness : Blob → Blob → List EdgeLinkRecord → List Opening → Dict String → Dict String →
    Option (Bool × List String)

/-! ### The phone -/

/-- The storage that the calls share: the copies of the chains, the held logs, the devices, the
filed budgets. -/
structure Phone where
  session : Session
  held : Option (List HeldLog)
  devices : Option (List Device)
  budgets : Blob → Nat → Option BudgetRecord

/-- What an await comes back with: storage's answer, or the soft key's. -/
inductive PhoneAnswer
  | store (a : Answer)
  | owner (o : Option OwnerKey)
  deriving Inhabited

/-- A call on the phone, in its steps between awaits. -/
abbrev PhoneAsync (α : Type) := Task PhoneAnswer Phone α

namespace PhoneAsync

/-- A function of the store. -/
def inStore {α : Type} (t : Async α) : PhoneAsync α :=
  t.embed (fun a => match a with
    | .store a => a
    | .owner _ => .failed) Phone.session fun s p => { p with session := s }

/-- An await on storage. -/
def wait : PhoneAsync Unit := inStore Async.wait

/-- `readJson` of a list: empty when it is missing or cannot be read. -/
def readJson {α : Type} (f : Phone → Option (List α)) : PhoneAsync (List α) :=
  (wait.bind fun _ => Task.read fun p => (f p).getD []).orElse (.ret [])

/-- A result that may be a throw. -/
def orThrow {α : Type} : Option α → PhoneAsync α
  | some a => .ret a
  | none => .fail

/-- `ownerKey`. -/
def ownerKey : PhoneAsync (Option OwnerKey) := Task.answer.bind fun a =>
  match a with
  | .owner o => .ret o
  | .store _ => .ret none

end PhoneAsync

open PhoneAsync

/-- The devices that are known. -/
def loadDevices : PhoneAsync (List Device) := readJson Phone.devices

/-- The whole list of devices is written. -/
def saveDevices (list : List Device) : PhoneAsync Unit :=
  wait.bind fun _ => Task.modify fun p => { p with devices := some list }

/-- The logs that are held. -/
def loadHeld : PhoneAsync (List HeldLog) := readJson Phone.held

/-- The whole list of held logs is written. -/
def saveHeld (list : List HeldLog) : PhoneAsync Unit :=
  wait.bind fun _ => Task.modify fun p => { p with held := some list }

/-- The held log of a device. -/
def heldOf (id : Blob) (list : List HeldLog) : Option HeldLog :=
  list.find? fun h => h.deviceId == id

/-- The list without the held log of a device. -/
def without (id : Blob) (list : List HeldLog) : List HeldLog :=
  list.filter fun h => h.deviceId != id

/-- The list with the held log of a device changed. -/
def changed (id : Blob) (f : HeldLog → HeldLog) (list : List HeldLog) : List HeldLog :=
  list.map fun h => if h.deviceId == id then f h else h

section

variable {id d : Blob} {list : List HeldLog} {e : HeldLog} {f : HeldLog → HeldLog}

/-- A log that was taken out is held no more. -/
theorem heldOf_without : heldOf id (without id list) = none := by
  rw [heldOf, List.find?_eq_none]
  intro h hh
  have hne := (List.mem_filter.mp hh).2
  simpa using hne

/-- A log that was put in is the one held of its device. -/
theorem heldOf_held (he : e.deviceId = id) : heldOf id (without id list ++ [e]) = some e := by
  rw [heldOf, List.find?_append]
  have hnone : (without id list).find? (fun h => h.deviceId == id) = none := heldOf_without
  rw [hnone]
  simp [he]

/-- A change of a device's log changes just that one. -/
theorem heldOf_changed (hf : ∀ h, (f h).deviceId = h.deviceId) :
    heldOf id (changed id f list) = (heldOf id list).map f := by
  induction list with
  | nil => rfl
  | cons h hs ih =>
    simp only [heldOf, changed] at ih ⊢
    rw [List.map_cons, List.find?_cons, List.find?_cons]
    by_cases heq : h.deviceId = id
    · simp [heq, hf]
    · have hne : (h.deviceId == id) = false := by simpa using heq
      rw [hne]
      simp only [hne, Bool.false_eq_true, if_false]
      exact ih

/-! The logs of other devices stay. -/

/-- Taking a log out leaves the others. -/
theorem heldOf_without_ne (hne : d ≠ id) : heldOf d (without id list) = heldOf d list := by
  rw [heldOf, heldOf, without, List.find?_filter]
  congr 1
  funext h
  by_cases hd : h.deviceId = d
  · simp [hd, hne]
  · simp [hd]

/-- Putting one in leaves the others. -/
theorem heldOf_held_ne (hne : d ≠ id) (he : e.deviceId = id) :
    heldOf d (without id list ++ [e]) = heldOf d list := by
  rw [heldOf, List.find?_append, ← heldOf, heldOf_without_ne hne]
  have hnone : [e].find? (fun h => h.deviceId == d) = none := by
    simpa [he] using fun heq : id = d => hne heq.symm
  rw [hnone, Option.or_none]

/-- Changing one leaves the others. -/
theorem heldOf_changed_ne (hne : d ≠ id) (hf : ∀ h, (f h).deviceId = h.deviceId) :
    heldOf d (changed id f list) = heldOf d list := by
  induction list with
  | nil => rfl
  | cons h hs ih =>
    simp only [heldOf, changed] at ih ⊢
    rw [List.map_cons, List.find?_cons, List.find?_cons, ih]
    by_cases hid : h.deviceId = id
    · have hd : (id == d) = false := by simpa using fun heq : id = d => hne heq.symm
      simp [hid, hf, hd]
    · simp [hid]

end

/-! ### Judging -/

variable (L : EdgeLib) (D : DevicesLib)

/-- `recordsOf`: new objects for the records of a held log. -/
def recordsOf (h : HeldLog) : PhoneAsync (List EdgeLinkRecord) :=
  inStore (Task.sync (Async.freshRecords h.records))

/-- What this phone would hold after the merge, checked as a whole; `none` is a throw. -/
def wholeCheck (h : HeldLog) (mirror : Mirror) (records : List EdgeLinkRecord) :
    Option (Bool × List String) :=
  let reasons : Dict String := mirror.reasons.map fun x => (x.1, x.2.text)
  let notes := h.notes.getD ⟨[], [], none⟩
  (D.completeness h.deviceId h.publicKey (L.merge mirror.links records).links h.openings
    (Dict.spread reasons notes.reasons) (Dict.spread mirror.messages notes.messages)).map
      fun (ok, missing) => (ok, if ok then [] else missing)

/-- What is said when the check throws. -/
def notChecked : Bool × List String := (false, ["could not be checked"])

/-- `completenessOf`. -/
def completenessOf (h : HeldLog) : PhoneAsync (Bool × List String) :=
  ((inStore (loadMirror h.deviceId)).bind fun mirror => (recordsOf h).bind fun records =>
    orThrow (wholeCheck L D h mirror records)).orElse (.ret notChecked)

/-- How the library sorts a held log. -/
def classOf (owner : Option OwnerKey) (known : List Device) (h : HeldLog) (mirror : Mirror)
    (records : List EdgeLinkRecord) : Classified :=
  match owner with
  | some o => D.classify ⟨h.deviceId, h.publicKey, h.publicKeyPq, records, h.checkpoint,
      h.statement⟩ o known (mirror.merged.map fun m => (m.seq, m.head))
  | none => ⟨.forged, none, false, some "no-nametag"⟩

/-- What the sheet shows of a held log. -/
def viewOf (h : HeldLog) (c : Classified) (complete : Bool × List String) : HeldView where
  deviceId := h.deviceId
  nametag := c.nametag
  claimed := h.statement.nametag
  logClass := c.logClass
  count := h.records.length
  sender := h.sender
  time := h.time
  checkOk := c.ok
  alarm := if c.ok then none else some (c.alarm.getD "bad")
  declined := h.declined
  leak := h.leak
  complete := complete.1
  missing := complete.2

/-- `judge`, with the owner key and the known devices. -/
def judge (owner : Option OwnerKey) (known : List Device) (h : HeldLog) : PhoneAsync HeldView :=
  (inStore (loadMirror h.deviceId)).bind fun mirror => (recordsOf h).bind fun records =>
    (completenessOf L D h).bind fun complete =>
      .ret (viewOf h (classOf D owner known h mirror records) complete)

/-- `judge`, alone. -/
def judgeOne (h : HeldLog) : PhoneAsync HeldView :=
  ownerKey.bind fun owner => loadDevices.bind fun known => judge L D owner known h

/-- The views of all held logs, one after another. -/
def judgeAll (owner : Option OwnerKey) (known : List Device) :
    List HeldLog → PhoneAsync (List HeldView)
  | [] => .ret []
  | h :: hs => (judge L D owner known h).bind fun v =>
      (judgeAll owner known hs).bind fun vs => .ret (v :: vs)

/-- `reviewHeld`. -/
def reviewHeld : PhoneAsync (List HeldView) :=
  ownerKey.bind fun owner => loadDevices.bind fun known => loadHeld.bind fun list =>
    judgeAll L D owner known list

/-! ### Offers -/

/-- A log that a computer offers, once every part of it has come. -/
structure Offer where
  deviceId : Blob
  publicKey : Blob
  publicKeyPq : Blob
  records : List RawLink
  checkpoint : LogPoint
  statement : Statement
  sender : String
  openings : List Opening
  notes : Option HeldNotes
  deriving DecidableEq

/-- What is held of an offer. -/
def Offer.entry (o : Offer) (now : Nat) : HeldLog where
  deviceId := o.deviceId
  publicKey := o.publicKey
  publicKeyPq := o.publicKeyPq
  sender := o.sender
  time := now
  openings := o.openings.take 500
  notes := o.notes
  records := o.records
  checkpoint := o.checkpoint
  statement := o.statement
  declined := false
  declinedValid := false
  leak := false

/-- Held at the same checkpoint. -/
def Offer.same (o : Offer) (was : Option HeldLog) : Bool :=
  was.any fun w => w.checkpoint.seq == o.checkpoint.seq && w.checkpoint.head == o.checkpoint.head

/-- Older than the held log, or the same and with an answer that stays. -/
def Offer.nothingNew (o : Offer) (was : Option HeldLog) : Bool :=
  was.any (fun w => decide (o.checkpoint.seq < w.checkpoint.seq)) ||
    o.same was && was.any fun w => !w.declined || w.declinedValid || w.leak

/-- Merged already, or something newer. -/
def Offer.mergedAlready (o : Offer) (merged : List MergePoint) : Bool :=
  merged.any fun m => decide (o.checkpoint.seq < m.seq) ||
    m.seq == o.checkpoint.seq && m.head == o.checkpoint.head

/-- What the calls return. -/
inductive Outcome
  | held (held : Bool) (count : Nat)
  | merged (count : Nat)
  | done
  deriving DecidableEq

/-- `holdLog`. -/
def holdLog (o : Offer) (now : Nat) : PhoneAsync Outcome :=
  loadHeld.bind fun list =>
    let was := heldOf o.deviceId list
    if o.nothingNew was then .ret (.held false 0)
    else (inStore (loadMirror o.deviceId)).bind fun mirror =>
      if o.mergedAlready mirror.merged then .ret (.held false 0)
      else
        let entry := o.entry now
        let goodEnough : PhoneAsync Bool :=
          if o.same was then (judgeOne L D entry).bind fun v => .ret (checksOut v) else .ret true
        goodEnough.bind fun ok =>
          if !ok then .ret (.held false 0)
          else (saveHeld (without o.deviceId list ++ [entry])).bind fun _ =>
            .ret (.held true entry.records.length)

/-- An offer with what this phone holds of that chain: its copy, and the records held. -/
def Offer.joinedWith (copy heldBefore offered : List EdgeLinkRecord) (o : Offer) : Offer :=
  let before := L.merge [] (copy ++ heldBefore)
  let all := L.merge before.links offered
  { o with records := all.links.map EdgeLinkRecord.toRawLink }

/-- `handleSync` on an OFFER, once every part is here. -/
def handleOffer (o : Offer) (now : Nat) : PhoneAsync Outcome :=
  (inStore (loadMirror o.deviceId)).bind fun mirror => loadHeld.bind fun list =>
    let records := ((heldOf o.deviceId list).map HeldLog.records).getD []
    (inStore (Task.sync (Async.freshRecords records))).bind fun heldBefore =>
      (inStore (Task.sync (Async.freshRecords o.records))).bind fun offered =>
        holdLog L D (o.joinedWith L mirror.links heldBefore offered) now

/-! ### Answers -/

/-- A budget's words filed; the fields only this phone keeps stay. -/
def fileWords (id : Blob) (o : Words) (was : Option BudgetRecord) (p : Phone) : Phone :=
  let record : BudgetRecord := ⟨o, was.bind BudgetRecord.fields⟩
  let records := Function.update (p.budgets id) o.grantId (some record)
  { p with budgets := Function.update p.budgets id records }

/-- The opening words that check out, filed one by one. -/
def keepWords (id : Blob) : List Words → PhoneAsync Unit
  | [] => .ret ()
  | o :: os => (wait.bind fun _ => Task.read fun p => p.budgets id o.grantId).bind fun was =>
      (wait.bind fun _ => Task.modify (fileWords id o was)).bind fun _ => keepWords id os

/-- The opening words of a merged log, filed where they check out against the copy. -/
def keepOpenings (id publicKey : Blob) (openings : List Opening) : PhoneAsync Unit :=
  if openings.isEmpty then .ret ()
  else (inStore (loadMirror id)).bind fun mirror =>
    match D.checkOpenings id publicKey mirror.links openings with
    | none => .fail
    | some good => keepWords id good

/-- The notes of a merged log, one by one. -/
def addNotes (id : Blob) (now : Nat) : List EdgeNote → PhoneAsync Unit
  | [] => .ret ()
  | n :: ns => (inStore (addNote L id n now)).bind fun _ => addNotes id now ns

/-- The notes of a merged log: its reasons, then its messages. -/
def HeldNotes.all (notes : HeldNotes) : List EdgeNote :=
  (notes.reasons.map fun x => ⟨"", x.1, some x.2, none, none⟩) ++
    notes.messages.map fun x => ⟨"", x.1, none, some x.2, none⟩

/-- The notes of a merged log, and what was seen of it. -/
def keepNotes (id : Blob) (now : Nat) : Option HeldNotes → PhoneAsync Unit
  | none => .ret ()
  | some notes => (addNotes L id now notes.all).bind fun _ =>
      match notes.seen with
      | none => .ret ()
      | some seen => inStore (keepSeen id seen)

/-- The merge point of a held log. -/
def HeldLog.point (h : HeldLog) (now : Nat) : MergePoint :=
  ⟨h.checkpoint.seq, h.checkpoint.head, h.checkpoint.signature, some h.checkpoint.signaturePq, now⟩

/-- `approveHeld`. -/
def approveHeld (id : Blob) (isMine : Bool) (now : Nat) : PhoneAsync Outcome :=
  loadHeld.bind fun list => match heldOf id list with
    | none => .fail
    | some h => (reviewHeld L D).bind fun views =>
        match views.find? fun v => v.deviceId == id with
        | none => .fail
        | some view =>
            if view.logClass = .forged then .fail
            else if !view.checkOk then .fail
            else if view.logClass = .mineNew ∧ isMine = false then .fail
            else if !view.complete then .fail
            else (recordsOf h).bind fun records =>
              (inStore (keepMerged L h.deviceId h.publicKey h.publicKeyPq records (h.point now)
                  now)).bind fun _ =>
                loadDevices.bind fun known =>
                  (saveDevices (D.remember known h.statement)).bind fun _ =>
                    (keepOpenings D id h.publicKey h.openings).bind fun _ =>
                      (keepNotes L h.deviceId now h.notes).bind fun _ =>
                        (saveHeld (without id list)).bind fun _ =>
                          .ret (.merged records.length)

/-- `declineHeld`. -/
def declineHeld (id : Blob) : PhoneAsync Outcome :=
  loadHeld.bind fun list => match heldOf id list with
    | none => .ret .done
    | some h => (judgeOne L D h).bind fun v =>
        (saveHeld (changed id
          (fun x => { x with declined := true, declinedValid := checksOut v }) list)).bind
          fun _ => .ret .done

/-- `notMine`. -/
def notMine (id : Blob) : PhoneAsync Outcome :=
  loadHeld.bind fun list => match heldOf id list with
    | none => .ret .done
    | some _ => (saveHeld (changed id (fun x => { x with leak := true }) list)).bind fun _ =>
        .ret .done

/-- A call on held logs. -/
inductive HeldOp
  | holdLog (o : Offer) (now : Nat)
  | approveHeld (id : Blob) (isMine : Bool) (now : Nat)
  | declineHeld (id : Blob)
  | notMine (id : Blob)

/-- The device it is about. -/
def HeldOp.device : HeldOp → Blob
  | .holdLog o _ => o.deviceId
  | .approveHeld id _ _ => id
  | .declineHeld id => id
  | .notMine id => id

/-- What the call does. -/
def HeldOp.task : HeldOp → PhoneAsync Outcome
  | .holdLog o now => Devices.holdLog L D o now
  | .approveHeld id isMine now => Devices.approveHeld L D id isMine now
  | .declineHeld id => Devices.declineHeld L D id
  | .notMine id => Devices.notMine id

end OkRn.Devices
