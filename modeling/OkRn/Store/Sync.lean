/-
OkRn/Store/Sync.lean

The asynchronous functions of the store: loading and saving the copy, syncing it
with the key, merging what a computer offers, and keeping what was accepted.

Every await is a place where other tasks run.  Storage is read and written at a
step of its own, so a value read may be stale by the time it is used.  What the
key, the timers and the storage answer is an `Answer`; one of the wrong kind is
a rejection.  The reading loop of a sync may go round without end, so it carries
a number of rounds, and a sync is one for some number.

The sync queue is left out here: a task may run in it or not.

Beside its view a check returns its `Basis`, for the history only.
-/
import OkRn.Lib.Task
import OkRn.Store.Check

namespace OkRn.Store

/-! ### Answers -/

/-- What the key, the timers and the storage answer. -/
inductive Answer
  | failed
  | ok
  | head (h : Head)
  | links (rs : List RawLink)
  | messages (m : Dict String)
  | budgets (ids : List Nat)
  | key (k : EdgeCopyKey)
  /-- The device ids of the stored copies. -/
  | keys (ids : List Blob)
  deriving Inhabited

/-- A function of the store, in its steps between awaits. -/
abbrev Async (α : Type) := Task Answer Session α

namespace Async

/-- Waits for a timer or a storage call. -/
def wait : Async Unit := Task.answer.bind fun a =>
  match a with
  | .failed => .fail
  | _ => .ret ()

/-- The key's head. -/
def head : Async Head := Task.answer.bind fun a =>
  match a with
  | .head h => .ret h
  | _ => .fail

/-- Its messages. -/
def messages : Async (Dict String) := Task.answer.bind fun a =>
  match a with
  | .messages m => .ret m
  | _ => .fail

/-- Its budgets. -/
def budgets : Async (List Nat) := Task.answer.bind fun a =>
  match a with
  | .budgets ids => .ret ids
  | _ => .fail

/-- What it gives beside its links. -/
def copyKey : Async EdgeCopyKey := Task.answer.bind fun a =>
  match a with
  | .key k => .ret k
  | _ => .fail

/-- The devices of the stored copies. -/
def keys : Async (List Blob) := Task.answer.bind fun a =>
  match a with
  | .keys ids => .ret ids
  | _ => .fail

/-- New objects for some links. -/
def freshRecords (raw : List RawLink) (s : Session) : List EdgeLinkRecord × Session :=
  (raw.mapIdx fun i r => { r with ref := s.nextRef + i },
    { s with nextRef := s.nextRef + raw.length })

/-- `source.read`. -/
def read : Async (List EdgeLinkRecord) := Task.answer.bind fun a =>
  match a with
  | .links rs => Task.sync (freshRecords rs)
  | _ => .fail

/-- A result that may be a throw. -/
def orThrow {α : Type} : Option α → Async α
  | some a => .ret a
  | none => .fail

end Async

/-! ### Storage -/

/-- `AsyncStorage.getItem`. -/
def getItem (id : Blob) : Async (Option StoredText) :=
  Async.wait.bind fun _ => Task.read fun s => s.storage id

/-- `AsyncStorage.setItem`. -/
def setItem (id : Blob) (text : StoredText) : Async Unit :=
  Async.wait.bind fun _ =>
    Task.modify fun s => { s with storage := Function.update s.storage id (some text) }

/-- `AsyncStorage.removeItem`. -/
def removeItem (id : Blob) : Async Unit :=
  Async.wait.bind fun _ =>
    Task.modify fun s => { s with storage := Function.update s.storage id none }

namespace Session

/-- What the stored text was when it was last read or written. -/
def setStoredText (id : Blob) (text : Option StoredText) (s : Session) : Session :=
  { s with storedText := Function.update s.storedText id text }

/-- The copy in memory. -/
def setInMemory (id : Blob) (m : Option Mirror) (s : Session) : Session :=
  { s with inMemory := Function.update s.inMemory id m }

/-- `forgetVerifiedFor`. -/
def forgetVerifiedFor (id : Blob) (s : Session) : Session :=
  (s.forgetChecked id).setInMemory id none

end Session

/-- What the stored text gives: `none` is a throw. -/
def parseMirror (id : Blob) (raw : Option StoredText) (s : Session) :
    Option Mirror × Session :=
  let copy (m : StoredMirror) (s : Session) : Option Mirror × Session :=
    let (links, s) := Async.freshRecords m.links s
    (some (m.withLinks links), s)
  match raw with
  | none => (some (emptyMirror id), s.setStoredText id none)
  | some (.json m) => copy m (s.setStoredText id (some (.json m)))
  | some (.other tag p) => match p with
    | .bad => (none, s.setStoredText id (some (.other tag p)))
    | .old => (some (emptyMirror id), s.setStoredText id none)
    | .copy m => copy m (s.setStoredText id (some (.other tag p)))

/-- `readMirror`. -/
def readMirror (id : Blob) : Async Mirror :=
  (getItem id).bind fun raw => (Task.sync (parseMirror id raw)).bind Async.orThrow

/-- `loadMirror`. -/
def loadMirror (id : Blob) : Async Mirror :=
  (Task.read fun s => s.inMemory id).bind fun kept =>
    match kept with
    | some m => .ret m
    | none => (readMirror id).bind fun m =>
        (Task.modify fun s => s.setInMemory id (some m)).bind fun _ => .ret m

/-- What a save does with the text it read back: `true` when it goes on to write. -/
def saveDecision (m : Mirror) (now : Option StoredText) (s : Session) : Bool × Session :=
  let id := m.deviceId
  if (s.inMemory id).isSome && decide (now ≠ s.storedText id) then
    (false, s.forgetVerifiedFor id)
  else (decide (now ≠ some (.json (storedForm m))), s.setInMemory id (some m))

/-- `saveMirror`. -/
def saveMirror (m : Mirror) : Async Unit :=
  (getItem m.deviceId).bind fun now => (Task.sync (saveDecision m now)).bind fun write =>
    if write then
      (setItem m.deviceId (.json (storedForm m))).bind fun _ =>
        Task.modify fun s => s.setStoredText m.deviceId (some (.json (storedForm m)))
    else .ret ()

/-- `forgetMirror`. -/
def forgetMirror (id : Blob) : Async Unit :=
  (Task.modify fun s => (s.setInMemory id none).setStoredText id none).bind fun _ => removeItem id

/-! ### The links of a sync -/

variable (L : EdgeLib)

/-- A record's seq. -/
def seqOf (r : EdgeLinkRecord) : Option Nat := (L.decodeLink r.link).map LinkFields.seq

/-- `follows`; `none` is a throw. -/
def follows (prev : Option EdgeLinkRecord) (r : EdgeLinkRecord) : Option Bool :=
  match L.decodeLink r.link with
  | none => some false
  | some f =>
      if !f.reservedZero then some false
      else match prev with
        | none => some true
        | some prev => (seqOf L prev).map fun p =>
            if f.seq ≤ p then false
            else f.seq != p + 1 || L.weld prev.head r.link == r.head

/-- The records of a copy, newest first, that stay when its strays are set aside. -/
def strays (keySeq verified : Int) : List EdgeLinkRecord → Option (List EdgeLinkRecord)
  | [] => some []
  | r :: rest =>
      let below := match seqOf L r with
        | none => false
        | some seq => decide ((seq : Int) ≤ keySeq) || decide ((seq : Int) ≤ verified)
      if below then some (r :: rest)
      else match rest with
        | [] => some []
        | prev :: _ => do
            let p ← seqOf L prev
            if seqOf L r = some (p + 1) ∧ (← follows L (some prev) r) then some (r :: rest)
            else strays keySeq verified rest

/-- `setAsideStrays`. -/
def setAsideStrays (mirror : Mirror) (keySeq : Int) (now : Nat) : Option Mirror :=
  let verified := (mirror.lastSeen.map Seen.seq).getD (-1)
  (strays L keySeq verified mirror.links.reverse).map fun kept =>
    let popped := mirror.links.reverse.take (mirror.links.length - kept.length)
    { mirror with
      links := kept.reverse
      setAside := mirror.setAside ++ popped.map fun r => ⟨r.link, r.head, now⟩ }

/-- The first time this phone stored a link. -/
def markSeen (now : Nat) (seen : Dict Nat) (seq : Nat) : Dict Nat :=
  seen.set seq ((seen.get seq).getD now)

/-- One batch of a sync: the copy with the links that follow, and whether all of them did. -/
def takeBatch (head : Head) (now : Nat) : Mirror → List EdgeLinkRecord → Option (Mirror × Bool)
  | mirror, [] => some (mirror, true)
  | mirror, r :: rs => do
      let seq ← seqOf L r
      if head.seq < (seq : Int) then some (mirror, false)
      else
        let last := mirror.links.getLast?
        if ← follows L last r then
          takeBatch head now
            { mirror with links := mirror.links ++ [r], seen := markSeen now mirror.seen seq } rs
        else match last with
          | none => some (mirror, false)
          | some last =>
              let lastSeq ← seqOf L last
              if lastSeq < seq then some (mirror, false) else takeBatch head now mirror rs

/-- The reading loop of a sync, for at most `rounds` rounds. -/
def readLinks (head : Head) (now : Nat) : Nat → Mirror → Int → Async Mirror
  | 0, _, _ => .fail
  | rounds + 1, mirror, next =>
      if head.seq < next then .ret mirror
      else Async.read.bind fun got => match got.getLast? with
        | none => .ret mirror
        | some last => (Async.orThrow (takeBatch L head now mirror got)).bind fun (mirror, welded) =>
            if !welded then .ret mirror
            else (Async.orThrow (seqOf L last)).bind fun seq =>
              readLinks head now rounds mirror (seq + 1)

/-! ### The check of a sync -/

/-- Does the key give its public key? -/
structure Source where
  deviceId : Blob
  hasCopyKey : Bool

/-- `source.copyKey`, with a failure as null. -/
def Source.copyKey (source : Source) : Async (Option EdgeCopyKey) :=
  if source.hasCopyKey then (Async.copyKey.bind fun k => .ret (some k)).orElse (.ret none)
  else .ret none

/-- The ring the key still holds. -/
def readRing (head : Head) : Async (List EdgeLinkRecord) :=
  if 0 ≤ head.seq then Async.read else .ret []

/-- A synchronous check, with a throw as a failure. -/
def evaluate (mirror : Mirror) (head : Head) (held : List EdgeLinkRecord)
    (key : Option EdgeCopyKey) : Async (EdgeView × Basis) :=
  (Task.sync fun s =>
      let (o, s') := evaluateWith L mirror (some head) held key false s
      ((o, basisOf s mirror head key), s')).bind fun (o, basis) =>
    match o with
    | .view v => .ret (v, basis)
    | _ => .fail

/-- The quick path of `liveView`: a view, or `none` when the full check is needed. -/
def quickCheck (mirror : Mirror) (head : Head) (key : Option EdgeCopyKey) (s : Session) :
    Option Outcome × Session :=
  if shortPath s mirror head then
    match evaluateWith L mirror (some head) [] key true s with
    | (.view v, s') =>
        if s'.lastCheck ≠ some .full then (some (.view v), s')
        else (none, s'.forgetChecked mirror.deviceId)
    | (.threw, s') => (some .threw, s')
    | (.needsFull, s') => (none, s'.forgetChecked mirror.deviceId)
  else (none, s)

/-- The full check of `liveView`, and once more when no signature was checked. -/
def fullView (source : Source) (mirror : Mirror) (head : Head) (key : Option EdgeCopyKey) :
    Async (EdgeView × Basis) :=
  let again : Async (Option EdgeCopyKey) :=
    if key.isSome && (key.bind EdgeCopyKey.checkpoint).isNone && source.hasCopyKey then
      (Async.copyKey.bind fun k => .ret (some k)).orElse (.ret key)
    else .ret key
  again.bind fun full => (readRing head).bind fun ring =>
    (evaluate L mirror head ring full).bind fun (view, basis) =>
      if !view.verdict.isUnsigned || !source.hasCopyKey then .ret (view, basis)
      else Async.head.bind fun head₂ => source.copyKey.bind fun key₂ =>
        (readRing head₂).bind fun ring₂ => evaluate L mirror head₂ ring₂ key₂

/-- `liveView`, once the head and the key are known. -/
def liveViewOf (source : Source) (mirror : Mirror) (head : Head) (key : Option EdgeCopyKey) :
    Async (EdgeView × Basis) :=
  Async.wait.bind fun _ => Async.wait.bind fun _ =>
    (Task.sync fun s =>
        ((quickCheck L mirror head key s).1.map fun o => (o, basisOf s mirror head key),
          (quickCheck L mirror head key s).2)).bind fun quick =>
      match quick with
      | some (.view v, basis) => .ret (v, basis)
      | some _ => .fail
      | none => fullView L source mirror head key

/-- The key that `liveView` goes by: the caller's, or one that it asks for itself, where a failure
is a throw. -/
def Source.keyOr (source : Source) : Option EdgeCopyKey → Async (Option EdgeCopyKey)
  | some key => .ret (some key)
  | none => if source.hasCopyKey then Async.copyKey.bind fun k => .ret (some k) else .ret none

/-- `liveView` of a copy, with nothing known. -/
def liveView (source : Source) (mirror : Mirror) : Async (EdgeView × Basis) :=
  Async.head.bind fun head =>
    (source.keyOr none).bind fun key => liveViewOf L source mirror head key

/-! ### A sync -/

/-- `continuedFrom`, over the other stored copies. -/
def continuedOf (link : EdgeLinkRecord) (oldSeq : Int) (others : Bool) :
    Option ContinueCheck → List Blob → Async ContinueCheck
  | unverifiable, [] => .ret (unverifiable.getD
      ⟨false, none, oldSeq, none, some (if others then "no-match" else "no-old-copy")⟩)
  | unverifiable, id :: ids => (loadMirror id).bind fun old =>
      let r := L.checkContinue link.link old.deviceId old.links
      if r.ok then .ret { r with fromDeviceId := some old.deviceId, reason := none }
      else continuedOf link oldSeq others
        (if r.reason = some "unverifiable" then
          some ⟨false, some old.deviceId, r.oldSeq, none, some "unverifiable"⟩
        else unverifiable) ids

/-- `continuedFrom`. -/
def continuedFrom (mirror : Mirror) : Async (Option ContinueCheck) :=
  match mirror.links.head?.bind fun r => (L.decodeLink r.link).map fun f => (r, f) with
  | none => .ret none
  | some (r, f) =>
      if f.op ≠ Edge.opContinue then .ret none
      else Async.keys.bind fun ids =>
        let others := ids.filter fun id => id != mirror.deviceId
        (continuedOf L r ((f.seq : Int) - 1) (!others.isEmpty) none others).bind fun c =>
          .ret (some c)

/-- The copy with the public keys the key gave. -/
def Mirror.keepKeys (key : Option EdgeCopyKey) (mirror : Mirror) : Mirror :=
  match key.bind EdgeCopyKey.publicKey with
  | some publicKey =>
      { mirror with
        publicKey := some publicKey
        publicKeyPq := key.bind EdgeCopyKey.publicKeyPq }
  | none => mirror

/-- `lastSeen` is kept only when the copy verified, around its gap or in full. -/
def Mirror.saw (head : Head) (view : EdgeView) (mirror : Mirror) : Mirror :=
  if view.verdict.isVerified || view.verdict.isGap then
    { mirror with lastSeen := some ⟨head.seq, head.head⟩ }
  else mirror

/-- A seal is taken after a verified check, when the key gave a checkpoint and its budgets. -/
def sealAfter (mirror : Mirror) (head : Head) (key : Option EdgeCopyKey)
    (live : Option (List Nat)) (view : EdgeView) (basis : Basis) (s : Session) :
    Mirror × Session :=
  match live, key with
  | some live, some key => match key.checkpoint with
    | some cp =>
        if view.verdict.isVerified && takesSeal L mirror head cp live then
          (takeSeal L mirror head cp live,
            s.log (.sealed mirror head key basis (sealOf L mirror cp live)))
        else (mirror, s)
    | none => (mirror, s)
  | _, _ => (mirror, s)

/-- The first half of a sync: the key's head, and the links the copy lacks. -/
def syncLinks (now rounds : Nat) (mirror : Mirror) : Async (Mirror × Head) :=
  Async.head.bind fun head =>
    (Async.orThrow (setAsideStrays L mirror head.seq now)).bind fun mirror =>
      let lastHeld : Async Int := match mirror.links.getLast? with
        | none => .ret (-1)
        | some last => (Async.orThrow (seqOf L last)).bind fun seq => .ret seq
      lastHeld.bind fun held =>
        (readLinks L head now rounds mirror (max (held + 1) head.ringFrom)).bind fun mirror =>
          .ret (mirror, head)

/-- The check of a sync, and the seal after it; with no key from the sync the check asks for one,
and no seal is taken. -/
def checkAndSeal (source : Source) (mirror : Mirror) (head : Head) (key : Option EdgeCopyKey)
    (live : Option (List Nat)) : Async (Mirror × EdgeView) :=
  ((source.keyOr key).bind fun known =>
      liveViewOf L source mirror head known).bind fun (view, basis) =>
    (Task.sync (sealAfter L (Mirror.saw head view mirror) head key live view basis)).bind
      fun mirror => .ret (mirror, view)

/-- The second half of a sync: the budgets, the key, and the check. -/
def syncCheck (source : Source) (now : Nat) (mirror : Mirror) (head : Head) :
    Async (Mirror × EdgeView) :=
  (((Async.budgets.bind fun ids => .ret (some ids)).orElse (.ret none)) :
      Async (Option (List Nat))).bind fun live =>
    source.copyKey.bind fun key =>
      let mirror := Mirror.keepKeys key mirror
      let continued : Async (Option ContinueCheck) :=
        if mirror.continued.isSome then .ret mirror.continued else continuedFrom L mirror
      continued.bind fun continued =>
        checkAndSeal L source { mirror with continued := continued, lastSync := some now } head key
          live

/-- `syncNow`. -/
def syncNow (source : Source) (now rounds : Nat) : Async (Mirror × EdgeView) :=
  (loadMirror source.deviceId).bind fun mirror =>
    (syncLinks L now rounds mirror).bind fun (mirror, head) =>
      Async.messages.bind fun messages =>
        (syncCheck L source now
            { mirror with messages := Dict.spread mirror.messages messages } head).bind
          fun (mirror, view) => (saveMirror mirror).bind fun _ => .ret (mirror, view)

/-! ### Notes, offered links and merges -/

/-- A note of a paired computer. -/
structure EdgeNote where
  computer : String
  seq : Nat
  reason : Option String
  receiptMsg : Option String
  txRefused : Option String

/-- The keep rule: the first text stays, unless it does not match and the new one does. -/
def keepText (was : Option String) (text : String) (matched : String → Bool) : String :=
  match was with
  | none => text
  | some was => if was != text && !matched was && matched text then text else was

/-- The first link at a seq; the outer `none` is a throw. -/
def findSeq (seq : Nat) : List EdgeLinkRecord → Option (Option LinkFields)
  | [] => some none
  | r :: rs => do
      let f ← L.decodeLink r.link
      if f.seq = seq then some (some f) else findSeq seq rs

/-- Does a text hash to the intent welded into a use? -/
def intentMatches (use : Option LinkFields) (text : String) : Bool :=
  (use.bind LinkFields.intent) == some (L.intentOf text)

/-- The reason of a note. -/
def noteReason (n : EdgeNote) (now : Nat) (use : Option LinkFields) (m : Mirror) : Mirror :=
  match n.reason with
  | none => m
  | some text =>
      let was := (m.reasons.get n.seq).map Reason.text
      if some (keepText was text (intentMatches L use)) ≠ was then
        { m with reasons := m.reasons.set n.seq ⟨n.computer, text, now⟩ }
      else m

/-- The receipt message of a note. -/
def noteMessage (n : EdgeNote) (m : Mirror) : Mirror :=
  match n.receiptMsg with
  | none => m
  | some text =>
      let kept := keepText (m.messages.get n.seq) text (L.messageMatches m.links n.seq)
      { m with messages := m.messages.set n.seq kept }

/-- The refusal of a note; the newest 50 stay. -/
def noteRefusal (n : EdgeNote) (now : Nat) (m : Mirror) : Mirror :=
  match n.txRefused with
  | none => m
  | some status =>
      let all := m.refusals ++ [⟨n.computer, n.seq, status, now⟩]
      { m with refusals := all.drop (all.length - 50) }

/-- What a note does to a copy; `none` is a throw. -/
def noted (n : EdgeNote) (now : Nat) (m : Mirror) : Option Mirror :=
  (findSeq L n.seq m.links).map fun use =>
    noteRefusal n now (noteMessage L n (noteReason L n now use m))

/-- `addNoteNow`. -/
def addNote (id : Blob) (n : EdgeNote) (now : Nat) : Async Unit :=
  (loadMirror id).bind fun m => (Async.orThrow (noted L n now m)).bind saveMirror

/-- The seqs of some records; `none` is a throw. -/
def seqsIn : List EdgeLinkRecord → Option (List Nat)
  | [] => some []
  | r :: rs => (seqOf L r).bind fun seq => (seqsIn rs).map fun seqs => seq :: seqs

/-- The copy with offered links merged in. -/
def withMerged (m : Merge) (now : Nat) (mirror : Mirror) : Option Mirror :=
  (seqsIn L m.added).map fun seqs =>
    { mirror with links := m.links, seen := seqs.foldl (markSeen now) mirror.seen }

/-- `mergeOffered`: the candidate, what the merge gave, and its check. -/
def mergeOffered (source : Source) (offered : List EdgeLinkRecord) (now : Nat) :
    Async (Mirror × Merge × EdgeView × Basis) :=
  (loadMirror source.deviceId).bind fun mirror =>
    let m := L.merge mirror.links offered
    (Async.orThrow (withMerged L m now mirror)).bind fun candidate =>
      (liveView L source candidate).bind fun (view, basis) => .ret (candidate, m, view, basis)

/-- `keepOfferedNow`; a fork keeps nothing. -/
def keepOffered (id : Blob) (added : List EdgeLinkRecord) (now : Nat) : Async Unit :=
  (loadMirror id).bind fun mirror =>
    let m := L.merge mirror.links added
    if !m.conflicts.isEmpty then .fail
    else (Async.orThrow (withMerged L m now mirror)).bind saveMirror

/-- `keepMergedNow`. -/
def keepMerged (id publicKey publicKeyPq : Blob) (added : List EdgeLinkRecord)
    (point : MergePoint) (now : Nat) : Async Unit :=
  (loadMirror id).bind fun mirror =>
    let m := L.merge mirror.links added
    if !m.conflicts.isEmpty then .fail
    else (Async.orThrow (withMerged L m now mirror)).bind fun mirror => saveMirror
      { mirror with
        publicKey := some publicKey
        publicKeyPq := some publicKeyPq
        merged := oneAnchor MergePoint.dropPq (mirror.merged ++ [point])
        lastSync := some now }

/-- `keepSeenNow`. -/
def keepSeen (id : Blob) (seen : Dict Nat) : Async Unit :=
  (loadMirror id).bind fun mirror => saveMirror
    { mirror with seen := Dict.spread mirror.seen (seen.filter fun x => decide (0 < x.2)) }

/-! ### A computer's COMMIT -/

/-- What a COMMIT comes to. -/
inductive Committed
  | fork
  | copyUnverified
  | taken
  deriving DecidableEq

/-- The seqs the rows of a view call verified. -/
def EdgeView.verifiedSeqs (v : EdgeView) : List Nat :=
  (v.rows.filter EdgeRow.verified).map EdgeRow.seq

/-- `handleSync` on a COMMIT, once every part is here. -/
def handleCommit (source : Source) (offered : List EdgeLinkRecord) (now rounds : Nat) :
    Async Committed :=
  (mergeOffered L source offered now).bind fun (candidate, m, view, basis) =>
    if !m.conflicts.isEmpty then .ret .fork
    else if !m.added.isEmpty && !view.verdict.isVerified && !view.verdict.isGap then
      .ret .copyUnverified
    else (Async.orThrow (seqsIn L m.added)).bind fun seqs =>
      if seqs.any fun seq => !view.verifiedSeqs.contains seq then .ret .copyUnverified
      else if m.added.isEmpty then .ret .taken
      else
        (Task.modify fun s => s.log (.kept candidate basis view.verifiedSeqs m.added)).bind fun _ =>
          (keepOffered L source.deviceId m.added now).bind fun _ =>
            ((syncNow L source now rounds).bind fun _ => .ret Committed.taken).orElse (.ret .taken)

/-! ### Testing mode -/

/-- The ways testing mode edits a copy; `stray` appends junk. -/
inductive Tamper
  | flip | delete | swap | truncate | forget | receipt
  | stray (junk : RawLink)

/-- One bit of byte 20 of a link changed. -/
def flipBit (link : Blob) : Blob := link.modify 20 fun b => b ^^^ 1

/-- The record at `i` replaced by a new object with one bit changed. -/
def flipped (i : Nat) (links : List EdgeLinkRecord) (s : Session) :
    List EdgeLinkRecord × Session :=
  (links.modify i fun r => { r with link := flipBit r.link, ref := s.nextRef },
    { s with nextRef := s.nextRef + 1 })

/-- The links after an edit; `none` is a throw. -/
def tampered (how : Tamper) (links : List EdgeLinkRecord) (s : Session) :
    Option (List EdgeLinkRecord) × Session :=
  let mid := links.length / 2
  match how with
  | .stray junk =>
      (some (links ++ [{ junk with ref := s.nextRef }]), { s with nextRef := s.nextRef + 1 })
  | .forget => (some links, s)
  | .flip => let (links, s) := flipped mid links s; (some links, s)
  | .receipt => match decodeAll L links with
    | none => (none, s)
    | some decoded =>
        -- the newest receipt
        match decoded.reverse.findIdx? fun x => x.2.op == Edge.opReceipt with
        | none => (some links, s)
        | some n => let (links, s) := flipped (links.length - 1 - n) links s; (some links, s)
  | .delete => (some (links.eraseIdx mid), s)
  | .swap => match links[mid]?, links[mid + 1]? with
    | some a, some b => (some ((links.set mid b).set (mid + 1) a), s)
    | _, _ => (some links, s)
  | .truncate => (some (links.take (links.length - 2)), s)

/-- The edit adds a link. -/
def Tamper.appends : Tamper → Bool
  | stray _ => true
  | _ => false

/-- `tamperNow`; a copy of fewer than three links is only ever appended to. -/
def tamper (id : Blob) (how : Tamper) : Async Mirror :=
  (loadMirror id).bind fun m => match how with
    | .forget => (forgetMirror id).bind fun _ => loadMirror id
    | how =>
        if !how.appends && decide (m.links.length < 3) then .ret m
        else (Task.sync (tampered L how m.links)).bind fun links =>
          (Async.orThrow links).bind fun links =>
            (saveMirror { m with links := links }).bind fun _ => .ret { m with links := links }

/-! ### A session -/

/-- What can be called in a session. -/
inductive StoreCall : Task Answer Session Unit → Prop
  | sync (source : Source) (now rounds : Nat) :
      StoreCall ((syncNow L source now rounds).bind fun _ => .ret ())
  | addNote (id : Blob) (n : EdgeNote) (now : Nat) : StoreCall (addNote L id n now)
  | commit (source : Source) (offered : List EdgeLinkRecord) (now rounds : Nat) :
      StoreCall ((handleCommit L source offered now rounds).bind fun _ => .ret ())
  | mergeOffered (source : Source) (offered : List EdgeLinkRecord) (now : Nat) :
      StoreCall ((mergeOffered L source offered now).bind fun _ => .ret ())
  | keepOffered (id : Blob) (added : List EdgeLinkRecord) (now : Nat) :
      StoreCall (keepOffered L id added now)
  | keepMerged (id publicKey publicKeyPq : Blob) (added : List EdgeLinkRecord)
      (point : MergePoint) (now : Nat) :
      StoreCall (keepMerged L id publicKey publicKeyPq added point now)
  | keepSeen (id : Blob) (seen : Dict Nat) : StoreCall (keepSeen id seen)
  | tamper (id : Blob) (how : Tamper) : StoreCall ((tamper L id how).bind fun _ => .ret ())
  | load (id : Blob) : StoreCall ((loadMirror id).bind fun _ => .ret ())
  | save (m : Mirror) : StoreCall (saveMirror m)
  | forgetMirror (id : Blob) : StoreCall (forgetMirror id)
  | forgetVerifiedFor (id : Blob) : StoreCall (Task.modify fun s => s.forgetVerifiedFor id)
  | liveView (source : Source) (mirror : Mirror) :
      StoreCall ((liveView L source mirror).bind fun _ => .ret ())
  | liveViewOf (source : Source) (mirror : Mirror) (head : Head) (key : Option EdgeCopyKey) :
      StoreCall ((liveViewOf L source mirror head key).bind fun _ => .ret ())
  | evaluate (mirror : Mirror) (head : Head) (held : List EdgeLinkRecord)
      (key : Option EdgeCopyKey) :
      StoreCall ((evaluate L mirror head held key).bind fun _ => .ret ())

/-- An edit of a stored text from outside the app. -/
inductive OutsideEdit (s : Session) : Session → Prop
  | edit (id : Blob) (text : Option StoredText) :
      OutsideEdit s { s with storage := Function.update s.storage id text }

/-- A session just started, on what is stored. -/
def Session.start (storage : Blob → Option StoredText) : Session where
  storage := storage
  inMemory := fun _ => none
  storedText := fun _ => none
  verifiedNow := fun _ => none
  lastCheck := none
  nextRef := 0
  history := []

/-- The pools of a session: any calls, interleaved in any way, with any answers and edits. -/
def InSession (w : Pool Answer Session) : Prop :=
  ∃ storage, Pool.Runs (StoreCall L) OutsideEdit ⟨Session.start storage, []⟩ w

end OkRn.Store
