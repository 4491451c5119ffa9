/-
OkRn/Devices/Calls.lean

The desk of one device, and the calls on the phone that it stands for.

An event of a `Desk` says at once what a call does to the held logs and to the copy of
the chain.  The calls themselves do it in steps, with awaits between them, over objects
that are new each time.  Here each call is run alone, with its copies in memory, storage
that does not fail and a soft key that answers, and leaves just the desk that the event
gives: `Desk.Of` says what of the phone a desk is.

The libraries are given objects, and go by their bytes (`GoByBytes`).  So what they say
of a log does not change when its objects are made anew (`judged_congr`), and the desk,
which numbers no objects, can be compared with the phone at all.

* `judgeAll_alone` is the sheet's view of every held log, `keepMerged_alone` the merge of
  one and `holdLog_alone` the holding of an offer;
* `handleOffer_refines`, `declineHeld_refines`, `notMine_refines` and
  `approveHeld_refines` take one event of the desk each.

What an approve keeps beside the links (opening words and notes) is not on the desk, so
the log that is approved here has none.
-/
import OkRn.Devices.Offers
import OkRn.Devices.Orders
import OkRn.Store.Queue

namespace OkRn.Devices

open OkRn.Store OkRn.Task

variable {L : EdgeLib} {D : DevicesLib} {id : Blob} {p p' : Phone} {d : Desk} {h : HeldLog}
  {mirror : Mirror} {owner : Option OwnerKey}

/-! ### Bytes and objects -/

/-- The same links and welds, whatever the objects. -/
def SameBytes (a b : List EdgeLinkRecord) : Prop :=
  a.map EdgeLinkRecord.toRawLink = b.map EdgeLinkRecord.toRawLink

/-- The libraries go by the bytes of the records that they are given. -/
structure GoByBytes (L : EdgeLib) (D : DevicesLib) : Prop where
  links : ∀ {a a' b b'}, SameBytes a a' → SameBytes b b' →
    SameBytes (L.merge a b).links (L.merge a' b').links
  conflicts : ∀ {a a' b b'}, SameBytes a a' → SameBytes b b' →
    (L.merge a b).conflicts.isEmpty = (L.merge a' b').conflicts.isEmpty
  classify : ∀ {log : DeviceLog} {rs owner known merged}, SameBytes log.records rs →
    D.classify log owner known merged = D.classify { log with records := rs } owner known merged
  completeness : ∀ {id key rs rs' openings reasons messages}, SameBytes rs rs' →
    D.completeness id key rs openings reasons messages =
      D.completeness id key rs' openings reasons messages

/-- New objects have the bytes they were made from. -/
theorem sameBytes_fresh (raw : List RawLink) (s s' : Session) :
    SameBytes (Async.freshRecords raw s).1 (Async.freshRecords raw s').1 :=
  (toRawLink_mapIdx raw s.nextRef).trans (toRawLink_mapIdx raw s'.nextRef).symm

theorem sameBytes_numbered (raw : List RawLink) (s : Session) :
    SameBytes (Async.freshRecords raw s).1 (raw.map fun r => { r with ref := 0 }) := by
  refine (toRawLink_mapIdx raw s.nextRef).trans ?_
  rw [List.map_map]
  exact (List.map_id raw).symm

/-- An offer joined with the same bytes is the same offer. -/
theorem joinedWith_congr (hbytes : GoByBytes L D) (o : Offer) {a a' b b' c c' : List EdgeLinkRecord}
    (ha : SameBytes a a') (hb : SameBytes b b') (hc : SameBytes c c') :
    o.joinedWith L a b c = o.joinedWith L a' b' c' := by
  have hcopy : SameBytes (a ++ b) (a' ++ b') := by
    simp only [SameBytes, List.map_append]
    rw [show a.map EdgeLinkRecord.toRawLink = a'.map _ from ha,
      show b.map EdgeLinkRecord.toRawLink = b'.map _ from hb]
  have hall := hbytes.links (hbytes.links (rfl : SameBytes [] []) hcopy) hc
  simp only [Offer.joinedWith]
  rw [show List.map EdgeLinkRecord.toRawLink _ = List.map EdgeLinkRecord.toRawLink _ from hall]

/-- What the phone says of a log does not depend on the objects it makes for it. -/
theorem judged_congr (hbytes : GoByBytes L D) (h : HeldLog) (mirror : Mirror)
    (hdevices : p'.devices = p.devices) :
    judged L D owner h mirror p' = judged L D owner h mirror p := by
  have hclass : classOf D owner (p'.devices.getD []) h mirror
      (Async.freshRecords h.records p'.session).1 =
        classOf D owner (p.devices.getD []) h mirror (Async.freshRecords h.records p.session).1 := by
    rw [hdevices]
    cases owner with
    | none => rfl
    | some o => exact hbytes.classify (sameBytes_fresh h.records p'.session p.session)
  have hwhole : wholeCheck L D h mirror (Async.freshRecords h.records (allocated h p').session).1 =
      wholeCheck L D h mirror (Async.freshRecords h.records (allocated h p).session).1 := by
    have hlinks : SameBytes
        (L.merge mirror.links (Async.freshRecords h.records (allocated h p').session).1).links
        (L.merge mirror.links (Async.freshRecords h.records (allocated h p).session).1).links :=
      hbytes.links rfl (sameBytes_fresh h.records _ _)
    simp only [wholeCheck]
    rw [hbytes.completeness hlinks]
  simp only [judged]
  rw [hclass, hwhole]

/-! ### The steps of the calls, alone -/

/-- The phone with other numbers for its next objects. -/
def Phone.numbered (n : Nat) (p : Phone) : Phone :=
  { p with session := { p.session with nextRef := n } }

/-- A copy that is in memory is there at once. -/
theorem load_alone (hmem : p.session.inMemory id = some mirror) :
    (PhoneAsync.inStore (loadMirror id)).Alone p mirror p := by
  refine ⟨[], fun g rest => ?_⟩
  simp only [PhoneAsync.inStore, loadMirror, Task.read, Task.bind, Task.embed, Task.solo, id_eq,
    hmem, List.nil_append]

theorem readJson_alone {α : Type} (f : Phone → Option (List α)) :
    (PhoneAsync.readJson f).Alone p ((f p).getD []) p := by
  refine ⟨[.store .ok], fun g rest => ?_⟩
  simp only [PhoneAsync.readJson, PhoneAsync.wait, PhoneAsync.inStore, Async.wait, Task.answer,
    Task.read, Task.bind, Task.embed, Task.orElse, Task.solo, id_eq, List.cons_append,
    List.nil_append]

theorem loadHeld_alone : loadHeld.Alone p (p.held.getD []) p := readJson_alone Phone.held

theorem loadDevices_alone : loadDevices.Alone p (p.devices.getD []) p :=
  readJson_alone Phone.devices

theorem saveHeld_alone (list : List HeldLog) :
    (saveHeld list).Alone p () { p with held := some list } :=
  ⟨[.store .ok], fun _ _ => rfl⟩

theorem saveDevices_alone (list : List Device) :
    (saveDevices list).Alone p () { p with devices := some list } :=
  ⟨[.store .ok], fun _ _ => rfl⟩

theorem ownerKey_alone (owner : Option OwnerKey) : PhoneAsync.ownerKey.Alone p owner p :=
  ⟨[.owner owner], fun _ _ => rfl⟩

/-- New objects are made for a log's records. -/
theorem recordsOf_alone (h : HeldLog) :
    (recordsOf h).Alone p (Async.freshRecords h.records p.session).1 (allocated h p) :=
  ⟨[], fun _ _ => rfl⟩

/-- The whole is checked; a throw is no check. -/
theorem completenessOf_alone (hmem : p.session.inMemory h.deviceId = some mirror) :
    (completenessOf L D h).Alone p
      ((wholeCheck L D h mirror (Async.freshRecords h.records p.session).1).getD notChecked)
      (allocated h p) := by
  refine ⟨[], fun g rest => ?_⟩
  simp only [completenessOf, PhoneAsync.inStore, loadMirror, Task.read, Task.bind, Task.embed,
    Task.orElse, Task.solo, id_eq, hmem, List.nil_append]
  show Task.solo (Task.bind (Task.orElse (PhoneAsync.orThrow (wholeCheck L D h mirror
    (Async.freshRecords h.records p.session).1)) _) g) rest (allocated h p) = _
  rcases wholeCheck L D h mirror (Async.freshRecords h.records p.session).1 with - | c
  · rfl
  · rfl

theorem judge_alone (hmem : p.session.inMemory h.deviceId = some mirror) :
    (judge L D owner (p.devices.getD []) h).Alone p (judged L D owner h mirror p)
      (allocated h (allocated h p)) :=
  (load_alone hmem).bind ((recordsOf_alone h).bind
    ((completenessOf_alone (p := allocated h p) hmem).bind alone_ret))

theorem judgeOne_alone (hmem : p.session.inMemory h.deviceId = some mirror)
    (owner : Option OwnerKey) :
    (judgeOne L D h).Alone p (judged L D owner h mirror p) (allocated h (allocated h p)) :=
  (ownerKey_alone owner).bind (loadDevices_alone.bind (judge_alone hmem))

/-- The copy of a log's chain, where it is in memory. -/
def Phone.copyOf (p : Phone) (h : HeldLog) : Mirror :=
  (p.session.inMemory h.deviceId).getD (emptyMirror h.deviceId)

/-- Every held log is judged, each by itself. -/
theorem judgeAll_alone (owner : Option OwnerKey) (hbytes : GoByBytes L D) {list : List HeldLog}
    (hmem : ∀ h ∈ list, (p.session.inMemory h.deviceId).isSome) :
    ∃ n, (judgeAll L D owner (p.devices.getD []) list).Alone p
      (list.map fun h => judged L D owner h (p.copyOf h) p) (p.numbered n) := by
  induction list generalizing p with
  | nil => exact ⟨p.session.nextRef, alone_ret⟩
  | cons h hs ih =>
    obtain ⟨m, hm⟩ := Option.isSome_iff_exists.mp (hmem h List.mem_cons_self)
    obtain ⟨n, hn⟩ := ih (p := allocated h (allocated h p)) fun x hx =>
      hmem x (List.mem_cons_of_mem _ hx)
    refine ⟨n, (judge_alone hm).bind (hn.bind ?_)⟩
    -- the views of the rest are as they were before this one
    have hrest : hs.map (fun x => judged L D owner x
        ((allocated h (allocated h p)).copyOf x) (allocated h (allocated h p))) =
          hs.map fun x => judged L D owner x (p.copyOf x) p :=
      List.map_congr_left fun x _ => judged_congr hbytes x (p.copyOf x) rfl
    have hcopy : p.copyOf h = m := by simp [Phone.copyOf, hm]
    rw [hrest, List.map_cons, hcopy]
    exact alone_ret

/-! ### A save of the copy, alone -/

/-- An item of storage is read. -/
theorem getItem_alone (id : Blob) :
    (PhoneAsync.inStore (getItem id)).Alone p (p.session.storage id) p :=
  ⟨[.store .ok], fun _ _ => rfl⟩

/-- The session is changed at once. -/
theorem sync_alone {α : Type} (f : Session → α × Session) :
    (PhoneAsync.inStore (Task.sync f)).Alone p (f p.session).1
      { p with session := (f p.session).2 } :=
  ⟨[], fun _ _ => rfl⟩

/-- A copy that was not edited outside is saved: it is in memory, and the text that is known of it
is the stored one. -/
theorem saveMirror_alone {m : Mirror}
    (hstored : p.session.storage m.deviceId = p.session.storedText m.deviceId) :
    ∃ p', (PhoneAsync.inStore (saveMirror m)).Alone p () p' ∧ p'.held = p.held ∧
      p'.session.inMemory m.deviceId = some m ∧
      p'.session.storage m.deviceId = p'.session.storedText m.deviceId := by
  have hdecision : saveDecision m (p.session.storage m.deviceId) p.session =
      (decide (p.session.storage m.deviceId ≠ some (.json (storedForm m))),
        p.session.setInMemory m.deviceId (some m)) := by
    simp [saveDecision, hstored]
  by_cases hsame : p.session.storage m.deviceId = some (.json (storedForm m))
  · -- it is stored just so: nothing is written
    refine ⟨{ p with session := p.session.setInMemory m.deviceId (some m) }, ?_, rfl, ?_, hstored⟩
    · rw [saveMirror, inStore_bind]
      refine (getItem_alone _).bind ?_
      rw [inStore_bind]
      refine (sync_alone _).bind ?_
      rw [hdecision]
      simp only [hsame, ne_eq, not_true, decide_false, Bool.false_eq_true, if_false]
      exact alone_ret
    · simp [Session.setInMemory]
  · -- it is written, and the memory of what was checked of it goes
    let written : Session := { p.session.setInMemory m.deviceId (some m) with
      storage := Function.update p.session.storage m.deviceId (some (.json (storedForm m))) }
    refine ⟨{ p with session := written.setStoredText m.deviceId (some (.json (storedForm m))) },
      ?_, rfl, ?_, ?_⟩
    · rw [saveMirror, inStore_bind]
      refine (getItem_alone _).bind ?_
      rw [inStore_bind]
      refine (sync_alone _).bind ?_
      rw [hdecision]
      simp only [hsame, ne_eq, not_false_eq_true, decide_true, if_true]
      exact ⟨[.store .ok], fun _ _ => rfl⟩
    · simp [written, Session.setStoredText, Session.setInMemory]
    · simp [written, Session.setStoredText]

/-- The copy that a kept merge leaves. -/
def mergedCopy (m : Merge) (seqs : List Nat) (publicKey publicKeyPq : Blob) (point : MergePoint)
    (now : Nat) (mirror : Mirror) : Mirror :=
  { mirror with
    links := m.links
    seen := seqs.foldl (markSeen now) mirror.seen
    publicKey := some publicKey
    publicKeyPq := some publicKeyPq
    merged := oneAnchor MergePoint.dropPq (mirror.merged ++ [point])
    lastSync := some now }

/-- A merge without a fork is kept: the copy in memory has its links, and the new merge point. -/
theorem keepMerged_alone (publicKey publicKeyPq : Blob) {added : List EdgeLinkRecord}
    (point : MergePoint) (now : Nat) (hmem : p.session.inMemory mirror.deviceId = some mirror)
    (hstored : p.session.storage mirror.deviceId = p.session.storedText mirror.deviceId)
    (hno : (L.merge mirror.links added).conflicts.isEmpty = true)
    (hseqs : (seqsIn L (L.merge mirror.links added).added).isSome) :
    ∃ p' seqs, (PhoneAsync.inStore
        (keepMerged L mirror.deviceId publicKey publicKeyPq added point now)).Alone p () p' ∧
      p'.held = p.held ∧
      p'.session.inMemory mirror.deviceId =
        some (mergedCopy (L.merge mirror.links added) seqs publicKey publicKeyPq point now mirror) ∧
      p'.session.storage mirror.deviceId = p'.session.storedText mirror.deviceId := by
  obtain ⟨seqs, hseqs⟩ := Option.isSome_iff_exists.mp hseqs
  have hmerged : withMerged L (L.merge mirror.links added) now mirror =
      some { mirror with
        links := (L.merge mirror.links added).links
        seen := seqs.foldl (markSeen now) mirror.seen } := by
    rw [withMerged, hseqs]
    rfl
  obtain ⟨p', hsave, hkept⟩ := saveMirror_alone (p := p)
    (m := mergedCopy (L.merge mirror.links added) seqs publicKey publicKeyPq point now mirror)
    hstored
  refine ⟨p', seqs, ?_, hkept⟩
  rw [keepMerged, inStore_bind]
  refine (load_alone hmem).bind ?_
  simp only [hno, Bool.not_true, Bool.false_eq_true, if_false]
  rw [inStore_bind, hmerged]
  exact hsave

/-- A merge with a fork throws, and keeps nothing. -/
theorem keepMerged_fork {publicKey publicKeyPq : Blob} {added : List EdgeLinkRecord}
    {point : MergePoint} {now : Nat} {g : Unit → PhoneAsync Outcome}
    (hmem : p.session.inMemory mirror.deviceId = some mirror)
    (hno : (L.merge mirror.links added).conflicts.isEmpty = false) :
    ((PhoneAsync.inStore
      (keepMerged L mirror.deviceId publicKey publicKeyPq added point now)).bind g).Ends p p := by
  rw [keepMerged, inStore_bind, bind_bind]
  refine (load_alone hmem).ends ?_
  simp only [hno, Bool.not_false, if_true]
  exact ends_fail

/-! ### An offer, alone -/

/-- The copies of the chains are as they were. -/
structure SameCopies (p p' : Phone) : Prop where
  memory : p'.session.inMemory = p.session.inMemory
  storage : p'.session.storage = p.session.storage
  storedText : p'.session.storedText = p.session.storedText

/-- A `holdLog`, with the copy in memory, leaves what `heldAfter` says. -/
theorem holdLog_alone (o : Offer) (now : Nat)
    (hmem : p.session.inMemory o.deviceId = some mirror) (owner : Option OwnerKey) :
    ∃ p', (holdLog L D o now).Ends p p' ∧ SameCopies p p' ∧
      p'.held.getD [] = heldAfter o now mirror.merged
        (checksOut (judged L D owner (o.entry now) mirror p)) (p.held.getD []) := by
  unfold heldAfter holdLog
  by_cases hnew : o.nothingNew (heldOf o.deviceId (p.held.getD [])) = true
  · refine ⟨p, loadHeld_alone.ends ?_, ⟨rfl, rfl, rfl⟩, by rw [if_pos hnew]⟩
    simp only [hnew, if_true]
    exact ends_ret
  rw [if_neg hnew]
  by_cases hmerged : o.mergedAlready mirror.merged = true
  · refine ⟨p, loadHeld_alone.ends ?_, ⟨rfl, rfl, rfl⟩, by rw [if_pos hmerged]⟩
    simp only [hnew, Bool.false_eq_true, if_false]
    refine (load_alone hmem).ends ?_
    simp only [hmerged, if_true]
    exact ends_ret
  rw [if_neg hmerged]
  -- the same checkpoint again is judged first
  rcases hsame : o.same (heldOf o.deviceId (p.held.getD [])) with - | -
  · refine ⟨{ p with held := some (without o.deviceId (p.held.getD []) ++ [o.entry now]) },
      loadHeld_alone.ends ?_, ⟨rfl, rfl, rfl⟩, rfl⟩
    simp only [hnew, Bool.false_eq_true, if_false]
    refine (load_alone hmem).ends ?_
    simp only [hmerged, hsame, Bool.false_eq_true, if_false]
    exact alone_ret.ends ((saveHeld_alone _).ends ends_ret)
  · let seen := allocated (o.entry now) (allocated (o.entry now) p)
    have hgood : ((judgeOne L D (o.entry now)).bind fun v => Task.ret (checksOut v)).Alone p
        (checksOut (judged L D owner (o.entry now) mirror p)) seen :=
      (judgeOne_alone hmem owner).bind alone_ret
    rcases hok : checksOut (judged L D owner (o.entry now) mirror p) with - | -
    · refine ⟨seen, loadHeld_alone.ends ?_, ⟨rfl, rfl, rfl⟩, rfl⟩
      simp only [hnew, Bool.false_eq_true, if_false]
      refine (load_alone hmem).ends ?_
      simp only [hmerged, hsame, Bool.false_eq_true, if_false, if_true]
      refine hgood.ends ?_
      rw [hok]
      exact ends_ret
    · refine ⟨{ seen with held := some (without o.deviceId (p.held.getD []) ++ [o.entry now]) },
        loadHeld_alone.ends ?_, ⟨rfl, rfl, rfl⟩, rfl⟩
      simp only [hnew, Bool.false_eq_true, if_false]
      refine (load_alone hmem).ends ?_
      simp only [hmerged, hsame, Bool.false_eq_true, if_false, if_true]
      refine hgood.ends ?_
      rw [hok]
      exact (saveHeld_alone _).ends ends_ret

/-! ### The desk of the phone -/

/-- The desk is what the phone holds of a device: the held logs, and the device's copy, which is in
memory and was not edited outside. -/
structure Desk.Of (id : Blob) (mirror : Mirror) (p : Phone) (d : Desk) : Prop where
  held : p.held.getD [] = d.held
  device : mirror.deviceId = id
  memory : p.session.inMemory id = some mirror
  stored : p.session.storage id = p.session.storedText id
  copy : SameBytes mirror.links d.copy
  merged : mirror.merged = d.merged

variable {d' : Desk}

/-- A desk on which only the held logs differ. -/
theorem Desk.Of.later (hd : d.Of id mirror p) (hcopies : SameCopies p p')
    (hheld : p'.held.getD [] = d'.held) (hcopy : d'.copy = d.copy) (hmerged : d'.merged = d.merged) :
    d'.Of id mirror p' where
  held := hheld
  device := hd.device
  memory := (congrFun hcopies.memory id).trans hd.memory
  stored := (congrFun hcopies.storage id).trans (hd.stored.trans
    (congrFun hcopies.storedText id).symm)
  copy := hcopy ▸ hd.copy
  merged := hd.merged.trans hmerged.symm

/-- What the phone says of a log now. -/
def verdict (L : EdgeLib) (D : DevicesLib) (owner : Option OwnerKey) (mirror : Mirror) (p : Phone)
    (h : HeldLog) : Bool := checksOut (judged L D owner h mirror p)

/-- An offer that is taken alone leaves what the desk says. -/
theorem handleOffer_refines (hbytes : GoByBytes L D) {o : Offer} (now : Nat)
    (hd : d.Of o.deviceId mirror p) (owner : Option OwnerKey) :
    ∃ p', (handleOffer L D o now).Ends p p' ∧
      (d.step L o.deviceId (verdict L D owner mirror p) (.offer o now)).Of o.deviceId mirror p' := by
  let records := ((heldOf o.deviceId (p.held.getD [])).map HeldLog.records).getD []
  let before := Async.freshRecords records p.session
  let offered := Async.freshRecords o.records before.2
  let p₂ : Phone := { p with session := offered.2 }
  have hjoined : o.joinedWith L mirror.links before.1 offered.1 =
      o.joined L d.copy (heldOf o.deviceId d.held) := by
    rw [← hd.held]
    exact joinedWith_congr hbytes o hd.copy (sameBytes_numbered _ _) (sameBytes_numbered _ _)
  obtain ⟨p', hend, hcopies, hheld⟩ := holdLog_alone (L := L) (D := D) (p := p₂)
    (o.joinedWith L mirror.links before.1 offered.1) now hd.memory owner
  refine ⟨p', ?_, hd.later ⟨hcopies.1, hcopies.2, hcopies.3⟩ ?_ rfl rfl⟩
  · exact (load_alone hd.memory).ends (loadHeld_alone.ends
      ((sync_alone _).ends ((sync_alone _).ends hend)))
  · have hview : judged L D owner ((o.joinedWith L mirror.links before.1 offered.1).entry now)
        mirror p₂ = judged L D owner ((o.joinedWith L mirror.links before.1 offered.1).entry now)
          mirror p := judged_congr hbytes _ _ rfl
    rw [hheld, hview, hjoined]
    show heldAfter _ now mirror.merged _ (p.held.getD []) = heldAfter _ now d.merged _ d.held
    rw [hd.held, hd.merged]
    rfl

/-- A log that is not yours is marked on the phone as on the desk. -/
theorem notMine_refines (hd : d.Of id mirror p) (check : HeldLog → Bool) :
    ∃ p', (notMine id).Ends p p' ∧ (d.step L id check .notMine).Of id mirror p' := by
  rcases hh : heldOf id d.held with - | h
  · refine ⟨p, loadHeld_alone.ends ?_, ?_⟩
    · rw [hd.held, hh]
      exact ends_ret
    · simpa only [Desk.step, Desk.answer, hh] using hd
  · refine ⟨{ p with held := some (changed id (fun x => { x with leak := true }) d.held) },
      loadHeld_alone.ends ?_, ?_⟩
    · rw [hd.held, hh]
      exact (saveHeld_alone _).ends ends_ret
    · simp only [Desk.step, Desk.answer, hh]
      exact hd.later ⟨rfl, rfl, rfl⟩ rfl rfl rfl

/-- A decline that runs alone leaves the mark that the desk says. -/
theorem declineHeld_refines (hd : d.Of id mirror p) (owner : Option OwnerKey) :
    ∃ p', (declineHeld L D id).Ends p p' ∧
      (d.step L id (verdict L D owner mirror p) .decline).Of id mirror p' := by
  rcases hh : heldOf id d.held with - | h
  · refine ⟨p, loadHeld_alone.ends ?_, ?_⟩
    · rw [hd.held, hh]
      exact ends_ret
    · simpa only [Desk.step, hh] using hd
  · have hid : h.deviceId = id := by simpa using List.find?_some hh
    let valid := verdict L D owner mirror p h
    let seen := allocated h (allocated h p)
    refine ⟨{ seen with held := some (changed id
      (fun x => { x with declined := true, declinedValid := valid }) d.held) },
      loadHeld_alone.ends ?_, ?_⟩
    · rw [hd.held, hh]
      exact (judgeOne_alone (hid ▸ hd.memory) owner).ends ((saveHeld_alone _).ends ends_ret)
    · simp only [Desk.step, Desk.answer, hh]
      exact hd.later ⟨rfl, rfl, rfl⟩ rfl rfl rfl

/-- The sheet shows every held log as the phone judges it. -/
theorem reviewHeld_alone (hbytes : GoByBytes L D) (owner : Option OwnerKey)
    (hmem : ∀ h ∈ p.held.getD [], (p.session.inMemory h.deviceId).isSome) :
    ∃ n, (reviewHeld L D).Alone p
      ((p.held.getD []).map fun h => judged L D owner h (p.copyOf h) p) (p.numbered n) := by
  obtain ⟨n, hall⟩ := judgeAll_alone owner hbytes hmem
  exact ⟨n, (ownerKey_alone owner).bind (loadDevices_alone.bind (loadHeld_alone.bind hall))⟩

/-- The device is known, or it was said to be yours. -/
def mineAlready (L : EdgeLib) (D : DevicesLib) (owner : Option OwnerKey) (mirror : Mirror)
    (p : Phone) (isMine : Bool) (h : HeldLog) : Bool :=
  (judged L D owner h mirror p).logClass != .mineNew || isMine

/-- The approve throws at a log that does not check out, or is of a device that is not known to be
yours; else it goes on. -/
theorem decision_eq (view : HeldView) (isMine : Bool) (t : PhoneAsync Outcome) :
    (if view.logClass = .forged then Task.fail
      else if !view.checkOk then .fail
      else if view.logClass = .mineNew ∧ isMine = false then .fail
      else if !view.complete then .fail
      else t) =
    if checksOut view && (view.logClass != .mineNew || isMine) then t else .fail := by
  unfold checksOut
  cases view.logClass <;> cases view.checkOk <;> cases isMine <;> cases view.complete <;> rfl

/-- An approve that runs alone merges and takes off the list what the desk says, or throws and
leaves both.  The copies of the held logs are in memory, every link of a merge has a seq, and the
log comes without opening words and notes. -/
theorem approveHeld_refines (hbytes : GoByBytes L D) (isMine : Bool) (now : Nat)
    (hd : d.Of id mirror p) (owner : Option OwnerKey)
    (hmem : ∀ h ∈ d.held, (p.session.inMemory h.deviceId).isSome)
    (hseqs : ∀ links offered, (seqsIn L (L.merge links offered).added).isSome)
    (hplain : ∀ h ∈ d.held, h.openings = [] ∧ h.notes = none) {mine : Bool}
    (hmine : ∀ h, heldOf id d.held = some h → mine = mineAlready L D owner mirror p isMine h) :
    ∃ p' m', (approveHeld L D id isMine now).Ends p p' ∧
      (d.step L id (verdict L D owner mirror p) (.approve mine now)).Of id m' p' := by
  rcases hh : heldOf id d.held with - | h
  · refine ⟨p, mirror, loadHeld_alone.ends ?_, ?_⟩
    · rw [hd.held, hh]
      exact ends_fail
    · simpa only [Desk.step, hh] using hd
  have hid : h.deviceId = id := by simpa using List.find?_some hh
  have hdevice : h.deviceId = mirror.deviceId := hid.trans hd.device.symm
  obtain ⟨hopenings, hnotes⟩ := hplain h (List.mem_of_find?_eq_some hh)
  obtain ⟨n, hreview⟩ := reviewHeld_alone hbytes owner
    (show ∀ x ∈ p.held.getD [], (p.session.inMemory x.deviceId).isSome from hd.held ▸ hmem)
  let view := judged L D owner h mirror p
  have hview : ((p.held.getD []).map fun h => judged L D owner h (p.copyOf h) p).find?
      (fun v => v.deviceId == id) = some view := by
    rw [hd.held, List.find?_map]
    show (heldOf id d.held).map _ = _
    rw [hh, Option.map_some, Phone.copyOf, hid, hd.memory]
    rfl
  have hallowed : (checksOut view && (view.logClass != .mineNew || isMine)) =
      (verdict L D owner mirror p h && mine) := by
    rw [hmine h hh]
    rfl
  -- the records that are merged, on the phone and on the desk
  let p₁ := p.numbered n
  let records := (Async.freshRecords h.records p₁.session).1
  let deskRecords : List EdgeLinkRecord := h.records.map fun r => { r with ref := 0 }
  have hrecords : SameBytes records deskRecords := sameBytes_numbered h.records p₁.session
  have hconflicts : (L.merge mirror.links records).conflicts.isEmpty =
      (L.merge d.copy deskRecords).conflicts.isEmpty := hbytes.conflicts hd.copy hrecords
  by_cases hok : (verdict L D owner mirror p h && mine) = true
  · rcases hno : (L.merge d.copy deskRecords).conflicts.isEmpty with - | -
    · -- a fork
      refine ⟨allocated h p₁, mirror, loadHeld_alone.ends ?_, ?_⟩
      · rw [hd.held, hh]
        refine hreview.ends ?_
        rw [hview]
        simp only [decision_eq, hallowed, hok, if_true, hdevice]
        exact (recordsOf_alone h).ends (keepMerged_fork (hd.device ▸ hd.memory)
          (hconflicts.trans hno))
      · simp only [Desk.step, hh]
        rw [if_neg (by simp [hno, deskRecords] )]
        exact hd.later ⟨rfl, rfl, rfl⟩ hd.held rfl rfl
    · obtain ⟨p₂, seqs, hkeep, -, hmem₂, hstored₂⟩ := keepMerged_alone (p := allocated h p₁)
        h.publicKey h.publicKeyPq (h.point now) now (hd.device ▸ hd.memory)
        (hd.device ▸ hd.stored) (hconflicts.trans hno) (hseqs mirror.links records)
      refine ⟨{ p₂ with
          devices := some (D.remember (p₂.devices.getD []) h.statement)
          held := some (without id d.held) },
        mergedCopy (L.merge mirror.links records) seqs h.publicKey h.publicKeyPq (h.point now) now
          mirror, loadHeld_alone.ends ?_, ?_⟩
      · rw [hd.held, hh]
        refine hreview.ends ?_
        rw [hview]
        simp only [decision_eq, hallowed, hok, if_true, hdevice, hopenings, hnotes]
        refine (recordsOf_alone h).ends (hkeep.ends (loadDevices_alone.ends
          ((saveDevices_alone _).ends ?_)))
        exact alone_ret.ends (alone_ret.ends ((saveHeld_alone _).ends ends_ret))
      · simp only [Desk.step, hh]
        rw [if_pos (by simp [hok, hno, deskRecords])]
        exact ⟨rfl, hd.device, hd.device ▸ hmem₂, hd.device ▸ hstored₂,
          hbytes.links hd.copy hrecords, by rw [← hd.merged]; rfl⟩
  · refine ⟨p₁, mirror, loadHeld_alone.ends ?_, ?_⟩
    · rw [hd.held, hh]
      refine hreview.ends ?_
      rw [hview]
      simp only [decision_eq, hallowed, hok, Bool.false_eq_true, if_false]
      exact ends_fail
    · simp only [Desk.step, hh]
      rw [if_neg (by simp [hok])]
      exact hd.later ⟨rfl, rfl, rfl⟩ hd.held rfl rfl

end OkRn.Devices
