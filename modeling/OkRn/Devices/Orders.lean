/-
OkRn/Devices/Orders.lean

Calls on held logs, interleaved at their awaits.

Each of the four calls reads the whole list of held logs, waits (for checks, merges,
notes and other reads of storage), and writes the whole list back, with nothing that
keeps two of them apart.  So a call that saves the list over another's save takes the
other's answer away.

The order of events is all that is asked (`Watch.Undisturbed`): between a call's
reading of the list and its saving of it no other call saves it, the reads of the list
do not fail, and no copy of a log that is in memory is dropped or loses a merge point
(`Mark`).  The calls may interleave at all their other awaits, and everything else on
the phone may change at any time.

* `Change` says what each call does to the list that it finds, and `NoChange` what it
  returns without a save; `reads_and_saves` reads them off the code of the four calls;
* `AnswersStay` says what that comes to for the logs: each is as the last call about its
  device left it, an offer that was held is held, an answer stays, and a log that was
  approved and merged is not held again at the same checkpoint.

Main results: `held_one_at_a_time`, and `offer_lost_beside_decline` for a run in which
a decline saves over an offer.
-/
import OkRn.Devices.Held
import OkRn.Lib.Serial
import OkRn.Store.Demo
import OkRn.Store.Lasting

namespace OkRn.Devices

open OkRn.Store

/-! ### What the calls rely on -/

/-- What a copy of a log in memory gives, and what stays so while nothing overtakes it. -/
inductive Mark
  /-- Each copy in memory is of its device. -/
  | own
  /-- A copy of the device is in memory. -/
  | loaded (id : Blob)
  /-- It has a merge point at this checkpoint. -/
  | merged (id : Blob) (seq : Nat) (head : Blob)

/-- The session has it. -/
def Mark.In (s : Session) : Mark → Prop
  | .own => ∀ id m, s.inMemory id = some m → m.deviceId = id
  | .loaded id => ∃ m, s.inMemory id = some m
  | .merged id seq head => ∃ m, s.inMemory id = some m ∧
      ∃ x ∈ m.merged, x.seq = seq ∧ x.head = head

/-- The marks of the phone's copies. -/
def marks (p : Phone) : Set Mark := {x | x.In p.session}

/-- A storage call failed. -/
def PhoneAnswer.fails : PhoneAnswer → Prop
  | .store .failed => True
  | .store _ => False
  | .owner _ => True

/-- A log that is declined. -/
def HeldLog.decline (valid : Bool) (h : HeldLog) : HeldLog :=
  { h with declined := true, declinedValid := valid }

/-- A log that is not yours. -/
def HeldLog.leaked (h : HeldLog) : HeldLog := { h with leak := true }

/-- What a call does to the list that it finds: `seen` was marked when it looked, `now` is marked
when it saves. -/
def Change (op : HeldOp) (was : Option (List HeldLog)) (seen now : Set Mark)
    (is : Option (List HeldLog)) (a : Outcome) : Prop :=
  let list := was.getD []
  match op with
  | .holdLog o t => o.nothingNew (heldOf o.deviceId list) = false ∧
      .merged o.deviceId o.checkpoint.seq o.checkpoint.head ∉ seen ∧
      is = some (without o.deviceId list ++ [o.entry t]) ∧ a = .held true o.records.length
  | .approveHeld id _ _ => ∃ h, heldOf id list = some h ∧
      (.own ∈ seen → .merged id h.checkpoint.seq h.checkpoint.head ∈ now) ∧
      is = some (without id list) ∧ a = .merged h.records.length
  | .declineHeld id => ∃ h valid, heldOf id list = some h ∧
      is = some (changed id (HeldLog.decline valid) list) ∧ a = .done
  | .notMine id => ∃ h, heldOf id list = some h ∧
      is = some (changed id HeldLog.leaked list) ∧ a = .done

/-- What a call returns without a save: the offer is not held, or nothing is held of the device.
An approve that saves nothing throws. -/
def NoChange (op : HeldOp) (was : Option (List HeldLog)) (a : Outcome) : Prop :=
  match op with
  | .holdLog _ _ => a = .held false 0
  | .approveHeld _ _ _ => False
  | .declineHeld id => heldOf id (was.getD []) = none ∧ a = .done
  | .notMine id => heldOf id (was.getD []) = none ∧ a = .done

/-- Watched calls on held logs. -/
abbrev HeldWatch : Type := Watch HeldOp PhoneAnswer Phone Outcome (Option (List HeldLog)) Mark

variable {L : EdgeLib} {D : DevicesLib}

/-! ### Steps that leave the held logs alone -/

open OkRn.Task

/-- The step leaves the held logs alone. -/
abbrev SameHeld (p p' : Phone) : Prop := p'.held = p.held

/-- A function of the store, in its parts. -/
theorem inStore_bind {α β : Type} (t : Async α) (g : α → Async β) :
    PhoneAsync.inStore (t.bind g) = (PhoneAsync.inStore t).bind fun a => PhoneAsync.inStore (g a) := by
  induction t with
  | ret a => rfl
  | fail => rfl
  | act f k ih =>
    simp only [PhoneAsync.inStore, Task.bind, Task.embed] at ih ⊢
    congr 1
    funext x
    exact ih _
  | ask k ih =>
    simp only [PhoneAsync.inStore, Task.bind, Task.embed] at ih ⊢
    congr 1
    funext x
    exact ih _

/-- A function of the store leaves the held logs. -/
theorem frames_inStore {α : Type} (t : Async α) : (PhoneAsync.inStore t).Frames SameHeld := by
  induction t with
  | ret a => trivial
  | fail => trivial
  | act f k ih => exact fun s => ⟨rfl, ih _⟩
  | ask k ih => exact fun a => ih _

theorem frames_wait : PhoneAsync.wait.Frames SameHeld := frames_inStore _

theorem frames_read {α : Type} (f : Phone → α) :
    (Task.read f : PhoneAsync α).Frames SameHeld := fun _ => ⟨rfl, trivial⟩

theorem frames_readJson {α : Type} (f : Phone → Option (List α)) :
    (PhoneAsync.readJson f).Frames SameHeld :=
  (frames_wait.bind fun _ _ => frames_read _).orElse trivial

/-- The devices are read without a change of the held logs. -/
theorem frames_loadDevices : loadDevices.Frames SameHeld := frames_readJson _

theorem frames_saveDevices (list : List Device) : (saveDevices list).Frames SameHeld :=
  frames_wait.bind fun _ _ => frames_modify fun _ => rfl

/-- The soft key's answer changes nothing here. -/
theorem frames_ownerKey : PhoneAsync.ownerKey.Frames SameHeld := fun a => by cases a <;> trivial

/-- New objects change no held log. -/
theorem frames_recordsOf (h : HeldLog) : (recordsOf h).Frames SameHeld := frames_inStore _

theorem frames_orThrow {α : Type} (x : Option α) : (PhoneAsync.orThrow x).Frames SameHeld := by
  cases x <;> trivial

/-- The check of the whole leaves the held logs. -/
theorem frames_completenessOf (h : HeldLog) : (completenessOf L D h).Frames SameHeld :=
  ((frames_inStore _).bind fun _ _ => (frames_recordsOf h).bind fun _ _ =>
    frames_orThrow _).orElse trivial

/-- The judging of a log leaves them. -/
theorem frames_judge (owner : Option OwnerKey) (known : List Device) (h : HeldLog) :
    (judge L D owner known h).Frames SameHeld :=
  (frames_inStore _).bind fun _ _ => (frames_recordsOf h).bind fun _ _ =>
    (frames_completenessOf h).bind fun _ _ => trivial

theorem frames_judgeOne (h : HeldLog) : (judgeOne L D h).Frames SameHeld :=
  frames_ownerKey.bind fun _ _ => frames_loadDevices.bind fun _ _ => frames_judge _ _ h

theorem frames_judgeAll (owner : Option OwnerKey) (known : List Device) (list : List HeldLog) :
    (judgeAll L D owner known list).Frames SameHeld := by
  induction list with
  | nil => trivial
  | cons h hs ih => exact (frames_judge owner known h).bind fun _ _ => ih.bind fun _ _ => trivial

/-- What the sheet shows leaves the held logs as they are. -/
theorem frames_reviewHeld : (reviewHeld L D).Frames SameHeld :=
  frames_ownerKey.bind fun _ _ => frames_loadDevices.bind fun _ _ =>
    (frames_readJson _).bind fun _ _ => frames_judgeAll _ _ _

/-- The filing of words leaves them. -/
theorem frames_keepWords (id : Blob) (words : List Words) :
    (keepWords id words).Frames SameHeld := by
  induction words with
  | nil => trivial
  | cons o os ih =>
    refine (frames_wait.bind fun _ _ => frames_read _).bind fun was _ =>
      (frames_wait.bind fun _ _ => ?_).bind fun _ _ => ih
    exact frames_modify fun p => (rfl : (fileWords id o was p).held = p.held)

theorem frames_keepOpenings (id publicKey : Blob) (openings : List Opening) :
    (keepOpenings D id publicKey openings).Frames SameHeld := by
  unfold keepOpenings
  split
  · trivial
  · refine (frames_inStore _).bind fun mirror _ => ?_
    split
    · trivial
    · exact frames_keepWords id _

theorem frames_addNotes (id : Blob) (now : Nat) (notes : List EdgeNote) :
    (addNotes L id now notes).Frames SameHeld := by
  induction notes with
  | nil => trivial
  | cons n ns ih => exact (frames_inStore _).bind fun _ _ => ih

theorem frames_keepNotes (id : Blob) (now : Nat) (notes : Option HeldNotes) :
    (keepNotes L id now notes).Frames SameHeld := by
  unfold keepNotes
  split
  · trivial
  · refine (frames_addNotes id now _).bind fun _ _ => ?_
    split
    · trivial
    · exact frames_inStore _

/-! ### The save at the end -/

variable {C : Set Mark → Option (List HeldLog) → Outcome → Prop} {Q : Outcome → Prop}
  {marked : Set Mark}

/-- A save of the list is a save, whatever it writes. -/
theorem saves_held (list : List HeldLog) :
    ¬ Leaves Phone.held fun p => { p with held := some list } := by
  intro h
  have hnone := h ⟨Session.start fun _ => none, none, none, fun _ _ => none⟩
  cases hnone

/-- A save of the list with nothing after it. -/
theorem saveHeld_last {list : List HeldLog} {a : Outcome} (h : C marked (some list) a) :
    ((saveHeld list).bind fun _ => .ret a).SavesLast Phone.held marks C Q marked := by
  intro x
  rcases x with x | x
  · cases x
    case failed => trivial
    all_goals exact .inr ⟨saves_held list, some list, fun _ => ⟨rfl, a, rfl, h⟩⟩
  · trivial

/-! ### The copy in memory -/

variable {id : Blob}

/-- A copy that is put in memory is its device's own. -/
theorem own_setInMemory {s : Session} {m : Mirror}
    (h : Mark.own.In (s.setInMemory id (some m))) : m.deviceId = id :=
  h id m (by simp [Session.setInMemory])

theorem loaded_setInMemory (s : Session) (m : Mirror) :
    (Mark.loaded id).In (s.setInMemory id (some m)) := ⟨m, by simp [Session.setInMemory]⟩

/-- A load gives a copy with every merge point that was marked, and leaves it in memory. -/
theorem load_last {g : Mirror → PhoneAsync Outcome}
    (hg : ∀ m marked', marked ⊆ marked' → .loaded id ∈ marked' →
      (.own ∈ marked' → m.deviceId = id) →
      (∀ seq head, .merged id seq head ∈ marked → ∃ x ∈ m.merged, x.seq = seq ∧ x.head = head) →
      (g m).SavesLast Phone.held marks C Q marked') :
    ((PhoneAsync.inStore (loadMirror id)).bind g).SavesLast Phone.held marks C Q marked := by
  rw [loadMirror, inStore_bind, bind_bind]
  refine .inl ⟨fun _ => rfl, fun p hp _ => ?_⟩
  dsimp only
  cases hmem : p.session.inMemory id with
  | some m =>
    refine hg m _ hp ⟨m, hmem⟩ (fun hown => hown id m hmem) fun seq head hmerged => ?_
    obtain ⟨m', hm', hx⟩ := hp hmerged
    obtain rfl := Option.some.inj (hmem.symm.trans hm')
    exact hx
  | none =>
    -- nothing of the device is marked
    have hnone : ∀ seq head, .merged id seq head ∉ marked := fun seq head hmerged => by
      obtain ⟨m, hm, -⟩ := hp hmerged
      rw [hmem] at hm
      cases hm
    show (((PhoneAsync.inStore ((readMirror id).bind fun m =>
      (Task.modify fun s => s.setInMemory id (some m)).bind fun _ => .ret m)).bind g).SavesLast
        Phone.held marks C Q (marks p))
    rw [inStore_bind, bind_bind]
    refine SavesLast.after (frames_inStore _) fun m marked' hle => ?_
    rw [inStore_bind, bind_bind]
    refine .inl ⟨fun _ => rfl, fun p' hp' hgrows => ?_⟩
    refine hg m _ (((hp.trans hle).trans hp').trans hgrows) (loaded_setInMemory _ m)
      (fun hown => own_setInMemory hown) fun seq head hmerged => absurd hmerged (hnone seq head)

/-- A save of a copy that is in memory, and stays there, leaves it there. -/
theorem save_last {m : Mirror} {g : Unit → PhoneAsync Outcome} (hloaded : .loaded m.deviceId ∈ marked)
    (hg : ∀ marked', marked ⊆ marked' →
      (∀ x ∈ m.merged, .merged m.deviceId x.seq x.head ∈ marked') →
      (g ()).SavesLast Phone.held marks C Q marked') :
    ((PhoneAsync.inStore (saveMirror m)).bind g).SavesLast Phone.held marks C Q marked := by
  rw [saveMirror, inStore_bind, bind_bind]
  -- three awaits: the stored text is read, written, and the checks are told
  refine SavesLast.after (frames_inStore _) fun now marked₁ hle₁ => ?_
  rw [inStore_bind, bind_bind]
  refine .inl ⟨fun _ => rfl, fun p hp hgrows => ?_⟩
  refine SavesLast.after (frames_inStore _) fun write marked₂ hle₂ => ?_
  refine SavesLast.after (frames_inStore _) fun _ marked₃ hle₃ => ?_
  obtain ⟨m', hm'⟩ := hp (hle₁ hloaded)
  by_cases hedit : now = p.session.storedText m.deviceId
  · -- the copy is in memory now, with its merge points
    have hdecision : saveDecision m now p.session =
        (decide (now ≠ some (.json (storedForm m))), p.session.setInMemory m.deviceId (some m)) := by
      simp [saveDecision, hedit]
    have hmarks : ∀ x ∈ m.merged, .merged m.deviceId x.seq x.head ∈
        marks { p with session := (saveDecision m now p.session).2 } := fun x hx => by
      rw [hdecision]
      exact ⟨m, by simp [Session.setInMemory], x, hx, rfl, rfl⟩
    exact hg marked₃ ((((hle₁.trans hp).trans hgrows).trans hle₂).trans hle₃) fun x hx =>
      hle₃ (hle₂ (hmarks x hx))
  · -- it was edited outside, and is dropped: no longer in memory
    have hdropped : (saveDecision m now p.session).2 = p.session.forgetVerifiedFor m.deviceId := by
      simp [saveDecision, hm', hedit]
    have hgone : .loaded m.deviceId ∈ marks { p with session := (saveDecision m now p.session).2 } :=
      hgrows (hp (hle₁ hloaded))
    rw [hdropped] at hgone
    obtain ⟨m'', hm''⟩ := hgone
    simp [Session.forgetVerifiedFor, Session.setInMemory] at hm''

/-- A merge leaves the merge points as they were. -/
theorem withMerged_merged {x : Merge} {now : Nat} {m m' : Mirror}
    (h : withMerged L x now m = some m') : m'.deviceId = m.deviceId ∧ m'.merged = m.merged := by
  obtain ⟨seqs, -, rfl⟩ := Option.map_eq_some_iff.mp h
  exact ⟨rfl, rfl⟩

/-- The new merge point is among those that are kept. -/
theorem point_mem_oneAnchor (points : List MergePoint) (point : MergePoint) :
    ∃ x ∈ oneAnchor MergePoint.dropPq (points ++ [point]), x.seq = point.seq ∧ x.head = point.head := by
  obtain ⟨x, hx, heq⟩ := mem_oneAnchor MergePoint.dropPq (fun _ => rfl)
    (List.mem_append_right points (List.mem_singleton_self point))
  exact ⟨x, hx, (MergePoint.mk.inj heq).1, (MergePoint.mk.inj heq).2.1⟩

/-- A merge that is kept leaves its point in the copy. -/
theorem keepMerged_last {publicKey publicKeyPq : Blob} {added : List EdgeLinkRecord}
    {point : MergePoint} {now : Nat} {g : Unit → PhoneAsync Outcome}
    (hg : ∀ marked', marked ⊆ marked' →
      (.own ∈ marked → .merged id point.seq point.head ∈ marked') →
      (g ()).SavesLast Phone.held marks C Q marked') :
    ((PhoneAsync.inStore (keepMerged L id publicKey publicKeyPq added point now)).bind g).SavesLast
      Phone.held marks C Q marked := by
  -- only of copies that are their devices' own is the point known to be the device's
  by_cases hown : .own ∈ marked
  · rw [keepMerged, inStore_bind, bind_bind]
    refine load_last fun mirror marked₁ hle₁ hloaded hid _ => ?_
    have hid := hid (hle₁ hown)
    dsimp only
    split
    · trivial
    rw [inStore_bind, bind_bind]
    cases hmerged : withMerged L (L.merge mirror.links added) now mirror with
    | none => trivial
    | some mirror' =>
      obtain ⟨hdevice, -⟩ := withMerged_merged hmerged
      refine save_last ?_ fun marked₂ hle₂ hin => hg marked₂ (hle₁.trans hle₂) fun _ => ?_
      · show Mark.loaded mirror'.deviceId ∈ marked₁
        rw [hdevice, hid]
        exact hloaded
      · obtain ⟨x, hx, hseq, hhead⟩ := point_mem_oneAnchor mirror'.merged point
        have hmark : .merged mirror'.deviceId x.seq x.head ∈ marked₂ := hin x hx
        rw [hdevice, hid, hseq, hhead] at hmark
        exact hmark
  · exact SavesLast.after (frames_inStore _) fun _ marked' hle => hg marked' hle fun h =>
      absurd h hown

/-! ### The four calls -/

/-- What a call does after it has read the list. -/
abbrev AfterRead (op : HeldOp) (was : Option (List HeldLog)) (seen : Set Mark)
    (t : PhoneAsync Outcome) (marked : Set Mark) : Prop :=
  t.SavesLast Phone.held marks (Change op was seen) (NoChange op was) marked

/-- A call reads the list of held logs, and goes on from there. -/
theorem loadHeld_first {op : HeldOp} {g : List HeldLog → PhoneAsync Outcome}
    (hg : ∀ was seen, AfterRead op was seen (g (was.getD [])) seen) :
    (loadHeld.bind g).ReadsAndSaves Phone.held marks PhoneAnswer.fails (Change op)
      (NoChange op) := by
  refine ⟨_, rfl, fun a ha => ⟨fun was => g (was.getD []), ?_, hg⟩⟩
  rcases a with a | a
  · cases a
    case failed => exact absurd trivial ha
    all_goals rfl
  · exact absurd trivial ha

/-- An offer is held when it is new and neither it nor something newer was merged. -/
theorem holdLog_after (o : Offer) (t : Nat) (was : Option (List HeldLog)) (seen : Set Mark) :
    AfterRead (.holdLog o t) was seen
      (let list := was.getD []
       let before := heldOf o.deviceId list
       if o.nothingNew before then .ret (.held false 0)
       else (PhoneAsync.inStore (loadMirror o.deviceId)).bind fun mirror =>
        if o.mergedAlready mirror.merged then .ret (.held false 0)
        else
          let entry := o.entry t
          let goodEnough : PhoneAsync Bool :=
            if o.same before then (judgeOne L D entry).bind fun v => .ret (checksOut v)
            else .ret true
          goodEnough.bind fun ok =>
            if !ok then .ret (.held false 0)
            else (saveHeld (without o.deviceId list ++ [entry])).bind fun _ =>
              .ret (.held true entry.records.length)) seen := by
  dsimp only
  split
  · rfl
  rename_i hnew
  refine load_last fun mirror marked₁ hle₁ _ _ hpoints => ?_
  split
  · rfl
  rename_i hmerged
  refine SavesLast.after ?_ fun ok marked₂ hle₂ => ?_
  · split
    · exact (frames_judgeOne _).bind fun _ _ => trivial
    · trivial
  cases ok with
  | false => rfl
  | true =>
    refine saveHeld_last ⟨by simpa using hnew, fun hseen => hmerged ?_, rfl, rfl⟩
    -- a point at its checkpoint would have been in the copy
    obtain ⟨x, hx, hseq, hhead⟩ := hpoints _ _ hseen
    exact List.any_eq_true.mpr ⟨x, hx, by simp [hseq, hhead]⟩

/-- An approve that returns has merged the log, and takes it off the list. -/
theorem approveHeld_after (id : Blob) (isMine : Bool) (t : Nat) (was : Option (List HeldLog))
    (seen : Set Mark) {h : HeldLog} (hh : heldOf id (was.getD []) = some h) :
    AfterRead (.approveHeld id isMine t) was seen
      ((reviewHeld L D).bind fun views =>
        match views.find? fun v => v.deviceId == id with
        | none => .fail
        | some view =>
            if view.logClass = .forged then .fail
            else if !view.checkOk then .fail
            else if view.logClass = .mineNew ∧ isMine = false then .fail
            else if !view.complete then .fail
            else (recordsOf h).bind fun records =>
              (PhoneAsync.inStore (keepMerged L h.deviceId h.publicKey h.publicKeyPq records
                  (h.point t) t)).bind fun _ =>
                loadDevices.bind fun known =>
                  (saveDevices (D.remember known h.statement)).bind fun _ =>
                    (keepOpenings D id h.publicKey h.openings).bind fun _ =>
                      (keepNotes L h.deviceId t h.notes).bind fun _ =>
                        (saveHeld (without id (was.getD []))).bind fun _ =>
                          .ret (.merged records.length)) seen := by
  have hid : h.deviceId = id := by simpa using List.find?_some hh
  refine SavesLast.after frames_reviewHeld fun views marked₁ hle₁ => ?_
  split
  · trivial
  repeat' split
  all_goals try trivial
  -- the records of the log are as many as it has
  refine .inl ⟨fun _ => rfl, fun p hp hgrows => ?_⟩
  have hle₂ := (hle₁.trans hp).trans hgrows
  refine keepMerged_last fun marked₃ hle₃ hpoint => ?_
  refine SavesLast.after frames_loadDevices fun known marked₄ hle₄ => ?_
  refine SavesLast.after (frames_saveDevices _) fun _ marked₅ hle₅ => ?_
  refine SavesLast.after (frames_keepOpenings id _ _) fun _ marked₆ hle₆ => ?_
  refine SavesLast.after (frames_keepNotes _ t _) fun _ marked₇ hle₇ => ?_
  refine saveHeld_last ⟨h, hh, fun hown => ?_, rfl, ?_⟩
  · have hin : .merged h.deviceId h.checkpoint.seq h.checkpoint.head ∈ marked₃ :=
      hpoint (hle₂ hown)
    rw [hid] at hin
    exact hle₇ (hle₆ (hle₅ (hle₄ hin)))
  · exact congrArg Outcome.merged (by simp [Async.freshRecords])

/-- Each of the four calls reads the list, and saves it at most once, with its own change. -/
theorem reads_and_saves (op : HeldOp) : (op.task L D).ReadsAndSaves Phone.held marks
    PhoneAnswer.fails (Change op) (NoChange op) := by
  cases op with
  | holdLog o t => exact loadHeld_first (holdLog_after o t)
  | approveHeld id isMine t =>
    refine loadHeld_first fun was seen => ?_
    cases hh : heldOf id (was.getD []) with
    | none => trivial
    | some h => exact approveHeld_after id isMine t was seen hh
  | declineHeld id =>
    refine loadHeld_first fun was seen => ?_
    cases hh : heldOf id (was.getD []) with
    | none => exact ⟨hh, rfl⟩
    | some h =>
      exact SavesLast.after (frames_judgeOne h) fun v marked' _ =>
        saveHeld_last ⟨h, checksOut v, hh, rfl, rfl⟩
  | notMine id =>
    refine loadHeld_first fun was seen => ?_
    cases hh : heldOf id (was.getD []) with
    | none => exact ⟨hh, rfl⟩
    | some h => exact saveHeld_last ⟨h, hh, rfl, rfl⟩

/-- What a call comes to does not depend on marks that came later. -/
theorem Change.mono (op : HeldOp) (was : Option (List HeldLog)) (seen now now' : Set Mark)
    (is : Option (List HeldLog)) (a : Outcome) (hle : now ⊆ now') (h : Change op was seen now is a) :
    Change op was seen now' is a := by
  cases op with
  | approveHeld id isMine t =>
    obtain ⟨x, hx, hpoint, hrest⟩ := h
    exact ⟨x, hx, fun hown => hle (hpoint hown), hrest⟩
  | _ => exact h

/-! ### What becomes of a log -/

/-- A call changes no log of another device. -/
theorem Change.elsewhere {op : HeldOp} {was is : Option (List HeldLog)} {seen now : Set Mark}
    {a : Outcome} (h : Change op was seen now is a) {d : Blob} (hd : d ≠ op.device) :
    heldOf d (is.getD []) = heldOf d (was.getD []) := by
  cases op with
  | holdLog o t =>
    obtain ⟨-, -, rfl, -⟩ := h
    exact heldOf_held_ne hd rfl
  | approveHeld id isMine t =>
    obtain ⟨x, -, -, rfl, -⟩ := h
    exact heldOf_without_ne hd
  | declineHeld id =>
    obtain ⟨x, valid, -, rfl, -⟩ := h
    exact heldOf_changed_ne (f := HeldLog.decline valid) hd fun _ => rfl
  | notMine id =>
    obtain ⟨x, -, rfl, -⟩ := h
    exact heldOf_changed_ne (f := HeldLog.leaked) hd fun _ => rfl

/-- What is held now. -/
def heldNow (w : HeldWatch) : List HeldLog := w.shared.held.getD []

/-- The call whose save it is. -/
def opOf (w : HeldWatch) (s : Save (Option (List HeldLog)) Mark) : Option HeldOp :=
  w.calls[s.call]?.map Call.op

/-- The save is of a call about this device. -/
def About (w : HeldWatch) (d : Blob) (s : Save (Option (List HeldLog)) Mark) : Prop :=
  ∃ op, opOf w s = some op ∧ op.device = d

/-- Call `i` has returned this. -/
def Returned (w : HeldWatch) (i : Nat) (op : HeldOp) (a : Outcome) : Prop :=
  ∃ c, w.calls[i]? = some c ∧ c.op = op ∧ c.rest = .ret a

/-- Call `i` saved, after it and before it these; it found and left the device's log so, and unless
a later save is about the device, the log is so now. -/
structure Answered (w : HeldWatch) (i : Nat) (d : Blob) (found left : Option HeldLog)
    (later : List (Save (Option (List HeldLog)) Mark)) : Prop where
  saved : ∃ before s, w.saves = before ++ s :: later ∧ s.call = i ∧
    heldOf d (s.found.getD []) = found ∧ heldOf d (s.left.getD []) = left
  stays : (∀ s ∈ later, ¬ About w d s) → heldOf d (heldNow w) = left

/-- The calls changed the list one at a time, and what they answered is not lost. -/
structure AnswersStay (p : Phone) (w : HeldWatch) : Prop where
  inOrder : w.InOrder Phone.held marks Change NoChange p
  /-- A log that no call was about is as it was. -/
  untouched : ∀ d, (∀ s ∈ w.saves, ¬ About w d s) →
    heldOf d (heldNow w) = heldOf d (p.held.getD [])
  /-- A log that was offered and held is held. -/
  offered : ∀ i o t n, Returned w i (.holdLog o t) (.held true n) →
    ∃ found later, Answered w i o.deviceId found (some (o.entry t)) later
  /-- A log that was declined is declined, if it was there. -/
  declined : ∀ i id, Returned w i (.declineHeld id) .done →
    (∃ c look, w.calls[i]? = some c ∧ c.looked = some look ∧ heldOf id (look.saw.getD []) = none) ∨
      ∃ h valid later, Answered w i id (some h) (some (h.decline valid)) later
  /-- A log that is not yours stays marked so. -/
  notMine : ∀ i id, Returned w i (.notMine id) .done →
    (∃ c look, w.calls[i]? = some c ∧ c.looked = some look ∧ heldOf id (look.saw.getD []) = none) ∨
      ∃ h later, Answered w i id (some h) (some h.leaked) later
  /-- A log that was approved is merged, and is not held again at the same checkpoint. -/
  merged : ∀ i id isMine t n, Returned w i (.approveHeld id isMine t) (.merged n) →
    ∃ h later, Answered w i id (some h) none later ∧
      ∀ s ∈ later, ∀ o t', opOf w s = some (.holdLog o t') → o.deviceId = id →
        ¬ (o.checkpoint.seq = h.checkpoint.seq ∧ o.checkpoint.head = h.checkpoint.head)

section

variable {p : Phone} {w : HeldWatch} {i : Nat} {op : HeldOp} {a : Outcome} {d : Blob}

/-- Who is not about a device leaves its log. -/
theorem elsewhere_same (h : w.InOrder Phone.held marks Change NoChange p)
    {s : Save (Option (List HeldLog)) Mark} (hs : s ∈ w.saves) (hnot : ¬ About w d s) :
    heldOf d (s.left.getD []) = heldOf d (s.found.getD []) := by
  obtain ⟨c, a, hc, -, hchange⟩ := h.saves s hs
  exact hchange.elsewhere fun hd => hnot ⟨c.op, by rw [opOf, hc]; rfl, hd.symm⟩

/-- A call that saved: where it stands among the saves, and what it changed. -/
theorem answered_of_saved (h : w.InOrder Phone.held marks Change NoChange p)
    (hret : Returned w i op a) (hsaved : ∃ s ∈ w.saves, s.call = i) :
    ∃ before s later, w.saves = before ++ s :: later ∧ s.call = i ∧
      Change op s.found s.look.marked s.marked s.left a ∧
      Answered w i d (heldOf d (s.found.getD [])) (heldOf d (s.left.getD [])) later := by
  obtain ⟨s, hs, hi⟩ := hsaved
  obtain ⟨before, later, hsplit⟩ := List.append_of_mem hs
  obtain ⟨c, hc, rfl, hrest⟩ := hret
  obtain ⟨c', a', hc', hrest', hchange⟩ := h.saves s hs
  rw [hi] at hc'
  obtain rfl := Option.some.inj (hc.symm.trans hc')
  obtain rfl := Task.ret.inj (hrest.symm.trans hrest')
  refine ⟨before, s, later, hsplit, hi, hchange, ⟨before, s, hsplit, hi, rfl, rfl⟩, fun hnot => ?_⟩
  have hchain := h.chained
  rw [hsplit] at hchain
  refine hchain.same (fun list => heldOf d (list.getD [])) fun s' hs' => ?_
  exact elsewhere_same h (hsplit ▸ List.mem_append_right _ (List.mem_cons_of_mem _ hs')) (hnot s' hs')

/-- What calls that save one at a time come to for the logs. -/
theorem answersStay_of_inOrder (h : w.InOrder Phone.held marks Change NoChange p)
    (hown : Mark.own.In p.session) : AnswersStay p w where
  inOrder := h
  untouched d hnot := h.chained.start (fun list => heldOf d (list.getD [])) fun s hs =>
    elsewhere_same h hs (hnot s hs)
  offered i o t n hret := by
    obtain ⟨c, hc, hop, hrest⟩ := hret
    rcases h.returned i c _ hc hrest with hsaved | ⟨look, -, hno⟩
    · obtain ⟨before, s, later, -, -, ⟨-, -, hleft, -⟩, hans⟩ :=
        answered_of_saved (d := o.deviceId) h ⟨c, hc, hop, hrest⟩ hsaved
      rw [hleft] at hans
      have hheld : heldOf o.deviceId ((some (without o.deviceId (s.found.getD []) ++
          [o.entry t])).getD []) = some (o.entry t) := heldOf_held rfl
      rw [hheld] at hans
      exact ⟨_, later, hans⟩
    · rw [hop] at hno
      cases hno
  declined i id hret := by
    obtain ⟨c, hc, hop, hrest⟩ := hret
    rcases h.returned i c _ hc hrest with hsaved | ⟨look, hlook, hno⟩
    · obtain ⟨before, s, later, -, -, ⟨x, valid, hx, hleft, -⟩, hans⟩ :=
        answered_of_saved (d := id) h ⟨c, hc, hop, hrest⟩ hsaved
      have hdeclined : heldOf id ((some (changed id (HeldLog.decline valid)
          (s.found.getD []))).getD []) = some (x.decline valid) := by
        rw [Option.getD_some, heldOf_changed (f := HeldLog.decline valid) fun _ => rfl, hx]
        rfl
      rw [hleft, hdeclined, hx] at hans
      exact .inr ⟨x, valid, later, hans⟩
    · rw [hop] at hno
      exact .inl ⟨c, look, hc, hlook, hno.1⟩
  notMine i id hret := by
    obtain ⟨c, hc, hop, hrest⟩ := hret
    rcases h.returned i c _ hc hrest with hsaved | ⟨look, hlook, hno⟩
    · obtain ⟨before, s, later, -, -, ⟨x, hx, hleft, -⟩, hans⟩ :=
        answered_of_saved (d := id) h ⟨c, hc, hop, hrest⟩ hsaved
      have hleaked : heldOf id ((some (changed id HeldLog.leaked (s.found.getD []))).getD []) =
          some x.leaked := by
        rw [Option.getD_some, heldOf_changed (f := HeldLog.leaked) fun _ => rfl, hx]
        rfl
      rw [hleft, hleaked, hx] at hans
      exact .inr ⟨x, later, hans⟩
    · rw [hop] at hno
      exact .inl ⟨c, look, hc, hlook, hno.1⟩
  merged i id isMine t n hret := by
    obtain ⟨c, hc, hop, hrest⟩ := hret
    rcases h.returned i c _ hc hrest with hsaved | ⟨look, -, hno⟩
    · obtain ⟨before, s, later, hsplit, -, ⟨x, hx, hpoint, hleft, -⟩, hans⟩ :=
        answered_of_saved (d := id) h ⟨c, hc, hop, hrest⟩ hsaved
      have hgone : heldOf id ((some (without id (s.found.getD []))).getD []) = none :=
        heldOf_without
      rw [hleft, hgone, hx] at hans
      refine ⟨x, later, hans, fun s' hs' o t' hop' hid hsame => ?_⟩
      obtain ⟨c', a', hc', -, hchange⟩ := h.saves s'
        (hsplit ▸ List.mem_append_right _ (List.mem_cons_of_mem _ hs'))
      have hc'' : c'.op = .holdLog o t' := by
        rw [opOf, hc'] at hop'
        exact Option.some.inj hop'
      rw [hc''] at hchange
      obtain ⟨-, hunmarked, -⟩ := hchange
      -- the point was in the copy when the offer was looked at
      have hs : s ∈ w.saves := hsplit ▸ List.mem_append_right _ List.mem_cons_self
      have hmark := hpoint (h.start s hs hown)
      have hapart := h.apart
      rw [hsplit] at hapart
      have hle := ((List.pairwise_cons.mp (List.pairwise_append.mp hapart).2.1).1 s' hs').2
      rw [hid, hsame.1, hsame.2] at hunmarked
      exact hunmarked (hle hmark)
    · rw [hop] at hno
      exact hno.elim

end

/-- While no call saves the held logs over a save that it has not seen, the calls change them one
at a time in the order of their saves, a log is as the last call about its device left it, and
what was approved and merged is not held again at the same checkpoint. -/
theorem held_one_at_a_time {p : Phone} {w : HeldWatch} (hown : Mark.own.In p.session)
    (run : Watch.Runs Phone.held marks (HeldOp.task L D) (.init p) w)
    (h : w.Undisturbed PhoneAnswer.fails) : AnswersStay p w :=
  answersStay_of_inOrder (run.inOrder reads_and_saves Change.mono h) hown

/-! ### A run of five calls -/

namespace Demo

/-- What a device says of itself. -/
def statementOf (id : Blob) : Statement := ⟨id, [], [], none, "phone", [], []⟩

/-- An offer of a device's log up to a seq. -/
def offerOf (id : Blob) (seq : Nat) : Offer :=
  ⟨id, [], [], [], ⟨seq, [], [], []⟩, statementOf id, "nitro16", [], none⟩

/-- A library that calls every log new, good and complete. -/
def devicesLib : DevicesLib where
  classify := fun _ _ _ _ => ⟨.mineNew, none, true, none⟩
  remember := fun known _ => known
  checkOpenings := fun _ _ _ _ => some []
  completeness := fun _ _ _ _ _ _ => some (true, [])

/-- A phone that holds these logs. -/
def holding (list : List HeldLog) : Phone :=
  ⟨Session.start fun _ => none, some list, none, fun _ _ => none⟩

/-- A log of that device, held. -/
def heldLog (id : Blob) : HeldLog := (offerOf id 3).entry 1

/-- The same, with the copies of devices 1 and 2 in memory. -/
def phone : Phone :=
  { holding [heldLog [1]] with
    session := { Session.start (fun _ => none) with
      inMemory := fun id => if id = [1] ∨ id = [2] then some (emptyMirror id) else none } }

/-- The copies of the phone are their devices' own. -/
theorem own_phone : Mark.own.In phone.session := by
  intro id m hm
  have hm' : (if id = [1] ∨ id = [2] then some (emptyMirror id) else none) = some m := hm
  split at hm'
  · obtain rfl := Option.some.inj hm'
    rfl
  · cases hm'

/-- A call with the libraries of the tests. -/
abbrev task (op : HeldOp) : PhoneAsync Outcome := op.task Store.Demo.lib devicesLib

/-- The calls that are made. -/
def ops : List HeldOp :=
  [.approveHeld [1] true 9, .holdLog (offerOf [1] 3) 4, .holdLog (offerOf [2] 3) 5,
    .declineHeld [2], .holdLog (offerOf [1] 3) 6]

/-- A call that has just been made. -/
def fresh (op : HeldOp) : Call HeldOp PhoneAnswer Phone Outcome (Option (List HeldLog)) Mark :=
  ⟨op, task op, [], none⟩

/-- All five are made at once. -/
def made : HeldWatch := ⟨phone, ops.map fresh, [], True⟩

/-- The run that makes the calls. -/
theorem made_runs : Watch.Runs Phone.held marks task (.init phone) made :=
  ((((Watch.Runs.refl.tail (.call _)).tail (.call _)).tail (.call _)).tail (.call _)).tail (.call _)

/-- What a key answers while a log is approved, up to the call's last wait. -/
def approving : List PhoneAnswer :=
  [.owner (some ⟨[], []⟩), .store .ok, .store .ok, .store .ok, .store .ok, .store .ok, .store .ok]

/-- The phone when device 1's log is merged. -/
def merging : Phone := (task (.approveHeld [1] true 9)).solo (.store .ok :: approving) phone

/-- A copy put in memory takes no mark away. -/
theorem marks_setInMemory {p : Phone} {id : Blob} {m : Mirror} (hid : m.deviceId = id)
    (hmerged : ∀ m₀, p.session.inMemory id = some m₀ → m₀.merged = []) :
    marks p ⊆ marks { p with session := p.session.setInMemory id (some m) } := by
  have hother {d : Blob} (hd : d ≠ id) :
      (p.session.setInMemory id (some m)).inMemory d = p.session.inMemory d := by
    simp [Session.setInMemory, hd]
  have hself : (p.session.setInMemory id (some m)).inMemory id = some m := by
    simp [Session.setInMemory]
  intro x hx
  -- a mark of another device stays; one of this device is in the new copy
  cases x with
  | own =>
    intro d m' hm'
    by_cases hd : d = id
    · subst hd
      obtain rfl := Option.some.inj (hself.symm.trans hm')
      exact hid
    · exact hx d m' ((hother hd).symm.trans hm')
  | loaded d =>
    by_cases hd : d = id
    · subst hd
      exact ⟨m, hself⟩
    · obtain ⟨m', hm'⟩ := hx
      exact ⟨m', (hother hd).trans hm'⟩
  | merged d seq head =>
    obtain ⟨m', hm', y, hy, hpoint⟩ := hx
    by_cases hd : d = id
    · subst hd
      rw [hmerged m' hm'] at hy
      cases hy
    · exact ⟨m', (hother hd).trans hm', y, hy, hpoint⟩

/-- The approval goes through the reads and saves of storage that it makes. -/
theorem approving_quietly :
    ((task (.approveHeld [1] true 9)).left [.store .ok] phone).Quietly Phone.held marks approving
      phone := by
  refine ⟨fun _ => rfl, le_rfl, fun _ => rfl, le_rfl, ?_⟩
  -- the log is judged
  refine ⟨fun _ => rfl, le_rfl, fun _ => rfl, le_rfl, fun _ => rfl, le_rfl, fun _ => rfl, le_rfl, ?_⟩
  refine ⟨fun _ => rfl, le_rfl, fun _ => rfl, le_rfl, fun _ => rfl, le_rfl, ?_⟩
  -- its merge point comes into the copy
  refine ⟨fun _ => rfl, marks_setInMemory rfl fun m₀ hm₀ => ?_, ?_⟩
  · obtain rfl := Option.some.inj hm₀
    rfl
  refine ⟨fun _ => rfl, le_rfl, fun _ => rfl, le_rfl, ?_⟩
  exact ⟨fun _ => rfl, le_rfl, fun _ => rfl, le_rfl, rfl⟩

/-- What a key answers while a log is declined, up to the call's last wait. -/
def judging : List PhoneAnswer :=
  [.store .ok, .owner (some ⟨[], []⟩), .store .ok]

/-- A first answer that does not fail. -/
theorem answer_ok : ∀ a ∈ ([] ++ [PhoneAnswer.store .ok]).head?, ¬ PhoneAnswer.fails a := by
  intro a ha
  obtain rfl := Option.some.inj ha
  exact id

/-- The phone when device 1's log has been approved. -/
def approved : Phone := { merging with held := some [] }

/-- Device 1's log is approved, while an offer of it is made and refused. -/
theorem approved_runs : ∃ w : HeldWatch, Watch.Runs Phone.held marks task (.init phone) w ∧
    w.Undisturbed PhoneAnswer.fails ∧ w.shared = approved ∧
    ∃ c₀ c₁, w.calls = c₀ :: c₁ :: (ops.drop 2).map fresh ∧
      c₀.rest = .ret (.merged 0) ∧ c₁.rest = .ret (.held false 0) := by
  have hmade : made.Undisturbed PhoneAnswer.fails :=
    ⟨(fun i save h => by cases h), trivial, fun c hc a ha => by
      obtain ⟨op, -, rfl⟩ := List.mem_map.mp hc
      cases ha⟩
  -- the approve looks, and so does the offer
  obtain ⟨⟨_, _, _, _⟩, c₀, run, h⟩ := made_runs.goes (i := 0) rfl rfl [.store .ok]
    ⟨fun _ => rfl, le_rfl, rfl⟩
  have hu := h.undisturbed hmade answer_ok
  have hlook := h.fresh fun _ h => by cases h
  obtain ⟨rfl, rfl, rfl, -, -, hrest, hheard, -, -⟩ := h
  obtain ⟨⟨_, _, _, _⟩, c₁, run, h⟩ := run.goes (i := 1) rfl rfl [.store .ok]
    ⟨fun _ => rfl, le_rfl, rfl⟩
  replace hu := h.undisturbed hu answer_ok
  obtain ⟨rfl, rfl, rfl, -, -, hrest₁, -, -, -⟩ := h
  -- the approve goes on to its save
  obtain ⟨⟨_, _, _, _⟩, c₀', run, h⟩ := run.goes (i := 0) rfl hrest approving approving_quietly
  replace hu := h.undisturbed hu (by rw [hheard]; exact answer_ok)
  replace hlook := h.fresh hlook
  obtain ⟨rfl, rfl, rfl, -, -, hrest', hheard', -, -⟩ := h
  obtain ⟨⟨_, _, _, _⟩, c₀'', run, h⟩ := run.saves (i := 0) rfl hrest' (.store .ok) rfl
    (saves_held _) le_rfl
  replace hu := h.undisturbed hu (by rw [hheard', hheard]; exact answer_ok) hlook
  obtain ⟨rfl, rfl, ⟨_, rfl, -⟩, -, -, hrest₀, -⟩ := h
  exact ⟨_, run, hu, rfl, c₀'', c₁, rfl, hrest₀, hrest₁⟩


/-- Then device 2's log is offered, and held. -/
theorem offered_runs : ∃ w : HeldWatch, Watch.Runs Phone.held marks task (.init phone) w ∧
    w.Undisturbed PhoneAnswer.fails ∧
    w.shared = { approved with held := some [(offerOf [2] 3).entry 5] } ∧
    ∃ c₀ c₁ c₂, w.calls = c₀ :: c₁ :: c₂ :: (ops.drop 3).map fresh ∧
      c₀.rest = .ret (.merged 0) ∧ c₁.rest = .ret (.held false 0) ∧
      c₂.rest = .ret (.held true 0) := by
  obtain ⟨⟨_, _, _, _⟩, run, hu, rfl, c₀, c₁, rfl, hrest₀, hrest₁⟩ := approved_runs
  obtain ⟨⟨_, _, _, _⟩, c₂, run, h⟩ := run.goes (i := 2) rfl rfl [.store .ok]
    ⟨fun _ => rfl, le_rfl, fun _ => rfl, le_rfl, rfl⟩
  replace hu := h.undisturbed hu answer_ok
  have hlook := h.fresh fun _ h => by cases h
  obtain ⟨rfl, rfl, -, -, -, hrest, hheard, -, -⟩ := h
  obtain ⟨⟨_, _, _, _⟩, c₂', run, h⟩ := run.saves (i := 2) rfl hrest (.store .ok) rfl
    (saves_held _) le_rfl
  replace hu := h.undisturbed hu (by rw [hheard]; exact answer_ok) hlook
  obtain ⟨rfl, rfl, ⟨_, rfl, -⟩, -, -, hrest₂, -⟩ := h
  exact ⟨_, run, hu, rfl, c₀, c₁, c₂', rfl, hrest₀, hrest₁, hrest₂⟩

/-- Then device 2's log is declined, and device 1's is offered again at the checkpoint that was
merged. -/
theorem five_calls : ∃ w : HeldWatch, Watch.Runs Phone.held marks task (.init phone) w ∧
    w.Undisturbed PhoneAnswer.fails ∧ heldNow w = [((offerOf [2] 3).entry 5).decline true] ∧
    w.calls.map Call.rest = [.ret (.merged 0), .ret (.held false 0), .ret (.held true 0),
      .ret .done, .ret (.held false 0)] := by
  obtain ⟨⟨_, _, _, _⟩, run, hu, rfl, c₀, c₁, c₂, rfl, hrest₀, hrest₁, hrest₂⟩ := offered_runs
  obtain ⟨⟨_, _, _, _⟩, c₃, run, h⟩ := run.goes (i := 3) rfl rfl judging
    ⟨fun _ => rfl, le_rfl, fun _ => rfl, le_rfl, fun _ => rfl, le_rfl, fun _ => rfl, le_rfl,
      fun _ => rfl, le_rfl, fun _ => rfl, le_rfl, rfl⟩
  replace hu := h.undisturbed hu answer_ok
  have hlook := h.fresh fun _ h => by cases h
  obtain ⟨rfl, rfl, -, -, -, hrest, hheard, -, -⟩ := h
  obtain ⟨⟨_, _, _, _⟩, c₃', run, h⟩ := run.saves (i := 3) rfl hrest (.store .ok) rfl
    (saves_held _) le_rfl
  replace hu := h.undisturbed hu (by rw [hheard]; exact answer_ok) hlook
  obtain ⟨rfl, rfl, ⟨_, rfl, -⟩, -, -, hrest₃, -⟩ := h
  obtain ⟨⟨_, _, _, _⟩, c₄, run, h⟩ := run.goes (i := 4) rfl rfl [.store .ok]
    ⟨fun _ => rfl, le_rfl, fun _ => rfl, le_rfl, rfl⟩
  replace hu := h.undisturbed hu answer_ok
  obtain ⟨rfl, rfl, -, -, -, hrest₄, -, -, -⟩ := h
  refine ⟨_, run, hu, rfl, ?_⟩
  show [c₀.rest, c₁.rest, c₂.rest, c₃'.rest, c₄.rest] = _
  rw [hrest₀, hrest₁, hrest₂, hrest₃, hrest₄]
  rfl

end Demo

theorem held_one_at_a_time_five : ∃ w : HeldWatch,
    Watch.Runs Phone.held marks Demo.task (.init Demo.phone) w ∧
      heldNow w = [((Demo.offerOf [2] 3).entry 5).decline true] ∧
      w.calls.map Call.rest = [.ret (.merged 0), .ret (.held false 0), .ret (.held true 0),
        .ret .done, .ret (.held false 0)] ∧ AnswersStay Demo.phone w := by
  obtain ⟨w, run, hu, hheld, hrests⟩ := Demo.five_calls
  exact ⟨w, run, hheld, hrests, held_one_at_a_time Demo.own_phone run hu⟩

/-! ### A decline that saves over an offer -/

namespace Demo

/-- Task `i` makes `n` steps. -/
def turns (i n : Nat) : List (Nat × PhoneAnswer) := List.replicate n (i, .store .ok)

/-- Device 1's log is declined; while that reads, device 2's log is offered and held. -/
def declining : Pool PhoneAnswer Phone :=
  Pool.play (turns 0 2 ++ turns 1 12)
    ⟨holding [heldLog [1]], [(task (.declineHeld [1])).bind fun _ => .ret (),
      (task (.holdLog (offerOf [2] 3) 2)).bind fun _ => .ret ()]⟩

/-- The decline goes on to its end. -/
def declined : Pool PhoneAnswer Phone := declining.play (turns 0 20)

end Demo

/-- The calls on held logs as tasks of a pool. -/
def HeldTask (L : EdgeLib) (D : DevicesLib) (t : Task PhoneAnswer Phone Unit) : Prop :=
  ∃ op : HeldOp, t = (op.task L D).bind fun _ => .ret ()

/-- A log that was offered and held while another log's decline was running is not held when that
decline ends, though no other call was made. -/
theorem offer_lost_beside_decline :
    ∃ u w : Pool PhoneAnswer Phone,
      Pool.Runs (HeldTask Store.Demo.lib Demo.devicesLib) (fun _ _ => False)
        ⟨Demo.holding [Demo.heldLog [1]], []⟩ u ∧
      w = u.play (Demo.turns 0 20) ∧
      u.tasks.length = 2 ∧ (∀ t ∈ u.tasks.drop 1, t.Settled) ∧ (∀ t ∈ w.tasks, t.Settled) ∧
      (heldOf [2] (u.shared.held.getD [])).isSome = true ∧
      heldOf [2] (w.shared.held.getD []) = none := by
  refine ⟨Demo.declining, Demo.declined, ?_, rfl, rfl, ?_, ?_, ?_, ?_⟩
  · refine Pool.runs_play _ ((Pool.Runs.refl.tail (.call _ ?_)).tail (.call _ ?_))
    · exact ⟨.declineHeld [1], rfl⟩
    · exact ⟨.holdLog _ 2, rfl⟩
  · intro t ht
    obtain rfl : t = .ret () := List.mem_singleton.mp ht
    trivial
  · intro t ht
    obtain rfl | ht := List.mem_cons.mp ht
    · trivial
    · obtain rfl : t = .ret () := List.mem_singleton.mp ht
      trivial
  · decide +kernel
  · decide +kernel

end OkRn.Devices
