/-
OkRn/Devices/Offers.lean

Offers about one device and the answers to them, one after another.

Which log is held is decided by the checkpoint seq an offer names, before
anything in it is checked.  A `Desk` is what this decision reads, with what the
run has seen: the logs that checked out when they were offered, and the logs the
person answered.  `Desk.Fair` says that no offer that does not check out gets in the
way of one that does; then every log that checked out is covered: held and
waiting, merged or answered, itself or a newer one of the device.

* `heldAfter` is what an offer leaves held, and `judged` what a check on this phone finds;
* `Desk.step` is one event; that the calls do just this when they run alone is proved with
  the calls, event by event;
* `Desk.Covers` is what is to last of a log that checked out, and `Desk.FairStep` the
  condition on the offers;
* one event keeps what is covered (`Desk.Covers.step`), and an offer that checks out is
  covered then (`Desk.covers_offered`).

Main results: `good_log_is_covered`, and `bad_offer_shuts_out` for a forged offer of a
newer checkpoint.
-/
import OkRn.Devices.Held
import OkRn.Store.Demo

namespace OkRn.Devices

open OkRn.Store

variable {L : EdgeLib} {D : DevicesLib}

/-! ### What an offer does -/

/-- The held logs after `holdLog`, when the copy has these merge points and the log checks out or
not. -/
def heldAfter (o : Offer) (now : Nat) (merged : List MergePoint) (ok : Bool)
    (list : List HeldLog) : List HeldLog :=
  if o.nothingNew (heldOf o.deviceId list) then list
  else if o.mergedAlready merged then list
  else if o.same (heldOf o.deviceId list) && !ok then list
  else without o.deviceId list ++ [o.entry now]

/-! ### What the phone says of a log -/

/-- The phone after new objects for a log's records. -/
def allocated (h : HeldLog) (p : Phone) : Phone :=
  { p with session := (Async.freshRecords h.records p.session).2 }

/-- What `judge` finds on this phone. -/
def judged (L : EdgeLib) (D : DevicesLib) (owner : Option OwnerKey) (h : HeldLog)
    (mirror : Mirror) (p : Phone) : HeldView :=
  let records := (Async.freshRecords h.records p.session).1
  let again := (Async.freshRecords h.records (allocated h p).session).1
  viewOf h (classOf D owner (p.devices.getD []) h mirror records)
    ((wholeCheck L D h mirror again).getD notChecked)

/-! ### The log an offer brings -/

/-- An offer with what this phone holds of that chain. -/
def Offer.joined (L : EdgeLib) (copy : List EdgeLinkRecord) (was : Option HeldLog) (o : Offer) :
    Offer :=
  let objects (rs : List RawLink) : List EdgeLinkRecord := rs.map fun r => { r with ref := 0 }
  o.joinedWith L copy (objects ((was.map HeldLog.records).getD [])) (objects o.records)

/-- A log that waits for an answer. -/
def HeldLog.waits (h : HeldLog) : Bool := !h.declined && !h.leak

/-- A held log without its answer: as it was offered. -/
def HeldLog.bare (h : HeldLog) : HeldLog :=
  { h with declined := false, declinedValid := false, leak := false }

/-! ### The desk -/

/-- The held logs, the copy of the device with its merge points, and what the run has seen. -/
structure Desk where
  held : List HeldLog
  copy : List EdgeLinkRecord
  merged : List MergePoint
  /-- The logs that checked out when they were offered. -/
  good : List HeldLog
  answered : List HeldLog

/-- A desk on which nothing was offered yet; a log that does not wait was answered. -/
def Desk.start (id : Blob) (held : List HeldLog) (copy : List EdgeLinkRecord)
    (merged : List MergePoint) : Desk where
  held := held
  copy := copy
  merged := merged
  good := []
  answered := ((heldOf id held).toList.filter fun h => !h.waits).map HeldLog.bare

/-- An offer, or one of the three answers. -/
inductive DeskEvent
  | offer (o : Offer) (now : Nat)
  | decline
  | notMine
  /-- The device is known, or it was said to be yours. -/
  | approve (mine : Bool) (now : Nat)

namespace Desk

variable (L) in
/-- The log an offer brings, with what is held. -/
def brings (o : Offer) (now : Nat) (d : Desk) : HeldLog :=
  (o.joined L d.copy (heldOf o.deviceId d.held)).entry now

variable (L) in
/-- The log an offer brings by itself. -/
def bringsAlone (o : Offer) (now : Nat) (d : Desk) : HeldLog :=
  (o.joined L d.copy none).entry now

/-- The held log is answered. -/
def answer (id : Blob) (f : HeldLog → HeldLog) (d : Desk) : Desk :=
  match heldOf id d.held with
  | none => d
  | some h => { d with held := changed id f d.held, answered := h.bare :: d.answered }

variable (L) in
/-- The offered log is held and merged, or not: `check` is what a check says of a log now. -/
def step (id : Blob) (check : HeldLog → Bool) : DeskEvent → Desk → Desk
  | .offer o now, d =>
      let o' := o.joined L d.copy (heldOf o.deviceId d.held)
      { d with
        held := heldAfter o' now d.merged (check (d.brings L o now)) d.held
        good := if check (d.brings L o now) then d.brings L o now :: d.good else d.good }
  | .decline, d => match heldOf id d.held with
    | none => d
    | some h => d.answer id fun x => { x with declined := true, declinedValid := check h }
  | .notMine, d => d.answer id fun x => { x with leak := true }
  | .approve mine now, d => match heldOf id d.held with
    | none => d
    | some h =>
        let records : List EdgeLinkRecord := h.records.map fun r => { r with ref := 0 }
        let m := L.merge d.copy records
        -- a fork keeps nothing, and the log stays held
        if check h && mine && m.conflicts.isEmpty then
          { d with
            held := without id d.held
            copy := m.links
            merged := oneAnchor MergePoint.dropPq (d.merged ++ [h.point now])
            answered := h.bare :: d.answered }
        else d

end Desk

/-! ### The list of held logs -/

variable {id : Blob} {list : List HeldLog} {e h w : HeldLog} {o : Offer} {d : Desk}
  {check : HeldLog → Bool} {now n : Nat} {ev : DeskEvent}

/-- Every merge point is still there when only the last keeps its second signature. -/
theorem seq_mem_oneAnchor {m : MergePoint} {points : List MergePoint} (hm : m ∈ points) :
    ∃ m' ∈ oneAnchor MergePoint.dropPq points, m'.seq = m.seq := by
  induction points with
  | nil => cases hm
  | cons x xs ih =>
    rcases xs with - | ⟨y, ys⟩
    · exact ⟨x, by simp [oneAnchor], by rw [List.mem_singleton.mp hm]⟩
    · rcases List.mem_cons.mp hm with rfl | hm
      · exact ⟨m.dropPq, List.mem_cons_self, rfl⟩
      · obtain ⟨m', hm', hseq⟩ := ih hm
        exact ⟨m', List.mem_cons_of_mem _ hm', hseq⟩

/-! ### Covered logs -/

/-- A log of this checkpoint seq, or a newer one, that checked out when it was offered is held and
waiting, or was answered, or such a point is merged. -/
def Desk.Covers (id : Blob) (d : Desk) (n : Nat) : Prop :=
  (∃ w, heldOf id d.held = some w ∧ w.waits = true ∧ w.bare ∈ d.good ∧ n ≤ w.checkpoint.seq) ∨
  (∃ a ∈ d.answered, a ∈ d.good ∧ n ≤ a.checkpoint.seq) ∨ ∃ m ∈ d.merged, n ≤ m.seq

/-- No offer that does not check out gets in the way.  One that checks out by itself does so with
the records held, and a held log that did not check out does not make it nothing new; one that
does not check out does not take the place of a waiting log that did. -/
def Desk.FairStep (L : EdgeLib) (id : Blob) (check : HeldLog → Bool) : DeskEvent → Desk → Prop
  | .offer o now, d => o.deviceId = id ∧
      (check (d.bringsAlone L o now) = true → check (d.brings L o now) = true ∧
        ∀ w, heldOf id d.held = some w → w.bare ∉ d.good → o.nothingNew (some w) = false) ∧
      (check (d.brings L o now) = false → ∀ w, heldOf id d.held = some w → w.waits = true →
        w.bare ∈ d.good →
          o.nothingNew (some w) = true ∨ o.mergedAlready d.merged = true ∨ o.same (some w) = true)
  | _, _ => True

/-- A held log that does not wait was answered. -/
def Desk.Answered (id : Blob) (d : Desk) : Prop :=
  ∀ w, heldOf id d.held = some w → w.waits = false → w.bare ∈ d.answered

/-- At the start every log that does not wait counts as answered. -/
theorem answered_start {copy : List EdgeLinkRecord} {merged : List MergePoint}
    {good : List HeldLog} :
    ({ Desk.start id list copy merged with good := good } : Desk).Answered id := by
  intro w hw hwaits
  show w.bare ∈ ((heldOf id list).toList.filter fun h => !h.waits).map HeldLog.bare
  rw [show heldOf id list = some w from hw]
  simp [hwaits]

/-- An answer adds the log it answers. -/
theorem Desk.Answered.answer (ha : d.Answered id) {f : HeldLog → HeldLog}
    (hid : ∀ h, (f h).deviceId = h.deviceId) (hbare : ∀ h, (f h).bare = h.bare) :
    (d.answer id f).Answered id := by
  unfold Desk.answer
  split
  · exact ha
  · rename_i h hh
    intro w hw _
    show w.bare ∈ h.bare :: d.answered
    have hw' : heldOf id (changed id f d.held) = some w := hw
    rw [heldOf_changed hid, hh] at hw'
    obtain rfl := Option.some.inj hw'
    rw [hbare]
    exact List.mem_cons_self

/-- What is covered is covered by the answer of the log that covered it. -/
theorem Desk.Covers.answer (hc : d.Covers id n) {f : HeldLog → HeldLog} :
    (d.answer id f).Covers id n := by
  unfold Desk.answer
  split
  · exact hc
  · rename_i h hh
    rcases hc with ⟨w, hw, -, hgood, hn⟩ | ⟨a, ha, hgood, hn⟩ | hm
    · -- the waiting log is the one answered
      rw [hh] at hw
      obtain rfl := Option.some.inj hw
      exact Or.inr (Or.inl ⟨h.bare, List.mem_cons_self, hgood, hn⟩)
    · exact Or.inr (Or.inl ⟨a, List.mem_cons_of_mem _ ha, hgood, hn⟩)
    · exact Or.inr (Or.inr hm)

/-- An offer that brings nothing new is no newer than the log held. -/
theorem seq_le_of_nothingNew (hnew : o.nothingNew (some w) = true) :
    o.checkpoint.seq ≤ w.checkpoint.seq := by
  simp only [Offer.nothingNew, Offer.same, Option.any_some, Bool.or_eq_true, Bool.and_eq_true,
    decide_eq_true_eq, beq_iff_eq] at hnew
  omega

/-- One that brings something is no older. -/
theorem le_seq_of_not_nothingNew (hnew : o.nothingNew (some w) = false) :
    w.checkpoint.seq ≤ o.checkpoint.seq := by
  simp only [Offer.nothingNew, Option.any_some, Bool.or_eq_false_iff, decide_eq_false_iff_not]
    at hnew
  omega

/-- An offer that was merged has such a merge point or a newer one. -/
theorem seq_le_of_mergedAlready {merged : List MergePoint}
    (hmerged : o.mergedAlready merged = true) : ∃ m ∈ merged, o.checkpoint.seq ≤ m.seq := by
  obtain ⟨m, hm, hle⟩ := List.any_eq_true.mp hmerged
  refine ⟨m, hm, ?_⟩
  simp only [Bool.or_eq_true, Bool.and_eq_true, decide_eq_true_eq, beq_iff_eq] at hle
  omega

/-- What an offer leaves held: what was, or the log it brings. -/
theorem heldAfter_cases (list : List HeldLog) (o : Offer) (now : Nat) (merged : List MergePoint) (ok : Bool) :
    (heldAfter o now merged ok list = list ∧ (o.nothingNew (heldOf o.deviceId list) = true ∨
      o.mergedAlready merged = true ∨ (o.same (heldOf o.deviceId list) = true ∧ ok = false))) ∨
    (heldOf o.deviceId (heldAfter o now merged ok list) = some (o.entry now) ∧
      o.nothingNew (heldOf o.deviceId list) = false ∧ o.mergedAlready merged = false ∧
      (o.same (heldOf o.deviceId list) = true → ok = true)) := by
  unfold heldAfter
  split
  · rename_i hnew
    exact Or.inl ⟨rfl, Or.inl hnew⟩
  · rename_i hnew
    split
    · rename_i hmerged
      exact Or.inl ⟨rfl, Or.inr (Or.inl hmerged)⟩
    · rename_i hmerged
      split
      · rename_i hsame
        rw [Bool.and_eq_true, Bool.not_eq_true'] at hsame
        exact Or.inl ⟨rfl, Or.inr (Or.inr hsame)⟩
      · rename_i hsame
        rw [Bool.not_eq_true] at hnew hmerged
        refine Or.inr ⟨heldOf_held rfl, hnew, hmerged, fun hs => ?_⟩
        cases ok with
        | true => rfl
        | false => exact absurd (by rw [hs]; rfl) hsame

/-! ### Steps -/

/-- An event keeps every log that does not wait among the answered. -/
theorem Desk.Answered.step (ha : d.Answered id) (hfair : d.FairStep L id check ev) :
    (d.step L id check ev).Answered id := by
  cases ev with
  | offer o now =>
    obtain ⟨rfl, -, -⟩ := hfair
    intro w hw hwaits
    rcases heldAfter_cases d.held (o.joined L d.copy (heldOf o.deviceId d.held)) now
      d.merged (check (d.brings L o now)) with ⟨hsame, -⟩ | ⟨hheld, -⟩
    · exact ha w (by rw [← hsame]; exact hw) hwaits
    · have hnew := hheld.symm.trans hw
      obtain rfl := Option.some.inj hnew
      cases hwaits
  | decline =>
    simp only [Desk.step]
    split
    · exact ha
    · exact ha.answer (fun _ => rfl) fun _ => rfl
  | notMine => exact ha.answer (fun _ => rfl) fun _ => rfl
  | approve mine now =>
    simp only [Desk.step]
    split
    · exact ha
    · split
      · intro w hw
        exact absurd (heldOf_without.symm.trans hw) (by simp)
      · exact ha

/-- What is covered stays covered. -/
theorem Desk.Covers.step (hc : d.Covers id n) (hfair : d.FairStep L id check ev) :
    (d.step L id check ev).Covers id n := by
  cases ev with
  | offer o now =>
    obtain ⟨rfl, -, hbad⟩ := hfair
    have hgrows : ∀ {x : HeldLog}, x ∈ d.good →
        x ∈ (d.step L o.deviceId check (.offer o now)).good := by
      intro x hx
      show x ∈ if check (d.brings L o now) then d.brings L o now :: d.good else d.good
      split
      · exact List.mem_cons_of_mem _ hx
      · exact hx
    -- what was covered waits in the list, was answered or was merged
    rcases hc with ⟨w, hw, hwaits, hgood, hn⟩ | ⟨a, ha, hgood, hn⟩ | hm
    · rcases heldAfter_cases d.held (o.joined L d.copy (heldOf o.deviceId d.held)) now
        d.merged (check (d.brings L o now)) with ⟨hsame, -⟩ | ⟨hheld, hnew, hmerged, hok⟩
      · exact Or.inl ⟨w, (congrArg (heldOf o.deviceId) hsame).trans hw, hwaits, hgrows hgood, hn⟩
      · -- the waiting log is replaced: by one that checks out and is no older
        have hnew' : o.nothingNew (some w) = false := hw ▸ hnew
        have hcheck : check (d.brings L o now) = true := by
          by_contra hno
          rw [Bool.not_eq_true] at hno
          rcases hbad hno w hw hwaits hgood with h | h | h
          · rw [hnew'] at h
            cases h
          · exact absurd (hmerged.symm.trans h) (by simp)
          · have hs := hok (hw ▸ h)
            rw [hno] at hs
            cases hs
        refine Or.inl ⟨d.brings L o now, hheld, rfl, ?_, hn.trans (le_seq_of_not_nothingNew hnew')⟩
        show d.brings L o now ∈ if check (d.brings L o now) then _ else _
        rw [if_pos hcheck]
        exact List.mem_cons_self
    · exact Or.inr (Or.inl ⟨a, ha, hgrows hgood, hn⟩)
    · exact Or.inr (Or.inr hm)
  | decline =>
    simp only [Desk.step]
    split
    · exact hc
    · exact hc.answer
  | notMine => exact hc.answer
  | approve mine now =>
    simp only [Desk.step]
    split
    · exact hc
    · rename_i h hh
      split
      · rcases hc with ⟨w, hw, -, hgood, hn⟩ | ⟨a, ha, hgood, hn⟩ | ⟨m, hm, hn⟩
        · rw [hh] at hw
          obtain rfl := Option.some.inj hw
          exact Or.inr (Or.inl ⟨h.bare, List.mem_cons_self, hgood, hn⟩)
        · exact Or.inr (Or.inl ⟨a, List.mem_cons_of_mem _ ha, hgood, hn⟩)
        · obtain ⟨m', hm', hseq⟩ := seq_mem_oneAnchor (List.mem_append_left [h.point now] hm)
          exact Or.inr (Or.inr ⟨m', hm', hseq ▸ hn⟩)
      · exact hc

/-- A log that checks out is covered when it is offered. -/
theorem Desk.covers_offered (ha : d.Answered id) (hfair : d.FairStep L id check (.offer o now))
    (hgood : check (d.bringsAlone L o now) = true) :
    (d.step L id check (.offer o now)).Covers id o.checkpoint.seq := by
  obtain ⟨rfl, hkeep, -⟩ := hfair
  obtain ⟨hcheck, hheldGood⟩ := hkeep hgood
  have hmem : (d.step L o.deviceId check (.offer o now)).good = d.brings L o now :: d.good :=
    if_pos hcheck
  rcases heldAfter_cases d.held (o.joined L d.copy (heldOf o.deviceId d.held)) now
    d.merged (check (d.brings L o now)) with ⟨hsame, hnew | hmerged | ⟨-, hno⟩⟩ | ⟨hheld, -⟩
  · -- nothing new: a log that checked out is held, waiting or answered
    rcases hw : heldOf o.deviceId d.held with - | w
    · have hnone : o.nothingNew none = true := hw ▸ hnew
      cases hnone
    · have hnew' : o.nothingNew (some w) = true := hw ▸ hnew
      have hgoodw : w.bare ∈ d.good := by
        by_contra hnot
        exact absurd hnew' (by rw [hheldGood w hw hnot]; simp)
      have hseq := seq_le_of_nothingNew hnew'
      -- what is held was answered, or it waits still
      rcases hwaits : w.waits with - | -
      · refine Or.inr (Or.inl ⟨w.bare, ha w hw hwaits, ?_, hseq⟩)
        rw [hmem]
        exact List.mem_cons_of_mem _ hgoodw
      · refine Or.inl ⟨w, (congrArg (heldOf o.deviceId) hsame).trans hw, hwaits, ?_, hseq⟩
        rw [hmem]
        exact List.mem_cons_of_mem _ hgoodw
  · exact Or.inr (Or.inr (seq_le_of_mergedAlready hmerged))
  · rw [hcheck] at hno
    cases hno
  · refine Or.inl ⟨d.brings L o now, hheld, rfl, ?_, le_rfl⟩
    rw [hmem]
    exact List.mem_cons_self

/-! ### Runs -/

/-- A sequence of offers and answers, each with what a check says then. -/
def Desk.run (L : EdgeLib) (id : Blob) (evs : List ((HeldLog → Bool) × DeskEvent)) (d : Desk) :
    Desk := evs.foldl (fun d e => d.step L id e.1 e.2) d

/-- No offer of the run gets in the way of another. -/
def Desk.Fair (L : EdgeLib) (id : Blob) : List ((HeldLog → Bool) × DeskEvent) → Desk → Prop
  | [], _ => True
  | e :: evs, d => d.FairStep L id e.1 e.2 ∧ Desk.Fair L id evs (d.step L id e.1 e.2)

variable {evs evs' : List ((HeldLog → Bool) × DeskEvent)}

/-- What is covered stays covered in a fair run. -/
theorem Desk.Covers.run (hc : d.Covers id n) (hfair : Desk.Fair L id evs d) :
    (d.run L id evs).Covers id n := by
  induction evs generalizing d with
  | nil => exact hc
  | cons e evs ih => exact ih (hc.step hfair.1) hfair.2

/-- A fair run is fair in both of its parts. -/
theorem Desk.Fair.append (hfair : Desk.Fair L id (evs ++ evs') d) :
    Desk.Fair L id evs d ∧ Desk.Fair L id evs' (d.run L id evs) := by
  induction evs generalizing d with
  | nil => exact ⟨trivial, hfair⟩
  | cons e evs ih =>
    obtain ⟨hstep, hrest⟩ := hfair
    obtain ⟨hevs, hevs'⟩ := ih hrest
    exact ⟨⟨hstep, hevs⟩, hevs'⟩

/-- A run keeps every log that does not wait among the answered. -/
theorem Desk.Answered.run (ha : d.Answered id) (hfair : Desk.Fair L id evs d) :
    (d.run L id evs).Answered id := by
  induction evs generalizing d with
  | nil => exact ha
  | cons e evs ih => exact ih (ha.step hfair.1) hfair.2

/-- In a run in which no offer that does not check out gets in the way, every log that checked out
when it was offered is covered at the end. -/
theorem good_log_is_covered (L : EdgeLib) (id : Blob) (list good : List HeldLog)
    (copy : List EdgeLinkRecord) (merged : List MergePoint)
    (before after : List ((HeldLog → Bool) × DeskEvent)) (check : HeldLog → Bool) (o : Offer)
    (now : Nat)
    (hfair : Desk.Fair L id (before ++ (check, .offer o now) :: after)
      { Desk.start id list copy merged with good := good })
    (hgood : check ((Desk.run L id before { Desk.start id list copy merged with good := good }
      ).bringsAlone L o now) = true) :
    (Desk.run L id (before ++ (check, .offer o now) :: after)
      { Desk.start id list copy merged with good := good }).Covers id o.checkpoint.seq := by
  obtain ⟨hbefore, hoffer, hafter⟩ := hfair.append
  rw [Desk.run, List.foldl_append]
  exact (Desk.covers_offered (answered_start.run hbefore) hoffer hgood).run hafter

namespace Demo

/-- What device 2 says of itself. -/
def statement (nametag : String) : Statement := ⟨[2], [], [], none, nametag, [], []⟩

/-- An offer of device 2's log up to a seq; the library calls it forged by its nametag. -/
def offerNamed (nametag : String) (seq : Nat) : Offer :=
  ⟨[2], [], [], [], ⟨seq, [], [], []⟩, statement nametag, "nitro16", [], none⟩

/-- A library that tells a log by its nametag. -/
def namedLib : DevicesLib where
  classify := fun log _ _ _ =>
    ⟨if log.statement.nametag = "forged" then .forged else .mineNew, none, true, none⟩
  remember := fun known _ => known
  checkOpenings := fun _ _ _ _ => some []
  completeness := fun _ _ _ _ _ _ => some (true, [])

/-- A phone that has never seen a log. -/
def empty : Phone := ⟨Session.start fun _ => none, none, none, fun _ _ => none⟩

/-- An offer that is taken alone. -/
def offered (o : Offer) (now : Nat) (p : Phone) : Phone :=
  (handleOffer Store.Demo.lib namedLib o now).solo (List.replicate 6 (.store .ok)) p

/-- A good log up to seq 3. -/
def good : Offer := offerNamed "Pixel" 3

/-- A forged offer that names a newer checkpoint. -/
def forged : Offer := offerNamed "forged" 9

/-- What the phone says of an offer on its own. -/
def verdict (o : Offer) (now : Nat) : Bool :=
  checksOut (judged Store.Demo.lib namedLib (some ⟨[], []⟩) (o.entry now) (emptyMirror [2]) empty)

/-- The check of the library, as a predicate. -/
def checkName (h : HeldLog) : Bool := h.statement.nametag != "forged"

/-- A good log, an older forged one, and a decline. -/
def fairRun : List ((HeldLog → Bool) × DeskEvent) :=
  [(checkName, .offer (offerNamed "forged" 2) 6), (checkName, .decline)]

/-- Nothing gets in the way in this run. -/
theorem fair_fairRun : Desk.Fair Store.Demo.lib [2] ([] ++ (checkName, .offer good 5) :: fairRun)
    { Desk.start [2] [] [] [] with good := [] } := by
  refine ⟨⟨rfl, fun _ => ⟨by decide, fun w hw => ?_⟩, fun hbad => ?_⟩, ⟨rfl, fun hgood => ?_,
    fun _ w hw _ _ => Or.inl ?_⟩, trivial, trivial⟩
  · cases hw
  · exact absurd hbad (by decide)
  · exact absurd hgood (by decide)
  · obtain rfl := Option.some.inj hw
    decide

end Demo

theorem good_log_is_covered_declined :
    (Desk.run Store.Demo.lib [2] ([] ++ (Demo.checkName, .offer Demo.good 5) :: Demo.fairRun)
      { Desk.start [2] [] [] [] with good := [] }).Covers [2] 3 :=
  good_log_is_covered Store.Demo.lib [2] [] [] [] [] [] Demo.fairRun Demo.checkName Demo.good 5
    Demo.fair_fairRun (by decide)

/-- A forged offer that names a newer checkpoint takes the place of a good log that waits, and
shuts a good log out that comes after it. -/
theorem bad_offer_shuts_out :
    Demo.verdict Demo.good 1 = true ∧ Demo.verdict Demo.forged 2 = false ∧
    heldOf [2] ((Demo.offered Demo.good 1 Demo.empty).held.getD []) = some (Demo.good.entry 1) ∧
    heldOf [2] ((Demo.offered Demo.forged 2 (Demo.offered Demo.good 1 Demo.empty)).held.getD []) =
      some (Demo.forged.entry 2) ∧
    heldOf [2] ((Demo.offered Demo.good 1 (Demo.offered Demo.forged 2 Demo.empty)).held.getD []) =
      some (Demo.forged.entry 2) := by
  decide +kernel

end OkRn.Devices
