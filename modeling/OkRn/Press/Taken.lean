/-
OkRn/Press/Taken.lean

A press goes to the request whose facts were on the sheet.

Nothing ties a queued press to its sheet's request, and a record is joined to a wait
only by opcode, slot and three seconds.  What keeps them together is the order in
which things happen (`Phone.Apart`):

* no request begins to wait while a press is on its way, nor while the app still has
  the wait of an earlier one of the same opcode and slot (`Phone.up`);
* a request's record is there before the poll that sees it wait;
* a tap is on a sheet with the opcode and slot of the request that waits, if one does.

Under it `Phone.Tied` holds of every wait that the app has: a request that waits and
looks like it is the one it was polled from, and so is a record that looks like it.

Main results: `presses_go_right`, and `a_press_signs_another` for a run in which a
second request looks like the first.
-/
import OkRn.Press.Wait
import OkRn.Lib.Along

namespace OkRn.Press

/-- The sheet shows the request's opcode, slot and, with the firmware's record, label and
message. -/
def Sheet.Shows (sheet : Sheet) (op : Op) : Prop :=
  sheet.w.opcode = op.opcode ∧ sheet.w.slot = op.slot ∧
    ∀ p ∈ sheet.fw, p.label = op.label ∧ p.subject = op.subject

/-- The wait has the request's opcode and slot, which is all that joins them. -/
def KeyWaiting.Like (w : KeyWaiting) (op : Op) : Prop := w.opcode = op.opcode ∧ w.slot = op.slot

instance (w : KeyWaiting) (op : Op) : Decidable (w.Like op) :=
  inferInstanceAs (Decidable (_ ∧ _))

/-- The wait was polled from the request whose number it has. -/
def KeyWaiting.Of (w : KeyWaiting) (ops : List Op) : Prop :=
  ∃ op, ops[w.op]? = some op ∧ w.Like op

/-- The record was made of the request whose number it has. -/
def FirmwarePress.Of (p : FirmwarePress) (ops : List Op) : Prop :=
  ∃ op, ops[p.op]? = some op ∧ op.records = true ∧ p = op.press p.op p.at_

/-- The operations so far keep their numbers. -/
theorem get_append {ops : List Op} {n : Nat} {op : Op} (h : ops[n]? = some op) (more : List Op) :
    (ops ++ more)[n]? = some op := by
  rw [List.getElem?_append_left (List.getElem?_eq_some_iff.mp h).1]
  exact h

/-- A wait is of its operation still. -/
theorem KeyWaiting.Of.append {w : KeyWaiting} {ops : List Op} (h : w.Of ops) (more : List Op) :
    w.Of (ops ++ more) := by
  obtain ⟨op, hget, hfacts⟩ := h
  exact ⟨op, get_append hget more, hfacts⟩

theorem FirmwarePress.Of.append {p : FirmwarePress} {ops : List Op} (h : p.Of ops)
    (more : List Op) : p.Of (ops ++ more) := by
  obtain ⟨op, hget, hfacts⟩ := h
  exact ⟨op, get_append hget more, hfacts⟩

namespace Phone

/-- Each press was taken by the request its sheet showed, and no sheet showed another's record. -/
structure Right (s : Phone) : Prop where
  taken : ∀ x ∈ s.taken, x.1.sheet.about = x.2 ∧
    ∃ op, s.ops[x.2]? = some op ∧ x.1.sheet.Shows op
  drawn : ∀ sheet ∈ s.drawn, ∀ p ∈ sheet.fw, p.op = sheet.w.op

/-- The waits that the app has: polled, seen, waited for and on the sheet. -/
def up (s : Phone) : List KeyWaiting :=
  s.reading.join.toList ++ s.seen.toList ++ (s.wait.map (·.w)).toList ++
    (s.sheet.map (·.w)).toList

/-- Requests that look alike do not meet: one begins to wait when no press is on its way and no
wait that looks like it is up; its record arrives before the poll that sees it; and a tap is on a
sheet that looks like the request that waits, if one does. -/
def Apart (s : Phone) : Event → Prop
  | .starts op => s.waiting = none →
      s.calls = [] ∧ s.queue = [] ∧ ∀ w ∈ s.up, ¬ w.Like op
  | .polls => s.reading = none → ∀ x ∈ s.waiting, x.1 ∉ s.records
  | .taps _ _ => ∀ sheet ∈ s.sheet, ∀ x ∈ s.waiting, ∀ op ∈ s.ops[x.1]?, sheet.w.Like op
  | _ => True

instance (s : Phone) (e : Event) : Decidable (s.Apart e) := by
  cases e <;> unfold Apart <;> infer_instance

/-- A request that waits, and a record that is there or on its way, are the wait's own if they look
like it. -/
structure Tied (s : Phone) (w : KeyWaiting) : Prop where
  of : w.Of s.ops
  waiting : ∀ x ∈ s.waiting, ∀ op ∈ s.ops[x.1]?, w.Like op → x.1 = w.op
  lastPress : ∀ p ∈ s.lastPress, p.opcode = w.opcode → p.slot = w.slot → p.op = w.op
  records : ∀ n ∈ s.records, ∀ op ∈ s.ops[n]?, w.Like op → n = w.op

/-- What holds while requests keep apart. -/
structure Inv (s : Phone) : Prop where
  waiting : ∀ x ∈ s.waiting, x.1 < s.ops.length
  lastPress : ∀ p ∈ s.lastPress, p.Of s.ops
  records : ∀ n ∈ s.records, ∃ op, s.ops[n]? = some op ∧ op.records = true
  /-- The record of the request that waits is the last one on its way, or the last that came. -/
  latest : ∀ x ∈ s.waiting, ∀ op ∈ s.ops[x.1]?, op.records = true →
    x.1 ∈ s.records.getLast? ∨ s.records = [] ∧ ∃ p ∈ s.lastPress, p.op = x.1
  up : ∀ w ∈ s.up, s.Tied w
  drawn : ∀ sheet ∈ s.drawn, sheet.w.Of s.ops ∧ ∀ p ∈ sheet.fw, p.Of s.ops ∧ p.op = sheet.w.op
  sheet : ∀ sheet ∈ s.sheet, sheet ∈ s.drawn
  /-- A press on its way is the waiting request's, if one waits. -/
  coming : ∀ p ∈ s.calls ++ s.queue, p.sheet ∈ s.drawn ∧ ∀ x ∈ s.waiting, p.sheet.about = x.1
  taken : ∀ x ∈ s.taken, x.1.sheet ∈ s.drawn ∧ x.1.sheet.about = x.2

variable {s : Phone}

/-! ### The sheet's request -/

/-- A drawn sheet is about the request it was polled from. -/
theorem Inv.about (h : s.Inv) {sheet : Sheet} (hsheet : sheet ∈ s.drawn) :
    sheet.about = sheet.w.op := by
  cases hfw : sheet.fw with
  | none => simp [Sheet.about, hfw]
  | some p => simpa [Sheet.about, hfw] using ((h.drawn sheet hsheet).2 p hfw).2

/-- So every press goes to its sheet's request. -/
theorem Inv.right (h : s.Inv) : s.Right where
  taken x hx := by
    obtain ⟨hdrawn, habout⟩ := h.taken x hx
    obtain ⟨⟨op, hget, hopcode, hslot⟩, hrecord⟩ := h.drawn _ hdrawn
    have hop := h.about hdrawn
    rw [← hop, habout] at hget
    refine ⟨habout, op, hget, hopcode, hslot, fun p hp => ?_⟩
    -- the record is of the request the poll saw, so its facts are the request's
    obtain ⟨⟨op', hget', -, hpress⟩, hsame⟩ := hrecord p hp
    rw [hsame, ← hop, habout] at hget'
    obtain rfl := Option.some.inj (hget.symm.trans hget')
    rw [hpress]
    exact ⟨rfl, rfl⟩
  drawn sheet hsheet p hp := ((h.drawn sheet hsheet).2 p hp).2

/-! ### The waits that are up -/

/-- The waits that the app has. -/
theorem mem_up {w : KeyWaiting} : w ∈ s.up ↔
    s.reading = some (some w) ∨ s.seen = some w ∨ (∃ x, s.wait = some x ∧ x.w = w) ∨
      ∃ sheet, s.sheet = some sheet ∧ sheet.w = w := by
  simp [up, Option.join_eq_some_iff]

/-- Only the requests, the one that waits and the records matter. -/
theorem Tied.same {t : Phone} {w : KeyWaiting} (h : s.Tied w) (hops : t.ops = s.ops)
    (hwaiting : t.waiting = s.waiting) (hlast : t.lastPress = s.lastPress)
    (hrecords : t.records = s.records) : t.Tied w := by
  obtain ⟨hof, hwait, hpress, hrec⟩ := h
  refine ⟨?_, ?_, ?_, ?_⟩
  · rw [hops]
    exact hof
  · rw [hwaiting, hops]
    exact hwait
  · rw [hlast]
    exact hpress
  · rw [hrecords, hops]
    exact hrec

/-- The app's side changed: each wait is tied, and the sheet and the presses are as they were. -/
theorem Inv.app (h : s.Inv) {reading : Option (Option KeyWaiting)} {seen last : Option KeyWaiting}
    {wait : Option Wait} {changed ready pressed : Bool} {lastRecord armed armedAt : Nat}
    (hup : ∀ w ∈ Phone.up { s with reading, seen, wait }, s.Tied w) :
    Inv { s with reading, seen, last, wait, changed, ready, pressed, lastRecord, armed, armedAt } :=
  ⟨h.waiting, h.lastPress, h.records, h.latest, fun w hw => (hup w hw).same rfl rfl rfl rfl, h.drawn, h.sheet,
    h.coming, h.taken⟩

/-- The app has a wait that is tied. -/
theorem Inv.setWaiting (h : s.Inv) {w : Option KeyWaiting} (hw : ∀ x ∈ w, s.Tied x) :
    (s.setWaiting w).Inv := by
  have hseen : ∀ k ∈ Phone.up { s with seen := w }, s.Tied k := by
    intro k hk
    rcases mem_up.mp hk with hk | hk | hk
    · exact h.up k (mem_up.mpr (.inl hk))
    · exact hw k hk
    · exact h.up k (mem_up.mpr (.inr (.inr hk)))
  unfold Phone.setWaiting
  split
  · rename_i a b _
    split
    · -- the wait that looks the same is the polled request's from now on
      refine h.app fun k hk => ?_
      rcases mem_up.mp hk with hk | hk | ⟨x, hx, rfl⟩ | hk
      · exact h.up k (mem_up.mpr (.inl hk))
      · exact hw k hk
      · obtain ⟨y, hy, rfl⟩ := Option.map_eq_some_iff.mp hx
        split
        · exact hw b rfl
        · exact h.up y.w (mem_up.mpr (.inr (.inr (.inl ⟨y, hy, rfl⟩))))
      · exact h.up k (mem_up.mpr (.inr (.inr (.inr hk))))
    · exact h.app hseen
  · exact h
  · exact h.app hseen

/-- The sheet's effect keeps it. -/
theorem Inv.effect (h : s.Inv) : s.effect.Inv := by
  -- the wait of the sheet is none, or the one that was seen
  have hwait : ∀ {wait : Option Wait}, (∀ x ∈ wait, s.seen = some x.w) →
      ∀ k ∈ Phone.up { s with wait }, s.Tied k := by
    intro wait hwait k hk
    rcases mem_up.mp hk with hk | hk | ⟨x, hx, rfl⟩ | hk
    · exact h.up k (mem_up.mpr (.inl hk))
    · exact h.up k (mem_up.mpr (.inr (.inl hk)))
    · exact h.up x.w (mem_up.mpr (.inr (.inl (hwait x hx))))
    · exact h.up k (mem_up.mpr (.inr (.inr (.inr hk))))
  unfold Phone.effect
  split
  · exact h.app (hwait fun x hx => by cases hx)
  · rename_i w hseen
    split
    · refine h.app (hwait fun x hx => ?_)
      obtain ⟨y, -, rfl⟩ := Option.map_eq_some_iff.mp hx
      exact hseen
    · refine h.app (hwait fun x hx => ?_)
      obtain rfl := Option.some.inj hx
      exact hseen

/-- What a poll reads is tied: its record is the last that came. -/
theorem Inv.confirmState (h : s.Inv) (hcame : ∀ x ∈ s.waiting, x.1 ∉ s.records) :
    ∀ w ∈ s.confirmState, s.Tied w := by
  intro w hw
  obtain ⟨x, hx, hw⟩ := Option.bind_eq_some_iff.mp hw
  obtain ⟨op, hop, rfl⟩ := Option.map_eq_some_iff.mp hw
  -- the request that is read has its record, and it is the last one
  have hlast : ∀ {op' : Op}, op'.records = true → (op.waiting x.1 x.2).opcode = op'.opcode →
      s.records = [] ∧ ∃ p ∈ s.lastPress, p.op = x.1 := by
    intro op' hrec hopcode
    have hsame : op.records = true := by
      rw [Op.records, show op.opcode = op'.opcode from hopcode]
      exact hrec
    rcases h.latest x hx op hop hsame with hmem | hdone
    · exact absurd (List.mem_of_getLast? hmem) (hcame x hx)
    · exact hdone
  refine ⟨⟨op, hop, rfl, rfl⟩, fun y hy _ _ _ => ?_, fun p hp hopcode _ => ?_,
    fun n hn op' hop' hlike => ?_⟩
  · obtain rfl := Option.some.inj (hx.symm.trans hy)
    rfl
  · obtain ⟨op', -, hrec, hpress⟩ := h.lastPress p hp
    rw [hpress] at hopcode
    obtain ⟨-, q, hq, hqop⟩ := hlast hrec hopcode.symm
    obtain rfl := Option.some.inj (hp.symm.trans hq)
    exact hqop
  · obtain ⟨op'', hget, hrec⟩ := h.records n hn
    obtain rfl := Option.some.inj (hop'.symm.trans hget)
    obtain ⟨hnone, -⟩ := hlast hrec hlike.1
    rw [hnone] at hn
    cases hn

theorem Inv.polls (h : s.Inv) (hapart : s.Apart .polls) : (s.step .polls).Inv := by
  simp only [step]
  split
  · rename_i hnone
    have hcame := hapart (Option.isNone_iff_eq_none.mp hnone)
    refine h.app fun k hk => ?_
    rcases mem_up.mp hk with hk | hk
    · exact h.confirmState hcame k (Option.some.inj hk)
    · exact h.up k (mem_up.mpr (.inr hk))
  · exact h

/-! ### The firmware -/

/-- A wait stays tied when a request begins that does not look like it. -/
theorem Tied.starts {w : KeyWaiting} (h : s.Tied w) {op : Op} (hlike : ¬ w.Like op)
    (hlen : ∀ n ∈ s.records, n < s.ops.length) :
    Tied { s with
      ops := s.ops ++ [op]
      waiting := some (s.ops.length, 0)
      records := if op.records then s.records ++ [s.ops.length] else s.records } w where
  of := by
    obtain ⟨op', hget, hfacts⟩ := h.of
    exact ⟨op', get_append hget _, hfacts⟩
  waiting x hx op' hop' hlike' := by
    obtain rfl := Option.some.inj hx
    obtain rfl : op = op' := by simpa using hop'
    exact absurd hlike' hlike
  lastPress := h.lastPress
  records n hn op' hop' hlike' := by
    have hcases : n ∈ s.records ∨ n = s.ops.length := by
      revert hn
      dsimp only
      split <;> simp +contextual
    rcases hcases with hn | rfl
    · have hget : s.ops[n]? = some op' := by
        rw [← List.getElem?_append_left (hlen n hn)]
        exact hop'
      exact h.records n hn op' hget hlike'
    · obtain rfl : op = op' := by simpa using hop'
      exact absurd hlike' hlike

theorem Inv.starts (h : s.Inv) {op : Op}
    (hfree : s.calls = [] ∧ s.queue = [] ∧ ∀ w ∈ s.up, ¬ w.Like op) :
    Inv { s with
      ops := s.ops ++ [op]
      waiting := some (s.ops.length, 0)
      records := if op.records then s.records ++ [s.ops.length] else s.records } where
  waiting x hx := by
    obtain rfl := Option.some.inj hx
    simp
  lastPress p hp := (h.lastPress p hp).append _
  records n hn := by
    -- a request with a record puts it behind the others
    by_cases hrec : op.records = true
    · rw [if_pos hrec] at hn
      rcases List.mem_append.mp hn with hn | hn
      · obtain ⟨op', hget, hop'⟩ := h.records n hn
        exact ⟨op', get_append hget _, hop'⟩
      · rw [List.mem_singleton.mp hn]
        exact ⟨op, by simp, hrec⟩
    · rw [if_neg hrec] at hn
      obtain ⟨op', hget, hop'⟩ := h.records n hn
      exact ⟨op', get_append hget _, hop'⟩
  latest x hx op' hop' hrec := by
    obtain rfl := Option.some.inj hx
    obtain rfl : op = op' := by simpa using hop'
    left
    simp [hrec]
  up w hw := (h.up w hw).starts (hfree.2.2 w hw) fun n hn => by
    obtain ⟨op', hget, -⟩ := h.records n hn
    exact (List.getElem?_eq_some_iff.mp hget).1
  drawn sheet hsheet := by
    obtain ⟨hw, hrecord⟩ := h.drawn sheet hsheet
    exact ⟨hw.append _, fun p hp => ⟨(hrecord p hp).1.append _, (hrecord p hp).2⟩⟩
  sheet := h.sheet
  coming p hp := by
    -- no press is on its way when a request begins
    have hnone : s.calls ++ s.queue = [] := by rw [hfree.1, hfree.2.1]; rfl
    rw [hnone] at hp
    cases hp
  taken := h.taken

/-- A request waits no more, or the same goes on: what is up is tied as before. -/
theorem Tied.waits {w : KeyWaiting} (h : s.Tied w) {waiting : Option (Nat × Nat)}
    (hsame : ∀ x ∈ waiting, ∃ y ∈ s.waiting, x.1 = y.1) : Tied { s with waiting } w :=
  ⟨h.of, fun x hx op hop hlike => by
    obtain ⟨y, hy, heq⟩ := hsame x hx
    rw [heq] at hop ⊢
    exact h.waiting y hy op hop hlike, h.lastPress, h.records⟩

/-- The request that waits is the same, or none. -/
theorem Inv.waits (h : s.Inv) {waiting : Option (Nat × Nat)}
    (hsame : ∀ x ∈ waiting, ∃ y ∈ s.waiting, x.1 = y.1) : Inv { s with waiting } where
  waiting x hx := by
    obtain ⟨y, hy, heq⟩ := hsame x hx
    rw [heq]
    exact h.waiting y hy
  lastPress := h.lastPress
  records := h.records
  latest x hx op hop hrec := by
    obtain ⟨y, hy, heq⟩ := hsame x hx
    rw [heq] at hop ⊢
    exact h.latest y hy op hop hrec
  up w hw := (h.up w hw).waits hsame
  drawn := h.drawn
  sheet := h.sheet
  coming p hp := ⟨(h.coming p hp).1, fun x hx => by
    obtain ⟨y, hy, heq⟩ := hsame x hx
    rw [heq]
    exact (h.coming p hp).2 y hy⟩
  taken := h.taken

theorem Inv.recordArrives (h : s.Inv) : (s.step .recordArrives).Inv := by
  simp only [step]
  split
  · rename_i n records hrecords
    have hn : n ∈ s.records := by
      rw [hrecords]
      exact List.mem_cons_self
    obtain ⟨op, hget, hrec⟩ := h.records n hn
    have hlater : ∀ m ∈ records, m ∈ s.records := fun m hm => by
      rw [hrecords]
      exact List.mem_cons_of_mem _ hm
    have hpress : ∀ p ∈ s.ops[n]?.map (fun op => op.press n s.now), p = op.press n s.now := by
      intro p hp
      rw [hget] at hp
      exact (Option.some.inj hp).symm
    refine ⟨h.waiting, fun p hp => ?_, fun m hm => h.records m (hlater m hm),
      fun x hx op' hop' hrec' => ?_, fun w hw => ?_, h.drawn, h.sheet, h.coming, h.taken⟩
    · rw [hpress p hp]
      exact ⟨op, hget, hrec, rfl⟩
    · -- the waiting request's is the last one, so it has come if none is left
      rcases h.latest x hx op' hop' hrec' with hmem | ⟨hnone, -⟩
      · rw [hrecords] at hmem
        cases records with
        | nil =>
          right
          obtain rfl : n = x.1 := by simpa using hmem
          exact ⟨rfl, op.press x.1 s.now, by simp [hget], rfl⟩
        | cons m rest =>
          left
          rw [List.getLast?_cons_cons] at hmem
          exact hmem
      · rw [hrecords] at hnone
        cases hnone
    · have htied := h.up w hw
      refine ⟨htied.of, htied.waiting, fun p hp hopcode hslot => ?_,
        fun m hm => htied.records m (hlater m hm)⟩
      rw [hpress p hp] at hopcode hslot ⊢
      exact htied.records n hn op hget ⟨hopcode.symm, hslot.symm⟩
  · exact h

/-! ### The sheet and its taps -/

theorem Inv.draws (h : s.Inv) : (s.step .draws).Inv := by
  simp only [step]
  generalize hshown : (s.wait.filter fun wait => !(wait.w.what = .edge && s.edgeAsking)).map
    (fun wait => (⟨wait.w, firmwarePressFor s.lastPress wait⟩ : Sheet)) = shown
  -- a record with the wait's opcode and slot is of the request that was polled
  have hof : ∀ sheet ∈ shown, s.Tied sheet.w ∧ ∀ p ∈ sheet.fw, p.Of s.ops ∧ p.op = sheet.w.op := by
    rintro sheet hsheet
    rw [← hshown] at hsheet
    obtain ⟨wait, hwait, rfl⟩ := Option.map_eq_some_iff.mp hsheet
    have hwait : s.wait = some wait := (Option.filter_eq_some_iff.mp hwait).1
    have htied := h.up wait.w (mem_up.mpr (.inr (.inr (.inl ⟨wait, hwait, rfl⟩))))
    refine ⟨htied, fun p hp => ?_⟩
    obtain ⟨hlast, hjoin⟩ := Option.filter_eq_some_iff.mp hp
    simp only [Bool.and_eq_true, decide_eq_true_eq] at hjoin
    exact ⟨h.lastPress p hlast, htied.lastPress p hlast hjoin.1.1 hjoin.1.2⟩
  have hold : ∀ sheet, sheet ∈ s.drawn → sheet ∈ s.drawn ++ shown.toList :=
    fun sheet hsheet => List.mem_append_left _ hsheet
  refine ⟨h.waiting, h.lastPress, h.records, h.latest, ?_, fun sheet hsheet => ?_,
    fun sheet hsheet => ?_, fun p hp => ?_, fun x hx => ?_⟩
  · intro w hw
    refine Tied.same (s := s) ?_ rfl rfl rfl rfl
    rcases mem_up.mp hw with hw | hw | hw | ⟨sheet, hsheet, rfl⟩
    · exact h.up w (mem_up.mpr (.inl hw))
    · exact h.up w (mem_up.mpr (.inr (.inl hw)))
    · exact h.up w (mem_up.mpr (.inr (.inr (.inl hw))))
    · exact (hof sheet hsheet).1
  · rcases List.mem_append.mp hsheet with hsheet | hsheet
    · exact h.drawn sheet hsheet
    · obtain ⟨htied, hrecord⟩ := hof sheet (Option.mem_toList.mp hsheet)
      exact ⟨htied.of, hrecord⟩
  · exact List.mem_append_right _ (Option.mem_toList.mpr hsheet)
  · exact ⟨hold _ (h.coming p hp).1, (h.coming p hp).2⟩
  · exact ⟨hold _ (h.taken x hx).1, (h.taken x hx).2⟩

/-- The queue's presses only move on, or are dropped. -/
theorem Inv.of_coming (h : s.Inv) {calls queue : List Queued}
    (hin : ∀ p ∈ calls ++ queue, p ∈ s.calls ++ s.queue) : Inv { s with calls, queue } :=
  ⟨h.waiting, h.lastPress, h.records, h.latest, fun w hw => (h.up w hw).same rfl rfl rfl rfl, h.drawn, h.sheet,
    fun p hp => h.coming p (hin p hp), h.taken⟩

/-- The press is the waiting request's. -/
theorem Inv.take (h : s.Inv) : s.take.Inv := by
  unfold Phone.take
  split
  · exact h
  rename_i p queue hqueue
  have hin : ∀ q ∈ s.calls ++ queue, q ∈ s.calls ++ s.queue := by
    intro q hq
    rw [hqueue]
    rcases List.mem_append.mp hq with hq | hq
    · exact List.mem_append_left _ hq
    · exact List.mem_append_right _ (List.mem_cons_of_mem _ hq)
  split
  · exact h.of_coming hin
  · rename_i n entered hwaiting
    have hp : p ∈ s.calls ++ s.queue := by
      rw [hqueue]
      exact List.mem_append_right _ List.mem_cons_self
    -- after it the same request waits, or none
    have hsame : ∀ more : Bool, ∀ x ∈ (if more then some (n, entered + 1) else none),
        ∃ y ∈ s.waiting, x.1 = y.1 := by
      intro more x hx
      cases more with
      | true =>
        obtain rfl := Option.some.inj hx
        exact ⟨_, hwaiting, rfl⟩
      | false => cases hx
    dsimp only
    generalize (s.ops[n]?.any fun op => decide (op.mode = .code) && decide (entered < 2)) = more
    have hafter := (h.of_coming hin).waits (hsame more)
    refine ⟨hafter.waiting, h.lastPress, h.records, hafter.latest, ?_, h.drawn, h.sheet,
      hafter.coming, fun x hx => ?_⟩
    · exact fun w hw => (hafter.up w hw).same rfl rfl rfl rfl
    · rcases List.mem_append.mp hx with hx | hx
      · exact h.taken x hx
      · obtain rfl := List.mem_singleton.mp hx
        obtain ⟨hdrawn, habout⟩ := h.coming p hp
        exact ⟨hdrawn, habout _ hwaiting⟩

theorem Inv.queues (h : s.Inv) : (s.step .queues).Inv := by
  simp only [step]
  split
  · rename_i p calls hcalls
    unfold pressQueue
    split
    · refine h.of_coming fun q hq => ?_
      rw [hcalls]
      simp only [List.mem_append, List.mem_cons] at hq ⊢
      tauto
    · refine h.of_coming fun q hq => ?_
      rw [hcalls]
      simp only [List.mem_append, List.mem_cons] at hq ⊢
      tauto
  · exact h

/-- A tap is for the request that waits: it looks like the sheet's, so it is. -/
theorem Inv.taps (h : s.Inv) {button : Nat} {refusal : Bool}
    (hapart : s.Apart (.taps button refusal)) : (s.step (.taps button refusal)).Inv := by
  simp only [step]
  split
  · rename_i sheet hsheet
    split
    · exact h
    · refine ⟨h.waiting, h.lastPress, h.records, h.latest, fun w hw => (h.up w hw).same rfl rfl rfl rfl, h.drawn,
        h.sheet, fun p hp => ?_, h.taken⟩
      simp only [List.append_assoc, List.mem_append, List.mem_singleton] at hp
      rcases hp with hp | rfl | hp
      · exact h.coming p (List.mem_append_left _ hp)
      · have hdrawn := h.sheet sheet hsheet
        refine ⟨hdrawn, fun x hx => ?_⟩
        have hlt := h.waiting x hx
        have hop : s.ops[x.1]? = some s.ops[x.1] := List.getElem?_eq_getElem hlt
        have htied := h.up sheet.w (mem_up.mpr (.inr (.inr (.inr ⟨sheet, hsheet, rfl⟩))))
        rw [h.about hdrawn]
        exact (htied.waiting x hx _ hop (hapart sheet hsheet x hx _ hop)).symm
      · exact h.coming p (List.mem_append_right _ hp)
  · exact h

/-! ### Runs -/

theorem Inv.unread (h : s.Inv) : Inv { s with reading := none } := by
  refine h.app fun k hk => ?_
  rcases mem_up.mp hk with hk | hk
  · cases hk
  · exact h.up k (mem_up.mpr (.inr hk))

/-- Every event keeps it while requests keep apart. -/
theorem Inv.step (h : s.Inv) {e : Event} (hapart : s.Apart e) : (s.step e).Inv := by
  cases e with
  | starts op =>
    simp only [Phone.step]
    split
    · rename_i hnone
      exact h.starts (hapart (Option.isNone_iff_eq_none.mp hnone))
    · exact h
  | ends => exact h.waits fun x hx => by cases hx
  | recordArrives => exact h.recordArrives
  | polls => exact h.polls hapart
  | sees =>
    simp only [Phone.step]
    split
    · rename_i w hreading
      -- what was read becomes what is seen
      refine h.unread.setWaiting fun x hx => ?_
      have hx' : w = some x := hx
      have htied := h.up x (mem_up.mpr (.inl (by rw [hreading, hx'])))
      exact ⟨htied.of, htied.waiting, htied.lastPress, htied.records⟩
    · exact h
  | disabled => exact h.unread.setWaiting fun x hx => (by cases hx)
  | effect =>
    simp only [Phone.step]
    split
    · exact h.effect.app h.effect.up
    · exact h
  | arms =>
    simp only [Phone.step]
    split
    · exact h
    · exact h.app h.up
  | wakes =>
    simp only [Phone.step]
    split
    · exact h.app h.up
    · exact h
  | edgeSheet asking =>
    exact ⟨h.waiting, h.lastPress, h.records, h.latest, fun w hw => (h.up w hw).same rfl rfl rfl rfl, h.drawn,
      h.sheet, h.coming, h.taken⟩
  | draws => exact h.draws
  | taps button refusal => exact h.taps hapart
  | queues => exact h.queues
  | sense => exact h.take
  | passes ms =>
    exact ⟨h.waiting, h.lastPress, h.records, h.latest, fun w hw => (h.up w hw).same rfl rfl rfl rfl, h.drawn,
      h.sheet, h.coming, h.taken⟩

theorem inv_start : Inv {} := by
  refine ⟨?_, ?_, ?_, ?_, ?_, ?_, ?_, ?_, ?_⟩
  all_goals exact fun x hx => (by cases hx)

/-- While requests that look alike do not meet, a press is taken by the request that its sheet
showed, and no sheet shows one request's record beside another's wait. -/
theorem presses_go_right (history : List Event) (h : AllAlong Phone.step Apart {} history) :
    (history.foldl Phone.step {}).Right :=
  (h.keeps inv_start fun _ _ hs he => hs.step he).right

/-- A request is shown, tapped and pressed for. -/
def pressedFor (op : Op) : List Event :=
  [.starts op, .recordArrives, .polls, .sees, .effect, .draws, .arms, .passes 1000, .wakes,
    .taps 1 false, .queues, .sense]

/-- Two requests to sign with the same key within three seconds: the first is pressed for, a poll
sees it end and its sheet goes, then the second comes. -/
def pressedTwice : List Event :=
  pressedFor ⟨0xed, 201, .press, some [1], [2]⟩ ++ [.polls, .sees, .effect, .draws] ++
    pressedFor ⟨0xed, 201, .press, some [3], [4]⟩

theorem presses_go_right_sign :
    AllAlong Phone.step Apart {} pressedTwice ∧ (pressedTwice.foldl Phone.step {}).Right ∧
      (pressedTwice.foldl Phone.step {}).taken.length = 2 :=
  ⟨by decide +kernel, presses_go_right _ (by decide +kernel), by decide +kernel⟩

/-- The wait on the sheet runs out and another of the same opcode and slot begins before the tap. -/
theorem a_press_signs_another :
    ¬ ∀ history : List Event, (history.foldl Phone.step {}).Right := by
  intro h
  have hright := h [.starts ⟨0xed, 201, .press, some [1], [2]⟩, .recordArrives, .polls, .sees,
    .effect, .draws, .arms, .passes 1000, .wakes, .ends,
    .starts ⟨0xed, 201, .press, some [3], [4]⟩, .taps 1 false, .queues, .sense]
  generalize hs : List.foldl Phone.step {} _ = s at hright
  have htaken : s.taken.map (fun x => (x.1.sheet.about, x.2)) = [(0, 1)] := by
    rw [← hs]
    decide +kernel
  obtain ⟨x, hx, hpair⟩ := List.mem_map.mp (htaken ▸ List.mem_singleton_self (0, 1))
  obtain ⟨habout, htook⟩ := Prod.mk.inj hpair
  have hsame := (hright.taken x hx).1
  rw [habout, htook] at hsame
  cases hsame

end Phone

end OkRn.Press
