/-
OkRn/Hal/Reports.lean

The reports on their way into the firmware.

Both interfaces share one queue, from which a FIDO report is taken first.  A vendor
writer waits on a count: its ticket is how many vendor reports had been pushed with
its own, and it returns when as many were taken.  The vendor reports in the queue
carry the tickets that follow the count (`Inv.tickets`), so a ticket that was reached
is that of a report no longer there.

What the run's calls brought (`sent`) and what they answered (`received`) is read off
the events and the answers alone; the lists `delivered` and `given` of the model are
shown to be these (`run_delivered`, `run_given`).

Main result: `reports_come_in_order`, which gathers what the queue owes its callers
(`InOrder`): order and once-only for each interface, FIDO first, no empty answer while
a report waits, and a writer back in time only behind its own report.
-/
import OkRn.Lib.Along
import OkRn.Lib.Bytes
import Mathlib.Data.List.Nodup

namespace OkRn.Hal

/-- The interfaces of the key. -/
inductive Iface
  | fido
  | vendor
  | seremu
  | keyboard
  deriving DecidableEq

/-- A report in the queue; which one it is and its writer's ticket are not in it. -/
structure InPkt where
  iface : Iface
  data : Bytes 64
  number : Nat
  ticket : Nat
  deriving DecidableEq

/-- How a writer's wait stands. -/
inductive Wait
  | waiting
  | returned
  | timedOut
  deriving DecidableEq

/-- A vendor deliver, from the moment its report is in the queue. -/
structure Writer where
  report : InPkt
  ticket : Nat
  wait : Wait
  deriving DecidableEq

/-- The queue of reports, its counts, and the writers that wait. -/
structure Reports where
  hidIn : List InPkt := []
  /-- 64-bit counts, of single reports. -/
  vendorPushed : Nat := 0
  vendorTaken : Nat := 0
  seremuIn : List UInt8 := []
  writers : List Writer := []
  /-- What was queued, what was received and what was flushed; no code reads these. -/
  delivered : List InPkt := []
  given : List InPkt := []
  flushed : List InPkt := []

/-- What can happen. -/
inductive Event
  | deliver (data : List UInt8) (iface : Iface)
  /-- A writer looks at the count again. -/
  | wake (i : Nat)
  | deadline (i : Nat)
  | recv
  | flush

namespace Reports

/-- The report that is taken next: a FIDO one if there is one, else the first. -/
def next (s : Reports) : Option InPkt :=
  (s.hidIn.find? fun p => p.iface = .fido).or s.hidIn.head?

/-- `okemu_hid_deliver`. -/
def okemuHidDeliver (s : Reports) (data : List UInt8) : Iface → Reports
  | .seremu => { s with seremuIn := s.seremuIn ++ data }
  | .keyboard => s
  | .fido =>
      let pkt : InPkt := ⟨.fido, .pack 64 data, s.delivered.length, 0⟩
      { s with hidIn := s.hidIn ++ [pkt], delivered := s.delivered ++ [pkt] }
  | .vendor =>
      let ticket := s.vendorPushed + 1
      let pkt : InPkt := ⟨.vendor, .pack 64 data, s.delivered.length, ticket⟩
      { s with
        hidIn := s.hidIn ++ [pkt]
        vendorPushed := ticket
        writers := s.writers ++ [⟨pkt, ticket, .waiting⟩]
        delivered := s.delivered ++ [pkt] }

/-- What the firmware is given: the interface's number and the 64 bytes, or 0 (none) when
nothing waits. -/
def okemuHidRecv (s : Reports) : Reports × Option (Iface × Bytes 64) :=
  match s.next with
  | none => (s, none)
  | some pkt =>
      ({ s with
        hidIn := s.hidIn.erase pkt
        vendorTaken := if pkt.iface = .vendor then s.vendorTaken + 1 else s.vendorTaken
        given := s.given ++ [pkt] }, some (pkt.iface, pkt.data))

/-- `okemu_hid_flush_in`. -/
def okemuHidFlushIn (s : Reports) : Reports :=
  { s with hidIn := [], vendorTaken := s.vendorPushed, flushed := s.flushed ++ s.hidIn }

/-- What a writer that still waits comes to. -/
def settle (s : Reports) (i : Nat) (wait : Writer → Wait) : Reports :=
  match s.writers[i]? with
  | some w =>
      if w.wait = .waiting then { s with writers := s.writers.set i { w with wait := wait w } }
      else s
  | none => s

/-- One event. -/
def step (s : Reports) : Event → Reports
  | .deliver data iface => s.okemuHidDeliver data iface
  | .wake i => s.settle i fun w => if w.ticket ≤ s.vendorTaken then .returned else .waiting
  | .deadline i => s.settle i fun _ => .timedOut
  | .recv => s.okemuHidRecv.1
  | .flush => s.okemuHidFlushIn

/-- The queue after a run. -/
def run (es : List Event) : Reports := es.foldl step {}

/-! ### What the calls bring and what they give

Read off the events and the answers of the calls alone. -/

/-- The report that a deliver call brings: its first 64 bytes, filled up with zeros. -/
def brought : Event → Option (Iface × Bytes 64)
  | .deliver data .fido => some (.fido, .pack 64 data)
  | .deliver data .vendor => some (.vendor, .pack 64 data)
  | _ => none

/-- What a call of the firmware answers. -/
def answer (s : Reports) : Event → Option (Iface × Bytes 64)
  | .recv => s.okemuHidRecv.2
  | _ => none

/-- The reports that the run's deliver calls brought, in order. -/
def sent (es : List Event) : List (Iface × Bytes 64) := es.filterMap brought

/-- The answers of the run's recv calls that gave a report, in order. -/
def received (s : Reports) : List Event → List (Iface × Bytes 64)
  | [] => []
  | e :: es => (s.answer e).toList ++ received (s.step e) es

/-- A report as its sender and its receiver know it. -/
def InPkt.report (p : InPkt) : Iface × Bytes 64 := (p.iface, p.data)

/-- The reports of one interface. -/
def of (iface : Iface) (pkts : List InPkt) : List InPkt := pkts.filter fun p => p.iface = iface

/-- The reports that no flush removed. -/
def unflushed (s : Reports) : List InPkt := s.delivered.filter fun p => p ∉ s.flushed

/-! ### What is taken -/

variable {s : Reports} {p : InPkt} {f : Iface}

/-- The reports of an interface in two lists. -/
theorem of_append (f : Iface) (l l' : List InPkt) : of f (l ++ l') = of f l ++ of f l' :=
  List.filter_append l l'

theorem of_cons_self (l : List InPkt) : of p.iface (p :: l) = p :: of p.iface l := by
  simp [of]

theorem of_cons_ne (h : p.iface ≠ f) (l : List InPkt) : of f (p :: l) = of f l := by
  simp [of, h]

/-- The reports of an interface. -/
theorem mem_of {l : List InPkt} : p ∈ of f l ↔ p ∈ l ∧ p.iface = f := by
  simp [of]

/-- None of the same interface waits in front of the report that is taken. -/
theorem next_split (h : s.next = some p) : ∃ front rest, s.hidIn = front ++ p :: rest ∧
    s.hidIn.erase p = front ++ rest ∧ of p.iface front = [] := by
  unfold next at h
  cases hfind : s.hidIn.find? fun p => p.iface = .fido with
  | some q =>
    -- the first FIDO report, wherever it is
    rw [hfind] at h
    obtain rfl : q = p := by simpa using h
    obtain ⟨hq, front, rest, hqueue, hfront⟩ := List.find?_eq_some_iff_append.mp hfind
    have hfido : q.iface = .fido := by simpa using hq
    have hnot : q ∉ front := fun hmem => by simpa [hfido] using hfront q hmem
    refine ⟨front, rest, hqueue, ?_, ?_⟩
    · rw [hqueue, List.erase_append_right _ hnot, List.erase_cons_head]
    · refine List.filter_eq_nil_iff.mpr fun r hr => ?_
      have hother := hfront r hr
      simpa [hfido] using hother
  | none =>
    rw [hfind, Option.none_or] at h
    obtain ⟨rest, hqueue⟩ := List.head?_eq_some_iff.mp h
    exact ⟨[], rest, hqueue, by rw [hqueue, List.erase_cons_head]; rfl, rfl⟩

/-- A vendor report is taken only when no FIDO report waits. -/
theorem next_vendor (h : s.next = some p) (hvendor : p.iface = .vendor) :
    ∀ q ∈ s.hidIn, q.iface ≠ .fido := by
  unfold next at h
  cases hfind : s.hidIn.find? fun p => p.iface = .fido with
  | some q =>
    rw [hfind] at h
    obtain rfl : q = p := by simpa using h
    have hfido := List.find?_some hfind
    simp [hvendor] at hfido
  | none =>
    intro q hq
    simpa using List.find?_eq_none.mp hfind q hq

/-! ### What every run keeps -/

/-- What every run keeps. -/
structure Inv (s : Reports) : Prop where
  numbers : ∀ p ∈ s.delivered, p.number < s.delivered.length
  nodup : s.delivered.Nodup
  flushed : ∀ p ∈ s.flushed, p ∈ s.delivered
  order : ∀ f, of f s.unflushed = of f s.given ++ of f s.hidIn
  tickets : (of .vendor s.hidIn).map (·.ticket) =
    List.range' (s.vendorTaken + 1) (of .vendor s.hidIn).length
  count : s.vendorTaken + (of .vendor s.hidIn).length = s.vendorPushed
  writers : ∀ w ∈ s.writers, w.report ∈ s.delivered ∧ w.report.iface = .vendor ∧
    w.ticket = w.report.ticket
  returned : ∀ w ∈ s.writers, w.wait = .returned → w.report ∈ s.given ∨ w.report ∈ s.flushed

theorem inv_start : ({} : Reports).Inv where
  numbers _ h := absurd h List.not_mem_nil
  nodup := List.nodup_nil
  flushed _ h := absurd h List.not_mem_nil
  order _ := rfl
  tickets := rfl
  count := rfl
  writers _ h := absurd h List.not_mem_nil
  returned _ h := absurd h List.not_mem_nil

/-- One more report is queued, behind all others. -/
theorem Inv.fresh (h : s.Inv) (hnumber : p.number = s.delivered.length) :
    p ∉ s.delivered ∧ (s.delivered ++ [p]).Nodup ∧
      (∀ q ∈ s.delivered ++ [p], q.number < (s.delivered ++ [p]).length) ∧
      (s.delivered ++ [p]).filter (fun q => q ∉ s.flushed) = s.unflushed ++ [p] := by
  have hnew : p ∉ s.delivered := fun hmem => by
    have := h.numbers p hmem
    omega
  have hkept : p ∉ s.flushed := fun hmem => hnew (h.flushed p hmem)
  refine ⟨hnew, ?_, fun q hq => ?_, ?_⟩
  · exact h.nodup.append (List.nodup_singleton p) (by simpa using hnew)
  · rw [List.length_append, List.length_singleton]
    rcases List.mem_append.mp hq with hq | hq
    · have := h.numbers q hq
      omega
    · rw [List.mem_singleton.mp hq, hnumber]
      omega
  · simp [List.filter_append, unflushed, hkept]

theorem Inv.deliver (h : s.Inv) (data : List UInt8) (iface : Iface) :
    (s.okemuHidDeliver data iface).Inv := by
  -- a FIDO report joins the queue; a vendor one takes a ticket and its writer waits
  cases iface with
  | seremu =>
    exact ⟨h.numbers, h.nodup, h.flushed, h.order, h.tickets, h.count, h.writers, h.returned⟩
  | keyboard => exact h
  | fido =>
    obtain ⟨-, hnodup, hnumbers, hkept⟩ :=
      h.fresh (p := ⟨.fido, .pack 64 data, s.delivered.length, 0⟩) rfl
    have hvendor (l : List InPkt) :
        of .vendor (l ++ [⟨.fido, .pack 64 data, s.delivered.length, 0⟩]) = of .vendor l := by
      simp [of]
    refine ⟨hnumbers, hnodup, fun q hq => List.mem_append_left _ (h.flushed q hq), fun f => ?_,
      ?_, ?_, fun w hw => ?_, h.returned⟩
    · refine (congrArg (of f) hkept).trans ?_
      rw [of_append, h.order f, List.append_assoc, ← of_append]
      rfl
    · simp only [okemuHidDeliver, hvendor]
      exact h.tickets
    · simp only [okemuHidDeliver, hvendor]
      exact h.count
    · obtain ⟨hmem, hrest⟩ := h.writers w hw
      exact ⟨List.mem_append_left _ hmem, hrest⟩
  | vendor =>
    obtain ⟨-, hnodup, hnumbers, hkept⟩ :=
      h.fresh (p := ⟨.vendor, .pack 64 data, s.delivered.length, s.vendorPushed + 1⟩) rfl
    have hvendor (l : List InPkt) :
        of .vendor (l ++ [⟨.vendor, .pack 64 data, s.delivered.length, s.vendorPushed + 1⟩]) =
          of .vendor l ++ [⟨.vendor, .pack 64 data, s.delivered.length, s.vendorPushed + 1⟩] := by
      simp [of]
    refine ⟨hnumbers, hnodup, fun q hq => List.mem_append_left _ (h.flushed q hq), fun f => ?_,
      ?_, ?_, fun w hw => ?_, fun w hw hreturned => ?_⟩
    · refine (congrArg (of f) hkept).trans ?_
      rw [of_append, h.order f, List.append_assoc, ← of_append]
      rfl
    · -- the new ticket follows those in the queue
      have hcount := h.count
      simp only [okemuHidDeliver, hvendor]
      rw [List.map_append, h.tickets, List.length_append, List.length_singleton,
        List.range'_concat]
      simp only [List.map_cons, List.map_nil, Nat.one_mul]
      rw [show s.vendorPushed + 1 = s.vendorTaken + 1 + (of .vendor s.hidIn).length by omega]
    · have hcount := h.count
      simp only [okemuHidDeliver, hvendor]
      rw [List.length_append, List.length_singleton]
      omega
    · rcases List.mem_append.mp hw with hw | hw
      · obtain ⟨hmem, hrest⟩ := h.writers w hw
        exact ⟨List.mem_append_left _ hmem, hrest⟩
      · obtain rfl := List.mem_singleton.mp hw
        exact ⟨List.mem_concat_self, rfl, rfl⟩
    · rcases List.mem_append.mp hw with hw | hw
      · exact h.returned w hw hreturned
      · obtain rfl := List.mem_singleton.mp hw
        cases hreturned

theorem Inv.recv (h : s.Inv) : s.okemuHidRecv.1.Inv := by
  unfold okemuHidRecv
  cases hnext : s.next with
  | none => exact h
  | some p =>
    dsimp only
    obtain ⟨front, rest, hqueue, herase, hfront⟩ := next_split hnext
    have hsame : of p.iface s.hidIn = p :: of p.iface (s.hidIn.erase p) := by
      rw [hqueue, of_append, hfront, of_cons_self, List.nil_append, ← hqueue, herase, of_append,
        hfront, List.nil_append]
    -- of the other interfaces nothing is taken
    have hother (f : Iface) (hf : p.iface ≠ f) : of f s.hidIn = of f (s.hidIn.erase p) := by
      rw [herase, hqueue, of_append, of_cons_ne hf, of_append]
    refine ⟨h.numbers, h.nodup, h.flushed, fun f => ?_, ?_, ?_, h.writers, fun w hw hreturned => ?_⟩
    · show of f s.unflushed = of f (s.given ++ [p]) ++ of f (s.hidIn.erase p)
      rw [h.order f, of_append]
      by_cases hf : p.iface = f
      · subst hf
        rw [hsame, of_cons_self]
        simp [of]
      · rw [hother f hf, of_cons_ne hf]
        simp [of]
    · by_cases hvendor : p.iface = .vendor
      · rw [if_pos hvendor]
        have htickets := h.tickets
        rw [hvendor] at hsame
        rw [hsame, List.map_cons, List.length_cons, List.range'_succ] at htickets
        exact (List.cons.inj htickets).2
      · rw [if_neg hvendor, ← hother _ hvendor]
        exact h.tickets
    · have hcount := h.count
      by_cases hvendor : p.iface = .vendor
      · rw [hvendor] at hsame
        rw [hsame, List.length_cons] at hcount
        rw [if_pos hvendor]
        show s.vendorTaken + 1 + (of .vendor (s.hidIn.erase p)).length = s.vendorPushed
        omega
      · rw [if_neg hvendor, ← hother _ hvendor]
        exact hcount
    · rcases h.returned w hw hreturned with hgiven | hflushed
      · exact .inl (List.mem_append_left _ hgiven)
      · exact .inr hflushed

/-- A report that was given is not in the queue any more. -/
theorem Inv.given_gone (h : s.Inv) (hp : p ∈ s.given) : p ∉ s.hidIn := by
  intro hqueue
  have hnodup : (of p.iface s.unflushed).Nodup := (h.nodup.filter _).filter _
  rw [h.order] at hnodup
  exact (List.disjoint_of_nodup_append hnodup) (mem_of.mpr ⟨hp, rfl⟩) (mem_of.mpr ⟨hqueue, rfl⟩)

theorem Inv.flush (h : s.Inv) : s.okemuHidFlushIn.Inv := by
  have hmem : ∀ p ∈ s.hidIn, p ∈ s.delivered := by
    intro p hp
    have hkept : p ∈ of p.iface s.unflushed := by
      rw [h.order]
      exact List.mem_append_right _ (mem_of.mpr ⟨hp, rfl⟩)
    exact (List.mem_filter.mp (mem_of.mp hkept).1).1
  refine ⟨h.numbers, h.nodup, fun p hp => ?_, fun f => ?_, rfl, rfl, h.writers,
    fun w hw hreturned => ?_⟩
  · rcases List.mem_append.mp hp with hp | hp
    · exact h.flushed p hp
    · exact hmem p hp
  · -- of what was kept, the given ones stay and the queued ones go
    have hkept : s.okemuHidFlushIn.unflushed = s.unflushed.filter fun p => p ∉ s.hidIn := by
      simp only [unflushed, okemuHidFlushIn, List.filter_filter]
      refine List.filter_congr fun p _ => ?_
      simp only [List.mem_append, not_or, Bool.decide_and]
      exact Bool.and_comm _ _
    have hgiven : (of f s.given).filter (fun p => p ∉ s.hidIn) = of f s.given :=
      List.filter_eq_self.mpr fun p hp => by simpa using h.given_gone (mem_of.mp hp).1
    have hqueue : (of f s.hidIn).filter (fun p => p ∉ s.hidIn) = [] :=
      List.filter_eq_nil_iff.mpr fun p hp => by simpa using (mem_of.mp hp).1
    show of f s.okemuHidFlushIn.unflushed = of f s.given ++ []
    rw [hkept, of, List.filter_filter]
    have hcomm : (s.unflushed.filter fun p => decide (p.iface = f) && decide (p ∉ s.hidIn)) =
        (of f s.unflushed).filter fun p => p ∉ s.hidIn := by
      rw [of, List.filter_filter]
      exact List.filter_congr fun p _ => Bool.and_comm _ _
    rw [hcomm, h.order f, List.filter_append, hgiven, hqueue]
  · -- a writer that returned did so for a report given or flushed earlier
    rcases h.returned w hw hreturned with hgiven | hflushed
    · exact .inl hgiven
    · exact .inr (List.mem_append_left _ hflushed)

/-- A ticket that was reached is not one of those in the queue. -/
theorem Inv.reached (h : s.Inv) {w : Writer} (hw : w ∈ s.writers)
    (hticket : w.ticket ≤ s.vendorTaken) : w.report ∈ s.given ∨ w.report ∈ s.flushed := by
  obtain ⟨hmem, hvendor, hsame⟩ := h.writers w hw
  by_cases hflushed : w.report ∈ s.flushed
  · exact .inr hflushed
  · have hkept : w.report ∈ of .vendor s.unflushed :=
      mem_of.mpr ⟨List.mem_filter.mpr ⟨hmem, by simpa using hflushed⟩, hvendor⟩
    rw [h.order] at hkept
    rcases List.mem_append.mp hkept with hgiven | hqueue
    · exact .inl (mem_of.mp hgiven).1
    · -- the tickets in the queue are all later
      have hrange : w.report.ticket ∈ (of .vendor s.hidIn).map (·.ticket) :=
        List.mem_map_of_mem hqueue
      rw [h.tickets] at hrange
      have := (List.mem_range'_1.mp hrange).1
      omega

/-- A writer may return only where its ticket was reached. -/
theorem Inv.settle (h : s.Inv) (i : Nat) (wait : Writer → Wait)
    (hwait : ∀ w, wait w = .returned → w.ticket ≤ s.vendorTaken) : (s.settle i wait).Inv := by
  unfold Reports.settle
  split
  · rename_i w hget
    split
    · have hold := List.mem_of_getElem? hget
      refine ⟨h.numbers, h.nodup, h.flushed, h.order, h.tickets, h.count, fun w' hw' => ?_,
        fun w' hw' hreturned => ?_⟩
      · rcases List.mem_or_eq_of_mem_set hw' with hw' | rfl
        · exact h.writers w' hw'
        · exact h.writers w hold
      · rcases List.mem_or_eq_of_mem_set hw' with hw' | rfl
        · exact h.returned w' hw' hreturned
        · exact h.reached (w := w) hold (hwait w hreturned)
    · exact h
  · exact h

theorem Inv.step (h : s.Inv) (e : Event) : (s.step e).Inv := by
  cases e with
  | deliver data iface => exact h.deliver data iface
  | wake i =>
    refine h.settle i _ fun w hw => ?_
    by_contra hlate
    rw [if_neg hlate] at hw
    cases hw
  | deadline i => exact h.settle i _ fun w hw => (by cases hw)
  | recv => exact h.recv
  | flush => exact h.flush

/-! ### The lists are those of the calls -/

/-- The answers of one event more. -/
theorem received_concat (s : Reports) (es : List Event) (e : Event) :
    received s (es ++ [e]) = received s es ++ ((es.foldl step s).answer e).toList := by
  induction es generalizing s with
  | nil => simp [received]
  | cons x es ih => simp [received, ih]

/-- A look at the count changes a writer's wait and nothing else. -/
theorem settle_frame (s : Reports) (i : Nat) (wait : Writer → Wait) :
    (s.settle i wait).hidIn = s.hidIn ∧ (s.settle i wait).delivered = s.delivered ∧
      (s.settle i wait).given = s.given ∧ (s.settle i wait).flushed = s.flushed ∧
      (s.settle i wait).vendorPushed = s.vendorPushed ∧
      (s.settle i wait).writers.map (·.report) = s.writers.map (·.report) := by
  unfold Reports.settle
  split
  · rename_i w hget
    split
    · refine ⟨rfl, rfl, rfl, rfl, rfl, ?_⟩
      refine List.ext_getElem? fun j => ?_
      rw [List.map_set, List.getElem?_set]
      split
      · rename_i hij
        obtain ⟨hi, hw⟩ := List.getElem?_eq_some_iff.mp hget
        subst hij
        simp [hw, hi]
      · rfl
    · exact ⟨rfl, rfl, rfl, rfl, rfl, rfl⟩
  · exact ⟨rfl, rfl, rfl, rfl, rfl, rfl⟩

/-- A deliver call queues the report it was called with, and nothing else is queued. -/
theorem delivered_step (s : Reports) (e : Event) :
    (s.step e).delivered.map InPkt.report = s.delivered.map InPkt.report ++ (brought e).toList := by
  cases e with
  | deliver data iface => cases iface <;> simp [step, okemuHidDeliver, brought, InPkt.report]
  | wake i => simp [step, brought, (settle_frame s i _).2.1]
  | deadline i => simp [step, brought, (settle_frame s i _).2.1]
  | recv =>
    simp only [step, okemuHidRecv, brought, Option.toList_none, List.append_nil]
    split <;> rfl
  | flush => simp [step, okemuHidFlushIn, brought]

/-- A recv call answers with the report it takes, and nothing else is taken. -/
theorem given_step (s : Reports) (e : Event) :
    (s.step e).given.map InPkt.report = s.given.map InPkt.report ++ (s.answer e).toList := by
  cases e with
  | deliver data iface => cases iface <;> simp [step, okemuHidDeliver, answer]
  | wake i => simp [step, answer, (settle_frame s i _).2.2.1]
  | deadline i => simp [step, answer, (settle_frame s i _).2.2.1]
  | recv =>
    simp only [step, okemuHidRecv, answer]
    split
    · simp
    · simp [InPkt.report]
  | flush => simp [step, okemuHidFlushIn, answer]

/-- Only a flush removes reports unread, and only those that wait. -/
theorem flushed_step {e : Event} (hp : p ∈ (s.step e).flushed) :
    p ∈ s.flushed ∨ e = .flush ∧ p ∈ s.hidIn := by
  cases e with
  | deliver data iface => cases iface <;> exact .inl hp
  | wake i => exact .inl ((settle_frame s i _).2.2.2.1 ▸ hp)
  | deadline i => exact .inl ((settle_frame s i _).2.2.2.1 ▸ hp)
  | recv =>
    simp only [step, okemuHidRecv] at hp
    split at hp <;> exact .inl hp
  | flush =>
    rcases List.mem_append.mp hp with hp | hp
    · exact .inl hp
    · exact .inr ⟨rfl, hp⟩

/-- The vendor reports delivered each have a writer, in order, and each is counted. -/
structure Written (s : Reports) : Prop where
  writers : s.writers.map (·.report) = of .vendor s.delivered
  pushed : s.vendorPushed = (of .vendor s.delivered).length

/-- What a writer waits for is written at every step. -/
theorem Written.step (h : s.Written) (e : Event) : (s.step e).Written := by
  have hsettle (i : Nat) (wait : Writer → Wait) : (s.settle i wait).Written := by
    obtain ⟨-, hdelivered, -, -, hpushed, hwriters⟩ := settle_frame s i wait
    exact ⟨by rw [hwriters, hdelivered]; exact h.writers, by rw [hpushed, hdelivered]; exact h.pushed⟩
  cases e with
  | deliver data iface =>
    cases iface with
    | fido =>
      have hsame : of .vendor (s.okemuHidDeliver data .fido).delivered = of .vendor s.delivered := by
        simp [okemuHidDeliver, of]
      exact ⟨h.writers.trans hsame.symm, h.pushed.trans (congrArg _ hsame.symm)⟩
    | vendor =>
      constructor
      · simp only [Reports.step, okemuHidDeliver, of_append, List.map_append, h.writers]
        simp [of]
      · simp only [Reports.step, okemuHidDeliver, of_append, List.length_append, h.pushed]
        simp [of]
    | seremu => exact ⟨h.writers, h.pushed⟩
    | keyboard => exact h
  | wake i => exact hsettle i _
  | deadline i => exact hsettle i _
  | recv =>
    simp only [Reports.step, okemuHidRecv]
    split
    · exact h
    · exact ⟨h.writers, h.pushed⟩
  | flush => exact ⟨h.writers, h.pushed⟩

/-! ### The result -/

/-- What the inbound queue owes its callers, over a run of calls. -/
structure InOrder (es : List Event) : Prop where
  /-- The reports queued are those the deliver calls brought. -/
  delivered : (run es).delivered.map InPkt.report = sent es
  /-- The reports taken are those the recv calls answered with. -/
  given : (run es).given.map InPkt.report = received {} es
  /-- Each report is one of its own. -/
  once : (run es).delivered.Nodup
  /-- Of each interface, the reports no flush removed were given in their order, up to those
  that still wait. -/
  order : ∀ f, of f (run es).unflushed = of f (run es).given ++ of f (run es).hidIn
  /-- A report removed waited when a flush was called. -/
  flushed : ∀ p ∈ (run es).flushed, ∃ past, past ++ [.flush] <+: es ∧ p ∈ (run past).hidIn
  /-- A recv call comes back empty only when nothing waits. -/
  answered : ∀ past, past ++ [.recv] <+: es → (run past).okemuHidRecv.2 = none →
    (run past).hidIn = []
  /-- It gives a vendor report only when no FIDO one waits. -/
  fidoFirst : ∀ past data, past ++ [.recv] <+: es →
    (run past).okemuHidRecv.2 = some (.vendor, data) → ∀ q ∈ (run past).hidIn, q.iface ≠ .fido
  /-- The vendor reports delivered are counted, -/
  pushed : (run es).vendorPushed = ((sent es).filter fun r => r.1 = .vendor).length
  /-- and they are those taken or flushed and those that wait. -/
  count : (run es).vendorTaken + (of .vendor (run es).hidIn).length = (run es).vendorPushed
  /-- The writers are those of the vendor reports, in order. -/
  writers : (run es).writers.map (·.report) = of .vendor (run es).delivered
  /-- One that returns before its deadline has its own report taken or flushed. -/
  returned : ∀ w ∈ (run es).writers, w.wait = .returned →
    w.report ∈ (run es).given ∨ w.report ∈ (run es).flushed

theorem run_concat (es : List Event) (e : Event) : run (es ++ [e]) = (run es).step e :=
  List.foldl_append

/-- What was delivered is what the run's calls brought. -/
theorem run_delivered (es : List Event) : (run es).delivered.map InPkt.report = sent es := by
  induction es using List.reverseRecOn with
  | nil => rfl
  | append_singleton es e ih =>
    rw [run_concat, delivered_step, ih, sent, sent, List.filterMap_append]
    cases h : brought e <;> simp [h]

/-- What was given is what they answered. -/
theorem run_given (es : List Event) : (run es).given.map InPkt.report = received {} es := by
  induction es using List.reverseRecOn with
  | nil => rfl
  | append_singleton es e ih =>
    rw [run_concat, given_step, ih, received_concat]
    rfl

/-- What was flushed was in the queue at a flush. -/
theorem run_flushed (es : List Event) :
    ∀ p ∈ (run es).flushed, ∃ past, past ++ [.flush] <+: es ∧ p ∈ (run past).hidIn := by
  induction es using List.reverseRecOn with
  | nil => exact fun p hp => absurd hp List.not_mem_nil
  | append_singleton es e ih =>
    intro p hp
    rw [run_concat] at hp
    rcases flushed_step hp with hp | ⟨rfl, hwaits⟩
    · obtain ⟨past, hpast, hwaits⟩ := ih p hp
      exact ⟨past, hpast.trans (List.prefix_append es [e]), hwaits⟩
    · exact ⟨es, List.prefix_refl _, hwaits⟩

/-- An empty answer means an empty queue. -/
theorem recv_none (h : s.okemuHidRecv.2 = none) : s.hidIn = [] := by
  unfold okemuHidRecv at h
  cases hnext : s.next with
  | some p =>
    rw [hnext] at h
    cases h
  | none =>
    unfold next at hnext
    exact List.head?_eq_none_iff.mp (Option.or_eq_none_iff.mp hnext).2

/-- A vendor report is given only when no FIDO report waits. -/
theorem recv_vendor {data : Bytes 64} (h : s.okemuHidRecv.2 = some (.vendor, data)) :
    ∀ q ∈ s.hidIn, q.iface ≠ .fido := by
  unfold okemuHidRecv at h
  cases hnext : s.next with
  | none =>
    rw [hnext] at h
    cases h
  | some p =>
    rw [hnext] at h
    have hiface : p.iface = .vendor := (Prod.mk.inj (Option.some.inj h)).1
    exact next_vendor hnext hiface

/-- In every run of the calls, each interface's reports come in the order delivered and once
unless they were flushed, FIDO first; the counts add up, and a writer that returns in time has
its report behind it. -/
theorem reports_come_in_order (es : List Event) : InOrder es := by
  have h : (run es).Inv := inv_along inv_start (fun s e hs => hs.step e) es
  have hwritten : (run es).Written := inv_along ⟨rfl, rfl⟩ (fun s e hs => hs.step e) es
  have hcounted : ((sent es).filter fun r => r.1 = .vendor).length =
      (of .vendor (run es).delivered).length := by
    rw [← run_delivered, List.filter_map, List.length_map]
    rfl
  exact {
    delivered := run_delivered es
    given := run_given es
    once := h.nodup
    order := h.order
    flushed := run_flushed es
    answered := fun past _ => recv_none
    fidoFirst := fun past data _ => recv_vendor
    pushed := hwritten.pushed.trans hcounted.symm
    count := h.count
    writers := hwritten.writers
    returned := h.returned }

end Reports

end OkRn.Hal
