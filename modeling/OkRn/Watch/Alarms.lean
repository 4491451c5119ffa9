/-
OkRn/Watch/Alarms.lean

Alarm receipts of a chain's copy, and the notifications they cause.

After a sync the phone posts the alarms among the links newer than the newest it
looked at, and remembers that one number.  The rows come with their receipts,
paired by the library: an alarm receipt is told of on the row of the use it
answers, and on its own row, whose `receipt` is never there.  So a link is told
of once if it enters above the number and answers no use of the copy, twice if
it answers one, and never if it enters below (`alarm_is_posted_once`).

Nothing here lives in memory only: a restart changes neither the copy nor the
number.

Main results: `alarm_is_posted_once`, with the exact count for each link, and
`filled_in_alarm_is_not_posted`.
-/
import OkRn.Edge.Format
import Mathlib.Data.List.Pairwise
import Mathlib.Data.List.Perm.Basic

namespace OkRn.Watch

open OkRn.Edge

/-! ### The library's part -/

/-- `receiptCode`. -/
structure CodeInfo where
  name : Option String
  alarm : Bool

/-- How the use stands. -/
inductive ReceiptStatus
  | waiting | receipted | settled | alarm
  deriving DecidableEq

/-- The receipt of a use. -/
structure Answer where
  seq : UInt32
  code : UInt8
  name : Option String

/-- A use with its receipt, where it has one. -/
structure Paired where
  status : ReceiptStatus
  receipt : Option Answer

/-- What `edgeAlerts` uses of the library: the codes, and the uses of a chain with their receipts
(`pairReceipts`). -/
structure ReceiptLib where
  receiptCode : UInt8 → CodeInfo
  pairReceipts : List Link → UInt32 → Option Paired

/-- A receipt is paired with a use, and is one of the links. -/
structure ReceiptLib.Lawful (L : ReceiptLib) : Prop where
  uses : ∀ {links seq p}, L.pairReceipts links seq = some p →
    ∃ u ∈ links, u.seq = seq ∧ u.op ≠ opReceipt
  receipts : ∀ {links seq p a}, L.pairReceipts links seq = some p → p.receipt = some a →
    ∃ l ∈ links, l.seq = a.seq

/-! ### The alarms of a view -/

/-- A notification: the row it opens, and the receipt it is about. -/
structure EdgeAlarm where
  seq : UInt32
  about : UInt32
  title : String
  text : String
  budget : Option UInt32

/-- The hex digits of a code. -/
def hexOf (code : UInt8) : String := String.ofList (Nat.toDigits 16 code.toNat)

/-- At least two places. -/
def padStart (s : String) : String := if s.length < 2 then "0" ++ s else s

/-- A settle is the person's own press. -/
def isSettle (l : Link) : Bool :=
  l.op == opReceipt && l.decision == codeNeedsReview && l.flags &&& flagPressObserved != 0

/-- A receipt with an alarm code that is no settle. -/
def isAlarm (L : ReceiptLib) (l : Link) : Bool :=
  l.op == opReceipt && !isSettle l && (L.receiptCode l.decision).alarm

/-- An alarm receipt newer than `after`, on the row of the use it answers. -/
def onUse (after : UInt32) (l : Link) (paired : Option Paired) : List EdgeAlarm :=
  match paired with
  | some ⟨.alarm, some a⟩ =>
      if after < a.seq then
        let name := a.name.getD ("unknown code 0x" ++ padStart (hexOf a.code))
        [⟨l.seq, a.seq, "Edge: alarm receipt " ++ name,
          "The agent's receipt for #" ++ toString l.seq ++ " is an alarm (#" ++ toString a.seq ++
            "). Open Edge to look, or hold the budget.",
          if l.grantId ≠ 0 then some l.grantId else none⟩]
      else []
  | _ => []

/-- An alarm receipt newer than `after`, on its own row. -/
def onOwn (L : ReceiptLib) (after : UInt32) (l : Link) (paired : Option Paired) : List EdgeAlarm :=
  if l.op = opReceipt ∧ isSettle l = false ∧ after < l.seq ∧ paired.isNone then
    let c := L.receiptCode l.decision
    if c.alarm then
      [⟨l.seq, l.seq, "Edge: alarm receipt " ++ c.name.getD ("0x" ++ hexOf l.decision),
        "Receipt #" ++ toString l.seq ++ " for #" ++ toString l.grantId ++ " is an alarm.", none⟩]
    else []
  else []

/-- `alarmsAfter`; the rows are the copy's links, newest first. -/
def alarmsAfter (L : ReceiptLib) (copy : List Link) (after : UInt32) : List EdgeAlarm :=
  copy.reverse.flatMap fun l =>
    let paired := L.pairReceipts copy l.seq
    onUse after l paired ++ onOwn L after l paired

/-! ### The phone -/

/-- A chain's copy, the newest seq looked at, and everything posted. -/
structure Phone where
  copy : List Link
  kept : Option UInt32
  posted : List EdgeAlarm

/-- What may happen to the copy, and to the phone that watches it. -/
inductive CopyEvent
  /-- A link enters the copy, by a sync or a merge. -/
  | enter (l : Link)
  /-- `raiseAlarms`. -/
  | look
  | restart

/-- The link in its place, newest first. -/
def insertLink (l : Link) : List Link → List Link
  | [] => [l]
  | m :: ms => if m.seq < l.seq then l :: m :: ms else m :: insertLink l ms

namespace Phone

/-- A link at a seq that is held is not taken. -/
def enter (l : Link) (p : Phone) : Phone :=
  if p.copy.any fun m => m.seq == l.seq then p else { p with copy := insertLink l p.copy }

/-- `raiseAlarms`. -/
def raiseAlarms (L : ReceiptLib) (p : Phone) : Phone :=
  match p.copy with
  | [] => p
  | newest :: _ =>
      match p.kept with
      | none => { p with kept := some newest.seq }
      | some after =>
          if after < newest.seq then
            { p with
              kept := some newest.seq
              posted := p.posted ++ alarmsAfter L p.copy after }
          else p

/-- One event. -/
def step (L : ReceiptLib) (p : Phone) : CopyEvent → Phone
  | .enter l => p.enter l
  | .look => p.raiseAlarms L
  | .restart => p

/-- Any number of them. -/
def run (L : ReceiptLib) (events : List CopyEvent) (p : Phone) : Phone := events.foldl (step L) p

/-- A phone that never held this chain. -/
def new : Phone := ⟨[], none, []⟩

/-- How often the phone has told of the link. -/
def told (l : Link) (p : Phone) : Nat := p.posted.countP fun a => a.about == l.seq

/-- The link is the answer to a use of the copy. -/
def Answers (L : ReceiptLib) (l : Link) (p : Phone) : Prop :=
  ∃ u ∈ p.copy, ∃ a, L.pairReceipts p.copy u.seq = some ⟨.alarm, some a⟩ ∧ a.seq = l.seq

end Phone

/-! ### The order of the copy -/

/-- Newest first, one link at each seq. -/
def Newest (copy : List Link) : Prop := copy.Pairwise fun a b => b.seq < a.seq

/-- A link is put among the others. -/
theorem mem_insertLink {l m : Link} {ms : List Link} :
    m ∈ insertLink l ms ↔ m = l ∨ m ∈ ms := by
  induction ms with
  | nil => simp [insertLink]
  | cons x xs ih =>
    unfold insertLink
    split
    · simp
    · simp only [List.mem_cons, ih]
      tauto

theorem Newest.insertLink {l : Link} {ms : List Link} (h : Newest ms)
    (hnew : ∀ m ∈ ms, m.seq ≠ l.seq) : Newest (insertLink l ms) := by
  induction ms with
  | nil => exact List.pairwise_singleton _ l
  | cons x xs ih =>
    obtain ⟨hx, hxs⟩ := List.pairwise_cons.mp h
    unfold Watch.insertLink
    split
    · rename_i hlt
      refine List.pairwise_cons.mpr ⟨fun m hm => ?_, h⟩
      rcases List.mem_cons.mp hm with rfl | hm
      · exact hlt
      · exact UInt32.lt_trans (hx m hm) hlt
    · rename_i hlt
      refine List.pairwise_cons.mpr ⟨fun m hm => ?_, ih hxs fun m hm => hnew m (.tail x hm)⟩
      rcases mem_insertLink.mp hm with rfl | hm
      · exact UInt32.lt_of_le_of_ne (UInt32.not_lt.mp hlt) (Ne.symm (hnew x (.head xs)))
      · exact hx m hm

/-- A copy has one link of each seq. -/
theorem Newest.eq_of_seq {copy : List Link} (h : Newest copy) {a b : Link} (ha : a ∈ copy)
    (hb : b ∈ copy) (hseq : a.seq = b.seq) : a = b := by
  by_contra hne
  have hsymm : Std.Symm fun x y : Link => x.seq ≠ y.seq := ⟨fun _ _ hxy => Ne.symm hxy⟩
  have hdiff : copy.Pairwise fun x y => x.seq ≠ y.seq :=
    h.imp fun hlt => Ne.symm (UInt32.ne_of_lt hlt)
  exact hdiff.forall ha hb hne hseq

/-! ### What the alarms are about -/

section

variable {L : ReceiptLib} {after : UInt32} {copy : List Link} {l m : Link} {a : EdgeAlarm}

/-- On a use's row, the alarm of its receipt. -/
theorem about_onUse {paired : Option Paired} (h : a ∈ onUse after m paired) :
    ∃ r, paired = some ⟨.alarm, some r⟩ ∧ after < r.seq ∧ a.about = r.seq := by
  unfold onUse at h
  split at h
  · rename_i r
    split at h
    · rename_i hlt
      rw [List.mem_singleton] at h
      exact ⟨r, rfl, hlt, by rw [h]⟩
    · cases h
  · cases h

theorem exists_onUse (m : Link) {r : Answer} (h : after < r.seq) :
    ∃ a ∈ onUse after m (some ⟨.alarm, some r⟩), a.about = r.seq := by
  simp [onUse, h]

/-- On a link's own row, its own alarm. -/
theorem about_onOwn {paired : Option Paired} (h : a ∈ onOwn L after m paired) :
    after < m.seq ∧ a.about = m.seq := by
  unfold onOwn at h
  split at h
  · rename_i hm
    dsimp only at h
    split at h
    · rw [List.mem_singleton] at h
      exact ⟨hm.2.2.1, by rw [h]⟩
    · cases h
  · cases h

/-- A receipt has no receipt of its own. -/
theorem pairReceipts_receipt (hL : L.Lawful) (hcopy : Newest copy) (hl : l ∈ copy)
    (hop : l.op = opReceipt) : L.pairReceipts copy l.seq = none := by
  rcases hp : L.pairReceipts copy l.seq with - | p
  · rfl
  · obtain ⟨u, hu, hseq, huse⟩ := hL.uses hp
    rw [hcopy.eq_of_seq hu hl hseq] at huse
    exact absurd hop huse

/-- An alarm receipt newer than `after` is told of once on its own row. -/
theorem countP_onOwn (hL : L.Lawful) (hcopy : Newest copy) (hl : l ∈ copy)
    (halarm : isAlarm L l = true) (hlt : after < l.seq) :
    (copy.flatMap fun m => onOwn L after m (L.pairReceipts copy m.seq)).countP
      (fun a => a.about == l.seq) = 1 := by
  simp only [isAlarm, Bool.and_eq_true, beq_iff_eq, Bool.not_eq_true'] at halarm
  obtain ⟨⟨hop, hsettle⟩, hcode⟩ := halarm
  have hnone := pairReceipts_receipt hL hcopy hl hop
  have hrow : (onOwn L after l (L.pairReceipts copy l.seq)).countP
      (fun a => a.about == l.seq) = 1 := by
    simp [onOwn, hnone, hop, hsettle, hlt, hcode]
  -- on any other row it is not told of
  have hother : ∀ ms : List Link, (∀ m ∈ ms, m.seq ≠ l.seq) →
      (ms.flatMap fun m => onOwn L after m (L.pairReceipts copy m.seq)).countP
        (fun a => a.about == l.seq) = 0 := by
    intro ms hms
    rw [List.countP_eq_zero]
    intro a ha
    obtain ⟨m, hm, ham⟩ := List.mem_flatMap.mp ha
    rw [beq_iff_eq, (about_onOwn ham).2]
    exact hms m hm
  generalize L.pairReceipts copy = pair at hrow hother ⊢
  obtain ⟨newer, older, rfl⟩ := List.append_of_mem hl
  obtain ⟨-, htail, hbefore⟩ := List.pairwise_append.mp hcopy
  have hafter := (List.pairwise_cons.mp htail).1
  rw [List.flatMap_append, List.flatMap_cons, List.countP_append, List.countP_append, hrow,
    hother newer fun m hm => Ne.symm (UInt32.ne_of_lt (hbefore m hm l (.head older))),
    hother older fun m hm => UInt32.ne_of_lt (hafter m hm)]

/-- How often an alarm receipt newer than `after` is told of: once on its own row, and once on
the row of each use it answers. -/
theorem countP_alarmsAfter (hL : L.Lawful) (hcopy : Newest copy) (hl : l ∈ copy)
    (halarm : isAlarm L l = true) (hlt : after < l.seq) :
    (alarmsAfter L copy after).countP (fun a => a.about == l.seq) =
      (copy.flatMap fun m => onUse after m (L.pairReceipts copy m.seq)).countP
        (fun a => a.about == l.seq) + 1 := by
  have hperm : (alarmsAfter L copy after).Perm
      ((copy.flatMap fun m => onUse after m (L.pairReceipts copy m.seq)) ++
        copy.flatMap fun m => onOwn L after m (L.pairReceipts copy m.seq)) :=
    ((List.reverse_perm copy).flatMap_right _).trans (List.flatMap_append_perm copy _ _).symm
  rw [hperm.countP_eq, List.countP_append, countP_onOwn hL hcopy hl halarm hlt]

/-- Every alarm is about a link newer than `after`. -/
theorem after_lt_about (h : a ∈ alarmsAfter L copy after) : after < a.about := by
  obtain ⟨m, -, ha⟩ := List.mem_flatMap.mp h
  rcases List.mem_append.mp ha with ha | ha
  · obtain ⟨r, -, hlt, habout⟩ := about_onUse ha
    rw [habout]
    exact hlt
  · obtain ⟨hlt, habout⟩ := about_onOwn ha
    rw [habout]
    exact hlt

/-- Every alarm is about a link of the copy. -/
theorem about_mem (hL : L.Lawful) (h : a ∈ alarmsAfter L copy after) :
    ∃ m ∈ copy, m.seq = a.about := by
  obtain ⟨m, hm, ha⟩ := List.mem_flatMap.mp h
  rcases List.mem_append.mp ha with ha | ha
  · obtain ⟨r, hp, -, habout⟩ := about_onUse ha
    obtain ⟨x, hx, hseq⟩ := hL.receipts hp rfl
    exact ⟨x, hx, hseq.trans habout.symm⟩
  · exact ⟨m, List.mem_reverse.mp hm, (about_onOwn ha).2.symm⟩

end

namespace Phone

variable {L : ReceiptLib} {p : Phone} {l : Link} {n : UInt32}

/-! ### What every run keeps -/

/-- What holds of every phone. -/
structure Inv (p : Phone) : Prop where
  newest : Newest p.copy
  posted : ∀ a ∈ p.posted, ∃ m ∈ p.copy, m.seq = a.about

/-- A phone that has seen nothing. -/
theorem inv_new : Inv new where
  newest := List.Pairwise.nil
  posted := fun _ h => by cases h

/-- The first event, then the others. -/
theorem run_cons (e : CopyEvent) (es : List CopyEvent) (p : Phone) :
    run L (e :: es) p = run L es (step L p e) := rfl

theorem run_append (es es' : List CopyEvent) (p : Phone) :
    run L (es ++ es') p = run L es' (run L es p) := List.foldl_append

/-- What was in the copy stays. -/
theorem mem_enter {m : Link} (h : m ∈ p.copy) : m ∈ (p.enter l).copy := by
  unfold enter
  split
  · exact h
  · exact mem_insertLink.mpr (Or.inr h)

/-- A link that enters leaves the number. -/
@[simp] theorem enter_kept (l : Link) (p : Phone) : (p.enter l).kept = p.kept := by
  unfold enter
  split <;> rfl

@[simp] theorem enter_posted (l : Link) (p : Phone) : (p.enter l).posted = p.posted := by
  unfold enter
  split <;> rfl

@[simp] theorem raiseAlarms_copy (p : Phone) : (p.raiseAlarms L).copy = p.copy := by
  unfold raiseAlarms
  split
  · rfl
  · split
    · rfl
    · split <;> rfl

theorem newest_enter (h : Newest p.copy) (l : Link) : Newest (p.enter l).copy := by
  unfold Phone.enter
  split
  · exact h
  · rename_i hany
    refine h.insertLink fun m hm hseq => hany ?_
    exact List.any_eq_true.mpr ⟨m, hm, beq_iff_eq.mpr hseq⟩

/-- A link that enters keeps the invariant. -/
theorem Inv.enter (h : p.Inv) (l : Link) : (p.enter l).Inv where
  newest := newest_enter h.newest l
  posted := by
    rw [enter_posted]
    intro a ha
    obtain ⟨m, hm, hseq⟩ := h.posted a ha
    exact ⟨m, mem_enter hm, hseq⟩

/-- A look posts the alarms after the number. -/
theorem posted_raiseAlarms {a : EdgeAlarm} (h : a ∈ (p.raiseAlarms L).posted) :
    a ∈ p.posted ∨ ∃ after, p.kept = some after ∧ a ∈ alarmsAfter L p.copy after := by
  unfold raiseAlarms at h
  split at h
  · exact Or.inl h
  · split at h
    · exact Or.inl h
    · rename_i after hkept
      split at h
      · exact (List.mem_append.mp h).imp_right fun ha => ⟨after, hkept, ha⟩
      · exact Or.inl h

theorem Inv.step (hL : L.Lawful) (h : p.Inv) (e : CopyEvent) : (p.step L e).Inv := by
  cases e with
  | enter l => exact h.enter l
  | restart => exact h
  | look =>
    refine ⟨?_, fun a ha => ?_⟩
    · exact (raiseAlarms_copy p).symm ▸ h.newest
    · change ∃ m ∈ (p.raiseAlarms L).copy, m.seq = a.about
      rw [raiseAlarms_copy]
      rcases posted_raiseAlarms ha with ha | ⟨after, -, ha⟩
      · exact h.posted a ha
      · exact about_mem hL ha

theorem Inv.run (hL : L.Lawful) (events : List CopyEvent) (h : p.Inv) : (run L events p).Inv := by
  induction events generalizing p with
  | nil => exact h
  | cons e es ih => exact ih (h.step hL e)

/-- A later look posts nothing, or all the alarms after the newest seq looked at. -/
theorem raiseAlarms_cases (h : p.kept = some n) :
    p.raiseAlarms L = p ∨ ∃ newest, p.copy.head? = some newest ∧ n < newest.seq ∧
      p.raiseAlarms L =
        { p with kept := some newest.seq, posted := p.posted ++ alarmsAfter L p.copy n } := by
  unfold raiseAlarms
  split
  · exact Or.inl rfl
  · rename_i newest older hcopy
    simp only [h]
    split
    · rename_i hlt
      exact Or.inr ⟨newest, by rw [hcopy]; rfl, hlt, rfl⟩
    · exact Or.inl rfl

/-! ### A link that was passed over -/

/-- The phone has looked at newer links. -/
def Passed (l : Link) (p : Phone) : Prop := ∃ n, p.kept = some n ∧ l.seq ≤ n

/-- From then on the link is not told of. -/
theorem Passed.step (h : Passed l p) (e : CopyEvent) :
    Passed l (p.step L e) ∧ (p.step L e).told l = p.told l := by
  obtain ⟨n, hkept, hle⟩ := h
  cases e with
  | enter m => exact ⟨⟨n, (enter_kept m p).trans hkept, hle⟩, by simp [Phone.step, told]⟩
  | restart => exact ⟨⟨n, hkept, hle⟩, rfl⟩
  | look =>
    rcases raiseAlarms_cases (L := L) hkept with heq | ⟨newest, -, hlt, heq⟩
    · change Passed l (p.raiseAlarms L) ∧ (p.raiseAlarms L).told l = p.told l
      rw [heq]
      exact ⟨⟨n, hkept, hle⟩, rfl⟩
    · have hnone : (alarmsAfter L p.copy n).countP (fun a => a.about == l.seq) = 0 := by
        rw [List.countP_eq_zero]
        intro a ha
        rw [beq_iff_eq]
        exact Ne.symm (UInt32.ne_of_lt (UInt32.lt_of_le_of_lt hle (after_lt_about ha)))
      change Passed l (p.raiseAlarms L) ∧ (p.raiseAlarms L).told l = p.told l
      rw [heq]
      refine ⟨⟨newest.seq, rfl, UInt32.le_trans hle (UInt32.le_of_lt hlt)⟩, ?_⟩
      simp [told, List.countP_append, hnone]

/-- A link below the number is never told of again. -/
theorem Passed.run (h : Passed l p) (events : List CopyEvent) : (run L events p).told l = p.told l := by
  induction events generalizing p with
  | nil => rfl
  | cons e es ih =>
    obtain ⟨hpassed, htold⟩ := h.step (L := L) e
    rw [run_cons, ih hpassed, htold]

/-! ### A link that is new -/

/-- Between two looks the copy gains links, and nothing is posted. -/
theorem run_before_look {events : List CopyEvent} (h : CopyEvent.look ∉ events) :
    (run L events p).kept = p.kept ∧ (run L events p).posted = p.posted ∧
      ∀ m ∈ p.copy, m ∈ (run L events p).copy := by
  induction events generalizing p with
  | nil => exact ⟨rfl, rfl, fun m hm => hm⟩
  | cons e es ih =>
    rw [List.mem_cons, not_or] at h
    obtain ⟨hkept, hposted, hcopy⟩ := ih (p := step L p e) h.2
    rw [run_cons, hkept, hposted]
    cases e with
    | look => exact absurd rfl h.1
    | restart => exact ⟨rfl, rfl, hcopy⟩
    | enter m =>
      exact ⟨enter_kept m p, enter_posted m p, fun x hx => hcopy x (mem_enter hx)⟩

/-- What a look tells of an alarm receipt that is newer than the number. -/
theorem told_raiseAlarms (hL : L.Lawful) (hinv : p.Inv) (hkept : p.kept = some n) (hl : l ∈ p.copy)
    (halarm : isAlarm L l = true) (hlt : n < l.seq) :
    Passed l (p.raiseAlarms L) ∧ (p.raiseAlarms L).told l = p.told l +
      ((p.copy.flatMap fun m => onUse n m (L.pairReceipts p.copy m.seq)).countP
        (fun a => a.about == l.seq) + 1) := by
  obtain ⟨newest, older, hcopy⟩ : ∃ newest older, p.copy = newest :: older :=
    List.exists_cons_of_ne_nil (List.ne_nil_of_mem hl)
  have hle : l.seq ≤ newest.seq := by
    have hsorted := hinv.newest
    rw [hcopy] at hl hsorted
    rcases List.mem_cons.mp hl with rfl | hl
    · exact UInt32.le_refl _
    · exact UInt32.le_of_lt ((List.pairwise_cons.mp hsorted).1 l hl)
  have hraise : p.raiseAlarms L =
      { p with kept := some newest.seq, posted := p.posted ++ alarmsAfter L p.copy n } := by
    unfold raiseAlarms
    simp only [hcopy, hkept, if_pos (UInt32.lt_of_lt_of_le hlt hle)]
  rw [hraise]
  refine ⟨⟨newest.seq, rfl, hle⟩, ?_⟩
  simp only [told, List.countP_append]
  rw [countP_alarmsAfter hL hinv.newest hl halarm hlt]

/-- The rows of uses tell of a receipt newer than the number just if it answers one of them. -/
theorem countP_onUse (hlt : n < l.seq) :
    (p.copy.flatMap fun m => onUse n m (L.pairReceipts p.copy m.seq)).countP
      (fun a => a.about == l.seq) = 0 ↔ ¬ Answers L l p := by
  rw [List.countP_eq_zero]
  constructor
  · rintro h ⟨u, hu, r, hpair, hseq⟩
    obtain ⟨a, ha, habout⟩ := exists_onUse u (hseq ▸ hlt)
    refine h a (List.mem_flatMap.mpr ⟨u, hu, ?_⟩) (beq_iff_eq.mpr (habout.trans hseq))
    rw [hpair]
    exact ha
  · intro h a ha habout
    obtain ⟨u, hu, ha⟩ := List.mem_flatMap.mp ha
    obtain ⟨r, hpair, -, hr⟩ := about_onUse ha
    exact h ⟨u, hu, r, hpair, hr.symm.trans (beq_iff_eq.mp habout)⟩

/-- An alarm receipt that enters the copy after the phone's first look, before some later look, is
told of exactly once, over all looks, just if it enters above the newest seq looked at and answers
no use that the copy holds at the next look. -/
theorem alarm_is_posted_once (hL : L.Lawful) (before between rest : List CopyEvent)
    (hkept : (run L before new).kept = some n) (hnew : ∀ m ∈ (run L before new).copy, m.seq ≠ l.seq)
    (halarm : isAlarm L l = true) (hbetween : CopyEvent.look ∉ between) :
    (run L (before ++ .enter l :: between ++ .look :: rest) new).told l = 1 ↔
      n < l.seq ∧ ¬ Answers L l (run L (before ++ .enter l :: between) new) := by
  have hinv : (run L before new).Inv := inv_new.run hL before
  have hnil : (run L before new).told l = 0 := by
    refine List.countP_eq_zero.mpr fun a ha habout => ?_
    obtain ⟨m, hm, hseq⟩ := hinv.posted a ha
    exact hnew m hm (hseq.trans (beq_iff_eq.mp habout))
  rw [run_append _ (.look :: rest), run_append before, run_cons]
  generalize run L before new = p at hkept hnew hinv hnil
  have hl : l ∈ (p.enter l).copy := by
    have hany : ¬ p.copy.any (fun m => m.seq == l.seq) = true := fun hany => by
      obtain ⟨m, hm, hseq⟩ := List.any_eq_true.mp hany
      exact hnew m hm (beq_iff_eq.mp hseq)
    rw [enter, if_neg hany]
    exact mem_insertLink.mpr (Or.inl rfl)
  change (run L (.look :: rest) (run L between (p.enter l))).told l = 1 ↔
    n < l.seq ∧ ¬ Answers L l (run L between (p.enter l))
  obtain ⟨hkept', hposted', hcopy'⟩ := run_before_look (L := L) (p := p.enter l) hbetween
  have hinv' : (run L between (p.enter l)).Inv := (hinv.enter l).run hL between
  generalize run L between (p.enter l) = q at hkept' hposted' hcopy' hinv'
  have hq : q.kept = some n := hkept'.trans ((enter_kept l p).trans hkept)
  -- before its look the link was told of by nobody
  have hzero : q.told l = 0 := by
    rw [told, hposted', enter_posted]
    exact hnil
  -- above the number it is told of once, or twice as an answer; below it never
  by_cases hlt : n < l.seq
  · obtain ⟨hpassed, htold⟩ := told_raiseAlarms hL hinv' hq (hcopy' l hl) halarm hlt
    have hcount := countP_onUse (L := L) (p := q) hlt
    rw [run_cons]
    change (run L rest (q.raiseAlarms L)).told l = 1 ↔ _
    rw [hpassed.run, htold, hzero]
    constructor
    · intro h
      exact ⟨hlt, hcount.mp (by omega)⟩
    · rintro ⟨-, h⟩
      rw [hcount.mpr h]
  · have hpassed : Passed l q := ⟨n, hq, UInt32.not_lt.mp hlt⟩
    rw [hpassed.run, hzero]
    exact ⟨fun h => absurd h (by decide), fun h => absurd h.1 hlt⟩

end Phone

/-! ### A library that pairs by the seq a receipt names -/

namespace Demo

/-- The use at this seq, with the receipt that names it. -/
def pairBySeq (links : List Link) (seq : UInt32) : Option Paired :=
  match links.find? fun u => u.seq == seq && u.op != opReceipt with
  | none => none
  | some _ => match links.find? fun l => l.op == opReceipt && l.grantId == seq with
    | none => some ⟨.waiting, none⟩
    | some l =>
        some ⟨if isSettle l then .settled else if 0x80 ≤ l.decision then .alarm else .receipted,
          some ⟨l.seq, l.decision, none⟩⟩

/-- A library that pairs by seq. -/
def receiptLib : ReceiptLib := ⟨fun code => ⟨none, 0x80 ≤ code⟩, pairBySeq⟩

/-- It is as the app relies on. -/
theorem receiptLib_lawful : receiptLib.Lawful where
  uses := by
    intro links seq p h
    change pairBySeq links seq = some p at h
    unfold pairBySeq at h
    split at h
    · cases h
    · rename_i u hu
      have hsome := List.find?_some hu
      simp only [Bool.and_eq_true, beq_iff_eq, bne_iff_ne] at hsome
      exact ⟨u, List.mem_of_find?_eq_some hu, hsome⟩
  receipts := by
    intro links seq p a h hp
    change pairBySeq links seq = some p at h
    unfold pairBySeq at h
    split at h
    · cases h
    · split at h
      · cases h
        cases hp
      · rename_i l hl
        cases h
        cases hp
        exact ⟨l, List.mem_of_find?_eq_some hl, rfl⟩

/-- A use's link. -/
def useLink (seq : UInt32) : Link := { Link.blank with seq := seq, op := opSign }

/-- An alarm receipt for the use `ref`. -/
def alarmLink (seq ref : UInt32) : Link :=
  { Link.blank with seq := seq, op := opReceipt, decision := 0x82, grantId := ref }

/-- A receipt for a use that this copy does not hold. -/
theorem alarm_is_posted_once_unheld :
    (Phone.run receiptLib
      ([.enter (useLink 5), .look] ++ .enter (alarmLink 7 4) :: [] ++ .look :: []) .new).told
        (alarmLink 7 4) = 1 ↔
      (5 : UInt32) < (alarmLink 7 4).seq ∧ ¬ Phone.Answers receiptLib (alarmLink 7 4)
        (Phone.run receiptLib ([.enter (useLink 5), .look] ++ .enter (alarmLink 7 4) :: []) .new) :=
  Phone.alarm_is_posted_once receiptLib_lawful [.enter (useLink 5), .look] [] [] rfl (by decide)
    rfl (by simp)

/-- A receipt that is filled in below the newest seq looked at. -/
theorem filled_in_alarm_is_not_posted :
    ¬ ∀ (n : UInt32) (l : Link) (before between rest : List CopyEvent),
      (Phone.run receiptLib before .new).kept = some n →
      (∀ m ∈ (Phone.run receiptLib before .new).copy, m.seq ≠ l.seq) →
      isAlarm receiptLib l = true → CopyEvent.look ∉ between →
      (Phone.run receiptLib (before ++ .enter l :: between ++ .look :: rest) .new).told l = 1 := by
  intro h
  have htold := h 5 (alarmLink 3 2) [.enter (useLink 5), .look] [] [] rfl (by decide) rfl (by simp)
  exact absurd htold (by decide)

/-- The receipt of a use that the copy holds is told of on both rows. -/
example : (Phone.run receiptLib
    [.enter (useLink 5), .look, .enter (alarmLink 6 5), .look] .new).told (alarmLink 6 5) = 2 := by
  decide

end Demo

end OkRn.Watch
