/-
OkRn/Watch/Once.lean

Each overdue use and each ended budget is told of once.

What was told of is kept in two lists cut to their last hundred, while each round is
given the whole history: a budget that falls off its list is told of at the next
round again, and so is one that had ended before the first look.  As long as neither
list is cut (`Room`), the lists hold exactly what was told of (`Kept.Told`).

Main result: `notices_come_once`.

What a round without room does is `old_budget_is_told_of`: 101 budgets that had ended
before the first look, and the oldest is told of at the second.
-/
import OkRn.Watch.Notices
import Mathlib.Data.List.Count
import Mathlib.Data.List.Dedup

namespace OkRn.Watch

open OkRn.Edge

/-! ### The rounds -/

/-- The uses whose receipt is owed past 10 minutes. -/
def overdueUses (L : ReceiptLib) (copy : List Link) (st : WatchState) : List UInt32 :=
  (copy.filter fun l =>
    (L.pairReceipts copy l.seq).any (fun p => p.status == .waiting) && st.seenAt l.seq != 0 &&
      decide (600000 < st.now - st.seenAt l.seq)).map Link.seq

variable {L : ReceiptLib} {copy : List Link} {done : List UInt32} {st : WatchState}

/-- A use is new where it is overdue and not in the list. -/
theorem mem_owedNew {s : UInt32} :
    s ∈ owedNew L copy done st ↔ s ∈ overdueUses L copy st ∧ s ∉ done := by
  simp only [owedNew, overdueUses, List.mem_map, List.mem_filter, Bool.and_eq_true]
  constructor
  · rintro ⟨l, ⟨hl, hdue, hnew⟩, rfl⟩
    exact ⟨⟨l, ⟨hl, hdue⟩, rfl⟩, by simpa using hnew⟩
  · rintro ⟨⟨l, ⟨hl, hdue⟩, rfl⟩, hnew⟩
    exact ⟨l, ⟨hl, hdue, by simpa using hnew⟩, rfl⟩

/-- Each is told of once in a round. -/
theorem nodup_owedNew (h : Newest copy) : (owedNew L copy done st).Nodup := by
  have hall : (copy.map Link.seq).Nodup :=
    List.pairwise_map.mpr (h.imp fun hlt => Ne.symm (UInt32.ne_of_lt hlt))
  exact (List.filter_sublist.map Link.seq).nodup hall

theorem mem_endedNew {kept : Kept} {b : UInt32} :
    b ∈ endedNew kept st ↔ b ∈ endedIds st ∧ b ∉ endedDone kept st := by
  simp [endedNew, List.mem_filter]

theorem last100_of_short {l : List UInt32} (h : l.length ≤ 100) : last100 l = l := by
  rw [last100, Nat.sub_eq_zero_of_le h, List.drop_zero]

/-- Neither list is cut in this round, and the history names each budget once. -/
structure Kept.Room (L : ReceiptLib) (copy : List Link) (kept : Kept) (st : WatchState) : Prop where
  once : (endedIds st).Nodup
  owed : (kept.owed ++ owedNew L copy kept.owed st).length ≤ 100
  ended : (endedDone kept st ++ endedIds st).eraseDups.length ≤ 100

/-- With room, the list holds what it held and what is new. -/
theorem Kept.mem_owed_after {kept : Kept} (h : kept.Room L copy st) {s : UInt32} :
    s ∈ (Panel.Kept.after L copy kept st).owed ↔ s ∈ kept.owed ∨ s ∈ overdueUses L copy st := by
  have hnew : s ∈ kept.owed ++ owedNew L copy kept.owed st ↔
      s ∈ kept.owed ∨ s ∈ overdueUses L copy st := by
    rw [List.mem_append, mem_owedNew]
    tauto
  rw [← hnew]
  simp only [Panel.Kept.after]
  split
  · rename_i hnil
    rw [hnil, List.append_nil]
  · rw [last100_of_short h.owed]

/-- Likewise for ended budgets, from the first look on. -/
theorem Kept.mem_ended_after {kept : Kept} (h : kept.Room L copy st) {b : UInt32} :
    (Panel.Kept.after L copy kept st).ended.isSome = true ∧
      (b ∈ (Panel.Kept.after L copy kept st).ended.getD [] ↔
        b ∈ kept.ended.getD [] ∨ b ∈ endedIds st) := by
  simp only [Panel.Kept.after, last100_of_short h.ended]
  rcases hended : kept.ended with - | l
  · simp [endedDone, hended]
  · by_cases hnil : endedNew kept st = []
    · rw [if_neg (by simp [hnil])]
      refine ⟨rfl, ⟨Or.inl, ?_⟩⟩
      rintro (hb | hb)
      · exact hb
      · -- nothing is new: it was kept
        by_contra hout
        have hnew : b ∈ endedNew kept st :=
          mem_endedNew.mpr ⟨hb, by simpa [endedDone, hended] using hout⟩
        rw [hnil] at hnew
        cases hnew
    · rw [if_pos (Or.inr hnil)]
      simp [endedDone, hended]

/-! ### What was told -/

namespace Panel

/-- How often a thing was told of. -/
def told (w : Panel) (h : Happening) : Nat := w.posted.countP fun n => n.about == h

/-- What an event tells, counted. -/
theorem told_step (w : Panel) (e : PanelEvent) (h : Happening) :
    (w.step L e).told h = w.told h + (w.news L e).countP fun n => n.about == h :=
  List.countP_append

/-- The state of the first round of a chain. -/
def firstLook (d : String) (history : List PanelEvent) : Option WatchState :=
  history.findSome? fun e =>
    match e with
    | .watch d' st => if d' = d then some st else none
    | _ => none

/-- The budgets that had ended at the first look. -/
def firstEnded (d : String) (history : List PanelEvent) : List UInt32 :=
  ((firstLook d history).map endedIds).getD []

/-- The event is not a round of this chain. -/
def Elsewhere (d : String) : PanelEvent → Prop
  | .watch d' _ => d' ≠ d
  | _ => True

/-- An overdue use or an ended budget of a chain. -/
inductive Of (d : String) : Happening → Prop
  | overdue (s : UInt32) : Of d (.overdue d s)
  | ended (b : UInt32) : Of d (.ended d b)

variable {w : Panel} {d : String} {e : PanelEvent} {history : List PanelEvent}

/-- Notices of other events do not count. -/
theorem countP_of_ne {l : List Notice} {h : Happening} (hne : ∀ n ∈ l, n.about ≠ h) :
    l.countP (fun n => n.about == h) = 0 :=
  List.countP_eq_zero.mpr fun n hn => by simpa using hne n hn

/-- An event of another device tells nothing of this one. -/
theorem told_elsewhere (he : Elsewhere d e) {h : Happening} (hd : Of d h) :
    (w.step L e).told h = w.told h := by
  rw [told_step, countP_of_ne, Nat.add_zero]
  intro n hn
  -- a notice names its device, and these are of another
  cases e with
  | enter device l => cases hn
  | look device =>
    simp only [news, lookNews] at hn
    split at hn
    · split at hn
      · obtain ⟨a, -, rfl⟩ := List.mem_map.mp hn
        cases hd <;> exact fun h => by cases h
      · cases hn
    · cases hn
  | watch device st =>
    have hne : device ≠ d := he
    simp only [news, watchNews, List.mem_append, List.mem_map] at hn
    rcases hn with (⟨-, -, rfl⟩ | ⟨s, -, rfl⟩) | ⟨b, -, rfl⟩
    · cases hd <;> exact fun h => by cases h
    · cases hd with
      | overdue => exact fun h => hne (Happening.overdue.inj h).1
      | ended => exact fun h => by cases h
    · cases hd with
      | overdue => exact fun h => by cases h
      | ended => exact fun h => hne (Happening.ended.inj h).1
  | bluetooth id =>
    rw [List.mem_singleton.mp hn]
    cases hd <;> exact fun h => by cases h
  | stopped =>
    rw [List.mem_singleton.mp hn]
    cases hd <;> exact fun h => by cases h
  | hold =>
    rw [List.mem_singleton.mp hn]
    cases hd <;> exact fun h => by cases h

theorem kept_elsewhere (he : Elsewhere d e) : (w.step L e).kept d = w.kept d := by
  cases e with
  | watch device st => exact Function.update_of_ne (Ne.symm he) _ _
  | _ => rfl

theorem firstLook_elsewhere (he : Elsewhere d e) :
    firstLook d (history ++ [e]) = firstLook d history := by
  have hnone : firstLook d [e] = none := by
    cases e with
    | watch device st =>
      have hne : device ≠ d := he
      simp [firstLook, hne]
    | _ => rfl
  rw [firstLook, List.findSome?_append]
  show (firstLook d history).or (firstLook d [e]) = _
  rw [hnone, Option.or_none]

/-- The first watch of a device is its first look. -/
theorem firstLook_watch :
    firstLook d (history ++ [.watch d st]) = (firstLook d history).or (some st) := by
  rw [firstLook, List.findSome?_append]
  show (firstLook d history).or (firstLook d [.watch d st]) = _
  simp [firstLook]

theorem countP_once {l : List UInt32} (hl : l.Nodup) {f : UInt32 → Notice} {h : UInt32 → Happening}
    (hf : ∀ x, (f x).about = h x) (hh : Function.Injective h) (s : UInt32) :
    (l.map f).countP (fun n => n.about == h s) = if s ∈ l then 1 else 0 := by
  rw [List.countP_map]
  have hcount : l.countP ((fun n : Notice => n.about == h s) ∘ f) = l.count s := by
    refine List.countP_congr fun x _ => ?_
    simp only [Function.comp, hf, beq_iff_eq]
    exact ⟨fun heq => hh heq, fun heq => by rw [heq]⟩
  rw [hcount, List.Nodup.count hl]

/-- A round tells of an overdue use once, if it is new. -/
theorem told_overdue (h : Newest (w.phones d).copy) (s : UInt32) :
    (w.step L (.watch d st)).told (.overdue d s) = w.told (.overdue d s) +
      if s ∈ overdueUses L (w.phones d).copy st ∧ s ∉ (w.kept d).owed then 1 else 0 := by
  rw [told_step]
  simp only [news, watchNews, List.countP_append]
  rw [countP_of_ne (by simp), countP_of_ne (l := List.map _ (endedNew _ _)) (by simp),
    countP_once (f := fun s => ⟨.overdue d s, .post s⟩) (h := Happening.overdue d) (nodup_owedNew h)
      (fun _ => rfl) (fun _ _ heq => (Happening.overdue.inj heq).2)]
  simp only [mem_owedNew, Nat.zero_add, Nat.add_zero]

theorem told_ended (h : (endedIds st).Nodup) (b : UInt32) :
    (w.step L (.watch d st)).told (.ended d b) = w.told (.ended d b) +
      if b ∈ endedIds st ∧ b ∉ endedDone (w.kept d) st then 1 else 0 := by
  have hnew : (endedNew (w.kept d) st).Nodup := h.filter _
  rw [told_step]
  simp only [news, watchNews, List.countP_append]
  rw [countP_of_ne (by simp), countP_of_ne (l := List.map _ (owedNew _ _ _ _)) (by simp),
    countP_once (f := fun b => ⟨.ended d b, .post b⟩) (h := Happening.ended d) hnew (fun _ => rfl)
      (fun _ _ heq => (Happening.ended.inj heq).2)]
  simp only [mem_endedNew, Nat.zero_add]

/-- The lists hold what was told of, and what had ended at the first look. -/
structure Told (L : ReceiptLib) (history : List PanelEvent) (w : Panel) (d : String) : Prop where
  newest : Newest (w.phones d).copy
  owed : ∀ s, w.told (.overdue d s) = if s ∈ (w.kept d).owed then 1 else 0
  overdue : ∀ past st, past ++ [.watch d st] <+: history →
    ∀ s ∈ overdueUses L ((run L past).phones d).copy st, s ∈ (w.kept d).owed
  ended : ∀ b, w.told (.ended d b) =
    if b ∈ (w.kept d).ended.getD [] ∧ b ∉ firstEnded d history then 1 else 0
  first : (w.kept d).ended.isSome = (firstLook d history).isSome
  recorded : ∀ b ∈ firstEnded d history, b ∈ (w.kept d).ended.getD []
  rounds : ∀ past st, past ++ [.watch d st] <+: history →
    ∀ b ∈ endedIds st, b ∈ (w.kept d).ended.getD []

/-- A round is one of those before, or the last event. -/
theorem round_cases (history : List PanelEvent) {past : List PanelEvent} {x : PanelEvent}
    (h : past ++ [x] <+: history ++ [e]) :
    past ++ [x] <+: history ∨ (past = history ∧ x = e) := by
  rcases List.prefix_concat_iff.mp h with heq | hold
  · obtain ⟨hpast, hx⟩ := List.append_inj' heq rfl
    exact Or.inr ⟨hpast, by simpa using hx⟩
  · exact Or.inl hold

theorem newest_step (h : Newest (w.phones d).copy) : Newest ((w.step L e).phones d).copy := by
  cases e with
  | enter device l =>
    by_cases hd : device = d
    · subst hd
      simp only [step, Function.update_self]
      exact Phone.newest_enter h l
    · simp only [step, Function.update_of_ne (Ne.symm hd)]
      exact h
  | look device =>
    by_cases hd : device = d
    · subst hd
      simp only [step, Function.update_self, Phone.raiseAlarms_copy]
      exact h
    · simp only [step, Function.update_of_ne (Ne.symm hd)]
      exact h
  | _ => exact h

/-- Events of other devices keep the count right. -/
theorem Told.elsewhere (h : Told L history (run L history) d) (he : Elsewhere d e) :
    Told L (history ++ [e]) ((run L history).step L e) d := by
  have hfirst : firstEnded d (history ++ [e]) = firstEnded d history := by
    rw [firstEnded, firstLook_elsewhere he, firstEnded]
  have hround {past : List PanelEvent} {st : WatchState}
      (hp : past ++ [.watch d st] <+: history ++ [e]) : past ++ [.watch d st] <+: history := by
    rcases round_cases history hp with hold | ⟨-, rfl⟩
    · exact hold
    · exact absurd rfl he
  refine ⟨?_, ?_, ?_, ?_, ?_, ?_, ?_⟩
  · exact newest_step h.newest
  · intro s
    rw [told_elsewhere he (.overdue s), kept_elsewhere he]
    exact h.owed s
  · intro past st hp
    rw [kept_elsewhere he]
    exact h.overdue past st (hround hp)
  · intro b
    rw [told_elsewhere he (.ended b), kept_elsewhere he, hfirst]
    exact h.ended b
  · rw [kept_elsewhere he, firstLook_elsewhere he]
    exact h.first
  · rw [hfirst, kept_elsewhere he]
    exact h.recorded
  · intro past st hp
    rw [kept_elsewhere he]
    exact h.rounds past st (hround hp)

theorem Told.watch (h : Told L history (run L history) d)
    (hroom : ((run L history).kept d).Room L ((run L history).phones d).copy st) :
    Told L (history ++ [.watch d st]) ((run L history).step L (.watch d st)) d := by
  have hkept : ((run L history).step L (.watch d st)).kept d =
      Kept.after L ((run L history).phones d).copy ((run L history).kept d) st :=
    Function.update_self _ _ _
  refine ⟨newest_step h.newest, ?_, ?_, ?_, ?_, ?_, ?_⟩
  · intro s
    rw [told_overdue h.newest, h.owed, hkept]
    simp only [Kept.mem_owed_after hroom]
    by_cases hold : s ∈ ((run L history).kept d).owed <;> simp [hold]
  · intro past st' hp s hs
    rw [hkept, Kept.mem_owed_after hroom]
    -- an earlier round, or this one
    rcases round_cases _ hp with hold | ⟨rfl, hx⟩
    · exact Or.inl (h.overdue past st' hold s hs)
    · obtain ⟨-, rfl⟩ := PanelEvent.watch.inj hx
      exact Or.inr hs
  · intro b
    rw [told_ended hroom.once, h.ended, hkept]
    simp only [(Kept.mem_ended_after hroom).2, firstEnded, firstLook_watch]
    have hfirst := h.first
    have hrecorded := h.recorded b
    simp only [firstEnded] at hrecorded ⊢
    rcases Option.eq_none_or_eq_some (firstLook d history) with hlook | ⟨st₀, hlook⟩
    · -- the first look only records
      rw [hlook] at hfirst
      have hnone : ((run L history).kept d).ended = none := by simpa using hfirst
      simp [hlook, endedDone, hnone]
    · rw [hlook] at hfirst hrecorded
      obtain ⟨l, hl⟩ := Option.isSome_iff_exists.mp (hfirst.trans rfl)
      simp only [hlook, hl, endedDone, Option.getD_some, Option.map_some, Option.some_or]
        at hrecorded ⊢
      by_cases hb : b ∈ l
      · simp [hb]
      · have hnot : b ∉ endedIds st₀ := fun h₀ => hb (hrecorded h₀)
        simp [hb, hnot]
  · rw [hkept, (Kept.mem_ended_after (b := 0) hroom).1, firstLook_watch]
    cases firstLook d history <;> rfl
  · intro b hb
    rw [hkept, (Kept.mem_ended_after hroom).2]
    rw [firstEnded, firstLook_watch] at hb
    rcases hlook : firstLook d history with - | st₀
    · rw [hlook] at hb
      exact Or.inr hb
    · refine Or.inl (h.recorded b ?_)
      rw [firstEnded, hlook]
      rw [hlook] at hb
      exact hb
  · intro past st' hp b hb
    rw [hkept, (Kept.mem_ended_after hroom).2]
    rcases round_cases _ hp with hold | ⟨rfl, hx⟩
    · exact Or.inl (h.rounds past st' hold b hb)
    · obtain ⟨-, rfl⟩ := PanelEvent.watch.inj hx
      exact Or.inr hb

/-- Every round finds room. -/
def Roomy (L : ReceiptLib) (history : List PanelEvent) : Prop :=
  ∀ past d st, past ++ [.watch d st] <+: history →
    ((run L past).kept d).Room L ((run L past).phones d).copy st

theorem told_run (hroom : Roomy L history) (d : String) : Told L history (run L history) d := by
  induction history using List.reverseRecOn with
  | nil =>
    have hnone : ∀ past st, ¬ past ++ [PanelEvent.watch d st] <+: [] := by simp
    exact ⟨List.Pairwise.nil, fun _ => rfl, fun past st hp => absurd hp (hnone past st),
      fun _ => rfl, rfl, fun b hb => (by cases hb), fun past st hp => absurd hp (hnone past st)⟩
  | append_singleton history e ih =>
    have hbefore := ih fun past d st hp => hroom past d st (hp.trans (List.prefix_append _ _))
    have hrun : run L (history ++ [e]) = (run L history).step L e := List.foldl_append
    rw [hrun]
    -- only a round of the chain itself tells of something
    by_cases he : Elsewhere d e
    · exact hbefore.elsewhere he
    · cases e with
      | watch d' st =>
        obtain rfl : d' = d := not_not.mp he
        exact hbefore.watch (hroom history d' st (List.prefix_refl _))
      | _ => exact absurd trivial he

/-! ### The result -/

/-- The notices of a chain come once: a use that was overdue at a round has been told of once, a
budget that had ended by a round once or, if it had at the first look, never; no other number of
notices comes about; and a round that brings nothing since an earlier one tells of nothing. -/
structure Once (L : ReceiptLib) (history : List PanelEvent) (d : String) : Prop where
  overdue : ∀ past st, past ++ [.watch d st] <+: history →
    ∀ s ∈ overdueUses L ((run L past).phones d).copy st, (run L history).told (.overdue d s) = 1
  ended : ∀ past st, past ++ [.watch d st] <+: history → ∀ b ∈ endedIds st,
    (run L history).told (.ended d b) = if b ∈ firstEnded d history then 0 else 1
  atMost : ∀ s, (run L history).told (.overdue d s) ≤ 1
  never : ∀ b, (run L history).told (.ended d b) ≤ if b ∈ firstEnded d history then 0 else 1
  unchanged : ∀ past st now, past ++ [.watch d st] <+: history →
    (∀ s ∈ overdueUses L ((run L history).phones d).copy now,
      s ∈ overdueUses L ((run L past).phones d).copy st) →
    (∀ b ∈ endedIds now, b ∈ endedIds st) →
      owedNew L ((run L history).phones d).copy ((run L history).kept d).owed now = [] ∧
        endedNew ((run L history).kept d) now = []

/-- As long as the lists of what was told of are not cut, each overdue use and each budget that ends
after the first look is told of exactly once, and no other. -/
theorem notices_come_once {L : ReceiptLib} {history : List PanelEvent} (hroom : Roomy L history)
    (d : String) : Once L history d := by
  have h := told_run hroom d
  refine ⟨fun past st hp s hs => ?_, fun past st hp b hb => ?_, fun s => ?_, fun b => ?_,
    fun past st now hp hover hended => ⟨?_, ?_⟩⟩
  · -- once, in the round where it was overdue first
    rw [h.owed, if_pos (h.overdue past st hp s hs)]
  · rw [h.ended]
    have hkept := h.rounds past st hp b hb
    by_cases hfirst : b ∈ firstEnded d history <;> simp [hkept, hfirst]
  · rw [h.owed]
    split <;> simp
  · rw [h.ended]
    by_cases hfirst : b ∈ firstEnded d history
    · simp [hfirst]
    · simp only [hfirst]
      split <;> simp
  · refine List.eq_nil_iff_forall_not_mem.mpr fun s hs => ?_
    obtain ⟨hdue, hnew⟩ := mem_owedNew.mp hs
    exact hnew (h.overdue past st hp s (hover s hdue))
  · refine List.eq_nil_iff_forall_not_mem.mpr fun b hb => ?_
    obtain ⟨hend, hnew⟩ := mem_endedNew.mp hb
    have hkept := h.rounds past st hp b (hended b hend)
    refine hnew ?_
    rw [endedDone]
    rcases hl : ((run L history).kept d).ended with - | l
    · rw [hl] at hkept
      cases hkept
    · rw [hl] at hkept
      exact hkept

end Panel

/-! ### Two histories -/

namespace Demo

open Panel

/-- A round ten minutes and more after the key's links were seen, with these budgets ended. -/
def round (ids : List UInt32) : PanelEvent :=
  .watch "" ⟨0, ids.map fun b => ⟨b, true⟩, 700000, fun _ => 1⟩

/-- A use that is owed its receipt, and a budget that ends after the first look. -/
def watched : List PanelEvent := [.enter "" (useLink 5), round [1], round [2, 1]]

theorem watched_roomy : Roomy receiptLib watched := by
  intro past d st hp
  rcases round_cases [.enter "" (useLink 5), round [1]] hp with hp | ⟨rfl, hx⟩
  · rcases round_cases [.enter "" (useLink 5)] hp with hp | ⟨rfl, hx⟩
    · rcases round_cases [] hp with hp | ⟨-, hx⟩
      · simp at hp
      · cases hx
    · obtain ⟨rfl, rfl⟩ := PanelEvent.watch.inj hx
      exact ⟨by decide, by decide, by decide⟩
  · obtain ⟨rfl, rfl⟩ := PanelEvent.watch.inj hx
    exact ⟨by decide, by decide, by decide⟩

/-- The use and the second budget are told of once, the first budget never. -/
theorem notices_come_once_watched :
    (Panel.run receiptLib watched).told (.overdue "" 5) = 1 ∧
      (Panel.run receiptLib watched).told (.ended "" 2) = 1 ∧
        (Panel.run receiptLib watched).told (.ended "" 1) = 0 := by
  have h := notices_come_once watched_roomy ""
  have hround : [.enter "" (useLink 5), round [1]] ++ [round [2, 1]] <+: watched :=
    List.prefix_refl _
  exact ⟨h.overdue _ _ hround 5 (by decide), h.ended _ _ hround 2 (by decide),
    h.ended _ _ hround 1 (by decide)⟩

/-- A hundred and one budgets had ended at the first look, newest first as they are listed. -/
def many : List UInt32 := (List.range 101).reverse.map UInt32.ofNat

/-- The same round once more tells of the newest of them. -/
theorem old_budget_is_told_of : ¬ Once receiptLib [round many, round many] "" := by
  intro h
  have hfirst : (100 : UInt32) ∈ firstEnded "" [round many, round many] := by decide +kernel
  have hnever := h.never 100
  rw [if_pos hfirst] at hnever
  exact absurd hnever (by decide +kernel)

end Demo

end OkRn.Watch
