/-
OkRn/Radio/Target.lean

The computer is picked again after the radio was off.

While the radio is off the chosen computer is only in `resumeHost`; it is put back at
the end of the cycle.  So nothing may change or lose it in between: a choice of the
person's, a kill, the in-app switch off when the radio comes back.  Nor may the storage
be overtaken: by a choice before the stored one has been read, which the late answer
would replace, or by a kill before a choice has landed.  `Undisturbed` says this of each
event.

The services are stopped once a cycle, and once more for each try (`Counted`).

Main result: `target_comes_back`.
-/
import OkRn.Radio.Sequence
import OkRn.Lib.Along

namespace OkRn.Radio.App

variable {Host : Type}

/-- The person's last choice is chosen, or is the stored one that is still being read. -/
def Chosen (s : App Host) : Prop := s.nextChosen = s.lastChoice ∨ s.reading = some s.lastChoice

/-- The target is never another computer than the person's last choice, is not lost, and is that
choice with the stored one read, the radio not off and no cycle under way. -/
structure Returned (s : App Host) : Prop where
  own : s.nextChosen = none ∨ s.nextChosen = s.lastChoice
  kept : s.Chosen ∨ s.resumeHost = s.lastChoice
  returned : s.reading = none → s.lastRadio ≠ some false → s.step = .idle →
    s.nextChosen = s.lastChoice

/-- The person leaves the target alone while it is put away or still being read, the app is not
killed before the choice is in storage or while it is put away there, the radio comes back with
the in-app switch on, and ours does not first advertise, elsewhere than known, while the radio is
off. -/
def Undisturbed (s : App Host) : Event Host → Prop
  | .chooses address => (∀ h ∈ s.resumeHost, address = some h) ∧
      ∀ h ∈ s.reading.join, address = some h
  | .killed => s.stored = s.lastChoice
  | .commits radio _ _ advertising handles =>
      (s.lastRadio = some false ∧ radio = some true ∧ s.step = .idle ∧ s.nextOn = false →
        s.Chosen) ∧
      (s.startChecked = false ∧ advertising = true ∧ 0 < handles.known ∧
        handles.now ≠ handles.known ∧ radio.or s.status.radioOn = some false → s.Chosen)
  | _ => True

instance [DecidableEq Host] (s : App Host) : Decidable s.Chosen :=
  inferInstanceAs (Decidable (_ ∨ _))

instance [DecidableEq Host] (s : App Host) (e : Event Host) : Decidable (s.Undisturbed e) := by
  cases e <;> simp only [Undisturbed] <;> infer_instance

/-! ### The restarts -/

/-- What is left of the tries covers the restarts. -/
def Counted (s : App Host) : Prop :=
  s.layoutTries ≤ LAYOUT_MAX_TRIES ∧
    s.restarts + (if s.step = .waitReady then 1 else 0) ≤ s.layoutTries + 1

variable {s : App Host}

/-- An effect that runs or does not. -/
theorem counted_run {changed : Prop} [Decidable changed] {effect : App Host → App Host}
    (h : s.Counted) (heffect : s.Counted → (effect s).Counted) :
    (run changed effect s).Counted := by
  unfold run
  split
  · exact heffect h
  · exact h

/-- A step that is not `waitReady` needs no try. -/
theorem Counted.restarts_le (h : s.Counted) : s.restarts ≤ s.layoutTries + 1 :=
  Nat.le_trans (Nat.le_add_right _ _) h.2

theorem Counted.stopOurs (h : s.Counted) (hstep : s.step = .waitReady) : s.stopOurs.Counted := by
  obtain ⟨htries, hle⟩ := h
  rw [if_pos hstep] at hle
  exact ⟨htries, hle⟩

/-- A new cycle counts from the start. -/
theorem counted_waitReady (s : App Host) : s.waitReady.Counted := by
  have hfirst : s.beginCycle.Counted := ⟨Nat.zero_le _, Nat.le_refl _⟩
  unfold waitReady
  split
  · exact hfirst.stopOurs rfl
  · exact hfirst

/-- Outside of a wait nothing changes. -/
theorem Counted.idle (h : s.Counted) {s' : App Host} (htries : s'.layoutTries = s.layoutTries)
    (hrestarts : s'.restarts = s.restarts) (hstep : s'.step ≠ .waitReady) : s'.Counted := by
  rw [Counted, htries, hrestarts, if_neg hstep]
  exact ⟨h.1, h.restarts_le⟩

/-- Each effect keeps the count: the radio's. -/
theorem Counted.radioEffect (h : s.Counted) : s.radioEffect.Counted := by
  unfold App.radioEffect
  split
  · exact h
  split
  · unfold putAway
    split <;> exact h.idle rfl rfl (by simp [chooseHost])
  split
  · exact counted_waitReady _
  · exact h

theorem Counted.startCheck (h : s.Counted) (handles : Handles) :
    (s.startCheck handles).Counted := by
  unfold App.startCheck
  split
  · exact h
  split
  · exact h
  · exact counted_waitReady _

theorem Counted.readyEffect (h : s.Counted) : s.readyEffect.Counted := by
  unfold App.readyEffect
  split
  · rename_i hready
    exact h.stopOurs hready.1
  · exact h

theorem Counted.stoppedEffect (h : s.Counted) : s.stoppedEffect.Counted := by
  unfold App.stoppedEffect
  split
  · exact h
  · exact ⟨h.1, h.restarts_le⟩

theorem Counted.onEffect (h : s.Counted) : s.onEffect.Counted := by
  unfold App.onEffect
  split
  · exact h
  · exact ⟨h.1, h.restarts_le⟩

theorem Counted.landedEffect (h : s.Counted) (handles : Handles) :
    (s.landedEffect handles).Counted := by
  unfold App.landedEffect
  split
  · exact h
  split
  · -- one try more, and one restart more to come
    rename_i hagain
    have hleft : s.layoutTries < LAYOUT_MAX_TRIES := by
      have hboth := Bool.and_eq_true_iff.mp hagain
      exact of_decide_eq_true hboth.2
    exact ⟨hleft, Nat.succ_le_succ h.restarts_le⟩
  · unfold pickAgain
    split <;> exact h.idle rfl rfl (by simp [chooseHost])

theorem Counted.handle (h : s.Counted) (e : Event Host) : (s.handle e).Counted := by
  cases e with
  | commits radio ready published advertising handles =>
    refine counted_run ?_ fun h => h.landedEffect handles
    refine counted_run ?_ Counted.onEffect
    refine counted_run ?_ Counted.stoppedEffect
    refine counted_run ?_ Counted.readyEffect
    refine counted_run ?_ fun h => h.startCheck handles
    exact counted_run h Counted.radioEffect
  | timeout =>
    simp only [App.handle]
    split
    · exact h
    split
    · rename_i hstep
      have htimer : Counted { s with timers := s.timers - 1 } := h
      exact htimer.stopOurs hstep
    · exact h
  | chooses address => exact h
  | switches next => exact h
  | loads => exact h
  | lands =>
    simp only [App.handle, land]
    split <;> exact h
  | killed => exact ⟨Nat.zero_le _, Nat.zero_le _⟩

/-! ### The target -/

/-- What holds in an undisturbed run. -/
structure Inv (s : App Host) : Prop where
  own : s.nextChosen = none ∨ s.nextChosen = s.lastChoice
  resume : s.resumeHost = none ∨ s.resumeHost = s.lastChoice
  /-- The read's answer is the last choice, or changes nothing. -/
  reading : ∀ found, s.reading = some found → found = none ∨ found = s.lastChoice
  /-- A target that was put away is remembered, and will be put back. -/
  away : ¬ s.Chosen → s.resumeHost = s.lastChoice ∧ (s.lastRadio = some false ∨ s.step ≠ .idle)

/-- With the read answered the last choice is chosen, not read. -/
theorem chosen_of_read (hread : s.reading = none) (h : s.Chosen) : s.nextChosen = s.lastChoice :=
  h.resolve_right fun hreading => by rw [hread] at hreading; cases hreading

theorem Inv.returned (h : s.Inv) : s.Returned where
  own := h.own
  kept := by
    by_cases hchosen : s.Chosen
    · exact .inl hchosen
    · exact .inr (h.away hchosen).1
  returned hread hradio hidle := by
    refine chosen_of_read hread ?_
    by_contra haway
    rcases (h.away haway).2 with hoff | hstep
    · exact hradio hoff
    · exact hstep hidle

theorem Inv.goes (h : s.Inv) {s' : App Host} (hchosen : s'.nextChosen = s.nextChosen)
    (hlast : s'.lastChoice = s.lastChoice) (hresume : s'.resumeHost = s.resumeHost)
    (hreading : s'.reading = s.reading) (hstep : s'.step ≠ .idle) : s'.Inv where
  own := by rw [hchosen, hlast]; exact h.own
  resume := by rw [hresume, hlast]; exact h.resume
  reading := by rw [hreading, hlast]; exact h.reading
  away haway := by
    rw [Chosen, hchosen, hlast, hreading] at haway
    rw [hresume, hlast]
    exact ⟨(h.away haway).1, .inr hstep⟩

/-- A stop of the services keeps it. -/
theorem Inv.stopOurs (h : s.Inv) : s.stopOurs.Inv := h.goes rfl rfl rfl rfl (by simp [App.stopOurs])

theorem inv_waitReady (h : s.beginCycle.Inv) : s.waitReady.Inv := by
  unfold App.waitReady
  split
  · exact h.stopOurs
  · exact h

theorem Inv.readyEffect (h : s.Inv) : s.readyEffect.Inv := by
  unfold App.readyEffect
  split
  · exact h.stopOurs
  · exact h

theorem Inv.stoppedEffect (h : s.Inv) : s.stoppedEffect.Inv := by
  unfold App.stoppedEffect
  split
  · exact h
  · exact h.goes rfl rfl rfl rfl (by simp)

theorem Inv.onEffect (h : s.Inv) : s.onEffect.Inv := by
  unfold App.onEffect
  split
  · exact h
  · exact h.goes rfl rfl rfl rfl (by simp)

/-- The remembered computer is the last choice, if there is one; without one it was not put away. -/
theorem Inv.pickAgain (h : s.Inv) : s.pickAgain.Inv := by
  unfold App.pickAgain
  split
  · rename_i host hresume
    have hlast : some host = s.lastChoice := by
      rcases h.resume with hnone | hlast
      · rw [hnone] at hresume
        cases hresume
      · exact hresume.symm.trans hlast
    exact ⟨.inr hlast, .inl rfl, h.reading, fun haway => absurd (.inl hlast) haway⟩
  · rename_i hresume
    have hback : s.Chosen := by
      by_contra haway
      have hnone : s.lastChoice = none := (h.away haway).1.symm.trans hresume
      rcases h.own with hown | hown
      · exact haway (.inl (hown.trans hnone.symm))
      · exact haway (.inl hown)
    exact ⟨h.own, .inl hresume, h.reading, fun haway => absurd hback haway⟩

theorem Inv.landedEffect (h : s.Inv) (handles : Handles) : (s.landedEffect handles).Inv := by
  unfold App.landedEffect
  split
  · exact h
  split
  · exact h.goes rfl rfl rfl rfl (by simp)
  · exact h.pickAgain

/-- The read's answer is the last choice, or leaves what was chosen. -/
theorem Inv.load (h : s.Inv) : s.load.Inv := by
  -- a reading that lands gives what was stored, or nothing
  cases hread : s.reading with
  | none =>
    have hsame : s.load = s := by
      unfold App.load
      rw [hread]
      cases s
      simp_all
    rw [hsame]
    exact h
  | some found =>
    have hnew : s.load.nextChosen = found.or s.nextChosen := by simp [App.load, hread]
    have hlast : s.load.lastChoice = s.lastChoice := rfl
    rcases h.reading found hread with rfl | rfl
    · -- nothing was stored
      rw [Option.none_or] at hnew
      refine ⟨by rw [hnew]; exact h.own, h.resume, fun _ hfound => (by cases hfound), fun haway => ?_⟩
      refine h.away fun hchosen => haway ?_
      rcases hchosen with hchosen | hreading
      · exact .inl (hnew.trans hchosen)
      · rw [hread] at hreading
        have hnone : none = s.lastChoice := Option.some.inj hreading
        rcases h.own with hown | hown
        · exact .inl (hnew.trans (hown.trans hnone))
        · exact .inl (hnew.trans hown)
    · have hback : s.load.nextChosen = s.lastChoice := by
        rw [hnew]
        rcases h.own with hown | hown
        · rw [hown, Option.or_none]
        · rw [hown, Option.or_self]
      refine ⟨.inr hback, h.resume, fun _ hfound => (by cases hfound), fun haway => ?_⟩
      exact absurd (.inl hback) haway

/-! ### A render -/

/-- The values of a render are committed; the radio's is noted by its effect. -/
structure Committed (s : App Host) : Prop where
  inv : s.Inv
  chosen : s.chosenHost = s.nextChosen
  radio : s.status.radioOn = none → s.lastRadio = none

/-- After the radio's effect. -/
structure Noted (s s' : App Host) : Prop where
  inv : s'.Inv
  radio : s'.lastRadio = s.status.radioOn
  same : s'.status = s.status ∧ s'.on = s.on ∧ s'.chosenHost = s.chosenHost ∧
    s'.lastChoice = s.lastChoice ∧ s'.startChecked = s.startChecked ∧ s'.reading = s.reading
  /-- Only the radio's going off puts the target away. -/
  chosen : s'.lastRadio ≠ some false → s'.nextChosen = s.nextChosen

/-- What was chosen is the last choice, and is remembered. -/
theorem Committed.putAway (h : s.Committed) (hoff : s.status.radioOn = some false) :
    s.Noted s.noteRadio.putAway := by
  obtain ⟨hinv, hchosen, -⟩ := h
  unfold App.putAway
  split
  · rename_i host hhost
    have hlast : some host = s.lastChoice := by
      have hnext : s.nextChosen = some host := hchosen.symm.trans hhost
      rcases hinv.own with hown | hown
      · rw [hown] at hnext
        cases hnext
      · rw [← hown, hnext]
    refine ⟨⟨.inl rfl, .inr hlast, hinv.reading, fun _ => ⟨hlast, .inl hoff⟩⟩, rfl,
      ⟨rfl, rfl, rfl, rfl, rfl, rfl⟩, fun hradio => ?_⟩
    exact absurd hoff hradio
  · refine ⟨⟨hinv.own, hinv.resume, hinv.reading, fun haway => ?_⟩, rfl,
      ⟨rfl, rfl, rfl, rfl, rfl, rfl⟩, fun _ => rfl⟩
    exact ⟨(hinv.away haway).1, .inl hoff⟩

/-- A cycle begins at a noted radio. -/
theorem Inv.begins (h : s.Inv) : s.Noted s.noteRadio.waitReady := by
  have hbegins : s.noteRadio.beginCycle.Inv := h.goes rfl rfl rfl rfl (by simp [beginCycle])
  refine ⟨inv_waitReady hbegins, ?_, ?_, fun _ => ?_⟩
  all_goals unfold App.waitReady
  all_goals split
  all_goals first
    | rfl
    | exact ⟨rfl, rfl, rfl, rfl, rfl, rfl⟩

/-- The radio's effect has nothing to do: a target that is away stays so. -/
theorem Inv.noted (h : s.Inv)
    (haway : ¬ s.Chosen → s.status.radioOn = some false ∨ s.step ≠ .idle) :
    s.Noted s.noteRadio := by
  refine ⟨⟨h.own, h.resume, h.reading, fun hne => ?_⟩, rfl, ⟨rfl, rfl, rfl, rfl, rfl, rfl⟩,
    fun _ => rfl⟩
  exact ⟨(h.away hne).1, haway hne⟩

/-- The radio's effect, in a render. -/
theorem Committed.radioEffect (h : s.Committed)
    (hback : s.lastRadio = some false → s.status.radioOn = some true → s.step = .idle →
      s.on = false → s.Chosen) : s.Noted s.radioEffect := by
  unfold App.radioEffect
  split
  · rename_i hsame
    refine h.inv.noted fun hne => (h.inv.away hne).2.imp_left fun hoff => ?_
    rcases hsame with hradio | hlast | hradio
    · rw [h.radio hradio] at hoff
      cases hoff
    · rw [hlast] at hoff
      cases hoff
    · rw [hradio, hoff]
  rename_i hchanged
  obtain ⟨hsome, hknown, hdiffers⟩ : s.status.radioOn ≠ none ∧ s.lastRadio ≠ none ∧
      s.status.radioOn ≠ s.lastRadio := by simpa using hchanged
  split
  · rename_i hoff
    exact h.putAway hoff
  rename_i hnotoff
  -- the radio came back
  have hon : s.status.radioOn = some true := by
    cases hradio : s.status.radioOn with
    | none => exact absurd hradio hsome
    | some r =>
      cases r with
      | true => rfl
      | false => exact absurd hradio hnotoff
  have hwas : s.lastRadio = some false := by
    cases hlast : s.lastRadio with
    | none => exact absurd hlast hknown
    | some r =>
      cases r with
      | false => rfl
      | true => exact absurd (hon.trans hlast.symm) hdiffers
  split
  · exact h.inv.begins
  · rename_i hswitch
    refine h.inv.noted fun hne => .inr fun hidle => hne ?_
    exact hback hwas hon hidle (by simpa using hswitch)

/-- The start check remembers the target while it is chosen. -/
theorem Noted.startCheck {s' : App Host} (h : s.Noted s') (hchosen : s.chosenHost = s.nextChosen)
    (hown : s.nextChosen = none ∨ s.nextChosen = s.lastChoice) {handles : Handles}
    (hfirst : s.startChecked = false ∧ s.status.advertising = true ∧ 0 < handles.known ∧
      handles.now ≠ handles.known ∧ s.status.radioOn = some false → s.Chosen) :
    (s'.startCheck handles).Inv := by
  obtain ⟨hinv, hradio, ⟨hstatus, hon, hhost, hlast, hchecked, hreading⟩, hkept⟩ := h
  unfold App.startCheck
  split
  · exact hinv
  rename_i hruns
  split
  · exact ⟨hinv.own, hinv.resume, hinv.reading, hinv.away⟩
  rename_i hmoved
  have hidle : s'.startChecked = false ∧ s'.status.advertising = true ∧ s'.step = .idle := by
    cases hc : s'.startChecked <;> cases hadv : s'.status.advertising <;> simp_all
  obtain ⟨hunchecked, hadvertising, hstep⟩ := hidle
  have hnow : 0 < handles.known ∧ handles.now ≠ handles.known := by
    constructor
    · by_contra hneg
      exact hmoved (.inl (Int.not_lt.mp hneg))
    · exact fun heq => hmoved (.inr heq)
  -- what is chosen now is the last choice, or that one is still being read
  have hcurrent : s'.chosenHost = s'.lastChoice ∨ s'.reading = some s'.lastChoice := by
    rw [hhost, hchosen, hlast, hreading]
    by_cases hoff : s.status.radioOn = some false
    · rw [hchecked] at hunchecked
      rw [hstatus] at hadvertising
      exact hfirst ⟨hunchecked, hadvertising, hnow.1, hnow.2, hoff⟩
    · have hnotoff : s'.lastRadio ≠ some false := by rwa [hradio]
      have hkeeps : s'.Chosen := by
        by_contra haway
        rcases (hinv.away haway).2 with hnone | hne
        · exact hnotoff hnone
        · exact hne hstep
      rwa [Chosen, hlast, hreading, hkept hnotoff] at hkeeps
  have hresume : s'.chosenHost = none ∨ s'.chosenHost = s'.lastChoice := by
    rw [hhost, hchosen, hlast]
    exact hown
  refine inv_waitReady ⟨hinv.own, hresume, hinv.reading, fun haway => ?_⟩
  rcases hcurrent with hnow | hread
  · exact ⟨hnow, .inr (by simp [beginCycle])⟩
  · exact absurd (.inr hread) haway

/-- Between renders the radio is noted. -/
structure Steady (s : App Host) : Prop where
  inv : s.Inv
  radio : s.lastRadio = s.status.radioOn

/-- An effect that runs or does not. -/
theorem Steady.run {changed : Prop} [Decidable changed] {effect : App Host → App Host}
    (h : s.Steady) (heffect : s.Steady → (effect s).Steady) :
    (App.run changed effect s).Steady := by
  unfold App.run
  split
  · exact heffect h
  · exact h

theorem Steady.readyEffect (h : s.Steady) : s.readyEffect.Steady where
  inv := h.inv.readyEffect
  radio := by
    unfold App.readyEffect
    split <;> exact h.radio

theorem Steady.stoppedEffect (h : s.Steady) : s.stoppedEffect.Steady where
  inv := h.inv.stoppedEffect
  radio := by
    unfold App.stoppedEffect
    split <;> exact h.radio

theorem Steady.onEffect (h : s.Steady) : s.onEffect.Steady where
  inv := h.inv.onEffect
  radio := by
    unfold App.onEffect
    split <;> exact h.radio

theorem Steady.landedEffect (h : s.Steady) (handles : Handles) :
    (s.landedEffect handles).Steady where
  inv := h.inv.landedEffect handles
  radio := by
    unfold App.landedEffect App.pickAgain
    split
    · exact h.radio
    split
    · exact h.radio
    · split <;> exact h.radio

/-- The check at the start leaves the radio. -/
theorem startCheck_radio (s : App Host) (handles : Handles) :
    (s.startCheck handles).lastRadio = s.lastRadio ∧
      (s.startCheck handles).status = s.status := by
  unfold App.startCheck App.waitReady
  split
  · exact ⟨rfl, rfl⟩
  split
  · exact ⟨rfl, rfl⟩
  · split <;> exact ⟨rfl, rfl⟩

/-- A render keeps the app steady. -/
theorem Steady.commits (h : s.Steady) {radio : Option Bool} {ready published advertising : Bool}
    {handles : Handles}
    (hcalm : s.Undisturbed (.commits radio ready published advertising handles)) :
    (s.handle (.commits radio ready published advertising handles)).Steady := by
  obtain ⟨hback, hfirst⟩ := hcalm
  simp only [App.handle, App.commit]
  -- the effects in their order; the radio's is the first
  refine Steady.run ?_ fun h => h.landedEffect handles
  refine Steady.run ?_ Steady.onEffect
  refine Steady.run ?_ Steady.stoppedEffect
  refine Steady.run ?_ Steady.readyEffect
  generalize hcommitted : ({ s with
    status := ⟨radio.or s.status.radioOn, ready, published, advertising⟩
    on := s.nextOn, chosenHost := s.nextChosen } : App Host) = c
  have hc : c.Committed := by
    subst hcommitted
    refine ⟨⟨h.inv.own, h.inv.resume, h.inv.reading, h.inv.away⟩, rfl, fun hnone => ?_⟩
    obtain ⟨-, hstatus⟩ := Option.or_eq_none_iff.mp hnone
    exact h.radio.trans hstatus
  have hnoted : c.Noted (App.run (s.status.radioOn ≠ radio.or s.status.radioOn) App.radioEffect c) := by
    unfold App.run
    split
    · refine hc.radioEffect ?_
      subst hcommitted
      intro hoff hon hidle hswitch
      refine hback ⟨hoff, ?_, hidle, hswitch⟩
      -- without an answer the radio is what it was, and that is off
      cases radio with
      | some r => exact hon
      | none => exact absurd ((h.radio.symm.trans hoff).symm.trans hon) (by simp)
    · rename_i hsame
      subst hcommitted
      refine ⟨hc.inv, h.radio.trans (not_not.mp hsame), ⟨rfl, rfl, rfl, rfl, rfl, rfl⟩,
        fun _ => rfl⟩
  have hcheck : c.startChecked = false ∧ c.status.advertising = true ∧ 0 < handles.known ∧
      handles.now ≠ handles.known ∧ c.status.radioOn = some false →
        c.Chosen := by
    subst hcommitted
    exact hfirst
  have hstatus := hnoted.radio.trans (congrArg Status.radioOn hnoted.same.1).symm
  unfold App.run at hnoted hstatus ⊢
  split
  · obtain ⟨hradio, hsame⟩ := startCheck_radio (App.run (s.status.radioOn ≠ radio.or s.status.radioOn)
      App.radioEffect c) handles
    refine ⟨hnoted.startCheck hc.chosen hc.inv.own hcheck, ?_⟩
    unfold App.run at hradio hsame
    rw [hradio, hsame]
    exact hstatus
  · exact ⟨hnoted.inv, hstatus⟩

/-- So does every event that disturbs nothing. -/
theorem Steady.handle (h : s.Steady) {e : Event Host} (hcalm : s.Undisturbed e) :
    (s.handle e).Steady := by
  cases e with
  | commits radio ready published advertising handles => exact h.commits hcalm
  | timeout =>
    have htimer : Inv { s with timers := s.timers - 1 } :=
      ⟨h.inv.own, h.inv.resume, h.inv.reading, h.inv.away⟩
    simp only [App.handle]
    split
    · exact h
    split
    · exact ⟨htimer.stopOurs, h.radio⟩
    · exact ⟨htimer, h.radio⟩
  | chooses address =>
    -- a choice in a calm state is the last one from now on
    obtain ⟨hresume, hreading⟩ := hcalm
    refine ⟨⟨.inr rfl, ?_, fun found hfound => ?_, fun haway => absurd (.inl rfl) haway⟩, h.radio⟩
    · cases hr : s.resumeHost with
      | none => exact .inl hr
      | some host => exact .inr (hr.trans (hresume host hr).symm)
    · cases found with
      | none => exact .inl rfl
      | some host =>
        have hfound : s.reading = some (some host) := hfound
        exact .inr (hreading host (by rw [hfound]; rfl)).symm
  | switches next =>
    exact ⟨⟨h.inv.own, h.inv.resume, h.inv.reading, h.inv.away⟩, h.radio⟩
  | loads => exact ⟨h.inv.load, h.radio⟩
  | lands =>
    simp only [App.handle, land]
    split
    · exact h
    · exact ⟨⟨h.inv.own, h.inv.resume, h.inv.reading, h.inv.away⟩, h.radio⟩
  | killed =>
    have hstored : s.stored = s.lastChoice := hcalm
    refine ⟨⟨.inl rfl, .inl rfl, fun found hfound => ?_, fun haway => ?_⟩, rfl⟩
    · obtain rfl := Option.some.inj hfound
      exact .inr hstored
    · exact absurd (.inr (congrArg some hstored)) haway

/-- In every run the services are restarted once a cycle and `LAYOUT_MAX_TRIES` times more at most;
undisturbed, the target is never another computer than the person's last choice, and is that one
when no cycle is under way. -/
theorem target_comes_back (stored : Option Host) (history : List (Event Host)) :
    (history.foldl handle (start stored)).restarts ≤ LAYOUT_MAX_TRIES + 1 ∧
      (AllAlong handle Undisturbed (start stored) history →
        (history.foldl handle (start stored)).Returned) := by
  constructor
  · have hfirst : (start stored).Counted := ⟨Nat.zero_le _, Nat.zero_le _⟩
    have h := inv_along hfirst (fun s e (hs : s.Counted) => hs.handle e) history
    exact Nat.le_trans h.restarts_le (Nat.succ_le_succ h.1)
  · intro hcalm
    have hfirst : (start stored).Steady :=
      ⟨⟨.inl rfl, .inl rfl, fun _ hfound => .inr (Option.some.inj hfound).symm,
        fun haway => absurd (.inr rfl) haway⟩, rfl⟩
    exact (hcalm.keeps hfirst fun s e hs he => hs.handle he).inv.returned

/-- A choice, the radio off and on, the services stopped and on again, landing where they are
known; then, with the choice in storage, a kill. -/
theorem target_comes_back_once :
    let history : List (Event String) := [
      .loads, .switches true, .commits (some true) true true true ⟨10, 10⟩,
      .chooses (some "B"), .commits none true true true ⟨10, 10⟩,
      .commits (some false) false false false ⟨10, 10⟩,
      .commits (some true) true false false ⟨10, 10⟩,
      .commits none true false false ⟨10, 10⟩, .commits none true false false ⟨10, 10⟩,
      .commits none true true true ⟨10, 10⟩, .lands, .lands, .lands, .killed, .loads]
    AllAlong handle Undisturbed (start (some "A")) history ∧
      (history.foldl handle (start (some "A"))).Returned ∧
      (history.foldl handle (start (some "A"))).nextChosen = some "B" :=
  ⟨by decide +kernel, (target_comes_back _ _).2 (by decide +kernel), by decide +kernel⟩

/-- Landing elsewhere each time, the services are restarted once, and five times again. -/
theorem six_restarts : ¬ ∀ (stored : Option String) (history : List (Event String)),
    (history.foldl handle (start stored)).restarts ≤ LAYOUT_MAX_TRIES := by
  intro h
  let down : Event String := .commits none true false false ⟨20, 10⟩
  let up : Event String := .commits none true true true ⟨20, 10⟩
  have hrestarts := h none ([.switches true, .commits (some true) true true true ⟨10, 10⟩,
    .commits (some false) false false false ⟨10, 10⟩, .commits (some true) true false false ⟨10, 10⟩,
    down, down, up] ++ (List.replicate 5 [.timeout, down, down, up]).flatten)
  revert hrestarts
  decide +kernel

end OkRn.Radio.App
