/-
OkRn/Keyboard/Suspended.lean

No report of the key goes out while a `suspend` or a `typeSecret` runs.

Each of them sets the flag they share and clears it at its end, without knowing
whether another still runs.  While each ends alone, the flag is up for as long as
one runs (`suspended_is_absolute`).

* `BtKeyboard.Muted` ties the flag to the calls that run;
* `BtKeyboard.EndsAlone` is the order of events: no call ends while another runs.

Main results: `suspended_is_absolute`, and `suspend_ends_another`.
-/
import OkRn.Keyboard.Forwarder
import OkRn.Lib.Along

namespace OkRn.Keyboard

namespace BtKeyboard

variable {Host : Type}

/-- A body comes to its `finally`. -/
def ends (s : BtKeyboard Host) : Event Host → Bool
  | .settle i => s.bodies[i]? == some .suspended
  | .answered i ok =>
      match s.bodies[i]? with
      | some (.typing rest) => !ok || rest.isEmpty || !s.connected
      | _ => false
  | _ => false

/-- A body that ends is the only one that runs. -/
def EndsAlone (s : BtKeyboard Host) (e : Event Host) : Prop :=
  s.ends e = true → s.bodies.length = 1

instance (s : BtKeyboard Host) (e : Event Host) : Decidable (s.EndsAlone e) :=
  inferInstanceAs (Decidable (_ → _))

/-- The flag is up while a body runs. -/
def Muted (s : BtKeyboard Host) : Prop := s.bodies ≠ [] → s.suspended = true

/-- Where one body runs, none is left after it. -/
theorem bodies_of_alone {s : BtKeyboard Host} (h : s.bodies.length = 1) {i : Nat} {b : Body}
    (hb : s.bodies[i]? = some b) : s.bodies.eraseIdx i = [] := by
  obtain ⟨hi, -⟩ := List.getElem?_eq_some_iff.mp hb
  apply List.eq_nil_of_length_eq_zero
  rw [List.length_eraseIdx_of_lt hi]
  omega

variable [DecidableEq Host]

/-- A secret that begins sets the flag. -/
theorem Muted.typeSecret {s : BtKeyboard Host} (h : s.Muted) (reports : List Report) :
    (s.step (.typeSecret reports)).Muted := by
  simp only [BtKeyboard.step]
  split
  · rename_i hguard
    simp only [Bool.and_eq_true, Bool.not_eq_true'] at hguard
    -- with the flag down no body runs
    have hnone : s.bodies = [] := by
      by_contra hne
      rw [h hne] at hguard
      exact absurd hguard.2 (by decide)
    rcases typeFrom_cases { s with suspended := true } reports with
      ⟨-, heq⟩ | ⟨report, rest, -, -, heq⟩
    · rw [heq]
      intro hne
      exact absurd (by simp [hnone]) hne
    · rw [heq]
      intro _
      simp
  · exact h

/-- A secret that is not at its end keeps the flag; one that is was alone. -/
theorem Muted.answered {s : BtKeyboard Host} (h : s.Muted) {i : Nat} {ok : Bool}
    (he : s.EndsAlone (.answered i ok)) : (s.step (.answered i ok)).Muted := by
  simp only [BtKeyboard.step]
  split
  · rename_i rest hget
    have hends : (!ok || rest.isEmpty || !s.connected) = true →
        s.bodies.eraseIdx i = [] := by
      intro hend
      exact bodies_of_alone (he (by simpa [ends, hget] using hend)) hget
    cases ok with
    | false =>
      intro hne
      exact absurd (hends rfl) hne
    | true =>
      simp only [if_true]
      rcases typeFrom_cases s rest with ⟨hend, heq⟩ | ⟨report, rest', -, -, heq⟩
      · rw [heq]
        intro hne
        exact absurd (hends (by simpa using hend)) hne
      · rw [heq]
        intro _
        have hmuted := h (by rintro hnil; simp [hnil] at hget)
        simpa using hmuted
  · exact h

/-- Every event keeps it up while a call runs, when each ends alone. -/
theorem Muted.step {s : BtKeyboard Host} (h : s.Muted) {e : Event Host} (he : s.EndsAlone e) :
    (s.step e).Muted := by
  have hsame {s' : BtKeyboard Host} (hbodies : s'.bodies = s.bodies)
      (hsuspended : s'.suspended = s.suspended) : s'.Muted := by
    intro hne
    rw [hsuspended]
    exact h (hbodies ▸ hne)
  -- only the end of a body takes the suspension away, and then no body is left
  cases e with
  | key bytes =>
    simp only [BtKeyboard.step]
    split
    · exact hsame (by simp) (by simp)
    · exact h
  | setForwarding next =>
    exact hsame (by simp [BtKeyboard.step, release]) (by simp [BtKeyboard.step, release])
  | loaded value => exact hsame rfl rfl
  | render => exact hsame rfl rfl
  | onStatus host =>
    simp only [BtKeyboard.step]
    split
    · exact hsame rfl rfl
    · exact hsame (by simp [release]) (by simp [release])
  | live host => exact hsame rfl rfl
  | linkUp host => exact hsame rfl rfl
  | linkDown => exact hsame rfl rfl
  | backend => exact hsame (by simp [BtKeyboard.step, release]) (by simp [BtKeyboard.step, release])
  | withdraw => exact hsame (by simp [BtKeyboard.step, release]) (by simp [BtKeyboard.step, release])
  | suspend => exact fun _ => rfl
  | settle i =>
    simp only [BtKeyboard.step]
    split
    · rename_i hget
      intro hne
      exact absurd (bodies_of_alone (he (by simp [ends, hget])) hget) hne
    · exact h
  | typeSecret reports => exact h.typeSecret reports
  | answered i ok => exact h.answered he
  | chooseHost address => exact hsame rfl rfl
  | chooseNext i =>
    simp only [BtKeyboard.step, chooseNext]
    split
    · exact h
    · split
      · exact hsame rfl rfl
      · exact hsame (by simp [release]) (by simp [release])
    · exact hsame rfl rfl
    · exact hsame rfl rfl

/-- Only a report of the key is one that is sent. -/
theorem keySent_step {s : BtKeyboard Host} (hsuspended : s.suspended = true) (e : Event Host) :
    (s.step e).keySent = s.keySent := by
  -- a key's report is dropped at the guard, before it is posted
  cases e with
  | key bytes => simp [BtKeyboard.step, forwards, hsuspended]
  | setForwarding next => simp [BtKeyboard.step, release]
  | onStatus host =>
    simp only [BtKeyboard.step]
    split <;> simp [release]
  | backend => simp [BtKeyboard.step, release]
  | withdraw => simp [BtKeyboard.step, release]
  | settle i =>
    simp only [BtKeyboard.step]
    split <;> simp [unsuspend, release]
  | typeSecret reports => simp [BtKeyboard.step, hsuspended]
  | answered i ok =>
    simp only [BtKeyboard.step]
    split
    · rename_i rest hget
      cases ok with
      | false => simp [unsuspend, release]
      | true =>
        simp only [if_true]
        rcases typeFrom_cases s rest with ⟨-, heq⟩ | ⟨report, rest', -, -, heq⟩
        · rw [heq]
          simp [unsuspend, release]
        · rw [heq]
          simp
    · rfl
  | chooseNext i =>
    simp only [BtKeyboard.step, chooseNext]
    split
    · rfl
    · split <;> simp [release]
    · rfl
    · rfl
  | _ => rfl

/-- In a run where each body ends alone, no report of the key is sent while one runs. -/
theorem suspended_is_absolute (history : List (Event Host))
    (hhistory : AllAlong BtKeyboard.step BtKeyboard.EndsAlone {} history)
    (hruns : (run history).bodies ≠ []) (e : Event Host) :
    (run (history ++ [e])).keySent = (run history).keySent := by
  have hfirst : ({} : BtKeyboard Host).Muted := fun hne => absurd rfl hne
  have hmuted : (run history).Muted :=
    hhistory.keeps hfirst fun s e hs he => hs.step he
  rw [run, List.foldl_append]
  exact keySent_step (hmuted hruns) e

/-- A secret is typed, and a body runs alone before it. -/
def bodiesInTurn : List (Event Unit) :=
  [.linkUp (), .onStatus (some ()), .loaded true, .render, .suspend, .settle 0,
    .typeSecret [List.replicate 8 4, releaseAll]]

theorem suspended_is_absolute_typing :
    (run (bodiesInTurn ++ [.key (List.replicate 8 5)])).keySent = (run bodiesInTurn).keySent :=
  suspended_is_absolute bodiesInTurn (by decide +kernel) (by decide +kernel) _

/-- The first of two that overlap ends, and the second goes on with the flag down. -/
theorem suspend_ends_another :
    ¬ ∀ (history : List (Event Unit)) (e : Event Unit), (run history).bodies ≠ [] →
      (run (history ++ [e])).keySent = (run history).keySent := by
  intro h
  have hsent := h [.linkUp (), .onStatus (some ()), .loaded true, .render, .suspend, .suspend,
    .settle 0] (.key (List.replicate 8 5)) (by decide +kernel)
  revert hsent
  decide +kernel

end BtKeyboard

end OkRn.Keyboard
