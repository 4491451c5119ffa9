/-
OkRn/Keyboard/Released.lean

No key is left held on the computer.

`releaseAll` goes out where forwarding is about to stop.  Two ways to stop come
later than that or without it: the switch turned off stops the forwarder at the next
render only, and a `suspend` releases at its end.  `Held` says what the last report
delivered may be.

* `BtKeyboard.Gentle` is the order of events: between the switch and the next render the
  key puts nothing down, and a `suspend` begins with every key up;
* `Inv.step` is one event, and the run follows with `Along`.

Main results: `no_key_is_left_held`, and `key_is_left_held`.
-/
import OkRn.Keyboard.Forwarder
import OkRn.Lib.Along

namespace OkRn.Keyboard

namespace BtKeyboard

variable {Host : Type}

/-- A secret is being typed. -/
def types (s : BtKeyboard Host) : Bool :=
  s.bodies.any fun b => match b with
    | .typing _ => true
    | .suspended => false

/-- The last report delivered is all keys up. -/
def AllUp (s : BtKeyboard Host) : Prop := ∀ x ∈ s.delivered.getLast?, x.report = releaseAll

instance (s : BtKeyboard Host) : Decidable s.AllUp :=
  inferInstanceAs (Decidable (∀ x ∈ s.delivered.getLast?, x.report = releaseAll))

/-- Where the key's reports do not go through, the last report delivered is all keys up; while a
secret is typed it may be one of the secret's. -/
def Released (s : BtKeyboard Host) : Prop :=
  s.forwards = false → s.AllUp ∨ s.types = true ∧ ∀ x ∈ s.delivered.getLast?, x.by_ = .secret

/-- Between the switch's release and the render the key presses nothing; the stored switch does not
turn the switch off; a `suspend` begins while the key holds nothing. -/
def Gentle (s : BtKeyboard Host) : Event Host → Prop
  | .key bytes => s.forwarding = false → s.forwards = true → bytes = releaseAll
  | .loaded value => s.forwarding = true → value = true
  | .suspend => s.forwards = true → s.AllUp
  | _ => True

instance (s : BtKeyboard Host) (e : Event Host) : Decidable (s.Gentle e) := by
  cases e <;> unfold Gentle <;> infer_instance

/-! ### What the last report may be -/

/-- What the last report delivered may be: every key up, or one that is being followed. -/
inductive Held (s : BtKeyboard Host) (x : Sent) : Prop
  | up (h : x.report = releaseAll)
  | secret (hby : x.by_ = .secret) (htypes : s.types = true)
  | key (hforwards : s.forwards = true) (hforwarding : s.forwarding = true)

/-- The last report is one of these. -/
structure Inv (s : BtKeyboard Host) : Prop where
  held : ∀ x ∈ s.delivered.getLast?, s.Held x
  unlinked : s.link = none → s.delivered = []

theorem Inv.released {s : BtKeyboard Host} (h : s.Inv) : s.Released := by
  intro hstopped
  cases hlast : s.delivered.getLast? with
  | none => exact .inl fun x hx => by rw [hlast] at hx; cases hx
  | some x =>
    cases h.held x hlast with
    | up hup =>
      refine .inl fun y hy => ?_
      obtain rfl := Option.some.inj (hlast.symm.trans hy)
      exact hup
    | secret hby htypes =>
      refine .inr ⟨htypes, fun y hy => ?_⟩
      obtain rfl := Option.some.inj (hlast.symm.trans (hlast ▸ hy))
      exact hby
    | key hforwards hforwarding =>
      rw [hstopped] at hforwards
      cases hforwards

section

variable {s : BtKeyboard Host}

/-- The last report after a send. -/
theorem sendReport_last (hunlinked : s.link = none → s.delivered = []) (by_ : By)
    (report : Report) :
    (∀ x ∈ (s.sendReport by_ report).delivered.getLast?, x = ⟨by_, report⟩) ∧
      ((s.sendReport by_ report).link = none → (s.sendReport by_ report).delivered = []) := by
  rw [sendReport_link]
  unfold sendReport
  split
  · rename_i hlink
    constructor
    · intro x hx
      rw [List.getLast?_concat] at hx
      exact (Option.some.inj hx).symm
    · intro hnone
      rw [hnone] at hlink
      cases hlink
  · rename_i hlink
    have hempty := hunlinked (by simpa using hlink)
    constructor
    · intro x hx
      rw [hempty] at hx
      cases hx
    · exact hunlinked

/-- After a release the last report is all keys up, whatever else a step changes. -/
theorem Inv.of_release (h : s.Inv) {s' : BtKeyboard Host}
    (hdelivered : s'.delivered = s.release.delivered) (hlink : s'.link = s.link) : s'.Inv := by
  obtain ⟨hlast, hempty⟩ := sendReport_last h.unlinked .release releaseAll
  constructor
  · intro x hx
    rw [hdelivered] at hx
    exact .up (by rw [hlast x hx])
  · intro hnone
    rw [hdelivered]
    exact hempty (by rw [sendReport_link, ← hlink, hnone])

/-- A step that sends nothing, takes no secret away and stops nothing that the key holds. -/
theorem Inv.of_same (h : s.Inv) {s' : BtKeyboard Host} (hdelivered : s'.delivered = s.delivered)
    (hlink : s'.link = s.link) (htypes : s.types = true → s'.types = true)
    (hkey : s.forwards = true → s.forwarding = true → ¬ s.AllUp →
      s'.forwards = true ∧ s'.forwarding = true) : s'.Inv := by
  constructor
  · intro x hx
    rw [hdelivered] at hx
    cases h.held x hx with
    | up hup => exact .up hup
    | secret hby hsecret => exact .secret hby (htypes hsecret)
    | key hforwards hforwarding =>
      by_cases hup : x.report = releaseAll
      · exact .up hup
      · obtain ⟨hforwards', hforwarding'⟩ :=
          hkey hforwards hforwarding fun hall => hup (hall x hx)
        exact .key hforwards' hforwarding'
  · intro hnone
    rw [hdelivered]
    exact h.unlinked (hlink ▸ hnone)

/-- A secret that is being typed goes on. -/
theorem types_append (s : BtKeyboard Host) (b : Body) (h : s.types = true) :
    ({ s with bodies := s.bodies ++ [b] } : BtKeyboard Host).types = true := by
  simp only [types, List.any_append, Bool.or_eq_true]
  exact .inl h

theorem types_of_mem {rest : List Report} (h : .typing rest ∈ s.bodies) : s.types = true :=
  List.any_eq_true.mpr ⟨_, h, rfl⟩

end

variable [DecidableEq Host]

/-- The first report of a secret takes the place of what the key held. -/
theorem Inv.typeSecret {s : BtKeyboard Host} (h : s.Inv) (reports : List Report) :
    (s.step (.typeSecret reports)).Inv := by
  simp only [BtKeyboard.step]
  split
  · have hrelease : ({ s with suspended := true } : BtKeyboard Host).unsuspend.delivered =
        s.release.delivered := by
      unfold unsuspend release sendReport
      split <;> rfl
    rcases typeFrom_cases { s with suspended := true } reports with
      ⟨-, heq⟩ | ⟨report, rest, -, -, heq⟩
    · rw [heq]
      exact h.of_release hrelease (by simp [unsuspend, release])
    · rw [heq]
      obtain ⟨hlast, hempty⟩ :=
        sendReport_last (s := { s with suspended := true }) h.unlinked .secret report
      refine ⟨fun x hx => ?_, hempty⟩
      rw [hlast x hx]
      have hmem : Body.typing rest ∈ s.bodies ++ [Body.typing rest] :=
        List.mem_append_right _ List.mem_cons_self
      exact .secret rfl (types_of_mem hmem)
  · exact h

/-- An answer of the radio keeps it. -/
theorem Inv.answered {s : BtKeyboard Host} (h : s.Inv) (i : Nat) (ok : Bool) :
    (s.step (.answered i ok)).Inv := by
  simp only [BtKeyboard.step]
  split
  · rename_i rest hget
    cases ok with
    | false => exact h.of_release rfl (by simp [unsuspend, release])
    | true =>
      simp only [if_true]
      rcases typeFrom_cases s rest with ⟨-, heq⟩ | ⟨report, rest', -, -, heq⟩
      · rw [heq]
        exact h.of_release rfl (by simp [unsuspend, release])
      · rw [heq]
        obtain ⟨hlast, hempty⟩ := sendReport_last h.unlinked .secret report
        obtain ⟨hi, -⟩ := List.getElem?_eq_some_iff.mp hget
        refine ⟨fun x hx => ?_, hempty⟩
        rw [hlast x hx]
        exact .secret rfl (types_of_mem (List.mem_set hi (.typing rest')))
  · exact h

theorem Inv.step {s : BtKeyboard Host} (h : s.Inv) {e : Event Host} (he : s.Gentle e) :
    (s.step e).Inv := by
  -- what was delivered last is a release, or a key that is held for the same reason as before
  cases e with
  | key bytes =>
    simp only [BtKeyboard.step]
    split
    · rename_i hguard
      simp only [Bool.and_eq_true] at hguard
      obtain ⟨hlast, hempty⟩ := sendReport_last h.unlinked .key bytes
      refine ⟨fun x hx => ?_, hempty⟩
      rw [hlast x hx]
      cases hforwarding : s.forwarding with
      | false => exact .up (he hforwarding hguard.1)
      | true => exact .key (by simpa [forwards] using hguard.1) (by simpa using hforwarding)
    · exact h
  | setForwarding next => exact h.of_release rfl (by simp [BtKeyboard.step, release])
  | loaded value =>
    refine h.of_same rfl rfl id fun hforwards hforwarding _ => ⟨hforwards, ?_⟩
    exact he hforwarding
  | render =>
    refine h.of_same rfl rfl id fun hforwards hforwarding _ => ⟨?_, hforwarding⟩
    simp only [forwards, Bool.and_eq_true] at hforwards
    simp [BtKeyboard.step, forwards, hforwarding, hforwards]
  | onStatus host =>
    simp only [BtKeyboard.step]
    split
    · rename_i hsome
      refine h.of_same rfl rfl id fun hforwards hforwarding _ => ⟨?_, hforwarding⟩
      simp only [forwards, Bool.and_eq_true] at hforwards
      simp [forwards, hforwards, hsome]
    · have hrelease : ({ s with connected := host.isSome, connectedAddr := host } :
          BtKeyboard Host).release.delivered = s.release.delivered := by
        unfold release sendReport
        split <;> rfl
      exact h.of_release hrelease (by simp [release])
  | live host =>
    refine h.of_same rfl rfl id fun hforwards hforwarding _ => ⟨?_, hforwarding⟩
    simp only [forwards, Bool.and_eq_true] at hforwards
    simp [BtKeyboard.step, forwards, hforwards]
  | linkUp host => exact ⟨fun x hx => (by cases hx), fun _ => rfl⟩
  | linkDown => exact ⟨fun x hx => (by cases hx), fun _ => rfl⟩
  | backend => exact h.of_release rfl (by simp [BtKeyboard.step, release])
  | withdraw => exact h.of_release rfl (by simp [BtKeyboard.step, release])
  | suspend =>
    refine h.of_same rfl rfl (types_append s _) fun hforwards _ hdown => ?_
    exact absurd (he hforwards) hdown
  | settle i =>
    simp only [BtKeyboard.step]
    split
    · exact h.of_release rfl (by simp [unsuspend, release])
    · exact h
  | typeSecret reports => exact h.typeSecret reports
  | answered i ok => exact h.answered i ok
  | chooseHost address =>
    exact h.of_same rfl rfl id fun hforwards hforwarding _ => ⟨hforwards, hforwarding⟩
  | chooseNext i =>
    simp only [BtKeyboard.step, chooseNext]
    split
    · exact h
    · split
      · exact h.of_same rfl rfl id fun hforwards hforwarding _ => ⟨hforwards, hforwarding⟩
      · exact h.of_release rfl (by simp [release])
    · exact h.of_same rfl rfl id fun hforwards hforwarding _ => ⟨hforwards, hforwarding⟩
    · exact h.of_same rfl rfl id fun hforwards hforwarding _ => ⟨hforwards, hforwarding⟩

/-- In a run of gentle events no key is left held where the key's reports have stopped. -/
theorem no_key_is_left_held (history : List (Event Host))
    (hhistory : AllAlong BtKeyboard.step BtKeyboard.Gentle {} history) :
    (run history).Released := by
  have hfirst : ({} : BtKeyboard Host).Inv := ⟨fun x hx => (by cases hx), fun _ => rfl⟩
  have hinv : (run history).Inv := hhistory.keeps hfirst fun s e hs he => hs.step he
  exact hinv.released

/-- The key types; the switch is turned off, and the key has let go before the render. -/
def turnedOff : List (Event Unit) :=
  [.linkUp (), .onStatus (some ()), .loaded true, .render, .key [0, 0, 4, 0, 0, 0, 0, 0],
    .setForwarding false, .key releaseAll, .render]

theorem no_key_is_left_held_off : (run turnedOff).Released :=
  no_key_is_left_held turnedOff (by decide +kernel)

/-- A key goes down between the release and the render. -/
theorem key_is_left_held : ¬ ∀ history : List (Event Unit), (run history).Released := by
  intro h
  have hreleased := h
    [.linkUp (), .onStatus (some ()), .loaded true, .render, .setForwarding false,
      .key [0, 0, 4, 0, 0, 0, 0, 0], .render] (by decide +kernel)
  revert hreleased
  unfold AllUp
  decide +kernel

end BtKeyboard

end OkRn.Keyboard
