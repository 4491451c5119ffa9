/-
OkRn/Gatt/Admitted.lean

Every message handed up came whole from one admitted computer.

A write that passed the check may be pushed when the policy it passed is gone, and a
door that closes leaves its half message in the assembler.  Where neither happens,
`Inv` holds between the steps: what an assembler holds was written under the policy
as it is.

* `Service.Steady` is the order of events: no policy changes between a write's check and
  its push, and no door closes on a half message;
* `Inv.step` is one event, and the run follows with `Along`.

Main results: `messages_come_whole`, and `old_fragment_heads_the_message` for a half message
that the next target finishes.
-/
import OkRn.Gatt.Writes
import OkRn.Lib.Along

namespace OkRn.Gatt

namespace Service

/-- A fragment was written by the sender while it was the target and the door was open. -/
def AdmittedAs (sender : Address) (door : Door) (w : Write) : Prop :=
  w.sender = sender ∧ w.door = door ∧ w.target = some sender ∧ w.gateOpen = true

/-- A message of one sender's fragments, each admitted, with no change of the target and no closing
of the door between any two. -/
structure Whole (h : Handed) : Prop where
  admitted : ∀ w ∈ h.message.parts, AdmittedAs h.sender h.door w
  targets : ∀ w ∈ h.message.parts, ∀ w' ∈ h.message.parts, w.targets = w'.targets
  closings : ∀ w ∈ h.message.parts, ∀ w' ∈ h.message.parts, w.closings = w'.closings
  payload : h.message.payload <+: h.message.parts.flatMap Write.data

/-- A fragment is pushed under the policy that it was written under, and not before a reset; a door
closes when its assembler holds no half message. -/
def Steady (s : Service) : Event → Prop
  | .pushes i => ∀ w ∈ s.writes[i]?, w.checked = true →
      w.targets = s.targets ∧ w.closings = s.closings w.door ∧ s.resetting = false
  | .setIoPolicy next => s.resetting = false → ∀ door ∈ [Door.fido, Door.vendor],
      s.policy.gate door = true → next.gate door = false → (s.assembler door).parts.length = 0
  | _ => True

instance (s : Service) (e : Event) : Decidable (s.Steady e) := by
  cases e <;> unfold Steady <;> infer_instance

/-! ### The invariant -/

/-- What a write remembers: a target that has not changed since is the target, and a checked write
came from it through an open gate. -/
structure Remembers (s : Service) (w : Write) : Prop where
  before : w.targets ≤ s.targets
  target : w.targets = s.targets → w.target = s.policy.target
  checked : w.checked = true → w.gateOpen = true ∧
    (w.targets = s.targets → w.target = some w.sender)

/-- A fragment that an assembler holds was written under the policy as it is. -/
structure Current (s : Service) (door : Door) (w : Write) : Prop where
  admitted : ∃ sender, s.policy.target = some sender ∧ AdmittedAs sender door w
  targets : w.targets = s.targets
  closings : w.closings = s.closings door

/-- What holds between the steps. -/
structure Inv (s : Service) : Prop where
  remembers : ∀ w ∈ s.writes, s.Remembers w
  sound : ∀ door, (s.assembler door).Sound
  current : s.resetting = false → ∀ door, ∀ w ∈ (s.assembler door).parts, s.Current door w
  whole : ∀ h ∈ s.handed, Whole h

variable {s : Service}

/-- What a write remembers does not depend on the assemblers. -/
theorem Remembers.congr {s' : Service} {w : Write} (h : s.Remembers w)
    (hpolicy : s'.policy = s.policy) (htargets : s'.targets = s.targets) : s'.Remembers w where
  before := htargets ▸ h.before
  target heq := by
    rw [hpolicy]
    exact h.target (heq.trans htargets)
  checked hc := ⟨(h.checked hc).1, fun heq => (h.checked hc).2 (heq.trans htargets)⟩

theorem Current.congr {s' : Service} {door : Door} {w : Write} (h : s.Current door w)
    (hpolicy : s'.policy = s.policy) (htargets : s'.targets = s.targets)
    (hclosings : s'.closings = s.closings) : s'.Current door w where
  admitted := by
    rw [hpolicy]
    exact h.admitted
  targets := h.targets.trans htargets.symm
  closings := by
    rw [hclosings]
    exact h.closings

/-- A message whose writes are all of the policy as it is comes whole from its target. -/
theorem whole_of_current {door : Door} {sender : Address} {m : Message}
    (hsender : s.policy.target = some sender) (h : ∀ w ∈ m.parts, s.Current door w)
    (hpayload : m.payload <+: m.parts.flatMap Write.data) : Whole ⟨sender, door, m⟩ where
  admitted w hw := by
    obtain ⟨target, htarget, hadmitted⟩ := (h w hw).admitted
    obtain rfl := Option.some.inj (hsender.symm.trans htarget)
    exact hadmitted
  targets w hw w' hw' := (h w hw).targets.trans (h w' hw').targets.symm
  closings w hw w' hw' := (h w hw).closings.trans (h w' hw').closings.symm
  payload := hpayload

/-- A reset of the assemblers keeps it. -/
theorem Inv.resetAll (h : s.Inv) : s.resetAll.Inv where
  remembers w hw := (h.remembers w hw).congr rfl rfl
  sound door := Assembler.sound_reset _
  current _ door w hw := by cases hw
  whole := h.whole

theorem Inv.writes (h : s.Inv) (sender : Address) (door : Door) (value : List UInt8) :
    (s.step (.writes sender door value)).Inv := by
  refine ⟨fun w hw => ?_, h.sound, fun hr d w hw => ?_, h.whole⟩
  · rcases List.mem_append.mp hw with hw | hw
    · exact (h.remembers w hw).congr rfl rfl
    · obtain rfl := List.mem_singleton.mp hw
      exact ⟨Nat.le_refl _, fun _ => rfl, fun hchecked => by cases hchecked⟩
  · exact (h.current hr d w hw).congr rfl rfl rfl

theorem Inv.checks (h : s.Inv) (i : Nat) : (s.step (.checks i)).Inv := by
  simp only [Service.step]
  split
  · rename_i w hget
    have hmem := List.mem_of_getElem? hget
    split
    · exact h
    split
    · rename_i hpasses
      simp only [passes, Bool.and_eq_true, beq_iff_eq] at hpasses
      refine ⟨fun w' hw' => ?_, h.sound,
        fun hr door w' hw' => (h.current hr door w' hw').congr rfl rfl rfl, h.whole⟩
      rcases List.mem_or_eq_of_mem_set hw' with hw' | rfl
      · exact (h.remembers w' hw').congr rfl rfl
      · obtain ⟨hbefore, htarget, -⟩ := h.remembers w hmem
        exact ⟨hbefore, htarget, fun _ => ⟨hpasses.2, fun heq => (htarget heq).trans hpasses.1⟩⟩
    · exact ⟨fun w' hw' => (h.remembers w' (List.mem_of_mem_eraseIdx hw')).congr rfl rfl, h.sound,
        fun hr door w' hw' => (h.current hr door w' hw').congr rfl rfl rfl, h.whole⟩
  · exact h

/-- A steady push: the fragment is current, and so is all that the assembler holds with it. -/
theorem Inv.pushes (h : s.Inv) {i : Nat} (hsteady : s.Steady (.pushes i)) :
    (s.step (.pushes i)).Inv := by
  simp only [Service.step]
  split
  · rename_i w hget
    split
    · rename_i hchecked
      obtain ⟨htargets, hclosings, hresetting⟩ := hsteady w hget hchecked
      obtain ⟨-, htarget, hsender⟩ := h.remembers w (List.mem_of_getElem? hget)
      obtain ⟨hgate, hsender⟩ := hsender hchecked
      have hpolicy : s.policy.target = some w.sender :=
        (htarget htargets).symm.trans (hsender htargets)
      have hw : s.Current w.door w :=
        ⟨⟨w.sender, hpolicy, rfl, rfl, hsender htargets, hgate⟩, htargets, hclosings⟩
      have hall {parts : List Write}
          (hparts : parts = [w] ∨ parts = (s.assembler w.door).parts ++ [w]) :
          ∀ w' ∈ parts, s.Current w.door w' := by
        intro w' hw'
        rcases hparts with rfl | rfl
        · obtain rfl := List.mem_singleton.mp hw'
          exact hw
        · rcases List.mem_append.mp hw' with hw' | hw'
          · exact h.current hresetting w.door w' hw'
          · obtain rfl := List.mem_singleton.mp hw'
            exact hw
      -- the other door's assembler is as it was
      have hput {a : Assembler} (hsound : a.Sound) (hparts : ∀ w' ∈ a.parts, s.Current w.door w')
          {handed : List Handed} (hhanded : ∀ x ∈ handed, Whole x) :
          Inv { s with
            writes := s.writes.eraseIdx i
            assembler := Function.update s.assembler w.door a
            handed := s.handed ++ handed } := by
        refine ⟨fun w' hw' => (h.remembers w' (List.mem_of_mem_eraseIdx hw')).congr rfl rfl,
          fun door => ?_, fun _ door w' hw' => ?_, fun x hx => ?_⟩
        · by_cases hdoor : door = w.door
          · subst hdoor
            simpa using hsound
          · simpa [hdoor] using h.sound door
        · by_cases hdoor : door = w.door
          · subst hdoor
            simp only [Function.update_self] at hw'
            exact (hparts w' hw').congr rfl rfl rfl
          · simp only [Function.update_of_ne hdoor] at hw'
            exact (h.current hresetting door w' hw').congr rfl rfl rfl
        · rcases List.mem_append.mp hx with hx | hx
          · exact h.whole x hx
          · exact hhanded x hx
      generalize hpushed : (s.assembler w.door).push w = pushed
      have hcases := Assembler.pushed_push (h.sound w.door) w
      rw [hpushed] at hcases
      cases hcases with
      | keep =>
        exact hput (h.sound w.door) (h.current hresetting w.door) fun x hx => by cases hx
      | drop =>
        exact hput (Assembler.sound_reset _) (fun w' hw' => by cases hw') fun x hx => by cases hx
      | hold a' hsound hparts =>
        exact hput hsound (hall hparts) fun x hx => by cases hx
      | whole a' m hempty hsound hparts hpayload =>
        refine hput hsound (fun w' hw' => by rw [hempty] at hw'; cases hw') fun x hx => ?_
        obtain rfl := List.mem_singleton.mp hx
        exact whole_of_current hpolicy (hall hparts) hpayload
    · exact h
  · exact h

/-- A new policy keeps it, when no half message is left behind. -/
theorem Inv.setIoPolicy (h : s.Inv) {next : IoPolicy} (hsteady : s.Steady (.setIoPolicy next)) :
    (s.step (.setIoPolicy next)).Inv := by
  simp only [Service.step, Service.setIoPolicy]
  split
  · exact h
  rename_i hresetting
  have hresetting : s.resetting = false := by simpa using hresetting
  refine ⟨fun w hw => ?_, h.sound, fun hr door w hw => ?_, h.whole⟩
  · obtain ⟨hbefore, htarget, hchecked⟩ := h.remembers w hw
    -- a write from before is still current only if neither target nor gate changed
    by_cases hsame : s.policy.target = next.target
    · simp only [hsame, if_true]
      exact ⟨hbefore, fun heq => (htarget heq).trans hsame, hchecked⟩
    · -- the count has gone past the write's
      simp only [hsame, if_false]
      exact ⟨Nat.le_succ_of_le hbefore, fun heq => by simp only at heq; omega,
        fun hc => ⟨(hchecked hc).1, fun heq => by simp only at heq; omega⟩⟩
  · simp only [bne_eq_false_iff_eq] at hr
    obtain ⟨⟨sender, htarget, hadmitted⟩, htargets, hclosings⟩ := h.current hresetting door w hw
    refine ⟨⟨sender, hr ▸ htarget, hadmitted⟩, ?_, ?_⟩
    · simpa [hr] using htargets
    · have hopen : ¬ (s.policy.gate door = true ∧ next.gate door = false) := by
        rintro ⟨hwas, hnext⟩
        have hdoor : door ∈ [Door.fido, Door.vendor] := by cases door <;> decide
        have hempty := List.eq_nil_of_length_eq_zero (hsteady hresetting door hdoor hwas hnext)
        rw [hempty] at hw
        cases hw
      have hclosed : (s.policy.gate door && !next.gate door) = false := by
        cases hwas : s.policy.gate door <;> cases hnext : next.gate door <;> simp_all
      simp only [hclosed]
      exact hclosings

/-- Every steady event keeps it. -/
theorem Inv.step (h : s.Inv) {e : Event} (hsteady : s.Steady e) : (s.step e).Inv := by
  cases e with
  | writes sender door value => exact h.writes sender door value
  | checks i => exact h.checks i
  | pushes i => exact h.pushes hsteady
  | setIoPolicy next => exact h.setIoPolicy hsteady
  | resets =>
    simp only [Service.step]
    split
    · obtain ⟨hremembers, hsound, -, hwhole⟩ := h.resetAll
      exact ⟨fun w hw => (hremembers w hw).congr rfl rfl, hsound,
        fun _ door w hw => (by cases hw), hwhole⟩
    · exact h
  | stops => exact h.resetAll

/-- In a run of steady events every message handed up came whole from the computer it names. -/
theorem messages_come_whole (history : List Event)
    (hhistory : AllAlong Service.step Service.Steady {} history) :
    ∀ x ∈ (history.foldl Service.step {}).handed, Whole x := by
  have hfirst : ({} : Service).Inv :=
    ⟨fun w hw => (by cases hw), fun _ => ⟨rfl, fun _ => rfl⟩, fun _ _ w hw => (by cases hw),
      fun x hx => (by cases hx)⟩
  have hinv : (history.foldl Service.step {}).Inv := hhistory.keeps hfirst fun s e hs he => hs.step he
  exact hinv.whole

/-- A message of two fragments; then the other computer is the target, and sends one. -/
def twoTargets : List Event :=
  [.setIoPolicy ⟨some "A", true, true⟩, .resets, .writes "A" .fido [0x83, 0, 4, 1, 2], .checks 0,
    .pushes 0, .writes "A" .fido [0, 3, 4], .checks 0, .pushes 0,
    .setIoPolicy ⟨some "B", true, true⟩, .resets, .writes "B" .fido [0x83, 0, 1, 5], .checks 0,
    .pushes 0]

theorem messages_come_whole_two :
    (twoTargets.foldl Service.step {}).handed.length = 2 ∧
      ∀ x ∈ (twoTargets.foldl Service.step {}).handed, Whole x :=
  ⟨by decide +kernel, messages_come_whole twoTargets (by decide +kernel)⟩

/-- The first computer's fragment passes the check and is pushed after the reset; the second's
continues it. -/
theorem old_fragment_heads_the_message :
    ¬ ∀ history : List Event, ∀ x ∈ (history.foldl Service.step {}).handed, Whole x := by
  intro h
  let history : List Event :=
    [.setIoPolicy ⟨some "A", true, true⟩, .resets, .writes "A" .fido [0x83, 0, 4, 1, 2], .checks 0,
      .setIoPolicy ⟨some "B", true, true⟩, .resets, .pushes 0, .writes "B" .fido [0, 3, 4],
      .checks 0, .pushes 0]
  let first : Write := ⟨"A", .fido, [0x83, 0, 4, 1, 2], 1, 0, some "A", true, true⟩
  let second : Write := ⟨"B", .fido, [0, 3, 4], 2, 0, some "B", true, true⟩
  have hhanded : (history.foldl Service.step {}).handed =
      [⟨"B", .fido, ⟨3, [1, 2, 3, 4], [first, second]⟩⟩] := rfl
  have hwhole := h history _ (by rw [hhanded]; exact List.mem_cons_self)
  have hfirst := (hwhole.admitted first List.mem_cons_self).1
  revert hfirst
  decide

end Service

end OkRn.Gatt
