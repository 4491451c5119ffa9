/-
OkRn/Bridge/Owner.lean

Whom the key's reports go to.

The bridge takes the key to answer whoever wrote to it last, and sees writes by
their echo: bytes that match a write of a computer's on its way are that
computer's, all others are the app's.  The echo may come long after the write, and
after the key's answer.

`speaker` is who really wrote last.  In a run where no report and no other's write
falls between a write and its echo, and every echo is taken for what it is, each
report goes to the speaker (`reports_go_to_the_speaker`).
-/
import OkRn.Bridge.Kept

namespace OkRn.Bridge.Owner

open OkRn.Bt

/-! ### Echoes -/

/-- `isEchoOf`: the bytes sent, and then zeros. -/
def isEchoOf (sent echoed : Msg) : Bool :=
  decide (sent.length ≤ echoed.length) && echoed.take sent.length == sent
    && (echoed.drop sent.length).all (· == 0)

/-- The write takes its place among those on their way; there are eight at most. -/
def remember (ours : List Msg) (data : Msg) : List Msg :=
  if 8 < (ours ++ [data]).length then (ours ++ [data]).tail else ours ++ [data]

/-- A write as the transport echoes it: padded to 64 bytes. -/
def padded (data : Msg) : Msg := data ++ List.replicate (64 - data.length) 0

/-! ### The bridge -/

/-- A report: who had spoken last, whom it was pushed to, and how the gates stood. -/
structure Report where
  speaker : Option String
  pushed : Option String
  api : Bool
  target : Option String

/-- Whom the bridge takes for the speaker, the writes and their echoes, and who really spoke. -/
structure World where
  owner : Option String
  ours : List Msg
  api : Bool
  target : Option String
  /-- The computers' writes handed to the transport. -/
  underway : List (String × Msg)
  /-- The echoes still to come; the computers' are marked. -/
  echoes : List (Bool × Msg)
  /-- The computer that wrote to the key last, if it was not the app. -/
  speaker : Option String
  reports : List Report

/-- The writes of the computers and the app, their echoes, and the key's reports. -/
inductive Event
  /-- The last part of `forward`. -/
  | write (address : String) (data : Msg)
  /-- The same, when another key has become the active one in between. -/
  | stray (address : String) (data : Msg)
  /-- The write `i` takes effect. -/
  | lands (i : Nat)
  | fails (i : Nat)
  /-- A write of the app takes effect. -/
  | appWrite (data : Msg)
  /-- The echo `i` comes. -/
  | echo (i : Nat)
  | report
  /-- The bridge binds to another key. -/
  | rebind
  | setApi (on : Bool)
  | setTarget (target : Option String)

namespace World

/-- `mayForward`, with the computer it is about. -/
def receiver (w : World) : Option String :=
  w.owner.filter fun a => w.api && isFromTarget a w.target

/-- The listener of writes. -/
def onEcho (echoed : Msg) (w : World) : World :=
  match w.ours.findIdx? fun sent => isEchoOf sent echoed with
  | some mine => { w with ours := w.ours.eraseIdx mine }
  | none => { w with owner := none }

/-- What an event does at the bridge and at the key. -/
def step (w : World) : Event → World
  | .write address data =>
      { w with
        owner := some address
        ours := remember w.ours data
        underway := w.underway ++ [(address, data)] }
  | .stray address data => { w with owner := some address, ours := remember w.ours data }
  | .lands i => match w.underway[i]? with
    | some (address, data) =>
        { w with
          underway := w.underway.eraseIdx i
          speaker := some address
          echoes := w.echoes ++ [(true, padded data)] }
    | none => w
  | .fails i => { w with underway := w.underway.eraseIdx i }
  | .appWrite data => { w with speaker := none, echoes := w.echoes ++ [(false, padded data)] }
  | .echo i => match w.echoes[i]? with
    | some (_, echoed) => { w with echoes := w.echoes.eraseIdx i }.onEcho echoed
    | none => w
  | .report => { w with reports := ⟨w.speaker, w.receiver, w.api, w.target⟩ :: w.reports }
  | .rebind =>
      { w with owner := none, ours := [], underway := [], echoes := [], speaker := none }
  | .setApi on => { w with api := on }
  | .setTarget target => { w with target := target }

/-- Nobody has written. -/
def started (api : Bool) (target : Option String) : World :=
  ⟨none, [], api, target, [], [], none, []⟩

end World

/-- After a write of the app it goes to no computer; after a computer's, to that computer, if it is
the target and API is on. -/
def Report.Right (r : Report) : Prop :=
  r.pushed = r.speaker.filter fun a => r.api && isFromTarget a r.target

namespace World

/-- No write of the app is without its echo. -/
def AppHeard (w : World) : Prop := ∀ x ∈ w.echoes, x.1 = true

instance (w : World) : Decidable w.AppHeard := inferInstanceAs (Decidable (∀ x ∈ w.echoes, _))

/-- The order of events that lets the bridge tell who spoke last: a computer's write comes when no
write of another is under way and every write of the app was echoed, and a write of the app when no
computer's is under way; a write that does not reach the key is of the computer that spoke last
anyway; an echo is taken for what it is; and a report does not come between a write and what the
bridge hears of it. -/
def OneWriter (w : World) : Event → Prop
  | .write address _ => (∀ x ∈ w.underway, x.1 = address) ∧ w.AppHeard
  | .stray address _ => w.speaker = some address ∧ (∀ x ∈ w.underway, x.1 = address) ∧ w.AppHeard
  | .fails i => ∀ x ∈ w.underway[i]?, w.speaker = some x.1
  | .appWrite _ => w.underway = []
  | .echo i => ∀ x ∈ w.echoes[i]?, (w.ours.any fun sent => isEchoOf sent x.2) = x.1
  | .report => w.AppHeard ∧ ∀ x ∈ w.underway, w.speaker = some x.1
  | _ => True

instance (w : World) (e : Event) : Decidable (w.OneWriter e) := by
  cases e <;> unfold OneWriter <;> infer_instance

/-- What the bridge knows of who spoke last. -/
structure Tidy (w : World) : Prop where
  underway : ∀ x ∈ w.underway, w.owner = some x.1
  app : ¬ w.AppHeard → w.underway = [] ∧ w.speaker = none
  owner : w.AppHeard → w.underway = [] → w.owner = w.speaker
  right : ∀ r ∈ w.reports, r.Right

theorem tidy_started (api : Bool) (target : Option String) : Tidy (started api target) where
  underway _ h := by cases h
  app h := absurd (fun _ hx => (by cases hx)) h
  owner _ _ := rfl
  right _ h := by cases h

/-- A write under way is a computer's that the key may answer. -/
theorem Tidy.appHeard {w : World} (h : w.Tidy) {x : String × Msg} (hx : x ∈ w.underway) :
    w.AppHeard := by
  by_contra happ
  rw [(h.app happ).1] at hx
  cases hx

/-- A write for another key changes the owner alone. -/
theorem Tidy.stray {w : World} (h : w.Tidy) {address : String} (data : Msg)
    (hf : w.OneWriter (.stray address data)) : (w.step (.stray address data)).Tidy where
  underway x hx := congrArg some (hf.2.1 x hx).symm
  app happ := absurd hf.2.2 happ
  owner _ _ := hf.1.symm
  right := h.right

/-- A computer's write is the only one under way. -/
theorem Tidy.write {w : World} (h : w.Tidy) {address : String} (data : Msg)
    (hf : w.OneWriter (.write address data)) : (w.step (.write address data)).Tidy where
  underway x hx := by
    rcases List.mem_append.mp hx with hx | hx
    · exact congrArg some (hf.1 x hx).symm
    · rw [List.mem_singleton.mp hx]
      rfl
  app happ := absurd hf.2 happ
  owner _ hnil := absurd hnil (List.append_ne_nil_of_right_ne_nil _ nofun)
  right := h.right

/-- The write takes effect, and its computer is the speaker. -/
theorem Tidy.lands {w : World} (h : w.Tidy) (i : Nat) : (w.step (.lands i)).Tidy := by
  simp only [World.step]
  split
  · rename_i address data hi
    have hmem := List.mem_of_getElem? hi
    have happ := h.appHeard hmem
    refine ⟨fun x hx => h.underway x (List.mem_of_mem_eraseIdx hx), fun hno => absurd ?_ hno,
      fun _ _ => h.underway _ hmem, h.right⟩
    intro x hx
    rcases List.mem_append.mp hx with hx | hx
    · exact happ x hx
    · rw [List.mem_singleton.mp hx]
  · exact h

/-- A write that fails leaves no echo. -/
theorem Tidy.fails {w : World} (h : w.Tidy) {i : Nat} (hf : w.OneWriter (.fails i)) :
    (w.step (.fails i)).Tidy where
  underway x hx := h.underway x (List.mem_of_mem_eraseIdx hx)
  app happ := by
    obtain ⟨hnil, hnone⟩ := h.app happ
    exact ⟨by simp [World.step, hnil], hnone⟩
  owner happ hnil := by
    rcases hi : w.underway[i]? with - | x
    · have hsame : w.underway.eraseIdx i = w.underway :=
        List.eraseIdx_of_length_le (List.getElem?_eq_none_iff.mp hi)
      exact h.owner happ (hsame ▸ hnil)
    · exact (h.underway x (List.mem_of_getElem? hi)).trans (hf x hi).symm
  right := h.right

/-- The app writes, and the speaker is nobody else. -/
theorem Tidy.appWrite {w : World} (h : w.Tidy) (data : Msg) (hf : w.OneWriter (.appWrite data)) :
    (w.step (.appWrite data)).Tidy where
  underway x hx := by
    change x ∈ w.underway at hx
    rw [show w.underway = [] from hf] at hx
    cases hx
  app _ := ⟨hf, rfl⟩
  owner happ := absurd (happ (false, padded data) (List.mem_append.mpr (Or.inr (.head _)))) nofun
  right := h.right

/-- An echo that finds an entry of the list leaves the owner, any other makes it the app's. -/
theorem onEcho_eq (echoed : Msg) (w : World) :
    (∃ ours, w.onEcho echoed = { w with ours := ours }) ∧
        (w.ours.any fun sent => isEchoOf sent echoed) = true ∨
      w.onEcho echoed = { w with owner := none } ∧
        (w.ours.any fun sent => isEchoOf sent echoed) = false := by
  unfold onEcho
  split
  · rename_i mine hmine
    refine Or.inl ⟨⟨_, rfl⟩, ?_⟩
    rw [← List.findIdx?_isSome, hmine]
    rfl
  · rename_i hnone
    refine Or.inr ⟨rfl, ?_⟩
    rw [← List.findIdx?_isSome, hnone]
    rfl

/-- The echo is taken for what it is. -/
theorem Tidy.echo {w : World} (h : w.Tidy) {i : Nat} (hf : w.OneWriter (.echo i)) :
    (w.step (.echo i)).Tidy := by
  simp only [World.step]
  split
  · rename_i mark echoed hi
    have hmark := hf (mark, echoed) hi
    have hrest : ∀ x ∈ w.echoes.eraseIdx i, x ∈ w.echoes := fun x => List.mem_of_mem_eraseIdx
    rcases onEcho_eq echoed { w with echoes := w.echoes.eraseIdx i } with ⟨⟨ours, heq⟩, hany⟩ | ⟨heq, hany⟩
    · -- a computer's echo: the same writes of the app are unheard as before
      have htrue : mark = true := hmark.symm.trans hany
      have happ : (∀ x ∈ w.echoes.eraseIdx i, x.1 = true) → w.AppHeard := by
        intro hall x hx
        obtain ⟨j, hj⟩ := List.mem_iff_getElem?.mp hx
        rcases eq_or_ne j i with rfl | hne
        · rw [hi] at hj
          cases hj
          exact htrue
        · exact hall x (List.mem_eraseIdx_iff_getElem?.mpr ⟨j, hne, hj⟩)
      rw [heq]
      exact ⟨h.underway, fun hno => h.app fun hall => hno fun x hx => hall x (hrest x hx),
        fun hall => h.owner (happ hall), h.right⟩
    · -- the app's own echo: it had been counted as unheard
      have hfalse : mark = false := hmark.symm.trans hany
      have hno : ¬ w.AppHeard := fun hall =>
        absurd ((hall (mark, echoed) (List.mem_of_getElem? hi)).symm.trans hfalse) nofun
      obtain ⟨hnil, hnone⟩ := h.app hno
      rw [heq]
      refine ⟨fun x hx => ?_, fun _ => ⟨hnil, hnone⟩, fun _ _ => hnone.symm, h.right⟩
      change x ∈ w.underway at hx
      rw [hnil] at hx
      cases hx
  · exact h

/-- A report goes to the owner, who is the speaker. -/
theorem Tidy.report {w : World} (h : w.Tidy) (hf : w.OneWriter .report) : (w.step .report).Tidy := by
  refine { h with right := fun r hr => ?_ }
  rcases List.mem_cons.mp hr with rfl | hr
  · have howner : w.owner = w.speaker := by
      rcases hunder : w.underway with - | ⟨x, xs⟩
      · exact h.owner hf.1 hunder
      · have hx : x ∈ w.underway := hunder ▸ .head xs
        exact (h.underway x hx).trans (hf.2 x hx).symm
    change w.receiver = _
    rw [receiver, howner]
  · exact h.right r hr

/-- Every event that meets the condition keeps owner and speaker the same. -/
theorem Tidy.step {w : World} (e : Event) (h : w.Tidy) (hf : w.OneWriter e) : (w.step e).Tidy := by
  cases e with
  | write address data => exact h.write data hf
  | stray address data => exact h.stray data hf
  | lands i => exact h.lands i
  | fails i => exact h.fails hf
  | appWrite data => exact h.appWrite data hf
  | echo i => exact h.echo hf
  | report => exact h.report hf
  | rebind =>
    refine ⟨fun _ hx => (by cases hx), fun hno => absurd ?_ hno, fun _ _ => rfl, h.right⟩
    exact fun _ hx => by cases hx
  | setApi on => exact { h with }
  | setTarget target => exact { h with }

/-- In a run whose events come in such an order, a report after a write of the app goes to no
computer, and a report after a computer's write to that computer, if it is still the target and API
is on. -/
theorem reports_go_to_the_speaker (api : Bool) (target : Option String) (events : List Event)
    (h : AllAlong step OneWriter (started api target) events) :
    ∀ r ∈ (events.foldl step (started api target)).reports, r.Right :=
  (h.keeps (tidy_started api target) fun _ e hw hf => hw.step e hf).right

/-- A computer and the app, one after the other. -/
def inTurn : List Event :=
  [.write "c0" [1], .lands 0, .report, .echo 0, .report, .appWrite [2], .echo 0, .report]

theorem reports_go_to_the_speaker_in_turn :
    (inTurn.foldl step (started true (some "C0"))).reports.length = 3 ∧
      ∀ r ∈ (inTurn.foldl step (started true (some "C0"))).reports, r.Right :=
  ⟨by decide, reports_go_to_the_speaker true (some "C0") inTurn (by decide)⟩

/-- The key answers the app before the echo of the app's write. -/
theorem late_echo_leaks :
    ¬ ∀ (api : Bool) (target : Option String) (events : List Event),
      ∀ r ∈ (events.foldl step (started api target)).reports, r.Right := by
  intro h
  have hright := h true (some "C0") [.write "c0" [1], .lands 0, .echo 0, .appWrite [2], .report]
    ⟨none, some "c0", true, some "C0"⟩ (.head _)
  cases hright

end World

end OkRn.Bridge.Owner
