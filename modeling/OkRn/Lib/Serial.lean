/-
OkRn/Lib/Serial.lean

Calls that read one component of a shared state, wait, and write it back whole.

The component is given by `view`.  A call looks at it with its first step on the
shared state, goes on through any number of awaits, and may save the component with
its last step (`Task.SavesLast`, `Task.ReadsAndSaves`).  Everything else on the
shared state may change at any time; of it, `marks` gives facts that are relied on
once they hold, such as that a merge has been recorded.

A `Watch` interleaves any number of such calls, and records of each what it saw when
it looked, and of each save what it found and what it left.  The record is complete:
a save that lands over another one is in it with the number of saves there were when
its call looked (`Look.since`).

* `Watch.Undisturbed`: no call saves over a save that it has not seen, no mark goes,
  and no call's read fails;
* `Watch.InOrder`: each save changes the component as its call does alone from there,
  and a call that returned without a save found what it says in what it saw.

Main result: `Runs.inOrder`.
-/
import OkRn.Lib.Task
import Mathlib.Data.List.Induction
import Mathlib.Data.Set.Basic

namespace OkRn

variable {ι σ ρ κ V M : Type}

/-! ### What a call may do -/

namespace Task

/-- The step leaves the component alone, wherever it is made. -/
def Leaves (view : σ → V) (f : σ → σ) : Prop := ∀ s, view (f s) = view s

/-- A task that may save the component with its last step.  `marked` holds from now on; `C` is of
what was marked by then, what is saved and what is returned, and `Q` of what is returned without
a save. -/
def SavesLast (view : σ → V) (marks : σ → Set M) (C : Set M → V → ρ → Prop) (Q : ρ → Prop) :
    Task ι σ ρ → Set M → Prop
  | ret a, _ => Q a
  | fail, _ => True
  | ask k, marked => ∀ a, SavesLast view marks C Q (k a) marked
  | act f k, marked =>
      (Leaves view f ∧ ∀ s, marked ⊆ marks s → marks s ⊆ marks (f s) →
        SavesLast view marks C Q (k s) (marks (f s))) ∨
      ¬ Leaves view f ∧ ∃ v, ∀ s, view (f s) = v ∧ ∃ a, k s = ret a ∧ C marked v a

/-- A call that waits, looks at the component, and goes on as `SavesLast` says; after an answer
that `fails` it has not looked. -/
def ReadsAndSaves (view : σ → V) (marks : σ → Set M) (fails : ι → Prop)
    (C : V → Set M → Set M → V → ρ → Prop) (Q : V → ρ → Prop) (t : Task ι σ ρ) : Prop :=
  ∃ k, t = ask k ∧ ∀ a, ¬ fails a → ∃ g : V → Task ι σ ρ,
    k a = act id (fun s => g (view s)) ∧
      ∀ v marked, (g v).SavesLast view marks (C v marked) (Q v) marked

/-- With these answers the task alone leaves the component, and what is marked, as it is until it
waits again. -/
def Quietly (view : σ → V) (marks : σ → Set M) : Task ι σ ρ → List ι → σ → Prop
  | act f k, as, s => Leaves view f ∧ marks s ⊆ marks (f s) ∧ Quietly view marks (k s) as (f s)
  | ask k, a :: as, s => Quietly view marks (k a) as s
  | _, as, _ => as = []

/-- What is left of a task that goes on alone, with these answers. -/
def left : Task ι σ ρ → List ι → σ → Task ι σ ρ
  | act f k, as, s => left (k s) as (f s)
  | ask k, a :: as, s => left (k a) as s
  | t, _, _ => t

variable {view : σ → V} {marks : σ → Set M} {C : Set M → V → ρ → Prop} {Q : ρ → Prop}
  {marked marked' : Set M}

/-- What leaves the component alone, and then more. -/
theorem SavesLast.after {α : Type} {t : Task ι σ α} {g : α → Task ι σ ρ}
    (h : t.Frames fun s s' => view s' = view s)
    (hg : ∀ a marked', marked ⊆ marked' → (g a).SavesLast view marks C Q marked') :
    (t.bind g).SavesLast view marks C Q marked := by
  induction t generalizing marked with
  | ret a => exact hg a marked le_rfl
  | fail => trivial
  | ask k ih => exact fun a => ih a (h a) hg
  | act f k ih =>
    refine .inl ⟨fun s => (h s).1, fun s hs hgrows => ih s (h s).2 fun a marked' hle => ?_⟩
    exact hg a marked' ((hs.trans hgrows).trans hle)

end Task

/-! ### Watched calls -/

/-- What a call saw when it looked: how many saves there were, the component, and what was
marked. -/
structure Look (V M : Type) where
  since : Nat
  saw : V
  marked : Set M

/-- A call, what is left of it, the answers it got, and what it saw. -/
structure Call (κ ι σ ρ V M : Type) where
  op : κ
  rest : Task ι σ ρ
  heard : List ι
  looked : Option (Look V M)

/-- A save: whose it was, what that call had seen, what it found and left, and what was marked. -/
structure Save (V M : Type) where
  call : Nat
  look : Look V M
  found : V
  left : V
  marked : Set M

/-- Calls over one shared state, and their saves in order. -/
structure Watch (κ ι σ ρ V M : Type) where
  shared : σ
  calls : List (Call κ ι σ ρ V M)
  saves : List (Save V M)
  /-- No mark has gone. -/
  kept : Prop

namespace Watch

variable (view : σ → V) (marks : σ → Set M) (code : κ → Task ι σ ρ)
  (w : Watch κ ι σ ρ V M)

/-- Before any call. -/
def init (s : σ) : Watch κ ι σ ρ V M := ⟨s, [], [], True⟩

/-- What the call sees from its first step on. -/
def look (c : Call κ ι σ ρ V M) : Look V M :=
  c.looked.getD ⟨w.saves.length, view w.shared, marks w.shared⟩

/-- Call `i` made a step, which took the shared state to `s`. -/
def acted (i : Nat) (c : Call κ ι σ ρ V M) (s : σ) (t : Task ι σ ρ) : Watch κ ι σ ρ V M where
  shared := s
  calls := w.calls.set i { c with rest := t, looked := some (w.look view marks c) }
  saves := w.saves
  kept := w.kept ∧ marks w.shared ⊆ marks s

/-- Call `i` made a step that saves. -/
def saved (i : Nat) (c : Call κ ι σ ρ V M) (s : σ) (t : Task ι σ ρ) : Watch κ ι σ ρ V M :=
  { w.acted view marks i c s t with
    saves := w.saves ++ [⟨i, w.look view marks c, view w.shared, view s, marks s⟩] }

/-- A call is made, everything but the component changes from outside, or a call goes on. -/
inductive Step : Watch κ ι σ ρ V M → Prop
  | call (op : κ) : Step { w with calls := w.calls ++ [⟨op, code op, [], none⟩] }
  | outside (s : σ) (h : view s = view w.shared) :
      Step { w with shared := s, kept := w.kept ∧ marks w.shared ⊆ marks s }
  | ask {i : Nat} {c : Call κ ι σ ρ V M} {k : ι → Task ι σ ρ} (hc : w.calls[i]? = some c)
      (h : c.rest = .ask k) (a : ι) :
      Step { w with calls := w.calls.set i { c with rest := k a, heard := c.heard ++ [a] } }
  | act {i : Nat} {c : Call κ ι σ ρ V M} {f : σ → σ} {k : σ → Task ι σ ρ}
      (hc : w.calls[i]? = some c) (h : c.rest = .act f k) (hf : Task.Leaves view f) :
      Step (w.acted view marks i c (f w.shared) (k w.shared))
  | save {i : Nat} {c : Call κ ι σ ρ V M} {f : σ → σ} {k : σ → Task ι σ ρ}
      (hc : w.calls[i]? = some c) (h : c.rest = .act f k) (hf : ¬ Task.Leaves view f) :
      Step (w.saved view marks i c (f w.shared) (k w.shared))

/-- What is reached from `w`. -/
inductive Runs : Watch κ ι σ ρ V M → Prop
  | refl : Runs w
  | tail {v v' : Watch κ ι σ ρ V M} : Runs v → Step view marks code v v' → Runs v'

/-- Each call that saved had seen all saves before its own, no mark went, and no first answer
failed. -/
structure Undisturbed (fails : ι → Prop) : Prop where
  seen : ∀ (i : Nat) (save : Save V M), w.saves[i]? = some save → save.look.since = i
  kept : w.kept
  heard : ∀ c ∈ w.calls, ∀ a ∈ c.heard.head?, ¬ fails a

/-- Each save finds what the one before has left. -/
inductive Chained (v₀ : V) : List (Save V M) → V → Prop
  | nil : Chained v₀ [] v₀
  | snoc {saves : List (Save V M)} {v : V} (h : Chained v₀ saves v) (s : Save V M)
      (hfound : s.found = v) : Chained v₀ (saves ++ [s]) s.left

/-- The saves are those of the calls, one at a time. -/
structure InOrder (C : κ → V → Set M → Set M → V → ρ → Prop) (Q : κ → V → ρ → Prop) (s₀ : σ) :
    Prop where
  chained : Chained (view s₀) w.saves (view w.shared)
  /-- A save changes what it finds as its call does, which then has returned. -/
  saves : ∀ s ∈ w.saves, ∃ c a, w.calls[s.call]? = some c ∧ c.rest = .ret a ∧
    C c.op s.found s.look.marked s.marked s.left a
  /-- A call saves once, and what was marked at a save the later ones saw marked. -/
  apart : w.saves.Pairwise fun s s' : Save V M => s.call ≠ s'.call ∧ s.marked ⊆ s'.look.marked
  /-- What was marked at the start, each call that saved saw marked. -/
  start : ∀ s ∈ w.saves, marks s₀ ⊆ s.look.marked
  returned : ∀ i c a, w.calls[i]? = some c → c.rest = .ret a →
    (∃ s ∈ w.saves, s.call = i) ∨ ∃ look, c.looked = some look ∧ Q c.op look.saw a

variable {view : σ → V} {marks : σ → Set M} {code : κ → Task ι σ ρ} {fails : ι → Prop}
  {w w' : Watch κ ι σ ρ V M} {C : κ → V → Set M → Set M → V → ρ → Prop} {Q : κ → V → ρ → Prop}
  {s₀ : σ} {i : Nat} {c : Call κ ι σ ρ V M}

/-! ### Chains of saves -/

theorem chained_concat {v₀ v : V} {saves : List (Save V M)} {s : Save V M} :
    Chained v₀ (saves ++ [s]) v ↔ Chained v₀ saves s.found ∧ v = s.left := by
  constructor
  · intro h
    generalize hl : saves ++ [s] = l at h
    cases h with
    | nil => exact absurd hl (by simp)
    | snoc h s' hfound =>
      obtain ⟨rfl, hs⟩ := List.append_inj' hl rfl
      obtain rfl := List.singleton_inj.mp hs
      exact ⟨hfound ▸ h, rfl⟩
  · rintro ⟨h, rfl⟩
    exact h.snoc s rfl

/-- What the later saves leave as they find it is as a save has left it. -/
theorem Chained.same {β : Type} {v₀ v : V} {before after : List (Save V M)} {s : Save V M}
    (h : Chained v₀ (before ++ s :: after) v) (f : V → β)
    (hafter : ∀ s' ∈ after, f s'.left = f s'.found) : f v = f s.left := by
  induction after using List.reverseRecOn generalizing v with
  | nil => rw [(chained_concat.mp h).2]
  | append_singleton after s' ih =>
    rw [← List.cons_append, ← List.append_assoc] at h
    obtain ⟨hrest, rfl⟩ := chained_concat.mp h
    rw [hafter s' (by simp), ih hrest fun x hx => hafter x (List.mem_append_left _ hx)]

/-- What no save changes is as it was. -/
theorem Chained.start {β : Type} {v₀ v : V} {saves : List (Save V M)} (h : Chained v₀ saves v)
    (f : V → β) (hsame : ∀ s ∈ saves, f s.left = f s.found) : f v = f v₀ := by
  induction h with
  | nil => rfl
  | snoc h s hfound ih =>
    rw [hsame s (by simp), hfound, ih fun x hx => hsame x (List.mem_append_left _ hx)]

/-! ### Disturbance stays recorded -/

/-- What is undisturbed was so before. -/
theorem Undisturbed.of_step (h : w'.Undisturbed fails) (hstep : Step view marks code w w') :
    w.Undisturbed fails := by
  have hset : ∀ {i : Nat} {c : Call κ ι σ ρ V M} (c' : Call κ ι σ ρ V M), w.calls[i]? = some c →
      (∀ a ∈ c.heard.head?, a ∈ c'.heard.head?) →
      (∀ d ∈ w.calls.set i c', ∀ a ∈ d.heard.head?, ¬ fails a) →
      ∀ d ∈ w.calls, ∀ a ∈ d.heard.head?, ¬ fails a := by
    intro i c c' hc hheard hall d hd a ha
    obtain ⟨j, hj⟩ := List.mem_iff_getElem?.mp hd
    by_cases hij : i = j
    · subst hij
      obtain rfl := Option.some.inj (hj.symm.trans hc)
      have hlt := (List.getElem?_eq_some_iff.mp hc).1
      exact hall c' (List.mem_set hlt c') a (hheard a ha)
    · have hj' : (w.calls.set i c')[j]? = some d := by rw [List.getElem?_set_ne hij, hj]
      exact hall d (List.mem_of_getElem? hj') a ha
  -- saves, marks and answers are only added by a step
  cases hstep with
  | call op => exact ⟨h.seen, h.kept, fun d hd => h.heard d (List.mem_append_left _ hd)⟩
  | outside s hs => exact ⟨h.seen, h.kept.1, h.heard⟩
  | @ask i c k hc hrest a =>
    refine ⟨h.seen, h.kept, hset _ hc (fun b hb => ?_) h.heard⟩
    rw [List.head?_append, Option.mem_def.mp hb]
    rfl
  | @act i c f k hc hrest hf =>
    exact ⟨h.seen, h.kept.1,
      hset { c with rest := k w.shared, looked := some (w.look view marks c) } hc
        (fun b hb => hb) h.heard⟩
  | @save i c f k hc hrest hf =>
    refine ⟨fun j save hj => h.seen j save ?_, h.kept.1,
      hset { c with rest := k w.shared, looked := some (w.look view marks c) } hc
        (fun b hb => hb) h.heard⟩
    exact (List.getElem?_append_left (List.getElem?_eq_some_iff.mp hj).1).trans hj

/-! ### The invariant -/

/-- How far a call is, and what it has seen. -/
inductive Stands (view : σ → V) (marks : σ → Set M) (code : κ → Task ι σ ρ)
    (C : κ → V → Set M → Set M → V → ρ → Prop) (Q : κ → V → ρ → Prop) (s₀ : σ)
    (w : Watch κ ι σ ρ V M) (i : Nat) (c : Call κ ι σ ρ V M) : Prop
  /-- It waits for its first answer. -/
  | waits (hrest : c.rest = code c.op) (hheard : c.heard = []) (hlooked : c.looked = none)
  /-- It is about to look. -/
  | looks (g : V → Task ι σ ρ) (hrest : c.rest = .act id fun s => g (view s))
      (hgo : ∀ v marked, (g v).SavesLast view marks (C c.op v marked) (Q c.op v) marked)
      (hlooked : c.looked = none)
  /-- It goes on from what it saw, which is still so if nothing was saved since. -/
  | goes (look : Look V M) (marked : Set M) (hlooked : c.looked = some look)
      (hsince : look.since ≤ w.saves.length)
      (hsaw : look.since = w.saves.length → look.saw = view w.shared ∧
        ∀ s ∈ w.saves, s.marked ⊆ look.marked)
      (hmarked : marked ⊆ marks w.shared) (hstart : marks s₀ ⊆ look.marked)
      (hrest : c.rest.SavesLast view marks (C c.op look.saw look.marked) (Q c.op look.saw) marked)
  /-- It has saved. -/
  | saved (s : Save V M) (hs : s ∈ w.saves) (hcall : s.call = i) (a : ρ) (hrest : c.rest = .ret a)

/-- What an undisturbed run keeps. -/
structure Inv (view : σ → V) (marks : σ → Set M) (code : κ → Task ι σ ρ)
    (C : κ → V → Set M → Set M → V → ρ → Prop) (Q : κ → V → ρ → Prop) (s₀ : σ)
    (w : Watch κ ι σ ρ V M) : Prop where
  chained : Chained (view s₀) w.saves (view w.shared)
  saves : ∀ s ∈ w.saves, ∃ c a, w.calls[s.call]? = some c ∧ c.rest = .ret a ∧
    C c.op s.found s.look.marked s.marked s.left a
  apart : w.saves.Pairwise fun s s' : Save V M => s.call ≠ s'.call ∧ s.marked ⊆ s'.look.marked
  marked : ∀ s ∈ w.saves, s.marked ⊆ marks w.shared
  start : marks s₀ ⊆ marks w.shared ∧ ∀ s ∈ w.saves, marks s₀ ⊆ s.look.marked
  stands : ∀ i c, w.calls[i]? = some c → Stands view marks code C Q s₀ w i c

theorem inv_init (s : σ) : Inv view marks code C Q s (init s) where
  chained := .nil
  saves _ h := by cases h
  apart := .nil
  marked _ h := by cases h
  start := ⟨le_rfl, fun _ h => by cases h⟩
  stands _ _ h := by cases h

/-- What others do leaves a call where it stands. -/
theorem Stands.beside (h : Stands view marks code C Q s₀ w i c) (hview : view w'.shared = view w.shared)
    (hmarks : marks w.shared ⊆ marks w'.shared) (hsaves : w'.saves = w.saves) :
    Stands view marks code C Q s₀ w' i c := by
  cases h with
  | waits hrest hheard hlooked => exact .waits hrest hheard hlooked
  | looks g hrest hgo hlooked => exact .looks g hrest hgo hlooked
  | goes look marked hlooked hsince hsaw hmarked hstart hrest =>
    refine .goes look marked hlooked ?_ ?_ (hmarked.trans hmarks) hstart hrest
    · rw [hsaves]
      exact hsince
    · rw [hsaves, hview]
      exact hsaw
  | saved s hs hcall a hrest => exact .saved s (hsaves ▸ hs) hcall a hrest

/-- So does a save of another, after which what it saw may be old. -/
theorem Stands.beside_save (h : Stands view marks code C Q s₀ w i c) {s : Save V M}
    (hmarks : marks w.shared ⊆ marks w'.shared) (hsaves : w'.saves = w.saves ++ [s]) :
    Stands view marks code C Q s₀ w' i c := by
  cases h with
  | waits hrest hheard hlooked => exact .waits hrest hheard hlooked
  | looks g hrest hgo hlooked => exact .looks g hrest hgo hlooked
  | goes look marked hlooked hsince hsaw hmarked hstart hrest =>
    have hlen : w'.saves.length = w.saves.length + 1 := by rw [hsaves, List.length_append]; rfl
    exact .goes look marked hlooked (by omega) (fun h => by omega) (hmarked.trans hmarks) hstart hrest
  | saved s' hs hcall a hrest =>
    exact .saved s' (by rw [hsaves]; exact List.mem_append_left _ hs) hcall a hrest

/-- A call that waited for its first answer is about to look, if the answer is good. -/
theorem Stands.ask (hcode : ∀ op, Task.ReadsAndSaves view marks fails (C op) (Q op) (code op))
    (h : Stands view marks code C Q s₀ w i c) {k : ι → Task ι σ ρ} (hrest : c.rest = .ask k) {a : ι}
    (hheard : ∀ b ∈ (c.heard ++ [a]).head?, ¬ fails b) {calls : List (Call κ ι σ ρ V M)} :
    Stands view marks code C Q s₀ { w with calls := calls } i
      { c with rest := k a, heard := c.heard ++ [a] } := by
  cases h with
  | waits hrest' hnone hlooked =>
    obtain ⟨k', hk', hgo⟩ := hcode c.op
    obtain rfl : k = k' := Task.ask.inj (hrest.symm.trans (hrest'.trans hk'))
    obtain ⟨g, hg, hlast⟩ := hgo a (hheard a (by simp [hnone]))
    exact .looks g hg hlast hlooked
  | looks g hrest' => rw [hrest] at hrest'; cases hrest'
  | goes look marked hlooked hsince hsaw hmarked hstart hlast =>
    rw [hrest] at hlast
    exact .goes look marked hlooked hsince hsaw hmarked hstart (hlast a)
  | saved s hs hcall b hrest' => rw [hrest] at hrest'; cases hrest'

/-- A call looks, or goes on from what it saw. -/
theorem Stands.act (h : Stands view marks code C Q s₀ w i c)
    (hcode : ∀ op, ∃ k, code op = .ask k) (hinv : ∀ s ∈ w.saves, s.marked ⊆ marks w.shared)
    (hfirst : marks s₀ ⊆ marks w.shared)
    {f : σ → σ} {k : σ → Task ι σ ρ} (hrest : c.rest = .act f k) (hf : Task.Leaves view f)
    (hkept : marks w.shared ⊆ marks (f w.shared)) :
    Stands view marks code C Q s₀ (w.acted view marks i c (f w.shared) (k w.shared)) i
      { c with rest := k w.shared, looked := some (w.look view marks c) } := by
  -- a call that waits does not act; one that looks or goes on may
  cases h with
  | waits hrest' =>
    obtain ⟨k', hk'⟩ := hcode c.op
    rw [hrest', hk'] at hrest
    cases hrest
  | looks g hrest' hgo hlooked =>
    obtain ⟨rfl, rfl⟩ := Task.act.inj (hrest.symm.trans hrest')
    have hlook : w.look view marks c = ⟨w.saves.length, view w.shared, marks w.shared⟩ := by
      rw [look, hlooked]
      rfl
    refine .goes (w.look view marks c) (marks w.shared) rfl ?_ ?_ le_rfl ?_ ?_
    · rw [hlook]
      exact le_rfl
    · rw [hlook]
      exact fun _ => ⟨rfl, hinv⟩
    · rw [hlook]
      exact hfirst
    · rw [hlook]
      exact hgo _ _
  | goes look marked hlooked hsince hsaw hmarked hstart hlast =>
    have hlook : w.look view marks c = look := by
      rw [Watch.look, hlooked]
      rfl
    rw [hrest] at hlast
    rcases hlast with ⟨-, hgo⟩ | ⟨hno, -⟩
    · refine .goes look (marks (f w.shared)) (by rw [hlook]) hsince (fun h => ?_) le_rfl hstart
        (hgo w.shared hmarked hkept)
      exact ⟨(hsaw h).1.trans (hf w.shared).symm, (hsaw h).2⟩
    · exact absurd hf hno
  | saved s hs hcall b hrest' => rw [hrest] at hrest'; cases hrest'

/-! ### Steps -/

variable (hcode : ∀ op, Task.ReadsAndSaves view marks fails (C op) (Q op) (code op))
  (hmono : ∀ op v seen marked marked' u a, marked ⊆ marked' → C op v seen marked u a →
    C op v seen marked' u a)

theorem Inv.of_stands (h : Inv view marks code C Q s₀ w) (hview : view w'.shared = view w.shared)
    (hmarks : marks w.shared ⊆ marks w'.shared) (hsaves : w'.saves = w.saves)
    (hcalls : ∀ (j : Nat) (d : Call κ ι σ ρ V M) a, w.calls[j]? = some d → d.rest = .ret a →
      w'.calls[j]? = some d)
    (hstands : ∀ j d, w'.calls[j]? = some d → Stands view marks code C Q s₀ w' j d) :
    Inv view marks code C Q s₀ w' where
  chained := by
    rw [hsaves, hview]
    exact h.chained
  saves s hs := by
    obtain ⟨d, a, hd, hret, hC⟩ := h.saves s (hsaves ▸ hs)
    exact ⟨d, a, hcalls _ d a hd hret, hret, hC⟩
  apart := by
    rw [hsaves]
    exact h.apart
  marked s hs := (h.marked s (hsaves ▸ hs)).trans hmarks
  start := ⟨h.start.1.trans hmarks, fun s hs => h.start.2 s (hsaves ▸ hs)⟩
  stands := hstands

/-- The calls when one of them has changed. -/
theorem get_set {calls : List (Call κ ι σ ρ V M)} (hc : calls[i]? = some c)
    (c' : Call κ ι σ ρ V M) {j : Nat} {d : Call κ ι σ ρ V M} (hd : (calls.set i c')[j]? = some d) :
    (j = i ∧ d = c') ∨ (j ≠ i ∧ calls[j]? = some d) := by
  by_cases hij : i = j
  · subst hij
    rw [List.getElem?_set_self (List.getElem?_eq_some_iff.mp hc).1] at hd
    exact .inl ⟨rfl, (Option.some.inj hd).symm⟩
  · rw [List.getElem?_set_ne hij] at hd
    exact .inr ⟨fun h => hij h.symm, hd⟩

/-- A call that returned is not the one that goes on. -/
theorem returned_stays {calls : List (Call κ ι σ ρ V M)} (hc : calls[i]? = some c)
    (hgoing : ∀ a, c.rest ≠ .ret a) (c' : Call κ ι σ ρ V M) {j : Nat} {d : Call κ ι σ ρ V M} {a : ρ}
    (hd : calls[j]? = some d) (hret : d.rest = .ret a) : (calls.set i c')[j]? = some d := by
  have hij : i ≠ j := by
    rintro rfl
    obtain rfl := Option.some.inj (hc.symm.trans hd)
    exact hgoing a hret
  rw [List.getElem?_set_ne hij]
  exact hd

include hcode hmono in
theorem Inv.save (h : Inv view marks code C Q s₀ w) (hc : w.calls[i]? = some c) {f : σ → σ}
    {k : σ → Task ι σ ρ} (hrest : c.rest = .act f k) (hf : ¬ Task.Leaves view f)
    (hafter : (w.saved view marks i c (f w.shared) (k w.shared)).Undisturbed fails) :
    Inv view marks code C Q s₀ (w.saved view marks i c (f w.shared) (k w.shared)) := by
  have hkept : marks w.shared ⊆ marks (f w.shared) := hafter.kept.2
  have hstands := h.stands i c hc
  -- only a call that has looked saves, and with its last step
  cases hstands with
  | waits hrest' =>
    obtain ⟨k', hk', -⟩ := hcode c.op
    rw [hrest', hk'] at hrest
    cases hrest
  | looks g hrest' hgo hlooked =>
    obtain ⟨rfl, -⟩ := Task.act.inj (hrest.symm.trans hrest')
    exact absurd (fun _ => rfl) hf
  | saved s hs hcall b hrest' => rw [hrest] at hrest'; cases hrest'
  | goes look marked hlooked hsince hsaw hmarked hstart hlast =>
    have hlook : w.look view marks c = look := by
      rw [Watch.look, hlooked]
      rfl
    rw [hrest] at hlast
    rcases hlast with ⟨hyes, -⟩ | ⟨-, v, hv⟩
    · exact absurd hyes hf
    obtain ⟨hview, a, hk, hC⟩ := hv w.shared
    -- it has seen all saves before
    have hlast : (w.saved view marks i c (f w.shared) (k w.shared)).saves[w.saves.length]? =
        some ⟨i, look, view w.shared, view (f w.shared), marks (f w.shared)⟩ := by
      rw [← hlook]
      exact List.getElem?_concat_length
    obtain ⟨hfound, hseen⟩ := hsaw (hafter.seen _ _ hlast)
    have hgoing : ∀ b, c.rest ≠ .ret b := fun b hb => by rw [hrest] at hb; cases hb
    refine ⟨?_, fun s hs => ?_, ?_, fun s hs => ?_, ⟨h.start.1.trans hkept, fun s hs => ?_⟩,
      fun j d hd => ?_⟩
    · exact h.chained.snoc _ rfl
    · rcases List.mem_append.mp hs with hs | hs
      · obtain ⟨d, b, hd, hret, hC'⟩ := h.saves s hs
        exact ⟨d, b, returned_stays hc hgoing _ hd hret, hret, hC'⟩
      · obtain rfl := List.mem_singleton.mp hs
        refine ⟨{ c with rest := k w.shared, looked := some (w.look view marks c) }, a,
          List.getElem?_set_self (List.getElem?_eq_some_iff.mp hc).1, hk, ?_⟩
        rw [hlook]
        show C c.op (view w.shared) look.marked (marks (f w.shared)) (view (f w.shared)) a
        rw [hview, ← hfound]
        exact hmono _ _ _ _ _ _ _ (hmarked.trans hkept) hC
    · refine List.pairwise_append.mpr ⟨h.apart, List.pairwise_singleton _ _, fun s hs s' hs' => ?_⟩
      obtain rfl := List.mem_singleton.mp hs'
      obtain ⟨d, b, hd, hret, -⟩ := h.saves s hs
      refine ⟨fun hsame => ?_, ?_⟩
      · rw [show s.call = i from hsame] at hd
        obtain rfl := Option.some.inj (hc.symm.trans hd)
        exact hgoing b hret
      · rw [hlook]
        exact hseen s hs
    · rcases List.mem_append.mp hs with hs | hs
      · exact (h.marked s hs).trans hkept
      · obtain rfl := List.mem_singleton.mp hs
        exact le_rfl
    · rcases List.mem_append.mp hs with hs | hs
      · exact h.start.2 s hs
      · obtain rfl := List.mem_singleton.mp hs
        rw [hlook]
        exact hstart
    · rcases get_set hc _ hd with ⟨rfl, rfl⟩ | ⟨-, hd⟩
      · exact .saved _ (List.mem_append_right _ (.head _)) rfl a hk
      · exact (h.stands j d hd).beside_save hkept rfl

include hcode hmono in
theorem Inv.step (h : Inv view marks code C Q s₀ w) (hstep : Step view marks code w w')
    (hafter : w'.Undisturbed fails) : Inv view marks code C Q s₀ w' := by
  -- the call that made the step goes on, the others stand beside it
  cases hstep with
  | call op =>
    refine h.of_stands rfl le_rfl rfl (fun j d a hd _ => ?_) fun j d hd => ?_
    · exact (List.getElem?_append_left (List.getElem?_eq_some_iff.mp hd).1).trans hd
    · by_cases hj : j < w.calls.length
      · rw [List.getElem?_append_left hj] at hd
        exact (h.stands j d hd).beside rfl le_rfl rfl
      · rw [List.getElem?_append_right (not_lt.mp hj)] at hd
        obtain rfl := List.mem_singleton.mp (List.mem_of_getElem? hd)
        exact .waits rfl rfl rfl
  | outside s hs =>
    exact h.of_stands hs hafter.kept.2 rfl (fun j d a hd _ => hd) fun j d hd =>
      (h.stands j d hd).beside hs hafter.kept.2 rfl
  | @ask i c k hc hrest a =>
    have hgoing : ∀ b, c.rest ≠ .ret b := fun b hb => by rw [hrest] at hb; cases hb
    refine h.of_stands rfl le_rfl rfl (fun j d b => returned_stays hc hgoing _) fun j d hd => ?_
    rcases get_set hc _ hd with ⟨rfl, rfl⟩ | ⟨-, hd'⟩
    · exact (h.stands j c hc).ask hcode hrest (hafter.heard _ (List.mem_of_getElem? hd))
    · exact (h.stands j d hd').beside rfl le_rfl rfl
  | @act i c f k hc hrest hf =>
    have hgoing : ∀ b, c.rest ≠ .ret b := fun b hb => by rw [hrest] at hb; cases hb
    have hkept : marks w.shared ⊆ marks (f w.shared) := hafter.kept.2
    refine h.of_stands (hf w.shared) hkept rfl (fun j d b => returned_stays hc hgoing _)
      fun j d hd => ?_
    rcases get_set hc _ hd with ⟨rfl, rfl⟩ | ⟨-, hd'⟩
    · exact (h.stands j c hc).act (fun op => (hcode op).imp fun _ hk => hk.1) h.marked
        h.start.1 hrest hf hkept
    · exact (h.stands j d hd').beside (hf w.shared) hkept rfl
  | save hc hrest hf => exact h.save hcode hmono hc hrest hf hafter

/-! ### Runs -/

include hcode hmono in
/-- Calls that save only over what they have seen save one at a time: each finds what the one
before has left, and changes that. -/
theorem Runs.inOrder (run : Runs view marks code (init s₀) w) (h : w.Undisturbed fails) :
    w.InOrder view marks C Q s₀ := by
  have hinv : Inv view marks code C Q s₀ w := by
    induction run with
    | refl => exact inv_init s₀
    | tail _ hstep ih => exact (ih (h.of_step hstep)).step hcode hmono hstep h
  refine ⟨hinv.chained, hinv.saves, hinv.apart, hinv.start.2, fun i c a hc hret => ?_⟩
  cases hinv.stands i c hc with
  | waits hrest =>
    obtain ⟨k, hk, -⟩ := hcode c.op
    rw [hrest, hk] at hret
    cases hret
  | looks g hrest => rw [hrest] at hret; cases hret
  | goes look marked hlooked _ _ _ _ hrest =>
    rw [hret] at hrest
    exact .inr ⟨look, hlooked, hrest⟩
  | saved s hs hcall b hrest => exact .inl ⟨s, hs, hcall⟩

/-! ### One call goes on -/

/-- Call `i` has become `c'`, with these answers; nothing was saved. -/
structure GoesOn (w w' : Watch κ ι σ ρ V M) (i : Nat) (c c' : Call κ ι σ ρ V M) (as : List ι)
    (t : Task ι σ ρ) (s : σ) : Prop where
  shared : w'.shared = s
  calls : w'.calls = w.calls.set i c'
  saves : w'.saves = w.saves
  kept : w.kept → w'.kept
  op : c'.op = c.op
  rest : c'.rest = t
  heard : c'.heard = c.heard ++ as
  /-- It looks once. -/
  looked : ∀ look ∈ c.looked, c'.looked = some look
  looks : c.looked = none → ∀ look ∈ c'.looked, look.since = w.saves.length

theorem GoesOn.refl (hc : w.calls[i]? = some c) {t : Task ι σ ρ} (ht : c.rest = t) :
    GoesOn w w i c c [] t w.shared where
  shared := rfl
  calls := by
    obtain ⟨hi, rfl⟩ := List.getElem?_eq_some_iff.mp hc
    exact (List.set_getElem_self hi).symm
  saves := rfl
  kept := id
  op := rfl
  rest := ht
  heard := (List.append_nil _).symm
  looked _ h := h
  looks hnone look hlook := by
    rw [hnone] at hlook
    cases hlook

theorem GoesOn.trans {w₁ w₂ : Watch κ ι σ ρ V M} {c₁ c₂ : Call κ ι σ ρ V M} {as as' : List ι}
    {t t' : Task ι σ ρ} {s s' : σ} (h : GoesOn w w₁ i c c₁ as t s)
    (h' : GoesOn w₁ w₂ i c₁ c₂ as' t' s') : GoesOn w w₂ i c c₂ (as ++ as') t' s' where
  shared := h'.shared
  calls := by rw [h'.calls, h.calls, List.set_set]
  saves := h'.saves.trans h.saves
  kept hk := h'.kept (h.kept hk)
  op := h'.op.trans h.op
  rest := h'.rest
  heard := by rw [h'.heard, h.heard, List.append_assoc]
  looked look hlook := h'.looked look (h.looked look hlook)
  looks hnone look hlook := by
    cases h₁ : c₁.looked with
    | none => rw [h'.looks h₁ look hlook, h.saves]
    | some look₁ =>
      obtain rfl := Option.some.inj ((h'.looked look₁ h₁).symm.trans hlook)
      exact h.looks hnone look₁ h₁

theorem GoesOn.here {w' : Watch κ ι σ ρ V M} {c' : Call κ ι σ ρ V M} {as : List ι}
    {t : Task ι σ ρ} {s : σ} (h : GoesOn w w' i c c' as t s) (hc : w.calls[i]? = some c) :
    w'.calls[i]? = some c' := by
  rw [h.calls]
  exact List.getElem?_set_self (List.getElem?_eq_some_iff.mp hc).1

/-- A call goes on alone until it waits again. -/
theorem Runs.goes {w₀ : Watch κ ι σ ρ V M} (run : Runs view marks code w₀ w)
    (hc : w.calls[i]? = some c) {t : Task ι σ ρ} (ht : c.rest = t) (as : List ι)
    (hquiet : t.Quietly view marks as w.shared) :
    ∃ w' c', Runs view marks code w₀ w' ∧
      GoesOn w w' i c c' as (t.left as w.shared) (t.solo as w.shared) := by
  -- along the call's own steps, with the answers that it gets
  induction t generalizing w c as with
  | ret a =>
    obtain rfl : as = [] := hquiet
    exact ⟨w, c, run, .refl hc ht⟩
  | fail =>
    obtain rfl : as = [] := hquiet
    exact ⟨w, c, run, .refl hc ht⟩
  | act f k ih =>
    obtain ⟨hf, hkept, hquiet⟩ := hquiet
    let c₁ : Call κ ι σ ρ V M :=
      { c with rest := k w.shared, looked := some (w.look view marks c) }
    have hstep : GoesOn w (w.acted view marks i c (f w.shared) (k w.shared)) i c c₁ []
        (k w.shared) (f w.shared) :=
      { shared := rfl, calls := rfl, saves := rfl, kept := fun hk => ⟨hk, hkept⟩, op := rfl,
        rest := rfl, heard := (List.append_nil _).symm
        looked := fun look hlook => by
          have hlook' : c.looked = some look := hlook
          show some (w.look view marks c) = some look
          rw [Watch.look, hlook']
          rfl
        looks := fun hnone look hlook => by
          obtain rfl := Option.some.inj hlook
          rw [Watch.look, hnone]
          rfl }
    obtain ⟨w', c', run', hgoes⟩ := ih w.shared (run.tail (.act hc ht hf)) (hstep.here hc) rfl as
      hquiet
    exact ⟨w', c', run', hstep.trans hgoes⟩
  | ask k ih =>
    rcases as with - | ⟨a, as⟩
    · exact ⟨w, c, run, .refl hc ht⟩
    · let c₁ : Call κ ι σ ρ V M := { c with rest := k a, heard := c.heard ++ [a] }
      have hstep : GoesOn w { w with calls := w.calls.set i c₁ } i c c₁ [a] (k a) w.shared :=
        { shared := rfl, calls := rfl, saves := rfl, kept := id, op := rfl, rest := rfl,
          heard := rfl, looked := fun look hlook => hlook
          looks := fun hnone look hlook => by
            have hlook' : c.looked = some look := hlook
            rw [hnone] at hlook'
            cases hlook' }
      obtain ⟨w', c', run', hgoes⟩ := ih a (run.tail (.ask hc ht a)) (hstep.here hc) rfl as hquiet
      exact ⟨w', c', run', hstep.trans hgoes⟩

/-- No first answer fails if that of the one call that has changed does not. -/
theorem heard_set {calls : List (Call κ ι σ ρ V M)} {c' : Call κ ι σ ρ V M}
    (h : ∀ c ∈ calls, ∀ a ∈ c.heard.head?, ¬ fails a) (h' : ∀ a ∈ c'.heard.head?, ¬ fails a) :
    ∀ c ∈ calls.set i c', ∀ a ∈ c.heard.head?, ¬ fails a := by
  intro d hd
  rcases List.mem_or_eq_of_mem_set hd with hd | rfl
  · exact h d hd
  · exact h'

/-- A call that goes on without a save disturbs nothing. -/
theorem GoesOn.undisturbed {w' : Watch κ ι σ ρ V M} {c' : Call κ ι σ ρ V M} {as : List ι}
    {t : Task ι σ ρ} {s : σ} (hgoes : GoesOn w w' i c c' as t s) (h : w.Undisturbed fails)
    (hfirst : ∀ a ∈ (c.heard ++ as).head?, ¬ fails a) : w'.Undisturbed fails where
  seen := by
    rw [hgoes.saves]
    exact h.seen
  kept := hgoes.kept h.kept
  heard := by
    rw [hgoes.calls]
    refine heard_set h.heard ?_
    rw [hgoes.heard]
    exact hfirst

/-- A call that has looked since the last save still has. -/
theorem GoesOn.fresh {w' : Watch κ ι σ ρ V M} {c' : Call κ ι σ ρ V M} {as : List ι}
    {t : Task ι σ ρ} {s : σ} (hgoes : GoesOn w w' i c c' as t s)
    (h : ∀ look ∈ c.looked, look.since = w.saves.length) :
    ∀ look ∈ c'.looked, look.since = w'.saves.length := by
  intro look hlook
  rw [hgoes.saves]
  cases hc : c.looked with
  | none => exact hgoes.looks hc look hlook
  | some before =>
    obtain rfl := Option.some.inj ((hgoes.looked before hc).symm.trans hlook)
    exact h before hc

/-- Call `i` has become `c'`, with this answer, and saved. -/
structure SavesNow (w w' : Watch κ ι σ ρ V M) (i : Nat) (c c' : Call κ ι σ ρ V M) (a : ι)
    (t : Task ι σ ρ) (s : σ) : Prop where
  shared : w'.shared = s
  calls : w'.calls = w.calls.set i c'
  saves : ∃ save, w'.saves = w.saves ++ [save] ∧
    (save.look.since = w.saves.length ∨ ∃ look ∈ c.looked, save.look.since = look.since)
  kept : w.kept → w'.kept
  op : c'.op = c.op
  rest : c'.rest = t
  heard : c'.heard = c.heard ++ [a]

/-- A call that waits is answered, and saves. -/
theorem Runs.saves {w₀ : Watch κ ι σ ρ V M} (run : Runs view marks code w₀ w)
    (hc : w.calls[i]? = some c) {k : ι → Task ι σ ρ} (ht : c.rest = .ask k) (a : ι) {f : σ → σ}
    {k' : σ → Task ι σ ρ} (hk : k a = .act f k') (hf : ¬ Task.Leaves view f)
    (hkept : marks w.shared ⊆ marks (f w.shared)) :
    ∃ w' c', Runs view marks code w₀ w' ∧ SavesNow w w' i c c' a (k' w.shared) (f w.shared) := by
  let c₁ : Call κ ι σ ρ V M := { c with rest := k a, heard := c.heard ++ [a] }
  have hhere : (w.calls.set i c₁)[i]? = some c₁ :=
    List.getElem?_set_self (List.getElem?_eq_some_iff.mp hc).1
  refine ⟨_, _, (run.tail (.ask hc ht a)).tail (.save hhere hk hf), rfl, List.set_set ..,
    ⟨_, rfl, ?_⟩, fun hkept' => ⟨hkept', hkept⟩, rfl, rfl, rfl⟩
  cases hlook : c.looked with
  | none =>
    left
    show (c.looked.getD _).since = _
    rw [hlook]
    rfl
  | some look =>
    right
    refine ⟨look, rfl, ?_⟩
    show (c.looked.getD _).since = _
    rw [hlook]
    rfl

/-- Nor does a save of what was just looked at. -/
theorem SavesNow.undisturbed {w' : Watch κ ι σ ρ V M} {c' : Call κ ι σ ρ V M} {a : ι}
    {t : Task ι σ ρ} {s : σ} (hsaves : SavesNow w w' i c c' a t s) (h : w.Undisturbed fails)
    (hfirst : ∀ b ∈ (c.heard ++ [a]).head?, ¬ fails b)
    (hfresh : ∀ look ∈ c.looked, look.since = w.saves.length) : w'.Undisturbed fails where
  seen j save hj := by
    obtain ⟨last, hlast, hsince⟩ := hsaves.saves
    have hnew : last.look.since = w.saves.length := by
      rcases hsince with hsince | ⟨look, hlook, hsince⟩
      · exact hsince
      · rw [hsince, hfresh look hlook]
    rw [hlast] at hj
    rcases lt_trichotomy j w.saves.length with hlt | rfl | hgt
    · exact h.seen j save ((List.getElem?_append_left hlt).symm.trans hj)
    · obtain rfl := Option.some.inj (List.getElem?_concat_length.symm.trans hj)
      exact hnew
    · rw [List.getElem?_eq_none (by rw [List.length_append]; exact hgt)] at hj
      cases hj
  kept := hsaves.kept h.kept
  heard := by
    rw [hsaves.calls]
    refine heard_set h.heard ?_
    rw [hsaves.heard]
    exact hfirst

end Watch

end OkRn
