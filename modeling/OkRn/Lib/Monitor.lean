/-
OkRn/Lib/Monitor.lean

Monitors: deterministic machines that read a list of letters and may refuse one.

A monitor says what a record of events may look like.  What it accepts is closed under
prefixes (`readFrom_split`), and a set of states that no letter leaves is where a record
stays for good: what none of its states reads comes no more (`Closed.never`).
-/
import Mathlib.Data.List.Induction

namespace OkRn

variable {α σ : Type*}

/-- A machine that reads letters, and refuses where it has no next state. -/
structure Monitor (α σ : Type*) where
  start : σ
  next : σ → α → Option σ

namespace Monitor

variable (M : Monitor α σ)

/-- The state after a list of letters. -/
def readFrom (s : σ) (l : List α) : Option σ := l.foldlM M.next s

/-- The state after a record, when every letter of it was read. -/
def read (l : List α) : Option σ := M.readFrom M.start l

variable {M} {s t : σ} {l xs ys : List α} {x : α}

@[simp] theorem readFrom_nil : M.readFrom s [] = some s := rfl

theorem readFrom_cons : M.readFrom s (x :: l) = (M.next s x).bind fun m => M.readFrom m l :=
  List.foldlM_cons

theorem readFrom_append :
    M.readFrom s (xs ++ ys) = (M.readFrom s xs).bind fun m => M.readFrom m ys :=
  List.foldlM_append

theorem read_concat : M.read (l ++ [x]) = (M.read l).bind fun m => M.next m x := by
  rw [read, readFrom_append, read]
  congr 1
  funext m
  rw [readFrom_cons]
  rcases M.next m x with - | t <;> rfl

/-- A letter of a record that was read. -/
theorem readFrom_split (h : M.readFrom s (xs ++ x :: ys) = some t) :
    ∃ a b, M.readFrom s xs = some a ∧ M.next a x = some b ∧ M.readFrom b ys = some t := by
  rw [readFrom_append] at h
  obtain ⟨a, ha, h⟩ := Option.bind_eq_some_iff.mp h
  rw [readFrom_cons] at h
  obtain ⟨b, hb, h⟩ := Option.bind_eq_some_iff.mp h
  exact ⟨a, b, ha, hb, h⟩

/-! ### Sets of states -/

variable (M) in
/-- No letter that `q` allows leaves these states. -/
def Closed (q : α → Prop) (C : σ → Prop) : Prop :=
  ∀ s x t, C s → q x → M.next s x = some t → C t

variable {C : σ → Prop} {p q : α → Prop}

/-- Letters that a closed set reads leave it nowhere. -/
theorem Closed.readFrom (hC : M.Closed q C) (hq : ∀ x ∈ l, q x) (hs : C s)
    (h : M.readFrom s l = some t) : C t := by
  induction l generalizing s with
  | nil =>
    obtain rfl := Option.some.inj h
    exact hs
  | cons x l ih =>
    rw [readFrom_cons] at h
    obtain ⟨m, hm, h⟩ := Option.bind_eq_some_iff.mp h
    have hx : C m := hC s x m hs (hq x List.mem_cons_self) hm
    exact ih (fun y hy => hq y (List.mem_cons_of_mem x hy)) hx h

/-- What the states of a closed set never read comes no more. -/
theorem Closed.never (hC : M.Closed q C) (hp : ∀ s x, C s → p x → M.next s x = none) (hs : C s)
    (hq : ∀ x ∈ xs, q x) (h : M.readFrom s (xs ++ x :: ys) = some t) : ¬ p x := by
  intro hpx
  obtain ⟨a, b, ha, hb, -⟩ := readFrom_split h
  rw [hp a x (hC.readFrom hq hs ha) hpx] at hb
  cases hb

/-- What the start has and each letter keeps. -/
theorem read_induction {P : List α → σ → Prop} (hstart : P [] M.start)
    (hnext : ∀ l s x t, P l s → M.next s x = some t → P (l ++ [x]) t) (h : M.read l = some s) :
    P l s := by
  induction l using List.reverseRecOn generalizing s with
  | nil =>
    obtain rfl := Option.some.inj h
    exact hstart
  | append_singleton l x ih =>
    rw [read_concat] at h
    obtain ⟨m, hm, h⟩ := Option.bind_eq_some_iff.mp h
    exact hnext l m x s (ih hm) h

end Monitor

end OkRn
