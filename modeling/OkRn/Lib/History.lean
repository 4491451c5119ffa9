/-
OkRn/Lib/History.lean

Histories: lists of entries, newest first, that only grow at the head.

A law about a history is usually one of two kinds.  It says what may be written
next after a given past (`Guarded`), and is kept when each new entry obeys it.
Or it relates the present state to a value computed from the past by a fold
that some entries do not matter to (`append_of_ignored`).  `recent` is the part
of a history newer than its newest boundary.
-/
import Mathlib.Data.List.Basic

namespace OkRn.History

variable {ε σ : Type*}

/-! ### What may be written next -/

/-- Each entry was allowed by the history before it. -/
def Guarded (ok : List ε → ε → Prop) (log : List ε) : Prop :=
  ∀ post e pre, log = post ++ e :: pre → ok pre e

variable {ok ok' : List ε → ε → Prop} {log pre seg : List ε} {e : ε}

theorem guarded_nil : Guarded ok [] := by
  intro post e pre h
  simp at h

/-- A history with one entry more. -/
theorem guarded_cons : Guarded ok (e :: log) ↔ ok log e ∧ Guarded ok log := by
  constructor
  · intro h
    refine ⟨h [] e log rfl, fun post e' pre hlog => ?_⟩
    exact h (e :: post) e' pre (by simp [hlog])
  · rintro ⟨he, h⟩ post e' pre hlog
    rcases post with - | ⟨e'', post⟩
    · obtain ⟨rfl, rfl⟩ : e = e' ∧ log = pre := by simpa using hlog
      exact he
    · obtain ⟨-, hlog'⟩ : e = e'' ∧ log = post ++ e' :: pre := by simpa using hlog
      exact h post e' pre hlog'

/-- An entry that obeys its past. -/
theorem Guarded.cons (h : Guarded ok log) (he : ok log e) : Guarded ok (e :: log) :=
  guarded_cons.mpr ⟨he, h⟩

theorem Guarded.mono (h : Guarded ok log) (himp : ∀ l e, ok l e → ok' l e) : Guarded ok' log :=
  fun post e pre hlog => himp pre e (h post e pre hlog)

/-- The older part of a history. -/
theorem Guarded.of_append (h : Guarded ok (seg ++ log)) : Guarded ok log :=
  fun post e pre hlog => h (seg ++ post) e pre (by rw [hlog, List.append_assoc])

/-- Entries that are always allowed do not matter. -/
theorem Guarded.append (h : Guarded ok log) (hseg : ∀ e ∈ seg, ∀ l, ok l e) :
    Guarded ok (seg ++ log) := by
  induction seg with
  | nil => exact h
  | cons e seg ih =>
    have hrest : Guarded ok (seg ++ log) := ih fun e' he' => hseg e' (by simp [he'])
    exact hrest.cons (hseg e (by simp) (seg ++ log))

instance Guarded.decidable [∀ past e, Decidable (ok past e)] :
    (log : List ε) → Decidable (Guarded ok log)
  | [] => isTrue guarded_nil
  | e :: log =>
    have : Decidable (Guarded ok log) := Guarded.decidable log
    decidable_of_iff (ok log e ∧ Guarded ok log) guarded_cons.symm

/-! ### Folds that ignore some entries -/

/-- A fold that ignores every entry of `seg`. -/
theorem append_of_ignored {f : List ε → σ} (h : ∀ e ∈ seg, ∀ l, f (e :: l) = f l) :
    f (seg ++ log) = f log := by
  induction seg with
  | nil => rfl
  | cons e seg ih =>
    have hrest : f (seg ++ log) = f log := ih fun e' he' => h e' (by simp [he'])
    rw [List.cons_append, h e (by simp), hrest]

/-- An entry that `seg` has none of lies before `seg`. -/
theorem split_of_forall {p : ε → Bool} {post : List ε} {x : ε} (hseg : ∀ e ∈ seg, p e = false)
    (hx : p x = true) (h : seg ++ log = post ++ x :: pre) :
    ∃ post', post = seg ++ post' ∧ log = post' ++ x :: pre := by
  induction seg generalizing post with
  | nil => exact ⟨post, rfl, h⟩
  | cons e seg ih =>
    have he : p e = false := hseg e (by simp)
    rcases post with - | ⟨e', post⟩
    · obtain ⟨rfl, -⟩ : e = x ∧ seg ++ log = pre := by simpa using h
      rw [hx] at he
      cases he
    · obtain ⟨rfl, hrest⟩ : e = e' ∧ seg ++ log = post ++ x :: pre := by simpa using h
      obtain ⟨post', rfl, hlog⟩ := ih (fun e' he' => hseg e' (by simp [he'])) hrest
      exact ⟨post', rfl, hlog⟩

/-! ### The recent part -/

/-- The entries newer than the newest boundary. -/
def recent (boundary : ε → Bool) (log : List ε) : List ε := log.takeWhile fun e => !boundary e

variable {boundary : ε → Bool}

/-- Nothing is recent at first. -/
@[simp] theorem recent_nil : recent boundary [] = [] := rfl

/-- An entry that is no boundary. -/
theorem recent_cons (h : boundary e = false) :
    recent boundary (e :: log) = e :: recent boundary log := by
  simp [recent, h]

/-- A boundary: nothing is newer. -/
theorem recent_cons_of_boundary (h : boundary e = true) : recent boundary (e :: log) = [] := by
  simp [recent, h]

/-- An entry that is no boundary is recent when none is newer than it. -/
theorem mem_recent (he : boundary e = false) :
    e ∈ recent boundary log ↔ ∃ seg pre, log = seg ++ e :: pre ∧ ∀ x ∈ seg, boundary x = false := by
  induction log with
  | nil => simp
  | cons x log ih =>
    cases hx : boundary x with
    | false =>
      rw [recent_cons hx, List.mem_cons, ih]
      constructor
      · rintro (rfl | ⟨seg, pre, rfl, hseg⟩)
        · exact ⟨[], log, rfl, by simp⟩
        · exact ⟨x :: seg, pre, rfl, List.forall_mem_cons.mpr ⟨hx, hseg⟩⟩
      · rintro ⟨seg, pre, hlog, hseg⟩
        rcases seg with - | ⟨y, seg⟩
        · exact .inl (List.cons.inj hlog).1.symm
        · exact .inr ⟨seg, pre, (List.cons.inj hlog).2, (List.forall_mem_cons.mp hseg).2⟩
    | true =>
      -- `e` is not the boundary, so the boundary would be newer
      rw [recent_cons_of_boundary hx]
      refine ⟨fun h => absurd h List.not_mem_nil, ?_⟩
      rintro ⟨seg, pre, hlog, hseg⟩
      rcases seg with - | ⟨y, seg⟩
      · obtain ⟨rfl, -⟩ := List.cons.inj hlog
        rw [he] at hx
        cases hx
      · obtain ⟨rfl, -⟩ := List.cons.inj hlog
        rw [(List.forall_mem_cons.mp hseg).1] at hx
        cases hx

end OkRn.History
