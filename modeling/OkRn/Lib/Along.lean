/-
OkRn/Lib/Along.lean

Properties that hold all along a run.

`holds_along_iff`: if, in a state where the property holds, an event keeps it
exactly when it meets a condition there, then the property holds all along a run
exactly when every event of it met the condition where it happened.
-/
import Mathlib.Data.List.Induction

namespace OkRn

variable {σ ε : Type} {step : σ → ε → σ} {s₀ : σ} {Inv P : σ → Prop} {Cond : σ → ε → Prop}

/-- What every event keeps holds all along a run. -/
theorem inv_along (h₀ : Inv s₀) (hstep : ∀ s e, Inv s → Inv (step s e)) (es : List ε) :
    Inv (es.foldl step s₀) := by
  induction es using List.reverseRecOn with
  | nil => exact h₀
  | append_singleton l e ih =>
    rw [List.foldl_append]
    exact hstep _ e ih

/-- A property that an event keeps exactly when a condition holds at it. -/
theorem holds_along_iff (h₀ : Inv s₀) (hinv : ∀ s e, Inv s → Inv (step s e)) (hP : P s₀)
    (hstep : ∀ s e, Inv s → P s → (P (step s e) ↔ Cond s e)) (es : List ε) :
    (∀ p, p <+: es → P (p.foldl step s₀)) ↔
      ∀ p e, p ++ [e] <+: es → Cond (p.foldl step s₀) e := by
  have hinv' := fun p => inv_along h₀ hinv p
  have hnext (p : List ε) (e : ε) :
      (p ++ [e]).foldl step s₀ = step (p.foldl step s₀) e := List.foldl_append
  constructor
  · intro h p e hp
    have hbefore := h p ((List.prefix_append p [e]).trans hp)
    refine (hstep _ e (hinv' p) hbefore).mp ?_
    rw [← hnext]
    exact h _ hp
  · intro h p
    induction p using List.reverseRecOn with
    | nil => exact fun _ => hP
    | append_singleton l e ih =>
      intro hp
      rw [hnext]
      exact (hstep _ e (hinv' l) (ih ((List.prefix_append l [e]).trans hp))).mpr (h l e hp)

/-- The same without an invariant. -/
theorem steps_along_iff (hP : P s₀) (hstep : ∀ s e, P s → (P (step s e) ↔ Cond s e))
    (es : List ε) :
    (∀ p, p <+: es → P (p.foldl step s₀)) ↔
      ∀ p e, p ++ [e] <+: es → Cond (p.foldl step s₀) e := by
  let Any : σ → Prop := fun _ => True
  have hfirst : Any s₀ := trivial
  have hnext : ∀ s e, Any s → Any (step s e) := fun _ _ _ => trivial
  exact holds_along_iff hfirst hnext hP (fun s e _ => hstep s e) es

/-! ### Runs that meet a condition -/

/-- Every event meets the condition where it happens. -/
def AllAlong (step : σ → ε → σ) (Cond : σ → ε → Prop) : σ → List ε → Prop
  | _, [] => True
  | s, e :: es => Cond s e ∧ AllAlong step Cond (step s e) es

instance decidableAllAlong [h : ∀ s e, Decidable (Cond s e)] (s : σ) (es : List ε) :
    Decidable (AllAlong step Cond s es) := by
  induction es generalizing s with
  | nil => exact isTrue trivial
  | cons e es ih => exact @instDecidableAnd _ _ (h s e) (ih (step s e))

/-- A stronger condition all along. -/
theorem AllAlong.imp {Cond' : σ → ε → Prop} {s : σ} {es : List ε} (h : AllAlong step Cond s es)
    (himp : ∀ s, ∀ e ∈ es, Cond s e → Cond' s e) : AllAlong step Cond' s es := by
  induction es generalizing s with
  | nil => exact trivial
  | cons e es ih =>
    exact ⟨himp s e (by simp) h.1, ih h.2 fun s e' he' => himp s e' (by simp [he'])⟩

/-- What an event that meets the condition keeps, a run of such events keeps. -/
theorem AllAlong.keeps {s : σ} {es : List ε} (h : AllAlong step Cond s es) (hs : Inv s)
    (hstep : ∀ s e, Inv s → Cond s e → Inv (step s e)) : Inv (es.foldl step s) := by
  induction es generalizing s with
  | nil => exact hs
  | cons e es ih => exact ih h.2 (hstep s e hs h.1)

/-- What such events keep holds wherever one of them happens. -/
theorem AllAlong.before {s : σ} {es : List ε} (h : AllAlong step Cond s es) (hs : Inv s)
    (hstep : ∀ s e, Inv s → Cond s e → Inv (step s e)) {p : List ε} {e : ε}
    (hp : p ++ [e] <+: es) : Inv (p.foldl step s) ∧ Cond (p.foldl step s) e := by
  induction p generalizing s es with
  | nil =>
    obtain ⟨rest, rfl⟩ := hp
    exact ⟨hs, h.1⟩
  | cons x p ih =>
    obtain ⟨rest, rfl⟩ := hp
    exact ih h.2 (hstep s x hs h.1) (List.prefix_append _ rest)

end OkRn
