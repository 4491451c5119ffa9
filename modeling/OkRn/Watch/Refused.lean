/-
OkRn/Watch/Refused.lean

Refused TX starts: the key counts them, the watch tells of them.

The key counts to 255 and starts again at 0 with every start; the phone keeps the
last count a watch round saw.  A round posts what the count rose by.  So a count
that falls at a restart and rises again before the next round is told of only
from the old count on (`refusals_are_posted`).

A round reads the key's head once, and rounds run one at a time; what the phone
remembers is changed by rounds alone.  A round is therefore one event.

`refusal_goes_unposted` is such a run.
-/
import OkRn.Edge.Recv
import OkRn.Lib.Along

namespace OkRn.Watch

open OkRn.Edge

/-! ### The count -/

/-- What `refuse_tx` makes of the count. -/
def counted (n : Nat) : Nat := if n < 255 then n + 1 else n

/-- A refused start of the key counts so. -/
theorem refuseTx_counted (code : UInt8) (k : Key) :
    (k.refuseTx code).refusedTx = counted k.refusedTx := rfl

theorem refusePending_counted (k : Key) : k.refusePending.refusedTx = counted k.refusedTx := rfl

/-- A key that starts counts from 0. -/
theorem fresh_counted (flash : Bool → Sector) (core : Core) (log : List Entry) :
    (Key.fresh flash core log).refusedTx = 0 := rfl

/-- A count that went up is not 0. -/
theorem counted_pos (n : Nat) : 0 < counted n := by
  unfold counted
  split <;> omega

theorem le_counted (n : Nat) : n ≤ counted n := by
  unfold counted
  split <;> omega

/-! ### A watch round -/

/-- The refused starts in `raiseWatchAlarms`: how many are posted, if any, and what is kept. -/
def raiseRefused (refused : Nat) (kept : Option Nat) : Option Nat × Option Nat :=
  let lastRefused := kept.getD 0
  (if lastRefused < refused then some (refused - lastRefused) else none,
    if refused ≠ lastRefused then some refused else kept)

@[simp] theorem raiseRefused_kept (refused : Nat) (kept : Option Nat) :
    (raiseRefused refused kept).2.getD 0 = refused := by
  by_cases h : refused = kept.getD 0
  · simp [raiseRefused, h]
  · simp [raiseRefused, h]

/-- What is posted is what it rose by. -/
theorem raiseRefused_sum (refused : Nat) (kept : Option Nat) :
    (raiseRefused refused kept).1.toList.sum = refused - kept.getD 0 := by
  by_cases h : kept.getD 0 < refused
  · simp [raiseRefused, h]
  · have hzero : refused - kept.getD 0 = 0 := by omega
    simp [raiseRefused, h, hzero]

/-- What may happen to the count, and to the phone. -/
inductive Event
  /-- A TX start is refused. -/
  | refused
  /-- The key starts anew. -/
  | restart
  /-- A watch round. -/
  | round
  deriving DecidableEq

/-- A key and the phone that watches it.  All but `count` and `kept` is about the present session
of the key. -/
structure World where
  /-- What the key has counted. -/
  count : Nat
  /-- The stored count. -/
  kept : Option Nat
  /-- There was a round. -/
  looked : Bool
  /-- The starts refused. -/
  refused : Nat
  /-- The starts refused before the last round. -/
  before : Nat
  /-- The count at the last round. -/
  seen : Nat
  /-- What the rounds posted. -/
  posted : List Nat
  deriving DecidableEq

namespace World

/-- The key has just started. -/
def started (kept : Option Nat) : World := ⟨0, kept, false, 0, 0, 0, []⟩

/-- One event. -/
def step (w : World) : Event → World
  | .refused => { w with count := counted w.count, refused := w.refused + 1 }
  | .restart => started w.kept
  | .round =>
      let r := raiseRefused w.count w.kept
      { w with
        kept := r.2
        looked := true
        before := w.refused
        seen := w.count
        posted := w.posted ++ r.1.toList }

/-- The world after these events, on a phone that never watched. -/
def run (history : List Event) : World := history.foldl step (started none)

/-- The session's refused starts are told of: by some post if there were any before its last
round, and in all as many as the key had counted then. -/
def Reported (w : World) : Prop :=
  (0 < w.before → w.posted ≠ []) ∧ w.posted.sum = w.seen

instance (w : World) : Decidable w.Reported := inferInstanceAs (Decidable (_ ∧ _))

/-- The session was looked at before, or its count is still 0, or the phone remembers 0. -/
def Followed (w : World) : Prop := w.looked = true ∨ w.count = 0 ∨ w.kept.getD 0 = 0

/-! ### What every run keeps -/

/-- What holds in every run. -/
structure Inv (w : World) : Prop where
  counted : 0 < w.refused → 0 < w.count
  before : 0 < w.before → 0 < w.seen
  first : w.looked = false → w.posted = [] ∧ w.seen = 0
  kept : w.looked = true → w.kept.getD 0 = w.seen
  grown : w.seen ≤ w.count

/-- A key that has just started. -/
theorem inv_started (kept : Option Nat) : Inv (started kept) where
  counted h := h
  before h := h
  first _ := ⟨rfl, rfl⟩
  kept h := by cases h
  grown := le_rfl

theorem Inv.step {w : World} (h : w.Inv) (e : Event) : (w.step e).Inv := by
  cases e with
  | refused =>
    exact { h with
      counted := fun _ => counted_pos w.count
      grown := h.grown.trans (le_counted w.count) }
  | restart => exact inv_started w.kept
  | round =>
    exact {
      counted := h.counted
      before := h.counted
      first := fun hl => by cases hl
      kept := fun _ => raiseRefused_kept w.count w.kept
      grown := le_rfl }

/-! ### When a session is told of -/

theorem reported_started (kept : Option Nat) : (started kept).Reported :=
  ⟨fun h => absurd h (Nat.lt_irrefl 0), rfl⟩

/-- A round keeps the session told of exactly if it could follow the count. -/
theorem reported_round {w : World} (hinv : w.Inv) (h : w.Reported) :
    (w.step .round).Reported ↔ w.Followed := by
  have hsum : (w.step .round).posted.sum = w.seen + (w.count - w.kept.getD 0) := by
    simp [World.step, List.sum_append, raiseRefused_sum, h.2]
  constructor
  · -- a first look at a count over one remembered posts too little
    rintro ⟨-, hcount⟩
    rw [hsum] at hcount
    change _ = w.count at hcount
    rcases hl : w.looked with - | -
    · have hseen := (hinv.first hl).2
      right
      omega
    · exact Or.inl hl
  · intro hf
    have hcount : (w.step .round).posted.sum = w.count := by
      rw [hsum]
      have hgrown := hinv.grown
      rcases hl : w.looked with - | -
      · have hseen := (hinv.first hl).2
        rcases hf with hf | hf | hf
        · rw [hl] at hf
          cases hf
        · omega
        · omega
      · have hkept := hinv.kept hl
        omega
    refine ⟨fun hbefore hnil => ?_, hcount⟩
    have hpos : 0 < w.count := hinv.counted hbefore
    rw [hnil] at hcount
    exact absurd hcount (Nat.ne_of_lt hpos)

/-- Only a round changes what the session was told. -/
theorem reported_step {w : World} (hinv : w.Inv) (h : w.Reported) (e : Event) :
    (w.step e).Reported ↔ (e = .round → w.Followed) := by
  cases e with
  | refused => exact iff_of_true h fun he => by cases he
  | restart => exact iff_of_true (reported_started w.kept) fun he => by cases he
  | round =>
    rw [reported_round hinv h]
    exact ⟨fun hf _ => hf, fun hf => hf rfl⟩

/-- Every session is told of all along a history exactly if every round in it could follow the
count: it was not the session's first look, or the count was still 0, or the phone remembered 0. -/
theorem refusals_are_posted (history : List Event) :
    (∀ p, p <+: history → (run p).Reported) ↔
      ∀ p, p ++ [.round] <+: history → (run p).Followed := by
  have h := holds_along_iff (inv_started none) (fun _ e hw => hw.step e) (reported_started none)
    (fun _ e hinv hw => reported_step hinv hw e) history
  refine h.trans ⟨fun hf p hp => hf p _ hp rfl, fun hf p e hp he => ?_⟩
  subst he
  exact hf p hp

/-- A refusal before and one after a restart, each with a round behind it: the second round sees
the count it remembers. -/
theorem refusal_goes_unposted :
    ¬ ∀ (history p : List Event), p <+: history → (run p).Reported := by
  intro h
  exact absurd
    (h [.refused, .round, .restart, .refused, .round] _ (List.prefix_refl _)) (by decide)

end World

end OkRn.Watch
