/-
OkRn/Edge/Budget.lean

Budgets: what a scope may name, when a budget is alive, which budget pays for a
use, and how one ends.

Each reading of the clock is at a place of its own in `t`: the loops over the
four places read it once a place, so two readings of one request need not agree.
-/
import OkRn.Edge.Identity

namespace OkRn.Edge

/-- `derived_code`: the identity is in the request, not in the slot. -/
def derivedCode (slot : UInt8) : Bool :=
  (201 ≤ slot && slot ≤ 203) || (221 ≤ slot && slot ≤ 223)

/-- `scope_allowed`: what a budget may pay for. -/
def scopeAllowed (op slot : UInt8) : Bool :=
  let stored := (1 ≤ slot && slot ≤ 4) || (101 ≤ slot && slot ≤ 116)
  if op = opSign then stored || (201 ≤ slot && slot ≤ 203) || (221 ≤ slot && slot ≤ 223)
  else if op = opDecrypt then stored
  else false

/-- `alive`: `lifetime_ms` has not passed since the press, by the wrapping counter. -/
def alive (now : UInt32) (b : Budget) : Bool :=
  b.id != 0 && decide (now - b.opened ≤ b.lifetimeMs)

/-- `scope_matches`: op and slot and, on a derived code, the identity's label. -/
def scopeMatches (sc : Scope) (op slot : UInt8) (label : Option (Bytes labelPrefix)) : Bool :=
  if sc.op != op || sc.slot != slot then false
  else match sc.label with
    | none => true
    | some l => label == some l

/-- The scope of a budget that pays: the first that matches and has room. -/
def scopeFor (b : Budget) (op slot : UInt8) (label : Option (Bytes labelPrefix)) :
    Option (Fin 4) :=
  (List.finRange 4).find? fun j =>
    decide (j.val < b.nscopes) && scopeMatches (b.scopes j) op slot label
      && decide ((b.scopes j).used < (b.scopes j).cap)

/-- `hash_times`. -/
def hashTimes (env : Env) (v : Digest) (times : Nat) : Digest :=
  (fun x : Digest => env.sha256 x.toList)^[times] v

namespace Key

/-- `budgets_may_pay`. -/
def budgetsMayPay (k : Key) : Bool := k.core.unlocked && !k.core.configmode && !k.st.owes

/-- `head_is`: does the head the host verified still match? -/
def headIs (verified : List UInt8) (k : Key) : Bool :=
  k.st.head.toList.take verified.length == verified

/-- `budget_for`: the place and the scope that pay for this use. -/
def budgetFor (t : Clock) (op slot : UInt8) (label : Option (Bytes labelPrefix)) (k : Key) :
    Option (Fin 4 × Fin 4) :=
  if !k.started || !k.budgetsMayPay then none
  else (List.finRange 4).findSome? fun i =>
    let b := k.budgets i
    if !alive (t.millis i) b || b.onHold || decide (b.uses ≤ b.used) then none
    else (scopeFor b op slot label).map fun j => (i, j)

/-- `any_budget_payable`. -/
def anyBudgetPayable (t : Clock) (k : Key) : Bool :=
  (List.finRange 4).any fun i =>
    alive (t.millis i) (k.budgets i) && !(k.budgets i).onHold
      && decide ((k.budgets i).used < (k.budgets i).uses)

/-- `live_budget`. -/
def liveBudget (t : Clock) (id : UInt32) (k : Key) : Option (Fin 4) :=
  (List.finRange 4).find? fun i =>
    id != 0 && (k.budgets i).id == id && alive (t.millis i) (k.budgets i)

/-- `end_budget`: its RAM is cleared, then a grant-end link names it and how it ended. -/
def endBudget (env : Env) (how : UInt8) (i : Fin 4) (k : Key) : Key :=
  let id := (k.budgets i).id
  ({ k with budgets := Function.update k.budgets i Budget.blank }).append env
    opGrantEnd how 0 0 (Bytes.zero 32) id 0 none

/-- One round of the loop in `complete_fulfilled`. -/
def completeAt (env : Env) (t : Clock) (k : Key) (i : Fin 4) : Key :=
  if alive (t.millis i) (k.budgets i) && decide ((k.budgets i).uses ≤ (k.budgets i).used) then
    k.endBudget env endCompleted i
  else k

/-- `complete_fulfilled`: once nothing is owed, every live budget whose uses are all made ends. -/
def completeFulfilled (env : Env) (t : Clock) (k : Key) : Key :=
  if k.st.owes then k else (List.finRange 4).foldl (completeAt env t) k

end Key

end OkRn.Edge
