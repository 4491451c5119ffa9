/-
OkRn/Edge/Ledger.lean

What a history says: the chain, the debt, the salt and the restored record, each
read off the entries alone.

These are the terms the properties of a run are stated in.  None of them looks
at the key's own state; the invariants of the later modules say that the state
agrees with them.
-/
import OkRn.Edge.Run
import OkRn.Lib.History

namespace OkRn.Edge

/-! ### Kinds of links and entries -/

namespace Link

/-- A sign or decrypt that ran without a press: a budget use. -/
def selfPress (l : Link) : Bool :=
  (l.op == opSign || l.op == opDecrypt) && l.decision == decisionSelfPress

/-- A budget use that owes a receipt. -/
def owing (l : Link) : Bool := l.selfPress && l.flags &&& flagOwesReceipt != 0

/-- A receipt made by a press over the use of `seq`. -/
def pressedSettle (env : Env) (seq : UInt32) (l : Link) : Bool :=
  l.op == opReceipt && l.decision == codeNeedsReview && l.flags &&& flagPressObserved != 0
    && l.subject == env.H "OKEDGE-SETTLE-v1" [(Bytes.le32 seq).toList]

/-- A receipt that refers to the owed use, or a settle of it made by a press. -/
def pays (env : Env) (d : OwedUse) (l : Link) : Bool :=
  (l.op == opReceipt && l.grantId == d.seq) || l.pressedSettle env d.seq

end Link

namespace Entry

/-- Neither a link, nor a TX start, nor anything that touches the record. -/
def silent : Entry → Bool
  | .primed .. | .label .. | .consumed | .asked .. | .opened .. | .ran _ => true
  | _ => false

/-- What a debt shuts out: a budget use, the opening or resuming of a budget, a TX start. -/
def starts : Entry → Bool
  | .link w => w.link.selfPress || w.link.op == opGrantCreate || w.link.op == opGrantResume
  | .txStart .. => true
  | _ => false

/-- A restore or a wipe. -/
def isReset : Entry → Bool
  | .restored _ | .wiped => true
  | _ => false

/-- Not a restart on a generation that had just wrapped to 0. -/
def clean : Entry → Bool
  | .boot _ clean => clean
  | _ => true

/-- Not a link numbered as "no link yet". -/
def short : Entry → Bool
  | .link w => w.link.seq != seqNone
  | _ => true

end Entry

/-- No restart found the generation wrapped to 0. -/
def CleanBoots (log : List Entry) : Prop := ∀ e ∈ log, e.clean = true

/-- No restore and no wipe. -/
def NoReset (log : List Entry) : Prop := ∀ e ∈ log, e.isReset = false

/-- The 32-bit seq never reached its last value. -/
def Short (log : List Entry) : Prop := ∀ e ∈ log, e.short = true

instance : DecidablePred CleanBoots := fun log =>
  inferInstanceAs (Decidable (∀ e ∈ log, e.clean = true))

instance : DecidablePred NoReset := fun log =>
  inferInstanceAs (Decidable (∀ e ∈ log, e.isReset = false))

instance : DecidablePred Short := fun log =>
  inferInstanceAs (Decidable (∀ e ∈ log, e.short = true))

/-- The earlier restarts were clean too. -/
theorem CleanBoots.append {seg log : List Entry} (h : CleanBoots (seg ++ log)) : CleanBoots log :=
  fun e he => h e (by simp [he])

/-- The earlier chain was shorter. -/
theorem Short.append {seg log : List Entry} (h : Short (seg ++ log)) : Short log :=
  fun e he => h e (by simp [he])

/-! ### The folds -/

/-- The chain: the links since the salt was drawn, newest first. -/
def chainOf : List Entry → List Welded
  | [] => []
  | .link w :: l => w :: chainOf l
  | .salt _ :: _ | .restored _ :: _ | .wiped :: _ => []
  | _ :: l => chainOf l

/-- The debt: the latest budget use, until its receipt or a pressed settle. -/
def debtOf (env : Env) : List Entry → Option OwedUse
  | [] => none
  | .link w :: l =>
      if w.link.owing then some ⟨w.link.seq, w.head⟩
      else (debtOf env l).filter fun d => !w.link.pays env d
  | .restored r :: _ => if r.owes then some r.owed else none
  | .wiped :: _ => none
  | _ :: l => debtOf env l

/-- The salt drawn since the last restore or wipe. -/
def saltOf : List Entry → Option Digest
  | [] => none
  | .salt s :: _ => some s
  | .restored _ :: _ | .wiped :: _ => none
  | _ :: l => saltOf l

/-- The restored record the chain continues. -/
def originOf : List Entry → Option EdgeState
  | [] => none
  | .restored r :: _ => some r
  | .wiped :: _ => none
  | _ :: l => originOf l

section Silent

variable {e : Entry} {seg log : List Entry}

theorem chainOf_silent (h : e.silent = true) : chainOf (e :: log) = chainOf log := by
  cases e <;> simp_all [Entry.silent, chainOf]

theorem debtOf_silent (env : Env) (h : e.silent = true) :
    debtOf env (e :: log) = debtOf env log := by
  cases e <;> simp_all [Entry.silent, debtOf]

theorem flashOf_silent (h : e.silent = true) : flashOf (e :: log) = flashOf log := by
  cases e <;> simp_all [Entry.silent, flashOf]

variable (h : ∀ e ∈ seg, e.silent = true)
include h

/-- Silent entries leave the chain. -/
theorem chainOf_append : chainOf (seg ++ log) = chainOf log :=
  History.append_of_ignored fun e he _ => chainOf_silent (h e he)

theorem debtOf_append (env : Env) : debtOf env (seg ++ log) = debtOf env log :=
  History.append_of_ignored fun e he _ => debtOf_silent env (h e he)

theorem flashOf_append : flashOf (seg ++ log) = flashOf log :=
  History.append_of_ignored fun e he _ => flashOf_silent (h e he)

end Silent

end OkRn.Edge
