/-
OkRn/Edge/Prime.lean

Priming: the core hands an operation to `okplugin_edge_primed` and then waits
for its decision.

A sign or decrypt is recorded in `pend` and, when a TX start is pending, checked
against its token: another request than the announced one is set to be refused.
A budget that pays sets the no-press mode.  An OKEDGE request always takes a
press.
-/
import OkRn.Edge.Budget

namespace OkRn.Edge

/-- The token of a TX start: the head, the subject and the intent. -/
def tokenOf (env : Env) (head subject : Digest) (intent : Intent) : Digest :=
  env.H "OKEDGE-TX-v1" [head.toList, subject.toList, intent.toList]

/-- The link's op for the core's opcode. -/
def opOf (opcode : UInt8) : UInt8 := if opcode = okSign then opSign else opDecrypt

/-- The label a request on a derived code carries: the first bytes of its last 32. -/
def requestLabel (slot : UInt8) (msg : List UInt8) : Option (Bytes labelPrefix) :=
  if derivedCode slot && decide (32 ≤ msg.length) then
    some (Bytes.slice msg (msg.length - 32) labelPrefix)
  else none

namespace Key

/-- The pending TX start was for another request, or over another head. -/
def txMismatch (env : Env) (k : Key) : Bool :=
  k.started && tokenOf env k.st.head k.pend.subject k.txIntent != k.txToken

/-- The request is not the announced one: it is set to be refused, and the TX start is spent. -/
def refusePending (k : Key) : Key :=
  { k with
    started := false
    pend := { k.pend with refuse := edgeTxMismatch, press := false }
    refusedTx := if k.refusedTx < 255 then k.refusedTx + 1 else k.refusedTx
    userInputMode := .none }

/-- The announced request, or one with no TX start: does a budget pay for it? -/
def choosePayer (t : Clock) (k : Key) : Key :=
  match k.budgetFor t (opOf k.pend.opcode) k.pend.slot k.pend.label with
  | some (i, _) =>
      ({ k with
        pend := { k.pend with budget := some i, press := false }
        userInputMode := .none }).push (.primed k.st.head k.pend.subject)
  | none =>
      { k with
        started := false
        pend := { k.pend with press := k.userInputMode != .none } }

/-- `okplugin_edge_primed`. -/
def primed (env : Env) (t : Clock) (opcode slot : UInt8) (msg : List UInt8) (k : Key) : Key :=
  let k := { k with pend := { k.pend with active := false, budget := none } }
  if opcode = okEdge then { k with userInputMode := .press }
  else if opcode ≠ okSign ∧ opcode ≠ okDecrypt then k
  else
    let pend := { k.pend with
      active := true, intent := none, refuse := 0, opcode := opcode, slot := slot
      subject := env.sha256 msg, label := requestLabel slot msg }
    let k := ({ k with pend := pend }).stateLoad env
    if k.txMismatch env then k.refusePending
    else
      let intent := if k.started && k.txHasIntent then some k.txIntent else none
      ({ k with pend := { k.pend with intent := intent } }).choosePayer t

/-- `okcore_prime_user_confirmation`, where plugin.js hooks it: the core sets the input mode
of the slot, calls `primed`, and then waits. -/
def okcorePrime (env : Env) (t : Clock) (opcode slot : UInt8) (msg : List UInt8)
    (mode : InputMode) (k : Key) : Key :=
  let k := ({ k with userInputMode := mode }).primed env t opcode slot msg
  let paid := k.pend.active && k.pend.budget.isSome
  { k with waiting := some ⟨opcode, slot, msg, k.userInputMode, paid⟩ }

/-- `press_wait`: the request waits for the physical press. -/
def pressWait (env : Env) (t : Clock) (what : PressKind) (subject : Digest) (request : Report)
    (k : Key) : Key :=
  let k := { k with press := { k.press with what := what, since := t.millis 0 } }
  (k.okcorePrime env t okEdge 0 subject.toList .press).push (.asked what request (t 0))

/-- `press_drop`. -/
def pressDrop (k : Key) : Key := { k with press := Press.blank }

end Key

end OkRn.Edge
