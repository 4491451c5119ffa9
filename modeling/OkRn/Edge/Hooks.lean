/-
OkRn/Edge/Hooks.lean

The decision points, the wipe and the backup section.

`runPendingOp` is the first line of `okcore_run_pending_op()` as plugin.js
writes it: a refused request ends there, and else the approval is decided
before the operation runs.
-/
import OkRn.Edge.Grant

namespace OkRn.Edge

/-- How a wait for a press ended. -/
inductive Decision
  | approve | deny | timeout
  deriving DecidableEq

namespace Budget

/-- One more use of the budget and of its scope `j`. -/
def charge (b : Budget) (j : Fin 4) : Budget :=
  { b with
    used := b.used + 1
    scopes := Function.update b.scopes j
      { b.scopes j with used := (b.scopes j).used + 1 } }

/-- The value the last use reveals: v_i = H^(n-i)(seed). -/
def reveal (env : Env) (b : Budget) : Digest := hashTimes env b.seed (b.uses - b.used)

end Budget

namespace Key

/-- Is the waiting OKEDGE request still inside its 25 s? -/
def pressFresh (env : Env) (t : Clock) (k : Key) : Bool :=
  k.press.what != .none && decide (env.since (t.millis 0) k.press.since ≤ pressMs)

/-- What an approved OKEDGE press runs. -/
def pressed (env : Env) (t : Clock) (k : Key) : Key :=
  match k.press.what with
  | .grant => k.grantPressed env t
  | .resume => k.resumePressed env t
  | .settle => k.settlePressed env t
  | .loss => k.lossPressed env
  | .none => k

/-- `okplugin_edge_decision` of an OKEDGE request. -/
def decidePress (env : Env) (t : Clock) (d : Draw) (dec : Decision) (k : Key) : Key :=
  if dec ≠ .approve ∨ !k.pressFresh env t then k.pressDrop
  else match k.ensureIdentity env d with
    | (k, false) => k.pressDrop.status edgeNeedPin
    | (k, true) => (k.pressed env (t.after 1)).pressDrop

/-- The budget use: one more use of the budget and of the scope, and its self-press link. -/
def spend (env : Env) (i j : Fin 4) (k : Key) : Key :=
  let b := (k.budgets i).charge j
  let nextIntent := if k.pend.intent.isSome then k.pend.intent else k.nextIntent
  ({ k with
    budgets := Function.update k.budgets i b
    nextIntent := nextIntent }).appendScoped env (opOf k.pend.opcode) decisionSelfPress
      k.pend.slot (flagOwesReceipt ||| flagBudgetSpent) k.pend.subject b.id
      (UInt16.ofNat b.used) (UInt8.ofNat (j.val + 1)) (some (b.reveal env))

/-- The budget found at priming still pays, and names this scope. -/
def stillPays (t : Clock) (k : Key) : Option (Fin 4 × Fin 4) :=
  match k.pend.budget, k.budgetFor t (opOf k.pend.opcode) k.pend.slot k.pend.label with
  | some i, some (i', j) => if i = i' then some (i, j) else none
  | _, _ => none

/-- Nothing is pending any more. -/
def unpend (k : Key) : Key := { k with pend := { k.pend with active := false } }

/-- The use is linked when the budget still pays. -/
def takeUse (env : Env) (t : Clock) (k : Key) : Key :=
  match k.stillPays t with
  | some (i, j) => k.spend env i j
  | none => k

/-- `okplugin_edge_decision` of a sign or decrypt. -/
def decidePending (env : Env) (t : Clock) (d : Draw) (opcode : UInt8) (dec : Decision)
    (k : Key) : Key :=
  if !k.pend.active then k
  else if dec = .approve ∧ opcode ≠ k.pend.opcode then k
  else match k.unpend.ensureIdentity env d with
    | (k, false) => k
    | (k, true) => if dec = .approve then k.takeUse env t else k

/-- `okplugin_edge_decision`; `opcode` is `packet_buffer_details[0]`. -/
def decision (env : Env) (t : Clock) (d : Draw) (opcode : UInt8) (dec : Decision) (k : Key) :
    Key :=
  if opcode = okEdge then k.decidePress env t d dec
  else k.decidePending env t d opcode dec

/-- `okplugin_edge_refused`. -/
def refused (t : Clock) (k : Key) : Key × Bool :=
  if !k.pend.active then (k, false)
  else if k.pend.refuse ≠ 0 then
    ({ k.unpend with pend := { k.unpend.pend with refuse := 0 } }.status k.pend.refuse, true)
  else if k.pend.budget.isSome ∧ !k.pend.press ∧ k.stillPays t = none then
    (k.unpend.status edgeNothingToPay, true)
  else (k, false)

/-- The operation runs. -/
def ran (w : Waiting) (k : Key) : Key := { k with waiting := none }.push (.ran w)

/-- `okcore_run_pending_op`, up to the operation itself. -/
def runPendingOp (env : Env) (t : Clock) (d : Draw) (k : Key) : Key :=
  match k.waiting with
  | none => k
  | some w => match k.refused t with
    | (k, true) => { k with userInputMode := .challenge, waiting := none }
    | (k, false) => (k.decision env (t.after 4) d w.opcode .approve).ran w

/-- A wrong challenge, or the 20 s fade. -/
def giveUp (env : Env) (t : Clock) (d : Draw) (dec : Decision) (k : Key) : Key :=
  match k.waiting with
  | none => k
  | some w => { k.decision env t d w.opcode dec with waiting := none }

/-- `okplugin_edge_wipe`: both sectors erased, and an empty chain in RAM. -/
def wipe (k : Key) : Key :=
  { k.pressDrop with
    flash := fun _ => erased
    budgets := fun _ => Budget.blank
    held := fun _ => none
    ident := none
    st := EdgeState.empty
    loaded := true
    started := false
    pend := { k.pend with active := false } }.push .wiped

/-! ### The backup section -/

/-- The section: version 1, seq, head, the debt, and the device id. -/
def sectionBytes (id : DeviceId) (s : EdgeState) : List UInt8 :=
  1 :: ((Bytes.le32 s.seq).toList ++ (s.head.toList ++ (flagByte s.owes ::
    ((if s.owes then (Bytes.le32 s.owed.seq).toList ++ s.owed.head.toList else []) ++
      id.toList))))

/-- `okplugin_edge_backup`; no bytes when there is nothing to keep. -/
def backup (env : Env) (d : Draw) (max : Nat) (k : Key) : Key × List UInt8 :=
  match (k.stateLoad env).ensureIdentity env d with
  | (k, false) => (k, [])
  | (k, true) =>
      let len := 38 + (if k.st.owes then 36 else 0) + 16
      (k, if max < len ∨ k.st.seq = seqNone then [] else sectionBytes k.deviceId k.st)

/-- A section this build knows: version 1, a debt byte 0 or 1, and long enough. -/
def sectionOk (sec : List UInt8) : Bool :=
  decide (38 ≤ sec.length) && Bytes.at? sec 0 == 1 && decide (Bytes.at? sec 37 ≤ 1)
    && decide (38 + 36 * (Bytes.at? sec 37).toNat + 16 ≤ sec.length)

/-- The debt a section carries. -/
def sectionOwed (sec : List UInt8) : Option OwedUse :=
  if Bytes.at? sec 37 = 1 then
    some ⟨Bytes.ofLe32 (Bytes.slice sec 38 4), Bytes.slice sec 42 32⟩
  else none

/-- The record a section restores to, under the generation the key had. -/
def sectionState (gen : UInt32) (sec : List UInt8) : EdgeState :=
  { EdgeState.zero with
    gen := gen
    seq := Bytes.ofLe32 (Bytes.slice sec 1 4)
    head := Bytes.slice sec 5 32
    owes := (sectionOwed sec).isSome
    owed := (sectionOwed sec).getD OwedUse.blank
    cont := true
    contId := Bytes.slice sec (38 + 36 * (Bytes.at? sec 37).toNat) 16 }

/-- `okplugin_edge_restore`: the salt and the identity are dropped, a continue link is owed. -/
def restore (env : Env) (sec : List UInt8) (k : Key) : Key :=
  if !sectionOk sec then k
  else
    let k := k.stateLoad env
    let st := sectionState k.st.gen sec
    let k := { k with
      st := st
      ident := none
      held := fun _ => none
      budgets := fun _ => Budget.blank
      started := false
      loaded := true }
    (k.stateSave env).push (.restored st)

end Key

end OkRn.Edge
