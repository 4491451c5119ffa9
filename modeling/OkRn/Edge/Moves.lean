/-
OkRn/Edge/Moves.lean

What the key can do in one go: the moves an event is made of.

A move saves at most once, and its save comes first (`Move.writes`).  So a power
cut, which falls at a save, leaves exactly the moves before that save, and every
key a run reaches is reached by moves and restarts (`Reachable.trace`).  An
invariant is then proved once for each move, and not once for each of the
requests that make it.

* `Ram` are the steps in the key's memory, `Act` the links of the requests;
* `Move` adds what is done to the record, and `Moves` is a run of moves of some kinds;
* `Trace` is a run of moves and restarts.
-/
import OkRn.Edge.Ledger

namespace OkRn.Edge

/-! ### Moves -/

/-- The kinds of moves. -/
inductive Label
  | quiet | stage | request | ask | prime | announce | record | grant | use | pay | restore | wipe
  deriving DecidableEq

/-- Nothing but the core's flags, the answers and the bookkeeping of the waiting operation; a
waiting press may be dropped. -/
structure Still (k k' : Key) : Prop where
  flash : k'.flash = k.flash
  st : k'.st = k.st
  loaded : k'.loaded = k.loaded
  ident : k'.ident = k.ident
  budgets : k'.budgets = k.budgets
  staged : k'.staged = k.staged
  started : k'.started = k.started
  txToken : k'.txToken = k.txToken
  txIntent : k'.txIntent = k.txIntent
  txHasIntent : k'.txHasIntent = k.txHasIntent
  nextIntent : k'.nextIntent = k.nextIntent
  held : k'.held = k.held
  press : k'.press = k.press ∨ k'.press = Press.blank
  pendBudget : k'.pend.budget = k.pend.budget
  pendSubject : k'.pend.subject = k.pend.subject
  pendIntent : k'.pend.intent = k.pend.intent
  log : k'.log = k.log ∨ (∃ w, k'.log = .ran w :: k.log) ∨ ∃ p t, k'.log = .opened p t :: k.log

/-- The links a key writes in a chain under way: the link, its reveal, and the budgets after it. -/
inductive Act (E : Env) (k : Key) :
    Label → Link → Option Digest → (Fin 4 → Budget) → Prop
  | spend {i j : Fin 4} {now : UInt32} (hpend : k.pend.budget = some i) (hstart : k.started = true)
      (hpay : k.budgetsMayPay = true) (halive : alive now (k.budgets i) = true)
      (hfree : (k.budgets i).onHold = false) (hroom : (k.budgets i).used < (k.budgets i).uses)
      (hscope : scopeFor (k.budgets i) (opOf k.pend.opcode) k.pend.slot k.pend.label = some j) :
      Act E k .use
        (k.nextLink (opOf k.pend.opcode) decisionSelfPress k.pend.slot
          (flagOwesReceipt ||| flagBudgetSpent) k.pend.subject (k.budgets i).id
          (UInt16.ofNat ((k.budgets i).used + 1)) (UInt8.ofNat (j.val + 1))
          (if k.pend.intent.isSome then k.pend.intent else k.nextIntent))
        (some (((k.budgets i).charge j).reveal E))
        (Function.update k.budgets i ((k.budgets i).charge j))
  | create (i : Fin 4) (now : UInt32) (hwhat : k.press.what = .grant) (howes : k.st.owes = false) :
      Act E k .grant
        (k.nextLink opGrantCreate decisionApprove 0 flagPressObserved (Grant.subject E k.press)
          (k.st.nextSeq + 1) 0 (UInt8.ofNat k.press.b.nscopes) k.nextIntent)
        none (Function.update k.budgets i (Grant.opened k.press (k.st.nextSeq + 1) now))
  | finish (how : UInt8) {i : Fin 4} (hid : (k.budgets i).id ≠ 0) :
      Act E k .use
        (k.nextLink opGrantEnd how 0 0 (Bytes.zero 32) (k.budgets i).id 0 0 k.nextIntent)
        none (Function.update k.budgets i Budget.blank)
  | hold {i : Fin 4} (hid : (k.budgets i).id ≠ 0) (hfree : (k.budgets i).onHold = false) :
      Act E k .use
        (k.nextLink opGrantHold decisionApprove 0 0 (Bytes.zero 32) (k.budgets i).id 0 0
          k.nextIntent)
        none (Function.update k.budgets i { k.budgets i with onHold := true })
  | resume {i : Fin 4} (hid : (k.budgets i).id ≠ 0) (hheld : (k.budgets i).onHold = true)
      (howes : k.st.owes = false) :
      Act E k .use
        (k.nextLink opGrantResume decisionApprove 0 flagPressObserved (Bytes.zero 32)
          (k.budgets i).id 0 0 k.nextIntent)
        none (Function.update k.budgets i { k.budgets i with onHold := false })
  | receipt (code : UInt8) (subject : Digest) (howes : k.st.owes = true) :
      Act E k .pay
        (k.nextLink opReceipt code 0 0 subject k.st.owed.seq 0 0 k.nextIntent) none k.budgets
  | settle (howes : k.st.owes = true) :
      Act E k .pay
        (k.nextLink opReceipt codeNeedsReview 0 flagPressObserved (settleSubject E k.st)
          k.st.owed.seq 0 0 k.nextIntent) none k.budgets
  | loss (first : UInt32) (subject : Digest) :
      Act E k .use
        (k.nextLink opLoss decisionApprove 0 flagPressObserved subject first 0 0 k.nextIntent)
        none k.budgets

/-- The requests that touch RAM only. -/
inductive Ram (E : Env) : Label → Key → Key → Prop
  | still {k k' : Key} (h : Still k k') : Ram E .quiet k k'
  | stage (t : Clock) (buf : Report) (k : Key) : Ram E .stage k (k.grantLabel E t buf)
  | request (t : Clock) (d : Draw) (buf : Report) (k : Key) :
      Ram E .request k (k.grantCreate E t d buf)
  | askResume (t : Clock) (buf : Report) (k : Key) : Ram E .ask k (k.recvResume E t buf)
  | askSettle (t : Clock) (buf : Report) (k : Key) : Ram E .ask k (k.recvSettle E t buf)
  | askLoss (t : Clock) (buf : Report) (k : Key) : Ram E .ask k (k.recvLoss E t buf)
  | prime (t : Clock) (opcode slot : UInt8) (msg : List UInt8) (mode : InputMode) {k : Key}
      (hop : opcode ≠ okEdge) (hload : opcode = okSign ∨ opcode = okDecrypt → k.loaded = true) :
      Ram E .prime k (k.okcorePrime E t opcode slot msg mode)

namespace Key

/-- The salt is drawn. -/
def salted (E : Env) (salt : Digest) (k : Key) : Key :=
  let st := { k.st with salt := salt, salted := true }
  (({ k with st := st }).stateSave E).push (.salt salt)

/-- The genesis of an empty chain is set. -/
def genesisSet (E : Env) (id : Ident) (k : Key) : Key :=
  ({ k with
    ident := some id
    st := { k.st with head := genesisOf E id.deviceId } }).stateSave E

/-- The key about to write its continue link. -/
def continuing (E : Env) (id : Ident) (k : Key) : Key :=
  { k with
    ident := some id
    budgets := fun _ => Budget.blank
    held := fun _ => none
    started := false
    st := { k.st with
      cont := false, contId := Bytes.zero 16, head := genesisOf E id.deviceId } }

/-- The continue link. -/
def continueLink (E : Env) (k : Key) : Link :=
  k.nextLink opContinue decisionApprove 0 0 (continueSubject E k.st.contId k.st)
    (if k.st.owes then 1 else 0) 0 0 k.nextIntent

/-- The continue link is written. -/
def continued (E : Env) (id : Ident) (k : Key) : Key :=
  weldIn E (k.continueLink E) none { k.continuing E id with nextIntent := none }

end Key

/-- A move of the key, by its label: what an event is made of. -/
inductive Move (E : Env) : Label → Key → Key → Prop
  | ram {l : Label} {k k' : Key} (h : Ram E l k k') : Move E l k k'
  | announce (t : Clock) (buf : Report) {k : Key} (hload : k.loaded = true)
      (hid : k.ident.isSome = true) : Move E .announce k (k.recvTxStart t buf)
  | load {k : Key} (hload : k.loaded = false) : Move E .record k (k.stateLoad E)
  | salt (salt : Digest) {k : Key} (hload : k.loaded = true) (hid : k.ident = none)
      (hsalt : k.st.salted = false) : Move E .record k (k.salted E salt)
  | known {id : Ident} {k : Key} (hload : k.loaded = true) (hid : k.ident = none)
      (hsalt : k.st.salted = true) (hident : identityOf E k.core k.st = some id)
      (hcont : k.st.cont = false) (hseq : k.st.seq ≠ seqNone) :
      Move E .record k { k with ident := some id }
  | genesis {id : Ident} {k : Key} (hload : k.loaded = true) (hid : k.ident = none)
      (hsalt : k.st.salted = true) (hident : identityOf E k.core k.st = some id)
      (hcont : k.st.cont = false) (hseq : k.st.seq = seqNone) :
      Move E .record k (k.genesisSet E id)
  | continued {id : Ident} {k : Key} (hload : k.loaded = true) (hid : k.ident = none)
      (hsalt : k.st.salted = true) (hident : identityOf E k.core k.st = some id)
      (hcont : k.st.cont = true) : Move E .record k (k.continued E id)
  | resave {k : Key} (hload : k.loaded = true) : Move E .record k (k.stateSave E)
  | act {l : Label} {link : Link} {reveal : Option Digest} {budgets : Fin 4 → Budget} {k : Key}
      (hload : k.loaded = true) (hid : k.ident.isSome = true)
      (h : Act E k l link reveal budgets) :
      Move E l k (Key.weldIn E link reveal { k with budgets := budgets, nextIntent := none })
  | restore (sec : List UInt8) {k : Key} (hload : k.loaded = true) (hsec : Key.sectionOk sec = true) :
      Move E .restore k (k.restore E sec)
  | wipe (k : Key) : Move E .wipe k k.wipe

/-- Moves of the kinds `P` allows, one after another. -/
inductive Moves (E : Env) (P : Label → Prop) (k : Key) : Key → Prop
  | refl : Moves E P k k
  | tail {m k' : Key} {l : Label} : Moves E P k m → P l → Move E l m k' → Moves E P k k'

end OkRn.Edge
