/-
OkRn/Edge/Grant.lean

Opening a budget, and the other requests that take a press.

GRANT_CREATE is checked when it arrives and waits in `press`; `grantPressed`
checks the debt and the head again at the press and opens what waited.  A
derived-code scope takes the label GRANT_LABEL staged for its index; every
GRANT_CREATE, refused or not, takes all of them.
-/
import OkRn.Edge.Prime

namespace OkRn.Edge

/-! ### The request's bytes -/

/-- A byte of the report. -/
def byteAt (buf : Report) (off : Nat) : UInt8 := Bytes.at? buf.toList off

/-- A word of it. -/
def get32 (buf : Report) (off : Nat) : UInt32 := Bytes.ofLe32 (Bytes.slice buf.toList off 4)

/-- A half word. -/
def get16 (buf : Report) (off : Nat) : Nat :=
  (Bytes.ofLe16 (Bytes.slice buf.toList off 2)).toNat

/-- Some bytes of it. -/
def bytesAt (buf : Report) (off n : Nat) : List UInt8 := (Bytes.slice buf.toList off n).toList

namespace Grant

/-- The scope count of a GRANT_CREATE. -/
def count (buf : Report) : Nat := (byteAt buf 6).toNat

/-- Scope `j` of a GRANT_CREATE, with the label staged for it. -/
def scope (buf : Report) (labels : Fin 4 → Option Digest) (j : Fin 4) : Scope :=
  let slot := byteAt buf (8 + 4 * j)
  { op := byteAt buf (7 + 4 * j)
    slot := slot
    cap := get16 buf (9 + 4 * j)
    used := 0
    label := if derivedCode slot then (labels j).map (Bytes.first labelPrefix) else none }

/-- The checks of one scope: allowed, a cap, and on a derived code a fresh label. -/
def scopeOk (buf : Report) (fresh : Bool) (labels : Fin 4 → Option Digest) (j : Fin 4) : Bool :=
  let sc := scope buf labels j
  scopeAllowed sc.op sc.slot && decide (1 ≤ sc.cap)
    && (!derivedCode sc.slot || (fresh && (labels j).isSome))

/-- The scopes of a request are the first `count`. -/
def scopesOk (buf : Report) (fresh : Bool) (labels : Fin 4 → Option Digest) : Bool :=
  (List.finRange 4).all fun j =>
    !decide (j.val < count buf) || scopeOk buf fresh labels j

/-- The scopes of the request, and blank ones behind them. -/
def scopes (buf : Report) (labels : Fin 4 → Option Digest) (j : Fin 4) : Scope :=
  if j.val < count buf then scope buf labels j else Scope.blank

/-- The sum of the caps. -/
def uses (buf : Report) : Nat :=
  ((List.finRange 4).map fun j : Fin 4 =>
    if j.val < count buf then get16 buf (9 + 4 * j) else 0).sum

/-- The budget a GRANT_CREATE asks for, not yet opened. -/
def budget (env : Env) (buf : Report) (labels : Fin 4 → Option Digest) (seed : Digest) : Budget :=
  { Budget.blank with
    nscopes := count buf
    scopes := scopes buf labels
    uses := uses buf
    seed := seed
    genesis := hashTimes env seed (uses buf) }

/-- What waits for the press. -/
def press (env : Env) (buf : Report) (labels : Fin 4 → Option Digest) (seed : Digest) : Press :=
  { Press.blank with
    verified := bytesAt buf 58 grantHeadBytes
    b := budget env buf labels seed
    reason := Bytes.slice buf.toList 23 32
    scopesEnc := bytesAt buf 6 (1 + 4 * count buf)
    lifetime := get16 buf 56
    labels := fun j =>
      if j.val < count buf && derivedCode (byteAt buf (8 + 4 * j)) then
        (labels j).getD (Bytes.zero 32)
      else Bytes.zero 32 }

/-- The bytes the press is shown for. -/
def prompt (env : Env) (p : Press) : Digest :=
  env.sha256 (p.reason.toList ++ (p.b.genesis.toList ++ p.scopesEnc))

/-- The subject of a grant-create link: the scopes, the reason, the committed value of the
series, the lifetime, and the full labels of derived-code scopes in scope order. -/
def subject (env : Env) (p : Press) : Digest :=
  env.H "OKEDGE-GRANT-v1" [p.scopesEnc, p.reason.toList, p.b.genesis.toList,
    (Bytes.le16 (UInt16.ofNat p.lifetime)).toList,
    (List.finRange 4).flatMap fun j =>
      if j.val < p.b.nscopes && (p.b.scopes j).label.isSome then (p.labels j).toList else []]

/-- The lifetime in milliseconds; 0 minutes is the default. -/
def lifetimeMs (minutes : Nat) : UInt32 :=
  UInt32.ofNat ((if minutes = 0 then defaultLifetimeMin else minutes) * 60000)

/-- The budget the press opens. -/
def opened (p : Press) (id now : UInt32) : Budget :=
  { p.b with id := id, opened := now, lifetimeMs := lifetimeMs p.lifetime }

end Grant

namespace Key

/-- `grant_label`: stages a label for the next GRANT_CREATE. -/
def grantLabel (env : Env) (t : Clock) (buf : Report) (k : Key) : Key :=
  if h : (byteAt buf 6).toNat < 4 then
    let j : Fin 4 := ⟨(byteAt buf 6).toNat, h⟩
    let label : Digest := Bytes.slice buf.toList 7 32
    let staged :=
      if k.staged.since = 0 ∨ labelStageMs < env.since (t.millis 0) k.staged.since then
        Staged.blank
      else k.staged
    let since := if t.millis 1 = 0 then 1 else t.millis 1 -- 0 means nothing staged
    (({ k with staged := ⟨Function.update staged.label j (some label), since⟩ }).push
      (.label j label (t 1))).status edgeOk
  else k.status edgeBadScopes

/-- Are the staged labels fresh? -/
def stagedFresh (env : Env) (t : Clock) (k : Key) : Bool :=
  k.staged.since != 0 && decide (env.since (t.millis 0) k.staged.since ≤ labelStageMs)

/-- `grant_create`. -/
def grantCreate (env : Env) (t : Clock) (d : Draw) (buf : Report) (k : Key) : Key :=
  let fresh := k.stagedFresh env t
  let labels := k.staged.label
  let k := (({ k with staged := Staged.blank }).pressDrop).push .consumed
  if k.st.owes then k.status edgeReceiptOwed
  else if !k.headIs (bytesAt buf 58 grantHeadBytes) then k.status edgeStaleHead
  else if Grant.count buf < 1 ∨ 4 < Grant.count buf then
    -- the head and the lifetime are already noted, but nothing waits
    { k with press := { Press.blank with
      verified := bytesAt buf 58 grantHeadBytes, lifetime := get16 buf 56 } }.status edgeBadScopes
  else if !Grant.scopesOk buf fresh labels then k.status edgeScopeNotAllowed
  else if maxUses < Grant.uses buf then k.status edgeTooManyUses
  else
    let press := Grant.press env buf labels d.seed
    ({ k with press := press }).pressWait env (t.after 1) .grant (Grant.prompt env press) buf

/-- The budget opens in place `i`: its id is the seq of its grant-create link, plus one. -/
def openBudget (env : Env) (now : Nat) (i : Fin 4) (k : Key) : Key :=
  let id := k.st.nextSeq + 1
  let p := k.press
  let b := Grant.opened p id (UInt32.ofNat now)
  (({ k with budgets := Function.update k.budgets i b }).appendScoped env opGrantCreate
    decisionApprove 0 flagPressObserved (Grant.subject env p) id 0 (UInt8.ofNat p.b.nscopes)
    none).push (.opened { p with b := b } now)

/-- `grant_pressed`: the debt and the head are checked again; an expired budget's place is free. -/
def grantPressed (env : Env) (t : Clock) (k : Key) : Key :=
  if k.st.owes then k.status edgeReceiptOwed
  else if !k.headIs k.press.verified then k.status edgeStaleHead
  else match (List.finRange 4).find? fun i : Fin 4 => !alive (t.millis i) (k.budgets i) with
    | none => k.status edgeLiveFull
    | some i =>
        let seq := k.st.nextSeq
        let b := k.press.b
        ((k.openBudget env (t 4) i).reply ((Bytes.le32 (seq + 1)).toList ++
          ((Bytes.le16 (UInt16.ofNat b.uses)).toList ++ (b.genesis.toList ++
            (Bytes.le32 seq).toList)))).checkpoint env

/-- `resume_pressed`. -/
def resumePressed (env : Env) (t : Clock) (k : Key) : Key :=
  match k.liveBudget t k.press.id with
  | none => k.status edgeNoSuchBudget
  | some i =>
      if k.st.owes then k.status edgeReceiptOwed
      else if !k.headIs k.press.verified then k.status edgeStaleHead
      else
        let b := k.budgets i
        let k :=
          if b.onHold then
            ({ k with budgets := Function.update k.budgets i { b with onHold := false } }).append
              env opGrantResume decisionApprove 0 flagPressObserved (Bytes.zero 32) b.id 0 none
          else k
        k.status edgeOk

/-- One round of the loop in `settle_pressed`. -/
def settleAt (env : Env) (t : Clock) (k : Key) (i : Fin 4) : Key :=
  if alive (t.millis i) (k.budgets i) then k.endBudget env endSettled i else k

/-- `settle_pressed`: every live budget ends first, then one pressed receipt clears the debt. -/
def settlePressed (env : Env) (t : Clock) (k : Key) : Key :=
  if !k.st.owes then k.status edgeNoReceiptWaiting
  else
    let k := (List.finRange 4).foldl (settleAt env t) k
    (k.append env opReceipt codeNeedsReview 0 flagPressObserved (settleSubject env k.st)
      k.st.owed.seq 0 none).replySeqHead

/-- The link after `last`, the end of a lost range, when the key holds it. -/
def linkAfter (last : UInt32) (k : Key) : Option Link :=
  if k.st.seq = seqNone ∨ last = seqNone ∨ k.st.seq ≤ last then none
  else if last + 1 = k.st.seq then some k.st.lastLink
  else match k.held (heldAt (last + 1)) with
    | some h => if h.seq = last + 1 then some h.link else none
    | none => none

/-- `loss_subject`. -/
def lossSubject (env : Env) (last : UInt32) (k : Key) : Digest :=
  match k.linkAfter last with
  | none => Bytes.pack 32 (Bytes.le32 last).toList
  | some l => Bytes.pack 32
      ((Bytes.le32 last).toList ++ ((env.sha256 l.encode.toList).first 28).toList)

/-- `loss_pressed`. -/
def lossPressed (env : Env) (k : Key) : Key :=
  (k.append env opLoss decisionApprove 0 flagPressObserved (k.lossSubject env k.press.id)
    k.press.fromSeq 0 none).replySeqHead

end Key

end OkRn.Edge
