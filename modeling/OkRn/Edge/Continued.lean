/-
OkRn/Edge/Continued.lean

A restored chain goes on, once.

A restore leaves the old chain's end, its debt and its device id in the record, and
owes a continue link.  Until that link is welded the record carries them (`Carries`),
through restarts and cuts at every save; the link is then the oldest of the new chain,
over the genesis of the identity under the newly drawn salt, and the only one of its
kind (`Carried`).  A salt is drawn over an empty chain only, so the device id of a chain
with links stays (`Drawn`).

Main results: `continued_once`, and `section_moves_the_chain` for what a backup and a
restore move, both for runs whose restarts find no half-written sector.
-/
import OkRn.Edge.Debt
import OkRn.Edge.Pickup

namespace OkRn.Edge

variable {E : Env} {k k' : Key} {l : Label} {r s : EdgeState} {w : Welded}

/-! ### What the restored record carries -/

/-- The record still has the old chain's end, and owes the continue link. -/
structure Carries (r s : EdgeState) : Prop where
  seq : s.seq = r.seq
  head : s.head = r.head
  owes : s.owes = r.owes
  owed : s.owed = r.owed
  contId : s.contId = r.contId
  cont : s.cont = true

/-- The link that goes on from the restored record `r`, for a key with the record `s`. -/
structure Continues (E : Env) (s r : EdgeState) (w : Welded) : Prop where
  op : w.link.op = opContinue
  seq : w.link.seq = r.nextSeq
  subject : w.link.subject = continueSubject E r.contId r
  owes : w.link.grantId = if r.owes then 1 else 0
  genesis : ∃ core id, identityOf E core s = some id ∧ w.prev = genesisOf E id.deviceId

/-- Two records under one salt. -/
def SameSalt (s s' : EdgeState) : Prop := s'.salted = s.salted ∧ s'.salt = s.salt

/-- Records with the same salt have the same identity. -/
theorem SameSalt.identityOf {s' : EdgeState} (h : SameSalt s s') (core : Core) :
    identityOf E core s' = Edge.identityOf E core s := by
  rw [Edge.identityOf, Edge.identityOf, edgeKeyWith, edgeKeyWith, h.1, h.2]

/-- A continue link fits any record with that salt. -/
theorem Continues.of_salt {s' : EdgeState} (h : Continues E s r w) (hs : SameSalt s s') :
    Continues E s' r w := by
  obtain ⟨core, id, hid, hprev⟩ := h.genesis
  exact ⟨h.op, h.seq, h.subject, h.owes, core, id, (hs.identityOf core).trans hid, hprev⟩

/-- The subject of a continue link is the restored chain's. -/
theorem Carries.subject (h : Carries r s) :
    continueSubject E s.contId s = continueSubject E r.contId r := by
  rw [continueSubject, continueSubject, h.seq, h.head, h.owes, h.owed, h.contId]

/-- The counter goes on from the restored one. -/
theorem Carries.nextSeq (h : Carries r s) : s.nextSeq = r.nextSeq := by
  rw [EdgeState.nextSeq, EdgeState.nextSeq, h.seq]

/-- The first link of a key that owes it. -/
theorem Carries.continues {id : Ident} (h : Carries r k.st)
    (hident : identityOf E k.core k.st = some id) (hs : SameSalt k.st s) :
    Continues E s r ⟨k.continueLink E, genesisOf E id.deviceId,
      weldHead E (genesisOf E id.deviceId) (k.continueLink E), none⟩ where
  op := rfl
  seq := h.nextSeq
  subject := h.subject
  owes := by
    show (if k.st.owes then (1 : UInt32) else 0) = _
    rw [h.owes]
  genesis := ⟨k.core, id, (hs.identityOf k.core).trans hident, rfl⟩

/-! ### Over a history -/

/-- Where the chain came from is what the record and its oldest link say. -/
structure Carried (E : Env) (k : Key) : Prop where
  salt : saltOf k.log = if (k.kept E).salted then some (k.kept E).salt else none
  plain : originOf k.log = none →
    (k.kept E).cont = false ∧ ∀ w ∈ chainOf k.log, w.link.op ≠ opContinue
  before : ∀ r, originOf k.log = some r → chainOf k.log = [] → Carries r (k.kept E)
  after : ∀ r ws w, originOf k.log = some r → chainOf k.log = ws ++ [w] →
    Continues E (k.kept E) r w ∧ ∀ v ∈ ws, v.link.op ≠ opContinue

/-- No salt is drawn over a chain with links, or over another salt. -/
def Drawn (log : List Entry) : Prop :=
  History.Guarded (fun past e => ∀ s, e = .salt s → chainOf past = [] ∧ saltOf past = none) log

section Silent

variable {seg log : List Entry} (h : ∀ e ∈ seg, e.silent = true)
include h

/-- Entries of a run leave the chain's origin. -/
theorem originOf_append : originOf (seg ++ log) = originOf log :=
  History.append_of_ignored fun e he _ => by
    have hsilent := h e he
    cases e <;> first | rfl | cases hsilent

theorem saltOf_append : saltOf (seg ++ log) = saltOf log :=
  History.append_of_ignored fun e he _ => by
    have hsilent := h e he
    cases e <;> first | rfl | cases hsilent

end Silent

/-- What leaves the chain, its origin and its salt alone. -/
structure SameOrigin (E : Env) (k k' : Key) : Prop where
  chain : chainOf k'.log = chainOf k.log
  origin : originOf k'.log = originOf k.log
  salt : saltOf k'.log = saltOf k.log
  sameSalt : SameSalt (k.kept E) (k'.kept E)
  cont : (k'.kept E).cont = (k.kept E).cont
  carries : ∀ r, Carries r (k.kept E) → Carries r (k'.kept E)

/-- A step that keeps the origin keeps what is carried. -/
theorem Carried.same (h : Carried E k) (hs : SameOrigin E k k') : Carried E k' := by
  refine ⟨?_, fun horigin => ?_, fun r horigin hchain => ?_, fun r ws w horigin hchain => ?_⟩
  · rw [hs.salt, hs.sameSalt.1, hs.sameSalt.2]
    exact h.salt
  · rw [hs.origin] at horigin
    rw [hs.chain, hs.cont]
    exact h.plain horigin
  · rw [hs.origin] at horigin
    rw [hs.chain] at hchain
    exact hs.carries r (h.before r horigin hchain)
  · rw [hs.origin] at horigin
    rw [hs.chain] at hchain
    obtain ⟨hcontinues, hothers⟩ := h.after r ws w horigin hchain
    exact ⟨hcontinues.of_salt hs.sameSalt, hothers⟩

/-- A step without a link keeps the origin. -/
theorem SameChain.sameOrigin (h : SameChain E k k') : SameOrigin E k k' := by
  obtain ⟨seg, hlog, hseg⟩ := h.log
  refine ⟨?_, ?_, ?_, ?_, ?_, ?_⟩
  · rw [hlog, chainOf_append hseg]
  · rw [hlog, originOf_append hseg]
  · rw [hlog, saltOf_append hseg]
  · rw [h.kept]
    exact ⟨rfl, rfl⟩
  · rw [h.kept]
  · rw [h.kept]
    exact fun _ => id

theorem sameOrigin_save {side : Bool} {sector : Sector} (hload : k.loaded = true)
    (hload' : k'.loaded = true) (hlog : k'.log = .saved side sector :: k.log)
    (hsalt : SameSalt k.st k'.st) (hcont : k'.st.cont = k.st.cont)
    (hcarries : ∀ r, Carries r k.st → Carries r k'.st) : SameOrigin E k k' := by
  refine ⟨by rw [hlog]; rfl, by rw [hlog]; rfl, by rw [hlog]; rfl, ?_, ?_, ?_⟩
  · rw [kept_of_loaded hload, kept_of_loaded hload']
    exact hsalt
  · rw [kept_of_loaded hload, kept_of_loaded hload']
    exact hcont
  · rw [kept_of_loaded hload, kept_of_loaded hload']
    exact hcarries

/-! ### What each move does -/

/-- A link is welded under the salt there is. -/
theorem weldIn_salt (link : Link) (reveal : Option Digest) (k : Key) :
    SameSalt k.st (k.weldIn E link reveal).st := by
  rw [weldIn_st]
  unfold SameSalt weldDebt
  split
  · split <;> exact ⟨rfl, rfl⟩
  · split
    · split <;> exact ⟨rfl, rfl⟩
    · exact ⟨rfl, rfl⟩

/-- A record that owes a continue link has no chain yet, and came from a restore. -/
theorem Carried.owing (h : Carried E k) (hk : Linked E k) (hload : k.loaded = true)
    (hcont : k.st.cont = true) :
    chainOf k.log = [] ∧ ∃ r, originOf k.log = some r ∧ Carries r k.st := by
  have hnil : chainOf k.log = [] := hk.chain_nil fun w _ hends => by
    have htip := hends.cont
    rw [kept_of_loaded hload, hcont] at htip
    cases htip
  refine ⟨hnil, ?_⟩
  rcases horigin : originOf k.log with - | r
  · have hplain := (h.plain horigin).1
    rw [kept_of_loaded hload, hcont] at hplain
    cases hplain
  · have hcarries := h.before r horigin hnil
    rw [kept_of_loaded hload] at hcarries
    exact ⟨r, rfl, hcarries⟩

/-- A new salt is drawn before the continue link. -/
theorem Carried.salted (h : Carried E k) (hk : Linked E k) (salt : Digest)
    (hload : k.loaded = true) (hsalt : k.st.salted = false) : Carried E (k.salted E salt) := by
  have hload' : (k.salted E salt).loaded = true := hload
  have hnil : chainOf k.log = [] := hk.chain_nil fun w _ hends => by
    have htip := hends.salted
    rw [kept_of_loaded hload, hsalt] at htip
    cases htip
  refine ⟨?_, fun horigin => ?_, fun r horigin _ => ?_, fun r ws w _ hchain => ?_⟩
  · rw [kept_of_loaded hload']
    rfl
  · have hplain := h.plain horigin
    rw [kept_of_loaded hload] at hplain
    rw [kept_of_loaded hload']
    exact ⟨hplain.1, fun w hw => nomatch hw⟩
  · have hcarries := h.before r horigin hnil
    rw [kept_of_loaded hload] at hcarries
    rw [kept_of_loaded hload']
    exact ⟨hcarries.seq, hcarries.head, hcarries.owes, hcarries.owed, hcarries.contId,
      hcarries.cont⟩
  · exact absurd hchain.symm (by simp [Key.salted, Key.push, chainOf])

/-- The continue link is the first of the new chain. -/
theorem Carried.continued (h : Carried E k) (hk : Linked E k) {id : Ident}
    (hload : k.loaded = true) (hident : identityOf E k.core k.st = some id)
    (hcont : k.st.cont = true) : Carried E (k.continued E id) := by
  have hload' : (k.continued E id).loaded = true := hload
  have hsalt : SameSalt k.st (k.continued E id).st :=
    weldIn_salt (k.continueLink E) none { k.continuing E id with nextIntent := none }
  -- the chain is empty and the record carries what the restore brought
  obtain ⟨hnil, r, horigin, hcarries⟩ := h.owing hk hload hcont
  have horigin' : originOf (k.continued E id).log = some r := by
    rw [continued_log]
    exact horigin
  have hchain : chainOf (k.continued E id).log = [⟨k.continueLink E, genesisOf E id.deviceId,
      weldHead E (genesisOf E id.deviceId) (k.continueLink E), none⟩] := by
    rw [continued_log]
    exact congrArg _ hnil
  refine ⟨?_, fun hnone => ?_, fun r' _ hempty => ?_, fun r' ws w hr' hws => ?_⟩
  · have hold := h.salt
    rw [kept_of_loaded hload] at hold
    rw [kept_of_loaded hload', hsalt.1, hsalt.2, continued_log]
    exact hold
  · rw [horigin'] at hnone
    cases hnone
  · rw [hchain] at hempty
    cases hempty
  · rw [horigin'] at hr'
    obtain rfl := Option.some.inj hr'
    rw [hchain] at hws
    -- the continue link is the only one, so it is the oldest
    rcases ws with - | ⟨v, vs⟩
    · obtain rfl := (List.cons.inj hws).1
      rw [kept_of_loaded hload']
      exact ⟨hcarries.continues hident hsalt, fun v hv => nomatch hv⟩
    · exact absurd (List.cons.inj hws).2 (by simp)

/-- No act of a run welds a continue link. -/
theorem Act.not_continue {link : Link} {reveal : Option Digest} {budgets : Fin 4 → Budget}
    (h : Act E k l link reveal budgets) : link.op ≠ opContinue := by
  cases h with
  | spend =>
    show opOf k.pend.opcode ≠ opContinue
    unfold opOf
    split <;> decide
  | _ =>
    intro heq
    simp only [Key.nextLink] at heq
    exact absurd heq (by decide)

/-- A link of a chain under way. -/
theorem Carried.act (h : Carried E k) (hk : Linked E k) {link : Link} {reveal : Option Digest}
    {budgets : Fin 4 → Budget} (hload : k.loaded = true) (hid : k.ident.isSome = true)
    (hact : Act E k l link reveal budgets) :
    Carried E (Key.weldIn E link reveal { k with budgets := budgets, nextIntent := none }) := by
  have hlog := weldIn_log (E := E) link reveal { k with budgets := budgets, nextIntent := none }
  have hsalt := weldIn_salt (E := E) link reveal { k with budgets := budgets, nextIntent := none }
  have hcont := (weldDebt_frame (E := E) link (weldHead E k.st.head link) k.st).1
  have hknown := (hk.known hid).1
  rw [kept_of_loaded hload] at hknown
  generalize hm : Key.weldIn E link reveal { k with budgets := budgets, nextIntent := none } = m
    at hlog hsalt
  have hload' : m.loaded = true := by
    rw [← hm]
    exact hload
  have hcont' : m.st.cont = false := by
    rw [← hm, weldIn_st]
    exact hcont.trans hknown
  -- no act is owed a continuation: the identity was made before it
  refine ⟨?_, fun horigin => ?_, fun r _ hnil => ?_, fun r ws w horigin hws => ?_⟩
  · have hold := h.salt
    rw [kept_of_loaded hload] at hold
    rw [kept_of_loaded hload', hsalt.1, hsalt.2, hlog]
    exact hold
  · rw [hlog] at horigin
    obtain ⟨-, hplain⟩ := h.plain horigin
    rw [kept_of_loaded hload', hlog]
    refine ⟨hcont', fun w hw => ?_⟩
    rcases List.mem_cons.mp hw with rfl | hw
    · exact hact.not_continue
    · exact hplain w hw
  · rw [hlog] at hnil
    cases hnil
  · rw [hlog] at horigin hws
    have horigin : originOf k.log = some r := horigin
    have hws : _ :: chainOf k.log = ws ++ [w] := hws
    rcases ws with - | ⟨v, vs⟩
    · -- the chain is not empty, for the continue link was written before
      have hcarries := h.before r horigin (List.cons.inj hws).2
      rw [kept_of_loaded hload] at hcarries
      rw [hcarries.cont] at hknown
      cases hknown
    · obtain ⟨rfl, hold⟩ := List.cons.inj hws
      obtain ⟨hcontinues, hothers⟩ := h.after r vs w horigin hold
      rw [kept_of_loaded hload] at hcontinues
      rw [kept_of_loaded hload']
      refine ⟨hcontinues.of_salt hsalt, fun v hv => ?_⟩
      rcases List.mem_cons.mp hv with rfl | hv
      · exact hact.not_continue
      · exact hothers v hv

/-- Every move keeps the restored chain or continues it. -/
theorem Move.carried (h : Move E l k k') (hk : Linked E k) (hc : Carried E k) : Carried E k' := by
  -- a salt comes over an empty chain; the continue link ends what is owed
  cases h with
  | ram h => exact hc.same h.sameChain.sameOrigin
  | announce t buf =>
    rcases recvTxStart_cases t buf k with hstill | ⟨-, -, token, intent, htx⟩
    · exact hc.same (SameChain.sameOrigin hstill.sameChain)
    · rw [htx]
      exact hc.same ⟨rfl, rfl, rfl, ⟨rfl, rfl⟩, rfl, fun _ => id⟩
  | load _ =>
    refine hc.same ⟨?_, ?_, ?_, ?_, ?_, ?_⟩
    · rw [stateLoad_log]
    · rw [stateLoad_log]
    · rw [stateLoad_log]
    · rw [stateLoad_kept]
      exact ⟨rfl, rfl⟩
    · rw [stateLoad_kept]
    · rw [stateLoad_kept]
      exact fun _ => id
  | salt salt hload hid hsalt => exact hc.salted hk salt hload hsalt
  | known => exact hc.same ⟨rfl, rfl, rfl, ⟨rfl, rfl⟩, rfl, fun _ => id⟩
  | genesis hload hid hsalt hident hcont hseq =>
    refine hc.same (sameOrigin_save hload hload rfl ⟨rfl, rfl⟩ rfl fun r hr => ?_)
    rw [hr.cont] at hcont
    cases hcont
  | continued hload hid hsalt hident hcont => exact hc.continued hk hload hident hcont
  | resave hload =>
    exact hc.same (sameOrigin_save hload hload rfl ⟨rfl, rfl⟩ rfl fun r hr =>
      ⟨hr.seq, hr.head, hr.owes, hr.owed, hr.contId, hr.cont⟩)
  | act hload hid hact => exact hc.act hk hload hid hact
  | restore sec hload hsec =>
    rw [restore_eq sec hload hsec]
    have hload' : (k.restored E (Key.sectionState k.st.gen sec)).loaded = true := rfl
    have hst := restored_st (E := E) (sectionState_gen k.st.gen sec)
    refine ⟨?_, fun horigin => ?_, fun r horigin _ => ?_, fun r ws w _ hws => ?_⟩
    · rw [kept_of_loaded hload', hst]
      rfl
    · cases horigin
    · obtain rfl := Option.some.inj horigin
      rw [kept_of_loaded hload', hst]
      exact ⟨rfl, rfl, rfl, rfl, rfl, rfl⟩
    · exact absurd hws.symm (by simp [Key.restored, Key.push, chainOf])
  | wipe =>
    refine ⟨rfl, fun _ => ⟨rfl, fun w hw => ?_⟩, fun r horigin => ?_, fun r ws w horigin => ?_⟩
    · cases hw
    · cases horigin
    · cases horigin

theorem Trace.carried (h : Trace E k) (hclean : CleanBoots k.log) (hshort : Short k.log) :
    Carried E k := by
  induction h with
  | new core =>
    have hload : (Key.fresh (fun _ => erased) core []).kept E = EdgeState.empty :=
      DoubleBuffer.Backed.load_eq stored_erased fun _ => stateDecode_erased E
    refine ⟨?_, fun _ => ⟨?_, fun w hw => nomatch hw⟩, fun r horigin => (nomatch horigin),
      fun r ws w horigin => (nomatch horigin)⟩
    · rw [hload]
      rfl
    · rw [hload]
      rfl
  | move htrace hmove ih =>
    have hclean' := hclean.of_suffix hmove.suffix
    have hshort' := hshort.of_suffix hmove.suffix
    exact hmove.carried (htrace.linked hclean' hshort') (ih hclean' hshort')
  | boot core htrace htorn ih =>
    have hc := ih (hclean.of_suffix ⟨[_], rfl⟩) (hshort.of_suffix ⟨[_], rfl⟩)
    have hkept := reboot_kept htrace core htorn hclean
    refine hc.same ⟨rfl, rfl, rfl, ?_, ?_, ?_⟩
    · rw [hkept]
      exact ⟨rfl, rfl⟩
    · rw [hkept]
    · rw [hkept]
      exact fun _ => id

/-! ### Salts -/

/-- Every move draws a salt over an empty chain alone. -/
theorem Move.drawn (h : Move E l k k') (hk : Linked E k) (hc : Carried E k) (hd : Drawn k.log) :
    Drawn k'.log := by
  -- only a salt is constrained, and only by what is older
  have hother {e : Entry} (he : ∀ s, e ≠ .salt s) {log : List Entry} (hlog : Drawn log) :
      Drawn (e :: log) := hlog.cons fun s heq => absurd heq (he s)
  have hsilent {m : Key} (hm : SameChain E k m) : Drawn m.log := by
    obtain ⟨seg, hlog, hseg⟩ := hm.log
    rw [hlog]
    refine hd.append fun e he _ s heq => ?_
    rw [heq] at he
    exact absurd (hseg _ he) (by simp [Entry.silent])
  cases h with
  | ram h => exact hsilent h.sameChain
  | announce t buf =>
    rcases recvTxStart_cases t buf k with hstill | ⟨-, -, token, intent, htx⟩
    · exact hsilent hstill.sameChain
    · rw [htx]
      exact hother (by simp) hd
  | load _ =>
    rw [stateLoad_log]
    exact hd
  | salt salt hload hid hsalt =>
    -- a record without a salt has no link
    have hnil : chainOf k.log = [] := hk.chain_nil fun w _ hends => by
      have htip := hends.salted
      rw [kept_of_loaded hload, hsalt] at htip
      cases htip
    have hnone := hc.salt
    rw [kept_of_loaded hload, hsalt] at hnone
    exact (hother (by simp) hd).cons fun _ _ => ⟨hnil, hnone⟩
  | known => exact hd
  | genesis => exact hother (by simp) hd
  | continued =>
    rw [continued_log]
    exact hother (by simp) (hother (by simp) hd)
  | resave => exact hother (by simp) hd
  | act =>
    rw [weldIn_log]
    exact hother (by simp) (hother (by simp) hd)
  | restore sec hload hsec =>
    rw [restore_eq sec hload hsec, restored_log (sectionState_gen k.st.gen sec)]
    exact hother (by simp) (hother (by simp) hd)
  | wipe => exact hother (by simp) hd

theorem Trace.drawn (h : Trace E k) (hclean : CleanBoots k.log) (hshort : Short k.log) :
    Drawn k.log := by
  induction h with
  | new core => exact History.guarded_nil
  | move htrace hmove ih =>
    have hclean' := hclean.of_suffix hmove.suffix
    have hshort' := hshort.of_suffix hmove.suffix
    exact hmove.drawn (htrace.linked hclean' hshort') (htrace.carried hclean' hshort')
      (ih hclean' hshort')
  | boot core _ _ ih =>
    have hd := ih (hclean.of_suffix ⟨[_], rfl⟩) (hshort.of_suffix ⟨[_], rfl⟩)
    exact hd.cons fun _ heq => (nomatch heq)

/-- Between a restore and its continue link the record carries the old chain, and nothing of the
old session is live. -/
def CarriedOver (E : Env) (k : Key) : Prop :=
  ∀ r, originOf k.log = some r → chainOf k.log = [] →
    Carries r (k.kept E) ∧ k.ident = none ∧ k.started = false ∧ k.budgets = fun _ => Budget.blank

/-- The oldest link of a restored chain is its continue link, and no other link is one. -/
def ContinuedOnce (E : Env) (k : Key) : Prop :=
  (∀ r ws w, originOf k.log = some r → chainOf k.log = ws ++ [w] →
    Continues E (k.kept E) r w ∧ ∀ v ∈ ws, v.link.op ≠ opContinue) ∧
  (originOf k.log = none → ∀ w ∈ chainOf k.log, w.link.op ≠ opContinue)

/-- After a restore the old chain is carried until the one link that goes on from it, whatever
restarts and cuts come between, and the salt of a chain with links stays. -/
theorem continued_once (h : Reachable E k) (hclean : CleanBoots k.log) (hshort : Short k.log) :
    CarriedOver E k ∧ ContinuedOnce E k ∧ Drawn k.log := by
  have hc := h.trace.carried hclean hshort
  have hsane : Sane k := h.trace.sane
  refine ⟨fun r horigin hnil => ?_, ⟨hc.after, fun horigin => (hc.plain horigin).2⟩,
    h.trace.drawn hclean hshort⟩
  have hcarries := hc.before r horigin hnil
  have hident : k.ident = none := by
    by_contra hsome
    have hknown := (h.trace.linked hclean hshort).known (Option.ne_none_iff_isSome.mp hsome)
    rw [hcarries.cont] at hknown
    cases hknown.1
  refine ⟨hcarries, hident, ?_, hsane.budgets hident⟩
  by_contra hstarted
  have hsome := hsane.started (by simpa using hstarted)
  rw [hident] at hsome
  cases hsome

theorem continued_once_of_restored :
    CarriedOver Demo.env (step Demo.env (.backup Demo.draw 200) Demo.forgiven) ∧
      ContinuedOnce Demo.env (step Demo.env (.backup Demo.draw 200) Demo.forgiven) ∧
      Drawn (step Demo.env (.backup Demo.draw 200) Demo.forgiven).log :=
  continued_once (Demo.reachable_forgiven.event (.backup Demo.draw 200) trivial)
    (by decide +kernel) (by decide +kernel)

/-! ### Sections -/

/-- A section is read back field for field, whatever follows it. -/
theorem sectionState_sectionBytes (gen : UInt32) (id : DeviceId) (s : EdgeState)
    (rest : List UInt8) :
    Key.sectionOk (Key.sectionBytes id s ++ rest) = true ∧
      Key.sectionState gen (Key.sectionBytes id s ++ rest) = { EdgeState.zero with
        gen := gen, seq := s.seq, head := s.head, owes := s.owes
        owed := if s.owes then s.owed else OwedUse.blank, cont := true, contId := id } := by
  cases hs : s.owes with
  | true =>
    simp [Key.sectionOk, Key.sectionState, Key.sectionOwed, Key.sectionBytes, hs, flagByte]
    omega
  | false =>
    simp [Key.sectionOk, Key.sectionState, Key.sectionOwed, Key.sectionBytes, hs, flagByte]
    omega

/-- A restore takes what begins with a section, and nothing else. -/
theorem sectionOk_iff {sec : List UInt8} :
    Key.sectionOk sec = true ↔ ∃ id s rest, sec = Key.sectionBytes id s ++ rest := by
  refine ⟨fun h => ?_, fun ⟨id, s, rest, hsec⟩ => hsec ▸ (sectionState_sectionBytes 0 id s rest).1⟩
  simp only [Key.sectionOk, Bool.and_eq_true, decide_eq_true_eq, beq_iff_eq] at h
  obtain ⟨⟨⟨hlen, hversion⟩, hdebt⟩, hend⟩ := h
  have hflag : Bytes.at? sec 37 = flagByte (Bytes.at? sec 37 == 1) := by
    have hle := UInt8.le_iff_toNat_le.mp hdebt
    have hone : (1 : UInt8).toNat = 1 := rfl
    rcases Nat.le_one_iff_eq_zero_or_eq_one.mp (hone ▸ hle) with hzero | hone'
    · rw [UInt8.toNat_inj.mp (hzero.trans rfl : (Bytes.at? sec 37).toNat = (0 : UInt8).toNat)]
      rfl
    · rw [UInt8.toNat_inj.mp (hone'.trans rfl : (Bytes.at? sec 37).toNat = (1 : UInt8).toNat)]
      rfl
  have hhead : sec = 1 :: ((Bytes.slice sec 1 4).toList ++ ((Bytes.slice sec 5 32).toList ++
      (Bytes.at? sec 37 :: sec.drop 38))) := by
    rw [Bytes.at_cons_drop (by omega), Bytes.slice_append_drop 5 (by omega),
      Bytes.slice_append_drop 1 (by omega), ← hversion, Bytes.at_cons_drop (by omega)]
    rfl
  -- with a debt the section has 36 bytes more
  cases howes : Bytes.at? sec 37 == 1 with
  | true =>
    have hbyte : Bytes.at? sec 37 = 1 := by simpa using howes
    rw [hbyte] at hend
    have hend : 90 ≤ sec.length := hend
    refine ⟨Bytes.slice sec 74 16, { EdgeState.zero with
      seq := Bytes.ofLe32 (Bytes.slice sec 1 4), head := Bytes.slice sec 5 32, owes := true
      owed := ⟨Bytes.ofLe32 (Bytes.slice sec 38 4), Bytes.slice sec 42 32⟩ }, sec.drop 90, ?_⟩
    have hdrop : sec.drop 38 = (Bytes.slice sec 38 4).toList ++ ((Bytes.slice sec 42 32).toList ++
        ((Bytes.slice sec 74 16).toList ++ sec.drop 90)) := by
      rw [Bytes.slice_append_drop 74 (by omega),
        Bytes.slice_append_drop 42 (by omega),
        Bytes.slice_append_drop 38 (by omega)]
    rw [hdrop, hbyte] at hhead
    simpa [Key.sectionBytes, flagByte] using hhead
  | false =>
    have hbyte : Bytes.at? sec 37 = 0 := by rw [hflag, howes]; rfl
    refine ⟨Bytes.slice sec 38 16, { EdgeState.zero with
      seq := Bytes.ofLe32 (Bytes.slice sec 1 4), head := Bytes.slice sec 5 32 }, sec.drop 54, ?_⟩
    have hdrop : sec.drop 38 = (Bytes.slice sec 38 16).toList ++ sec.drop 54 := by
      rw [Bytes.slice_append_drop 38 (by rw [hbyte] at hend; exact hend)]
    rw [hdrop, hbyte] at hhead
    simpa [Key.sectionBytes, flagByte, EdgeState.zero] using hhead

/-- A backup that gives a section gives the record's, after the identity is ensured. -/
theorem backup_section {d : Draw} {max : Nat} {sec : List UInt8}
    (h : (k.backup E d max).2 = sec) (hne : sec ≠ []) :
    (k.backup E d max).1.loaded = true ∧
      sec = Key.sectionBytes (k.backup E d max).1.deviceId (k.backup E d max).1.st := by
  have hready := (ensureIdentity_moves (E := E) (P := fun _ => True) (k := k.stateLoad E)
    trivial d).2
  unfold Key.backup at h ⊢
  generalize (k.stateLoad E).ensureIdentity E d = r at h hready ⊢
  rcases r with ⟨m, - | -⟩
  · exact absurd h.symm hne
  · dsimp only at h ⊢
    by_cases hnone : max < 38 + (if m.st.owes then 36 else 0) + 16 ∨ m.st.seq = seqNone
    · rw [if_pos hnone] at h
      exact absurd h.symm hne
    · rw [if_neg hnone] at h
      exact ⟨(hready rfl).loaded, h.symm⟩

/-- A section restored on any key, with anything after it: that key's next chain goes on from the
backed-up one, and owes what it owed. -/
theorem section_moves_the_chain {d : Draw} {max : Nat} {sec : List UInt8} (h : Reachable E k)
    (hclean : CleanBoots (k.backup E d max).1.log) (hsec : (k.backup E d max).2 = sec)
    (hne : sec ≠ []) (E' : Env) (b : Key) (rest : List UInt8) :
    ∃ r, originOf (step E' (.restore (sec ++ rest)) b).log = some r ∧
      chainOf (step E' (.restore (sec ++ rest)) b).log = [] ∧
      r.seq = (k.backup E d max).1.st.seq ∧ r.head = (k.backup E d max).1.st.head ∧
      r.contId = (k.backup E d max).1.deviceId ∧
      debtOf E' (step E' (.restore (sec ++ rest)) b).log =
        debtOf E (k.backup E d max).1.log := by
  obtain ⟨hload, hbytes⟩ := backup_section hsec hne
  have howes := (h.trace.moves (backup_moves (P := fun _ => True) trivial d max)).owes hclean
  rw [Owes, kept_of_loaded hload] at howes
  generalize (k.backup E d max).1 = a at hload hbytes howes
  have hstep : step E' (.restore (sec ++ rest)) b = b.hush.restore E' (sec ++ rest) := rfl
  obtain ⟨hok, hstate⟩ := sectionState_sectionBytes (b.hush.stateLoad E').st.gen a.deviceId a.st rest
  rw [← hbytes] at hok hstate
  have hrestored : b.hush.restore E' (sec ++ rest) = (b.hush.stateLoad E').restored E'
      (Key.sectionState (b.hush.stateLoad E').st.gen (sec ++ rest)) := by
    rw [Key.restore, hok]
    rfl
  rw [hstep, hrestored, restored_log (sectionState_gen _ _), hstate, howes]
  refine ⟨_, rfl, rfl, rfl, rfl, rfl, ?_⟩
  dsimp only [debtOf]
  unfold EdgeState.debt
  split <;> rfl

theorem section_moves_the_chain_of_opened :
    ∃ r, originOf (step Demo.env (.restore (Demo.earlySection ++ [0])) Demo.factory).log = some r ∧
      chainOf (step Demo.env (.restore (Demo.earlySection ++ [0])) Demo.factory).log = [] ∧
      r.seq = (Demo.backedUp.backup Demo.env Demo.draw 200).1.st.seq ∧
      r.head = (Demo.backedUp.backup Demo.env Demo.draw 200).1.st.head ∧
      r.contId = (Demo.backedUp.backup Demo.env Demo.draw 200).1.deviceId ∧
      debtOf Demo.env (step Demo.env (.restore (Demo.earlySection ++ [0])) Demo.factory).log =
        debtOf Demo.env (Demo.backedUp.backup Demo.env Demo.draw 200).1.log :=
  section_moves_the_chain
    (Demo.reachable_opened 1 5 0 Demo.reachable_started (by decide +kernel)) (by decide +kernel)
    (by decide +kernel) (by decide +kernel) Demo.env Demo.factory [0]

end OkRn.Edge
