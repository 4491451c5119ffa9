/-
OkRn/Approve/Openings.lean

Budgets and their openings: the key opens a budget at the press, the phone keeps
the record of its opening when the answer has come.

A call (`approve`, `answerAgent`) sends its request, waits for the key's answer,
and writes the record.  The library waits for a time only, and resolves with the
budget only when the answer came.  `openings` reads the records once and then
answers from memory, which the phone's own writes are added to.

Between the press and the write nothing keeps the opening: a lost answer, a press
after the library gave up, a failing write or the end of the app leaves a link
without its opening (`every_budget_has_its_opening`).
-/
import OkRn.Lib.Bytes
import OkRn.Lib.Along
import Mathlib.Data.List.Pairwise
import Mathlib.Logic.Function.Basic

namespace OkRn.Approve

/-! ### Requests and records -/

/-- A request of the tab. -/
structure EdgeRequest (S : Type) where
  id : Nat
  reason : String
  scopes : List S
  sender : String
  ttlMinutes : Option Nat

/-- An EDGE_REQUEST of a paired computer. -/
structure AgentMsg (R : Type) where
  reason : String
  scopes : R
  lifetime : Nat

/-- What the calls use of the library. -/
structure ApproveLib (S R : Type) where
  messageHash : String → Bytes 32
  grantScopes : AgentMsg R → List S

/-- What is asked of the key, and kept with the answer. -/
structure Asked (S : Type) where
  reason : String
  scopes : List S
  sender : String
  lifetime : Nat
  computer : Option String

/-- The two calls by which the phone has a budget opened. -/
inductive Call (S R : Type)
  | approve (r : EdgeRequest S)
  | answerAgent (msg : AgentMsg R) (sender : String) (computer : Option String)

/-- What a call asks for. -/
def Call.asked {S R : Type} (L : ApproveLib S R) : Call S R → Asked S
  | .approve r => ⟨r.reason, r.scopes, r.sender, r.ttlMinutes.getD 0, none⟩
  | .answerAgent msg sender computer =>
      ⟨msg.reason, L.grantScopes msg, sender, msg.lifetime, computer⟩

/-- The key's answer: the budget, with the checkpoint over its link. -/
structure Grant where
  grantId : Nat
  uses : Nat
  genesis : Bytes 32
  signature : Bytes 64

/-- The record of an opening. -/
structure Kept (S : Type) where
  reason : String
  scopes : List S
  uses : Nat
  genesis : Bytes 32
  sender : String
  signature : Bytes 64
  lifetime : Nat
  opened : Nat
  computer : Option String

/-- What the copy is checked against. -/
structure Opening (S : Type) where
  scopes : List S
  reasonHash : Bytes 32
  genesis : Bytes 32
  uses : Nat
  lifetime : Nat
  signature : Bytes 64

variable {S R : Type}

/-- `openingOf`. -/
def openingOf (L : ApproveLib S R) (k : Kept S) : Opening S :=
  ⟨k.scopes, L.messageHash k.reason, k.genesis, k.uses, k.lifetime, k.signature⟩

/-- The record that `keepOpening` writes. -/
def keptOf (g : Grant) (o : Asked S) (now : Nat) : Kept S :=
  ⟨o.reason, o.scopes, g.uses, g.genesis, o.sender, g.signature, o.lifetime, now, o.computer⟩

/-- A grant-create link: whose request it answers, and the budget. -/
structure Opened (S : Type) where
  call : Nat
  asked : Asked S
  grant : Grant

/-- What the link commits to. -/
def Opened.opening (L : ApproveLib S R) (e : Opened S) : Opening S :=
  ⟨e.asked.scopes, L.messageHash e.asked.reason, e.grant.genesis, e.grant.uses, e.asked.lifetime,
    e.grant.signature⟩

/-- The record of a budget that was asked for and answered is its opening. -/
theorem openingOf_keptOf (L : ApproveLib S R) (e : Opened S) (now : Nat) :
    openingOf L (keptOf e.grant e.asked now) = e.opening L := rfl

/-! ### Calls, the key and storage -/

/-- How far a call is. -/
inductive Stage (S : Type)
  | idle
  /-- The copy is checked, the person is asked. -/
  | checking (o : Asked S)
  /-- The request went to the key. -/
  | waiting (o : Asked S)
  /-- The answer came; the record is being written. -/
  | keeping (o : Asked S) (g : Grant)
  /-- The record is written. -/
  | kept (g : Grant) (k : Kept S)
  | ended

/-- The key's chain and what it waits for, the calls, and the records of the openings. -/
structure World (S : Type) where
  nextSeq : Nat
  /-- The links of the budgets this phone asked for. -/
  chain : List (Opened S)
  /-- The request that waits for its press. -/
  pending : Option (Nat × Asked S)
  stage : Nat → Stage S
  /-- The records in storage. -/
  registry : Nat → Option (Kept S)
  /-- `openingsKept`. -/
  memory : Option (Nat → Option (Opening S))
  /-- What calls of `openings` have read. -/
  loading : List (Nat → Option (Opening S))

/-- The parts of a call, the key's own steps, what `openings` does, and the end of the app. -/
inductive Event (S R : Type)
  | start (n : Nat) (c : Call S R)
  /-- Nothing goes to the key: the copy does not verify, the person says no. -/
  | refuse (n : Nat)
  | send (n : Nat)
  /-- The press: `grant_pressed`. -/
  | press (uses : Nat) (genesis : Bytes 32) (signature : Bytes 64)
  /-- The wait for a press is over. -/
  | drop
  /-- The key links something else. -/
  | link
  /-- The answer is here. -/
  | answer (n : Nat)
  /-- The library's wait is over, or the key refused. -/
  | giveUp (n : Nat)
  /-- `setItem`; it may fail. -/
  | store (n now : Nat) (ok : Bool)
  /-- The memory follows the write. -/
  | remember (n : Nat)
  /-- `openings` reads storage. -/
  | read
  | load (i : Nat)
  /-- The app ends, and starts anew. -/
  | kill

namespace World

/-- `grant_pressed`: the budget of the waiting request is linked, under the link's seq plus one. -/
def grantPressed (uses : Nat) (genesis : Bytes 32) (signature : Bytes 64) (w : World S) :
    World S :=
  match w.pending with
  | none => w
  | some (n, o) =>
      { w with
        nextSeq := w.nextSeq + 1
        chain := ⟨n, o, ⟨w.nextSeq + 1, uses, genesis, signature⟩⟩ :: w.chain
        pending := none }

/-- The call goes on to this stage. -/
def setStage (n : Nat) (x : Stage S) (w : World S) : World S :=
  { w with stage := Function.update w.stage n x }

/-- The answer to the request of call `n`, if the key made one. -/
def answerFor (n : Nat) (w : World S) : Option (Opened S) := w.chain.find? fun e => e.call == n

/-- The part of `keepOpening` that writes. -/
def storeKept (n now : Nat) (ok : Bool) (o : Asked S) (g : Grant) (w : World S) : World S :=
  if ok then
    let k := keptOf g o now
    { w.setStage n (.kept g k) with registry := Function.update w.registry g.grantId (some k) }
  else w.setStage n .ended

/-- The part of `keepOpening` after the write. -/
def remembered (L : ApproveLib S R) (g : Grant) (k : Kept S) (w : World S) : World S :=
  { w with memory := w.memory.map fun m => Function.update m g.grantId (some (openingOf L k)) }

/-- What `openings` reads. -/
def stored (L : ApproveLib S R) (w : World S) : Nat → Option (Opening S) :=
  fun id => (w.registry id).map (openingOf L)

/-- What an event does; a call that is not at the stage of the event is left as it is. -/
def step (L : ApproveLib S R) (w : World S) : Event S R → World S
  | .start n c => match w.stage n with
    | .idle => w.setStage n (.checking (c.asked L))
    | _ => w
  | .refuse n => match w.stage n with
    | .checking _ => w.setStage n .ended
    | _ => w
  | .send n => match w.stage n with
    | .checking o => { w.setStage n (.waiting o) with pending := some (n, o) }
    | _ => w
  | .press uses genesis signature => w.grantPressed uses genesis signature
  | .drop => { w with pending := none }
  | .link => { w with nextSeq := w.nextSeq + 1 }
  | .answer n => match w.stage n, w.answerFor n with
    | .waiting o, some e => w.setStage n (.keeping o e.grant)
    | _, _ => w
  | .giveUp n => match w.stage n with
    | .waiting _ => w.setStage n .ended
    | _ => w
  | .store n now ok => match w.stage n with
    | .keeping o g => w.storeKept n now ok o g
    | _ => w
  | .remember n => match w.stage n with
    | .kept g k => (w.remembered L g k).setStage n .ended
    | _ => w
  | .read => if w.memory.isNone then { w with loading := w.stored L :: w.loading } else w
  | .load i => match w.loading[i]? with
    | some m => { w with memory := some m, loading := w.loading.eraseIdx i }
    | none => w
  | .kill =>
      { w with
        memory := none
        loading := []
        stage := fun n => match w.stage n with
          | .idle => .idle
          | _ => .ended }

/-- A phone and a key with an empty chain. -/
def new : World S := ⟨0, [], none, fun _ => .idle, fun _ => none, none, []⟩

/-! ### What is kept -/

/-- The phone holds the opening, now or after its next start. -/
def Holds (L : ApproveLib S R) (w : World S) (e : Opened S) : Prop :=
  (∃ m, w.memory = some m ∧ m e.grant.grantId = some (e.opening L)) ∨
    w.stored L e.grant.grantId = some (e.opening L)

/-- Every budget whose call has ended has its opening. -/
def Covered (L : ApproveLib S R) (w : World S) : Prop :=
  ∀ e ∈ w.chain, w.stage e.call = .ended → w.Holds L e

/-- No opening is lost here: a press finds its call alive, the library does not give up on a
request that was pressed, the write does not fail, and the app does not end between a press and
the write. -/
def PressAwaited (w : World S) : Event S R → Prop
  | .press _ _ _ => ∀ n o, w.pending = some (n, o) → w.stage n ≠ .ended
  | .giveUp n => (∃ o, w.stage n = .waiting o) → ∀ e ∈ w.chain, e.call ≠ n
  | .store n _ ok => (∃ o g, w.stage n = .keeping o g) → ok = true
  | .kill => ∀ e ∈ w.chain, (∀ o, w.stage e.call ≠ .waiting o) ∧
      ∀ o g, w.stage e.call ≠ .keeping o g
  | _ => True

/-! ### What every run keeps -/

variable {L : ApproveLib S R} {w : World S} {n : Nat}

/-- The record of this budget's opening is in storage. -/
def Recorded (L : ApproveLib S R) (w : World S) (e : Opened S) : Prop :=
  w.stored L e.grant.grantId = some (e.opening L)

/-- What the chain, the waiting request and storage say of a call that is so far. -/
def Fits (L : ApproveLib S R) (w : World S) (n : Nat) : Stage S → Prop
  | .idle | .checking _ => (∀ e ∈ w.chain, e.call ≠ n) ∧ ∀ o, w.pending ≠ some (n, o)
  | .waiting o =>
      (∀ e ∈ w.chain, e.call = n → e.asked = o ∧ w.registry e.grant.grantId = none) ∧
        ∀ o', w.pending = some (n, o') → o' = o
  | .keeping o g => ∃ e ∈ w.chain, e.call = n ∧ e.asked = o ∧ e.grant = g ∧
      w.registry g.grantId = none
  | .kept g k => ∃ e ∈ w.chain, e.call = n ∧ e.grant = g ∧ openingOf L k = e.opening L ∧
      w.Recorded L e
  | .ended => True

/-- The budgets on the chain are told apart by id and by call, each call is at a stage that fits its
budget, and the records and the memory hold only openings of the chain. -/
structure Inv (L : ApproveLib S R) (w : World S) : Prop where
  ids : ∀ a ∈ w.chain, ∀ b ∈ w.chain, a.grant.grantId = b.grant.grantId → a = b
  calls : ∀ a ∈ w.chain, ∀ b ∈ w.chain, a.call = b.call → a = b
  low : ∀ e ∈ w.chain, e.grant.grantId ≤ w.nextSeq
  free : ∀ n o, w.pending = some (n, o) → ∀ e ∈ w.chain, e.call ≠ n
  fits : ∀ n, w.Fits L n (w.stage n)
  registry : ∀ id k, w.registry id = some k →
    ∃ e ∈ w.chain, e.grant.grantId = id ∧ openingOf L k = e.opening L
  memory : ∀ m, w.memory = some m ∨ m ∈ w.loading →
    ∀ id o, m id = some o → w.stored L id = some o

theorem inv_new : Inv L (new : World S) where
  ids _ h := by cases h
  calls _ h := by cases h
  low _ h := by cases h
  free _ _ h := by cases h
  fits _ := ⟨fun _ h => (by cases h), fun _ h => (by cases h)⟩
  registry _ _ h := by cases h
  memory _ h := by rcases h with h | h <;> cases h

/-- What the memory holds, storage holds. -/
theorem Inv.holds_iff (h : w.Inv L) {e : Opened S} : w.Holds L e ↔ w.Recorded L e := by
  constructor
  · rintro (⟨m, hm, he⟩ | he)
    · exact h.memory m (Or.inl hm) _ _ he
    · exact he
  · exact Or.inr

/-- An opening without its record is not recorded. -/
theorem not_recorded {e : Opened S} (h : w.registry e.grant.grantId = none) :
    ¬ w.Recorded L e := by
  simp [Recorded, stored, h]

theorem Inv.setStage (h : w.Inv L) {x : Stage S} (hx : w.Fits L n x) :
    (w.setStage n x).Inv L := by
  refine { h with fits := fun m => ?_ }
  change w.Fits L m (Function.update w.stage n x m)
  rcases eq_or_ne m n with rfl | hm
  · rw [Function.update_self]
    exact hx
  · rw [Function.update_of_ne hm]
    exact h.fits m

/-- What is written into the memory is what the storage holds. -/
theorem Inv.remembered (h : w.Inv L) {g : Grant} {k : Kept S}
    (hk : w.stored L g.grantId = some (openingOf L k)) : (w.remembered L g k).Inv L := by
  refine { h with memory := fun m hm id o ho => ?_ }
  rcases hm with hm | hm
  · obtain ⟨m', hm', rfl⟩ := Option.map_eq_some_iff.mp hm
    rcases eq_or_ne id g.grantId with rfl | hid
    · rw [Function.update_self] at ho
      exact hk.trans ho
    · rw [Function.update_of_ne hid] at ho
      exact h.memory m' (Or.inl hm') id o ho
  · exact h.memory m (Or.inr hm) id o ho

/-- A record that is written where the same budget's may be leaves every other where it was. -/
theorem stored_update (h : w.Inv L) {e : Opened S} (he : e ∈ w.chain) {k : Kept S}
    (hk : openingOf L k = e.opening L) {id : Nat} {o : Opening S} (ho : w.stored L id = some o) :
    (Function.update w.registry e.grant.grantId (some k) id).map (openingOf L) = some o := by
  rcases eq_or_ne id e.grant.grantId with rfl | hid
  · obtain ⟨k', hk', rfl⟩ := Option.map_eq_some_iff.mp ho
    obtain ⟨e', he', hid', hopen⟩ := h.registry _ k' hk'
    rw [h.ids e' he' e he hid'] at hopen
    rw [Function.update_self, Option.map_some, hk, hopen]
  · rw [Function.update_of_ne hid]
    exact ho

/-- A write of the record, done or failed. -/
theorem Inv.storeKept (h : w.Inv L) {o : Asked S} {g : Grant} (hn : w.stage n = .keeping o g)
    (now : Nat) (ok : Bool) : (w.storeKept n now ok o g).Inv L := by
  obtain ⟨e, he, rfl, rfl, rfl, -⟩ : w.Fits L n (.keeping o g) := hn ▸ h.fits n
  unfold World.storeKept
  cases ok with
  | false => exact h.setStage trivial
  | true =>
    have hstored : ∀ {id o}, w.stored L id = some o → (Function.update w.registry
        e.grant.grantId (some (keptOf e.grant e.asked now)) id).map (openingOf L) = some o :=
      fun ho => stored_update h he (openingOf_keptOf L e now) ho
    -- the ids differ from call to call, so this record is no other call's
    have hnone : ∀ {x : Opened S}, x ∈ w.chain → x.call ≠ e.call →
        Function.update w.registry e.grant.grantId (some (keptOf e.grant e.asked now))
          x.grant.grantId = w.registry x.grant.grantId := fun hx hne =>
      Function.update_of_ne (fun hid => hne (by rw [h.ids _ hx e he hid])) _ _
    refine { h with fits := fun m => ?_, registry := fun id k hk => ?_, memory := ?_ }
    · change Fits L _ m (Function.update w.stage e.call _ m)
      rcases eq_or_ne m e.call with rfl | hm
      · rw [Function.update_self]
        refine ⟨e, he, rfl, rfl, openingOf_keptOf L e now, ?_⟩
        simp [Recorded, stored, openingOf_keptOf]
      · rw [Function.update_of_ne hm]
        have hfit := h.fits m
        rcases hs : w.stage m with - | o | o | ⟨o, g⟩ | ⟨g, k⟩ | - <;> rw [hs] at hfit
        · exact hfit
        · exact hfit
        · refine ⟨fun x hx hxm => ⟨(hfit.1 x hx hxm).1, ?_⟩, hfit.2⟩
          exact (hnone hx (hxm ▸ hm)).trans (hfit.1 x hx hxm).2
        · obtain ⟨x, hx, rfl, rfl, rfl, hreg⟩ := hfit
          exact ⟨x, hx, rfl, rfl, rfl, (hnone hx hm).trans hreg⟩
        · obtain ⟨x, hx, rfl, rfl, hopen, hrec⟩ := hfit
          exact ⟨x, hx, rfl, rfl, hopen, hstored hrec⟩
        · trivial
    · -- what is in the registry is an opening of the chain
      change Function.update w.registry e.grant.grantId _ id = some k at hk
      rcases eq_or_ne id e.grant.grantId with rfl | hid
      · rw [Function.update_self, Option.some.injEq] at hk
        subst hk
        exact ⟨e, he, rfl, openingOf_keptOf L e now⟩
      · rw [Function.update_of_ne hid] at hk
        exact h.registry id k hk
    · exact fun m hm id o ho => hstored (h.memory m hm id o ho)

/-- The press welds the budget's opening for the call that waits. -/
theorem Inv.grantPressed (h : w.Inv L) (uses : Nat) (genesis : Bytes 32) (signature : Bytes 64) :
    (w.grantPressed uses genesis signature).Inv L := by
  unfold World.grantPressed
  split
  · exact h
  · rename_i n o hp
    have hfree := h.free n o hp
    -- every record is of an older opening, so none has the new id
    have hnew : w.registry (w.nextSeq + 1) = none := by
      rcases hr : w.registry (w.nextSeq + 1) with - | k
      · rfl
      · obtain ⟨e, he, hid, -⟩ := h.registry _ k hr
        have := h.low e he
        omega
    refine { h with ids := ?_, calls := ?_, low := ?_, free := ?_, fits := fun m => ?_,
                    registry := fun id k hk => ?_ }
    · -- two openings with one id: the new one is above all others
      rintro a (- | ⟨-, ha⟩) b (- | ⟨-, hb⟩) hid
      · rfl
      · have := h.low b hb
        change w.nextSeq + 1 = _ at hid
        omega
      · have := h.low a ha
        change _ = w.nextSeq + 1 at hid
        omega
      · exact h.ids a ha b hb hid
    · rintro a (- | ⟨-, ha⟩) b (- | ⟨-, hb⟩) hcall
      · rfl
      · exact absurd hcall.symm (hfree b hb)
      · exact absurd hcall (hfree a ha)
      · exact h.calls a ha b hb hcall
    · rintro e (- | ⟨-, he⟩)
      · exact le_rfl
      · exact Nat.le_succ_of_le (h.low e he)
    · exact fun _ _ hnone => by cases hnone
    · have hfit := h.fits m
      change Fits L _ m (w.stage m)
      rcases hs : w.stage m with - | o' | o' | ⟨o', g⟩ | ⟨g, k⟩ | - <;> rw [hs] at hfit
      · refine ⟨?_, fun _ hnone => by cases hnone⟩
        rintro e (- | ⟨-, he⟩)
        · rintro rfl
          exact hfit.2 o hp
        · exact hfit.1 e he
      · refine ⟨?_, fun _ hnone => by cases hnone⟩
        rintro e (- | ⟨-, he⟩)
        · rintro rfl
          exact hfit.2 o hp
        · exact hfit.1 e he
      · refine ⟨?_, fun _ hnone => by cases hnone⟩
        rintro e (- | ⟨-, he⟩) hcall
        · subst hcall
          exact ⟨hfit.2 o hp, hnew⟩
        · exact hfit.1 e he hcall
      · obtain ⟨x, hx, hrest⟩ := hfit
        exact ⟨x, .tail _ hx, hrest⟩
      · obtain ⟨x, hx, hrest⟩ := hfit
        exact ⟨x, .tail _ hx, hrest⟩
      · trivial
    · obtain ⟨e, he, hrest⟩ := h.registry id k hk
      exact ⟨e, .tail _ he, hrest⟩

/-- The request goes to the key, and the call waits for its press. -/
theorem Inv.send (h : w.Inv L) {o : Asked S} (hn : w.stage n = .checking o) :
    ({ w.setStage n (.waiting o) with pending := some (n, o) } : World S).Inv L := by
  obtain ⟨hnone, -⟩ : w.Fits L n (.checking o) := hn ▸ h.fits n
  refine { h with free := ?_, fits := fun m => ?_ }
  · intro n' o' hp
    cases hp
    exact hnone
  · change Fits L _ m (Function.update w.stage n _ m)
    rcases eq_or_ne m n with rfl | hm
    · rw [Function.update_self]
      refine ⟨fun e he hcall => absurd hcall (hnone e he), fun o' hp => ?_⟩
      cases hp
      rfl
    · rw [Function.update_of_ne hm]
      have hother : ∀ {o'}, some (n, o) ≠ some (m, o') := fun hp => hm (by cases hp; rfl)
      have hfit := h.fits m
      rcases hs : w.stage m with - | o' | o' | ⟨o', g⟩ | ⟨g, k⟩ | - <;> rw [hs] at hfit
      · exact ⟨hfit.1, fun _ => hother⟩
      · exact ⟨hfit.1, fun _ => hother⟩
      · exact ⟨hfit.1, fun _ hp => absurd hp hother⟩
      · exact hfit
      · exact hfit
      · trivial

theorem Inv.drop (h : w.Inv L) : ({ w with pending := none } : World S).Inv L := by
  refine { h with free := fun _ _ hp => (by cases hp), fits := fun m => ?_ }
  have hfit := h.fits m
  change Fits L _ m (w.stage m)
  rcases hs : w.stage m with - | o' | o' | ⟨o', g⟩ | ⟨g, k⟩ | - <;> rw [hs] at hfit
  · exact ⟨hfit.1, fun _ hp => by cases hp⟩
  · exact ⟨hfit.1, fun _ hp => by cases hp⟩
  · exact ⟨hfit.1, fun _ hp => by cases hp⟩
  · exact hfit
  · exact hfit
  · trivial

/-- The answer to a call is the budget it had opened. -/
theorem mem_answerFor {e : Opened S} (h : w.answerFor n = some e) : e ∈ w.chain ∧ e.call = n := by
  have hcall := List.find?_some h
  rw [beq_iff_eq] at hcall
  exact ⟨List.mem_of_find?_eq_some h, hcall⟩

/-- Every event keeps the invariant. -/
theorem Inv.step (h : w.Inv L) (e : Event S R) : (w.step L e).Inv L := by
  cases e with
  | start n c =>
    simp only [World.step]
    split
    · rename_i hn
      have hfit : w.Fits L n .idle := hn ▸ h.fits n
      exact h.setStage hfit
    · exact h
  | refuse n =>
    simp only [World.step]
    split
    · exact h.setStage trivial
    · exact h
  | send n =>
    simp only [World.step]
    split
    · rename_i hn
      exact h.send hn
    · exact h
  | press uses genesis signature => exact h.grantPressed uses genesis signature
  | drop => exact h.drop
  | link => exact { h with low := fun e he => Nat.le_succ_of_le (h.low e he) }
  -- the answer names the opening its call waits for
  | answer n =>
    simp only [World.step]
    split
    · rename_i o e hn hanswer
      obtain ⟨he, rfl⟩ := mem_answerFor hanswer
      have hfit : w.Fits L e.call (.waiting o) := hn ▸ h.fits e.call
      obtain ⟨rfl, hnone⟩ := hfit.1 e he rfl
      exact h.setStage ⟨e, he, rfl, rfl, rfl, hnone⟩
    · exact h
  | giveUp n =>
    simp only [World.step]
    split
    · exact h.setStage trivial
    · exact h
  | store n now ok =>
    simp only [World.step]
    split
    · rename_i hn
      exact h.storeKept hn now ok
    · exact h
  | remember n =>
    simp only [World.step]
    split
    · rename_i g k hn
      obtain ⟨e, he, rfl, rfl, hopen, hrec⟩ : w.Fits L n (.kept g k) := hn ▸ h.fits n
      refine (h.remembered ?_).setStage trivial
      exact hrec.trans (congrArg some hopen.symm)
    · exact h
  | read =>
    simp only [World.step]
    split
    · refine { h with memory := fun m hm id o ho => ?_ }
      rcases hm with hm | - | ⟨-, hm⟩
      · exact h.memory m (Or.inl hm) id o ho
      · exact ho
      · exact h.memory m (Or.inr hm) id o ho
    · exact h
  | load i =>
    simp only [World.step]
    split
    · rename_i m' hm'
      refine { h with memory := fun m hm id o ho => ?_ }
      rcases hm with hm | hm
      · cases hm
        exact h.memory m' (Or.inr (List.mem_of_getElem? hm')) id o ho
      · exact h.memory m (Or.inr (List.mem_of_mem_eraseIdx hm)) id o ho
    · exact h
  -- every call but an idle one ends with the app
  | kill =>
    refine { h with fits := fun m => ?_, memory := fun m hm => ?_ }
    · have hfit := h.fits m
      change Fits L _ m (match w.stage m with | .idle => .idle | _ => .ended)
      rcases hs : w.stage m with - | o' | o' | ⟨o', g⟩ | ⟨g, k⟩ | - <;> rw [hs] at hfit
      · exact hfit
      all_goals trivial
    · rcases hm with hm | hm <;> cases hm

/-! ### When an opening is lost -/

/-- Everything is covered when each call that has ended left its record. -/
theorem Inv.covered_iff (h : w.Inv L) :
    w.Covered L ↔ ∀ e ∈ w.chain, w.stage e.call = .ended → w.Recorded L e := by
  simp only [Covered, h.holds_iff]

/-- A call that has not ended has nothing to be covered. -/
theorem covered_setStage {x : Stage S} (h : w.Covered L) (hx : x ≠ .ended) :
    (w.setStage n x).Covered L := by
  intro e he hs
  change Function.update w.stage n x e.call = .ended at hs
  rcases eq_or_ne e.call n with hn | hn
  · rw [hn, Function.update_self] at hs
    exact absurd hs hx
  · rw [Function.update_of_ne hn] at hs
    exact h e he hs

/-- A call may end when what it opened is held. -/
theorem covered_ended (h : w.Covered L) :
    (w.setStage n .ended).Covered L ↔ ∀ e ∈ w.chain, e.call = n → w.Holds L e := by
  constructor
  · intro h' e he hn
    exact h' e he (by rw [hn]; exact Function.update_self ..)
  · intro h' e he hs
    rcases eq_or_ne e.call n with hn | hn
    · exact h' e he hn
    · change Function.update w.stage n .ended e.call = .ended at hs
      rw [Function.update_of_ne hn] at hs
      exact h e he hs

/-- A call that waits for its answer may end just if the key has opened nothing for it. -/
theorem covered_giveUp (h : w.Inv L) (hc : w.Covered L) {o : Asked S}
    (hn : w.stage n = .waiting o) :
    (w.setStage n .ended).Covered L ↔ ∀ e ∈ w.chain, e.call ≠ n := by
  rw [covered_ended hc]
  have hfit : w.Fits L n (.waiting o) := hn ▸ h.fits n
  constructor
  · intro h' e he hcall
    exact not_recorded (hfit.1 e he hcall).2 (h.holds_iff.mp (h' e he hcall))
  · intro h' e he hcall
    exact absurd hcall (h' e he)

/-- A press is covered when its call still waits. -/
theorem covered_press (h : w.Inv L) (hc : w.Covered L) {o : Asked S} (hp : w.pending = some (n, o))
    (uses : Nat) (genesis : Bytes 32) (signature : Bytes 64) :
    (w.grantPressed uses genesis signature).Covered L ↔ w.stage n ≠ .ended := by
  have h' := h.grantPressed uses genesis signature
  have hnone : w.registry (w.nextSeq + 1) = none := by
    rcases hr : w.registry (w.nextSeq + 1) with - | k
    · rfl
    · obtain ⟨e, he, hid, -⟩ := h.registry _ k hr
      have := h.low e he
      omega
  have hw : w.grantPressed uses genesis signature =
      { w with
        nextSeq := w.nextSeq + 1
        chain := ⟨n, o, ⟨w.nextSeq + 1, uses, genesis, signature⟩⟩ :: w.chain
        pending := none } := by
    simp [grantPressed, hp]
  rw [hw] at h' ⊢
  rw [h'.covered_iff]
  constructor
  · intro hall hend
    exact not_recorded (L := L) hnone (hall _ (.head _) hend)
  · rintro halive e (- | ⟨-, he⟩) hend
    · exact absurd hend halive
    · exact h.covered_iff.mp hc e he hend

/-- The write of a record is covered when it does not fail. -/
theorem covered_store (h : w.Inv L) (hc : w.Covered L) {o : Asked S} {g : Grant}
    (hn : w.stage n = .keeping o g) (now : Nat) (ok : Bool) :
    (w.storeKept n now ok o g).Covered L ↔ ok = true := by
  have h' := h.storeKept hn now ok
  obtain ⟨e, he, rfl, rfl, rfl, hnone⟩ : w.Fits L n (.keeping o g) := hn ▸ h.fits n
  cases ok with
  | false =>
    change (w.setStage e.call .ended).Covered L ↔ _
    rw [covered_ended hc]
    refine ⟨fun hall => ?_, fun hf => absurd hf (by decide)⟩
    exact absurd (h.holds_iff.mp (hall e he rfl)) (not_recorded hnone)
  | true =>
    refine ⟨fun _ => rfl, fun _ => h'.covered_iff.mpr fun x hx hs => ?_⟩
    change Function.update w.stage e.call _ x.call = .ended at hs
    rcases eq_or_ne x.call e.call with hcall | hcall
    · rw [hcall, Function.update_self] at hs
      cases hs
    · rw [Function.update_of_ne hcall] at hs
      exact stored_update h he (openingOf_keptOf L e now) (h.covered_iff.mp hc x hx hs)

/-- A record that is in storage and in memory covers its opening. -/
theorem covered_remember (h : w.Inv L) (hc : w.Covered L) {g : Grant} {k : Kept S}
    (hn : w.stage n = .kept g k) : ((w.remembered L g k).setStage n .ended).Covered L := by
  obtain ⟨e, he, rfl, rfl, hopen, hrec⟩ : w.Fits L n (.kept g k) := hn ▸ h.fits n
  have h' : (w.remembered L e.grant k).Inv L :=
    h.remembered (hrec.trans (congrArg some hopen.symm))
  have hc' : (w.remembered L e.grant k).Covered L :=
    h'.covered_iff.mpr fun x hx hs => h.covered_iff.mp hc x hx hs
  refine (covered_ended hc').mpr fun x hx hcall => ?_
  rw [h.calls x hx e he hcall]
  exact h'.holds_iff.mpr hrec

/-- The end of the app is covered when no call stands between its press and its record. -/
theorem covered_kill (h : w.Inv L) (hc : w.Covered L) :
    (w.step L .kill).Covered L ↔ w.PressAwaited (.kill : Event S R) := by
  have h' := h.step .kill
  rw [h'.covered_iff]
  constructor
  · -- what waits or is being kept is not recorded yet
    intro hall e he
    have hrec : w.stage e.call ≠ .idle → w.Recorded L e := fun hs =>
      hall e he (by simp only [World.step])
    constructor
    · intro o hs
      have hfit : w.Fits L e.call (.waiting o) := hs ▸ h.fits e.call
      exact not_recorded (hfit.1 e he rfl).2 (hrec (by rw [hs]; exact nofun))
    · intro o g hs
      obtain ⟨x, hx, hcall, -, rfl, hnone⟩ : w.Fits L e.call (.keeping o g) :=
        hs ▸ h.fits e.call
      rw [h.calls x hx e he hcall] at hnone
      exact not_recorded hnone (hrec (by rw [hs]; exact nofun))
  · -- an opening whose call is at any other stage is recorded
    intro hcond e he _
    have hfit := h.fits e.call
    rcases hs : w.stage e.call with - | o | o | ⟨o, g⟩ | ⟨g, k⟩ | - <;> rw [hs] at hfit
    · exact absurd rfl (hfit.1 e he)
    · exact absurd rfl (hfit.1 e he)
    · exact absurd hs ((hcond e he).1 o)
    · exact absurd hs ((hcond e he).2 o g)
    · obtain ⟨x, hx, hcall, -, -, hrec⟩ := hfit
      exact h.calls x hx e he hcall ▸ hrec
    · exact h.covered_iff.mp hc e he hs

/-- An event keeps every ended call's budget covered exactly if it leaves no press unawaited. -/
theorem covered_step (h : w.Inv L) (hc : w.Covered L) (e : Event S R) :
    (w.step L e).Covered L ↔ w.PressAwaited e := by
  cases e with
  | start n c =>
    refine ⟨fun _ => trivial, fun _ => ?_⟩
    simp only [World.step]
    split
    · exact covered_setStage hc nofun
    · exact hc
  | refuse n =>
    refine ⟨fun _ => trivial, fun _ => ?_⟩
    simp only [World.step]
    split
    · rename_i o hn
      have hfit : w.Fits L n (.checking o) := hn ▸ h.fits n
      exact (covered_ended hc).mpr fun e he hcall => absurd hcall (hfit.1 e he)
    · exact hc
  | send n =>
    refine ⟨fun _ => trivial, fun _ => ?_⟩
    simp only [World.step]
    split
    · exact fun e he hs => covered_setStage hc (x := .waiting _) nofun e he hs
    · exact hc
  | press uses genesis signature =>
    change (w.grantPressed uses genesis signature).Covered L ↔
      ∀ n o, w.pending = some (n, o) → w.stage n ≠ .ended
    rcases hp : w.pending with - | ⟨n, o⟩
    · rw [show w.grantPressed uses genesis signature = w by simp [grantPressed, hp]]
      exact ⟨fun _ _ _ hnone => (by cases hnone), fun _ => hc⟩
    · rw [covered_press h hc hp]
      refine ⟨fun halive n' o' heq => ?_, fun hall => hall n o rfl⟩
      cases heq
      exact halive
  | drop => exact ⟨fun _ => trivial, fun _ => hc⟩
  | link => exact ⟨fun _ => trivial, fun _ => hc⟩
  | answer n =>
    refine ⟨fun _ => trivial, fun _ => ?_⟩
    simp only [World.step]
    split
    · exact covered_setStage hc nofun
    · exact hc
  | giveUp n =>
    -- a call that gives up loses the opening of a press that comes, or came, for it
    simp only [World.step, PressAwaited]
    split
    · rename_i o hn
      rw [covered_giveUp h hc hn]
      exact ⟨fun hall _ => hall, fun hall => hall ⟨o, hn⟩⟩
    · rename_i hn
      exact ⟨fun _ ⟨o, ho⟩ => absurd ho (hn o), fun _ => hc⟩
  | store n now ok =>
    -- the record is written or the opening is gone
    simp only [World.step, PressAwaited]
    split
    · rename_i o g hn
      rw [covered_store h hc hn]
      exact ⟨fun hok _ => hok, fun hall => hall ⟨o, g, hn⟩⟩
    · rename_i hn
      exact ⟨fun _ ⟨o, g, ho⟩ => absurd ho (hn o g), fun _ => hc⟩
  | remember n =>
    refine ⟨fun _ => trivial, fun _ => ?_⟩
    simp only [World.step]
    split
    · rename_i hn
      exact covered_remember h hc hn
    · exact hc
  | read =>
    refine ⟨fun _ => trivial, fun _ => ?_⟩
    simp only [World.step]
    split <;> exact hc
  | load i =>
    refine ⟨fun _ => trivial, fun _ => ?_⟩
    have h' := h.step (.load i)
    rw [h'.covered_iff]
    simp only [World.step]
    split
    · exact h.covered_iff.mp hc
    · exact h.covered_iff.mp hc
  | kill => exact covered_kill h hc

/-- All along a run the phone holds the opening of every budget whose call has ended, exactly if
at every step of it no opening was lost. -/
theorem every_budget_has_its_opening (L : ApproveLib S R) (events : List (Event S R)) :
    (∀ p, p <+: events → (p.foldl (step L) new).Covered L) ↔
      ∀ p e, p ++ [e] <+: events → (p.foldl (step L) new).PressAwaited e :=
  holds_along_iff inv_new (fun _ e h => h.step e) (fun _ h => by cases h)
    (fun _ e h hc => covered_step h hc e) events

/-- The app ends between the press and the write. -/
theorem opening_is_lost :
    ¬ ∀ (L : ApproveLib Unit Unit) (events p : List (Event Unit Unit)), p <+: events →
      (p.foldl (step L) new).Covered L := by
  intro h
  let L : ApproveLib Unit Unit := ⟨fun _ => Bytes.zero 32, fun _ => [()]⟩
  let request : EdgeRequest Unit := ⟨1, "sign the release", [()], "the tab", some 30⟩
  have hlost := h L [.start 0 (.approve request), .send 0,
    .press 5 (Bytes.zero 32) (Bytes.zero 64), .answer 0, .kill] _ (List.prefix_refl _)
  obtain ⟨m, hm, -⟩ | hstored := hlost _ (.head _) rfl
  · cases hm
  · cases hstored

end World

end OkRn.Approve
