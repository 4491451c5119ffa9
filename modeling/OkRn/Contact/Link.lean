/-
OkRn/Contact/Link.lean

The Bluetooth link of a contact swap, and the one send in flight on it.

Both roles share `sending`: a phone that hosts sends a notification, one that joined
writes, and either callback settles whichever promise is there.  A deadline and a
closed link settle it too, while the stack goes on with the fragment; its report,
when it comes, is taken for the next send's.

Every callback is posted to the main thread, so each is one step.  The stack reports
each fragment it accepted once, at any later time.

* `Inv` and `Handed` are kept in every run: promises settle once, and what the stack
  has is a fragment of a send, not yet reported;
* `Own` is what a run may lose: a promise that resolves had its own fragment
  acknowledged, and the stack has one at most;
* `AwaitsReports` is the order of events: after a send was given up none starts before
  the stack reports its fragment.

Main results: `sends_resolve_for_their_own_iff`, and `late_report_resolves_the_next_send`
for a send that starts too early.
-/
import OkRn.Lib.Along
import Mathlib.Data.List.Nodup

namespace OkRn.Contact

/-- The state of the module, with the fragments the stack has and how each promise was settled. -/
structure Link where
  /-- Hosting: the server, the phone that subscribed, and the characteristic it listens to. -/
  server : Bool := false
  peer : Bool := false
  tx : Bool := false
  /-- Joined: the connection, and the characteristic that is written. -/
  gatt : Bool := false
  rx : Bool := false
  /-- `joinPromise` is not answered yet. -/
  joining : Bool := false
  sending : Option Nat := none
  sendTimeout : Option Nat := none
  /-- The deadlines posted to the main thread. -/
  deadlines : List Nat := []
  /-- What happened, which no code reads: the sends called so far, the fragments the stack has, the
  ones it reported as delivered, and how the promises ended. -/
  calls : Nat := 0
  outstanding : List Nat := []
  acked : List Nat := []
  settled : List (Nat × Bool) := []

/-- The calls of the app and the callbacks, each posted to the main thread. -/
inductive Event
  /-- `send`, with the stack's answer should it be asked. -/
  | send (accepts : Bool)
  /-- `onNotificationSent` or `onCharacteristicWrite`, for a fragment the stack has. -/
  | reports (j : Nat) (ok : Bool)
  /-- A deadline is due. -/
  | deadline (i : Nat)
  | host
  | join
  /-- The other phone subscribes. -/
  | subscribes
  /-- `connectGatt`, `onServicesDiscovered`, and `onDescriptorWrite` with its status. -/
  | connects
  | discovers
  | subscribed (ok : Bool)
  /-- The other phone is gone: the one that subscribed, or the one joined. -/
  | peerLeaves
  | hostLeaves (again : Bool)
  | joinTimeout
  | close

/-- The events that are about the link and not about a fragment. -/
def Event.handles : Event → Bool
  | .send _ | .reports _ _ | .deadline _ => false
  | _ => true

namespace Link

/-- The send in flight is answered, and its deadline dropped. -/
def settle (ok : Bool) (s : Link) : Link :=
  match s.sending with
  | none => s
  | some p =>
      { s with
        sending := none
        sendTimeout := none
        deadlines := s.deadlines.filter fun d => some d ≠ s.sendTimeout
        settled := s.settled ++ [(p, ok)] }

/-- The promise in flight, if any, is rejected. -/
def failSend (s : Link) : Link := s.settle false

/-- `sent`, with the status of the callback. -/
def sent (ok : Bool) (s : Link) : Link := s.settle ok

/-- The link is closed on both roles, and the promise in flight rejected. -/
def closeAll (s : Link) : Link :=
  failSend
    { s with
      server := false, peer := false, tx := false, gatt := false, rx := false, joining := false }

/-- The stack has a link to send on, and takes the fragment. -/
def starts (accepts : Bool) (s : Link) : Bool :=
  ((s.server && s.peer && s.tx) || (s.gatt && s.rx)) && accepts

/-- A send starts when none is in flight and there is somebody to send to. -/
def send (accepts : Bool) (s : Link) : Link :=
  let p := s.calls
  let s := { s with calls := p + 1 }
  if s.sending.isSome then { s with settled := s.settled ++ [(p, false)] }
  else
    let s := { s with
      sending := some p, sendTimeout := some p, deadlines := s.deadlines ++ [p] }
    if s.starts accepts then { s with outstanding := s.outstanding ++ [p] } else s.failSend

/-- What an event does to the link. -/
def step (s : Link) : Event → Link
  | .send accepts => s.send accepts
  | .reports j ok =>
      match s.outstanding[j]? with
      | some p =>
          sent ok
            { s with
              outstanding := s.outstanding.eraseIdx j
              acked := if ok then s.acked ++ [p] else s.acked }
      | none => s
  | .deadline i =>
      match s.deadlines[i]? with
      | some p =>
          let s := { s with deadlines := s.deadlines.eraseIdx i }
          if s.sending = some p then s.failSend else s
      | none => s
  | .host => { s.closeAll with server := true, tx := true }
  | .join => { s.closeAll with joining := true }
  | .subscribes => if s.server then { s with peer := true } else s
  | .connects => if s.joining then { s with gatt := true } else s
  | .discovers => if s.gatt then { s with rx := true } else s
  | .subscribed ok =>
      if s.joining then if ok then { s with joining := false } else s.closeAll else s
  | .peerLeaves => if s.peer then { s with peer := false }.failSend else s
  | .hostLeaves again =>
      if s.joining then if again then s else s.closeAll else s.failSend
  | .joinTimeout => if s.joining then s.closeAll else s
  | .close => s.closeAll

/-! ### What is kept -/

/-- How often a promise was settled. -/
def times (s : Link) (p : Nat) : Nat := s.settled.countP fun x => x.1 == p

/-- Each promise is settled once, or is the one in flight and its deadline is still to come. -/
def Once (s : Link) : Prop :=
  ∀ p, s.times p = if p < s.calls ∧ s.sending ≠ some p then 1 else 0

/-- What is kept in every run. -/
structure Inv (s : Link) : Prop where
  once : s.Once
  sending : ∀ p, s.sending = some p →
    p < s.calls ∧ s.sendTimeout = some p ∧ p ∈ s.deadlines ∧ p ∈ s.outstanding

/-- Each promise is settled exactly once, at the latest by its deadline; one that resolved had its
own fragment acknowledged; and the stack has one fragment at most. -/
structure Kept (s : Link) : Prop where
  once : s.Once
  deadline : ∀ p, s.sending = some p → p < s.calls ∧ p ∈ s.deadlines
  resolved : ∀ p, (p, true) ∈ s.settled → p ∈ s.acked
  one : s.outstanding.length ≤ 1

/-- A send starts when the stack has reported every fragment whose send was given up: by its
deadline, or as the link was closed or left. -/
def AwaitsReports (s : Link) : Event → Prop
  | .send accepts => s.sending = none → s.starts accepts = true →
      ∀ p, (p, false) ∈ s.settled → p ∉ s.outstanding
  | _ => True

variable {s : Link}

/-- With nothing in flight nothing is settled. -/
theorem settle_idle {ok : Bool} (h : s.sending = none) : s.settle ok = s := by
  rw [settle, h]

/-- The promise in flight is settled, and nothing is in flight then. -/
theorem settle_some {ok : Bool} {p : Nat} (h : s.sending = some p) :
    s.settle ok =
      { s with
        sending := none
        sendTimeout := none
        deadlines := s.deadlines.filter fun d => some d ≠ s.sendTimeout
        settled := s.settled ++ [(p, ok)] } := by
  rw [settle, h]

/-- How often a promise was settled, with one settled more. -/
theorem times_append (l : List (Nat × Bool)) (p q : Nat) (ok : Bool) :
    (l ++ [(p, ok)]).countP (fun x => x.1 == q) =
      l.countP (fun x => x.1 == q) + if p = q then 1 else 0 := by
  by_cases h : p = q <;> simp [List.countP_append, h]

/-- An answer to the send in flight. -/
theorem Once.settle (h : s.Once) (hs : ∀ p, s.sending = some p → p < s.calls) (ok : Bool) :
    (s.settle ok).Once := by
  rcases hsending : s.sending with - | p
  · rw [settle_idle hsending]
    exact h
  · rw [settle_some hsending]
    intro q
    have hq := h q
    have hp := hs p hsending
    rw [hsending] at hq
    show (s.settled ++ [(p, ok)]).countP _ = _
    rw [times_append]
    simp only [times] at hq
    rw [hq]
    by_cases hpq : p = q
    · subst hpq
      simp [hp]
    · simp [hpq]

/-- A link with nothing in flight. -/
theorem Inv.idle (h : s.Once) (hs : s.sending = none) : s.Inv :=
  ⟨h, fun p hp => by rw [hs] at hp; cases hp⟩

/-- Nothing is in flight after a settle. -/
theorem settle_sending (ok : Bool) : (s.settle ok).sending = none := by
  rcases h : s.sending with - | p
  · rw [settle_idle h, h]
  · rw [settle_some h]

/-- After an answer nothing is in flight, whatever the stack still has. -/
theorem Inv.answered {s' : Link} (h : s.Inv) (ok : Bool) (hcalls : s'.calls = s.calls)
    (hsending : s'.sending = s.sending) (hsettled : s'.settled = s.settled) :
    (s'.settle ok).Inv := by
  have honce : s'.Once := by
    intro p
    rw [times, hsettled, hcalls, hsending]
    exact h.once p
  refine Inv.idle (honce.settle (fun p hp => ?_) ok) (settle_sending ok)
  rw [hcalls]
  exact (h.sending p (hsending ▸ hp)).1

/-- Only the handles of the link differ. -/
structure SameSends (s s' : Link) : Prop where
  calls : s'.calls = s.calls
  sending : s'.sending = s.sending
  sendTimeout : s'.sendTimeout = s.sendTimeout
  deadlines : s'.deadlines = s.deadlines
  outstanding : s'.outstanding = s.outstanding
  acked : s'.acked = s.acked
  settled : s'.settled = s.settled

/-- A settle on two links with the same sends. -/
theorem SameSends.settle {s' : Link} (ok : Bool) (h : SameSends s s') :
    SameSends (s.settle ok) (s'.settle ok) := by
  rcases hs : s.sending with - | p
  · have hs' : s'.sending = none := h.sending.trans hs
    rw [settle_idle hs, settle_idle hs']
    exact h
  · have hs' : s'.sending = some p := h.sending.trans hs
    rw [settle_some hs, settle_some hs']
    refine ⟨h.calls, rfl, rfl, ?_, h.outstanding, h.acked, ?_⟩
    · show s'.deadlines.filter _ = s.deadlines.filter _
      rw [h.deadlines, h.sendTimeout]
    · show s'.settled ++ [(p, ok)] = s.settled ++ [(p, ok)]
      rw [h.settled]

/-- What is kept of the sends is kept where the sends are the same. -/
theorem Inv.same {s' : Link} (h : s.Inv) (hs : SameSends s s') : s'.Inv := by
  constructor
  · intro p
    rw [times, hs.settled, hs.calls, hs.sending]
    exact h.once p
  · rw [hs.calls, hs.sending, hs.sendTimeout, hs.deadlines, hs.outstanding]
    exact h.sending

/-- The link comes up or goes down: the sends stay, or the one in flight is rejected. -/
theorem step_handles {e : Event} (he : e.handles = true) :
    SameSends s (s.step e) ∨ SameSends (s.settle false) (s.step e) := by
  have hrefl (s : Link) : SameSends s s := ⟨rfl, rfl, rfl, rfl, rfl, rfl, rfl⟩
  -- the four things that may become of the links; every event does one of them
  have hclosed : SameSends (s.settle false) s.closeAll :=
    SameSends.settle false ⟨rfl, rfl, rfl, rfl, rfl, rfl, rfl⟩
  have hreopened : SameSends (s.settle false) { s.closeAll with server := true, tx := true } :=
    ⟨hclosed.1, hclosed.2, hclosed.3, hclosed.4, hclosed.5, hclosed.6, hclosed.7⟩
  have hjoining : SameSends (s.settle false) { s.closeAll with joining := true } :=
    ⟨hclosed.1, hclosed.2, hclosed.3, hclosed.4, hclosed.5, hclosed.6, hclosed.7⟩
  cases e with
  | send _ | reports _ _ | deadline _ => cases he
  | host => exact Or.inr hreopened
  | join => exact Or.inr hjoining
  | subscribes | connects | discovers =>
    simp only [Link.step]
    split <;> exact Or.inl ⟨rfl, rfl, rfl, rfl, rfl, rfl, rfl⟩
  | subscribed ok =>
    simp only [Link.step]
    split
    · split
      · exact Or.inl ⟨rfl, rfl, rfl, rfl, rfl, rfl, rfl⟩
      · exact Or.inr hclosed
    · exact Or.inl (hrefl s)
  | peerLeaves =>
    simp only [Link.step]
    split
    · exact Or.inr (SameSends.settle false ⟨rfl, rfl, rfl, rfl, rfl, rfl, rfl⟩)
    · exact Or.inl (hrefl s)
  | hostLeaves again =>
    simp only [Link.step]
    split
    · split
      · exact Or.inl (hrefl s)
      · exact Or.inr hclosed
    · exact Or.inr (hrefl _)
  | joinTimeout =>
    simp only [Link.step]
    split
    · exact Or.inr hclosed
    · exact Or.inl (hrefl s)
  | close => exact Or.inr hclosed

/-- The events that only open and close. -/
theorem Inv.handles (h : s.Inv) {e : Event} (he : e.handles = true) : (s.step e).Inv := by
  rcases step_handles he with hs | hs
  · exact h.same hs
  · exact (h.answered false rfl rfl rfl).same hs

theorem inv_new : ({} : Link).Inv :=
  Inv.idle (fun p => by simp [times]) rfl

/-- A send is another promise, settled at once or in flight. -/
theorem Inv.send (h : s.Inv) (accepts : Bool) : (s.send accepts).Inv := by
  have hlast : s.times s.calls = 0 := by
    rw [h.once, if_neg (fun hlt => absurd hlt.1 (Nat.lt_irrefl _))]
  unfold Link.send
  dsimp only
  split
  · rename_i hbusy
    -- busy: rejected at once
    obtain ⟨p, hp⟩ := Option.isSome_iff_exists.mp hbusy
    obtain ⟨hlt, htimeout, hdeadline, hout⟩ := h.sending p hp
    constructor
    · intro q
      have hq := h.once q
      simp only [times, hp] at hq hlast ⊢
      rw [times_append, hq]
      by_cases hqc : s.calls = q
      · subst hqc
        have hne : p ≠ s.calls := Nat.ne_of_lt hlt
        simp [hne]
      · by_cases hqlt : q < s.calls
        · simp [hqc, hqlt, Nat.lt_succ_of_lt hqlt]
        · have hge : ¬ q < s.calls + 1 := by omega
          simp [hqc, hqlt, hge]
    · intro q hq
      obtain ⟨hlt, htimeout, hdeadline, hout⟩ := h.sending q hq
      exact ⟨Nat.lt_succ_of_lt hlt, htimeout, hdeadline, hout⟩
  · rename_i hidle
    -- the new promise is the one in flight, until it starts or is rejected
    have hnone : s.sending = none := by simpa using hidle
    have honce : ∀ q, s.times q = if q < s.calls + 1 ∧ some s.calls ≠ some q then 1 else 0 := by
      intro q
      have hq := h.once q
      rw [hnone] at hq
      rw [hq]
      by_cases hqc : s.calls = q
      · subst hqc
        simp
      · by_cases hqlt : q < s.calls
        · simp [hqc, hqlt, Nat.lt_succ_of_lt hqlt]
        · have hge : ¬ q < s.calls + 1 := by omega
          simp [hqlt, hge]
    split
    · refine ⟨honce, ?_⟩
      rintro q ⟨⟩
      exact ⟨Nat.lt_succ_self _, rfl, by simp, by simp⟩
    · have hrejected := Once.settle (s := { s with
          calls := s.calls + 1, sending := some s.calls, sendTimeout := some s.calls
          deadlines := s.deadlines ++ [s.calls] }) honce
        (by rintro q ⟨⟩; exact Nat.lt_succ_self _) false
      exact Inv.idle hrejected (settle_sending false)

/-- Every event keeps the promises settled once. -/
theorem Inv.step (h : s.Inv) (e : Event) : (s.step e).Inv := by
  cases e with
  | send accepts => exact h.send accepts
  | reports j ok =>
    simp only [Link.step]
    split
    · exact h.answered ok rfl rfl rfl
    · exact h
  | deadline i =>
    simp only [Link.step]
    split
    · rename_i p hp
      split
      · exact h.answered false rfl rfl rfl
      · rename_i hother
        refine ⟨h.once, fun q hq => ?_⟩
        obtain ⟨hlt, htimeout, hdeadline, hout⟩ := h.sending q hq
        refine ⟨hlt, htimeout, ?_, hout⟩
        -- another send's deadline
        have hne : q ≠ p := by
          rintro rfl
          exact hother hq
        obtain ⟨n, hn, hget⟩ := List.getElem_of_mem hdeadline
        refine List.mem_eraseIdx_iff_getElem.mpr ⟨n, hn, ?_, hget⟩
        rintro rfl
        rw [List.getElem?_eq_getElem hn, hget] at hp
        exact hne (Option.some.inj hp)
    · exact h
  | _ => exact h.handles rfl

/-! ### What the stack has -/

/-- What the stack has is a fragment of a send, handed over once and not reported as delivered. -/
structure Handed (s : Link) : Prop where
  nodup : s.outstanding.Nodup
  called : ∀ p ∈ s.outstanding, p < s.calls
  unreported : ∀ p ∈ s.outstanding, p ∉ s.acked
  acked : ∀ p ∈ s.acked, p < s.calls

/-- The fragments are the same where nothing was sent. -/
theorem Handed.same {s' : Link} (h : s.Handed) (hcalls : s.calls ≤ s'.calls)
    (hout : s'.outstanding = s.outstanding) (hacked : s'.acked = s.acked) : s'.Handed where
  nodup := hout ▸ h.nodup
  called p hp := Nat.lt_of_lt_of_le (h.called p (hout ▸ hp)) hcalls
  unreported p hp := by
    rw [hacked]
    exact h.unreported p (hout ▸ hp)
  acked p hp := Nat.lt_of_lt_of_le (h.acked p (hacked ▸ hp)) hcalls

/-- An answer takes nothing from the stack. -/
theorem Handed.settle (h : s.Handed) (ok : Bool) : (s.settle ok).Handed := by
  rcases hsending : s.sending with - | p
  · rw [settle_idle hsending]
    exact h
  · rw [settle_some hsending]
    exact h.same (Nat.le_refl _) rfl rfl

/-- A send hands over its own fragment. -/
theorem Handed.send (h : s.Handed) (accepts : Bool) : (s.send accepts).Handed := by
  unfold Link.send
  dsimp only
  split
  · exact h.same (Nat.le_succ _) rfl rfl
  · split
    · refine ⟨?_, fun p hp => ?_, fun p hp => ?_, fun p hp => Nat.lt_succ_of_lt (h.acked p hp)⟩
      · refine List.nodup_append.mpr ⟨h.nodup, List.nodup_singleton _, fun p hp q hq => ?_⟩
        rw [List.mem_singleton.mp hq]
        exact Nat.ne_of_lt (h.called p hp)
      · rcases List.mem_append.mp hp with hp | hp
        · exact Nat.lt_succ_of_lt (h.called p hp)
        · rw [List.mem_singleton.mp hp]
          exact Nat.lt_succ_self _
      · rcases List.mem_append.mp hp with hp | hp
        · exact h.unreported p hp
        · rw [List.mem_singleton.mp hp]
          exact fun hmem => Nat.lt_irrefl _ (h.acked _ hmem)
    · have hcalled : Handed { s with
          calls := s.calls + 1, sending := some s.calls, sendTimeout := some s.calls
          deadlines := s.deadlines ++ [s.calls] } := h.same (Nat.le_succ _) rfl rfl
      exact hcalled.settle false

/-- The stack reports a fragment it has. -/
theorem Handed.report (h : s.Handed) {j p : Nat} (hp : s.outstanding[j]? = some p) (ok : Bool) :
    Handed { s with
      outstanding := s.outstanding.eraseIdx j
      acked := if ok then s.acked ++ [p] else s.acked } := by
  have hmem : ∀ q ∈ s.outstanding.eraseIdx j, q ∈ s.outstanding := fun q hq =>
    List.mem_of_mem_eraseIdx hq
  have hgone : p ∉ s.outstanding.eraseIdx j := by
    obtain ⟨hj, rfl⟩ := List.getElem?_eq_some_iff.mp hp
    rw [← h.nodup.erase_getElem j hj]
    exact h.nodup.not_mem_erase
  refine ⟨h.nodup.sublist (List.eraseIdx_sublist _ _), fun q hq => h.called q (hmem q hq),
    fun q hq hacked => ?_, fun q hq => ?_⟩
  · cases ok
    · exact h.unreported q (hmem q hq) hacked
    · rcases List.mem_append.mp hacked with hacked | hacked
      · exact h.unreported q (hmem q hq) hacked
      · rw [List.mem_singleton.mp hacked] at hq
        exact hgone hq
  · cases ok
    · exact h.acked q hq
    · rcases List.mem_append.mp hq with hq | hq
      · exact h.acked q hq
      · rw [List.mem_singleton.mp hq]
        exact h.called p (List.mem_of_getElem? hp)

/-- Every event keeps what the stack has. -/
theorem Handed.step (h : s.Handed) (e : Event) : (s.step e).Handed := by
  have hhandles (e : Event) (he : e.handles = true) : (s.step e).Handed := by
    rcases step_handles he with hs | hs
    · exact h.same (Nat.le_of_eq hs.calls.symm) hs.outstanding hs.acked
    · exact (h.settle false).same (Nat.le_of_eq hs.calls.symm) hs.outstanding hs.acked
  cases e with
  | send accepts => exact h.send accepts
  | reports j ok =>
    simp only [Link.step]
    split
    · rename_i p hp
      exact (h.report hp ok).settle ok
    · exact h
  | deadline i =>
    simp only [Link.step]
    split
    · split
      · have hdue : Handed { s with deadlines := s.deadlines.eraseIdx i } :=
          h.same (Nat.le_refl _) rfl rfl
        exact hdue.settle false
      · exact h.same (Nat.le_refl _) rfl rfl
    · exact h
  | _ => exact hhandles _ rfl

/-! ### One fragment at a time -/

/-- What a run may lose. -/
def Own (s : Link) : Prop :=
  (∀ p, (p, true) ∈ s.settled → p ∈ s.acked) ∧ s.outstanding.length ≤ 1

/-- A run keeps its promises when what resolved was acknowledged. -/
theorem Inv.kept_iff (h : s.Inv) : s.Kept ↔ s.Own := by
  constructor
  · exact fun hk => ⟨hk.resolved, hk.one⟩
  · refine fun hown => ⟨h.once, fun p hp => ?_, hown.1, hown.2⟩
    obtain ⟨hlt, -, hdeadline, -⟩ := h.sending p hp
    exact ⟨hlt, hdeadline⟩

/-- A rejection takes nothing away. -/
theorem Own.reject {s' : Link} (h : s.Own) (hsettled : s'.settled = s.settled)
    (hacked : s'.acked = s.acked) (hout : s'.outstanding = s.outstanding) :
    (s'.settle false).Own := by
  rcases hsending : s'.sending with - | p
  · rw [settle_idle hsending, Own, hsettled, hacked, hout]
    exact h
  · rw [settle_some hsending]
    refine ⟨fun q hq => ?_, by rw [hout]; exact h.2⟩
    rw [hsettled] at hq
    rcases List.mem_append.mp hq with hq | hq
    · rw [hacked]
      exact h.1 q hq
    · simp at hq

/-- The events that only open and close. -/
theorem Own.handles (h : s.Own) {e : Event} (he : e.handles = true) : (s.step e).Own := by
  have hsame {s s' : Link} (h : s.Own) (hs : SameSends s s') : s'.Own := by
    rw [Own, hs.settled, hs.acked, hs.outstanding]
    exact h
  rcases step_handles he with hs | hs
  · exact hsame h hs
  · exact hsame (h.reject rfl rfl rfl) hs

/-- With one fragment out, its report is the send's in flight. -/
theorem Own.report (h : s.Own) (hinv : s.Inv) {j p : Nat} (hp : s.outstanding[j]? = some p)
    (ok : Bool) :
    (sent ok { s with
      outstanding := s.outstanding.eraseIdx j
      acked := if ok then s.acked ++ [p] else s.acked }).Own := by
  have hlen : (s.outstanding.eraseIdx j).length ≤ 1 :=
    Nat.le_trans (List.length_eraseIdx_le s.outstanding j) h.2
  have hold : ∀ q, (q, true) ∈ s.settled → q ∈ if ok then s.acked ++ [p] else s.acked := by
    intro q hq
    cases ok
    · exact h.1 q hq
    · exact List.mem_append_left _ (h.1 q hq)
  -- nothing is being sent: the report finds nobody who waits
  rcases hsending : s.sending with - | q
  · rw [sent, settle_idle rfl]
    exact ⟨hold, hlen⟩
  · -- the fragment in flight is at the stack, which has no other
    have hown : q = p := by
      obtain ⟨-, -, -, hout⟩ := hinv.sending q hsending
      obtain ⟨x, hx⟩ : ∃ x, s.outstanding = [x] := by
        exact List.length_eq_one_iff.mp
          (Nat.le_antisymm h.2 (List.length_pos_iff.mpr (List.ne_nil_of_mem hout)))
      rw [hx] at hout hp
      rw [List.mem_singleton.mp hout]
      rcases j with - | j
      · exact Option.some.inj hp
      · simp at hp
    rw [sent, settle_some rfl]
    refine ⟨fun r hr => ?_, hlen⟩
    rcases List.mem_append.mp hr with hr | hr
    · exact hold r hr
    · obtain ⟨rfl, rfl⟩ : r = q ∧ true = ok := by simpa using hr
      rw [hown]
      simp

/-- With no send in flight, what the stack has is of sends that were given up. -/
theorem Own.free_iff (h : s.Own) (hinv : s.Inv) (hs : s.Handed) (hsending : s.sending = none) :
    s.outstanding = [] ↔ ∀ p, (p, false) ∈ s.settled → p ∉ s.outstanding := by
  constructor
  · intro hnil p _ hp
    rw [hnil] at hp
    cases hp
  · intro hgiven
    refine List.eq_nil_iff_forall_not_mem.mpr fun p hp => ?_
    -- its promise was settled, and not resolved
    have htimes : s.times p = 1 := by
      rw [hinv.once p, hsending]
      exact if_pos ⟨hs.called p hp, fun heq => by cases heq⟩
    obtain ⟨⟨q, ok⟩, hmem, hq⟩ := List.countP_pos_iff.mp (Nat.lt_of_lt_of_eq Nat.one_pos htimes.symm)
    obtain rfl : q = p := by simpa using hq
    cases ok
    · exact hgiven q hmem hp
    · exact hs.unreported q hp (h.1 q hmem)

/-- A send may start when the stack has no fragment of an earlier one. -/
theorem Own.send_iff (h : s.Own) (hinv : s.Inv) (hs : s.Handed) (accepts : Bool) :
    (s.send accepts).Own ↔ s.AwaitsReports (.send accepts) := by
  unfold Link.send
  dsimp only
  -- a send begins only when none is under way
  rcases hsending : s.sending with - | p
  · rw [if_neg (by simp)]
    have hstarts : starts accepts
        { s with
          calls := s.calls + 1, sending := some s.calls, sendTimeout := some s.calls
          deadlines := s.deadlines ++ [s.calls] } = s.starts accepts := rfl
    rw [hstarts]
    split
    · rename_i hstart
      constructor
      · intro hown _ _
        have hlen := hown.2
        simp only [List.length_append, List.length_singleton] at hlen
        exact (h.free_iff hinv hs hsending).mp (List.length_eq_zero_iff.mp (by omega))
      · intro hawaits
        refine ⟨h.1, ?_⟩
        show (s.outstanding ++ [s.calls]).length ≤ 1
        rw [(h.free_iff hinv hs hsending).mpr (hawaits hsending hstart)]
        exact Nat.le_refl 1
    · rename_i hstart
      exact iff_of_true (h.reject rfl rfl rfl) fun _ hs => absurd hs hstart
  · rw [if_pos (by simp)]
    refine iff_of_true ⟨fun q hq => ?_, h.2⟩ fun hidle => by rw [hsending] at hidle; cases hidle
    rcases List.mem_append.mp hq with hq | hq
    · exact h.1 q hq
    · simp at hq

/-- An event keeps what resolves its own exactly when it meets the condition. -/
theorem Own.step_iff (h : s.Own) (hinv : s.Inv) (hs : s.Handed) (e : Event) :
    (s.step e).Own ↔ s.AwaitsReports e := by
  cases e with
  | send accepts => exact h.send_iff hinv hs accepts
  | reports j ok =>
    refine iff_of_true ?_ trivial
    simp only [Link.step]
    split
    · rename_i p hp
      exact h.report hinv hp ok
    · exact h
  | deadline i =>
    refine iff_of_true ?_ trivial
    simp only [Link.step]
    split
    · split
      · exact h.reject rfl rfl rfl
      · exact h
    · exact h
  | _ => exact iff_of_true (h.handles rfl) trivial

/-! ### The result -/

/-- All along a run each send settles once, resolves only for its own fragment, and has the link to
itself, exactly when no send starts between the giving up of another one and the stack's report
for its fragment. -/
theorem sends_resolve_for_their_own_iff (events : List Event) :
    (∀ past, past <+: events → (past.foldl step {}).Kept) ↔
      ∀ past e, past ++ [e] <+: events → (past.foldl step {}).AwaitsReports e := by
  let Sound (s : Link) : Prop := s.Inv ∧ s.Handed
  have hnew : Sound {} := ⟨inv_new, List.nodup_nil, fun p hp => (by cases hp),
    fun p hp => (by cases hp), fun p hp => (by cases hp)⟩
  have hstep : ∀ s e, Sound s → Sound (s.step e) := fun _ e h => ⟨h.1.step e, h.2.step e⟩
  have hkept : ∀ past : List Event, (past.foldl step {}).Kept ↔ (past.foldl step {}).Own :=
    fun past => (inv_along hnew hstep past).1.kept_iff
  have hown : ({} : Link).Own := ⟨fun p hp => (by cases hp), Nat.zero_le _⟩
  simp only [hkept]
  exact holds_along_iff hnew hstep hown (fun _ e hs h => h.step_iff hs.1 hs.2 e) events

/-- The first send times out with its fragment at the stack; its report resolves the second. -/
theorem late_report_resolves_the_next_send :
    ¬ ∀ past, past <+: [.host, .subscribes, .send true, .deadline 0, .send true, .reports 0 true] →
      (past.foldl step {}).Kept := by
  intro h
  have hresolved := (h _ (List.prefix_refl _)).resolved 1 (by decide)
  exact absurd hresolved (by decide)

end Link

end OkRn.Contact
