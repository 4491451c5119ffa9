/-
OkRn/Gatt/Answers.lean

An answer is lost exactly when a message is being sent as it comes.

While the link stays up nothing is cleared, so a promise is rejected only at
`enqueueNotifications`, and what was queued there is notified when nothing is
under way any more.

* `Serves` is the queue while the link stays up, and `Moves` what one step of it does;
* `Inv` is the invariant of the two bridges over it, and `Hears` the condition: no answer
  comes while a message is being sent;
* `Inv.runsOut` says that every run can be ended, by turns of the code and acknowledgements.

Main results: `answers_kept_iff`, and `answer_behind_a_report_is_lost`.
-/
import OkRn.Gatt.Bridges
import OkRn.Gatt.Whole
import Mathlib.Algebra.GroupWithZero.Nat

namespace OkRn.Gatt.Notify.Queue

/-! ### The queue of a link that stays up -/

/-- How many turns a thread still brings about. -/
def weight : Task → Nat
  | .pump => 1
  | .sent .. => 2
  | .hand .. => 4
  | _ => 0

/-- How many steps of threads and acknowledgements there are still to come, at most. -/
def left (s : Queue) : Nat :=
  4 * s.queue.length + 3 * s.outstanding.length + (s.tasks.map weight).sum

/-- The threads of a link that stays up. -/
inductive Usual (target : Address) : Task → Prop
  | pump : Usual target .pump
  | hand (f : Frag) : Usual target (.hand f target)
  | sent (f : Frag) : Usual target (.sent f true)

/-- The queue serves the target, and no one else. -/
structure Serves (target : Address) (s : Queue) : Prop where
  inv : s.Inv
  central : target ∈ s.centrals
  linked : target ∈ s.linked
  server : s.server = true
  tasks : ∀ t ∈ s.tasks, Usual target t
  messages : ∀ msg ∈ s.messages, msg.device = target ∧ msg.asked = true ∧ 0 < msg.size
  /-- What was acknowledged is of a message that was queued. -/
  acked : ∀ x ∈ s.acked, x.1.msg < s.messages.length ∧ (x.1.msg, false) ∉ s.settled

variable {target : Address} {s : Queue}

/-- A turn of a thread disturbs nothing then. -/
theorem Serves.calm_run (h : s.Serves target) (i : Nat) : s.Calm (.run i true) := by
  simp only [Calm]
  cases hget : s.tasks[i]? with
  | none => trivial
  | some t =>
    cases h.tasks t (List.mem_of_getElem? hget) with
    | pump => exact fun _ _ hfailed => (by cases h.tasks _ hfailed)
    | hand f => trivial
    | sent f => trivial

/-- A thread that goes on is counted no more. -/
theorem weight_erase {tasks : List Task} {i : Nat} {t : Task} (hget : tasks[i]? = some t) :
    (tasks.map weight).sum = weight t + ((tasks.eraseIdx i).map weight).sum := by
  obtain ⟨before, after, htasks, herase⟩ := split_task hget
  rw [herase, htasks]
  simp only [List.map_append, List.map_cons, List.sum_append, List.sum_cons]
  omega

/-- A busy queue sends to the target. -/
theorem Serves.sends (h : s.Serves target) (hbusy : s.busy = true) :
    s.device = some target ∧ s.promise = some s.cur ∧ s.cur < s.messages.length := by
  obtain ⟨msg, hsending, -⟩ := h.inv.sending hbusy
  obtain ⟨hdevice, hasked, -⟩ := h.messages msg (List.mem_of_getElem? hsending.get)
  refine ⟨by rw [hsending.device, hdevice], by rw [hsending.promise, if_pos hasked], ?_⟩
  exact (List.getElem?_eq_some_iff.mp hsending.get).1

/-- The other threads are as usual. -/
theorem Serves.erase_tasks (h : s.Serves target) (i : Nat) :
    ∀ t ∈ s.tasks.eraseIdx i, Usual target t :=
  fun t ht => h.tasks t (List.mem_of_mem_eraseIdx ht)

/-- What the steps of the stack and the threads leave of the promises. -/
structure Moves (target : Address) (s s' : Queue) : Prop where
  serves : s'.Serves target
  messages : s'.messages = s.messages
  settled : ∀ x ∈ s'.settled, x ∈ s.settled ∨ x.2 = true
  left : s'.left < s.left

/-- The pump goes on, towards the end of the message. -/
theorem Serves.pumps (h : s.Serves target) {i : Nat} (hget : s.tasks[i]? = some .pump)
    (hinv : (({ s with tasks := s.tasks.eraseIdx i } : Queue).pumpNotifications).Inv) :
    Moves target s (({ s with tasks := s.tasks.eraseIdx i } : Queue).pumpNotifications) := by
  have hweight := weight_erase hget
  have hrest := h.erase_tasks i
  -- nothing to do, a message done, or the next fragment
  rcases pump_cases { s with tasks := s.tasks.eraseIdx i } with
    ⟨hfly, heq⟩ | ⟨hfly, hqueue, heq⟩ | ⟨hfly, hqueue, hnone, heq⟩ |
    ⟨hfly, f, queue, d, hqueue, hd, heq⟩
  · rw [heq] at hinv ⊢
    refine ⟨⟨hinv, h.central, h.linked, h.server, hrest, h.messages, h.acked⟩, rfl,
      fun x hx => .inl hx, ?_⟩
    simp only [Queue.left, hweight, weight]
    omega
  · -- the message is done: its promise is resolved, not rejected
    rw [heq] at hinv ⊢
    have hsettled : ∀ x ∈ s.settled ++ s.promise.toList.map (·, true),
        x ∈ s.settled ∨ x.2 = true := by
      intro x hx
      rcases List.mem_append.mp hx with hx | hx
      · exact .inl hx
      · obtain ⟨m, -, rfl⟩ := List.mem_map.mp hx
        exact .inr rfl
    refine ⟨⟨hinv, h.central, h.linked, h.server, hrest, h.messages, fun x hx => ?_⟩, rfl,
      hsettled, ?_⟩
    · obtain ⟨hlt, hfresh⟩ := h.acked x hx
      refine ⟨hlt, fun hmem => ?_⟩
      rcases hsettled _ hmem with hmem | hok
      · exact hfresh hmem
      · cases hok
    · simp only [settle, Queue.left, hweight, weight]
      omega
  · -- the target is there, so the queue is not cleared
    cases hbusy : s.busy with
    | false => exact absurd (h.inv.free hbusy).queue hqueue
    | true =>
      have hsome : s.device = some target := (h.sends hbusy).1
      simp only [hsome, Option.filter, h.central, h.server] at hnone
      simp at hnone
  · rw [heq] at hinv ⊢
    have hbusy : s.busy = true := by
      by_contra hidle
      have hfree := h.inv.free (by simpa using hidle)
      rw [show s.device = none from hfree.device] at hd
      cases hd
    obtain rfl : target = d := Option.some.inj ((h.sends hbusy).1.symm.trans hd)
    refine ⟨⟨hinv, h.central, h.linked, h.server, fun t ht => ?_, h.messages, h.acked⟩, rfl,
      fun x hx => .inl hx, ?_⟩
    · rcases List.mem_append.mp ht with ht | ht
      · exact hrest t ht
      · obtain rfl := List.mem_singleton.mp ht
        exact .hand f
    · have hlength : s.queue.length = queue.length + 1 := by
        rw [show s.queue = f :: queue from hqueue]
        rfl
      simp only [Queue.left, List.map_append, List.sum_append, hweight, weight, hlength,
        List.map_cons, List.map_nil, List.sum_cons, List.sum_nil]
      omega

theorem Serves.run (h : s.Serves target) {i : Nat} {t : Task} (hget : s.tasks[i]? = some t) :
    Moves target s (s.step (.run i true)) := by
  have hinv := h.inv.run (h.calm_run i)
  have hweight := weight_erase hget
  have hrest := h.erase_tasks i
  simp only [step, hget] at hinv ⊢
  -- a calm queue has three kinds of tasks; each takes its weight away
  cases h.tasks t (List.mem_of_getElem? hget) with
  | hand f =>
    have hlinked : target ∈ s.linked := h.linked
    have hact : ({ s with tasks := s.tasks.eraseIdx i } : Queue).act true (.hand f target) =
        { s with
          tasks := s.tasks.eraseIdx i
          outstanding := s.outstanding ++ [(f, target)]
          handed := s.handed ++
            [⟨f, target, (s.outstanding.filter fun x => x.2 = target).map (·.1)⟩] } := by
      simp [act, hlinked]
    rw [hact] at hinv ⊢
    refine ⟨⟨hinv, h.central, h.linked, h.server, hrest, h.messages, h.acked⟩, rfl,
      fun x hx => .inl hx, ?_⟩
    simp only [Queue.left, List.length_append, List.length_cons, List.length_nil, hweight, weight]
    omega
  | sent f =>
    refine ⟨⟨hinv, h.central, h.linked, h.server, fun t ht => ?_, h.messages, h.acked⟩, rfl,
      fun x hx => .inl hx, ?_⟩
    · rcases List.mem_append.mp ht with ht | ht
      · exact hrest t ht
      · obtain rfl := List.mem_singleton.mp ht
        exact .pump
    · simp only [act, begins, Queue.left, List.map_append, List.sum_append, hweight, weight,
        List.map_cons, List.map_nil, List.sum_cons, List.sum_nil, if_true]
      omega
  | pump => exact h.pumps hget hinv

theorem Serves.acknowledged (h : s.Serves target) {j : Nat} {x : Frag × Address}
    (hget : s.outstanding[j]? = some x) : Moves target s (s.step (.acknowledged j true)) := by
  have hinv := h.inv.acknowledged j true
  obtain ⟨f, device⟩ := x
  obtain ⟨hj, -⟩ := List.getElem?_eq_some_iff.mp hget
  have hlength := List.length_eraseIdx_of_lt hj
  -- what is out is of the message that is being sent
  have hcur : s.busy = true ∧ f.msg = s.cur := by
    rcases h.inv.cases with ⟨-, hfree⟩ | ⟨hbusy, msg, -, hphase⟩
    · rw [hfree.quiet.1] at hget
      cases hget
    · have hx := (hphase.isOut hget).2.1
      exact ⟨hbusy, by rw [(Prod.mk.inj hx).1]; rfl⟩
  obtain ⟨hbusy, hmsg⟩ := hcur
  obtain ⟨-, hpromise, hlt⟩ := h.sends hbusy
  simp only [step, hget] at hinv ⊢
  refine ⟨⟨hinv, h.central, h.linked, h.server, fun t ht => ?_, h.messages, fun x hx => ?_⟩, rfl,
    fun x hx => .inl hx, ?_⟩
  · rcases List.mem_append.mp ht with ht | ht
    · exact h.tasks t ht
    · obtain rfl := List.mem_singleton.mp ht
      exact .sent f
  · rcases List.mem_append.mp hx with hx | hx
    · exact h.acked x hx
    · obtain rfl := List.mem_singleton.mp hx
      rw [hmsg]
      refine ⟨hlt, fun hmem => ?_⟩
      exact (h.inv.promises.pending _ hpromise).2 (List.mem_map_of_mem hmem)
  · simp only [begins, Queue.left, List.map_append, List.sum_append, hlength, weight,
      List.map_cons, List.map_nil, List.sum_cons, List.sum_nil]
    omega

/-- A message comes: its promise is rejected at once when the queue is busy. -/
theorem Serves.enqueues (h : s.Serves target) {size : Nat} (hsize : 0 < size) :
    (s.enqueueNotifications size target true).Serves target ∧
    (s.enqueueNotifications size target true).messages = s.messages ++ [⟨size, target, true⟩] ∧
    (s.enqueueNotifications size target true).settled =
      s.settled ++ (if s.busy then [(s.messages.length, false)] else []) ∧
    (s.enqueueNotifications size target true).left ≤ s.left + 4 * size + 1 := by
  have hinv := h.inv.enqueues size target true
  have hmessages : ∀ msg ∈ s.messages ++ [⟨size, target, true⟩],
      msg.device = target ∧ msg.asked = true ∧ 0 < msg.size := by
    intro msg hmsg
    rcases List.mem_append.mp hmsg with hmsg | hmsg
    · exact h.messages msg hmsg
    · obtain rfl := List.mem_singleton.mp hmsg
      exact ⟨rfl, rfl, hsize⟩
  unfold enqueueNotifications at hinv ⊢
  -- an idle queue begins with the message at once, a busy one only keeps it
  rcases h.inv.cases with ⟨hbusy, hfree⟩ | ⟨hbusy, -⟩
  · rw [if_neg (by simp [hbusy])] at hinv ⊢
    refine ⟨⟨hinv, h.central, h.linked, h.server, fun t ht => ?_, hmessages, fun x hx => ?_⟩, rfl,
      by simp [hbusy], ?_⟩
    · rcases List.mem_append.mp ht with ht | ht
      · exact h.tasks t ht
      · obtain rfl := List.mem_singleton.mp ht
        exact .pump
    · obtain ⟨hlt, hfresh⟩ := h.acked x hx
      exact ⟨by simp only [List.length_append]; omega, hfresh⟩
    · simp only [Queue.left, List.length_map, List.length_range', List.map_append,
        List.sum_append, weight, List.map_cons, List.map_nil, List.sum_cons, List.sum_nil]
      omega
  · rw [if_pos hbusy] at hinv ⊢
    refine ⟨⟨hinv, h.central, h.linked, h.server, h.tasks, hmessages, fun x hx => ?_⟩, rfl,
      by simp [hbusy], ?_⟩
    · obtain ⟨hlt, hfresh⟩ := h.acked x hx
      refine ⟨by simp only [List.length_append]; omega, fun hmem => ?_⟩
      rcases List.mem_append.mp hmem with hmem | hmem
      · exact hfresh hmem
      · have hnew := (Prod.mk.inj (List.mem_singleton.mp hmem)).1
        omega
    · simp only [Queue.left]
      omega

end OkRn.Gatt.Notify.Queue

namespace OkRn.Gatt.Bridges

open Notify

/-- Each fragment of the message was acknowledged by the target. -/
def Notified (target : Notify.Address) (s : Queue) (m : Nat) : Prop :=
  ∃ msg, s.messages[m]? = some msg ∧ msg.device = target ∧
    ∀ i < msg.size, (⟨m, i⟩, target) ∈ s.acked

/-- A message is on its way. -/
def OnItsWay (s : Queue) (m : Nat) : Prop := s.busy = true ∧ s.cur = m

/-- The continuations are at most as many as the sequence numbers. -/
theorem continuations_le {capacity room left n : Nat}
    (h : continuations capacity room left = some n) : n ≤ room := by
  induction room generalizing left n with
  | zero =>
    cases left with
    | zero =>
      obtain rfl := Option.some.inj h
      exact Nat.le_refl 0
    | succ left => cases h
  | succ room ih =>
    cases left with
    | zero =>
      obtain rfl := Option.some.inj h
      exact Nat.zero_le _
    | succ left =>
      obtain ⟨k, hk, rfl⟩ := Option.map_eq_some_iff.mp h
      exact Nat.succ_le_succ (ih hk)

/-- A message has a fragment, and at most 129. -/
theorem fragments_bounds {payload : List UInt8} {max size : Nat}
    (h : fragments payload max = some size) : 0 < size ∧ size ≤ 129 := by
  obtain ⟨n, hn, rfl⟩ := Option.map_eq_some_iff.mp h
  have hle := continuations_le hn
  omega

/-- While the link stays up, a message that was not rejected is on its way or notified. -/
theorem kept_message_iff {target : Notify.Address} {s : Queue} (h : s.Serves target) {m : Nat}
    (hm : m < s.messages.length) :
    OnItsWay s m ∨ Notified target s m ↔ (m, false) ∉ s.settled := by
  constructor
  · rintro (⟨hbusy, rfl⟩ | ⟨msg, hmsg, -, hall⟩) hmem
    · exact (h.inv.promises.pending _ (h.sends hbusy).2.1).2 (List.mem_map_of_mem hmem)
    · have hpos := (h.messages msg (List.mem_of_getElem? hmsg)).2.2
      exact (h.acked _ (hall 0 hpos)).2 hmem
  · intro hkept
    obtain ⟨hdevice, hasked, -⟩ := h.messages _ (List.getElem_mem hm)
    have hget : s.messages[m]? = some s.messages[m] := List.getElem?_eq_getElem hm
    rcases h.inv.promises.asked m _ hget hasked with hsettled | hpromise
    · obtain ⟨⟨m', ok⟩, hx, rfl⟩ := List.mem_map.mp hsettled
      cases ok with
      | false => exact absurd hx hkept
      | true =>
        obtain ⟨msg, hmsg, hall⟩ := h.inv.promises.answered _ hx rfl
        obtain rfl := Option.some.inj (hget.symm.trans hmsg)
        exact .inr ⟨_, hget, hdevice, hdevice ▸ hall⟩
    · have hbusy : s.busy = true := by
        by_contra hidle
        rw [(h.inv.free (by simpa using hidle)).promise] at hpromise
        cases hpromise
      refine .inl ⟨hbusy, ?_⟩
      rw [(h.sends hbusy).2.1] at hpromise
      exact Option.some.inj hpromise

namespace Radio

variable (target : Notify.Address)

/-- No answer is lost: what was given to the radio is on its way, or was notified to the target. -/
def Kept (s : Radio) : Prop :=
  ∀ x ∈ s.given, ∃ m, x.2 = some m ∧ (OnItsWay s.queue m ∨ Notified target s.queue m)

/-- Nothing is being sent as an answer comes, and the answer fits. -/
def Hears (s : Radio) : Event → Prop
  | .answers id payload =>
      id ∈ s.handling →
        s.queue.busy = false ∧ (fragments payload (maxFragmentSize s.mtu)).isSome = true
  | .turn =>
      s.Ready → ∀ frame ∈ s.sending.head?,
        s.queue.busy = false ∧ (fragments frame (maxFragmentSize s.mtu)).isSome = true
  | _ => True

/-- The reports go to the radio in the order the key gave them, and so do their fragments. -/
structure InOrder (s : Radio) : Prop where
  reports : s.given.filterMap (·.1.report?) ++ s.sending = s.pushed
  numbers : (s.given.filterMap (·.2)).Pairwise (· < ·)
  queue : s.queue.Orderly

/-- Nothing is under way. -/
structure AtRest (s : Radio) : Prop where
  tasks : s.queue.tasks = []
  outstanding : s.queue.outstanding = []
  sending : s.sending = []

/-- Everything given was notified. -/
def Served (s : Radio) : Prop := ∀ x ∈ s.given, ∃ m, x.2 = some m ∧ Notified target s.queue m

end Radio

/-- A step of the threads, the stack or the chain. -/
def Event.GoesOn : Event → Prop
  | .run _ | .acknowledged _ | .turn => True
  | _ => False

namespace Radio

/-- The queue when an answer of so many fragments came to it; the same when it does not fit. -/
def offered (target : Notify.Address) (queue : Queue) : Option Nat → Queue
  | some size => queue.enqueueNotifications size target true
  | none => queue

/-- How many steps of the threads, the stack and the chain there are still to come, at most. -/
def left (s : Radio) : Nat := 518 * s.sending.length + s.queue.left

/-- When nothing new comes, the radio comes to rest. -/
structure RunsOut (target : Notify.Address) (s : Radio) : Prop where
  some_step : ¬ s.AtRest → ∃ e : Event, e.GoesOn ∧ (s.step target e).left < s.left
  every_step : ∀ e : Event, e.GoesOn → s.step target e = s ∨ (s.step target e).left < s.left

/-- What holds of the bridges in every run. -/
structure Inv (target : Notify.Address) (s : Radio) : Prop where
  serves : s.queue.Serves target
  handling : ∀ id ∈ s.handling, s.pending id = some target ∧ id ≤ s.requestCounter
  awaited : ∀ m ∈ s.awaited, m < s.queue.messages.length
  given : ∀ x ∈ s.given, ∀ m ∈ x.2, m < s.queue.messages.length
  reports : s.given.filterMap (·.1.report?) ++ s.sending = s.pushed
  numbers : (s.given.filterMap (·.2)).Pairwise (· < ·)

variable {target : Notify.Address} {s : Radio}

/-- Every answer is kept when it has a message and no promise was rejected. -/
theorem Inv.kept_iff (h : s.Inv target) :
    s.Kept target ↔ ∀ x ∈ s.given, ∃ m, x.2 = some m ∧ (m, false) ∉ s.queue.settled := by
  refine forall₂_congr fun x hx => exists_congr fun m => and_congr_right fun hm => ?_
  exact kept_message_iff h.serves (h.given x hx m hm)

/-- The target is approved throughout. -/
theorem Inv.approved (h : s.Inv target) : s.approvedDevice target target = some target :=
  if_pos ⟨rfl, h.serves.central⟩

/-- What the bridges do with an answer. -/
theorem Inv.responds (h : s.Inv target) {id : Nat} (hid : id ∈ s.handling) (payload : List UInt8) :
    s.step target (.answers id payload) =
      { s with
        handling := s.handling.filter (· ≠ id)
        pendingRequests := s.pendingRequests.filter fun x => x.1 ≠ id
        queue := offered target s.queue (fragments payload (maxFragmentSize s.mtu))
        given := s.given ++ [(.response id payload,
          (fragments payload (maxFragmentSize s.mtu)).map fun _ => s.queue.messages.length)] } := by
  have hpending := (h.handling id hid).1
  have happroved := h.approved
  simp only [step, if_pos hid, respondToRequest]
  have hdevice : (({ s with handling := s.handling.filter (· ≠ id) } : Radio).pending id).bind
      (({ s with handling := s.handling.filter (· ≠ id) } : Radio).approvedDevice target) =
      some target := by
    show (s.pending id).bind (s.approvedDevice target) = some target
    rw [hpending]
    exact happroved
  rw [hdevice]
  cases fragments payload (maxFragmentSize s.mtu) with
  | none => rfl
  | some size => rfl

/-- The chain sends its next frame. -/
theorem Inv.sends (h : s.Inv target) {frame : List UInt8} {sending : List (List UInt8)}
    (hsending : s.sending = frame :: sending) (hready : s.Ready) :
    s.step target .turn =
      { s with
        sending
        awaited := (fragments frame (maxFragmentSize s.mtu)).map fun _ => s.queue.messages.length
        queue := offered target s.queue (fragments frame (maxFragmentSize s.mtu))
        given := s.given ++ [(.report frame,
          (fragments frame (maxFragmentSize s.mtu)).map fun _ => s.queue.messages.length)] } := by
  have hdevice : ({ s with sending } : Radio).approvedDevice target target = some target :=
    h.approved
  simp only [step, hsending, if_pos hready, sendVendorFrame]
  rw [hdevice]
  cases fragments frame (maxFragmentSize s.mtu) with
  | none => rfl
  | some size => rfl

/-- A keepalive is queued, or is of no request. -/
theorem Inv.keepsAlive (h : s.Inv target) (id : Nat) :
    s.step target (.keepAlive id) = s ∨
    s.step target (.keepAlive id) =
      { s with queue := s.queue.enqueueNotifications 1 target true } := by
  simp only [step]
  split
  · rename_i hid
    right
    simp only [sendKeepAlive, (h.handling id hid).1, Option.bind_some, h.approved]
    rfl
  · exact .inl rfl

/-- An answer that fits is enqueued, with the next number. -/
theorem offered_spec (h : s.queue.Serves target) (payload : List UInt8) (max : Nat) :
    (offered target s.queue (fragments payload max)).Serves target ∧
    s.queue.messages.length ≤ (offered target s.queue (fragments payload max)).messages.length ∧
    (∀ m ∈ (fragments payload max).map fun _ => s.queue.messages.length,
      m < (offered target s.queue (fragments payload max)).messages.length) ∧
    (offered target s.queue (fragments payload max)).settled =
      s.queue.settled ++ (if (fragments payload max).isSome && s.queue.busy then
        [(s.queue.messages.length, false)] else []) ∧
    (offered target s.queue (fragments payload max)).left ≤ s.queue.left + 517 := by
  cases hsize : fragments payload max with
  | none => exact ⟨h, Nat.le_refl _, fun m hm => (by cases hm), by simp [offered],
      Nat.le_add_right _ _⟩
  | some size =>
    obtain ⟨hpos, hle⟩ := fragments_bounds hsize
    obtain ⟨hserves, hmessages, hsettled, hleft⟩ := h.enqueues hpos
    have hlength : s.queue.messages.length <
        (s.queue.enqueueNotifications size target true).messages.length := by
      rw [hmessages, List.length_append]
      exact Nat.lt_add_one _
    refine ⟨hserves, Nat.le_of_lt hlength, fun m hm => ?_, by simpa [offered] using hsettled, ?_⟩
    · obtain rfl := Option.some.inj hm
      exact hlength
    · simp only [offered]
      omega

/-- One more answer, with the next number. -/
theorem Inv.given_step (h : s.Inv target) (a : Answer) (payload : List UInt8) (max : Nat) :
    (∀ x ∈ s.given ++ [(a, (fragments payload max).map fun _ => s.queue.messages.length)],
      ∀ m ∈ x.2, m < (offered target s.queue (fragments payload max)).messages.length) ∧
    ((s.given ++ [(a, (fragments payload max).map fun _ => s.queue.messages.length)]).filterMap
      (·.2)).Pairwise (· < ·) := by
  obtain ⟨-, hle, hnew, -, -⟩ := offered_spec h.serves payload max
  constructor
  · intro x hx m hm
    rcases List.mem_append.mp hx with hx | hx
    · exact Nat.lt_of_lt_of_le (h.given x hx m hm) hle
    · obtain rfl := List.mem_singleton.mp hx
      exact hnew m hm
  · rw [List.filterMap_append]
    refine List.pairwise_append.mpr ⟨h.numbers, ?_, fun m hm n hn => ?_⟩
    · cases fragments payload max <;> simp
    · obtain ⟨x, hx, hm⟩ := List.mem_filterMap.mp hm
      obtain ⟨y, hy, hn⟩ := List.mem_filterMap.mp hn
      obtain rfl := List.mem_singleton.mp hy
      obtain ⟨_, -, rfl⟩ := Option.map_eq_some_iff.mp hn
      exact h.given x hx m hm

/-- An answer is kept exactly when it fits and nothing is being sent. -/
theorem Inv.kept_given_iff (h : s.Inv target) {s' : Radio} (h' : s'.Inv target)
    (hkept : s.Kept target) {payload : List UInt8} {max : Nat} {a : Answer}
    (hqueue : s'.queue = offered target s.queue (fragments payload max))
    (hgiven : s'.given =
      s.given ++ [(a, (fragments payload max).map fun _ => s.queue.messages.length)]) :
    s'.Kept target ↔ s.queue.busy = false ∧ (fragments payload max).isSome = true := by
  obtain ⟨-, -, -, hsettled, -⟩ := offered_spec h.serves payload max
  rw [h'.kept_iff, hqueue, hgiven, hsettled]
  rw [h.kept_iff] at hkept
  constructor
  · intro hall
    obtain ⟨m, hm, hfresh⟩ := hall _ (List.mem_append_right _ List.mem_cons_self)
    obtain ⟨size, hsize, rfl⟩ := Option.map_eq_some_iff.mp hm
    rw [hsize] at hfresh ⊢
    refine ⟨?_, rfl⟩
    by_contra hbusy
    have hbusy' : s.queue.busy = true := by simpa using hbusy
    exact hfresh (List.mem_append_right _ (by simp [hbusy']))
  · rintro ⟨hidle, hfits⟩ x hx
    obtain ⟨size, hsize⟩ := Option.isSome_iff_exists.mp hfits
    simp only [hidle, Bool.and_false, Bool.false_eq_true, if_false, List.append_nil]
    rcases List.mem_append.mp hx with hx | hx
    · exact hkept x hx
    · obtain rfl := List.mem_singleton.mp hx
      refine ⟨_, by rw [hsize]; rfl, fun hmem => ?_⟩
      exact absurd (h.serves.inv.promises.known _ hmem) (Nat.lt_irrefl _)

/-- What was kept stays kept while only later messages are rejected. -/
theorem Inv.kept_of_settled {s' : Radio} (h : s.Inv target) (h' : s'.Inv target)
    (hkept : s.Kept target) (hgiven : s'.given = s.given)
    (hsettled : ∀ x ∈ s'.queue.settled,
      x ∈ s.queue.settled ∨ x.2 = true ∨ s.queue.messages.length ≤ x.1) : s'.Kept target := by
  rw [h'.kept_iff, hgiven]
  rw [h.kept_iff] at hkept
  intro x hx
  obtain ⟨m, hm, hfresh⟩ := hkept x hx
  refine ⟨m, hm, fun hmem => ?_⟩
  rcases hsettled _ hmem with hmem | hok | hlater
  · exact hfresh hmem
  · cases hok
  · exact absurd (h.given x hx m hm) (Nat.not_lt.mpr hlater)

/-- A request that was answered is pending no more; the others are. -/
theorem pending_filter {id id' : Nat} (hne : id' ≠ id) (requests : List (Nat × Notify.Address)) :
    (requests.filter fun x => x.1 ≠ id).find? (fun x => x.1 = id') =
      requests.find? fun x => x.1 = id' := by
  rw [List.find?_filter]
  congr 1
  funext x
  by_cases hx : x.1 = id'
  · simp [hx, hne]
  · simp [hx]

/-- The queue moves on, and the rest stays. -/
theorem Inv.queue (h : s.Inv target) {queue : Queue} (hserves : queue.Serves target)
    (hlength : s.queue.messages.length ≤ queue.messages.length) : Inv target { s with queue } :=
  ⟨hserves, h.handling, fun m hm => Nat.lt_of_lt_of_le (h.awaited m hm) hlength,
    fun x hx m hm => Nat.lt_of_lt_of_le (h.given x hx m hm) hlength, h.reports, h.numbers⟩

/-- A thread or the stack goes on, if there is one that can. -/
theorem Inv.moves (h : s.Inv target) {e : Event} (he : e.GoesOn) (hturn : e ≠ .turn) :
    s.step target e = s ∨
    ∃ queue, s.step target e = { s with queue } ∧ s.queue.Moves target queue := by
  cases e with
  | run i =>
    cases hget : s.queue.tasks[i]? with
    | none => exact .inl (by simp [step, Queue.step, hget])
    | some t => exact .inr ⟨_, rfl, h.serves.run hget⟩
  | acknowledged j =>
    cases hget : s.queue.outstanding[j]? with
    | none => exact .inl (by simp [step, Queue.step, hget])
    | some x => exact .inr ⟨_, rfl, h.serves.acknowledged hget⟩
  | turn => exact absurd rfl hturn
  | _ => exact he.elim

/-- Every event keeps the invariant. -/
theorem Inv.step (h : s.Inv target) (e : Event) : (s.step target e).Inv target := by
  have hmoves : ∀ e : Event, e.GoesOn → e ≠ .turn → (s.step target e).Inv target := by
    intro e he hturn
    rcases h.moves he hturn with heq | ⟨queue, heq, hmoves⟩
    · rwa [heq]
    · rw [heq]
      exact h.queue hmoves.serves (by rw [hmoves.messages])
  cases e with
  | mtuChanged mtu => exact ⟨h.serves, h.handling, h.awaited, h.given, h.reports, h.numbers⟩
  | asks =>
    -- ids count up, so the new one hides no other
    refine ⟨h.serves, fun id hid => ?_, h.awaited, h.given, h.reports, h.numbers⟩
    rcases List.mem_cons.mp hid with rfl | hid
    · exact ⟨by simp [Radio.step, pending], Nat.le_refl _⟩
    · obtain ⟨hpending, hle⟩ := h.handling id hid
      have hne : s.requestCounter + 1 ≠ id := by omega
      refine ⟨?_, Nat.le_succ_of_le hle⟩
      simp only [pending, Radio.step] at hpending ⊢
      rw [List.find?_cons_of_neg (by simpa using hne)]
      exact hpending
  | keepAlive id =>
    rcases h.keepsAlive id with heq | heq
    · rwa [heq]
    · rw [heq]
      obtain ⟨hserves, hmessages, -, -⟩ := h.serves.enqueues Nat.one_pos
      exact h.queue hserves (by rw [hmessages, List.length_append]; exact Nat.le_add_right _ _)
  | answers id payload =>
    by_cases hid : id ∈ s.handling
    · rw [h.responds hid payload]
      obtain ⟨hgiven, hnumbers⟩ := h.given_step _ _ _
      obtain ⟨hserves, hlength, -⟩ := offered_spec h.serves payload (maxFragmentSize s.mtu)
      refine ⟨hserves, fun id' hid' => ?_, fun m hm => Nat.lt_of_lt_of_le (h.awaited m hm) hlength,
        hgiven, ?_, hnumbers⟩
      · -- only the answered request is forgotten
        obtain ⟨hid', hne⟩ := List.mem_filter.mp hid'
        obtain ⟨hpending, hle⟩ := h.handling id' hid'
        refine ⟨?_, hle⟩
        simp only [pending] at hpending ⊢
        rw [pending_filter (by simpa using hne)]
        exact hpending
      · rw [List.filterMap_append]
        simpa [Answer.report?] using h.reports
    · rw [show s.step target (.answers id payload) = s from if_neg hid]
      exact h
  | pushes report =>
    refine ⟨h.serves, h.handling, h.awaited, h.given, ?_, h.numbers⟩
    show s.given.filterMap (·.1.report?) ++ (s.sending ++ [report]) = s.pushed ++ [report]
    rw [← List.append_assoc, h.reports]
  | turn =>
    cases hsending : s.sending with
    | nil =>
      rw [show s.step target .turn = s by simp [Radio.step, hsending]]
      exact h
    | cons frame sending =>
      by_cases hready : s.Ready
      · rw [h.sends hsending hready]
        obtain ⟨hgiven, hnumbers⟩ := h.given_step _ _ _
        obtain ⟨hserves, -, hnew, -⟩ := offered_spec h.serves frame (maxFragmentSize s.mtu)
        refine ⟨hserves, h.handling, hnew, hgiven, ?_, hnumbers⟩
        have hreports := h.reports
        rw [hsending] at hreports
        rw [← hreports, List.filterMap_append, List.append_assoc]
        rfl
      · rw [show s.step target .turn = s by simp [Radio.step, hsending, hready]]
        exact h
  | run i => exact hmoves _ trivial (by simp)
  | acknowledged j => exact hmoves _ trivial (by simp)

/-- An event keeps what is kept exactly when no message is being sent. -/
theorem Inv.kept_step_iff (h : s.Inv target) (hkept : s.Kept target) (e : Event) :
    (s.step target e).Kept target ↔ s.Hears e := by
  have h' := h.step e
  -- while the threads and the stack go on, nothing is rejected
  have hmoves : e.GoesOn → e ≠ .turn → (s.step target e).Kept target := by
    intro he hturn
    rcases h.moves he hturn with heq | ⟨queue, heq, hmoves⟩
    · rwa [heq]
    · rw [heq] at h' ⊢
      exact h.kept_of_settled h' hkept rfl fun x hx => (hmoves.settled x hx).imp_right .inl
  cases e with
  | mtuChanged mtu => exact iff_of_true hkept trivial
  | asks => exact iff_of_true hkept trivial
  | pushes report => exact iff_of_true hkept trivial
  | run i => exact iff_of_true (hmoves trivial (by simp)) trivial
  | acknowledged j => exact iff_of_true (hmoves trivial (by simp)) trivial
  | keepAlive id =>
    refine iff_of_true ?_ trivial
    rcases h.keepsAlive id with heq | heq
    · rwa [heq]
    · -- its own rejection is heard by nobody, and is no answer's
      rw [heq] at h' ⊢
      obtain ⟨-, -, hsettled, -⟩ := h.serves.enqueues Nat.one_pos
      refine h.kept_of_settled h' hkept rfl fun x hx => ?_
      simp only [hsettled] at hx
      rcases List.mem_append.mp hx with hx | hx
      · exact .inl hx
      · split at hx
        · obtain rfl := List.mem_singleton.mp hx
          exact .inr (.inr (Nat.le_refl _))
        · cases hx
  | answers id payload =>
    by_cases hid : id ∈ s.handling
    · simp only [Hears, hid, forall_true_left]
      rw [h.responds hid payload] at h' ⊢
      exact h.kept_given_iff h' hkept rfl rfl
    · have heq : s.step target (.answers id payload) = s := if_neg hid
      rw [heq]
      exact iff_of_true hkept fun hmem => absurd hmem hid
  | turn =>
    cases hsending : s.sending with
    | nil =>
      rw [show s.step target .turn = s by simp [Radio.step, hsending]]
      exact iff_of_true hkept (by simp [Hears, hsending])
    | cons frame sending =>
      by_cases hready : s.Ready
      · simp only [Hears, hready, hsending, List.head?_cons, Option.mem_def, Option.some.injEq,
          forall_true_left, forall_eq']
        rw [h.sends hsending hready] at h' ⊢
        exact h.kept_given_iff h' hkept rfl rfl
      · rw [show s.step target .turn = s by simp [Radio.step, hsending, hready]]
        exact iff_of_true hkept fun hready' => absurd hready' hready

/-! ### The end of it -/

/-- A turn of the chain leaves less to do. -/
theorem Inv.turn_left (h : s.Inv target) {frame : List UInt8} {sending : List (List UInt8)}
    (hsending : s.sending = frame :: sending) (hready : s.Ready) :
    (s.step target .turn).left < s.left := by
  rw [h.sends hsending hready]
  obtain ⟨-, -, -, -, hleft⟩ := offered_spec h.serves frame (maxFragmentSize s.mtu)
  simp only [Radio.left, hsending, List.length_cons]
  omega

theorem Inv.runsOut (h : s.Inv target) : s.RunsOut target where
  some_step hbusy := by
    cases htasks : s.queue.tasks with
    | cons t tasks =>
      have hget : s.queue.tasks[0]? = some t := by simp [htasks]
      exact ⟨.run 0, trivial, Nat.add_lt_add_left (h.serves.run hget).left _⟩
    | nil =>
      cases hout : s.queue.outstanding with
      | cons x outstanding =>
        have hget : s.queue.outstanding[0]? = some x := by simp [hout]
        exact ⟨.acknowledged 0, trivial, Nat.add_lt_add_left (h.serves.acknowledged hget).left _⟩
      | nil =>
        cases hsending : s.sending with
        | nil => exact absurd ⟨htasks, hout, hsending⟩ hbusy
        | cons frame sending =>
          -- with nothing under way the promise the chain waits for has settled
          have hready : s.Ready := by
            intro m hm
            have hget := List.getElem?_eq_getElem (h.awaited m hm)
            have hasked := (h.serves.messages _ (List.mem_of_getElem? hget)).2.1
            exact h.serves.inv.orderly.settled htasks hout m _ hget hasked
          exact ⟨.turn, trivial, h.turn_left hsending hready⟩
  every_step e he := by
    have hmoves : e ≠ .turn → s.step target e = s ∨ (s.step target e).left < s.left := by
      intro hturn
      refine (h.moves he hturn).imp_right ?_
      rintro ⟨queue, heq, hmoves⟩
      rw [heq]
      exact Nat.add_lt_add_left hmoves.left _
    cases e with
    | turn =>
      cases hsending : s.sending with
      | nil => exact .inl (by simp [Radio.step, hsending])
      | cons frame sending =>
        by_cases hready : s.Ready
        · exact .inr (h.turn_left hsending hready)
        · exact .inl (by simp [Radio.step, hsending, hready])
    | run i => exact hmoves (by simp)
    | acknowledged j => exact hmoves (by simp)
    | _ => exact he.elim

/-- At rest, what was kept has been notified. -/
theorem Inv.served (h : s.Inv target) (hkept : s.Kept target) (hrest : s.AtRest) :
    s.Served target := by
  intro x hx
  obtain ⟨m, hm, hway | hnotified⟩ := hkept x hx
  · -- a message on its way would still be under way
    obtain ⟨hbusy, rfl⟩ := hway
    have hlt := h.given x hx _ hm
    have hget := List.getElem?_eq_getElem hlt
    have hasked := (h.serves.messages _ (List.mem_of_getElem? hget)).2.1
    have hsettled := h.serves.inv.orderly.settled hrest.tasks hrest.outstanding _ _ hget hasked
    have hpromise := (h.serves.sends hbusy).2.1
    exact absurd hsettled (h.serves.inv.promises.pending _ hpromise).2
  · exact ⟨m, hm, hnotified⟩

/-- The invariant holds at the start. -/
theorem inv_start : (start target).Inv target := by
  refine ⟨⟨Queue.inv_first rfl rfl rfl rfl rfl rfl rfl rfl rfl rfl, List.mem_singleton_self _,
    List.mem_singleton_self _, rfl, ?_, ?_, ?_⟩, ?_, ?_, ?_, rfl, List.Pairwise.nil⟩
  · exact fun t ht => (by cases ht)
  · exact fun msg hmsg => (by cases hmsg)
  · exact fun x hx => (by cases hx)
  · exact fun id hid => (by cases hid)
  · exact fun m hm => (by cases hm)
  · exact fun x hx => (by cases hx)

/-- All along a run no answer is lost exactly when each comes while nothing is being sent, and fits;
the reports go out in order, and when nothing new comes the radio comes to rest, with what was kept
notified. -/
theorem answers_kept_iff (target : Notify.Address) (es : List Event) :
    ((∀ p, p <+: es → (p.foldl (step target) (start target)).Kept target) ↔
      ∀ p e, p ++ [e] <+: es → (p.foldl (step target) (start target)).Hears e) ∧
    ∀ p, p <+: es →
      (p.foldl (step target) (start target)).InOrder ∧
      (p.foldl (step target) (start target)).RunsOut target ∧
      ((p.foldl (step target) (start target)).Kept target →
        (p.foldl (step target) (start target)).AtRest →
          (p.foldl (step target) (start target)).Served target) := by
  have hfirst : (start target).Inv target := inv_start
  have hempty : (start target).Kept target := fun x hx => (by cases hx)
  have hnext := fun (s : Radio) e (hs : s.Inv target) => hs.step e
  refine ⟨holds_along_iff hfirst hnext hempty (fun s e hs hkept => hs.kept_step_iff hkept e) es, ?_⟩
  intro p _
  have h := inv_along hfirst hnext p
  exact ⟨⟨h.reports, h.numbers, h.serves.inv.orderly⟩, h.runsOut, h.served⟩

/-- A report's fragment is out as the key answers a request: the answer is refused, and the request
is forgotten. -/
theorem answer_behind_a_report_is_lost :
    ¬ ∀ (target : Notify.Address) (es : List Event),
      (es.foldl (step target) (start target)).Kept target := by
  intro h
  have hkept := h "A" [.asks, .pushes [7], .turn, .run 0, .run 0, .answers 1 [0]]
  generalize hs : List.foldl (step "A") (start "A") _ = s at hkept
  have hgiven : s.given = [(.report [7], some 0), (.response 1 [0], some 1)] := by
    rw [← hs]
    decide +kernel
  have hcur : s.queue.cur = 0 ∧ s.queue.acked = [] ∧
      s.queue.messages = [⟨1, "A", true⟩, ⟨1, "A", true⟩] := by
    rw [← hs]
    decide +kernel
  obtain ⟨hcur, hacked, hmessages⟩ := hcur
  obtain ⟨m, hm, hway | ⟨msg, hmsg, -, hall⟩⟩ := hkept (.response 1 [0], some 1) (by simp [hgiven])
  · obtain rfl := Option.some.inj hm
    exact absurd (hway.2.symm.trans hcur) (by decide)
  · obtain rfl := Option.some.inj hm
    rw [hmessages] at hmsg
    obtain rfl := Option.some.inj hmsg
    have hmem := hall 0 Nat.one_pos
    rw [hacked] at hmem
    cases hmem

end Radio

end OkRn.Gatt.Bridges
