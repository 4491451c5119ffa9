/-
OkRn/Gatt/Whole.lean

Replies go out whole, one at a time.

`clearNotifications` resets the one in-flight flag whoever holds a fragment: the
acknowledgement of that fragment is then taken for the next one's.  While a clear
runs only when nothing is in the air, there is at most one fragment under way, and
`Phase` says where it is.

* `Orderly` is what the queue promises: one fragment in the air, messages unmixed, and a
  promise kept only when every fragment was acknowledged;
* `Calm` is the order of events: a clear runs while nothing is in the air;
* `Inv.step` goes through the events, with `Phase` for the queue that is sending.

Main results: `replies_go_out_whole`, and `late_ack_resolves_the_next` for a target change
with a fragment in flight.
-/
import OkRn.Gatt.Notify
import OkRn.Lib.Along
import Mathlib.Data.List.Chain
import Mathlib.Data.List.Nodup

namespace OkRn.Gatt.Notify

/-- The next fragment of a message, or the first of a later one. -/
def Follows (x y : Frag) : Prop :=
  y.msg = x.msg ∧ y.index = x.index + 1 ∨ x.msg < y.msg ∧ y.index = 0

namespace Queue

/-- What the queue promises. -/
structure Orderly (s : Queue) : Prop where
  /-- A fragment is handed over only when none of that computer's is unacknowledged. -/
  alone : ∀ h ∈ s.handed, h.unacked = []
  /-- The fragments of two messages are never mixed. -/
  unmixed : (s.handed.map (·.frag)).IsChain Follows
  first : ∀ f ∈ (s.handed.map (·.frag)).head?, f.index = 0
  /-- A promise resolves only after each fragment of its message was acknowledged by its
  computer. -/
  answered : ∀ x ∈ s.settled, x.2 = true →
    ∃ msg, s.messages[x.1]? = some msg ∧ ∀ i < msg.size, (⟨x.1, i⟩, msg.device) ∈ s.acked
  /-- A promise is settled once at most, and has been when nothing is under way. -/
  once : (s.settled.map (·.1)).Nodup
  settled : s.tasks = [] → s.outstanding = [] →
    ∀ m msg, s.messages[m]? = some msg → msg.asked = true → m ∈ s.settled.map (·.1)

/-- Nothing is taken, handed over, or being acknowledged or refused. -/
def Quiet (s : Queue) : Prop := s.outstanding = [] ∧ s.tasks.filter Task.carries = []

/-- A clear runs while nothing is in the air, and between a refusal and its clear no fragment is
taken. -/
def Calm (s : Queue) : Event → Prop
  | .run i _ =>
      match s.tasks[i]? with
      | some .pump => s.busy = true → s.inFlight = false → .failed ∉ s.tasks
      | some .clear | some .failed => s.Quiet
      | _ => True
  | _ => True

instance (s : Queue) : Decidable s.Quiet := inferInstanceAs (Decidable (_ ∧ _))

instance (s : Queue) (e : Event) : Decidable (s.Calm e) := by
  cases e with
  | run i accepts =>
    show Decidable (match s.tasks[i]? with
      | some .pump => s.busy = true → s.inFlight = false → .failed ∉ s.tasks
      | some .clear | some .failed => s.Quiet
      | _ => True)
    split <;> infer_instance
  | _ => exact isTrue trivial

/-! ### Where the fragment is -/

/-- The queue is sending `msg`. -/
structure Sending (s : Queue) (msg : Msg) : Prop where
  get : s.messages[s.cur]? = some msg
  device : s.device = some msg.device
  promise : s.promise = if msg.asked then some s.cur else none
  taken : s.taken ≤ msg.size
  queue : s.queue = (List.range' s.taken (msg.size - s.taken)).map (Frag.mk s.cur)

/-- The first `n` fragments of the message were acknowledged. -/
def AckedBelow (s : Queue) (msg : Msg) (n : Nat) : Prop :=
  ∀ i < n, (⟨s.cur, i⟩, msg.device) ∈ s.acked

/-- `n` fragments of the message were handed over. -/
def HandedOver (s : Queue) (n : Nat) : Prop :=
  if n = 0 then ∀ h ∈ s.handed, h.frag.msg < s.cur
  else (s.handed.map (·.frag)).getLast? = some ⟨s.cur, n - 1⟩

/-- The thread will clear the queue. -/
def Clears (s : Queue) : Task → Prop
  | .clear | .failed => True
  | .gone device | .left device => s.device = some device
  | _ => False

/-- The fragment that was taken last. -/
def last (s : Queue) : Frag := ⟨s.cur, s.taken - 1⟩

/-- Where the queue is in a message. -/
inductive Phase (s : Queue) (msg : Msg) : Prop
  /-- All that was taken is acknowledged, and a thread is about to go on. -/
  | ready (hfly : s.inFlight = false) (hquiet : s.Quiet) (hacked : s.AckedBelow msg s.taken)
      (hover : s.HandedOver s.taken)
      (hnext : .pump ∈ s.tasks ∨ .clear ∈ s.tasks ∨ .failed ∈ s.tasks)
  | broken (hfly : s.inFlight = false) (hquiet : s.Quiet) (hfailed : .failed ∈ s.tasks)
  | handing (hfly : s.inFlight = true) (hpos : 0 < s.taken) (hout : s.outstanding = [])
      (htasks : s.tasks.filter Task.carries = [.hand s.last msg.device])
      (hacked : s.AckedBelow msg (s.taken - 1)) (hover : s.HandedOver (s.taken - 1))
  | out (hfly : s.inFlight = true) (hpos : 0 < s.taken)
      (hout : s.outstanding = [(s.last, msg.device)]) (htasks : s.tasks.filter Task.carries = [])
      (hacked : s.AckedBelow msg (s.taken - 1)) (hover : s.HandedOver s.taken)
  | sent (ok : Bool) (hfly : s.inFlight = true) (hout : s.outstanding = [])
      (htasks : s.tasks.filter Task.carries = [.sent s.last ok])
      (hacked : ok = true → s.AckedBelow msg s.taken) (hover : s.HandedOver s.taken)
  | refused (hfly : s.inFlight = true) (hout : s.outstanding = [])
      (htasks : s.tasks.filter Task.carries = [.refused s.last])
  /-- The link went with the fragment. -/
  | lost (hfly : s.inFlight = true) (hquiet : s.Quiet) (hclears : ∃ t ∈ s.tasks, s.Clears t)

/-- The queue is free: nothing in it, and nothing under way. -/
structure Free (s : Queue) : Prop where
  queue : s.queue = []
  inFlight : s.inFlight = false
  promise : s.promise = none
  device : s.device = none
  quiet : s.Quiet

/-- How promises have ended so far. -/
structure Promises (s : Queue) : Prop where
  answered : ∀ x ∈ s.settled, x.2 = true →
    ∃ msg, s.messages[x.1]? = some msg ∧ ∀ i < msg.size, (⟨x.1, i⟩, msg.device) ∈ s.acked
  once : (s.settled.map (·.1)).Nodup
  known : ∀ x ∈ s.settled, x.1 < s.messages.length
  pending : ∀ m, s.promise = some m → m < s.messages.length ∧ m ∉ s.settled.map (·.1)
  asked : ∀ m msg, s.messages[m]? = some msg → msg.asked = true →
    m ∈ s.settled.map (·.1) ∨ s.promise = some m

/-- How fragments were handed over: one at a time, message by message. -/
structure Handing (s : Queue) : Prop where
  alone : ∀ h ∈ s.handed, h.unacked = []
  unmixed : (s.handed.map (·.frag)).IsChain Follows
  first : ∀ f ∈ (s.handed.map (·.frag)).head?, f.index = 0
  known : ∀ h ∈ s.handed, h.frag.msg < s.messages.length

/-- What holds in a calm run. -/
structure Inv (s : Queue) : Prop where
  free : s.busy = false → s.Free
  sending : s.busy = true → ∃ msg, s.Sending msg ∧ s.Phase msg
  promises : s.Promises
  handing : s.Handing

/-- Promises go by the messages and what was acknowledged. -/
theorem Promises.congr {s s' : Queue} (h : s.Promises) (hmessages : s'.messages = s.messages)
    (hsettled : s'.settled = s.settled) (hpromise : s'.promise = s.promise)
    (hacked : s.acked ⊆ s'.acked) : s'.Promises := by
  obtain ⟨hanswered, honce, hknown, hpending, hasked⟩ := h
  constructor
  · rw [hsettled, hmessages]
    intro x hx hok
    obtain ⟨msg, hmsg, hall⟩ := hanswered x hx hok
    exact ⟨msg, hmsg, fun i hi => hacked (hall i hi)⟩
  · rwa [hsettled]
  · rwa [hsettled, hmessages]
  · rwa [hpromise, hsettled, hmessages]
  · rwa [hsettled, hpromise, hmessages]

/-- The handing goes by what was handed over. -/
theorem Handing.congr {s s' : Queue} (h : s.Handing) (hhanded : s'.handed = s.handed)
    (hmessages : s'.messages = s.messages) : s'.Handing := by
  obtain ⟨halone, hunmixed, hfirst, hknown⟩ := h
  constructor
  · rwa [hhanded]
  · rwa [hhanded]
  · rwa [hhanded]
  · rwa [hhanded, hmessages]

/-- The queue is free, or in some phase of a message. -/
theorem Inv.cases {s : Queue} (h : s.Inv) : (s.busy = false ∧ s.Free) ∨
    (s.busy = true ∧ ∃ msg, s.Sending msg ∧ s.Phase msg) := by
  cases hbusy : s.busy with
  | false => exact .inl ⟨rfl, h.free hbusy⟩
  | true => exact .inr ⟨rfl, h.sending hbusy⟩

theorem Inv.of_sending {s : Queue} {msg : Msg} (hbusy : s.busy = true) (hsending : s.Sending msg)
    (hphase : s.Phase msg) (hpromises : s.Promises) (hhanding : s.Handing) : s.Inv where
  free hfree := by
    rw [hbusy] at hfree
    cases hfree
  sending _ := ⟨msg, hsending, hphase⟩
  promises := hpromises
  handing := hhanding

theorem Inv.of_free {s : Queue} (hbusy : s.busy = false) (hfree : s.Free)
    (hpromises : s.Promises) (hhanding : s.Handing) : s.Inv where
  free _ := hfree
  sending h := by
    rw [hbusy] at h
    cases h
  promises := hpromises
  handing := hhanding

/-- What the invariant promises. -/
theorem Inv.orderly {s : Queue} (h : s.Inv) : s.Orderly where
  alone := h.handing.alone
  unmixed := h.handing.unmixed
  first := h.handing.first
  answered := h.promises.answered
  once := h.promises.once
  settled htasks hout m msg hmsg hasked := by
    rcases h.promises.asked m msg hmsg hasked with hsettled | hpromise
    · exact hsettled
    -- with nothing under way the queue is free, so no promise waits
    · cases hbusy : s.busy with
      | false => rw [(h.free hbusy).promise] at hpromise; cases hpromise
      | true =>
        obtain ⟨cur, -, hphase⟩ := h.sending hbusy
        cases hphase <;> simp_all

/-! ### Tasks -/

section

variable {tasks : List Task} {i : Nat} {t t' : Task}

/-- A task of the list, and those around it. -/
theorem split_task (h : tasks[i]? = some t) :
    ∃ before after, tasks = before ++ t :: after ∧ tasks.eraseIdx i = before ++ after := by
  obtain ⟨hi, hget⟩ := List.getElem?_eq_some_iff.mp h
  refine ⟨tasks.take i, tasks.drop (i + 1), ?_, List.eraseIdx_eq_take_drop_succ tasks i⟩
  rw [← hget, List.getElem_cons_drop, List.take_append_drop]

/-- A task that carries nothing may go. -/
theorem carries_erase (h : tasks[i]? = some t) (ht : t.carries = false) :
    (tasks.eraseIdx i).filter Task.carries = tasks.filter Task.carries := by
  obtain ⟨before, after, htasks, herase⟩ := split_task h
  rw [herase, htasks, List.filter_append, List.filter_append,
    List.filter_cons_of_neg (by simp [ht])]

/-- The one task that carries something is the one that goes on. -/
theorem carries_one (h : tasks[i]? = some t) (ht : t.carries = true)
    (hone : tasks.filter Task.carries = [t']) :
    t = t' ∧ (tasks.eraseIdx i).filter Task.carries = [] := by
  obtain ⟨before, after, htasks, herase⟩ := split_task h
  rw [htasks, List.filter_append, List.filter_cons_of_pos ht] at hone
  rw [herase, List.filter_append]
  cases hb : before.filter Task.carries with
  | nil =>
    rw [hb, List.nil_append] at hone
    obtain ⟨rfl, hafter⟩ := List.cons.inj hone
    exact ⟨rfl, by rw [hafter]; rfl⟩
  | cons u us =>
    rw [hb, List.cons_append] at hone
    have := (List.cons.inj hone).2
    simp at this

/-- Where nothing carries, no task does. -/
theorem carries_none (h : tasks[i]? = some t) (ht : t.carries = true)
    (hnone : tasks.filter Task.carries = []) : False := by
  have hmem : t ∈ tasks.filter Task.carries :=
    List.mem_filter.mpr ⟨List.mem_of_getElem? h, ht⟩
  rw [hnone] at hmem
  cases hmem

theorem mem_erase_of_ne (h : tasks[i]? = some t) (hmem : t' ∈ tasks) (hne : t' ≠ t) :
    t' ∈ tasks.eraseIdx i := by
  obtain ⟨before, after, htasks, herase⟩ := split_task h
  rw [herase]
  rw [htasks] at hmem
  rcases List.mem_append.mp hmem with hmem | hmem
  · exact List.mem_append_left _ hmem
  · rcases List.mem_cons.mp hmem with rfl | hmem
    · exact absurd rfl hne
    · exact List.mem_append_right _ hmem

/-- A new task that carries nothing changes nothing here. -/
theorem filter_begins (ht : t.carries = false) :
    (tasks ++ [t]).filter Task.carries = tasks.filter Task.carries := by
  rw [List.filter_append, List.filter_cons_of_neg (by simp [ht]), List.filter_nil, List.append_nil]

end

/-! ### What a thread changes beside the queue -/

variable {s : Queue}

/-- Other threads come and go: none that carries something, and who will go on still does. -/
theorem Inv.others (h : s.Inv) {tasks : List Task} {centrals linked : List Address} {server : Bool}
    (hcarries : tasks.filter Task.carries = s.tasks.filter Task.carries)
    (hnext : s.busy = true → s.inFlight = false → ∀ t ∈ s.tasks,
      t = .pump ∨ t = .clear ∨ t = .failed → t ∈ tasks)
    (hclears : s.inFlight = true → (∃ t ∈ s.tasks, s.Clears t) → ∃ t ∈ tasks, s.Clears t) :
    Inv { s with tasks, centrals, linked, server } where
  free hbusy := by
    obtain ⟨hqueue, hfly, hpromise, hdevice, hquiet⟩ := h.free hbusy
    exact ⟨hqueue, hfly, hpromise, hdevice, hquiet.1, hcarries.trans hquiet.2⟩
  sending hbusy := by
    obtain ⟨msg, ⟨hget, hdevice, hpromise, htaken, hqueue⟩, hphase⟩ := h.sending hbusy
    refine ⟨msg, ⟨hget, hdevice, hpromise, htaken, hqueue⟩, ?_⟩
    -- each phase reads the tasks that carry, and these are the same
    cases hphase with
    | ready hfly hquiet hacked hover hgo =>
      refine .ready hfly ⟨hquiet.1, hcarries.trans hquiet.2⟩ hacked hover ?_
      rcases hgo with hgo | hgo | hgo
      · exact .inl (hnext hbusy hfly _ hgo (.inl rfl))
      · exact .inr (.inl (hnext hbusy hfly _ hgo (.inr (.inl rfl))))
      · exact .inr (.inr (hnext hbusy hfly _ hgo (.inr (.inr rfl))))
    | broken hfly hquiet hfailed =>
      exact .broken hfly ⟨hquiet.1, hcarries.trans hquiet.2⟩
        (hnext hbusy hfly _ hfailed (.inr (.inr rfl)))
    | handing hfly hpos hout htasks hacked hover =>
      exact .handing hfly hpos hout (hcarries.trans htasks) hacked hover
    | out hfly hpos hout htasks hacked hover =>
      exact .out hfly hpos hout (hcarries.trans htasks) hacked hover
    | sent ok hfly hout htasks hacked hover =>
      exact .sent ok hfly hout (hcarries.trans htasks) hacked hover
    | refused hfly hout htasks => exact .refused hfly hout (hcarries.trans htasks)
    | lost hfly hquiet hgone =>
      exact .lost hfly ⟨hquiet.1, hcarries.trans hquiet.2⟩ (hclears hfly hgone)
  promises := h.promises.congr rfl rfl rfl (List.Subset.refl _)
  handing := h.handing.congr rfl rfl

theorem Inv.begins (h : s.Inv) {t : Task} (ht : t.carries = false)
    {centrals linked : List Address} {server : Bool} :
    Inv { s with tasks := s.tasks ++ [t], centrals, linked, server } :=
  h.others (filter_begins ht) (fun _ _ _ hmem _ => List.mem_append_left _ hmem)
    fun _ ⟨u, hmem, hclears⟩ => ⟨u, List.mem_append_left _ hmem, hclears⟩

/-- The message is done with: its promise is settled, and the queue is free. -/
theorem Promises.settle (h : s.Promises) (ok : Bool)
    (hok : ok = true → ∀ m, s.promise = some m → ∃ msg, s.messages[m]? = some msg ∧
      ∀ i < msg.size, (⟨m, i⟩, msg.device) ∈ s.acked) : (s.settle ok).Promises := by
  -- without a promise nothing is settled
  cases hpromise : s.promise with
  | none =>
    have hsame : s.settle ok = s := by
      cases s
      cases hpromise
      simp [Queue.settle]
    rw [hsame]
    exact h
  | some m =>
    obtain ⟨hlt, hfresh⟩ := h.pending m hpromise
    have hsettled : (s.settle ok).settled = s.settled ++ [(m, ok)] := by
      simp [Queue.settle, hpromise]
    constructor
    · intro x hx hok'
      rw [hsettled] at hx
      rcases List.mem_append.mp hx with hx | hx
      · exact h.answered x hx hok'
      · obtain rfl := List.mem_singleton.mp hx
        exact hok hok' m hpromise
    · rw [hsettled, List.map_append]
      refine List.nodup_append.mpr ⟨h.once, List.nodup_singleton _, ?_⟩
      rintro a ha b hb rfl
      obtain rfl : a = m := by simpa using hb
      exact hfresh ha
    · intro x hx
      rw [hsettled] at hx
      rcases List.mem_append.mp hx with hx | hx
      · exact h.known x hx
      · obtain rfl := List.mem_singleton.mp hx
        exact hlt
    · intro m' hm'
      cases hm'
    · intro m' msg hmsg hasked
      rw [hsettled, List.map_append, List.mem_append]
      rcases h.asked m' msg hmsg hasked with hm' | hm'
      · exact .inl (.inl hm')
      · rw [hpromise] at hm'
        obtain rfl := Option.some.inj hm'
        exact .inl (.inr List.mem_cons_self)

/-- A clear leaves the queue free. -/
theorem inv_clear (hquiet : s.Quiet) (hpromises : s.Promises) (hhanding : s.Handing) :
    s.clearNotifications.Inv :=
  .of_free rfl ⟨rfl, rfl, rfl, rfl, hquiet⟩
    ((hpromises.settle false fun hok => by cases hok).congr rfl rfl rfl (List.Subset.refl _))
    (hhanding.congr rfl rfl)

section

variable {msg : Msg}

/-- With no fragment in flight none is under way, and a thread goes on or will clear the queue. -/
theorem Phase.idle (h : s.Phase msg) (hfly : s.inFlight = false) :
    s.Quiet ∧ (.failed ∈ s.tasks ∨ s.AckedBelow msg s.taken ∧ s.HandedOver s.taken) := by
  have hnot : s.inFlight ≠ true := by simp [hfly]
  cases h with
  | ready _ hquiet hacked hover _ => exact ⟨hquiet, .inr ⟨hacked, hover⟩⟩
  | broken _ hquiet hfailed => exact ⟨hquiet, .inl hfailed⟩
  | handing hfly' _ _ _ _ _ => exact absurd hfly' hnot
  | out hfly' _ _ _ _ _ => exact absurd hfly' hnot
  | sent _ hfly' _ _ _ _ => exact absurd hfly' hnot
  | refused hfly' _ _ => exact absurd hfly' hnot
  | lost hfly' _ _ => exact absurd hfly' hnot

/-- A thread with a fragment, or with what became of it, is the only one. -/
theorem Phase.carrying (h : s.Phase msg) {i : Nat} {t : Task} (hget : s.tasks[i]? = some t)
    (ht : t.carries = true) :
    s.inFlight = true ∧ s.outstanding = [] ∧ (s.tasks.eraseIdx i).filter Task.carries = [] ∧
      ((t = .hand s.last msg.device ∧ 0 < s.taken ∧ s.AckedBelow msg (s.taken - 1) ∧
          s.HandedOver (s.taken - 1)) ∨
        t = .refused s.last ∨
        ∃ ok, t = .sent s.last ok ∧ (ok = true → s.AckedBelow msg s.taken) ∧
          s.HandedOver s.taken) := by
  cases h with
  | handing hfly hpos hout htasks hacked hover =>
    obtain ⟨rfl, hrest⟩ := carries_one hget ht htasks
    exact ⟨hfly, hout, hrest, .inl ⟨rfl, hpos, hacked, hover⟩⟩
  | sent ok hfly hout htasks hacked hover =>
    obtain ⟨rfl, hrest⟩ := carries_one hget ht htasks
    exact ⟨hfly, hout, hrest, .inr (.inr ⟨ok, rfl, hacked, hover⟩)⟩
  | refused hfly hout htasks =>
    obtain ⟨rfl, hrest⟩ := carries_one hget ht htasks
    exact ⟨hfly, hout, hrest, .inr (.inl rfl)⟩
  | ready _ hquiet _ _ _ => exact (carries_none hget ht hquiet.2).elim
  | broken _ hquiet _ => exact (carries_none hget ht hquiet.2).elim
  | out _ _ _ htasks _ _ => exact (carries_none hget ht htasks).elim
  | lost _ hquiet _ => exact (carries_none hget ht hquiet.2).elim

/-- A fragment with the stack is the only one. -/
theorem Phase.isOut (h : s.Phase msg) {j : Nat} {x : Frag × Address}
    (hget : s.outstanding[j]? = some x) :
    j = 0 ∧ x = (s.last, msg.device) ∧ s.inFlight = true ∧ s.outstanding = [x] ∧
      s.tasks.filter Task.carries = [] ∧ s.AckedBelow msg (s.taken - 1) ∧
      s.HandedOver s.taken := by
  have hsome : s.outstanding ≠ [] := by
    intro hnil
    rw [hnil] at hget
    cases hget
  cases h with
  | out hfly _ hout htasks hacked hover =>
    rw [hout] at hget
    cases j with
    | zero =>
      obtain rfl := Option.some.inj hget
      exact ⟨rfl, rfl, hfly, hout, htasks, hacked, hover⟩
    | succ j => cases hget
  | ready _ hquiet _ _ _ => exact absurd hquiet.1 hsome
  | broken _ hquiet _ => exact absurd hquiet.1 hsome
  | handing _ _ hout _ _ _ => exact absurd hout hsome
  | sent _ _ hout _ _ _ => exact absurd hout hsome
  | refused _ hout _ => exact absurd hout hsome
  | lost _ hquiet _ => exact absurd hquiet.1 hsome

end

/-- With nothing in flight nothing is in the air. -/
theorem Inv.quiet (h : s.Inv) (hfly : s.inFlight = false) : s.Quiet := by
  rcases h.cases with ⟨-, hfree⟩ | ⟨-, msg, -, hphase⟩
  · exact hfree.quiet
  · exact (hphase.idle hfly).1

/-- A thread that carries something runs while a message is being sent. -/
theorem Inv.carrying (h : s.Inv) {i : Nat} {t : Task} (hget : s.tasks[i]? = some t)
    (ht : t.carries = true) : s.busy = true ∧ ∃ msg, s.Sending msg ∧ s.Phase msg := by
  rcases h.cases with ⟨-, hfree⟩ | hsends
  · exact (carries_none hget ht hfree.quiet.2).elim
  · exact hsends

/-- A run of a thread that changes nothing of the queue, and is not one that will clear it. -/
theorem Inv.passes (h : s.Inv) {i : Nat} {t : Task} (hget : s.tasks[i]? = some t)
    (ht : t.carries = false) (hnot : t ≠ .pump ∧ t ≠ .clear ∧ t ≠ .failed)
    (hclears : s.inFlight = true → ¬ s.Clears t) {centrals : List Address} :
    Inv { s with tasks := s.tasks.eraseIdx i, centrals } := by
  refine h.others (carries_erase hget ht) (fun _ _ u hmem hu => ?_) fun hfly ⟨u, hmem, hu⟩ => ?_
  · refine mem_erase_of_ne hget hmem ?_
    rintro rfl
    rcases hu with rfl | rfl | rfl
    · exact hnot.1 rfl
    · exact hnot.2.1 rfl
    · exact hnot.2.2 rfl
  · refine ⟨u, mem_erase_of_ne hget hmem ?_, hu⟩
    rintro rfl
    exact hclears hfly hu

/-- The thread of a computer that is gone goes on to the next step. -/
theorem Inv.goesOn (h : s.Inv) {i : Nat} {t t' : Task} (hget : s.tasks[i]? = some t)
    (ht : t.carries = false) (ht' : t'.carries = false)
    (hnot : t ≠ .pump ∧ t ≠ .clear ∧ t ≠ .failed) (hclears : s.Clears t → s.Clears t')
    {centrals : List Address} :
    Inv { s with tasks := s.tasks.eraseIdx i ++ [t'], centrals } := by
  refine h.others ((filter_begins ht').trans (carries_erase hget ht)) (fun _ _ u hmem hu => ?_)
    fun _ ⟨u, hmem, hu⟩ => ?_
  · refine List.mem_append_left _ (mem_erase_of_ne hget hmem ?_)
    rintro rfl
    rcases hu with rfl | rfl | rfl
    · exact hnot.1 rfl
    · exact hnot.2.1 rfl
    · exact hnot.2.2 rfl
  · by_cases hut : u = t
    · subst hut
      exact ⟨t', List.mem_append_right _ List.mem_cons_self, hclears hu⟩
    · exact ⟨u, List.mem_append_left _ (mem_erase_of_ne hget hmem hut), hu⟩

/-! ### The steps of the queue -/

/-- The next fragment follows the last one. -/
theorem last_index {cur taken : Nat} {x : Frag} {handed : List Frag}
    (h : if taken = 0 then ∀ f ∈ handed, f.msg < cur
      else handed.getLast? = some ⟨cur, taken - 1⟩) (hx : x ∈ handed.getLast?) :
    Follows x ⟨cur, taken⟩ := by
  by_cases hzero : taken = 0
  · rw [if_pos hzero] at h
    exact .inr ⟨h x (List.mem_of_getLast? hx), hzero⟩
  · rw [if_neg hzero] at h
    obtain rfl := Option.some.inj (h.symm.trans hx)
    exact .inl ⟨rfl, by simp only; omega⟩

theorem Inv.hands (h : s.Inv) {i : Nat} {f : Frag} {device : Address}
    (hget : s.tasks[i]? = some (.hand f device)) (accepts : Bool) :
    (({ s with tasks := s.tasks.eraseIdx i } : Queue).act accepts (.hand f device)).Inv := by
  obtain ⟨hbusy, msg, hsending, hphase⟩ := h.carrying hget rfl
  obtain ⟨hfly, hout, hrest, htask⟩ := hphase.carrying hget rfl
  obtain ⟨heq, hpos, hacked, hover⟩ : Task.hand f device = .hand s.last msg.device ∧ 0 < s.taken ∧
      s.AckedBelow msg (s.taken - 1) ∧ s.HandedOver (s.taken - 1) := by simpa using htask
  obtain ⟨rfl, rfl⟩ := Task.hand.inj heq
  obtain ⟨hmsg, hdevice, hpromise, htaken, hqueue⟩ := hsending
  simp only [act]
  split
  · -- it is the only one in the air
    refine .of_sending hbusy ⟨hmsg, hdevice, hpromise, htaken, hqueue⟩ ?_
      (h.promises.congr rfl rfl rfl (List.Subset.refl _)) ?_
    · refine .out hfly hpos (by simp [hout, last]) hrest hacked ?_
      simp only [HandedOver, if_neg (Nat.pos_iff_ne_zero.mp hpos), List.map_append,
        List.map_cons, List.map_nil, List.getLast?_concat]
      rfl
    · obtain ⟨halone, hunmixed, hfirst, hknown⟩ := h.handing
      have hover' : if s.taken - 1 = 0 then ∀ f ∈ s.handed.map (·.frag), f.msg < s.cur
          else (s.handed.map (·.frag)).getLast? = some ⟨s.cur, s.taken - 1 - 1⟩ := by
        unfold HandedOver at hover
        split at hover
        · rename_i hzero
          rw [if_pos hzero]
          intro f hf
          obtain ⟨x, hx, rfl⟩ := List.mem_map.mp hf
          exact hover x hx
        · rename_i hzero
          rwa [if_neg hzero]
      refine ⟨fun x hx => ?_, ?_, fun f hf => ?_, fun x hx => ?_⟩
      · rcases List.mem_append.mp hx with hx | hx
        · exact halone x hx
        · obtain rfl := List.mem_singleton.mp hx
          simp [hout]
      · simp only [List.map_append, List.map_cons, List.map_nil]
        refine List.isChain_append.mpr ⟨hunmixed, List.isChain_singleton _, fun x hx y hy => ?_⟩
        obtain rfl : s.last = y := by simpa using hy
        exact last_index hover' hx
      · cases hhanded : s.handed with
        | nil =>
          obtain rfl : s.last = f := by simpa [hhanded] using hf
          rw [hhanded] at hover'
          by_contra hne
          have hne' : s.taken - 1 ≠ 0 := hne
          simp [hne'] at hover'
        | cons y ys => exact hfirst f (by simpa [hhanded] using hf)
      · rcases List.mem_append.mp hx with hx | hx
        · exact hknown x hx
        · obtain rfl := List.mem_singleton.mp hx
          exact (List.getElem?_eq_some_iff.mp hmsg).1
  · -- the stack refuses it
    refine .of_sending hbusy ⟨hmsg, hdevice, hpromise, htaken, hqueue⟩
      (.refused hfly hout ?_) (h.promises.congr rfl rfl rfl (List.Subset.refl _))
      (h.handing.congr rfl rfl)
    show (s.tasks.eraseIdx i ++ [Task.refused s.last]).filter Task.carries = [Task.refused s.last]
    rw [List.filter_append, hrest]
    rfl

/-- The refused fragment leaves a message that only a clear can end. -/
theorem Inv.refuses (h : s.Inv) {i : Nat} {f : Frag} (hget : s.tasks[i]? = some (.refused f))
    (accepts : Bool) :
    (({ s with tasks := s.tasks.eraseIdx i } : Queue).act accepts (.refused f)).Inv := by
  obtain ⟨hbusy, msg, ⟨hmsg, hdevice, hpromise, htaken, hqueue⟩, hphase⟩ := h.carrying hget rfl
  obtain ⟨-, hout, hrest, -⟩ := hphase.carrying hget rfl
  refine .of_sending hbusy ⟨hmsg, hdevice, hpromise, htaken, hqueue⟩
    (.broken rfl ⟨hout, ?_⟩ ?_) (h.promises.congr rfl rfl rfl (List.Subset.refl _))
    (h.handing.congr rfl rfl)
  · exact (filter_begins rfl).trans hrest
  · exact List.mem_append_right _ List.mem_cons_self

/-- `onNotificationSent` goes on: with the next fragment, or with a clear. -/
theorem Inv.sends (h : s.Inv) {i : Nat} {f : Frag} {ok : Bool}
    (hget : s.tasks[i]? = some (.sent f ok)) (accepts : Bool) :
    (({ s with tasks := s.tasks.eraseIdx i } : Queue).act accepts (.sent f ok)).Inv := by
  obtain ⟨hbusy, msg, ⟨hmsg, hdevice, hpromise, htaken, hqueue⟩, hphase⟩ := h.carrying hget rfl
  obtain ⟨-, hout, hrest, htask⟩ := hphase.carrying hget rfl
  obtain ⟨hacked, hover⟩ : (ok = true → s.AckedBelow msg s.taken) ∧ s.HandedOver s.taken := by
    rcases htask with ⟨heq, -⟩ | heq | ⟨ok', heq, hacked, hover⟩
    · cases heq
    · cases heq
    · obtain ⟨-, rfl⟩ := Task.sent.inj heq
      exact ⟨hacked, hover⟩
  refine .of_sending hbusy ⟨hmsg, hdevice, hpromise, htaken, hqueue⟩ ?_
    (h.promises.congr rfl rfl rfl (List.Subset.refl _)) (h.handing.congr rfl rfl)
  cases ok with
  | true =>
    refine .ready rfl ⟨hout, (filter_begins rfl).trans hrest⟩ (hacked rfl) hover (.inl ?_)
    exact List.mem_append_right _ List.mem_cons_self
  | false =>
    -- a bad status: only a clear can end the message
    refine .broken rfl ⟨hout, (filter_begins rfl).trans hrest⟩ ?_
    exact List.mem_append_right _ List.mem_cons_self

/-- A pump with a fragment in the air does nothing. -/
theorem Inv.pumpIdle (h : s.Inv) {i : Nat} (hget : s.tasks[i]? = some .pump)
    (hfly : s.inFlight = true) : Inv { s with tasks := s.tasks.eraseIdx i } := by
  refine h.others (carries_erase hget rfl) (fun _ hidle => ?_) fun _ ⟨u, hmem, hu⟩ => ?_
  · rw [hfly] at hidle
    cases hidle
  · refine ⟨u, mem_erase_of_ne hget hmem ?_, hu⟩
    rintro rfl
    exact hu

theorem pump_cases (s : Queue) :
    s.inFlight = true ∧ s.pumpNotifications = s ∨
    s.inFlight = false ∧ s.queue = [] ∧
      s.pumpNotifications = { s.settle true with device := none, busy := false } ∨
    (s.inFlight = false ∧ s.queue ≠ [] ∧
      s.device.filter (fun d => d ∈ s.centrals ∧ s.server = true) = none ∧
      s.pumpNotifications = s.clearNotifications) ∨
    s.inFlight = false ∧ ∃ f queue d, s.queue = f :: queue ∧ s.device = some d ∧
      s.pumpNotifications = { s with
        queue, inFlight := true, taken := s.taken + 1, tasks := s.tasks ++ [.hand f d] } := by
  unfold pumpNotifications
  split
  · rename_i hfly
    exact .inl ⟨hfly, rfl⟩
  rename_i hfly
  have hfly : s.inFlight = false := by simpa using hfly
  split
  · rename_i hqueue
    exact .inr (.inl ⟨hfly, hqueue, rfl⟩)
  rename_i f queue hqueue
  split
  · rename_i hnone
    exact .inr (.inr (.inl ⟨hfly, by rw [hqueue]; exact List.cons_ne_nil f queue, hnone, rfl⟩))
  · rename_i d hd
    obtain ⟨hdevice, -⟩ := Option.filter_eq_some_iff.mp hd
    exact .inr (.inr (.inr ⟨hfly, f, queue, d, hqueue, hdevice, rfl⟩))

/-- With nothing in the air a pump goes on with the message, or frees the queue. -/
theorem Inv.pumps (h : s.Inv) {i : Nat} (hget : s.tasks[i]? = some .pump)
    (hcalm : s.busy = true → s.inFlight = false → .failed ∉ s.tasks) (accepts : Bool) :
    (({ s with tasks := s.tasks.eraseIdx i } : Queue).act accepts .pump).Inv := by
  have hrest : (s.tasks.eraseIdx i).filter Task.carries = s.tasks.filter Task.carries :=
    carries_erase hget rfl
  show (({ s with tasks := s.tasks.eraseIdx i } : Queue).pumpNotifications).Inv
  -- nothing to do, the message is done, or its next fragment
  rcases pump_cases { s with tasks := s.tasks.eraseIdx i } with
    ⟨hfly, heq⟩ | ⟨hfly, hqueue, heq⟩ | ⟨hfly, hqueue, -, heq⟩ | ⟨hfly, f, queue, d, hqueue, hd, heq⟩
  · rw [heq]
    exact h.pumpIdle hget hfly
  · -- all that was taken is acknowledged, and nothing is left to be taken
    rw [heq]
    have hdone : s.Quiet ∧ ∀ m, s.promise = some m → ∃ msg, s.messages[m]? = some msg ∧
        ∀ i < msg.size, (⟨m, i⟩, msg.device) ∈ s.acked := by
      rcases h.cases with ⟨-, hfree⟩ | ⟨hbusy, msg, hsending, hphase⟩
      · refine ⟨hfree.quiet, fun m hm => ?_⟩
        rw [hfree.promise] at hm
        cases hm
      · obtain ⟨hquiet, hfailed | ⟨hacked, -⟩⟩ := hphase.idle hfly
        · exact absurd hfailed (hcalm hbusy hfly)
        · refine ⟨hquiet, fun m hm => ?_⟩
          have hcur : m = s.cur := by
            rw [hsending.promise] at hm
            split at hm
            · exact (Option.some.inj hm).symm
            · cases hm
          subst hcur
          have hnone : msg.size - s.taken = 0 := by
            have hempty : (List.range' s.taken (msg.size - s.taken)).map (Frag.mk s.cur) = [] :=
              hsending.queue.symm.trans hqueue
            simpa using hempty
          have htaken := hsending.taken
          have hsize : msg.size = s.taken := by omega
          exact ⟨msg, hsending.get, hsize ▸ hacked⟩
    obtain ⟨hquiet, hacked⟩ := hdone
    exact .of_free rfl ⟨hqueue, hfly, rfl, rfl, hquiet.1, hrest.trans hquiet.2⟩
      ((h.promises.settle true fun _ => hacked).congr rfl rfl rfl (List.Subset.refl _))
      (h.handing.congr rfl rfl)
  · rw [heq]
    have hquiet := h.quiet hfly
    exact inv_clear ⟨hquiet.1, hrest.trans hquiet.2⟩
      (h.promises.congr rfl rfl rfl (List.Subset.refl _)) (h.handing.congr rfl rfl)
  · -- the next fragment is taken
    rw [heq]
    rcases h.cases with ⟨-, hfree⟩ | ⟨hbusy, msg, hsending, hphase⟩
    · rw [hfree.device] at hd
      cases hd
    · obtain ⟨hquiet, hfailed | ⟨hacked, hover⟩⟩ := hphase.idle hfly
      · exact absurd hfailed (hcalm hbusy hfly)
      · obtain ⟨hmsg, hdevice, hpromise, htaken, hqueue'⟩ := hsending
        obtain rfl : d = msg.device := Option.some.inj (hd.symm.trans hdevice)
        cases hleft : msg.size - s.taken with
        | zero =>
          rw [hleft] at hqueue'
          rw [hqueue'] at hqueue
          cases hqueue
        | succ n =>
          rw [hleft, List.range'_succ, List.map_cons] at hqueue'
          obtain ⟨rfl, rfl⟩ := List.cons.inj (hqueue.symm.trans hqueue')
          refine .of_sending hbusy ⟨hmsg, hdevice, hpromise, ?_, ?_⟩ ?_
            (h.promises.congr rfl rfl rfl (List.Subset.refl _)) (h.handing.congr rfl rfl)
          · show s.taken + 1 ≤ msg.size
            omega
          · show _ = (List.range' (s.taken + 1) (msg.size - (s.taken + 1))).map _
            rw [show msg.size - (s.taken + 1) = n by omega]
          · refine .handing rfl (Nat.succ_pos _) hquiet.1 ?_ hacked hover
            rw [List.filter_append, hrest, hquiet.2]
            rfl

/-- The acknowledgement is the fragment's that is out. -/
theorem Inv.acknowledged (h : s.Inv) (j : Nat) (ok : Bool) :
    (s.step (.acknowledged j ok)).Inv := by
  simp only [step]
  split
  · rename_i f device hget
    rcases h.cases with ⟨-, hfree⟩ | ⟨hbusy, msg, ⟨hmsg, hdevice, hpromise, htaken, hqueue⟩, hphase⟩
    · rw [hfree.quiet.1] at hget
      cases hget
    · obtain ⟨rfl, hpair, hfly, hout, htasks, hacked, hover⟩ := hphase.isOut hget
      obtain ⟨rfl, rfl⟩ := Prod.mk.inj hpair
      refine .of_sending hbusy ⟨hmsg, hdevice, hpromise, htaken, hqueue⟩ ?_
        (h.promises.congr rfl rfl rfl ?_) (h.handing.congr rfl rfl)
      · refine .sent ok hfly ?_ ?_ ?_ hover
        · show s.outstanding.eraseIdx 0 = []
          rw [hout]
          rfl
        · show (s.tasks ++ [Task.sent s.last ok]).filter Task.carries = [Task.sent s.last ok]
          rw [List.filter_append, htasks]
          rfl
        · rintro rfl i hi
          show _ ∈ s.acked ++ [(s.last, msg.device)]
          -- those below were acknowledged before, this one is now
          by_cases hlast : i = s.taken - 1
          · subst hlast
            exact List.mem_append_right _ List.mem_cons_self
          · have hi' : i < s.taken := hi
            have hlt : i < s.taken - 1 := by omega
            exact List.mem_append_left _ (hacked i hlt)
      · show s.acked ⊆ if ok then s.acked ++ [(s.last, msg.device)] else s.acked
        split
        · exact List.subset_append_left _ _
        · exact List.Subset.refl _
  · exact h

/-- Links go, and with them what was sent over them; a thread will clear the queue. -/
theorem Inv.unlinks (h : s.Inv) {t : Task} (ht : t.carries = false)
    {centrals linked : List Address} {server : Bool} {outstanding : List (Frag × Address)}
    (hsub : ∀ x, s.outstanding = [x] → outstanding = [x] ∨
      outstanding = [] ∧ (s.device = some x.2 → s.Clears t))
    (hnil : s.outstanding = [] → outstanding = []) :
    Inv { s with tasks := s.tasks ++ [t], centrals, linked, server, outstanding } := by
  have hfilter : (s.tasks ++ [t]).filter Task.carries = s.tasks.filter Task.carries :=
    filter_begins ht
  rcases h.cases with ⟨hbusy, hfree⟩ | ⟨hbusy, msg, ⟨hmsg, hdevice, hpromise, htaken, hqueue⟩, hphase⟩
  · obtain ⟨hqueue, hfly, hpromise, hdevice, hquiet⟩ := hfree
    exact .of_free hbusy ⟨hqueue, hfly, hpromise, hdevice, hnil hquiet.1, hfilter.trans hquiet.2⟩
      (h.promises.congr rfl rfl rfl (List.Subset.refl _)) (h.handing.congr rfl rfl)
  · refine .of_sending hbusy ⟨hmsg, hdevice, hpromise, htaken, hqueue⟩ ?_
      (h.promises.congr rfl rfl rfl (List.Subset.refl _)) (h.handing.congr rfl rfl)
    cases hphase with
    | ready hfly hquiet hacked hover hnext =>
      refine .ready hfly ⟨hnil hquiet.1, hfilter.trans hquiet.2⟩ hacked hover ?_
      exact hnext.imp (List.mem_append_left _)
        (Or.imp (List.mem_append_left _) (List.mem_append_left _))
    | broken hfly hquiet hfailed =>
      exact .broken hfly ⟨hnil hquiet.1, hfilter.trans hquiet.2⟩ (List.mem_append_left _ hfailed)
    | handing hfly hpos hout htasks hacked hover =>
      exact .handing hfly hpos (hnil hout) (hfilter.trans htasks) hacked hover
    | out hfly hpos hout htasks hacked hover =>
      -- the fragment that was out is still awaited, or its computer is gone
      rcases hsub _ hout with hkept | ⟨hgone, hclears⟩
      · exact .out hfly hpos hkept (hfilter.trans htasks) hacked hover
      · exact .lost hfly ⟨hgone, hfilter.trans htasks⟩
          ⟨t, List.mem_append_right _ List.mem_cons_self, hclears hdevice⟩
    | sent ok hfly hout htasks hacked hover =>
      exact .sent ok hfly (hnil hout) (hfilter.trans htasks) hacked hover
    | refused hfly hout htasks => exact .refused hfly (hnil hout) (hfilter.trans htasks)
    | lost hfly hquiet hclears =>
      obtain ⟨u, hu, hclears⟩ := hclears
      exact .lost hfly ⟨hnil hquiet.1, hfilter.trans hquiet.2⟩
        ⟨u, List.mem_append_left _ hu, hclears⟩

section

variable {s' : Queue} {new : Msg}

/-- A message of the longer list is an old one or the new one. -/
theorem get_new (hmessages : s'.messages = s.messages ++ [new]) {m : Nat} {msg : Msg}
    (hm : s'.messages[m]? = some msg) :
    s.messages[m]? = some msg ∨ m = s.messages.length ∧ msg = new := by
  rw [hmessages, List.getElem?_append] at hm
  split at hm
  · exact .inl hm
  · rename_i hge
    cases hsub : m - s.messages.length with
    | zero =>
      rw [hsub] at hm
      exact .inr ⟨by omega, (Option.some.inj hm).symm⟩
    | succ n =>
      rw [hsub] at hm
      cases hm

/-- The old messages keep their numbers. -/
theorem get_old (hmessages : s'.messages = s.messages ++ [new]) {m : Nat} {msg : Msg}
    (hm : s.messages[m]? = some msg) : s'.messages[m]? = some msg := by
  rw [hmessages, List.getElem?_append_left (List.getElem?_eq_some_iff.mp hm).1]
  exact hm

/-- The promises that were kept are kept with one message more. -/
theorem Promises.answered_longer (h : s.Promises) (hmessages : s'.messages = s.messages ++ [new])
    (hacked : s'.acked = s.acked) : ∀ x ∈ s.settled, x.2 = true →
      ∃ msg, s'.messages[x.1]? = some msg ∧ ∀ i < msg.size, (⟨x.1, i⟩, msg.device) ∈ s'.acked := by
  intro x hx hok
  obtain ⟨msg, hmsg, hall⟩ := h.answered x hx hok
  rw [hacked]
  exact ⟨msg, get_old hmessages hmsg, hall⟩

/-- The new message's promise waits. -/
theorem Promises.waits (h : s.Promises) (hnone : s.promise = none)
    (hmessages : s'.messages = s.messages ++ [new])
    (hpromise : s'.promise = if new.asked then some s.messages.length else none)
    (hsettled : s'.settled = s.settled) (hacked : s'.acked = s.acked) : s'.Promises where
  answered := by
    rw [hsettled]
    exact h.answered_longer hmessages hacked
  once := by
    rw [hsettled]
    exact h.once
  known := by
    rw [hsettled, hmessages, List.length_append]
    exact fun x hx => Nat.lt_add_right 1 (h.known x hx)
  pending m hm := by
    rw [hpromise] at hm
    split at hm
    · obtain rfl := Option.some.inj hm
      rw [hmessages, hsettled, List.length_append]
      refine ⟨Nat.lt_add_one _, fun hmem => ?_⟩
      obtain ⟨x, hx, hlength⟩ := List.mem_map.mp hmem
      exact absurd hlength (Nat.ne_of_lt (h.known x hx))
    · cases hm
  asked m msg hm hasked := by
    -- an older message is settled or promised as before; the new one is the promise
    rcases get_new hmessages hm with hold | ⟨rfl, rfl⟩
    · rw [hsettled]
      rcases h.asked m msg hold hasked with hm' | hm'
      · exact .inl hm'
      · rw [hnone] at hm'
        cases hm'
    · rw [hpromise, if_pos hasked]
      exact .inr rfl

/-- The new message's promise is rejected at once. -/
theorem Promises.rejected (h : s.Promises) (hmessages : s'.messages = s.messages ++ [new])
    (hpromise : s'.promise = s.promise)
    (hsettled : s'.settled = s.settled ++ if new.asked then [(s.messages.length, false)] else [])
    (hacked : s'.acked = s.acked) : s'.Promises where
  answered x hx hok := by
    rw [hsettled] at hx
    rcases List.mem_append.mp hx with hx | hx
    · exact h.answered_longer hmessages hacked x hx hok
    · -- the new message is rejected at once, if it was asked for
      split at hx
      · obtain rfl := List.mem_singleton.mp hx
        cases hok
      · cases hx
  once := by
    rw [hsettled, List.map_append]
    refine List.nodup_append.mpr ⟨h.once, by split <;> simp, ?_⟩
    rintro a ha b hb rfl
    obtain ⟨x, hx, hxa⟩ := List.mem_map.mp ha
    have hlt := h.known x hx
    split at hb
    · have ha' : a = s.messages.length := by simpa using hb
      omega
    · cases hb
  known := by
    rw [hsettled, hmessages, List.length_append]
    intro x hx
    rcases List.mem_append.mp hx with hx | hx
    · exact Nat.lt_add_right 1 (h.known x hx)
    · split at hx
      · obtain rfl := List.mem_singleton.mp hx
        exact Nat.lt_add_one _
      · cases hx
  pending m hm := by
    rw [hpromise] at hm
    obtain ⟨hlt, hfresh⟩ := h.pending m hm
    rw [hmessages, hsettled, List.length_append, List.map_append, List.mem_append]
    refine ⟨Nat.lt_add_right 1 hlt, ?_⟩
    rintro (hmem | hmem)
    · exact hfresh hmem
    · split at hmem
      · have hm' : m = s.messages.length := by simpa using hmem
        omega
      · cases hmem
  asked m msg hm hasked := by
    rw [hpromise, hsettled, List.map_append, List.mem_append]
    rcases get_new hmessages hm with hold | ⟨rfl, rfl⟩
    · exact (h.asked m msg hold hasked).imp .inl id
    · rw [if_pos hasked]
      exact .inl (.inr List.mem_cons_self)

end

/-- A message is queued, or its promise rejected at once. -/
theorem Inv.enqueues (h : s.Inv) (size : Nat) (device : Address) (asked : Bool) :
    (s.enqueueNotifications size device asked).Inv := by
  have hhanding : ∀ s' : Queue, s'.handed = s.handed →
      s'.messages = s.messages ++ [⟨size, device, asked⟩] → s'.Handing := by
    intro s' hhanded hmessages
    obtain ⟨halone, hunmixed, hfirst, hknown⟩ := h.handing
    refine ⟨hhanded ▸ halone, hhanded ▸ hunmixed, hhanded ▸ hfirst, ?_⟩
    rw [hhanded, hmessages, List.length_append]
    exact fun x hx => Nat.lt_add_right 1 (hknown x hx)
  unfold enqueueNotifications
  -- when nothing is sent the message is begun, else it waits in the queue
  rcases h.cases with ⟨hbusy, hfree⟩ | ⟨hbusy, msg, ⟨hmsg, hdevice, hpromise, htaken, hqueue⟩, hphase⟩
  · rw [if_neg (by simp [hbusy])]
    have hquiet : s.outstanding = [] ∧ (s.tasks ++ [Task.pump]).filter Task.carries = [] :=
      ⟨hfree.quiet.1, (filter_begins rfl).trans hfree.quiet.2⟩
    refine .of_sending rfl ⟨List.getElem?_concat_length, rfl, rfl, Nat.zero_le _, rfl⟩
      (.ready hfree.inFlight hquiet ?_ ?_ (.inl ?_)) ?_ (hhanding _ rfl rfl)
    · exact fun i hi => absurd hi (Nat.not_lt_zero i)
    · exact h.handing.known
    · exact List.mem_append_right _ List.mem_cons_self
    · exact h.promises.waits hfree.promise rfl rfl rfl rfl
  · rw [if_pos hbusy]
    refine .of_sending hbusy ⟨get_old rfl hmsg, hdevice, hpromise, htaken, hqueue⟩ ?_
      (h.promises.rejected rfl rfl rfl rfl) (hhanding _ rfl rfl)
    cases hphase with
    | ready hfly hquiet hacked hover hnext => exact .ready hfly hquiet hacked hover hnext
    | broken hfly hquiet hfailed => exact .broken hfly hquiet hfailed
    | handing hfly hpos hout htasks hacked hover =>
      exact .handing hfly hpos hout htasks hacked hover
    | out hfly hpos hout htasks hacked hover => exact .out hfly hpos hout htasks hacked hover
    | sent ok hfly hout htasks hacked hover => exact .sent ok hfly hout htasks hacked hover
    | refused hfly hout htasks => exact .refused hfly hout htasks
    | lost hfly hquiet hclears => exact .lost hfly hquiet hclears

/-- A thread's turn keeps the invariant. -/
theorem Inv.run (h : s.Inv) {i : Nat} {accepts : Bool} (hcalm : s.Calm (.run i accepts)) :
    (s.step (.run i accepts)).Inv := by
  simp only [step]
  split
  · rename_i t hget
    simp only [Calm, hget] at hcalm
    -- one lemma for each kind of task
    cases t with
    | pump => exact h.pumps hget hcalm accepts
    | hand f device => exact h.hands hget accepts
    | refused f => exact h.refuses hget accepts
    | sent f ok => exact h.sends hget accepts
    | failed =>
      exact inv_clear ⟨hcalm.1, (carries_erase hget rfl).trans hcalm.2⟩
        (h.promises.congr rfl rfl rfl (List.Subset.refl _)) (h.handing.congr rfl rfl)
    | clear =>
      exact inv_clear ⟨hcalm.1, (carries_erase hget rfl).trans hcalm.2⟩
        (h.promises.congr rfl rfl rfl (List.Subset.refl _)) (h.handing.congr rfl rfl)
    | gone device =>
      have hleft : s.Clears (.gone device) → s.Clears (.left device) := fun hclears => hclears
      exact h.goesOn hget rfl rfl (by simp) hleft
    | left device =>
      have hclear : s.Clears (.left device) → s.Clears .clear := fun _ => trivial
      simp only [act]
      split
      · exact h.goesOn hget rfl rfl (by simp) hclear
      · rename_i hother
        exact h.passes hget rfl (by simp) fun _ hclears => hother hclears
    | retarget next =>
      have hclear : s.Clears (.retarget next) → s.Clears .clear := fun hclears => hclears.elim
      simp only [act]
      split
      · exact h.goesOn hget rfl rfl (by simp) hclear
      · exact h.passes hget rfl (by simp) fun _ hclears => hclears
  · exact h

theorem Inv.step (h : s.Inv) {e : Event} (hcalm : s.Calm e) : (s.step e).Inv := by
  cases e with
  | enqueue size device asked => exact h.enqueues size device asked
  | run i accepts => exact h.run hcalm
  | acknowledged j ok => exact h.acknowledged j ok
  | connects device =>
    exact h.others rfl (fun _ _ _ hmem _ => hmem) fun _ hclears => hclears
  | drops device =>
    refine h.unlinks rfl (fun x hx => ?_) fun hnil => by rw [hnil]; rfl
    rw [hx]
    by_cases hdevice : x.2 = device
    · exact .inr ⟨by simp [hdevice], fun hd => by rw [hdevice] at hd; exact hd⟩
    · exact .inl (by simp [hdevice])
  | setTarget next => exact h.begins rfl
  | starts => exact h.others rfl (fun _ _ _ hmem _ => hmem) fun _ hclears => hclears
  | stops => exact h.unlinks rfl (fun x _ => .inr ⟨rfl, fun _ => trivial⟩) fun _ => rfl

/-- A queue nothing has come to yet. -/
theorem inv_first (hbusy : s.busy = false) (hqueue : s.queue = []) (hfly : s.inFlight = false)
    (hpromise : s.promise = none) (hdevice : s.device = none) (hout : s.outstanding = [])
    (htasks : s.tasks = []) (hmessages : s.messages = []) (hhanded : s.handed = [])
    (hsettled : s.settled = []) : s.Inv := by
  refine .of_free hbusy ⟨hqueue, hfly, hpromise, hdevice, hout, by rw [htasks]; rfl⟩ ?_ ?_
  · constructor
    · simp [hsettled]
    · simp [hsettled]
    · simp [hsettled]
    · simp [hpromise]
    · simp [hmessages]
  · constructor
    · simp [hhanded]
    · simp [hhanded]
    · simp [hhanded]
    · simp [hhanded]

/-- While every clear runs with nothing in the air, and no pump between a refusal and its clear,
replies go out whole and one at a time. -/
theorem replies_go_out_whole (history : List Event) (h : AllAlong Queue.step Calm {} history) :
    (history.foldl Queue.step {}).Orderly := by
  have hfirst : Inv {} := inv_first rfl rfl rfl rfl rfl rfl rfl rfl rfl rfl
  exact (h.keeps hfirst fun s e hs he => hs.step he).orderly

theorem replies_go_out_whole_two :
    let history : List Event := [.connects "A", .enqueue 2 "A" true, .run 0 true, .run 0 true,
      .acknowledged 0 true, .enqueue 1 "A" true, .run 0 true, .run 0 true, .run 0 true,
      .acknowledged 0 true, .run 0 true, .run 0 true]
    AllAlong Queue.step Calm {} history ∧ (history.foldl Queue.step {}).Orderly ∧
      (history.foldl Queue.step {}).settled = [(1, false), (0, true)] :=
  ⟨by decide +kernel, replies_go_out_whole _ (by decide +kernel), by decide +kernel⟩

/-- A new target clears the queue while a fragment is in the air.  With the old one set back, the
next message's first fragment is handed over beside it, and its acknowledgement is taken for that
one's. -/
theorem late_ack_resolves_the_next :
    ¬ ∀ history : List Event, (history.foldl Queue.step {}).Orderly := by
  intro h
  have horderly := h [.setTarget (some "A"), .run 0 true, .connects "A", .enqueue 1 "A" true,
    .run 0 true, .run 0 true, .setTarget (some "B"), .run 0 true, .run 0 true,
    .setTarget (some "A"), .run 0 true, .enqueue 1 "A" true, .run 0 true, .run 0 true,
    .acknowledged 0 true, .run 0 true, .run 0 true]
  generalize hs : List.foldl Queue.step {} _ = s at horderly
  have hsettled : s.settled = [(0, false), (1, true)] := by
    rw [← hs]
    decide +kernel
  have hmessages : s.messages = [⟨1, "A", true⟩, ⟨1, "A", true⟩] := by
    rw [← hs]
    decide +kernel
  have hacked : s.acked = [(⟨0, 0⟩, "A")] := by
    rw [← hs]
    decide +kernel
  obtain ⟨msg, hmsg, hall⟩ := horderly.answered (1, true) (by simp [hsettled]) rfl
  rw [hmessages] at hmsg
  obtain rfl := Option.some.inj hmsg
  have hmem := hall 0 Nat.one_pos
  rw [hacked] at hmem
  simp at hmem

end Queue

end OkRn.Gatt.Notify
