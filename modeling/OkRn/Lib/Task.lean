/-
OkRn/Lib/Task.lean

Asynchronous functions over a shared state, interleaved at their awaits.

A `Task` runs atomically from one await to the next: `act` changes the shared
state and goes on from what it saw there, `ask` waits for an answer from outside.
A `Pool` interleaves any number of tasks with changes from outside in any order.

`Task.Ok` is the rely-guarantee rule, over a state with a preorder: a later state
is a larger one.  A task is started in some state; by the time it acts, others
have moved to a later state that keeps the invariant, and it must do so too.
`Ok.bind` composes two tasks, and `Pool.Runs.sound` says that a pool of such tasks
keeps the invariant whatever the interleaving.

`Alone` runs a task with nothing else under way; it is composed of the parts'
(`Alone.bind`), so what a call does when it is the only one is read off its source.
-/
import Mathlib.Order.Basic

namespace OkRn

/-- An asynchronous function: what it does until it waits next. -/
inductive Task (ι σ α : Type) : Type
  | ret (a : α)
  | fail
  | act (f : σ → σ) (k : σ → Task ι σ α)
  | ask (k : ι → Task ι σ α)

namespace Task

variable {ι σ α β : Type}

/-- One task, and then another that gets what it returns. -/
def bind : Task ι σ α → (α → Task ι σ β) → Task ι σ β
  | ret a, g => g a
  | fail, _ => fail
  | act f k, g => act f fun s => (k s).bind g
  | ask k, g => ask fun a => (k a).bind g

/-- A failure is caught. -/
def orElse : Task ι σ α → Task ι σ α → Task ι σ α
  | ret a, _ => ret a
  | fail, h => h
  | act f k, h => act f fun s => (k s).orElse h
  | ask k, h => ask fun a => (k a).orElse h

/-- The next answer. -/
def answer : Task ι σ ι := ask ret

/-- Reads the shared state. -/
def read (f : σ → α) : Task ι σ α := act id fun s => ret (f s)

/-- Changes the shared state. -/
def modify (f : σ → σ) : Task ι σ Unit := act f fun _ => ret ()

/-- A synchronous block: reads and changes the shared state in one go. -/
def sync (f : σ → α × σ) : Task ι σ α := act (fun s => (f s).2) fun s => ret (f s).1

/-- The task has returned or failed. -/
def Settled : Task ι σ α → Prop
  | ret _ => True
  | fail => True
  | act _ _ => False
  | ask _ => False

/-- The task may return `a`, whatever others do and whatever it is answered. -/
def Returns (a : α) : Task ι σ α → Prop
  | ret b => b = a
  | fail => False
  | act _ k => ∃ s, Returns a (k s)
  | ask k => ∃ x, Returns a (k x)

theorem bind_bind {γ : Type} (t : Task ι σ α) (f : α → Task ι σ β) (g : β → Task ι σ γ) :
    (t.bind f).bind g = t.bind fun a => (f a).bind g := by
  induction t with
  | ret a => rfl
  | fail => rfl
  | act f' k ih => simp only [bind, ih]
  | ask k ih => simp only [bind, ih]

theorem bind_ret (t : Task ι σ α) : t.bind ret = t := by
  induction t with
  | ret a => rfl
  | fail => rfl
  | act f k ih => simp only [bind, ih]
  | ask k ih => simp only [bind, ih]

/-- What two tasks in a row return. -/
theorem returns_bind {t : Task ι σ α} {g : α → Task ι σ β} {b : β} :
    (t.bind g).Returns b ↔ ∃ a, t.Returns a ∧ (g a).Returns b := by
  induction t with
  | ret a => exact ⟨fun h => ⟨a, rfl, h⟩, fun ⟨_, rfl, h⟩ => h⟩
  | fail => exact ⟨False.elim, fun ⟨_, h, _⟩ => h⟩
  | act f k ih =>
    constructor
    · rintro ⟨s, h⟩
      obtain ⟨a, ha, hb⟩ := (ih s).mp h
      exact ⟨a, ⟨s, ha⟩, hb⟩
    · rintro ⟨a, ⟨s, ha⟩, hb⟩
      exact ⟨s, (ih s).mpr ⟨a, ha, hb⟩⟩
  | ask k ih =>
    constructor
    · rintro ⟨x, h⟩
      obtain ⟨a, ha, hb⟩ := (ih x).mp h
      exact ⟨a, ⟨x, ha⟩, hb⟩
    · rintro ⟨a, ⟨x, ha⟩, hb⟩
      exact ⟨x, (ih x).mpr ⟨a, ha, hb⟩⟩

/-! ### Frames -/

section

variable {t : Task ι σ α} {s s' : σ}

/-- Every step of the task is one of `P`, whatever it sees. -/
def Frames (P : σ → σ → Prop) : Task ι σ α → Prop
  | ret _ => True
  | fail => True
  | act f k => ∀ s, P s (f s) ∧ (k s).Frames P
  | ask k => ∀ a, (k a).Frames P

variable {P : σ → σ → Prop}

/-- Two tasks that keep within `P`. -/
theorem Frames.bind {g : α → Task ι σ β} (h : t.Frames P) (hg : ∀ a, t.Returns a → (g a).Frames P) :
    (t.bind g).Frames P := by
  induction t with
  | ret a => exact hg a rfl
  | fail => trivial
  | act f k ih => exact fun s => ⟨(h s).1, ih s (h s).2 fun a ha => hg a ⟨s, ha⟩⟩
  | ask k ih => exact fun x => ih x (h x) fun a ha => hg a ⟨x, ha⟩

/-- A task and its handler that do. -/
theorem Frames.orElse {h' : Task ι σ α} (h : t.Frames P) (hh : h'.Frames P) :
    (t.orElse h').Frames P := by
  induction t with
  | ret a => trivial
  | fail => exact hh
  | act f k ih => exact fun s => ⟨(h s).1, ih s (h s).2⟩
  | ask k ih => exact fun x => ih x (h x)

theorem frames_ret (a : α) : (ret a : Task ι σ α).Frames P := trivial

theorem frames_sync {f : σ → α × σ} (h : ∀ s, P s (f s).2) : (sync f : Task ι σ α).Frames P :=
  fun s => ⟨h s, trivial⟩

theorem frames_modify {f : σ → σ} (h : ∀ s, P s (f s)) : (modify f : Task ι σ Unit).Frames P :=
  fun s => ⟨h s, trivial⟩

/-- The task, with others' moves between its steps. -/
inductive Among (others : σ → σ → Prop) (t : Task ι σ α) (s : σ) : Task ι σ α → σ → Prop
  | refl : Among others t s t s
  | act {f : σ → σ} {k : σ → Task ι σ α} {u : σ} (h : Among others t s (.act f k) u) :
      Among others t s (k u) (f u)
  | ask {k : ι → Task ι σ α} {u : σ} (h : Among others t s (.ask k) u) (a : ι) :
      Among others t s (k a) u
  | others {t' : Task ι σ α} {u v : σ} (h : Among others t s t' u) (hv : others u v) :
      Among others t s t' v

variable {others : σ → σ → Prop} {t' : Task ι σ α}

/-- What the task's steps and the others' moves keep, the run keeps. -/
theorem Among.keeps {I : σ → Prop} (h : Among others t s t' s') (ht : t.Frames P)
    (hown : ∀ s s', P s s' → I s → I s') (hothers : ∀ s s', others s s' → I s → I s') (hs : I s) :
    I s' ∧ t'.Frames P := by
  induction h with
  | refl => exact ⟨hs, ht⟩
  | act _ ih => exact ⟨hown _ _ (ih.2 _).1 ih.1, (ih.2 _).2⟩
  | ask _ a ih => exact ⟨ih.1, ih.2 a⟩
  | others _ hv ih => exact ⟨hothers _ _ hv ih.1, ih.2⟩

/-- What the task returns among others it may return. -/
theorem Among.returns (h : Among others t s t' s') {a : α} (ha : t'.Returns a) : t.Returns a := by
  induction h with
  | refl => exact ha
  | act _ ih => exact ih ⟨_, ha⟩
  | ask _ x ih => exact ih ⟨x, ha⟩
  | others _ _ ih => exact ih ha

end

/-! ### Rely and guarantee -/

variable [Preorder σ]

/-- From any later state that keeps `Inv`, the task goes on to later states that keep it, and what
it returns satisfies `Q`. -/
def Ok (Inv : σ → Prop) (Q : α → σ → Prop) : Task ι σ α → σ → Prop
  | ret a, s => ∀ s', s ≤ s' → Inv s' → Q a s'
  | fail, _ => True
  | act f k, s => ∀ s', s ≤ s' → Inv s' → Inv (f s') ∧ s' ≤ f s' ∧ Ok Inv Q (k s') (f s')
  | ask k, s => ∀ a, Ok Inv Q (k a) s

variable {Inv : σ → Prop} {Q : α → σ → Prop} {Q' : β → σ → Prop} {t : Task ι σ α} {s s' : σ}

theorem Ok.mono {Q' : α → σ → Prop} (h : Ok Inv Q t s) (hQ : ∀ a s, Q a s → Q' a s) :
    Ok Inv Q' t s := by
  induction t generalizing s with
  | ret a => exact fun s' hle hinv => hQ a s' (h s' hle hinv)
  | fail => trivial
  | act f k ih =>
    intro s' hle hinv
    obtain ⟨hinv', hle', hk⟩ := h s' hle hinv
    exact ⟨hinv', hle', ih s' hk⟩
  | ask k ih => exact fun a => ih a (h a)

/-- A task that is fine here is fine wherever others move the state to. -/
theorem Ok.later (h : Ok Inv Q t s) (hle : s ≤ s') : Ok Inv Q t s' := by
  induction t generalizing s s' with
  | ret a => exact fun s'' hle' hinv => h s'' (hle.trans hle') hinv
  | fail => trivial
  | act f k ih => exact fun s'' hle' hinv => h s'' (hle.trans hle') hinv
  | ask k ih => exact fun a => ih a (h a) hle

/-- A task that is fine from every later state. -/
theorem Ok.of_forall (h : ∀ s', s ≤ s' → Inv s' → Ok Inv Q t s') : Ok Inv Q t s := by
  induction t generalizing s with
  | ret a => exact fun s' hle hinv => h s' hle hinv s' le_rfl hinv
  | fail => trivial
  | act f k ih => exact fun s' hle hinv => h s' hle hinv s' le_rfl hinv
  | ask k ih => exact fun a => ih a fun s' hle hinv => h s' hle hinv a

/-- A task, and then another that may use what the first returned. -/
theorem Ok.bind {g : α → Task ι σ β} (h : Ok Inv Q t s)
    (hg : ∀ a s', s ≤ s' → Inv s' → Q a s' → Ok Inv Q' (g a) s') : Ok Inv Q' (t.bind g) s := by
  induction t generalizing s with
  | ret a => exact Ok.of_forall fun s' hle hinv => hg a s' hle hinv (h s' hle hinv)
  | fail => trivial
  | act f k ih =>
    intro s' hle hinv
    obtain ⟨hinv', hle', hk⟩ := h s' hle hinv
    refine ⟨hinv', hle', ih s' hk fun a s'' hle'' => ?_⟩
    exact hg a s'' (hle.trans (hle'.trans hle''))
  | ask k ih => exact fun a => ih a (h a) hg

theorem Ok.orElse {h' : Task ι σ α} (h : Ok Inv Q t s) (hh : Ok Inv Q h' s) :
    Ok Inv Q (t.orElse h') s := by
  induction t generalizing s with
  | ret a => exact h
  | fail => exact hh
  | act f k ih =>
    intro s' hle hinv
    obtain ⟨hinv', hle', hk⟩ := h s' hle hinv
    exact ⟨hinv', hle', ih s' hk (hh.later (hle.trans hle'))⟩
  | ask k ih => exact fun a => ih a (h a) hh

/-! ### Tasks that keep an invariant -/

/-- The task keeps the invariant, wherever it is started. -/
def Keeps (Inv : σ → Prop) (t : Task ι σ α) : Prop := ∀ s, t.Ok Inv (fun _ _ => True) s

/-- A task that is over keeps it. -/
theorem keeps_ret (a : α) : (ret a : Task ι σ α).Keeps Inv := fun _ _ _ _ => trivial

theorem keeps_fail : (fail : Task ι σ α).Keeps Inv := fun _ => trivial

theorem keeps_ask {k : ι → Task ι σ α} (h : ∀ a, (k a).Keeps Inv) : (ask k).Keeps Inv :=
  fun s a => h a s

theorem keeps_sync {f : σ → α × σ} (h : ∀ s, Inv s → Inv (f s).2 ∧ s ≤ (f s).2) :
    (sync f : Task ι σ α).Keeps Inv := fun _ s' _ hinv =>
  ⟨(h s' hinv).1, (h s' hinv).2, fun _ _ _ => trivial⟩

theorem keeps_modify {f : σ → σ} (h : ∀ s, Inv s → Inv (f s) ∧ s ≤ f s) :
    (modify f : Task ι σ Unit).Keeps Inv := fun _ s' _ hinv =>
  ⟨(h s' hinv).1, (h s' hinv).2, fun _ _ _ => trivial⟩

theorem keeps_read (f : σ → α) : (read f : Task ι σ α).Keeps Inv := fun _ _ _ hinv =>
  ⟨hinv, le_rfl, fun _ _ _ => trivial⟩

/-- Two tasks that keep the invariant. -/
theorem Keeps.bind {g : α → Task ι σ β} (h : t.Keeps Inv) (hg : ∀ a, (g a).Keeps Inv) :
    (t.bind g).Keeps Inv := fun s => (h s).bind fun a s' _ _ _ => hg a s'

/-- A task and its handler that keep it. -/
theorem Keeps.orElse {h' : Task ι σ α} (h : t.Keeps Inv) (hh : h'.Keeps Inv) :
    (t.orElse h').Keeps Inv := fun s => (h s).orElse (hh s)

/-- One step of a task; a finished task does nothing. -/
def advance (a : ι) (s : σ) : Task ι σ α → σ × Task ι σ α
  | act f k => (f s, k s)
  | ask k => (s, k a)
  | t => (s, t)

/-- The state after a task that runs alone, with these answers. -/
def solo : Task ι σ α → List ι → σ → σ
  | ret _, _, s => s
  | fail, _, s => s
  | act f k, as, s => solo (k s) as (f s)
  | ask _, [], s => s
  | ask k, a :: as, s => solo (k a) as s

/-- The task over a larger state, with other answers. -/
def embed {κ τ : Type} (answer : κ → ι) (get : τ → σ) (set : σ → τ → τ) :
    Task ι σ α → Task κ τ α
  | ret a => ret a
  | fail => fail
  | act f k => act (fun x => set (f (get x)) x) fun x => (k (get x)).embed answer get set
  | ask k => ask fun a => (k (answer a)).embed answer get set

end Task

/-! ### A task that runs alone -/

namespace Task

variable {ι σ α β : Type} {t : Task ι σ α} {g : α → Task ι σ β} {a : α} {b : β} {s s' s'' : σ}

/-- Alone, and with the right answers, the task returns `a` and leaves `s'`; what comes after it
goes on from there. -/
def Alone (t : Task ι σ α) (s : σ) (a : α) (s' : σ) : Prop :=
  ∃ as, ∀ {γ : Type} (g : α → Task ι σ γ) (rest : List ι),
    (t.bind g).solo (as ++ rest) s = (g a).solo rest s'

/-- Alone, and with the right answers, the task leaves `s'`, whether it returns or throws. -/
def Ends (t : Task ι σ α) (s s' : σ) : Prop := ∃ as, t.solo as s = s'

/-- A task that is over leaves the state as it is. -/
theorem alone_ret : (ret a : Task ι σ α).Alone s a s := ⟨[], fun _ _ => rfl⟩

theorem Alone.bind (h : t.Alone s a s') (hg : (g a).Alone s' b s'') : (t.bind g).Alone s b s'' := by
  obtain ⟨as, has⟩ := h
  obtain ⟨bs, hbs⟩ := hg
  refine ⟨as ++ bs, fun k rest => ?_⟩
  rw [bind_bind, List.append_assoc, has, hbs]

/-- After a task that returns, the next one ends the whole. -/
theorem Alone.ends (h : t.Alone s a s') (hg : (g a).Ends s' s'') : (t.bind g).Ends s s'' := by
  obtain ⟨as, has⟩ := h
  obtain ⟨bs, hbs⟩ := hg
  exact ⟨as ++ bs, (has g bs).trans hbs⟩

/-- A task that is over ends where it is. -/
theorem ends_ret : (ret a : Task ι σ α).Ends s s := ⟨[], rfl⟩

theorem ends_fail : (fail : Task ι σ α).Ends s s := ⟨[], rfl⟩

end Task

/-! ### Pools -/

/-- Tasks over one shared state. -/
structure Pool (ι σ : Type) where
  shared : σ
  tasks : List (Task ι σ Unit)

namespace Pool

variable {ι σ : Type}

/-- Task `i` makes one step, with this answer. -/
def turn (i : Nat) (a : ι) (w : Pool ι σ) : Pool ι σ :=
  match w.tasks[i]? with
  | none => w
  | some t => ⟨(t.advance a w.shared).1, w.tasks.set i (t.advance a w.shared).2⟩

/-- A schedule: whose turn it is, and with what answer. -/
def play (turns : List (Nat × ι)) (w : Pool ι σ) : Pool ι σ :=
  turns.foldl (fun w x => w.turn x.1 x.2) w

/-- What a pool can do: a task of the kind `calls` is started, the state is changed from outside
by `env`, or some task makes a step. -/
inductive Step (calls : Task ι σ Unit → Prop) (env : σ → σ → Prop) (w : Pool ι σ) :
    Pool ι σ → Prop
  | call (t : Task ι σ Unit) (h : calls t) : Step calls env w ⟨w.shared, w.tasks ++ [t]⟩
  | outside {s : σ} (h : env w.shared s) : Step calls env w ⟨s, w.tasks⟩
  | turn (i : Nat) (a : ι) : Step calls env w (w.turn i a)

/-- The pools reached from `w`. -/
inductive Runs (calls : Task ι σ Unit → Prop) (env : σ → σ → Prop) (w : Pool ι σ) :
    Pool ι σ → Prop
  | refl : Runs calls env w w
  | tail {v v' : Pool ι σ} : Runs calls env w v → Step calls env v v' → Runs calls env w v'

variable {calls : Task ι σ Unit → Prop} {env : σ → σ → Prop} {w v : Pool ι σ}

theorem runs_play (turns : List (Nat × ι)) (h : Runs calls env w v) :
    Runs calls env w (v.play turns) := by
  induction turns generalizing v with
  | nil => exact h
  | cons x turns ih => exact ih (h.tail (.turn x.1 x.2))

theorem turn_eq {t : Task ι σ Unit} {i : Nat} (a : ι) (ht : v.tasks[i]? = some t) :
    v.turn i a = ⟨(t.advance a v.shared).1, v.tasks.set i (t.advance a v.shared).2⟩ := by
  simp only [turn, ht]

/-- A task of the pool goes on alone to its end. -/
theorem runs_alone [Inhabited ι] {t : Task ι σ Unit} {i : Nat} (as : List ι)
    (ht : v.tasks[i]? = some t) (h : Runs calls env w v) :
    ∃ u, Runs calls env w u ∧ u.shared = t.solo as v.shared := by
  have hlen : i < v.tasks.length := (List.getElem?_eq_some_iff.mp ht).1
  induction t generalizing v as with
  | ret _ => exact ⟨v, h, rfl⟩
  | fail => exact ⟨v, h, rfl⟩
  | act f k ih =>
    have hturn := h.tail (.turn i default)
    rw [turn_eq default ht] at hturn
    exact ih (v := ⟨f v.shared, v.tasks.set i (k v.shared)⟩) v.shared as
      (List.getElem?_set_self hlen) hturn (by simpa using hlen)
  | ask k ih =>
    rcases as with - | ⟨a, as⟩
    · exact ⟨v, h, rfl⟩
    · have hturn := h.tail (.turn i a)
      rw [turn_eq a ht] at hturn
      exact ih (v := ⟨v.shared, v.tasks.set i (k a)⟩) a as (List.getElem?_set_self hlen) hturn
        (by simpa using hlen)

/-- A call that runs alone to its end. -/
theorem runs_solo [Inhabited ι] {t : Task ι σ Unit} (as : List ι) (ht : calls t) (h : Runs calls env w v) :
    ∃ u, Runs calls env w u ∧ u.shared = t.solo as v.shared := by
  have hlast : (v.tasks ++ [t])[v.tasks.length]? = some t := by simp
  exact runs_alone (v := ⟨v.shared, v.tasks ++ [t]⟩) as hlast (h.tail (.call t ht))

variable [Preorder σ] {Inv : σ → Prop}

/-- The invariant holds, and every task keeps it. -/
structure Sound (Inv : σ → Prop) (w : Pool ι σ) : Prop where
  inv : Inv w.shared
  tasks : ∀ t ∈ w.tasks, t.Ok Inv (fun _ _ => True) w.shared

/-- A turn keeps the pool sound, and the state grows. -/
theorem Sound.turn (h : Sound Inv w) (i : Nat) (a : ι) :
    Sound Inv (w.turn i a) ∧ w.shared ≤ (w.turn i a).shared := by
  unfold Pool.turn
  rcases ht : w.tasks[i]? with - | t
  · exact ⟨h, le_rfl⟩
  · have hok := h.tasks t (List.mem_of_getElem? ht)
    have hset : ∀ {s : σ} {t' : Task ι σ Unit}, w.shared ≤ s → t'.Ok Inv (fun _ _ => True) s →
        ∀ u ∈ w.tasks.set i t', u.Ok Inv (fun _ _ => True) s := by
      intro s t' hle ht' u hu
      rcases List.mem_or_eq_of_mem_set hu with hu | rfl
      · exact (h.tasks u hu).later hle
      · exact ht'
    cases t with
    | ret _ => exact ⟨⟨h.inv, hset le_rfl hok⟩, le_rfl⟩
    | fail => exact ⟨⟨h.inv, hset le_rfl hok⟩, le_rfl⟩
    | act f k =>
      obtain ⟨hinv, hle, hk⟩ := hok w.shared le_rfl h.inv
      exact ⟨⟨hinv, hset hle hk⟩, hle⟩
    | ask k => exact ⟨⟨h.inv, hset le_rfl (hok a)⟩, le_rfl⟩

/-- Whatever the interleaving, the invariant is kept. -/
theorem Runs.sound (h : Runs calls env w v)
    (hcalls : ∀ t, calls t → t.Keeps Inv)
    (henv : ∀ s s', env s s' → Inv s → Inv s' ∧ s ≤ s') (hw : Sound Inv w) :
    Sound Inv v ∧ w.shared ≤ v.shared := by
  induction h with
  | refl => exact ⟨hw, le_rfl⟩
  | tail _ hstep ih =>
    obtain ⟨hv, hle⟩ := ih
    cases hstep with
    | call t ht =>
      refine ⟨⟨hv.inv, fun u hu => ?_⟩, hle⟩
      rcases List.mem_append.mp hu with hu | hu
      · exact hv.tasks u hu
      · rw [List.mem_singleton.mp hu]
        exact hcalls t ht _
    | outside hs =>
      obtain ⟨hinv, hle'⟩ := henv _ _ hs hv.inv
      exact ⟨⟨hinv, fun u hu => (hv.tasks u hu).later hle'⟩, hle.trans hle'⟩
    | turn i a =>
      obtain ⟨hturn, hle'⟩ := hv.turn i a
      exact ⟨hturn, hle.trans hle'⟩

end Pool

end OkRn
