/-
OkRn/Lib/Queue.lean

Calls chained on one promise.

Each call goes on only when every call made before it has returned or failed, so
a run is one call after another: `Queued.inTurn`.  `InTurn` splits the calls into
those that ended, the one under way, and those that wait as they were made.
`Post` is what a task that runs alone ends in.
-/
import OkRn.Lib.Task

namespace OkRn

variable {ι σ α β : Type}

namespace Task

/-- The task runs alone. -/
abbrev ByItself (t : Task ι σ α) (s : σ) (t' : Task ι σ α) (s' : σ) : Prop :=
  Among (fun _ _ => False) t s t' s'

/-- What a task that runs alone ends in: `none` is a failure. -/
def Post (Q : Option α → σ → Prop) : Task ι σ α → σ → Prop
  | ret a, s => Q (some a) s
  | fail, s => Q none s
  | act f k, s => (k s).Post Q (f s)
  | ask k, s => ∀ a, (k a).Post Q s

variable {Q : Option α → σ → Prop} {Q' : Option β → σ → Prop} {t t' : Task ι σ α} {s s' : σ}

theorem Post.mono {R : Option α → σ → Prop} (h : t.Post Q s) (hQ : ∀ r s, Q r s → R r s) :
    t.Post R s := by
  induction t generalizing s with
  | ret a => exact hQ _ _ h
  | fail => exact hQ _ _ h
  | act f k ih => exact ih s h
  | ask k ih => exact fun a => ih a (h a)

theorem Post.bind {g : α → Task ι σ β} (h : t.Post Q s)
    (hsome : ∀ a s', Q (some a) s' → (g a).Post Q' s') (hnone : ∀ s', Q none s' → Q' none s') :
    (t.bind g).Post Q' s := by
  induction t generalizing s with
  | ret a => exact hsome a s h
  | fail => exact hnone s h
  | act f k ih => exact ih s h
  | ask k ih => exact fun a => ih a (h a)

/-- Wherever it is by now, it ends so. -/
theorem Post.along (h : t.Post Q s) (hrun : t.ByItself s t' s') : t'.Post Q s' := by
  induction hrun with
  | refl => exact h
  | act _ ih => exact ih
  | ask _ a ih => exact ih a
  | others _ hv _ => exact hv.elim

/-- What the steps of a task keep, it ends in; and it ends with what it may return. -/
theorem Frames.post {P : σ → σ → Prop} {I : σ → Prop} (h : t.Frames P)
    (hI : ∀ s s', P s s' → I s → I s') (hs : I s) :
    t.Post (fun r s' => I s' ∧ ∀ a, r = some a → t.Returns a) s := by
  induction t generalizing s with
  | ret a => exact ⟨hs, fun b hb => (Option.some.inj hb)⟩
  | fail => exact ⟨hs, fun b hb => by cases hb⟩
  | act f k ih =>
    refine (ih s (h s).2 (hI _ _ (h s).1 hs)).mono fun r s' hr => ⟨hr.1, fun a ha => ?_⟩
    exact ⟨s, hr.2 a ha⟩
  | ask k ih =>
    intro x
    refine (ih x (h x) hs).mono fun r s' hr => ⟨hr.1, fun a ha => ?_⟩
    exact ⟨x, hr.2 a ha⟩

/-- A task that is over does not go on. -/
theorem settled_advance (h : t.Settled) (a : ι) (s : σ) : t.advance a s = (s, t) := by
  cases t with
  | ret _ => rfl
  | fail => rfl
  | act f k => exact h.elim
  | ask k => exact h.elim

theorem byItself_advance (h : t.ByItself s t' s') (a : ι) :
    t.ByItself s (t'.advance a s').2 (t'.advance a s').1 := by
  cases t' with
  | ret _ => exact h
  | fail => exact h
  | act f k => exact h.act
  | ask k => exact h.ask a

/-- What is left of a task that runs alone, with these answers. -/
def soloEnd : Task ι σ α → List ι → σ → Task ι σ α
  | ret a, _, _ => ret a
  | fail, _, _ => fail
  | act f k, as, s => soloEnd (k s) as (f s)
  | ask k, [], _ => ask k
  | ask k, a :: as, s => soloEnd (k a) as s

/-- The task has returned. -/
def isReturn : Task ι σ α → Bool
  | ret _ => true
  | _ => false

theorem eq_ret_of_isReturn {t : Task ι σ Unit} (h : t.isReturn = true) : t = .ret () := by
  cases t with
  | ret _ => rfl
  | _ => cases h

end Task

/-! ### The queue -/

/-- The calls made, in order, and the pool they make: a call goes on only when those before it have
ended. -/
inductive Queued (calls : Task ι σ Unit → Prop) (s₀ : σ) :
    List (Task ι σ Unit) → Pool ι σ → Prop
  | start : Queued calls s₀ [] ⟨s₀, []⟩
  | call {cs : List (Task ι σ Unit)} {w : Pool ι σ} (h : Queued calls s₀ cs w)
      (c : Task ι σ Unit) (hc : calls c) :
      Queued calls s₀ (cs ++ [c]) ⟨w.shared, w.tasks ++ [c]⟩
  | turn {cs : List (Task ι σ Unit)} {w : Pool ι σ} (h : Queued calls s₀ cs w) (i : Nat) (a : ι)
      (before : ∀ t ∈ w.tasks.take i, t.Settled) : Queued calls s₀ cs (w.turn i a)

/-- The first calls ended one after another, one may be under way, and the others wait. -/
inductive InTurn : List (Task ι σ Unit) → List (Task ι σ Unit) → σ → σ → Prop
  | waiting (cs : List (Task ι σ Unit)) (s : σ) : InTurn cs cs s s
  | ended {c t : Task ι σ Unit} {cs ts : List (Task ι σ Unit)} {s u v : σ}
      (run : c.ByItself s t u) (ended : t.Settled) (rest : InTurn cs ts u v) :
      InTurn (c :: cs) (t :: ts) s v
  | current {c t : Task ι σ Unit} {s u : σ} (run : c.ByItself s t u)
      (cs : List (Task ι σ Unit)) : InTurn (c :: cs) (t :: cs) s u

variable {cs ts : List (Task ι σ Unit)} {s u : σ} {calls : Task ι σ Unit → Prop} {w : Pool ι σ}

theorem InTurn.call (h : InTurn cs ts s u) (c : Task ι σ Unit) :
    InTurn (cs ++ [c]) (ts ++ [c]) s u := by
  induction h with
  | waiting cs s => exact .waiting _ s
  | ended run hended _ ih => exact .ended run hended ih
  | current run cs => exact .current run _

/-- The first of those that wait begins. -/
theorem InTurn.advance_waiting {i : Nat} {t : Task ι σ Unit} (a : ι) (ht : cs[i]? = some t)
    (hbefore : ∀ t ∈ cs.take i, t.Settled) :
    InTurn cs (cs.set i (t.advance a s).2) s (t.advance a s).1 := by
  induction cs generalizing i with
  | nil => cases ht
  | cons c cs ih =>
    cases i with
    | zero =>
      obtain rfl := Option.some.inj ht
      exact .current (Task.byItself_advance .refl a) cs
    | succ i =>
      exact .ended .refl (hbefore c List.mem_cons_self)
        (ih ht fun t h => hbefore t (List.mem_cons_of_mem _ h))

theorem InTurn.advance {i : Nat} {t : Task ι σ Unit} (h : InTurn cs ts s u) (a : ι)
    (ht : ts[i]? = some t) (hbefore : ∀ t ∈ ts.take i, t.Settled) :
    InTurn cs (ts.set i (t.advance a u).2) s (t.advance a u).1 := by
  induction h generalizing i with
  | waiting cs s => exact InTurn.advance_waiting a ht hbefore
  | ended run hended rest ih =>
    cases i with
    | zero =>
      obtain rfl := Option.some.inj ht
      rw [Task.settled_advance hended]
      exact .ended run hended rest
    | succ i =>
      exact .ended run hended (ih ht fun t h => hbefore t (List.mem_cons_of_mem _ h))
  | current run cs =>
    cases i with
    | zero =>
      obtain rfl := Option.some.inj ht
      exact .current (Task.byItself_advance run a) cs
    | succ i =>
      exact .ended run (hbefore _ List.mem_cons_self)
        (InTurn.advance_waiting a ht fun t h => hbefore t (List.mem_cons_of_mem _ h))

/-- A queue runs its calls one after another. -/
theorem Queued.inTurn {s₀ : σ} (h : Queued calls s₀ cs w) : InTurn cs w.tasks s₀ w.shared := by
  induction h with
  | start => exact .waiting [] s₀
  | call _ c _ ih => exact ih.call c
  | @turn cs w _ i a hbefore ih =>
    rcases ht : w.tasks[i]? with - | t
    · rw [show w.turn i a = w by simp only [Pool.turn, ht]]
      exact ih
    · rw [Pool.turn_eq a ht]
      exact ih.advance a ht hbefore

/-- Every task was made by a call. -/
theorem Queued.made {s₀ : σ} (h : Queued calls s₀ cs w) : ∀ c ∈ cs, calls c := by
  induction h with
  | start => exact fun c hc => by cases hc
  | call _ c hc ih =>
    intro c' hc'
    rcases List.mem_append.mp hc' with hmem | hmem
    · exact ih c' hmem
    · rw [List.mem_singleton.mp hmem]
      exact hc
  | turn _ _ _ _ ih => exact ih

theorem Queued.length {s₀ : σ} (h : Queued calls s₀ cs w) : w.tasks.length = cs.length := by
  induction h with
  | start => rfl
  | call _ c _ ih => simp [ih]
  | @turn cs w _ i a _ ih =>
    rcases ht : w.tasks[i]? with - | t
    · rw [show w.turn i a = w by simp only [Pool.turn, ht]]
      exact ih
    · rw [Pool.turn_eq a ht]
      simpa using ih

/-- The last call goes on to its end. -/
theorem Queued.alone [Inhabited ι] {s₀ s : σ} {t : Task ι σ Unit} (as : List ι)
    (hts : ∀ t ∈ ts, t.Settled) (h : Queued calls s₀ cs ⟨s, ts ++ [t]⟩) :
    Queued calls s₀ cs ⟨t.solo as s, ts ++ [t.soloEnd as s]⟩ := by
  have hlast : ∀ t : Task ι σ Unit, (ts ++ [t])[ts.length]? = some t := fun t => by simp
  have hset : ∀ t t' : Task ι σ Unit, (ts ++ [t]).set ts.length t' = ts ++ [t'] :=
    fun t t' => by simp
  have hbefore : ∀ t : Task ι σ Unit, ∀ t' ∈ (ts ++ [t]).take ts.length, t'.Settled :=
    fun t => by simpa using hts
  induction t generalizing s as with
  | ret _ => exact h
  | fail => exact h
  | act f k ih =>
    have hturn := h.turn ts.length default (hbefore _)
    rw [Pool.turn_eq default (hlast _)] at hturn
    exact ih s as (hset _ _ ▸ hturn)
  | ask k ih =>
    rcases as with - | ⟨a, as⟩
    · exact h
    · have hturn := h.turn ts.length a (hbefore _)
      rw [Pool.turn_eq a (hlast _)] at hturn
      exact ih a as (hset _ _ ▸ hturn)

/-- A call made when the others have ended, and run. -/
theorem Queued.solo [Inhabited ι] {s₀ : σ} {c : Task ι σ Unit} (h : Queued calls s₀ cs w)
    (hended : ∀ t ∈ w.tasks, t.Settled) (as : List ι) (hc : calls c) :
    Queued calls s₀ (cs ++ [c]) ⟨c.solo as w.shared, w.tasks ++ [c.soloEnd as w.shared]⟩ :=
  Queued.alone as hended (h.call c hc)

/-! ### What a whole queue leaves -/

/-- Calls that all ended, one after another, each with its effect. -/
inductive Effects (E : Task ι σ Unit → Task ι σ Unit → σ → σ → Prop) :
    List (Task ι σ Unit) → List (Task ι σ Unit) → σ → σ → Prop
  | nil (s : σ) : Effects E [] [] s s
  | cons {c t : Task ι σ Unit} {cs ts : List (Task ι σ Unit)} {s u v : σ} (effect : E c t s u)
      (rest : Effects E cs ts u v) : Effects E (c :: cs) (t :: ts) s v

/-- The effect of one call, and those of the calls after it. -/
theorem Effects.at {E : Task ι σ Unit → Task ι σ Unit → σ → σ → Prop} {i : Nat}
    {c t : Task ι σ Unit} (h : Effects E cs ts s u) (hc : cs[i]? = some c) (ht : ts[i]? = some t) :
    ∃ v v', E c t v v' ∧ Effects E (cs.drop (i + 1)) (ts.drop (i + 1)) v' u := by
  induction h generalizing i with
  | nil s => cases hc
  | cons effect rest ih =>
    cases i with
    | zero =>
      obtain rfl := Option.some.inj hc
      obtain rfl := Option.some.inj ht
      exact ⟨_, _, effect, rest⟩
    | succ i => exact ih hc ht

/-- When every call has ended, the queue is their effects one after another, as long as each call
that runs alone has its effect and keeps the invariant. -/
theorem InTurn.effects {E : Task ι σ Unit → Task ι σ Unit → σ → σ → Prop} {I : σ → Prop}
    (h : InTurn cs ts s u) (hended : ∀ t ∈ ts, t.Settled) (hs : I s)
    (hcalls : ∀ c ∈ cs, ∀ t s u, I s → c.ByItself s t u → t.Settled → E c t s u ∧ I u) :
    Effects E cs ts s u ∧ I u := by
  -- the calls that have not begun follow one another
  have hwaiting : ∀ (cs : List (Task ι σ Unit)) (s : σ), I s → (∀ t ∈ cs, t.Settled) →
      (∀ c ∈ cs, ∀ t s u, I s → c.ByItself s t u → t.Settled → E c t s u ∧ I u) →
      Effects E cs cs s s ∧ I s := by
    intro cs
    induction cs with
    | nil => exact fun s hs _ _ => ⟨.nil s, hs⟩
    | cons c cs ih =>
      intro s hs hended hcalls
      obtain ⟨heffect, hs'⟩ := hcalls c List.mem_cons_self c s s hs .refl
        (hended c List.mem_cons_self)
      obtain ⟨hrest, hs''⟩ := ih s hs' (fun t h => hended t (List.mem_cons_of_mem _ h))
        fun c h => hcalls c (List.mem_cons_of_mem _ h)
      exact ⟨.cons heffect hrest, hs''⟩
  induction h with
  | waiting cs s => exact hwaiting cs s hs hended hcalls
  | ended run hset _ ih =>
    obtain ⟨heffect, hs'⟩ := hcalls _ List.mem_cons_self _ _ _ hs run hset
    obtain ⟨hrest, hs''⟩ := ih (fun t h => hended t (List.mem_cons_of_mem _ h)) hs'
      fun c h => hcalls c (List.mem_cons_of_mem _ h)
    exact ⟨.cons heffect hrest, hs''⟩
  | current run cs =>
    obtain ⟨heffect, hs'⟩ := hcalls _ List.mem_cons_self _ _ _ hs run
      (hended _ List.mem_cons_self)
    obtain ⟨hrest, hs''⟩ := hwaiting cs _ hs' (fun t h => hended t (List.mem_cons_of_mem _ h))
      fun c h => hcalls c (List.mem_cons_of_mem _ h)
    exact ⟨.cons heffect hrest, hs''⟩

end OkRn
