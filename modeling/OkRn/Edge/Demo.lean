/-
OkRn/Edge/Demo.lean

A key that runs: an environment with a small hash, and runs over it.

`play` runs a list of events; `Playable` says each is valid where it happens,
so what `play` reaches is `Reachable`.  The runs below are pieces of the
counterexamples: a budget is opened, a use is announced, primed and run.

`idle` is a key with an empty chain, restarted again and again.  Every restart
saves the genesis once more, so the generation can be brought to any value
(`reachable_idle`) with nothing else changed.
-/
import OkRn.Edge.Kept

namespace OkRn.Edge.Demo

/-! ### Playing events -/

/-- The events, one after another. -/
def play (E : Env) (es : List Event) (k : Key) : Key := es.foldl (fun k e => step E e k) k

/-- Every event is valid where it happens. -/
def Playable (E : Env) : List Event → Key → Prop
  | [], _ => True
  | e :: es, k => e.Valid k ∧ Playable E es (step E e k)

/-- What a playable run reaches is reachable. -/
theorem reachable_play {E : Env} {k : Key} (es : List Event) (h : Reachable E k)
    (hes : Playable E es k) : Reachable E (play E es k) := by
  induction es generalizing k with
  | nil => exact h
  | cons e es ih => exact ih (h.event e hes.1) hes.2

/-! ### The environment -/

/-- A small hash. -/
def hash (l : List UInt8) : Digest :=
  let v := l.foldl (fun h b => (h * 257 + b.toNat + 1) % (2 ^ 61 - 1)) 7
  Bytes.pack 32 ((List.range 8).map fun n => UInt8.ofNat (v / 256 ^ n))

/-- The environment: a small hash, and signatures that are their inputs. -/
def env : Env where
  sha256 := hash
  hkdf := fun salt info =>
    some (hash ((salt.map Bytes.toList).getD [] ++ info))
  computePublicKey := fun priv => some (Bytes.pack 64 priv.toList)
  eccSign := fun priv digest => some (Bytes.pack 64 (priv.toList ++ digest.toList))
  mldsaPk := fun seed => some seed.toList
  mldsaSign := fun seed digest => some (seed.toList ++ digest.toList)
  lp64 := true
  debug := false

/-- A key that is unlocked. -/
def core : Core := ⟨true, true, false, false, true⟩

/-- What the random number generator gives. -/
def draw : Draw := ⟨Bytes.pack 32 [1], Bytes.pack 32 [2]⟩

/-- All readings of an event at one time. -/
def clock (n : Nat) : Clock := fun _ => n

/-- A clock that stands still at a time. -/
theorem clock_from {n now : Nat} (h : now ≤ n) : (clock n).From now :=
  ⟨h, monotone_const⟩

/-! ### Requests -/

/-- A report for the plugin. -/
def request (sub : UInt8) (l : List UInt8) : Report :=
  Bytes.pack 64 ([0, 0, 0, 0, 0, sub] ++ l)

/-- GRANT_CREATE with one scope: sign on `slot`, `cap` uses, a lifetime in minutes. -/
def grantRequest (slot cap lifetime : UInt8) (k : Key) : Report :=
  request 0x10 ([1, 1, slot, cap, 0] ++ (List.replicate 12 0 ++ (List.replicate 32 9 ++
    ([0, lifetime, 0] ++ k.st.head.toList.take 6))))

/-- TX_START for a message, over the key's head, without an intent. -/
def txRequest (msg : List UInt8) (k : Key) : Report :=
  request 0x22 ((tokenOf env k.st.head (hash msg) (Bytes.zero 16)).toList ++ List.replicate 16 0)

/-! ### Runs -/

/-- A key as it leaves the factory. -/
def factory : Key := Key.fresh (fun _ => erased) core []

/-- A budget is opened by a press. -/
def opened (slot cap lifetime : UInt8) (n : Nat) (k : Key) : Key :=
  play env [.recv (grantRequest slot cap lifetime k) (clock n) draw, .run (clock n) draw] k

/-- A message is announced and primed. -/
def primed (slot : UInt8) (msg : List UInt8) (n : Nat) (k : Key) : Key :=
  play env [.recv (txRequest msg k) (clock n) draw, .prime okSign slot msg .press (clock n)] k

/-- The announced message is signed. -/
def used (slot : UInt8) (msg : List UInt8) (n : Nat) (k : Key) : Key :=
  play env [.run (clock n) draw] (primed slot msg n k)

section

variable {n : Nat} {k : Key} (slot cap lifetime : UInt8) (msg : List UInt8)

/-- A budget may be opened wherever the clock allows it. -/
theorem reachable_opened (h : Reachable env k) (hn : k.now ≤ n) :
    Reachable env (opened slot cap lifetime n k) :=
  reachable_play _ h ⟨clock_from hn, clock_from le_rfl, trivial⟩

theorem reachable_primed (h : Reachable env k) (hn : k.now ≤ n) :
    Reachable env (primed slot msg n k) :=
  reachable_play _ h ⟨clock_from hn, ⟨by decide, clock_from le_rfl⟩, trivial⟩

theorem reachable_used (h : Reachable env k) (hn : k.now ≤ n) :
    Reachable env (used slot msg n k) :=
  reachable_play _ (reachable_primed slot msg h hn) ⟨clock_from le_rfl, trivial⟩

theorem reachable_factory : Reachable env factory := .new core

end

/-! ### Any generation -/

/-- The Edge key of this environment. -/
def pub : Bytes 64 :=
  Bytes.pack 64 (hash ((salt33 draw.salt).toList ++ ascii "onlykey/edge/v1")).toList

/-- And the identity it gives. -/
def ident : Ident := ⟨pub, deviceIdOf env pub⟩

/-- The record of an empty chain, saved `g` times. -/
def emptyRecord (g : UInt32) : EdgeState :=
  { EdgeState.empty with
    gen := g, head := genesisOf env ident.deviceId, salted := true, salt := draw.salt }

/-- The sectors after the last two saves. -/
def emptyFlash (g : UInt32) : Bool → Sector := fun side =>
  stateEncode env (emptyRecord (if side = DoubleBuffer.side g then g else g - 1))

/-- A key with an empty chain, restarted and asked for a backup. -/
def idle (g : UInt32) (log : List Entry) : Key :=
  { Key.fresh (emptyFlash g) core log with
    st := emptyRecord g
    loaded := true
    ident := some ident }

/-- One more restart. -/
def again : List Event := [.restart, .backup draw 0]

/-- The newer sector holds the newer record. -/
theorem emptyFlash_side (g : UInt32) :
    emptyFlash g (DoubleBuffer.side g) = stateEncode env (emptyRecord g) := by
  simp [emptyFlash]

/-- The other sector the one before it. -/
theorem emptyFlash_other (g : UInt32) :
    emptyFlash g (!DoubleBuffer.side g) = stateEncode env (emptyRecord (g - 1)) := by
  simp [emptyFlash]

/-- Together they hold the newer record. -/
theorem holds_emptyFlash (g : UInt32) :
    DoubleBuffer.Holds (stateDecode env) EdgeState.gen (emptyFlash g) (emptyRecord g) where
  newest := by
    have hgen : (emptyRecord g).gen = g := rfl
    rw [hgen, emptyFlash_side, stateDecode_stateEncode]
  other r' h := by
    have hgen : (emptyRecord g).gen = g := rfl
    rw [hgen, emptyFlash_other, stateDecode_stateEncode] at h
    obtain rfl := Option.some.inj h
    exact UInt32.sub_add_cancel g 1

/-- The generation is far from its wrap. -/
theorem wrapped_emptyFlash {g : UInt32} (hg : g ≠ 0) : wrapped env (emptyFlash g) = false := by
  have hgen : ∀ n, (emptyRecord n).gen = n := fun _ => rfl
  have hne : ∀ n : UInt32, n = 0 → n ≠ 0xFFFFFFFF := by
    rintro n rfl
    decide
  unfold wrapped
  rcases hs : DoubleBuffer.side g with - | -
  · have hcell := emptyFlash_side g
    have hother := emptyFlash_other g
    rw [hs] at hcell hother
    simp only [Bool.not_false] at hother
    simp only [hcell, hother, stateDecode_stateEncode, hgen]
    simp [hg]
  · have hcell := emptyFlash_side g
    have hother := emptyFlash_other g
    rw [hs] at hcell hother
    simp only [Bool.not_true] at hother
    simp only [hcell, hother, stateDecode_stateEncode, hgen]
    by_contra h
    simp only [Bool.not_eq_false, Bool.and_eq_true, beq_iff_eq] at h
    have hone : g = 1 := by rw [← UInt32.sub_add_cancel g 1, h.1]; rfl
    rw [hone] at h
    exact absurd h.2 (by decide)

/-- A start reads the newer record. -/
theorem loadRecord_emptyFlash {g : UInt32} (hg : g ≠ 0) :
    Key.loadRecord env (emptyFlash g) = emptyRecord g :=
  loadRecord_of_stored (Or.inl (holds_emptyFlash g)) (wrapped_emptyFlash hg)

/-- The next save of an empty chain. -/
theorem update_emptyFlash (g : UInt32) :
    Function.update (emptyFlash g) (DoubleBuffer.side (g + 1))
      (stateEncode env (emptyRecord (g + 1))) = emptyFlash (g + 1) := by
  funext side
  by_cases hs : side = DoubleBuffer.side (g + 1)
  · rw [hs, Function.update_self, emptyFlash_side]
  · have hside : side = !DoubleBuffer.side (g + 1) := by
      cases side <;> cases h : DoubleBuffer.side (g + 1) <;> simp_all
    rw [Function.update_of_ne hs, hside, emptyFlash_other, DoubleBuffer.side_succ, Bool.not_not,
      emptyFlash_side, UInt32.add_sub_cancel]

/-- The entries a restart writes when its save is the `g`-th. -/
def againLog (g : UInt32) (log : List Entry) : List Entry :=
  .saved (DoubleBuffer.side g) (stateEncode env (emptyRecord g)) :: .boot none true :: log

/-- A key just restarted, with the record of an empty chain loaded. -/
def awake (flash : Bool → Sector) (g : UInt32) (log : List Entry) : Key :=
  { Key.fresh flash core (.boot none true :: log) with st := emptyRecord g, loaded := true }

section

variable {flash : Bool → Sector} {g g' : UInt32} {k : Key} (log : List Entry)

/-- A restart reads the record again. -/
theorem stateLoad_restart (hload : Key.loadRecord env k.flash = emptyRecord g)
    (hw : wrapped env k.flash = false) (hcore : k.core = core) :
    (step env .restart k).stateLoad env = awake k.flash g k.log := by
  have hboot : step env .restart k =
      Key.fresh k.flash k.core (.boot none (!wrapped env k.flash) :: k.log) := rfl
  have hseq : (emptyRecord g).seq = seqNone := rfl
  rw [hboot, hw, hcore, Key.stateLoad]
  dsimp only [Key.fresh]
  rw [hload, hseq]
  rfl

/-- The identity is found as it was. -/
theorem ensureIdentity_awake : (awake flash g log).ensureIdentity env draw =
    ((awake flash g log).beginChain env ident, true) := by
  have hident : identityOf env (awake flash g log).core (awake flash g log).st = some ident := rfl
  have hsalt : (awake flash g log).ensureSalt env draw = some (awake flash g log) := rfl
  have hnone : (awake flash g log).ident.isSome = false := rfl
  rw [Key.ensureIdentity, stateLoad_of_loaded rfl]
  rw [hnone, hsalt]
  simp only [Bool.false_eq_true, if_false, hident]

/-- The genesis is saved once more, in the other sector. -/
theorem beginChain_awake (hg : g + 1 = g') (hflash : Function.update flash (DoubleBuffer.side g')
      (stateEncode env (emptyRecord g')) = emptyFlash g') :
    (awake flash g log).beginChain env ident = idle g' (againLog g' log) := by
  subst hg
  have hcont : (awake flash g log).st.cont = false := rfl
  have hseq : (awake flash g log).st.seq = seqNone := rfl
  have hbegin : (awake flash g log).beginChain env ident =
      (awake flash g log).genesisSet env ident := by
    rw [Key.beginChain]
    dsimp only
    rw [hcont, hseq]
    rfl
  have hsaved : (awake flash g log).genesisSet env ident =
      { idle (g + 1) (againLog (g + 1) log) with
        flash := Function.update flash (DoubleBuffer.side (g + 1))
          (stateEncode env (emptyRecord (g + 1))) } := rfl
  rw [hbegin, hsaved, hflash]
  rfl

/-- A backup answers after the identity is ensured. -/
theorem step_backup (k : Key) : step env (.backup draw 0) k =
    ((k.hush.stateLoad env).ensureIdentity env draw).1 := by
  show (Key.backup env draw 0 k.hush).1 = _
  rw [Key.backup]
  rcases (k.hush.stateLoad env).ensureIdentity env draw with ⟨k, - | -⟩ <;> rfl

/-- A restart of an empty chain saves its genesis once more. -/
theorem play_again (hg : g + 1 = g') (hload : Key.loadRecord env k.flash = emptyRecord g)
    (hw : wrapped env k.flash = false) (hcore : k.core = core)
    (hflash : Function.update k.flash (DoubleBuffer.side g')
      (stateEncode env (emptyRecord g')) = emptyFlash g') :
    play env again k = idle g' (againLog g' k.log) := by
  have hplay : play env again k =
      (((step env .restart k).hush.stateLoad env).ensureIdentity env draw).1 :=
    step_backup (step env .restart k)
  have hhush : (step env .restart k).hush = step env .restart k := rfl
  rw [hplay, hhush, stateLoad_restart hload hw hcore, ensureIdentity_awake]
  exact beginChain_awake k.log hg hflash

end

/-- A round of the run takes the generation on by one. -/
theorem again_idle {g : UInt32} (hg : g ≠ 0) (log : List Entry) :
    play env again (idle g log) = idle (g + 1) (againLog (g + 1) log) :=
  play_again rfl (loadRecord_emptyFlash hg) (wrapped_emptyFlash hg) rfl (update_emptyFlash g)

/-- A key with its identity, and no link yet. -/
@[irreducible] def started : Key := step env (.backup draw 0) factory

/-- A started key is reachable. -/
theorem reachable_started : Reachable env started := by
  rw [started]
  exact reachable_factory.event (.backup draw 0) trivial

theorem started_core : started.core = core := by
  have hrequests := (stateLoad_requests env factory.hush).trans
    (ensureIdentity_requests env draw (factory.hush.stateLoad env))
  rw [started, step_backup]
  exact hrequests.core

theorem update_started : Function.update started.flash (DoubleBuffer.side 3)
    (stateEncode env (emptyRecord 3)) = emptyFlash 3 := by
  have hfirst : started.flash false = stateEncode env (emptyRecord (3 - 1)) := by decide +kernel
  have hside : DoubleBuffer.side 3 = true := by decide
  have hother := emptyFlash_other 3
  rw [hside, Bool.not_true] at hother
  funext side
  cases side with
  | true => rw [← hside, Function.update_self, emptyFlash_side]
  | false => rw [hside, Function.update_of_ne (by decide), hfirst, hother]

theorem again_started : play env again started = idle 3 (againLog 3 started.log) := by
  have hload : Key.loadRecord env started.flash = emptyRecord 2 := by decide +kernel
  have hw : wrapped env started.flash = false := by decide +kernel
  exact play_again (by decide) hload hw started_core update_started

/-- The history of `n` restarts from generation 3. -/
def againLogs : Nat → List Entry
  | 0 => againLog 3 started.log
  | n + 1 => againLog (UInt32.ofNat (n + 4)) (againLogs n)

/-- The generation can be anything. -/
theorem reachable_idle (n : Nat) (hn : n + 3 < 2 ^ 32) :
    Reachable env (idle (UInt32.ofNat (n + 3)) (againLogs n)) := by
  induction n with
  | zero =>
    have hplayed := reachable_play again reachable_started ⟨trivial, trivial, trivial⟩
    rw [again_started] at hplayed
    exact hplayed
  | succ n ih =>
    have hprev := ih (by omega)
    have hg : UInt32.ofNat (n + 3) ≠ 0 := by
      intro h0
      have hnat := congrArg UInt32.toNat h0
      simp only [UInt32.toNat_ofNat', UInt32.reduceToNat] at hnat
      omega
    have hplayed := reachable_play again hprev ⟨trivial, trivial, trivial⟩
    rw [again_idle hg] at hplayed
    have hsucc : UInt32.ofNat (n + 3) + 1 = UInt32.ofNat (n + 4) := by
      rw [UInt32.ofNat_add (n + 3) 1]
      rfl
    rw [hsucc] at hplayed
    exact hplayed

/-! ### None of this restores or wipes -/

/-- A run without a restore or a wipe. -/
theorem noReset_play (es : List Event) {k : Key} (hes : Playable env es k)
    (hl : ∀ e ∈ es, ∀ k, ∀ l ∈ e.labels k, l ≠ .restore ∧ l ≠ .wipe) (hk : NoReset k.log) :
    NoReset (play env es k).log := by
  induction es generalizing k with
  | nil => exact hk
  | cons e es ih =>
    have hstep : NoReset (step env e k).log :=
      step_noReset e hes.1 (hl e (by simp) k) hk
    exact ih hes.2 (fun e' he' => hl e' (by simp [he'])) hstep

/-- A run of the waiting operation. -/
theorem labels_run (t : Clock) (d : Draw) (k : Key) :
    ∀ l ∈ (Event.run t d).labels k, l ≠ .restore ∧ l ≠ .wipe := by
  intro l hl
  simp only [Event.labels, List.mem_append, List.mem_cons, List.not_mem_nil, or_false] at hl
  rcases hl with ((rfl | rfl | rfl) | hl) | hl
  · decide
  · decide
  · decide
  · split at hl <;> simp_all
  · split at hl <;> simp_all

/-- The moves that a request is served with. -/
theorem labels_request {sub : SubOp} (code : UInt8) (hsub : subOp code = some sub)
    (hlabels : ∀ l ∈ sub.labels, l ≠ .restore ∧ l ≠ .wipe) (l' : List UInt8) (t : Clock)
    (d : Draw) (k : Key) :
    ∀ l ∈ (Event.recv (request code l') t d).labels k, l ≠ .restore ∧ l ≠ .wipe := by
  have hbyte : byteAt (request code l') 5 = code := rfl
  intro l hl
  simp only [Event.labels, hbyte, hsub, Option.map_some, Option.getD_some, List.mem_cons] at hl
  rcases hl with rfl | rfl | hl
  · decide
  · decide
  · exact hlabels l hl

section

variable {n : Nat} {k : Key} (slot cap lifetime : UInt8) (msg : List UInt8)

theorem noReset_opened (hn : k.now ≤ n) (hk : NoReset k.log) :
    NoReset (opened slot cap lifetime n k).log := by
  refine noReset_play _ ⟨clock_from hn, clock_from le_rfl, trivial⟩ ?_ hk
  intro e he k
  rcases List.mem_cons.mp he with rfl | he
  · exact labels_request 0x10 (rfl : subOp 0x10 = some .grantCreate) (by decide) _ _ _ _
  · obtain rfl := List.mem_singleton.mp he
    exact labels_run _ _ _

theorem noReset_used (hn : k.now ≤ n) (hk : NoReset k.log) :
    NoReset (used slot msg n k).log := by
  have hprimed : NoReset (primed slot msg n k).log := by
    refine noReset_play _ ⟨clock_from hn, ⟨by decide, clock_from le_rfl⟩, trivial⟩ ?_ hk
    intro e he k
    rcases List.mem_cons.mp he with rfl | he
    · exact labels_request 0x22 (rfl : subOp 0x22 = some .txStart) (by decide) _ _ _ _
    · obtain rfl := List.mem_singleton.mp he
      simp [Event.labels]
  refine noReset_play _ ⟨clock_from le_rfl, trivial⟩ ?_ hprimed
  intro e he k
  obtain rfl := List.mem_singleton.mp he
  exact labels_run _ _ _

end

theorem started_noReset : NoReset started.log := by
  rw [started]
  exact step_noReset (.backup draw 0) trivial (by simp [Event.labels]) (by simp [NoReset, factory,
    Key.fresh])

theorem againLogs_noReset (n : Nat) : NoReset (againLogs n) := by
  induction n with
  | zero => exact NoReset.cons (started_noReset.cons rfl) rfl
  | succ n ih => exact NoReset.cons (NoReset.cons ih rfl) rfl

end OkRn.Edge.Demo
