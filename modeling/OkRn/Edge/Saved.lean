/-
OkRn/Edge/Saved.lean

The record last saved, read off the history, and the record a start reads.

`lastSave` is the sector written last and what was written there; a wipe forgets
it.  Each move leaves the record and its sectors alone, saves, or wipes
(`Move.kept_or_saved`).  Below 2^32 saves the generation is never 0 again
(`Counted`), so a start reads the record last saved, and a save never goes to the
sector that holds it.

Main result: `last_save_survives`, for a power cut at any save of any run.
-/
import OkRn.Edge.Kept
import OkRn.Edge.Demo

namespace OkRn.Edge

variable {E : Env} {k k' : Key} {l : Label}

/-! ### The record last saved -/

/-- The sector last written, and what was written there. -/
def lastSave : List Entry → Option (Bool × Sector)
  | [] => none
  | .saved side sector :: _ => some (side, sector)
  | .wiped :: _ => none
  | _ :: log => lastSave log

/-- The record last saved; an empty chain before the first save. -/
def lastSaved (E : Env) (log : List Entry) : EdgeState :=
  ((lastSave log).bind fun x => stateDecode E x.2).getD EdgeState.empty

/-- How many saves there were. -/
def savesIn (log : List Entry) : Nat := log.countP Entry.isSaved

/-- Neither a save nor a wipe. -/
def Entry.idle : Entry → Bool
  | .saved .. | .wiped => false
  | _ => true

/-- A silent entry saves nothing. -/
theorem Entry.idle_of_silent {e : Entry} (h : e.silent = true) : e.idle = true := by
  cases e <;> simp_all [Entry.silent, Entry.idle]

/-- Entries that save nothing leave the last save. -/
theorem lastSave_append {seg log : List Entry} (h : ∀ e ∈ seg, e.idle = true) :
    lastSave (seg ++ log) = lastSave log := by
  refine History.append_of_ignored fun e he past => ?_
  have hidle := h e he
  cases e <;> simp_all [Entry.idle, lastSave]

theorem savesIn_append {seg log : List Entry} (h : ∀ e ∈ seg, e.idle = true) :
    savesIn (seg ++ log) = savesIn log := by
  have hseg : seg.countP Entry.isSaved = 0 := by
    refine List.countP_eq_zero.mpr fun e he => ?_
    have hidle := h e he
    cases e <;> simp_all [Entry.idle, Entry.isSaved]
  rw [savesIn, List.countP_append, hseg, Nat.zero_add, savesIn]

/-- The saves of a longer log are more. -/
theorem savesIn_mono {log log' : List Entry} (h : log <:+ log') : savesIn log ≤ savesIn log' :=
  h.sublist.countP_le

/-! ### What a move does to it -/

/-- The record and its sectors are left alone, the record is saved, or the key is wiped. -/
inductive KeptOrSaved (E : Env) (k k' : Key) : Prop
  | kept (seg : List Entry) (hflash : k'.flash = k.flash) (hkept : k'.kept E = k.kept E)
      (hlog : k'.log = seg ++ k.log) (hseg : ∀ e ∈ seg, e.idle = true)
  | saved (seg : List Entry) (hsaves : Saves E k k')
      (hlog : k'.log = seg ++
        .saved (DoubleBuffer.side (k.st.gen + 1)) (stateEncode E k'.st) :: k.log)
      (hseg : ∀ e ∈ seg, e.idle = true)
  | wiped (h : k' = k.wipe)

/-- A step without a link leaves the record and its sectors. -/
theorem SameChain.keptOrSaved (h : SameChain E k k') : KeptOrSaved E k k' := by
  obtain ⟨seg, hlog, hseg⟩ := h.log
  exact .kept seg h.flash h.kept hlog fun e he => Entry.idle_of_silent (hseg e he)

/-- A move leaves them, saves, or wipes. -/
theorem Move.kept_or_saved (h : Move E l k k') : KeptOrSaved E k k' := by
  -- a move saves once, wipes, or leaves the flash alone
  cases h with
  | ram h => exact h.sameChain.keptOrSaved
  | announce t buf =>
    rcases recvTxStart_cases t buf k with hstill | ⟨-, -, token, intent, htx⟩
    · exact hstill.sameChain.keptOrSaved
    · rw [htx]
      exact .kept [.txStart token intent] rfl rfl rfl (by simp [Entry.idle])
  | load _ =>
    exact .kept [] (stateLoad_flash E k) (stateLoad_kept E k) (stateLoad_log E k) (by simp)
  | salt salt hload =>
    exact .saved [.salt salt] (salted_saves salt hload) rfl (by simp [Entry.idle])
  | known => exact .kept [] rfl rfl rfl (by simp)
  | genesis hload => exact .saved [] (genesisSet_saves _ hload) rfl (by simp)
  | continued hload =>
    exact .saved [_] (continued_saves _ hload) (continued_log _ k) (by simp [Entry.idle])
  | resave hload => exact .saved [] (stateSave_saves hload) rfl (by simp)
  | act hload =>
    rename_i link reveal budgets _ _
    have hlog := weldIn_log (E := E) link reveal { k with budgets := budgets, nextIntent := none }
    obtain ⟨-, hload', hgen, hflash⟩ := weldIn_saves (E := E) link reveal
      (k := { k with budgets := budgets, nextIntent := none }) hload
    exact .saved [_] ⟨hload, hload', hgen, hflash⟩ hlog (by simp [Entry.idle])
  | restore sec hload hsec =>
    have hgen := sectionState_gen k.st.gen sec
    rw [restore_eq sec hload hsec]
    exact .saved [_] (restored_saves hgen hload) (restored_log hgen) (by simp [Entry.idle])
  | wipe => exact .wiped rfl

/-! ### Below 2^32 saves -/

/-- The generation goes up by one below its wrap. -/
theorem gen_succ {g : UInt32} (h : g.toNat + 1 < 2 ^ 32) : (g + 1).toNat = g.toNat + 1 := by
  rw [UInt32.toNat_add]
  exact Nat.mod_eq_of_lt h

/-- The sectors hold the record, its generation counts no more than the saves, and the history ends
with its save. -/
structure Counted (E : Env) (k : Key) : Prop where
  stored : Stored E k.flash (k.kept E)
  unwrapped : DoubleBuffer.Unwrapped (stateDecode E) EdgeState.gen k.flash (k.kept E)
  gen : (k.kept E).gen.toNat ≤ savesIn k.log
  newest : ∀ side sector, lastSave k.log = some (side, sector) →
    side = DoubleBuffer.side (k.kept E).gen ∧ sector = stateEncode E (k.kept E)
  blank : lastSave k.log = none → k.kept E = EdgeState.empty

/-- A start reads the record last saved. -/
theorem Counted.load_eq (h : Counted E k) : Key.loadRecord E k.flash = k.kept E :=
  DoubleBuffer.Backed.load_eq h.stored h.unwrapped

theorem Counted.lastSaved_eq (h : Counted E k) : lastSaved E k.log = k.kept E := by
  rcases hlast : lastSave k.log with - | ⟨side, sector⟩
  · rw [lastSaved, hlast, h.blank hlast]
    rfl
  · rw [lastSaved, hlast, (h.newest side sector hlast).2]
    simp

/-- A new key has saved nothing. -/
theorem counted_new (core : Core) : Counted E (Key.fresh (fun _ => erased) core []) := by
  have hload : (Key.fresh (fun _ => erased) core []).kept E = EdgeState.empty :=
    DoubleBuffer.Backed.load_eq stored_erased fun _ => stateDecode_erased E
  refine ⟨?_, ?_, ?_, fun side sector h => (by cases h), fun _ => hload⟩
  · rw [hload]
    exact stored_erased
  · exact fun _ => stateDecode_erased E
  · rw [hload]
    exact Nat.zero_le _

theorem Counted.move (h : Counted E k) (hmove : Move E l k k') (hfew : savesIn k'.log < 2 ^ 32) :
    Counted E k' := by
  have hstored := hmove.stored h.stored
  rcases hmove.kept_or_saved with ⟨seg, hflash, hkept, hlog, hseg⟩ | ⟨seg, hsaves, hlog, hseg⟩ | rfl
  · refine ⟨hstored, ?_, ?_, ?_, ?_⟩
    · rw [hflash, hkept]
      exact h.unwrapped
    · rw [hkept, hlog, savesIn_append hseg]
      exact h.gen
    · rw [hkept, hlog, lastSave_append hseg]
      exact h.newest
    · rw [hkept, hlog, lastSave_append hseg]
      exact h.blank
  · have hcount : savesIn k'.log = savesIn k.log + 1 := by
      rw [hlog, savesIn_append hseg, savesIn, savesIn]
      exact List.countP_cons_of_pos rfl
    have hgen := h.gen
    rw [kept_of_loaded hsaves.loaded] at hgen
    -- the generation does not wrap
    have hnext : k'.st.gen.toNat = k.st.gen.toNat + 1 := by
      rw [hsaves.gen]
      exact gen_succ (by omega)
    refine ⟨hstored, fun h0 => ?_, ?_, ?_, ?_⟩
    · rw [kept_of_loaded hsaves.loaded'] at h0
      rw [h0] at hnext
      exact absurd hnext.symm (Nat.succ_ne_zero _)
    · rw [kept_of_loaded hsaves.loaded', hnext, hcount]
      omega
    · intro side sector hlast
      rw [hlog, lastSave_append hseg] at hlast
      cases hlast
      rw [kept_of_loaded hsaves.loaded', hsaves.gen]
      exact ⟨rfl, rfl⟩
    · intro hlast
      rw [hlog, lastSave_append hseg] at hlast
      cases hlast
  · refine ⟨hstored, fun _ => stateDecode_erased E, Nat.zero_le _, ?_, fun _ => rfl⟩
    intro side sector hlast
    cases hlast

/-- What a cut-off save left in the sector it was writing does not matter. -/
theorem Counted.tear (h : Counted E k) {torn : Option (Bool × Sector)}
    (htorn : Torn E (DoubleBuffer.side ((k.kept E).gen + 1)) torn) :
    Stored E (tear torn k.flash) (k.kept E) ∧
      DoubleBuffer.Unwrapped (stateDecode E) EdgeState.gen (tear torn k.flash) (k.kept E) := by
  refine ⟨stored_tear h.stored htorn, fun h0 => ?_⟩
  rcases htorn with rfl | ⟨junk, rfl, hjunk⟩
  · exact h.unwrapped h0
  · by_cases hside : DoubleBuffer.side ((k.kept E).gen + 1) = true
    · simpa [Edge.tear, hside] using hjunk
    · simpa [Edge.tear, Function.update_of_ne (Ne.symm hside)] using h.unwrapped h0

/-- A restart reads what was saved. -/
theorem Counted.reboot (h : Counted E k) (core : Core) {torn : Option (Bool × Sector)}
    (htorn : Torn E (DoubleBuffer.side ((k.kept E).gen + 1)) torn) :
    Counted E (reboot E torn k.flash core k.log) := by
  obtain ⟨hstored, hunwrapped⟩ := h.tear htorn
  have hkept : (Edge.reboot E torn k.flash core k.log).kept E = k.kept E :=
    DoubleBuffer.Backed.load_eq hstored hunwrapped
  refine ⟨?_, ?_, ?_, ?_, ?_⟩ <;> rw [hkept]
  · exact hstored
  · exact hunwrapped
  · exact h.gen
  · exact h.newest
  · exact h.blank

/-- So it is in every run of fewer than 2^32 saves. -/
theorem Trace.counted (h : Trace E k) (hfew : savesIn k.log < 2 ^ 32) : Counted E k := by
  induction h with
  | new core => exact counted_new core
  | move _ hmove ih =>
    have hbefore := ih (lt_of_le_of_lt (savesIn_mono hmove.suffix) hfew)
    exact hbefore.move hmove hfew
  | boot core _ htorn ih => exact (ih hfew).reboot core htorn

theorem Entry.not_saved_of_idle {e : Entry} (h : e.idle = true) : e.isSaved = false := by
  cases e <;> simp_all [Entry.idle, Entry.isSaved]

/-- A save of some moves is that of one of them, on the key the moves before it reach. -/
theorem Moves.save_at {P : Label → Prop} {post pre : List Entry} {side : Bool} {sector : Sector}
    (h : Moves E P k k') (hlog : k'.log = post ++ .saved side sector :: pre)
    (hpre : k.log <:+ pre) :
    ∃ m m', Moves E P k m ∧ m.log = pre ∧ Saves E m m' ∧
      side = DoubleBuffer.side (m.st.gen + 1) ∧ sector = stateEncode E m'.st := by
  have hsaved : Entry.isSaved (.saved side sector) = true := rfl
  induction h generalizing post with
  | refl =>
    have hlen := hpre.length_le
    rw [hlog, List.length_append, List.length_cons] at hlen
    omega
  | tail hmoves hl hmove ih =>
    rename_i m m' _
    -- the save in question is the last move's, or an older one's
    rcases hmove.kept_or_saved with ⟨seg, -, -, hlog', hseg⟩ | ⟨seg, hsaves, hlog', hseg⟩ | hwiped
    · rw [hlog'] at hlog
      obtain ⟨post', -, hm⟩ := History.split_of_forall
        (fun e he => Entry.not_saved_of_idle (hseg e he)) hsaved hlog
      exact ih hm
    · rw [hlog'] at hlog
      obtain ⟨post', -, hm⟩ := History.split_of_forall
        (fun e he => Entry.not_saved_of_idle (hseg e he)) hsaved hlog
      rcases post' with - | ⟨e, post'⟩
      · obtain ⟨hentry, hrest⟩ := List.cons.inj hm
        obtain ⟨hside, hsector⟩ := Entry.saved.inj hentry
        exact ⟨m, m', hmoves, hrest, hsaves, hside.symm, hsector.symm⟩
      · exact ih (List.cons.inj hm).2
    · rw [hwiped] at hlog
      have hlog' : [Entry.wiped] ++ m.log = post ++ .saved side sector :: pre := hlog
      obtain ⟨post', -, hm⟩ := History.split_of_forall (by simp [Entry.isSaved]) hsaved hlog'
      exact ih hm

/-! ### A power cut at a save -/

/-- What the sector being written may hold when the power goes: nothing readable, what it held
before, or the new record. -/
def CutSave (E : Env) (before written cell : Sector) : Prop :=
  stateDecode E cell = none ∨ cell = before ∨ cell = written

/-- A start after the cut reads the record saved last, or the new one if it was written whole. -/
theorem Counted.load_cut {m m' : Key} (h : Counted E m) (hsaves : Saves E m m')
    (hfew : savesIn m.log + 1 < 2 ^ 32) {cell : Sector}
    (hcell : CutSave E (m.flash (DoubleBuffer.side (m.st.gen + 1))) (stateEncode E m'.st) cell) :
    Key.loadRecord E (Function.update m.flash (DoubleBuffer.side (m.st.gen + 1)) cell) = m.kept E ∨
      (cell = stateEncode E m'.st ∧ Key.loadRecord E
        (Function.update m.flash (DoubleBuffer.side (m.st.gen + 1)) cell) = m'.st) := by
  have hkept := kept_of_loaded (E := E) hsaves.loaded
  rcases hcell with hjunk | rfl | rfl
  · have htorn : Torn E (DoubleBuffer.side ((m.kept E).gen + 1))
        (some (DoubleBuffer.side (m.st.gen + 1), cell)) := by
      rw [hkept]
      exact Or.inr ⟨cell, rfl, hjunk⟩
    obtain ⟨hstored, hunwrapped⟩ := h.tear htorn
    exact Or.inl (DoubleBuffer.Backed.load_eq hstored hunwrapped)
  · rw [Function.update_eq_self]
    exact Or.inl h.load_eq
  · refine Or.inr ⟨rfl, ?_⟩
    have hgen := h.gen
    have hgen' : m'.st.gen = (m.kept E).gen + 1 := by rw [hkept, hsaves.gen]
    have hstored := stored_save h.stored hgen'
    rw [hkept] at hstored hgen
    refine DoubleBuffer.Backed.load_eq hstored fun h0 => ?_
    -- the next generation is not 0
    have hnext := gen_succ (g := m.st.gen) (by omega)
    rw [← hsaves.gen, h0] at hnext
    exact absurd hnext.symm (Nat.succ_ne_zero _)

/-- A save that is cut off, in any event of any run. -/
structure Survives (E : Env) (pre : List Entry) (side : Bool) (sector : Sector) : Prop where
  /-- The sector being written is not the one that holds the record last saved. -/
  other : ∀ last, lastSave pre = some last → side ≠ last.1
  /-- A start reads the record last saved, or the new one where it was written whole. -/
  read : ∃ r, stateDecode E sector = some r ∧
    ∀ cell, CutSave E (flashOf pre side) sector cell →
      Key.loadRecord E (Function.update (flashOf pre) side cell) = lastSaved E pre ∨
        (cell = sector ∧ Key.loadRecord E (Function.update (flashOf pre) side cell) = r)

/-- In every run of fewer than 2^32 saves a start reads the record saved last, a save that is cut
off leaves it that or the new one, and a record is decoded as it was encoded. -/
theorem last_save_survives (E : Env) :
    (∀ s, stateDecode E (stateEncode E s) = some s) ∧
    ∀ k, Reachable E k → savesIn k.log < 2 ^ 32 →
      Key.loadRecord E k.flash = lastSaved E k.log ∧
      ∀ e, e.Valid k → ∀ post pre side sector,
        (step E e k).log = post ++ .saved side sector :: pre → k.log <:+ pre →
          savesIn (.saved side sector :: pre) < 2 ^ 32 → Survives E pre side sector := by
  refine ⟨stateDecode_stateEncode E, fun k h hfew => ⟨?_, ?_⟩⟩
  · have hcounted := h.trace.counted hfew
    rw [hcounted.load_eq, hcounted.lastSaved_eq]
  · intro e hvalid post pre side sector hlog hpre hfew
    have he : e ≠ .restart := by
      rintro rfl
      exact restart_no_save rfl hlog hpre
    -- the cut falls at this save: the key before it, and what the flash has of the new record
    obtain ⟨m, m', hmoves, rfl, hsaves, rfl, rfl⟩ :=
      (step_moves (P := fun _ => True) e he hvalid fun _ _ => trivial).save_at hlog hpre
    have htrace : Trace E m := h.trace.moves hmoves
    have hcount : savesIn m.log + 1 < 2 ^ 32 := by
      rwa [savesIn, List.countP_cons_of_pos rfl] at hfew
    have hcounted := htrace.counted (by omega)
    refine ⟨?_, m'.st, stateDecode_stateEncode E _, ?_⟩
    · -- the parity of the generation names the other sector
      rintro ⟨last, held⟩ hlast
      obtain ⟨rfl, -⟩ := hcounted.newest last held hlast
      rw [kept_of_loaded hsaves.loaded, DoubleBuffer.side_succ]
      exact Bool.not_ne_self _
    · intro cell hcell
      rw [← htrace.flashKept] at hcell ⊢
      rw [hcounted.lastSaved_eq]
      exact hcounted.load_cut hsaves hcount hcell

/-- A section of a chain at seq 0 with no debt. -/
def Demo.emptySection : List UInt8 := 1 :: List.replicate 53 0

/-- A restore after a wipe. -/
theorem last_save_survives_restore :
    Survives Demo.env [.wiped] true
      (stateEncode Demo.env { Key.sectionState 0 Demo.emptySection with gen := 1 }) := by
  have hwiped : Reachable Demo.env (step Demo.env .wipe Demo.factory) :=
    Demo.reachable_factory.event .wipe trivial
  have hsec : Key.sectionOk Demo.emptySection = true := by decide
  have hlog : (step Demo.env (.restore Demo.emptySection) (step Demo.env .wipe Demo.factory)).log =
      [.restored (Key.sectionState 0 Demo.emptySection)] ++
        .saved true (stateEncode Demo.env
          { Key.sectionState 0 Demo.emptySection with gen := 1 }) :: [.wiped] := by
    show (Key.restore Demo.env Demo.emptySection (step Demo.env .wipe Demo.factory).hush).log = _
    rw [restore_eq Demo.emptySection rfl hsec]
    rfl
  exact ((last_save_survives Demo.env).2 _ hwiped (by decide)).2 (.restore Demo.emptySection)
    trivial _ _ _ _ hlog (List.suffix_refl _) (by decide)

end OkRn.Edge
