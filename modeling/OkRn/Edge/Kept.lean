/-
OkRn/Edge/Kept.lean

The record survives restarts and power cuts.

`Key.kept` is the record a key has, in RAM or in flash.  The two sectors are a
double buffer of it (`Trace.backed`): every save writes it, a cut-off save
leaves it, and a restart finds it again (`reboot_kept`), unless the generation
has just wrapped to 0 (`CleanBoots`).  Before the identity is known nothing is
live (`Trace.sane`).

* `Stored` is the double buffer over the flash, and `Saves` the moves that write it;
* `Sane` is what a key without a record may have: no identity, no budget, no start.
-/
import OkRn.Edge.Trace

namespace OkRn.Edge

variable {E : Env} {P : Label → Prop} {k m k' : Key} {l : Label}

/-! ### The double buffer -/

/-- The sectors hold the record. -/
def Stored (E : Env) (flash : Bool → Sector) (r : EdgeState) : Prop :=
  DoubleBuffer.Backed (stateDecode E) EdgeState.gen EdgeState.empty flash r

/-- A record that is loaded is the one in RAM. -/
theorem kept_of_loaded (h : k.loaded = true) : k.kept E = k.st := by
  rw [Key.kept, if_pos h]

/-- A save of the next generation. -/
theorem stored_save {r : EdgeState} {flash : Bool → Sector} (h : Stored E flash r)
    {r' : EdgeState} (hgen : r'.gen = r.gen + 1) :
    Stored E (Function.update flash (DoubleBuffer.side (r.gen + 1)) (stateEncode E r')) r' := by
  rw [← hgen]
  exact DoubleBuffer.Backed.write h rfl hgen (stateDecode_stateEncode E r')

/-- An erased flash stores the empty record. -/
theorem stored_erased : Stored E (fun _ => erased) EdgeState.empty :=
  Or.inr ⟨rfl, fun _ => stateDecode_erased E⟩

/-- A save that was cut off leaves the record there was. -/
theorem stored_tear {r : EdgeState} {flash : Bool → Sector} {torn : Option (Bool × Sector)}
    (h : Stored E flash r) (htorn : Torn E (DoubleBuffer.side (r.gen + 1)) torn) :
    Stored E (tear torn flash) r := by
  rcases htorn with rfl | ⟨junk, rfl, hjunk⟩
  · exact h
  · exact DoubleBuffer.Backed.torn h hjunk

/-- The record's generation reached 0 only from the start. -/
theorem unwrapped_of_clean {r : EdgeState} {flash : Bool → Sector} (h : Stored E flash r)
    (hclean : wrapped E flash = false) :
    DoubleBuffer.Unwrapped (stateDecode E) EdgeState.gen flash r := by
  intro hgen
  rcases h with ⟨hnew, hother⟩ | ⟨-, hblank⟩
  · rw [hgen, DoubleBuffer.side_zero] at hnew hother
    rcases hprev : stateDecode E (flash true) with - | r'
    · rfl
    · have hr' : r'.gen + 1 = 0 := hother r' hprev
      have hmax : r'.gen = 0xFFFFFFFF := by
        have : r'.gen = r'.gen + 1 - 1 := by simp
        rw [this, hr']
        rfl
      simp [wrapped, hnew, hprev, hgen, hmax] at hclean
  · exact hblank true

/-- A clean start reads the stored record. -/
theorem loadRecord_of_stored {r : EdgeState} {flash : Bool → Sector} (h : Stored E flash r)
    (hclean : wrapped E flash = false) : Key.loadRecord E flash = r :=
  DoubleBuffer.Backed.load_eq h (unwrapped_of_clean h hclean)

/-! ### The record over a trace -/

/-- A step without a link keeps the record. -/
theorem SameChain.kept (h : SameChain E k k') : k'.kept E = k.kept E := by
  rw [Key.kept, Key.kept, h.loaded, h.st, h.flash]

/-- The load gives the record of the flash. -/
theorem stateLoad_st (h : k.loaded = false) : (k.stateLoad E).st = k.kept E := by
  rw [Key.kept, h, Key.stateLoad, h]
  simp only [Bool.false_eq_true, if_false]
  split <;> rfl

theorem stateLoad_kept (E : Env) (k : Key) : (k.stateLoad E).kept E = k.kept E := by
  rcases h : k.loaded with - | -
  · rw [kept_of_loaded (stateLoad_loaded E k), stateLoad_st h]
  · rw [stateLoad_of_loaded h]

/-- What a save does to the record and the flash. -/
structure Saves (E : Env) (k k' : Key) : Prop where
  loaded : k.loaded = true
  loaded' : k'.loaded = true
  gen : k'.st.gen = k.st.gen + 1
  flash : k'.flash =
    Function.update k.flash (DoubleBuffer.side (k.st.gen + 1)) (stateEncode E k'.st)

/-- A save stores the record it writes. -/
theorem Saves.stored (h : Saves E k k') (hk : Stored E k.flash (k.kept E)) :
    Stored E k'.flash (k'.kept E) := by
  rw [kept_of_loaded h.loaded] at hk
  rw [kept_of_loaded h.loaded', h.flash]
  exact stored_save hk h.gen

theorem stateSave_saves (hload : k.loaded = true) : Saves E k (k.stateSave E) :=
  ⟨hload, hload, rfl, rfl⟩

theorem salted_saves (salt : Digest) (hload : k.loaded = true) : Saves E k (k.salted E salt) :=
  ⟨hload, hload, rfl, rfl⟩

theorem genesisSet_saves (id : Ident) (hload : k.loaded = true) :
    Saves E k (k.genesisSet E id) :=
  ⟨hload, hload, rfl, rfl⟩

theorem weldIn_saves (link : Link) (reveal : Option Digest) (hload : k.loaded = true) :
    Saves E k (k.weldIn E link reveal) :=
  ⟨hload, hload, weldIn_gen link reveal k, weldIn_flash link reveal k⟩

theorem continued_saves (id : Ident) (hload : k.loaded = true) :
    Saves E k (k.continued E id) := by
  obtain ⟨-, hload', hgen, hflash⟩ := weldIn_saves (E := E) (k.continueLink E) none
    (k := { k.continuing E id with nextIntent := none }) hload
  exact ⟨hload, hload', hgen, hflash⟩

/-- A restored record has the next generation. -/
theorem restored_st {s : EdgeState} (hs : s.gen = k.st.gen) :
    (k.restored E s).st = { s with gen := k.st.gen + 1 } := by
  rw [← hs]
  rfl

theorem restored_saves {s : EdgeState} (hs : s.gen = k.st.gen) (hload : k.loaded = true) :
    Saves E k (k.restored E s) := by
  refine ⟨hload, rfl, ?_, ?_⟩
  · rw [restored_st hs]
  · rw [← hs]
    rfl

/-- A move leaves the record alone, saves it, or wipes it. -/
theorem Move.cases_record (h : Move E l k k') :
    (k'.flash = k.flash ∧ k'.kept E = k.kept E) ∨ Saves E k k' ∨ k' = k.wipe := by
  cases h with
  | ram h => exact Or.inl ⟨h.sameChain.flash, h.sameChain.kept⟩
  | announce t buf =>
    refine Or.inl ?_
    rcases recvTxStart_cases t buf k with hstill | ⟨-, -, token, intent, htx⟩
    · exact ⟨hstill.flash, SameChain.kept hstill.sameChain⟩
    · rw [htx]
      exact ⟨rfl, rfl⟩
  | load _ => exact Or.inl ⟨stateLoad_flash E k, stateLoad_kept E k⟩
  | salt salt hload => exact Or.inr (Or.inl (salted_saves salt hload))
  | known => exact Or.inl ⟨rfl, rfl⟩
  | genesis hload => exact Or.inr (Or.inl (genesisSet_saves _ hload))
  | continued hload => exact Or.inr (Or.inl (continued_saves _ hload))
  | resave hload => exact Or.inr (Or.inl (stateSave_saves hload))
  | act hload =>
    rename_i link reveal budgets _ _
    obtain ⟨-, hload', hgen, hflash⟩ := weldIn_saves (E := E) link reveal
      (k := { k with budgets := budgets, nextIntent := none }) hload
    exact Or.inr (Or.inl ⟨hload, hload', hgen, hflash⟩)
  | restore sec hload hsec =>
    rw [restore_eq sec hload hsec]
    exact Or.inr (Or.inl (restored_saves (sectionState_gen _ _) hload))
  | wipe => exact Or.inr (Or.inr rfl)

/-- Every move leaves the record stored. -/
theorem Move.stored (h : Move E l k k') (hk : Stored E k.flash (k.kept E)) :
    Stored E k'.flash (k'.kept E) := by
  rcases h.cases_record with ⟨hflash, hkept⟩ | hsaves | rfl
  · rw [hflash, hkept]
    exact hk
  · exact hsaves.stored hk
  · exact stored_erased

theorem Move.suffix (h : Move E l k k') : k.log <:+ k'.log := h.writes.suffix

/-- The restarts of the earlier log were clean too. -/
theorem CleanBoots.of_suffix {log log' : List Entry} (h : CleanBoots log') (hs : log <:+ log') :
    CleanBoots log := fun e he => h e (hs.subset he)

theorem Short.of_suffix {log log' : List Entry} (h : Short log') (hs : log <:+ log') :
    Short log := fun e he => h e (hs.subset he)

/-- A restart with a save cut off finds the record. -/
theorem reboot_stored (core : Core) {torn : Option (Bool × Sector)} {log : List Entry}
    (hk : Stored E k.flash (k.kept E))
    (htorn : Torn E (DoubleBuffer.side ((k.kept E).gen + 1)) torn)
    (hclean : CleanBoots (reboot E torn k.flash core log).log) :
    Stored E (reboot E torn k.flash core log).flash ((reboot E torn k.flash core log).kept E) ∧
      (reboot E torn k.flash core log).kept E = k.kept E := by
  have hstored := stored_tear hk htorn
  have hwrapped : wrapped E (tear torn k.flash) = false := by
    have := hclean (.boot torn (!wrapped E (tear torn k.flash))) (by simp [reboot, Key.fresh])
    simpa [Entry.clean] using this
  have hload : (reboot E torn k.flash core log).kept E = k.kept E :=
    loadRecord_of_stored hstored hwrapped
  rw [hload]
  exact ⟨hstored, rfl⟩

/-- The sectors hold the record of every key a run of clean restarts reaches. -/
theorem Trace.stored (h : Trace E k) (hclean : CleanBoots k.log) :
    Stored E k.flash (k.kept E) := by
  induction h with
  | new core =>
    have hload : (Key.fresh (fun _ => erased) core []).kept E = EdgeState.empty :=
      DoubleBuffer.Backed.load_eq stored_erased fun _ => stateDecode_erased E
    rw [hload]
    exact stored_erased
  | move _ hmove ih => exact hmove.stored (ih (hclean.of_suffix hmove.suffix))
  | boot core _ htorn ih =>
    exact (reboot_stored core (ih (hclean.of_suffix ⟨[_], rfl⟩)) htorn hclean).1

/-- A restart finds the record the key had. -/
theorem reboot_kept (h : Trace E k) (core : Core) {torn : Option (Bool × Sector)}
    (htorn : Torn E (DoubleBuffer.side ((k.kept E).gen + 1)) torn)
    (hclean : CleanBoots (reboot E torn k.flash core k.log).log) :
    (reboot E torn k.flash core k.log).kept E = k.kept E :=
  (reboot_stored core (h.stored (hclean.of_suffix ⟨[_], rfl⟩)) htorn hclean).2

/-! ### Without an identity nothing is live -/

/-- The identity is known before a budget or a TX start exists; no intent is left over. -/
structure Sane (k : Key) : Prop where
  loaded : k.ident.isSome = true → k.loaded = true
  budgets : k.ident = none → k.budgets = fun _ => Budget.blank
  started : k.started = true → k.ident.isSome = true
  intent : k.nextIntent = none

/-- A step without a link keeps the key sane. -/
theorem SameChain.sane (h : SameChain E k k') (hk : Sane k) : Sane k' where
  loaded := by rw [h.ident, h.loaded]; exact hk.loaded
  budgets := by rw [h.ident, h.budgets]; exact hk.budgets
  started hs := by rw [h.ident]; exact hk.started (h.started hs)
  intent := by rw [h.nextIntent]; exact hk.intent

/-- The load of the record changes nothing else. -/
theorem stateLoad_frame (E : Env) (k : Key) :
    (k.stateLoad E).ident = k.ident ∧ (k.stateLoad E).budgets = k.budgets ∧
      (k.stateLoad E).started = k.started ∧ (k.stateLoad E).nextIntent = k.nextIntent := by
  unfold Key.stateLoad
  split
  · exact ⟨rfl, rfl, rfl, rfl⟩
  · dsimp only
    split <;> exact ⟨rfl, rfl, rfl, rfl⟩

/-- Every move keeps the key sane. -/
theorem Move.sane (h : Move E l k k') (hk : Sane k) : Sane k' := by
  -- loading and the moves that make an identity leave the rest of RAM blank
  cases h with
  | ram h => exact h.sameChain.sane hk
  | announce t buf hload hid =>
    rcases recvTxStart_cases t buf k with hstill | ⟨-, -, token, intent, htx⟩
    · exact SameChain.sane (E := E) hstill.sameChain hk
    · rw [htx]
      exact ⟨hk.loaded, hk.budgets, fun _ => hid, hk.intent⟩
  | load _ =>
    obtain ⟨hident, hbudgets, hstarted, hintent⟩ := stateLoad_frame E k
    refine ⟨fun _ => stateLoad_loaded E k, ?_, ?_, ?_⟩
    · rw [hident, hbudgets]
      exact hk.budgets
    · rw [hident, hstarted]
      exact hk.started
    · rw [hintent]
      exact hk.intent
  | salt salt hload => exact ⟨fun _ => hload, hk.budgets, hk.started, hk.intent⟩
  | known hload => exact ⟨fun _ => hload, fun h => (by cases h), fun _ => rfl, hk.intent⟩
  | genesis hload => exact ⟨fun _ => hload, fun h => (by cases h), fun _ => rfl, hk.intent⟩
  | continued hload => exact ⟨fun _ => hload, fun h => (by cases h), fun _ => rfl, rfl⟩
  | resave hload => exact ⟨hk.loaded, hk.budgets, hk.started, hk.intent⟩
  | act hload hid =>
    refine ⟨fun _ => hload, fun h => ?_, fun _ => hid, rfl⟩
    have hnone : k.ident = none := h
    rw [hnone] at hid
    cases hid
  | restore sec hload hsec =>
    rw [restore_eq sec hload hsec]
    exact ⟨fun _ => rfl, fun _ => rfl, fun h => (by cases h), hk.intent⟩
  | wipe => exact ⟨fun _ => rfl, fun _ => rfl, fun h => (by cases h), hk.intent⟩

theorem Trace.sane (h : Trace E k) : Sane k := by
  induction h with
  | new core => exact ⟨fun h => (by cases h), fun _ => rfl, fun h => (by cases h), rfl⟩
  | move _ hmove ih => exact hmove.sane ih
  | boot core _ _ _ => exact ⟨fun h => (by cases h), fun _ => rfl, fun h => (by cases h), rfl⟩

/-! ### Restores and wipes -/

/-- One entry more that is no reset. -/
theorem NoReset.cons {log : List Entry} {e : Entry} (h : NoReset log) (he : e.isReset = false) :
    NoReset (e :: log) := by
  intro e' he'
  rcases List.mem_cons.mp he' with rfl | he'
  · exact he
  · exact h e' he'

/-- A step without a link is no reset. -/
theorem SameChain.noReset (h : SameChain E k k') (hk : NoReset k.log) : NoReset k'.log := by
  obtain ⟨seg, hlog, hseg⟩ := h.log
  rw [hlog]
  intro e he
  rcases List.mem_append.mp he with he | he
  · have hsilent := hseg e he
    cases e <;> simp_all [Entry.silent, Entry.isReset]
  · exact hk e he

/-- Only a restore and a wipe write such an entry. -/
theorem Move.noReset (h : Move E l k k') (hr : l ≠ .restore) (hw : l ≠ .wipe)
    (hk : NoReset k.log) : NoReset k'.log := by
  cases h with
  | ram h => exact h.sameChain.noReset hk
  | announce t buf =>
    rcases recvTxStart_cases t buf k with hstill | ⟨-, -, token, intent, htx⟩
    · exact SameChain.noReset (E := E) hstill.sameChain hk
    · rw [htx]
      exact hk.cons rfl
  | load _ =>
    rw [stateLoad_log]
    exact hk
  | salt salt => exact NoReset.cons (hk.cons rfl) rfl
  | known => exact hk
  | genesis => exact hk.cons rfl
  | continued =>
    rw [continued_log]
    exact NoReset.cons (hk.cons rfl) rfl
  | resave => exact hk.cons rfl
  | act =>
    rw [weldIn_log]
    exact NoReset.cons (hk.cons rfl) rfl
  | restore => exact absurd rfl hr
  | wipe => exact absurd rfl hw

/-- Moves other than a restore and a wipe are none. -/
theorem Moves.noReset (h : Moves E (fun l => l ≠ .restore ∧ l ≠ .wipe) k k')
    (hk : NoReset k.log) : NoReset k'.log := by
  induction h with
  | refl => exact hk
  | tail _ hl hmove ih => exact hmove.noReset hl.1 hl.2 ih

/-- So an event is none unless it may restore or wipe. -/
theorem step_noReset (e : Event) (hvalid : e.Valid k)
    (hl : ∀ l ∈ e.labels k, l ≠ .restore ∧ l ≠ .wipe) (hk : NoReset k.log) :
    NoReset (step E e k).log := by
  by_cases he : e = .restart
  · subst he
    exact hk.cons rfl
  · have hmoves : Moves E (fun l => l ≠ .restore ∧ l ≠ .wipe) k (step E e k) :=
      step_moves e he hvalid hl
    exact hmoves.noReset hk

end OkRn.Edge
