/-
OkRn/Edge/Erased.lean

A wipe that is cut off.

`okplugin_edge_wipe` erases sector A, then sector B, and the power may go at any
point of it.  Sector A may be the one that holds the newest record; B then still
holds the record before, with the same salt, and the next start goes on from there.

`CutWipe` is the sectors at every point of a wipe, and `WipesClean` says what a
start may read then.  Main result: `cut_wipe_is_clean_iff`.

The condition is on sector B: it holds no record, or the newest one, when the wipe
begins; then a cut leaves the record or nothing, and never the one before it.
-/
import OkRn.Edge.Pickup
import OkRn.Edge.Saved

namespace OkRn.Edge

variable {E : Env}

/-- What a sector may hold when its erase was cut off: what it held, or nothing readable. -/
def HalfErased (E : Env) (before cell : Sector) : Prop :=
  cell = before ∨ stateDecode E cell = none

/-- The sectors when a wipe was cut off, in the erase of the first or of the second. -/
inductive CutWipe (E : Env) (flash : Bool → Sector) : (Bool → Sector) → Prop
  | first (cell : Sector) (h : HalfErased E (flash false) cell) :
      CutWipe E flash (Function.update flash false cell)
  | second (cell : Sector) (h : HalfErased E (flash true) cell) :
      CutWipe E flash (Function.update (Function.update flash false erased) true cell)

theorem cutWipe_begun (E : Env) (flash : Bool → Sector) : CutWipe E flash flash := by
  have h : CutWipe E flash (Function.update flash false (flash false)) := .first _ (Or.inl rfl)
  rwa [Function.update_eq_self] at h

/-- Sector A is erased and B is not. -/
theorem cutWipe_between (E : Env) (flash : Bool → Sector) :
    CutWipe E flash (Function.update flash false erased) :=
  .first erased (Or.inr (stateDecode_erased E))

theorem cutWipe_done (E : Env) (k : Key) : CutWipe E k.flash k.wipe.flash := by
  have h : CutWipe E k.flash (Function.update (Function.update k.flash false erased) true erased) :=
    .second erased (Or.inr (stateDecode_erased E))
  have hflash : k.wipe.flash =
      Function.update (Function.update k.flash false erased) true erased := by
    funext side
    cases side <;> simp [Key.wipe, Key.push]
  rwa [hflash]

/-- Wherever a wipe is cut off, a start reads the record it would have read before it or an empty
chain, and never an older record of the same salt. -/
structure WipesClean (E : Env) (flash : Bool → Sector) : Prop where
  read : ∀ cut, CutWipe E flash cut →
    Key.loadRecord E cut = Key.loadRecord E flash ∨ Key.loadRecord E cut = EdgeState.empty
  salt : ∀ cut, CutWipe E flash cut → (Key.loadRecord E cut).salted = true →
    (Key.loadRecord E cut).salt = (Key.loadRecord E flash).salt →
      Key.loadRecord E cut = Key.loadRecord E flash

/-- Sector B holds no readable record but the one a start reads. -/
def OnlyNewest (E : Env) (flash : Bool → Sector) : Prop :=
  ∀ r, stateDecode E (flash true) = some r →
    r = Key.loadRecord E flash ∨ r = EdgeState.empty

/-- With A unreadable a start reads B. -/
theorem load_second {flash : Bool → Sector} (h : stateDecode E (flash false) = none) :
    Key.loadRecord E flash = (stateDecode E (flash true)).getD EdgeState.empty := by
  unfold Key.loadRecord DoubleBuffer.load
  rw [h]
  cases stateDecode E (flash true) <;> rfl

/-- Sector B holds the newest record, or none. -/
theorem OnlyNewest.second {flash : Bool → Sector} (h : OnlyNewest E flash) :
    (stateDecode E (flash true)).getD EdgeState.empty = Key.loadRecord E flash ∨
      (stateDecode E (flash true)).getD EdgeState.empty = EdgeState.empty := by
  rcases hr : stateDecode E (flash true) with - | r
  · exact Or.inr rfl
  · exact h r hr

/-- A start after a cut wipe reads the newest record, or none. -/
theorem OnlyNewest.read {flash cut : Bool → Sector} (h : OnlyNewest E flash)
    (hcut : CutWipe E flash cut) :
    Key.loadRecord E cut = Key.loadRecord E flash ∨ Key.loadRecord E cut = EdgeState.empty := by
  cases hcut with
  | first cell hcell =>
    rcases hcell with rfl | hjunk
    · rw [Function.update_eq_self]
      exact Or.inl rfl
    · have hfirst : stateDecode E (Function.update flash false cell false) = none := by
        rw [Function.update_self]
        exact hjunk
      have hcut := load_second hfirst
      rw [Function.update_of_ne (by decide)] at hcut
      rw [hcut]
      exact h.second
  | second cell hcell =>
    have hfirst : stateDecode E
        (Function.update (Function.update flash false erased) true cell false) = none := by
      rw [Function.update_of_ne (by decide), Function.update_self]
      exact stateDecode_erased E
    have hcut := load_second hfirst
    rw [Function.update_self] at hcut
    rw [hcut]
    rcases hcell with rfl | hjunk
    · exact h.second
    · rw [hjunk]
      exact Or.inr rfl

/-- A wipe can be cut off anywhere exactly when sector B holds nothing readable but the record a
start reads. -/
theorem cut_wipe_is_clean_iff (E : Env) (k : Key) :
    WipesClean E k.flash ↔ OnlyNewest E k.flash := by
  constructor
  · intro h r hr
    have hread := h.read _ (cutWipe_between E k.flash)
    rw [load_second (by rw [Function.update_self]; exact stateDecode_erased E),
      Function.update_of_ne (by decide), hr] at hread
    exact hread
  · intro h
    refine ⟨fun cut hcut => h.read hcut, fun cut hcut hsalted _ => ?_⟩
    rcases h.read hcut with hread | hread
    · exact hread
    · rw [hread] at hsalted
      cases hsalted

/-- Below 2^32 saves this is a question of the generation alone: the newest record is in B when its
generation is odd. -/
theorem onlyNewest_of_odd {k : Key} (h : Reachable E k) (hfew : savesIn k.log < 2 ^ 32)
    (hodd : DoubleBuffer.side (k.kept E).gen = true) : OnlyNewest E k.flash := by
  have hcounted := h.trace.counted hfew
  intro r hr
  rw [hcounted.load_eq]
  rcases hcounted.stored with ⟨hnewest, -⟩ | ⟨-, hblank⟩
  · rw [hodd, hr] at hnewest
    exact Or.inl (Option.some.inj hnewest)
  · rw [hblank] at hr
    cases hr

/-- A wipe cut off between the two sectors: the next start goes on one link before the last, with
the same salt. -/
theorem cut_wipe_goes_back_one_link :
    Reachable Demo.env Demo.usedOnce ∧ ¬ WipesClean Demo.env Demo.usedOnce.flash ∧
      (Key.loadRecord Demo.env Demo.usedOnce.flash).seq = 1 ∧
      (Key.loadRecord Demo.env (Function.update Demo.usedOnce.flash false erased)).seq = 0 := by
  have hbefore : (Key.loadRecord Demo.env Demo.usedOnce.flash).seq = 1 := by decide +kernel
  have hafter : (Key.loadRecord Demo.env
      (Function.update Demo.usedOnce.flash false erased)).seq = 0 := by decide +kernel
  refine ⟨Demo.reachable_usedOnce, fun h => ?_, hbefore, hafter⟩
  rcases h.read _ (cutWipe_between Demo.env Demo.usedOnce.flash) with hread | hread
  · rw [hread, hbefore] at hafter
    exact absurd hafter (by decide)
  · rw [hread] at hafter
    exact absurd hafter (by decide)

end OkRn.Edge
