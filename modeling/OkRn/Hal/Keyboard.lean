/-
OkRn/Hal/Keyboard.lean

The emulated USB keyboard: the keys the firmware holds, and the reports the host gets.

A report is the whole state of the keyboard: the modifiers and up to six keys.  The
firmware presses and releases keys one by one (`UsbKeyboard.press`), or types a character
as a press and a release of its own.  `host_sees_the_keyboard` says that after any run
of calls the host's last report is the keyboard as it is, and `no_key_is_stuck` that
nothing is down then but what was pressed and not released since.

A character is looked up in the layout's tables, which a file of the firmware fills.
On some layouts it takes two strokes, the accent and then the letter; what the host
reads of a text is `typed_text_is_struck`.

* `Shown` says that the last report sent is the keyboard, and `Down` that a key or a
  modifier is down; each call has its lemma, and the runs follow;
* `struck` reads the strokes off a list of reports, as a host does.
-/
import OkRn.Keyboard.Text
import Mathlib

namespace OkRn.Hal

open OkRn.Keyboard (Report keysDown)

/-! ### Layouts -/

/-- What `keylayouts.c` and its header give: the tables, the masks of the bits that stand for
modifiers, and the accents with their dead keys, in the order they are tried. -/
structure KeyLayout where
  keycodesAscii : Nat → UInt16
  keycodesIso88591 : Nat → UInt16
  keyEnter : UInt16
  keyTab : UInt16
  shiftMask : UInt16
  altgrMask : UInt16
  rctrlMask : UInt16
  modifierkeyShift : UInt8
  modifierkeyRightAlt : UInt8
  modifierkeyRightCtrl : UInt8
  keyNonUs100 : UInt16
  deadkeysMask : UInt16
  accents : List (UInt16 × UInt16)

namespace KeyLayout

variable (l : KeyLayout)

/-- `unicode_to_keycode`. -/
def unicodeToKeycode (cpoint : UInt16) : UInt16 :=
  if cpoint < 32 then
    if cpoint = 10 then l.keyEnter &&& 0x3FFF
    else if cpoint = 11 then l.keyTab &&& 0x3FFF
    else 0
  else if cpoint < 128 then l.keycodesAscii (cpoint.toNat - 0x20)
  else if 0xA0 ≤ cpoint ∧ cpoint < 0x100 then l.keycodesIso88591 (cpoint.toNat - 0xA0)
  else 0

/-- `keycode_to_modifier`. -/
def keycodeToModifier (keycode : UInt16) : UInt8 :=
  (if l.shiftMask ≠ 0 ∧ keycode &&& l.shiftMask ≠ 0 then l.modifierkeyShift else 0) |||
  (if l.altgrMask ≠ 0 ∧ keycode &&& l.altgrMask ≠ 0 then l.modifierkeyRightAlt else 0) |||
  (if l.rctrlMask ≠ 0 ∧ keycode &&& l.rctrlMask ≠ 0 then l.modifierkeyRightCtrl else 0)

/-- The dead key a character needs typed before it, or 0. -/
def deadkeyFor (keycode : UInt16) : UInt16 :=
  let bits := keycode &&& l.deadkeysMask
  if bits = 0 then 0
  else match l.accents.find? fun accent => accent.1 ≠ 0 ∧ bits = accent.1 with
    | some accent => accent.2
    | none => 0

/-- `keycode_to_key`. -/
def keycodeToKey (keycode : UInt16) : UInt8 :=
  let key := keycode &&& 0x3F
  if l.keyNonUs100 ≠ 0 ∧ key = l.keyNonUs100 then 100 else key.toUInt8

end KeyLayout

/-! ### The keyboard -/

/-- The keyboard's state, and every report it sent. -/
structure UsbKeyboard where
  modifierKeys : UInt8 := 0
  mediaKeys : UInt8 := 0
  keys : Fin 6 → UInt8 := fun _ => 0
  sent : List Report := []

namespace UsbKeyboard

variable (k : UsbKeyboard)

/-- The report of the keyboard as it is. -/
def report : Report := k.modifierKeys :: 0 :: List.ofFn k.keys

/-- The report is sent. -/
def send : UsbKeyboard := { k with sent := k.sent ++ [k.report] }

/-- It is sent if it has to be. -/
def sendIf (required : Bool) : UsbKeyboard := if required then k.send else k

/-- The key is down. -/
def holds (key : UInt8) : Bool := (List.finRange 6).any fun i => k.keys i = key

/-- A place for one more key. -/
def free : Option (Fin 6) := (List.finRange 6).find? fun i => k.keys i = 0

/-- The modifiers after some are pressed, and whether that changes them. -/
def addModifier (held modifier : UInt8) : UInt8 × Bool :=
  if modifier ≠ 0 ∧ held &&& modifier ≠ modifier then (held ||| modifier, true) else (held, false)

/-- Modifiers come up: what is held then, and whether a report is due. -/
def dropModifier (held modifier : UInt8) : UInt8 × Bool :=
  if modifier ≠ 0 ∧ held &&& modifier ≠ 0 then (held &&& ~~~modifier, true) else (held, false)

/-- `presskey`. -/
def pressKey (key modifier : UInt8) : UsbKeyboard :=
  let added := addModifier k.modifierKeys modifier
  let k := { k with modifierKeys := added.1 }
  if key = 0 ∨ k.holds key = true then k.sendIf added.2
  else match k.free with
    | some i => { k with keys := Function.update k.keys i key }.send
    -- six keys are down already
    | none => k.sendIf added.2

/-- `releasekey`. -/
def releaseKey (key modifier : UInt8) : UsbKeyboard :=
  let dropped := dropModifier k.modifierKeys modifier
  let k := { k with modifierKeys := dropped.1 }
  if key ≠ 0 ∧ k.holds key = true then
    { k with keys := fun i => if k.keys i = key then 0 else k.keys i }.send
  else k.sendIf dropped.2

/-- `usb_keyboard_press`: one stroke, in the first place. -/
def press (key modifier : UInt8) : UsbKeyboard :=
  let down := { k with modifierKeys := modifier, keys := Function.update k.keys 0 key }.send
  { down with modifierKeys := 0, keys := Function.update down.keys 0 0 }.send

/-- A key or a modifier that is given by its number, in either header's encoding. -/
def rawKey (msb : UInt8) (n : UInt16) : Option (UInt8 × UInt8) :=
  if msb = 0x80 ∨ msb = 0xE0 then some (0, n.toUInt8)
  else if msb = 0x40 ∨ msb = 0xF0 then some (n.toUInt8, 0)
  else none

/-- What `usb_keyboard_press_keycode` takes its argument for. -/
inductive Meaning
  | raw (key modifier : UInt8)
  | character (cpoint : UInt16)

/-- What a keycode of the caller means. -/
def meaning (n : UInt16) : Meaning :=
  let msb := (n >>> 8).toUInt8
  if 0xC2 ≤ msb ∧ msb ≤ 0xDF then
    -- the two bytes of a UTF-8 character
    .character ((n &&& (0x3F : UInt16)) ||| ((msb &&& 0x1F).toUInt16 <<< 6))
  else match rawKey msb n with
    | some (key, modifier) => .raw key modifier
    | none => .character n

/-- `press`. -/
def pressKeycode (l : KeyLayout) (n : UInt16) : UsbKeyboard :=
  match meaning n with
  | .raw key modifier => k.pressKey key modifier
  | .character cpoint =>
    let keycode := l.unicodeToKeycode cpoint
    if keycode = 0 then k
    else
      let dead := l.deadkeyFor keycode
      if dead = 0 then k.pressKey (l.keycodeToKey keycode) (l.keycodeToModifier keycode)
      else
        -- the accent is struck without the modifiers, which come back with the letter
        let modrestore := k.modifierKeys
        let k := if modrestore ≠ 0 then { k with modifierKeys := 0 }.send else k
        let dkey := l.keycodeToKey dead
        let dmod := l.keycodeToModifier dead
        ((k.pressKey dkey dmod).releaseKey dkey dmod).pressKey (l.keycodeToKey keycode)
          (l.keycodeToModifier keycode ||| modrestore)

/-- `release`. -/
def releaseKeycode (l : KeyLayout) (n : UInt16) : UsbKeyboard :=
  match meaning n with
  | .raw key modifier => k.releaseKey key modifier
  | .character cpoint =>
    let keycode := l.unicodeToKeycode cpoint
    if keycode = 0 then k
    else k.releaseKey (l.keycodeToKey keycode) (l.keycodeToModifier keycode)

/-- `releaseAll`. -/
def releaseAllKeys : UsbKeyboard :=
  let anybits := k.modifierKeys != 0 || k.mediaKeys != 0 ||
    (List.finRange 6).any fun i => k.keys i != 0
  { k with modifierKeys := 0, mediaKeys := 0, keys := fun _ => 0 }.sendIf anybits

/-- `usb_keyboard_write_unicode`: one character, preceded by its dead key. -/
def writeUnicode (l : KeyLayout) (cpoint : UInt16) : UsbKeyboard :=
  let keycode := l.unicodeToKeycode cpoint
  if keycode = 0 then k
  else
    let dead := l.deadkeyFor keycode
    let k := if dead ≠ 0 then k.press (l.keycodeToKey dead) (l.keycodeToModifier dead) else k
    k.press (l.keycodeToKey keycode) (l.keycodeToModifier keycode)

/-- The keys that are down. -/
def Down (key : UInt8) : Prop := key ≠ 0 ∧ ∃ i, k.keys i = key

end UsbKeyboard

/-! ### Calls -/

/-- A call of the firmware. -/
inductive KeyCall
  | press (key modifier : UInt8)
  | pressKeycode (n : UInt16)
  | releaseKeycode (n : UInt16)
  | releaseAll
  | write (cpoint : UInt16)

namespace KeyCall

open UsbKeyboard

/-- What a call does. -/
def apply (l : KeyLayout) (k : UsbKeyboard) : KeyCall → UsbKeyboard
  | .press key modifier => k.press key modifier
  | .pressKeycode n => k.pressKeycode l n
  | .releaseKeycode n => k.releaseKeycode l n
  | .releaseAll => k.releaseAllKeys
  | .write cpoint => k.writeUnicode l cpoint

/-- The keyboard after a run of calls. -/
def run (l : KeyLayout) (cs : List KeyCall) (k : UsbKeyboard) : UsbKeyboard := cs.foldl (apply l) k

/-- The key and the modifiers of a keycode, if it is on the layout. -/
def stroke (l : KeyLayout) (n : UInt16) : Option (UInt8 × UInt8) :=
  match meaning n with
  | .raw key modifier => some (key, modifier)
  | .character cpoint =>
    let keycode := l.unicodeToKeycode cpoint
    if keycode = 0 then none else some (l.keycodeToKey keycode, l.keycodeToModifier keycode)

/-- The call leaves a key down. -/
def Presses (l : KeyLayout) (key : UInt8) : KeyCall → Prop
  | .pressKeycode n => ∃ modifier, stroke l n = some (key, modifier)
  | _ => False

/-- The call releases the key. -/
def Releases (l : KeyLayout) (key : UInt8) : KeyCall → Prop
  | .releaseKeycode n => ∃ modifier, stroke l n = some (key, modifier)
  | .releaseAll => True
  | _ => False

/-- The call leaves some of these modifiers down. -/
def PressesMods (l : KeyLayout) (mods : UInt8) : KeyCall → Prop
  | .pressKeycode n => ∃ key modifier, stroke l n = some (key, modifier) ∧ modifier &&& mods ≠ 0
  | _ => False

/-- The call leaves none of these modifiers down. -/
def ReleasesMods (l : KeyLayout) (mods : UInt8) : KeyCall → Prop
  | .releaseKeycode n =>
    ∃ key modifier, stroke l n = some (key, modifier) ∧ modifier &&& mods = mods
  | .releaseAll | .press .. => True
  | .pressKeycode _ => False
  | .write cpoint => l.unicodeToKeycode cpoint ≠ 0

end KeyCall

/-! ### Modifiers -/

section Modifiers

open UsbKeyboard

variable {held modifier : UInt8}

/-- Modifiers that are held change nothing. -/
theorem or_eq_of_and (h : held &&& modifier = modifier) : held ||| modifier = held := by
  rw [← h, ← UInt8.toBitVec_inj]
  ext i hi
  simp only [UInt8.toBitVec_or, UInt8.toBitVec_and, BitVec.getElem_or, BitVec.getElem_and]
  cases held.toBitVec[i] <;> simp

/-- Nor do those that are not, when they come up. -/
theorem and_not_of_and (h : held &&& modifier = 0) : held &&& ~~~modifier = held := by
  have hbits := congrArg UInt8.toBitVec h
  rw [← UInt8.toBitVec_inj]
  ext i hi
  have hbit := congrArg (fun v : BitVec 8 => v[i]) hbits
  simp only [UInt8.toBitVec_and, BitVec.getElem_and] at hbit
  simp only [UInt8.toBitVec_and, UInt8.toBitVec_not, BitVec.getElem_and, BitVec.getElem_not]
  revert hbit
  cases held.toBitVec[i] <;> cases modifier.toBitVec[i] <;> simp

/-- The modifiers after a press. -/
theorem addModifier_fst (held modifier : UInt8) :
    (addModifier held modifier).1 = held ||| modifier := by
  unfold addModifier
  split
  · rfl
  · rename_i h
    by_cases hzero : modifier = 0
    · rw [hzero]
      exact UInt8.or_zero.symm
    · exact (or_eq_of_and (by_contra fun hne => h ⟨hzero, hne⟩)).symm

/-- Without a report they are as they were. -/
theorem addModifier_unchanged (h : (addModifier held modifier).2 = false) :
    (addModifier held modifier).1 = held := by
  unfold addModifier at h ⊢
  split at h
  · cases h
  · rename_i hif
    rw [if_neg hif]

/-- The modifiers after a release. -/
theorem dropModifier_fst (held modifier : UInt8) :
    (dropModifier held modifier).1 = held &&& ~~~modifier := by
  unfold dropModifier
  split
  · rfl
  · rename_i h
    by_cases hzero : modifier = 0
    · rw [hzero]
      exact (and_not_of_and UInt8.and_zero).symm
    · exact (and_not_of_and (by_contra fun hne => h ⟨hzero, hne⟩)).symm

/-- Without a report they are as they were. -/
theorem dropModifier_unchanged (h : (dropModifier held modifier).2 = false) :
    (dropModifier held modifier).1 = held := by
  unfold dropModifier at h ⊢
  split at h
  · cases h
  · rename_i hif
    rw [if_neg hif]

end Modifiers

/-! ### What the host sees -/

section Shown

open UsbKeyboard

variable {k k' k'' : UsbKeyboard}

/-- Whatever changed was sent. -/
def Shown (k k' : UsbKeyboard) : Prop :=
  (k'.sent = k.sent ∧ k'.report = k.report) ∨ ∃ rs, k'.sent = k.sent ++ rs ++ [k'.report]

theorem Shown.refl (k : UsbKeyboard) : Shown k k := .inl ⟨rfl, rfl⟩

theorem Shown.trans (h : Shown k k') (h' : Shown k' k'') : Shown k k'' := by
  rcases h' with ⟨hsent', hreport'⟩ | ⟨rs', hsent'⟩
  · rcases h with ⟨hsent, hreport⟩ | ⟨rs, hsent⟩
    · exact .inl ⟨hsent'.trans hsent, hreport'.trans hreport⟩
    · exact .inr ⟨rs, by rw [hsent', hsent, hreport']⟩
  · rcases h with ⟨hsent, -⟩ | ⟨rs, hsent⟩
    · exact .inr ⟨rs', by rw [hsent', hsent]⟩
    · exact .inr ⟨rs ++ [k'.report] ++ rs', by rw [hsent', hsent]; simp only [List.append_assoc]⟩

theorem shown_send (h : k'.sent = k.sent) : Shown k k'.send := by
  refine .inr ⟨[], ?_⟩
  show k'.sent ++ [k'.report] = _
  rw [h, List.append_nil]
  rfl

theorem shown_sendIf {required : Bool} (h : k'.sent = k.sent)
    (hreport : required = false → k'.report = k.report) : Shown k (k'.sendIf required) := by
  cases required with
  | false => exact .inl ⟨h, hreport rfl⟩
  | true => exact shown_send h

theorem shown_pressKey (k : UsbKeyboard) (key modifier : UInt8) :
    Shown k (k.pressKey key modifier) := by
  have hsame (h : (addModifier k.modifierKeys modifier).2 = false) :
      ({ k with modifierKeys := (addModifier k.modifierKeys modifier).1 } : UsbKeyboard).report =
        k.report := by
    simp only [report, addModifier_unchanged h]
  simp only [pressKey]
  split
  · exact shown_sendIf rfl hsame
  · split
    · exact shown_send rfl
    · exact shown_sendIf rfl hsame

theorem shown_releaseKey (k : UsbKeyboard) (key modifier : UInt8) :
    Shown k (k.releaseKey key modifier) := by
  have hsame (h : (dropModifier k.modifierKeys modifier).2 = false) :
      ({ k with modifierKeys := (dropModifier k.modifierKeys modifier).1 } : UsbKeyboard).report =
        k.report := by
    simp only [report, dropModifier_unchanged h]
  simp only [releaseKey]
  split
  · exact shown_send rfl
  · exact shown_sendIf rfl hsame

theorem shown_press (k : UsbKeyboard) (key modifier : UInt8) : Shown k (k.press key modifier) :=
  .inr ⟨[_], rfl⟩

theorem shown_releaseAllKeys (k : UsbKeyboard) : Shown k k.releaseAllKeys := by
  refine shown_sendIf rfl fun h => ?_
  simp only [Bool.or_eq_false_iff, bne_eq_false_iff_eq, List.any_eq_false, List.mem_finRange,
    bne_iff_ne, ne_eq, not_not, true_implies] at h
  simp only [report, h.1.1]
  congr 3
  funext i
  exact (h.2 i).symm

theorem shown_apply (l : KeyLayout) (k : UsbKeyboard) (c : KeyCall) : Shown k (c.apply l k) := by
  -- every change of the keys or modifiers sends a report before the call ends
  cases c with
  | press key modifier => exact shown_press k key modifier
  | pressKeycode n =>
    simp only [KeyCall.apply, pressKeycode]
    split
    · exact shown_pressKey k _ _
    · split
      · exact .refl k
      · split
        · exact shown_pressKey k _ _
        · refine Shown.trans ?_ (((shown_pressKey _ _ _).trans (shown_releaseKey _ _ _)).trans
            (shown_pressKey _ _ _))
          split
          · exact shown_send rfl
          · exact .refl k
  | releaseKeycode n =>
    simp only [KeyCall.apply, releaseKeycode]
    split
    · exact shown_releaseKey k _ _
    · split
      · exact .refl k
      · exact shown_releaseKey k _ _
  | releaseAll => exact shown_releaseAllKeys k
  | write cpoint =>
    simp only [KeyCall.apply, writeUnicode]
    split
    · exact .refl k
    · split
      · exact (shown_press k _ _).trans (shown_press _ _ _)
      · exact shown_press k _ _

/-- The last report is the keyboard as it is. -/
theorem Shown.last (h : Shown k k') (hlast : k.sent.getLastD (List.replicate 8 0) = k.report) :
    k'.sent.getLastD (List.replicate 8 0) = k'.report := by
  rcases h with ⟨hsent, hreport⟩ | ⟨rs, hsent⟩
  · rw [hsent, hreport, hlast]
  · rw [hsent, List.getLastD_eq_getLast?, List.getLast?_append]
    rfl

end Shown

/-! ### What is down -/

section Down

open UsbKeyboard

variable {k : UsbKeyboard} {l : KeyLayout} {key other modifier mods : UInt8}

/-- No key is down twice. -/
def Distinct (k : UsbKeyboard) : Prop := ∀ i j, k.keys i = k.keys j → k.keys i ≠ 0 → i = j

theorem holds_iff (k : UsbKeyboard) (key : UInt8) : k.holds key = true ↔ ∃ i, k.keys i = key := by
  simp [holds]

theorem free_spec {i : Fin 6} (h : k.free = some i) : k.keys i = 0 := by
  simpa using List.find?_some h

/-- The keys after one is pressed. -/
theorem pressKey_keys (k : UsbKeyboard) (key modifier : UInt8) :
    (k.pressKey key modifier).keys = k.keys ∨
      key ≠ 0 ∧ (∀ i, k.keys i ≠ key) ∧ ∃ i, k.keys i = 0 ∧
        (k.pressKey key modifier).keys = Function.update k.keys i key := by
  simp only [pressKey]
  split
  · rename_i h
    unfold sendIf
    split <;> exact .inl rfl
  · rename_i h
    rw [not_or, holds_iff, not_exists] at h
    split
    · rename_i i hfree
      exact .inr ⟨h.1, h.2, i, free_spec hfree, rfl⟩
    · unfold sendIf
      split <;> exact .inl rfl

theorem releaseKey_keys (k : UsbKeyboard) (key modifier : UInt8) :
    (k.releaseKey key modifier).keys = fun i => if k.keys i = key then 0 else k.keys i := by
  simp only [releaseKey]
  split
  · rfl
  · rename_i h
    have hkeep : k.keys = fun i => if k.keys i = key then 0 else k.keys i := by
      funext i
      split
      · rename_i hi
        rw [hi]
        by_contra hkey
        exact h ⟨hkey, (holds_iff _ _).mpr ⟨i, hi⟩⟩
      · rfl
    unfold sendIf
    split <;> exact hkeep

/-- The modifiers after a press. -/
theorem pressKey_modifiers (k : UsbKeyboard) (key modifier : UInt8) :
    (k.pressKey key modifier).modifierKeys = k.modifierKeys ||| modifier := by
  rw [← addModifier_fst]
  simp only [pressKey]
  split
  · unfold sendIf
    split <;> rfl
  · split
    · rfl
    · unfold sendIf
      split <;> rfl

/-- The modifiers after a release. -/
theorem releaseKey_modifiers (k : UsbKeyboard) (key modifier : UInt8) :
    (k.releaseKey key modifier).modifierKeys = k.modifierKeys &&& ~~~modifier := by
  rw [← dropModifier_fst]
  simp only [releaseKey]
  split
  · rfl
  · unfold sendIf
    split <;> rfl

/-- A press puts no key down twice. -/
theorem Distinct.pressKey (h : Distinct k) (key modifier : UInt8) :
    Distinct (k.pressKey key modifier) := by
  rcases pressKey_keys k key modifier with hkeys | ⟨-, hnew, n, -, hkeys⟩
  · rw [Distinct, hkeys]
    exact h
  · rw [Distinct, hkeys]
    intro i j heq hne
    rcases eq_or_ne i n with rfl | hi
    · rcases eq_or_ne j i with rfl | hj
      · rfl
      · rw [Function.update_self, Function.update_of_ne hj] at heq
        exact absurd heq.symm (hnew j)
    · rw [Function.update_of_ne hi] at heq hne
      rcases eq_or_ne j n with rfl | hj
      · rw [Function.update_self] at heq
        exact absurd heq (hnew i)
      · rw [Function.update_of_ne hj] at heq
        exact h i j heq hne

theorem Distinct.releaseKey (h : Distinct k) (key modifier : UInt8) :
    Distinct (k.releaseKey key modifier) := by
  rw [Distinct, releaseKey_keys]
  intro i j heq hne
  simp only at heq hne
  split at hne
  · exact absurd rfl hne
  · rename_i hi
    rw [if_neg hi] at heq
    split at heq
    · exact absurd heq hne
    · exact h i j heq hne

/-- After a stroke the first place is free. -/
theorem press_keys (k : UsbKeyboard) (key modifier : UInt8) :
    (k.press key modifier).keys = Function.update k.keys 0 0 := by
  show Function.update (Function.update k.keys 0 key) 0 0 = _
  rw [Function.update_idem]

/-- A stroke puts no key down twice. -/
theorem Distinct.press (h : Distinct k) (key modifier : UInt8) :
    Distinct (k.press key modifier) := by
  rw [Distinct, press_keys]
  intro i j heq hne
  have hi : i ≠ 0 := fun hzero => hne (by rw [hzero, Function.update_self])
  rw [Function.update_of_ne hi] at heq hne
  have hj : j ≠ 0 := fun hzero => hne (by rw [heq, hzero, Function.update_self])
  rw [Function.update_of_ne hj] at heq
  exact h i j heq hne

theorem releaseAllKeys_keys (k : UsbKeyboard) : k.releaseAllKeys.keys = fun _ => 0 := by
  simp only [releaseAllKeys, sendIf]
  split <;> rfl

theorem releaseAllKeys_modifiers (k : UsbKeyboard) : k.releaseAllKeys.modifierKeys = 0 := by
  simp only [releaseAllKeys, sendIf]
  split <;> rfl

/-- No call puts a key down twice. -/
theorem Distinct.apply (h : Distinct k) (c : KeyCall) : Distinct (c.apply l k) := by
  -- a key that is down already is not put down a second time
  cases c with
  | press key modifier => exact h.press key modifier
  | pressKeycode n =>
    simp only [KeyCall.apply, pressKeycode]
    split
    · exact h.pressKey _ _
    · split
      · exact h
      · split
        · exact h.pressKey _ _
        · refine Distinct.pressKey (Distinct.releaseKey (Distinct.pressKey ?_ _ _) _ _) _ _
          split
          · exact h
          · exact h
  | releaseKeycode n =>
    simp only [KeyCall.apply, releaseKeycode]
    split
    · exact h.releaseKey _ _
    · split
      · exact h
      · exact h.releaseKey _ _
  | releaseAll =>
    intro i j _ hne
    rw [show (KeyCall.apply l k .releaseAll).keys = _ from releaseAllKeys_keys k] at hne
    exact absurd rfl hne
  | write cpoint =>
    simp only [KeyCall.apply, writeUnicode]
    split
    · exact h
    · split
      · exact (h.press _ _).press _ _
      · exact h.press _ _

/-- After any calls the host's last report is the keyboard as it is, with no key twice. -/
theorem host_sees_the_keyboard (l : KeyLayout) (cs : List KeyCall) :
    (KeyCall.run l cs {}).sent.getLastD (List.replicate 8 0) = (KeyCall.run l cs {}).report ∧
    Distinct (KeyCall.run l cs {}) := by
  have hrun (k : UsbKeyboard) (hlast : k.sent.getLastD (List.replicate 8 0) = k.report)
      (hdistinct : Distinct k) :
      (KeyCall.run l cs k).sent.getLastD (List.replicate 8 0) = (KeyCall.run l cs k).report ∧
        Distinct (KeyCall.run l cs k) := by
    induction cs generalizing k with
    | nil => exact ⟨hlast, hdistinct⟩
    | cons c cs ih => exact ih _ ((shown_apply l k c).last hlast) (hdistinct.apply c)
  exact hrun {} rfl fun i j _ hne => absurd rfl hne

/-! ### Nothing stays down -/

/-- A key that is down after a press was down, or is the one pressed. -/
theorem Down.pressKey (h : (k.pressKey key modifier).Down other) :
    k.Down other ∨ other = key := by
  obtain ⟨hne, i, hi⟩ := h
  rcases pressKey_keys k key modifier with hkeys | ⟨-, -, n, -, hkeys⟩
  · rw [hkeys] at hi
    exact .inl ⟨hne, i, hi⟩
  · rw [hkeys] at hi
    rcases eq_or_ne i n with rfl | hin
    · rw [Function.update_self] at hi
      exact .inr hi.symm
    · rw [Function.update_of_ne hin] at hi
      exact .inl ⟨hne, i, hi⟩

/-- One that is down after a release was down, and is not the one released. -/
theorem Down.releaseKey (h : (k.releaseKey key modifier).Down other) :
    k.Down other ∧ other ≠ key := by
  obtain ⟨hne, i, hi⟩ := h
  rw [releaseKey_keys] at hi
  simp only at hi
  split at hi
  · exact absurd hi.symm hne
  · rename_i hkey
    exact ⟨⟨hne, i, hi⟩, fun heq => hkey (hi.trans heq)⟩

/-- One that is down after a stroke was down. -/
theorem Down.press (h : (k.press key modifier).Down other) : k.Down other := by
  obtain ⟨hne, i, hi⟩ := h
  rw [press_keys] at hi
  rcases eq_or_ne i 0 with rfl | hzero
  · rw [Function.update_self] at hi
    exact absurd hi.symm hne
  · rw [Function.update_of_ne hzero] at hi
    exact ⟨hne, i, hi⟩

/-- A key that is down was pressed just now, or was down and is not released. -/
theorem down_apply {c : KeyCall} (h : (c.apply l k).Down key) :
    c.Presses l key ∨ k.Down key ∧ ¬ c.Releases l key := by
  -- down after the call: the call pressed it, or it was down and the call did not release it
  cases c with
  | press => exact .inr ⟨Down.press h, id⟩
  | pressKeycode n =>
    simp only [KeyCall.apply, pressKeycode] at h
    simp only [KeyCall.Presses, KeyCall.stroke, KeyCall.Releases]
    split at h
    · rename_i key' modifier hmeaning
      rcases Down.pressKey h with hdown | rfl
      · exact .inr ⟨hdown, id⟩
      · exact .inl ⟨modifier, rfl⟩
    · rename_i cpoint hmeaning
      split at h
      · exact .inr ⟨h, id⟩
      · rename_i hkeycode
        simp only [if_neg hkeycode]
        split at h
        · rcases Down.pressKey h with hdown | rfl
          · exact .inr ⟨hdown, id⟩
          · exact .inl ⟨_, rfl⟩
        · rcases Down.pressKey h with hdown | rfl
          · obtain ⟨hdown, hother⟩ := Down.releaseKey hdown
            rcases Down.pressKey hdown with hdown | rfl
            · refine .inr ⟨?_, id⟩
              split at hdown
              · exact hdown
              · exact hdown
            · exact absurd rfl hother
          · exact .inl ⟨_, rfl⟩
  | releaseKeycode n =>
    simp only [KeyCall.apply, releaseKeycode] at h
    simp only [KeyCall.Presses, KeyCall.stroke, KeyCall.Releases]
    refine .inr ?_
    split at h
    · rename_i key' modifier hmeaning
      obtain ⟨hdown, hne⟩ := Down.releaseKey h
      exact ⟨hdown, fun ⟨_, heq⟩ => hne (Prod.mk.inj (Option.some.inj heq)).1.symm⟩
    · rename_i cpoint hmeaning
      split at h
      · rename_i hkeycode
        simp only [if_pos hkeycode]
        exact ⟨h, fun ⟨_, heq⟩ => nomatch heq⟩
      · rename_i hkeycode
        simp only [if_neg hkeycode]
        obtain ⟨hdown, hne⟩ := Down.releaseKey h
        exact ⟨hdown, fun ⟨_, heq⟩ => hne (Prod.mk.inj (Option.some.inj heq)).1.symm⟩
  | releaseAll =>
    obtain ⟨hne, i, hi⟩ := h
    rw [show (KeyCall.apply l k .releaseAll).keys = _ from releaseAllKeys_keys k] at hi
    exact absurd hi.symm hne
  | write cpoint =>
    refine .inr ⟨?_, id⟩
    simp only [KeyCall.apply, writeUnicode] at h
    split at h
    · exact h
    · split at h
      · exact Down.press (Down.press h)
      · exact Down.press h

/-- Modifiers held by either of two. -/
theorem and_or_ne_zero {a b : UInt8} (h : (a ||| b) &&& mods ≠ 0) :
    a &&& mods ≠ 0 ∨ b &&& mods ≠ 0 := by
  by_contra hnone
  rw [not_or, not_not, not_not] at hnone
  have ha := congrArg UInt8.toBitVec hnone.1
  have hb := congrArg UInt8.toBitVec hnone.2
  apply h
  rw [← UInt8.toBitVec_inj]
  ext i hi
  have ha := congrArg (fun v : BitVec 8 => v[i]) ha
  have hb := congrArg (fun v : BitVec 8 => v[i]) hb
  simp only [UInt8.toBitVec_and, BitVec.getElem_and] at ha hb
  simp only [UInt8.toBitVec_and, UInt8.toBitVec_or, BitVec.getElem_and, BitVec.getElem_or,
    Bool.and_or_distrib_right, ha, hb]
  exact Bool.or_self _

theorem and_not_ne_zero {a b : UInt8} (h : a &&& ~~~b &&& mods ≠ 0) :
    a &&& mods ≠ 0 ∧ b &&& mods ≠ mods := by
  constructor
  · rintro hzero
    apply h
    rw [UInt8.and_assoc, UInt8.and_comm (~~~b), ← UInt8.and_assoc, hzero]
    exact UInt8.zero_and
  · rintro hsub
    apply h
    rw [← hsub, ← UInt8.and_assoc, UInt8.and_assoc a, UInt8.and_comm (~~~b), UInt8.and_not_self,
      UInt8.and_zero, UInt8.zero_and]

/-- Modifiers put down and up again. -/
theorem or_and_not (a b : UInt8) : (a ||| b) &&& ~~~b = a &&& ~~~b := by
  rw [← UInt8.toBitVec_inj]
  ext i hi
  simp only [UInt8.toBitVec_and, UInt8.toBitVec_or, UInt8.toBitVec_not, BitVec.getElem_and,
    BitVec.getElem_or, BitVec.getElem_not]
  cases a.toBitVec[i] <;> cases b.toBitVec[i] <;> rfl

/-- Modifiers that are down after a call were put down by it, or were down and are not released. -/
theorem mods_apply {c : KeyCall} (h : (c.apply l k).modifierKeys &&& mods ≠ 0) :
    c.PressesMods l mods ∨ k.modifierKeys &&& mods ≠ 0 ∧ ¬ c.ReleasesMods l mods := by
  -- likewise of a modifier, which a typed character takes away as well
  cases c with
  | press => exact absurd UInt8.zero_and h
  | pressKeycode n =>
    simp only [KeyCall.apply, pressKeycode] at h
    simp only [KeyCall.PressesMods, KeyCall.stroke, KeyCall.ReleasesMods]
    split at h
    · rename_i key' modifier hmeaning
      rw [pressKey_modifiers] at h
      rcases and_or_ne_zero h with h | h
      · exact .inr ⟨h, id⟩
      · exact .inl ⟨key', modifier, rfl, h⟩
    · rename_i cpoint hmeaning
      split at h
      · exact .inr ⟨h, id⟩
      · rename_i hkeycode
        simp only [if_neg hkeycode]
        split at h
        · rw [pressKey_modifiers] at h
          rcases and_or_ne_zero h with h | h
          · exact .inr ⟨h, id⟩
          · exact .inl ⟨_, _, rfl, h⟩
        · -- the accent's own modifiers are gone again
          rw [pressKey_modifiers, releaseKey_modifiers, pressKey_modifiers, or_and_not] at h
          rcases and_or_ne_zero h with h | h
          · have hheld := (and_not_ne_zero h).1
            refine .inr ⟨?_, id⟩
            split at hheld
            · exact absurd UInt8.zero_and hheld
            · exact hheld
          · rcases and_or_ne_zero h with h | h
            · exact .inl ⟨_, _, rfl, h⟩
            · exact .inr ⟨h, id⟩
  | releaseKeycode n =>
    simp only [KeyCall.apply, releaseKeycode] at h
    simp only [KeyCall.PressesMods, KeyCall.stroke, KeyCall.ReleasesMods]
    refine .inr ?_
    split at h
    · rename_i key' modifier hmeaning
      rw [releaseKey_modifiers] at h
      obtain ⟨hheld, hne⟩ := and_not_ne_zero h
      refine ⟨hheld, ?_⟩
      rintro ⟨_, _, heq, hsub⟩
      cases heq
      exact hne hsub
    · rename_i cpoint hmeaning
      split at h
      · rename_i hkeycode
        simp only [if_pos hkeycode]
        refine ⟨h, ?_⟩
        rintro ⟨_, _, heq, -⟩
        cases heq
      · rename_i hkeycode
        simp only [if_neg hkeycode]
        rw [releaseKey_modifiers] at h
        obtain ⟨hheld, hne⟩ := and_not_ne_zero h
        refine ⟨hheld, ?_⟩
        rintro ⟨_, _, heq, hsub⟩
        cases heq
        exact hne hsub
  | releaseAll =>
    rw [show (KeyCall.apply l k .releaseAll).modifierKeys = _ from releaseAllKeys_modifiers k] at h
    exact absurd UInt8.zero_and h
  | write cpoint =>
    simp only [KeyCall.apply, writeUnicode] at h
    split at h
    · rename_i hkeycode
      exact .inr ⟨h, fun hne => hne hkeycode⟩
    · split at h
      · exact absurd UInt8.zero_and h
      · exact absurd UInt8.zero_and h

theorem run_concat (l : KeyLayout) (cs : List KeyCall) (c : KeyCall) (k : UsbKeyboard) :
    KeyCall.run l (cs ++ [c]) k = c.apply l (KeyCall.run l cs k) := by
  simp [KeyCall.run]

/-- What is down after a run of calls was pressed in it, and not released since. -/
theorem no_key_is_stuck (l : KeyLayout) (cs : List KeyCall) :
    (∀ key, (KeyCall.run l cs {}).Down key → ∃ before c after, cs = before ++ c :: after ∧
      c.Presses l key ∧ ∀ d ∈ after, ¬ d.Releases l key) ∧
    ∀ mods, (KeyCall.run l cs {}).modifierKeys &&& mods ≠ 0 →
      ∃ before c after, cs = before ++ c :: after ∧
        c.PressesMods l mods ∧ ∀ d ∈ after, ¬ d.ReleasesMods l mods := by
  -- by the last call: it pressed what is down, or it kept it down
  induction cs using List.reverseRecOn with
  | nil =>
    exact ⟨fun key h => absurd h.2.choose_spec.symm h.1, fun mods h => absurd UInt8.zero_and h⟩
  | append_singleton cs c ih =>
    rw [run_concat]
    constructor
    · intro key h
      rcases down_apply h with hpress | ⟨hdown, hkeep⟩
      · exact ⟨cs, c, [], rfl, hpress, fun d hd => (nomatch hd)⟩
      · obtain ⟨before, p, after, rfl, hpress, hafter⟩ := ih.1 key hdown
        refine ⟨before, p, after ++ [c], by simp, hpress, fun d hd => ?_⟩
        rcases List.mem_append.mp hd with hd | hd
        · exact hafter d hd
        · rw [List.mem_singleton.mp hd]
          exact hkeep
    · intro mods h
      rcases mods_apply h with hpress | ⟨hdown, hkeep⟩
      · exact ⟨cs, c, [], rfl, hpress, fun d hd => (nomatch hd)⟩
      · obtain ⟨before, p, after, rfl, hpress, hafter⟩ := ih.2 mods hdown
        refine ⟨before, p, after ++ [c], by simp, hpress, fun d hd => ?_⟩
        rcases List.mem_append.mp hd with hd | hd
        · exact hafter d hd
        · rw [List.mem_singleton.mp hd]
          exact hkeep

end Down

/-! ### Text -/

section Text

open UsbKeyboard

variable {k : UsbKeyboard} {l : KeyLayout}

/-- The strokes a host reads: each key that a report has down and the one before has not, with
the report's modifiers. -/
def struck (down : List UInt8) : List Report → List (UInt8 × UInt8)
  | [] => []
  | report :: rest =>
      ((keysDown report).filter (· ∉ down)).map (report.headD 0, ·) ++ struck (keysDown report) rest

/-- A computer reads the strokes through its own layout. -/
theorem readFrom_struck (down : List UInt8) (reports : List Report) :
    Keyboard.readFrom down reports =
      (struck down reports).filterMap fun s => Keyboard.usLayout (s.1 &&& 0x22 != 0) s.2 := by
  induction reports generalizing down with
  | nil => rfl
  | cons report rest ih =>
    rw [Keyboard.readFrom, struck, List.filterMap_append, List.filterMap_map, ih]
    rfl

/-- The strokes of a character: its dead key's, then its own. -/
def strokesOf (l : KeyLayout) (cpoint : UInt16) : List (UInt8 × UInt8) :=
  let keycode := l.unicodeToKeycode cpoint
  if keycode = 0 then []
  else
    let dead := l.deadkeyFor keycode
    (if dead ≠ 0 then [(l.keycodeToModifier dead, l.keycodeToKey dead)] else []) ++
      [(l.keycodeToModifier keycode, l.keycodeToKey keycode)]

/-- No key is down. -/
def Idle (k : UsbKeyboard) : Prop := ∀ i, k.keys i = 0

/-- A stroke of an idle keyboard: two reports. -/
theorem Idle.press (h : Idle k) (key modifier : UInt8) :
    Idle (k.press key modifier) ∧
    (k.press key modifier).sent =
      k.sent ++ [[modifier, 0, key, 0, 0, 0, 0, 0], List.replicate 8 0] := by
  have hkeys : k.keys = fun _ => 0 := funext h
  constructor
  · intro i
    rw [press_keys, hkeys]
    rcases eq_or_ne i 0 with rfl | hi
    · rw [Function.update_self]
    · rw [Function.update_of_ne hi]
  · show k.sent ++ [modifier :: 0 :: List.ofFn (Function.update k.keys 0 key)] ++
      [0 :: 0 :: List.ofFn (Function.update (Function.update k.keys 0 key) 0 0)] = _
    rw [Function.update_idem, hkeys, List.append_assoc]
    rfl

/-- The two reports of a stroke are read as it, when its key is one. -/
theorem struck_press (modifier key : UInt8) (rest : List Report) :
    struck [] ([modifier, 0, key, 0, 0, 0, 0, 0] :: List.replicate 8 0 :: rest) =
      [(modifier, key)].filter (·.2 ≠ 0) ++ struck [] rest := by
  by_cases hkey : key = 0
  · subst hkey
    rfl
  · have hdown : keysDown [modifier, 0, key, 0, 0, 0, 0, 0] = [key] := by
      simp [keysDown, hkey]
    rw [struck, hdown, struck]
    simp [hkey, keysDown]

/-- A character typed on an idle keyboard: its strokes. -/
theorem Idle.write (h : Idle k) (l : KeyLayout) (cpoint : UInt16) :
    Idle (k.writeUnicode l cpoint) ∧ ∃ rs, (k.writeUnicode l cpoint).sent = k.sent ++ rs ∧
      ∀ rest, struck [] (rs ++ rest) =
        (strokesOf l cpoint).filter (·.2 ≠ 0) ++ struck [] rest := by
  simp only [writeUnicode, strokesOf]
  split
  · exact ⟨h, [], by rw [List.append_nil], fun rest => rfl⟩
  · split
    · obtain ⟨hidle, hsent⟩ := h.press (l.keycodeToKey (l.deadkeyFor (l.unicodeToKeycode cpoint)))
        (l.keycodeToModifier (l.deadkeyFor (l.unicodeToKeycode cpoint)))
      obtain ⟨hidle', hsent'⟩ := hidle.press (l.keycodeToKey (l.unicodeToKeycode cpoint))
        (l.keycodeToModifier (l.unicodeToKeycode cpoint))
      refine ⟨hidle', _, by rw [hsent', hsent, List.append_assoc], fun rest => ?_⟩
      rw [List.filter_append, List.append_assoc, List.append_assoc]
      rw [← struck_press, ← struck_press]
      rfl
    · obtain ⟨hidle, hsent⟩ := h.press (l.keycodeToKey (l.unicodeToKeycode cpoint))
        (l.keycodeToModifier (l.unicodeToKeycode cpoint))
      refine ⟨hidle, _, hsent, fun rest => ?_⟩
      rw [List.nil_append, ← struck_press]
      rfl

/-- Once every key is released, text is struck as its characters' strokes in order, and nothing
is left down. -/
theorem typed_text_is_struck (l : KeyLayout) (k : UsbKeyboard) (text : List UInt16) :
    let typed := KeyCall.run l (text.map .write) k.releaseAllKeys
    (∀ i, typed.keys i = 0) ∧
    ∃ reports, typed.sent = k.releaseAllKeys.sent ++ reports ∧
      struck [] reports = (text.flatMap (strokesOf l)).filter (·.2 ≠ 0) ∧
      Keyboard.readKeys reports = ((text.flatMap (strokesOf l)).filter (·.2 ≠ 0)).filterMap
        fun s => Keyboard.usLayout (s.1 &&& 0x22 != 0) s.2 := by
  intro typed
  have hrun (k : UsbKeyboard) (hidle : Idle k) :
      Idle (KeyCall.run l (text.map .write) k) ∧
      ∃ reports, (KeyCall.run l (text.map .write) k).sent = k.sent ++ reports ∧
        struck [] reports = (text.flatMap (strokesOf l)).filter (·.2 ≠ 0) := by
    induction text generalizing k with
    | nil => exact ⟨hidle, [], by rw [List.append_nil]; rfl, rfl⟩
    | cons cpoint text ih =>
      obtain ⟨hidle', rs, hsent, hstruck⟩ := hidle.write l cpoint
      obtain ⟨hidle'', reports, hsent', hstruck'⟩ := ih (k.writeUnicode l cpoint) hidle'
      refine ⟨hidle'', rs ++ reports, ?_, ?_⟩
      · rw [← List.append_assoc, ← hsent]
        exact hsent'
      · rw [hstruck, hstruck', List.flatMap_cons, List.filter_append]
  obtain ⟨hidle, reports, hsent, hstruck⟩ := hrun k.releaseAllKeys fun i => by
    rw [releaseAllKeys_keys]
  refine ⟨hidle, reports, hsent, hstruck, ?_⟩
  rw [Keyboard.readKeys, readFrom_struck, hstruck]

end Text

end OkRn.Hal
