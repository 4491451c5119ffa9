/-
OkRn/Keyboard/Text.lean

Text as keyboard reports, and reports as a computer with a US layout reads them.

A report is the whole state of the keyboard, so a key counts when a report has it
down and the one before has not.  The reports of a text have every key up between two
characters, and so the computer reads each of them, repeated or not.

Main result: `readKeys_reportsFor`.
-/
import OkRn.Keyboard.Forwarder

namespace OkRn.Keyboard

/-! ### From text -/

/-- The bit of the shift key. -/
def modShift : UInt8 := 0x02

/-- Unshifted keys, in the order of their usage codes. -/
def lower : List Char := "abcdefghijklmnopqrstuvwxyz".toList

/-- The keys of the digits, in order. -/
def digits : List Char := "1234567890".toList

/-- The characters that take shift, with the key they are on. -/
def shifted : List (Char × Char) :=
  [('!', '1'), ('@', '2'), ('#', '3'), ('$', '4'), ('%', '5'), ('^', '6'), ('&', '7'), ('*', '8'),
    ('(', '9'), (')', '0'), ('_', '-'), ('+', '='), ('\x7b', '['), ('\x7d', ']'), ('|', '\\'),
    (':', ';'), ('"', '\x27'), ('~', '\x60'), ('<', ','), ('>', '.'), ('?', '/')]

/-- The other characters, with their usages. -/
def punct : List (Char × UInt8) :=
  [('\n', 0x28), ('\t', 0x2b), (' ', 0x2c), ('-', 0x2d), ('=', 0x2e), ('[', 0x2f), (']', 0x30),
    ('\\', 0x31), (';', 0x33), ('\x27', 0x34), ('\x60', 0x35), (',', 0x36), ('.', 0x37),
    ('/', 0x38)]

/-- A key, with shift or without. -/
structure Key where
  usage : UInt8
  shift : Bool
  deriving DecidableEq

/-- `keyFor` of a character that is typed without shift. -/
def plainKey (ch : Char) : Option UInt8 :=
  match lower.idxOf? ch with
  | some i => some (0x04 + UInt8.ofNat i)
  | none =>
      match digits.idxOf? ch with
      | some i => some (0x1e + UInt8.ofNat i)
      | none => punct.lookup ch

/-- `keyFor`. -/
def keyFor (ch : Char) : Option Key :=
  if 'A' ≤ ch ∧ ch ≤ 'Z' then some ⟨0x04 + UInt8.ofNat (lower.idxOf ch.toLower), true⟩
  else
    match lower.idxOf? ch with
    | some i => some ⟨0x04 + UInt8.ofNat i, false⟩
    | none =>
        match digits.idxOf? ch with
        | some i => some ⟨0x1e + UInt8.ofNat i, false⟩
        | none =>
            match shifted.lookup ch with
            -- no character of the table's second column is in its first
            | some unshifted => (plainKey unshifted).map (⟨·, true⟩)
            | none => (punct.lookup ch).map (⟨·, false⟩)

/-- The report that presses it. -/
def Key.press (key : Key) : Report :=
  [if key.shift then modShift else 0, 0, key.usage, 0, 0, 0, 0, 0]

/-- The reports, and the characters that have no key. -/
def reportsFor : List Char → List Report × List Char
  | [] => ([], [])
  | ch :: text =>
      let rest := reportsFor text
      match keyFor ch with
      | none => (rest.1, ch :: rest.2)
      | some key => (key.press :: releaseAll :: rest.1, rest.2)

/-! ### A computer with a US layout -/

/-- The usage code of a row's first key, and what the row's keys give without and with shift. -/
def usRows : List (UInt8 × List Char × List Char) :=
  [(0x04, "abcdefghijklmnopqrstuvwxyz".toList, "ABCDEFGHIJKLMNOPQRSTUVWXYZ".toList),
    (0x1e, "1234567890".toList, "!@#$%^&*()".toList),
    (0x28, ['\n'], ['\n']),
    (0x2b, "\t -=[]\\".toList, "\t _+\x7b\x7d|".toList),
    (0x33, ";\x27\x60,./".toList, ":\"~<>?".toList)]

/-- The character on a key of a US keyboard. -/
def usLayout (shift : Bool) (usage : UInt8) : Option Char :=
  usRows.findSome? fun row =>
    if row.1 ≤ usage then (if shift then row.2.2 else row.2.1)[(usage - row.1).toNat]? else none

/-- The keys that a report has down. -/
def keysDown (report : Report) : List UInt8 := (report.drop 2).filter (· ≠ 0)

/-- The left or the right shift is down. -/
def shiftDown (report : Report) : Bool := report.headD 0 &&& 0x22 != 0

/-- What the computer reads when these keys are down. -/
def readFrom (down : List UInt8) : List Report → List Char
  | [] => []
  | report :: rest =>
      ((keysDown report).filter (· ∉ down)).filterMap (usLayout (shiftDown report)) ++
        readFrom (keysDown report) rest

/-- What a computer reads of reports, with no key down before. -/
def readKeys (reports : List Report) : List Char := readFrom [] reports

/-- With every key up nothing is read. -/
@[simp] theorem readFrom_releaseAll (down : List UInt8) (rest : List Report) :
    readFrom down (releaseAll :: rest) = readFrom [] rest := rfl

theorem readFrom_concat_releaseAll (down : List UInt8) (reports : List Report) :
    readFrom down (reports ++ [releaseAll]) = readFrom down reports := by
  induction reports generalizing down with
  | nil => rfl
  | cons report rest ih => rw [List.cons_append, readFrom, readFrom, ih]

/-- The first of some reports read as the beginning. -/
theorem readFrom_prefix {p reports : List Report} (h : p <+: reports) (down : List UInt8) :
    readFrom down p <+: readFrom down reports := by
  induction p generalizing reports down with
  | nil => exact List.nil_prefix
  | cons report p ih =>
    obtain ⟨rest, rfl⟩ := h
    rw [List.cons_append, readFrom, readFrom]
    exact (List.prefix_append_right_inj _).mpr (ih (List.prefix_append p rest) _)

/-- A press and a release read as one character. -/
theorem readFrom_press {key : Key} (husage : key.usage ≠ 0) (rest : List Report) :
    readFrom [] (key.press :: releaseAll :: rest) =
      (usLayout key.shift key.usage).toList ++ readFrom [] rest := by
  have hdown : keysDown key.press = [key.usage] := by simp [keysDown, Key.press, husage]
  have hshift : shiftDown key.press = key.shift := by
    show ((if key.shift then modShift else 0) &&& 0x22 != 0) = key.shift
    cases key.shift <;> decide
  rw [readFrom, hdown, hshift, readFrom_releaseAll]
  cases hread : usLayout key.shift key.usage <;> simp [hread]

/-! ### The text is read back -/

/-- What can be typed: printable ASCII. -/
def typeable (ch : Char) : Bool := decide (' ' ≤ ch) && decide (ch ≤ '~')

/-- The key of a character gives that character. -/
def HasKey (ch : Char) : Prop :=
  ∃ key, keyFor ch = some key ∧ key.usage ≠ 0 ∧ usLayout key.shift key.usage = some ch

theorem hasKey_tab : HasKey '\t' := ⟨⟨0x2b, false⟩, by decide⟩

theorem hasKey_enter : HasKey '\n' := ⟨⟨0x28, false⟩, by decide⟩

theorem hasKey_ascii (n : Fin 95) : HasKey (Char.ofNat (n + 32)) := by
  have hkeys : ∀ n : Fin 95, ((keyFor (Char.ofNat (n + 32))).any fun key =>
      decide (key.usage ≠ 0 ∧
        usLayout key.shift key.usage = some (Char.ofNat (n + 32)))) = true := by decide +kernel
  obtain ⟨key, hkey, hspec⟩ := (Option.any_eq_true _ _).mp (hkeys n)
  exact ⟨key, hkey, of_decide_eq_true hspec⟩

/-- What passes the check can be typed. -/
theorem hasKey_of_typeable {ch : Char} (h : typeable ch = true) : HasKey ch := by
  simp only [typeable, Bool.and_eq_true, decide_eq_true_eq] at h
  have hlow : 32 ≤ ch.toNat := h.1
  have hhigh : ch.toNat ≤ 126 := h.2
  have hch : Char.ofNat (ch.toNat - 32 + 32) = ch := by
    rw [Nat.sub_add_cancel hlow, Char.ofNat_toNat]
  have hkey := hasKey_ascii ⟨ch.toNat - 32, by omega⟩
  rw [hch] at hkey
  exact hkey

/-- The reports of a text read as the text. -/
theorem readKeys_reportsFor {text : List Char} (h : ∀ ch ∈ text, HasKey ch) :
    readKeys (reportsFor text).1 = text ∧ (reportsFor text).2 = [] := by
  induction text with
  | nil => exact ⟨rfl, rfl⟩
  | cons ch text ih =>
    obtain ⟨key, hkey, husage, hread⟩ := h ch List.mem_cons_self
    obtain ⟨hreports, hskipped⟩ := ih fun c hc => h c (List.mem_cons_of_mem _ hc)
    have hcons : reportsFor (ch :: text) =
        (key.press :: releaseAll :: (reportsFor text).1, (reportsFor text).2) := by
      simp only [reportsFor, hkey]
    rw [hcons]
    refine ⟨?_, hskipped⟩
    show readFrom [] (key.press :: releaseAll :: (reportsFor text).1) = ch :: text
    rw [readFrom_press husage, hread]
    exact congrArg (ch :: ·) hreports

/-- Without the release between them a repeated character is one key held down. -/
example : readKeys [Key.press ⟨0x0f, false⟩, Key.press ⟨0x0f, false⟩] = ['l'] ∧
    readKeys (reportsFor ['l', 'l']).1 = ['l', 'l'] := by decide

end OkRn.Keyboard
