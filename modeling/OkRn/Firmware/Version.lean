/-
OkRn/Firmware/Version.lean

The version that a signed firmware file declares.

The image's bytes are stored swapped in words of four and cut into blocks.
`readDeclaredVersion` joins what follows the blocks' headers, swaps the words back and
takes the leftmost version token.  The expression is greedy, so the token is the
longest at its place.  A file's name is compared with the token as text.

* `swapped` and `fromHex` undo what the signing tool does to the image; the lemmas on
  `Re.Longest` say which token is taken;
* `Named` is a file's name with three numbers, and `SameNumbers` says that they are the
  token's.

Main results: `firmware_says_its_version`, for every image and every cut into blocks, and
`patch_outgrows_its_name` for a file that is named for too few digits.
-/
import OkRn.Lib.Regex

namespace OkRn.Firmware

open Re

/-! ### The expressions -/

/-- A decimal digit. -/
def isDigit (c : Char) : Bool := decide ('0' ≤ c) && decide (c ≤ '9')

/-- A small letter. -/
def isLower (c : Char) : Bool := decide ('a' ≤ c) && decide (c ≤ 'z')

/-- A character of a version's suffix. -/
def isWord (c : Char) : Bool :=
  isLower c || (decide ('A' ≤ c) && decide (c ≤ 'Z')) || isDigit c || c == '.'

/-- One given character. -/
def lit (c : Char) : Re Char := char (· == c)

/-- `v[0-9]+\.[0-9]+(?:\.[0-9]+)?(?:-[A-Za-z0-9.]+)?[a-z]?` -/
def version : Re Char :=
  seq (lit 'v') (seq (plus isDigit) (seq (lit '.') (seq (plus isDigit)
    (seq (opt (seq (lit '.') (plus isDigit))) (seq (opt (seq (lit '-') (plus isWord)))
      (opt (char isLower)))))))

/-- `(\d+)_(\d+)_(\d+)` -/
def nameVersion : Re Char :=
  seq (group (plus isDigit)) (seq (lit '_') (seq (group (plus isDigit)) (seq (lit '_')
    (group (plus isDigit)))))

/-! ### The file -/

/-- The signature of a block, its info and the next signature, in hex. -/
def blockHeaderHex : Nat := 130

/-- A hexadecimal digit, in either case. -/
def isHex (c : Char) : Bool :=
  isDigit c || (decide ('a' ≤ c) && decide (c ≤ 'f')) || (decide ('A' ≤ c) && decide (c ≤ 'F'))

/-- What `parseInt` gives for such a digit. -/
def hexVal (c : Char) : Nat :=
  if isDigit c then c.toNat - '0'.toNat
  else if 'a' ≤ c ∧ c ≤ 'f' then c.toNat - 'a'.toNat + 10
  else c.toNat - 'A'.toNat + 10

/-- The bytes of a text of hex digits. -/
def fromHex : List Char → List UInt8
  | a :: b :: hex => UInt8.ofNat (16 * hexVal a + hexVal b) :: fromHex hex
  | _ => []

/-- The bytes of every group of four reversed; a byte that is not there is 0. -/
def swapped (raw : List UInt8) : List UInt8 :=
  (List.range raw.length).map fun k => raw.getD (k / 4 * 4 + (3 - k % 4)) 0

/-- `String.fromCharCode` of each. -/
def asText (bytes : List UInt8) : List Char := bytes.map fun b => Char.ofNat b.toNat

/-- `readDeclaredVersion`. -/
def readDeclaredVersion (blocks : List (List Char)) : Option (List Char) :=
  let hex := blocks.flatMap (·.drop blockHeaderHex)
  let hex := if hex.length % 2 = 1 then hex.dropLast else hex
  (version.exec (asText (swapped (fromHex hex)))).map (·.1)

/-- What the library says of a block. -/
structure Description where
  signature : List Char
  nextSignature : List Char

/-- The library's reader of a signed file. -/
structure Library where
  /-- The blocks of a file, a line of hex each; none when it throws. -/
  parseSignedFirmware : List Char → Option (List (List Char))
  describeBlock : List Char → Description

/-- What the sheet shows of a file. -/
structure FirmwareSummary where
  blocks : Nat
  bytes : Rat
  first : Description
  lastSignature : List Char
  declares : Option (List Char)

/-- `summarizeFirmware`. -/
def summarizeFirmware (lib : Library) (text : List Char) : Option FirmwareSummary :=
  match lib.parseSignedFirmware text with
  | some (block :: blocks) =>
      some {
        blocks := (block :: blocks).length
        bytes := (block :: blocks).foldl (fun n line => n + (line.length : Rat) / 2) 0
        first := lib.describeBlock block
        lastSignature := (lib.describeBlock ((block :: blocks).getLast (by simp))).signature
        declares := readDeclaredVersion (block :: blocks) }
  -- a file without a block has none to describe
  | _ => none

/-- The warning. -/
def mismatchMessage (name fromName declares : List Char) : List Char :=
  name ++ " is named for ".toList ++ fromName ++ ", but the image inside it says ".toList ++
    declares ++ (". One of the two is wrong, and the image is the one that " ++
      "ends up on the key.").toList

/-- `nameVersionMismatch`; `none` is no warning. -/
def nameVersionMismatch (name : List Char) (declares : Option (List Char)) : Option (List Char) :=
  match nameVersion.exec name, declares.filter (· ≠ []) with
  | some (_, [major, minor, patch]), some declares =>
      let fromName := 'v' :: (major ++ '.' :: (minor ++ '.' :: patch))
      if fromName.isPrefixOf declares then none
      else some (mismatchMessage name fromName declares)
  | _, _ => none

/-! ### The image -/

/-- The words of an image, each with its bytes the other way round. -/
def swapWords : List UInt8 → List UInt8
  | a :: b :: c :: d :: rest => d :: c :: b :: a :: swapWords rest
  | rest => rest

/-- An image, in whole words. -/
structure Image where
  bytes : List UInt8
  words : 4 ∣ bytes.length

/-- A block of a file: its header and its part of the image, in hexadecimal digits. -/
structure Block where
  header : List Char
  hex : List Char
  header_length : header.length = blockHeaderHex
  whole : hex.length % 2 = 0
  digits : (header ++ hex).all isHex = true

/-- A block's line in the file. -/
def Block.line (b : Block) : List Char := b.header ++ b.hex

/-- The image is what the blocks carry, wherever it was cut. -/
def Image.CutInto (image : Image) (blocks : List Block) : Prop :=
  blocks.flatMap (fun b => fromHex b.hex) = swapWords image.bytes

/-- The image as text. -/
def Image.text (image : Image) : List Char := asText image.bytes

/-- The first word of an image, swapped. -/
theorem swapped_cons (a b c d : UInt8) (rest : List UInt8) :
    swapped (a :: b :: c :: d :: rest) = d :: c :: b :: a :: swapped rest := by
  have hrange : List.range (rest.length + 4) =
      0 :: 1 :: 2 :: 3 :: (List.range rest.length).map (· + 4) := by
    simp [List.range_succ_eq_map, List.map_map, Function.comp_def]
  have hnext (k : Nat) : (k + 4) / 4 * 4 + (3 - (k + 4) % 4) = k / 4 * 4 + (3 - k % 4) + 4 := by
    omega
  have hrest : ((List.range rest.length).map (· + 4)).map
      (fun k => (a :: b :: c :: d :: rest).getD (k / 4 * 4 + (3 - k % 4)) 0) = swapped rest := by
    rw [List.map_map]
    refine List.map_congr_left fun k _ => ?_
    show (a :: b :: c :: d :: rest).getD ((k + 4) / 4 * 4 + (3 - (k + 4) % 4)) 0 = _
    rw [hnext]
    rfl
  show (List.range (rest.length + 4)).map _ = _
  rw [hrange, List.map_cons, List.map_cons, List.map_cons, List.map_cons, hrest]
  rfl

/-- Swapped twice, the words are as they were. -/
theorem swapped_swapWords {bytes : List UInt8} (h : 4 ∣ bytes.length) :
    swapped (swapWords bytes) = bytes := by
  match bytes with
  | [] => rfl
  | [_] => exact absurd (show 4 ∣ 1 from h) (by decide)
  | [_, _] => exact absurd (show 4 ∣ 2 from h) (by decide)
  | [_, _, _] => exact absurd (show 4 ∣ 3 from h) (by decide)
  | a :: b :: c :: d :: rest =>
    have hrest : 4 ∣ rest.length := by
      have hlength : 4 ∣ rest.length + 4 := h
      omega
    rw [swapWords, swapped_cons, swapped_swapWords hrest]

/-- Hex digits in two parts, the first of whole bytes. -/
theorem fromHex_append {p : List Char} (h : p.length % 2 = 0) (q : List Char) :
    fromHex (p ++ q) = fromHex p ++ fromHex q := by
  match p with
  | [] => rfl
  | [_] => exact absurd (show 1 % 2 = 0 from h) (by decide)
  | a :: b :: p =>
    have hp : p.length % 2 = 0 := by
      have hlength : (p.length + 2) % 2 = 0 := h
      omega
    show _ :: fromHex (p ++ q) = _ :: (fromHex p ++ fromHex q)
    rw [fromHex_append hp q]

/-- What the headers leave of the blocks is the swapped image in hex. -/
theorem fromHex_flatMap (blocks : List Block) :
    fromHex (blocks.flatMap (·.hex)) = blocks.flatMap (fun b => fromHex b.hex) ∧
      (blocks.flatMap (·.hex)).length % 2 = 0 := by
  induction blocks with
  | nil => exact ⟨rfl, rfl⟩
  | cons b blocks ih =>
    rw [List.flatMap_cons, List.flatMap_cons, fromHex_append b.whole, ih.1, List.length_append]
    have hb := b.whole
    exact ⟨rfl, by omega⟩

/-- Without their headers the blocks' lines are the image's digits. -/
theorem drop_line (blocks : List Block) :
    (blocks.map Block.line).flatMap (·.drop blockHeaderHex) = blocks.flatMap (·.hex) := by
  induction blocks with
  | nil => rfl
  | cons b blocks ih =>
    rw [List.map_cons, List.flatMap_cons, List.flatMap_cons, ih, Block.line, ← b.header_length,
      List.drop_left]

/-- The reader looks for the token in the image's own text. -/
theorem readDeclaredVersion_line {image : Image} {blocks : List Block} (h : image.CutInto blocks) :
    readDeclaredVersion (blocks.map Block.line) = (version.exec image.text).map (·.1) := by
  obtain ⟨hjoined, heven⟩ := fromHex_flatMap blocks
  unfold readDeclaredVersion
  simp only [drop_line]
  rw [if_neg (by omega), hjoined, h, swapped_swapWords image.words]
  rfl

/-! ### The token -/

/-- Letters that are digits, at least one. -/
abbrev Digits (d : List Char) : Prop := d ∈ (plus isDigit).lang

/-- A version token, with its parts. -/
structure Token where
  major : List Char
  minor : List Char
  patch : Option (List Char) := none
  suffix : Option (List Char) := none
  letter : Option Char := none
  major_digits : Digits major
  minor_digits : Digits minor
  patch_digits : ∀ d ∈ patch, Digits d
  suffix_word : ∀ w ∈ suffix, w ∈ (plus isWord).lang
  letter_lower : ∀ c ∈ letter, isLower c = true

namespace Token

variable (t : Token)

/-- What follows the three numbers. -/
def tail : List Char :=
  (match t.suffix with
    | some w => '-' :: w
    | none => []) ++ t.letter.toList

/-- The patch with its dot. -/
def patchText : List Char :=
  match t.patch with
  | some d => '.' :: d
  | none => []

/-- The token as it is written. -/
def text : List Char := 'v' :: (t.major ++ '.' :: (t.minor ++ (t.patchText ++ t.tail)))

end Token

/-- The words of one given character. -/
theorem mem_lit {c : Char} {w : List Char} : w ∈ (lit c).lang ↔ w = [c] := by
  constructor
  · rintro ⟨d, hd, rfl⟩
    rw [eq_of_beq hd]
  · rintro rfl
    exact ⟨c, beq_self_eq_true c, rfl⟩

/-- The words of an optional part that begins with a given character. -/
theorem mem_opt_lit_seq {a : Char} {r : Re Char} {w : List Char} :
    w ∈ (opt (seq (lit a) r)).lang ↔ ∃ d : Option (List Char), (∀ x ∈ d, x ∈ r.lang) ∧
      w = match d with
        | some x => a :: x
        | none => [] := by
  constructor
  · rintro (⟨y, hy, x, hx, rfl⟩ | rfl)
    · obtain rfl := mem_lit.mp hy
      exact ⟨some x, fun e he => Option.some.inj he ▸ hx, rfl⟩
    · exact ⟨none, nofun, rfl⟩
  · rintro ⟨d, hd, rfl⟩
    cases d with
    | none => exact .inr rfl
    | some x => exact .inl ⟨[a], mem_lit.mpr rfl, x, hd x rfl, rfl⟩

/-- The words of an optional character. -/
theorem mem_opt_char {p : Char → Bool} {w : List Char} :
    w ∈ (opt (char p)).lang ↔ ∃ c : Option Char, (∀ d ∈ c, p d = true) ∧ w = c.toList := by
  constructor
  · rintro (⟨c, hc, rfl⟩ | rfl)
    · exact ⟨some c, fun d hd => Option.some.inj hd ▸ hc, rfl⟩
    · exact ⟨none, nofun, rfl⟩
  · rintro ⟨c, hc, rfl⟩
    cases c with
    | none => exact .inr rfl
    | some d => exact .inl ⟨d, hc d rfl, rfl⟩

/-- The words of the expression are the version tokens. -/
theorem mem_version {w : List Char} : w ∈ version.lang ↔ ∃ t : Token, t.text = w := by
  constructor
  · rintro ⟨v, hv, -, ⟨major, hmajor, -, ⟨dot, hdot, -, ⟨minor, hminor, -, ⟨patch, hpatch, -,
      ⟨suffix, hsuffix, letter, hletter, rfl⟩, rfl⟩, rfl⟩, rfl⟩, rfl⟩, rfl⟩
    obtain rfl := mem_lit.mp hv
    obtain rfl := mem_lit.mp hdot
    obtain ⟨d, hd, rfl⟩ := mem_opt_lit_seq.mp hpatch
    obtain ⟨x, hx, rfl⟩ := mem_opt_lit_seq.mp hsuffix
    obtain ⟨c, hc, rfl⟩ := mem_opt_char.mp hletter
    exact ⟨⟨major, minor, d, x, c, hmajor, hminor, hd, hx, hc⟩, rfl⟩
  · rintro ⟨t, rfl⟩
    exact ⟨['v'], mem_lit.mpr rfl, _, ⟨t.major, t.major_digits, _, ⟨['.'], mem_lit.mpr rfl, _,
      ⟨t.minor, t.minor_digits, _, ⟨t.patchText, mem_opt_lit_seq.mpr ⟨t.patch, t.patch_digits, rfl⟩,
        t.tail, ⟨_, mem_opt_lit_seq.mpr ⟨t.suffix, t.suffix_word, rfl⟩, _,
          mem_opt_char.mpr ⟨t.letter, t.letter_lower, rfl⟩, rfl⟩, rfl⟩, rfl⟩, rfl⟩, rfl⟩, rfl⟩

/-! ### The expressions are greedy -/

/-- A given character begins with itself. -/
theorem begins_lit {a c : Char} (h : (lit a).Begins c) : c = a := eq_of_beq h.char

/-- A sequence that begins with a letter of its own. -/
theorem begins_lit_seq {a c : Char} {r : Re Char} (h : (seq (lit a) r).Begins c) : c = a := by
  rcases h.seq with hlit | ⟨hnil, -⟩
  · exact begins_lit hlit
  · exact absurd (mem_lit.mp hnil) nofun

/-- After a given character, the longest is the longest of the rest. -/
theorem longest_lit_seq {a : Char} {r : Re Char} (h : r.Longest) : (seq (lit a) r).Longest :=
  longest_char.seq h fun _ hfollows => absurd hfollows not_follows_char

/-- A small letter is no digit. -/
theorem isDigit_of_isLower {c : Char} (h : isLower c = true) : isDigit c = false := by
  simp only [isLower, isDigit, Bool.and_eq_true, decide_eq_true_eq, Bool.and_eq_false_iff,
    decide_eq_false_iff_not] at h ⊢
  have hlow : 97 ≤ c.toNat := h.1
  refine .inr fun hle => ?_
  have hhigh : c.toNat ≤ 57 := hle
  omega

/-- What follows the numbers of a token does not begin with a digit. -/
theorem begins_tail {c : Char}
    (h : (seq (opt (seq (lit '-') (plus isWord))) (opt (char isLower))).Begins c) :
    isDigit c = false ∧ c ≠ '.' := by
  rcases h.seq with hsuffix | ⟨-, hletter⟩
  · obtain rfl := begins_lit_seq hsuffix.opt
    decide
  · have hlower : isLower c = true := hletter.opt.char
    refine ⟨isDigit_of_isLower hlower, ?_⟩
    rintro rfl
    exact absurd hlower (by decide)

/-- The end of a token is read as far as it goes. -/
theorem longest_tail :
    (seq (opt (seq (lit '-') (plus isWord))) (opt (char isLower))).Longest := by
  refine (longest_lit_seq longest_plus).opt.seq_short longest_char.opt (.inr rfl) ?_
  rintro w (⟨c, -, rfl⟩ | rfl)
  · exact Nat.le_refl 1
  · exact Nat.zero_le 1

theorem longest_version : version.Longest := by
  have hpatch : (seq (opt (seq (lit '.') (plus isDigit)))
      (seq (opt (seq (lit '-') (plus isWord))) (opt (char isLower)))).Longest := by
    refine (longest_lit_seq longest_plus).opt.seq longest_tail fun c hfollows hbegins => ?_
    -- only a point or a digit goes on here, and the tail begins with neither
    obtain ⟨hdigit, hdot⟩ := begins_tail hbegins
    rcases hfollows.opt with hfirst | hnext
    · exact hdot (begins_lit_seq hfirst)
    · rw [hnext.seq_char.plus] at hdigit
      cases hdigit
  have hminor : (seq (plus isDigit) (seq (opt (seq (lit '.') (plus isDigit)))
      (seq (opt (seq (lit '-') (plus isWord))) (opt (char isLower))))).Longest := by
    refine longest_plus.seq hpatch fun c hfollows hbegins => ?_
    -- a digit goes on, and what follows begins with a point or the tail
    have hdigit := hfollows.plus
    rcases hbegins.seq with hfirst | ⟨-, hrest⟩
    · obtain rfl := begins_lit_seq hfirst.opt
      exact absurd hdigit (by decide)
    · rw [(begins_tail hrest).1] at hdigit
      cases hdigit
  refine longest_lit_seq (longest_plus.seq (longest_lit_seq hminor) fun c hfollows hbegins => ?_)
  obtain rfl := begins_lit_seq hbegins
  exact absurd hfollows.plus (by decide)

theorem longest_nameVersion : nameVersion.Longest := by
  have hstep {r : Re Char} (h : r.Longest) :
      (seq (group (plus isDigit)) (seq (lit '_') r)).Longest := by
    refine longest_plus.group.seq (longest_lit_seq h) fun c hfollows hbegins => ?_
    obtain rfl := begins_lit_seq hbegins
    have hplus : (plus isDigit).Follows '_' := hfollows
    exact absurd hplus.plus (by decide)
  exact hstep (hstep longest_plus.group)

/-! ### Digits in a text -/

/-- The text does not begin with a digit. -/
def NoDigit (l : List Char) : Prop := ∀ c rest, l = c :: rest → isDigit c = false

theorem digits_append_inj {d e l m : List Char} (hd : ∀ c ∈ d, isDigit c = true)
    (he : ∀ c ∈ e, isDigit c = true) (hl : NoDigit l) (hm : NoDigit m) (h : d ++ l = e ++ m) :
    d = e ∧ l = m := by
  induction d generalizing e with
  | nil =>
    cases e with
    | nil => exact ⟨rfl, h⟩
    | cons c e =>
      have hfirst := hl c (e ++ m) h
      rw [he c List.mem_cons_self] at hfirst
      cases hfirst
  | cons c d ih =>
    cases e with
    | nil =>
      have hfirst := hm c (d ++ l) h.symm
      rw [hd c List.mem_cons_self] at hfirst
      cases hfirst
    | cons c' e =>
      obtain ⟨rfl, hrest⟩ := List.cons.inj h
      obtain ⟨rfl, hlm⟩ := ih (fun a ha => hd a (List.mem_cons_of_mem c ha))
        (fun a ha => he a (List.mem_cons_of_mem c ha)) hrest
      exact ⟨rfl, hlm⟩

/-- A text that begins with no digit. -/
theorem noDigit_cons {c : Char} (h : isDigit c = false) (l : List Char) : NoDigit (c :: l) := by
  rintro d rest ⟨⟩
  exact h

/-- After the numbers there is no digit. -/
theorem Token.noDigit_tail (t : Token) : NoDigit t.tail := by
  unfold Token.tail
  cases t.suffix with
  | some w => exact noDigit_cons (by decide) _
  | none =>
    cases hletter : t.letter with
    | none => exact nofun
    | some c => exact noDigit_cons (isDigit_of_isLower (t.letter_lower c hletter)) []

theorem Token.noDigit_patchText (t : Token) : NoDigit (t.patchText ++ t.tail) := by
  unfold Token.patchText
  cases t.patch with
  | some d => exact noDigit_cons (by decide) _
  | none => exact t.noDigit_tail

/-- The end of a token begins with no dot. -/
theorem Token.head_tail (t : Token) {c : Char} {rest : List Char} (h : t.tail = c :: rest) :
    c ≠ '.' := by
  unfold Token.tail at h
  cases hsuffix : t.suffix with
  | some w =>
    rw [hsuffix] at h
    obtain ⟨rfl, -⟩ := List.cons.inj h
    decide
  | none =>
    rw [hsuffix] at h
    cases hletter : t.letter with
    | none =>
      rw [hletter] at h
      cases h
    | some l =>
      rw [hletter] at h
      obtain ⟨rfl, -⟩ := List.cons.inj h
      rintro rfl
      exact absurd (t.letter_lower '.' hletter) (by decide)

/-! ### The declared version -/

/-- The file's reader finds what the expression finds in the image. -/
theorem summarizeFirmware_line {lib : Library} {file : List Char} {image : Image}
    {blocks : List Block} (hcut : image.CutInto blocks) (hne : blocks ≠ [])
    (hparse : lib.parseSignedFirmware file = some (blocks.map Block.line)) :
    ∃ s, summarizeFirmware lib file = some s ∧
      s.declares = (version.exec image.text).map (·.1) := by
  obtain ⟨block, blocks, rfl⟩ := List.exists_cons_of_ne_nil hne
  have hread := readDeclaredVersion_line hcut
  rw [List.map_cons] at hparse hread
  unfold summarizeFirmware
  rw [hparse]
  refine ⟨_, rfl, ?_⟩
  dsimp only
  rw [hread]

/-- A token that nothing continues, the first in the text, is found whole. -/
theorem exec_version {before after : List Char} (t : Token)
    (hend : ∀ c rest, after = c :: rest → ∀ w (t' : Token), t'.text ≠ t.text ++ c :: w)
    (hfirst : ∀ p q, before ++ (t.text ++ after) = p ++ q → p.length < before.length →
      ∀ t' : Token, ¬ t'.text <+: q) :
    (version.exec (before ++ (t.text ++ after))).map (·.1) = some t.text := by
  obtain ⟨m, -, -, hexec⟩ := exec_of_longest longest_version (mem_version.mpr ⟨t, rfl⟩)
    (fun c rest hafter w hmem => by
      obtain ⟨t', ht'⟩ := mem_version.mp hmem
      exact hend c rest hafter w t' ht')
    (fun p q hsplit hlt v hv hbegins => by
      obtain ⟨t', rfl⟩ := mem_version.mp hv
      exact hfirst p q hsplit hlt t' hbegins)
  rw [hexec]
  rfl

/-! ### The name -/

/-- A file name with its first `major_minor_patch`. -/
structure Named where
  before : List Char
  major : List Char
  minor : List Char
  patch : List Char
  after : List Char
  major_digits : Digits major
  minor_digits : Digits minor
  patch_digits : Digits patch
  ends : NoDigit after
  first : ∀ p q, before ++ (major ++ '_' :: (minor ++ '_' :: patch) ++ after) = p ++ q →
    p.length < before.length → ∀ w ∈ nameVersion.lang, ¬ w <+: q

/-- The numbers in a name. -/
def Named.numbers (n : Named) : List Char := n.major ++ '_' :: (n.minor ++ '_' :: n.patch)

/-- The name. -/
def Named.text (n : Named) : List Char := n.before ++ (n.numbers ++ n.after)

/-- The words of the numbers in a name. -/
theorem mem_lang_nameVersion {w : List Char} (h : w ∈ nameVersion.lang) : ∃ a b c,
    Digits a ∧ Digits b ∧ Digits c ∧ w = a ++ '_' :: (b ++ '_' :: c) := by
  obtain ⟨a, ha, -, ⟨u, hu, -, ⟨b, hb, -, ⟨u', hu', c, hc, rfl⟩, rfl⟩, rfl⟩, rfl⟩ := h
  obtain rfl := mem_lit.mp hu
  obtain rfl := mem_lit.mp hu'
  exact ⟨a, b, c, ha, hb, hc, rfl⟩

/-- A match that begins with a given character. -/
theorem mem_run_lit_seq {a : Char} {r : Re Char} {l : List Char} {m : Match Char}
    (h : m ∈ (seq (lit a) r).run l) : ∃ rest, l = a :: rest ∧ m ∈ r.run rest := by
  obtain ⟨m₁, h₁, m₂, h₂, rfl⟩ := mem_run_seq.mp h
  obtain ⟨c, hc, hl, hgroups⟩ := mem_run_char h₁
  obtain rfl : c = a := eq_of_beq hc
  refine ⟨m₁.rest, hl, ?_⟩
  rw [hgroups]
  exact h₂

/-- The groups are the three numbers. -/
theorem mem_run_nameVersion {l : List Char} {m : Match Char} (h : m ∈ nameVersion.run l) :
    ∃ a b c, Digits a ∧ Digits b ∧ Digits c ∧ m.groups = [a, b, c] ∧
      l = a ++ '_' :: (b ++ '_' :: (c ++ m.rest)) := by
  obtain ⟨m₁, h₁, m₂, h₂, rfl⟩ := mem_run_seq.mp h
  obtain ⟨a, ha, rfl, hga⟩ := mem_run_group_plus h₁
  obtain ⟨rest, hrest, h₂⟩ := mem_run_lit_seq h₂
  obtain ⟨m₃, h₃, m₄, h₄, rfl⟩ := mem_run_seq.mp h₂
  obtain ⟨b, hb, rfl, hgb⟩ := mem_run_group_plus h₃
  obtain ⟨rest', hrest', h₄⟩ := mem_run_lit_seq h₄
  obtain ⟨c, hc, rfl, hgc⟩ := mem_run_group_plus h₄
  refine ⟨a, b, c, ha, hb, hc, ?_, ?_⟩
  · show m₁.groups ++ (m₃.groups ++ m₄.groups) = _
    rw [hga, hgb, hgc]
    rfl
  · rw [hrest, hrest']

/-- Three numbers are told from the text. -/
theorem numbers_inj {a b c a' b' c' l l' : List Char} (ha : Digits a) (ha' : Digits a')
    (hb : Digits b) (hb' : Digits b')
    (h : a ++ '_' :: (b ++ '_' :: (c ++ l)) = a' ++ '_' :: (b' ++ '_' :: (c' ++ l'))) :
    a = a' ∧ b = b' ∧ c ++ l = c' ++ l' := by
  have hunder (l : List Char) : NoDigit ('_' :: l) := noDigit_cons (by decide) l
  obtain ⟨hmajor, hrest⟩ := digits_append_inj ha.2 ha'.2 (hunder _) (hunder _) h
  obtain ⟨hminor, hpatch⟩ :=
    digits_append_inj hb.2 hb'.2 (hunder _) (hunder _) (List.cons.inj hrest).2
  exact ⟨hmajor, hminor, (List.cons.inj hpatch).2⟩

/-- The numbers that a name is read for are its own. -/
theorem exec_nameVersion (n : Named) :
    nameVersion.exec n.text = some (n.numbers, [n.major, n.minor, n.patch]) := by
  have hmem : n.numbers ∈ nameVersion.lang :=
    ⟨n.major, n.major_digits, _, ⟨['_'], mem_lit.mpr rfl, _, ⟨n.minor, n.minor_digits, _,
      ⟨['_'], mem_lit.mpr rfl, n.patch, n.patch_digits, rfl⟩, rfl⟩, rfl⟩, rfl⟩
  obtain ⟨m, hm, hrest, hexec⟩ := exec_of_longest longest_nameVersion hmem
    (fun c rest hafter w hlonger => by
      -- no longer match: the patch would have to go on with a digit
      obtain ⟨a, b, d, ha, hb, hd, heq⟩ := mem_lang_nameVersion hlonger
      have hsplit : n.major ++ '_' :: (n.minor ++ '_' :: (n.patch ++ c :: w)) =
          a ++ '_' :: (b ++ '_' :: (d ++ [])) := by
        rw [List.append_nil, ← heq, Named.numbers]
        simp
      obtain ⟨-, -, hpatch⟩ := numbers_inj n.major_digits ha n.minor_digits hb hsplit
      rw [List.append_nil] at hpatch
      have hdigit : isDigit c = true := hd.2 c (hpatch ▸ by simp)
      rw [n.ends c rest hafter] at hdigit
      cases hdigit)
    n.first
  -- and the one match has the numbers as its groups
  obtain ⟨a, b, c, ha, hb, hc, hgroups, hsplit⟩ := mem_run_nameVersion hm
  rw [hrest] at hsplit
  have hsplit' : n.major ++ '_' :: (n.minor ++ '_' :: (n.patch ++ n.after)) =
      a ++ '_' :: (b ++ '_' :: (c ++ n.after)) := by
    rw [← hsplit, Named.numbers]
    simp
  obtain ⟨rfl, rfl, hpatch⟩ := numbers_inj n.major_digits ha n.minor_digits hb hsplit'
  obtain rfl := List.append_cancel_right hpatch
  rw [← hgroups]
  exact hexec

/-- What is left of digits at the beginning of a text is digits. -/
theorem digits_prefix {c z rest m : List Char} (hc : ∀ a ∈ c, isDigit a = true)
    (hrest : NoDigit rest) (h : c ++ m = z ++ rest) : c <+: z := by
  rcases List.append_eq_append_iff.mp h with ⟨u, rfl, -⟩ | ⟨u, rfl, hsplit⟩
  · exact List.prefix_append c u
  · cases u with
    | nil => rw [List.append_nil]
    | cons a u =>
      have hfirst := hrest a (u ++ m) hsplit
      rw [hc a (by simp)] at hfirst
      cases hfirst

/-- The name's version begins the token's text when two numbers are its own, digit by digit, and the
third begins its own. -/
theorem fromName_prefix {a b c : List Char} (ha : Digits a) (hb : Digits b) (hc : Digits c)
    (t : Token) : 'v' :: (a ++ '.' :: (b ++ '.' :: c)) <+: t.text ↔
      a = t.major ∧ b = t.minor ∧ ∃ z, t.patch = some z ∧ c <+: z := by
  have hdot (l : List Char) : NoDigit ('.' :: l) := noDigit_cons (by decide) l
  constructor
  · rintro ⟨m, hm⟩
    have hm' : a ++ '.' :: (b ++ '.' :: (c ++ m)) =
        t.major ++ '.' :: (t.minor ++ (t.patchText ++ t.tail)) := by
      simpa [Token.text] using hm
    obtain ⟨rfl, hminor⟩ := digits_append_inj ha.2 t.major_digits.2 (hdot _) (hdot _) hm'
    obtain ⟨rfl, hpatch⟩ := digits_append_inj hb.2 t.minor_digits.2 (hdot _) t.noDigit_patchText
      (List.cons.inj hminor).2
    refine ⟨rfl, rfl, ?_⟩
    -- a token without a patch has no second dot to match
    cases hz : t.patch with
    | none =>
      have htail : t.tail = '.' :: (c ++ m) := by
        rw [hpatch, Token.patchText, hz]
        rfl
      exact absurd rfl (t.head_tail htail)
    | some z =>
      have hdigits : c ++ m = z ++ t.tail := by
        rw [Token.patchText, hz] at hpatch
        exact (List.cons.inj hpatch).2
      exact ⟨z, rfl, digits_prefix hc.2 t.noDigit_tail hdigits⟩
  · rintro ⟨rfl, rfl, z, hz, u, rfl⟩
    refine ⟨u ++ t.tail, ?_⟩
    rw [Token.text, Token.patchText, hz]
    simp

/-- There is no warning exactly when the name's numbers begin the token. -/
theorem nameVersionMismatch_eq_none (n : Named) (t : Token) :
    nameVersionMismatch n.text (some t.text) = none ↔
      n.major = t.major ∧ n.minor = t.minor ∧ ∃ z, t.patch = some z ∧ n.patch <+: z := by
  rw [← fromName_prefix n.major_digits n.minor_digits n.patch_digits t,
    ← List.isPrefixOf_iff_prefix]
  have hne : (some t.text).filter (· ≠ []) = some t.text := by simp [Token.text]
  simp only [nameVersionMismatch, exec_nameVersion, hne]
  split
  · rename_i hbegins
    exact ⟨fun _ => hbegins, fun _ => rfl⟩
  · rename_i hbegins
    exact ⟨nofun, fun h => absurd h hbegins⟩

/-! ### What the name and the image say -/

/-- The number that digits stand for. -/
def value (d : List Char) : Nat := d.foldl (fun n c => 10 * n + (c.toNat - '0'.toNat)) 0

/-- The name's three numbers are those of the token. -/
def SameNumbers (n : Named) (t : Token) : Prop :=
  value n.major = value t.major ∧ value n.minor = value t.minor ∧
    ∃ z ∈ t.patch, value n.patch = value z

/-- The token's last number begins with the name's and is another. -/
def Outgrown (n : Named) (t : Token) : Prop :=
  n.major = t.major ∧ n.minor = t.minor ∧
    ∃ z ∈ t.patch, n.patch <+: z ∧ value n.patch ≠ value z

/-- A number is written with other zeros before it. -/
def Rewritten (n : Named) (t : Token) : Prop :=
  SameNumbers n t ∧
    (n.major ≠ t.major ∨ n.minor ≠ t.minor ∨ ∃ z ∈ t.patch, ¬ n.patch <+: z)

/-- So it tells other versions exactly when neither kind of slip is there. -/
theorem mismatch_says_iff (n : Named) (t : Token) :
    (nameVersionMismatch n.text (some t.text) = none ↔ SameNumbers n t) ↔
      ¬ Outgrown n t ∧ ¬ Rewritten n t := by
  rw [nameVersionMismatch_eq_none]
  constructor
  · intro h
    constructor
    · rintro ⟨hmajor, hminor, z, hz, hbegins, hne⟩
      obtain ⟨-, -, z', hz', hvalue⟩ := h.mp ⟨hmajor, hminor, z, hz, hbegins⟩
      obtain rfl : z' = z := Option.some.inj (hz'.symm.trans hz)
      exact hne hvalue
    · rintro ⟨hsame, hother⟩
      obtain ⟨hmajor, hminor, z, hz, hbegins⟩ := h.mpr hsame
      -- one of the three numbers differs
      rcases hother with hne | hne | ⟨z', hz', hne⟩
      · exact hne hmajor
      · exact hne hminor
      · obtain rfl : z' = z := Option.some.inj (hz'.symm.trans hz)
        exact hne hbegins
  · rintro ⟨hgrown, hrewritten⟩
    constructor
    · rintro ⟨hmajor, hminor, z, hz, hbegins⟩
      refine ⟨congrArg value hmajor, congrArg value hminor, z, hz, ?_⟩
      by_contra hne
      exact hgrown ⟨hmajor, hminor, z, hz, hbegins, hne⟩
    · intro hsame
      have hthird := hsame.2.2
      obtain ⟨z, hz, -⟩ := hthird
      refine ⟨?_, ?_, z, hz, ?_⟩
      · by_contra hne
        exact hrewritten ⟨hsame, .inl hne⟩
      · by_contra hne
        exact hrewritten ⟨hsame, .inr (.inl hne)⟩
      · by_contra hne
        exact hrewritten ⟨hsame, .inr (.inr ⟨z, hz, hne⟩)⟩

/-- The file declares the image's token wherever it stands and however the image is cut, and
nothing when there is none; the name is compared as it should be but for a number that only begins
the token's, and for zeros before a number. -/
theorem firmware_says_its_version (lib : Library) (file : List Char) (image : Image)
    (blocks : List Block) (hcut : image.CutInto blocks) (hne : blocks ≠ [])
    (hparse : lib.parseSignedFirmware file = some (blocks.map Block.line)) :
    (∃ s, summarizeFirmware lib file = some s ∧
      (∀ before after (t : Token), image.text = before ++ (t.text ++ after) →
        (∀ c rest, after = c :: rest → ∀ w (t' : Token), t'.text ≠ t.text ++ c :: w) →
        (∀ p q, image.text = p ++ q → p.length < before.length → ∀ t' : Token, ¬ t'.text <+: q) →
          s.declares = some t.text) ∧
      ((∀ p q, image.text = p ++ q → ∀ t : Token, ¬ t.text <+: q) → s.declares = none)) ∧
    ∀ (n : Named) (t : Token),
      (nameVersionMismatch n.text (some t.text) = none ↔ SameNumbers n t) ↔
        ¬ Outgrown n t ∧ ¬ Rewritten n t := by
  obtain ⟨s, hs, hdeclares⟩ := summarizeFirmware_line hcut hne hparse
  refine ⟨⟨s, hs, fun before after t htext hend hfirst => ?_, fun hnone => ?_⟩, mismatch_says_iff⟩
  · rw [hdeclares, htext]
    exact exec_version t hend (htext ▸ hfirst)
  · rw [hdeclares, exec_eq_none]
    · rfl
    · intro p q hsplit w hw hbegins
      obtain ⟨t, rfl⟩ := mem_version.mp hw
      exact hnone p q hsplit t hbegins

/-- The blocks of a file are its lines. -/
def lineLibrary : Library where
  parseSignedFirmware text := some (text.splitOn '\n')
  describeBlock line := ⟨line.take 64, (line.drop 66).take 64⟩

/-- A token of the form that releases have. -/
def prodToken (patch : List Char) (h : Digits patch) : Token where
  major := ['3']
  minor := ['0']
  patch := some patch
  suffix := some "prod".toList
  major_digits := mem_lang_plus_of_all (by decide) (by decide)
  minor_digits := mem_lang_plus_of_all (by decide) (by decide)
  patch_digits := fun _ hd => Option.some.inj hd ▸ h
  suffix_word := fun _ hw => Option.some.inj hw ▸ mem_lang_plus_of_all (by decide) (by decide)
  letter_lower := fun _ hletter => by cases hletter

/-- `v3.0.40-prod` -/
def prodImage : Image where
  bytes := [0x76, 0x33, 0x2e, 0x30, 0x2e, 0x34, 0x30, 0x2d, 0x70, 0x72, 0x6f, 0x64]
  words := by decide

/-- Cut in the middle of a word. -/
def prodBlocks : List Block :=
  [⟨List.replicate 130 '0', "302e33762d".toList, rfl, rfl, by decide⟩,
    ⟨List.replicate 130 '0', "30342e646F7270".toList, rfl, rfl, by decide⟩]

/-- A file with it. -/
def prodFile : List Char := ['\n'].intercalate (prodBlocks.map Block.line)

theorem firmware_says_its_version_prod :
    ∃ s, summarizeFirmware lineLibrary prodFile = some s ∧
      s.declares = some "v3.0.40-prod".toList := by
  obtain ⟨⟨s, hs, htoken, -⟩, -⟩ := firmware_says_its_version lineLibrary prodFile prodImage
    prodBlocks (by unfold Image.CutInto; decide) (by decide) (by decide)
  exact ⟨s, hs, htoken [] [] (prodToken ['4', '0'] (mem_lang_plus_of_all (by decide) (by decide))) (by decide)
    (fun _ _ hafter => by cases hafter) (fun _ _ _ hlt => absurd hlt (Nat.not_lt_zero _))⟩

/-- No version stands where there is no digit. -/
theorem no_version_before {before rest : List Char} (h : ∀ c ∈ before, isDigit c = false)
    (p q : List Char) (hsplit : before ++ rest = p ++ q) (hlt : p.length < before.length) :
    ∀ w ∈ nameVersion.lang, ¬ w <+: q := by
  rintro w hw ⟨m, rfl⟩
  obtain ⟨a, b, c, ha, -, -, rfl⟩ := mem_lang_nameVersion hw
  obtain ⟨d, a, rfl⟩ := List.exists_cons_of_ne_nil ha.1
  obtain ⟨u, rfl⟩ : p <+: before :=
    List.prefix_of_prefix_length_le (hsplit ▸ List.prefix_append p _)
      (List.prefix_append before rest) hlt.le
  cases u with
  | nil => simp at hlt
  | cons e u =>
    rw [List.append_assoc] at hsplit
    obtain ⟨rfl, -⟩ := List.cons.inj (List.append_cancel_left hsplit)
    have hdigit := ha.2 e List.mem_cons_self
    rw [h e (by simp)] at hdigit
    cases hdigit

/-- `Signed_OnlyKey_3_0_4_STD` -/
def stdName : Named where
  before := "Signed_OnlyKey_".toList
  major := ['3']
  minor := ['0']
  patch := ['4']
  after := "_STD".toList
  major_digits := mem_lang_plus_of_all (by decide) (by decide)
  minor_digits := mem_lang_plus_of_all (by decide) (by decide)
  patch_digits := mem_lang_plus_of_all (by decide) (by decide)
  ends := noDigit_cons (by decide) _
  first := no_version_before (by simpa using
    (by decide : ("Signed_OnlyKey_".toList.all fun c => !isDigit c) = true))

/-- A key's 3.0.4 is not told from its 3.0.40. -/
theorem patch_outgrows_its_name :
    ¬ ∀ (n : Named) (t : Token),
      nameVersionMismatch n.text (some t.text) = none ↔ SameNumbers n t := by
  intro h
  have hnone : nameVersionMismatch stdName.text
      (some (prodToken ['4', '0'] (mem_lang_plus_of_all (by decide) (by decide))).text) = none := by decide
  obtain ⟨-, -, z, hz, hvalue⟩ := (h _ _).mp hnone
  obtain rfl := Option.some.inj hz
  exact absurd hvalue (by decide)

end OkRn.Firmware
