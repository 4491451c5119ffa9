/-
OkRn/Config/RoundTrip.lean

A configuration that was printed is imported as it was.

The text is a list of lines (`text_eq`): none holds a newline or a NUL, so the
reader finds the same lines (`lines_ended`).  A line outside the two sections
that may be written, a comment and an empty line change nothing; a printed
setting becomes its write (`scanLine_lineText`).  The chunks only have to put the
text together again, and but for the last each carries 58 bytes: byte 5 has no
other way to say that more is to come.

* `ended` joins lines, and `Plain` is a line that the reader finds as it was;
* `Carries` is a list of chunks that carries a text, whatever its cuts, and
  `exists_carries` says that there is one;
* `SetSlot.Lawful` is what the firmware's setter does with a value that was printed, and
  a lemma for each kind of setting says that the stored byte stays.

Main results: `printed_config_is_imported`, and `short_chunk_is_misread` for a text cut
into other chunks.
-/
import OkRn.Config.Ini

namespace OkRn.Config

/-! ### Nothing is cut off -/

/-- Pieces that fit are put one after another. -/
theorem foldl_put (ps : List (List Char)) (out : List Char)
    (h : out.length + ps.flatten.length ≤ outMax - 1) : ps.foldl put out = out ++ ps.flatten := by
  induction ps generalizing out with
  | nil => simp
  | cons p ps ih =>
    rw [List.flatten_cons, List.length_append] at h
    have hput : put out p = out ++ p := by
      rw [put, List.take_of_length_le (by omega)]
    rw [List.foldl_cons, hput, ih _ (by rw [List.length_append]; omega), List.flatten_cons,
      List.append_assoc]

/-- A number has as many digits as there is room for, at most. -/
theorem lowDigits_length (room v : Nat) : (lowDigits room v).length ≤ room := by
  induction room generalizing v with
  | zero => exact le_rfl
  | succ room ih =>
    rw [lowDigits]
    split
    · simp
    · have hrest := ih (v / 10)
      rw [List.length_cons]
      omega

/-- A byte has three digits at most. -/
theorem u8_length (v : Nat) : (u8 v).length ≤ 3 := by
  rw [u8, List.length_reverse]
  exact lowDigits_length 3 v

/-- A line is its key, the sign, the digits and the end. -/
theorem line_length (key : String) (v : UInt8) :
    (line key v).flatten.length ≤ key.toList.length + 5 := by
  have hdigits := u8_length v.toNat
  simp only [line, List.flatten_cons, List.flatten_nil, List.length_append, List.length_nil]
  have heq : "=".toList.length = 1 := rfl
  have hnl : "\n".toList.length = 1 := rfl
  omega

/-- The line of a setting that is always printed. -/
theorem always_length (key : String) (stored : UInt8) :
    (always key stored).pieces.flatten.length ≤ key.toList.length + 5 := line_length key stored

/-- The comment of a setting without a value. -/
theorem unset_length (key : String) : (unset key).flatten.length = key.toList.length + 32 := by
  simp only [unset, List.flatten_cons, List.flatten_nil, List.length_append, List.length_nil]
  have hhead : "; ".toList.length = 2 := rfl
  have htail : " unset (the firmware default)\n".toList.length = 30 := rfl
  omega

theorem pieces_length (x : Setting) {n : Nat} (hn : x.key.toList.length = n) :
    x.pieces.flatten.length ≤ n + 32 := by
  rw [← hn]
  unfold Setting.pieces
  split
  · have hline := line_length x.key ‹_›
    omega
  · exact (unset_length x.key).le

theorem moded_length (key : String) (mode : InputMode) :
    (moded key mode).flatten.length ≤ key.toList.length + 7 := by
  have hword : (modeWord mode).toList.length ≤ 5 := by cases mode <;> decide
  simp only [moded, List.flatten_cons, List.flatten_nil, List.length_append, List.length_nil]
  have heq : "=".toList.length = 1 := rfl
  have hnl : "\n".toList.length = 1 := rfl
  omega

theorem preferences_length (s : Settings) :
    ((preferences s).flatMap Setting.pieces).flatten.length ≤ 329 := by
  have h₁ := pieces_length (typeSpeed s) (n := 9) (by simp [typeSpeed])
  have h₂ := pieces_length (orUnset "keyboardLayout" s.keyboardLayout) (n := 14)
    (by simp [orUnset])
  have h₃ := pieces_length (orUnset "ledBrightness" s.ledBrightness) (n := 13) (by simp [orUnset])
  have h₄ : _ ≤ 7 + 5 := always_length "lockout" s.timeout
  have h₅ : (lockButton s).pieces.flatten.length ≤ 10 + 5 := line_length "lockButton" _
  have h₆ := pieces_length (orUnset "touchSense" s.touchoffset) (n := 10) (by simp [orUnset])
  have h₇ : _ ≤ 10 + 5 := always_length "modKeyMode" s.modkey
  have h₈ : _ ≤ 17 + 5 := always_length "hmacChallengeMode" s.hmacChallengemode
  have h₉ : _ ≤ 20 + 5 := always_length "derivedChallengeMode" s.derivedKeyChallengeMode
  have h₁₀ : _ ≤ 19 + 5 := always_length "storedChallengeMode" s.storedKeyChallengeMode
  have h₁₁ : _ ≤ 18 + 5 := always_length "webAgentDeriveMode" s.webAgentDeriveMode
  have h₁₂ : _ ≤ 14 + 5 := always_length "secProfileMode" s.secondProfileMode
  simp only [preferences, List.flatMap_cons, List.flatMap_nil, List.flatten_append,
    List.length_append, List.flatten_nil, List.length_nil]
  omega

theorem advanced_length (W : Webcrypt) (s : Settings) :
    ((advanced W s).flatMap Setting.pieces).flatten.length ≤ 77 := by
  have h₁ := pieces_length (webcryptPolicy W s) (n := 14) (by simp [webcryptPolicy])
  have h₂ : _ ≤ 8 + 5 := always_length "wipeMode" s.wipemode
  have h₃ : _ ≤ 13 + 5 := always_length "backupKeyMode" s.backupkeymode
  simp only [advanced, List.flatMap_cons, List.flatMap_nil, List.flatten_append,
    List.length_append, List.flatten_nil, List.length_nil]
  omega

theorem flatten_length (W : Webcrypt) (s : Settings) : (pieces W s).flatten.length ≤ 675 := by
  have hpref := preferences_length s
  have hadv := advanced_length W s
  have h₁ : _ ≤ 12 + 7 := moded_length "derived_keys" s.derivedKeys
  have h₂ : _ ≤ 11 + 7 := moded_length "stored_keys" s.storedKeys
  have h₃ : _ ≤ 10 + 7 := moded_length "web_derive" s.webDerive
  have h₄ : ((if s.hmacChallengemode = 1 then "none" else "press").toList).length ≤ 5 := by
    split <;> decide
  have h₅ : ("; OnlyKey soft key config - OKGETCONFIG v".toList).length = 41 := rfl
  have h₆ : ("\n[input]\n; resolved: what the key will ask for (code | press | none) - read-only\n"
    ).toList.length = 81 := rfl
  have h₇ : "hmac=".toList.length = 5 := rfl
  have h₈ : "\n".toList.length = 1 := rfl
  have h₉ : "\n[preferences]\n".toList.length = 15 := rfl
  have h₁₀ : ("\n[advanced]\n; one-way: an import changes these only when asked to\n"
    ).toList.length = 66 := rfl
  have h₁₁ : (u8 version).length = 1 := rfl
  simp only [pieces, List.flatten_append, List.flatten_cons, List.flatten_nil, List.length_append,
    List.length_nil]
  omega

/-- The text fits, so no piece is left out. -/
theorem text_eq_flatten (W : Webcrypt) (s : Settings) : text W s = (pieces W s).flatten := by
  have hlen := flatten_length W s
  have hroom : ([] : List Char).length + (pieces W s).flatten.length ≤ outMax - 1 := by
    rw [List.length_nil, outMax]
    omega
  rw [text, foldl_put _ _ hroom, List.nil_append]

/-! ### The lines of the text -/

/-- A setting's line. -/
def Setting.lineText (x : Setting) : List Char :=
  match x.value with
  | some v => x.key.toList ++ '=' :: u8 v.toNat
  | none => "; ".toList ++ x.key.toList ++ " unset (the firmware default)".toList

/-- Everything above the first section that is written. -/
def inputLines (s : Settings) : List (List Char) :=
  ["; OnlyKey soft key config - OKGETCONFIG v1".toList, "[input]".toList,
    "; resolved: what the key will ask for (code | press | none) - read-only".toList,
    "derived_keys".toList ++ '=' :: (modeWord s.derivedKeys).toList,
    "stored_keys".toList ++ '=' :: (modeWord s.storedKeys).toList,
    "web_derive".toList ++ '=' :: (modeWord s.webDerive).toList,
    "hmac".toList ++ '=' :: (if s.hmacChallengemode = 1 then "none" else "press").toList, []]

/-- The lines between the two sections. -/
def advancedHead : List (List Char) :=
  [[], "[advanced]".toList, "; one-way: an import changes these only when asked to".toList]

/-- The lines of the printed text. -/
def textLines (W : Webcrypt) (s : Settings) : List (List Char) :=
  inputLines s ++ "[preferences]".toList :: (preferences s).map Setting.lineText ++ advancedHead ++
    (advanced W s).map Setting.lineText

/-- Lines, each with its newline. -/
def ended (ls : List (List Char)) : List Char := ls.flatMap (· ++ ['\n'])

/-- The lines of two lists, one after another. -/
theorem ended_append (ls ms : List (List Char)) : ended (ls ++ ms) = ended ls ++ ended ms :=
  List.flatMap_append

/-- The first line and the rest. -/
theorem ended_cons (l : List Char) (ls : List (List Char)) :
    ended (l :: ls) = l ++ '\n' :: ended ls := by
  simp [ended]

/-- The pieces of a setting make its line. -/
theorem pieces_flatten (x : Setting) : x.pieces.flatten = x.lineText ++ ['\n'] := by
  cases h : x.value with
  | some v => simp [Setting.pieces, Setting.lineText, line, h]
  | none => simp [Setting.pieces, Setting.lineText, unset, h]

theorem settings_flatten (xs : List Setting) :
    (xs.flatMap Setting.pieces).flatten = ended (xs.map Setting.lineText) := by
  induction xs with
  | nil => rfl
  | cons x xs ih =>
    rw [List.flatMap_cons, List.flatten_append, ih, pieces_flatten, List.map_cons, ended_cons]
    simp

theorem moded_flatten (key : String) (mode : InputMode) :
    (moded key mode).flatten = ended [key.toList ++ '=' :: (modeWord mode).toList] := by
  simp [moded, ended]

/-- The line of the challenge mode. -/
theorem hmac_flatten (word : String) :
    ["hmac=".toList, word.toList, "\n".toList].flatten = ended ["hmac".toList ++ '=' :: word.toList] := by
  simp [ended]

/-- The printed text is its lines, each ended. -/
theorem text_eq (W : Webcrypt) (s : Settings) : text W s = ended (textLines W s) := by
  have hhead : ["; OnlyKey soft key config - OKGETCONFIG v".toList, u8 version,
      ("\n[input]\n; resolved: what the key will ask for (code | press | none) - read-only\n"
        ).toList].flatten = ended ["; OnlyKey soft key config - OKGETCONFIG v1".toList,
          "[input]".toList,
          "; resolved: what the key will ask for (code | press | none) - read-only".toList] := by
    decide +kernel
  have hpref : ["\n[preferences]\n".toList].flatten = ended [[], "[preferences]".toList] := by
    decide +kernel
  have hadv : ["\n[advanced]\n; one-way: an import changes these only when asked to\n".toList].flatten
      = ended advancedHead := by
    decide +kernel
  rw [text_eq_flatten]
  simp only [pieces, List.flatten_append, hhead, hpref, hadv, settings_flatten, moded_flatten,
    hmac_flatten, ← ended_append]
  rfl

/-- No newline and no NUL. -/
def Plain (l : List Char) : Prop := ∀ c ∈ l, c ≠ '\n' ∧ c ≠ '\x00'

instance (l : List Char) : Decidable (Plain l) := List.decidableBAll _ l

/-- A line of plain parts is plain. -/
theorem Plain.append {l m : List Char} (hl : Plain l) (hm : Plain m) : Plain (l ++ m) := by
  intro c hc
  exact (List.mem_append.mp hc).elim (hl c) (hm c)

theorem Plain.cons {c : Char} {l : List Char} (hc : c ≠ '\n' ∧ c ≠ '\x00') (hl : Plain l) :
    Plain (c :: l) := by
  intro x hx
  rcases List.mem_cons.mp hx with rfl | hx
  · exact hc
  · exact hl x hx

/-- The digits of a byte: one to three, and its value. -/
theorem u8_spec (v : UInt8) :
    (∀ c ∈ u8 v.toNat, isDigit c = true ∧ isBlank c = false ∧ c ≠ '\n' ∧ c ≠ '\x00') ∧
      u8 v.toNat ≠ [] ∧ (u8 v.toNat).length ≤ 4 ∧ valueOf (u8 v.toNat) = v.toNat := by
  have hall : ∀ n : Fin 256,
      (u8 n).all (fun c => isDigit c && !isBlank c && c != '\n' && c != '\x00') = true ∧
        u8 n ≠ [] ∧ (u8 n).length ≤ 4 ∧ valueOf (u8 n) = n := by
    decide +kernel
  obtain ⟨hchars, hne, hlen, hvalue⟩ := hall ⟨v.toNat, v.toNat_lt⟩
  dsimp only at hchars hne hlen hvalue
  refine ⟨fun c hc => ?_, hne, hlen, hvalue⟩
  have hc' := List.all_eq_true.mp hchars c hc
  simpa [and_assoc] using hc'

/-- The line of a setting is plain. -/
theorem plain_lineText {x : Setting} (hkey : Plain x.key.toList) : Plain x.lineText := by
  unfold Setting.lineText
  split
  · refine hkey.append (Plain.cons (by decide) fun c hc => ?_)
    exact ((u8_spec _).1 c hc).2.2
  · exact (Plain.append (by decide) hkey).append (by decide)

/-- A plain line is read up to its end. -/
theorem lines_append {l : List Char} (hl : Plain l) (rest : List Char) :
    lines (l ++ '\n' :: rest) = l :: lines rest := by
  induction l with
  | nil => simp [lines]
  | cons c l ih =>
    have hc : c ≠ '\n' := (hl c List.mem_cons_self).1
    have hrest := ih fun x hx => hl x (List.mem_cons_of_mem _ hx)
    rw [List.cons_append, lines, if_neg hc, hrest]

/-- Plain lines are read as they are. -/
theorem lines_ended {ls : List (List Char)} (hls : ∀ l ∈ ls, Plain l) : lines (ended ls) = ls := by
  induction ls with
  | nil => rfl
  | cons l ls ih =>
    rw [ended_cons, lines_append (hls l List.mem_cons_self),
      ih fun m hm => hls m (List.mem_cons_of_mem _ hm)]

/-- No NUL ends the text early. -/
theorem nul_free {ls : List (List Char)} (hls : ∀ l ∈ ls, Plain l) :
    ∀ c ∈ ended ls, c ≠ '\x00' := by
  intro c hc
  obtain ⟨l, hl, hc⟩ := List.mem_flatMap.mp hc
  rcases List.mem_append.mp hc with hc | hc
  · exact (hls l hl c hc).2
  · obtain rfl := List.mem_singleton.mp hc
    decide

/-! ### What a line does -/

/-- A name in the table: it starts a line and ends before the equals sign. -/
structure IsKey (key : List Char) : Prop where
  plain : Plain key
  chars : ∀ c ∈ key, c ≠ '=' ∧ isBlank c = false
  start : ∃ c ∈ key.head?, c ≠ '[' ∧ c ≠ ';'
  known : (fieldOf key).isSome = true

/-- A line that starts and ends with something is not trimmed. -/
theorem trim_eq {c : Char} {cs : List Char} {d : Char} {ds : List Char} (hc : isBlank c = false)
    (hd : isBlank d = false) (h : c :: cs = ds ++ [d]) : trim (c :: cs) = c :: cs := by
  rw [trim, List.dropWhile_cons_of_neg (by simp [hc]), h, List.rdropWhile_concat_neg _ _ _ (by simp [hd])]

/-- An empty line changes nothing. -/
theorem scanLine_blank (z : Scan) : scanLine z [] = z := rfl

theorem scanLine_comment (z : Scan) {l cs : List Char} (h : trim l = ';' :: cs) :
    scanLine z l = z := by
  simp [scanLine, h]

/-- The write of a printed setting. -/
def Setting.write (x : Setting) : Option Write :=
  x.value.bind fun v => (fieldOf x.key.toList).map fun field => ⟨field, v⟩

/-- A printed line is read as its field and value. -/
theorem parseSetting_line {key : List Char} (hkey : IsKey key) (v : UInt8) :
    parseSetting (key ++ '=' :: u8 v.toNat) = (fieldOf key).map fun field => ⟨field, v⟩ := by
  obtain ⟨hdigits, hne, hlen, hvalue⟩ := u8_spec v
  have hbefore : ∀ c ∈ key, decide (c ≠ '=') = true := fun c hc => by simp [(hkey.chars c hc).1]
  -- the key ends at the first '=', and the value's digits are all that follows it
  have htake : (key ++ '=' :: u8 v.toNat).takeWhile (· ≠ '=') = key := by
    rw [List.takeWhile_append_of_pos hbefore]
    simp
  have hdrop : (key ++ '=' :: u8 v.toNat).dropWhile (· ≠ '=') = '=' :: u8 v.toNat := by
    rw [List.dropWhile_append_of_pos hbefore]
    simp
  have hspace : (u8 v.toNat).dropWhile isSpace = u8 v.toNat := by
    rw [List.dropWhile_eq_self_iff]
    intro hpos
    have hblank := (hdigits _ (List.getElem_mem hpos)).2.1
    simp only [isBlank, Bool.or_eq_false_iff] at hblank
    simp [hblank.1]
  have hkeep : key.rdropWhile isSpace = key := by
    rw [List.rdropWhile_eq_self_iff]
    intro hpos
    have hblank := (hkey.chars _ (List.getLast_mem hpos)).2
    simp only [isBlank, Bool.or_eq_false_iff] at hblank
    simp [hblank.1]
  have hall : ((u8 v.toNat).takeWhile isDigit).take 4 = u8 v.toNat := by
    rw [List.takeWhile_eq_self_iff.mpr fun c hc => (hdigits c hc).1, List.take_of_length_le hlen]
  rw [parseSetting, htake, hdrop]
  dsimp only
  rw [hspace, hkeep, hall, List.drop_length, hvalue]
  -- a key that is not known is passed over, a known one takes the value
  cases fieldOf key with
  | none => rfl
  | some field =>
    have hlt := v.toNat_lt
    have hcond : ¬ (u8 v.toNat = [] ∨ ([] : List Char) ≠ [] ∨ 255 < v.toNat) := by
      simp [hne]
      omega
    show (if u8 v.toNat = [] ∨ ([] : List Char) ≠ [] ∨ 255 < v.toNat then none
      else some (⟨field, UInt8.ofNat v.toNat⟩ : Write)) = some ⟨field, v⟩
    rw [if_neg hcond, UInt8.ofNat_toNat]

/-- No two lines of the table have one key. -/
theorem fieldOf_of_mem {f : String × UInt8} (hf : f ∈ fields) :
    fieldOf f.1.toList = some f.2 := by
  have hall : ∀ f ∈ fields, fieldOf f.1.toList = some f.2 := by decide +kernel
  exact hall f hf

/-- The names of the fields are keys. -/
theorem isKey_of_mem {f : String × UInt8} (hf : f ∈ fields) : IsKey f.1.toList := by
  have hall : ∀ f ∈ fields, Plain f.1.toList ∧
      f.1.toList.all (fun c => c != '=' && !isBlank c) = true ∧
      f.1.toList.head?.any (fun c => c != '[' && c != ';') = true := by
    decide +kernel
  obtain ⟨hplain, hchars, hstart⟩ := hall f hf
  refine ⟨hplain, fun c hc => ?_, ?_, Option.isSome_iff_exists.mpr ⟨_, fieldOf_of_mem hf⟩⟩
  · simpa using List.all_eq_true.mp hchars c hc
  · obtain ⟨c, hc, hother⟩ := Option.any_eq_true _ _ |>.mp hstart
    exact ⟨c, hc, by simpa using hother⟩

/-- The settings that are printed. -/
def settings (W : Webcrypt) (s : Settings) : List Setting := preferences s ++ advanced W s

/-- Every setting is in the table. -/
theorem isKey_of_setting {W : Webcrypt} {s : Settings} {x : Setting} (hx : x ∈ settings W s) :
    IsKey x.key.toList := by
  have hkeys : (settings W s).map Setting.key = ["typeSpeed", "keyboardLayout", "ledBrightness",
      "lockout", "lockButton", "touchSense", "modKeyMode", "hmacChallengeMode",
      "derivedChallengeMode", "storedChallengeMode", "webAgentDeriveMode", "secProfileMode",
      "webcryptPolicy", "wipeMode", "backupKeyMode"] := rfl
  have hmem := List.mem_map_of_mem (f := Setting.key) hx
  rw [hkeys] at hmem
  have hall : ∀ k ∈ ["typeSpeed", "keyboardLayout", "ledBrightness", "lockout", "lockButton",
      "touchSense", "modKeyMode", "hmacChallengeMode", "derivedChallengeMode",
      "storedChallengeMode", "webAgentDeriveMode", "secProfileMode", "webcryptPolicy", "wipeMode",
      "backupKeyMode"], ∃ f ∈ fields, f.1 = k := by decide +kernel
  obtain ⟨f, hf, hkey⟩ := hall x.key hmem
  exact hkey ▸ isKey_of_mem hf

/-- Where a value may be written, a printed setting becomes its write, and an unset one nothing. -/
theorem scanLine_lineText {x : Setting} (hkey : IsKey x.key.toList) (ws : List Write) (n : Nat) :
    scanLine ⟨true, ws, n⟩ x.lineText = ⟨true, ws ++ x.write.toList, n⟩ := by
  -- a setting without a value is printed as a comment
  cases hv : x.value with
  | none =>
    have htext : x.lineText = ';' :: (' ' :: (x.key.toList ++
        " unset (the firmware default".toList) ++ [')']) := by
      simp [Setting.lineText, hv]
    -- neither end of the line is a blank, so nothing is trimmed
    have htrim : trim x.lineText = x.lineText := by
      rw [htext]
      exact trim_eq (by decide) (by decide) (List.cons_append).symm
    rw [scanLine_comment _ (htrim.trans htext)]
    simp [Setting.write, hv]
  | some v =>
    obtain ⟨hdigits, hne, -, -⟩ := u8_spec v
    have htext : x.lineText = x.key.toList ++ '=' :: u8 v.toNat := by
      simp [Setting.lineText, hv]
    obtain ⟨c, hc, hopen, hcomment⟩ := hkey.start
    obtain ⟨cs, hcs⟩ := List.head?_eq_some_iff.mp hc
    have hblank := (hkey.chars c (by rw [hcs]; exact List.mem_cons_self)).2
    have hlast := List.dropLast_append_getLast hne
    have hline : x.lineText = c :: (cs ++ '=' :: u8 v.toNat) := by
      rw [htext, hcs]
      rfl
    have htrim : trim x.lineText = x.lineText := by
      rw [hline]
      have hends : c :: (cs ++ '=' :: u8 v.toNat) =
          (c :: (cs ++ '=' :: (u8 v.toNat).dropLast)) ++ [(u8 v.toNat).getLast hne] := by
        rw [List.cons_append, List.append_assoc, List.cons_append, hlast]
      exact trim_eq hblank (hdigits _ (List.getLast_mem hne)).2.1 hends
    have hparse := parseSetting_line hkey v
    rw [← htext, hline] at hparse
    obtain ⟨field, hfield⟩ := Option.isSome_iff_exists.mp hkey.known
    rw [hline] at htrim ⊢
    simp [scanLine, htrim, hopen, hcomment, hparse, hfield, Setting.write, hv]

/-- The lines of a section become its writes. -/
theorem foldl_lineText {xs : List Setting} (hxs : ∀ x ∈ xs, IsKey x.key.toList) (ws : List Write) :
    (xs.map Setting.lineText).foldl scanLine ⟨true, ws, 0⟩ =
      ⟨true, ws ++ xs.filterMap Setting.write, 0⟩ := by
  induction xs generalizing ws with
  | nil => simp
  | cons x xs ih =>
    rw [List.map_cons, List.foldl_cons, scanLine_lineText (hxs x List.mem_cons_self),
      ih fun y hy => hxs y (List.mem_cons_of_mem _ hy)]
    cases hw : x.write <;> simp [hw]

/-- Every line of the text is plain. -/
theorem plain_textLines (W : Webcrypt) (s : Settings) : ∀ l ∈ textLines W s, Plain l := by
  have hmode : ∀ mode, Plain (modeWord mode).toList := fun mode => by cases mode <;> decide
  have hhmac : Plain (if s.hmacChallengemode = 1 then "none" else "press").toList := by
    split <;> decide
  have hsetting : ∀ xs : List Setting, (∀ x ∈ xs, x ∈ settings W s) →
      ∀ l ∈ xs.map Setting.lineText, Plain l := by
    intro xs hxs l hl
    obtain ⟨x, hx, rfl⟩ := List.mem_map.mp hl
    exact plain_lineText (isKey_of_setting (hxs x hx)).plain
  have hinput : ∀ l ∈ inputLines s, Plain l := by
    simp only [inputLines, List.forall_mem_cons]
    exact ⟨by decide, by decide, by decide,
      Plain.append (by decide) (Plain.cons (by decide) (hmode _)),
      Plain.append (by decide) (Plain.cons (by decide) (hmode _)),
      Plain.append (by decide) (Plain.cons (by decide) (hmode _)),
      Plain.append (by decide) (Plain.cons (by decide) hhmac), by decide, by simp⟩
  intro l hl
  simp only [textLines, List.mem_append, List.mem_cons] at hl
  rcases hl with ((hl | rfl | hl) | hl) | hl
  · exact hinput l hl
  · decide
  · exact hsetting _ (fun x hx => List.mem_append_left _ hx) l hl
  · revert l
    decide
  · exact hsetting _ (fun x hx => List.mem_append_right _ hx) l hl

theorem foldl_inputLines (s : Settings) :
    (inputLines s).foldl scanLine ⟨false, [], 0⟩ = ⟨false, [], 0⟩ := by
  have hmoded : ∀ key ∈ ["derived_keys", "stored_keys", "web_derive"], ∀ mode,
      scanLine ⟨false, [], 0⟩ (key.toList ++ '=' :: (modeWord mode).toList) = ⟨false, [], 0⟩ := by
    intro key hkey mode
    revert key
    cases mode <;> decide +kernel
  have hhmac : scanLine ⟨false, [], 0⟩ ("hmac".toList ++ '=' ::
      (if s.hmacChallengemode = 1 then "none" else "press").toList) = ⟨false, [], 0⟩ := by
    split <;> decide +kernel
  have hconst : ∀ l ∈ ["; OnlyKey soft key config - OKGETCONFIG v1".toList, "[input]".toList,
      "; resolved: what the key will ask for (code | press | none) - read-only".toList],
      scanLine ⟨false, [], 0⟩ l = ⟨false, [], 0⟩ := by decide +kernel
  simp only [inputLines, List.foldl_cons, List.foldl_nil]
  rw [hconst _ (by simp), hconst _ (by simp), hconst _ (by simp), hmoded _ (by simp),
    hmoded _ (by simp), hmoded _ (by simp), hhmac, scanLine_blank]

/-- The lines between the sections change nothing. -/
theorem foldl_advancedHead (ws : List Write) :
    advancedHead.foldl scanLine ⟨true, ws, 0⟩ = ⟨true, ws, 0⟩ := by
  have hsection : trim "[advanced]".toList = "[advanced]".toList := by decide +kernel
  have hcomment : trim "; one-way: an import changes these only when asked to".toList =
      ';' :: " one-way: an import changes these only when asked to".toList := by decide +kernel
  have hadv : scanLine ⟨true, ws, 0⟩ "[advanced]".toList = ⟨true, ws, 0⟩ := by
    simp only [scanLine, hsection]
    rfl
  simp only [advancedHead, List.foldl_cons, List.foldl_nil, scanLine_blank, hadv,
    scanLine_comment _ hcomment]

/-- The whole text becomes the writes of its settings. -/
theorem scan_text (W : Webcrypt) (s : Settings) :
    scan (text W s) = ⟨true, (settings W s).filterMap Setting.write, 0⟩ := by
  have hkeys : ∀ x ∈ settings W s, IsKey x.key.toList := fun x hx => isKey_of_setting hx
  have hpref : ∀ x ∈ preferences s, IsKey x.key.toList := fun x hx =>
    hkeys x (List.mem_append_left _ hx)
  have hadv : ∀ x ∈ advanced W s, IsKey x.key.toList := fun x hx =>
    hkeys x (List.mem_append_right _ hx)
  have hplain := plain_textLines W s
  rw [scan, text_eq, List.takeWhile_eq_self_iff.mpr fun c hc => by
    simpa using nul_free hplain c hc, lines_ended hplain]
  simp only [textLines, List.foldl_append, List.foldl_cons, foldl_inputLines]
  have hsection : scanLine ⟨false, [], 0⟩ "[preferences]".toList = ⟨true, [], 0⟩ := by decide +kernel
  rw [hsection, foldl_lineText hpref, foldl_advancedHead, foldl_lineText hadv, settings, List.filterMap_append,
    List.nil_append]

/-! ### The chunks -/

/-- Reports that carry a text: 58 bytes each, and the length in byte 5 of the last. -/
inductive Carries : List Request → List Char → Prop
  | last (r : Request) (hpos : 1 ≤ r.mark.toNat) (hle : r.mark.toNat ≤ chunkSize) :
      Carries [r] (r.payload.take r.mark.toNat)
  | more (r : Request) {rs : List Request} {rest : List Char} (hmark : r.mark = 0xFF)
      (h : Carries rs rest) : Carries (r :: rs) (r.payload ++ rest)

/-- After PIN entry, over the vendor interface, in config mode. -/
def Core.Ready (core : Core) : Prop :=
  core.initialized = true ∧ core.unlocked = true ∧ core.rawUsb = true ∧ core.configmode = true

theorem configSet_last {core : Core} (hcore : core.Ready) {r : Request}
    (hpos : 1 ≤ r.mark.toNat) (hle : r.mark.toNat ≤ chunkSize) {inBuf : List Char}
    (hroom : inBuf.length + r.mark.toNat < outMax) :
    configSet core r inBuf = ([], .applied (scan (inBuf ++ r.payload.take r.mark.toNat)).writes
      (scan (inBuf ++ r.payload.take r.mark.toNat)).unknown) := by
  obtain ⟨hinit, hunlocked, hraw, hconfig⟩ := hcore
  have hmark : r.mark ≠ 0xFF := by
    rintro hmark
    rw [hmark] at hle
    exact absurd hle (by decide)
  have hn : ¬ (r.mark.toNat < 1 ∨ chunkSize < r.mark.toNat) := by omega
  unfold configSet
  rw [if_neg (by simp [hinit, hunlocked]), if_neg (by simp [hraw]), if_neg (by simp [hconfig])]
  simp only [if_neg hmark, if_neg hn, if_neg (not_le.mpr hroom)]

theorem configSet_more {core : Core} (hcore : core.Ready) {r : Request} (hmark : r.mark = 0xFF)
    {inBuf : List Char} (hroom : inBuf.length + chunkSize < outMax) :
    configSet core r inBuf = (inBuf ++ r.payload, .silent) := by
  obtain ⟨hinit, hunlocked, hraw, hconfig⟩ := hcore
  have hn : ¬ (chunkSize < 1 ∨ chunkSize < chunkSize) := by decide
  unfold configSet
  rw [if_neg (by simp [hinit, hunlocked]), if_neg (by simp [hraw]), if_neg (by simp [hconfig])]
  simp only [if_pos hmark, if_neg hn, if_neg (not_le.mpr hroom), List.take_of_length_le r.full.le]

/-- Chunks that carry a text apply it whole. -/
theorem Carries.configSetAll {core : Core} (hcore : core.Ready) {rs : List Request}
    {carried : List Char} (h : Carries rs carried) (inBuf : List Char) (z : Outcome)
    (hroom : inBuf.length + carried.length < outMax) :
    rs.foldl (fun z r => configSet core r z.1) (inBuf, z) =
      ([], .applied (scan (inBuf ++ carried)).writes (scan (inBuf ++ carried)).unknown) := by
  induction h generalizing inBuf z with
  | last r hpos hle =>
    have hlen : (r.payload.take r.mark.toNat).length = r.mark.toNat := by
      rw [List.length_take, r.full, min_eq_left hle]
    rw [hlen] at hroom
    exact configSet_last hcore hpos hle hroom
  | more r hmark h ih =>
    rename_i rest _
    rw [List.length_append, r.full] at hroom
    have hstep : configSet core r inBuf = (inBuf ++ r.payload, .silent) :=
      configSet_more hcore hmark (by omega)
    rw [List.foldl_cons, hstep, ih _ _ (by rw [List.length_append, r.full]; omega),
      List.append_assoc]

/-- A report with this byte 5, zeros after the chunk. -/
def Request.ofChunk (mark : UInt8) (chunk : List Char) : Request where
  mark := mark
  payload := (chunk ++ List.replicate chunkSize '\x00').take chunkSize
  full := by simp

/-- A text in chunks of 58 bytes. -/
theorem exists_carries (n : Nat) (l : List Char) (hn : l.length ≤ n) (hl : l ≠ []) :
    ∃ rs, Carries rs l := by
  induction n generalizing l with
  | zero => exact absurd (List.length_eq_zero_iff.mp (Nat.le_zero.mp hn)) hl
  | succ n ih =>
    have hpos : 1 ≤ l.length := List.length_pos_iff.mpr hl
    -- the last chunk says its length, all others that more is to come
    by_cases hshort : l.length ≤ chunkSize
    · have hmark : (UInt8.ofNat l.length).toNat = l.length := by
        rw [UInt8.toNat_ofNat']
        exact Nat.mod_eq_of_lt (lt_of_le_of_lt hshort (by decide))
      have hpayload : (Request.ofChunk (UInt8.ofNat l.length) l).payload.take
          (UInt8.ofNat l.length).toNat = l := by
        rw [hmark, Request.ofChunk, List.take_take, min_eq_left hshort, List.take_left]
      refine ⟨[.ofChunk (UInt8.ofNat l.length) l], ?_⟩
      have hlast := Carries.last (.ofChunk (UInt8.ofNat l.length) l) (by rw [Request.ofChunk, hmark]; exact hpos)
        (by rw [Request.ofChunk, hmark]; exact hshort)
      rw [Request.ofChunk] at hlast hpayload
      rw [hpayload] at hlast
      exact hlast
    · have hlen : (l.take chunkSize).length = chunkSize := by
        rw [List.length_take]
        omega
      obtain ⟨rs, hrs⟩ := ih (l.drop chunkSize) (by rw [List.length_drop]; simp only [chunkSize]; omega)
        (by rw [Ne, List.drop_eq_nil_iff]; omega)
      refine ⟨.ofChunk 0xFF (l.take chunkSize) :: rs, ?_⟩
      have hmore := Carries.more (.ofChunk 0xFF (l.take chunkSize)) rfl hrs
      have hpayload : (Request.ofChunk 0xFF (l.take chunkSize)).payload = l.take chunkSize := by
        show (l.take chunkSize ++ List.replicate chunkSize '\x00').take chunkSize = _
        rw [List.take_append_of_le_length hlen.ge, List.take_of_length_le hlen.le]
      rwa [hpayload, List.take_append_drop] at hmore

/-! ### What set_slot stores -/

/-- What `set_slot` makes of a stored byte, by the profile, the field and the value written. -/
abbrev SetSlot : Type := UInt8 → UInt8 → UInt8 → UInt8 → UInt8

/-- How `set_slot` stores a value: as it is, but for three fields. -/
structure SetSlot.Lawful (S : SetSlot) (written : UInt8) : Prop where
  typeSpeed : ∀ p v old, S p 13 v old = 11 - v
  lockButton : ∀ p v old, S p 25 v old =
    if p ≠ 0 then (old &&& (0x0f : UInt8)) ||| (v <<< (4 : UInt8))
    else (old &&& (0xf0 : UInt8)) ||| v
  webcryptPolicy : ∀ p v old, S p 31 v old = v ||| written
  others : ∀ p field v old, field ≠ 13 → field ≠ 25 → field ≠ 31 → S p field v old = v

/-- A webcrypt policy is stored with its mark. -/
def Holds (W : Webcrypt) (written : UInt8) (s : Settings) : Prop :=
  W.isWritten s.webcryptPolicy = true →
    (s.webcryptPolicy &&& W.validMask) ||| written = s.webcryptPolicy

theorem nibbles (b : UInt8) :
    (b &&& (0x0f : UInt8)) ||| (b >>> (4 : UInt8) <<< (4 : UInt8)) = b ∧
      (b &&& (0xf0 : UInt8)) ||| (b &&& (0x0f : UInt8)) = b := by
  have hall : ∀ n : Fin 256, (UInt8.ofNat n &&& (0x0f : UInt8)) |||
      (UInt8.ofNat n >>> (4 : UInt8) <<< (4 : UInt8)) = UInt8.ofNat n ∧
      (UInt8.ofNat n &&& (0xf0 : UInt8)) ||| (UInt8.ofNat n &&& (0x0f : UInt8)) = UInt8.ofNat n := by
    decide +kernel
  have hb := hall ⟨b.toNat, b.toNat_lt⟩
  rwa [UInt8.ofNat_toNat] at hb

/-- Twice counted from eleven is the same. -/
theorem eleven_sub (b : UInt8) : (11 : UInt8) - (11 - b) = b := by
  have hall : ∀ n : Fin 256, (11 : UInt8) - (11 - UInt8.ofNat n) = UInt8.ofNat n := by decide +kernel
  have hb := hall ⟨b.toNat, b.toNat_lt⟩
  rwa [UInt8.ofNat_toNat] at hb

section

variable {W : Webcrypt} {S : SetSlot} {written : UInt8} {s : Settings} {w : Write}

/-- The write of a setting with a value. -/
theorem write_eq {x : Setting} (hw : x.write = some w) {v field : UInt8} (hv : x.value = some v)
    (hfield : fieldOf x.key.toList = some field) : w = ⟨field, v⟩ := by
  simp only [Setting.write, hv, Option.bind_some, hfield, Option.map_some,
    Option.some.injEq] at hw
  exact hw.symm

/-- A setting that is always printed is written back as it was. -/
theorem always_again (hS : S.Lawful written) {key : String} {stored field : UInt8}
    (hfield : fieldOf key.toList = some field) (h₁ : field ≠ 13) (h₂ : field ≠ 25)
    (h₃ : field ≠ 31) (hw : (always key stored).write = some w) (profile : UInt8) :
    S profile w.field w.value stored = stored := by
  obtain rfl := write_eq hw rfl hfield
  exact hS.others _ _ _ _ h₁ h₂ h₃

/-- So is one that is printed when it was set. -/
theorem orUnset_again (hS : S.Lawful written) {key : String} {stored field : UInt8}
    (hfield : fieldOf key.toList = some field) (h₁ : field ≠ 13) (h₂ : field ≠ 25)
    (h₃ : field ≠ 31) (hw : (orUnset key stored).write = some w) (profile : UInt8) :
    S profile w.field w.value stored = stored := by
  refine always_again hS hfield h₁ h₂ h₃ ?_ profile
  unfold orUnset at hw
  split at hw
  · exact hw
  · cases hw

theorem typeSpeed_again (hS : S.Lawful written) (hw : (typeSpeed s).write = some w) :
    S s.profilemode w.field w.value s.typeSpeed = s.typeSpeed := by
  have hfield : fieldOf "typeSpeed".toList = some 13 :=
    fieldOf_of_mem (f := ("typeSpeed", 13)) (by simp [fields])
  unfold typeSpeed at hw
  split at hw
  · obtain rfl := write_eq hw rfl hfield
    rw [hS.typeSpeed]
    exact eleven_sub s.typeSpeed
  · cases hw

/-- The half of the byte that is this profile's. -/
theorem lockButton_again (hS : S.Lawful written) (hw : (lockButton s).write = some w) :
    S s.profilemode w.field w.value s.autolockslot = s.autolockslot := by
  have hfield : fieldOf "lockButton".toList = some 25 :=
    fieldOf_of_mem (f := ("lockButton", 25)) (by simp [fields])
  obtain rfl := write_eq hw rfl hfield
  rw [hS.lockButton]
  by_cases hp : s.profilemode ≠ 0
  · simp only [if_pos hp]
    exact (nibbles s.autolockslot).1
  · simp only [if_neg hp]
    exact (nibbles s.autolockslot).2

theorem webcryptPolicy_again (hS : S.Lawful written) (hs : Holds W written s)
    (hw : (webcryptPolicy W s).write = some w) :
    S s.profilemode w.field w.value s.webcryptPolicy = s.webcryptPolicy := by
  have hfield : fieldOf "webcryptPolicy".toList = some 31 :=
    fieldOf_of_mem (f := ("webcryptPolicy", 31)) (by simp [fields])
  unfold webcryptPolicy at hw
  split at hw
  · rename_i hwritten
    obtain rfl := write_eq hw rfl hfield
    rw [hS.webcryptPolicy]
    exact hs hwritten
  · cases hw

/-- What is written for a setting stores its byte again. -/
theorem stores_again (hS : S.Lawful written) (hs : Holds W written s) {x : Setting}
    (hx : x ∈ settings W s) (hw : x.write = some w) :
    S s.profilemode w.field w.value x.stored = x.stored := by
  have halways (key : String) (field : UInt8) (hfield : (key, field) ∈ fields)
      (h : field ≠ 13 ∧ field ≠ 25 ∧ field ≠ 31) (stored : UInt8)
      (hw : (always key stored).write = some w) :
      S s.profilemode w.field w.value stored = stored :=
    always_again hS (fieldOf_of_mem hfield) h.1 h.2.1 h.2.2 hw _
  have hunset (key : String) (field : UInt8) (hfield : (key, field) ∈ fields)
      (h : field ≠ 13 ∧ field ≠ 25 ∧ field ≠ 31) (stored : UInt8)
      (hw : (orUnset key stored).write = some w) :
      S s.profilemode w.field w.value stored = stored :=
    orUnset_again hS (fieldOf_of_mem hfield) h.1 h.2.1 h.2.2 hw _
  simp only [settings, preferences, advanced, List.cons_append, List.nil_append, List.mem_cons,
    List.not_mem_nil, or_false] at hx
  -- one case for each line of the text, in its order
  rcases hx with rfl | rfl | rfl | rfl | rfl | rfl | rfl | rfl | rfl | rfl | rfl | rfl | rfl | rfl |
    rfl
  · exact typeSpeed_again hS hw
  · exact hunset "keyboardLayout" 14 (by simp [fields]) (by decide) _ hw
  · exact hunset "ledBrightness" 24 (by simp [fields]) (by decide) _ hw
  · exact halways "lockout" 11 (by simp [fields]) (by decide) _ hw
  · exact lockButton_again hS hw
  · exact hunset "touchSense" 28 (by simp [fields]) (by decide) _ hw
  · exact halways "modKeyMode" 27 (by simp [fields]) (by decide) _ hw
  · exact halways "hmacChallengeMode" 26 (by simp [fields]) (by decide) _ hw
  · exact halways "derivedChallengeMode" 21 (by simp [fields]) (by decide) _ hw
  · exact halways "storedChallengeMode" 22 (by simp [fields]) (by decide) _ hw
  · exact halways "webAgentDeriveMode" 30 (by simp [fields]) (by decide) _ hw
  · exact halways "secProfileMode" 23 (by simp [fields]) (by decide) _ hw
  · exact webcryptPolicy_again hS hs hw
  · exact halways "wipeMode" 12 (by simp [fields]) (by decide) _ hw
  · exact halways "backupKeyMode" 20 (by simp [fields]) (by decide) _ hw

end

/-! ### The round trip -/

/-- The text is whole and its reply fits; sent back in chunks of 58 bytes and a last one, it makes
exactly the writes of the settings it was printed with, and each stores the byte that was printed
from. -/
theorem printed_config_is_imported {W : Webcrypt} {S : SetSlot} {written : UInt8}
    (hS : S.Lawful written) {s : Settings} (hs : Holds W written s) :
    text W s = (pieces W s).flatten ∧ (text W s).length < outMax ∧ total (text W s) ≤ outMax ∧
      (∃ rs, Carries rs (text W s)) ∧
      (∀ core rs, core.Ready → Carries rs (text W s) → configSetAll core rs [] =
        ([], .applied ((settings W s).filterMap Setting.write) 0)) ∧
      ∀ x ∈ settings W s, ∀ v, x.value = some v → ∃ field, fieldOf x.key.toList = some field ∧
        x.write = some ⟨field, v⟩ ∧ S s.profilemode field v x.stored = x.stored := by
  have hlen : (text W s).length ≤ 675 := by
    rw [text_eq_flatten]
    exact flatten_length W s
  have hroom : (text W s).length < outMax := by
    rw [outMax]
    omega
  have hne : text W s ≠ [] := by
    rw [text_eq, textLines, inputLines]
    exact List.cons_ne_nil _ _
  refine ⟨text_eq_flatten W s, hroom, ?_, exists_carries _ _ le_rfl hne, fun core rs hcore hrs => ?_, fun x hx v hv => ?_⟩
  · rw [total, outMax]
    omega
  · have hall := hrs.configSetAll hcore [] .silent (by simpa using hroom)
    rw [List.nil_append, scan_text] at hall
    exact hall
  · obtain ⟨field, hfield⟩ := Option.isSome_iff_exists.mp (isKey_of_setting hx).known
    have hwrite : x.write = some ⟨field, v⟩ := by simp [Setting.write, hv, hfield]
    exact ⟨field, hfield, hwrite, stores_again hS hs hx hwrite⟩

namespace Demo

/-- A policy byte whose top bit says that it was written. -/
def webcrypt : Webcrypt := ⟨fun b => b &&& 0x80 != 0, 0x03⟩

/-- What the firmware's own setter does to a stored byte. -/
def setSlot : SetSlot := fun p field v old =>
  if field = 13 then 11 - v
  else if field = 25 then
    if p ≠ 0 then (old &&& (0x0f : UInt8)) ||| (v <<< (4 : UInt8))
    else (old &&& (0xf0 : UInt8)) ||| v
  else if field = 31 then v ||| 0x80
  else v

/-- It does what the round trip needs. -/
theorem setSlot_lawful : setSlot.Lawful 0x80 where
  typeSpeed _ _ _ := rfl
  lockButton _ _ _ := rfl
  webcryptPolicy _ _ _ := rfl
  others p field v old h₁ h₂ h₃ := by simp [setSlot, h₁, h₂, h₃]

/-- A device with most of its settings set. -/
def settings : Settings :=
  ⟨4, 1, 0, 30, 0x25, 12, 1, 0, 1, 0, 1, 1, 0x83, 1, 0, 0, .code, .press, .none⟩

theorem holds_settings : Holds webcrypt 0x80 settings := by
  intro _
  decide

end Demo

theorem printed_config_is_imported_once :
    text Demo.webcrypt Demo.settings = (pieces Demo.webcrypt Demo.settings).flatten ∧
      (text Demo.webcrypt Demo.settings).length < outMax ∧
      total (text Demo.webcrypt Demo.settings) ≤ outMax ∧
      (∃ rs, Carries rs (text Demo.webcrypt Demo.settings)) ∧
      (∀ core rs, core.Ready → Carries rs (text Demo.webcrypt Demo.settings) →
        configSetAll core rs [] =
          ([], .applied ((settings Demo.webcrypt Demo.settings).filterMap Setting.write) 0)) ∧
      ∀ x ∈ settings Demo.webcrypt Demo.settings, ∀ v, x.value = some v →
        ∃ field, fieldOf x.key.toList = some field ∧ x.write = some ⟨field, v⟩ ∧
          Demo.setSlot Demo.settings.profilemode field v x.stored = x.stored :=
  printed_config_is_imported Demo.setSlot_lawful Demo.holds_settings

/-- Chunks as they are sent: byte 5 says more, or the length of the last. -/
def requests : List (List Char) → List Request
  | [] => []
  | [c] => [.ofChunk (UInt8.ofNat c.length) c]
  | c :: cs => .ofChunk 0xFF c :: requests cs

/-- The text with its first character in a chunk of its own. -/
def Demo.shortFirst : List (List Char) :=
  (pieces Demo.webcrypt Demo.settings).flatten.take 1 :: (List.range 10).map fun i =>
    ((pieces Demo.webcrypt Demo.settings).flatten.drop (1 + 58 * i)).take 58

/-- A short chunk before the last one is read as 58 bytes. -/
theorem short_chunk_is_misread :
    ¬ ∀ (W : Webcrypt) (s : Settings) (core : Core) (split : List (List Char)), core.Ready →
      (∀ c ∈ split, 1 ≤ c.length ∧ c.length ≤ chunkSize) → split.flatten = text W s →
      configSetAll core (requests split) [] =
        ([], .applied ((settings W s).filterMap Setting.write) 0) := by
  intro h
  have hcore : Core.Ready ⟨true, true, true, true⟩ := ⟨rfl, rfl, rfl, rfl⟩
  have hmisread :
      ((∀ c ∈ Demo.shortFirst, 1 ≤ c.length ∧ c.length ≤ chunkSize) ∧
        Demo.shortFirst.flatten = (pieces Demo.webcrypt Demo.settings).flatten) ∧
      configSetAll ⟨true, true, true, true⟩ (requests Demo.shortFirst) [] ≠
        ([], .applied ((settings Demo.webcrypt Demo.settings).filterMap Setting.write) 0) := by
    decide +kernel
  obtain ⟨⟨hsizes, htext⟩, hother⟩ := hmisread
  exact hother (h _ _ _ Demo.shortFirst hcore hsizes (htext.trans (text_eq_flatten _ _).symm))

end OkRn.Config
