/-
OkRn/Config/Ini.lean

The settings as INI text: OKGETCONFIG prints them, OKSETCONFIG reads them back.

The printer puts its pieces into a buffer one byte longer than the text it may
hold; the longest text is shorter than that.  The reader collects chunks in a
buffer of the same size and goes through the lines once the last chunk came: a
value under [preferences] or [advanced] becomes one write of the firmware's.

* a `Setting` is a key with its stored byte and the value it is printed with, if any:
  one definition for each kind of line the printer has;
* `text` is what the printer gives, piece by piece into the buffer (`put`);
* `configSet` takes a chunk, and `scan` goes through the lines of the whole text.
-/
import Mathlib.Data.List.Basic
import Mathlib.Data.List.DropRight
import Mathlib.Tactic.Common

namespace OkRn.Config

/-! ### The printer -/

/-- `OUT_MAX`: 11 reports. -/
def outMax : Nat := 704

/-- `put`: what still fits, with room for the NUL. -/
def put (out : List Char) (s : List Char) : List Char := out ++ s.take (outMax - 1 - out.length)

/-- The digits of `v` from the last one on, at most as many as there is room for. -/
def lowDigits : Nat → Nat → List Char
  | 0, _ => []
  | room + 1, v =>
      Char.ofNat ('0'.toNat + v % 10) :: if v / 10 = 0 then [] else lowDigits room (v / 10)

/-- What `put_u8` puts. -/
def u8 (v : Nat) : List Char := (lowDigits 3 v).reverse

/-- What the core will ask for. -/
inductive InputMode
  | code | press | none

/-- `mode_word`. -/
def modeWord : InputMode → String
  | .code => "code"
  | .press => "press"
  | .none => "none"

/-- The stored bytes, the profile, and how the core resolves the input modes. -/
structure Settings where
  typeSpeed : UInt8
  keyboardLayout : UInt8
  ledBrightness : UInt8
  timeout : UInt8
  autolockslot : UInt8
  touchoffset : UInt8
  modkey : UInt8
  hmacChallengemode : UInt8
  derivedKeyChallengeMode : UInt8
  storedKeyChallengeMode : UInt8
  webAgentDeriveMode : UInt8
  secondProfileMode : UInt8
  webcryptPolicy : UInt8
  wipemode : UInt8
  backupkeymode : UInt8
  profilemode : UInt8
  derivedKeys : InputMode
  storedKeys : InputMode
  webDerive : InputMode

/-- The firmware's constants for the webcrypt policy. -/
structure Webcrypt where
  isWritten : UInt8 → Bool
  validMask : UInt8

/-- A setting: its stored byte, and the value it is printed with, if any. -/
structure Setting where
  key : String
  stored : UInt8
  value : Option UInt8

/-- `line`. -/
def line (key : String) (value : UInt8) : List (List Char) :=
  [key.toList, "=".toList, u8 value.toNat, "\n".toList]

/-- A setting that was never set. -/
def unset (key : String) : List (List Char) :=
  ["; ".toList, key.toList, " unset (the firmware default)\n".toList]

/-- `moded`. -/
def moded (key : String) (mode : InputMode) : List (List Char) :=
  [key.toList, "=".toList, (modeWord mode).toList, "\n".toList]

/-- The line of a setting, or its comment where it has no value. -/
def Setting.pieces (x : Setting) : List (List Char) :=
  match x.value with
  | some v => line x.key v
  | none => unset x.key

/-- `line` of a stored byte. -/
def always (key : String) (stored : UInt8) : Setting := ⟨key, stored, some stored⟩

/-- `line_or_unset`: 0 means never set. -/
def orUnset (key : String) (stored : UInt8) : Setting :=
  ⟨key, stored, if stored ≠ 0 then some stored else none⟩

/-- The type speed, printed the way the page counts it. -/
def typeSpeed (s : Settings) : Setting :=
  ⟨"typeSpeed", s.typeSpeed,
    if 1 ≤ s.typeSpeed ∧ s.typeSpeed ≤ 11 then some (11 - s.typeSpeed) else none⟩

/-- One nibble for each profile. -/
def lockButton (s : Settings) : Setting :=
  ⟨"lockButton", s.autolockslot,
    some (if s.profilemode ≠ 0 then s.autolockslot >>> 4 else s.autolockslot &&& 0x0f)⟩

/-- The policy byte, once it was written. -/
def webcryptPolicy (W : Webcrypt) (s : Settings) : Setting :=
  ⟨"webcryptPolicy", s.webcryptPolicy,
    if W.isWritten s.webcryptPolicy then some (s.webcryptPolicy &&& W.validMask) else none⟩

/-- The section that an import may write. -/
def preferences (s : Settings) : List Setting :=
  [typeSpeed s,
    orUnset "keyboardLayout" s.keyboardLayout,
    orUnset "ledBrightness" s.ledBrightness,
    always "lockout" s.timeout,
    lockButton s,
    orUnset "touchSense" s.touchoffset,
    always "modKeyMode" s.modkey,
    always "hmacChallengeMode" s.hmacChallengemode,
    always "derivedChallengeMode" s.derivedKeyChallengeMode,
    always "storedChallengeMode" s.storedKeyChallengeMode,
    always "webAgentDeriveMode" s.webAgentDeriveMode,
    always "secProfileMode" s.secondProfileMode]

/-- The section that is written only when it is asked for. -/
def advanced (W : Webcrypt) (s : Settings) : List Setting :=
  [webcryptPolicy W s, always "wipeMode" s.wipemode, always "backupKeyMode" s.backupkeymode]

/-- `OKGETCONFIG_VERSION`. -/
def version : Nat := 1

/-- Everything `okplugin_config_recv` puts, in order. -/
def pieces (W : Webcrypt) (s : Settings) : List (List Char) :=
  ["; OnlyKey soft key config - OKGETCONFIG v".toList, u8 version,
    "\n[input]\n; resolved: what the key will ask for (code | press | none) - read-only\n".toList]
  ++ moded "derived_keys" s.derivedKeys ++ moded "stored_keys" s.storedKeys
  ++ moded "web_derive" s.webDerive
  ++ ["hmac=".toList, (if s.hmacChallengemode = 1 then "none" else "press").toList, "\n".toList]
  ++ ["\n[preferences]\n".toList] ++ (preferences s).flatMap Setting.pieces
  ++ ["\n[advanced]\n; one-way: an import changes these only when asked to\n".toList]
  ++ (advanced W s).flatMap Setting.pieces

/-- The text in the buffer. -/
def text (W : Webcrypt) (s : Settings) : List Char := (pieces W s).foldl put []

/-- The length of the reply: the text and its NUL, in whole reports. -/
def total (text : List Char) : Nat := (text.length + 1 + 63) / 64 * 64

/-! ### The reader -/

/-- `OKSETCONFIG_CHUNK`. -/
def chunkSize : Nat := 58

/-- An OKSETCONFIG report: byte 5, and the bytes from 6 on. -/
structure Request where
  mark : UInt8
  payload : List Char
  full : payload.length = chunkSize

/-- A setting written by `set_slot`: the field and the value. -/
structure Write where
  field : UInt8
  value : UInt8
  deriving DecidableEq

/-- What a chunk is answered. -/
inductive Outcome
  | silent
  | error (message : String)
  /-- The writes handed to `set_slot`, and the count of what was not known. -/
  | applied (writes : List Write) (unknown : Nat)
  deriving DecidableEq

/-- `FIELDS`. -/
def fields : List (String × UInt8) :=
  [("lockout", 11), ("wipeMode", 12), ("typeSpeed", 13), ("keyboardLayout", 14),
    ("backupKeyMode", 20), ("derivedChallengeMode", 21), ("storedChallengeMode", 22),
    ("secProfileMode", 23), ("ledBrightness", 24), ("lockButton", 25),
    ("hmacChallengeMode", 26), ("modKeyMode", 27), ("touchSense", 28),
    ("webAgentDeriveMode", 30), ("webcryptPolicy", 31)]

/-- `field_of`. -/
def fieldOf (key : List Char) : Option UInt8 :=
  (fields.find? fun f => f.1.toList == key).map Prod.snd

/-- What may stand before a section or a key. -/
def isSpace (c : Char) : Bool := c == ' ' || c == '\t'

/-- What is cut off both ends of a line. -/
def isBlank (c : Char) : Bool := isSpace c || c == '\r'

/-- A decimal digit. -/
def isDigit (c : Char) : Bool := decide ('0' ≤ c) && decide (c ≤ '9')

/-- A line without its blanks. -/
def trim (l : List Char) : List Char := (l.dropWhile isBlank).rdropWhile isBlank

/-- The value of some digits. -/
def valueOf (ds : List Char) : Nat := ds.foldl (fun value c => value * 10 + (c.toNat - '0'.toNat)) 0

/-- `key=value`: the write, or nothing for what is not known. -/
def parseSetting (l : List Char) : Option Write :=
  let key := (l.takeWhile (· ≠ '=')).rdropWhile isSpace
  match l.dropWhile (· ≠ '=') with
  | [] => none
  | _ :: v =>
      let v := v.dropWhile isSpace
      let ds := (v.takeWhile isDigit).take 4
      match fieldOf key with
      | none => none
      | some field =>
          -- four digits at most are read, so a fifth counts as what follows the value
          if ds = [] ∨ v.drop ds.length ≠ [] ∨ 255 < valueOf ds then none
          else some ⟨field, UInt8.ofNat (valueOf ds)⟩

/-- Inside [preferences] or [advanced], and what was read so far. -/
structure Scan where
  writable : Bool
  writes : List Write
  unknown : Nat
  deriving DecidableEq

/-- One line. -/
def scanLine (z : Scan) (l : List Char) : Scan :=
  match trim l with
  | [] => z
  | c :: cs =>
      if c = '[' then
        { z with
          writable := (c :: cs) == "[preferences]".toList || (c :: cs) == "[advanced]".toList }
      -- [input] and any other section are read-only
      else if c = ';' ∨ z.writable = false then z
      else match parseSetting (c :: cs) with
        | some w => { z with writes := z.writes ++ [w] }
        | none => { z with unknown := z.unknown + 1 }

/-- The lines of a text; the last one may end without a newline. -/
def lines : List Char → List (List Char)
  | [] => []
  | c :: rest =>
      if c = '\n' then [] :: lines rest
      else match lines rest with
        | [] => [[c]]
        | l :: ls => (c :: l) :: ls

/-- What a whole text is read as; it ends at the first NUL. -/
def scan (inBuf : List Char) : Scan :=
  (lines (inBuf.takeWhile (· ≠ '\x00'))).foldl scanLine ⟨false, [], 0⟩

/-- The core's state, as far as the import asks. -/
structure Core where
  initialized : Bool
  unlocked : Bool
  /-- `outputmode == RAW_USB`. -/
  rawUsb : Bool
  configmode : Bool

/-- `okplugin_config_set`; `inBuf` is what `in` holds. -/
def configSet (core : Core) (r : Request) (inBuf : List Char) : List Char × Outcome :=
  if !(core.initialized && core.unlocked) then (inBuf, .silent)
  else if !core.rawUsb then (inBuf, .error "Error OKSETCONFIG is vendor API only")
  else if !core.configmode then ([], .error "Error OKSETCONFIG needs config mode")
  else
    -- 0xFF: this chunk is whole, and more are to come
    let n := if r.mark = 0xFF then chunkSize else r.mark.toNat
    if n < 1 ∨ chunkSize < n then ([], .error "Error OKSETCONFIG bad chunk")
    else if outMax ≤ inBuf.length + n then ([], .error "Error OKSETCONFIG too long")
    else
      let inBuf := inBuf ++ r.payload.take n
      if r.mark = 0xFF then (inBuf, .silent)
      else ([], .applied (scan inBuf).writes (scan inBuf).unknown)

/-- Reports one after another: what `in` holds then, and the last outcome. -/
def configSetAll (core : Core) (rs : List Request) (inBuf : List Char) : List Char × Outcome :=
  rs.foldl (fun z r => configSet core r z.1) (inBuf, .silent)

end OkRn.Config
