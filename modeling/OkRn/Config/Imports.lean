/-
OkRn/Config/Imports.lean

Imports one after another, some of them refused or left half way.

A chunk says neither which import it is of nor whether it is the first: all the
reader has is what `in` holds.  A refusal empties it, and the host goes on sending;
an import left half way leaves its bytes for the next one.

* `Desk` puts beside `in` what only the host knows: the text of the import under way,
  and whether each of its chunks was taken;
* `Desk.Right` says what a chunk should come to: the last chunk of a whole import
  writes what its text says, and no other chunk writes anything;
* `Desk.WholeSoFar` is what is asked of the chunks that come: a first chunk finds
  nothing in `in`, and the end of an import does not come when a chunk of it was lost
  or refused.

Main results: `imports_are_whole`, and `end_of_a_refused_import_is_applied` for an end
that comes all the same.
-/
import OkRn.Config.Ini
import OkRn.Lib.Along

namespace OkRn.Config

/-! ### A chunk -/

/-- How many bytes a report carries, by its byte 5. -/
def Request.count (r : Request) : Nat := if r.mark = 0xFF then chunkSize else r.mark.toNat

/-- The part of the payload that the mark counts. -/
def Request.text (r : Request) : List Char := r.payload.take r.count

/-- The last chunk of an import names how many bytes it carries. -/
def Request.isLast (r : Request) : Bool := r.mark != 0xFF

/-- The report goes into `in`. -/
def takes (core : Core) (r : Request) (inBuf : List Char) : Bool :=
  core.initialized && core.unlocked && core.rawUsb && core.configmode &&
    decide (1 ≤ r.count ∧ r.count ≤ chunkSize ∧ inBuf.length + r.count < outMax)

variable {core : Core} {r : Request} {inBuf : List Char}

/-- What a chunk does, one check after another. -/
theorem configSet_eq :
    configSet core r inBuf =
      if !(core.initialized && core.unlocked) then (inBuf, .silent)
      else if !core.rawUsb then (inBuf, .error "Error OKSETCONFIG is vendor API only")
      else if !core.configmode then ([], .error "Error OKSETCONFIG needs config mode")
      else if r.count < 1 ∨ chunkSize < r.count then ([], .error "Error OKSETCONFIG bad chunk")
      else if outMax ≤ inBuf.length + r.count then ([], .error "Error OKSETCONFIG too long")
      else if r.mark = 0xFF then (inBuf ++ r.text, .silent)
      else ([], .applied (scan (inBuf ++ r.text)).writes (scan (inBuf ++ r.text)).unknown) := rfl

/-- A chunk that passes the checks is put to the others, and the last one is applied. -/
theorem configSet_taken (h : takes core r inBuf = true) :
    configSet core r inBuf =
      if r.isLast then
        ([], .applied (scan (inBuf ++ r.text)).writes (scan (inBuf ++ r.text)).unknown)
      else (inBuf ++ r.text, .silent) := by
  simp only [takes, Bool.and_eq_true, decide_eq_true_eq] at h
  obtain ⟨⟨⟨⟨hinit, hunlocked⟩, hraw⟩, hconfig⟩, hpos, hle, hroom⟩ := h
  rw [configSet_eq, if_neg (by simp [hinit, hunlocked]), if_neg (by simp [hraw]),
    if_neg (by simp [hconfig]), if_neg (by omega), if_neg (by omega), Request.isLast]
  by_cases hmark : r.mark = 0xFF <;> simp [hmark]

/-- A report that is not taken applies nothing. -/
theorem configSet_refused (h : takes core r inBuf = false) (ws : List Write) (unknown : Nat) :
    (configSet core r inBuf).2 ≠ .applied ws unknown := by
  have herror (b : List Char) (m : String) : (b, Outcome.error m).2 ≠ .applied ws unknown :=
    fun h => by cases h
  rw [configSet_eq]
  by_cases hready : (core.initialized && core.unlocked) = true
  · rw [hready, Bool.not_true, if_neg Bool.false_ne_true]
    by_cases hraw : core.rawUsb = true
    · by_cases hconfig : core.configmode = true
      · -- a bad chunk, or one too many
        rw [hraw, hconfig, Bool.not_true, if_neg Bool.false_ne_true, if_neg Bool.false_ne_true]
        simp only [takes, hready, hraw, hconfig, Bool.true_and, decide_eq_false_iff_not] at h
        by_cases hchunk : r.count < 1 ∨ chunkSize < r.count
        · rw [if_pos hchunk]
          exact herror _ _
        · rw [if_neg hchunk, if_pos (by omega)]
          exact herror _ _
      · rw [hraw, Bool.not_true, if_neg Bool.false_ne_true, if_pos (by simpa using hconfig)]
        exact herror _ _
    · rw [if_pos (by simpa using hraw)]
      exact herror _ _
  · rw [Bool.eq_false_iff.mpr hready, Bool.not_false, if_pos rfl]
    exact fun h => by cases h

/-! ### Runs of chunks -/

/-- A chunk as the host sends it, and the core's state then. -/
structure Chunk where
  /-- The first of an import. -/
  first : Bool
  /-- It reaches the key. -/
  comes : Bool
  core : Core
  request : Request

/-- `in`, and what the host knows of the import under way. -/
structure Desk where
  inBuf : List Char := []
  /-- The text of its chunks so far. -/
  own : List Char := []
  /-- Each of them was taken. -/
  clean : Bool := false

namespace Desk

/-- A chunk comes and passes the checks. -/
def takes (z : Desk) (x : Chunk) : Bool := x.comes && Config.takes x.core x.request z.inBuf

/-- The text of the import, this chunk with it. -/
def text (z : Desk) (x : Chunk) : List Char := (if x.first then [] else z.own) ++ x.request.text

/-- Every chunk of the import was taken, this one too. -/
def whole (z : Desk) (x : Chunk) : Bool := (x.first || z.clean) && z.takes x

/-- What the key does with the chunk. -/
def answer (z : Desk) (x : Chunk) : List Char × Outcome :=
  if x.comes then configSet x.core x.request z.inBuf else (z.inBuf, .silent)

/-- A last chunk ends its import. -/
def step (z : Desk) (x : Chunk) : Desk where
  inBuf := (z.answer x).1
  own := if x.request.isLast then [] else z.text x
  clean := !x.request.isLast && z.whole x

/-- The last chunk of an import whose chunks were all taken writes what its text says; no other
chunk writes anything. -/
structure Right (z : Desk) (x : Chunk) : Prop where
  applied : x.request.isLast = true → z.whole x = true →
    (z.answer x).2 = .applied (scan (z.text x)).writes (scan (z.text x)).unknown
  nothing : ¬ (x.request.isLast = true ∧ z.whole x = true) →
    ∀ ws unknown, (z.answer x).2 = .applied ws unknown → ws = []

/-- A first chunk that is taken finds nothing in `in`; and the end of an import does not come when
a chunk of it was lost or refused. -/
def WholeSoFar (z : Desk) (x : Chunk) : Prop :=
  (x.first = true → z.takes x = true → z.inBuf = []) ∧
    (x.comes = true → x.request.isLast = true → x.first = false → z.clean = true)

instance (z : Desk) (x : Chunk) : Decidable (z.WholeSoFar x) :=
  inferInstanceAs (Decidable (_ ∧ _))

/-- `in` holds the import under way, as long as all of it was taken. -/
def Inv (z : Desk) : Prop := z.clean = true → z.inBuf = z.own

variable {z : Desk} {x : Chunk}

/-- What a chunk that is taken makes of the desk. -/
theorem answer_taken (h : z.takes x = true) :
    z.answer x =
      if x.request.isLast then
        ([], .applied (scan (z.inBuf ++ x.request.text)).writes
          (scan (z.inBuf ++ x.request.text)).unknown)
      else (z.inBuf ++ x.request.text, .silent) := by
  obtain ⟨hcomes, htakes⟩ := Bool.and_eq_true_iff.mp h
  rw [answer, if_pos hcomes, configSet_taken htakes]

/-- A chunk that is not taken applies nothing. -/
theorem answer_refused (h : z.takes x = false) (ws : List Write) (unknown : Nat) :
    (z.answer x).2 ≠ .applied ws unknown := by
  unfold answer
  split
  · rename_i hcomes
    rw [takes, hcomes, Bool.true_and] at h
    exact configSet_refused h ws unknown
  · exact fun h => by cases h

/-- With all of it taken, `in` and the chunk are the text of the import. -/
theorem Inv.text_eq (h : z.Inv) (hsofar : z.WholeSoFar x) (hwhole : z.whole x = true) :
    z.inBuf ++ x.request.text = z.text x := by
  obtain ⟨hstart, htakes⟩ := Bool.and_eq_true_iff.mp hwhole
  unfold Desk.text
  rcases hfirst : x.first with - | -
  · rw [hfirst, Bool.false_or] at hstart
    rw [h hstart]
    rfl
  · rw [hsofar.1 hfirst htakes]
    rfl

/-- A chunk that comes in the order asked for keeps the invariant. -/
theorem Inv.step (h : z.Inv) (hsofar : z.WholeSoFar x) : (z.step x).Inv := by
  intro hclean
  obtain ⟨hmore, hwhole⟩ := Bool.and_eq_true_iff.mp hclean
  have hmore : x.request.isLast = false := by simpa using hmore
  have htakes : z.takes x = true := (Bool.and_eq_true_iff.mp hwhole).2
  simp only [Desk.step, answer_taken htakes, hmore, Bool.false_eq_true, if_false]
  exact h.text_eq hsofar hwhole

theorem Inv.right (h : z.Inv) (hsofar : z.WholeSoFar x) : z.Right x := by
  constructor
  · intro hlast hwhole
    have htakes : z.takes x = true := (Bool.and_eq_true_iff.mp hwhole).2
    rw [answer_taken htakes, if_pos hlast, h.text_eq hsofar hwhole]
  · intro hnot ws unknown hanswer
    rcases htakes : z.takes x with - | -
    · exact absurd hanswer (answer_refused htakes ws unknown)
    · rcases hlast : x.request.isLast with - | -
      · rw [answer_taken htakes, hlast] at hanswer
        cases hanswer
      · -- a last chunk that is taken: the whole import was
        refine absurd ⟨hlast, ?_⟩ hnot
        have hcomes : x.comes = true := (Bool.and_eq_true_iff.mp htakes).1
        rcases hfirst : x.first with - | -
        · rw [whole, hfirst, hsofar.2 hcomes hlast hfirst, htakes]
          rfl
        · rw [whole, hfirst, htakes]
          rfl

end Desk

/-! ### The result -/

/-- In every run of chunks where an import begins with nothing in `in` and its end does not come
after one of its chunks was lost or refused, each whole import writes what its text says and
nothing else is written. -/
theorem imports_are_whole {xs : List Chunk} (h : AllAlong Desk.step Desk.WholeSoFar {} xs) :
    ∀ past x, past ++ [x] <+: xs → (past.foldl Desk.step {}).Right x := by
  have hnew : ({} : Desk).Inv := fun h => by cases h
  intro past x hp
  obtain ⟨hinv, hx⟩ := h.before hnew (fun _ _ hinv hx => hinv.step hx) hp
  exact hinv.right hx

namespace Demo

/-- After PIN entry, over the vendor interface, in config mode. -/
def configCore : Core := ⟨true, true, true, true⟩

/-- A chunk of the tests, padded to its size. -/
def chunk (first : Bool) (mark : UInt8) (text : String) : Chunk :=
  ⟨first, true, configCore, mark, (text.toList ++ List.replicate chunkSize '\x00').take chunkSize,
    by simp⟩

/-- "[preferences]" and "lockout=9" in one last chunk. -/
def lockoutChunk (first : Bool) : Chunk := chunk first 24 "[preferences]\nlockout=9\n"

/-- An import that is too long by its last chunk but one. -/
def longImport : List Chunk := chunk true 0xFF "; " :: List.replicate 12 (chunk false 0xFF "; ")

end Demo

namespace Demo

/-- "[preferences]" and a comment that fills the chunk. -/
def pageChunk (first : Bool) : Chunk :=
  chunk first 0xFF (String.ofList ("[preferences]\n;".toList ++ List.replicate 42 '-' ++ ['\n']))

/-- "lockout=9" in a last chunk. -/
def endChunk : Chunk := chunk false 10 "lockout=9\n"

/-- The key has left config mode. -/
def leftChunk : Chunk := { pageChunk false with core := { configCore with configmode := false } }

/-- An import of two chunks; one whose second chunk is refused, and that is not ended; and one of
one chunk. -/
def imports : List Chunk :=
  [pageChunk true, endChunk, pageChunk true, leftChunk, lockoutChunk true]

end Demo

theorem imports_are_whole_among_refused :
    ((Desk.step {} (Demo.pageChunk true)).answer Demo.endChunk).2 = .applied [⟨11, 9⟩] 0 ∧
      (((Demo.imports.take 3).foldl Desk.step {}).answer Demo.leftChunk).1 = [] ∧
      (Desk.step {} (Demo.pageChunk true)).Right Demo.endChunk ∧
      ((Demo.imports.take 3).foldl Desk.step {}).Right Demo.leftChunk ∧
      ((Demo.imports.take 4).foldl Desk.step {}).Right (Demo.lockoutChunk true) := by
  have hall : AllAlong Desk.step Desk.WholeSoFar {} Demo.imports := by decide +kernel
  have h := imports_are_whole hall
  refine ⟨by decide +kernel, by decide +kernel, ?_, ?_, ?_⟩
  · exact h [Demo.pageChunk true] _ ⟨Demo.imports.drop 2, rfl⟩
  · exact h (Demo.imports.take 3) _ ⟨Demo.imports.drop 4, rfl⟩
  · exact h (Demo.imports.take 4) _ (List.prefix_refl _)

/-- The thirteenth chunk is refused as too long; the fourteenth, the last, is applied by itself. -/
theorem end_of_a_refused_import_is_applied :
    ¬ (Demo.longImport.foldl Desk.step {}).Right (Demo.lockoutChunk false) := by
  intro h
  have hanswer : ((Demo.longImport.foldl Desk.step {}).answer (Demo.lockoutChunk false)).2 =
      .applied [⟨11, 9⟩] 0 := by decide +kernel
  exact absurd (h.nothing (by decide +kernel) _ _ hanswer) (by decide)

end OkRn.Config
