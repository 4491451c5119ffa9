/-
OkRn/Passwords/Generator.lean

A random password for a slot.

One character of each chosen kind, then characters of all chosen kinds, then a
shuffle.  Each index is drawn by rejection: a word from the tail of the 2^32 that
would favour some indices is dropped, and the next one is read.  `Gives` says what a
draw can come to on some stream of words; a stream on which it does not end says
nothing.
-/
import OkRn.Lib.Shuffle
import Mathlib.Data.Int.CardIntervalMod

namespace OkRn.Passwords

/-! ### Drawing -/

/-- What is drawn from a stream of random words; nothing when the words run out first. -/
abbrev Draw := StateT (List UInt32) Option

/-- The words below it are accepted: the largest multiple of `max` that 2^32 holds. -/
def limit (max : Nat) : Nat := 0x100000000 / max * max

/-- A word is read until one is accepted. -/
def acceptIndex (max : Nat) : List UInt32 → Option (Nat × List UInt32)
  | [] => none
  | word :: words =>
      if word.toNat < limit max then some (word.toNat % max, words) else acceptIndex max words

/-- One index in [0, max). -/
def randomIndex (max : Nat) : Draw Nat := acceptIndex max

/-- `set[randomIndex(set.length)]`. -/
def pick (set : List Char) : Draw Char := do
  let i ← randomIndex set.length
  return set.getD i ' '

/-! ### The generator -/

/-- The kinds of characters. -/
inductive Kind
  | upper
  | lower
  | digits
  | symbols
  deriving DecidableEq

/-- The characters of a kind. -/
def charset : Kind → List Char
  | .upper => "ABCDEFGHIJKLMNOPQRSTUVWXYZ".toList
  | .lower => "abcdefghijklmnopqrstuvwxyz".toList
  | .digits => "0123456789".toList
  | .symbols => "~!@#$%^&*+=-_\"\x27;:,.?()\x7b\x7d[]<>".toList

/-- What is asked for. -/
structure PasswordOptions where
  /-- A length that is not a whole number is refused like one out of range. -/
  length : Nat
  upper : Bool
  lower : Bool
  digits : Bool
  symbols : Bool

/-- The kind is asked for. -/
def PasswordOptions.chosen (o : PasswordOptions) : Kind → Bool
  | .upper => o.upper
  | .lower => o.lower
  | .digits => o.digits
  | .symbols => o.symbols

/-- The shortest password. -/
def minLength : Nat := 8

/-- And the longest. -/
def maxLength : Nat := 56

/-- The character sets of the chosen kinds. -/
def PasswordOptions.classes (o : PasswordOptions) : List (List Char) :=
  ([.upper, .lower, .digits, .symbols].filter o.chosen).map charset

/-- `while (chars.length < length) chars.push(...)`, with the number of characters to go. -/
def fill (all : List Char) : Nat → List Char → Draw (List Char)
  | 0, chars => pure chars
  | n + 1, chars => do
      let c ← pick all
      fill all n (chars ++ [c])

/-- The swaps from place `i` down to place 1. -/
def shuffle : Nat → List Char → Draw (List Char)
  | 0, chars => pure chars
  | i + 1, chars => do
      let j ← randomIndex (i + 2)
      shuffle i (Shuffle.swap chars (i + 1) j)

/-- `generatePassword`. -/
def generatePassword (options : PasswordOptions) : Except String (Draw (List Char)) :=
  let length := options.length
  let classes := options.classes
  if length < minLength ∨ maxLength < length then
    .error s!"length must be a whole number {minLength}..{maxLength}"
  else if classes = [] then
    .error "pick at least one kind of character"
  else if length < classes.length then
    .error s!"a password of {length} cannot hold one of each of {classes.length} kinds"
  else
    .ok do
      let chars ← classes.mapM pick
      let chars ← fill classes.flatten (length - chars.length) chars
      shuffle (chars.length - 1) chars

/-! ### What a draw can come to -/

/-- On some stream of words. -/
def Gives {α : Type} (draw : Draw α) (a : α) : Prop :=
  ∃ words rest, draw.run words = some (a, rest)

section

variable {α β : Type} {draw : Draw α} {next : α → Draw β} {a a' : α} {b : β}

theorem gives_pure (h : Gives (pure a : Draw α) a') : a' = a := by
  obtain ⟨words, rest, h⟩ := h
  exact (Prod.ext_iff.mp (Option.some.inj h)).1.symm

theorem gives_bind (h : Gives (draw >>= next) b) : ∃ a, Gives draw a ∧ Gives (next a) b := by
  obtain ⟨words, rest, h⟩ := h
  rw [StateT.run_bind] at h
  obtain ⟨⟨a, words'⟩, ha, hb⟩ := Option.bind_eq_some_iff.mp h
  exact ⟨a, ⟨words, words', ha⟩, words', rest, hb⟩

end

/-- An index is below its bound. -/
theorem acceptIndex_lt {max i : Nat} {words rest : List UInt32}
    (h : acceptIndex max words = some (i, rest)) : i < max := by
  induction words with
  | nil => cases h
  | cons word words ih =>
    rw [acceptIndex] at h
    split at h
    · rename_i hlt
      obtain ⟨rfl, -⟩ := Prod.ext_iff.mp (Option.some.inj h)
      refine Nat.mod_lt _ (Nat.pos_of_ne_zero ?_)
      rintro rfl
      exact absurd hlt (by simp [limit])
    · exact ih h

theorem gives_randomIndex {max i : Nat} (h : Gives (randomIndex max) i) : i < max := by
  obtain ⟨words, rest, h⟩ := h
  exact acceptIndex_lt h

theorem gives_pick {set : List Char} {c : Char} (h : Gives (pick set) c) : c ∈ set := by
  obtain ⟨i, hi, hc⟩ := gives_bind h
  have hlt := gives_randomIndex hi
  rw [gives_pure hc, List.getD_eq_getElem?_getD, List.getElem?_eq_getElem hlt]
  exact List.getElem_mem hlt

/-- One character for each class, and no others. -/
theorem gives_mapM_pick {classes : List (List Char)} {chars : List Char}
    (h : Gives (classes.mapM pick) chars) : chars.length = classes.length ∧
      (∀ set ∈ classes, ∃ c ∈ chars, c ∈ set) ∧ ∀ c ∈ chars, ∃ set ∈ classes, c ∈ set := by
  induction classes generalizing chars with
  | nil =>
    rw [gives_pure h]
    exact ⟨rfl, fun set hset => absurd hset List.not_mem_nil,
      fun c hc => absurd hc List.not_mem_nil⟩
  | cons set classes ih =>
    rw [List.mapM_cons] at h
    obtain ⟨c, hc, h⟩ := gives_bind h
    obtain ⟨cs, hcs, h⟩ := gives_bind h
    obtain ⟨hlen, hsets, hchars⟩ := ih hcs
    rw [gives_pure h]
    refine ⟨by simp [hlen], fun set' hset' => ?_, fun c' hc' => ?_⟩
    · rcases List.mem_cons.mp hset' with rfl | hset'
      · exact ⟨c, List.mem_cons_self, gives_pick hc⟩
      · obtain ⟨c', hc', hmem⟩ := hsets set' hset'
        exact ⟨c', List.mem_cons_of_mem _ hc', hmem⟩
    · rcases List.mem_cons.mp hc' with rfl | hc'
      · exact ⟨set, List.mem_cons_self, gives_pick hc⟩
      · obtain ⟨set', hset', hmem⟩ := hchars c' hc'
        exact ⟨set', List.mem_cons_of_mem _ hset', hmem⟩

/-- The rest is filled with chosen characters. -/
theorem gives_fill {all : List Char} {n : Nat} {chars filled : List Char}
    (h : Gives (fill all n chars) filled) :
    ∃ more, filled = chars ++ more ∧ more.length = n ∧ ∀ c ∈ more, c ∈ all := by
  induction n generalizing chars with
  | zero =>
    refine ⟨[], ?_, rfl, fun c hc => absurd hc List.not_mem_nil⟩
    rw [gives_pure h, List.append_nil]
  | succ n ih =>
    obtain ⟨c, hc, h⟩ := gives_bind h
    obtain ⟨more, rfl, hlen, hmore⟩ := ih h
    refine ⟨c :: more, by simp, by simp [hlen], fun c' hc' => ?_⟩
    rcases List.mem_cons.mp hc' with rfl | hc'
    · exact gives_pick hc
    · exact hmore c' hc'

/-- The indices that the shuffle takes. -/
def indices : Nat → Draw (List Nat)
  | 0 => pure []
  | i + 1 => do
      let j ← randomIndex (i + 2)
      let js ← indices i
      return j :: js

/-- The words only choose the indices. -/
theorem shuffle_eq (i : Nat) (chars : List Char) :
    shuffle i chars = (do return Shuffle.swaps i (← indices i) chars) := by
  induction i generalizing chars with
  | zero => rfl
  | succ i ih =>
    simp only [shuffle, indices, ih, bind_assoc, pure_bind]
    rfl

/-- What is chosen is one of the choices that are counted. -/
theorem gives_indices {i : Nat} {js : List Nat} (h : Gives (indices i) js) :
    Shuffle.Choice i js := by
  induction i generalizing js with
  | zero => exact gives_pure h
  | succ i ih =>
    obtain ⟨j, hj, h⟩ := gives_bind h
    obtain ⟨rest, hrest, h⟩ := gives_bind h
    exact ⟨j, rest, gives_pure h, gives_randomIndex hj, ih hrest⟩

theorem gives_shuffle {i : Nat} {chars shuffled : List Char}
    (h : Gives (shuffle i chars) shuffled) : shuffled.Perm chars := by
  rw [shuffle_eq] at h
  obtain ⟨js, -, h⟩ := gives_bind h
  rw [gives_pure h]
  exact Shuffle.swaps_perm i js chars

/-! ### How many words give an index -/

/-- The words that give an index. -/
def wordsGiving (max i : Nat) : Nat :=
  Nat.count (fun word => acceptIndex max [UInt32.ofNat word] = some (i, [])) (2 ^ 32)

/-- The words that are accepted. -/
def wordsAccepted (max : Nat) : Nat :=
  Nat.count (fun word => (acceptIndex max [UInt32.ofNat word]).isSome = true) (2 ^ 32)

theorem limit_le (max : Nat) : limit max ≤ 2 ^ 32 := Nat.div_mul_le_self _ _

theorem acceptIndex_word (max : Nat) {word : Nat} (hword : word < 2 ^ 32) :
    acceptIndex max [UInt32.ofNat word] =
      if word < limit max then some (word % max, []) else none := by
  have hnat : (UInt32.ofNat word).toNat = word := UInt32.toNat_ofNat_of_lt' hword
  simp [acceptIndex, hnat]

/-- What holds of a word below the limit is counted below it. -/
theorem count_below {p : Nat → Prop} [DecidablePred p] {q : Nat → Prop} [DecidablePred q]
    (max : Nat) (h : ∀ word < 2 ^ 32, p word ↔ word < limit max ∧ q word) :
    Nat.count p (2 ^ 32) = Nat.count q (limit max) := by
  obtain ⟨rest, hrest⟩ := Nat.exists_eq_add_of_le (limit_le max)
  have hbelow : Nat.count p (limit max) = Nat.count q (limit max) := by
    rw [Nat.count_eq_card_filter_range, Nat.count_eq_card_filter_range]
    refine congrArg Finset.card (Finset.filter_congr fun word hword => ?_)
    have hlt := Finset.mem_range.mp hword
    rw [h word (Nat.lt_of_lt_of_le hlt (limit_le max))]
    simp [hlt]
  have habove : Nat.count (fun k => p (limit max + k)) rest = 0 := by
    rw [Nat.count_eq_card_filter_range, Finset.card_eq_zero]
    refine Finset.filter_eq_empty_iff.mpr fun k hk hp => ?_
    have hlt := Finset.mem_range.mp hk
    have := ((h (limit max + k) (by omega)).mp hp).1
    omega
  rw [hrest, Nat.count_add, hbelow, habove, Nat.add_zero]

/-- Every index is given by the same number of words. -/
theorem wordsGiving_eq {max i : Nat} (hi : i < max) : wordsGiving max i = 2 ^ 32 / max := by
  have hbelow : wordsGiving max i = Nat.count (· ≡ i [MOD max]) (limit max) := by
    refine count_below max fun word hword => ?_
    rw [acceptIndex_word max hword, Nat.ModEq, Nat.mod_eq_of_lt hi]
    split <;> simp_all
  rw [hbelow, Nat.count_modEq_card _ (by omega), limit, Nat.mul_mod_left,
    Nat.mul_div_cancel _ (by omega)]
  simp

/-- As many are accepted as lie below the limit. -/
theorem wordsAccepted_eq (max : Nat) : wordsAccepted max = limit max := by
  have hbelow : wordsAccepted max = Nat.count (fun _ => True) (limit max) := by
    refine count_below max fun word hword => ?_
    rw [acceptIndex_word max hword]
    split <;> simp_all
  rw [hbelow, Nat.count_true]

/-- At least half of the words are accepted. -/
theorem half_accepted {max : Nat} (hpos : 1 ≤ max) (hmax : max ≤ 2 ^ 32) :
    2 ^ 32 ≤ 2 * wordsAccepted max := by
  rw [wordsAccepted_eq, limit]
  have hdiv : 1 ≤ 0x100000000 / max := (Nat.one_le_div_iff hpos).mpr hmax
  have hmod := Nat.mod_lt 0x100000000 hpos
  have hsplit := Nat.div_add_mod 0x100000000 max
  -- the tail is shorter than one round of the indices, and there is at least one
  have hround : max ≤ 0x100000000 / max * max := Nat.le_mul_of_pos_left max hdiv
  rw [Nat.mul_comm] at hsplit
  omega

/-! ### What comes out -/

/-- The length asked, a character of each chosen kind, and none of any other. -/
def Asked (o : PasswordOptions) (password : List Char) : Prop :=
  password.length = o.length ∧
    (∀ kind, o.chosen kind = true → ∃ c ∈ password, c ∈ charset kind) ∧
      ∀ c ∈ password, ∃ kind, o.chosen kind = true ∧ c ∈ charset kind

/-- The classes are those of the kinds that are asked for. -/
theorem mem_classes {o : PasswordOptions} {set : List Char} :
    set ∈ o.classes ↔ ∃ kind, o.chosen kind = true ∧ charset kind = set := by
  have hall : ∀ kind : Kind, kind ∈ [Kind.upper, .lower, .digits, .symbols] := by
    intro kind
    cases kind <;> simp
  simp [PasswordOptions.classes, hall]

/-- A password is what was asked for. -/
theorem generated_is_asked {o : PasswordOptions} {draw : Draw (List Char)} {password : List Char}
    (h : generatePassword o = .ok draw) (hgives : Gives draw password) : Asked o password := by
  simp only [generatePassword] at h
  split_ifs at h with hlength hclasses hroom
  obtain rfl := Except.ok.inj h
  obtain ⟨firsts, hfirsts, hgives⟩ := gives_bind hgives
  obtain ⟨chars, hchars, hgives⟩ := gives_bind hgives
  have hperm := gives_shuffle hgives
  obtain ⟨more, rfl, hmore, hkinds⟩ := gives_fill hchars
  obtain ⟨hlen, heach, honly⟩ := gives_mapM_pick hfirsts
  refine ⟨?_, fun kind hkind => ?_, fun c hc => ?_⟩
  · rw [hperm.length_eq, List.length_append, hmore, hlen]
    omega
  · -- the character that was picked for the kind is still there after the shuffle
    obtain ⟨c, hc, hset⟩ := heach _ (mem_classes.mpr ⟨kind, hkind, rfl⟩)
    exact ⟨c, hperm.mem_iff.mpr (List.mem_append_left _ hc), hset⟩
  · have hclass : ∃ set ∈ o.classes, c ∈ set := by
      rcases List.mem_append.mp (hperm.mem_iff.mp hc) with hc | hc
      · exact honly c hc
      · exact List.mem_flatten.mp (hkinds c hc)
    obtain ⟨set, hset, hmem⟩ := hclass
    obtain ⟨kind, hkind, rfl⟩ := mem_classes.mp hset
    exact ⟨kind, hkind, hmem⟩

/-- The orders of the places come from one choice of accepted indices each. -/
theorem shuffle_is_fair (n : Nat) {order : List Nat} (horder : order.Perm (List.range n)) :
    ∃! js, Shuffle.Choice (n - 1) js ∧ Shuffle.swaps (n - 1) js (List.range n) = order := by
  cases n with
  | zero =>
    refine ⟨[], ⟨rfl, (List.perm_nil.mp horder).symm⟩, fun js hjs => hjs.1⟩
  | succ n =>
    exact Shuffle.existsUnique_choice List.length_range List.nodup_range horder

/-- What comes out is what was asked, the indices are equally likely, and so are the orders. -/
theorem generator_is_exact_and_unbiased :
    (∀ o draw, generatePassword o = .ok draw → ∀ password, Gives draw password →
        Asked o password) ∧
      (∀ max, 1 ≤ max → max ≤ 2 ^ 32 →
        (∀ i < max, ∀ j < max, wordsGiving max i = wordsGiving max j) ∧
          2 ^ 32 ≤ 2 * wordsAccepted max) ∧
      (∀ i chars, shuffle i chars = (do return Shuffle.swaps i (← indices i) chars)) ∧
      ∀ n (order : List Nat), order.Perm (List.range n) →
        ∃! js, Shuffle.Choice (n - 1) js ∧
          Shuffle.swaps (n - 1) js (List.range n) = order := by
  refine ⟨fun o draw h password hgives => generated_is_asked h hgives, fun max hpos hmax => ?_,
    shuffle_eq, fun n order horder => shuffle_is_fair n horder⟩
  refine ⟨fun i hi j hj => ?_, half_accepted hpos hmax⟩
  rw [wordsGiving_eq hi, wordsGiving_eq hj]

/-- Eight letters, and the words 0 to 14. -/
def eightLetters : PasswordOptions := ⟨8, false, true, false, false⟩

/-- Words enough for a password of eight letters. -/
def fifteenWords : List UInt32 := (List.range 15).map UInt32.ofNat

theorem generator_is_exact_and_unbiased_letters :
    (∃ draw, generatePassword eightLetters = .ok draw ∧
      draw.run fifteenWords = some ("gdfhbeca".toList, []) ∧
      Asked eightLetters "gdfhbeca".toList) ∧
    wordsGiving 10 3 = wordsGiving 10 7 ∧ 2 ^ 32 ≤ 2 * wordsAccepted 10 ∧
    ∃! js, Shuffle.Choice 2 js ∧ Shuffle.swaps 2 js (List.range 3) = [2, 0, 1] := by
  obtain ⟨hasked, hwords, -, horders⟩ := generator_is_exact_and_unbiased
  obtain ⟨hequal, hhalf⟩ := hwords 10 (by decide) (by decide)
  refine ⟨?_, hequal 3 (by decide) 7 (by decide), hhalf, horders 3 [2, 0, 1] (by decide)⟩
  obtain ⟨draw, hdraw, hrun⟩ : ∃ draw, generatePassword eightLetters = .ok draw ∧
      draw.run fifteenWords = some ("gdfhbeca".toList, []) := ⟨_, rfl, by decide +kernel⟩
  exact ⟨draw, hdraw, hrun, hasked _ _ hdraw _ ⟨_, _, hrun⟩⟩

/-- Past 2^32 no word is accepted. -/
theorem no_word_is_accepted : ∃ max, 1 ≤ max ∧ ¬ 2 ^ 32 ≤ 2 * wordsAccepted max := by
  refine ⟨2 ^ 32 + 1, by omega, ?_⟩
  rw [wordsAccepted_eq]
  decide

end OkRn.Passwords
