/-
OkRn/Secrets/Vault.lean

Secrets that only a biometric opens, kept as a ciphertext in one store and its key in
another.

To store a secret, the name's key is replaced, the person is asked, and only then is
the new ciphertext written.  A key is gone with the next one, with the secret when it
is forgotten, and with a change of the enrolled biometrics.

The two stores do not keep alike.  The Keystore has a change when its call returns.  An
edit of the preferences is seen at once, but `apply` writes it to the disk later: a
process that dies before that loses the edit, and the ones after it (`standing`).

Main results:

* `vault_reads_back_iff`: which secret can be read in any state, from the history alone.
  It is the one whose edit is the newest that stands for the name, as long as nothing
  has touched the key made for it since.
* `cancelled_store`: a store that is begun and then cancelled leaves the secret before
  it unreadable, though the vault still has it.
-/
import OkRn.Lib.History
import Mathlib.Logic.Function.Basic

namespace OkRn.Secrets

/-! ### The vault -/

/-- A Keystore key; a change of the enrolled biometrics invalidates it. -/
structure Key where
  number : Nat
  valid : Bool
  deriving DecidableEq

/-- A secret encrypted under a key, which that key alone opens. -/
structure Sealed (S : Type) where
  key : Nat
  secret : S
  deriving DecidableEq

/-- A prompt that is up, with the cipher it authorises. -/
inductive Prompt (A S : Type)
  | store (name : A) (secret : S) (key : Nat)
  | load (name : A) (stored : Sealed S) (key : Nat)

/-- What happened to the two stores. -/
inductive Entry (A S : Type)
  | made (name : A) (key : Nat)
  | lost (name : A)
  | stored (name : A) (secret : S) (key : Nat)
  | forgot (name : A) (deleted : Bool)
  | enrolled
  /-- So many of the oldest unsaved edits reached the file. -/
  | written (count : Nat)
  | died

/-- An edit of the preferences: a ciphertext put under a name, or the name removed. -/
abbrev Edit (A S : Type) := A × Option (Sealed S)

/-- The preferences with one edit more. -/
def put {A S : Type} [DecidableEq A] (prefs : A → Option (Sealed S)) (e : Edit A S) :
    A → Option (Sealed S) := Function.update prefs e.1 e.2

/-- The two stores, the prompts, and what was read. -/
structure Vault (A S : Type) where
  /-- The preferences as the process sees them. -/
  prefs : A → Option (Sealed S) := fun _ => none
  /-- What is in their file. -/
  disk : A → Option (Sealed S) := fun _ => none
  /-- The edits applied and not yet in the file, oldest first. -/
  unsaved : List (Edit A S) := []
  keys : A → Option Key := fun _ => none
  next : Nat := 0
  prompts : List (Prompt A S) := []
  /-- What `load` gave its callers. -/
  shown : List (A × S) := []
  /-- The history, newest first. -/
  log : List (Entry A S) := []

/-- Where `store` can fail before it asks. -/
inductive Fault
  /-- No key, and the old one as it was. -/
  | keystore
  /-- No key, and the old one deleted. -/
  | generate
  | cipher

namespace Vault

variable {A S : Type} [DecidableEq A] (v : Vault A S)

/-- `has`. -/
def has (name : A) : Bool := (v.prefs name).isSome

/-- `edit().….apply()`. -/
def apply (e : Edit A S) : Vault A S :=
  { v with prefs := put v.prefs e, unsaved := v.unsaved ++ [e] }

/-- `forget`; `deleted` says whether the Keystore let go of the key. -/
def forget (name : A) (deleted : Bool) : Vault A S :=
  { v.apply (name, none) with
    keys := if deleted then Function.update v.keys name none else v.keys
    log := .forgot name deleted :: v.log }

/-- A key is made for the name, in place of its old one. -/
def createKey (name : A) : Vault A S :=
  { v with
    keys := Function.update v.keys name (some ⟨v.next, true⟩)
    next := v.next + 1
    log := .made name v.next :: v.log }

/-- `store`, up to the prompt. -/
def store (name : A) (secret : S) : Option Fault → Vault A S
  | some .keystore => v
  | some .generate =>
    { v with keys := Function.update v.keys name none, log := .lost name :: v.log }
  | some .cipher => v.createKey name
  | none =>
    { v.createKey name with prompts := v.prompts ++ [.store name secret v.next] }

/-- `answers`: the Keystore does; `deleted`: the key of a secret that has to be forgotten can be
deleted. -/
def load (name : A) (answers deleted : Bool) : Vault A S :=
  match v.prefs name with
  | none => v
  | some stored =>
    match v.keys name with
    | none => v.forget name deleted
    | some key =>
      if answers && key.valid then { v with prompts := v.prompts ++ [.load name stored key.number] }
      else v.forget name deleted

/-- A prompt ends, with the person or without. -/
def answer (i : Nat) (approved : Bool) : Vault A S :=
  match v.prompts[i]? with
  | none => v
  | some prompt =>
    let v := { v with prompts := v.prompts.eraseIdx i }
    if !approved then v
    else match prompt with
      | .store name secret key =>
        { v.apply (name, some ⟨key, secret⟩) with log := .stored name secret key :: v.log }
      | .load name stored key =>
        if stored.key = key then { v with shown := (name, stored.secret) :: v.shown } else v

end Vault

/-! ### Runs -/

/-- What can happen. -/
inductive Event (A S : Type)
  | store (name : A) (secret : S) (fault : Option Fault)
  | load (name : A) (answers deleted : Bool)
  | answer (i : Nat) (approved : Bool)
  | forget (name : A) (deleted : Bool)
  /-- A biometric is enrolled. -/
  | enroll
  /-- The file is written, with so many of the unsaved edits. -/
  | write (count : Nat)
  /-- The process dies; the next one reads the file. -/
  | kill

variable {A S : Type} [DecidableEq A]

/-- One event. -/
def Vault.step (v : Vault A S) : Event A S → Vault A S
  | .store name secret fault => v.store name secret fault
  | .load name answers deleted => v.load name answers deleted
  | .answer i approved => v.answer i approved
  | .forget name deleted => v.forget name deleted
  | .enroll =>
    { v with
      keys := fun name => (v.keys name).map fun key => { key with valid := false }
      log := .enrolled :: v.log }
  | .write count =>
    { v with
      disk := (v.unsaved.take count).foldl put v.disk
      unsaved := v.unsaved.drop count
      log := .written count :: v.log }
  | .kill => { v with prefs := v.disk, unsaved := [], prompts := [], log := .died :: v.log }

/-- The vault after a run. -/
def Vault.run (es : List (Event A S)) : Vault A S := es.foldl Vault.step {}

/-- A load begun now, and approved, gives the secret. -/
def Vault.Opens (v : Vault A S) (name : A) (secret : S) : Prop :=
  ((v.load name true true).answer v.prompts.length true).shown = (name, secret) :: v.shown

/-! ### What a history says -/

namespace Entry

/-- The entry gives the name another key, or takes its key away. -/
def turns (name : A) : Entry A S → Bool
  | made a _ | lost a => a = name
  | forgot a deleted => a = name && deleted
  | enrolled => true
  | stored .. | written _ | died => false

/-- The edit that the entry is, if it is one. -/
def edit : Entry A S → Option (Edit A S)
  | stored a secret key => some (a, some ⟨key, secret⟩)
  | forgot a _ => some (a, none)
  | _ => none

/-- A key is new, and a secret is stored under a key made before. -/
def Allowed (older : List (Entry A S)) : Entry A S → Prop
  | made _ key => ∀ a, made a key ∉ older
  | stored name _ key => made name key ∈ older
  | _ => True

end Entry

/-- How many of the newest edits that stand are not in the file. -/
def unsavedOf : List (Entry A S) → Nat
  | [] => 0
  | .written count :: l => unsavedOf l - count
  | .died :: _ => 0
  | e :: l => if e.edit.isSome then unsavedOf l + 1 else unsavedOf l

/-- The edits that stand, newest first: a death takes those that are not in the file. -/
def standing : List (Entry A S) → List (Edit A S)
  | [] => []
  | .died :: l => (standing l).drop (unsavedOf l)
  | e :: l => e.edit.toList ++ standing l

/-- The preferences that some edits make, the newest first. -/
def prefsOf (edits : List (Edit A S)) (name : A) : Option (Sealed S) :=
  (edits.find? fun e => e.1 = name).bind Prod.snd

/-- The newest edit of the name that stands stored this secret, and the last thing that happened
to the name's key is that it was made for it. -/
def Kept (log : List (Entry A S)) (name : A) (secret : S) : Prop :=
  ∃ key, prefsOf (standing log) name = some ⟨key, secret⟩ ∧
    log.find? (Entry.turns name) = some (.made name key)

/-- The secret was kept once. -/
def WasKept (log : List (Entry A S)) (name : A) (secret : S) : Prop :=
  ∃ newer older, log = newer ++ older ∧ Kept older name secret

section Histories

open Entry History

variable {log : List (Entry A S)} {name : A} {secret : S} {key : Nat}

theorem Kept.was (h : Kept log name secret) : WasKept log name secret := ⟨[], log, rfl, h⟩

theorem WasKept.append (h : WasKept log name secret) (newer : List (Entry A S)) :
    WasKept (newer ++ log) name secret := by
  obtain ⟨n, o, rfl, hkept⟩ := h
  exact ⟨newer ++ n, o, (List.append_assoc _ _ _).symm, hkept⟩

theorem prefsOf_cons (e : Edit A S) (edits : List (Edit A S)) :
    prefsOf (e :: edits) = put (prefsOf edits) e := by
  funext name
  by_cases hname : e.1 = name
  · subst hname
    simp [prefsOf, put]
  · rw [put, Function.update_of_ne (Ne.symm hname), prefsOf, prefsOf,
      List.find?_cons_of_neg (by simpa using hname)]

/-- Newer edits, put in the order they were made in. -/
theorem prefsOf_append (newer older : List (Edit A S)) :
    prefsOf (newer ++ older) = newer.reverse.foldl put (prefsOf older) := by
  induction newer with
  | nil => rfl
  | cons e newer ih =>
    rw [List.cons_append, prefsOf_cons, ih, List.reverse_cons, List.foldl_append]
    rfl

omit [DecidableEq A] in
/-- Every edit that stands is in the history. -/
theorem mem_standing {e : Edit A S} (h : e ∈ standing log) : ∃ x ∈ log, x.edit = some e := by
  induction log with
  | nil => cases h
  | cons x log ih =>
    have hlater (hmem : e ∈ standing log) : ∃ y ∈ x :: log, y.edit = some e := by
      obtain ⟨y, hy, hedit⟩ := ih hmem
      exact ⟨y, List.mem_cons_of_mem x hy, hedit⟩
    cases x with
    | died => exact hlater (List.mem_of_mem_drop h)
    | stored a s n =>
      rcases List.mem_cons.mp h with rfl | h
      · exact ⟨_, List.mem_cons_self, rfl⟩
      · exact hlater h
    | forgot a deleted =>
      rcases List.mem_cons.mp h with rfl | h
      · exact ⟨_, List.mem_cons_self, rfl⟩
      · exact hlater h
    | _ => exact hlater h

end Histories

/-! ### Every run -/

namespace Vault

open Entry History

/-- The two stores are what the history says. -/
structure Sound (v : Vault A S) : Prop where
  keys (name : A) (n : Nat) :
    v.keys name = some ⟨n, true⟩ ↔ v.log.find? (turns name) = some (.made name n)
  prefs : v.prefs = prefsOf (standing v.log)
  /-- The unsaved edits are the newest of those that stand, and the file has the others. -/
  unsaved : v.unsaved = ((standing v.log).take (unsavedOf v.log)).reverse
  fewer : unsavedOf v.log ≤ (standing v.log).length
  disk : v.disk = prefsOf ((standing v.log).drop (unsavedOf v.log))
  history : Guarded Allowed v.log
  numbered (name : A) (n : Nat) : .made name n ∈ v.log → n < v.next
  stores (name : A) (secret : S) (n : Nat) :
    .store name secret n ∈ v.prompts → .made name n ∈ v.log
  loads (name : A) (secret : S) (n : Nat) :
    .load name ⟨n, secret⟩ n ∈ v.prompts → WasKept v.log name secret
  shown (name : A) (secret : S) : (name, secret) ∈ v.shown → WasKept v.log name secret

namespace Sound

variable {v : Vault A S} {name : A}

theorem start : ({} : Vault A S).Sound where
  keys := by simp
  prefs := rfl
  unsaved := rfl
  fewer := Nat.le_refl _
  disk := rfl
  history := guarded_nil
  numbered := by simp
  stores := by simp
  loads := by simp
  shown := by simp

/-- The newest ciphertext can be decrypted with the newest key. -/
theorem kept_iff (h : v.Sound) {secret : S} : Kept v.log name secret ↔
    ∃ n, v.prefs name = some ⟨n, secret⟩ ∧ v.keys name = some ⟨n, true⟩ := by
  simp only [Kept, h.keys, h.prefs]

/-- What an entry leaves of the invariant: the two stores, and that the entry was allowed. -/
theorem logged (h : v.Sound) {w : Vault A S} (e : Entry A S) (hlog : w.log = e :: v.log)
    (hallowed : Allowed v.log e) (hprompts : ∀ p ∈ w.prompts, p ∈ v.prompts)
    (hshown : w.shown = v.shown) (hnumbered : ∀ name n, e = .made name n → n < w.next)
    (hnext : v.next ≤ w.next)
    (hkeys : ∀ name n, w.keys name = some ⟨n, true⟩ ↔
      w.log.find? (turns name) = some (.made name n))
    (hprefs : w.prefs = prefsOf (standing w.log))
    (hunsaved : w.unsaved = ((standing w.log).take (unsavedOf w.log)).reverse)
    (hfewer : unsavedOf w.log ≤ (standing w.log).length)
    (hdisk : w.disk = prefsOf ((standing w.log).drop (unsavedOf w.log))) : w.Sound where
  keys := hkeys
  prefs := hprefs
  unsaved := hunsaved
  fewer := hfewer
  disk := hdisk
  history := by
    rw [hlog]
    exact h.history.cons hallowed
  numbered name n hmade := by
    rw [hlog] at hmade
    -- the new entry's key has a number below `next`, and the older ones have
    rcases List.mem_cons.mp hmade with he | hmade
    · exact hnumbered name n he.symm
    · exact Nat.lt_of_lt_of_le (h.numbered name n hmade) hnext
  stores name secret n hstore := by
    rw [hlog]
    exact List.mem_cons_of_mem e (h.stores name secret n (hprompts _ hstore))
  loads name secret n hload := by
    rw [hlog]
    exact (h.loads name secret n (hprompts _ hload)).append [e]
  shown name secret hmem := by
    rw [hshown] at hmem
    rw [hlog]
    exact (h.shown name secret hmem).append [e]

/-- An edit stands, and is not in the file yet. -/
theorem edited (h : v.Sound) {w : Vault A S} {e : Entry A S} {x : Edit A S}
    (hedit : e.edit = some x) (hlog : w.log = e :: v.log) (hw : w.prefs = put v.prefs x)
    (hunsaved : w.unsaved = v.unsaved ++ [x]) (hdisk : w.disk = v.disk) :
    w.prefs = prefsOf (standing w.log) ∧
      w.unsaved = ((standing w.log).take (unsavedOf w.log)).reverse ∧
      unsavedOf w.log ≤ (standing w.log).length ∧
      w.disk = prefsOf ((standing w.log).drop (unsavedOf w.log)) := by
  have hstanding : standing w.log = x :: standing v.log := by
    rw [hlog]
    cases e <;> simp_all [standing, Entry.edit]
  have hcount : unsavedOf w.log = unsavedOf v.log + 1 := by
    rw [hlog]
    cases e <;> simp_all [unsavedOf, Entry.edit]
  have hfewer := h.fewer
  rw [hw, hunsaved, hdisk, hstanding, hcount, List.take_succ_cons, List.reverse_cons,
    List.drop_succ_cons, List.length_cons, prefsOf_cons, ← h.prefs, ← h.unsaved, ← h.disk]
  exact ⟨rfl, rfl, Nat.succ_le_succ hfewer, rfl⟩

/-- An entry that is no edit leaves the preferences as they are. -/
theorem unedited (h : v.Sound) {w : Vault A S} {e : Entry A S} (hedit : e.edit = none)
    (hdied : e ≠ .died) (hwritten : ∀ count, e ≠ .written count) (hlog : w.log = e :: v.log)
    (hw : w.prefs = v.prefs) (hunsaved : w.unsaved = v.unsaved) (hdisk : w.disk = v.disk) :
    w.prefs = prefsOf (standing w.log) ∧
      w.unsaved = ((standing w.log).take (unsavedOf w.log)).reverse ∧
      unsavedOf w.log ≤ (standing w.log).length ∧
      w.disk = prefsOf ((standing w.log).drop (unsavedOf w.log)) := by
  have hstanding : standing w.log = standing v.log := by
    rw [hlog]
    cases e <;> simp_all [standing, Entry.edit]
  have hcount : unsavedOf w.log = unsavedOf v.log := by
    rw [hlog]
    cases e <;> simp_all [unsavedOf, Entry.edit]
  rw [hw, hunsaved, hdisk, hstanding, hcount]
  exact ⟨h.prefs, h.unsaved, h.fewer, h.disk⟩

/-- A secret that is forgotten. -/
theorem forget (h : v.Sound) (deleted : Bool) : (v.forget name deleted).Sound := by
  obtain ⟨hprefs, hunsaved, hfewer, hdisk⟩ :=
    h.edited (w := v.forget name deleted) (e := .forgot name deleted) rfl rfl rfl rfl rfl
  refine h.logged (.forgot name deleted) rfl trivial (fun p hp => hp) rfl (by simp)
    (Nat.le_refl _) (fun a n => ?_) hprefs hunsaved hfewer hdisk
  cases deleted <;> by_cases ha : name = a <;>
    simp [Vault.forget, Vault.apply, turns, h.keys, ha, eq_comm]

theorem createKey (h : v.Sound) : (v.createKey name).Sound := by
  obtain ⟨hprefs, hunsaved, hfewer, hdisk⟩ :=
    h.unedited (w := v.createKey name) (e := .made name v.next) rfl (by simp) (by simp)
      rfl rfl rfl rfl
  refine h.logged (.made name v.next) rfl (fun a hmade => ?_) (fun p hp => hp) rfl ?_
    (Nat.le_succ _) (fun a n => ?_) hprefs hunsaved hfewer hdisk
  · exact absurd (h.numbered a v.next hmade) (Nat.lt_irrefl _)
  · rintro a n ⟨⟩
    exact Nat.lt_succ_self _
  · by_cases ha : name = a <;>
      simp [Vault.createKey, turns, h.keys, ha, eq_comm]

theorem lose (h : v.Sound) :
    ({ v with keys := Function.update v.keys name none, log := .lost name :: v.log } :
      Vault A S).Sound := by
  obtain ⟨hprefs, hunsaved, hfewer, hdisk⟩ :=
    h.unedited (w := { v with
      keys := Function.update v.keys name none, log := .lost name :: v.log })
      (e := .lost name) rfl (by simp) (by simp) rfl rfl rfl rfl
  refine h.logged (.lost name) rfl trivial (fun p hp => hp) rfl (by simp) (Nat.le_refl _)
    (fun a n => ?_) hprefs hunsaved hfewer hdisk
  by_cases ha : name = a <;> simp [turns, h.keys, ha, eq_comm]

/-- A biometric that is enrolled. -/
theorem enroll (h : v.Sound) : (v.step .enroll).Sound := by
  obtain ⟨hprefs, hunsaved, hfewer, hdisk⟩ :=
    h.unedited (w := v.step .enroll) (e := .enrolled) rfl (by simp) (by simp) rfl rfl rfl rfl
  refine h.logged .enrolled rfl trivial (fun p hp => hp) rfl (by simp) (Nat.le_refl _)
    (fun a n => ?_) hprefs hunsaved hfewer hdisk
  simp [Vault.step, turns]

/-- A key's history does not change with the file's. -/
theorem keys_cons (h : v.Sound) {e : Entry A S} (he : ∀ a, e.turns a = false) (a : A) (n : Nat) :
    v.keys a = some ⟨n, true⟩ ↔ (e :: v.log).find? (turns a) = some (.made a n) := by
  rw [List.find?_cons_of_neg (by simp [he a])]
  exact h.keys a n

theorem write (h : v.Sound) (count : Nat) : (v.step (.write count)).Sound := by
  have hfewer := h.fewer
  have hunsaved : v.unsaved.drop count =
      ((standing v.log).take (unsavedOf v.log - count)).reverse := by
    rw [h.unsaved, List.drop_reverse, List.length_take, Nat.min_eq_left hfewer, List.take_take,
      Nat.min_eq_left (Nat.sub_le _ _)]
  have hdisk : (v.unsaved.take count).foldl put v.disk =
      prefsOf ((standing v.log).drop (unsavedOf v.log - count)) := by
    have hsplit : (standing v.log).drop (unsavedOf v.log - count) =
        ((standing v.log).take (unsavedOf v.log)).drop (unsavedOf v.log - count) ++
          (standing v.log).drop (unsavedOf v.log) := by
      conv_lhs => rw [← List.take_append_drop (unsavedOf v.log) (standing v.log)]
      rw [List.drop_append_of_le_length]
      rw [List.length_take, Nat.min_eq_left hfewer]
      exact Nat.sub_le _ _
    rw [hsplit, prefsOf_append, ← h.disk, h.unsaved, List.take_reverse, List.length_take,
      Nat.min_eq_left hfewer]
  refine h.logged (.written count) rfl trivial (fun p hp => hp) rfl (by simp) (Nat.le_refl _)
    (h.keys_cons fun _ => rfl) h.prefs hunsaved ?_ hdisk
  exact Nat.le_trans (Nat.sub_le _ _) hfewer

theorem kill (h : v.Sound) : (v.step .kill).Sound :=
  h.logged .died rfl trivial (by simp [Vault.step]) rfl (by simp) (Nat.le_refl _)
    (h.keys_cons fun _ => rfl) h.disk rfl (Nat.zero_le _) h.disk

theorem put (h : v.Sound) {secret : S} {n : Nat} (hmade : .made name n ∈ v.log) :
    ({ v.apply (name, some ⟨n, secret⟩) with log := .stored name secret n :: v.log } :
      Vault A S).Sound := by
  obtain ⟨hprefs, hunsaved, hfewer, hdisk⟩ :=
    h.edited (w := { v.apply (name, some ⟨n, secret⟩) with
      log := .stored name secret n :: v.log }) (e := .stored name secret n) rfl rfl rfl rfl rfl
  exact h.logged (.stored name secret n) rfl hmade (fun p hp => hp) rfl (by simp)
    (Nat.le_refl _) (h.keys_cons fun _ => rfl) hprefs hunsaved hfewer hdisk

/-- Prompts come up and go away. -/
theorem prompted (h : v.Sound) {prompts : List (Prompt A S)}
    (hstores : ∀ name secret n, .store name secret n ∈ prompts → .made name n ∈ v.log)
    (hloads : ∀ name secret n, .load name ⟨n, secret⟩ n ∈ prompts → WasKept v.log name secret) :
    ({ v with prompts := prompts } : Vault A S).Sound :=
  { h with stores := hstores, loads := hloads }

theorem store (h : v.Sound) (secret : S) (fault : Option Fault) :
    (v.store name secret fault).Sound := by
  rcases fault with - | (_ | _ | _)
  · refine h.createKey.prompted (fun a s n hmem => ?_) fun a s n hmem => ?_
    · rcases List.mem_append.mp hmem with hmem | hmem
      · exact h.createKey.stores a s n hmem
      · obtain ⟨rfl, rfl, rfl⟩ : a = name ∧ s = secret ∧ n = v.next := by simpa using hmem
        exact List.mem_cons_self
    · rcases List.mem_append.mp hmem with hmem | hmem
      · exact h.createKey.loads a s n hmem
      · simp at hmem
  · exact h
  · exact h.lose
  · exact h.createKey

theorem load (h : v.Sound) (answers deleted : Bool) : (v.load name answers deleted).Sound := by
  unfold Vault.load
  split
  · exact h
  · rename_i stored hstored
    split
    · exact h.forget deleted
    · rename_i key hkey
      split
      · rename_i hvalid
        refine h.prompted (fun a s n hmem => ?_) fun a s n hmem => ?_
        · rcases List.mem_append.mp hmem with hmem | hmem
          · exact h.stores a s n hmem
          · simp at hmem
        · rcases List.mem_append.mp hmem with hmem | hmem
          · exact h.loads a s n hmem
          · -- what is asked for is what is kept now
            obtain ⟨rfl, rfl, rfl⟩ : a = name ∧ ⟨n, s⟩ = stored ∧ n = key.number := by
              simpa using hmem
            have hvalid : key.valid = true := (Bool.and_eq_true_iff.mp hvalid).2
            refine (h.kept_iff.mpr ⟨key.number, hstored, ?_⟩).was
            rw [hkey, ← hvalid]
      · exact h.forget deleted

theorem answer (h : v.Sound) (i : Nat) (approved : Bool) : (v.answer i approved).Sound := by
  have herase : ({ v with prompts := v.prompts.eraseIdx i } : Vault A S).Sound :=
    h.prompted (fun a s n hmem => h.stores a s n (List.mem_of_mem_eraseIdx hmem))
      fun a s n hmem => h.loads a s n (List.mem_of_mem_eraseIdx hmem)
  unfold Vault.answer
  split
  · exact h
  · rename_i prompt hprompt
    have hmem : prompt ∈ v.prompts := List.mem_of_getElem? hprompt
    simp only
    split
    · exact herase
    · rcases prompt with ⟨a, s, n⟩ | ⟨a, ⟨n, s⟩, m⟩
      · exact herase.put (h.stores a s n hmem)
      · simp only
        split
        · rename_i hkey
          refine { herase with shown := fun b t hshown => ?_ }
          rcases List.mem_cons.mp hshown with hnew | hshown
          · obtain ⟨rfl, rfl⟩ := Prod.mk.inj hnew
            subst hkey
            exact h.loads b t n hmem
          · exact h.shown b t hshown
        · exact herase

/-- Every event keeps the vault sound. -/
theorem step (h : v.Sound) (e : Event A S) : (v.step e).Sound := by
  cases e with
  | store name secret fault => exact h.store secret fault
  | load name answers deleted => exact h.load answers deleted
  | answer i approved => exact h.answer i approved
  | forget name deleted => exact h.forget deleted
  | enroll => exact h.enroll
  | write count => exact h.write count
  | kill => exact h.kill

theorem run (es : List (Event A S)) : (Vault.run es).Sound := by
  suffices ∀ v : Vault A S, v.Sound → (es.foldl Vault.step v).Sound from this {} start
  induction es with
  | nil => exact fun v h => h
  | cons e es ih => exact fun v h => ih _ (h.step e)

end Sound

/-- A load's prompt, approved, opens what its cipher is for. -/
theorem opens_iff {v : Vault A S} {name : A} {secret : S} : v.Opens name secret ↔
    ∃ n, v.prefs name = some ⟨n, secret⟩ ∧ v.keys name = some ⟨n, true⟩ := by
  unfold Opens Vault.load
  cases hstored : v.prefs name with
  | none => simp [Vault.answer]
  | some stored =>
    cases hkey : v.keys name with
    | none => simp [Vault.answer, Vault.forget, Vault.apply]
    | some key =>
      obtain ⟨n, s⟩ := stored
      obtain ⟨m, valid⟩ := key
      cases valid with
      | false => simp [Vault.answer, Vault.forget, Vault.apply]
      | true =>
        by_cases hsame : n = m
        · simp [Vault.answer, hsame]
        · simp [Vault.answer, hsame]

/-- A ciphertext's key was made earlier than any key to come. -/
theorem Sound.prefs_lt {v : Vault A S} (h : v.Sound) {name : A} {secret : S} {n : Nat}
    (hstored : v.prefs name = some ⟨n, secret⟩) : n < v.next := by
  rw [h.prefs, prefsOf, Option.bind_eq_some_iff] at hstored
  obtain ⟨x, hfind, hx⟩ := hstored
  obtain ⟨e, he, hedit⟩ := mem_standing (List.mem_of_find?_eq_some hfind)
  obtain ⟨newer, older, hlog⟩ := List.append_of_mem he
  have hallowed := h.history newer e older hlog
  have hmade : ∃ a, .made a n ∈ older := by
    cases e with
    | stored a s m =>
      obtain rfl := Option.some.inj hedit
      obtain ⟨rfl, -⟩ := Sealed.mk.inj (Option.some.inj hx)
      exact ⟨a, hallowed⟩
    | forgot a deleted =>
      obtain rfl := Option.some.inj hedit
      cases hx
    | _ => cases hedit
  obtain ⟨a, hmade⟩ := hmade
  refine h.numbered a n ?_
  rw [hlog]
  exact List.mem_append_right _ (List.mem_cons_of_mem _ hmade)

/-- A store that is cancelled has already replaced the key: the vault still has the secret before
it, which nothing can read. -/
theorem cancelled_store {v : Vault A S} (h : v.Sound) (name : A) (secret : S) :
    let w := (v.store name secret none).answer v.prompts.length false
    w.has name = v.has name ∧ ∀ old, ¬ w.Opens name old := by
  have hanswer : (v.store name secret none).answer v.prompts.length false =
      { v.createKey name with prompts := v.prompts } := by
    simp [Vault.store, Vault.answer, Vault.createKey, List.eraseIdx_append_of_length_le]
  simp only [hanswer]
  refine ⟨rfl, fun old hopens => ?_⟩
  obtain ⟨n, hstored, hkey⟩ := opens_iff.mp hopens
  obtain rfl : v.next = n := by simpa [Vault.createKey] using hkey
  exact Nat.lt_irrefl _ (h.prefs_lt hstored)

/-- Whatever was done to the vault: a secret can be read exactly while it is kept, and no secret
is shown that was not kept when it was asked for. -/
theorem vault_reads_back_iff (es : List (Event A S)) (name : A) (secret : S) :
    ((run es).Opens name secret ↔ Kept (run es).log name secret) ∧
    ((name, secret) ∈ (run es).shown → WasKept (run es).log name secret) :=
  ⟨opens_iff.trans (Sound.run es).kept_iff.symm, (Sound.run es).shown name secret⟩

end Vault

end OkRn.Secrets
