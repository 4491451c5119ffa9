/-
OkRn/Net/Records.lean

Live and testnet records.

The firmware runs on one of two folders and stays there; the app's `current` says
which, but starts as live at every launch and JS reload and is set by the answer to
`start`.  A record's name is computed from it at every read and every write.

What the app can know is the order of these events (`heard`): the folder that the last
answer since the launch or reload named, and the live one before any answer.  The model
of the code never reads it.  That `current` says the same is a theorem (`Inv.current`),
and rests on the folder telling its net (`Build.netOfStorageDir_slotOf`).

Main result: `records_keep_apart_iff`, which says in the order of reloads, answers,
reads and writes when each record goes under the net of its key's folder.
-/
import OkRn.Lib.Along

namespace OkRn.Records

/-- The two nets. -/
inductive Net
  | live
  | test
  deriving DecidableEq

/-! ### Folders -/

/-- The app's files, and the storage slot of the firmware that was built in. -/
structure Build where
  filesDir : List Char
  storageSlot : List Char
  plain : '/' ∉ storageSlot

namespace Build

variable (b : Build)

/-- The slot of the testnet. -/
def testStorageSlot : List Char :=
  if b.storageSlot = [] then "test".toList else b.storageSlot ++ "-test".toList

/-- The slot that `OkEmu.start` asks for. -/
def slotOf : Net → List Char
  | .live => b.storageSlot
  | .test => b.testStorageSlot

/-- The folder of a slot. -/
def storageDirFor (slot : List Char) : List Char :=
  b.filesDir ++ "/okemu".toList ++ if slot = [] then [] else '/' :: slot

/-- The last part of a path. -/
def leaf (dir : List Char) : List Char :=
  ((dir.reverse.dropWhile (· == '/')).takeWhile (· != '/')).reverse

/-- The net that a folder is of. -/
def netOfStorageDir (dir : List Char) : Net := if leaf dir = b.testStorageSlot then .test else .live

/-- The last part of a folder's path. -/
theorem leaf_append (base : List Char) {name : List Char} (hne : name ≠ []) (hname : '/' ∉ name) :
    leaf (base ++ '/' :: name) = name := by
  have hchar : ∀ c ∈ name.reverse, (c != '/') = true := by
    intro c hc
    rw [bne_iff_ne]
    rintro rfl
    exact hname (List.mem_reverse.mp hc)
  have hsplit : (base ++ '/' :: name).reverse = name.reverse ++ '/' :: base.reverse := by simp
  have hdrop : (name.reverse ++ '/' :: base.reverse).dropWhile (· == '/') =
      name.reverse ++ '/' :: base.reverse := by
    cases h : name.reverse with
    | nil => exact absurd (List.reverse_eq_nil_iff.mp h) hne
    | cons c cs =>
      have hc : (c == '/') = false := by simpa using hchar c (h ▸ List.mem_cons_self)
      rw [List.cons_append, List.dropWhile_cons, hc]
      rfl
  rw [leaf, hsplit, hdrop, List.takeWhile_append_of_pos hchar, List.takeWhile_cons_of_neg (by simp),
    List.append_nil, List.reverse_reverse]

/-- The testnet's slot is a plain name. -/
theorem testStorageSlot_plain : b.testStorageSlot ≠ [] ∧ '/' ∉ b.testStorageSlot := by
  unfold testStorageSlot
  split
  · exact ⟨by decide, by decide⟩
  · rename_i hne
    refine ⟨by simp [hne], fun hmem => ?_⟩
    rcases List.mem_append.mp hmem with h | h
    · exact b.plain h
    · exact absurd h (by decide)

/-- The folder that a firmware was started on tells its net. -/
theorem netOfStorageDir_slotOf (n : Net) : b.netOfStorageDir (b.storageDirFor (b.slotOf n)) = n := by
  obtain ⟨hne, hplain⟩ := b.testStorageSlot_plain
  cases n with
  | test =>
    rw [netOfStorageDir, storageDirFor, slotOf, if_neg hne, leaf_append _ hne hplain, if_pos rfl]
  | live =>
    rw [netOfStorageDir, if_neg]
    by_cases hempty : b.storageSlot = []
    · have hdir : b.storageDirFor (b.slotOf .live) = b.filesDir ++ '/' :: "okemu".toList := by
        simp [storageDirFor, slotOf, hempty]
      rw [hdir, leaf_append _ (by decide) (by decide), testStorageSlot, if_pos hempty]
      decide
    · rw [storageDirFor, slotOf, if_neg hempty, leaf_append _ hempty b.plain, testStorageSlot,
        if_neg hempty]
      intro heq
      have hlength := congrArg List.length heq
      rw [List.length_append] at hlength
      simp at hlength

end Build

/-! ### Names -/

/-- What the app stores about the soft key; a key's or a budget's id is the rest of a name. -/
inductive Record
  | mirror (device : String)
  | devices
  | ownStatement
  | held
  | budget (name : String)
  | seenNonces
  | agentRequests
  | alerted (name : String)
  | refusedArms (device : String)
  | owedAlerted (device : String)
  | endedNoticed (device : String)
  | identity
  | identitySetBy
  | keychainList
  deriving DecidableEq

/-- How the names of the live records begin. -/
def livePrefix : String := "okrn.edge."

/-- And how those of the testnet do. -/
def testPrefix : String := "okrn.edge.test."

/-- `edgeKey`. -/
def edgeKey (current : Net) (rest : String) : String :=
  (if current = .test then testPrefix else livePrefix) ++ rest

/-- The name of the Key Chain list. -/
def keychainListKey (current : Net) : String :=
  if current = .test then "okrn.keychain.test.list" else "okrn.keychain.list"

/-- The name that a record is stored under. -/
def Record.key (current : Net) : Record → String
  | .mirror device => edgeKey current ("mirror." ++ device)
  | .devices => edgeKey current "devices"
  | .ownStatement => edgeKey current "ownStatement"
  | .held => edgeKey current "held"
  | .budget name => edgeKey current ("budgets." ++ name)
  | .seenNonces => edgeKey current "seenNonces"
  | .agentRequests => edgeKey current "agentRequests"
  | .alerted name => edgeKey current ("alerted." ++ name)
  | .refusedArms device => edgeKey current ("refusedArms." ++ device)
  | .owedAlerted device => edgeKey current ("owedAlerted." ++ device)
  | .endedNoticed device => edgeKey current ("endedNoticed." ++ device)
  | .identity => edgeKey current "identity"
  | .identitySetBy => edgeKey current "identitySetBy"
  | .keychainList => keychainListKey current

/-- A testnet name, by its prefix. -/
def isTestName (name : String) : Bool :=
  testPrefix.toList.isPrefixOf name.toList || "okrn.keychain.test.".toList.isPrefixOf name.toList

theorem isTestName_key (n : Net) (r : Record) : isTestName (r.key n) = decide (n = .test) := by
  cases n <;> cases r <;>
    simp [isTestName, Record.key, edgeKey, keychainListKey, livePrefix, testPrefix,
      String.toList_append, List.isPrefixOf]

/-- One record's names on the two nets are two. -/
theorem key_inj {n n' : Net} {r : Record} (h : r.key n = r.key n') : n = n' := by
  have htest := congrArg isTestName h
  rw [isTestName_key, isTestName_key] at htest
  cases n <;> cases n' <;> simp_all

/-! ### Runs -/

/-- A call of `start`: with the folder its answer names, once it was carried out; its answer is for
nobody after a reload. -/
structure StartCall where
  asked : Net
  dir : Option (List Char) := none
  alive : Bool := true
  /-- The net whose folder the answer names; no code reads it. -/
  names : Option Net := none
  deriving DecidableEq

/-- A change of a record of the soft key that runs; `readAt` is the net that `current` said at its
read. -/
structure Op where
  record : Record
  about : Net
  readAt : Option Net := none
  /-- What had been heard at its read; no code reads it. -/
  readHeard : Option Net := none
  deriving DecidableEq

/-- A record that was written: the net of its key's folder, and the names it was written and read
under. -/
structure Written where
  about : Net
  record : Record
  name : String
  readName : Option String
  deriving DecidableEq

/-- The app's net, the firmware's folder, and what is under way. -/
structure Phone where
  current : Net := .live
  /-- The net of the folder that the firmware runs on. -/
  folder : Option Net := none
  calls : List StartCall := []
  ops : List Op := []
  written : List Written := []
  /-- The net whose folder the last answer since the launch or reload named; no code reads it. -/
  told : Option Net := none
  deriving DecidableEq

/-- What can happen. -/
inductive Event
  /-- The app's process starts. -/
  | launch
  | reload
  | start (net : Net)
  /-- The native call is carried out; `ok` says whether a firmware that does not run starts. -/
  | carriedOut (i : Nat) (ok : Bool)
  | answered (i : Nat)
  /-- The soft key gives something to be recorded. -/
  | begins (r : Record)
  | reads (i : Nat)
  | writes (i : Nat)
  | ends (i : Nat)

namespace Phone

variable (b : Build)

/-- The net that the answers so far tell of: live before any. -/
def heard (s : Phone) : Net := s.told.getD .live

/-- `startLocked`: the folder it runs on, not the one asked for. -/
def carriedOut (s : Phone) (i : Nat) (ok : Bool) : Phone :=
  match s.calls[i]? with
  | some c =>
      match c.dir with
      | some _ => s
      | none =>
          let net := s.folder.getD c.asked
          { s with
            folder := if s.folder.isNone && !ok then none else some net
            calls := s.calls.set i
              { c with dir := some (b.storageDirFor (b.slotOf net)), names := some net } }
  | none => s

/-- `setNet(netOfStorageDir(result.storageDir))`. -/
def answered (s : Phone) (i : Nat) : Phone :=
  match s.calls[i]? with
  | some c =>
      match c.dir with
      | some dir =>
          { s with
            current := if c.alive then b.netOfStorageDir dir else s.current
            told := if c.alive then c.names else s.told
            calls := s.calls.eraseIdx i }
      | none => s
  | none => s

/-- One event. -/
def step (s : Phone) : Event → Phone
  | .launch => { s with current := .live, told := none, folder := none, calls := [], ops := [] }
  | .reload =>
      { s with
        current := .live
        told := none
        calls := s.calls.map fun c => { c with alive := false }
        ops := [] }
  | .start net => { s with calls := s.calls ++ [{ asked := net }] }
  | .carriedOut i ok => s.carriedOut b i ok
  | .answered i => s.answered b i
  | .begins r =>
      match s.folder with
      | some net => { s with ops := s.ops ++ [{ record := r, about := net }] }
      | none => s
  | .reads i =>
      match s.ops[i]? with
      | some op => { s with
            ops := s.ops.set i { op with readAt := some s.current, readHeard := some s.heard } }
      | none => s
  | .writes i =>
      match s.ops[i]? with
      | some op =>
          { s with
            written := s.written ++
              [{ about := op.about, record := op.record, name := op.record.key s.current
                 readName := op.readAt.map op.record.key }] }
      | none => s
  | .ends i => { s with ops := s.ops.eraseIdx i }

/-- Each record was written under the net of its key's folder, and read under the name it was
written under. -/
def KeptApart (s : Phone) : Prop :=
  ∀ w ∈ s.written, w.name = w.record.key w.about ∧ ∀ r ∈ w.readName, r = w.name

/-- When a record is written, and when it was read, the last answer to a start call since the
launch or reload had named the folder that the firmware runs on; or none had come, and that folder
is the live one. -/
def AnsweredFirst (s : Phone) : Event → Prop
  | .writes i => ∀ op ∈ s.ops[i]?, s.folder = some s.heard ∧ ∀ n ∈ op.readHeard, s.folder = some n
  | _ => True

/-- What every run keeps. -/
structure Inv (b : Build) (s : Phone) : Prop where
  /-- What is being changed is of the key that runs. -/
  about : ∀ op ∈ s.ops, s.folder = some op.about
  /-- The app's net is what the answers told. -/
  current : s.current = s.heard
  dirs : ∀ c ∈ s.calls, c.dir = c.names.map fun n => b.storageDirFor (b.slotOf n)
  read : ∀ op ∈ s.ops, op.readAt = op.readHeard

variable {b} {s : Phone}

/-- A start that is carried out changes nothing of the records. -/
theorem carriedOut_eq (s : Phone) (i : Nat) (ok : Bool) :
    (s.carriedOut b i ok).ops = s.ops ∧ (s.carriedOut b i ok).written = s.written ∧
      (s.carriedOut b i ok).current = s.current ∧ (s.carriedOut b i ok).told = s.told ∧
      (∀ net, s.folder = some net → (s.carriedOut b i ok).folder = some net) := by
  unfold carriedOut
  split
  · split
    · exact ⟨rfl, rfl, rfl, rfl, fun _ h => h⟩
    · refine ⟨rfl, rfl, rfl, rfl, fun net h => ?_⟩
      simp [h]
  · exact ⟨rfl, rfl, rfl, rfl, fun _ h => h⟩

theorem answered_eq (s : Phone) (i : Nat) :
    (s.answered b i).ops = s.ops ∧ (s.answered b i).written = s.written ∧
      (s.answered b i).folder = s.folder := by
  unfold answered
  split
  · split
    · exact ⟨rfl, rfl, rfl⟩
    · exact ⟨rfl, rfl, rfl⟩
  · exact ⟨rfl, rfl, rfl⟩

/-- A call that is carried out is answered with a folder that tells its net. -/
theorem Inv.carriedOut (h : s.Inv b) (i : Nat) (ok : Bool) : (s.carriedOut b i ok).Inv b := by
  obtain ⟨hops, -, hcurrent, htold, hfolder⟩ := s.carriedOut_eq (b := b) i ok
  refine ⟨fun op hop => hfolder op.about (h.about op (hops ▸ hop)), ?_, ?_,
    fun op hop => h.read op (hops ▸ hop)⟩
  · rw [hcurrent, heard, htold]
    exact h.current
  · unfold Phone.carriedOut
    split
    · split
      · exact h.dirs
      · intro c hc
        rcases List.mem_or_eq_of_mem_set hc with hc | rfl
        · exact h.dirs c hc
        · rfl
    · exact h.dirs

/-- The answer sets the net of the folder it names. -/
theorem Inv.answered (h : s.Inv b) (i : Nat) : (s.answered b i).Inv b := by
  obtain ⟨hops, -, hfolder⟩ := s.answered_eq (b := b) i
  refine ⟨fun op hop => hfolder.trans (h.about op (hops ▸ hop)), ?_, ?_,
    fun op hop => h.read op (hops ▸ hop)⟩
  · unfold Phone.answered
    split
    · rename_i c hget
      have hdir := h.dirs c (List.mem_of_getElem? hget)
      split
      · rename_i dir hsome
        cases hnames : c.names with
        | none =>
          rw [hnames, hsome] at hdir
          cases hdir
        | some n =>
          rw [hnames, hsome] at hdir
          -- the folder that was answered is the one the start was for
          obtain rfl := Option.some.inj hdir
          simp only [heard]
          split
          · rw [b.netOfStorageDir_slotOf, Option.getD_some]
          · exact h.current
      · exact h.current
    · exact h.current
  · unfold Phone.answered
    split
    · split
      · exact fun c hc => h.dirs c (List.mem_of_mem_eraseIdx hc)
      · exact h.dirs
    · exact h.dirs

/-- Every event keeps the invariant. -/
theorem Inv.step (h : s.Inv b) (e : Event) : (s.step b e).Inv b := by
  cases e with
  | launch =>
    exact ⟨fun op hop => (by cases hop), rfl, fun c hc => (by cases hc), fun op hop => (by cases hop)⟩
  | reload =>
    refine ⟨fun op hop => (by cases hop), rfl, fun c hc => ?_, fun op hop => (by cases hop)⟩
    obtain ⟨c', hc', rfl⟩ := List.mem_map.mp hc
    exact h.dirs c' hc'
  | start net =>
    refine ⟨h.about, h.current, fun c hc => ?_, h.read⟩
    rcases List.mem_append.mp hc with hc | hc
    · exact h.dirs c hc
    · obtain rfl := List.mem_singleton.mp hc
      rfl
  | carriedOut i ok => exact h.carriedOut i ok
  | answered i => exact h.answered i
  | begins r =>
    simp only [Phone.step]
    split
    · rename_i net hfolder
      -- what begins is of the key that runs, and has read nothing
      refine ⟨fun op hop => ?_, h.current, h.dirs, fun op hop => ?_⟩
      · rcases List.mem_append.mp hop with hop | hop
        · exact h.about op hop
        · obtain rfl := List.mem_singleton.mp hop
          exact hfolder
      · rcases List.mem_append.mp hop with hop | hop
        · exact h.read op hop
        · obtain rfl := List.mem_singleton.mp hop
          rfl
    · exact h
  | reads i =>
    simp only [Phone.step]
    split
    · rename_i op hget
      refine ⟨fun op' hop' => ?_, h.current, h.dirs, fun op' hop' => ?_⟩
      · rcases List.mem_or_eq_of_mem_set hop' with hop' | rfl
        · exact h.about op' hop'
        · exact h.about op (List.mem_of_getElem? hget)
      · rcases List.mem_or_eq_of_mem_set hop' with hop' | rfl
        · exact h.read op' hop'
        · exact congrArg some h.current
    · exact h
  | writes i =>
    simp only [Phone.step]
    split
    · exact ⟨h.about, h.current, h.dirs, h.read⟩
    · exact h
  | ends i =>
    exact ⟨fun op hop => h.about op (List.mem_of_mem_eraseIdx hop), h.current, h.dirs,
      fun op hop => h.read op (List.mem_of_mem_eraseIdx hop)⟩

/-- It is about what was written. -/
theorem keptApart_congr {s' : Phone} (h : s'.written = s.written) :
    s'.KeptApart ↔ s.KeptApart := by
  unfold KeptApart
  rw [h]

/-- A step keeps the records apart exactly when the answer was there first. -/
theorem keptApart_step_iff (hinv : s.Inv b) (h : s.KeptApart) (e : Event) :
    (s.step b e).KeptApart ↔ s.AnsweredFirst e := by
  -- only the end of a change writes
  have hother {s' : Phone} (hwritten : s'.written = s.written) : s'.KeptApart ↔ True :=
    (keptApart_congr hwritten).trans (iff_true_intro h)
  cases e with
  | launch => exact hother rfl
  | reload => exact hother rfl
  | start net => exact hother rfl
  | carriedOut i ok => exact hother (s.carriedOut_eq i ok).2.1
  | answered i => exact hother (s.answered_eq i).2.1
  | begins r =>
    simp only [Phone.step]
    split
    · exact hother rfl
    · exact hother rfl
  | reads i =>
    simp only [Phone.step]
    split
    · exact hother rfl
    · exact hother rfl
  | ends i => exact hother rfl
  | writes i =>
    simp only [Phone.step, AnsweredFirst, ← hinv.current]
    cases hget : s.ops[i]? with
    | none => simp [h]
    | some op =>
      have hmem := List.mem_of_getElem? hget
      have hfolder := hinv.about op hmem
      simp only [Option.mem_def, Option.some.injEq, forall_eq', ← hinv.read op hmem]
      constructor
      · intro hall
        obtain ⟨hname, hread⟩ := hall _ (List.mem_append_right _ List.mem_cons_self)
        have hcurrent : s.current = op.about := key_inj hname
        refine ⟨by rw [hfolder, hcurrent], fun n hn => ?_⟩
        have hsame := hread (op.record.key n) (by simp [hn])
        have habout : n = op.about := key_inj (hsame.trans hname)
        rw [hfolder, habout]
      · rintro ⟨hcurrent, hread⟩ w hw
        rcases List.mem_append.mp hw with hw | hw
        · exact h w hw
        obtain rfl := List.mem_singleton.mp hw
        have habout : op.about = s.current := Option.some.inj (hfolder.symm.trans hcurrent)
        refine ⟨by rw [habout], fun r hr => ?_⟩
        obtain ⟨n, hn, rfl⟩ := Option.map_eq_some_iff.mp hr
        have hn' : n = s.current := Option.some.inj ((hread n hn).symm.trans hcurrent)
        rw [hn']

/-- All along a run the records are kept apart exactly when each is written, and was read, with the
firmware's folder the one that the answers to `start` had told of. -/
theorem records_keep_apart_iff (b : Build) (es : List Event) :
    (∀ p, p <+: es → (p.foldl (step b) {}).KeptApart) ↔
      ∀ p e, p ++ [e] <+: es → (p.foldl (step b) {}).AnsweredFirst e := by
  have hfirst : ({} : Phone).Inv b :=
    ⟨fun op hop => (by cases hop), rfl, fun c hc => (by cases hc), fun op hop => (by cases hop)⟩
  have hempty : ({} : Phone).KeptApart := fun w hw => (by cases hw)
  exact holds_along_iff hfirst (fun s e hs => Inv.step hs e) hempty
    (fun s e hinv h => keptApart_step_iff hinv h e) es

/-! ### What an answer tells

A start that fails names the folder it was asked for.  Where none does, every answer names the
folder that the firmware runs on, so the condition above is that an answer had come, or that
the firmware runs on the live folder. -/

/-- No firmware fails to start. -/
def Starts (s : Phone) : Event → Prop
  | .carriedOut _ ok => s.folder = none → ok = true
  | _ => True

/-- What the calls found, and what was told, is the folder that the firmware runs on. -/
def Names (s : Phone) : Prop :=
  (∀ c ∈ s.calls, ∀ n ∈ c.names, s.folder = some n) ∧ ∀ n ∈ s.told, s.folder = some n

/-- Every event keeps it, where no firmware fails to start. -/
theorem Names.step (h : s.Names) {e : Event} (hstarts : s.Starts e) : (s.step b e).Names := by
  obtain ⟨hcalls, htold⟩ := h
  cases e with
  | launch => exact ⟨fun c hc => (by cases hc), fun n hn => (by cases hn)⟩
  | reload =>
    -- a reload drops the answers of the starts before it
    refine ⟨fun c hc => ?_, fun n hn => (by cases hn)⟩
    obtain ⟨c', hc', rfl⟩ := List.mem_map.mp hc
    exact hcalls c' hc'
  | start net =>
    refine ⟨fun c hc => ?_, htold⟩
    rcases List.mem_append.mp hc with hc | hc
    · exact hcalls c hc
    · obtain rfl := List.mem_singleton.mp hc
      exact fun n hn => (by cases hn)
  | carriedOut i ok =>
    simp only [Phone.step, Phone.carriedOut]
    split
    · rename_i c hget
      split
      · exact ⟨hcalls, htold⟩
      · -- a firmware that runs goes on, and one that does not starts
        have hfolder : (if s.folder.isNone && !ok then none else some (s.folder.getD c.asked)) =
            some (s.folder.getD c.asked) := by
          cases hf : s.folder with
          | some net => simp
          | none => simp [hstarts hf]
        have hstays (n : Net) (hn : s.folder = some n) : some (s.folder.getD c.asked) = some n := by
          rw [hn, Option.getD_some]
        simp only [hfolder]
        refine ⟨fun c' hc' n hn => ?_, fun n hn => hstays n (htold n hn)⟩
        rcases List.mem_or_eq_of_mem_set hc' with hc' | rfl
        · exact hstays n (hcalls c' hc' n hn)
        · exact hn
    · exact ⟨hcalls, htold⟩
  | answered i =>
    simp only [Phone.step, Phone.answered]
    split
    · rename_i c hget
      split
      · refine ⟨fun c' hc' => hcalls c' (List.mem_of_mem_eraseIdx hc'), fun n hn => ?_⟩
        simp only at hn
        split at hn
        · exact hcalls c (List.mem_of_getElem? hget) n hn
        · exact htold n hn
      · exact ⟨hcalls, htold⟩
    · exact ⟨hcalls, htold⟩
  | begins r =>
    simp only [Phone.step]
    split
    · exact ⟨hcalls, htold⟩
    · exact ⟨hcalls, htold⟩
  | reads i =>
    simp only [Phone.step]
    split
    · exact ⟨hcalls, htold⟩
    · exact ⟨hcalls, htold⟩
  | writes i =>
    simp only [Phone.step]
    split
    · exact ⟨hcalls, htold⟩
    · exact ⟨hcalls, htold⟩
  | ends i => exact ⟨hcalls, htold⟩

/-- With no start failing: once an answer has come since the launch or reload, `current` is the
net of the firmware's folder. -/
theorem current_is_folder {es : List Event} (h : AllAlong (step b) Starts {} es)
    (htold : (es.foldl (step b) {}).told.isSome = true) :
    (es.foldl (step b) {}).folder = some (es.foldl (step b) {}).current := by
  have hfirst : ({} : Phone).Inv b :=
    ⟨fun op hop => (by cases hop), rfl, fun c hc => (by cases hc), fun op hop => (by cases hop)⟩
  have hinv := inv_along hfirst (fun s e hs => Inv.step (b := b) hs e) es
  have hempty : ({} : Phone).Names := ⟨fun c hc => (by cases hc), fun n hn => (by cases hn)⟩
  have hnames := h.keeps hempty fun s e hs he => hs.step he
  obtain ⟨n, hn⟩ := Option.isSome_iff_exists.mp htold
  rw [hinv.current, heard, hn, Option.getD_some]
  exact hnames.2 n hn

/-- The firmware runs on the testnet's folder; after a reload it records a derive before the answer
to `start`. -/
theorem reload_mixes_the_nets :
    ¬ ∀ (b : Build) (es : List Event), (es.foldl (step b) {}).KeptApart := by
  intro h
  let build : Build := ⟨"files".toList, [], by decide⟩
  have hkept := h build
    [.start .test, .carriedOut 0 true, .answered 0, .reload, .start .live, .begins .keychainList,
      .reads 0, .writes 0]
  obtain ⟨hname, -⟩ := hkept
    { about := .test, record := .keychainList, name := "okrn.keychain.list"
      readName := some "okrn.keychain.list" } (by decide +kernel)
  revert hname
  decide +kernel

end Phone

end OkRn.Records
