/-
OkRn/Net/Clear.lean

Clearing the testnet.

`scheduleClearAndRestart` leaves a mark, and the next launch removes the mark, deletes
the testnet's slot and then every record whose name is the testnet's.  Each of these
is one await, and the process may end or fail at any.

`scheduled_clear_is_not_lost`: the clear is done, under way or still marked as long as
nothing interrupts it once the mark is gone, and the testnet's key has no password
store: the names of those are not the testnet's.

* `Phone.step` takes the clear apart at its awaits;
* `Phone.Undisturbed` is the condition on each event, and `Phone.Kept` what is to hold: a
  clear that is owed is marked or under way;
* `Launched` follows a launch that is left alone, to the end.

Main results: `scheduled_clear_is_not_lost`, and `scheduled_clear_is_lost`.
-/
import OkRn.Lib.Along
import OkRn.Net.Records

namespace OkRn.Testnet

open Records (Net)

/-! ### Records and their names -/

/-- The id of a password store, which the library makes of a public key. -/
structure StoreId where
  id : List Char
  hex : ∀ c ∈ id, c ∈ "0123456789abcdef".toList

/-- What Guest Book and Crypto Box store. -/
inductive Feature
  | guestBook
  | guestBookName
  | guestBookOffered
  | cryptoBox
  deriving DecidableEq

/-- `okrn.<feature>.test.` or `okrn.<feature>.test:` -/
def featureTest (name : List Char) : Bool :=
  let rest := name.drop 5
  let feature := rest.takeWhile fun c => decide ('a' ≤ c) && decide (c ≤ 'z')
  let after := rest.drop feature.length
  "okrn.".toList.isPrefixOf name && !feature.isEmpty &&
    (".test.".toList.isPrefixOf after || ".test:".toList.isPrefixOf after)

/-- `TEST_KEYS` -/
def testKeys (name : List Char) : Bool :=
  Records.testPrefix.toList.isPrefixOf name ||
    decide (name = "okrn.keychain.test.list".toList) || featureTest name

/-- The names that the library's Guest Book and Crypto Box store under. -/
structure FeatureKeys where
  guestBook : String
  cryptoBox : String
  live : testKeys guestBook.toList = false ∧ testKeys cryptoBox.toList = false

variable (keys : FeatureKeys)

/-- The name that a feature's record is stored under. -/
def Feature.key (net : Net) (feature : Feature) : String :=
  match net, feature with
  | .test, .guestBook => "okrn.guestbook.test:v1"
  | .live, .guestBook => keys.guestBook
  | .test, .guestBookName => "okrn.guestbook.test:myname"
  | .live, .guestBookName => "okrn.guestbook:myname"
  | .test, .guestBookOffered => "okrn.guestbook.test:offered"
  | .live, .guestBookOffered => "okrn.guestbook:offered"
  | .test, .cryptoBox => "okrn.cryptobox.test:v1"
  | .live, .cryptoBox => keys.cryptoBox

/-- The names of a password store. -/
def prefixOf (id : StoreId) : List Char := "okrn.passwords.".toList ++ (id.id ++ ['/'])

/-- What is stored. -/
inductive Kind
  | soft (record : Records.Record)
  | feature (feature : Feature)
  /-- An item of a password store. -/
  | password (id : StoreId) (item : List Char)

/-- It is an item of a password store. -/
def Kind.isPassword : Kind → Bool
  | .password _ _ => true
  | _ => false

/-- A record of the key of a net, and the net that `current` was when it was stored. -/
structure Stored where
  owner : Net
  under : Net
  kind : Kind

/-- The name that it is stored under. -/
def Stored.name (r : Stored) : List Char :=
  match r.kind with
  | .soft record => (record.key r.under).toList
  | .feature feature => (feature.key keys r.under).toList
  | .password id item => prefixOf id ++ item

/-- The record is named for the net of its key. -/
def Stored.WellFiled (r : Stored) : Prop :=
  if r.kind.isPassword then r.owner = .live else r.under = r.owner

instance (r : Stored) : Decidable r.WellFiled := by
  unfold Stored.WellFiled
  infer_instance

/-! ### The phone -/

/-- A call at its await; the flag says that it is a scheduled clear. -/
inductive Task
  /-- `clearIfScheduled` reads the mark. -/
  | reading
  | unmarking
  /-- `clearTestnet` -/
  | deleting (scheduled : Bool)
  | listing (scheduled : Bool)
  | removing (scheduled : Bool) (name : List Char) (rest : List (List Char))
  /-- `scheduleClearAndRestart` -/
  | marking
  | restarting
  deriving DecidableEq

/-- The phone, as far as a clear goes. -/
structure Phone where
  current : Net := .live
  /-- The net of the folder that the firmware runs on. -/
  folder : Option Net := none
  /-- The nets that `start` has answered and the app has not heard. -/
  answers : List Net := []
  /-- The folder of the testnet's slot is there. -/
  slot : Bool
  stored : List Stored
  scheduled : Bool := false
  tasks : List Task := []
  /-- A clear was scheduled, and something of the testnet's key is still there; no code reads
  this. -/
  owed : Bool := false

/-- What can happen. -/
inductive Event
  | launch
  /-- The firmware may run on. -/
  | reload (stops : Bool)
  | start (net : Net) (ok : Bool)
  | answered
  /-- Something of the key that runs is stored. -/
  | write (kind : Kind)
  /-- `scheduleClearAndRestart()` -/
  | schedule
  /-- `clearTestnet()` -/
  | clear
  /-- What a call awaits is carried out. -/
  | next (i : Nat)
  /-- The slot's folder is not deleted, which nobody is told. -/
  | undeleted (i : Nat)
  | fails (i : Nat)

/-- A scheduled clear whose mark is gone. -/
def Task.clears : Task → Bool
  | .deleting scheduled => scheduled
  | .listing scheduled => scheduled
  | .removing scheduled _ _ => scheduled
  | _ => false

/-- A clear that has begun. -/
def Task.begun : Task → Bool
  | .unmarking | .deleting _ | .listing _ | .removing _ _ _ => true
  | _ => false

namespace Phone

/-- Nothing of the testnet's key is left. -/
def gone (s : Phone) : Bool := !s.slot && s.stored.all fun r => decide (r.owner = .live)

/-- What is owed is settled once nothing is left. -/
def settle (s : Phone) : Phone := { s with owed := s.owed && !s.gone }

/-- A call goes on to its next await, or ends. -/
def goOn (s : Phone) (i : Nat) : Option Task → Phone
  | some task => { s with tasks := s.tasks.set i task }
  | none => { s with tasks := s.tasks.eraseIdx i }

/-- The beginning of `clearTestnet`; none when it throws. -/
def clearTestnet (s : Phone) (scheduled : Bool) : Option Task :=
  if s.current = .live then some (.deleting scheduled) else none

/-- The rest of the names are removed. -/
def removeFrom (scheduled : Bool) : List (List Char) → Option Task
  | [] => none
  | name :: rest => some (.removing scheduled name rest)

/-- What a call awaits is carried out, and it goes on. -/
def carriedOut (s : Phone) (i : Nat) : Task → Phone
  | .reading => s.goOn i (if s.scheduled && s.folder.isNone then some .unmarking else none)
  -- the mark goes before anything is cleared
  | .unmarking => { s with scheduled := false }.goOn i (s.clearTestnet true)
  | .deleting scheduled =>
      -- the native side refuses to delete the folder that the firmware runs on
      if s.folder = some .test then s.goOn i none
      else { s with slot := false }.goOn i (some (.listing scheduled))
  | .listing scheduled =>
      s.goOn i (removeFrom scheduled ((s.stored.map (·.name keys)).filter testKeys))
  | .removing scheduled name rest =>
      { s with stored := s.stored.filter fun r => decide (r.name keys ≠ name) }.goOn i
        (removeFrom scheduled rest)
  | .marking => { s with scheduled := true, owed := true }.goOn i (some .restarting)
  | .restarting => s

/-- The slot could not be deleted. -/
def undeleted (s : Phone) (i : Nat) : Phone :=
  match s.tasks[i]? with
  | some (.deleting scheduled) =>
      if s.folder = some .test then s.goOn i none else s.goOn i (some (.listing scheduled))
  | _ => s

/-- `startLocked`, which makes the slot's folder in any case. -/
def start (s : Phone) (net : Net) (ok : Bool) : Phone :=
  let answer := s.folder.getD net
  { s with
    folder := if s.folder.isNone && !ok then none else some answer
    slot := s.slot || decide (net = .test)
    answers := s.answers ++ [answer] }

/-- Something is stored. -/
def write (s : Phone) (kind : Kind) : Phone :=
  match s.folder with
  -- it is filed under `current`, whichever key it is of
  | some owner => { s with stored := s.stored ++ [⟨owner, s.current, kind⟩] }
  | none => s

/-- What an event does. -/
def act (s : Phone) : Event → Phone
  | .launch => { s with current := .live, folder := none, answers := [], tasks := [.reading] }
  | .reload stops =>
      { s with
        current := .live
        folder := if stops then none else s.folder
        answers := []
        tasks := [.reading] }
  | .start net ok => s.start net ok
  | .answered => { s with current := s.answers.headD s.current, answers := s.answers.tail }
  | .write kind => s.write kind
  | .schedule => { s with tasks := s.tasks ++ [.marking] }
  | .clear => { s with tasks := s.tasks ++ (s.clearTestnet false).toList }
  | .next i =>
      match s.tasks[i]? with
      | some task => s.carriedOut keys i task
      | none => s
  | .undeleted i => s.undeleted i
  | .fails i => s.goOn i none

/-- One event. -/
def step (s : Phone) (e : Event) : Phone := (s.act keys e).settle

/-- The stored records, and whether the testnet's slot is there, before anything happens. -/
def first (stored : List Stored) (slot : Bool) : Phone := { stored := stored, slot := slot }

/-- What a clear takes for granted when its await is over. -/
def Ready (s : Phone) : Task → Prop
  | .unmarking => s.current = .live
  | .listing _ | .removing _ _ _ => ∀ r ∈ s.stored, r.WellFiled
  | _ => True

instance (s : Phone) (task : Task) : Decidable (s.Ready task) := by
  unfold Ready
  split <;> infer_instance

/-- Nothing interrupts a scheduled clear once its mark is gone, the testnet is not started during a
clear, and the records found by their names are the testnet's. -/
def Undisturbed (s : Phone) : Event → Prop
  | .launch | .reload _ => s.owed = true → ∀ task ∈ s.tasks, task.clears = false
  | .fails i => s.owed = true → ∀ task ∈ s.tasks[i]?, task.clears = false
  | .undeleted i => ∀ task ∈ s.tasks[i]?, task.clears = false
  | .start net _ => net = .test → ∀ task ∈ s.tasks, task.begun = false
  | .next i => ∀ task ∈ s.tasks[i]?, s.Ready task
  | _ => True

instance (s : Phone) (e : Event) : Decidable (s.Undisturbed e) := by
  unfold Undisturbed
  split <;> infer_instance

end Phone

/-! ### Which names are found -/

/-- The rest of a name from the key's own part on does not count. -/
theorem featureTest_append {feature : List Char} (hfeature : ∀ c ∈ feature, 'a' ≤ c ∧ c ≤ 'z')
    (hne : feature ≠ []) (after : List Char) :
    featureTest ("okrn.".toList ++ (feature ++ '.' :: after)) =
      ("test.".toList.isPrefixOf after || "test:".toList.isPrefixOf after) := by
  have htake : (feature ++ '.' :: after).takeWhile (fun c => decide ('a' ≤ c) && decide (c ≤ 'z')) =
      feature := by
    rw [List.takeWhile_append_of_pos (fun c hc => by simp [hfeature c hc]),
      List.takeWhile_cons_of_neg (by decide), List.append_nil]
  have hdrop : ("okrn.".toList ++ (feature ++ '.' :: after)).drop 5 = feature ++ '.' :: after := rfl
  unfold featureTest
  simp only [hdrop, htake, List.drop_left]
  have hempty : feature.isEmpty = false := by simpa using hne
  simp [hempty, List.isPrefixOf]

/-- Of the soft key's records the testnet's are found. -/
theorem testKeys_soft (net : Net) (record : Records.Record) :
    testKeys (record.key net).toList = decide (net = .test) := by
  cases net <;> cases record <;>
    simp [testKeys, featureTest, Records.Record.key, Records.edgeKey, Records.keychainListKey,
      Records.livePrefix, Records.testPrefix, String.toList_append, List.isPrefixOf]

variable {keys}

theorem testKeys_feature (net : Net) (feature : Feature) :
    testKeys (feature.key keys net).toList = decide (net = .test) := by
  cases net with
  | test =>
    cases feature <;> simp [testKeys, featureTest, Feature.key, Records.testPrefix, List.isPrefixOf]
  | live =>
    cases feature with
    | guestBook => exact keys.live.1
    | cryptoBox => exact keys.live.2
    | guestBookName | guestBookOffered =>
      simp [testKeys, featureTest, Feature.key, Records.testPrefix, List.isPrefixOf]

/-- No item of a password store is. -/
theorem testKeys_password (id : StoreId) (item : List Char) :
    testKeys (prefixOf id ++ item) = false := by
  have hfirst (p : List Char) : List.isPrefixOf ('t' :: p) (id.id ++ '/' :: item) = false := by
    cases hid : id.id with
    | nil => simp [List.isPrefixOf]
    | cons c rest =>
      have hc : c ∈ "0123456789abcdef".toList := id.hex c (hid ▸ List.mem_cons_self)
      have hne : ('t' == c) = false := by
        rw [beq_eq_false_iff_ne]
        rintro rfl
        exact absurd hc (by decide)
      simp [List.isPrefixOf, hne]
  have hstart : prefixOf id = "okrn.passwords.".toList ++ (id.id ++ ['/']) := rfl
  have hname : prefixOf id ++ item =
      "okrn.".toList ++ ("passwords".toList ++ '.' :: (id.id ++ '/' :: item)) := by
    simp only [hstart, List.append_assoc]
    simp
  have hdot : "test.".toList = ['t', 'e', 's', 't', '.'] := by decide
  have hcolon : "test:".toList = ['t', 'e', 's', 't', ':'] := by decide
  have hfeature : featureTest (prefixOf id ++ item) = false := by
    rw [hname, featureTest_append (by simp) (by decide), hdot, hcolon, hfirst, hfirst]
    rfl
  rw [testKeys, hfeature, hstart]
  simp [Records.testPrefix, List.isPrefixOf]

/-- The records that are found are the testnet's, if all are filed well. -/
theorem Stored.WellFiled.found {r : Stored} (h : r.WellFiled) :
    testKeys (r.name keys) = decide (r.owner = .test) := by
  obtain ⟨owner, under, kind⟩ := r
  cases kind with
  | soft record =>
    obtain rfl : under = owner := h
    exact testKeys_soft under record
  | feature feature =>
    obtain rfl : under = owner := h
    exact testKeys_feature under feature
  | password id item =>
    obtain rfl : owner = .live := h
    exact testKeys_password id item

/-! ### What a clear has done -/

namespace Phone

/-- The slot is gone, and what is left of the testnet's records will be removed. -/
def Gone (keys : FeatureKeys) (s : Phone) (names : List (List Char)) : Prop :=
  s.slot = false ∧ ∀ r ∈ s.stored, r.owner = .test → r.name keys ∈ names

/-- What holds while a call is at its await. -/
def Stands (keys : FeatureKeys) (s : Phone) : Task → Prop
  | .unmarking => s.folder ≠ some .test
  | .deleting scheduled => scheduled = true → s.folder ≠ some .test
  | .listing scheduled => s.folder ≠ some .test ∧ (scheduled = true → s.slot = false)
  | .removing scheduled name rest =>
      s.folder ≠ some .test ∧ (scheduled = true → s.Gone keys (name :: rest)) ∧
        ∀ n ∈ name :: rest, testKeys n = true
  | _ => True

/-- What holds in an undisturbed run. -/
structure Inv (keys : FeatureKeys) (s : Phone) : Prop where
  tasks : ∀ task ∈ s.tasks, s.Stands keys task
  running : s.folder = some .test → s.slot = true

/-- The clear is still scheduled or under way while something of the testnet's key is there. -/
def Kept (s : Phone) : Prop :=
  s.owed = true → s.scheduled = true ∨ ∃ task ∈ s.tasks, task.clears = true

section

variable {s s' : Phone} {task : Task}

/-- What it takes for nothing to be left. -/
theorem gone_eq_true : s.gone = true ↔ s.slot = false ∧ ∀ r ∈ s.stored, r.owner = .live := by
  simp [Phone.gone]

/-- When every name is removed, nothing is. -/
theorem Gone.gone (h : s.Gone keys []) : s.gone = true := by
  refine gone_eq_true.mpr ⟨h.1, fun r hr => ?_⟩
  cases howner : r.owner with
  | live => rfl
  | test => exact absurd (h.2 r hr howner) List.not_mem_nil

/-- A call that has not begun to clear stands. -/
theorem stands_of_not_begun (h : task.begun = false) : s.Stands keys task := by
  cases task with
  | reading | marking | restarting => trivial
  | unmarking | deleting | listing | removing => cases h

/-- A clear stands when nothing of the testnet's was added. -/
theorem Stands.mono (h : s.Stands keys task)
    (hfolder : s'.folder = some .test → s.folder = some .test)
    (hslot : s.slot = false → s'.slot = false)
    (hstored : ∀ r ∈ s'.stored, r.owner = .test → r ∈ s.stored) : s'.Stands keys task := by
  cases task with
  | reading | marking | restarting => trivial
  | unmarking => exact fun htest => h (hfolder htest)
  | deleting scheduled => exact fun hs htest => h hs (hfolder htest)
  | listing scheduled => exact ⟨fun htest => h.1 (hfolder htest), fun hs => hslot (h.2 hs)⟩
  | removing scheduled name rest =>
    refine ⟨fun htest => h.1 (hfolder htest), fun hs => ?_, h.2.2⟩
    obtain ⟨hgone, hnames⟩ := h.2.1 hs
    exact ⟨hslot hgone, fun r hr howner => hnames r (hstored r hr howner) howner⟩

/-- The calls after one has gone on. -/
theorem mem_goOn {i : Nat} {next : Option Task} (h : task ∈ (s.goOn i next).tasks) :
    task ∈ s.tasks ∨ next = some task := by
  cases next with
  | none => exact .inl (List.mem_of_mem_eraseIdx h)
  | some t =>
    rcases List.mem_or_eq_of_mem_set h with h | rfl
    · exact .inl h
    · exact .inr rfl

/-- A clear that another call does not replace goes on. -/
theorem clears_goOn {i : Nat} {next : Option Task} (hi : ∀ t ∈ s.tasks[i]?, t.clears = false)
    (h : ∃ task ∈ s.tasks, task.clears = true) :
    ∃ task ∈ (s.goOn i next).tasks, task.clears = true := by
  obtain ⟨task, hmem, hclears⟩ := h
  obtain ⟨j, hj⟩ := List.mem_iff_getElem?.mp hmem
  have hij : i ≠ j := by
    rintro rfl
    rw [hi task hj] at hclears
    cases hclears
  refine ⟨task, ?_, hclears⟩
  cases next with
  | none => exact List.mem_eraseIdx_iff_getElem?.mpr ⟨j, hij.symm, hj⟩
  | some t => exact List.mem_iff_getElem?.mpr ⟨j, by rw [← hj]; exact List.getElem?_set_ne hij⟩

/-- One that goes on with a clear still clears. -/
theorem clears_goOn_next {i : Nat} {old next : Task} (hi : s.tasks[i]? = some old)
    (hnext : next.clears = true) : ∃ task ∈ (s.goOn i (some next)).tasks, task.clears = true := by
  obtain ⟨hlen, -⟩ := List.getElem?_eq_some_iff.mp hi
  exact ⟨next, List.mem_set hlen next, hnext⟩

/-- The records that a clear found, when every record is filed well. -/
theorem gone_of_found (hslot : s.slot = false) (hfiled : ∀ r ∈ s.stored, r.WellFiled) :
    s.Gone keys ((s.stored.map (·.name keys)).filter testKeys) := by
  refine ⟨hslot, fun r hr howner => ?_⟩
  have hfound : testKeys (r.name keys) = true := by
    rw [(hfiled r hr).found, howner]
    rfl
  exact List.mem_filter.mpr ⟨List.mem_map_of_mem hr, hfound⟩

/-- A record that is removed is no longer to be removed. -/
theorem Gone.remove {name : List Char} {rest : List (List Char)} (h : s.Gone keys (name :: rest)) :
    ({ s with stored := s.stored.filter fun r => decide (r.name keys ≠ name) } : Phone).Gone keys
      rest := by
  refine ⟨h.1, fun r hr howner => ?_⟩
  obtain ⟨hmem, hne⟩ := List.mem_filter.mp hr
  rcases List.mem_cons.mp (h.2 r hmem howner) with heq | hrest
  · exact absurd heq (of_decide_eq_true hne)
  · exact hrest

/-- The next name, and the rest. -/
theorem removeFrom_eq_some {scheduled : Bool} {names : List (List Char)}
    (h : removeFrom scheduled names = some task) :
    ∃ name rest, names = name :: rest ∧ task = .removing scheduled name rest := by
  cases names with
  | nil => cases h
  | cons name rest => exact ⟨name, rest, rfl, (Option.some.inj h).symm⟩

end

/-! ### Every event -/

section

variable {s : Phone}

/-- A call that goes on leaves the others where they stood. -/
theorem Inv.goOn (h : s.Inv keys) (s' : Phone) (hfolder : s'.folder = s.folder)
    (htasks : s'.tasks = s.tasks) (hslot : s.slot = false → s'.slot = false)
    (hrunning : s'.folder = some .test → s'.slot = true)
    (hstored : ∀ r ∈ s'.stored, r.owner = .test → r ∈ s.stored) (i : Nat) (next : Option Task)
    (hnext : ∀ task, next = some task → s'.Stands keys task) : (s'.goOn i next).Inv keys := by
  have hsame : (s'.goOn i next).folder = s'.folder ∧ (s'.goOn i next).slot = s'.slot ∧
      (s'.goOn i next).stored = s'.stored := by
    cases next <;> exact ⟨rfl, rfl, rfl⟩
  obtain ⟨hf, hsl, hst⟩ := hsame
  refine ⟨fun task hmem => ?_, fun htest => by rw [hsl]; exact hrunning (hf ▸ htest)⟩
  have hstands : s'.Stands keys task := by
    rcases mem_goOn hmem with hold | hnew
    · exact (h.tasks task (htasks ▸ hold)).mono (fun htest => hfolder ▸ htest) hslot hstored
    · exact hnext task hnew
  exact hstands.mono (fun htest => hf ▸ htest) (fun hs => hsl.trans hs) fun r hr _ => hst ▸ hr

theorem Inv.carriedOut (h : s.Inv keys) {i : Nat} {task : Task} (hi : s.tasks[i]? = some task)
    (hready : s.Ready task) : (s.carriedOut keys i task).Inv keys := by
  have hstands := h.tasks task (List.mem_of_getElem? hi)
  have hall : ∀ r ∈ s.stored, r.owner = .test → r ∈ s.stored := fun _ hr _ => hr
  cases task with
  | reading =>
    refine h.goOn s rfl rfl id h.running hall i _ fun task htask => ?_
    split at htask
    · rename_i hread
      obtain rfl := Option.some.inj htask
      simp only [Bool.and_eq_true, Option.isNone_iff_eq_none] at hread
      exact fun htest => by rw [hread.2] at htest; cases htest
    · cases htask
  | unmarking =>
    refine h.goOn { s with scheduled := false } rfl rfl id h.running hall i _
      fun task htask => ?_
    have hlive : s.current = .live := hready
    rw [clearTestnet, if_pos hlive] at htask
    obtain rfl := Option.some.inj htask
    exact fun _ => hstands
  | deleting scheduled =>
    -- the firmware may be running on the folder, and then the clear ends here
    by_cases hfolder : s.folder = some .test
    · have heq : s.carriedOut keys i (.deleting scheduled) = s.goOn i none := if_pos hfolder
      rw [heq]
      exact h.goOn s rfl rfl id h.running hall i none nofun
    · have heq : s.carriedOut keys i (.deleting scheduled) =
          { s with slot := false }.goOn i (some (.listing scheduled)) := if_neg hfolder
      rw [heq]
      refine h.goOn { s with slot := false } rfl rfl (fun _ => rfl)
        (fun htest => absurd htest hfolder) hall i _ fun task htask => ?_
      obtain rfl := Option.some.inj htask
      exact ⟨hfolder, fun _ => rfl⟩
  | listing scheduled =>
    refine h.goOn s rfl rfl id h.running hall i _ fun task htask => ?_
    obtain ⟨name, rest, hnames, rfl⟩ := removeFrom_eq_some htask
    refine ⟨hstands.1, fun hs => ?_, fun n hn => ?_⟩
    · -- every record of the testnet is found, as all are filed well
      rw [← hnames]
      exact gone_of_found (hstands.2 hs) hready
    · exact (List.mem_filter.mp (hnames ▸ hn)).2
  | removing scheduled name rest =>
    refine h.goOn { s with stored := s.stored.filter fun r => decide (r.name keys ≠ name) } rfl rfl
      id h.running (fun r hr _ => (List.mem_filter.mp hr).1) i _ fun task htask => ?_
    obtain ⟨next, rest', rfl, rfl⟩ := removeFrom_eq_some htask
    exact ⟨hstands.1, fun hs => (hstands.2.1 hs).remove,
      fun n hn => hstands.2.2 n (List.mem_cons_of_mem name hn)⟩
  | marking =>
    refine h.goOn { s with scheduled := true, owed := true } rfl rfl id h.running hall i
      (some .restarting) fun task htask => ?_
    obtain rfl := Option.some.inj htask
    trivial
  | restarting => exact h

/-- A start on the live net does not run on the testnet. -/
theorem folder_start_live {ok : Bool} (h : (s.start .live ok).folder = some .test) :
    s.folder = some .test := by
  unfold Phone.start at h
  cases hfolder : s.folder with
  | none => cases ok <;> simp [hfolder] at h
  | some n => simpa [hfolder] using h

theorem Inv.start (h : s.Inv keys) {net : Net} {ok : Bool}
    (hund : net = .test → ∀ task ∈ s.tasks, task.begun = false) : (s.start net ok).Inv keys := by
  cases net with
  | test =>
    -- no clear has begun that the start could undo
    exact ⟨fun task hmem => stands_of_not_begun (hund rfl task hmem), fun _ => Bool.or_true _⟩
  | live =>
    refine ⟨fun task hmem => (h.tasks task hmem).mono folder_start_live (fun hs => ?_)
      fun _ hr _ => hr, fun htest => ?_⟩
    · show (s.slot || false) = false
      rw [hs]
      rfl
    · show (s.slot || false) = true
      rw [h.running (folder_start_live htest)]
      rfl

theorem Inv.write (h : s.Inv keys) (kind : Kind) : (s.write kind).Inv keys := by
  unfold Phone.write
  split
  · rename_i owner hfolder
    refine ⟨fun task hmem => ?_, h.running⟩
    have hstands := h.tasks task hmem
    cases owner with
    | live =>
      refine hstands.mono id id fun r hr howner => ?_
      rcases List.mem_append.mp hr with hr | hr
      · exact hr
      · obtain rfl := List.mem_singleton.mp hr
        cases howner
    | test =>
      -- no record is being removed while the firmware runs on the testnet
      cases task with
      | reading | marking | restarting => trivial
      | unmarking | deleting => exact hstands
      | listing | removing => exact absurd hfolder hstands.1
  · exact h

theorem Inv.undeleted (h : s.Inv keys) {i : Nat}
    (hund : ∀ task ∈ s.tasks[i]?, task.clears = false) : (s.undeleted i).Inv keys := by
  have hall : ∀ r ∈ s.stored, r.owner = .test → r ∈ s.stored := fun _ hr _ => hr
  unfold Phone.undeleted
  split
  · rename_i scheduled hi
    obtain rfl : scheduled = false := hund (.deleting scheduled) hi
    split
    · exact h.goOn s rfl rfl id h.running hall i none nofun
    · rename_i hfolder
      refine h.goOn s rfl rfl id h.running hall i _ fun task htask => ?_
      obtain rfl := Option.some.inj htask
      exact ⟨hfolder, nofun⟩
  · exact h

theorem Inv.act (h : s.Inv keys) {e : Event} (hund : s.Undisturbed e) :
    (s.act keys e).Inv keys := by
  -- a task that was under way stands where it stood, and a new one at its start
  cases e with
  | launch =>
    refine ⟨fun task hmem => ?_, nofun⟩
    obtain rfl := List.mem_singleton.mp hmem
    trivial
  | reload stops =>
    refine ⟨fun task hmem => ?_, fun htest => h.running ?_⟩
    · obtain rfl := List.mem_singleton.mp hmem
      trivial
    · cases stops with
      | true => cases htest
      | false => exact htest
  | start net ok => exact h.start hund
  | answered => exact ⟨h.tasks, h.running⟩
  | write kind => exact h.write kind
  | schedule =>
    refine ⟨fun task hmem => ?_, h.running⟩
    rcases List.mem_append.mp hmem with hold | hnew
    · exact h.tasks task hold
    · obtain rfl := List.mem_singleton.mp hnew
      trivial
  | clear =>
    refine ⟨fun task hmem => ?_, h.running⟩
    rcases List.mem_append.mp hmem with hold | hnew
    · exact h.tasks task hold
    · have hnew : s.clearTestnet false = some task := Option.mem_toList.mp hnew
      unfold clearTestnet at hnew
      split at hnew
      · obtain rfl := Option.some.inj hnew
        exact nofun
      · cases hnew
  | next i =>
    simp only [Phone.act]
    split
    · rename_i task hi
      exact h.carriedOut hi (hund task hi)
    · exact h
  | undeleted i => exact h.undeleted hund
  | fails i => exact h.goOn s rfl rfl id h.running (fun _ hr _ => hr) i none nofun

/-- A call that goes on changes the calls alone. -/
theorem goOn_eq (s : Phone) (i : Nat) (next : Option Task) :
    s.goOn i next = { s with tasks := (s.goOn i next).tasks } := by
  cases next <;> rfl

/-- What is owed is kept when a call goes on. -/
theorem Kept.goOn (h : s.Kept) {i : Nat} {next : Option Task}
    (hi : s.owed = true → ∀ t ∈ s.tasks[i]?, t.clears = false) : (s.goOn i next).Kept := by
  rw [goOn_eq]
  intro howed
  rcases h howed with hmark | hclears
  · exact .inl hmark
  · exact .inr (clears_goOn (hi howed) hclears)

/-- The next await of a scheduled clear. -/
theorem kept_goOn_next {i : Nat} {old next : Task} (hi : s.tasks[i]? = some old)
    (hnext : next.clears = true) : (s.goOn i (some next)).Kept :=
  fun _ => .inr (clears_goOn_next hi hnext)

/-- A clear that has found or removed its records goes on with the rest, or all is gone. -/
theorem kept_removeFrom {i : Nat} {old : Task} {names : List (List Char)}
    (hi : s.tasks[i]? = some old) (hgone : s.Gone keys names) :
    (s.goOn i (removeFrom true names)).Kept ∨ (s.goOn i (removeFrom true names)).gone = true := by
  cases names with
  | nil => exact .inr hgone.gone
  | cons name rest => exact .inl (kept_goOn_next hi rfl)

/-- So when a step is carried out, or nothing is left. -/
theorem Kept.carriedOut (hinv : s.Inv keys) (h : s.Kept) {i : Nat} {task : Task}
    (hi : s.tasks[i]? = some task) (hready : s.Ready task) :
    (s.carriedOut keys i task).Kept ∨ (s.carriedOut keys i task).gone = true := by
  have hstands := hinv.tasks task (List.mem_of_getElem? hi)
  have hother {next : Option Task} (hclears : task.clears = false) : (s.goOn i next).Kept :=
    h.goOn fun _ t ht => by
      obtain rfl : task = t := Option.some.inj (hi.symm.trans ht)
      exact hclears
  cases task with
  | reading => exact .inl (hother rfl)
  | unmarking =>
    -- from here on the call itself is all that is left of the schedule
    have hlive : s.current = .live := hready
    refine .inl ?_
    show (Phone.goOn _ i (s.clearTestnet true)).Kept
    rw [clearTestnet, if_pos hlive]
    exact kept_goOn_next hi rfl
  | deleting scheduled =>
    cases scheduled with
    | true =>
      refine .inl ?_
      show (if s.folder = some .test then _ else _ : Phone).Kept
      rw [if_neg (hstands rfl)]
      exact kept_goOn_next hi rfl
    | false =>
      refine .inl ?_
      show (if s.folder = some .test then _ else _ : Phone).Kept
      split
      · exact hother rfl
      · have hdeleted : Kept { s with slot := false } := h
        exact hdeleted.goOn fun _ t ht => by
          obtain rfl : Task.deleting false = t := Option.some.inj (hi.symm.trans ht)
          rfl
  | listing scheduled =>
    cases scheduled with
    | true => exact kept_removeFrom hi (gone_of_found (hstands.2 rfl) hready)
    | false => exact .inl (hother rfl)
  | removing scheduled name rest =>
    cases scheduled with
    | true => exact kept_removeFrom hi (hstands.2.1 rfl).remove
    | false =>
      have hremoved :
          Kept { s with stored := s.stored.filter fun r => decide (r.name keys ≠ name) } := h
      refine .inl (hremoved.goOn fun _ t ht => ?_)
      obtain rfl : Task.removing false name rest = t := Option.some.inj (hi.symm.trans ht)
      rfl
  | marking =>
    refine .inl ?_
    show (Phone.goOn _ i _).Kept
    rw [goOn_eq]
    exact fun _ => .inl rfl
  | restarting => exact .inl h

theorem Kept.act (hinv : s.Inv keys) (h : s.Kept) {e : Event} (hund : s.Undisturbed e) :
    (s.act keys e).Kept ∨ (s.act keys e).gone = true := by
  -- with no clear to cut off, the mark is still there
  have hmarked (howed : s.owed = true) (hnone : ∀ task ∈ s.tasks, task.clears = false) :
      s.scheduled = true := by
    rcases h howed with hmark | ⟨task, hmem, hclears⟩
    · exact hmark
    · rw [hnone task hmem] at hclears
      cases hclears
  have hmore (tasks : List Task) : Kept { s with tasks := s.tasks ++ tasks } := fun howed =>
    (h howed).imp id fun ⟨task, hmem, hclears⟩ =>
      ⟨task, List.mem_append_left tasks hmem, hclears⟩
  cases e with
  | launch => exact .inl fun howed => .inl (hmarked howed (hund howed))
  | reload stops => exact .inl fun howed => .inl (hmarked howed (hund howed))
  | start net ok => exact .inl h
  | answered => exact .inl h
  | write kind =>
    refine .inl ?_
    show (s.write kind).Kept
    unfold Phone.write
    split <;> exact h
  | schedule => exact .inl (hmore _)
  | clear => exact .inl (hmore _)
  | next i =>
    simp only [Phone.act]
    split
    · rename_i task hi
      exact h.carriedOut hinv hi (hund task hi)
    · exact .inl h
  | undeleted i =>
    refine .inl ?_
    show (s.undeleted i).Kept
    unfold Phone.undeleted
    split
    · split
      · exact h.goOn fun _ => hund
      · exact h.goOn fun _ => hund
    · exact h
  | fails i => exact .inl (h.goOn hund)

theorem good_step (h : s.Inv keys ∧ s.Kept) {e : Event} (hund : s.Undisturbed e) :
    (s.step keys e).Inv keys ∧ (s.step keys e).Kept := by
  have hact := h.1.act hund
  refine ⟨⟨hact.tasks, hact.running⟩, fun howed => ?_⟩
  have howed' : ((s.act keys e).owed && !(s.act keys e).gone) = true := howed
  rw [Bool.and_eq_true, Bool.not_eq_true'] at howed'
  rcases h.2.act h.1 hund with hkept | hgone
  · exact hkept howed'.1
  · rw [howed'.2] at hgone
    cases hgone

/-! ### What a step leaves alone -/

@[simp] theorem goOn_stored (s : Phone) (i : Nat) (next : Option Task) :
    (s.goOn i next).stored = s.stored := by cases next <;> rfl

@[simp] theorem goOn_slot (s : Phone) (i : Nat) (next : Option Task) :
    (s.goOn i next).slot = s.slot := by cases next <;> rfl

/-- A record that a step removes was found by its name, and the firmware does not run on the
testnet. -/
theorem Inv.stored_step (h : s.Inv keys) {r : Stored} (hr : r ∈ s.stored) (e : Event) :
    r ∈ (s.step keys e).stored ∨ testKeys (r.name keys) = true ∧ s.folder ≠ some .test ∧
      ∃ i, e = .next i ∧ ∃ task ∈ s.tasks[i]?, ∀ r ∈ s.stored, s.Ready task → r.WellFiled := by
  cases e with
  | launch | reload | start | answered | schedule | clear => exact .inl hr
  | write kind =>
    refine .inl ?_
    show r ∈ (s.write kind).stored
    unfold Phone.write
    split
    · exact List.mem_append_left _ hr
    · exact hr
  | next i =>
    show r ∈ (Phone.act keys s (.next i)).stored ∨ _
    simp only [Phone.act]
    split
    · rename_i task hi
      cases task with
      | removing scheduled name rest =>
        -- a record goes only where its own name is removed
        by_cases hname : r.name keys = name
        · obtain ⟨haway, -, hnames⟩ := h.tasks _ (List.mem_of_getElem? hi)
          refine .inr ⟨?_, haway, i, rfl, _, hi, fun r hr hready => hready r hr⟩
          rw [hname]
          exact hnames name List.mem_cons_self
        · refine .inl ?_
          show r ∈ (Phone.goOn _ i _).stored
          rw [goOn_stored]
          exact List.mem_filter.mpr ⟨hr, decide_eq_true hname⟩
      | deleting scheduled =>
        refine .inl ?_
        show r ∈ (if s.folder = some .test then _ else _ : Phone).stored
        split <;> simpa using hr
      | reading | unmarking | listing => exact .inl (by simpa [Phone.carriedOut] using hr)
      | marking | restarting => exact .inl hr
    · exact .inl hr
  | undeleted i =>
    refine .inl ?_
    show r ∈ (s.undeleted i).stored
    unfold Phone.undeleted
    split
    · split
      · simpa using hr
      · simpa using hr
    · exact hr
  | fails i => exact .inl hr

/-- The slot that the firmware runs on is not deleted. -/
theorem slot_step (hfolder : s.folder = some .test) (hslot : s.slot = true) (e : Event) :
    (s.step keys e).slot = true := by
  -- the slot's folder is made by a start and deleted only by a clear
  cases e with
  | launch | reload | answered | schedule | clear => exact hslot
  | start net ok =>
    show (s.slot || _) = true
    rw [hslot]
    rfl
  | write kind =>
    show (s.write kind).slot = true
    unfold Phone.write
    split <;> exact hslot
  | next i =>
    show (Phone.act keys s (.next i)).slot = true
    simp only [Phone.act]
    split
    · rename_i task hi
      cases task with
      | deleting scheduled =>
        show (if s.folder = some .test then _ else _ : Phone).slot = true
        rw [if_pos hfolder]
        exact hslot
      | reading | unmarking | listing | removing => simpa [Phone.carriedOut] using hslot
      | marking | restarting => exact hslot
    · exact hslot
  | undeleted i =>
    show (s.undeleted i).slot = true
    unfold Phone.undeleted
    split
    · split
      · simpa using hslot
      · simpa using hslot
    · exact hslot
  | fails i => exact hslot

end

/-! ### The next launch -/

section

variable {s : Phone}

/-- So often the first call's await is over. -/
def awaits (n : Nat) : List Event := List.replicate n (.next 0)

/-- The names are removed one after another. -/
theorem removing_run {name : List Char} {rest : List (List Char)}
    (htasks : s.tasks = [.removing true name rest]) :
    ∃ s', (awaits (rest.length + 1)).foldl (step keys) s = s' ∧ s'.slot = s.slot ∧
      s'.folder = s.folder ∧ s'.scheduled = s.scheduled ∧
        ∀ r ∈ s'.stored, r ∈ s.stored ∧ r.name keys ∉ name :: rest := by
  -- name by name; a record is left if its name is none of them
  induction rest generalizing s name with
  | nil =>
    have hstep : s.step keys (.next 0) = ({ s with
        stored := s.stored.filter fun r => decide (r.name keys ≠ name)
        tasks := [] } : Phone).settle := by
      simp [step, act, htasks, carriedOut, removeFrom, goOn]
    refine ⟨s.step keys (.next 0), rfl, ?_⟩
    rw [hstep]
    refine ⟨rfl, rfl, rfl, fun r hr => ?_⟩
    obtain ⟨hmem, hne⟩ := List.mem_filter.mp hr
    exact ⟨hmem, by simpa using hne⟩
  | cons next rest ih =>
    have hstep : s.step keys (.next 0) = ({ s with
        stored := s.stored.filter fun r => decide (r.name keys ≠ name)
        tasks := [.removing true next rest] } : Phone).settle := by
      simp [step, act, htasks, carriedOut, removeFrom, goOn]
    have hnext : (s.step keys (.next 0)).tasks = [.removing true next rest] := by
      rw [hstep]
      rfl
    obtain ⟨s', hrun, hslot, hfolder, hmark, hstored⟩ := ih hnext
    rw [hstep] at hslot hfolder hmark
    refine ⟨s', hrun, hslot, hfolder, hmark, fun r hr => ?_⟩
    obtain ⟨hmem, hrest⟩ := hstored r hr
    rw [hstep] at hmem
    obtain ⟨hmem, hne⟩ := List.mem_filter.mp hmem
    refine ⟨hmem, fun hin => ?_⟩
    rcases List.mem_cons.mp hin with heq | hin
    · exact of_decide_eq_true hne heq
    · exact hrest hin

/-- How many records a clear finds. -/
def found (keys : FeatureKeys) (s : Phone) : List (List Char) :=
  (s.stored.map (·.name keys)).filter testKeys

/-- A launch whose clear is at one of its awaits, with the mark and the records that are left. -/
structure Launched (stored : List Stored) (task : Task) (mark : Bool) (s : Phone) : Prop where
  tasks : s.tasks = [task]
  current : s.current = .live
  folder : s.folder = none
  mark : s.scheduled = mark
  stored : s.stored = stored

theorem Launched.reads {stored : List Stored} (h : s.Launched stored .reading true) :
    (s.step keys (.next 0)).Launched stored .unmarking true := by
  obtain ⟨htasks, hcurrent, hfolder, hmark, hstored⟩ := h
  have hstep : s.step keys (.next 0) = (s.goOn 0 (some .unmarking)).settle := by
    simp [step, act, htasks, carriedOut, hmark, hfolder]
  rw [hstep]
  exact ⟨by simp [settle, goOn, htasks], hcurrent, hfolder, hmark, hstored⟩

theorem Launched.unmarks {stored : List Stored} (h : s.Launched stored .unmarking true) :
    (s.step keys (.next 0)).Launched stored (.deleting true) false := by
  obtain ⟨htasks, hcurrent, hfolder, hmark, hstored⟩ := h
  have hstep : s.step keys (.next 0) =
      ({ s with scheduled := false }.goOn 0 (some (.deleting true))).settle := by
    simp [step, act, htasks, carriedOut, clearTestnet, hcurrent]
  rw [hstep]
  exact ⟨by simp [settle, goOn, htasks], hcurrent, hfolder, rfl, hstored⟩

theorem Launched.deletes {stored : List Stored} (h : s.Launched stored (.deleting true) false) :
    (s.step keys (.next 0)).Launched stored (.listing true) false ∧
      (s.step keys (.next 0)).slot = false := by
  obtain ⟨htasks, hcurrent, hfolder, hmark, hstored⟩ := h
  have hstep : s.step keys (.next 0) =
      ({ s with slot := false }.goOn 0 (some (.listing true))).settle := by
    simp [step, act, htasks, carriedOut, hfolder]
  rw [hstep]
  exact ⟨⟨by simp [settle, goOn, htasks], hcurrent, hfolder, hmark, hstored⟩, rfl⟩

/-- A launch that nothing interrupts does the clear. -/
theorem launch_clears (hmark : s.scheduled = true) (hfiled : ∀ r ∈ s.stored, r.WellFiled) :
    ∃ s', (.launch :: awaits (4 + (s.found keys).length)).foldl (step keys) s = s' ∧
      s'.gone = true ∧ s'.folder = none ∧ s'.scheduled = false := by
  have hlaunch : (s.step keys .launch).Launched s.stored .reading true :=
    ⟨rfl, rfl, rfl, hmark, rfl⟩
  have hdeleting : ((s.step keys .launch |>.step keys (.next 0)).step keys (.next 0)).Launched
      s.stored (.deleting true) false := hlaunch.reads.unmarks
  obtain ⟨hlisting, hslot⟩ : (((s.step keys .launch |>.step keys (.next 0)).step keys
      (.next 0)).step keys (.next 0)).Launched s.stored (.listing true) false ∧ _ :=
    hdeleting.deletes
  generalize hs₁ : step keys (step keys (step keys (s.step keys .launch) (.next 0)) (.next 0))
    (.next 0) = s₁ at hlisting hslot
  obtain ⟨htasks, -, hfolder, hmark₁, hstored⟩ := hlisting
  have hrun : (.launch :: awaits (4 + (s.found keys).length)).foldl (step keys) s =
      (awaits (s.found keys).length).foldl (step keys) (s₁.step keys (.next 0)) := by
    rw [List.foldl_cons, awaits, ← List.replicate_append_replicate, List.foldl_append, ← hs₁]
    rfl
  have hstep : s₁.step keys (.next 0) = (s₁.goOn 0 (removeFrom true (s.found keys))).settle := by
    simp [step, act, htasks, carriedOut, found, hstored]
  -- what is not found for removing is the live net's
  have hgone : ∀ r ∈ s.stored, r.name keys ∉ s.found keys → r.owner = .live := by
    intro r hr hnot
    cases howner : r.owner with
    | live => rfl
    | test =>
      have hfound : ({ s with slot := false }).Gone keys (s.found keys) := gone_of_found rfl hfiled
      exact absurd (hfound.2 r hr howner) hnot
  rw [hrun, hstep]
  -- with nothing to remove it is over at once
  cases hfound : s.found keys with
  | nil =>
    refine ⟨_, rfl, gone_eq_true.mpr ⟨hslot, fun r hr => ?_⟩, hfolder, hmark₁⟩
    have hr' : r ∈ s₁.stored := hr
    rw [hstored] at hr'
    exact hgone r hr' (hfound ▸ List.not_mem_nil)
  | cons name rest =>
    have hremoving : (s₁.goOn 0 (removeFrom true (name :: rest))).settle.tasks =
        [.removing true name rest] := by simp [settle, goOn, removeFrom, htasks]
    obtain ⟨s', hfinal, hslot', hfolder', hmark', hstored'⟩ := removing_run hremoving
    refine ⟨s', hfinal, gone_eq_true.mpr ⟨hslot'.trans hslot, fun r hr => ?_⟩,
      hfolder'.trans hfolder, hmark'.trans hmark₁⟩
    obtain ⟨hr', hnot⟩ := hstored' r hr
    have hr'' : r ∈ s₁.stored := hr'
    rw [hstored] at hr''
    exact hgone r hr'' (hfound ▸ hnot)

end

/-! ### Every run -/

theorem good_first (stored : List Stored) (slot : Bool) :
    (first stored slot).Inv keys ∧ (first stored slot).Kept :=
  ⟨⟨fun _ hmem => absurd hmem List.not_mem_nil, nofun⟩, nofun⟩

/-- Whatever is stored and wherever the process ends or a call fails, as long as no scheduled clear
is interrupted once its mark is gone: a clear that was scheduled is done, under way or still
scheduled; no record of the live key is removed; nothing of the testnet's is while the firmware
runs on it; and the next launch that is not interrupted does what is still scheduled. -/
theorem scheduled_clear_is_not_lost (stored : List Stored) (slot : Bool) (es : List Event)
    (h : AllAlong (step keys) Undisturbed (first stored slot) es) :
    (es.foldl (step keys) (first stored slot)).Kept ∧
      (∀ p e, p ++ [e] <+: es →
        let s := p.foldl (step keys) (first stored slot)
        (∀ r ∈ s.stored, r.owner = .live → r ∈ (s.step keys e).stored) ∧
          (s.folder = some .test → s.slot = true ∧ (s.step keys e).slot = true ∧
            ∀ r ∈ s.stored, r ∈ (s.step keys e).stored)) ∧
      ∀ s, s = es.foldl (step keys) (first stored slot) → s.scheduled = true →
        (∀ r ∈ s.stored, r.WellFiled) →
          ∃ s', (.launch :: awaits (4 + (s.found keys).length)).foldl (step keys) s = s' ∧
            s'.gone = true ∧ s'.folder = none ∧ s'.scheduled = false := by
  have hgood := h.keeps (good_first stored slot) fun s e hs he => good_step hs he
  refine ⟨hgood.2, fun p e hp => ?_, fun s _ hmark hfiled => launch_clears hmark hfiled⟩
  obtain ⟨⟨hinv, -⟩, hund⟩ :=
    h.before (good_first stored slot) (fun s e hs he => good_step hs he) hp
  refine ⟨fun r hr hlive => ?_, fun hfolder => ?_⟩
  · rcases hinv.stored_step hr e with hkept | ⟨hfound, -, i, rfl, task, hi, hready⟩
    · exact hkept
    · have hfiled : r.WellFiled := hready r hr (hund task hi)
      rw [hfiled.found, hlive] at hfound
      cases hfound
  · refine ⟨hinv.running hfolder, slot_step hfolder (hinv.running hfolder) e, fun r hr => ?_⟩
    rcases hinv.stored_step hr e with hkept | ⟨-, haway, -⟩
    · exact hkept
    · exact absurd hfolder haway

/-- The names of the features' records. -/
def bookKeys : FeatureKeys := ⟨"okrn.guestbook:v1", "okrn.cryptobox:v1", by decide⟩

/-- A Guest Book on either net, and the testnet's clear done at the next launch. -/
def clearedRun : List Event :=
  [.start .test true, .answered, .write (.feature .guestBook), .schedule, .next 0, .launch] ++
    awaits 5

theorem scheduled_clear_is_not_lost_done :
    (clearedRun.foldl (step bookKeys) (first [⟨.live, .live, .feature .guestBook⟩] false)).Kept :=
  (scheduled_clear_is_not_lost [⟨.live, .live, .feature .guestBook⟩] false clearedRun (by decide)).1

/-- The process ends when the mark is gone and the slot is not. -/
def killedRun : List Event :=
  [.start .test true, .answered, .schedule, .next 0, .launch] ++ awaits 2 ++ [.launch]

/-- The password store of the testnet's key. -/
def testStore : StoreId where
  id := ['a', '0']
  hex := by simp

/-- The testnet's key has a password store. -/
def storesRun : List Event :=
  [.start .test true, .answered, .write (.password testStore "meta".toList),
    .schedule, .next 0, .launch] ++ awaits 4

/-- A kill once the mark is gone loses the clear, and so does a password store. -/
theorem scheduled_clear_is_lost :
    ¬ (killedRun.foldl (step bookKeys) (first [] false)).Kept ∧
      ¬ (storesRun.foldl (step bookKeys) (first [] false)).Kept := by
  unfold Kept
  decide

end Phone

end OkRn.Testnet
