/-
OkRn/KeyChain/Lasting.lean

What the Key Chain list remembers.

The screen writes a whole list that it took before its awaits, so it takes back what
the recorder wrote in between.  While every write is over the list it was computed
from, the stored list is the changes one after the other (`changes_last`): what was
recorded stays until it is removed, and what was removed or renamed does not come
back.

* `Chain.OverItsList` is the order of events: a list is written over the one it was
  computed from;
* `Lasts` is what is to last of the changes, and `lasts_replay` that it does when they are
  carried out one after another.

Main results: `changes_last`, and `save_loses_a_derive`.
-/
import OkRn.KeyChain.Recorder
import OkRn.Lib.Along

namespace OkRn.KeyChain

variable {Raw : Type} (L : ListLib Raw)

/-- An entry of the list is for the same identity. -/
def Stands (entries : List Entry) (e : Entry) : Prop :=
  ∃ x ∈ entries, x.id = e.id ∨ L.twin e x = true

/-- What the list's code relies on of the library. -/
structure ListLib.Lawful : Prop where
  parse_serialize : ∀ entries, L.parse (L.serialize entries) = some entries
  findTwin_twin : ∀ entries e i, L.findTwin entries e = some i →
    ∃ x ∈ entries[i]?, L.twin e x = true
  twin_seenAgain : ∀ r e' now e x, L.twin e x = true → L.twin e (seenAgain r e' now x) = true
  merge_keeps : ∀ entries made e, Stands L entries e → Stands L (L.merge entries made).entries e
  merge_adds : ∀ entries made, ∀ e ∈ made, Stands L (L.merge entries made).entries e
  merge_nothing : ∀ entries made, (L.merge entries made).added = 0 →
    (L.merge entries made).paired = 0 → (L.merge entries made).joined = 0 →
      ∀ e ∈ made, Stands L entries e
  merge_ids : ∀ entries made, ∀ x ∈ (L.merge entries made).entries,
    ∃ y ∈ entries ++ made, y.id = x.id
  merge_names : ∀ entries made, ∀ x ∈ (L.merge entries made).entries,
    ∃ y ∈ entries ++ made, y.key = x.key ∧ y.label = x.label

/-! ### What a change records and takes away -/

namespace Change

/-- The entries that a change records. -/
def records : Change → List Entry
  | .derive r now => (deriveEntry L r now).toList
  | .named scheme label type publicKey tool now =>
      [namedEntry L scheme label type publicKey tool now]
  | .merge made => made
  | .remove _ => []
  | .composite _ made => [made]

/-- The entries that a change takes out of a list. -/
def drops : Change → Entry → Bool
  | .remove gone, x => gone.contains x.id
  | .composite slot _, x => inSlot slot x
  | _, _ => false

/-- The change takes an entry of the identity. -/
def Takes (c : Change) (entries : List Entry) (e : Entry) : Prop :=
  ∃ x ∈ entries, (x.id = e.id ∨ L.twin e x = true) ∧ c.drops x = true

end Change

section

variable {L}

/-- What stands in a list stands in a longer one. -/
theorem stands_append {entries more : List Entry} {e : Entry} (h : Stands L entries e) :
    Stands L (entries ++ more) e := by
  obtain ⟨x, hx, hsame⟩ := h
  exact ⟨x, List.mem_append_left more hx, hsame⟩

/-- An entry of a list with one changed. -/
theorem mem_modify {entries : List Entry} {i : Nat} {f : Entry → Entry} {x : Entry}
    (h : x ∈ entries.modify i f) : ∃ y ∈ entries, x = y ∨ x = f y := by
  obtain ⟨j, hj⟩ := List.mem_iff_getElem?.mp h
  rw [List.getElem?_modify] at hj
  obtain ⟨y, hy, hxy⟩ := Option.map_eq_some_iff.mp hj
  refine ⟨y, List.mem_of_getElem? hy, ?_⟩
  split at hxy
  · exact .inr hxy.symm
  · exact .inl hxy.symm

/-- The entries that were there, changed or not. -/
theorem mem_modify_of_mem {entries : List Entry} (i : Nat) (f : Entry → Entry) {y : Entry}
    (h : y ∈ entries) : y ∈ entries.modify i f ∨ f y ∈ entries.modify i f := by
  obtain ⟨j, hj⟩ := List.mem_iff_getElem?.mp h
  have hget := List.getElem?_modify f i entries j
  rw [hj] at hget
  by_cases hij : i = j
  · have hhere : (entries.modify i f)[j]? = some (f y) := by rw [hget]; simp [hij]
    exact .inr (List.mem_of_getElem? hhere)
  · have hother : (entries.modify i f)[j]? = some y := by rw [hget]; simp [hij]
    exact .inl (List.mem_of_getElem? hother)

/-- The place that was found is one of the list. -/
theorem mem_of_findIdx? {entries : List Entry} {p : Entry → Bool} {i : Nat}
    (h : entries.findIdx? p = some i) : ∃ x ∈ entries, p x = true := by
  obtain ⟨hi, hp, -⟩ := List.findIdx?_eq_some_iff_getElem.mp h
  exact ⟨_, List.getElem_mem hi, hp⟩

/-- What stands stays when an entry is seen again. -/
theorem stands_modify (hL : L.Lawful) {entries : List Entry} {e : Entry} (h : Stands L entries e)
    (i : Nat) (r : DeriveRecord) (e' : Entry) (now : String) :
    Stands L (entries.modify i (seenAgain r e' now)) e := by
  obtain ⟨x, hx, hsame⟩ := h
  rcases mem_modify_of_mem i (seenAgain r e' now) hx with hmem | hmem
  · exact ⟨x, hmem, hsame⟩
  · exact ⟨_, hmem, hsame.imp id (hL.twin_seenAgain r e' now e x)⟩

/-- What a change does not take still stands after it. -/
theorem stands_apply (hL : L.Lawful) {entries : List Entry} {e : Entry} (h : Stands L entries e)
    {c : Change} (hc : ¬ c.Takes L entries e) : Stands L (c.apply L entries) e := by
  have hfilter : Stands L (entries.filter fun x => !c.drops x) e := by
    obtain ⟨x, hx, hsame⟩ := h
    refine ⟨x, List.mem_filter.mpr ⟨hx, ?_⟩, hsame⟩
    rw [Bool.not_eq_true', ← Bool.not_eq_true]
    exact fun hdrops => hc ⟨x, hx, hsame, hdrops⟩
  cases c with
  | derive r now =>
    simp only [Change.apply, Change.next]
    cases deriveEntry L r now with
    | none => exact h
    | some e' =>
      simp only [Option.map_some, Option.getD_some, recordIn]
      split
      · exact stands_modify hL h _ r e' now
      · exact stands_append h
  | named scheme label type publicKey tool now =>
    simp only [Change.apply, Change.next]
    split
    · exact h
    · exact hL.merge_keeps _ _ e h
  | merge made => exact hL.merge_keeps _ _ e h
  | remove gone => exact hfilter
  | composite slot made => exact hL.merge_keeps _ _ e hfilter

/-- What a change records stands after it. -/
theorem stands_of_records (hL : L.Lawful) (entries : List Entry) {c : Change} {e : Entry}
    (h : e ∈ c.records L) : Stands L (c.apply L entries) e := by
  cases c with
  | derive r now =>
    simp only [Change.records, Option.mem_toList] at h
    simp only [Change.apply, Change.next, h, Option.map_some, Option.getD_some, recordIn]
    split
    · rename_i i hi
      -- the entry that was there, by its id or as a twin
      refine stands_modify hL ?_ i r e now
      rcases Option.or_eq_some_iff.mp hi with hi | ⟨-, hi⟩
      · obtain ⟨x, hx, hid⟩ := mem_of_findIdx? hi
        exact ⟨x, hx, .inl (by simpa using hid)⟩
      · obtain ⟨x, hx, htwin⟩ := hL.findTwin_twin entries e i hi
        exact ⟨x, List.mem_of_getElem? hx, .inr htwin⟩
    · exact ⟨e, List.mem_append_right entries List.mem_cons_self, .inl rfl⟩
  | named scheme label type publicKey tool now =>
    simp only [Change.apply, Change.next]
    split
    · rename_i hnone
      exact hL.merge_nothing _ _ hnone.1 hnone.2.1 hnone.2.2 e h
    · exact hL.merge_adds _ _ e h
  | merge made => exact hL.merge_adds _ _ e h
  | remove gone => cases h
  | composite slot made => exact hL.merge_adds _ _ e h

/-- A change brings nothing but what it records. -/
theorem mem_apply {α : Type} {f : Entry → α}
    (hmerge : ∀ entries made, ∀ x ∈ (L.merge entries made).entries,
      ∃ y ∈ entries ++ made, f y = f x)
    (hseen : ∀ r e now x, f (seenAgain r e now x) = f x) (c : Change) (entries : List Entry)
    {x : Entry} (hx : x ∈ c.apply L entries) : ∃ y ∈ entries ++ c.records L, f y = f x := by
  have hfilter {p : Entry → Bool} {made : List Entry} {y : Entry}
      (hy : y ∈ entries.filter p ++ made) : y ∈ entries ++ made := by
    rcases List.mem_append.mp hy with hy | hy
    · exact List.mem_append_left _ (List.mem_filter.mp hy).1
    · exact List.mem_append_right _ hy
  -- no change takes a key away: an entry is changed in its place, or added
  cases c with
  | derive r now =>
    simp only [Change.apply, Change.next] at hx
    simp only [Change.records]
    cases hentry : deriveEntry L r now with
    | none =>
      rw [hentry] at hx
      exact ⟨x, List.mem_append_left _ hx, rfl⟩
    | some e =>
      simp only [hentry, Option.map_some, Option.getD_some, recordIn] at hx
      split at hx
      · obtain ⟨y, hy, rfl | rfl⟩ := mem_modify hx
        · exact ⟨x, List.mem_append_left _ hy, rfl⟩
        · exact ⟨y, List.mem_append_left _ hy, (hseen r e now y).symm⟩
      · exact ⟨x, by simpa using hx, rfl⟩
  | named scheme label type publicKey tool now =>
    simp only [Change.apply, Change.next] at hx
    split at hx
    · exact ⟨x, List.mem_append_left _ hx, rfl⟩
    · exact hmerge _ _ x hx
  | merge made => exact hmerge _ _ x hx
  | remove gone =>
    exact ⟨x, List.mem_append_left _ (List.mem_filter.mp hx).1, rfl⟩
  | composite slot made =>
    obtain ⟨y, hy, hsame⟩ := hmerge _ _ x hx
    exact ⟨y, hfilter hy, hsame⟩

end

/-! ### One change after the other -/

/-- The changes, one after the other. -/
def replay (start : List Entry) (cs : List Change) : List Entry :=
  cs.foldl (fun entries c => c.apply L entries) start

section

variable {L} (start : List Entry)

theorem replay_append (cs ds : List Change) :
    replay L start (cs ++ ds) = replay L (replay L start cs) ds := List.foldl_append

/-- What stands goes on standing until a change takes it. -/
theorem stands_replay (hL : L.Lawful) {entries : List Entry} {e : Entry}
    (h : Stands L entries e) (cs : List Change)
    (hcs : ∀ mid d rest, cs = mid ++ d :: rest → ¬ d.Takes L (replay L entries mid) e) :
    Stands L (replay L entries cs) e := by
  induction cs generalizing entries with
  | nil => exact h
  | cons c cs ih =>
    refine ih (stands_apply hL h (hcs [] c cs rfl)) fun mid d rest heq => ?_
    exact hcs (c :: mid) d rest (by rw [heq]; rfl)

/-- What is not there stays away until a change records it. -/
theorem absent_replay {α : Type} {f : Entry → α}
    (hmerge : ∀ entries made, ∀ x ∈ (L.merge entries made).entries,
      ∃ y ∈ entries ++ made, f y = f x)
    (hseen : ∀ r e now x, f (seenAgain r e now x) = f x) {entries : List Entry} {a : α}
    (h : ∀ x ∈ entries, f x ≠ a) (cs : List Change)
    (hcs : ∀ c ∈ cs, ∀ x ∈ c.records L, f x ≠ a) : ∀ x ∈ replay L entries cs, f x ≠ a := by
  induction cs generalizing entries with
  | nil => exact h
  | cons c cs ih =>
    refine ih (fun x hx => ?_) fun d hd => hcs d (List.mem_cons_of_mem c hd)
    obtain ⟨y, hy, hsame⟩ := mem_apply hmerge hseen c entries hx
    rw [← hsame]
    rcases List.mem_append.mp hy with hy | hy
    · exact h y hy
    · exact hcs c List.mem_cons_self y hy

end

/-! ### Runs -/

namespace Chain

/-- A write is over the list that it was computed from. -/
def OverItsList (k : Chain Raw) : Event → Prop
  | .recorderWrites => ∀ raw ∈ k.read, raw = k.raw
  | .lands i => ∀ s ∈ k.saves[i]?, listOf L k.raw = some s.base
  | _ => True

instance [DecidableEq Raw] (k : Chain Raw) (e : Event) : Decidable (k.OverItsList L e) := by
  cases e <;> unfold OverItsList <;> infer_instance

/-- The phone has a list, or none, and nothing is under way. -/
def begin (start : Option (List Entry)) : Chain Raw := { raw := start.map L.serialize }

/-- The stored list is the changes that were carried out; a save writes what its change makes of the
list it took. -/
structure Inv (start : List Entry) (k : Chain Raw) : Prop where
  stored : listOf L k.raw = some (replay L start k.done)
  next : ∀ s ∈ k.saves, ∀ next ∈ s.next, next = s.change.apply L s.base

variable {L} {start : List Entry} {k : Chain Raw}

/-- The stored list is what matters. -/
theorem Inv.of_raw (h : Inv L start k) {k' : Chain Raw} (hraw : k'.raw = k.raw)
    (hdone : k'.done = k.done) (hsaves : ∀ s ∈ k'.saves, ∀ next ∈ s.next,
      next = s.change.apply L s.base) : Inv L start k' :=
  ⟨by rw [hraw, hdone]; exact h.stored, hsaves⟩

/-- A write of a change over the list that is stored. -/
theorem Inv.written (hL : L.Lawful) (h : Inv L start k) {k' : Chain Raw} (c : Change)
    {base : List Entry} (hbase : listOf L k.raw = some base)
    (hraw : k'.raw = some (L.serialize (c.apply L base))) (hdone : k'.done = k.done ++ [c])
    (hsaves : ∀ s ∈ k'.saves, ∀ next ∈ s.next, next = s.change.apply L s.base) :
    Inv L start k' := by
  refine ⟨?_, hsaves⟩
  obtain rfl := Option.some.inj (h.stored.symm.trans hbase)
  rw [hraw, hdone, replay_append]
  exact hL.parse_serialize _

/-- The recorder's write keeps it. -/
theorem Inv.recorderWrites (hL : L.Lawful) (h : Inv L start k)
    (hcond : ∀ raw ∈ k.read, raw = k.raw) : Inv L start (k.recorderWrites L) := by
  unfold Chain.recorderWrites
  split
  · rename_i c rest raw hqueue hread
    obtain rfl := hcond raw hread
    split
    · exact h.of_raw rfl rfl h.next
    · rename_i entries hentries
      split
      · rename_i hnone
        -- nothing is written where nothing changes
        refine ⟨?_, h.next⟩
        show listOf L k.raw = some (replay L start (k.done ++ [c]))
        have heq := Option.some.inj (h.stored.symm.trans hentries)
        rw [replay_append, h.stored, heq]
        simp [replay, Change.apply, hnone]
      · rename_i next hnext
        have happly : next = c.apply L entries := by rw [Change.apply, hnext]; rfl
        subst happly
        unfold tell
        split
        · exact h.written hL c hentries rfl rfl h.next
        · exact h.written hL c hentries rfl rfl h.next
  · exact h

theorem Inv.step (hL : L.Lawful) (h : Inv L start k) {e : Event} (hcond : k.OverItsList L e) :
    Inv L start (k.step L e) := by
  -- only the writes at the end of a call change the stored list
  cases e with
  | record c => exact h.of_raw rfl rfl h.next
  | recorderReads =>
    simp only [Chain.step]
    split
    · exact h.of_raw rfl rfl h.next
    · exact h
  | recorderWrites => exact h.recorderWrites hL hcond
  | recorderFails => exact h.of_raw rfl rfl h.next
  | mount => exact h.of_raw rfl rfl h.next
  | unmount => exact h.of_raw rfl rfl h.next
  | render => exact h.of_raw rfl rfl h.next
  | screenReads i =>
    simp only [Chain.step]
    split
    · exact h.of_raw rfl rfl h.next
    · exact h
  | screenGets i =>
    simp only [Chain.step]
    split
    · exact h.of_raw rfl rfl h.next
    · exact h
  | ask c =>
    refine h.of_raw rfl rfl fun s hs next hnext => ?_
    rcases List.mem_append.mp hs with hs | hs
    · exact h.next s hs next hnext
    · obtain rfl := List.mem_singleton.mp hs
      cases hnext
  | compute i =>
    simp only [Chain.step]
    split
    · rename_i s hget
      split
      · exact h
      · -- the save is computed from the action's own copy of the list
        refine h.of_raw rfl rfl fun t ht next hnext => ?_
        rcases List.mem_or_eq_of_mem_set ht with ht | rfl
        · exact h.next t ht next hnext
        · exact (Option.some.inj hnext).symm
    · exact h
  | lands i =>
    simp only [Chain.step]
    split
    · rename_i s hget
      split
      · rename_i next hnext
        have happly := h.next s (List.mem_of_getElem? hget) next hnext
        subst happly
        exact h.written hL s.change (hcond s hget) rfl rfl fun t ht =>
          h.next t (List.mem_of_mem_eraseIdx ht)
      · exact h
    · exact h
  | fails i => exact h.of_raw rfl rfl fun t ht => h.next t (List.mem_of_mem_eraseIdx ht)

end Chain

variable {L}

/-- The changes are carried out one after another. -/
theorem changes_are_serial (hL : L.Lawful) (start : Option (List Entry)) (history : List Event)
    (hhistory : AllAlong (Chain.step L) (Chain.OverItsList L) (Chain.begin L start) history) :
    Chain.Inv L (start.getD []) (history.foldl (Chain.step L) (Chain.begin L start)) := by
  have hfirst : Chain.Inv L (start.getD []) (Chain.begin L start) := by
    refine ⟨?_, fun s hs => by cases hs⟩
    cases start with
    | none => rfl
    | some entries => exact hL.parse_serialize entries
  exact hhistory.keeps hfirst fun k e hk he => hk.step hL he

variable (L) in
/-- What a change recorded stands until another takes it, and an entry or a name that was gone after
a change is there only if a later one recorded it. -/
structure Lasts (start : List Entry) (done : List Change) (entries : List Entry) : Prop where
  recorded : ∀ before c after e, done = before ++ c :: after → e ∈ c.records L →
    (∀ mid d rest, after = mid ++ d :: rest →
      ¬ d.Takes L (replay L start (before ++ c :: mid)) e) → Stands L entries e
  gone : ∀ before after id, done = before ++ after →
    (∀ x ∈ replay L start before, x.id ≠ id) → (∀ c ∈ after, ∀ x ∈ c.records L, x.id ≠ id) →
      ∀ x ∈ entries, x.id ≠ id
  renamed : ∀ before after name, done = before ++ after →
    (∀ x ∈ replay L start before, (x.key, x.label) ≠ name) →
      (∀ c ∈ after, ∀ x ∈ c.records L, (x.key, x.label) ≠ name) →
        ∀ x ∈ entries, (x.key, x.label) ≠ name

/-- Changes one after another last. -/
theorem lasts_replay (hL : L.Lawful) (start : List Entry) (done : List Change) :
    Lasts L start done (replay L start done) where
  recorded := by
    rintro before c after e rfl he hfree
    have hstands := stands_of_records hL (replay L start before) he
    rw [replay_append]
    refine stands_replay hL hstands after fun mid d rest heq => ?_
    have htaken := hfree mid d rest heq
    rwa [replay_append] at htaken
  gone := by
    rintro before after id rfl habsent hnone
    rw [replay_append]
    exact absent_replay hL.merge_ids (fun _ _ _ _ => rfl) habsent after hnone
  renamed := by
    rintro before after name rfl habsent hnone
    rw [replay_append]
    refine absent_replay (fun entries made x hx => ?_) (fun _ _ _ _ => rfl) habsent after hnone
    obtain ⟨y, hy, hkey, hlabel⟩ := hL.merge_names entries made x hx
    exact ⟨y, hy, by rw [hkey, hlabel]⟩

/-- Where every write is over the list it was computed from, the stored list is the changes that
were carried out, one after the other, and none is lost or undone. -/
theorem changes_last (hL : L.Lawful) (start : Option (List Entry)) (history : List Event)
    (hhistory : AllAlong (Chain.step L) (Chain.OverItsList L) (Chain.begin L start) history) :
    ∃ entries, listOf L (history.foldl (Chain.step L) (Chain.begin L start)).raw = some entries ∧
      entries = replay L (start.getD [])
        (history.foldl (Chain.step L) (Chain.begin L start)).done ∧
      Lasts L (start.getD []) (history.foldl (Chain.step L) (Chain.begin L start)).done entries := by
  obtain ⟨hstored, -⟩ := changes_are_serial hL start history hhistory
  exact ⟨_, hstored, rfl, lasts_replay hL _ _⟩

/-! ### A list of two writers -/

/-- A library for lists without names: an entry that stands in a list is not added again. -/
def plainLib : ListLib (List Entry) where
  parse := some
  serialize := id
  createEntry f :=
    { id := f.label, label := f.label, type := f.type, publicKey := f.publicKey
      rpIdHash := f.rpIdHash, rpId := f.rpId, lastSeen := f.lastSeen, tools := f.tools }
  twin e x := x.key == e.key && x.label != e.label
  findTwin entries e := entries.findIdx? fun x => x.key == e.key && x.label != e.label
  merge entries made :=
    let new := made.filter fun e =>
      !entries.any fun x => x.id == e.id || (x.key == e.key && x.label != e.label)
    ⟨entries ++ new, new.length, 0, 0⟩
  rpIds _ := none

/-- A library for tests that is as the real one. -/
theorem plainLib_lawful : plainLib.Lawful where
  parse_serialize _ := rfl
  findTwin_twin _ _ _ h := by
    obtain ⟨hi, htwin, -⟩ := List.findIdx?_eq_some_iff_getElem.mp h
    exact ⟨_, List.getElem?_eq_getElem hi, htwin⟩
  twin_seenAgain _ _ _ _ _ h := h
  merge_keeps _ _ _ h := stands_append h
  merge_adds entries made e he := by
    -- an entry that is there already, by its id or its key, is not added again
    by_cases h : (entries.any fun x =>
        x.id == e.id || (x.key == e.key && x.label != e.label)) = true
    · obtain ⟨x, hx, hsame⟩ := List.any_eq_true.mp h
      refine ⟨x, List.mem_append_left _ hx, ?_⟩
      simpa [plainLib] using hsame
    · exact ⟨e, List.mem_append_right _ (List.mem_filter.mpr ⟨he, by simpa using h⟩), .inl rfl⟩
  merge_nothing entries made h _ _ e he := by
    have hnone := List.filter_eq_nil_iff.mp (List.eq_nil_of_length_eq_zero h) e he
    by_cases hany : (entries.any fun x =>
        x.id == e.id || (x.key == e.key && x.label != e.label)) = true
    · obtain ⟨x, hx, hsame⟩ := List.any_eq_true.mp hany
      refine ⟨x, hx, ?_⟩
      simpa [plainLib] using hsame
    · exact absurd (by simpa using hany) hnone
  merge_ids entries made x hx := by
    refine ⟨x, ?_, rfl⟩
    rcases List.mem_append.mp hx with hx | hx
    · exact List.mem_append_left _ hx
    · exact List.mem_append_right _ (List.mem_filter.mp hx).1
  merge_names entries made x hx := by
    refine ⟨x, ?_, rfl, rfl⟩
    rcases List.mem_append.mp hx with hx | hx
    · exact List.mem_append_left _ hx
    · exact List.mem_append_right _ (List.mem_filter.mp hx).1

/-- A derive of an agent's key. -/
def agentKey : DeriveRecord :=
  { transport := .vendor, code := 132, keytype := 1, labelHash := "ab", rpIdHash := none
    publicKey := [1] }

/-- An entry that the screen makes. -/
def madeHere : Entry := { id := "mail", label := "mail", type := "p256", publicKey := [2] }

/-- A derive is recorded, the screen reads the list again, and an entry is made there. -/
def inTurn : List Event :=
  [.mount, .screenReads 0, .screenGets 0, .record (.derive agentKey "now"), .recorderReads,
    .recorderWrites, .screenReads 0, .screenGets 0, .render, .ask (.merge [madeHere]), .compute 0,
    .lands 0]

theorem changes_last_in_turn :
    ∃ entries, listOf plainLib
        (inTurn.foldl (Chain.step plainLib) (Chain.begin plainLib none)).raw = some entries ∧
      entries = replay plainLib []
        (inTurn.foldl (Chain.step plainLib) (Chain.begin plainLib none)).done ∧
      Lasts plainLib [] (inTurn.foldl (Chain.step plainLib) (Chain.begin plainLib none)).done
        entries :=
  changes_last plainLib_lawful none inTurn (by decide +kernel)

/-- The entry is made from the copy taken before the derive was recorded. -/
def stale : List Event :=
  [.mount, .ask (.merge [madeHere]), .record (.derive agentKey "now"), .recorderReads,
    .recorderWrites, .compute 0, .lands 0]

/-- A save of the screen takes back what the recorder wrote since its copy. -/
theorem save_loses_a_derive :
    ¬ ∀ (start : Option (List Entry)) (history : List Event), ∃ entries,
      listOf plainLib (history.foldl (Chain.step plainLib) (Chain.begin plainLib start)).raw =
          some entries ∧
        Lasts plainLib (start.getD [])
          (history.foldl (Chain.step plainLib) (Chain.begin plainLib start)).done entries := by
  intro h
  obtain ⟨entries, hstored, hlasts⟩ := h none stale
  have hraw : listOf plainLib (stale.foldl (Chain.step plainLib) (Chain.begin plainLib none)).raw =
      some [madeHere] := by decide +kernel
  have hdone : (stale.foldl (Chain.step plainLib) (Chain.begin plainLib none)).done =
      [] ++ .derive agentKey "now" :: [.merge [madeHere]] := rfl
  obtain rfl := Option.some.inj (hstored.symm.trans hraw)
  let recorded : Entry :=
    { id := "hash:ab", label := "hash:ab", type := "ed25519", publicKey := [1], lastSeen := "now"
      tools := ["soft key"] }
  have hrecords : recorded ∈ (Change.derive agentKey "now").records plainLib := by decide +kernel
  have hstands := hlasts.recorded _ _ _ recorded hdone hrecords fun mid d rest heq => by
    -- making an entry takes none away
    obtain rfl : d = .merge [madeHere] := by
      have hd : d ∈ [Change.merge [madeHere]] := heq ▸ List.mem_append_right mid List.mem_cons_self
      exact List.mem_singleton.mp hd
    rintro ⟨x, -, -, hdrops⟩
    cases hdrops
  obtain ⟨x, hx, hsame⟩ := hstands
  obtain rfl := List.mem_singleton.mp hx
  revert hsame
  decide +kernel

end OkRn.KeyChain
