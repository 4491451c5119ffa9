/-
OkRn/GuestBook/Shared.lean

The Guest Book's list, saved by several views of it, and the keys offered in swaps.

Each view of the book has a copy of the list.  A call changes the copy it was made with
and saves the whole of it, so what others saved since is gone; a refresh waits for the
network in between.  A toggle reads the stored set, waits, and writes it back.

* `Op.next` is what a call saves, from its copy, and `Op.alone` what it comes to when it
  runs by itself;
* `Desk.step` takes the views, their loads, the calls and the toggles apart at their
  awaits;
* `Desk.Kept` says that nothing is lost: the stored list is that of the completed calls
  one after another, and a key is offered exactly if its last toggle was on;
* `Desk.NotOvertaken` is the order of events: no save comes between a call's copy and
  its own save, and a toggle is alone.

Main results: `changes_are_kept`, and `Demo.removed_contact_comes_back` for a refresh
that saves over a removal.
-/
import OkRn.Lib.Along
import Mathlib.Data.List.Basic

namespace OkRn.GuestBook

/-! ### Contacts -/

/-- A value with its label. -/
structure Labelled where
  label : String
  value : String
  deriving DecidableEq

/-- A contact with keys of type `K`. -/
structure Contact (K : Type) where
  id : String
  name : String
  nicknames : List String
  phones : List Labelled
  emails : List Labelled
  note : String
  keys : List K
  deriving DecidableEq

/-- What is edited of a contact. -/
structure Details where
  name : String
  nicknames : List String
  phones : List Labelled
  emails : List Labelled
  note : String

/-- Where a key came from. -/
structure Source where
  kind : String
  handle : String

/-- What the hook takes from the library; `A` is what the network answers a refresh. -/
structure BookLib (K A : Type) where
  format : K → String
  fingerprint : K → String
  toLowerCase : String → String
  addKeys : Contact K → List K → Source → Contact K
  setDetails : Contact K → Details → Contact K
  setVerified : Contact K → String → Bool → Contact K
  rename : Contact K → String → Option String → Contact K
  removeKey : Contact K → String → Contact K
  acceptPending : Contact K → String → String → Contact K
  keepCurrent : Contact K → String → Contact K
  keepAndRemoveSources : Contact K → String → Contact K
  refreshContact : Contact K → A → Contact K
  /-- What `save` stores for a list; `none` is a refusal. -/
  save : List (Contact K) → Option (List (Contact K))

variable {K A : Type}

/-! ### The calls -/

/-- A call, with what it is given and what the network answers it. -/
inductive Op (K A : Type)
  /-- `add`, with what `newContact` made. -/
  | add (c : Contact K)
  | update (id : String) (change : Contact K → Contact K)
  | remove (id : String)
  | refreshOne (id : String) (answer : A)
  | importFile (incoming : List (Contact K))
  /-- `recipientSource.refresh`. -/
  | refresh (id : String) (answer : A)

section

variable (L : BookLib K A)

/-- `add` onto a contact that exists. -/
def addTo (contactId : String) (found : List K) (source : Source) : Op K A :=
  .update contactId fun c => L.addKeys c found source

/-- `accept`. -/
def accept (id keyId fp : String) : Op K A := .update id fun c => L.acceptPending c keyId fp

/-- `keepCurrent`. -/
def keepCurrent (id keyId : String) : Op K A := .update id fun c => L.keepCurrent c keyId

/-- `keepAndRemove`. -/
def keepAndRemove (id keyId : String) : Op K A :=
  .update id fun c => L.keepAndRemoveSources c keyId

/-- `setVerified`. -/
def setVerified (id keyId : String) (v : Bool) : Op K A :=
  .update id fun c => L.setVerified c keyId v

/-- `rename`. -/
def rename (id name : String) (note : Option String) : Op K A :=
  .update id fun c => L.rename c name note

/-- `setDetails`. -/
def setDetails (id : String) (d : Details) : Op K A := .update id fun c => L.setDetails c d

/-- `removeKey`. -/
def removeKey (id keyId : String) : Op K A := .update id fun c => L.removeKey c keyId

/-- A list with what another adds, by key. -/
def union {α : Type} (a b : List α) (key : α → String) : List α :=
  a ++ b.filter fun x => !a.any fun y => key y == key x

/-- The same person in an import: their keys, and the details the book does not have. -/
def merged (incoming c : Contact K) : Contact K :=
  let c := L.addKeys c incoming.keys ⟨"paste", ""⟩
  L.setDetails c
    { name := c.name
      nicknames := union c.nicknames incoming.nicknames L.toLowerCase
      phones := union c.phones incoming.phones Labelled.value
      emails := union c.emails incoming.emails fun x => L.toLowerCase x.value
      note := if c.note.isEmpty then incoming.note else c.note }

/-- One contact of an import: merged into the one it shares a key with, or added. -/
def importOne (contacts : List (Contact K)) (incoming : Contact K) : List (Contact K) :=
  match contacts.findIdx? fun c => c.keys.any fun k => incoming.keys.any fun i =>
      L.format i == L.format k && L.fingerprint i == L.fingerprint k with
  | some i => contacts.modify i (merged L incoming)
  | none => contacts ++ [incoming]

/-- The list a call saves, from its copy; `none` returns without a save. -/
def Op.next : Op K A → List (Contact K) → Option (List (Contact K))
  | .add c, contacts => some (contacts ++ [c])
  | .update id change, contacts =>
      some (contacts.map fun c => if c.id == id then change c else c)
  | .remove id, contacts => some (contacts.filter fun c => c.id != id)
  | .refreshOne id answer, contacts => (contacts.find? fun c => c.id == id).map fun c =>
      contacts.map fun x => if x.id == id then L.refreshContact c answer else x
  | .importFile incoming, contacts => some (incoming.foldl (importOne L) contacts)
  | .refresh id answer, contacts => (contacts.findIdx? fun c => c.id == id).map fun i =>
      contacts.modify i fun c => L.refreshContact c answer

/-- The stored list after a call that runs alone. -/
def Op.alone (stored : List (Contact K)) (op : Op K A) : List (Contact K) :=
  ((op.next L stored).bind L.save).getD stored

end

/-! ### The views and the calls under way -/

/-- A view of the book: the tab, or the swap sheet. -/
structure View (K : Type) where
  contacts : List (Contact K)
  /-- Loads begun that have not read yet. -/
  due : Nat
  /-- What the loads under way have read. -/
  reading : List (List (Contact K))

/-- A call on its way. -/
structure Call (K A : Type) where
  op : Op K A
  /-- `none` in Encrypt/Decrypt. -/
  view : Option Nat
  /-- The copy it changes. -/
  base : Option (List (Contact K))
  /-- What it saved. -/
  saved : Option (List (Contact K))

/-- A toggle on its way. -/
structure Toggle where
  id : String
  isOn : Bool
  /-- The set it read. -/
  ids : Option (List String)

/-- The stored list, the views of it, the calls and the toggles. -/
structure Desk (K A : Type) where
  stored : List (Contact K)
  views : Nat → Option (View K)
  calls : Nat → Option (Call K A)
  /-- The calls that came through, for the history only. -/
  completed : List (Op K A)
  offered : List String
  toggles : Nat → Option Toggle
  /-- The toggles that came through, for the history only. -/
  toggled : List (String × Bool)

/-- What can happen. -/
inductive Event (K A : Type)
  | mount (v : Nat)
  | unmount (v : Nat)
  /-- A load of a view reads the storage. -/
  | read (v : Nat)
  /-- A load of a view ends. -/
  | shown (v i : Nat)
  | call (n v : Nat) (op : Op K A)
  /-- `recipientSource.refresh` is called. -/
  | outside (n : Nat) (id : String) (answer : A)
  /-- It reads the storage. -/
  | load (n : Nat)
  /-- A call writes what it saves. -/
  | write (n : Nat)
  /-- Its save has ended. -/
  | settle (n : Nat)
  /-- A call throws before its save. -/
  | fail (n : Nat)
  /-- `setOffered`. -/
  | toggle (n : Nat) (id : String) (isOn : Bool)
  /-- `readOffered`; a read that fails gives the empty set. -/
  | readOffered (n : Nat) (ok : Bool)
  | writeOffered (n : Nat)
  | failOffered (n : Nat)

/-- The set with a key turned on or off. -/
def put (ids : List String) (id : String) (isOn : Bool) : List String :=
  if isOn then if ids.contains id then ids else ids ++ [id] else ids.filter fun x => x != id

namespace Desk

/-- A call is at this point now. -/
def setCall (w : Desk K A) (n : Nat) (c : Option (Call K A)) : Desk K A :=
  { w with calls := Function.update w.calls n c }

/-- A toggle is at this point now. -/
def setToggle (w : Desk K A) (n : Nat) (t : Option Toggle) : Desk K A :=
  { w with toggles := Function.update w.toggles n t }

/-- Every view begins a load; the view that saved shows what it saved. -/
def guestBookChanged (w : Desk K A) (by_ : Option Nat) (saved : List (Contact K)) : Desk K A :=
  { w with views := fun v => (w.views v).map fun x =>
      { x with
        contacts := if by_ = some v then saved else x.contacts
        due := x.due + 1 } }

/-- A call saves. -/
def write (L : BookLib K A) (w : Desk K A) (n : Nat) : Desk K A :=
  match w.calls n with
  | some ⟨op, view, some base, none⟩ => match op.next L base with
    | none => { w.setCall n none with completed := w.completed ++ [op] }
    | some next => match L.save next with
      | none => w.setCall n none
      | some saved =>
          { w.setCall n (some ⟨op, view, some base, some saved⟩) with
            stored := saved, completed := w.completed ++ [op] }
  | _ => w

/-- One event. -/
def step (L : BookLib K A) (w : Desk K A) : Event K A → Desk K A
  | .mount v => match w.views v with
    | some _ => w
    | none => { w with views := Function.update w.views v (some ⟨[], 1, []⟩) }
  | .unmount v => { w with views := Function.update w.views v none }
  | .read v => match w.views v with
    | some ⟨contacts, due + 1, reading⟩ =>
        { w with views := Function.update w.views v (some ⟨contacts, due, reading ++ [w.stored]⟩) }
    | _ => w
  | .shown v i => match w.views v with
    | some x => match x.reading[i]? with
      | some contacts =>
          let x := ⟨contacts, x.due, x.reading.eraseIdx i⟩
          { w with views := Function.update w.views v (some x) }
      | none => w
    | none => w
  | .call n v op => match w.calls n, w.views v with
    | none, some x => w.setCall n (some ⟨op, some v, some x.contacts, none⟩)
    | _, _ => w
  | .outside n id answer => match w.calls n with
    | none => w.setCall n (some ⟨.refresh id answer, none, none, none⟩)
    | some _ => w
  | .load n => match w.calls n with
    | some ⟨op, view, none, none⟩ => w.setCall n (some ⟨op, view, some w.stored, none⟩)
    | _ => w
  | .write n => w.write L n
  | .settle n => match w.calls n with
    | some ⟨_, view, _, some saved⟩ => (w.setCall n none).guestBookChanged view saved
    | _ => w
  | .fail n => match w.calls n with
    | some ⟨_, _, _, none⟩ => w.setCall n none
    | _ => w
  | .toggle n id isOn => match w.toggles n with
    | none => w.setToggle n (some ⟨id, isOn, none⟩)
    | some _ => w
  | .readOffered n ok => match w.toggles n with
    | some ⟨id, isOn, none⟩ => w.setToggle n (some ⟨id, isOn, some (if ok then w.offered else [])⟩)
    | _ => w
  | .writeOffered n => match w.toggles n with
    | some ⟨id, isOn, some ids⟩ =>
        { w.setToggle n none with offered := put ids id isOn, toggled := w.toggled ++ [(id, isOn)] }
    | _ => w
  | .failOffered n => w.setToggle n none

/-- Nothing is under way. -/
def start (stored : List (Contact K)) (offered : List String) : Desk K A :=
  ⟨stored, fun _ => none, fun _ => none, [], offered, fun _ => none, []⟩

/-- The last toggle of a key. -/
def lastOn (offered : List String) (toggled : List (String × Bool)) (id : String) : Bool :=
  toggled.foldl (fun isOn t => if t.1 = id then t.2 else isOn) (offered.contains id)

/-- The stored list is that of the completed calls in some order, one after another, and the keys
offered are those whose last toggle was on. -/
structure Kept (L : BookLib K A) (stored : List (Contact K)) (offered : List String)
    (w : Desk K A) : Prop where
  contacts : ∃ order : List (Op K A), order.Perm w.completed ∧
    w.stored = order.foldl (Op.alone L) stored
  keys : ∀ id, id ∈ w.offered ↔ lastOn offered w.toggled id = true

/-- A copy that is saved is the stored list; a toggle is alone, and its read does not fail. -/
def NotOvertaken (w : Desk K A) : Event K A → Prop
  | .write n => ∀ op view base, w.calls n = some ⟨op, view, some base, none⟩ → base = w.stored
  | .toggle _ _ _ => ∀ m, w.toggles m = none
  | .readOffered _ ok => ok = true
  | _ => True

/-! ### What such events keep -/

/-- What holds while nothing is overtaken. -/
structure Inv (L : BookLib K A) (stored : List (Contact K)) (offered : List String)
    (w : Desk K A) : Prop where
  contacts : w.stored = w.completed.foldl (Op.alone L) stored
  keys : ∀ id, id ∈ w.offered ↔ lastOn offered w.toggled id = true
  alone : ∀ n m, w.toggles n ≠ none → w.toggles m ≠ none → n = m
  fresh : ∀ n t ids, w.toggles n = some t → t.ids = some ids → ids = w.offered

variable {L : BookLib K A} {stored : List (Contact K)} {offered : List String} {w : Desk K A}

/-- The stored list and the toggles are left alone. -/
theorem Inv.same (h : Inv L stored offered w) {w' : Desk K A} (hstored : w'.stored = w.stored)
    (hcompleted : w'.completed = w.completed) (hoffered : w'.offered = w.offered)
    (htoggled : w'.toggled = w.toggled) (htoggles : w'.toggles = w.toggles) :
    Inv L stored offered w' where
  contacts := by rw [hstored, hcompleted, h.contacts]
  keys := by rw [hoffered, htoggled]; exact h.keys
  alone := by rw [htoggles]; exact h.alone
  fresh := by rw [htoggles, hoffered]; exact h.fresh

/-- A save of the stored list, changed. -/
theorem Inv.write (h : Inv L stored offered w) {n : Nat} (hcond : w.NotOvertaken (.write n)) :
    Inv L stored offered (w.write L n) := by
  unfold Desk.write
  split
  · rename_i op view base hcall
    obtain rfl : base = w.stored := hcond op view base hcall
    -- the call saves what it would if it ran alone
    have hfold (stored' : List (Contact K)) (halone : op.alone L w.stored = stored') :
        stored' = (w.completed ++ [op]).foldl (Op.alone L) stored := by
      rw [List.foldl_append, ← h.contacts]
      exact halone.symm
    split
    · rename_i hnext
      exact ⟨hfold w.stored (by simp [Op.alone, hnext]), h.keys, h.alone, h.fresh⟩
    · rename_i next hnext
      split
      · exact h.same rfl rfl rfl rfl rfl
      · rename_i saved hsaved
        exact ⟨hfold _ (by simp [Op.alone, hnext, hsaved]), h.keys, h.alone, h.fresh⟩
  · exact h

/-- A key put in or taken out, and the others. -/
theorem mem_put {ids : List String} {id x : String} {isOn : Bool} :
    x ∈ put ids id isOn ↔ (if id = x then isOn = true else x ∈ ids) := by
  unfold put
  cases isOn with
  | false =>
    by_cases hx : id = x
    · simp [hx]
    · simp [hx, Ne.symm hx]
  | true =>
    by_cases hx : id = x
    · subst hx
      by_cases hin : id ∈ ids <;> simp [hin]
    · by_cases hin : id ∈ ids <;> simp [hx, hin, Ne.symm hx]

@[simp] theorem setToggle_self (n : Nat) (t : Option Toggle) : (w.setToggle n t).toggles n = t :=
  Function.update_self _ _ _

theorem setToggle_of_ne {n m : Nat} {t : Option Toggle} (h : m ≠ n) :
    (w.setToggle n t).toggles m = w.toggles m := Function.update_of_ne h _ _

theorem Inv.setToggle (h : Inv L stored offered w) {n : Nat} {t : Toggle}
    (halone : ∀ m, w.toggles m ≠ none → m = n)
    (hfresh : ∀ ids, t.ids = some ids → ids = w.offered) :
    Inv L stored offered (w.setToggle n (some t)) := by
  have hother {m : Nat} (hm : (w.setToggle n (some t)).toggles m ≠ none) : m = n := by
    by_contra hne
    rw [setToggle_of_ne hne] at hm
    exact hne (halone m hm)
  refine ⟨h.contacts, h.keys, fun i j hi hj => (hother hi).trans (hother hj).symm,
    fun m t' ids ht hids => ?_⟩
  have hm : m = n := hother (by rw [ht]; exact Option.some_ne_none t')
  rw [hm, setToggle_self] at ht
  obtain rfl : t = t' := Option.some.inj ht
  exact hfresh ids hids

theorem Inv.clearToggle (h : Inv L stored offered w) (n : Nat) :
    Inv L stored offered (w.setToggle n none) := by
  have hother {m : Nat} (hm : (w.setToggle n none).toggles m ≠ none) :
      m ≠ n ∧ w.toggles m ≠ none := by
    by_cases hmn : m = n
    · subst hmn
      exact absurd (setToggle_self m none) hm
    · rw [setToggle_of_ne hmn] at hm
      exact ⟨hmn, hm⟩
  refine ⟨h.contacts, h.keys, fun i j hi hj => h.alone i j (hother hi).2 (hother hj).2,
    fun m t ids ht hids => ?_⟩
  obtain ⟨hmn, -⟩ := hother (m := m) (by rw [ht]; simp)
  rw [setToggle_of_ne hmn] at ht
  exact h.fresh m t ids ht hids

/-- Every event in the order asked keeps the invariant. -/
theorem Inv.step (h : Inv L stored offered w) (e : Event K A) (hcond : w.NotOvertaken e) :
    Inv L stored offered (w.step L e) := by
  cases e with
  | write n => exact h.write hcond
  | toggle n id isOn =>
    simp only [Desk.step]
    split
    · refine h.setToggle (fun m hm => absurd (hcond m) hm) fun ids hids => by cases hids
    · exact h
  | readOffered n ok =>
    simp only [Desk.step]
    split
    · rename_i id isOn ht
      refine h.setToggle (fun m hm => h.alone m n hm (by rw [ht]; simp)) fun ids hids => ?_
      obtain rfl : ok = true := hcond
      exact (Option.some.inj hids).symm
    · exact h
  | writeOffered n =>
    simp only [Desk.step]
    split
    · rename_i id isOn ids ht
      obtain rfl : ids = w.offered := h.fresh n _ ids ht rfl
      -- no other toggle is under way
      have hnone (m : Nat) : (w.setToggle n none).toggles m = none := by
        by_contra hm
        have hmn : m ≠ n := by
          rintro rfl
          exact hm (setToggle_self m none)
        rw [setToggle_of_ne hmn] at hm
        exact hmn (h.alone m n hm (by rw [ht]; simp))
      refine ⟨h.contacts, fun x => ?_, fun i j hi _ => absurd (hnone i) hi, fun m t ids ht' _ => ?_⟩
      · dsimp only
        rw [mem_put, lastOn, List.foldl_append]
        show _ ↔ (if id = x then isOn else lastOn offered w.toggled x) = true
        by_cases hx : id = x
        · rw [if_pos hx, if_pos hx]
        · rw [if_neg hx, if_neg hx]
          exact h.keys x
      · rw [hnone m] at ht'
        cases ht'
    · exact h
  | failOffered n => exact h.clearToggle n
  | unmount v => exact h.same rfl rfl rfl rfl rfl
  | shown v i =>
    simp only [Desk.step]
    split
    · split <;> exact h.same rfl rfl rfl rfl rfl
    · exact h
  | mount v | read v | call n v op | outside n id answer | load n | settle n | fail n =>
    simp only [Desk.step]
    split <;> exact h.same rfl rfl rfl rfl rfl

theorem inv_start (L : BookLib K A) (stored : List (Contact K)) (offered : List String) :
    Inv L stored offered (start stored offered) where
  contacts := rfl
  keys := fun id => by simp [start, lastOn]
  alone := fun n _ hn _ => absurd rfl hn
  fresh := fun n _ _ ht _ => by cases ht

end Desk

/-! ### The result -/

/-- In every run in which no call saves a copy that is no longer what is stored, no key is toggled
while another toggle is under way, and no toggle's read fails, no change is lost. -/
theorem changes_are_kept {L : BookLib K A} {stored : List (Contact K)} {offered : List String}
    {events : List (Event K A)}
    (hcond : AllAlong (Desk.step L) Desk.NotOvertaken (Desk.start stored offered) events) :
    (events.foldl (Desk.step L) (Desk.start stored offered)).Kept L stored offered := by
  have h : Desk.Inv L stored offered (events.foldl (Desk.step L) (Desk.start stored offered)) :=
    hcond.keeps (Desk.inv_start L stored offered) fun _ e hw he => hw.step e he
  exact ⟨⟨_, List.Perm.refl _, h.contacts⟩, h.keys⟩

/-! ### Two runs -/

namespace Demo

/-- Keys are texts, and a refresh only notes what the network said. -/
def lib : BookLib String String where
  format := fun _ => "openpgp"
  fingerprint := id
  toLowerCase := id
  addKeys := fun c found _ => { c with keys := c.keys ++ found }
  setDetails := fun c d => { c with name := d.name, note := d.note }
  setVerified := fun c _ _ => c
  rename := fun c name _ => { c with name := name }
  removeKey := fun c key => { c with keys := c.keys.filter fun k => k != key }
  acceptPending := fun c _ fp => { c with keys := c.keys ++ [fp] }
  keepCurrent := fun c _ => c
  keepAndRemoveSources := fun c _ => c
  refreshContact := fun c answer => { c with note := answer }
  save := some

/-- A contact with one name. -/
def person (id : String) : Contact String := ⟨id, id, [], [], [], "", []⟩

/-- A book of two. -/
def book : List (Contact String) := [person "a", person "b"]

/-- A view is opened, and its first load ends. -/
def opened (v : Nat) : List (Event String String) := [.mount v, .read v, .shown v 0]

/-- A contact is removed, another refreshed once the list is read again, and a key turned on. -/
def inTurn : List (Event String String) :=
  opened 0 ++ [.call 0 0 (.remove "b"), .write 0, .settle 0, .read 0, .shown 0 0,
    .call 1 0 (.refreshOne "a" "new"), .write 1, .settle 1,
    .toggle 0 "k" true, .readOffered 0 true, .writeOffered 0]

theorem changes_are_kept_in_turn :
    (inTurn.foldl (Desk.step lib) (Desk.start book [])).Kept lib book [] :=
  changes_are_kept ⟨trivial, trivial, trivial, trivial, fun _ _ _ h => by cases h; rfl, trivial,
    trivial, trivial, trivial, fun _ _ _ h => by cases h; rfl, trivial, fun _ => rfl, rfl, trivial,
    trivial⟩

/-- The tab refreshes a contact; while that waits for the network, another is removed there. -/
def meanwhile : List (Event String String) :=
  opened 0 ++ [.call 0 0 (.refreshOne "a" "new"), .call 1 0 (.remove "b"), .write 1, .settle 1,
    .write 0, .settle 0]

theorem perm_pair {α : Type} {a b : α} {l : List α} (h : l.Perm [a, b]) :
    l = [a, b] ∨ l = [b, a] := by
  obtain ⟨x, y, rfl⟩ := List.length_eq_two.mp h.length_eq
  rcases List.mem_pair.mp (h.subset List.mem_cons_self) with rfl | rfl
  · exact Or.inl (by rw [List.perm_singleton.mp h.cons_inv])
  · have hswap := h.trans (List.Perm.swap x a [])
    exact Or.inr (by rw [List.perm_singleton.mp hswap.cons_inv])

/-- The removed contact is back. -/
theorem removed_contact_comes_back :
    ¬ (meanwhile.foldl (Desk.step lib) (Desk.start book [])).Kept lib book [] := by
  rintro ⟨⟨order, hperm, hstored⟩, -⟩
  have hcompleted : (meanwhile.foldl (Desk.step lib) (Desk.start book [])).completed =
      [.remove "b", .refreshOne "a" "new"] := rfl
  rw [hcompleted] at hperm
  rcases perm_pair hperm with rfl | rfl
  · exact absurd hstored (by decide)
  · exact absurd hstored (by decide)

end Demo

end OkRn.GuestBook
