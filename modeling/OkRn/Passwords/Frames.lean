/-
OkRn/Passwords/Frames.lean

Whether the fields of an answer lie in the document whose domain it hands over.

The walk keeps one domain, one password and one username for the whole forest: the
domain is the first one, whoever's document the fields lie in.  They belong
together exactly when the leading fields lie in a document of the first domain
(`answers_tied_iff`).

* `Placed` is a view with the document it lies in, and the walk is read off the list of
  them (`walk_eq`);
* `Answer.Fits` says that the fields of an answer lie in a document of its domain, and
  `Together` is the condition on the form.

Main results: `answers_tied_iff`, and `frame_gets_the_password`.
-/
import OkRn.Passwords.Autofill

namespace OkRn.Passwords

variable {Id : Type}

/-! ### The walk is a fold over the views -/

mutual

/-- The walk reads the views one after another. -/
theorem walk_eq (outer : Option Doc) (place : List Nat) (f : Fields Id) (node : ViewNode Id) :
    walk f node = (placed outer place node).foldl (fun f x => readView x.view f) f := by
  cases node with
  | node view children =>
    rw [walk, placed, List.foldl_cons]
    exact walkAll_eq _ place 0 (readView view f) children

theorem walkAll_eq (outer : Option Doc) (place : List Nat) (i : Nat) (f : Fields Id)
    (nodes : List (ViewNode Id)) :
    walkAll f nodes = (placedAll outer place i nodes).foldl (fun f x => readView x.view f) f := by
  cases nodes with
  | nil => rw [walkAll, placedAll, List.foldl_nil]
  | cons node nodes =>
    rw [walkAll, placedAll, List.foldl_append, walk_eq outer (place ++ [i]) f node]
    exact walkAll_eq outer place (i + 1) _ nodes

end

/-! ### What it finds -/

namespace Placed

variable (x : Placed Id)

/-- A text field. -/
def isField : Bool := x.view.autofillId.isSome && x.view.isText

/-- A password field. -/
def passwordBox : Bool := x.isField && x.view.isPassword

/-- A field for a code. -/
def codeBox : Bool := x.isField && x.view.isCodeBox

/-- A field for a phrase. -/
def phraseBox : Bool := x.isField && x.view.isPhraseBox

/-- A field for a username. -/
def usernameBox : Bool := x.isField && !x.view.isPassword && x.view.isUsername

/-- A field that is shown, and neither a password's nor a username's. -/
def plainBox : Bool := x.isField && !x.view.isPassword && !x.view.isUsername && x.view.visible

end Placed

section

variable (x : Placed Id) (f : Fields Id)

theorem readView_webDomain : (readView x.view f).webDomain = f.webDomain.or x.view.domain := by
  unfold readView readField
  grind

theorem readView_of_field {id : Id} (hid : x.view.autofillId = some id)
    (htext : x.view.isText = true) :
    readView x.view f = readField x.view id { f with webDomain := f.webDomain.or x.view.domain } := by
  simp only [readView, hid, htext, if_true]

/-- Of any other view just the domain. -/
theorem readView_of_other (h : x.isField = false) :
    readView x.view f = { f with webDomain := f.webDomain.or x.view.domain } := by
  unfold readView
  cases hid : x.view.autofillId with
  | none => rfl
  | some id =>
    have htext : x.view.isText = false := by simpa [Placed.isField, hid] using h
    simp [htext]

theorem isField_cases : x.isField = false ∨
    ∃ id, x.view.autofillId = some id ∧ x.view.isText = true ∧ x.isField = true := by
  cases hid : x.view.autofillId with
  | none => exact .inl (by simp [Placed.isField, hid])
  | some id =>
    cases htext : x.view.isText with
    | false => exact .inl (by simp [Placed.isField, htext])
    | true => exact .inr ⟨id, rfl, rfl, by simp [Placed.isField, hid, htext]⟩

/-- The first password field is kept. -/
theorem readView_password :
    (readView x.view f).password =
      f.password.or (if x.passwordBox then x.view.autofillId else none) := by
  rcases isField_cases x with h | ⟨id, hid, htext, h⟩
  · simp [readView_of_other x f h, Placed.passwordBox, h]
  · rw [readView_of_field x f hid htext]
    simp only [readField, Placed.passwordBox, h, hid, Bool.true_and]
    cases hp : f.password <;> grind

theorem readView_codeBox :
    (readView x.view f).codeBox =
      f.codeBox.or (if x.codeBox then x.view.autofillId else none) := by
  rcases isField_cases x with h | ⟨id, hid, htext, h⟩
  · simp [readView_of_other x f h, Placed.codeBox, h]
  · rw [readView_of_field x f hid htext]
    cases hc : f.codeBox <;> simp [readField, Placed.codeBox, h, hid] <;> grind

theorem readView_phraseBox :
    (readView x.view f).phraseBox =
      f.phraseBox.or (if x.phraseBox then x.view.autofillId else none) := by
  rcases isField_cases x with h | ⟨id, hid, htext, h⟩
  · simp [readView_of_other x f h, Placed.phraseBox, h]
  · rw [readView_of_field x f hid htext]
    cases hc : f.phraseBox <;> simp [readField, Placed.phraseBox, h, hid] <;> grind

/-- The first username field before a password. -/
theorem readView_username :
    (readView x.view f).username =
      if f.password.isSome then f.username
      else f.username.or (if x.usernameBox then x.view.autofillId else none) := by
  rcases isField_cases x with h | ⟨id, hid, htext, h⟩
  · simp [readView_of_other x f h, Placed.usernameBox, h]
  · rw [readView_of_field x f hid htext]
    cases hp : f.password <;> cases hu : f.username <;>
      simp [readField, Placed.usernameBox, h, hid] <;> grind

theorem readView_textBefore :
    (readView x.view f).textBefore =
      if f.password.isSome then f.textBefore
      else (if x.plainBox then x.view.autofillId else none).or f.textBefore := by
  rcases isField_cases x with h | ⟨id, hid, htext, h⟩
  · simp [readView_of_other x f h, Placed.plainBox, h]
  · rw [readView_of_field x f hid htext]
    simp only [readField, Placed.plainBox, h, hid, Bool.true_and]
    cases hp : f.password <;> grind

end

/-- The views in turn. -/
def readAll (f : Fields Id) (l : List (Placed Id)) : Fields Id :=
  l.foldl (fun f x => readView x.view f) f

/-- The views before the first password field. -/
def beforePassword (l : List (Placed Id)) : List (Placed Id) :=
  l.takeWhile fun x => !x.passwordBox

theorem Placed.id_of_field {x : Placed Id} (h : x.isField = true) :
    ∃ id, x.view.autofillId = some id := by
  simp only [isField, Bool.and_eq_true] at h
  exact Option.isSome_iff_exists.mp h.1

/-- A password field is a field. -/
theorem isField_of_passwordBox (x : Placed Id) (h : x.passwordBox = true) : x.isField = true := by
  simp only [Placed.passwordBox, Bool.and_eq_true] at h
  exact h.1

theorem isField_of_codeBox (x : Placed Id) (h : x.codeBox = true) : x.isField = true := by
  simp only [Placed.codeBox, Bool.and_eq_true] at h
  exact h.1

theorem isField_of_phraseBox (x : Placed Id) (h : x.phraseBox = true) : x.isField = true := by
  simp only [Placed.phraseBox, Bool.and_eq_true] at h
  exact h.1

theorem isField_of_usernameBox (x : Placed Id) (h : x.usernameBox = true) : x.isField = true := by
  simp only [Placed.usernameBox, Bool.and_eq_true] at h
  exact h.1.1

theorem isField_of_plainBox (x : Placed Id) (h : x.plainBox = true) : x.isField = true := by
  simp only [Placed.plainBox, Bool.and_eq_true] at h
  exact h.1.1.1

/-- A field that was found has an id. -/
theorem id_of_find {p : Placed Id → Bool} (hp : ∀ x, p x = true → x.isField = true)
    {l : List (Placed Id)} {x : Placed Id} (h : l.find? p = some x) :
    ∃ id, x.view.autofillId = some id :=
  Placed.id_of_field (hp x (List.find?_some h))

section

variable (f : Fields Id) (l : List (Placed Id))

theorem readAll_webDomain :
    (readAll f l).webDomain = f.webDomain.or (l.findSome? (·.view.domain)) := by
  induction l generalizing f with
  | nil => exact Option.or_none.symm
  | cons x l ih =>
    show (readAll (readView x.view f) l).webDomain = _
    rw [ih, readView_webDomain, Option.or_assoc, List.findSome?_cons]
    cases x.view.domain <;> rfl

/-- A field that keeps the id of the first view of its kind. -/
theorem readAll_first {g : Fields Id → Option Id} {p : Placed Id → Bool}
    (hg : ∀ x f, g (readView x.view f) = (g f).or (if p x then x.view.autofillId else none))
    (hp : ∀ x, p x = true → x.isField = true) :
    g (readAll f l) = (g f).or ((l.find? p).bind (·.view.autofillId)) := by
  induction l generalizing f with
  | nil => exact Option.or_none.symm
  | cons x l ih =>
    show g (readAll (readView x.view f) l) = _
    rw [ih, hg, Option.or_assoc, List.find?_cons]
    cases hx : p x with
    | false => rfl
    | true =>
      obtain ⟨id, hid⟩ := Placed.id_of_field (hp x hx)
      simp [hid]

/-- The first password field of all. -/
theorem readAll_password :
    (readAll f l).password =
      f.password.or ((l.find? (·.passwordBox)).bind (·.view.autofillId)) :=
  readAll_first f l (fun x f => readView_password x f) isField_of_passwordBox

/-- The first field for a code. -/
theorem readAll_codeBox :
    (readAll f l).codeBox = f.codeBox.or ((l.find? (·.codeBox)).bind (·.view.autofillId)) :=
  readAll_first f l (fun x f => readView_codeBox x f) isField_of_codeBox

theorem readAll_phraseBox :
    (readAll f l).phraseBox = f.phraseBox.or ((l.find? (·.phraseBox)).bind (·.view.autofillId)) :=
  readAll_first f l (fun x f => readView_phraseBox x f) isField_of_phraseBox

/-- After the password nothing is taken for the username. -/
theorem readAll_of_password (h : f.password.isSome = true) :
    (readAll f l).username = f.username ∧ (readAll f l).textBefore = f.textBefore := by
  induction l generalizing f with
  | nil => exact ⟨rfl, rfl⟩
  | cons x l ih =>
    have hnext : (readView x.view f).password.isSome = true := by
      rw [readView_password, Option.isSome_or, h, Bool.true_or]
    obtain ⟨husername, htext⟩ := ih (readView x.view f) hnext
    rw [readView_username, if_pos h] at husername
    rw [readView_textBefore, if_pos h] at htext
    exact ⟨husername, htext⟩

/-- The walk is at the first password field, or still before it. -/
theorem found_or_before (h : f.password = none) (x : Placed Id) :
    (readView x.view f).password.isSome = true ∧ beforePassword (x :: l) = [] ∧
        x.usernameBox = false ∧ x.plainBox = false ∨
      (readView x.view f).password = none ∧ beforePassword (x :: l) = x :: beforePassword l := by
  have hpassword := readView_password x f
  rw [h, Option.none_or] at hpassword
  cases hx : x.passwordBox with
  | true =>
    have hview : x.view.isPassword = true := by
      simp only [Placed.passwordBox, Bool.and_eq_true] at hx
      exact hx.2
    obtain ⟨id, hid⟩ := Placed.id_of_field (isField_of_passwordBox x hx)
    refine .inl ⟨?_, by simp [beforePassword, hx], by simp [Placed.usernameBox, hview],
      by simp [Placed.plainBox, hview]⟩
    rw [hpassword, if_pos hx, hid]
    rfl
  | false =>
    refine .inr ⟨?_, by simp [beforePassword, hx]⟩
    rw [hpassword, hx]
    rfl

/-- The first for a username, before the first password. -/
theorem readAll_username (h : f.password = none) :
    (readAll f l).username =
      f.username.or (((beforePassword l).find? (·.usernameBox)).bind (·.view.autofillId)) := by
  induction l generalizing f with
  | nil => exact Option.or_none.symm
  | cons x l ih =>
    have hfirst := readView_username x f
    rw [if_neg (by simp [h])] at hfirst
    show (readAll (readView x.view f) l).username = _
    rcases found_or_before f l h x with ⟨hfound, hbefore, hno, -⟩ | ⟨hnone, hbefore⟩
    · rw [(readAll_of_password _ l hfound).1, hfirst, hno, hbefore]
      simp
    · rw [ih _ hnone, hfirst, Option.or_assoc, hbefore, List.find?_cons]
      cases hu : x.usernameBox with
      | false => rfl
      | true =>
        obtain ⟨id, hid⟩ := Placed.id_of_field (isField_of_usernameBox x hu)
        simp [hid]

/-- The last text field before it. -/
theorem readAll_textBefore (h : f.password = none) :
    (readAll f l).textBefore =
      (((beforePassword l).reverse.find? (·.plainBox)).bind (·.view.autofillId)).or
        f.textBefore := by
  induction l generalizing f with
  | nil => rfl
  | cons x l ih =>
    have hlast := readView_textBefore x f
    rw [if_neg (by simp [h])] at hlast
    show (readAll (readView x.view f) l).textBefore = _
    rcases found_or_before f l h x with ⟨hfound, hbefore, -, hno⟩ | ⟨hnone, hbefore⟩
    · rw [(readAll_of_password _ l hfound).2, hlast, hno, hbefore]
      simp
    · -- the last plain field of the rest, or this one
      rw [ih _ hnone, hlast, hbefore, List.reverse_cons, List.find?_append, ← Option.or_assoc]
      congr 1
      cases hfound : (beforePassword l).reverse.find? (·.plainBox) with
      | none => cases ht : x.plainBox <;> simp [ht]
      | some y =>
        obtain ⟨id, hid⟩ := id_of_find isField_of_plainBox hfound
        simp [hid]

end

/-! ### Documents -/

/-- The domain of a document, as an answer hands it over. -/
def domainOf : Option Doc → String
  | none => ""
  | some doc => doc.domain

/-- A view's document is the one around it, or its own. -/
theorem docWithin_from {v : View Id} {outer : Option Doc} {place : List Nat} {d : Doc}
    (h : v.docWithin outer place = some d) : outer = some d ∨ v.domain = some d.domain := by
  unfold View.docWithin at h
  cases hv : v.domain with
  | none => exact .inl (by simpa [hv] using h)
  | some domain =>
    obtain rfl : Doc.mk place domain = d := by simpa [hv] using h
    exact .inr rfl

mutual

/-- A document is the one around, or has the domain of a view. -/
theorem doc_from {outer : Option Doc} {place : List Nat} (node : ViewNode Id)
    {x : Placed Id} (hx : x ∈ placed outer place node) {d : Doc} (hd : x.doc = some d) :
    outer = some d ∨ ∃ y ∈ placed outer place node, y.view.domain = some d.domain := by
  cases node with
  | node view children =>
    have hhere (h : view.docWithin outer place = some d) :
        outer = some d ∨
          ∃ y ∈ placed outer place (.node view children), y.view.domain = some d.domain := by
      refine (docWithin_from h).imp_right fun hv =>
        ⟨⟨view, view.docWithin outer place⟩, ?_, hv⟩
      rw [placed]
      exact List.mem_cons_self
    rw [placed, List.mem_cons] at hx
    rcases hx with rfl | hx
    · exact hhere hd
    · rcases doc_from_all children hx hd with h | ⟨y, hy, hdomain⟩
      · exact hhere h
      · refine .inr ⟨y, ?_, hdomain⟩
        rw [placed]
        exact List.mem_cons_of_mem _ hy

/-- Each document's domain is some view's. -/
theorem doc_from_all {outer : Option Doc} {place : List Nat} {i : Nat} (nodes : List (ViewNode Id))
    {x : Placed Id} (hx : x ∈ placedAll outer place i nodes) {d : Doc} (hd : x.doc = some d) :
    outer = some d ∨ ∃ y ∈ placedAll outer place i nodes, y.view.domain = some d.domain := by
  cases nodes with
  | nil => cases hx
  | cons node nodes =>
    rw [placedAll, List.mem_append] at hx
    rw [placedAll]
    rcases hx with hx | hx
    · refine (doc_from node hx hd).imp_right fun ⟨y, hy, hdomain⟩ => ⟨y, ?_, hdomain⟩
      exact List.mem_append_left _ hy
    · refine (doc_from_all nodes hx hd).imp_right fun ⟨y, hy, hdomain⟩ => ⟨y, ?_, hdomain⟩
      exact List.mem_append_right _ hy

end

theorem domain_ne {v : View Id} {domain : String} (h : v.domain = some domain) : domain ≠ "" := by
  have := Option.filter_eq_some_iff.mp h
  simpa using this.2

section

variable (w : Windows Id)

/-- The first domain of the forest. -/
def Windows.firstDomain : Option String := w.placed.findSome? (·.view.domain)

/-- Its document has the first domain of the forest, or there is none. -/
def Placed.UnderFirst (x : Placed Id) : Prop := x.doc.map (·.domain) = w.firstDomain

/-- The domain handed over is the document's exactly when that is the first. -/
theorem domainOf_eq_iff {x : Placed Id} (hx : x ∈ w.placed) :
    domainOf x.doc = w.firstDomain.getD "" ↔ x.UnderFirst w := by
  have hfrom := fun d (hd : x.doc = some d) => doc_from_all w.roots hx hd
  unfold Placed.UnderFirst
  have hfirst : ∀ domain, w.firstDomain = some domain → domain ≠ "" := by
    intro domain h
    obtain ⟨y, -, hy⟩ := List.exists_of_findSome?_eq_some h
    exact domain_ne hy
  cases hd : x.doc with
  | none =>
    cases hw : w.firstDomain with
    | none => simp [domainOf]
    | some domain => simpa [domainOf] using (hfirst domain hw).symm
  | some d =>
    obtain hnone | ⟨y, hy, hdomain⟩ := hfrom d hd
    · cases hnone
    · cases hw : w.firstDomain with
      | none =>
        have hnone := List.findSome?_eq_none_iff.mp hw y hy
        rw [hdomain] at hnone
        cases hnone
      | some domain => simp [domainOf]

/-! ### What an answer must be -/

variable [DecidableEq Id]

/-- The document of the field with an id. -/
def docOf (id : Id) : Option Doc :=
  (w.placed.find? fun x => x.view.autofillId = some id).bind (·.doc)

/-- The document that an id lies in. -/
theorem docOf_eq {x : Placed Id} (hx : x ∈ w.placed) {id : Id}
    (hid : x.view.autofillId = some id) : docOf w id = x.doc := by
  obtain ⟨before, after, hsplit⟩ := List.append_of_mem hx
  have hdistinct : (w.placed.filterMap (·.view.autofillId)).Nodup := w.distinct
  have hfind : w.placed.find? (fun y => y.view.autofillId = some id) = some x := by
    refine List.find?_eq_some_iff_append.mpr ⟨by simpa using hid, before, after, hsplit, ?_⟩
    intro y hy
    -- another view with this id would stand before it
    have hcons : (x :: after).filterMap (·.view.autofillId) =
        id :: after.filterMap (·.view.autofillId) := List.filterMap_cons_some hid
    rw [hsplit, List.filterMap_append, hcons] at hdistinct
    have hne := (List.nodup_append.mp hdistinct).2.2
    simp only [Bool.not_eq_true', decide_eq_false_iff_not]
    intro hyid
    exact hne id (List.mem_filterMap.mpr ⟨y, hy, hyid⟩) id List.mem_cons_self rfl
  rw [docOf, hfind]
  rfl

/-- The field lies in a document of the domain. -/
def Tied (domain : String) (id : Id) : Prop := domainOf (docOf w id) = domain

namespace Answer

/-- The domain that an answer hands over. -/
def domain : Answer Id → String
  | .login domain .. | .code domain .. | .username domain .. => domain
  | .nothing | .phrase .. => ""

/-- The app that it hands over. -/
def caller : Answer Id → String
  | .login _ caller .. | .code _ caller _ | .username _ caller _ | .phrase caller _ => caller
  | .nothing => ""

/-- The fields that an entry is filled into. -/
def picked : Answer Id → List Id
  | .nothing => []
  | .login _ _ user password => user.toList ++ [password]
  | .code _ _ box | .phrase _ box | .username _ _ box => [box]

/-- The fields lie in one document, the one whose domain is handed over; so an entry that belongs to
the form belongs to each field's own document. -/
structure Fits (a : Answer Id) : Prop where
  tied : ∀ id ∈ a.picked, Tied w a.domain id
  one : ∀ i ∈ a.picked, ∀ j ∈ a.picked, docOf w i = docOf w j
  entries : ∀ hosts certs e, belongs hosts e ⟨a.domain, a.caller, certs⟩ = true →
    ∀ id ∈ a.picked, belongs hosts e ⟨domainOf (docOf w id), a.caller, certs⟩ = true

/-- Fields in one document of the domain fit. -/
theorem Fits.of_tied {a : Answer Id} (htied : ∀ id ∈ a.picked, Tied w a.domain id)
    (hone : ∀ i ∈ a.picked, ∀ j ∈ a.picked, docOf w i = docOf w j) : a.Fits w where
  tied := htied
  one := hone
  entries := by
    intro hosts certs e he id hid
    rw [show domainOf (docOf w id) = a.domain from htied id hid]
    exact he

end Answer

/-- The texts of a save sheet were typed into fields of one document, the one whose domain it
names. -/
def Request.SaveFits (r : Request Id) (sheet : SaveSheet) : Prop :=
  ∃ password, r.fields.password = some password ∧
    valueOf r.windows password = some sheet.password ∧ Tied r.windows sheet.domain password ∧
    (sheet.username ≠ "" → ∃ username, r.fields.box = some username ∧
      valueOf r.windows username = some sheet.username ∧
      Tied r.windows sheet.domain username ∧ docOf r.windows username = docOf r.windows password)

end

/-- The first username field, or else the last plain one. -/
def boxOf (l : List (Placed Id)) : Option (Placed Id) :=
  (l.find? (·.usernameBox)).or (l.reverse.find? (·.plainBox))

/-- The leading field of a form lies under its first domain, and the username field before a
password in the document of the password. -/
structure Together (w : Windows Id) : Prop where
  password : ∀ x, w.placed.find? (·.passwordBox) = some x →
    x.UnderFirst w ∧ ∀ u, boxOf (beforePassword w.placed) = some u → u.doc = x.doc
  code : w.placed.find? (·.passwordBox) = none →
    ∀ x, w.placed.find? (·.codeBox) = some x → x.UnderFirst w
  username : w.placed.find? (·.passwordBox) = none → w.placed.find? (·.codeBox) = none →
    ∀ u, boxOf w.placed = some u → u.UnderFirst w

section

variable {w : Windows Id} {r : Request Id}

/-- What the walk finds is read view by view. -/
theorem fields_eq (hr : r.windows = w) : r.fields = readAll {} w.placed := by
  rw [Request.fields, hr]
  exact walkAll_eq none [] 0 {} w.roots

/-- The domain handed over is the first one. -/
theorem fields_handed (hr : r.windows = w) : r.fields.handed = w.firstDomain.getD "" := by
  rw [Fields.handed, fields_eq hr, readAll_webDomain]
  rfl

/-- The password field is the first one. -/
theorem fields_password (hr : r.windows = w) :
    r.fields.password = (w.placed.find? (·.passwordBox)).bind (·.view.autofillId) := by
  rw [fields_eq hr, readAll_password]
  rfl

theorem fields_codeBox (hr : r.windows = w) :
    r.fields.codeBox = (w.placed.find? (·.codeBox)).bind (·.view.autofillId) := by
  rw [fields_eq hr, readAll_codeBox]
  rfl

theorem fields_phraseBox (hr : r.windows = w) :
    r.fields.phraseBox = (w.placed.find? (·.phraseBox)).bind (·.view.autofillId) := by
  rw [fields_eq hr, readAll_phraseBox]
  rfl

/-- The box is one of the fields. -/
theorem boxOf_mem {l : List (Placed Id)} {u : Placed Id} (h : boxOf l = some u) :
    u ∈ l ∧ ∃ id, u.view.autofillId = some id := by
  rcases Option.or_eq_some_iff.mp h with hu | ⟨-, hu⟩
  · exact ⟨List.mem_of_find?_eq_some hu, id_of_find isField_of_usernameBox hu⟩
  · exact ⟨List.mem_reverse.mp (List.mem_of_find?_eq_some hu), id_of_find isField_of_plainBox hu⟩

theorem fields_box (hr : r.windows = w) :
    r.fields.box = (boxOf (beforePassword w.placed)).bind (·.view.autofillId) := by
  rw [Fields.box, fields_eq hr, readAll_username _ _ rfl, readAll_textBefore _ _ rfl, boxOf]
  cases hu : (beforePassword w.placed).find? (·.usernameBox) with
  | none => simp
  | some u =>
    obtain ⟨id, hid⟩ := id_of_find isField_of_usernameBox hu
    simp [hid]

/-- The views before the password are views. -/
theorem beforePassword_mem {l : List (Placed Id)} {x : Placed Id} (h : x ∈ beforePassword l) :
    x ∈ l := (List.takeWhile_prefix _).subset h

theorem beforePassword_of_none {l : List (Placed Id)}
    (h : l.find? (·.passwordBox) = none) : beforePassword l = l := by
  have hno : ∀ x ∈ l, x.passwordBox = false := by simpa using h
  clear h
  unfold beforePassword
  induction l with
  | nil => rfl
  | cons x l ih =>
    have hrest := ih fun y hy => hno y (List.mem_cons_of_mem x hy)
    rw [List.takeWhile_cons, hno x List.mem_cons_self, hrest]
    rfl

end

/-- A form with no domain has no document. -/
theorem doc_none_of_firstDomain {w : Windows Id} {x : Placed Id} (hx : x ∈ w.placed)
    (h : w.firstDomain = none) : x.doc = none := by
  cases hd : x.doc with
  | none => rfl
  | some d =>
    obtain hnone | ⟨y, hy, hdomain⟩ := doc_from_all w.roots hx hd
    · cases hnone
    · have hy' := List.findSome?_eq_none_iff.mp h y hy
      rw [hdomain] at hy'
      cases hy'

/-! ### The answers of a form -/

section

variable [DecidableEq Id] {w : Windows Id} {r : Request Id}

/-- A field is tied to the domain exactly when it lies under the first one. -/
theorem tied_iff {x : Placed Id} (hx : x ∈ w.placed) {id : Id}
    (hid : x.view.autofillId = some id) (hr : r.windows = w) :
    Tied w r.fields.handed id ↔ x.UnderFirst w := by
  rw [Tied, docOf_eq w hx hid, fields_handed hr]
  exact domainOf_eq_iff w hx

/-- The fields of a login answer. -/
theorem login_fits_iff (hr : r.windows = w) {x : Placed Id}
    (hx : w.placed.find? (·.passwordBox) = some x) {id : Id} (hid : x.view.autofillId = some id) :
    (Answer.login r.fields.handed r.caller r.fields.box id).Fits w ↔
      x.UnderFirst w ∧ ∀ u, boxOf (beforePassword w.placed) = some u → u.doc = x.doc := by
  have hmem := List.mem_of_find?_eq_some hx
  have hbox := fields_box hr
  constructor
  · intro h
    refine ⟨(tied_iff hmem hid hr).mp (h.tied id (by simp [Answer.picked])), fun u hu => ?_⟩
    obtain ⟨humem, uid, huid⟩ := boxOf_mem hu
    rw [hu] at hbox
    have hpicked : r.fields.box = some uid := hbox.trans huid
    have hone := h.one uid (by simp [Answer.picked, hpicked]) id (by simp [Answer.picked])
    rwa [docOf_eq w (beforePassword_mem humem) huid, docOf_eq w hmem hid] at hone
  · rintro ⟨hfirst, hsame⟩
    -- every field of the answer lies in the document of the password
    have hdoc : ∀ i ∈ (Answer.login r.fields.handed r.caller r.fields.box id).picked,
        docOf w i = x.doc := by
      intro i hi
      simp only [Answer.picked, List.mem_append, Option.mem_toList, List.mem_singleton] at hi
      rcases hi with hi | rfl
      · rw [hbox] at hi
        obtain ⟨u, hu, hui⟩ := Option.bind_eq_some_iff.mp hi
        rw [docOf_eq w (beforePassword_mem (boxOf_mem hu).1) hui]
        exact hsame u hu
      · exact docOf_eq w hmem hid
    refine .of_tied w (fun i hi => ?_) fun i hi j hj => (hdoc i hi).trans (hdoc j hj).symm
    have htied := (tied_iff hmem hid hr).mpr hfirst
    unfold Tied at htied ⊢
    rw [hdoc i hi, ← docOf_eq w hmem hid]
    exact htied

/-- The field of an answer with one. -/
theorem single_fits_iff (hr : r.windows = w) {x : Placed Id} (hx : x ∈ w.placed) {id : Id}
    (hid : x.view.autofillId = some id) {a : Answer Id} (hpicked : a.picked = [id])
    (hdomain : a.domain = r.fields.handed) : a.Fits w ↔ x.UnderFirst w := by
  rw [← tied_iff hx hid hr, ← hdomain]
  constructor
  · exact fun h => h.tied id (by simp [hpicked])
  · intro h
    refine .of_tied w (fun i hi => ?_) fun i hi j hj => ?_
    · obtain rfl : i = id := by simpa [hpicked] using hi
      exact h
    · obtain rfl : i = id := by simpa [hpicked] using hi
      obtain rfl : j = i := by simpa [hpicked] using hj
      rfl

/-- An answer without a row fits. -/
theorem nothing_fits : (Answer.nothing : Answer Id).Fits w :=
  .of_tied w (fun i hi => by cases hi) fun i hi => by cases hi

/-- So a fill fits when the leading fields do. -/
theorem fill_fits (h : Together w) (packageName : String) (hr : r.windows = w) :
    (onFillRequest packageName (some r)).Fits w := by
  simp only [onFillRequest]
  split
  · exact nothing_fits
  have hbox := fields_box hr
  -- the branches of `fill`: a password box, else a code box, else a name's
  cases hp : w.placed.find? (·.passwordBox) with
  | some x =>
    obtain ⟨id, hid⟩ := id_of_find isField_of_passwordBox hp
    have hpassword : r.fields.password = some id := by rw [fields_password hr, hp]; exact hid
    simp only [hpassword]
    exact (login_fits_iff hr hp hid).mpr (h.password x hp)
  | none =>
    have hpassword : r.fields.password = none := by rw [fields_password hr, hp]; rfl
    rw [beforePassword_of_none hp] at hbox
    simp only [hpassword]
    cases hc : w.placed.find? (·.codeBox) with
    | some x =>
      obtain ⟨id, hid⟩ := id_of_find isField_of_codeBox hc
      have hcode : r.fields.codeBox = some id := by rw [fields_codeBox hr, hc]; exact hid
      simp only [hcode]
      exact (single_fits_iff hr (List.mem_of_find?_eq_some hc) hid rfl rfl).mpr (h.code hp x hc)
    | none =>
      have hcode : r.fields.codeBox = none := by rw [fields_codeBox hr, hc]; rfl
      simp only [hcode]
      split
      · -- a phrase row is for a form with no domain, so with no document
        rename_i phrase hphrase
        obtain ⟨hfound, hweb⟩ := Option.filter_eq_some_iff.mp hphrase
        obtain ⟨x, hx, hid⟩ := Option.bind_eq_some_iff.mp ((fields_phraseBox hr).symm.trans hfound)
        have hmem := List.mem_of_find?_eq_some hx
        have hnone : w.firstDomain = none := by
          have hweb : r.fields.webDomain = none := by simp at hweb; exact hweb.2
          rw [fields_eq hr, readAll_webDomain] at hweb
          exact hweb
        refine (single_fits_iff hr hmem hid rfl ?_).mpr ?_
        · rw [fields_handed hr, hnone]
          rfl
        · rw [Placed.UnderFirst, hnone, doc_none_of_firstDomain hmem hnone]
          rfl
      · split
        · rename_i id hid
          obtain ⟨hfound, -⟩ := Option.filter_eq_some_iff.mp hid
          obtain ⟨u, hu, huid⟩ := Option.bind_eq_some_iff.mp (hbox.symm.trans hfound)
          exact (single_fits_iff hr (boxOf_mem hu).1 huid rfl rfl).mpr (h.username hp hc u hu)
        · exact nothing_fits

/-- Each request by hand of another app shows which fields the form's answer is about. -/
theorem together_of_fits
    (h : ∀ r : Request Id, r.windows = w → (onFillRequest "" (some r)).Fits w) : Together w := by
  let r : Request Id := { windows := w, caller := "app", manual := true }
  have hr : r.windows = w := rfl
  have hfits := h r hr
  have hcaller : ¬ r.caller = "" := by simp [r]
  simp only [onFillRequest, if_neg hcaller] at hfits
  have hbox := fields_box hr
  refine ⟨fun x hx => ?_, fun hp x hx => ?_, fun hp hc u hu => ?_⟩
  · -- the field that is filled is the first of its kind
    obtain ⟨id, hid⟩ := id_of_find isField_of_passwordBox hx
    have hpassword : r.fields.password = some id := by rw [fields_password hr, hx]; exact hid
    simp only [hpassword] at hfits
    exact (login_fits_iff hr hx hid).mp hfits
  · have hpassword : r.fields.password = none := by rw [fields_password hr, hp]; rfl
    obtain ⟨id, hid⟩ := id_of_find isField_of_codeBox hx
    have hcode : r.fields.codeBox = some id := by rw [fields_codeBox hr, hx]; exact hid
    simp only [hpassword, hcode] at hfits
    exact (single_fits_iff hr (List.mem_of_find?_eq_some hx) hid rfl rfl).mp hfits
  · have hpassword : r.fields.password = none := by rw [fields_password hr, hp]; rfl
    have hcode : r.fields.codeBox = none := by rw [fields_codeBox hr, hc]; rfl
    rw [beforePassword_of_none hp, hu] at hbox
    obtain ⟨hmem, id, hid⟩ := boxOf_mem hu
    have hfound : r.fields.box = some id := hbox.trans hid
    simp only [hpassword, hcode] at hfits
    split at hfits
    · rename_i phrase hphrase
      have hweb : r.fields.webDomain = none := by
        have := (Option.filter_eq_some_iff.mp hphrase).2
        simp at this
        exact this.2
      have hnone : w.firstDomain = none := by
        rw [fields_eq hr, readAll_webDomain] at hweb
        exact hweb
      rw [Placed.UnderFirst, hnone, doc_none_of_firstDomain hmem hnone]
      rfl
    · rw [hfound] at hfits
      exact (single_fits_iff hr hmem hid rfl rfl).mp hfits

theorem save_fits (h : Together w) (hr : r.windows = w) {sdk : Nat} {sheet : SaveSheet}
    (hs : onSaveRequest sdk (some r) = some sheet) : r.SaveFits sheet := by
  simp only [onSaveRequest] at hs
  split at hs
  · cases hs
  split at hs
  · cases hs
  rename_i text htext
  obtain ⟨htext, -⟩ := Option.filter_eq_some_iff.mp htext
  obtain ⟨id, hpassword, hvalue⟩ := Option.bind_eq_some_iff.mp htext
  obtain rfl := Option.some.inj hs
  obtain ⟨x, hx, hid⟩ := Option.bind_eq_some_iff.mp ((fields_password hr).symm.trans hpassword)
  have hfits := (login_fits_iff hr hx hid).mpr (h.password x hx)
  have hpicked : id ∈ (Answer.login r.fields.handed r.caller r.fields.box id).picked := by
    simp [Answer.picked]
  subst hr
  refine ⟨id, hpassword, hvalue, hfits.tied id hpicked, fun hne => ?_⟩
  cases hbox : r.fields.box with
  | none => simp [hbox] at hne
  | some u =>
    have hupicked : u ∈ (Answer.login r.fields.handed r.caller r.fields.box id).picked := by
      simp [Answer.picked, hbox]
    refine ⟨u, rfl, ?_, hfits.tied u hupicked, hfits.one u hupicked id hpicked⟩
    cases hu : valueOf r.windows u with
    | none => simp [hbox, hu] at hne
    | some value => simp [hu]

/-- What autofill answers about a form, and saves of it, lies in the document whose domain it names,
exactly when the leading fields lie together under the first domain. -/
theorem answers_tied_iff (w : Windows Id) :
    (∀ packageName (r : Request Id), r.windows = w →
      (onFillRequest packageName (some r)).Fits w ∧
        ∀ sdk sheet, onSaveRequest sdk (some r) = some sheet → r.SaveFits sheet) ↔
      Together w := by
  constructor
  · exact fun h => together_of_fits fun r hr => (h "" r hr).1
  · exact fun h packageName r hr => ⟨fill_fits h packageName hr, fun sdk sheet => save_fits h hr⟩

/-- A bank's page with the frame of another site in it, and a password field in the frame. -/
def pageWithFrame : Windows Nat where
  roots :=
    [.node { webDomain := some "bank.example" }
      [.node { webDomain := some "ads.example" }
        [.node { autofillId := some 0, isText := true, inputType := 0x81 } []]]]
  distinct := by decide +kernel

/-- A frame of another site is given the password's domain. -/
theorem frame_gets_the_password :
    ¬ ∀ (w : Windows Nat) (packageName : String) (r : Request Nat), r.windows = w →
      (onFillRequest packageName (some r)).Fits w ∧
        ∀ sdk sheet, onSaveRequest sdk (some r) = some sheet → r.SaveFits sheet := by
  intro h
  have htogether := together_of_fits fun r hr => (h pageWithFrame "" r hr).1
  let box : Placed Nat :=
    ⟨{ autofillId := some 0, isText := true, inputType := 0x81 }, some ⟨[0, 0], "ads.example"⟩⟩
  have hfirst : pageWithFrame.placed.find? (·.passwordBox) = some box := rfl
  have hunder := (htogether.password box hfirst).1
  have hdomain : pageWithFrame.firstDomain = some "bank.example" := rfl
  rw [Placed.UnderFirst, hdomain] at hunder
  simp [box] at hunder

end

end OkRn.Passwords
