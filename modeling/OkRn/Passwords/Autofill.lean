/-
OkRn/Passwords/Autofill.lean

The phone's autofill asks about every form: a forest of view nodes.

`walk` goes over it once and keeps the first domain, the first password field, the
username field before it, the first code box and the first phrase box;
`onFillRequest` answers with one row for what was found, and `onSaveRequest` reads
the texts of the same fields.  `matching` (match.ts) says which entries belong to
the form.

Names and tests are Kotlin's and Java's; of the library that knows the public suffixes
only `site` is used (`Hosts`).
-/
import Mathlib.Data.List.Infix

namespace OkRn.Passwords

/-! ### View nodes -/

/-- A node's HTML. -/
structure HtmlInfo where
  tag : String
  attributes : List (String × String)

/-- A view node without its children. -/
structure View (Id : Type) where
  webDomain : Option String := none
  autofillId : Option Id := none
  /-- `autofillType == View.AUTOFILL_TYPE_TEXT`. -/
  isText : Bool := false
  visible : Bool := true
  autofillHints : Option (List String) := none
  htmlInfo : Option HtmlInfo := none
  inputType : BitVec 32 := 0
  idEntry : Option String := none
  hint : Option String := none
  /-- The text of its `autofillValue`. -/
  textValue : Option String := none

/-- A node with its children. -/
inductive ViewNode (Id : Type)
  | node (view : View Id) (children : List (ViewNode Id))

/-- A node with a domain of its own: where it stands in the forest, and the domain. -/
structure Doc where
  place : List Nat
  domain : String
  deriving DecidableEq

/-- A view, and the nearest node around it (or itself) that has a domain. -/
structure Placed (Id : Type) where
  view : View Id
  doc : Option Doc

/-- Its own domain, if it has one that is not empty. -/
def View.domain {Id : Type} (v : View Id) : Option String := v.webDomain.filter (· ≠ "")

/-- The document that a view lies in. -/
def View.docWithin {Id : Type} (v : View Id) (outer : Option Doc) (place : List Nat) : Option Doc :=
  (v.domain.map (Doc.mk place ·)).or outer

mutual

/-- The views below a node in the order of the walk, each with its document. -/
def placed {Id : Type} (outer : Option Doc) (place : List Nat) : ViewNode Id → List (Placed Id)
  | .node view children =>
      ⟨view, view.docWithin outer place⟩ ::
        placedAll (view.docWithin outer place) place 0 children

/-- The views of some nodes, in the order of the walk. -/
def placedAll {Id : Type} (outer : Option Doc) (place : List Nat) (i : Nat) :
    List (ViewNode Id) → List (Placed Id)
  | [] => []
  | node :: nodes => placed outer (place ++ [i]) node ++ placedAll outer place (i + 1) nodes

end

/-- The roots of a form's windows.  Each view has an id of its own. -/
structure Windows (Id : Type) where
  roots : List (ViewNode Id)
  distinct : ((placedAll none [] 0 roots).filterMap (·.view.autofillId)).Nodup

/-- All views of a form, in the order of the walk. -/
def Windows.placed {Id : Type} (w : Windows Id) : List (Placed Id) := placedAll none [] 0 w.roots

/-! ### What a field calls itself -/

/-- The characters that `ignoreCase` takes for one. -/
def foldCase (c : Char) : Char :=
  if c = 'İ' ∨ c = 'ı' then 'i'
  else if c = 'ſ' then 's'
  else if c = '\u212A' then 'k'  -- the Kelvin sign
  else c.toLower

/-- A text without its case. -/
def folded (s : String) : List Char := s.toList.map foldCase

/-- The same but for the case. -/
def equalsIgnoreCase (s t : String) : Bool := folded s == folded t

/-- It contains the other, but for the case. -/
def containsIgnoreCase (s t : String) : Bool :=
  (folded s).tails.any fun cs => (folded t).isPrefixOf cs

/-- A piece of a pattern: a character, or `.?`. -/
inductive Piece
  | char (c : Char)
  | optional

/-- A character that a dot does not match. -/
def lineEnd (c : Char) : Bool :=
  c == '\n' || c == '\r' || c == '\u0085' || c == '\u2028' || c == '\u2029'

/-- A pattern matches here. -/
def matchesHere : List Piece → List Char → Bool
  | [], _ => true
  | .char c :: ps, cs =>
      match cs with
      | [] => false
      | c' :: cs' => c == c' && matchesHere ps cs'
  | .optional :: ps, cs =>
      matchesHere ps cs || match cs with
        | [] => false
        | c :: cs' => !lineEnd c && matchesHere ps cs'

/-- A pattern of the source: `_` is its `.?`. -/
def pattern (s : String) : List Piece :=
  s.toList.map fun c => if c = '_' then .optional else .char c

/-- One of the patterns matches somewhere. -/
def containsMatchIn (alternatives : List String) (s : String) : Bool :=
  (folded s).tails.any fun cs => alternatives.any fun a => matchesHere (pattern a) cs

namespace View

variable {Id : Type} (v : View Id)

/-- The view's hints. -/
def hints : List String := v.autofillHints.getD []

/-- `htmlAttr`. -/
def htmlAttr (name : String) : Option String :=
  v.htmlInfo.bind fun html =>
    (html.attributes.find? fun a => equalsIgnoreCase a.1 name).map (·.2)

/-- An attribute has the value. -/
def attrIs (name value : String) : Bool :=
  (v.htmlAttr name).any fun a => equalsIgnoreCase a value

/-- The class of the input type. -/
def inputClass : BitVec 32 := v.inputType &&& 0xf

/-- Its variation. -/
def variation : BitVec 32 := v.inputType &&& 0xff0

/-- `isPassword`. -/
def isPassword : Bool :=
  v.hints.any (containsIgnoreCase · "password") ||
  v.attrIs "type" "password" ||
  if v.inputClass = 1 then v.variation == 0x80 || v.variation == 0xe0 || v.variation == 0x90
  else if v.inputClass = 2 then v.variation == 0x10
  else false

/-- `isCodeBox`. -/
def isCodeBox : Bool :=
  v.hints.any (containsMatchIn ["otp", "one-time-code", "2fa"]) ||
  v.attrIs "autocomplete" "one-time-code" ||
  (v.idEntry.toList ++ ["name", "id"].filterMap v.htmlAttr).any
    (containsMatchIn ["otp", "totp", "2fa", "mfa", "one_time", "auth_code", "verification_code"])

/-- `isPhraseBox`. -/
def isPhraseBox : Bool :=
  v.htmlInfo.any (fun html => equalsIgnoreCase html.tag "textarea") ||
  v.attrIs "type" "textarea" ||
  v.inputType &&& 0x20000 != 0 ||
  (v.idEntry.toList ++ v.hint.toList ++ v.hints ++
      ["name", "id", "placeholder", "aria-label"].filterMap v.htmlAttr).any
    (containsMatchIn ["seed", "phrase", "mnemonic", "recovery", "secret words"])

/-- `isUsername`. -/
def isUsername : Bool :=
  v.hints.any (fun h => containsIgnoreCase h "username" || containsIgnoreCase h "email") ||
  (["type", "autocomplete", "name", "id"].filterMap v.htmlAttr).any (fun a =>
    containsIgnoreCase a "email" || containsIgnoreCase a "user" || containsIgnoreCase a "login") ||
  (v.inputClass == 1 && (v.variation == 0x20 || v.variation == 0xd0))

end View

/-! ### The walk -/

/-- What the walk has found. -/
structure Fields (Id : Type) where
  username : Option Id := none
  password : Option Id := none
  /-- The last plain text field before the password. -/
  textBefore : Option Id := none
  webDomain : Option String := none
  codeBox : Option Id := none
  phraseBox : Option Id := none
  texts : Nat := 0

section

variable {Id : Type}

/-- A text field of the walk. -/
def readField (v : View Id) (id : Id) (f : Fields Id) : Fields Id :=
  let f := { f with
    texts := f.texts + 1
    codeBox := if f.codeBox.isNone && v.isCodeBox then some id else f.codeBox
    phraseBox := if f.phraseBox.isNone && v.isPhraseBox then some id else f.phraseBox }
  if v.isPassword then
    if f.password.isNone then { f with password := some id } else f
  else if f.password.isNone && v.isUsername then
    if f.username.isNone then { f with username := some id } else f
  else if f.password.isNone && v.visible then { f with textBefore := some id }
  else f

/-- The walk reads a view. -/
def readView (v : View Id) (f : Fields Id) : Fields Id :=
  let f := { f with webDomain := f.webDomain.or v.domain }
  match v.autofillId with
  | some id => if v.isText then readField v id f else f
  | none => f

mutual

/-- The walk over a node. -/
def walk (f : Fields Id) : ViewNode Id → Fields Id
  | .node view children => walkAll (readView view f) children

/-- The walk over some nodes. -/
def walkAll (f : Fields Id) : List (ViewNode Id) → Fields Id
  | [] => f
  | node :: nodes => walkAll (walk f node) nodes

end

variable [DecidableEq Id]

mutual

/-- `find` of `valueOf`. -/
def findText (id : Id) : ViewNode Id → Option String
  | .node view children =>
      if view.autofillId = some id then view.textValue else findTextIn id children

/-- The text of a view among some nodes. -/
def findTextIn (id : Id) : List (ViewNode Id) → Option String
  | [] => none
  | node :: nodes => (findText id node).or (findTextIn id nodes)

end

/-! ### The answers -/

/-- What one answer hands to the sheet, or to the phone. -/
inductive Answer (Id : Type)
  | nothing
  | login (domain caller : String) (username : Option Id) (password : Id)
  | code (domain caller : String) (box : Id)
  | phrase (caller : String) (box : Id)
  | username (domain caller : String) (box : Id)

/-- A fill or save request about a form: its windows' roots, and the app that shows it. -/
structure Request (Id : Type) where
  windows : Windows Id
  caller : String
  manual : Bool := false

/-- What the walk finds of a request. -/
def Request.fields (r : Request Id) : Fields Id := walkAll {} r.windows.roots

/-- `f.username ?: f.textBefore`. -/
def Fields.box (f : Fields Id) : Option Id := f.username.or f.textBefore

/-- `f.webDomain ?: ""`. -/
def Fields.handed (f : Fields Id) : String := f.webDomain.getD ""

/-- A request whose structure is missing is answered with nothing. -/
def onFillRequest (packageName : String) (request : Option (Request Id)) : Answer Id :=
  match request with
  | none => .nothing
  | some r =>
    if r.caller = packageName then .nothing
    else
      let f := r.fields
      match f.password with
      | some password => .login f.handed r.caller f.box password
      | none =>
        match f.codeBox with
        | some code => .code f.handed r.caller code
        | none =>
          match f.phraseBox.filter fun _ => f.texts = 1 && f.webDomain.isNone with
          | some phrase => .phrase r.caller phrase
          | none =>
            match f.box.filter fun _ => r.manual with
            | some box => .username f.handed r.caller box
            | none => .nothing

/-- `valueOf`. -/
def valueOf (windows : Windows Id) (id : Id) : Option String := findTextIn id windows.roots

/-- What the save sheet is opened with. -/
structure SaveSheet where
  domain : String
  package : String
  username : String
  password : String

/-- `onSaveRequest`; the sheet that is shown, if one is. -/
def onSaveRequest (sdk : Nat) (request : Option (Request Id)) : Option SaveSheet :=
  match request with
  | none => none
  | some r =>
    if sdk < 28 then none
    else
      let f := r.fields
      match (f.password.bind (valueOf r.windows)).filter (· ≠ "") with
      | none => none
      | some password =>
        some
          { domain := f.handed
            package := r.caller
            username := (f.box.bind (valueOf r.windows)).getD ""
            password := password }

end

/-! ### Which entries belong to the form -/

/-- The form that a fill is for. -/
structure FormTarget where
  domain : String
  packageName : String
  certs : List String

/-- An app that an entry belongs to. -/
structure AppLink where
  package : String
  cert : String

/-- An entry, as far as matching reads it. -/
structure Entry where
  kind : String
  urls : List String := []
  androidApps : List AppLink := []

/-- What match.ts uses of the language and of tldts. -/
structure Hosts where
  trim : List Char → List Char
  toLowerCase : List Char → List Char
  /-- `siteOf`. -/
  site : List Char → Option (List Char)

/-- The entry belongs to the form's app. -/
def linksApp (e : Entry) (form : FormTarget) : Bool :=
  form.packageName != "" &&
    e.androidApps.any fun a => a.package == form.packageName && form.certs.contains a.cert

/-- A character of a URL's scheme. -/
def schemeChar (c : Char) : Bool :=
  ('a' ≤ c && c ≤ 'z') || c.isDigit || c == '+' || c == '.' || c == '-'

/-- `.replace(/^[a-z][a-z0-9+.-]*:\/\//, '')`. -/
def dropScheme (url : List Char) : List Char :=
  match url with
  | c :: _ =>
      let rest := url.dropWhile schemeChar
      if 'a' ≤ c && c ≤ 'z' && "://".toList.isPrefixOf rest then rest.drop 3 else url
  | [] => url

/-- `.replace(/:\d+$/, '')`. -/
def dropPort (host : List Char) : List Char :=
  match host.reverse.span Char.isDigit with
  | (_ :: _, ':' :: name) => name.reverse
  | _ => host

/-- `.replace(/^www\./, '')`. -/
def dropWww (host : List Char) : List Char :=
  if "www.".toList.isPrefixOf host then host.drop 4 else host

section

variable (hosts : Hosts)

/-- `hostOf`. -/
def hostOf (url : List Char) : List Char :=
  let bare := dropScheme (hosts.toLowerCase (hosts.trim url))
  dropWww (dropPort (bare.takeWhile fun c => !(c == '/' || c == '?' || c == '#')))

/-- `/^android(app)?:\/\//i`. -/
def isAppUrl (url : List Char) : Bool :=
  ["android://", "androidapp://"].any fun p => p.toList.isPrefixOf ((hosts.trim url).map Char.toLower)

/-- `matchesSite`. -/
def matchesSite (entryUrl domain : String) : Bool :=
  if isAppUrl hosts entryUrl.toList then false
  else
    let want := hostOf hosts domain.toList
    let have_ := hostOf hosts entryUrl.toList
    if want.isEmpty || have_.isEmpty then false
    else if want = have_ then true
    else (hosts.site want).isSome && hosts.site want == hosts.site have_

/-- The entry belongs to the form. -/
def belongs (e : Entry) (form : FormTarget) : Bool :=
  if form.domain ≠ "" then e.urls.any (matchesSite hosts · form.domain) else linksApp e form

/-- `matching`. -/
def matching (entries : List Entry) (form : FormTarget) : List Entry :=
  entries.filter fun e => (e.kind == "login" || e.kind == "derived") && belongs hosts e form

end

end OkRn.Passwords
