/-
OkRn/Fido/Passkey.lean

What a passkey press shows: from the native side's event to the press sheet.

The native side names the command with the words of the standard
(`authenticatorMakeCredential`), the app compares with `makeCredential`; and the
bytes it hands over start with the command byte, which the app decodes as CBOR.
So no event gets its site (`onCtapRequest_rpId`) and no request is ever noted for
the sheet (`onCtapRequest_noted`): the sheet is always the one about nothing.

The press itself is one switch for all requests.  Each handler turns it off when it
ends, whoever's press is up.

`presses_are_their_own_iff`: the sites and presses of a run are right exactly when
every site in it is the empty one, nobody is asked to register, and no handler ends
while the key waits for a press.
-/
import OkRn.Lib.Along

namespace OkRn.Fido

/-! ### CBOR, as decoded -/

/-- A key of a CBOR map. -/
inductive Key
  | int (n : Int)
  | text (s : String)
  deriving DecidableEq

/-- A decoded item; what is no map, no text and not null is all one here. -/
inductive Cbor
  | text (s : String)
  | map (entries : List (Key × Cbor))
  | null
  | other

namespace Cbor

/-- `value instanceof Map ? value.get(k) : null`. -/
def get (k : Key) : Cbor → Option Cbor
  | map entries => entries.lookup k
  | _ => none

/-- `typeof value === 'string' ? value : null`. -/
def asText : Cbor → Option String
  | text s => some s
  | _ => none

/-- CBOR's null. -/
def isNull : Cbor → Bool
  | null => true
  | _ => false

end Cbor

/-- The `id` of the `rp` of a makeCredential. -/
def registerRp (value : Cbor) : Option String :=
  (value.get (.int 2)).bind fun rp => (rp.get (.text "id")).bind Cbor.asText

/-- The `rpId` of a getAssertion. -/
def signInRp (value : Cbor) : Option String := (value.get (.int 1)).bind Cbor.asText

/-- The user's `name`, else its `displayName`. -/
def userOf (value : Cbor) : Option String :=
  ((value.get (.int 3)).bind fun user =>
    (((user.get (.text "name")).filter (!·.isNull)).or (user.get (.text "displayName"))).bind
      Cbor.asText).filter fun name => name ≠ ""

/-! ### The requests -/

/-- The two commands that ask for a press. -/
inductive Kind
  | makeCredential
  | getAssertion
  deriving DecidableEq

namespace Kind

/-- The command byte, in the standard's numbers. -/
def byte : Kind → UInt8
  | makeCredential => 0x01
  | getAssertion => 0x02

/-- What the app calls it. -/
def command : Kind → String
  | makeCredential => "makeCredential"
  | getAssertion => "getAssertion"

/-- The relying party's id, where this kind of request carries it. -/
def rp : Kind → Cbor → Option String
  | makeCredential => registerRp
  | getAssertion => signInRp

/-- Only a makeCredential names its user. -/
def user : Kind → Cbor → Option String
  | makeCredential => userOf
  | getAssertion => fun _ => none

end Kind

variable {decode : List UInt8 → Option Cbor}

/-- A request with a relying party: what follows its command byte decodes. -/
structure Request (decode : List UInt8 → Option Cbor) where
  kind : Kind
  cbor : List UInt8
  value : Cbor
  rpId : String
  decoded : decode cbor = some value
  named : kind.rp value = some rpId

namespace Request

/-- What the native side assembled. -/
def payload (r : Request decode) : List UInt8 := r.kind.byte :: r.cbor

/-- The account that a request is for. -/
def user (r : Request decode) : Option String := r.kind.user r.value

end Request

/-! ### The event -/

/-- `ctap2CommandName`. -/
def ctap2CommandName (command : UInt8) : String :=
  if command = 0x01 then "authenticatorMakeCredential"
  else if command = 0x02 then "authenticatorGetAssertion"
  else if command = 0x04 then "authenticatorGetInfo"
  else if command = 0x06 then "authenticatorClientPIN"
  else if command = 0x07 then "authenticatorReset"
  else if command = 0x08 then "authenticatorGetNextAssertion"
  else ""

/-- What the native side emits of a message; `hex` stands for its bytes. -/
structure CtapRequestEvent where
  commandName : String
  hex : List UInt8
  rpId : String
  deriving DecidableEq

/-- The event of a CTAP2 message, as `onCharacteristicWriteRequest` builds it. -/
def emitted (payload : List UInt8) : CtapRequestEvent where
  commandName := (payload.head?.map ctap2CommandName).getD ""
  hex := payload
  rpId := ""

/-- `rpIdFromPayload`. -/
def rpIdFromPayload (decode : List UInt8 → Option Cbor) (commandName : String)
    (hex : List UInt8) : String :=
  if hex = [] then ""
  else
    match decode hex with
    | none => ""
    | some value =>
        -- the app's names of the commands, not those of the native side
        if commandName = "makeCredential" then (registerRp value).getD ""
        else if commandName = "getAssertion" then (signInRp value).getD ""
        else ""

/-- `userFromPayload`. -/
def userFromPayload (decode : List UInt8 → Option Cbor) (hex : List UInt8) : Option String :=
  if hex = [] then none else (decode hex).bind userOf

/-- `FidoAsk`. -/
structure FidoAsk where
  command : String
  rpId : String
  user : Option String
  time : Nat
  deriving DecidableEq

/-- `ensureSubscribed`: the event with its site, and what is noted for the press sheet. -/
def onCtapRequest (decode : List UInt8 → Option Cbor) (now : Nat) (event : CtapRequestEvent) :
    CtapRequestEvent × Option FidoAsk :=
  let withRp :=
    if event.rpId ≠ "" then event
    else { event with rpId := rpIdFromPayload decode event.commandName event.hex }
  (withRp,
    if withRp.commandName = "makeCredential" ∨ withRp.commandName = "getAssertion" then
      some {
        command := withRp.commandName
        rpId := withRp.rpId
        user :=
          if withRp.commandName = "makeCredential" then userFromPayload decode event.hex else none
        time := now }
    else none)

/-- The native side names the command as the standard does. -/
theorem emitted_commandName (r : Request decode) :
    (emitted r.payload).commandName = "authenticatorMakeCredential" ∨
      (emitted r.payload).commandName = "authenticatorGetAssertion" := by
  unfold emitted Request.payload
  cases r.kind with
  | makeCredential => exact .inl rfl
  | getAssertion => exact .inr rfl

/-- The two halves use different names, so the app finds no site. -/
theorem rpIdFromPayload_emitted (r : Request decode) :
    rpIdFromPayload decode (emitted r.payload).commandName r.payload = "" := by
  unfold rpIdFromPayload
  split
  · rfl
  · cases decode r.payload with
    | none => rfl
    | some value =>
      rcases emitted_commandName r with h | h
      · simp [h]
      · simp [h]

@[simp] theorem onCtapRequest_rpId (now : Nat) (r : Request decode) :
    (onCtapRequest decode now (emitted r.payload)).1.rpId = "" :=
  rpIdFromPayload_emitted r

@[simp] theorem onCtapRequest_noted (now : Nat) (r : Request decode) :
    (onCtapRequest decode now (emitted r.payload)).2 = none := by
  have hname : (onCtapRequest decode now (emitted r.payload)).1.commandName =
      (emitted r.payload).commandName := rfl
  rcases emitted_commandName r with h | h
  · simp [onCtapRequest, emitted] at hname h ⊢
    simp [h]
  · simp [onCtapRequest, emitted] at hname h ⊢
    simp [h]

/-! ### The sheet -/

/-- What `FidoBody` writes. -/
structure Body where
  title : String
  site : String
  user : Option String
  deriving DecidableEq

/-- `FidoBody`; without an ask it is a sign-in to a site unknown. -/
def fidoBody (ask : Option FidoAsk) : Body :=
  let register := ask.any fun a => a.command == "makeCredential"
  { title := if register then "Register a passkey" else "Sign in with a passkey"
    site := ((ask.map FidoAsk.rpId).filter (· ≠ "")).getD "A site (it did not say which)"
    user := if register then (ask.bind FidoAsk.user).filter (· ≠ "") else none }

/-- The sheet that names the site, kind and user of this request. -/
def Request.body (r : Request decode) : Body :=
  fidoBody (some ⟨r.kind.command, r.rpId, r.user, 0⟩)

/-- With an empty id there is a right sheet about nothing, for a sign-in only. -/
theorem fidoBody_none_iff (r : Request decode) (hid : r.rpId = "") :
    fidoBody none = r.body ↔ r.kind = .getAssertion := by
  unfold Request.body
  cases hk : r.kind with
  | makeCredential => simp [fidoBody, Kind.command]
  | getAssertion => simp [fidoBody, Kind.command, hid, Option.filter]

/-! ### The handlers -/

/-- How far a request has come. -/
inductive Stage
  /-- On its way to the bridge. -/
  | called
  /-- The bridge has it, behind others. -/
  | queued
  /-- The key is on it. -/
  | answering
  /-- The key has answered; the response goes out. -/
  | answered
  | ended
  deriving DecidableEq

/-- The app's side of the requests: the note, the handlers, the switch for the press. -/
structure World (decode : List UInt8 → Option Cbor) where
  now : Nat
  lastFido : Option FidoAsk
  /-- `onRequest`, a call for each request, in the order they came. -/
  handlers : List (Request decode × Stage)
  /-- The requests, with the `rpId` of their events. -/
  events : List (Request decode × String)
  /-- `presenceNeeded`. -/
  presence : Bool
  /-- The request for which the key last asked for a press. -/
  asked : Option (Request decode)
  /-- It waits for the press. -/
  waits : Bool

/-- What can happen. -/
inductive Event (decode : List UInt8 → Option Cbor)
  | passes (ms : Nat)
  /-- A request from the target; `denied` where a gate of the bridge is shut. -/
  | arrive (r : Request decode) (denied : Bool)
  /-- Request `i` is handed to the bridge. -/
  | enters (i : Nat)
  /-- The bridge takes up request `i`; it answers one at a time. -/
  | begins (i : Nat)
  /-- A keepalive, for the request that the key is on. -/
  | keepAlive (status : Nat)
  | answers
  /-- The handler of request `i` ends: without a bridge, or with its response out or lost. -/
  | ends (i : Nat)

namespace World

/-- How far request `i` has come. -/
def stageOf (w : World decode) (i : Nat) : Option Stage := w.handlers[i]?.map Prod.snd

/-- Request `i` comes so far. -/
def setStage (w : World decode) (i : Nat) (stage : Stage) : World decode :=
  { w with handlers := w.handlers.modify i fun h => (h.1, stage) }

/-- The request that the key is on. -/
def answering (w : World decode) : Option (Request decode × Stage) :=
  w.handlers.find? fun h => h.2 == .answering

/-- Handlers that may end; the bridge answers those it has. -/
def canEnd (w : World decode) (i : Nat) : Prop :=
  w.stageOf i = some .called ∨ w.stageOf i = some .answered

instance (w : World decode) (i : Nat) : Decidable (w.canEnd i) :=
  inferInstanceAs (Decidable (_ ∨ _))

/-- A request arrives: its event is emitted, and a handler is called. -/
def arrive (w : World decode) (r : Request decode) (denied : Bool) : World decode :=
  let e := onCtapRequest decode w.now (emitted r.payload)
  { w with
    -- a request that notes nothing leaves the note of the one before
    lastFido := e.2.or w.lastFido
    events := w.events ++ [(r, e.1.rpId)]
    handlers := w.handlers ++ [(r, if denied then .ended else .called)] }

/-- `onKeepAlive`; 2 is UP_NEEDED. -/
def keepAlive (w : World decode) (status : Nat) : World decode :=
  match w.answering with
  | none => w
  | some h =>
      -- any other status only ends the wait
      if status = 2 then { w with presence := true, asked := some h.1, waits := true }
      else { w with waits := false }

/-- The key answers the request that it is on. -/
def answers (w : World decode) : World decode :=
  { w with
    handlers := w.handlers.map fun h => (h.1, if h.2 = .answering then .answered else h.2)
    waits := false }

/-- One event. -/
def step (w : World decode) : Event decode → World decode
  | .passes ms => { w with now := w.now + ms }
  | .arrive r denied => w.arrive r denied
  | .enters i => if w.stageOf i = some .called then w.setStage i .queued else w
  | .begins i =>
      if w.stageOf i = some .queued ∧ w.answering.isNone then w.setStage i .answering else w
  | .keepAlive status => w.keepAlive status
  | .answers => w.answers
  | .ends i => if w.canEnd i then { w.setStage i .ended with presence := false } else w

/-- An app that has had no request. -/
def started (decode : List UInt8 → Option Cbor) : World decode :=
  ⟨0, none, [], [], false, none, false⟩

/-- The world after a history. -/
def run (history : List (Event decode)) : World decode := history.foldl step (started decode)

/-- `fidoAskNow`. -/
def fidoAskNow (w : World decode) : Option FidoAsk :=
  w.lastFido.filter fun a => w.now - a.time < 60000

/-- The passkey part of the press sheet. -/
def sheet (w : World decode) : Option Body :=
  if w.presence then some (fidoBody w.fidoAskNow) else none

/-- Every event has its request's site; the sheet is that of the request the key asked for last,
and it is up while that request waits. -/
def Right (w : World decode) : Prop :=
  (∀ e ∈ w.events, e.2 = e.1.rpId) ∧
    (∀ body, w.sheet = some body → ∃ r, w.asked = some r ∧ body = r.body) ∧
      (w.waits = true → w.sheet.isSome = true)

/-- An event that does not go wrong: a request with an empty id, a press for a sign-in, a handler
that ends while no request waits for its press. -/
def SignsAndWaits (w : World decode) : Event decode → Prop
  | .arrive r _ => r.rpId = ""
  | .keepAlive status => status = 2 → ∀ h, w.answering = some h → h.1.kind = .getAssertion
  | .ends i => w.canEnd i → w.waits = false
  | _ => True

/-! ### What every run keeps -/

/-- What every run keeps. -/
structure Inv (w : World decode) : Prop where
  /-- Nothing is ever noted. -/
  noted : w.lastFido = none
  emitted : ∀ h ∈ w.handlers, (h.1, "") ∈ w.events
  asked : w.presence = true → ∃ r, w.asked = some r

theorem inv_started (decode : List UInt8 → Option Cbor) : Inv (started decode) where
  noted := rfl
  emitted _ h := by cases h
  asked h := by cases h

/-- A request that comes further has its event all the same. -/
theorem emitted_setStage {w : World decode} (h : ∀ x ∈ w.handlers, (x.1, "") ∈ w.events)
    (i : Nat) (stage : Stage) : ∀ x ∈ (w.setStage i stage).handlers, (x.1, "") ∈ w.events := by
  intro x hx
  obtain ⟨j, hj, rfl⟩ := List.mem_iff_getElem.mp hx
  have hlen : j < w.handlers.length := by simpa [setStage] using hj
  have hmem := h _ (List.getElem_mem hlen)
  simp only [setStage, List.getElem_modify]
  split
  · exact hmem
  · exact hmem

/-- The request the key is on is one that came. -/
theorem answering_mem {w : World decode} {h : Request decode × Stage}
    (ha : w.answering = some h) : h ∈ w.handlers := List.mem_of_find?_eq_some ha

/-- Every event keeps the invariant. -/
theorem Inv.step {w : World decode} (h : Inv w) (e : Event decode) : Inv (w.step e) := by
  -- the id of a request is set when it comes in, and not touched after that
  cases e with
  | passes ms => exact ⟨h.noted, h.emitted, h.asked⟩
  | arrive r denied =>
    refine ⟨?_, ?_, h.asked⟩
    · show ((onCtapRequest decode w.now (Fido.emitted r.payload)).2.or w.lastFido) = none
      rw [onCtapRequest_noted, h.noted]
      rfl
    · intro x hx
      rcases List.mem_append.mp hx with hx | hx
      · exact List.mem_append_left _ (h.emitted x hx)
      · rw [List.mem_singleton.mp hx]
        apply List.mem_append_right
        rw [onCtapRequest_rpId]
        exact List.mem_singleton_self _
  | enters i =>
    simp only [World.step]
    split
    · exact ⟨h.noted, emitted_setStage h.emitted i _, h.asked⟩
    · exact h
  | begins i =>
    simp only [World.step]
    split
    · exact ⟨h.noted, emitted_setStage h.emitted i _, h.asked⟩
    · exact h
  | keepAlive status =>
    simp only [World.step, keepAlive]
    split
    · exact h
    · next x hx =>
      split
      · exact ⟨h.noted, h.emitted, fun _ => ⟨x.1, rfl⟩⟩
      · exact ⟨h.noted, h.emitted, h.asked⟩
  | answers =>
    refine ⟨h.noted, ?_, h.asked⟩
    intro x hx
    obtain ⟨y, hy, rfl⟩ := List.mem_map.mp hx
    exact h.emitted y hy
  | ends i =>
    simp only [World.step]
    split
    · exact ⟨h.noted, emitted_setStage h.emitted i _, fun hp => by cases hp⟩
    · exact h

/-- The sheet never says anything of a request. -/
theorem Inv.sheet {w : World decode} (h : Inv w) :
    w.sheet = if w.presence then some (fidoBody none) else none := by
  unfold World.sheet fidoAskNow
  rw [h.noted]
  rfl

/-! ### When it is right -/

/-- A keepalive is right exactly when no one is asked to register and the press is its own. -/
theorem Right.keepAlive_iff {w : World decode} (hinv : Inv w) (h : w.Right) (status : Nat) :
    (w.keepAlive status).Right ↔ w.SignsAndWaits (.keepAlive status) := by
  have hnext : Inv (w.keepAlive status) := hinv.step (.keepAlive status)
  unfold keepAlive at hnext ⊢
  cases ha : w.answering with
  | none =>
    have hcond : w.SignsAndWaits (.keepAlive status) := fun _ x hx => by rw [ha] at hx; cases hx
    exact iff_of_true h hcond
  | some x =>
    simp only [ha] at hnext ⊢
    have hid : x.1.rpId = "" := (h.1 _ (hinv.emitted x (answering_mem ha))).symm
    -- only a request for presence brings up the sheet
    by_cases hs : status = 2
    · simp only [hs, if_true] at hnext ⊢
      have hbody := fidoBody_none_iff x.1 hid
      constructor
      · intro hright _ y hy
        obtain ⟨r, hr, hbody'⟩ := hright.2.1 _ hnext.sheet
        cases hr
        rw [ha] at hy
        cases hy
        exact hbody.mp hbody'
      · intro hcond
        refine ⟨h.1, fun body hb => ⟨x.1, rfl, ?_⟩, fun _ => rfl⟩
        rw [hnext.sheet] at hb
        cases hb
        exact hbody.mpr (hcond rfl x ha)
    · simp only [hs, if_false]
      have hcond : w.SignsAndWaits (.keepAlive status) := fun h2 => absurd h2 hs
      exact iff_of_true ⟨h.1, h.2.1, fun hw => by cases hw⟩ hcond

/-- An event keeps what is right exactly when the condition holds at it. -/
theorem Right.step_iff {w : World decode} (hinv : Inv w) (h : w.Right) (e : Event decode) :
    (w.step e).Right ↔ w.SignsAndWaits e := by
  cases e with
  | passes ms =>
    have hnext := (hinv.step (.passes ms)).sheet
    have hsame : (w.step (.passes ms)).sheet = w.sheet := by
      rw [hnext, hinv.sheet]
      rfl
    refine iff_of_true ⟨h.1, ?_, ?_⟩ trivial
    · rw [hsame]
      exact h.2.1
    · rw [hsame]
      exact h.2.2
  | arrive r denied =>
    have hnext := (hinv.step (.arrive r denied)).sheet
    have hsame : (w.step (.arrive r denied)).sheet = w.sheet := by
      rw [hnext, hinv.sheet]
      rfl
    -- the event that is raised names no site
    have hnew : (r, "") ∈ (w.step (.arrive r denied)).events := by
      apply List.mem_append_right
      rw [onCtapRequest_rpId]
      exact List.mem_singleton_self _
    constructor
    · exact fun hright => (hright.1 _ hnew).symm
    · intro hid
      refine ⟨?_, ?_, ?_⟩
      · intro e he
        rcases List.mem_append.mp he with he | he
        · exact h.1 e he
        · rw [List.mem_singleton.mp he, onCtapRequest_rpId]
          exact Eq.symm hid
      · rw [hsame]
        exact h.2.1
      · rw [hsame]
        exact h.2.2
  | enters i =>
    refine iff_of_true ?_ trivial
    simp only [World.step]
    split
    · exact h
    · exact h
  | begins i =>
    refine iff_of_true ?_ trivial
    simp only [World.step]
    split
    · exact h
    · exact h
  | keepAlive status => exact h.keepAlive_iff hinv status
  | answers => exact iff_of_true ⟨h.1, h.2.1, fun hw => by cases hw⟩ trivial
  | ends i =>
    simp only [World.step]
    by_cases hc : w.canEnd i
    · rw [if_pos hc]
      constructor
      · intro hright _
        cases hw : w.waits with
        | false => rfl
        | true => cases hright.2.2 hw
      · intro hcond
        refine ⟨h.1, fun body hb => (by cases hb), fun hw => ?_⟩
        have hoff : w.waits = false := hcond hc
        have hon : w.waits = true := hw
        rw [hoff] at hon
        cases hon
    · rw [if_neg hc]
      exact iff_of_true h fun hyes => absurd hyes hc

end World

/-! ### The result -/

/-- All along a run the sites and presses are their requests' own, exactly when every request of
it has the empty id, every press is for a sign-in, and no handler ends while a request waits for
its press. -/
theorem presses_are_their_own_iff (decode : List UInt8 → Option Cbor)
    (history : List (Event decode)) :
    (∀ past, past <+: history → (World.run past).Right) ↔
      ∀ past e, past ++ [e] <+: history → (World.run past).SignsAndWaits e :=
  holds_along_iff (World.inv_started decode) (fun _ e h => h.step e)
    ⟨fun _ he => (by cases he), fun _ hb => (by cases hb), fun hw => (by cases hw)⟩
    (fun _ e hinv h => h.step_iff hinv e) history

/-- The map `{1: "example.com"}`. -/
def siteCbor : List UInt8 :=
  [0xa1, 0x01, 0x6b, 0x65, 0x78, 0x61, 0x6d, 0x70, 0x6c, 0x65, 0x2e, 0x63, 0x6f, 0x6d]

/-- A decoder, as far as it matters for `siteCbor`. -/
def siteDecode (bytes : List UInt8) : Option Cbor :=
  if bytes = siteCbor then some (.map [(.int 1, .text "example.com")]) else none

/-- A sign-in to example.com. -/
def siteRequest : Request siteDecode where
  kind := .getAssertion
  cbor := siteCbor
  value := .map [(.int 1, .text "example.com")]
  rpId := "example.com"
  decoded := if_pos rfl
  named := rfl

/-- One sign-in, alone: its event has no site, and its press names none. -/
theorem sign_in_shows_no_site :
    (onCtapRequest siteDecode 0 (emitted siteRequest.payload)).1.rpId ≠ siteRequest.rpId ∧
      ¬ ∀ past, past <+: [.arrive siteRequest false, .enters 0, .begins 0, .keepAlive 2] →
        (World.run past).Right := by
  constructor
  · rw [onCtapRequest_rpId]
    decide
  · intro h
    obtain ⟨hsite, -, -⟩ := h _ (List.prefix_refl _)
    exact absurd (hsite (siteRequest, "") (by simp [World.run, World.step, World.arrive,
      World.started, World.keepAlive, World.stageOf, World.setStage, World.answering])) (by decide)

end OkRn.Fido
