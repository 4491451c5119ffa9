/-
OkRn/Keyboard/Secret.lean

A secret typed at a computer.

`typeSecret` sends one report, waits until the native side has handed it to the radio
and goes on while the flag of a connected computer is set.  The calls of the native
side are done one after the other, each for the computer that the radio is linked to
by then.

`secret_is_typed_whole`: while no other computer is linked before the call's last
report is sent, and the release at the end is not refused, the text is typed whole, at
the computer of the call's beginning, and every key is up afterwards.  The flag says
that a computer is connected, not which, and nothing looks at the release's answer.

* `Typist.step` takes the calls apart at their awaits, with the native side between;
* `Stands` says of each call what is typed, posted and left of it, and `Typist.Inv` gathers
  this over the calls;
* `Typist.Steady` is the order of events that the main result asks for.

Main results: `secret_is_typed_whole`, `undisturbed_secret_is_typed`, and
`rest_is_typed_elsewhere`.
-/
import OkRn.Lib.Along
import OkRn.Keyboard.Text

namespace OkRn.Keyboard

/-- The key struck after a secret. -/
inductive Then
  | tab
  | enter
  deriving DecidableEq

/-- As text. -/
def Then.keys : Option Then → List Char
  | some .tab => ['\t']
  | some .enter => ['\n']
  | none => []

/-- A report on its way to the native side; one of `typeSecret`'s has its call with it. -/
structure Posted where
  call : Option Nat
  report : Report
  deriving DecidableEq

/-- A report that a computer took. -/
structure Delivery (Host : Type) where
  call : Option Nat
  host : Host
  report : Report
  deriving DecidableEq

/-- A call of `typeSecret`, with the computer that the radio was linked to. -/
structure SecretCall (Host : Type) where
  text : List Char
  then_ : Option Then
  host : Option Host
  outcome : Option (Except String Unit) := none

/-- What the native `sendReport` comes back with. -/
inductive Answer
  | resolved (took : Bool)
  | rejected (message : String)
  deriving DecidableEq

/-- The computer took the report. -/
def Answer.took : Answer → Bool
  | .resolved took => took
  | .rejected _ => false

/-- An answer that took the report. -/
theorem Answer.eq_of_took {answer : Answer} (h : answer.took = true) :
    answer = .resolved true := by
  cases answer with
  | resolved took => exact congrArg Answer.resolved h
  | rejected message => cases h

/-- The loop of `typeSecret` at its await: what follows, and the answer when it is there. -/
structure Typing where
  call : Nat
  rest : List Report
  answer : Option Answer
  deriving DecidableEq

/-- The state of `useBtKeyboard` that a secret goes through, and what computers took. -/
structure Typist (Host : Type) where
  forwarding : Bool := false
  forwardingRef : Bool := false
  suspended : Bool := false
  connected : Bool := false
  connectedAddr : Option Host := none
  typing : Option Typing := none
  choices : List (Choice Host) := []
  posted : List Posted := []
  /-- The computer that the radio is linked to, and the last report that it took. -/
  link : Option Host := none
  down : Report := releaseAll
  /-- Every call and everything that a computer took; no code reads these. -/
  calls : List (SecretCall Host) := []
  log : List (Delivery Host) := []

/-- What can happen. -/
inductive Typist.Event (Host : Type)
  | typeSecret (text : List Char) (then_ : Option Then)
  /-- The native side does the next of what was posted; the radio, when it is linked, takes the
  report, refuses it or throws. -/
  | native (radio : Answer)
  /-- `typeSecret` goes on after its await. -/
  | resume
  | setForwarding (next : Bool)
  | loaded (value : Bool)
  | render
  | onStatus (connected : Bool) (address : Option Host)
  /-- `refreshHosts` finds a computer connected. -/
  | live (host : Host)
  | chooseHost (address : Option Host)
  | chooseNext (i : Nat)
  | linkUp (host : Host)
  | linkDown

/-- The characters of a text that cannot be typed, and those that have no key. -/
def badCount (text : List Char) (then_ : Option Then) : Nat :=
  (text.filter fun ch => !typeable ch).length + (reportsFor (text ++ Then.keys then_)).2.length

/-- The message of a refusal for its characters. -/
def badMessage (bad : Nat) : String :=
  toString bad ++ " character" ++ (if bad = 1 then "" else "s") ++
    " cannot be typed on a US keyboard - nothing was typed"

/-- The key struck after a secret is on the keyboard. -/
theorem Then.hasKey (then_ : Option Then) : ∀ ch ∈ Then.keys then_, HasKey ch := by
  intro ch hch
  cases then_ with
  | none => cases hch
  | some then_ =>
    cases then_ with
    | tab => exact List.mem_singleton.mp hch ▸ hasKey_tab
    | enter => exact List.mem_singleton.mp hch ▸ hasKey_enter

namespace Typist

variable {Host : Type}

/-- A report is handed to the native side. -/
def post (s : Typist Host) (call : Option Nat) (report : Report) : Typist Host :=
  { s with posted := s.posted ++ [⟨call, report⟩] }

/-- A release that is not awaited. -/
def release (s : Typist Host) : Typist Host := s.post none releaseAll

/-- The end of `typeSecret`, with its `finally`. -/
def finish (s : Typist Host) (call : Nat) (outcome : Except String Unit) : Typist Host :=
  { s.post (some call) releaseAll with
    suspended := false
    typing := none
    calls := s.calls.modify call fun c => { c with outcome := some outcome } }

/-- A report of `typeSecret`, which is awaited. -/
def hand (s : Typist Host) (call : Nat) (report : Report) (rest : List Report) : Typist Host :=
  { s.post (some call) report with typing := some ⟨call, rest, none⟩ }

/-- The loop of `typeSecret` from one of its reports on. -/
def typeFrom (s : Typist Host) (call : Nat) : List Report → Typist Host
  | [] => s.finish call (.ok ())
  | report :: rest =>
      if s.connected then s.hand call report rest
      else s.finish call (.error "the computer went away while typing")

/-- Why a call is refused, if it is. -/
def refusal (s : Typist Host) (text : List Char) (then_ : Option Then) : Option String :=
  if !s.connected then some "no computer is connected over Bluetooth"
  else if !s.forwardingRef then
    some "typing to the computer is switched off (the keyboard IO switch)"
  else if s.suspended then some "the keyboard is busy - try again in a moment"
  else if badCount text then_ ≠ 0 then some (badMessage (badCount text then_))
  else none

/-- A call is counted; no code reads this. -/
def record (s : Typist Host) (text : List Char) (then_ : Option Then)
    (outcome : Option (Except String Unit)) : Typist Host :=
  { s with calls := s.calls ++ [⟨text, then_, s.link, outcome⟩] }

/-- `typeSecret`, up to its first await. -/
def typeSecret (s : Typist Host) (text : List Char) (then_ : Option Then) : Typist Host :=
  match s.refusal text then_ with
  | some message => s.record text then_ (some (.error message))
  | none =>
      let s' := { s.record text then_ none with suspended := true }
      s'.typeFrom s.calls.length (reportsFor (text ++ Then.keys then_)).1

/-- The answer to a report, for the loop that waits for it. -/
def answered (p : Posted) (answer : Answer) (t : Typing) : Typing :=
  if p.call = some t.call then { t with answer := some answer } else t

/-- The native `sendReport`: false when there is no computer to take the report. -/
def native (s : Typist Host) (radio : Answer) : Typist Host :=
  match s.posted with
  | [] => s
  | p :: posted =>
      match s.link with
      | none => { s with posted := posted, typing := s.typing.map (answered p (.resolved false)) }
      | some host =>
          if radio.took then
            { s with
              posted := posted
              typing := s.typing.map (answered p radio)
              down := p.report
              log := s.log ++ [⟨p.call, host, p.report⟩] }
          else { s with posted := posted, typing := s.typing.map (answered p radio) }

/-- `typeSecret` goes on with what its await came back with. -/
def resume (s : Typist Host) : Typist Host :=
  match s.typing with
  | some ⟨call, rest, some (.resolved true)⟩ => s.typeFrom call rest
  | some ⟨call, _, some (.resolved false)⟩ =>
      s.finish call (.error "the computer did not take a keystroke")
  | some ⟨call, _, some (.rejected message)⟩ => s.finish call (.error message)
  | _ => s

variable [DecidableEq Host]

/-- A choice of a computer goes on after its await. -/
def chooseNext (s : Typist Host) (i : Nat) : Typist Host :=
  match s.choices[i]? with
  | none => s
  | some (.storing address) =>
      -- the host that is already live changes nothing
      if address.isSome && s.connected && s.connectedAddr == address then
        { s with choices := s.choices.eraseIdx i }
      else { s.release with choices := s.choices.set i (.releasing address) }
  | some (.releasing address) => { s with choices := s.choices.set i (.disconnecting address) }
  | some (.disconnecting _) => { s with choices := s.choices.eraseIdx i }

/-- One event. -/
def step (s : Typist Host) : Event Host → Typist Host
  | .typeSecret text then_ => s.typeSecret text then_
  | .native radio => s.native radio
  | .resume => s.resume
  | .setForwarding next => { s.release with forwarding := next }
  | .loaded value => { s with forwarding := value }
  | .render => { s with forwardingRef := s.forwarding }
  | .onStatus connected address =>
      let s := { s with
        connected := connected
        connectedAddr := if connected then address else none }
      if connected then s else s.release
  | .live host => { s with connected := true, connectedAddr := some host }
  | .chooseHost address => { s with choices := s.choices ++ [.storing address] }
  | .chooseNext i => s.chooseNext i
  | .linkUp host => { s with link := some host, down := releaseAll }
  | .linkDown => { s with link := none, down := releaseAll }

/-- The state after a run. -/
def run (es : List (Event Host)) : Typist Host := es.foldl step {}

/-! ### What a call is to do -/

/-- The reports of a call that a computer took, and those on their way. -/
def sentBy (s : Typist Host) (k : Nat) : List Report :=
  (s.log.filter (·.call == some k)).map (·.report)

/-- What is still on its way of a call's reports. -/
def postedBy (s : Typist Host) (k : Nat) : List Report :=
  (s.posted.filter (·.call == some k)).map (·.report)

/-- The loop of a call that runs. -/
def loopOf (s : Typist Host) (k : Nat) : Option (List Report × Option Answer) :=
  s.typing.bind fun t => if t.call = k then some (t.rest, t.answer) else none

/-- A call that still has a report to send. -/
def IsOpen (s : Typist Host) (k : Nat) : Prop := s.loopOf k ≠ none ∨ s.postedBy k ≠ []

instance (s : Typist Host) (k : Nat) : Decidable (s.IsOpen k) := inferInstanceAs (Decidable (_ ∨ _))

end Typist

namespace SecretCall

variable {Host : Type}

/-- The text with the tab or enter asked for. -/
def whole (c : SecretCall Host) : List Char := c.text ++ Then.keys c.then_

/-- Every character of the text can be typed. -/
def Typeable (c : SecretCall Host) : Prop := ∀ ch ∈ c.text, typeable ch = true

/-- The reports of a call. -/
def reports (c : SecretCall Host) : List Report := (reportsFor c.whole).1

end SecretCall

namespace Typist

variable {Host : Type}

/-- No computer but the one of its beginning is linked while a call has a report to send, and the
last release on its way, which nothing waits for, is not refused while a key is down. -/
def Steady (s : Typist Host) : Event Host → Prop
  | .linkUp host =>
      ∀ k < s.calls.length, s.IsOpen k → (s.calls[k]?.bind (·.host)) = some host
  | .native radio =>
      s.typing = none → s.posted.length = 1 → radio.took = false → s.down = releaseAll
  | _ => True

instance [DecidableEq Host] (s : Typist Host) (e : Event Host) : Decidable (s.Steady e) := by
  unfold Steady
  split <;> infer_instance

/-- Every call so far typed its text whole, or a part of it or nothing when it failed. -/
structure TypedWhole (s : Typist Host) : Prop where
  refused : ∀ k c, s.calls[k]? = some c → ¬ c.Typeable →
    s.sentBy k = [] ∧ s.postedBy k = [] ∧ ∃ message, c.outcome = some (.error message)
  part : ∀ k c, s.calls[k]? = some c → readKeys (s.sentBy k) <+: c.whole
  whole : ∀ k c, s.calls[k]? = some c → c.outcome = some (.ok ()) →
    readKeys (s.sentBy k) = c.whole
  one : ∀ d ∈ s.log, ∀ k, d.call = some k → (s.calls[k]?.bind (·.host)) = some d.host
  up : s.typing = none → s.posted = [] → s.down = releaseAll

/-! ### Where a call stands -/

/-- A call that is over has sent what came before its last report, all of it when it succeeded. -/
structure Ended (c : SecretCall Host) (sent : List Report) : Prop where
  typeable : c.Typeable
  part : sent <+: c.reports
  whole : c.outcome = some (.ok ()) → sent = c.reports
  ended : c.outcome ≠ none

/-- The loop of the call, its reports on their way and those that were taken. -/
inductive Stands (c : SecretCall Host) :
    Option (List Report × Option Answer) → List Report → List Report → Prop
  | refused (message : String) (h : c.outcome = some (.error message)) : Stands c none [] []
  | handed {rest sent : List Report} {report : Report} (hc : c.Typeable) (h : c.outcome = none)
      (hall : c.reports = sent ++ report :: rest) : Stands c (some (rest, none)) [report] sent
  | taken {rest sent : List Report} (hc : c.Typeable) (h : c.outcome = none)
      (hall : c.reports = sent ++ rest) : Stands c (some (rest, some (.resolved true))) [] sent
  | lost {rest sent : List Report} {answer : Answer} (hanswer : answer.took = false)
      (hc : c.Typeable) (h : c.outcome = none) (hall : sent <+: c.reports) :
      Stands c (some (rest, some answer)) [] sent
  | ending {sent : List Report} (h : Ended c sent) : Stands c none [releaseAll] sent
  | unheard {sent : List Report} (h : Ended c sent) : Stands c none [] sent
  | released {sent : List Report} (h : Ended c sent) : Stands c none [] (sent ++ [releaseAll])

/-- The last report that was posted, or else the last that was taken. -/
def lastReport (s : Typist Host) : Report := (s.posted.getLast?.map (·.report)).getD s.down

/-- The computer of a call's beginning. -/
def hostOf (s : Typist Host) (k : Nat) : Option Host := s.calls[k]?.bind (·.host)

/-- What holds whatever the call `k` has done. -/
structure Frame (s : Typist Host) (k : Nat) : Prop where
  idle : s.link = none → s.down = releaseAll
  fresh : ∀ j, s.calls.length ≤ j → s.loopOf j = none ∧ s.postedBy j = [] ∧ s.sentBy j = []
  others : ∀ j, j ≠ k → ∀ c, s.calls[j]? = some c →
    Stands c (s.loopOf j) (s.postedBy j) (s.sentBy j)
  one : ∀ d ∈ s.log, ∀ j, d.call = some j → s.hostOf j = some d.host
  linked : ∀ j, j ≠ k → s.IsOpen j → ∀ host, s.link = some host → s.hostOf j = some host

/-- What holds in a steady run. -/
structure Inv (s : Typist Host) : Prop where
  suspended : s.suspended = s.typing.isSome
  idle : s.link = none → s.down = releaseAll
  up : s.typing = none → s.lastReport = releaseAll
  fresh : ∀ j, s.calls.length ≤ j → s.loopOf j = none ∧ s.postedBy j = [] ∧ s.sentBy j = []
  stands : ∀ j c, s.calls[j]? = some c → Stands c (s.loopOf j) (s.postedBy j) (s.sentBy j)
  one : ∀ d ∈ s.log, ∀ j, d.call = some j → s.hostOf j = some d.host
  linked : ∀ j, s.IsOpen j → ∀ host, s.link = some host → s.hostOf j = some host

/-- Every other call stands as it did. -/
theorem Inv.frame {s : Typist Host} (h : s.Inv) (k : Nat) : s.Frame k where
  idle := h.idle
  fresh := h.fresh
  others := fun j _ c hc => h.stands j c hc
  one := h.one
  linked := fun j _ => h.linked j

/-! ### What is posted -/

section

variable (s : Typist Host) (k j : Nat) (report : Report)

/-- One report more on its way. -/
theorem postedBy_concat (posted : List Posted) (p : Posted) (h : s.posted = posted ++ [p]) :
    s.postedBy j = (posted.filter (·.call == some j)).map (·.report) ++
      if p.call = some j then [p.report] else [] := by
  rw [postedBy, h, List.filter_append, List.map_append]
  congr 1
  by_cases hj : p.call = some j <;> simp [hj]

theorem postedBy_post_self : (s.post (some k) report).postedBy k = s.postedBy k ++ [report] := by
  rw [postedBy_concat _ k s.posted ⟨some k, report⟩ rfl, if_pos rfl]
  rfl

theorem postedBy_post_of_ne (call : Option Nat) (h : call ≠ some j) :
    (s.post call report).postedBy j = s.postedBy j := by
  rw [postedBy_concat _ j s.posted ⟨call, report⟩ rfl, if_neg h, List.append_nil]
  rfl

/-- With a computer connected the next report is handed over. -/
theorem typeFrom_cons {s : Typist Host} {k : Nat} {report : Report} {rest : List Report}
    (h : s.connected = true) : s.typeFrom k (report :: rest) = s.hand k report rest :=
  if_pos h

/-- The last report is then the one posted. -/
theorem lastReport_post (call : Option Nat) : (s.post call report).lastReport = report := by
  rw [lastReport, post, List.getLast?_concat]
  rfl

end

theorem loopOf_of_only {s : Typist Host} {k j : Nat} (h : ∀ t, s.typing = some t → t.call = k)
    (hj : j ≠ k) : s.loopOf j = none := by
  unfold loopOf
  cases ht : s.typing with
  | none => rfl
  | some t =>
    have hk := h t ht
    exact if_neg fun htj => hj (htj.symm.trans hk)

/-- Without a call that types there is none. -/
theorem loopOf_none {s : Typist Host} (h : s.typing = none) (j : Nat) : s.loopOf j = none := by
  rw [loopOf, h]
  rfl

/-! ### The loop of a call -/

section

variable {s : Typist Host} {k : Nat} {c : SecretCall Host}

/-- The calls after one has ended. -/
theorem getElem?_finish (hc : s.calls[k]? = some c) (outcome : Except String Unit) (j : Nat) :
    (s.finish k outcome).calls[j]? =
      if j = k then some { c with outcome := some outcome } else s.calls[j]? := by
  show (s.calls.modify k _)[j]? = _
  by_cases hj : j = k
  · rw [if_pos hj, hj, List.getElem?_modify_eq, hc]
    rfl
  · rw [if_neg hj, List.getElem?_modify_ne _ _ (Ne.symm hj)]

/-- Each call is at the computer it was at. -/
theorem hostOf_finish (hc : s.calls[k]? = some c) (outcome : Except String Unit) (j : Nat) :
    (s.finish k outcome).hostOf j = s.hostOf j := by
  rw [hostOf, hostOf, getElem?_finish hc]
  by_cases hj : j = k
  · rw [if_pos hj, hj, hc]
    rfl
  · rw [if_neg hj]

variable (h : s.Frame k) (hc : s.calls[k]? = some c) (honly : ∀ t, s.typing = some t → t.call = k)
  (hposted : s.postedBy k = []) (hmine : ∀ host, s.link = some host → s.hostOf k = some host)

include h hc honly hposted hmine

theorem Frame.finish {outcome : Except String Unit}
    (hend : Ended { c with outcome := some outcome } (s.sentBy k)) :
    (s.finish k outcome).Inv where
  suspended := rfl
  idle := h.idle
  up := fun _ => s.lastReport_post releaseAll (some k)
  fresh := by
    -- the end of a call adds none
    intro j hj
    have hlen : s.calls.length ≤ j := by
      have hj' : (s.calls.modify k _).length ≤ j := hj
      rwa [List.length_modify] at hj'
    have hkj : some k ≠ some j := by
      rintro ⟨rfl⟩
      rw [List.getElem?_eq_none hlen] at hc
      cases hc
    obtain ⟨-, hpj, hsj⟩ := h.fresh j hlen
    exact ⟨loopOf_none rfl j, (s.postedBy_post_of_ne j releaseAll (some k) hkj).trans hpj, hsj⟩
  stands := by
    intro j d hd
    rw [getElem?_finish hc] at hd
    rw [loopOf_none rfl j]
    by_cases hj : j = k
    · rw [if_pos hj, Option.some.injEq] at hd
      subst hd hj
      have hpost : (s.finish j outcome).postedBy j = [releaseAll] :=
        (s.postedBy_post_self j releaseAll).trans (by rw [hposted, List.nil_append])
      rw [hpost]
      exact .ending hend
    · -- no other call has a loop, so what is posted of it is no concern of this one
      rw [if_neg hj] at hd
      have hstands := h.others j hj d hd
      rw [loopOf_of_only honly hj] at hstands
      have hpost : (s.finish k outcome).postedBy j = s.postedBy j :=
        s.postedBy_post_of_ne j releaseAll (some k) fun hkj => hj (Option.some.inj hkj).symm
      rw [hpost]
      exact hstands
  one := fun d hd j hj => (hostOf_finish hc outcome j).trans (h.one d hd j hj)
  linked := by
    intro j hopen host hlink
    rw [hostOf_finish hc]
    by_cases hj : j = k
    · rw [hj]
      exact hmine host hlink
    · refine h.linked j hj (.inr fun hnil => ?_) host hlink
      have hpost : (s.finish k outcome).postedBy j = s.postedBy j :=
        s.postedBy_post_of_ne j releaseAll (some k) fun hkj => hj (Option.some.inj hkj).symm
      exact hopen.elim (· (loopOf_none rfl j)) (· (hpost.trans hnil))

/-- A call goes on with a report. -/
theorem Frame.hand {report : Report} {rest : List Report} (hsuspended : s.suspended = true)
    (htypeable : c.Typeable) (hruns : c.outcome = none)
    (hall : c.reports = s.sentBy k ++ report :: rest) :
    (s.hand k report rest).Inv where
  suspended := hsuspended
  idle := h.idle
  up := fun ht => by cases ht
  fresh := by
    intro j hj
    have hlen : s.calls.length ≤ j := hj
    have hkj : k ≠ j := by
      rintro rfl
      rw [List.getElem?_eq_none hlen] at hc
      cases hc
    obtain ⟨-, hpj, hsj⟩ := h.fresh j hj
    refine ⟨if_neg hkj, (s.postedBy_post_of_ne j report (some k) ?_).trans hpj, hsj⟩
    exact fun hkj' => hkj (Option.some.inj hkj')
  stands := by
    intro j d hd
    -- the call itself posts the report; no other call is touched
    by_cases hj : j = k
    · subst hj
      obtain rfl : c = d := Option.some.inj (hc.symm.trans hd)
      have hloop : (s.hand j report rest).loopOf j = some (rest, none) := if_pos rfl
      have hpost : (s.hand j report rest).postedBy j = [report] :=
        (s.postedBy_post_self j report).trans (by rw [hposted, List.nil_append])
      rw [hloop, hpost]
      exact .handed htypeable hruns hall
    · have hstands := h.others j hj d hd
      rw [loopOf_of_only honly hj] at hstands
      have hloop : (s.hand k report rest).loopOf j = none := if_neg fun hkj => hj hkj.symm
      have hpost : (s.hand k report rest).postedBy j = s.postedBy j :=
        s.postedBy_post_of_ne j report (some k) fun hkj => hj (Option.some.inj hkj).symm
      rw [hloop, hpost]
      exact hstands
  one := h.one
  linked := by
    intro j hopen host hlink
    by_cases hj : j = k
    · rw [hj]
      exact hmine host hlink
    · refine h.linked j hj (.inr fun hnil => ?_) host hlink
      have hpost := s.postedBy_post_of_ne j report (some k) fun hkj => hj (Option.some.inj hkj).symm
      exact hopen.elim (· (if_neg fun hkj => hj hkj.symm)) (· (hpost.trans hnil))

/-- The loop goes on from a report: what it leaves keeps the invariant. -/
theorem Frame.typeFrom {rest : List Report} (hsuspended : s.suspended = true)
    (htypeable : c.Typeable) (hruns : c.outcome = none)
    (hall : c.reports = s.sentBy k ++ rest) : (s.typeFrom k rest).Inv := by
  cases rest with
  | nil =>
    rw [List.append_nil] at hall
    refine h.finish hc honly hposted hmine ⟨htypeable, ?_, fun _ => hall.symm, by simp⟩
    show s.sentBy k <+: c.reports
    exact hall ▸ List.prefix_rfl
  | cons report rest =>
    cases hconnected : s.connected with
    | true =>
      rw [typeFrom_cons hconnected]
      exact h.hand hc honly hposted hmine hsuspended htypeable hruns hall
    | false =>
      rw [Typist.typeFrom, if_neg (by simp [hconnected])]
      refine h.finish hc honly hposted hmine ⟨htypeable, ?_, fun hok => by simp at hok, by simp⟩
      show s.sentBy k <+: c.reports
      exact hall ▸ List.prefix_append _ _

end

/-! ### What else happens -/

/-- Nothing but a release that is posted. -/
structure Quiet (s s' : Typist Host) : Prop where
  typing : s'.typing = s.typing
  suspended : s'.suspended = s.suspended
  link : s'.link = s.link
  down : s'.down = s.down
  calls : s'.calls = s.calls
  log : s'.log = s.log
  posted : s'.posted = s.posted ∨ s'.posted = s.posted ++ [⟨none, releaseAll⟩]

section

variable {s s' : Typist Host}

/-- A quiet event posts nothing for a call. -/
theorem Quiet.postedBy (h : Quiet s s') (j : Nat) : s'.postedBy j = s.postedBy j := by
  rcases h.posted with hposted | hposted
  · rw [Typist.postedBy, hposted]
    rfl
  · rw [postedBy_concat s' j s.posted _ hposted, if_neg nofun, List.append_nil]
    rfl

theorem Inv.quiet (h : s.Inv) (hq : Quiet s s') : s'.Inv := by
  have hloop (j : Nat) : s'.loopOf j = s.loopOf j := by rw [loopOf, loopOf, hq.typing]
  have hsent (j : Nat) : s'.sentBy j = s.sentBy j := by rw [sentBy, sentBy, hq.log]
  have hhost (j : Nat) : s'.hostOf j = s.hostOf j := by rw [hostOf, hostOf, hq.calls]
  -- a release that nobody awaits is of no call
  have hopen (j : Nat) : s'.IsOpen j → s.IsOpen j := by
    rw [IsOpen, IsOpen, hloop, hq.postedBy]
    exact id
  refine ⟨?_, ?_, fun ht => ?_, ?_, ?_, ?_, ?_⟩
  · rw [hq.suspended, hq.typing, h.suspended]
  · rw [hq.link, hq.down]
    exact h.idle
  · have hup := h.up (hq.typing.symm.trans ht)
    rcases hq.posted with hposted | hposted
    · rw [lastReport, hposted, hq.down]
      exact hup
    · rw [lastReport, hposted, List.getLast?_concat]
      rfl
  · intro j hj
    rw [hloop, hq.postedBy, hsent]
    exact h.fresh j (hq.calls ▸ hj)
  · intro j c hc
    rw [hloop, hq.postedBy, hsent]
    exact h.stands j c (hq.calls ▸ hc)
  · intro d hd j hj
    rw [hhost]
    exact h.one d (hq.log ▸ hd) j hj
  · intro j hj host hlink
    rw [hhost]
    exact h.linked j (hopen j hj) host (hq.link.symm.trans hlink)

end

/-! ### A call begins -/

/-- A new call leaves the others. -/
theorem Inv.record_frame {s : Typist Host} (h : s.Inv) (text : List Char) (then_ : Option Then)
    (outcome : Option (Except String Unit)) :
    (s.record text then_ outcome).Frame s.calls.length := by
  have hbefore {j : Nat} (hj : j ≠ s.calls.length) :
      (s.record text then_ outcome).calls[j]? = s.calls[j]? := by
    show (s.calls ++ [(⟨text, then_, s.link, outcome⟩ : SecretCall Host)])[j]? = _
    rcases Nat.lt_or_gt_of_ne hj with hlt | hgt
    · exact List.getElem?_append_left hlt
    · have hend : (s.calls ++ [(⟨text, then_, s.link, outcome⟩ : SecretCall Host)]).length ≤ j := by
        rw [List.length_append]
        exact hgt
      rw [List.getElem?_eq_none hend, List.getElem?_eq_none (Nat.le_of_lt hgt)]
  have hhost {j : Nat} {host : Host} (hj : s.hostOf j = some host) :
      (s.record text then_ outcome).hostOf j = some host := by
    have hne : j ≠ s.calls.length := by
      rintro rfl
      rw [hostOf, List.getElem?_eq_none (Nat.le_refl _)] at hj
      cases hj
    rw [hostOf, hbefore hne]
    exact hj
  refine ⟨h.idle, fun j hj => h.fresh j ?_, fun j hj c hc => h.stands j c (hbefore hj ▸ hc),
    fun d hd j hj => hhost (h.one d hd j hj),
    fun j _ hopen host hlink => hhost (h.linked j hopen host hlink)⟩
  have hlen : (s.calls ++ [_]).length ≤ j := hj
  rw [List.length_append] at hlen
  omega

/-- It is the last of the calls. -/
theorem getElem?_record (s : Typist Host) (text : List Char) (then_ : Option Then)
    (outcome : Option (Except String Unit)) :
    (s.record text then_ outcome).calls[s.calls.length]? =
      some ⟨text, then_, s.link, outcome⟩ := List.getElem?_concat_length

theorem Inv.refuse {s : Typist Host} (h : s.Inv) (text : List Char) (then_ : Option Then)
    (message : String) : (s.record text then_ (some (.error message))).Inv := by
  have hframe := h.record_frame text then_ (some (.error message))
  have hnew := s.getElem?_record text then_ (some (.error message))
  obtain ⟨hloop, hposted, hsent⟩ := h.fresh s.calls.length (Nat.le_refl _)
  refine ⟨h.suspended, h.idle, h.up, hframe.fresh, fun j c hc => ?_, hframe.one,
    fun j hopen host hlink => ?_⟩
  · by_cases hj : j = s.calls.length
    · subst hj
      obtain rfl := Option.some.inj (hnew.symm.trans hc)
      show Stands _ (s.loopOf s.calls.length) (s.postedBy s.calls.length) (s.sentBy s.calls.length)
      rw [hloop, hposted, hsent]
      exact .refused message rfl
    · exact hframe.others j hj c hc
  · by_cases hj : j = s.calls.length
    · subst hj
      exact absurd hopen fun hopen => hopen.elim (· hloop) (· hposted)
    · exact hframe.linked j hj hopen host hlink

/-- Nothing is bad exactly when everything can be typed. -/
theorem badCount_eq_zero {text : List Char} {then_ : Option Then} :
    badCount text then_ = 0 ↔ ∀ ch ∈ text, typeable ch = true := by
  constructor
  · intro h ch hch
    have hnone : (text.filter fun ch => !typeable ch) = [] :=
      List.eq_nil_of_length_eq_zero (by unfold badCount at h; omega)
    simpa using List.filter_eq_nil_iff.mp hnone ch hch
  · intro h
    have hnone : (text.filter fun ch => !typeable ch) = [] :=
      List.filter_eq_nil_iff.mpr fun ch hch => by simp [h ch hch]
    have hkeys : ∀ ch ∈ text ++ Then.keys then_, HasKey ch := fun ch hch =>
      (List.mem_append.mp hch).elim (fun hch => hasKey_of_typeable (h ch hch))
        (Then.hasKey then_ ch)
    rw [badCount, hnone, (readKeys_reportsFor hkeys).2]
    rfl

/-- When a call is not refused. -/
theorem refusal_eq_none {s : Typist Host} {text : List Char} {then_ : Option Then} :
    s.refusal text then_ = none ↔ s.connected = true ∧ s.forwardingRef = true ∧
      s.suspended = false ∧ badCount text then_ = 0 := by
  unfold refusal
  cases s.connected <;> cases s.forwardingRef <;> cases s.suspended <;> simp

/-- A call keeps the invariant. -/
theorem Inv.typeSecret {s : Typist Host} (h : s.Inv) (text : List Char) (then_ : Option Then) :
    (s.typeSecret text then_).Inv := by
  unfold Typist.typeSecret
  cases hrefusal : s.refusal text then_ with
  | some message => exact h.refuse text then_ message
  | none =>
    obtain ⟨-, -, hfree, hbad⟩ := refusal_eq_none.mp hrefusal
    have hidle : s.typing = none := by
      rw [h.suspended] at hfree
      exact Option.isNone_iff_eq_none.mp (Option.isSome_eq_false_iff.mp hfree)
    have hnew := s.getElem?_record text then_ none
    obtain ⟨-, hposted, hsent⟩ := h.fresh s.calls.length (Nat.le_refl _)
    obtain ⟨hi, hf, ho, h1, hl⟩ := h.record_frame text then_ none
    have hframe : Frame { s.record text then_ none with suspended := true } s.calls.length :=
      ⟨hi, hf, ho, h1, hl⟩
    refine hframe.typeFrom hnew (fun t ht => ?_) hposted (fun host hlink => ?_) rfl
      (badCount_eq_zero.mp hbad) rfl ?_
    · exact absurd (hidle.symm.trans ht) nofun
    · show (s.record text then_ none).calls[s.calls.length]?.bind (·.host) = some host
      rw [hnew]
      exact hlink
    · show _ = s.sentBy s.calls.length ++ _
      rw [hsent, List.nil_append]
      rfl

/-! ### The native side -/

theorem Stands.native {c : SecretCall Host} {loop : Option (List Report × Option Answer)}
    {report : Report} {waits sent : List Report} (h : Stands c loop (report :: waits) sent)
    (answer : Answer) :
    Stands c (loop.map fun l => (l.1, some answer)) waits
      (sent ++ if answer.took then [report] else []) := by
  cases h with
  | handed hc h hall =>
    cases htook : answer.took with
    | true =>
      obtain rfl := Answer.eq_of_took htook
      exact .taken hc h (by rw [hall, if_pos rfl, List.append_assoc]; rfl)
    | false =>
      refine .lost htook hc h ?_
      rw [hall, if_neg Bool.false_ne_true, List.append_nil]
      exact List.prefix_append _ _
  | ending h =>
    cases answer.took with
    | true => exact .released h
    | false =>
      rw [if_neg Bool.false_ne_true, List.append_nil]
      exact .unheard h

section

variable {s : Typist Host} {p : Posted} {posted : List Posted}

/-- The answer to the report that is done next. -/
def answer (s : Typist Host) (radio : Answer) : Answer :=
  if s.link.isSome then radio else .resolved false

/-- Who takes the report, as it is in the log. -/
def takenBy (s : Typist Host) (p : Posted) (radio : Answer) : List (Delivery Host) :=
  if radio.took then
    (s.link.map fun host => (⟨p.call, host, p.report⟩ : Delivery Host)).toList
  else []

/-- What the native side does with the next report. -/
theorem native_eq (hposted : s.posted = p :: posted) (radio : Answer) :
    s.native radio = { s with
      posted := posted
      typing := s.typing.map (answered p (s.answer radio))
      down := if (s.answer radio).took then p.report else s.down
      log := s.log ++ s.takenBy p radio } := by
  unfold Typist.native takenBy Typist.answer
  rw [hposted]
  cases hlink : s.link with
  | none => cases radio.took <;> simp [Answer.took]
  | some host => cases htook : radio.took <;> simp [htook]

/-- The call that waits for it hears the answer. -/
theorem loopOf_native (hposted : s.posted = p :: posted) (radio : Answer) (j : Nat) :
    (s.native radio).loopOf j =
      if p.call = some j then (s.loopOf j).map fun l => (l.1, some (s.answer radio))
      else s.loopOf j := by
  rw [native_eq hposted]
  unfold loopOf
  cases s.typing with
  | none => simp
  | some t =>
    by_cases ht : t.call = j
    · subst ht
      by_cases hp : p.call = some t.call <;> simp [answered, hp]
    · by_cases hp : p.call = some t.call
      · simp [answered, hp, ht]
      · by_cases hj : p.call = some j
        · simp [answered, hj, ht, Ne.symm ht]
        · simp [answered, hp, hj, ht]

/-- The report is on its way no more. -/
theorem postedBy_native (hposted : s.posted = p :: posted) (radio : Answer) (j : Nat) :
    s.postedBy j =
      (if p.call = some j then [p.report] else []) ++ (s.native radio).postedBy j := by
  rw [native_eq hposted]
  unfold postedBy
  rw [hposted]
  by_cases hj : p.call = some j <;> simp [hj]

/-- It was sent if the radio took it. -/
theorem sentBy_native (hposted : s.posted = p :: posted) (radio : Answer) (j : Nat) :
    (s.native radio).sentBy j = s.sentBy j ++
      if p.call = some j then (if (s.answer radio).took then [p.report] else []) else [] := by
  rw [native_eq hposted]
  unfold sentBy takenBy Typist.answer
  cases hlink : s.link with
  | none => cases radio.took <;> simp [Answer.took]
  | some host =>
    cases htook : radio.took with
    | false => simp [htook]
    | true => by_cases hj : p.call = some j <;> simp [hj, htook]

/-- Whoever takes a report is the computer that is linked. -/
theorem mem_takenBy {radio : Answer} {d : Delivery Host} (h : d ∈ s.takenBy p radio) :
    s.link = some d.host ∧ d.call = p.call := by
  unfold takenBy at h
  split at h
  · obtain ⟨host, hl, rfl⟩ := Option.map_eq_some_iff.mp (Option.mem_toList.mp h)
    exact ⟨hl, rfl⟩
  · cases h

/-- The native side keeps the invariant, when a release is not refused with a key down. -/
theorem Inv.native (h : s.Inv) {radio : Answer}
    (htaken : s.typing = none → s.posted.length = 1 → radio.took = false → s.down = releaseAll) :
    (s.native radio).Inv := by
  cases hposted : s.posted with
  | nil =>
    have hsame : s.native radio = s := by rw [Typist.native, hposted]
    rwa [hsame]
  | cons p posted =>
    have heq := native_eq hposted radio
    have hcalls : (s.native radio).calls = s.calls := by rw [heq]
    have hhost (j : Nat) : (s.native radio).hostOf j = s.hostOf j := by
      rw [hostOf, hostOf, hcalls]
    have hlink : (s.native radio).link = s.link := by rw [heq]
    have htyping : (s.native radio).typing = s.typing.map (answered p (s.answer radio)) := by
      rw [heq]
    have hdown : (s.native radio).down =
        if (s.answer radio).took then p.report else s.down := by rw [heq]
    -- what is left of a call to send was to be sent before
    have hopen (j : Nat) : (s.native radio).IsOpen j → s.IsOpen j := by
      rw [IsOpen, IsOpen, loopOf_native hposted, postedBy_native hposted radio]
      intro hj
      by_cases hp : p.call = some j
      · exact .inr (by simp [hp])
      · rw [if_neg hp] at hj
        rwa [if_neg hp, List.nil_append]
    -- and the call whose report it is had it to send, so it is linked to its own computer
    have howner {j : Nat} (hp : p.call = some j) : s.IsOpen j := by
      refine .inr ?_
      rw [postedBy_native hposted radio, if_pos hp]
      exact List.cons_ne_nil _ _
    refine ⟨?_, fun hnone => ?_, fun hidle => ?_, fun j hj => ?_, fun j c hc => ?_,
      fun d hd j hj => ?_, fun j hj host hhost' => ?_⟩
    · rw [htyping, Option.isSome_map, heq]
      exact h.suspended
    · rw [hlink] at hnone
      have hlost : (s.answer radio).took = false := by
        rw [Typist.answer, hnone]
        rfl
      rw [hdown, hlost]
      exact h.idle hnone
    · have hwas : s.typing = none := by simpa [htyping] using hidle
      have hup := h.up hwas
      rw [lastReport, hposted] at hup
      rw [lastReport, hdown, heq]
      cases posted with
      | nil =>
        -- the last release: it is taken, or there is no key to be let go
        cases htook : (s.answer radio).took with
        | true => exact hup
        | false =>
          cases hl : s.link with
          | none => exact h.idle hl
          | some host =>
            have hanswer : s.answer radio = radio := by rw [Typist.answer, hl]; rfl
            exact htaken hwas (by rw [hposted]; rfl) (hanswer ▸ htook)
      | cons q posted => rwa [List.getLast?_cons_cons] at hup
    · rw [hcalls] at hj
      obtain ⟨hloop, hpost, hsent⟩ := h.fresh j hj
      have hp : p.call ≠ some j := fun hp => (howner hp).elim (· hloop) (· hpost)
      rw [postedBy_native hposted radio, if_neg hp, List.nil_append] at hpost
      rw [loopOf_native hposted, if_neg hp, sentBy_native hposted, if_neg hp, List.append_nil]
      exact ⟨hloop, hpost, hsent⟩
    · have hstands := h.stands j c (hcalls ▸ hc)
      rw [postedBy_native hposted radio] at hstands
      rw [loopOf_native hposted, sentBy_native hposted]
      by_cases hp : p.call = some j
      · rw [if_pos hp] at hstands
        rw [if_pos hp, if_pos hp]
        exact hstands.native (s.answer radio)
      · rw [if_neg hp, List.nil_append] at hstands
        rwa [if_neg hp, if_neg hp, List.append_nil]
    · rw [hhost]
      rw [heq] at hd
      rcases List.mem_append.mp hd with hd | hd
      · exact h.one d hd j hj
      · obtain ⟨hl, hcall⟩ := mem_takenBy hd
        exact h.linked j (howner (hcall.symm.trans hj)) d.host hl
    · rw [hhost]
      exact h.linked j (hopen j hj) host (hlink ▸ hhost')

end

/-! ### Every event -/

/-- The call whose loop waits, and where it stands. -/
theorem Inv.waiting {s : Typist Host} (h : s.Inv) {k : Nat} {rest : List Report}
    {answer : Option Answer} (ht : s.typing = some ⟨k, rest, answer⟩) :
    s.IsOpen k ∧ ∃ c, s.calls[k]? = some c ∧
      Stands c (some (rest, answer)) (s.postedBy k) (s.sentBy k) := by
  have hloop : s.loopOf k = some (rest, answer) := by
    rw [loopOf, ht]
    exact if_pos rfl
  have hlen : k < s.calls.length := by
    refine Nat.lt_of_not_le fun hlen => ?_
    rw [(h.fresh k hlen).1] at hloop
    cases hloop
  refine ⟨.inl (by rw [hloop]; nofun), s.calls[k], List.getElem?_eq_getElem hlen, ?_⟩
  rw [← hloop]
  exact h.stands k _ (List.getElem?_eq_getElem hlen)

/-- After a report that was not taken the call is over. -/
theorem Inv.gives_up {s : Typist Host} (h : s.Inv) {k : Nat} {rest : List Report} {answer : Answer}
    (ht : s.typing = some ⟨k, rest, some answer⟩) (hanswer : answer.took = false)
    (message : String) : (s.finish k (.error message)).Inv := by
  obtain ⟨hopen, c, hc, hstands⟩ := h.waiting ht
  have honly : ∀ t, s.typing = some t → t.call = k := by
    rw [ht]
    rintro t ⟨⟩
    rfl
  generalize hposted : s.postedBy k = posted at hstands
  generalize hsent : s.sentBy k = sent at hstands
  cases hstands with
  | taken htypeable hruns hall => cases hanswer
  | lost _ htypeable hruns hall =>
    exact (h.frame k).finish hc honly hposted (h.linked k hopen)
      ⟨htypeable, hsent ▸ hall, fun hok => by simp at hok, by simp⟩

theorem Inv.resume {s : Typist Host} (h : s.Inv) : s.resume.Inv := by
  unfold Typist.resume
  split
  · -- the report was taken
    rename_i k rest ht
    obtain ⟨hopen, c, hc, hstands⟩ := h.waiting ht
    have hsuspended : s.suspended = true := by rw [h.suspended, ht]; rfl
    have honly : ∀ t, s.typing = some t → t.call = k := by
      rw [ht]
      rintro t ⟨⟩
      rfl
    generalize hposted : s.postedBy k = posted at hstands
    generalize hsent : s.sentBy k = sent at hstands
    cases hstands with
    | taken htypeable hruns hall =>
      exact (h.frame k).typeFrom hc honly hposted (h.linked k hopen) hsuspended htypeable hruns
        (hsent ▸ hall)
    | lost hanswer => cases hanswer
  · -- there was no computer to take it, or it did not
    rename_i k rest ht
    exact h.gives_up ht rfl _
  · rename_i k rest message ht
    exact h.gives_up ht rfl message
  · exact h

/-- The radio is linked to another computer, the same or none. -/
theorem Inv.relink {s : Typist Host} (h : s.Inv) (link : Option Host)
    (hlinked : ∀ j, s.IsOpen j → ∀ host, link = some host → s.hostOf j = some host) :
    ({ s with link := link, down := releaseAll } : Typist Host).Inv where
  suspended := h.suspended
  idle := fun _ => rfl
  up := by
    intro ht
    have hup := h.up ht
    unfold lastReport at hup ⊢
    cases hlast : s.posted.getLast? with
    | none => rfl
    | some p => rwa [hlast] at hup
  fresh := h.fresh
  stands := h.stands
  one := h.one
  linked := hlinked

/-- The invariant holds at the start. -/
theorem inv_first : ({} : Typist Host).Inv where
  suspended := rfl
  idle := fun _ => rfl
  up := fun _ => rfl
  fresh := fun _ _ => ⟨rfl, rfl, rfl⟩
  stands := fun _ _ hc => by cases hc
  one := fun _ hd => absurd hd List.not_mem_nil
  linked := fun _ _ _ hlink => by cases hlink

variable [DecidableEq Host]

/-- A choice of a computer is quiet. -/
theorem quiet_chooseNext (s : Typist Host) (i : Nat) : Quiet s (s.chooseNext i) := by
  unfold chooseNext
  split
  · exact ⟨rfl, rfl, rfl, rfl, rfl, rfl, .inl rfl⟩
  · split
    · exact ⟨rfl, rfl, rfl, rfl, rfl, rfl, .inl rfl⟩
    · exact ⟨rfl, rfl, rfl, rfl, rfl, rfl, .inr rfl⟩
  · exact ⟨rfl, rfl, rfl, rfl, rfl, rfl, .inl rfl⟩
  · exact ⟨rfl, rfl, rfl, rfl, rfl, rfl, .inl rfl⟩

/-- Every steady event keeps the invariant. -/
theorem Inv.step {s : Typist Host} {e : Event Host} (h : s.Inv) (hsteady : s.Steady e) :
    (s.step e).Inv := by
  cases e with
  | typeSecret text then_ => exact h.typeSecret text then_
  | native radio => exact h.native hsteady
  | resume => exact h.resume
  | setForwarding next => exact h.quiet ⟨rfl, rfl, rfl, rfl, rfl, rfl, .inr rfl⟩
  | loaded value => exact h.quiet ⟨rfl, rfl, rfl, rfl, rfl, rfl, .inl rfl⟩
  | render => exact h.quiet ⟨rfl, rfl, rfl, rfl, rfl, rfl, .inl rfl⟩
  | onStatus connected address =>
    cases connected with
    | true => exact h.quiet ⟨rfl, rfl, rfl, rfl, rfl, rfl, .inl rfl⟩
    | false => exact h.quiet ⟨rfl, rfl, rfl, rfl, rfl, rfl, .inr rfl⟩
  | live host => exact h.quiet ⟨rfl, rfl, rfl, rfl, rfl, rfl, .inl rfl⟩
  | chooseHost address => exact h.quiet ⟨rfl, rfl, rfl, rfl, rfl, rfl, .inl rfl⟩
  | chooseNext i => exact h.quiet (s.quiet_chooseNext i)
  | linkUp host =>
    -- only here another computer can come in
    refine h.relink (some host) fun j hopen host' hlink => ?_
    obtain rfl : host = host' := Option.some.inj hlink
    refine hsteady j (Nat.lt_of_not_le fun hlen => ?_) hopen
    obtain ⟨hloop, hposted, -⟩ := h.fresh j hlen
    exact hopen.elim (· hloop) (· hposted)
  | linkDown => exact h.relink none fun _ _ _ hlink => by cases hlink

/-! ### What the computer reads -/

end Typist

namespace SecretCall

variable {Host : Type} {c : SecretCall Host}

/-- The whole of a call can be typed. -/
theorem hasKey_whole (h : c.Typeable) : ∀ ch ∈ c.whole, HasKey ch := by
  intro ch hch
  rcases List.mem_append.mp hch with hch | hch
  · exact hasKey_of_typeable (h ch hch)
  · exact Then.hasKey c.then_ ch hch

theorem readKeys_reports (h : c.Typeable) : readKeys c.reports = c.whole :=
  (readKeys_reportsFor (hasKey_whole h)).1

theorem readKeys_prefix (h : c.Typeable) {sent : List Report} (hsent : sent <+: c.reports) :
    readKeys sent <+: c.whole := by
  rw [← readKeys_reports h]
  exact readFrom_prefix hsent []

end SecretCall

namespace Typist

variable {Host : Type}

/-- What a computer reads of a call: a part of the text, and all of it after success. -/
structure Reads (c : SecretCall Host) (sent : List Report) : Prop where
  part : readKeys sent <+: c.whole
  whole : c.outcome = some (.ok ()) → readKeys sent = c.whole

/-- What a call that ended has typed. -/
theorem Ended.reads {c : SecretCall Host} {sent : List Report} (h : Ended c sent) :
    Reads c sent where
  part := SecretCall.readKeys_prefix h.typeable h.part
  whole := fun hok => by rw [h.whole hok, SecretCall.readKeys_reports h.typeable]

theorem Stands.reads {c : SecretCall Host} {loop : Option (List Report × Option Answer)}
    {posted sent : List Report} (h : Stands c loop posted sent) : Reads c sent := by
  have hruns {sent : List Report} (hc : c.Typeable) (h : c.outcome = none)
      (hsent : sent <+: c.reports) : Reads c sent :=
    ⟨SecretCall.readKeys_prefix hc hsent, fun hok => by rw [h] at hok; cases hok⟩
  cases h with
  | refused message h => exact ⟨List.nil_prefix, fun hok => by rw [h] at hok; cases hok⟩
  | handed hc h hall => exact hruns hc h (hall ▸ List.prefix_append _ _)
  | taken hc h hall => exact hruns hc h (hall ▸ List.prefix_append _ _)
  | lost _ hc h hall => exact hruns hc h hall
  | ending h => exact h.reads
  | unheard h => exact h.reads
  | @released sent h =>
    obtain ⟨hpart, hwhole⟩ := h.reads
    have hsame : readKeys (sent ++ [releaseAll]) = readKeys sent :=
      readFrom_concat_releaseAll [] sent
    exact ⟨hsame.symm ▸ hpart, fun hok => hsame.trans (hwhole hok)⟩

/-- A call with a character that cannot be typed has sent nothing. -/
theorem Stands.refusal {c : SecretCall Host} {loop : Option (List Report × Option Answer)}
    {posted sent : List Report} (h : Stands c loop posted sent) (hc : ¬ c.Typeable) :
    sent = [] ∧ posted = [] ∧ ∃ message, c.outcome = some (.error message) := by
  cases h with
  | refused message h => exact ⟨rfl, rfl, message, h⟩
  | handed h | taken h | lost _ h => exact absurd h hc
  | ending h | unheard h | released h => exact absurd h.typeable hc

theorem Inv.typedWhole {s : Typist Host} (h : s.Inv) : s.TypedWhole where
  refused := fun k c hc => (h.stands k c hc).refusal
  part := fun k c hc => (h.stands k c hc).reads.part
  whole := fun k c hc => (h.stands k c hc).reads.whole
  one := h.one
  up := by
    intro ht hposted
    have hup := h.up ht
    rwa [lastReport, hposted] at hup

/-! ### A call that nothing disturbs -/

variable [DecidableEq Host]

/-- So often the native side does a report and the loop goes on. -/
def rounds (Host : Type) (n : Nat) : List (Event Host) :=
  (List.replicate n [.native (.resolved true), .resume]).flatten

/-- Round by round the rest is typed. -/
theorem rounds_type {s : Typist Host} {k : Nat} {report : Report} {rest : List Report}
    (htyping : s.typing = some ⟨k, rest, none⟩) (hposted : s.posted = [⟨some k, report⟩])
    (hconnected : s.connected = true) (hlink : s.link.isSome = true) :
    ((rounds Host (rest.length + 1)).foldl step s).calls =
      s.calls.modify k fun c => { c with outcome := some (.ok ()) } := by
  -- one round for each report that is left, and one for the last
  induction rest generalizing s report with
  | nil =>
    have hnative := native_eq hposted (.resolved true)
    rw [htyping] at hnative
    show ((s.native (.resolved true)).resume).calls = _
    rw [hnative]
    simp [Typist.resume, Typist.answer, answered, hlink, typeFrom, finish, post]
  | cons report' rest ih =>
    have hnative := native_eq hposted (.resolved true)
    rw [htyping] at hnative
    show ((rounds Host (rest.length + 1)).foldl step (s.native (.resolved true)).resume).calls = _
    have hnext : (s.native (.resolved true)).resume =
        (s.native (.resolved true)).hand k report' rest := by
      rw [hnative]
      simp [Typist.resume, Typist.answer, answered, hlink, typeFrom, hconnected]
    rw [hnext, hnative]
    exact ih rfl rfl hconnected hlink

/-- The last of a list is changed. -/
theorem modify_length_concat {α : Type} (l : List α) (a : α) (f : α → α) :
    (l ++ [a]).modify l.length f = l ++ [f a] := by
  rw [List.modify_eq_take_cons_drop (by simp)]
  simp

/-- A secret that is not disturbed is typed to its end. -/
theorem undisturbed_secret_is_typed {s : Typist Host} {text : List Char} {then_ : Option Then}
    (htext : ∀ ch ∈ text, typeable ch = true) (hconnected : s.connected = true)
    (hforwarding : s.forwardingRef = true) (hfree : s.suspended = false)
    (hposted : s.posted = []) (hlink : s.link.isSome = true) :
    ((.typeSecret text then_ ::
      rounds Host (reportsFor (text ++ Then.keys then_)).1.length).foldl step s).calls =
        s.calls ++ [⟨text, then_, s.link, some (.ok ())⟩] := by
  have hrefusal : s.refusal text then_ = none :=
    refusal_eq_none.mpr ⟨hconnected, hforwarding, hfree, badCount_eq_zero.mpr htext⟩
  rw [← modify_length_concat s.calls ⟨text, then_, s.link, none⟩
    fun c => { c with outcome := some (.ok ()) }]
  show ((rounds Host _).foldl step (s.typeSecret text then_)).calls = _
  unfold Typist.typeSecret
  rw [hrefusal]
  cases hreports : (reportsFor (text ++ Then.keys then_)).1 with
  | nil => rfl
  | cons report rest =>
    show ((rounds Host (rest.length + 1)).foldl step (typeFrom _ s.calls.length _)).calls = _
    rw [typeFrom_cons]
    · have hfirst : s.posted ++ [⟨some s.calls.length, report⟩] =
          [⟨some s.calls.length, report⟩] := by rw [hposted, List.nil_append]
      exact rounds_type rfl hfirst hconnected hlink
    · exact hconnected

/-! ### Every run -/

/-- Whatever happens in between, as long as no computer but the one of its beginning is linked
while a secret is being typed and the release at its end is not refused: nothing of a text that
cannot be typed is sent, the others are typed whole or in part at that computer, and every key
is up in the end.  A call that nothing disturbs succeeds. -/
theorem secret_is_typed_whole (es : List (Event Host)) (h : AllAlong step Steady {} es) :
    (run es).TypedWhole ∧ ∀ text then_, (∀ ch ∈ text, typeable ch = true) →
      (run es).connected = true → (run es).forwardingRef = true → (run es).suspended = false →
      (run es).posted = [] → (run es).link.isSome = true →
      (run (es ++ .typeSecret text then_ ::
        rounds Host (reportsFor (text ++ Then.keys then_)).1.length)).calls =
          (run es).calls ++ [⟨text, then_, (run es).link, some (.ok ())⟩] := by
  have hinv : (run es).Inv := h.keeps inv_first fun _ _ hs he => hs.step he
  refine ⟨hinv.typedWhole, fun text then_ htext hconnected hforwarding hfree hposted hlink => ?_⟩
  rw [run, List.foldl_append]
  exact undisturbed_secret_is_typed htext hconnected hforwarding hfree hposted hlink

/-- The computer goes away after the first character and comes back, and refuses a report of the
next secret. -/
def comesBack : List (Event Nat) :=
  [.linkUp 0, .onStatus true (some 0), .setForwarding true, .render, .native (.resolved true),
    .typeSecret ['l', 'l'] (some .tab), .native (.resolved true), .resume, .linkDown, .linkUp 0] ++
  rounds Nat 5 ++
  [.typeSecret ['a', 'b'] none, .native (.resolved true), .resume, .native (.resolved false),
    .resume, .native (.resolved true)]

theorem secret_is_typed_whole_back : (run comesBack).TypedWhole :=
  (secret_is_typed_whole comesBack (by decide)).1

/-- Another computer is chosen, and linked before the loop is told. -/
def switched : List (Event Nat) :=
  [.linkUp 0, .onStatus true (some 0), .setForwarding true, .render, .native (.resolved true),
    .typeSecret ['a', 'b'] none, .native (.resolved true), .chooseHost (some 1), .chooseNext 0,
    .chooseNext 0, .chooseNext 0, .native (.resolved true), .linkDown, .linkUp 1] ++
  (.resume :: rounds Nat 3)

/-- After a switch of the computer the rest is typed at the other one. -/
theorem rest_is_typed_elsewhere :
    readKeys (((run switched).log.filter (·.host == 1)).map (·.report)) = ['b'] ∧
      ¬ ∀ es : List (Event Nat), (run es).TypedWhole := by
  refine ⟨by decide, fun h => ?_⟩
  have hone : ∀ d ∈ (run switched).log, ∀ k < 1, d.call = some k →
      ((run switched).calls[k]?.bind (·.host)) = some d.host :=
    fun d hd k _ hk => (h switched).one d hd k hk
  revert hone
  decide

end Typist

end OkRn.Keyboard
