/-
OkRn/Edge/Announced.lean

What a budget use was announced as.

A TX start names a request by its token over the head it starts from; priming
checks the token, and every link spends the start.  The use is linked later, when
the operation runs, and only asks then whether some start is pending.  So a use
primed since the last link is the one announced over that head
(`use_is_announced`); one primed before another link may be welded under a start
for another request (`use_under_another_start`).

* `StartedFor` is a start over a head for a request, since the last link; `PrimedSince`
  a priming since the last link;
* `Announces` ties what the key has pending to its log, and every move keeps it;
* `Told` is what every link of the log says of its announcement.
-/
import OkRn.Edge.Pickup

namespace OkRn.Edge

variable {E : Env} {k m k' : Key} {l : Label}

/-! ### The history -/

/-- No link among these entries. -/
def NoLink (log : List Entry) : Prop := ∀ w, .link w ∉ log

/-- A TX start for this head, subject and intent was accepted, with no link since. -/
def StartedFor (E : Env) (head subject : Digest) (intent : Intent) (log : List Entry) : Prop :=
  ∃ mid rest, log = mid ++ .txStart (tokenOf E head subject intent) intent :: rest ∧ NoLink mid

/-- A budget was found to pay for an operation, with no link since. -/
def PrimedSince (log : List Entry) : Prop :=
  ∃ mid rest head subject, log = mid ++ .primed head subject :: rest ∧ NoLink mid

/-- Every budget use was announced over the head it is welded on, with no link between. -/
def Announced (E : Env) (log : List Entry) : Prop :=
  ∀ post w pre, log = post ++ .link w :: pre → w.link.selfPress = true →
    StartedFor E w.prev w.link.subject w.link.intent pre

/-- No link came between the priming of a use and its own. -/
def PrimedAfresh (log : List Entry) : Prop :=
  ∀ post w pre, log = post ++ .link w :: pre → w.link.selfPress = true → PrimedSince pre

/-- Neither a link nor a priming. -/
def Entry.plain : Entry → Bool
  | .link _ | .primed .. => false
  | _ => true

/-- Plain entries are no links. -/
theorem NoLink.append {seg log : List Entry} (hseg : ∀ e ∈ seg, e.plain = true) (h : NoLink log) :
    NoLink (seg ++ log) := by
  intro w hw
  rcases List.mem_append.mp hw with hw | hw
  · exact absurd (hseg _ hw) (by simp [Entry.plain])
  · exact h w hw

/-- What came before them had no link either. -/
theorem NoLink.of_append {seg log : List Entry} (h : NoLink (seg ++ log)) : NoLink log :=
  fun w hw => h w (List.mem_append_right _ hw)

/-- A start still stands after entries without a link. -/
theorem StartedFor.append {head subject : Digest} {intent : Intent} {seg log : List Entry}
    (h : StartedFor E head subject intent log) (hseg : NoLink seg) :
    StartedFor E head subject intent (seg ++ log) := by
  obtain ⟨mid, rest, rfl, hmid⟩ := h
  refine ⟨seg ++ mid, rest, by simp, fun w hw => ?_⟩
  rcases List.mem_append.mp hw with hw | hw
  · exact hseg w hw
  · exact hmid w hw

/-- The entries since the last link. -/
def sinceLink (log : List Entry) : List Entry :=
  log.takeWhile fun e => match e with
    | .link _ => false
    | _ => true

/-- The entry is this start. -/
def Entry.startsAs (token : Digest) (intent : Intent) : Entry → Bool
  | .txStart t i => t == token && i == intent
  | _ => false

/-- The entry is a priming. -/
def Entry.primes : Entry → Bool
  | .primed .. => true
  | _ => false

/-- The entries since the last link. -/
theorem sinceLink_eq (log : List Entry) : sinceLink log = History.recent Entry.isLink log := by
  refine congrArg (log.takeWhile ·) (funext fun e => ?_)
  cases e <;> rfl

theorem noLink_iff {log : List Entry} : NoLink log ↔ ∀ e ∈ log, e.isLink = false := by
  constructor
  · intro h e he
    cases e with
    | link w => exact absurd he (h w)
    | _ => rfl
  · intro h w hw
    cases h _ hw

/-- An entry stands since the last link when none came after it. -/
theorem mem_sinceLink {log : List Entry} {e : Entry} (he : e.isLink = false) :
    e ∈ sinceLink log ↔ ∃ mid rest, log = mid ++ e :: rest ∧ NoLink mid := by
  simp only [sinceLink_eq, noLink_iff]
  exact History.mem_recent he

instance (head subject : Digest) (intent : Intent) (log : List Entry) :
    Decidable (StartedFor E head subject intent log) :=
  decidable_of_iff ((sinceLink log).any (Entry.startsAs (tokenOf E head subject intent) intent)) <| by
    rw [StartedFor, ← mem_sinceLink rfl, List.any_eq_true]
    constructor
    · rintro ⟨e, hmem, hstarts⟩
      cases e with
      | txStart t i =>
        simp only [Entry.startsAs, Bool.and_eq_true, beq_iff_eq] at hstarts
        obtain ⟨rfl, rfl⟩ := hstarts
        exact hmem
      | _ => cases hstarts
    · exact fun hmem => ⟨_, hmem, by simp [Entry.startsAs]⟩

instance (log : List Entry) : Decidable (PrimedSince log) :=
  decidable_of_iff ((sinceLink log).any Entry.primes) <| by
    rw [List.any_eq_true]
    constructor
    · rintro ⟨e, hmem, hprimes⟩
      cases e with
      | primed a s =>
        obtain ⟨mid, rest, hlog, hmid⟩ := (mem_sinceLink rfl).mp hmem
        exact ⟨mid, rest, a, s, hlog, hmid⟩
      | _ => cases hprimes
    · rintro ⟨mid, rest, a, s, hlog, hmid⟩
      exact ⟨_, (mem_sinceLink rfl).mpr ⟨mid, rest, hlog, hmid⟩, rfl⟩

/-- The budget use this entry is the link of. -/
def Entry.use : Entry → Option Welded
  | .link w => if w.link.selfPress then some w else none
  | _ => none

/-- What is to hold of every use of a log, at its place. -/
theorem guarded_uses {p : List Entry → Welded → Prop} {log : List Entry} :
    History.Guarded (fun past e => ∀ w ∈ e.use, p past w) log ↔
      ∀ post w pre, log = post ++ .link w :: pre → w.link.selfPress = true → p pre w := by
  constructor
  · intro h post w pre hlog hpaid
    exact h post (.link w) pre hlog w (by simp [Entry.use, hpaid])
  · intro h post e pre hlog w hw
    cases e with
    | link v =>
      simp only [Entry.use] at hw
      split at hw
      · obtain rfl := Option.some.inj hw
        exact h post v pre hlog ‹_›
      · cases hw
    | _ => cases hw

instance (log : List Entry) : Decidable (Announced E log) :=
  decidable_of_iff _ (guarded_uses (p := fun past w =>
    StartedFor E w.prev w.link.subject w.link.intent past))

instance (log : List Entry) : Decidable (PrimedAfresh log) :=
  decidable_of_iff _ (guarded_uses (p := fun past _ => PrimedSince past))

/-! ### The start, and the operation that waits -/

/-- The last priming of the waiting operation, and the head it was checked against. -/
def PrimedAt (E : Env) (k : Key) (mid rest : List Entry) (head : Digest) : Prop :=
  k.log = mid ++ .primed head k.pend.subject :: rest ∧ (∀ h s, .primed h s ∉ mid) ∧
    StartedFor E head k.pend.subject (k.pend.intent.getD (Bytes.zero 16)) rest ∧
    (NoLink mid → k.st.head = head ∨ ∀ j, (k.budgets j).id = 0)

/-- What the key has pending is what its log started or primed since the last link. -/
structure Announces (E : Env) (k : Key) : Prop where
  start : k.started = true → k.txHasIntent = (k.txIntent != Bytes.zero 16) ∧
    ∃ mid rest, k.log = mid ++ .txStart k.txToken k.txIntent :: rest ∧ NoLink mid
  primed : k.pend.budget.isSome = true → ∃ mid rest head, PrimedAt E k mid rest head

/-- The start and what is pending are left alone, or nothing is to be paid. -/
structure Aside (k k' : Key) : Prop where
  started : k'.started = k.started
  token : k'.txToken = k.txToken
  intent : k'.txIntent = k.txIntent
  hasIntent : k'.txHasIntent = k.txHasIntent
  pay : (k'.pend.budget = k.pend.budget ∧ k'.pend.subject = k.pend.subject ∧
    k'.pend.intent = k.pend.intent) ∨ k'.pend.budget = none
  log : ∃ seg, k'.log = seg ++ k.log ∧ ∀ e ∈ seg, e.plain = true

/-- A step that adds plain entries alone is aside. -/
theorem Aside.of_log (seg : List Entry) (hseg : ∀ e ∈ seg, e.plain = true) {budgets : Fin 4 → Budget}
    {staged : Staged} {press : Press} {out : List Reply} :
    Aside k { k with
      budgets := budgets, staged := staged, press := press, out := out, log := seg ++ k.log } :=
  ⟨rfl, rfl, rfl, rfl, Or.inl ⟨rfl, rfl, rfl⟩, seg, rfl, hseg⟩

theorem Still.aside (h : Still k k') : Aside k k' := by
  refine ⟨h.started, h.txToken, h.txIntent, h.txHasIntent,
    Or.inl ⟨h.pendBudget, h.pendSubject, h.pendIntent⟩, ?_⟩
  rcases h.log with hl | ⟨w, hl⟩ | ⟨p, t, hl⟩
  · exact ⟨[], hl, by simp⟩
  · exact ⟨[.ran w], hl, by simp [Entry.plain]⟩
  · exact ⟨[.opened p t], hl, by simp [Entry.plain]⟩

theorem Aside.trans (h : Aside k m) (h' : Aside m k') : Aside k k' := by
  refine ⟨h'.started.trans h.started, h'.token.trans h.token, h'.intent.trans h.intent,
    h'.hasIntent.trans h.hasIntent, ?_, ?_⟩
  · rcases h'.pay with ⟨hb, hs, hi⟩ | hnone
    · rcases h.pay with ⟨hb', hs', hi'⟩ | hnone
      · exact Or.inl ⟨hb.trans hb', hs.trans hs', hi.trans hi'⟩
      · exact Or.inr (hb.trans hnone)
    · exact Or.inr hnone
  · obtain ⟨seg, hlog, hseg⟩ := h.log
    obtain ⟨seg', hlog', hseg'⟩ := h'.log
    refine ⟨seg' ++ seg, by rw [hlog', hlog, List.append_assoc], fun e he => ?_⟩
    exact (List.mem_append.mp he).elim (hseg' e) (hseg e)

theorem Aside.status (h : Aside k k') (code : UInt8) : Aside k (k'.status code) :=
  h.trans ⟨rfl, rfl, rfl, rfl, Or.inl ⟨rfl, rfl, rfl⟩, [], rfl, by simp⟩

/-- A request that waits for its press ends the pending one. -/
theorem Aside.pressWait (h : Aside k m) (t : Clock) (what : PressKind) (subject : Digest)
    (request : Report) : Aside k (m.pressWait E t what subject request) :=
  h.trans ⟨rfl, rfl, rfl, rfl, Or.inr rfl, [_], rfl, by simp [Entry.plain]⟩

/-- So is one that sets what waits for a press. -/
theorem Aside.setPress (h : Aside k m) (p : Press) : Aside k { m with press := p } :=
  h.trans (Aside.of_log [] (by simp))

/-- A label that is staged is aside. -/
theorem grantLabel_aside (t : Clock) (buf : Report) (k : Key) :
    Aside k (k.grantLabel E t buf) := by
  unfold Key.grantLabel
  split
  · exact Aside.status (Aside.of_log [_] (by simp [Entry.plain])) _
  · exact Aside.status (Aside.of_log [] (by simp)) _

/-- A request for a budget is aside. -/
theorem grantCreate_aside (t : Clock) (d : Draw) (buf : Report) (k : Key) :
    Aside k (k.grantCreate E t d buf) := by
  have hconsume : Aside k ((({ k with staged := Staged.blank }).pressDrop).push .consumed) :=
    Aside.of_log [.consumed] (by simp [Entry.plain])
  unfold Key.grantCreate
  dsimp only
  split
  · exact hconsume.status _
  · split
    · exact hconsume.status _
    · split
      · exact (hconsume.setPress _).status _
      · split
        · exact hconsume.status _
        · split
          · exact hconsume.status _
          · exact (hconsume.setPress _).pressWait _ _ _ _

theorem pressDrop_aside (k : Key) : Aside k k.pressDrop := Aside.of_log [] (by simp)

theorem recvResume_aside (t : Clock) (buf : Report) (k : Key) :
    Aside k (k.recvResume E t buf) := by
  have hdrop := pressDrop_aside k
  unfold Key.recvResume
  dsimp only
  split
  · exact hdrop.status _
  · split
    · exact hdrop.status _
    · split
      · exact hdrop.status _
      · exact (hdrop.setPress _).pressWait _ _ _ _

theorem recvSettle_aside (t : Clock) (buf : Report) (k : Key) :
    Aside k (k.recvSettle E t buf) := by
  unfold Key.recvSettle
  dsimp only
  split
  · exact (pressDrop_aside k).status _
  · exact (pressDrop_aside k).pressWait _ _ _ _

theorem recvLoss_aside (t : Clock) (buf : Report) (k : Key) : Aside k (k.recvLoss E t buf) := by
  have hdrop := pressDrop_aside k
  unfold Key.recvLoss
  dsimp only
  split
  · exact hdrop.status _
  · exact (hdrop.setPress _).pressWait _ _ _ _

/-! ### What keeps it -/

/-- The last priming, some entries later. -/
theorem PrimedAt.later {mid rest seg : List Entry} {head : Digest} (h : PrimedAt E k mid rest head)
    (hsubject : k'.pend.subject = k.pend.subject) (hintent : k'.pend.intent = k.pend.intent)
    (hlog : k'.log = seg ++ k.log) (hseg : ∀ a s, .primed a s ∉ seg)
    (hlast : NoLink seg → (k'.st.head = k.st.head ∧ k'.budgets = k.budgets) ∨
      ∀ j, (k'.budgets j).id = 0) :
    PrimedAt E k' (seg ++ mid) rest head := by
  obtain ⟨hprimed, hnot, hstart, hhead⟩ := h
  refine ⟨?_, fun a s hmem => ?_, ?_, fun hno => ?_⟩
  · rw [hlog, hprimed, hsubject, List.append_assoc]
  · exact (List.mem_append.mp hmem).elim (hseg a s) (hnot a s)
  · rw [hsubject, hintent]
    exact hstart
  · rcases hlast fun w hw => hno w (List.mem_append_left _ hw) with ⟨hh, hbudgets⟩ | hblank
    · rw [hh, hbudgets]
      exact hhead hno.of_append
    · exact Or.inr hblank

/-- What neither welds nor primes. -/
theorem Announces.aside (hk : Announces E k) (h : Aside k k')
    (hhead : (k'.st.head = k.st.head ∧ k'.budgets = k.budgets) ∨ ∀ j, (k'.budgets j).id = 0) :
    Announces E k' := by
  obtain ⟨seg, hlog, hseg⟩ := h.log
  constructor
  · intro hs
    rw [h.started] at hs
    obtain ⟨hintent, mid, rest, hstart, hmid⟩ := hk.start hs
    rw [h.hasIntent, h.intent, h.token]
    exact ⟨hintent, seg ++ mid, rest, by rw [hlog, hstart, List.append_assoc], hmid.append hseg⟩
  · intro hpay
    rcases h.pay with ⟨hb, hs, hi⟩ | hnone
    · rw [hb] at hpay
      obtain ⟨mid, rest, head, hprimed⟩ := hk.primed hpay
      refine ⟨_, rest, head, hprimed.later hs hi hlog (fun a s hmem => ?_) fun _ => hhead⟩
      exact absurd (hseg _ hmem) (by simp [Entry.plain])
    · rw [hnone] at hpay
      cases hpay

theorem Announces.weldIn (hk : Announces E k) {link : Link} {reveal : Option Digest}
    (hpend : m.pend = k.pend) (hmlog : m.log = k.log) : Announces E (m.weldIn E link reveal) := by
  constructor
  · intro hs
    cases hs
  · intro hpay
    have hpend' : (m.weldIn E link reveal).pend = k.pend := hpend
    rw [hpend'] at hpay
    obtain ⟨mid, rest, head, hprimed⟩ := hk.primed hpay
    obtain ⟨w, side, sector, hlog⟩ : ∃ w side sector,
        (m.weldIn E link reveal).log = [.link w, .saved side sector] ++ k.log := by
      rw [← hmlog]
      exact ⟨_, _, _, weldIn_log link reveal m⟩
    refine ⟨_, rest, head, hprimed.later (by rw [hpend']) (by rw [hpend']) hlog (by simp)
      fun hno => ?_⟩
    exact absurd List.mem_cons_self (hno w)

/-- A priming that finds a budget to pay checked the token of the start. -/
theorem okcorePrime_announces (hk : Announces E k) (t : Clock) {opcode : UInt8} (slot : UInt8)
    (msg : List UInt8) (mode : InputMode) (hedge : opcode ≠ okEdge)
    (hload : opcode = okSign ∨ opcode = okDecrypt → k.loaded = true) :
    Announces E (k.okcorePrime E t opcode slot msg mode) := by
  unfold Key.okcorePrime Key.primed
  dsimp only
  rw [if_neg hedge]
  split
  · exact ⟨hk.start, fun h => nomatch h⟩
  · rename_i hop
    have hloaded : k.loaded = true := hload (by tauto)
    rw [stateLoad_of_loaded (by exact hloaded)]
    split
    · exact ⟨fun h => (nomatch h), fun h => (nomatch h)⟩
    · rename_i hmatch
      unfold Key.choosePayer
      split
      · rename_i i j hpays
        -- a budget pays only under a pending start, whose token is the one checked
        have hs : k.started = true := by
          by_contra hno
          have hoff : k.started = false := by simpa using hno
          simp [Key.budgetFor, hoff] at hpays
        obtain ⟨hintent, mid, rest, hstart, hmid⟩ := hk.start hs
        have htoken : tokenOf E k.st.head (E.sha256 msg) k.txIntent = k.txToken := by
          simpa [Key.txMismatch, hs] using hmatch
        have hcarried : ((if k.started && k.txHasIntent then some k.txIntent else none).getD
            (Bytes.zero 16)) = k.txIntent := by
          rw [hs, hintent]
          by_cases hz : k.txIntent = Bytes.zero 16
          · simp [hz]
          · simp [hz]
        refine ⟨fun _ => ⟨hintent, .primed k.st.head (E.sha256 msg) :: mid, rest, ?_, ?_⟩, fun _ =>
          ⟨[], k.log, k.st.head, rfl, fun _ _ h => (nomatch h), ⟨mid, rest, ?_, hmid⟩,
            fun _ => Or.inl rfl⟩⟩
        · show .primed k.st.head (E.sha256 msg) :: k.log = _
          rw [hstart]
          rfl
        · intro w hw
          simp only [List.mem_cons, reduceCtorEq, false_or] at hw
          exact hmid w hw
        · refine hstart.trans ?_
          rw [← htoken]
          dsimp only [Key.push]
          rw [hcarried]
      · exact ⟨fun h => (nomatch h), fun h => (nomatch h)⟩

/-- A step in the key's memory keeps what is pending in its log. -/
theorem Ram.announces (h : Ram E l k k') (hk : Announces E k) : Announces E k' := by
  have hsame := h.sameChain
  have hhead : k'.st.head = k.st.head ∧ k'.budgets = k.budgets :=
    ⟨by rw [hsame.st], hsame.budgets⟩
  cases h with
  | still h => exact hk.aside h.aside (Or.inl hhead)
  | stage t buf => exact hk.aside (grantLabel_aside t buf k) (Or.inl hhead)
  | request t d buf => exact hk.aside (grantCreate_aside t d buf k) (Or.inl hhead)
  | askResume t buf => exact hk.aside (recvResume_aside t buf k) (Or.inl hhead)
  | askSettle t buf => exact hk.aside (recvSettle_aside t buf k) (Or.inl hhead)
  | askLoss t buf => exact hk.aside (recvLoss_aside t buf k) (Or.inl hhead)
  | prime t opcode slot msg mode hop hload =>
    exact okcorePrime_announces hk t slot msg mode hop hload

/-- A start is announced, and is what the token was made for. -/
theorem recvTxStart_announces (hk : Announces E k) (t : Clock) (buf : Report) :
    Announces E (k.recvTxStart t buf) := by
  unfold Key.recvTxStart
  dsimp only
  split
  · exact hk.aside ⟨rfl, rfl, rfl, rfl, Or.inl ⟨rfl, rfl, rfl⟩, [], rfl, by simp⟩
      (Or.inl ⟨rfl, rfl⟩)
  · split
    · exact hk.aside ⟨rfl, rfl, rfl, rfl, Or.inl ⟨rfl, rfl, rfl⟩, [], rfl, by simp⟩
        (Or.inl ⟨rfl, rfl⟩)
    · refine ⟨fun _ => ⟨rfl, [], k.log, rfl, fun w hw => (nomatch hw)⟩, fun hpay => ?_⟩
      obtain ⟨mid, rest, head, hprimed⟩ := hk.primed hpay
      exact ⟨_, rest, head, hprimed.later rfl rfl (show _ = [.txStart _ _] ++ k.log from rfl)
        (by simp) fun _ => Or.inl ⟨rfl, rfl⟩⟩

/-- A key that loads its record has neither a start nor an identity. -/
theorem stateLoad_announces (hk : Announces E k) (hsane : Sane k) (hload : k.loaded = false) :
    Announces E (k.stateLoad E) := by
  -- before the record is loaded nothing is live
  have hid : k.ident = none := by
    cases hi : k.ident with
    | none => rfl
    | some id =>
      have hl := hsane.loaded (by rw [hi]; rfl)
      rw [hload] at hl
      cases hl
  have hframe := stateLoad_frame E k
  have hoff : k.started = false := by
    cases hs : k.started with
    | false => rfl
    | true =>
      have hi := hsane.started hs
      rw [hid] at hi
      cases hi
  constructor
  · intro hs
    rw [hframe.2.2.1, hoff] at hs
    cases hs
  · intro hpay
    have hpend := (stateLoad_requests E k).pend
    rw [hpend] at hpay
    obtain ⟨mid, rest, head, hprimed, hnot, hstart, -⟩ := hk.primed hpay
    refine ⟨mid, rest, head, ?_, hnot, ?_, fun _ => Or.inr fun j => ?_⟩
    · rw [stateLoad_log, hpend]
      exact hprimed
    · rw [hpend]
      exact hstart
    · rw [hframe.2.1, hsane.budgets hid]
      rfl

/-- Without a start and without budgets nothing pays. -/
theorem Announces.cleared (hk : Announces E k) (hstarted : k'.started = false)
    (hpend : k'.pend.budget = k.pend.budget ∧ k'.pend.subject = k.pend.subject ∧
      k'.pend.intent = k.pend.intent) {seg : List Entry} (hlog : k'.log = seg ++ k.log)
    (hseg : ∀ a s, .primed a s ∉ seg) (hblank : ∀ j, (k'.budgets j).id = 0) : Announces E k' := by
  constructor
  · intro hs
    rw [hstarted] at hs
    cases hs
  · intro hpay
    rw [hpend.1] at hpay
    obtain ⟨mid, rest, head, hprimed⟩ := hk.primed hpay
    exact ⟨_, rest, head, hprimed.later hpend.2.1 hpend.2.2 hlog hseg fun _ => Or.inr hblank⟩

theorem Move.announces (h : Move E l k k') (hsane : Sane k) (hk : Announces E k) :
    Announces E k' := by
  cases h with
  | ram h => exact h.announces hk
  | announce t buf hload hid => exact recvTxStart_announces hk t buf
  | load hload => exact stateLoad_announces hk hsane hload
  | salt salt hload hid hsalt =>
    exact hk.aside ⟨rfl, rfl, rfl, rfl, Or.inl ⟨rfl, rfl, rfl⟩, [_, _], rfl, by simp [Entry.plain]⟩
      (Or.inl ⟨rfl, rfl⟩)
  | known =>
    exact hk.aside ⟨rfl, rfl, rfl, rfl, Or.inl ⟨rfl, rfl, rfl⟩, [], rfl, by simp⟩
      (Or.inl ⟨rfl, rfl⟩)
  | genesis hload hid =>
    -- before the identity is known no budget is there
    refine hk.aside ⟨rfl, rfl, rfl, rfl, Or.inl ⟨rfl, rfl, rfl⟩, [_], rfl, by simp [Entry.plain]⟩
      (Or.inr fun j => ?_)
    show (k.budgets j).id = 0
    rw [hsane.budgets hid]
    rfl
  | continued hload hid =>
    rename_i id _ _ _
    have hready : Announces E { k.continuing E id with nextIntent := none } :=
      hk.cleared rfl ⟨rfl, rfl, rfl⟩ (show _ = [] ++ k.log from rfl) (by simp) fun _ => rfl
    exact hready.weldIn rfl rfl
  | resave =>
    exact hk.aside ⟨rfl, rfl, rfl, rfl, Or.inl ⟨rfl, rfl, rfl⟩, [_], rfl, by simp [Entry.plain]⟩
      (Or.inl ⟨rfl, rfl⟩)
  | act hload hid hact =>
    rename_i link reveal budgets
    exact hk.weldIn (m := { k with budgets := budgets, nextIntent := none }) rfl rfl
  | restore sec hload hsec =>
    rw [restore_eq sec hload hsec]
    obtain ⟨side, sector, hlog⟩ : ∃ side sector,
        (k.restored E (Key.sectionState k.st.gen sec)).log =
          [.restored (Key.sectionState k.st.gen sec), .saved side sector] ++ k.log :=
      ⟨_, _, restored_log (sectionState_gen k.st.gen sec)⟩
    exact hk.cleared rfl ⟨rfl, rfl, rfl⟩ hlog (by simp) fun _ => rfl
  | wipe =>
    exact hk.cleared rfl ⟨rfl, rfl, rfl⟩ (show _ = [.wiped] ++ k.log from rfl) (by simp)
      fun _ => rfl

theorem Trace.announces (h : Trace E k) : Announces E k := by
  induction h with
  | new core => exact ⟨fun h => (nomatch h), fun h => (nomatch h)⟩
  | move htrace hmove ih => exact hmove.announces htrace.sane ih
  | boot core _ _ _ => exact ⟨fun h => (nomatch h), fun h => (nomatch h)⟩

/-! ### The link -/

/-- An entry that primes nothing leaves the primings before it. -/
theorem PrimedSince.tail {log : List Entry} {e : Entry} (h : PrimedSince (e :: log))
    (he : ∀ a s, e ≠ .primed a s) : PrimedSince log := by
  obtain ⟨mid, rest, a, s, hlog, hmid⟩ := h
  rcases mid with - | ⟨e', mid⟩
  · exact absurd (List.cons.inj hlog).1 (he a s)
  · exact ⟨mid, rest, a, s, (List.cons.inj hlog).2, fun w hw => hmid w (List.mem_cons_of_mem _ hw)⟩

/-- If any priming came after the last link, the last one did. -/
theorem PrimedAt.noLink {mid rest : List Entry} {head : Digest} (h : PrimedAt E k mid rest head)
    (hsince : PrimedSince k.log) : NoLink mid := by
  obtain ⟨hlog, hnot, -, -⟩ := h
  obtain ⟨mid', rest', a, s, hlog', hmid'⟩ := hsince
  rw [hlog] at hlog'
  rcases List.append_eq_append_iff.mp hlog' with ⟨between, rfl, -⟩ | ⟨between, rfl, hrest⟩
  · exact fun w hw => hmid' w (List.mem_append_left _ hw)
  · rcases between with - | ⟨e, between⟩
    · rw [List.append_nil]
      exact hmid'
    · obtain ⟨rfl, -⟩ := List.cons.inj hrest
      exact absurd (List.mem_append_right _ List.mem_cons_self) (hnot a s)

/-- The use of a budget carries what its start announced. -/
theorem Act.announced {link : Link} {reveal : Option Digest} {budgets : Fin 4 → Budget}
    (h : Act E k l link reveal budgets) (hsane : Sane k) (hk : Announces E k)
    (hpaid : link.selfPress = true) (hsince : PrimedSince k.log) :
    StartedFor E k.st.head link.subject link.intent k.log := by
  cases h with
  | spend hpend _ _ halive =>
    obtain ⟨mid, rest, head, hprimed⟩ := hk.primed (by rw [hpend]; rfl)
    have hno := hprimed.noLink hsince
    obtain ⟨hlog, -, hstart, hlast⟩ := hprimed
    have hhead : k.st.head = head :=
      (hlast hno).resolve_right fun hblank => id_ne_zero_of_alive halive (hblank _)
    have hintent : (if k.pend.intent.isSome then k.pend.intent else k.nextIntent).getD
        (Bytes.zero 16) = k.pend.intent.getD (Bytes.zero 16) := by
      rw [hsane.intent]
      cases k.pend.intent <;> rfl
    show StartedFor E k.st.head k.pend.subject
      ((if k.pend.intent.isSome then k.pend.intent else k.nextIntent).getD (Bytes.zero 16)) k.log
    rw [hintent, hhead, hlog, List.append_cons]
    refine hstart.append fun w hw => ?_
    rcases List.mem_append.mp hw with hw | hw
    · exact hno w hw
    · simp at hw
  | _ =>
    simp [Link.selfPress, Key.nextLink, opSign, opDecrypt, opGrantCreate, opGrantEnd, opReceipt,
      opLoss, opGrantHold, opGrantResume] at hpaid

/-- A use primed since the last link was announced over the head it is welded on. -/
def Told (E : Env) (log : List Entry) : Prop :=
  History.Guarded (fun past e => ∀ w, e = .link w → w.link.selfPress = true → PrimedSince past →
    StartedFor E w.prev w.link.subject w.link.intent past) log

/-- An entry that is no link leaves every use announced as it was. -/
theorem Told.cons {log : List Entry} {e : Entry} (h : Told E log) (he : ∀ w, e ≠ .link w) :
    Told E (e :: log) :=
  History.Guarded.cons h fun w hw => absurd hw (he w)

theorem SameChain.told (h : SameChain E k k') (hk : Told E k.log) : Told E k'.log := by
  obtain ⟨seg, hlog, hseg⟩ := h.log
  rw [hlog]
  refine hk.append fun e he _ w hw => ?_
  rw [hw] at he
  exact absurd (hseg _ he) (by simp [Entry.silent])

/-- Every move keeps each use announced or told apart. -/
theorem Move.told (h : Move E l k k') (hsane : Sane k) (hk : Announces E k) (htold : Told E k.log) :
    Told E k'.log := by
  cases h with
  | ram h => exact h.sameChain.told htold
  | announce t buf =>
    rcases recvTxStart_cases t buf k with hstill | ⟨-, -, token, intent, htx⟩
    · exact SameChain.told hstill.sameChain htold
    · rw [htx]
      exact htold.cons (by simp)
  | load _ =>
    rw [stateLoad_log]
    exact htold
  | salt salt => exact (htold.cons (by simp)).cons (by simp)
  | known => exact htold
  | genesis => exact htold.cons (by simp)
  | continued hload =>
    rename_i id _ _ _ _
    rw [continued_log]
    refine History.Guarded.cons (htold.cons (by simp)) fun w hw hpaid _ => ?_
    -- the continue link is no use
    obtain rfl := Entry.link.inj hw
    simp [Link.selfPress, Key.continueLink, Key.nextLink, opSign, opDecrypt, opContinue] at hpaid
  | resave => exact htold.cons (by simp)
  | act hload hid hact =>
    rw [weldIn_log]
    refine History.Guarded.cons (htold.cons (by simp)) fun w hw hpaid hsince => ?_
    obtain rfl := Entry.link.inj hw
    have hstart := hact.announced hsane hk hpaid (hsince.tail (by simp))
    have hno : ∀ side sector, NoLink [.saved side sector] := by simp [NoLink]
    exact hstart.append (hno _ _)
  | restore sec hload hsec =>
    rw [restore_eq sec hload hsec, restored_log (sectionState_gen k.st.gen sec)]
    exact (htold.cons (by simp)).cons (by simp)
  | wipe => exact htold.cons (by simp)

theorem Trace.told (h : Trace E k) : Told E k.log := by
  induction h with
  | new core => exact History.guarded_nil
  | move htrace hmove ih => exact hmove.told htrace.sane htrace.announces ih
  | boot core _ _ ih => exact ih.cons (by simp)

/-- If no link came between the priming of a use and its own, every use was announced over the
head it is welded on, with its subject and intent. -/
theorem use_is_announced (h : Reachable E k) (hfresh : PrimedAfresh k.log) : Announced E k.log :=
  fun post w pre hlog hpaid => h.trace.told post _ pre hlog w rfl hpaid (hfresh post w pre hlog hpaid)

theorem use_is_announced_of_use : Announced Demo.env Demo.usedOnce.log :=
  use_is_announced Demo.reachable_usedOnce (by decide +kernel)

namespace Demo

/-- A paid operation is primed, a second budget is revoked, another message is announced, and the
operation runs. -/
def usedUnderAnother : Key :=
  let k := primed 1 [1, 2, 3] 20 (opened 2 5 0 10 (opened 1 5 0 10 started))
  let revoke := request 0x12 (Bytes.le32 (k.budgets 1).id).toList
  let k := play env [.recv revoke (clock 20) draw] k
  play env [.recv (txRequest [4, 5, 6] k) (clock 20) draw, .run (clock 20) draw] k

/-- The run of the counterexample can happen. -/
theorem reachable_usedUnderAnother : Reachable env usedUnderAnother := by
  have hstarted : started.now ≤ 10 := by decide +kernel
  have hsecond := reachable_opened 2 5 0 (n := 10) (reachable_opened 1 5 0 reachable_started hstarted)
    (by decide +kernel)
  have hprimed := reachable_primed 1 [1, 2, 3] (n := 20) hsecond (by decide +kernel)
  refine reachable_play _ (reachable_play _ hprimed ⟨clock_from ?_, trivial⟩)
    ⟨clock_from ?_, clock_from le_rfl, trivial⟩
  · decide +kernel
  · decide +kernel

end Demo

/-- A use may be welded under a start that announced another message. -/
theorem use_under_another_start :
    ¬ ∀ (E : Env) (k : Key), Reachable E k → Announced E k.log := by
  intro h
  exact absurd (h Demo.env _ Demo.reachable_usedUnderAnother) (by decide +kernel)

end OkRn.Edge
