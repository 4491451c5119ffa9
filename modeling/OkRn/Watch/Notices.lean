/-
OkRn/Watch/Notices.lean

The numbers of the phone's notices: under which id each is posted, under which
request code, and what a tap on it opens.

Links and budgets share the low 24 bits of one range, whichever chain they are of;
a Bluetooth alarm has 16 bits in the midst of that range, and the two fixed ids lie
in it too.  `Posting.Meet` says in numbers when two notices have an id or a request
code in common (`ne_numbers_iff`).

`notices_keep_apart_iff`: all along a run no event is posted on another's id or
request code, and each tap opens what its notice is about, exactly when every event
told of meets no other told of before or with it, and has a number below 10⁹.

`refused_starts_share_a_notice` is a run where two of them do meet: both are posted under
the one fixed id.  The condition of a step is `NumbersApart`, in numbers only.
-/
import OkRn.Watch.Alarms
import OkRn.Watch.Refused

namespace OkRn.Watch

open OkRn.Edge

/-! ### The native side -/

/-- The calls that put up a notice. -/
inductive Posting
  /-- `post`, with a link's seq or a budget's id. -/
  | post (seq : UInt32)
  | postBluetooth (id : Nat)
  /-- The watchdog's. -/
  | stopped
  /-- The Hold receiver's. -/
  | holdWaiting
  deriving DecidableEq

/-- `BT_SEQ_BASE`. -/
def btSeqBase : Nat := 1000000000

/-- What a tap opens. -/
inductive Place
  | edge (focus : Nat)
  | bluetooth
  | app
  deriving DecidableEq

namespace Posting

/-- The id given to `notify`. -/
def id : Posting → Nat
  | post seq => 0x0E000000 + (seq.toNat &&& 0xffffff)
  | postBluetooth id => 0x0E100000 + (id &&& 0xffff)
  | stopped => 0x0E0F0001
  | holdWaiting => 0x0E0F0002

/-- `EXTRA_SEQ`. -/
def extraSeq : Posting → Option Nat
  | post seq => some seq.toNat
  | postBluetooth id => some (btSeqBase + (id &&& 0xffff))
  | stopped => none
  | holdWaiting => none

/-- The request code of the notice's intent. -/
def requestCode : Posting → Nat
  | post seq => seq.toNat &&& 0x7fffffff
  | postBluetooth id => (btSeqBase + (id &&& 0xffff)) &&& 0x7fffffff
  | stopped => 1
  | holdWaiting => 0

/-- `takeOpenedAlarm`, as the app reads it. -/
def opens (p : Posting) : Place :=
  match p.extraSeq with
  | none => .app
  | some s => if btSeqBase ≤ s then .bluetooth else .edge s

/-- Two postings with a number in common. -/
def Meet : Posting → Posting → Prop
  | post s, post t => s.toNat % 2 ^ 24 = t.toNat % 2 ^ 24
  | post s, postBluetooth b | postBluetooth b, post s =>
      s.toNat % 2 ^ 24 = 2 ^ 20 + b % 2 ^ 16 ∨ s.toNat % 2 ^ 31 = 10 ^ 9 + b % 2 ^ 16
  | post s, stopped | stopped, post s => s.toNat % 2 ^ 24 = 983041 ∨ s.toNat % 2 ^ 31 = 1
  | post s, holdWaiting | holdWaiting, post s =>
      s.toNat % 2 ^ 24 = 983042 ∨ s.toNat % 2 ^ 31 = 0
  | postBluetooth b, postBluetooth c => b % 2 ^ 16 = c % 2 ^ 16
  | stopped, stopped | holdWaiting, holdWaiting => True
  | postBluetooth _, stopped | stopped, postBluetooth _ => False
  | postBluetooth _, holdWaiting | holdWaiting, postBluetooth _ => False
  | stopped, holdWaiting | holdWaiting, stopped => False

theorem low24 (n : Nat) : n &&& 0xffffff = n % 2 ^ 24 := Nat.and_two_pow_sub_one_eq_mod n 24

theorem low16 (n : Nat) : n &&& 0xffff = n % 2 ^ 16 := Nat.and_two_pow_sub_one_eq_mod n 16

theorem low31 (n : Nat) : n &&& 0x7fffffff = n % 2 ^ 31 := Nat.and_two_pow_sub_one_eq_mod n 31

/-- A Bluetooth alarm's code is below it. -/
theorem low31_bluetooth (b : Nat) :
    (1000000000 + b % 2 ^ 16) % 2 ^ 31 = 1000000000 + b % 2 ^ 16 := by
  have hb : b % 2 ^ 16 < 2 ^ 16 := Nat.mod_lt _ (by decide)
  exact Nat.mod_eq_of_lt (by omega)

/-- Notices with neither number in common are those that do not meet. -/
theorem ne_numbers_iff (p q : Posting) :
    (p.id ≠ q.id ∧ p.requestCode ≠ q.requestCode) ↔ ¬ p.Meet q := by
  cases p <;> cases q <;>
    simp only [id, requestCode, Meet, btSeqBase, low24, low16, low31,
      low31_bluetooth, not_true_eq_false, not_false_eq_true, iff_true, iff_false] <;> omega

/-- Below 10⁹ a link opens on the Edge tab. -/
theorem opens_post_iff (s : UInt32) : (post s).opens = .edge s.toNat ↔ s.toNat < 10 ^ 9 := by
  show (if btSeqBase ≤ s.toNat then Place.bluetooth else .edge s.toNat) = _ ↔ _
  unfold btSeqBase
  split
  · simp
    omega
  · simp
    omega

/-- A tap on it opens the Bluetooth screen. -/
theorem opens_postBluetooth (b : Nat) : (postBluetooth b).opens = .bluetooth := by
  show (if btSeqBase ≤ btSeqBase + _ then Place.bluetooth else _) = _
  rw [if_pos (Nat.le_add_right _ _)]

end Posting

/-! ### The events -/

/-- What a notice is about; a chain goes by its key's device id. -/
inductive Happening
  | alarmReceipt (device : String) (receipt : UInt32)
  | overdue (device : String) (use : UInt32)
  /-- Refused TX starts, told of in the notice at this place. -/
  | refused (device : String) (nth : Nat)
  | ended (device : String) (grantId : UInt32)
  /-- A Bluetooth alarm, told of in the notice at this place. -/
  | bluetooth (nth : Nat)
  | stopped
  | hold
  deriving DecidableEq

/-- A notice, with what it is about. -/
structure Notice where
  about : Happening
  posting : Posting
  deriving DecidableEq

/-- A tap opens what the notice is about: the link, or else the tab. -/
def Notice.Aimed (n : Notice) : Prop :=
  match n.posting with
  | .post s => n.posting.opens = .edge s.toNat
  | .postBluetooth _ => n.posting.opens = .bluetooth
  | _ => n.posting.opens = .app

/-- It opens the right thing where its number is below 10⁹. -/
theorem Notice.aimed_iff (n : Notice) :
    n.Aimed ↔ ∀ s, n.posting = .post s → s.toNat < 10 ^ 9 := by
  obtain ⟨about, posting⟩ := n
  cases posting with
  | post s =>
    refine (Posting.opens_post_iff s).trans ?_
    constructor
    · rintro h s ⟨⟩
      exact h
    · exact fun h => h s rfl
  | postBluetooth b =>
    exact iff_of_true (Posting.opens_postBluetooth b) fun s h => by cases h
  | stopped => exact iff_of_true rfl fun s h => by cases h
  | holdWaiting => exact iff_of_true rfl fun s h => by cases h

/-! ### The phone -/

/-- A budget of the key's past. -/
structure PastBudget where
  grantId : UInt32
  /-- `endedHow` is completed or expired. -/
  ended : Bool

/-- What a watch round is given, the clock and the rows' `seenAt` with it. -/
structure WatchState where
  refusedTx : Nat
  past : List PastBudget
  now : Nat
  seenAt : UInt32 → Nat

/-- What the rounds of a chain keep. -/
structure Kept where
  refused : Option Nat
  owed : List UInt32
  ended : Option (List UInt32)

/-- Every chain's copy, the lists kept for it, and the notices posted. -/
structure Panel where
  phones : String → Phone
  kept : String → Kept
  posted : List Notice

/-- What may cause a notice. -/
inductive PanelEvent
  /-- A link enters the copy of a chain. -/
  | enter (device : String) (l : Link)
  /-- `raiseAlarms`. -/
  | look (device : String)
  /-- `raiseWatchAlarms`. -/
  | watch (device : String) (st : WatchState)
  /-- `postBluetoothAlarm`. -/
  | bluetooth (id : Nat)
  | stopped
  | hold

/-- The last 100. -/
def last100 (l : List UInt32) : List UInt32 := l.drop (l.length - 100)

/-- The uses whose receipt is owed past 10 minutes and that were not told of. -/
def owedNew (L : ReceiptLib) (copy : List Link) (done : List UInt32) (st : WatchState) :
    List UInt32 :=
  (copy.filter fun l =>
    (L.pairReceipts copy l.seq).any (fun p => p.status == .waiting) && st.seenAt l.seq != 0 &&
      decide (600000 < st.now - st.seenAt l.seq) && !done.contains l.seq).map Link.seq

/-- The budgets that a state says have ended. -/
def endedIds (st : WatchState) : List UInt32 :=
  (st.past.filter PastBudget.ended).map PastBudget.grantId

/-- The first look at a chain only records. -/
def endedDone (kept : Kept) (st : WatchState) : List UInt32 := kept.ended.getD (endedIds st)

/-- Those of them not told of. -/
def endedNew (kept : Kept) (st : WatchState) : List UInt32 :=
  (endedIds st).filter fun b => !(endedDone kept st).contains b

namespace Panel

variable {L : ReceiptLib}

/-- The notices of `raiseAlarms`. -/
def lookNews (L : ReceiptLib) (w : Panel) (device : String) : List Notice :=
  match (w.phones device).copy, (w.phones device).kept with
  | newest :: _, some after =>
      if after < newest.seq then
        (alarmsAfter L (w.phones device).copy after).map fun a =>
          ⟨.alarmReceipt device a.about, .post a.seq⟩
      else []
  | _, _ => []

/-- The notices of `raiseWatchAlarms`. -/
def watchNews (L : ReceiptLib) (w : Panel) (device : String) (st : WatchState) : List Notice :=
  let copy := (w.phones device).copy
  let kept := w.kept device
  -- one for the refused starts, whatever their number, at the newest link of the copy
  ((raiseRefused st.refusedTx kept.refused).1.toList.map fun _ =>
      ⟨.refused device w.posted.length, .post ((copy.head?.map Link.seq).getD 0)⟩) ++
    ((owedNew L copy kept.owed st).map fun s => ⟨.overdue device s, .post s⟩) ++
      (endedNew kept st).map fun b => ⟨.ended device b, .post b⟩

/-- The notices an event puts up. -/
def news (L : ReceiptLib) (w : Panel) : PanelEvent → List Notice
  | .enter _ _ => []
  | .look device => w.lookNews L device
  | .watch device st => w.watchNews L device st
  | .bluetooth id => [⟨.bluetooth w.posted.length, .postBluetooth id⟩]
  | .stopped => [⟨.stopped, .stopped⟩]
  | .hold => [⟨.hold, .holdWaiting⟩]

/-- What a watch round remembers. -/
def Kept.after (L : ReceiptLib) (copy : List Link) (kept : Kept) (st : WatchState) : Kept where
  refused := (raiseRefused st.refusedTx kept.refused).2
  owed :=
    let new := owedNew L copy kept.owed st
    -- nothing is written where nothing was told of
    if new = [] then kept.owed else last100 (kept.owed ++ new)
  ended :=
    if kept.ended.isNone ∨ endedNew kept st ≠ [] then
      some (last100 (endedDone kept st ++ endedIds st).eraseDups)
    else kept.ended

/-- One event, and what it posts. -/
def step (L : ReceiptLib) (w : Panel) (e : PanelEvent) : Panel :=
  { posted := w.posted ++ w.news L e
    phones :=
      match e with
      | .enter device l => Function.update w.phones device ((w.phones device).enter l)
      | .look device => Function.update w.phones device ((w.phones device).raiseAlarms L)
      | _ => w.phones
    kept :=
      match e with
      | .watch device st =>
          Function.update w.kept device (Kept.after L (w.phones device).copy (w.kept device) st)
      | _ => w.kept }

/-- A phone that never watched. -/
def new : Panel := ⟨fun _ => Phone.new, fun _ => ⟨none, [], none⟩, []⟩

/-- From a fresh phone. -/
def run (L : ReceiptLib) (history : List PanelEvent) : Panel := history.foldl (step L) new

/-- Different events have different ids and request codes, and a tap opens what its notice is
about. -/
def Apart (w : Panel) : Prop :=
  (∀ a ∈ w.posted, ∀ b ∈ w.posted, a.about ≠ b.about →
    a.posting.id ≠ b.posting.id ∧ a.posting.requestCode ≠ b.posting.requestCode) ∧
      ∀ a ∈ w.posted, a.Aimed

/-- What is told of meets nothing else told of before or with it, and is below 10⁹. -/
def NumbersApart (L : ReceiptLib) (w : Panel) (e : PanelEvent) : Prop :=
  (∀ a ∈ w.posted ++ w.news L e, ∀ b ∈ w.news L e, a.about ≠ b.about →
    ¬ a.posting.Meet b.posting) ∧
      ∀ a ∈ w.news L e, ∀ s, a.posting = .post s → s.toNat < 10 ^ 9

/-- The notices stay apart exactly where the new ones meet none. -/
theorem Apart.step_iff {w : Panel} (h : w.Apart) (e : PanelEvent) :
    (w.step L e).Apart ↔ w.NumbersApart L e := by
  constructor
  · rintro ⟨hids, haim⟩
    constructor
    · intro a ha b hb hne
      exact (Posting.ne_numbers_iff _ _).mp (hids a ha b (List.mem_append_right _ hb) hne)
    · intro a ha
      exact a.aimed_iff.mp (haim a (List.mem_append_right _ ha))
  · rintro ⟨hmeet, hlow⟩
    have hnew : ∀ a ∈ w.posted ++ w.news L e, ∀ b ∈ w.news L e, a.about ≠ b.about →
        a.posting.id ≠ b.posting.id ∧ a.posting.requestCode ≠ b.posting.requestCode :=
      fun a ha b hb hne => (Posting.ne_numbers_iff _ _).mpr (hmeet a ha b hb hne)
    constructor
    · intro a ha b hb hne
      -- two old ones, an old and a new one either way round, or two new ones
      rcases List.mem_append.mp hb with hold | hb
      · rcases List.mem_append.mp ha with ha | ha
        · exact h.1 a ha b hold hne
        · obtain ⟨hid, hcode⟩ := hnew b (List.mem_append_left _ hold) a ha hne.symm
          exact ⟨hid.symm, hcode.symm⟩
      · exact hnew a ha b hb hne
    · intro a ha
      rcases List.mem_append.mp ha with ha | ha
      · exact h.2 a ha
      · exact a.aimed_iff.mpr (hlow a ha)

end Panel

/-! ### The result -/

/-- The notices of different events stay apart and open what they are about all along a run,
exactly when the events told of do not meet in numbers and are below 10⁹. -/
theorem notices_keep_apart_iff (L : ReceiptLib) (history : List PanelEvent) :
    (∀ past, past <+: history → (Panel.run L past).Apart) ↔
      ∀ past e, past ++ [e] <+: history → (Panel.run L past).NumbersApart L e :=
  steps_along_iff ⟨fun _ ha => (by cases ha), fun _ ha => (by cases ha)⟩
    (fun _ e h => h.step_iff e) history

/-- Two refused TX starts between which no link was made: the second notice replaces the first. -/
theorem refused_starts_share_a_notice :
    ¬ ∀ (L : ReceiptLib) (past : List PanelEvent),
      past <+: [.watch "" ⟨1, [], 0, fun _ => 0⟩, .watch "" ⟨2, [], 0, fun _ => 0⟩] →
        (Panel.run L past).Apart := by
  intro h
  obtain ⟨hids, -⟩ := h ⟨fun _ => ⟨none, false⟩, fun _ _ => none⟩ _ (List.prefix_refl _)
  have hposted : ∀ L, (Panel.run L [.watch "" ⟨1, [], 0, fun _ => 0⟩,
      .watch "" ⟨2, [], 0, fun _ => 0⟩]).posted =
        [⟨.refused "" 0, .post 0⟩, ⟨.refused "" 1, .post 0⟩] := fun _ => rfl
  rw [hposted] at hids
  exact (hids _ (.head _) _ (.tail _ (.head _)) (by decide)).1 rfl

end OkRn.Watch
