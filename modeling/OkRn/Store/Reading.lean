/-
OkRn/Store/Reading.lean

The reading of a sync, one record and one batch at a time.

The copy is changed in place, so what a throw leaves behind counts as well:
`takeRecords` says how a batch leaves it, and `Loop` where the reading stands after
any answers of the key.  `takeBatch` and `readLinks` are read off from these.

* `Chain` is a copy's links in order and welded, and `Grown` a copy with more of them;
* `Loop.step` is one answer, and `Loop.Forward` one that goes forward;
* `strays` keeps a chain too, so a sync begins and ends with one.

Main results: `sync_keeps_a_chain`, over any answers, and `sync_reads_end`, over
answers that go forward.
-/
import OkRn.Lib.Along
import OkRn.Store.Demo
import OkRn.Store.Lasting
import Mathlib.Data.List.Chain
import Mathlib.Logic.Basic

namespace OkRn.Store

open OkRn.Task

variable (L : EdgeLib)

/-! ### A batch -/

/-- One record of a batch: how it leaves the copy, and whether the batch goes on (`none` is a
throw). -/
def takeRecord (head : Head) (now : Nat) (m : Mirror) (r : EdgeLinkRecord) : Mirror × Option Bool :=
  match seqOf L r with
  | none => (m, none)
  | some seq =>
      if head.seq < (seq : Int) then (m, some false)
      else match follows L m.links.getLast? r with
        | none => (m, none)
        | some true =>
            ({ m with links := m.links ++ [r], seen := markSeen now m.seen seq }, some true)
        | some false => match m.links.getLast? with
          | none => (m, some false)
          | some last => (m, (seqOf L last).map fun lastSeq => decide (seq ≤ lastSeq))

/-- The records of a batch, until one does not fit. -/
def takeRecords (head : Head) (now : Nat) : Mirror → List EdgeLinkRecord → Mirror × Option Bool
  | m, [] => (m, some true)
  | m, r :: rs => match takeRecord L head now m r with
    | (m', some true) => takeRecords head now m' rs
    | left => left

variable {L} {head : Head} {now : Nat} {m m' : Mirror}

/-- `takeBatch` is read off from it. -/
theorem takeBatch_eq (m : Mirror) (rs : List EdgeLinkRecord) :
    takeBatch L head now m rs = (takeRecords L head now m rs).2.map fun welded =>
      ((takeRecords L head now m rs).1, welded) := by
  induction rs generalizing m with
  | nil => rfl
  | cons r rs ih =>
    rw [takeBatch, takeRecords, takeRecord]
    rcases seqOf L r with - | seq
    · rfl
    · by_cases hpast : head.seq < (seq : Int)
      · simp [hpast]
      · rcases hf : follows L m.links.getLast? r with - | (- | -)
        · simp [hpast, hf]
        · rcases hlast : m.links.getLast? with - | last
          · rw [hlast] at hf
            simp [hpast, hf]
          · rw [hlast] at hf
            rcases hseq : seqOf L last with - | lastSeq
            · simp [hpast, hf, hseq]
            · by_cases hlt : lastSeq < seq
              · simp [hpast, hf, hseq, hlt, Nat.not_le.mpr hlt]
              · simp [hpast, hf, hseq, hlt, Nat.not_lt.mp hlt, ih]
        · simp [hpast, hf, ih]

/-! ### The loop -/

/-- Where the reading stands. -/
structure Loop where
  mirror : Mirror
  next : Int
  /-- Neither a break nor a throw has left it. -/
  going : Bool
  /-- The seqs asked for, for the history only. -/
  asked : List Int

namespace Loop

/-- A loop that begins with this copy. -/
def start (m : Mirror) (next : Int) : Loop := ⟨m, next, true, []⟩

/-- Does it read on? -/
def asks (head : Head) (w : Loop) : Bool := w.going && decide (w.next ≤ head.seq)

/-- How a batch leaves the loop. -/
def taken (L : EdgeLib) (head : Head) (now : Nat) (w : Loop) (got : List EdgeLinkRecord)
    (last : EdgeLinkRecord) : Loop :=
  match (takeRecords L head now w.mirror got).2, seqOf L last with
  | some true, some seq =>
    { w with mirror := (takeRecords L head now w.mirror got).1, next := seq + 1 }
  | _, _ => { w with mirror := (takeRecords L head now w.mirror got).1, going := false }

/-- One answer; `none` is a read that failed. -/
def step (L : EdgeLib) (head : Head) (now : Nat) (w : Loop) (got : Option (List EdgeLinkRecord)) :
    Loop :=
  if w.asks head then
    let w := { w with asked := w.asked ++ [w.next] }
    match got with
    | none => { w with going := false }
    | some got => match got.getLast? with
      | none => { w with going := false }
      | some last => w.taken L head now got last
  else w

/-- The loop after some answers. -/
def run (L : EdgeLib) (head : Head) (now : Nat) (w : Loop)
    (answers : List (Option (List EdgeLinkRecord))) : Loop :=
  answers.foldl (step L head now) w

end Loop

/-- What `readLinks` returns is the copy of a loop that reads no more. -/
theorem readLinks_returns {rounds : Nat} {w : Loop} (hgoing : w.going = true)
    (h : (readLinks L head now rounds w.mirror w.next).Returns m') :
    ∃ answers, (w.run L head now answers).mirror = m' ∧
      (w.run L head now answers).asks head = false := by
  -- by the rounds of the loop: past the head, an empty read, or a batch
  induction rounds generalizing w with
  | zero => exact h.elim
  | succ rounds ih =>
    unfold readLinks at h
    split at h
    · rename_i hend
      cases h
      exact ⟨[], rfl, by simp [Loop.run, Loop.asks, Int.not_le.mpr hend]⟩
    · rename_i hread
      have hasks : w.asks head = true := by simp [Loop.asks, hgoing, Int.not_lt.mp hread]
      obtain ⟨got, -, h⟩ := returns_bind.mp h
      split at h
      · rename_i hnil
        cases h
        have hstep : w.run L head now [some got] =
            { w with asked := w.asked ++ [w.next], going := false } := by
          simp [Loop.run, Loop.step, hasks, hnil]
        exact ⟨[some got], by rw [hstep], by rw [hstep]; rfl⟩
      · rename_i last hlast
        obtain ⟨⟨m₁, welded⟩, hbatch, h⟩ := returns_bind.mp h
        have hbatch := returns_orThrow.mp hbatch
        rw [takeBatch_eq] at hbatch
        obtain ⟨b, hb, heq⟩ := Option.map_eq_some_iff.mp hbatch
        obtain ⟨hm₁, rfl⟩ := Prod.mk.inj heq
        dsimp only at h
        have hstep (answers : List (Option (List EdgeLinkRecord))) :
            w.run L head now (some got :: answers) =
              ({ w with asked := w.asked ++ [w.next] }.taken L head now got last).run L head now
                answers := by
          simp [Loop.run, Loop.step, hasks, hlast]
        cases b with
        | false =>
          cases h
          refine ⟨[some got], ?_, ?_⟩ <;> rw [hstep []]
          · simpa [Loop.run, Loop.taken, hb] using hm₁
          · simp [Loop.run, Loop.taken, hb, Loop.asks]
        | true =>
          obtain ⟨seq, hseq, h⟩ := returns_bind.mp h
          have hseq := returns_orThrow.mp hseq
          have htaken : { w with asked := w.asked ++ [w.next] }.taken L head now got last =
              ⟨m₁, seq + 1, true, w.asked ++ [w.next]⟩ := by
            simp [Loop.taken, hb, hseq, hm₁, hgoing]
          obtain ⟨answers, hrun⟩ := ih (w := ⟨m₁, seq + 1, true, w.asked ++ [w.next]⟩) rfl h
          exact ⟨some got :: answers, by rw [hstep, htaken]; exact hrun⟩

/-! ### A chain -/

variable (L)

/-- A later seq, and welded on if it is the very next. -/
def Next (a b : EdgeLinkRecord) : Prop :=
  ∃ p s, seqOf L a = some p ∧ seqOf L b = some s ∧ p < s ∧
    (s = p + 1 → L.weld a.head b.link = b.head)

/-- Strictly ascending, and welded wherever two seqs are adjacent. -/
def Chain (links : List EdgeLinkRecord) : Prop := links.IsChain (Next L)

/-- A link of an earlier seq. -/
def Before (a b : EdgeLinkRecord) : Prop :=
  ∃ p s, seqOf L a = some p ∧ seqOf L b = some s ∧ p < s

instance : Trans (Before L) (Before L) (Before L) where
  trans := by
    rintro a b c ⟨p, s, ha, hb, hlt⟩ ⟨s', t, hb', hc, hlt'⟩
    obtain rfl : s = s' := Option.some.inj (hb.symm.trans hb')
    exact ⟨p, t, ha, hc, hlt.trans hlt'⟩

variable {L}

theorem Chain.before {links : List EdgeLinkRecord} (h : Chain L links) :
    links.Pairwise (Before L) :=
  List.isChain_iff_pairwise.mp (h.imp fun _ _ ⟨p, s, ha, hb, hlt, _⟩ => ⟨p, s, ha, hb, hlt⟩)

/-- A record with these bytes is not before itself. -/
theorem Before.ne_link {a b : EdgeLinkRecord} (h : Before L a b) : a.link ≠ b.link := by
  obtain ⟨p, s, ha, hb, hlt⟩ := h
  intro heq
  rw [seqOf, heq] at ha
  exact absurd (Option.some.inj (ha.symm.trans hb)) (Nat.ne_of_lt hlt)

/-- Behind a link that decodes nothing is thrown. -/
theorem follows_isSome {prev r : EdgeLinkRecord} {p : Nat} (h : seqOf L prev = some p) :
    (follows L (some prev) r).isSome := by
  unfold follows
  split
  · rfl
  · split
    · rfl
    · simp [h]

theorem next_of_follows {prev r : EdgeLinkRecord} (h : follows L (some prev) r = some true) :
    Next L prev r := by
  unfold follows at h
  rcases hf : L.decodeLink r.link with - | f
  · simp [hf] at h
  · rcases hp : seqOf L prev with - | p
    · cases hz : f.reservedZero <;> simp [hf, hp, hz] at h
    · cases hz : f.reservedZero
      · simp [hf, hz] at h
      · simp only [hf, hz, hp, Bool.not_true, Bool.false_eq_true, if_false, Option.map_some,
          Option.some.injEq] at h
        split at h
        · cases h
        · rename_i hlt
          refine ⟨p, f.seq, hp, by rw [seqOf, hf]; rfl, Nat.not_le.mp hlt, fun heq => ?_⟩
          simpa [heq] using h

/-! ### Setting strays aside -/

variable (L) in
/-- The record is not past the key's head, or not past what was verified. -/
def reached (keySeq verified : Int) (r : EdgeLinkRecord) : Bool :=
  match seqOf L r with
  | none => false
  | some seq => decide ((seq : Int) ≤ keySeq) || decide ((seq : Int) ≤ verified)

section

variable {keySeq verified : Int} {r prev : EdgeLinkRecord} {rest : List EdgeLinkRecord}

/-- A record up to which the copy is good decodes. -/
theorem isSome_of_reached (h : reached L keySeq verified r = true) : (seqOf L r).isSome := by
  unfold reached at h
  split at h
  · cases h
  · rename_i hs
    rw [hs]
    rfl

/-- One further on is past what is known. -/
theorem past_of_not_reached (h : ¬ reached L keySeq verified r = true) {s : Nat}
    (hs : seqOf L r = some s) : keySeq < (s : Int) ∧ verified < (s : Int) := by
  simpa [reached, hs] using h

theorem strays_of_reached (h : reached L keySeq verified r = true) :
    strays L keySeq verified (r :: rest) = some (r :: rest) := by
  cases rest with
  | nil =>
    rw [strays]
    exact if_pos h
  | cons prev rest =>
    rw [strays]
    exact if_pos h

theorem strays_alone (h : ¬ reached L keySeq verified r = true) :
    strays L keySeq verified [r] = some [] := by
  rw [strays]
  exact if_neg h

/-- A stray, or the end of them. -/
theorem strays_behind (h : ¬ reached L keySeq verified r = true) {p : Nat} {b : Bool}
    (hp : seqOf L prev = some p) (hb : follows L (some prev) r = some b) :
    strays L keySeq verified (r :: prev :: rest) =
      if seqOf L r = some (p + 1) ∧ b = true then some (r :: prev :: rest)
      else strays L keySeq verified (prev :: rest) := by
  rw [strays]
  simp only [hp, hb, Option.bind_eq_bind, Option.bind_some]
  exact if_neg h

end

/-- What becomes of the records of a chain, newest first: the first ones go, all past the key's head
and past what was verified, down to one with a seq. -/
theorem strays_of_chain (keySeq verified : Int) {links : List EdgeLinkRecord}
    (h : links.IsChain fun a b => Next L b a) :
    ∃ popped kept, links = popped ++ kept ∧ strays L keySeq verified links = some kept ∧
      (∀ r ∈ popped, ∀ s, seqOf L r = some s → keySeq < (s : Int) ∧ verified < (s : Int)) ∧
        ∀ r, kept.head? = some r → (seqOf L r).isSome := by
  induction links with
  | nil => exact ⟨[], [], rfl, rfl, fun _ hr => (by cases hr), fun _ hr => (by cases hr)⟩
  | cons r rest ih =>
    -- where one stays, all before it stay
    have hstays (hr : (seqOf L r).isSome)
        (hkept : strays L keySeq verified (r :: rest) = some (r :: rest)) :
        ∃ popped kept, r :: rest = popped ++ kept ∧
          strays L keySeq verified (r :: rest) = some kept ∧
          (∀ r ∈ popped, ∀ s, seqOf L r = some s → keySeq < (s : Int) ∧ verified < (s : Int)) ∧
            ∀ r, kept.head? = some r → (seqOf L r).isSome :=
      ⟨[], r :: rest, rfl, hkept, fun _ hr' => (by cases hr'), fun r' hr' => by
        obtain rfl : r = r' := Option.some.inj hr'
        exact hr⟩
    by_cases hreached : reached L keySeq verified r = true
    · exact hstays (isSome_of_reached hreached) (strays_of_reached hreached)
    · cases rest with
      | nil =>
        refine ⟨[r], [], rfl, strays_alone hreached, fun r' hr' => ?_, fun _ hr => by cases hr⟩
        rw [List.mem_singleton.mp hr']
        exact fun s hs => past_of_not_reached hreached hs
      | cons prev rest =>
        obtain ⟨hnext, hrest⟩ := List.isChain_cons_cons.mp h
        obtain ⟨p, s, hp, hs, -, -⟩ := hnext
        obtain ⟨b, hb⟩ := Option.isSome_iff_exists.mp (follows_isSome (r := r) hp)
        have hstrays : strays L keySeq verified (r :: prev :: rest) =
            if seqOf L r = some (p + 1) ∧ b = true then some (r :: prev :: rest)
            else strays L keySeq verified (prev :: rest) := strays_behind hreached hp hb
        by_cases hwelded : seqOf L r = some (p + 1) ∧ b = true
        · exact hstays (by rw [hs]; rfl) (by rw [hstrays, if_pos hwelded])
        · -- `r` goes as well
          obtain ⟨popped, kept, heq, hkept, hpopped, hfirst⟩ := ih hrest
          refine ⟨r :: popped, kept, by rw [heq, List.cons_append],
            by rw [hstrays, if_neg hwelded, hkept], fun r' hr' => ?_, hfirst⟩
          rcases List.mem_cons.mp hr' with rfl | hr'
          · exact fun s hs => past_of_not_reached hreached hs
          · exact hpopped r' hr'

/-- The seq `lastSeen` says was verified. -/
def verifiedSeq (m : Mirror) : Int := (m.lastSeen.map Seen.seq).getD (-1)

/-- A record as it is set aside. -/
def aside (now : Nat) (r : EdgeLinkRecord) : Aside := ⟨r.link, r.head, now⟩

/-- The end of a chain goes to `setAside`, past the key's head and past what was verified. -/
theorem setAsideStrays_of_chain (now : Nat) (keySeq : Int) (h : Chain L m.links) :
    ∃ kept popped, m.links = kept ++ popped ∧
      setAsideStrays L m keySeq now = some
        { m with links := kept, setAside := m.setAside ++ popped.reverse.map (aside now) } ∧
      (∀ r ∈ popped, ∀ s, seqOf L r = some s → keySeq < (s : Int) ∧ verifiedSeq m < (s : Int)) ∧
        ∀ r, kept.getLast? = some r → (seqOf L r).isSome := by
  have hrev : m.links.reverse.IsChain fun a b => Next L b a := List.isChain_reverse.mpr h
  obtain ⟨popped, kept, heq, hstrays, hpopped, hfirst⟩ :=
    strays_of_chain keySeq (verifiedSeq m) hrev
  have hlinks : m.links = kept.reverse ++ popped.reverse := by
    rw [← List.reverse_append, ← heq, List.reverse_reverse]
  have htake : m.links.reverse.take (m.links.length - kept.length) = popped := by
    have hlen := congrArg List.length heq
    rw [List.length_reverse, List.length_append] at hlen
    rw [heq, show m.links.length - kept.length = popped.length by omega, List.take_left]
  refine ⟨kept.reverse, popped.reverse, hlinks, ?_,
    fun r hr => hpopped r (List.mem_reverse.mp hr), fun r hr => hfirst r ?_⟩
  · rw [verifiedSeq] at hstrays
    simp only [setAsideStrays]
    rw [hstrays, Option.map_some, htake, List.reverse_reverse]
    rfl
  · rwa [List.getLast?_reverse] at hr

/-! ### Reading -/

/-- What reading makes of a copy: its links and more, none of them past the key's head. -/
structure Grown (L : EdgeLib) (head : Head) (m m' : Mirror) : Prop where
  links : ∃ added, m'.links = m.links ++ added ∧
    ∀ r ∈ added, ∃ s, seqOf L r = some s ∧ (s : Int) ≤ head.seq
  chain : Chain L m.links → Chain L m'.links
  setAside : m'.setAside = m.setAside
  seen : ∀ n t, m.seen.get n = some t → m'.seen.get n = some t

theorem Grown.refl (m : Mirror) : Grown L head m m :=
  ⟨⟨[], (List.append_nil _).symm, fun _ hr => by cases hr⟩, id, rfl, fun _ _ h => h⟩

theorem Grown.trans {m'' : Mirror} (h : Grown L head m m') (h' : Grown L head m' m'') :
    Grown L head m m'' := by
  obtain ⟨added, heq, hadded⟩ := h.links
  obtain ⟨added', heq', hadded'⟩ := h'.links
  refine ⟨⟨added ++ added', by rw [heq', heq, List.append_assoc], fun r hr => ?_⟩,
    fun hc => h'.chain (h.chain hc), h'.setAside.trans h.setAside,
    fun n t hn => h'.seen n t (h.seen n t hn)⟩
  rcases List.mem_append.mp hr with hr | hr
  · exact hadded r hr
  · exact hadded' r hr

/-- When a link was first stored stays. -/
theorem get_markSeen {seen : Dict Nat} {n t : Nat} (seq : Nat) (h : seen.get n = some t) :
    (markSeen now seen seq).get n = some t := by
  by_cases heq : n = seq
  · subst heq
    rw [markSeen, Dict.get_set_self, h]
    rfl
  · rw [markSeen, Dict.get_set_of_ne heq, h]

/-- A chain with a link that follows. -/
theorem Chain.push {links : List EdgeLinkRecord} {r : EdgeLinkRecord} (h : Chain L links)
    (hf : follows L links.getLast? r = some true) : Chain L (links ++ [r]) := by
  refine List.isChain_append.mpr ⟨h, List.isChain_singleton r, fun last hlast r' hr' => ?_⟩
  obtain rfl : r = r' := Option.some.inj hr'
  rw [Option.mem_def.mp hlast] at hf
  exact next_of_follows hf

theorem takeRecord_grown (r : EdgeLinkRecord) : Grown L head m (takeRecord L head now m r).1 := by
  unfold takeRecord
  split
  · exact .refl m
  · rename_i seq hseq
    split
    · exact .refl m
    · rename_i hhead
      split
      · exact .refl m
      · rename_i hf
        refine ⟨⟨[r], rfl, fun r' hr' => ?_⟩, fun hc => hc.push hf, rfl,
          fun _ _ h => get_markSeen seq h⟩
        rw [List.mem_singleton.mp hr']
        exact ⟨seq, hseq, Int.not_lt.mp hhead⟩
      · split
        · exact .refl m
        · exact .refl m

theorem takeRecords_grown (rs : List EdgeLinkRecord) :
    Grown L head m (takeRecords L head now m rs).1 := by
  induction rs generalizing m with
  | nil => exact .refl m
  | cons r rs ih =>
    rw [takeRecords]
    have hfirst : Grown L head m (takeRecord L head now m r).1 := takeRecord_grown r
    split
    · rename_i m₁ heq
      rw [heq] at hfirst
      exact hfirst.trans ih
    · exact hfirst

namespace Loop

variable {w : Loop}

theorem taken_grown (got : List EdgeLinkRecord) (last : EdgeLinkRecord) :
    Grown L head w.mirror (w.taken L head now got last).mirror := by
  unfold taken
  split
  · exact takeRecords_grown got
  · exact takeRecords_grown got

theorem step_grown (got : Option (List EdgeLinkRecord)) :
    Grown L head w.mirror (w.step L head now got).mirror := by
  unfold step
  split
  · split
    · exact .refl _
    · split
      · exact .refl _
      · exact taken_grown (w := { w with asked := w.asked ++ [w.next] }) _ _
  · exact .refl _

theorem run_grown (answers : List (Option (List EdgeLinkRecord))) :
    Grown L head w.mirror (w.run L head now answers).mirror := by
  induction answers generalizing w with
  | nil => exact .refl _
  | cons got answers ih => exact (step_grown got).trans ih

variable (L head) in
theorem run_start_grown (m : Mirror) (now : Nat) (next : Int)
    (answers : List (Option (List EdgeLinkRecord))) :
    Grown L head m ((start m next).run L head now answers).mirror :=
  run_grown (w := start m next) answers

end Loop

/-! ### A sync -/

variable (L) in
/-- Where a sync begins to read; `none` is a throw. -/
def readFrom (head : Head) (m : Mirror) : Option Int :=
  match m.links.getLast? with
  | none => some (max (-1 + 1) head.ringFrom)
  | some last => (seqOf L last).map fun seq : Nat => max ((seq : Int) + 1) (head.ringFrom : Int)

variable (L) in
/-- Where a sync stands when the strays are set aside and the key has answered so far. -/
def syncReads (head : Head) (now : Nat) (m : Mirror)
    (answers : List (Option (List EdgeLinkRecord))) : Option Loop :=
  (setAsideStrays L m head.seq now).bind fun m =>
    (readFrom L head m).map fun next => (Loop.start m next).run L head now answers

/-- The copy a sync goes on with is one of these. -/
theorem syncLinks_returns {rounds : Nat}
    (h : (syncLinks L now rounds m).Returns (m', head)) :
    ∃ answers w, syncReads L head now m answers = some w ∧ w.mirror = m' ∧
      w.asks head = false := by
  obtain ⟨head', -, h⟩ := returns_bind.mp h
  obtain ⟨m₁, hstrays, h⟩ := returns_bind.mp h
  obtain ⟨held, hheld, h⟩ := returns_bind.mp h
  obtain ⟨m₂, hread, h⟩ := returns_bind.mp h
  obtain ⟨rfl, rfl⟩ := Prod.mk.inj h
  have hfrom : readFrom L head' m₁ = some (max (held + 1) head'.ringFrom) := by
    unfold readFrom
    rcases hlast : m₁.links.getLast? with - | last
    · rw [hlast] at hheld
      cases hheld
      rfl
    · rw [hlast] at hheld
      obtain ⟨seq, hseq, hret⟩ := returns_bind.mp hheld
      cases hret
      show (seqOf L last).map _ = _
      rw [returns_orThrow.mp hseq]
      rfl
  obtain ⟨answers, hmirror, hasks⟩ :=
    readLinks_returns (w := Loop.start m₁ (max (held + 1) head'.ringFrom)) rfl hread
  refine ⟨answers, _, ?_, hmirror, hasks⟩
  rw [syncReads, returns_orThrow.mp hstrays, Option.bind_some, hfrom, Option.map_some]

/-- These bytes are a record's. -/
def Aside.Of (x : Aside) (r : EdgeLinkRecord) : Prop := x.link = r.link ∧ x.head = r.head

/-- What reading keeps of a chain: it stays one, with nothing new past the key's head; what was
verified stays, and each record either stays or is set aside; seen times stay. -/
structure Synced (L : EdgeLib) (head : Head) (m m' : Mirror) : Prop where
  chain : Chain L m'.links
  notPast : ∀ r ∈ m'.links, r ∈ m.links ∨ ∃ s, seqOf L r = some s ∧ (s : Int) ≤ head.seq
  verified : ∀ r ∈ m.links, ∀ s, seqOf L r = some s → (s : Int) ≤ verifiedSeq m → r ∈ m'.links
  moved : ∃ moved, m'.setAside = m.setAside ++ moved ∧
    ∀ r ∈ m.links, Xor (r ∈ m'.links) (∃ x ∈ moved, x.Of r)
  oneOfTwo : ∀ r ∈ m.links, (∀ x ∈ m.setAside, ¬ x.Of r) →
    Xor (r ∈ m'.links) (∃ x ∈ m'.setAside, x.Of r)
  seen : ∀ n t, m.seen.get n = some t → m'.seen.get n = some t

/-- Where the copy's last link decodes the loop begins. -/
theorem readFrom_isSome (h : ∀ r, m.links.getLast? = some r → (seqOf L r).isSome) :
    (readFrom L head m).isSome := by
  unfold readFrom
  split
  · rfl
  · rename_i last hlast
    rw [Option.isSome_map]
    exact h last hlast

/-- The records kept and those set aside, and what was read after the kept ones. -/
theorem synced_of_parts {kept popped added : List EdgeLinkRecord} (hm : Chain L m.links)
    (hlinks : m.links = kept ++ popped)
    (hpopped : ∀ r ∈ popped, ∀ s, seqOf L r = some s →
      head.seq < (s : Int) ∧ verifiedSeq m < (s : Int))
    (hadded : ∀ r ∈ added, ∃ s, seqOf L r = some s ∧ (s : Int) ≤ head.seq)
    (hchain : Chain L m'.links) (hlinks' : m'.links = kept ++ added)
    (haside : m'.setAside = m.setAside ++ popped.reverse.map (aside now))
    (hseen : ∀ n t, m.seen.get n = some t → m'.seen.get n = some t) : Synced L head m m' := by
  -- what was set aside stood behind what was kept
  have hbefore : ∀ a ∈ kept, ∀ b ∈ popped, Before L a b := by
    have hpair := hm.before
    rw [hlinks] at hpair
    exact (List.pairwise_append.mp hpair).2.2
  have hmoved : ∀ r ∈ m.links,
      Xor (r ∈ m'.links) (∃ x ∈ popped.reverse.map (aside now), x.Of r) := by
    intro r hr
    rw [hlinks] at hr
    rcases List.mem_append.mp hr with hr | hr
    · refine Or.inl ⟨hlinks' ▸ List.mem_append_left _ hr, ?_⟩
      rintro ⟨x, hx, hlink, -⟩
      obtain ⟨b, hb, rfl⟩ := List.mem_map.mp hx
      exact (hbefore r hr b (List.mem_reverse.mp hb)).ne_link hlink.symm
    · refine Or.inr ⟨⟨aside now r, List.mem_map_of_mem (List.mem_reverse.mpr hr), rfl, rfl⟩, ?_⟩
      rw [hlinks']
      intro hin
      rcases List.mem_append.mp hin with hin | hin
      · exact (hbefore r hin r hr).ne_link rfl
      · -- it is past the key's head
        obtain ⟨s, hs, hle⟩ := hadded r hin
        exact absurd (hpopped r hr s hs).1 (Int.not_lt.mpr hle)
  refine ⟨hchain, fun r hr => ?_, fun r hr s hs hle => ?_, ⟨_, haside, hmoved⟩, fun r hr hnew => ?_,
    hseen⟩
  · rw [hlinks'] at hr
    rcases List.mem_append.mp hr with hr | hr
    · exact Or.inl (hlinks ▸ List.mem_append_left _ hr)
    · exact Or.inr (hadded r hr)
  · rw [hlinks] at hr
    rcases List.mem_append.mp hr with hr | hr
    · exact hlinks' ▸ List.mem_append_left _ hr
    · exact absurd (hpopped r hr s hs).2 (Int.not_lt.mpr hle)
  · have hsame : (∃ x ∈ m'.setAside, x.Of r) ↔ ∃ x ∈ popped.reverse.map (aside now), x.Of r := by
      rw [haside]
      constructor
      · rintro ⟨x, hx, hof⟩
        rcases List.mem_append.mp hx with hx | hx
        · exact absurd hof (hnew x hx)
        · exact ⟨x, hx, hof⟩
      · rintro ⟨x, hx, hof⟩
        exact ⟨x, List.mem_append_right _ hx, hof⟩
    rw [hsame]
    exact hmoved r hr

/-- Reading keeps a copy a chain, whatever the key's head and answers are and wherever it stops. -/
theorem sync_keeps_a_chain (h : Chain L m.links) (head : Head) (now : Nat)
    (answers : List (Option (List EdgeLinkRecord))) :
    ∃ w, syncReads L head now m answers = some w ∧ Synced L head m w.mirror ∧
      ∀ past w', past <+: answers → syncReads L head now m past = some w' →
        ∀ n t, w'.mirror.seen.get n = some t → w.mirror.seen.get n = some t := by
  obtain ⟨kept, popped, hlinks, hstrays, hpopped, hlast⟩ :=
    setAsideStrays_of_chain now head.seq h
  have hfrom : (readFrom L head
      { m with links := kept, setAside := m.setAside ++ popped.reverse.map (aside now) }).isSome :=
    readFrom_isSome hlast
  obtain ⟨next, hnext⟩ := Option.isSome_iff_exists.mp hfrom
  have hreads (answers : List (Option (List EdgeLinkRecord))) :
      syncReads L head now m answers = some ((Loop.start
        { m with links := kept, setAside := m.setAside ++ popped.reverse.map (aside now) } next).run
          L head now answers) := by
    rw [syncReads, hstrays, Option.bind_some, hnext, Option.map_some]
  refine ⟨_, hreads answers, ?_, fun past w' hpast hw' => ?_⟩
  · have hgrown := Loop.run_start_grown L head
      { m with links := kept, setAside := m.setAside ++ popped.reverse.map (aside now) } now next
      answers
    obtain ⟨added, hlinks', hadded⟩ := hgrown.links
    -- setting aside leaves a beginning of the copy
    have hkept : Chain L kept := by
      have hm := h
      rw [Chain, hlinks] at hm
      exact (List.isChain_append.mp hm).1
    exact synced_of_parts h hlinks hpopped hadded (hgrown.chain hkept) hlinks' hgrown.setAside
      hgrown.seen
  · -- the answers after `past` keep its seen times
    obtain ⟨rest, rfl⟩ := hpast
    rw [hreads] at hw'
    cases hw'
    have hrun (w : Loop) :
        w.run L head now (past ++ rest) = (w.run L head now past).run L head now rest :=
      List.foldl_append
    rw [hrun]
    exact (Loop.run_grown rest).seen

/-! ### The number of reads -/

/-- If the loop goes on from a batch, the batch ends at or past the seq that was asked for. -/
def Loop.Forward (L : EdgeLib) (head : Head) (now : Nat) (w : Loop)
    (got : Option (List EdgeLinkRecord)) : Prop :=
  w.asks head = true → ∀ rs last s, got = some rs → rs.getLast? = some last →
    (takeRecords L head now w.mirror rs).2 = some true → seqOf L last = some s → w.next ≤ (s : Int)

/-- Each read is for a later seq, from the first asked for up to the key's head. -/
structure Loop.Paced (first : Int) (head : Head) (w : Loop) : Prop where
  ascending : w.asked.Pairwise (· < ·)
  within : ∀ s ∈ w.asked, first ≤ s ∧ s ≤ head.seq
  count : w.asked.length ≤ (head.seq + 1 - first).toNat
  ahead : w.going = true → (∀ s ∈ w.asked, s < w.next) ∧ first + w.asked.length ≤ w.next

namespace Loop

variable {first : Int} {w : Loop}

theorem paced_start (m : Mirror) (first : Int) (head : Head) : (start m first).Paced first head :=
  ⟨List.Pairwise.nil, fun _ hs => (by cases hs), Nat.zero_le _,
    fun _ => ⟨fun _ hs => (by cases hs), Int.le_of_eq (by simp [start])⟩⟩

theorem Paced.asked (h : w.Paced first head) (hasks : w.asks head = true) :
    (w.asked ++ [w.next]).Pairwise (· < ·) ∧
      (∀ s ∈ w.asked ++ [w.next], first ≤ s ∧ s ≤ head.seq) ∧
        (w.asked ++ [w.next]).length ≤ (head.seq + 1 - first).toNat ∧
          first + (w.asked ++ [w.next]).length ≤ w.next + 1 := by
  simp only [asks, Bool.and_eq_true, decide_eq_true_eq] at hasks
  obtain ⟨hlt, hle⟩ := h.ahead hasks.1
  have hlen : ((w.asked ++ [w.next]).length : Int) = w.asked.length + 1 := by simp
  refine ⟨List.pairwise_append.mpr ⟨h.ascending, List.pairwise_singleton _ _, ?_⟩, ?_, ?_, ?_⟩
  · intro a ha b hb
    rw [List.mem_singleton.mp hb]
    exact hlt a ha
  · intro s hs
    rcases List.mem_append.mp hs with hs | hs
    · exact h.within s hs
    · rw [List.mem_singleton.mp hs]
      omega
  · omega
  · omega

/-- An answer that goes forward. -/
theorem Paced.step {got : Option (List EdgeLinkRecord)} (h : w.Paced first head)
    (hgot : w.Forward L head now got) : (w.step L head now got).Paced first head := by
  unfold Loop.step
  split
  · rename_i hasks
    obtain ⟨hascending, hwithin, hcount, hahead⟩ := h.asked hasks
    -- a loop that ends here asks for nothing more
    have hleft (m : Mirror) (next : Int) : Paced first head ⟨m, next, false, w.asked ++ [w.next]⟩ :=
      ⟨hascending, hwithin, hcount, fun hgoing => by cases hgoing⟩
    split
    · exact hleft _ _
    · rename_i rs
      split
      · exact hleft _ _
      · rename_i last hlast
        unfold taken
        dsimp only
        split
        · rename_i s hwelded hseq
          have hnext := hgot hasks rs last s rfl hlast hwelded hseq
          simp only [asks, Bool.and_eq_true, decide_eq_true_eq] at hasks
          refine ⟨hascending, hwithin, hcount, fun _ => ⟨fun s' hs' => ?_, by dsimp only; omega⟩⟩
          dsimp only at hs' ⊢
          rcases List.mem_append.mp hs' with hs' | hs'
          · have hlt := (h.ahead hasks.1).1 s' hs'
            omega
          · rw [List.mem_singleton.mp hs']
            omega
        · exact hleft _ _
  · exact h

theorem step_asked (got : Option (List EdgeLinkRecord)) :
    (w.step L head now got).asked = if w.asks head then w.asked ++ [w.next] else w.asked := by
  unfold step
  split
  · split
    · rfl
    · split
      · rfl
      · unfold taken
        dsimp only
        split <;> rfl
  · rfl

/-- A loop that still asks has asked once for each answer. -/
theorem asked_run (answers : List (Option (List EdgeLinkRecord)))
    (h : (w.run L head now answers).asks head = true) :
    (w.run L head now answers).asked.length = w.asked.length + answers.length := by
  induction answers using List.reverseRecOn with
  | nil => rfl
  | append_singleton answers got ih =>
    have hrun : w.run L head now (answers ++ [got]) =
        (w.run L head now answers).step L head now got := List.foldl_append
    rw [hrun] at h ⊢
    have hasks : (w.run L head now answers).asks head = true := by
      by_contra hnot
      rw [Loop.step, if_neg hnot] at h
      exact hnot h
    rw [step_asked, if_pos hasks, List.length_append, ih hasks, List.length_append]
    rfl

end Loop

/-- Answers that go forward end the reading: there is at most one read for each seq from the first
to the key's head, and after that many answers none. -/
theorem sync_reads_end {m : Mirror} {first : Int} {answers : List (Option (List EdgeLinkRecord))}
    (h : AllAlong (Loop.step L head now) (Loop.Forward L head now) (Loop.start m first) answers) :
    ((Loop.start m first).run L head now answers).Paced first head ∧
      ((head.seq + 1 - first).toNat ≤ answers.length →
        ((Loop.start m first).run L head now answers).asks head = false) := by
  have hpaced : ((Loop.start m first).run L head now answers).Paced first head :=
    h.keeps (Loop.paced_start m first head) fun _ _ hw hgot => hw.step hgot
  refine ⟨hpaced, fun hmany => ?_⟩
  by_contra hnot
  have hasks := Bool.eq_true_of_not_eq_false hnot
  -- there would be one read more
  have hmore := (Loop.Paced.asked hpaced hasks).2.2.1
  have hasked := Loop.asked_run answers hasks
  rw [List.length_append, hasked] at hmore
  simp only [Loop.start, List.length_nil, List.length_singleton] at hmore
  omega

namespace Demo

/-- A copy of the first links of the key. -/
def begun (n : Nat) : Mirror :=
  { (emptyMirror [1] : Mirror) with links := (List.range n).map fun i => record i i }

/-- A link in a batch. -/
def sent (n : Nat) : EdgeLinkRecord := record n (100 + n)

/-- A copy with a stray behind its first links: link 5, past a key's head at 3. -/
def strayed : Mirror := { begun 2 with links := (begun 2).links ++ [record 5 5] }

/-- The links of the copy are a chain. -/
theorem strayed_chain : Chain lib strayed.links := by
  have hfirst : Next lib (record 0 0) (record 1 1) :=
    ⟨0, 1, by decide, by decide, by decide, fun _ => by decide⟩
  have hstray : Next lib (record 1 1) (record 5 5) :=
    ⟨1, 5, by decide, by decide, by decide, fun h => absurd h (by decide)⟩
  exact List.isChain_cons_cons.mpr ⟨hfirst, List.isChain_cons_cons.mpr
    ⟨hstray, List.isChain_singleton _⟩⟩

/-- The stray is set aside, and links 2 and 3 are read. -/
theorem sync_keeps_a_chain_strayed :
    ∃ w, syncReads lib (headAt 3) 5 strayed [some [sent 2, sent 3]] = some w ∧
      w.mirror.links = [record 0 0, record 1 1, sent 2, sent 3] ∧
      w.mirror.setAside = [aside 5 (record 5 5)] ∧ Synced lib (headAt 3) strayed w.mirror := by
  obtain ⟨w, hw, hsynced, -⟩ := sync_keeps_a_chain strayed_chain (headAt 3) 5
    [some [sent 2, sent 3]]
  have hlinks : (syncReads lib (headAt 3) 5 strayed [some [sent 2, sent 3]]).map
      (fun w => (w.mirror.links, w.mirror.setAside)) =
        some ([record 0 0, record 1 1, sent 2, sent 3], [aside 5 (record 5 5)]) := by
    decide +kernel
  rw [hw] at hlinks
  obtain ⟨hlinks, haside⟩ := Prod.mk.inj (Option.some.inj hlinks)
  exact ⟨w, hw, hlinks, haside, hsynced⟩

/-- Two links a read. -/
theorem sync_reads_end_forward :
    ((Loop.start (begun 1) 1).run lib (headAt 4) 5
      [some [sent 1, sent 2], some [sent 3, sent 4]]).asked.length ≤ 4 := by
  have hforward : AllAlong (Loop.step lib (headAt 4) 5) (Loop.Forward lib (headAt 4) 5)
      (Loop.start (begun 1) 1) [some [sent 1, sent 2], some [sent 3, sent 4]] := by
    refine ⟨?_, ?_, trivial⟩
    · rintro - rs last s ⟨⟩ ⟨⟩ - hs
      have hseq : seqOf lib (sent 2) = some 2 := by decide
      obtain rfl : 2 = s := Option.some.inj (hseq.symm.trans hs)
      decide
    · rintro - rs last s ⟨⟩ ⟨⟩ - hs
      have hseq : seqOf lib (sent 4) = some 4 := by decide
      obtain rfl : 4 = s := Option.some.inj (hseq.symm.trans hs)
      decide
  exact (sync_reads_end hforward).1.count

/-- A key that answers every read with a link the copy has. -/
theorem late_replies_hold_the_sync :
    ¬ ∃ n w, syncReads lib (headAt 3) 5 (begun 2) (List.replicate n (some [sent 1])) = some w ∧
      w.asks (headAt 3) = false := by
  rintro ⟨n, w, hw, hnot⟩
  have hstart : ∀ answers, syncReads lib (headAt 3) 5 (begun 2) answers =
      some ((Loop.start (begun 2) 2).run lib (headAt 3) 5 answers) := fun _ => rfl
  have hrun (n : Nat) (asked : List Int) :
      ∃ asked', (Loop.run lib (headAt 3) 5 ⟨begun 2, 2, true, asked⟩
        (List.replicate n (some [sent 1]))) = ⟨begun 2, 2, true, asked'⟩ := by
    induction n generalizing asked with
    | zero => exact ⟨asked, rfl⟩
    | succ n ih => exact ih (asked ++ [2])
  rw [hstart] at hw
  cases hw
  obtain ⟨asked', heq⟩ := hrun n []
  rw [show Loop.start (begun 2) 2 = ⟨begun 2, 2, true, []⟩ from rfl, heq] at hnot
  exact absurd hnot (by simp [Loop.asks, headAt])

end Demo

end OkRn.Store
