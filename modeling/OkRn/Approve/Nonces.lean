/-
OkRn/Approve/Nonces.lean

The nonces of the Edge messages: which are taken, and how long they are remembered.

A message is handled with the set that is stored when its turn comes, and is acted
on only when its nonce is not in it; the set is stored, cut to the last 2000, when
the message is finished.  Notes have a set in memory, of the last 1000.

So a nonce that was stored is not taken again, whatever ends the app, until 2000
others were taken, and a note's not until 1000 other notes were taken or the app
ended.

* `World.Remembers` says how far back a nonce is in the sets, and each step takes
  nothing or another nonce, which puts it one further back;
* `World.NoteRemembers` says the same of the notes.

Main results: `taken_nonces_are_remembered`, and `note_is_kept_twice` for a note that
comes again after a thousand others.
-/
import Mathlib.Data.List.Basic

namespace OkRn.Approve.Nonces

variable {N : Type}

/-! ### The sets -/

/-- `SEEN_KEPT`. -/
def seenKept : Nat := 2000

/-- `saveSeen` keeps the last ones. -/
def saved (seen : List N) : List N := seen.drop (seen.length - seenKept)

/-- The size of `notesSeen`. -/
def notesKept : Nat := 1000

/-- `notesSeen`, with the first deleted past its size. -/
def noted (notes : List N) (n : N) : List N :=
  if notesKept < (notes ++ [n]).length then (notes ++ [n]).tail else notes ++ [n]

/-- The message that is handled, with its set. -/
structure Active (N : Type) where
  nonce : N
  seen : List N

/-- The stored nonces, the message that is handled, and what the run has taken so far. -/
structure World (N : Type) where
  stored : List N
  active : Option (Active N)
  notes : List N
  /-- The nonces taken by requests, identities and syncs, each with what is done of the message. -/
  taken : List N
  /-- Those taken by notes. -/
  kept : List N

/-- What happens to the nonces: a message's turn in three parts, a note, the end of the app. -/
inductive Event (N : Type)
  /-- A message's turn comes: `loadSeen`. -/
  | begin (n : N)
  /-- `verify`, and the nonce is added. -/
  | take
  /-- `saveSeen`, which may fail. -/
  | finish (ok : Bool)
  | note (n : N)
  /-- The app ends, and starts anew. -/
  | kill

namespace World

section

variable [DecidableEq N]

/-- A message that finds another one under way does not begin; a nonce that is there is not taken
again. -/
def step (w : World N) : Event N → World N
  | .begin n =>
      match w.active with
      | none => { w with active := some ⟨n, w.stored⟩ }
      | some _ => w
  | .take =>
      match w.active with
      | none => w
      | some a =>
          if a.nonce ∈ a.seen then w
          -- in the handler's own set; nothing is stored before `finish`
          else { w with
            active := some { a with seen := a.seen ++ [a.nonce] }
            taken := w.taken ++ [a.nonce] }
  | .finish ok =>
      match w.active with
      | none => w
      | some a => { w with active := none, stored := if ok then saved a.seen else w.stored }
  | .note n =>
      -- the set of the notes is in memory only
      if n ∈ w.notes then w else { w with notes := noted w.notes n, kept := w.kept ++ [n] }
  | .kill => { w with active := none, notes := [] }

/-- The app runs for the first time. -/
def started : World N := ⟨[], none, [], [], []⟩

/-- The world after these events, from an app that has never run. -/
def run (history : List (Event N)) : World N := history.foldl step started

end

/-! ### What is remembered -/

/-- The nonce is there, with at most `k` newer ones. -/
def Recent (n : N) (k : Nat) (l : List N) : Prop :=
  ∃ older newer, l = older ++ n :: newer ∧ newer.length ≤ k

/-- A recent nonce is in the list. -/
theorem Recent.mem {n : N} {k : Nat} {l : List N} (h : Recent n k l) : n ∈ l := by
  obtain ⟨older, newer, rfl, -⟩ := h
  exact List.mem_append_right _ List.mem_cons_self

/-- Another one at the end makes it one older. -/
theorem Recent.append {n : N} {k : Nat} {l : List N} (h : Recent n k l) (m : N) :
    Recent n (k + 1) (l ++ [m]) := by
  obtain ⟨older, newer, rfl, hlen⟩ := h
  refine ⟨older, newer ++ [m], by simp, ?_⟩
  rw [List.length_append]
  exact Nat.succ_le_succ hlen

/-- A drop that leaves more than the newer ones leaves the nonce. -/
theorem Recent.drop {n : N} {k d : Nat} {l : List N} (h : Recent n k l) (hd : d + k < l.length) :
    Recent n k (l.drop d) := by
  obtain ⟨older, newer, rfl, hlen⟩ := h
  simp only [List.length_append, List.length_cons] at hd
  refine ⟨older.drop d, newer, ?_, hlen⟩
  rw [List.drop_append_of_le_length (by omega)]

/-- The cut of a save leaves what is young enough. -/
theorem Recent.saved {n : N} {k : Nat} {l : List N} (h : Recent n k l) (hk : k < seenKept) :
    Recent n k (saved l) := by
  unfold Nonces.saved
  by_cases hl : l.length ≤ seenKept
  · rw [Nat.sub_eq_zero_of_le hl]
    exact h
  · exact h.drop (by omega)

/-- A note's set, cut as it grows, keeps what is young enough. -/
theorem Recent.noted {n : N} {k : Nat} {l : List N} (h : Recent n k l) (hk : k + 1 < notesKept)
    (m : N) : Recent n (k + 1) (noted l m) := by
  unfold Nonces.noted
  split
  · rename_i hlen
    rw [← List.drop_one]
    exact (h.append m).drop (by omega)
  · exact h.append m

section

variable [DecidableEq N] {w : World N} {n : N} {k : Nat}

/-- The stored set and the one in use remember the nonce, as long as that may be said. -/
def Remembers (n : N) (k : Nat) (w : World N) : Prop :=
  k < seenKept → Recent n k w.stored ∧ ∀ a, w.active = some a → Recent n k a.seen

/-- A step takes nothing, or one nonce that is not the remembered one. -/
theorem Remembers.step (h : Remembers n k w) (e : Event N) :
    (w.step e).taken = w.taken ∧ Remembers n k (w.step e) ∨
      ∃ m, (w.step e).taken = w.taken ++ [m] ∧ (k < seenKept → m ≠ n) ∧
        Remembers n (k + 1) (w.step e) := by
  have hnone : Remembers n k { w with active := none } :=
    fun hk => ⟨(h hk).1, fun a ha => (by cases ha)⟩
  cases e with
  | begin m =>
    refine .inl ?_
    cases hact : w.active with
    | none =>
      have hstep : w.step (.begin m) = { w with active := some ⟨m, w.stored⟩ } := by
        simp only [World.step, hact]
      rw [hstep]
      refine ⟨rfl, fun hk => ⟨(h hk).1, fun a ha => ?_⟩⟩
      cases ha
      exact (h hk).1
    | some a =>
      have hstep : w.step (.begin m) = w := by simp only [World.step, hact]
      rw [hstep]
      exact ⟨rfl, h⟩
  | take =>
    cases hact : w.active with
    | none =>
      have hstep : w.step .take = w := by simp only [World.step, hact]
      rw [hstep]
      exact .inl ⟨rfl, h⟩
    | some a =>
      by_cases hseen : a.nonce ∈ a.seen
      · have hstep : w.step .take = w := by simp only [World.step, hact, if_pos hseen]
        rw [hstep]
        exact .inl ⟨rfl, h⟩
      · have hstep : w.step .take = { w with
            active := some { a with seen := a.seen ++ [a.nonce] }
            taken := w.taken ++ [a.nonce] } := by simp only [World.step, hact, if_neg hseen]
        rw [hstep]
        -- the set in use gains a nonce, so what is remembered is one further back
        refine .inr ⟨a.nonce, rfl, fun hk hne => ?_, fun hk => ?_⟩
        · rw [hne] at hseen
          exact hseen ((h hk).2 a hact).mem
        · obtain ⟨⟨older, newer, hstored, hlen⟩, hactive⟩ := h (Nat.lt_of_succ_lt hk)
          refine ⟨⟨older, newer, hstored, Nat.le_succ_of_le hlen⟩, fun b hb => ?_⟩
          cases hb
          exact (hactive a hact).append a.nonce
  | finish ok =>
    refine .inl ?_
    cases hact : w.active with
    | none =>
      have hstep : w.step (.finish ok) = w := by simp only [World.step, hact]
      rw [hstep]
      exact ⟨rfl, h⟩
    | some a =>
      have hstep : w.step (.finish ok) =
          { w with active := none, stored := if ok then saved a.seen else w.stored } := by
        simp only [World.step, hact]
      rw [hstep]
      refine ⟨rfl, fun hk => ⟨?_, (hnone hk).2⟩⟩
      cases ok with
      | true =>
        dsimp only
        rw [if_pos rfl]
        exact ((h hk).2 a hact).saved hk
      | false => exact (h hk).1
  | note m =>
    refine .inl ?_
    by_cases hm : m ∈ w.notes
    · have hstep : w.step (.note m) = w := by simp only [World.step, if_pos hm]
      rw [hstep]
      exact ⟨rfl, h⟩
    · have hstep : w.step (.note m) =
          { w with notes := noted w.notes m, kept := w.kept ++ [m] } := by
        simp only [World.step, if_neg hm]
      rw [hstep]
      exact ⟨rfl, h⟩
  | kill => exact .inl ⟨rfl, hnone⟩

/-- Over a run: the nonce is none of the next ones taken. -/
theorem Remembers.run (h : Remembers n k w) (later : List (Event N)) :
    ∃ new, (later.foldl World.step w).taken = w.taken ++ new ∧ n ∉ new.take (seenKept - k) := by
  -- each nonce taken on the way is one more newer one: `k` grows with `new`
  induction later generalizing w k with
  | nil => exact ⟨[], (List.append_nil _).symm, by simp⟩
  | cons e later ih =>
    rcases h.step e with ⟨hsame, hnext⟩ | ⟨m, htaken, hne, hnext⟩
    · obtain ⟨new, hnew, hn⟩ := ih hnext
      exact ⟨new, by rw [List.foldl_cons, hnew, hsame], hn⟩
    · obtain ⟨new, hnew, hn⟩ := ih hnext
      refine ⟨m :: new, ?_, ?_⟩
      · rw [List.foldl_cons, hnew, htaken, List.append_assoc]
        rfl
      · by_cases hk : k < seenKept
        · have hcount : seenKept - k = (seenKept - (k + 1)) + 1 := by omega
          rw [hcount, List.take_succ_cons, List.mem_cons, not_or]
          exact ⟨Ne.symm (hne hk), hn⟩
        · rw [Nat.sub_eq_zero_of_le (Nat.le_of_not_lt hk)]
          simp

/-! ### Notes -/

/-- The notes remember the nonce: it is in their set with no more than `k` behind it. -/
def NoteRemembers (n : N) (k : Nat) (w : World N) : Prop := k < notesKept → Recent n k w.notes

/-- Only a note, or the end of the app, changes the set of the notes. -/
theorem notes_step {e : Event N} (hkill : e ≠ .kill) (hnote : ∀ m, e ≠ .note m) :
    (w.step e).notes = w.notes ∧ (w.step e).kept = w.kept := by
  cases e with
  | note m => exact absurd rfl (hnote m)
  | kill => exact absurd rfl hkill
  | begin m => cases hact : w.active <;> simp [World.step, hact]
  | take =>
    cases hact : w.active with
    | none => simp [World.step, hact]
    | some a => by_cases hseen : a.nonce ∈ a.seen <;> simp [World.step, hact, hseen]
  | finish ok => cases hact : w.active <;> simp [World.step, hact]

/-- An event takes no note, or one of another nonce, and then the nonce is one older. -/
theorem NoteRemembers.step (h : NoteRemembers n k w) {e : Event N} (he : e ≠ .kill) :
    (w.step e).kept = w.kept ∧ NoteRemembers n k (w.step e) ∨
      ∃ m, (w.step e).kept = w.kept ++ [m] ∧ (k < notesKept → m ≠ n) ∧
        NoteRemembers n (k + 1) (w.step e) := by
  by_cases hnote : ∃ m, e = .note m
  · obtain ⟨m, rfl⟩ := hnote
    by_cases hm : m ∈ w.notes
    · have hstep : w.step (.note m) = w := by simp only [World.step, if_pos hm]
      rw [hstep]
      exact .inl ⟨rfl, h⟩
    · have hstep : w.step (.note m) =
          { w with notes := noted w.notes m, kept := w.kept ++ [m] } := by
        simp only [World.step, if_neg hm]
      rw [hstep]
      refine .inr ⟨m, rfl, fun hk hne => ?_, fun hk => ?_⟩
      · rw [hne] at hm
        exact hm (h hk).mem
      · exact (h (Nat.lt_of_succ_lt hk)).noted hk m
  · obtain ⟨hnotes, hkept⟩ := notes_step (w := w) he fun m hm => hnote ⟨m, hm⟩
    refine .inl ⟨hkept, ?_⟩
    unfold NoteRemembers
    rw [hnotes]
    exact h

/-- As long as the app does not end, the next notes are of other nonces. -/
theorem NoteRemembers.run (h : NoteRemembers n k w) {later : List (Event N)}
    (hlater : Event.kill ∉ later) :
    ∃ new, (later.foldl World.step w).kept = w.kept ++ new ∧ n ∉ new.take (notesKept - k) := by
  induction later generalizing w k with
  | nil => exact ⟨[], (List.append_nil _).symm, by simp⟩
  | cons e later ih =>
    obtain ⟨he, hrest⟩ := not_or.mp (mt List.mem_cons.mpr hlater)
    rcases h.step (Ne.symm he) with ⟨hsame, hnext⟩ | ⟨m, hkept, hne, hnext⟩
    · obtain ⟨new, hnew, hn⟩ := ih hnext hrest
      exact ⟨new, by rw [List.foldl_cons, hnew, hsame], hn⟩
    · obtain ⟨new, hnew, hn⟩ := ih hnext hrest
      refine ⟨m :: new, ?_, ?_⟩
      · rw [List.foldl_cons, hnew, hkept, List.append_assoc]
        rfl
      · by_cases hk : k < notesKept
        · have hcount : notesKept - k = (notesKept - (k + 1)) + 1 := by omega
          rw [hcount, List.take_succ_cons, List.mem_cons, not_or]
          exact ⟨Ne.symm (hne hk), hn⟩
        · rw [Nat.sub_eq_zero_of_le (Nat.le_of_not_lt hk)]
          simp

end

end World

/-! ### The result -/

open World

/-- A message's nonce that was taken and stored is none of the next 2000 that are taken, whatever
ends the app; a note's is none of the next 1000 notes', until the app ends. -/
theorem taken_nonces_are_remembered [DecidableEq N] (history : List (Event N)) (n : N) :
    (∀ a, (run history).active = some a → a.seen.getLast? = some n → ∀ later : List (Event N),
      ∃ new, (later.foldl step ((run history).step (.finish true))).taken =
        (run history).taken ++ new ∧ n ∉ new.take 2000) ∧
      (n ∉ (run history).notes → ∀ later : List (Event N), .kill ∉ later →
        ∃ new, (later.foldl step ((run history).step (.note n))).kept =
          (run history).kept ++ [n] ++ new ∧ n ∉ new.take 1000) := by
  constructor
  · intro a hact hlast later
    have hseen : Recent n 0 a.seen := by
      obtain ⟨older, hl⟩ := List.getLast?_eq_some_iff.mp hlast
      exact ⟨older, [], hl, Nat.le_refl 0⟩
    have hstep : (run history).step (.finish true) =
        { run history with active := none, stored := saved a.seen } := by
      simp only [World.step, hact, if_true]
    -- the message just stored is the newest of the stored nonces
    have hrem : Remembers n 0 ((run history).step (.finish true)) := by
      rw [hstep]
      refine fun hk => ⟨?_, fun b hb => by cases hb⟩
      dsimp only
      exact hseen.saved hk
    obtain ⟨new, hnew, hn⟩ := hrem.run later
    refine ⟨new, ?_, hn⟩
    rw [hnew, hstep]
  · intro hnew later hlater
    have hstep : (run history).step (.note n) =
        { run history with
          notes := noted (run history).notes n
          kept := (run history).kept ++ [n] } := by
      simp only [World.step, if_neg hnew]
    -- the note just kept is the newest, also where the oldest one had to go
    have hrem : NoteRemembers n 0 ((run history).step (.note n)) := by
      rw [hstep]
      intro _
      show Recent n 0 (noted _ n)
      unfold noted
      have hlast : Recent n 0 ((run history).notes ++ [n]) :=
        ⟨(run history).notes, [], rfl, Nat.le_refl 0⟩
      split
      · rename_i hlen
        rw [← List.drop_one]
        exact hlast.drop (by omega)
      · exact hlast
    obtain ⟨new, hkept, hn⟩ := hrem.run hlater
    refine ⟨new, ?_, hn⟩
    rw [hkept, hstep]

/-- A message that is stored, and comes again after the app has ended and another message; and a
note that comes again. -/
theorem taken_nonces_are_remembered_again :
    (∃ new, ([.kill, .begin 7, .take, .kill, .begin 8, .take, .finish true].foldl step
        ((run [.begin 7, .take]).step (.finish true))).taken = [7] ++ new ∧ 7 ∉ new.take 2000) ∧
      ∃ new, ([.note 6, .note 5].foldl step ((run []).step (.note 5))).kept = [] ++ [5] ++ new ∧
        5 ∉ new.take 1000 :=
  ⟨(taken_nonces_are_remembered [.begin 7, .take] 7).1 ⟨7, [7]⟩ rfl rfl _,
    (taken_nonces_are_remembered [] 5).2 (by decide) _ (by simp)⟩

/-! ### The size of the set -/

namespace Demo

/-- The first notes, with nonces 0, 1 and so on. -/
def notes (m : Nat) : List (Event Nat) := (List.range m).map .note

theorem run_concat (history : List (Event Nat)) (e : Event Nat) :
    run (history ++ [e]) = (run history).step e := List.foldl_concat ..

theorem notes_succ (m : Nat) : notes (m + 1) = notes m ++ [.note m] := by
  rw [notes, List.range_succ, List.map_append]
  rfl

/-- As many as the set has room for are all in it. -/
theorem run_notes {m : Nat} (hm : m ≤ notesKept) :
    run (notes m) = { started with notes := List.range m, kept := List.range m } := by
  induction m with
  | zero => rfl
  | succ m ih =>
    have hnew : m ∉ List.range m := List.not_mem_range_self
    have hnoted : noted (List.range m) m = List.range (m + 1) := by
      rw [noted, if_neg (by simpa using hm), List.range_succ]
    rw [notes_succ, run_concat, ih (Nat.le_of_succ_le hm)]
    simp only [World.step, if_neg hnew, hnoted]
    rw [List.range_succ]

/-- With one more, the first has no place. -/
theorem run_full : run (notes (notesKept + 1)) = { started with
    notes := (List.range notesKept).map Nat.succ, kept := List.range (notesKept + 1) } := by
  have hnew : notesKept ∉ List.range notesKept := List.not_mem_range_self
  have hlong : notesKept < (List.range notesKept ++ [notesKept]).length := by
    rw [List.length_append, List.length_range]
    exact Nat.lt_succ_self _
  have hnoted : noted (List.range notesKept) notesKept = (List.range notesKept).map Nat.succ := by
    rw [noted, if_pos hlong, ← List.range_succ, List.range_succ_eq_map, List.tail_cons]
  rw [notes_succ, run_concat, run_notes (Nat.le_refl _)]
  simp only [World.step, if_neg hnew, hnoted]
  rw [List.range_succ]

end Demo

/-- A note comes again after a thousand others: it is kept twice. -/
theorem note_is_kept_twice :
    ¬ ∀ history : List (Event Nat), (run history).taken.Nodup ∧ (run history).kept.Nodup := by
  intro h
  have hnodup := (h (Demo.notes (notesKept + 1) ++ [.note 0])).2
  have hgone : 0 ∉ (List.range notesKept).map Nat.succ := by
    rintro hmem
    obtain ⟨m, -, hm⟩ := List.mem_map.mp hmem
    cases hm
  have hfirst : 0 ∈ List.range (notesKept + 1) := List.mem_range.mpr (Nat.succ_pos _)
  rw [Demo.run_concat, Demo.run_full] at hnodup
  simp only [World.step, if_neg hgone] at hnodup
  exact (List.nodup_append.mp hnodup).2.2 0 hfirst 0 List.mem_cons_self rfl

end OkRn.Approve.Nonces
