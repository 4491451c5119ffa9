/-
OkRn/Lib/Regex.lean

Regular expressions matched by backtracking.

`run` lists every match at the beginning of a word in the order in which they are
tried, with what the groups captured; `exec` takes the first one of the leftmost
place.  A greedy expression tries its longest match first when nothing that continues
a word of one part begins a word of the next (`Longest.seq`).
-/
import Mathlib.Computability.Language

namespace OkRn

variable {α : Type}

/-- A regular expression over letters. -/
inductive Re (α : Type)
  | char (p : α → Bool)
  /-- One or more, as many as there are. -/
  | plus (p : α → Bool)
  | seq (r s : Re α)
  /-- Once, or else not at all. -/
  | opt (r : Re α)
  /-- A group that captures. -/
  | group (r : Re α)

namespace Re

/-- What the groups captured, and what is left. -/
structure Match (α : Type) where
  groups : List (List α)
  rest : List α

/-- The prefixes of such letters, the longest first, by what they leave. -/
def runPlus (p : α → Bool) : List α → List (List α)
  | [] => []
  | c :: l => if p c then runPlus p l ++ [l] else []

/-- Every match at the beginning of a word, in the order they are tried. -/
def run : Re α → List α → List (Match α)
  | char p, l =>
      match l with
      | [] => []
      | c :: l => if p c then [⟨[], l⟩] else []
  | plus p, l => (runPlus p l).map (⟨[], ·⟩)
  | seq r s, l =>
      (r.run l).flatMap fun m => (s.run m.rest).map fun m' => ⟨m.groups ++ m'.groups, m'.rest⟩
  | opt r, l => r.run l ++ [⟨[], l⟩]
  | group r, l => (r.run l).map fun m => ⟨l.take (l.length - m.rest.length) :: m.groups, m.rest⟩

/-- The first match of the leftmost place that has one, and its groups. -/
def exec (r : Re α) (l : List α) : Option (List α × List (List α)) :=
  match (r.run l).head? with
  | some m => some (l.take (l.length - m.rest.length), m.groups)
  | none =>
      match l with
      | [] => none
      | _ :: l => r.exec l

/-- The words of an expression. -/
def lang : Re α → Language α
  | char p => {w | ∃ c, p c = true ∧ w = [c]}
  | plus p => {w | w ≠ [] ∧ ∀ c ∈ w, p c = true}
  | seq r s => r.lang * s.lang
  | opt r => {w | w ∈ r.lang ∨ w = []}
  | group r => r.lang

section

variable {r s : Re α} {p : α → Bool} {c : α} {w l : List α} {m : Match α}

theorem mem_lang_plus : w ∈ (plus p).lang ↔ w ≠ [] ∧ ∀ c ∈ w, p c = true := Iff.rfl

/-- A word of letters that fit. -/
theorem mem_lang_plus_of_all (hne : w ≠ []) (hall : w.all p = true) : w ∈ (plus p).lang :=
  mem_lang_plus.mpr ⟨hne, List.all_eq_true.mp hall⟩

/-! ### Every match is a word, and every word is matched -/

theorem mem_runPlus : l ∈ runPlus p w ↔ ∃ x, x ≠ [] ∧ (∀ c ∈ x, p c = true) ∧ w = x ++ l := by
  -- a match is one more character of it, or ends here
  induction w with
  | nil =>
    refine ⟨nofun, fun ⟨x, hx, _, hw⟩ => absurd (List.append_eq_nil_iff.mp hw.symm).1 hx⟩
  | cons c w ih =>
    rw [runPlus]
    split
    · rename_i hc
      rw [List.mem_append, ih, List.mem_singleton]
      constructor
      · rintro (⟨x, -, hx, rfl⟩ | rfl)
        · exact ⟨c :: x, List.cons_ne_nil c x, List.forall_mem_cons.mpr ⟨hc, hx⟩, rfl⟩
        · exact ⟨[c], List.cons_ne_nil c [], by simpa using hc, rfl⟩
      · rintro ⟨x, hne, hx, hw⟩
        cases x with
        | nil => exact absurd rfl hne
        | cons d x =>
          obtain ⟨rfl, rfl⟩ := List.cons.inj hw
          cases x with
          | nil => exact .inr rfl
          | cons e x =>
            exact .inl ⟨e :: x, List.cons_ne_nil e x,
              fun a ha => hx a (List.mem_cons_of_mem c ha), rfl⟩
    · rename_i hc
      refine ⟨nofun, fun ⟨x, hne, hx, hw⟩ => ?_⟩
      cases x with
      | nil => exact absurd rfl hne
      | cons d x =>
        obtain ⟨rfl, -⟩ := List.cons.inj hw
        exact absurd (hx c List.mem_cons_self) hc

/-- A match takes a word of the expression. -/
theorem mem_run (h : m ∈ r.run l) : ∃ w ∈ r.lang, l = w ++ m.rest := by
  -- along the expression: what the match took, and what it left
  induction r generalizing l m with
  | char p =>
    cases l with
    | nil => cases h
    | cons c l =>
      rw [run] at h
      split at h
      · rename_i hc
        obtain rfl := List.mem_singleton.mp h
        exact ⟨[c], ⟨c, hc, rfl⟩, rfl⟩
      · cases h
  | plus p =>
    obtain ⟨rest, hrest, rfl⟩ := List.mem_map.mp h
    obtain ⟨x, hne, hx, rfl⟩ := mem_runPlus.mp hrest
    exact ⟨x, ⟨hne, hx⟩, rfl⟩
  | seq r s ihr ihs =>
    obtain ⟨m₁, h₁, hm⟩ := List.mem_flatMap.mp h
    obtain ⟨m₂, h₂, rfl⟩ := List.mem_map.mp hm
    obtain ⟨x, hx, rfl⟩ := ihr h₁
    obtain ⟨y, hy, hrest⟩ := ihs h₂
    refine ⟨x ++ y, ⟨x, hx, y, hy, rfl⟩, ?_⟩
    rw [hrest, List.append_assoc]
  | opt r ih =>
    rcases List.mem_append.mp h with h | h
    · obtain ⟨w, hw, hl⟩ := ih h
      exact ⟨w, .inl hw, hl⟩
    · obtain rfl := List.mem_singleton.mp h
      exact ⟨[], .inr rfl, rfl⟩
  | group r ih =>
    obtain ⟨m', hm', rfl⟩ := List.mem_map.mp h
    obtain ⟨w, hw, hl⟩ := ih hm'
    exact ⟨w, hw, hl⟩

/-- Every word that begins here is a match. -/
theorem run_of_mem (h : w ∈ r.lang) (rest : List α) : ∃ m ∈ r.run (w ++ rest), m.rest = rest := by
  induction r generalizing w rest with
  | char p =>
    obtain ⟨c, hc, rfl⟩ := h
    exact ⟨⟨[], rest⟩, by simp [run, hc], rfl⟩
  | plus p =>
    refine ⟨⟨[], rest⟩, List.mem_map.mpr ⟨rest, mem_runPlus.mpr ⟨w, h.1, h.2, rfl⟩, rfl⟩, rfl⟩
  | seq r s ihr ihs =>
    obtain ⟨x, hx, y, hy, rfl⟩ := h
    obtain ⟨m₁, h₁, hrest₁⟩ := ihr hx (y ++ rest)
    obtain ⟨m₂, h₂, hrest₂⟩ := ihs hy rest
    refine ⟨⟨m₁.groups ++ m₂.groups, m₂.rest⟩, List.mem_flatMap.mpr ⟨m₁, ?_, ?_⟩, hrest₂⟩
    · show m₁ ∈ r.run (x ++ y ++ rest)
      rw [List.append_assoc]
      exact h₁
    · rw [hrest₁]
      exact List.mem_map.mpr ⟨m₂, h₂, rfl⟩
  | opt r ih =>
    rcases h with h | rfl
    · obtain ⟨m, hm, hrest⟩ := ih h rest
      exact ⟨m, List.mem_append_left _ hm, hrest⟩
    · exact ⟨⟨[], rest⟩, List.mem_append_right _ (List.mem_singleton.mpr rfl), rfl⟩
  | group r ih =>
    obtain ⟨m, hm, hrest⟩ := ih h rest
    exact ⟨_, List.mem_map.mpr ⟨m, hm, rfl⟩, hrest⟩

/-! ### What the groups captured -/

/-- The matches of one part after another. -/
theorem mem_run_seq : m ∈ (seq r s).run l ↔ ∃ m₁ ∈ r.run l, ∃ m₂ ∈ s.run m₁.rest,
    m = ⟨m₁.groups ++ m₂.groups, m₂.rest⟩ := by
  constructor
  · intro h
    obtain ⟨m₁, h₁, hm⟩ := List.mem_flatMap.mp h
    obtain ⟨m₂, h₂, rfl⟩ := List.mem_map.mp hm
    exact ⟨m₁, h₁, m₂, h₂, rfl⟩
  · rintro ⟨m₁, h₁, m₂, h₂, rfl⟩
    exact List.mem_flatMap.mpr ⟨m₁, h₁, List.mem_map.mpr ⟨m₂, h₂, rfl⟩⟩

theorem mem_run_char (h : m ∈ (char p).run l) :
    ∃ c, p c = true ∧ l = c :: m.rest ∧ m.groups = [] := by
  cases l with
  | nil => cases h
  | cons c l =>
    rw [run] at h
    split at h
    · rename_i hc
      obtain rfl := List.mem_singleton.mp h
      exact ⟨c, hc, rfl, rfl⟩
    · cases h

/-- The matches of a group of letters. -/
theorem mem_run_group_plus (h : m ∈ (group (plus p)).run l) :
    ∃ w ∈ (plus p).lang, l = w ++ m.rest ∧ m.groups = [w] := by
  obtain ⟨m', hm', rfl⟩ := List.mem_map.mp h
  obtain ⟨rest, hrest, rfl⟩ := List.mem_map.mp hm'
  obtain ⟨w, hne, hw, rfl⟩ := mem_runPlus.mp hrest
  refine ⟨w, ⟨hne, hw⟩, rfl, ?_⟩
  show [(w ++ rest).take ((w ++ rest).length - rest.length)] = [w]
  rw [List.length_append, Nat.add_sub_cancel, List.take_left]

/-- No match: no word of the expression begins here. -/
theorem run_eq_nil : r.run l = [] ↔ ∀ w ∈ r.lang, ¬ w <+: l := by
  constructor
  · rintro h w hw ⟨rest, rfl⟩
    obtain ⟨m, hm, -⟩ := run_of_mem hw rest
    rw [h] at hm
    cases hm
  · intro h
    refine List.eq_nil_iff_forall_not_mem.mpr fun m hm => ?_
    obtain ⟨w, hw, rfl⟩ := mem_run hm
    exact h w hw (List.prefix_append w m.rest)

/-- The first match here is the one that is taken. -/
theorem exec_of_head (h : (r.run l).head? = some m) :
    r.exec l = some (l.take (l.length - m.rest.length), m.groups) := by
  unfold exec
  rw [h]

/-- Without one the search goes on. -/
theorem exec_of_run_eq_nil (h : r.run l = []) : r.exec l = r.exec l.tail := by
  cases l with
  | nil => rfl
  | cons c l => rw [exec, h]; rfl

/-- There is no match when no word begins anywhere. -/
theorem exec_eq_none (h : ∀ p q, l = p ++ q → ∀ w ∈ r.lang, ¬ w <+: q) : r.exec l = none := by
  induction l with
  | nil =>
    rw [exec, run_eq_nil.mpr (h [] [] rfl)]
    rfl
  | cons c l ih =>
    rw [exec_of_run_eq_nil (run_eq_nil.mpr (h [] (c :: l) rfl))]
    exact ih fun p q hl => h (c :: p) q (by rw [hl, List.cons_append])

/-! ### Greedy expressions -/

/-- The first match of every word is the longest. -/
def Longest (r : Re α) : Prop :=
  ∀ l m, (r.run l).head? = some m → ∀ w ∈ r.lang, w <+: l → w.length + m.rest.length ≤ l.length

/-- A letter that continues a word to a longer one. -/
def Follows (r : Re α) (c : α) : Prop := ∃ w ∈ r.lang, ∃ w' ∈ r.lang, w ++ [c] <+: w'

/-- A letter that begins a word. -/
def Begins (r : Re α) (c : α) : Prop := ∃ w ∈ r.lang, [c] <+: w

theorem not_follows_char : ¬ (char p).Follows c := by
  rintro ⟨w, ⟨a, -, rfl⟩, w', ⟨b, -, rfl⟩, hbegins⟩
  have hlength := hbegins.length_le
  simp at hlength

/-- What follows letters of a kind is one of them. -/
theorem Follows.plus (h : (plus p).Follows c) : p c = true := by
  obtain ⟨w, -, w', hw', hbegins⟩ := h
  exact hw'.2 c (hbegins.subset (List.mem_append_right w (List.mem_singleton.mpr rfl)))

/-- What follows an optional part. -/
theorem Follows.opt (h : (opt r).Follows c) : r.Begins c ∨ r.Follows c := by
  obtain ⟨w, hw, w', hw', hbegins⟩ := h
  rcases hw' with hw' | rfl
  · rcases hw with hw | rfl
    · exact .inr ⟨w, hw, w', hw', hbegins⟩
    · exact .inl ⟨w', hw', hbegins⟩
  · have hlength := hbegins.length_le
    simp at hlength

/-- What follows a letter and a part follows the part. -/
theorem Follows.seq_char (h : (seq (char p) r).Follows c) : r.Follows c := by
  obtain ⟨w, ⟨x, ⟨a, -, rfl⟩, y, hy, rfl⟩, w', ⟨x', ⟨b, -, rfl⟩, y', hy', rfl⟩, hbegins⟩ := h
  refine ⟨y, hy, y', hy', ?_⟩
  have hcons : a :: (y ++ [c]) <+: b :: y' := hbegins
  exact (List.cons_prefix_cons.mp hcons).2

/-- A letter begins with itself. -/
theorem Begins.char (h : (char p).Begins c) : p c = true := by
  obtain ⟨w, ⟨a, ha, rfl⟩, hbegins⟩ := h
  obtain ⟨rfl, -⟩ := List.cons_prefix_cons.mp hbegins
  exact ha

theorem Begins.plus (h : (plus p).Begins c) : p c = true := by
  obtain ⟨w, hw, hbegins⟩ := h
  exact hw.2 c (hbegins.subset (List.mem_singleton.mpr rfl))

/-- An optional part begins as the part does. -/
theorem Begins.opt (h : (opt r).Begins c) : r.Begins c := by
  obtain ⟨w, hw | rfl, hbegins⟩ := h
  · exact ⟨w, hw, hbegins⟩
  · exact absurd (List.prefix_nil.mp hbegins) (List.cons_ne_nil c [])

theorem Begins.group (h : (group r).Begins c) : r.Begins c := h

/-- One part after another begins as the first does, or as the second. -/
theorem Begins.seq (h : (seq r s).Begins c) : r.Begins c ∨ [] ∈ r.lang ∧ s.Begins c := by
  obtain ⟨w, ⟨x, hx, y, hy, rfl⟩, hbegins⟩ := h
  cases x with
  | nil => exact .inr ⟨hx, y, hy, hbegins⟩
  | cons d x =>
    obtain ⟨rfl, -⟩ := List.cons_prefix_cons.mp hbegins
    exact .inl ⟨c :: x, hx, ⟨x, rfl⟩⟩

/-- A letter's match is the longest. -/
theorem longest_char : (char p).Longest := by
  rintro l m hm w ⟨c, -, rfl⟩ hbegins
  obtain ⟨x, ⟨d, -, rfl⟩, rfl⟩ := mem_run (List.mem_of_head? hm)
  rw [List.length_append, List.length_singleton, List.length_singleton]

/-- The first match of `plus` takes every letter that fits. -/
theorem runPlus_head (p : α → Bool) (l : List α) :
    ∀ rest ∈ (runPlus p l).head?, rest = l.dropWhile p := by
  induction l with
  | nil => exact fun rest h => by cases h
  | cons c l ih =>
    intro rest h
    rw [runPlus] at h
    split at h
    · rename_i hc
      rw [List.dropWhile_cons_of_pos hc]
      cases hrest : runPlus p l with
      | nil =>
        rw [hrest] at h
        obtain rfl : l = rest := Option.some.inj h
        cases l with
        | nil => rfl
        | cons d l =>
          rw [runPlus] at hrest
          split at hrest
          · exact absurd (List.append_eq_nil_iff.mp hrest).2 (List.cons_ne_nil _ _)
          · rename_i hd
            rw [List.dropWhile_cons_of_neg hd]
      | cons first others =>
        rw [hrest] at h
        exact ih rest (by rw [hrest]; exact h)
    · cases h

theorem longest_plus : (plus p).Longest := by
  rintro l m hm w ⟨-, hw⟩ ⟨t, rfl⟩
  rw [run, List.head?_map] at hm
  obtain ⟨rest, hrest, rfl⟩ := Option.map_eq_some_iff.mp hm
  obtain rfl := runPlus_head p _ rest hrest
  rw [List.dropWhile_append_of_pos hw, List.length_append]
  have hle := (List.dropWhile_suffix p (l := t)).length_le
  show w.length + (t.dropWhile p).length ≤ _
  omega

/-- An optional part takes the longest of the part. -/
theorem Longest.opt (h : r.Longest) : (opt r).Longest := by
  intro l m hm w hw hbegins
  rw [run, List.head?_append] at hm
  cases hhead : (r.run l).head? with
  | some m' =>
    rw [hhead] at hm
    obtain rfl : m' = m := Option.some.inj hm
    rcases hw with hw | rfl
    · exact h l m' hhead w hw hbegins
    · obtain ⟨x, -, rfl⟩ := mem_run (List.mem_of_head? hhead)
      simp
  | none =>
    rw [hhead] at hm
    obtain rfl : (⟨[], l⟩ : Match α) = m := Option.some.inj hm
    rcases hw with hw | rfl
    · exact absurd hbegins (run_eq_nil.mp (List.head?_eq_none_iff.mp hhead) w hw)
    · simp

theorem Longest.group (h : r.Longest) : (group r).Longest := by
  intro l m hm w hw hbegins
  rw [run, List.head?_map] at hm
  obtain ⟨m', hm', rfl⟩ := Option.map_eq_some_iff.mp hm
  exact h l m' hm' w hw hbegins

/-- The first match of a sequence goes on from the first match of its first part, when a shorter one
of the first part is of no use to the second. -/
theorem Longest.seq_of (hr : r.Longest) (hs : s.Longest)
    (h : ∀ l, ∀ x ∈ r.lang, ∀ y ∈ s.lang, x ++ y <+: l → ∀ x' ∈ r.lang, x' <+: l →
      x.length < x'.length → [] ∈ s.lang ∧ (x ++ y).length ≤ x'.length) : (seq r s).Longest := by
  rintro l m hm w ⟨x, hx, y, hy, rfl⟩ hbegins
  have hxl : x <+: l := (List.prefix_append x y).trans hbegins
  cases hruns : r.run l with
  | nil => exact absurd hxl (run_eq_nil.mp hruns x hx)
  | cons g others =>
    obtain ⟨x', hx', hl⟩ := mem_run (hruns ▸ List.mem_cons_self : g ∈ r.run l)
    have hgreedy := hr l g (by rw [hruns]; rfl)
    have hlength : l.length = x'.length + g.rest.length := by rw [hl, List.length_append]
    -- a word of the first part as long as the greedy one leaves the same
    have hsame {z v : List α} (hz : z ++ v <+: l) (hlen : z.length = x'.length) : v <+: g.rest := by
      obtain rfl : z = x' := by
        have hzl : z <+: l := (List.prefix_append z v).trans hz
        exact List.IsPrefix.eq_of_length (List.prefix_of_prefix_length_le hzl (hl ▸
          List.prefix_append x' g.rest) hlen.le) hlen
      rw [hl] at hz
      exact (List.prefix_append_right_inj z).mp hz
    rw [run, hruns, List.flatMap_cons, List.head?_append] at hm
    cases hsecond : (s.run g.rest).head? with
    | some m' =>
      rw [List.head?_map, hsecond] at hm
      obtain rfl := Option.some.inj hm
      obtain ⟨y', -, hrest⟩ := mem_run (List.mem_of_head? hsecond)
      have hle : m'.rest.length ≤ g.rest.length := by
        rw [hrest, List.length_append]
        omega
      show (x ++ y).length + m'.rest.length ≤ l.length
      have hxle := hgreedy x hx hxl
      rcases Nat.lt_or_ge x.length x'.length with hlt | hge
      · have hshort := (h l x hx y hy hbegins x' hx' (hl ▸ List.prefix_append x' g.rest) hlt).2
        omega
      · have hlen : x.length = x'.length := by omega
        have hsecond' := hs g.rest m' hsecond y hy (hsame hbegins hlen)
        rw [List.length_append]
        omega
    | none =>
      -- the second part matches nowhere after the greedy word, so it is not empty either
      have hnone := run_eq_nil.mp (List.head?_eq_none_iff.mp hsecond)
      have hxle := hgreedy x hx hxl
      rcases Nat.lt_or_ge x.length x'.length with hlt | hge
      · have hnil := (h l x hx y hy hbegins x' hx' (hl ▸ List.prefix_append x' g.rest) hlt).1
        exact absurd List.nil_prefix (hnone [] hnil)
      · have hlen : x.length = x'.length := by omega
        exact absurd (hsame hbegins hlen) (hnone y hy)

/-- What continues a word of the first part does not begin a word of the second. -/
theorem Longest.seq (hr : r.Longest) (hs : s.Longest) (h : ∀ c, r.Follows c → ¬ s.Begins c) :
    (seq r s).Longest := by
  refine hr.seq_of hs fun l x hx y hy hxy x' hx' hbegins hlt => ?_
  have hxl : x <+: l := (List.prefix_append x y).trans hxy
  obtain ⟨t, ht⟩ : x <+: x' := List.prefix_of_prefix_length_le hxl hbegins hlt.le
  cases t with
  | nil =>
    rw [List.append_nil] at ht
    exact absurd (congrArg List.length ht) hlt.ne
  | cons c t =>
    have hfollows : r.Follows c := ⟨x, hx, x', hx', t, by rw [← ht]; simp⟩
    cases y with
    | nil =>
      rw [List.append_nil]
      exact ⟨hy, hlt.le⟩
    | cons d y =>
      have hrest : d :: y <+: c :: t ∨ c :: t <+: d :: y := by
        rw [← ht] at hbegins
        rcases List.prefix_or_prefix_of_prefix hxy hbegins with hle | hle
        · exact .inl ((List.prefix_append_right_inj x).mp hle)
        · exact .inr ((List.prefix_append_right_inj x).mp hle)
      have hcd : d = c := by
        rcases hrest with hle | hle
        · exact (List.cons_prefix_cons.mp hle).1
        · exact (List.cons_prefix_cons.mp hle).1.symm
      exact absurd ⟨d :: y, hy, hcd ▸ ⟨y, rfl⟩⟩ (h c hfollows)

/-- The second part is one letter at the most. -/
theorem Longest.seq_short (hr : r.Longest) (hs : s.Longest) (hnil : [] ∈ s.lang)
    (hshort : ∀ w ∈ s.lang, w.length ≤ 1) : (Re.seq r s).Longest := by
  refine hr.seq_of hs fun l x _ y hy _ x' _ _ hlt => ⟨hnil, ?_⟩
  have hone := hshort y hy
  rw [List.length_append]
  omega

/-- The leftmost word that nothing continues is what a greedy expression finds. -/
theorem exec_of_longest (hr : r.Longest) {before after : List α} (hw : w ∈ r.lang)
    (hend : ∀ c rest, after = c :: rest → ∀ t, w ++ c :: t ∉ r.lang)
    (hfirst : ∀ p q, before ++ (w ++ after) = p ++ q → p.length < before.length →
      ∀ v ∈ r.lang, ¬ v <+: q) :
    ∃ m ∈ r.run (w ++ after), m.rest = after ∧
      r.exec (before ++ (w ++ after)) = some (w, m.groups) := by
  induction before with
  | nil =>
    obtain ⟨m₀, hm₀, -⟩ := run_of_mem hw after
    cases hruns : r.run (w ++ after) with
    | nil =>
      rw [hruns] at hm₀
      cases hm₀
    | cons m others =>
      have hmem : m ∈ r.run (w ++ after) := hruns ▸ List.mem_cons_self
      have hle := hr (w ++ after) m (by rw [hruns]; rfl) w hw (List.prefix_append w after)
      obtain ⟨v, hv, hsplit⟩ := mem_run hmem
      -- the first match is no longer and no shorter than the word
      have hrest : m.rest = after := by
        have hlength := congrArg List.length hsplit
        rw [List.length_append, List.length_append] at hlength
        rw [List.length_append] at hle
        obtain ⟨t, rfl⟩ : w <+: v := List.prefix_of_prefix_length_le (List.prefix_append w after)
          (hsplit ▸ List.prefix_append v m.rest) (by omega)
        rw [List.append_assoc] at hsplit
        have hafter := List.append_cancel_left hsplit
        cases t with
        | nil => exact hafter.symm
        | cons c t => exact absurd hv (hend c (t ++ m.rest) hafter t)
      refine ⟨m, List.mem_cons_self, hrest, ?_⟩
      have hhead : (r.run (w ++ after)).head? = some m := by
        rw [hruns]
        rfl
      rw [List.nil_append, exec_of_head hhead, hrest, List.length_append, Nat.add_sub_cancel,
        List.take_left]
  | cons c before ih =>
    have hnone : r.run (c :: before ++ (w ++ after)) = [] :=
      run_eq_nil.mpr (hfirst [] _ rfl (Nat.succ_pos _))
    obtain ⟨m, hm, hrest, hexec⟩ := ih fun p q hl hlt =>
      hfirst (c :: p) q (by rw [List.cons_append, hl, List.cons_append]) (Nat.succ_lt_succ hlt)
    refine ⟨m, hm, hrest, ?_⟩
    rw [exec_of_run_eq_nil hnone]
    exact hexec

end

end Re

end OkRn
