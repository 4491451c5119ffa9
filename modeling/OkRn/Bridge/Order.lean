/-
OkRn/Bridge/Order.lean

The order in which a computer's reports reach the key.

Each frame is handled by a call of its own.  Its reports go on one after another:
one waits for the key and its lane, is written, and the next follows when the
write has settled.  Those that wait are served in the order in which they began
to, but nothing makes the next frame wait for the later reports of a packed one.

As long as no frame comes in while an earlier one has another report to send on,
what is written is what came, in order, each report once (`written_in_order`).
-/
import OkRn.Bridge.Kept

namespace OkRn.Bridge.Order

open OkRn.Bt

variable {M A : Type}

/-- A report, numbered as it came. -/
structure Report where
  no : Nat
  data : Msg
  deriving DecidableEq

/-- A report that waits for the key, and the frame it came in. -/
structure Entry where
  frame : Nat
  report : Report

/-- The frames with their reports, the line before the key, the writes under way, and what came and
was written. -/
structure World where
  halted : Bool
  /-- How many frames and reports have come. -/
  frames : Nat
  reports : Nat
  /-- Those that wait for the key and its lane. -/
  line : List Entry
  /-- The frames with a write under way. -/
  writing : List Nat
  /-- The reports of a frame after the one it is at. -/
  rest : Nat → List Report
  /-- Every report that came. -/
  came : List Report
  /-- Those answered by the bridge, as the key has stopped, and those that found no key. -/
  lost : List Nat
  /-- Every call of `transport.write`. -/
  written : List Report

/-- A frame comes, the first in line has its turn, a write settles, the key stops. -/
inductive Event
  /-- A sealed frame is opened: its reports. -/
  | frame (data : List Msg)
  /-- The first in line has the key. -/
  | turn
  /-- `getKey` fails for the report of the frame. -/
  | noKey (frame : Nat)
  /-- The write of the frame is over, well or not. -/
  | wrote (frame : Nat)
  | halt (halted : Bool)

/-- The reports of a frame, numbered. -/
def numbered (start : Nat) : List Msg → List Report
  | [] => []
  | data :: ds => ⟨start, data⟩ :: numbered (start + 1) ds

/-- Refused, or kept for the app. -/
def stays (W : WireLib M A) (r : Report) : Bool :=
  isFirmwareUpdate W r.data || W.isEdgeRequestFrame r.data

/-- The reports that go on to the key. -/
def forKey (W : WireLib M A) (rs : List Report) : List Report := rs.filter fun r => !stays W r

namespace World

/-- The loop of `onRequest`, up to the next report that has to wait. -/
def next (W : WireLib M A) (f : Nat) : List Report → World → World
  | [], w => { w with rest := Function.update w.rest f [] }
  | r :: rs, w =>
      if stays W r then next W f rs w
      else if w.halted then next W f rs { w with lost := r.no :: w.lost }
      else
        { w with
          line := w.line ++ [⟨f, r⟩]
          rest := Function.update w.rest f rs }

/-- `onRequest`, for a frame that passed the gates. -/
def onRequest (W : WireLib M A) (data : List Msg) (w : World) : World :=
  let rs := numbered w.reports data
  next W w.frames rs { w with
    frames := w.frames + 1
    reports := w.reports + data.length
    came := w.came ++ rs }

/-- `transport.write` is called for the first in line. -/
def write (w : World) : World :=
  match w.line with
  | [] => w
  | x :: l =>
      { w with line := l, writing := x.frame :: w.writing, written := w.written ++ [x.report] }

/-- The call of the frame fails before its write. -/
def fails (W : WireLib M A) (f : Nat) (w : World) : World :=
  match w.line.find? fun x => x.frame == f with
  | none => w
  | some x =>
      next W f (w.rest f) { w with
        line := w.line.eraseP fun x => x.frame == f
        lost := x.report.no :: w.lost }

/-- The frame goes on after its write. -/
def settles (W : WireLib M A) (f : Nat) (w : World) : World :=
  if f ∈ w.writing then next W f (w.rest f) { w with writing := w.writing.erase f } else w

/-- What an event does to the line. -/
def step (W : WireLib M A) (w : World) : Event → World
  | .frame data => w.onRequest W data
  | .turn => w.write
  | .noKey f => w.fails W f
  | .wrote f => w.settles W f
  | .halt b => { w with halted := b }

/-- No frame has come. -/
def init : World := ⟨false, 0, 0, [], [], fun _ => [], [], [], []⟩

/-- What a frame still has to send on. -/
def later (W : WireLib M A) (w : World) (f : Nat) : List Report := forKey W (w.rest f)

/-- The reports of all frames in order, less those refused, kept for the app or lost. -/
def due (W : WireLib M A) (w : World) : List Report :=
  (forKey W w.came).filter fun r => r.no ∉ w.lost

/-- No frame is under way. -/
def Idle (w : World) : Prop := w.line = [] ∧ w.writing = []

/-- No frame with a report for a running key comes in while an earlier one has another report to
send on. -/
def FramesApart (W : WireLib M A) (w : World) : Event → Prop
  | .frame data => w.halted = false → forKey W (numbered w.reports data) ≠ [] →
      ∀ f < w.frames, w.later W f = []
  | _ => True

/-- The reports have numbers of their own, and only frames that came have any left. -/
structure Counted (w : World) : Prop where
  numbers : (w.came.map (·.no)).Nodup
  fresh : ∀ r ∈ w.came, r.no < w.reports
  lost : ∀ n ∈ w.lost, n < w.reports
  rest : ∀ f, ∀ r ∈ w.rest f, r.no < w.reports
  beyond : ∀ f, w.frames ≤ f → w.rest f = []

/-- What is due was written, waits in line, or is left of the one frame that has more than one. -/
structure Inv (W : WireLib M A) (w : World) : Prop extends Counted w where
  due : ∃ f, (∀ g, g ≠ f → w.later W g = []) ∧
    w.due W = w.written ++ w.line.map (·.report) ++ w.later W f
  later : ∀ f, w.later W f ≠ [] → f ∈ w.writing ∨ ∃ x ∈ w.line, x.frame = f

variable {W : WireLib M A} {w : World}

/-! ### Numbers -/

/-- The reports of a frame have the next numbers. -/
theorem numbered_bound {start : Nat} {data : List Msg} {r : Report} (hr : r ∈ numbered start data) :
    start ≤ r.no ∧ r.no < start + data.length := by
  induction data generalizing start with
  | nil => exact absurd hr List.not_mem_nil
  | cons d ds ih =>
    rcases List.mem_cons.mp hr with rfl | hr
    · simp
    · have := ih hr
      rw [List.length_cons]
      omega

theorem numbered_nodup (start : Nat) (data : List Msg) :
    ((numbered start data).map (·.no)).Nodup := by
  induction data generalizing start with
  | nil => exact List.nodup_nil
  | cons d ds ih =>
    refine List.nodup_cons.mpr ⟨fun hmem => ?_, ih (start + 1)⟩
    obtain ⟨r, hr, hno⟩ := List.mem_map.mp hmem
    have := (numbered_bound hr).1
    dsimp only at hno
    omega

/-- The report with a number leaves the others as they are. -/
theorem filter_no {l₁ l₂ : List Report} {r : Report}
    (h : ((l₁ ++ r :: l₂).map (·.no)).Nodup) :
    (l₁ ++ r :: l₂).filter (fun x => x.no ≠ r.no) = l₁ ++ l₂ := by
  have hkeep : ∀ x ∈ l₁ ++ l₂, x.no ≠ r.no := by
    have hperm : (l₁ ++ r :: l₂).Perm (r :: (l₁ ++ l₂)) := List.perm_middle
    have hnodup := (hperm.map (·.no)).nodup_iff.mp h
    intro x hx heq
    exact (List.nodup_cons.mp hnodup).1 (List.mem_map.mpr ⟨x, hx, heq⟩)
  have hself : ∀ l : List Report, (∀ x ∈ l, x.no ≠ r.no) → l.filter (fun x => x.no ≠ r.no) = l :=
    fun l hl => List.filter_eq_self.mpr fun x hx => by simpa using hl x hx
  rw [List.filter_append, List.filter_cons, hself l₁ fun x hx => hkeep x (by simp [hx]),
    hself l₂ fun x hx => hkeep x (by simp [hx])]
  simp

/-- What is due to the key has each number once too. -/
theorem due_nodup (h : (w.came.map (·.no)).Nodup) : ((w.due W).map (·.no)).Nodup := by
  refine h.sublist (List.Sublist.map _ ?_)
  exact List.filter_sublist.trans List.filter_sublist

/-- A report that is lost is no longer due. -/
theorem due_lose (h : (w.came.map (·.no)).Nodup) {l₁ l₂ : List Report} {r : Report}
    (hdue : w.due W = l₁ ++ r :: l₂) :
    due W { w with lost := r.no :: w.lost } = l₁ ++ l₂ := by
  have hnodup := due_nodup (W := W) h
  rw [hdue] at hnodup
  rw [← filter_no hnodup, ← hdue]
  unfold due
  rw [List.filter_filter]
  refine List.filter_congr fun x _ => ?_
  simp only [List.mem_cons, not_or, Bool.decide_and]

/-! ### The loop of a frame -/

/-- A report that the bridge keeps is not the key's. -/
theorem forKey_stays {r : Report} {rs : List Report} (hr : stays W r = true) :
    forKey W (r :: rs) = forKey W rs := by
  simp [forKey, hr]

/-- A report that is sent on is. -/
theorem forKey_goes {r : Report} {rs : List Report} (hr : stays W r = false) :
    forKey W (r :: rs) = r :: forKey W rs := by
  simp [forKey, hr]

/-- A running key: the frame is over, or its next report waits. -/
theorem next_running (f : Nat) (rs : List Report) (h : w.halted = false) :
    (forKey W rs = [] ∧ w.next W f rs = { w with rest := Function.update w.rest f [] }) ∨
    ∃ x xs, forKey W rs = x :: forKey W xs ∧ xs ⊆ rs ∧
      w.next W f rs =
        { w with line := w.line ++ [⟨f, x⟩], rest := Function.update w.rest f xs } := by
  induction rs with
  | nil => exact Or.inl ⟨rfl, rfl⟩
  | cons r rs ih =>
    unfold next
    cases hr : stays W r with
    | true =>
      rw [forKey_stays hr]
      refine ih.imp_right ?_
      rintro ⟨x, xs, hcons, hsub, heq⟩
      exact ⟨x, xs, hcons, List.subset_cons_of_subset r hsub, heq⟩
    | false =>
      refine Or.inr ⟨r, rs, forKey_goes hr, List.subset_cons_self r rs, ?_⟩
      simp [h]

/-- A halted key: the reports are lost one after another. -/
theorem next_halted (f : Nat) (rs : List Report) (h : w.halted = true)
    (hn : (w.came.map (·.no)).Nodup) {l : List Report} (hdue : w.due W = l ++ forKey W rs) :
    ∃ lost, w.next W f rs = { w with lost := lost, rest := Function.update w.rest f [] } ∧
      due W { w with lost := lost } = l ∧
      ∀ n ∈ lost, n ∈ w.lost ∨ ∃ r ∈ rs, r.no = n := by
  induction rs generalizing w with
  | nil => exact ⟨w.lost, rfl, by simpa [forKey] using hdue, fun n hn => Or.inl hn⟩
  | cons r rs ih =>
    unfold next
    cases hr : stays W r with
    | true =>
      rw [forKey_stays hr] at hdue
      obtain ⟨lost, heq, hd, hl⟩ := ih h hn hdue
      refine ⟨lost, heq, hd, fun n hn => (hl n hn).imp_right ?_⟩
      exact fun ⟨x, hx, hno⟩ => ⟨x, List.mem_cons_of_mem _ hx, hno⟩
    | false =>
      rw [forKey_goes hr] at hdue
      have hlose := due_lose hn hdue
      obtain ⟨lost, heq, hd, hl⟩ := ih (w := { w with lost := r.no :: w.lost }) h hn hlose
      refine ⟨lost, ?_, hd, fun n hn => ?_⟩
      · simpa [h] using heq
      · rcases hl n hn with hn | ⟨x, hx, hno⟩
        · rcases List.mem_cons.mp hn with rfl | hn
          · exact Or.inr ⟨r, List.mem_cons_self, rfl⟩
          · exact Or.inl hn
        · exact Or.inr ⟨x, List.mem_cons_of_mem _ hx, hno⟩

/-! ### A frame goes on -/

/-- What the later frames have left does not change with an earlier one's. -/
theorem later_update (f g : Nat) (rs : List Report) :
    later W { w with rest := Function.update w.rest f rs } g =
      if g = f then forKey W rs else w.later W g := by
  unfold later
  by_cases hg : g = f
  · rw [hg]
    simp
  · simp [hg]

/-- The reports of a frame that is taken out of the line. -/
theorem next_update (f : Nat) (rs : List Report) :
    next W f rs { w with rest := Function.update w.rest f [] } = w.next W f rs := by
  induction rs generalizing w with
  | nil => simp [next]
  | cons r rs ih =>
    unfold next
    split
    · exact ih
    · split
      · exact ih (w := { w with lost := r.no :: w.lost })
      · simp

/-- The reports that are left of a frame are among those that came. -/
theorem Counted.update (h : w.Counted) {f : Nat} {rs : List Report}
    (hrs : ∀ r ∈ rs, r.no < w.reports) (hf : rs ≠ [] → f < w.frames) :
    Counted { w with rest := Function.update w.rest f rs } :=
  { h with
    rest := by
      intro g r hr
      by_cases hg : g = f
      · subst hg
        exact hrs r (by simpa using hr)
      · exact h.rest g r (by simpa [hg] using hr)
    beyond := by
      intro g hg
      by_cases hgf : g = f
      · subst hgf
        by_contra hne
        exact absurd (hf (by simpa using hne)) (Nat.not_lt.mpr hg)
      · simpa [hgf] using h.beyond g hg }

/-- The loop of a frame with nothing set aside, run over its reports. -/
theorem next_inv (hc : w.Counted) {f g : Nat} {rs : List Report}
    (hlater : ∀ m, w.later W m ≠ [] → m ∈ w.writing ∨ ∃ x ∈ w.line, x.frame = m)
    (hrs : ∀ r ∈ rs, r.no < w.reports) (hf : rs ≠ [] → f < w.frames) (hfree : w.rest f = [])
    (hg : ∀ m, m ≠ g → w.later W m = [])
    (hopen : w.halted = false → forKey W rs ≠ [] → w.later W g = [])
    (hdue : w.due W = w.written ++ w.line.map (·.report) ++ w.later W g ++ forKey W rs) :
    (w.next W f rs).Inv W := by
  have hself : Function.update w.rest f [] = w.rest := by
    rw [← hfree]
    exact Function.update_eq_self f w.rest
  -- while halted what is left of a frame is lost, else its next report is in line
  cases hh : w.halted with
  | true =>
    obtain ⟨lost, heq, hd, hl⟩ := next_halted f rs hh hc.numbers hdue
    rw [heq, hself]
    refine ⟨{ hc with lost := fun n hn => ?_ }, ⟨g, hg, hd⟩, hlater⟩
    rcases hl n hn with hn | ⟨r, hr, rfl⟩
    · exact hc.lost n hn
    · exact hrs r hr
  | false =>
    rcases next_running (W := W) f rs hh with ⟨hnil, heq⟩ | ⟨x, xs, hcons, hsub, heq⟩
    · rw [heq, hself]
      refine ⟨hc, ⟨g, hg, ?_⟩, hlater⟩
      rw [hnil, List.append_nil] at hdue
      exact hdue
    · -- nothing was set aside, so what is left of this frame is all that is left
      have hg' := hopen hh (by simp [hcons])
      have hall : ∀ m, w.later W m = [] := fun m => by
        by_cases hm : m = g
        · rw [hm]
          exact hg'
        · exact hg m hm
      have hne : rs ≠ [] := by
        rintro rfl
        cases hcons
      have hupdate := hc.update (fun r hr => hrs r (hsub hr)) (fun _ => hf hne)
      rw [heq]
      refine ⟨{ hupdate with }, ⟨f, fun m hm => ?_, ?_⟩, fun m hm => ?_⟩
      · exact (later_update f m xs).trans (by rw [if_neg hm, hall m])
      · have hlast := (later_update (W := W) (w := w) f f xs).trans (if_pos rfl)
        refine Eq.trans hdue ?_
        rw [hg', hcons, ← hlast]
        simp [later]
      · by_cases hmf : m = f
        · exact Or.inr ⟨⟨f, x⟩, List.mem_append_right _ (List.mem_singleton.mpr rfl), hmf.symm⟩
        · have hold : w.later W m ≠ [] := by
            have hsame := (later_update (W := W) (w := w) f m xs).trans (if_neg hmf)
            exact hsame ▸ hm
          exact absurd (hall m) hold

/-- A frame that was written, or failed, runs on over the rest of its reports. -/
theorem resume_inv (hc : w.Counted) {f g : Nat}
    (hlater : ∀ m, m ≠ f → w.later W m ≠ [] → m ∈ w.writing ∨ ∃ x ∈ w.line, x.frame = m)
    (hg : ∀ m, m ≠ g → w.later W m = [])
    (hdue : w.due W = w.written ++ w.line.map (·.report) ++ w.later W g) :
    (w.next W f (w.rest f)).Inv W := by
  rw [← next_update]
  have hc' : Counted { w with rest := Function.update w.rest f [] } :=
    hc.update (fun r hr => absurd hr List.not_mem_nil) (fun hne => absurd rfl hne)
  have hf : w.rest f ≠ [] → f < w.frames := fun hne =>
    Nat.lt_of_not_le fun hle => hne (hc.beyond f hle)
  -- the frame's own rest is taken out first, so that it is not counted twice
  have hfree : later W { w with rest := Function.update w.rest f [] } f = [] :=
    (later_update f f []).trans (if_pos rfl)
  have hother : ∀ m, m ≠ f →
      later W { w with rest := Function.update w.rest f [] } m = w.later W m := fun m hm =>
    (later_update f m []).trans (if_neg hm)
  have hlater' : ∀ m, later W { w with rest := Function.update w.rest f [] } m ≠ [] →
      m ∈ w.writing ∨ ∃ x ∈ w.line, x.frame = m := fun m hm => by
    by_cases hmf : m = f
    · exact absurd (hmf ▸ hfree) hm
    · exact hlater m hmf (hother m hmf ▸ hm)
  have hg' : ∀ m, m ≠ g → later W { w with rest := Function.update w.rest f [] } m = [] :=
    fun m hm => by
      by_cases hmf : m = f
      · rw [hmf]
        exact hfree
      · rw [hother m hmf]
        exact hg m hm
  refine next_inv hc' hlater' (hc.rest f) hf (Function.update_self ..) hg' ?_ ?_
  · intro _ hne
    by_cases hgf : g = f
    · rw [hgf]
      exact hfree
    · exact absurd (hg f (Ne.symm hgf)) hne
  · refine Eq.trans hdue ?_
    by_cases hgf : g = f
    · subst hgf
      rw [hfree, List.append_nil]
      rfl
    · have hnone : forKey W (w.rest f) = [] := hg f (Ne.symm hgf)
      rw [hother g hgf, hnone, List.append_nil]

/-! ### The events -/

/-- Nothing has come and nothing is written. -/
theorem inv_init : Inv W init where
  numbers := List.nodup_nil
  fresh := by simp [init]
  lost := by simp [init]
  rest := by simp [init]
  beyond := fun _ _ => rfl
  due := ⟨0, fun _ _ => rfl, rfl⟩
  later := fun _ h => absurd rfl h

/-- A frame joins the line behind the others, as none of them has more to send. -/
theorem Inv.onRequest (h : w.Inv W) {data : List Msg} (hf : w.FramesApart W (.frame data)) :
    (w.onRequest W data).Inv W := by
  obtain ⟨g, hg, hdue⟩ := h.due
  -- the new reports' numbers lie above all earlier ones
  have hbound := @numbered_bound w.reports data
  unfold World.onRequest
  refine next_inv (g := g) ?_ h.later (fun r hr => (hbound hr).2)
    (fun _ => Nat.lt_succ_self _) (h.beyond _ (Nat.le_refl _)) hg (fun hh hne => ?_) ?_
  · constructor
    · rw [List.map_append]
      refine List.nodup_append.mpr ⟨h.numbers, numbered_nodup _ _, ?_⟩
      intro a ha b hb hab
      obtain ⟨x, hx, rfl⟩ := List.mem_map.mp ha
      obtain ⟨y, hy, rfl⟩ := List.mem_map.mp hb
      have := h.fresh x hx
      have := (hbound hy).1
      omega
    · intro r hr
      rcases List.mem_append.mp hr with hr | hr
      · exact Nat.lt_add_right _ (h.fresh r hr)
      · exact (hbound hr).2
    · exact fun n hn => Nat.lt_add_right _ (h.lost n hn)
    · exact fun f r hr => Nat.lt_add_right _ (h.rest f r hr)
    · exact fun f hf => h.beyond f (Nat.le_of_succ_le hf)
  · by_cases hgf : g < w.frames
    · exact hf hh hne g hgf
    · have hnone := h.beyond g (Nat.le_of_not_lt hgf)
      show forKey W (w.rest g) = []
      rw [hnone]
      rfl
  · -- the new reports have numbers that were not lost
    have hnew : (forKey W (numbered w.reports data)).filter (fun r => r.no ∉ w.lost) =
        forKey W (numbered w.reports data) := by
      refine List.filter_eq_self.mpr fun r hr => ?_
      have hge := (hbound (List.mem_of_mem_filter hr)).1
      have hnot : r.no ∉ w.lost := fun hl => absurd (h.lost _ hl) (Nat.not_lt.mpr hge)
      simpa using hnot
    show (forKey W (w.came ++ numbered w.reports data)).filter _ = _
    have hsplit : forKey W (w.came ++ numbered w.reports data) =
        forKey W w.came ++ forKey W (numbered w.reports data) := List.filter_append ..
    rw [hsplit, List.filter_append, hnew]
    exact congrArg (· ++ _) hdue

/-- The first in line is written. -/
theorem Inv.write (h : w.Inv W) : w.write.Inv W := by
  obtain ⟨g, hg, hdue⟩ := h.due
  unfold World.write
  split
  · exact h
  · rename_i x l hl
    refine ⟨{ h.toCounted with }, ⟨g, hg, ?_⟩, fun f hf => ?_⟩
    · refine Eq.trans hdue ?_
      show _ = (w.written ++ [x.report]) ++ l.map _ ++ w.later W g
      simp [hl]
    · rcases h.later f hf with hw | ⟨y, hy, rfl⟩
      · exact Or.inl (List.mem_cons_of_mem _ hw)
      · rw [hl] at hy
        rcases List.mem_cons.mp hy with rfl | hy
        · exact Or.inl List.mem_cons_self
        · exact Or.inr ⟨y, hy, rfl⟩

/-- Without a key the report is answered, and the next one of the frame follows. -/
theorem Inv.fails (h : w.Inv W) (f : Nat) : (w.fails W f).Inv W := by
  obtain ⟨g, hg, hdue⟩ := h.due
  unfold World.fails
  split
  · exact h
  · rename_i x hx
    obtain ⟨hxf, l₁, l₂, hl, hnot⟩ := List.find?_eq_some_iff_append.mp hx
    have herase : w.line.eraseP (fun x => x.frame == f) = l₁ ++ l₂ := by
      rw [hl, List.eraseP_append_right _ (by simpa using hnot), List.eraseP_cons_of_pos (by exact hxf)]
    rw [herase]
    -- the report that failed stands somewhere in the line; only it is lost
    have hsplit : w.due W = (w.written ++ l₁.map (·.report)) ++
        x.report :: (l₂.map (·.report) ++ w.later W g) := by
      rw [hdue, hl]
      simp
    have hxlt : x.report.no < w.reports := by
      have hmem : x.report ∈ w.due W := by
        rw [hsplit]
        simp
      exact h.fresh _ (List.mem_of_mem_filter (List.mem_of_mem_filter hmem))
    refine resume_inv (w := { w with line := l₁ ++ l₂, lost := x.report.no :: w.lost })
      { h.toCounted with lost := ?_ } (fun m hm hne => ?_) hg ?_
    · intro n hn
      rcases List.mem_cons.mp hn with rfl | hn
      · exact hxlt
      · exact h.lost n hn
    · refine (h.later m hne).imp_right ?_
      rintro ⟨y, hy, rfl⟩
      rw [hl] at hy
      refine ⟨y, ?_, rfl⟩
      rcases List.mem_append.mp hy with hy | hy
      · exact List.mem_append_left _ hy
      · rcases List.mem_cons.mp hy with rfl | hy
        · exact absurd (by simpa using hxf) hm
        · exact List.mem_append_right _ hy
    · refine (due_lose h.numbers hsplit).trans ?_
      show _ = w.written ++ (l₁ ++ l₂).map _ ++ w.later W g
      simp

/-- The write is over, and the next one of the frame follows. -/
theorem Inv.settles (h : w.Inv W) (f : Nat) : (w.settles W f).Inv W := by
  obtain ⟨g, hg, hdue⟩ := h.due
  unfold World.settles
  split
  · refine resume_inv (w := { w with writing := w.writing.erase f }) { h.toCounted with }
      (fun m hm hne => ?_) hg hdue
    exact (h.later m hne).imp_left fun hmem => (List.mem_erase_of_ne hm).mpr hmem
  · exact h

/-- Every event that meets the condition keeps the order. -/
theorem inv_step (w : World) (e : Event) (h : w.Inv W) (hf : w.FramesApart W e) : (w.step W e).Inv W := by
  cases e with
  | frame data => exact h.onRequest hf
  | turn => exact h.write
  | noKey f => exact h.fails f
  | wrote f => exact h.settles f
  | halt b => exact { h with }

/-! ### A run -/

/-- As long as each frame comes when no earlier one has another report to send on, what is
written is the beginning of what is due, each report once, and all of it when no frame is under
way. -/
theorem written_in_order (W : WireLib M A) (events : List Event)
    (hf : AllAlong (step W) (FramesApart W) init events) :
    let w := events.foldl (step W) init
    w.written <+: w.due W ∧ (w.written.map (·.no)).Nodup ∧ (w.Idle → w.written = w.due W) := by
  intro w
  have h : w.Inv W := hf.keeps inv_init inv_step
  obtain ⟨f, -, hdue⟩ := h.due
  have hbegin : w.written <+: w.due W := by
    rw [hdue, List.append_assoc]
    exact List.prefix_append ..
  refine ⟨hbegin, (due_nodup h.numbers).sublist (hbegin.sublist.map _), ?_⟩
  rintro ⟨hline, hwriting⟩
  have hnone : w.later W f = [] := by
    by_contra hne
    rcases h.later f hne with hw | ⟨x, hx, -⟩
    · exact absurd hw (by simp [hwriting])
    · exact absurd hx (by simp [hline])
  rw [hdue, hline, hnone]
  simp

/-- Two reports in one frame, then one in the next, which waits while the last of the first is being
written. -/
def oneAfterAnother : List Event :=
  [.frame [[1], [2]], .turn, .wrote 0, .turn, .frame [[3]], .turn, .wrote 1, .wrote 0]

instance (W : WireLib M A) (w : World) (e : Event) : Decidable (w.FramesApart W e) :=
  match e with
  | .frame data => inferInstanceAs (Decidable (w.halted = false →
      forKey W (numbered w.reports data) ≠ [] → ∀ f < w.frames, w.later W f = []))
  | .turn => isTrue trivial
  | .noKey _ => isTrue trivial
  | .wrote _ => isTrue trivial
  | .halt _ => isTrue trivial

theorem written_in_order_of_two_frames :
    let w := oneAfterAnother.foldl (step Bridge.World.pingLib) init
    w.written.map (·.data) = [[1], [2], [3]] ∧
      w.written <+: w.due Bridge.World.pingLib ∧ (w.written.map (·.no)).Nodup ∧
      (w.Idle → w.written = w.due Bridge.World.pingLib) :=
  ⟨by decide, written_in_order Bridge.World.pingLib oneAfterAnother (by decide)⟩

/-- The next frame is written between the two reports of a packed one. -/
theorem next_frame_overtakes :
    ¬ ∀ (W : WireLib Unit Unit) (events : List Event),
      (events.foldl (step W) init).written <+: (events.foldl (step W) init).due W := by
  intro h
  have hbegin := h Bridge.World.pingLib
    [.frame [[1], [2]], .turn, .frame [[3]], .turn, .wrote 0, .turn]
  revert hbegin
  decide

end World

end OkRn.Bridge.Order
