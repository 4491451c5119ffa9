/-
OkRn/Bt/Sessions.lean

A Bluetooth session has a live pairing behind it.

A hello is checked against the store and its session opens only when the store is
saved.  A record that is revoked or switched off in between, or an end of all
sessions, finds no session to end, and the session opens all the same.
`sessions_are_live` says that this is the only way to a session without a live
pairing.
-/
import OkRn.Bt.Gate
import OkRn.Lib.Along

namespace OkRn.Bt

variable {σ π ρ : Type} {L : BtLib σ π ρ}

namespace Gate

variable {g g' g'' : Gate σ π ρ}

/-! ### Live sessions -/

/-- The record is in the store and switched on. -/
def Has (g : Gate σ π ρ) (id : String) : Prop := ∃ r ∈ g.records, r.id = id ∧ r.on = true

/-- The record is in the store and on, and the session's hello came after the record was last
revoked or switched off and after the sessions were last ended. -/
def Live (g : Gate σ π ρ) (x : Session σ) : Prop :=
  g.Has x.id ∧ g.lastEnd x.id < x.nr ∧ g.lastEndAll < x.nr

/-- Every session is live; so a sealed frame yields reports for a live one only, and nothing is
sealed for any other. -/
def AllLive (L : BtLib σ π ρ) (g : Gate σ π ρ) : Prop :=
  (∀ address x, g.sessions address = some x → g.Live x) ∧
    (∀ address bytes now, (g.onSealed L address bytes now).2 ≠ [] →
      ∃ x, g.sessions address = some x ∧ g.Live x) ∧
    ∀ address report now, (g.outgoing L address report now).2 ≠ none →
      ∃ x, g.sessions address = some x ∧ g.Live x

/-- A hello that was stored is still good: since it was checked its record was not revoked or
switched off, and the sessions were not ended. -/
def NoEndSince (g : Gate σ π ρ) : Event → Prop
  | .saved i _ => ∀ h, g.hellos[i]? = some h →
      g.lastEnd h.record.id < h.nr ∧ g.lastEndAll < h.nr
  | _ => True

/-- Each session has a live pairing behind it. -/
theorem allLive_iff :
    g.AllLive L ↔ ∀ address x, g.sessions address = some x → g.Live x := by
  constructor
  · exact And.left
  · intro h
    refine ⟨h, fun address bytes now hne => ?_, fun address report now hne => ?_⟩
    · rcases hx : g.sessions address with - | x
      · simp [onSealed, hx] at hne
      · exact ⟨x, rfl, h address x hx⟩
    · rcases hx : g.sessions address with - | x
      · simp [outgoing, hx] at hne
      · exact ⟨x, rfl, h address x hx⟩

/-! ### What an event leaves as it was -/

/-- What every event but the opening of a session does: no session is new, a session that stays
keeps its record and was not ended, and a record that is on stays on or is ended here. -/
structure Frame (g g' : Gate σ π ρ) : Prop where
  ticks : g'.ticks = g.ticks
  sessions : ∀ address x', g'.sessions address = some x' →
    (∃ x, g.sessions address = some x ∧ x.id = x'.id ∧ x.nr = x'.nr) ∧
      g'.lastEnd x'.id = g.lastEnd x'.id ∧ g'.lastEndAll = g.lastEndAll
  has : ∀ id, g.Has id → g'.Has id ∨ g'.lastEnd id = g.ticks
  lastEnd : ∀ id, g'.lastEnd id = g.lastEnd id ∨ g'.lastEnd id = g.ticks
  lastEndAll : g'.lastEndAll = g.lastEndAll ∨ g'.lastEndAll = g.ticks
  hellos : ∀ h ∈ g'.hellos, h ∈ g.hellos ∨
    h.nr = g.ticks ∧ (g'.Has h.record.id ∨ g'.lastEnd h.record.id = g.ticks)
  pending : ∀ r, g'.pair.pending = some r → g.pair.pending = some r ∨ r.on = true
  nodup : (g.records.map PairRecord.id).Nodup → (g'.records.map PairRecord.id).Nodup

/-- To do nothing changes nothing. -/
theorem Frame.refl (g : Gate σ π ρ) : Frame g g where
  ticks := rfl
  sessions _ x h := ⟨⟨x, h, rfl, rfl⟩, rfl, rfl⟩
  has _ h := Or.inl h
  lastEnd _ := Or.inl rfl
  lastEndAll := Or.inl rfl
  hellos _ h := Or.inl h
  pending _ h := Or.inl h
  nodup h := h

/-- A record that stays on or is ended here does so after the next event. -/
theorem Frame.stays (h : Frame g g') (h' : Frame g' g'') {id : String}
    (hhas : g'.Has id ∨ g'.lastEnd id = g.ticks) : g''.Has id ∨ g''.lastEnd id = g.ticks := by
  rcases hhas with hid | hend
  · rw [← h.ticks]
    exact h'.has id hid
  · right
    rcases h'.lastEnd id with hend' | hend'
    · exact hend'.trans hend
    · exact hend'.trans h.ticks

/-- Two steps that keep the frame keep it. -/
theorem Frame.trans (h : Frame g g') (h' : Frame g' g'') : Frame g g'' where
  ticks := h'.ticks.trans h.ticks
  sessions address x'' hx'' := by
    obtain ⟨⟨x', hx', hid', hnr'⟩, hend', hall'⟩ := h'.sessions address x'' hx''
    obtain ⟨⟨x, hx, hid, hnr⟩, hend, hall⟩ := h.sessions address x' hx'
    rw [hid'] at hend
    exact ⟨⟨x, hx, hid.trans hid', hnr.trans hnr'⟩, hend'.trans hend, hall'.trans hall⟩
  has id hid := h.stays h' (h.has id hid)
  lastEnd id := by
    -- an end in the second part is an end since the start
    rcases h'.lastEnd id with hend' | hend'
    · rw [hend']
      exact h.lastEnd id
    · exact Or.inr (hend'.trans h.ticks)
  lastEndAll := by
    rcases h'.lastEndAll with hall' | hall'
    · rw [hall']
      exact h.lastEndAll
    · exact Or.inr (hall'.trans h.ticks)
  hellos x hx := by
    -- a hello of the end was there before, or is of a record that was
    rcases h'.hellos x hx with hx' | ⟨hnr, hx'⟩
    · rcases h.hellos x hx' with hx'' | ⟨hnr, hhas⟩
      · exact Or.inl hx''
      · exact Or.inr ⟨hnr, h.stays h' hhas⟩
    · rw [h.ticks] at hnr hx'
      exact Or.inr ⟨hnr, hx'⟩
  pending r hr := by
    rcases h'.pending r hr with hr' | hr'
    · exact h.pending r hr'
    · exact Or.inr hr'
  nodup := h'.nodup ∘ h.nodup

/-- Nothing but what was sent, the pairing and the renewal offers. -/
theorem Frame.of_eq (hrec : g'.records = g.records) (hses : g'.sessions = g.sessions)
    (hhel : g'.hellos = g.hellos) (htick : g'.ticks = g.ticks) (hend : g'.lastEnd = g.lastEnd)
    (hall : g'.lastEndAll = g.lastEndAll)
    (hpend : ∀ r, g'.pair.pending = some r → g.pair.pending = some r ∨ r.on = true) :
    Frame g g' where
  ticks := htick
  sessions address x h := ⟨⟨x, hses ▸ h, rfl, rfl⟩, by rw [hend], hall⟩
  has id h := Or.inl (by unfold Has at h ⊢; rw [hrec]; exact h)
  lastEnd id := Or.inl (by rw [hend])
  lastEndAll := Or.inl hall
  hellos x h := Or.inl (hhel ▸ h)
  pending := hpend
  nodup h := by rw [hrec]; exact h

/-! ### The functions, one by one -/

/-- Sessions that end, and sessions whose keys or times move on. -/
theorem frame_sessions {f : String → Option (Session σ)}
    (hf : ∀ address x', f address = some x' →
      ∃ x, g.sessions address = some x ∧ x.id = x'.id ∧ x.nr = x'.nr) :
    Frame g { g with sessions := f } :=
  { Frame.refl g with sessions := fun address x' h => ⟨hf address x' h, rfl, rfl⟩ }

theorem frame_dropSession (address : String) (g : Gate σ π ρ) :
    Frame g (g.dropSession address) := by
  refine frame_sessions fun a x' h => ?_
  rcases eq_or_ne a address with rfl | ha
  · rw [Function.update_self] at h
    cases h
  · rw [Function.update_of_ne ha] at h
    exact ⟨x', h, rfl, rfl⟩

/-- A session's object goes on, for the same record. -/
theorem frame_update {address : String} {x y : Session σ} (hx : g.sessions address = some x)
    (hid : x.id = y.id) (hnr : x.nr = y.nr) :
    Frame g { g with sessions := Function.update g.sessions address (some y) } := by
  refine frame_sessions fun a x' h => ?_
  rcases eq_or_ne a address with rfl | ha
  · rw [Function.update_self] at h
    cases h
    exact ⟨x, hx, hid, hnr⟩
  · rw [Function.update_of_ne ha] at h
    exact ⟨x', h, rfl, rfl⟩

theorem frame_send (cmd : Cmd) (msg : Msg) (g : Gate σ π ρ) : Frame g (g.send cmd msg) :=
  .of_eq rfl rfl rfl rfl rfl rfl fun _ => Or.inl

/-- Records that change but stay the same ones, switched on as they were. -/
theorem frame_records {f : PairRecord → PairRecord} (hid : ∀ r ∈ g.records, (f r).id = r.id)
    (hon : ∀ r ∈ g.records, r.on = true → (f r).on = true) :
    Frame g { g with records := g.records.map f } :=
  { Frame.refl g with
    has := by
      rintro id ⟨r, hr, rfl, honr⟩
      exact Or.inl ⟨f r, List.mem_map_of_mem hr, hid r hr, hon r hr honr⟩
    hellos := fun _ h => Or.inl h
    nodup := by
      intro h
      have hsame : (g.records.map f).map PairRecord.id = g.records.map PairRecord.id := by
        rw [List.map_map]
        exact List.map_congr_left hid
      exact hsame ▸ h }

theorem frame_sealFor (L : BtLib σ π ρ) {address : String} {x y : Session σ} (msg : Msg)
    (hx : g.sessions address = some x) (hid : x.id = y.id) (hnr : x.nr = y.nr) :
    Frame g (g.sealFor L address y msg) :=
  (frame_update (y := { y with session := (L.sealMsg y.session msg).1 }) hx hid hnr).trans
    (frame_send _ _ _)

/-- A record that is revoked takes its sessions with it. -/
theorem frame_revoke (id : String) (g : Gate σ π ρ) : Frame g (g.revoke id) where
  ticks := rfl
  sessions address x' h := by
    change (g.sessions address).filter (fun x => x.id != id) = some x' at h
    obtain ⟨hx, hid⟩ := Option.filter_eq_some_iff.mp h
    rw [bne_iff_ne] at hid
    exact ⟨⟨x', hx, rfl, rfl⟩, Function.update_of_ne hid _ _, rfl⟩
  has id' := by
    rintro ⟨r, hr, rfl, hon⟩
    rcases eq_or_ne r.id id with rfl | hid
    · exact Or.inr (Function.update_self ..)
    · exact Or.inl ⟨r, List.mem_filter.mpr ⟨hr, bne_iff_ne.mpr hid⟩, rfl, hon⟩
  lastEnd id' := by
    rcases eq_or_ne id' id with rfl | hid
    · exact Or.inr (Function.update_self ..)
    · exact Or.inl (Function.update_of_ne hid _ _)
  lastEndAll := Or.inl rfl
  hellos _ h := Or.inl h
  pending _ h := Or.inl h
  nodup h := h.sublist (List.filter_sublist.map _)

/-- A record is switched on or off, and its sessions end with it. -/
theorem frame_setOn (id : String) (on : Bool) (g : Gate σ π ρ) : Frame g (g.setOn id on) := by
  have hids : ((g.records.map fun r => if r.id = id then { r with on := on } else r).map
      PairRecord.id) = g.records.map PairRecord.id := by
    rw [List.map_map]
    refine List.map_congr_left fun r _ => ?_
    simp only [Function.comp_apply]
    split <;> rfl
  -- switching on ends nothing; switching off ends the record's session
  cases on with
  | true =>
    refine frame_records (fun r _ => ?_) fun r _ hr => ?_
    · split <;> rfl
    · split
      · rfl
      · exact hr
  | false =>
    refine {
      ticks := rfl
      sessions := fun address x' h => ?_
      has := ?_
      lastEnd := fun id' => ?_
      lastEndAll := Or.inl rfl
      hellos := fun _ h => Or.inl h
      pending := fun _ h => Or.inl h
      nodup := fun h => hids.symm ▸ h }
    · change (g.sessions address).filter (fun x => x.id != id) = some x' at h
      obtain ⟨hx, hid⟩ := Option.filter_eq_some_iff.mp h
      rw [bne_iff_ne] at hid
      exact ⟨⟨x', hx, rfl, rfl⟩, Function.update_of_ne hid _ _, rfl⟩
    · rintro id' ⟨r, hr, rfl, hon⟩
      rcases eq_or_ne r.id id with rfl | hid
      · exact Or.inr (Function.update_self ..)
      · refine Or.inl ⟨r, List.mem_map.mpr ⟨r, hr, if_neg hid⟩, rfl, hon⟩
    · rcases eq_or_ne id' id with rfl | hid
      · exact Or.inr (Function.update_self ..)
      · exact Or.inl (Function.update_of_ne hid _ _)

theorem frame_endSessions (g : Gate σ π ρ) : Frame g g.endSessions :=
  { Frame.refl g with
    sessions := fun _ _ h => by cases h
    lastEndAll := Or.inr rfl }

/-- The link is gone for too long. -/
theorem frame_linkGone (quietMs now : Nat) (g : Gate σ π ρ) :
    Frame g (g.linkGone quietMs now) := by
  refine frame_sessions fun address x' h => ?_
  exact ⟨x', (Option.filter_eq_some_iff.mp h).1, rfl, rfl⟩

/-- A hello is checked and waits for its save. -/
theorem frame_onHello (hL : L.Lawful) (msg : Msg) (now : Nat) (address : String)
    (g : Gate σ π ρ) : Frame g (g.onHello L msg now address) := by
  unfold onHello
  split
  · exact .refl g
  · exact frame_revoke _ g
  · exact frame_revoke _ g
  · exact frame_revoke _ g
  · rename_i s r m hhello
    obtain ⟨⟨x, hx, hid, hon⟩, hron⟩ := hL.hello hhello
    have hrec : Frame g { g with records := g.records.map fun x => if x.id = r.id then r else x } := by
      refine frame_records (fun y _ => ?_) fun y _ hy => ?_
      · split
        · rename_i h
          exact h.symm
        · rfl
      · split
        · exact hron
        · exact hy
    refine { hrec with hellos := fun h hmem => ?_ }
    rcases List.mem_append.mp hmem with hmem | hmem
    · exact Or.inl hmem
    · rw [List.mem_singleton] at hmem
      subst hmem
      exact Or.inr ⟨rfl, Or.inl ⟨r, List.mem_map.mpr ⟨x, hx, if_pos hid⟩, rfl, hron⟩⟩

/-- A control message is taken up. -/
theorem frame_onControl (address : String) (x : Session σ) (payload : Msg) (g : Gate σ π ρ) :
    Frame g (g.onControl address x payload) := by
  unfold onControl
  split
  · exact frame_dropSession address g
  · split
    · exact .of_eq rfl rfl rfl rfl rfl rfl fun _ => Or.inl
    · exact .refl g

theorem frame_finishControl (hL : L.Lawful) (hnodup : (g.records.map PairRecord.id).Nodup)
    (now : Nat) (x : Session σ) (payload : Msg) : Frame g (g.finishControl L now x payload) := by
  unfold finishControl
  split
  · rename_i r offer hr _
    have hmem := List.mem_of_find?_eq_some hr
    have hoffer : Frame g { g with renew := Function.update g.renew x.nr none } :=
      .of_eq rfl rfl rfl rfl rfl rfl fun _ => Or.inl
    dsimp only
    split
    · rename_i r' hfinish
      obtain ⟨hid, hon⟩ := hL.renew hfinish
      refine hoffer.trans (frame_records (fun y _ => ?_) fun y hy hyon => ?_)
      · split
        · rename_i h
          exact hid.trans h.symm
        · rfl
      · split
        · rename_i h
          rw [hon, ← List.inj_on_of_nodup_map hnodup hy hmem h]
          exact hyon
        · exact hyon
    · exact hoffer
  · exact .refl g

theorem frame_onSealed (address : String) (bytes : Msg) (now : Nat) (g : Gate σ π ρ) :
    Frame g (g.onSealed L address bytes now).1 := by
  unfold onSealed
  split
  · exact frame_dropSession address g
  · rename_i x hx
    dsimp only
    have hat : Frame g { g with
        sessions := Function.update g.sessions address (some { x with at_ := now }) } :=
      frame_update hx rfl rfl
    split
    · exact hat
    · rename_i s pt _
      have hopen : Frame g { g with
          sessions := Function.update (Function.update g.sessions address
            (some { x with at_ := now })) address (some { x with at_ := now, session := s }) } := by
        rw [Function.update_idem]
        exact frame_update hx rfl rfl
      split
      · exact hopen
      · split
        · split <;> exact hopen
        · split
          · exact hopen.trans (frame_onControl _ _ _ _)
          · exact hopen

theorem frame_outgoing (address : String) (report : Msg) (now : Nat) (g : Gate σ π ρ) :
    Frame g (g.outgoing L address report now).1 := by
  unfold outgoing
  split
  · exact .refl g
  · rename_i x hx
    exact frame_sealFor L _ hx rfl rfl

/-! ### The pairing window -/

theorem frame_onCommit (msg : Msg) (now : Nat) (address : String) (g : Gate σ π ρ) :
    Frame g (g.onCommit L msg now address) := by
  unfold onCommit
  split
  · exact .refl g
  · split
    · exact .refl g
    · exact .of_eq rfl rfl rfl rfl rfl rfl fun _ => Or.inl

theorem frame_onReveal (p : π) (msg : Msg) (now : Nat) (address : String) (g : Gate σ π ρ) :
    Frame g (g.onReveal L p msg now address) := by
  unfold onReveal
  split <;> exact .of_eq rfl rfl rfl rfl rfl rfl fun _ => Or.inl

/-- Pairing again replaces the record, and ends its sessions. -/
theorem frame_onConfirm {r : PairRecord} (hr : r.on = true) (msg : Msg) (now : Nat)
    (address : String) (g : Gate σ π ρ) : Frame g (g.onConfirm L r msg now address) := by
  unfold onConfirm
  split
  · refine {
      ticks := rfl
      sessions := fun a x' h => ?_
      has := ?_
      lastEnd := fun _ => Or.inl rfl
      lastEndAll := Or.inl rfl
      hellos := fun _ h => Or.inl h
      pending := fun _ h => Or.inl h
      nodup := fun h => ?_ }
    · exact ⟨⟨x', (Option.filter_eq_some_iff.mp h).1, rfl, rfl⟩, rfl, rfl⟩
    · -- the old record of this computer is replaced, with the same id
      rintro id ⟨y, hy, rfl, hon⟩
      rcases eq_or_ne y.id r.id with hid | hid
      · exact Or.inl ⟨r, List.mem_append.mpr (Or.inr (.head _)), hid.symm, hr⟩
      · refine Or.inl ⟨y, List.mem_append.mpr (Or.inl ?_), rfl, hon⟩
        exact List.mem_filter.mpr ⟨hy, bne_iff_ne.mpr hid⟩
    · change ((g.records.filter fun y => y.id != r.id) ++ [r]).map PairRecord.id |>.Nodup
      rw [List.map_append, List.nodup_append]
      refine ⟨h.sublist (List.filter_sublist.map _), List.nodup_singleton _, ?_⟩
      intro a ha b hb
      obtain ⟨y, hy, rfl⟩ := List.mem_map.mp ha
      rw [List.map_singleton, List.mem_singleton] at hb
      subst hb
      exact bne_iff_ne.mp (List.mem_filter.mp hy).2
  · exact .refl g

/-- A message of a pairing makes a live record or none. -/
theorem frame_onPairMessage (hL : L.Lawful) (hpend : ∀ r, g.pair.pending = some r → r.on = true)
    (msg : Msg) (now : Nat) (address : String) :
    Frame g (g.onPairMessage L msg now address) := by
  unfold onPairMessage
  split
  · exact frame_onHello hL msg now address g
  · split
    · exact .refl g
    · split
      · exact frame_onCommit msg now address g
      · split
        · exact .refl g
        · split
          · exact frame_onReveal _ msg now address g
          · rename_i r _ _ hr
            exact frame_onConfirm (hpend _ hr) msg now address g
          · exact .refl g

theorem frame_approvePairing (hL : L.Lawful) (now : Nat) (g : Gate σ π ρ) :
    Frame g (g.approvePairing L now) := by
  unfold approvePairing
  split
  · refine .of_eq rfl rfl rfl rfl rfl rfl fun r hr => Or.inr ?_
    cases hr
    exact hL.approve _ _ _
  · exact .refl g

/-! ### What every run keeps -/

/-- The records are told apart, those of a pairing are on, and a hello's record is there unless it
ended since. -/
structure Inv (g : Gate σ π ρ) : Prop where
  nodup : (g.records.map PairRecord.id).Nodup
  pending : ∀ r, g.pair.pending = some r → r.on = true
  hellos : ∀ h ∈ g.hellos, h.nr < g.ticks ∧ (g.lastEnd h.record.id < h.nr → g.Has h.record.id)
  lastEnd : ∀ id, g.lastEnd id < g.ticks
  lastEndAll : g.lastEndAll < g.ticks

theorem inv_started (store : Store) : Inv (started store : Gate σ π ρ) where
  nodup := store.nodup
  pending _ h := by cases h
  hellos _ h := by cases h
  lastEnd _ := Nat.one_pos
  lastEndAll := Nat.one_pos

theorem Inv.frame (h : g.Inv) (hf : Frame g g') : Inv { g' with ticks := g'.ticks + 1 } where
  nodup := hf.nodup h.nodup
  pending r hr := (hf.pending r hr).elim (h.pending r) id
  hellos x hx := by
    change x.nr < g'.ticks + 1 ∧ (g'.lastEnd x.record.id < x.nr → g'.Has x.record.id)
    rw [hf.ticks]
    rcases hf.hellos x hx with hx' | ⟨hnr, hhas⟩
    · obtain ⟨hnr, hhas⟩ := h.hellos x hx'
      -- an old hello: its record stays unless it was ended since
      refine ⟨Nat.lt_succ_of_lt hnr, fun hlt => ?_⟩
      rcases hf.lastEnd x.record.id with hend | hend
      · rcases hf.has _ (hhas (hend ▸ hlt)) with hhas' | hend'
        · exact hhas'
        · omega
      · omega
    · refine ⟨by omega, fun hlt => ?_⟩
      rcases hhas with hhas | hend
      · exact hhas
      · omega
  lastEnd id := by
    change g'.lastEnd id < g'.ticks + 1
    rw [hf.ticks]
    rcases hf.lastEnd id with hend | hend
    · rw [hend]
      exact Nat.lt_succ_of_lt (h.lastEnd id)
    · omega
  lastEndAll := by
    change g'.lastEndAll < g'.ticks + 1
    rw [hf.ticks]
    rcases hf.lastEndAll with hall | hall
    · rw [hall]
      exact Nat.lt_succ_of_lt h.lastEndAll
    · omega

/-- An event that opens no session keeps every session live. -/
theorem live_frame (h : g.Inv) (hf : Frame g g')
    (hlive : ∀ address x, g.sessions address = some x → g.Live x) :
    ∀ address x, g'.sessions address = some x → g'.Live x := by
  intro address x' hx'
  obtain ⟨⟨x, hx, hid, hnr⟩, hend, hall⟩ := hf.sessions address x' hx'
  obtain ⟨hhas, hlt, hltAll⟩ := hlive address x hx
  rw [hid, hnr] at hlt
  rw [hnr] at hltAll
  rw [hid] at hhas
  refine ⟨?_, by rw [hend]; exact hlt, by rw [hall]; exact hltAll⟩
  rcases hf.has _ hhas with hhas' | hnow
  · exact hhas'
  · have := h.lastEnd x'.id
    omega

/-- Every event but the opening of a session. -/
theorem frame_act (hL : L.Lawful) (h : g.Inv) {e : Event} (he : ∀ i now, e ≠ .saved i now) :
    Frame g (g.act L e) := by
  -- hellos may go at any time
  have hhellos : ∀ i, Frame g { g with hellos := g.hellos.eraseIdx i } := fun i =>
    { Frame.refl g with hellos := fun x hx => Or.inl (List.mem_of_mem_eraseIdx hx) }
  cases e with
  | pairMessage msg address now => exact frame_onPairMessage hL h.pending msg now address
  | saved i now => exact absurd rfl (he i now)
  | unsaved i => exact hhellos i
  | confirmSaved i =>
    simp only [act]
    split
    · exact .of_eq rfl rfl rfl rfl rfl rfl fun _ hr => by cases hr
    · exact .refl g
  | confirmUnsaved i => exact .of_eq rfl rfl rfl rfl rfl rfl fun _ => Or.inl
  | sealed bytes address now => exact frame_onSealed address bytes now g
  | control i now =>
    simp only [act]
    split
    · have hcontrols : Frame g { g with controls := g.controls.eraseIdx i } :=
        .of_eq rfl rfl rfl rfl rfl rfl fun _ => Or.inl
      refine hcontrols.trans (frame_finishControl hL ?_ now _ _)
      exact h.nodup
    · exact .refl g
  | outgoing report address now => exact frame_outgoing address report now g
  | setOn id on => exact frame_setOn id on g
  | revoke id => exact frame_revoke id g
  | endSessions => exact frame_endSessions g
  | linkGone quietMs now => exact frame_linkGone quietMs now g
  | ageForTest id ms =>
    refine frame_records (fun r _ => ?_) fun r _ hr => ?_
    · split <;> rfl
    · split
      · exact hr
      · exact hr
  | openPairWindow now window => exact .of_eq rfl rfl rfl rfl rfl rfl fun _ hr => by cases hr
  | closePairWindow => exact .of_eq rfl rfl rfl rfl rfl rfl fun _ hr => by cases hr
  | approvePairing now => exact frame_approvePairing hL now g

/-! ### A session opens -/

/-- The session of a stored hello is there, for its record, and the others are as they were. -/
theorem sessions_openSession (now : Nat) (h : Hello σ) (g : Gate σ π ρ) :
    (∃ s, (g.openSession L now h).sessions =
      Function.update g.sessions h.address (some ⟨s, h.record.id, now, h.nr⟩)) ∧
      (g.openSession L now h).records = g.records ∧ (g.openSession L now h).hellos = g.hellos ∧
      (g.openSession L now h).ticks = g.ticks ∧ (g.openSession L now h).lastEnd = g.lastEnd ∧
      (g.openSession L now h).lastEndAll = g.lastEndAll ∧
      (g.openSession L now h).pair = g.pair := by
  unfold openSession
  dsimp only
  split
  · refine ⟨⟨?_, ?_⟩, ?_⟩
    · exact (L.sealMsg (L.sealMsg h.session [kindControl, ctrlBatch, 1]).1
        (kindControl :: L.phoneRenewOffer.2)).1
    · simp [offerRenewal, sealFor, send]
    · simp [offerRenewal, sealFor, send]
  · refine ⟨⟨(L.sealMsg h.session [kindControl, ctrlBatch, 1]).1, ?_⟩, rfl, rfl, rfl, rfl, rfl, rfl⟩
    simp [sealFor, send]

/-- The opening session is live just if it was not overtaken. -/
theorem live_saved (h : g.Inv) {i : Nat} {x : Hello σ} (hx : g.hellos[i]? = some x) (now : Nat)
    (hlive : ∀ address x, g.sessions address = some x → g.Live x) :
    (∀ address y, (g.step L (.saved i now)).sessions address = some y →
      (g.step L (.saved i now)).Live y) ↔
      g.lastEnd x.record.id < x.nr ∧ g.lastEndAll < x.nr := by
  have hstep : g.step L (.saved i now) =
      { (({ g with hellos := g.hellos.eraseIdx i }).openSession L now x) with
        ticks := (({ g with hellos := g.hellos.eraseIdx i }).openSession L now x).ticks + 1 } := by
    simp [step, act, hx]
  obtain ⟨⟨s, hses⟩, hrec, -, -, hend, hall, -⟩ :=
    sessions_openSession (L := L) now x { g with hellos := g.hellos.eraseIdx i }
  rw [hstep]
  generalize ({ g with hellos := g.hellos.eraseIdx i }).openSession L now x = g' at *
  unfold Live Has
  change (∀ address y, g'.sessions address = some y → (∃ r ∈ g'.records, r.id = y.id ∧ r.on = true) ∧
    g'.lastEnd y.id < y.nr ∧ g'.lastEndAll < y.nr) ↔ _
  rw [hses, hrec, hend, hall]
  constructor
  · intro hall'
    exact (hall' x.address _ (Function.update_self ..)).2
  · intro hgood address y hy
    rcases eq_or_ne address x.address with rfl | ha
    · rw [Function.update_self] at hy
      cases hy
      exact ⟨(h.hellos x (List.mem_of_getElem? hx)).2 hgood.1, hgood⟩
    · rw [Function.update_of_ne ha] at hy
      exact hlive address y hy

/-- A session opens at the save of a hello and nowhere else. -/
theorem saved_or_not (e : Event) : (∀ i now, e ≠ .saved i now) ∨ ∃ i now, e = .saved i now := by
  cases e with
  | saved i now => exact Or.inr ⟨i, now, rfl⟩
  | _ => exact Or.inl fun _ _ he => by cases he

/-- Every event keeps the invariant. -/
theorem Inv.step (hL : L.Lawful) (h : g.Inv) (e : Event) : (g.step L e).Inv := by
  -- only a saved hello opens a session; all other events are frames
  rcases saved_or_not e with he | ⟨i, now, rfl⟩
  · exact h.frame (frame_act hL h he)
  · rcases hx : g.hellos[i]? with - | x
    · have hsame : g.act L (.saved i now) = g := by simp [act, hx]
      have hframe := h.frame (Frame.refl g)
      simpa only [Gate.step, hsame] using hframe
    · obtain ⟨-, hrec, hhel, htick, hend, hall, hpair⟩ :=
        sessions_openSession (L := L) now x { g with hellos := g.hellos.eraseIdx i }
      have hact : g.act L (.saved i now) =
          ({ g with hellos := g.hellos.eraseIdx i }).openSession L now x := by simp [act, hx]
      unfold Gate.step
      rw [hact]
      generalize ({ g with hellos := g.hellos.eraseIdx i }).openSession L now x = g' at *
      constructor
      · change (g'.records.map _).Nodup
        exact hrec ▸ h.nodup
      · change ∀ r, g'.pair.pending = some r → _
        exact hpair ▸ h.pending
      · change ∀ y ∈ g'.hellos, y.nr < g'.ticks + 1 ∧ (g'.lastEnd y.record.id < y.nr →
          ∃ r ∈ g'.records, r.id = y.record.id ∧ r.on = true)
        rw [hhel, htick, hend, hrec]
        intro y hy
        obtain ⟨hnr, hhas⟩ := h.hellos y (List.mem_of_mem_eraseIdx hy)
        exact ⟨Nat.lt_succ_of_lt hnr, hhas⟩
      · change ∀ id, g'.lastEnd id < g'.ticks + 1
        rw [hend, htick]
        exact fun id => Nat.lt_succ_of_lt (h.lastEnd id)
      · change g'.lastEndAll < g'.ticks + 1
        rw [hall, htick]
        exact Nat.lt_succ_of_lt h.lastEndAll

/-- The sessions stay live through an event exactly when the session that it opens has not ended
since its hello. -/
theorem live_step (hL : L.Lawful) (h : g.Inv) (hlive : g.AllLive L) (e : Event) :
    (g.step L e).AllLive L ↔ g.NoEndSince e := by
  rw [allLive_iff] at hlive ⊢
  rcases saved_or_not e with he | ⟨i, now, rfl⟩
  · have hframe := live_frame h (frame_act hL h he) hlive
    refine ⟨fun _ => ?_, fun _ address x hx => hframe address x hx⟩
    cases e with
    | saved i now => exact absurd rfl (he i now)
    | _ => trivial
  · rcases hx : g.hellos[i]? with - | x
    · have hsame : g.act L (.saved i now) = g := by simp [act, hx]
      refine ⟨fun _ y hy => (by rw [hx] at hy; cases hy), fun _ => ?_⟩
      unfold Gate.step
      rw [hsame]
      exact fun address y hy => hlive address y hy
    · rw [live_saved h hx now hlive]
      refine ⟨fun hgood y hy => ?_, fun hcond => hcond x hx⟩
      rw [hx] at hy
      cases hy
      exact hgood

/-- All along a run every session has a live pairing behind it, exactly if no session opens for a
hello whose record was revoked or switched off, or whose time was ended, since it was checked. -/
theorem sessions_are_live (hL : L.Lawful) (store : Store) (events : List Event) :
    (∀ p, p <+: events → (p.foldl (step L) (started store)).AllLive L) ↔
      ∀ p e, p ++ [e] <+: events → (p.foldl (step L) (started store)).NoEndSince e :=
  holds_along_iff (inv_started store) (fun _ e h => h.step hL e)
    (allLive_iff.mpr fun _ _ h => (by cases h))
    (fun _ e h hlive => live_step hL h hlive e) events

/-- A computer says hello, and its session opens. -/
theorem sessions_are_live_hello :
    (∀ p, p <+: [Event.pairMessage [1] "c0" 5, .saved 0 6] →
      (p.foldl (step Demo.btLib) (started Demo.store)).AllLive Demo.btLib) ↔
      ∀ p e, p ++ [e] <+: [Event.pairMessage [1] "c0" 5, .saved 0 6] →
        (p.foldl (step Demo.btLib) (started Demo.store)).NoEndSince e :=
  sessions_are_live Demo.btLib_lawful Demo.store _

/-- The computer is revoked while its hello is being stored. -/
theorem revoked_computer_connects :
    ¬ ∀ (L : BtLib Unit Unit Unit), L.Lawful → ∀ (store : Store) (events p : List Event),
      p <+: events → (p.foldl (step L) (started store)).AllLive L := by
  intro h
  have hall := h Demo.btLib Demo.btLib_lawful Demo.store
    [.pairMessage [1] "c0" 5, .revoke "5a", .saved 0 6] _ (List.prefix_refl _)
  obtain ⟨⟨r, hr, -⟩, -⟩ := hall.1 "c0" ⟨(), "5a", 6, 1⟩ rfl
  have hnone : (([.pairMessage [1] "c0" 5, .revoke "5a", .saved 0 6] : List Event).foldl
      (step Demo.btLib) (started Demo.store)).records = [] := by decide
  rw [hnone] at hr
  cases hr

end Gate

end OkRn.Bt
