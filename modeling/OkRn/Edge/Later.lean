/-
OkRn/Edge/Later.lean

One key as time goes on, and what it answers HEAD and PICKUP with.

Whatever happens to a key short of a wipe and a restore, its chain only goes on
(`Later`, `later_step`).  The links of a chain are numbered without a gap, each welded
onto the one before (`Welds.chained`).  A request that is answered finds the key at some
later time, and other requests may come before it and after it (`Asked`).
-/
import OkRn.Lib.Numbered
import OkRn.Edge.Expiry
import OkRn.Edge.Pickup

namespace OkRn.Edge

variable {E : Env} {k k' m : Key} {l : Label}

/-! ### The chain -/

/-- The links of the chain, numbered by their seqs and bound by their welds. -/
def Chained (E : Env) (ws : List Welded) : Prop :=
  Numbered (fun w => w.link.seq.toNat) (fun w v => w.head = weldHead E v.head w.link) ws

/-- Welded links are numbered without a gap. -/
theorem Welds.chained {ws : List Welded} (h : Welds E ws)
    (hshort : ∀ w ∈ ws, w.link.seq ≠ seqNone) : Chained E ws := by
  induction ws with
  | nil => exact List.isChain_nil
  | cons w ws ih =>
    cases ws with
    | nil => exact List.isChain_singleton w
    | cons v ws =>
      obtain ⟨hseq, hprev, hhead, hrest⟩ := h
      have hnone : v.link.seq ≠ seqNone := hshort v (by simp)
      refine List.isChain_cons_cons.mpr
        ⟨⟨?_, ?_⟩, ih hrest fun x hx => hshort x (by simp [hx])⟩
      · have hlt : v.link.seq.toNat ≠ 4294967295 := fun heq => hnone (UInt32.toNat_inj.mp heq)
        have hbound := v.link.seq.toNat_lt
        show w.link.seq.toNat = v.link.seq.toNat + 1
        rw [hseq, UInt32.toNat_add]
        show (v.link.seq.toNat + 1) % 4294967296 = _
        omega
      · show w.head = weldHead E v.head w.link
        rw [← hprev]
        exact hhead

theorem chained_of_linked (h : Linked E k) (hshort : Short k.log) : Chained E (chainOf k.log) :=
  h.welds.chained fun w hw => by simpa [Entry.short] using hshort _ (mem_of_chainOf hw)

/-- Only a restore and a wipe begin another chain. -/
theorem Move.chain (h : Move E l k k') (hr : l ≠ .restore) (hw : l ≠ .wipe) (hk : Linked E k) :
    chainOf k.log <:+ chainOf k'.log := by
  -- the chain is part of the log, and the log only grows
  have hsame {m : Key} (hm : SameChain E k m) : chainOf k.log <:+ chainOf m.log := by
    obtain ⟨seg, hlog, hseg⟩ := hm.log
    have heq : chainOf m.log = chainOf k.log := by rw [hlog, chainOf_append hseg]
    exact heq ▸ List.suffix_rfl
  cases h with
  | ram h => exact hsame h.sameChain
  | announce t buf =>
    rcases recvTxStart_cases t buf k with hstill | ⟨-, -, token, intent, htx⟩
    · exact hsame hstill.sameChain
    · rw [htx]
      exact List.suffix_rfl
  | load _ =>
    have heq : chainOf (k.stateLoad E).log = chainOf k.log := by rw [stateLoad_log]
    exact heq ▸ List.suffix_rfl
  | salt salt hload hid hsalt =>
    -- a salt is drawn only over an empty chain
    have hnil : chainOf k.log = [] := hk.chain_nil fun w _ hends => by
      have htip := hends.salted
      rw [kept_of_loaded hload, hsalt] at htip
      cases htip
    rw [hnil]
    exact List.nil_suffix
  | known => exact List.suffix_rfl
  | genesis => exact List.suffix_rfl
  | continued =>
    rw [continued_log]
    exact List.suffix_cons _ _
  | resave => exact List.suffix_rfl
  | act =>
    rw [weldIn_log]
    exact List.suffix_cons _ _
  | restore => exact absurd rfl hr
  | wipe => exact absurd rfl hw

/-- Moves only add to the chain. -/
theorem Moves.chain (h : Moves E (fun l => l ≠ .restore ∧ l ≠ .wipe) k k') (hk : Trace E k)
    (hclean : CleanBoots k'.log) (hshort : Short k'.log) :
    chainOf k.log <:+ chainOf k'.log := by
  induction h with
  | refl => exact List.suffix_rfl
  | tail hmoves hl hmove ih =>
    have hclean' := hclean.of_suffix hmove.suffix
    have hshort' := hshort.of_suffix hmove.suffix
    have hlinked := (hk.moves hmoves).linked hclean' hshort'
    exact (ih hclean' hshort').trans (hmove.chain hl.1 hl.2 hlinked)

/-! ### Later on -/

/-- `k'` is the key `k` later on, with its chain gone on. -/
structure Later (E : Env) (k k' : Key) : Prop where
  reachable : Reachable E k'
  log : k.log <:+ k'.log
  chain : chainOf k.log <:+ chainOf k'.log

/-- A key is its own later one. -/
theorem Later.refl (h : Reachable E k) : Later E k k := ⟨h, List.suffix_rfl, List.suffix_rfl⟩

theorem Later.trans (h : Later E k m) (h' : Later E m k') : Later E k k' :=
  ⟨h'.reachable, h.log.trans h'.log, h.chain.trans h'.chain⟩

/-- Every event but a restore and a wipe lets the chain go on. -/
theorem later_step (h : Reachable E k) (e : Event) (hvalid : e.Valid k)
    (hl : ∀ l ∈ e.labels k, l ≠ .restore ∧ l ≠ .wipe) (hclean : CleanBoots (step E e k).log)
    (hshort : Short (step E e k).log) : Later E k (step E e k) := by
  by_cases he : e = .restart
  · subst he
    exact ⟨h.event _ hvalid, List.suffix_cons _ _, List.suffix_rfl⟩
  · have hmoves : Moves E (fun l => l ≠ .restore ∧ l ≠ .wipe) k (step E e k) :=
      step_moves e he hvalid hl
    exact ⟨h.event e hvalid, hmoves.suffix, hmoves.chain h.trace hclean hshort⟩

/-! ### Answers -/

/-- The load of the record answers nothing. -/
theorem stateLoad_out (E : Env) (k : Key) : (k.stateLoad E).out = k.out := by
  unfold Key.stateLoad
  split
  · rfl
  · dsimp only
    split <;> rfl

/-- Nor does what comes before every request. -/
theorem ensureIdentity_out (d : Draw) (k : Key) : (k.ensureIdentity E d).1.out = k.out := by
  unfold Key.ensureIdentity
  dsimp only
  split
  · exact stateLoad_out E k
  · split
    · exact stateLoad_out E k
    · rename_i k' hsalt
      have hout : k'.out = k.out := by
        unfold Key.ensureSalt at hsalt
        split at hsalt
        · rw [← Option.some.inj hsalt, stateLoad_out]
        · split at hsalt
          · cases hsalt
          · rw [← Option.some.inj hsalt]
            exact stateLoad_out E k
      split
      · exact hout
      · refine Eq.trans ?_ hout
        unfold Key.beginChain
        dsimp only
        split
        · rfl
        · split <;> rfl

/-- Nothing is sent before the switch. -/
theorem serving_out (t : Clock) (d : Draw) (k : Key) : (k.serving E t d).out = [] := by
  have hid : (k.hush.ensureIdentity E d).1.out = [] := ensureIdentity_out d k.hush
  unfold Key.serving Key.dropStalePress
  split
  · exact hid
  · exact hid

/-- What a key says that does not serve: nothing, or that it needs the PIN. -/
def Refused (out : List Reply) : Prop := out = [] ∨ ∃ code, out = [.text code]

/-- A request is refused, or the key serves it. -/
theorem recv_out (t : Clock) (d : Draw) (buf : Report) (k : Key) :
    Refused (k.hush.recv E t d buf).out ∨ k.serves E d = true := by
  unfold Key.recv Key.serves
  split
  · exact Or.inl (Or.inl rfl)
  · rename_i hopen
    have hout : (k.hush.ensureIdentity E d).1.out = [] := ensureIdentity_out d k.hush
    rcases hid : k.hush.ensureIdentity E d with ⟨m, - | -⟩
    · rw [hid] at hout
      exact Or.inl (Or.inr ⟨edgeNeedPin, by
        show m.out ++ [.text edgeNeedPin] = _
        rw [hout]
        rfl⟩)
    · exact Or.inr (by simpa [Key.hush] using hopen)

/-- A key at the switch has its chain behind it, and its ring. -/
theorem serving_state {t : Clock} {d : Draw} (h : Reachable E k) (hserves : k.serves E d = true)
    (hclean : CleanBoots (k.serving E t d).log) (hshort : Short (k.serving E t d).log) :
    Linked E (k.serving E t d) ∧ Held (k.serving E t d) ∧ Ready (k.serving E t d) := by
  have hid := ensureIdentity_moves (E := E) (P := fun _ => True) (k := k.hush) trivial d
  have hhush : Moves E (fun _ => True) k k.hush := .still trivial (still_hush k)
  have hdrop : Moves E (fun _ => True) (k.hush.ensureIdentity E d).1 (k.serving E t d) :=
    .still trivial (still_dropStalePress E t _)
  have htrace : Trace E (k.serving E t d) := h.trace.moves ((hhush.trans hid.1).trans hdrop)
  exact ⟨htrace.linked hclean hshort, htrace.held hclean hshort,
    dropStalePress_ready t (hid.2 (Bool.and_eq_true_iff.mp hserves).2)⟩

/-! ### Requests among others -/

/-- From `k` on, the key is asked `buf`, answers `out` and is then `k'`. -/
def Asked (E : Env) (k : Key) (buf : Report) (out : List Reply) (k' : Key) : Prop :=
  ∃ m t d, Later E k m ∧ t.From m.now ∧ k' = step E (.recv buf t d) m ∧ out = k'.out

namespace Asked

variable {buf : Report} {out : List Reply}

/-- The key that answered is a later one. -/
theorem later (h : Asked E k buf out k')
    (hsub : subOp (byteAt buf 5) = some .head ∨ subOp (byteAt buf 5) = some .pickup)
    (hclean : CleanBoots k'.log) (hshort : Short k'.log) : Later E k k' := by
  obtain ⟨m, t, d, hlater, hfrom, rfl, -⟩ := h
  refine hlater.trans (later_step hlater.reachable _ hfrom ?_ hclean hshort)
  rcases hsub with hsub | hsub <;> simp [Event.labels, hsub, SubOp.labels]

/-- HEAD gives the newest link and the oldest one held. -/
theorem head (h : Asked E k buf out k') (hsub : subOp (byteAt buf 5) = some .head)
    (hclean : CleanBoots k'.log) (hshort : Short k'.log) :
    Refused out ∨ ∃ seq head oldest rest,
      out = [.report (Bytes.pack 64 ((Bytes.le32 seq).toList ++ (Bytes.toList head ++
        ((Bytes.le32 oldest).toList ++ rest))))] ∧
      (chainOf k'.log = [] → seq = seqNone) ∧
        ∀ w ∈ (chainOf k'.log).head?, w.link.seq = seq ∧ w.head = head := by
  obtain ⟨m, t, d, hlater, -, rfl, rfl⟩ := h
  -- the key refuses the request, or it serves it
  rcases recv_out (E := E) t d buf m with hrefused | hserves
  · exact Or.inl hrefused
  · have hrecv := recv_of_serves (t := t) hserves buf
    have hserve : m.hush.recv E t d buf = (m.serving E t d).recvHead (t.after 1) := by
      rw [hrecv, Key.serve, hsub]
    have hlog : (step E (.recv buf t d) m).log = (m.serving E t d).log := by
      show (m.hush.recv E t d buf).log = _
      rw [hserve]
      rfl
    rw [hlog] at hclean hshort ⊢
    obtain ⟨hlink, -, hready⟩ := serving_state hlater.reachable hserves hclean hshort
    have hreport : ∃ rest, ((m.serving E t d).recvHead (t.after 1)).out =
        (m.serving E t d).out ++ [.report (Bytes.pack 64
          ((Bytes.le32 (m.serving E t d).st.seq).toList ++ ((m.serving E t d).st.head.toList ++
            ((Bytes.le32 (m.serving E t d).oldestHeld).toList ++ rest))))] := ⟨_, rfl⟩
    obtain ⟨rest, hreport⟩ := hreport
    refine Or.inr ⟨(m.serving E t d).st.seq, (m.serving E t d).st.head,
      (m.serving E t d).oldestHeld, rest, ?_, fun hnil => ?_, fun w hw => ?_⟩
    · show (m.hush.recv E t d buf).out = _
      rw [hserve, hreport, serving_out]
      rfl
    · have hcont := (hlink.known hready.ident).1
      rw [kept_of_loaded hready.loaded] at hcont
      have hempty := hlink.empty hnil
      rw [kept_of_loaded hready.loaded] at hempty
      exact hempty.resolve_right (by simp [hcont])
    · -- what the record says is the newest link
      have htip := hlink.tip w hw
      rw [kept_of_loaded hready.loaded] at htip
      exact ⟨htip.seq.symm, htip.head.symm⟩

/-- PICKUP gives the links asked for, as the key wrote them. -/
theorem pickup (h : Asked E k buf out k') (hsub : subOp (byteAt buf 5) = some .pickup)
    (hcount : 1 ≤ (byteAt buf 10).toNat)
    (hsum : (get32 buf 6).toNat + min (byteAt buf 10).toNat 8 < 2 ^ 32)
    (hclean : CleanBoots k'.log) (hshort : Short k'.log) :
    Refused out ∨ ∃ hs : List HeldLink, hs.map (·.seq) = asked buf ∧
      (∀ h ∈ hs, ∃ w ∈ chainOf k'.log, w.link = h.link ∧ w.head = h.head ∧ w.link.seq = h.seq) ∧
        out = hs.flatMap HeldLink.reports := by
  obtain ⟨m, t, d, hlater, -, rfl, rfl⟩ := h
  rcases recv_out (E := E) t d buf m with hrefused | hserves
  · exact Or.inl hrefused
  · have hrecv := recv_of_serves (t := t) hserves buf
    have hserve : m.hush.recv E t d buf = (m.serving E t d).recvPickup buf := by
      rw [hrecv, Key.serve, hsub]
    have hsent : Sent (m.serving E t d) ((m.serving E t d).recvPickup buf) :=
      (Sent.refl _).pickup buf
    have hlog : (step E (.recv buf t d) m).log = (m.serving E t d).log := by
      show (m.hush.recv E t d buf).log = _
      rw [hserve, hsent]
    rw [hlog] at hclean hshort ⊢
    obtain ⟨hlink, hheld, hready⟩ := serving_state hlater.reachable hserves hclean hshort
    have hout : (step E (.recv buf t d) m).out = ((m.serving E t d).recvPickup buf).out := by
      show (m.hush.recv E t d buf).out = _
      rw [hserve]
    have hanswers := (answers_of_ready hlink hheld hready hshort).pickup buf hcount hsum
    rw [serving_out] at hanswers
    -- the key holds all that was asked for, or it says so
    rcases hanswers with ⟨hs, hmap, hof, hreports⟩ | ⟨-, hnot⟩
    · refine Or.inr ⟨hs, hmap, fun x hx => ?_, hout.trans hreports⟩
      obtain ⟨w, hw, hlinkEq, hheadEq, hseqEq, -⟩ := hof x hx
      exact ⟨w, hw, hlinkEq, hheadEq, hseqEq⟩
    · exact Or.inl (Or.inr ⟨edgeNotHeld, hout.trans hnot⟩)

end Asked

end OkRn.Edge
