/-
OkRn/Edge/Pickup.lean

The chain, and what a host picks up of it.

The record is the end of the chain (`Trace.linked`), so each link goes on from the
one before.  The ring holds the last links since the process started, and the
newest link of the record; PICKUP answers from it.  The record keeps no reveal, so
a use that was the newest link at a restart comes back without its own.

* `Linked` is the chain with its tip in the record, kept by every move;
* `Ring` and `Held` are the ring's places, and `Answers` what a pickup is answered with.

Main result: `chain_and_pickup`, over runs whose restarts find no half-written sector.
-/
import OkRn.Edge.Kept
import OkRn.Edge.Demo

namespace OkRn.Edge

variable {E : Env} {k k' : Key} {l : Label}

/-! ### The chain and the record -/

/-- Newest first: each link is one seq after the one before and welded onto its head; the first has
seq 0, or is a continue link. -/
def Welds (E : Env) : List Welded → Prop
  | [] => True
  | [w] => (w.link.seq = 0 ∨ w.link.op = opContinue) ∧ w.head = weldHead E w.prev w.link
  | w :: v :: ws =>
      w.link.seq = v.link.seq + 1 ∧ w.prev = v.head ∧ w.head = weldHead E w.prev w.link ∧
        Welds E (v :: ws)

/-- The record is the end of the chain. -/
structure EndsIn (w : Welded) (s : EdgeState) : Prop where
  seq : s.seq = w.link.seq
  head : s.head = w.head
  last : s.lastLink = w.link
  cont : s.cont = false
  salted : s.salted = true

/-- A chain without links: an empty record, or a continue link to come. -/
def Unbegun (s : EdgeState) : Prop := s.seq = seqNone ∨ s.cont = true

/-- A restart, with no link since. -/
def Unread (log : List Entry) : Prop :=
  ∀ post w pre, log = post ++ .link w :: pre → ∃ torn clean, .boot torn clean ∈ post

/-- The chain is welded, its tip is the record's, and the ring holds what was read or linked. -/
structure Linked (E : Env) (k : Key) : Prop where
  welds : Welds E (chainOf k.log)
  tip : ∀ w ∈ (chainOf k.log).head?, EndsIn w (k.kept E)
  empty : chainOf k.log = [] → Unbegun (k.kept E)
  known : k.ident.isSome = true → (k.kept E).cont = false ∧ (k.kept E).salted = true
  unread : k.loaded = false → Unread k.log ∧ k.held = fun _ => none

/-- The entry is a link. -/
def Entry.isLink : Entry → Bool
  | .link _ => true
  | _ => false

theorem isLink_of_silent {e : Entry} (h : e.silent = true) : e.isLink = false := by
  cases e <;> simp_all [Entry.silent, Entry.isLink]

/-- The record is still unread after silent entries. -/
theorem Unread.silent {seg log : List Entry} (h : Unread log)
    (hseg : ∀ e ∈ seg, e.silent = true) : Unread (seg ++ log) := by
  intro post w pre hlog
  have hnot : ∀ e ∈ seg, e.isLink = false := fun e he => isLink_of_silent (hseg e he)
  obtain ⟨post', rfl, hlog'⟩ := History.split_of_forall hnot (x := .link w) rfl hlog
  obtain ⟨torn, clean, hmem⟩ := h post' w pre hlog'
  exact ⟨torn, clean, List.mem_append_right _ hmem⟩

/-- It is unread after a restart. -/
theorem unread_boot (torn : Option (Bool × Sector)) (clean : Bool) (log : List Entry) :
    Unread (.boot torn clean :: log) := by
  intro post w pre hlog
  rcases post with - | ⟨e, post⟩
  · cases hlog
  · obtain ⟨rfl, -⟩ := List.cons.inj hlog
    exact ⟨torn, clean, List.mem_cons_self⟩

/-- A step without a link keeps the chain. -/
theorem SameChain.linked (h : SameChain E k k') (hk : Linked E k) : Linked E k' := by
  obtain ⟨seg, hlog, hseg⟩ := h.log
  have hchain : chainOf k'.log = chainOf k.log := by
    rw [hlog]
    exact chainOf_append hseg
  constructor
  · rw [hchain]
    exact hk.welds
  · rw [hchain, h.kept]
    exact hk.tip
  · rw [hchain, h.kept]
    exact hk.empty
  · rw [h.ident, h.kept]
    exact hk.known
  · intro hl
    rw [h.loaded] at hl
    rw [hlog, h.held]
    exact ⟨(hk.unread hl).1.silent hseg, (hk.unread hl).2⟩

/-- The debt of a link changes nothing else in the record. -/
theorem weldDebt_frame (link : Link) (head : Digest) (s : EdgeState) :
    (weldDebt E link head s).cont = s.cont ∧ (weldDebt E link head s).salted = s.salted := by
  unfold weldDebt
  split
  · split <;> exact ⟨rfl, rfl⟩
  · split
    · split <;> exact ⟨rfl, rfl⟩
    · exact ⟨rfl, rfl⟩

/-- The record after a weld is the end of the chain. -/
theorem weldIn_endsIn {link : Link} {reveal : Option Digest} (hcont : k.st.cont = false)
    (hsalt : k.st.salted = true) :
    EndsIn ⟨link, k.st.head, weldHead E k.st.head link, reveal⟩ (k.weldIn E link reveal).st := by
  have hframe := weldDebt_frame (E := E) link (weldHead E k.st.head link) k.st
  rw [weldIn_st]
  exact ⟨rfl, rfl, rfl, hframe.1.trans hcont, hframe.2.trans hsalt⟩

/-- The links of the chain are entries of the log. -/
theorem mem_of_chainOf {w : Welded} {log : List Entry} (h : w ∈ chainOf log) : .link w ∈ log := by
  induction log with
  | nil => cases h
  | cons e log ih =>
    cases e with
    | link v =>
      rcases List.mem_cons.mp h with rfl | h
      · exact List.mem_cons_self
      · exact List.mem_cons_of_mem _ (ih h)
    | salt _ => cases h
    | restored _ => cases h
    | wiped => cases h
    | _ => exact List.mem_cons_of_mem _ (ih h)

/-- The next link of a key that knows its identity. -/
theorem Linked.weld (hk : Linked E k) (hload : k.loaded = true) (hid : k.ident.isSome = true)
    (hshort : Short k.log) {link : Link} {reveal : Option Digest} (hseq : link.seq = k.st.nextSeq) :
    Welds E (chainOf (k.weldIn E link reveal).log) := by
  have hknown := hk.known hid
  rw [kept_of_loaded hload] at hknown
  rw [weldIn_log]
  dsimp only [chainOf]
  rcases hc : chainOf k.log with - | ⟨v, vs⟩
  · have hempty := hk.empty hc
    rw [kept_of_loaded hload, Unbegun, hknown.1] at hempty
    have hnone : k.st.seq = seqNone := hempty.resolve_right (by simp)
    exact ⟨Or.inl (by rw [hseq, EdgeState.nextSeq, if_pos hnone]), rfl⟩
  · have htip := hk.tip v (by rw [hc]; rfl)
    rw [kept_of_loaded hload] at htip
    have hmem : .link v ∈ k.log := mem_of_chainOf (by rw [hc]; exact List.mem_cons_self)
    have hne : k.st.seq ≠ seqNone := by
      rw [htip.seq]
      simpa [Entry.short] using hshort _ hmem
    have hwelds := hk.welds
    rw [hc] at hwelds
    refine ⟨?_, htip.head, rfl, hwelds⟩
    rw [hseq, EdgeState.nextSeq, if_neg hne, htip.seq]

/-- A link has the next number. -/
theorem Act.seq_eq {link : Link} {reveal : Option Digest} {budgets : Fin 4 → Budget}
    (h : Act E k l link reveal budgets) : link.seq = k.st.nextSeq := by
  cases h <;> rfl

/-- A weld onto the end of the chain, by a key that knows its identity. -/
theorem Linked.weldIn (hk : Linked E k) (hload : k.loaded = true) (hid : k.ident.isSome = true)
    (hshort : Short k.log) {link : Link} {reveal : Option Digest} (hseq : link.seq = k.st.nextSeq) :
    Linked E (k.weldIn E link reveal) := by
  have hload' : (k.weldIn E link reveal).loaded = true := hload
  have hknown := hk.known hid
  rw [kept_of_loaded hload] at hknown
  have hends : EndsIn ⟨link, k.st.head, weldHead E k.st.head link, reveal⟩
      (k.weldIn E link reveal).st := weldIn_endsIn hknown.1 hknown.2
  refine ⟨hk.weld hload hid hshort hseq, ?_, ?_, ?_, ?_⟩
  · rw [weldIn_log, kept_of_loaded hload']
    intro w hw
    obtain rfl := Option.some.inj hw
    exact hends
  · rw [weldIn_log]
    exact fun h => absurd h (List.cons_ne_nil _ _)
  · rw [kept_of_loaded hload']
    exact fun _ => ⟨hends.cont, hends.salted⟩
  · intro h
    rw [hload'] at h
    cases h

/-- A chain whose tip the key could not have kept is empty. -/
theorem Linked.chain_nil (hk : Linked E k)
    (hno : ∀ w, .link w ∈ k.log → EndsIn w (k.kept E) → False) : chainOf k.log = [] := by
  by_contra hne
  obtain ⟨w, ws, hc⟩ := List.exists_cons_of_ne_nil hne
  have hmem : .link w ∈ k.log := mem_of_chainOf (by rw [hc]; exact List.mem_cons_self)
  exact hno w hmem (hk.tip w (by rw [hc]; rfl))

/-- The continue link is the first of its chain. -/
theorem Linked.continued (hk : Linked E k) (id : Ident) (hload : k.loaded = true)
    (hsalt : k.st.salted = true) (hcont : k.st.cont = true) : Linked E (k.continued E id) := by
  have hload' : (k.continued E id).loaded = true := hload
  -- nothing is welded while a continuation is owed
  have hnil : chainOf k.log = [] := hk.chain_nil fun w _ hends => by
    have htip := hends.cont
    rw [kept_of_loaded hload, hcont] at htip
    cases htip
  have hends : EndsIn ⟨k.continueLink E, genesisOf E id.deviceId,
      weldHead E (genesisOf E id.deviceId) (k.continueLink E), none⟩ (k.continued E id).st :=
    weldIn_endsIn (k := { k.continuing E id with nextIntent := none }) rfl hsalt
  have hchain : chainOf (k.continued E id).log = [⟨k.continueLink E, genesisOf E id.deviceId,
      weldHead E (genesisOf E id.deviceId) (k.continueLink E), none⟩] := by
    rw [continued_log]
    exact congrArg _ hnil
  constructor
  · rw [hchain]
    exact ⟨Or.inr rfl, rfl⟩
  · rw [hchain, kept_of_loaded hload']
    intro w hw
    obtain rfl := Option.some.inj hw
    exact hends
  · rw [hchain]
    exact fun h => absurd h (List.cons_ne_nil _ _)
  · rw [kept_of_loaded hload']
    exact fun _ => ⟨hends.cont, hends.salted⟩
  · intro h
    rw [hload'] at h
    cases h

/-- The load of the record finds the tip. -/
theorem Linked.stateLoad (hk : Linked E k) : Linked E (k.stateLoad E) := by
  refine ⟨?_, ?_, ?_, ?_, fun h => ?_⟩
  · rw [stateLoad_log]
    exact hk.welds
  · rw [stateLoad_log, stateLoad_kept]
    exact hk.tip
  · rw [stateLoad_log, stateLoad_kept]
    exact hk.empty
  · rw [(stateLoad_frame E k).1, stateLoad_kept]
    exact hk.known
  · rw [stateLoad_loaded] at h
    cases h

/-- A salt over an empty chain keeps it. -/
theorem Linked.salted (hk : Linked E k) (salt : Digest) (hload : k.loaded = true)
    (hid : k.ident = none) (hsalt : k.st.salted = false) : Linked E (k.salted E salt) := by
  -- no salt was drawn, so there is no link yet
  have hnil : chainOf k.log = [] := hk.chain_nil fun w _ hends => by
    have htip := hends.salted
    rw [kept_of_loaded hload, hsalt] at htip
    cases htip
  have hempty := hk.empty hnil
  rw [kept_of_loaded hload] at hempty
  have hload' : (k.salted E salt).loaded = true := hload
  refine ⟨trivial, fun w hw => (nomatch hw), fun _ => ?_, fun h => ?_, fun h => ?_⟩
  · rw [kept_of_loaded hload']
    exact hempty
  · have hnone : k.ident.isSome = true := h
    rw [hid] at hnone
    cases hnone
  · rw [hload'] at h
    cases h

/-- A key that never linked starts from the genesis of its identity. -/
theorem Linked.genesisSet (hk : Linked E k) (id : Ident) (hload : k.loaded = true)
    (hshort : Short k.log) (hsalt : k.st.salted = true) (hcont : k.st.cont = false)
    (hseq : k.st.seq = seqNone) : Linked E (k.genesisSet E id) := by
  have hload' : (k.genesisSet E id).loaded = true := hload
  have hnil : chainOf k.log = [] := hk.chain_nil fun w hmem hends => by
    have htip := hends.seq
    rw [kept_of_loaded hload, hseq] at htip
    have hne' : w.link.seq ≠ seqNone := by simpa [Entry.short] using hshort _ hmem
    exact hne' htip.symm
  have hchain : chainOf (k.genesisSet E id).log = [] := hnil
  constructor
  · rw [hchain]
    trivial
  · rw [hchain]
    exact fun w hw => nomatch hw
  · rw [kept_of_loaded hload']
    exact fun _ => Or.inl hseq
  · rw [kept_of_loaded hload']
    exact fun _ => ⟨hcont, hsalt⟩
  · intro h
    rw [hload'] at h
    cases h

theorem Linked.stateSave (hk : Linked E k) (hload : k.loaded = true) :
    Linked E (k.stateSave E) := by
  have hload' : (k.stateSave E).loaded = true := hload
  have hkept : (k.kept E) = k.st := kept_of_loaded hload
  refine ⟨hk.welds, fun w hw => ?_, fun h => ?_, fun h => ?_, fun h => ?_⟩
  · have htip := hk.tip w hw
    rw [hkept] at htip
    rw [kept_of_loaded hload']
    exact ⟨htip.seq, htip.head, htip.last, htip.cont, htip.salted⟩
  · have hempty := hk.empty h
    rw [hkept] at hempty
    rw [kept_of_loaded hload']
    exact hempty
  · have hknown := hk.known h
    rw [hkept] at hknown
    rw [kept_of_loaded hload']
    exact hknown
  · rw [hload'] at h
    cases h

/-- Every move keeps the chain welded. -/
theorem Move.linked (h : Move E l k k') (hshort : Short k.log) (hk : Linked E k) :
    Linked E k' := by
  -- the record is ahead of the chain only between a restore and its continue link
  cases h with
  | ram h => exact h.sameChain.linked hk
  | announce t buf hload =>
    rcases recvTxStart_cases t buf k with hstill | ⟨-, -, token, intent, htx⟩
    · exact hstill.sameChain.linked hk
    · rw [htx]
      exact ⟨hk.welds, hk.tip, hk.empty, hk.known, fun h => absurd (hload.symm.trans h) (by simp)⟩
  | load hload => exact hk.stateLoad
  | salt salt hload hid hsalt => exact hk.salted salt hload hid hsalt
  | known hload hid hsalt hident hcont hseq =>
    have hkept : (k.kept E) = k.st := kept_of_loaded hload
    refine ⟨hk.welds, hk.tip, hk.empty, fun _ => ?_, hk.unread⟩
    show (k.kept E).cont = false ∧ (k.kept E).salted = true
    rw [hkept]
    exact ⟨hcont, hsalt⟩
  | genesis hload hid hsalt hident hcont hseq => exact hk.genesisSet _ hload hshort hsalt hcont hseq
  | continued hload hid hsalt hident hcont => exact hk.continued _ hload hsalt hcont
  | resave hload => exact hk.stateSave hload
  | act hload hid hact =>
    rename_i link reveal budgets
    have hk' : Linked E { k with budgets := budgets, nextIntent := none } :=
      ⟨hk.welds, hk.tip, hk.empty, hk.known, hk.unread⟩
    exact hk'.weldIn hload hid hshort hact.seq_eq
  | restore sec hload hsec =>
    rw [restore_eq sec hload hsec]
    refine ⟨trivial, fun w hw => (nomatch hw), fun _ => Or.inr rfl, fun h => (nomatch h),
      fun h => (nomatch h)⟩
  | wipe =>
    refine ⟨trivial, fun w hw => (nomatch hw), fun _ => Or.inl rfl, fun h => (nomatch h),
      fun h => (nomatch h)⟩

/-- So it is in every run with clean restarts and up to 2^32 links. -/
theorem Trace.linked (h : Trace E k) (hclean : CleanBoots k.log) (hshort : Short k.log) :
    Linked E k := by
  induction h with
  | new core =>
    have hload : (Key.fresh (fun _ => erased) core []).kept E = EdgeState.empty :=
      DoubleBuffer.Backed.load_eq stored_erased fun _ => stateDecode_erased E
    refine ⟨trivial, fun w hw => (nomatch hw), fun _ => ?_, fun h => (nomatch h), fun _ => ⟨?_, rfl⟩⟩
    · rw [hload]
      exact Or.inl rfl
    · intro post w pre hlog
      rcases post with - | ⟨e, post⟩ <;> cases hlog
  | move _ hmove ih =>
    have hk := ih (hclean.of_suffix hmove.suffix) (hshort.of_suffix hmove.suffix)
    exact hmove.linked (hshort.of_suffix hmove.suffix) hk
  | boot core htrace htorn ih =>
    have hk := ih (hclean.of_suffix ⟨[_], rfl⟩) (hshort.of_suffix ⟨[_], rfl⟩)
    have hkept := reboot_kept htrace core htorn hclean
    refine ⟨hk.welds, ?_, ?_, fun h => (nomatch h), fun _ => ⟨unread_boot _ _ _, rfl⟩⟩
    · rw [hkept]
      exact hk.tip
    · rw [hkept]
      exact hk.empty

/-! ### The ring -/

/-- A restart came after the link. -/
def Reread (log : List Entry) (w : Welded) : Prop :=
  ∃ post pre, log = post ++ .link w :: pre ∧ ∃ torn clean, .boot torn clean ∈ post

/-- The reveal of the use, zeros when it has none. -/
def Revealed (w : Welded) (reveal : Digest) : Prop := reveal = w.reveal.getD (Bytes.zero 32)

/-- The reveal of the use, or zeros when a restart came after it. -/
def RevealedSince (log : List Entry) (w : Welded) (reveal : Digest) : Prop :=
  Revealed w reveal ∨ (reveal = Bytes.zero 32 ∧ Reread log w)

/-- A link of the chain with its own head, and a reveal as `R` says. -/
def HeldLink.Of (R : Welded → Digest → Prop) (log : List Entry) (h : HeldLink) : Prop :=
  ∃ w ∈ chainOf log, w.link = h.link ∧ w.head = h.head ∧ w.link.seq = h.seq ∧ R w h.reveal

/-- The ring holds links of the chain, each in its place, up to the newest without a gap. -/
structure Ring (k : Key) : Prop where
  links : ∀ i h, k.held i = some h → Key.heldAt h.seq = i ∧ h.Of (RevealedSince k.log) k.log
  window : chainOf k.log ≠ [] → ∃ o : Nat, ∀ s : UInt32, (k.heldLink s).isSome = true ↔
    o ≤ s.toNat ∧ s.toNat ≤ k.st.seq.toNat ∧ k.st.seq.toNat < s.toNat + 8
  none : chainOf k.log = [] → k.held = fun _ => Option.none

/-- A link that was read again stays so. -/
theorem Reread.append {log : List Entry} {w : Welded} (h : Reread log w) (seg : List Entry) :
    Reread (seg ++ log) w := by
  obtain ⟨post, pre, rfl, torn, clean, hmem⟩ := h
  exact ⟨seg ++ post, pre, by simp, torn, clean, List.mem_append_right _ hmem⟩

theorem RevealedSince.append {log : List Entry} {w : Welded} {reveal : Digest}
    (h : RevealedSince log w reveal) (seg : List Entry) : RevealedSince (seg ++ log) w reveal :=
  h.imp_right fun hx => ⟨hx.1, hx.2.append seg⟩

/-- What leaves the ring and the chain alone. -/
theorem Ring.mono (h : Ring k) (hheld : k'.held = k.held) (hseq : k'.st.seq = k.st.seq)
    (hchain : chainOf k'.log = chainOf k.log) (hlog : ∃ seg, k'.log = seg ++ k.log) : Ring k' := by
  obtain ⟨seg, hlog⟩ := hlog
  refine ⟨fun i x hx => ?_, fun hne => ?_, fun hnil => ?_⟩
  · rw [hheld] at hx
    obtain ⟨hplace, w, hw, hlink, hhead, hwseq, hreveal⟩ := h.links i x hx
    refine ⟨hplace, w, by rw [hchain]; exact hw, hlink, hhead, hwseq, ?_⟩
    rw [hlog]
    exact hreveal.append seg
  · obtain ⟨o, ho⟩ := h.window (hchain ▸ hne)
    refine ⟨o, fun s => ?_⟩
    rw [Key.heldLink, hheld, hseq]
    exact ho s
  · rw [hheld]
    exact h.none (hchain ▸ hnil)

/-- A link goes into its place of the ring. -/
theorem weldIn_held (link : Link) (reveal : Option Digest) (k : Key) :
    (k.weldIn E link reveal).held = Function.update k.held (Key.heldAt link.seq)
      (some ⟨link.seq, link, weldHead E k.st.head link, reveal.getD (Bytes.zero 32)⟩) := rfl

/-- Numbers share a place when they agree modulo 8. -/
theorem heldAt_eq_iff {s t : UInt32} : Key.heldAt s = Key.heldAt t ↔ s.toNat % 8 = t.toNat % 8 :=
  Fin.ext_iff

/-- A new link takes its place from the link eight before it. -/
theorem heldLink_weldIn (link : Link) (reveal : Option Digest) (k : Key) (s : UInt32) :
    ((k.weldIn E link reveal).heldLink s).isSome = true ↔
      s = link.seq ∨ (s.toNat % 8 ≠ link.seq.toNat % 8 ∧ (k.heldLink s).isSome = true) := by
  rw [Key.heldLink, weldIn_held]
  by_cases hplace : Key.heldAt s = Key.heldAt link.seq
  · have hmod := heldAt_eq_iff.mp hplace
    rw [hplace, Function.update_self]
    by_cases hs : s = link.seq
    · simp [hs]
    · have hne : link.seq ≠ s := fun h => hs h.symm
      simp [Option.filter, hs, hne, hmod]
  · have hmod : s.toNat % 8 ≠ link.seq.toNat % 8 := fun h => hplace (heldAt_eq_iff.mpr h)
    have hs : s ≠ link.seq := fun h => hplace (by rw [h])
    rw [Function.update_of_ne hplace]
    simp [hs, hmod, Key.heldLink]

/-- A link with the next number takes the oldest one's place. -/
theorem Ring.weldIn (h : Ring k) {link : Link} {reveal : Option Digest}
    (hnext : chainOf k.log ≠ [] → link.seq.toNat = k.st.seq.toNat + 1) :
    Ring (k.weldIn E link reveal) := by
  have hseq : (k.weldIn E link reveal).st.seq = link.seq := by rw [weldIn_st]
  refine ⟨fun i x hx => ?_, fun _ => ?_, fun hnil => ?_⟩
  · rw [weldIn_held] at hx
    -- the new link takes the place of the one eight seqs older
    by_cases hi : i = Key.heldAt link.seq
    · subst hi
      rw [Function.update_self] at hx
      obtain rfl := Option.some.inj hx
      refine ⟨rfl, ⟨link, k.st.head, weldHead E k.st.head link, reveal⟩, ?_, rfl, rfl, rfl,
        Or.inl rfl⟩
      rw [weldIn_log]
      exact List.mem_cons_self
    · rw [Function.update_of_ne hi] at hx
      obtain ⟨hplace, w, hw, hlink, hhead, hwseq, hreveal⟩ := h.links i x hx
      refine ⟨hplace, w, ?_, hlink, hhead, hwseq, ?_⟩
      · rw [weldIn_log]
        exact List.mem_cons_of_mem _ hw
      · rw [weldIn_log]
        exact hreveal.append [_, _]
  · rw [hseq]
    by_cases hnil : chainOf k.log = []
    · -- the first link of a chain is alone in the ring
      refine ⟨link.seq.toNat, fun s => ?_⟩
      have hempty : k.heldLink s = Option.none := by rw [Key.heldLink, h.none hnil]; rfl
      rw [heldLink_weldIn, hempty, ← UInt32.toNat_inj]
      constructor
      · rintro (heq | ⟨-, hf⟩)
        · omega
        · cases hf
      · intro hx
        exact Or.inl (by omega)
    · obtain ⟨o, ho⟩ := h.window hnil
      have hlast := hnext hnil
      refine ⟨min o link.seq.toNat, fun s => ?_⟩
      rw [heldLink_weldIn, ho s, ← UInt32.toNat_inj]
      omega
  · rw [weldIn_log] at hnil
    exact absurd hnil (List.cons_ne_nil _ _)

/-- A load holds the newest link again, as it was before the restart. -/
theorem ring_stateLoad (hk : Linked E k) (hload : k.loaded = false) (hshort : Short k.log)
    (hcont : (k.kept E).cont = false) : Ring (k.stateLoad E) := by
  obtain ⟨hunread, hnone⟩ := hk.unread hload
  have hst := stateLoad_st (E := E) hload
  have hheld : (k.stateLoad E).held =
      if (k.kept E).seq ≠ seqNone then
        Function.update k.held (Key.heldAt (k.kept E).seq)
          (some ⟨(k.kept E).seq, (k.kept E).lastLink, (k.kept E).head, Bytes.zero 32⟩)
      else k.held := by
    rw [Key.kept, hload, Key.stateLoad, hload]
    simp only [Bool.false_eq_true, if_false]
    split <;> rfl
  -- after a restart the ring holds the newest link only, without its reveal
  rcases hc : chainOf k.log with - | ⟨w, ws⟩
  · have hempty := hk.empty hc
    rw [Unbegun, hcont] at hempty
    have hseq : (k.kept E).seq = seqNone := hempty.resolve_right (by simp)
    rw [if_neg (by simpa using hseq), hnone] at hheld
    refine ⟨fun i x hx => ?_, fun hne => ?_, fun _ => hheld⟩
    · rw [hheld] at hx
      cases hx
    · rw [stateLoad_log] at hne
      exact absurd hc hne
  · have htip := hk.tip w (by rw [hc]; rfl)
    have hmem : .link w ∈ k.log := mem_of_chainOf (by rw [hc]; exact List.mem_cons_self)
    have hne : w.link.seq ≠ seqNone := by simpa [Entry.short] using hshort _ hmem
    rw [htip.seq, htip.last, htip.head, if_pos hne, hnone] at hheld
    refine ⟨fun i x hx => ?_, fun _ => ⟨w.link.seq.toNat, fun s => ?_⟩, fun hnil => ?_⟩
    · rw [hheld] at hx
      by_cases hi : i = Key.heldAt w.link.seq
      · subst hi
        rw [Function.update_self] at hx
        obtain rfl := Option.some.inj hx
        obtain ⟨post, pre, hlog⟩ := List.append_of_mem hmem
        refine ⟨rfl, w, ?_, rfl, rfl, rfl, Or.inr ⟨rfl, ?_⟩⟩
        · rw [stateLoad_log, hc]
          exact List.mem_cons_self
        · rw [stateLoad_log]
          exact ⟨post, pre, hlog, hunread post w pre hlog⟩
      · rw [Function.update_of_ne hi] at hx
        cases hx
    · rw [Key.heldLink, hheld, hst, htip.seq]
      by_cases hplace : Key.heldAt s = Key.heldAt w.link.seq
      · have hmod := heldAt_eq_iff.mp hplace
        rw [hplace, Function.update_self]
        by_cases hs : w.link.seq = s
        · simp [Option.filter, hs]
        · have hs' : w.link.seq.toNat ≠ s.toNat := fun h => hs (UInt32.toNat_inj.mp h)
          simp only [Option.filter, beq_iff_eq, hs, if_false, Option.isSome_none,
            Bool.false_eq_true, false_iff]
          omega
      · have hmod : s.toNat % 8 ≠ w.link.seq.toNat % 8 := fun h => hplace (heldAt_eq_iff.mpr h)
        rw [Function.update_of_ne hplace]
        simp only [Option.filter, Option.isSome_none, Bool.false_eq_true, false_iff]
        omega
    · rw [stateLoad_log, hc] at hnil
      cases hnil

/-- The ring of a key that has read its record, and owes no continue link. -/
def Held (k : Key) : Prop := k.loaded = true → k.st.cont = false → Ring k

/-- Short of the last one, seqs do not wrap. -/
theorem nextSeq_toNat {st : EdgeState} (h : st.seq ≠ seqNone) :
    st.nextSeq.toNat = st.seq.toNat + 1 := by
  rw [EdgeState.nextSeq, if_neg h, UInt32.toNat_add]
  have hlt : st.seq.toNat ≠ 4294967295 := fun heq => h (UInt32.toNat_inj.mp heq)
  have hbound := st.seq.toNat_lt
  show (st.seq.toNat + 1) % 4294967296 = st.seq.toNat + 1
  omega

theorem Move.held (h : Move E l k k') (hshort : Short k.log) (hlink : Linked E k) (hk : Held k) :
    Held k' := by
  -- a link enters the ring; a load, a restore and a wipe begin it anew
  cases h with
  | ram h =>
    have hsame := h.sameChain
    obtain ⟨seg, hlog, hseg⟩ := hsame.log
    intro hload hcont
    rw [hsame.loaded] at hload
    rw [hsame.st] at hcont
    refine (hk hload hcont).mono hsame.held (by rw [hsame.st]) ?_ ⟨seg, hlog⟩
    rw [hlog]
    exact chainOf_append hseg
  | announce t buf hload =>
    rcases recvTxStart_cases t buf k with hstill | ⟨-, -, token, intent, htx⟩
    · have hsame := hstill.sameChain (E := E)
      obtain ⟨seg, hlog, hseg⟩ := hsame.log
      intro _ hcont
      rw [hsame.st] at hcont
      refine (hk hload hcont).mono hsame.held (by rw [hsame.st]) ?_ ⟨seg, hlog⟩
      rw [hlog]
      exact chainOf_append hseg
    · rw [htx]
      exact fun _ hcont => (hk hload hcont).mono rfl rfl rfl ⟨[.txStart token intent], rfl⟩
  | load hload =>
    intro _ hcont
    rw [stateLoad_st hload] at hcont
    exact ring_stateLoad hlink hload hshort hcont
  | salt salt hload hid hsalt =>
    intro _ hcont
    have hnil : chainOf k.log = [] := hlink.chain_nil fun w _ hends => by
      have htip := hends.salted
      rw [kept_of_loaded hload, hsalt] at htip
      cases htip
    exact (hk hload hcont).mono rfl rfl hnil.symm ⟨[_, _], rfl⟩
  | known hload hid hsalt hident hcont hseq =>
    exact fun _ _ => (hk hload hcont).mono rfl rfl rfl ⟨[], rfl⟩
  | genesis hload hid hsalt hident hcont hseq =>
    exact fun _ _ => (hk hload hcont).mono rfl rfl rfl ⟨[_], rfl⟩
  | continued hload hid hsalt hident hcont =>
    rename_i id
    intro _ _
    have hnil : chainOf k.log = [] := hlink.chain_nil fun w _ hends => by
      have htip := hends.cont
      rw [kept_of_loaded hload, hcont] at htip
      cases htip
    have hblank : Ring { k.continuing E id with nextIntent := none } :=
      ⟨fun i x hx => (nomatch hx), fun hne => absurd hnil hne, fun _ => rfl⟩
    exact hblank.weldIn fun hne => absurd hnil hne
  | resave hload => exact fun _ hcont => (hk hload hcont).mono rfl rfl rfl ⟨[_], rfl⟩
  | act hload hid hact =>
    rename_i link reveal budgets
    intro _ _
    have hcont := (hlink.known hid).1
    rw [kept_of_loaded hload] at hcont
    have hr : Ring { k with budgets := budgets, nextIntent := none } :=
      (hk hload hcont).mono rfl rfl rfl ⟨[], rfl⟩
    refine hr.weldIn fun hne => ?_
    obtain ⟨w, ws, hc⟩ := List.exists_cons_of_ne_nil hne
    have htip := (hlink.tip w (by rw [show chainOf k.log = _ from hc]; rfl)).seq
    have hmem : .link w ∈ k.log := mem_of_chainOf (by
      rw [show chainOf k.log = _ from hc]
      exact List.mem_cons_self)
    have hshortw : w.link.seq ≠ seqNone := by simpa [Entry.short] using hshort _ hmem
    rw [kept_of_loaded hload] at htip
    have hst : k.st.seq ≠ seqNone := htip ▸ hshortw
    show link.seq.toNat = k.st.seq.toNat + 1
    rw [hact.seq_eq, nextSeq_toNat hst]
  | restore sec hload hsec =>
    rw [restore_eq sec hload hsec]
    exact fun _ hcont => (nomatch hcont)
  | wipe => exact fun _ _ => ⟨fun i x hx => (nomatch hx), fun hne => absurd rfl hne, fun _ => rfl⟩

theorem Trace.held (h : Trace E k) (hclean : CleanBoots k.log) (hshort : Short k.log) :
    Held k := by
  induction h with
  | new core => exact fun hload => (nomatch hload)
  | move htrace hmove ih =>
    have hclean' := hclean.of_suffix hmove.suffix
    have hshort' := hshort.of_suffix hmove.suffix
    exact hmove.held hshort' (htrace.linked hclean' hshort') (ih hclean' hshort')
  | boot core _ _ _ => exact fun hload => (nomatch hload)

/-! ### HEAD and PICKUP -/

/-- The two reports PICKUP sends for a link. -/
def HeldLink.reports (h : HeldLink) : List Reply :=
  [.report (Bytes.pack 64 h.link.encode.toList),
    .report (Bytes.pack 64 (h.head.toList ++ h.reveal.toList))]

/-- The seqs a PICKUP asks for. -/
def asked (buf : Report) : List UInt32 :=
  (List.range (min (byteAt buf 10).toNat 8)).map fun n => get32 buf 6 + UInt32.ofNat n

/-- HEAD reports the last link; every seq from the oldest it reports can be picked up; and PICKUP
answers with the links asked for, in order, each with its head and a reveal as `R` says, or with
NOT_HELD when one of them is not held. -/
structure Answers (R : Welded → Digest → Prop) (k : Key) : Prop where
  head : ∀ t, ∀ w ∈ (chainOf k.log).head?, ∃ rest, (k.recvHead t).out = k.out ++
    [.report (Bytes.pack 64 ((Bytes.le32 w.link.seq).toList ++ (w.head.toList ++
      ((Bytes.le32 k.oldestHeld).toList ++ rest))))]
  held : ∀ w ∈ (chainOf k.log).head?, ∀ s, k.oldestHeld ≤ s → s ≤ w.link.seq →
    (k.heldLink s).isSome = true
  pickup : ∀ buf, 1 ≤ (byteAt buf 10).toNat →
    (get32 buf 6).toNat + min (byteAt buf 10).toNat 8 < 2 ^ 32 →
    (∃ hs : List HeldLink, hs.map (·.seq) = asked buf ∧ (∀ h ∈ hs, h.Of R k.log) ∧
      (k.recvPickup buf).out = k.out ++ hs.flatMap HeldLink.reports) ∨
    ((∃ s ∈ asked buf, k.heldLink s = none) ∧
      (k.recvPickup buf).out = k.out ++ [.text edgeNotHeld])

/-- The oldest seq reported is one of the ring, if there is any. -/
theorem oldestHeld_mem (k : Key) :
    k.oldestHeld = seqNone ∨ ∃ i h, k.held i = some h ∧ h.seq = k.oldestHeld := by
  unfold Key.oldestHeld
  generalize seqNone = o
  induction List.finRange 8 generalizing o with
  | nil => exact Or.inl rfl
  | cons i is ih =>
    rw [List.foldl_cons]
    rcases hi : k.held i with - | h
    · exact ih o
    · dsimp only
      split
      · refine (ih h.seq).elim (fun heq => Or.inr ⟨i, h, hi, ?_⟩) Or.inr
        exact heq.symm
      · exact ih o

/-- What the ring holds is found by its number. -/
theorem Ring.heldLink (hr : Ring k) {i : Fin 8} {h : HeldLink} (hi : k.held i = some h) :
    k.heldLink h.seq = some h := by
  rw [Key.heldLink, (hr.links i h hi).1, hi]
  simp [Option.filter]

/-- What is found has the number. -/
theorem heldLink_some {s : UInt32} {h : HeldLink} (hs : k.heldLink s = some h) :
    k.held (Key.heldAt s) = some h ∧ h.seq = s := by
  obtain ⟨hheld, hseq⟩ := Option.filter_eq_some_iff.mp hs
  exact ⟨hheld, by simpa using hseq⟩

/-- The numbers of a pickup, up to the counter's wrap. -/
theorem pickupSeqs_eq {first : UInt32} {n : Nat} (h : first.toNat + n < 2 ^ 32) :
    Key.pickupSeqs first n = (List.range n).map fun i => first + UInt32.ofNat i := by
  have hn : (UInt32.ofNat n).toNat = n := UInt32.toNat_ofNat_of_lt (by
    show n < 4294967296
    omega)
  have hlen : (first + UInt32.ofNat n).toNat - first.toNat = n := by
    rw [UInt32.toNat_add, hn, Nat.mod_eq_of_lt h]
    omega
  rw [Key.pickupSeqs, hlen]

/-- All of them are held, or one is not. -/
theorem mapM_heldLink (k : Key) (ss : List UInt32) :
    (∃ hs, ss.mapM (fun s => k.heldLink s) = some hs ∧ hs.map (·.seq) = ss ∧
      ∀ h ∈ hs, ∃ i, k.held i = some h) ∨
    (ss.mapM (fun s => k.heldLink s) = none ∧ ∃ s ∈ ss, k.heldLink s = none) := by
  induction ss with
  | nil => exact Or.inl ⟨[], rfl, rfl, by simp⟩
  | cons s ss ih =>
    rw [List.mapM_cons]
    rcases hs : k.heldLink s with - | h
    · exact Or.inr ⟨rfl, s, List.mem_cons_self, hs⟩
    · obtain ⟨hheld, hseq⟩ := heldLink_some hs
      rcases ih with ⟨hs', heq, hmap, hall⟩ | ⟨heq, s', hs', hnone⟩
      · refine Or.inl ⟨h :: hs', by rw [heq]; rfl, by rw [List.map_cons, hmap, hseq], ?_⟩
        intro x hx
        rcases List.mem_cons.mp hx with rfl | hx
        · exact ⟨_, hheld⟩
        · exact hall x hx
      · exact Or.inr ⟨by rw [heq]; rfl, s', List.mem_cons_of_mem _ hs', hnone⟩

/-- Each held link is sent in its reports. -/
theorem sendAll_out (hs : List HeldLink) (k : Key) :
    (hs.foldl (fun k h => k.sendHeld h) k).out = k.out ++ hs.flatMap HeldLink.reports := by
  induction hs generalizing k with
  | nil => simp
  | cons h hs ih =>
    rw [List.foldl_cons, ih, List.flatMap_cons, ← List.append_assoc]
    congr 1
    simp [Key.sendHeld, Key.reply, Key.send, HeldLink.reports]

/-- A key that knows its identity answers from the ring. -/
theorem answers_of_ready (hlink : Linked E k) (hheld : Held k) (hk : Ready k)
    (hshort : Short k.log) : Answers (RevealedSince k.log) k := by
  have hload := hk.loaded
  have hcont := (hlink.known hk.ident).1
  rw [kept_of_loaded hload] at hcont
  have hring := hheld hload hcont
  have htip : ∀ w ∈ (chainOf k.log).head?, EndsIn w k.st := by
    have ht := hlink.tip
    rwa [kept_of_loaded hload] at ht
  constructor
  · intro t w hw
    have hends := htip w hw
    exact ⟨_, by rw [← hends.seq, ← hends.head]; rfl⟩
  · intro w hw s hold hnew
    have hends := htip w hw
    have hne : chainOf k.log ≠ [] := fun h => by
      rw [h] at hw
      cases hw
    -- what is held is a window of the chain that ends at its newest link
    obtain ⟨o, ho⟩ := hring.window hne
    have hmem : .link w ∈ k.log := mem_of_chainOf (List.mem_of_mem_head? hw)
    have hshortw : w.link.seq ≠ seqNone := by simpa [Entry.short] using hshort _ hmem
    rw [UInt32.le_iff_toNat_le] at hold hnew
    rcases oldestHeld_mem k with hnone | ⟨i, x, hx, hxs⟩
    · -- an empty ring reports the last number there is
      have hlast : w.link.seq.toNat ≠ 4294967295 := fun h => hshortw (UInt32.toNat_inj.mp h)
      have hbound := w.link.seq.toNat_lt
      rw [hnone] at hold
      have hmax : (4294967295 : Nat) ≤ s.toNat := hold
      omega
    · have hx' := (ho x.seq).mp (by rw [hring.heldLink hx]; rfl)
      rw [hends.seq] at hx' ho
      rw [← hxs] at hold
      exact (ho s).mpr (by omega)
  · intro buf _ hsum
    have hseqs : Key.pickupSeqs (get32 buf 6) (min (byteAt buf 10).toNat 8) = asked buf :=
      pickupSeqs_eq hsum
    rw [Key.recvPickup, Key.heldRange, hseqs]
    rcases mapM_heldLink k (asked buf) with ⟨hs, heq, hmap, hall⟩ | ⟨heq, hnone⟩
    · refine Or.inl ⟨hs, hmap, fun h hmem => ?_, ?_⟩
      · obtain ⟨i, hi⟩ := hall h hmem
        exact (hring.links i h hi).2
      · rw [heq]
        exact sendAll_out hs k
    · refine Or.inr ⟨hnone, ?_⟩
      rw [heq]
      rfl

/-! ### A request -/

/-- The key at the switch on the sub-op. -/
def Key.serving (E : Env) (t : Clock) (d : Draw) (k : Key) : Key :=
  (k.hush.ensureIdentity E d).1.dropStalePress E t

/-- The key serves a request: it is unlocked, and has an identity. -/
def Key.serves (E : Env) (d : Draw) (k : Key) : Bool :=
  k.core.initialized && k.core.unlocked && !k.core.configmode && (k.hush.ensureIdentity E d).2

theorem recv_of_serves {t : Clock} {d : Draw} (h : k.serves E d = true) (buf : Report) :
    k.hush.recv E t d buf = (k.serving E t d).serve E (t.after 1) d buf := by
  have hopen := (Bool.and_eq_true_iff.mp h).1
  have hid := (Bool.and_eq_true_iff.mp h).2
  have hcore : (k.hush.core.initialized && k.hush.core.unlocked && !k.hush.core.configmode) = true :=
    hopen
  unfold Key.recv Key.serving
  rw [hcore]
  rcases hr : k.hush.ensureIdentity E d with ⟨m, b⟩
  rw [hr] at hid
  obtain rfl : b = true := hid
  rfl

/-- The chain goes on link by link, and a key that serves answers HEAD and PICKUP from it. -/
theorem chain_and_pickup (h : Reachable E k) (t : Clock) (d : Draw)
    (hclean : CleanBoots (k.serving E t d).log) (hshort : Short (k.serving E t d).log) :
    Welds E (chainOf (k.serving E t d).log) ∧
      (k.serves E d = true → Answers (RevealedSince (k.serving E t d).log) (k.serving E t d) ∧
        ∀ buf, k.hush.recv E t d buf = (k.serving E t d).serve E (t.after 1) d buf) := by
  have hid := ensureIdentity_moves (E := E) (P := fun _ => True) (k := k.hush) trivial d
  have hhush : Moves E (fun _ => True) k k.hush := .still trivial (still_hush k)
  have hdrop : Moves E (fun _ => True) (k.hush.ensureIdentity E d).1 (k.serving E t d) :=
    .still trivial (still_dropStalePress E t _)
  have htrace : Trace E (k.serving E t d) := h.trace.moves ((hhush.trans hid.1).trans hdrop)
  have hlink := htrace.linked hclean hshort
  refine ⟨hlink.welds, fun hserves => ⟨?_, recv_of_serves hserves⟩⟩
  have hready : Ready (k.serving E t d) :=
    dropStalePress_ready t (hid.2 (Bool.and_eq_true_iff.mp hserves).2)
  exact answers_of_ready hlink (htrace.held hclean hshort) hready hshort

namespace Demo

/-- A key with one use in its chain, after the budget's opening. -/
def usedOnce : Key := used 1 [1, 2, 3] 20 (opened 1 5 0 10 started)

/-- The run of the example can happen. -/
theorem reachable_usedOnce : Reachable env usedOnce := by
  have hnow : started.now ≤ 10 := by decide +kernel
  exact reachable_used 1 [1, 2, 3] (n := 20) (reachable_opened 1 5 0 reachable_started hnow)
    (by decide +kernel)

/-- PICKUP of the use. -/
def pickupUse : Report := request 0x02 [1, 0, 0, 0, 1]

end Demo

theorem chain_and_pickup_of_use :
    Demo.usedOnce.serves Demo.env Demo.draw = true ∧
      Welds Demo.env (chainOf (Demo.usedOnce.serving Demo.env (Demo.clock 20) Demo.draw).log) ∧
      (Demo.usedOnce.serves Demo.env Demo.draw = true →
        Answers (RevealedSince (Demo.usedOnce.serving Demo.env (Demo.clock 20) Demo.draw).log)
          (Demo.usedOnce.serving Demo.env (Demo.clock 20) Demo.draw) ∧
        ∀ buf, Demo.usedOnce.hush.recv Demo.env (Demo.clock 20) Demo.draw buf =
          (Demo.usedOnce.serving Demo.env (Demo.clock 20) Demo.draw).serve Demo.env
            ((Demo.clock 20).after 1) Demo.draw buf) :=
  ⟨by decide +kernel, chain_and_pickup Demo.reachable_usedOnce (Demo.clock 20) Demo.draw
    (by decide +kernel) (by decide +kernel)⟩

/-- After a restart the newest use is picked up without its reveal. -/
theorem reveal_lost_at_restart :
    ¬ ∀ (E : Env) (k : Key) (t : Clock) (d : Draw), Reachable E k →
      CleanBoots (k.serving E t d).log → Short (k.serving E t d).log → k.serves E d = true →
      Answers Revealed (k.serving E t d) := by
  intro h
  have hall := h Demo.env (step Demo.env .restart Demo.usedOnce) (Demo.clock 20) Demo.draw
    (Demo.reachable_usedOnce.event .restart trivial) (by decide +kernel) (by decide +kernel)
    (by decide +kernel)
  generalize hm : (step Demo.env .restart Demo.usedOnce).serving Demo.env (Demo.clock 20)
    Demo.draw = m at hall
  have hasked : asked Demo.pickupUse = [1] := by decide
  -- the key still has the link, so it answers, but with no reveal
  rcases hall.pickup Demo.pickupUse (by decide) (by decide) with ⟨hs, hmap, hof, hout⟩ | ⟨hnone, -⟩
  · rw [hasked] at hmap
    obtain ⟨x, rfl, -⟩ := List.map_eq_singleton_iff.mp hmap
    obtain ⟨w, hw, -, hhead, -, hreveal⟩ := hof x List.mem_cons_self
    have hreply : .report (Bytes.pack 64 (w.head.toList ++
        (w.reveal.getD (Bytes.zero 32)).toList)) ∈ (m.recvPickup Demo.pickupUse).out := by
      rw [hout, hhead, ← hreveal]
      simp [HeldLink.reports]
    have hlost : ∀ w ∈ chainOf m.log, .report (Bytes.pack 64 (w.head.toList ++
        (w.reveal.getD (Bytes.zero 32)).toList)) ∉ (m.recvPickup Demo.pickupUse).out := by
      rw [← hm]
      decide +kernel
    exact hlost w hw hreply
  · rw [hasked] at hnone
    have hheld : m.heldLink 1 ≠ none := by
      rw [← hm]
      decide +kernel
    obtain ⟨s, hs, hs'⟩ := hnone
    obtain rfl := List.mem_singleton.mp hs
    exact hheld hs'

end OkRn.Edge
