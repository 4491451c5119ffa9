/-
OkRn/Gatt/Framer.lean

CTAP messages in fragments: `CtapBle.fragment`, and the assembler that undoes it.

`fragment` counts its continuations and throws past the last of the seven-bit
sequence numbers, but writes the length into sixteen bits without a look at it.
`Undone` says that pushing the fragments into any assembler gives the message back;
it holds of what `fragment` returns exactly when the payload is below 2^16 bytes.

`TakenFrom` is the other direction: what a message handed over was made of.  A push
that is dropped for want of a header leaves the message under way as it is, so a
continuation after it is still spliced in.  Between the fragments of a message no
such push may come.

Main result: `assembling_undoes_fragmenting`.
-/
import OkRn.Gatt.Writes
import Mathlib.Data.List.Induction
import Mathlib.Tactic.Ring

namespace OkRn.Gatt

namespace CtapBle

/-- The loop of `fragment`, with `left` sequence numbers to go; `none` is a throw. -/
def continuations (capacity : Nat) : Nat → List UInt8 → Option (List (List UInt8))
  | _, [] => some []
  | 0, _ :: _ => none
  | left + 1, rest =>
      (continuations capacity left (rest.drop capacity)).map fun fs =>
        (UInt8.ofNat (0x7f - left) :: rest.take capacity) :: fs

/-- The initialisation fragment. -/
def initial (command : UInt32) (size : Nat) (data : List UInt8) : List UInt8 :=
  (command ||| 0x80).toUInt8 :: UInt8.ofNat (size / 256) :: UInt8.ofNat size :: data

/-- `CtapBle.fragment`; `none` is a throw. -/
def fragment (command : UInt32) (payload : List UInt8) (maxFragmentSize : Nat) :
    Option (List (List UInt8)) :=
  if maxFragmentSize < 4 then none
  else
    let firstChunk := payload.take (maxFragmentSize - 3)
    (continuations (maxFragmentSize - 1) 0x80 (payload.drop (maxFragmentSize - 3))).map fun fs =>
      initial command payload.length firstChunk :: fs

variable {capacity left : Nat} {rest : List UInt8} {fs : List (List UInt8)}

/-- The first continuation, and the rest. -/
theorem continuations_cons (hne : rest ≠ []) (h : continuations capacity left rest = some fs) :
    ∃ next fs', left = next + 1 ∧ continuations capacity next (rest.drop capacity) = some fs' ∧
      fs = (UInt8.ofNat (0x7f - next) :: rest.take capacity) :: fs' := by
  obtain ⟨b, bs, rfl⟩ := List.exists_cons_of_ne_nil hne
  cases left with
  | zero => simp [continuations] at h
  | succ next =>
    simp only [continuations, Option.map_eq_some_iff] at h
    obtain ⟨fs', hfs', rfl⟩ := h
    exact ⟨next, fs', rfl, hfs', rfl⟩

/-- No bytes are left, so there is none. -/
theorem continuations_nil (h : continuations capacity left [] = some fs) : fs = [] := by
  cases left <;> simpa [continuations] using h.symm

/-- Data is left, so there is a continuation. -/
theorem continuations_some (hne : rest ≠ []) (h : continuations capacity left rest = some fs) :
    fs.length = (fs.length - 1) + 1 := by
  obtain ⟨_, _, -, -, rfl⟩ := continuations_cons hne h
  rfl

/-- Each is as long as a fragment may be. -/
theorem continuations_fit (h : continuations capacity left rest = some fs) :
    ∀ f ∈ fs, f.length ≤ capacity + 1 := by
  induction left generalizing rest fs with
  | zero =>
    cases rest with
    | nil =>
      rw [continuations_nil h]
      simp
    | cons b bs => simp [continuations] at h
  | succ left ih =>
    by_cases hne : rest = []
    · subst hne
      rw [continuations_nil h]
      simp
    · obtain ⟨next, fs', hnext, hfs', rfl⟩ := continuations_cons hne h
      obtain rfl : left = next := by omega
      intro f hf
      rcases List.mem_cons.mp hf with rfl | hf
      · simp
      · exact ih hfs' f hf

/-- Enough sequence numbers are left. -/
theorem exists_continuations (hlen : rest.length ≤ capacity * left) :
    ∃ fs, continuations capacity left rest = some fs := by
  induction left generalizing rest with
  | zero =>
    have hnil : rest = [] := List.length_eq_zero_iff.mp (by simpa using hlen)
    exact ⟨[], by rw [hnil, continuations]⟩
  | succ left ih =>
    cases rest with
    | nil => exact ⟨[], rfl⟩
    | cons b bs =>
      have hdrop : ((b :: bs).drop capacity).length ≤ capacity * left := by
        rw [List.length_drop]
        rw [Nat.mul_succ] at hlen
        omega
      obtain ⟨fs, hfs⟩ := ih hdrop
      refine ⟨(UInt8.ofNat (0x7f - left) :: (b :: bs).take capacity) :: fs, ?_⟩
      rw [continuations, hfs]
      · rfl
      · simp

/-- The first fragment, and the continuations. -/
theorem fragment_cons {command : UInt32} {payload : List UInt8} {maxFragmentSize : Nat}
    (h : fragment command payload maxFragmentSize = some fs) :
    4 ≤ maxFragmentSize ∧ ∃ fs',
      continuations (maxFragmentSize - 1) 0x80 (payload.drop (maxFragmentSize - 3)) = some fs' ∧
        fs = initial command payload.length (payload.take (maxFragmentSize - 3)) :: fs' := by
  unfold fragment at h
  split at h
  · cases h
  · rename_i hsize
    obtain ⟨fs', hfs', rfl⟩ := Option.map_eq_some_iff.mp h
    exact ⟨by omega, fs', hfs', rfl⟩

/-- A payload that fits the sequence numbers is cut. -/
theorem exists_fragment (command : UInt32) {payload : List UInt8} {maxFragmentSize : Nat}
    (hsize : 4 ≤ maxFragmentSize)
    (hlen : (payload.drop (maxFragmentSize - 3)).length ≤ (maxFragmentSize - 1) * 0x80) :
    ∃ fs, fragment command payload maxFragmentSize = some fs := by
  obtain ⟨fs, hfs⟩ := exists_continuations hlen
  refine ⟨initial command payload.length (payload.take (maxFragmentSize - 3)) :: fs, ?_⟩
  rw [fragment, if_neg (by omega), hfs]
  rfl

/-- The command byte is that of an initialisation fragment, and carries the low seven bits. -/
theorem command_byte (command : UInt32) :
    0x80 ≤ (command ||| 0x80).toUInt8.toNat ∧
      (command ||| 0x80).toUInt8.toNat % 0x80 = (command &&& 0x7f).toNat := by
  have hbyte : (command ||| 0x80).toUInt8.toNat = command.toNat % 2 ^ 8 ||| 0x80 := by
    rw [UInt32.toNat_toUInt8, UInt32.toNat_or, Nat.or_mod_two_pow]
    rfl
  have hlow : (command &&& 0x7f).toNat = command.toNat % 2 ^ 7 := by
    rw [UInt32.toNat_and]
    exact Nat.and_two_pow_sub_one_eq_mod command.toNat 7
  rw [hbyte, hlow]
  refine ⟨Nat.right_le_or, ?_⟩
  have hmod := Nat.or_mod_two_pow (a := command.toNat % 2 ^ 8) (b := 0x80) (n := 7)
  simp only [Nat.reducePow] at hmod ⊢
  rw [hmod]
  simp only [Nat.reduceMod, Nat.or_zero]
  omega

/-- The two length bytes are the length up to 2^16. -/
theorem length_bytes (size : Nat) :
    (UInt8.ofNat (size / 256)).toNat * 256 + (UInt8.ofNat size).toNat = size % 2 ^ 16 := by
  rw [UInt8.toNat_ofNat', UInt8.toNat_ofNat']
  omega

end CtapBle

/-- A fragment with its whole header. -/
def Write.headed (w : Write) : Bool :=
  match w.value with
  | [] => false
  | head :: rest => decide (head.toNat < 0x80) || decide (2 ≤ rest.length)

/-- The command and the payload of a message. -/
def Message.said (m : Message) : Nat × List UInt8 := (m.command, m.payload)

namespace Assembler

/-- Nothing is under way. -/
structure Ready (a : Assembler) : Prop where
  idle : a.inProgress = false
  expected : a.expected = 0
  nextSeq : a.nextSeq = 0
  buffer : a.buffer = []

/-- Fragments pushed one after another: the assembler then, and what each push gave. -/
def pushAll (a : Assembler) : List Write → Assembler × List (Option Message)
  | [] => (a, [])
  | w :: ws => (((a.push w).1.pushAll ws).1, (a.push w).2 :: ((a.push w).1.pushAll ws).2)

/-- A reset assembler is ready. -/
theorem ready_reset (a : Assembler) : a.reset.Ready := ⟨rfl, rfl, rfl, rfl⟩

variable {a : Assembler} {w : Write}

/-- A message that is not whole is waited for. -/
theorem finish_short (h : a.buffer.length < a.expected) : a.finish = (a, none) := by
  rw [finish, if_neg (by omega)]

/-- A whole one is handed over. -/
theorem finish_whole (hrun : a.inProgress = true) (h : a.expected ≤ a.buffer.length) :
    a.finish = (a.reset, some ⟨a.command, a.buffer.take a.expected, a.parts⟩) := by
  rw [finish, if_pos ⟨hrun, h⟩]

/-- A first fragment begins a message. -/
theorem push_initial {head high low : UInt8} {data : List UInt8}
    (hvalue : w.value = head :: high :: low :: data) (hhead : 0x80 ≤ head.toNat) :
    a.push w = finish ⟨head.toNat % 0x80, high.toNat * 256 + low.toNat, 0, true, data, [w]⟩ := by
  simp [push, hvalue, hhead]

/-- One more continuation in the buffer. -/
def extended (a : Assembler) (w : Write) (data : List UInt8) : Assembler :=
  { a with nextSeq := a.nextSeq + 1, buffer := a.buffer ++ data, parts := a.parts ++ [w] }

/-- A continuation goes on with it. -/
theorem push_continuation {data : List UInt8} (hrun : a.inProgress = true)
    (hseq : a.nextSeq < 0x80) (hvalue : w.value = UInt8.ofNat a.nextSeq :: data) :
    a.push w = (a.extended w data).finish := by
  have hbyte : (UInt8.ofNat a.nextSeq).toNat = a.nextSeq := by
    rw [UInt8.toNat_ofNat']
    omega
  have hlow : ¬ 0x80 ≤ a.nextSeq := by omega
  simp only [push, hvalue, hbyte, if_neg hlow, hrun, extended]
  simp

/-! ### What was fragmented is put together again -/

open CtapBle

variable {capacity left : Nat} {rest : List UInt8} {fs : List (List UInt8)} {ws : List Write}

/-- The continuations complete the message under way. -/
theorem pushAll_continuations
    (h : continuations capacity left rest = some fs) (hleft : left ≤ 0x80) (hne : rest ≠ [])
    (hrun : a.inProgress = true) (hseq : a.nextSeq = 0x80 - left)
    (hlen : a.expected = a.buffer.length + rest.length) (hws : ws.map Write.value = fs) :
    (a.pushAll ws).2.map (Option.map Message.said) =
        List.replicate (fs.length - 1) none ++ [some (a.command, a.buffer ++ rest)] ∧
      (a.pushAll ws).1.Ready := by
  induction left generalizing rest fs a ws with
  | zero =>
    obtain ⟨next, -, hnext, -⟩ := continuations_cons hne h
    omega
  | succ left ih =>
    obtain ⟨next, fs', hnext, hfs', rfl⟩ := continuations_cons hne h
    obtain rfl : left = next := by omega
    obtain ⟨w, ws, rfl, hvalue, hws⟩ := List.map_eq_cons_iff.mp hws
    have hnum : a.nextSeq = 0x7f - left := by omega
    rw [← hnum] at hvalue
    have hpush := push_continuation hrun (by omega) hvalue
    simp only [pushAll]
    have hjoin : a.buffer ++ rest = a.buffer ++ rest.take capacity ++ rest.drop capacity := by
      rw [List.append_assoc, List.take_append_drop]
    -- each continuation but the last leaves the assembler waiting for the next
    by_cases hlast : rest.drop capacity = []
    · -- the last one: the buffer is full
      rw [hlast] at hfs' hjoin
      rw [continuations_nil hfs'] at hws ⊢
      obtain rfl : ws = [] := List.map_eq_nil_iff.mp hws
      rw [List.append_nil] at hjoin
      have hfull : a.expected = (a.buffer ++ rest.take capacity).length := by
        rw [← hjoin, List.length_append, hlen]
      rw [hpush, finish_whole (a := a.extended w (rest.take capacity)) hrun hfull.le]
      refine ⟨?_, ready_reset _⟩
      have hpayload : (a.buffer ++ rest.take capacity).take a.expected = a.buffer ++ rest := by
        rw [List.take_of_length_le hfull.ge, hjoin]
      show [some (a.command, (a.buffer ++ rest.take capacity).take a.expected)] = _
      rw [hpayload]
      rfl
    · -- more to come
      have htake : (rest.take capacity).length + (rest.drop capacity).length = rest.length := by
        rw [← List.length_append, List.take_append_drop]
      have hdrop : 0 < (rest.drop capacity).length := List.length_pos_iff.mpr hlast
      have hshort : (a.buffer ++ rest.take capacity).length < a.expected := by
        rw [List.length_append, hlen]
        omega
      rw [hpush, finish_short (a := a.extended w (rest.take capacity)) hshort]
      have hseq' : (a.extended w (rest.take capacity)).nextSeq = 0x80 - left := by
        show a.nextSeq + 1 = _
        omega
      have hlen' : (a.extended w (rest.take capacity)).expected =
          (a.extended w (rest.take capacity)).buffer.length + (rest.drop capacity).length := by
        show a.expected = (a.buffer ++ rest.take capacity).length + _
        rw [List.length_append, hlen]
        omega
      have hnext :=
        ih (a := a.extended w (rest.take capacity)) hfs' (by omega) hlast hrun hseq' hlen' hws
      have hcount := continuations_some hlast hfs'
      refine ⟨?_, hnext.2⟩
      rw [List.map_cons, hnext.1, List.length_cons, Nat.add_sub_cancel]
      conv_rhs => rw [hcount, List.replicate_succ, hjoin]
      rfl

/-- Pushed in order, the fragments give nothing before the last one and then the message, in any
state of the assembler; each has at most its size. -/
structure Undone (command : UInt32) (payload : List UInt8) (maxFragmentSize : Nat)
    (fs : List (List UInt8)) : Prop where
  fits : ∀ f ∈ fs, f.length ≤ maxFragmentSize
  whole : ∀ (a : Assembler) (ws : List Write), ws.map Write.value = fs →
    (a.pushAll ws).2.map (Option.map Message.said) =
      List.replicate (fs.length - 1) none ++ [some ((command &&& 0x7f).toNat, payload)]
  ready : ∀ (a : Assembler) (ws : List Write), ws.map Write.value = fs → (a.pushAll ws).1.Ready

variable {command : UInt32} {payload : List UInt8} {maxFragmentSize : Nat}

/-- Below 2^16 bytes the fragments are put together again. -/
theorem undone_of_short (h : fragment command payload maxFragmentSize = some fs)
    (hshort : payload.length < 2 ^ 16) : Undone command payload maxFragmentSize fs := by
  obtain ⟨hsize, fs', hfs', rfl⟩ := fragment_cons h
  obtain ⟨hhead, hcommand⟩ := command_byte command
  have hbytes := length_bytes payload.length
  rw [Nat.mod_eq_of_lt hshort] at hbytes
  -- whatever the assembler had before, the initial fragment starts anew
  have hall (a : Assembler) (ws : List Write)
      (hws : ws.map Write.value =
        initial command payload.length (payload.take (maxFragmentSize - 3)) :: fs') :
      (a.pushAll ws).2.map (Option.map Message.said) =
          List.replicate fs'.length none ++ [some ((command &&& 0x7f).toNat, payload)] ∧
        (a.pushAll ws).1.Ready := by
    obtain ⟨w, ws, rfl, hvalue, hws⟩ := List.map_eq_cons_iff.mp hws
    have hpush := push_initial (a := a) hvalue hhead
    rw [hbytes, hcommand] at hpush
    simp only [pushAll]
    by_cases hone : payload.drop (maxFragmentSize - 3) = []
    · -- the message fits the first fragment
      have htake : payload.take (maxFragmentSize - 3) = payload := by
        have := List.take_append_drop (maxFragmentSize - 3) payload
        rwa [hone, List.append_nil] at this
      rw [hone] at hfs'
      rw [continuations_nil hfs'] at hws ⊢
      obtain rfl : ws = [] := List.map_eq_nil_iff.mp hws
      rw [hpush, finish_whole rfl (by rw [htake])]
      refine ⟨?_, ready_reset _⟩
      simp [pushAll, Message.said, htake]
    · have hdrop : 0 < (payload.drop (maxFragmentSize - 3)).length := List.length_pos_iff.mpr hone
      have hlen : (payload.take (maxFragmentSize - 3)).length +
          (payload.drop (maxFragmentSize - 3)).length = payload.length := by
        rw [← List.length_append, List.take_append_drop]
      rw [hpush, finish_short (by dsimp only; omega)]
      have hrest := pushAll_continuations (a := ⟨(command &&& 0x7f).toNat, payload.length, 0, true,
          payload.take (maxFragmentSize - 3), [w]⟩) hfs' le_rfl hone rfl rfl hlen.symm hws
      have hcount := continuations_some hone hfs'
      refine ⟨?_, hrest.2⟩
      rw [List.map_cons, hrest.1]
      conv_rhs => rw [hcount, List.replicate_succ]
      rw [List.take_append_drop]
      rfl
  refine ⟨fun f hf => ?_, fun a ws hws => ?_, fun a ws hws => (hall a ws hws).2⟩
  · rcases List.mem_cons.mp hf with rfl | hf
    · simp only [initial, List.length_cons, List.length_take]
      omega
    · have := continuations_fit hfs' f hf
      omega
  · rw [List.length_cons, Nat.add_sub_cancel]
    exact (hall a ws hws).1

/-- What sixteen bits declare is all that is handed over. -/
theorem push_bounded (w : Write) (h : a.expected < 2 ^ 16) :
    (a.push w).1.expected < 2 ^ 16 ∧
      ∀ m, (a.push w).2 = some m → m.payload.length < 2 ^ 16 := by
  -- a message ends the round, and its length came in two bytes
  have hfinish (b : Assembler) (hb : b.expected < 2 ^ 16) :
      b.finish.1.expected < 2 ^ 16 ∧
        ∀ m, b.finish.2 = some m → m.payload.length < 2 ^ 16 := by
    unfold finish
    split
    · refine ⟨by show 0 < 2 ^ 16; decide, ?_⟩
      rintro m ⟨⟩
      rw [List.length_take]
      exact lt_of_le_of_lt (min_le_left _ _) hb
    · exact ⟨hb, fun m hm => by cases hm⟩
  unfold push
  split
  · exact ⟨h, fun m hm => by cases hm⟩
  · split
    · split
      · rename_i high low data _
        refine hfinish _ ?_
        have hhigh := high.toNat_lt
        have hlow := low.toNat_lt
        show high.toNat * 256 + low.toNat < 2 ^ 16
        omega
      · exact ⟨h, fun m hm => by cases hm⟩
    · split
      · exact ⟨by show 0 < 2 ^ 16; decide, fun m hm => by cases hm⟩
      · exact hfinish _ h

/-- No message that is handed over is longer. -/
theorem pushAll_bounded (ws : List Write) (h : a.expected < 2 ^ 16) :
    ∀ m, some m ∈ (a.pushAll ws).2 → m.payload.length < 2 ^ 16 := by
  induction ws generalizing a with
  | nil => exact fun m hm => by cases hm
  | cons w ws ih =>
    obtain ⟨hnext, hthis⟩ := push_bounded w h
    intro m hm
    rcases List.mem_cons.mp hm with hm | hm
    · exact hthis m hm.symm
    · exact ih hnext m hm

/-- Pushes with given values. -/
def written (fs : List (List UInt8)) : List Write :=
  fs.map fun f => ⟨"", .fido, f, 0, 0, none, true, true⟩

theorem map_written (fs : List (List UInt8)) : (written fs).map Write.value = fs := by
  rw [written, List.map_map]
  exact List.map_id fs

theorem Undone.short (h : Undone command payload maxFragmentSize fs) :
    payload.length < 2 ^ 16 := by
  have hwhole := h.whole {} (written fs) (map_written fs)
  have hlast : some ((command &&& 0x7f).toNat, payload) ∈
      ((({} : Assembler).pushAll (written fs)).2.map (Option.map Message.said)) := by
    rw [hwhole]
    simp
  obtain ⟨o, ho, hsaid⟩ := List.mem_map.mp hlast
  obtain ⟨m, rfl, hm⟩ := Option.map_eq_some_iff.mp hsaid
  have hpayload : m.payload = payload := (Prod.mk.inj hm).2
  rw [← hpayload]
  exact pushAll_bounded (written fs) (by decide) m ho

/-! ### What a message was made of -/

/-- The message was made of an initialisation fragment and the continuations 0, 1, 2... that came
right after it, the last of them just now. -/
def TakenFrom (ws : List Write) (m : Message) : Prop :=
  ∃ before init conts head high low data, ws = before ++ init :: conts ∧
    init.value = head :: high :: low :: data ∧ 0x80 ≤ head.toNat ∧
    conts.length ≤ 0x80 ∧
    (conts.map fun w => w.value.head?.map UInt8.toNat) = (List.range conts.length).map some ∧
    m.command = head.toNat % 0x80 ∧
    m.payload = (data ++ conts.flatMap fun w => w.value.drop 1).take
      (high.toNat * 256 + low.toNat) ∧
    m.payload.length = high.toNat * 256 + low.toNat

/-- The message under way is made of the last fragments pushed. -/
def Follows (ws : List Write) (a : Assembler) : Prop :=
  ∃ before init conts head high low data, ws = before ++ init :: conts ∧
    init.value = head :: high :: low :: data ∧ 0x80 ≤ head.toNat ∧
    conts.length ≤ 0x80 ∧
    (conts.map fun w => w.value.head?.map UInt8.toNat) = (List.range conts.length).map some ∧
    a.command = head.toNat % 0x80 ∧ a.expected = high.toNat * 256 + low.toNat ∧
    a.nextSeq = conts.length ∧ a.buffer = data ++ conts.flatMap fun w => w.value.drop 1

/-- Each message under way has just been pushed. -/
def Inv (ws : List Write) (a : Assembler) : Prop := a.inProgress = true → a.Follows ws

/-- What follows a message under way takes it to its end. -/
theorem Follows.finish {ws : List Write} (h : a.Follows ws) :
    Inv ws a.finish.1 ∧ ∀ m, a.finish.2 = some m → TakenFrom ws m := by
  obtain ⟨before, init, conts, head, high, low, data, rfl, hvalue, hhead, hcount, hconts, hcommand,
    hexpected, hseq, hbuffer⟩ := h
  unfold Assembler.finish
  split
  · rename_i hdone
    refine ⟨fun hrun => (by cases hrun), ?_⟩
    rintro m ⟨⟩
    refine ⟨before, init, conts, head, high, low, data, rfl, hvalue, hhead, hcount, hconts,
      hcommand, ?_, ?_⟩
    · rw [← hexpected, ← hbuffer]
    · rw [List.length_take, hexpected, min_eq_left (hexpected ▸ hdone.2)]
  · refine ⟨fun _ => ?_, fun m hm => by cases hm⟩
    exact ⟨before, init, conts, head, high, low, data, rfl, hvalue, hhead, hcount, hconts, hcommand,
      hexpected, hseq, hbuffer⟩

theorem Follows.extended {ws : List Write} (h : a.Follows ws) {b : UInt8} {data : List UInt8}
    (hvalue : w.value = b :: data) (hlow : b.toNat < 0x80) (hb : b.toNat = a.nextSeq) :
    (a.extended w data).Follows (ws ++ [w]) := by
  obtain ⟨before, init, conts, head, high, low, first, rfl, hinit, hhead, hcount, hconts, hcommand,
    hexpected, hseq, hbuffer⟩ := h
  refine ⟨before, init, conts ++ [w], head, high, low, first, by simp, hinit, hhead, ?_, ?_,
    hcommand, hexpected, ?_, ?_⟩
  · rw [List.length_append, List.length_singleton]
    omega
  · rw [List.map_append, hconts, List.length_append, List.length_singleton, List.range_succ,
      List.map_append]
    simp [hvalue, hb, hseq]
  · show a.nextSeq + 1 = _
    rw [hseq, List.length_append, List.length_singleton]
  · show a.buffer ++ data = _
    rw [hbuffer, List.flatMap_append]
    simp [hvalue]

/-- A push keeps it, if no fragment without its header comes while a message is under way. -/
theorem Inv.push {ws : List Write} (h : a.Inv ws)
    (hw : a.inProgress = true → w.headed = true) :
    Inv (ws ++ [w]) (a.push w).1 ∧ ∀ m, (a.push w).2 = some m → TakenFrom (ws ++ [w]) m := by
  -- a push that is dropped for want of its header leaves an idle assembler idle
  have hkeep (hcut : w.headed = false) :
      Inv (ws ++ [w]) a ∧ ∀ m, (none : Option Message) = some m → TakenFrom (ws ++ [w]) m := by
    refine ⟨fun hrun => ?_, fun m hm => by cases hm⟩
    rw [hw hrun] at hcut
    cases hcut
  unfold Assembler.push
  split
  · rename_i hnil
    exact hkeep (by rw [Write.headed, hnil])
  · rename_i head rest hvalue
    split
    · rename_i hinitial
      split
      · rename_i high low data
        refine Follows.finish ⟨ws, w, [], head, high, low, data, rfl, hvalue, hinitial, by simp,
          rfl, rfl, rfl, rfl, by simp⟩
      · rename_i hshort
        refine hkeep ?_
        rw [Write.headed, hvalue]
        rcases rest with - | ⟨x, - | ⟨y, rest⟩⟩
        · simpa using hinitial
        · simpa using hinitial
        · exact absurd rfl (hshort x y rest)
    · rename_i hlow
      split
      · exact ⟨fun hrun => (by cases hrun), fun m hm => by cases hm⟩
      · rename_i hnext
        simp only [Bool.or_eq_true, Bool.not_eq_true', bne_iff_ne, ne_eq, not_or, not_not] at hnext
        exact Follows.finish ((h (by simpa using hnext.1)).extended hvalue (by omega) hnext.2)

/-- The assembler after some pushes. -/
def after (ws : List Write) : Assembler := (({} : Assembler).pushAll ws).1

theorem pushAll_append (a : Assembler) (ws : List Write) (w : Write) :
    (a.pushAll (ws ++ [w])).1 = ((a.pushAll ws).1.push w).1 := by
  induction ws generalizing a with
  | nil => rfl
  | cons v ws ih => exact ih _

/-- Between the fragments of a message the invariant holds. -/
theorem inv_after {ws : List Write}
    (h : ∀ p w, p ++ [w] <+: ws → (after p).inProgress = true → w.headed = true) :
    (after ws).Inv ws := by
  induction ws using List.reverseRecOn with
  | nil => exact fun hrun => by cases hrun
  | append_singleton ws w ih =>
    have hbefore := ih fun p v hp => h p v (hp.trans (List.prefix_append ws [w]))
    rw [after, pushAll_append]
    exact (hbefore.push (h ws w (List.prefix_refl _))).1

/-! ### The result -/

/-- Assembling undoes fragmenting exactly for payloads whose length fits its sixteen bits; and where
no fragment without its header comes while a message is under way, each message is made of an
initialisation fragment and the continuations that directly followed it. -/
theorem assembling_undoes_fragmenting (command : UInt32) (payload : List UInt8)
    (maxFragmentSize : Nat) (ws : List Write) :
    (∀ fs, fragment command payload maxFragmentSize = some fs →
      (Undone command payload maxFragmentSize fs ↔ payload.length < 2 ^ 16)) ∧
    ((∀ p w, p ++ [w] <+: ws → (after p).inProgress = true → w.headed = true) →
      ∀ p w m, p ++ [w] <+: ws → ((after p).push w).2 = some m → TakenFrom (p ++ [w]) m) := by
  constructor
  · intro fs h
    exact ⟨Undone.short, undone_of_short h⟩
  · intro h p w m hp hm
    have hinv : (after p).Inv p := inv_after fun p' w' hp' =>
      h p' w' (hp'.trans ((List.prefix_append p [w]).trans hp))
    exact (hinv.push (h p w hp)).2 m hm

/-- A fragment as it is pushed. -/
def frag (value : List UInt8) : Write := ⟨"", .fido, value, 0, 0, none, true, true⟩

theorem assembling_undoes_fragmenting_once :
    Undone 0x83 [1, 2, 3, 4, 5] 4 [[0x83, 0, 5, 1], [0, 2, 3, 4], [1, 5]] ∧
      TakenFrom [frag [0x83, 0, 2, 1], frag [0, 2]]
        ⟨3, [1, 2], [frag [0x83, 0, 2, 1], frag [0, 2]]⟩ := by
  have hpairs : ∀ p w, p ++ [w] <+: [frag [0x83, 0, 2, 1], frag [0, 2]] → w.headed = true := by
    intro p w hp
    have hw : w ∈ [frag [0x83, 0, 2, 1], frag [0, 2]] := hp.subset (by simp)
    rcases List.mem_cons.mp hw with rfl | hw
    · rfl
    · rw [List.mem_singleton.mp hw]
      rfl
  obtain ⟨hround, htaken⟩ := assembling_undoes_fragmenting 0x83 [1, 2, 3, 4, 5] 4
    [frag [0x83, 0, 2, 1], frag [0, 2]]
  constructor
  · exact (hround _ (by decide)).mpr (by decide)
  · exact htaken (fun p w hp _ => hpairs p w hp) [frag [0x83, 0, 2, 1]] (frag [0, 2]) _
      (List.prefix_refl _) rfl

/-- 65536 bytes are fragmented and come back as none; and after a cut initialisation fragment the
message under way goes on with the next one's data. -/
theorem long_payload_comes_back_empty :
    (∃ fs, fragment 0x83 (List.replicate 65536 0) 517 = some fs ∧
      ¬ Undone 0x83 (List.replicate 65536 0) 517 fs) ∧
    ∃ m, ((after [frag [0x83, 0, 2, 1], frag [0x83, 0]]).push (frag [0, 2])).2 = some m ∧
      ¬ TakenFrom [frag [0x83, 0, 2, 1], frag [0x83, 0], frag [0, 2]] m := by
  constructor
  · have hlen : ((List.replicate 65536 (0 : UInt8)).drop (517 - 3)).length ≤ (517 - 1) * 0x80 := by
      rw [List.length_drop, List.length_replicate]
      decide
    -- 65536 bytes fit the fragments, but not the two bytes of the length
    obtain ⟨fs, hfs⟩ := exists_fragment 0x83 (by decide) hlen
    refine ⟨fs, hfs, fun h => ?_⟩
    have hshort := h.short
    rw [List.length_replicate] at hshort
    exact absurd hshort (by decide)
  · refine ⟨⟨3, [1, 2], [frag [0x83, 0, 2, 1], frag [0, 2]]⟩, rfl, ?_⟩
    rintro ⟨before, init, conts, head, high, low, data, hws, hvalue, hhead, -, hconts, -⟩
    rcases before with - | ⟨x, - | ⟨y, - | ⟨z, before⟩⟩⟩
    · -- the cut fragment is not continuation 0
      obtain ⟨-, rfl⟩ := List.cons.inj hws
      exact absurd hconts (by decide)
    · -- the cut fragment has no length
      obtain ⟨-, hws⟩ := List.cons.inj hws
      obtain ⟨rfl, -⟩ := List.cons.inj hws
      simp [frag] at hvalue
    · obtain ⟨-, hws⟩ := List.cons.inj hws
      obtain ⟨-, hws⟩ := List.cons.inj hws
      obtain ⟨rfl, -⟩ := List.cons.inj hws
      simp [frag] at hvalue
    · simp at hws

end Assembler

end OkRn.Gatt
