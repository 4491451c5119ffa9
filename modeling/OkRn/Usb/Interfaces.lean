/-
OkRn/Usb/Interfaces.lean

A hard key's interfaces, claimed in the order in which they are enumerated.

Each interface is claimed, asked for its report descriptor and kept under the number of
the interface it says it is.  One that will not be claimed or does not answer, a second
one that says it is the same, and a missing one that is required all end the opening,
and then nothing is kept.  `opens_iff` says of which devices the opening succeeds; the
order does not come into it, nor into which interface is kept under which number:
`opens_whatever_the_order`.

What `claimAll` keeps is a filter of the device's interfaces, so both results are about
lists: the first says when it goes through, the second that a permutation has the same
interfaces under the same numbers.
-/
import OkRn.Usb.Descriptors
import Mathlib.Data.List.Perm.Basic
import Mathlib.Data.List.Nodup

namespace OkRn.Usb

/-! ### A device -/

/-- One endpoint of an interface. -/
structure Endpoint where
  input : Bool
  maxPacketSize : Nat
  deriving DecidableEq

/-- An interface as Android enumerates it, with what it answers. -/
structure UsbInterface where
  id : Nat
  hid : Bool
  /-- The kernel lets it go. -/
  claims : Bool
  /-- The bytes a report-descriptor request gives; none when it is not answered. -/
  descriptor : List UInt8
  endpoints : List Endpoint
  deriving DecidableEq

/-- An interface that is kept, as what it is. -/
structure Claimed where
  spec : IfaceSpec
  usbInterface : UsbInterface
  inEndpoint : Option Endpoint
  outEndpoint : Option Endpoint
  deriving DecidableEq

/-- Why an opening ends. -/
inductive OpenError
  | notReleased (id : Nat)
  | noDescriptor (id : Nat)
  | twice (first second iface : Nat)
  | missing (ifaces : List Nat)
  deriving DecidableEq

/-- `claimed` and `open`. -/
structure Transport where
  claimed : List UsbInterface := []
  opened : List Claimed := []

namespace UsbInterface

variable (ui : UsbInterface)

/-- What the interface says it is. -/
def identified : Option IfaceSpec :=
  let found := parseUsage ui.descriptor ui.descriptor.length
  identify found.1 found.2

/-- An interface kept for what it says it is, with its first endpoint each way. -/
def asClaimed (spec : IfaceSpec) : Claimed where
  spec := spec
  usbInterface := ui
  inEndpoint := ui.endpoints.find? (·.input)
  outEndpoint := ui.endpoints.find? fun e => !e.input

end UsbInterface

/-! ### Opening -/

namespace Transport

/-- The one kept under a number. -/
def find (t : Transport) (iface : Nat) : Option Claimed :=
  t.opened.find? fun c => c.spec.iface = iface

/-- One round of the loop over a device's interfaces. -/
def claimOne (t : Transport) (ui : UsbInterface) : Transport × Option OpenError :=
  if !ui.hid then (t, none)
  else if !ui.claims then (t, some (.notReleased ui.id))
  else
    let held := { t with claimed := t.claimed ++ [ui] }
    if ui.descriptor = [] then (held, some (.noDescriptor ui.id))
    else match ui.identified with
      -- not ours: it is released again
      | none => (t, none)
      | some spec =>
        match t.find spec.iface with
        | some first => (held, some (.twice first.usbInterface.id ui.id spec.iface))
        | none => ({ held with opened := t.opened ++ [ui.asClaimed spec] }, none)

/-- The loop; an error ends it. -/
def claimAll (t : Transport) : List UsbInterface → Transport × Option OpenError
  | [] => (t, none)
  | ui :: uis =>
    match t.claimOne ui with
    | (t, some e) => (t, some e)
    | (t, none) => claimAll t uis

/-- The required interfaces that are not there. -/
def lacking (t : Transport) : List Nat :=
  (all.filter fun spec => spec.required && (t.find spec.iface).isNone).map (·.iface)

/-- `open`, of a device found and allowed. -/
def openDevice (uis : List UsbInterface) : Transport × Option OpenError :=
  match claimAll {} uis with
  | (_, some e) => ({}, some e)
  | (t, none) => if t.lacking = [] then (t, none) else ({}, some (.missing t.lacking))

end Transport

/-! ### Which devices open -/

/-- What an interface is kept as. -/
def kept (ui : UsbInterface) : Option Claimed :=
  if ui.hid then ui.identified.map ui.asClaimed else none

/-- Every HID interface can be claimed and answers. -/
def Answers (uis : List UsbInterface) : Prop :=
  ∀ ui ∈ uis, ui.hid = true → ui.claims = true ∧ ui.descriptor ≠ []

/-- No two interfaces say they are the same. -/
def Different (cs : List Claimed) : Prop := (cs.map fun c => c.spec.iface).Nodup

section Opening

open Transport

variable {t : Transport} {ui : UsbInterface} {uis uis' : List UsbInterface}

/-- None is kept under a number that no one has. -/
theorem find_eq_none {cs : List Claimed} {iface : Nat} :
    cs.find? (fun c => c.spec.iface = iface) = none ↔ iface ∉ cs.map fun c => c.spec.iface := by
  simp [List.find?_eq_none]

theorem not_different {cs rest : List Claimed} {c : Claimed}
    (h : c.spec.iface ∈ cs.map fun c => c.spec.iface) : ¬ Different (cs ++ c :: rest) := by
  intro hdiff
  rw [Different, List.map_append, List.map_cons] at hdiff
  exact (List.nodup_append.mp hdiff).2.2 _ h _ List.mem_cons_self rfl

/-- A new number keeps them different. -/
theorem Different.concat {cs : List Claimed} {c : Claimed} (h : Different cs)
    (hnew : c.spec.iface ∉ cs.map fun c => c.spec.iface) : Different (cs ++ [c]) := by
  rw [Different, List.map_append, List.map_singleton]
  refine List.nodup_append.mpr ⟨h, List.nodup_singleton _, fun a ha b hb => ?_⟩
  rw [List.mem_singleton.mp hb]
  rintro rfl
  exact hnew ha

/-- What is kept of an interface that answers. -/
theorem kept_of_answers (hhid : ui.hid = true) : kept ui = ui.identified.map ui.asClaimed :=
  if_pos hhid

/-- Claiming goes through exactly when each HID interface answers and no two are the same. -/
theorem claimAll_spec (t : Transport) (ht : Different t.opened) (uis : List UsbInterface) :
    ((claimAll t uis).2 = none ↔ Answers uis ∧ Different (t.opened ++ uis.filterMap kept)) ∧
    ((claimAll t uis).2 = none → (claimAll t uis).1.opened = t.opened ++ uis.filterMap kept) := by
  induction uis generalizing t with
  | nil =>
    refine ⟨⟨fun _ => ⟨fun ui h => (nomatch h), ?_⟩, fun _ => rfl⟩, fun _ => ?_⟩
    · rw [List.filterMap_nil, List.append_nil]
      exact ht
    · rw [List.filterMap_nil, List.append_nil]
      rfl
  | cons ui uis ih =>
    have hanswers (h : Answers (ui :: uis)) : Answers uis := fun v hv =>
      h v (List.mem_cons_of_mem ui hv)
    -- the interface is passed over
    have hpass (hkept : kept ui = none)
        (hui : ui.hid = true → ui.claims = true ∧ ui.descriptor ≠ [])
        (hone : t.claimOne ui = (t, none)) :
        ((claimAll t (ui :: uis)).2 = none ↔
          Answers (ui :: uis) ∧ Different (t.opened ++ (ui :: uis).filterMap kept)) ∧
        ((claimAll t (ui :: uis)).2 = none →
          (claimAll t (ui :: uis)).1.opened = t.opened ++ (ui :: uis).filterMap kept) := by
      rw [List.filterMap_cons_none hkept, claimAll, hone]
      refine ⟨(ih t ht).1.trans (and_congr_left' ⟨fun h v hv => ?_, hanswers⟩), (ih t ht).2⟩
      rcases List.mem_cons.mp hv with rfl | hv
      · exact hui
      · exact h v hv
    -- the interface ends the claiming
    have hfail (e : OpenError) (held : Transport) (hone : t.claimOne ui = (held, some e))
        (hno : ¬ (Answers (ui :: uis) ∧ Different (t.opened ++ (ui :: uis).filterMap kept))) :
        ((claimAll t (ui :: uis)).2 = none ↔
          Answers (ui :: uis) ∧ Different (t.opened ++ (ui :: uis).filterMap kept)) ∧
        ((claimAll t (ui :: uis)).2 = none →
          (claimAll t (ui :: uis)).1.opened = t.opened ++ (ui :: uis).filterMap kept) := by
      rw [claimAll, hone]
      exact ⟨⟨fun h => (nomatch h), fun h => absurd h hno⟩, fun h => (nomatch h)⟩
    cases hhid : ui.hid with
    | false =>
      exact hpass (by simp [kept, hhid]) (fun h => by rw [hhid] at h; cases h)
        (by simp [claimOne, hhid])
    | true =>
      cases hclaims : ui.claims with
      | false =>
        refine hfail (.notReleased ui.id) t (by simp [claimOne, hhid, hclaims]) fun h => ?_
        have := (h.1 ui List.mem_cons_self hhid).1
        rw [hclaims] at this
        cases this
      | true =>
        by_cases hdescriptor : ui.descriptor = []
        · refine hfail (.noDescriptor ui.id) ⟨t.claimed ++ [ui], t.opened⟩
            (by simp [claimOne, hhid, hclaims, hdescriptor]) fun h => ?_
          exact (h.1 ui List.mem_cons_self hhid).2 hdescriptor
        · have hui : ui.hid = true → ui.claims = true ∧ ui.descriptor ≠ [] :=
            fun _ => ⟨hclaims, hdescriptor⟩
          cases hspec : ui.identified with
          | none =>
            exact hpass (by rw [kept_of_answers hhid, hspec]; rfl) hui
              (by simp [claimOne, hhid, hclaims, hdescriptor, hspec])
          | some spec =>
            have hkept : kept ui = some (ui.asClaimed spec) := by
              rw [kept_of_answers hhid, hspec]
              rfl
            cases hfind : t.find spec.iface with
            | some first =>
              refine hfail (.twice first.usbInterface.id ui.id spec.iface)
                ⟨t.claimed ++ [ui], t.opened⟩
                (by simp [claimOne, hhid, hclaims, hdescriptor, hspec, hfind]) fun h => ?_
              rw [List.filterMap_cons_some hkept] at h
              refine not_different (by_contra fun hnot => ?_) h.2
              have hnone : t.find spec.iface = none := find_eq_none.mpr hnot
              rw [hnone] at hfind
              cases hfind
            | none =>
              have hnew : Different (t.opened ++ [ui.asClaimed spec]) :=
                ht.concat (find_eq_none.mp hfind)
              have hone : t.claimOne ui =
                  (⟨t.claimed ++ [ui], t.opened ++ [ui.asClaimed spec]⟩, none) := by
                simp [claimOne, hhid, hclaims, hdescriptor, hspec, hfind]
              obtain ⟨hiff, hopened⟩ := ih ⟨t.claimed ++ [ui], t.opened ++ [ui.asClaimed spec]⟩ hnew
              rw [claimAll, hone, List.filterMap_cons_some hkept]
              simp only [List.append_assoc, List.singleton_append] at hiff hopened
              refine ⟨hiff.trans (and_congr_left' ⟨fun h v hv => ?_, hanswers⟩), hopened⟩
              rcases List.mem_cons.mp hv with rfl | hv
              · exact hui
              · exact h v hv

/-- The required interfaces of the table are among those kept. -/
def Complete (cs : List Claimed) : Prop :=
  ∀ spec ∈ all, spec.required = true → spec.iface ∈ cs.map fun c => c.spec.iface

/-- Nothing is lacking when every required one is there. -/
theorem lacking_iff (t : Transport) : t.lacking = [] ↔ Complete t.opened := by
  rw [lacking, List.map_eq_nil_iff, List.filter_eq_nil_iff]
  refine forall₂_congr fun spec _ => ?_
  rw [Bool.and_eq_true, not_and, Transport.find, Option.isNone_iff_eq_none, find_eq_none, not_not]

/-- A device opens exactly when all its HID interfaces answer, no two say they are the same, and
the required ones are there. -/
theorem opens_iff (uis : List UsbInterface) :
    ((openDevice uis).2 = none ↔
      Answers uis ∧ Different (uis.filterMap kept) ∧ Complete (uis.filterMap kept)) ∧
    (openDevice uis).1.opened = if (openDevice uis).2 = none then uis.filterMap kept else [] := by
  obtain ⟨hiff, hopened⟩ := claimAll_spec {} List.nodup_nil uis
  simp only [List.nil_append] at hiff hopened
  unfold openDevice
  cases hclaim : claimAll {} uis with
  | mk t error =>
    rw [hclaim] at hiff hopened
    cases error with
    | some e =>
      refine ⟨⟨fun h => (nomatch h), fun h => ?_⟩, rfl⟩
      exact (nomatch hiff.mpr ⟨h.1, h.2.1⟩)
    | none =>
      have hopened : t.opened = uis.filterMap kept := hopened rfl
      have hlack := lacking_iff t
      rw [hopened] at hlack
      simp only
      split
      · rename_i hnone
        refine ⟨⟨fun _ => ?_, fun _ => rfl⟩, ?_⟩
        · exact ⟨(hiff.mp rfl).1, (hiff.mp rfl).2, hlack.mp hnone⟩
        · rw [if_pos rfl, hopened]
      · rename_i hsome
        refine ⟨⟨fun h => (nomatch h), fun h => absurd (hlack.mpr h.2.2) hsome⟩, ?_⟩
        rw [if_neg (fun h => (nomatch h))]

/-- Under a number there is at most one. -/
theorem Different.find_iff {cs : List Claimed} (h : Different cs) {iface : Nat} {c : Claimed} :
    cs.find? (fun c => c.spec.iface = iface) = some c ↔ c ∈ cs ∧ c.spec.iface = iface := by
  constructor
  · intro hfind
    exact ⟨List.mem_of_find?_eq_some hfind, by simpa using List.find?_some hfind⟩
  · rintro ⟨hmem, rfl⟩
    cases hfind : cs.find? (fun d => d.spec.iface = c.spec.iface) with
    | none => exact absurd (List.mem_map_of_mem hmem) (find_eq_none.mp hfind)
    | some d =>
      have hd : d.spec.iface = c.spec.iface := by simpa using List.find?_some hfind
      rw [List.inj_on_of_nodup_map h (List.mem_of_find?_eq_some hfind) hmem hd]

/-- What is identified is in the table, with its own usage. -/
theorem identify_spec {page usage : Option UInt32} {spec : IfaceSpec}
    (h : identify page usage = some spec) :
    spec ∈ all ∧ page = some spec.usagePage ∧ usage = some spec.usage := by
  have hfound := List.find?_some h
  simp only [decide_eq_true_eq] at hfound
  exact ⟨List.mem_of_find?_eq_some h, hfound.1.symm, hfound.2.symm⟩

/-- What is kept is one of the device's HID interfaces, as the entry of the table whose usage
page and usage its descriptor gives. -/
theorem kept_spec {c : Claimed} (h : kept ui = some c) :
    c.usbInterface = ui ∧ ui.hid = true ∧ c.spec ∈ all ∧
      parseUsage ui.descriptor ui.descriptor.length =
        (some c.spec.usagePage, some c.spec.usage) := by
  unfold kept at h
  split at h
  · rename_i hhid
    obtain ⟨spec, hspec, rfl⟩ := Option.map_eq_some_iff.mp h
    obtain ⟨hmem, hpage, husage⟩ := identify_spec hspec
    exact ⟨rfl, hhid, hmem, Prod.ext hpage husage⟩
  · cases h

/-- In whatever order a device enumerates its interfaces, it opens or does not, and each of the
numbers means the same interface: the one whose descriptor says so. -/
theorem opens_whatever_the_order (h : uis.Perm uis') :
    ((openDevice uis).2 = none ↔
      Answers uis ∧ Different (uis.filterMap kept) ∧ Complete (uis.filterMap kept)) ∧
    ((openDevice uis).2 = none ↔ (openDevice uis').2 = none) ∧
    (∀ iface, (openDevice uis).1.find iface = (openDevice uis').1.find iface) ∧
    ∀ iface c, (openDevice uis).1.find iface = some c →
      c.usbInterface ∈ uis ∧ c.spec ∈ all ∧ c.spec.iface = iface ∧
      parseUsage c.usbInterface.descriptor c.usbInterface.descriptor.length =
        (some c.spec.usagePage, some c.spec.usage) := by
  -- what is kept of the one order is a permutation of what is kept of the other
  have hperm : (uis.filterMap kept).Perm (uis'.filterMap kept) := h.filterMap kept
  have hifaces := hperm.map fun c => c.spec.iface
  have hiff : (openDevice uis).2 = none ↔ (openDevice uis').2 = none := by
    rw [(opens_iff uis).1, (opens_iff uis').1]
    refine and_congr ?_ (and_congr hifaces.nodup_iff ?_)
    · exact forall_congr' fun ui => by rw [h.mem_iff]
    · exact forall₃_congr fun spec _ _ => hifaces.mem_iff
  refine ⟨(opens_iff uis).1, hiff, fun iface => ?_, fun iface c hfind => ?_⟩
  · rw [Transport.find, Transport.find, (opens_iff uis).2, (opens_iff uis').2]
    by_cases hopen : (openDevice uis).2 = none
    · rw [if_pos hopen, if_pos (hiff.mp hopen)]
      have hdiff := ((opens_iff uis).1.mp hopen).2.1
      have hdiff' := ((opens_iff uis').1.mp (hiff.mp hopen)).2.1
      ext c
      rw [hdiff.find_iff, hdiff'.find_iff, hperm.mem_iff]
    · rw [if_neg hopen, if_neg fun h => hopen (hiff.mpr h)]
  · rw [Transport.find, (opens_iff uis).2] at hfind
    split at hfind
    · have hmem := List.mem_of_find?_eq_some hfind
      have hiface : c.spec.iface = iface := by simpa using List.find?_some hfind
      obtain ⟨ui, hui, hkept⟩ := List.mem_filterMap.mp hmem
      obtain ⟨rfl, -, hspec, hparsed⟩ := kept_spec hkept
      exact ⟨hui, hspec, hiface, hparsed⟩
    · cases hfind

/-- A key with the three interfaces of a production build. -/
def productionKey : List UsbInterface :=
  [⟨0, true, true, [0x05, 0x01, 0x09, 0x06, 0xA1, 0x01], [⟨true, 8⟩]⟩,
    ⟨1, true, true, [0x06, 0xD0, 0xF1, 0x09, 0x01, 0xA1, 0x01], [⟨true, 64⟩, ⟨false, 64⟩]⟩,
    ⟨2, true, true, [0x06, 0xAB, 0xFF, 0x0A, 0x02, 0x00, 0xA1, 0x01], [⟨true, 64⟩, ⟨false, 64⟩]⟩]

/-- A production key, enumerated from its end. -/
theorem opens_whatever_the_order_production :
    let turned := productionKey.reverse
    ((openDevice productionKey).2 = none ↔ Answers productionKey ∧
      Different (productionKey.filterMap kept) ∧ Complete (productionKey.filterMap kept)) ∧
    ((openDevice productionKey).2 = none ↔ (openDevice turned).2 = none) ∧
    (∀ iface, (openDevice productionKey).1.find iface = (openDevice turned).1.find iface) ∧
    ∀ iface c, (openDevice productionKey).1.find iface = some c →
      c.usbInterface ∈ productionKey ∧ c.spec ∈ all ∧ c.spec.iface = iface ∧
      parseUsage c.usbInterface.descriptor c.usbInterface.descriptor.length =
        (some c.spec.usagePage, some c.spec.usage) :=
  opens_whatever_the_order (List.reverse_perm productionKey).symm

end Opening

end OkRn.Usb
