/-
  ModelCatalog/Proofs/Validation/Refusals.lean
  ============================================
  **What a leaf refuses.**

  `Leaf.Refuses` says what can be wrong with what is given for a leaf, at which place
  below it and as which kind of violation; the readers are not mentioned, and a number is
  the one that is denoted.  What a policy charges to a leaf is what the leaf refuses
  (`refuses_of_mem`), and all of it (`charges_of_refuses`).  A number is refused for being
  too small, and a count exactly if it is not a whole number within its bounds
  (`findings_number_of_denotes`, `findings_count_of_denotes`): all doubles that a value
  denotes are one number.
-/
import ModelCatalog.Proofs.Validation.Certainty
import ModelCatalog.Proofs.Validation.Denotation

namespace ModelCatalog

/-- Held against an input by a policy, and not for the order of bounds. -/
def Fault.Charged (p : Policy) (fault : Fault) : Prop :=
  fault.counts p = true ∧ ¬ fault.IsOrder

theorem Fault.Certain.charged {p : Policy} {fault : Fault} (h : fault.Certain) :
    fault.Charged p :=
  ⟨h p, Fault.Plain.not_order (Or.inr h)⟩

namespace Validation

open Survey

variable {p : Policy}

/-! ### Charges -/

/-- Something is charged at a place, as a kind of violation. -/
def Charges (p : Policy) (found : List Finding) (place : Location) (kind : ViolationKind) : Prop :=
  ∃ f ∈ found, f.fault.Charged p ∧ f.location = place ∧ f.fault.kind = kind

theorem Charges.of_certain {found : List Finding} {f : Finding} (hf : f ∈ found)
    (h : f.fault.Certain) : Charges p found f.location f.fault.kind :=
  ⟨f, hf, h.charged, rfl, rfl⟩

theorem Charges.of_eq_singleton {found : List Finding} {f : Finding} (hfound : found = [f])
    (h : f.fault.Charged p) : Charges p found f.location f.fault.kind := by
  rw [hfound]
  exact ⟨f, List.mem_singleton_self f, h, rfl, rfl⟩

/-- What is charged behind a step is charged one step further from the root. -/
theorem Charges.under {found found' : List Finding} {s : Segment} {place : Location}
    {kind : ViolationKind} (h : Charges p found place kind)
    (hmem : ∀ f ∈ found, f.under s ∈ found') : Charges p found' (s :: place) kind := by
  obtain ⟨f, hf, hcharged, hplace, hkind⟩ := h
  refine ⟨f.under s, hmem f hf, hcharged, ?_, hkind⟩
  rw [Finding.location_under, hplace]

/-! ### Refusals -/

/-- The kind of value that a leaf should be; a leaf without one is a number. -/
def Leaf.kind? : Leaf → Option Json.Kind
  | .identifier | .text | .requiredText | .alternative _ => some .string
  | .flag => some .boolean
  | .texts => some .list
  | .number _ | .count _ => none

/-- What is given for a leaf is at fault, at a place below the field and with a kind of
    violation. -/
inductive Leaf.Refuses (p : Policy) : Leaf → Option Json → Location → ViolationKind → Prop
  | unidentified (hp : p.identifiers = .strict) : Refuses p .identifier none [] .shape
  | unnamed : Refuses p .identifier (some (.string "")) [] .shape
  | blank {s : String} (hp : p.identifiers = .strict) (hs : s ≠ "")
      (hblank : Text.isAllBlank s = true) : Refuses p .identifier (some (.string s)) [] .shape
  | missing : Refuses p .requiredText none [] .shape
  | unlike {l : Leaf} {kind : Json.Kind} {v : Json} (hl : l.kind? = some kind)
      (hv : v.kind ≠ kind) : Refuses p l (some v) [] .shape
  | item {items : List Json} {i : Nat} {v : Json} (hi : items[i]? = some v)
      (hv : v.kind ≠ .string) : Refuses p .texts (some (.array items)) [.index i] .shape
  | nameless {names : List String} {s : String} (hs : s ∉ names) :
      Refuses p (.alternative names) (some (.string s)) [] .enumeration
  | unreadable {l : Leaf} {v : Json} (hl : l.kind? = none)
      (hv : ∀ x, Denotes v x → x.isFinite = false) : Refuses p l (some v) [] .shape
  | below {least : Nat} {v : Json} {x : Double} (h : Denotes v x) (hx : x.isFinite = true)
      (hlt : x.value < least) : Refuses p (.number least) (some v) [] .range
  | outside {least : Nat} {v : Json} {x : Double} (h : Denotes v x) (hx : x.isFinite = true)
      (hn : ¬ x.IsCount least) : Refuses p (.count least) (some v) [] .range

/-- The least number that a leaf takes. -/
def Leaf.least : Leaf → Nat
  | .number least | .count least => least
  | _ => 0

theorem Part.least_le_one (q : Part) :
    ∀ name l, (name, Form.leaf l) ∈ q.fields → l.least ≤ 1 := by
  cases q <;> simp +contextual [Part.fields, Leaf.least, or_imp]

/-! ### What is found with a number -/

section Numbers

variable {least : Nat} {v : Json} {x y : Double} {z : ℤ}

/-- A value that is read as no number is at fault as a whole. -/
theorem findings_unreadable {l : Leaf} (hl : l.kind? = none) (hv : double? v = none) :
    l.findings (some v) = [⟨[], .expected .number v.kind⟩] := by
  cases l with
  | number | count => simp [Leaf.findings, number, count, hv]
  | _ => simp [Leaf.kind?] at hl

/-- A number that is too small is at fault, and no other is. -/
theorem findings_number_of_denotes (hleast : least ≤ 1) (h : Denotes v x)
    (hx : x.isFinite = true) :
    (Leaf.number least).findings (some v) =
      if x.value < least then [⟨[], .tooSmall least⟩] else [] := by
  obtain ⟨y, hread, hfinite, hvalue⟩ := h.double?_eq_some hx
  rw [hx] at hfinite
  rw [← hvalue hfinite]
  by_cases hlt : y.value < least
  · have hbelow : y.lt (.ofNat least) = true := (Double.lt_ofNat_iff_value hfinite hleast).mpr hlt
    simp [Leaf.findings, number, hread, hbelow, hlt]
  · have hbelow := Double.not_lt_ofNat hfinite hleast (not_lt.mp hlt)
    simp [Leaf.findings, number, hread, hbelow, hlt]

theorem findings_count_below (hread : double? v = some y) (hleast : least ≤ 1)
    (hlt : y.value < least) :
    (Leaf.count least).findings (some v) = [⟨[], .tooSmall least⟩] := by
  have hbelow : y.lt (.ofNat least) = true :=
    (Double.lt_ofNat_iff_value (isFinite_of_double? hread) hleast).mpr hlt
  simp [Leaf.findings, count, hread, hbelow]

theorem findings_count_fraction (hread : double? v = some y) (hleast : least ≤ 1)
    (hle : least ≤ y.value) (hwhole : ¬ ∃ z : ℤ, y.value = z) :
    (Leaf.count least).findings (some v) = [⟨[], .notWhole⟩] := by
  have hbelow := Double.not_lt_ofNat (isFinite_of_double? hread) hleast hle
  cases hnatural : y.natural? with
  | none => simp [Leaf.findings, count, hread, hbelow, hnatural]
  | some n => exact absurd ⟨n, (Double.natural?_eq_some_iff.mp hnatural).2⟩ hwhole

theorem findings_count_whole (hread : double? v = some y) (hleast : least ≤ 1)
    (hle : least ≤ y.value) (hz : y.value = z) :
    (Leaf.count least).findings (some v) =
      if z ≤ 4294967295 then [] else [⟨[], .tooLarge⟩] := by
  have hbelow := Double.not_lt_ofNat (isFinite_of_double? hread) hleast hle
  obtain ⟨n, hnatural, rfl⟩ := Double.exists_natural? (isFinite_of_double? hread) hz hle
  have hsize : n < UInt32.size ↔ (n : ℤ) ≤ 4294967295 := by
    change n < 4294967296 ↔ _
    omega
  by_cases hmax : (n : ℤ) ≤ 4294967295
  · simp [Leaf.findings, count, hread, hbelow, hnatural, hsize.mpr hmax, hmax]
  · simp [Leaf.findings, count, hread, hbelow, hnatural, mt hsize.mp hmax, hmax]

/-- **Nothing is found with a count, and one thing with any other double.** -/
theorem findings_count_of_denotes (hleast : least ≤ 1) (h : Denotes v x) :
    (x.IsCount least → (Leaf.count least).findings (some v) = []) ∧
    (¬ x.IsCount least → ∃ fault, (Leaf.count least).findings (some v) = [⟨[], fault⟩] ∧
      fault.kind = if x.isFinite then .range else .shape) := by
  cases hfinite : x.isFinite with
  | false =>
    constructor
    · intro hcount
      have hcontra := hcount.finite.symm.trans hfinite
      cases hcontra
    · intro _
      have hfound := findings_unreadable (l := .count least) rfl (h.double?_eq_none hfinite)
      exact ⟨_, hfound, rfl⟩
  | true =>
    obtain ⟨y, hread, -, hvalue⟩ := h.double?_eq_some hfinite
    replace hvalue := hvalue (isFinite_of_double? hread)
    constructor
    · intro hcount
      obtain ⟨z, hz⟩ := hcount.whole
      have hle : least ≤ y.value := hvalue ▸ hcount.least_le
      have hmax : z ≤ 4294967295 := by
        have hmax := hcount.le_max
        rw [hz] at hmax
        exact_mod_cast hmax
      rw [findings_count_whole hread hleast hle (hvalue.trans hz), if_pos hmax]
    · intro hcount
      by_cases hlt : y.value < least
      · exact ⟨_, findings_count_below hread hleast hlt, rfl⟩
      have hle := not_lt.mp hlt
      by_cases hwhole : ∃ z : ℤ, y.value = z
      · obtain ⟨z, hz⟩ := hwhole
        have hmax : ¬ z ≤ 4294967295 := by
          intro hmax
          refine hcount ⟨hfinite, ⟨z, hvalue ▸ hz⟩, hvalue ▸ hle, ?_⟩
          rw [← hvalue, hz]
          exact_mod_cast hmax
        have hfound := findings_count_whole hread hleast hle hz
        rw [if_neg hmax] at hfound
        exact ⟨_, hfound, rfl⟩
      · exact ⟨_, findings_count_fraction hread hleast hle hwhole, rfl⟩

end Numbers

/-! ### What is charged is refused -/

theorem findings_unlike {l : Leaf} {kind : Json.Kind} {v : Json} (hl : l.kind? = some kind)
    (hv : v.kind ≠ kind) : ∃ what, l.findings (some v) = [⟨[], .expected what v.kind⟩] := by
  cases l with
  | number | count => simp [Leaf.kind?] at hl
  | _ =>
    cases hl
    cases v <;> first | exact absurd rfl hv | exact ⟨_, rfl⟩

theorem exists_string {v : Json} (h : v.kind = .string) : ∃ s, v = .string s := by
  cases v with
  | string s => exact ⟨s, rfl⟩
  | _ => simp [Json.kind] at h

theorem refuses_of_mem_number {least : Nat} (hleast : least ≤ 1) {v : Json} {f : Finding}
    (hf : f ∈ (Leaf.number least).findings (some v)) :
    (Leaf.number least).Refuses p (some v) f.location f.fault.kind := by
  cases hread : double? v with
  | none =>
    rw [findings_unreadable rfl hread] at hf
    rw [List.mem_singleton.mp hf]
    exact .unreadable rfl (double?_eq_none_iff.mp hread)
  | some x =>
    have h := Denotes.of_double? hread
    have hx := isFinite_of_double? hread
    rw [findings_number_of_denotes hleast h hx] at hf
    split_ifs at hf with hlt
    · rw [List.mem_singleton.mp hf]
      exact .below h hx hlt
    · simp at hf

theorem refuses_of_mem_count {least : Nat} (hleast : least ≤ 1) {v : Json} {f : Finding}
    (hf : f ∈ (Leaf.count least).findings (some v)) :
    (Leaf.count least).Refuses p (some v) f.location f.fault.kind := by
  cases hread : double? v with
  | none =>
    rw [findings_unreadable rfl hread] at hf
    rw [List.mem_singleton.mp hf]
    exact .unreadable rfl (double?_eq_none_iff.mp hread)
  | some x =>
    have h := Denotes.of_double? hread
    have hx := isFinite_of_double? hread
    obtain ⟨hnone, hone⟩ := findings_count_of_denotes hleast h
    by_cases hcount : x.IsCount least
    · simp [hnone hcount] at hf
    · obtain ⟨fault, hfound, hkind⟩ := hone hcount
      rw [if_pos hx] at hkind
      rw [hfound] at hf
      rw [List.mem_singleton.mp hf]
      exact hkind ▸ .outside h hx hcount

theorem refuses_of_mem_identifier {s : String} {f : Finding}
    (hf : f ∈ Leaf.identifier.findings (some (.string s))) (hcounts : f.fault.counts p = true) :
    Leaf.identifier.Refuses p (some (.string s)) f.location f.fault.kind := by
  simp only [Leaf.findings, identifier] at hf
  split at hf
  · rename_i hempty
    rw [List.mem_singleton.mp hf, String.isEmpty_iff.mp hempty]
    exact .unnamed
  · rename_i hne
    split at hf
    · rename_i hblank
      rw [List.mem_singleton.mp hf] at hcounts ⊢
      have hp : p.identifiers = .strict := by simpa [Fault.counts] using hcounts
      exact .blank hp (mt String.isEmpty_iff.mpr hne) hblank
    · simp at hf

theorem refuses_of_mem_texts {items : List Json} {f : Finding}
    (hf : f ∈ Leaf.texts.findings (some (.array items))) :
    Leaf.texts.Refuses p (some (.array items)) f.location f.fault.kind := by
  simp only [Leaf.findings, texts, findings_textItems] at hf
  obtain ⟨b, hb, f', hf', rfl⟩ := mem_gather.mp hf
  obtain ⟨⟨v, i⟩, he, rfl⟩ := List.mem_map.mp hb
  have hi : items[i]? = some v := List.mem_zipIdx_iff_getElem?.mp he
  simp only [itemFindings] at hf'
  split at hf'
  · simp at hf'
  · rename_i hkind
    rw [List.mem_singleton.mp hf']
    exact .item hi hkind

/-- **What counts against a leaf is a fault of what is given for it.** -/
theorem refuses_of_mem {l : Leaf} (hleast : l.least ≤ 1) {v : Option Json} {f : Finding}
    (hf : f ∈ l.findings v) (hcounts : f.fault.counts p = true) :
    l.Refuses p v f.location f.fault.kind := by
  rcases v with _ | v
  · cases l with
    | identifier =>
      rw [List.mem_singleton.mp hf] at hcounts ⊢
      exact .unidentified (by simpa [Fault.counts] using hcounts)
    | requiredText =>
      rw [List.mem_singleton.mp hf]
      exact .missing
    | _ => simp [Leaf.findings, text, flag, texts, number, count] at hf
  rcases hl : l.kind? with _ | kind
  · cases l with
    | number least => exact refuses_of_mem_number hleast hf
    | count least => exact refuses_of_mem_count hleast hf
    | _ => simp [Leaf.kind?] at hl
  by_cases hv : v.kind = kind
  · cases l with
    | number | count => simp [Leaf.kind?] at hl
    | identifier =>
      cases hl
      obtain ⟨s, rfl⟩ := exists_string hv
      exact refuses_of_mem_identifier hf hcounts
    | alternative names =>
      cases hl
      obtain ⟨s, rfl⟩ := exists_string hv
      by_cases hs : s ∈ names
      · simp [Leaf.findings, hs] at hf
      · simp only [Leaf.findings, hs, if_false] at hf
        rw [List.mem_singleton.mp hf]
        exact .nameless hs
    | text | requiredText =>
      cases hl
      obtain ⟨s, rfl⟩ := exists_string hv
      simp [Leaf.findings, text, requiredText] at hf
    | flag =>
      cases hl
      cases v with
      | bool b => simp [Leaf.findings, flag] at hf
      | _ => simp [Json.kind] at hv
    | texts =>
      cases hl
      cases v with
      | array items => exact refuses_of_mem_texts hf
      | _ => simp [Json.kind] at hv
  · obtain ⟨what, hfindings⟩ := findings_unlike hl hv
    rw [hfindings] at hf
    rw [List.mem_singleton.mp hf]
    exact .unlike hl hv

/-! ### What is refused is charged -/

theorem charges_count {least : Nat} (hleast : least ≤ 1) {v : Json} {x : Double}
    (h : Denotes v x) (hx : x.isFinite = true) (hn : ¬ x.IsCount least) :
    Charges p ((Leaf.count least).findings (some v)) [] .range := by
  obtain ⟨fault, hfound, hkind⟩ := (findings_count_of_denotes hleast h).2 hn
  rw [if_pos hx] at hkind
  have hcertain : fault.Certain :=
    certain_leaf (by simp) (some v) ⟨[], fault⟩ (hfound ▸ List.mem_singleton_self _)
  exact hkind ▸ Charges.of_eq_singleton hfound hcertain.charged

theorem charges_item {items : List Json} {i : Nat} {v : Json} (hi : items[i]? = some v)
    (hv : v.kind ≠ .string) :
    Charges p (Leaf.texts.findings (some (.array items))) [.index i] .shape := by
  have hfound : itemFindings v = [⟨[], .expected .string v.kind⟩] := if_neg hv
  have hcharges : Charges p (itemFindings v) [] .shape :=
    Charges.of_eq_singleton hfound (Fault.Certain.charged fun _ => rfl)
  apply hcharges.under
  intro f hf
  simp only [Leaf.findings, texts, findings_textItems]
  apply mem_gather.mpr
  refine ⟨(.index i, itemFindings v), List.mem_map.mpr ⟨(v, i), ?_, rfl⟩, f, hf, rfl⟩
  exact List.mem_zipIdx_iff_getElem?.mpr hi

/-- **What a leaf refuses is charged.** -/
theorem charges_of_refuses {l : Leaf} (hleast : l.least ≤ 1) {v : Option Json}
    {place : Location} {kind : ViolationKind} (h : l.Refuses p v place kind) :
    Charges p (l.findings v) place kind := by
  cases h with
  | unidentified hp =>
    have hcounts : Fault.unidentified.counts p = true := by simp [Fault.counts, hp]
    have hfound : Leaf.identifier.findings none = [⟨[], .unidentified⟩] := rfl
    exact Charges.of_eq_singleton hfound ⟨hcounts, by simp [Fault.IsOrder]⟩
  | unnamed =>
    have hfound : Leaf.identifier.findings (some (.string "")) = [⟨[], .empty⟩] := rfl
    exact Charges.of_eq_singleton hfound (Fault.Certain.charged fun _ => rfl)
  | @blank s hp hs hblank =>
    have hcounts : Fault.blank.counts p = true := by simp [Fault.counts, hp]
    have hfound : Leaf.identifier.findings (some (.string s)) = [⟨[], .blank⟩] := by
      simp [Leaf.findings, identifier, hs, hblank]
    exact Charges.of_eq_singleton hfound ⟨hcounts, by simp [Fault.IsOrder]⟩
  | missing =>
    have hfound : Leaf.requiredText.findings none = [⟨[], .required⟩] := rfl
    exact Charges.of_eq_singleton hfound (Fault.Certain.charged fun _ => rfl)
  | unlike hl hv =>
    obtain ⟨what, hfound⟩ := findings_unlike hl hv
    exact Charges.of_eq_singleton hfound (Fault.Certain.charged fun _ => rfl)
  | item hi hv => exact charges_item hi hv
  | @nameless names s hs =>
    have hfound : (Leaf.alternative names).findings (some (.string s)) =
        [⟨[], .unknownName ⟨s, names⟩⟩] := if_neg hs
    exact Charges.of_eq_singleton hfound (Fault.Certain.charged fun _ => rfl)
  | unreadable hl hv =>
    have hfound := findings_unreadable hl (double?_eq_none_iff.mpr hv)
    exact Charges.of_eq_singleton hfound (Fault.Certain.charged fun _ => rfl)
  | @below least v x h hx hlt =>
    have hfound : (Leaf.number least).findings (some v) = [⟨[], .tooSmall least⟩] :=
      (findings_number_of_denotes hleast h hx).trans (if_pos hlt)
    exact Charges.of_eq_singleton hfound (Fault.Certain.charged fun _ => rfl)
  | outside h hx hn => exact charges_count hleast h hx hn

end Validation

end ModelCatalog
