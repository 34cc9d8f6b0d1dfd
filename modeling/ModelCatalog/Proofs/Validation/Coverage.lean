/-
  ModelCatalog/Proofs/Validation/Coverage.lean
  ============================================
  **Every fault is reported once, at its own place, and nothing else is.**

  `AtFault` says which places of an object are at fault, and how, without reference to
  the readers: it ranges over the objects that are `Visited` and over the table of
  their fields.  The bounds of scaling apart, what is found and counts is at fault
  (`atFault_of_mem`, by induction on the part that is read), and what is at fault is
  found (`charges_of_atFault`, by induction on the way to the object).  Since findings
  are at different places, each fault is reported once.
-/
import Mathlib.Data.Finset.Defs
import Mathlib.Data.Multiset.MapFold
import ModelCatalog.Proofs.Validation.Places
import ModelCatalog.Proofs.Validation.Refusals

namespace ModelCatalog

/-- Says that the bounds of scaling are out of order. -/
def Violation.IsCapacityOrder (x : Violation) : Prop :=
  "must be less than or equal to maxCapacity (".toList <+: x.reason.toList

instance (x : Violation) : Decidable x.IsCapacityOrder := inferInstanceAs (Decidable (_ <+: _))

namespace Validation

open Survey

/-! ### What is at fault -/

/-- An object that is read, as which part and where: the root, what a field of a visited
    object holds, and the items of an environment. -/
inductive Visited (root : Json.Members) : Location → Part → Json.Members → Prop
  | root : Visited root [] .request root
  | part {l : Location} {q q' : Part} {m m' : Json.Members} {name : String}
      (h : Visited root l q m) (hfield : (name, .part q') ∈ q.fields)
      (hgiven : given m name = some (.object m')) : Visited root (l ++ [.key name]) q' m'
  | entry {l : Location} {q : Part} {m m' : Json.Members} {name : String}
      {entries : List Json} {i : Nat} (h : Visited root l q m)
      (hfield : (name, .environment) ∈ q.fields)
      (hgiven : given m name = some (.array entries)) (hi : entries[i]? = some (.object m')) :
      Visited root (l ++ [.key name, .index i]) .entry m'

/-- The faults of an object under a policy, each with its place and its kind. -/
inductive AtFault (p : Policy) (root : Json.Members) : Location → ViolationKind → Prop
  | status (h : Entries.contains root statusKey = true) :
      AtFault p root [.key statusKey] .shape
  | unrecognized {l : Location} {q : Part} {m : Json.Members} {name : String}
      (h : Visited root l q m) (hp : p.unknownFields = .strict)
      (hname : name ∈ Entries.names m) (hkeys : name ∉ q.keys)
      (hstatus : l = [] → name ≠ statusKey) : AtFault p root (l ++ [.key name]) .shape
  | leaf {l place : Location} {q : Part} {m : Json.Members} {name : String} {leaf : Leaf}
      {kind : ViolationKind} (h : Visited root l q m) (hfield : (name, .leaf leaf) ∈ q.fields)
      (hleaf : leaf.Refuses p (given m name) place kind) :
      AtFault p root (l ++ .key name :: place) kind
  | part {l : Location} {q q' : Part} {m : Json.Members} {name : String} {v : Json}
      (h : Visited root l q m) (hfield : (name, .part q') ∈ q.fields)
      (hgiven : given m name = some v) (hv : v.kind ≠ .object) :
      AtFault p root (l ++ [.key name]) .shape
  | environment {l : Location} {q : Part} {m : Json.Members} {name : String} {v : Json}
      (h : Visited root l q m) (hfield : (name, .environment) ∈ q.fields)
      (hgiven : given m name = some v) (hlist : v.kind ≠ .list) (hobject : v.kind ≠ .object) :
      AtFault p root (l ++ [.key name]) .shape
  | entry {l : Location} {q : Part} {m : Json.Members} {name : String} {entries : List Json}
      {i : Nat} {v : Json} (h : Visited root l q m) (hfield : (name, .environment) ∈ q.fields)
      (hgiven : given m name = some (.array entries)) (hi : entries[i]? = some v)
      (hv : v.kind ≠ .object) : AtFault p root (l ++ [.key name, .index i]) .shape
  | emptyKey {l : Location} {m : Json.Members} (h : Visited root l .entry m)
      (hgiven : given m "key" = some (.string "")) : AtFault p root (l ++ [.key "key"]) .shape
  | pair {l : Location} {q : Part} {m m' : Json.Members} {name key : String} {v : Json}
      (h : Visited root l q m) (hfield : (name, .environment) ∈ q.fields)
      (hgiven : given m name = some (.object m')) (hmem : (key, v) ∈ m')
      (hv : key = "" ∨ v.kind ≠ .string) :
      AtFault p root (l ++ [.key name, .key key]) .shape

variable {p : Policy} {root : Json.Members}

theorem AtFault.ne_nil {l : Location} {kind : ViolationKind} (h : AtFault p root l kind) :
    l ≠ [] := by
  cases h <;> simp

/-! ### Visited objects -/

theorem Part.field_ne_request {q q' : Part} {name : String}
    (h : (name, Form.part q') ∈ q.fields) : q' ≠ .request := by
  rintro rfl
  revert h
  cases q <;> simp [Part.fields]

theorem Visited.eq_nil_iff {l : Location} {q : Part} {m : Json.Members}
    (h : Visited root l q m) : l = [] ↔ q = .request := by
  cases h with
  | root => simp
  | part _ hfield _ => simp [Part.field_ne_request hfield]
  | entry => simp

/-- The status of the root has a meaning of its own, and that of another object has none. -/
theorem Visited.mem_known_iff {l : Location} {q : Part} {m : Json.Members}
    (h : Visited root l q m) (name : String) :
    name ∈ q.known ↔ name ∈ q.keys ∨ (l = [] ∧ name = statusKey) := by
  rw [h.eq_nil_iff]
  cases q <;> simp [Part.known, Part.keys, or_comm]

theorem Charges.field {q : Part} {m : Json.Members} {name : String} {form : Form}
    (hfield : (name, form) ∈ q.fields) {place : Location} {kind : ViolationKind}
    (h : Charges p (form.findings (given m name)) place kind) :
    Charges p (q.findings m) (.key name :: place) kind := by
  apply h.under
  intro f hf
  exact mem_part.mpr (Or.inr (Or.inl ⟨name, form, hfield, f, hf, rfl⟩))

theorem Charges.entry {entries : List Json} {i : Nat} {v : Json} (hi : entries[i]? = some v)
    {place : Location} {kind : ViolationKind}
    (h : Charges p (environmentEntry v).findings place kind) :
    Charges p (Form.environment.findings (some (.array entries))) (.index i :: place) kind := by
  apply h.under
  intro f hf
  exact mem_environment.mpr (Or.inr (Or.inl ⟨entries, i, v, rfl, hi, f, hf, rfl⟩))

theorem Charges.pair {m : Json.Members} {key : String} {v : Json} (hmem : (key, v) ∈ m)
    {place : Location} {kind : ViolationKind}
    (h : Charges p (environmentMember key v).findings place kind) :
    Charges p (Form.environment.findings (some (.object m))) (.key key :: place) kind := by
  apply h.under
  intro f hf
  exact mem_environment.mpr (Or.inr (Or.inr ⟨m, key, v, rfl, hmem, f, hf, rfl⟩))

/-- What is found with a visited object is found with the whole, behind the way there. -/
theorem Visited.finding {l : Location} {q : Part} {m : Json.Members} (h : Visited root l q m)
    {place : Location} {fault : Fault} (hf : (⟨place, fault⟩ : Finding) ∈ q.findings m) :
    (⟨l ++ place, fault⟩ : Finding) ∈ (surveyRequest (.object root)).findings := by
  induction h generalizing place with
  | root =>
    rw [findings_surveyRequest]
    exact List.mem_append_right _ hf
  | part _ hfield hgiven ih =>
    rw [List.append_assoc]
    apply ih
    refine mem_part.mpr (Or.inr (Or.inl ⟨_, _, hfield, ⟨place, fault⟩, ?_, rfl⟩))
    exact mem_formPart.mpr (Or.inl ⟨_, hgiven, hf⟩)
  | entry _ hfield hgiven hi ih =>
    rw [List.append_assoc]
    apply ih
    refine mem_part.mpr (Or.inr (Or.inl ⟨_, _, hfield, ⟨.index _ :: place, fault⟩, ?_, rfl⟩))
    refine mem_environment.mpr (Or.inr (Or.inl ⟨_, _, _, hgiven, hi, ⟨place, fault⟩, ?_, rfl⟩))
    exact mem_environmentEntry.mpr (Or.inl ⟨_, rfl, hf⟩)

/-- What is charged in a visited object is charged in the whole, behind the way there. -/
theorem Visited.charges {l : Location} {q : Part} {m : Json.Members} (h : Visited root l q m)
    {place : Location} {kind : ViolationKind} (hcharges : Charges p (q.findings m) place kind) :
    Charges p (surveyRequest (.object root)).findings (l ++ place) kind := by
  obtain ⟨f, hf, hcharged, rfl, rfl⟩ := hcharges
  exact ⟨⟨l ++ f.location, f.fault⟩, h.finding hf, hcharged, rfl, rfl⟩

/-! ### What counts is at fault -/

theorem atFault_of_mem_environment {l : Location} {q : Part} {m : Json.Members} {name : String}
    (h : Visited root l q m) (hfield : (name, .environment) ∈ q.fields)
    (hentry : ∀ l m, Visited root l .entry m → ∀ f ∈ Part.entry.findings m,
      f.fault.Charged p → AtFault p root (l ++ f.location) f.fault.kind)
    {f : Finding} (hf : f ∈ Form.environment.findings (given m name))
    (hcharged : f.fault.Charged p) :
    AtFault p root (l ++ .key name :: f.location) f.fault.kind := by
  rcases mem_environment.mp hf with ⟨x, hgiven, hlist, hobject, rfl⟩ |
      ⟨entries, i, x, hgiven, hi, f', hf', rfl⟩ | ⟨m', key, x, hgiven, hmem, f', hf', rfl⟩
  · exact .environment h hfield hgiven hlist hobject
  · rcases mem_environmentEntry.mp hf' with ⟨m', rfl, hf'⟩ | ⟨hkind, rfl⟩
    · have hvisited := Visited.entry h hfield hgiven hi
      simpa using hentry _ _ hvisited f' hf' hcharged
    · exact .entry h hfield hgiven hi hkind
  · rcases mem_environmentMember.mp hf' with ⟨hkey, rfl⟩ | ⟨-, hkind, rfl⟩
    · exact .pair h hfield hgiven hmem (Or.inl hkey)
    · exact .pair h hfield hgiven hmem (Or.inr hkind)

/-- **What counts against a visited object is one of its faults.** -/
theorem atFault_of_mem (q : Part) : ∀ l m, Visited root l q m → ∀ f ∈ q.findings m,
    f.fault.Charged p → AtFault p root (l ++ f.location) f.fault.kind := by
  induction q using Part.induction with
  | step q ihpart ihentry =>
    intro l m h f hf hcharged
    rcases mem_part.mp hf with ⟨name, hname, rfl⟩ | ⟨name, form, hfield, f', hf', rfl⟩ | hf
    · obtain ⟨hmem, hunknown⟩ := List.mem_filter.mp hname
      have hnot : name ∉ q.known := by simpa using hunknown
      rw [h.mem_known_iff] at hnot
      have hp : p.unknownFields = .strict := by simpa [Fault.counts] using hcharged.1
      exact .unrecognized h hp hmem (fun hkeys => hnot (Or.inl hkeys))
        fun hl hstatus => hnot (Or.inr ⟨hl, hstatus⟩)
    · cases form with
      | leaf leaf =>
        have hleast := Part.least_le_one _ _ _ hfield
        exact .leaf h hfield (refuses_of_mem hleast hf' hcharged.1)
      | part q' =>
        rcases mem_formPart.mp hf' with ⟨m', hgiven, hf'⟩ | ⟨x, hgiven, hkind, rfl⟩
        · have hvisited := Visited.part h hfield hgiven
          simpa using ihpart name q' hfield _ _ hvisited f' hf' hcharged
        · exact .part h hfield hgiven hkind
      | environment =>
        exact atFault_of_mem_environment h hfield (ihentry name hfield) hf' hcharged
    · cases q with
      | scaling =>
        obtain ⟨-, -, rfl⟩ := mem_orderFindings.mp hf
        exact absurd ⟨_, _, rfl⟩ hcharged.2
      | entry =>
        simp only [Part.tail] at hf
        split at hf
        · rename_i hempty
          rw [List.mem_singleton.mp hf]
          exact .emptyKey h (requiredText_eq_empty_iff.mp hempty)
        · simp at hf
      | _ => simp [Part.tail] at hf

/-! ### What is at fault counts -/

theorem charges_unrecognized {l : Location} {q : Part} {m : Json.Members} {name : String}
    (h : Visited root l q m) (hp : p.unknownFields = .strict) (hname : name ∈ Entries.names m)
    (hkeys : name ∉ q.keys) (hstatus : l = [] → name ≠ statusKey) :
    Charges p (q.findings m) [.key name] .shape := by
  have hunknown : name ∉ q.known := by
    rw [h.mem_known_iff]
    rintro (hmem | ⟨hl, hname⟩)
    · exact hkeys hmem
    · exact hstatus hl hname
  have hstranger : name ∈ strangers q.known m := by
    apply List.mem_filter.mpr
    exact ⟨hname, by simpa using hunknown⟩
  have hfinding : (⟨[.key name], .unrecognized⟩ : Finding) ∈ q.findings m :=
    mem_part.mpr (Or.inl ⟨name, hstranger, rfl⟩)
  have hcounts : Fault.unrecognized.counts p = true := by simp [Fault.counts, hp]
  exact ⟨_, hfinding, ⟨hcounts, by simp [Fault.IsOrder]⟩, rfl, rfl⟩

theorem charges_environmentMember {key : String} {v : Json} (h : key = "" ∨ v.kind ≠ .string) :
    Charges p (environmentMember key v).findings [] .shape := by
  by_cases hkey : key = ""
  · exact Charges.of_certain (mem_environmentMember.mpr (Or.inl ⟨hkey, rfl⟩)) fun _ => rfl
  · have hv : v.kind ≠ .string := h.resolve_left hkey
    exact Charges.of_certain (mem_environmentMember.mpr (Or.inr ⟨hkey, hv, rfl⟩)) fun _ => rfl

/-- **A fault of a submitted object is charged.** -/
theorem charges_of_atFault {l : Location} {kind : ViolationKind} (h : AtFault p root l kind) :
    Charges p (surveyRequest (.object root)).findings l kind := by
  cases h with
  | status h =>
    have hmem : (⟨[.key statusKey], .outputOnly⟩ : Finding) ∈ statusFindings root :=
      mem_statusFindings.mpr ⟨h, rfl⟩
    rw [findings_surveyRequest]
    exact Charges.of_certain (List.mem_append_left _ hmem) fun _ => rfl
  | unrecognized h hp hname hkeys hstatus =>
    exact h.charges (charges_unrecognized h hp hname hkeys hstatus)
  | leaf h hfield hleaf =>
    apply h.charges
    apply Charges.field hfield
    exact charges_of_refuses (Part.least_le_one _ _ _ hfield) hleaf
  | part h hfield hgiven hv =>
    apply h.charges
    apply Charges.field hfield
    rw [hgiven]
    exact Charges.of_certain (mem_formPart.mpr (Or.inr ⟨_, rfl, hv, rfl⟩)) fun _ => rfl
  | environment h hfield hgiven hlist hobject =>
    apply h.charges
    apply Charges.field hfield
    rw [hgiven]
    exact Charges.of_certain (mem_environment.mpr (Or.inl ⟨_, rfl, hlist, hobject, rfl⟩))
      fun _ => rfl
  | entry h hfield hgiven hi hv =>
    apply h.charges
    apply Charges.field hfield
    rw [hgiven]
    apply Charges.entry hi
    exact Charges.of_certain (mem_environmentEntry.mpr (Or.inr ⟨hv, rfl⟩)) fun _ => rfl
  | @emptyKey l m h hgiven =>
    have htail : (⟨[.key "key"], .empty⟩ : Finding) ∈ Part.entry.tail m := by
      simp [Part.tail, requiredText_eq_empty_iff, hgiven]
    apply h.charges
    exact Charges.of_certain (mem_part.mpr (Or.inr (Or.inr htail))) fun _ => rfl
  | pair h hfield hgiven hmem hv =>
    apply h.charges
    apply Charges.field hfield
    rw [hgiven]
    apply Charges.pair hmem
    exact charges_environmentMember hv

/-- **The places that are charged are those at fault.** -/
theorem charges_iff_atFault {l : Location} {kind : ViolationKind} :
    Charges p (surveyRequest (.object root)).findings l kind ↔ AtFault p root l kind := by
  constructor
  · rintro ⟨f, hf, hcharged, rfl, rfl⟩
    rw [findings_surveyRequest] at hf
    rcases List.mem_append.mp hf with hf | hf
    · obtain ⟨hstatus, rfl⟩ := mem_statusFindings.mp hf
      exact .status hstatus
    · exact atFault_of_mem .request [] root .root f hf hcharged
  · exact charges_of_atFault

/-! ### Reports -/

/-- A text that begins like another begins as that one does. -/
theorem prefix_of_append {opening s rest : String} (h : opening.toList <+: (s ++ rest).toList)
    (hlength : s.toList.length ≤ opening.toList.length) : s.toList <+: opening.toList := by
  rw [String.toList_append] at h
  exact List.prefix_of_prefix_length_le (List.prefix_append _ _) h hlength

/-- Only the order of bounds is reported in its words. -/
theorem prefix_reason_iff {fault : Fault} :
    "must be less than or equal to maxCapacity (".toList <+: fault.reason.toList ↔
      fault.IsOrder := by
  constructor
  · intro h
    cases fault with
    | capacityOrder maxCapacity masked => exact ⟨maxCapacity, masked, rfl⟩
    | expected what found =>
      have hreason : (Fault.expected what found).reason =
          "expected " ++ what.phrase ++ ", found " ++ found.phrase := rfl
      rw [hreason, String.append_assoc, String.append_assoc] at h
      have hopening := prefix_of_append h (by decide)
      exact absurd hopening (by decide)
    | unknownName u =>
      have hreason : (Fault.unknownName u).reason =
          "'" ++ u.given ++ "' is not one of: " ++ ", ".intercalate u.expected := rfl
      rw [hreason, String.append_assoc, String.append_assoc] at h
      have hopening := prefix_of_append h (by decide)
      exact absurd hopening (by decide)
    | tooSmall least =>
      have hopening := prefix_of_append h (by decide)
      exact absurd hopening (by decide)
    | _ => exact absurd h (by decide)
  · rintro ⟨maxCapacity, masked, rfl⟩
    have hreason : (Fault.capacityOrder maxCapacity masked).reason =
        "must be less than or equal to maxCapacity (" ++ toString maxCapacity.toNat ++ ")" := rfl
    rw [hreason, String.append_assoc, String.toList_append]
    exact List.prefix_append _ _

instance (fault : Fault) : Decidable fault.IsOrder := decidable_of_iff _ prefix_reason_iff

instance (fault : Fault) : Decidable (fault.Charged p) := inferInstanceAs (Decidable (_ ∧ _))

/-- The violations without the order of bounds are the findings that are charged. -/
theorem filter_violations (found : List Finding) :
    (((found.filterMap (Finding.violation? p)).filter fun x => ¬ x.IsCapacityOrder).map
        fun x => (x.path, x.kind)) =
      (found.filter fun f => f.fault.Charged p).map fun f => (f.location.text, f.fault.kind) := by
  induction found with
  | nil => rfl
  | cons f found ih =>
    by_cases hcounts : f.fault.counts p = true
    · have hviolation : f.violation? p = some ⟨f.location.text, f.fault.kind, f.fault.reason⟩ :=
        if_pos hcounts
      have horder : (⟨f.location.text, f.fault.kind, f.fault.reason⟩ :
          Violation).IsCapacityOrder ↔ f.fault.IsOrder := prefix_reason_iff
      rw [List.filterMap_cons_some hviolation]
      by_cases h : f.fault.IsOrder
      · have hcharged : ¬ f.fault.Charged p := by
          intro hc
          exact hc.2 h
        simpa [horder.mpr h, hcharged] using ih
      · have hcharged : f.fault.Charged p := ⟨hcounts, h⟩
        simpa [horder, h, hcharged] using ih
    · have hviolation : f.violation? p = none := if_neg hcounts
      have hcharged : ¬ f.fault.Charged p := by
        intro hc
        exact hcounts hc.1
      rw [List.filterMap_cons_none hviolation]
      simpa [hcharged] using ih

/-- **Every fault is reported once, at its own place, and nothing else is.**  The order of
    bounds apart, the paths and kinds of the violations of an object are those of its
    faults, as often as there are such faults. -/
theorem validateRequest_reports (p : Policy) {root : Json.Members}
    (hroot : (Json.object root).WellFormed) :
    ∃ faults : Finset (Location × ViolationKind),
      (∀ l kind, (l, kind) ∈ faults ↔ AtFault p root l kind) ∧
      ((((validateRequest p (.object root)).violations.filter fun x => ¬ x.IsCapacityOrder).map
          fun x => (x.path, x.kind) : List (String × ViolationKind)) :
            Multiset (String × ViolationKind)) =
        faults.val.map fun fault => (Location.joined fault.1, fault.2) := by
  let found := (surveyRequest (.object root)).findings
  let charged := found.filter fun f => f.fault.Charged p
  let places := charged.map fun f => (f.location, f.fault.kind)
  have hmem : ∀ l kind, (l, kind) ∈ places ↔ AtFault p root l kind := by
    intro l kind
    rw [← charges_iff_atFault]
    simp [places, charged, found, Charges, and_assoc]
  have hnodup : places.Nodup := by
    have hfound : (found.map Finding.location).Nodup := nodup_surveyRequest hroot
    have hcharged : (charged.map Finding.location).Nodup :=
      hfound.sublist (List.filter_sublist.map _)
    have hplaces : places.map Prod.fst = charged.map Finding.location := by
      simp [places, Function.comp_def]
    exact List.Nodup.of_map Prod.fst (hplaces ▸ hcharged)
  refine ⟨⟨places, Multiset.coe_nodup.mpr hnodup⟩, hmem, ?_⟩
  rw [validateRequest, violations_judge, Survey.violations, filter_violations, Multiset.map_coe]
  congr 1
  rw [List.map_map]
  apply List.map_congr_left
  intro f hf
  have hne : f.location ≠ [] :=
    ((hmem f.location f.fault.kind).mp (List.mem_map_of_mem hf)).ne_nil
  simp [Location.text, hne]

/-- A variable without a name is reported where it stands, beside a status. -/
theorem validateRequest_reports_emptyKey :
    ∃ root : Json.Members, (Json.object root).WellFormed ∧
      ∃ faults : Finset (Location × ViolationKind),
        ([.key "status"], .shape) ∈ faults ∧
        ([.key "containerConfig", .key "environment", .index 0, .key "key"], .shape) ∈ faults ∧
        ((((validateRequest .strict (.object root)).violations.filter
            fun x => ¬ x.IsCapacityOrder).map
            fun x => (x.path, x.kind) : List (String × ViolationKind)) :
              Multiset (String × ViolationKind)) =
          faults.val.map fun fault => (Location.joined fault.1, fault.2) := by
  let root : Json.Members := [
    ("containerConfig", .object [("environment", .array [.object [("key", .string "")]])]),
    ("status", .null)]
  have hnames : Entries.Ascending root := by
    have hlt : "containerConfig" < "status" := by decide
    exact List.pairwise_pair.mpr hlt
  have hroot : (Json.object root).WellFormed := by
    refine ⟨hnames, ?_⟩
    simp [root, Json.WellFormed, Json.MembersWellFormed, Json.AllWellFormed, Entries.Ascending]
  obtain ⟨faults, hmem, hreport⟩ := validateRequest_reports .strict hroot
  have hcontainer : Visited root [.key "containerConfig"] .container
      [("environment", .array [.object [("key", .string "")]])] :=
    Visited.part .root (by decide) rfl
  have hentry : Visited root [.key "containerConfig", .key "environment", .index 0] .entry
      [("key", .string "")] := Visited.entry hcontainer (by decide) rfl rfl
  exact ⟨root, hroot, faults, (hmem _ _).mpr (.status rfl),
    (hmem _ _).mpr (.emptyKey hentry rfl), hreport⟩

end Validation

end ModelCatalog
