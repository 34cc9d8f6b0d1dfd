/-
  ModelCatalog/Proofs/Validation/Strays.lean
  ==========================================
  **Members without a meaning, and where they are.**

  `strip` leaves out every member that means nothing where it stands, and `strays` lists
  the places of these members in the order in which the objects around them are read
  (`visits`).  They are the members of visited objects that no table knows
  (`mem_strays_iff`), each of them is found as such, in this order
  (`stray?_surveyRequest`), and none is left in what is stripped (`strays_strip`).
-/
import ModelCatalog.Proofs.Entries
import ModelCatalog.Proofs.Validation.Coverage

namespace ModelCatalog

theorem Fault.Certain.ne_unrecognized {fault : Fault} (h : fault.Certain) :
    fault ≠ .unrecognized := by
  rintro rfl
  have hcounts := h {}
  simp [counts] at hcounts

/-- The place of a finding about a member without a meaning. -/
def Finding.stray? (f : Finding) : Option Location :=
  if f.fault = .unrecognized then some f.location else none

namespace Validation

open Survey

/-! ### What is left of an input -/

/-- What the member of a name holds in a part.  A name that is no field's, as the status
    of a request, holds nothing that is looked into. -/
def Part.form (q : Part) (name : String) : Form :=
  (q.fields.lookup name).getD (.leaf .text)

mutual

/-- A value without the members that mean nothing in what it is read as. -/
def Form.strip : Form → Json → Json
  | .part q, .object members => .object (Part.strip q members)
  | .environment, .array entries => .array (stripEntries entries)
  | _, v => v

def Part.strip (q : Part) : List (String × Json) → List (String × Json)
  | [] => []
  | (name, v) :: rest =>
    if name ∈ q.known then (name, (q.form name).strip v) :: Part.strip q rest
    else Part.strip q rest

def stripEntries : List Json → List Json
  | [] => []
  | v :: rest => Form.strip (.part .entry) v :: stripEntries rest

end

/-- An input without the members that mean nothing. -/
def strip (input : Json) : Json := (Form.part .request).strip input

theorem Part.form_eq {q : Part} {name : String} {form : Form} (h : (name, form) ∈ q.fields) :
    q.form name = form := by
  rw [Part.form, (Entries.lookup_eq_some_iff_of_nodup q.nodup_fields).mpr h]
  rfl

theorem Form.strip_eq_null_iff {form : Form} {v : Json} : form.strip v = .null ↔ v = .null := by
  cases form <;> cases v <;> simp [Form.strip]

theorem mem_stripEntries {entries : List Json} {v : Json} (h : v ∈ stripEntries entries) :
    ∃ x ∈ entries, (Form.part .entry).strip x = v := by
  induction entries with
  | nil => simp [stripEntries] at h
  | cons x entries ih =>
    rw [stripEntries] at h
    rcases List.mem_cons.mp h with rfl | h
    · exact ⟨x, List.mem_cons_self, rfl⟩
    · obtain ⟨y, hy, rfl⟩ := ih h
      exact ⟨y, List.mem_cons_of_mem _ hy, rfl⟩

theorem names_strip (q : Part) (m : Json.Members) :
    Entries.names (q.strip m) = (Entries.names m).filter (· ∈ q.known) := by
  induction m with
  | nil => simp [Part.strip, Entries.names]
  | cons e m ih =>
    obtain ⟨name, v⟩ := e
    simp only [Entries.names, List.map_cons, List.filter_cons] at ih ⊢
    by_cases h : name ∈ q.known
    · simp [Part.strip, h, ih]
    · simp [Part.strip, h, ih]

theorem get?_strip {q : Part} {wanted : String} (hwanted : wanted ∈ q.known)
    (m : Json.Members) :
    Entries.get? (q.strip m) wanted = (Entries.get? m wanted).map (q.form wanted).strip := by
  induction m with
  | nil => simp [Part.strip, Entries.get?]
  | cons e m ih =>
    obtain ⟨name, v⟩ := e
    by_cases heq : name = wanted
    · subst heq
      simp [Part.strip, hwanted, Entries.get?_cons]
    · by_cases h : name ∈ q.known
      · simp [Part.strip, h, Entries.get?_cons, heq, ih]
      · simp [Part.strip, h, Entries.get?_cons, heq, ih]

/-- What is given for a field is stripped as what the field holds. -/
theorem given_strip {q : Part} {name : String} {form : Form} (h : (name, form) ∈ q.fields)
    (m : Json.Members) : given (q.strip m) name = (given m name).map form.strip := by
  unfold given
  rw [get?_strip (Part.mem_known (Part.mem_keys h)), Part.form_eq h]
  rcases hget : Entries.get? m name with _ | v
  · rfl
  · by_cases hnull : v = .null
    · simp [hnull, Form.strip_eq_null_iff.mpr rfl]
    · have hstrip : form.strip v ≠ .null := mt Form.strip_eq_null_iff.mp hnull
      cases v <;> simp_all

/-! ### What was left out -/

/-- An object that is read: where it stands and as what. -/
structure Visit where
  location : Location
  part : Part
  members : Json.Members

/-- Moves an object one step further from the root. -/
def Visit.under (s : Segment) (x : Visit) : Visit := { x with location := s :: x.location }

mutual

/-- The objects that are read of a part: the part itself, and then those within its
    fields, in the order of the fields. -/
def Part.visits (q : Part) (m : Json.Members) : List Visit :=
  ⟨[], q, m⟩ :: q.fields.attach.flatMap fun f =>
    (Form.visits f.1.2 (given m f.1.1)).map (Visit.under (.key f.1.1))
termination_by 2 * q.rank
decreasing_by
  have hrank := q.rank_lt f.1 f.2
  omega

def Form.visits (form : Form) (v : Option Json) : List Visit :=
  match form, v with
  | .part q, some (.object m) => Part.visits q m
  | .environment, some (.array entries) =>
    entries.zipIdx.flatMap fun e =>
      (Form.visits (.part .entry) (some e.1)).map (Visit.under (.index e.2))
  | _, _ => []
termination_by 2 * form.rank + 1
decreasing_by
  · simp only [Form.rank]
    omega
  · simp only [Form.rank, Part.rank]
    omega

end

/-- The places of the members of an object that mean nothing there. -/
def Visit.strays (x : Visit) : List Location :=
  (strangers x.part.known x.members).map fun name => x.location ++ [.key name]

def Part.strays (q : Part) (m : Json.Members) : List Location :=
  (q.visits m).flatMap Visit.strays

def Form.strays (form : Form) (v : Option Json) : List Location :=
  (form.visits v).flatMap Visit.strays

/-- The places of the members of an input that mean nothing, object by object. -/
def strays (input : Json) : List Location := (Form.part .request).strays (some input)

theorem Part.visits_eq (q : Part) (m : Json.Members) :
    q.visits m = ⟨[], q, m⟩ :: q.fields.flatMap fun f =>
      (f.2.visits (given m f.1)).map (Visit.under (.key f.1)) := by
  have hattach : ∀ g : String × Form → List Visit,
      (q.fields.attach.flatMap fun f => g f.1) = q.fields.flatMap g := by
    intro g
    rw [← List.flatMap_map, List.attach_map_subtype_val]
  rw [Part.visits, hattach fun f => (f.2.visits (given m f.1)).map (Visit.under (.key f.1))]

theorem strays_under (s : Segment) (xs : List Visit) :
    (xs.map (Visit.under s)).flatMap Visit.strays = (xs.flatMap Visit.strays).map (s :: ·) := by
  have hone : ∀ x : Visit, (x.under s).strays = x.strays.map (s :: ·) := by
    intro x
    simp [Visit.strays, Visit.under]
  rw [List.flatMap_map, List.map_flatMap, funext hone]

/-- The strays of a part are its own, and then those of its fields. -/
theorem Part.strays_eq (q : Part) (m : Json.Members) :
    q.strays m = (strangers q.known m).map (fun name => [.key name]) ++
      q.fields.flatMap fun f => (f.2.strays (given m f.1)).map (.key f.1 :: ·) := by
  rw [Part.strays, Part.visits_eq, List.flatMap_cons, List.flatMap_assoc]
  simp only [strays_under]
  rfl

theorem Form.strays_part (q : Part) (m : Json.Members) :
    (Form.part q).strays (some (.object m)) = q.strays m := by
  rw [Form.strays, Form.visits]
  rfl

theorem Form.strays_entries (entries : List Json) :
    Form.environment.strays (some (.array entries)) = entries.zipIdx.flatMap fun e =>
      ((Form.part .entry).strays (some e.1)).map (.index e.2 :: ·) := by
  rw [Form.strays, Form.visits, List.flatMap_assoc]
  simp only [strays_under]
  rfl

/-! ### Nothing more to leave out -/

theorem strangers_strip (q : Part) (m : Json.Members) : strangers q.known (q.strip m) = [] := by
  have hnames : (q.strip m).map Prod.fst = (Entries.names m).filter (· ∈ q.known) := names_strip q m
  rw [strangers, hnames, List.filter_filter, List.filter_eq_nil_iff]
  intro name _
  simp

/-- A field without its strays has none, if that is so of the parts below it. -/
theorem strays_strip_of_parts {form : Form} (v : Option Json)
    (hpart : ∀ q, form = .part q → ∀ m, q.strays (q.strip m) = [])
    (hentry : form = .environment → ∀ m, Part.entry.strays (Part.entry.strip m) = []) :
    form.strays (v.map form.strip) = [] := by
  rcases v with _ | v
  · cases form <;> simp [Form.strays, Form.visits]
  cases form with
  | leaf l => simp [Form.strays, Form.visits]
  | part q =>
    cases v with
    | object m =>
      simp only [Option.map_some, Form.strip]
      rw [Form.strays_part]
      exact hpart q rfl m
    | _ => simp [Form.strip, Form.strays, Form.visits]
  | environment =>
    cases v with
    | array entries =>
      simp only [Option.map_some, Form.strip]
      rw [Form.strays_entries, List.flatMap_eq_nil_iff]
      rintro ⟨x, i⟩ hx
      obtain ⟨y, -, rfl⟩ := mem_stripEntries (List.fst_mem_of_mem_zipIdx hx)
      cases y with
      | object m =>
        simp only [Form.strip]
        rw [Form.strays_part, hentry rfl m]
        rfl
      | _ => simp [Form.strip, Form.strays, Form.visits]
    | _ => simp [Form.strip, Form.strays, Form.visits]

theorem strays_strip_part (q : Part) : ∀ m, q.strays (q.strip m) = [] := by
  induction q using Part.induction with
  | step q ihpart ihentry =>
    intro m
    rw [Part.strays_eq, strangers_strip, List.map_nil, List.nil_append, List.flatMap_eq_nil_iff]
    rintro ⟨name, form⟩ hfield
    rw [given_strip hfield, List.map_eq_nil_iff]
    apply strays_strip_of_parts
    · rintro q' rfl
      exact ihpart name q' hfield
    · rintro rfl
      exact ihentry name hfield

/-- **What is left of an input has no strays.** -/
theorem strays_strip (v : Json) : strays (strip v) = [] := by
  cases v with
  | object m =>
    rw [strip, Form.strip, strays, Form.strays_part]
    exact strays_strip_part .request m
  | _ => simp [strip, Form.strip, strays, Form.strays, Form.visits]

/-! ### Strays are found, and nothing else is found as one -/

theorem stray?_eq_none {found : List Finding} (h : ∀ f ∈ found, f.fault ≠ .unrecognized) :
    found.filterMap Finding.stray? = [] := by
  apply List.filterMap_eq_nil_iff.mpr
  intro f hf
  exact if_neg (h f hf)

theorem stray?_under (s : Segment) (found : List Finding) :
    (found.map (Finding.under s)).filterMap Finding.stray? =
      (found.filterMap Finding.stray?).map (s :: ·) := by
  rw [List.filterMap_map, List.map_filterMap]
  apply List.filterMap_congr
  intro f _
  by_cases h : f.fault = .unrecognized <;> simp [Finding.stray?, h]

theorem stray?_gather (branches : List (Segment × List Finding)) :
    (gather branches).filterMap Finding.stray? =
      branches.flatMap fun b => (b.2.filterMap Finding.stray?).map (b.1 :: ·) := by
  simp only [gather, List.filterMap_flatMap, stray?_under]

theorem recognized_leaf (l : Leaf) (v : Option Json) :
    ∀ f ∈ l.findings v, f.fault ≠ .unrecognized := by
  by_cases hl : l = .identifier
  · subst hl
    change (identifier "" v).Only (· ≠ .unrecognized)
    unfold identifier
    repeat' split
    all_goals simp
  · intro f hf
    exact (certain_leaf hl v f hf).ne_unrecognized

theorem recognized_tail (q : Part) (m : Json.Members) :
    ∀ f ∈ q.tail m, f.fault ≠ .unrecognized := by
  by_cases hq : q = .scaling
  · subst hq
    intro f hf
    obtain ⟨-, -, rfl⟩ := mem_orderFindings.mp hf
    simp
  · intro f hf
    exact (Part.plain_tail hq m f hf).ne_unrecognized

/-- What is found with an entry as a stray are the strays of the entry, if that is so of
    entries that are objects. -/
theorem stray?_entry
    (hentry : ∀ m, (Part.entry.findings m).filterMap Finding.stray? = Part.entry.strays m)
    (v : Json) : (environmentEntry v).findings.filterMap Finding.stray? =
      (Form.part .entry).strays (some v) := by
  cases v with
  | object m =>
    rw [Form.strays_part]
    exact hentry m
  | _ => simp [Form.strays, Form.visits, environmentEntry, Finding.stray?]

/-- The members of an environment that is an object all have a meaning. -/
theorem recognized_environmentMembers (m : Json.Members) :
    ∀ f ∈ (environmentMembers m).findings, f.fault ≠ .unrecognized := by
  intro f hf
  rw [findings_environmentMembers] at hf
  obtain ⟨b, hb, f', hf', rfl⟩ := mem_gather.mp hf
  obtain ⟨e, -, rfl⟩ := List.mem_map.mp hb
  exact (certain_environmentMember e.1 e.2 f' hf').ne_unrecognized

/-- What is found with a field as a stray are the strays of the field, if that is so of the
    parts below it. -/
theorem stray?_form_of_parts {form : Form} {v : Option Json}
    (hpart : ∀ q, form = .part q → ∀ m,
      (q.findings m).filterMap Finding.stray? = q.strays m)
    (hentry : form = .environment → ∀ m,
      (Part.entry.findings m).filterMap Finding.stray? = Part.entry.strays m) :
    (form.findings v).filterMap Finding.stray? = form.strays v := by
  rcases v with _ | v
  · cases form with
    | leaf l =>
      rw [Form.findings_leaf, stray?_eq_none (recognized_leaf l none)]
      simp [Form.strays, Form.visits]
    | _ => simp [Form.strays, Form.visits, Form.findings, environment]
  cases form with
  | leaf l =>
    rw [Form.findings_leaf, stray?_eq_none (recognized_leaf l (some v))]
    simp [Form.strays, Form.visits]
  | part q =>
    cases v with
    | object m =>
      rw [Form.strays_part]
      exact hpart q rfl m
    | _ => simp [Form.strays, Form.visits, Form.findings, Finding.stray?]
  | environment =>
    cases v with
    | array entries =>
      rw [Form.strays_entries]
      simp only [Form.findings, environment, findings_environmentEntries, stray?_gather,
        List.flatMap_map, stray?_entry (hentry rfl)]
    | object m =>
      -- here the names are those of variables
      have hnone := stray?_eq_none (recognized_environmentMembers m)
      simp [Form.strays, Form.visits, Form.findings, environment, hnone]
    | _ => simp [Form.strays, Form.visits, Form.findings, environment, Finding.stray?]

/-- **The strays of a part are found in their order.** -/
theorem stray?_part (q : Part) : ∀ m,
    (q.findings m).filterMap Finding.stray? = q.strays m := by
  induction q using Part.induction with
  | step q ihpart ihentry =>
    intro m
    have hfields : ∀ f ∈ q.fields, (f.2.findings (given m f.1)).filterMap Finding.stray? =
        f.2.strays (given m f.1) := by
      rintro ⟨name, form⟩ hfield
      apply stray?_form_of_parts
      · rintro q' rfl
        exact ihpart name q' hfield
      · rintro rfl
        exact ihentry name hfield
    rw [findings_part, List.filterMap_append, stray?_eq_none (recognized_tail q m),
      List.append_nil, stray?_gather, Part.branches, List.flatMap_append, Part.strays_eq]
    simp only [List.flatMap_map]
    congr 1
    · rw [List.map_eq_flatMap]
      rfl
    · apply List.flatMap_congr
      intro f hf
      rw [hfields f hf]

theorem stray?_surveyRequest (v : Json) :
    (surveyRequest v).findings.filterMap Finding.stray? = strays v := by
  cases v with
  | object m =>
    have hstatus : ∀ f ∈ statusFindings m, f.fault ≠ .unrecognized := by
      intro f hf
      obtain ⟨-, rfl⟩ := mem_statusFindings.mp hf
      simp
    rw [findings_surveyRequest, List.filterMap_append, stray?_eq_none hstatus, List.nil_append,
      stray?_part, strays, Form.strays_part]
  | _ =>
    simp [strays, Form.strays, Form.visits, surveyRequest, root, Finding.stray?]

/-! ### Strays and visited objects -/

variable {root : Json.Members}

theorem mem_formVisits_part {q : Part} {v : Option Json} {x : Visit} :
    x ∈ (Form.part q).visits v ↔ ∃ m, v = some (.object m) ∧ x ∈ q.visits m := by
  rcases v with _ | v
  · simp [Form.visits]
  · cases v <;> simp [Form.visits]

theorem mem_formVisits_environment {v : Option Json} {x : Visit} :
    x ∈ Form.environment.visits v ↔ ∃ entries i m, v = some (.array entries) ∧
      entries[i]? = some (.object m) ∧ ∃ y ∈ Part.entry.visits m, y.under (.index i) = x := by
  rcases v with _ | v
  · simp [Form.visits]
  cases v with
  | array entries =>
    rw [Form.visits]
    simp only [List.mem_flatMap, List.mem_map, mem_formVisits_part, List.mem_zipIdx_iff_getElem?]
    constructor
    · rintro ⟨e, hi, y, ⟨m, hm, hy⟩, rfl⟩
      exact ⟨entries, e.2, m, rfl, Option.some.inj hm ▸ hi, y, hy, rfl⟩
    · rintro ⟨_, i, m, hentries, hi, y, hy, rfl⟩
      obtain rfl := Json.array.inj (Option.some.inj hentries)
      exact ⟨(.object m, i), hi, y, ⟨m, rfl, hy⟩, rfl⟩
  | _ => simp [Form.visits]

/-- The objects that are read of a visited object are visited. -/
theorem visited_of_mem_visits (q : Part) : ∀ l m, Visited root l q m → ∀ x ∈ q.visits m,
    Visited root (l ++ x.location) x.part x.members := by
  induction q using Part.induction with
  | step q ihpart ihentry =>
    intro l m h x hx
    rw [Part.visits_eq] at hx
    rcases List.mem_cons.mp hx with rfl | hx
    · rwa [List.append_nil]
    obtain ⟨⟨name, form⟩, hfield, hx⟩ := List.mem_flatMap.mp hx
    obtain ⟨y, hy, rfl⟩ := List.mem_map.mp hx
    cases form with
    | leaf leaf => simp [Form.visits] at hy
    | part q' =>
      obtain ⟨m', hgiven, hy⟩ := mem_formVisits_part.mp hy
      have hvisited := ihpart name q' hfield _ m' (.part h hfield hgiven) y hy
      simpa [Visit.under] using hvisited
    | environment =>
      obtain ⟨entries, i, m', hgiven, hi, z, hz, rfl⟩ := mem_formVisits_environment.mp hy
      have hvisited := ihentry name hfield _ m' (.entry h hfield hgiven hi) z hz
      simpa [Visit.under] using hvisited

/-- **The strays are the members of visited objects that no table knows.** -/
theorem mem_strays_iff {l : Location} :
    l ∈ strays (.object root) ↔ ∃ l' q m name, Visited root l' q m ∧
      name ∈ Entries.names m ∧ name ∉ q.known ∧ l = l' ++ [.key name] := by
  constructor
  · intro hl
    rw [strays, Form.strays_part] at hl
    obtain ⟨x, hx, hl⟩ := List.mem_flatMap.mp hl
    obtain ⟨name, hname, rfl⟩ := List.mem_map.mp hl
    obtain ⟨hmem, hunknown⟩ := List.mem_filter.mp hname
    have hvisited := visited_of_mem_visits .request [] root .root x hx
    exact ⟨x.location, x.part, x.members, name, hvisited, hmem, by simpa using hunknown, rfl⟩
  · rintro ⟨l', q, m, name, hvisited, hmem, hunknown, rfl⟩
    have hstranger : name ∈ strangers q.known m :=
      List.mem_filter.mpr ⟨hmem, by simpa using hunknown⟩
    have hfinding : (⟨[.key name], .unrecognized⟩ : Finding) ∈ q.findings m :=
      mem_part.mpr (Or.inl ⟨name, hstranger, rfl⟩)
    rw [← stray?_surveyRequest]
    exact List.mem_filterMap.mpr ⟨_, hvisited.finding hfinding, if_pos rfl⟩

theorem nodup_strays (hroot : (Json.object root).WellFormed) :
    (strays (.object root)).Nodup := by
  rw [← stray?_surveyRequest]
  have hfound := nodup_surveyRequest hroot
  have hsublist : List.Sublist ((surveyRequest (.object root)).findings.filterMap Finding.stray?)
      ((surveyRequest (.object root)).findings.map Finding.location) := by
    induction (surveyRequest (.object root)).findings with
    | nil => exact .slnil
    | cons f found ih =>
      by_cases h : f.fault = .unrecognized
      · simpa [Finding.stray?, h] using ih
      · simpa [Finding.stray?, h] using ih.cons _
  exact hfound.sublist hsublist

end Validation

end ModelCatalog
