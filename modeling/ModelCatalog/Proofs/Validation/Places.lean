/-
  ModelCatalog/Proofs/Validation/Places.lean
  ==========================================
  **No place is at fault twice.**

  Names occur once in a well-formed object, and the fields of a part have names of
  their own; so the branches of a part lead to different places (`nodup_steps`), and
  what is found behind each of them is again at different places (`nodup_part`, by
  induction on the part).  Two findings are not behind a branch: a variable without a
  name, and bounds out of order.  Each stands at a field with which nothing else is
  wrong (`not_mem_gather_entry`, `not_mem_gather_scaling`).
-/
import ModelCatalog.Proofs.Entries
import ModelCatalog.Proofs.Validation.Certainty

namespace ModelCatalog

/-! ### Members of well-formed objects -/

namespace Json

theorem MembersWellFormed.of_mem {members : Members} (h : MembersWellFormed members)
    {name : String} {v : Json} (hmem : (name, v) ∈ members) : v.WellFormed := by
  induction members with
  | nil => simp at hmem
  | cons e rest ih =>
    rcases List.mem_cons.mp hmem with rfl | hrest
    · exact h.1
    · exact ih h.2 hrest

theorem AllWellFormed.of_mem {items : List Json} (h : AllWellFormed items) {v : Json}
    (hmem : v ∈ items) : v.WellFormed := by
  induction items with
  | nil => simp at hmem
  | cons item rest ih =>
    rcases List.mem_cons.mp hmem with rfl | hrest
    · exact h.1
    · exact ih h.2 hrest

end Json

namespace Validation

open Survey

theorem mem_of_given {members : Json.Members} {name : String} {v : Json}
    (h : given members name = some v) : (name, v) ∈ members := by
  unfold given at h
  split at h
  · simp at h
  · exact Entries.mem_of_get? h

theorem wellFormed_of_given {members : Json.Members} (h : (Json.object members).WellFormed)
    {name : String} {v : Json} (hgiven : given members name = some v) : v.WellFormed :=
  Json.MembersWellFormed.of_mem h.2 (mem_of_given hgiven)

/-! ### Lists of items -/

theorem nodup_items (found : Json → List Finding) (position : Nat) {items : List Json}
    (hfound : ∀ v ∈ items, ((found v).map Finding.location).Nodup) :
    ((gather ((items.zipIdx position).map fun e => (.index e.2, found e.1))).map
      Finding.location).Nodup := by
  apply nodup_gather
  · have hpositions : ((items.zipIdx position).map Prod.snd).Nodup := by
      rw [List.zipIdx_map_snd]
      exact List.nodup_range'
    have hsteps := hpositions.map (f := Segment.index) fun _ _ h => Segment.index.inj h
    rw [List.map_map] at hsteps ⊢
    exact hsteps
  · intro b hb
    obtain ⟨e, he, rfl⟩ := List.mem_map.mp hb
    exact hfound e.1 (List.fst_mem_of_mem_zipIdx he)

/-! ### Leaves -/

/-- A reader that notes at most one thing notes it once. -/
theorem nodup_of_length_le_one {found : List Finding} (h : found.length ≤ 1) :
    (found.map Finding.location).Nodup := by
  match found, h with
  | [], _ => exact List.nodup_nil
  | [f], _ => exact List.nodup_singleton f.location

theorem length_identifier (initial : String) (v : Option Json) :
    (identifier initial v).findings.length ≤ 1 := by
  unfold identifier
  repeat' split
  all_goals simp

theorem length_number (initial : Double) (least : Nat) (v : Option Json) :
    (number initial least v).findings.length ≤ 1 := by
  unfold number
  repeat' split
  all_goals simp

theorem length_count (initial : UInt32) (least : Nat) (v : Option Json) :
    (count initial least v).findings.length ≤ 1 := by
  unfold count
  repeat' split
  all_goals simp

theorem nodup_texts (initial : List String) (v : Option Json) :
    ((texts initial v).findings.map Finding.location).Nodup := by
  rcases v with _ | v
  · exact List.nodup_nil
  cases v with
  | array items =>
    change ((textItems 0 items).findings.map Finding.location).Nodup
    rw [findings_textItems]
    refine nodup_items itemFindings 0 fun v _ => nodup_of_length_le_one ?_
    unfold itemFindings
    split <;> simp
  | _ => exact List.nodup_singleton _

theorem nodup_leaf (l : Leaf) (v : Option Json) :
    ((l.findings v).map Finding.location).Nodup := by
  cases l with
  | identifier => exact nodup_of_length_le_one (length_identifier _ v)
  | number least => exact nodup_of_length_le_one (length_number _ least v)
  | count least => exact nodup_of_length_le_one (length_count _ least v)
  | texts => exact nodup_texts _ v
  | text | requiredText | flag =>
    apply nodup_of_length_le_one
    rcases v with _ | v
    · simp [Leaf.findings, text, requiredText, flag]
    · cases v <;> simp [Leaf.findings, text, requiredText, flag]
  | alternative names =>
    apply nodup_of_length_le_one
    unfold Leaf.findings
    repeat' split
    all_goals simp_all

/-! ### Fields and parts -/

theorem nodup_environmentMember (key : String) (v : Json) :
    ((environmentMember key v).findings.map Finding.location).Nodup := by
  apply nodup_of_length_le_one
  by_cases hkey : key = ""
  · simp [environmentMember, hkey]
  · cases v <;> simp [environmentMember, hkey]

/-- A field has its faults at different places if the parts below it do. -/
theorem nodup_form_of_parts {form : Form} {v : Option Json}
    (hv : ∀ x, v = some x → x.WellFormed)
    (hpart : ∀ q, form = .part q → ∀ m, (Json.object m).WellFormed →
      ((q.findings m).map Finding.location).Nodup)
    (hentry : form = .environment → ∀ m, (Json.object m).WellFormed →
      ((Part.entry.findings m).map Finding.location).Nodup) :
    ((form.findings v).map Finding.location).Nodup := by
  rcases v with _ | x
  · cases form with
    | leaf l => exact nodup_leaf l none
    | part q => exact List.nodup_nil
    | environment => exact List.nodup_nil
  have hx := hv x rfl
  cases form with
  | leaf l => exact nodup_leaf l (some x)
  | part q =>
    cases x with
    | object m => exact hpart q rfl m hx
    | _ => exact List.nodup_singleton _
  | environment =>
    cases x with
    | array entries =>
      change ((environmentEntries 0 entries).findings.map Finding.location).Nodup
      rw [findings_environmentEntries]
      apply nodup_items fun v => (environmentEntry v).findings
      intro v hmem
      have hv := Json.AllWellFormed.of_mem hx hmem
      cases v with
      | object m => exact hentry rfl m hv
      | _ => exact List.nodup_singleton _
    | object m =>
      change ((environmentMembers m).findings.map Finding.location).Nodup
      rw [findings_environmentMembers]
      apply nodup_gather
      · have hnames := hx.1.nodup_names
        have hsteps := hnames.map (f := Segment.key) fun _ _ h => Segment.key.inj h
        rw [List.map_map] at hsteps ⊢
        exact hsteps
      · intro b hb
        obtain ⟨e, -, rfl⟩ := List.mem_map.mp hb
        exact nodup_environmentMember e.1 e.2
    | _ => exact List.nodup_singleton _

/-- The branches of a part lead through different steps. -/
theorem nodup_steps {q : Part} {m : Json.Members} (h : (m.map Prod.fst).Nodup) :
    ((q.branches m).map Prod.fst).Nodup := by
  have hfields : (q.fields.map Prod.fst).Nodup := q.nodup_fields
  have hnames : (strangers q.known m ++ q.fields.map Prod.fst).Nodup := by
    refine List.nodup_append'.mpr ⟨h.filter _, hfields, ?_⟩
    intro name hstranger hfield
    rw [q.fields_names] at hfield
    have hknown : name ∉ q.known := by simpa using (List.mem_filter.mp hstranger).2
    exact hknown (Part.mem_known hfield)
  have hsteps := hnames.map (f := Segment.key) fun _ _ h => Segment.key.inj h
  simpa [Part.branches, Function.comp_def] using hsteps

/-- A finding behind a branch that is a field stands with what is given for the field. -/
theorem mem_gather_of_field {q : Part} {m : Json.Members} {name : String} {form : Form}
    (hfield : (name, form) ∈ q.fields) {f : Finding} (hf : f ∈ gather (q.branches m))
    {l : Location} (hl : f.location = .key name :: l) :
    ∃ f' ∈ form.findings (given m name), f'.location = l ∧ f'.fault = f.fault := by
  have hkeys : name ∈ q.keys := Part.mem_keys hfield
  have hnames : (q.fields.map Prod.fst).Nodup := q.nodup_fields
  obtain ⟨b, hb, f', hf', rfl⟩ := mem_gather.mp hf
  obtain ⟨hstep, rfl⟩ := List.cons.inj hl
  rcases List.mem_append.mp hb with hb | hb
  · -- a member without a meaning is no field
    obtain ⟨stranger, hstranger, rfl⟩ := List.mem_map.mp hb
    have hunknown : stranger ∉ q.known := by simpa using (List.mem_filter.mp hstranger).2
    exact absurd (Part.mem_known (Segment.key.inj hstep ▸ hkeys)) hunknown
  · obtain ⟨field, hmem, rfl⟩ := List.mem_map.mp hb
    have heq : field = (name, form) :=
      List.inj_on_of_nodup_map hnames hmem hfield (Segment.key.inj hstep)
    subst heq
    exact ⟨f', hf', rfl, rfl⟩

theorem requiredText_eq_empty_iff {v : Option Json} :
    (requiredText v).value = some "" ↔ v = some (.string "") := by
  rcases v with _ | v
  · simp [requiredText]
  · cases v <;> simp [requiredText]

/-- A variable without a name is noted where nothing else is. -/
theorem not_mem_gather_entry {m : Json.Members}
    (h : (requiredText (given m "key")).value = some "")
    {f : Finding} (hf : f ∈ gather (Part.entry.branches m)) : f.location ≠ [.key "key"] := by
  intro hl
  have hfield : ("key", .leaf .requiredText) ∈ Part.entry.fields := by decide
  obtain ⟨f', hf', -, -⟩ := mem_gather_of_field hfield hf hl
  simp [requiredText_eq_empty_iff.mp h, Leaf.findings, requiredText] at hf'

/-- Bounds are noted out of order where nothing else is: a bound at fault is not
    compared. -/
theorem not_mem_gather_scaling {m : Json.Members}
    (h : ∀ g ∈ (scalingFields m).findings, g.location.EndsWith "Capacity" →
      g.fault = .unrecognized)
    {f : Finding} (hf : f ∈ gather (Part.scaling.branches m)) :
    f.location ≠ [.key "minCapacity"] := by
  intro hl
  have hfield : ("minCapacity", .leaf (.count 1)) ∈ Part.scaling.fields := by decide
  obtain ⟨f', hf', hl', -⟩ := mem_gather_of_field hfield hf hl
  have hmem : f'.under (.key "minCapacity") ∈ (scalingFields m).findings := by
    rw [findings_scalingFields]
    exact mem_gather.mpr ⟨_, List.mem_map_of_mem hfield, f', hf', rfl⟩
  have hends : (f'.under (.key "minCapacity")).location.EndsWith "Capacity" := by
    rw [Finding.location_under, hl']
    decide
  have hcertain := certain_leaf (show Leaf.count 1 ≠ .identifier by decide) _ f' hf'
  have hunrecognized : f'.fault = .unrecognized := h (f'.under _) hmem hends
  have hcounts := hcertain {}
  simp [hunrecognized, Fault.counts] at hcounts

theorem length_tail (q : Part) (m : Json.Members) : (q.tail m).length ≤ 1 := by
  cases q with
  | scaling =>
    simp only [Part.tail, orderFindings]
    split <;> simp
  | entry =>
    simp only [Part.tail]
    split <;> simp
  | _ => simp [Part.tail]

/-- What is found beside the branches of a part stands at one of two fields. -/
theorem mem_tail_location {q : Part} {m : Json.Members} {f : Finding} (hf : f ∈ q.tail m) :
    f.location = [.key "key"] ∨ f.location = [.key "minCapacity"] := by
  cases q with
  | scaling =>
    obtain ⟨-, -, rfl⟩ := mem_orderFindings.mp hf
    exact Or.inr rfl
  | entry =>
    simp only [Part.tail] at hf
    split at hf
    · exact Or.inl (congrArg Finding.location (List.mem_singleton.mp hf))
    · simp at hf
  | _ => simp [Part.tail] at hf

/-- The findings beside the branches of a part are at places of their own. -/
theorem nodup_tail {q : Part} {m : Json.Members}
    (h : ((gather (q.branches m)).map Finding.location).Nodup) :
    ((gather (q.branches m) ++ q.tail m).map Finding.location).Nodup := by
  rw [List.map_append, List.nodup_append']
  refine ⟨h, ?_, ?_⟩
  · exact nodup_of_length_le_one (length_tail q m)
  · intro l hl hl'
    obtain ⟨f, hf, rfl⟩ := List.mem_map.mp hl
    obtain ⟨g, hg, hfg⟩ := List.mem_map.mp hl'
    cases q with
    | scaling =>
      obtain ⟨-, hbounds, rfl⟩ := mem_orderFindings.mp hg
      exact not_mem_gather_scaling hbounds hf hfg.symm
    | entry =>
      simp only [Part.tail] at hg
      split at hg
      · rename_i hname
        rw [List.mem_singleton.mp hg] at hfg
        exact not_mem_gather_entry hname hf hfg.symm
      · simp at hg
    | _ => simp [Part.tail] at hg

/-- **What is found in a part is found at different places.** -/
theorem nodup_part (q : Part) : ∀ m, (Json.object m).WellFormed →
    ((q.findings m).map Finding.location).Nodup := by
  induction q using Part.induction with
  | step q ihpart ihentry =>
    intro m hm
    rw [findings_part]
    refine nodup_tail (nodup_gather (nodup_steps hm.1.nodup_names) ?_)
    intro b hb
    rcases List.mem_append.mp hb with hb | hb
    · obtain ⟨name, -, rfl⟩ := List.mem_map.mp hb
      exact List.nodup_singleton _
    · obtain ⟨⟨name, form⟩, hfield, rfl⟩ := List.mem_map.mp hb
      refine nodup_form_of_parts (fun x => wellFormed_of_given hm) ?_ ?_
      · rintro q' rfl
        exact ihpart name q' hfield
      · rintro rfl
        exact ihentry name hfield

/-- **No place of a submitted object is at fault twice.** -/
theorem nodup_surveyRequest {m : Json.Members} (hm : (Json.object m).WellFormed) :
    ((surveyRequest (.object m)).findings.map Finding.location).Nodup := by
  rw [findings_surveyRequest, List.map_append, List.nodup_append']
  refine ⟨?_, nodup_part .request m hm, ?_⟩
  · apply nodup_of_length_le_one
    unfold statusFindings
    split <;> simp
  · intro l hl hl'
    obtain ⟨g, hg, rfl⟩ := List.mem_map.mp hl
    obtain ⟨f, hf, hfg⟩ := List.mem_map.mp hl'
    have hlocation : g.location = [.key statusKey] := by
      obtain ⟨-, rfl⟩ := mem_statusFindings.mp hg
      rfl
    rw [hlocation] at hfg
    rcases mem_part.mp hf with ⟨name, hname, rfl⟩ | ⟨name, form, hfield, f', -, rfl⟩ | hf
    · have hunknown : name ∉ Part.request.known := by simpa using (List.mem_filter.mp hname).2
      have heq : name = statusKey := by simpa using hfg
      exact hunknown (heq ▸ List.mem_cons_self)
    · have heq : name = statusKey := by
        simpa using (List.cons.inj hfg).1
      have hkeys : statusKey ∈ Part.request.keys :=
        Part.request.fields_names ▸ List.mem_map.mpr ⟨_, hfield, heq⟩
      exact absurd hkeys (by decide)
    · simp [Part.tail] at hf

end Validation

end ModelCatalog
