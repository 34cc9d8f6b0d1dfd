/-
  ModelCatalog/Proofs/Validation/SubmittedStatus.lean
  ===================================================
  **A status is held against the root alone.**

  A status that is added to an input is one violation ahead of the others, for a request
  and for a descriptor (`status_of_findings`).  Below the root it is an unknown member like
  any other.  An unknown member that is added to a visited object is one finding more
  there, and one finding more in each object on the way to the root (`Gains`): it lies in
  one field of each (`Gains.of_field`), the other fields are found as before, and so is
  what is found beside the fields.  A name that looks like a bound of scaling is excepted,
  since it may mask that the bounds are out of order.
-/
import ModelCatalog.Proofs.Validation.BareDescriptor
import ModelCatalog.Proofs.Validation.CapacityOrder
import ModelCatalog.Proofs.Validation.Changes
import ModelCatalog.Proofs.Validation.Inertness

namespace ModelCatalog.Validation

open Survey

variable {p : Policy}

/-! ### A status of the root -/

/-- **A status is one violation more**, ahead of all others, and is not logged. -/
theorem status_of_findings {α : Type} {x y : Survey α}
    (h : y = ⟨x.value, ⟨[.key statusKey], .outputOnly⟩ :: x.findings⟩) :
    (y.judge p).outcome =
        .error (⟨"status", .shape, "is output-only and cannot be submitted"⟩ ::
          (x.judge p).violations) ∧
      (y.judge p).log = (x.judge p).log := by
  have hstatus : Finding.violation? p ⟨[.key statusKey], .outputOnly⟩ =
      some ⟨"status", .shape, "is output-only and cannot be submitted"⟩ :=
    violation?_key p statusKey .outputOnly
  have hviolations : y.violations p =
      ⟨"status", .shape, "is output-only and cannot be submitted"⟩ :: x.violations p := by
    rw [Survey.violations, h]
    exact List.filterMap_cons_some hstatus
  constructor
  · rw [outcome_judge, violations_judge, hviolations]
    exact if_neg (List.cons_ne_nil _ _)
  · have hdropped : Finding.dropped? p ⟨[.key statusKey], .outputOnly⟩ = none := by
      simp [Finding.dropped?]
    rw [h]
    exact congrArg (List.map LogEntry.dropped) (List.filterMap_cons_none hdropped)

theorem surveyDescriptor_insert_status {m : Json.Members} (v : Json)
    (hfree : Entries.contains m statusKey = false) :
    surveyDescriptor (.object (Entries.insert statusKey v m)) =
      ⟨(surveyDescriptor (.object m)).value,
        ⟨[.key statusKey], .outputOnly⟩ :: (surveyDescriptor (.object m)).findings⟩ := by
  apply root_insert_status _ hfree
  apply descriptor_congr
  intro name hname
  apply given_insert_of_ne
  rintro rfl
  exact absurd hname (by decide)

/-! ### One finding more in one field -/

/-- What is found in fields of which one finds one thing more. -/
theorem inserts_gather {fields : List (String × Form)} (hnames : (fields.map Prod.fst).Nodup)
    {name : String} {form : Form} (hfield : (name, form) ∈ fields) {m m' : Json.Members}
    (hbeside : Beside name m m') {f : Finding}
    (h : Inserts f (form.findings (given m name)) (form.findings (given m' name))) :
    Inserts (f.under (.key name))
      (gather (fields.map fun e => (.key e.1, e.2.findings (given m e.1))))
      (gather (fields.map fun e => (.key e.1, e.2.findings (given m' e.1)))) := by
  obtain ⟨before, after, rfl⟩ := List.append_of_mem hfield
  rw [List.map_append, List.map_cons] at hnames
  obtain ⟨-, hafter, hbetween⟩ := List.nodup_append.mp hnames
  have hsame : ∀ others : List (String × Form), name ∉ others.map Prod.fst →
      (others.map fun e => (Segment.key e.1, e.2.findings (given m e.1))) =
        others.map fun e => (Segment.key e.1, e.2.findings (given m' e.1)) := by
    intro others hothers
    apply List.map_congr_left
    intro e he
    have hne : e.1 ≠ name := by
      rintro rfl
      exact hothers (List.mem_map_of_mem he)
    rw [hbeside.others e.1 hne]
  have hbefore : name ∉ before.map Prod.fst := by
    intro hmem
    exact hbetween name hmem name List.mem_cons_self rfl
  simp only [List.map_append, List.map_cons, gather_append, gather_cons]
  rw [hsame before hbefore, hsame after (List.nodup_cons.mp hafter).1]
  exact ((h.map (Finding.under (.key name))).append_right _).append_left _

/-- What is found in an environment of which one entry finds one thing more. -/
theorem inserts_entries {before after : List Json} {x x' : Json.Members} {f : Finding}
    (h : Inserts f (Part.entry.findings x) (Part.entry.findings x')) :
    Inserts (f.under (.index before.length))
      (Form.environment.findings (some (.array (before ++ .object x :: after))))
      (Form.environment.findings (some (.array (before ++ .object x' :: after)))) := by
  simp only [Form.findings, environment, findings_environmentEntries, List.zipIdx_append,
    List.zipIdx_cons, List.map_append, List.map_cons, gather_append, gather_cons, Nat.zero_add]
  exact ((h.map (Finding.under (.index before.length))).append_right _).append_left _

theorem findings_descriptorFields (m : Json.Members) :
    (descriptor m).findings =
      gather (Part.request.fields.dropLast.map fun f =>
        (.key f.1, f.2.findings (given m f.1))) := by
  simp [descriptor, Part.fields, Named.all, Named.name]

/-! ### What is found beside the fields -/

/-- A finding at a place that does not look like a bound does not bear on their order. -/
theorem orderFindings_congr {x y : Survey ScalingConfig} {f : Finding}
    (hvalue : x.value = y.value) (hfindings : Inserts f x.findings y.findings)
    (hf : ¬ f.location.EndsWith "Capacity") : orderFindings y = orderFindings x := by
  have hbounds : y.findings.filter (fun g => g.location.EndsWith "Capacity") =
      x.findings.filter fun g => g.location.EndsWith "Capacity" :=
    hfindings.filter_neg (by simpa using hf)
  rw [orderFindings, orderFindings, hbounds, hvalue]

theorem scalingFields_congr {m m' : Json.Members}
    (h : ∀ name ∈ ScalingConfig.keys, given m name = given m' name) :
    scalingFields m = scalingFields m' := by
  have hfield : ∀ {α : Type} {name : String} {read : Option Json → Survey α},
      name ∈ ScalingConfig.keys → field m name read = field m' name read := by
    intro α name read hname
    rw [field, field, h name hname]
  simp (disch := decide) only [scalingFields, hfield]

theorem tail_congr {q : Part} {m m' : Json.Members}
    (h : ∀ name ∈ q.keys, given m name = given m' name) : q.tail m = q.tail m' := by
  cases q with
  | scaling => rw [Part.tail, Part.tail, scalingFields_congr h]
  | entry => rw [Part.tail, Part.tail, h "key" (by decide)]
  | _ => rfl

/-! ### One unknown member more below the root -/

/-- An object of which another one differs by an unknown member somewhere in it. -/
structure Gains (added : String) (l : Location) (q : Part) (m m' : Json.Members) : Prop where
  read : agreement.Fields q m m'
  findings : Inserts ⟨l ++ [.key added], .unrecognized⟩ (q.findings m) (q.findings m')
  /-- Below the root the member lies in a field of the descriptor. -/
  descriptor : q = .request → l ≠ [] → Entries.names m = Entries.names m' ∧
    Inserts ⟨l ++ [.key added], .unrecognized⟩ (Validation.descriptor m).findings
      (Validation.descriptor m').findings

/-- A known name is given the same whatever unknown member is added. -/
theorem given_insert_unknown {added : String} {q : Part} (hadded : added ∉ q.known)
    (v : Json) (m : Json.Members) :
    ∀ name ∈ q.keys, given (Entries.insert added v m) name = given m name := by
  intro name hname
  apply given_insert_of_ne
  rintro rfl
  exact hadded (Part.mem_known hname)

theorem agreement_insert {added : String} {q : Part} (hadded : added ∉ q.known) (v : Json)
    (m : Json.Members) : agreement.Fields q m (Entries.insert added v m) := by
  constructor
  case strangers => exact agreement_noteUnrecognized _ _ _
  case status =>
    rintro rfl
    have hne : added ≠ statusKey := by
      rintro rfl
      exact hadded List.mem_cons_self
    rw [contains_insert_of_ne hne]
  case fields =>
    intro name form hfield
    rw [given_insert_unknown hadded v m name (Part.mem_keys hfield)]
    exact agreement.given_refl _ _

/-- An unknown member that is added to an object is one finding more there. -/
theorem inserts_findings {added : String} {q : Part} (hadded : added ∉ q.known)
    {m : Json.Members} (hfree : Entries.get? m added = none) (v : Json) :
    Inserts ⟨[.key added], .unrecognized⟩ (q.findings m)
      (q.findings (Entries.insert added v m)) := by
  have hgiven := given_insert_unknown hadded v m
  have hfields : (q.fields.map fun f =>
      (Segment.key f.1, f.2.findings (given (Entries.insert added v m) f.1))) =
        q.fields.map fun f => (Segment.key f.1, f.2.findings (given m f.1)) := by
    apply List.map_congr_left
    intro f hf
    rw [hgiven f.1 (Part.mem_keys hf)]
  have hnoted := inserts_noteUnrecognized (Entries.inserts_insert hfree v) hadded
  rw [findings_noteUnrecognized, findings_noteUnrecognized] at hnoted
  rw [findings_part, findings_part, Part.branches, Part.branches, gather_append, gather_append,
    hfields, tail_congr hgiven]
  exact (hnoted.append_right _).append_right _

/-- What is found beside the fields is the same, whatever unknown member lies in a field:
    it is no bound, and the key of a variable is no object. -/
theorem tail_of_field {added : String} (hadded : ¬ "Capacity".toList <:+ added.toList)
    {l : Location} {q : Part} {name : String} {form : Form} {m m' : Json.Members}
    (hfield : (name, form) ∈ q.fields) (hform : ∀ leaf, form ≠ .leaf leaf)
    (hbeside : Beside name m m') (hread : agreement.Fields q m m')
    (hfound : Inserts ⟨l ++ [.key added], .unrecognized⟩ (form.findings (given m name))
      (form.findings (given m' name))) : q.tail m' = q.tail m := by
  cases q with
  | scaling =>
    have hscaling := inserts_gather Part.scaling.nodup_fields hfield hbeside hfound
    rw [← findings_scalingFields, ← findings_scalingFields] at hscaling
    have hplace : ¬ Location.EndsWith (.key name :: l ++ [.key added]) "Capacity" :=
      mt (endsWith_capacity_iff _ _).mp hadded
    exact orderFindings_congr hread.scaling.1 hscaling hplace
  | entry =>
    have hname : "key" ≠ name := by
      rintro rfl
      have hleaf : form = .leaf .requiredText := Part.form_unique (by decide) hfield
      exact hform _ hleaf
    rw [Part.tail, Part.tail, hbeside.others "key" hname]
  | _ => rfl

/-- An unknown member of the object itself. -/
theorem Gains.insert {added : String} {q : Part} (hadded : added ∉ q.known) {m : Json.Members}
    (hfree : Entries.get? m added = none) (v : Json) :
    Gains added [] q m (Entries.insert added v m) where
  read := agreement_insert hadded v m
  findings := inserts_findings hadded hfree v
  descriptor _ hl := absurd rfl hl

/-- **An unknown member in a field of an object is an unknown member in the object.** -/
theorem Gains.of_field {added : String} (hadded : ¬ "Capacity".toList <:+ added.toList)
    {l : Location} {q : Part} {name : String} {form : Form} {m m' : Json.Members}
    (hfield : (name, form) ∈ q.fields) (hform : ∀ leaf, form ≠ .leaf leaf)
    (hbeside : Beside name m m')
    (hread : agreement.Given form (given m name) (given m' name))
    (hfound : Inserts ⟨l ++ [.key added], .unrecognized⟩ (form.findings (given m name))
      (form.findings (given m' name))) : Gains added (.key name :: l) q m m' := by
  have hfields : agreement.Fields q m m' := hbeside.fields hfield hread
  constructor
  case read => exact hfields
  case findings =>
    rw [findings_part, findings_part, Part.branches, Part.branches, gather_append, gather_append,
      hbeside.strangers, tail_of_field hadded hfield hform hbeside hfields hfound]
    exact ((inserts_gather q.nodup_fields hfield hbeside hfound).append_left _).append_right _
  case descriptor =>
    rintro rfl -
    -- the one field that a request has beside its descriptor holds no object
    have hown : (name, form) ∈ Part.request.fields.dropLast := by
      have hmem : (name, form) ∈
          Part.request.fields.dropLast ++ [("lisaHostedModel", .leaf .flag)] := hfield
      rcases List.mem_append.mp hmem with hmem | hmem
      · exact hmem
      · have hleaf : form = .leaf .flag := (Prod.mk.inj (List.mem_singleton.mp hmem)).2
        exact absurd hleaf (hform _)
    have hnames : (Part.request.fields.dropLast.map Prod.fst).Nodup := by decide
    rw [findings_descriptorFields, findings_descriptorFields]
    exact ⟨hbeside.names, inserts_gather hnames hown hbeside hfound⟩

/-- **An unknown member of a visited object is an unknown member of the whole.** -/
theorem Visited.gains {added : String} (hadded : ¬ "Capacity".toList <:+ added.toList)
    {root : Json.Members} {l : Location} {q : Part} {m : Json.Members} (h : Visited root l q m)
    (hunknown : added ∉ q.known) (hfree : Entries.get? m added = none) (v : Json) :
    ∃ r', Json.changeAt (Entries.insert added v) l (.object root) = .object r' ∧
      Gains added l .request root r' := by
  have hinsert : Gains added [] q (id m) (Entries.insert added v m) :=
    Gains.insert hunknown hfree v
  have hlift : ∃ r r', Json.changeAt id l (.object root) = .object r ∧
      Json.changeAt (Entries.insert added v) l (.object root) = .object r' ∧
        Gains added l .request r r' := by
    refine h.lift (P := Gains added) ?_ ?_ id (Entries.insert added v) hinsert
    · intro l q q' name m m' x x' hfield hbeside hgiven hgiven' hx
      apply Gains.of_field hadded hfield (by simp) hbeside
      · rw [hgiven, hgiven']
        exact Survey.Congruence.object hx.read
      · rw [hgiven, hgiven']
        exact hx.findings
    · intro l q name m m' before x x' after hfield hbeside hgiven hgiven' hx
      apply Gains.of_field hadded hfield (by simp) hbeside
      · rw [hgiven, hgiven']
        exact given_entries (Survey.Congruence.object hx.read)
      · rw [hgiven, hgiven']
        exact inserts_entries hx.findings
  obtain ⟨r, r', hroot, hchanged, hgains⟩ := hlift
  rw [Json.changeAt_id] at hroot
  obtain rfl := Json.object.inj hroot
  exact ⟨r', hchanged, hgains⟩

/-! ### Verdicts -/

theorem Gains.request {added : String} {l : Location} {m m' : Json.Members}
    (h : Gains added l .request m m') (p : Policy) :
    Verdict.NotesUnknown p (Location.text (l ++ [.key added])) (validateRequest p (.object m))
      (validateRequest p (.object m')) := by
  have hread : agreement.Alike (surveyRequest (.object m)) (surveyRequest (.object m')) :=
    Survey.Congruence.object h.read
  have hstatus : statusFindings m' = statusFindings m := by
    rw [statusFindings, statusFindings, h.read.status rfl]
  refine Survey.notesUnknown_judge hread.1.symm ?_ p
  rw [findings_surveyRequest, findings_surveyRequest, hstatus]
  exact h.findings.append_left _

theorem Gains.bare {added : String} {l : Location} (hl : l ≠ []) {m m' : Json.Members}
    (h : Gains added l .request m m') (p : Policy) :
    Verdict.NotesUnknown p (Location.text (l ++ [.key added])) (validateDescriptor p (.object m))
      (validateDescriptor p (.object m')) := by
  obtain ⟨hnames, hfindings⟩ := h.descriptor rfl hl
  have hnoted : (noteUnrecognized (statusKey :: Descriptor.keys) m').findings =
      (noteUnrecognized (statusKey :: Descriptor.keys) m).findings := by
    have hmap : m'.map Prod.fst = m.map Prod.fst := hnames.symm
    rw [findings_noteUnrecognized, findings_noteUnrecognized, strangers, strangers, hmap]
  have hstatus : statusFindings m' = statusFindings m := by
    rw [statusFindings, statusFindings, h.read.status rfl]
  refine Survey.notesUnknown_judge ?_ ?_ p
  · rw [surveyDescriptor, surveyDescriptor, value_root, value_root]
    exact h.read.descriptor.1.symm
  · rw [surveyDescriptor, surveyDescriptor, findings_root, findings_root, hstatus, hnoted]
    exact (hfindings.append_left _).append_left _

theorem status_unknown {root : Json.Members} {l : Location} {q : Part} {m : Json.Members}
    (h : Visited root l q m) (hl : l ≠ []) : statusKey ∉ q.known := by
  rw [h.mem_known_iff]
  rintro (hkeys | ⟨hroot, -⟩)
  · revert hkeys
    cases q <;> decide
  · exact hl hroot

/-- **A submitted status adds one violation and nothing else**, to a request and to a
    descriptor; below the root it is an unknown member like any other. -/
theorem validateRequest_status (p : Policy) (m : Json.Members) :
    (Entries.contains m statusKey = false → ∀ s : Json,
      ((validateRequest p (.object (Entries.insert statusKey s m))).outcome =
          .error (⟨"status", .shape, "is output-only and cannot be submitted"⟩ ::
            (validateRequest p (.object m)).violations) ∧
        (validateRequest p (.object (Entries.insert statusKey s m))).log =
          (validateRequest p (.object m)).log) ∧
      (validateDescriptor p (.object (Entries.insert statusKey s m))).outcome =
          .error (⟨"status", .shape, "is output-only and cannot be submitted"⟩ ::
            (validateDescriptor p (.object m)).violations) ∧
        (validateDescriptor p (.object (Entries.insert statusKey s m))).log =
          (validateDescriptor p (.object m)).log) ∧
    ∀ l q members, Visited m l q members → l ≠ [] →
      ∀ name, name = statusKey ∨ name ∉ q.keys ∧ ¬ "Capacity".toList <:+ name.toList →
        Entries.get? members name = none → ∀ x : Json,
          Verdict.NotesUnknown p (Location.text (l ++ [.key name]))
              (validateRequest p (.object m))
              (validateRequest p (Json.changeAt (Entries.insert name x) l (.object m))) ∧
            Verdict.NotesUnknown p (Location.text (l ++ [.key name]))
              (validateDescriptor p (.object m))
              (validateDescriptor p (Json.changeAt (Entries.insert name x) l (.object m))) := by
  refine ⟨?_, ?_⟩
  · intro hfree s
    exact ⟨status_of_findings (surveyRequest_insert_status s hfree),
      status_of_findings (surveyDescriptor_insert_status s hfree)⟩
  · intro l q members h hl name hname hfree x
    have hadded : name ∉ q.known ∧ ¬ "Capacity".toList <:+ name.toList := by
      rcases hname with rfl | ⟨hkeys, hcapacity⟩
      · exact ⟨status_unknown h hl, by decide⟩
      · refine ⟨?_, hcapacity⟩
        rw [h.mem_known_iff]
        rintro (hmem | ⟨hroot, -⟩)
        · exact hkeys hmem
        · exact hl hroot
    obtain ⟨r', hchanged, hgains⟩ := h.gains hadded.2 hadded.1 hfree x
    rw [hchanged]
    exact ⟨hgains.request p, hgains.bare hl p⟩

/-- A status is refused at the root, and in a variable of the environment it is a member
    without a meaning. -/
theorem validateRequest_status_entry :
    let model (entry : Json.Members) : Json.Members :=
      [("containerConfig", .object [("environment", .array [.object entry])])]
    let m := model [("key", .string "A"), ("value", .string "B")]
    (validateRequest {} (.object (Entries.insert statusKey .null m))).outcome =
        .error [⟨"status", .shape, "is output-only and cannot be submitted"⟩] ∧
      Verdict.NotesUnknown {} "containerConfig.environment[0].status"
        (validateRequest {} (.object m))
        (validateRequest {} (.object (model
          [("key", .string "A"), ("status", .null), ("value", .string "B")]))) := by
  intro model m
  obtain ⟨hroot, hbelow⟩ := validateRequest_status {} m
  obtain ⟨⟨houtcome, -⟩, -⟩ := hroot rfl .null
  have hcontainer : Visited m [.key "containerConfig"] .container
      [("environment", .array [.object [("key", .string "A"), ("value", .string "B")]])] :=
    Visited.part .root (by decide) rfl
  have hentry : Visited m [.key "containerConfig", .key "environment", .index 0] .entry
      [("key", .string "A"), ("value", .string "B")] :=
    Visited.entry hcontainer (by decide) rfl rfl
  obtain ⟨hnotes, -⟩ := hbelow _ _ _ hentry (by simp) statusKey (Or.inl rfl) rfl .null
  have hpath : Location.text ([.key "containerConfig", .key "environment", .index 0] ++
      [.key statusKey]) = "containerConfig.environment[0].status" := by decide
  rw [hpath] at hnotes
  exact ⟨houtcome, hnotes⟩

end ModelCatalog.Validation
