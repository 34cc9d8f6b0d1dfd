/-
  ModelCatalog/Proofs/Validation/EnvironmentForms.lean
  ====================================================
  **An environment given as an object means what the list of its pairs means.**

  A member of the object and the pair that spells it out are read as the same variable, or
  both are refused (`environmentMember_or_pair`): an empty name and a value that is no text
  are held against either, null among them.  So the two forms are read alike, or neither
  passes (`environment_forms`).  What stands around an environment is found around it,
  whatever the environment is (`findings_withEnvironment`).
-/
import ModelCatalog.Proofs.Validation.Absence
import ModelCatalog.Proofs.Validation.Merging
import ModelCatalog.Proofs.Validation.Regions

namespace ModelCatalog

/-- An insertion of what is there already changes nothing. -/
theorem Entries.Ascending.insert_self {α : Type} {entries : Entries α}
    (h : Ascending entries) {name : String} {value : α} (hget : get? entries name = some value) :
    Entries.insert name value entries = entries := by
  refine (h.insert name value).ext h ?_
  intro wanted
  rw [get?_insert]
  by_cases hname : name = wanted
  · rw [if_pos hname, ← hname, hget]
  · rw [if_neg hname]

/-- Which value is inserted makes no difference to the names. -/
theorem Entries.names_insert_congr {α : Type} (name : String) (value value' : α)
    (entries : Entries α) :
    names (insert name value entries) = names (insert name value' entries) := by
  induction entries with
  | nil => rfl
  | cons e entries ih =>
    obtain ⟨n, v⟩ := e
    unfold Entries.insert
    split
    · rfl
    · split
      · rfl
      · exact congrArg (n :: ·) ih

namespace Validation

open Survey

variable {p : Policy}

/-! ### The two forms -/

/-- The pair that spells out a member of an environment. -/
def pairOf (e : String × Json) : Json := .object [("key", .string e.1), ("value", e.2)]

/-- The list of the pairs that spell out an environment, in the order of its members. -/
def listForm (m : Json.Members) : Json := .array (m.map pairOf)

/-- Where the environment of a request stands. -/
def environmentPlace : Location := [.key "containerConfig", .key "environment"]

theorem field_container : ("containerConfig", Form.part .container) ∈ Part.request.fields := by
  decide

theorem field_environment : ("environment", Form.environment) ∈ Part.container.fields := by
  decide

/-- An input with an environment, in a container among other members. -/
def withEnvironment (env : Json) (container root : Json.Members) : Json :=
  .object (Entries.insert "containerConfig"
    (.object (Entries.insert "environment" env container)) root)

/-- Every input with an environment is one with that environment in its own container,
    among its own members. -/
theorem withEnvironment_self {root container : Json.Members} {env : Json}
    (hroot : Entries.Ascending root) (hcontainer : Entries.Ascending container)
    (hget : Entries.get? root "containerConfig" = some (.object container))
    (henv : Entries.get? container "environment" = some env) :
    withEnvironment env container root = .object root := by
  rw [withEnvironment, hcontainer.insert_self henv, hroot.insert_self hget]

/-! ### Variables -/

/-- **A member and its pair are the same variable, or both are refused.** -/
theorem environmentMember_or_pair (p : Policy) (e : String × Json) :
    (∃ s, e.2 = .string s ∧ environmentMember e.1 e.2 = pure (some ⟨e.1, s⟩) ∧
      environmentEntry (pairOf e) = pure (some ⟨e.1, s⟩)) ∨
    (¬ (environmentMember e.1 e.2).Passes p ∧ ¬ (environmentEntry (pairOf e)).Passes p) := by
  obtain ⟨key, v⟩ := e
  by_cases hsets : key ≠ "" ∧ ∃ s, v = .string s
  · obtain ⟨hkey, s, rfl⟩ := hsets
    left
    refine ⟨s, rfl, ?_, environmentEntry_toJson (e := ⟨key, s⟩) hkey⟩
    simp [environmentMember, hkey]
  · right
    constructor
    · intro hpasses
      obtain ⟨s, rfl, hvalue⟩ := environmentMember_of_passes hpasses
      refine hsets ⟨?_, s, rfl⟩
      rintro rfl
      cases hvalue
    · intro hpasses
      obtain ⟨var, hvalue, m, hm, hkey, hgiven⟩ := givesVariable_of_passes hpasses
      obtain rfl := Json.object.inj hm
      have heq : key = var.key := Json.string.inj (Option.some.inj hkey)
      have hv : v = .string var.value := Option.some.inj (given_eq_some_iff.mp hgiven).1
      exact hsets ⟨heq ▸ key_environmentEntry hvalue, var.value, hv⟩

/-- Members and their pairs are read as the same variables, or neither pass. -/
theorem environmentMembers_or_pairs (p : Policy) (m : Json.Members) (position : Nat) :
    (∃ vars : List EnvironmentVariable, m = vars.map (fun e => (e.key, .string e.value)) ∧
      environmentMembers m = pure vars ∧ environmentEntries position (m.map pairOf) = pure vars) ∨
    (¬ (environmentMembers m).Passes p ∧
      ¬ (environmentEntries position (m.map pairOf)).Passes p) := by
  induction m generalizing position with
  | nil => exact Or.inl ⟨[], rfl, rfl, rfl⟩
  | cons e m ih =>
    obtain ⟨key, v⟩ := e
    rcases environmentMember_or_pair p (key, v) with ⟨s, hv, hmember, hpair⟩ | ⟨hmember, hpair⟩
    · rcases ih (position + 1) with ⟨vars, hm, hmembers, hpairs⟩ | ⟨hmembers, hpairs⟩
      · left
        refine ⟨⟨key, s⟩ :: vars, ?_, ?_, ?_⟩
        · rw [List.map_cons, ← hm, ← hv]
        · rw [environmentMembers, hmember, hmembers]
          rfl
        · rw [List.map_cons, environmentEntries, hpair, hpairs]
          rfl
      · right
        simp only [environmentMembers, List.map_cons, environmentEntries, passes_bind,
          passes_under, passes_pure, and_true]
        exact ⟨fun h => hmembers h.2, fun h => hpairs h.2⟩
    · right
      simp only [environmentMembers, List.map_cons, environmentEntries, passes_bind,
        passes_under, passes_pure, and_true]
      exact ⟨fun h => hmember h.1, fun h => hpair h.1⟩

/-- **The two forms of an environment are read alike, or neither passes.** -/
theorem environment_forms (p : Policy) (initial : List EnvironmentVariable) (m : Json.Members) :
    environment initial (some (listForm m)) = environment initial (some (.object m)) ∨
    (¬ (environment initial (some (.object m))).Passes p ∧
      ¬ (environment initial (some (listForm m))).Passes p) := by
  rcases environmentMembers_or_pairs p m 0 with ⟨vars, -, hmembers, hpairs⟩ | hneither
  · exact Or.inl (hpairs.trans hmembers.symm)
  · exact Or.inr hneither

/-! ### What is found around a field -/

/-- What stands in a field is found in its place, and everything else as it is found
    without it. -/
theorem findings_insert {q : Part} (htail : ∀ m, q.tail m = []) {name : String} {form : Form}
    (hfield : (name, form) ∈ q.fields) (m : Json.Members) :
    ∃ before after : List Finding,
      (∀ f ∈ before ++ after, ¬ [.key name] <+: f.location) ∧
      ∀ v, v ≠ .null → q.findings (Entries.insert name v m) =
        before ++ (form.findings (some v)).map (Finding.under (.key name)) ++ after := by
  obtain ⟨fs, gs, hfields⟩ := List.append_of_mem hfield
  have hnames : (q.fields.map Prod.fst).Nodup := q.nodup_fields
  have hknown : name ∈ q.known := Part.mem_known (Part.mem_keys hfield)
  rw [hfields, List.map_append, List.map_cons] at hnames
  obtain ⟨-, hafter, hbetween⟩ := List.nodup_append.mp hnames
  have hfs : ∀ e ∈ fs, e.1 ≠ name := by
    intro e he heq
    exact hbetween e.1 (List.mem_map_of_mem he) name List.mem_cons_self heq
  have hgs : ∀ e ∈ gs, e.1 ≠ name := by
    intro e he heq
    exact (List.nodup_cons.mp hafter).1 (List.mem_map.mpr ⟨e, he, heq⟩)
  let branch : String × Form → Segment × List Finding :=
    fun e => (.key e.1, e.2.findings (given m e.1))
  refine ⟨gather ((strangers q.known m).map (fun name => (.key name, [⟨[], .unrecognized⟩])) ++
    fs.map branch), gather (gs.map branch), ?_, ?_⟩
  · intro f hf hprefix
    rw [← gather_append] at hf
    obtain ⟨b, hb, f', -, rfl⟩ := mem_gather.mp hf
    have hstep : b.1 = .key name := by
      simpa [eq_comm] using hprefix
    rcases List.mem_append.mp hb with hb | hb
    · rcases List.mem_append.mp hb with hb | hb
      · obtain ⟨stranger, hstranger, rfl⟩ := List.mem_map.mp hb
        have hunknown : stranger ∉ q.known := by simpa using (List.mem_filter.mp hstranger).2
        exact hunknown (Segment.key.inj hstep ▸ hknown)
      · obtain ⟨e, he, rfl⟩ := List.mem_map.mp hb
        exact hfs e he (Segment.key.inj hstep)
    · obtain ⟨e, he, rfl⟩ := List.mem_map.mp hb
      exact hgs e he (Segment.key.inj hstep)
  · intro v hv
    have hsame : ∀ es : List (String × Form), (∀ e ∈ es, e.1 ≠ name) →
        es.map (fun e => (Segment.key e.1, e.2.findings (given (Entries.insert name v m) e.1))) =
          es.map branch := by
      intro es hes
      apply List.map_congr_left
      intro e he
      rw [given_insert_of_ne v (Ne.symm (hes e he))]
    rw [findings_part, htail, List.append_nil, Part.branches, hfields, List.map_append,
      List.map_cons, hsame fs hfs, hsame gs hgs, strangers_insert hknown, given_insert_self hv]
    simp only [gather_append, gather_cons, List.append_assoc]

/-- **What is found around an environment does not depend on it.** -/
theorem findings_withEnvironment (container root : Json.Members) :
    ∃ before after : List Finding,
      (∀ f ∈ before ++ after, ¬ environmentPlace <+: f.location) ∧
      ∀ env, env ≠ .null → (surveyRequest (withEnvironment env container root)).findings =
        before ++ (Form.environment.findings (some env)).map
          (fun f => ⟨environmentPlace ++ f.location, f.fault⟩) ++ after := by
  obtain ⟨outer, outer', houter, hroot⟩ := findings_insert (fun _ => rfl) field_container root
  obtain ⟨inner, inner', hinner, hcontainer⟩ :=
    findings_insert (fun _ => rfl) field_environment container
  let status := statusFindings root
  refine ⟨status ++ outer ++ inner.map (Finding.under (.key "containerConfig")),
    inner'.map (Finding.under (.key "containerConfig")) ++ outer', ?_, ?_⟩
  · have hfirst : [Segment.key "containerConfig"] <+: environmentPlace := ⟨_, rfl⟩
    have hinside : ∀ f : Finding, ¬ [.key "environment"] <+: f.location →
        ¬ environmentPlace <+: (f.under (.key "containerConfig")).location := by
      intro f hf hprefix
      exact hf (List.cons_prefix_cons.mp hprefix).2
    intro f hf
    simp only [List.mem_append, or_assoc] at hf
    rcases hf with hf | hf | hf | hf | hf
    · obtain ⟨-, rfl⟩ := mem_statusFindings.mp hf
      decide
    · exact fun h => houter f (List.mem_append_left _ hf) (hfirst.trans h)
    · obtain ⟨g, hg, rfl⟩ := List.mem_map.mp hf
      exact hinside g (hinner g (List.mem_append_left _ hg))
    · obtain ⟨g, hg, rfl⟩ := List.mem_map.mp hf
      exact hinside g (hinner g (List.mem_append_right _ hg))
    · exact fun h => houter f (List.mem_append_right _ hf) (hfirst.trans h)
  · intro env henv
    have hstatus : ∀ v, statusFindings (Entries.insert "containerConfig" v root) = status := by
      intro v
      rw [statusFindings, contains_insert_of_ne (by decide)]
      rfl
    rw [withEnvironment, findings_surveyRequest, hstatus, hroot _ (by simp)]
    change status ++ (outer ++ (Part.container.findings _).map _ ++ outer') = _
    rw [hcontainer env henv]
    simp [Finding.under, environmentPlace]

theorem beside_insert (name : String) (v v' : Json) (m : Json.Members) :
    Beside name (Entries.insert name v m) (Entries.insert name v' m) where
  names := Entries.names_insert_congr name v v' m
  others other hother := by
    rw [given_insert_of_ne v hother.symm, given_insert_of_ne v' hother.symm]

/-- Objects with a value each in one field are read alike if the values are. -/
theorem fields_insert {C : Survey.Congruence} {q : Part} {name : String} {form : Form}
    (hfield : (name, form) ∈ q.fields) {v v' : Json} (hv : v ≠ .null) (hv' : v' ≠ .null)
    (h : C.Given form (some v) (some v')) (m : Json.Members) :
    C.Fields q (Entries.insert name v m) (Entries.insert name v' m) := by
  apply (beside_insert name v v' m).fields hfield
  rwa [given_insert_self hv, given_insert_self hv']

/-- Environments that are read alike make inputs that are surveyed alike. -/
theorem surveyRequest_withEnvironment {env env' : Json} (hnull : env ≠ .null)
    (hnull' : env' ≠ .null) (h : environment [] (some env) = environment [] (some env'))
    (container root : Json.Members) :
    surveyRequest (withEnvironment env container root) =
      surveyRequest (withEnvironment env' container root) := by
  have hcontainer : Congruence.same.Given (.part .container)
      (some (.object (Entries.insert "environment" env container)))
      (some (.object (Entries.insert "environment" env' container))) := by
    refine Congruence.object (C := .same) (q := .container) ?_
    exact fields_insert (C := .same) field_environment hnull hnull' h container
  refine Congruence.object (C := .same) (q := .request) ?_
  exact fields_insert field_container (by simp) (by simp) hcontainer root

/-! ### Verdicts -/

/-- What a predicate holds of is cut out of what it does not hold of. -/
theorem filter_around {α : Type} {P : α → Prop} [DecidablePred P] {before inside after : List α}
    (haround : ∀ a ∈ before ++ after, ¬ P a) (hinside : ∀ a ∈ inside, P a) :
    (before ++ inside ++ after).filter (fun a => P a) = inside ∧
      (before ++ inside ++ after).filter (fun a => ¬ P a) = before ++ after := by
  obtain ⟨hbefore, hafter⟩ := List.forall_mem_append.mp haround
  have hdrop : ∀ l : List α, (∀ a ∈ l, ¬ P a) →
      l.filter (fun a => P a) = [] ∧ l.filter (fun a => ¬ P a) = l := by
    intro l hl
    exact ⟨List.filter_eq_nil_iff.mpr (by simpa using hl),
      List.filter_eq_self.mpr (by simpa using hl)⟩
  have hkeep : inside.filter (fun a => P a) = inside ∧ inside.filter (fun a => ¬ P a) = [] :=
    ⟨List.filter_eq_self.mpr (by simpa using hinside),
      List.filter_eq_nil_iff.mpr (by simpa using hinside)⟩
  simp only [List.filter_append, hdrop before hbefore, hdrop after hafter, hkeep,
    List.nil_append, List.append_nil, and_self]

/-- **What is held against an input outside its environment does not depend on it**, and
    stands before and after what is held against the environment. -/
theorem violations_withEnvironment (p : Policy) (container root : Json.Members) :
    ∃ before after : Violations, ∀ env, env ≠ .null →
      (validateRequest p (withEnvironment env container root)).violations =
        before ++ violationsWithin p environmentPlace (withEnvironment env container root) ++
          after ∧
      violationsOutside p environmentPlace (withEnvironment env container root) =
        before ++ after := by
  obtain ⟨before, after, haround, hfindings⟩ := findings_withEnvironment container root
  refine ⟨before.filterMap (Finding.violation? p), after.filterMap (Finding.violation? p), ?_⟩
  intro env henv
  have hinside : ∀ f ∈ (Form.environment.findings (some env)).map fun f =>
      (⟨environmentPlace ++ f.location, f.fault⟩ : Finding), environmentPlace <+: f.location := by
    intro f hf
    obtain ⟨g, -, rfl⟩ := List.mem_map.mp hf
    exact List.prefix_append _ _
  obtain ⟨hwithin, houtside⟩ := filter_around haround hinside
  rw [← hfindings env henv] at hwithin houtside
  constructor
  · rw [violationsWithin, hwithin, validateRequest, violations_judge, Survey.violations,
      hfindings env henv, List.filterMap_append, List.filterMap_append]
  · rw [violationsOutside, houtside, List.filterMap_append]

/-- An input passes only if its environment does. -/
theorem passes_environment_of_ok {env : Json} (hnull : env ≠ .null)
    {container root : Json.Members} {r : ModelRequest}
    (h : (validateRequest p (withEnvironment env container root)).outcome = .ok r) :
    (environment [] (some env)).Passes p := by
  obtain ⟨hpasses, -⟩ := outcome_judge_eq_ok_iff.mp h
  obtain ⟨before, after, -, hfindings⟩ := findings_withEnvironment container root
  intro f hf
  apply hpasses ⟨environmentPlace ++ f.location, f.fault⟩
  rw [hfindings env hnull]
  exact List.mem_append_left _ (List.mem_append_right _ (List.mem_map.mpr ⟨f, hf, rfl⟩))

theorem decoded_environment {env : Json} (hnull : env ≠ .null) {container root : Json.Members}
    {r : ModelRequest}
    (h : (validateRequest p (withEnvironment env container root)).outcome = .ok r) :
    Decoded env (.environment r.descriptor.container.environment) := by
  have hgiven : givenAt (some (withEnvironment env container root))
      ["containerConfig", "environment"] = some env := by
    rw [withEnvironment, givenAt_object, given_insert_self (by simp), givenAt_object,
      given_insert_self hnull]
    rfl
  obtain ⟨hleaf, -⟩ := validateRequest_merges h
  obtain ⟨value, hvalue, -, hdecoded⟩ :=
    hleaf ["containerConfig", "environment"] (by decide)
  cases hvalue
  exact hdecoded env hgiven

/-- **Both forms of an environment mean the same**, whatever stands around them.

    The pairs of the list are in the order of the octets of the names.  Either both inputs
    are accepted, as the same request, whose variables are the members of the object in this
    order; or neither is.  What is held against them outside the environment is the same, and
    in both reports it stands around what is held against the environment.  A list that is
    accepted gives one variable for each of its items.  And every input that gives an
    environment is one with it among its own members. -/
theorem validateRequest_environment_forms (p : Policy) (container root : Json.Members)
    {m : Json.Members} (hm : Entries.Ascending m) :
    (m.Pairwise fun e e' => Text.octets e.1 < Text.octets e'.1) ∧
    ((∃ r, (validateRequest p (withEnvironment (.object m) container root)).outcome = .ok r ∧
        (validateRequest p (withEnvironment (listForm m) container root)).outcome = .ok r ∧
        m = r.descriptor.container.environment.map fun e => (e.key, .string e.value)) ∨
      ∃ vs vs',
        (validateRequest p (withEnvironment (.object m) container root)).outcome = .error vs ∧
        (validateRequest p (withEnvironment (listForm m) container root)).outcome =
          .error vs') ∧
    violationsOutside p environmentPlace (withEnvironment (listForm m) container root) =
      violationsOutside p environmentPlace (withEnvironment (.object m) container root) ∧
    (∃ before after : Violations, ∀ env ∈ [.object m, listForm m],
      (validateRequest p (withEnvironment env container root)).violations =
        before ++ violationsWithin p environmentPlace (withEnvironment env container root) ++
          after ∧
      violationsOutside p environmentPlace (withEnvironment env container root) =
        before ++ after) ∧
    (∀ items r,
      (validateRequest p (withEnvironment (.array items) container root)).outcome = .ok r →
      List.Forall₂ GivesVariable items r.descriptor.container.environment) ∧
    ∀ {root' container' : Json.Members} {env : Json}, (Json.object root').WellFormed →
      given root' "containerConfig" = some (.object container') →
      given container' "environment" = some env →
      withEnvironment env container' root' = .object root' := by
  have hlist : listForm m ≠ .null := by simp [listForm]
  have hobject : Json.object m ≠ .null := by simp
  obtain ⟨before, after, haround⟩ := violations_withEnvironment p container root
  refine ⟨hm.imp Text.octets_lt_iff.mpr, ?_, ?_, ⟨before, after, ?_⟩, ?_, ?_⟩
  · rcases environment_forms p [] m with halike | ⟨hmembers, hpairs⟩
    · have hsurvey := surveyRequest_withEnvironment hlist hobject halike container root
      have hverdict : validateRequest p (withEnvironment (listForm m) container root) =
          validateRequest p (withEnvironment (.object m) container root) :=
        congrArg (Survey.judge p) hsurvey
      rw [hverdict]
      cases houtcome : (validateRequest p (withEnvironment (.object m) container root)).outcome with
      | ok r =>
        left
        refine ⟨r, rfl, rfl, ?_⟩
        have hdecoded := decoded_environment hobject houtcome
        generalize r.descriptor.container.environment = vars at hdecoded
        cases hdecoded with
        | members => rfl
      | error vs => exact Or.inr ⟨vs, vs, rfl, rfl⟩
    · right
      have hrefused : ∀ env, env ≠ .null → ¬ (environment [] (some env)).Passes p →
          ∃ vs, (validateRequest p (withEnvironment env container root)).outcome = .error vs := by
        intro env hnull hpasses
        cases houtcome : (validateRequest p (withEnvironment env container root)).outcome with
        | ok r => exact absurd (passes_environment_of_ok hnull houtcome) hpasses
        | error vs => exact ⟨vs, rfl⟩
      obtain ⟨vs, hvs⟩ := hrefused _ hobject hmembers
      obtain ⟨vs', hvs'⟩ := hrefused _ hlist hpairs
      exact ⟨vs, vs', hvs, hvs'⟩
  · rw [(haround _ hlist).2, (haround _ hobject).2]
  · rintro env henv
    apply haround env
    rintro rfl
    simp [listForm] at henv
  · intro items r h
    have hdecoded := decoded_environment (by simp) h
    generalize r.descriptor.container.environment = vars at hdecoded ⊢
    cases hdecoded
    assumption
  · intro root' container' env hroot hcontainer henv
    have hwf := wellFormed_of_given hroot hcontainer
    exact withEnvironment_self hroot.1 hwf.1 (given_eq_some_iff.mp hcontainer).1
      (given_eq_some_iff.mp henv).1

/-- A variable that is set to null is refused in both forms, beside an unknown member. -/
theorem validateRequest_environment_forms_null :
    ∃ m : Json.Members, Entries.Ascending m ∧
      (∃ vs vs',
        (validateRequest .strict (withEnvironment (.object m) [("cpu", .null)] [])).outcome =
          .error vs ∧
        (validateRequest .strict (withEnvironment (listForm m) [("cpu", .null)] [])).outcome =
          .error vs') ∧
      violationsOutside .strict environmentPlace
          (withEnvironment (listForm m) [("cpu", .null)] []) =
        violationsOutside .strict environmentPlace
          (withEnvironment (.object m) [("cpu", .null)] []) := by
  let m : Json.Members := [("A", .string "1"), ("B", .null)]
  have hm : Entries.Ascending m := by
    have hlt : "A" < "B" := by decide
    exact List.pairwise_pair.mpr hlt
  obtain ⟨-, hforms, houtside, -⟩ :=
    validateRequest_environment_forms .strict [("cpu", .null)] [] hm
  refine ⟨m, hm, ?_, houtside⟩
  rcases hforms with ⟨r, hr, -, -⟩ | hrefused
  · cases hr
  · exact hrefused

end Validation

end ModelCatalog
