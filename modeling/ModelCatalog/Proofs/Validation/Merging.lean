/-
  ModelCatalog/Proofs/Validation/Merging.lean
  ===========================================
  **What is given is merged into the defaults, leaf by leaf.**

  `Decoded` says what value a leaf is given by, without a reader: a number may be spelled
  as a text, and an environment may be an object.  Each reader of a leaf that passes gives
  the value that it was given, or the default if it was given none (`merged_text` and its
  like); a group of fields does so leaf by leaf (`merged_group`), and so does a whole
  request (`merged_request`).
-/
import Mathlib.Data.List.Forall2
import ModelCatalog.Proofs.Descriptor.Names
import ModelCatalog.Proofs.Text.Utf8
import ModelCatalog.Proofs.Validation.Denotation
import ModelCatalog.Proofs.Validation.Leaves
import ModelCatalog.Proofs.Validation.Places

namespace ModelCatalog.Validation

open Survey

/-! ### What a value gives -/

/-- The double that a value spells: a number as such, or a text that denotes it and begins
    with a minus if the double is negative, which tells the two zeros apart. -/
inductive Spells : Json → Double → Prop
  | number (n : Number) : Spells (.number n) n.toDouble
  | text {s : String} {x : Double} (h : Denotes (.string s) x)
      (hsign : x.negative = true ↔ Text.first? s = some '-') : Spells (.string s) x

/-- The natural number that a value spells: an integer is the number itself, and of a
    double or a text it is the double that counts. -/
inductive SpellsNat : Json → Nat → Prop
  | integer (n : Nat) : SpellsNat (.number (.integer n)) n
  | double {d : Double} {n : Nat} (h : d.natural? = some n) :
      SpellsNat (.number (.double d)) n
  | text {s : String} {x : Double} {n : Nat} (h : Denotes (.string s) x)
      (hn : x.natural? = some n) : SpellsNat (.string s) n

/-- An object that gives the key and the value of a variable. -/
def GivesVariable (v : Json) (e : EnvironmentVariable) : Prop :=
  ∃ m, v = .object m ∧ given m "key" = some (.string e.key) ∧
    given m "value" = some (.string e.value)

/-- What value of a leaf a value gives. -/
inductive Decoded : Json → LeafValue → Prop
  | text (s : String) : Decoded (.string s) (.text s)
  | flag (b : Bool) : Decoded (.bool b) (.flag b)
  | modelType (t : ModelType) : Decoded (.string (Named.name t)) (.modelType t)
  | inferenceContainer (c : InferenceContainer) :
      Decoded (.string (Named.name c)) (.inferenceContainer (some c))
  | texts (ss : List String) : Decoded (.array (ss.map .string)) (.texts ss)
  | count {v : Json} {n : UInt32} (h : SpellsNat v n.toNat) : Decoded v (.count n)
  | number {v : Json} {x : Double} (h : Spells v x) : Decoded v (.number x)
  | variables {items : List Json} {vars : List EnvironmentVariable}
      (h : List.Forall₂ GivesVariable items vars) : Decoded (.array items) (.environment vars)
  | members (vars : List EnvironmentVariable) :
      Decoded (.object (vars.map fun e => (e.key, .string e.value))) (.environment vars)

/-- A leaf has the value that is given for it, or its initial one if none is given. -/
def Merged (initial : LeafValue) (v : Option Json) (value : LeafValue) : Prop :=
  match v with
  | none => value = initial
  | some x => Decoded x value

/-! ### Leaves -/

variable {p : Policy} {v : Option Json}

theorem merged_text {initial : String} (h : (text initial v).Passes p) :
    Merged (.text initial) v (.text (text initial v).value) := by
  rcases v with _ | v
  · rfl
  cases v with
  | string s => exact .text s
  | _ => simp [text, Fault.counts] at h

theorem merged_identifier {initial : String} (h : (identifier initial v).Passes p) :
    Merged (.text initial) v (.text (identifier initial v).value) := by
  rcases v with _ | v
  · rfl
  cases v with
  | string s =>
    have hvalue : (identifier initial (some (.string s))).value = s := by
      simp only [identifier]
      split_ifs <;> rfl
    rw [hvalue]
    exact .text s
  | _ => simp [identifier, Fault.counts] at h

theorem merged_flag {initial : Bool} (h : (flag initial v).Passes p) :
    Merged (.flag initial) v (.flag (flag initial v).value) := by
  rcases v with _ | v
  · rfl
  cases v with
  | bool b => exact .flag b
  | _ => simp [flag, Fault.counts] at h

/-- What passes for an alternative is given by its name, or is not given. -/
theorem named_cases {α : Type} [Named α] (h : (named v : Survey (Option α)).Passes p) :
    (v = none ∧ (named v : Survey (Option α)).value = none) ∨
      ∃ a : α, v = some (.string (Named.name a)) ∧ (named v).value = some a := by
  rcases v with _ | v
  · exact Or.inl ⟨rfl, rfl⟩
  cases v with
  | string s =>
    right
    cases hname : (Named.ofName s : Except UnknownName α) with
    | ok a =>
      refine ⟨a, by rw [Named.name_of_ofName hname], ?_⟩
      simp [named, hname]
    | error u => simp [named, hname, Fault.counts] at h
  | _ => simp [named, Fault.counts] at h

theorem merged_modelType {initial : ModelType}
    (h : (named v : Survey (Option ModelType)).Passes p) :
    Merged (.modelType initial) v (.modelType ((named v).value.getD initial)) := by
  rcases named_cases h with ⟨rfl, hvalue⟩ | ⟨t, rfl, hvalue⟩
  · rw [hvalue]
    rfl
  · rw [hvalue]
    exact .modelType t

theorem merged_inferenceContainer (h : (named v : Survey (Option InferenceContainer)).Passes p) :
    Merged (.inferenceContainer none) v (.inferenceContainer (named v).value) := by
  rcases named_cases h with ⟨rfl, hvalue⟩ | ⟨c, rfl, hvalue⟩
  · rw [hvalue]
    rfl
  · rw [hvalue]
    exact .inferenceContainer c

theorem value_textItems {position : Nat} {items : List Json}
    (h : (textItems position items).Passes p) :
    items = (textItems position items).value.map .string := by
  induction items generalizing position with
  | nil => rfl
  | cons v items ih =>
    cases v with
    | string s =>
      simp only [textItems, passes_bind, passes_pure, and_true] at h
      simp only [textItems, value_bind, value_pure, List.map_cons]
      rw [← ih h]
    | _ => simp [textItems, Fault.counts] at h

theorem merged_texts {initial : List String} (h : (texts initial v).Passes p) :
    Merged (.texts initial) v (.texts (texts initial v).value) := by
  rcases v with _ | v
  · rfl
  cases v with
  | array items =>
    have hitems : items = (texts initial (some (.array items))).value.map .string :=
      value_textItems h
    have hdecoded := Decoded.texts (texts initial (some (.array items))).value
    rwa [← hitems] at hdecoded
  | _ => simp [texts, Fault.counts] at h

/-! ### Numbers -/

theorem spells_of_double? {v : Json} {x : Double} (h : double? v = some x) : Spells v x := by
  obtain ⟨hread, -⟩ := Option.filter_eq_some_iff.mp h
  cases v with
  | number n =>
    cases hread
    exact .number n
  | string s =>
    refine .text (.of_double? h) ?_
    rw [negative_of_ofText? hread, (Text.trimmed_trim s).head?_eq]
  | _ => cases hread

/-- **A value spells one finite double at most.** -/
theorem Spells.unique {v : Json} {x y : Double} (h : Spells v x) (h' : Spells v y)
    (hx : x.isFinite = true) (hy : y.isFinite = true) : x = y := by
  cases h with
  | number n =>
    cases h'
    rfl
  | text htext hsign =>
    cases h' with
    | text htext' hsign' =>
      obtain ⟨z, hread, -, hvalue⟩ := htext.double?_eq_some hx
      obtain ⟨z', hread', -, hvalue'⟩ := htext'.double?_eq_some hy
      obtain rfl : z = z' := Option.some.inj (hread.symm.trans hread')
      have hfinite := isFinite_of_double? hread
      apply Double.eq_of_value
      · rw [Bool.eq_iff_iff, hsign, hsign']
      · rw [← hvalue hfinite, hvalue' hfinite]

/-- A count is the number that was written, and not only one with the same double. -/
theorem Spells.natural {v : Json} {x : Double} {n : Nat} (h : Spells v x)
    (hn : x.natural? = some n) (hlt : n < Double.binade) : SpellsNat v n := by
  cases h with
  | number m =>
    cases m with
    | integer z =>
      obtain rfl : z = n := Double.eq_of_natural?_ofInt hn hlt
      exact .integer n
    | double d => exact .double hn
  | text htext _ => exact .text htext hn

theorem merged_number {initial : Double} {least : Nat}
    (h : (number initial least v).Passes p) :
    Merged (.number initial) v (.number (number initial least v).value) := by
  rcases v with _ | v
  · rfl
  cases hdouble : double? v with
  | none => simp [number, hdouble, Fault.counts] at h
  | some x =>
    cases hlt : x.lt (.ofNat least) with
    | true => simp [number, hdouble, hlt, Fault.counts] at h
    | false =>
      have hvalue : (number initial least (some v)).value = x := by simp [number, hdouble, hlt]
      rw [hvalue]
      exact .number (spells_of_double? hdouble)

theorem merged_count {initial : UInt32} {least : Nat} (h : (count initial least v).Passes p) :
    Merged (.count initial) v (.count (count initial least v).value) := by
  rcases v with _ | v
  · rfl
  cases hdouble : double? v with
  | none => simp [count, hdouble, Fault.counts] at h
  | some x =>
    cases hlt : x.lt (.ofNat least) with
    | true => simp [count, hdouble, hlt, Fault.counts] at h
    | false =>
      cases hnatural : x.natural? with
      | none => simp [count, hdouble, hlt, hnatural, Fault.counts] at h
      | some n =>
        by_cases hsize : n < UInt32.size
        · have hvalue : (count initial least (some v)).value = .ofNat n := by
            simp [count, hdouble, hlt, hnatural, hsize]
          have hbinade : n < Double.binade := Nat.lt_trans hsize (by decide)
          rw [hvalue]
          refine .count ?_
          rw [UInt32.toNat_ofNat_of_lt' hsize]
          exact (spells_of_double? hdouble).natural hnatural hbinade
        · simp [count, hdouble, hlt, hnatural, hsize, Fault.counts] at h

/-! ### Environments -/

theorem requiredText_cases (h : (requiredText v).Passes p) :
    ∃ s, v = some (.string s) ∧ (requiredText v).value = some s := by
  rcases v with _ | v
  · simp [requiredText, Fault.counts] at h
  cases v with
  | string s => exact ⟨s, rfl, rfl⟩
  | _ => simp [requiredText, Fault.counts] at h

theorem givesVariable_of_passes {item : Json} (h : (environmentEntry item).Passes p) :
    ∃ e, (environmentEntry item).value = some e ∧ GivesVariable item e := by
  cases item with
  | object m =>
    simp only [environmentEntry, passes_bind, passes_field, value_field] at h
    obtain ⟨-, hkey, hvalue, hnamed⟩ := h
    obtain ⟨key, hgivenKey, hkeyValue⟩ := requiredText_cases hkey
    obtain ⟨value, hgivenValue, hvalueValue⟩ := requiredText_cases hvalue
    have hne : key ≠ "" := by
      rintro rfl
      simp [hkeyValue, Fault.counts] at hnamed
    refine ⟨⟨key, value⟩, ?_, m, rfl, hgivenKey, hgivenValue⟩
    simp [environmentEntry, hkeyValue, hvalueValue, hne]
  | _ => simp [environmentEntry, Fault.counts] at h

theorem environmentMember_of_passes {key : String} {v : Json}
    (h : (environmentMember key v).Passes p) :
    ∃ s, v = .string s ∧ (environmentMember key v).value = some ⟨key, s⟩ := by
  by_cases hkey : key = ""
  · simp [environmentMember, hkey, Fault.counts] at h
  · cases v with
    | string s => exact ⟨s, rfl, by simp [environmentMember, hkey]⟩
    | _ => simp [environmentMember, hkey, Fault.counts] at h

theorem value_environmentEntries_of_passes {position : Nat} {items : List Json}
    (h : (environmentEntries position items).Passes p) :
    List.Forall₂ GivesVariable items (environmentEntries position items).value := by
  induction items generalizing position with
  | nil => exact .nil
  | cons item items ih =>
    simp only [environmentEntries, passes_bind, passes_under, passes_pure, and_true] at h
    obtain ⟨hentry, hentries⟩ := h
    obtain ⟨e, hvalue, hgives⟩ := givesVariable_of_passes hentry
    simp only [environmentEntries, value_bind, value_under, value_pure, hvalue]
    exact .cons hgives (ih hentries)

theorem value_environmentMembers_of_passes {m : Json.Members}
    (h : (environmentMembers m).Passes p) :
    m = (environmentMembers m).value.map fun e => (e.key, .string e.value) := by
  induction m with
  | nil => rfl
  | cons member m ih =>
    obtain ⟨key, v⟩ := member
    simp only [environmentMembers, passes_bind, passes_under, passes_pure, and_true] at h
    obtain ⟨hmember, hmembers⟩ := h
    obtain ⟨s, rfl, hvalue⟩ := environmentMember_of_passes hmember
    simp only [environmentMembers, value_bind, value_under, value_pure, hvalue,
      Option.toList_some, List.singleton_append, List.map_cons]
    rw [← ih hmembers]

theorem merged_environment {initial : List EnvironmentVariable}
    (h : (environment initial v).Passes p) :
    Merged (.environment initial) v (.environment (environment initial v).value) := by
  rcases v with _ | v
  · rfl
  cases v with
  | array items => exact .variables (value_environmentEntries_of_passes h)
  | object m =>
    have hmembers : m = (environment initial (some (.object m))).value.map
        fun e => (e.key, .string e.value) := value_environmentMembers_of_passes h
    have hdecoded := Decoded.members (environment initial (some (.object m))).value
    rwa [← hmembers] at hdecoded
  | _ => simp [environment, Fault.counts] at h

/-! ### Groups -/

/-- Leaves have the values that are given at their paths, or their initial ones. -/
def MergedLeaves (initial : Leaves) (v : Option Json) (ls : Leaves) : Prop :=
  List.Forall₂ (fun i l => i.1 = l.1 ∧ Merged i.2 (givenAt v l.1) l.2) initial ls

namespace MergedLeaves

variable {initial initial' ls ls' : Leaves} {m : Json.Members} {name : String}
  {first value : LeafValue}

/-- Nothing given changes nothing. -/
theorem none (ls : Leaves) : MergedLeaves ls none ls := by
  refine List.forall₂_same.mpr ?_
  intro l hl
  rw [givenAt_none]
  exact ⟨rfl, rfl⟩

theorem nil : MergedLeaves [] v [] := List.Forall₂.nil

theorem cons (hfirst : Merged first (given m name) value)
    (h : MergedLeaves initial (some (.object m)) ls) :
    MergedLeaves (([name], first) :: initial) (some (.object m)) (([name], value) :: ls) :=
  List.Forall₂.cons ⟨rfl, hfirst⟩ h

theorem append (h : MergedLeaves initial v ls) (h' : MergedLeaves initial' v ls') :
    MergedLeaves (initial ++ initial') v (ls ++ ls') :=
  List.rel_append h h'

theorem under (h : MergedLeaves initial (given m name) ls) :
    MergedLeaves (initial.under name) (some (.object m)) (ls.under name) := by
  unfold MergedLeaves Leaves.under
  rw [List.forall₂_map_left_iff, List.forall₂_map_right_iff]
  refine List.Forall₂.imp ?_ h
  rintro i l ⟨hpath, hmerged⟩
  exact ⟨congrArg (name :: ·) hpath, hmerged⟩

end MergedLeaves

/-- A group of fields is merged if its fields are. -/
theorem merged_group {α : Type} {known : List String} {initial : α}
    {read : Json.Members → Survey α} (leaves : α → Leaves)
    (hread : ∀ m, (read m).Passes p →
      MergedLeaves (leaves initial) (some (.object m)) (leaves (read m).value))
    (h : (group known initial read v).Passes p) :
    MergedLeaves (leaves initial) v (leaves (group known initial read v).value) := by
  rcases v with _ | v
  · exact .none _
  cases v with
  | object m => exact hread m ((passes_bind _ _).mp h).2
  | _ => simp [group, Fault.counts] at h

theorem merged_containerImage (h : (containerImage v).Passes p) :
    MergedLeaves ({} : ContainerImage).leaves v (containerImage v).value.leaves := by
  refine merged_group ContainerImage.leaves ?_ h
  intro m h
  simp only [passes_bind, passes_field, passes_pure, and_true] at h
  obtain ⟨hbase, hpath, htype⟩ := h
  exact .cons (merged_text hbase) (.cons (merged_text hpath) (.cons (merged_text htype) .nil))

theorem merged_containerHealthCheck (h : (containerHealthCheck v).Passes p) :
    MergedLeaves ({} : ContainerHealthCheck).leaves v (containerHealthCheck v).value.leaves := by
  refine merged_group ContainerHealthCheck.leaves ?_ h
  intro m h
  simp only [passes_bind, passes_field, passes_pure, and_true] at h
  obtain ⟨hcommand, hinterval, hstart, htimeout, hretries⟩ := h
  exact .cons (merged_texts hcommand) (.cons (merged_count hinterval)
    (.cons (merged_count hstart) (.cons (merged_count htimeout)
      (.cons (merged_count hretries) .nil))))

theorem merged_container (h : (container v).Passes p) :
    MergedLeaves ({} : ContainerConfig).leaves v (container v).value.leaves := by
  refine merged_group ContainerConfig.leaves ?_ h
  intro m h
  simp only [passes_bind, passes_field, passes_pure, and_true] at h
  obtain ⟨himage, hsize, hhealth, henvironment⟩ := h
  exact .append (.append (merged_containerImage himage).under
    (merged_containerHealthCheck hhealth).under)
    (.cons (merged_count hsize) (.cons (merged_environment henvironment) .nil))

theorem merged_scalingMetric (h : (scalingMetric v).Passes p) :
    MergedLeaves ({} : ScalingMetric).leaves v (scalingMetric v).value.leaves := by
  refine merged_group ScalingMetric.leaves ?_ h
  intro m h
  simp only [passes_bind, passes_field, passes_pure, and_true] at h
  obtain ⟨hname, htarget, hduration, hwarmup⟩ := h
  exact .cons (merged_text hname) (.cons (merged_number htarget)
    (.cons (merged_count hduration) (.cons (merged_count hwarmup) .nil)))

theorem merged_scaling (h : (scaling v).Passes p) :
    MergedLeaves ({} : ScalingConfig).leaves v (scaling v).value.leaves := by
  refine merged_group ScalingConfig.leaves ?_ h
  intro m h
  rw [value_checkCapacityOrder]
  replace h := passes_of_checkCapacityOrder h
  simp only [scalingFields, passes_bind, passes_field, passes_pure, and_true] at h
  obtain ⟨hmin, hmax, hcooldown, hwarmup, hmetric⟩ := h
  exact .append (merged_scalingMetric hmetric).under
    (.cons (merged_count hmin) (.cons (merged_count hmax) (.cons (merged_count hcooldown)
      (.cons (merged_count hwarmup) .nil))))

theorem merged_balancerHealthCheck (h : (balancerHealthCheck v).Passes p) :
    MergedLeaves ({} : BalancerHealthCheck).leaves v (balancerHealthCheck v).value.leaves := by
  refine merged_group BalancerHealthCheck.leaves ?_ h
  intro m h
  simp only [passes_bind, passes_field, passes_pure, and_true] at h
  obtain ⟨hpath, hinterval, htimeout, hhealthy, hunhealthy⟩ := h
  exact .cons (merged_text hpath) (.cons (merged_count hinterval)
    (.cons (merged_count htimeout) (.cons (merged_count hhealthy)
      (.cons (merged_count hunhealthy) .nil))))

theorem merged_balancer (h : (balancer v).Passes p) :
    MergedLeaves ({} : BalancerConfig).leaves v (balancer v).value.leaves := by
  refine merged_group BalancerConfig.leaves ?_ h
  intro m h
  simp only [passes_bind, passes_field, passes_pure, and_true] at h
  exact (merged_balancerHealthCheck h).under

/-! ### Requests -/

theorem merged_descriptor {m : Json.Members} (h : (descriptor m).Passes p) :
    MergedLeaves ({} : Descriptor).leaves (some (.object m)) (descriptor m).value.leaves := by
  simp only [descriptor, passes_bind, passes_field, passes_pure, and_true] at h
  obtain ⟨hid, hname, hurl, hstreaming, htype, hinstance, hinference, hcontainer, hscaling,
    hbalancer⟩ := h
  exact .append (.append (.append (merged_container hcontainer).under
    (merged_scaling hscaling).under) (merged_balancer hbalancer).under)
    (.cons (merged_identifier hid) (.cons (merged_identifier hname) (.cons (merged_text hurl)
      (.cons (merged_flag hstreaming) (.cons (merged_modelType htype)
        (.cons (merged_text hinstance) (.cons (merged_inferenceContainer hinference) .nil)))))))

theorem merged_request {m : Json.Members} (h : (request m).Passes p) :
    MergedLeaves ({} : ModelRequest).leaves (some (.object m)) (request m).value.leaves := by
  simp only [request, passes_bind, passes_field, passes_pure, and_true] at h
  obtain ⟨hdescriptor, hhosted⟩ := h
  exact .append (merged_descriptor hdescriptor) (.cons (merged_flag hhosted) .nil)

theorem MergedLeaves.lookup {initial ls : Leaves} (h : MergedLeaves initial v ls)
    {path : List String} {value : LeafValue} (hvalue : ls.lookup path = some value) :
    ∃ first, initial.lookup path = some first ∧ Merged first (givenAt v path) value := by
  induction h with
  | nil => cases hvalue
  | @cons i l initial ls hl _ ih =>
    obtain ⟨path', first⟩ := i
    obtain ⟨path'', value'⟩ := l
    obtain ⟨rfl, hmerged⟩ := hl
    rw [List.lookup_cons] at hvalue ⊢
    by_cases hpath : path = path'
    · subst hpath
      simp only [beq_self_eq_true] at hvalue ⊢
      cases hvalue
      exact ⟨first, rfl, hmerged⟩
    · have hbeq : (path == path') = false := beq_eq_false_iff_ne.mpr hpath
      simp only [hbeq] at hvalue ⊢
      exact ih hvalue

/-! ### Well-formed values -/

/-- What a well-formed value gives at a path is well formed. -/
theorem wellFormed_givenAt {v x : Json} {path : List String} (hv : v.WellFormed)
    (h : givenAt (some v) path = some x) : x.WellFormed := by
  induction path generalizing v with
  | nil =>
    cases h
    exact hv
  | cons name path ih =>
    cases v with
    | object m =>
      rw [givenAt_object] at h
      cases hgiven : given m name with
      | none => simp [hgiven] at h
      | some y =>
        rw [hgiven] at h
        exact ih (wellFormed_of_given hv hgiven) h
    | _ => cases h

/-! ### Verdicts -/

/-- An environment that is an object gives its members, in their order. -/
theorem Decoded.keys {m : Json.Members} {vars : List EnvironmentVariable}
    (h : Decoded (.object m) (.environment vars)) :
    m.map Prod.fst = vars.map EnvironmentVariable.key := by
  cases h with
  | members =>
    rw [List.map_map]
    rfl

theorem Decoded.texts_nil {ss : List String} (h : Decoded (.array []) (.texts ss)) : ss = [] := by
  generalize hitems : Json.array [] = v at h
  cases h with
  | texts =>
    have hmap := Json.array.inj hitems
    simpa using hmap.symm

/-- **What is given is merged into the defaults, leaf by leaf.**

    Whatever the policy, a leaf of an accepted request has the value that the input gives
    at its path, and the one of the default request if it gives none there.  The members
    of an environment that is an object are in the order of the octets of their names,
    and a command without items is not replaced by the default. -/
theorem validateRequest_merges {v : Json} {r : ModelRequest}
    (h : (validateRequest p v).outcome = .ok r) :
    (∀ path ∈ ModelRequest.paths, ∃ value, r.leaf? path = some value ∧
      (givenAt (some v) path = none → ({} : ModelRequest).leaf? path = some value) ∧
      ∀ x, givenAt (some v) path = some x → Decoded x value) ∧
    (v.WellFormed → ∀ m,
      givenAt (some v) ["containerConfig", "environment"] = some (.object m) →
      r.descriptor.container.environment.Pairwise fun e e' =>
        Text.octets e.key < Text.octets e'.key) ∧
    (givenAt (some v) ["containerConfig", "healthCheckConfig", "command"] = some (.array []) →
      r.descriptor.container.healthCheck.command = []) := by
  obtain ⟨hpasses, rfl⟩ := outcome_judge_eq_ok_iff.mp h
  obtain ⟨m, rfl, -, hrequest, hvalue⟩ := request_of_surveyRequest hpasses
  rw [hvalue]
  have hleaf : ∀ {path value x}, (request m).value.leaf? path = some value →
      givenAt (some (.object m)) path = some x → Decoded x value := by
    intro path value x hleaf hx
    obtain ⟨first, -, hmerged⟩ := (merged_request hrequest).lookup hleaf
    rwa [hx] at hmerged
  refine ⟨?_, ?_, ?_⟩
  · intro path hpath
    obtain ⟨value, hvalue⟩ := ModelRequest.exists_leaf? (request m).value hpath
    refine ⟨value, hvalue, ?_, fun x hx => hleaf hvalue hx⟩
    intro hnone
    obtain ⟨first, hfirst, hmerged⟩ := (merged_request hrequest).lookup hvalue
    rw [hnone] at hmerged
    exact hfirst.trans (congrArg some hmerged.symm)
  · intro hv m' hm'
    have hkeys := (hleaf rfl hm').keys
    have hascending : (m'.map Prod.fst).Pairwise (· < ·) :=
      List.pairwise_map.mpr (wellFormed_givenAt hv hm').1
    rw [hkeys, List.pairwise_map] at hascending
    exact hascending.imp Text.octets_lt_iff.mpr
  · intro hcommand
    exact (hleaf rfl hcommand).texts_nil

/-- Beside what is given the defaults stand, at every depth. -/
theorem validateRequest_merges_partial :
    ∃ v r, (validateRequest {} v).outcome = .ok r ∧ v.WellFormed ∧
      Decoded (.string " 3 ") (.count r.descriptor.container.healthCheck.retries) ∧
      ({} : ModelRequest).leaf? ["containerConfig", "healthCheckConfig", "interval"] =
        some (.count r.descriptor.container.healthCheck.interval) ∧
      r.descriptor.container.healthCheck.command = [] ∧
      r.descriptor.container.environment.Pairwise fun e e' =>
        Text.octets e.key < Text.octets e'.key := by
  let v : Json := .object [
    ("containerConfig", .object [
      ("environment", .object [("B", .string "1"), ("a", .string "2")]),
      ("healthCheckConfig", .object [("command", .array []), ("retries", .string " 3 ")])]),
    ("modelId", .string "m"),
    ("modelName", .string "n")]
  let r : ModelRequest := { descriptor := {
    modelId := "m"
    modelName := "n"
    container := {
      environment := [⟨"B", "1"⟩, ⟨"a", "2"⟩]
      healthCheck := { command := [], retries := 3 } } } }
  have h : (validateRequest {} v).outcome = .ok r := by decide +kernel
  have hv : v.WellFormed := by
    simp only [v, Json.WellFormed, Json.MembersWellFormed, Json.AllWellFormed, Entries.Ascending]
    decide
  obtain ⟨hleaf, hmembers, hcommand⟩ := validateRequest_merges h
  obtain ⟨retries, hretries, -, hgiven⟩ :=
    hleaf ["containerConfig", "healthCheckConfig", "retries"] (by decide)
  obtain ⟨interval, hinterval, hnotGiven, -⟩ :=
    hleaf ["containerConfig", "healthCheckConfig", "interval"] (by decide)
  cases hretries
  cases hinterval
  exact ⟨v, r, h, hv, hgiven _ rfl, hnotGiven rfl, hcommand rfl, hmembers hv _ rfl⟩

end ModelCatalog.Validation
