/-
  ModelCatalog/Proofs/Validation/Layout.lean
  ==========================================
  **The layout of a request as a table.**

  A request is made of nine kinds of objects.  `Part.fields` lists the members that
  each of them has, in the order in which they are read, and says of each what it
  holds: a leaf, another part, or an environment.  The readers follow this table
  (`findings_part`): what they find in an object is what they find with its
  members outside the table and then, field by field, with what is given for each,
  moved below the name of the field.  So whatever holds of every finding, or of the
  places of all of them, is proved once over the table and not reader by reader.
-/
import Mathlib.Data.List.Nodup
import Mathlib.Tactic.Tauto
import ModelCatalog.Proofs.Validation.Survey
import ModelCatalog.Validation.Request

namespace ModelCatalog.Validation

open Survey

/-! ### The table -/

/-- How a value without fields of its own is read. -/
inductive Leaf where
  | identifier | text | requiredText | flag | texts
  | alternative (names : List String)
  | number (least : Nat)
  | count (least : Nat)
deriving DecidableEq

/-- The objects that a request is made of. -/
inductive Part where
  | request
  | container | image | containerHealthCheck | entry
  | scaling | metric
  | balancer | balancerHealthCheck
deriving DecidableEq

/-- What a field holds. -/
inductive Form where
  | leaf (l : Leaf)
  | part (q : Part)
  | environment
deriving DecidableEq

/-- The fields of a part, in the order in which they are read. -/
def Part.fields : Part → List (String × Form)
  | .request => [
      ("modelId", .leaf .identifier),
      ("modelName", .leaf .identifier),
      ("modelUrl", .leaf .text),
      ("streaming", .leaf .flag),
      ("modelType", .leaf (.alternative ["textgen", "embedding"])),
      ("instanceType", .leaf .text),
      ("inferenceContainer", .leaf (.alternative ["tgi", "tei", "vllm", "instructor"])),
      ("containerConfig", .part .container),
      ("autoScalingConfig", .part .scaling),
      ("loadBalancerConfig", .part .balancer),
      ("lisaHostedModel", .leaf .flag)]
  | .container => [
      ("image", .part .image),
      ("sharedMemorySize", .leaf (.count 0)),
      ("healthCheckConfig", .part .containerHealthCheck),
      ("environment", .environment)]
  | .image => [
      ("baseImage", .leaf .text),
      ("path", .leaf .text),
      ("type", .leaf .text)]
  | .containerHealthCheck => [
      ("command", .leaf .texts),
      ("interval", .leaf (.count 0)),
      ("startPeriod", .leaf (.count 0)),
      ("timeout", .leaf (.count 0)),
      ("retries", .leaf (.count 0))]
  | .entry => [
      ("key", .leaf .requiredText),
      ("value", .leaf .requiredText)]
  | .scaling => [
      ("minCapacity", .leaf (.count 1)),
      ("maxCapacity", .leaf (.count 1)),
      ("cooldown", .leaf (.count 1)),
      ("defaultInstanceWarmup", .leaf (.count 0)),
      ("metricConfig", .part .metric)]
  | .metric => [
      ("albMetricName", .leaf .text),
      ("targetValue", .leaf (.number 0)),
      ("duration", .leaf (.count 0)),
      ("estimatedInstanceWarmup", .leaf (.count 0))]
  | .balancer => [
      ("healthCheckConfig", .part .balancerHealthCheck)]
  | .balancerHealthCheck => [
      ("path", .leaf .text),
      ("interval", .leaf (.count 0)),
      ("timeout", .leaf (.count 0)),
      ("healthyThresholdCount", .leaf (.count 0)),
      ("unhealthyThresholdCount", .leaf (.count 0))]

/-- The names that mean something in a part. -/
def Part.keys : Part → List String
  | .request => ModelRequest.keys
  | .container => ContainerConfig.keys
  | .image => ContainerImage.keys
  | .containerHealthCheck => ContainerHealthCheck.keys
  | .entry => EnvironmentVariable.keys
  | .scaling => ScalingConfig.keys
  | .metric => ScalingMetric.keys
  | .balancer => BalancerConfig.keys
  | .balancerHealthCheck => BalancerHealthCheck.keys

/-- Every name that means something is read, and nothing else is. -/
theorem Part.fields_names (q : Part) : q.fields.map Prod.fst = q.keys := by
  cases q <;> rfl

theorem Part.nodup_keys (q : Part) : q.keys.Nodup := by
  cases q <;> decide

theorem Part.mem_keys {q : Part} {f : String × Form} (h : f ∈ q.fields) : f.1 ∈ q.keys :=
  q.fields_names ▸ List.mem_map_of_mem h

theorem Part.nodup_fields (q : Part) : (q.fields.map Prod.fst).Nodup :=
  q.fields_names ▸ q.nodup_keys

/-- The names that are not noted as unrecognized: a status of the root is noted for
    what it is. -/
def Part.known : Part → List String
  | .request => statusKey :: ModelRequest.keys
  | q => q.keys

theorem Part.mem_known {q : Part} {name : String} (h : name ∈ q.keys) : name ∈ q.known := by
  cases q with
  | request => exact List.mem_cons_of_mem _ h
  | _ => exact h

/-- How far a part is from the leaves. -/
def Part.rank : Part → Nat
  | .request => 4
  | .container => 3
  | .scaling | .balancer => 2
  | _ => 1

/-- How far a field is from the leaves; an environment is above its entries. -/
def Form.rank : Form → Nat
  | .leaf _ => 0
  | .part q => q.rank
  | .environment => 2

theorem Part.rank_lt (q : Part) : ∀ f ∈ q.fields, f.2.rank < q.rank := by
  cases q <;> decide

/-- What is true of a part as soon as it is true of the parts that its fields hold, and
    of the entries of the environment that one of them may be, is true of every part. -/
@[elab_as_elim] theorem Part.induction {motive : Part → Prop}
    (step : ∀ q : Part,
      (∀ name q', (name, Form.part q') ∈ q.fields → motive q') →
      (∀ name, (name, Form.environment) ∈ q.fields → motive .entry) → motive q)
    (q : Part) : motive q := by
  induction h : q.rank using Nat.strongRecOn generalizing q with
  | ind n ih =>
    subst h
    apply step q
    · intro name q' hq'
      exact ih _ (q.rank_lt _ hq') q' rfl
    · intro name hname
      have hentry : Part.entry.rank < Form.environment.rank := by decide
      exact ih _ (Nat.lt_trans hentry (q.rank_lt _ hname)) .entry rfl

/-! ### Findings in branches -/

/-- Gathers what was found behind each of some steps. -/
def gather (branches : List (Segment × List Finding)) : List Finding :=
  branches.flatMap fun b => b.2.map (Finding.under b.1)

theorem mem_gather {branches : List (Segment × List Finding)} {f : Finding} :
    f ∈ gather branches ↔ ∃ b ∈ branches, ∃ f' ∈ b.2, f'.under b.1 = f := by
  simp only [gather, List.mem_flatMap, List.mem_map]

@[simp] theorem gather_nil : gather [] = [] := rfl

@[simp] theorem gather_cons (s : Segment) (found : List Finding)
    (branches : List (Segment × List Finding)) :
    gather ((s, found) :: branches) = found.map (Finding.under s) ++ gather branches := rfl

@[simp] theorem gather_append (bs bs' : List (Segment × List Finding)) :
    gather (bs ++ bs') = gather bs ++ gather bs' := List.flatMap_append

/-- The places behind different steps are different. -/
theorem nodup_gather {branches : List (Segment × List Finding)}
    (hsteps : (branches.map Prod.fst).Nodup)
    (hfound : ∀ b ∈ branches, (b.2.map Finding.location).Nodup) :
    ((gather branches).map Finding.location).Nodup := by
  induction branches with
  | nil => simp
  | cons b branches ih =>
    obtain ⟨hb, hrest⟩ := List.nodup_cons.mp hsteps
    rw [show gather (b :: branches) = b.2.map (Finding.under b.1) ++ gather branches from rfl,
      List.map_append, List.nodup_append']
    refine ⟨?_, ih hrest fun b' hb' => hfound b' (List.mem_cons_of_mem _ hb'), ?_⟩
    · have hplaces : (b.2.map (Finding.under b.1)).map Finding.location =
          (b.2.map Finding.location).map fun l => b.1 :: l := by
        simp only [List.map_map]
        rfl
      rw [hplaces]
      exact (hfound b List.mem_cons_self).map fun _ _ h => (List.cons.inj h).2
    · rintro l hl hl'
      obtain ⟨f, hf, rfl⟩ := List.mem_map.mp hl
      obtain ⟨g, hg, hfg⟩ := List.mem_map.mp hl'
      obtain ⟨f', -, rfl⟩ := List.mem_map.mp hf
      obtain ⟨b', hb', g', -, rfl⟩ := mem_gather.mp hg
      have hstep : b'.1 = b.1 := (List.cons.inj hfg).1
      exact hb (hstep ▸ List.mem_map_of_mem hb')

/-! ### What the readers find -/

/-- What is found with what is given for a leaf. -/
def Leaf.findings : Leaf → Option Json → List Finding
  | .identifier, v => (Validation.identifier "" v).findings
  | .text, v => (Validation.text "" v).findings
  | .requiredText, v => (Validation.requiredText v).findings
  | .flag, v => (Validation.flag false v).findings
  | .texts, v => (Validation.texts [] v).findings
  | .alternative _, none => []
  | .alternative names, some (.string s) =>
    if s ∈ names then [] else [⟨[], .unknownName ⟨s, names⟩⟩]
  | .alternative _, some v => [⟨[], .expected .string v.kind⟩]
  | .number least, v => (Validation.number Double.zero least v).findings
  | .count least, v => (Validation.count 0 least v).findings

/-- What is found in an object that is there for a part. -/
def Part.findings : Part → Json.Members → List Finding
  | .request, m =>
    (noteUnrecognized (statusKey :: ModelRequest.keys) m).findings ++
      (Validation.request m).findings
  | .container, m => (Validation.container (some (.object m))).findings
  | .image, m => (Validation.containerImage (some (.object m))).findings
  | .containerHealthCheck, m => (Validation.containerHealthCheck (some (.object m))).findings
  | .entry, m => (Validation.environmentEntry (.object m)).findings
  | .scaling, m => (Validation.scaling (some (.object m))).findings
  | .metric, m => (Validation.scalingMetric (some (.object m))).findings
  | .balancer, m => (Validation.balancer (some (.object m))).findings
  | .balancerHealthCheck, m => (Validation.balancerHealthCheck (some (.object m))).findings

/-- What is found with what is given for a field. -/
def Form.findings : Form → Option Json → List Finding
  | .leaf l, v => l.findings v
  | .part _, none => []
  | .part q, some (.object m) => q.findings m
  | .part _, some v => [⟨[], .expected .object v.kind⟩]
  | .environment, v => (Validation.environment [] v).findings

@[simp] theorem Form.findings_leaf (l : Leaf) (v : Option Json) :
    (Form.leaf l).findings v = l.findings v := rfl

/-! The value that a field takes when nothing is given makes no difference. -/

@[simp] theorem findings_identifier (initial : String) (v : Option Json) :
    (identifier initial v).findings = Leaf.identifier.findings v := by
  rcases v with _ | v
  · rfl
  · cases v <;> rfl

@[simp] theorem findings_text (initial : String) (v : Option Json) :
    (text initial v).findings = Leaf.text.findings v := by
  rcases v with _ | v
  · rfl
  · cases v <;> rfl

@[simp] theorem findings_flag (initial : Bool) (v : Option Json) :
    (flag initial v).findings = Leaf.flag.findings v := by
  rcases v with _ | v
  · rfl
  · cases v <;> rfl

@[simp] theorem findings_texts (initial : List String) (v : Option Json) :
    (texts initial v).findings = Leaf.texts.findings v := by
  rcases v with _ | v
  · rfl
  · cases v <;> rfl

@[simp] theorem findings_number (initial : Double) (least : Nat) (v : Option Json) :
    (number initial least v).findings = (Leaf.number least).findings v := by
  rcases v with _ | v
  · rfl
  · simp only [Leaf.findings, number]
    rcases double? v with _ | x
    · rfl
    · cases h : x.lt (.ofNat least) <;> simp only [h] <;> rfl

@[simp] theorem findings_count (initial : UInt32) (least : Nat) (v : Option Json) :
    (count initial least v).findings = (Leaf.count least).findings v := by
  rcases v with _ | v
  · rfl
  · simp only [Leaf.findings, count]
    rcases double? v with _ | x
    · rfl
    · cases h : x.lt (.ofNat least)
      · rcases hn : x.natural? with _ | n
        · simp only [h, hn]; rfl
        · by_cases hsize : n < UInt32.size <;> simp only [h, hn, hsize] <;> rfl
      · simp only [h]; rfl

@[simp] theorem findings_environment (initial : List EnvironmentVariable) (v : Option Json) :
    (environment initial v).findings = Form.environment.findings v := by
  rcases v with _ | v
  · rfl
  · cases v <;> rfl

/-- A name is found to be one of those listed exactly if it names something. -/
@[simp] theorem findings_named {α : Type} [Named α] (v : Option Json) :
    (named v : Survey (Option α)).findings =
      (Leaf.alternative ((Named.all : List α).map Named.name)).findings v := by
  rcases v with _ | v
  · rfl
  cases v with
  | string s =>
    simp only [named, Named.ofName, Leaf.findings, List.mem_map]
    rcases h : (Named.all : List α).find? fun a => Named.name a == s with _ | a
    · have hnone : ¬ ∃ a ∈ (Named.all : List α), Named.name a = s := by
        rintro ⟨a, ha, hname⟩
        simpa [hname] using List.find?_eq_none.mp h a ha
      simp [hnone]
    · have hsome : ∃ a ∈ (Named.all : List α), Named.name a = s :=
        ⟨a, List.mem_of_find?_eq_some h, by simpa using List.find?_some h⟩
      simp [hsome]
  | null => rfl
  | bool b => rfl
  | number n => rfl
  | array items => rfl
  | object m => rfl

/-! ### The readers follow the table -/

/-- What is found when the bounds of scaling are compared. -/
def orderFindings (x : Survey ScalingConfig) : List Finding :=
  let bounds := x.findings.filter fun f => f.location.EndsWith "Capacity"
  let masked := bounds.any fun f => f.fault = .unrecognized
  let faulty := bounds.any fun f => f.fault ≠ .unrecognized
  if !faulty && x.value.maxCapacity < x.value.minCapacity then
    [⟨[.key "minCapacity"], .capacityOrder x.value.maxCapacity masked⟩]
  else []

@[simp] theorem value_checkCapacityOrder (x : Survey ScalingConfig) :
    (checkCapacityOrder x).value = x.value := by
  unfold checkCapacityOrder
  dsimp only
  split <;> rfl

@[simp] theorem findings_checkCapacityOrder (x : Survey ScalingConfig) :
    (checkCapacityOrder x).findings = x.findings ++ orderFindings x := by
  unfold checkCapacityOrder orderFindings
  dsimp only
  split
  · rfl
  · exact (List.append_nil _).symm

/-- What is found in a part beside what its members are at fault for one by one: the
    bounds of scaling out of order, and a variable without a name. -/
def Part.tail : Part → Json.Members → List Finding
  | .scaling, m => orderFindings (scalingFields m)
  | .entry, m =>
    if (requiredText (given m "key")).value = some "" then [⟨[.key "key"], .empty⟩] else []
  | _, _ => []

/-- The names in an object that are not among the known ones. -/
def strangers (known : List String) (m : Json.Members) : List String :=
  (m.map Prod.fst).filter fun name => !known.contains name

/-- What is found behind each member of a part: those that mean nothing there, and then
    the fields. -/
def Part.branches (q : Part) (m : Json.Members) : List (Segment × List Finding) :=
  (strangers q.known m).map (fun name => (.key name, [⟨[], .unrecognized⟩])) ++
    q.fields.map fun f => (.key f.1, f.2.findings (given m f.1))

@[simp] theorem findings_noteUnrecognized (known : List String) (m : Json.Members) :
    (noteUnrecognized known m).findings =
      gather ((strangers known m).map fun name => (.key name, [⟨[], .unrecognized⟩])) := by
  induction m with
  | nil => rfl
  | cons e m ih =>
    by_cases h : e.1 ∈ known
    · simpa [noteUnrecognized, strangers, h] using ih
    · simpa [noteUnrecognized, strangers, h, Finding.under] using ih

/-- For a group of fields nothing is given, or an object, or something else. -/
theorem group_cases {α : Type} {known : List String} {initial : α}
    {read : Json.Members → Survey α} {motive : Survey α → Prop} (v : Option Json)
    (nothing : motive (pure initial))
    (object : ∀ m, motive (noteUnrecognized known m >>= fun _ => read m))
    (other : ∀ kind, motive (flawed initial (.expected .object kind))) :
    motive (group known initial read v) := by
  rcases v with _ | v
  · exact nothing
  cases v with
  | object m => exact object m
  | _ => exact other _

/-- A group of fields is read as the part whose findings it has. -/
theorem findings_group {α : Type} {known : List String} {initial : α}
    {read : Json.Members → Survey α} (q : Part)
    (hq : ∀ m, q.findings m = (group known initial read (some (.object m))).findings)
    (v : Option Json) :
    (group known initial read v).findings = (Form.part q).findings v := by
  rcases v with _ | v
  · rfl
  cases v with
  | object m => exact (hq m).symm
  | null => rfl
  | bool b => rfl
  | number n => rfl
  | string s => rfl
  | array items => rfl

@[simp] theorem findings_containerImage (v : Option Json) :
    (containerImage v).findings = (Form.part .image).findings v :=
  findings_group .image (fun _ => rfl) v

@[simp] theorem findings_containerHealthCheck (v : Option Json) :
    (containerHealthCheck v).findings = (Form.part .containerHealthCheck).findings v :=
  findings_group .containerHealthCheck (fun _ => rfl) v

@[simp] theorem findings_container (v : Option Json) :
    (container v).findings = (Form.part .container).findings v :=
  findings_group .container (fun _ => rfl) v

@[simp] theorem findings_scalingMetric (v : Option Json) :
    (scalingMetric v).findings = (Form.part .metric).findings v :=
  findings_group .metric (fun _ => rfl) v

@[simp] theorem findings_scaling (v : Option Json) :
    (scaling v).findings = (Form.part .scaling).findings v :=
  findings_group .scaling (fun _ => rfl) v

@[simp] theorem findings_balancerHealthCheck (v : Option Json) :
    (balancerHealthCheck v).findings = (Form.part .balancerHealthCheck).findings v :=
  findings_group .balancerHealthCheck (fun _ => rfl) v

@[simp] theorem findings_balancer (v : Option Json) :
    (balancer v).findings = (Form.part .balancer).findings v :=
  findings_group .balancer (fun _ => rfl) v

/-- A variable without a name is noted after both of its fields are read. -/
theorem findings_environmentEntry (m : Json.Members) :
    (environmentEntry (.object m)).findings =
      gather (Part.entry.branches m) ++ Part.entry.tail m := by
  simp only [environmentEntry]
  by_cases h : (requiredText (given m "key")).value = some ""
  · simp [h, Part.branches, Part.tail, Part.fields, Part.known, Part.keys, Leaf.findings,
      Finding.under]
  · simp [h, Part.branches, Part.tail, Part.fields, Part.known, Part.keys, Leaf.findings]

theorem findings_scalingFields (m : Json.Members) :
    (scalingFields m).findings =
      gather (Part.scaling.fields.map fun f => (.key f.1, f.2.findings (given m f.1))) := by
  simp [scalingFields, Part.fields]

/-! Lists and objects of any length are read item by item. -/

/-- What is found with one item of a list of texts. -/
def itemFindings (v : Json) : List Finding :=
  if v.kind = .string then [] else [⟨[], .expected .string v.kind⟩]

theorem findings_textItems (position : Nat) (items : List Json) :
    (textItems position items).findings =
      gather ((items.zipIdx position).map fun e => (.index e.2, itemFindings e.1)) := by
  induction items generalizing position with
  | nil => rfl
  | cons v items ih =>
    cases v with
    | string s => simpa [textItems, itemFindings, Json.kind] using ih (position + 1)
    | null => simp [textItems, itemFindings, Json.kind, ih]
    | bool b => simp [textItems, itemFindings, Json.kind, ih]
    | number n => simp [textItems, itemFindings, Json.kind, ih]
    | array vs => simp [textItems, itemFindings, Json.kind, ih]
    | object m => simp [textItems, itemFindings, Json.kind, ih]

theorem findings_environmentEntries (position : Nat) (entries : List Json) :
    (environmentEntries position entries).findings =
      gather ((entries.zipIdx position).map fun e =>
        (.index e.2, (environmentEntry e.1).findings)) := by
  induction entries generalizing position with
  | nil => rfl
  | cons v entries ih => simp [environmentEntries, ih]

theorem findings_environmentMembers (m : Json.Members) :
    (environmentMembers m).findings =
      gather (m.map fun e => (.key e.1, (environmentMember e.1 e.2).findings)) := by
  induction m with
  | nil => rfl
  | cons e m ih => simp [environmentMembers, ih]

/-- **The readers follow the table.** -/
theorem findings_part (q : Part) (m : Json.Members) :
    q.findings m = gather (q.branches m) ++ q.tail m := by
  rw [Part.branches, gather_append]
  cases q with
  | request =>
    simp [Part.findings, Part.tail, Part.fields, Part.known, request, descriptor, Named.all,
      Named.name]
  | container =>
    simp [Part.findings, Part.tail, Part.fields, Part.known, Part.keys, container, group]
  | image =>
    simp [Part.findings, Part.tail, Part.fields, Part.known, Part.keys, containerImage, group]
  | containerHealthCheck =>
    simp [Part.findings, Part.tail, Part.fields, Part.known, Part.keys, containerHealthCheck,
      group]
  | entry =>
    rw [← gather_append]
    exact findings_environmentEntry m
  | scaling =>
    simp [Part.findings, Part.tail, Part.known, Part.keys, scaling, group,
      findings_scalingFields]
  | metric =>
    simp [Part.findings, Part.tail, Part.fields, Part.known, Part.keys, scalingMetric, group]
  | balancer =>
    simp [Part.findings, Part.tail, Part.fields, Part.known, Part.keys, balancer, group]
  | balancerHealthCheck =>
    simp [Part.findings, Part.tail, Part.fields, Part.known, Part.keys, balancerHealthCheck,
      group]

/-! Inputs as a whole. -/

/-- What is found with a status that is submitted. -/
def statusFindings (m : Json.Members) : List Finding :=
  if Entries.contains m statusKey then [⟨[.key statusKey], .outputOnly⟩] else []

theorem mem_statusFindings {m : Json.Members} {f : Finding} :
    f ∈ statusFindings m ↔
      Entries.contains m statusKey = true ∧ f = ⟨[.key statusKey], .outputOnly⟩ := by
  unfold statusFindings
  split <;> simp [*]

theorem value_root {α : Type} (known : List String) (initial : α)
    (read : Json.Members → Survey α) (m : Json.Members) :
    (root known initial read (.object m)).value = (read m).value := by
  simp only [root]
  split <;> rfl

theorem findings_root {α : Type} (known : List String) (initial : α)
    (read : Json.Members → Survey α) (m : Json.Members) :
    (root known initial read (.object m)).findings =
      statusFindings m ++ ((noteUnrecognized (statusKey :: known) m).findings ++
        (read m).findings) := by
  simp only [root, statusFindings]
  split <;> rfl

theorem value_surveyRequest (m : Json.Members) :
    (surveyRequest (.object m)).value = (request m).value := value_root _ _ _ m

theorem findings_surveyRequest (m : Json.Members) :
    (surveyRequest (.object m)).findings = statusFindings m ++ Part.request.findings m :=
  findings_root _ _ _ m

/-! ### Where a finding comes from -/

/-- A finding in a part is a member without a meaning, or lies in a field, or is one of
    those beside them. -/
theorem mem_part {q : Part} {m : Json.Members} {f : Finding} :
    f ∈ q.findings m ↔
      (∃ name ∈ strangers q.known m, f = ⟨[.key name], .unrecognized⟩) ∨
      (∃ name form, (name, form) ∈ q.fields ∧
        ∃ f' ∈ form.findings (given m name), f'.under (.key name) = f) ∨
      f ∈ q.tail m := by
  rw [findings_part, List.mem_append, Part.branches, gather_append, List.mem_append, or_assoc]
  refine or_congr ?_ (or_congr_left ?_)
  · simp [mem_gather, Finding.under, eq_comm]
  · simp [mem_gather]

theorem mem_formPart {q : Part} {v : Option Json} {f : Finding} :
    f ∈ (Form.part q).findings v ↔
      (∃ m, v = some (.object m) ∧ f ∈ q.findings m) ∨
      ∃ x, v = some x ∧ x.kind ≠ .object ∧ f = ⟨[], .expected .object x.kind⟩ := by
  rcases v with _ | x
  · simp [Form.findings]
  · cases x <;> simp [Form.findings, Json.kind]

theorem mem_environment {v : Option Json} {f : Finding} :
    f ∈ Form.environment.findings v ↔
      (∃ x, v = some x ∧ x.kind ≠ .list ∧ x.kind ≠ .object ∧
        f = ⟨[], .expected .pairList x.kind⟩) ∨
      (∃ entries i x, v = some (.array entries) ∧ entries[i]? = some x ∧
        ∃ f' ∈ (environmentEntry x).findings, f'.under (.index i) = f) ∨
      ∃ m key x, v = some (.object m) ∧ (key, x) ∈ m ∧
        ∃ f' ∈ (environmentMember key x).findings, f'.under (.key key) = f := by
  rcases v with _ | x
  · simp [Form.findings, environment]
  cases x with
  | array entries =>
    simp only [Form.findings, environment, findings_environmentEntries, mem_gather]
    simp [Json.kind, List.mem_zipIdx_iff_getElem?]
    exact exists_comm
  | object m =>
    simp only [Form.findings, environment, findings_environmentMembers, mem_gather]
    simp [Json.kind]
  | _ => simp [Form.findings, environment, Json.kind]

theorem mem_environmentEntry {x : Json} {f : Finding} :
    f ∈ (environmentEntry x).findings ↔
      (∃ m, x = .object m ∧ f ∈ Part.entry.findings m) ∨
      (x.kind ≠ .object ∧ f = ⟨[], .expected .pair x.kind⟩) := by
  cases x <;> simp [environmentEntry, Json.kind, Part.findings]

theorem mem_environmentMember {key : String} {x : Json} {f : Finding} :
    f ∈ (environmentMember key x).findings ↔
      (key = "" ∧ f = ⟨[], .empty⟩) ∨
      (key ≠ "" ∧ x.kind ≠ .string ∧ f = ⟨[], .expected .string x.kind⟩) := by
  by_cases h : key = ""
  · simp [environmentMember, h]
  · cases x <;> simp [environmentMember, h, Json.kind]

/-- Bounds are noted out of order exactly if they are and nothing that looks like a
    bound is at fault, members without a meaning apart; and these mask the order. -/
theorem mem_orderFindings {x : Survey ScalingConfig} {f : Finding} :
    f ∈ orderFindings x ↔
      x.value.maxCapacity < x.value.minCapacity ∧
      (∀ g ∈ x.findings, g.location.EndsWith "Capacity" → g.fault = .unrecognized) ∧
      f = ⟨[.key "minCapacity"], .capacityOrder x.value.maxCapacity
        (decide (∃ g ∈ x.findings, g.location.EndsWith "Capacity" ∧ g.fault = .unrecognized))⟩ := by
  have hmasked : (x.findings.any fun g =>
        decide (g.location.EndsWith "Capacity") && decide (g.fault = .unrecognized)) =
      decide (∃ g ∈ x.findings, g.location.EndsWith "Capacity" ∧ g.fault = .unrecognized) := by
    rw [Bool.eq_iff_iff]
    simp
  simp [orderFindings, hmasked]
  tauto

end ModelCatalog.Validation
