/-
  ModelCatalog/Proofs/Validation/Congruence.lean
  ==============================================
  **Objects are read alike if their fields are.**

  Two inputs are compared by comparing what is read of them.  A `Survey.Congruence` is a
  way in which surveys can be alike that lasts through every step of reading: going on
  from what was read, moving below a name, comparing the bounds of scaling.  Such a
  likeness passes from what is given for the fields of a part to the part as a whole
  (`Congruence.object`), so it is proved once for all nine kinds of objects.  Equality is
  the finest one.
-/
import ModelCatalog.Proofs.Validation.Layout

namespace ModelCatalog

open Validation

/-- A likeness of surveys that every step of reading respects. -/
structure Survey.Congruence where
  Alike : {α : Type} → Survey α → Survey α → Prop
  refl : ∀ {α : Type} (x : Survey α), Alike x x
  bind : ∀ {α β : Type} {x y : Survey α} {f g : α → Survey β},
    Alike x y → (∀ a, Alike (f a) (g a)) → Alike (x >>= f) (y >>= g)
  under : ∀ {α : Type} {x y : Survey α} (s : Segment),
    Alike x y → Alike (x.under s) (y.under s)
  checked : ∀ {x y : Survey ScalingConfig},
    Alike x y → Alike (checkCapacityOrder x) (checkCapacityOrder y)

/-- Surveys that are the same are alike in every way. -/
def Survey.Congruence.same : Survey.Congruence where
  Alike x y := x = y
  refl _ := rfl
  bind := by
    rintro α β x _ f g rfl h
    rw [funext h]
  under s h := h ▸ rfl
  checked h := h ▸ rfl

namespace Validation

/-! ### Reading a part -/

/-- What is read of a part. -/
def Part.Value : Part → Type
  | .request => ModelRequest
  | .container => ContainerConfig
  | .image => ContainerImage
  | .containerHealthCheck => ContainerHealthCheck
  | .entry => Option EnvironmentVariable
  | .scaling => ScalingConfig
  | .metric => ScalingMetric
  | .balancer => BalancerConfig
  | .balancerHealthCheck => BalancerHealthCheck

/-- Reads what is given for a part.  A request and an entry are always there, if only as
    null. -/
def Part.read : (q : Part) → Option Json → Survey q.Value
  | .request, v => surveyRequest (v.getD .null)
  | .container, v => Validation.container v
  | .image, v => containerImage v
  | .containerHealthCheck, v => Validation.containerHealthCheck v
  | .entry, v => environmentEntry (v.getD .null)
  | .scaling, v => Validation.scaling v
  | .metric, v => scalingMetric v
  | .balancer, v => Validation.balancer v
  | .balancerHealthCheck, v => Validation.balancerHealthCheck v

end Validation

namespace Survey.Congruence

variable (C : Survey.Congruence)

/-- What is given for a field is read alike; a leaf has to be given the same. -/
def Given : Form → Option Json → Option Json → Prop
  | .leaf _, v, v' => v = v'
  | .part q, v, v' => C.Alike (q.read v) (q.read v')
  | .environment, v, v' => C.Alike (environment [] v) (environment [] v')

theorem given_refl (form : Form) (v : Option Json) : C.Given form v v := by
  cases form with
  | leaf l => rfl
  | part q => exact C.refl _
  | environment => exact C.refl _

/-- The members of two objects are read alike for every field of a part. -/
structure Fields (q : Part) (m m' : Json.Members) : Prop where
  strangers : C.Alike (noteUnrecognized q.known m) (noteUnrecognized q.known m')
  status : q = .request → Entries.contains m statusKey = Entries.contains m' statusKey
  fields : ∀ name form, (name, form) ∈ q.fields →
    C.Given form (Validation.given m name) (Validation.given m' name)

variable {C} {q : Part} {m m' : Json.Members}

/-! ### From the fields to the whole -/

theorem Fields.leaf {α : Type} {name : String} (h : C.Fields q m m') (l : Leaf)
    (hfield : (name, Form.leaf l) ∈ q.fields) (read : Option Json → Survey α) :
    C.Alike (field m name read) (field m' name read) := by
  have hgiven : Validation.given m name = Validation.given m' name := h.fields name _ hfield
  unfold field
  rw [hgiven]
  exact C.refl _

theorem Fields.part {name : String} (h : C.Fields q m m') (q' : Part)
    (hfield : (name, Form.part q') ∈ q.fields) :
    C.Alike (field m name q'.read) (field m' name q'.read) :=
  C.under _ (h.fields name _ hfield)

theorem Fields.environment {name : String} (h : C.Fields q m m')
    (hfield : (name, Form.environment) ∈ q.fields) :
    C.Alike (field m name (environment [])) (field m' name (environment [])) :=
  C.under _ (h.fields name _ hfield)

theorem Fields.descriptor (h : C.Fields .request m m') :
    C.Alike (descriptor m) (descriptor m') :=
  C.bind (h.leaf .identifier (by decide) _) fun _ =>
  C.bind (h.leaf .identifier (by decide) _) fun _ =>
  C.bind (h.leaf .text (by decide) _) fun _ =>
  C.bind (h.leaf .flag (by decide) _) fun _ =>
  C.bind (h.leaf (.alternative ["textgen", "embedding"]) (by decide) _) fun _ =>
  C.bind (h.leaf .text (by decide) _) fun _ =>
  C.bind (h.leaf (.alternative ["tgi", "tei", "vllm", "instructor"]) (by decide) _) fun _ =>
  C.bind (h.part .container (by decide)) fun _ =>
  C.bind (h.part .scaling (by decide)) fun _ =>
  C.bind (h.part .balancer (by decide)) fun _ =>
  C.refl _

theorem Fields.request (h : C.Fields .request m m') : C.Alike (request m) (request m') :=
  C.bind h.descriptor fun _ =>
  C.bind (h.leaf .flag (by decide) _) fun _ =>
  C.refl _

theorem Fields.scaling (h : C.Fields .scaling m m') :
    C.Alike (scalingFields m) (scalingFields m') :=
  C.bind (h.leaf (.count 1) (by decide) _) fun _ =>
  C.bind (h.leaf (.count 1) (by decide) _) fun _ =>
  C.bind (h.leaf (.count 1) (by decide) _) fun _ =>
  C.bind (h.leaf (.count 0) (by decide) _) fun _ =>
  C.bind (h.part .metric (by decide)) fun _ =>
  C.refl _

/-- A status is noted alike in two objects that both have one, or neither. -/
theorem root_alike {α : Type} {known : List String} (initial : α)
    {read : Json.Members → Survey α}
    (hstatus : Entries.contains m statusKey = Entries.contains m' statusKey)
    (hstrangers : C.Alike (noteUnrecognized (statusKey :: known) m)
      (noteUnrecognized (statusKey :: known) m'))
    (hread : C.Alike (read m) (read m')) :
    C.Alike (root known initial read (.object m)) (root known initial read (.object m')) := by
  have hrest : C.Alike
      (noteUnrecognized (statusKey :: known) m >>= fun _ => read m)
      (noteUnrecognized (statusKey :: known) m' >>= fun _ => read m') :=
    C.bind hstrangers fun _ => hread
  simp only [root, hstatus]
  cases Entries.contains m' statusKey with
  | false => exact hrest
  | true => exact C.bind (C.refl _) fun _ => hrest

/-- **Objects are read alike if their fields are.** -/
theorem object (h : C.Fields q m m') :
    C.Alike (q.read (some (.object m))) (q.read (some (.object m'))) := by
  cases q with
  | request => exact root_alike ({} : ModelRequest) (h.status rfl) h.strangers h.request
  | container =>
    exact
      C.bind h.strangers fun _ =>
      C.bind (h.part .image (by decide)) fun _ =>
      C.bind (h.leaf (.count 0) (by decide) _) fun _ =>
      C.bind (h.part .containerHealthCheck (by decide)) fun _ =>
      C.bind (h.environment (by decide)) fun _ =>
      C.refl _
  | image =>
    exact
      C.bind h.strangers fun _ =>
      C.bind (h.leaf .text (by decide) _) fun _ =>
      C.bind (h.leaf .text (by decide) _) fun _ =>
      C.bind (h.leaf .text (by decide) _) fun _ =>
      C.refl _
  | containerHealthCheck =>
    exact
      C.bind h.strangers fun _ =>
      C.bind (h.leaf .texts (by decide) _) fun _ =>
      C.bind (h.leaf (.count 0) (by decide) _) fun _ =>
      C.bind (h.leaf (.count 0) (by decide) _) fun _ =>
      C.bind (h.leaf (.count 0) (by decide) _) fun _ =>
      C.bind (h.leaf (.count 0) (by decide) _) fun _ =>
      C.refl _
  | entry =>
    exact
      C.bind h.strangers fun _ =>
      C.bind (h.leaf .requiredText (by decide) _) fun _ =>
      C.bind (h.leaf .requiredText (by decide) _) fun _ =>
      C.refl _
  | scaling => exact C.bind h.strangers fun _ => C.checked h.scaling
  | metric =>
    exact
      C.bind h.strangers fun _ =>
      C.bind (h.leaf .text (by decide) _) fun _ =>
      C.bind (h.leaf (.number 0) (by decide) _) fun _ =>
      C.bind (h.leaf (.count 0) (by decide) _) fun _ =>
      C.bind (h.leaf (.count 0) (by decide) _) fun _ =>
      C.refl _
  | balancer =>
    exact
      C.bind h.strangers fun _ =>
      C.bind (h.part .balancerHealthCheck (by decide)) fun _ =>
      C.refl _
  | balancerHealthCheck =>
    exact
      C.bind h.strangers fun _ =>
      C.bind (h.leaf .text (by decide) _) fun _ =>
      C.bind (h.leaf (.count 0) (by decide) _) fun _ =>
      C.bind (h.leaf (.count 0) (by decide) _) fun _ =>
      C.bind (h.leaf (.count 0) (by decide) _) fun _ =>
      C.bind (h.leaf (.count 0) (by decide) _) fun _ =>
      C.refl _

/-- Entries that are read alike one by one are read alike as a row. -/
theorem entries {xs ys : List Json}
    (h : List.Forall₂ (fun x y => C.Alike (environmentEntry x) (environmentEntry y)) xs ys)
    (position : Nat) :
    C.Alike (environmentEntries position xs) (environmentEntries position ys) := by
  induction h generalizing position with
  | nil => exact C.refl _
  | cons hentry _ ih =>
    exact C.bind (C.under _ hentry) fun _ => C.bind (ih (position + 1)) fun _ => C.refl _

end Survey.Congruence

end ModelCatalog
