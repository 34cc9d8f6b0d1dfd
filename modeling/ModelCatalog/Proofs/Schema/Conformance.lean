/-
  ModelCatalog/Proofs/Schema/Conformance.lean
  ===========================================
  **What it means for a value to conform to a schema.**

  A value conforms to a schema if it meets every keyword of it.  A keyword that constrains
  one kind of value says nothing of the others, and an annotation says nothing at all; a
  keyword that is not known here is met by nothing, so no constraint is passed over.
  Beside conforming, a value is `Covered` if every member in it, at every depth, is among
  the properties of the schema that applies there.  The two go together (`Fits`), and each
  building block of the document is shown to fit what it is written for.
-/
import ModelCatalog.Proofs.Entries
import ModelCatalog.Schema

namespace ModelCatalog

/-! ### Numbers as schemas see them -/

/-- The exact value of a number, in units of the least positive double. -/
def Number.units : Number → Int
  | .integer n => n * Double.unitsPerOne
  | .double d => if d.negative then -(d.scaled : Int) else d.scaled

/-- Whether a number is whole, in whatever way it is written. -/
def Number.IsWhole (n : Number) : Prop := (Double.unitsPerOne : Int) ∣ n.units

namespace Schema

/-! ### Conformance -/

/-- The types that schemas tell apart. -/
inductive HasType : String → Json → Prop
  | null : HasType "null" .null
  | boolean (b : Bool) : HasType "boolean" (.bool b)
  | string (s : String) : HasType "string" (.string s)
  | array (items : List Json) : HasType "array" (.array items)
  | object (members : Json.Members) : HasType "object" (.object members)
  | number (n : Number) : HasType "number" (.number n)
  | integer {n : Number} (h : n.IsWhole) : HasType "integer" (.number n)

/-- The formats of numbers, taken as constraints. -/
inductive HasFormat : String → Json → Prop
  | uint32 {n : Nat} (h : n < UInt32.size) : HasFormat "uint32" (.ofNat n)
  | double (n : Number) : HasFormat "double" (.number n)

/-- The keywords that describe and constrain nothing. -/
def annotations : List String := ["$schema", "definitions", "description", "title", "default"]

/-- The keywords that constrain one kind of value, and the kind. -/
def constrained : List (String × Json.Kind) := [
  ("format", .number), ("minimum", .number), ("items", .list), ("properties", .object),
  ("required", .object)]

mutual

/-- A value meets every keyword of a schema.  References are resolved in `definitions`. -/
inductive Conforms (definitions : Json.Members) : Json → Json → Prop
  | intro {keywords : Json.Members} {v : Json}
      (h : ∀ k ∈ keywords, Meets definitions k.1 k.2 v) : Conforms definitions (.object keywords) v

/-- A value meets a keyword with an argument. -/
inductive Meets (definitions : Json.Members) : String → Json → Json → Prop
  | remark {keyword : String} {argument v : Json} (h : keyword ∈ annotations) :
      Meets definitions keyword argument v
  | silent {keyword : String} {kind : Json.Kind} {argument v : Json}
      (h : (keyword, kind) ∈ constrained) (hv : v.kind ≠ kind) :
      Meets definitions keyword argument v
  | type {name : String} {v : Json} (h : HasType name v) : Meets definitions "type" (.string name) v
  | format {name : String} {v : Json} (h : HasFormat name v) :
      Meets definitions "format" (.string name) v
  | minimum {least n : Number} (h : least.units ≤ n.units) :
      Meets definitions "minimum" (.number least) (.number n)
  | enum {values : List Json} {v : Json} (h : v ∈ values) :
      Meets definitions "enum" (.array values) v
  | items {schema : Json} {items : List Json} (h : ∀ v ∈ items, Conforms definitions schema v) :
      Meets definitions "items" schema (.array items)
  | properties {properties members : Json.Members}
      (h : ∀ name schema v, properties.get? name = some schema → members.get? name = some v →
        Conforms definitions schema v) :
      Meets definitions "properties" (.object properties) (.object members)
  | required {names : List Json} {members : Json.Members}
      (h : ∀ name, .string name ∈ names → name ∈ members.names) :
      Meets definitions "required" (.array names) (.object members)
  | reference {name : String} {schema v : Json} (hname : definitions.get? name = some schema)
      (h : Conforms definitions schema v) :
      Meets definitions "$ref" (.string ("#/definitions/" ++ name)) v
  | allOf {schemas : List Json} {v : Json} (h : ∀ schema ∈ schemas, Conforms definitions schema v) :
      Meets definitions "allOf" (.array schemas) v
  | anyOf {schemas : List Json} {schema v : Json} (hmem : schema ∈ schemas)
      (h : Conforms definitions schema v) : Meets definitions "anyOf" (.array schemas) v

end

/-! ### Declared members -/

/-- A keyword applies to what a schema applies to: it is one of the schema's own, or of a
    schema that has to apply along with it. -/
inductive Applies (definitions : Json.Members) : Json → String → Json → Prop
  | own {keywords : Json.Members} {keyword : String} {argument : Json}
      (h : keywords.get? keyword = some argument) :
      Applies definitions (.object keywords) keyword argument
  | reference {keywords : Json.Members} {target keyword : String} {schema argument : Json}
      (h : keywords.get? "$ref" = some (.string ("#/definitions/" ++ target)))
      (htarget : definitions.get? target = some schema)
      (happlies : Applies definitions schema keyword argument) :
      Applies definitions (.object keywords) keyword argument
  | allOf {keywords : Json.Members} {schemas : List Json} {schema argument : Json}
      {keyword : String} (h : keywords.get? "allOf" = some (.array schemas))
      (hmem : schema ∈ schemas) (happlies : Applies definitions schema keyword argument) :
      Applies definitions (.object keywords) keyword argument

/-- A schema declares a member among its properties, and which schema its value has. -/
def Declares (definitions : Json.Members) (schema : Json) (name : String) (declared : Json) :
    Prop :=
  ∃ properties : Json.Members, Applies definitions schema "properties" (.object properties) ∧
    properties.get? name = some declared

/-- Every member of a value, at every depth, is declared by the schema that applies to the
    object that it is a member of. -/
inductive Covered (definitions : Json.Members) : Json → Json → Prop
  | leaf {schema v : Json} (hlist : v.kind ≠ .list) (hobject : v.kind ≠ .object) :
      Covered definitions schema v
  | array {schema itemSchema : Json} {items : List Json}
      (h : Applies definitions schema "items" itemSchema)
      (hitems : ∀ v ∈ items, Covered definitions itemSchema v) :
      Covered definitions schema (.array items)
  | object {schema : Json} {members : Json.Members} (schemaOf : String → Json)
      (h : ∀ e ∈ members, Declares definitions schema e.1 (schemaOf e.1))
      (hmembers : ∀ e ∈ members, Covered definitions (schemaOf e.1) e.2) :
      Covered definitions schema (.object members)

/-- A value conforms to a schema and has no member that the schema does not declare. -/
structure Fits (definitions : Json.Members) (schema v : Json) : Prop where
  conforms : Conforms definitions schema v
  covered : Covered definitions schema v

/-- The definitions that a document brings along. -/
def definitionsOf : Json → Json.Members
  | .object keywords =>
    match Entries.get? keywords "definitions" with
    | some (.object definitions) => definitions
    | _ => []
  | _ => []

variable {definitions : Json.Members}

/-! ### Keywords -/

theorem conforms_object_iff {keywords : Json.Members} {v : Json} :
    Conforms definitions (.object keywords) v ↔
      ∀ k ∈ keywords, Meets definitions k.1 k.2 v := by
  constructor
  · rintro ⟨h⟩
    exact h
  · exact .intro

/-- What is known of a value that meets one of the keywords that lead to its parts. -/
structure Meaning (definitions : Json.Members) (keyword : String) (argument v : Json) : Prop where
  type : keyword = "type" → ∀ name, argument = .string name → HasType name v
  property : keyword = "properties" → ∀ properties members, argument = .object properties →
    v = .object members → ∀ name schema x, Entries.get? properties name = some schema →
      Entries.get? members name = some x → Conforms definitions schema x
  allOf : keyword = "allOf" → ∀ schemas, argument = .array schemas →
    ∀ schema ∈ schemas, Conforms definitions schema v
  reference : keyword = "$ref" → ∃ name schema, argument = .string ("#/definitions/" ++ name) ∧
    definitions.get? name = some schema ∧ Conforms definitions schema v

theorem Meets.meaning {keyword : String} {argument v : Json}
    (h : Meets definitions keyword argument v) : Meaning definitions keyword argument v := by
  cases h with
  | remark h =>
    constructor <;>
    · rintro rfl
      exact absurd h (by decide)
  | silent h hkind =>
    constructor
    case property =>
      rintro rfl properties members - rfl
      have hobject : (Json.object members).kind = .object := rfl
      exact absurd (hobject.trans (by simpa [constrained, eq_comm] using h)) hkind
    all_goals
      rintro rfl
      simp [constrained] at h
  | type h =>
    refine ⟨?_, by simp, by simp, by simp⟩
    rintro - name heq
    cases heq
    exact h
  | properties h =>
    refine ⟨by simp, ?_, by simp, by simp⟩
    rintro - properties members hargument hvalue
    cases hargument
    cases hvalue
    exact h
  | allOf h =>
    refine ⟨by simp, by simp, ?_, by simp⟩
    rintro - schemas heq
    cases heq
    exact h
  | reference hname h => exact ⟨by simp, by simp, by simp, fun _ => ⟨_, _, rfl, hname, h⟩⟩
  | _ => constructor <;> simp

theorem meets_description (argument v : Json) :
    Meets definitions "description" argument v := .remark (by decide)

theorem meets_default (argument v : Json) : Meets definitions "default" argument v :=
  .remark (by decide)

/-! ### Leaves -/

theorem fits_of_conforms {schema v : Json} (h : Conforms definitions schema v)
    (hlist : v.kind ≠ .list) (hobject : v.kind ≠ .object) : Fits definitions schema v :=
  ⟨h, .leaf hlist hobject⟩

theorem fits_anyText (s : String) : Fits definitions anyText (.string s) := by
  refine fits_of_conforms (conforms_object_iff.mpr ?_) nofun nofun
  simp [Meets.type, HasType.string]

/-- A leaf of which only the type is asked, beside its default. -/
theorem fits_typed {name : String} {v : Json} (initial : Json) (h : HasType name v)
    (hlist : v.kind ≠ .list) (hobject : v.kind ≠ .object) :
    Fits definitions (.object [("default", initial), ("type", .string name)]) v := by
  refine fits_of_conforms (conforms_object_iff.mpr ?_) hlist hobject
  simp [meets_default, Meets.type h]

theorem fits_text (initial s : String) : Fits definitions (text initial) (.string s) :=
  fits_typed _ (.string s) nofun nofun

theorem fits_flag (initial b : Bool) : Fits definitions (flag initial) (.bool b) :=
  fits_typed _ (.boolean b) nofun nofun

theorem isWhole_integer (n : Int) : (Number.integer n).IsWhole :=
  Int.dvd_mul_left n _

theorem units_zero : (Number.double .zero).units = 0 := by decide

theorem fits_count (initial n : UInt32) : Fits definitions (count initial) (.ofCount n) := by
  refine fits_of_conforms (conforms_object_iff.mpr ?_) nofun nofun
  have hformat : HasFormat "uint32" (.ofCount n) := .uint32 n.toNat_lt
  have htype : HasType "integer" (.ofCount n) := .integer (isWhole_integer _)
  have hminimum : Meets definitions "minimum" (.ofDouble .zero) (.ofCount n) := by
    apply Meets.minimum
    rw [units_zero]
    exact Int.mul_nonneg (Int.natCast_nonneg _) (Int.natCast_nonneg _)
  simp [meets_default, Meets.format hformat, Meets.type htype, hminimum]

theorem fits_double (initial : Double) {d : Double} (h : d.isFinite = true) :
    Fits definitions (double initial) (.ofDouble d) := by
  rw [Json.ofDouble, if_pos h]
  refine fits_of_conforms (conforms_object_iff.mpr ?_) nofun nofun
  simp [meets_default, Meets.format (HasFormat.double _), Meets.type (HasType.number _)]

theorem fits_alternatives {α : Type} [Named α] {a : α} (h : a ∈ (Named.all : List α)) :
    Fits definitions (alternatives α) (.ofNamed a) := by
  refine fits_of_conforms (conforms_object_iff.mpr ?_) nofun nofun
  have hname : Json.ofNamed a ∈ ((Named.all : List α).map Named.name).map Json.string := by
    rw [List.map_map]
    exact List.mem_map_of_mem h
  simp only [List.forall_mem_cons, List.not_mem_nil, false_imp_iff, implies_true, and_true]
  exact ⟨.enum hname, .type (.string _)⟩

/-! ### Schemas that refer to others -/

/-- What a schema covers is covered by one to which all of its constraints apply. -/
theorem Covered.of_applies {schema schema' v : Json} (h : Covered definitions schema v)
    (happlies : ∀ keyword argument, keyword ∉ annotations →
      Applies definitions schema keyword argument →
      Applies definitions schema' keyword argument) : Covered definitions schema' v := by
  cases h with
  | leaf hlist hobject => exact .leaf hlist hobject
  | array hown hitems => exact .array (happlies _ _ (by decide) hown) hitems
  | object schemaOf hdeclared hmembers =>
    refine .object schemaOf ?_ hmembers
    intro e he
    obtain ⟨properties, hown, hname⟩ := hdeclared e he
    exact ⟨properties, happlies _ _ (by decide) hown, hname⟩

section References

variable {name : String} {schema v : Json}

theorem Fits.reference (hname : definitions.get? name = some schema)
    (h : Fits definitions schema v) : Fits definitions (reference name) v := by
  constructor
  · refine conforms_object_iff.mpr ?_
    simp [Meets.reference hname h.conforms]
  · apply h.covered.of_applies
    intro keyword argument _ happlies
    exact .reference rfl hname happlies

theorem Fits.part (initial : Json) (hname : definitions.get? name = some schema)
    (h : Fits definitions schema v) : Fits definitions (part name initial) v := by
  have hreference := Fits.reference hname h
  constructor
  · have hallOf : Meets definitions "allOf" (.array [Schema.reference name]) v := by
      apply Meets.allOf
      simpa using hreference.conforms
    refine conforms_object_iff.mpr ?_
    simp [hallOf, meets_default]
  · apply hreference.covered.of_applies
    intro keyword argument _ happlies
    exact .allOf rfl List.mem_cons_self happlies

/-- And back: what conforms to a part conforms to what the part refers to. -/
theorem Conforms.of_part {initial : Json} (h : Conforms definitions (part name initial) v)
    (hname : definitions.get? name = some schema) : Conforms definitions schema v := by
  have hreference : Conforms definitions (Schema.reference name) v :=
    (conforms_object_iff.mp h _ List.mem_cons_self).meaning.allOf rfl _ rfl _ List.mem_cons_self
  obtain ⟨name', schema', hargument, hname', hconforms⟩ :=
    (conforms_object_iff.mp hreference _ List.mem_cons_self).meaning.reference rfl
  obtain rfl : name = name' := (String.append_right_inj _).mp (Json.string.inj hargument)
  obtain rfl : schema = schema' := Option.some.inj (hname.symm.trans hname')
  exact hconforms

/-- Of a part that may be null it is only said that leaves are covered. -/
theorem Fits.nullablePart (hname : definitions.get? name = some schema)
    (h : Fits definitions schema v) (hlist : v.kind ≠ .list) (hobject : v.kind ≠ .object) :
    Fits definitions (nullablePart name) v := by
  refine fits_of_conforms (conforms_object_iff.mpr ?_) hlist hobject
  simp only [List.forall_mem_singleton]
  exact .anyOf List.mem_cons_self (Fits.reference hname h).conforms

/-- A description constrains nothing. -/
theorem Fits.described {keywords : Json.Members} (description : String)
    (h : Fits definitions (.object keywords) v) :
    Fits definitions (described description (.object keywords)) v := by
  have hget : ∀ keyword, keyword ≠ "description" →
      Entries.get? (Entries.insert "description" (.string description) keywords) keyword =
        Entries.get? keywords keyword := by
    intro keyword hne
    rw [Entries.get?_insert, if_neg (Ne.symm hne)]
  constructor
  · refine conforms_object_iff.mpr ?_
    intro k hk
    rcases Entries.mem_insert hk with rfl | hk
    · exact meets_description _ v
    · exact conforms_object_iff.mp h.conforms k hk
  · apply h.covered.of_applies
    intro keyword argument hkeyword happlies
    cases happlies with
    | own h =>
      refine .own ((hget keyword ?_).trans h)
      rintro rfl
      exact hkeyword (by decide)
    | reference h htarget happlies =>
      exact .reference ((hget "$ref" (by decide)).trans h) htarget happlies
    | allOf h hmem happlies => exact .allOf ((hget "allOf" (by decide)).trans h) hmem happlies

end References

/-! ### Lists and objects -/

theorem fits_list (initial : Json) {itemSchema : Json} {items : List Json}
    (h : ∀ v ∈ items, Fits definitions itemSchema v) :
    Fits definitions (list initial itemSchema) (.array items) := by
  constructor
  · have hitems : Meets definitions "items" itemSchema (.array items) :=
      .items fun v hv => (h v hv).conforms
    refine conforms_object_iff.mpr ?_
    simp [hitems, meets_default, Meets.type (HasType.array items)]
  · exact .array (.own rfl) fun v hv => (h v hv).covered

/-- What an object schema needs of an object: each of its members is that of a property. -/
def Matches (definitions : Json.Members) (properties : List (String × Json))
    (members : Json.Members) : Prop :=
  ∀ e ∈ members, ∃ schema, properties.lookup e.1 = some schema ∧ Fits definitions schema e.2

section Objects

variable {properties : List (String × Json)} {members : Json.Members}

theorem Matches.nil : Matches definitions properties [] := nofun

theorem Matches.cons {name : String} {schema v : Json} (hfits : Fits definitions schema v)
    (hname : properties.lookup name = some schema)
    (h : Matches definitions properties members) :
    Matches definitions properties ((name, v) :: members) := by
  intro e he
  rcases List.mem_cons.mp he with rfl | he
  · exact ⟨schema, hname, hfits⟩
  · exact h e he

theorem Matches.append {members' : Json.Members} (h : Matches definitions properties members)
    (h' : Matches definitions properties members') :
    Matches definitions properties (members ++ members') := by
  intro e he
  exact (List.mem_append.mp he).elim (h e) (h' e)

/-- The members with the names of properties conform to them. -/
theorem Matches.meets_properties (hnames : (properties.map Prod.fst).Nodup)
    (h : Matches definitions properties members) :
    Meets definitions "properties" (.ofMembers properties) (.object members) := by
  apply Meets.properties
  intro name schema v hschema hv
  have hnone : Entries.get? ([] : Json.Members) name = none := rfl
  rw [Entries.get?_foldl_insert hnames, hnone, Option.or_none] at hschema
  obtain ⟨schema', hschema', hfits⟩ := h (name, v) (Entries.mem_of_get? hv)
  obtain rfl : schema' = schema := Option.some.inj (hschema'.symm.trans hschema)
  exact hfits.conforms

/-- An object is covered by any schema to which the properties of its members apply. -/
theorem Matches.covered (hnames : (properties.map Prod.fst).Nodup)
    (h : Matches definitions properties members) {schema : Json}
    (happlies : Applies definitions schema "properties" (.ofMembers properties)) :
    Covered definitions schema (.object members) := by
  refine .object (fun name => (properties.lookup name).getD .null) ?_ ?_
  · intro e he
    obtain ⟨s, hname, -⟩ := h e he
    refine ⟨_, happlies, ?_⟩
    rw [Entries.get?_foldl_insert hnames, hname]
    rfl
  · intro e he
    obtain ⟨s, hname, hfits⟩ := h e he
    rw [hname]
    exact hfits.covered

/-- Conversely, what stands for a property of a conforming object conforms to it. -/
theorem Conforms.member {keywords : Json.Members} {schema v : Json} (name : String)
    (h : Conforms definitions (.object keywords) (.object members))
    (hproperties : keywords.get? "properties" = some (.ofMembers properties))
    (hnames : (properties.map Prod.fst).Nodup) (hschema : properties.lookup name = some schema)
    (hv : members.get? name = some v) : Conforms definitions schema v := by
  have hmeets : Meets definitions "properties" (.ofMembers properties) (.object members) :=
    conforms_object_iff.mp h _ (Entries.mem_of_get? hproperties)
  refine hmeets.meaning.property rfl _ _ rfl rfl name schema v ?_ hv
  rw [Entries.get?_foldl_insert hnames, hschema]
  rfl

theorem Matches.fits_object (hnames : (properties.map Prod.fst).Nodup)
    (h : Matches definitions properties members) :
    Fits definitions (object properties) (.object members) := by
  constructor
  · refine conforms_object_iff.mpr ?_
    simp [h.meets_properties hnames, Meets.type (HasType.object members)]
  · exact h.covered hnames (.own rfl)

theorem Matches.fits_fullObject (hnames : (properties.map Prod.fst).Nodup)
    (h : Matches definitions properties members)
    (hall : ∀ name ∈ properties.map Prod.fst, name ∈ Entries.names members) :
    Fits definitions (fullObject properties) (.object members) := by
  constructor
  · have hrequired : Meets definitions "required" (.ofStrings (properties.map Prod.fst))
        (.object members) := by
      apply Meets.required
      intro name hname
      obtain ⟨name', hmem, heq⟩ := List.mem_map.mp hname
      obtain rfl : name' = name := Json.string.inj heq
      exact hall name' hmem
    refine conforms_object_iff.mpr ?_
    simp [h.meets_properties hnames, hrequired, Meets.type (HasType.object members)]
  · exact h.covered hnames (.own rfl)

end Objects

end Schema

end ModelCatalog
