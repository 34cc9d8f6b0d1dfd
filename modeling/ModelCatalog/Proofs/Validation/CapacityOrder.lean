/-
  ModelCatalog/Proofs/Validation/CapacityOrder.lean
  =================================================
  **When the bounds of scaling are reported out of order.**

  `Bound` says what number a bound stands for, without the readers: its default, or the
  number that is spelled, if it is within range.  The bounds are compared unless a place
  that looks like one of them is at fault.  The places that do are the two bounds and the
  members without a meaning in the metric whose names end like theirs
  (`mem_lookalikes_iff`); so broken bounds go unreported only beside such a member, and
  only under a policy that refuses it.
-/
import ModelCatalog.Proofs.Json.Lexing
import ModelCatalog.Proofs.Validation.Coverage
import ModelCatalog.Proofs.Validation.Merging
import ModelCatalog.Proofs.Validation.Policies
import ModelCatalog.Proofs.Validation.Resubmission

namespace ModelCatalog

/-! ### Endings -/

/-- An ending without a separator lies behind the separator. -/
theorem suffix_of_separated {α : Type} {ending front back : List α} {separator : α}
    (hseparator : separator ∉ ending) (h : ending <:+ front ++ separator :: back) :
    ending <:+ back := by
  have hback : back <:+ front ++ separator :: back :=
    (List.suffix_cons separator back).trans (List.suffix_append _ _)
  rcases List.suffix_or_suffix_of_suffix h hback with hending | hlonger
  · exact hending
  -- the ending could only be longer by taking in the separator
  obtain ⟨front', rfl⟩ := hlonger
  rcases List.eq_nil_or_concat front' with rfl | ⟨front'', c, rfl⟩
  · exact List.suffix_rfl
  · rw [List.concat_eq_append, List.append_assoc, List.singleton_append] at h hseparator
    obtain ⟨rest, hrest⟩ := h
    rw [← List.append_assoc] at hrest
    obtain ⟨-, hcons⟩ := List.append_inj' hrest rfl
    have hc : c = separator := (List.cons.inj hcons).1
    exact absurd (hc ▸ List.mem_append_right _ List.mem_cons_self) hseparator

namespace Location

/-- A path ends like its last name: neither a dot nor a bracket is part of the ending. -/
theorem endsWith_key_iff {ending : String} (hdot : '.' ∉ ending.toList)
    (hbracket : '[' ∉ ending.toList) (l : Location) (name : String) :
    EndsWith (l ++ [.key name]) ending ↔ ending.toList <:+ name.toList := by
  have hjoined : joined (l ++ [.key name]) = append (joined l) (.key name) := by
    simp [joined]
  have hbehind : ∀ front : List Char,
      name.toList <:+ front ++ name.toList := fun front => List.suffix_append front _
  rw [EndsWith, hjoined, append]
  split
  · rename_i hattached
    rw [String.toList_append]
    refine ⟨fun h => ?_, fun h => h.trans (hbehind _)⟩
    rcases (Bool.or_eq_true _ _).mp hattached with hempty | hname
    · simpa [String.isEmpty_iff.mp hempty, Segment.text] using h
    · -- the name brings its own separator
      rcases hchars : name.toList with _ | ⟨c, rest⟩
      · simp [Segment.text, hchars] at hname
      · obtain rfl : c = '[' := by simpa [Segment.text, hchars] using hname
        have hrest : ending.toList <:+ rest := by
          apply suffix_of_separated hbracket
          simpa [Segment.text, hchars] using h
        exact hrest.trans (List.suffix_cons _ _)
  · rw [String.toList_append, String.toList_append, List.append_assoc]
    refine ⟨fun h => suffix_of_separated hdot h, fun h => ?_⟩
    exact (h.trans (hbehind ['.'])).trans (List.suffix_append _ _)

end Location

namespace Validation

open Survey

variable {p : Policy}

/-! ### Bounds -/

/-- The number that a bound stands for: the initial one where nothing is given, and else
    the one that is spelled, if it takes no more than 32 bits and is at least `least`. -/
inductive Bound (least : Nat) (initial : UInt32) : Option Json → UInt32 → Prop
  | absent : Bound least initial none initial
  | given {v : Json} {n : UInt32} (h : SpellsNat v n.toNat) (hle : least ≤ n.toNat) :
      Bound least initial (some v) n

/-- A spelled whole number is read as a double that is as large. -/
theorem SpellsNat.exists_double? {v : Json} {n : Nat} (h : SpellsNat v n) (hn : n < 2 ^ 53) :
    ∃ x, double? v = some x ∧ x.natural? = some n := by
  have hread : ∀ x : Double, x.natural? = some n → Denotes v x →
      ∃ y, double? v = some y ∧ y.natural? = some n := by
    intro x hwhole hx
    have hfinite : x.isFinite = true := (Double.natural?_eq_some hwhole).1
    obtain ⟨y, hread, hsame⟩ := hx.double?_eq_some hfinite
    exact ⟨y, hread, (hsame.natural? (isFinite_of_double? hread)).trans hwhole⟩
  cases h with
  | integer =>
    refine hread _ (Double.natural?_ofNat hn) (.integer ?_)
    rw [← Double.ofInt_natCast]
    exact Double.isNearest_ofInt n
  | double h => exact hread _ h (.double _)
  | text htext h => exact hread _ h htext

/-- **A count without a finding is a bound**, and no other number is. -/
theorem bound_iff {least : Nat} {initial : UInt32} (hinitial : least ≤ initial.toNat)
    {v : Option Json} {n : UInt32} :
    Bound least initial v n ↔
      (Leaf.count least).findings v = [] ∧ (count initial least v).value = n := by
  constructor
  · intro h
    cases h with
    | absent => exact ⟨rfl, rfl⟩
    | @given v n h hle =>
      have hsmall : n.toNat < 2 ^ 53 := Nat.lt_trans n.toNat_lt (by decide)
      obtain ⟨x, hread, hwhole⟩ := h.exists_double? hsmall
      have hcount : count initial least (some v) = pure (.ofNat n.toNat) :=
        count_of_natural? hread hwhole hle n.toNat_lt
      rw [← findings_count initial, hcount]
      exact ⟨rfl, UInt32.ofNat_toNat⟩
  · rintro ⟨hfindings, rfl⟩
    have hpasses : (count initial least v).Passes {} := by
      intro f hf
      rw [findings_count, hfindings] at hf
      exact absurd hf List.not_mem_nil
    have hsmall : least < 2 ^ 53 :=
      Nat.lt_of_le_of_lt hinitial (Nat.lt_trans initial.toNat_lt (by decide))
    have hle : least ≤ (count initial least v).value.toNat := le_value_count hinitial hsmall v
    have hmerged := merged_count hpasses
    rcases v with _ | v
    · exact .absent
    · cases hmerged with
      | count h => exact .given h hle

/-! ### Places that look like a bound -/

/-- An identifier and a list apart, a leaf is at fault as a whole. -/
theorem location_leaf {l : Leaf} (hidentifier : l ≠ .identifier) (htexts : l ≠ .texts)
    {v : Option Json} {f : Finding} (hf : f ∈ l.findings v) : f.location = [] := by
  cases l with
  | identifier => exact absurd rfl hidentifier
  | texts => exact absurd rfl htexts
  | text | requiredText | flag =>
    rcases v with _ | v
    · simp_all [Leaf.findings, text, requiredText, flag]
    · cases v <;> simp_all [Leaf.findings, text, requiredText, flag]
  | alternative names =>
    rcases v with _ | v
    · simp [Leaf.findings] at hf
    cases v with
    | string s =>
      simp only [Leaf.findings] at hf
      split at hf <;> simp_all
    | _ => simp_all [Leaf.findings]
  | number least =>
    unfold Leaf.findings number at hf
    repeat' split at hf
    all_goals simp_all
  | count least =>
    unfold Leaf.findings count at hf
    repeat' split at hf
    all_goals simp_all

/-- The last name on the way to a finding decides whether the place looks like a bound. -/
theorem endsWith_capacity_iff (l : Location) (name : String) :
    Location.EndsWith (l ++ [.key name]) "Capacity" ↔ "Capacity".toList <:+ name.toList :=
  Location.endsWith_key_iff (by decide) (by decide) l name

theorem mem_scalingFields {m : Json.Members} {g : Finding} :
    g ∈ (scalingFields m).findings ↔ ∃ name form, (name, form) ∈ Part.scaling.fields ∧
      ∃ f ∈ form.findings (given m name), f.under (.key name) = g := by
  simp [findings_scalingFields, mem_gather]

/-- What is found in the metric at a place that looks like a bound is a member without a
    meaning: no field of the metric has such a name. -/
theorem mem_metric_lookalikes_iff {v : Option Json} {f : Finding} :
    f ∈ (Form.part .metric).findings v ∧
        Location.EndsWith (.key "metricConfig" :: f.location) "Capacity" ↔
      ∃ metric name, v = some (.object metric) ∧ name ∈ strangers ScalingMetric.keys metric ∧
        "Capacity".toList <:+ name.toList ∧ f = ⟨[.key name], .unrecognized⟩ := by
  rw [mem_formPart]
  constructor
  · rintro ⟨⟨metric, rfl, hf⟩ | ⟨x, -, -, rfl⟩, hends⟩
    · rcases mem_part.mp hf with ⟨name, hname, rfl⟩ | ⟨name, form, hfield, f', hf', rfl⟩ | hf
      · have hsuffix := (endsWith_capacity_iff [.key "metricConfig"] name).mp hends
        exact ⟨metric, name, rfl, hname, hsuffix, rfl⟩
      · have hleaf : ∃ l, form = .leaf l ∧ l ≠ .identifier ∧ l ≠ .texts := by
          revert hfield
          simp +contextual [Part.fields, or_imp]
        obtain ⟨l, rfl, hidentifier, htexts⟩ := hleaf
        have hkeys : ∀ key ∈ ScalingMetric.keys, ¬ "Capacity".toList <:+ key.toList := by decide
        have hname : name ∈ ScalingMetric.keys := List.mem_map_of_mem (f := Prod.fst) hfield
        rw [Finding.location_under, location_leaf hidentifier htexts hf'] at hends
        have hsuffix := (endsWith_capacity_iff [.key "metricConfig"] name).mp hends
        exact absurd hsuffix (hkeys name hname)
      · simp [Part.tail] at hf
    · exact absurd ((endsWith_capacity_iff [] "metricConfig").mp hends) (by decide)
  · rintro ⟨metric, name, rfl, hname, hsuffix, rfl⟩
    have hfinding : (⟨[.key name], .unrecognized⟩ : Finding) ∈ Part.metric.findings metric :=
      mem_part.mpr (Or.inl ⟨name, hname, rfl⟩)
    exact ⟨Or.inl ⟨metric, rfl, hfinding⟩,
      (endsWith_capacity_iff [.key "metricConfig"] name).mpr hsuffix⟩

/-- **What looks like a bound is one of the two bounds, or a member of the metric that means
    nothing there.** -/
theorem mem_lookalikes_iff {m : Json.Members} {g : Finding} :
    g ∈ (scalingFields m).findings ∧ g.location.EndsWith "Capacity" ↔
      (∃ name ∈ ["minCapacity", "maxCapacity"], ∃ f ∈ (Leaf.count 1).findings (given m name),
        f.under (.key name) = g) ∨
      ∃ metric name, given m "metricConfig" = some (.object metric) ∧
        name ∈ strangers ScalingMetric.keys metric ∧ "Capacity".toList <:+ name.toList ∧
        (⟨[.key name], .unrecognized⟩ : Finding).under (.key "metricConfig") = g := by
  have hcount : ∀ {least : Nat} {v : Option Json} {f : Finding} {name : String},
      f ∈ (Leaf.count least).findings v →
      (Location.EndsWith (.key name :: f.location) "Capacity" ↔
        "Capacity".toList <:+ name.toList) := by
    intro least v f name hf
    rw [location_leaf (by simp) (by simp) hf]
    exact endsWith_capacity_iff [] name
  rw [mem_scalingFields]
  constructor
  · rintro ⟨⟨name, form, hfield, f, hf, rfl⟩, hends⟩
    simp only [Part.fields, List.mem_cons, List.not_mem_nil, or_false, Prod.mk.injEq] at hfield
    rcases hfield with ⟨rfl, rfl⟩ | ⟨rfl, rfl⟩ | ⟨rfl, rfl⟩ | ⟨rfl, rfl⟩ | ⟨rfl, rfl⟩
    · exact Or.inl ⟨"minCapacity", by simp, f, hf, rfl⟩
    · exact Or.inl ⟨"maxCapacity", by simp, f, hf, rfl⟩
    · exact absurd ((hcount hf).mp hends) (by decide)
    · exact absurd ((hcount hf).mp hends) (by decide)
    · obtain ⟨metric, name, hgiven, hname, hsuffix, rfl⟩ :=
        mem_metric_lookalikes_iff.mp ⟨hf, hends⟩
      exact Or.inr ⟨metric, name, hgiven, hname, hsuffix, rfl⟩
  · rintro (⟨name, hname, f, hf, rfl⟩ | ⟨metric, name, hgiven, hname, hsuffix, rfl⟩)
    · have hfield : (name, Form.leaf (.count 1)) ∈ Part.scaling.fields := by
        revert hname
        simp +contextual [Part.fields, or_imp]
      have hbounds : ∀ bound ∈ ["minCapacity", "maxCapacity"],
          "Capacity".toList <:+ bound.toList := by decide
      have hsuffix : "Capacity".toList <:+ name.toList := hbounds name hname
      exact ⟨⟨name, _, hfield, f, hf, rfl⟩, (hcount hf).mpr hsuffix⟩
    · obtain ⟨hf, hends⟩ :=
        mem_metric_lookalikes_iff.mpr ⟨metric, name, hgiven, hname, hsuffix, rfl⟩
      exact ⟨⟨"metricConfig", .part .metric, by simp [Part.fields], _, hf, rfl⟩, hends⟩

/-- A member of the metric means nothing there and has a name that ends like a bound. -/
def MasksOrder (fields : Json.Members) : Prop :=
  ∃ metric name, given fields "metricConfig" = some (.object metric) ∧
    name ∈ Entries.names metric ∧ name ∉ ScalingMetric.keys ∧
    "Capacity".toList <:+ name.toList

/-! ### The order of the bounds -/

/-- The bounds are compared exactly if nothing is found with either. -/
theorem compared_iff {m : Json.Members} :
    (∀ g ∈ (scalingFields m).findings, g.location.EndsWith "Capacity" →
      g.fault = .unrecognized) ↔
    (Leaf.count 1).findings (given m "minCapacity") = [] ∧
      (Leaf.count 1).findings (given m "maxCapacity") = [] := by
  constructor
  · intro h
    have hclean : ∀ name ∈ ["minCapacity", "maxCapacity"],
        (Leaf.count 1).findings (given m name) = [] := by
      intro name hname
      apply List.eq_nil_iff_forall_not_mem.mpr
      intro f hf
      obtain ⟨hmem, hends⟩ := mem_lookalikes_iff.mpr (Or.inl ⟨name, hname, f, hf, rfl⟩)
      have hunrecognized : f.fault = .unrecognized := h (f.under (.key name)) hmem hends
      have hcertain := certain_leaf (by simp) _ f hf {}
      simp [hunrecognized, Fault.counts] at hcertain
    exact ⟨hclean "minCapacity" (by simp), hclean "maxCapacity" (by simp)⟩
  · rintro ⟨hmin, hmax⟩ g hg hends
    rcases mem_lookalikes_iff.mp ⟨hg, hends⟩ with ⟨name, hname, f, hf, -⟩ |
        ⟨metric, name, -, -, -, rfl⟩
    · rcases List.mem_pair.mp hname with rfl | rfl
      · simp [hmin] at hf
      · simp [hmax] at hf
    · rfl

theorem masksOrder_iff {m : Json.Members} :
    (∃ g ∈ (scalingFields m).findings, g.location.EndsWith "Capacity" ∧
      g.fault = .unrecognized) ↔ MasksOrder m := by
  constructor
  · rintro ⟨g, hg, hends, hunrecognized⟩
    rcases mem_lookalikes_iff.mp ⟨hg, hends⟩ with ⟨name, -, f, hf, rfl⟩ |
        ⟨metric, name, hgiven, hname, hsuffix, -⟩
    · have hcertain := certain_leaf (by simp) _ f hf {}
      rw [Finding.fault_under] at hunrecognized
      simp [hunrecognized, Fault.counts] at hcertain
    · obtain ⟨hmem, hstranger⟩ := List.mem_filter.mp hname
      exact ⟨metric, name, hgiven, hmem, by simpa using hstranger, hsuffix⟩
  · rintro ⟨metric, name, hgiven, hmem, hstranger, hsuffix⟩
    have hname : name ∈ strangers ScalingMetric.keys metric :=
      List.mem_filter.mpr ⟨hmem, by simpa using hstranger⟩
    obtain ⟨hg, hends⟩ :=
      mem_lookalikes_iff.mpr (Or.inr ⟨metric, name, hgiven, hname, hsuffix, rfl⟩)
    exact ⟨_, hg, hends, rfl⟩

/-- **Bounds are noted out of order exactly if they are**, and masked by a member of the
    metric. -/
theorem mem_orderFindings_scalingFields {m : Json.Members} {f : Finding} :
    f ∈ orderFindings (scalingFields m) ↔
      ∃ least most masked,
        Bound 1 ({} : ScalingConfig).minCapacity (given m "minCapacity") least ∧
        Bound 1 ({} : ScalingConfig).maxCapacity (given m "maxCapacity") most ∧
        most < least ∧ (masked = true ↔ MasksOrder m) ∧
        f = ⟨[.key "minCapacity"], .capacityOrder most masked⟩ := by
  have hmin : ∀ least, Bound 1 ({} : ScalingConfig).minCapacity (given m "minCapacity") least ↔
      (Leaf.count 1).findings (given m "minCapacity") = [] ∧
        (scalingFields m).value.minCapacity = least := fun _ => bound_iff (by decide)
  have hmax : ∀ most, Bound 1 ({} : ScalingConfig).maxCapacity (given m "maxCapacity") most ↔
      (Leaf.count 1).findings (given m "maxCapacity") = [] ∧
        (scalingFields m).value.maxCapacity = most := fun _ => bound_iff (by decide)
  simp only [mem_orderFindings, compared_iff, hmin, hmax]
  constructor
  · rintro ⟨hlt, ⟨hleast, hmost⟩, rfl⟩
    refine ⟨_, _, _, ⟨hleast, rfl⟩, ⟨hmost, rfl⟩, hlt, ?_, rfl⟩
    rw [decide_eq_true_eq, masksOrder_iff]
  · rintro ⟨least, most, masked, ⟨hleast, rfl⟩, ⟨hmost, rfl⟩, hlt, hmasked, rfl⟩
    refine ⟨hlt, ⟨hleast, hmost⟩, ?_⟩
    rw [← masksOrder_iff, ← decide_eq_true_eq (p := ∃ g ∈ (scalingFields m).findings,
      g.location.EndsWith "Capacity" ∧ g.fault = .unrecognized)] at hmasked
    rw [Bool.eq_iff_iff.mpr hmasked]

/-! ### Reports -/

/-- Beside the identifiers and scaling a request has ordinary fields only. -/
theorem Part.request_fields : ∀ f ∈ Part.request.fields,
    f.2.Ordinary ∨ f.2 = .leaf .identifier ∨ f = ("autoScalingConfig", .part .scaling) := by
  decide

/-- In scaling only the comparison of the bounds finds them out of order. -/
theorem mem_scaling_order_iff {fields : Json.Members} {f : Finding} :
    f ∈ Part.scaling.findings fields ∧ f.fault.IsOrder ↔
      f ∈ orderFindings (scalingFields fields) := by
  constructor
  · rintro ⟨hf, horder⟩
    rcases mem_part.mp hf with ⟨name, -, rfl⟩ | ⟨name, form, hfield, f', hf', rfl⟩ | hf
    · simp [Fault.IsOrder] at horder
    · have hplain : f'.fault.Plain :=
        plain_form (Part.ordinary_fields (by decide) _ hfield) _ f' hf'
      exact absurd horder hplain.not_order
    · exact hf
  · intro hf
    obtain ⟨-, -, rfl⟩ := mem_orderFindings.mp hf
    exact ⟨mem_part.mpr (Or.inr (Or.inr hf)), _, _, rfl⟩

theorem mem_request_order_iff {m : Json.Members} {f : Finding} :
    f ∈ Part.request.findings m ∧ f.fault.IsOrder ↔
      ∃ fields, given m "autoScalingConfig" = some (.object fields) ∧
        ∃ f' ∈ orderFindings (scalingFields fields), f'.under (.key "autoScalingConfig") = f := by
  constructor
  · rintro ⟨hf, horder⟩
    rcases mem_part.mp hf with ⟨name, -, rfl⟩ | ⟨name, form, hfield, f', hf', rfl⟩ | hf
    · simp [Fault.IsOrder] at horder
    · rcases Part.request_fields _ hfield with hordinary | hidentifier | hscaling
      · exact absurd horder (plain_form hordinary _ f' hf').not_order
      · obtain rfl : form = .leaf .identifier := hidentifier
        have hnot := only_identifier (fun _ => Fault.Plain.not_order)
          (by simp [Fault.IsNameless, Fault.IsOrder]) "" (given m name)
        exact absurd horder (hnot f' hf')
      · obtain ⟨rfl, rfl⟩ := Prod.mk.inj hscaling
        rcases mem_formPart.mp hf' with ⟨fields, hgiven, hf'⟩ | ⟨x, -, -, rfl⟩
        · exact ⟨fields, hgiven, f', mem_scaling_order_iff.mp ⟨hf', horder⟩, rfl⟩
        · simp [Fault.IsOrder] at horder
    · simp [Part.tail] at hf
  · rintro ⟨fields, hgiven, f', hf', rfl⟩
    obtain ⟨hmem, horder⟩ := mem_scaling_order_iff.mpr hf'
    have hfield : f' ∈ (Form.part .scaling).findings (given m "autoScalingConfig") :=
      mem_formPart.mpr (Or.inl ⟨fields, hgiven, hmem⟩)
    refine ⟨mem_part.mpr (Or.inr (Or.inl ?_)), horder⟩
    exact ⟨"autoScalingConfig", .part .scaling, by simp [Part.fields], f', hfield, rfl⟩

/-- **Bounds are found out of order in scaling and nowhere else.** -/
theorem mem_surveyRequest_order_iff {v : Json} {f : Finding} :
    f ∈ (surveyRequest v).findings ∧ f.fault.IsOrder ↔
      ∃ m fields, v = .object m ∧ given m "autoScalingConfig" = some (.object fields) ∧
        ∃ f' ∈ orderFindings (scalingFields fields), f'.under (.key "autoScalingConfig") = f := by
  constructor
  · rintro ⟨hf, horder⟩
    cases v with
    | object m =>
      rw [findings_surveyRequest, List.mem_append, mem_statusFindings] at hf
      rcases hf with ⟨-, rfl⟩ | hf
      · simp [Fault.IsOrder] at horder
      · obtain ⟨fields, hfields⟩ := mem_request_order_iff.mp ⟨hf, horder⟩
        exact ⟨m, fields, rfl, hfields⟩
    | _ =>
      simp only [surveyRequest, root, findings_flawed, List.mem_singleton] at hf
      simp [hf, Fault.IsOrder] at horder
  · rintro ⟨m, fields, rfl, hfields⟩
    obtain ⟨hmem, horder⟩ := mem_request_order_iff.mpr ⟨fields, hfields⟩
    refine ⟨?_, horder⟩
    rw [findings_surveyRequest, List.mem_append]
    exact Or.inr hmem

/-- What is reported of bounds out of order, where the upper one is `most`. -/
def orderViolation (most : UInt32) : Violation where
  path := "autoScalingConfig.minCapacity"
  kind := .range
  reason := "must be less than or equal to maxCapacity (" ++ toString most.toNat ++ ")"

theorem most_of_reason {most most' : UInt32} {masked : Bool}
    (h : (Fault.capacityOrder most masked).reason = (orderViolation most').reason) :
    most = most' := by
  have hdigits : toString most.toNat = toString most'.toNat :=
    (String.append_right_inj _).mp ((String.append_left_inj _).mp h)
  rw [← UInt32.toNat_inj, ← ofDigits_digits most.toNat, ← ofDigits_digits most'.toNat,
    ← toList_toString, ← toList_toString, hdigits]

/-- **Broken bounds are reported unless a refused member of the metric masks them.**

    Under a policy that asks for the order, whatever else is submitted, the report is there
    exactly if scaling is an object, each bound is not given or a count within range, and
    the lower one is above the upper one, save for this: where members without a meaning
    are refused, one of the metric with a name like a bound's hides the order. -/
theorem validateRequest_order_iff (hp : p.enforceCapacityOrder = true) (v : Json)
    (most : UInt32) :
    orderViolation most ∈ (validateRequest p v).violations ↔
      ∃ m fields least, v = .object m ∧ given m "autoScalingConfig" = some (.object fields) ∧
        Bound 1 ({} : ScalingConfig).minCapacity (given fields "minCapacity") least ∧
        Bound 1 ({} : ScalingConfig).maxCapacity (given fields "maxCapacity") most ∧
        most < least ∧ ¬ (p.unknownFields = .strict ∧ MasksOrder fields) := by
  rw [validateRequest, violations_judge, Survey.violations, List.mem_filterMap]
  have hcounts : ∀ most masked, (Fault.capacityOrder most masked).counts p = true ↔
      ¬ (p.unknownFields = .strict ∧ masked = true) := by
    intro most masked
    cases masked <;> simp [Fault.counts, hp]
  constructor
  · rintro ⟨f, hf, hviolation⟩
    obtain ⟨hcount, heq⟩ := Option.ite_none_right_eq_some.mp hviolation
    obtain ⟨-, -, hreason⟩ := Violation.mk.inj (Option.some.inj heq)
    have horder : f.fault.IsOrder := by
      rw [← prefix_reason_iff, hreason, String.append_assoc, String.toList_append]
      exact List.prefix_append _ _
    obtain ⟨m, fields, rfl, hgiven, f', hf', rfl⟩ :=
      mem_surveyRequest_order_iff.mp ⟨hf, horder⟩
    obtain ⟨least, most', masked, hleast, hmost, hlt, hmasked, rfl⟩ :=
      mem_orderFindings_scalingFields.mp hf'
    obtain rfl : most' = most := most_of_reason hreason
    rw [Finding.fault_under, hcounts, hmasked] at hcount
    exact ⟨m, fields, least, rfl, hgiven, hleast, hmost, hlt, hcount⟩
  · rintro ⟨m, fields, least, rfl, hgiven, hleast, hmost, hlt, hunmasked⟩
    classical
    have hmasked : decide (MasksOrder fields) = true ↔ MasksOrder fields := decide_eq_true_iff
    have hf : (⟨[.key "minCapacity"], .capacityOrder most (decide (MasksOrder fields))⟩ : Finding) ∈
        orderFindings (scalingFields fields) :=
      mem_orderFindings_scalingFields.mpr ⟨least, most, _, hleast, hmost, hlt, hmasked, rfl⟩
    obtain ⟨hmem, -⟩ := mem_surveyRequest_order_iff.mpr ⟨m, fields, rfl, hgiven, _, hf, rfl⟩
    refine ⟨_, hmem, if_pos ?_⟩
    rw [Finding.fault_under, hcounts, hmasked]
    exact hunmasked

/-- A member that scaling itself refuses masks nothing, and the upper bound may be left
    to its default. -/
theorem validateRequest_order_beside_stranger :
    let p : Policy := { unknownFields := .strict, enforceCapacityOrder := true }
    let fields : Json.Members :=
      [("minCapacity", .string " 4 "), ("xCapacity", .number (.integer 1))]
    p.enforceCapacityOrder = true ∧
      Bound 1 ({} : ScalingConfig).minCapacity (given fields "minCapacity") 4 ∧
      Bound 1 ({} : ScalingConfig).maxCapacity (given fields "maxCapacity") 2 ∧
      orderViolation 2 ∈
        (validateRequest p (.object [("autoScalingConfig", .object fields)])).violations := by
  intro p fields
  have hmin : Bound 1 ({} : ScalingConfig).minCapacity (given fields "minCapacity") 4 :=
    (bound_iff (by decide)).mpr (by decide +kernel)
  have hmax : Bound 1 ({} : ScalingConfig).maxCapacity (given fields "maxCapacity") 2 := .absent
  have hunmasked : ¬ MasksOrder fields := by
    rintro ⟨metric, name, hgiven, -⟩
    cases hgiven
  refine ⟨rfl, hmin, hmax, (validateRequest_order_iff rfl _ 2).mpr ?_⟩
  exact ⟨_, fields, 4, rfl, rfl, hmin, hmax, by decide, fun h => hunmasked h.2⟩

/-- Bounds that are valid and out of order, and no report of it: a member of the metric
    is refused whose name ends like theirs. -/
theorem validateRequest_order_masked :
    let p : Policy := { unknownFields := .strict, enforceCapacityOrder := true }
    let fields : Json.Members := [
      ("maxCapacity", .number (.integer 2)),
      ("metricConfig", .object [("xCapacity", .number (.integer 1))]),
      ("minCapacity", .number (.integer 4))]
    Bound 1 ({} : ScalingConfig).minCapacity (given fields "minCapacity") 4 ∧
      Bound 1 ({} : ScalingConfig).maxCapacity (given fields "maxCapacity") 2 ∧
      (2 : UInt32) < 4 ∧
      (validateRequest p (.object [("autoScalingConfig", .object fields)])).violations =
        [⟨"autoScalingConfig.metricConfig.xCapacity", .shape, "is not a recognized field"⟩] ∧
      orderViolation 2 ∉
        (validateRequest p (.object [("autoScalingConfig", .object fields)])).violations := by
  intro p fields
  have hmin : Bound 1 ({} : ScalingConfig).minCapacity (given fields "minCapacity") 4 :=
    .given (.integer 4) (by decide)
  have hmax : Bound 1 ({} : ScalingConfig).maxCapacity (given fields "maxCapacity") 2 :=
    .given (.integer 2) (by decide)
  have hviolations :
      (validateRequest p (.object [("autoScalingConfig", .object fields)])).violations =
        [⟨"autoScalingConfig.metricConfig.xCapacity", .shape, "is not a recognized field"⟩] := by
    decide +kernel
  refine ⟨hmin, hmax, by decide, hviolations, ?_⟩
  rw [hviolations]
  decide

end Validation

end ModelCatalog
