/-
  ModelCatalog/Proofs/Catalog/WantedTypes.lean
  ============================================
  **Types that are wanted are read from their parts, one by one.**

  The parts of a text are what stands between its commas, without blank characters around
  it, if anything is left (`isParts_iff`).  They are taken one after the other, and each adds
  its type or its refusal to what was gathered before (`WantedTypes.step_eq`).  So every part
  that names no type is refused, and if there is none the types are those that are named,
  each where it first comes (`parseModelTypes_eq`).  The parts of two texts with a comma
  between them are the parts of the one and then those of the other (`commaParts_append`),
  so their types and refusals follow each other as well.
-/
import Mathlib.Data.List.Forall2
import Mathlib.Data.List.Induction
import Mathlib.Data.List.Nodup
import ModelCatalog.Catalog.Listing
import ModelCatalog.Proofs.Descriptor.Names
import ModelCatalog.Proofs.Text.Trimming

namespace ModelCatalog

/-! ### First appearances -/

section FirstAppearances

variable {α β : Type} [DecidableEq α] [DecidableEq β]

theorem eraseDups_concat (l : List α) (a : α) :
    (l ++ [a]).eraseDups = l.eraseDups ++ if a ∈ l then [] else [a] := by
  rw [List.eraseDups_append]
  by_cases h : a ∈ l <;> simp [List.removeAll, List.eraseDups_cons, h]

/-- Without repetitions, elements come in the order in which they first came. -/
theorem pairwise_eraseDups (l : List α) :
    l.eraseDups.Pairwise fun a b => l.idxOf a < l.idxOf b := by
  induction l using List.reverseRecOn with
  | nil => exact List.Pairwise.nil
  | append_singleton l a ih =>
    have hkept : l.eraseDups.Pairwise fun b c => (l ++ [a]).idxOf b < (l ++ [a]).idxOf c := by
      refine List.Pairwise.imp_of_mem ?_ ih
      intro b c hb hc hlt
      rwa [List.idxOf_append_of_mem (List.mem_eraseDups.mp hb),
        List.idxOf_append_of_mem (List.mem_eraseDups.mp hc)]
    rw [eraseDups_concat]
    split
    · rwa [List.append_nil]
    · rename_i ha
      refine List.pairwise_append.mpr ⟨hkept, List.pairwise_singleton _ _, ?_⟩
      intro b hb c hc
      obtain rfl := List.mem_singleton.mp hc
      have hmem : b ∈ l := List.mem_eraseDups.mp hb
      rw [List.idxOf_append_of_mem hmem, List.idxOf_append_of_notMem ha]
      exact Nat.lt_of_lt_of_le (List.idxOf_lt_length_of_mem hmem) (Nat.le_add_right _ _)

theorem eraseDups_filter (p : α → Bool) (l : List α) :
    (l.filter p).eraseDups = l.eraseDups.filter p := by
  induction l using List.reverseRecOn with
  | nil => rfl
  | append_singleton l a ih =>
    rw [eraseDups_concat, List.filter_append, List.filter_append, ← ih]
    by_cases ha : p a = true
    · rw [List.filter_cons_of_pos ha, List.filter_nil, eraseDups_concat]
      by_cases hmem : a ∈ l <;> simp [hmem, ha]
    · by_cases hmem : a ∈ l <;> simp [hmem, ha]

/-- Of what follows, only that is added which was not there. -/
theorem eraseDups_append_filter (l l' : List α) :
    (l ++ l').eraseDups = l.eraseDups ++ l'.eraseDups.filter fun a => a ∉ l.eraseDups := by
  rw [List.eraseDups_append, List.removeAll, eraseDups_filter]
  simp [List.mem_eraseDups]

theorem idxOf_map {f : α → β} (hf : Function.Injective f) (l : List α) (a : α) :
    (l.map f).idxOf (f a) = l.idxOf a := by
  induction l with
  | nil => rfl
  | cons b l ih =>
    have hbeq : (f b == f a) = (b == a) := by
      rw [Bool.eq_iff_iff, beq_iff_eq, beq_iff_eq, hf.eq_iff]
    rw [List.map_cons, List.idxOf_cons, List.idxOf_cons, ih, hbeq]

end FirstAppearances

/-! ### The parts of a text -/

/-- The parts of a text: what stands between its commas, without blank characters at its
    ends, if anything is left of it. -/
def IsParts (query : String) (parts : List String) : Prop :=
  ∃ pieces trimmed : List String, pieces ≠ [] ∧ ",".intercalate pieces = query ∧
    (∀ piece ∈ pieces, ',' ∉ piece.toList) ∧ List.Forall₂ Text.Trimmed pieces trimmed ∧
    parts = trimmed.filter fun part => !part.isEmpty

theorem comma_eq : "," = String.singleton ',' := by decide

theorem map_trim_of_forall₂ {pieces trimmed : List String}
    (h : List.Forall₂ Text.Trimmed pieces trimmed) : pieces.map Text.trim = trimmed := by
  induction h with
  | nil => rfl
  | cons htrimmed _ ih => rw [List.map_cons, ih, Text.trimmed_iff.mp htrimmed]

/-- **A text has the parts that are read from it, and no others.** -/
theorem isParts_iff {query : String} {parts : List String} :
    IsParts query parts ↔ parts = commaParts query := by
  constructor
  · rintro ⟨pieces, trimmed, hne, rfl, hplain, htrimmed, rfl⟩
    rw [commaParts, comma_eq, Text.pieces_intercalate hplain hne, map_trim_of_forall₂ htrimmed]
  · rintro rfl
    refine ⟨Text.pieces ',' query, (Text.pieces ',' query).map Text.trim,
      Text.pieces_ne_nil ',' query, ?_, fun piece => Text.not_mem_of_mem_pieces, ?_, rfl⟩
    · rw [comma_eq, Text.intercalate_pieces]
    · rw [List.forall₂_map_right_iff]
      exact List.forall₂_same.mpr fun piece _ => Text.trimmed_trim piece

/-- **The parts of two texts with a comma between them follow each other.** -/
theorem commaParts_append (a b : String) :
    commaParts (a ++ "," ++ b) = commaParts a ++ commaParts b := by
  simp only [commaParts, comma_eq, Text.pieces_append_separator, List.map_append,
    List.filter_append]

/-! ### The types of parts -/

namespace ModelType

/-- A part names a type if it is spelled just like its name. -/
def Names (part : String) : Prop := part = "textgen" ∨ part = "embedding"

instance (part : String) : Decidable (Names part) := instDecidableOr

/-- What is held against a part that names no type. -/
def refusal (part : String) : Violation :=
  ⟨"modelTypes", .enumeration, "'" ++ part ++ "' is not one of: textgen, embedding"⟩

theorem names_iff {part : String} : Names part ↔ ∃ t : ModelType, Named.name t = part := by
  constructor
  · rintro (rfl | rfl)
    · exact ⟨.textgen, rfl⟩
    · exact ⟨.embedding, rfl⟩
  · rintro ⟨t, rfl⟩
    cases t
    · exact Or.inl rfl
    · exact Or.inr rfl

theorem ofName_of_not_names {part : String} (h : ¬ Names part) :
    (Named.ofName part : Except UnknownName ModelType) =
      .error ⟨part, ["textgen", "embedding"]⟩ :=
  Named.ofName_eq_error fun t ht => h (names_iff.mpr ⟨t, ht⟩)

end ModelType

/-- The types that parts name, as often as they are named. -/
def typesOf (parts : List String) : List ModelType := parts.filterMap Named.ofName?

/-- What is held against the parts that name no type. -/
def refusalsOf (parts : List String) : Violations :=
  (parts.filter fun part => ¬ ModelType.Names part).map ModelType.refusal

theorem message_eq (part : String) :
    UnknownName.message ⟨part, ["textgen", "embedding"]⟩ = (ModelType.refusal part).reason := by
  have hnames : "' is not one of: " ++ ", ".intercalate ["textgen", "embedding"] =
      "' is not one of: textgen, embedding" := by decide
  exact String.append_assoc.trans (congrArg (fun s => "'" ++ part ++ s) hnames)

theorem typesOf_append (parts parts' : List String) :
    typesOf (parts ++ parts') = typesOf parts ++ typesOf parts' := List.filterMap_append

theorem refusalsOf_append (parts parts' : List String) :
    refusalsOf (parts ++ parts') = refusalsOf parts ++ refusalsOf parts' := by
  rw [refusalsOf, List.filter_append, List.map_append, refusalsOf, refusalsOf]

theorem refusalsOf_eq_nil_iff {parts : List String} :
    refusalsOf parts = [] ↔ ∀ part ∈ parts, ModelType.Names part := by
  rw [refusalsOf, List.map_eq_nil_iff, List.filter_eq_nil_iff]
  simp

/-- The names of the types are the parts that name one. -/
theorem map_name_typesOf (parts : List String) :
    (typesOf parts).map Named.name = parts.filter fun part => ModelType.Names part := by
  induction parts with
  | nil => rfl
  | cons part parts ih =>
    by_cases h : ModelType.Names part
    · obtain ⟨t, hname⟩ := ModelType.names_iff.mp h
      have hfound : Named.ofName? part = some t := Named.ofName?_eq_some_iff.mpr hname
      rw [typesOf, List.filterMap_cons_some hfound, List.map_cons, hname,
        List.filter_cons_of_pos (by simpa using h), ← ih, typesOf]
    · have hfound : (Named.ofName? part : Option ModelType) = none := by
        rw [Named.ofName?, ModelType.ofName_of_not_names h]; rfl
      rw [typesOf, List.filterMap_cons_none hfound, List.filter_cons_of_neg (by simpa using h),
        ← ih, typesOf]

/-! ### Part after part -/

theorem typesOf_singleton_of_names {part : String} {t : ModelType} (h : Named.name t = part) :
    typesOf [part] = [t] := by
  rw [typesOf, List.filterMap_cons_some (Named.ofName?_eq_some_iff.mpr h), List.filterMap_nil]

theorem typesOf_singleton_of_not_names {part : String} (h : ¬ ModelType.Names part) :
    typesOf [part] = [] := by
  have hfound : (Named.ofName? part : Option ModelType) = none := by
    rw [Named.ofName?, ModelType.ofName_of_not_names h]
    rfl
  rw [typesOf, List.filterMap_cons_none hfound, List.filterMap_nil]

/-- One more part adds its type, if it is not there yet, or its refusal. -/
theorem WantedTypes.step_eq (w : WantedTypes) (part : String) :
    w.step part = ⟨w.types ++ (typesOf [part]).filter fun t => t ∉ w.types,
      w.reasons ++ (refusalsOf [part]).map Violation.reason⟩ := by
  unfold step
  by_cases h : ModelType.Names part
  · obtain ⟨t, hname⟩ := ModelType.names_iff.mp h
    have hrefusals : refusalsOf [part] = [] := refusalsOf_eq_nil_iff.mpr (by simpa using h)
    rw [Named.ofName_eq_ok_iff.mpr hname, hrefusals, typesOf_singleton_of_names hname]
    by_cases hmem : t ∈ w.types <;> simp [hmem]
  · have hrefusals : refusalsOf [part] = [ModelType.refusal part] := by
      simp [refusalsOf, h]
    rw [ModelType.ofName_of_not_names h, hrefusals, typesOf_singleton_of_not_names h]
    simp [message_eq]

/-- **Part after part, the types are gathered that are named, each where it first comes, and
    what is wrong with the other parts.** -/
theorem WantedTypes.foldl_step (parts : List String) :
    parts.foldl step {} =
      ⟨(typesOf parts).eraseDups, (refusalsOf parts).map Violation.reason⟩ := by
  induction parts using List.reverseRecOn with
  | nil => rfl
  | append_singleton parts part ih =>
    have hdistinct : (typesOf [part]).eraseDups = typesOf [part] := by
      by_cases h : ModelType.Names part
      · obtain ⟨t, hname⟩ := ModelType.names_iff.mp h
        rw [typesOf_singleton_of_names hname]
        rfl
      · rw [typesOf_singleton_of_not_names h]
        rfl
    rw [List.foldl_append, ih, List.foldl_cons, List.foldl_nil, step_eq, typesOf_append,
      refusalsOf_append, List.map_append, eraseDups_append_filter, hdistinct]

/-- **Every part that names no type is refused; if there is none, the types are those that
    are named, each where it first comes.** -/
theorem parseModelTypes_eq (query : String) :
    parseModelTypes (some query) =
      if refusalsOf (commaParts query) = [] then .ok (typesOf (commaParts query)).eraseDups
      else .error (refusalsOf (commaParts query)) := by
  have hrefusals : ((refusalsOf (commaParts query)).map Violation.reason).map
      (fun reason => (⟨"modelTypes", .enumeration, reason⟩ : Violation)) =
        refusalsOf (commaParts query) := by
    simp [refusalsOf, ModelType.refusal]
  unfold parseModelTypes
  dsimp only
  rw [WantedTypes.foldl_step, hrefusals]
  simp only [List.isEmpty_iff, List.map_eq_nil_iff]

theorem parseModelTypes_eq_ok_iff {query : String} {types : List ModelType} :
    parseModelTypes (some query) = .ok types ↔
      (∀ part ∈ commaParts query, ModelType.Names part) ∧
        types = (typesOf (commaParts query)).eraseDups := by
  rw [parseModelTypes_eq, ← refusalsOf_eq_nil_iff]
  split
  · rename_i h
    simp [h, eq_comm]
  · rename_i h
    simp [h]

/-- What is refused of a text. -/
def refused : Except Violations (List ModelType) → Violations
  | .ok _ => []
  | .error violations => violations

theorem refused_parseModelTypes (query : String) :
    refused (parseModelTypes (some query)) = refusalsOf (commaParts query) := by
  rw [parseModelTypes_eq]
  split
  · rename_i h
    exact h.symm
  · rfl

/-- The types come in the order in which the parts first name them. -/
theorem pairwise_eraseDups_typesOf {parts : List String}
    (h : ∀ part ∈ parts, ModelType.Names part) :
    (typesOf parts).eraseDups.Pairwise fun t u =>
      parts.idxOf (Named.name t) < parts.idxOf (Named.name u) := by
  have hall : ∀ part ∈ parts, decide (ModelType.Names part) = true := by simpa using h
  have hnames : (typesOf parts).map Named.name = parts := by
    rw [map_name_typesOf, List.filter_eq_self.mpr hall]
  have hindex : ∀ t : ModelType, parts.idxOf (Named.name t) = (typesOf parts).idxOf t := by
    intro t
    calc parts.idxOf (Named.name t)
      _ = ((typesOf parts).map Named.name).idxOf (Named.name t) := by rw [hnames]
      _ = (typesOf parts).idxOf t := idxOf_map LawfulNamed.name_injective _ t
  simp only [hindex]
  exact pairwise_eraseDups (typesOf parts)

theorem mem_typesOf_iff {parts : List String} {t : ModelType} :
    t ∈ typesOf parts ↔ Named.name t ∈ parts := by
  have hname : ModelType.Names (Named.name t) := ModelType.names_iff.mpr ⟨t, rfl⟩
  rw [← List.mem_map_of_injective LawfulNamed.name_injective, map_name_typesOf, List.mem_filter]
  simp [hname]

/-- **The types that are wanted are read exactly, part by part.**

    The parts of a text are what stands between its commas, without blank characters around
    it, if anything is left.  A text is read if each of its parts is the name of a type, and
    then as the types that are named, each once, in the order in which they first come.
    Otherwise each part that is not the name of a type is refused, as often as it is given
    and in its order.  Of two texts with a comma between them the types follow each other,
    those left out that were there before; and if one of the two is refused, what is held
    against the one is followed by what is held against the other. -/
theorem parseModelTypes_exact (a : String) :
    (∀ parts, IsParts a parts ↔ parts = commaParts a) ∧
    ((∃ types, parseModelTypes (some a) = .ok types) ↔
      ∀ part ∈ commaParts a, part = "textgen" ∨ part = "embedding") ∧
    (∀ types, parseModelTypes (some a) = .ok types →
      (∀ t, t ∈ types ↔ Named.name t ∈ commaParts a) ∧
      types.Pairwise fun t u =>
        (commaParts a).idxOf (Named.name t) < (commaParts a).idxOf (Named.name u)) ∧
    (∀ violations, parseModelTypes (some a) = .error violations →
      violations =
        ((commaParts a).filter fun part => ¬ (part = "textgen" ∨ part = "embedding")).map
          fun part => ⟨"modelTypes", .enumeration,
            "'" ++ part ++ "' is not one of: textgen, embedding"⟩) ∧
    ∀ b,
      (∀ types types', parseModelTypes (some a) = .ok types →
        parseModelTypes (some b) = .ok types' →
        parseModelTypes (some (a ++ "," ++ b)) =
          .ok (types ++ types'.filter fun t => t ∉ types)) ∧
      ((¬ ∃ types, parseModelTypes (some a) = .ok types) ∨
          (¬ ∃ types, parseModelTypes (some b) = .ok types) →
        parseModelTypes (some (a ++ "," ++ b)) =
          .error (refused (parseModelTypes (some a)) ++ refused (parseModelTypes (some b)))) := by
  have hread : ∀ query, (∃ types, parseModelTypes (some query) = .ok types) ↔
      ∀ part ∈ commaParts query, ModelType.Names part := by
    intro query
    simp only [parseModelTypes_eq_ok_iff, exists_and_left, exists_eq, and_true]
  refine ⟨fun parts => isParts_iff, hread a, ?_, ?_, ?_⟩
  · intro types h
    obtain ⟨hnames, rfl⟩ := parseModelTypes_eq_ok_iff.mp h
    refine ⟨?_, pairwise_eraseDups_typesOf hnames⟩
    intro t
    rw [List.mem_eraseDups, mem_typesOf_iff]
  · intro violations h
    have hrefused := refused_parseModelTypes a
    rw [h] at hrefused
    exact hrefused
  · intro b
    constructor
    · intro types types' h h'
      obtain ⟨hnames, rfl⟩ := parseModelTypes_eq_ok_iff.mp h
      obtain ⟨hnames', rfl⟩ := parseModelTypes_eq_ok_iff.mp h'
      rw [parseModelTypes_eq_ok_iff, commaParts_append, typesOf_append, eraseDups_append_filter]
      exact ⟨List.forall_mem_append.mpr ⟨hnames, hnames'⟩, rfl⟩
    · intro h
      have hsome : refusalsOf (commaParts a ++ commaParts b) ≠ [] := by
        rw [Ne, refusalsOf_eq_nil_iff, List.forall_mem_append, ← hread, ← hread]
        exact not_and_or.mpr h
      rw [refused_parseModelTypes, refused_parseModelTypes, parseModelTypes_eq, commaParts_append,
        if_neg hsome, refusalsOf_append]

end ModelCatalog
