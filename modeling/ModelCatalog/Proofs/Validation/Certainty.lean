/-
  ModelCatalog/Proofs/Validation/Certainty.lean
  =============================================
  **Which findings depend on a policy.**

  Most faults are violations under every policy: they are `Certain`.  The others are
  of four causes, and each of them has its place.  An identifier that says nothing is
  found only where an identifier stands, bounds out of order only in scaling; anywhere
  else a finding is certain or a member without a meaning (`plain_part`).
-/
import ModelCatalog.Proofs.Validation.Layout

namespace ModelCatalog

/-- A violation under every policy. -/
def Fault.Certain (fault : Fault) : Prop := ∀ p : Policy, fault.counts p = true

/-- A fault is certain exactly if the lenient policy holds it against an input. -/
theorem Fault.certain_iff {fault : Fault} : fault.Certain ↔ fault.counts {} = true := by
  constructor
  · intro h
    exact h {}
  · intro h p
    cases fault with
    | unrecognized | unidentified | blank => simp [Fault.counts] at h
    | capacityOrder maxCapacity masked => simp [Fault.counts] at h
    | _ => rfl

/-- Certain, or a member without a meaning. -/
def Fault.Plain (fault : Fault) : Prop := fault = .unrecognized ∨ fault.Certain

/-- An identifier that says nothing. -/
def Fault.IsNameless (fault : Fault) : Prop := fault = .unidentified ∨ fault = .blank

/-- Bounds out of order. -/
def Fault.IsOrder (fault : Fault) : Prop :=
  ∃ maxCapacity masked, fault = .capacityOrder maxCapacity masked

theorem Fault.Plain.not_nameless {fault : Fault} (h : fault.Plain) : ¬ fault.IsNameless := by
  rintro (rfl | rfl) <;> simp [Plain, certain_iff, counts] at h

theorem Fault.Plain.not_order {fault : Fault} (h : fault.Plain) : ¬ fault.IsOrder := by
  rintro ⟨maxCapacity, masked, rfl⟩
  simp [Plain, certain_iff, counts] at h

namespace Validation

open Survey

/-! ### Leaves -/

theorem certain_textItems (position : Nat) (items : List Json) :
    (textItems position items).Only Fault.Certain := by
  intro f hf
  rw [findings_textItems] at hf
  obtain ⟨b, hb, f', hf', rfl⟩ := mem_gather.mp hf
  obtain ⟨e, -, rfl⟩ := List.mem_map.mp hb
  simp only [itemFindings] at hf'
  split at hf'
  · simp at hf'
  · rw [List.mem_singleton.mp hf']
    exact fun _ => rfl

theorem certain_number (initial : Double) (least : Nat) (v : Option Json) :
    (number initial least v).Only Fault.Certain := by
  unfold number
  repeat' split
  all_goals simp [Fault.certain_iff, Fault.counts]

theorem certain_count (initial : UInt32) (least : Nat) (v : Option Json) :
    (count initial least v).Only Fault.Certain := by
  unfold count
  repeat' split
  all_goals simp [Fault.certain_iff, Fault.counts]

/-- Only an identifier can be at fault under one policy and not under another. -/
theorem certain_leaf {l : Leaf} (hl : l ≠ .identifier) (v : Option Json) :
    ∀ f ∈ l.findings v, f.fault.Certain := by
  cases l with
  | identifier => exact absurd rfl hl
  | number least => exact certain_number _ least v
  | count least => exact certain_count _ least v
  | text | requiredText | flag =>
    rcases v with _ | v
    · simp [Leaf.findings, text, requiredText, flag, Fault.certain_iff, Fault.counts]
    · cases v <;>
        simp [Leaf.findings, text, requiredText, flag, Fault.certain_iff, Fault.counts]
  | texts =>
    rcases v with _ | v
    · simp [Leaf.findings, texts]
    cases v with
    | array items => exact certain_textItems 0 items
    | _ => simp [Leaf.findings, texts, Fault.certain_iff, Fault.counts]
  | alternative names =>
    rcases v with _ | v
    · simp [Leaf.findings]
    cases v with
    | string s =>
      simp only [Leaf.findings]
      split <;> simp [Fault.certain_iff, Fault.counts]
    | _ => simp [Leaf.findings, Fault.certain_iff, Fault.counts]

/-! ### Parts -/

theorem certain_environmentMember (key : String) (v : Json) :
    (environmentMember key v).Only Fault.Certain := by
  intro f hf
  rcases mem_environmentMember.mp hf with ⟨-, rfl⟩ | ⟨-, -, rfl⟩ <;> exact fun _ => rfl

/-- A field has only plain faults if the parts below it do. -/
theorem plain_form_of_parts {form : Form} (hleaf : form ≠ .leaf .identifier)
    (hpart : ∀ q, form = .part q → ∀ m, ∀ f ∈ q.findings m, f.fault.Plain)
    (hentry : form = .environment → ∀ m, ∀ f ∈ Part.entry.findings m, f.fault.Plain)
    (v : Option Json) : ∀ f ∈ form.findings v, f.fault.Plain := by
  intro f hf
  cases form with
  | leaf l => exact Or.inr (certain_leaf (fun h => hleaf (h ▸ rfl)) v f hf)
  | part q =>
    rcases mem_formPart.mp hf with ⟨m, -, hf⟩ | ⟨x, -, -, rfl⟩
    · exact hpart q rfl m f hf
    · exact Or.inr fun _ => rfl
  | environment =>
    rcases mem_environment.mp hf with ⟨x, -, -, -, rfl⟩ | ⟨_, _, x, -, -, f', hf', rfl⟩ |
        ⟨m, key, x, -, -, f', hf', rfl⟩
    · exact Or.inr fun _ => rfl
    · rcases mem_environmentEntry.mp hf' with ⟨m, rfl, hf'⟩ | ⟨-, rfl⟩
      · exact hentry rfl m f' hf'
      · exact Or.inr fun _ => rfl
    · exact Or.inr (certain_environmentMember key x f' hf')

/-- A field that is no identifier, and neither a request nor scaling. -/
def Form.Ordinary (form : Form) : Prop :=
  form ≠ .leaf .identifier ∧ form ≠ .part .scaling ∧ form ≠ .part .request

instance (form : Form) : Decidable form.Ordinary := inferInstanceAs (Decidable (_ ∧ _))

/-- Only a request holds identifiers, and only a request holds scaling. -/
theorem Part.ordinary_fields {q : Part} (hq : q ≠ .request) :
    ∀ f ∈ q.fields, f.2.Ordinary := by
  cases q with
  | request => exact absurd rfl hq
  | _ => decide

theorem Part.plain_tail {q : Part} (hq : q ≠ .scaling) (m : Json.Members) :
    ∀ f ∈ q.tail m, f.fault.Certain := by
  cases q with
  | scaling => exact absurd rfl hq
  | entry =>
    simp only [Part.tail]
    split <;> simp [Fault.certain_iff, Fault.counts]
  | _ => simp [Part.tail]

theorem plain_part (q : Part) : q ≠ .request → q ≠ .scaling →
    ∀ m, ∀ f ∈ q.findings m, f.fault.Plain := by
  induction q using Part.induction with
  | step q ihpart ihentry =>
    intro hrequest hscaling m f hf
    rcases mem_part.mp hf with ⟨name, -, rfl⟩ | ⟨name, form, hfield, f', hf', rfl⟩ | hf
    · exact Or.inl rfl
    · obtain ⟨hleaf, hnotScaling, hnotRequest⟩ := Part.ordinary_fields hrequest _ hfield
      apply plain_form_of_parts hleaf _ _ _ f' hf'
      · intro q' hq'
        subst hq'
        apply ihpart name q' hfield
        · rintro rfl
          exact hnotRequest rfl
        · rintro rfl
          exact hnotScaling rfl
      · intro henvironment
        subst henvironment
        exact ihentry name hfield (by decide) (by decide)
    · exact Or.inr (Part.plain_tail hscaling m f hf)

/-- **Outside the identifiers and scaling every finding is plain.** -/
theorem plain_form {form : Form} (h : form.Ordinary) (v : Option Json) :
    ∀ f ∈ form.findings v, f.fault.Plain := by
  obtain ⟨hleaf, hscaling, hrequest⟩ := h
  apply plain_form_of_parts hleaf
  · intro q hq
    apply plain_part q
    · rintro rfl
      exact hrequest hq
    · rintro rfl
      exact hscaling hq
  · intro _
    exact plain_part .entry (by decide) (by decide)

/-- The fields of scaling, taken one by one, have only plain faults. -/
theorem plain_scalingFields (m : Json.Members) : (scalingFields m).Only Fault.Plain := by
  intro f hf
  rw [findings_scalingFields] at hf
  obtain ⟨b, hb, f', hf', rfl⟩ := mem_gather.mp hf
  obtain ⟨field, hfield, rfl⟩ := List.mem_map.mp hb
  exact plain_form (Part.ordinary_fields (by decide) field hfield) _ f' hf'

end Validation

end ModelCatalog
