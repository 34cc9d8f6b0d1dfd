/-
  ModelCatalog/Proofs/Validation/Agreement.lean
  =============================================
  **The two readers of a request agree.**

  A request is decoded from what the encoding writes (`ModelRequest.ofJson?`), and it is
  surveyed where it is submitted (`surveyRequest`).  The decoder knows no null and takes
  structures written as lists; the survey takes texts for numbers and an environment as
  an object.  Where both take a value they read the same from it, and what is decoded
  passes the lenient policy if it is spelled plainly and within the bounds.  Both are
  proved together, reader by reader (`Agrees`), along the fields of each part.
-/
import ModelCatalog.Descriptor.Decoding
import ModelCatalog.Proofs.Validation.Policies
import ModelCatalog.Proofs.Validation.Resubmission

namespace ModelCatalog

/-! ### Plain spelling -/

namespace Validation

/-- `Position form x form' y` if `x` is read as one form and, within it, `y` as another. -/
inductive Position : Form → Json → Form → Json → Prop
  | here {form : Form} {x : Json} : Position form x form x
  | field {q : Part} {m : Json.Members} {name : String} {form form' : Form} {x y : Json}
      (hfield : (name, form) ∈ q.fields) (hget : Entries.get? m name = some x)
      (h : Position form x form' y) : Position (.part q) (.object m) form' y
  | item {entries : List Json} {form : Form} {x y : Json} (hx : x ∈ entries)
      (h : Position (.part .entry) x form y) : Position .environment (.array entries) form y

/-- A part is spelled as an object, and an alternative as a text, or as null where there
    may be none. -/
def Form.Spells : Form → Json → Prop
  | .part _, x => x.kind = .object
  | .leaf (.alternative _), x => x.kind = .string ∨ x.kind = .null
  | _, _ => True

/-- All parts and alternatives within a value are spelled so. -/
def Form.Plain (form : Form) (x : Json) : Prop :=
  ∀ form' y, Position form x form' y → form'.Spells y

/-- The members of an object that are read for the fields of a part are plain. -/
def Part.PlainFields (q : Part) (m : Json.Members) : Prop :=
  ∀ f ∈ q.fields, ∀ x, Entries.get? m f.1 = some x → f.2.Plain x

theorem Form.plain_leaf_iff {l : Leaf} {x : Json} :
    (Form.leaf l).Plain x ↔ (Form.leaf l).Spells x := by
  constructor
  · intro h
    exact h _ _ .here
  · intro h form' y hy
    cases hy
    exact h

theorem Form.plain_part_iff {q : Part} {x : Json} :
    (Form.part q).Plain x ↔ ∃ m, x = .object m ∧ q.PlainFields m := by
  constructor
  · intro h
    have hobject : x.kind = .object := h _ _ .here
    cases x with
    | object m => exact ⟨m, rfl, fun f hf x hget form' y hy => h form' y (.field hf hget hy)⟩
    | _ => cases hobject
  · rintro ⟨m, rfl, h⟩ form' y hy
    cases hy with
    | here => rfl
    | field hfield hget hy => exact h _ hfield _ hget form' y hy

theorem Form.Plain.fields {q : Part} {m : Json.Members} (h : (Form.part q).Plain (.object m)) :
    q.PlainFields m := by
  obtain ⟨m', hobject, hfields⟩ := Form.plain_part_iff.mp h
  cases hobject
  exact hfields

/-- A part that is spelled as a list is not plain. -/
theorem Form.not_plain_array {q : Part} {items : List Json} :
    ¬ (Form.part q).Plain (.array items) := by
  intro h
  obtain ⟨m, hobject, -⟩ := Form.plain_part_iff.mp h
  cases hobject

theorem Form.plain_environment_iff {entries : List Json} :
    Form.environment.Plain (.array entries) ↔ ∀ x ∈ entries, (Form.part .entry).Plain x := by
  constructor
  · intro h x hx form y hy
    exact h form y (.item hx hy)
  · intro h form y hy
    cases hy with
    | here => exact trivial
    | item hx hy => exact h _ hx form y hy

end Validation

/-! ### What a survey yields -/

namespace Survey

variable {α β : Type} {P : α → Prop} {Q : β → Prop} {S : Prop}

/-- What is read has a property if the survey passes the lenient policy, and it does pass
    under a condition. -/
structure Yields (x : Survey α) (P : α → Prop) (S : Prop) : Prop where
  value : x.Passes {} → P x.value
  passes : S → x.Passes {}

theorem yields_pure {a : α} (h : P a) : (pure a : Survey α).Yields P S :=
  ⟨fun _ => h, fun _ => passes_pure a⟩

theorem Yields.mono {x : Survey α} {S' : Prop} (h : x.Yields P S) (hs : S' → S) : x.Yields P S' :=
  ⟨h.value, fun hs' => h.passes (hs hs')⟩

theorem Yields.under {x : Survey α} (h : x.Yields P S) (s : Segment) : (x.under s).Yields P S :=
  ⟨fun hx => h.value ((passes_under s x).mp hx), fun hs => (passes_under s x).mpr (h.passes hs)⟩

theorem Yields.bind {x : Survey α} {f : α → Survey β} (hx : x.Yields P S)
    (hf : ∀ a, P a → (f a).Yields Q S) : (x >>= f).Yields Q S := by
  constructor
  · intro h
    obtain ⟨hpasses, hrest⟩ := (passes_bind x f).mp h
    exact (hf _ (hx.value hpasses)).value hrest
  · intro hs
    have hpasses := hx.passes hs
    exact (passes_bind x f).mpr ⟨hpasses, (hf _ (hx.value hpasses)).passes hs⟩

/-- A survey that reads one value is gone on from with that value. -/
theorem Yields.andThen {x : Survey α} {f : α → Survey β} {a : α} (hx : x.Yields (· = a) S)
    (hf : (f a).Yields Q S) : (x >>= f).Yields Q S :=
  hx.bind fun _ h => h ▸ hf

/-- A survey that certainly fails yields anything. -/
theorem yields_flawed {a : α} {fault : Fault} (hfault : fault.counts {} = true) (hs : ¬S) :
    (flawed a fault).Yields P S := by
  constructor
  · intro h
    rw [passes_flawed, hfault] at h
    cases h
  · intro h
    exact absurd h hs

end Survey

namespace Validation

open Survey

/-- **Two readers of one field agree.**  What both accept they read alike; and what the
    first accepts the second accepts too, if it is plain and fit.  Null is nothing to the
    second, so the first may accept it only for the initial value. -/
structure Agrees {α β : Type} (form : Form) (read : Json → Option α)
    (survey : Option Json → Survey β) (initial : α) (Same : β → α → Prop) (Fit : α → Prop) :
    Prop where
  absent : (survey none).Yields (Same · initial) True
  null : ∀ a, read .null = some a → a = initial
  present : ∀ v a, v.kind ≠ .null → read v = some a →
    (survey (some v)).Yields (Same · a) (form.Plain v ∧ Fit a)

/-- So they agree on a field of an object. -/
theorem Agrees.field {α β : Type} {form : Form} {read : Json → Option α}
    {survey : Option Json → Survey β} {initial a : α} {Same : β → α → Prop} {Fit : α → Prop}
    (h : Agrees form read survey initial Same Fit) {q : Part} {m : Json.Members} {name : String}
    {position : Nat} {S : Prop}
    (hread : (Json.Fields.ofObject m).withDefault position name initial read = some a)
    (hfield : (name, form) ∈ q.fields) (hplain : S → q.PlainFields m) (hfit : S → Fit a) :
    (field m name survey).Yields (Same · a) S := by
  apply Yields.under
  simp only [Json.Fields.withDefault, Json.Fields.get?] at hread
  unfold given
  cases hget : Entries.get? m name with
  | none =>
    rw [hget] at hread
    cases hread
    exact h.absent.mono fun _ => trivial
  | some v =>
    rw [hget] at hread
    cases v with
    | null =>
      cases h.null a hread
      exact h.absent.mono fun _ => trivial
    | _ =>
      have hyields := h.present _ a (by simp [Json.kind]) hread
      exact hyields.mono fun hs => ⟨hplain hs _ hfield _ hget, hfit hs⟩

/-- They agree on a field that may hold anything. -/
theorem Agrees.anyField {α β : Type} {form : Form} {read : Json → Option α}
    {survey : Option Json → Survey β} {initial a : α} {Same : β → α → Prop}
    (h : Agrees form read survey initial Same fun _ => True) {q : Part} {m : Json.Members}
    {name : String} {position : Nat} {F : Prop}
    (hread : (Json.Fields.ofObject m).withDefault position name initial read = some a)
    (hfield : (name, form) ∈ q.fields) :
    (Validation.field m name survey).Yields (Same · a) (q.PlainFields m ∧ F) :=
  h.field hread hfield And.left fun _ => trivial

/-! ### Leaves -/

theorem agrees_text (initial : String) :
    Agrees (.leaf .text) Json.text? (text initial) initial Eq fun _ => True where
  absent := yields_pure rfl
  null _ h := by cases h
  present v s _ h := by
    cases v with
    | string s' =>
      cases h
      exact yields_pure rfl
    | _ => cases h

/-- An identifier that is given is read as it is, even where it is empty. -/
theorem agrees_identifier :
    Agrees (.leaf .identifier) Json.text? (identifier placeholderIdentifier)
      placeholderIdentifier Eq (· ≠ "") where
  absent := ⟨fun _ => rfl, fun _ => by simp [identifier, Fault.counts]⟩
  null _ h := by cases h
  present v s _ h := by
    cases v with
    | string s' =>
      cases h
      constructor
      · intro _
        simp only [identifier]
        split
        · rfl
        · split <;> rfl
      · rintro ⟨-, hne⟩
        simp only [identifier, String.isEmpty_iff, hne, if_false]
        split
        · exact (passes_flawed _ _).mpr rfl
        · exact passes_pure _
    | _ => cases h

theorem agrees_flag (initial : Bool) :
    Agrees (.leaf .flag) Json.bool? (flag initial) initial Eq fun _ => True where
  absent := yields_pure rfl
  null _ h := by cases h
  present v b _ h := by
    cases v with
    | bool b' =>
      cases h
      exact yields_pure rfl
    | _ => cases h

/-- What is decoded item by item was encoded so, if that is true of each item. -/
theorem eq_map_of_mapM {α : Type} {read : Json → Option α} {encode : α → Json}
    (hread : ∀ v a, read v = some a → v = encode a) {items : List Json} {as : List α}
    (h : items.mapM read = some as) : items = as.map encode := by
  induction items generalizing as with
  | nil =>
    cases h
    rfl
  | cons v items ih =>
    simp only [List.mapM_cons, bind, Option.bind_eq_some_iff, pure, Option.some.injEq] at h
    obtain ⟨a, ha, as', has, rfl⟩ := h
    rw [List.map_cons, ← hread v a ha, ← ih has]

theorem agrees_texts (initial : List String) :
    Agrees (.leaf .texts) (Json.list? Json.text?) (texts initial) initial Eq fun _ => True where
  absent := yields_pure rfl
  null _ h := by cases h
  present v ss _ h := by
    cases v with
    | array items =>
      have hstring : ∀ v s, Json.text? v = some s → v = .string s := by
        intro v s hv
        cases v with
        | string s' =>
          cases hv
          rfl
        | _ => cases hv
      rw [eq_map_of_mapM hstring h, ← Json.ofStrings, texts_ofStrings]
      exact yields_pure rfl
    | _ => cases h

/-- A count is decoded from a whole number of 32 bits, written as one. -/
theorem eq_ofCount {v : Json} {n : UInt32} (h : Json.count? v = some n) : v = .ofCount n := by
  unfold Json.count? at h
  split at h
  · rename_i z
    split at h
    · rename_i hz
      obtain ⟨hnonneg, hsize⟩ := hz
      cases h
      have hcount : (UInt32.ofNat z.toNat).toNat = z.toNat := UInt32.toNat_ofNat_of_lt' hsize
      rw [Json.ofCount, Json.ofNat, hcount, Int.toNat_of_nonneg hnonneg]
    · cases h
  · cases h

theorem count_of_lt {initial : UInt32} {least : Nat} {v : Json} {x : Double}
    (hread : double? v = some x) (hlt : x.lt (.ofNat least) = true) :
    count initial least (some v) = .flawed initial (.tooSmall least) := by
  simp only [count, hread, hlt, if_true]

theorem agrees_count (initial : UInt32) (least : Nat) (hleast : least < 2 ^ 53) :
    Agrees (.leaf (.count least)) Json.count? (count initial least) initial Eq
      fun n => least ≤ n.toNat where
  absent := yields_pure rfl
  null _ h := by cases h
  present v n _ h := by
    rw [eq_ofCount h]
    by_cases hn : least ≤ n.toNat
    · rw [count_ofCount hn]
      exact yields_pure rfl
    · have hwhole : (Double.ofNat n.toNat).natural? = some n.toNat :=
        Double.natural?_ofNat (Nat.lt_trans n.toNat_lt (by decide))
      have hlt : (Double.ofNat n.toNat).lt (.ofNat least) = true :=
        (Double.lt_ofNat_iff hwhole hleast).mpr (Nat.lt_of_not_le hn)
      rw [count_of_lt (double?_ofCount n) hlt]
      exact yields_flawed rfl fun hfit => hn hfit.2

theorem agrees_number (initial : Double) :
    Agrees (.leaf (.number 0)) Json.double? (number initial 0) initial Eq
      fun d => d.isFinite = true ∧ 0 ≤ d.rank where
  absent := yields_pure rfl
  null _ h := by cases h
  present v d _ h := by
    cases v with
    | number n =>
      cases h
      by_cases hfinite : n.toDouble.isFinite = true
      · have hread : double? (.number n) = some n.toDouble :=
          Option.filter_eq_some_iff.mpr ⟨rfl, hfinite⟩
        simp only [number, hread]
        cases hlt : n.toDouble.lt (.ofNat 0) with
        | false => exact yields_pure rfl
        | true =>
          refine yields_flawed rfl ?_
          rintro ⟨-, -, hnonneg⟩
          rw [(Double.lt_zero_eq_false_iff hfinite).mpr hnonneg] at hlt
          cases hlt
      · have hread : double? (.number n) = none := by
          simp only [double?, Option.filter_some, hfinite, Bool.false_eq_true, if_false]
        simp only [number, hread]
        exact yields_flawed rfl fun hfit => hfinite hfit.2.1
    | _ => cases h

/-- A name that is decoded is read as what it names; only the decoder knows names that are
    spelled as objects. -/
theorem yields_named {α : Type} [Named α] {spelling : Json.Spelling} (names : List String)
    {v : Json} {a : α} (h : Json.named? spelling v = some a) :
    (named (some v)).Yields (· = some a) ((Form.leaf (.alternative names)).Plain v) := by
  cases v with
  | string s =>
    have hname : Named.ofName s = .ok a := by
      simp only [Json.named?, Named.ofName?] at h
      cases hs : (Named.ofName s : Except UnknownName α) with
      | ok b =>
        rw [hs] at h
        cases h
        rfl
      | error u =>
        rw [hs] at h
        cases h
    simp only [named, hname]
    exact yields_pure rfl
  | object m =>
    refine yields_flawed rfl ?_
    intro hplain
    have hspells := Form.plain_leaf_iff.mp hplain
    simp [Form.Spells, Json.kind] at hspells
  | _ => cases h

theorem agrees_named {α : Type} [Named α] (spelling : Json.Spelling) (names : List String)
    (initial : α) :
    Agrees (.leaf (.alternative names)) (Json.named? spelling) named initial
      (fun found a => found.getD initial = a) fun _ => True where
  absent := yields_pure rfl
  null _ h := by cases h
  present v a _ h := by
    have hnamed := yields_named names h
    refine ⟨?_, fun hs => hnamed.passes hs.1⟩
    intro hpasses
    rw [hnamed.value hpasses]
    rfl

theorem agrees_optionalNamed {α : Type} [Named α] (spelling : Json.Spelling)
    (names : List String) :
    Agrees (.leaf (.alternative names)) (Json.optional? (Json.named? spelling))
      (named : Option Json → Survey (Option α)) none Eq fun _ => True where
  absent := yields_pure rfl
  null a h := by
    cases h
    rfl
  present v a hv h := by
    have hsome : (Json.named? spelling v).map some = some a := by
      cases v with
      | null => exact absurd rfl hv
      | _ => exact h
    obtain ⟨b, hb, rfl⟩ := Option.map_eq_some_iff.mp hsome
    have hnamed := yields_named names hb
    exact hnamed.mono And.left

/-! ### Groups -/

/-- What the lenient policy drops stands in no survey's way. -/
theorem yields_noteUnrecognized (known : List String) (m : Json.Members) {S : Prop} :
    (noteUnrecognized known m).Yields (fun _ => True) S where
  value _ := trivial
  passes _ := only_noteUnrecognized (P := fun fault => fault.counts {} = false) rfl known m

/-- Two readers of a part agree if they do on its fields: the survey refuses a part that
    is no object, and a list is not plain. -/
theorem agrees_group {α : Type} {q : Part} {known : List String} {initial : α} {size : Nat}
    {decode : Json.Fields → Option α} {read : Json.Members → Survey α} {Fit : α → Prop}
    (h : ∀ m a, decode (.ofObject m) = some a →
      (read m).Yields (· = a) (q.PlainFields m ∧ Fit a)) :
    Agrees (.part q) (fun v => Json.fields? size v >>= decode) (group known initial read)
      initial Eq Fit where
  absent := yields_pure rfl
  null _ h := by cases h
  present v a _ hv := by
    cases v with
    | object m =>
      refine (yields_noteUnrecognized known m).bind fun _ _ => ?_
      have hread := h m a hv
      exact hread.mono fun hs => ⟨hs.1.fields, hs.2⟩
    | array items => exact yields_flawed rfl fun hs => Form.not_plain_array hs.1
    | _ => cases hv

theorem agrees_containerImage :
    Agrees (.part .image) ContainerImage.ofJson? containerImage {} Eq fun _ => True := by
  refine agrees_group ?_
  intro m i h
  simp only [bind, Option.bind_eq_some_iff, pure, Option.some.injEq] at h
  obtain ⟨base, hbase, path, hpath, imageType, htype, rfl⟩ := h
  exact .andThen ((agrees_text _).anyField hbase (by decide)) <|
    .andThen ((agrees_text _).anyField hpath (by decide)) <|
    .andThen ((agrees_text _).anyField htype (by decide)) <|
    yields_pure rfl

/-- Any number of 32 bits is a count that may be zero. -/
theorem agrees_anyCount (initial : UInt32) :
    Agrees (.leaf (.count 0)) Json.count? (count initial 0) initial Eq fun _ => True where
  absent := yields_pure rfl
  null _ h := by cases h
  present v n hv h := by
    have hcount := (agrees_count initial 0 (by decide)).present v n hv h
    exact hcount.mono fun hs => ⟨hs.1, Nat.zero_le _⟩

theorem agrees_containerHealthCheck :
    Agrees (.part .containerHealthCheck) ContainerHealthCheck.ofJson? containerHealthCheck {} Eq
      fun _ => True := by
  refine agrees_group ?_
  intro m c h
  simp only [bind, Option.bind_eq_some_iff, pure, Option.some.injEq] at h
  obtain ⟨command, hcommand, interval, hinterval, start, hstart, timeout, htimeout,
    retries, hretries, rfl⟩ := h
  exact .andThen ((agrees_texts _).anyField hcommand (by decide)) <|
    .andThen ((agrees_anyCount _).anyField hinterval (by decide)) <|
    .andThen ((agrees_anyCount _).anyField hstart (by decide)) <|
    .andThen ((agrees_anyCount _).anyField htimeout (by decide)) <|
    .andThen ((agrees_anyCount _).anyField hretries (by decide)) <|
    yields_pure rfl

/-! ### Environments -/

theorem given_of_required {m : Json.Members} {position : Nat} {name s : String}
    (h : (Json.Fields.ofObject m).required position name Json.text? = some s) :
    given m name = some (.string s) := by
  simp only [Json.Fields.required, Json.Fields.get?, Option.bind_eq_some_iff] at h
  obtain ⟨v, hget, hv⟩ := h
  cases v with
  | string s' =>
    cases hv
    rw [given, hget]
  | _ => cases hv

theorem yields_environmentEntry {v : Json} {e : EnvironmentVariable}
    (h : EnvironmentVariable.ofJson? v = some e) :
    (environmentEntry v).Yields (· = some e) ((Form.part .entry).Plain v ∧ e.key ≠ "") := by
  cases v with
  | object m =>
    simp only [EnvironmentVariable.ofJson?, Json.fields?, bind, Option.bind_eq_some_iff, pure,
      Option.some.injEq, exists_eq_left'] at h
    obtain ⟨key, hkey, value, hvalue, rfl⟩ := h
    unfold environmentEntry
    dsimp only
    rw [field_of_given (given_of_required hkey) (requiredText_string key),
      field_of_given (given_of_required hvalue) (requiredText_string value)]
    refine (yields_noteUnrecognized _ m).bind fun _ _ =>
      .andThen (yields_pure rfl) <| .andThen (yields_pure rfl) ?_
    by_cases hempty : key = ""
    · rw [if_pos (congrArg some hempty)]
      refine ⟨?_, fun hs => absurd hempty hs.2⟩
      intro hpasses
      simp [Fault.counts] at hpasses
    · rw [if_neg (mt Option.some.inj hempty)]
      exact yields_pure rfl
  | array items => exact yields_flawed rfl fun hs => Form.not_plain_array hs.1
  | _ => cases h

theorem yields_environmentEntries {entries : List Json} {es : List EnvironmentVariable}
    (h : entries.mapM EnvironmentVariable.ofJson? = some es) (position : Nat) :
    (environmentEntries position entries).Yields (· = es)
      ((∀ x ∈ entries, (Form.part .entry).Plain x) ∧ ∀ e ∈ es, e.key ≠ "") := by
  induction entries generalizing es position with
  | nil =>
    cases h
    exact yields_pure rfl
  | cons v entries ih =>
    simp only [List.mapM_cons, bind, Option.bind_eq_some_iff, pure, Option.some.injEq] at h
    obtain ⟨e, he, es', hes, rfl⟩ := h
    have hentry := (yields_environmentEntry he).under (.index position)
    have hrest := ih hes (position + 1)
    refine .andThen (hentry.mono ?_) <| .andThen (hrest.mono ?_) <| yields_pure rfl
    · rintro ⟨hplain, hkeys⟩
      exact ⟨hplain v List.mem_cons_self, hkeys e List.mem_cons_self⟩
    · rintro ⟨hplain, hkeys⟩
      exact ⟨fun x hx => hplain x (List.mem_cons_of_mem v hx),
        fun e' he' => hkeys e' (List.mem_cons_of_mem e he')⟩

theorem agrees_environment (initial : List EnvironmentVariable) :
    Agrees .environment (Json.list? EnvironmentVariable.ofJson?) (environment initial) initial Eq
      fun es => ∀ e ∈ es, e.key ≠ "" where
  absent := yields_pure rfl
  null _ h := by cases h
  present v es _ h := by
    cases v with
    | array entries =>
      have hentries := yields_environmentEntries h 0
      exact hentries.mono fun hs => ⟨Form.plain_environment_iff.mp hs.1, hs.2⟩
    | _ => cases h

theorem agrees_container :
    Agrees (.part .container) ContainerConfig.ofJson? container {} Eq
      fun c => ∀ e ∈ c.environment, e.key ≠ "" := by
  refine agrees_group ?_
  intro m c h
  simp only [bind, Option.bind_eq_some_iff, pure, Option.some.injEq] at h
  obtain ⟨image, himage, size, hsize, check, hcheck, environment, henvironment, rfl⟩ := h
  exact .andThen (agrees_containerImage.anyField himage (by decide)) <|
    .andThen ((agrees_anyCount _).anyField hsize (by decide)) <|
    .andThen (agrees_containerHealthCheck.anyField hcheck (by decide)) <|
    .andThen ((agrees_environment _).field henvironment (by decide) And.left And.right) <|
    yields_pure rfl

/-! ### Scaling -/

/-- Comparing the bounds changes nothing under the lenient policy. -/
theorem yields_checkCapacityOrder {x : Survey ScalingConfig} {P : ScalingConfig → Prop} {S : Prop}
    (h : x.Yields P S) : (checkCapacityOrder x).Yields P S := by
  constructor
  · intro hpasses
    rw [value_checkCapacityOrder]
    exact h.value (passes_of_checkCapacityOrder hpasses)
  · intro hs f hf
    rw [findings_checkCapacityOrder, List.mem_append] at hf
    rcases hf with hf | hf
    · exact h.passes hs f hf
    · obtain ⟨-, -, rfl⟩ := mem_orderFindings.mp hf
      rfl

theorem agrees_scalingMetric :
    Agrees (.part .metric) ScalingMetric.ofJson? scalingMetric {} Eq
      fun s => s.targetValue.isFinite = true ∧ 0 ≤ s.targetValue.rank := by
  refine agrees_group ?_
  intro m s h
  simp only [bind, Option.bind_eq_some_iff, pure, Option.some.injEq] at h
  obtain ⟨metric, hmetric, target, htarget, duration, hduration, warmup, hwarmup, rfl⟩ := h
  exact .andThen ((agrees_text _).anyField hmetric (by decide)) <|
    .andThen ((agrees_number _).field htarget (by decide) And.left And.right) <|
    .andThen ((agrees_anyCount _).anyField hduration (by decide)) <|
    .andThen ((agrees_anyCount _).anyField hwarmup (by decide)) <|
    yields_pure rfl

/-- The bounds within which scaling is accepted, whatever their order. -/
structure Scalable (s : ScalingConfig) : Prop where
  one_le_minCapacity : 1 ≤ s.minCapacity.toNat
  one_le_maxCapacity : 1 ≤ s.maxCapacity.toNat
  one_le_cooldown : 1 ≤ s.cooldown.toNat
  target : s.metric.targetValue.isFinite = true ∧ 0 ≤ s.metric.targetValue.rank

theorem agrees_scaling :
    Agrees (.part .scaling) ScalingConfig.ofJson? scaling {} Eq Scalable := by
  refine agrees_group ?_
  intro m s h
  simp only [bind, Option.bind_eq_some_iff, pure, Option.some.injEq] at h
  obtain ⟨least, hleast, most, hmost, cooldown, hcooldown, warmup, hwarmup, metric, hmetric,
    rfl⟩ := h
  have hbound (initial : UInt32) := agrees_count initial 1 (by decide)
  apply yields_checkCapacityOrder
  exact .andThen ((hbound _).field hleast (by decide) And.left fun hs => hs.2.one_le_minCapacity) <|
    .andThen ((hbound _).field hmost (by decide) And.left fun hs => hs.2.one_le_maxCapacity) <|
    .andThen ((hbound _).field hcooldown (by decide) And.left fun hs => hs.2.one_le_cooldown) <|
    .andThen ((agrees_anyCount _).anyField hwarmup (by decide)) <|
    .andThen (agrees_scalingMetric.field hmetric (by decide) And.left fun hs => hs.2.target) <|
    yields_pure rfl

/-! ### The load balancer -/

theorem agrees_balancerHealthCheck :
    Agrees (.part .balancerHealthCheck) BalancerHealthCheck.ofJson? balancerHealthCheck {} Eq
      fun _ => True := by
  refine agrees_group ?_
  intro m c h
  simp only [bind, Option.bind_eq_some_iff, pure, Option.some.injEq] at h
  obtain ⟨path, hpath, interval, hinterval, timeout, htimeout, healthy, hhealthy,
    unhealthy, hunhealthy, rfl⟩ := h
  exact .andThen ((agrees_text _).anyField hpath (by decide)) <|
    .andThen ((agrees_anyCount _).anyField hinterval (by decide)) <|
    .andThen ((agrees_anyCount _).anyField htimeout (by decide)) <|
    .andThen ((agrees_anyCount _).anyField hhealthy (by decide)) <|
    .andThen ((agrees_anyCount _).anyField hunhealthy (by decide)) <|
    yields_pure rfl

theorem agrees_balancer :
    Agrees (.part .balancer) BalancerConfig.ofJson? balancer {} Eq fun _ => True := by
  refine agrees_group ?_
  intro m b h
  simp only [bind, Option.bind_eq_some_iff, pure, Option.some.injEq] at h
  obtain ⟨check, hcheck, rfl⟩ := h
  exact .andThen (agrees_balancerHealthCheck.anyField hcheck (by decide)) <| yields_pure rfl

/-! ### Requests -/

theorem yields_request {m : Json.Members} {r : ModelRequest}
    (h : ModelRequest.ofFields? (.ofObject m) = some r) :
    (request m).Yields (· = r) (Part.request.PlainFields m ∧ r.Valid) := by
  simp only [ModelRequest.ofFields?, Descriptor.ofFields?, bind, Option.bind_eq_some_iff, pure,
    Option.some.injEq] at h
  obtain ⟨d, ⟨id, hid, name, hname, url, hurl, streaming, hstreaming, modelType, htype,
    instanceType, hinstance, server, hserver, container, hcontainer, scaling, hscaling,
    balancer, hbalancer, rfl⟩, hosted, hhosted, rfl⟩ := h
  refine .andThen ?_ <| .andThen ((agrees_flag _).anyField hhosted (by decide)) <| yields_pure rfl
  refine .andThen (agrees_identifier.field hid (by decide) And.left
      fun hs => hs.2.modelId_ne_empty) <|
    .andThen (agrees_identifier.field hname (by decide) And.left
      fun hs => hs.2.modelName_ne_empty) <|
    .andThen ((agrees_text _).anyField hurl (by decide)) <|
    .andThen ((agrees_flag _).anyField hstreaming (by decide)) <|
    .bind ((agrees_named _ ["textgen", "embedding"] _).anyField htype (by decide))
      fun found hfound =>
    .andThen ((agrees_text _).anyField hinstance (by decide)) <|
    .andThen ((agrees_optionalNamed _ ["tgi", "tei", "vllm", "instructor"]).anyField hserver
      (by decide)) <|
    .andThen (agrees_container.field hcontainer (by decide) And.left
      fun hs => hs.2.keys_ne_empty) <|
    .andThen (agrees_scaling.field hscaling (by decide) And.left ?_) <|
    .andThen (agrees_balancer.anyField hbalancer (by decide)) <|
    yields_pure ?_
  · rintro ⟨-, hvalid⟩
    exact ⟨UInt32.le_iff_toNat_le.mp hvalid.one_le_minCapacity,
      UInt32.le_iff_toNat_le.mp hvalid.one_le_maxCapacity,
      UInt32.le_iff_toNat_le.mp hvalid.one_le_cooldown,
      hvalid.targetValue_finite, hvalid.targetValue_nonneg⟩
  · rw [hfound]

/-- **The two readers of a request never disagree.**

    Let a value be decoded as a request.  If it is also accepted where it is submitted,
    under whatever policy, it is accepted as that request.  And it is accepted under every
    policy that drops unknown members, if it has no status, its structures are spelled as
    objects and its alternatives as texts, and the request is valid and meets the policy. -/
theorem validateRequest_of_decoded {v : Json} {r : ModelRequest}
    (h : ModelRequest.ofJson? v = some r) (p : Policy) :
    (∀ r', (validateRequest p v).outcome = .ok r' → r = r') ∧
    (p.unknownFields = .permissive →
      (∀ m, v = .object m → Entries.contains m statusKey = false) →
      (Form.part .request).Plain v → r.Valid → r.Meets p →
      (validateRequest p v).outcome = .ok r) := by
  obtain ⟨m, rfl, hm⟩ : ∃ m, v = .object m ∧ ModelRequest.ofFields? (.ofObject m) = some r := by
    cases v with
    | object m => exact ⟨m, rfl, h⟩
    | _ => cases h
  have hrequest := yields_request hm
  have hvalue : (request m).Passes {} → (surveyRequest (.object m)).value = r := by
    intro hpasses
    rw [value_surveyRequest, hrequest.value hpasses]
  constructor
  · intro r' hr'
    obtain ⟨hpasses, rfl⟩ := outcome_judge_eq_ok_iff.mp hr'
    obtain ⟨m', heq, -, hfields, -⟩ := request_of_surveyRequest hpasses.lenient
    cases heq
    exact (hvalue hfields).symm
  · intro hunknown hstatus hplain hvalid hmeets
    have hpasses := hrequest.passes ⟨hplain.fields, hvalid⟩
    have hlenient : (surveyRequest (.object m)).Passes {} := by
      intro f hf
      rw [findings_surveyRequest, statusFindings, hstatus m rfl, Part.findings, List.mem_append,
        List.mem_append] at hf
      rcases hf with hf | hf | hf
      · cases hf
      · exact (yields_noteUnrecognized (S := True) _ m).passes trivial f hf
      · exact hpasses f hf
    refine outcome_judge_eq_ok_iff.mpr ⟨?_, hvalue hpasses⟩
    refine (passes_surveyRequest_iff p _).mpr ⟨hlenient, ?_, ?_⟩
    · intro hstrict
      rw [hunknown] at hstrict
      cases hstrict
    · rw [hvalue hpasses]
      exact hmeets

/-- Members without a meaning are passed over by both readers, an empty text is a value of
    a variable, and null says that there is no container. -/
theorem validateRequest_of_decoded_sparse :
    ∃ v r, ModelRequest.ofJson? v = some r ∧
      (validateRequest { Policy.strict with unknownFields := .permissive } v).outcome = .ok r := by
  let entry : Json := .object [("key", .string "K"), ("secret", .bool true), ("value", .string "")]
  let v : Json := .object [
    ("containerConfig", .object [("environment", .array [entry])]),
    ("inferenceContainer", .null),
    ("modelId", .string "m"),
    ("modelName", .string "n"),
    ("size", .number (.integer 7))]
  let r : ModelRequest := { descriptor := {
    modelId := "m"
    modelName := "n"
    container := { environment := [⟨"K", ""⟩] } } }
  have hdecoded : ModelRequest.ofJson? v = some r := by decide +kernel
  have hstatus : ∀ m, v = .object m → Entries.contains m statusKey = false := by
    intro m hm
    rw [← Json.object.inj hm]
    decide +kernel
  have hplain : (Form.part .request).Plain v := by
    simp [v, entry, Form.plain_part_iff, Part.PlainFields, Part.fields, Entries.get?,
      List.lookup_cons, Form.plain_leaf_iff, Form.plain_environment_iff, Form.Spells, Json.kind]
  have hvalid : r.Valid := by constructor <;> decide
  have hmeets : r.Meets { Policy.strict with unknownFields := .permissive } := by
    constructor <;> decide
  exact ⟨v, r, hdecoded,
    (validateRequest_of_decoded hdecoded _).2 rfl hstatus hplain hvalid hmeets⟩

end Validation

end ModelCatalog
