/-
  ModelCatalog/Proofs/Validation/Paths.lean
  =========================================
  **Different places have different paths.**

  A path puts a separator before every step but the first: a dot before a name, a bracket
  before a position.  As long as no name contains one of them a path can be cut again
  where it was put together, from the front and step by step (`Segment.chars_inj`), so it
  leads to one place only (`Location.text_inj`).  A first name that is empty would take the
  separator of the second step with it; but nothing is ever found below such a member
  (`opens_surveyRequest`).  Places are at fault once (`nodup_surveyRequest`), and so is every
  path.
-/
import Mathlib.Data.List.Basic
import ModelCatalog.Proofs.Json.Lexing
import ModelCatalog.Proofs.Text.Pieces
import ModelCatalog.Proofs.Validation.CapacityOrder
import ModelCatalog.Proofs.Validation.Places

namespace ModelCatalog

/-! ### Names -/

/-- A name without the characters that a path is cut at. -/
def PlainName (name : String) : Prop := '.' ∉ name.toList ∧ '[' ∉ name.toList

instance (name : String) : Decidable (PlainName name) := inferInstanceAs (Decidable (_ ∧ _))

namespace Json

mutual

/-- The names of the members of a value, at every depth. -/
def allNames : Json → List String
  | .array items => namesOfItems items
  | .object members => namesOfMembers members
  | _ => []

def namesOfItems : List Json → List String
  | [] => []
  | item :: rest => item.allNames ++ namesOfItems rest

def namesOfMembers : List (String × Json) → List String
  | [] => []
  | (name, value) :: rest => name :: (value.allNames ++ namesOfMembers rest)

end

/-- No name, at any depth, contains what a path is cut at. -/
def PlainNames (v : Json) : Prop := ∀ name ∈ v.allNames, PlainName name

instance (v : Json) : Decidable v.PlainNames :=
  inferInstanceAs (Decidable (∀ name ∈ v.allNames, PlainName name))

theorem PlainNames.of_item {items : List Json} (h : (array items).PlainNames) {v : Json}
    (hmem : v ∈ items) : v.PlainNames := by
  intro name hname
  apply h
  induction items with
  | nil => simp at hmem
  | cons item rest ih =>
    apply List.mem_append.mpr
    rcases List.mem_cons.mp hmem with rfl | hrest
    · exact Or.inl hname
    · refine Or.inr (ih ?_ hrest)
      intro name hname
      exact h name (List.mem_append_right _ hname)

theorem PlainNames.of_member {members : Members} (h : (object members).PlainNames)
    {name : String} {v : Json} (hmem : (name, v) ∈ members) : PlainName name ∧ v.PlainNames := by
  induction members with
  | nil => simp at hmem
  | cons e rest ih =>
    obtain ⟨n, x⟩ := e
    rcases List.mem_cons.mp hmem with heq | hrest
    · obtain ⟨rfl, rfl⟩ := Prod.mk.inj heq
      refine ⟨h name List.mem_cons_self, ?_⟩
      intro inner hinner
      exact h inner (List.mem_cons_of_mem _ (List.mem_append_left _ hinner))
    · refine ih ?_ hrest
      intro inner hinner
      exact h inner (List.mem_cons_of_mem _ (List.mem_append_right _ hinner))

end Json

/-! ### Paths are cut where they were put together -/

/-- A step by a plain name, or to a position. -/
def Segment.Plain : Segment → Prop
  | .key name => PlainName name
  | .index _ => True

/-- Every step is a plain one. -/
def Location.Plain (l : Location) : Prop := ∀ s ∈ l, s.Plain

@[simp] theorem Location.plain_nil : Plain [] := List.forall_mem_nil _

@[simp] theorem Location.plain_cons {s : Segment} {l : Location} :
    Plain (s :: l) ↔ s.Plain ∧ Plain l := List.forall_mem_cons

/-- The characters that a step adds to a path that has begun. -/
def Segment.chars : Segment → List Char
  | .key name => '.' :: name.toList
  | .index position => '[' :: (digits position ++ [']'])

/-- Whether a character is none of those that a path is cut at. -/
def staysInName (c : Char) : Bool := c != '.' && c != '['

theorem PlainName.stays {name : String} (h : PlainName name) :
    ∀ c ∈ name.toList, staysInName c = true := by
  intro c hc
  have hdot : c ≠ '.' := by
    rintro rfl
    exact h.1 hc
  have hbracket : c ≠ '[' := by
    rintro rfl
    exact h.2 hc
  simp [staysInName, hdot, hbracket]

/-- Every step begins where a name ends. -/
theorem head_chars (l : Location) :
    ∀ c ∈ (l.flatMap Segment.chars).head?, staysInName c = false := by
  intro c hc
  rcases l with _ | ⟨s, l⟩
  · simp at hc
  · cases s with
    | key name =>
      obtain rfl : '.' = c := by simpa [Segment.chars] using hc
      decide
    | index i =>
      obtain rfl : '[' = c := by simpa [Segment.chars] using hc
      decide

theorem digits_inj {i j : Nat} (h : digits i = digits j) : i = j := by
  rw [← ofDigits_digits i, h, ofDigits_digits j]

/-- **The characters of plain steps tell the steps apart.** -/
theorem Segment.chars_inj {l l' : Location} (hl : l.Plain) (hl' : l'.Plain)
    (h : l.flatMap Segment.chars = l'.flatMap Segment.chars) : l = l' := by
  induction l generalizing l' with
  | nil =>
    rcases l' with _ | ⟨s', l'⟩
    · rfl
    · cases s' <;> simp [Segment.chars] at h
  | cons s l ih =>
    rcases l' with _ | ⟨s', l'⟩
    · cases s <;> simp [Segment.chars] at h
    obtain ⟨hs, hrest⟩ := Location.plain_cons.mp hl
    obtain ⟨hs', hrest'⟩ := Location.plain_cons.mp hl'
    rw [List.flatMap_cons, List.flatMap_cons] at h
    cases s with
    | key name =>
      cases s' with
      | key name' =>
        obtain ⟨-, h⟩ := List.cons.inj h
        obtain ⟨hname, hbehind⟩ :=
          Text.block_append_inj hs.stays hs'.stays (head_chars l) (head_chars l') h
        rw [String.toList_injective hname, ih hrest hrest' hbehind]
      | index j => simp [Segment.chars] at h
    | index i =>
      cases s' with
      | key name' => simp [Segment.chars] at h
      | index j =>
        -- the digits end at the closing bracket
        have hopened : digits i ++ ']' :: l.flatMap Segment.chars =
            digits j ++ ']' :: l'.flatMap Segment.chars := by
          simpa [Segment.chars] using h
        obtain ⟨hdigits, hclosed⟩ := Text.block_append_inj
          (allDigits_digits _) (allDigits_digits _)
          (by simp) (by simp) hopened
        rw [digits_inj hdigits, ih hrest hrest' (List.cons.inj hclosed).2]

namespace Location

/-- A path that has begun goes on with the characters of each step. -/
theorem toList_foldl_append {l : Location} (hl : l.Plain) {path : String}
    (hpath : path ≠ "") :
    (l.foldl append path).toList = path.toList ++ l.flatMap Segment.chars := by
  induction l generalizing path with
  | nil => simp
  | cons s l ih =>
    obtain ⟨hs, hrest⟩ := Location.plain_cons.mp hl
    have hstep : (append path s).toList = path.toList ++ s.chars := by
      cases s with
      | key name =>
        have hname : name.toList.head? ≠ some '[' := by
          intro hhead
          exact hs.2 (List.mem_of_head? hhead)
        have hcut : (path.isEmpty || (Segment.key name).text.toList.head? == some '[') = false := by
          simp [Segment.text, hpath, hname]
        rw [append, if_neg (by simp [hcut])]
        simp [Segment.text, Segment.chars]
      | index i => simp [append, Segment.text, Segment.chars, digits]
    have hbegun : append path s ≠ "" := by
      intro hempty
      rw [hempty] at hstep
      simp_all
    rw [List.foldl_cons, ih hrest hbegun, hstep, List.flatMap_cons, List.append_assoc]

/-- A location that begins with a name, and ends there if the name is empty. -/
def Opens (l : Location) : Prop :=
  ∃ name rest, l = .key name :: rest ∧ (name = "" → rest = [])

theorem opens_key {name : String} (hname : name ≠ "") (rest : Location) :
    Opens (.key name :: rest) :=
  ⟨name, rest, rfl, fun h => absurd h hname⟩

theorem toList_text {name : String} {rest : Location} (hname : name = "" → rest = [])
    (hrest : Plain rest) :
    (text (.key name :: rest)).toList = name.toList ++ rest.flatMap Segment.chars := by
  have hjoined : text (.key name :: rest) = rest.foldl append name := by
    simp [text, joined, append, Segment.text]
  rw [hjoined]
  by_cases hempty : name = ""
  · rw [hname hempty]
    simp
  · exact toList_foldl_append hrest hempty

/-- **Plain locations with the same text are the same.** -/
theorem text_inj {l l' : Location} (hl : l.Plain) (hl' : l'.Plain)
    (hopens : l.Opens) (hopens' : l'.Opens) (h : l.text = l'.text) : l = l' := by
  obtain ⟨name, rest, rfl, hname⟩ := hopens
  obtain ⟨name', rest', rfl, hname'⟩ := hopens'
  obtain ⟨hfirst, hrest⟩ := Location.plain_cons.mp hl
  obtain ⟨hfirst', hrest'⟩ := Location.plain_cons.mp hl'
  have hchars : name.toList ++ rest.flatMap Segment.chars =
      name'.toList ++ rest'.flatMap Segment.chars := by
    rw [← toList_text hname hrest, h, toList_text hname' hrest']
  obtain ⟨hnames, hsteps⟩ := Text.block_append_inj (PlainName.stays hfirst)
    (PlainName.stays hfirst') (head_chars rest) (head_chars rest') hchars
  rw [String.toList_injective hnames, Segment.chars_inj hrest hrest' hsteps]

end Location

/-! ### Reports -/

/-- Where no path is reported twice, every violation is found by its path. -/
theorem Violations.at?_path {vs : Violations} (h : (vs.map Violation.path).Nodup)
    {x : Violation} (hx : x ∈ vs) : vs.at? x.path = some x := by
  have hsome : (vs.at? x.path).isSome = true :=
    List.find?_isSome.mpr ⟨x, hx, beq_self_eq_true x.path⟩
  obtain ⟨y, hy⟩ := Option.isSome_iff_exists.mp hsome
  have hpath : y.path = x.path := by simpa using List.find?_some hy
  have hmem : y ∈ vs := List.mem_of_find?_eq_some hy
  rw [hy, List.inj_on_of_nodup_map h hmem hx hpath]

namespace Validation

open Survey

/-! ### Where something is found -/

theorem plainNames_of_given {members : Json.Members}
    (h : (Json.object members).PlainNames) {name : String} {v : Json}
    (hgiven : given members name = some v) : v.PlainNames :=
  (h.of_member (mem_of_given hgiven)).2

/-- The names that have a meaning are plain. -/
theorem plainName_of_field {q : Part} {name : String} {form : Form}
    (h : (name, form) ∈ q.fields) : PlainName name ∧ name ≠ "" := by
  have hkeys : ∀ key ∈ q.keys, PlainName key ∧ key ≠ "" := by
    cases q <;> decide
  exact hkeys name (Part.mem_keys h)

/-- A leaf is at fault as a whole, or one of its items is. -/
theorem plainLocation_leaf {l : Leaf} {v : Option Json} {f : Finding} (hf : f ∈ l.findings v) :
    f.location.Plain := by
  have hwhole : f.location = [] → f.location.Plain := by
    intro hlocation
    rw [hlocation]
    exact Location.plain_nil
  cases l with
  | texts =>
    rcases v with _ | v
    · simp [Leaf.findings, texts] at hf
    cases v with
    | array items =>
      change f ∈ (textItems 0 items).findings at hf
      rw [findings_textItems, mem_gather] at hf
      obtain ⟨b, hb, f', hf', rfl⟩ := hf
      obtain ⟨e, -, rfl⟩ := List.mem_map.mp hb
      have hitem : f'.location = [] := by
        unfold itemFindings at hf'
        split at hf' <;> simp_all
      simp [hitem, Segment.Plain]
    | _ => exact hwhole (congrArg Finding.location (List.mem_singleton.mp hf))
  | identifier =>
    apply hwhole
    unfold Leaf.findings identifier at hf
    repeat' split at hf
    all_goals simp_all
  | _ => exact hwhole (location_leaf (by simp) (by simp) hf)

/-- A field is found at fault at plain places if the parts below it are. -/
theorem plainLocation_form {form : Form} {v : Option Json}
    (hv : ∀ x, v = some x → x.PlainNames)
    (hpart : ∀ q, form = .part q → ∀ m, (Json.object m).PlainNames →
      ∀ f ∈ q.findings m, f.location.Plain)
    (hentry : form = .environment → ∀ m, (Json.object m).PlainNames →
      ∀ f ∈ Part.entry.findings m, f.location.Plain)
    {f : Finding} (hf : f ∈ form.findings v) : f.location.Plain := by
  cases form with
  | leaf l => exact plainLocation_leaf hf
  | part q =>
    rcases mem_formPart.mp hf with ⟨m, rfl, hf⟩ | ⟨x, -, -, rfl⟩
    · exact hpart q rfl m (hv _ rfl) f hf
    · simp
  | environment =>
    rcases mem_environment.mp hf with ⟨x, -, -, -, rfl⟩ | ⟨entries, i, x, rfl, hi, f', hf', rfl⟩ |
      ⟨m, key, x, rfl, hmem, f', hf', rfl⟩
    · simp
    · have hx : x.PlainNames := (hv _ rfl).of_item (List.mem_of_getElem? hi)
      rw [Finding.location_under, Location.plain_cons]
      refine ⟨trivial, ?_⟩
      rcases mem_environmentEntry.mp hf' with ⟨m, rfl, hf'⟩ | ⟨-, rfl⟩
      · exact hentry rfl m hx f' hf'
      · simp
    · have hkey : PlainName key := ((hv _ rfl).of_member hmem).1
      rw [Finding.location_under, Location.plain_cons]
      refine ⟨hkey, ?_⟩
      rcases mem_environmentMember.mp hf' with ⟨-, rfl⟩ | ⟨-, -, rfl⟩ <;> simp

/-- **Where names are plain, so is every step to a finding.** -/
theorem plainLocation_part (q : Part) : ∀ m, (Json.object m).PlainNames →
    ∀ f ∈ q.findings m, f.location.Plain := by
  induction q using Part.induction with
  | step q ihpart ihentry =>
    intro m hm f hf
    rcases mem_part.mp hf with ⟨name, hname, rfl⟩ | ⟨name, form, hfield, f', hf', rfl⟩ | hf
    · obtain ⟨⟨name', v⟩, hmem, rfl⟩ := List.mem_map.mp (List.mem_filter.mp hname).1
      have hplain : PlainName name' := (hm.of_member hmem).1
      simpa [Segment.Plain] using hplain
    · rw [Finding.location_under, Location.plain_cons]
      refine ⟨(plainName_of_field hfield).1, ?_⟩
      refine plainLocation_form (fun x => plainNames_of_given hm) ?_ ?_ hf'
      · rintro q' rfl
        exact ihpart name q' hfield
      · rintro rfl
        exact ihentry name hfield
    · have hkeys : PlainName "key" ∧ PlainName "minCapacity" := by decide
      rcases mem_tail_location hf with hlocation | hlocation
      · simpa [hlocation, Segment.Plain] using hkeys.1
      · simpa [hlocation, Segment.Plain] using hkeys.2

/-- Nothing is found below a member of the root whose name is empty. -/
theorem opens_surveyRequest {m : Json.Members} {f : Finding}
    (hf : f ∈ (surveyRequest (.object m)).findings) : f.location.Opens := by
  rw [findings_surveyRequest] at hf
  rcases List.mem_append.mp hf with hf | hf
  · obtain ⟨-, rfl⟩ := mem_statusFindings.mp hf
    exact Location.opens_key (by decide) []
  rcases mem_part.mp hf with ⟨name, -, rfl⟩ | ⟨name, form, hfield, f', -, rfl⟩ | hf
  · exact ⟨name, [], rfl, fun _ => rfl⟩
  · exact Location.opens_key (plainName_of_field hfield).2 f'.location
  · simp [Part.tail] at hf

theorem plainLocation_surveyRequest {m : Json.Members} (hm : (Json.object m).PlainNames)
    {f : Finding} (hf : f ∈ (surveyRequest (.object m)).findings) : f.location.Plain := by
  rw [findings_surveyRequest] at hf
  rcases List.mem_append.mp hf with hf | hf
  · have hstatus : PlainName statusKey := by decide
    obtain ⟨-, rfl⟩ := mem_statusFindings.mp hf
    simpa [Segment.Plain] using hstatus
  · exact plainLocation_part .request m hm f hf

/-! ### Reports -/

/-- What is found at different paths is reported at different paths. -/
theorem nodup_paths {found : List Finding} (h : (found.map fun f => f.location.text).Nodup)
    (p : Policy) : ((found.filterMap (Finding.violation? p)).map Violation.path).Nodup := by
  have hpaths : (found.filterMap (Finding.violation? p)).map Violation.path =
      (found.filter fun f => f.fault.counts p).map fun f => f.location.text := by
    induction found with
    | nil => rfl
    | cons f found ih =>
      have hpaths := ih (List.nodup_cons.mp h).2
      by_cases hcounts : f.fault.counts p = true
      · simp [Finding.violation?, hcounts, hpaths]
      · simp [Finding.violation?, hcounts, hpaths]
  rw [hpaths]
  exact h.sublist (List.filter_sublist.map _)

/-- **No place is reported twice.**  If no name in an input contains a dot or an opening
    bracket, the violations have paths of their own, so that each of them is found by its
    path. -/
theorem validateRequest_paths (p : Policy) {v : Json} (hv : v.WellFormed)
    (hnames : v.PlainNames) :
    ((validateRequest p v).violations.map Violation.path).Nodup ∧
    ∀ x ∈ (validateRequest p v).violations,
      (validateRequest p v).violations.at? x.path = some x := by
  have hlocations : ((surveyRequest v).findings.map fun f => f.location.text).Nodup := by
    cases v with
    | object m =>
      have hplaces := nodup_surveyRequest hv
      have hfindings : (surveyRequest (.object m)).findings.Nodup := hplaces.of_map _
      refine hfindings.map_on ?_
      intro f hf g hg htext
      have hplain := plainLocation_surveyRequest hnames hf
      have hplain' := plainLocation_surveyRequest hnames hg
      have hlocation : f.location = g.location :=
        Location.text_inj hplain hplain' (opens_surveyRequest hf) (opens_surveyRequest hg) htext
      exact List.inj_on_of_nodup_map hplaces hf hg hlocation
    | _ => exact List.nodup_singleton _
  have hpaths : ((validateRequest p v).violations.map Violation.path).Nodup := by
    rw [validateRequest, violations_judge]
    exact nodup_paths hlocations p
  exact ⟨hpaths, fun x hx => Violations.at?_path hpaths hx⟩

/-- A variable without a name is found by its path, beside a member without one. -/
theorem validateRequest_paths_emptyNames :
    ∃ v : Json, v.WellFormed ∧ v.PlainNames ∧
      ((validateRequest .strict v).violations.map Violation.path).Nodup ∧
      (validateRequest .strict v).violations.at? "containerConfig.environment." =
        some ⟨"containerConfig.environment.", .shape, "must contain at least 1 character"⟩ := by
  let v : Json := .object [
    ("", .null),
    ("containerConfig", .object [("environment", .object [("", .null)])])]
  have hv : v.WellFormed := by
    have hlt : "" < "containerConfig" := by decide
    refine ⟨List.pairwise_pair.mpr hlt, ?_⟩
    simp [Json.WellFormed, Json.MembersWellFormed, Entries.Ascending]
  have hnames : v.PlainNames := by decide
  obtain ⟨hpaths, hfound⟩ := validateRequest_paths .strict hv hnames
  have hmem : (⟨"containerConfig.environment.", .shape, "must contain at least 1 character"⟩ :
      Violation) ∈ (validateRequest .strict v).violations := by
    decide
  exact ⟨v, hv, hnames, hpaths, hfound _ hmem⟩

/-- A name with a dot leads where a member of a member does. -/
example : (validateRequest .strict (.object [
    ("containerConfig", .object [("cpu", .null)]),
    ("containerConfig.cpu", .null)])).violations.countP
      (fun x => x.path == "containerConfig.cpu") = 2 := by
  decide

end Validation

end ModelCatalog
