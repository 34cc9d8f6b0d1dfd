/-
  ModelCatalog/Proofs/Validation/Counts.lean
  ==========================================
  **A count is taken for exactly the number that is written, or refused.**

  What is found with a count depends on the double that is denoted only as a number, and
  for an integer on nothing but the integer: it is rounded to an integer, and not over a
  bound (`findings_of_integer`).  The table says where the counts are (`LeafAt`), and what
  is found with one of them is what is held against its place, the order of bounds apart.
-/
import ModelCatalog.Proofs.Validation.CapacityOrder
import ModelCatalog.Proofs.Validation.Regions

namespace ModelCatalog

namespace Validation

open Survey

variable {p : Policy} {root : Json.Members} {least : Nat} {v : Json} {x : Double} {z : ℤ}

/-! ### What is found with an integer -/

/-- **An integer is found at fault for what it is, however it is written.** -/
theorem findings_of_integer (hleast : least ≤ 1) (h : WritesInteger v z) (hx : x.IsNearest z)
    (hfinite : x.isFinite = true) :
    (Leaf.count least).findings (some v) =
      if z < least then [⟨[], .tooSmall least⟩]
      else if z ≤ 4294967295 then [] else [⟨[], .tooLarge⟩] := by
  obtain ⟨y, hread, -, hvalue⟩ := (h.denotes hx).double?_eq_some hfinite
  replace hvalue := hvalue (isFinite_of_double? hread)
  by_cases hlt : z < least
  · -- the integer below the least one is a double
    have hbelow : x.value ≤ ((least - 1 : ℤ) : ℚ) :=
      hx.le_integer (by omega) (Int.cast_le.mpr (by omega))
    have hless : y.value < least := by
      rw [hvalue]
      push_cast at hbelow
      linarith
    rw [if_pos hlt, findings_count_below hread hleast hless]
  rw [if_neg hlt]
  have hle : least ≤ y.value := by
    rw [hvalue]
    exact hx.integer_le (by omega) (Int.cast_le.mpr (not_lt.mp hlt))
  by_cases hmax : z ≤ 4294967295
  · have hz : x.value = z := hx.value_eq_integer (by omega)
    rw [findings_count_whole hread hleast hle (hvalue.trans hz)]
  · obtain ⟨w, hw⟩ := hx.whole
    have hlarge : ¬ w ≤ 4294967295 := by
      have habove : ((4294967296 : ℤ) : ℚ) ≤ x.value :=
        hx.integer_le (by decide) (Int.cast_le.mpr (by omega))
      rw [hw] at habove
      have habove' : 4294967296 ≤ w := by exact_mod_cast habove
      omega
    rw [findings_count_whole hread hleast hle (hvalue.trans hw), if_neg hlarge, if_neg hmax]

/-! ### Where the counts are -/

/-- Names on the way from a part to one of its leaves, or to one of the parts below it. -/
inductive LeafAt : Part → List String → Leaf → Prop
  | field {q : Part} {name : String} {leaf : Leaf} (h : (name, .leaf leaf) ∈ q.fields) :
      LeafAt q [name] leaf
  | part {q q' : Part} {name : String} {path : List String} {leaf : Leaf}
      (hfield : (name, .part q') ∈ q.fields) (h : LeafAt q' path leaf) :
      LeafAt q (name :: path) leaf

/-- The least number that a count takes is zero or one. -/
theorem LeafAt.least_le_one {q : Part} {path : List String} (h : LeafAt q path (.count least)) :
    least ≤ 1 := by
  generalize hleaf : Leaf.count least = leaf at h
  induction h with
  | field hfield =>
    subst hleaf
    exact Part.least_le_one _ _ _ hfield
  | part _ _ ih => exact ih hleaf

/-- Only an object gives something below itself. -/
theorem exists_object_of_givenAt {v' : Option Json} {name : String} {path : List String}
    (h : givenAt v' (name :: path) = some v) : ∃ m, v' = some (.object m) := by
  rcases v' with _ | x
  · cases h
  cases x with
  | object m => exact ⟨m, rfl⟩
  | _ => cases h

/-- What is given at a leaf is given in a visited object, for a field of it. -/
theorem LeafAt.exists_visited {q : Part} {path : List String} {leaf : Leaf}
    (h : LeafAt q path leaf) {l : Location} {m : Json.Members} (hvisited : Visited root l q m)
    (hgiven : givenAt (some (.object m)) path = some v) :
    ∃ l' q' m' name, l ++ path.map .key = l' ++ [.key name] ∧ Visited root l' q' m' ∧
      (name, .leaf leaf) ∈ q'.fields ∧ given m' name = some v := by
  induction h generalizing l m with
  | @field q name leaf hfield => exact ⟨l, q, m, name, rfl, hvisited, hfield, hgiven⟩
  | @part q q' name path leaf hfield h ih =>
    rw [givenAt_object] at hgiven
    obtain ⟨m', hm'⟩ : ∃ m', given m name = some (.object m') := by
      cases h <;> exact exists_object_of_givenAt hgiven
    rw [hm'] at hgiven
    obtain ⟨l', q'', m'', name', hplace, hfound⟩ := ih (.part hvisited hfield hm') hgiven
    refine ⟨l', q'', m'', name', ?_, hfound⟩
    rw [← hplace, List.map_cons, List.append_assoc, List.singleton_append]

/-! What is a count in the table is one in every request. -/

/-- The leaves below a part, down to a depth. -/
def Part.leaves : Nat → Part → List (List String × Leaf)
  | 0, _ => []
  | depth + 1, q => q.fields.flatMap fun f =>
    match f.2 with
    | .leaf leaf => [([f.1], leaf)]
    | .part q' => (leaves depth q').map fun e => (f.1 :: e.1, e.2)
    | .environment => []

theorem LeafAt.mem_leaves {q : Part} {path : List String} {leaf : Leaf}
    (h : LeafAt q path leaf) {depth : Nat} (hdepth : q.rank ≤ depth) :
    (path, leaf) ∈ q.leaves depth := by
  induction h generalizing depth with
  | @field q name leaf hfield =>
    have hrank := q.rank_lt _ hfield
    obtain ⟨depth, rfl⟩ := Nat.exists_eq_succ_of_ne_zero (show depth ≠ 0 by omega)
    exact List.mem_flatMap.mpr ⟨_, hfield, List.mem_singleton_self _⟩
  | @part q q' name path leaf hfield _ ih =>
    have hrank : q'.rank < q.rank := q.rank_lt _ hfield
    obtain ⟨depth, rfl⟩ := Nat.exists_eq_succ_of_ne_zero (show depth ≠ 0 by omega)
    have hbelow : (path, leaf) ∈ q'.leaves depth := ih (by omega)
    exact List.mem_flatMap.mpr ⟨_, hfield, List.mem_map.mpr ⟨_, hbelow, rfl⟩⟩

/-- The path of a leaf, and whether it is a count. -/
def countMark (l : List String × LeafValue) : List String × Bool :=
  (l.1, match l.2 with | .count _ => true | _ => false)

/-- Every request has its counts at the same paths. -/
theorem countMarks_leaves (r : ModelRequest) :
    r.leaves.map countMark = ({} : ModelRequest).leaves.map countMark := rfl

/-- **Where the table has a count, every request has one.** -/
theorem LeafAt.exists_count {path : List String} (h : LeafAt .request path (.count least))
    (r : ModelRequest) : ∃ n, r.leaf? path = some (.count n) := by
  have hmarks : ∀ e ∈ Part.request.leaves 4, (∃ least ≤ 1, e.2 = .count least) →
      (e.1, true) ∈ ({} : ModelRequest).leaves.map countMark := by
    decide +kernel
  have hmark := hmarks _ (h.mem_leaves (Nat.le_refl _)) ⟨least, h.least_le_one, rfl⟩
  rw [← countMarks_leaves r] at hmark
  obtain ⟨⟨path, value⟩, hmem, heq⟩ := List.mem_map.mp hmark
  obtain ⟨rfl, hcount⟩ := Prod.mk.inj heq
  cases value with
  | count n => exact ⟨n, ModelRequest.leaf?_eq_some_iff.mpr hmem⟩
  | _ => cases hcount

/-- **A count of an accepted request is the natural number that is spelled.** -/
theorem LeafAt.spelled {path : List String} (h : LeafAt .request path (.count least))
    (hgiven : givenAt (some (.object root)) path = some v) {r : ModelRequest}
    (hr : (validateRequest p (.object root)).outcome = .ok r) :
    ∃ n : UInt32, r.leaf? path = some (.count n) ∧ SpellsNat v n.toNat := by
  obtain ⟨n, hvalue⟩ := h.exists_count r
  have hpath : path ∈ ModelRequest.paths := by
    rw [← r.paths_leaves]
    exact List.mem_map_of_mem (f := Prod.fst) (ModelRequest.leaf?_eq_some_iff.mp hvalue)
  obtain ⟨hmerged, -⟩ := validateRequest_merges hr
  obtain ⟨value, hvalue', -, hdecoded⟩ := hmerged path hpath
  obtain rfl : value = .count n := Option.some.inj (hvalue'.symm.trans hvalue)
  refine ⟨n, hvalue, ?_⟩
  cases hdecoded v hgiven with
  | count hspelled => exact hspelled

/-- A natural number is spelled by what denotes it. -/
theorem Denotes.value_eq (h : Denotes v x) {n : Nat} (hn : n < 2 ^ 53) (hspelled : SpellsNat v n) :
    x.value = n := by
  obtain ⟨y, hread, hnatural⟩ := hspelled.exists_double? hn
  obtain ⟨hfinite, hvalue⟩ := Double.natural?_eq_some_iff.mp hnatural
  obtain ⟨y', hread', hsame⟩ := h.exists_double?
  rw [hread, eq_comm] at hread'
  obtain ⟨hsome, -⟩ := Option.filter_eq_some_iff.mp hread'
  obtain rfl : y' = y := Option.some.inj hsome
  exact (hsame.2 hfinite).symm.trans hvalue

/-! ### What is held against a count -/

theorem isOrder_of_mem_tail {q : Part} {m : Json.Members} {name : String}
    (hfield : (name, .leaf (.count least)) ∈ q.fields) {f : Finding} (hf : f ∈ q.tail m) :
    f.fault.IsOrder := by
  cases q with
  | scaling =>
    obtain ⟨-, -, rfl⟩ := mem_orderFindings.mp hf
    exact ⟨_, _, rfl⟩
  | entry => simp [Part.fields] at hfield
  | _ => simp [Part.tail] at hf

/-- What is found at a count or below it is found with what is given for it, or it says at
    the same place that bounds are out of order. -/
theorem mem_region_count {l : Location} {q : Part} {m : Json.Members} {name : String}
    (h : Visited root l q m) (hfield : (name, .leaf (.count least)) ∈ q.fields)
    (hgiven : given m name = some v) {f : Finding}
    (hf : f ∈ (surveyRequest (.object root)).findings)
    (hplace : l ++ [.key name] <+: f.location) :
    (∃ g ∈ (Leaf.count least).findings (some v), f = ⟨l ++ .key name :: g.location, g.fault⟩) ∨
      f.location = l ++ [.key name] ∧ f.fault.IsOrder := by
  obtain ⟨g, hg, hprefix, rfl⟩ := (h.mem_within_iff (Part.mem_keys hfield)).mp ⟨hf, hplace⟩
  rcases mem_findings_field hfield hg hprefix with ⟨g', hg', rfl⟩ | htail
  · left
    rw [hgiven] at hg'
    exact ⟨g', hg', rfl⟩
  · right
    have horder : g.fault.IsOrder := isOrder_of_mem_tail hfield htail
    have hlength : g.location.length = 1 := by
      rcases mem_tail_location htail with hlocation | hlocation <;> simp [hlocation]
    have hlocation : [.key name] = g.location := hprefix.eq_of_length hlength.symm
    exact ⟨congrArg (l ++ ·) hlocation.symm, horder⟩

/-- A count without a finding has nothing held against it but the order of bounds, if a
    policy asks for it. -/
theorem order_of_findings_nil {l : Location} {q : Part} {m : Json.Members}
    {name : String} (h : Visited root l q m) (hfield : (name, .leaf (.count least)) ∈ q.fields)
    (hgiven : given m name = some v) (hfound : (Leaf.count least).findings (some v) = []) :
    ∀ x ∈ violationsWithin p (l ++ [.key name]) (.object root),
      p.enforceCapacityOrder = true ∧ x.IsCapacityOrder := by
  intro x hx
  obtain ⟨f, hf, hviolation⟩ := List.mem_filterMap.mp hx
  obtain ⟨hmem, hplace⟩ := List.mem_filter.mp hf
  obtain ⟨hcounts, heq⟩ := Option.ite_none_right_eq_some.mp hviolation
  obtain rfl := Option.some.inj heq
  rcases mem_region_count h hfield hgiven hmem (by simpa using hplace) with ⟨g, hg, -⟩ |
    ⟨-, horder⟩
  · simp [hfound] at hg
  · refine ⟨?_, prefix_reason_iff.mpr horder⟩
    obtain ⟨most, masked, hfault⟩ := horder
    rw [hfault] at hcounts
    exact (Bool.and_eq_true _ _ ▸ hcounts).1

/-- **What is found with a count is all that is held against it**: bounds at fault are not
    compared. -/
theorem violationsWithin_of_findings {l : Location} {q : Part} {m : Json.Members}
    {name : String} (hroot : (Json.object root).WellFormed) (h : Visited root l q m)
    (hfield : (name, .leaf (.count least)) ∈ q.fields) (hgiven : given m name = some v)
    {fault : Fault} (hfound : (Leaf.count least).findings (some v) = [⟨[], fault⟩]) :
    violationsWithin p (l ++ [.key name]) (.object root) =
        [⟨Location.text (l ++ [.key name]), fault.kind, fault.reason⟩] ∧
      ¬ fault.IsOrder := by
  have hg : ⟨[], fault⟩ ∈ (Leaf.count least).findings (some v) := by simp [hfound]
  have hmem : (⟨l ++ [.key name], fault⟩ : Finding) ∈ (surveyRequest (.object root)).findings := by
    apply h.finding
    exact mem_part.mpr (Or.inr (Or.inl ⟨name, _, hfield, _, hgiven ▸ hg, rfl⟩))
  have hcertain : fault.Certain := certain_leaf (by simp) (some v) _ hg
  have honly : ∀ f ∈ (surveyRequest (.object root)).findings,
      l ++ [.key name] <+: f.location → f = ⟨l ++ [.key name], fault⟩ := by
    intro f hf hplace
    rcases mem_region_count h hfield hgiven hf hplace with ⟨g, hg, rfl⟩ | ⟨hlocation, -⟩
    · rw [hfound, List.mem_singleton] at hg
      rw [hg]
    · exact List.inj_on_of_nodup_map (nodup_surveyRequest hroot) hf hmem hlocation
  have hviolation : (⟨l ++ [.key name], fault⟩ : Finding).violation? p =
      some ⟨Location.text (l ++ [.key name]), fault.kind, fault.reason⟩ := if_pos (hcertain p)
  refine ⟨?_, Fault.Plain.not_order (Or.inr hcertain)⟩
  rw [violationsWithin, filter_eq_singleton hroot hmem List.prefix_rfl honly,
    List.filterMap_cons_some hviolation, List.filterMap_nil]

/-! ### Verdicts -/

/-- A count is taken as a number: nothing is held against its place but the order of bounds,
    what is reported is this and what is held against other places, and every accepted
    request has the number there. -/
structure TakesCount (p : Policy) (root : Json.Members) (path : List String) (q : ℚ) :
    Prop where
  unobjected : ∀ x ∈ violationsWithin p (path.map .key) (.object root),
    p.enforceCapacityOrder = true ∧ x.IsCapacityOrder
  reported : (violationsWithin p (path.map .key) (.object root) ++
    violationsOutside p (path.map .key) (.object root)).Perm
      (validateRequest p (.object root)).violations
  stored : ∀ r, (validateRequest p (.object root)).outcome = .ok r →
    ∃ n : UInt32, r.leaf? path = some (.count n) ∧ (n.toNat : ℚ) = q

/-- A count is refused: one violation is held against its place, which is not about the
    order of bounds, and what is reported is this one and what is held against other
    places. -/
def RefusesCount (p : Policy) (root : Json.Members) (path : List String) (kind : ViolationKind)
    (reason : String) : Prop :=
  let x : Violation := ⟨Location.text (path.map .key), kind, reason⟩
  violationsWithin p (path.map .key) (.object root) = [x] ∧ ¬ x.IsCapacityOrder ∧
    (x :: violationsOutside p (path.map .key) (.object root)).Perm
      (validateRequest p (.object root)).violations

/-- What is found with a count decides whether it is taken, and what it is refused for. -/
theorem count_verdict (p : Policy) (hroot : (Json.object root).WellFormed) {path : List String}
    (hpath : LeafAt .request path (.count least))
    (hgiven : givenAt (some (.object root)) path = some v) (h : Denotes v x) :
    ((Leaf.count least).findings (some v) = [] → TakesCount p root path x.value) ∧
    ∀ fault, (Leaf.count least).findings (some v) = [⟨[], fault⟩] →
      RefusesCount p root path fault.kind fault.reason := by
  obtain ⟨l, q, m, name, hplace, hvisited, hfield, hv⟩ := hpath.exists_visited .root hgiven
  rw [List.nil_append] at hplace
  constructor
  · intro hfound
    refine ⟨?_, perm_violations p _ _, ?_⟩
    · rw [hplace]
      exact order_of_findings_nil hvisited hfield hv hfound
    · intro r hr
      obtain ⟨n, hleaf, hspelled⟩ := hpath.spelled hgiven hr
      have hsmall : n.toNat < 2 ^ 53 := Nat.lt_trans n.toNat_lt (by decide)
      exact ⟨n, hleaf, (h.value_eq hsmall hspelled).symm⟩
  · intro fault hfound
    obtain ⟨hviolations, horder⟩ :=
      violationsWithin_of_findings (p := p) hroot hvisited hfield hv hfound
    have hreport := perm_violations p (l ++ [.key name]) (.object root)
    rw [hviolations] at hreport
    rw [RefusesCount, hplace]
    exact ⟨hviolations, mt prefix_reason_iff.mp horder, hreport⟩

/-- **A count is taken for exactly the number that is written, or refused.**

    Whatever else is submitted, and under every policy, a double is taken if it is a whole
    number within bounds, and then an accepted request has just this number.  Any other is
    refused by one violation, which is about the range exactly if it is finite.  Integers are
    taken and refused for what they are, however they are written, as long as the double
    nearest to them is finite. -/
theorem validateRequest_count (p : Policy) (hroot : (Json.object root).WellFormed)
    {path : List String} (hpath : LeafAt .request path (.count least))
    (hgiven : givenAt (some (.object root)) path = some v) :
    least ≤ 1 ∧
    (∀ x, Denotes v x →
      (x.IsCount least → TakesCount p root path x.value) ∧
      (¬ x.IsCount least →
        ∃ reason, RefusesCount p root path (if x.isFinite then .range else .shape) reason)) ∧
    ∀ (z : ℤ) (x : Double), WritesInteger v z → x.IsNearest z → x.isFinite = true →
      (z < least → RefusesCount p root path .range (Fault.tooSmall least).reason) ∧
      (least ≤ z ∧ z ≤ 4294967295 → TakesCount p root path z) ∧
      (4294967295 < z → RefusesCount p root path .range Fault.tooLarge.reason) := by
  have hleast := hpath.least_le_one
  refine ⟨hleast, ?_, ?_⟩
  · intro x h
    obtain ⟨htakes, hrefuses⟩ := count_verdict p hroot hpath hgiven h
    obtain ⟨hnone, hone⟩ := findings_count_of_denotes hleast h
    constructor
    · intro hcount
      exact htakes (hnone hcount)
    · intro hcount
      obtain ⟨fault, hfound, hkind⟩ := hone hcount
      rw [← hkind]
      exact ⟨fault.reason, hrefuses fault hfound⟩
  · intro z x hz hx hfinite
    obtain ⟨htakes, hrefuses⟩ := count_verdict p hroot hpath hgiven (hz.denotes hx)
    have hfound := findings_of_integer hleast hz hx hfinite
    refine ⟨?_, ?_, ?_⟩
    · intro hlt
      rw [if_pos hlt] at hfound
      exact hrefuses _ hfound
    · rintro ⟨hle, hmax⟩
      rw [if_neg (not_lt.mpr hle), if_pos hmax] at hfound
      have hvalue : x.value = z := hx.value_eq_integer (by omega)
      exact hvalue ▸ htakes hfound
    · intro hlt
      rw [if_neg (by omega), if_neg (not_le.mpr hlt)] at hfound
      exact hrefuses _ hfound

/-- A count is stored as the integer that is written, with a sign and zeros before it and
    white space around it. -/
theorem validateRequest_count_text :
    let root : Json.Members :=
      [("autoScalingConfig", .object [("maxCapacity", .string "\t+0042 ")])]
    let path := ["autoScalingConfig", "maxCapacity"]
    (Json.object root).WellFormed ∧ LeafAt .request path (.count 1) ∧
      givenAt (some (.object root)) path = some (.string "\t+0042 ") ∧
      WritesInteger (.string "\t+0042 ") 42 ∧
      ∃ r, (validateRequest {} (.object root)).outcome = .ok r ∧
        r.leaf? path = some (.count 42) := by
  intro root path
  have hroot : (Json.object root).WellFormed := by
    simp [root, Json.WellFormed, Json.MembersWellFormed, Entries.Ascending]
  have hscaling : ("autoScalingConfig", Form.part .scaling) ∈ Part.request.fields := by decide
  have hcount : ("maxCapacity", Form.leaf (.count 1)) ∈ Part.scaling.fields := by decide
  have hpath : LeafAt .request path (.count 1) := .part hscaling (.field hcount)
  have htext : "\t+0042 ".toList = ['\t'] ++ ((['+'] ++ "0042".toList) ++ [' ']) := by decide
  have hbefore : ∀ c ∈ ['\t'], Text.isBlank c = true := List.forall_mem_singleton.mpr rfl
  have hafter : ∀ c ∈ [' '], Text.isBlank c = true := List.forall_mem_singleton.mpr rfl
  have hwrites : WritesInteger (.string "\t+0042 ") 42 :=
    .text htext hbefore hafter .plus (by decide) (by decide)
  have hfinite : (Double.ofInt 42).isFinite = true := by decide +kernel
  obtain ⟨-, -, hinteger⟩ := validateRequest_count {} hroot hpath rfl
  obtain ⟨-, htakes, -⟩ := hinteger 42 _ hwrites (Double.isNearest_ofInt 42) hfinite
  obtain ⟨-, -, hstored⟩ := htakes (by decide)
  let r : ModelRequest := { descriptor := { scaling := { maxCapacity := 42 } } }
  have hr : (validateRequest {} (.object root)).outcome = .ok r := by decide +kernel
  obtain ⟨n, hleaf, hn⟩ := hstored r hr
  have hnat : n.toNat = 42 := by exact_mod_cast hn
  obtain rfl : n = 42 := UInt32.toNat_inj.mp hnat
  exact ⟨hroot, hpath, rfl, hwrites, r, hr, hleaf⟩

end Validation

end ModelCatalog
