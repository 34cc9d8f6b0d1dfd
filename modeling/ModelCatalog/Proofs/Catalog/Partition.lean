/-
  ModelCatalog/Proofs/Catalog/Partition.lean
  ==========================================
  **A listing is an exact, sorted partition of the models.**

  A listing is made in two loops: one makes room for each type that is wanted, and one
  puts each model under its type, if there is room.  What they come to is one list for each
  type (`list_eq`): under a type stand the identifiers of its models and no others
  (`mem_idsOf_iff`), in the order in which the catalog holds them, which is that of their
  octets (`pairwise_idsOf`).  Every model has one of the two types, so the lists of a full
  listing make up the whole catalog (`sum_list_all`).  Which types are wanted decides
  only which of these lists are shown (`list_eq_filter`).
-/
import Mathlib.Algebra.Ring.Nat
import ModelCatalog.Proofs.Catalog.History
import ModelCatalog.Proofs.Descriptor.Names
import ModelCatalog.Proofs.Text.Utf8

namespace ModelCatalog

def ModelRequest.modelType (r : ModelRequest) : ModelType := r.descriptor.modelType

/-! ### Room for the types -/

namespace Listing

/-- Room for some of the types, in their order. -/
def room (p : ModelType → Bool) : Listing :=
  ((Named.all : List ModelType).filter p).map fun t => (t, [])

theorem insert_room (t : ModelType) (p : ModelType → Bool) :
    (room p).insert t = room fun u => u == t || p u := by
  have hother : (ModelType.embedding == ModelType.textgen) = false := rfl
  cases t <;> cases htextgen : p .textgen <;> cases hembedding : p .embedding <;>
    simp [room, Named.all, insert, ModelType.before, List.filter, htextgen, hembedding, hother]

/-- **The first loop makes room for the types that are named**, however often they are. -/
theorem foldl_insert (types : List ModelType) (p : ModelType → Bool) :
    types.foldl (fun (l : Listing) t => l.insert t) (room p) =
      room fun u => types.contains u || p u := by
  induction types generalizing p with
  | nil => simp [room]
  | cons t types ih =>
    rw [List.foldl_cons, insert_room, ih]
    congr 1
    funext u
    rw [List.contains_cons, Bool.or_left_comm, Bool.or_assoc]

/-! ### Models under their types -/

theorem keys_push (l : Listing) (t : ModelType) (id : String) :
    (l.push t id).map Prod.fst = l.map Prod.fst := by
  induction l with
  | nil => rfl
  | cons e rest ih =>
    unfold push
    split
    · rfl
    · rw [List.map_cons, List.map_cons, ih]

/-- One model is put behind those of its type, where there is room for the type once. -/
theorem push_eq_map {l : Listing} (h : (l.map Prod.fst).Nodup) (t : ModelType) (id : String) :
    l.push t id = l.map fun e => (e.1, e.2 ++ if e.1 = t then [id] else []) := by
  induction l with
  | nil => rfl
  | cons e rest ih =>
    obtain ⟨hfresh, hrest⟩ := List.nodup_cons.mp h
    unfold push
    split
    · rename_i htype
      -- the other types are not this one
      have hother : ∀ e' ∈ rest, (e'.1, e'.2 ++ if e'.1 = t then [id] else []) = e' := by
        intro e' he'
        have hne : e'.1 ≠ t := fun heq =>
          hfresh (heq.trans htype.symm ▸ List.mem_map_of_mem he')
        rw [if_neg hne, List.append_nil]
      rw [List.map_cons, if_pos htype, List.map_congr_left hother, List.map_id']
    · rename_i htype
      rw [List.map_cons, if_neg htype, List.append_nil, ih hrest]

end Listing

/-- The identifiers of the models of a type, in the order in which they are held. -/
def Catalog.idsIn (t : ModelType) (entries : Entries ModelRecord) : List String :=
  Entries.names (entries.filter fun e => e.2.request.descriptor.modelType == t)

/-- **The second loop puts every model under its type**, if there is room. -/
theorem Listing.foldl_push {l : Listing} (h : (l.map Prod.fst).Nodup)
    (entries : Entries ModelRecord) :
    entries.foldl (fun l e => l.push e.2.request.descriptor.modelType e.1) l =
      l.map fun e => (e.1, e.2 ++ Catalog.idsIn e.1 entries) := by
  induction entries generalizing l with
  | nil => simp [Catalog.idsIn, Entries.names]
  | cons e entries ih =>
    rw [List.foldl_cons, ih (by rwa [keys_push]), push_eq_map h, List.map_map]
    apply List.map_congr_left
    intro e' _
    have hcons : Catalog.idsIn e'.1 (e :: entries) =
        (if e'.1 = e.2.request.descriptor.modelType then [e.1] else []) ++
          Catalog.idsIn e'.1 entries := by
      by_cases htype : e'.1 = e.2.request.descriptor.modelType
      · simp [Catalog.idsIn, Entries.names, htype]
      · simp [Catalog.idsIn, Entries.names, htype, Ne.symm htype]
    rw [hcons, ← List.append_assoc]
    rfl

namespace Catalog

variable {c : Catalog} {wanted : List ModelType} {t : ModelType} {id : String}

/-! ### The models of a type -/

def idsOf (c : Catalog) (t : ModelType) : List String := idsIn t c.entries

/-- **A listing has one list for each type that is wanted**, or for each type. -/
theorem list_eq (c : Catalog) (wanted : List ModelType) :
    c.list wanted =
      ((Named.all : List ModelType).filter fun t => wanted.isEmpty || wanted.contains t).map
        fun t => (t, c.idsOf t) := by
  have hwanted : ∀ t, (if wanted.isEmpty then Named.all else wanted).contains t =
      (wanted.isEmpty || wanted.contains t) := by
    intro t
    cases wanted with
    | nil => simp [LawfulNamed.mem_all]
    | cons u us => rfl
  have hroom : (if wanted.isEmpty then Named.all else wanted).foldl
      (fun (l : Listing) t => l.insert t) [] =
        Listing.room fun t => wanted.isEmpty || wanted.contains t := by
    have hnone : ([] : Listing) = Listing.room fun _ => false := rfl
    rw [hnone, Listing.foldl_insert]
    simp only [hwanted, Bool.or_false]
  have hall : (Named.all : List ModelType).Nodup := by decide
  have hnodup : ((Listing.room fun t => wanted.isEmpty || wanted.contains t).map
      Prod.fst).Nodup := by
    simpa [Listing.room, Function.comp_def] using hall.filter _
  unfold list
  dsimp only
  rw [hroom, Listing.foldl_push hnodup, Listing.room, List.map_map]
  rfl

/-- **Under a type stand the identifiers of its models.** -/
theorem mem_idsOf_iff :
    id ∈ c.idsOf t ↔ ∃ record, c.get? id = some record ∧ record.request.modelType = t := by
  have hentry : ∀ record, c.get? id = some record ↔ (id, record) ∈ c.entries := by
    intro record
    exact c.ascending.get?_eq_some_iff
  constructor
  · intro h
    obtain ⟨e, he, rfl⟩ := List.mem_map.mp h
    obtain ⟨hmem, htype⟩ := List.mem_filter.mp he
    exact ⟨e.2, (hentry e.2).mpr hmem, beq_iff_eq.mp htype⟩
  · rintro ⟨record, hget, htype⟩
    have hkept : (id, record) ∈ c.entries.filter
        fun e => e.2.request.descriptor.modelType == t := by
      apply List.mem_filter.mpr
      exact ⟨(hentry record).mp hget, beq_iff_eq.mpr htype⟩
    exact List.mem_map_of_mem hkept

/-- They ascend, so each stands once. -/
theorem pairwise_idsOf (c : Catalog) (t : ModelType) :
    (c.idsOf t).Pairwise fun a b => Text.octets a < Text.octets b := by
  have hkept : (c.entries.filter fun e => e.2.request.descriptor.modelType == t).Pairwise
      fun a b => a.1 < b.1 := c.ascending.filter _
  have hnames : (c.idsOf t).Pairwise (· < ·) := List.pairwise_map.mpr hkept
  exact hnames.imp Text.octets_lt_iff.mpr

theorem describe_eq_ok_iff {record : ModelRecord} :
    c.describe id = .ok record ↔ c.get? id = some record := by
  unfold describe
  cases c.get? id <;> simp

/-! ### The types of a listing -/

theorem keys_list (c : Catalog) (wanted : List ModelType) :
    (c.list wanted).map Prod.fst =
      (Named.all : List ModelType).filter fun t => wanted.isEmpty || wanted.contains t := by
  simp [list_eq, Function.comp_def]

theorem mem_keys_list : t ∈ (c.list wanted).map Prod.fst ↔ wanted = [] ∨ t ∈ wanted := by
  rw [keys_list, List.mem_filter]
  simp [LawfulNamed.mem_all]

theorem nodup_keys_list (c : Catalog) (wanted : List ModelType) :
    ((c.list wanted).map Prod.fst).Nodup := by
  have hall : (Named.all : List ModelType).Nodup := by decide
  rw [keys_list]
  exact hall.filter _

theorem mem_list {ids : List String} (h : (t, ids) ∈ c.list wanted) : ids = c.idsOf t := by
  rw [list_eq] at h
  obtain ⟨t', -, heq⟩ := List.mem_map.mp h
  obtain ⟨rfl, rfl⟩ := Prod.mk.inj heq
  rfl

/-- What is wanted decides which types are shown, and nothing else. -/
theorem list_eq_filter (c : Catalog) (wanted : List ModelType) :
    c.list wanted = (c.list []).filter fun e => wanted.isEmpty || wanted.contains e.1 := by
  simp only [list_eq, List.isEmpty_nil, Bool.true_or, List.filter_true, List.filter_map]
  rfl

/-- Types that are wanted twice, or in another order, make no difference. -/
theorem list_congr {wanted' : List ModelType} (h : ∀ t, t ∈ wanted' ↔ t ∈ wanted) :
    c.list wanted' = c.list wanted := by
  have hempty : wanted'.isEmpty = wanted.isEmpty := by
    rw [Bool.eq_iff_iff, List.isEmpty_iff, List.isEmpty_iff, List.eq_nil_iff_forall_not_mem,
      List.eq_nil_iff_forall_not_mem]
    exact forall_congr' fun t => not_congr (h t)
  have hcontains : ∀ t, wanted'.contains t = wanted.contains t := by
    intro t
    rw [Bool.eq_iff_iff, List.contains_iff_mem, List.contains_iff_mem, h t]
  rw [list_eq_filter c wanted', list_eq_filter c wanted, hempty]
  simp only [hcontains]

/-- **The lists of all types make up the catalog.** -/
theorem sum_list_all (c : Catalog) : ((c.list []).map fun e => e.2.length).sum = c.size := by
  have hother : ∀ t : ModelType, (t == .embedding) = !(t == .textgen) := by
    intro t
    cases t <;> rfl
  have hlist : c.list [] = [(.textgen, c.idsOf .textgen), (.embedding, c.idsOf .embedding)] :=
    list_eq c []
  have hsplit := List.length_eq_length_filter_add (l := c.entries) fun e =>
    e.2.request.descriptor.modelType == .textgen
  simp [hlist, idsOf, idsIn, Entries.names, size, hsplit, hother]

/-! ### Listings and histories -/

/-- A model is listed under the type that it was registered with and not removed since. -/
theorem mem_idsOf_run_iff (ops : List Operation) :
    id ∈ (run ops).idsOf t ↔
      ∃ r since, Stands id (successes ops) r since ∧ r.modelType = t := by
  rw [mem_idsOf_iff]
  constructor
  · rintro ⟨record, hget, htype⟩
    obtain ⟨r, since, hstands⟩ := exists_stands ops hget
    obtain ⟨hheld, -⟩ := get?_run_of_stands ops hstands
    obtain rfl := Option.some.inj (hget.symm.trans hheld)
    exact ⟨r, since, hstands, htype⟩
  · rintro ⟨r, since, hstands, htype⟩
    obtain ⟨hheld, -⟩ := get?_run_of_stands ops hstands
    exact ⟨_, hheld, htype⟩

/-- **A listing is an exact, sorted partition of the models.**

    Its types are the wanted ones, or both if none is named, each once.  Under a type stand
    the identifiers of the models that are described with this type, each once, in the
    order of their octets; after a history these are the models whose standing
    registration has the type.  A full listing has as many identifiers as the catalog has
    models, any other one is its restriction to the types that are wanted, and it is the
    same whatever their order and however often they are named. -/
theorem list_partitions (c : Catalog) (wanted : List ModelType) :
    (∀ t, t ∈ (c.list wanted).map Prod.fst ↔ wanted = [] ∨ t ∈ wanted) ∧
    ((c.list wanted).map Prod.fst).Nodup ∧
    (∀ t ids, (t, ids) ∈ c.list wanted →
      ids.Pairwise (fun a b => Text.octets a < Text.octets b) ∧
      (∀ id, id ∈ ids ↔ ∃ record, c.describe id = .ok record ∧ record.request.modelType = t) ∧
      ∀ ops, c = run ops → ∀ id,
        id ∈ ids ↔ ∃ r since, Stands id (successes ops) r since ∧ r.modelType = t) ∧
    ((c.list []).map fun e => e.2.length).sum = c.size ∧
    c.list wanted = (c.list []).filter (fun e => wanted.isEmpty || wanted.contains e.1) ∧
    ∀ wanted', (∀ t, t ∈ wanted' ↔ t ∈ wanted) → c.list wanted' = c.list wanted := by
  refine ⟨fun t => mem_keys_list, nodup_keys_list c wanted, ?_, sum_list_all c,
    list_eq_filter c wanted, fun wanted' h => list_congr h⟩
  intro t ids h
  rw [mem_list h]
  refine ⟨pairwise_idsOf c t, ?_, ?_⟩
  · intro id
    simp only [describe_eq_ok_iff]
    exact mem_idsOf_iff
  · rintro ops rfl id
    exact mem_idsOf_run_iff ops

end Catalog

end ModelCatalog
