/-
  ModelCatalog/Catalog/Basic.lean
  ===============================
  **The registered models.**

  A catalog holds the record of every registered model under its identifier.  Three
  operations change it, and each says what it did in an event: a model is registered,
  its status is reported, it is removed.  An operation that fails changes nothing and
  makes no event, and those that only look make none.
-/
import ModelCatalog.Descriptor.Basic
import ModelCatalog.Failure

namespace ModelCatalog

/-! ### Events -/

inductive Event where
  | registered (id : String)
  | moved (id : String) (before after : Status)
  | removed (id : String)
deriving DecidableEq, Repr

def Event.message : Event → String
  | .registered id => "Registered model '" ++ id ++ "'"
  | .moved id before after =>
    if after.isTransitional then
      "Model '" ++ id ++ "' moving from " ++ Named.name before ++ " to " ++ Named.name after
    else
      "Model '" ++ id ++ "' settled in " ++ Named.name after ++
        " (was " ++ Named.name before ++ ")"
  | .removed id => "Removed model '" ++ id ++ "'"

/-! ### Catalogs -/

/-- The records of the registered models, each under its own identifier, in ascending
    order of the identifiers. -/
structure Catalog where
  entries : Entries ModelRecord
  ascending : entries.Ascending
  own : ∀ e ∈ entries, e.1 = e.2.id

/-- What an operation that succeeds leaves: the catalog, the record that it was
    about, and the event. -/
structure Change where
  catalog : Catalog
  record : ModelRecord
  event : Event

namespace Catalog

def empty : Catalog := ⟨[], List.Pairwise.nil, by simp⟩

def get? (c : Catalog) (id : String) : Option ModelRecord :=
  c.entries.get? id

def size (c : Catalog) : Nat := c.entries.length

def isEmpty (c : Catalog) : Bool := c.entries.isEmpty

def put (c : Catalog) (r : ModelRecord) : Catalog :=
  ⟨Entries.insert r.id r c.entries, c.ascending.insert r.id r, fun e he => by
    rcases Entries.mem_insert he with rfl | he
    · rfl
    · exact c.own e he⟩

def takeOut (c : Catalog) (id : String) : Catalog :=
  ⟨Entries.remove c.entries id, c.ascending.remove id, fun e he =>
    c.own e (List.mem_filter.mp he).1⟩

/-! ### Operations -/

def describe (c : Catalog) (id : String) : Except Failure ModelRecord :=
  match c.get? id with
  | some record => .ok record
  | none => .error (.notFound id)

def register (c : Catalog) (request : ModelRequest) : Except Failure Change :=
  match c.get? request.id with
  | some _ => .error (.alreadyExists request.id)
  | none =>
    let record : ModelRecord := ⟨request, .creating⟩
    .ok ⟨c.put record, record, .registered request.id⟩

def updateStatus (c : Catalog) (id : String) (status : Status) : Except Failure Change :=
  match c.get? id with
  | none => .error (.notFound id)
  | some before =>
    let record := { before with status }
    .ok ⟨c.put record, record, .moved id before.status status⟩

def remove (c : Catalog) (id : String) : Except Failure Change :=
  match c.get? id with
  | none => .error (.notFound id)
  | some record => .ok ⟨c.takeOut id, record, .removed id⟩

end Catalog

end ModelCatalog
