/-
  ModelCatalog/Catalog/Listing.lean
  =================================
  **Listing models by type.**

  A listing has the wanted types, or all if none is named, and under each the
  identifiers of its models in ascending order.  The wanted types may be written as
  one text, separated by commas; every part that names no type is a violation.
-/
import ModelCatalog.Catalog.Basic
import ModelCatalog.Text.Blank
import ModelCatalog.Text.Pieces

namespace ModelCatalog

/-! ### Listings -/

abbrev Listing := List (ModelType × List String)

/-- The order of the types in a listing. -/
def ModelType.before : ModelType → ModelType → Bool
  | .textgen, .embedding => true
  | _, _ => false

namespace Listing

/-- Makes room for a type, with no identifiers. -/
def insert (t : ModelType) : Listing → Listing
  | [] => [(t, [])]
  | e :: rest =>
    if t = e.1 then (t, []) :: rest
    else if t.before e.1 then (t, []) :: e :: rest
    else e :: insert t rest

/-- Puts an identifier behind those of its type; a type without room is passed over. -/
def push (t : ModelType) (id : String) : Listing → Listing
  | [] => []
  | e :: rest => if e.1 = t then (e.1, e.2 ++ [id]) :: rest else e :: push t id rest

end Listing

/-- Lists the models of the wanted types, or of all types if none is wanted. -/
def Catalog.list (c : Catalog) (wanted : List ModelType) : Listing :=
  let types := if wanted.isEmpty then Named.all else wanted
  let room := types.foldl (fun (l : Listing) t => l.insert t) []
  c.entries.foldl (fun l e => l.push e.2.request.descriptor.modelType e.1) room

def Listing.toJson (l : Listing) : Json :=
  .ofMembers (l.map fun e => (Named.name e.1, .ofStrings e.2))

/-! ### Wanted types -/

/-- The parts of a list written with commas: blank characters around a part do not
    belong to it, and an empty part is none. -/
def commaParts (s : String) : List String :=
  ((Text.pieces ',' s).map Text.trim).filter fun part => !part.isEmpty

/-- The types that a list of parts has named so far, each once, and what is wrong with the
    parts that name none. -/
structure WantedTypes where
  types : List ModelType := []
  reasons : List String := []

/-- Takes one more part. -/
def WantedTypes.step (w : WantedTypes) (part : String) : WantedTypes :=
  match (Named.ofName part : Except UnknownName ModelType) with
  | .ok t => if w.types.contains t then w else { w with types := w.types ++ [t] }
  | .error u => { w with reasons := w.reasons ++ [u.message] }

/-- The types that a text names, each once, in the order in which they first come; or
    a violation for each part that names none.  No text names no type. -/
def parseModelTypes : Option String → Except Violations (List ModelType)
  | none => .ok []
  | some query =>
    let wanted := (commaParts query).foldl WantedTypes.step {}
    if wanted.reasons.isEmpty then .ok wanted.types
    else .error (wanted.reasons.map fun reason => ⟨"modelTypes", .enumeration, reason⟩)

end ModelCatalog
