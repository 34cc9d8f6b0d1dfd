/-
  ModelCatalog/Service/Route.lean
  ===============================
  **Which requests the service answers.**

  A route is what a path stands for; the fixed paths come before the one whose segment
  is an identifier, so that no model is described under a fixed path.  An action is a
  route together with a method that it has.
-/
import ModelCatalog.Service.Target

namespace ModelCatalog

inductive Route where
  | health | validate | defaults | schema | models
  | model (id : String)
  | status (id : String)
deriving DecidableEq, Repr

def Route.ofSegments? : List String → Option Route
  | ["", "health"] => some .health
  | ["", "models", "validate"] => some .validate
  | ["", "models", "defaults"] => some .defaults
  | ["", "models", "schema"] => some .schema
  | ["", "models"] => some .models
  | ["", "models", segment] =>
    if segment.isEmpty then none else some (.model (Target.identifierOf segment))
  | ["", "models", segment, "status"] =>
    if segment.isEmpty then none else some (.status (Target.identifierOf segment))
  | _ => none

inductive Action where
  | health | validate | defaults | schema | list | register
  | describe (id : String)
  | remove (id : String)
  | updateStatus (id : String)
deriving DecidableEq, Repr

/-- What a method asks for on a route, if the route has that method.  The health route
    has them all. -/
def Action.of? : Route → String → Option Action
  | .health, _ => some .health
  | .validate, "POST" => some .validate
  | .defaults, "GET" => some .defaults
  | .schema, "GET" => some .schema
  | .models, "GET" => some .list
  | .models, "POST" => some .register
  | .model id, "GET" => some (.describe id)
  | .model id, "DELETE" => some (.remove id)
  | .status id, "PUT" => some (.updateStatus id)
  | _, _ => none

/-- Whether a text can be a method: a row of letters, digits and marks, not empty. -/
def isMethod (s : String) : Bool :=
  !s.isEmpty && s.toList.all fun c =>
    c.isAlphanum || "!*+-.^_`|~".toList.contains c

end ModelCatalog
