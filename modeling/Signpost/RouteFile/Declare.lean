import Signpost.Router
import Signpost.RouteFile.Entry

/-! # Declaring route files

The statements that the entries of a route file stand for, and how a file is installed in a
router.
-/
namespace Signpost

def ParamValues.pairs (values : ParamValues) : List (String × String) :=
  values.map fun (name, value) => (name, value.written)

/-- The conditions of an entry; its path counts more than a condition on the path. -/
def MatchEntry.allConditions (e : MatchEntry) : Conditions :=
  let named := Entries.ofList (e.conditions.map fun (name, p) => (Field.ofName name, p))
  match e.path with
  | some p => named.insert .path p
  | none => named

/-- The last statement of an entry with nested ones: one more route, which takes the name. A name
without such a route is refused. -/
def MatchEntry.last (e : MatchEntry) : List Statement :=
  match e.catchAll, e.name with
  | some params, name => [.route .listed params.pairs name]
  | none, some name => [.reject (.invalidOptions (.unattachedName name))]
  | none, none => []

def extraActions (actions : Entries String Methods) : List ExtraAction :=
  actions.map fun (action, methods) => ⟨action, methods.toList⟩

def ResourcesEntry.options (e : ResourcesEntry) : ResourceOptions :=
  { namePrefix := e.namePrefix, controller := e.controller, singular := e.singular
    member := extraActions e.member, collection := extraActions e.collection
    params := e.params.pairs }

def ResourceEntry.options (e : ResourceEntry) : ResourceOptions :=
  { namePrefix := e.namePrefix, controller := e.controller, params := e.params.pairs }

namespace Entry

mutual

def statements : Entry → List Statement
  | .matching e scope =>
    if scope.isEmpty && e.catchAll.isNone then
      [.within e.allConditions [] [.route .listed e.params.pairs e.name]]
    else
      [.within e.allConditions [] [.within [] e.params.pairs (statementsOf scope ++ e.last)]]
  | .resources e scope => [.resources e.resources e.options (statementsOf scope)]
  | .resource e scope => [.resource e.resource e.options (statementsOf scope)]
  | .defaultRoutes on params =>
    if on then [.route .catchAll params.pairs none] else []

def statementsOf : List Entry → List Statement
  | [] => []
  | entry :: rest => statements entry ++ statementsOf rest

end

end Entry

def RouteFile.statements (file : RouteFile) : List Statement :=
  Entry.statementsOf file.routes

def RouteFile.installDefaults (file : RouteFile) : Params :=
  match file.defaults with
  | some values => ParamValues.pairs values
  | none => Router.initialDefaults

def Router.install (r : Router) (file : RouteFile) : Router.Change :=
  r.prepareWithDefaults file.installDefaults file.statements

end Signpost
