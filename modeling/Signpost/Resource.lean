import Signpost.Draft

/-! # Resources

A resource is a family of routes under one path: the usual actions on a collection and on its
members, or on a single thing, with names for the addresses of each.
-/
namespace Signpost

structure ExtraAction where
  action : String
  methods : List String
  deriving DecidableEq, Repr

structure ResourceOptions where
  namePrefix : Option String := none
  controller : Option String := none
  singular : Option String := none
  member : List ExtraAction := []
  collection : List ExtraAction := []
  params : List (String × String) := []
  deriving DecidableEq, Repr

/-- A usual action: an expression for the path, a method, and the action's name. -/
structure UsualAction where
  path : String
  method : String
  action : String
  deriving DecidableEq, Repr

namespace Resource

/-- Actions of a plural resource, in order of priority. -/
def pluralActions : List UsualAction :=
  [⟨"^/?(\\.:format)?$", "get", "index"⟩,
   ⟨"^/index(\\.:format)?$", "get", "index"⟩,
   ⟨"^/new$", "get", "new"⟩,
   ⟨"^/?(\\.:format)?$", "post", "create"⟩,
   ⟨"^/:id(\\.:format)?$", "get", "show"⟩,
   ⟨"^/:id[;/]edit$", "get", "edit"⟩,
   ⟨"^/:id(\\.:format)?$", "put", "update"⟩,
   ⟨"^/:id(\\.:format)?$", "delete", "destroy"⟩]

def singularActions : List UsualAction :=
  [⟨"^[;/]new$", "get", "new"⟩,
   ⟨"^/?(\\.:format)?$", "post", "create"⟩,
   ⟨"^/?(\\.:format)?$", "get", "show"⟩,
   ⟨"^[;/]edit$", "get", "edit"⟩,
   ⟨"^/?(\\.:format)?$", "put", "update"⟩,
   ⟨"^/?(\\.:format)?$", "delete", "destroy"⟩]

def stem? (ending word : List Char) : Option (List Char) :=
  if ending.isSuffixOf word then some (word.take (word.length - ending.length)) else none

def singularize (word : String) : String :=
  let cs := word.toList
  let ends (ending : String) := ending.toList.isSuffixOf cs
  match stem? "ies".toList cs with
  | some stem => String.ofList (stem ++ ['y'])
  | none =>
    if ends "sses" || ends "xes" || ends "ches" then String.ofList (cs.take (cs.length - 2))
    else if ends "s" && !ends "ss" then String.ofList (cs.take (cs.length - 1))
    else word

def methodsPattern (methods : List String) : Pattern :=
  let alternatives := methods.map fun m =>
    String.ofList (Pattern.escape (Unicode.lowercase m).toList)
  .regex ("^(" ++ "|".intercalate alternatives ++ ")$")

/-- What the routes of one resource share. -/
structure Resolved where
  singular : String
  namePrefix : String
  params : Params
  deriving DecidableEq, Repr

def resolve (s : Scope) (name : String) (options : ResourceOptions) :
    Except RouteError Resolved :=
  if name = "" ∨ name.toList.contains '/' then .error (.invalidOptions (.resourceName name))
  else
    let inherited := s.params
    let params := Entries.ofList options.params
    let spaceName := (params.find? "namespace").or (inherited.find? "namespace")
    let controller := (options.controller.or (inherited.find? "controller")).getD name
    .ok {
      singular := options.singular.getD (singularize name)
      namePrefix := (options.namePrefix.or (spaceName.map (· ++ "_"))).getD ""
      params := params.insert "controller" controller }

def usualScope (s : Scope) (a : UsualAction) : Scope :=
  s.within (Entries.ofList [(.path, .regex a.path), (.method, .symbol a.method)])
    [("action", a.action)]

/-- The scope of an extra action; `opening` is the expression before the action's name. -/
def extraScope (s : Scope) (opening : String) (a : ExtraAction) : Scope :=
  s.within
    (Entries.ofList
      [(.path, .regex (opening ++ a.action ++ "$")), (.method, methodsPattern a.methods)])
    [("action", a.action)]

def listAll (params : Params) : List Scope → Declare Unit
  | [] => pure ()
  | s :: rest => do
    let _ ← Declare.listed s params none
    listAll params rest

def addressAll (s : Scope) : List (String × String) → Declare Unit
  | [] => pure ()
  | (path, name) :: rest => do
    Declare.address s path name
    addressAll s rest

/-- Declares a plural resource; the answer is the scope for routes nested in a member. -/
def plural (s : Scope) (name : String) (options : ResourceOptions) : Declare Scope := do
  let r ← ExceptT.mk (pure (resolve s name options))
  let base := s.within [(.path, .literal ("/" ++ name))] []
  let plural := r.namePrefix ++ name
  let single := r.namePrefix ++ r.singular
  addressAll base (options.member.map fun a => ("/:id/" ++ a.action, a.action ++ "_" ++ single))
  addressAll base (options.collection.map fun a => ("/" ++ a.action, a.action ++ "_" ++ plural))
  listAll r.params
    (options.member.map (extraScope base "^/:id[/;]") ++
      options.collection.map (extraScope base "^[/;]") ++
      pluralActions.map (usualScope base))
  addressAll base
    [("", plural), ("/:id", single), ("/new", "new_" ++ single), ("/:id/edit", "edit_" ++ single),
     ("/:action/:id", "custom_" ++ single)]
  return base.within [(.path, .literal ("/:" ++ r.singular ++ "_id"))] []

def singular (s : Scope) (name : String) (options : ResourceOptions) : Declare Scope := do
  if !options.member.isEmpty || !options.collection.isEmpty then
    throw (.invalidOptions (.singularActions name))
  let r ← ExceptT.mk (pure (resolve s name options))
  let base := s.within [(.path, .literal ("/" ++ name))] []
  let single := r.namePrefix ++ name
  listAll r.params (singularActions.map (usualScope base))
  addressAll base [("", single), ("/new", "new_" ++ single), ("/edit", "edit_" ++ single)]
  return base

end Resource

end Signpost
