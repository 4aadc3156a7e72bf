import Signpost.Log.Directive

/-! # Log filters

A filter is a set of directives, those that depend on spans and fields apart from the others. Of
two directives for the same events the later one counts.
-/
namespace Signpost.Log

structure Filter where
  static : List Directive
  dynamic : List Directive
  deriving DecidableEq, Repr

namespace Filter

def put (ds : List Directive) (d : Directive) : List Directive :=
  ds.filter (fun other => !d.sameScope other) ++ [d]

def add (f : Filter) (d : Directive) : Filter :=
  if d.isStatic then { f with static := put f.static d } else { f with dynamic := put f.dynamic d }

/-- The filter of a list of directives. One that tests only for a field's presence is on both
sides. -/
def ofList (ds : List Directive) : Filter :=
  let (dynamic, static) := ds.partition Directive.isDynamic
  ⟨(static ++ dynamic.filter Directive.isStatic).foldl put [], dynamic.foldl put []⟩

def parts (text : String) : List (List Char) :=
  text.toList.splitOn ','

def read? (text : String) : Option Filter :=
  (((parts text).filter (!·.isEmpty)).mapM Directive.read?).map ofList

/-- Adds the proper directives of a text and leaves out the others. -/
def addAll (f : Filter) (text : String) : Filter :=
  (((parts text).map Unicode.trim).filterMap Directive.read?).foldl add f

def directives (f : Filter) : List Directive :=
  f.static ++ f.dynamic

def text (f : Filter) : String :=
  ",".intercalate (f.directives.map Directive.text)

end Filter

end Signpost.Log
