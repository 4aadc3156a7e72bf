import Signpost.Proofs.Path.Shape
import Signpost.Proofs.Router.Single
import Signpost.Proofs.Scope.Sources
import Signpost.Proofs.Template.Captured
import Signpost.Resource
import Signpost.Router

/-! # The scopes of actions

An action of a resource has the path of the collection, a hand-written path behind it and a method.
The scope of an action joins the two paths, and its parameters are the action, the controller and the
placeholders of the hand-written path.
-/
namespace Signpost.Resource
open Entries Placeholder Scope Template

def isPlain (c : Char) : Bool := c.isAlphanum || c = '_' || c = '-'

def PlainName (name : String) : Prop := name ≠ "" ∧ ∀ c ∈ name.toList, isPlain c = true

instance (name : String) : Decidable (PlainName name) := inferInstanceAs (Decidable (_ ∧ _))

variable {name : String}

theorem PlainName.notMem (h : PlainName name) {c : Char} (hc : isPlain c = false) :
    c ∉ name.toList := by
  intro hmem
  rw [h.2 c hmem] at hc
  cases hc

/-- A name whose text holds neither a placeholder nor a group, as a path or inside an expression. -/
structure BareName (name : String) : Prop where
  colon : ':' ∉ name.toList
  parenthesis : '(' ∉ name.toList

theorem PlainName.bare (h : PlainName name) : BareName name :=
  ⟨h.notMem (by decide), h.notMem (by decide)⟩

theorem toNat_lt_of_isPlain {c : Char} (h : isPlain c = true) : c.toNat < 128 := by
  delta isPlain Char.isAlphanum Char.isAlpha Char.isUpper Char.isLower Char.isDigit at h
  simp only [Bool.or_eq_true, decide_eq_true_eq, Bool.and_eq_true, ge_iff_le,
    UInt32.le_iff_toNat_le] at h
  rcases h with (((⟨-, h⟩ | ⟨-, h⟩) | ⟨-, h⟩) | rfl) | rfl
  · exact Nat.lt_of_le_of_lt h (by decide)
  · exact Nat.lt_of_le_of_lt h (by decide)
  · exact Nat.lt_of_le_of_lt h (by decide)
  · decide
  · decide

theorem utf8Size_of_isPlain {c : Char} (h : isPlain c = true) : c.utf8Size = 1 := by
  have hlt := toNat_lt_of_isPlain h
  have hval : c.val ≤ 0x7f := by
    rw [UInt32.le_iff_toNat_le]
    exact Nat.le_of_lt_succ hlt
  exact if_pos hval

theorem isPlain_of_isNameStart {c : Char} (h : isNameStart c = true) : isPlain c = true := by
  simp only [isNameStart, Bool.or_eq_true, Bool.and_eq_true, decide_eq_true_eq] at h
  rcases h with h | rfl
  · have hlower : c.isLower = true := by
      delta Char.isLower
      rw [Bool.and_eq_true, decide_eq_true_eq, decide_eq_true_eq]
      exact h
    have hletter : c.isAlphanum = true := by
      change (c.isUpper || c.isLower || c.isDigit) = true
      rw [hlower, Bool.or_true, Bool.true_or]
    rw [isPlain, hletter, Bool.true_or, Bool.true_or]
  · decide

theorem isPlain_of_isNameChar {c : Char} (h : isNameChar c = true) : isPlain c = true := by
  simp only [isNameChar, Bool.or_eq_true] at h
  rcases h with h | h
  · exact isPlain_of_isNameStart h
  · have hdigit : c.isAlphanum = true := by
      change (c.isAlpha || c.isDigit) = true
      rw [h, Bool.or_true]
    rw [isPlain, hdigit, Bool.true_or, Bool.true_or]

theorem toList_slash (name : String) : ("/" ++ name).toList = '/' :: name.toList := by simp

/-- The path of an action behind that of the collection, and the groups that capture the identifier
and the format. -/
structure Form where
  pieces : List Path.Piece
  id : Option Nat
  format : Option Nat

/-- The placeholders of a form, with their groups. -/
def Form.marks (f : Form) : List (String × Nat) :=
  f.id.toList.map ("id", ·) ++ f.format.toList.map ("format", ·)

/-- The expression is that of the form, once its placeholders are groups. -/
structure Form.Written (f : Form) (path : String) : Prop where
  substituted : substitute path.toList = (Path.source f.pieces, f.marks)
  kept : Level.isEmptyPath .path path = false

def under (name : String) (ps : List Path.Piece) : List Path.Piece :=
  ('/' :: name.toList).map .char ++ ps

/-- The declarations around the actions of a resource at the root. -/
def collection (name : String) : List Declaration :=
  [.root Router.initialDefaults, ⟨[(.path, .literal ("/" ++ name))], [], List.pairwise_singleton _ _⟩]

def declared (path : String) (method : Pattern) (action : String) : Declaration :=
  ⟨Entries.ofList [(.path, .regex path), (.method, method)], [("action", action)],
    sorted_ofList _⟩

theorem conditions_declared (path : String) (method : Pattern) (action : String) :
    (declared path method action).conditions = [(.path, .regex path), (.method, method)] := rfl

theorem isLiteral_collection (name : String) : ∀ d ∈ collection name, IsLiteral d := by
  simp [collection, IsLiteral, Declaration.root]

theorem mem_escape {c : Char} {cs : List Char} (h : c ∈ Pattern.escape cs) : c = '\\' ∨ c ∈ cs := by
  obtain ⟨d, hd, hc⟩ := List.mem_flatMap.mp h
  by_cases hspecial : Pattern.isSpecial d = true
  · rw [if_pos hspecial] at hc
    simp only [List.mem_cons, List.not_mem_nil, or_false] at hc
    rcases hc with rfl | rfl
    · exact Or.inl rfl
    · exact Or.inr hd
  · rw [if_neg hspecial] at hc
    exact Or.inr (List.mem_singleton.mp hc ▸ hd)

theorem first?_of_notMem {cs : List Char} (h : ':' ∉ cs) : first? cs = none := by
  have hinert := inert_of_notMem h []
  rwa [List.append_nil] at hinert

theorem substitute_of_notMem {cs : List Char} (h : ':' ∉ cs) : substitute cs = (cs, []) :=
  substitute_of_first?_none (first?_of_notMem h)

theorem BareName.colon_notMem_escape (hname : BareName name) :
    ':' ∉ '^' :: (Pattern.escape ('/' :: name.toList) ++ ['$']) := by
  intro hmem
  simp only [List.mem_cons, List.mem_append, List.not_mem_nil, or_false] at hmem
  rcases hmem with hmem | hmem | hmem
  · cases hmem
  · rcases mem_escape hmem with heq | hmem
    · cases heq
    · rcases List.mem_cons.mp hmem with heq | hmem
      · cases heq
      · exact hname.colon hmem
  · cases hmem

variable {f : Form} {path action : String} {method : Pattern} {tested : List Char}

theorem sources_action (hname : BareName name) (hpath : f.Written path)
    (hmethod : substitute (method.source .method).toList = (tested, [])) :
    (ofChain (collection name ++ [declared path method action])).sources =
      [(.path, Path.source (under name f.pieces)), (.method, tested)] := by
  have hbase : (Pattern.literal ("/" ++ name)).source .path =
      String.ofList ('^' :: (Pattern.escape ('/' :: name.toList) ++ ['$'])) := by
    rw [← String.toList_inj, source_literal, toList_slash, String.toList_ofList]
  have hkeep : Level.isEmptyPath .path ((Pattern.literal ("/" ++ name)).source .path) = false :=
    Bool.eq_false_iff.mpr ((isEmptyPath_literal _).not.mpr (by simp))
  have hkeepMethod : Level.isEmptyPath .method (method.source .method) = false :=
    Level.isEmptyPath_of_ne (by decide) _
  have hcolon := hname.colon_notMem_escape
  have hspelled : ∀ {cs written : List Char} {ms : List (String × Nat)},
      substitute cs = (written, ms) → spelled (tokens cs) = written := by
    intro cs written ms h
    rw [substitute_eq] at h
    exact congrArg Prod.fst h
  have hconditions : (collection name ++ [declared path method action]).flatMap (·.conditions) =
      [(.path, .literal ("/" ++ name)), (.path, .regex path), (.method, method)] := rfl
  have hkept : Level.kept [(.path, .literal ("/" ++ name)), (.path, .regex path), (.method, method)] =
      [(.path, .literal ("/" ++ name)), (.path, .regex path), (.method, method)] := by
    have hkeepPath : Level.isEmptyPath .path ((Pattern.regex path).source .path) = false :=
      hpath.kept
    simp [Level.kept, hkeep, hkeepPath, hkeepMethod]
  have hwritten : Path.source (under name f.pieces) =
      joinFragments ('^' :: (Pattern.escape ('/' :: name.toList) ++ ['$']))
        (Path.source f.pieces) := by
    rw [Path.source, Path.source, joinFragments_anchored, under, Path.written_append,
      Path.written_chars]
  rw [sources_eq_setAll, flatMap_written, hconditions, hkept]
  simp only [List.map_cons, List.map_nil]
  rw [hbase, String.toList_ofList, hspelled (substitute_of_notMem hcolon), hspelled hmethod,
    show ((Pattern.regex path).source .path) = path from rfl, hspelled hpath.substituted, hwritten]
  rfl

theorem compare_names :
    compare "controller" "action" = .gt ∧ compare "format" "action" = .gt ∧
      compare "id" "action" = .gt ∧ compare "controller" "format" = .lt ∧
      compare "controller" "id" = .lt ∧ compare "format" "id" = .lt ∧
      compare "action" "format" = .lt ∧ compare "action" "id" = .lt ∧
      compare "id" "format" = .gt ∧ compare "format" "controller" = .gt ∧
      compare "id" "controller" = .gt := by
  decide

theorem found_of_substitute {field : Field} {p : Pattern} {written : List Char}
    {ms : List (String × Nat)} (h : substitute (p.source field).toList = (written, ms)) :
    Level.found field p = ms.map fun m => (m.1, (field, m.2)) := by
  rw [Level.found, h]

theorem found_collection (hname : BareName name) :
    Level.found .path (.literal ("/" ++ name)) = [] := by
  have hsource : ((Pattern.literal ("/" ++ name)).source .path).toList =
      '^' :: (Pattern.escape ('/' :: name.toList) ++ ['$']) := by
    rw [source_literal, toList_slash]
  have hnone := substitute_of_notMem hname.colon_notMem_escape
  rw [← hsource] at hnone
  rw [found_of_substitute hnone, List.map_nil]

theorem kept_collection (name : String) :
    Level.kept [(.path, .literal ("/" ++ name))] = [(.path, .literal ("/" ++ name))] := by
  have hkeep : Level.isEmptyPath .path ((Pattern.literal ("/" ++ name)).source .path) = false :=
    Bool.eq_false_iff.mpr ((isEmptyPath_literal _).not.mpr (by simp))
  simp [Level.kept, hkeep]

theorem kept_declared (hpath : f.Written path) (method : Pattern) :
    Level.kept [(.path, .regex path), (.method, method)] =
      [(.path, .regex path), (.method, method)] := by
  have hkeepPath : Level.isEmptyPath .path ((Pattern.regex path).source .path) = false := hpath.kept
  have hkeepMethod : Level.isEmptyPath .method (method.source .method) = false :=
    Level.isEmptyPath_of_ne (by decide) _
  simp [Level.kept, hkeepPath, hkeepMethod]

theorem found_declared (action : String) (hpath : f.Written path)
    (hmethod : substitute (method.source .method).toList = (tested, [])) :
    (Level.kept (declared path method action).conditions).flatMap (fun e => Level.found e.1 e.2) =
      f.marks.map fun m => (m.1, (.path, m.2)) := by
  have hfound : Level.found .path (.regex path) = f.marks.map fun m => (m.1, (.path, m.2)) :=
    found_of_substitute hpath.substituted
  have hnone : Level.found .method method = [] := found_of_substitute hmethod
  rw [conditions_declared, kept_declared hpath, List.flatMap_cons, List.flatMap_cons,
    List.flatMap_nil, hfound, hnone, List.append_nil, List.append_nil]

theorem chainTokens_collection (hname : BareName name) :
    chainTokens (collection name) = ('/' :: name.toList).map .text := by
  have hcolon : ':' ∉ '/' :: name.toList := by
    have hmem := hname.colon
    simpa using hmem
  have hfragment : fragment ⟨[(.path, .literal ("/" ++ name))], [], List.pairwise_singleton _ _⟩ =
      '/' :: name.toList := by
    rw [fragment, find?_cons, if_pos rfl]
    exact toList_slash name
  change tokens [] ++ (tokens (fragment _) ++ []) = _
  rw [hfragment, tokens_of_first?_none (first?_of_notMem hcolon), tokens_nil, List.append_nil,
    List.nil_append]

theorem groups_collection (hname : BareName name) : groups (ofChain (collection name)) = 0 := by
  have hungrouped : ∀ d ∈ collection name, '(' ∉ fragment d := by
    have hparenthesis := hname.parenthesis
    simp [collection, fragment, Declaration.root, find?_cons, hparenthesis]
  rw [groups_ofChain (isLiteral_collection name) hungrouped, chainTokens_collection hname]
  simp [holes]

theorem placeholders_collection (hname : BareName name) :
    (ofChain (collection name)).placeholders = [] := by
  have hlevel : (Level.declare [(.path, .literal ("/" ++ name))] []).placeholders = [] := by
    simp only [Level.declare, kept_collection, List.flatMap_cons, List.flatMap_nil,
      found_collection hname]
    rfl
  change placeholdersFrom 0 [] [(Declaration.root Router.initialDefaults).level,
    Level.declare [(.path, .literal ("/" ++ name))] []] = []
  simp only [placeholdersFrom, hlevel]
  rfl

theorem placeholders_action (hname : BareName name) (hpath : f.Written path)
    (hmethod : substitute (method.source .method).toList = (tested, [])) :
    (ofChain (collection name ++ [declared path method action])).placeholders =
      f.format.toList.map (fun group => ("format", (.path, group))) ++
        f.id.toList.map fun group => ("id", (.path, group)) := by
  have hlevel : (declared path method action).level.placeholders =
      Entries.ofList (f.marks.map fun m => (m.1, (.path, m.2))) := by
    rw [Declaration.level, Level.placeholders_declare, found_declared action hpath hmethod]
  have hbase : placeholdersFrom 0 [] (ofChain (collection name)) = [] :=
    placeholders_collection hname
  rw [ofChain, List.map_append, placeholders, placeholdersFrom_append]
  change placeholdersFrom (0 + groups (ofChain (collection name)))
    (placeholdersFrom 0 [] (ofChain (collection name))) [(declared path method action).level] = _
  rw [hbase, groups_collection hname, placeholdersFrom, placeholdersFrom, hlevel]
  obtain ⟨pieces, id, format⟩ := f
  cases id <;> cases format <;>
    simp [Form.marks, shift, Entries.ofList, Entries.extend, Entries.insert, Entries.mapValues,
      compare_names]

theorem params_root : (ofChain [.root Router.initialDefaults]).params = Router.initialDefaults := by
  decide

def Form.params (f : Form) (action controller : String) : Params :=
  ("action", action) :: ("controller", controller) ::
    (f.format.toList.map (fun _ => ("format", ":format")) ++ f.id.toList.map fun _ => ("id", ":id"))

theorem params_action (hname : BareName name) (hpath : f.Written path)
    (hmethod : substitute (method.source .method).toList = (tested, [])) (controller : String) :
    (ofChain (collection name ++ [declared path method action])).params.extend
        [("controller", controller)] = f.params action controller := by
  have hcollection : (ofChain (collection name)).params = Router.initialDefaults := by
    have hlevel : (Level.declare [(.path, .literal ("/" ++ name))] []).params = [] := by
      simp only [Level.declare, kept_collection, List.flatMap_cons, List.flatMap_nil,
        found_collection hname]
      rfl
    have hconcat := params_concat [.root Router.initialDefaults]
      ⟨[(.path, .literal ("/" ++ name))], [], List.pairwise_singleton _ _⟩
    rw [params_root, Declaration.level, hlevel] at hconcat
    exact hconcat
  have hlevel : (declared path method action).level.params =
      (Entries.ofList (f.marks.map fun m => (m.1, ":" ++ m.1))).extend [("action", action)] := by
    have hfound := found_declared action hpath hmethod
    change (Entries.ofList (((Level.kept (declared path method action).conditions).flatMap
      fun e => Level.found e.1 e.2).map fun e => (e.1, ":" ++ e.1))).extend [("action", action)] = _
    rw [hfound, List.map_map]
    rfl
  rw [params_concat, hcollection, hlevel]
  obtain ⟨pieces, id, format⟩ := f
  cases id <;> cases format <;>
    simp [Form.marks, Form.params, Router.initialDefaults, Entries.ofList, Entries.extend,
      Entries.insert, compare_names]

end Signpost.Resource
