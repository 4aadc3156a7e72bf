import Signpost.Proofs.Resource.Scope
import Signpost.Proofs.Route.Accept
import Signpost.Proofs.Template.Words

/-! # The routes of actions

The route of an action accepts the requests whose path has the form of the action under the
collection's and whose method the action answers to. Its parameters are the action, the controller and
what the path captured.
-/
namespace Signpost.Resource
open Entries Placeholder Scope Template

/-- No reference begins in the text, and nothing is escaped in it. -/
def IsVerbatim (text : List Char) : Prop := ':' ∉ text ∧ '[' ∉ text ∧ '\\' ∉ text

theorem atStart?_eq_none {c : Char} (hcolon : c ≠ ':') (hbracket : c ≠ '[') (rest : List Char) :
    OutputToken.atStart? (c :: rest) = none := by
  have hnone : OutputToken.bracketed? (c :: rest) = none := by
    unfold OutputToken.bracketed?
    split
    · rename_i heq
      exact absurd (List.cons.inj heq).1 hbracket
    · rfl
  unfold OutputToken.atStart?
  split
  · rename_i heq
    exact absurd (List.cons.inj heq).1 hcolon
  · rw [hnone, Option.map_none]

theorem splitTemplate_verbatim {text : List Char} (hcolon : ':' ∉ text) (hbracket : '[' ∉ text)
    (before : List Char) : splitTemplate before text = ([], before.reverse ++ text) := by
  induction text generalizing before with
  | nil => rw [Output.splitTemplate_end, List.append_nil]
  | cons c rest ih =>
    rw [List.mem_cons, not_or] at hcolon hbracket
    have hnone := atStart?_eq_none (Ne.symm hcolon.1) (Ne.symm hbracket.1) rest
    rw [Output.splitTemplate_of_none hnone, ih hcolon.2 hbracket.2, List.reverse_cons,
      List.append_assoc]
    rfl

theorem compile_unreferenced {text : String} (hcolon : ':' ∉ text.toList)
    (hbracket : '[' ∉ text.toList) (param : String) (placeholders : Entries String (Field × Nat)) :
    Output.compile param text placeholders = .ok (Output.literal text.toList) := by
  rw [Output.compile, splitTemplate_verbatim hcolon hbracket]
  rfl

theorem compile_verbatim {text : String} (h : IsVerbatim text.toList) (hne : text ≠ "")
    (param : String) (placeholders : Entries String (Field × Nat)) :
    Output.compile param text placeholders = .ok [.literal text] := by
  have hnil : text.toList ≠ [] := by simpa using hne
  rw [compile_unreferenced h.1 h.2.1, Output.literal, if_neg (by simpa using hnil),
    Output.unescape_of_notMem h.2.2, String.ofList_toList]

theorem PlainName.isVerbatim {name : String} (h : PlainName name) : IsVerbatim name.toList :=
  ⟨h.notMem (by decide), h.notMem (by decide), h.notMem (by decide)⟩

variable {name path action controller : String} {method : Pattern} {f : Form} {tested : List Char}

def Form.outputs (f : Form) (action : String) (controller : Output) : List OutputParam :=
  ⟨"action", [.literal action], none⟩ :: ⟨"controller", controller, none⟩ ::
    (f.format.toList.map (fun group => ⟨"format", [.capture .path group], none⟩) ++
      f.id.toList.map fun group => ⟨"id", [.capture .path group], none⟩)

def actionScope (name path : String) (method : Pattern) (action : String) : Scope :=
  ofChain (collection name ++ [declared path method action])

theorem outputParam_verbatim {text : String} (h : IsVerbatim text.toList) (hne : text ≠ "")
    (placeholders : Entries String (Field × Nat)) (defaults : Params) (param : String) :
    Route.outputParam placeholders defaults param text = .ok ⟨param, [.literal text], none⟩ := by
  rw [Route.outputParam, compile_verbatim h hne]
  rfl

theorem exists_outputParam_verbatim {value : String} (h : IsVerbatim value.toList)
    (placeholders : Entries String (Field × Nat)) (defaults : Params) (name : String) :
    ∃ o, Route.outputParam placeholders defaults name value = .ok ⟨name, o, none⟩ ∧
      ∀ capture, Output.evaluate o capture = some value := by
  by_cases hne : value = ""
  · subst hne
    refine ⟨[], ?_, fun capture => rfl⟩
    rw [Route.outputParam, Output.compile, String.toList_empty, Output.splitTemplate_end]
    rfl
  · refine ⟨[.literal value], outputParam_verbatim h hne _ _ _, fun capture => ?_⟩
    simp [Output.evaluate, Output.partValue]

theorem outputParam_eq_map {param : String} (hdefault : find? param Router.initialDefaults = none)
    (placeholders : Entries String (Field × Nat)) (template : String) :
    Route.outputParam placeholders Router.initialDefaults param template =
      (Output.compile param template placeholders).map (⟨param, ·, none⟩) := by
  rw [Route.outputParam]
  cases Output.compile param template placeholders with
  | error e => rfl
  | ok o =>
    change Except.ok (OutputParam.mk param o (if o.isLiteral then none else find? param _)) = _
    rw [hdefault, ite_self]
    rfl

theorem find?_placeholders_action (action : String) (hname : BareName name) (hpath : f.Written path)
    (hmethod : substitute (method.source .method).toList = (tested, [])) :
    find? "format" (actionScope name path method action).placeholders =
        f.format.map (.path, ·) ∧
      find? "id" (actionScope name path method action).placeholders = f.id.map (.path, ·) := by
  rw [actionScope, placeholders_action hname hpath hmethod]
  obtain ⟨pieces, id, format⟩ := f
  cases id <;> cases format <;> simp [find?_cons]

theorem outputParam_captured {c : Char} {tail : List Char} {group : Nat}
    {placeholders : Entries String (Field × Nat)} (hc : isNameStart c = true)
    (htail : ∀ d ∈ tail, isNameChar d = true)
    (hgroup : find? (String.ofList (c :: tail)) placeholders = some (.path, group))
    (hdefault : find? (String.ofList (c :: tail)) Router.initialDefaults = none) :
    Route.outputParam placeholders Router.initialDefaults (String.ofList (c :: tail))
        (":" ++ String.ofList (c :: tail)) =
      .ok ⟨String.ofList (c :: tail), [.capture .path group], none⟩ := by
  rw [outputParam_eq_map hdefault, Output.compile_placeholder hc htail hgroup]
  rfl

theorem mapM_captured (action : String) (hname : BareName name) (hpath : f.Written path)
    (hmethod : substitute (method.source .method).toList = (tested, [])) :
    (f.format.toList.map (fun _ => ("format", ":format")) ++
        f.id.toList.map fun _ => ("id", ":id")).mapM (fun e => Route.outputParam
          (actionScope name path method action).placeholders Router.initialDefaults e.1 e.2) =
      .ok (f.format.toList.map (fun group => ⟨"format", [.capture .path group], none⟩) ++
        f.id.toList.map fun group => ⟨"id", [.capture .path group], none⟩) := by
  obtain ⟨hformat, hid⟩ := find?_placeholders_action action hname hpath hmethod
  rw [mapM_eq_ok_iff]
  refine List.rel_append ?_ ?_ <;>
    rw [List.forall₂_map_left_iff, List.forall₂_map_right_iff, List.forall₂_same]
  · intro group hgroup
    rw [Option.mem_toList.mp hgroup] at hformat
    exact outputParam_captured (show isNameStart 'f' = true by decide)
      (show ∀ d ∈ "ormat".toList, isNameChar d = true by decide) hformat (by decide)
  · intro group hgroup
    rw [Option.mem_toList.mp hgroup] at hid
    exact outputParam_captured (show isNameStart 'i' = true by decide)
      (show ∀ d ∈ "d".toList, isNameChar d = true by decide) hid (by decide)

theorem outputParams_action (controller : String) (hname : BareName name)
    (haction : PlainName action) (hpath : f.Written path)
    (hmethod : substitute (method.source .method).toList = (tested, [])) :
    Route.outputParams (actionScope name path method action) [("controller", controller)]
        Router.initialDefaults =
      (Output.compile "controller" controller
        (actionScope name path method action).placeholders).map (f.outputs action) := by
  let placeholders := (actionScope name path method action).placeholders
  let compiled : String × String → Except RouteError OutputParam := fun e =>
    Route.outputParam placeholders Router.initialDefaults e.1 e.2
  have hactionParam : compiled ("action", action) = .ok ⟨"action", [.literal action], none⟩ :=
    outputParam_verbatim haction.isVerbatim haction.1 _ _ _
  have hdefault : find? "controller" Router.initialDefaults = none := by decide
  have hcontrollerParam : compiled ("controller", controller) =
      (Output.compile "controller" controller placeholders).map (⟨"controller", ·, none⟩) :=
    outputParam_eq_map hdefault _ _
  have hcaptured : List.mapM compiled _ = .ok _ := mapM_captured action hname hpath hmethod
  have hparams : (actionScope name path method action).params.extend [("controller", controller)] =
      f.params action controller := params_action hname hpath hmethod controller
  change ((actionScope name path method action).params.extend _).mapM compiled = _
  rw [hparams, Form.params, List.mapM_cons, List.mapM_cons, hactionParam, hcontrollerParam, hcaptured]
  change _ = (Output.compile "controller" controller placeholders).map _
  cases Output.compile "controller" controller placeholders <;> rfl

/-- An action of a resource: its path behind that of the collection with the form of that path, and
its method with the expression that requests are tested against. -/
structure Row where
  path : String
  form : Form
  action : String
  pattern : Pattern
  method : Regex

namespace Row

def scope (row : Row) (name : String) : Scope := actionScope name row.path row.pattern row.action

/-- The row is that of an action whose parts are read as they are meant. -/
structure Ready (row : Row) : Prop where
  written : row.form.Written row.path
  action : PlainName row.action
  tested : substitute (row.pattern.source .method).toList = (row.method.source.toList, [])
  compiled : Regex.compile row.method.source true =
    if Regex.Node.maxProgramSize < row.method.node.programSize then .error .tooLarge
    else .ok row.method

/-- The route tests the path of the row's form under the collection's, and the method; its
parameters are those of the action. -/
structure Serves (row : Row) (name : String) (controller : Output) (route : Route) : Prop where
  outputs : route.outputs = row.form.outputs row.action controller
  conditions : route.conditions =
    [(.path, Path.regex (under name row.form.pieces)), (.method, row.method)]
  decision : route.decision = none

variable {row : Row} {name controller : String}

theorem compileCondition_method (h : row.Ready) :
    Route.compileCondition .method row.method.source.toList =
      if Regex.Node.maxProgramSize < row.method.node.programSize then
        .error (.invalidPattern .method row.method.source .tooLarge)
      else .ok (.method, row.method) := by
  have hfolded : (Field.method == Field.method) = true := by decide
  have hcompile := h.compiled
  rw [← hfolded, ← String.ofList_toList (s := row.method.source)] at hcompile
  rw [compileCondition_of_compile row.method hcompile, String.ofList_toList]

theorem compileCondition_path (ps : List Path.Piece) :
    Route.compileCondition .path (Path.source ps) =
      if Regex.Node.maxProgramSize < (Path.node ps).programSize then
        .error (.invalidPattern .path (String.ofList (Path.source ps)) .tooLarge)
      else .ok (.path, Path.regex ps) :=
  compileCondition_of_compile (Path.regex ps) (Path.compile_source ps)

theorem compileConditions_eq (h : row.Ready) (hname : BareName name) :
    Route.compileConditions (row.scope name) = (do
      let path ← Route.compileCondition .path (Path.source (under name row.form.pieces))
      let method ← Route.compileCondition .method row.method.source.toList
      return [path, method]) := by
  rw [Route.compileConditions, scope, actionScope, sources_action hname h.written h.tested,
    List.mapM_cons, List.mapM_cons, List.mapM_nil]
  change (Route.compileCondition .path _ >>= fun a =>
    (Route.compileCondition .method _ >>= fun b => pure [b]) >>= fun bs => pure (a :: bs)) = _
  cases Route.compileCondition .path (Path.source (under name row.form.pieces)) with
  | error e => rfl
  | ok a => cases Route.compileCondition .method row.method.source.toList <;> rfl

/-- A row's route cannot be made only if the controller is not understood or a program is too
large. -/
theorem Ready.error_of_ofScope (h : row.Ready) (hname : BareName name) {e : RouteError}
    (herror : Route.ofScope (row.scope name) [("controller", controller)] Router.initialDefaults
      none = .error e) :
    Output.compile "controller" controller (row.scope name).placeholders = .error e ∨
      ∃ field source, e = .invalidPattern field source .tooLarge := by
  rcases of_bind_eq_error herror with houtputs | ⟨outputs, -, herror⟩
  · left
    rw [scope, outputParams_action controller hname h.action h.written h.tested] at houtputs
    exact eq_error_of_map_eq_error houtputs
  · right
    rcases of_bind_eq_error herror with hconditions | ⟨conditions, -, herror⟩
    · rw [compileConditions_eq h hname, compileCondition_path, compileCondition_method h]
        at hconditions
      rcases of_bind_eq_error hconditions with hpath | ⟨path, -, hconditions⟩
      · split at hpath
        · cases hpath
          exact ⟨_, _, rfl⟩
        · cases hpath
      rcases of_bind_eq_error hconditions with hmethod | ⟨method, -, hconditions⟩
      · split at hmethod
        · cases hmethod
          exact ⟨_, _, rfl⟩
        · cases hmethod
      · cases hconditions
    · cases herror

theorem Ready.exists_ofScope (h : row.Ready) (hname : BareName name) {o : Output}
    (ho : Output.compile "controller" controller (row.scope name).placeholders = .ok o)
    (hpath : (Path.node (under name row.form.pieces)).programSize ≤ Regex.Node.maxProgramSize)
    (hmethod : row.method.node.programSize ≤ Regex.Node.maxProgramSize) :
    ∃ route, Route.ofScope (row.scope name) [("controller", controller)] Router.initialDefaults
      none = .ok route := by
  have houtputs := outputParams_action controller hname h.action h.written h.tested
  rw [Route.ofScope, compileConditions_eq h hname, compileCondition_path,
    compileCondition_method h, if_neg (Nat.not_lt.mpr hpath), if_neg (Nat.not_lt.mpr hmethod)]
  rw [scope] at ho ⊢
  rw [houtputs, ho]
  exact ⟨_, rfl⟩

theorem Ready.serves (h : row.Ready) (hname : BareName name) {route : Route}
    (hroute : Route.ofScope (row.scope name) [("controller", controller)] Router.initialDefaults
      none = .ok route) :
    ∃ o, Output.compile "controller" controller (row.scope name).placeholders = .ok o ∧
      row.Serves name o route := by
  obtain ⟨outputs, conditions, houtputs, hconditions, rfl, rfl, hdecision⟩ :=
    Route.exists_of_ofScope hroute
  rw [scope, outputParams_action controller hname h.action h.written h.tested] at houtputs
  obtain ⟨o, ho, heq⟩ := exists_of_map_eq_ok houtputs
  rw [compileConditions_eq h hname, compileCondition_path, compileCondition_method h]
    at hconditions
  obtain ⟨path, hpath, hconditions⟩ := exists_of_bind_eq_ok hconditions
  obtain ⟨method, hmethod, hconditions⟩ := exists_of_bind_eq_ok hconditions
  split at hpath
  · cases hpath
  split at hmethod
  · cases hmethod
  cases hpath
  cases hmethod
  exact ⟨o, ho, heq.symm, (Except.ok.inj hconditions).symm, hdecision⟩

end Row

/-- The parameters of a match: the action, the controller if it has a value, and what the path
captured. -/
def Form.answer (f : Form) (action : String) (controller : Option String)
    (found : List (Nat × List Char)) : Params :=
  ("action", action) :: (controller.toList.map ("controller", ·) ++
    ((f.format.bind (List.lookup · found)).toList.map (fun value => ("format", String.ofList value)) ++
      (f.id.bind (List.lookup · found)).toList.map fun value => ("id", String.ofList value)))

theorem Form.Written.ne_zero (hpath : f.Written path) {m : String × Nat} (hm : m ∈ f.marks) :
    m.2 ≠ 0 := by
  obtain ⟨name, group⟩ := m
  have hmarks : Placeholder.marks 0 (tokens path.toList) = f.marks := by
    have heq := hpath.substituted
    rw [substitute_eq] at heq
    exact congrArg Prod.snd heq
  obtain ⟨front, back, hsplit⟩ := List.append_of_mem hm
  obtain ⟨_, _, -, hgroup, -⟩ := exists_hole_of_marks (hmarks.trans hsplit)
  change group ≠ 0
  omega

theorem ofList_answer (f : Form) (action : String) (controller : Option String)
    (found : List (Nat × List Char)) :
    Entries.ofList (f.answer action controller found) = f.answer action controller found := by
  rw [Form.answer]
  generalize f.format.bind (List.lookup · found) = format
  generalize f.id.bind (List.lookup · found) = id
  cases controller <;> cases format <;> cases id <;>
    simp [Entries.ofList, Entries.extend, Entries.insert, compare_names]

theorem filterMap_cons_toList {α β : Type} (g : α → Option β) (a : α) (as : List α) :
    (a :: as).filterMap g = (g a).toList ++ as.filterMap g := by
  cases h : g a <;> simp [h]

theorem paramsOf_outputs (hpath : f.Written path) {o : Output} {space : Route.CaptureSpace}
    {found : List (Nat × List Char)}
    (hfound : ∀ k, k ≠ 0 → Route.groupText space .path k = (found.lookup k).map String.ofList) :
    Route.paramsOf (f.outputs action o) space =
      f.answer action (o.evaluate (Route.groupText space)) found := by
  have hvalue : ∀ param output, Route.paramValue space ⟨param, output, none⟩ =
      output.evaluate (Route.groupText space) := by
    intro param output
    rw [Route.paramValue_eq]
    simp [Route.settled]
  have haction : Output.evaluate [.literal action] (Route.groupText space) = some action := by
    simp [Output.evaluate, Output.partValue]
  have hformat : ∀ k ∈ f.format, Output.evaluate [.capture .path k] (Route.groupText space) =
      (found.lookup k).map String.ofList := by
    intro k hk
    have hne : k ≠ 0 := hpath.ne_zero (m := ("format", k)) (by simp_all [Form.marks])
    rw [Output.evaluate_capture, hfound k hne]
  have hid : ∀ k ∈ f.id, Output.evaluate [.capture .path k] (Route.groupText space) =
      (found.lookup k).map String.ofList := by
    intro k hk
    have hne : k ≠ 0 := hpath.ne_zero (m := ("id", k)) (by simp_all [Form.marks])
    rw [Output.evaluate_capture, hfound k hne]
  rw [Route.paramsOf, ← ofList_answer]
  congr 1
  obtain ⟨pieces, id, format⟩ := f
  rcases id with _ | i <;> rcases format with _ | k <;>
    simp_all [Form.outputs, Form.answer, filterMap_cons_toList, Option.toList_map,
      Function.comp_def]

/-- The request has a path of the form under the collection's, whose groups captured `found`. -/
def Form.Meets (f : Form) (name : String) (found : List (Nat × List Char)) (path : String) : Prop :=
  ∃ rest, Path.Fits 0 f.pieces found rest ∧ path.toList = '/' :: (name.toList ++ rest)

theorem fits_under_iff {found : List (Nat × List Char)} {cs : String} :
    Path.Fits 0 (under name f.pieces) found cs.toList ↔ f.Meets name found cs :=
  Path.fits_chars_iff

namespace Row
variable {row : Row} {name : String} {o : Output} {route : Route} {request : Request}

/-- The request has the path and the method of the row. -/
def Takes (row : Row) (name : String) (request : Request) : Prop :=
  (∃ found, row.form.Meets name found request.path) ∧
    (row.method.captures? request.method).isSome

theorem Serves.isSome_accept?_iff (h : row.Serves name o route) :
    (route.accept? request).isSome ↔ row.Takes name request := by
  rw [Route.isSome_accept?_iff h.decision, h.conditions, List.forall_mem_cons,
    List.forall_mem_singleton]
  exact and_congr_left' (Path.captures?_isSome_iff.trans (exists_congr fun _ => fits_under_iff))

/-- The parameters of a match are the action, the controller and what the path captured. -/
theorem Serves.exists_of_accept? (h : row.Serves name o route)
    (hpath : row.form.Written row.path) {params : Params}
    (haccept : route.accept? request = some params) :
    ∃ found value, row.form.Meets name found request.path ∧
      params = row.form.answer row.action value found ∧
      ∀ text, o = [.literal text] → value = some text := by
  obtain ⟨space, hspace, hparams⟩ := Route.accept?_eq_some_iff.mp haccept
  rw [h.decision] at hparams
  rw [h.conditions] at hspace
  obtain ⟨⟨field, c⟩, rest, ⟨hfield, hc⟩, hrest, rfl⟩ := List.forall₂_cons_left_iff.mp hspace
  obtain ⟨found, hfits, hgroups⟩ := Path.fits_of_captures? hc
  have hfound : ∀ k, k ≠ 0 → Route.groupText ((field, c) :: rest) .path k =
      (found.lookup k).map String.ofList := by
    intro k hk
    have hfield' : field = .path := hfield
    rw [hfield', Route.groupText, List.lookup_cons_self]
    exact hgroups k hk
  refine ⟨found, o.evaluate (Route.groupText ((field, c) :: rest)), fits_under_iff.mp hfits, ?_, ?_⟩
  · rw [← hparams, h.outputs]
    exact paramsOf_outputs hpath hfound
  · rintro text rfl
    simp [Output.evaluate, Output.partValue]

/-- The route is what the row makes with a template for the controller. -/
def Served (name controller : String) (row : Row) (route : Route) : Prop :=
  row.form.Written row.path ∧ ∃ o placeholders,
    Output.compile "controller" controller placeholders = .ok o ∧ row.Serves name o route

theorem Served.accept?_eq_none {controller : String} (h : Served name controller row route)
    (hrow : ¬ row.Takes name request) : route.accept? request = none := by
  obtain ⟨-, o, placeholders, -, hserves⟩ := h
  rw [← Option.not_isSome_iff_eq_none, hserves.isSome_accept?_iff]
  exact hrow

end Row

end Signpost.Resource
