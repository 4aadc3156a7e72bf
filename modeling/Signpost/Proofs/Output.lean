import Mathlib.Data.List.TakeWhile
import Signpost.Proofs.Entries
import Signpost.Proofs.Result
import Signpost.Route

/-! # Compiled parameters

Compiling the template of a parameter fails for a group or a placeholder, never for an expression.
A text stands as it is written unless an underscore is escaped in it. The template that a placeholder
gives to its own parameter is the group of the placeholder.
-/
namespace Signpost
open Entries

/-- The error is about an expression. -/
def RouteError.IsPattern : RouteError → Prop
  | invalidPattern _ _ _ => True
  | _ => False

namespace Output

theorem not_isPattern_of_group {param : String} {field : Field} {digits : List Char}
    {e : RouteError} (h : group param field digits = .error e) : ¬ e.IsPattern := by
  unfold group at h
  split at h
  · cases h
  · cases h
    exact id

theorem not_isPattern_of_reference {param : String} {placeholders : Entries String (Field × Nat)}
    {token : OutputToken} {e : RouteError} (h : reference param placeholders token = .error e) :
    ¬ e.IsPattern := by
  cases token with
  | pathGroup digits => exact not_isPattern_of_group h
  | fieldGroup name digits => exact not_isPattern_of_group h
  | name name =>
    simp only [reference] at h
    split at h
    · cases h
    · cases h
      exact id

theorem not_isPattern_of_compileParts {param : String}
    {placeholders : Entries String (Field × Nat)} {parts : List (List Char × OutputToken)}
    {e : RouteError} (h : compileParts param placeholders parts = .error e) : ¬ e.IsPattern := by
  induction parts with
  | nil => cases h
  | cons part parts ih =>
    obtain ⟨before, token⟩ := part
    rw [compileParts] at h
    rcases of_bind_eq_error h with h | ⟨here, -, h⟩
    · exact not_isPattern_of_reference h
    · rcases of_bind_eq_error h with h | ⟨rest, -, h⟩
      · exact ih h
      · cases h

theorem not_isPattern_of_compile {param template : String}
    {placeholders : Entries String (Field × Nat)} {e : RouteError}
    (h : compile param template placeholders = .error e) : ¬ e.IsPattern := by
  unfold compile at h
  rcases of_bind_eq_error h with h | ⟨parts, -, h⟩
  · exact not_isPattern_of_compileParts h
  · cases h

end Output

theorem Route.not_isPattern_of_outputParams {s : Scope} {params : List (String × String)}
    {defaults : Params} {e : RouteError} (h : outputParams s params defaults = .error e) :
    ¬ e.IsPattern := by
  obtain ⟨⟨name, template⟩, -, h⟩ := exists_of_mapM_eq_error h
  rcases of_bind_eq_error h with h | ⟨output, -, h⟩
  · exact Output.not_isPattern_of_compile h
  · cases h

namespace Output

@[simp] theorem unescape_nil : unescape [] = [] := by rw [unescape]

theorem unescape_escaped (cs : List Char) : unescape ('\\' :: '_' :: cs) = '_' :: unescape cs := by
  rw [unescape]

theorem unescape_cons {c : Char} {cs : List Char} (h : ¬ ['\\', '_'] <+: c :: cs) :
    unescape (c :: cs) = c :: unescape cs := by
  rw [unescape]
  rintro rest rfl rfl
  exact h ⟨rest, rfl⟩

/-- An escaped underscore is read wherever it stands. -/
theorem unescape_append_escaped (before after : List Char) :
    unescape (before ++ '\\' :: '_' :: after) = unescape before ++ '_' :: unescape after := by
  fun_induction unescape before with
  | case1 => exact unescape_escaped after
  | case2 rest ih => rw [List.cons_append, List.cons_append, unescape_escaped, ih, List.cons_append]
  | case3 c rest hc ih =>
    rw [List.cons_append, unescape_cons, ih, List.cons_append]
    rintro ⟨more, heq⟩
    cases rest with
    | nil => simp at heq
    | cons d rest =>
      simp only [List.cons_append, List.nil_append, List.cons.injEq] at heq
      obtain ⟨rfl, rfl, -⟩ := heq
      exact hc rest rfl rfl

theorem unescape_eq_self {cs : List Char} (h : ¬ ['\\', '_'] <:+: cs) : unescape cs = cs := by
  induction cs with
  | nil => exact unescape_nil
  | cons c cs ih =>
    rw [unescape_cons fun hpre => h hpre.isInfix,
      ih fun hescaped => h (hescaped.trans (List.suffix_cons c cs).isInfix)]

theorem unescape_of_notMem {cs : List Char} (h : '\\' ∉ cs) : unescape cs = cs :=
  unescape_eq_self fun hescaped => h (hescaped.subset (List.mem_cons_self ..))

theorem length_unescape_le (cs : List Char) : (unescape cs).length ≤ cs.length := by
  fun_induction unescape cs with
  | case1 => exact le_rfl
  | case2 rest ih =>
    simp only [List.length_cons]
    omega
  | case3 c rest hc ih => exact Nat.succ_le_succ ih

theorem unescape_eq_self_iff {cs : List Char} : unescape cs = cs ↔ ¬ ['\\', '_'] <:+: cs := by
  refine ⟨?_, unescape_eq_self⟩
  rintro h ⟨before, after, rfl⟩
  have hlength := congrArg List.length h
  have hbefore := length_unescape_le before
  have hafter := length_unescape_le after
  rw [List.append_assoc, List.cons_append, List.singleton_append, unescape_append_escaped] at hlength
  simp only [List.length_append, List.length_cons] at hlength
  omega

open Placeholder (isNameStart isNameChar)

theorem atStart?_name {c : Char} {tail : List Char} (hc : isNameStart c = true)
    (htail : ∀ d ∈ tail, isNameChar d = true) :
    OutputToken.atStart? (':' :: c :: tail) = some (.name (c :: tail), []) := by
  have htake : tail.takeWhile isNameChar = tail := List.takeWhile_eq_self_iff.mpr htail
  have hdrop : tail.dropWhile isNameChar = [] := List.dropWhile_eq_nil_iff.mpr htail
  simp only [OutputToken.atStart?, hc, if_true, htake, hdrop]
  rfl

theorem splitTemplate_of_atStart? {before cs rest : List Char} {token : OutputToken}
    (h : OutputToken.atStart? cs = some (token, rest)) :
    splitTemplate before cs =
      ((before.reverse, token) :: (splitTemplate [] rest).1, (splitTemplate [] rest).2) := by
  rw [splitTemplate]
  split
  · rename_i h'
    rw [h] at h'
    cases h'
    rfl
  · rename_i h'
    rw [h] at h'
    cases h'

theorem splitTemplate_of_none {c : Char} {rest : List Char}
    (h : OutputToken.atStart? (c :: rest) = none) (before : List Char) :
    splitTemplate before (c :: rest) = splitTemplate (c :: before) rest := by
  rw [splitTemplate]
  split
  · rename_i h'
    rw [h] at h'
    cases h'
  · rfl

theorem splitTemplate_end (before : List Char) : splitTemplate before [] = ([], before.reverse) := by
  rw [splitTemplate]
  rfl

theorem resolve_declared {placeholders : Entries String (Field × Nat)} {name : List Char}
    {place : Field × Nat} (hname : name ≠ [])
    (h : find? (String.ofList name) placeholders = some place) :
    resolve placeholders name = some (place, []) := by
  unfold resolve
  cases hr : name.reverse with
  | nil => exact absurd (List.reverse_eq_nil_iff.mp hr) hname
  | cons c shorter =>
    have hback : (c :: shorter).reverse = name := by rw [← hr, List.reverse_reverse]
    rw [resolveFrom, hback, h]

theorem compile_placeholder {placeholders : Entries String (Field × Nat)} {c : Char}
    {tail : List Char} {place : Field × Nat} (hc : isNameStart c = true)
    (htail : ∀ d ∈ tail, isNameChar d = true)
    (h : find? (String.ofList (c :: tail)) placeholders = some place) (param : String) :
    compile param (":" ++ String.ofList (c :: tail)) placeholders =
      .ok [.capture place.1 place.2] := by
  have hsplit : splitTemplate [] (":" ++ String.ofList (c :: tail)).toList =
      ([([], .name (c :: tail))], []) := by
    have hlist : (":" ++ String.ofList (c :: tail)).toList = ':' :: c :: tail := by simp
    rw [hlist, splitTemplate_of_atStart? (atStart?_name hc htail), splitTemplate_end]
    rfl
  rw [compile, hsplit]
  simp only [compileParts, reference, resolve_declared (List.cons_ne_nil c tail) h]
  rfl

theorem evaluate_capture (field : Field) (group : Nat)
    (capture : Field → Nat → Option String) :
    evaluate [.capture field group] capture = capture field group := by
  rw [evaluate, List.mapM_cons, List.mapM_nil, partValue]
  cases capture field group with
  | none => rfl
  | some text => exact congrArg some (by simp)

end Output

namespace Route

theorem outputParam_name {placeholders : Entries String (Field × Nat)} {defaults : Params}
    {name template : String} {p : OutputParam}
    (h : outputParam placeholders defaults name template = .ok p) : p.name = name := by
  obtain ⟨output, -, h⟩ := exists_of_bind_eq_ok h
  cases h
  rfl

/-- A captured value, or what stands for one that is missing or empty. -/
def settled (value fallback : Option String) : Option String :=
  if value.getD "" = "" then fallback.or value else value

theorem settled_of_ne {value : String} (h : value ≠ "") (fallback : Option String) :
    settled (some value) fallback = some value :=
  if_neg h

theorem settled_eq_or {value : Option String} (h : value ≠ some "") (fallback : Option String) :
    settled value fallback = value.or fallback := by
  cases value with
  | none => exact Option.or_none
  | some text => exact settled_of_ne (fun htext => h (congrArg some htext)) fallback

theorem paramValue_eq (space : CaptureSpace) (p : OutputParam) :
    paramValue space p = settled (p.output.evaluate (groupText space)) p.fallback := by
  unfold paramValue
  generalize p.output.evaluate (groupText space) = value
  generalize p.fallback = fallback
  cases value with
  | none => cases fallback <;> rfl
  | some text =>
    by_cases htext : text = ""
    · subst htext
      cases fallback <;> rfl
    · rw [settled_of_ne htext]
      split
      · rename_i heq
        exact absurd (Option.some.inj heq) htext
      · rename_i heq
        nomatch heq
      · rfl

/-- A parameter of a match has the value of its own template, and none if that has none. -/
theorem find?_paramsOf {s : Scope} {params : List (String × String)} {defaults : Params}
    {outputs : List OutputParam} (hs : Sorted (s.params.extend params))
    (h : outputParams s params defaults = .ok outputs) {name template : String}
    (hname : find? name (s.params.extend params) = some template) {p : OutputParam}
    (hp : outputParam s.placeholders defaults name template = .ok p) (space : CaptureSpace) :
    find? name (paramsOf outputs space) = paramValue space p := by
  obtain ⟨hinto, hfrom⟩ := mem_of_mapM_eq_ok h
  have hpname := outputParam_name hp
  have hown : ∀ e ∈ outputs.filterMap fun p => (paramValue space p).map (p.name, ·),
      e.1 = name → paramValue space p = some e.2 := by
    intro e he heq
    obtain ⟨p', hp', hsome⟩ := List.mem_filterMap.mp he
    obtain ⟨value', hvalue', rfl⟩ := Option.map_eq_some_iff.mp hsome
    obtain ⟨⟨name', template'⟩, hmem, hok⟩ := hfrom p' hp'
    have hname' : name' = name := (outputParam_name hok).symm.trans heq
    subst hname'
    cases (hs.find?_of_mem hmem).symm.trans hname
    cases hok.symm.trans hp
    exact hvalue'
  cases hvalue : paramValue space p with
  | none =>
    rw [paramsOf, find?_ofList]
    refine find?_eq_none fun e he heq => ?_
    have hsome := hown e (List.mem_reverse.mp he) heq
    rw [hvalue] at hsome
    cases hsome
  | some value =>
    refine find?_ofList_of_forall ?_ fun e he heq => ?_
    · obtain ⟨p', hp', hok⟩ := hinto (name, template) (mem_of_find? hname)
      cases hok.symm.trans hp
      exact List.mem_filterMap.mpr ⟨p, hp', by rw [hvalue, hpname]; rfl⟩
    · exact Option.some.inj ((hown e he heq).symm.trans hvalue)

theorem find?_paramsOf_eq_none {s : Scope} {params : List (String × String)} {defaults : Params}
    {outputs : List OutputParam} (h : outputParams s params defaults = .ok outputs) {name : String}
    (hname : find? name (s.params.extend params) = none) (space : CaptureSpace) :
    find? name (paramsOf outputs space) = none := by
  rw [paramsOf, find?_ofList]
  refine find?_eq_none fun e he heq => ?_
  obtain ⟨p, hp, hsome⟩ := List.mem_filterMap.mp (List.mem_reverse.mp he)
  obtain ⟨value, -, rfl⟩ := Option.map_eq_some_iff.mp hsome
  obtain ⟨⟨name', template⟩, hmem, hok⟩ := (mem_of_mapM_eq_ok h).2 p hp
  exact ne_of_find?_eq_none hname _ hmem ((outputParam_name hok).symm.trans heq)

end Route

end Signpost
