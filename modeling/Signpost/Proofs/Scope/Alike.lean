import Mathlib.Data.List.Forall2
import Signpost.Proofs.Scope.Params
import Signpost.Statement

/-! # Scopes that come to the same

A scope is merged level by level, from the outside in, and what one more level makes of it depends
only on what the levels so far come to. Levels that come to the same behind every scope can stand
for each other: whatever is declared inside them is the same declaration.
-/
namespace Signpost
open Entries

namespace Scope

/-- What the levels of a scope come to. -/
@[ext] structure Merged where
  sources : Entries Field (List Char)
  declared : Entries Field (List Char)
  params : Params
  /-- The groups of the path. -/
  groups : Nat
  placeholders : Entries String (Field × Nat)
  template : Except Irreversible (List Char)
  hasRegex : Bool

def mergeConditions (pick : Condition → List Char) (merged : Entries Field (List Char))
    (l : Level) : Entries Field (List Char) :=
  l.conditions.foldl (fun merged (field, c) => mergeCondition merged field (pick c)) merged

theorem template_cons (l : Level) (s : Scope) :
    template (l :: s) = (template [l]).bind fun text => (template s).map (text ++ ·) := by
  rw [template, template]
  cases find? .path l.conditions with
  | none =>
    simp only [template, Except.bind, List.nil_append]
    cases template s <;> rfl
  | some c =>
    cases htext : c.template with
    | none => simp only [htext]; rfl
    | some text =>
      simp only [htext, template, Except.map, Except.bind, List.append_nil]

def extendTemplate (template : Except Irreversible (List Char)) (l : Level) :
    Except Irreversible (List Char) :=
  template.bind fun text => (Scope.template [l]).map (text ++ ·)

namespace Merged

def empty : Merged := ⟨[], [], [], 0, [], .ok [], false⟩

def add (m : Merged) (l : Level) : Merged where
  sources := mergeConditions Condition.source m.sources l
  declared := mergeConditions (·.declared.toList) m.declared l
  params := m.params.extend l.params
  groups := m.groups + l.pathGroups
  placeholders := m.placeholders.extend (l.placeholders.mapValues (shift m.groups))
  template := extendTemplate m.template l
  hasRegex := m.hasRegex || l.hasRegex

@[simp] theorem sources_add (m : Merged) (l : Level) :
    (m.add l).sources = mergeConditions Condition.source m.sources l := rfl

@[simp] theorem declared_add (m : Merged) (l : Level) :
    (m.add l).declared = mergeConditions (·.declared.toList) m.declared l := rfl

@[simp] theorem params_add (m : Merged) (l : Level) :
    (m.add l).params = m.params.extend l.params := rfl

@[simp] theorem groups_add (m : Merged) (l : Level) :
    (m.add l).groups = m.groups + l.pathGroups := rfl

@[simp] theorem placeholders_add (m : Merged) (l : Level) :
    (m.add l).placeholders = m.placeholders.extend (l.placeholders.mapValues (shift m.groups)) :=
  rfl

@[simp] theorem template_add (m : Merged) (l : Level) :
    (m.add l).template = extendTemplate m.template l := rfl

@[simp] theorem hasRegex_add (m : Merged) (l : Level) :
    (m.add l).hasRegex = (m.hasRegex || l.hasRegex) := rfl

def addAll (m : Merged) (s : Scope) : Merged := s.foldl add m

theorem addAll_append (m : Merged) (s t : Scope) : m.addAll (s ++ t) = (m.addAll s).addAll t :=
  List.foldl_append

theorem placeholders_addAll (m : Merged) (s : Scope) :
    (m.addAll s).placeholders = placeholdersFrom m.groups m.placeholders s := by
  induction s generalizing m with
  | nil => rfl
  | cons l s ih => exact ih (m.add l)

theorem template_addAll (m : Merged) (s : Scope) :
    (m.addAll s).template = m.template.bind fun text => (Scope.template s).map (text ++ ·) := by
  induction s generalizing m with
  | nil => cases ht : m.template <;> simp [addAll, ht, Scope.template, Except.bind, Except.map]
  | cons l s ih =>
    refine (ih (m.add l)).trans ?_
    rw [template_cons]
    change Except.bind (extendTemplate m.template l) _ = _
    unfold extendTemplate
    cases m.template <;> cases Scope.template [l] <;> cases Scope.template s <;>
      simp [Except.bind, Except.map]

theorem hasRegex_addAll (m : Merged) (s : Scope) :
    (m.addAll s).hasRegex = (m.hasRegex || s.hasRegex) := by
  induction s generalizing m with
  | nil => simp [addAll, Scope.hasRegex]
  | cons l s ih =>
    refine (ih (m.add l)).trans ?_
    simp [add, Scope.hasRegex, Bool.or_assoc]

theorem groups_addAll (m : Merged) (s : Scope) :
    (m.addAll s).groups = m.groups + Scope.groups s := by
  induction s generalizing m with
  | nil => rfl
  | cons l s ih =>
    refine (ih (m.add l)).trans ?_
    simp [add, Scope.groups, Nat.add_assoc]

theorem addAll_empty (s : Scope) :
    empty.addAll s = ⟨s.sources, s.declaredSources, s.params, Scope.groups s, s.placeholders,
      s.template, s.hasRegex⟩ := by
  have hsources : (empty.addAll s).sources = s.sources :=
    (List.foldl_hom Merged.sources fun _ _ => rfl).symm
  have hdeclared : (empty.addAll s).declared = s.declaredSources :=
    (List.foldl_hom Merged.declared fun _ _ => rfl).symm
  have hparams : (empty.addAll s).params = s.params :=
    (List.foldl_hom Merged.params fun _ _ => rfl).symm
  have hgroups : (empty.addAll s).groups = Scope.groups s :=
    (groups_addAll empty s).trans (Nat.zero_add _)
  have htemplate : (empty.addAll s).template = s.template := by
    refine (template_addAll empty s).trans ?_
    change (Scope.template s).map ([] ++ ·) = _
    cases Scope.template s <;> rfl
  have hregex : (empty.addAll s).hasRegex = s.hasRegex :=
    (hasRegex_addAll empty s).trans (Bool.false_or _)
  have hplaceholders : (empty.addAll s).placeholders = s.placeholders := placeholders_addAll empty s
  rw [← hsources, ← hdeclared, ← hparams, ← hgroups, ← hplaceholders, ← htemplate, ← hregex]

/-- Maps that have their entries in order. -/
structure Ordered (m : Merged) : Prop where
  params : Sorted m.params
  placeholders : Sorted m.placeholders

theorem ordered_empty : empty.Ordered := ⟨sorted_nil, sorted_nil⟩

theorem Ordered.add {m : Merged} (h : m.Ordered) (l : Level) : (m.add l).Ordered :=
  ⟨sorted_extend h.params _, sorted_extend h.placeholders _⟩

theorem Ordered.addAll {m : Merged} (h : m.Ordered) (s : Scope) : (m.addAll s).Ordered := by
  induction s generalizing m with
  | nil => exact h
  | cons l s ih => exact ih (h.add l)

end Merged

/-- The levels come to the same, whatever stands outside them. -/
def Alike (s t : Scope) : Prop := ∀ m : Merged, m.Ordered → m.addAll s = m.addAll t

section Alike
variable {s s' t t' : Scope}

theorem Alike.refl (s : Scope) : Alike s s := fun _ _ => rfl

theorem Alike.trans {u : Scope} (h : Alike s t) (h' : Alike t u) : Alike s u :=
  fun m hm => (h m hm).trans (h' m hm)

theorem Alike.append (h : Alike s s') (h' : Alike t t') : Alike (s ++ t) (s' ++ t') := by
  intro m hm
  rw [Merged.addAll_append, Merged.addAll_append, h m hm, h' _ (hm.addAll s')]

theorem Alike.within (h : Alike s t) (conditions : Conditions) (params : List (String × String)) :
    Alike (s.within conditions params) (t.within conditions params) :=
  h.append (.refl _)

theorem Alike.params_eq (h : Alike s t) : s.params = t.params := by
  have hmerged := h _ Merged.ordered_empty
  rw [Merged.addAll_empty, Merged.addAll_empty] at hmerged
  exact congrArg Merged.params hmerged

/-- Scopes that come to the same declare the same routes, with the same failures. -/
theorem Alike.ofScope_eq (h : Alike s t) (params : List (String × String)) (defaults : Params)
    (decision : Option Decision) :
    Route.ofScope s params defaults decision = Route.ofScope t params defaults decision := by
  have hmerged := h _ Merged.ordered_empty
  rw [Merged.addAll_empty, Merged.addAll_empty, Merged.mk.injEq] at hmerged
  obtain ⟨hsources, hdeclared, hparams, -, hplaceholders, htemplate, hregex⟩ := hmerged
  simp only [Route.ofScope, Route.outputParams, Route.compileConditions, Scope.segments,
    hsources, hdeclared, hparams, hplaceholders, htemplate, hregex]

end Alike

end Scope

open Scope

namespace Declare
variable {s t : Scope}

theorem throw_bind {α β : Type} (e : RouteError) (f : α → Declare β) :
    (throw e : Declare α) >>= f = throw e := rfl

theorem listed_alike (h : Alike s t) (params : List (String × String))
    (decision : Option Decision) : listed s params decision = listed t params decision := by
  simp only [listed, build, h.ofScope_eq]

theorem detached_alike (h : Alike s t) (params : List (String × String)) :
    detached s params = detached t params := by
  simp only [detached, build, h.ofScope_eq]

theorem address_alike (h : Alike s t) (path routeName : String) :
    address s path routeName = address t path routeName := by
  rw [address, detached_alike (h.within _ _), address]

end Declare

namespace Resource
variable {s t : Scope}

theorem addressAll_alike (h : Alike s t) (addresses : List (String × String)) :
    addressAll s addresses = addressAll t addresses := by
  induction addresses with
  | nil => rfl
  | cons a rest ih => simp only [addressAll, Declare.address_alike h, ih]

theorem listAll_alike {ss ts : List Scope} (h : List.Forall₂ Alike ss ts) (params : Params) :
    listAll params ss = listAll params ts := by
  induction h with
  | nil => rfl
  | cons hs _ ih => simp only [listAll, Declare.listed_alike hs, ih]

theorem forall₂_map_alike {α : Type} {f g : α → Scope} (h : ∀ a, Alike (f a) (g a))
    (actions : List α) : List.Forall₂ Alike (actions.map f) (actions.map g) := by
  rw [List.forall₂_map_left_iff, List.forall₂_map_right_iff, List.forall₂_same]
  exact fun a _ => h a

theorem usualScope_alike (h : Alike s t) (a : UsualAction) :
    Alike (usualScope s a) (usualScope t a) :=
  h.within _ _

theorem extraScope_alike (h : Alike s t) (opening : String) (a : ExtraAction) :
    Alike (extraScope s opening a) (extraScope t opening a) :=
  h.within _ _

theorem resolve_alike (h : Alike s t) : resolve s = resolve t := by
  funext name options
  simp only [resolve, h.params_eq]

/-- A resource is declared in the same way in scopes that come to the same, and the scopes inside
it come to the same. -/
theorem plural_bind_alike (h : Alike s t) (name : String) (options : ResourceOptions)
    {inside : Scope → Declare Unit} (hinside : ∀ s t, Alike s t → inside s = inside t) :
    plural s name options >>= inside = plural t name options >>= inside := by
  have hbase := h.within [(.path, .literal ("/" ++ name))] []
  have hscopes := List.rel_append
    (List.rel_append (forall₂_map_alike (extraScope_alike hbase "^/:id[/;]") options.member)
      (forall₂_map_alike (extraScope_alike hbase "^[/;]") options.collection))
    (forall₂_map_alike (usualScope_alike hbase) pluralActions)
  simp only [plural, resolve_alike h, bind_assoc, pure_bind, addressAll_alike hbase]
  refine bind_congr fun r => bind_congr fun _ => bind_congr fun _ => ?_
  rw [hinside _ _ (hbase.within _ _)]
  exact congrArg (· >>= _) (listAll_alike hscopes r.params)

theorem singular_bind_alike (h : Alike s t) (name : String) (options : ResourceOptions)
    {inside : Scope → Declare Unit} (hinside : ∀ s t, Alike s t → inside s = inside t) :
    singular s name options >>= inside = singular t name options >>= inside := by
  have hbase := h.within [(.path, .literal ("/" ++ name))] []
  have hscopes := forall₂_map_alike (usualScope_alike hbase) singularActions
  rw [singular, singular]
  split
  · simp only [Declare.throw_bind]
  · simp only [resolve_alike h, bind_assoc, pure_bind, addressAll_alike hbase]
    refine bind_congr fun r => ?_
    rw [hinside _ _ hbase]
    exact congrArg (· >>= _) (listAll_alike hscopes r.params)

end Resource

namespace Statement

theorem declareRoute_alike {s t : Scope} (h : Alike s t) (placement : Placement)
    (params : List (String × String)) (name : Option String) :
    declareRoute s placement params name = declareRoute t placement params name := by
  have hplace : place s params placement = place t params placement := by
    cases placement with
    | listed => exact Declare.listed_alike h params none
    | detached => exact Declare.detached_alike h params
    | deferred decision => exact Declare.listed_alike h params (some decision)
    | catchAll => exact Declare.listed_alike (h.within _ _) params none
  rw [declareRoute, hplace, declareRoute]

mutual

theorem run_alike {s t : Scope} (h : Alike s t) (statement : Statement) :
    run s statement = run t statement := by
  cases statement with
  | within conditions params body => exact runAll_alike (h.within conditions params) body
  | block body => exact runAll_alike h body
  | route placement params name => exact declareRoute_alike h placement params name
  | resources name options body =>
    exact Resource.plural_bind_alike h name options fun _ _ hinner => runAll_alike hinner body
  | resource name options body =>
    exact Resource.singular_bind_alike h name options fun _ _ hinner => runAll_alike hinner body
  | attempt body => exact congrArg attempting (runAll_alike h body)
  | reject error => rfl

theorem runAll_alike {s t : Scope} (h : Alike s t) (body : List Statement) :
    runAll s body = runAll t body := by
  cases body with
  | nil => rfl
  | cons statement rest => simp only [runAll, run_alike h statement, runAll_alike h rest]

end

end Statement

end Signpost
