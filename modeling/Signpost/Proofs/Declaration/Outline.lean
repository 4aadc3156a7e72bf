import Signpost.Proofs.Declaration.Single

/-! # Declarations with an open place

A declaration may be left open at one place, inside scopes, attempts and resources. Bodies that do the
same on the scope of that place do the same in the whole declaration.
-/
namespace Signpost
open Resource (Resolved)

/-- A statement with a body, without its body. -/
inductive Layer where
  | within (conditions : Conditions) (own : List (String × String))
  | block
  | attempt
  | resources (name : String) (options : ResourceOptions)
  | resource (name : String) (options : ResourceOptions)

namespace Layer

def around (body : List Statement) : Layer → Statement
  | within conditions own => .within conditions own body
  | block => .block body
  | attempt => .attempt body
  | resources name options => .resources name options body
  | resource name options => .resource name options body

def scope? (s : Scope) : Layer → Option Scope
  | within conditions own => some (s.within conditions own)
  | block => some s
  | attempt => some s
  | resources name options =>
    (Resource.resolve s name options).toOption.map fun r =>
      (s.within [(.path, .literal ("/" ++ name))] []).within
        [(.path, .literal ("/:" ++ r.singular ++ "_id"))] []
  | resource name options =>
    if !options.member.isEmpty || !options.collection.isEmpty then none
    else (Resource.resolve s name options).toOption.map fun _ =>
      s.within [(.path, .literal ("/" ++ name))] []

end Layer

/-- A declaration that is open at one place. -/
inductive Outline where
  | here (before after : List Statement)
  | inside (before : List Statement) (layer : Layer) (inner : Outline) (after : List Statement)

namespace Outline

def fill (body : List Statement) : Outline → List Statement
  | here before after => before ++ (body ++ after)
  | inside before layer inner after => before ++ layer.around (inner.fill body) :: after

def scope? (s : Scope) : Outline → Option Scope
  | here _ _ => some s
  | inside _ layer inner _ => (layer.scope? s).bind fun s => inner.scope? s

end Outline

namespace Trace
open Statement
variable {defaults : Params} {s : Scope} {body body' : List Statement}

theorem ofStatement_around (layer : Layer)
    (h : ∀ s', layer.scope? s = some s' →
      ofStatements defaults s' body = ofStatements defaults s' body') :
    ofStatement defaults s (layer.around body) = ofStatement defaults s (layer.around body') := by
  cases layer with
  | within conditions own =>
    rw [Layer.around, Layer.around, ofStatement, ofStatement, h _ rfl]
  | block => rw [Layer.around, Layer.around, ofStatement, ofStatement, h _ rfl]
  | attempt => rw [Layer.around, Layer.around, ofStatement, ofStatement, h _ rfl]
  | resources name options =>
    rw [Layer.around, Layer.around, ofStatement_expand, ofStatement_expand, expand, expand]
    cases hresolve : Resource.resolve s name options with
    | error e => rfl
    | ok r =>
      have hbody := h _ (by rw [Layer.scope?, hresolve]; rfl)
      simp only [Except.map, ofStatement, ofStatements_append, ofStatements_singleton, hbody]
  | resource name options =>
    rw [Layer.around, Layer.around, ofStatement_expand, ofStatement_expand, expand, expand]
    by_cases hextra : (!options.member.isEmpty || !options.collection.isEmpty) = true
    · rw [if_pos hextra, if_pos hextra]
    · rw [if_neg hextra, if_neg hextra]
      cases hresolve : Resource.resolve s name options with
      | error e => rfl
      | ok r =>
        have hbody := h _ (by rw [Layer.scope?, if_neg hextra, hresolve]; rfl)
        simp only [Except.map, ofStatement, ofStatements_append, ofStatements_singleton, hbody]

/-- What a declaration does depends on the body at its open place only by what this body does. -/
theorem ofStatements_fill (outline : Outline)
    (h : ∀ s', outline.scope? s = some s' →
      ofStatements defaults s' body = ofStatements defaults s' body') :
    ofStatements defaults s (outline.fill body) = ofStatements defaults s (outline.fill body') := by
  induction outline generalizing s with
  | here before after =>
    rw [Outline.fill, Outline.fill, ofStatements_append, ofStatements_append, ofStatements_append,
      ofStatements_append, h s rfl]
  | inside before layer inner after ih =>
    have hlayer : ofStatement defaults s (layer.around (inner.fill body)) =
        ofStatement defaults s (layer.around (inner.fill body')) :=
      ofStatement_around layer fun s' hs' => ih fun s'' hs'' =>
        h s'' (Option.bind_eq_some_iff.mpr ⟨s', hs', hs''⟩)
    rw [Outline.fill, Outline.fill, ofStatements_append, ofStatements_append, ofStatements,
      ofStatements, hlayer]

end Trace

end Signpost
