import Signpost.Ordered

/-! # Query values

The values that parameters carry: texts, lists and maps of values.
-/
namespace Signpost.Query

inductive Value where
  | text (s : String)
  | list (items : List Value)
  | map (entries : List (String × Value))

mutual

def Value.decEq : ∀ v w : Value, Decidable (v = w)
  | .text s, .text t => decidable_of_iff (s = t) ⟨congrArg Value.text, Value.text.inj⟩
  | .list vs, .list ws =>
    match decEqItems vs ws with
    | isTrue h => isTrue (congrArg Value.list h)
    | isFalse h => isFalse fun heq => h (Value.list.inj heq)
  | .map es, .map fs =>
    match decEqEntries es fs with
    | isTrue h => isTrue (congrArg Value.map h)
    | isFalse h => isFalse fun heq => h (Value.map.inj heq)
  | .text _, .list _ | .text _, .map _ | .list _, .text _ | .list _, .map _ | .map _, .text _
  | .map _, .list _ => isFalse nofun

def Value.decEqItems : ∀ vs ws : List Value, Decidable (vs = ws)
  | [], [] => isTrue rfl
  | v :: vs, w :: ws =>
    match decEq v w, decEqItems vs ws with
    | isTrue h, isTrue hs => isTrue (by rw [h, hs])
    | isFalse h, _ => isFalse fun heq => h (List.cons.inj heq).1
    | _, isFalse hs => isFalse fun heq => hs (List.cons.inj heq).2
  | [], _ :: _ | _ :: _, [] => isFalse nofun

def Value.decEqEntries : ∀ es fs : List (String × Value), Decidable (es = fs)
  | [], [] => isTrue rfl
  | (k, v) :: es, (l, w) :: fs =>
    if hk : k = l then
      match decEq v w, decEqEntries es fs with
      | isTrue h, isTrue hs => isTrue (by rw [hk, h, hs])
      | isFalse h, _ => isFalse fun heq => h (Prod.mk.inj (List.cons.inj heq).1).2
      | _, isFalse hs => isFalse fun heq => hs (List.cons.inj heq).2
    else isFalse fun heq => hk (Prod.mk.inj (List.cons.inj heq).1).1
  | [], _ :: _ | _ :: _, [] => isFalse nofun

end

instance : DecidableEq Value := Value.decEq

abbrev QueryMap := Entries String Value

def Value.text? : Value → Option String
  | .text s => some s
  | _ => none

end Signpost.Query
