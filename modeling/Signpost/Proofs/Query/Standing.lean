import Signpost.Proofs.Query.Sequence
import Mathlib.Logic.Basic

/-! # What names stand for

A value takes further texts through the last items of its lists only. What it holds at a name there
is settled by the names that were written before, and a text finds its place exactly if its name
goes on from each shorter one as what that stands for.
-/
namespace Signpost.Query
open Value Value.leaves

inductive Kind where
  | text
  | list
  | map
  deriving DecidableEq, Repr

def Value.kind : Value → Kind
  | .text _ => .text
  | .list _ => .list
  | .map _ => .map

def kindOf : List Step → Kind
  | [] => .text
  | .push :: _ => .list
  | .key _ :: _ => .map

theorem kindOf_append {n : List Step} (hn : n ≠ []) (r : List Step) :
    kindOf (n ++ r) = kindOf n := by
  match n with
  | .push :: _ => rfl
  | .key _ :: _ => rfl

theorem kindOf_ne_text {r : List Step} (hr : r ≠ []) : kindOf r ≠ .text := by
  match r with
  | .push :: _ => exact nofun
  | .key _ :: _ => exact nofun

theorem Placed.kind_eq {s : String} {p : List Step} {cur : Option Value} {w : Value}
    (h : Placed (.text s) p cur w) : w.kind = kindOf p := by
  cases h <;> rfl

/-- The kind of what is at the end of a path that leads through last items only. -/
def Value.kindAt : List Step → Value → Option Kind
  | [], v => some v.kind
  | .key k :: n, .map entries => (Entries.find? k entries).bind (kindAt n)
  | .push :: n, .list items => items.getLast?.bind (kindAt n)
  | _, _ => none

section KindAt
variable {v : Value} {n r : List Step} {κ : Kind}

theorem kindAt_key {k : String} {entries : Entries String Value} :
    (Value.map entries).kindAt (.key k :: n) = (entries.find? k).bind (kindAt n) := rfl

theorem kindAt_push {items : List Value} {last : Value} :
    (Value.list (items ++ [last])).kindAt (.push :: n) = last.kindAt n := by
  rw [kindAt, List.getLast?_concat, Option.bind_some]

theorem kind_of_kindAt (h : v.kindAt n = some κ) (hn : n ≠ []) : v.kind = kindOf n := by
  match n, v with
  | [], _ => exact absurd rfl hn
  | .key _ :: _, .map _ => rfl
  | .push :: _, .list _ => rfl
  | .key _ :: _, .text _ => cases h
  | .key _ :: _, .list _ => cases h
  | .push :: _, .text _ => cases h
  | .push :: _, .map _ => cases h

theorem kindAt_of_append (h : v.kindAt (n ++ r) = some κ) (hr : r ≠ []) :
    v.kindAt n = some (kindOf r) := by
  induction n generalizing v with
  | nil => exact congrArg some (kind_of_kindAt h hr)
  | cons step n ih =>
    match step, v with
    | .key k, .map entries =>
      obtain ⟨u, hu, h⟩ := Option.bind_eq_some_iff.mp h
      exact Option.bind_eq_some_iff.mpr ⟨u, hu, ih h⟩
    | .push, .list items =>
      obtain ⟨u, hu, h⟩ := Option.bind_eq_some_iff.mp h
      exact Option.bind_eq_some_iff.mpr ⟨u, hu, ih h⟩
    | .key _, .text _ => cases h
    | .key _, .list _ => cases h
    | .push, .text _ => cases h
    | .push, .map _ => cases h

theorem hasPath_iff_kindAt : v.hasPath n = true ↔ .push ∉ n ∧ (v.kindAt n).isSome = true := by
  induction n generalizing v with
  | nil => simp [hasPath, kindAt]
  | cons step n ih =>
    cases step with
    | push => simp [hasPath]
    | key k =>
      cases v with
      | text s => simp [hasPath, kindAt]
      | list items => simp [hasPath, kindAt]
      | map entries =>
        rw [hasPath, kindAt_key]
        cases Entries.find? k entries with
        | none => simp
        | some u => simpa using ih

theorem kind_of_takesPath (h : v.takesPath n = true) : v.kind = kindOf n := by
  match v, n with
  | .list _, .push :: _ => rfl
  | .map _, .key _ :: _ => rfl
  | .text _, _ => simp [takesPath] at h
  | .list _, [] => simp [takesPath] at h
  | .list _, .key _ :: _ => simp [takesPath] at h
  | .map _, [] => simp [takesPath] at h
  | .map _, .push :: _ => simp [takesPath] at h

theorem hasPath_of_kind_eq (h : v.takesPath n = false) (hkind : v.kind = kindOf n)
    (hn : n ≠ []) : v.hasPath n = true := by
  match v, n with
  | _, [] => exact absurd rfl hn
  | .list _, .push :: _ => simp [takesPath] at h
  | .map _, .key _ :: _ => simpa [takesPath] using h
  | .text _, .push :: _ => cases hkind
  | .text _, .key _ :: _ => cases hkind
  | .list _, .key _ :: _ => cases hkind
  | .map _, .push :: _ => cases hkind

end KindAt

/-- With the next path it is settled anew what the name stands for: the path goes through the name
or ends on the way to it, or it starts an item in a list that the name goes through, as it needs an
item of another kind or has been taken before. -/
def Renews (taken : Prop) (n q : List Step) : Prop :=
  n <+: q ∨ q <+: n ∨ ∃ s t r, n = s ++ .push :: t ∧ q = s ++ .push :: r ∧
    (kindOf r ≠ kindOf t ∨ .push ∉ r ∧ taken)

theorem renews_nil (taken : Prop) (n : List Step) : Renews taken n [] :=
  Or.inr (Or.inl n.nil_prefix)

theorem renews_cons {taken : Prop} {step : Step} {n q : List Step} :
    Renews taken (step :: n) (step :: q) ↔
      Renews taken n q ∨ step = .push ∧ (kindOf q ≠ kindOf n ∨ .push ∉ q ∧ taken) := by
  simp only [Renews, List.cons_prefix_cons, true_and]
  constructor
  · rintro (h | h | ⟨s, t, r, hn, hq, h⟩)
    · exact Or.inl (Or.inl h)
    · exact Or.inl (Or.inr (Or.inl h))
    · cases s with
      | nil =>
        cases hn
        cases hq
        exact Or.inr ⟨rfl, h⟩
      | cons first s =>
        cases hn
        cases hq
        exact Or.inl (Or.inr (Or.inr ⟨s, t, r, rfl, rfl, h⟩))
  · rintro ((h | h | ⟨s, t, r, rfl, rfl, h⟩) | ⟨rfl, h⟩)
    · exact Or.inl h
    · exact Or.inr (Or.inl h)
    · exact Or.inr (Or.inr ⟨step :: s, t, r, rfl, rfl, h⟩)
    · exact Or.inr (Or.inr ⟨[], n, q, rfl, rfl, h⟩)

theorem not_renews_of_ne {taken : Prop} {step step' : Step} {n q : List Step} (h : step ≠ step') :
    ¬ Renews taken (step :: n) (step' :: q) := by
  simp only [Renews, List.cons_prefix_cons]
  rintro (⟨rfl, -⟩ | ⟨rfl, -⟩ | ⟨s, t, r, hn, hq, -⟩)
  · exact h rfl
  · exact h rfl
  · cases s with
    | nil =>
      cases hn
      cases hq
      exact h rfl
    | cons first s =>
      cases hn
      cases hq
      exact h rfl

section Placed
variable {s : String} {q n : List Step} {cur : Option Value} {w : Value} {κ : Kind}

theorem bind_kindAt {empty c : Value} (hcur : cur.getD empty = c)
    (hempty : empty.kindAt n = none) : cur.bind (kindAt n) = c.kindAt n := by
  cases cur with
  | none =>
    cases hcur
    exact hempty.symm
  | some c => exact congrArg (kindAt n) hcur

theorem Placed.kindAt_nil_iff {taken : Prop} (h : Placed (.text s) q cur w) :
    w.kindAt [] = some κ ↔ (∃ r, q = [] ++ r ∧ kindOf r = κ) ∨
      cur.bind (kindAt []) = some κ ∧ ¬ Renews taken [] q := by
  have hrenews : Renews taken [] q := Or.inl q.nil_prefix
  simp [kindAt, h.kind_eq, hrenews]

theorem renews_push_of_taken {last : Value} {rest : List Step} (htakes : last.takesPath rest = true)
    (h : last.kindAt n = some κ) :
    Renews ((last.kindAt rest).isSome = true) (.push :: n) (.push :: rest) ↔
      Renews ((last.kindAt rest).isSome = true) n rest := by
  have hfree : ¬(.push ∉ rest ∧ (last.kindAt rest).isSome = true) := fun h => by
    rw [← hasPath_iff_kindAt, hasPath_of_takesPath htakes] at h
    cases h
  rw [renews_cons]
  refine ⟨?_, Or.inl⟩
  rintro (hrenews | ⟨-, hkind | htaken⟩)
  · exact hrenews
  · by_cases hn : n = []
    · exact Or.inl (hn ▸ rest.nil_prefix)
    · exact absurd ((kind_of_takesPath htakes).symm.trans (kind_of_kindAt h hn)) hkind
  · exact absurd htaken hfree

theorem renews_push_of_new {items : List Value} {rest : List Step}
    (hnew : ∀ last ∈ items.getLast?, last.takesPath rest = false)
    (h : (Value.list items).kindAt (.push :: n) = some κ) :
    Renews (((Value.list items).kindAt (.push :: rest)).isSome = true) (.push :: n)
      (.push :: rest) := by
  obtain ⟨last, hlast, h⟩ := Option.bind_eq_some_iff.mp h
  rw [renews_cons, kindAt, hlast, Option.bind_some]
  by_cases hn : n = []
  · exact Or.inl (Or.inl (hn ▸ rest.nil_prefix))
  by_cases hrest : rest = []
  · exact Or.inl (hrest ▸ renews_nil _ n)
  refine Or.inr ⟨rfl, or_iff_not_imp_left.mpr fun hkind => ?_⟩
  have hsame : last.kind = kindOf rest := by rw [kind_of_kindAt h hn, not_not.mp hkind]
  exact hasPath_iff_kindAt.mp (hasPath_of_kind_eq (hnew last hlast) hsame hrest)

/-- After a placement a name stands for what the placed path makes of it, or for what it stood for
before if the path does not settle it anew. -/
theorem Placed.kindAt_eq_some_iff (h : Placed (.text s) q cur w) :
    w.kindAt n = some κ ↔ (∃ r, q = n ++ r ∧ kindOf r = κ) ∨
      cur.bind (kindAt n) = some κ ∧ ¬ Renews ((cur.bind (kindAt q)).isSome = true) n q := by
  induction h generalizing n with
  | here => cases n <;> simp [kindAt, renews_nil, Value.kind, kindOf]
  | @entry k rest cur entries u hcur hu ih =>
    match n with
    | [] => exact (Placed.entry hcur hu).kindAt_nil_iff
    | .push :: n =>
      have hnone : cur.bind (kindAt (.push :: n)) = none := bind_kindAt hcur rfl
      simp [kindAt, hnone]
    | .key k' :: n =>
      rw [bind_kindAt hcur rfl, bind_kindAt hcur rfl, kindAt_key, kindAt_key, kindAt_key]
      by_cases hk : k' = k
      · subst hk
        rw [Entries.find?_insert_self, Option.bind_some, ih, renews_cons]
        simp
      · have hkeys : Step.key k' ≠ .key k := fun h => hk (Step.key.inj h)
        rw [Entries.find?_insert_of_ne hk]
        simp [not_renews_of_ne hkeys, Ne.symm hk]
  | @taken rest init last u htakes hu ih =>
    match n with
    | [] => exact (Placed.taken htakes hu).kindAt_nil_iff
    | .key _ :: n => simp [kindAt]
    | .push :: n =>
      rw [Option.bind_some, Option.bind_some, kindAt_push, kindAt_push, kindAt_push, ih,
        Option.bind_some, Option.bind_some]
      refine or_congr (by simp) (and_congr_right fun hlast => ?_)
      rw [renews_push_of_taken htakes hlast]
  | @new rest cur items u hcur hnew hu ih =>
    match n with
    | [] => exact (Placed.new hcur hnew hu).kindAt_nil_iff
    | .key k :: n =>
      have hnone : cur.bind (kindAt (.key k :: n)) = none := bind_kindAt hcur rfl
      simp [kindAt, hnone]
    | .push :: n =>
      rw [bind_kindAt hcur rfl, bind_kindAt hcur rfl, kindAt_push, ih]
      rw [iff_comm, or_iff_left fun h => h.2 (renews_push_of_new hnew h.1)]
      simp

end Placed

/-- A path that ends in a key, at which a text or a container stands. -/
def Keyed (n : List Step) : Prop := ∃ k, n.getLast? = some (.key k)

theorem not_keyed_nil : ¬ Keyed [] := by simp [Keyed]

theorem not_keyed_push : ¬ Keyed [.push] := by simp [Keyed]

theorem keyed_key (k : String) : Keyed [.key k] := ⟨k, rfl⟩

theorem Keyed.cons {n : List Step} (h : Keyed n) (step : Step) : Keyed (step :: n) := by
  obtain ⟨k, hk⟩ := h
  exact ⟨k, by simp [List.getLast?_cons, hk]⟩

theorem Keyed.tail {step : Step} {n : List Step} (h : Keyed (step :: n)) (hn : n ≠ []) :
    Keyed n := by
  obtain ⟨k, hk⟩ := h
  obtain ⟨step', n, rfl⟩ := List.exists_cons_of_ne_nil hn
  exact ⟨k, by simpa using hk⟩

theorem Keyed.ne_nil {n : List Step} (h : Keyed n) : n ≠ [] := by
  rintro rfl
  exact not_keyed_nil h

theorem exists_place_none (v : Value) (p : List Step) : ∃ w, place v p none = some w := by
  induction p with
  | nil => exact ⟨v, rfl⟩
  | cons step p ih =>
    obtain ⟨w, hw⟩ := ih
    cases step <;> exact ⟨_, by rw [place, hw, Option.map_some]⟩

/-- A placement fails only where the path goes on from what is there as another kind. -/
theorem exists_of_place_eq_none {v c : Value} {p : List Step} (h : place v p (some c) = none) :
    ∃ n r κ, p = n ++ r ∧ r ≠ [] ∧ (n = [] ∨ Keyed n) ∧ c.kindAt n = some κ ∧ kindOf r ≠ κ := by
  induction p generalizing c with
  | nil => cases h
  | cons step p ih =>
    have hhere : kindOf (step :: p) ≠ c.kind → ∃ n r κ, step :: p = n ++ r ∧ r ≠ [] ∧
        (n = [] ∨ Keyed n) ∧ c.kindAt n = some κ ∧ kindOf r ≠ κ :=
      fun hne => ⟨[], step :: p, c.kind, rfl, by simp, Or.inl rfl, rfl, hne⟩
    cases step with
    | key k =>
      cases c with
      | text s => exact hhere nofun
      | list items => exact hhere nofun
      | map entries =>
        rw [place_key_map, Option.map_eq_none_iff] at h
        cases hfind : Entries.find? k entries with
        | none =>
          obtain ⟨w, hw⟩ := exists_place_none v p
          rw [hfind, hw] at h
          cases h
        | some u =>
          rw [hfind] at h
          obtain ⟨n, r, κ, rfl, hr, hn, hκ, hkind⟩ := ih h
          refine ⟨.key k :: n, r, κ, rfl, hr, Or.inr ?_, by rw [kindAt_key, hfind]; exact hκ, hkind⟩
          rcases hn with rfl | hn
          · exact keyed_key k
          · exact hn.cons _
    | push =>
      cases c with
      | text s => exact hhere nofun
      | map entries => exact hhere nofun
      | list items =>
        rcases taken_or_new items p with ⟨init, last, rfl, htakes⟩ | hnew
        · rw [place_push_taken htakes, Option.map_eq_none_iff] at h
          obtain ⟨n, r, κ, rfl, hr, hn, hκ, hkind⟩ := ih h
          refine ⟨.push :: n, r, κ, rfl, hr, Or.inr ?_, by rw [kindAt_push, hκ], hkind⟩
          rcases hn with rfl | hn
          · exact absurd ((kind_of_takesPath htakes).symm.trans (Option.some.inj hκ)) hkind
          · exact hn.cons _
        · obtain ⟨w, hw⟩ := exists_place_none v p
          rw [place_push_new hnew, hw] at h
          cases h

theorem Placed.kindOf_eq_of_nil {v w : Value} {q r : List Step} {cur : Option Value}
    (h : Placed v q cur w) (hq : q = [] ++ r) (hr : r ≠ []) {κ : Kind}
    (hκ : cur.bind (kindAt []) = some κ) : kindOf r = κ := by
  rw [List.nil_append] at hq
  subst hq
  obtain ⟨c, rfl, hκ⟩ := Option.bind_eq_some_iff.mp hκ
  cases h with
  | here => exact absurd rfl hr
  | entry hcur =>
    cases hcur
    exact Option.some.inj hκ
  | taken => exact Option.some.inj hκ
  | new hcur =>
    cases hcur
    exact Option.some.inj hκ

theorem Placed.kindOf_eq {s : String} {q n r : List Step} {cur : Option Value} {w : Value}
    (h : Placed (.text s) q cur w) (hq : q = n ++ r) (hr : r ≠ []) (hn : n = [] ∨ Keyed n)
    {κ : Kind} (hκ : cur.bind (kindAt n) = some κ) : kindOf r = κ := by
  induction h generalizing n with
  | here => exact absurd (List.append_eq_nil_iff.mp hq.symm).2 hr
  | @entry k rest cur entries u hcur hu ih =>
    cases n with
    | nil => exact (Placed.entry hcur hu).kindOf_eq_of_nil hq hr hκ
    | cons step n =>
      obtain ⟨rfl, hrest⟩ := List.cons.inj hq
      rw [bind_kindAt hcur rfl] at hκ
      exact ih hrest (or_iff_not_imp_left.mpr (hn.resolve_left (by simp)).tail) hκ
  | @taken rest init last u htakes hu ih =>
    cases n with
    | nil => exact (Placed.taken htakes hu).kindOf_eq_of_nil hq hr hκ
    | cons step n =>
      obtain ⟨rfl, hrest⟩ := List.cons.inj hq
      rw [Option.bind_some, kindAt_push] at hκ
      exact ih hrest (or_iff_not_imp_left.mpr (hn.resolve_left (by simp)).tail) hκ
  | @new rest cur items u hcur hnew hu ih =>
    cases n with
    | nil => exact (Placed.new hcur hnew hu).kindOf_eq_of_nil hq hr hκ
    | cons step n =>
      obtain ⟨rfl, hrest⟩ := List.cons.inj hq
      have hne : n ≠ [] := fun hnil => not_keyed_push (hnil ▸ hn.resolve_left (by simp))
      rw [bind_kindAt hcur rfl] at hκ
      obtain ⟨last, hlast, hκ⟩ := Option.bind_eq_some_iff.mp hκ
      -- the item before the new one already has something at the end of the path
      have hsame : last.kind = kindOf rest := by
        rw [kind_of_kindAt hκ hne, hrest]
        exact (kindOf_append hne r).symm
      have hpath := hasPath_of_kind_eq (hnew last hlast) hsame (by simp [hrest, hr])
      obtain ⟨κ', hκ'⟩ := Option.isSome_iff_exists.mp (hasPath_iff_kindAt.mp hpath).2
      rw [hrest] at hκ'
      exact Option.some.inj ((kindAt_of_append hκ' hr).symm.trans hκ)

/-- What a name stands for to the next text, by the paths of the texts before it, the last one
first. -/
def Stands : List (List Step) → List Step → Kind → Prop
  | [], _, _ => False
  | q :: earlier, n, κ => (∃ r, q = n ++ r ∧ kindOf r = κ) ∨
      Stands earlier n κ ∧ ¬ Renews (∃ κ', Stands earlier q κ') n q

/-- The next path goes on from each shorter name as what the name stands for. -/
def GoesOn (earlier : List (List Step)) (q : List Step) : Prop :=
  ∀ n r κ, Keyed n → q = n ++ r → r ≠ [] → Stands earlier n κ → kindOf r = κ

/-- Every path goes on from those before it, the last path being first. -/
def Consistent : List (List Step) → Prop
  | [] => True
  | q :: earlier => GoesOn earlier q ∧ Consistent earlier

theorem consistent_iff {ps : List (List Step)} : Consistent ps ↔
    ∀ later q earlier, ps = later ++ q :: earlier → GoesOn earlier q := by
  induction ps with
  | nil => simp [Consistent]
  | cons p ps ih =>
    rw [Consistent, ih]
    constructor
    · rintro ⟨hp, hps⟩ later q earlier hsplit
      cases later with
      | nil =>
        cases hsplit
        exact hp
      | cons first later =>
        cases hsplit
        exact hps later q earlier rfl
    · intro h
      exact ⟨h [] p ps rfl, fun later q earlier hsplit => h (p :: later) q earlier (by simp [hsplit])⟩

/-- The value has at each name what the name stands for. -/
def Tracks (earlier : List (List Step)) (c : Value) : Prop :=
  ∀ n κ, n ≠ [] → (c.kindAt n = some κ ↔ Stands earlier n κ)

theorem tracks_nil : Tracks [] (.map []) := by
  intro n κ hn
  match n with
  | .key _ :: _ => simp [kindAt, Stands]
  | .push :: _ => simp [kindAt, Stands]

theorem Tracks.cons {earlier : List (List Step)} {s : String} {q : List Step} {c w : Value}
    (h : Tracks earlier c) (hq : q ≠ []) (hw : Placed (.text s) q (some c) w) :
    Tracks (q :: earlier) w := by
  intro n κ hn
  have htaken : (c.kindAt q).isSome = true ↔ ∃ κ', Stands earlier q κ' := by
    rw [Option.isSome_iff_exists]
    exact exists_congr fun κ' => h q κ' hq
  rw [hw.kindAt_eq_some_iff, Option.bind_some, Option.bind_some, h n κ hn, propext htaken, Stands]

/-- A text finds its place exactly if its path goes on from those before it. -/
theorem Tracks.place_eq_none_iff {earlier : List (List Step)} {s : String} {q : List Step}
    {entries : List (String × Value)} (h : Tracks earlier (.map entries)) (hq : kindOf q = .map) :
    place (.text s) q (some (.map entries)) = none ↔ ¬ GoesOn earlier q := by
  constructor
  · intro hnone hgoes
    obtain ⟨n, r, κ, hpath, hr, hn, hκ, hkind⟩ := exists_of_place_eq_none hnone
    rcases hn with rfl | hn
    · cases hκ
      rw [hpath] at hq
      exact hkind hq
    · exact hkind (hgoes n r κ hn hpath hr ((h n κ hn.ne_nil).mp hκ))
  · intro hnot
    cases hw : place (.text s) q (some (.map entries)) with
    | none => rfl
    | some w =>
      refine absurd (fun n r κ hn hpath hr hκ => ?_) hnot
      exact (Placed.of_place hw).kindOf_eq hpath hr (Or.inr hn) ((h n κ hn.ne_nil).mpr hκ)

end Signpost.Query
