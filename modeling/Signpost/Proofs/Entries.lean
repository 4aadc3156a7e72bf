import Signpost.Field
import Signpost.Ordered

/-! # Laws of ordered entries

Setting an entry is seen by lookups of its own key only, and keeps the order of the keys. A map
whose keys are all below a new one grows at its end.
-/
namespace Signpost.Entries
open Std (TransOrd LawfulEqOrd TransCmp OrientedCmp)

variable {κ α β : Type} [Ord κ]

def Sorted (m : Entries κ α) : Prop := m.Pairwise fun a b => compare a.1 b.1 = .lt

instance (m : Entries κ α) : Decidable (Sorted m) :=
  inferInstanceAs (Decidable (List.Pairwise _ m))

@[simp] theorem sorted_nil : Sorted ([] : Entries κ α) := List.Pairwise.nil

theorem Sorted.tail {e : κ × α} {m : Entries κ α} (h : Sorted (e :: m)) : Sorted m :=
  (List.pairwise_cons.mp h).2

theorem mem_of_mem_insert {k : κ} {v : α} {m : Entries κ α} {e : κ × α}
    (h : e ∈ insert k v m) : e = (k, v) ∨ e ∈ m := by
  induction m with
  | nil => simpa [insert] using h
  | cons head rest ih =>
    simp only [insert] at h
    split at h
    · simpa using h
    · rcases List.mem_cons.mp h with rfl | h
      · exact Or.inl rfl
      · exact Or.inr (List.mem_cons_of_mem _ h)
    · rcases List.mem_cons.mp h with rfl | h
      · exact Or.inr List.mem_cons_self
      · exact (ih h).imp_right (List.mem_cons_of_mem _)

theorem insert_ne_nil (k : κ) (v : α) (m : Entries κ α) : insert k v m ≠ [] := by
  cases m with
  | nil => simp [insert]
  | cons head rest =>
    simp only [insert]
    split <;> simp

theorem mem_of_find? {k : κ} {v : α} {m : Entries κ α} [LawfulEqOrd κ]
    (h : find? k m = some v) : (k, v) ∈ m := by
  induction m with
  | nil => simp [find?] at h
  | cons head rest ih =>
    simp only [find?, beq_iff_eq] at h
    split at h
    · rename_i hk
      cases h
      rw [LawfulEqOrd.eq_of_compare hk]
      exact List.mem_cons_self
    · exact List.mem_cons_of_mem _ (ih h)

@[simp] theorem find?_nil (k : κ) : find? k ([] : Entries κ α) = none := rfl

theorem Sorted.lt_of_append {m m' : Entries κ α} {e : κ × α} (h : Sorted (m ++ e :: m')) :
    ∀ e' ∈ m, compare e'.1 e.1 = .lt :=
  fun _ he' => (List.pairwise_append.mp h).2.2 _ he' e List.mem_cons_self

theorem insert_eq_append [TransOrd κ] {k : κ} {m : Entries κ α}
    (h : ∀ e ∈ m, compare e.1 k = .lt) (v : α) : insert k v m = m ++ [(k, v)] := by
  induction m with
  | nil => rfl
  | cons head rest ih =>
    have hk : compare k head.1 = .gt := OrientedCmp.gt_of_lt (h head List.mem_cons_self)
    simp only [insert, hk]
    rw [ih fun e he => h e (List.mem_cons_of_mem _ he)]
    rfl

theorem find?_mapValues (k : κ) (f : α → β) (m : Entries κ α) :
    find? k (mapValues f m) = (find? k m).map f := by
  induction m with
  | nil => rfl
  | cons e m ih =>
    change find? k ((e.1, f e.2) :: mapValues f m) = _
    simp only [find?]
    split
    · rfl
    · exact ih

theorem Sorted.mapValues {m : Entries κ α} (h : Sorted m) (f : α → β) :
    Sorted (m.mapValues f) :=
  List.pairwise_map.mpr h

theorem mapValues_insert (f : α → β) (k : κ) (v : α) (m : Entries κ α) :
    mapValues f (insert k v m) = insert k (f v) (mapValues f m) := by
  induction m with
  | nil => rfl
  | cons e m ih =>
    simp only [mapValues, insert, List.map_cons] at ih ⊢
    cases compare k e.1 with
    | lt => rfl
    | eq => rfl
    | gt => simp only [List.map_cons, ih]

theorem extend_append (m : Entries κ α) (es later : List (κ × α)) :
    extend m (es ++ later) = extend (extend m es) later :=
  List.foldl_append

theorem mapValues_extend (f : α → β) (m : Entries κ α) (later : List (κ × α)) :
    mapValues f (extend m later) = extend (mapValues f m) (mapValues f later) := by
  induction later generalizing m with
  | nil => rfl
  | cons e later ih => exact (ih (insert e.1 e.2 m)).trans (by rw [mapValues_insert]; rfl)

theorem filterMap_insert {f : α → Option β} {k : κ} {v : α} {w : β} {m : Entries κ α}
    (hm : ∀ e ∈ m, (f e.2).isSome) (hv : f v = some w) :
    (insert k v m).filterMap (fun e => (f e.2).map (e.1, ·)) =
      insert k w (m.filterMap fun e => (f e.2).map (e.1, ·)) := by
  induction m with
  | nil => simp [insert, hv]
  | cons e m ih =>
    obtain ⟨he, hm⟩ := List.forall_mem_cons.mp hm
    obtain ⟨u, hu⟩ := Option.isSome_iff_exists.mp he
    simp only [insert]
    cases hk : compare k e.1 with
    | lt => simp [insert, hk, hu, hv]
    | eq => simp [insert, hk, hu, hv]
    | gt => simp [insert, hk, hu, ih hm]

section Lookup
variable [LawfulEqOrd κ]

theorem find?_cons [DecidableEq κ] (k k' : κ) (v : α) (m : Entries κ α) :
    find? k ((k', v) :: m) = if k = k' then some v else find? k m := by
  simp only [find?, beq_iff_eq, Std.compare_eq_iff_eq]

theorem find?_insert [DecidableEq κ] (k k' : κ) (v : α) (m : Entries κ α) :
    find? k' (insert k v m) = if k' = k then some v else find? k' m := by
  induction m with
  | nil => rw [insert, find?_cons]
  | cons head rest ih =>
    simp only [insert]
    split
    · rw [find?_cons]
    · rename_i hk
      have hk : k = head.1 := Std.compare_eq_iff_eq.mp hk
      rw [find?_cons, find?_cons, ← hk]
      split <;> rfl
    · rename_i hk
      have hne : k ≠ head.1 := fun he => by simp [Std.compare_eq_iff_eq.mpr he] at hk
      rw [find?_cons, find?_cons, ih]
      by_cases hk' : k' = head.1
      · simp [hk', Ne.symm hne]
      · simp [hk']

theorem find?_eq_none {k : κ} {m : Entries κ α} (h : ∀ e ∈ m, e.1 ≠ k) : find? k m = none := by
  classical
  induction m with
  | nil => rfl
  | cons head rest ih =>
    have hk : k ≠ head.1 := fun he => h head List.mem_cons_self he.symm
    rw [find?_cons, if_neg hk]
    exact ih fun e he => h e (List.mem_cons_of_mem _ he)

theorem ne_of_find?_eq_none {k : κ} {m : Entries κ α} (h : find? k m = none) :
    ∀ e ∈ m, e.1 ≠ k := by
  classical
  induction m with
  | nil => simp
  | cons head rest ih =>
    rw [find?_cons] at h
    split at h
    · cases h
    · rename_i hk
      intro e he
      rcases List.mem_cons.mp he with rfl | he
      · exact fun heq => hk heq.symm
      · exact ih h e he

theorem find?_eq_none_iff_notMem {k : κ} {m : Entries κ α} :
    find? k m = none ↔ k ∉ m.map Prod.fst := by
  constructor
  · rintro hnone hmem
    obtain ⟨e, he, hk⟩ := List.mem_map.mp hmem
    exact ne_of_find?_eq_none hnone e he hk
  · exact fun h => find?_eq_none fun e he hk => h (List.mem_map.mpr ⟨e, he, hk⟩)

theorem find?_map (k : κ) (f : κ → α → β) (m : Entries κ α) :
    find? k (m.map fun e => (e.1, f e.1 e.2)) = (find? k m).map (f k) := by
  classical
  induction m with
  | nil => rfl
  | cons e rest ih =>
    rw [List.map_cons, find?_cons, find?_cons, ih]
    split
    · rename_i hk
      rw [hk]
      rfl
    · rfl

theorem lookup_eq_find? [BEq κ] [LawfulBEq κ] (k : κ) (m : Entries κ α) :
    m.lookup k = find? k m := by
  classical
  induction m with
  | nil => rfl
  | cons e m ih =>
    rw [find?_cons, List.lookup_cons, ih]
    by_cases hk : k = e.1
    · simp [hk]
    · rw [beq_false_of_ne hk, if_neg hk]

theorem find?_append (k : κ) (m m' : Entries κ α) :
    find? k (m ++ m') = (find? k m).or (find? k m') := by
  classical
  induction m with
  | nil => rfl
  | cons head rest ih =>
    rw [List.cons_append, find?_cons, find?_cons, ih]
    split <;> rfl

@[simp] theorem find?_insert_self (k : κ) (v : α) (m : Entries κ α) :
    find? k (insert k v m) = some v := by
  classical
  rw [find?_insert, if_pos rfl]

theorem find?_insert_of_ne {k k' : κ} (h : k' ≠ k) (v : α) (m : Entries κ α) :
    find? k' (insert k v m) = find? k' m := by
  classical
  rw [find?_insert, if_neg h]

@[simp] theorem insert_insert (k : κ) (v w : α) (m : Entries κ α) :
    insert k w (insert k v m) = insert k w m := by
  induction m with
  | nil => simp [insert, Std.compare_self]
  | cons head rest ih =>
    simp only [insert]
    cases hk : compare k head.1 with
    | lt => simp [insert, Std.compare_self]
    | eq => simp [insert, Std.compare_self]
    | gt => simp [insert, hk, ih]

theorem Sorted.find?_of_mem {k : κ} {v : α} {m : Entries κ α} (hm : Sorted m)
    (h : (k, v) ∈ m) : find? k m = some v := by
  classical
  induction m with
  | nil => simp at h
  | cons head rest ih =>
    rw [find?_cons]
    rcases List.mem_cons.mp h with rfl | h
    · exact if_pos rfl
    · have hlt := (List.pairwise_cons.mp hm).1 _ h
      have hne : k ≠ head.1 := by
        rintro rfl
        simp [Std.compare_self] at hlt
      rw [if_neg hne]
      exact ih hm.tail h

theorem Sorted.insert [TransOrd κ] {m : Entries κ α} (hm : Sorted m) (k : κ) (v : α) :
    Sorted (m.insert k v) := by
  induction m with
  | nil => exact List.pairwise_singleton _ _
  | cons head rest ih =>
    obtain ⟨hhead, hrest⟩ := List.pairwise_cons.mp hm
    simp only [Entries.insert]
    split
    · rename_i hk
      refine List.pairwise_cons.mpr ⟨?_, hm⟩
      intro e he
      rcases List.mem_cons.mp he with rfl | he
      · exact hk
      · exact TransCmp.lt_trans hk (hhead e he)
    · rename_i hk
      refine List.pairwise_cons.mpr ⟨?_, hrest⟩
      intro e he
      rw [Std.compare_eq_iff_eq.mp hk]
      exact hhead e he
    · rename_i hk
      refine List.pairwise_cons.mpr ⟨?_, ih hrest⟩
      intro e he
      rcases mem_of_mem_insert he with rfl | he
      · exact OrientedCmp.lt_of_gt hk
      · exact hhead e he

theorem sorted_extend [TransOrd κ] {m : Entries κ α} (hm : Sorted m) (later : List (κ × α)) :
    Sorted (m.extend later) := by
  induction later generalizing m with
  | nil => exact hm
  | cons e later ih => exact ih (hm.insert e.1 e.2)

theorem sorted_ofList [TransOrd κ] (es : List (κ × α)) : Sorted (ofList es) :=
  sorted_extend sorted_nil es

/-- Of the entries that are set one after the other, the last one of a key is found. -/
theorem find?_extend (k : κ) (m : Entries κ α) (later : List (κ × α)) :
    find? k (extend m later) = (find? k later.reverse).or (find? k m) := by
  classical
  induction later generalizing m with
  | nil => rfl
  | cons e later ih =>
    change find? k (extend (insert e.1 e.2 m) later) = _
    rw [ih, find?_insert, List.reverse_cons, find?_append, find?_cons, find?_nil]
    by_cases hk : k = e.1
    · simp [hk]
    · simp [hk]

theorem isSome_find?_extend {k : κ} {m : Entries κ α} (h : (find? k m).isSome)
    (later : List (κ × α)) : (find? k (m.extend later)).isSome := by
  rw [find?_extend, Option.isSome_or, h, Bool.or_true]

theorem isSome_find?_extend_later {k : κ} {later : List (κ × α)} (h : (find? k later).isSome)
    (m : Entries κ α) : (find? k (m.extend later)).isSome := by
  obtain ⟨v, hv⟩ := Option.isSome_iff_exists.mp h
  have hreverse : (find? k later.reverse).isSome := by
    rw [Option.isSome_iff_ne_none]
    intro hnone
    exact ne_of_find?_eq_none hnone _ (List.mem_reverse.mpr (mem_of_find? hv)) rfl
  rw [find?_extend, Option.isSome_or, hreverse, Bool.true_or]

theorem find?_ofList (k : κ) (es : List (κ × α)) : find? k (ofList es) = find? k es.reverse := by
  rw [ofList, find?_extend, find?_nil, Option.or_none]

theorem find?_eq_none_of_lt {k : κ} {m : Entries κ α}
    (h : ∀ e ∈ m, compare k e.1 = .lt) : find? k m = none := by
  refine find?_eq_none fun e he hk => ?_
  have hlt := h e he
  rw [hk, Std.compare_self] at hlt
  cases hlt

theorem find?_filter_key (keep : κ → Bool) (k : κ) (m : Entries κ α) :
    find? k (m.filter fun e => keep e.1) = if keep k then find? k m else none := by
  classical
  induction m with
  | nil => simp
  | cons e m ih =>
    obtain ⟨k', v⟩ := e
    rw [List.filter_cons, find?_cons]
    by_cases hk : k = k'
    · subst hk
      cases hkeep : keep k with
      | true => rw [if_pos rfl, find?_cons, if_pos rfl, if_pos rfl, if_pos rfl]
      | false => rw [if_neg Bool.false_ne_true, if_neg Bool.false_ne_true, ih, hkeep,
          if_neg Bool.false_ne_true]
    · rw [if_neg hk, ← ih]
      split
      · rw [find?_cons, if_neg hk]
      · rfl

theorem Sorted.find?_filter {m : Entries κ α} (hm : Sorted m) (keep : κ × α → Bool) (k : κ) :
    find? k (m.filter keep) = (find? k m).filter fun v => keep (k, v) := by
  classical
  induction m with
  | nil => rfl
  | cons e m ih =>
    rw [List.filter_cons, find?_cons]
    by_cases hk : k = e.1
    · have hnone : find? k m = none := by
        rw [hk]
        exact find?_eq_none_of_lt (List.pairwise_cons.mp hm).1
      rw [if_pos hk, Option.filter_some, hk]
      split
      · rw [find?_cons, if_pos rfl]
      · rw [← hk, ih hm.tail, hnone]
        rfl
    · rw [if_neg hk]
      split
      · rw [find?_cons, if_neg hk, ih hm.tail]
      · exact ih hm.tail

/-- A lookup finds the same in sorted entries and in the same entries in any order. -/
theorem Sorted.find?_of_perm {l : List (κ × α)} {m : Entries κ α} (hm : Sorted m)
    (h : l.Perm m) (k : κ) : find? k l = find? k m := by
  cases hl : find? k l with
  | none =>
    exact (find?_eq_none fun e he => ne_of_find?_eq_none hl e (h.mem_iff.mpr he)).symm
  | some v => exact (hm.find?_of_mem (h.mem_iff.mp (mem_of_find? hl))).symm

theorem Sorted.find?_reverse {m : Entries κ α} (hm : Sorted m) (k : κ) :
    find? k m.reverse = find? k m :=
  hm.find?_of_perm (List.reverse_perm m) k

theorem find?_extend_sorted (k : κ) (m : Entries κ α) {later : Entries κ α} (h : Sorted later) :
    find? k (extend m later) = (find? k later).or (find? k m) := by
  rw [find?_extend, h.find?_reverse]

/-- Sorted entries are known by their lookups. -/
theorem Sorted.ext [TransOrd κ] {m m' : Entries κ α} (hm : Sorted m) (hm' : Sorted m')
    (h : ∀ k, find? k m = find? k m') : m = m' := by
  classical
  induction m generalizing m' with
  | nil =>
    cases m' with
    | nil => rfl
    | cons e m' =>
      have he := h e.1
      rw [find?_cons, if_pos rfl] at he
      cases he
  | cons e m ih =>
    obtain ⟨hlt, hrest⟩ := List.pairwise_cons.mp hm
    have hfirst := h e.1
    rw [find?_cons, if_pos rfl] at hfirst
    cases m' with
    | nil => cases hfirst
    | cons e' m' =>
      obtain ⟨hlt', hrest'⟩ := List.pairwise_cons.mp hm'
      have hkey : e.1 = e'.1 := by
        refine Classical.byContradiction fun hne => ?_
        have hsecond := h e'.1
        rw [find?_cons, if_neg (Ne.symm hne), find?_cons, if_pos rfl] at hsecond
        rw [find?_cons, if_neg hne] at hfirst
        -- each first key would stand behind the other
        have hgt := hlt _ (mem_of_find? hsecond)
        have hgt' := hlt' _ (mem_of_find? hfirst.symm)
        have hself := TransCmp.lt_trans hgt hgt'
        rw [Std.compare_self] at hself
        cases hself
      have hvalue : e.2 = e'.2 := by
        rw [find?_cons, if_pos hkey] at hfirst
        exact Option.some.inj hfirst
      have htail : m = m' := by
        refine ih hrest hrest' fun k => ?_
        by_cases hk : k = e.1
        · rw [hk, find?_eq_none_of_lt hlt, hkey, find?_eq_none_of_lt hlt']
        · have hall := h k
          rwa [find?_cons, if_neg hk, find?_cons, if_neg (hkey ▸ hk)] at hall
      rw [htail, Prod.ext hkey hvalue]

theorem Sorted.ofList_of_perm [TransOrd κ] {l : List (κ × α)} {m : Entries κ α} (hm : Sorted m)
    (h : l.Perm m) : ofList l = m := by
  refine (sorted_ofList l).ext hm fun k => ?_
  rw [find?_ofList, hm.find?_of_perm ((List.reverse_perm l).trans h)]

theorem ofList_filter_key [TransOrd κ] (keep : κ → Bool) (es : List (κ × α)) :
    ofList (es.filter fun e => keep e.1) = (ofList es).filter fun e => keep e.1 := by
  refine (sorted_ofList _).ext ((sorted_ofList es).filter _) fun k => ?_
  rw [find?_filter_key, find?_ofList, find?_ofList, ← List.filter_reverse, find?_filter_key]

theorem extend_ofList [TransOrd κ] {m : Entries κ α} (hm : Sorted m) (es : List (κ × α)) :
    extend m (ofList es) = extend m es := by
  refine (sorted_extend hm _).ext (sorted_extend hm _) fun k => ?_
  rw [find?_extend_sorted _ _ (sorted_ofList es), find?_ofList, find?_extend]

theorem extend_insert [TransOrd κ] {m later : Entries κ α} (hm : Sorted m) (h : Sorted later)
    (k : κ) (v : α) : extend m (insert k v later) = insert k v (extend m later) := by
  classical
  refine (sorted_extend hm _).ext ((sorted_extend hm _).insert k v) fun k' => ?_
  rw [find?_extend_sorted _ _ (h.insert k v), find?_insert, find?_insert,
    find?_extend_sorted _ _ h]
  split
  · rfl
  · rfl

/-- The entry that is found for a key is its last one. -/
theorem eq_append_of_find?_ofList {k : κ} {v : α} {es : List (κ × α)}
    (h : find? k (ofList es) = some v) :
    ∃ before after, es = before ++ (k, v) :: after ∧ ∀ e ∈ after, e.1 ≠ k := by
  classical
  rw [find?_ofList] at h
  induction es with
  | nil => simp at h
  | cons e es ih =>
    rw [List.reverse_cons, find?_append, find?_cons, find?_nil] at h
    cases hes : find? k es.reverse with
    | some w =>
      rw [hes] at h
      obtain ⟨before, after, rfl, hafter⟩ := ih (hes.trans h)
      exact ⟨e :: before, after, rfl, hafter⟩
    | none =>
      rw [hes, Option.none_or] at h
      split at h
      · rename_i hk
        cases h
        refine ⟨[], es, by rw [hk]; rfl, fun e' he' => ?_⟩
        exact ne_of_find?_eq_none hes e' (List.mem_reverse.mpr he')
      · cases h

theorem find?_ofList_of_forall {k : κ} {v : α} {es : List (κ × α)} (hmem : (k, v) ∈ es)
    (h : ∀ e ∈ es, e.1 = k → e.2 = v) : find? k (ofList es) = some v := by
  cases hf : find? k (ofList es) with
  | none =>
    rw [find?_ofList] at hf
    exact absurd rfl (ne_of_find?_eq_none hf _ (List.mem_reverse.mpr hmem))
  | some w =>
    obtain ⟨before, after, rfl, -⟩ := eq_append_of_find?_ofList hf
    rw [← h (k, w) (by simp) rfl]

end Lookup

/-- Sets the value of a key, if there is one. -/
def insertSome (k : Option κ) (v : α) (m : Entries κ α) : Entries κ α :=
  match k with
  | some k => insert k v m
  | none => m

section InsertSome
variable [LawfulEqOrd κ]

theorem find?_insertSome [DecidableEq κ] (k : Option κ) (k' : κ) (v : α) (m : Entries κ α) :
    find? k' (insertSome k v m) = if k = some k' then some v else find? k' m := by
  cases k with
  | none => rfl
  | some k => simp [insertSome, find?_insert, eq_comm]

theorem Sorted.insertSome [TransOrd κ] {m : Entries κ α} (hm : Sorted m) (k : Option κ) (v : α) :
    Sorted (m.insertSome k v) := by
  cases k with
  | none => exact hm
  | some k => exact hm.insert k v

omit [LawfulEqOrd κ] in
theorem mapValues_insertSome (f : α → β) (k : Option κ) (v : α) (m : Entries κ α) :
    mapValues f (insertSome k v m) = insertSome k (f v) (mapValues f m) := by
  cases k with
  | none => rfl
  | some k => exact mapValues_insert f k v m

theorem extend_insertSome [TransOrd κ] {m later : Entries κ α} (hm : Sorted m) (h : Sorted later)
    (k : Option κ) (v : α) :
    extend m (insertSome k v later) = insertSome k v (extend m later) := by
  cases k with
  | none => rfl
  | some k => exact extend_insert hm h k v

end InsertSome

end Signpost.Entries
