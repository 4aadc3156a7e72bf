import Signpost.Proofs.Query.Conflict

/-! # Where a text is placed

A position leads to one part of a value: it names a key for each map and a number for each list on
the way. A placed text comes to one position of its path, and what stands beside that position is
what stood there before. If the path goes to the end of a list anywhere, nothing was at the position
yet, so that no text is lost.
-/
namespace Signpost.Query
open Value Value.leaves

/-- One step of a position: the entry of a key, or the item with a number. -/
inductive Index where
  | key (k : String)
  | item (i : Nat)
  deriving DecidableEq, Repr

def Index.step : Index → Step
  | key k => .key k
  | item _ => .push

abbrev Position := List Index

/-- Neither position leads through the other. -/
def Beside (a b : Position) : Prop := ¬ a <+: b ∧ ¬ b <+: a

/-- The path that a text at the position can be named by. -/
def Position.path (a : Position) : List Step := a.map Index.step

@[simp] theorem path_nil : Position.path [] = [] := rfl

@[simp] theorem path_cons (i : Index) (a : Position) :
    Position.path (i :: a) = i.step :: Position.path a := rfl

theorem path_eq_map_key {a : Position} {keys : List String} (h : a.path = keys.map .key) :
    a = keys.map .key := by
  induction keys generalizing a with
  | nil => exact List.map_eq_nil_iff.mp h
  | cons k keys ih =>
    obtain ⟨i, a, rfl, hi, ha⟩ := List.map_eq_cons_iff.mp h
    cases i with
    | key k' =>
      cases hi
      rw [ih ha, List.map_cons]
    | item n => cases hi

theorem exists_map_key {p : List Step} (h : .push ∉ p) :
    ∃ keys : List String, p = keys.map .key := by
  induction p with
  | nil => exact ⟨[], rfl⟩
  | cons step p ih =>
    obtain ⟨keys, rfl⟩ := ih fun hmem => h (List.mem_cons_of_mem _ hmem)
    cases step with
    | key k => exact ⟨k :: keys, rfl⟩
    | push => exact absurd List.mem_cons_self h

/-- The part of a value at a position. -/
def Value.part? : Position → Value → Option Value
  | [], v => some v
  | .key k :: a, .map entries => (Entries.find? k entries).bind (part? a)
  | .item i :: a, .list items => items[i]?.bind (part? a)
  | _, _ => none

def Value.textAt? (a : Position) (v : Value) : Option String := (v.part? a).bind Value.text?

section Part
variable {a b : Position} {v : Value}

@[simp] theorem part?_nil (v : Value) : v.part? [] = some v := rfl

@[simp] theorem part?_key (k : String) (a : Position) (entries : Entries String Value) :
    (Value.map entries).part? (.key k :: a) = (entries.find? k).bind (part? a) := rfl

@[simp] theorem part?_item (i : Nat) (a : Position) (items : List Value) :
    (Value.list items).part? (.item i :: a) = items[i]?.bind (part? a) := rfl

theorem part?_eq_none_of_kind {i : Index} (h : v.kind ≠ kindOf [i.step]) :
    v.part? (i :: a) = none := by
  match i, v with
  | .key _, .map _ => exact absurd rfl h
  | .item _, .list _ => exact absurd rfl h
  | .key _, .text _ => rfl
  | .key _, .list _ => rfl
  | .item _, .text _ => rfl
  | .item _, .map _ => rfl

theorem part?_append (a b : Position) (v : Value) :
    v.part? (a ++ b) = (v.part? a).bind (part? b) := by
  induction a generalizing v with
  | nil => rfl
  | cons i a ih =>
    by_cases hkind : v.kind = kindOf [i.step]
    · match i, v with
      | .key k, .map entries =>
        rw [List.cons_append, part?_key, part?_key, Option.bind_assoc]
        exact congrArg _ (funext fun u => ih u)
      | .item n, .list items =>
        rw [List.cons_append, part?_item, part?_item, Option.bind_assoc]
        exact congrArg _ (funext fun u => ih u)
    · rw [List.cons_append, part?_eq_none_of_kind hkind, part?_eq_none_of_kind hkind,
        Option.bind_none]

theorem text?_eq_none_of_kind {i : Index} {p : List Step} (h : v.kind = kindOf (i.step :: p)) :
    v.text? = none := by
  cases v with
  | text s => cases i <;> cases h
  | list items => rfl
  | map entries => rfl

theorem part?_eq_none_of_hasPath {keys : List String}
    (h : v.hasPath (keys.map .key) = false) : v.part? (keys.map .key) = none := by
  induction keys generalizing v with
  | nil => simp [hasPath] at h
  | cons k keys ih =>
    cases v with
    | text s => rfl
    | list items => rfl
    | map entries =>
      rw [List.map_cons, part?_key]
      cases hfind : Entries.find? k entries with
      | none => rfl
      | some u =>
        simp only [List.map_cons, hasPath, hfind] at h
        exact ih h

end Part

/-- The text comes to the position: the way to it leads through containers that were there or are
new, and all that stands beside it is what stood there. -/
structure SetsAt (s : String) (a : Position) (cur : Option Value) (w : Value) : Prop where
  here : w.part? a = some (.text s)
  above : ∀ b i c, a = b ++ i :: c → (∃ u, w.part? b = some u ∧ u.kind = kindOf [i.step]) ∧
    ∀ u, cur.bind (part? b) = some u → u.kind = kindOf [i.step]
  beside : ∀ b, Beside b a → w.part? b = cur.bind (part? b)

section Placed
variable {s : String} {a : Position} {q : List Step} {cur : Option Value} {w : Value}

theorem bind_part? {empty c : Value} {b : Position} (hcur : cur.getD empty = c)
    (hempty : empty.part? b = none) : cur.bind (part? b) = c.part? b := by
  cases cur with
  | none =>
    cases hcur
    exact hempty.symm
  | some c => exact congrArg (part? b) hcur

theorem SetsAt.cons {i : Index} {cur' : Option Value} {u : Value} (h : SetsAt s a cur' u)
    (hw : w.kind = kindOf [i.step]) (hcur : ∀ c, cur = some c → c.kind = kindOf [i.step])
    (hinto : ∀ b, w.part? (i :: b) = u.part? b)
    (hfrom : ∀ b, cur.bind (part? (i :: b)) = cur'.bind (part? b))
    (hbeside : ∀ j b, j ≠ i → w.part? (j :: b) = cur.bind (part? (j :: b))) :
    SetsAt s (i :: a) cur w where
  here := (hinto a).trans h.here
  above b j c hsplit := by
    cases b with
    | nil =>
      cases hsplit
      refine ⟨⟨w, rfl, hw⟩, fun v hv => ?_⟩
      obtain ⟨c, hc, hv⟩ := Option.bind_eq_some_iff.mp hv
      cases hv
      exact hcur _ hc
    | cons first b =>
      obtain ⟨rfl, htail⟩ := List.cons.inj hsplit
      rw [hinto, hfrom]
      exact h.above b j c htail
  beside b hb := by
    cases b with
    | nil => exact absurd List.nil_prefix hb.1
    | cons j b =>
      by_cases hj : j = i
      · subst hj
        rw [Beside, List.prefix_cons_inj, List.prefix_cons_inj] at hb
        rw [hinto, hfrom]
        exact h.beside b hb
      · exact hbeside j b hj

theorem setsAt_nil (s : String) (cur : Option Value) : SetsAt s [] cur (.text s) where
  here := rfl
  above b i c h := by simp at h
  beside b hb := absurd List.nil_prefix hb.2

/-- A text is placed at one position of its path. If the path goes to the end of a list, nothing was
there yet. -/
theorem Placed.exists_setsAt (h : Placed (.text s) q cur w) :
    ∃ a, Position.path a = q ∧ SetsAt s a cur w ∧
      (.push ∈ q → cur.bind (part? a) = none) := by
  induction h with
  | here cur => exact ⟨[], rfl, setsAt_nil s cur, by simp⟩
  | @entry k rest cur entries u hcur hu ih =>
    obtain ⟨a, rfl, hsets, hnew⟩ := ih
    have hfrom : ∀ b, cur.bind (part? (.key k :: b)) = (entries.find? k).bind (part? b) :=
      fun b => bind_part? hcur rfl
    refine ⟨.key k :: a, rfl, hsets.cons rfl ?_ ?_ hfrom ?_, ?_⟩
    · rintro c rfl
      cases hcur
      rfl
    · intro b
      rw [part?_key, Entries.find?_insert_self, Option.bind_some]
    · intro j b hj
      rw [bind_part? hcur (by cases j <;> rfl)]
      cases j with
      | item n => rfl
      | key k' =>
        have hk : k' ≠ k := fun heq => hj (heq ▸ rfl)
        rw [part?_key, part?_key, Entries.find?_insert_of_ne hk]
    · intro hpush
      rw [hfrom]
      exact hnew (by simpa using hpush)
  | @taken rest init last u htakes hu ih =>
    obtain ⟨a, rfl, hsets, hnew⟩ := ih
    refine ⟨.item init.length :: a, rfl, hsets.cons rfl ?_ ?_ ?_ ?_, ?_⟩
    · rintro c ⟨⟩
      rfl
    · intro b
      simp
    · intro b
      simp
    · intro j b hj
      cases j with
      | key k => rfl
      | item n =>
        have hn : n ≠ init.length := fun heq => hj (heq ▸ rfl)
        rw [Option.bind_some, part?_item, part?_item]
        rcases Nat.lt_or_gt_of_ne hn with hlt | hgt
        · rw [List.getElem?_append_left hlt, List.getElem?_append_left hlt]
        · have hpast {v : Value} : (init ++ [v]).length ≤ n := by
            rw [List.length_append, List.length_singleton]
            omega
          rw [List.getElem?_eq_none hpast, List.getElem?_eq_none hpast]
    · intro _
      rw [Option.bind_some, part?_item, List.getElem?_concat_length, Option.bind_some]
      by_cases hpush : .push ∈ Position.path a
      · exact hnew hpush
      · -- the last item takes keys only where it has nothing
        obtain ⟨keys, hkeys⟩ := exists_map_key hpush
        rw [path_eq_map_key hkeys]
        rw [hkeys] at htakes
        exact part?_eq_none_of_hasPath (hasPath_of_takesPath htakes)
  | @new rest cur items u hcur hnewItem hu ih =>
    obtain ⟨a, rfl, hsets, -⟩ := ih
    have hfrom : ∀ b, cur.bind (part? (.item items.length :: b)) = none := by
      intro b
      rw [bind_part? hcur rfl, part?_item, List.getElem?_eq_none (Nat.le_refl _), Option.bind_none]
    refine ⟨.item items.length :: a, rfl, hsets.cons rfl ?_ ?_ hfrom ?_, fun _ => hfrom a⟩
    · rintro c rfl
      cases hcur
      rfl
    · intro b
      simp
    · intro j b hj
      rw [bind_part? hcur (by cases j <;> rfl)]
      cases j with
      | key k => rfl
      | item n =>
        have hn : n ≠ items.length := fun heq => hj (heq ▸ rfl)
        rw [part?_item, part?_item]
        rcases Nat.lt_or_gt_of_ne hn with hlt | hgt
        · rw [List.getElem?_append_left hlt]
        · have hpast : (items ++ [u]).length ≤ n := by
            rw [List.length_append, List.length_singleton]
            omega
          rw [List.getElem?_eq_none hpast, List.getElem?_eq_none (by omega)]

theorem SetsAt.textAt?_eq (h : SetsAt s a cur w) (b : Position) :
    w.textAt? b =
      if a <+: b then (if b = a then some s else none) else cur.bind (Value.textAt? b) := by
  split
  · rename_i hbelow
    obtain ⟨r, rfl⟩ := hbelow
    rw [Value.textAt?, part?_append, h.here, Option.bind_some]
    cases r with
    | nil => simp [Value.text?]
    | cons i r => simp [part?_eq_none_of_kind (v := .text s) (i := i) (by cases i <;> exact nofun)]
  · rename_i hbelow
    rw [Value.textAt?]
    by_cases habove : b <+: a
    · obtain ⟨r, rfl⟩ := habove
      obtain ⟨i, c, rfl⟩ : ∃ i c, r = i :: c :=
        List.exists_cons_of_ne_nil fun hr => hbelow (by simp [hr])
      obtain ⟨⟨u, hu, hkind⟩, hcur⟩ := h.above b i c rfl
      rw [hu, Option.bind_some, text?_eq_none_of_kind hkind]
      cases cur with
      | none => rfl
      | some c =>
        rw [Option.bind_some, Value.textAt?]
        cases hc : c.part? b with
        | none => rfl
        | some v => exact (text?_eq_none_of_kind (hcur v hc)).symm
    · rw [h.beside b ⟨habove, hbelow⟩]
      cases cur <;> rfl

/-- A path that goes to the end of a list adds one text and leaves every other where it was. -/
theorem Placed.texts_of_push {c : Value} (h : Placed (.text s) q (some c) w) (hpush : .push ∈ q) :
    ∃ a : Position, a.path = q ∧ c.textAt? a = none ∧
      ∀ b, w.textAt? b = if b = a then some s else c.textAt? b := by
  obtain ⟨a, ha, hsets, hnew⟩ := h.exists_setsAt
  have hnone : c.part? a = none := hnew hpush
  refine ⟨a, ha, by rw [Value.textAt?, hnone, Option.bind_none], fun b => ?_⟩
  rw [hsets.textAt?_eq, Option.bind_some]
  split
  · rename_i hbelow
    obtain ⟨r, rfl⟩ := hbelow
    rw [Value.textAt?, part?_append, hnone, Option.bind_none, Option.bind_none]
  · rename_i hbelow
    exact (if_neg fun (heq : b = a) => hbelow (heq ▸ List.prefix_rfl)).symm

theorem Placed.count_of_push {c : Value} (h : Placed (.text s) q (some c) w) (hc : c.Ordered)
    (hpush : .push ∈ q) : w.count = c.count + 1 := by
  refine h.count_eq (fun c _ => ?_) (by simpa using hc)
  rw [← Bool.not_eq_true, hasPath_iff_kindAt]
  exact fun hkeys => hkeys.1 hpush

end Placed

section Insert
variable {m m' : QueryMap} {path : List Step} {s : String}

theorem placed_of_insertAt (h : insertAt m path s = some m') :
    Placed (.text s) path (some (.map m)) (.map m') := by
  rw [insertAt] at h
  split at h
  · rename_i hw
    cases h
    exact .of_place hw
  · cases h

/-- Inserting a text loses nothing. At a path that goes to the end of a list it adds one text, at a
position where there was none, and every other position has the text that it had. At a path of keys
it sets the value at the end of the keys, behind maps, and every position beside has the part that
it had. -/
theorem texts_of_insertAt (hm : (Value.map m).Ordered) (h : insertAt m path s = some m') :
    (Value.map m').Ordered ∧
    (.push ∈ path →
      (Value.map m').count = (Value.map m).count + 1 ∧
      ∃ a : Position, a.path = path ∧ (Value.map m).textAt? a = none ∧
        ∀ b, (Value.map m').textAt? b = if b = a then some s else (Value.map m).textAt? b) ∧
    ∀ keys : List String, path = keys.map .key →
      (Value.map m').part? (keys.map .key) = some (.text s) ∧
      (∀ front k back, keys = front ++ k :: back →
        (∃ u, (Value.map m').part? (front.map .key) = some u ∧ u.kind = .map) ∧
        ∀ u, (Value.map m).part? (front.map .key) = some u → u.kind = .map) ∧
      ∀ b, Beside b (keys.map .key) → (Value.map m').part? b = (Value.map m).part? b := by
  have hplaced := placed_of_insertAt h
  refine ⟨hplaced.ordered (ordered_text s) (by simpa using hm), fun hpush => ?_,
    fun keys hkeys => ?_⟩
  · exact ⟨hplaced.count_of_push hm hpush, hplaced.texts_of_push hpush⟩
  · obtain ⟨a, ha, hsets, -⟩ := hplaced.exists_setsAt
    obtain rfl := path_eq_map_key (ha.trans hkeys)
    refine ⟨hsets.here, fun front k back hsplit => ?_, fun b hb => hsets.beside b hb⟩
    exact hsets.above (front.map .key) (.key k) (back.map .key) (by simp [hsplit])

/-- The second map of a list, and a text in the place of an empty list. -/
theorem texts_of_insertAt_item_and_key :
    (keyPath "l[][a]" = .ok [.key "l", .push, .key "a"] ∧
      insertAt [("l", .list [.map [("a", .text "1"), ("b", .text "2")]])]
        [.key "l", .push, .key "a"] "3" =
        some [("l", .list [.map [("a", .text "1"), ("b", .text "2")], .map [("a", .text "3")]])] ∧
      ∃ a : Position, a.path = [.key "l", .push, .key "a"] ∧
        Value.textAt? a (.map [("l", .list [.map [("a", .text "1"), ("b", .text "2")]])]) = none) ∧
    keyPath "k[b]" = .ok [.key "k", .key "b"] ∧
    insertAt [("k", .map [("b", .list []), ("c", .text "4")])] [.key "k", .key "b"] "5" =
      some [("k", .map [("b", .text "5"), ("c", .text "4")])] ∧
    Value.part? [.key "k", .key "b"] (.map [("k", .map [("b", .text "5"), ("c", .text "4")])]) =
      some (.text "5") := by
  have hitem : insertAt [("l", .list [.map [("a", .text "1"), ("b", .text "2")]])]
      [.key "l", .push, .key "a"] "3" =
      some [("l", .list [.map [("a", .text "1"), ("b", .text "2")], .map [("a", .text "3")]])] := by
    decide
  have hkey : insertAt [("k", .map [("b", .list []), ("c", .text "4")])] [.key "k", .key "b"] "5" =
      some [("k", .map [("b", .text "5"), ("c", .text "4")])] := by decide
  have hab : compare "a" "b" = .lt := by decide
  have hbc : compare "b" "c" = .lt := by decide
  obtain ⟨-, hpush, -⟩ := texts_of_insertAt
    (by simp [ordered_map, ordered_list, ordered_text, Entries.Sorted, hab]) hitem
  obtain ⟨-, -, hkeys⟩ := texts_of_insertAt
    (by simp [ordered_map, ordered_list, ordered_text, Entries.Sorted, hbc]) hkey
  obtain ⟨-, a, ha, hnone, -⟩ := hpush (by decide)
  exact ⟨⟨by decide +kernel, hitem, a, ha, hnone⟩, by decide +kernel, hkey,
    (hkeys ["k", "b"] rfl).1⟩

end Insert

section Run
variable {ps : List ReadPair} {m m' : QueryMap}

theorem placePair_eq_ok_iff {p : ReadPair} : placePair m p = .ok m' ↔
    p.Headed ∧ insertAt m p.path p.text = some m' ∨ ¬ p.Headed ∧ m = m' := by
  rw [placePair]
  by_cases hhead : p.Headed
  · rw [if_pos hhead]
    cases insertAt m p.path p.text with
    | none => simp [hhead]
    | some m₁ => simp [hhead]
  · simp [hhead]

/-- Pairs that each go to the end of a list add one text each, and keep every text where it is. -/
theorem texts_of_foldlM_push (hm : (Value.map m).Ordered)
    (hps : ∀ p ∈ ps, p.Headed → .push ∈ p.path) (h : ps.foldlM placePair m = .ok m') :
    (Value.map m').Ordered ∧ (Value.map m').count = (Value.map m).count + (placedPaths ps).length ∧
      ∀ a s, (Value.map m).textAt? a = some s → (Value.map m').textAt? a = some s := by
  induction ps generalizing m with
  | nil =>
    cases h
    exact ⟨hm, rfl, fun _ _ ha => ha⟩
  | cons p ps ih =>
    rw [List.foldlM_cons] at h
    obtain ⟨m₁, hp, h⟩ := exists_of_bind_eq_ok h
    obtain ⟨hpush, hrest⟩ := List.forall_mem_cons.mp hps
    rcases placePair_eq_ok_iff.mp hp with ⟨hhead, hinsert⟩ | ⟨hhead, rfl⟩
    · have hplaced := placed_of_insertAt hinsert
      have hm₁ := hplaced.ordered (ordered_text _) (by simpa using hm)
      obtain ⟨hordered, hcount, hkept⟩ := ih hm₁ hrest h
      obtain ⟨a, -, hnone, htexts⟩ := hplaced.texts_of_push (hpush hhead)
      refine ⟨hordered, ?_, fun b s hb => hkept b s ?_⟩
      · rw [hcount, hplaced.count_of_push hm (hpush hhead), placedPaths_cons_of_headed hhead,
          List.length_cons]
        omega
      · rw [htexts, if_neg fun (heq : b = a) => by simp [heq, hnone] at hb]
        exact hb
    · rw [placedPaths_cons_of_not_headed hhead]
      exact ih hm hrest h

/-- A query string whose names all go to the end of a list is read without losing a text. -/
theorem count_of_decode_of_push {q : String} (hread : readPairs q = .ok ps)
    (hps : ∀ p ∈ ps, p.Headed → .push ∈ p.path) (h : decode q = .ok m) :
    (Value.map m).count = (placedPaths ps).length := by
  rw [decode_eq_of_readPairs hread] at h
  have hnil : (Value.map []).Ordered := ordered_nil.1
  rw [(texts_of_foldlM_push hnil hps h).2.1]
  simp [count]

end Run

end Signpost.Query
