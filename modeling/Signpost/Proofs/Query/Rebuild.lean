import Signpost.Proofs.Query.Sequence
import Mathlib.Data.List.Chain

/-! # Building a value from its leaves

The leaves of a value, placed in order, build the value again exactly when no item of a list is
taken for a continuation of the item before it. An item that is so taken makes the one before it
hold more texts than it should, and no later leaf mends that.
-/
namespace Signpost.Query
open Value Value.leaves

/-- The leaves of the value build it. -/
def Value.Rebuilt (v : Value) : Prop := placeAll v.leaves none = some (some v)

theorem placeAll_mapLeaves_eq_iff {pre es : List (String × Value)}
    (hs : Entries.Sorted (pre ++ es)) (hfull : ∀ e ∈ es, e.2.Full) :
    placeAll (mapLeaves es) (some (.map pre)) = some (some (.map (pre ++ es))) ↔
      ∀ e ∈ es, e.2.Rebuilt := by
  induction es generalizing pre with
  | nil => simp
  | cons e rest ih =>
    have hls := (hfull e List.mem_cons_self).leaves_ne_nil
    have hlt := hs.lt_of_append
    have hnone : Entries.find? e.1 pre = none := Entries.find?_eq_none fun e' he' heq => by
      have := hlt e' he'
      simp [heq, Std.compare_self] at this
    have hpre : pre ++ e :: rest = (pre ++ [e]) ++ rest := by simp
    have hrest : placeAll (mapLeaves rest) (some (.map (pre ++ [e]))) =
        some (some (.map (pre ++ [e] ++ rest))) ↔ ∀ e' ∈ rest, e'.2.Rebuilt :=
      ih (hpre ▸ hs) fun e' he' => hfull e' (List.mem_cons_of_mem _ he')
    have hafter : ∀ e' ∈ rest, e'.1 ≠ e.1 := fun e' he' heq => by
      have := (List.pairwise_cons.mp (List.pairwise_append.mp hs).2.1).1 e' he'
      simp [heq, Std.compare_self] at this
    rw [mapLeaves_cons, placeAll_append, List.forall_mem_cons, hpre]
    constructor
    · intro h
      obtain ⟨r, hr, hr'⟩ := Option.bind_eq_some_iff.mp h
      obtain ⟨w, hw, rfl⟩ := exists_of_placeAll_under_key hls hr
      obtain ⟨entries', heq, hfind⟩ := find?_of_placeAll_mapLeaves hafter
        (fun e' he' => hfull e' (List.mem_cons_of_mem _ he')) hr'
      cases heq
      have hwv : w = e.2 := by
        rw [Entries.find?_insert_self, ← hpre, hs.find?_of_mem (v := e.2) (by simp)] at hfind
        exact (Option.some.inj hfind).symm
      subst hwv
      rw [hnone] at hw
      rw [Entries.insert_eq_append hlt] at hr'
      exact ⟨hw, hrest.mp hr'⟩
    · rintro ⟨he, hes⟩
      rw [placeAll_under_key hls, hnone, he]
      simp only [Option.map_some, Option.bind_some, Entries.insert_eq_append hlt]
      exact hrest.mpr hes

/-- A list as it stands later: only its last item can have changed, and then has more texts. -/
def Grown (items later : List Value) : Prop :=
  ∃ init last last' more, items = init ++ [last] ∧ later = init ++ last' :: more ∧
    (last' = last ∨ last.count < last'.count)

theorem Grown.refl {items : List Value} (h : items ≠ []) : Grown items items := by
  obtain ⟨init, last, rfl⟩ := (List.eq_nil_or_concat' items).resolve_left h
  exact ⟨init, last, last, [], rfl, rfl, Or.inl rfl⟩

theorem Grown.trans {items mid later : List Value} (h : Grown items mid) (h' : Grown mid later) :
    Grown items later := by
  obtain ⟨init, last, last', more, rfl, hmid, hlast⟩ := h
  obtain ⟨init', x, x', more', hmid', rfl, hx⟩ := h'
  rcases List.eq_nil_or_concat' more with rfl | ⟨more₀, y, rfl⟩
  · have heq := hmid.symm.trans hmid'
    obtain ⟨rfl, hlast'⟩ := List.append_inj' heq rfl
    cases hlast'
    refine ⟨init, last, x', more', rfl, rfl, ?_⟩
    rcases hlast with rfl | hlast
    · exact hx
    · rcases hx with rfl | hx
      · exact Or.inr hlast
      · exact Or.inr (hlast.trans hx)
  · have heq : init ++ last' :: more₀ ++ [y] = init' ++ [x] := by
      rw [← hmid', hmid]
      simp
    obtain ⟨rfl, -⟩ := List.append_inj' heq rfl
    exact ⟨init, last, last', more₀ ++ x' :: more', rfl, by simp, hlast⟩

theorem grown_of_place {s : String} {p : List Step} {items : List Value} {w : Value}
    (hne : items ≠ []) (hitems : (list items).Ordered)
    (h : place (.text s) (.push :: p) (some (.list items)) = some w) :
    ∃ later, w = .list later ∧ Grown items later := by
  have hplaced := Placed.of_place h
  cases hplaced with
  | @taken _ init last u htakes hu =>
    have hlast : last.Ordered := ordered_list.mp hitems last (by simp)
    have hcount := hu.count_eq (by simpa using hasPath_of_takesPath htakes) (by simpa using hlast)
    rw [Option.elim_some] at hcount
    exact ⟨_, rfl, init, last, u, [], rfl, rfl, Or.inr (by omega)⟩
  | @new _ _ _ u hcur _ _ =>
    cases hcur
    obtain ⟨init, last, rfl⟩ := (List.eq_nil_or_concat' items).resolve_left hne
    exact ⟨_, rfl, init, last, last, [u], rfl, by simp, Or.inl rfl⟩

theorem grown_of_placeAll {ls : List Leaf} (hls : ∀ l ∈ ls, ∃ p, l.1 = .push :: p)
    {items : List Value} {r : Option Value} (hne : items ≠ []) (hitems : (list items).Ordered)
    (h : placeAll ls (some (.list items)) = some r) :
    ∃ later, r = some (.list later) ∧ Grown items later := by
  induction ls generalizing items with
  | nil =>
    cases h
    exact ⟨items, rfl, .refl hne⟩
  | cons l rest ih =>
    obtain ⟨p, hp⟩ := hls l List.mem_cons_self
    obtain ⟨w, hw, hrest⟩ := Option.bind_eq_some_iff.mp h
    have hordered := (Placed.of_place hw).ordered (ordered_text _) (by simpa using hitems)
    rw [hp] at hw
    obtain ⟨mid, rfl, hmid⟩ := grown_of_place hne hitems hw
    have hmidne : mid ≠ [] := by
      obtain ⟨_, _, _, _, _, rfl, _⟩ := hmid
      simp
    obtain ⟨later, hr, hlater⟩ := ih (fun l hl => hls l (List.mem_cons_of_mem _ hl)) hmidne
      hordered hrest
    exact ⟨later, hr, hmid.trans hlater⟩

theorem Grown.last_eq {init more : List Value} {last x : Value}
    (h : Grown (init ++ [last]) (init ++ x :: more)) : x = last ∨ last.count < x.count := by
  obtain ⟨init', last₀, x', more', hinit, hlater, hx⟩ := h
  obtain ⟨rfl, hlast⟩ := List.append_inj' hinit rfl
  cases hlast
  cases List.append_cancel_left hlater
  exact hx

/-- The second value starts a new item after the first. -/
def Splits (a b : Value) : Prop := ∀ l ∈ b.leaves.head?, a.takesPath l.1 = false

theorem isChain_getLast?_append {pre items : List Value} {v : Value} :
    (pre.getLast?.toList ++ v :: items).IsChain Splits ↔
      (∀ last ∈ pre.getLast?, Splits last v) ∧ (v :: items).IsChain Splits := by
  cases pre.getLast? with
  | none => simp
  | some last => simp [List.isChain_cons_cons]

theorem ordered_list_concat {items : List Value} {v : Value} (hitems : ∀ u ∈ items, u.Ordered)
    (hv : v.Ordered) : (list (items ++ [v])).Ordered :=
  ordered_list.mpr (List.forall_mem_append.mpr ⟨hitems, List.forall_mem_singleton.mpr hv⟩)

theorem placeAll_ne_of_takesPath {init more : List Value} {last : Value} {l : Leaf}
    {ls : List Leaf} (htakes : last.takesPath l.1 = true)
    (hordered : (list (init ++ [last])).Ordered) (hls : ∀ l ∈ ls, ∃ p, l.1 = .push :: p) :
    placeAll ((.push :: l.1, l.2) :: ls) (some (.list (init ++ [last]))) ≠
      some (some (.list (init ++ last :: more))) := by
  intro h
  rw [placeAll_cons, place_push_taken htakes] at h
  obtain ⟨w, hw, hrest⟩ := Option.bind_eq_some_iff.mp h
  obtain ⟨u, hu, rfl⟩ := Option.map_eq_some_iff.mp hw
  have hitems := ordered_list.mp hordered
  have hlast : last.Ordered := hitems last (by simp)
  have hplaced := Placed.of_place hu
  have hcount := hplaced.count_eq (by simpa using hasPath_of_takesPath htakes) (by simpa using hlast)
  have hlist : (list (init ++ [u])).Ordered :=
    ordered_list_concat (List.forall_mem_append.mp hitems).1
      (hplaced.ordered (ordered_text _) (by simpa using hlast))
  obtain ⟨later, heq, hgrown⟩ := grown_of_placeAll hls (by simp) hlist hrest
  cases heq
  rw [Option.elim_some] at hcount
  rcases hgrown.last_eq with rfl | hlt
  · omega
  · omega

/-- What is set at the end of a list has at least the leaves of the last item, and keeps it if
there are no more. -/
theorem eq_of_placeAll_concat {pre rest : List Value} {v w : Value} {ls : List Leaf}
    (hls : ∀ l ∈ ls, ∃ p, l.1 = .push :: p) (hordered : (list (pre ++ [w])).Ordered)
    (hcount : w.count = v.count)
    (h : placeAll ls (some (.list (pre ++ [w]))) = some (some (.list (pre ++ v :: rest)))) :
    v = w := by
  obtain ⟨later, heq, hgrown⟩ := grown_of_placeAll hls (by simp) hordered h
  cases heq
  rcases hgrown.last_eq with hvw | hlt
  · exact hvw
  · omega

/-- Items are built after the ones before them exactly when each is, and splits from its
neighbour. -/
theorem placeAll_listLeaves_eq_iff {pre items : List Value} (hpre : ∀ v ∈ pre, v.Ordered)
    (hfull : ∀ v ∈ items, v.Full) (hitems : ∀ v ∈ items, v.Ordered) :
    placeAll (listLeaves items) (some (.list pre)) = some (some (.list (pre ++ items))) ↔
      (∀ v ∈ items, v.Rebuilt) ∧ (pre.getLast?.toList ++ items).IsChain Splits := by
  induction items generalizing pre with
  | nil => cases h : pre.getLast? <;> simp
  | cons v rest ih =>
    have hvfull := hfull v List.mem_cons_self
    have hv := hitems v List.mem_cons_self
    have hsplit : pre ++ v :: rest = (pre ++ [v]) ++ rest := by simp
    have hrest : placeAll (listLeaves rest) (some (.list (pre ++ [v]))) =
        some (some (.list (pre ++ v :: rest))) ↔
          (∀ u ∈ rest, u.Rebuilt) ∧ (v :: rest).IsChain Splits := by
      have hpre' : ∀ u ∈ pre ++ [v], u.Ordered := ordered_list.mp (ordered_list_concat hpre hv)
      have := ih hpre' (fun u hu => hfull u (List.mem_cons_of_mem _ hu))
        fun u hu => hitems u (List.mem_cons_of_mem _ hu)
      rw [hsplit]
      rwa [List.getLast?_concat] at this
    have htakesAll := along_takes_leaves hvfull hv
    have hcountAll : ∀ w, placeAll v.leaves none = some (some w) → w.count = v.count :=
      fun w hw => count_of_placeAll_leaves hvfull hv hw
    rw [listLeaves_cons, placeAll_append, List.forall_mem_cons, isChain_getLast?_append,
      Value.Rebuilt]
    obtain ⟨l, ls, hleaves⟩ := List.exists_cons_of_ne_nil hvfull.leaves_ne_nil
    rw [hleaves] at htakesAll hcountAll ⊢
    constructor
    · intro h
      rcases taken_or_new pre l.1 with ⟨init, last, rfl, htakes⟩ | hnew
      · rw [← placeAll_append, under_cons, List.cons_append, List.append_assoc] at h
        refine absurd h (placeAll_ne_of_takesPath htakes (ordered_list.mpr hpre) ?_)
        intro l' hl'
        rcases List.mem_append.mp hl' with hl' | hl'
        · obtain ⟨l₀, -, rfl⟩ := mem_under.mp hl'
          exact ⟨l₀.1, rfl⟩
        · exact eq_push_of_mem_listLeaves hl'
      · rw [placeAll_under_push_new hnew htakesAll] at h
        obtain ⟨r, hr, hafter⟩ := Option.bind_eq_some_iff.mp h
        obtain ⟨r', hr', rfl⟩ := Option.map_eq_some_iff.mp hr
        obtain ⟨w, rfl⟩ := exists_of_placeAll (by simp) hr'
        have hw : w.Ordered := ordered_of_placeAll (by simp) hr' w rfl
        have hwv : v = w := eq_of_placeAll_concat (fun l hl => eq_push_of_mem_listLeaves hl)
          (ordered_list_concat hpre hw) (hcountAll w hr') hafter
        subst hwv
        obtain ⟨hbuilt, hchain⟩ := hrest.mp hafter
        refine ⟨⟨hr', hbuilt⟩, fun last hlast l' hl' => ?_, hchain⟩
        rw [hleaves] at hl'
        cases hl'
        exact hnew last hlast
    · rintro ⟨⟨hvbuilt, hbuilt⟩, hsplits, hchain⟩
      have hnew : ∀ last ∈ pre.getLast?, last.takesPath l.1 = false :=
        fun last hlast => hsplits last hlast l (by rw [hleaves]; rfl)
      rw [placeAll_under_push_new hnew htakesAll, hvbuilt]
      exact hrest.mpr ⟨hbuilt, hchain⟩

theorem placeAll_none_of_push {ls : List Leaf} (hne : ls ≠ [])
    (hls : ∀ l ∈ ls, ∃ p, l.1 = .push :: p) : placeAll ls none = placeAll ls (some (.list [])) := by
  obtain ⟨l, rest, rfl⟩ := List.exists_cons_of_ne_nil hne
  obtain ⟨p, hp⟩ := hls l List.mem_cons_self
  rw [placeAll_cons, placeAll_cons, hp, place_push_none]

theorem placeAll_none_of_key {ls : List Leaf} (hne : ls ≠ [])
    (hls : ∀ l ∈ ls, ∃ k p, l.1 = .key k :: p) :
    placeAll ls none = placeAll ls (some (.map [])) := by
  obtain ⟨l, rest, rfl⟩ := List.exists_cons_of_ne_nil hne
  obtain ⟨k, p, hp⟩ := hls l List.mem_cons_self
  rw [placeAll_cons, placeAll_cons, hp, place_key_none]

/-- The value is a list only of items that each split from the one before. -/
def SplitsItems (v : Value) : Prop := ∀ items, v = .list items → items.IsChain Splits

/-- A value is built again from its leaves exactly when all neighbours in its lists split. -/
theorem rebuilt_iff {v : Value} (hfull : v.Full) (hv : v.Ordered) :
    v.Rebuilt ↔ v.All SplitsItems := by
  induction v using Value.induct with
  | text s =>
    rw [all_text]
    exact ⟨fun _ _ h => (by cases h), fun _ => rfl⟩
  | list items ih =>
    have hne := hfull.leaves_ne_nil
    have hitems := (all_list.mp hfull).2
    have hordered := ordered_list.mp hv
    have hiff : placeAll (listLeaves items) (some (.list [])) = some (some (.list items)) ↔
        (∀ u ∈ items, u.Rebuilt) ∧ items.IsChain Splits :=
      placeAll_listLeaves_eq_iff (by simp) hitems hordered
    rw [Value.Rebuilt, all_list]
    rw [leaves_list] at hne ⊢
    rw [placeAll_none_of_push hne fun l hl => eq_push_of_mem_listLeaves hl]
    refine hiff.trans ?_
    rw [and_comm]
    refine and_congr ?_ (forall₂_congr fun u hu => ih u hu (hitems u hu) (hordered u hu))
    exact ⟨fun h _ heq => (by cases heq; exact h), fun h => h items rfl⟩
  | map entries ih =>
    have hne := hfull.leaves_ne_nil
    have hvalues := (all_map.mp hfull).2
    obtain ⟨hsorted, hordered⟩ := ordered_map.mp hv
    have hiff : placeAll (mapLeaves entries) (some (.map [])) = some (some (.map entries)) ↔
        ∀ e ∈ entries, e.2.Rebuilt :=
      placeAll_mapLeaves_eq_iff hsorted hvalues
    rw [Value.Rebuilt, all_map]
    rw [leaves_map] at hne ⊢
    rw [placeAll_none_of_key hne fun l hl => eq_key_of_mem_mapLeaves hl]
    refine hiff.trans ?_
    have hself : SplitsItems (map entries) := fun _ heq => by cases heq
    rw [and_iff_right hself]
    exact forall₂_congr fun e he => ih e he (hvalues e he) (hordered e he)

end Signpost.Query
