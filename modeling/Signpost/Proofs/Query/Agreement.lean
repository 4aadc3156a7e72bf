import Signpost.Proofs.Query.Standing
import Mathlib.Data.List.Chain

/-! # Items that agree

The items of a list are written one behind the other, so a map may be read as more of the map before
it. Written parameters can still be read if no item uses a name for a list or a map that stands for
another kind of value in an item before it, with only items of their kind between them.
-/
namespace Signpost.Query
open Value Value.leaves

/-- The steps lead from the first value to the second. -/
inductive Holds : Value → List Step → Value → Prop
  | here (v : Value) : Holds v [] v
  | entry {entries : List (String × Value)} {e : String × Value} {p : List Step} {x : Value}
      (he : e ∈ entries) (hx : Holds e.2 p x) : Holds (.map entries) (.key e.1 :: p) x
  | item {items : List Value} {v : Value} {p : List Step} {x : Value} (hv : v ∈ items)
      (hx : Holds v p x) : Holds (.list items) (.push :: p) x

/-- A name at which the second value holds a list or a map stands for no other kind of value in the
first. -/
def Agree (a b : Value) : Prop :=
  ∀ n x y, Keyed n → Holds a n x → Holds b n y → y.kind ≠ .text → x.kind = y.kind

/-- Items of a list agree with the items of their kind that follow them without a break. -/
def AgreesItems (v : Value) : Prop :=
  ∀ front a back, v = .list (front ++ a :: back) →
    ∀ b ∈ back.takeWhile fun u => u.kind = a.kind, Agree a b

theorem agreesItems_text (s : String) : AgreesItems (.text s) := nofun

theorem agreesItems_map (entries : List (String × Value)) : AgreesItems (.map entries) := nofun

theorem agreesItems_of_isChain {items : List Value}
    (h : items.IsChain fun a b => b.kind ≠ a.kind) : AgreesItems (.list items) := by
  intro front a back hitems b hb
  cases hitems
  cases back with
  | nil => cases hb
  | cons b' back =>
    have hne : b'.kind ≠ a.kind := List.isChain_iff_forall_rel_of_append_cons_cons.mp h rfl
    rw [List.takeWhile_cons_of_neg (by simpa using hne)] at hb
    cases hb

theorem kindOf_of_mem_leaves {v : Value} {l : Leaf} (h : l ∈ v.leaves) : kindOf l.1 = v.kind := by
  cases v with
  | text s =>
    rw [leaves_text, List.mem_singleton] at h
    rw [h]
    rfl
  | list items =>
    rw [leaves_list] at h
    obtain ⟨p, hp⟩ := eq_push_of_mem_listLeaves h
    rw [hp]
    rfl
  | map entries =>
    rw [leaves_map] at h
    obtain ⟨k, p, hp⟩ := eq_key_of_mem_mapLeaves h
    rw [hp]
    rfl

theorem exists_holds {v : Value} {l : Leaf} (h : l ∈ v.leaves) {n r : List Step}
    (hl : l.1 = n ++ r) : ∃ x, Holds v n x ∧ x.kind = kindOf r := by
  induction n generalizing v l with
  | nil =>
    have hkind := kindOf_of_mem_leaves h
    rw [hl, List.nil_append] at hkind
    exact ⟨v, .here v, hkind.symm⟩
  | cons step n ih =>
    cases v with
    | text s =>
      rw [leaves_text, List.mem_singleton] at h
      rw [h] at hl
      cases hl
    | list items =>
      rw [leaves_list] at h
      obtain ⟨u, hu, hunder⟩ := mem_listLeaves.mp h
      obtain ⟨l', hl', rfl⟩ := mem_under.mp hunder
      obtain ⟨rfl, hrest⟩ := List.cons.inj hl
      obtain ⟨x, hx, hkind⟩ := ih hl' hrest
      exact ⟨x, .item hu hx, hkind⟩
    | map entries =>
      rw [leaves_map] at h
      obtain ⟨e, he, hunder⟩ := mem_mapLeaves.mp h
      obtain ⟨l', hl', rfl⟩ := mem_under.mp hunder
      obtain ⟨rfl, hrest⟩ := List.cons.inj hl
      obtain ⟨x, hx, hkind⟩ := ih hl' hrest
      exact ⟨x, .entry he hx, hkind⟩

def paths (ls : List Leaf) : List (List Step) := ls.map Prod.fst

theorem paths_append (ls ls' : List Leaf) : paths (ls ++ ls') = paths ls ++ paths ls' :=
  List.map_append

theorem paths_under (step : Step) (ls : List Leaf) :
    paths (under step ls) = (paths ls).map (step :: ·) := by
  simp [paths, under]

theorem kindOf_of_mem_paths {v : Value} {p : List Step} (h : p ∈ paths v.leaves) :
    kindOf p = v.kind := by
  obtain ⟨l, hl, rfl⟩ := List.mem_map.mp h
  exact kindOf_of_mem_leaves hl

theorem exists_holds_of_mem_paths {v : Value} {n r : List Step} (h : n ++ r ∈ paths v.leaves) :
    ∃ x, Holds v n x ∧ x.kind = kindOf r := by
  obtain ⟨l, hl, hpath⟩ := List.mem_map.mp h
  exact exists_holds hl hpath

/-- `q` puts an item of another kind at the end of a list that the name goes through. -/
def Cuts (n q : List Step) : Prop :=
  ∃ s t r, n = s ++ .push :: t ∧ q = s ++ .push :: r ∧ kindOf r ≠ kindOf t

theorem Cuts.cons {n q : List Step} (h : Cuts n q) (step : Step) : Cuts (step :: n) (step :: q) := by
  obtain ⟨s, t, r, rfl, rfl, hne⟩ := h
  exact ⟨step :: s, t, r, rfl, rfl, hne⟩

theorem cuts_push {n q : List Step} (h : kindOf q ≠ kindOf n) : Cuts (.push :: n) (.push :: q) :=
  ⟨[], n, q, rfl, rfl, h⟩

theorem Cuts.renews {n q : List Step} (h : Cuts n q) (taken : Prop) : Renews taken n q := by
  obtain ⟨s, t, r, hn, hq, hne⟩ := h
  exact Or.inr (Or.inr ⟨s, t, r, hn, hq, Or.inl hne⟩)

/-- Where two paths with `mid` between them share a name and the later one goes on, the earlier one
goes on alike, or a path between them cuts the name off. -/
def Continues (p : List Step) (mid : List (List Step)) (q : List Step) : Prop :=
  ∀ n r r', Keyed n → p = n ++ r → q = n ++ r' → r' ≠ [] →
    kindOf r = kindOf r' ∨ ∃ t ∈ mid, Cuts n t

/-- Each path continues those before it. -/
def Steady (ps : List (List Step)) : Prop :=
  ∀ front p mid q back, ps = front ++ p :: (mid ++ q :: back) → Continues p mid q

/-- What a name stands for was written by a path that no later one cut off. -/
theorem exists_of_stands {ps : List (List Step)} {n : List Step} {κ : Kind} (h : Stands ps n κ) :
    ∃ later p earlier r, ps = later ++ p :: earlier ∧ p = n ++ r ∧ kindOf r = κ ∧
      ∀ t ∈ later, ¬ Cuts n t := by
  induction ps with
  | nil => exact h.elim
  | cons q ps ih =>
    rcases h with ⟨r, hq, hr⟩ | ⟨h, hrenews⟩
    · exact ⟨[], q, ps, r, rfl, hq, hr, by simp⟩
    · obtain ⟨later, p, earlier, r, rfl, hp, hr, hlater⟩ := ih h
      exact ⟨q :: later, p, earlier, r, rfl, hp, hr,
        List.forall_mem_cons.mpr ⟨fun hcut => hrenews (hcut.renews _), hlater⟩⟩

theorem Steady.consistent {ps : List (List Step)} (h : Steady ps) : Consistent ps.reverse := by
  refine consistent_iff.mpr fun later q earlier hsplit n r' κ hn hq hr' hstands => ?_
  obtain ⟨between, p, before, r, rfl, hp, rfl, hbetween⟩ := exists_of_stands hstands
  have hps : ps = before.reverse ++ p :: (between.reverse ++ q :: later.reverse) := by
    rw [← ps.reverse_reverse, hsplit]
    simp
  rcases h _ p _ q _ hps n r r' hn hp hq hr' with heq | ⟨t, ht, hcut⟩
  · exact heq.symm
  · exact absurd hcut (hbetween t (List.mem_reverse.mp ht))

theorem append_eq_append_cons {α : Type} {xs ys front back : List α} {x : α}
    (h : xs ++ ys = front ++ x :: back) :
    (∃ back', xs = front ++ x :: back' ∧ back = back' ++ ys) ∨
      ∃ front', front = xs ++ front' ∧ ys = front' ++ x :: back := by
  rcases List.append_eq_append_iff.mp h with ⟨front', hfront, hys⟩ | ⟨between, hxs, hback⟩
  · exact Or.inr ⟨front', hfront, hys⟩
  · cases between with
    | nil => exact Or.inr ⟨[], by simpa using hxs.symm, by simpa using hback.symm⟩
    | cons y back' =>
      obtain ⟨rfl, rfl⟩ := List.cons.inj hback
      exact Or.inl ⟨back', hxs, rfl⟩

theorem steady_append {ps qs : List (List Step)} (hps : Steady ps) (hqs : Steady qs)
    (h : ∀ front p back, ps = front ++ p :: back → ∀ front' q back', qs = front' ++ q :: back' →
      Continues p (back ++ front') q) : Steady (ps ++ qs) := by
  intro front p mid q back hsplit
  rcases append_eq_append_cons hsplit with ⟨after, hfirst, hrest⟩ | ⟨front', -, hboth⟩
  · rcases append_eq_append_cons hrest.symm with ⟨back', rfl, -⟩ | ⟨front', rfl, hsecond⟩
    · exact hps front p mid q back' hfirst
    · exact h front p after hfirst front' q back hsecond
  · exact hqs front' p mid q back hboth

theorem steady_under {v : Value} (step : Step) (h : Steady (paths v.leaves)) :
    Steady (paths (under step v.leaves)) := by
  intro front p mid q back hsplit n r r' hn hp hq hr'
  rw [paths_under] at hsplit
  obtain ⟨front₀, rest, hpaths, -, hrest⟩ := List.map_eq_append_iff.mp hsplit
  obtain ⟨p₀, rest, rfl, hp₀, hrest⟩ := List.map_eq_cons_iff.mp hrest
  obtain ⟨mid₀, rest, rfl, hmid, hrest⟩ := List.map_eq_append_iff.mp hrest
  obtain ⟨q₀, back₀, rfl, hq₀, -⟩ := List.map_eq_cons_iff.mp hrest
  obtain ⟨step', n, rfl⟩ := List.exists_cons_of_ne_nil hn.ne_nil
  obtain ⟨-, hp₀⟩ := List.cons.inj (hp₀.trans hp)
  obtain ⟨hstep, hq₀⟩ := List.cons.inj (hq₀.trans hq)
  by_cases hnil : n = []
  · have hkind : ∀ p ∈ front₀ ++ p₀ :: (mid₀ ++ q₀ :: back₀), kindOf p = v.kind := fun p hp =>
      kindOf_of_mem_paths (hpaths ▸ hp)
    rw [hp₀, hq₀, hnil] at hkind
    exact Or.inl ((hkind r (by simp)).trans (hkind r' (by simp)).symm)
  · rcases h front₀ p₀ mid₀ q₀ back₀ hpaths n r r' (hn.tail hnil) hp₀ hq₀ hr' with heq | ⟨t, ht, hcut⟩
    · exact Or.inl heq
    · exact Or.inr ⟨step :: t, hmid ▸ List.mem_map_of_mem ht, hstep ▸ hcut.cons step⟩

theorem steady_mapLeaves {es : List (String × Value)} (hs : Entries.Sorted es)
    (h : ∀ e ∈ es, Steady (paths e.2.leaves)) : Steady (paths (mapLeaves es)) := by
  induction es with
  | nil =>
    intro front p mid q back hsplit
    simp [paths] at hsplit
  | cons e es ih =>
    rw [mapLeaves_cons, paths_append]
    apply steady_append (steady_under _ (h e List.mem_cons_self))
      (ih hs.tail fun e he => h e (List.mem_cons_of_mem _ he))
    -- names under different keys have nothing in common
    intro front p back hfirst front' q back' hsecond n r r' hn hp hq
    have hpmem : p ∈ paths (under (.key e.1) e.2.leaves) := by simp [hfirst]
    have hqmem : q ∈ paths (mapLeaves es) := by simp [hsecond]
    obtain ⟨l, hl, rfl⟩ := List.mem_map.mp hpmem
    obtain ⟨l', hl', rfl⟩ := List.mem_map.mp hqmem
    obtain ⟨l, -, rfl⟩ := mem_under.mp hl
    obtain ⟨e', he', hunder⟩ := mem_mapLeaves.mp hl'
    obtain ⟨l', -, rfl⟩ := mem_under.mp hunder
    obtain ⟨step, n, rfl⟩ := List.exists_cons_of_ne_nil hn.ne_nil
    obtain ⟨hstep, -⟩ := List.cons.inj hp
    obtain ⟨hstep', -⟩ := List.cons.inj hq
    have hkey : e.1 = e'.1 := Step.key.inj (hstep.trans hstep'.symm)
    have hlt := (List.pairwise_cons.mp hs).1 e' he'
    rw [hkey, Std.compare_self] at hlt
    cases hlt

theorem Keyed.kindOf_eq {n r : List Step} (hn : Keyed (.push :: n)) {v : Value}
    (h : n ++ r ∈ paths v.leaves) : kindOf n = v.kind := by
  have hne : n ≠ [] := fun hnil => not_keyed_push (hnil ▸ hn)
  rw [← kindOf_append hne r, kindOf_of_mem_paths h]

theorem continues_of_agree {a b : Value} {p q : List Step} (hp : p ∈ paths a.leaves)
    (hq : q ∈ paths b.leaves) (hagree : b.kind = a.kind → Agree a b) (mid : List (List Step)) :
    Continues (.push :: p) mid (.push :: q) := by
  intro n r r' hn hpath hqpath hr'
  obtain ⟨step, n, rfl⟩ := List.exists_cons_of_ne_nil hn.ne_nil
  obtain ⟨rfl, rfl : p = n ++ r⟩ := List.cons.inj hpath
  obtain ⟨-, rfl : q = n ++ r'⟩ := List.cons.inj hqpath
  have hne : n ≠ [] := fun hnil => not_keyed_push (hnil ▸ hn)
  obtain ⟨x, hx, hxr⟩ := exists_holds_of_mem_paths hp
  obtain ⟨y, hy, hyr⟩ := exists_holds_of_mem_paths hq
  have hkind : b.kind = a.kind := (hn.kindOf_eq hq).symm.trans (hn.kindOf_eq hp)
  have heq : x.kind = y.kind :=
    hagree hkind n x y (hn.tail hne) hx hy (hyr ▸ kindOf_ne_text hr')
  exact Or.inl (hxr.symm.trans (heq.trans hyr))

theorem continues_past {a b : Value} {p : List Step} (hp : p ∈ paths a.leaves) (hb : b.Full)
    (hkind : b.kind ≠ a.kind) {mid : List (List Step)}
    (hmid : ∀ t ∈ paths b.leaves, .push :: t ∈ mid) (q : List Step) :
    Continues (.push :: p) mid q := by
  intro n r r' hn hpath _ _
  obtain ⟨step, n, rfl⟩ := List.exists_cons_of_ne_nil hn.ne_nil
  obtain ⟨rfl, rfl : p = n ++ r⟩ := List.cons.inj hpath
  obtain ⟨l, ls, hleaves⟩ := List.exists_cons_of_ne_nil hb.leaves_ne_nil
  have hl : l.1 ∈ paths b.leaves := List.mem_map_of_mem (by simp [hleaves])
  refine Or.inr ⟨.push :: l.1, hmid l.1 hl, cuts_push ?_⟩
  rwa [kindOf_of_mem_paths hl, hn.kindOf_eq hp]

theorem continues_listLeaves {a : Value} {p : List Step} (hp : p ∈ paths a.leaves)
    {items : List Value} (hfull : ∀ u ∈ items, u.Full)
    (hagree : ∀ b ∈ items.takeWhile fun u => u.kind = a.kind, Agree a b)
    (between : List (List Step)) {front back : List (List Step)} {q : List Step}
    (h : paths (listLeaves items) = front ++ q :: back) :
    Continues (.push :: p) (between ++ front) q := by
  induction items generalizing between front with
  | nil => simp [paths] at h
  | cons b items ih =>
    rw [listLeaves_cons, paths_append, paths_under] at h
    rcases append_eq_append_cons h with ⟨back', hfirst, -⟩ | ⟨front', rfl, hrest⟩
    · have hmem : q ∈ (paths b.leaves).map (Step.push :: ·) := by simp [hfirst]
      obtain ⟨q, hq, rfl⟩ := List.mem_map.mp hmem
      exact continues_of_agree hp hq (fun hkind => hagree b (by simp [hkind])) _
    · by_cases hkind : b.kind = a.kind
      · rw [List.takeWhile_cons_of_pos (by simpa using hkind)] at hagree
        rw [← List.append_assoc]
        exact ih (fun u hu => hfull u (List.mem_cons_of_mem _ hu))
          (fun u hu => hagree u (List.mem_cons_of_mem _ hu)) _ hrest
      · refine continues_past hp (hfull b List.mem_cons_self) hkind (fun t ht => ?_) q
        exact List.mem_append_right _ (List.mem_append_left _ (List.mem_map_of_mem ht))

theorem steady_listLeaves {items : List Value} (hfull : ∀ u ∈ items, u.Full)
    (hagree : AgreesItems (.list items)) (h : ∀ u ∈ items, Steady (paths u.leaves)) :
    Steady (paths (listLeaves items)) := by
  induction items with
  | nil =>
    intro front p mid q back hsplit
    simp [paths] at hsplit
  | cons a items ih =>
    have hfullRest : ∀ u ∈ items, u.Full := fun u hu => hfull u (List.mem_cons_of_mem _ hu)
    have hagreeRest : AgreesItems (.list items) := by
      rintro front b back hlist
      exact hagree (a :: front) b back (by rw [List.cons_append, ← Value.list.inj hlist])
    rw [listLeaves_cons, paths_append]
    apply steady_append (steady_under _ (h a List.mem_cons_self))
      (ih hfullRest hagreeRest fun u hu => h u (List.mem_cons_of_mem _ hu))
    intro front p back hfirst front' q back' hsecond
    have hmem : p ∈ paths (under .push a.leaves) := by simp [hfirst]
    rw [paths_under] at hmem
    obtain ⟨p₀, hpmem, rfl⟩ := List.mem_map.mp hmem
    exact continues_listLeaves hpmem hfullRest (hagree [] a items rfl) back hsecond

theorem steady_leaves {v : Value} (hfull : v.Full) (hordered : v.Ordered)
    (hagree : v.All AgreesItems) : Steady (paths v.leaves) := by
  induction v using Value.induct with
  | text s =>
    intro front p mid q back hsplit
    have hlength := congrArg List.length hsplit
    simp [paths] at hlength
    omega
  | list items ih =>
    have hfull := (all_list.mp hfull).2
    have hordered := ordered_list.mp hordered
    obtain ⟨hself, hagree⟩ := all_list.mp hagree
    rw [leaves_list]
    exact steady_listLeaves hfull hself fun u hu => ih u hu (hfull u hu) (hordered u hu) (hagree u hu)
  | map entries ih =>
    have hfull := (all_map.mp hfull).2
    obtain ⟨hsorted, hordered⟩ := ordered_map.mp hordered
    have hagree := (all_map.mp hagree).2
    rw [leaves_map]
    exact steady_mapLeaves hsorted fun e he => ih e he (hfull e he) (hordered e he) (hagree e he)

end Signpost.Query
