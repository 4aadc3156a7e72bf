import Signpost.Proofs.Template.Segments
import Signpost.Router

/-! # Paths of addresses

The path of an address is finished: no slash stands beside another, and none at the end of a path
that is more than a slash. Finishing a text keeps its pieces between slashes and whether it begins
with one. A finished path is determined by these, so that two texts are finished to the same path
exactly when they agree in them.
-/
namespace Signpost.Link
open Template (Apart)
variable {cs ds : List Char} {c : Char}

theorem squeeze_cons (h : c = '/' → cs.head? ≠ some '/') : squeeze (c :: cs) = c :: squeeze cs := by
  rw [squeeze]
  rintro rest rfl rfl
  exact h rfl rfl

theorem head?_ne_of_kept (h : ∀ rest, c = '/' → cs = '/' :: rest → False) (hc : c = '/') :
    cs.head? ≠ some '/' := by
  intro hhead
  obtain ⟨rest, hcs⟩ := List.head?_eq_some_iff.mp hhead
  exact h rest hc hcs

@[simp] theorem head?_squeeze (cs : List Char) : (squeeze cs).head? = cs.head? := by
  fun_induction squeeze cs with
  | case1 rest ih => exact ih
  | case2 d rest _ _ => rfl
  | case3 => rfl

@[simp] theorem squeeze_eq_nil_iff : squeeze cs = [] ↔ cs = [] := by
  rw [← List.head?_eq_none_iff, head?_squeeze, List.head?_eq_none_iff]

theorem apart_squeeze (cs : List Char) : Apart (squeeze cs) := by
  fun_induction squeeze cs with
  | case1 rest ih => exact ih
  | case2 d rest hkept ih => exact ⟨head?_squeeze rest ▸ head?_ne_of_kept hkept, ih⟩
  | case3 => trivial

/-- One more character is written, unless it is a slash and so is the last that was written. -/
theorem squeeze_concat (cs : List Char) (c : Char) :
    squeeze (cs ++ [c]) =
      if c = '/' ∧ (squeeze cs).getLast? = some '/' then squeeze cs else squeeze cs ++ [c] := by
  fun_induction squeeze cs with
  | case1 rest ih => exact ih
  | case2 d rest hkept ih =>
    rcases eq_or_ne rest [] with rfl | hrest
    · by_cases hslashes : c = '/' ∧ d = '/'
      · obtain ⟨rfl, rfl⟩ := hslashes
        rfl
      · have hapart : d = '/' → [c].head? ≠ some '/' := by simpa [imp_not_comm] using hslashes
        rw [List.singleton_append, squeeze_cons hapart, if_neg (by simpa [squeeze] using hslashes)]
        simp [squeeze]
    · have hhead : (rest ++ [c]).head? = rest.head? := List.head?_append_of_ne_nil _ hrest
      have hlast : (d :: squeeze rest).getLast? = (squeeze rest).getLast? :=
        List.getLast?_cons_of_ne_nil (mt squeeze_eq_nil_iff.mp hrest)
      rw [List.cons_append, squeeze_cons (hhead ▸ head?_ne_of_kept hkept), ih, hlast]
      split <;> rfl
  | case3 => simp [squeeze]

theorem mem_of_mem_squeeze (h : c ∈ squeeze cs) : c ∈ cs := by
  fun_induction squeeze cs with
  | case1 rest ih => exact List.mem_cons_of_mem _ (ih h)
  | case2 d rest _ ih =>
    rcases List.mem_cons.mp h with rfl | h
    · exact List.mem_cons_self
    · exact List.mem_cons_of_mem _ (ih h)
  | case3 => exact h

/-- The texts between slashes that are not empty. -/
def pieces (cs : List Char) : List (List Char) := (cs.splitOn '/').filter (· ≠ [])

theorem pieces_append_slash (cs ds : List Char) :
    pieces (cs ++ '/' :: ds) = pieces cs ++ pieces ds := by
  rw [pieces, List.splitOn_append_cons_self, List.filter_append]
  rfl

theorem pieces_slash (cs : List Char) : pieces ('/' :: cs) = pieces cs :=
  pieces_append_slash [] cs

theorem pieces_append_squeeze (front cs : List Char) :
    pieces (front ++ squeeze cs) = pieces (front ++ cs) := by
  fun_induction squeeze cs generalizing front with
  | case1 rest ih => rw [ih, pieces_append_slash, pieces_append_slash, pieces_slash]
  | case2 d rest _ ih => rw [List.append_cons, ih, List.append_assoc, List.singleton_append]
  | case3 => rfl

theorem pieces_squeeze (cs : List Char) : pieces (squeeze cs) = pieces cs :=
  pieces_append_squeeze [] cs

/-- The path is not empty, has no slash beside a slash, and ends with a slash only if it is one. -/
structure Finished (cs : List Char) : Prop where
  nonempty : cs ≠ []
  single : ¬ ['/', '/'] <:+: cs
  trimmed : cs.getLast? = some '/' → cs = ['/']

theorem finishPath_concat_slash (cs : List Char) : finishPath (cs ++ ['/']) = finishPath cs := by
  rw [finishPath, squeeze_concat, finishPath]
  by_cases hlast : (squeeze cs).getLast? = some '/'
  · simp [hlast]
  · simp [hlast]

theorem finishPath_concat_of_ne (hc : c ≠ '/') :
    finishPath (cs ++ [c]) = squeeze (cs ++ [c]) := by
  rw [finishPath, squeeze_concat]
  simp [hc]

/-- Induction on a text and its finished path, from the end of the text: there is no text, a slash at
the end changes nothing, and a text that ends otherwise is squeezed only. -/
theorem finishPath_induction {motive : List Char → List Char → Prop} (nil : motive [] ['/'])
    (slash : ∀ cs path, motive cs path → motive (cs ++ ['/']) path)
    (other : ∀ cs c, c ≠ '/' → motive (cs ++ [c]) (squeeze (cs ++ [c]))) (cs : List Char) :
    motive cs (finishPath cs) := by
  induction cs using List.reverseRecOn with
  | nil => exact nil
  | append_singleton cs c ih =>
    by_cases hc : c = '/'
    · rw [hc, finishPath_concat_slash]
      exact slash cs _ ih
    · rw [finishPath_concat_of_ne hc]
      exact other cs c hc

theorem finished_finishPath (cs : List Char) : Finished (finishPath cs) := by
  refine finishPath_induction (motive := fun _ path => Finished path) ?nil ?slash ?other cs
  case nil => exact ⟨by decide, by decide, fun _ => rfl⟩
  case slash => exact fun _ _ h => h
  case other =>
    intro cs c hc
    refine ⟨by simp, (apart_squeeze _).not_within, fun hlast => ?_⟩
    rw [squeeze_concat, if_neg (fun h => hc h.1), List.getLast?_concat] at hlast
    exact absurd (Option.some.inj hlast) hc

theorem finishPath_eq_self_iff : finishPath cs = cs ↔ Finished cs := by
  constructor
  · intro h
    exact h ▸ finished_finishPath cs
  · intro h
    exact Template.finishPath_eq_self (Template.apart_of_not_within h.single) h.nonempty h.trimmed

theorem pieces_finishPath (cs : List Char) : pieces (finishPath cs) = pieces cs := by
  refine finishPath_induction (motive := fun cs path => pieces path = pieces cs)
    ?nil ?slash ?other cs
  case nil => rfl
  case slash =>
    intro cs path h
    rw [h, pieces_append_slash]
    exact (List.append_nil _).symm
  case other => exact fun cs c _ => pieces_squeeze _

/-- A path begins as its text does, and with a slash if the text is empty. -/
theorem head?_finishPath (cs : List Char) :
    (finishPath cs).head? = some (cs.head?.getD '/') := by
  refine finishPath_induction (motive := fun cs path => path.head? = some (cs.head?.getD '/'))
    ?nil ?slash ?other cs
  case nil => rfl
  case slash =>
    intro cs path h
    rw [h]
    cases cs <;> rfl
  case other =>
    intro cs c _
    rw [head?_squeeze]
    cases cs <;> rfl

theorem mem_of_mem_finishPath (h : c ∈ finishPath cs) : c ∈ cs ∨ c = '/' := by
  refine finishPath_induction (motive := fun cs path => c ∈ path → c ∈ cs ∨ c = '/')
    ?nil ?slash ?other cs h
  case nil => exact fun h => Or.inr (List.mem_singleton.mp h)
  case slash => exact fun cs path ih h => (ih h).imp_left (List.mem_append_left _)
  case other => exact fun cs d _ h => Or.inl (mem_of_mem_squeeze h)

theorem getD_head?_eq_slash_iff :
    cs.head?.getD '/' = '/' ↔ cs.head? = some '/' ∨ ∀ c ∈ cs, c = '/' := by
  cases cs with
  | nil => simp
  | cons d rest =>
    simp only [List.head?_cons, Option.getD_some, Option.some.injEq, List.forall_mem_cons]
    exact ⟨Or.inl, fun h => h.elim id And.left⟩

/-- What finishing makes of any text: a finished path with the pieces of the text, which begins with
a slash exactly if the text does or has nothing else, and which finishing again does not change. -/
theorem finishPath_normalizes (cs : List Char) :
    Finished (finishPath cs) ∧
      pieces (finishPath cs) = pieces cs ∧
      ((finishPath cs).head? = some '/' ↔ cs.head? = some '/' ∨ ∀ c ∈ cs, c = '/') ∧
      finishPath (finishPath cs) = finishPath cs := by
  have hfinished := finished_finishPath cs
  refine ⟨hfinished, pieces_finishPath cs, ?_, finishPath_eq_self_iff.mpr hfinished⟩
  rw [head?_finishPath, Option.some.injEq]
  exact getD_head?_eq_slash_iff

/-- Runs of slashes are one slash before the last slash is dropped. -/
example : finishPath "/a//".toList = "/a".toList := by decide

/-- No piece is empty in a text in which slashes stand apart, when it neither begins nor ends with
a slash. -/
theorem nil_notMem_splitOn {front : List Char} (hfront : '/' ∉ front) (h : Apart cs)
    (hlast : cs.getLast? ≠ some '/') (hstart : front = [] → cs ≠ [] ∧ cs.head? ≠ some '/') :
    [] ∉ (front ++ cs).splitOn '/' := by
  -- what was read since the last slash is `front`, which is empty only right behind it
  induction cs generalizing front with
  | nil =>
    rw [List.append_nil, List.splitOn_eq_singleton hfront, List.mem_singleton]
    rintro rfl
    exact (hstart rfl).1 rfl
  | cons c rest ih =>
    have hrest : rest.getLast? ≠ some '/' := by
      intro hslash
      rw [List.getLast?_cons, hslash] at hlast
      exact hlast rfl
    by_cases hc : c = '/'
    · subst hc
      have hne : rest ≠ [] := by
        rintro rfl
        exact hlast rfl
      rw [List.splitOn_append_cons_self_of_not_mem hfront, List.mem_cons, not_or]
      constructor
      · rintro rfl
        exact (hstart rfl).2 rfl
      · exact ih List.not_mem_nil h.2 hrest fun _ => ⟨hne, h.1 rfl⟩
    · have hfront' : '/' ∉ front ++ [c] := by simpa [hfront] using Ne.symm hc
      rw [List.append_cons]
      exact ih hfront' h.2 hrest fun hnil => absurd hnil (by simp)

theorem intercalate_pieces (h : Apart cs) (hhead : cs.head? ≠ some '/')
    (hlast : cs.getLast? ≠ some '/') : ['/'].intercalate (pieces cs) = cs := by
  rcases eq_or_ne cs [] with rfl | hne
  · rfl
  · have hnil := nil_notMem_splitOn List.not_mem_nil h hlast fun _ => ⟨hne, hhead⟩
    have hpieces : pieces cs = cs.splitOn '/' := by
      refine List.filter_eq_self.mpr fun piece hpiece => decide_eq_true ?_
      rintro rfl
      exact hnil hpiece
    rw [hpieces, List.intercalate_splitOn]

namespace Finished

theorem apart (h : Finished cs) : Apart cs := Template.apart_of_not_within h.single

/-- A finished path is its pieces with slashes between them, behind a slash or not. -/
theorem eq_intercalate (h : Finished cs) :
    cs = (if cs.head? = some '/' then ['/'] else []) ++ ['/'].intercalate (pieces cs) := by
  split
  · rename_i hhead
    obtain ⟨rest, rfl⟩ := List.head?_eq_some_iff.mp hhead
    have hlast : rest.getLast? ≠ some '/' := by
      intro hslash
      have hwhole := h.trimmed (by rw [List.getLast?_cons, hslash]; rfl)
      obtain rfl : rest = [] := (List.cons.inj hwhole).2
      cases hslash
    rw [pieces_slash, intercalate_pieces h.apart.2 (h.apart.1 rfl) hlast]
    rfl
  · rename_i hhead
    have hlast : cs.getLast? ≠ some '/' := by
      intro hslash
      rw [h.trimmed hslash] at hhead
      exact hhead rfl
    exact (intercalate_pieces h.apart hhead hlast).symm

theorem eq_of_pieces (hcs : Finished cs) (hds : Finished ds) (hpieces : pieces cs = pieces ds)
    (hhead : cs.head? = some '/' ↔ ds.head? = some '/') : cs = ds := by
  rw [hcs.eq_intercalate, hds.eq_intercalate, hpieces]
  simp only [hhead]

end Finished

/-- Two texts are finished to the same path if and only if they have the same pieces and both or
neither of them begins with a slash, as an empty text is taken to do. -/
theorem finishPath_eq_finishPath_iff :
    finishPath cs = finishPath ds ↔
      pieces cs = pieces ds ∧ (cs.head?.getD '/' = '/' ↔ ds.head?.getD '/' = '/') := by
  constructor
  · intro h
    have hhead : some (cs.head?.getD '/') = some (ds.head?.getD '/') := by
      rw [← head?_finishPath, h, head?_finishPath]
    rw [← pieces_finishPath cs, h, pieces_finishPath, Option.some.inj hhead]
    exact ⟨rfl, Iff.rfl⟩
  · rintro ⟨hpieces, hhead⟩
    refine (finished_finishPath cs).eq_of_pieces (finished_finishPath ds) ?_ ?_
    · rw [pieces_finishPath, hpieces, pieces_finishPath]
    · rw [head?_finishPath, head?_finishPath, Option.some.injEq, Option.some.injEq]
      exact hhead

variable {segments : List Segment} {source : LinkSource} {fallback : Query.QueryMap}

theorem finished_path : Finished (path segments source fallback).toList := by
  rw [path, String.toList_ofList]
  exact finished_finishPath _

/-- Whatever a router gives as an address is a finished path, and nothing or a query behind it. -/
theorem exists_finished_of_generate {r : Router} {name url : String}
    (h : r.generate name source fallback = .ok url) :
    ∃ path query : String, url = path ++ query ∧ Finished path.toList ∧
      (query = "" ∨ ∃ text, query = "?" ++ text) := by
  rw [Router.generate] at h
  cases hnamed : r.namedRoute? name with
  | none =>
    rw [hnamed] at h
    cases h
  | some route =>
    simp only [hnamed, Route.link] at h
    cases hsegments : route.segments with
    | error reason =>
      rw [hsegments] at h
      cases h
    | ok segments =>
      rw [hsegments] at h
      cases h
      refine ⟨_, _, rfl, finished_path, ?_⟩
      split
      · exact Or.inl rfl
      · exact Or.inr ⟨_, rfl⟩

end Signpost.Link
