import Signpost.Proofs.Resource.Parting
import Signpost.Proofs.Resource.Plural

/-! # The dispatch table of a plural resource

Every method and path of a plural resource is answered by at most one of its usual actions. The table
says which, and with which identifier and format.
-/
namespace Signpost.Resource
open Template Signpost.Path

def IsFormat (format : Option (List Char)) : Prop := ∀ f ∈ format, IsSegment f

/-- The action at a position of the table answers a method and a path below `base`, with an
identifier and a format. -/
inductive Dispatches (base : List Char) :
    String → List Char → Nat → String → Option (List Char) → Option (List Char) → Prop
  | index {path : List Char} {format : Option (List Char)} (hformat : IsFormat format)
      (hpath : path = base ++ extension format ∨ path = base ++ '/' :: extension format) :
      Dispatches base "get" path 0 "index" none format
  | indexByName {format : Option (List Char)} (hformat : IsFormat format) :
      Dispatches base "get" (base ++ '/' :: ("index".toList ++ extension format)) 1 "index" none
        format
  | new : Dispatches base "get" (base ++ '/' :: "new".toList) 2 "new" none none
  | create {path : List Char} {format : Option (List Char)} (hformat : IsFormat format)
      (hpath : path = base ++ extension format ∨ path = base ++ '/' :: extension format) :
      Dispatches base "post" path 3 "create" none format
  /-- The paths of the index and of new, by name, are no members. -/
  | show {id : List Char} {format : Option (List Char)} (hid : IsSegment id)
      (hformat : IsFormat format) (hindex : id ≠ "index".toList)
      (hnew : id = "new".toList → format ≠ none) :
      Dispatches base "get" (base ++ '/' :: (id ++ extension format)) 4 "show" (some id) format
  | edit {path id : List Char} (hid : IsSegment id)
      (hpath : path = base ++ '/' :: (id ++ "/edit".toList) ∨
        path = base ++ '/' :: (id ++ ";edit".toList)) :
      Dispatches base "get" path 5 "edit" (some id) none
  | update {id : List Char} {format : Option (List Char)} (hid : IsSegment id)
      (hformat : IsFormat format) :
      Dispatches base "put" (base ++ '/' :: (id ++ extension format)) 6 "update" (some id) format
  | destroy {id : List Char} {format : Option (List Char)} (hid : IsSegment id)
      (hformat : IsFormat format) :
      Dispatches base "delete" (base ++ '/' :: (id ++ extension format)) 7 "destroy" (some id)
        format

section Takes
variable {name m : String} {request : Request} {rest : List Char}

theorem meets_iff {f : Form} {found : List (Nat × List Char)}
    (hpath : request.path.toList = '/' :: (name.toList ++ rest)) :
    f.Meets name found request.path ↔ Path.Fits 0 f.pieces found rest := by
  constructor
  · rintro ⟨rest', hfits, heq⟩
    rw [hpath] at heq
    rwa [List.append_cancel_left (List.cons.inj heq).2]
  · exact fun hfits => ⟨rest, hfits, hpath⟩

theorem takes_usualRow_iff {a : UsualAction} (ha : a ∈ pluralActions) (f : Form)
    (hm : ∀ c ∈ m.toList, c.toNat < 128) :
    (usualRow a f).Takes name (request.withMethod m) ↔
      (∃ found, f.Meets name found request.path) ∧ Unicode.lowercase m = a.method :=
  and_congr_right' (isSome_captures?_method ha (asciiLower_of_mem_lowercase hm))

theorem takes_of_fits {a : UsualAction} (ha : a ∈ pluralActions) {f : Form}
    (hm : ∀ c ∈ m.toList, c.toNat < 128)
    (hpath : request.path.toList = '/' :: (name.toList ++ rest))
    (hmethod : Unicode.lowercase m = a.method) {found : List (Nat × List Char)}
    (hfits : Path.Fits 0 f.pieces found rest) : (usualRow a f).Takes name (request.withMethod m) :=
  (takes_usualRow_iff ha f hm).mpr ⟨⟨found, (meets_iff hpath).mpr hfits⟩, hmethod⟩

theorem not_takes_of_fits {row : Row} (hpath : request.path.toList = '/' :: (name.toList ++ rest))
    (hfits : ∀ found, ¬ Path.Fits 0 row.form.pieces found rest) : ¬ row.Takes name request := by
  rintro ⟨⟨found, hmeets⟩, -⟩
  exact hfits found ((meets_iff hpath).mp hmeets)

theorem not_takes_of_method {a : UsualAction} (ha : a ∈ pluralActions) (f : Form)
    (hm : ∀ c ∈ m.toList, c.toNat < 128) (hmethod : Unicode.lowercase m ≠ a.method) :
    ¬ (usualRow a f).Takes name (request.withMethod m) :=
  fun htakes => hmethod ((takes_usualRow_iff ha f hm).mp htakes).2

theorem not_takes_of_methods {k : Nat} (hm : ∀ c ∈ m.toList, c.toNat < 128)
    (hmethods : ∀ a ∈ pluralActions.take k, Unicode.lowercase m ≠ a.method) :
    ∀ other ∈ usualRows.take k, ¬ other.Takes name (request.withMethod m) := by
  intro other hother
  rw [usualRows, List.take_zipWith, ← List.map_uncurry_zip_eq_zipWith] at hother
  obtain ⟨⟨a, f⟩, hpair, rfl⟩ := List.mem_map.mp hother
  have ha := (List.of_mem_zip hpair).1
  exact not_takes_of_method (List.mem_of_mem_take ha) f hm (hmethods a ha)

end Takes

theorem exists_rest {path base : List Char} {format : Option (List Char)}
    (h : path = base ++ extension format ∨ path = base ++ '/' :: extension format) :
    ∃ rest, path = base ++ rest ∧ (rest = extension format ∨ rest = '/' :: extension format) := by
  rcases h with rfl | rfl
  · exact ⟨_, rfl, Or.inl rfl⟩
  · exact ⟨_, rfl, Or.inr rfl⟩

section Answers
variable {name m : String} {request : Request}

variable {a : UsualAction} {back : List Row} {rest : List Char}

theorem answers_of_collection (k : Nat) {format : Option (List Char)} (ha : a ∈ pluralActions)
    (hrows : usualRows = usualRows.take k ++ usualRow a collectionForm :: back)
    (hk : (usualRows.take k).length = k)
    (hm : ∀ c ∈ m.toList, c.toNat < 128) (hmethod : Unicode.lowercase m = a.method)
    (hfront : ∀ other ∈ usualRows.take k, ¬ other.Takes name (request.withMethod m))
    (hpath : request.path.toList = '/' :: (name.toList ++ rest)) (hformat : IsFormat format)
    (hrest : rest = extension format ∨ rest = '/' :: extension format) :
    Answers usualRows name (request.withMethod m) k a.action none format := by
  refine ⟨usualRows.take k, _, back, hrows, hk, ?_, hfront, fun found hmeets controller => ?_⟩
  · exact takes_of_fits ha hm hpath hmethod (fits_collection_iff.mpr ⟨format, hformat, rfl, hrest⟩)
  · rw [found_of_fits_collection hrest ((meets_iff hpath).mp hmeets)]
    exact answer_collection _ _ _

theorem answers_of_member (k : Nat) {id : List Char} {format : Option (List Char)}
    (ha : a ∈ pluralActions)
    (hrows : usualRows = usualRows.take k ++ usualRow a memberForm :: back)
    (hk : (usualRows.take k).length = k)
    (hm : ∀ c ∈ m.toList, c.toNat < 128) (hmethod : Unicode.lowercase m = a.method)
    (hfront : ∀ other ∈ usualRows.take k, ¬ other.Takes name (request.withMethod m))
    (hpath : request.path.toList = '/' :: (name.toList ++ '/' :: (id ++ extension format)))
    (hid : IsSegment id) (hformat : IsFormat format) :
    Answers usualRows name (request.withMethod m) k a.action (some id) format := by
  have hparts : Parts ('/' :: (id ++ extension format)) id (extension format) :=
    parts_extension hid rfl
  refine ⟨usualRows.take k, _, back, hrows, hk, ?_, hfront, fun found hmeets controller => ?_⟩
  · exact takes_of_fits ha hm hpath hmethod
      (fits_member_iff.mpr ⟨id, format, hid, hformat, rfl, rfl⟩)
  · obtain ⟨format', hext, rfl⟩ := hparts.of_fits_member ((meets_iff hpath).mp hmeets)
    rw [← extension_injective hext]
    exact answer_member _ _ _ _

theorem answers_of_edit {id : List Char} {c : Char} (hm : ∀ c ∈ m.toList, c.toNat < 128)
    (hmethod : Unicode.lowercase m = "get") (hid : IsSegment id) (hc : c = '/' ∨ c = ';')
    (hpath : request.path.toList = '/' :: (name.toList ++ '/' :: (id ++ c :: "edit".toList))) :
    Answers usualRows name (request.withMethod m) 5 "edit" (some id) none := by
  have hends : endsSegment c = true := by rcases hc with rfl | rfl <;> decide
  have hparts : Parts ('/' :: (id ++ c :: "edit".toList)) id (c :: "edit".toList) :=
    parts_action hid hends rfl
  have hext : ∀ format, c :: "edit".toList ≠ extension format := by
    rintro (_ | format) heq
    · cases heq
    · have hdot := (List.cons.inj heq).1
      rcases hc with rfl | rfl <;> cases hdot
  refine ⟨usualRows.take 5, _, _, rfl, rfl, ?_, ?_, fun found hmeets controller => ?_⟩
  · refine takes_of_fits (by decide) hm hpath hmethod
      (fits_memberAction_iff.mpr ⟨id, hid, rfl, ?_⟩)
    rcases hc with rfl | rfl
    · exact Or.inl rfl
    · exact Or.inr rfl
  · refine List.forall_mem_cons.mpr ⟨not_takes_of_fits hpath fun _ => hparts.not_fits_collection,
      List.forall_mem_cons.mpr ⟨not_takes_of_fits hpath fun _ hfits => ?_,
      List.forall_mem_cons.mpr ⟨not_takes_of_fits hpath fun _ hfits => ?_,
      List.forall_mem_cons.mpr ⟨not_takes_of_method (by decide) _ hm ?_,
      List.forall_mem_singleton.mpr (not_takes_of_fits hpath fun _ hfits => ?_)⟩⟩⟩⟩
    · obtain ⟨-, format, heq⟩ := hparts.of_fits_index hfits
      exact hext format heq
    · exact List.cons_ne_nil _ _ (hparts.of_fits_new hfits).2
    · rw [hmethod]
      decide
    · obtain ⟨format, heq, -⟩ := hparts.of_fits_member hfits
      exact hext format heq
  · obtain ⟨rfl, -⟩ := hparts.of_fits_memberAction ((meets_iff hpath).mp hmeets)
    exact answer_memberAction _ _ _ _ _

/-- What the table dispatches is answered first by the row at its position. -/
theorem answers_of_dispatches (hm : ∀ c ∈ m.toList, c.toNat < 128) {k : Nat} {action : String}
    {id format : Option (List Char)}
    (h : Dispatches ('/' :: name.toList) (Unicode.lowercase m) request.path.toList k action id
      format) : Answers usualRows name (request.withMethod m) k action id format := by
  generalize hmethod : Unicode.lowercase m = method at h
  generalize hpath : request.path.toList = path at h
  cases h with
  | index hformat hrest =>
    obtain ⟨rest, hpath, hshape⟩ := exists_rest (hpath ▸ hrest)
    exact answers_of_collection 0 (by decide) rfl rfl hm hmethod (by simp) hpath hformat hshape
  | @indexByName format hformat =>
    have hparts : Parts _ "index".toList (extension format) := parts_extension isSegment_index rfl
    refine ⟨usualRows.take 1, _, _, rfl, rfl, ?_, ?_, fun found hmeets controller => ?_⟩
    · exact takes_of_fits (by decide) hm hpath hmethod
        (fits_index_iff.mpr ⟨format, hformat, rfl, rfl⟩)
    · refine List.forall_mem_singleton.mpr (not_takes_of_fits hpath fun _ => ?_)
      exact hparts.not_fits_collection
    · obtain ⟨format', -, rfl, hrest⟩ := fits_index_iff.mp ((meets_iff hpath).mp hmeets)
      rw [extension_injective (List.append_cancel_left (List.cons.inj hrest).2)]
      exact answer_index _ _ _
  | new =>
    have hparts : Parts _ "new".toList [] := parts_segment isSegment_new rfl
    refine ⟨usualRows.take 2, _, _, rfl, rfl, ?_, ?_, fun found hmeets controller => ?_⟩
    · exact takes_of_fits (by decide) hm hpath hmethod (fits_new_iff.mpr ⟨rfl, rfl⟩)
    · refine List.forall_mem_cons.mpr ⟨not_takes_of_fits hpath fun _ => hparts.not_fits_collection,
        List.forall_mem_singleton.mpr (not_takes_of_fits hpath fun _ hfits => ?_)⟩
      exact absurd (hparts.of_fits_index hfits).1 (by decide)
    · obtain ⟨rfl, -⟩ := fits_new_iff.mp ((meets_iff hpath).mp hmeets)
      exact answer_new _ _
  | create hformat hrest =>
    obtain ⟨rest, hpath, hshape⟩ := exists_rest (hpath ▸ hrest)
    exact answers_of_collection 3 (by decide) rfl rfl hm hmethod
      (not_takes_of_methods hm (by rw [hmethod]; decide)) hpath hformat hshape
  | @«show» id format hid hformat hindex hnew =>
    have hparts : Parts _ id (extension format) := parts_extension hid rfl
    refine answers_of_member 4 (by decide) rfl rfl hm hmethod ?_ hpath hid hformat
    refine List.forall_mem_cons.mpr ⟨not_takes_of_fits hpath fun _ => hparts.not_fits_collection,
      List.forall_mem_cons.mpr ⟨not_takes_of_fits hpath fun _ hfits => ?_,
      List.forall_mem_cons.mpr ⟨not_takes_of_fits hpath fun _ hfits => ?_,
      List.forall_mem_singleton.mpr (not_takes_of_method (by decide) _ hm ?_)⟩⟩⟩
    · exact hindex (hparts.of_fits_index hfits).1
    · obtain ⟨hid', hnone⟩ := hparts.of_fits_new hfits
      exact hnew hid' (extension_injective hnone)
    · rw [hmethod]
      decide
  | @edit path id hid hrest =>
    rcases hrest with rfl | rfl
    · exact answers_of_edit hm hmethod hid (Or.inl rfl) hpath
    · exact answers_of_edit hm hmethod hid (Or.inr rfl) hpath
  | @update id format hid hformat =>
    exact answers_of_member 6 (by decide) rfl rfl hm hmethod
      (not_takes_of_methods hm (by rw [hmethod]; decide)) hpath hid hformat
  | @destroy id format hid hformat =>
    exact answers_of_member 7 (by decide) rfl rfl hm hmethod
      (not_takes_of_methods hm (by rw [hmethod]; decide)) hpath hid hformat

theorem exists_dispatches (hm : ∀ c ∈ m.toList, c.toNat < 128) {row : Row} (hrow : row ∈ usualRows)
    (htakes : row.Takes name (request.withMethod m)) :
    ∃ k action id format, Dispatches ('/' :: name.toList) (Unicode.lowercase m)
      request.path.toList k action id format := by
  have hcase : ∀ {a : UsualAction} {f : Form}, a ∈ pluralActions →
      (usualRow a f).Takes name (request.withMethod m) → ∃ found rest,
        Path.Fits 0 f.pieces found rest ∧ request.path.toList = '/' :: (name.toList ++ rest) ∧
          Unicode.lowercase m = a.method := by
    intro a f ha htakes
    obtain ⟨⟨found, rest, hfits, hpath⟩, hmethod⟩ := (takes_usualRow_iff ha f hm).mp htakes
    exact ⟨found, rest, hfits, hpath, hmethod⟩
  simp only [usualRows, pluralActions, pluralForms, List.zipWith_cons_cons, List.zipWith_nil_left,
    List.mem_cons, List.not_mem_nil, or_false] at hrow
  rcases hrow with rfl | rfl | rfl | rfl | rfl | rfl | rfl | rfl
  all_goals
    obtain ⟨found, rest, hfits, hpath, hmethod⟩ := hcase (by decide) htakes
    rw [hpath, hmethod]
  · obtain ⟨format, hformat, -, hrest⟩ := fits_collection_iff.mp hfits
    refine ⟨0, "index", none, format, .index hformat ?_⟩
    rcases hrest with rfl | rfl
    · exact Or.inl rfl
    · exact Or.inr rfl
  · obtain ⟨format, hformat, -, rfl⟩ := fits_index_iff.mp hfits
    exact ⟨1, "index", none, format, .indexByName hformat⟩
  · obtain ⟨-, rfl⟩ := fits_new_iff.mp hfits
    exact ⟨2, "new", none, none, .new⟩
  · obtain ⟨format, hformat, -, hrest⟩ := fits_collection_iff.mp hfits
    refine ⟨3, "create", none, format, .create hformat ?_⟩
    rcases hrest with rfl | rfl
    · exact Or.inl rfl
    · exact Or.inr rfl
  · obtain ⟨id, format, hid, hformat, -, rfl⟩ := fits_member_iff.mp hfits
    by_cases hindex : id = "index".toList
    · subst hindex
      exact ⟨1, "index", none, format, .indexByName hformat⟩
    by_cases hnew : id = "new".toList ∧ format = none
    · obtain ⟨rfl, rfl⟩ := hnew
      exact ⟨2, "new", none, none, .new⟩
    · exact ⟨4, "show", some id, format,
        .show hid hformat hindex fun hid hnone => hnew ⟨hid, hnone⟩⟩
  · obtain ⟨id, hid, -, hrest⟩ := fits_memberAction_iff.mp hfits
    refine ⟨5, "edit", some id, none, .edit hid ?_⟩
    rcases hrest with rfl | rfl
    · exact Or.inl rfl
    · exact Or.inr rfl
  · obtain ⟨id, format, hid, hformat, -, rfl⟩ := fits_member_iff.mp hfits
    exact ⟨6, "update", some id, format, .update hid hformat⟩
  · obtain ⟨id, format, hid, hformat, -, rfl⟩ := fits_member_iff.mp hfits
    exact ⟨7, "destroy", some id, format, .destroy hid hformat⟩

end Answers

theorem plainResource_default {name : String} (h : PlainName name) : PlainResource name {} :=
  ⟨h, rfl, by simp⟩

/-- The dispatch table of a plural resource with default options, alone on a router. The declaration
fails only if a program is too large, and not for names of moderate length. Its router has eight
routes; they answer every method and path of ASCII as the table says, with exactly these parameters,
and no other method or path. -/
theorem plural_dispatch (name : String) (hname : PlainName name) :
    let change := Router.new.prepare [.resources name {} []]
    (∀ e, change.failure = some e → ∃ field source, e = .invalidPattern field source .tooLarge) ∧
    (name.length ≤ 300000 → change.failure = none) ∧
    (change.failure = none → change.router.size = 8 ∧
      ∀ (request : Request) (m : String), (∀ c ∈ m.toList, c.toNat < 128) →
        let found := change.router.matchRequest (request.withMethod m)
        let dispatches := Dispatches ('/' :: name.toList) (Unicode.lowercase m) request.path.toList
        (∀ k action id format, dispatches k action id format →
          found = ⟨some k, answer action (some name) id format⟩) ∧
        ((¬ ∃ k action id format, dispatches k action id format) → found = ⟨none, []⟩)) := by
  have hplain := plainResource_default hname
  have hcompile := compile_verbatim hname.isVerbatim hname.1 "controller"
  intro change
  refine ⟨fun e he => ?_, fun hlength => ?_, fun hfailure => ⟨?_, fun request m hm => ?_⟩⟩
  · rcases error_of_declare hplain he with hlarge | ⟨row, -, herror⟩
    · exact hlarge
    · rw [show controllerOf name {} = name from rfl, hcompile] at herror
      cases herror
  · have hlongest : ∀ a ∈ ([] : List ExtraAction), a.action.length ≤ 0 := by simp
    exact failure_eq_none hplain hlongest hlength (by simp) fun row _ => ⟨_, hcompile _⟩
  · obtain ⟨routes, hserved, hroutes⟩ := exists_served hplain hfailure
    change change.router.table.routes.length = 8
    rw [show change.router.table.routes = _ from hroutes, Table.length_renumber,
      ← hserved.length_eq]
    rfl
  · intro found dispatches
    refine ⟨fun k action id format hdispatches => ?_, fun hnone => ?_⟩
    · obtain ⟨value, hmatch, hvalue⟩ :=
        matchRequest_of_answers hplain hfailure (answers_of_dispatches hm hdispatches)
      rw [hvalue hname.isVerbatim hname.1] at hmatch
      exact hmatch
    · refine matchRequest_of_none hplain hfailure fun row hrow htakes => ?_
      exact hnone (exists_dispatches hm hrow htakes)

/-- A member with a format, to be destroyed and to be created. -/
theorem plural_dispatch_posts :
    let change := Router.new.prepare [.resources "posts" {} []]
    let request : Request := { path := "/posts/7.json" }
    PlainName "posts" ∧ change.failure = none ∧ change.router.size = 8 ∧
      change.router.matchRequest (request.withMethod "DELETE") =
        ⟨some 7, [("action", "destroy"), ("controller", "posts"), ("format", "json"), ("id", "7")]⟩ ∧
      change.router.matchRequest (request.withMethod "Post") = ⟨none, []⟩ := by
  let request : Request := { path := "/posts/7.json" }
  have hname : PlainName "posts" := by decide
  obtain ⟨-, hshort, hdispatch⟩ := plural_dispatch "posts" hname
  have hfailure := hshort (by decide)
  obtain ⟨hsize, htable⟩ := hdispatch hfailure
  obtain ⟨hdestroy, -⟩ := htable request "DELETE" (by decide)
  obtain ⟨-, hcreate⟩ := htable request "Post" (by decide)
  have hpath : request.path.toList =
      '/' :: "posts".toList ++ '/' :: ("7".toList ++ extension (some "json".toList)) := by decide
  rw [hpath] at hdestroy hcreate
  rw [show Unicode.lowercase "DELETE" = "delete" by decide] at hdestroy
  rw [show Unicode.lowercase "Post" = "post" by decide] at hcreate
  refine ⟨hname, hfailure, hsize, ?_, hcreate ?_⟩
  · refine (hdestroy 7 "destroy" (some "7".toList) (some "json".toList)
      (.destroy (by decide) ?_)).trans rfl
    rintro f ⟨⟩
    decide
  · rintro ⟨k, action, id, format, h⟩
    generalize hmethod : "post" = method at h
    generalize hmember :
      '/' :: "posts".toList ++ '/' :: ("7".toList ++ extension (some "json".toList)) = path at h
    have hparts : Parts ('/' :: ("7".toList ++ extension (some "json".toList))) "7".toList _ :=
      parts_extension (by decide) rfl
    cases h with
    | create hformat hrest =>
      subst hmember
      rcases hrest with hrest | hrest
      · exact (hparts.ne_extension _).1 (List.append_cancel_left hrest)
      · exact (hparts.ne_extension _).2 (List.append_cancel_left hrest)
    | _ => exact absurd hmethod (by decide)

end Signpost.Resource
