import Mathlib.Data.List.Nodup
import Signpost.Proofs.Resource.Dispatch

/-! # The addresses of a plural resource

The addresses of a resource are built from routes that are kept aside under names, and requests are
answered by the routes in the list. A request for an address is answered by the action that the address
is named for.
-/
namespace Signpost.Resource
open Placeholder Template Signpost.Path Trace

def pluralName (name : String) (options : ResourceOptions) : String :=
  options.namePrefix.getD "" ++ name

def singleName (name : String) (options : ResourceOptions) : String :=
  options.namePrefix.getD "" ++ options.singular.getD (singularize name)

def IsMethod (m method : String) : Prop :=
  (∀ c ∈ m.toList, c.toNat < 128) ∧ Unicode.lowercase m = method

instance (m method : String) : Decidable (IsMethod m method) :=
  inferInstanceAs (Decidable (_ ∧ _))

/-- A segment that is not taken by an action on the collection. -/
structure IsMember (options : ResourceOptions) (id : String) : Prop where
  segment : IsSegment id.toList
  index : id ≠ "index"
  new : id ≠ "new"
  action : ∀ a ∈ options.collection, id ≠ a.action

/-- A request with the method, for the address of that name, leads to the action, with the identifier
of a member if the address has one. -/
inductive LeadsTo (name : String) (options : ResourceOptions) :
    String → String → String → Option String → Prop
  | index {m : String} (hm : IsMethod m "get") :
      LeadsTo name options (pluralName name options) m "index" none
  | create {m : String} (hm : IsMethod m "post") :
      LeadsTo name options (pluralName name options) m "create" none
  | show {m id : String} (hm : IsMethod m "get") (hid : IsMember options id) :
      LeadsTo name options (singleName name options) m "show" (some id)
  | update {m id : String} (hm : IsMethod m "put") (hid : IsMember options id) :
      LeadsTo name options (singleName name options) m "update" (some id)
  | destroy {m id : String} (hm : IsMethod m "delete") (hid : IsMember options id) :
      LeadsTo name options (singleName name options) m "destroy" (some id)
  | new {m : String} (hm : IsMethod m "get") :
      LeadsTo name options ("new_" ++ singleName name options) m "new" none
  | edit {m id : String} (hm : IsMethod m "get") (hid : IsMember options id) :
      LeadsTo name options ("edit_" ++ singleName name options) m "edit" (some id)
  | member {a : ExtraAction} {m id : String} (ha : a ∈ options.member) (hm : m ∈ a.methods)
      (hid : IsMember options id) :
      LeadsTo name options (a.action ++ "_" ++ singleName name options) m a.action (some id)
  | collection {a : ExtraAction} {m : String} (ha : a ∈ options.collection) (hm : m ∈ a.methods) :
      LeadsTo name options (a.action ++ "_" ++ pluralName name options) m a.action none

/-- The source has the identifier for an address that has one, and nothing else. -/
def Supplies (source : LinkSource) : Option String → Prop
  | some id => source.text? "id" = some id ∧ source.residual ["id"] = []
  | none => source.residual [] = []

variable {name m : String} {options : ResourceOptions} {request : Request}
  {rest value tail : List Char} {k : Nat} {action : String} {id format : Option (List Char)}

theorem Answers.behind {front table : List Row} (h : Answers table name request k action id format)
    (hfront : ∀ row ∈ front, ¬ row.Takes name request) :
    Answers (front ++ table) name request (front.length + k) action id format := by
  obtain ⟨before, row, back, rfl, rfl, htakes, hbefore, hanswer⟩ := h
  refine ⟨front ++ before, row, back, (List.append_assoc _ _ _).symm, List.length_append, htakes, ?_,
    hanswer⟩
  exact List.forall_mem_append.mpr ⟨hfront, hbefore⟩

/-- Where no key comes twice, each element has others before it with other keys. -/
theorem exists_first_of_nodup {α β : Type} {key : α → β} {as : List α} (h : (as.map key).Nodup)
    {a : α} (ha : a ∈ as) : ∃ front back, as = front ++ a :: back ∧ ∀ b ∈ front, key b ≠ key a := by
  obtain ⟨front, back, rfl⟩ := List.append_of_mem ha
  refine ⟨front, back, rfl, fun b hb heq => ?_⟩
  rw [List.map_append, List.map_cons] at h
  exact (List.nodup_append.mp h).2.2 _ (List.mem_map_of_mem hb) _ List.mem_cons_self heq

theorem WordName.isSegment {text : String} (h : WordName text) : IsSegment text.toList := by
  refine ⟨by simpa using h.1, fun c hc => Bool.eq_false_iff.mpr fun hends => ?_⟩
  have hnone : ∀ d ∈ ['/', '.', ',', ';', '?'], isNameChar d = false := by decide
  have hmem : c ∈ ['/', '.', ',', ';', '?'] := List.contains_iff_mem.mp hends
  exact Bool.false_ne_true ((hnone c hmem).symm.trans (h.2 c hc))

theorem not_takes_member (hpath : request.path.toList = '/' :: (name.toList ++ rest))
    (hparts : Parts rest value tail) {as : List ExtraAction}
    (hactions : ∀ a ∈ as, tail ≠ '/' :: a.action.toList ∧ tail ≠ ';' :: a.action.toList) :
    ∀ row ∈ as.map memberRow, ¬ row.Takes name request := by
  refine List.forall_mem_map.mpr fun a ha => not_takes_of_fits hpath fun found hfits => ?_
  obtain ⟨-, htail | htail⟩ := hparts.of_fits_memberAction hfits
  · exact (hactions a ha).1 htail
  · exact (hactions a ha).2 htail

theorem not_takes_collection (hpath : request.path.toList = '/' :: (name.toList ++ rest))
    (hparts : Parts rest value tail) {as : List ExtraAction} (hwords : ∀ a ∈ as, WordName a.action)
    (hactions : ∀ a ∈ as, value ≠ a.action.toList) :
    ∀ row ∈ as.map collectionRow, ¬ row.Takes name request := by
  refine List.forall_mem_map.mpr fun a ha => not_takes_of_fits hpath fun found hfits => ?_
  exact hactions a ha (hparts.of_fits_collectionAction (hwords a ha).isSegment hfits).1

theorem not_takes_extra_of_nil (hpath : request.path.toList = '/' :: (name.toList ++ [])) :
    ∀ row ∈ options.member.map memberRow ++ options.collection.map collectionRow,
      ¬ row.Takes name request := by
  refine List.forall_mem_append.mpr ⟨?_, ?_⟩
  · refine List.forall_mem_map.mpr fun a _ => not_takes_of_fits hpath fun found hfits => ?_
    obtain ⟨id, -, -, hrest | hrest⟩ := fits_memberAction_iff.mp hfits <;> cases hrest
  · refine List.forall_mem_map.mpr fun a _ => not_takes_of_fits hpath fun found hfits => ?_
    obtain ⟨-, hrest | hrest⟩ := fits_collectionAction_iff.mp hfits <;> cases hrest

theorem not_takes_extra (h : PlainResource name options)
    (hpath : request.path.toList = '/' :: (name.toList ++ rest)) (hparts : Parts rest value tail)
    (hmember : ∀ a ∈ options.member, tail ≠ '/' :: a.action.toList ∧ tail ≠ ';' :: a.action.toList)
    (hcollection : ∀ a ∈ options.collection, value ≠ a.action.toList) :
    ∀ row ∈ options.member.map memberRow ++ options.collection.map collectionRow,
      ¬ row.Takes name request := by
  have hwords : ∀ a ∈ options.collection, WordName a.action :=
    fun a ha => (h.extras a (List.mem_append_right _ ha)).action
  exact List.forall_mem_append.mpr ⟨not_takes_member hpath hparts hmember,
    not_takes_collection hpath hparts hwords hcollection⟩

section Answers

theorem answers_of_usual (k : Nat) {method : String} (hm : IsMethod m method)
    (hextra : ∀ row ∈ options.member.map memberRow ++ options.collection.map collectionRow,
      ¬ row.Takes name (request.withMethod m))
    (h : Dispatches ('/' :: name.toList) method request.path.toList k action id format) :
    ∃ k, Answers (rows options) name (request.withMethod m) k action id format := by
  obtain ⟨hascii, rfl⟩ := hm
  exact ⟨_, (answers_of_dispatches hascii h).behind hextra⟩

theorem answers_of_base {method : String} (hm : IsMethod m method)
    (hpath : request.path.toList = '/' :: (name.toList ++ []))
    (h : Dispatches ('/' :: name.toList) method ('/' :: name.toList) k action none none) :
    ∃ k, Answers (rows options) name (request.withMethod m) k action none none := by
  have hasked : (request.withMethod m).path.toList = '/' :: (name.toList ++ []) := hpath
  refine answers_of_usual k hm (not_takes_extra_of_nil hasked) ?_
  rw [hpath, List.append_nil]
  exact h

theorem answers_of_segment (hplain : PlainResource name options) {method : String}
    (hm : IsMethod m method) (hvalue : IsSegment value)
    (hfree : ∀ a ∈ options.collection, value ≠ a.action.toList)
    (hpath : request.path.toList = '/' :: (name.toList ++ '/' :: value))
    (h : Dispatches ('/' :: name.toList) method ('/' :: name.toList ++ '/' :: value) k action id none) :
    ∃ k, Answers (rows options) name (request.withMethod m) k action id none := by
  have hasked : (request.withMethod m).path.toList = '/' :: (name.toList ++ '/' :: value) := hpath
  have hparts : Parts ('/' :: value) value [] := parts_segment hvalue rfl
  refine answers_of_usual k hm
    (not_takes_extra hplain hasked hparts (fun _ _ => ⟨nofun, nofun⟩) hfree) ?_
  rw [hpath]
  exact h

theorem answers_of_id (hplain : PlainResource name options) {method id : String}
    (hm : IsMethod m method) (hid : IsMember options id)
    (hpath : request.path.toList = '/' :: (name.toList ++ '/' :: id.toList))
    (h : Dispatches ('/' :: name.toList) method
      ('/' :: name.toList ++ '/' :: (id.toList ++ extension none)) k action (some id.toList) none) :
    ∃ k, Answers (rows options) name (request.withMethod m) k action (some id.toList) none := by
  rw [extension, List.append_nil] at h
  exact answers_of_segment hplain hm hid.segment
    (fun a ha heq => hid.action a ha (String.toList_inj.mp heq)) hpath h

theorem answers_of_new (hplain : PlainResource name options)
    (hcollection : ∀ a ∈ options.collection, a.action ≠ "new") (hm : IsMethod m "get")
    (hpath : request.path.toList = '/' :: (name.toList ++ '/' :: "new".toList)) :
    ∃ k, Answers (rows options) name (request.withMethod m) k "new" none none :=
  answers_of_segment hplain hm isSegment_new
    (fun a ha heq => hcollection a ha (String.toList_inj.mp heq).symm) hpath .new

theorem answers_of_editing (hplain : PlainResource name options)
    (hmember : ∀ a ∈ options.member, a.action ≠ "edit") {id : String} (hm : IsMethod m "get")
    (hid : IsMember options id)
    (hpath : request.path.toList =
      '/' :: (name.toList ++ '/' :: (id.toList ++ '/' :: "edit".toList))) :
    ∃ k, Answers (rows options) name (request.withMethod m) k "edit" (some id.toList) none := by
  have hasked : (request.withMethod m).path.toList =
      '/' :: (name.toList ++ '/' :: (id.toList ++ '/' :: "edit".toList)) := hpath
  have hparts : Parts ('/' :: (id.toList ++ '/' :: "edit".toList)) id.toList
      ('/' :: "edit".toList) :=
    parts_action hid.segment (by decide) rfl
  refine answers_of_usual 5 hm (not_takes_extra hplain hasked hparts (fun a ha => ⟨fun heq => ?_,
    fun heq => ?_⟩) fun a ha heq => hid.action a ha (String.toList_inj.mp heq)) ?_
  · exact hmember a ha (String.toList_inj.mp (List.cons.inj heq).2).symm
  · cases (List.cons.inj heq).1
  · exact .edit hid.segment (Or.inl hpath)

/-- An action on a member is answered by its own row, since the rows before it have other names. -/
theorem answers_of_memberAction (h : PlainResource name options)
    (hactions : (options.member.map ExtraAction.action).Nodup) {a : ExtraAction}
    (ha : a ∈ options.member) (hm : m ∈ a.methods) {id : List Char} (hid : IsSegment id)
    (hpath : request.path.toList = '/' :: (name.toList ++ '/' :: (id ++ '/' :: a.action.toList))) :
    ∃ k, Answers (rows options) name (request.withMethod m) k a.action (some id) none := by
  have hparts : Parts ('/' :: (id ++ '/' :: a.action.toList)) id ('/' :: a.action.toList) :=
    parts_action hid (by decide) rfl
  have hready := h.extras a (List.mem_append_left _ ha)
  have hasked : (request.withMethod m).path.toList =
      '/' :: (name.toList ++ '/' :: (id ++ '/' :: a.action.toList)) := hpath
  obtain ⟨front, back, hsplit, hfront⟩ := exists_first_of_nodup hactions ha
  refine ⟨_, front.map memberRow, memberRow a,
    back.map memberRow ++ options.collection.map collectionRow ++ usualRows, ?_, rfl, ⟨⟨_,
    (meets_iff hasked).mpr (fits_memberAction_iff.mpr ⟨id, hid, rfl, Or.inl rfl⟩)⟩,
    hready.isSome_captures? hm⟩, not_takes_member hasked hparts fun b hb => ?_,
    fun found hmeets controller => ?_⟩
  · rw [rows, hsplit]
    simp
  · have hne := hfront b hb
    rw [Ne, ← String.toList_inj] at hne
    exact ⟨fun heq => hne (List.cons.inj heq).2.symm, fun heq => by cases (List.cons.inj heq).1⟩
  · obtain ⟨rfl, -⟩ := hparts.of_fits_memberAction ((meets_iff hasked).mp hmeets)
    exact answer_memberAction _ _ _ _ _

theorem answers_of_collectionAction (h : PlainResource name options)
    (hactions : (options.collection.map ExtraAction.action).Nodup) {a : ExtraAction}
    (ha : a ∈ options.collection) (hm : m ∈ a.methods)
    (hpath : request.path.toList = '/' :: (name.toList ++ '/' :: a.action.toList)) :
    ∃ k, Answers (rows options) name (request.withMethod m) k a.action none none := by
  have hready := h.extras a (List.mem_append_right _ ha)
  have hparts : Parts ('/' :: a.action.toList) a.action.toList [] :=
    parts_segment hready.action.isSegment rfl
  have hasked : (request.withMethod m).path.toList =
      '/' :: (name.toList ++ '/' :: a.action.toList) := hpath
  obtain ⟨front, back, hsplit, hfront⟩ := exists_first_of_nodup hactions ha
  have hwords : ∀ b ∈ front, WordName b.action := by
    intro b hb
    have hmem : b ∈ options.collection := hsplit ▸ List.mem_append_left _ hb
    exact (h.extras b (List.mem_append_right _ hmem)).action
  refine ⟨_, options.member.map memberRow ++ front.map collectionRow, collectionRow a,
    back.map collectionRow ++ usualRows, ?_, rfl, ⟨⟨_,
    (meets_iff hasked).mpr (fits_collectionAction_iff.mpr ⟨rfl, Or.inl rfl⟩)⟩,
    hready.isSome_captures? hm⟩, List.forall_mem_append.mpr ⟨?_, ?_⟩,
    fun found hmeets controller => ?_⟩
  · rw [rows, hsplit]
    simp
  · exact not_takes_member hasked hparts fun _ _ =>
      ⟨(List.cons_ne_nil _ _).symm, (List.cons_ne_nil _ _).symm⟩
  · refine not_takes_collection hasked hparts hwords fun b hb heq => hfront b hb ?_
    exact (String.toList_inj.mp heq).symm
  · obtain ⟨rfl, -⟩ := fits_collectionAction_iff.mp ((meets_iff hasked).mp hmeets)
    rfl

end Answers

section Names

def Names (name : String) (options : ResourceOptions) (given : String) (steps : List Step) : Prop :=
  ∃ path, (path, given) ∈ addresses name options ∧ path.toList = spell steps ∧ ∀ s ∈ steps, s.Plain

theorem names_of_usual {path given : String} {steps : List Step}
    (h : (path, given) ∈ usualAddresses (resolved name options) name)
    (hpath : path.toList = spell steps) (hplain : ∀ s ∈ steps, s.Plain) :
    Names name options given steps :=
  ⟨path, List.mem_append_right _ h, hpath, hplain⟩

theorem names_collection : Names name options (pluralName name options) [] :=
  names_of_usual List.mem_cons_self rfl (by simp)

theorem names_member : Names name options (singleName name options) [.value "id".toList] :=
  names_of_usual (.tail _ (.head _)) rfl (by decide)

theorem names_new : Names name options ("new_" ++ singleName name options) [.word "new".toList] :=
  names_of_usual (.tail _ (.tail _ (.head _))) rfl (by decide)

theorem names_edit : Names name options ("edit_" ++ singleName name options)
    [.value "id".toList, .word "edit".toList] :=
  names_of_usual (.tail _ (.tail _ (.tail _ (.head _)))) rfl (by decide)

theorem names_memberAction (h : PlainResource name options) {a : ExtraAction}
    (ha : a ∈ options.member) : Names name options (a.action ++ "_" ++ singleName name options)
      [.value "id".toList, .word a.action.toList] := by
  have hready := h.extras a (List.mem_append_left _ ha)
  refine ⟨"/:id/" ++ a.action, ?_, by simp [spell, Step.written],
    List.forall_mem_cons.mpr ⟨by decide,
      List.forall_mem_singleton.mpr hready.action.plainName.step⟩⟩
  exact List.mem_append_left _ (List.mem_append_left _ (List.mem_map.mpr ⟨a, ha, rfl⟩))

theorem names_collectionAction (h : PlainResource name options) {a : ExtraAction}
    (ha : a ∈ options.collection) :
    Names name options (a.action ++ "_" ++ pluralName name options) [.word a.action.toList] := by
  have hready := h.extras a (List.mem_append_right _ ha)
  refine ⟨"/" ++ a.action, ?_, by simp [spell, Step.written],
    List.forall_mem_singleton.mpr hready.action.plainName.step⟩
  exact List.mem_append_left _ (List.mem_append_right _ (List.mem_map.mpr ⟨a, ha, rfl⟩))

theorem nodup_actions (hnames : ((addresses name options).map Prod.snd).Nodup) :
    (options.member.map ExtraAction.action).Nodup ∧
      (options.collection.map ExtraAction.action).Nodup := by
  have hextra : ((extraAddresses (resolved name options) name options).map Prod.snd).Nodup := by
    rw [addresses, List.map_append] at hnames
    exact (List.nodup_append.mp hnames).1
  rw [extraAddresses, List.map_append, List.map_map, List.map_map] at hextra
  obtain ⟨hmember, hcollection, -⟩ := List.nodup_append.mp hextra
  constructor
  · refine List.Nodup.of_map (fun action => action ++ "_" ++ singleName name options) ?_
    rw [List.map_map]
    exact hmember
  · refine List.Nodup.of_map (fun action => action ++ "_" ++ pluralName name options) ?_
    rw [List.map_map]
    exact hcollection

/-- What leads to an action is the name of an address, and a request for the address is answered by
the action. -/
theorem LeadsTo.exists_steps (h : PlainResource name options)
    (hreserved : ∀ a ∈ options.member ++ options.collection, a.action ∉ ["new", "index", "edit"])
    (hnames : ((addresses name options).map Prod.snd).Nodup) {given : String} {id : Option String}
    (hl : LeadsTo name options given m action id) :
    ∃ steps, Names name options given steps ∧
      steps.filterMap Step.name? = id.toList.map (fun _ => "id") ∧
      ∀ request : Request,
        request.path.toList =
          '/' :: (name.toList ++ steps.flatMap (Step.filled fun _ => id.getD "")) →
        ∃ k, Answers (rows options) name (request.withMethod m) k action (id.map String.toList)
          none := by
  obtain ⟨hmember, hcollection⟩ := nodup_actions hnames
  obtain ⟨hmembers, hcollections⟩ := List.forall_mem_append.mp hreserved
  have hnone : ∀ f ∈ (none : Option (List Char)), IsSegment f := nofun
  have hbase : '/' :: name.toList = '/' :: name.toList ++ extension none := by simp [extension]
  cases hl with
  | index hm =>
    exact ⟨[], names_collection, rfl, fun request hpath =>
      answers_of_base hm hpath (.index hnone (Or.inl hbase))⟩
  | create hm =>
    exact ⟨[], names_collection, rfl, fun request hpath =>
      answers_of_base hm hpath (.create hnone (Or.inl hbase))⟩
  | «show» hm hid =>
    exact ⟨_, names_member, rfl, fun request hpath =>
      answers_of_id h hm hid (by simpa [Step.filled] using hpath)
        (.show hid.segment hnone (fun heq => hid.index (String.toList_inj.mp heq))
          fun heq => absurd (String.toList_inj.mp heq) hid.new)⟩
  | update hm hid =>
    exact ⟨_, names_member, rfl, fun request hpath =>
      answers_of_id h hm hid (by simpa [Step.filled] using hpath) (.update hid.segment hnone)⟩
  | destroy hm hid =>
    exact ⟨_, names_member, rfl, fun request hpath =>
      answers_of_id h hm hid (by simpa [Step.filled] using hpath) (.destroy hid.segment hnone)⟩
  | new hm =>
    have hfree : ∀ a ∈ options.collection, a.action ≠ "new" := by
      intro a ha heq
      exact hcollections a ha (heq ▸ .head _)
    exact ⟨_, names_new, rfl, fun request hpath =>
      answers_of_new h hfree hm (by simpa [Step.filled] using hpath)⟩
  | edit hm hid =>
    have hfree : ∀ a ∈ options.member, a.action ≠ "edit" := by
      intro a ha heq
      exact hmembers a ha (heq ▸ .tail _ (.tail _ (.head _)))
    exact ⟨_, names_edit, rfl, fun request hpath =>
      answers_of_editing h hfree hm hid (by simpa [Step.filled] using hpath)⟩
  | member ha hm hid =>
    exact ⟨_, names_memberAction h ha, rfl, fun request hpath =>
      answers_of_memberAction h hmember ha hm hid.segment (by simpa [Step.filled] using hpath)⟩
  | collection ha hm =>
    exact ⟨_, names_collectionAction h ha, rfl, fun request hpath =>
      answers_of_collectionAction h hcollection ha hm (by simpa [Step.filled] using hpath)⟩

theorem LeadsTo.isSegment {given : String} {id : Option String}
    (hl : LeadsTo name options given m action id) : ∀ text ∈ id, IsSegment text.toList := by
  rintro text ⟨⟩
  cases hl with
  | «show» hm hid => exact hid.segment
  | update hm hid => exact hid.segment
  | destroy hm hid => exact hid.segment
  | edit hm hid => exact hid.segment
  | member ha hm hid => exact hid.segment

theorem url_of_names (h : PlainResource name options)
    (hfailure : (declare name options).failure = none)
    (hnames : ((addresses name options).map Prod.snd).Nodup) {given : String} {steps : List Step}
    (hgiven : Names name options given steps) {id : Option String}
    (hsteps : steps.filterMap Step.name? = id.toList.map fun _ => "id")
    (hid : ∀ text ∈ id, IsSegment text.toList) {source : LinkSource}
    (hsource : Supplies source id) :
    (declare name options).router.url given source = .ok (String.ofList
      ('/' :: (name.toList ++ steps.flatMap (Step.filled fun _ => id.getD "")))) := by
  obtain ⟨path, haddress, hpath, hplain⟩ := hgiven
  obtain ⟨route, hroute, hnamed⟩ := namedRoute?_of_address h hfailure hnames haddress
  have hlink : route.link source [] = .ok (String.ofList
      ('/' :: (name.toList ++ steps.flatMap (Step.filled fun _ => id.getD "")))) := by
    cases id with
    | none =>
      refine link_of_addressRoute h.name hplain hpath hroute ?_ ?_ ?_ <;> rw [hsteps]
      · exact nofun
      · exact nofun
      · exact hsource
    | some text =>
      refine link_of_addressRoute h.name hplain hpath hroute ?_ ?_ ?_ <;> rw [hsteps]
      · exact fun _ _ => hid text rfl
      · exact List.forall_mem_singleton.mpr hsource.1
      · exact hsource.2
  rw [Router.url, Router.generate, show (declare name options).router.namedRoute? given = some route
    from hnamed]
  exact hlink

end Names

/-- The addresses of a plural resource, alone on a router, dispatch to its actions. The declaration
fails only if a program is too large or the template for the controller is not understood, and not
for words of moderate length with a template that is, or with none. When no name is given twice, and
no extra action has the name of a usual path, each name gives an address, and a request for it is
answered by the action with exactly the parameters of the action. -/
theorem addresses_dispatch (name : String) (options : ResourceOptions)
    (h : PlainResource name options)
    (hreserved : ∀ a ∈ options.member ++ options.collection, a.action ∉ ["new", "index", "edit"])
    (hnames : ((addresses name options).map Prod.snd).Nodup) :
    let change := Router.new.prepare [.resources name options []]
    let controller := options.controller.getD name
    let understood (row : Row) :=
      Output.compile "controller" controller (row.scope name).placeholders
    (∀ e, change.failure = some e →
      (∃ field source, e = .invalidPattern field source .tooLarge) ∨
        ∃ row ∈ rows options, understood row = .error e) ∧
    ((options.controller = none ∨ ∀ row ∈ rows options, ∃ o, understood row = .ok o) →
      (∀ a ∈ options.member ++ options.collection, name.length + a.action.length ≤ 300000 ∧
        (a.methods.map fun m => 68 + 80 * m.length).sum ≤ 10000000) →
      name.length ≤ 300000 → change.failure = none) ∧
    (change.failure = none → ∀ given m action id, LeadsTo name options given m action id →
      ∀ source, Supplies source id → ∃ url, change.router.url given source = .ok url ∧
        ∀ request : Request, request.path = url → ∃ k value,
          change.router.matchRequest (request.withMethod m) =
            ⟨some k, answer action value (id.map String.toList) none⟩ ∧
          (IsVerbatim controller.toList → controller ≠ "" → value = some controller)) := by
  intro change controller understood
  refine ⟨fun e he => error_of_declare h he, fun hunderstood hlength hname => ?_,
    fun hfailure given m action id hl source hsource => ?_⟩
  · have hlongest : ∀ a ∈ options.member ++ options.collection,
        a.action.length ≤ 300000 - name.length := by
      intro a ha
      have hle := (hlength a ha).1
      omega
    refine failure_eq_none h hlongest (by omega) (fun a ha => (hlength a ha).2) ?_
    rcases hunderstood with hnone | hunderstood
    · have hcontroller : controllerOf name options = name := by
        rw [controllerOf, hnone, Option.getD_none]
      rw [hcontroller]
      exact fun row _ => ⟨_, compile_verbatim h.name.isVerbatim h.name.1 _ _⟩
    · exact hunderstood
  · obtain ⟨steps, hgiven, hsteps, hanswers⟩ := hl.exists_steps h hreserved hnames
    refine ⟨_, url_of_names h hfailure hnames hgiven hsteps hl.isSegment hsource, ?_⟩
    intro request hpath
    have hasked : request.path.toList =
        '/' :: (name.toList ++ steps.flatMap (Step.filled fun _ => id.getD "")) := by
      rw [hpath, String.toList_ofList]
    obtain ⟨k, hk⟩ := hanswers request hasked
    obtain ⟨value, hmatch, hvalue⟩ := matchRequest_of_answers h hfailure hk
    exact ⟨k, value, hmatch, hvalue⟩

/-- Publishing a post and searching all posts, behind a prefix. -/
theorem addresses_dispatch_posts :
    let options : ResourceOptions :=
      { namePrefix := some "admin_", member := [⟨"publish", ["GET", "post"]⟩],
        collection := [⟨"search", ["GET"]⟩] }
    let change := Router.new.prepare [.resources "posts" options []]
    PlainResource "posts" options ∧
      (∀ a ∈ options.member ++ options.collection, a.action ∉ ["new", "index", "edit"]) ∧
      ((addresses "posts" options).map Prod.snd).Nodup ∧ change.failure = none ∧
      (∃ url, change.router.url "publish_admin_post" (.map [("id", .text "7")]) = .ok url ∧
        ∀ request : Request, request.path = url → ∃ k,
          change.router.matchRequest (request.withMethod "post") =
            ⟨some k, [("action", "publish"), ("controller", "posts"), ("id", "7")]⟩) ∧
      ∃ url, change.router.url "admin_posts" (.map []) = .ok url ∧
        ∀ request : Request, request.path = url → ∃ k,
          change.router.matchRequest (request.withMethod "POST") =
            ⟨some k, [("action", "create"), ("controller", "posts")]⟩ := by
  intro options
  have hname : PlainName "posts" := by decide
  have hplain : PlainResource "posts" options := by
    refine ⟨hname, rfl, List.forall_mem_cons.mpr ⟨⟨by decide, by decide⟩,
      List.forall_mem_singleton.mpr ⟨by decide, by decide⟩⟩⟩
  have hreserved : ∀ a ∈ options.member ++ options.collection,
      a.action ∉ ["new", "index", "edit"] := by decide
  have hnames : ((addresses "posts" options).map Prod.snd).Nodup := by decide
  obtain ⟨-, hshort, hdispatch⟩ := addresses_dispatch "posts" options hplain hreserved hnames
  have hfailure := hshort (Or.inl rfl) (by decide) (by decide)
  have hid : IsMember options "7" := ⟨by decide, by decide, by decide, by decide⟩
  have hpublish : LeadsTo "posts" options "publish_admin_post" "post" "publish" (some "7") :=
    .member (.head _) (.tail _ (.head _)) hid
  have hcreate : LeadsTo "posts" options "admin_posts" "POST" "create" none :=
    .create (by decide)
  obtain ⟨url, hurl, hmatch⟩ :=
    hdispatch hfailure _ _ _ _ hpublish (.map [("id", .text "7")]) ⟨rfl, rfl⟩
  obtain ⟨url', hurl', hmatch'⟩ := hdispatch hfailure _ _ _ _ hcreate (.map []) rfl
  refine ⟨hplain, hreserved, hnames, hfailure, ⟨url, hurl, fun request hpath => ?_⟩,
    url', hurl', fun request hpath => ?_⟩
  · obtain ⟨k, value, hfound, hvalue⟩ := hmatch request hpath
    rw [hvalue hname.isVerbatim hname.1] at hfound
    exact ⟨k, hfound⟩
  · obtain ⟨k, value, hfound, hvalue⟩ := hmatch' request hpath
    rw [hvalue hname.isVerbatim hname.1] at hfound
    exact ⟨k, hfound⟩

/-- A template for the controller that names a placeholder is not understood, and the address of the
collection is not made. -/
theorem addresses_of_placeholder_controller :
    let options : ResourceOptions := { controller := some ":x" }
    let change := Router.new.prepare [.resources "posts" options []]
    PlainResource "posts" options ∧
      (∀ a ∈ options.member ++ options.collection, a.action ∉ ["new", "index", "edit"]) ∧
      ((addresses "posts" options).map Prod.snd).Nodup ∧
      LeadsTo "posts" options "posts" "GET" "index" none ∧
      change.failure = some (.unknownPlaceholder "controller" "x") ∧
      change.router.url "posts" (.map []) = .error (.namedRouteNotFound "posts") ∧
      change.router.matchRequest ({ path := "/posts" : Request }.withMethod "GET") = ⟨none, []⟩ := by
  intro options change
  have hplain : PlainResource "posts" options := ⟨by decide, rfl, by simp [options]⟩
  have hlisted : LeadsTo "posts" options "posts" "GET" "index" none := .index (by decide)
  obtain ⟨hfailure, hurl, hmatch⟩ :
      change.failure = some (.unknownPlaceholder "controller" "x") ∧
        change.router.url "posts" (.map []) = .error (.namedRouteNotFound "posts") ∧
        change.router.matchRequest ({ path := "/posts" : Request }.withMethod "GET") =
          ⟨none, []⟩ := by decide +kernel
  exact ⟨hplain, by decide, by decide, hlisted, hfailure, hurl, hmatch⟩

end Signpost.Resource
