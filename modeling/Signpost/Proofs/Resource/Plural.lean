import Signpost.Proofs.Resource.Address
import Signpost.Proofs.Resource.Extra
import Signpost.Proofs.Resource.Table
import Signpost.Proofs.Router.Change

/-! # Plural resources

A plural resource alone on a router lists the routes of its rows: first those of the extra actions,
then those of the usual ones. It keeps a named route aside for each of its addresses.
-/
namespace Signpost.Resource
open Entries Scope Trace Template

/-- A resource with plain names and no parameters of its own. -/
structure PlainResource (name : String) (options : ResourceOptions) : Prop where
  name : PlainName name
  params : options.params = []
  extras : ∀ a ∈ options.member ++ options.collection, ReadyExtra a

def rows (options : ResourceOptions) : List Row :=
  options.member.map memberRow ++ options.collection.map collectionRow ++ usualRows

def resolved (name : String) (options : ResourceOptions) : Resolved :=
  ⟨options.singular.getD (singularize name), options.namePrefix.getD "",
    [("controller", options.controller.getD name)]⟩

def addresses (name : String) (options : ResourceOptions) : List (String × String) :=
  extraAddresses (resolved name options) name options ++ usualAddresses (resolved name options) name

variable {name : String} {options : ResourceOptions}

theorem resolve_root (hne : name ≠ "") (hslash : '/' ∉ name.toList) (hparams : options.params = []) :
    resolve (Draft.root Router.initialDefaults) name options = .ok (resolved name options) := by
  have hroot : (Draft.root Router.initialDefaults).params = Router.initialDefaults := params_root
  have hfree : ∀ key, key ≠ "action" →
      find? key (Draft.root Router.initialDefaults).params = none := by
    intro key hkey
    rw [hroot, Router.initialDefaults, find?_cons, if_neg hkey, find?_nil]
  have hnone : ¬(name = "" ∨ name.toList.contains '/' = true) := by simp [hne, hslash]
  rw [resolve, if_neg hnone]
  simp only [hparams, hfree "namespace" (by decide), hfree "controller" (by decide)]
  simp [Entries.ofList, Entries.extend, Entries.insert, resolved]

theorem PlainResource.resolve (h : PlainResource name options) :
    Resource.resolve (Draft.root Router.initialDefaults) name options =
      .ok (resolved name options) :=
  resolve_root h.name.1 (h.name.notMem (by decide)) h.params

theorem ready_rows (h : PlainResource name options) {row : Row} (hrow : row ∈ rows options) :
    row.Ready := by
  obtain ⟨hmember, hcollection⟩ := List.forall_mem_append.mp h.extras
  rcases List.mem_append.mp hrow with hrow | hrow
  · rcases List.mem_append.mp hrow with hrow | hrow
    · obtain ⟨a, ha, rfl⟩ := List.mem_map.mp hrow
      exact (hmember a ha).ready_memberRow
    · obtain ⟨a, ha, rfl⟩ := List.mem_map.mp hrow
      exact (hcollection a ha).ready_collectionRow
  · exact ready_usual hrow

theorem actionScopes_eq (name : String) (options : ResourceOptions) :
    actionScopes (collectionScope Router.initialDefaults name) options =
      (rows options).map fun row => row.scope name := by
  rw [actionScopes, rows, List.map_append, List.map_append, List.map_map, List.map_map]
  rfl

theorem mem_usualPaths {r : Resolved} {address : String × String}
    (h : address ∈ usualAddresses r name) :
    address.1 ∈ ["", "/:id", "/new", "/:id/edit", "/:action/:id"] := by
  have hmem := List.mem_map_of_mem (f := Prod.fst) h
  exact hmem

theorem exists_steps (h : PlainResource name options) {longest : Nat}
    (hlongest : ∀ a ∈ options.member ++ options.collection, a.action.length ≤ longest)
    {address : String × String} (haddress : address ∈ addresses name options) :
    ∃ steps, address.1.toList = spell steps ∧ (∀ s ∈ steps, s.Plain) ∧
      (steps.map Step.size).sum ≤ 1392 + 32 * longest := by
  obtain ⟨hmember, hcollection⟩ := List.forall_mem_append.mp h.extras
  obtain ⟨hmembers, hcollections⟩ := List.forall_mem_append.mp hlongest
  have hid : Step.Plain (.value "id".toList) := by decide
  rcases List.mem_append.mp haddress with haddress | haddress
  · rcases List.mem_append.mp haddress with haddress | haddress
    · obtain ⟨a, ha, rfl⟩ := List.mem_map.mp haddress
      have hle := hmembers a ha
      refine ⟨[.value "id".toList, .word a.action.toList], by simp [spell, Step.written], ?_, ?_⟩
      · exact List.forall_mem_cons.mpr
          ⟨hid, List.forall_mem_singleton.mpr (hmember a ha).action.plainName.step⟩
      · simp only [List.map_cons, List.map_nil, List.sum_cons, List.sum_nil, Step.size,
          String.length_toList]
        omega
    · obtain ⟨a, ha, rfl⟩ := List.mem_map.mp haddress
      have hle := hcollections a ha
      refine ⟨[.word a.action.toList], by simp [spell, Step.written], ?_, ?_⟩
      · exact List.forall_mem_singleton.mpr (hcollection a ha).action.plainName.step
      · simp only [List.map_cons, List.map_nil, List.sum_cons, List.sum_nil, Step.size,
          String.length_toList]
        omega
  · have husual : ∀ path ∈ ["", "/:id", "/new", "/:id/edit", "/:action/:id"], ∃ steps,
        path.toList = spell steps ∧ (∀ s ∈ steps, s.Plain) ∧ (steps.map Step.size).sum ≤ 1392 := by
      simp only [List.forall_mem_cons, List.not_mem_nil, false_implies, implies_true, and_true]
      refine ⟨⟨[], ?_⟩, ⟨[.value "id".toList], ?_⟩, ⟨[.word "new".toList], ?_⟩,
        ⟨[.value "id".toList, .word "edit".toList], ?_⟩,
        ⟨[.value "action".toList, .value "id".toList], ?_⟩⟩ <;> decide
    obtain ⟨steps, hspell, hplain, hsize⟩ := husual address.1 (mem_usualPaths haddress)
    exact ⟨steps, hspell, hplain, by omega⟩

section Outcome

def declare (name : String) (options : ResourceOptions) : Router.Change :=
  Router.new.prepare [.resources name options []]

def controllerOf (name : String) (options : ResourceOptions) : String :=
  options.controller.getD name

theorem exists_error_of_declare (h : PlainResource name options) {e : RouteError}
    (hfailure : (declare name options).failure = some e) :
    (∃ address ∈ addresses name options, addressRoute Router.initialDefaults
        (collectionScope Router.initialDefaults name) address = .error e) ∨
      ∃ row ∈ rows options, Route.ofScope (row.scope name)
        [("controller", controllerOf name options)] Router.initialDefaults none = .error e := by
  have houtcome : (Router.new.changeTrace none [.resources name options []]).outcome = .error e :=
    Router.outcome_of_failure_some hfailure
  rcases error_of_resources h.resolve (mirrors_nothing _ _) houtcome with
    haddress | ⟨s, hs, herror⟩ | hnothing
  · exact Or.inl haddress
  · rw [actionScopes_eq] at hs
    obtain ⟨row, hrow, rfl⟩ := List.mem_map.mp hs
    exact Or.inr ⟨row, hrow, herror⟩
  · cases hnothing

theorem exists_longest (as : List ExtraAction) : ∃ longest, ∀ a ∈ as, a.action.length ≤ longest :=
  ⟨(as.map fun a => a.action.length).sum, fun _ ha => List.le_sum_of_mem (List.mem_map_of_mem ha)⟩

theorem error_of_declare (h : PlainResource name options) {e : RouteError}
    (hfailure : (declare name options).failure = some e) :
    (∃ field source, e = .invalidPattern field source .tooLarge) ∨
      ∃ row ∈ rows options, Output.compile "controller" (controllerOf name options)
        (row.scope name).placeholders = .error e := by
  rcases exists_error_of_declare h hfailure with ⟨address, haddress, herror⟩ | ⟨row, hrow, herror⟩
  · obtain ⟨longest, hlongest⟩ := exists_longest (options.member ++ options.collection)
    obtain ⟨steps, hspell, hplain, -⟩ := exists_steps h hlongest haddress
    have hlink := linkable_addressChain h.name hplain hspell
    obtain ⟨source, rfl⟩ := error_of_addressRoute hlink.capturing herror
    exact Or.inl ⟨_, source, rfl⟩
  · rcases (ready_rows h hrow).error_of_ofScope h.name.bare herror with hcontroller | hlarge
    · exact Or.inr ⟨row, hrow, hcontroller⟩
    · exact Or.inl hlarge

theorem programSize_under (h : PlainName name) (ps : List Path.Piece) :
    (Path.node (under name ps)).programSize =
      64 + (32 * (name.length + 1) + (ps.map Path.Piece.size).sum) := by
  have hsize : ∀ c ∈ '/' :: name.toList, c.utf8Size = 1 :=
    List.forall_mem_cons.mpr ⟨rfl, fun c hc => utf8Size_of_isPlain (h.2 c hc)⟩
  rw [Path.programSize_node, under, List.map_append, List.sum_append, Path.sum_size_chars hsize,
    List.length_cons, String.length_toList]

theorem programSize_under_le (name : String) (ps : List Path.Piece) :
    (Path.node (under name ps)).programSize ≤
      64 + (128 * (name.length + 1) + (ps.map Path.Piece.size).sum) := by
  have hle := Path.sum_size_chars_le ('/' :: name.toList)
  rw [List.length_cons, String.length_toList] at hle
  rw [Path.programSize_node, under, List.map_append, List.sum_append]
  omega

theorem WordName.sum_size {text : String} (h : WordName text) :
    ((text.toList.map Path.Piece.char).map Path.Piece.size).sum = 32 * text.length := by
  rw [Path.sum_size_chars fun c hc => utf8Size_of_isPlain (h.plainName.2 c hc),
    String.length_toList]

theorem sum_size_usualRows :
    ∀ row ∈ usualRows, (row.form.pieces.map Path.Piece.size).sum ≤ 1528 := by
  decide

theorem sum_size_rows (h : PlainResource name options) {longest : Nat}
    (hlongest : ∀ a ∈ options.member ++ options.collection, a.action.length ≤ longest) {row : Row}
    (hrow : row ∈ rows options) :
    (row.form.pieces.map Path.Piece.size).sum ≤ 1528 + 32 * longest := by
  obtain ⟨hmember, hcollection⟩ := List.forall_mem_append.mp h.extras
  obtain ⟨hmembers, hcollections⟩ := List.forall_mem_append.mp hlongest
  rcases List.mem_append.mp hrow with hrow | hrow
  · rcases List.mem_append.mp hrow with hrow | hrow
    · obtain ⟨a, ha, rfl⟩ := List.mem_map.mp hrow
      have hle := hmembers a ha
      have hsum := (hmember a ha).action.sum_size
      have hpieces : (memberRow a).form.pieces =
          .char '/' :: .hole :: .separator true :: (a.action.toList.map .char ++ []) := rfl
      rw [hpieces, List.append_nil, List.map_cons, List.map_cons, List.map_cons, List.sum_cons,
        List.sum_cons, List.sum_cons, hsum]
      have hslash : (Path.Piece.char '/').size = 32 := rfl
      simp only [Path.Piece.size] at hslash ⊢
      omega
    · obtain ⟨a, ha, rfl⟩ := List.mem_map.mp hrow
      have hle := hcollections a ha
      have hsum := (hcollection a ha).action.sum_size
      have hpieces : (collectionRow a).form.pieces =
          .separator true :: (a.action.toList.map .char ++ []) := rfl
      rw [hpieces, List.append_nil, List.map_cons, List.sum_cons, hsum]
      simp only [Path.Piece.size]
      omega
  · have hle := sum_size_usualRows row hrow
    omega

theorem programSize_usual {row : Row} (hrow : row ∈ usualRows) :
    row.method.node.programSize ≤ Regex.Node.maxProgramSize := by
  obtain ⟨a, ha, f, -, rfl⟩ := exists_usualRow hrow
  exact (method_plural a ha).2.1

theorem programSize_method (h : PlainResource name options)
    (hmethods : ∀ a ∈ options.member ++ options.collection,
      (a.methods.map fun m => 68 + 80 * m.length).sum ≤ 10000000) {row : Row}
    (hrow : row ∈ rows options) : row.method.node.programSize ≤ Regex.Node.maxProgramSize := by
  have hmax : Regex.Node.maxProgramSize = 10485760 := by decide
  have hextra : ∀ a ∈ options.member ++ options.collection,
      (wordsNode (words a)).programSize ≤ Regex.Node.maxProgramSize := by
    intro a ha
    have hle := (h.extras a ha).programSize_le
    have hsum := hmethods a ha
    rw [hmax]
    omega
  rcases List.mem_append.mp hrow with hrow | hrow
  · rcases List.mem_append.mp hrow with hrow | hrow
    · obtain ⟨a, ha, rfl⟩ := List.mem_map.mp hrow
      exact hextra a (List.mem_append_left _ ha)
    · obtain ⟨a, ha, rfl⟩ := List.mem_map.mp hrow
      exact hextra a (List.mem_append_right _ ha)
  · exact programSize_usual hrow

theorem failure_eq_none (h : PlainResource name options) {longest : Nat}
    (hlongest : ∀ a ∈ options.member ++ options.collection, a.action.length ≤ longest)
    (hlength : name.length + longest ≤ 300000)
    (hmethods : ∀ a ∈ options.member ++ options.collection,
      (a.methods.map fun m => 68 + 80 * m.length).sum ≤ 10000000)
    (hcontroller : ∀ row ∈ rows options, ∃ o, Output.compile "controller"
      (controllerOf name options) (row.scope name).placeholders = .ok o) :
    (declare name options).failure = none := by
  have hmax : Regex.Node.maxProgramSize = 10485760 := by decide
  cases hfailure : (declare name options).failure with
  | none => rfl
  | some e =>
    rcases exists_error_of_declare h hfailure with
      ⟨address, haddress, herror⟩ | ⟨row, hrow, herror⟩
    · obtain ⟨steps, hspell, hplain, hsize⟩ := exists_steps h hlongest haddress
      have hfits : (pathNode (Placeholder.tokens
          (Template.template (addressChain name address.1)))).programSize ≤
            Regex.Node.maxProgramSize := by
        rw [programSize_addressChain h.name hplain hspell, List.map_cons, List.sum_cons, hmax,
          Step.size, String.length_toList]
        omega
      have hlink := linkable_addressChain h.name hplain hspell
      obtain ⟨route, hroute⟩ := exists_addressRoute address.2 hlink.capturing hfits
      rw [hroute] at herror
      cases herror
    · obtain ⟨o, ho⟩ := hcontroller row hrow
      have hpath : (Path.node (under name row.form.pieces)).programSize ≤
          Regex.Node.maxProgramSize := by
        have hsum := sum_size_rows h hlongest hrow
        rw [programSize_under h.name, hmax]
        omega
      have hmethod := programSize_method h hmethods hrow
      obtain ⟨route, hroute⟩ := (ready_rows h hrow).exists_ofScope h.name.bare ho hpath hmethod
      rw [hroute] at herror
      cases herror

theorem served_of_actions {controller : String} (hname : BareName name) {table : List Row}
    (hready : ∀ row ∈ table, row.Ready) {routes : List Route}
    (hroutes : (table.map fun row => row.scope name).mapM
      (actionRoute Router.initialDefaults [("controller", controller)]) = .ok routes) :
    List.Forall₂ (Row.Served name controller) table routes := by
  rw [mapM_eq_ok_iff, List.forall₂_map_left_iff] at hroutes
  refine ((List.forall₂_and_left _ _).mpr ⟨hready, hroutes⟩).imp ?_
  rintro row route ⟨hrow, hroute⟩
  obtain ⟨o, ho, hserves⟩ := hrow.serves hname hroute
  exact ⟨hrow.written, o, _, ho, hserves⟩

/-- The routes of a resource that is declared: those of its rows in the list, and those of its
addresses aside. -/
theorem exists_routes (h : PlainResource name options)
    (hfailure : (declare name options).failure = none) :
    ∃ extra routes usual,
      (extraAddresses (resolved name options) name options).mapM (addressRoute
          Router.initialDefaults (collectionScope Router.initialDefaults name)) = .ok extra ∧
      (usualAddresses (resolved name options) name).mapM (addressRoute
          Router.initialDefaults (collectionScope Router.initialDefaults name)) = .ok usual ∧
      List.Forall₂ (Row.Served name (controllerOf name options)) (rows options) routes ∧
      (∀ route ∈ routes, route.name = none) ∧
      (declare name options).router.table = Table.empty.placeAll
        (extra.map .detached ++ (routes.map .listed ++ usual.map .detached)) := by
  have houtcome : (Router.new.changeTrace none [.resources name options []]).outcome = .ok () :=
    Router.outcome_of_failure hfailure
  obtain ⟨extra, routes, usual, more, hextra, hroutes, husual, hmore, hplacings⟩ :=
    placings_of_resources h.resolve (mirrors_nothing _ _) houtcome
  cases hmore
  rw [List.append_nil] at hplacings
  rw [actionScopes_eq] at hroutes
  refine ⟨extra, routes, usual, hextra, husual,
    served_of_actions h.name.bare (fun _ => ready_rows h) hroutes, fun route hroute => ?_, ?_⟩
  · obtain ⟨s, -, hs⟩ := (mem_of_mapM_eq_ok hroutes).2 route hroute
    exact Route.name_of_ofScope hs
  · rw [declare, Router.prepare, (Router.change_of_ok houtcome _).2]
    exact congrArg Table.empty.placeAll hplacings

theorem listedRoutes_resource (extra routes usual : List Route) :
    Placing.listedRoutes (extra.map .detached ++ (routes.map .listed ++ usual.map .detached)) =
      routes := by
  have haside : ∀ aside : List Route, Placing.listedRoutes (aside.map .detached) = [] := by
    intro aside
    induction aside with
    | nil => rfl
    | cons route aside ih => exact ih
  have hlisted : ∀ routes : List Route, Placing.listedRoutes (routes.map .listed) = routes := by
    intro routes
    induction routes with
    | nil => rfl
    | cons route routes ih => exact congrArg (route :: ·) ih
  rw [Placing.listedRoutes_append, Placing.listedRoutes_append, haside, haside, hlisted,
    List.nil_append, List.append_nil]

theorem exists_served (h : PlainResource name options)
    (hfailure : (declare name options).failure = none) :
    ∃ routes, List.Forall₂ (Row.Served name (controllerOf name options)) (rows options) routes ∧
      (declare name options).router.table.routes = Table.renumber 0 routes := by
  obtain ⟨extra, routes, usual, -, -, hserved, -, htable⟩ := exists_routes h hfailure
  refine ⟨routes, hserved, ?_⟩
  rw [htable, Table.routes_placeAll, listedRoutes_resource]
  rfl

/-- The row at a position answers with the given action, identifier and format, and no row before it
answers. -/
def Answers (table : List Row) (name : String) (request : Request) (k : Nat) (action : String)
    (id format : Option (List Char)) : Prop :=
  ∃ front row back, table = front ++ row :: back ∧ front.length = k ∧
    row.Takes name request ∧ (∀ other ∈ front, ¬ other.Takes name request) ∧
    ∀ found, row.form.Meets name found request.path →
      ∀ controller, row.form.answer row.action controller found = answer action controller id format

/-- The first row that takes a request answers it, with a value for the controller. -/
theorem matchRequest_of_answers (h : PlainResource name options)
    (hfailure : (declare name options).failure = none) {request : Request} {k : Nat}
    {action : String} {id format : Option (List Char)}
    (hanswers : Answers (rows options) name request k action id format) :
    ∃ value, (declare name options).router.matchRequest request =
        ⟨some k, answer action value id format⟩ ∧
      (IsVerbatim (controllerOf name options).toList → controllerOf name options ≠ "" →
        value = some (controllerOf name options)) := by
  obtain ⟨front, row, back, hrows, rfl, htakes, hfront, hanswer⟩ := hanswers
  obtain ⟨routes, hserved, hroutes⟩ := exists_served h hfailure
  rw [hrows] at hserved
  obtain ⟨route, found, value, hfind, hindex, hmeets, hvalue⟩ :=
    findRoute_of_takes hserved htakes hfront 0
  refine ⟨value, ?_, hvalue⟩
  rw [Nat.zero_add] at hindex
  rw [Router.matchRequest, hroutes, hfind, ← hindex, ← hanswer found hmeets value]

theorem matchRequest_of_none (h : PlainResource name options)
    (hfailure : (declare name options).failure = none) {request : Request}
    (hrows : ∀ row ∈ rows options, ¬ row.Takes name request) :
    (declare name options).router.matchRequest request = ⟨none, []⟩ := by
  obtain ⟨routes, hserved, hroutes⟩ := exists_served h hfailure
  rw [Router.matchRequest, hroutes, findRoute_eq_none hserved hrows 0]

def placedName (p : Placing) : Option String := p.route.name

theorem filterMap_name_of_addresses {given : List (String × String)} {s : Scope} {routes : List Route}
    (h : given.mapM (addressRoute Router.initialDefaults s) = .ok routes) :
    (routes.map .detached).filterMap placedName = given.map Prod.snd := by
  rw [mapM_eq_ok_iff] at h
  induction h with
  | nil => rfl
  | @cons address route given routes hroute hrest ih =>
    have hname : placedName (.detached route) = some address.2 := name_of_addressRoute hroute
    rw [List.map_cons, List.map_cons, List.filterMap_cons_some hname, ih]

theorem filterMap_name_of_actions {routes : List Route} (h : ∀ route ∈ routes, route.name = none) :
    (routes.map .listed).filterMap placedName = [] := by
  rw [List.filterMap_eq_nil_iff]
  intro p hp
  obtain ⟨route, hroute, rfl⟩ := List.mem_map.mp hp
  exact h route hroute

theorem namedRoute?_of_address (h : PlainResource name options)
    (hfailure : (declare name options).failure = none)
    (hnames : ((addresses name options).map Prod.snd).Nodup) {address : String × String}
    (haddress : address ∈ addresses name options) :
    ∃ route, addressRoute Router.initialDefaults
        (collectionScope Router.initialDefaults name) address = .ok route ∧
      (declare name options).router.namedRoute? address.2 = some route := by
  obtain ⟨extra, routes, usual, hextra, husual, -, hunnamed, htable⟩ := exists_routes h hfailure
  let placings := extra.map .detached ++ (routes.map .listed ++ usual.map Placing.detached)
  have hgiven : placings.filterMap placedName = (addresses name options).map Prod.snd := by
    rw [List.filterMap_append, List.filterMap_append, filterMap_name_of_addresses hextra,
      filterMap_name_of_actions hunnamed, filterMap_name_of_addresses husual, List.nil_append,
      ← List.map_append]
    rfl
  obtain ⟨route, hroute, hplaced⟩ : ∃ route, addressRoute Router.initialDefaults
      (collectionScope Router.initialDefaults name) address = .ok route ∧
        .detached route ∈ placings := by
    rcases List.mem_append.mp haddress with haddress | haddress
    · obtain ⟨route, hmem, hroute⟩ := (mem_of_mapM_eq_ok hextra).1 address haddress
      exact ⟨route, hroute, by simp [placings, hmem]⟩
    · obtain ⟨route, hmem, hroute⟩ := (mem_of_mapM_eq_ok husual).1 address haddress
      exact ⟨route, hroute, by simp [placings, hmem]⟩
  have hname : placedName (.detached route) = some address.2 := name_of_addressRoute hroute
  obtain ⟨front, back, hsplit⟩ := List.append_of_mem hplaced
  have hback : ∀ q ∈ back, placedName q ≠ some address.2 := by
    intro q hq hqname
    rw [← hgiven, hsplit, List.filterMap_append, List.filterMap_cons_some hname] at hnames
    have hlater := (List.nodup_cons.mp (List.nodup_append.mp hnames).2.1).1
    exact hlater (List.mem_filterMap.mpr ⟨q, hq, hqname⟩)
  refine ⟨route, hroute, ?_⟩
  rw [Router.namedRoute?, Table.named?, htable, show extra.map .detached ++ (routes.map .listed ++
    usual.map Placing.detached) = front ++ .detached route :: back from hsplit,
    Table.find?_placeAll_of_given Table.empty front hname hback]
  rfl

end Outcome

end Signpost.Resource
