import Signpost.Proofs.RouteFile.Read

/-! # Kinds of entries

A mapping is an entry of at most one kind: of two kinds, one requires a field that the other does not
have. So it is all one in which order the kinds are tried. This rests on required fields being given
by name. A field can also be given by its number, and the first fields of all kinds have the same one.
-/
namespace Signpost
open Signpost.Yaml

/-- The first success among steps of which at most one succeeds does not depend on their order. -/
theorem findSome?_of_perm {α β : Type} {f : α → Option β} {first second : List α}
    (h : first.Perm second) (hone : ∀ a b, (f a).isSome → (f b).isSome → a = b) :
    first.findSome? f = second.findSome? f := by
  induction h with
  | nil => rfl
  | cons a _ ih => rw [List.findSome?_cons, List.findSome?_cons, ih]
  | swap a b rest =>
    simp only [List.findSome?_cons]
    cases ha : f a with
    | none => rfl
    | some x =>
      cases hb : f b with
      | none => rfl
      | some y =>
        have hab : a = b := hone a b (by rw [ha]; rfl) (by rw [hb]; rfl)
        rw [← ha, ← hb, hab]
  | trans _ _ ih ih' => rw [ih, ih']

namespace EntryKind
open Fields
variable {kind kind' : EntryKind} {cells : List (Data × Cell)} {pairs : List (Data × Data)}

/-- The fields without which there is no entry of a kind. -/
def required : EntryKind → List String
  | resources => ["resources"]
  | resource => ["resource"]
  | defaultRoutes => ["default_routes"]
  | matching => []

theorem parted (h : kind ≠ kind') :
    (∃ name ∈ kind.required, name ∉ kind'.fieldNames) ∨
      ∃ name ∈ kind'.required, name ∉ kind.fieldNames := by
  revert h
  cases kind <;> cases kind' <;> decide

/-- Whatever the values, a kind takes a mapping with these keys only if its required fields are
among them by name. -/
def NamesRequired (keys : List Data) : Prop :=
  ∀ kind : EntryKind, ∀ cells : List (Data × Cell), cells.map Prod.fst = keys →
    (kind.ofNamed? cells).isSome → ∀ name ∈ kind.required, .text name ∈ keys

theorem isSome_cell? {f : Fields} (h : (kind.read? f).isSome) :
    ∀ name ∈ kind.required, (f.cell? name).isSome := by
  have hneeded : ∀ {α : Type} {name : String} {read? : Data → Option α},
      f.required? name read? ≠ none → (f.cell? name).isSome := by
    intro α name read? hne
    cases hcell : f.cell? name with
    | none => exact absurd (by rw [required?, hcell]; rfl) hne
    | some cell => rfl
  obtain ⟨e, he⟩ := Option.isSome_iff_exists.mp h
  cases kind with
  | matching => exact fun _ hname => absurd hname List.not_mem_nil
  | resources | resource | defaultRoutes =>
    obtain ⟨value, hvalue, -⟩ := Option.bind_eq_some_iff.mp he
    exact List.forall_mem_singleton.mpr
      (hneeded (ne_of_eq_of_ne hvalue (Option.some_ne_none value)))

theorem eq_zero_of_required : ∀ name ∈ kind.required, ∀ n : Nat,
    kind.fieldNames[n]? = some name → n = 0 := by
  have hfirst : kind.fieldNames.Nodup ∧ ∀ name ∈ kind.required,
      kind.fieldNames[0]? = some name := by
    cases kind <;> decide
  intro name hname n hn
  have hlength : 0 < kind.fieldNames.length := by cases kind <;> decide
  exact ((List.getElem?_inj hlength hfirst.1).mp ((hfirst.2 name hname).trans hn.symm)).symm

/-- Required fields can be given by the number 0 only, so they are given by name where 0 is no
key. -/
theorem namesRequired_of_notMem {keys : List Data} (h : .natural 0 ∉ keys) :
    NamesRequired keys := by
  rintro kind cells rfl htakes name hname
  obtain ⟨e, he⟩ := Option.isSome_iff_exists.mp htakes
  obtain ⟨f, hf, hread⟩ := Option.bind_eq_some_iff.mp he
  rw [named?_eq] at hf
  obtain ⟨fields, hfields, rfl⟩ := Option.map_eq_some_iff.mp hf
  obtain ⟨cell, hcell⟩ := Option.isSome_iff_exists.mp
    (isSome_cell? (Option.isSome_of_mem hread) name hname)
  obtain ⟨front, back, hsplit, -⟩ := List.lookup_eq_some_iff.mp hcell
  have hmem : (name, cell) ∈ fields := by
    rw [show fields = front ++ (name, cell) :: back from hsplit]
    exact List.mem_append_right _ List.mem_cons_self
  obtain ⟨key, hpair, hkey⟩ := exists_pair_of_mem hfields hmem
  have hkeys : key ∈ cells.map Prod.fst := List.mem_map_of_mem (f := Prod.fst) hpair
  rcases eq_of_fieldName? hkey with rfl | ⟨n, rfl, hn⟩
  · exact hkeys
  · cases eq_zero_of_required name hname n hn
    exact absurd hkeys h

/-- With the number 0, one mapping can be an entry of two kinds. -/
example : let cells : List (Data × Cell) := [(.natural 0, ⟨.text "posts", none⟩)]
    (resources.ofNamed? cells).isSome ∧ (resource.ofNamed? cells).isSome := by
  decide

theorem isSome_fieldName? (h : (kind.ofNamed? cells).isSome) {c : Data × Cell} (hc : c ∈ cells) :
    (fieldName? kind.fieldNames c.1).isSome := by
  obtain ⟨e, he⟩ := Option.isSome_iff_exists.mp h
  obtain ⟨f, hf, -⟩ := Option.bind_eq_some_iff.mp he
  rw [named?_eq] at hf
  obtain ⟨fields, hfields, -⟩ := Option.map_eq_some_iff.mp hf
  have hall := forall₂_of_assign? hfields
  clear h he hf hfields
  induction hall with
  | nil => cases hc
  | cons hhead _ ih =>
    rcases List.mem_cons.mp hc with rfl | hc
    · rw [hhead.1]
      rfl
    · exact ih hc

theorem eq_of_takes (hkeys : NamesRequired (cells.map Prod.fst)) (h : (kind.ofNamed? cells).isSome)
    (h' : (kind'.ofNamed? cells).isSome) : kind = kind' := by
  have hone : ∀ {k l : EntryKind}, (k.ofNamed? cells).isSome → (l.ofNamed? cells).isSome →
      ∀ name ∈ k.required, name ∈ l.fieldNames := by
    intro k l hk hl name hname
    obtain ⟨c, hc, hkey⟩ := List.mem_map.mp (hkeys k cells rfl hk name hname)
    obtain ⟨field, hfield⟩ := Option.isSome_iff_exists.mp (isSome_fieldName? hl hc)
    rw [hkey] at hfield
    obtain ⟨rfl, hmem⟩ := fieldName?_text hfield
    exact hmem
  by_contra hne
  rcases parted hne with ⟨name, hname, hfree⟩ | ⟨name, hname, hfree⟩
  · exact hfree (hone h h' name hname)
  · exact hfree (hone h' h name hname)

end EntryKind

namespace Entry
open Fields
variable {kinds : List EntryKind}

/-- An entry that is a mapping, in which required fields are given by name, with such entries nested
in it. -/
inductive IsMapping : Data → Prop
  | map {pairs : List (Data × Data)} (keys : EntryKind.NamesRequired (pairs.map Prod.fst))
      (nested : ∀ (kind : EntryKind) (key : Data) (items : List Data), (key, .list items) ∈ pairs →
        fieldName? kind.fieldNames key = some "scope" → ∀ item ∈ items, IsMapping item) :
      IsMapping (.map pairs)

theorem IsMapping.of_notMem {pairs : List (Data × Data)} (hkeys : .natural 0 ∉ pairs.map Prod.fst)
    (hnested : ∀ items, .list items ∈ pairs.map Prod.snd → ∀ item ∈ items, IsMapping item) :
    IsMapping (.map pairs) :=
  .map (EntryKind.namesRequired_of_notMem hkeys) fun _ _ items hpair _ =>
    hnested items (List.mem_map_of_mem (f := Prod.snd) hpair)

def isZero : Data → Bool
  | .natural n => n = 0
  | _ => false

mutual

/-- A test for mappings in which 0 is no key and all lists hold such mappings. -/
def passes : Data → Bool
  | .map pairs => passesPairs pairs
  | _ => false

def passesPairs : List (Data × Data) → Bool
  | [] => true
  | (key, value) :: rest => !isZero key && passesValue value && passesPairs rest

def passesValue : Data → Bool
  | .list items => passesItems items
  | _ => true

def passesItems : List Data → Bool
  | [] => true
  | item :: items => passes item && passesItems items

end

mutual

theorem isMapping_of_passes {data : Data} (h : passes data = true) : IsMapping data := by
  cases data with
  | map pairs =>
    obtain ⟨hkeys, hnested⟩ := of_passesPairs h
    exact .of_notMem hkeys hnested
  | null | bool | natural | negative | float | text | list => cases h

theorem of_passesPairs {pairs : List (Data × Data)} (h : passesPairs pairs = true) :
    .natural 0 ∉ pairs.map Prod.fst ∧
      ∀ items, .list items ∈ pairs.map Prod.snd → ∀ item ∈ items, IsMapping item := by
  cases pairs with
  | nil => simp
  | cons pair rest =>
    obtain ⟨key, value⟩ := pair
    rw [passesPairs, Bool.and_eq_true, Bool.and_eq_true] at h
    obtain ⟨⟨hkey, hvalue⟩, hrest⟩ := h
    have hlist := of_passesValue hvalue
    obtain ⟨hkeys, hnested⟩ := of_passesPairs hrest
    refine ⟨fun hmem => ?_, fun items hitems => ?_⟩
    · rcases List.mem_cons.mp hmem with rfl | hmem
      · cases hkey
      · exact hkeys hmem
    · rcases List.mem_cons.mp hitems with hitems | hitems
      · exact hlist items hitems.symm
      · exact hnested items hitems

theorem of_passesValue {value : Data} (h : passesValue value = true) :
    ∀ items, value = .list items → ∀ item ∈ items, IsMapping item := by
  cases value with
  | list items =>
    have hitems := of_passesItems h
    rintro _ ⟨⟩
    exact hitems
  | null | bool | natural | negative | float | text | map => rintro _ ⟨⟩

theorem of_passesItems {items : List Data} (h : passesItems items = true) :
    ∀ item ∈ items, IsMapping item := by
  cases items with
  | nil => exact fun _ hitem => absurd hitem List.not_mem_nil
  | cons item items =>
    rw [passesItems, Bool.and_eq_true] at h
    exact List.forall_mem_cons.mpr ⟨isMapping_of_passes h.1, of_passesItems h.2⟩

end

theorem IsMapping.ofData?_of_perm (hkinds : kinds.Perm EntryKind.all) {data : Data}
    (h : IsMapping data) : ofData? kinds data = ofData? EntryKind.all data := by
  induction h with
  | @map pairs keys nested ih =>
    have hread : ∀ kind : EntryKind, kind.ofNamed? (namedCells kinds pairs) =
        kind.ofNamed? (namedCells EntryKind.all pairs) := by
      intro kind
      rw [namedCells_eq, namedCells_eq]
      refine kind.ofNamed?_congr fun p hp hscope => ?_
      obtain ⟨key, value⟩ := p
      cases value with
      | list items => exact ofItems?_congr (ih kind key items hp hscope)
      | null | bool | natural | negative | float | text | map => rfl
    rw [← map_fst_namedCells EntryKind.all] at keys
    rw [ofData?, ofData?]
    simp only [hread]
    exact findSome?_of_perm hkinds fun _ _ => EntryKind.eq_of_takes keys

end Entry

namespace RouteFile
open Entry
variable {kinds : List EntryKind}

def itemsOf : Tree → List Data
  | .sequence _ items => (Data.ofItems? items).getD []
  | _ => []

def entryData : Tree → List Data
  | .mapping _ pairs =>
    pairs.flatMap fun pair => if keyText? pair.1 = some "routes" then itemsOf pair.2 else []
  | _ => []

/-- The entries of a file are mappings, at every level of nesting. -/
def HasMappings (text : String) : Prop :=
  ∀ tree, tree? text = some (some tree) → ∀ d ∈ entryData tree, IsMapping d

theorem routes?_of_perm (hkinds : kinds.Perm EntryKind.all) {tree : Tree}
    (h : ∀ d ∈ itemsOf tree, IsMapping d) : routes? kinds tree = routes? EntryKind.all tree := by
  cases tree
  case sequence p items =>
    rw [routes?, routes?]
    cases hdata : Data.ofItems? items with
    | none => rfl
    | some data =>
      rw [itemsOf, hdata] at h
      exact ofItems?_congr fun d hd => (h d hd).ofData?_of_perm hkinds
  all_goals rfl

theorem step?_of_perm (hkinds : kinds.Perm EntryKind.all) {pair : Tree × Tree}
    (h : keyText? pair.1 = some "routes" → ∀ d ∈ itemsOf pair.2, IsMapping d)
    (fields : Partial) :
    step? kinds fields pair = step? EntryKind.all fields pair := by
  rw [step?, step?]
  cases hkey : keyText? pair.1 with
  | none => rfl
  | some key =>
    rw [Option.bind_some, Option.bind_some, addField?, addField?]
    by_cases hroutes : key = "routes"
    · rw [routes?_of_perm hkinds (h (hkey.trans (congrArg some hroutes)))]
    · simp only [hroutes, false_and, if_false]

theorem ofTree?_of_perm (hkinds : kinds.Perm EntryKind.all) {tree : Tree}
    (h : ∀ d ∈ entryData tree, IsMapping d) :
    ofTree? kinds tree = ofTree? EntryKind.all tree := by
  cases tree
  case mapping p pairs =>
    have hpairs : ∀ pair ∈ pairs, keyText? pair.1 = some "routes" →
        ∀ d ∈ itemsOf pair.2, IsMapping d := by
      intro pair hpair hkey d hd
      refine h d (List.mem_flatMap.mpr ⟨pair, hpair, ?_⟩)
      rw [if_pos hkey]
      exact hd
    have hsteps : ∀ fields, pairs.foldlM (step? kinds) fields =
        pairs.foldlM (step? EntryKind.all) fields := by
      clear h
      induction pairs with
      | nil => exact fun _ => rfl
      | cons pair pairs ih =>
        obtain ⟨hpair, hrest⟩ := List.forall_mem_cons.mp hpairs
        intro fields
        rw [List.foldlM_cons, List.foldlM_cons, step?_of_perm hkinds hpair]
        exact congrArg _ (funext (ih hrest))
    rw [ofTree?_mapping, ofTree?_mapping, hsteps]
  all_goals rfl

theorem ofTextWith_of_perm (hkinds : kinds.Perm EntryKind.all) {text : String}
    (h : HasMappings text) : ofTextWith kinds text = ofText text := by
  rw [ofText, ofTextWith, ofTextWith]
  split
  · rfl
  cases htree : tree? text with
  | none => rfl
  | some tree =>
    cases tree with
    | none => rfl
    | some tree =>
      simp only [ofTree?_of_perm hkinds (h tree htree)]

/-- Where 0 is no key, a mapping is an entry of at most one kind. -/
theorem eq_of_takes_of_notMem {pairs : List (Data × Data)} {kind kind' : EntryKind}
    (hkeys : .natural 0 ∉ pairs.map Prod.fst)
    (h : (kind.ofNamed? (namedCells kinds pairs)).isSome)
    (h' : (kind'.ofNamed? (namedCells kinds pairs)).isSome) : kind = kind' := by
  rw [← map_fst_namedCells kinds] at hkeys
  exact EntryKind.eq_of_takes (EntryKind.namesRequired_of_notMem hkeys) h h'

/-- A test for files with such entries. -/
def passesFile (text : String) : Bool :=
  ((tree? text).bind id).all fun tree => (entryData tree).all passes

theorem hasMappings_of_passesFile {text : String} (h : passesFile text = true) :
    HasMappings text := by
  intro tree htree d hd
  rw [passesFile, htree, Option.bind_some, id, Option.all_some, List.all_eq_true] at h
  exact isMapping_of_passes (h d hd)

/-- The order of the kinds does not count for a file in whose entries, at every level, 0 is no key
and all lists hold entries. -/
theorem ofTextWith_of_passesFile (hkinds : kinds.Perm EntryKind.all) {text : String}
    (h : passesFile text = true) : ofTextWith kinds text = ofText text :=
  ofTextWith_of_perm hkinds (hasMappings_of_passesFile h)

/-- A mapping is an entry of at most one kind, whatever is read where entries are expected. So what a
file is read as, if its entries are mappings, does not depend on the order in which the kinds are
tried, nor does whether it is refused. -/
theorem kinds_exclusive :
    (∀ kinds pairs, EntryKind.NamesRequired (pairs.map Prod.fst) → ∀ kind kind' : EntryKind,
      (kind.ofNamed? (namedCells kinds pairs)).isSome →
      (kind'.ofNamed? (namedCells kinds pairs)).isSome → kind = kind') ∧
    ∀ kinds text, kinds.Perm EntryKind.all → HasMappings text →
      ofTextWith kinds text = ofText text := by
  refine ⟨fun kinds pairs hkeys kind kind' => EntryKind.eq_of_takes ?_,
    fun kinds text hkinds htext => ofTextWith_of_perm hkinds htext⟩
  rw [map_fst_namedCells]
  exact hkeys

/-- A file with an entry inside another one, read with the kinds the other way round. -/
theorem kinds_exclusive_of_nested :
    let pairs := [(Data.text "resources", Data.text "posts")]
    let kinds := EntryKind.all.reverse
    let text := "routes:\n- resources: posts\n  scope:\n  - {path: /new}\n- {path: /about}\n"
    EntryKind.NamesRequired (pairs.map Prod.fst) ∧
      (∀ kind : EntryKind, (kind.ofNamed? (namedCells kinds pairs)).isSome → kind = .resources) ∧
      kinds.Perm EntryKind.all ∧ HasMappings text ∧ ofTextWith kinds text = ofText text ∧
      (ofText text).isOk := by
  intro pairs kinds text
  have hfile : passesFile text = true ∧ (ofText text).isOk = true := by decide +kernel
  have hmappings : HasMappings text := hasMappings_of_passesFile hfile.1
  have hkeys : EntryKind.NamesRequired (pairs.map Prod.fst) :=
    EntryKind.namesRequired_of_notMem (by simp [pairs])
  have hkinds : kinds.Perm EntryKind.all := List.reverse_perm _
  refine ⟨hkeys, fun kind hkind => ?_, hkinds, hmappings, ?_, hfile.2⟩
  · exact kinds_exclusive.1 kinds pairs hkeys kind .resources hkind (by decide)
  · exact kinds_exclusive.2 kinds text hkinds hmappings

end RouteFile

end Signpost
