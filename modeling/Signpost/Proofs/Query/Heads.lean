import Signpost.Proofs.Query.Conflict
import Signpost.Proofs.Query.Decoded

/-! # Reading by heads

A pair is placed under the head of its name and looks at nothing else. So the pairs of one head
build the entry of that head whatever pairs stand between them, and a query string can be read
exactly if the pairs of every head can be read on their own.
-/
namespace Signpost.Query

def nameHead (name : String) : String := String.ofList (name.toList.takeWhile (· != '['))

/-- The head of the decoded name of a pair, if the name decodes. -/
def pairHead? (pair : List Char) : Option String :=
  (decodeComponent (splitPair pair).1).toOption.map nameHead

/-- The names of all pairs decode; a text that does not is refused under its head. -/
def NamesDecode (q : String) : Prop := ∀ pair ∈ rawPairs q, (pairHead? pair).isSome

def withHead (head : String) (raw : List (List Char)) : List (List Char) :=
  raw.filter fun pair => pairHead? pair = some head

def underHead (head : String) (q : String) : String :=
  String.ofList (['&'].intercalate (withHead head (rawPairs q)))

section Split
variable {separator : Char → Bool} {cs : List Char} {part : List Char}

theorem splitAtEach_ne_nil (separator : Char → Bool) (cs : List Char) :
    splitAtEach separator cs ≠ [] := by
  cases cs with
  | nil => simp [splitAtEach]
  | cons c rest =>
    rw [splitAtEach]
    split
    · simp
    · split <;> simp

theorem separator_eq_false_of_mem (h : part ∈ splitAtEach separator cs) :
    ∀ c ∈ part, separator c = false := by
  induction cs generalizing part with
  | nil =>
    rw [splitAtEach, List.mem_singleton] at h
    simp [h]
  | cons c rest ih =>
    rw [splitAtEach] at h
    split at h
    · rcases List.mem_cons.mp h with rfl | h
      · simp
      · exact ih h
    · rename_i hc
      split at h
      · rename_i first parts hsplit
        rcases List.mem_cons.mp h with rfl | h
        · refine List.forall_mem_cons.mpr ⟨by simpa using hc, ih ?_⟩
          rw [hsplit]
          exact List.mem_cons_self
        · refine ih ?_
          rw [hsplit]
          exact List.mem_cons_of_mem _ h
      · rename_i hsplit
        exact absurd hsplit (splitAtEach_ne_nil separator rest)

end Split

theorem rawPairs_underHead (head q : String) :
    rawPairs (underHead head q) = withHead head (rawPairs q) := by
  have hpairs : ∀ pair ∈ withHead head (rawPairs q),
      pair ∈ splitAtEach (fun c => c = '&' || c = ';') q.toList ∧ (!pair.isEmpty) = true :=
    fun pair hpair => List.mem_filter.mp (List.mem_filter.mp hpair).1
  rw [rawPairs, underHead, String.toList_ofList]
  by_cases hne : withHead head (rawPairs q) = []
  · rw [hne]
    rfl
  · rw [splitAtEach_intercalate (by simp) hne fun pair hpair =>
      separator_eq_false_of_mem (hpairs pair hpair).1]
    exact List.filter_eq_self.mpr fun pair hpair => (hpairs pair hpair).2

def setHead (head : String) (m : QueryMap) (u : Option Value) : QueryMap :=
  match u with
  | some u => m.insert head u
  | none => m

theorem find?_setHead_self (head : String) (m : QueryMap) (u : Option Value) :
    Entries.find? head (setHead head m u) = u.or (m.find? head) := by
  cases u with
  | none => rfl
  | some u => exact Entries.find?_insert_self head u m

theorem find?_setHead_of_ne {head k : String} (h : k ≠ head) (m : QueryMap) (u : Option Value) :
    Entries.find? k (setHead head m u) = m.find? k := by
  cases u with
  | none => rfl
  | some u => exact Entries.find?_insert_of_ne h u m

section Pair
variable {pair : List Char} {head : String} {m n m' : QueryMap}

theorem exists_steps_of_keyPath {name : String} {path : List Step} (h : keyPath name = .ok path) :
    ∃ steps, path = .key (nameHead name) :: steps := by
  rw [keyPath, List.span_eq_takeWhile_dropWhile] at h
  simp only at h
  split at h
  · rename_i steps _
    cases h
    exact ⟨steps, rfl⟩
  · cases h

theorem pairHead?_of_readPair {p : ReadPair} (h : readPair pair = .ok p) :
    ∃ steps, pairHead? pair = some (nameHead p.name) ∧
      p.path = .key (nameHead p.name) :: steps := by
  obtain ⟨hname, -, hpath⟩ := of_readPair h
  obtain ⟨steps, hsteps⟩ := exists_steps_of_keyPath hpath
  exact ⟨steps, by simp [pairHead?, hname, Except.toOption], hsteps⟩

theorem addPair_of_readPair_error {e : QueryError} (h : readPair pair = .error e) (m : QueryMap) :
    addPair m pair = .error e := by
  rw [readPair] at h
  rw [addPair]
  rcases of_bind_eq_error h with
    (h : decodeComponent (splitPair pair).1 = .error e) |
    ⟨name, (hname : decodeComponent (splitPair pair).1 = .ok name), h⟩
  · simp [h, bind, Except.bind]
  rcases of_bind_eq_error h with
    (h : decodeComponent (splitPair pair).2 = .error e) |
    ⟨text, (htext : decodeComponent (splitPair pair).2 = .ok text), h⟩
  · simp [hname, h, bind, Except.bind]
  rcases of_bind_eq_error h with h | ⟨path, -, h⟩
  · simp [hname, htext, h, bind, Except.bind]
  · cases h

/-- A pair makes something of the value at its head, whatever the other parameters are. -/
theorem exists_addPair_eq (h : pairHead? pair = some head) :
    ∃ act : Option Value → Except QueryError (Option Value),
      ∀ m, addPair m pair = (act (m.find? head)).map (setHead head m) := by
  cases hread : readPair pair with
  | error e => exact ⟨fun _ => .error e, fun m => addPair_of_readPair_error hread m⟩
  | ok p =>
    obtain ⟨steps, hhead, hpath⟩ := pairHead?_of_readPair hread
    obtain rfl := Option.some.inj (h.symm.trans hhead)
    by_cases hheaded : p.Headed
    · refine ⟨fun cur => (place (.text p.text) steps cur).elim (.error (.typeMismatch p.name))
        fun u => .ok (some u), fun m => ?_⟩
      rw [addPair_eq_placePair hread, placePair, if_pos hheaded, hpath, insertAt_eq]
      beta_reduce
      cases place (.text p.text) steps (m.find? (nameHead p.name)) <;> rfl
    · refine ⟨fun _ => .ok none, fun m => ?_⟩
      rw [addPair_eq_placePair hread, placePair, if_neg hheaded]
      rfl

theorem find?_of_addPair_of_ne (h : pairHead? pair = some head) (hadd : addPair m pair = .ok m')
    {k : String} (hk : k ≠ head) : m'.find? k = m.find? k := by
  obtain ⟨act, hact⟩ := exists_addPair_eq h
  obtain ⟨u, -, rfl⟩ := exists_of_map_eq_ok ((hact m).symm.trans hadd)
  exact find?_setHead_of_ne hk m u

theorem addPair_congr (h : pairHead? pair = some head) (hfind : n.find? head = m.find? head)
    (hadd : addPair m pair = .ok m') :
    ∃ n', addPair n pair = .ok n' ∧ n'.find? head = m'.find? head := by
  obtain ⟨act, hact⟩ := exists_addPair_eq h
  obtain ⟨u, hu, rfl⟩ := exists_of_map_eq_ok ((hact m).symm.trans hadd)
  refine ⟨setHead head n u, ?_, ?_⟩
  · rw [hact, hfind, hu]
    rfl
  · rw [find?_setHead_self, find?_setHead_self, hfind]

theorem exists_pairHead?_of_addPair (h : addPair m pair = .ok m') :
    ∃ head, pairHead? pair = some head := by
  cases hread : readPair pair with
  | error e =>
    rw [addPair_of_readPair_error hread] at h
    cases h
  | ok p => exact ⟨_, (pairHead?_of_readPair hread).choose_spec.1⟩

end Pair

section Fold
variable {raw : List (List Char)} {m m' n : QueryMap} {head : String}

theorem withHead_cons_self {pair : List Char} (h : pairHead? pair = some head) :
    withHead head (pair :: raw) = pair :: withHead head raw := by
  simp [withHead, h]

theorem withHead_cons_of_ne {pair : List Char} (h : pairHead? pair ≠ some head) :
    withHead head (pair :: raw) = withHead head raw := by
  simp [withHead, h]

/-- Of pairs that can be added, those of one head can be added on their own and come to the same at
their head. -/
theorem exists_foldlM_withHead (hrun : raw.foldlM addPair m = .ok m')
    (hfind : n.find? head = m.find? head) :
    ∃ n', (withHead head raw).foldlM addPair n = .ok n' ∧ n'.find? head = m'.find? head ∧
      ∀ k, k ≠ head → n'.find? k = n.find? k := by
  induction raw generalizing m n with
  | nil =>
    cases hrun
    exact ⟨n, rfl, hfind, fun _ _ => rfl⟩
  | cons pair raw ih =>
    rw [List.foldlM_cons] at hrun
    obtain ⟨m₁, hadd, hrun⟩ := exists_of_bind_eq_ok hrun
    by_cases hpair : pairHead? pair = some head
    · obtain ⟨n₁, hn₁, hfind₁⟩ := addPair_congr hpair hfind hadd
      obtain ⟨n', hn', hhead, hother⟩ := ih hrun hfind₁
      refine ⟨n', ?_, hhead, fun k hk => ?_⟩
      · rw [withHead_cons_self hpair, List.foldlM_cons, hn₁]
        exact hn'
      · rw [hother k hk, find?_of_addPair_of_ne hpair hn₁ hk]
    · obtain ⟨head', hhead'⟩ := exists_pairHead?_of_addPair hadd
      have hne : head ≠ head' := fun heq => hpair (heq ▸ hhead')
      rw [withHead_cons_of_ne hpair]
      exact ih hrun (hfind.trans (find?_of_addPair_of_ne hhead' hadd hne).symm)

theorem exists_foldlM_of_withHead (hraw : ∀ pair ∈ raw, (pairHead? pair).isSome)
    (h : ∀ head, ∃ n n', n.find? head = m.find? head ∧
      (withHead head raw).foldlM addPair n = .ok n') : ∃ m', raw.foldlM addPair m = .ok m' := by
  induction raw generalizing m with
  | nil => exact ⟨m, rfl⟩
  | cons pair raw ih =>
    obtain ⟨hpair, hraw⟩ := List.forall_mem_cons.mp hraw
    obtain ⟨head, hhead⟩ := Option.isSome_iff_exists.mp hpair
    obtain ⟨n, n', hfind, hrun⟩ := h head
    rw [withHead_cons_self hhead, List.foldlM_cons] at hrun
    obtain ⟨n₁, hadd, hrun⟩ := exists_of_bind_eq_ok hrun
    obtain ⟨m₁, hm₁, hfind₁⟩ := addPair_congr hhead hfind.symm hadd
    have hrest : ∃ m', raw.foldlM addPair m₁ = .ok m' := by
      -- the runs of the other heads have not moved, and `m₁` is at their heads what `m` was
      refine ih hraw fun k => ?_
      by_cases hk : k = head
      · subst hk
        exact ⟨n₁, n', hfind₁.symm, hrun⟩
      · obtain ⟨l, l', hl, hrunl⟩ := h k
        rw [withHead_cons_of_ne (by simpa [hhead] using Ne.symm hk)] at hrunl
        exact ⟨l, l', hl.trans (find?_of_addPair_of_ne hhead hm₁ hk).symm, hrunl⟩
    obtain ⟨m', hm'⟩ := hrest
    exact ⟨m', by rw [List.foldlM_cons, hm₁]; exact hm'⟩

end Fold

section Decode
variable {q q' : String} {m m' : QueryMap}

theorem decode_underHead (h : decode q = .ok m) (head : String) :
    decode (underHead head q) = .ok ((m.find? head).toList.map (head, ·)) := by
  obtain ⟨n, hrun, hhead, hother⟩ :
      ∃ n, (withHead head (rawPairs q)).foldlM addPair [] = .ok n ∧ n.find? head = m.find? head ∧
        ∀ k, k ≠ head → n.find? k = none := exists_foldlM_withHead h rfl
  have hread : decode (underHead head q) = .ok n := by
    rw [decode, rawPairs_underHead]
    exact hrun
  rw [hread]
  refine congrArg _ ((decoded_of_decode hread).sorted.ext ?_ fun k => ?_)
  · cases m.find? head with
    | none => exact Entries.sorted_nil
    | some u => exact List.pairwise_singleton _ _
  · by_cases hk : k = head
    · rw [hk, hhead]
      cases m.find? head <;> simp [Entries.find?_cons]
    · rw [hother k hk]
      cases m.find? head <;> simp [Entries.find?_cons, hk]

theorem exists_decode_iff_underHead (hq : NamesDecode q) :
    (∃ m, decode q = .ok m) ↔ ∀ head, ∃ m, decode (underHead head q) = .ok m := by
  constructor
  · rintro ⟨m, h⟩ head
    exact ⟨_, decode_underHead h head⟩
  · intro h
    refine exists_foldlM_of_withHead hq fun head => ?_
    obtain ⟨n, hn⟩ := h head
    rw [decode, rawPairs_underHead] at hn
    exact ⟨[], n, rfl, hn⟩

theorem decode_eq_ok_of_withHead (hq' : NamesDecode q')
    (hsame : ∀ head, withHead head (rawPairs q') = withHead head (rawPairs q))
    (h : decode q = .ok m) : decode q' = .ok m := by
  have hunder : ∀ head, underHead head q' = underHead head q := fun head => by
    rw [underHead, hsame, underHead]
  obtain ⟨m', h'⟩ := (exists_decode_iff_underHead hq').mpr fun head =>
    ⟨_, (hunder head).symm ▸ decode_underHead h head⟩
  rw [h']
  refine congrArg _ ((decoded_of_decode h').sorted.ext (decoded_of_decode h).sorted fun head => ?_)
  have heq := decode_underHead h' head
  rw [hunder, decode_underHead h head] at heq
  cases hm : m.find? head <;> cases hm' : m'.find? head <;> simp_all

/-- A query string is read head by head: exactly if the pairs of every head can be read, and then
they give the entry of their head and no other. Pairs with different heads may therefore change
places. -/
theorem decode_by_head (hq : NamesDecode q) :
    ((∃ m, decode q = .ok m) ↔ ∀ head, ∃ m, decode (underHead head q) = .ok m) ∧
    (∀ m, decode q = .ok m → ∀ head,
      decode (underHead head q) = .ok ((m.find? head).toList.map (head, ·))) ∧
    ∀ q', NamesDecode q' → (∀ head, withHead head (rawPairs q') = withHead head (rawPairs q)) →
      ∀ m, decode q' = .ok m ↔ decode q = .ok m := by
  refine ⟨exists_decode_iff_underHead hq, fun m h head => decode_underHead h head, ?_⟩
  intro q' hq' hsame m
  exact ⟨decode_eq_ok_of_withHead hq fun head => (hsame head).symm,
    decode_eq_ok_of_withHead hq' hsame⟩

/-- A list written in two places, with another parameter and an ignored pair between its items. -/
theorem decode_by_head_interleaved :
    NamesDecode "a[]=1&b=2&a[]=3&=x" ∧
    decode (underHead "a" "a[]=1&b=2&a[]=3&=x") =
      .ok [("a", .list [.text "1", .text "3"])] ∧
    (∃ m, decode "a[]=1&b=2&a[]=3&=x" = .ok m) ∧
    decode "b=2&=x&a[]=1&a[]=3" = .ok [("a", .list [.text "1", .text "3"]), ("b", .text "2")] := by
  have hraw : rawPairs "a[]=1&b=2&a[]=3&=x" =
      [['a', '[', ']', '=', '1'], ['b', '=', '2'], ['a', '[', ']', '=', '3'], ['=', 'x']] := by
    decide
  have hmoved : rawPairs "b=2&=x&a[]=1&a[]=3" =
      [['b', '=', '2'], ['=', 'x'], ['a', '[', ']', '=', '1'], ['a', '[', ']', '=', '3']] := by
    decide
  have hread : decode "a[]=1&b=2&a[]=3&=x" =
      .ok [("a", .list [.text "1", .text "3"]), ("b", .text "2")] := by decide +kernel
  have ha₁ : pairHead? ['a', '[', ']', '=', '1'] = some "a" := by decide +kernel
  have hb : pairHead? ['b', '=', '2'] = some "b" := by decide +kernel
  have ha₃ : pairHead? ['a', '[', ']', '=', '3'] = some "a" := by decide +kernel
  have hempty : pairHead? ['=', 'x'] = some "" := by decide +kernel
  have hnames : NamesDecode "a[]=1&b=2&a[]=3&=x" := by
    simp [NamesDecode, hraw, ha₁, hb, ha₃, hempty]
  have hnames' : NamesDecode "b=2&=x&a[]=1&a[]=3" := by
    simp [NamesDecode, hmoved, ha₁, hb, ha₃, hempty]
  have hsame : ∀ head, withHead head (rawPairs "b=2&=x&a[]=1&a[]=3") =
      withHead head (rawPairs "a[]=1&b=2&a[]=3&=x") := fun head => by
    rw [hraw, hmoved]
    by_cases h : "a" = head
    · subst h
      simp [withHead, ha₁, hb, ha₃, hempty]
    · simp [withHead, ha₁, hb, ha₃, hempty, h, List.filter_cons]
  obtain ⟨hiff, hentry, horder⟩ := decode_by_head hnames
  exact ⟨hnames, hentry _ hread "a", hiff.mpr fun head => ⟨_, hentry _ hread head⟩,
    (horder _ hnames' hsame _).mpr hread⟩

end Decode

end Signpost.Query
