-- The names of packages as they are built, in place of those of the recipes (oe.packagedata).
import Yocto.DependencyStrings
import Yocto.StableSort

open yocto.task_ids yocto.ordered_dict yocto.data_smart yocto.text_lines yocto.python_int
  yocto.dependency_strings yocto.stable_sort

namespace yocto.renamed_dependencies

/-! ## The program -/

/-- What the functions read and set in the datastore: the classes that are inherited, and the
variables as `getVar` gives them. -/
structure Datastore where
  inherit_cache : List Text
  vars : OrderedDict Text Text

def Datastore.getVar (d : Datastore) (var : Text) : Option Text := d.vars.get? var

def Datastore.setVar (d : Datastore) (var value : Text) : Datastore :=
  { d with vars := d.vars.set var value }

def inherits_class (klass : Text) (d : Datastore) : Bool :=
  d.inherit_cache.any fun v => (text "/" ++ klass ++ text ".bbclass") <:+ v

/-- `read_subpkgdata`: the package data of each package. A file that is not there is read as an
empty dict. -/
abbrev PackageData := Text → OrderedDict Text Text

/-- `get_package_mapping`, without its messages. The name that is looked up may be None. -/
def get_package_mapping (read_subpkgdata : PackageData) (pkg : Option Text) (basepkg : Text) (d : Datastore)
    (depversions : Option (List Text)) : Except Raised (Option Text) :=
  let name := pkg.getD (text "None")
  let data := read_subpkgdata name
  match data.get? (text "PKG:" ++ name) with
  | none => .ok pkg
  | some value =>
    if inherits_class (text "allarch") d ∧ (d.getVar (text "MULTILIB_VARIANTS")).getD [] = [] ∧ value = basepkg then
      .ok pkg
    else if depversions = some [] then
      match data.get? (text "RPROVIDES:" ++ name) with
      | none => .ok (some value)
      | some rprovides => do
        let r ← explode_dep_versions2 rprovides true
        .ok (if r.any fun x => x.1 = pkg then pkg else some value)
    else .ok (some value)

/-- The names that `join_deps` may put before a bracket. None is not one. -/
def named (deps : OrderedDict (Option Text) (List Text)) : Except Raised (OrderedDict Text Versions) :=
  deps.mapM fun x =>
    match x.1 with
    | none => .error .type_error
    | some dep => .ok (dep, .many x.2)

def rename_turn (read_subpkgdata : PackageData) (pkg : Text) (d : Datastore)
    (new_depends : OrderedDict (Option Text) (List Text)) (dep : Option Text × List Text) :
    Except Raised (OrderedDict (Option Text) (List Text)) := do
  let new_depend ← get_package_mapping read_subpkgdata dep.1 pkg d (some dep.2)
  .ok (new_depends.set new_depend dep.2)

def runtime_mapping_rename (read_subpkgdata : PackageData) (varname pkg : Text) (d : Datastore) :
    Except Raised Datastore := do
  let deps ← explode_dep_versions2 ((d.getVar varname).getD []) true
  let new_depends ← deps.foldlM (rename_turn read_subpkgdata pkg d) []
  let joined ← named new_depends
  .ok (d.setVar varname (join_deps joined false))

/-! ## Dependency strings as they may be written -/

/-- A constraint in brackets, with or without white space inside. -/
structure Bracket where
  constraint : Constraint
  before_operator : Bool
  before_version : Bool
  before_close : Bool
  apart : before_version = false → constraint.op ++ constraint.version.take 1 ∉ two_character_operators

/-- A dependency: a name, and one constraint or none. -/
structure Item where
  dep : Name
  bracket : Option Bracket

def Item.constraint (i : Item) : Option Constraint := i.bracket.map Bracket.constraint

/-- A text before words: a word of its own, or the start of the first of them. -/
def before (blank : Bool) (w : Text) : List Text → List Text
  | [] => [w]
  | v :: vs => if blank then w :: v :: vs else (w ++ v) :: vs

def Bracket.words (b : Bracket) : List Text :=
  before b.before_operator ['('] (before b.before_version b.constraint.op
    (before b.before_close b.constraint.version [[')']]))

def Item.words (i : Item) : List Text := i.dep.name :: (i.bracket.map Bracket.words).getD []

/-- The text has these dependencies. Commas say nothing, and any white space is as good as another. -/
def Spells (items : List Item) (s : Text) : Prop :=
  words (s.filter (· ≠ ',')) = items.flatMap Item.words

/-- The constraints on a name. -/
def constraints_on (items : List Item) (dep : Text) : List Constraint :=
  items.filterMap fun i => if i.dep.name = dep then i.constraint else none

/-- The constraints on a name, as the dict has them. -/
def asked (items : List Item) (dep : Text) : List Text := (constraints_on items dep).map Constraint.text

/-- No constraint is put on the name. -/
def Unversioned (items : List Item) (dep : Text) : Prop :=
  ∀ i ∈ items, i.dep.name = dep → i.constraint = none

/-- The dependencies `items'` are those of `items` under new names. -/
structure Renamed (new : Text → Name) (items items' : List Item) : Prop where
  constraints : ∀ i ∈ items, ∀ c, i.constraint = some c →
    ∃ j ∈ items', j.dep.name = (new i.dep.name).name ∧ j.constraint = some c
  unversioned : ∀ i ∈ items, Unversioned items i.dep.name → ∃ j ∈ items', j.dep.name = (new i.dep.name).name
  nothing_else : ∀ j ∈ items', ∃ i ∈ items, j.dep.name = (new i.dep.name).name ∧ j.constraint = i.constraint ∧
    (j.constraint = none → Unversioned items i.dep.name)

/-- No other name with the same new name comes behind this one. -/
def Last (new : Text → Name) (items : List Item) (dep : Text) : Prop :=
  ∀ i ∈ items, (new i.dep.name).name = (new dep).name → i.dep.name ≤ dep

/-- Where names meet, all their constraints are constraints of the last of them. -/
def LastHasAll (new : Text → Name) (items : List Item) : Prop :=
  ∀ i ∈ items, ∀ c, i.constraint = some c →
    ∀ e ∈ items, Last new items e.dep.name → (new i.dep.name).name = (new e.dep.name).name →
      ∃ k ∈ items, k.dep.name = e.dep.name ∧ k.constraint = some c

/-! ## The words in brackets -/

theorem version_not_open (c : Constraint) (t : Text) : (c.version ++ t).head? ≠ some '(' := by
  rw [List.head?_append_of_ne_nil _ c.nonempty]
  intro h
  exact c.plain.no_open (List.mem_of_mem_head? h)

def added (r : OrderedDict (Option Text) (List Text)) (dep : Option Text) (v : Text) :
    OrderedDict (Option Text) (List Text) :=
  r.set dep ((r.get? dep).getD [] ++ [v])

theorem any_starts {ops : List Text} {n : ℕ} (hlen : ∀ op ∈ ops, op.length = n) (w : Text) :
    ops.any (· <+: w) = decide (w.take n ∈ ops) := by
  rw [Bool.eq_iff_iff, List.any_eq_true, decide_eq_true_iff]
  constructor
  · rintro ⟨op, hop, hprefix⟩
    have heq := List.prefix_iff_eq_take.mp (of_decide_eq_true hprefix)
    rw [hlen op hop] at heq
    rwa [← heq]
  · intro hmem
    exact ⟨w.take n, hmem, decide_eq_true (List.take_prefix n w)⟩

theorem operator_apart {op v : Text} (hknown : op ∈ two_character_operators ++ one_character_operators)
    (hapart : op ++ v.take 1 ∉ two_character_operators) : operator (op ++ v) = some (op, v) := by
  have htwo : ∀ op ∈ two_character_operators, op.length = 2 := by decide
  have hone : ∀ op ∈ one_character_operators, op.length = 1 := by decide
  unfold operator
  rw [any_starts htwo, any_starts hone]
  rcases List.mem_append.mp hknown with hop | hop
  · have hlen := htwo op hop
    rw [List.take_left' hlen, List.drop_left' hlen]
    simp [hop]
  · have hlen := hone op hop
    have htake : (op ++ v).take 2 = op ++ v.take 1 := by
      rw [List.take_append, hlen, List.take_of_length_le (by omega)]
    rw [htake, List.take_left' hlen, List.drop_left' hlen]
    simp [hop, hapart]

theorem bracket_opened (s : Exploded) (blank : Bool) {w : Text} (hne : w ≠ []) (hspace : ∀ c ∈ w, isspace c = false)
    (hopen : w.head? ≠ some '(') (ws : List Text) :
    (before blank ['('] (w :: ws)).foldlM explode_turn s = (w :: ws).foldlM explode_turn { s with incmp := true } := by
  cases blank with
  | true => 
    simp only [before, if_true, List.foldlM_cons]
    have hturn : explode_turn s ['('] = .ok { s with incmp := true } := by
      simp [explode_turn, strip]
    rw [hturn]
    rfl
  | false => 
    simp only [before, Bool.false_eq_true, if_false, List.foldlM_cons, List.singleton_append]
    apply congrArg (· >>= _)
    rw [turn_of_not_open _ hopen]
    simp [explode_turn, strip_eq_self hspace, hne]

theorem op_not_open (c : Constraint) (t : Text) : (c.op ++ t).head? ≠ some '(' := by
  obtain ⟨hne, hplain⟩ := c.op_plain
  rw [List.head?_append_of_ne_nil _ hne]
  intro h
  exact hplain.no_open (List.mem_of_mem_head? h)

theorem bracket_operator {s : Exploded} (hs : s.incmp = true) (b : Bracket) {v : Text} (hne : v ≠ [])
    (hopen : v.head? ≠ some '(')
    (hapart : b.before_version = false → b.constraint.op ++ v.take 1 ∉ two_character_operators) (ws : List Text) :
    (before b.before_version b.constraint.op (v :: ws)).foldlM explode_turn s =
      ws.foldlM explode_turn
        (version_word { s with incmp := false, inversion := true, lastcmp := b.constraint.op } v) := by
  have hnot_open := op_not_open b.constraint
  cases hblank : b.before_version with
  | true =>
    have hturn : explode_turn s b.constraint.op =
        .ok { s with incmp := false, inversion := true, lastcmp := b.constraint.op } := by
      have h := turn_of_not_open s (hnot_open [])
      rw [List.append_nil, hs] at h
      rw [h]
      simp [operator_word, operator_op]
    simp only [before, if_true, List.foldlM_cons]
    rw [hturn]
    change (explode_turn _ v >>= _) = _
    rw [turn_of_not_open _ hopen]
    rfl
  | false =>
    have hturn : explode_turn s (b.constraint.op ++ v) =
        .ok (version_word { s with incmp := false, inversion := true, lastcmp := b.constraint.op } v) := by
      rw [turn_of_not_open s (hnot_open v), hs]
      simp [operator_word, operator_apart b.constraint.known (hapart hblank), hne]
    simp only [before, Bool.false_eq_true, if_false, List.foldlM_cons]
    rw [hturn]
    rfl

theorem bracket_version {s : Exploded} (hincmp : s.incmp = false) (hlastver : s.lastver = []) (c : Constraint) :
    version_word s (c.version ++ [')']) = { s with
      inversion := false
      lastver := c.version
      r := added s.r s.lastdep (s.lastcmp ++ ' ' :: c.version) } ∧
    explode_turn (version_word s c.version) [')'] = .ok { s with
      inversion := false
      lastver := c.version
      r := added s.r s.lastdep (s.lastcmp ++ ' ' :: c.version) } := by
  have hends : c.version.getLast? ≠ some ')' := by
    intro h
    exact c.plain.no_close (List.mem_of_getLast? h)
  constructor
  · simp [version_word, hlastver, c.nonempty, added]
  · rw [turn_of_not_open _ (by simp)]
    simp [version_word, hlastver, c.nonempty, hends, hincmp, added]

theorem bracket_spec {s : Exploded} (hlastver : s.lastver = []) (b : Bracket) :
    ∃ s', b.words.foldlM explode_turn s = .ok s' ∧ Resting s' ∧ s'.r = added s.r s.lastdep b.constraint.text := by
  have hopened : ∀ v ws, (∀ c ∈ v, isspace c = false) →
      (before b.before_operator ['('] (before b.before_version b.constraint.op (v :: ws))).foldlM explode_turn s =
        (before b.before_version b.constraint.op (v :: ws)).foldlM explode_turn { s with incmp := true } := by
    intro v ws hv
    obtain ⟨hne, hplain⟩ := b.constraint.op_plain
    have hopen := op_not_open b.constraint
    cases b.before_version with
    | true => exact bracket_opened s _ hne hplain.no_space (by simpa using hopen []) (v :: ws)
    | false =>
      refine bracket_opened s _ (by simp [hne]) ?_ (hopen v) ws
      intro c hc
      exact (List.mem_append.mp hc).elim (hplain.no_space c) (hv c)
  have hread : ∀ t ws, (∀ c ∈ t, isspace c = false) →
      (before b.before_operator ['('] (before b.before_version b.constraint.op
          ((b.constraint.version ++ t) :: ws))).foldlM explode_turn s =
        ws.foldlM explode_turn (version_word { s with incmp := false, inversion := true, lastcmp := b.constraint.op }
          (b.constraint.version ++ t)) := by
    intro t ws ht
    rw [hopened, bracket_operator rfl b (by simp [b.constraint.nonempty]) (version_not_open b.constraint t)]
    · intro hblank
      have htake : (b.constraint.version ++ t).take 1 = b.constraint.version.take 1 := by
        rw [List.take_append_of_le_length (List.length_pos_iff.mpr b.constraint.nonempty)]
      rw [htake]
      exact b.apart hblank
    · intro c hc
      exact (List.mem_append.mp hc).elim (b.constraint.plain.no_space c) (ht c)
  let opened : Exploded := { s with incmp := false, inversion := true, lastcmp := b.constraint.op }
  obtain ⟨hjoined, hclosed⟩ := @bracket_version opened rfl hlastver b.constraint
  let closed : Exploded := { opened with
    inversion := false
    lastver := b.constraint.version
    r := added s.r s.lastdep b.constraint.text }
  refine ⟨closed, ?_, ⟨rfl, rfl⟩, rfl⟩
  · unfold Bracket.words
    cases b.before_close with
    | true =>
      have h := hread [] [[')']] (by simp)
      rw [List.append_nil] at h
      simp only [before, if_true] at h ⊢
      rw [h, List.foldlM_cons, hclosed]
      rfl
    | false =>
      have h := hread [')'] [] (by simp [isspace])
      simp only [before, Bool.false_eq_true, if_false] at h ⊢
      rw [h, hjoined]
      rfl

/-! ## The dict that is read -/

theorem mem_constraints_on {items : List Item} {dep : Text} {c : Constraint} :
    c ∈ constraints_on items dep ↔ ∃ i ∈ items, i.dep.name = dep ∧ i.constraint = some c := by
  unfold constraints_on
  rw [List.mem_filterMap]
  apply exists_congr
  intro i
  apply and_congr_right
  intro _
  split
  · rename_i heq
    simp [heq]
  · rename_i hne
    simp [hne]

theorem unversioned_iff {items : List Item} {dep : Text} : Unversioned items dep ↔ constraints_on items dep = [] := by
  unfold Unversioned
  rw [List.eq_nil_iff_forall_not_mem]
  constructor
  · intro h c hc
    obtain ⟨i, hi, hname, hconstraint⟩ := mem_constraints_on.mp hc
    rw [h i hi hname] at hconstraint
    cases hconstraint
  · intro h i hi hname
    rw [Option.eq_none_iff_forall_ne_some]
    intro c hc
    exact h c (mem_constraints_on.mpr ⟨i, hi, hname, hc⟩)

structure Holds (items : List Item) (r : OrderedDict (Option Text) (List Text)) : Prop where
  nodup : (r.map Prod.fst).Nodup
  keys : ∀ k, k ∈ r.map Prod.fst ↔ ∃ i ∈ items, k = some i.dep.name
  versions : ∀ x ∈ r, ∀ dep, x.1 = some dep → x.2 = asked items dep

theorem holds_nil : Holds [] [] where
  nodup := List.nodup_nil
  keys := by simp
  versions := by simp

section
variable {items : List Item} {r : OrderedDict (Option Text) (List Text)}

theorem Holds.get? (h : Holds items r) (dep : Text) : (r.get? (some dep)).getD [] = asked items dep := by
  by_cases hkey : some dep ∈ r.map Prod.fst
  · obtain ⟨vs, hvs⟩ := OrderedDict.get?_of_key hkey
    rw [hvs]
    exact h.versions _ (OrderedDict.mem_of_get? hvs) dep rfl
  · rw [OrderedDict.get?_fresh hkey]
    symm
    rw [h.keys] at hkey
    unfold asked constraints_on
    rw [Option.getD_none, List.map_eq_nil_iff, List.filterMap_eq_nil_iff]
    intro i hi
    split
    · rename_i heq
      exact absurd ⟨i, hi, by rw [heq]⟩ hkey
    · rfl

theorem asked_append (items : List Item) (i : Item) (dep : Text) :
    asked (items ++ [i]) dep = asked items dep ++
      if i.dep.name = dep then (i.constraint.map Constraint.text).toList else [] := by
  unfold asked constraints_on
  rw [List.filterMap_append, List.map_append]
  split
  · rename_i heq
    cases hc : i.constraint <;> simp [heq, hc]
  · rename_i hne
    simp [hne]

theorem Holds.set (h : Holds items r) (i : Item) :
    Holds (items ++ [i]) (r.set (some i.dep.name) (asked (items ++ [i]) i.dep.name)) where
  nodup := OrderedDict.keys_set_nodup h.nodup
  keys k := by
    rw [OrderedDict.key_set, h.keys]
    simp [or_and_right, exists_or]
  versions x hx dep hdep := by
    by_cases hkey : x.1 = some i.dep.name
    · rw [OrderedDict.eq_of_mem_set hx hkey]
      rw [hkey, Option.some_inj] at hdep
      rw [hdep]
    · rcases OrderedDict.mem_of_mem_set hx with hx | rfl
      · have hne : i.dep.name ≠ dep := by
          rintro rfl
          exact hkey hdep
        rw [h.versions x hx dep hdep, asked_append, if_neg hne, List.append_nil]
      · exact absurd rfl hkey

theorem Holds.congr {items' : List Item} (h : Holds items r)
    (hnames : ∀ dep, (∃ i ∈ items, dep = i.dep.name) ↔ ∃ i ∈ items', dep = i.dep.name)
    (hasked : ∀ dep, asked items dep = asked items' dep) : Holds items' r where
  nodup := h.nodup
  keys k := by
    rw [h.keys]
    cases k with
    | none => simp
    | some dep => simpa using hnames dep
  versions x hx dep hdep := by rw [h.versions x hx dep hdep, hasked]

theorem Holds.name {s : Exploded} (h : Holds items s.r) (dep : Name) :
    Holds (items ++ [⟨dep, none⟩]) (name_word s dep.name).r := by
  have hasked : ∀ n, asked (items ++ [⟨dep, none⟩]) n = asked items n := by
    intro n
    simp [asked_append, Item.constraint]
  unfold name_word
  rw [h.get?]
  dsimp only
  split
  · rename_i hne
    apply h.congr
    · intro n
      obtain ⟨v, hv⟩ := List.exists_mem_of_ne_nil _ hne
      obtain ⟨c, hc, -⟩ := List.mem_map.mp hv
      obtain ⟨i, hi, hname, -⟩ := mem_constraints_on.mp hc
      constructor
      · rintro ⟨j, hj, rfl⟩
        exact ⟨j, List.mem_append_left _ hj, rfl⟩
      · rintro ⟨j, hj, rfl⟩
        rcases List.mem_append.mp hj with hj | hj
        · exact ⟨j, hj, rfl⟩
        · rw [List.mem_singleton.mp hj]
          exact ⟨i, hi, hname.symm⟩
    · intro n
      exact (hasked n).symm
  · rename_i hempty
    rw [not_not] at hempty
    have hset := h.set ⟨dep, none⟩
    rwa [hasked, hempty] at hset

theorem Holds.bracket {s : Exploded} {dep : Name} (h : Holds (items ++ [⟨dep, none⟩]) s.r) (b : Bracket) :
    Holds (items ++ [⟨dep, some b⟩]) (added s.r (some dep.name) b.constraint.text) := by
  have hasked : ∀ n, asked (items ++ [⟨dep, none⟩] ++ [⟨dep, some b⟩]) n = asked (items ++ [⟨dep, some b⟩]) n := by
    intro n
    rw [asked_append, asked_append, asked_append]
    simp [Item.constraint]
  have hset := h.set ⟨dep, some b⟩
  have hvalue : asked (items ++ [⟨dep, none⟩] ++ [⟨dep, some b⟩]) dep.name =
      asked (items ++ [⟨dep, none⟩]) dep.name ++ [b.constraint.text] := by
    rw [asked_append, if_pos rfl]
    simp [Item.constraint]
  rw [hvalue] at hset
  unfold added
  rw [h.get?]
  refine hset.congr ?_ hasked
  intro n
  simp [or_and_right, exists_or]

theorem item_spec {s : Exploded} (hs : Resting s) (h : Holds items s.r) (i : Item) :
    ∃ s', i.words.foldlM explode_turn s = .ok s' ∧ Resting s' ∧ Holds (items ++ [i]) s'.r := by
  obtain ⟨dep, bracket⟩ := i
  have hname := h.name dep
  unfold Item.words
  rw [List.foldlM_cons, turn_name hs]
  cases bracket with
  | none => exact ⟨_, rfl, ⟨hs.incmp, hs.inversion⟩, hname⟩
  | some b =>
    obtain ⟨s', hfold, hs', hr⟩ := bracket_spec (s := name_word s dep.name) rfl b
    refine ⟨s', hfold, hs', ?_⟩
    rw [hr]
    exact hname.bracket b

end

theorem items_spec {read : List Item} (items : List Item) {s : Exploded} (hs : Resting s) (h : Holds read s.r) :
    ∃ s', (items.flatMap Item.words).foldlM explode_turn s = .ok s' ∧ Holds (read ++ items) s'.r := by
  induction items generalizing read s with
  | nil => exact ⟨s, rfl, by simpa using h⟩
  | cons i items ih =>
    obtain ⟨s₁, hfold₁, hs₁, h₁⟩ := item_spec hs h i
    obtain ⟨s₂, hfold₂, h₂⟩ := ih hs₁ h₁
    refine ⟨s₂, ?_, by simpa using h₂⟩
    rw [List.flatMap_cons, List.foldlM_append, hfold₁]
    exact hfold₂

/-- The names in their order, each with its constraints. -/
structure Sorted (items : List Item) (deps : List Text) : Prop where
  sorted : deps.Pairwise (· < ·)
  mem : ∀ dep, dep ∈ deps ↔ ∃ i ∈ items, dep = i.dep.name

theorem Holds.sorted {items : List Item} {r : OrderedDict (Option Text) (List Text)} (h : Holds items r) :
    ∃ deps, Sorted items deps ∧ sorted_items r = .ok (deps.map fun dep => (some dep, asked items dep)) := by
  have hnone : none ∉ r.map Prod.fst := by
    rw [h.keys]
    simp
  have hperm := sort_by_perm (fun x : Option Text × List Text => x.1.getD []) r
  have hentry : ∀ x ∈ r, x = (some (x.1.getD []), asked items (x.1.getD [])) := by
    rintro ⟨k, vs⟩ hx
    cases k with
    | none => exact absurd (List.mem_map_of_mem hx) hnone
    | some dep => simp [← h.versions _ hx dep rfl]
  refine ⟨(sort_by (fun x => x.1.getD []) r).map fun x => x.1.getD [], ⟨?_, ?_⟩, ?_⟩
  · rw [List.pairwise_map]
    have hstable := sort_by_stable (fun x : Option Text × List Text => x.1.getD []) (List.pairwise_map.mp h.nodup)
    refine hstable.imp_of_mem ?_
    intro x y hx hy hxy
    apply lt_of_le_of_ne hxy.1
    intro heq
    apply hxy.2 heq.ge
    rw [hentry x (hperm.mem_iff.mp hx), hentry y (hperm.mem_iff.mp hy), heq]
  · intro dep
    rw [(hperm.map _).mem_iff, List.mem_map]
    constructor
    · rintro ⟨x, hx, rfl⟩
      obtain ⟨i, hi, hkey⟩ := (h.keys x.1).mp (List.mem_map_of_mem hx)
      exact ⟨i, hi, by rw [hkey, Option.getD_some]⟩
    · rintro ⟨i, hi, rfl⟩
      obtain ⟨x, hx, hkey⟩ := List.mem_map.mp ((h.keys (some i.dep.name)).mpr ⟨i, hi, rfl⟩)
      exact ⟨x, hx, by rw [hkey, Option.getD_some]⟩
  · unfold sorted_items
    rw [if_neg (by simp [hnone]), List.map_map]
    apply congrArg
    change sort_by _ r = _
    conv_lhs => rw [← List.map_id (sort_by _ r)]
    apply List.map_congr_left
    intro x hx
    exact hentry x (hperm.mem_iff.mp hx)

theorem explode_spec {items : List Item} {s : Text} (h : Spells items s) :
    ∃ deps, Sorted items deps ∧
      explode_dep_versions2 s true = .ok (deps.map fun dep => (some dep, asked items dep)) := by
  obtain ⟨s', hfold, hholds⟩ := items_spec items (s := ⟨[], none, [], [], false, false⟩) ⟨rfl, rfl⟩ holds_nil
  obtain ⟨deps, hsorted, hitems⟩ := hholds.sorted
  refine ⟨deps, hsorted, ?_⟩
  unfold explode_dep_versions2
  unfold Spells at h
  simp only [h, hfold, bind, Except.bind, if_true]
  exact hitems

theorem Spells.asked_eq {items items' : List Item} {s : Text} (h : Spells items s) (h' : Spells items' s) (dep : Text) :
    asked items dep = asked items' dep := by
  obtain ⟨e, hfold, hholds⟩ := items_spec items (s := ⟨[], none, [], [], false, false⟩) ⟨rfl, rfl⟩ holds_nil
  obtain ⟨e', hfold', hholds'⟩ := items_spec items' (s := ⟨[], none, [], [], false, false⟩) ⟨rfl, rfl⟩ holds_nil
  have hsame : e = e' := by
    rw [← h] at hfold
    rw [← h', hfold] at hfold'
    exact Except.ok.inj hfold'
  subst hsame
  exact (hholds.get? dep).symm.trans (hholds'.get? dep)

theorem Constraint.text_injective {c c' : Constraint} (h : c.text = c'.text) : c = c' := by
  have hwords : ∀ c : Constraint, words c.text = [c.op, c.version] := by
    intro c
    obtain ⟨hne, hop⟩ := c.op_plain
    unfold Constraint.text
    rw [words_cons ⟨hne, hop.no_space⟩ rfl, word_of_part c.nonempty c.plain.no_space]
  have heq := congrArg words h
  rw [hwords, hwords] at heq
  cases c
  cases c'
  simpa using heq

/-! ## The dict with the new names -/

section
variable {items : List Item} {new : Text → Name}

/-- The names in their order, each under its new name. -/
def met (new : Text → Name) (items : List Item) (deps : List Text) : OrderedDict (Option Text) (List Text) :=
  deps.foldl (fun r dep => r.set (some (new dep).name) (asked items dep)) []

theorem met_spec {deps : List Text} (h : deps.Pairwise (· < ·)) :
    ((met new items deps).map Prod.fst).Nodup ∧
      (∀ x ∈ met new items deps, ∃ dep ∈ deps, x = (some (new dep).name, asked items dep) ∧
        ∀ e ∈ deps, (new e).name = (new dep).name → e ≤ dep) ∧
      ∀ dep ∈ deps, some (new dep).name ∈ (met new items deps).map Prod.fst := by
  induction deps using List.reverseRecOn with
  | nil => simp [met]
  | append_singleton deps last ih =>
    rw [List.pairwise_append] at h
    obtain ⟨hdeps, -, hlast⟩ := h
    obtain ⟨hnodup, hmem, hkeys⟩ := ih hdeps
    have hmet : met new items (deps ++ [last]) =
        (met new items deps).set (some (new last).name) (asked items last) := by
      simp [met, List.foldl_append]
    rw [hmet]
    refine ⟨OrderedDict.keys_set_nodup hnodup, ?_, ?_⟩
    · intro x hx
      by_cases hkey : x.1 = some (new last).name
      · refine ⟨last, by simp, Prod.ext hkey (OrderedDict.eq_of_mem_set hx hkey), ?_⟩
        intro e he _
        rcases List.mem_append.mp he with he | he
        · exact (hlast e he last (List.mem_singleton_self last)).le
        · exact (List.mem_singleton.mp he).le
      · rcases OrderedDict.mem_of_mem_set hx with hx | rfl
        · obtain ⟨dep, hdep, rfl, hgreatest⟩ := hmem x hx
          refine ⟨dep, List.mem_append_left _ hdep, rfl, ?_⟩
          intro e he hname
          rcases List.mem_append.mp he with he | he
          · exact hgreatest e he hname
          · rw [List.mem_singleton.mp he] at hname
            exact absurd (by rw [hname]) hkey
        · exact absurd rfl hkey
    · intro dep hdep
      rw [OrderedDict.key_set]
      rcases List.mem_append.mp hdep with hdep | hdep
      · exact Or.inl (hkeys dep hdep)
      · rw [List.mem_singleton.mp hdep]
        exact Or.inr rfl

theorem rename_turns {read_subpkgdata : PackageData} {pkg : Text} {d : Datastore} {deps : List Text}
    (hnew : ∀ dep ∈ deps, get_package_mapping read_subpkgdata (some dep) pkg d (some (asked items dep)) =
      .ok (some (new dep).name)) :
    (deps.map fun dep => (some dep, asked items dep)).foldlM (rename_turn read_subpkgdata pkg d) [] =
      .ok (met new items deps) := by
  unfold met
  generalize ([] : OrderedDict (Option Text) (List Text)) = r
  induction deps generalizing r with
  | nil => rfl
  | cons dep deps ih =>
    rw [List.forall_mem_cons] at hnew
    rw [List.map_cons, List.foldlM_cons]
    have hturn : rename_turn read_subpkgdata pkg d r (some dep, asked items dep) =
        .ok (OrderedDict.set r (some (new dep).name) (asked items dep)) := by
      simp [rename_turn, hnew.1]
      rfl
    rw [hturn]
    exact ih hnew.2 _

/-- What `join_deps` is given: the names that are kept, under their new names. -/
def kept_deps (new : Text → Name) (items : List Item) (kept : List Text) : OrderedDict Text Versions :=
  kept.map fun dep => ((new dep).name, .many (asked items dep))

theorem named_kept (kept : List Text) :
    named (kept.map fun dep => (some (new dep).name, asked items dep)) = .ok (kept_deps new items kept) := by
  unfold named kept_deps
  induction kept with
  | nil => rfl
  | cons dep kept ih =>
    rw [List.map_cons, List.mapM_cons, ih]
    rfl

/-- The names that are kept: of those that meet, the last. -/
structure Kept (new : Text → Name) (items : List Item) (kept : List Text) : Prop where
  nodup : (kept.map fun dep => (new dep).name).Nodup
  last : ∀ dep ∈ kept, (∃ i ∈ items, dep = i.dep.name) ∧ Last new items dep
  all : ∀ i ∈ items, ∃ dep ∈ kept, (new dep).name = (new i.dep.name).name

theorem exists_map {α β : Type} {f : α → β} {p : α → Prop} {l : List β} (h : ∀ x ∈ l, ∃ a, p a ∧ x = f a) :
    ∃ as : List α, (∀ a ∈ as, p a) ∧ l = as.map f := by
  induction l with
  | nil => exact ⟨[], by simp, rfl⟩
  | cons x l ih =>
    rw [List.forall_mem_cons] at h
    obtain ⟨⟨a, ha, rfl⟩, hrest⟩ := h
    obtain ⟨as, has, rfl⟩ := ih hrest
    exact ⟨a :: as, List.forall_mem_cons.mpr ⟨ha, has⟩, rfl⟩

theorem rename_spec {read_subpkgdata : PackageData} {varname pkg : Text} {d : Datastore}
    (hs : Spells items ((d.getVar varname).getD []))
    (hnew : ∀ i ∈ items, get_package_mapping read_subpkgdata (some i.dep.name) pkg d
      (some (asked items i.dep.name)) = .ok (some (new i.dep.name).name)) :
    ∃ kept, Kept new items kept ∧ runtime_mapping_rename read_subpkgdata varname pkg d =
      .ok (d.setVar varname (join_deps (kept_deps new items kept) false)) := by
  obtain ⟨deps, hsorted, hexplode⟩ := explode_spec hs
  obtain ⟨hnodup, hmem, hkeys⟩ := @met_spec items new deps hsorted.sorted
  have himages : ∀ x ∈ met new items deps, ∃ dep, (dep ∈ deps ∧ Last new items dep) ∧
      x = (some (new dep).name, asked items dep) := by
    intro x hx
    obtain ⟨dep, hdep, heq, hgreatest⟩ := hmem x hx
    refine ⟨dep, ⟨hdep, ?_⟩, heq⟩
    intro i hi hname
    exact hgreatest _ ((hsorted.mem _).mpr ⟨i, hi, rfl⟩) hname
  obtain ⟨kept, hkept, hmet⟩ := exists_map himages
  rw [hmet, List.map_map] at hnodup hkeys
  refine ⟨kept, ⟨?_, ?_, ?_⟩, ?_⟩
  · exact (List.pairwise_map.mpr ((List.pairwise_map.mp hnodup).imp fun hne heq => hne (congrArg some heq)))
  · intro dep hdep
    exact ⟨(hsorted.mem dep).mp (hkept dep hdep).1, (hkept dep hdep).2⟩
  · intro i hi
    obtain ⟨dep, hdep, hname⟩ := List.mem_map.mp (hkeys _ ((hsorted.mem _).mpr ⟨i, hi, rfl⟩))
    exact ⟨dep, hdep, Option.some_inj.mp hname⟩
  · have hturns : (deps.map fun dep => (some dep, asked items dep)).foldlM (rename_turn read_subpkgdata pkg d) [] =
        .ok (met new items deps) := by
      apply rename_turns
      intro dep hdep
      obtain ⟨i, hi, rfl⟩ := (hsorted.mem dep).mp hdep
      exact hnew i hi
    unfold runtime_mapping_rename
    simp only [hexplode, bind, Except.bind, hturns, hmet, named_kept]

/-! ## What is written -/

/-- A name and its constraints, as `join_deps` writes them. -/
def written (n : Name) (cs : List Constraint) : List Item :=
  if cs = [] then [⟨n, none⟩] else cs.map fun c => ⟨n, some ⟨c, false, true, false, by simp⟩⟩

theorem words_written (n : Name) (cs : List Constraint) : (written n cs).flatMap Item.words = entry_words n cs := by
  unfold written entry_words
  split
  · rfl
  · rw [List.flatMap_map]
    rfl

theorem mem_written {n : Name} {cs : List Constraint} {j : Item} (h : j ∈ written n cs) :
    j.dep = n ∧ (j.constraint = none ∧ cs = [] ∨ ∃ c ∈ cs, j.constraint = some c) := by
  unfold written at h
  split at h
  · rename_i hnil
    rw [List.mem_singleton.mp h]
    exact ⟨rfl, Or.inl ⟨rfl, hnil⟩⟩
  · obtain ⟨c, hc, rfl⟩ := List.mem_map.mp h
    exact ⟨rfl, Or.inr ⟨c, hc, rfl⟩⟩

theorem exists_written (n : Name) (cs : List Constraint) : ∃ j ∈ written n cs, j.dep = n := by
  unfold written
  split
  · exact ⟨_, List.mem_singleton_self _, rfl⟩
  · rename_i hne
    obtain ⟨c, hc⟩ := List.exists_mem_of_ne_nil _ hne
    exact ⟨_, List.mem_map_of_mem hc, rfl⟩

theorem written_of_mem {n : Name} {cs : List Constraint} {c : Constraint} (h : c ∈ cs) :
    ∃ j ∈ written n cs, j.dep = n ∧ j.constraint = some c := by
  unfold written
  rw [if_neg (List.ne_nil_of_mem h)]
  exact ⟨_, List.mem_map_of_mem h, rfl, rfl⟩

def all_written (new : Text → Name) (items : List Item) (kept : List Text) : List Item :=
  kept.flatMap fun dep => written (new dep) (constraints_on items dep)

theorem spells_written {kept : List Text} (h : Kept new items kept) :
    Spells (all_written new items kept) (join_deps (kept_deps new items kept) false) := by
  let m : Requirements := ⟨kept.map fun dep => (new dep, constraints_on items dep), by
    rw [List.map_map]
    exact h.nodup⟩
  have hdeps : kept_deps new items kept = m.deps := by
    simp [kept_deps, Requirements.deps, m, asked]
  unfold Spells all_written
  rw [hdeps, words_join_deps, List.flatMap_assoc, List.flatMap_map]
  simp only [words_written]

theorem mem_all_written {kept : List Text} {x : Text} {c : Constraint} :
    c ∈ constraints_on (all_written new items kept) x ↔
      ∃ dep ∈ kept, (new dep).name = x ∧ c ∈ constraints_on items dep := by
  rw [mem_constraints_on]
  unfold all_written
  constructor
  · rintro ⟨j, hj, hname, hconstraint⟩
    obtain ⟨dep, hdep, hj⟩ := List.mem_flatMap.mp hj
    obtain ⟨hdep_eq, ⟨hnone, -⟩ | ⟨c', hc', hsome⟩⟩ := mem_written hj
    · rw [hnone] at hconstraint
      cases hconstraint
    · rw [hsome, Option.some_inj] at hconstraint
      rw [hdep_eq] at hname
      exact ⟨dep, hdep, hname, hconstraint ▸ hc'⟩
  · rintro ⟨dep, hdep, hname, hc⟩
    obtain ⟨j, hj, hjdep, hconstraint⟩ := written_of_mem (n := new dep) hc
    exact ⟨j, List.mem_flatMap.mpr ⟨dep, hdep, hj⟩, by rw [hjdep, hname], hconstraint⟩

theorem renamed_of_last {kept : List Text} (h : Kept new items kept) (hlast : LastHasAll new items) :
    Renamed new items (all_written new items kept) where
  constraints i hi c hc := by
    obtain ⟨dep, hdep, hname⟩ := h.all i hi
    obtain ⟨⟨e, he, rfl⟩, hgreatest⟩ := h.last dep hdep
    have hmem : c ∈ constraints_on items e.dep.name :=
      mem_constraints_on.mpr (hlast i hi c hc e he hgreatest hname.symm)
    exact mem_constraints_on.mp (mem_all_written.mpr ⟨e.dep.name, hdep, hname, hmem⟩)
  unversioned i hi _ := by
    obtain ⟨dep, hdep, hname⟩ := h.all i hi
    obtain ⟨j, hj, hjdep⟩ := exists_written (new dep) (constraints_on items dep)
    exact ⟨j, List.mem_flatMap.mpr ⟨dep, hdep, hj⟩, by rw [hjdep, hname]⟩
  nothing_else j hj := by
    obtain ⟨dep, hdep, hj⟩ := List.mem_flatMap.mp hj
    obtain ⟨⟨i, hi, rfl⟩, -⟩ := h.last dep hdep
    obtain ⟨hjdep, ⟨hnone, hnil⟩ | ⟨c, hc, hsome⟩⟩ := mem_written hj
    · have hunversioned := unversioned_iff.mpr hnil
      exact ⟨i, hi, by rw [hjdep], by rw [hnone, hunversioned i hi rfl], fun _ => hunversioned⟩
    · obtain ⟨k, hk, hname, hconstraint⟩ := mem_constraints_on.mp hc
      refine ⟨k, hk, by rw [hjdep, hname], by rw [hsome, hconstraint], ?_⟩
      intro hnone
      rw [hsome] at hnone
      cases hnone

theorem last_of_renamed {kept : List Text} (h : Kept new items kept) {items' : List Item}
    (hs : Spells items' (join_deps (kept_deps new items kept) false)) (hrenamed : Renamed new items items') :
    LastHasAll new items := by
  intro i hi c hc e he hgreatest hmeet
  obtain ⟨j, hj, hname, hconstraint⟩ := hrenamed.constraints i hi c hc
  have htext : c.text ∈ asked (all_written new items kept) (new i.dep.name).name := by
    rw [← hs.asked_eq (spells_written h)]
    exact List.mem_map_of_mem (mem_constraints_on.mpr ⟨j, hj, hname, hconstraint⟩)
  obtain ⟨c', hc', htext⟩ := List.mem_map.mp htext
  obtain rfl := Constraint.text_injective htext
  obtain ⟨dep, hdep, hdep_name, hmem⟩ := mem_all_written.mp hc'
  obtain ⟨⟨k, hk, rfl⟩, hgreatest'⟩ := h.last dep hdep
  -- two names that are the last with one new name are the same
  have hsame : k.dep.name = e.dep.name :=
    le_antisymm (hgreatest k hk (by rw [hdep_name, hmeet])) (hgreatest' e he (by rw [hdep_name, hmeet]))
  rw [hsame] at hmem
  exact mem_constraints_on.mp hmem

end

/-- The dependencies are there under their new names, each with its constraints and nothing else, where
of the names that meet the last one has all the constraints of the others. -/
theorem constraints_are_kept_iff {read_subpkgdata : PackageData} {varname pkg : Text} {d : Datastore}
    {items : List Item} (hs : Spells items ((d.getVar varname).getD [])) (new : Text → Name)
    (hnew : ∀ i ∈ items, get_package_mapping read_subpkgdata (some i.dep.name) pkg d
      (some (asked items i.dep.name)) = .ok (some (new i.dep.name).name)) :
    (∃ d' s' items', runtime_mapping_rename read_subpkgdata varname pkg d = .ok d' ∧ d'.getVar varname = some s' ∧
      Spells items' s' ∧ Renamed new items items') ↔ LastHasAll new items := by
  obtain ⟨kept, hkept, hrename⟩ := rename_spec hs hnew
  have hvalue : (d.setVar varname (join_deps (kept_deps new items kept) false)).getVar varname =
      some (join_deps (kept_deps new items kept) false) := OrderedDict.get?_set_self _ _ _
  constructor
  · rintro ⟨d', s', items', hrun, hget, hspells, hrenamed⟩
    rw [hrename, Except.ok.injEq] at hrun
    subst hrun
    rw [hvalue, Option.some_inj] at hget
    subst hget
    exact last_of_renamed hkept hspells hrenamed
  · intro hlast
    exact ⟨_, _, _, hrename, hvalue, spells_written hkept, renamed_of_last hkept hlast⟩

/-! ## Two names that meet -/

def plain_name (s : String) (h : text s ≠ [] ∧ (text s).all fun c => !isspace c && c ∉ [',', '(', ')']) : Name where
  name := text s
  nonempty := h.1
  plain := by
    have hall := List.all_eq_true.mp h.2
    simp only [Bool.and_eq_true, Bool.not_eq_true', decide_eq_true_iff] at hall
    exact ⟨fun c hc => (hall c hc).1, fun hc => (hall _ hc).2 (by simp), fun hc => (hall _ hc).2 (by simp),
      fun hc => (hall _ hc).2 (by simp)⟩

def zlib : Name := plain_name "zlib" (by decide)

def zlib1 : Name := plain_name "zlib1" (by decide)

def at_least : Constraint where
  op := text ">="
  version := text "1.2"
  known := by decide
  nonempty := by decide
  plain := (plain_name "1.2" (by decide)).plain

def needs_zlib : Item := ⟨zlib, some ⟨at_least, false, true, false, by decide⟩⟩

def built : PackageData := fun pkg => if pkg = text "zlib" then [(text "PKG:zlib", text "zlib1")] else []

def depends_on (s : String) : Datastore := ⟨[], [(text "RDEPENDS", text s)]⟩

theorem one_constraint_is_kept :
    ∃ d' s' items', runtime_mapping_rename built (text "RDEPENDS") (text "app") (depends_on "zlib (>= 1.2)") =
        .ok d' ∧ d'.getVar (text "RDEPENDS") = some s' ∧ Spells items' s' ∧ Renamed (fun _ => zlib1) [needs_zlib] items' := by
  have hspells : Spells [needs_zlib] (((depends_on "zlib (>= 1.2)").getVar (text "RDEPENDS")).getD []) := by
    unfold Spells
    decide
  apply (constraints_are_kept_iff hspells _ (by decide)).mpr
  intro i hi c hc e he _ _
  rw [List.mem_singleton.mp hi] at hc
  rw [List.mem_singleton.mp he]
  exact ⟨needs_zlib, List.mem_singleton_self _, rfl, hc⟩

/-- The constraint on zlib is lost where zlib1 is there under its own name too. -/
theorem the_first_constraint_is_lost :
    Spells [⟨zlib1, none⟩, needs_zlib] (text "zlib1 zlib (>= 1.2)") ∧
    (∀ i ∈ [⟨zlib1, none⟩, needs_zlib], get_package_mapping built (some i.dep.name) (text "app")
      (depends_on "zlib1 zlib (>= 1.2)") (some (asked [⟨zlib1, none⟩, needs_zlib] i.dep.name)) =
        .ok (some zlib1.name)) ∧
    ¬ ∃ d' s' items', runtime_mapping_rename built (text "RDEPENDS") (text "app") (depends_on "zlib1 zlib (>= 1.2)") =
        .ok d' ∧ d'.getVar (text "RDEPENDS") = some s' ∧ Spells items' s' ∧
      Renamed (fun _ => zlib1) [⟨zlib1, none⟩, needs_zlib] items' := by
  refine ⟨by unfold Spells; decide, by decide, ?_⟩
  rintro ⟨d', s', items', hrun, hget, hspells, hrenamed⟩
  have hvalue : (runtime_mapping_rename built (text "RDEPENDS") (text "app")
      (depends_on "zlib1 zlib (>= 1.2)")).toOption.bind (·.getVar (text "RDEPENDS")) = some (text "zlib1") := by
    decide
  rw [hrun] at hvalue
  obtain rfl : s' = text "zlib1" := by simpa [Except.toOption, hget] using hvalue
  obtain ⟨j, hj, hname, hconstraint⟩ := hrenamed.constraints needs_zlib (by simp) at_least rfl
  have hbare : Spells [⟨zlib1, none⟩] (text "zlib1") := by
    unfold Spells
    decide
  have hlost := hspells.asked_eq hbare zlib1.name
  have hmem : at_least.text ∈ asked items' zlib1.name :=
    List.mem_map_of_mem (mem_constraints_on.mpr ⟨j, hj, hname, hconstraint⟩)
  rw [hlost] at hmem
  simp [asked, constraints_on, Item.constraint] at hmem

end yocto.renamed_dependencies
