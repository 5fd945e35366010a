-- Dependency strings (bb.utils), as RDEPENDS holds them: names, each with the versions that
-- are asked of it in brackets.
import Yocto.FreshKeys
import Yocto.PythonInt
import Yocto.TextLines

open yocto.task_ids yocto.ordered_dict yocto.data_smart yocto.text_lines yocto.python_int

namespace yocto.dependency_strings

/-! ## Reading -/

/-- One turn of `explode_deps`: the names so far, and whether it is in brackets. -/
def explode_deps_turn (s : List Text × Bool) (i : Text) : List Text × Bool :=
  let flag := s.2 || decide (i.head? = some '(')
  (if flag then s.1 else s.1 ++ [i], flag && !decide (i.getLast? = some ')'))

def explode_deps (s : Text) : List Text := ((words s).foldl explode_deps_turn ([], false)).1

structure Exploded where
  r : OrderedDict (Option Text) (List Text)
  lastdep : Option Text
  lastcmp : Text
  lastver : Text
  incmp : Bool
  inversion : Bool
  deriving DecidableEq

inductive Raised
  | version_string_exception (message : Text)
  | type_error
  deriving DecidableEq

def two_character_operators : List Text :=
  ["<=", "=<", "<<", "==", "!=", ">=", "=>", ">>"].map text

def one_character_operators : List Text := ["<", ">", "="].map text

/-- The operator at the start of a word, and what follows it. -/
def operator (i : Text) : Option (Text × Text) :=
  if two_character_operators.any (· <+: i) then some (i.take 2, i.drop 2)
  else if one_character_operators.any (· <+: i) then some (i.take 1, i.drop 1)
  else none

/-- A word of a version: the block under `if inversion`. -/
def version_word (s : Exploded) (i : Text) : Exploded :=
  let ends := decide (i.getLast? = some ')')
  let part := if ends then i.dropLast else i
  let lastver := if ends ∧ s.lastver ≠ [] ∧ part ≠ [] then s.lastver ++ [' '] else s.lastver
  let s := { s with inversion := !ends, lastver }
  if part = [] then s
  else
    let lastver := s.lastver ++ part
    { s with
      lastver
      r := s.r.set s.lastdep ((s.r.get? s.lastdep).getD [] ++ [s.lastcmp ++ ' ' :: lastver]) }

def name_word (s : Exploded) (i : Text) : Exploded :=
  { s with
    lastdep := some i
    lastver := []
    lastcmp := []
    r := if ((s.r.get? (some i)).getD []) ≠ [] then s.r else s.r.set (some i) [] }

/-- The first word in brackets, or the one behind a bracket that stands alone. -/
def operator_word (s : Exploded) (i : Text) : Except Raised Exploded :=
  let s := { s with incmp := false, inversion := true }
  match operator i with
  | none => .error (.version_string_exception (text "Invalid version specification in \"(" ++ i ++
      text "\" - invalid or missing operator"))
  | some (lastcmp, i) =>
    let s := { s with lastcmp }
    .ok (if i = [] then s else version_word s i)

def explode_turn (s : Exploded) (i : Text) : Except Raised Exploded :=
  let opens := decide (i.head? = some '(')
  let i := if opens then strip (i.drop 1) else i
  let s := { s with incmp := s.incmp || opens }
  if opens ∧ i = [] then .ok s
  else if s.incmp then operator_word s i
  else if s.inversion then .ok (version_word s i)
  else .ok (name_word s i)

/-- `sorted(r.items(), key=lambda x: x[0])`. None does not compare with a name. -/
def sorted_items (r : OrderedDict (Option Text) (List Text)) :
    Except Raised (OrderedDict (Option Text) (List Text)) :=
  if none ∈ r.map Prod.fst ∧ 2 ≤ r.length then .error .type_error
  else .ok (r.insertionSort fun a b => a.1.getD [] ≤ b.1.getD [])

def explode_dep_versions2 (s : Text) (sort : Bool) :
    Except Raised (OrderedDict (Option Text) (List Text)) := do
  let start : Exploded := ⟨[], none, [], [], false, false⟩
  let s ← (words (s.filter (· ≠ ','))).foldlM explode_turn start
  if sort then sorted_items s.r else .ok s.r

/-! ## Writing -/

/-- What `join_deps` may find for a name: None, one version, or a list of them. -/
inductive Versions
  | none
  | one (v : Text)
  | many (vs : List Text)

def with_version (dep v : Text) : Text := dep ++ text " (" ++ v ++ text ")"

def join_dep (dep : Text) : Versions → List Text
  | .none => [dep]
  | .one v => if v = [] then [dep] else [with_version dep v]
  | .many vs => if vs = [] then [dep] else vs.map (with_version dep)

def join_deps (deps : OrderedDict Text Versions) (commasep : Bool) : Text :=
  let result := deps.flatMap fun x => join_dep x.1 x.2
  if commasep then (text ", ").intercalate result else (text " ").intercalate result

/-! ## Names and constraints -/

/-- A text without white space, commas and brackets. -/
structure Plain (w : Text) : Prop where
  no_space : ∀ c ∈ w, isspace c = false
  no_comma : ',' ∉ w
  no_open : '(' ∉ w
  no_close : ')' ∉ w

structure Name where
  name : Text
  nonempty : name ≠ []
  plain : Plain name

structure Constraint where
  op : Text
  version : Text
  known : op ∈ two_character_operators ++ one_character_operators
  nonempty : version ≠ []
  plain : Plain version

def Constraint.text (c : Constraint) : Text := c.op ++ ' ' :: c.version

/-- A mapping from names to lists of constraints. -/
structure Requirements where
  entries : List (Name × List Constraint)
  distinct : (entries.map fun x => x.1.name).Nodup

def Requirements.deps (m : Requirements) : OrderedDict Text Versions :=
  m.entries.map fun x => (x.1.name, .many (x.2.map Constraint.text))

/-- What `explode_dep_versions2` should give. -/
def Requirements.exploded (m : Requirements) : OrderedDict (Option Text) (List Text) :=
  m.entries.map fun x => (some x.1.name, x.2.map Constraint.text)

/-- The names, once for each constraint, and once when there is none. -/
def Requirements.names (m : Requirements) : List Text :=
  m.entries.flatMap fun x => List.replicate (max 1 x.2.length) x.1.name

/-! ## The words that are written -/

def Constraint.words (c : Constraint) : List Text := ['(' :: c.op, c.version ++ [')']]

def entry_words (n : Name) (cs : List Constraint) : List Text :=
  if cs = [] then [n.name] else cs.flatMap fun c => n.name :: c.words

theorem Constraint.op_plain (c : Constraint) : c.op ≠ [] ∧ Plain c.op := by
  have hall : ∀ op ∈ two_character_operators ++ one_character_operators,
      op ≠ [] ∧ (op.all fun x => !isspace x) ∧ ',' ∉ op ∧ '(' ∉ op ∧ ')' ∉ op := by decide
  obtain ⟨hne, hspace, hcomma, hopen, hclose⟩ := hall c.op c.known
  exact ⟨hne, by simpa using hspace, hcomma, hopen, hclose⟩

theorem word_of_part {w : Text} (hne : w ≠ []) (h : ∀ c ∈ w, isspace c = false) : words w = [w] := by
  rw [words_of_part h, if_neg hne]

theorem words_with_version (n : Name) (c : Constraint) :
    words (with_version n.name c.text) = n.name :: c.words := by
  obtain ⟨hne, hop⟩ := c.op_plain
  have hform : with_version n.name c.text =
      n.name ++ ' ' :: (('(' :: c.op) ++ ' ' :: (c.version ++ [')'])) := by
    simp [with_version, Constraint.text, task_ids.text]
  have hopen : ∀ x ∈ '(' :: c.op, isspace x = false := by
    intro x hx
    rcases List.mem_cons.mp hx with rfl | hx
    · rfl
    · exact hop.no_space x hx
  have hclose : ∀ x ∈ c.version ++ [')'], isspace x = false := by
    intro x hx
    rcases List.mem_append.mp hx with hx | hx
    · exact c.plain.no_space x hx
    · rw [List.mem_singleton.mp hx]
      rfl
  rw [hform, words_cons ⟨n.nonempty, n.plain.no_space⟩ rfl, words_cons ⟨by simp, hopen⟩ rfl,
    word_of_part (by simp) hclose]
  rfl

theorem words_intercalate (parts : List Text) :
    words ([' '].intercalate parts) = parts.flatMap words := by
  induction parts with
  | nil => exact words_nil
  | cons part parts ih =>
    cases parts with
    | nil => simp
    | cons next parts =>
      rw [List.intercalate_cons_cons, List.flatMap_cons, ← ih, List.append_assoc]
      exact words_append_space (by decide) part _

theorem filter_comma {w : Text} (h : ',' ∉ w) : w.filter (· ≠ ',') = w := by
  rw [List.filter_eq_self]
  intro c hc
  rw [decide_eq_true_iff]
  rintro rfl
  exact h hc

theorem filter_intercalate {sep : Text} (hsep : sep.filter (· ≠ ',') = [' ']) {parts : List Text}
    (h : ∀ part ∈ parts, ',' ∉ part) : (sep.intercalate parts).filter (· ≠ ',') = [' '].intercalate parts := by
  induction parts with
  | nil => rfl
  | cons part parts ih =>
    rw [List.forall_mem_cons] at h
    cases parts with
    | nil =>
      rw [List.intercalate_singleton, List.intercalate_singleton]
      exact filter_comma h.1
    | cons next parts =>
      rw [List.intercalate_cons_cons, List.intercalate_cons_cons, List.filter_append, List.filter_append,
        filter_comma h.1, hsep, ih h.2]

def Requirements.parts (m : Requirements) : List Text :=
  m.deps.flatMap fun x => join_dep x.1 x.2

theorem words_join_dep (n : Name) (cs : List Constraint) :
    (join_dep n.name (.many (cs.map Constraint.text))).flatMap words = entry_words n cs := by
  unfold join_dep entry_words
  cases cs with
  | nil => simp [word_of_part n.nonempty n.plain.no_space]
  | cons c cs => simp [List.flatMap_map, words_with_version]

theorem words_parts (m : Requirements) :
    m.parts.flatMap words = m.entries.flatMap fun x => entry_words x.1 x.2 := by
  unfold Requirements.parts Requirements.deps
  rw [List.flatMap_assoc, List.flatMap_map]
  apply List.flatMap_congr
  intro x _
  exact words_join_dep x.1 x.2

theorem parts_no_comma (m : Requirements) : ∀ part ∈ m.parts, ',' ∉ part := by
  intro part hpart
  simp only [Requirements.parts, Requirements.deps, List.flatMap_map, List.mem_flatMap] at hpart
  obtain ⟨⟨n, cs⟩, -, hpart⟩ := hpart
  unfold join_dep at hpart
  dsimp only at hpart
  split at hpart
  · rw [List.mem_singleton.mp hpart]
    exact n.plain.no_comma
  · simp only [List.map_map, List.mem_map] at hpart
    obtain ⟨c, -, rfl⟩ := hpart
    simp [with_version, Constraint.text, task_ids.text, n.plain.no_comma, c.op_plain.2.no_comma,
      c.plain.no_comma]

theorem words_join_deps (m : Requirements) (commasep : Bool) :
    words ((join_deps m.deps commasep).filter (· ≠ ',')) = m.entries.flatMap fun x => entry_words x.1 x.2 := by
  rw [← words_parts, ← words_intercalate]
  apply congrArg words
  cases commasep with
  | true => exact filter_intercalate (by decide) (parts_no_comma m)
  | false => exact filter_intercalate (by decide) (parts_no_comma m)

/-! ## Turns over these words -/

/-- Between two entries. -/
structure Resting (s : Exploded) : Prop where
  incmp : s.incmp = false
  inversion : s.inversion = false

theorem Name.not_open (n : Name) : n.name.head? ≠ some '(' := by
  intro h
  exact n.plain.no_open (List.mem_of_mem_head? h)

theorem turn_of_not_open (s : Exploded) {i : Text} (h : i.head? ≠ some '(') : explode_turn s i =
    if s.incmp then operator_word s i else .ok (if s.inversion then version_word s i else name_word s i) := by
  have hopen : decide (i.head? = some '(') = false := decide_eq_false h
  cases s
  unfold explode_turn
  simp only [hopen, Bool.or_false, Bool.false_eq_true, false_and, if_false]
  split
  · rfl
  · split <;> rfl

theorem turn_name {s : Exploded} (h : Resting s) (n : Name) :
    explode_turn s n.name = .ok (name_word s n.name) := by
  rw [turn_of_not_open s n.not_open, h.incmp, h.inversion]
  rfl

theorem operator_op (c : Constraint) : operator c.op = some (c.op, []) := by
  have hall : ∀ op ∈ two_character_operators ++ one_character_operators, operator op = some (op, []) := by decide
  exact hall c.op c.known

theorem turn_operator {s : Exploded} (c : Constraint) :
    explode_turn s ('(' :: c.op) = .ok { s with incmp := false, inversion := true, lastcmp := c.op } := by
  obtain ⟨hne, hop⟩ := c.op_plain
  simp [explode_turn, strip_eq_self hop.no_space, hne, operator_word, operator_op]

theorem turn_version {s : Exploded} (hincmp : s.incmp = false) (hinversion : s.inversion = true)
    (hlastver : s.lastver = []) (c : Constraint) :
    explode_turn s (c.version ++ [')']) = .ok { s with
      inversion := false
      lastver := c.version
      r := s.r.set s.lastdep ((s.r.get? s.lastdep).getD [] ++ [s.lastcmp ++ ' ' :: c.version]) } := by
  have hhead : (c.version ++ [')']).head? ≠ some '(' := by
    rw [List.head?_append_of_ne_nil _ c.nonempty]
    intro h
    exact c.plain.no_open (List.mem_of_mem_head? h)
  rw [turn_of_not_open s hhead, hincmp, hinversion]
  simp [version_word, hlastver, hincmp, c.nonempty]

/-- The dict behind the entries `r`, while the entry of `n` has the versions `vs` so far. -/
def Held (r : OrderedDict (Option Text) (List Text)) (n : Name) (vs : List Text) (s : Exploded) : Prop :=
  (s.r = r ∧ vs = []) ∨ s.r = r ++ [(some n.name, vs)]

section
variable {r : OrderedDict (Option Text) (List Text)} {n : Name} {vs : List Text} {s : Exploded}

theorem name_word_r (hfresh : some n.name ∉ r.map Prod.fst) (h : Held r n vs s) :
    (name_word s n.name).r = r ++ [(some n.name, vs)] := by
  unfold name_word
  rcases h with ⟨hr, rfl⟩ | hr
  · simp [hr, OrderedDict.get?_fresh hfresh, OrderedDict.set_fresh hfresh]
  · simp only [hr, OrderedDict.get?_last hfresh, Option.getD_some]
    split
    · rfl
    · rename_i hempty
      rw [not_not] at hempty
      rw [hempty, OrderedDict.set_last hfresh]

theorem constraint_spec (hfresh : some n.name ∉ r.map Prod.fst) (hs : Resting s) (h : Held r n vs s)
    (c : Constraint) : ∃ s', (n.name :: c.words).foldlM explode_turn s = .ok s' ∧ Resting s' ∧
      s'.r = r ++ [(some n.name, vs ++ [c.text])] := by
  have hr := name_word_r hfresh h
  let s₁ : Exploded := { name_word s n.name with incmp := false, inversion := true, lastcmp := c.op }
  have hopened : (n.name :: c.words).foldlM explode_turn s = explode_turn s₁ (c.version ++ [')']) := by
    simp only [Constraint.words, List.foldlM_cons, List.foldlM_nil, turn_name hs, turn_operator, bind_pure]
    rfl
  refine ⟨_, hopened.trans (turn_version rfl rfl rfl c), ⟨rfl, rfl⟩, ?_⟩
  change (name_word s n.name).r.set (some n.name) (((name_word s n.name).r.get? (some n.name)).getD [] ++ [c.text]) = _
  rw [hr, OrderedDict.get?_last hfresh, OrderedDict.set_last hfresh]
  rfl

theorem constraints_spec (hfresh : some n.name ∉ r.map Prod.fst) (hs : Resting s) (h : Held r n vs s)
    (cs : List Constraint) :
    ∃ s', (cs.flatMap fun c => n.name :: c.words).foldlM explode_turn s = .ok s' ∧ Resting s' ∧
      Held r n (vs ++ cs.map Constraint.text) s' := by
  induction cs generalizing vs s with
  | nil => exact ⟨s, rfl, hs, by simpa using h⟩
  | cons c cs ih =>
    obtain ⟨s₁, hfold₁, hs₁, hr₁⟩ := constraint_spec hfresh hs h c
    obtain ⟨s₂, hfold₂, hs₂, hr₂⟩ := ih hs₁ (Or.inr hr₁)
    refine ⟨s₂, ?_, hs₂, ?_⟩
    · rw [List.flatMap_cons, List.foldlM_append, hfold₁]
      exact hfold₂
    · simpa using hr₂

theorem entry_spec (hfresh : some n.name ∉ s.r.map Prod.fst) (hs : Resting s) (cs : List Constraint) :
    ∃ s', (entry_words n cs).foldlM explode_turn s = .ok s' ∧ Resting s' ∧
      s'.r = s.r ++ [(some n.name, cs.map Constraint.text)] := by
  have hheld : Held s.r n [] s := Or.inl ⟨rfl, rfl⟩
  unfold entry_words
  split
  · rename_i hempty
    refine ⟨name_word s n.name, ?_, ⟨hs.incmp, hs.inversion⟩, ?_⟩
    · rw [List.foldlM_cons, turn_name hs]
      rfl
    · rw [name_word_r hfresh hheld, hempty]
      rfl
  · rename_i hne
    obtain ⟨s', hfold, hs', hr⟩ := constraints_spec hfresh hs hheld cs
    refine ⟨s', hfold, hs', ?_⟩
    rcases hr with ⟨-, hnone⟩ | hr
    · simp [hne] at hnone
    · simpa using hr

end

theorem entries_spec (entries : List (Name × List Constraint)) {s : Exploded} (hs : Resting s)
    (hfresh : (s.r.map Prod.fst ++ entries.map fun x => some x.1.name).Nodup) :
    ∃ s', (entries.flatMap fun x => entry_words x.1 x.2).foldlM explode_turn s = .ok s' ∧
      s'.r = s.r ++ entries.map fun x => (some x.1.name, x.2.map Constraint.text) := by
  induction entries generalizing s with
  | nil => exact ⟨s, rfl, by simp⟩
  | cons x entries ih =>
    have hnew : some x.1.name ∉ s.r.map Prod.fst := by
      intro hmem
      rw [List.nodup_append] at hfresh
      exact hfresh.2.2 _ hmem _ (by simp) rfl
    obtain ⟨s₁, hfold₁, hs₁, hr₁⟩ := entry_spec hnew hs x.2
    obtain ⟨s₂, hfold₂, hr₂⟩ := ih hs₁ (by simpa [hr₁] using hfresh)
    refine ⟨s₂, ?_, ?_⟩
    · rw [List.flatMap_cons, List.foldlM_append, hfold₁]
      exact hfold₂
    · simp [hr₂, hr₁]

theorem explode_deps_entry (n : Name) (cs : List Constraint) (r : List Text) :
    (entry_words n cs).foldl explode_deps_turn (r, false) =
      (r ++ List.replicate (max 1 cs.length) n.name, false) := by
  have hname : ∀ r, explode_deps_turn (r, false) n.name = (r ++ [n.name], false) := by
    intro r
    simp [explode_deps_turn, n.not_open]
  have hconstraint : ∀ r (c : Constraint),
      (n.name :: c.words).foldl explode_deps_turn (r, false) = (r ++ [n.name], false) := by
    intro r c
    obtain ⟨hne, hop⟩ := c.op_plain
    have hlast : decide (('(' :: c.op).getLast? = some ')') = false := by
      rw [decide_eq_false_iff_not]
      intro h
      have hmem := List.mem_of_getLast? h
      simp [hop.no_close] at hmem
    simp only [Constraint.words, List.foldl_cons, List.foldl_nil, hname]
    simp [explode_deps_turn, hlast]
  have hmany : ∀ (cs : List Constraint) r,
      (cs.flatMap fun c => n.name :: c.words).foldl explode_deps_turn (r, false) =
        (r ++ List.replicate cs.length n.name, false) := by
    intro cs
    induction cs with
    | nil => simp
    | cons c cs ih =>
      intro r
      rw [List.flatMap_cons, List.foldl_append, hconstraint, ih]
      simp [List.replicate_succ]
  unfold entry_words
  split
  · rename_i hempty
    simp [hempty, hname]
  · rename_i hne
    have hlen : 1 ≤ cs.length := List.length_pos_iff.mpr hne
    rw [hmany, max_eq_right hlen]

/-- What `join_deps` writes for names that are not empty, with their constraints, both readers read
back. -/
theorem joined_dependencies_are_read_back (m : Requirements) (commasep : Bool) :
    explode_dep_versions2 (join_deps m.deps commasep) false = .ok m.exploded ∧
      explode_deps (join_deps m.deps false) = m.names := by
  constructor
  · obtain ⟨s, hfold, hr⟩ := entries_spec m.entries (s := ⟨[], none, [], [], false, false⟩)
      ⟨rfl, rfl⟩ (by
        have hinj := m.distinct.map (Option.some_injective Text)
        simpa [List.map_map, Function.comp_def] using hinj)
    unfold explode_dep_versions2
    simp only [words_join_deps, hfold, bind, Except.bind, hr]
    rfl
  · have hwords : words (join_deps m.deps false) = m.entries.flatMap fun x => entry_words x.1 x.2 := by
      rw [← words_parts, ← words_intercalate]
      rfl
    have hfold : ∀ (entries : List (Name × List Constraint)) r,
        (entries.flatMap fun x => entry_words x.1 x.2).foldl explode_deps_turn (r, false) =
          (r ++ entries.flatMap fun x => List.replicate (max 1 x.2.length) x.1.name, false) := by
      intro entries
      induction entries with
      | nil => simp
      | cons x entries ih =>
        intro r
        rw [List.flatMap_cons, List.foldl_append, explode_deps_entry, ih, List.flatMap_cons, List.append_assoc]
    unfold explode_deps
    rw [hwords, hfold]
    rfl

/-- An empty name is not read back. -/
theorem an_empty_name_is_lost :
    explode_dep_versions2 (join_deps [([], .many [text ">= 1"])] true) false ≠ .ok [(some [], [text ">= 1"])] := by
  decide

end yocto.dependency_strings
