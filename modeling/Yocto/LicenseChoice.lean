-- Which licenses of an expression count (oe/license.py). At every `|` one side is taken by its
-- weight, from the inside out.
import Yocto.Globs
import Yocto.LicenseTrees

open yocto.task_ids yocto.text_lines yocto.license_trees yocto.globs

namespace yocto.license_choice

/-! ## The visitor -/

section Flatten
variable (choose_licenses : List Text → List Text → List Text)

/-- `FlattenVisitor.visit`, with the licenses that it has. -/
def visit (licenses : List Text) : Node → List Text
  | .Str s => licenses ++ [s]
  | .BinOp l .BitOr r => licenses ++ choose_licenses (visit [] l) (visit [] r)
  | .BinOp l .BitAnd r => visit (visit licenses l) r
  | .EmptyTuple => licenses
  | .EmptyList => licenses
  | .ListOf elt => visit licenses elt
  | .Subscript value slice => visit (visit licenses value) slice
  | .Call func => visit licenses func
  | .CallWith func arg => visit (visit licenses func) arg

def flattened_licenses (licensestr : Text) : Except LicenseError (List Text) :=
  match get_elements licensestr with
  | .error e => .error e
  | .ok elements =>
    match parse elements with
    | none => .error (.LicenseSyntaxError licensestr)
    | some body => .ok (body.elim [] (visit choose_licenses []))

end Flatten

def matched (patterns : List Text) (license : Text) : Bool := patterns.any fun pattern => fnmatch license pattern

/-- The weight of an option, with the penalty for excluded licenses. -/
def weight (include_licenses exclude_licenses : List Text) (licenses : List Text) : Int :=
  (licenses.filter (matched include_licenses)).length -
    1000 * if 0 < (licenses.filter (matched exclude_licenses)).length then 1 else 0

def choose_licenses (include_licenses exclude_licenses alpha beta : List Text) : List Text :=
  if weight include_licenses exclude_licenses alpha ≥ weight include_licenses exclude_licenses beta then alpha
  else beta

/-- `include_licenses`, or what stands for none. -/
def included_patterns (include_licenses : Option (List Text)) : List Text :=
  if include_licenses.getD [] = [] then [text "*"] else include_licenses.getD []

def is_included (licensestr : Text) (include_licenses exclude_licenses : Option (List Text)) :
    Except LicenseError (Bool × List Text) :=
  let include_licenses := included_patterns include_licenses
  let exclude_licenses := exclude_licenses.getD []
  (flattened_licenses (choose_licenses include_licenses exclude_licenses) licensestr).map fun licenses =>
    let excluded := licenses.filter (matched exclude_licenses)
    let included := licenses.filter (matched include_licenses)
    if excluded ≠ [] then (false, excluded) else (true, included)

/-! ## Expressions with a choice -/

/-- What binds an expression together: nothing but a name or parentheses, `&`, or `|`. -/
inductive Rank
  | one
  | all
  | any

/-- A license expression, by the precedence of its operators. The `&` may be left out. -/
inductive Choice : Rank → Type
  | name (n : Name) : Choice .one
  | paren (c : Choice .any) : Choice .one
  | one (c : Choice .one) : Choice .all
  | and (left : Choice .all) (written : Bool) (right : Choice .one) : Choice .all
  | all (c : Choice .all) : Choice .any
  | or (left : Choice .any) (right : Choice .all) : Choice .any

namespace Choice

variable {k : Rank}

def raw : {k : Rank} → Choice k → List Text
  | _, name n => [n.text]
  | _, paren c => ['('] :: (c.raw ++ [[')']])
  | _, one c => c.raw
  | _, and l written r => l.raw ++ ((if written then [['&']] else []) ++ r.raw)
  | _, all c => c.raw
  | _, or l r => l.raw ++ ['|'] :: r.raw

def names : {k : Rank} → Choice k → List Name
  | _, name n => [n]
  | _, paren c => c.names
  | _, one c => c.names
  | _, and l _ r => l.names ++ r.names
  | _, all c => c.names
  | _, or l r => l.names ++ r.names

/-- A selection: all operands of `&`, and one side of every `|`. -/
def Selection : {k : Rank} → Choice k → List Text → Prop
  | _, name n, s => s = [n.text]
  | _, paren c, s => c.Selection s
  | _, one c, s => c.Selection s
  | _, and l _ r, s => ∃ a b, l.Selection a ∧ r.Selection b ∧ s = a ++ b
  | _, all c, s => c.Selection s
  | _, or l r, s => l.Selection s ∨ r.Selection s

/-- Whether the expression begins with a name, and whether it ends with one. -/
def begins_with_name : {k : Rank} → Choice k → Bool
  | _, name _ => true
  | _, paren _ => false
  | _, one c => c.begins_with_name
  | _, and l _ _ => l.begins_with_name
  | _, all c => c.begins_with_name
  | _, or l _ => l.begins_with_name

def ends_with_name : {k : Rank} → Choice k → Bool
  | _, name _ => true
  | _, paren _ => false
  | _, one c => c.ends_with_name
  | _, and _ _ r => r.ends_with_name
  | _, all c => c.ends_with_name
  | _, or _ r => r.ends_with_name

/-- A closing parenthesis with a name right behind it. -/
def name_behind : {k : Rank} → Choice k → Bool
  | _, name _ => false
  | _, paren c => c.name_behind
  | _, one c => c.name_behind
  | _, and l written r =>
    l.name_behind || r.name_behind || (!written && !l.ends_with_name && r.begins_with_name)
  | _, all c => c.name_behind
  | _, or l r => l.name_behind || r.name_behind

/-- The elements that `get_elements` gives, with an `&` between two names. -/
def elements : {k : Rank} → Choice k → List Element
  | _, name n => [.name n.text]
  | _, paren c => .operator '(' :: (c.elements ++ [.operator ')'])
  | _, one c => c.elements
  | _, and l written r =>
    l.elements ++ ((if written || (l.ends_with_name && r.begins_with_name) then [.operator '&'] else []) ++
      r.elements)
  | _, all c => c.elements
  | _, or l r => l.elements ++ .operator '|' :: r.elements

end Choice

/-! ## The elements -/

/-- The loop over the elements, behind a name or not. -/
def elements_after (named : Bool) (xs : List Text) : Except LicenseError (List Element) :=
  new_elements (if named then some ['a'] else none) xs

theorem new_elements_eq (previous : Option Text) (xs : List Text) :
    new_elements previous xs = elements_after (previous.any license_pattern) xs := by
  have hany : previous.any license_pattern =
      (if previous.any license_pattern then some ['a'] else none : Option Text).any license_pattern := by
    have ha : license_pattern ['a'] = true := by decide
    split
    · rename_i h
      rw [h]
      exact ha.symm
    · rename_i h
      simpa using h
  unfold elements_after
  cases xs with
  | nil => rfl
  | cons x xs =>
    simp only [new_elements]
    rw [← hany]

theorem elements_after_name (named : Bool) (n : Name) (xs : List Text) :
    elements_after named (n.text :: xs) = (elements_after true xs).map fun later =>
      (if named then [.operator '&'] else []) ++ [.name n.text] ++ later := by
  have hname : new_elements (some n.text) xs = elements_after true xs := by
    rw [new_elements_eq, Option.any_some, n.pattern]
  have ha : license_pattern ['a'] = true := by decide
  unfold elements_after at *
  cases named <;> simp [new_elements, n.pattern, hname, ha]

theorem elements_after_operator {c : Char} (hc : c ∈ license_operator_chars) (named : Bool) (xs : List Text) :
    elements_after named ([c] :: xs) = (elements_after false xs).map fun later => [.operator c] ++ later := by
  have hoperator : new_elements (some [c]) xs = elements_after false xs := by
    rw [new_elements_eq, Option.any_some, operator_pattern hc]
  unfold elements_after at *
  simp [new_elements, operator_pattern hc, hoperator, hc]

theorem map_map_elements (r : Except LicenseError (List Element)) (es fs : List Element) :
    (r.map fun later => es ++ later).map (fun later => fs ++ later) = r.map fun later => fs ++ es ++ later := by
  cases r <;> simp [Except.map]

namespace Choice

variable {k : Rank}

theorem elements_after_raw (c : Choice k) (named : Bool) (rest : List Text) :
    elements_after named (c.raw ++ rest) = (elements_after c.ends_with_name rest).map fun later =>
      (if named && c.begins_with_name then [.operator '&'] else []) ++ c.elements ++ later := by
  have hopen : '(' ∈ license_operator_chars := by decide
  have hclose : ')' ∈ license_operator_chars := by decide
  have hand : '&' ∈ license_operator_chars := by decide
  have hor : '|' ∈ license_operator_chars := by decide
  induction c generalizing named rest with
  | name n =>
    rw [raw, List.singleton_append, elements_after_name]
    simp [begins_with_name, ends_with_name, elements]
  | paren c ih =>
    rw [raw, List.cons_append, List.append_assoc, elements_after_operator hopen, ih, List.singleton_append,
      elements_after_operator hclose, map_map_elements, map_map_elements]
    simp [begins_with_name, ends_with_name, elements]
  | one c ih => exact ih named rest
  | and l written r ihl ihr =>
    rw [raw, List.append_assoc, ihl]
    cases written with
    | false =>
      rw [if_neg Bool.false_ne_true, List.nil_append, ihr, map_map_elements]
      simp [begins_with_name, ends_with_name, elements]
    | true =>
      rw [if_pos rfl, List.append_assoc, List.singleton_append, elements_after_operator hand, ihr, map_map_elements,
        map_map_elements]
      simp [begins_with_name, ends_with_name, elements]
  | all c ih => exact ih named rest
  | or l r ihl ihr =>
    rw [raw, List.append_assoc, ihl, List.cons_append, elements_after_operator hor, ihr, map_map_elements,
      map_map_elements]
    simp [begins_with_name, ends_with_name, elements]

theorem get_elements_raw {licensestr : Text} {c : Choice k} (h : split_elements licensestr = c.raw) :
    get_elements licensestr = .ok c.elements := by
  have hraw := elements_after_raw c false []
  rw [List.append_nil] at hraw
  unfold get_elements
  rw [h, new_elements_eq, Option.any_none, hraw]
  simp [elements_after, new_elements, Except.map]

end Choice

/-! ## The selection -/

section Weights
variable (include_licenses exclude_licenses : List Text)

def Clean (licenses : List Text) : Prop := ∀ license ∈ licenses, matched exclude_licenses license = false

theorem clean_append {a b : List Text} : Clean exclude_licenses (a ++ b) ↔
    Clean exclude_licenses a ∧ Clean exclude_licenses b := List.forall_mem_append

theorem clean_iff {licenses : List Text} :
    Clean exclude_licenses licenses ↔ licenses.filter (matched exclude_licenses) = [] := by
  simp [Clean, List.filter_eq_nil_iff]

theorem weight_nonneg_iff {licenses : List Text} (h : licenses.length < 1000) :
    0 ≤ weight include_licenses exclude_licenses licenses ↔ Clean exclude_licenses licenses := by
  have hle := List.length_filter_le (matched include_licenses) licenses
  rw [clean_iff, ← List.length_eq_zero_iff]
  unfold weight
  split <;> omega

/-- A selection that has excluded licenses only where all have. -/
def Chosen {k : Rank} (c : Choice k) (licenses : List Text) : Prop :=
  c.Selection licenses ∧
    ((∃ t, c.Selection t ∧ Clean exclude_licenses t) → Clean exclude_licenses licenses)

variable {include_licenses exclude_licenses}

theorem selection_length {k : Rank} {c : Choice k} {licenses : List Text} (h : c.Selection licenses) :
    licenses.length ≤ c.names.length := by
  induction c generalizing licenses with
  | name n =>
    have hn : licenses = [n.text] := h
    rw [hn]
    rfl
  | paren c ih => exact ih h
  | one c ih => exact ih h
  | and l written r ihl ihr =>
    obtain ⟨a, b, ha, hb, rfl⟩ := h
    have hl := ihl ha
    have hr := ihr hb
    simp only [Choice.names, List.length_append]
    omega
  | all c ih => exact ih h
  | or l r ihl ihr =>
    simp only [Choice.names, List.length_append]
    rcases h with h | h
    · exact le_trans (ihl h) (Nat.le_add_right _ _)
    · exact le_trans (ihr h) (Nat.le_add_left _ _)

theorem Chosen.and {l : Choice .all} {r : Choice .one} {a b : List Text} (written : Bool)
    (hl : Chosen exclude_licenses l a) (hr : Chosen exclude_licenses r b) :
    Chosen exclude_licenses (.and l written r) (a ++ b) := by
  refine ⟨⟨a, b, hl.1, hr.1, rfl⟩, ?_⟩
  rintro ⟨_, ⟨a', b', ha', hb', rfl⟩, hclean⟩
  rw [clean_append] at hclean ⊢
  exact ⟨hl.2 ⟨a', ha', hclean.1⟩, hr.2 ⟨b', hb', hclean.2⟩⟩

theorem Chosen.or {l : Choice .any} {r : Choice .all} {a b : List Text}
    (hl : Chosen exclude_licenses l a) (hr : Chosen exclude_licenses r b)
    (hcount : (Choice.or l r).names.length < 1000) :
    Chosen exclude_licenses (.or l r) (choose_licenses include_licenses exclude_licenses a b) := by
  have hla := selection_length hl.1
  have hlb := selection_length hr.1
  simp only [Choice.names, List.length_append] at hcount
  have ha := weight_nonneg_iff include_licenses exclude_licenses (by omega : a.length < 1000)
  have hb := weight_nonneg_iff include_licenses exclude_licenses (by omega : b.length < 1000)
  unfold choose_licenses
  split
  · rename_i hge
    refine ⟨Or.inl hl.1, ?_⟩
    rintro ⟨t, ht, hclean⟩
    rcases ht with ht | ht
    · exact hl.2 ⟨t, ht, hclean⟩
    · have := hb.mpr (hr.2 ⟨t, ht, hclean⟩)
      exact ha.mp (by omega)
  · rename_i hlt
    refine ⟨Or.inr hr.1, ?_⟩
    rintro ⟨t, ht, hclean⟩
    rcases ht with ht | ht
    · have := ha.mpr (hl.2 ⟨t, ht, hclean⟩)
      exact hb.mp (by omega)
    · exact hr.2 ⟨t, ht, hclean⟩

end Weights

/-! ## The tree -/

section Tree
variable {choose : List Text → List Text → List Text}

theorem visit_append (licenses : List Text) (n : Node) :
    visit choose licenses n = licenses ++ visit choose [] n := by
  induction n generalizing licenses with
  | Str s => simp [visit]
  | BinOp l op r ihl ihr =>
    cases op with
    | BitAnd => rw [visit, ihl, ihr, visit, ihr (visit choose [] l), List.append_assoc]
    | BitOr => simp [visit]
  | EmptyTuple => simp [visit]
  | EmptyList => simp [visit]
  | ListOf elt ih => exact ih licenses
  | Subscript value slice ihv ihs => rw [visit, ihv, ihs, visit, ihs (visit choose [] value), List.append_assoc]
  | Call func ih => exact ih licenses
  | CallWith func arg ihf iha => rw [visit, ihf, iha, visit, iha (visit choose [] func), List.append_assoc]

theorem visit_callWith (func arg : Node) :
    visit choose [] (.CallWith func arg) = visit choose [] func ++ visit choose [] arg := by
  rw [visit, visit_append]

theorem visit_joined_by (left : Option Node) (n : Node) : visit choose [] (joined_by .BitAnd left n) =
    left.elim [] (visit choose []) ++ visit choose [] n := by
  cases left with
  | none => rfl
  | some l =>
    have hand : visit choose [] (.BinOp l .BitAnd n) = visit choose (visit choose [] l) n := rfl
    rw [joined_by, hand, visit_append]
    rfl

end Tree

/-! ## Parsing -/

section Reading
variable (include_licenses exclude_licenses : List Text)

def taken (n : Node) : List Text := visit (choose_licenses include_licenses exclude_licenses) [] n

/-- Parentheses behind an operand are a call of it. -/
def applied : Option Node → Node → Node
  | none, n => n
  | some f, n => .CallWith f n

/-- The parser takes the expression, and the licenses that are taken from the tree are well chosen. -/
def Reads : {k : Rank} → Choice k → Prop
  | .one, c => ∀ p : Parser, p.level.primary = none ∨ c.begins_with_name = false →
      ∃ n, Chosen exclude_licenses c (taken include_licenses exclude_licenses n) ∧
        read_all p c.elements = some ⟨{ p.level with primary := some (applied p.level.primary n) }, p.outer⟩
  | .all, c => ∀ p : Parser, p.level.and_left = none → p.level.primary = none →
      ∃ l n, Chosen exclude_licenses c (taken include_licenses exclude_licenses n) ∧
        l.conjunction = some n ∧ l.or_left = p.level.or_left ∧ read_all p c.elements = some ⟨l, p.outer⟩
  | .any, c => ∀ outer, ∃ l n, Chosen exclude_licenses c (taken include_licenses exclude_licenses n) ∧
      l.disjunction = some n ∧ read_all ⟨{}, outer⟩ c.elements = some ⟨l, outer⟩

theorem finish_of_disjunction {l : Level} {n : Node} (h : l.disjunction = some n) :
    l.finish = some (some n) := by
  have hne : l ≠ {} := by
    rintro rfl
    cases h
  simp [Level.finish, hne, h]

theorem primary_of_conjunction {l : Level} {n : Node} (h : l.conjunction = some n) :
    ∃ q, l.primary = some q ∧ n = joined_by .BitAnd l.and_left q := by
  obtain ⟨q, hq, hn⟩ := Option.map_eq_some_iff.mp h
  exact ⟨q, hq, hn.symm⟩

theorem reads_paren {c : Choice .any} (h : Reads include_licenses exclude_licenses c) :
    Reads include_licenses exclude_licenses (.paren c) := by
  intro p _
  obtain ⟨l, n, hchosen, hdisjunction, hread⟩ := h (('(', p.level) :: p.outer)
  refine ⟨n, hchosen, ?_⟩
  have hopen : read_element p (.operator '(') = some ⟨{}, ('(', p.level) :: p.outer⟩ := by simp [read_element]
  have hclose : read_element ⟨l, ('(', p.level) :: p.outer⟩ (.operator ')') =
      some ⟨{ p.level with primary := some (applied p.level.primary n) }, p.outer⟩ := by
    cases hprimary : p.level.primary <;>
      simp [read_element, close, finish_of_disjunction hdisjunction, bracketed, hprimary, applied]
  rw [Choice.elements, read_all_cons, hopen, Option.bind_some, read_all_append, hread, Option.bind_some,
    read_all_cons, hclose]
  rfl

theorem reads_and {l : Choice .all} {r : Choice .one} (written : Bool)
    (hl : Reads include_licenses exclude_licenses l) (hr : Reads include_licenses exclude_licenses r)
    (h : (Choice.and l written r).name_behind = false) :
    Reads include_licenses exclude_licenses (.and l written r) := by
  intro p hand hprimary
  obtain ⟨level, n, hchosen, hconjunction, hor, hread⟩ := hl p hand hprimary
  obtain ⟨q, hq, rfl⟩ := primary_of_conjunction hconjunction
  rw [Choice.elements, read_all_append, hread, Option.bind_some]
  by_cases hwritten : (written || (l.ends_with_name && r.begins_with_name)) = true
  · -- the operator is there
    have hop : read_element ⟨level, p.outer⟩ (.operator '&') = some ⟨{ level with
        and_left := some (joined_by .BitAnd level.and_left q), primary := none }, p.outer⟩ := by
      simp [read_element, hconjunction]
    obtain ⟨m, hm, hread'⟩ := hr ⟨{ level with
      and_left := some (joined_by .BitAnd level.and_left q), primary := none }, p.outer⟩ (Or.inl rfl)
    refine ⟨{ level with and_left := some (joined_by .BitAnd level.and_left q), primary := some (applied none m) },
      _, ?_, rfl, hor, ?_⟩
    · have htaken := @visit_joined_by (choose_licenses include_licenses exclude_licenses)
        (some (joined_by .BitAnd level.and_left q)) (applied none m)
      unfold taken at *
      rw [htaken]
      exact hchosen.and written hm
    · rw [if_pos hwritten, List.singleton_append, read_all_cons, hop, Option.bind_some, hread']
  · -- parentheses side by side with the last operand
    have hbegins : r.begins_with_name = false := by
      simp only [Choice.name_behind, Bool.or_eq_false_iff] at h
      simp only [Bool.or_eq_true, not_or, Bool.not_eq_true] at hwritten
      cases hends : l.ends_with_name <;> simp_all
    obtain ⟨m, hm, hread'⟩ := hr ⟨level, p.outer⟩ (Or.inr hbegins)
    refine ⟨{ level with primary := some (applied (some q) m) },
      joined_by .BitAnd level.and_left (applied (some q) m), ?_, rfl, hor, ?_⟩
    · have htaken := @visit_joined_by (choose_licenses include_licenses exclude_licenses)
        level.and_left
      unfold taken at *
      rw [htaken, applied, visit_callWith, ← List.append_assoc, ← htaken]
      exact hchosen.and written hm
    · rw [if_neg hwritten, List.nil_append, hread', hq]

theorem reads {k : Rank} (c : Choice k) (h : c.name_behind = false) (hcount : c.names.length < 1000) :
    Reads include_licenses exclude_licenses c := by
  induction c with
  | name n =>
    intro p hp
    have hprimary : p.level.primary = none := hp.resolve_right (by simp [Choice.begins_with_name])
    refine ⟨.Str n.text, ⟨rfl, ?_⟩, ?_⟩
    · rintro ⟨t, rfl, hclean⟩
      exact hclean
    · simp [Choice.elements, read_all, read_element, hprimary, n.no_newline, applied]
  | paren c ih => exact reads_paren include_licenses exclude_licenses (ih h hcount)
  | one c ih =>
    intro p hand hprimary
    obtain ⟨n, hchosen, hread⟩ := ih h hcount p (Or.inl hprimary)
    refine ⟨{ p.level with primary := some (applied p.level.primary n) }, n, hchosen, ?_, rfl, hread⟩
    simp [Level.conjunction, hand, hprimary, applied, joined_by]
  | and l written r ihl ihr =>
    have hno := h
    simp only [Choice.name_behind, Bool.or_eq_false_iff] at hno
    simp only [Choice.names, List.length_append] at hcount
    exact reads_and include_licenses exclude_licenses written (ihl hno.1.1 (by omega))
      (ihr hno.1.2 (by omega)) h
  | all c ih =>
    intro outer
    obtain ⟨l, n, hchosen, hconjunction, hor, hread⟩ := ih h hcount ⟨{}, outer⟩ rfl rfl
    refine ⟨l, n, hchosen, ?_, hread⟩
    simp [Level.disjunction, hconjunction, hor, joined_by]
  | or l r ihl ihr =>
    intro outer
    have hno := h
    have hfew := hcount
    simp only [Choice.name_behind, Bool.or_eq_false_iff] at hno
    simp only [Choice.names, List.length_append] at hfew
    obtain ⟨level, n, hchosen, hdisjunction, hread⟩ := ihl hno.1 (by omega) outer
    have hop : read_element ⟨level, outer⟩ (.operator '|') = some ⟨{ or_left := some n }, outer⟩ := by
      simp [read_element, hdisjunction]
    obtain ⟨level', m, hchosen', hconjunction, hor, hread'⟩ :=
      ihr hno.2 (by omega) ⟨{ or_left := some n }, outer⟩ rfl rfl
    refine ⟨level', .BinOp n .BitOr m, ?_, by simp [Level.disjunction, hconjunction, hor, joined_by], ?_⟩
    · have htaken : taken include_licenses exclude_licenses (.BinOp n .BitOr m) =
          choose_licenses include_licenses exclude_licenses (taken include_licenses exclude_licenses n)
            (taken include_licenses exclude_licenses m) := by simp [taken, visit]
      rw [htaken]
      exact hchosen.or hchosen' hcount
    · rw [Choice.elements, read_all_append, hread, Option.bind_some, read_all_cons, hop, Option.bind_some, hread']

end Reading

theorem elements_of_begins {k : Rank} {c : Choice k} (h : c.begins_with_name = true) :
    ∃ s es, c.elements = .name s :: es := by
  induction c with
  | name n => exact ⟨n.text, [], rfl⟩
  | paren c ih => cases h
  | one c ih => exact ih h
  | and l written r ihl ihr =>
    obtain ⟨s, es, hl⟩ := ihl h
    exact ⟨s, _, by rw [Choice.elements, hl]; rfl⟩
  | all c ih => exact ih h
  | or l r ihl ihr =>
    obtain ⟨s, es, hl⟩ := ihl h
    exact ⟨s, _, by rw [Choice.elements, hl]; rfl⟩

theorem elements_of_ends {k : Rank} {c : Choice k} (h : c.ends_with_name = false) :
    ∃ es, c.elements = es ++ [.operator ')'] := by
  induction c with
  | name n => cases h
  | paren c ih => exact ⟨.operator '(' :: c.elements, rfl⟩
  | one c ih => exact ih h
  | and l written r ihl ihr =>
    obtain ⟨es, hr⟩ := ihr h
    exact ⟨_, by rw [Choice.elements, hr, ← List.append_assoc, ← List.append_assoc]⟩
  | all c ih => exact ih h
  | or l r ihl ihr =>
    obtain ⟨es, hr⟩ := ihr h
    exact ⟨l.elements ++ .operator '|' :: es, by rw [Choice.elements, hr]; simp⟩

theorem elements_of_name_behind {k : Rank} {c : Choice k} (h : c.name_behind = true) :
    ∃ s, [.operator ')', .name s] <:+: c.elements := by
  induction c with
  | name n => cases h
  | paren c ih =>
    obtain ⟨s, hc⟩ := ih h
    exact ⟨s, hc.trans ⟨[.operator '('], [.operator ')'], rfl⟩⟩
  | one c ih => exact ih h
  | and l written r ihl ihr =>
    rw [Choice.name_behind, Bool.or_eq_true, Bool.or_eq_true] at h
    rcases h with (h | h) | h
    · obtain ⟨s, hl⟩ := ihl h
      exact ⟨s, hl.trans (List.prefix_append _ _).isInfix⟩
    · obtain ⟨s, hr⟩ := ihr h
      refine ⟨s, hr.trans ?_⟩
      rw [Choice.elements, ← List.append_assoc]
      exact (List.suffix_append _ _).isInfix
    · simp only [Bool.and_eq_true, Bool.not_eq_true'] at h
      obtain ⟨⟨hwritten, hends⟩, hbegins⟩ := h
      obtain ⟨u, hl⟩ := elements_of_ends hends
      obtain ⟨s, v, hr⟩ := elements_of_begins hbegins
      refine ⟨s, u, v, ?_⟩
      rw [Choice.elements, hl, hr, hwritten, hends]
      simp
  | all c ih => exact ih h
  | or l r ihl ihr =>
    rw [Choice.name_behind, Bool.or_eq_true] at h
    rcases h with h | h
    · obtain ⟨s, hl⟩ := ihl h
      exact ⟨s, hl.trans (List.prefix_append _ _).isInfix⟩
    · obtain ⟨s, hr⟩ := ihr h
      refine ⟨s, hr.trans ?_⟩
      rw [Choice.elements, List.append_cons]
      exact (List.suffix_append _ _).isInfix

theorem primary_of_close {bracket : Char} {p p' : Parser} (h : close bracket p = some p') :
    p'.level.primary ≠ none := by
  unfold close at h
  split at h
  · cases h
  · split at h
    · obtain ⟨inner, -, h⟩ := Option.bind_eq_some_iff.mp h
      obtain ⟨primary, -, h⟩ := Option.bind_eq_some_iff.mp h
      obtain rfl := Option.some.inj h
      simp
    · cases h

theorem parse_name_behind {es : List Element} {s : Text} (h : [.operator ')', .name s] <:+: es) :
    parse es = none := by
  obtain ⟨u, v, rfl⟩ := h
  have hread : ∀ p : Parser, read_all p ([.operator ')', .name s] ++ v) = none := by
    intro p
    have hclose : read_element p (.operator ')') = close '(' p := by simp [read_element]
    rw [List.cons_append, read_all_cons, hclose]
    cases hp : close '(' p with
    | none => rfl
    | some p' =>
      have hname : read_element p' (.name s) = none := by simp [read_element, primary_of_close hp]
      rw [Option.bind_some, List.cons_append, read_all_cons, hname, Option.bind_none]
  unfold parse
  rw [List.append_assoc, read_all_append]
  cases read_all {} u with
  | none => rfl
  | some p =>
    rw [Option.bind_some, hread p]
    rfl

/-! ## The decision -/

section Decision
variable (include_licenses exclude_licenses : Option (List Text))

def CleanSelection (c : Choice .any) (licenses : List Text) : Prop :=
  c.Selection licenses ∧ Clean (exclude_licenses.getD []) licenses

/-- What the answer should be: whether there is such a selection, and what is included in one. -/
def Exact (c : Choice .any) (answer : Bool × List Text) : Prop :=
  (answer.1 = true ↔ ∃ licenses, CleanSelection exclude_licenses c licenses) ∧
    (answer.1 = true → ∃ licenses, CleanSelection exclude_licenses c licenses ∧
      answer.2 = licenses.filter (matched (included_patterns include_licenses)))

/-- For every license expression with fewer than 1000 names, `is_included` is right exactly where no
name stands directly behind parentheses. There it raises an error. -/
theorem inclusion_is_decided_iff {licensestr : Text} {c : Choice .any}
    (h : split_elements licensestr = c.raw) (hcount : c.names.length < 1000) :
    (∃ answer, is_included licensestr include_licenses exclude_licenses = .ok answer ∧
      Exact include_licenses exclude_licenses c answer) ↔ c.name_behind = false := by
  have helements := c.get_elements_raw h
  constructor
  · rintro ⟨answer, hanswer, -⟩
    rw [← Bool.not_eq_true]
    intro hbehind
    obtain ⟨s, hinfix⟩ := elements_of_name_behind hbehind
    unfold is_included flattened_licenses at hanswer
    rw [helements] at hanswer
    dsimp only at hanswer
    rw [parse_name_behind hinfix] at hanswer
    cases hanswer
  · intro hbehind
    obtain ⟨l, n, hchosen, hdisjunction, hread⟩ := reads (included_patterns include_licenses)
      (exclude_licenses.getD []) c hbehind hcount []
    have hparse : parse c.elements = some (some n) := by
      simp [parse, hread, finish_of_disjunction hdisjunction]
    have htaken : flattened_licenses (choose_licenses (included_patterns include_licenses)
        (exclude_licenses.getD [])) licensestr =
          .ok (taken (included_patterns include_licenses) (exclude_licenses.getD []) n) := by
      unfold flattened_licenses
      rw [helements]
      dsimp only
      rw [hparse]
      rfl
    unfold is_included
    dsimp only
    rw [htaken]
    generalize taken (included_patterns include_licenses) (exclude_licenses.getD []) n = licenses at hchosen
    refine ⟨_, rfl, ?_⟩
    dsimp only
    by_cases hclean : licenses.filter (matched (exclude_licenses.getD [])) = []
    · have hselection : CleanSelection exclude_licenses c licenses :=
        ⟨hchosen.1, (clean_iff _).mpr hclean⟩
      rw [if_neg (not_not.mpr hclean)]
      exact ⟨⟨fun _ => ⟨licenses, hselection⟩, fun _ => rfl⟩, fun _ => ⟨licenses, hselection, rfl⟩⟩
    · rw [if_pos hclean]
      refine ⟨⟨(fun h => by cases h), ?_⟩, fun h => by cases h⟩
      intro hsome
      exact absurd ((clean_iff _).mp (hchosen.2 hsome)) hclean

end Decision

def side_by_side : Choice .any :=
  .all (.and (.one (.paren (.or (.all (.one (.name gpl))) (.one (.name mit))))) false
    (.paren (.all (.one (.name bsd)))))

theorem the_other_side_is_taken :
    ∃ answer, is_included (text "(GPL-3.0-only | MIT) (BSD-3-Clause)") none (some [text "GPL-*"]) = .ok answer ∧
      Exact none (some [text "GPL-*"]) side_by_side answer :=
  (inclusion_is_decided_iff none (some [text "GPL-*"]) (by decide +kernel) (by decide)).mpr (by decide)

def behind_parentheses : Choice .any :=
  .all (.and (.one (.paren (.all (.one (.name mit))))) false (.name bsd))

theorem a_name_behind_parentheses_is_an_error :
    split_elements (text "(MIT) BSD-3-Clause") = behind_parentheses.raw ∧
      ¬∃ answer, is_included (text "(MIT) BSD-3-Clause") none none = .ok answer ∧
        Exact none none behind_parentheses answer := by
  refine ⟨by decide +kernel, ?_⟩
  rintro ⟨answer, hanswer, -⟩
  have herror : is_included (text "(MIT) BSD-3-Clause") none none =
      .error (.LicenseSyntaxError (text "(MIT) BSD-3-Clause")) := by decide +kernel
  rw [herror] at hanswer
  cases hanswer

end yocto.license_choice
