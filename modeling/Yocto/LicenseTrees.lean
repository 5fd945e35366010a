-- License expressions (oe/license.py).
import Yocto.TextLines

open yocto.task_ids yocto.data_smart yocto.text_lines

namespace yocto.license_trees

/-! ## The elements of a text -/

inductive LicenseError
  | InvalidLicense (license : Text)
  | LicenseSyntaxError (licensestr : Text)
  deriving DecidableEq, Repr

/-- An element: a license name in quotes, or an operator. -/
inductive Element
  | name (license : Text)
  | operator (c : Char)
  deriving DecidableEq, Repr

def license_operator_chars : List Char := ['&', '|', '(', ')', ' ']

/-- `license_operator.split`: what stands between the operators, and the operators. -/
def split_operators : Text → List Text
  | [] => [[]]
  | c :: s =>
    if c ∈ license_operator_chars then [] :: [c] :: split_operators s
    else match split_operators s with
      | [] => [[c]]
      | x :: xs => (c :: x) :: xs

def license_char (c : Char) : Bool :=
  decide ('a' ≤ c ∧ c ≤ 'z') || decide ('A' ≤ c ∧ c ≤ 'Z') || decide ('0' ≤ c ∧ c ≤ '9') ||
    decide (c ∈ ['.', '+', '_', '-'])

/-- `license_pattern.match`. The `$` also matches before a newline at the end. -/
def license_pattern (x : Text) : Bool :=
  let x := if x.getLast? = some '\n' then x.dropLast else x
  decide (x ≠ []) && x.all license_char

/-- The elements that are not blank. -/
def split_elements (licensestr : Text) : List Text :=
  (split_operators licensestr).filter fun x => decide (strip x ≠ [])

/-- The loop over the elements. Between two names comes an `&`. -/
def new_elements (previous : Option Text) : List Text → Except LicenseError (List Element)
  | [] => .ok []
  | x :: xs =>
    if license_pattern x then
      (new_elements (some x) xs).map fun later =>
        if previous.any license_pattern then .operator '&' :: .name x :: later else .name x :: later
    else match x with
      | [] => .error (.InvalidLicense x)
      | c :: _ =>
        if c ∈ license_operator_chars then
          (new_elements (some x) xs).map fun later => .operator c :: later
        else .error (.InvalidLicense x)

def get_elements (licensestr : Text) : Except LicenseError (List Element) :=
  new_elements none (split_elements licensestr)

/-! ## The syntax tree -/

inductive Op
  | BitAnd
  | BitOr
  deriving DecidableEq, Repr

/-- The nodes of `ast` that the elements can give. A list or a call has one item or none, and the tuple
none. -/
inductive Node
  | Str (s : Text)
  | BinOp (left : Node) (op : Op) (right : Node)
  | EmptyTuple
  | EmptyList
  | ListOf (elt : Node)
  | Subscript (value slice : Node)
  | Call (func : Node)
  | CallWith (func arg : Node)
  deriving DecidableEq, Repr

/-- What was read of an expression: what stands before the last `|`, the operands of `&` behind it, and
the operand that was read last. -/
structure Level where
  or_left : Option Node := none
  and_left : Option Node := none
  primary : Option Node := none
  deriving DecidableEq

def joined_by (op : Op) : Option Node → Node → Node
  | none, n => n
  | some l, n => .BinOp l op n

def Level.conjunction (l : Level) : Option Node := l.primary.map (joined_by .BitAnd l.and_left)

def Level.disjunction (l : Level) : Option Node := l.conjunction.map (joined_by .BitOr l.or_left)

/-- What stands between two brackets, or in the whole text: nothing, or an expression. -/
def Level.finish (l : Level) : Option (Option Node) :=
  if l = {} then some none else l.disjunction.map some

/-- The part that is being read, and the open brackets with the parts around them. -/
structure Parser where
  level : Level := {}
  outer : List (Char × Level) := []

/-- Brackets with something or nothing in them, behind an operand or not. -/
def bracketed (bracket : Char) : Option Node → Option Node → Option Node
  | none, inner =>
    if bracket = '(' then some (inner.getD .EmptyTuple)
    else some (inner.elim .EmptyList .ListOf)
  | some f, inner =>
    if bracket = '(' then some (inner.elim (.Call f) (.CallWith f))
    else inner.map (.Subscript f)

def close (bracket : Char) (p : Parser) : Option Parser :=
  match p.outer with
  | [] => none
  | (c, l) :: outer =>
    if c = bracket then do
      let inner ← p.level.finish
      let primary ← bracketed bracket l.primary inner
      some ⟨{ l with primary := some primary }, outer⟩
    else none

/-- One element. A newline ends the line inside the quotes. -/
def read_element (p : Parser) : Element → Option Parser
  | .name s =>
    if p.level.primary = none ∧ '\n' ∉ s then some { p with level := { p.level with primary := some (.Str s) } }
    else none
  | .operator c =>
    if c = '&' then p.level.conjunction.map fun n => { p with level := { p.level with and_left := some n, primary := none } }
    else if c = '|' then p.level.disjunction.map fun n => { p with level := { or_left := some n } }
    else if c = '(' ∨ c = '[' then some ⟨{}, (c, p.level) :: p.outer⟩
    else if c = ')' then close '(' p
    else if c = ']' then close '[' p
    else none

def read_all (p : Parser) (es : List Element) : Option Parser := es.foldlM read_element p

/-- `ast.parse`: the expression, if there is one. -/
def parse (es : List Element) : Option (Option Node) :=
  (read_all {} es).bind fun p => if p.outer = [] then p.level.finish else none

/-! ## Splitting -/

structure Name where
  text : Text
  ne_nil : text ≠ []
  chars : ∀ c ∈ text, license_char c = true

def Name.of (text : Text) (h : (decide (text ≠ []) && text.all license_char) = true) : Name where
  text := text
  ne_nil := by
    rw [Bool.and_eq_true] at h
    exact of_decide_eq_true h.1
  chars := by
    rw [Bool.and_eq_true, List.all_eq_true] at h
    exact h.2

def mit : Name := .of (text "MIT") (by decide)

def gpl : Name := .of (text "GPL-3.0-only") (by decide)

def bsd : Name := .of (text "BSD-3-Clause") (by decide)

theorem license_char_not_operator {c : Char} (h : license_char c = true) : c ∉ license_operator_chars := by
  intro hmem
  simp only [license_operator_chars, List.mem_cons, List.not_mem_nil, or_false] at hmem
  rcases hmem with rfl | rfl | rfl | rfl | rfl <;> revert h <;> decide

theorem Name.not_operator (n : Name) : ∀ c ∈ n.text, c ∉ license_operator_chars :=
  fun c hc => license_char_not_operator (n.chars c hc)

theorem license_char_bounds {c : Char} (h : license_char c = true) : 43 ≤ c.toNat ∧ c.toNat ≤ 122 := by
  simp only [license_char, Bool.or_eq_true, decide_eq_true_eq, Char.le_def, List.mem_cons, List.not_mem_nil,
    or_false, UInt32.le_iff_toNat_le] at h
  rcases h with ((h | h) | h) | rfl | rfl | rfl | rfl
  all_goals first | decide | exact ⟨le_trans (by decide) h.1, le_trans h.2 (by decide)⟩

theorem license_char_not_space {c : Char} (h : license_char c = true) : isspace c = false := by
  obtain ⟨hlow, hhigh⟩ := license_char_bounds h
  unfold isspace
  simp only [Bool.or_eq_false_iff, Bool.and_eq_false_iff, decide_eq_false_iff_not]
  omega

theorem Name.word (n : Name) : Word n.text := ⟨n.ne_nil, fun c hc => license_char_not_space (n.chars c hc)⟩

theorem Name.pattern (n : Name) : license_pattern n.text = true := by
  have hlast : n.text.getLast? ≠ some '\n' := by
    intro hlast
    have hnewline := license_char_not_space (n.chars _ (List.mem_of_getLast? hlast))
    revert hnewline
    decide
  unfold license_pattern
  rw [if_neg hlast]
  simpa using ⟨n.ne_nil, n.chars⟩

theorem operator_pattern {c : Char} (h : c ∈ license_operator_chars) : license_pattern [c] = false := by
  simp only [license_operator_chars, List.mem_cons, List.not_mem_nil, or_false] at h
  rcases h with rfl | rfl | rfl | rfl | rfl <;> decide

theorem split_operators_ne_nil (s : Text) : split_operators s ≠ [] := by
  cases s with
  | nil => simp [split_operators]
  | cons c s =>
    unfold split_operators
    split
    · simp
    · split <;> simp

theorem split_operators_text {x : Text} (hx : ∀ c ∈ x, c ∉ license_operator_chars) (s : Text) :
    split_operators (x ++ s) = (x ++ (split_operators s).head (split_operators_ne_nil s)) ::
      (split_operators s).tail := by
  induction x with
  | nil => simp
  | cons c x ih =>
    rw [List.forall_mem_cons] at hx
    rw [List.cons_append, split_operators, if_neg hx.1, ih hx.2]
    rfl

theorem split_elements_operator {c : Char} (hc : c ∈ license_operator_chars) (s : Text) :
    split_elements (c :: s) = (if c = ' ' then [] else [[c]]) ++ split_elements s := by
  unfold split_elements
  rw [split_operators, if_pos hc]
  simp only [license_operator_chars, List.mem_cons, List.not_mem_nil, or_false] at hc
  rcases hc with rfl | rfl | rfl | rfl | rfl <;> rfl

theorem split_elements_name (n : Name) {s : Text} (hs : ∀ c ∈ s.head?, c ∈ license_operator_chars) :
    split_elements (n.text ++ s) = n.text :: split_elements s := by
  have hstrip : strip n.text ≠ [] := by
    rw [strip_eq_self n.word.no_space]
    exact n.ne_nil
  have hnil : strip [] = [] := rfl
  unfold split_elements
  rw [split_operators_text n.not_operator]
  cases s with
  | nil => simp [split_operators, hstrip, hnil]
  | cons c s =>
    simp [split_operators, hs c rfl, hstrip, hnil]

/-! ## Expressions -/

def Op.char : Op → Char
  | .BitAnd => '&'
  | .BitOr => '|'

/-- A license expression: names with operators between them, and parentheses. -/
inductive Expr
  | name (n : Name)
  | binary (left : Expr) (op : Op) (right : Expr)
  | paren (e : Expr)

namespace Expr

def names : Expr → List Name
  | .name n => [n]
  | .binary l _ r => l.names ++ r.names
  | .paren e => e.names

/-- The elements, with the brackets of the visitor. -/
def elements (opening closing : Char) : Expr → List Element
  | .name n => [.name n.text]
  | .binary l op r => l.elements opening closing ++ .operator op.char :: r.elements opening closing
  | .paren e => .operator opening :: (e.elements opening closing ++ [.operator closing])

end Expr

/-! ## Parsing -/

/-- The elements of a tree in the order in which a visitor meets them. -/
def Node.events : Node → List Element
  | .Str s => [.name s]
  | .BinOp l op r => l.events ++ .operator op.char :: r.events
  | .EmptyTuple => [.operator ']']
  | .EmptyList => [.operator '[', .operator ']']
  | .ListOf elt => .operator '[' :: (elt.events ++ [.operator ']'])
  | .Subscript value slice => value.events ++ slice.events ++ [.operator ']']
  | .Call func => func.events
  | .CallWith func arg => func.events ++ arg.events

def Level.events (l : Level) : List Element :=
  l.or_left.elim [] (fun n => n.events ++ [.operator '|']) ++
    l.and_left.elim [] (fun n => n.events ++ [.operator '&']) ++ l.primary.elim [] Node.events

theorem events_conjunction {l : Level} {n : Node} (h : l.primary = some n) :
    ∃ c, l.conjunction = some c ∧
      c.events = l.and_left.elim [] (fun n => n.events ++ [.operator '&']) ++ n.events := by
  unfold Level.conjunction
  rw [h]
  cases l.and_left with
  | none => exact ⟨n, rfl, rfl⟩
  | some left => exact ⟨_, rfl, by simp [joined_by, Node.events, Op.char]⟩

theorem events_disjunction {l : Level} {n : Node} (h : l.primary = some n) :
    ∃ d, l.disjunction = some d ∧ d.events = l.events := by
  obtain ⟨c, hc, hevents⟩ := events_conjunction h
  unfold Level.disjunction Level.events
  rw [hc, h]
  cases l.or_left with
  | none => exact ⟨c, rfl, by simp [hevents]⟩
  | some left => exact ⟨_, rfl, by simp [joined_by, Node.events, Op.char, hevents]⟩

theorem finish_events {l : Level} {n : Node} (h : l.primary = some n) :
    ∃ d, l.finish = some (some d) ∧ d.events = l.events := by
  obtain ⟨d, hd, hevents⟩ := events_disjunction h
  have hne : l ≠ {} := by
    rintro rfl
    cases h
  exact ⟨d, by simp [Level.finish, hne, hd], hevents⟩

theorem read_all_append (p : Parser) (es fs : List Element) :
    read_all p (es ++ fs) = (read_all p es).bind fun p => read_all p fs := by
  unfold read_all
  rw [List.foldlM_append]
  rfl

theorem read_all_cons (p : Parser) (e : Element) (es : List Element) :
    read_all p (e :: es) = (read_element p e).bind fun p => read_all p es := rfl

theorem Name.no_newline (n : Name) : '\n' ∉ n.text := n.word.not_mem (by decide)

theorem read_expr (e : Expr) (p : Parser) (hp : p.level.primary = none) :
    ∃ l n, read_all p (e.elements '[' ']') = some ⟨l, p.outer⟩ ∧ l.primary = some n ∧
      l.events = p.level.events ++ e.elements '[' ']' := by
  induction e generalizing p with
  | name n =>
    refine ⟨{ p.level with primary := some (.Str n.text) }, _, ?_, rfl, ?_⟩
    · simp [Expr.elements, read_all, read_element, hp, n.no_newline]
    · simp [Level.events, hp, Expr.elements, Node.events]
  | binary l op r ihl ihr =>
    obtain ⟨l', n, hread, hprimary, hevents⟩ := ihl p hp
    have hop : ∃ m, read_element ⟨l', p.outer⟩ (.operator op.char) = some ⟨m, p.outer⟩ ∧ m.primary = none ∧
        m.events = l'.events ++ [.operator op.char] := by
      cases op with
      | BitAnd =>
        obtain ⟨c, hc, hcevents⟩ := events_conjunction hprimary
        refine ⟨{ l' with and_left := some c, primary := none }, by simp [read_element, Op.char, hc], rfl, ?_⟩
        simp [Level.events, hcevents, hprimary, Op.char]
      | BitOr =>
        obtain ⟨d, hd, hdevents⟩ := events_disjunction hprimary
        refine ⟨{ or_left := some d }, by simp [read_element, Op.char, hd], rfl, ?_⟩
        rw [← hdevents]
        simp [Level.events, Op.char]
    obtain ⟨m, hread_op, hnone, hmevents⟩ := hop
    obtain ⟨r', n', hread_r, hprimary', hrevents⟩ := ihr ⟨m, p.outer⟩ hnone
    refine ⟨r', n', ?_, hprimary', ?_⟩
    · rw [Expr.elements, read_all_append, hread, Option.bind_some, read_all_cons, hread_op,
        Option.bind_some, hread_r]
    · rw [hrevents, hmevents, hevents]
      simp [Expr.elements]
  | paren e ih =>
    obtain ⟨l', n, hread, hprimary, hevents⟩ := ih ⟨{}, ('[', p.level) :: p.outer⟩ rfl
    obtain ⟨d, hfinish, hdevents⟩ := finish_events hprimary
    refine ⟨{ p.level with primary := some (.ListOf d) }, _, ?_, rfl, ?_⟩
    · have hopen : read_element p (.operator '[') = some ⟨{}, ('[', p.level) :: p.outer⟩ := by simp [read_element]
      have hclose : read_element ⟨l', ('[', p.level) :: p.outer⟩ (.operator ']') =
          some ⟨{ p.level with primary := some (.ListOf d) }, p.outer⟩ := by
        simp [read_element, close, hfinish, bracketed, hp]
      rw [Expr.elements, read_all_cons, hopen, Option.bind_some, read_all_append, hread, Option.bind_some,
        read_all_cons, hclose]
      rfl
    · rw [hevents] at hdevents
      simp [Level.events, hp, Expr.elements, Node.events, hdevents]

theorem parse_expr (e : Expr) :
    ∃ n, parse (e.elements '[' ']') = some (some n) ∧ n.events = e.elements '[' ']' := by
  obtain ⟨l, n, hread, hprimary, hevents⟩ := read_expr e {} rfl
  obtain ⟨d, hfinish, hdevents⟩ := finish_events hprimary
  refine ⟨d, by simp [parse, hread, hfinish], ?_⟩
  rw [hdevents, hevents]
  simp [Level.events]

end yocto.license_trees
