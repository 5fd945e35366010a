-- What a bblayers.conf is made of: assignments of BBLAYERS, whose values go over any number of
-- lines, and other statements between them.
import Yocto.ConfStatements

open yocto.task_ids yocto.data_smart yocto.text_lines yocto.metadata_editing yocto.assigned_lists
open yocto.conf_statements

namespace yocto.bblayers_grammar

def bblayers_pattern : Pattern := variable_pattern (text "BBLAYERS")

/-! ## Assignments -/

/-- A line of a value that goes on. White space may stand behind the backslash. -/
def broken (part : Text × Text) : Text := part.1 ++ '\\' :: part.2

def closed (quote : Char) (part : Text × Text) : Text := part.1 ++ quote :: part.2

/-- An assignment. A part is what a line holds of the value, and the end of the line. -/
structure Assignment where
  before : Text
  op : Op
  after : Text
  quote : Char
  parts : List (Text × Text)
  last : Text × Text
  before_space : ∀ c ∈ before, isspace c = true
  after_space : ∀ c ∈ after, isspace c = true
  is_quote : quote = '"' ∨ quote = '\''
  no_quotes : ∀ p ∈ parts ++ [last], '"' ∉ p.1 ∧ '\'' ∉ p.1
  ends_space : ∀ p ∈ parts ++ [last], ∀ c ∈ p.2, isspace c = true

namespace Assignment

def head (a : Assignment) : Text := text "BBLAYERS" ++ a.before ++ sign a.op

def start (a : Assignment) : Text := a.head ++ a.after ++ [a.quote]

def lines (a : Assignment) : List Text :=
  match a.parts with
  | [] => [a.start ++ closed a.quote a.last]
  | p :: parts => (a.start ++ broken p) :: (parts.map broken ++ [closed a.quote a.last])

def value (a : Assignment) : Text := (a.parts.map Prod.fst).flatten ++ a.last.1

def statement (a : Assignment) : Text := a.start ++ (a.value ++ [a.quote])

def layers (a : Assignment) : List Text := words a.value

def entry (a : Assignment) : Op × List Text := (a.op, a.layers)

/-- There are only blanks around the operator. -/
def Blanks (a : Assignment) : Prop := ∀ c ∈ a.before ++ a.after, c = ' '

end Assignment

/-! ## Files -/

/-- Lines with statements about other things. None of them starts as an assignment of BBLAYERS does. -/
structure Other where
  lines : List Text
  statements : List Text
  nonempty : lines ≠ []
  reads : ∀ rest, logical_lines none (lines ++ rest) = (logical_lines none rest).map (statements ++ ·)
  unmatched : ∀ l ∈ lines, match_line [bblayers_pattern] l = none
  silent : ∀ s ∈ statements, assignment s = none

inductive Block
  | assignment (a : Assignment)
  | other (o : Other)

namespace Block

def lines : Block → List Text
  | .assignment a => a.lines
  | .other o => o.lines

def assignments : Block → List Assignment
  | .assignment a => [a]
  | .other _ => []

def statements : Block → List Text
  | .assignment a => [a.statement]
  | .other o => o.statements

end Block

/-- Only the last line may be without a newline. -/
def TextLines : List Text → Prop
  | [] => True
  | l :: ls => (Line l ∨ (ls = [] ∧ l ≠ [] ∧ '\n' ∉ l ∧ '\r' ∉ l)) ∧ TextLines ls

structure Conf where
  blocks : List Block
  text_lines : TextLines (blocks.flatMap Block.lines)

namespace Conf

def lines (c : Conf) : List Text := c.blocks.flatMap Block.lines

def file (c : Conf) : Text := c.lines.flatten

def assignments (c : Conf) : List Assignment := c.blocks.flatMap Block.assignments

end Conf

/-! ## Reading -/

theorem lines_of_open {l : Text} (hne : l ≠ []) (h : '\n' ∉ l) : lines_of l = [l] := by
  induction l with
  | nil => exact absurd rfl hne
  | cons c l ih =>
    rw [List.mem_cons, not_or] at h
    rw [lines_of, if_neg (Ne.symm h.1)]
    by_cases hl : l = []
    · rw [hl]
      rfl
    · rw [ih hl h.2]

theorem readlines_text {ls : List Text} (h : TextLines ls) : readlines ls.flatten = ls := by
  have hreturn : '\r' ∉ ls.flatten := by
    induction ls with
    | nil => simp
    | cons l ls ih =>
      rw [List.flatten_cons, List.mem_append, not_or]
      refine ⟨?_, ih h.2⟩
      rcases h.1 with ⟨t, rfl, -, ht⟩ | ⟨-, -, -, hl⟩
      · simp [ht]
      · exact hl
  unfold readlines
  rw [universal_of_not_mem hreturn]
  clear hreturn
  induction ls with
  | nil => rfl
  | cons l ls ih =>
    rcases h.1 with ⟨t, rfl, ht, -⟩ | ⟨rfl, hne, hl, -⟩
    · rw [List.flatten_cons, List.append_assoc, List.singleton_append, lines_of_line ht, ih h.2]
    · simpa using lines_of_open hne hl

theorem textLines_of_lines {ls : List Text} (h : ∀ l ∈ ls, Line l) : TextLines ls := by
  induction ls with
  | nil => trivial
  | cons l ls ih =>
    rw [List.forall_mem_cons] at h
    exact ⟨.inl h.1, ih h.2⟩

theorem TextLines.append {ls ls' : List Text} (h : ∀ l ∈ ls, Line l) (h' : TextLines ls') : TextLines (ls ++ ls') := by
  induction ls with
  | nil => exact h'
  | cons l ls ih =>
    rw [List.forall_mem_cons] at h
    exact ⟨.inl h.1, ih h.2⟩

theorem TextLines.suffix {ls ls' : List Text} (hsuffix : ls' <:+ ls) (h : TextLines ls) : TextLines ls' := by
  obtain ⟨before, rfl⟩ := hsuffix
  induction before with
  | nil => exact h
  | cons l before ih => exact ih h.2

theorem TextLines.split {ls ls' : List Text} (h : TextLines (ls ++ ls')) (hne : ls' ≠ []) :
    (∀ l ∈ ls, Line l) ∧ TextLines ls' := by
  induction ls with
  | nil => exact ⟨fun l hl => (nomatch hl), h⟩
  | cons l ls ih =>
    obtain ⟨hls, hls'⟩ := ih h.2
    refine ⟨List.forall_mem_cons.mpr ⟨h.1.resolve_right fun hlast => ?_, hls⟩, hls'⟩
    exact hne (List.append_eq_nil_iff.mp hlast.1).2

namespace Assignment

variable (a : Assignment)

theorem quote_not_space : isspace a.quote = false := by
  rcases a.is_quote with h | h <;> rw [h] <;> decide

theorem quote_ne_backslash : a.quote ≠ '\\' := by
  rcases a.is_quote with h | h <;> rw [h] <;> decide

theorem quote_not_mem {p : Text × Text} (hp : p ∈ a.parts ++ [a.last]) : a.quote ∉ p.1 := by
  rcases a.is_quote with h | h <;> rw [h]
  · exact (a.no_quotes p hp).1
  · exact (a.no_quotes p hp).2

theorem last_mem : a.last ∈ a.parts ++ [a.last] := by simp

theorem quote_not_mem_value : a.quote ∉ a.value := by
  intro hmem
  rcases List.mem_append.mp hmem with hmem | hmem
  · obtain ⟨t, ht, hmem⟩ := List.mem_flatten.mp hmem
    obtain ⟨p, hp, rfl⟩ := List.mem_map.mp ht
    exact a.quote_not_mem (List.mem_append_left _ hp) hmem
  · exact a.quote_not_mem a.last_mem hmem

theorem head?_start (s : Text) : (a.start ++ s).head? = some 'B' := by
  simp [start, head, text]

theorem logical_lines_parts {parts : List (Text × Text)} (hparts : ∀ p ∈ parts, p ∈ a.parts ++ [a.last]) {s : Text}
    (hs : ∀ s', (s ++ s').head? = some 'B') (rest : List Text) :
    logical_lines (some (s ++ ['\\'])) (parts.map broken ++ closed a.quote a.last :: rest) =
      (logical_lines none rest).map ((s ++ ((parts.map Prod.fst).flatten ++ a.last.1 ++ [a.quote])) :: ·) := by
  induction parts generalizing s with
  | nil =>
    have hhead : (s ++ ['\\']).head? ≠ some '#' := by simp [hs]
    rw [List.map_nil, List.nil_append, closed,
      logical_lines_next hhead a.quote_not_space (a.ends_space _ a.last_mem), if_neg a.quote_ne_backslash,
      List.dropLast_concat, if_neg (by simp [hs])]
    rfl
  | cons p parts ih =>
    rw [List.forall_mem_cons] at hparts
    have hhead : (s ++ ['\\']).head? ≠ some '#' := by simp [hs]
    rw [List.map_cons, List.cons_append, broken,
      logical_lines_next hhead (by decide) (a.ends_space _ hparts.1), if_pos rfl, List.dropLast_concat,
      ← List.append_assoc, ih hparts.2 (fun s' => by rw [List.append_assoc]; exact hs _)]
    simp

theorem logical_lines_assignment (rest : List Text) :
    logical_lines none (a.lines ++ rest) = (logical_lines none rest).map (a.statement :: ·) := by
  have hhead (s : Text) : (a.start ++ s).head? ≠ some '#' := by
    rw [head?_start]
    decide
  unfold lines statement value
  split
  · rename_i hparts
    rw [hparts, List.cons_append, List.nil_append, closed, ← List.append_assoc,
      logical_lines_first a.quote_not_space (a.ends_space _ a.last_mem), if_neg a.quote_ne_backslash,
      List.append_assoc, if_neg (hhead _)]
    simp
  · rename_i p parts hparts
    have hmem : p ∈ a.parts ++ [a.last] := by simp [hparts]
    rw [hparts, List.cons_append, broken, ← List.append_assoc,
      logical_lines_first (by decide) (a.ends_space _ hmem), if_pos rfl, List.append_assoc, List.append_assoc,
      List.singleton_append, ← List.append_assoc,
      a.logical_lines_parts (fun q hq => by simp [hparts, hq]) fun s' => by rw [List.append_assoc, head?_start]]
    simp

theorem exported_statement : exported a.statement = a.statement := by
  have hnot : ¬text "export" <+: a.statement := by
    simp [statement, start, head, text]
  simp [exported, hnot]

theorem assignment_statement : assignment a.statement = some (a.op, a.value) := by
  have hform : a.statement = text "BBLAYERS" ++
      (a.before ++ (sign a.op ++ (a.after ++ (a.quote :: (a.value ++ [a.quote]))))) := by
    simp [statement, start, head]
  have hafter : (a.after ++ (a.quote :: (a.value ++ [a.quote]))).dropWhile isspace =
      a.quote :: (a.value ++ [a.quote]) := by
    rw [List.dropWhile_append_of_pos a.after_space, List.dropWhile_cons_of_neg (by simp [a.quote_not_space])]
  have hquoted := quoted_value a.is_quote a.quote_not_mem_value
  have hbefore (c : Char) (hc : isspace c = false) (s : Text) :
      (a.before ++ c :: s).dropWhile isspace = c :: s := by
    rw [List.dropWhile_append_of_pos a.before_space, List.dropWhile_cons_of_neg (by simp [hc])]
  unfold assignment
  rw [exported_statement, hform, if_pos (List.prefix_append _ _)]
  cases hop : a.op with
  | assign =>
    have hdrop : ((text "BBLAYERS" ++ (a.before ++ (sign .assign ++ (a.after ++
        (a.quote :: (a.value ++ [a.quote])))))).drop 8).dropWhile isspace =
          '=' :: (a.after ++ (a.quote :: (a.value ++ [a.quote]))) :=
      hbefore '=' (by decide) _
    rw [hdrop]
    simp [hafter, hquoted]
  | append =>
    have hdrop : ((text "BBLAYERS" ++ (a.before ++ (sign .append ++ (a.after ++
        (a.quote :: (a.value ++ [a.quote])))))).drop 8).dropWhile isspace =
          '+' :: '=' :: (a.after ++ (a.quote :: (a.value ++ [a.quote]))) :=
      hbefore '+' (by decide) _
    rw [hdrop]
    simp [hafter, hquoted]

end Assignment

theorem logical_lines_block (b : Block) (rest : List Text) :
    logical_lines none (b.lines ++ rest) = (logical_lines none rest).map (b.statements ++ ·) := by
  cases b with
  | assignment a => exact a.logical_lines_assignment rest
  | other o => exact o.reads rest

theorem logical_lines_blocks (bs : List Block) :
    logical_lines none (bs.flatMap Block.lines) = some (bs.flatMap Block.statements) := by
  induction bs with
  | nil => rfl
  | cons b bs ih =>
    rw [List.flatMap_cons, logical_lines_block, ih]
    rfl

theorem filterMap_statements (bs : List Block) :
    (bs.flatMap Block.statements).filterMap assignment =
      (bs.flatMap Block.assignments).map fun a => (a.op, a.value) := by
  induction bs with
  | nil => rfl
  | cons b bs ih =>
    rw [List.flatMap_cons, List.filterMap_append, ih, List.flatMap_cons, List.map_append]
    congr 1
    cases b with
    | assignment a => simp [Block.statements, Block.assignments, a.assignment_statement]
    | other o =>
      rw [Block.assignments, List.map_nil, List.filterMap_eq_nil_iff]
      exact o.silent

theorem words_foldl_assign (as : List Assignment) (value : Text) :
    words ((as.map fun a => (a.op, a.value)).foldl assign value) =
      (as.map Assignment.entry).foldl value_turn (words value) := by
  induction as generalizing value with
  | nil => rfl
  | cons a as ih =>
    rw [List.map_cons, List.foldl_cons, List.map_cons, List.foldl_cons, ih]
    congr 1
    unfold Assignment.entry Assignment.layers
    cases a.op with
    | assign => rfl
    | append => exact words_append_space (by decide) value a.value

theorem bblayers_blocks {bs : List Block} (h : TextLines (bs.flatMap Block.lines)) :
    bblayers (bs.flatMap Block.lines).flatten =
      some (evaluate ((bs.flatMap Block.assignments).map Assignment.entry)) := by
  unfold bblayers
  rw [readlines_text h, logical_lines_blocks, Option.map_some, filterMap_statements, words_foldl_assign, words_nil]
  rfl

end yocto.bblayers_grammar
