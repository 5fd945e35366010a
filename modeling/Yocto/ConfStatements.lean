-- The statements of a configuration file (ConfHandler.handle), and the layers that its
-- assignments of BBLAYERS give one after the other.
import Yocto.AssignedLists
import Yocto.MetadataEditing

open yocto.task_ids yocto.data_smart yocto.text_lines yocto.metadata_editing yocto.assigned_lists

namespace yocto.conf_statements

/-! ## Statements -/

/-- A comment goes on in a line that is not one. -/
def confusing (s s2 : Text) : Bool := s.head? = some '#' && s2.head? ≠ some '#'

/-- The lines that are joined where they end with a backslash, without empty lines and comments. -/
def logical_lines : Option Text → List Text → Option (List Text)
  | none, [] => some []
  | some s, [] =>
    -- `readline` gives the empty text from here on.
    let joined := s.rdropWhile (· = '\\')
    if confusing s [] ∨ joined = [] then none else some [joined]
  | pending, line :: rest =>
    if pending = none ∧ strip line = [] then logical_lines none rest
    else
      let s2 := rstrip line
      let s := match pending with
        | some s => s.dropLast ++ s2
        | none => s2
      -- `s[-1]` fails on an empty text.
      if pending.any (confusing · s2) ∨ s = [] then none
      else if s.getLast? = some '\\' then logical_lines (some s) rest
      else if s.head? = some '#' then logical_lines none rest
      else (logical_lines none rest).map (s :: ·)

/-! ## Assignments -/

def sign : Op → Text
  | .assign => text "="
  | .append => text "+="

/-- The value between two quotes, with no third one of their kind alone between them. -/
def quoted : Text → Option Text
  | apo :: rest =>
    if (apo = '"' ∨ apo = '\'') ∧ rest.getLast? = some apo ∧ rest.count apo ≠ 2 then some rest.dropLast
    else none
  | [] => none

def exported (s : Text) : Text :=
  let rest := s.drop 6
  if text "export" <+: s ∧ rest.head?.any isspace then rest.dropWhile isspace else s

/-- The operator and the value of a statement that assigns or appends to BBLAYERS. -/
def assignment (s : Text) : Option (Op × Text) :=
  let s := exported s
  if text "BBLAYERS" <+: s then
    match (s.drop 8).dropWhile isspace with
    | '=' :: rest => (quoted (rest.dropWhile isspace)).map (.assign, ·)
    | '+' :: '=' :: rest => (quoted (rest.dropWhile isspace)).map (.append, ·)
    | _ => none
  else none

/-- What `var = value` and `var += value` leave. -/
def assign (value : Text) : Op × Text → Text
  | (.assign, v) => v
  | (.append, v) => value ++ ' ' :: v

def bblayers (file : Text) : Option (List Text) :=
  (logical_lines none (readlines file)).map fun statements =>
    words ((statements.filterMap assignment).foldl assign [])

/-! ## Reading -/

theorem rstrip_append_space {s t : Text} (ht : ∀ c ∈ t, isspace c = true) : rstrip (s ++ t) = rstrip s := by
  induction t using List.reverseRecOn with
  | nil => rw [List.append_nil]
  | append_singleton t c ih =>
    rw [List.forall_mem_append] at ht
    rw [← List.append_assoc, rstrip, List.rdropWhile_concat, if_pos (ht.2 c List.mem_cons_self)]
    exact ih ht.1

theorem rstrip_concat {s : Text} {c : Char} (hc : isspace c = false) : rstrip (s ++ [c]) = s ++ [c] := by
  rw [rstrip, List.rdropWhile_concat, if_neg (by simp [hc])]

theorem rstrip_line {s t : Text} {c : Char} (hc : isspace c = false) (ht : ∀ c ∈ t, isspace c = true) :
    rstrip (s ++ c :: t) = s ++ [c] := by
  rw [← List.singleton_append, ← List.append_assoc, rstrip_append_space ht, rstrip_concat hc]

theorem strip_ne_nil {s : Text} {c : Char} (hmem : c ∈ s) (hc : isspace c = false) : strip s ≠ [] := by
  intro h
  have hrest : ∀ d ∈ s.dropWhile isspace, isspace d = true := by
    simpa [strip, List.dropWhile_eq_nil_iff] using h
  rw [← List.takeWhile_append_dropWhile (p := isspace) (l := s), List.mem_append] at hmem
  have hspace : isspace c = true := hmem.elim List.mem_takeWhile_imp (hrest c)
  rw [hspace] at hc
  cases hc

theorem logical_lines_blank {line : Text} (h : strip line = []) (rest : List Text) :
    logical_lines none (line :: rest) = logical_lines none rest := by
  simp [logical_lines, h]

theorem logical_lines_first {s t : Text} {c : Char} (hc : isspace c = false) (ht : ∀ c ∈ t, isspace c = true)
    (rest : List Text) : logical_lines none ((s ++ c :: t) :: rest) =
      if c = '\\' then logical_lines (some (s ++ [c])) rest
      else if (s ++ [c]).head? = some '#' then logical_lines none rest
      else (logical_lines none rest).map ((s ++ [c]) :: ·) := by
  have hne : strip (s ++ c :: t) ≠ [] := strip_ne_nil (by simp) hc
  simp [logical_lines, hne, rstrip_line hc ht]

theorem logical_lines_next {joined s t : Text} {c : Char} (hjoined : joined.head? ≠ some '#')
    (hc : isspace c = false) (ht : ∀ c ∈ t, isspace c = true) (rest : List Text) :
    logical_lines (some joined) ((s ++ c :: t) :: rest) =
      if c = '\\' then logical_lines (some (joined.dropLast ++ (s ++ [c]))) rest
      else if (joined.dropLast ++ (s ++ [c])).head? = some '#' then logical_lines none rest
      else (logical_lines none rest).map ((joined.dropLast ++ (s ++ [c])) :: ·) := by
  have hnot : confusing joined (s ++ [c]) = false := by simp [confusing, hjoined]
  have hlast : (joined.dropLast ++ (s ++ [c])).getLast? = some c := by
    rw [← List.append_assoc, List.getLast?_concat]
  simp [logical_lines, rstrip_line hc ht, hnot, ← List.append_assoc]

theorem quoted_value {apo : Char} (hapo : apo = '"' ∨ apo = '\'') {value : Text} (h : apo ∉ value) :
    quoted (apo :: (value ++ [apo])) = some value := by
  simp [quoted, hapo, List.count_eq_zero_of_not_mem h]

end yocto.conf_statements
