-- Editing the lines of a recipe or a configuration file (bb.utils.edit_metadata).
import Mathlib.Data.List.DropRight
import Yocto.TextLines

open yocto.task_ids yocto.data_smart yocto.text_lines

namespace yocto.metadata_editing

/-- `s.rstrip()`. -/
def rstrip (s : Text) : Text := s.rdropWhile isspace

/-! ## The callback -/

inductive Value
  | none
  | str (s : Text)
  | list (items : List Text)
  deriving DecidableEq

inductive Indent
  | spaces (n : Int)
  | str (s : Text)

structure Answer where
  newvalue : Value
  newop : Option Text
  indent : Indent
  minbreak : Bool
  /-- The lines that it put behind `newlines`, to stand before the variable. -/
  prepended : List Text

/-- `varfunc`, of its own state, the name, the value, the operator and the lines so far. -/
abbrev Callback (σ : Type) := σ → Text → Text → Text → List Text → Answer × σ

/-! ## What comes in the place of an entry -/

def is_func (name : Text) : Bool := decide (text "()" <:+ name)

def indentspc (varset_new : Text) : Indent → Text
  | .spaces n => List.replicate (if n = -1 then varset_new.length + 2 else n.toNat) ' '
  | .str s => s

def function_lines (varset_new indentspc : Text) : Value → List Text
  | .none => []
  | .list items =>
    [varset_new ++ text " \x7b\n" ++ indentspc ++ ('\n' :: indentspc).intercalate items ++ text "\n\x7d\n"]
  | .str s =>
    let s := if s.head? = some '\n' then s else '\n' :: s
    let s := if s.getLast? = some '\n' then s else s ++ ['\n']
    [varset_new ++ text " \x7b" ++ s ++ text "\x7d\n"]

def variable_lines (varset_new indentspc : Text) (minbreak : Bool) : Value → List Text
  | .none => []
  | .str s => [varset_new ++ text " \"" ++ s ++ text "\"\n"]
  | .list [] => [varset_new ++ text " \"\"\n"]
  | .list (item :: items) =>
    let broken := fun item : Text => indentspc ++ item ++ text " \\\n"
    if minbreak then
      if items = [] then [varset_new ++ text " \"" ++ item ++ text "\"\n"]
      else (varset_new ++ text " \"" ++ item ++ text " \\\n") :: items.map broken ++ [indentspc ++ text "\"\n"]
    else (varset_new ++ text " \" \\\n") :: (item :: items).map broken ++ [indentspc ++ text "\"\n"]

/-- The entry that is held back. There is none when `in_var` is empty. -/
structure Scan where
  varset_start : Text
  varlines : List Text
  in_var : Text
  full_value : Text
  var_end : Char

/-- Whether the callback changed something, and the lines for the entry. -/
def replaced (scan : Scan) (op : Text) (a : Answer) : Bool × List Text :=
  let newop := a.newop.filter (· ≠ op)
  if a.newvalue = .none then (true, a.prepended)
  else if a.newvalue ≠ .str scan.full_value ∨ newop.isSome then
    let varset_new := match newop with
      | some newop => scan.in_var ++ ' ' :: newop
      | none => scan.varset_start
    let indentspc := indentspc varset_new a.indent
    (true, a.prepended ++
      if is_func scan.in_var then function_lines varset_new indentspc a.newvalue
      else variable_lines varset_new indentspc a.minbreak a.newvalue)
  else (decide (a.prepended ≠ []), a.prepended ++ scan.varlines)

/-! ## The scan -/

/-- A name to look for, with what its regex finds in a line: the first group, and the quote, which
is the last group, or the brace of a function. -/
structure Pattern where
  varname : Text
  find : Text → Option (Text × Char)
  found : ∀ {line v c}, find line = some (v, c) → c ∈ line ∧ c ≠ '\n'

/-- The first line of an entry, and whether the entry ends with it. -/
def begin_entry (p : Pattern) (v : Text) (c : Char) (line : Text) : Scan × Bool :=
  let isfunc := is_func p.varname
  let var_end := if isfunc then '}' else c
  let value := rstrip ((line.dropWhile (· ≠ c)).drop 1)
  let value := if ¬ isfunc ∧ value.getLast? = some '\\' then value.dropLast else value
  let ended := decide (value.getLast? = some var_end)
  (⟨rstrip (line.takeWhile (· ≠ c)), [line], if isfunc then v ++ text "()" else v,
    if ended then value.dropLast else value, var_end⟩, ended)

/-- One more line of an entry, and whether the entry ends with it. -/
def hold_line (s : Scan) (line : Text) : Scan × Bool :=
  let value := rstrip line
  let full_value := s.full_value ++ if is_func s.in_var then '\n' :: value else value.dropLast
  let ended := decide (value.getLast? = some s.var_end) &&
    !(is_func s.in_var && decide (full_value.count '}' ≤ full_value.count '{'))
  ({ s with
    varlines := s.varlines ++ [line]
    full_value := if ended && is_func s.in_var then full_value.dropLast else full_value }, ended)

def match_line (patterns : List Pattern) (line : Text) : Option (Pattern × Text × Char) :=
  patterns.findSome? fun p => (p.find line).map (p, ·)

/-! ## The loop -/

structure Edit (σ : Type) where
  updated : Bool
  newlines : List Text
  scan : Scan
  checkspc : Bool
  /-- What the callback keeps. -/
  state : σ

section
variable {σ : Type}

/-- `handle_var_end`, and what is done behind it. -/
def handle_var_end (varfunc : Callback σ) (e : Edit σ) (scan : Scan) : Edit σ :=
  let op := strip (scan.varset_start.drop scan.in_var.length)
  let (a, state) := varfunc e.state scan.in_var scan.full_value op e.newlines
  let (changed, lines) := replaced scan op a
  { updated := e.updated || changed
    newlines := e.newlines ++ lines
    scan := { scan with in_var := [] }
    checkspc := e.checkspc || changed
    state }

def keep_line (e : Edit σ) (line : Text) : Edit σ :=
  let squash := e.checkspc && decide (e.newlines.getLast? = some ['\n'] ∧ line = ['\n'])
  { e with checkspc := false, newlines := if squash then e.newlines else e.newlines ++ [line] }

def turn (patterns : List Pattern) (varfunc : Callback σ) (e : Edit σ) (line : Text) : Edit σ :=
  if e.scan.in_var ≠ [] then
    let (scan, ended) := hold_line e.scan line
    if ended then handle_var_end varfunc e scan else { e with scan }
  else match match_line patterns line with
    | some (p, v, c) =>
      let (scan, ended) := begin_entry p v c line
      if ended then handle_var_end varfunc e scan else { e with scan }
    | none => keep_line e line

def no_entry : Scan := ⟨[], [], [], [], ' '⟩

def edit_loop (patterns : List Pattern) (varfunc : Callback σ) (state : σ) (meta_lines : List Text) : Edit σ :=
  meta_lines.foldl (turn patterns varfunc) ⟨false, [], no_entry, false, state⟩

def edit_metadata (patterns : List Pattern) (varfunc : Callback σ) (state : σ) (meta_lines : List Text) :
    Bool × List Text :=
  let e := edit_loop patterns varfunc state meta_lines
  (e.updated, e.newlines)

end

/-! ## The patterns of plain names -/

def is_blank (c : Char) : Bool := c = ' ' || c = '\\' || c = 't'

/-- The quote behind the operator of an assignment: `[ \\t]*[?+:.]*=[+.]*[ \\t]*(["'])`. -/
def quote_of (rest : Text) : Option Char :=
  match (rest.dropWhile is_blank).dropWhile fun c => c ∈ ['?', '+', ':', '.'] with
  | '=' :: rest =>
    match (rest.dropWhile fun c => c ∈ ['+', '.']).dropWhile is_blank with
    | c :: _ => if c = '"' ∨ c = '\'' then some c else none
    | [] => none
  | _ => none

theorem mem_of_dropWhile {p : Char → Bool} {s : Text} {c : Char} (h : c ∈ s.dropWhile p) : c ∈ s :=
  (List.dropWhile_suffix p).subset h

theorem quote_of_mem {rest : Text} {c : Char} (h : quote_of rest = some c) : c ∈ rest ∧ c ≠ '\n' := by
  unfold quote_of at h
  split at h
  · rename_i tail htail
    split at h
    · rename_i d tail' htail'
      split at h
      · rename_i hquote
        obtain rfl := Option.some.inj h
        have hmem : d ∈ tail := mem_of_dropWhile (mem_of_dropWhile (htail' ▸ List.mem_cons_self))
        refine ⟨mem_of_dropWhile (mem_of_dropWhile (htail ▸ List.mem_cons_of_mem _ hmem)), ?_⟩
        rintro rfl
        exact absurd hquote (by decide)
      · cases h
    · cases h
  · cases h

/-- The assignments of a variable whose name has no special characters. -/
def variable_pattern (name : Text) : Pattern where
  varname := name
  find line := if name <+: line then (quote_of (line.drop name.length)).map (name, ·) else none
  found := by
    intro line v c h
    split at h
    · obtain ⟨d, hd, heq⟩ := Option.map_eq_some_iff.mp h
      obtain ⟨rfl, rfl⟩ := Prod.mk.inj heq
      obtain ⟨hmem, hne⟩ := quote_of_mem hd
      exact ⟨List.mem_of_mem_drop hmem, hne⟩
    · cases h

/-! ## What the lines are -/

/-- A part of the input: a line outside of the entries, the lines of an entry, or those of an entry
that was begun and has no end. -/
inductive Piece
  | line (l : Text)
  | entry (lines : List Text)
  | opened (lines : List Text)

def Piece.lines : Piece → List Text
  | .line l => [l]
  | .entry lines => lines
  | .opened lines => lines

/-- The parts that the scan finds. -/
def pieces (patterns : List Pattern) : Scan → List Text → List Piece
  | s, [] => if s.in_var ≠ [] then [.opened s.varlines] else []
  | s, line :: rest =>
    if s.in_var ≠ [] then
      let (scan, ended) := hold_line s line
      if ended then .entry scan.varlines :: pieces patterns { scan with in_var := [] } rest
      else pieces patterns scan rest
    else match match_line patterns line with
      | some (p, v, c) =>
        let (scan, ended) := begin_entry p v c line
        if ended then .entry [line] :: pieces patterns { scan with in_var := [] } rest
        else if scan.in_var = [] then .opened [line] :: pieces patterns scan rest
        else pieces patterns scan rest
      | none => .line line :: pieces patterns s rest

def AllEnd (ps : List Piece) : Prop := ∀ p ∈ ps, ∀ lines, p ≠ .opened lines

/-- An output keeps the lines outside of the entries. -/
inductive Kept : List Text → Bool → List Piece → List Text → Prop
  | nil {before : List Text} {edited : Bool} : Kept before edited [] []
  | line {before out : List Text} {edited : Bool} {l : Text} {ps : List Piece} :
    Kept (before ++ [l]) false ps out → Kept before edited (.line l :: ps) (l :: out)
  | squashed {before out : List Text} {ps : List Piece} : before.getLast? = some ['\n'] →
    Kept before false ps out → Kept before true (.line ['\n'] :: ps) out
  | entry {before out lines written : List Text} {edited : Bool} {ps : List Piece} :
    Kept (before ++ written) (decide (written ≠ lines)) ps out →
    Kept before edited (.entry lines :: ps) (written ++ out)
  | opened {before out lines : List Text} {edited : Bool} {ps : List Piece} :
    Kept (before ++ lines) false ps out → Kept before edited (.opened lines :: ps) (lines ++ out)

/-- A callback that leaves value, operator and lines as they are. -/
def Unchanging {σ : Type} (varfunc : Callback σ) : Prop := ∀ state name value op newlines,
  (varfunc state name value op newlines).1.newvalue = .str value ∧
    (varfunc state name value op newlines).1.newop = none ∧
    (varfunc state name value op newlines).1.prepended = []

/-- Nothing changes under a callback that changes nothing, and every callback gets an output that
keeps the lines outside of the entries. -/
def KeepsLines (patterns : List Pattern) (meta_lines : List Text) : Prop :=
  (∀ {σ : Type} (varfunc : Callback σ) (state : σ), Unchanging varfunc →
    edit_metadata patterns varfunc state meta_lines = (false, meta_lines)) ∧
  ∀ {σ : Type} (varfunc : Callback σ) (state : σ),
    Kept [] false (pieces patterns no_entry meta_lines) (edit_metadata patterns varfunc state meta_lines).2

/-! ## The entries -/

section
variable {patterns : List Pattern}

theorem blank_not_ended {c : Char} : (rstrip ['\n']).getLast? ≠ some c := by
  have hblank : rstrip ['\n'] = [] := by decide
  simp [hblank]

theorem hold_line_ended {s : Scan} {line : Text} (h : (hold_line s line).2 = true) : line ≠ ['\n'] := by
  rintro rfl
  simp only [hold_line, Bool.and_eq_true, decide_eq_true_iff] at h
  exact blank_not_ended h.1

theorem match_line_ne_blank {line v : Text} {p : Pattern} {c : Char}
    (h : match_line patterns line = some (p, v, c)) : line ≠ ['\n'] := by
  obtain ⟨q, -, hq⟩ := List.exists_of_findSome?_eq_some h
  obtain ⟨m, hm, heq⟩ := Option.map_eq_some_iff.mp hq
  obtain ⟨rfl, rfl⟩ := Prod.mk.inj heq
  obtain ⟨hmem, hne⟩ := q.found hm
  rintro rfl
  exact hne (List.mem_singleton.mp hmem)

theorem hold_line_varlines (s : Scan) (line : Text) : (hold_line s line).1.varlines = s.varlines ++ [line] := rfl

theorem begin_entry_varlines (p : Pattern) (v : Text) (c : Char) (line : Text) :
    (begin_entry p v c line).1.varlines = [line] := rfl

theorem hold_line_in_var (s : Scan) (line : Text) : (hold_line s line).1.in_var = s.in_var := rfl

theorem pieces_lines (s : Scan) (lines : List Text) : (pieces patterns s lines).flatMap Piece.lines =
    (if s.in_var ≠ [] then s.varlines else []) ++ lines := by
  induction lines generalizing s with
  | nil =>
    unfold pieces
    split <;> simp [Piece.lines]
  | cons line rest ih =>
    unfold pieces
    dsimp only
    split
    · rename_i hin
      split
      · rw [List.flatMap_cons, ih]
        simp [Piece.lines, hold_line_varlines]
      · rw [ih, hold_line_in_var, if_pos hin, hold_line_varlines]
        simp
    · split
      · split
        · rw [List.flatMap_cons, ih]
          simp [Piece.lines]
        · split
          · rename_i hnone
            rw [List.flatMap_cons, ih]
            simp [Piece.lines, hnone]
          · rename_i hsome
            rw [ih, if_pos hsome, begin_entry_varlines]
            rfl
      · rename_i hout _ _
        rw [List.flatMap_cons, ih, if_neg hout]
        rfl

theorem opened_ne_nil {s : Scan} (hs : s.in_var ≠ [] → s.varlines ≠ []) {lines ls : List Text}
    (h : .opened ls ∈ pieces patterns s lines) : ls ≠ [] := by
  induction lines generalizing s with
  | nil =>
    unfold pieces at h
    split at h
    · rename_i hin
      obtain rfl : ls = s.varlines := by simpa using h
      exact hs hin
    · cases h
  | cons line rest ih =>
    unfold pieces at h
    dsimp only at h
    split at h
    · split at h
      · refine ih (by simp) ((List.mem_cons.mp h).resolve_left ?_)
        intro heq
        cases heq
      · refine ih ?_ h
        simp [hold_line_varlines]
    · split at h
      · split at h
        · refine ih (by simp) ((List.mem_cons.mp h).resolve_left ?_)
          intro heq
          cases heq
        · split at h
          · rename_i hnone
            rcases List.mem_cons.mp h with heq | h
            · rw [Piece.opened.inj heq]
              simp
            · exact ih (fun hne => absurd hnone hne) h
          · refine ih ?_ h
            simp [begin_entry_varlines]
      · refine ih hs ((List.mem_cons.mp h).resolve_left ?_)
        intro heq
        cases heq

/-! ## Runs -/

variable {σ : Type} {varfunc : Callback σ}

theorem AllEnd.of_cons {p : Piece} {ps : List Piece} (h : AllEnd (p :: ps)) : AllEnd ps :=
  fun q hq => h q (List.mem_cons_of_mem _ hq)

theorem edited_of_blank {before written : List Text} {line : Text} (lines : List Text) (hline : line ≠ ['\n'])
    (hlast : lines.getLast? = some line) (h : (before ++ written).getLast? = some ['\n']) :
    decide (written ≠ lines) = true := by
  rw [decide_eq_true_iff]
  rintro rfl
  rw [List.getLast?_append, hlast] at h
  exact hline (Option.some.inj h)

variable (varfunc) in
theorem loop_kept {lines : List Text} {e : Edit σ} (edited : Bool) (hend : AllEnd (pieces patterns e.scan lines))
    (hspc : e.scan.in_var = [] → e.checkspc = true → e.newlines.getLast? = some ['\n'] → edited = true) :
    ∃ out, (lines.foldl (turn patterns varfunc) e).newlines = e.newlines ++ out ∧
      Kept e.newlines edited (pieces patterns e.scan lines) out := by
  induction lines generalizing e edited with
  | nil =>
    unfold pieces at hend ⊢
    split
    · rename_i hin
      rw [if_pos hin] at hend
      exact absurd rfl (hend _ List.mem_cons_self _)
    · exact ⟨[], by simp, .nil⟩
  | cons line rest ih =>
    rw [List.foldl_cons]
    unfold pieces at hend ⊢
    unfold turn
    dsimp only at hend ⊢
    split
    · rename_i hin
      rw [if_pos hin] at hend
      split
      · rename_i hended
        rw [if_pos hended] at hend
        obtain ⟨out, hout, hkept⟩ := ih (e := handle_var_end varfunc e (hold_line e.scan line).1) _ hend.of_cons
          fun _ _ => edited_of_blank (hold_line e.scan line).1.varlines (hold_line_ended hended)
            List.getLast?_concat
        exact ⟨_, hout.trans (List.append_assoc _ _ _), .entry hkept⟩
      · rename_i hended
        rw [if_neg hended] at hend
        exact ih (e := { e with scan := (hold_line e.scan line).1 }) edited hend fun hnone => absurd hnone hin
    · rename_i hin
      rw [if_neg hin] at hend
      split
      · rename_i p v c hmatch
        rw [hmatch] at hend
        dsimp only at hend
        split
        · rename_i hended
          rw [if_pos hended] at hend
          obtain ⟨out, hout, hkept⟩ := ih (e := handle_var_end varfunc e (begin_entry p v c line).1) _ hend.of_cons
            fun _ _ => edited_of_blank [line] (match_line_ne_blank hmatch) rfl
          exact ⟨_, hout.trans (List.append_assoc _ _ _), .entry hkept⟩
        · rename_i hended
          rw [if_neg hended] at hend
          split at hend
          · exact absurd rfl (hend _ List.mem_cons_self _)
          · rename_i hname
            rw [if_neg hname]
            exact ih (e := { e with scan := (begin_entry p v c line).1 }) edited hend fun hnone => absurd hnone hname
      · rename_i hmatch
        rw [hmatch] at hend
        unfold keep_line
        dsimp only at hend ⊢
        split
        · rename_i hsquash
          simp only [Bool.and_eq_true, decide_eq_true_iff] at hsquash
          obtain ⟨hcheck, hlast, rfl⟩ := hsquash
          obtain rfl := hspc (by simpa using hin) hcheck hlast
          obtain ⟨out, hout, hkept⟩ := ih (e := { e with checkspc := false }) false hend.of_cons
            fun _ h => nomatch h
          exact ⟨out, hout, .squashed hlast hkept⟩
        · obtain ⟨out, hout, hkept⟩ := ih (e := { e with checkspc := false, newlines := e.newlines ++ [line] })
            false hend.of_cons fun _ h => nomatch h
          exact ⟨line :: out, hout.trans (List.append_assoc _ _ _), .line hkept⟩

/-- What is put back: an entry without an end is lost. -/
def Piece.put_back : Piece → List Text
  | .line l => [l]
  | .entry lines => lines
  | .opened _ => []

theorem handle_unchanging (hsame : Unchanging varfunc) (e : Edit σ) (scan : Scan) :
    (handle_var_end varfunc e scan).updated = e.updated ∧
      (handle_var_end varfunc e scan).checkspc = e.checkspc ∧
      (handle_var_end varfunc e scan).newlines = e.newlines ++ scan.varlines := by
  obtain ⟨hvalue, hop, hlines⟩ :=
    hsame e.state scan.in_var scan.full_value (strip (scan.varset_start.drop scan.in_var.length)) e.newlines
  simp [handle_var_end, replaced, hvalue, hop, hlines]

variable (patterns) in
theorem loop_unchanging (hsame : Unchanging varfunc) (lines : List Text) {e : Edit σ} (hspc : e.checkspc = false) :
    (lines.foldl (turn patterns varfunc) e).updated = e.updated ∧
      (lines.foldl (turn patterns varfunc) e).newlines =
        e.newlines ++ (pieces patterns e.scan lines).flatMap Piece.put_back := by
  induction lines generalizing e with
  | nil =>
    unfold pieces
    split <;> simp [Piece.put_back]
  | cons line rest ih =>
    rw [List.foldl_cons]
    unfold pieces turn
    dsimp only
    split
    · split
      · obtain ⟨hupdated, hcheck, hlines⟩ := handle_unchanging hsame e (hold_line e.scan line).1
        obtain ⟨hu, hl⟩ := ih (hcheck.trans hspc)
        refine ⟨hu.trans hupdated, hl.trans ?_⟩
        rw [hlines, List.append_assoc]
        rfl
      · exact ih hspc
    · split
      · rename_i p v c _
        split
        · obtain ⟨hupdated, hcheck, hlines⟩ := handle_unchanging hsame e (begin_entry p v c line).1
          obtain ⟨hu, hl⟩ := ih (hcheck.trans hspc)
          refine ⟨hu.trans hupdated, hl.trans ?_⟩
          rw [hlines, List.append_assoc]
          rfl
        · obtain ⟨hu, hl⟩ := ih (e := { e with scan := (begin_entry p v c line).1 }) hspc
          refine ⟨hu, hl.trans ?_⟩
          split <;> rfl
      · have hkeep : keep_line e line = { e with checkspc := false, newlines := e.newlines ++ [line] } := by
          simp [keep_line, hspc]
        obtain ⟨hu, hl⟩ := ih (e := keep_line e line) rfl
        refine ⟨hu, hl.trans ?_⟩
        rw [hkeep, List.append_assoc]
        rfl

theorem length_put_back (p : Piece) : p.put_back.length ≤ p.lines.length := by
  cases p <;> simp [Piece.put_back, Piece.lines]

theorem allEnd_of_put_back {ps : List Piece} (hne : ∀ ls, .opened ls ∈ ps → ls ≠ [])
    (h : ps.flatMap Piece.put_back = ps.flatMap Piece.lines) : AllEnd ps := by
  have hle : ∀ ps : List Piece, (ps.flatMap Piece.put_back).length ≤ (ps.flatMap Piece.lines).length := by
    intro ps
    induction ps with
    | nil => simp
    | cons p ps ih =>
      have := length_put_back p
      simp only [List.flatMap_cons, List.length_append]
      omega
  rintro p hp ls rfl
  obtain ⟨before, rest, rfl⟩ := List.append_of_mem hp
  have hlen := congrArg List.length h
  have hbefore := hle before
  have hrest := hle rest
  have hpos := List.length_pos_iff.mpr (hne ls hp)
  simp only [List.flatMap_append, List.flatMap_cons, List.length_append, Piece.put_back, Piece.lines,
    List.length_nil] at hlen
  omega

theorem put_back_of_allEnd {ps : List Piece} (h : AllEnd ps) :
    ps.flatMap Piece.put_back = ps.flatMap Piece.lines := by
  apply List.flatMap_congr
  intro p hp
  cases p with
  | line l => rfl
  | entry lines => rfl
  | opened lines => exact absurd rfl (h _ hp lines)

end

def returning : Callback Unit := fun state _ value _ _ => (⟨.str value, none, .spaces 0, true, []⟩, state)

/-- The lines are kept exactly when every entry that the scan begins is also ended. -/
theorem lines_are_kept_iff_entries_end (patterns : List Pattern) (meta_lines : List Text) :
    KeepsLines patterns meta_lines ↔ AllEnd (pieces patterns no_entry meta_lines) := by
  have hall : (pieces patterns no_entry meta_lines).flatMap Piece.lines = meta_lines := by
    rw [pieces_lines]
    rfl
  constructor
  · rintro ⟨hsame, -⟩
    have hreturning : Unchanging returning := fun _ _ _ _ _ => ⟨rfl, rfl, rfl⟩
    have hresult := congrArg Prod.snd (hsame returning () hreturning)
    have hlines := (loop_unchanging patterns hreturning meta_lines
      (e := ⟨false, [], no_entry, false, ()⟩) rfl).2
    apply allEnd_of_put_back fun ls hls => opened_ne_nil (fun hne => absurd rfl hne) hls
    rw [hall]
    exact hlines.symm.trans hresult
  · intro hend
    refine ⟨fun {σ} varfunc state hsame => ?_, fun {σ} varfunc state => ?_⟩
    · obtain ⟨hupdated, hlines⟩ := loop_unchanging patterns hsame meta_lines
        (e := ⟨false, [], no_entry, false, state⟩) rfl
      refine Prod.ext hupdated (hlines.trans ?_)
      rw [put_back_of_allEnd hend, hall]
      rfl
    · obtain ⟨out, hout, hkept⟩ := loop_kept varfunc (e := ⟨false, [], no_entry, false, state⟩) false
        hend fun _ h => nomatch h
      rw [show (edit_metadata patterns varfunc state meta_lines).2 = out from hout]
      exact hkept

/-- An assignment without its closing quote is lost at the end of the file. -/
theorem an_assignment_without_its_quote_is_lost :
    ¬KeepsLines [variable_pattern (text "A")] [text "A = \"x\n"] := by
  rintro ⟨hsame, -⟩
  have hlost := hsame returning () fun _ _ _ _ _ => ⟨rfl, rfl, rfl⟩
  exact absurd hlost (by decide)

end yocto.metadata_editing
