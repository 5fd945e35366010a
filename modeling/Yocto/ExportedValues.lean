-- Variables that are written for a shell (emit_var in data.py). The value goes between double
-- quotes, and the quotes and dollar signs in it get a backslash.
import Mathlib.Data.List.DropRight
import Yocto.TaskIds

open yocto.task_ids

namespace yocto.exported_values

/-! ## The data store -/

inductive Flag
  | none
  | int (n : Int)
  | str (s : Text)
  deriving DecidableEq

def Flag.truth : Flag → Bool
  | .none => false
  | .int n => n ≠ 0
  | .str s => s ≠ []

/-- `str(flag)`. -/
def Flag.text : Flag → Text
  | .none => yocto.task_ids.text "None"
  | .int n => (toString n).toList
  | .str s => s

inductive Raised
  | value_error
  deriving DecidableEq

def to_boolean (flag : Flag) : Except Raised Bool :=
  match flag with
  | .none => .ok false
  | .int n => .ok (n ≠ 0)
  | .str s =>
    if s = [] then .ok false
    else
      let normalized := s.map Char.toLower
      if normalized ∈ [text "y", text "yes", text "1", text "true"] then .ok true
      else if normalized ∈ [text "n", text "no", text "0", text "false"] then .ok false
      else .error .value_error

/-- An exception of an expansion. -/
structure Thrown where
  classname : Text
  message : Text

structure Datastore where
  getVarFlag : Text → Text → Flag
  getVar : Text → Bool → Except Thrown (Option Text)
  expand : Text → Text
  /-- Without a dollar sign there is nothing to expand. -/
  expand_plain : ∀ s, '$' ∉ s → expand s = s
  /-- What `varhistory.emit` writes. -/
  history : Text → Text

/-! ## emit_var -/

/-- `re.sub(c, repl, s)`, for a character. -/
def sub (c : Char) (repl s : Text) : Text := s.flatMap fun x => if x = c then repl else [x]

/-- A value between the double quotes. -/
def alter (val : Text) : Text := sub '$' ['\\', '$'] (sub '\n' [' ', '\\', '\n'] (sub '"' ['\\', '"'] val))

def assignment (exported : Bool) (varExpanded val : Text) : Text :=
  (if exported then text "export " else []) ++ varExpanded ++ ['=', '"'] ++ alter val ++ ['"', '\n']

def function_text (lineno filename varExpanded val : Text) : Text :=
  text "# line: " ++ lineno ++ text ", file: " ++ filename ++ ['\n'] ++
    varExpanded ++ text "() \x7b\n" ++ val.rdropWhile (· = '\n') ++ text "\n\x7d\n"

def bash_function (varExpanded val : Text) : Text :=
  let varExpanded := (varExpanded.drop 10).dropLast.dropLast
  varExpanded ++ text "() " ++ val.drop 3 ++ ['\n'] ++ text "export -f " ++ varExpanded ++ ['\n']

/-- What is returned, and what is written. -/
def emit_var (var : Text) (d : Datastore) (all : Bool) : Except Raised (Bool × Text) := do
  let func := (d.getVarFlag var (text "func")).truth
  if (d.getVarFlag var (text "python")).truth && func then return (false, [])
  let exported ← to_boolean (d.getVarFlag var (text "export"))
  let unexport ← to_boolean (d.getVarFlag var (text "unexport"))
  if !all && !exported && !unexport && !func then return (false, [])
  match (if all then d.getVar var false else .ok none), d.getVar var true with
  | .error exc, _ => return (false, thrown exc)
  | .ok _, .error exc => return (false, thrown exc)
  | .ok _, .ok val =>
    let history := if all then d.history var else []
    if (var.any fun c => c ∈ ['-', '.', '\x7b', '\x7d', '+']) && !all then return (false, history)
    let varExpanded := d.expand var
    if unexport then return (false, history ++ text "unset " ++ varExpanded ++ ['\n'])
    match val with
    | none => return (false, history)
    | some val =>
      if text "BASH_FUNC_" <+: varExpanded then return (true, history ++ bash_function varExpanded val)
      if func then
        return (true, history ++ function_text (d.getVarFlag var (text "lineno")).text
          (d.getVarFlag var (text "filename")).text varExpanded val)
      return (false, history ++ assignment exported varExpanded val)
where
  thrown (exc : Thrown) : Text :=
    text "# expansion of " ++ var ++ text " threw " ++ exc.classname ++ text ": " ++ exc.message ++ ['\n']

/-! ## The shell -/

/-- Characters that a backslash quotes inside of double quotes. -/
def special : List Char := ['$', Char.ofNat 0x60, '"', '\\']

/-- The text up to the closing quote, and what follows. Nothing is read where a substitution starts. -/
def read_quoted : Text → Option (Text × Text)
  | [] => none
  | c :: s =>
    if c = '"' then some ([], s)
    else if c = '$' ∨ c = Char.ofNat 0x60 then none
    else if c = '\\' then
      match s with
      | [] => none
      | c' :: s =>
        if c' ∈ special then (read_quoted s).map fun x => (c' :: x.1, x.2)
        else if c' = '\n' then read_quoted s
        else (read_quoted s).map fun x => (c :: c' :: x.1, x.2)
    else (read_quoted s).map fun x => (c :: x.1, x.2)

def name_start (c : Char) : Bool := c.isAlpha || c = '_'

/-- A name for a variable of the shell. -/
def ShellName : Text → Prop
  | [] => False
  | c :: s => name_start c ∧ ∀ x ∈ s, name_start x ∨ x.isDigit

instance : DecidablePred ShellName
  | [] => isFalse id
  | c :: s => decidable_of_iff (name_start c ∧ s.all fun x => name_start x || x.isDigit) (by simp [ShellName])

/-- What a line assigns when it is one assignment and no more: nothing may follow the closing quote. -/
structure Assigned where
  exported : Bool
  name : Text
  value : Text
  deriving DecidableEq

def read_line (line : Text) : Option Assigned :=
  let exported : Bool := (text "export ").isPrefixOf line
  let line := if exported then line.drop 7 else line
  let name := line.takeWhile (· ≠ '=')
  match line.drop name.length with
  | '=' :: '"' :: body =>
    match read_quoted body with
    | some (value, ['\n']) => if ShellName name then some ⟨exported, name, value⟩ else none
    | _ => none
  | _ => none

/-! ## Values that come back -/

/-- No backquote, and no backslash before a special character or at the end. -/
def Safe (val : Text) : Prop :=
  Char.ofNat 0x60 ∉ val ∧
    ∀ before after, val = before ++ '\\' :: after → ∃ c rest, after = c :: rest ∧ c ∉ special

/-- A character of a value between the double quotes. -/
def quote (c : Char) : Text := if c = '"' ∨ c = '$' then ['\\', c] else [c]

theorem alter_eq {val : Text} (h : '\n' ∉ val) : alter val = val.flatMap quote := by
  induction val with
  | nil => rfl
  | cons c val ih =>
    rw [List.mem_cons, not_or] at h
    have hc : alter (c :: val) = quote c ++ alter val := by
      unfold alter sub quote
      by_cases hquote : c = '"'
      · subst hquote
        simp
      · by_cases hdollar : c = '$'
        · subst hdollar
          simp
        · simp [hquote, hdollar, Ne.symm h.1]
    rw [hc, ih h.2, List.flatMap_cons]

theorem safe_nil : Safe [] := ⟨by simp, by simp⟩

theorem safe_cons {c : Char} {val : Text} :
    Safe (c :: val) ↔ c ≠ Char.ofNat 0x60 ∧
      (c = '\\' → ∃ c' rest, val = c' :: rest ∧ c' ∉ special) ∧ Safe val := by
  unfold Safe
  constructor
  · rintro ⟨hback, hbefore⟩
    rw [List.mem_cons, not_or] at hback
    refine ⟨Ne.symm hback.1, ?_, hback.2, ?_⟩
    · rintro rfl
      exact hbefore [] val rfl
    · intro before after hval
      exact hbefore (c :: before) after (by rw [hval, List.cons_append])
  · rintro ⟨hne, hc, hback, hbefore⟩
    refine ⟨by simp [Ne.symm hne, hback], ?_⟩
    intro before after hval
    cases before with
    | nil =>
      obtain ⟨rfl, rfl⟩ := List.cons.inj hval
      exact hc rfl
    | cons x before => exact hbefore before after (List.cons.inj hval).2

/-- What the shell reads for a value. -/
def read_back (val : Text) : Option (Text × Text) := read_quoted (val.flatMap quote ++ ['"', '\n'])

theorem read_quoted_close (s : Text) : read_quoted ('"' :: s) = some ([], s) := by
  unfold read_quoted
  rfl

theorem read_quoted_stop {c : Char} (hc : c = '$' ∨ c = Char.ofNat 0x60) (s : Text) :
    read_quoted (c :: s) = none := by
  unfold read_quoted
  rcases hc with rfl | rfl <;> rfl

theorem read_quoted_plain {c : Char} (hc : c ∉ special) (s : Text) :
    read_quoted (c :: s) = (read_quoted s).map fun x => (c :: x.1, x.2) := by
  simp only [special, List.mem_cons, List.not_mem_nil, or_false, not_or] at hc
  conv_lhs => unfold read_quoted
  simp [hc]

theorem read_quoted_slash_special {c : Char} (hc : c ∈ special) (s : Text) :
    read_quoted ('\\' :: c :: s) = (read_quoted s).map fun x => (c :: x.1, x.2) := by
  conv_lhs => unfold read_quoted
  simp [hc]

theorem read_quoted_slash_plain {c : Char} (hc : c ∉ special) (hline : c ≠ '\n') (s : Text) :
    read_quoted ('\\' :: c :: s) = (read_quoted s).map fun x => ('\\' :: c :: x.1, x.2) := by
  conv_lhs => unfold read_quoted
  simp [hc, hline]

theorem quote_plain {c : Char} (hc : c ∉ special) : quote c = [c] := by
  unfold quote
  rw [if_neg]
  rintro (rfl | rfl) <;> exact hc (by decide)

theorem read_back_cons {c : Char} (hback : c ≠ Char.ofNat 0x60) (hslash : c ≠ '\\') (val : Text) :
    read_back (c :: val) = (read_back val).map fun x => (c :: x.1, x.2) := by
  unfold read_back
  rw [List.flatMap_cons]
  by_cases hspecial : c ∈ special
  · have hquote : c = '"' ∨ c = '$' := by
      simp only [special, List.mem_cons, List.not_mem_nil, or_false] at hspecial
      tauto
    rw [show quote c = ['\\', c] from if_pos hquote]
    exact read_quoted_slash_special hspecial _
  · rw [quote_plain hspecial]
    exact read_quoted_plain hspecial _

theorem read_back_backquote (val : Text) : read_back (Char.ofNat 0x60 :: val) = none := by
  unfold read_back
  rw [List.flatMap_cons]
  exact read_quoted_stop (.inr rfl) _

theorem read_back_slash_end : read_back ['\\'] = none := by decide

theorem read_back_slash_quote (val : Text) :
    read_back ('\\' :: '"' :: val) = some (['\\'], val.flatMap quote ++ ['"', '\n']) := by
  unfold read_back
  rw [List.flatMap_cons, List.flatMap_cons]
  change read_quoted ('\\' :: '\\' :: '"' :: (val.flatMap quote ++ ['"', '\n'])) = _
  rw [read_quoted_slash_special (by decide), read_quoted_close]
  rfl

theorem read_back_slash_dollar (val : Text) : read_back ('\\' :: '$' :: val) = none := by
  unfold read_back
  rw [List.flatMap_cons, List.flatMap_cons]
  change read_quoted ('\\' :: '\\' :: '$' :: (val.flatMap quote ++ ['"', '\n'])) = _
  rw [read_quoted_slash_special (by decide), read_quoted_stop (.inl rfl)]
  rfl

theorem read_back_slash_special {c : Char} (hc : c = '\\' ∨ c = Char.ofNat 0x60) (val : Text) :
    read_back ('\\' :: c :: val) = (read_back val).map fun x => (c :: x.1, x.2) := by
  unfold read_back
  rw [List.flatMap_cons, List.flatMap_cons]
  have hquote : quote c = [c] := by
    rcases hc with rfl | rfl <;> rfl
  rw [hquote]
  change read_quoted ('\\' :: c :: (val.flatMap quote ++ ['"', '\n'])) = _
  apply read_quoted_slash_special
  rcases hc with rfl | rfl <;> decide

theorem read_back_slash_plain {c : Char} (hc : c ∉ special) (hline : c ≠ '\n') (val : Text) :
    read_back ('\\' :: c :: val) = (read_back val).map fun x => ('\\' :: c :: x.1, x.2) := by
  unfold read_back
  rw [List.flatMap_cons, List.flatMap_cons, quote_plain hc]
  exact read_quoted_slash_plain hc hline _

theorem value_induction {motive : Text → Prop} (nil : motive [])
    (plain : ∀ c val, c ≠ Char.ofNat 0x60 → c ≠ '\\' → motive val → motive (c :: val))
    (backquote : ∀ val, motive (Char.ofNat 0x60 :: val))
    (slash_end : motive ['\\'])
    (slash_quote : ∀ val, motive ('\\' :: '"' :: val))
    (slash_dollar : ∀ val, motive ('\\' :: '$' :: val))
    (slash_special : ∀ c val, c = '\\' ∨ c = Char.ofNat 0x60 → motive val → motive ('\\' :: c :: val))
    (slash_plain : ∀ c val, c ∉ special → motive val → motive ('\\' :: c :: val)) :
    ∀ val, motive val := by
  intro val
  induction hlength : val.length using Nat.strong_induction_on generalizing val with
  | _ n ih =>
    have hrest : ∀ rest : Text, rest.length < val.length → motive rest := fun rest hlt =>
      ih rest.length (hlength ▸ hlt) rest rfl
    match val with
    | [] => exact nil
    | c :: val =>
      by_cases hback : c = Char.ofNat 0x60
      · rw [hback]
        exact backquote val
      by_cases hslash : c = '\\'
      · subst hslash
        match val with
        | [] => exact slash_end
        | c' :: val =>
          have hval : motive val := hrest val (by simp only [List.length_cons]; omega)
          by_cases hspecial : c' ∈ special
          · simp only [special, List.mem_cons, List.not_mem_nil, or_false] at hspecial
            rcases hspecial with rfl | rfl | rfl | rfl
            · exact slash_dollar val
            · exact slash_special _ val (.inr rfl) hval
            · exact slash_quote val
            · exact slash_special _ val (.inl rfl) hval
          · exact slash_plain c' val hspecial hval
      · exact plain c val hback hslash (hrest val (by simp))

theorem length_read_back {val value rest : Text} (hline : '\n' ∉ val) (h : read_back val = some (value, rest)) :
    value.length ≤ val.length := by
  induction val using value_induction generalizing value rest with
  | nil =>
    obtain ⟨rfl, -⟩ := Prod.mk.inj (Option.some.inj h)
    simp
  | plain c val hback hslash ih =>
    rw [read_back_cons hback hslash, Option.map_eq_some_iff] at h
    obtain ⟨⟨value', rest'⟩, hread, heq⟩ := h
    obtain ⟨rfl, rfl⟩ := Prod.mk.inj heq
    simpa using ih (fun hmem => hline (List.mem_cons_of_mem _ hmem)) hread
  | backquote val =>
    rw [read_back_backquote] at h
    cases h
  | slash_end =>
    rw [read_back_slash_end] at h
    cases h
  | slash_quote val =>
    rw [read_back_slash_quote] at h
    obtain ⟨rfl, -⟩ := Prod.mk.inj (Option.some.inj h)
    simp
  | slash_dollar val =>
    rw [read_back_slash_dollar] at h
    cases h
  | slash_special c val hc ih =>
    rw [read_back_slash_special hc, Option.map_eq_some_iff] at h
    obtain ⟨⟨value', rest'⟩, hread, heq⟩ := h
    obtain ⟨rfl, rfl⟩ := Prod.mk.inj heq
    have hlength := ih (fun hmem => hline (by simp [hmem])) hread
    simp only [List.length_cons]
    omega
  | slash_plain c val hc ih =>
    have hne : c ≠ '\n' := by
      rintro rfl
      exact hline (by simp)
    rw [read_back_slash_plain hc hne, Option.map_eq_some_iff] at h
    obtain ⟨⟨value', rest'⟩, hread, heq⟩ := h
    obtain ⟨rfl, rfl⟩ := Prod.mk.inj heq
    simpa using ih (fun hmem => hline (by simp [hmem])) hread

theorem read_back_iff {val : Text} (hline : '\n' ∉ val) : read_back val = some (val, ['\n']) ↔ Safe val := by
  induction val using value_induction with
  | nil => exact iff_of_true rfl safe_nil
  | plain c val hback hslash ih =>
    rw [read_back_cons hback hslash, safe_cons, ← ih fun hmem => hline (List.mem_cons_of_mem _ hmem)]
    simp [Option.map_eq_some_iff, hback, hslash]
  | backquote val =>
    rw [read_back_backquote]
    simp [safe_cons]
  | slash_end =>
    rw [read_back_slash_end]
    simp [safe_cons]
  | slash_quote val =>
    rw [read_back_slash_quote]
    simp [safe_cons, special]
  | slash_dollar val =>
    rw [read_back_slash_dollar]
    simp [safe_cons, special]
  | slash_special c val hc ih =>
    have hspecial : c ∈ special := by
      rcases hc with rfl | rfl <;> decide
    have hunquoted : ¬Safe ('\\' :: c :: val) := by
      simp [safe_cons, hspecial]
    simp only [hunquoted, iff_false, read_back_slash_special hc, Option.map_eq_some_iff, not_exists, not_and]
    rintro ⟨value, rest⟩ hread heq
    have hlength := length_read_back (fun hmem => hline (by simp [hmem])) hread
    have hvalue := congrArg (fun x : Text × Text => x.1.length) heq
    simp only [List.length_cons] at hvalue
    omega
  | slash_plain c val hc ih =>
    have hne : c ≠ '\n' := by
      rintro rfl
      exact hline (by simp)
    have hback : c ≠ Char.ofNat 0x60 := by
      rintro rfl
      exact hc (by decide)
    have hslash : c ≠ '\\' := by
      rintro rfl
      exact hc (by decide)
    rw [read_back_slash_plain hc hne, safe_cons, safe_cons, ← ih fun hmem => hline (by simp [hmem])]
    simp [Option.map_eq_some_iff, hc, hback, hslash]

/-! ## The line -/

/-- A variable that is no function, with a name that the shell takes and a value of one line. -/
structure Variable where
  d : Datastore
  var : Text
  all : Bool
  exported : Bool
  oval : Option Text
  value : Text
  shell_name : ShellName var
  one_line : '\n' ∉ value
  func_flag : (d.getVarFlag var (text "func")).truth = false
  bash_function : ¬text "BASH_FUNC_" <+: var
  export_flag : to_boolean (d.getVarFlag var (text "export")) = .ok exported
  unexport_flag : to_boolean (d.getVarFlag var (text "unexport")) = .ok false
  asked : (all || exported) = true
  unexpanded : d.getVar var false = .ok oval
  expanded : d.getVar var true = .ok (some value)

theorem shellName_plain {name : Text} (h : ShellName name) {c : Char} (hc : c ∈ name) :
    name_start c ∨ c.isDigit := by
  cases name with
  | nil => cases hc
  | cons x name =>
    rcases List.mem_cons.mp hc with rfl | hc
    · exact .inl h.1
    · exact h.2 c hc

theorem not_mem_shellName {name : Text} (h : ShellName name) {c : Char}
    (hc : (name_start c || c.isDigit) = false) : c ∉ name := by
  intro hmem
  rw [Bool.or_eq_false_iff] at hc
  rcases shellName_plain h hmem with hstart | hdigit
  · rw [hc.1] at hstart
    cases hstart
  · rw [hc.2] at hdigit
    cases hdigit

theorem emit_variable (x : Variable) :
    emit_var x.var x.d x.all =
      .ok (false, (if x.all then x.d.history x.var else []) ++ assignment x.exported x.var x.value) := by
  have hexpand : x.d.expand x.var = x.var := x.d.expand_plain _ (not_mem_shellName x.shell_name (by decide))
  have hspecial : ∀ c ∈ x.var, c ∉ ['-', '.', '\x7b', '\x7d', '+'] := by
    intro c hc hmem
    have hnot : (['-', '.', '\x7b', '\x7d', '+'].all fun c => !(name_start c || c.isDigit)) = true := by decide
    have hplain := List.all_eq_true.mp hnot c hmem
    rw [Bool.not_eq_true'] at hplain
    exact not_mem_shellName x.shell_name hplain hc
  have hasked := x.asked
  unfold emit_var
  by_cases hall : x.all = true
  · simp [hall, x.func_flag, x.export_flag, x.unexport_flag, x.unexpanded, x.expanded, hexpand,
      x.bash_function, bind, Except.bind, pure, Except.pure]
  · have hexported : x.exported = true := by simpa [hall] using hasked
    simp [hall, hexported, x.func_flag, x.export_flag, x.unexport_flag, x.expanded, hexpand,
      x.bash_function, bind, Except.bind, pure, Except.pure]
    intro c hc hmem
    exact absurd (by simpa using hmem) (hspecial c hc)

theorem export_not_prefix {name : Text} (hname : ShellName name) (rest : Text) :
    ¬text "export " <+: name ++ '=' :: rest := by
  intro hstart
  have hblank : ' ' ∉ name := not_mem_shellName hname (by decide)
  have hequals : name ++ ['='] <+: name ++ '=' :: rest := ⟨rest, by simp⟩
  rcases List.prefix_or_prefix_of_prefix hstart hequals with h | h
  · have hmem : ' ' ∈ name ++ ['='] := h.subset (by decide)
    simp [hblank] at hmem
  · have hmem : '=' ∈ text "export " := h.subset (by simp)
    exact absurd hmem (by decide)

theorem read_assignment (exported : Bool) {name val : Text} (hname : ShellName name) (hline : '\n' ∉ val) :
    read_line (assignment exported name val) =
      match read_back val with
      | some (value, ['\n']) => some ⟨exported, name, value⟩
      | _ => none := by
  have hequals : '=' ∉ name := not_mem_shellName hname (by decide)
  have hbody : ∀ body : Text, (name ++ '=' :: body).takeWhile (· ≠ '=') = name := by
    intro body
    rw [List.takeWhile_append_of_pos (by
      intro c hc
      simpa using ne_of_mem_of_not_mem hc hequals)]
    simp
  have hdrop : ∀ body : Text, (name ++ '=' :: body).drop name.length = '=' :: body := fun body =>
    List.drop_left
  unfold assignment
  rw [alter_eq hline]
  cases exported with
  | true =>
    have hline : (if true = true then text "export " else []) ++ name ++ ['=', '"'] ++ val.flatMap quote ++
        ['"', '\n'] = text "export " ++ (name ++ '=' :: '"' :: (val.flatMap quote ++ ['"', '\n'])) := by simp
    rw [hline]
    unfold read_line
    have hstart : (text "export ").isPrefixOf
        (text "export " ++ (name ++ '=' :: '"' :: (val.flatMap quote ++ ['"', '\n']))) = true :=
      List.isPrefixOf_iff_prefix.mpr (List.prefix_append _ _)
    simp only [hstart, if_true]
    rw [show (7 : Nat) = (text "export ").length from rfl, List.drop_left, hbody, hdrop]
    simp only [hname, if_true]
    rfl
  | false =>
    have hline : (if false = true then text "export " else []) ++ name ++ ['=', '"'] ++ val.flatMap quote ++
        ['"', '\n'] = name ++ '=' :: '"' :: (val.flatMap quote ++ ['"', '\n']) := by simp
    rw [hline]
    unfold read_line
    have hstart : (text "export ").isPrefixOf
        (name ++ '=' :: '"' :: (val.flatMap quote ++ ['"', '\n'])) = false := by
      rw [Bool.eq_false_iff, ne_eq, List.isPrefixOf_iff_prefix]
      exact export_not_prefix hname _
    simp only [hstart, Bool.false_eq_true, if_false]
    rw [hbody, hdrop]
    simp only [hname, if_true]
    rfl

/-- The shell gets the value exactly when it has no backquote, and no backslash before a backslash, a quote, a
dollar sign or the end. -/
theorem exported_value_is_read_back_iff (x : Variable) :
    emit_var x.var x.d x.all =
        .ok (false, (if x.all then x.d.history x.var else []) ++ assignment x.exported x.var x.value) ∧
      (read_line (assignment x.exported x.var x.value) = some ⟨x.exported, x.var, x.value⟩ ↔ Safe x.value) := by
  refine ⟨emit_variable x, ?_⟩
  rw [read_assignment x.exported x.shell_name x.one_line, ← read_back_iff x.one_line]
  constructor
  · intro h
    split at h
    · rename_i value hread
      obtain rfl := congrArg Assigned.value (Option.some.inj h)
      exact hread
    · cases h
  · intro h
    simp only [h]

/-! ## Values that do not come back -/

def exported_x (value : Text) : Datastore where
  getVarFlag _ flag := if flag = text "export" then .str (text "1") else .none
  getVar _ _ := .ok (some value)
  expand s := s
  expand_plain _ _ := rfl
  history _ := []

/-- The line for a value that ends with a backslash has no closing quote, and one with two backslashes loses
one of them. -/
theorem backslashes_are_not_read_back :
    emit_var (text "X") (exported_x ['\\']) false = .ok (false, assignment true (text "X") ['\\']) ∧
      read_line (assignment true (text "X") ['\\']) = none ∧
      read_line (assignment true (text "X") ['\\', '\\']) = some ⟨true, text "X", ['\\']⟩ := by
  decide

end yocto.exported_values
