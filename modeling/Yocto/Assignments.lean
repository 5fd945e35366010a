-- The assignment operators of a variable (`DataNode.eval` of ast.py, `setVar` and `getVarFlag`
-- of data_smart.py).
import Yocto.DataSmart

open yocto.task_ids yocto.ordered_dict yocto.raising yocto.data_smart
open yocto.list_search (infix_append_cons)

namespace yocto.assignments

/-! ## The store -/

/-- A store without a parent. `failed` says that a renamed variable was set. -/
structure Store where
  dict : OrderedDict Text Variable
  overridedata : OrderedDict Text (List (Text × Text))
  failed : Bool

def Store.empty : Store := ⟨[], [], false⟩

/-- What the store rests on: the names in `_var_renames`, and what `need_overrides` leaves. -/
structure Settings where
  renamed : Text → Bool
  overrides : Store → List Text

/-- A new entry: `{}`. -/
def noEntry : Variable := ⟨[], [], [], []⟩

/-- The entry that is written to, made if it is not there. -/
def Store.entry (d : Store) (var : Text) : Variable := (d.dict.get? var).getD noEntry

def Store.setEntry (d : Store) (var : Text) (entry : Variable) : Store :=
  { d with dict := d.dict.set var entry }

/-! ## Override names -/

def setvar_keyword : List Text := [text ":append", text ":prepend", text ":remove"]

/-- A keyword at the start of a text, with the overrides after it, up to the end. -/
def keyword_at (s : Text) : Option (Text × Option Text) :=
  setvar_keyword.findSome? fun keyword =>
    if keyword <+: s then
      match s.drop keyword.length with
      | [] => some (keyword, none)
      | ':' :: add => if add.all fun c => !('A' ≤ c && c ≤ 'Z') then some (keyword, some add) else none
      | _ => none
    else none

/-- `__setvar_regexp__.match(var)`: the groups `base`, `keyword` and `add`. -/
def setvar_match : Text → Option (Text × Text × Option Text)
  | [] => (keyword_at []).map fun x => ([], x)
  | c :: cs =>
    match keyword_at (c :: cs) with
    | some x => some ([], x)
    | none => (setvar_match cs).map fun (base, x) => (c :: base, x)

/-- `var[var.rfind(':')+1:]` and `var[:var.rfind(':')]`. Without a colon, `rfind` is -1. -/
def last_colon (var : Text) : Text × Text :=
  if ':' ∈ var then
    let override := (var.reverse.takeWhile (· ≠ ':')).reverse
    (override, var.take (var.length - override.length - 1))
  else (var, var.dropLast)

/-- `__override_regexp__.match(override)`. -/
def override_name : Text → Bool
  | [] => false
  | c :: _ => ('a' ≤ c && c ≤ 'z') || ('0' ≤ c && c ≤ '9')

/-- The next override to the left, and the name before it. -/
def next_override (var shortvar : Text) : Option (Text × Text) :=
  if ':' ∈ shortvar then
    let before := (last_colon shortvar).2
    if before = [] then none else some (var.drop (before.length + 1), before)
  else none

/-- The overrides that a name ends with, each with the name before it, as the while loops of
`_setvar_update_overrides` and `delVar` find them. -/
def override_names (var : Text) : Nat → Text → Text → List (Text × Text)
  | 0, _, _ => []
  | turns + 1, override, shortvar =>
    if override_name override then
      (shortvar, override) :: match next_override var shortvar with
        | some (override, shortvar) => override_names var turns override shortvar
        | none => []
    else []

def overrides_of (var : Text) : List (Text × Text) :=
  override_names var (var.length + 1) (last_colon var).1 (last_colon var).2

def Store.setvar_update_overrides (d : Store) (var : Text) : Store :=
  { d with
    overridedata := (overrides_of var).foldl (fun overridedata (shortvar, override) =>
      let known := (overridedata.get? shortvar).getD []
      overridedata.set shortvar
        (if (var, override) ∈ known then known else known ++ [(var, override)])) d.overridedata }

/-! ## Reading -/

/-- `getVar`, unexpanded. `depth` bounds the recursion over the overridden variables. -/
def getVar (g : Settings) (d : Store) :
    Nat → Text → Bool → Bool → Except DataError (Option Text)
  | 0, _, _, _ => .error .recursionError
  | depth + 1, var, noweakdefault, parsing => do
    let local_var := d.dict.get? var
    let found := (if parsing then none else d.overridedata.get? var).bind
      (override_match (g.overrides d))
    let value ← (match found with
      | some found => getVar g d depth found false false
      | none => .ok none)
    match local_var with
    | none => .ok value
    | some entry =>
      let value := value <|> entry.flags.get? (text "_content") <|>
        (if noweakdefault then none else entry.flags.get? (text "_defaultval"))
      if parsing then .ok value
      else .ok (add_texts (g.overrides d) (fun value r => r ++ value) entry.prepend
        (add_texts (g.overrides d) (· ++ ·) entry.append value))

/-! ## Writing -/

/-- The name holds an operation in the old override syntax, which `setVar` refuses. -/
def old_syntax (var : Text) : Bool :=
  !(text "__anon_" <+: var) &&
    [text "_append", text "_prepend", text "_remove"].any (· <:+: var)

/-- An entry with one more text of a keyword. -/
def Variable.add (entry : Variable) (keyword : Text) (x : Text × Text) : Variable :=
  if keyword = text ":append" then { entry with append := entry.append ++ [x] }
  else if keyword = text ":prepend" then { entry with prepend := entry.prepend ++ [x] }
  else { entry with remove := entry.remove ++ [x] }

def Store.setVarFlag (d : Store) (g : Settings) (var flag value : Text) : Store :=
  let d := { d with failed := d.failed || g.renamed var }
  let entry := d.entry var
  let d := d.setEntry var { entry with flags := entry.flags.set flag value }
  if flag = text "_defaultval" ∧ ':' ∈ var then d.setvar_update_overrides var else d

/-- `setVar` while parsing. -/
def Store.setVar (d : Store) (g : Settings) (var value : Text) : Except DataError Store :=
  if old_syntax var then .error (.raised (text "BBHandledException"))
  else
    let d := { d with failed := d.failed || g.renamed (var.takeWhile (· ≠ ':')) }
    match setvar_match var with
    | some (base, keyword, override) =>
      let d := d.setEntry base (Variable.add (d.entry base) keyword (value, override.getD []))
      .ok (if ':' ∈ var then d.setvar_update_overrides base else d)
    | none =>
      let d := if ':' ∈ var then d.setvar_update_overrides var else d
      let entry := d.entry var
      .ok (d.setEntry var { entry with flags := entry.flags.set (text "_content") value })

def Store.delVar (d : Store) (var : Text) : Store :=
  let overridedata := OrderedDict.del d.overridedata var
  { d.setEntry var noEntry with
    overridedata :=
      if ':' ∈ var then
        (overrides_of var).foldl (fun overridedata (shortvar, override) =>
          match OrderedDict.get? overridedata shortvar with
          | some known => overridedata.set shortvar (known.erase (var, override))
          | none => overridedata) overridedata
      else overridedata }

/-! ## Statements -/

inductive Operator
  | set
  | ques
  | lazyques
  | append
  | prepend
  | postdot
  | predot
  deriving DecidableEq

/-- `DataNode.eval`, for a statement without a flag. -/
def eval_data (g : Settings) (depth : Nat) (d : Store) (key : Text) (op : Operator) (value : Text) :
    Except DataError Store :=
  let getFunc := getVar g d depth key true true
  match op with
  | .set => d.setVar g key value
  | .ques => getFunc.bind fun old => d.setVar g key (old.getD value)
  | .lazyques => .ok (d.setVarFlag g key (text "_defaultval") value)
  | .append => getFunc.bind fun old => d.setVar g key (old.getD [] ++ ' ' :: value)
  | .prepend => getFunc.bind fun old => d.setVar g key (value ++ ' ' :: old.getD [])
  | .postdot => getFunc.bind fun old => d.setVar g key (old.getD [] ++ value)
  | .predot => getFunc.bind fun old => d.setVar g key (value ++ old.getD [])

/-- A statement on a variable. -/
inductive Statement
  | assign (op : Operator) (value : Text)
  | append_override (value : Text)
  | prepend_override (value : Text)
  | unset
  deriving DecidableEq

def eval (g : Settings) (depth : Nat) (name : Text) (d : Store) :
    Statement → Except DataError Store
  | .assign op value => eval_data g depth d name op value
  | .append_override value => eval_data g depth d (name ++ text ":append") .set value
  | .prepend_override value => eval_data g depth d (name ++ text ":prepend") .set value
  | .unset => .ok (d.delVar name)

/-! ## The manual -/

/-- What the statements make of a variable. -/
structure Meaning where
  plain : Option Text
  weak : Option Text
  appends : List Text
  prepends : List Text

def Meaning.unset : Meaning := ⟨none, none, [], []⟩

def Meaning.assign (m : Meaning) (value : Text) : Operator → Meaning
  | .set => { m with plain := some value }
  | .ques => { m with plain := some (m.plain.getD value) }
  | .lazyques => { m with weak := some value }
  | .append => { m with plain := some (m.plain.getD [] ++ ' ' :: value) }
  | .prepend => { m with plain := some (value ++ ' ' :: m.plain.getD []) }
  | .postdot => { m with plain := some (m.plain.getD [] ++ value) }
  | .predot => { m with plain := some (value ++ m.plain.getD []) }

def Meaning.next (m : Meaning) : Statement → Meaning
  | .assign op value => m.assign value op
  | .append_override value => { m with appends := m.appends ++ [value] }
  | .prepend_override value => { m with prepends := m.prepends ++ [value] }
  | .unset => .unset

/-- The weak default stands in for a plain part that is not set. -/
def Meaning.value (m : Meaning) : Option Text :=
  if m.plain.or m.weak = none ∧ m.appends = [] ∧ m.prepends = [] then none
  else some (m.prepends.reverse.flatten ++ (m.plain.or m.weak).getD [] ++ m.appends.flatten)

/-! ## Names without overrides -/

section
variable {name : Text}

theorem keyword_at_of_ne {c : Char} {cs : Text} (h : c ≠ ':') : keyword_at (c :: cs) = none := by
  unfold keyword_at
  rw [List.findSome?_eq_none_iff]
  intro keyword hkeyword
  rw [if_neg]
  intro hprefix
  simp only [setvar_keyword, text, List.mem_cons, List.not_mem_nil, or_false] at hkeyword
  rcases hkeyword with rfl | rfl | rfl <;> simp [List.cons_prefix_cons, h.symm] at hprefix

theorem setvar_match_of_name (h : ':' ∉ name) : setvar_match name = none := by
  induction name with
  | nil => decide
  | cons c cs ih =>
    simp only [List.mem_cons, not_or] at h
    rw [setvar_match, keyword_at_of_ne (Ne.symm h.1), ih h.2]
    rfl

theorem setvar_match_of_keyword {s keyword : Text} (h : ':' ∉ name)
    (hs : setvar_match s = some ([], keyword, none)) :
    setvar_match (name ++ s) = some (name, keyword, none) := by
  induction name with
  | nil => exact hs
  | cons c cs ih =>
    simp only [List.mem_cons, not_or] at h
    rw [List.cons_append, setvar_match, keyword_at_of_ne (Ne.symm h.1), ih h.2]
    rfl

theorem overrides_of_name (h : ':' ∉ name) : ∀ x ∈ overrides_of name, x.1 ≠ name := by
  have hlast : last_colon name = (name, name.dropLast) := if_neg h
  have hnext : next_override name name.dropLast = none :=
    if_neg fun hmem => h (List.dropLast_subset name hmem)
  intro x hx
  unfold overrides_of at hx
  rw [hlast, override_names, hnext] at hx
  split at hx
  · rename_i hname
    rw [List.mem_singleton.mp hx]
    intro heq
    have hlength := congrArg List.length heq
    rw [List.length_dropLast] at hlength
    cases name with
    | nil => cases hname
    | cons c cs =>
      simp only [List.length_cons] at hlength
      omega
  · cases hx

theorem overridedata_update (h : ':' ∉ name) (d : Store) :
    (d.setvar_update_overrides name).overridedata.get? name = d.overridedata.get? name := by
  unfold Store.setvar_update_overrides
  dsimp only
  have hother := overrides_of_name h
  generalize overrides_of name = names at hother
  generalize d.overridedata = overridedata
  induction names generalizing overridedata with
  | nil => rfl
  | cons x xs ih =>
    rw [List.foldl_cons, ih fun y hy => hother y (List.mem_cons_of_mem _ hy)]
    exact OrderedDict.get?_set_other _ _ (hother x List.mem_cons_self).symm

theorem old_syntax_keyword {keyword : Text} (hname : old_syntax name = false)
    (hkeyword : ∀ p ∈ [text "_append", text "_prepend", text "_remove"], ¬p <:+: keyword) :
    old_syntax (name ++ ':' :: keyword) = false := by
  simp only [ old_syntax, Bool.and_eq_false_iff, Bool.not_eq_eq_eq_not, Bool.not_false,
    decide_eq_true_eq, List.any_eq_false] at hname ⊢
  rcases hname with hanon | hnone
  · exact Or.inl (hanon.trans (List.prefix_append name _))
  · refine Or.inr fun p hp hinfix => ?_
    have hcolon : ':' ∉ p := by
      simp only [List.mem_cons, List.not_mem_nil, or_false] at hp
      rcases hp with rfl | rfl | rfl <;> decide
    rcases infix_append_cons hcolon hinfix with h | h
    · exact hnone p hp h
    · exact hkeyword p hp h

/-! ## What a statement does -/

/-- What the store holds for a variable. -/
structure Means (d : Store) (name : Text) (m : Meaning) : Prop where
  plain : (d.entry name).flags.get? (text "_content") = m.plain
  weak : (d.entry name).flags.get? (text "_defaultval") = m.weak
  appends : (d.entry name).append = m.appends.map (·, [])
  prepends : (d.entry name).prepend = m.prepends.map (·, [])
  overridedata : d.overridedata.get? name = none

variable {g : Settings} {d d' : Store} {m : Meaning} {depth : Nat} {value : Text}

theorem Means.empty (name : Text) : Means .empty name .unset := ⟨rfl, rfl, rfl, rfl, rfl⟩

@[simp] theorem entry_setEntry (d : Store) (name : Text) (entry : Variable) :
    (d.setEntry name entry).entry name = entry := by
  simp [Store.entry, Store.setEntry, OrderedDict.get?_set_self]

theorem getVar_entry {noweakdefault parsing : Bool}
    (h : parsing = true ∨ d.overridedata.get? name = none) :
    getVar g d (depth + 1) name noweakdefault parsing =
      let value := (d.entry name).flags.get? (text "_content") <|>
        (if noweakdefault then none else (d.entry name).flags.get? (text "_defaultval"))
      if parsing then .ok value
      else .ok (add_texts (g.overrides d) (fun value r => r ++ value) (d.entry name).prepend
        (add_texts (g.overrides d) (· ++ ·) (d.entry name).append value)) := by
  have hfound : ((if parsing then none else d.overridedata.get? name).bind
      (override_match (g.overrides d))) = none := by
    rcases h with h | h <;> simp [h]
  rw [getVar, hfound]
  unfold Store.entry
  cases hentry : d.dict.get? name with
  | none =>
    have hnone : OrderedDict.get? (V := Text) [] (text "_content") = none := rfl
    have hnone' : OrderedDict.get? (V := Text) [] (text "_defaultval") = none := rfl
    simp [noEntry, hnone, hnone', add_texts, bind, Except.bind]
  | some entry => rfl

theorem Means.getVar_plain (h : Means d name m) :
    getVar g d (depth + 1) name true true = .ok m.plain := by
  rw [getVar_entry (Or.inl rfl), h.plain]
  simp

theorem add_appends (overrides : List Text) (texts : List Text) (value : Option Text) :
    add_texts overrides (· ++ ·) (texts.map (·, [])) value =
      if texts = [] then value else some (value.getD [] ++ texts.flatten) := by
  unfold add_texts
  induction texts generalizing value with
  | nil => rfl
  | cons r rs ih =>
    rw [List.map_cons, List.foldl_cons, ih]
    by_cases hrs : rs = [] <;> simp [applies, hrs]

theorem add_prepends (overrides : List Text) (texts : List Text) (value : Option Text) :
    add_texts overrides (fun value r => r ++ value) (texts.map (·, [])) value =
      if texts = [] then value else some (texts.reverse.flatten ++ value.getD []) := by
  unfold add_texts
  induction texts generalizing value with
  | nil => rfl
  | cons r rs ih =>
    rw [List.map_cons, List.foldl_cons, ih]
    by_cases hrs : rs = [] <;> simp [applies, hrs]

theorem Means.getVar_value (h : Means d name m) :
    getVar g d (depth + 1) name false false = .ok m.value := by
  rw [getVar_entry (Or.inr h.overridedata), h.plain, h.weak, h.appends, h.prepends]
  simp only [Bool.false_eq_true, if_false, add_appends, add_prepends]
  congr 1
  unfold Meaning.value
  cases hplain : m.plain with
  | some plain => by_cases ha : m.appends = [] <;> by_cases hp : m.prepends = [] <;> simp [ha, hp]
  | none =>
    cases hweak : m.weak <;> by_cases ha : m.appends = [] <;> by_cases hp : m.prepends = [] <;>
      simp [ha, hp]

theorem setVar_ok (d : Store) (g : Settings) {var : Text} (value : Text)
    (h : old_syntax var = false) : ∃ d', d.setVar g var value = .ok d' := by
  unfold Store.setVar
  rw [if_neg (ne_true_of_eq_false h)]
  split
  · exact ⟨_, rfl⟩
  · exact ⟨_, rfl⟩

theorem Means.setVar (hname : ':' ∉ name) (h : Means d name m)
    (hset : d.setVar g name value = .ok d') : Means d' name { m with plain := some value } := by
  unfold Store.setVar at hset
  split at hset
  · cases hset
  · simp only [setvar_match_of_name hname] at hset
    obtain rfl := Except.ok.inj hset
    have hentry : ({ d with failed := d.failed || g.renamed (name.takeWhile (· ≠ ':')) } :
        Store).entry name = d.entry name := rfl
    constructor
    · rw [entry_setEntry]
      exact OrderedDict.get?_set_self _ _ _
    · rw [entry_setEntry, hentry]
      exact (OrderedDict.get?_set_other _ _ (by decide)).trans h.weak
    · rw [entry_setEntry]
      exact h.appends
    · rw [entry_setEntry]
      exact h.prepends
    · exact h.overridedata

theorem setVar_keyword {keyword : Text} (hname : ':' ∉ name)
    (hkeyword : setvar_match keyword = some ([], keyword, none)) (hcolon : ':' ∈ keyword)
    (hset : d.setVar g (name ++ keyword) value = .ok d') :
    d'.entry name = Variable.add (d.entry name) keyword (value, []) ∧
      d'.overridedata.get? name = d.overridedata.get? name := by
  unfold Store.setVar at hset
  split at hset
  · cases hset
  · simp only [setvar_match_of_keyword hname hkeyword,
      if_pos (List.mem_append_right name hcolon)] at hset
    obtain rfl := Except.ok.inj hset
    constructor
    · exact entry_setEntry _ _ _
    · exact overridedata_update hname _

theorem Means.setVar_append (hname : ':' ∉ name) (h : Means d name m)
    (hset : d.setVar g (name ++ text ":append") value = .ok d') :
    Means d' name { m with appends := m.appends ++ [value] } := by
  obtain ⟨hentry, hoverridedata⟩ := setVar_keyword hname (by decide) (by decide) hset
  have hadd : d'.entry name =
      { d.entry name with append := (d.entry name).append ++ [(value, [])] } := hentry
  refine ⟨?_, ?_, ?_, ?_, hoverridedata.trans h.overridedata⟩
  · rw [hadd, ← h.plain]
  · rw [hadd, ← h.weak]
  · simp [hadd, h.appends]
  · rw [hadd, ← h.prepends]

theorem Means.setVar_prepend (hname : ':' ∉ name) (h : Means d name m)
    (hset : d.setVar g (name ++ text ":prepend") value = .ok d') :
    Means d' name { m with prepends := m.prepends ++ [value] } := by
  obtain ⟨hentry, hoverridedata⟩ := setVar_keyword hname (by decide) (by decide) hset
  have hadd : d'.entry name =
      { d.entry name with prepend := (d.entry name).prepend ++ [(value, [])] } := hentry
  refine ⟨?_, ?_, ?_, ?_, hoverridedata.trans h.overridedata⟩
  · rw [hadd, ← h.plain]
  · rw [hadd, ← h.weak]
  · rw [hadd, ← h.appends]
  · simp [hadd, h.prepends]

theorem Means.setVarFlag (hname : ':' ∉ name) (h : Means d name m) (value : Text) :
    Means (d.setVarFlag g name (text "_defaultval") value) name { m with weak := some value } := by
  have hentry : ({ d with failed := d.failed || g.renamed name } : Store).entry name =
      d.entry name := rfl
  unfold Store.setVarFlag
  simp only [hname, and_false, if_false]
  constructor
  · rw [entry_setEntry, hentry]
    exact (OrderedDict.get?_set_other _ _ (by decide)).trans h.plain
  · rw [entry_setEntry]
    exact OrderedDict.get?_set_self _ _ _
  · rw [entry_setEntry]
    exact h.appends
  · rw [entry_setEntry]
    exact h.prepends
  · exact h.overridedata

theorem Means.delVar (hname : ':' ∉ name) (d : Store) : Means (d.delVar name) name .unset := by
  have hentry : (d.delVar name).entry name = noEntry := entry_setEntry d name noEntry
  refine ⟨?_, ?_, ?_, ?_, ?_⟩
  · rw [hentry]
    rfl
  · rw [hentry]
    rfl
  · rw [hentry]
    rfl
  · rw [hentry]
    rfl
  · simp only [Store.delVar, hname, if_false]
    simp [OrderedDict.del, OrderedDict.get?, List.find?_filter]

theorem Means.eval (hname : ':' ∉ name) (h : Means d name m) {s : Statement}
    (heval : eval g (depth + 1) name d s = .ok d') : Means d' name (m.next s) := by
  cases s with
  | unset =>
    obtain rfl := Except.ok.inj heval
    exact Means.delVar hname d
  | append_override value => exact h.setVar_append hname heval
  | prepend_override value => exact h.setVar_prepend hname heval
  | assign op value =>
    unfold assignments.eval eval_data at heval
    cases op with
    | set => exact h.setVar hname heval
    | lazyques =>
      obtain rfl := Except.ok.inj heval
      exact h.setVarFlag hname value
    | ques =>
      simp only [h.getVar_plain, Except.bind] at heval
      exact h.setVar hname heval
    | append =>
      simp only [h.getVar_plain, Except.bind] at heval
      exact h.setVar hname heval
    | prepend =>
      simp only [h.getVar_plain, Except.bind] at heval
      exact h.setVar hname heval
    | postdot =>
      simp only [h.getVar_plain, Except.bind] at heval
      exact h.setVar hname heval
    | predot =>
      simp only [h.getVar_plain, Except.bind] at heval
      exact h.setVar hname heval

theorem Means.eval_ok (hname : old_syntax name = false) (h : Means d name m) (s : Statement) :
    ∃ d', assignments.eval g (depth + 1) name d s = .ok d' := by
  cases s with
  | unset => exact ⟨_, rfl⟩
  | append_override value =>
    exact setVar_ok d g value (old_syntax_keyword hname (by decide))
  | prepend_override value =>
    exact setVar_ok d g value (old_syntax_keyword hname (by decide))
  | assign op value =>
    unfold assignments.eval eval_data
    cases op with
    | set => exact setVar_ok d g _ hname
    | lazyques => exact ⟨_, rfl⟩
    | _ =>
      simp only [h.getVar_plain, Except.bind]
      exact setVar_ok d g _ hname

def evalAll (g : Settings) (depth : Nat) (name : Text) (stmts : List Statement) :
    Except DataError Store := stmts.foldlM (assignments.eval g depth name) .empty

theorem Means.evalAll (hname : ':' ∉ name) (h : Means d name m) {stmts : List Statement}
    (heval : stmts.foldlM (assignments.eval g (depth + 1) name) d = .ok d') :
    Means d' name (stmts.foldl Meaning.next m) := by
  induction stmts generalizing d m with
  | nil =>
    obtain rfl := Except.ok.inj heval
    exact h
  | cons s stmts ih =>
    rw [List.foldlM_cons] at heval
    obtain ⟨d₁, hfirst, hrest⟩ := bind_ok heval
    exact ih (h.eval hname hfirst) hrest

theorem Means.evalAll_ok (hname : ':' ∉ name) (hnew : old_syntax name = false)
    (h : Means d name m) (stmts : List Statement) :
    ∃ d', stmts.foldlM (assignments.eval g (depth + 1) name) d = .ok d' := by
  induction stmts generalizing d m with
  | nil => exact ⟨d, rfl⟩
  | cons s stmts ih =>
    obtain ⟨d₁, hfirst⟩ : ∃ d', assignments.eval g (depth + 1) name d s = .ok d' := h.eval_ok hnew s
    obtain ⟨d', hrest⟩ := ih (h.eval hname hfirst)
    refine ⟨d', ?_⟩
    rw [List.foldlM_cons, hfirst]
    exact hrest

end

/-! ## The value that is read -/

/-- The statements on a name without overrides are evaluated unless the name holds the old
override syntax, the value that is read at last is the one of the manual, and neither `?=` nor
`??=` changes a plain part that is set. -/
theorem value_is_that_of_the_manual (g : Settings) (depth : Nat) (name : Text)
    (hname : ':' ∉ name) (stmts : List Statement) :
    ( old_syntax name = false → ∃ d, evalAll g (depth + 1) name stmts = .ok d) ∧
    ∀ d, evalAll g (depth + 1) name stmts = .ok d →
      getVar g d (depth + 1) name false false = .ok (stmts.foldl Meaning.next .unset).value ∧
      ∀ plain value, getVar g d (depth + 1) name true true = .ok (some plain) →
        ∀ op, op = .ques ∨ op = .lazyques →
          ∀ d', eval g (depth + 1) name d (.assign op value) = .ok d' →
            getVar g d' (depth + 1) name true true = .ok (some plain) := by
  refine ⟨fun hnew => (Means.empty name).evalAll_ok hname hnew stmts, fun d heval => ?_⟩
  have hmeans := (Means.empty name).evalAll hname heval
  refine ⟨hmeans.getVar_value, fun plain value hplain op hop d' heval' => ?_⟩
  rw [hmeans.getVar_plain] at hplain
  rw [(hmeans.eval hname heval').getVar_plain]
  have hset := Except.ok.inj hplain
  rcases hop with rfl | rfl <;> simp [Meaning.next, Meaning.assign, hset]

def plainSettings : Settings := ⟨fun _ => false, fun _ => []⟩

theorem values_of_the_manual :
    (∃ d, evalAll plainSettings 1 (text "W")
        [.assign .lazyques (text "x"), .assign .append (text "y")] = .ok d ∧
      getVar plainSettings d 1 (text "W") false false = .ok (some (text " y"))) ∧
    ∃ d, evalAll plainSettings 1 (text "W")
        [.assign .lazyques (text "x"), .append_override (text "y")] = .ok d ∧
      getVar plainSettings d 1 (text "W") false false = .ok (some (text "xy")) := by
  constructor
  · obtain ⟨hok, hvalue⟩ := value_is_that_of_the_manual plainSettings 0 (text "W") (by decide)
      [.assign .lazyques (text "x"), .assign .append (text "y")]
    obtain ⟨d, hd⟩ := hok (by decide)
    exact ⟨d, hd, (hvalue d hd).1⟩
  · obtain ⟨hok, hvalue⟩ := value_is_that_of_the_manual plainSettings 0 (text "W") (by decide)
      [.assign .lazyques (text "x"), .append_override (text "y")]
    obtain ⟨d, hd⟩ := hok (by decide)
    exact ⟨d, hd, (hvalue d hd).1⟩

end yocto.assignments
