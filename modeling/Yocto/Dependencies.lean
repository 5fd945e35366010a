-- The names that the value of a variable or function depends on (`build_dependencies` of
-- data.py).
import Yocto.DataSmart
import Yocto.SigGen

open yocto.list_search yocto.task_ids yocto.ordered_dict yocto.raising yocto.data_smart

namespace yocto.dependencies

/-! ## What the function is given -/

structure Datastore where
  getVar : Text → Except DataError (Option Text)
  getVarFlags : Text → Except DataError (OrderedDict Text Text)
  getVarFlag : Text → Text → Except DataError (Option Text × VariableParse)
  expandWithRefs : Text → Except DataError Expansion
  activeRemoves : Text → List Text
  removes_active : ∀ key value parser, getVarFlag key (text "_content") = .ok (value, parser) →
    ∀ r ∈ parser.removes.getD [], r ∈ activeRemoves key

/-- What `modulecode_deps` holds of a function of a python module. -/
structure ModuleCode where
  references : Finset Text
  execs : Finset Text
  contains : OrderedDict Text (List Text)
  value : Text

/-- The arguments of `build_dependencies` that are the same for all keys, and its two parsers. -/
structure Context where
  keys : Finset Text
  modulecode_deps : Text → Option ModuleCode
  shelldeps : Finset Text
  varflagsexcl : Option Text
  ignored_vars : Finset Text
  d : Datastore
  codeparsedata : Datastore
  parse_python : Text → Option Text → Except DataError Expansion
  parse_shell : Text → Option Text → Except DataError (Finset Text)

/-! ## The function -/

def sorted_texts (l : List Text) : List Text := siggen.sorted (fun a b => decide (a ≤ b)) l

/-- The lines for one `contains` entry: for each item whether all its words are there. -/
def contains_lines (present : List Text) (k : Text) (items : List Text) : Text :=
  (sorted_texts items).flatMap fun item =>
    '\n' :: (k ++ '{' :: (item ++ (if (words item).all (· ∈ present) then text "\x7d = Set"
      else text "\x7d = Unset")))

def contains_loop (cx : Context) (contains : OrderedDict Text (List Text)) (exclusions : List Text) :
    List Text → Text → Except DataError Text
  | [], value => .ok value
  | k :: ks, value =>
    if k ∈ exclusions ∨ k ∈ cx.ignored_vars then contains_loop cx contains exclusions ks value
    else do
      let var ← cx.d.getVar k
      let lines := contains_lines (words (var.getD [])) k ((contains.get? k).getD [])
      contains_loop cx contains exclusions ks (value ++ lines)

def handle_contains (cx : Context) (value : Option Text) (contains : OrderedDict Text (List Text))
    (exclusions : List Text) : Except DataError Text :=
  contains_loop cx contains exclusions (sorted_texts (contains.map Prod.fst)) (value.getD [])

def remove_loop (cx : Context) (exclusions : List Text) :
    Bool → Finset Text → Finset Text → Text → List Text → Except DataError (Text × Finset Text)
  | _, outer, _, value, [] => .ok (value, outer)
  | shared, outer, deps, value, r :: rs => do
    let r2 ← cx.d.expandWithRefs r
    let value := value ++ text "\n_remove of " ++ r
    let deps := deps ∪ r2.references
    let outer := if shared then deps else outer
    -- a new set under the local name
    let deps := deps ∪ (cx.keys ∩ r2.execs)
    let value ← handle_contains cx (some value) r2.contains exclusions
    remove_loop cx exclusions false outer deps value rs

/-- `handle_remove`, with the set of the caller as it is afterwards. -/
def handle_remove (cx : Context) (value : Text) (deps : Finset Text) (removes : List Text)
    (exclusions : List Text) : Except DataError (Text × Finset Text) :=
  remove_loop cx exclusions true deps deps value (sorted_texts removes)

def flagValue (varflags : OrderedDict Text Text) (flag : String) : Option Text :=
  varflags.get? (text flag)

def flagWords (varflags : OrderedDict Text Text) (flag : String) : Finset Text :=
  (words ((flagValue varflags flag).getD [])).toFinset

/-- A key `name[flag]`. -/
def flag_dependencies (cx : Context) (key : Text) :
    Except DataError (Finset Text × Option Text) :=
  match key.dropLast.splitOn '[' with
  | name :: flag :: _ =>
    if flag = text "vardepvalueexclude" then .ok (∅, some [])
    else do
      let (value, parser) ← cx.d.getVarFlag name flag
      .ok ((parser.references ∪ (cx.keys ∩ parser.execs)) \ cx.ignored_vars, value)
  | _ => .error .indexError

def function_flags (varflags : OrderedDict Text Text) : Finset Text :=
  flagWords varflags "prefuncs" ∪ flagWords varflags "postfuncs" ∪ flagWords varflags "exports"

def python_dependencies (cx : Context) (key : Text) (varflags : OrderedDict Text Text)
    (exclusions : List Text) : Except DataError (Finset Text × Text) := do
  let (value, _) ← cx.codeparsedata.getVarFlag key (text "_content")
  let parser ← cx.parse_python key value
  let deps := parser.references ∪ (cx.keys ∩ parser.execs)
  let value ← handle_contains cx value parser.contains exclusions
  .ok (deps ∪ function_flags varflags, value)

/-- The value with what the removes add, when there are some. -/
def with_removes (cx : Context) (value : Text) (deps : Finset Text) (removes : Option (List Text))
    (exclusions : List Text) : Except DataError (Text × Finset Text) :=
  match removes with
  | some removes => handle_remove cx value deps removes exclusions
  | none => .ok (value, deps)

def shell_dependencies (cx : Context) (key : Text) (varflags : OrderedDict Text Text)
    (exclusions : List Text) : Except DataError (Finset Text × Text) := do
  let (value, parsedvar) ← cx.codeparsedata.getVarFlag key (text "_content")
  let execs ← cx.parse_shell key parsedvar.value
  let deps := cx.shelldeps ∪ parsedvar.references ∪ (cx.keys ∩ execs) ∪ (cx.keys ∩ parsedvar.execs)
  let value ← handle_contains cx value parsedvar.contains exclusions
  let (value, deps) ← with_removes cx value deps parsedvar.removes exclusions
  .ok (deps ∪ function_flags varflags, value)

def variable_dependencies (cx : Context) (key : Text) (exclusions : List Text) :
    Except DataError (Finset Text × Text) := do
  let (value, parser) ← cx.d.getVarFlag key (text "_content")
  let deps := parser.references ∪ (cx.keys ∩ parser.execs)
  let value ← handle_contains cx value parser.contains exclusions
  let (value, deps) ← with_removes cx value deps parser.removes exclusions
  .ok (deps, value)

/-- The pseudo-dependencies `key[flag]`, for the flags whose name is no part of the exclusions. -/
def flag_names (cx : Context) (key : Text) (varflags : OrderedDict Text Text) : Finset Text :=
  match cx.varflagsexcl with
  | some excl =>
    if excl = [] then ∅
    else ((varflags.map Prod.fst).filter fun f => ¬ f <:+: excl).toFinset.image
      fun f => key ++ '[' :: (f ++ [']'])
  | none => ∅

/-- The parts of the value that `vardepvalueexclude` names are left out. -/
def exclude_values (varflags : OrderedDict Text Text) (value : Text) : Text :=
  match flagValue varflags "vardepvalueexclude" with
  | some exclude =>
    ((exclude.splitOn '|').filter (· ≠ [])).foldl (fun value excl => replace excl [] value) value
  | none => value

/-- A flag that is set to something. -/
def isSet (varflags : OrderedDict Text Text) (flag : String) : Bool :=
  ((flagValue varflags flag).getD []) ≠ []

def build_dependencies (cx : Context) (key : Text) :
    Except DataError (Finset Text × Option Text) :=
  match cx.modulecode_deps key with
  | some moddep => do
    let value ← handle_contains cx (some moddep.value) moddep.contains []
    .ok ((moddep.references ∪ (cx.keys ∩ moddep.execs)) \ cx.ignored_vars, some value)
  | none =>
    match key.getLast? with
    | none => .error .indexError
    | some last =>
      if last = ']' then flag_dependencies cx key
      else do
        let varflags ← cx.d.getVarFlags key
        let exclusions := words ((flagValue varflags "vardepsexclude").getD [])
        let (deps, value) ← (match flagValue varflags "vardepvalue" with
          | some value => .ok (∅, value)
          | none =>
            if isSet varflags "func" then
              if isSet varflags "python" then python_dependencies cx key varflags exclusions
              else shell_dependencies cx key varflags exclusions
            else variable_dependencies cx key exclusions)
        let value := exclude_values varflags value
        let deps := deps ∪ flag_names cx key varflags ∪ flagWords varflags "vardeps"
        .ok ((deps \ exclusions.toFinset) \ cx.ignored_vars, some value)

/-! ## What was referred to -/

variable {cx : Context} {key : Text} {varflags : OrderedDict Text Text}

/-- The names that the expansion of a text to remove refers to. -/
def word_references (cx : Context) (r : Text) : Finset Text :=
  match cx.d.expandWithRefs r with
  | .ok r2 => r2.references
  | .error _ => ∅

/-- The names among the keys that the expansion of a text to remove executes. -/
def word_execs (cx : Context) (r : Text) : Finset Text :=
  match cx.d.expandWithRefs r with
  | .ok r2 => cx.keys ∩ r2.execs
  | .error _ => ∅

/-- What was found while the value of a variable or a shell function was expanded: the parse, and
the executed names, of which a shell parser finds some. -/
def content (cx : Context) (key : Text) (varflags : OrderedDict Text Text) :
    Except DataError (VariableParse × Finset Text) :=
  if isSet varflags "func" then do
    let (_, parsedvar) ← cx.codeparsedata.getVarFlag key (text "_content")
    let execs ← cx.parse_shell key parsedvar.value
    .ok (parsedvar, execs ∪ parsedvar.execs)
  else do
    let (_, parser) ← cx.d.getVarFlag key (text "_content")
    .ok (parser, parser.execs)

/-- The `:remove` texts that are active for the key. -/
def active_words (cx : Context) (key : Text) (varflags : OrderedDict Text Text) : List Text :=
  if isSet varflags "func" then cx.codeparsedata.activeRemoves key else cx.d.activeRemoves key

def named (cx : Context) (parse : VariableParse) (execs : Finset Text) : Finset Text :=
  parse.references ∪ (cx.keys ∩ execs)

/-- The names that come from flags, and for a function those of the exported variables. -/
def by_flags (cx : Context) (key : Text) (varflags : OrderedDict Text Text) : Finset Text :=
  flagWords varflags "vardeps" ∪ flag_names cx key varflags ∪
    if isSet varflags "func" then cx.shelldeps ∪ function_flags varflags else ∅

/-- The first of the words that took something out of the value. -/
def first_word (parse : VariableParse) : Option Text :=
  (sorted_texts (parse.removes.getD [])).head?

/-- What the first word refers to. -/
def first_references (cx : Context) (parse : VariableParse) : Finset Text :=
  match first_word parse with
  | some r => word_references cx r
  | none => ∅

/-! ## What is returned -/

theorem remove_loop_own {exclusions rs : List Text} {outer deps outer' : Finset Text}
    {value value' : Text}
    (h : remove_loop cx exclusions false outer deps value rs = .ok (value', outer')) :
    outer' = outer := by
  induction rs generalizing deps value with
  | nil => exact (Prod.mk.inj (Except.ok.inj h)).2.symm
  | cons r rs ih =>
    obtain ⟨r2, _, h⟩ := bind_ok h
    obtain ⟨_, _, h⟩ := bind_ok h
    exact ih h

theorem with_removes_ok {parse : VariableParse} {exclusions : List Text}
    {deps deps' : Finset Text} {value value' : Text}
    (h : with_removes cx value deps parse.removes exclusions = .ok (value', deps')) :
    deps' = deps ∪ first_references cx parse := by
  unfold with_removes at h
  unfold first_references first_word
  split at h
  · rename_i removes hremoves
    rw [hremoves, Option.getD_some]
    unfold handle_remove at h
    generalize sorted_texts removes = rs at h ⊢
    rcases rs with _ | ⟨r, rs⟩
    · obtain ⟨_, rfl⟩ := Prod.mk.inj (Except.ok.inj h)
      simp
    · obtain ⟨r2, hr2, h⟩ := bind_ok h
      obtain ⟨_, _, h⟩ := bind_ok h
      rw [remove_loop_own h]
      simp [word_references, hr2]
  · rename_i hremoves
    obtain ⟨_, rfl⟩ := Prod.mk.inj (Except.ok.inj h)
    simp [hremoves, sorted_texts, siggen.sorted]

theorem build_dependencies_eq {parse : VariableParse} {execs deps : Finset Text}
    {value : Option Text} (hmod : cx.modulecode_deps key = none) (hkey : key.getLast? ≠ some ']')
    (hflags : cx.d.getVarFlags key = .ok varflags)
    (hvardepvalue : flagValue varflags "vardepvalue" = none)
    (hshell : isSet varflags "func" → isSet varflags "python" = false)
    (hcontent : content cx key varflags = .ok (parse, execs))
    (h : build_dependencies cx key = .ok (deps, value)) :
    deps = ((named cx parse execs ∪ first_references cx parse ∪ by_flags cx key varflags) \
      flagWords varflags "vardepsexclude") \ cx.ignored_vars := by
  unfold build_dependencies at h
  rw [hmod] at h
  rcases hlast : key.getLast? with _ | last
  · rw [hlast] at h
    cases h
  have hne : last ≠ ']' := fun heq => hkey (heq ▸ hlast)
  rw [hlast] at h
  dsimp only at h
  rw [if_neg hne] at h
  obtain ⟨varflags', hflags', h⟩ := bind_ok h
  obtain rfl := Except.ok.inj (hflags.symm.trans hflags')
  obtain ⟨⟨found, text⟩, hfound, h⟩ := bind_ok h
  obtain ⟨rfl, _⟩ := Prod.mk.inj (Except.ok.inj h)
  rw [hvardepvalue] at hfound
  dsimp only at hfound
  unfold content at hcontent
  by_cases hfunc : isSet varflags "func"
  · rw [if_pos hfunc] at hcontent hfound
    rw [if_neg (by simp [hshell hfunc])] at hfound
    obtain ⟨⟨value, parsedvar⟩, hvar, hcontent⟩ := bind_ok hcontent
    obtain ⟨shellexecs, hparse, hcontent⟩ := bind_ok hcontent
    obtain ⟨rfl, rfl⟩ := Prod.mk.inj (Except.ok.inj hcontent)
    obtain ⟨⟨value', parsedvar'⟩, hvar', hfound⟩ := bind_ok hfound
    obtain ⟨rfl, rfl⟩ := Prod.mk.inj (Except.ok.inj (hvar.symm.trans hvar'))
    obtain ⟨shellexecs', hparse', hfound⟩ := bind_ok hfound
    obtain rfl := Except.ok.inj (hparse.symm.trans hparse')
    obtain ⟨_, _, hfound⟩ := bind_ok hfound
    obtain ⟨⟨_, found'⟩, hremoves, hfound⟩ := bind_ok hfound
    obtain ⟨rfl, _⟩ := Prod.mk.inj (Except.ok.inj hfound)
    rw [with_removes_ok hremoves, named, by_flags, if_pos hfunc, Finset.inter_union_distrib_left]
    simp only [flagWords]
    congr 2
    ac_rfl
  · rw [if_neg hfunc] at hcontent hfound
    obtain ⟨⟨value, parser⟩, hvar, hcontent⟩ := bind_ok hcontent
    obtain ⟨rfl, rfl⟩ := Prod.mk.inj (Except.ok.inj hcontent)
    obtain ⟨⟨value', parser'⟩, hvar', hfound⟩ := bind_ok hfound
    obtain ⟨rfl, rfl⟩ := Prod.mk.inj (Except.ok.inj (hvar.symm.trans hvar'))
    obtain ⟨_, _, hfound⟩ := bind_ok hfound
    obtain ⟨⟨_, found'⟩, hremoves, hfound⟩ := bind_ok hfound
    obtain ⟨rfl, _⟩ := Prod.mk.inj (Except.ok.inj hfound)
    rw [with_removes_ok hremoves, named, by_flags, if_neg hfunc, Finset.union_empty]
    simp only [flagWords]
    congr 2
    ac_rfl

/-! ## When nothing is lost -/

/-- The name was referred to while the value was expanded, or one of the words. -/
def Referenced (cx : Context) (parse : VariableParse) (execs : Finset Text) (active : List Text)
    (name : Text) : Prop :=
  name ∈ named cx parse execs ∨ ∃ r ∈ active, name ∈ word_references cx r ∨ name ∈ word_execs cx r

def LeftOut (cx : Context) (varflags : OrderedDict Text Text) (name : Text) : Prop :=
  name ∈ flagWords varflags "vardepsexclude" ∨ name ∈ cx.ignored_vars

/-- Every name that was referred to is returned, and nothing else but what the flags add. -/
structure Exact (cx : Context) (key : Text) (varflags : OrderedDict Text Text)
    (parse : VariableParse) (execs deps : Finset Text) : Prop where
  complete : ∀ name, Referenced cx parse execs (active_words cx key varflags) name →
    ¬ LeftOut cx varflags name → name ∈ deps
  nothing_else : ∀ name ∈ deps, ¬ LeftOut cx varflags name ∧
    (Referenced cx parse execs (active_words cx key varflags) name ∨
      name ∈ by_flags cx key varflags)

/-- What the words refer to beyond the references of the first word is named elsewhere too. -/
def WordsNamed (cx : Context) (key : Text) (varflags : OrderedDict Text Text)
    (parse : VariableParse) (execs : Finset Text) : Prop :=
  ∀ r ∈ active_words cx key varflags, ∀ name,
    name ∈ word_references cx r ∧ first_word parse ≠ some r ∨ name ∈ word_execs cx r →
    LeftOut cx varflags name ∨ name ∈ named cx parse execs ∨ name ∈ first_references cx parse ∨
      name ∈ by_flags cx key varflags

theorem first_word_active {parse : VariableParse} {execs : Finset Text} {r : Text}
    (hcontent : content cx key varflags = .ok (parse, execs)) (hr : first_word parse = some r) :
    r ∈ active_words cx key varflags := by
  have hin : r ∈ parse.removes.getD [] := by
    have h := List.mem_of_mem_head? (Option.mem_def.mpr hr)
    exact (List.perm_insertionSort _ _).mem_iff.mp h
  unfold active_words
  unfold content at hcontent
  split
  · rename_i hfunc
    rw [if_pos hfunc] at hcontent
    obtain ⟨⟨value, parsedvar⟩, hvar, hcontent⟩ := bind_ok hcontent
    obtain ⟨_, _, hcontent⟩ := bind_ok hcontent
    obtain ⟨rfl, _⟩ := Prod.mk.inj (Except.ok.inj hcontent)
    exact cx.codeparsedata.removes_active key value parsedvar hvar r hin
  · rename_i hfunc
    rw [if_neg hfunc] at hcontent
    obtain ⟨⟨value, parser⟩, hvar, hcontent⟩ := bind_ok hcontent
    obtain ⟨rfl, _⟩ := Prod.mk.inj (Except.ok.inj hcontent)
    exact cx.d.removes_active key value parser hvar r hin

theorem mem_first_references {parse : VariableParse} {name : Text} :
    name ∈ first_references cx parse ↔
      ∃ r, first_word parse = some r ∧ name ∈ word_references cx r := by
  unfold first_references
  rcases first_word parse with _ | r <;> simp

def expandedFlags : List Text :=
  [text "vardeps", text "vardepvalue", text "vardepsexclude", text "exports", text "postfuncs",
    text "prefuncs", text "lineno", text "filename"]

def ofStore (d : DataSmart) (depth : Nat) : Datastore where
  getVar key := (getVarFlag d (depth + 1) key (text "_content") true).map Prod.fst
  getVarFlags key := getVarFlags d key expandedFlags
  getVarFlag var flag := getVarFlag d (depth + 1) var flag false
  expandWithRefs r := d.expandWithRefs (some r) none
  activeRemoves := activeRemoves d depth
  removes_active _ _ _ h := getVarFlag_removes h

/-- A variable `V` with the words `a` and `b`, and the `:remove` texts `removes`; `R1` is `a` and
`R2` is `b`. -/
def wordStore (removes : List String) : DataSmart where
  findVar name :=
    if name = text "V" then
      some ⟨[(text "_content", text "a b")], [], [], removes.map fun r => (text r, [])⟩
    else if name = text "R1" then some ⟨[(text "_content", text "a")], [], [], []⟩
    else if name = text "R2" then some ⟨[(text "_content", text "b")], [], [], []⟩
    else none
  overridedata _ := none
  overrides := []
  expandWithRefs s _ :=
    if s = some (text "${R1}") then .ok ⟨some (text "a"), {text "R1"}, ∅, []⟩
    else if s = some (text "${R2}") then .ok ⟨some (text "b"), {text "R2"}, ∅, []⟩
    else .ok ⟨s, ∅, ∅, []⟩

def wordContext (removes : List String) : Context where
  keys := {text "V", text "R1", text "R2"}
  modulecode_deps _ := none
  shelldeps := ∅
  varflagsexcl := none
  ignored_vars := ∅
  d := ofStore (wordStore removes) 1
  codeparsedata := ofStore (wordStore removes) 1
  parse_python _ _ := .ok ⟨none, ∅, ∅, []⟩
  parse_shell _ _ := .ok ∅

end yocto.dependencies
