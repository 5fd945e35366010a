-- The datastore of bitbake with all that a read may change (data_smart.py): the levels that
-- `createCopy` makes, the overrides that are computed where they are first needed, and the
-- cache of the expansions.
import Yocto.OverrideChoice
import Yocto.Triples

open yocto.list_search yocto.task_ids yocto.ordered_dict yocto.data_smart yocto.triples
open yocto.triples.Prog (raise modify reading collect)
open yocto.assignments (Store noEntry setvar_match old_syntax)

namespace yocto.data_store

/-! ## The store -/

def content : Text := text "_content"

def defaultval : Text := text "_defaultval"

structure Query where
  var : Text
  flag : Text
  expand : Bool
  noweakdefault : Bool
  parsing : Bool
  retparser : Bool
  deriving DecidableEq, Repr

def Query.get (var : Text) : Query := ⟨var, content, true, false, false, false⟩

/-- `getVar(var, expand=False)`. -/
def Query.plain (var : Text) : Query := ⟨var, content, false, false, false, false⟩

/-- How the variant of a variable is read. -/
def Query.variant (var : Text) : Query := ⟨var, content, false, false, false, true⟩

def Query.cachename (q : Query) : Text :=
  if q.flag = content then q.var else q.var ++ '[' :: (q.flag ++ [']'])

/-- What an expansion gives: the value, and what the text refers to. -/
structure Expanded where
  value : Option Text
  references : List Text
  execs : List Text
  contains : OrderedDict Text (List Text)
  deriving DecidableEq, Repr

/-- What the expansion of a text does: it reads variables, and it ends or raises. -/
inductive Code
  | done (parse : Expanded)
  | raises (e : DataError)
  | reads (q : Query) (k : Option Text → Code)

/-- A `VariableParse`, with the attribute `removes` that `getVarFlag` may set. -/
structure Parse extends Expanded where
  unexpanded : Option Text
  removes : Option (List Text)
  others : List Text
  under : Option (List Text)
  deriving DecidableEq, Repr

/-- A `DataSmart`. The variable `_FAILPARSINGERRORHANDLED` is the field `failed`, and the list of
the exported variables is left out. -/
structure Data where
  dict : OrderedDict Text Variable
  parents : List (OrderedDict Text Variable)
  overridedata : OrderedDict Text (List (Text × Text))
  overrides : Option (List Text)
  overridesset : List Text
  overridevars : List Text
  inoverride : Bool
  expand_cache : OrderedDict Text Parse
  var_renames : List Text
  failed : Bool
  rounds : Nat

def Data.empty : Data where
  dict := []
  parents := []
  overridedata := []
  overrides := none
  overridesset := []
  overridevars := [text "OVERRIDES", text "FILE"]
  inoverride := false
  expand_cache := []
  var_renames := [text "BB_ENV_WHITELIST", text "BB_ENV_EXTRAWHITE", text "BB_HASHBASE_WHITELIST",
    text "BB_HASHCONFIG_WHITELIST", text "BB_HASHTASK_WHITELIST",
    text "BB_SETSCENE_ENFORCE_WHITELIST", text "MULTI_PROVIDER_WHITELIST",
    text "BB_STAMP_WHITELIST", text "BB_STAMP_POLICY"]
  failed := false
  rounds := 0

/-- `_findVar`: the entry in the nearest level that has one. -/
def Data.findVar (d : Data) (var : Text) : Option Variable :=
  (d.dict :: d.parents).findSome? fun level => level.get? var

/-- A call on a store. What it did stays when it raises. -/
abbrev Call (α : Type) := Prog Data DataError α

/-- How a text is expanded, for a name or for none. -/
abbrev Expander := Text → Option Text → Code

/-- What is no text is its own value. -/
def expandWithRefs (g : Expander) (s : Option Text) (varname : Option Text) : Code :=
  match s with
  | some s => g s varname
  | none => .done ⟨none, [], [], []⟩

abbrev Read := Query → Call (Option Text × Option Parse)

def run (read : Read) : Code → Call Expanded
  | .done parse => pure parse
  | .raises e => raise e
  | .reads q k => do
    let (value, _) ← read q
    run read (k value)

/-! ## `need_overrides` -/

/-- `(value or "").split(":")`. -/
def split_overrides (value : Option Text) : List Text := (value.getD []).splitOn ':'

def override_rounds (read : Read) : Nat → Call Unit
  | 0 => raise (.raised (text "BBHandledException"))
  | count + 1 => do
    -- Can end up here recursively so setup dummy values
    modify fun d => { d with
      inoverride := true, overrides := some [], overridesset := [], rounds := d.rounds + 1 }
    let (value, _) ← read (.get (text "OVERRIDES"))
    let overrides := split_overrides value
    modify fun d => { d with
      overrides := some overrides, overridesset := overrides, inoverride := false,
      expand_cache := [] }
    let (value, _) ← read (.get (text "OVERRIDES"))
    let newoverrides := split_overrides value
    reading fun d =>
      if some newoverrides = d.overrides then pure ()
      else do
        modify fun d => { d with overrides := some newoverrides, overridesset := newoverrides }
        override_rounds read count

def need_overrides (read : Read) : Call Unit := reading fun d =>
  if d.overrides.isSome then pure ()
  else if d.inoverride then pure ()
  else override_rounds read 5

/-! ## `getVarFlag` -/

def cached (d : Data) (q : Query) : Option (Option Text × Parse) :=
  match d.expand_cache.get? q.cachename with
  | none => none
  | some p =>
    if q.expand then some (p.value, p)
    else if q.retparser then some (p.unexpanded, p)
    else none

/-- The variant that the loop over the overrides finds. -/
def override_of (d : Data) (data : List (Text × Text)) : Except DataError (Option Text) :=
  match d.overrides with
  | none => .error (.raised (text "TypeError"))
  | some overrides =>
    let active := active_overrides d.overridesset data
    .ok ((match_loop overrides ((active.map fun x => x.1.length).sum + 1) active none).filter (· ≠ []))

/-- The variant's parse where it has words to remove: the cache holds the same object. -/
abbrev Carrier := Option (Text × Parse)

/-- The value of the variant that takes the place of the variable. -/
def override_value (read : Read) (q : Query) : Call (Option Text × Carrier) := reading fun d =>
  match (if q.flag = content ∧ !q.parsing then d.overridedata.get? q.var else none) with
  | none => pure (none, none)
  | some data => do
    need_overrides read
    reading fun d =>
      match override_of d data with
      | .error e => raise e
      | .ok none => pure (none, none)
      | .ok (some found) => do
        let (value, subparser) ← read (.variant found)
        pure (value, (subparser.filter (·.removes.isSome)).map (found, ·))

/-- The value of the entry, or its default. -/
def entry_value (q : Query) (local_var : Option Variable) (value : Option Text) : Option Text :=
  match value, local_var with
  | none, some v =>
    match v.flags.get? q.flag with
    | some value => some value
    | none => if q.flag = content ∧ !q.noweakdefault then v.flags.get? defaultval else none
  | value, _ => value

def active_texts (overrides : Option (List Text)) (texts : List (Text × Text)) :
    Except DataError (List Text) :=
  match overrides with
  | some overrides => .ok ((texts.filter fun x => applies overrides x.2).map Prod.fst)
  | none =>
    if texts.all (·.2 = []) then .ok (texts.map Prod.fst) else .error (.raised (text "TypeError"))

def add_active (read : Read) (join : Text → Text → Text) (texts : List (Text × Text))
    (value : Option Text) : Call (Option Text) :=
  if texts = [] then pure value
  else do
    need_overrides read
    reading fun d =>
      match active_texts d.overrides texts with
      | .error e => raise e
      | .ok rs => pure (rs.foldl (fun value r => some (join (value.getD []) r)) value)

/-- The value before it is expanded. -/
def unexpanded_value (read : Read) (q : Query) : Call (Option Text × Carrier) := reading fun d => do
  let local_var := d.findVar q.var
  let (value, carrier) ← override_value read q
  let value := entry_value q local_var value
  match local_var with
  | some v =>
    if q.flag = content ∧ !q.parsing then do
      let value ← add_active read (· ++ ·) v.append value
      let value ← add_active read (fun value r => r ++ value) v.prepend value
      pure (value, carrier)
    else pure (value, carrier)
  | none => pure (value, carrier)

/-- The words that the variant carries over, as they are now. -/
def carried (carrier : Carrier) (d : Data) : List Text :=
  match carrier with
  | none => []
  | some (name, parser) => ((d.expand_cache.get? name).getD parser).removes.getD []

/-- `removes.add(r)`, on the set of a parse. -/
def Parse.add (p : Parse) (r : Text) : Parse :=
  if r ∈ p.removes.getD [] then p
  else { p with removes := some (p.removes.getD [] ++ [r]), others := p.others ++ [r] }

/-- `removes.add(r)` for each `r`, and the set as it is then. The set of the variant's parse is
the one that is added to. -/
def add_removes (carrier : Carrier) (rs : List Text) : Call (List Text) :=
  match carrier with
  | none => pure (rs.foldl (fun removes r => if r ∈ removes then removes else removes ++ [r]) [])
  | some (name, parser) => reading fun d =>
    match d.expand_cache.get? name with
    | none => pure ((rs.foldl Parse.add parser).removes.getD [])
    | some p => do
      modify fun d => { d with expand_cache := d.expand_cache.set name (rs.foldl Parse.add p) }
      pure ((rs.foldl Parse.add p).removes.getD [])

def unchanged (carrier : Carrier) (removes : List Text) (d : Data) : Bool :=
  match carrier.bind fun x => d.expand_cache.get? x.1 with
  | none => true
  | some p => p.removes.getD [] = removes

/-- The words to remove: those carried over and the variable's own whose overrides are active. -/
def own_removes (read : Read) (q : Query) (local_var : Option Variable) (value : Option Text)
    (carrier : Carrier) : Call (List Text) :=
  match local_var with
  | some v =>
    if value.getD [] ≠ [] ∧ q.flag = content ∧ v.remove ≠ [] ∧ !q.parsing then do
      need_overrides read
      reading fun d =>
        match active_texts d.overrides v.remove with
        | .error e => raise e
        | .ok rs => add_removes carrier rs
    else reading fun d => pure (carried carrier d)
  | none => reading fun d => pure (carried carrier d)

/-- Each text to remove with its words. The set may not change while it is gone through. -/
def expand_removes (g : Expander) (read : Read) (same : Data → Bool) :
    List Text → Call (List (Text × List Text))
  | [] => pure []
  | r :: rs => do
    let parser ← run read (expandWithRefs g (some r) none)
    reading fun d =>
      if same d then do
        let rest ← expand_removes g read same rs
        pure ((r, words (parser.value.getD [])) :: rest)
      else raise (.raised (text "RuntimeError"))

/-- The words are taken out of the value, and the texts that took one out are kept. -/
def take_out (removes : List (Text × List Text)) (parser : Parse) : Parse :=
  let parts := whitespace_split (parser.value.getD [])
  { parser with
    removes := some ((removes.filter fun r => parts.any (· ∈ r.2)).map Prod.fst)
    value := some (parts.filter fun v => removes.all (v ∉ ·.2)).flatten }

/-- The words are removed, where there is a value to take them out of. -/
def take_words (g : Expander) (read : Read) (q : Query) (value : Option Text) (carrier : Carrier)
    (removes : List Text) (parser : Parse) : Call Parse :=
  if value.getD [] ≠ [] ∧ q.flag = content ∧ !q.parsing ∧ removes ≠ [] then do
    let expanded ← expand_removes g read (unchanged carrier removes) removes
    pure (take_out expanded parser)
  else pure parser

def remove_words (g : Expander) (read : Read) (q : Query) (local_var : Option Variable)
    (value : Option Text) (carrier : Carrier) (parser : Option Parse) : Call (Option Parse) := do
  let removes ← own_removes read q local_var value carrier
  match parser with
  | some parser => do
    let parser ← take_words g read q value carrier removes parser
    pure (some parser)
  | none => pure none

/-- The parse, where the caller asks for a value that is expanded, or for the parse. -/
def parse_value (g : Expander) (read : Read) (q : Query) (value : Option Text) :
    Call (Option Parse) :=
  if q.expand ∨ q.retparser then do
    let expanded ← run read (expandWithRefs g value (some q.cachename))
    pure (some { expanded with unexpanded := value, removes := none, others := [], under := none })
  else pure none

def store_parse (q : Query) (value : Option Text) (parser : Option Parse) :
    Call (Option Text × Option Parse) :=
  match parser with
  | some parser => do
    modify fun d => { d with
      expand_cache := d.expand_cache.set q.cachename { parser with under := d.overrides } }
    pure (if q.expand then parser.value else value, some parser)
  | none => pure (value, none)

/-- The value is expanded, and words are removed from it. -/
def expanded_value (g : Expander) (read : Read) (q : Query) (local_var : Option Variable)
    (value : Option Text) (carrier : Carrier) : Call (Option Text × Option Parse) := do
  let parser ← parse_value g read q value
  let value := if q.expand then parser.bind (·.value) else value
  let parser ← remove_words g read q local_var value carrier parser
  store_parse q value parser

/-- `fuel` bounds the recursion, as the interpreter does. -/
def getVarFlag (g : Expander) : Nat → Read
  | 0, _ => raise .recursionError
  | fuel + 1, q =>
    if q.flag = [] then pure (none, none)
    else reading fun d =>
      match cached d q with
      | some (value, parser) => pure (value, some parser)
      | none => do
        let local_var := d.findVar q.var
        let (value, carrier) ← unexpanded_value (getVarFlag g fuel) q
        expanded_value g (getVarFlag g fuel) q local_var value carrier

/-- `getVarFlags`: the flags of the entry, those of `expand` expanded. -/
def getVarFlags (g : Expander) (fuel : Nat) (var : Text) (expand : List Text) (internalflags : Bool) :
    Call (Option (OrderedDict Text (Option Text))) := reading fun d => do
  let flags ← collect (fun (i, value) =>
    if i ∈ expand then do
      let parser ← run (getVarFlag g fuel)
        (expandWithRefs g (some value) (some (var ++ '[' :: (i ++ [']']))))
      pure (i, parser.value)
    else pure (i, some value))
    (((d.findVar var).getD noEntry).flags.filter fun x =>
      internalflags || !(['_'] <+: x.1 ∨ [':'] <+: x.1))
  pure (if flags = [] then none else some flags)

/-! ## Writing -/

/-- `_makeShadowCopy` and `initVar`: the entry is copied to the own level, or an empty one made. -/
def Data.shadow (d : Data) (var : Text) : Data :=
  if (d.dict.get? var).isSome then d
  else { d with dict := d.dict.set var ((d.findVar var).getD noEntry) }

def Data.entry (d : Data) (var : Text) : Variable := (d.dict.get? var).getD noEntry

def Data.setEntry (d : Data) (var : Text) (entry : Variable) : Data :=
  { d with dict := d.dict.set var entry }

def Data.setvar_update_overrides (d : Data) (var : Text) : Data :=
  { d with overridedata :=
      (Store.setvar_update_overrides ⟨[], d.overridedata, false⟩ var).overridedata }

/-- What a text refers to, and what it looks for in other variables. -/
def refers (parse : Expanded) : List Text := parse.references ++ parse.contains.map Prod.fst

/-- The while loop: what the names in `new` refer to is put to `overridevars`, and so on. -/
def update_overridevars_loop (g : Expander) (fuel : Nat) : Nat → List Text → Call Unit
  | 0, _ => raise .recursionError
  | turns + 1, new => reading fun d =>
    if new.all (· ∈ d.overridevars) then pure ()
    else do
      modify fun d => { d with
        overridevars := d.overridevars ++ new.filter (· ∉ d.overridevars) }
      let nextnew ← collect (fun i => do
        let (value, _) ← getVarFlag g fuel (.get i)
        let vardata ← run (getVarFlag g fuel) (expandWithRefs g value (some i))
        pure (refers vardata)) new
      update_overridevars_loop g fuel turns nextnew.flatten

def setvar_update_overridevars (g : Expander) (fuel : Nat) (var value : Text) : Call Unit := do
  let vardata ← run (getVarFlag g fuel) (g value (some var))
  update_overridevars_loop g fuel fuel (refers vardata)
  modify fun d => { d with overrides := none }

/-- How `setVarFlag` begins: the renamed variables, and an entry to write to. -/
def Data.begin_flag (d : Data) (var flag : Text) : Data :=
  let d := { d with
    expand_cache := []
    var_renames := if var = text "BB_RENAMED_VARIABLES" then d.var_renames ++ [flag]
      else d.var_renames }
  { d with failed := d.failed || decide (var ∈ d.var_renames) }.shadow var

/-- `setVarFlag` with a flag that is a text. -/
def setVarFlag (g : Expander) (fuel : Nat) (var flag value : Text) : Call Unit := do
  modify fun d =>
    let d := d.begin_flag var flag
    let d := d.setEntry var { d.entry var with flags := (d.entry var).flags.set flag value }
    if flag = defaultval ∧ ':' ∈ var then d.setvar_update_overrides var else d
  reading fun d =>
    if flag = defaultval ∧ var ∈ d.overridevars then setvar_update_overridevars g fuel var value
    else pure ()

/-- `setVarFlag` with the texts of a keyword, which have one more. -/
def Data.add (d : Data) (base keyword : Text) (x : Text × Text) : Data :=
  let d := d.begin_flag base keyword
  d.setEntry base (assignments.Variable.add (d.entry base) keyword x)

def Data.delVar (d : Data) (var : Text) : Data :=
  { d with
    expand_cache := []
    dict := d.dict.set var noEntry
    overridedata := (Store.delVar ⟨[], d.overridedata, false⟩ var).overridedata }

/-- The active variants of a variable, of which `setVar` deletes each one. -/
def active_of (d : Data) (data : List (Text × Text)) : List Text :=
  (data.filter fun x => decide (x.2 ∈ d.overridesset ∨ ':' ∈ x.2 ∧
    ∀ part ∈ x.2.splitOn ':', part ∈ d.overridesset)).map Prod.fst

/-- What `setVar` clears when it does not come from the parser. -/
def clear_variable (read : Read) (var : Text) (parsing : Bool) : Call Unit :=
  if parsing then pure ()
  else do
    modify fun d => d.setEntry var { d.entry var with append := [], prepend := [], remove := [] }
    reading fun d =>
      match d.overridedata.get? var with
      | none => pure ()
      | some _ => do
        need_overrides read
        modify fun d => (active_of d ((d.overridedata.get? var).getD [])).foldl Data.delVar d
        reading fun d =>
          if (d.overridedata.get? var).isSome then
            modify fun d => { d with overridedata := OrderedDict.del d.overridedata var }
          else raise (.raised (text "KeyError"))

def setVar (g : Expander) (fuel : Nat) (var value : Text) (parsing : Bool) : Call Unit :=
  if old_syntax var then raise (.raised (text "BBHandledException"))
  else do
    modify fun d => { d with
      failed := d.failed || decide (var.takeWhile (· ≠ ':') ∈ d.var_renames), expand_cache := [] }
    match setvar_match var with
    | some (base, keyword, override) => do
      modify fun d =>
        let d := d.add base keyword (value, override.getD [])
        if ':' ∈ var then d.setvar_update_overrides base else d
      reading fun d =>
        if base ∈ d.overridevars then setvar_update_overridevars g fuel var value else pure ()
    | none => do
      modify fun d => d.shadow var
      clear_variable (getVarFlag g fuel) var parsing
      modify fun d =>
        let d := if ':' ∈ var then d.setvar_update_overrides var else d
        d.setEntry var { d.entry var with flags := (d.entry var).flags.set content value }
      reading fun d =>
        if var ∈ d.overridevars then setvar_update_overridevars g fuel var value else pure ()

/-- A flag is taken out of an entry: a text, or the texts of a keyword. -/
def del_flag (entry : Variable) (flag : Text) : Variable :=
  if flag = text ":append" then { entry with append := [] }
  else if flag = text ":prepend" then { entry with prepend := [] }
  else if flag = text ":remove" then { entry with remove := [] }
  else { entry with flags := OrderedDict.del entry.flags flag }

def is_empty (entry : Variable) : Bool :=
  entry.flags.isEmpty && entry.append.isEmpty && entry.prepend.isEmpty && entry.remove.isEmpty

def Data.delVarFlag (d : Data) (var flag : Text) : Data :=
  let d := { d with expand_cache := [] }
  match d.findVar var with
  | none => d
  | some entry =>
    if is_empty entry then d
    else
      let d := d.shadow var
      d.setEntry var (del_flag (d.entry var) flag)

/-- `delVarFlags`: the content is saved; without one the entry is taken out of the level. -/
def Data.delVarFlags (d : Data) (var : Text) : Data :=
  let d := { d with expand_cache := [] }.shadow var
  match (d.entry var).flags.get? content with
  | some value => d.setEntry var { noEntry with flags := [(content, value)] }
  | none => { d with dict := OrderedDict.del d.dict var }

def Data.createCopy (d : Data) : Data :=
  { d with
    dict := []
    parents := d.dict :: d.parents
    overrides := none
    overridesset := []
    inoverride := false
    expand_cache := [] }

/-- A call on the innermost store. -/
inductive Action
  | getVarFlag (q : Query)
  | getVarFlags (var : Text) (expand : List Text) (internalflags : Bool)
  | setVar (var value : Text) (parsing : Bool)
  | setVarFlag (var flag value : Text)
  | delVar (var : Text)
  | delVarFlag (var flag : Text)
  | delVarFlags (var : Text)
  | createCopy
  deriving DecidableEq

/-- The store after a call, also when the call raised. -/
def act (g : Expander) (fuel : Nat) (d : Data) : Action → Data
  | .getVarFlag q => (getVarFlag g fuel q d).2
  | .getVarFlags var expand internalflags => (getVarFlags g fuel var expand internalflags d).2
  | .setVar var value parsing => (setVar g fuel var value parsing d).2
  | .setVarFlag var flag value => (setVarFlag g fuel var flag value d).2
  | .delVar var => d.delVar var
  | .delVarFlag var flag => d.delVarFlag var flag
  | .delVarFlags var => d.delVarFlags var
  | .createCopy => d.createCopy

/-! ## A text with references -/

/-- A piece of a text: a character, or the name in `${name}`. -/
inductive Piece
  | char (c : Char)
  | reference (name : Text)
  deriving DecidableEq

def var_char (c : Char) : Bool :=
  ('a' ≤ c && c ≤ 'z') || ('A' ≤ c && c ≤ 'Z') || ('0' ≤ c && c ≤ '9') || c ∈ text "-_+./~:"

/-- The name of the reference that a text begins with. -/
def reference_at (s : Text) : Option Text :=
  if text "$\x7b" <+: s then
    let name := (s.drop 2).takeWhile var_char
    if name ≠ [] ∧ ['}'] <+: s.drop (2 + name.length) then some name else none
  else none

/-- The pieces of a text, once `skip` characters are passed. -/
def pieces : Nat → Text → List Piece
  | _, [] => []
  | skip + 1, _ :: cs => pieces skip cs
  | 0, c :: cs =>
    match reference_at (c :: cs) with
    | some name => .reference name :: pieces (name.length + 2) cs
    | none => .char c :: pieces 0 cs

/-- `__expand_var_regexp__.sub(varparse.var_sub, s)`, and what is to be done then. -/
def var_sub (varname : Option Text) (k : Text → List Text → Code) :
    List Piece → Text → List Text → Code
  | [], done, references => k done references
  | .char c :: rest, done, references => var_sub varname k rest (done ++ [c]) references
  | .reference name :: rest, done, references =>
    if varname = some name then .raises (.raised (text "references itself"))
    else .reads (.get name) fun value =>
      var_sub varname k rest (done ++ value.getD (text "$\x7b" ++ name ++ ['}']))
        (if name ∈ references then references else references ++ [name])

/-- The loop of `expandWithRefs`, for texts without Python in them. -/
def expand_loop (varname : Option Text) : Nat → Text → List Text → Code
  | 0, _, _ => .raises .recursionError
  | turns + 1, s, references =>
    if text "$\x7b" <:+: s then
      var_sub varname (fun s' references =>
        if s' = s then .done ⟨some s, references, [], []⟩
        else expand_loop varname turns s' references) (pieces 0 s) [] references
    else .done ⟨some s, references, [], []⟩

/-- The expansion of texts without Python in them. -/
def plainText : Expander := fun s varname => expand_loop varname 1000 s []

end yocto.data_store
