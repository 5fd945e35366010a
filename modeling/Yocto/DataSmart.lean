-- The values of variables (`getVarFlag` of data_smart.py): an override can take the place of
-- the value, then come the appends and prepends whose overrides are active, and at last the
-- active `:remove` words take words out of the expanded text.
import Yocto.ListSearch
import Yocto.TaskIds
import Yocto.OrderedDict
import Yocto.Raising

open yocto.list_search yocto.task_ids yocto.ordered_dict yocto.raising

namespace yocto.data_smart

/-! ## Words -/

def isspace (c : Char) : Bool :=
  let n := c.toNat
  (9 ≤ n && n ≤ 13) || (28 ≤ n && n ≤ 32) || n = 0x85 || n = 0xA0 || n = 0x1680 ||
    (0x2000 ≤ n && n ≤ 0x200A) || n = 0x2028 || n = 0x2029 || n = 0x202F || n = 0x205F || n = 0x3000

def words (s : Text) : List Text := (s.splitOnP isspace).filter (· ≠ [])

theorem mem_words {s w : Text} (h : w ∈ words s) : w ≠ [] ∧ ∀ c ∈ w, isspace c = false := by
  have hparts : ∀ part ∈ s.splitOnP isspace, ∀ c ∈ part, isspace c = false := by
    clear h
    induction s with
    | nil => simp
    | cons c s ih =>
      rw [List.splitOnP_cons_eq_if_modifyHead]
      split
      · simpa using ih
      · rename_i hspace
        obtain ⟨part, parts, hsplit⟩ := List.exists_cons_of_ne_nil (List.splitOnP_ne_nil isspace s)
        rw [hsplit] at ih ⊢
        rw [List.forall_mem_cons] at ih
        simp only [List.modifyHead_cons, List.forall_mem_cons]
        exact ⟨⟨by simpa using hspace, ih.1⟩, ih.2⟩
  obtain ⟨hpart, hne⟩ := List.mem_filter.mp h
  exact ⟨of_decide_eq_true hne, hparts w hpart⟩

/-- `__whitespace_split__.split(s)`: the parts between the white space, and the white space. -/
def whitespace_split : Text → List Text
  | [] => [[]]
  | c :: cs =>
    if isspace c then [] :: [c] :: whitespace_split cs
    else match whitespace_split cs with
      | part :: parts => (c :: part) :: parts
      | [] => [[c]]

/-! ## The store -/

/-- What a call on a datastore can raise. -/
inductive DataError
  | indexError
  | recursionError
  | raised (what : Text)
  deriving DecidableEq, Repr

/-- What an expansion gives: the value, and what the text refers to. -/
structure Expansion where
  value : Option Text
  references : Finset Text
  execs : Finset Text
  contains : OrderedDict Text (List Text)

/-- An expansion, with the attribute `removes` that `getVarFlag` sets when there are words to
remove. -/
structure VariableParse extends Expansion where
  removes : Option (List Text)

/-- The entry of a variable: its flags, and the texts with their overrides. -/
structure Variable where
  flags : OrderedDict Text Text
  append : List (Text × Text)
  prepend : List (Text × Text)
  remove : List (Text × Text)

/-- A store. `findVar` is `_findVar`, `overrides` what `need_overrides` leaves, and
`expandWithRefs` what the expansion of a text gives, for a name or for none. -/
structure DataSmart where
  findVar : Text → Option Variable
  overridedata : Text → Option (List (Text × Text))
  overrides : List Text
  expandWithRefs : Option Text → Option Text → Except DataError Expansion

/-! ## Overrides -/

/-- All parts of the override are active. -/
def applies (overrides : List Text) (o : Text) : Bool :=
  o = [] || (o.splitOn ':').all (· ∈ overrides)

/-- The overrides of a variable that are active, with the names of the overridden variables. -/
def active_overrides (overrides : List Text) (overridedata : List (Text × Text)) :
    OrderedDict Text Text :=
  overridedata.foldl (fun active (r, o) =>
    if o ∈ overrides ∨ ':' ∈ o ∧ ∀ part ∈ o.splitOn ':', part ∈ overrides then active.set o r
    else active) []

/-- One turn of the inner loop: `a` loses the override at its end, or it is the override. -/
def match_key (o : Text) (acc : OrderedDict Text Text × Option Text × Bool) (a : Text) :
    OrderedDict Text Text × Option Text × Bool :=
  match acc.1.get? a with
  | none => acc
  | some t =>
    if ':' :: o <:+ a then ((acc.1.del a).set (replace (':' :: o) [] a) t, acc.2.1, true)
    else if a = o then (acc.1.del a, some t, acc.2.2)
    else acc

def match_round (overrides : List Text) (active : OrderedDict Text Text) (found : Option Text) :
    OrderedDict Text Text × Option Text × Bool :=
  overrides.foldl (fun acc o => (acc.1.map Prod.fst).foldl (match_key o) acc) (active, found, false)

/-- The while loop. Each turn but the last one makes a name shorter. -/
def match_loop (overrides : List Text) :
    Nat → OrderedDict Text Text → Option Text → Option Text
  | 0, _, found => found
  | turns + 1, active, found =>
    match match_round overrides active found with
    | (active, found, true) => match_loop overrides turns active found
    | (_, found, false) => found

/-- The name of the variable that takes the place of this one. -/
def override_match (overrides : List Text) (overridedata : List (Text × Text)) : Option Text :=
  let active := active_overrides overrides overridedata
  (match_loop overrides ((active.map fun x => x.1.length).sum + 1) active none).filter (· ≠ [])

/-! ## `getVarFlag` -/

def add_texts (overrides : List Text) (join : Text → Text → Text) (texts : List (Text × Text))
    (value : Option Text) : Option Text :=
  texts.foldl (fun value (r, o) =>
    if applies overrides o then some (join (value.getD []) r) else value) value

/-- The words to remove: those carried over and those of the variable whose overrides are active. -/
def active_removes (overrides : List Text) (carried : List Text) (texts : List (Text × Text)) :
    List Text :=
  texts.foldl (fun removes (r, o) =>
    if applies overrides o ∧ r ∉ removes then removes ++ [r] else removes) carried

/-- Each text to remove with the words it stands for. -/
def expand_removes (d : DataSmart) : List Text → Except DataError (List (Text × List Text))
  | [] => .ok []
  | r :: rs => do
    let parser ← d.expandWithRefs (some r) none
    let rest ← expand_removes d rs
    .ok ((r, words (parser.value.getD [])) :: rest)

/-- The words are taken out of the value, and the texts that took one out are kept. -/
def take_out (removes : List (Text × List Text)) (parser : Expansion) : VariableParse :=
  let parts := whitespace_split (parser.value.getD [])
  { parser with
    removes := some ((removes.filter fun r => parts.any (· ∈ r.2)).map Prod.fst)
    value := some (parts.filter fun v => removes.all (v ∉ ·.2)).flatten }

def isContent (flag : Text) : Bool := flag = text "_content"

/-- The value before appends: that of the override, or that of the entry, or its default. -/
def own_value (flag : Text) (local_var : Option Variable) (value : Option Text) : Option Text :=
  match value, local_var with
  | none, some v =>
    match v.flags.get? flag with
    | some value => some value
    | none => if isContent flag then v.flags.get? (text "_defaultval") else none
  | value, _ => value

def full_value (d : DataSmart) (flag : Text) (local_var : Option Variable) (value : Option Text) :
    Option Text :=
  match local_var with
  | some v =>
    if isContent flag then
      add_texts d.overrides (fun value r => r ++ value) v.prepend
        (add_texts d.overrides (· ++ ·) v.append (own_value flag local_var value))
    else own_value flag local_var value
  | none => value

def own_removes (overrides carried : List Text) (local_var : Option Variable) : List Text :=
  match local_var with
  | some v => active_removes overrides carried v.remove
  | none => carried

/-- `getVarFlag` with `retparser`, without the cache. -/
def getVarFlag (d : DataSmart) :
    Nat → Text → Text → Bool → Except DataError (Option Text × VariableParse)
  | 0, _, _, _ => .error .recursionError
  | depth + 1, var, flag, expand =>
    if flag = [] then .error (.raised (text "TypeError"))
    else do
      let cachename := if isContent flag then var else var ++ '[' :: (flag ++ [']'])
      let local_var := d.findVar var
      let found := (if isContent flag then d.overridedata var else none).bind
        (override_match d.overrides)
      let (value, carried) ← (match found with
        | some found => (getVarFlag d depth found (text "_content") false).map fun (value, parser) =>
            (value, parser.removes.getD [])
        | none => .ok (none, []))
      let parser ← d.expandWithRefs (full_value d flag local_var value) (some cachename)
      let value := if expand then parser.value else full_value d flag local_var value
      let removes := if isContent flag then own_removes d.overrides carried local_var else []
      if value.getD [] = [] ∨ removes = [] then .ok (value, { parser with removes := none })
      else do
        let removes ← expand_removes d removes
        let parser := take_out removes parser
        .ok (if expand then parser.value else value, parser)

/-- `getVarFlags`: the flags of the entry, those of `expand` expanded. -/
def getVarFlags (d : DataSmart) (var : Text) (expand : List Text) :
    Except DataError (OrderedDict Text Text) :=
  match d.findVar var with
  | none => .ok []
  | some v =>
    (v.flags.filter fun x => ¬ (['_'] <+: x.1 ∨ [':'] <+: x.1)).mapM fun (i, value) =>
      if i ∈ expand then do
        let parser ← d.expandWithRefs (some value) (some (var ++ '[' :: (i ++ [']'])))
        .ok (i, parser.value.getD [])
      else .ok (i, value)

/-- The words of `:remove` that are active for a variable: those that the overridden variable
carries over, and its own. -/
def activeRemoves (d : DataSmart) (depth : Nat) (var : Text) : List Text :=
  let carried := match (d.overridedata var).bind (override_match d.overrides) with
    | some found => match getVarFlag d depth found (text "_content") false with
      | .ok (_, parser) => parser.removes.getD []
      | .error _ => []
    | none => []
  own_removes d.overrides carried (d.findVar var)

theorem expand_removes_ok {d : DataSmart} {removes : List Text}
    {expanded : List (Text × List Text)} (h : expand_removes d removes = .ok expanded) :
    expanded.map Prod.fst = removes := by
  induction removes generalizing expanded with
  | nil =>
    obtain rfl := Except.ok.inj h
    rfl
  | cons r rs ih =>
    obtain ⟨parser, _, h⟩ := bind_ok h
    obtain ⟨rest, hrest, h⟩ := bind_ok h
    obtain rfl := Except.ok.inj h
    rw [List.map_cons, ih hrest]

theorem getVarFlag_removes {d : DataSmart} {depth : Nat} {var : Text} {value : Option Text}
    {parser : VariableParse} {expand : Bool}
    (h : getVarFlag d (depth + 1) var (text "_content") expand = .ok (value, parser)) :
    ∀ r ∈ parser.removes.getD [], r ∈ activeRemoves d depth var := by
  rw [getVarFlag, if_neg (by decide)] at h
  obtain ⟨⟨found, carried⟩, hfound, h⟩ := bind_ok h
  obtain ⟨expansion, _, h⟩ := bind_ok h
  have hcontent : isContent (text "_content") = true := by decide
  simp only [hcontent, if_true] at hfound h
  have hactive : activeRemoves d depth var = own_removes d.overrides carried (d.findVar var) := by
    unfold activeRemoves
    rcases hover : (d.overridedata var).bind (override_match d.overrides) with _ | other
    · rw [hover] at hfound
      obtain ⟨_, rfl⟩ := Prod.mk.inj (Except.ok.inj hfound)
      rfl
    · rw [hover] at hfound
      obtain ⟨⟨v, sub⟩, hsub, hpair⟩ := map_ok hfound
      obtain ⟨_, rfl⟩ := Prod.mk.inj hpair
      simp only [hsub]
  rw [hactive]
  generalize (if expand = true then expansion.value else _) = shown at h
  split at h
  · obtain ⟨_, rfl⟩ := Prod.mk.inj (Except.ok.inj h)
    simp
  · obtain ⟨expanded, hexpanded, h⟩ := bind_ok h
    obtain ⟨_, rfl⟩ := Prod.mk.inj (Except.ok.inj h)
    intro r hr
    rw [← expand_removes_ok hexpanded]
    simp only [take_out, Option.getD_some, List.mem_map, List.mem_filter] at hr ⊢
    obtain ⟨x, ⟨hx, _⟩, rfl⟩ := hr
    exact ⟨x, hx, rfl⟩

end yocto.data_smart
