-- The signature generator of siggen.py with its unihashes. A task hash is made from the base
-- hash of a task and the unihashes of its dependencies.
import Yocto.ListSearch
import Yocto.TaskIds
import Yocto.Raising

open yocto.list_search yocto.task_ids

namespace yocto.siggen

/-! ## The state -/

/-- What a call can raise: a missing key, a task id without a task name, or `bb.fatal`. -/
inductive PyError
  | keyError
  | indexError
  | fatal
  deriving DecidableEq, Repr

abbrev Dict (V : Type) := Text → Option V

def lookup {V : Type} (d : Dict V) (key : Text) : Except PyError V :=
  match d key with
  | some v => .ok v
  | none => .error .keyError

/-- `hashlib.sha256(data.encode("utf-8")).hexdigest()`. -/
structure Sha256 where
  hexdigest : Text → Text
  length_hexdigest : ∀ data, (hexdigest data).length = 64

/-- What `dataCaches` holds of the tasks and the recipe files. -/
structure DataCaches where
  basetaskhash : Dict Text
  pkg_fn : Dict Text
  nostamp : Text → Bool

/-! ## Calls that may raise -/

theorem lookup_ok {V : Type} {d : Dict V} {key : Text} {v : V} (h : lookup d key = .ok v) :
    d key = some v := by
  unfold lookup at h
  split at h
  · rename_i hv
    rw [hv, Except.ok.inj h]
  · cases h

/-! ## The generator -/

structure Siggen where
  basehash : Dict Text
  runtaskdeps : Dict (List (Text × Text))
  file_checksum_values : Dict (List (Text × Text))
  taints : Dict Text
  tidtopn : Dict Text
  taskhash : Dict Text
  unihash : Dict (Option Text)
  unitaskhashes : Dict (Text × Text)
  setscenetasks : List Text

/-- The generator before any call, with the table that an earlier build left. -/
def Siggen.init (unitaskhashes : Dict (Text × Text)) (setscenetasks : List Text) : Siggen :=
  { basehash := fun _ => none, runtaskdeps := fun _ => none, file_checksum_values := fun _ => none
    taints := fun _ => none, tidtopn := fun _ => none, taskhash := fun _ => none
    unihash := fun _ => none, unitaskhashes, setscenetasks }

/-- A value that counts as true in a condition: None and the empty text do not. -/
def truthy (value : Option Text) : Option Text := value.filter (· ≠ [])

def namesOf (tid : Text) : Except PyError Names :=
  match split_tid_mcfn tid with
  | some n => .ok n
  | none => .error .indexError

/-! ## The unihashes -/

def set_unihash (s : Siggen) (tid unihash : Text) : Except PyError Siggen := do
  let n ← namesOf tid
  let pn ← lookup s.tidtopn tid
  let taskhash ← lookup s.taskhash tid
  .ok { s with
    unitaskhashes := Function.update s.unitaskhashes (joined n.mc pn n.taskname) (taskhash, unihash)
    unihash := Function.update s.unihash tid (some unihash) }

def _get_unihash (s : Siggen) (tid : Text) (checkkey : Option Text) :
    Except PyError (Option Text) :=
  match s.tidtopn tid with
  | none => .ok none
  | some pn => do
    let n ← namesOf tid
    match s.unitaskhashes (joined n.mc pn n.taskname) with
    | none => .ok none
    | some (key, unihash) =>
      let check ← match truthy checkkey with
        | some check => .ok check
        | none => lookup s.taskhash tid
      .ok (if key ≠ check then none else some unihash)

def get_cached_unihash (s : Siggen) (tid : Text) : Except PyError (Siggen × Option Text) := do
  let taskhash ← lookup s.taskhash tid
  if s.setscenetasks ≠ [] ∧ tid ∉ s.setscenetasks then
    .ok ({ s with unihash := Function.update s.unihash tid (some none) }, some taskhash)
  else
    match ← _get_unihash s tid none with
    | some unihash =>
      .ok ({ s with unihash := Function.update s.unihash tid (some (some unihash)) }, some unihash)
    | none => .ok (s, none)

/-- The first loop of `get_unihashes`: the cached unihashes, and the tasks to ask for. -/
def cached_loop : Siggen → List Text → Dict Text → List Text →
    Except PyError (Siggen × Dict Text × List Text)
  | s, [], result, queries => .ok (s, result, queries)
  | s, tid :: tids, result, queries => do
    let (s', unihash) ← get_cached_unihash s tid
    match truthy unihash with
    | some u => cached_loop s' tids (Function.update result tid u) queries
    | none => cached_loop s' tids result (if tid ∈ queries then queries else queries ++ [tid])

/-- The last loop of `get_unihashes`. `server` gives the answer for each task, a text or None. -/
def query_loop (server : Text → Option Text) : Siggen → List Text → Dict Text →
    Except PyError (Siggen × Dict Text)
  | s, [], result => .ok (s, result)
  | s, tid :: tids, result => do
    let taskhash ← lookup s.taskhash tid
    -- without an answer the task hash is the unihash
    let unihash := (truthy (server tid)).getD taskhash
    let s' ← set_unihash s tid unihash
    query_loop server s' tids (Function.update result tid unihash)

def get_unihashes (server : Text → Option Text) (s : Siggen) (tids : List Text) :
    Except PyError (Siggen × Dict Text) := do
  let (s', result, queries) ← cached_loop s tids (fun _ => none) []
  query_loop server s' queries result

def get_unihash (server : Text → Option Text) (s : Siggen) (tid : Text) :
    Except PyError (Siggen × Text) := do
  let (s', result) ← get_unihashes server s [tid]
  .ok (s', ← lookup result tid)

/-- `get_stampfile_hash`, with the one of the base class in its last lines. -/
def get_stampfile_hash (s : Siggen) (tid : Text) : Except PyError Text :=
  match s.taskhash tid with
  | some taskhash => do
    match ← _get_unihash s tid none with
    | some unihash => .ok unihash
    | none => .ok taskhash
  | none => lookup s.basehash tid

/-! ## The task hash -/

def build_pnid (mc pn taskname : Text) : Text :=
  if mc ≠ [] then text "mc:" ++ mc ++ ':' :: (pn ++ ':' :: taskname) else pn ++ ':' :: taskname

/-- The loop of `prep_taskhash` over the dependencies. -/
def rundep_loop (caches : DataCaches) (rundep_check : Text → Text → Text → Text → Text → Bool)
    (s : Siggen) (n : Names) (recipename : Text) :
    List Text → Except PyError (List (Text × Text))
  | [] => .ok []
  | dep :: deps => do
    let d ← namesOf dep
    let dep_pn ← lookup caches.pkg_fn d.mcfn
    if !rundep_check n.mcfn recipename n.taskname dep dep_pn then
      rundep_loop caches rundep_check s n recipename deps
    else if s.taskhash dep = none then .error .fatal
    else
      let rest ← rundep_loop caches rundep_check s n recipename deps
      .ok ((build_pnid d.mc dep_pn d.taskname, dep) :: rest)

def prep_taskhash (caches : DataCaches)
    (rundep_check : Text → Text → Text → Text → Text → Bool) (s : Siggen) (tid : Text)
    (deps : List Text) (checksums : List (Text × Text)) (uuid : Text) (taint : Option Text) :
    Except PyError (Siggen × List Text) := do
  let n ← namesOf tid
  let basehash ← lookup caches.basetaskhash tid
  let recipename ← lookup caches.pkg_fn n.mcfn
  let rundeps ← rundep_loop caches rundep_check s n recipename deps
  let taints :=
    if caches.nostamp tid ∧ ∀ old, s.taints tid = some old → ¬ text "nostamp:" <+: old then
      Function.update s.taints tid (some (text "nostamp:" ++ uuid))
    else s.taints
  let taints := match truthy taint with
    | some taint => Function.update taints tid (some taint)
    | none => taints
  .ok ({ s with
    basehash := Function.update s.basehash tid (some basehash)
    tidtopn := Function.update s.tidtopn tid (some recipename)
    runtaskdeps := Function.update s.runtaskdeps tid (some rundeps)
    file_checksum_values := Function.update s.file_checksum_values tid (some checksums)
    taints }, rundeps.map Prod.snd)

/-- The part of a path between the first `/./` and the next one: `f.split("/./")[1]`. -/
def after_dot (f : Text) (i : Nat) : Text :=
  let rest := f.drop (i + 3)
  match find (text "/./") rest with
  | some j => rest.take j
  | none => rest

def clean_checksum_file_path (f : Text) : Text :=
  match find (text "/./") f with
  | some i => text "./" ++ after_dot f i
  | none => f

/-- The order of pairs of texts. -/
def pair_le (a b : Text × Text) : Bool := decide (a.1 < b.1) || (a.1 = b.1 && decide (a.2 ≤ b.2))

/-- `sorted`: a stable sort. -/
def sorted {α : Type} (le : α → α → Bool) (l : List α) : List α := l.insertionSort (le · · = true)

/-- What the checksums of the files add to the hashed text. -/
def checksum_text (values : List (Text × Text)) : Text :=
  (sorted (fun a b => decide (clean_checksum_file_path a.1 ≤ clean_checksum_file_path b.1))
    values).flatMap fun (f, cs) =>
      if cs = [] then []
      else match find (text "/./") f with
        | some i => text "./" ++ after_dot f i ++ cs
        | none => cs

/-- The loop of `get_taskhash` over the dependencies. -/
def dep_loop (server : Text → Option Text) : Siggen → List (Text × Text) → Text →
    Except PyError (Siggen × Text)
  | s, [], data => .ok (s, data)
  | s, dep :: deps, data => do
    let (s', unihash) ← get_unihash server s dep.2
    dep_loop server s' deps (data ++ unihash)

def get_taskhash (hash : Sha256) (server : Text → Option Text) (s : Siggen) (tid : Text) :
    Except PyError (Siggen × Text) := do
  let basehash ← lookup s.basehash tid
  let deps ← lookup s.runtaskdeps tid
  let (s', data) ← dep_loop server s (sorted pair_le deps) basehash
  let values ← lookup s.file_checksum_values tid
  let taint := match s'.taints tid with
    | some taint => if text "nostamp:" <+: taint then taint.drop 8 else taint
    | none => []
  let h := hash.hexdigest (data ++ checksum_text values ++ taint)
  .ok ({ s' with taskhash := Function.update s'.taskhash tid (some h) }, h)

/-! ## The calls -/

inductive Call
  | prep_taskhash (tid : Text) (deps : List Text) (checksums : List (Text × Text)) (uuid : Text)
      (taint : Option Text)
  | get_taskhash (tid : Text) (server : Text → Option Text)
  | get_unihashes (tids : List Text) (server : Text → Option Text)
  | set_unihash (tid unihash : Text)
  | get_stampfile_hash (tid : Text)

def step (hash : Sha256) (caches : DataCaches)
    (rundep_check : Text → Text → Text → Text → Text → Bool) (s : Siggen) :
    Call → Option Siggen
  | .prep_taskhash tid deps checksums uuid taint =>
    (prep_taskhash caches rundep_check s tid deps checksums uuid taint).toOption.map Prod.fst
  | .get_taskhash tid server => (get_taskhash hash server s tid).toOption.map Prod.fst
  | .get_unihashes tids server => (get_unihashes server s tids).toOption.map Prod.fst
  | .set_unihash tid unihash => (set_unihash s tid unihash).toOption
  | .get_stampfile_hash tid => (get_stampfile_hash s tid).toOption.map fun _ => s

end yocto.siggen
