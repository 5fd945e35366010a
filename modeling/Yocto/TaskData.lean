-- The choice of providers (taskdata.py).
import Yocto.DataSmart

open yocto.list_search yocto.task_ids yocto.ordered_dict

namespace yocto.taskdata

/-! ## The state -/

/-- The build side (`build_targets`, `depids`, `failed_deps`, `idepends`) or the runtime side
(`run_targets`, `rdepids`, `failed_rdeps`, `irdepends`). -/
inductive Kind
  | build
  | run
  deriving DecidableEq, Repr

instance : Fintype Kind := ⟨{.build, .run}, fun k => by cases k <;> simp⟩

/-- A `TaskEntry`: the targets and tasks it depends on, on each side. -/
structure TaskEntry where
  depends : Kind → List (Text × Text)

structure TaskData where
  targets : Kind → OrderedDict Text (List Text)
  depids : Kind → OrderedDict Text (List Text)
  failed_deps : Kind → List Text
  external_targets : List Text
  seenfns : List Text
  failed_fns : List Text
  taskentries : OrderedDict Text TaskEntry

def TaskData.init : TaskData where
  targets _ := []
  depids _ := []
  failed_deps _ := []
  external_targets := []
  seenfns := []
  failed_fns := []
  taskentries := []

/-- What the resolution reads of a `dataCache`. `task_deps` is the text of `depends` or `rdepends`
of a task, empty when there is none, `deps` the distinct dependencies of a file once its extra ones
are added. -/
structure DataCache where
  tasks : Text → List Text
  task_deps : Kind → Text → Text → Text
  deps : Kind → Text → List Text
  ignored : Text → Bool
  provided : Text → Bool
  filterProviders : Text → List Text
  getRuntimeProviders : Text → List Text
  filterProvidersRunTime : Text → List Text × Nat

/-- The provider list of a target, empty when the target was not seen. -/
def TaskData.providers (s : TaskData) (k : Kind) (target : Text) : List Text :=
  ((s.targets k).get? target).getD []

def TaskData.set_targets (s : TaskData) (k : Kind) (targets : OrderedDict Text (List Text)) :
    TaskData := { s with targets := Function.update s.targets k targets }

/-! ## Failure -/

/-- `tid.rsplit(":", 1)[0]`. -/
def fn_of_tid (tid : Text) : Text :=
  if ':' ∈ tid then ((tid.reverse.dropWhile (· ≠ ':')).drop 1).reverse else tid

/-- `get_dependees` and `get_rdependees`. -/
def get_dependees (s : TaskData) (k : Kind) (item : Text) : List Text :=
  ((s.depids k).filter fun x => item ∈ x.2).map Prod.fst

/-- `self.failed_deps.append(target)` or `self.failed_rdeps.append(target)`. -/
def TaskData.add_failed_dep (s : TaskData) (k : Kind) (target : Text) : TaskData :=
  { s with failed_deps := Function.update s.failed_deps k (s.failed_deps k ++ [target]) }

/-- The loops of `remove_buildtarget` and `remove_runtarget`, with the function that fails a file. -/
def fail_dependents (fail : Text → TaskData → TaskData) (k : Kind) (target : Text) (s : TaskData) :
    TaskData :=
  let s := (get_dependees s k target).foldl (fun s fn => fail fn s) s
  s.taskentries.foldl (fun s x => (x.2.depends k).foldl (fun s dep =>
    if dep.1 = target then fail (fn_of_tid x.1) s else s) s) s

/-- `remove_buildtarget` and `remove_runtarget`. -/
def remove_target (fail : Text → TaskData → TaskData) (k : Kind) (target : Text) (s : TaskData) :
    TaskData := fail_dependents fail k target (s.add_failed_dep k target)

/-- One turn of a loop of `fail_fn` over the targets. -/
def drop_provider (fail : Text → TaskData → TaskData) (fn : Text) (k : Kind) (s : TaskData)
    (target : Text) : TaskData :=
  if fn ∈ s.providers k target then
    let left := (s.providers k target).erase fn
    let s := s.set_targets k ((s.targets k).set target left)
    if left = [] then remove_target fail k target s else s
  else s

/-- A loop of `fail_fn` over the targets of one side. -/
def drop_providers (fail : Text → TaskData → TaskData) (fn : Text) (k : Kind) (s : TaskData) :
    TaskData :=
  ((s.targets k).map Prod.fst).foldl (drop_provider fail fn k) s

def fail_depth : Nat → Text → TaskData → TaskData
  | 0, _, s => s
  | depth + 1, fn, s =>
    if fn ∈ s.failed_fns then s
    else
      let s := { s with failed_fns := s.failed_fns ++ [fn] }
      drop_providers (fail_depth depth) fn .run (drop_providers (fail_depth depth) fn .build s)

/-- The files that a nested call of `fail_fn` can be for. -/
def dependents (s : TaskData) : List Text :=
  (s.depids .build).map Prod.fst ++ (s.depids .run).map Prod.fst ++
    s.taskentries.map fun x => fn_of_tid x.1

/-- `fail_fn`. Each nested call fails one more of the dependents, so no call goes deeper. -/
def fail_fn (fn : Text) (s : TaskData) : TaskData := fail_depth ((dependents s).length + 1) fn s

def remove_buildtarget (target : Text) (s : TaskData) : TaskData :=
  remove_target fail_fn .build target s

def remove_runtarget (target : Text) (s : TaskData) : TaskData :=
  remove_target fail_fn .run target s

/-! ## Adding a file -/

/-- `seen_build_target` and `seen_run_target`. -/
def seen_target (k : Kind) (s : TaskData) (name : Text) : TaskData :=
  if name ∈ (s.targets k).map Prod.fst then s else s.set_targets k (s.targets k ++ [(name, [])])

/-- `add_build_target` and `add_runtime_target`. -/
def add_target (k : Kind) (fn item : Text) (s : TaskData) : TaskData :=
  if fn ∈ s.providers k item then s
  else s.set_targets k ((s.targets k).set item (s.providers k item ++ [fn]))

/-- The pairs in a text such as `name:task other:task`. Any other form is fatal. -/
def parse_deps (value : Text) : Option (List (Text × Text)) :=
  (data_smart.words value).mapM fun dep =>
    match dep.splitOn ':' with
    | [name, task] => some (name, task)
    | _ => none

def tid_of (fn task : Text) : Text := fn ++ ':' :: task

/-- `handle_deps`, which is run for both sides. -/
def handle_deps (dc : DataCache) (fn task : Text) (k : Kind) (s : TaskData) : Option TaskData := do
  let ids ← parse_deps (dc.task_deps k fn task)
  let s := ids.foldl (fun s dep => seen_target k s dep.1) s
  let entry := (s.taskentries.get? (tid_of fn task)).getD ⟨fun _ => []⟩
  let depends := Function.update entry.depends k (entry.depends k ++ ids)
  some { s with taskentries := s.taskentries.set (tid_of fn task) ⟨depends⟩ }

def add_task (dc : DataCache) (fn : Text) (s : TaskData) (task : Text) : Option TaskData := do
  let s := { s with taskentries := s.taskentries.set (tid_of fn task) ⟨fun _ => []⟩ }
  let s ← handle_deps dc fn task .build s
  handle_deps dc fn task .run s

/-- The loop over the dependencies of one side: whether one of them has failed. -/
def check_deps (fn : Text) (k : Kind) : List Text → TaskData → TaskData × Bool
  | [], s => (s, false)
  | dep :: deps, s =>
    let s := seen_target k s dep
    if dep ∈ s.failed_deps k then (fail_fn fn s, true) else check_deps fn k deps s

def set_depids (dc : DataCache) (fn : Text) (k : Kind) (s : TaskData) : TaskData :=
  if fn ∈ (s.depids k).map Prod.fst then s
  else { s with depids := Function.update s.depids k ((s.depids k).set fn (dc.deps k fn)) }

/-- `add_tasks`. A file that failed is not added again. -/
def add_tasks (dc : DataCache) (fn : Text) (s : TaskData) : Option TaskData :=
  if fn ∈ s.failed_fns then none
  else if fn ∈ s.seenfns then some s
  else do
    let s := { s with seenfns := s.seenfns ++ [fn] }
    let s ← (dc.tasks fn).foldlM (add_task dc fn) s
    let s := set_depids dc fn .run (set_depids dc fn .build s)
    match check_deps fn .build (((s.depids .build).get? fn).getD []) s with
    | (s, true) => some s
    | (s, false) => some (check_deps fn .run (((s.depids .run).get? fn).getD []) s).1

/-! ## Providers -/

inductive ProviderError
  | noProvider
  | noRProvider
  | multipleRProvider
  | fatal
  deriving DecidableEq, Repr

/-- One turn of the loop over the eligible providers. -/
def provide (dc : DataCache) (k : Kind) (item : Text) (s : TaskData) (fn : Text) :
    Except ProviderError TaskData :=
  if fn ∈ s.failed_fns then .ok s
  else match add_tasks dc fn (add_target k fn item s) with
    | some s => .ok s
    | none => .error .fatal

/-- The files that `add_provider_internal` goes through, none when it has nothing to do. -/
def build_candidates (dc : DataCache) (item : Text) (s : TaskData) :
    Except ProviderError (List Text) :=
  if dc.ignored item then .ok []
  else if ¬ dc.provided item then .error .noProvider
  else if s.providers .build item ≠ [] then .ok []
  else
    let eligible := (dc.filterProviders item).filter (· ∉ s.failed_fns)
    if eligible = [] then .error .noProvider else .ok eligible

/-- The files that `add_rprovider` goes through. -/
def run_candidates (dc : DataCache) (item : Text) (s : TaskData) :
    Except ProviderError (List Text) :=
  if dc.ignored item then .ok []
  else if s.providers .run item ≠ [] then .ok []
  else if dc.getRuntimeProviders item = [] then .error .noRProvider
  else
    let (eligible, numberPreferred) := dc.filterProvidersRunTime item
    let eligible := eligible.filter (· ∉ s.failed_fns)
    if eligible = [] then .error .noRProvider
    else if 1 < numberPreferred then .error .multipleRProvider
    else .ok eligible

def add_provider_internal (dc : DataCache) (item : Text) (s : TaskData) :
    Except ProviderError TaskData := do
  let eligible ← build_candidates dc item s
  eligible.foldlM (provide dc .build item) s

def add_rprovider (dc : DataCache) (item : Text) (s : TaskData) :
    Except ProviderError TaskData := do
  let eligible ← run_candidates dc item s
  eligible.foldlM (provide dc .run item) s

def mark_external_target (target : Text) (s : TaskData) : TaskData :=
  if target ∈ s.external_targets then s
  else { s with external_targets := s.external_targets ++ [target] }

def add_provider (dc : DataCache) (item : Text) (s : TaskData) : Except ProviderError TaskData :=
  match add_provider_internal dc item s with
  | .ok s => .ok (mark_external_target item s)
  | .error .noProvider => .ok (mark_external_target item (remove_buildtarget item s))
  | .error e => .error e

/-- `get_unresolved_build_targets` and `get_unresolved_run_targets`. -/
def unresolved (dc : DataCache) (k : Kind) (s : TaskData) : List Text :=
  ((s.targets k).map Prod.fst).filter fun target =>
    ¬ dc.ignored target ∧ target ∉ s.failed_deps k ∧ s.providers k target = []

/-- One turn of the first loop of `add_unresolved`, with the count of resolved targets. -/
def resolve_build (dc : DataCache) (allowincomplete : Bool) (acc : TaskData × Nat) (target : Text) :
    Except ProviderError (TaskData × Nat) :=
  match add_provider_internal dc target acc.1 with
  | .ok s => .ok (s, acc.2 + 1)
  | .error .noProvider =>
    .ok (if allowincomplete then acc.1 else remove_buildtarget target acc.1, acc.2)
  | .error e => .error e

def resolve_run (dc : DataCache) (acc : TaskData × Nat) (target : Text) :
    Except ProviderError (TaskData × Nat) :=
  match add_rprovider dc target acc.1 with
  | .ok s => .ok (s, acc.2 + 1)
  | .error .fatal => .error .fatal
  | .error _ => .ok (remove_runtarget target acc.1, acc.2)

/-- `add_unresolved`, when it ends within so many turns. -/
def add_unresolved (dc : DataCache) (allowincomplete : Bool) :
    Nat → TaskData → Option TaskData
  | 0, _ => none
  | turns + 1, s =>
    match (unresolved dc .build s).foldlM (resolve_build dc allowincomplete) (s, 0) with
    | .error _ => none
    | .ok (s, added) =>
      match (unresolved dc .run s).foldlM (resolve_run dc) (s, added) with
      | .error _ => none
      | .ok (s, added) => if added = 0 then some s else add_unresolved dc allowincomplete turns s

/-! ## Runs -/

inductive Op
  | add_provider (item : Text)
  | add_rprovider (item : Text)
  | add_unresolved (allowincomplete : Bool) (turns : Nat)

/-- One call. An exception of `add_rprovider` leaves the state, and a fatal error ends the run. -/
def step (dc : DataCache) (s : TaskData) : Op → Option TaskData
  | .add_provider item => (add_provider dc item s).toOption
  | .add_rprovider item =>
    match add_rprovider dc item s with
    | .ok s => some s
    | .error .fatal => none
    | .error _ => some s
  | .add_unresolved allowincomplete turns => add_unresolved dc allowincomplete turns s

end yocto.taskdata
