-- The choice of providers (taskdata.py) with `halt`.
import Yocto.ProviderSoundness
import Yocto.Triples

open yocto.task_ids yocto.ordered_dict yocto.taskdata yocto.triples yocto.triples.Prog
open yocto.provider_failure yocto.provider_soundness

namespace yocto.halting

/-- A program on the state of the choice. -/
abbrev Choice (α : Type) : Type := Prog TaskData ProviderError α

variable (halt : Bool)

/-! ## Failure -/

/-- The loops of `remove_buildtarget` and `remove_runtarget`. -/
def fail_dependents (fail : Text → Choice Unit) (k : Kind) (target : Text) : Choice Unit := do
  reading fun s => each fail (get_dependees s k target)
  reading fun s => each (fun x => each (fun dep =>
    if dep.1 = target then fail (fn_of_tid x.1) else pure ()) (x.2.depends k)) s.taskentries

/-- `remove_buildtarget`, which raises for a target that is required, and `remove_runtarget`. -/
def remove_target (fail : Text → Choice Unit) (k : Kind) (target : Text) : Choice Unit := do
  modify fun s => s.add_failed_dep k target
  fail_dependents fail k target
  reading fun s => if k = .build ∧ halt ∧ target ∈ s.external_targets then raise .noProvider else pure ()

/-- One turn of a loop of `fail_fn` over the targets. -/
def drop_provider (fail : Text → Choice Unit) (fn : Text) (k : Kind) (target : Text) : Choice Unit :=
  reading fun s =>
    if fn ∈ s.providers k target then do
      let left := (s.providers k target).erase fn
      modify fun s => s.set_targets k ((s.targets k).set target left)
      if left = [] then remove_target halt fail k target else pure ()
    else pure ()

/-- A loop of `fail_fn` over the targets of one side. -/
def drop_providers (fail : Text → Choice Unit) (fn : Text) (k : Kind) : Choice Unit :=
  reading fun s => each (drop_provider halt fail fn k) ((s.targets k).map Prod.fst)

def fail_depth : Nat → Text → Choice Unit
  | 0, _ => pure ()
  | depth + 1, fn => reading fun s =>
    if fn ∈ s.failed_fns then pure ()
    else do
      modify (mark fn)
      drop_providers halt (fail_depth depth) fn .build
      drop_providers halt (fail_depth depth) fn .run

def fail_fn (fn : Text) : Choice Unit := reading fun s => fail_depth halt ((dependents s).length + 1) fn

def remove_buildtarget (target : Text) : Choice Unit := remove_target halt (fail_fn halt) .build target

def remove_runtarget (target : Text) : Choice Unit := remove_target halt (fail_fn halt) .run target

/-! ## Adding a file -/

/-- The loop over the dependencies of one side: whether one of them has failed. -/
def check_deps (fn : Text) (k : Kind) (deps : List Text) : Choice Bool :=
  firstOf (fun dep => do
    modify fun s => seen_target k s dep
    reading fun s =>
      if dep ∈ s.failed_deps k then do
        fail_fn halt fn
        pure true
      else pure false) deps

def add_tasks (dc : DataCache) (fn : Text) : Choice Unit :=
  reading fun s =>
    if fn ∈ s.failed_fns then raise .fatal
    else if fn ∈ s.seenfns then pure ()
    else match (dc.tasks fn).foldlM (add_task dc fn) { s with seenfns := s.seenfns ++ [fn] } with
      | none => raise .fatal
      | some s => do
        modify fun _ => set_depids dc fn .run (set_depids dc fn .build s)
        let failed ← reading fun s => check_deps halt fn .build (((s.depids .build).get? fn).getD [])
        if failed then pure ()
        else do
          let _ ← reading fun s => check_deps halt fn .run (((s.depids .run).get? fn).getD [])
          pure ()

/-! ## Providers -/

/-- One turn of the loop over the eligible providers. -/
def provide (dc : DataCache) (k : Kind) (item fn : Text) : Choice Unit :=
  reading fun s =>
    if fn ∈ s.failed_fns then pure ()
    else do
      modify (add_target k fn item)
      add_tasks halt dc fn

/-- `add_provider_internal` or `add_rprovider`. -/
def add_item (dc : DataCache) (k : Kind) (item : Text) : Choice Unit :=
  reading fun s =>
    match candidates dc k item s with
    | .error e => raise e
    | .ok eligible => each (provide halt dc k item) eligible

def add_provider (dc : DataCache) (item : Text) : Choice Unit := do
  attempt (add_item halt dc .build item) fun e =>
    if e = .noProvider ∧ halt = false then remove_buildtarget halt item else raise e
  modify (mark_external_target item)

/-- One turn of the first loop of `add_unresolved`, with the count of resolved targets. -/
def resolve_build (dc : DataCache) (allowincomplete : Bool) (added : Nat) (target : Text) : Choice Nat :=
  attempt (do
    add_item halt dc .build target
    pure (added + 1))
    fun e => reading fun s =>
      if e ≠ .noProvider ∨ (halt ∧ target ∈ s.external_targets ∧ allowincomplete = false) then raise e
      else if allowincomplete then pure added
      else do
        remove_buildtarget halt target
        pure added

def resolve_run (dc : DataCache) (added : Nat) (target : Text) : Choice Nat :=
  attempt (do
    add_item halt dc .run target
    pure (added + 1))
    fun e =>
      if e = .noRProvider ∨ e = .multipleRProvider then do
        remove_runtarget halt target
        pure added
      else raise e

/-- One turn of the `while` loop: how many targets were resolved. -/
def resolve_round (dc : DataCache) (allowincomplete : Bool) : Choice Nat := do
  let added ← reading fun s => (unresolved dc .build s).foldlM (resolve_build halt dc allowincomplete) 0
  reading fun s => (unresolved dc .run s).foldlM (resolve_run halt dc) added

/-- `add_unresolved`: how it ends, and the state that it leaves. None when it has not ended after `turns`. -/
def add_unresolved (dc : DataCache) (allowincomplete : Bool) :
    Nat → TaskData → Option (Except ProviderError Unit × TaskData)
  | 0, _ => none
  | turns + 1, s =>
    match resolve_round halt dc allowincomplete s with
    | (.error e, t) => some (.error e, t)
    | (.ok added, t) => if added = 0 then some (.ok (), t) else add_unresolved dc allowincomplete turns t

/-! ## Without an exception -/

/-- Where the program comes to its end, it does what the function does. -/
def Ends (x : Choice Unit) (f : TaskData → TaskData) : Prop := ∀ s t, x s = (.ok (), t) → t = f s

section
variable {x y : Choice Unit} {f g : TaskData → TaskData}

theorem Ends.pure : Ends (pure ()) id := fun _ _ h => (Prod.mk.inj h).2.symm

theorem Ends.modify (f : TaskData → TaskData) : Ends (modify f) f := fun _ _ h => (Prod.mk.inj h).2.symm

theorem Ends.raise (e : ProviderError) (f : TaskData → TaskData) : Ends (raise e) f := by
  intro s t h
  cases (Prod.mk.inj h).1

theorem Ends.bind (hx : Ends x f) (hy : Ends y g) : Ends (x >>= fun _ => y) fun s => g (f s) := by
  intro s t h
  obtain ⟨_, u, hu, ht⟩ := bind_ends h
  dsimp only
  rw [← hx s u hu]
  exact hy u t ht

theorem Ends.reading {F : TaskData → Choice Unit} (h : ∀ s t, F s s = (.ok (), t) → t = f s) :
    Ends (reading F) f := h

theorem Ends.ite {c : Prop} [Decidable c] (hx : Ends x f) (hy : Ends y g) :
    Ends (if c then x else y) fun s => if c then f s else g s := by
  intro s t h
  dsimp only
  split at h
  · rename_i hc
    rw [if_pos hc]
    exact hx s t h
  · rename_i hc
    rw [if_neg hc]
    exact hy s t h

theorem Ends.each {α : Type} {F : α → Choice Unit} {f : TaskData → α → TaskData}
    (h : ∀ a, Ends (F a) fun s => f s a) (as : List α) : Ends (each F as) fun s => as.foldl f s := by
  induction as with
  | nil => exact Ends.pure
  | cons a as ih => exact (h a).bind ih

end

section
variable {halt : Bool} {fail : Text → Choice Unit} {plain : Text → TaskData → TaskData}

theorem fail_dependents_ends (h : ∀ fn, Ends (fail fn) (plain fn)) (k : Kind) (target : Text) :
    Ends (fail_dependents fail k target) (taskdata.fail_dependents plain k target) := by
  have hfiles : Ends (reading fun s => each fail (get_dependees s k target)) fun s =>
      (get_dependees s k target).foldl (fun s fn => plain fn s) s :=
    Ends.reading fun s => Ends.each h (get_dependees s k target) s
  have htask : ∀ x : Text × TaskEntry, Ends (each (fun dep : Text × Text =>
      if dep.1 = target then fail (fn_of_tid x.1) else pure ()) (x.2.depends k)) fun s =>
        (x.2.depends k).foldl (fun s dep => if dep.1 = target then plain (fn_of_tid x.1) s else s) s := by
    intro x
    apply Ends.each
    exact fun dep => (h (fn_of_tid x.1)).ite Ends.pure
  exact hfiles.bind (Ends.reading fun s => Ends.each htask s.taskentries s)

theorem remove_target_ends (h : ∀ fn, Ends (fail fn) (plain fn)) (k : Kind) (target : Text) :
    Ends (remove_target halt fail k target) (taskdata.remove_target plain k target) := by
  have hcheck : Ends (reading fun s => if k = .build ∧ halt ∧ target ∈ s.external_targets then raise .noProvider
      else pure ()) id := by
    apply Ends.reading
    intro s t ht
    split at ht
    · cases (Prod.mk.inj ht).1
    · exact Ends.pure s t ht
  exact (Ends.modify _).bind ((fail_dependents_ends h k target).bind hcheck)

theorem drop_provider_ends (h : ∀ fn, Ends (fail fn) (plain fn)) (fn : Text) (k : Kind) (target : Text) :
    Ends (drop_provider halt fail fn k target) fun s => taskdata.drop_provider plain fn k s target := by
  apply Ends.reading
  intro s t ht
  unfold taskdata.drop_provider
  split at ht
  · rename_i hin
    rw [if_pos hin]
    exact (Ends.modify _).bind (Ends.ite (remove_target_ends h k target) Ends.pure) s t ht
  · rename_i hnot
    rw [if_neg hnot]
    exact Ends.pure s t ht

theorem drop_providers_ends (h : ∀ fn, Ends (fail fn) (plain fn)) (fn : Text) (k : Kind) :
    Ends (drop_providers halt fail fn k) (taskdata.drop_providers plain fn k) :=
  Ends.reading fun s => Ends.each (drop_provider_ends h fn k) ((s.targets k).map Prod.fst) s

theorem fail_depth_ends (halt : Bool) (depth : Nat) (fn : Text) :
    Ends (fail_depth halt depth fn) (taskdata.fail_depth depth fn) := by
  induction depth generalizing fn with
  | zero => exact Ends.pure
  | succ depth ih =>
    apply Ends.reading
    intro s t ht
    unfold taskdata.fail_depth
    split at ht
    · rename_i hfailed
      rw [if_pos hfailed]
      exact Ends.pure s t ht
    · rename_i hgood
      rw [if_neg hgood]
      exact (Ends.modify _).bind ((drop_providers_ends ih fn .build).bind (drop_providers_ends ih fn .run)) s t ht

theorem fail_fn_ends (halt : Bool) (fn : Text) : Ends (fail_fn halt fn) (taskdata.fail_fn fn) :=
  Ends.reading fun s => fail_depth_ends halt ((dependents s).length + 1) fn s

end

section
variable {halt : Bool} {dc : DataCache} {s t : TaskData} {k : Kind}

theorem check_deps_ends {fn : Text} {deps : List Text} {b : Bool}
    (h : check_deps halt fn k deps s = (.ok b, t)) : taskdata.check_deps fn k deps s = (t, b) := by
  induction deps generalizing s with
  | nil =>
    cases h
    rfl
  | cons dep deps ih =>
    obtain ⟨found, u, hturn, hrest⟩ := bind_ends h
    change (if dep ∈ (seen_target k s dep).failed_deps k then (fail_fn halt fn >>= fun _ => pure true)
      else pure false : Choice Bool) (seen_target k s dep) = (.ok found, u) at hturn
    unfold taskdata.check_deps
    dsimp only
    split at hturn
    · rename_i hfailed
      obtain ⟨_, v, hfail, hpure⟩ := bind_ends hturn
      cases hpure
      cases hrest
      rw [if_pos hfailed, fail_fn_ends halt fn _ _ hfail]
    · rename_i hgood
      cases hturn
      rw [if_neg hgood]
      exact ih hrest

theorem add_tasks_ends {fn : Text} (h : add_tasks halt dc fn s = (.ok (), t)) :
    taskdata.add_tasks dc fn s = some t := by
  unfold add_tasks at h
  rw [reading_apply] at h
  unfold taskdata.add_tasks
  split at h
  · cases h
  · rename_i hgood
    rw [if_neg hgood]
    split at h
    · rename_i hseen
      cases h
      rw [if_pos hseen]
    · rename_i hnew
      rw [if_neg hnew]
      dsimp only
      cases htasks : (dc.tasks fn).foldlM (add_task dc fn) { s with seenfns := s.seenfns ++ [fn] } with
      | none =>
        rw [htasks] at h
        cases h
      | some u =>
        rw [htasks] at h
        obtain ⟨_, _, hset, h⟩ := bind_ends h
        cases hset
        obtain ⟨failed, v, hbuild, h⟩ := bind_ends h
        have hcheck := check_deps_ends hbuild
        dsimp only [Option.bind_eq_bind, Option.bind_some]
        rw [hcheck]
        cases failed with
        | true =>
          cases h
          rfl
        | false =>
          obtain ⟨b, w, hrun, hpure⟩ := bind_ends h
          cases hpure
          have hcheck' := check_deps_ends hrun
          dsimp only
          rw [hcheck']

theorem provide_ends {item fn : Text} (h : provide halt dc k item fn s = (.ok (), t)) :
    taskdata.provide dc k item s fn = .ok t := by
  unfold provide at h
  rw [reading_apply] at h
  unfold taskdata.provide
  split at h
  · rename_i hfailed
    cases h
    rw [if_pos hfailed]
  · rename_i hgood
    obtain ⟨_, _, hset, h⟩ := bind_ends h
    cases hset
    rw [if_neg hgood, add_tasks_ends h]

theorem provides_ends {item : Text} {eligible : List Text}
    (h : each (provide halt dc k item) eligible s = (.ok (), t)) :
    eligible.foldlM (taskdata.provide dc k item) s = .ok t := by
  induction eligible generalizing s with
  | nil =>
    cases h
    rfl
  | cons fn eligible ih =>
    obtain ⟨_, u, hturn, hrest⟩ := bind_ends h
    rw [List.foldlM_cons, provide_ends hturn]
    exact ih hrest

theorem add_item_ends {item : Text} (h : add_item halt dc k item s = (.ok (), t)) :
    provider_soundness.add_item dc k item s = .ok t := by
  unfold add_item at h
  rw [reading_apply] at h
  unfold provider_soundness.add_item
  cases hcandidates : candidates dc k item s with
  | error e =>
    rw [hcandidates] at h
    cases h
  | ok eligible =>
    rw [hcandidates] at h
    exact provides_ends h

end

end yocto.halting
