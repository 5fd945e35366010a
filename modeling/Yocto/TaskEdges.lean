-- The tasks of a recipe and what they run after (addtask, deltask and add_tasks of bb.build).
import Yocto.BblayersEdits
import Mathlib.Data.List.Nodup

open yocto.task_ids yocto.data_smart yocto.ordered_dict
open yocto.text_lines (mem_of_mem_words)

namespace yocto.task_edges

/-! ## The statements -/

inductive Call
  | addtask (task : Text) (before after : Option Text)
  | deltask (task : Text)

/-- The variable `__BBTASKS` and the flag `deps` of each task. -/
structure State where
  bbtasks : List Text
  deps : Text → Option (List Text)

def start : State := ⟨[], fun _ => none⟩

/-- The name of a task with `do_` in front of it. -/
def do_name (task : Text) : Text := if task.take 3 ≠ text "do_" then text "do_" ++ task else task

def entries (clause : Option Text) : List Text := (clause.map words).getD []

def append_new (existing after : List Text) : List Text :=
  after.foldl (fun existing entry => if entry ∉ existing then existing ++ [entry] else existing) existing

/-- One turn of the loop over the entries of `before`. -/
def before_turn (task : Text) (deps : Text → Option (List Text)) (entry : Text) : Text → Option (List Text) :=
  let existing := (deps entry).getD []
  if task ∉ existing then Function.update deps entry (some (task :: existing)) else deps

def addtask (s : State) (task : Text) (before after : Option Text) : State :=
  let task := do_name task
  let bbtasks := if task ∉ s.bbtasks then s.bbtasks ++ [task] else s.bbtasks
  let existing := append_new ((s.deps task).getD []) (entries after)
  let deps := Function.update s.deps task (some existing)
  ⟨bbtasks, (entries before).foldl (before_turn task) deps⟩

/-- One turn of the loop of `deltask` over the tasks. -/
def delete_turn (task : Text) (deps : Text → Option (List Text)) (bbtask : Text) : Text → Option (List Text) :=
  let existing := (deps bbtask).getD []
  if task ∈ existing then Function.update deps bbtask (some (existing.erase task)) else deps

def deltask (s : State) (task : Text) : State :=
  let task := do_name task
  let bbtasks := if task ∈ s.bbtasks then s.bbtasks.erase task else s.bbtasks
  ⟨bbtasks, bbtasks.foldl (delete_turn task) (Function.update s.deps task none)⟩

def exec (s : State) : Call → State
  | .addtask task before after => addtask s task before after
  | .deltask task => deltask s task

/-- `expand`. A text without a reference stays as it is. -/
def expand (value : Text → Text) (s : Text) : Text := if '$' ∈ s then value s else s

/-- `_task_deps`: its `tasks` and its `parents`. -/
structure TaskDeps where
  tasks : List Text
  parents : OrderedDict Text (List Text)

def add_turn (value : Text → Text) (deps : Text → Option (List Text)) (task_deps : TaskDeps) (task : Text) :
    TaskDeps :=
  let task := expand value task
  ⟨if task ∉ task_deps.tasks then task_deps.tasks ++ [task] else task_deps.tasks,
    task_deps.parents.set task (((deps task).getD []).map (expand value))⟩

def add_tasks (value : Text → Text) (tasklist : List Text) (deps : Text → Option (List Text)) : TaskDeps :=
  tasklist.foldl (add_turn value deps) ⟨[], []⟩

def after (calls : List Call) : State := calls.foldl exec start

def recorded (value : Text → Text) (calls : List Call) : TaskDeps :=
  add_tasks value (after calls).bbtasks (after calls).deps

/-! ## What the statements ask for -/

def Call.task : Call → Text
  | .addtask task _ _ => do_name task
  | .deltask task => do_name task

def Call.adds : Call → Bool
  | .addtask _ _ _ => true
  | .deltask _ => false

/-- The last statement about the task is an `addtask`. -/
def present (calls : List Call) (t : Text) : Bool :=
  ((calls.reverse.find? fun c => c.task = t).map Call.adds).getD false

/-- The statement asks for `u` to run after `t`. -/
def Call.Asks (c : Call) (u t : Text) : Prop :=
  match c with
  | .addtask task before after => (u = do_name task ∧ t ∈ entries after) ∨ (t = do_name task ∧ u ∈ entries before)
  | .deltask _ => False

def Call.Deletes (c : Call) (t : Text) : Prop := c.adds = false ∧ c.task = t

/-- `u` was asked to run after `t`, and none of the two was deleted since. -/
inductive Requested : List Call → Text → Text → Prop
  | asked {calls c u t} (h : c.Asks u t) : Requested (calls ++ [c]) u t
  | stays {calls c u t} (h : Requested calls u t) (hu : ¬ c.Deletes u) (ht : ¬ c.Deletes t) :
      Requested (calls ++ [c]) u t

/-- `u` was asked to run after `t`, and since then `u` was not deleted, and `t` was only deleted while `u` was not
there. -/
inductive Left : List Call → Text → Text → Prop
  | asked {calls c u t} (h : c.Asks u t) : Left (calls ++ [c]) u t
  | stays {calls c u t} (h : Left calls u t) (hu : ¬ c.Deletes u) (ht : ¬ (c.Deletes t ∧ present calls u)) :
      Left (calls ++ [c]) u t

/-- The tasks are those that were added last, each one once, and what is recorded between them is what was asked
for since they were deleted. -/
structure AsRequested (value : Text → Text) (calls : List Call) : Prop where
  nodup : (after calls).bbtasks.Nodup
  present : ∀ t, t ∈ (after calls).bbtasks ↔ present calls t
  tasks : (recorded value calls).tasks = (after calls).bbtasks
  edges : ∀ u t, u ∈ (after calls).bbtasks → t ∈ (after calls).bbtasks →
    (t ∈ ((recorded value calls).parents.get? u).getD [] ↔ Requested calls u t)

/-- The names have no reference to a variable in them. -/
def Call.Plain : Call → Prop
  | .addtask task before after => '$' ∉ task ∧ '$' ∉ before.getD [] ∧ '$' ∉ after.getD []
  | .deltask task => '$' ∉ task

/-! ## The flags -/

variable {deps : Text → Option (List Text)} {task u t : Text}

def of_task (deps : Text → Option (List Text)) (u : Text) : List Text := (deps u).getD []

theorem of_task_update (deps : Text → Option (List Text)) (task u : Text) (l : Option (List Text)) :
    of_task (Function.update deps task l) u = if u = task then l.getD [] else of_task deps u := by
  unfold of_task
  by_cases h : u = task
  · subst h
    simp
  · simp [h]

theorem mem_append_new (existing after : List Text) (t : Text) :
    t ∈ append_new existing after ↔ t ∈ existing ∨ t ∈ after := by
  unfold append_new
  induction after generalizing existing with
  | nil => simp
  | cons entry after ih =>
    rw [List.foldl_cons, ih]
    by_cases hmem : entry ∈ existing
    · rw [if_neg (not_not_intro hmem)]
      simp only [List.mem_cons]
      constructor
      · tauto
      · rintro (h | rfl | h)
        · exact .inl h
        · exact .inl hmem
        · exact .inr h
    · rw [if_pos hmem]
      simp only [List.mem_append, List.mem_cons, List.not_mem_nil, or_false]
      tauto

theorem append_new_nodup {existing : List Text} (h : existing.Nodup) (after : List Text) :
    (append_new existing after).Nodup := by
  unfold append_new
  induction after generalizing existing with
  | nil => exact h
  | cons entry after ih =>
    rw [List.foldl_cons]
    apply ih
    split
    · rename_i hmem
      exact List.concat_eq_append ▸ h.concat hmem
    · exact h

theorem mem_before_turn (entry : Text) :
    t ∈ of_task (before_turn task deps entry) u ↔ t ∈ of_task deps u ∨ (t = task ∧ u = entry) := by
  unfold before_turn
  by_cases hmem : task ∈ of_task deps entry
  · have hmem' : task ∈ (deps entry).getD [] := hmem
    simp only [hmem', not_true_eq_false, if_false]
    constructor
    · exact .inl
    · rintro (h | ⟨rfl, rfl⟩)
      · exact h
      · exact hmem
  · have hmem' : task ∉ (deps entry).getD [] := hmem
    simp only [hmem', not_false_eq_true, if_true]
    rw [of_task_update]
    by_cases hu : u = entry
    · subst hu
      rw [if_pos rfl, Option.getD_some, List.mem_cons]
      unfold of_task
      tauto
    · simp [hu]

theorem before_turn_nodup (hnodup : ∀ u, (of_task deps u).Nodup) (entry : Text) :
    (of_task (before_turn task deps entry) u).Nodup := by
  unfold before_turn
  dsimp only
  split
  · rename_i hmem
    rw [of_task_update]
    split
    · exact List.nodup_cons.mpr ⟨hmem, hnodup entry⟩
    · exact hnodup u
  · exact hnodup u

theorem mem_before (entries : List Text) :
    t ∈ of_task (entries.foldl (before_turn task) deps) u ↔ t ∈ of_task deps u ∨ (t = task ∧ u ∈ entries) := by
  induction entries generalizing deps with
  | nil => simp
  | cons entry entries ih =>
    rw [List.foldl_cons, ih, mem_before_turn, List.mem_cons]
    tauto

theorem before_nodup (hnodup : ∀ u, (of_task deps u).Nodup) (entries : List Text) (u : Text) :
    (of_task (entries.foldl (before_turn task) deps) u).Nodup := by
  induction entries generalizing deps with
  | nil => exact hnodup u
  | cons entry entries ih => exact ih fun _ => before_turn_nodup hnodup entry

theorem mem_delete_turn (hnodup : ∀ u, (of_task deps u).Nodup) (bbtask : Text) :
    t ∈ of_task (delete_turn task deps bbtask) u ↔ t ∈ of_task deps u ∧ ¬(t = task ∧ u = bbtask) := by
  unfold delete_turn
  by_cases hmem : task ∈ of_task deps bbtask
  · have hmem' : task ∈ (deps bbtask).getD [] := hmem
    simp only [hmem', if_true]
    rw [of_task_update]
    by_cases hu : u = bbtask
    · subst hu
      have herase := (hnodup u).mem_erase_iff (a := t) (b := task)
      rw [if_pos rfl, Option.getD_some]
      unfold of_task at herase ⊢
      rw [herase]
      tauto
    · simp [hu]
  · have hmem' : task ∉ (deps bbtask).getD [] := hmem
    simp only [hmem', if_false]
    constructor
    · intro h
      refine ⟨h, ?_⟩
      rintro ⟨rfl, rfl⟩
      exact hmem h
    · exact fun h => h.1

theorem delete_turn_nodup (hnodup : ∀ u, (of_task deps u).Nodup) (bbtask u : Text) :
    (of_task (delete_turn task deps bbtask) u).Nodup := by
  unfold delete_turn
  dsimp only
  split
  · rw [of_task_update]
    split
    · exact (hnodup bbtask).erase task
    · exact hnodup u
  · exact hnodup u

theorem mem_delete (hnodup : ∀ u, (of_task deps u).Nodup) (bbtasks : List Text) :
    t ∈ of_task (bbtasks.foldl (delete_turn task) deps) u ↔ t ∈ of_task deps u ∧ ¬(t = task ∧ u ∈ bbtasks) := by
  induction bbtasks generalizing deps with
  | nil => simp
  | cons bbtask bbtasks ih =>
    rw [List.foldl_cons, ih (delete_turn_nodup hnodup bbtask), mem_delete_turn hnodup, List.mem_cons]
    tauto

theorem delete_nodup (hnodup : ∀ u, (of_task deps u).Nodup) (bbtasks : List Text) (u : Text) :
    (of_task (bbtasks.foldl (delete_turn task) deps) u).Nodup := by
  induction bbtasks generalizing deps with
  | nil => exact hnodup u
  | cons bbtask bbtasks ih => exact ih (delete_turn_nodup hnodup bbtask)

/-! ## Histories -/

variable {calls : List Call} {c : Call}

theorem present_concat (calls : List Call) (c : Call) (t : Text) :
    present (calls ++ [c]) t = if c.task = t then c.adds else present calls t := by
  unfold present
  rw [List.reverse_concat, List.find?_cons]
  by_cases h : c.task = t <;> simp [h]

theorem requested_concat : Requested (calls ++ [c]) u t ↔
    c.Asks u t ∨ (Requested calls u t ∧ ¬ c.Deletes u ∧ ¬ c.Deletes t) := by
  constructor
  · intro h
    generalize hall : calls ++ [c] = all at h
    cases h with
    | asked h =>
      obtain ⟨-, rfl⟩ := List.append_inj' hall rfl |>.imp_right List.singleton_inj.mp
      exact .inl h
    | stays h hu ht =>
      obtain ⟨rfl, rfl⟩ := List.append_inj' hall rfl |>.imp_right List.singleton_inj.mp
      exact .inr ⟨h, hu, ht⟩
  · rintro (h | ⟨h, hu, ht⟩)
    · exact .asked h
    · exact .stays h hu ht

theorem left_concat : Left (calls ++ [c]) u t ↔
    c.Asks u t ∨ (Left calls u t ∧ ¬ c.Deletes u ∧ ¬ (c.Deletes t ∧ present calls u)) := by
  constructor
  · intro h
    generalize hall : calls ++ [c] = all at h
    cases h with
    | asked h =>
      obtain ⟨-, rfl⟩ := List.append_inj' hall rfl |>.imp_right List.singleton_inj.mp
      exact .inl h
    | stays h hu ht =>
      obtain ⟨rfl, rfl⟩ := List.append_inj' hall rfl |>.imp_right List.singleton_inj.mp
      exact .inr ⟨h, hu, ht⟩
  · rintro (h | ⟨h, hu, ht⟩)
    · exact .asked h
    · exact .stays h hu ht

theorem not_left_nil : ¬ Left [] u t := by
  intro h
  generalize hall : ([] : List Call) = all at h
  cases h <;> simp at hall

theorem Requested.left (h : Requested calls u t) : Left calls u t := by
  induction h with
  | asked h => exact .asked h
  | stays _ hu ht ih => exact .stays ih hu fun hand => ht hand.1

/-! ## What the statements do -/

/-- The tasks are those that were added last, and the flags hold what is left. -/
structure Inv (s : State) (calls : List Call) : Prop where
  nodup : s.bbtasks.Nodup
  present : ∀ t, t ∈ s.bbtasks ↔ present calls t
  deps_nodup : ∀ u, (of_task s.deps u).Nodup
  deps : ∀ u t, t ∈ of_task s.deps u ↔ Left calls u t

variable {s : State}

theorem Inv.addtask (h : Inv s calls) (task : Text) (before after : Option Text) :
    Inv (addtask s task before after) (calls ++ [.addtask task before after]) := by
  have hdeps : ∀ u, (of_task (Function.update s.deps (do_name task)
      (some (append_new ((s.deps (do_name task)).getD []) (entries after)))) u).Nodup := by
    intro u
    rw [of_task_update]
    split
    · exact append_new_nodup (h.deps_nodup _) _
    · exact h.deps_nodup u
  unfold task_edges.addtask
  refine ⟨?_, fun t => ?_, fun u => before_nodup hdeps _ u, fun u t => ?_⟩
  · simp only
    split
    · rename_i hmem
      exact List.concat_eq_append ▸ h.nodup.concat hmem
    · exact h.nodup
  · have hmem : t ∈ (if do_name task ∉ s.bbtasks then s.bbtasks ++ [do_name task] else s.bbtasks) ↔
        t ∈ s.bbtasks ∨ t = do_name task := by
      split
      · simp
      · rename_i hthere
        rw [not_not] at hthere
        constructor
        · exact .inl
        · rintro (hmem | rfl)
          · exact hmem
          · exact hthere
    refine hmem.trans ?_
    rw [h.present, present_concat]
    by_cases hname : do_name task = t
    · simp [Call.task, Call.adds, hname]
    · simp [Call.task, hname, Ne.symm hname]
  · simp only [mem_before, of_task_update, left_concat, ← h.deps]
    have hnot : ∀ x, ¬ (Call.addtask task before after).Deletes x := fun x hx => Bool.noConfusion hx.1
    simp only [hnot, not_false_eq_true, false_and, and_true, Call.Asks]
    by_cases hu : u = do_name task
    · subst hu
      simp only [if_true, Option.getD_some, mem_append_new, true_and]
      unfold of_task
      tauto
    · simp only [hu, if_false, false_and, false_or]
      tauto

theorem Inv.deltask (h : Inv s calls) (task : Text) : Inv (deltask s task) (calls ++ [.deltask task]) := by
  have hdeps : ∀ u, (of_task (Function.update s.deps (do_name task) none) u).Nodup := by
    intro u
    rw [of_task_update]
    split
    · exact List.nodup_nil
    · exact h.deps_nodup u
  have hbbtasks : (if do_name task ∈ s.bbtasks then s.bbtasks.erase (do_name task) else s.bbtasks) =
      s.bbtasks.erase (do_name task) := by
    split
    · rfl
    · rename_i hmem
      exact (List.erase_of_not_mem hmem).symm
  unfold task_edges.deltask
  simp only [hbbtasks]
  refine ⟨h.nodup.erase _, fun t => ?_, fun u => delete_nodup hdeps _ u, fun u t => ?_⟩
  · rw [h.nodup.mem_erase_iff, h.present, present_concat]
    by_cases hname : do_name task = t
    · simp [Call.task, Call.adds, hname]
    · simp [Call.task, hname, Ne.symm hname]
  · have hdeletes : ∀ x, (Call.deltask task).Deletes x ↔ x = do_name task := by
      intro x
      simp [Call.Deletes, Call.adds, Call.task, eq_comm]
    simp only [mem_delete hdeps, of_task_update, left_concat, hdeletes, h.nodup.mem_erase_iff, h.present, Call.Asks,
      false_or, ← h.deps]
    by_cases hu : u = do_name task
    · simp [hu]
    · simp [hu]

theorem inv_after (calls : List Call) : Inv (after calls) calls := by
  induction calls using List.reverseRecOn with
  | nil =>
    refine ⟨List.nodup_nil, fun t => ?_, fun u => List.nodup_nil, fun u t => ?_⟩
    · simp [after, start, present]
    · simp [after, start, of_task, not_left_nil]
  | append_singleton calls c ih =>
    have hafter : after (calls ++ [c]) = exec (after calls) c := by
      unfold after
      rw [List.foldl_concat]
    rw [hafter]
    cases c with
    | addtask task before after => exact ih.addtask task before after
    | deltask task => exact ih.deltask task

/-! ## What is recorded -/

theorem expand_plain (value : Text → Text) {s : Text} (h : '$' ∉ s) : expand value s = s := if_neg h

theorem plain_do_name {task : Text} (h : '$' ∉ task) : '$' ∉ do_name task := by
  unfold do_name
  split
  · intro hmem
    rcases List.mem_append.mp hmem with hmem | hmem
    · exact absurd hmem (by decide)
    · exact h hmem
  · exact h

theorem plain_entries {clause : Option Text} (h : '$' ∉ clause.getD []) {t : Text} (ht : t ∈ entries clause) :
    '$' ∉ t := by
  cases clause with
  | none => cases ht
  | some clause => exact fun hmem => h (mem_of_mem_words ht hmem)

theorem plain_of_left (h : Left calls u t) (hplain : ∀ c ∈ calls, c.Plain) : '$' ∉ t := by
  induction h with
  | @asked calls c u t h =>
    have hc := hplain c (by simp)
    cases c with
    | addtask task before after =>
      rcases h with ⟨-, ht⟩ | ⟨rfl, -⟩
      · exact plain_entries hc.2.2 ht
      · exact plain_do_name hc.1
    | deltask task => exact h.elim
  | stays _ _ _ ih => exact ih fun c hc => hplain c (List.mem_append_left _ hc)

theorem plain_of_present (h : present calls t) (hplain : ∀ c ∈ calls, c.Plain) : '$' ∉ t := by
  unfold present at h
  cases hfind : calls.reverse.find? fun c => c.task = t with
  | none => simp [hfind] at h
  | some c =>
    have hc := hplain c (List.mem_reverse.mp (List.mem_of_find?_eq_some hfind))
    obtain rfl : c.task = t := by simpa using List.find?_some hfind
    cases c with
    | addtask task before after => exact plain_do_name hc.1
    | deltask task => exact plain_do_name hc

theorem add_tasks_plain (value : Text → Text) {tasklist : List Text} (hnodup : tasklist.Nodup)
    (htasks : ∀ t ∈ tasklist, '$' ∉ t) (hdeps : ∀ u ∈ tasklist, ∀ t ∈ of_task deps u, '$' ∉ t) :
    (add_tasks value tasklist deps).tasks = tasklist ∧
      ∀ u ∈ tasklist, ((add_tasks value tasklist deps).parents.get? u).getD [] = of_task deps u := by
  unfold add_tasks
  induction tasklist using List.reverseRecOn with
  | nil => exact ⟨rfl, fun u hu => absurd hu List.not_mem_nil⟩
  | append_singleton l task ih =>
    have hl : l.Nodup := hnodup.of_append_left
    have hnew : task ∉ l := fun hmem => List.disjoint_of_nodup_append hnodup hmem (List.mem_singleton_self task)
    obtain ⟨iht, ihp⟩ := ih hl (fun t ht => htasks t (List.mem_append_left _ ht))
      fun u hu => hdeps u (List.mem_append_left _ hu)
    have hplain := expand_plain value (htasks task (by simp))
    have hmap : (of_task deps task).map (expand value) = of_task deps task := by
      have hid := List.map_congr_left fun t ht => expand_plain value (hdeps task (by simp) t ht)
      rw [hid, List.map_id']
    rw [List.foldl_concat]
    generalize l.foldl (add_turn value deps) ⟨[], []⟩ = task_deps at iht ihp
    unfold add_turn
    simp only [hplain, iht]
    refine ⟨by rw [if_pos hnew], fun u hu => ?_⟩
    by_cases hu' : u = task
    · subst hu'
      rw [OrderedDict.get?_set_self]
      exact hmap
    · rw [OrderedDict.get?_set_other _ _ hu']
      refine ihp u ?_
      simpa [hu'] using hu

/-- The graph of the tasks is the one that was asked for when no edge between two tasks that are there is left
from before one of the two was deleted, or it was asked for again since. -/
theorem task_graph_is_as_requested_iff (value : Text → Text) {calls : List Call} (hplain : ∀ c ∈ calls, c.Plain) :
    AsRequested value calls ↔
      ∀ u t, present calls u → present calls t → Left calls u t → Requested calls u t := by
  have hinv := inv_after calls
  obtain ⟨htasks, hparents⟩ := @add_tasks_plain (after calls).deps value (after calls).bbtasks hinv.nodup
    (fun t ht => plain_of_present ((hinv.present t).mp ht) hplain)
    fun u _ t ht => plain_of_left ((hinv.deps u t).mp ht) hplain
  constructor
  · intro h u t hu ht hleft
    rw [← hinv.present] at hu ht
    apply (h.edges u t hu ht).mp
    unfold recorded
    rw [hparents u hu]
    exact (hinv.deps u t).mpr hleft
  · intro h
    refine ⟨hinv.nodup, hinv.present, htasks, fun u t hu ht => ?_⟩
    unfold recorded
    rw [hparents u hu, hinv.deps]
    constructor
    · exact h u t ((hinv.present u).mp hu) ((hinv.present t).mp ht)
    · exact Requested.left

/-- A task is to run before another one that is not there yet, is deleted, and is added again without a clause. -/
def forgotten : List Call :=
  [.addtask (text "do_fetch") (some (text "do_report")) none, .deltask (text "do_fetch"),
    .addtask (text "do_fetch") none none, .addtask (text "do_report") none none]

theorem one_statement_is_as_requested :
    AsRequested id [.addtask (text "do_compile") (some (text "do_install")) (some (text "do_configure"))] := by
  apply (task_graph_is_as_requested_iff id ?_).mpr
  · intro u t _ _ h
    rcases (@left_concat u t [] _).mp h with h | ⟨h, -⟩
    · exact @Requested.asked [] _ _ _ h
    · exact absurd h not_left_nil
  · intro c hc
    obtain rfl := List.mem_singleton.mp hc
    exact ⟨by decide, by decide, by decide⟩

/-- The edge to the deleted task is there again. -/
theorem a_deleted_edge_reappears :
    ¬ ∀ (value : Text → Text) (calls : List Call), (∀ c ∈ calls, c.Plain) → AsRequested value calls := by
  intro h
  have hplain : ∀ c ∈ forgotten, c.Plain := by
    simp only [forgotten, List.forall_mem_cons, List.not_mem_nil, false_imp_iff, implies_true, and_true, Call.Plain]
    decide
  have hedges := (h id forgotten hplain).edges (text "do_report") (text "do_fetch") (by decide) (by decide)
  have hrequested := hedges.mp (by decide)
  -- The last two statements have no clause, and the second one deletes an end of the edge.
  have hlast := (@requested_concat _ _ (forgotten.take 3) (.addtask (text "do_report") none none)).mp hrequested
  rcases hlast with hasks | ⟨hrequested, -⟩
  · simp [Call.Asks, entries] at hasks
  have hthird := (@requested_concat _ _ (forgotten.take 2) (.addtask (text "do_fetch") none none)).mp hrequested
  rcases hthird with hasks | ⟨hrequested, -⟩
  · simp [Call.Asks, entries] at hasks
  have hsecond := (@requested_concat _ _ (forgotten.take 1) (.deltask (text "do_fetch"))).mp hrequested
  rcases hsecond with hasks | ⟨-, -, hdeletes⟩
  · exact hasks
  · exact hdeletes ⟨rfl, by decide⟩

end yocto.task_edges
