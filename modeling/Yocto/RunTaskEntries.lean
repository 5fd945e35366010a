-- The tasks of the run queue while it is prepared (runqueue.py): a dict from task ids to what
-- each task depends on.
import Yocto.Frontier
import Yocto.OrderedDict
import Yocto.TaskIds

open yocto.task_ids yocto.ordered_dict yocto.frontier

namespace yocto.run_task_entries

/-- `runtaskentries`, of which the preparation reads the dependencies. -/
abbrev Entries := OrderedDict Text (List Text)

def keys (entries : Entries) : List Text := entries.map Prod.fst

def fn_from_tid (tid : Text) : Text :=
  if ':' ∈ tid then ((tid.reverse.dropWhile fun c => decide (c ≠ ':')).drop 1).reverse else tid

/-- `taskname_from_tid`, for task ids with a colon. -/
def taskname_from_tid (tid : Text) : Text := (tid.reverse.takeWhile fun c => decide (c ≠ ':')).reverse

def tid_of (fn taskname : Text) : Text := fn ++ ':' :: taskname

abbrev TaskName := { taskname : Text // ':' ∉ taskname }

theorem reverse_tid_of (fn taskname : Text) : (tid_of fn taskname).reverse = taskname.reverse ++ ':' :: fn.reverse := by
  simp [tid_of]

theorem fn_from_tid_of (fn : Text) {taskname : Text} (h : ':' ∉ taskname) : fn_from_tid (tid_of fn taskname) = fn := by
  have hall : ∀ c ∈ taskname.reverse, decide (c ≠ ':') = true := by
    intro c hc
    rw [decide_eq_true_iff]
    rintro rfl
    exact h (List.mem_reverse.mp hc)
  have hmem : ':' ∈ tid_of fn taskname := by simp [tid_of]
  unfold fn_from_tid
  rw [if_pos hmem, reverse_tid_of, List.dropWhile_append_of_pos hall, List.dropWhile_cons_of_neg (by simp)]
  simp

theorem taskname_from_tid_of (fn : Text) {taskname : Text} (h : ':' ∉ taskname) :
    taskname_from_tid (tid_of fn taskname) = taskname := by
  have hall : ∀ c ∈ taskname.reverse, decide (c ≠ ':') = true := by
    intro c hc
    rw [decide_eq_true_iff]
    rintro rfl
    exact h (List.mem_reverse.mp hc)
  unfold taskname_from_tid
  rw [reverse_tid_of, List.takeWhile_append_of_pos hall, List.takeWhile_cons_of_neg (by simp)]
  simp

def Depends (entries : Entries) (a b : Text) : Prop := Next entries.get? a b

/-- The entries that the preparation has resolved: every dependency has its entry. -/
structure Resolved where
  entries : Entries
  nodup : (keys entries).Nodup
  closed : ∀ x ∈ entries, ∀ dep ∈ x.2, dep ∈ keys entries
  colon : ∀ tid ∈ keys entries, ':' ∈ tid

theorem get?_of_mem {entries : Entries} (hnodup : (keys entries).Nodup) {x : Text × List Text} (h : x ∈ entries) :
    entries.get? x.1 = some x.2 := by
  obtain ⟨deps, hdeps⟩ := OrderedDict.get?_of_key (List.mem_map_of_mem (f := Prod.fst) h)
  have hmem := OrderedDict.mem_of_get? hdeps
  have hsame : (x.1, deps) = x := List.inj_on_of_nodup_map hnodup hmem h rfl
  rw [hdeps, ← hsame]

theorem depends_closed {entries : Entries} (hclosed : ∀ x ∈ entries, ∀ dep ∈ x.2, dep ∈ keys entries) :
    World entries.get? (keys entries) := by
  intro tid htid
  obtain ⟨deps, hdeps⟩ := OrderedDict.get?_of_key htid
  exact ⟨deps, hdeps, hclosed _ (OrderedDict.mem_of_get? hdeps)⟩

end yocto.run_task_entries
