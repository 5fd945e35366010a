-- The names of tasks. A task id is one text: the multiconfig, the recipe file and the task
-- name, with a colon between them, and `split_tid_mcfn` takes it apart.
import Mathlib.Data.Char
import Mathlib.Data.List.Infix
import Mathlib.Data.List.Lex
import Mathlib.Tactic
import Yocto.ListSearch

open yocto.list_search (cut_inj)

namespace yocto.task_ids

abbrev Text := List Char

instance lawful_text : LawfulBEq Text := inferInstance

/-! Texts are sorted by their characters. -/

instance trans_text : IsTrans Text (· ≤ ·) := inferInstance
instance antisymm_text : Std.Antisymm fun a b : Text => a ≤ b := inferInstance
instance total_text : Std.Total fun a b : Text => a ≤ b := inferInstance

/-- A string literal. -/
def text (s : String) : Text := s.toList

structure Names where
  mc : Text
  fn : Text
  taskname : Text
  mcfn : Text
  deriving DecidableEq, Repr

/-- `split_tid_mcfn`. A text without a colon has no task name, which is an `IndexError`. -/
def split_tid_mcfn (tid : Text) : Option Names :=
  let elems := tid.splitOn ':'
  if text "mc:" <+: tid ∧ 2 ≤ tid.count ':' then
    let mc := elems.getD 1 []
    let fn := [':'].intercalate (elems.drop 2).dropLast
    some ⟨mc, fn, elems.getLastD [], text "mc:" ++ mc ++ [':'] ++ fn⟩
  else if 2 ≤ elems.length then
    let fn := [':'].intercalate elems.dropLast
    some ⟨[], fn, elems.getLastD [], fn⟩
  else none

def joined (mc pn taskname : Text) : Text := mc ++ ':' :: (pn ++ ':' :: taskname)

theorem not_mem_of_mem_splitOn {c : Char} {s elem : Text} (h : elem ∈ s.splitOn c) : c ∉ elem := by
  induction s generalizing elem with
  | nil =>
    rw [List.splitOn_nil, List.mem_singleton] at h
    simp [h]
  | cons x xs ih =>
    rw [List.splitOn_cons_eq_if_modifyHead] at h
    split at h
    · rcases List.mem_cons.mp h with rfl | h
      · simp
      · exact ih h
    · rename_i hx
      obtain ⟨y, ys, hys⟩ := List.exists_cons_of_ne_nil (List.splitOn_ne_nil c xs)
      rw [hys, List.modifyHead_cons] at h
      rw [hys] at ih
      rcases List.mem_cons.mp h with rfl | h
      · have hy := ih (List.mem_cons_self)
        simp only [beq_iff_eq] at hx
        simp only [List.mem_cons, not_or]
        exact ⟨fun hc => hx hc.symm, hy⟩
      · exact ih (List.mem_cons_of_mem y h)

theorem split_tid_mcfn_colons {tid : Text} {n : Names} (h : split_tid_mcfn tid = some n) :
    ':' ∉ n.mc ∧ ':' ∉ n.taskname := by
  have hlast : ':' ∉ (tid.splitOn ':').getLastD [] := by
    have hne := List.splitOn_ne_nil ':' tid
    rw [List.getLastD_eq_getLast?, List.getLast?_eq_some_getLast hne]
    exact not_mem_of_mem_splitOn (List.getLast_mem hne)
  have hmc : ':' ∉ (tid.splitOn ':').getD 1 [] := by
    rw [List.getD_eq_getElem?_getD]
    rcases h1 : (tid.splitOn ':')[1]? with _ | elem
    · simp
    · exact not_mem_of_mem_splitOn (List.mem_of_getElem? h1)
  unfold split_tid_mcfn at h
  dsimp only at h
  split at h
  · obtain rfl := Option.some.inj h
    exact ⟨hmc, hlast⟩
  · split at h
    · obtain rfl := Option.some.inj h
      exact ⟨List.not_mem_nil, hlast⟩
    · cases h

theorem joined_inj {mc mc' pn pn' task task' : Text} (hmc : ':' ∉ mc) (hmc' : ':' ∉ mc')
    (htask : ':' ∉ task) (htask' : ':' ∉ task') (h : joined mc pn task = joined mc' pn' task') :
    mc = mc' ∧ pn = pn' ∧ task = task' := by
  obtain ⟨rfl, hrest⟩ := cut_inj hmc hmc' h
  have hrev := congrArg List.reverse hrest
  simp only [List.reverse_append, List.reverse_cons, List.append_assoc, List.singleton_append] at hrev
  obtain ⟨hr, hr'⟩ := cut_inj (by simpa using htask) (by simpa using htask') hrev
  exact ⟨rfl, List.reverse_injective hr', List.reverse_injective hr⟩

example : split_tid_mcfn (text "mc:arm:/a.bb:do_b") =
    some ⟨text "arm", text "/a.bb", text "do_b", text "mc:arm:/a.bb"⟩ := by decide

end yocto.task_ids
