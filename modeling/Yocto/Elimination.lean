-- Nodes are taken out of a graph one by one: who led to the node is led to what the node led
-- to.
import Mathlib.Data.Finset.Lattice.Basic
import Mathlib.Tactic

namespace yocto.elimination

variable {α : Type}

/-- From the set `s`, a node is reached over nodes of `gone`. -/
inductive Through (next : α → Finset α) (gone s : Finset α) : α → Prop
  | start {y : α} : y ∈ s → Through next gone s y
  | step {q y : α} : Through next gone s q → q ∈ gone → y ∈ next q → Through next gone s y

/-- `s'` is what became of the set `s` when the nodes of `gone` were taken out. -/
def Left (next : α → Finset α) (gone s s' : Finset α) : Prop :=
  ∀ y, y ∈ s' ↔ y ∉ gone ∧ Through next gone s y

variable {next : α → Finset α} {gone s s' ds : Finset α} {d y : α}

theorem Through.mono {gone' : Finset α} (h : Through next gone s y) (hsub : gone ⊆ gone') :
    Through next gone' s y := by
  induction h with
  | start hy => exact .start hy
  | step _ hq hy ih => exact .step ih (hsub hq) hy

theorem Through.trans (h : Through next gone s d) (hd : d ∈ gone) (h' : Through next gone (next d) y) :
    Through next gone s y := by
  induction h' with
  | start hy => exact .step h hd hy
  | step _ hq hy ih => exact .step ih hq hy

theorem Through.inside {world : Finset α} (hworld : ∀ x ∈ world, next x ⊆ world) (hgone : gone ⊆ world)
    (hs : s ⊆ world) (h : Through next gone s y) : y ∈ world := by
  induction h with
  | start hy => exact hs hy
  | step _ hq hy _ => exact hworld _ (hgone hq) hy

theorem left_empty (next : α → Finset α) (s : Finset α) : Left next ∅ s s := by
  intro y
  constructor
  · exact fun hy => ⟨Finset.notMem_empty y, .start hy⟩
  · rintro ⟨-, hy | ⟨-, hq, -⟩⟩
    · exact hy
    · exact absurd hq (Finset.notMem_empty _)

variable [DecidableEq α]

/-- The node `d`, which leads to `ds`, is taken out of the set `s`. -/
def push (d : α) (ds s : Finset α) : Finset α := if d ∈ s then (s ∪ ds).erase d else s

theorem mem_push : y ∈ push d ds s ↔ y ≠ d ∧ (y ∈ s ∨ d ∈ s ∧ y ∈ ds) := by
  unfold push
  split
  · rename_i hd
    simp [hd]
  · rename_i hd
    constructor
    · intro hy
      exact ⟨fun heq => hd (heq ▸ hy), Or.inl hy⟩
    · rintro ⟨-, hy | ⟨hin, -⟩⟩
      · exact hy
      · exact absurd hin hd

theorem push_self (d : α) (s : Finset α) : push d s s = s.erase d := by
  ext y
  rw [mem_push, Finset.mem_erase]
  tauto

theorem push_erase (d : α) (ds s : Finset α) : push d (ds.erase d) s = push d ds s := by
  ext y
  rw [mem_push, mem_push, Finset.mem_erase]
  tauto

theorem through_insert : Through next (insert d gone) s y ↔
    Through next gone s y ∨ Through next gone s d ∧ Through next gone (next d) y := by
  constructor
  · intro h
    induction h with
    | start hy => exact Or.inl (.start hy)
    | step _ hq hy ih =>
      rcases Finset.mem_insert.mp hq with rfl | hq
      · exact Or.inr ⟨ih.elim id And.left, .start hy⟩
      · exact ih.imp (fun h => .step h hq hy) (And.imp_right fun h => .step h hq hy)
  · rintro (h | ⟨hto, hfrom⟩)
    · exact h.mono (Finset.subset_insert d gone)
    · exact (hto.mono (Finset.subset_insert d gone)).trans (Finset.mem_insert_self d gone)
        (hfrom.mono (Finset.subset_insert d gone))

theorem Left.push (h : Left next gone s s') (hds : Left next gone (next d) ds) (hd : d ∉ gone) :
    Left next (insert d gone) s (push d ds s') := by
  intro y
  rw [mem_push, h y, h d, hds y, through_insert, Finset.mem_insert]
  tauto

end yocto.elimination
