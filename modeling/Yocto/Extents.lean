-- Ranges of sectors that are laid out one after the other: a cursor only moves
-- forward, so the ranges do not meet, and each of them lies between the first
-- and the last position of the cursor.
import Mathlib

namespace yocto.extents

/-! ## Alignment -/

/-- How far `x` is from the next multiple of `k`. -/
def misaligned (k x : Nat) : Nat := if x % k = 0 then 0 else k - x % k

theorem dvd_add_misaligned {k : Nat} (hk : 0 < k) (x : Nat) : k ∣ x + misaligned k x := by
  unfold misaligned
  split
  · rename_i h
    exact Nat.dvd_of_mod_eq_zero h
  · have hdiv := Nat.div_add_mod x k
    have hlt := Nat.mod_lt x hk
    refine ⟨x / k + 1, ?_⟩
    rw [Nat.mul_add]
    omega

/-! ## Extents -/

/-- The sectors from `start` on, `size` of them. -/
structure Extent where
  start : Nat
  size : Nat

namespace Extent

/-- The first sector after the extent. -/
def stop (e : Extent) : Nat := e.start + e.size

def sectors (e : Extent) : Set Nat := Set.Ico e.start e.stop

theorem disjoint_of_le {e e' : Extent} (h : e.stop ≤ e'.start) :
    Disjoint e.sectors e'.sectors := by
  rw [sectors, sectors, Set.Ico_disjoint_Ico]
  have := min_le_left e.stop e'.stop
  have := le_max_right e.start e'.start
  omega

theorem sectors_subset {e e' : Extent} (h : 0 < e.size) :
    e.sectors ⊆ e'.sectors ↔ e'.start ≤ e.start ∧ e.stop ≤ e'.stop := by
  apply Set.Ico_subset_Ico_iff
  unfold stop
  omega

end Extent

/-! ## A row of extents -/

/-- A cursor goes from `lo` to `hi` over the extents, in their order. -/
def Laid (lo : Nat) : List Extent → Nat → Prop
  | [], hi => lo ≤ hi
  | e :: l, hi => lo ≤ e.start ∧ Laid e.stop l hi

namespace Laid

variable {lo mid hi : Nat} {e : Extent} {l l' : List Extent}

theorem le (h : Laid lo l hi) : lo ≤ hi := by
  induction l generalizing lo with
  | nil => exact h
  | cons e l ih =>
    have := ih h.2
    have := h.1
    unfold Extent.stop at *
    omega

theorem within (h : Laid lo l hi) (he : e ∈ l) : lo ≤ e.start ∧ e.stop ≤ hi := by
  induction l generalizing lo with
  | nil => simp at he
  | cons e' l ih =>
    rcases List.mem_cons.mp he with rfl | he
    · exact ⟨h.1, h.2.le⟩
    · have := ih h.2 he
      have := h.1
      unfold Extent.stop at *
      omega

theorem mono (h : Laid mid l hi) (hle : lo ≤ mid) : Laid lo l hi := by
  cases l with
  | nil => exact le_trans hle h
  | cons e l => exact ⟨le_trans hle h.1, h.2⟩

theorem append (h : Laid lo l mid) (h' : Laid mid l' hi) : Laid lo (l ++ l') hi := by
  induction l generalizing lo with
  | nil =>
    cases l' with
    | nil => exact le_trans h h'
    | cons e l' => exact ⟨le_trans h h'.1, h'.2⟩
  | cons e l ih => exact ⟨h.1, ih h.2⟩

theorem in_order (h : Laid lo l hi) : l.Pairwise fun e e' => e.stop ≤ e'.start := by
  induction l generalizing lo with
  | nil => exact List.Pairwise.nil
  | cons e l ih => exact List.Pairwise.cons (fun e' he' => (h.2.within he').1) (ih h.2)

theorem disjoint (h : Laid lo l hi) : l.Pairwise fun e e' => Disjoint e.sectors e'.sectors :=
  h.in_order.imp Extent.disjoint_of_le

end Laid

end yocto.extents
