-- A mark that never goes down.
import Mathlib.Order.WithBot
import Mathlib.Data.Set.Subsingleton
import Mathlib.Tactic

namespace yocto.high_water

variable {C α : Type}

/-- The highest value there is, and who has it. -/
@[ext] structure Mark (C α : Type) where
  top : WithBot α
  holders : Set C

namespace Mark

def empty : Mark C α := ⟨⊥, ∅⟩

/-- Of the parties that meet `p`, one has the mark at most. -/
def Sole (p : C → Prop) (m : Mark C α) : Prop :=
  ∀ x ∈ m.holders, ∀ y ∈ m.holders, p x → p y → x = y

theorem Sole.empty (p : C → Prop) : Sole p (Mark.empty : Mark C α) :=
  fun _ hx => absurd hx (Set.notMem_empty _)

variable [LinearOrder α]

/-! ## Being raised -/

open Classical in
/-- A party is raised to a value. A value below the mark is of no account. -/
noncomputable def raise (m : Mark C α) (c : C) (v : α) : Mark C α :=
  if m.top < v then ⟨v, {c}⟩
  else if m.top = v then ⟨v, insert c m.holders⟩
  else m

variable {m : Mark C α} {c x : C} {v : α}

theorem raise_of_lt (h : m.top < v) : m.raise c v = ⟨v, {c}⟩ := if_pos h

theorem raise_of_eq (h : m.top = v) : m.raise c v = ⟨v, insert c m.holders⟩ := by
  simp [raise, h]

theorem raise_of_gt (h : v < m.top) : m.raise c v = m := by
  simp [raise, h.not_gt, h.ne']

theorem top_raise (h : m.top ≤ v) : (m.raise c v).top = v := by
  rcases h.lt_or_eq with h | h
  · rw [raise_of_lt h]
  · rw [raise_of_eq h]

theorem le_raise (m : Mark C α) (c : C) (v : α) : m.top ≤ (m.raise c v).top := by
  rcases lt_trichotomy m.top v with h | h | h
  · rw [raise_of_lt h]
    exact h.le
  · rw [raise_of_eq h]
    exact h.le
  · rw [raise_of_gt h]

theorem mem_raise_of_mem (hx : x ∈ m.holders) (htop : (m.raise c v).top = m.top) :
    x ∈ (m.raise c v).holders := by
  rcases lt_trichotomy m.top v with h | h | h
  · rw [raise_of_lt h] at htop
    exact absurd htop h.ne'
  · rw [raise_of_eq h]
    exact Set.mem_insert_of_mem c hx
  · rwa [raise_of_gt h]

theorem Sole.raise {p : C → Prop} (h : Sole p m) (hc : p c → m.top = v → c ∈ m.holders) :
    Sole p (m.raise c v) := by
  rcases lt_trichotomy m.top v with hlt | heq | hgt
  · intro x hx y hy _ _
    rw [raise_of_lt hlt] at hx hy
    rw [Set.mem_singleton_iff.mp hx, Set.mem_singleton_iff.mp hy]
  · have hin : ∀ z ∈ (m.raise c v).holders, p z → z ∈ m.holders := by
      rw [raise_of_eq heq]
      rintro z (rfl | hz) hp
      · exact hc hp heq
      · exact hz
    intro x hx y hy hpx hpy
    exact h x (hin x hx hpx) y (hin y hy hpy) hpx hpy
  · rwa [raise_of_gt hgt]

/-! ## Asking for a value -/

open Classical in
/-- A party without the mark gets the next value. -/
noncomputable def claim (next : WithBot α → α) (m : Mark C α) (c : C) : Mark C α :=
  if c ∈ m.holders then m else m.raise c (next m.top)

variable {next : WithBot α → α}

theorem claim_of_mem (h : c ∈ m.holders) : m.claim next c = m := if_pos h

theorem claim_of_not_mem (h : c ∉ m.holders) : m.claim next c = m.raise c (next m.top) := if_neg h

theorem le_claim (next : WithBot α → α) (m : Mark C α) (c : C) : m.top ≤ (m.claim next c).top := by
  by_cases h : c ∈ m.holders
  · rw [claim_of_mem h]
  · rw [claim_of_not_mem h]
    exact le_raise m c _

theorem mem_claim_of_mem (hx : x ∈ m.holders) (htop : (m.claim next c).top = m.top) :
    x ∈ (m.claim next c).holders := by
  by_cases h : c ∈ m.holders
  · rwa [claim_of_mem h]
  · rw [claim_of_not_mem h] at htop ⊢
    exact mem_raise_of_mem hx htop

theorem mem_claim (hnext : m.top ≤ next m.top) : c ∈ (m.claim next c).holders := by
  by_cases h : c ∈ m.holders
  · rwa [claim_of_mem h]
  · rw [claim_of_not_mem h]
    rcases hnext.lt_or_eq with hlt | heq
    · rw [raise_of_lt hlt]
      rfl
    · rw [raise_of_eq heq]
      exact Set.mem_insert c _

theorem claim_of_lt (h : c ∉ m.holders) (hlt : m.top < next m.top) :
    m.claim next c = ⟨next m.top, {c}⟩ := by
  rw [claim_of_not_mem h, raise_of_lt hlt]

theorem Sole.claim {p : C → Prop} (h : Sole p m) (hlt : c ∉ m.holders → m.top < next m.top) :
    Sole p (m.claim next c) := by
  by_cases hc : c ∈ m.holders
  · rwa [claim_of_mem hc]
  · rw [claim_of_not_mem hc]
    exact h.raise fun _ heq => absurd heq (hlt hc).ne

end Mark

end yocto.high_water
