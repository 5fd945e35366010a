-- Families of finite sets that grow by rules. A rule adds elements to one set, and adds no
-- fewer when the family is larger.
import Mathlib.Algebra.BigOperators.Group.Finset.Basic
import Mathlib.Order.Bounds.Basic
import Mathlib.Tactic

namespace yocto.saturation

variable {ι α : Type} [DecidableEq ι] [DecidableEq α]

/-- A rule, with the set that it adds to. -/
structure Rule (ι α : Type) [DecidableEq α] where
  target : ι
  adds : (ι → Finset α) → Finset α
  mono : Monotone adds

def Rule.apply (r : Rule ι α) (D : ι → Finset α) : ι → Finset α :=
  Function.update D r.target (D r.target ∪ r.adds D)

omit [DecidableEq ι] in
def Closed (rules : List (Rule ι α)) (D : ι → Finset α) : Prop := ∀ r ∈ rules, r.adds D ⊆ D r.target

def round (rules : List (Rule ι α)) (D : ι → Finset α) : ι → Finset α := rules.foldl (fun D r => r.apply D) D

theorem le_apply (r : Rule ι α) (D : ι → Finset α) : D ≤ r.apply D := by
  intro i
  unfold Rule.apply
  by_cases hi : i = r.target
  · subst hi
    rw [Function.update_self]
    exact Finset.subset_union_left
  · rw [Function.update_of_ne hi]

theorem apply_eq_iff (r : Rule ι α) (D : ι → Finset α) : r.apply D = D ↔ r.adds D ⊆ D r.target := by
  unfold Rule.apply
  rw [Function.update_eq_self_iff, Finset.union_eq_left]

theorem apply_le {r : Rule ι α} {D C : ι → Finset α} (hle : D ≤ C) (hclosed : r.adds C ⊆ C r.target) :
    r.apply D ≤ C := by
  intro i
  unfold Rule.apply
  by_cases hi : i = r.target
  · subst hi
    rw [Function.update_self]
    exact Finset.union_subset (hle r.target) ((r.mono hle).trans hclosed)
  · rw [Function.update_of_ne hi]
    exact hle i

theorem le_round (rules : List (Rule ι α)) (D : ι → Finset α) : D ≤ round rules D := by
  induction rules generalizing D with
  | nil => exact le_refl D
  | cons r rules ih => exact (le_apply r D).trans (ih (r.apply D))

theorem round_le {rules : List (Rule ι α)} {D C : ι → Finset α} (hle : D ≤ C) (hclosed : Closed rules C) :
    round rules D ≤ C := by
  induction rules generalizing D with
  | nil => exact hle
  | cons r rules ih =>
    exact ih (apply_le hle (hclosed r List.mem_cons_self)) fun r' hr' => hclosed r' (List.mem_cons_of_mem _ hr')

theorem round_cons_eq_iff (r : Rule ι α) (rules : List (Rule ι α)) (D : ι → Finset α) :
    round (r :: rules) D = D ↔ r.apply D = D ∧ round rules D = D := by
  have hcons : round (r :: rules) D = round rules (r.apply D) := rfl
  rw [hcons]
  constructor
  · intro h
    have hback : r.apply D ≤ D := (le_round rules (r.apply D)).trans (le_of_eq h)
    have hfirst : r.apply D = D := le_antisymm hback (le_apply r D)
    rw [hfirst] at h
    exact ⟨hfirst, h⟩
  · rintro ⟨hfirst, hrest⟩
    rw [hfirst, hrest]

theorem round_eq_iff (rules : List (Rule ι α)) (D : ι → Finset α) : round rules D = D ↔ Closed rules D := by
  induction rules with
  | nil => simp [round, Closed]
  | cons r rules ih =>
    rw [round_cons_eq_iff, apply_eq_iff, ih]
    simp [Closed]

theorem isLeast_of_fixed {rules : List (Rule ι α)} {D₀ D : ι → Finset α} (hle : D₀ ≤ D)
    (hbelow : ∀ C, D₀ ≤ C → Closed rules C → D ≤ C) (hfixed : round rules D = D) :
    IsLeast {C | D₀ ≤ C ∧ Closed rules C} D :=
  ⟨⟨hle, (round_eq_iff rules D).mp hfixed⟩, fun C hC => hbelow C hC.1 hC.2⟩

/-! ## Rounds come to an end -/

def size (indices : Finset ι) (D : ι → Finset α) : Nat := ∑ i ∈ indices, (D i).card

def Inside (world : Finset α) (D : ι → Finset α) : Prop := ∀ i, D i ⊆ world

omit [DecidableEq ι] [DecidableEq α] in
theorem size_le {indices : Finset ι} {world : Finset α} {D : ι → Finset α} (h : Inside world D) :
    size indices D ≤ indices.card * world.card := by
  unfold size
  calc ∑ i ∈ indices, (D i).card ≤ ∑ _i ∈ indices, world.card :=
        Finset.sum_le_sum fun i _ => Finset.card_le_card (h i)
    _ = indices.card * world.card := by rw [Finset.sum_const, smul_eq_mul]

theorem inside_round {rules : List (Rule ι α)} {world : Finset α}
    (hworld : ∀ r ∈ rules, ∀ D, Inside world D → r.adds D ⊆ world) {D : ι → Finset α} (h : Inside world D) :
    Inside world (round rules D) := by
  induction rules generalizing D with
  | nil => exact h
  | cons r rules ih =>
    have hfirst : Inside world (r.apply D) := by
      intro i
      unfold Rule.apply
      by_cases hi : i = r.target
      · subst hi
        rw [Function.update_self]
        exact Finset.union_subset (h r.target) (hworld r List.mem_cons_self D h)
      · rw [Function.update_of_ne hi]
        exact h i
    exact ih (fun r' hr' => hworld r' (List.mem_cons_of_mem _ hr')) hfirst

theorem round_other {rules : List (Rule ι α)} {i : ι} (hi : ∀ r ∈ rules, r.target ≠ i) (D : ι → Finset α) :
    round rules D i = D i := by
  induction rules generalizing D with
  | nil => rfl
  | cons r rules ih =>
    have hcons : round (r :: rules) D = round rules (r.apply D) := rfl
    rw [hcons, ih (fun r' hr' => hi r' (List.mem_cons_of_mem _ hr')), Rule.apply,
      Function.update_of_ne (Ne.symm (hi r List.mem_cons_self))]

theorem size_lt {rules : List (Rule ι α)} {indices : Finset ι} (hindices : ∀ r ∈ rules, r.target ∈ indices)
    {D : ι → Finset α} (hne : round rules D ≠ D) : size indices D < size indices (round rules D) := by
  have hle := le_round rules D
  obtain ⟨i, hi⟩ : ∃ i, round rules D i ≠ D i := by
    by_contra hall
    rw [not_exists] at hall
    exact hne (funext fun i => not_not.mp (hall i))
  have hmem : i ∈ indices := by
    by_contra hnot
    refine hi (round_other (fun r hr heq => ?_) D)
    rw [← heq] at hnot
    exact hnot (hindices r hr)
  refine Finset.sum_lt_sum (fun j _ => Finset.card_le_card (hle j)) ⟨i, hmem, ?_⟩
  exact Finset.card_lt_card (Finset.ssubset_iff_subset_ne.mpr ⟨hle i, Ne.symm hi⟩)

end yocto.saturation
