-- Insertion sort is stable, so a list that is sorted by one key and then by another is ordered
-- by both.
import Mathlib.Data.List.Sort
import Mathlib.Data.List.TakeWhile

namespace yocto.stable_sort

variable {α κ : Type} [LinearOrder κ]

/-- The items, sorted by a key: `sorted(l, key=key)`. -/
def sort_by (key : α → κ) (l : List α) : List α := l.insertionSort fun a b => key a ≤ key b

theorem sort_by_perm (key : α → κ) (l : List α) : (sort_by key l).Perm l :=
  List.perm_insertionSort _ l

theorem orderedInsert_pairwise {r : α → α → Prop} {key : α → κ} {a : α} {l : List α}
    (hl : l.Pairwise fun x y => key x ≤ key y ∧ (key y ≤ key x → r x y)) (ha : ∀ x ∈ l, r a x) :
    (l.orderedInsert (fun x y => key x ≤ key y) a).Pairwise
      fun x y => key x ≤ key y ∧ (key y ≤ key x → r x y) := by
  rw [List.orderedInsert_eq_take_drop]
  -- the items before `a` have smaller keys, and those behind it have keys at least as great
  have hbefore : ∀ x ∈ l.takeWhile fun b => ¬key a ≤ key b, ¬key a ≤ key x := by
    intro x hx
    simpa using List.mem_takeWhile_imp hx
  have hsplit := List.takeWhile_append_dropWhile (p := fun b => ¬key a ≤ key b) (l := l)
  have hpair := hsplit.symm ▸ hl
  rw [List.pairwise_append] at hpair
  obtain ⟨htake, hdrop, hcross⟩ := hpair
  have hbehind : ∀ x ∈ l.dropWhile fun b => ¬key a ≤ key b, key a ≤ key x := by
    intro x hx
    cases hd : l.dropWhile fun b => ¬key a ≤ key b with
    | nil =>
      rw [hd] at hx
      cases hx
    | cons y ys =>
      have hy : key a ≤ key y := by
        have hne : (l.dropWhile fun b => ¬key a ≤ key b) ≠ [] := by
          rw [hd]
          exact List.cons_ne_nil y ys
        have hhead := List.head_dropWhile_not _ hne
        simp only [hd, List.head_cons] at hhead
        simpa using hhead
      rw [hd] at hx hdrop
      rcases List.mem_cons.mp hx with rfl | hx
      · exact hy
      · exact le_trans hy (List.rel_of_pairwise_cons hdrop hx).1
  rw [List.pairwise_append]
  refine ⟨htake, List.pairwise_cons.mpr ⟨?_, hdrop⟩, ?_⟩
  · intro x hx
    exact ⟨hbehind x hx, fun _ => ha x ((List.dropWhile_sublist _).subset hx)⟩
  · intro x hx y hy
    rcases List.mem_cons.mp hy with rfl | hy
    · have hlt := hbefore x hx
      exact ⟨(le_total _ _).resolve_right hlt, fun hle => absurd hle hlt⟩
    · exact hcross x hx y hy

theorem sort_by_stable {r : α → α → Prop} (key : α → κ) {l : List α} (h : l.Pairwise r) :
    (sort_by key l).Pairwise fun x y => key x ≤ key y ∧ (key y ≤ key x → r x y) := by
  unfold sort_by
  induction l with
  | nil => exact List.Pairwise.nil
  | cons a l ih =>
    rw [List.insertionSort_cons]
    apply orderedInsert_pairwise (ih h.of_cons)
    intro x hx
    exact List.rel_of_pairwise_cons h ((List.mem_insertionSort _).mp hx)

theorem sort_by_twice_keys {κ' : Type} [LinearOrder κ'] (key : α → κ) (key' : α → κ')
    {l l' : List α} (h : l.Perm l') :
    (sort_by key' (sort_by key l)).map (fun a => (key' a, key a)) =
      (sort_by key' (sort_by key l')).map fun a => (key' a, key a) := by
  have hsorted : ∀ l : List α, ((sort_by key' (sort_by key l)).map fun a => (key' a, key a)).Pairwise
      fun p q => p.1 ≤ q.1 ∧ (q.1 ≤ p.1 → p.2 ≤ q.2) := by
    intro l
    rw [List.pairwise_map]
    apply sort_by_stable key'
    have hone := sort_by_stable (r := fun _ _ => True) key (l := l)
      (List.pairwise_of_forall fun _ _ => trivial)
    exact hone.imp fun hxy => hxy.1
  refine List.Perm.eq_of_pairwise ?_ (hsorted l) (hsorted l') ?_
  · intro p q _ _ hpq hqp
    exact Prod.ext (le_antisymm hpq.1 hqp.1) (le_antisymm (hpq.2 hqp.1) (hqp.2 hpq.1))
  · apply List.Perm.map
    calc sort_by key' (sort_by key l)
      _ |>.Perm (sort_by key l) := sort_by_perm key' _
      _ |>.Perm l := sort_by_perm key l
      _ |>.Perm l' := h
      _ |>.Perm (sort_by key l') := (sort_by_perm key l').symm
      _ |>.Perm (sort_by key' (sort_by key l')) := (sort_by_perm key' _).symm

end yocto.stable_sort
