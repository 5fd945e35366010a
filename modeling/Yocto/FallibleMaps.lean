-- Maps over a list that may fail. Such a map gives a list exactly where it fails for no item,
-- and then what is told by the values is the same in lists with the same values.
import Mathlib.Tactic

namespace yocto.fallible_maps

variable {α β γ : Type} {f : α → Option β}

theorem mapM_congr {f' : α → Option β} {l : List α} (h : ∀ x ∈ l, f x = f' x) : l.mapM f = l.mapM f' := by
  induction l with
  | nil => rfl
  | cons x l ih =>
    rw [List.forall_mem_cons] at h
    rw [List.mapM_cons, List.mapM_cons, h.1, ih h.2]

theorem mapM_eq_some {l : List α} {a : List β} :
    l.mapM f = some a ↔ (∀ x ∈ l, (f x).isSome) ∧ l.filterMap f = a := by
  induction l generalizing a with
  | nil => simp
  | cons x l ih =>
    rw [List.mapM_cons, List.forall_mem_cons]
    cases hx : f x with
    | none => simp
    | some y =>
      rw [List.filterMap_cons_some hx]
      cases hl : l.mapM f with
      | none =>
        have hnone : ¬ ∀ z ∈ l, (f z).isSome = true := fun hsome => by simp [ih.mpr ⟨hsome, rfl⟩] at hl
        simp [hnone]
      | some b =>
        obtain ⟨hsome, rfl⟩ := ih.mp hl
        simpa using fun _ => hsome

theorem map_perm_of_filterMap_perm [Nonempty γ] {g : α → γ} {l l' : List α}
    (hl : ∀ x ∈ l, (f x).isSome) (hl' : ∀ x ∈ l', (f x).isSome)
    (htold : ∀ x y t, f x = some t → f y = some t → g x = g y)
    (hperm : (l.filterMap f).Perm (l'.filterMap f)) : (l.map g).Perm (l'.map g) := by
  classical
  let read : β → γ := fun t => if h : ∃ x, f x = some t then g h.choose else Classical.arbitrary γ
  have hread : ∀ {m : List α}, (∀ x ∈ m, (f x).isSome) → (m.filterMap f).map read = m.map g := by
    intro m hm
    rw [List.map_filterMap, ← List.filterMap_eq_map]
    apply List.filterMap_congr
    intro x hx
    obtain ⟨t, ht⟩ := Option.isSome_iff_exists.mp (hm x hx)
    have hex : ∃ x, f x = some t := ⟨x, ht⟩
    have hvalue : read t = g hex.choose := dif_pos hex
    rw [ht, Option.map_some, hvalue]
    exact congrArg some (htold _ _ t hex.choose_spec ht)
  rw [← hread hl, ← hread hl']
  exact hperm.map read

theorem mapM_flatMap (f : β → Option γ) (r : α → List β) (l : List α) :
    (l.mapM fun x => (r x).mapM f).map List.flatten = (l.flatMap r).mapM f := by
  induction l with
  | nil => rfl
  | cons x l ih =>
    rw [List.mapM_cons, List.flatMap_cons, List.mapM_append, ← ih]
    cases (r x).mapM f with
    | none => rfl
    | some a => cases l.mapM fun x => (r x).mapM f <;> rfl

theorem exists_of_mapM {l : List α} {a : List β} (h : l.mapM f = some a) : ∀ x ∈ l, ∃ y ∈ a, f x = some y := by
  obtain ⟨hsome, rfl⟩ := mapM_eq_some.mp h
  intro x hx
  obtain ⟨y, hy⟩ := Option.isSome_iff_exists.mp (hsome x hx)
  exact ⟨y, List.mem_filterMap.mpr ⟨x, hx, hy⟩, hy⟩

end yocto.fallible_maps
