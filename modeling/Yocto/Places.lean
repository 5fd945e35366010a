-- Texts with places in them.
import Mathlib.Logic.Function.Basic
import Yocto.ListSearch

namespace yocto.places

open yocto.list_search

variable {α ι : Type} [DecidableEq α] [DecidableEq ι]

/-- The items, with the text of each place. -/
def fill (r : ι → List α) (s : List (α ⊕ ι)) : List α := s.flatMap (Sum.elim (fun c => [c]) r)

omit [DecidableEq α] [DecidableEq ι] in
@[simp] theorem fill_nil (r : ι → List α) : fill r [] = [] := rfl

omit [DecidableEq α] [DecidableEq ι] in
@[simp] theorem fill_item (r : ι → List α) (c : α) (s : List (α ⊕ ι)) :
    fill r (.inl c :: s) = c :: fill r s := rfl

omit [DecidableEq α] [DecidableEq ι] in
@[simp] theorem fill_place (r : ι → List α) (i : ι) (s : List (α ⊕ ι)) :
    fill r (.inr i :: s) = r i ++ fill r s := rfl

omit [DecidableEq α] [DecidableEq ι] in
@[simp] theorem fill_append (r : ι → List α) (s t : List (α ⊕ ι)) :
    fill r (s ++ t) = fill r s ++ fill r t := by
  simp [fill]

omit [DecidableEq α] [DecidableEq ι] in
@[simp] theorem fill_items (r : ι → List α) (p : List α) : fill r (p.map Sum.inl) = p := by
  induction p with
  | nil => rfl
  | cons c p ih => rw [List.map_cons, fill_item, ih]

/-! ## Marking a pattern -/

/-- Every occurrence of the pattern becomes the place. -/
def mark (p : List α) (i : ι) (s : List (α ⊕ ι)) : List (α ⊕ ι) :=
  if p = [] then s else replace (p.map Sum.inl) [.inr i] s

theorem mark_start {p : List α} (hp : p ≠ []) (i : ι) (s : List (α ⊕ ι)) :
    mark p i (p.map Sum.inl ++ s) = .inr i :: mark p i s := by
  unfold mark
  rw [if_neg hp, if_neg hp, replace_start (by simpa using hp), List.singleton_append]

theorem mark_cons {p : List α} {i : ι} {x : α ⊕ ι} {s : List (α ⊕ ι)}
    (h : ¬ p.map Sum.inl <+: x :: s) : mark p i (x :: s) = x :: mark p i s := by
  unfold mark
  split
  · rfl
  · rw [replace, replaceFrom, if_neg h]
    rfl

omit [DecidableEq α] [DecidableEq ι] in
theorem mark_induction {p : List α} (hp : p ≠ []) {motive : List (α ⊕ ι) → Prop} (nil : motive [])
    (start : ∀ s, motive s → motive (p.map Sum.inl ++ s))
    (cons : ∀ x s, ¬ p.map Sum.inl <+: x :: s → motive s → motive (x :: s)) (s : List (α ⊕ ι)) :
    motive s := by
  induction hn : s.length using Nat.strong_induction_on generalizing s with
  | _ n ih =>
    cases s with
    | nil => exact nil
    | cons x s =>
      by_cases h : p.map Sum.inl <+: x :: s
      · obtain ⟨t, ht⟩ := h
        rw [← ht]
        have hlen : 0 < p.length := List.length_pos_of_ne_nil hp
        have hsum : p.length + t.length = n := by
          rw [← hn, ← ht]
          simp
        exact start t (ih t.length (by omega) t rfl)
      · have hlt : s.length < n := by
          rw [← hn]
          exact Nat.lt_succ_self _
        exact cons x s h (ih s.length hlt s rfl)

theorem fill_mark {r : ι → List α} {p : List α} {i : ι} (hr : r i = p) (s : List (α ⊕ ι)) :
    fill r (mark p i s) = fill r s := by
  by_cases hp : p = []
  · rw [mark, if_pos hp]
  induction s using mark_induction hp with
  | nil => simp [mark, replace, replaceFrom]
  | start s ih => rw [mark_start hp, fill_place, ih, hr, fill_append, fill_items]
  | cons x s h ih =>
    rw [mark_cons h]
    cases x with
    | inl c => rw [fill_item, fill_item, ih]
    | inr j => rw [fill_place, fill_place, ih]

theorem place_mem_mark {p : List α} {i j : ι} (s : List (α ⊕ ι)) (hj : j ≠ i) :
    Sum.inr j ∈ mark p i s ↔ Sum.inr j ∈ s := by
  by_cases hp : p = []
  · rw [mark, if_pos hp]
  induction s using mark_induction hp with
  | nil => simp [mark, replace, replaceFrom]
  | start s ih => simp [mark_start hp, ih, hj]
  | cons x s h ih => rw [mark_cons h, List.mem_cons, List.mem_cons, ih]

theorem own_place_mem_mark {p : List α} {i : ι} (hp : p ≠ []) (s : List (α ⊕ ι)) :
    Sum.inr i ∈ mark p i s ↔ Sum.inr i ∈ s ∨ p.map Sum.inl <:+: s := by
  induction s using mark_induction hp with
  | nil => simp [mark, hp, replace, replaceFrom]
  | start s ih =>
    have hinfix : p.map Sum.inl <:+: p.map Sum.inl ++ s := (List.prefix_append _ s).isInfix
    simp [mark_start hp, hinfix]
  | cons x s h ih =>
    rw [mark_cons h, List.mem_cons, List.mem_cons, ih, List.infix_cons_iff, or_assoc]
    simp [h]

/-! ## Filling a place anew -/

/-- The text of the place is found at its places only: no occurrence starts at an item, or within
the text of another place. -/
def Found (r : ι → List α) (i : ι) : List (α ⊕ ι) → Prop
  | [] => True
  | .inl c :: s => ¬ r i <+: c :: fill r s ∧ Found r i s
  | .inr j :: s => (j ≠ i → ∀ k < (r j).length, ¬ r i <+: (r j).drop k ++ fill r s) ∧ Found r i s

instance (r : ι → List α) (i : ι) (s : List (α ⊕ ι)) : Decidable (Found r i s) := by
  induction s with
  | nil => exact .isTrue trivial
  | cons x s ih =>
    cases x <;> exact instDecidableAnd

theorem replace_fill {r : ι → List α} {i : ι} {s : List (α ⊕ ι)} (hne : r i ≠ [])
    (h : Found r i s) (new : List α) :
    replace (r i) new (fill r s) = fill (Function.update r i new) s := by
  induction s with
  | nil => rfl
  | cons x s ih =>
    cases x with
    | inl c =>
      rw [fill_item, fill_item, ← ih h.2, replace, replaceFrom, if_neg h.1]
      rfl
    | inr j =>
      rw [fill_place, fill_place, ← ih h.2]
      by_cases hj : j = i
      · subst hj
        rw [Function.update_self, replace_start hne]
      · rw [Function.update_of_ne hj, replace_append_of_no_start _ (h.1 hj)]

/-- What the places hold after some of them are filled anew, in turn. -/
def refilled (r : ι → List α) (steps : List (ι × List α)) : ι → List α :=
  steps.foldl (fun r x => Function.update r x.1 x.2) r

/-- The replacements that fill the places: the text that a place holds by then, and the new one. -/
def replacements (r : ι → List α) : List (ι × List α) → List (List α × List α)
  | [] => []
  | (i, new) :: steps => (r i, new) :: replacements (Function.update r i new) steps

/-- Each place holds something when its turn comes, and that is found at its places only. -/
def Undisturbed (r : ι → List α) (s : List (α ⊕ ι)) : List (ι × List α) → Prop
  | [] => True
  | (i, new) :: steps => r i ≠ [] ∧ Found r i s ∧ Undisturbed (Function.update r i new) s steps

instance (r : ι → List α) (s : List (α ⊕ ι)) (steps : List (ι × List α)) :
    Decidable (Undisturbed r s steps) := by
  induction steps generalizing r with
  | nil => exact .isTrue trivial
  | cons x steps ih =>
    have := ih (Function.update r x.1 x.2)
    exact instDecidableAnd

theorem replacements_fill {r : ι → List α} {s : List (α ⊕ ι)} {steps : List (ι × List α)}
    (h : Undisturbed r s steps) :
    (replacements r steps).foldl (fun t x => replace x.1 x.2 t) (fill r s) =
      fill (refilled r steps) s := by
  induction steps generalizing r with
  | nil => rfl
  | cons x steps ih =>
    obtain ⟨hne, hfound, hrest⟩ := h
    rw [replacements, List.foldl_cons, replace_fill hne hfound, ih hrest]
    rfl

omit [DecidableEq α] in
theorem replacements_append (r : ι → List α) (steps more : List (ι × List α)) :
    replacements r (steps ++ more) =
      replacements r steps ++ replacements (refilled r steps) more := by
  induction steps generalizing r with
  | nil => rfl
  | cons x steps ih =>
    rw [List.cons_append, replacements, replacements, ih]
    rfl

omit [DecidableEq α] in
theorem refilled_append (r : ι → List α) (steps more : List (ι × List α)) :
    refilled r (steps ++ more) = refilled (refilled r steps) more := by
  unfold refilled
  rw [List.foldl_append]

/-! ## What a place holds makes a difference -/

omit [DecidableEq α] [DecidableEq ι] in
theorem length_fill_le {r r' : ι → List α} (h : ∀ j, (r j).length ≤ (r' j).length)
    (s : List (α ⊕ ι)) : (fill r s).length ≤ (fill r' s).length := by
  induction s with
  | nil => exact Nat.le_refl _
  | cons x s ih =>
    cases x with
    | inl c => simpa using ih
    | inr j =>
      rw [fill_place, fill_place, List.length_append, List.length_append]
      exact Nat.add_le_add (h j) ih

omit [DecidableEq α] in
theorem length_update_le {r : ι → List α} {i : ι} {t t' : List α} (h : t.length ≤ t'.length) (j : ι) :
    (Function.update r i t j).length ≤ (Function.update r i t' j).length := by
  by_cases hj : j = i
  · subst hj
    simpa using h
  · simp [hj]

omit [DecidableEq α] in
theorem fill_update_eq_iff (r : ι → List α) (i : ι) (t t' : List α) (s : List (α ⊕ ι)) :
    fill (Function.update r i t) s = fill (Function.update r i t') s ↔ Sum.inr i ∉ s ∨ t = t' := by
  constructor
  · intro h
    by_contra hnot
    rw [not_or, not_not] at hnot
    obtain ⟨hmem, hne⟩ := hnot
    apply hne
    induction s with
    | nil => cases hmem
    | cons x s ih =>
      cases x with
      | inl c => exact ih (List.cons.inj h).2 (by simpa using hmem)
      | inr j =>
        rw [fill_place, fill_place] at h
        by_cases hj : j = i
        · subst hj
          rw [Function.update_self, Function.update_self] at h
          have hlen := congrArg List.length h
          rw [List.length_append, List.length_append] at hlen
          refine (List.append_inj h ?_).1
          -- a longer text at each of the places would give a longer text
          rcases Nat.le_total t.length t'.length with hle | hle
          · have := length_fill_le (length_update_le (r := r) (i := j) hle) s
            omega
          · have := length_fill_le (length_update_le (r := r) (i := j) hle) s
            omega
        · rw [Function.update_of_ne hj, Function.update_of_ne hj] at h
          refine ih (List.append_cancel_left h) ?_
          simpa [Ne.symm hj] using hmem
  · rintro (hnot | rfl)
    · induction s with
      | nil => rfl
      | cons x s ih =>
        rw [List.mem_cons, not_or] at hnot
        cases x with
        | inl c => rw [fill_item, fill_item, ih hnot.2]
        | inr j =>
          have hj : j ≠ i := fun hj => hnot.1 (by rw [hj])
          rw [fill_place, fill_place, ih hnot.2, Function.update_of_ne hj, Function.update_of_ne hj]
    · rfl

end yocto.places
