-- The value of a variable that holds a list, after entries that set it and entries that
-- append to it. What comes before the last entry that sets it has no effect.
import Mathlib.Data.List.Count

namespace yocto.assigned_lists

inductive Op
  | assign
  | append
  deriving DecidableEq

section
variable {α β : Type*}

def value_turn (value : List α) : Op × List α → List α
  | (.assign, l) => l
  | (.append, l) => value ++ l

def evaluate (entries : List (Op × List α)) : List α := entries.foldl value_turn []

def effective_turn (lists : List (List α)) : Op × List α → List (List α)
  | (.assign, l) => [l]
  | (.append, l) => lists ++ [l]

def effective (entries : List (Op × List α)) : List (List α) := entries.foldl effective_turn []

theorem flatten_effective_turn (lists : List (List α)) (e : Op × List α) :
    (effective_turn lists e).flatten = value_turn lists.flatten e := by
  obtain ⟨_ | _, l⟩ := e <;> simp [effective_turn, value_turn]

theorem evaluate_eq (entries : List (Op × List α)) : evaluate entries = (effective entries).flatten := by
  suffices h : ∀ lists : List (List α),
      entries.foldl value_turn lists.flatten = (entries.foldl effective_turn lists).flatten from h []
  induction entries with
  | nil => exact fun _ => rfl
  | cons e entries ih =>
    intro lists
    rw [List.foldl_cons, List.foldl_cons, ← flatten_effective_turn, ih]

theorem effective_map (f : List α → List β) (entries : List (Op × List α)) :
    effective (entries.map (Prod.map id f)) = (effective entries).map f := by
  suffices h : ∀ lists : List (List α), (entries.map (Prod.map id f)).foldl effective_turn (lists.map f) =
      (entries.foldl effective_turn lists).map f from h []
  induction entries with
  | nil => exact fun _ => rfl
  | cons e entries ih =>
    intro lists
    rw [List.map_cons, List.foldl_cons, List.foldl_cons, ← ih]
    obtain ⟨_ | _, l⟩ := e <;> simp [effective_turn]

theorem mem_evaluate {entries : List (Op × List α)} {x : α} :
    x ∈ evaluate entries ↔ ∃ l ∈ effective entries, x ∈ l := by
  rw [evaluate_eq, List.mem_flatten]

def Sets (entries : List (Op × List α)) : Prop := ∃ e ∈ entries, e.1 = .assign

theorem foldl_of_sets {entries : List (Op × List α)} (h : Sets entries) (lists : List (List α)) :
    entries.foldl effective_turn lists = effective entries := by
  induction entries generalizing lists with
  | nil => simp [Sets] at h
  | cons e entries ih =>
    unfold effective
    rw [List.foldl_cons, List.foldl_cons]
    obtain ⟨op, l⟩ := e
    cases op with
    | assign => rfl
    | append =>
      have hrest : Sets entries := by simpa [Sets] using h
      rw [ih hrest, ih hrest]

theorem foldl_of_not_sets {entries : List (Op × List α)} (h : ¬Sets entries) (lists : List (List α)) :
    entries.foldl effective_turn lists = lists ++ entries.map Prod.snd := by
  induction entries generalizing lists with
  | nil => simp
  | cons e entries ih =>
    obtain ⟨op, l⟩ := e
    cases op with
    | assign => simp [Sets] at h
    | append =>
      have hrest : ¬Sets entries := by simpa [Sets] using h
      rw [List.foldl_cons, ih hrest]
      simp [effective_turn]

theorem effective_cons_of_sets {entries : List (Op × List α)} (h : Sets entries) (e : Op × List α) :
    effective (e :: entries) = effective entries :=
  foldl_of_sets h _

theorem effective_cons_of_not_sets {entries : List (Op × List α)} (h : ¬Sets entries) (e : Op × List α) :
    effective (e :: entries) = e.2 :: entries.map Prod.snd := by
  unfold effective
  rw [List.foldl_cons, foldl_of_not_sets h]
  obtain ⟨_ | _, l⟩ := e <;> rfl

theorem exists_of_mem_effective {entries : List (Op × List α)} {l : List α} (h : l ∈ effective entries) :
    ∃ e ∈ entries, e.2 = l := by
  induction entries with
  | nil => cases h
  | cons e entries ih =>
    by_cases hsets : Sets entries
    · rw [effective_cons_of_sets hsets] at h
      obtain ⟨e', he', heq⟩ := ih h
      exact ⟨e', List.mem_cons_of_mem _ he', heq⟩
    · rw [effective_cons_of_not_sets hsets, ← List.map_cons (f := Prod.snd)] at h
      exact List.mem_map.mp h

theorem evaluate_map (f : α → β) (entries : List (Op × List α)) :
    evaluate (entries.map (Prod.map id (List.map f))) = (evaluate entries).map f := by
  rw [evaluate_eq, effective_map, evaluate_eq, List.map_flatten]

theorem foldl_append_each (items value : List α) :
    (items.map fun x => (Op.append, [x])).foldl value_turn value = value ++ items := by
  induction items generalizing value with
  | nil => simp
  | cons x items ih =>
    rw [List.map_cons, List.foldl_cons, ih]
    simp [value_turn]

/-! ## Items that are put in -/

/-- All of the items are there, and nothing but them stands between the others. -/
structure Placed (items base new : List α) : Prop where
  split : ∃ before extra behind, base = before ++ behind ∧ new = before ++ extra ++ behind ∧ ∀ x ∈ extra, x ∈ items
  all : ∀ x ∈ items, x ∈ new

theorem Placed.mem {items base new : List α} (h : Placed items base new) {x : α} (hx : x ∈ base) : x ∈ new := by
  obtain ⟨before, extra, behind, rfl, rfl, -⟩ := h.split
  rw [List.mem_append] at hx
  simp only [List.mem_append]
  exact hx.imp_left .inl

theorem Placed.of_mem {items base new : List α} (h : Placed items base new) {x : α} (hx : x ∈ new) :
    x ∈ base ∨ x ∈ items := by
  obtain ⟨before, extra, behind, rfl, rfl, hextra⟩ := h.split
  simp only [List.mem_append] at hx ⊢
  rcases hx with (hx | hx) | hx
  · exact .inl (.inl hx)
  · exact .inr (hextra x hx)
  · exact .inl (.inr hx)

theorem Placed.filter {items base new : List α} (h : Placed items base new) {p : α → Bool}
    (hp : ∀ x ∈ items, p x = false) : new.filter p = base.filter p := by
  obtain ⟨before, extra, behind, rfl, rfl, hextra⟩ := h.split
  have hnone : extra.filter p = [] := by
    rw [List.filter_eq_nil_iff]
    intro x hx
    simp [hp x (hextra x hx)]
  simp [hnone]

theorem placed_at_end (items : List α) (entries : List (Op × List α)) :
    Placed items (evaluate entries) (evaluate (entries ++ items.map fun x => (.append, [x]))) := by
  have hend : evaluate (entries ++ items.map fun x => (Op.append, [x])) = evaluate entries ++ items := by
    unfold evaluate
    rw [List.foldl_append, foldl_append_each]
  rw [hend]
  exact ⟨⟨evaluate entries, items, [], by simp, by simp, fun _ h => h⟩, fun x hx => List.mem_append_right _ hx⟩

theorem placed_in_first {items l extra : List α} (op : Op) {entries : List (Op × List α)}
    (hextra : ∀ x ∈ extra, x ∈ items) (hall : ∀ x ∈ items, x ∈ l ++ extra) (hroom : items = [] ∨ ¬Sets entries) :
    Placed items (evaluate ((op, l) :: entries)) (evaluate ((op, l ++ extra) :: entries)) := by
  rw [evaluate_eq, evaluate_eq]
  by_cases hsets : Sets entries
  · obtain rfl := hroom.resolve_right (not_not_intro hsets)
    rw [effective_cons_of_sets hsets, effective_cons_of_sets hsets]
    exact ⟨⟨(effective entries).flatten, [], [], by simp, by simp, by simp⟩, by simp⟩
  · rw [effective_cons_of_not_sets hsets, effective_cons_of_not_sets hsets, List.flatten_cons, List.flatten_cons]
    exact ⟨⟨l, extra, _, rfl, rfl, hextra⟩, fun x hx => List.mem_append_left _ (hall x hx)⟩

end

/-! ## Lists with some items taken out -/

section
variable {α : Type*} [BEq α]

/-- Each item of `out` is taken out once of each list. -/
def without (out : List α) (entries : List (Op × List α)) : List (Op × List α) :=
  entries.map (Prod.map id (·.diff out))

theorem sets_without {out : List α} {entries : List (Op × List α)} : Sets (without out entries) ↔ Sets entries := by
  simp [Sets, without]

variable [LawfulBEq α]

theorem filter_diff {p : α → Bool} {out : List α} (h : ∀ x ∈ out, p x = false) (l : List α) :
    (l.diff out).filter p = l.filter p := by
  induction out generalizing l with
  | nil => simp
  | cons x out ih =>
    rw [List.forall_mem_cons] at h
    rw [List.diff_cons, ih h.2]
    induction l with
    | nil => rfl
    | cons y l ihl =>
      by_cases hy : y = x
      · simp [hy, h.1]
      · rw [List.erase_cons_tail (by simpa using hy), List.filter_cons, List.filter_cons, ihl]

theorem mem_diff_iff {out l : List α} {x : α} : x ∈ l.diff out ↔ out.count x < l.count x := by
  rw [← List.count_pos_iff, List.count_diff]
  omega

theorem filter_evaluate_without {p : α → Bool} {out : List α} (h : ∀ x ∈ out, p x = false)
    (entries : List (Op × List α)) :
    (evaluate (without out entries)).filter p = (evaluate entries).filter p := by
  rw [evaluate_eq, evaluate_eq, without, effective_map, List.filter_flatten, List.filter_flatten, List.map_map]
  congr 1
  exact List.map_congr_left fun l _ => filter_diff h l

theorem mem_evaluate_without {out : List α} {entries : List (Op × List α)} {x : α} :
    x ∈ evaluate (without out entries) ↔ ∃ l ∈ effective entries, out.count x < l.count x := by
  rw [evaluate_eq, without, effective_map, List.mem_flatten]
  simp [mem_diff_iff]

end

end yocto.assigned_lists
