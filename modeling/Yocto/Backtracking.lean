-- Regular expressions that are matched with backtracking. A part of an expression gives all
-- its matches with what is left, in the order in which they are tried.
import Mathlib.Data.List.Basic

namespace yocto.backtracking

variable {C α : Type}

/-- A class of characters and a star: the longest match comes first. -/
def greedy (p : C → Bool) : List C → List (List C × List C)
  | [] => [([], [])]
  | c :: s => (if p c then (greedy p s).map fun x => (c :: x.1, x.2) else []) ++ [([], c :: s)]

/-- A class of characters and a plus. -/
def greedy1 (p : C → Bool) : List C → List (List C × List C)
  | [] => []
  | c :: s => if p c then (greedy p s).map fun x => (c :: x.1, x.2) else []

/-- A text as it is, of which only what is left is given. -/
def literal [DecidableEq C] (l s : List C) : List (List C) := if l <+: s then [s.drop l.length] else []

/-- A class of characters and a star, up to a text that is looked for and stays. -/
def greedy_before [DecidableEq C] (p : C → Bool) (ahead s : List C) : List (List C × List C) :=
  (greedy p s).filter fun x => ahead <+: x.2

/-- A group and a question mark: without the group comes last. -/
def at_most_one (group : List C → List (α × List C)) (s : List C) : List (Option α × List C) :=
  ((group s).map fun x => (some x.1, x.2)) ++ [(none, s)]

/-! ## Matches -/

variable {p : C → Bool} {s : List C}

theorem greedy_cons (c : C) (s : List C) :
    greedy p (c :: s) = (if p c then (greedy p s).map fun x => (c :: x.1, x.2) else []) ++ [([], c :: s)] :=
  rfl

theorem greedy1_cons (c : C) (s : List C) :
    greedy1 p (c :: s) = if p c then (greedy p s).map fun x => (c :: x.1, x.2) else [] :=
  rfl

theorem mem_greedy {x : List C × List C} (hx : x ∈ greedy p s) : s = x.1 ++ x.2 ∧ ∀ c ∈ x.1, p c = true := by
  induction s generalizing x with
  | nil =>
    obtain rfl := List.mem_singleton.mp hx
    simp
  | cons c s ih =>
    rcases List.mem_append.mp hx with hx | hx
    · split at hx
      · rename_i hc
        obtain ⟨y, hy, rfl⟩ := List.mem_map.mp hx
        obtain ⟨hs, hall⟩ := ih hy
        refine ⟨by simp [← hs], ?_⟩
        rw [List.forall_mem_cons]
        exact ⟨hc, hall⟩
      · cases hx
    · obtain rfl := List.mem_singleton.mp hx
      simp

theorem mem_greedy1 {x : List C × List C} (hx : x ∈ greedy1 p s) : x ∈ greedy p s ∧ x.1 ≠ [] := by
  cases s with
  | nil => cases hx
  | cons c s =>
    rw [greedy_cons]
    rw [greedy1_cons] at hx
    split at hx
    · rename_i hc
      obtain ⟨y, hy, rfl⟩ := List.mem_map.mp hx
      refine ⟨List.mem_append_left _ ?_, by simp⟩
      rw [if_pos hc]
      exact List.mem_map_of_mem hy
    · cases hx

theorem nil_mem_greedy (p : C → Bool) (s : List C) : ([], s) ∈ greedy p s := by
  cases s with
  | nil => exact List.mem_singleton_self _
  | cons c s => exact List.mem_append_right _ (List.mem_singleton_self _)

theorem greedy_append {a : List C} (ha : ∀ c ∈ a, p c = true) (s : List C) :
    ∃ shorter, greedy p (a ++ s) = ((greedy p s).map fun x => (a ++ x.1, x.2)) ++ shorter := by
  induction a with
  | nil => exact ⟨[], by simp⟩
  | cons c a ih =>
    rw [List.forall_mem_cons] at ha
    obtain ⟨shorter, hshorter⟩ := ih ha.2
    refine ⟨(shorter.map fun x => (c :: x.1, x.2)) ++ [([], c :: (a ++ s))], ?_⟩
    rw [List.cons_append, greedy_cons, if_pos ha.1, hshorter]
    simp [Function.comp_def]

theorem greedy_stop (hs : ∀ c ∈ s.head?, p c = false) : greedy p s = [([], s)] := by
  cases s with
  | nil => rfl
  | cons c s =>
    rw [greedy_cons, if_neg (by simp [hs c rfl])]
    rfl

theorem greedy_first {a : List C} (ha : ∀ c ∈ a, p c = true) (hs : ∀ c ∈ s.head?, p c = false) :
    ∃ more, greedy p (a ++ s) = (a, s) :: more := by
  obtain ⟨shorter, hshorter⟩ := greedy_append ha s
  rw [greedy_stop hs] at hshorter
  exact ⟨shorter, by simpa using hshorter⟩

theorem greedy1_first {a : List C} (hne : a ≠ []) (ha : ∀ c ∈ a, p c = true) (hs : ∀ c ∈ s.head?, p c = false) :
    ∃ more, greedy1 p (a ++ s) = (a, s) :: more := by
  cases a with
  | nil => exact absurd rfl hne
  | cons c a =>
    rw [List.forall_mem_cons] at ha
    obtain ⟨more, hmore⟩ := greedy_first ha.2 hs
    refine ⟨more.map fun x => (c :: x.1, x.2), ?_⟩
    rw [List.cons_append, greedy1_cons, if_pos ha.1, hmore]
    rfl

theorem greedy_before_none [DecidableEq C] {ahead : List C} (h : ¬ahead <:+: s) : greedy_before p ahead s = [] := by
  apply List.filter_eq_nil_iff.mpr
  intro x hx hprefix
  apply h
  rw [(mem_greedy hx).1]
  exact (of_decide_eq_true hprefix).isInfix.trans (List.suffix_append _ _).isInfix

theorem mem_greedy_before [DecidableEq C] {ahead : List C} {x : List C × List C} (hx : x ∈ greedy_before p ahead s) :
    s = x.1 ++ x.2 :=
  (mem_greedy (List.mem_filter.mp hx).1).1

theorem greedy_before_first [DecidableEq C] {ahead a b : List C} (hne : ahead ≠ []) (ha : ∀ c ∈ a, p c = true)
    (hlast : ¬ahead <:+: (ahead ++ b).tail) :
    ∃ more, greedy_before p ahead (a ++ (ahead ++ b)) = (a, ahead ++ b) :: more := by
  obtain ⟨c, t, ht⟩ := List.exists_cons_of_ne_nil (List.append_ne_nil_of_left_ne_nil hne b)
  obtain ⟨shorter, hshorter⟩ := greedy_append ha (ahead ++ b)
  -- Of the matches from the last place on, only the empty one ends there.
  have hstart : (greedy p (ahead ++ b)).filter (fun x => ahead <+: x.2) = [([], ahead ++ b)] := by
    rw [ht, List.tail_cons] at hlast
    have hlater : greedy_before p ahead t = [] := greedy_before_none hlast
    have hbegins : ahead <+: c :: t := ht ▸ List.prefix_append ahead b
    rw [ht, greedy_cons, List.filter_append]
    split
    · rw [List.filter_map, Function.comp_def]
      unfold greedy_before at hlater
      simp [hlater, hbegins]
    · simp [hbegins]
  refine ⟨shorter.filter fun x => ahead <+: x.2, ?_⟩
  unfold greedy_before
  rw [hshorter, List.filter_append, List.filter_map, Function.comp_def]
  simp only [hstart, List.map_cons, List.map_nil, List.append_nil, List.singleton_append]

theorem exists_last {ahead : List C} (hne : ahead ≠ []) (h : ahead <:+: s) :
    ∃ a b, s = a ++ (ahead ++ b) ∧ ¬ahead <:+: (ahead ++ b).tail := by
  induction s with
  | nil => exact absurd (List.eq_nil_of_infix_nil h) hne
  | cons c s ih =>
    by_cases hlater : ahead <:+: s
    · obtain ⟨a, b, hs, hlast⟩ := ih hlater
      exact ⟨c :: a, b, by rw [hs, List.cons_append], hlast⟩
    · rcases List.infix_cons_iff.mp h with hprefix | hinfix
      · obtain ⟨b, hb⟩ := hprefix
        exact ⟨[], b, hb.symm, by rwa [hb, List.tail_cons]⟩
      · exact absurd hinfix hlater

theorem literal_append [DecidableEq C] (l s : List C) : literal l (l ++ s) = [s] := by
  unfold literal
  rw [if_pos (List.prefix_append l s), List.drop_left]

theorem mem_literal [DecidableEq C] {l s rest : List C} (h : rest ∈ literal l s) : s = l ++ rest := by
  unfold literal at h
  split at h
  · rename_i hprefix
    obtain ⟨t, rfl⟩ := hprefix
    rw [List.drop_left] at h
    rw [List.mem_singleton.mp h]
  · cases h

theorem literal_ne [DecidableEq C] {l s : List C} (h : ¬l <+: s) : literal l s = [] := if_neg h

theorem at_most_one_first {group : List C → List (α × List C)} {x : α × List C} {more : List (α × List C)}
    (h : group s = x :: more) :
    at_most_one group s = (some x.1, x.2) :: ((more.map fun x => (some x.1, x.2)) ++ [(none, s)]) := by
  unfold at_most_one
  rw [h]
  rfl

theorem at_most_one_none {group : List C → List (α × List C)} (h : group s = []) :
    at_most_one group s = [(none, s)] := by
  unfold at_most_one
  rw [h]
  rfl

theorem first_of_cons {M : Type} {l : List α} {x : α} {more : List α} (hl : l = x :: more) {k : α → List M} {m : M}
    (hk : (k x).head? = some m) : (l.flatMap k).head? = some m := by
  rw [hl, List.flatMap_cons, List.head?_append, hk]
  rfl

end yocto.backtracking
