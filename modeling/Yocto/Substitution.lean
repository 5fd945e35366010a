-- All names in a text are replaced at once.
import Yocto.StableSort
import Mathlib.Tactic

open yocto.stable_sort

namespace yocto.substitution

variable {C : Type}

/-- The names with the longest ones first: `sorted(names, key=len, reverse=True)`. -/
def longest_first (names : List (List C)) : List (List C) := sort_by (fun n => OrderDual.toDual n.length) names

theorem mem_longest_first {names : List (List C)} {n : List C} : n ∈ longest_first names ↔ n ∈ names :=
  (sort_by_perm _ names).mem_iff

theorem longest_first_pairwise (names : List (List C)) :
    (longest_first names).Pairwise fun a b => b.length ≤ a.length := by
  have hany : names.Pairwise fun _ _ => True := List.pairwise_of_forall fun _ _ => trivial
  exact (sort_by_stable (fun n : List C => OrderDual.toDual n.length) hany).imp fun hab => hab.1

theorem length_le_of_find? {l : List (List C)} (hl : l.Pairwise fun a b => b.length ≤ a.length)
    {p : List C → Bool} {n m : List C} (hn : l.find? p = some n) (hm : m ∈ l) (hp : p m = true) :
    m.length ≤ n.length := by
  induction l with
  | nil => cases hm
  | cons a l ih =>
    rw [List.pairwise_cons] at hl
    rw [List.find?_cons] at hn
    cases ha : p a with
    | true =>
      rw [ha] at hn
      obtain rfl := Option.some.inj hn
      rcases List.mem_cons.mp hm with rfl | hm
      · exact le_refl _
      · exact hl.1 m hm
    | false =>
      rw [ha] at hn
      rcases List.mem_cons.mp hm with rfl | hm
      · rw [ha] at hp
        cases hp
      · exact ih hl.2 hn hm

variable [DecidableEq C]

/-- An empty name is found where no other name starts, and at the end. -/
def gap (names : List (List C)) (value : List C → List C) : List C := if [] ∈ names then value [] else []

/-- The text with the names replaced. -/
inductive Replaced (names : List (List C)) (value : List C → List C) : List C → List C → Prop
  | stop : Replaced names value [] (gap names value)
  | name {n s r : List C} (hn : n ∈ names) (hne : n ≠ [])
      (hlongest : ∀ m ∈ names, m <+: n ++ s → m.length ≤ n.length) (hrest : Replaced names value s r) :
      Replaced names value (n ++ s) (value n ++ r)
  | item {c : C} {s r : List C} (hnone : ∀ m ∈ names, m ≠ [] → ¬ m <+: c :: s)
      (hrest : Replaced names value s r) : Replaced names value (c :: s) (gap names value ++ c :: r)

/-- `re.sub` for the names as alternatives, of which the first one that matches is taken. -/
def sub (names : List (List C)) (value : List C → List C) : ℕ → List C → List C
  | _ + 1, [] => []
  | k + 1, _ :: s => sub names value k s
  | 0, [] => ((names.find? (· <+: [])).map value).getD []
  | 0, c :: s =>
    match names.find? (· <+: c :: s) with
    | some (x :: n) => value (x :: n) ++ sub names value n.length s
    | some [] => value [] ++ c :: sub names value 0 s
    | none => c :: sub names value 0 s

variable {names : List (List C)} {value : List C → List C} {c : C} {n s r : List C}

theorem sub_skip (names : List (List C)) (value : List C → List C) (n s : List C) :
    sub names value n.length (n ++ s) = sub names value 0 s := by
  induction n with
  | nil => rfl
  | cons c n ih => exact ih

theorem sub_name {x : C} (h : names.find? (· <+: x :: n ++ s) = some (x :: n)) :
    sub names value 0 (x :: n ++ s) = value (x :: n) ++ sub names value 0 s := by
  rw [List.cons_append] at h ⊢
  conv_lhs => unfold sub
  simp only [h]
  rw [sub_skip]

theorem sub_item (h : ∀ m ∈ names, m ≠ [] → ¬ m <+: c :: s) :
    sub names value 0 (c :: s) = gap names value ++ c :: sub names value 0 s := by
  have hfind : names.find? (· <+: c :: s) = if [] ∈ names then some [] else none := by
    cases hfind : names.find? (· <+: c :: s) with
    | none =>
      rw [if_neg]
      intro hmem
      exact List.find?_eq_none.mp hfind [] hmem (by simp)
    | some m =>
      have hmem := List.mem_of_find?_eq_some hfind
      obtain rfl : m = [] := by
        by_contra hne
        exact h m hmem hne (by simpa using List.find?_some hfind)
      rw [if_pos hmem]
  conv_lhs => unfold sub
  unfold gap
  rw [hfind]
  by_cases hmem : [] ∈ names <;> simp [hmem]

theorem sub_stop (names : List (List C)) (value : List C → List C) : sub names value 0 [] = gap names value := by
  unfold sub gap
  by_cases hmem : [] ∈ names
  · have hfind : (names.find? (· <+: [])).isSome := List.find?_isSome.mpr ⟨[], hmem, by simp⟩
    obtain ⟨m, hm⟩ := Option.isSome_iff_exists.mp hfind
    obtain rfl : m = [] := by simpa using List.find?_some hm
    rw [hm, if_pos hmem]
    rfl
  · have hfind : names.find? (· <+: []) = none := by
      apply List.find?_eq_none.mpr
      intro m hm hprefix
      obtain rfl : m = [] := by simpa using hprefix
      exact hmem hm
    rw [hfind, if_neg hmem]
    rfl

theorem gap_longest_first (names : List (List C)) (value : List C → List C) :
    gap (longest_first names) value = gap names value := by
  unfold gap
  simp only [mem_longest_first]

theorem replaced_sub (names : List (List C)) (value : List C → List C) (s : List C) :
    Replaced names value s (sub (longest_first names) value 0 s) := by
  induction hlength : s.length using Nat.strong_induction_on generalizing s with
  | _ length ih =>
    subst hlength
    cases s with
    | nil =>
      rw [sub_stop, gap_longest_first]
      exact .stop
    | cons c s =>
      by_cases hfound : ∃ m ∈ names, m ≠ [] ∧ m <+: c :: s
      · obtain ⟨m, hm, hne, hprefix⟩ := hfound
        have hfind : ((longest_first names).find? (· <+: c :: s)).isSome :=
          List.find?_isSome.mpr ⟨m, mem_longest_first.mpr hm, by simpa using hprefix⟩
        obtain ⟨n, hn⟩ := Option.isSome_iff_exists.mp hfind
        have hlongest : ∀ m ∈ names, m <+: c :: s → m.length ≤ n.length := by
          intro m hm hprefix
          exact length_le_of_find? (longest_first_pairwise names) hn (mem_longest_first.mpr hm)
            (by simpa using hprefix)
        have hmem := mem_longest_first.mp (List.mem_of_find?_eq_some hn)
        obtain ⟨t, ht⟩ : n <+: c :: s := by simpa using List.find?_some hn
        cases n with
        | nil =>
          have hnil := hlongest m hm hprefix
          exact absurd (List.eq_nil_of_length_eq_zero (Nat.le_zero.mp hnil)) hne
        | cons x n =>
          have hless : t.length < (c :: s).length := by
            rw [← ht]
            simp
          rw [← ht] at hn hlongest ⊢
          rw [sub_name hn]
          exact .name hmem (List.cons_ne_nil x n) hlongest (ih t.length hless t rfl)
      · have hnone : ∀ m ∈ names, m ≠ [] → ¬ m <+: c :: s := by
          intro m hm hne hprefix
          exact hfound ⟨m, hm, hne, hprefix⟩
        rw [sub_item fun m hm => hnone m (mem_longest_first.mp hm), gap_longest_first]
        exact .item hnone (ih s.length (by simp) s rfl)

theorem Replaced.congr {names' : List (List C)} {value' : List C → List C} (h : Replaced names value s r)
    (hnames : ∀ n, n ∈ names ↔ n ∈ names') (hvalue : ∀ n ∈ names, value n = value' n) :
    Replaced names' value' s r := by
  have hgap : gap names value = gap names' value' := by
    unfold gap
    by_cases hmem : [] ∈ names
    · rw [if_pos hmem, if_pos ((hnames []).mp hmem), hvalue [] hmem]
    · rw [if_neg hmem, if_neg fun h => hmem ((hnames []).mpr h)]
  induction h with
  | stop =>
    rw [hgap]
    exact .stop
  | name hn hne hlongest _ ih =>
    rw [hvalue _ hn]
    exact .name ((hnames _).mp hn) hne (fun m hm => hlongest m ((hnames m).mpr hm)) ih
  | item hnone _ ih =>
    rw [hgap]
    exact .item (fun m hm => hnone m ((hnames m).mpr hm)) ih

end yocto.substitution
