-- Dicts that keep the order in which their keys came, as those of Python do: a
-- list of pairs, in which a key that is set again stays at its place.
import Mathlib.Data.List.Basic
import Mathlib.Tactic

namespace yocto.ordered_dict

variable {K V : Type} [DecidableEq K]

abbrev OrderedDict (K V : Type) := List (K × V)

namespace OrderedDict

def set (d : OrderedDict K V) (key : K) (value : V) : OrderedDict K V :=
  if key ∈ d.map Prod.fst then d.map fun x => if x.1 = key then (key, value) else x
  else d ++ [(key, value)]

def get? (d : OrderedDict K V) (key : K) : Option V := (d.find? fun x => x.1 = key).map Prod.snd

def del (d : OrderedDict K V) (key : K) : OrderedDict K V := d.filter fun x => x.1 ≠ key

theorem mem_of_mem_set {d : OrderedDict K V} {key : K} {value : V} {x : K × V}
    (h : x ∈ d.set key value) : x ∈ d ∨ x = (key, value) := by
  unfold set at h
  split at h
  · obtain ⟨y, hy, rfl⟩ := List.mem_map.mp h
    split
    · exact Or.inr rfl
    · exact Or.inl hy
  · rcases List.mem_append.mp h with h | h
    · exact Or.inl h
    · exact Or.inr (List.mem_singleton.mp h)

theorem eq_of_mem_set {d : OrderedDict K V} {key : K} {value : V} {x : K × V} (h : x ∈ d.set key value)
    (hkey : x.1 = key) : x.2 = value := by
  unfold set at h
  split at h
  · obtain ⟨y, hy, rfl⟩ := List.mem_map.mp h
    split
    · rfl
    · rename_i hne
      rw [if_neg hne] at hkey
      exact absurd hkey hne
  · rename_i hout
    rcases List.mem_append.mp h with h | h
    · exact absurd (List.mem_map.mpr ⟨x, h, hkey⟩) hout
    · rw [List.mem_singleton.mp h]

theorem mem_set_self (d : OrderedDict K V) (key : K) (value : V) :
    (key, value) ∈ d.set key value := by
  unfold set
  split
  · rename_i hin
    obtain ⟨x, hx, hkey⟩ := List.mem_map.mp hin
    exact List.mem_map.mpr ⟨x, hx, if_pos hkey⟩
  · exact List.mem_append_right _ List.mem_cons_self

theorem mem_set_of_ne {d : OrderedDict K V} {key : K} {x : K × V} (value : V) (h : x ∈ d)
    (hne : x.1 ≠ key) : x ∈ d.set key value := by
  unfold set
  split
  · exact List.mem_map.mpr ⟨x, h, if_neg hne⟩
  · exact List.mem_append_left _ h

theorem key_set {d : OrderedDict K V} {key k : K} {value : V} :
    k ∈ (d.set key value).map Prod.fst ↔ k ∈ d.map Prod.fst ∨ k = key := by
  unfold set
  split
  · rename_i hin
    have hkeys : (d.map fun x => if x.1 = key then (key, value) else x).map Prod.fst =
        d.map Prod.fst := by
      rw [List.map_map]
      apply List.map_congr_left
      intro x _
      by_cases hx : x.1 = key <;> simp [hx]
    rw [hkeys]
    constructor
    · exact Or.inl
    · rintro (h | rfl)
      · exact h
      · exact hin
  · simp

theorem keys_set_nodup {d : OrderedDict K V} (h : (d.map Prod.fst).Nodup) {key : K} {value : V} :
    ((d.set key value).map Prod.fst).Nodup := by
  unfold set
  split
  · have hkeys : (d.map fun x => if x.1 = key then (key, value) else x).map Prod.fst = d.map Prod.fst := by
      rw [List.map_map]
      refine List.map_congr_left fun x _ => ?_
      by_cases hx : x.1 = key
      · simp [hx]
      · simp [hx]
    rwa [hkeys]
  · rename_i hnot
    rw [List.map_append, List.map_singleton]
    exact h.append (List.nodup_singleton key) (by simpa using hnot)

theorem get?_set_self (d : OrderedDict K V) (key : K) (value : V) :
    (d.set key value).get? key = some value := by
  unfold set get?
  split
  · rename_i hin
    induction d with
    | nil => simp at hin
    | cons x xs ih =>
      by_cases hx : x.1 = key
      · simp [hx]
      · have hin' : key ∈ xs.map Prod.fst := by simpa [Ne.symm hx] using hin
        simpa [hx] using ih hin'
  · rename_i hin
    have hnone : (d.find? fun x => x.1 = key) = none := by
      rw [List.find?_eq_none]
      intro x hx heq
      exact hin (List.mem_map.mpr ⟨x, hx, by simpa using heq⟩)
    simp [List.find?_append, hnone]

theorem get?_set_other (d : OrderedDict K V) {key k : K} (value : V) (hk : k ≠ key) :
    (d.set key value).get? k = d.get? k := by
  unfold set get?
  split
  · rename_i hin
    clear hin
    induction d with
    | nil => rfl
    | cons x xs ih =>
      by_cases hx : x.1 = key
      · have hxk : x.1 ≠ k := fun h => hk (h.symm.trans hx)
        simpa [hx, hxk, hk.symm] using ih
      · by_cases hxk : x.1 = k
        · simp [hxk, hk]
        · simpa [hx, hxk] using ih
  · simp [List.find?_append, hk.symm]

theorem mem_of_get? {d : OrderedDict K V} {key : K} {value : V} (h : d.get? key = some value) :
    (key, value) ∈ d := by
  obtain ⟨x, hx, rfl⟩ := Option.map_eq_some_iff.mp h
  have hkey := List.find?_some hx
  simp only [decide_eq_true_eq] at hkey
  rw [← hkey]
  exact List.mem_of_find?_eq_some hx

theorem get?_of_key {d : OrderedDict K V} {key : K} (h : key ∈ d.map Prod.fst) :
    ∃ value, d.get? key = some value := by
  obtain ⟨x, hx, hkey⟩ := List.mem_map.mp h
  have hsome : (d.find? fun x => x.1 = key).isSome := by
    rw [List.find?_isSome]
    exact ⟨x, hx, by simpa using hkey⟩
  obtain ⟨y, hy⟩ := Option.isSome_iff_exists.mp hsome
  exact ⟨y.2, by rw [get?, hy, Option.map_some]⟩

theorem get?_comprehension (keys : List K) (f : K → V) {key : K} (h : key ∈ keys) :
    get? (keys.map fun k => (k, f k)) key = some (f key) := by
  have hkey : key ∈ (keys.map fun k => (k, f k)).map Prod.fst := by
    rw [List.map_map]
    exact List.mem_map.mpr ⟨key, h, rfl⟩
  obtain ⟨value, hvalue⟩ := get?_of_key hkey
  obtain ⟨k, _, heq⟩ := List.mem_map.mp (mem_of_get? hvalue)
  obtain ⟨rfl, rfl⟩ := Prod.mk.inj heq
  exact hvalue

theorem get?_filter (d : OrderedDict K V) (p : K → Bool) (key : K) :
    get? (d.filter fun x => p x.1) key = if p key then d.get? key else none := by
  unfold get?
  rw [List.find?_filter]
  split
  · rename_i hp
    congr 2
    funext x
    by_cases hx : x.1 = key <;> simp [hx, hp]
  · rename_i hp
    have hnone : (d.find? fun x => p x.1 && decide (x.1 = key)) = none := by
      rw [List.find?_eq_none]
      intro x _
      by_cases hx : x.1 = key <;> simp [hx, hp]
    simpa using hnone

theorem get?_del (d : OrderedDict K V) (key k : K) :
    (d.del key).get? k = if k = key then none else d.get? k := by
  have hfilter := get?_filter d (fun k => decide (k ≠ key)) k
  unfold del
  rw [hfilter]
  by_cases hk : k = key <;> simp [hk]

/-! ## Grouping -/

section
variable {α : Type}

/-- The items by key, each key with the values of its items in order. -/
def group (key : α → K) (value : α → V) (l : List α) : OrderedDict K (List V) :=
  l.foldl (fun d a => d.set (key a) ((d.get? (key a)).getD [] ++ [value a])) []

theorem group_concat (key : α → K) (value : α → V) (l : List α) (a : α) :
    group key value (l ++ [a]) =
      (group key value l).set (key a) (((group key value l).get? (key a)).getD [] ++ [value a]) := by
  simp [group]

theorem get?_group (key : α → K) (value : α → V) (l : List α) (k : K) :
    ((group key value l).get? k).getD [] = (l.filter fun a => decide (key a = k)).map value := by
  induction l using List.reverseRecOn with
  | nil => rfl
  | append_singleton l a ih =>
    rw [group_concat, List.filter_append, List.map_append, ← ih]
    by_cases hk : key a = k
    · subst hk
      rw [get?_set_self]
      simp
    · rw [get?_set_other _ _ (Ne.symm hk)]
      simp [hk]

theorem key_group (key : α → K) (value : α → V) (l : List α) (k : K) :
    k ∈ (group key value l).map Prod.fst ↔ ∃ a ∈ l, key a = k := by
  induction l using List.reverseRecOn with
  | nil => simp [group]
  | append_singleton l a ih =>
    rw [group_concat, key_set, ih]
    simp only [List.mem_append, List.mem_singleton]
    constructor
    · rintro (⟨b, hb, hk⟩ | rfl)
      · exact ⟨b, Or.inl hb, hk⟩
      · exact ⟨a, Or.inr rfl, rfl⟩
    · rintro ⟨b, hb | rfl, hk⟩
      · exact Or.inl ⟨b, hb, hk⟩
      · exact Or.inr hk.symm

theorem mem_group {key : α → K} {value : α → V} {l : List α} {x : K × List V}
    (h : x ∈ group key value l) : x.2 = (l.filter fun a => decide (key a = x.1)).map value := by
  induction l using List.reverseRecOn generalizing x with
  | nil => cases h
  | append_singleton l a ih =>
    rw [group_concat] at h
    by_cases hk : x.1 = key a
    · rw [eq_of_mem_set h hk, get?_group, hk]
      simp
    · rcases mem_of_mem_set h with h | rfl
      · rw [ih h]
        simp [Ne.symm hk]
      · exact absurd rfl hk

theorem group_keys_nodup (key : α → K) (value : α → V) (l : List α) :
    ((group key value l).map Prod.fst).Nodup := by
  induction l using List.reverseRecOn with
  | nil => exact List.nodup_nil
  | append_singleton l a ih =>
    rw [group_concat]
    exact keys_set_nodup ih

end

theorem pairwise_sorted_keys {K V : Type} [LinearOrder K] {d : OrderedDict K V} (h : (d.map Prod.fst).Nodup) :
    ((d.map Prod.fst).mergeSort fun a b => decide (a ≤ b)).Pairwise (· < ·) := by
  have htrans : ∀ a b c : K, decide (a ≤ b) → decide (b ≤ c) → decide (a ≤ c) := by
    simpa using fun a b c => le_trans
  have htotal : ∀ a b : K, decide (a ≤ b) || decide (b ≤ a) := by
    simpa using le_total
  have hsorted := List.pairwise_mergeSort htrans htotal (d.map Prod.fst)
  have hnodup := (List.mergeSort_perm (d.map Prod.fst) fun a b => decide (a ≤ b)).nodup_iff.mpr h
  refine (hsorted.and hnodup).imp fun h => ?_
  exact lt_of_le_of_ne (of_decide_eq_true h.1) h.2

end OrderedDict

end yocto.ordered_dict
