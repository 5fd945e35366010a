-- What replacing does to a list. The first occurrence is replaced and then those behind it, so
-- what holds of lists without an occurrence and survives one holds of every list.
import Yocto.ListSearch

namespace yocto.list_search

variable {α : Type} [DecidableEq α]

theorem replace_first {old s : List α} (hne : old ≠ []) (new : List α) (h : old <:+: s) :
    ∃ u v, s = u ++ (old ++ v) ∧ (∀ k < u.length, ¬ old <+: s.drop k) ∧
      replace old new s = u ++ (new ++ replace old new v) := by
  induction s with
  | nil => exact absurd (List.infix_nil.mp h) hne
  | cons c s ih =>
    by_cases hstart : old <+: c :: s
    · obtain ⟨v, hv⟩ := hstart
      refine ⟨[], v, hv.symm, by simp, ?_⟩
      rw [← hv, replace_start hne]
      rfl
    · obtain ⟨u, v, hs, hfirst, hreplace⟩ := ih ((List.infix_cons_iff.mp h).resolve_left hstart)
      refine ⟨c :: u, v, by rw [hs, List.cons_append], ?_, ?_⟩
      · intro k hk
        cases k with
        | zero => exact hstart
        | succ k => exact hfirst k (Nat.lt_of_succ_lt_succ hk)
      · have hcons : c :: s = [c] ++ s := rfl
        rw [hcons, replace_append_of_no_start new (by simpa using hstart), hreplace]
        rfl

theorem replace_induction {P : List α → List α → Prop} {old new : List α} (hne : old ≠ [])
    (absent : ∀ s, ¬ old <:+: s → P s s)
    (found : ∀ u v v', P v v' → P (u ++ (old ++ v)) (u ++ (new ++ v'))) (s : List α) :
    P s (replace old new s) := by
  induction hlength : s.length using Nat.strong_induction_on generalizing s with
  | h n ih =>
    by_cases hwithin : old <:+: s
    · obtain ⟨u, v, rfl, _, hreplace⟩ := replace_first hne new hwithin
      rw [hreplace]
      apply found
      refine ih v.length ?_ v rfl
      have := List.length_pos_iff.mpr hne
      rw [List.length_append, List.length_append] at hlength
      omega
    · rw [replace_of_absent new hwithin]
      exact absent s hwithin

theorem length_le_replace {old new : List α} (hne : old ≠ []) (hlength : old.length ≤ new.length) (s : List α) :
    s.length ≤ (replace old new s).length := by
  refine replace_induction (P := fun s s' => s.length ≤ s'.length) hne (fun _ _ => le_rfl) ?_ s
  intro u v v' hv
  simp only [List.length_append]
  omega

theorem count_replace {old new : List α} (hne : old ≠ []) {c : α} (hcount : new.count c = old.count c) (s : List α) :
    (replace old new s).count c = s.count c := by
  refine replace_induction (P := fun s s' => s'.count c = s.count c) hne (fun _ _ => rfl) ?_ s
  intro u v v' hv
  simp only [List.count_append, hv, hcount]

theorem mem_replace {old new s : List α} (hne : old ≠ []) {c : α} (h : c ∈ replace old new s) : c ∈ s ∨ c ∈ new := by
  revert h
  refine replace_induction (P := fun s s' => c ∈ s' → c ∈ s ∨ c ∈ new) hne (fun _ _ => Or.inl) ?_ s
  intro u v v' hv
  simp only [List.mem_append]
  rintro (h | h | h)
  · exact Or.inl (Or.inl h)
  · exact Or.inr h
  · exact (hv h).imp_left fun h => Or.inr (Or.inr h)

theorem replace_append_cons {old : List α} (hne : old ≠ []) (new : List α) {c : α} (hc : c ∉ old) (a b : List α) :
    replace old new (a ++ c :: b) = replace old new a ++ c :: replace old new b := by
  have hb : replace old new (c :: b) = c :: replace old new b := by
    have hcons : c :: b = [c] ++ b := rfl
    rw [hcons, replace_append_of_no_start new]
    · rfl
    · intro k hk hahead
      obtain rfl : k = 0 := by simpa using hk
      obtain ⟨x, xs, rfl⟩ := List.exists_cons_of_ne_nil hne
      exact hc ((List.cons_prefix_cons.mp hahead).1 ▸ List.mem_cons_self)
  induction hlength : a.length using Nat.strong_induction_on generalizing a with
  | h n ih =>
    by_cases hwithin : old <:+: a
    · obtain ⟨u, v, rfl, hfirst, hreplace⟩ := replace_first hne new hwithin
      have hpos := List.length_pos_iff.mpr hne
      have hstart : ∀ k < u.length, ¬ old <+: u.drop k ++ (old ++ (v ++ c :: b)) := by
        intro k hk hahead
        apply hfirst k hk
        rw [List.drop_append_of_le_length hk.le]
        have hother : u.drop k ++ (old ++ v) <+: u.drop k ++ (old ++ (v ++ c :: b)) :=
          ⟨c :: b, by simp⟩
        apply List.prefix_of_prefix_length_le hahead hother
        simp only [List.length_append]
        omega
      have hv := ih v.length (by rw [List.length_append, List.length_append] at hlength; omega) v rfl
      rw [hreplace, List.append_assoc, List.append_assoc, replace_append_of_no_start new hstart,
        replace_start hne, hv]
      simp
    · have hstart : ∀ k < a.length, ¬ old <+: a.drop k ++ c :: b := by
        intro k hk hahead
        rcases prefix_append_cases hahead with h | ⟨rest, hrest, hold⟩
        · exact hwithin (h.isInfix.trans (List.drop_suffix k a).isInfix)
        · cases rest with
          | nil =>
            rw [List.append_nil] at hold
            exact hwithin (hold ▸ (List.drop_suffix k a).isInfix)
          | cons d rest =>
            obtain rfl := (List.cons_prefix_cons.mp hrest).1
            exact hc (by rw [hold]; simp)
      rw [replace_append_of_no_start new hstart, hb, replace_of_absent new hwithin]

theorem length_replace_of_infix {old s : List α} (link : List α) (hne : old ≠ []) (hwithin : old <:+: s) :
    s.length + link.length ≤ (replace old (old ++ link) s).length := by
  have hgrows : old.length ≤ (old ++ link).length := by simp
  obtain ⟨u, v, hsplit, _, hreplace⟩ := replace_first hne (old ++ link) hwithin
  have hlonger := length_le_replace hne hgrows v
  rw [hreplace, hsplit]
  simp only [List.length_append]
  omega

theorem replaced_once {old link s s' : List α} (hne : old ≠ []) (hlink : link ≠ []) (hwithin : old <:+: s)
    (h : replace old (old ++ link) s <+: s') (hlength : s'.length = s.length + link.length) :
    ∃ u v, s = u ++ (old ++ v) ∧ (∀ k < u.length, ¬ old <+: s.drop k) ∧ s' = u ++ (old ++ (link ++ v)) := by
  have hpos := List.length_pos_iff.mpr hlink
  obtain ⟨u, v, rfl, hfirst, hreplace⟩ := replace_first hne (old ++ link) hwithin
  have hbound := h.length_le
  rw [hreplace] at h hbound
  simp only [List.length_append] at hlength hbound
  have hv : replace old (old ++ link) v = v := by
    apply replace_of_absent
    intro hwithin
    have hgrown := length_replace_of_infix link hne hwithin
    omega
  rw [hv] at h
  refine ⟨u, v, rfl, hfirst, ?_⟩
  rw [← List.append_assoc old, eq_comm]
  apply h.eq_of_length
  simp only [List.length_append]
  omega

end yocto.list_search
