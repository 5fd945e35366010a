-- The first place where a list holds another list, as `find` of Python gives
-- it for bytes and text, and the markers whose first item stands nowhere else
-- in them: such a marker closes a frame, and it never overlaps itself.
import Mathlib.Data.List.Infix
import Mathlib.Data.List.MinMax
import Mathlib.Tactic

namespace yocto.list_search

variable {α : Type}

abbrev Bytes := List UInt8

/-- The bytes of an ASCII text, as a `b"..."` literal. -/
def ascii (s : String) : Bytes := s.toList.map (fun c => c.toNat.toUInt8)

/-- The items from index `a` up to index `b`, as `s[a:b]` in Python. -/
def slice (s : List α) (a b : Nat) : List α := (s.take b).drop a

@[simp] theorem slice_append (a b c : List α) : slice (a ++ (b ++ c)) a.length (a.length + b.length) = b := by
  simp [slice, List.take_append]

theorem drop_append_append (a b c : List α) : (a ++ (b ++ c)).drop (a.length + b.length) = c := by
  rw [← List.append_assoc, ← List.length_append, List.drop_left]

theorem length_slice_le (s : List α) (a b : Nat) : (slice s a b).length ≤ b - a := by
  simp only [slice, List.length_drop, List.length_take]
  omega

theorem prefix_append_cases {p a b : List α} (h : p <+: a ++ b) :
    p <+: a ∨ ∃ q, q <+: b ∧ p = a ++ q := by
  rcases List.prefix_or_prefix_of_prefix h (List.prefix_append a b) with h1 | ⟨q, rfl⟩
  · exact Or.inl h1
  · exact Or.inr ⟨q, (List.prefix_append_right_inj a).mp h, rfl⟩

/-! ## Parts of a list -/

section
variable {β : Type}

theorem filterMap_sublist {f g : α → Option β} (h : ∀ a b, f a = some b → g a = some b)
    (l : List α) : (l.filterMap f).Sublist (l.filterMap g) := by
  induction l with
  | nil => exact List.Sublist.refl _
  | cons a l ih =>
    rw [List.filterMap_cons, List.filterMap_cons]
    cases hf : f a with
    | none =>
      cases hg : g a with
      | none => exact ih
      | some b => exact ih.cons b
    | some b =>
      rw [h a b hf]
      exact ih.cons_cons b

theorem argmin_of_sublist [LinearOrder β] {f : α → β} {s t : List α} (h : s.Sublist t) (hnodup : t.Nodup) {x : α}
    (hx : t.argmin f = some x) (hmem : x ∈ s) : s.argmin f = some x := by
  induction h with
  | slnil => cases hmem
  | @cons s t a hsub ih =>
    rw [List.nodup_cons] at hnodup
    rw [List.argmin_cons] at hx
    cases hmin : t.argmin f with
    | none =>
      rw [List.argmin_eq_none.mp hmin] at hsub
      rw [List.sublist_nil.mp hsub] at hmem
      cases hmem
    | some c =>
      simp only [hmin] at hx
      split at hx
      · obtain rfl := Option.some.inj hx
        exact ih hnodup.2 hmin hmem
      · obtain rfl := Option.some.inj hx
        exact absurd (hsub.subset hmem) hnodup.1
  | @cons_cons s t a hsub ih =>
    rw [List.nodup_cons] at hnodup
    rw [List.argmin_cons] at hx ⊢
    cases hmin : t.argmin f with
    | none =>
      rw [List.argmin_eq_none.mp hmin] at hsub
      rw [List.sublist_nil.mp hsub]
      rw [hmin] at hx
      exact hx
    | some c =>
      simp only [hmin] at hx
      split at hx
      · rename_i hlt
        obtain rfl := Option.some.inj hx
        have hc : c ∈ s := by
          rcases List.mem_cons.mp hmem with rfl | hc
          · exact absurd hlt (lt_irrefl _)
          · exact hc
        rw [ih hnodup.2 hmin hc]
        dsimp only
        rw [if_pos hlt]
      · rename_i hle
        obtain rfl := Option.some.inj hx
        cases hs : s.argmin f with
        | none => rfl
        | some d =>
          dsimp only
          rw [if_neg]
          intro hlt
          have hcd : f c ≤ f d := List.le_of_mem_argmin (hsub.subset (List.argmin_mem hs)) hmin
          exact hle (lt_of_le_of_lt hcd hlt)

theorem argmin_map {γ δ : Type} [LinearOrder β] [LinearOrder δ] (f : α → β) (g : γ → δ) (h : α → γ)
    (hlt : ∀ a b, g (h a) < g (h b) ↔ f a < f b) (l : List α) :
    (l.map h).argmin g = (l.argmin f).map h := by
  induction l with
  | nil => rfl
  | cons a l ih =>
    rw [List.map_cons, List.argmin_cons, List.argmin_cons, ih]
    cases l.argmin f with
    | none => rfl
    | some c =>
      simp only [Option.map_some, hlt]
      split <;> rfl

end

theorem cut_inj {c : α} {a a' b b' : List α} (ha : c ∉ a) (ha' : c ∉ a') (h : a ++ c :: b = a' ++ c :: b') :
    a = a' ∧ b = b' := by
  induction a generalizing a' with
  | nil =>
    cases a' with
    | nil => exact ⟨rfl, (List.cons.inj h).2⟩
    | cons x xs =>
      obtain ⟨rfl, _⟩ := List.cons.inj h
      simp at ha'
  | cons x xs ih =>
    cases a' with
    | nil =>
      obtain ⟨rfl, _⟩ := List.cons.inj h
      simp at ha
    | cons y ys =>
      obtain ⟨rfl, htail⟩ := List.cons.inj h
      simp only [List.mem_cons, not_or] at ha ha'
      obtain ⟨rfl, rfl⟩ := ih ha.2 ha'.2 htail
      exact ⟨rfl, rfl⟩

/-! ## Markers -/

/-- A marker: a list whose first item stands only at its start. -/
def Marker (m : List α) : Prop := ∃ x xs, m = x :: xs ∧ x ∉ xs

instance [DecidableEq α] (m : List α) : Decidable (Marker m) :=
  match m with
  | [] => isFalse (by rintro ⟨x, xs, h, _⟩; cases h)
  | x :: xs => decidable_of_iff (x ∉ xs) ⟨fun h => ⟨x, xs, rfl, h⟩, by
      rintro ⟨y, ys, h, hy⟩
      cases h
      exact hy⟩

theorem Marker.ne_nil {m : List α} (hm : Marker m) : m ≠ [] := by
  obtain ⟨x, xs, rfl, _⟩ := hm
  simp

theorem Marker.prefix_of_prefix_append {m a b : List α} (hm : Marker m) (ha : a ≠ [])
    (hb : b = [] ∨ b.head? = m.head?) (h : m <+: a ++ b) : m <+: a := by
  rcases prefix_append_cases h with h1 | ⟨r, hr, he⟩
  · exact h1
  obtain ⟨x, xs, rfl, hx⟩ := hm
  obtain ⟨y, ys, rfl⟩ := List.exists_cons_of_ne_nil ha
  cases r with
  | nil =>
    rw [he, List.append_nil]
  | cons w ws =>
    obtain ⟨rfl, hxs⟩ := List.cons.inj he
    -- the second start of the marker stands inside the marker
    obtain ⟨z, zs, rfl⟩ : ∃ z zs, b = z :: zs := List.exists_cons_of_ne_nil (by
      rintro rfl
      simp at hr)
    have hw : w = x := by simpa [(List.cons_prefix_cons.mp hr).1] using hb
    exact absurd (by simp [hxs, hw]) hx

theorem infix_append_cons {c : α} {p a b : List α} (hp : c ∉ p) (h : p <:+: a ++ c :: b) :
    p <:+: a ∨ p <:+: b := by
  induction a with
  | nil =>
    rw [List.nil_append, List.infix_cons_iff] at h
    rcases h with h | h
    · cases p with
      | nil => exact Or.inr (List.nil_infix)
      | cons x xs =>
        rw [List.cons_prefix_cons] at h
        exact absurd (h.1 ▸ List.mem_cons_self) hp
    · exact Or.inr h
  | cons x xs ih =>
    rw [List.cons_append, List.infix_cons_iff] at h
    rcases h with h | h
    · left
      have hitem : (x :: xs) ++ [c] <+: x :: (xs ++ c :: b) := ⟨b, by simp⟩
      rcases List.prefix_or_prefix_of_prefix h hitem with h | h
      · rcases List.prefix_concat_iff.mp h with rfl | h
        · simp at hp
        · exact h.isInfix
      · exact absurd (h.subset (by simp)) hp
    · exact (ih h).imp_left fun h => h.trans (List.suffix_cons x xs).isInfix

theorem Marker.infix_append {m a b : List α} (hm : Marker m) (hb : b = [] ∨ b.head? = m.head?)
    (h : m <:+: a ++ b) : m <:+: a ∨ m <:+: b := by
  obtain ⟨s, t, h⟩ := h
  rw [List.append_assoc] at h
  rcases List.append_eq_append_iff.mp h with ⟨c, rfl, hc⟩ | ⟨c, rfl, hc⟩
  · rcases eq_or_ne c [] with rfl | hcne
    · exact Or.inr ⟨[], t, by rw [List.nil_append, hc, List.nil_append]⟩
    · have := hm.prefix_of_prefix_append hcne hb ⟨t, hc⟩
      exact Or.inl (this.isInfix.trans (List.suffix_append s c).isInfix)
  · exact Or.inr ⟨c, t, by rw [hc, List.append_assoc]⟩

theorem Marker.not_infix_append {m a q : List α} (hm : Marker m)
    (ha : ¬ m <:+: a) (hq : q <+: m) (hne : q ≠ m) : ¬ m <:+: a ++ q := by
  intro h
  have hhead : q = [] ∨ q.head? = m.head? := by
    obtain ⟨r, rfl⟩ := hq
    cases q <;> simp
  rcases hm.infix_append hhead h with h1 | h1
  · exact ha h1
  · exact hne (hq.eq_of_length_le h1.length_le)

theorem Marker.not_infix_of_start {m a q : List α} (hm : Marker m) (ha : ¬ m <:+: a)
    (hq : q <+: a ++ m) (hne : q ≠ a ++ m) : ¬ m <:+: q := by
  rcases prefix_append_cases hq with h | ⟨r, hr, rfl⟩
  · exact fun h1 => ha (h1.trans h.isInfix)
  · exact hm.not_infix_append ha hr (fun h => hne (by rw [h]))

/-! ## The first occurrence -/

variable [DecidableEq α]

/-- The index of the first occurrence of `pat`, or none. -/
def find (pat : List α) : List α → Option Nat
  | [] => if pat <+: [] then some 0 else none
  | x :: xs => if pat <+: x :: xs then some 0 else (find pat xs).map (· + 1)

theorem find_eq_some_iff (pat s : List α) (i : Nat) :
    find pat s = some i ↔
      i ≤ s.length ∧ pat <+: s.drop i ∧ ∀ j < i, ¬ pat <+: s.drop j := by
  induction s generalizing i with
  | nil =>
    simp only [find, List.length_nil, Nat.le_zero_eq, List.drop_nil]
    constructor
    · intro h
      split at h
      · cases h
        exact ⟨rfl, ‹_›, fun j hj => absurd hj (Nat.not_lt_zero j)⟩
      · cases h
    · rintro ⟨rfl, hp, _⟩
      rw [if_pos hp]
  | cons x xs ih =>
    simp only [find]
    by_cases hp : pat <+: x :: xs
    · rw [if_pos hp]
      constructor
      · intro h
        cases h
        exact ⟨Nat.zero_le _, hp, fun j hj => absurd hj (Nat.not_lt_zero j)⟩
      · rintro ⟨_, _, hmin⟩
        cases i with
        | zero => rfl
        | succ i => exact absurd hp (hmin 0 (Nat.succ_pos i))
    · rw [if_neg hp]
      cases i with
      | zero => simp [hp]
      | succ i =>
        simp only [Option.map_eq_some_iff, Nat.add_right_cancel_iff, exists_eq_right, ih,
          List.length_cons, List.drop_succ_cons, Nat.add_le_add_iff_right]
        refine and_congr_right fun _ => and_congr_right fun _ => ⟨fun h j hj => ?_, fun h j hj => ?_⟩
        · cases j with
          | zero => exact hp
          | succ j => exact h j (by omega)
        · exact h (j + 1) (by omega)

theorem find_eq_none_iff (pat s : List α) : find pat s = none ↔ ¬ pat <:+: s := by
  induction s with
  | nil =>
    simp only [find]
    split <;> simp_all
  | cons x xs ih =>
    simp only [find, List.infix_cons_iff]
    by_cases hp : pat <+: x :: xs
    · simp [hp]
    · simp [hp, ih]

theorem Marker.find_append {m : List α} (hm : Marker m) {a : List α} (b : List α)
    (ha : ¬ m <:+: a) : find m (a ++ (m ++ b)) = some a.length := by
  rw [find_eq_some_iff]
  refine ⟨by simp, by simp, fun j hj h => ha ?_⟩
  rw [List.drop_append_of_le_length (by omega)] at h
  have hne : a.drop j ≠ [] := by simpa using hj
  have hhead : (m ++ b).head? = m.head? := by
    obtain ⟨x, xs, rfl, _⟩ := hm
    rfl
  have := hm.prefix_of_prefix_append hne (Or.inr hhead) h
  exact this.isInfix.trans (List.drop_suffix j a).isInfix

theorem find_append_le {m a : List α} (b : List α) (ha : m <:+: a) :
    ∃ i, find m (a ++ b) = some i ∧ i + m.length ≤ a.length := by
  obtain ⟨s, t, rfl⟩ := ha
  rcases h : find m (s ++ m ++ t ++ b) with _ | i
  · rw [find_eq_none_iff] at h
    exact absurd ⟨s, t ++ b, by simp⟩ h
  · refine ⟨i, rfl, ?_⟩
    obtain ⟨_, _, hmin⟩ := (find_eq_some_iff _ _ _).mp h
    have hle : i ≤ s.length := by
      by_contra hlt
      exact hmin s.length (by omega) (by simp)
    simp only [List.length_append]
    omega

/-- `s.find(pat, start)` of Python: the first occurrence from `start` on. -/
def findFrom (pat s : List α) (start : Nat) : Option Nat :=
  (find pat (s.drop start)).map (· + start)

theorem findFrom_zero (pat s : List α) : findFrom pat s 0 = find pat s := by
  simp [findFrom]

theorem findFrom_eq_some {pat s : List α} {start i : Nat} (h : findFrom pat s start = some i) :
    start ≤ i ∧ pat <+: s.drop i ∧ ∀ j, start ≤ j → j < i → ¬ pat <+: s.drop j := by
  obtain ⟨a, ha, rfl⟩ := Option.map_eq_some_iff.mp h
  obtain ⟨_, hp, hmin⟩ := (find_eq_some_iff _ _ _).mp ha
  rw [List.drop_drop, Nat.add_comm] at hp
  refine ⟨Nat.le_add_left _ _, hp, fun j hj hlt => ?_⟩
  have := hmin (j - start) (by omega)
  rwa [List.drop_drop, Nat.add_sub_cancel' hj] at this

theorem findFrom_eq_none {pat s : List α} {start : Nat} (h : findFrom pat s start = none) :
    ∀ j, start ≤ j → ¬ pat <+: s.drop j := by
  intro j hj hp
  rw [findFrom, Option.map_eq_none_iff, find_eq_none_iff] at h
  apply h
  rw [← Nat.add_sub_cancel' hj, ← List.drop_drop] at hp
  exact hp.isInfix.trans (List.drop_suffix _ _).isInfix

/-! ## The number of occurrences -/

/-- The occurrences that start once `skip` items are passed, one after the other. -/
def countFrom (pat : List α) : Nat → List α → Nat
  | _, [] => 0
  | skip + 1, _ :: xs => countFrom pat skip xs
  | 0, x :: xs =>
    if pat <+: x :: xs then countFrom pat (pat.length - 1) xs + 1 else countFrom pat 0 xs

/-- The number of occurrences that do not overlap, as `count` of Python gives it. -/
def count (pat s : List α) : Nat := countFrom pat 0 s

theorem count_of_not_infix {pat s : List α} (h : ¬ pat <:+: s) : count pat s = 0 := by
  induction s with
  | nil => rfl
  | cons x xs ih =>
    rw [List.infix_cons_iff, not_or] at h
    rw [count, countFrom, if_neg h.1]
    exact ih h.2

theorem countFrom_append (pat a b : List α) : countFrom pat a.length (a ++ b) = countFrom pat 0 b := by
  induction a with
  | nil => rfl
  | cons x xs ih => simpa [countFrom] using ih

theorem count_append (pat s : List α) (h : pat ≠ []) : count pat (pat ++ s) = count pat s + 1 := by
  obtain ⟨x, xs, rfl⟩ := List.exists_cons_of_ne_nil h
  rw [count, List.cons_append, countFrom, if_pos (by simp)]
  simp [countFrom_append, count]

/-! ## Replacing -/

/-- What stands for the items once `skip` of them are passed. -/
def replaceFrom (old new : List α) : Nat → List α → List α
  | _, [] => []
  | skip + 1, _ :: xs => replaceFrom old new skip xs
  | 0, x :: xs =>
    if old <+: x :: xs then new ++ replaceFrom old new (old.length - 1) xs
    else x :: replaceFrom old new 0 xs

/-- `s.replace(old, new)` of Python, for an `old` that is not empty. -/
def replace (old new s : List α) : List α := replaceFrom old new 0 s

theorem replaceFrom_append (old new a b : List α) :
    replaceFrom old new a.length (a ++ b) = replaceFrom old new 0 b := by
  induction a with
  | nil => rfl
  | cons x xs ih => simpa [replaceFrom] using ih

theorem replace_of_absent {old s : List α} (new : List α) (h : ¬ old <:+: s) : replace old new s = s := by
  induction s with
  | nil => rfl
  | cons x xs ih =>
    rw [List.infix_cons_iff, not_or] at h
    rw [replace, replaceFrom, if_neg h.1]
    exact congrArg (x :: ·) (ih h.2)

theorem replace_start {old : List α} (hne : old ≠ []) (new b : List α) :
    replace old new (old ++ b) = new ++ replace old new b := by
  obtain ⟨x, xs, rfl⟩ := List.exists_cons_of_ne_nil hne
  rw [List.cons_append, replace, replaceFrom, if_pos ⟨b, rfl⟩]
  exact congrArg (new ++ ·) (replaceFrom_append _ _ xs b)

theorem replace_append_of_no_start {old a b : List α} (new : List α)
    (h : ∀ k < a.length, ¬ old <+: a.drop k ++ b) :
    replace old new (a ++ b) = a ++ replace old new b := by
  induction a with
  | nil => rfl
  | cons x xs ih =>
    have hstart : ¬ old <+: x :: (xs ++ b) := h 0 (Nat.succ_pos _)
    rw [List.cons_append, replace, replaceFrom, if_neg hstart]
    exact congrArg (x :: ·) (ih fun k hk => h (k + 1) (Nat.succ_lt_succ hk))

theorem Marker.replace_append {m a : List α} (hm : Marker m) (new b : List α) (ha : ¬ m <:+: a) :
    replace m new (a ++ (m ++ b)) = a ++ (new ++ replace m new b) := by
  have hhead : (m ++ b).head? = m.head? := by
    obtain ⟨x, xs, rfl, _⟩ := hm
    rfl
  induction a with
  | nil => exact replace_start hm.ne_nil new b
  | cons x xs ih =>
    have hstart : ¬ m <+: x :: (xs ++ (m ++ b)) := by
      intro h
      rw [← List.cons_append] at h
      exact ha (hm.prefix_of_prefix_append (List.cons_ne_nil x xs) (Or.inr hhead) h).isInfix
    rw [List.infix_cons_iff, not_or] at ha
    rw [List.cons_append, replace, replaceFrom, if_neg hstart]
    exact congrArg (x :: ·) (ih ha.2)

theorem length_removeFrom_le (old : List α) (skip : Nat) (s : List α) :
    (replaceFrom old [] skip s).length ≤ s.length := by
  induction s generalizing skip with
  | nil => simp [replaceFrom]
  | cons x xs ih =>
    cases skip with
    | zero =>
      rw [replaceFrom]
      split
      · exact (ih _).trans (Nat.le_succ _)
      · exact Nat.succ_le_succ (ih 0)
    | succ skip => exact (ih skip).trans (Nat.le_succ _)

theorem length_remove_le (old s : List α) : (replace old [] s).length ≤ s.length :=
  length_removeFrom_le old 0 s

theorem length_remove_lt {old s : List α} (hne : old ≠ []) (h : old <:+: s) :
    (replace old [] s).length < s.length := by
  induction s with
  | nil => exact absurd (List.infix_nil.mp h) hne
  | cons x xs ih =>
    rw [replace, replaceFrom]
    split
    · exact Nat.lt_succ_of_le (length_removeFrom_le old _ xs)
    · rename_i hstart
      exact Nat.succ_lt_succ (ih ((List.infix_cons_iff.mp h).resolve_left hstart))

theorem Marker.exists_first {m s : List α} (hm : Marker m) (h : m <:+: s) :
    ∃ a b, s = a ++ (m ++ b) ∧ ¬ m <:+: a := by
  induction s with
  | nil => exact absurd (List.infix_nil.mp h) hm.ne_nil
  | cons x xs ih =>
    by_cases hstart : m <+: x :: xs
    · obtain ⟨b, hb⟩ := hstart
      exact ⟨[], b, hb.symm, fun h => hm.ne_nil (List.infix_nil.mp h)⟩
    · obtain ⟨a, b, rfl, ha⟩ := ih ((List.infix_cons_iff.mp h).resolve_left hstart)
      refine ⟨x :: a, b, rfl, fun h => ?_⟩
      rcases List.infix_cons_iff.mp h with h | h
      · exact hstart (h.trans ⟨m ++ b, rfl⟩)
      · exact ha h

end yocto.list_search
