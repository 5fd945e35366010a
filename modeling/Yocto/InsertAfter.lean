-- Lists that grow by insertions, each behind an item that is there or at the front.
import Mathlib.Data.List.Nodup
import Mathlib.Data.List.Sublists
import Mathlib.Tactic

namespace yocto.insertions

variable {α : Type} [DecidableEq α]

/-! ## Pairs of items -/

omit [DecidableEq α] in
theorem pair_sublist_behind {x y : α} {a b : List α} (ha : x ∉ a) (hb : x ∉ b) :
    [x, y].Sublist (a ++ x :: b) ↔ y ∈ b := by
  constructor
  · intro h
    induction a with
    | nil =>
      rcases List.sublist_cons_iff.mp h with h | ⟨r, hr, hsub⟩
      · exact absurd (h.subset List.mem_cons_self) hb
      · obtain ⟨_, rfl⟩ := List.cons.inj hr
        exact List.singleton_sublist.mp hsub
    | cons c a ih =>
      rw [List.mem_cons, not_or] at ha
      rcases List.sublist_cons_iff.mp h with h | ⟨r, hr, _⟩
      · exact ih ha.2 h
      · exact absurd (List.cons.inj hr).1 ha.1
  · intro hy
    exact (List.cons_sublist_cons.mpr (List.singleton_sublist.mpr hy)).trans (List.sublist_append_right a _)

omit [DecidableEq α] in
theorem pair_sublist_before {x y : α} {a b : List α} (ha : x ∉ a) (hb : x ∉ b) :
    [y, x].Sublist (a ++ x :: b) ↔ y ∈ a := by
  have hbehind := @pair_sublist_behind _ x y b.reverse a.reverse (by simpa using hb) (by simpa using ha)
  have hreverse : (a ++ x :: b).reverse = b.reverse ++ x :: a.reverse := by simp
  have hpair : [y, x].reverse = [x, y] := rfl
  rw [← List.reverse_sublist, hreverse, hpair, hbehind, List.mem_reverse]

theorem pair_sublist_other {x y z : α} {a b : List α} (hx : x ≠ z) (hy : y ≠ z) (hz : z ∉ a ++ b) :
    [x, y].Sublist (a ++ z :: b) ↔ [x, y].Sublist (a ++ b) := by
  constructor
  · intro h
    have ha : ∀ c ∈ a ++ b, decide (c ≠ z) = true := fun c hc =>
      decide_eq_true fun heq => hz (heq ▸ hc)
    have hrest : (a ++ z :: b).filter (fun c => decide (c ≠ z)) = a ++ b := by
      rw [List.filter_append, List.filter_cons, if_neg (by simp), ← List.filter_append,
        List.filter_eq_self.mpr ha]
    have hfilter := h.filter (fun c => decide (c ≠ z))
    rw [hrest] at hfilter
    simpa [hx, hy] using hfilter
  · exact fun h => h.trans ((List.sublist_cons_self z b).append_left a)

omit [DecidableEq α] in
theorem sublist_of_pairs {s l : List α} (hl : l.Nodup) (hs : s.Nodup) (hsub : s ⊆ l)
    (hpairs : ∀ x y, [x, y].Sublist s → [x, y].Sublist l) : s.Sublist l := by
  induction s generalizing l with
  | nil => exact List.nil_sublist l
  | cons x s ih =>
    obtain ⟨a, b, rfl⟩ := List.append_of_mem (hsub List.mem_cons_self)
    have hx : x ∉ a ∧ x ∉ b := by
      have := List.nodup_middle.mp hl
      simpa using (List.nodup_cons.mp this).1
    have hbehind : s ⊆ b := by
      intro y hy
      have hpair : [x, y].Sublist (x :: s) := List.cons_sublist_cons.mpr (List.singleton_sublist.mpr hy)
      exact (pair_sublist_behind hx.1 hx.2).mp (hpairs x y hpair)
    have hb : b.Nodup := hl.sublist ((List.sublist_cons_self x b).trans (List.sublist_append_right a _))
    have hab : List.Disjoint a (x :: b) := (List.nodup_append'.mp hl).2.2
    have hrest : s.Sublist b := by
      refine ih hb (List.nodup_cons.mp hs).2 hbehind fun y z hyz => ?_
      have hyb : y ∈ b := hbehind (hyz.subset List.mem_cons_self)
      obtain ⟨b₁, b₂, rfl⟩ := List.append_of_mem hyb
      have hlong := hpairs y z (hyz.trans (List.sublist_cons_self x s))
      have hsplit : a ++ x :: (b₁ ++ y :: b₂) = (a ++ x :: b₁) ++ y :: b₂ := by simp
      rw [hsplit] at hlong hl
      have hy : y ∉ a ++ x :: b₁ ∧ y ∉ b₂ := by
        have := (List.nodup_cons.mp (List.nodup_middle.mp hl)).1
        rw [List.mem_append, not_or] at this
        exact this
      have hz := (pair_sublist_behind hy.1 hy.2).mp hlong
      exact (List.cons_sublist_cons.mpr (List.singleton_sublist.mpr hz)).trans
        (List.sublist_append_right b₁ _)
    exact (List.cons_sublist_cons.mpr hrest).trans (List.sublist_append_right a _)

/-! ## Insertions -/

/-- The list with an item right behind another one, or at the front. -/
def insert_after (anchor : Option α) (z : α) (l : List α) : List α :=
  match anchor with
  | none => z :: l
  | some q => l.takeWhile (· ≠ q) ++ (l.dropWhile (· ≠ q)).take 1 ++ z :: (l.dropWhile (· ≠ q)).drop 1

theorem insert_after_some {q : α} {a : List α} (ha : q ∉ a) (z : α) (b : List α) :
    insert_after (some q) z (a ++ q :: b) = (a ++ [q]) ++ z :: b := by
  have hall : ∀ c ∈ a, decide (c ≠ q) = true := fun c hc => decide_eq_true fun heq => ha (heq ▸ hc)
  unfold insert_after
  simp only
  rw [List.takeWhile_append_of_pos hall, List.dropWhile_append_of_pos hall]
  simp

theorem insert_after_last {a b : List α} (h : (a ++ b).Nodup) (z : α) :
    insert_after a.getLast? z (a ++ b) = a ++ z :: b := by
  rcases List.eq_nil_or_concat a with rfl | ⟨a, q, rfl⟩
  · rfl
  · have hq : q ∉ a := by
      rw [List.concat_eq_append, List.append_assoc, List.singleton_append] at h
      have := (List.nodup_cons.mp (List.nodup_middle.mp h)).1
      exact fun hq => this (List.mem_append_left b hq)
    rw [List.concat_eq_append, List.getLast?_concat, List.append_assoc, List.singleton_append,
      insert_after_some hq]

/-- The list after some insertions, the newest first. -/
def grown : List (α × Option α) → List α
  | [] => []
  | (z, anchor) :: older => insert_after anchor z (grown older)

/-- Each item is new, and its anchor is there. -/
def Anchored : List (α × Option α) → Prop
  | [] => True
  | (z, anchor) :: older =>
    z ∉ older.map Prod.fst ∧ (∀ q, anchor = some q → q ∈ older.map Prod.fst) ∧ Anchored older

/-- Whether an item comes before another one, by the insertions. -/
def Before : List (α × Option α) → α → α → Prop
  | [], _, _ => False
  | (z, anchor) :: older, x, y =>
    if x = z then y ∈ older.map Prod.fst ∧ ∀ q, anchor = some q → Before older q y
    else if y = z then ∃ q, anchor = some q ∧ (x = q ∨ Before older x q)
    else Before older x y

theorem grown_spec {known : List (α × Option α)} (h : Anchored known) :
    (grown known).Nodup ∧ (∀ x, x ∈ grown known ↔ x ∈ known.map Prod.fst) ∧
      ∀ x y, [x, y].Sublist (grown known) ↔ Before known x y := by
  induction known with
  | nil => exact ⟨List.nodup_nil, fun x => Iff.rfl, fun x y => by simp [grown, Before]⟩
  | cons e older ih =>
    obtain ⟨z, anchor⟩ := e
    obtain ⟨hz, hanchor, holder⟩ := h
    obtain ⟨hnodup, hmem, hpair⟩ := ih holder
    -- the new item parts the list in two
    obtain ⟨a, b, hold, hnew, hbehind, hbefore⟩ : ∃ a b, grown older = a ++ b ∧
        grown ((z, anchor) :: older) = a ++ z :: b ∧
        (∀ y ∈ grown older, y ∈ b ↔ ∀ q, anchor = some q → [q, y].Sublist (grown older)) ∧
        ∀ x, x ∈ a ↔ ∃ q, anchor = some q ∧ (x = q ∨ [x, q].Sublist (grown older)) := by
      cases anchor with
      | none => exact ⟨[], grown older, rfl, rfl, fun y hy => by simp [hy], fun x => by simp⟩
      | some q =>
        have hq : q ∈ grown older := (hmem q).mpr (hanchor q rfl)
        obtain ⟨a, b, hsplit⟩ := List.append_of_mem hq
        have hnot : q ∉ a ∧ q ∉ b := by
          rw [hsplit] at hnodup
          have := (List.nodup_cons.mp (List.nodup_middle.mp hnodup)).1
          rwa [List.mem_append, not_or] at this
        refine ⟨a ++ [q], b, by rw [hsplit]; simp, ?_, fun y _ => ?_, fun x => ?_⟩
        · rw [grown, hsplit, insert_after_some hnot.1]
        · rw [hsplit]
          simp [pair_sublist_behind hnot.1 hnot.2]
        · rw [hsplit]
          simp [pair_sublist_before hnot.1 hnot.2, or_comm]
    have hznot : z ∉ a ++ b := by
      rw [← hold, hmem]
      exact hz
    have hza : z ∉ a ∧ z ∉ b := by rwa [List.mem_append, not_or] at hznot
    rw [hnew]
    refine ⟨?_, fun x => ?_, fun x y => ?_⟩
    · rw [List.nodup_middle, List.nodup_cons, ← hold]
      exact ⟨by rwa [hold], hnodup⟩
    · have hx := hmem x
      rw [hold, List.mem_append] at hx
      rw [List.mem_append, List.mem_cons, List.map_cons, List.mem_cons, ← hx]
      tauto
    · rw [Before]
      by_cases hxz : x = z
      · subst hxz
        rw [if_pos rfl, pair_sublist_behind hza.1 hza.2]
        constructor
        · intro hy
          have hyold : y ∈ grown older := by
            rw [hold]
            exact List.mem_append_right a hy
          exact ⟨(hmem y).mp hyold, fun q hq => (hpair q y).mp ((hbehind y hyold).mp hy q hq)⟩
        · rintro ⟨hy, hrest⟩
          exact (hbehind y ((hmem y).mpr hy)).mpr fun q hq => (hpair q y).mpr (hrest q hq)
      · rw [if_neg hxz]
        by_cases hyz : y = z
        · subst hyz
          rw [if_pos rfl, pair_sublist_before hza.1 hza.2, hbefore]
          simp only [hpair]
        · rw [if_neg hyz, pair_sublist_other hxz hyz hznot, ← hold, hpair]

theorem Anchored.nodup {known : List (α × Option α)} (h : Anchored known) : (grown known).Nodup :=
  (grown_spec h).1

theorem mem_grown {known : List (α × Option α)} (h : Anchored known) {x : α} :
    x ∈ grown known ↔ x ∈ known.map Prod.fst := (grown_spec h).2.1 x

end yocto.insertions
