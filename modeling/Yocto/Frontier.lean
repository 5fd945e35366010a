-- Sets that grow by neighbours: by those of what came last, as a loop over a frontier has it,
-- or by those of one node, in a recursion that marks what it meets.
import Mathlib.Data.Finset.Union
import Mathlib.Logic.Relation
import Mathlib.Tactic

namespace yocto.frontier

variable {α : Type} [DecidableEq α]

/-- The orders in which sets are iterated, one for each time that it happens. -/
structure Iteration (α : Type) [DecidableEq α] where
  order : Nat → Finset α → List α
  nodup : ∀ n s, (order n s).Nodup
  toFinset : ∀ n s, (order n s).toFinset = s

/-! ## The loop over a frontier -/

/-- The loop: the frontier joins the set, and what is next to it and not in the set is the new frontier.
None when it has not ended after `turns`. -/
def spread (nbr : α → Finset α) : Nat → Finset α → Finset α → Option (Finset α)
  | 0, _, _ => none
  | turns + 1, total, next =>
    if next = ∅ then some total
    else spread nbr turns (total ∪ next) (next.biUnion nbr \ (total ∪ next))

variable {nbr : α → Finset α}

theorem mem_or_reached {total next : Finset α} (hclosed : ∀ x ∈ total, nbr x ⊆ total ∪ next) {a x : α}
    (ha : a ∈ total ∪ next) (h : Relation.ReflTransGen (fun a b => b ∈ nbr a) a x) :
    x ∈ total ∨ ∃ s ∈ next, Relation.ReflTransGen (fun a b => b ∈ nbr a) s x := by
  induction h with
  | refl =>
    rcases Finset.mem_union.mp ha with ha | ha
    · exact Or.inl ha
    · exact Or.inr ⟨a, ha, .refl⟩
  | tail _ hstep ih =>
    rcases ih with hmem | ⟨s, hs, hreach⟩
    · rcases Finset.mem_union.mp (hclosed _ hmem hstep) with h | h
      · exact Or.inl h
      · exact Or.inr ⟨_, h, .refl⟩
    · exact Or.inr ⟨s, hs, hreach.tail hstep⟩

theorem spread_spec (world : Finset α) (hworld : ∀ x ∈ world, nbr x ⊆ world) {turns : Nat}
    {total next : Finset α} (hnext : next ⊆ world) (hdisjoint : Disjoint total next)
    (hclosed : ∀ x ∈ total, nbr x ⊆ total ∪ next) (hturns : (world \ total).card < turns) :
    ∃ result, spread nbr turns total next = some result ∧
      ∀ x, x ∈ result ↔ x ∈ total ∨ ∃ s ∈ next, Relation.ReflTransGen (fun a b => b ∈ nbr a) s x := by
  induction turns generalizing total next with
  | zero => omega
  | succ turns ih =>
    rw [spread]
    by_cases hempty : next = ∅
    · subst hempty
      exact ⟨total, if_pos rfl, by simp⟩
    · rw [if_neg hempty]
      have hless : (world \ (total ∪ next)).card < (world \ total).card := by
        obtain ⟨x, hx⟩ := Finset.nonempty_iff_ne_empty.mpr hempty
        refine Finset.card_lt_card ⟨Finset.sdiff_subset_sdiff Finset.Subset.rfl Finset.subset_union_left, ?_⟩
        intro hsub
        have hmem : x ∈ world \ total :=
          Finset.mem_sdiff.mpr ⟨hnext hx, fun ht => (Finset.disjoint_left.mp hdisjoint ht) hx⟩
        exact (Finset.mem_sdiff.mp (hsub hmem)).2 (Finset.mem_union_right total hx)
      have hclosed' : ∀ x ∈ total ∪ next, nbr x ⊆ (total ∪ next) ∪ (next.biUnion nbr \ (total ∪ next)) := by
        intro x hx y hy
        rw [Finset.union_sdiff_self_eq_union, Finset.mem_union, Finset.mem_biUnion]
        rcases Finset.mem_union.mp hx with hx | hx
        · exact Or.inl (hclosed x hx hy)
        · exact Or.inr ⟨x, hx, hy⟩
      have hnext' : next.biUnion nbr \ (total ∪ next) ⊆ world := by
        intro y hy
        obtain ⟨x, hx, hxy⟩ := Finset.mem_biUnion.mp (Finset.mem_sdiff.mp hy).1
        exact hworld x (hnext hx) hxy
      obtain ⟨result, hresult, hmem⟩ := ih hnext' Finset.disjoint_sdiff hclosed' (by omega)
      refine ⟨result, hresult, fun x => ?_⟩
      rw [hmem]
      constructor
      · rintro (hx | ⟨s, hs, hreach⟩)
        · rcases Finset.mem_union.mp hx with hx | hx
          · exact Or.inl hx
          · exact Or.inr ⟨x, hx, .refl⟩
        · obtain ⟨a, ha, has⟩ := Finset.mem_biUnion.mp (Finset.mem_sdiff.mp hs).1
          exact Or.inr ⟨a, ha, .head has hreach⟩
      · rintro (hx | ⟨s, hs, hreach⟩)
        · exact Or.inl (Finset.mem_union_left next hx)
        · have hstart : s ∈ (total ∪ next) ∪ (next.biUnion nbr \ (total ∪ next)) :=
            Finset.mem_union_left _ (Finset.mem_union_right total hs)
          exact mem_or_reached hclosed' hstart hreach

/-! ## Relations that agree -/

omit [DecidableEq α] in
theorem reach_congr {r r' : α → α → Prop} {p : α → Prop} (hp : ∀ x y, p x → r x y → p y)
    (hr : ∀ x, p x → ∀ y, r x y ↔ r' x y) {x y : α} (hx : p x) :
    Relation.ReflTransGen r x y ↔ Relation.ReflTransGen r' x y := by
  have hto : ∀ {z}, Relation.ReflTransGen r x z → p z := by
    intro z hway
    induction hway with
    | refl => exact hx
    | tail _ hstep ih => exact hp _ _ ih hstep
  constructor
  · intro hway
    induction hway with
    | refl => exact .refl
    | tail hway hstep ih => exact ih.tail ((hr _ (hto hway) _).mp hstep)
  · intro hway
    induction hway with
    | refl => exact .refl
    | tail _ hstep ih => exact ih.tail ((hr _ (hto ih) _).mpr hstep)

/-! ## The recursion that marks -/

/-- A node is marked, and then its neighbours. None where a node has no list of neighbours, or where
the recursion goes deeper than `depth`. -/
def mark (nbrs : α → Option (List α)) : Nat → List α → α → Option (List α)
  | 0, _, _ => none
  | depth + 1, marked, x =>
    if x ∈ marked then some marked
    else (nbrs x).bind fun ys => ys.foldlM (mark nbrs depth) (marked ++ [x])

/-- `b` is a neighbour of `a`. -/
def Next (nbrs : α → Option (List α)) (a b : α) : Prop := ∃ ys, nbrs a = some ys ∧ b ∈ ys

/-- The nodes of a list have all their neighbours in it. -/
def World (nbrs : α → Option (List α)) (world : List α) : Prop :=
  ∀ x ∈ world, ∃ ys, nbrs x = some ys ∧ ∀ y ∈ ys, y ∈ world

/-- The marks, once those of some starts are added. -/
structure Marked (nbrs : α → Option (List α)) (world marked starts marked' : List α) : Prop where
  nodup : marked'.Nodup
  inside : ∀ x ∈ marked', x ∈ world
  kept : ∀ x ∈ marked, x ∈ marked'
  begun : ∀ x ∈ starts, x ∈ marked'
  closed : ∀ x ∈ marked', x ∉ marked → ∀ y, Next nbrs x y → y ∈ marked'
  reached : ∀ x ∈ marked', x ∈ marked ∨ ∃ s ∈ starts, Relation.ReflTransGen (Next nbrs) s x

section
variable {nbrs : α → Option (List α)} {world : List α}

omit [DecidableEq α] in
theorem Marked.nil {marked : List α} (hnodup : marked.Nodup) (hin : ∀ x ∈ marked, x ∈ world) :
    Marked nbrs world marked [] marked :=
  ⟨hnodup, hin, fun _ h => h, by simp, fun _ h hnot => absurd h hnot, fun _ h => Or.inl h⟩

omit [DecidableEq α] in
theorem Marked.cons {marked m m' xs : List α} {x : α} (h : Marked nbrs world marked [x] m)
    (h' : Marked nbrs world m xs m') : Marked nbrs world marked (x :: xs) m' where
  nodup := h'.nodup
  inside := h'.inside
  kept := fun y hy => h'.kept y (h.kept y hy)
  begun := by
    intro y hy
    rcases List.mem_cons.mp hy with rfl | hy
    · exact h'.kept y (h.begun y List.mem_cons_self)
    · exact h'.begun y hy
  closed := by
    intro y hy hnot z hz
    by_cases hm : y ∈ m
    · exact h'.kept z (h.closed y hm hnot z hz)
    · exact h'.closed y hy hm z hz
  reached := by
    intro y hy
    rcases h'.reached y hy with hm | ⟨s, hs, hreach⟩
    · rcases h.reached y hm with hold | ⟨s, hs, hreach⟩
      · exact Or.inl hold
      · exact Or.inr ⟨s, List.mem_cons.mpr (Or.inl (List.mem_singleton.mp hs)), hreach⟩
    · exact Or.inr ⟨s, List.mem_cons_of_mem _ hs, hreach⟩

omit [DecidableEq α] in
theorem marked_fold {f : List α → α → Option (List α)} {depth : Nat}
    (hf : ∀ marked x, marked.Nodup → (∀ y ∈ marked, y ∈ world) → x ∈ world → world.length < depth + marked.length →
      ∃ marked', f marked x = some marked' ∧ Marked nbrs world marked [x] marked')
    (xs : List α) (hxs : ∀ x ∈ xs, x ∈ world) {marked : List α} (hnodup : marked.Nodup)
    (hin : ∀ y ∈ marked, y ∈ world) (hdepth : world.length < depth + marked.length) :
    ∃ marked', xs.foldlM f marked = some marked' ∧ Marked nbrs world marked xs marked' := by
  induction xs generalizing marked with
  | nil => exact ⟨marked, rfl, Marked.nil hnodup hin⟩
  | cons x xs ih =>
    obtain ⟨m, hm, hmarked⟩ := hf marked x hnodup hin (hxs x List.mem_cons_self) hdepth
    have hlen : marked.length ≤ m.length := (hnodup.subperm hmarked.kept).length_le
    obtain ⟨m', hm', hrest⟩ := ih (fun y hy => hxs y (List.mem_cons_of_mem _ hy)) hmarked.nodup hmarked.inside
      (by omega)
    refine ⟨m', ?_, hmarked.cons hrest⟩
    rw [List.foldlM_cons, hm]
    exact hm'

theorem mark_spec (hworld : World nbrs world) (depth : Nat) :
    ∀ marked x, marked.Nodup → (∀ y ∈ marked, y ∈ world) → x ∈ world → world.length < depth + marked.length →
      ∃ marked', mark nbrs depth marked x = some marked' ∧ Marked nbrs world marked [x] marked' := by
  induction depth with
  | zero =>
    intro marked x hnodup hin _ hdepth
    have := (hnodup.subperm hin).length_le
    omega
  | succ depth ih =>
    intro marked x hnodup hin hx hdepth
    rw [mark]
    by_cases hmem : x ∈ marked
    · rw [if_pos hmem]
      refine ⟨marked, rfl, ⟨hnodup, hin, fun _ h => h, fun y hy => ?_, fun _ h hnot => absurd h hnot,
        fun _ h => Or.inl h⟩⟩
      rwa [List.mem_singleton.mp hy]
    · rw [if_neg hmem]
      obtain ⟨ys, hys, hinside⟩ := hworld x hx
      have hnodup' : (marked ++ [x]).Nodup := by
        refine hnodup.append (List.nodup_singleton x) ?_
        simpa using hmem
      have hin' : ∀ y ∈ marked ++ [x], y ∈ world := by
        intro y hy
        rcases List.mem_append.mp hy with hy | hy
        · exact hin y hy
        · rwa [List.mem_singleton.mp hy]
      obtain ⟨m, hm, h⟩ := marked_fold ih ys hinside hnodup' hin'
        (by rw [List.length_append, List.length_singleton]; omega)
      refine ⟨m, by rw [hys]; exact hm, ?_⟩
      refine ⟨h.nodup, h.inside, fun y hy => h.kept y (List.mem_append_left _ hy), fun y hy => ?_, fun y hy hnot z hz => ?_,
        fun y hy => ?_⟩
      · rw [List.mem_singleton.mp hy]
        exact h.kept x (List.mem_append_right _ List.mem_cons_self)
      · by_cases hyx : y = x
        · subst hyx
          obtain ⟨zs, hzs, hzmem⟩ := hz
          rw [hys] at hzs
          exact h.begun z (Option.some.inj hzs ▸ hzmem)
        · exact h.closed y hy (by simp [hnot, hyx]) z hz
      · rcases h.reached y hy with hold | ⟨s, hs, hreach⟩
        · rcases List.mem_append.mp hold with hold | hold
          · exact Or.inl hold
          · rw [List.mem_singleton.mp hold]
            exact Or.inr ⟨x, List.mem_cons_self, .refl⟩
        · exact Or.inr ⟨x, List.mem_cons_self, .head ⟨ys, hys, hs⟩ hreach⟩

/-- The marks are all that can be reached from the starts. -/
structure IsClosure (nbrs : α → Option (List α)) (world starts marked : List α) : Prop where
  nodup : marked.Nodup
  inside : ∀ x ∈ marked, x ∈ world
  mem_iff : ∀ x, x ∈ marked ↔ ∃ s ∈ starts, Relation.ReflTransGen (Next nbrs) s x

omit [DecidableEq α] in
theorem IsClosure.nil : IsClosure nbrs world [] [] := ⟨List.nodup_nil, by simp, by simp⟩

omit [DecidableEq α] in
theorem IsClosure.closed {starts marked : List α} (h : IsClosure nbrs world starts marked) {x y : α}
    (hx : x ∈ marked) (hxy : Next nbrs x y) : y ∈ marked := by
  obtain ⟨s, hs, hreach⟩ := (h.mem_iff x).mp hx
  exact (h.mem_iff y).mpr ⟨s, hs, hreach.tail hxy⟩

theorem IsClosure.mark {starts marked : List α} (h : IsClosure nbrs world starts marked)
    (hworld : World nbrs world) {depth : Nat} (hdepth : world.length < depth) (xs : List α)
    (hxs : ∀ x ∈ xs, x ∈ world) :
    ∃ marked', xs.foldlM (frontier.mark nbrs depth) marked = some marked' ∧
      IsClosure nbrs world (starts ++ xs) marked' := by
  obtain ⟨m, hm, hmarked⟩ := marked_fold (mark_spec hworld depth) xs hxs h.nodup h.inside (by omega)
  have hclosed : ∀ x ∈ m, ∀ y, Next nbrs x y → y ∈ m := by
    intro x hx y hxy
    by_cases hold : x ∈ marked
    · exact hmarked.kept y (h.closed hold hxy)
    · exact hmarked.closed x hx hold y hxy
  have hreachable : ∀ s ∈ m, ∀ x, Relation.ReflTransGen (Next nbrs) s x → x ∈ m := by
    intro s hs x hreach
    induction hreach with
    | refl => exact hs
    | tail _ hstep ih => exact hclosed _ ih _ hstep
  refine ⟨m, hm, hmarked.nodup, hmarked.inside, fun x => ⟨fun hx => ?_, fun ⟨s, hs, hreach⟩ => ?_⟩⟩
  · rcases hmarked.reached x hx with hold | ⟨s, hs, hreach⟩
    · obtain ⟨s, hs, hreach⟩ := (h.mem_iff x).mp hold
      exact ⟨s, List.mem_append_left _ hs, hreach⟩
    · exact ⟨s, List.mem_append_right _ hs, hreach⟩
  · refine hreachable s ?_ x hreach
    rcases List.mem_append.mp hs with hs | hs
    · exact hmarked.kept s ((h.mem_iff s).mpr ⟨s, hs, .refl⟩)
    · exact hmarked.begun s hs

end

end yocto.frontier
