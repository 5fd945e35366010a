-- Which variant takes the place of a variable: the loop of `getVarFlag` in data_smart.py over
-- the active variants.
import Yocto.Assignments

open yocto.list_search yocto.task_ids yocto.ordered_dict yocto.raising yocto.data_smart
open yocto.assignments (Store last_colon next_override override_names overrides_of override_name)

namespace yocto.override_choice

/-! ## What the loop does to one name -/

/-- The name of a variant comes down to an override, part by part. -/
inductive ComesDown (overrides : List Text) : Text → Prop
  | there {a : Text} : a ∈ overrides → ComesDown overrides a
  | part {a o : Text} : o ∈ overrides → ':' :: o <:+ a →
      ComesDown overrides (replace (':' :: o) [] a) → ComesDown overrides a

/-- All parts of the name are overrides. -/
def Active (overrides : List Text) (o : Text) : Prop := ∀ part ∈ o.splitOn ':', part ∈ overrides

theorem last_part_unique {a o o' : Text} (ho : ':' ∉ o) (ho' : ':' ∉ o') (h : ':' :: o <:+ a)
    (h' : ':' :: o' <:+ a) : o = o' := by
  rcases List.suffix_or_suffix_of_suffix h h' with hs | hs
  · rcases List.suffix_cons_iff.mp hs with heq | hs
    · exact (List.cons.inj heq).2
    · exact absurd (hs.subset List.mem_cons_self) ho'
  · rcases List.suffix_cons_iff.mp hs with heq | hs
    · exact (List.cons.inj heq).2.symm
    · exact absurd (hs.subset List.mem_cons_self) ho

section
variable {overrides : List Text}

theorem ComesDown.of_part {a o : Text} (hcolon : ∀ o ∈ overrides, ':' ∉ o) (ho : o ∈ overrides)
    (hsuffix : ':' :: o <:+ a) (h : ComesDown overrides a) :
    ComesDown overrides (replace (':' :: o) [] a) := by
  cases h with
  | there ha => exact absurd (hsuffix.subset List.mem_cons_self) (hcolon a ha)
  | part ho' hsuffix' h' =>
    rw [last_part_unique (hcolon _ ho) (hcolon _ ho') hsuffix hsuffix']
    exact h'

/-! ## One turn -/

/-- What the loop works on: the active variants by what is left of their names, the variant that
it found, and whether it changed a name. -/
abbrev Round := OrderedDict Text Text × Option Text × Bool

/-- Some name comes down, or a variant was found. -/
def Hopeful (overrides : List Text) (acc : Round) : Prop :=
  acc.2.1.isSome ∨ ∃ a ∈ acc.1.map Prod.fst, ComesDown overrides a

/-- The variants that are left and the one that was found are among those at the start. -/
def From (variants : List Text) (acc : Round) : Prop :=
  (∀ x ∈ acc.1, x.2 ∈ variants) ∧ ∀ r, acc.2.1 = some r → r ∈ variants

theorem exists_get? {d : OrderedDict Text Text} {a : Text} (h : a ∈ d.map Prod.fst) :
    ∃ t, d.get? a = some t := by
  obtain ⟨x, hx, rfl⟩ := List.mem_map.mp h
  have hsome : (d.find? fun y => y.1 = x.1).isSome := by
    rw [List.find?_isSome]
    exact ⟨x, hx, by simp⟩
  obtain ⟨y, hy⟩ := Option.isSome_iff_exists.mp hsome
  exact ⟨y.2, by rw [OrderedDict.get?, hy, Option.map_some]⟩

theorem key_del {d : OrderedDict Text Text} {a k : Text} :
    k ∈ (d.del a).map Prod.fst ↔ k ∈ d.map Prod.fst ∧ k ≠ a := by
  simp only [OrderedDict.del, List.mem_map, List.mem_filter, decide_eq_true_eq]
  constructor
  · rintro ⟨x, ⟨hx, hne⟩, rfl⟩
    exact ⟨⟨x, hx, rfl⟩, hne⟩
  · rintro ⟨⟨x, hx, rfl⟩, hne⟩
    exact ⟨x, ⟨hx, hne⟩, rfl⟩

theorem match_key_hopeful (hcolon : ∀ o ∈ overrides, ':' ∉ o) {o : Text} (ho : o ∈ overrides)
    (acc : Round) (a : Text) :
    Hopeful overrides (match_key o acc a) ↔ Hopeful overrides acc := by
  unfold match_key
  split
  · exact Iff.rfl
  · rename_i t hget
    have ha : a ∈ acc.1.map Prod.fst := List.mem_map.mpr ⟨_, OrderedDict.mem_of_get? hget, rfl⟩
    split
    · rename_i hsuffix
      unfold Hopeful
      apply or_congr Iff.rfl
      constructor
      · rintro ⟨k, hk, hdown⟩
        rcases OrderedDict.key_set.mp hk with hk | rfl
        · exact ⟨k, (key_del.mp hk).1, hdown⟩
        · exact ⟨a, ha, .part ho hsuffix hdown⟩
      · rintro ⟨k, hk, hdown⟩
        by_cases hka : k = a
        · subst hka
          exact ⟨_, OrderedDict.key_set.mpr (Or.inr rfl), hdown.of_part hcolon ho hsuffix⟩
        · exact ⟨k, OrderedDict.key_set.mpr (Or.inl (key_del.mpr ⟨hk, hka⟩)), hdown⟩
    · split
      · rename_i heq
        apply iff_of_true
        · exact Or.inl rfl
        · exact Or.inr ⟨a, ha, .there (heq ▸ ho)⟩
      · exact Iff.rfl

theorem match_key_from {variants : List Text} {o a : Text} {acc : Round} (h : From variants acc) :
    From variants (match_key o acc a) := by
  unfold match_key
  split
  · exact h
  · rename_i t hget
    have ht : t ∈ variants := h.1 _ (OrderedDict.mem_of_get? hget)
    have hdel : ∀ x ∈ acc.1.del a, x.2 ∈ variants := fun x hx => h.1 x (List.mem_filter.mp hx).1
    split
    · refine ⟨fun x hx => ?_, h.2⟩
      rcases OrderedDict.mem_of_mem_set hx with hx | rfl
      · exact hdel x hx
      · exact ht
    · split
      · refine ⟨hdel, fun r hr => ?_⟩
        obtain rfl := Option.some.inj hr
        exact ht
      · exact h

/-! ## The names get shorter -/

/-- What is left of the names, and one more for a round that is to follow. -/
def work (acc : Round) : Nat :=
  (acc.1.map fun x => x.1.length).sum + if acc.2.2 then 1 else 0

theorem sum_del_le {d : OrderedDict Text Text} {a : Text} (h : a ∈ d.map Prod.fst) :
    ((d.del a).map fun x => x.1.length).sum + a.length ≤ (d.map fun x => x.1.length).sum := by
  induction d with
  | nil => simp at h
  | cons x d ih =>
    have hle : ((OrderedDict.del d a).map fun x => x.1.length).sum ≤
        (d.map fun x => x.1.length).sum :=
      (List.Sublist.map _ List.filter_sublist).sum_le_sum (by simp)
    by_cases hx : x.1 = a
    · have hdel : OrderedDict.del (x :: d) a = OrderedDict.del d a := by simp [OrderedDict.del, hx]
      rw [hdel, List.map_cons, List.sum_cons, hx]
      omega
    · have hdel : OrderedDict.del (x :: d) a = x :: OrderedDict.del d a := by
        simp [OrderedDict.del, hx]
      have hrest := ih (by simpa [Ne.symm hx] using h)
      rw [hdel, List.map_cons, List.map_cons, List.sum_cons, List.sum_cons]
      omega

theorem sum_set_le (d : OrderedDict Text Text) (k t : Text) :
    ((d.set k t).map fun x => x.1.length).sum ≤ (d.map fun x => x.1.length).sum + k.length := by
  unfold OrderedDict.set
  split
  · have hsame : ((d.map fun x => if x.1 = k then (k, t) else x).map fun x => x.1.length) =
        d.map fun x => x.1.length := by
      rw [List.map_map]
      apply List.map_congr_left
      intro x _
      by_cases hx : x.1 = k <;> simp [hx]
    rw [hsame]
    omega
  · simp

theorem match_key_work (o : Text) (acc : Round) (a : Text) :
    work (match_key o acc a) ≤ work acc := by
  unfold match_key
  split
  · exact le_rfl
  · rename_i t hget
    have hdel := sum_del_le (List.mem_map.mpr ⟨_, OrderedDict.mem_of_get? hget, rfl⟩)
    split
    · rename_i hsuffix
      have hshort : (replace (':' :: o) [] a).length < a.length :=
        length_remove_lt (List.cons_ne_nil _ _) hsuffix.isInfix
      have hset := sum_set_le (acc.1.del a) (replace (':' :: o) [] a) t
      simp only [work, if_true] at *
      omega
    · split
      · simp only [work] at *
        omega
      · exact le_rfl

/-! ## A round -/

/-- An override is tried on the names that are there. -/
def pass (acc : Round) (o : Text) : Round := (acc.1.map Prod.fst).foldl (match_key o) acc

theorem round_eq (overrides : List Text) (active : OrderedDict Text Text) (found : Option Text) :
    match_round overrides active found = overrides.foldl pass (active, found, false) := rfl

theorem fold_invariant {α β : Type} {f : β → α → β} {I : β → Prop} {as : List α} {b : β} (h : I b)
    (hstep : ∀ b, ∀ a ∈ as, I b → I (f b a)) : I (as.foldl f b) := by
  induction as generalizing b with
  | nil => exact h
  | cons a as ih =>
    rw [List.foldl_cons]
    apply ih (hstep b a List.mem_cons_self h)
    intro b a ha
    exact hstep b a (List.mem_cons_of_mem _ ha)

theorem pass_hopeful (hcolon : ∀ o ∈ overrides, ':' ∉ o) {o : Text} (ho : o ∈ overrides)
    (acc : Round) : Hopeful overrides (pass acc o) ↔ Hopeful overrides acc := by
  unfold pass
  refine fold_invariant (I := fun acc' => Hopeful overrides acc' ↔ Hopeful overrides acc) Iff.rfl ?_
  intro acc' a _ h
  exact (match_key_hopeful hcolon ho acc' a).trans h

theorem round_hopeful (hcolon : ∀ o ∈ overrides, ':' ∉ o) (active : OrderedDict Text Text)
    (found : Option Text) :
    Hopeful overrides (match_round overrides active found) ↔
      Hopeful overrides (active, found, false) := by
  rw [round_eq]
  refine fold_invariant
    (I := fun acc => Hopeful overrides acc ↔ Hopeful overrides (active, found, false)) Iff.rfl ?_
  intro acc o ho h
  exact (pass_hopeful hcolon ho acc).trans h

theorem round_from {variants : List Text} {active : OrderedDict Text Text} {found : Option Text}
    (h : From variants (active, found, false)) :
    From variants (match_round overrides active found) := by
  rw [round_eq]
  refine fold_invariant h fun acc o _ hacc => ?_
  exact fold_invariant hacc fun acc' a _ hacc' => match_key_from hacc'

theorem round_work (overrides : List Text) (active : OrderedDict Text Text) (found : Option Text) :
    work (match_round overrides active found) ≤ (active.map fun x => x.1.length).sum := by
  rw [round_eq]
  refine fold_invariant (I := fun acc => work acc ≤ (active.map fun x => x.1.length).sum) le_rfl ?_
  intro acc o _ hacc
  refine fold_invariant (I := fun acc => work acc ≤ (active.map fun x => x.1.length).sum) hacc ?_
  intro acc' a _ hacc'
  exact (match_key_work o acc' a).trans hacc'

/-! ## The last round -/

def Stuck (o k : Text) : Prop := ¬(':' :: o <:+ k) ∧ k ≠ o

theorem keys_stuck {o : Text} {as : List Text} {acc : Round}
    (h : (as.foldl (match_key o) acc).2.2 = false) :
    acc.2.2 = false ∧ ∀ k ∈ (as.foldl (match_key o) acc).1.map Prod.fst,
      k ∈ acc.1.map Prod.fst ∧ (k ∈ as → Stuck o k) := by
  induction as generalizing acc with
  | nil => exact ⟨h, fun k hk => ⟨hk, fun hmem => nomatch hmem⟩⟩
  | cons a as ih =>
    rw [List.foldl_cons] at h ⊢
    obtain ⟨hmod, hkeys⟩ := ih h
    -- the name of this turn is not there, or it was changed, or found, or left as it is
    have hturn : acc.2.2 = false ∧ ∀ k ∈ (match_key o acc a).1.map Prod.fst,
        k ∈ acc.1.map Prod.fst ∧ (k = a → Stuck o k) := by
      clear hkeys
      unfold match_key at hmod ⊢
      split
      · rename_i hnone
        rw [hnone] at hmod
        refine ⟨hmod, fun k hk => ⟨hk, ?_⟩⟩
        rintro rfl
        obtain ⟨t, ht⟩ := exists_get? hk
        rw [ht] at hnone
        cases hnone
      · rename_i t hget
        rw [hget] at hmod
        dsimp only at hmod
        split
        · rename_i hsuffix
          rw [if_pos hsuffix] at hmod
          cases hmod
        · rename_i hsuffix
          rw [if_neg hsuffix] at hmod
          split
          · rename_i heq
            rw [if_pos heq] at hmod
            exact ⟨hmod, fun k hk => ⟨(key_del.mp hk).1, fun hka => absurd hka (key_del.mp hk).2⟩⟩
          · rename_i hne
            rw [if_neg hne] at hmod
            exact ⟨hmod, fun k hk => ⟨hk, fun hka => hka ▸ ⟨hsuffix, hne⟩⟩⟩
    refine ⟨hturn.1, fun k hk => ?_⟩
    obtain ⟨hmem, hstuck⟩ := hkeys k hk
    obtain ⟨hkey, hthis⟩ := hturn.2 k hmem
    refine ⟨hkey, fun hkas => ?_⟩
    rcases List.mem_cons.mp hkas with hka | hkas
    · exact hthis hka
    · exact hstuck hkas

theorem passes_stuck {os : List Text} {acc : Round} (h : (os.foldl pass acc).2.2 = false) :
    acc.2.2 = false ∧ ∀ k ∈ (os.foldl pass acc).1.map Prod.fst,
      k ∈ acc.1.map Prod.fst ∧ ∀ o ∈ os, Stuck o k := by
  induction os generalizing acc with
  | nil => exact ⟨h, fun k hk => ⟨hk, fun o ho => nomatch ho⟩⟩
  | cons o os ih =>
    rw [List.foldl_cons] at h ⊢
    obtain ⟨hmod, hkeys⟩ := ih h
    obtain ⟨hstart, hpass⟩ := keys_stuck hmod
    refine ⟨hstart, fun k hk => ?_⟩
    obtain ⟨hmem, hothers⟩ := hkeys k hk
    obtain ⟨hkey, hthis⟩ := hpass k hmem
    exact ⟨hkey, List.forall_mem_cons.mpr ⟨hthis hkey, hothers⟩⟩

theorem last_round {active active' : OrderedDict Text Text} {found found' : Option Text}
    (hround : match_round overrides active found = (active', found', false)) :
    Hopeful overrides (active', found', false) ↔ found'.isSome := by
  have hlast : (overrides.foldl pass (active, found, false)).2.2 = false := by
    rw [← round_eq, hround]
  have hstuck := (passes_stuck hlast).2
  rw [← round_eq, hround] at hstuck
  refine ⟨fun h => ?_, Or.inl⟩
  rcases h with h | ⟨k, hk, hdown⟩
  · exact h
  · exfalso
    cases hdown with
    | there ha => exact ((hstuck k hk).2 k ha).2 rfl
    | part ho hsuffix _ => exact ((hstuck k hk).2 _ ho).1 hsuffix

/-! ## The loop -/

inductive Ends (overrides : List Text) : OrderedDict Text Text → Option Text → Option Text → Prop
  | last {active active' : OrderedDict Text Text} {found found' : Option Text} :
      match_round overrides active found = (active', found', false) →
      Ends overrides active found found'
  | again {active active' : OrderedDict Text Text} {found found' result : Option Text} :
      match_round overrides active found = (active', found', true) →
      Ends overrides active' found' result → Ends overrides active found result

theorem match_loop_ends {turns : Nat} {active : OrderedDict Text Text} {found : Option Text}
    (h : (active.map fun x => x.1.length).sum < turns) :
    Ends overrides active found (match_loop overrides turns active found) := by
  induction turns generalizing active found with
  | zero => omega
  | succ turns ih =>
    rw [match_loop]
    have hwork := round_work overrides active found
    rcases hround : match_round overrides active found with ⟨active', found', again⟩
    rw [hround] at hwork
    cases again with
    | false => exact .last hround
    | true =>
      simp only [work, if_true] at hwork
      exact .again hround (ih (by omega))

theorem Ends.isSome {active : OrderedDict Text Text} {found result : Option Text}
    (hcolon : ∀ o ∈ overrides, ':' ∉ o) (h : Ends overrides active found result) :
    result.isSome ↔ Hopeful overrides (active, found, false) := by
  induction h with
  | last hround => rw [← round_hopeful hcolon, hround, last_round hround]
  | @again active active' found found' result hround _ ih =>
    have hsame := round_hopeful hcolon active found
    rw [hround] at hsame
    exact ih.trans hsame

theorem Ends.from {variants : List Text} {active : OrderedDict Text Text}
    {found result : Option Text} (h : Ends overrides active found result)
    (hfrom : From variants (active, found, false)) : ∀ r, result = some r → r ∈ variants := by
  induction h with
  | last hround =>
    have hleft : From variants (match_round overrides _ _) := round_from hfrom
    rw [hround] at hleft
    exact hleft.2
  | again hround _ ih =>
    have hleft : From variants (match_round overrides _ _) := round_from hfrom
    rw [hround] at hleft
    exact ih hleft

/-! ## The active variants -/

theorem active_iff (hcolon : ∀ o ∈ overrides, ':' ∉ o) (o : Text) :
    (o ∈ overrides ∨ ':' ∈ o ∧ ∀ part ∈ o.splitOn ':', part ∈ overrides) ↔ Active overrides o := by
  by_cases ho : ':' ∈ o
  · have hout : o ∉ overrides := fun h => hcolon o h ho
    simp [hout, ho, Active]
  · simp [ho, Active, List.splitOn_eq_singleton ho]

theorem key_active (hcolon : ∀ o ∈ overrides, ':' ∉ o) (data : List (Text × Text)) (k : Text) :
    k ∈ (active_overrides overrides data).map Prod.fst ↔
      ∃ x ∈ data, x.2 = k ∧ Active overrides k := by
  unfold active_overrides
  suffices h : ∀ start : OrderedDict Text Text, k ∈ (data.foldl (fun active x =>
      if x.2 ∈ overrides ∨ ':' ∈ x.2 ∧ ∀ part ∈ x.2.splitOn ':', part ∈ overrides then
        OrderedDict.set active x.2 x.1 else active) start).map Prod.fst ↔
      k ∈ start.map Prod.fst ∨ ∃ x ∈ data, x.2 = k ∧ Active overrides k by
    exact (h []).trans (by simp)
  induction data with
  | nil => simp
  | cons x data ih =>
    intro start
    rw [List.foldl_cons, ih, List.exists_mem_cons_iff]
    split
    · rename_i hactive
      rw [active_iff hcolon] at hactive
      rw [OrderedDict.key_set, or_assoc, eq_comm (a := k)]
      refine or_congr Iff.rfl (or_congr ⟨fun h => ⟨h, h ▸ hactive⟩, And.left⟩ Iff.rfl)
    · rename_i hactive
      rw [active_iff hcolon] at hactive
      apply or_congr Iff.rfl
      rw [or_iff_right]
      rintro ⟨rfl, h⟩
      exact hactive h

def active_variants (overrides : List Text) (data : List (Text × Text)) : List Text :=
  (data.filter fun x => (x.2.splitOn ':').all (· ∈ overrides)).map Prod.fst

theorem mem_active_variants {data : List (Text × Text)} {r : Text} :
    r ∈ active_variants overrides data ↔ ∃ x ∈ data, Active overrides x.2 ∧ x.1 = r := by
  simp only [active_variants, Active, List.mem_map, List.mem_filter, List.all_eq_true,
    decide_eq_true_eq, and_assoc]

theorem value_active (hcolon : ∀ o ∈ overrides, ':' ∉ o) (data : List (Text × Text)) :
    ∀ y ∈ active_overrides overrides data, y.2 ∈ active_variants overrides data := by
  unfold active_overrides
  refine fold_invariant (I := fun active : OrderedDict Text Text => ∀ y ∈ active,
    y.2 ∈ active_variants overrides data) (fun y hy => nomatch hy) ?_
  intro active x hx h
  dsimp only
  split
  · rename_i hactive
    intro y hy
    rcases OrderedDict.mem_of_mem_set hy with hy | rfl
    · exact h y hy
    · exact mem_active_variants.mpr ⟨x, hx, (active_iff hcolon x.2).mp hactive, rfl⟩
  · exact h

theorem override_match_ends (hcolon : ∀ o ∈ overrides, ':' ∉ o) (data : List (Text × Text))
    (hnames : ∀ x ∈ data, x.1 ≠ []) :
    Ends overrides (active_overrides overrides data) none (override_match overrides data) := by
  have hends := @match_loop_ends overrides _ (active_overrides overrides data) none
    (Nat.lt_succ_self _)
  have hfrom := @Ends.from overrides (active_variants overrides data) _ _ _ hends
    ⟨value_active hcolon data, fun _ hr => nomatch hr⟩
  have hsame : override_match overrides data = match_loop overrides
      (((active_overrides overrides data).map fun x : Text × Text => x.1.length).sum + 1)
      (active_overrides overrides data) none := by
    unfold override_match
    rcases hloop : match_loop overrides _ (active_overrides overrides data) none with _ | r
    · simp only [hloop, Option.filter_none]
    · obtain ⟨x, hx, _, rfl⟩ := mem_active_variants.mp (hfrom r hloop)
      simp only [hloop]
      exact Option.filter_some_pos (by simpa using hnames x hx)
  rw [hsame]
  exact hends

theorem override_match_active (hcolon : ∀ o ∈ overrides, ':' ∉ o) (data : List (Text × Text))
    (hnames : ∀ x ∈ data, x.1 ≠ []) {r : Text} (h : override_match overrides data = some r) :
    r ∈ active_variants overrides data :=
  (override_match_ends hcolon data hnames).from
    ⟨value_active hcolon data, fun _ hr => nomatch hr⟩ r h

theorem override_match_isSome (hcolon : ∀ o ∈ overrides, ':' ∉ o) (data : List (Text × Text))
    (hnames : ∀ x ∈ data, x.1 ≠ []) :
    (override_match overrides data).isSome ↔
      ∃ x ∈ data, Active overrides x.2 ∧ ComesDown overrides x.2 := by
  rw [(override_match_ends hcolon data hnames).isSome hcolon]
  unfold Hopeful
  simp only [Option.isSome_none, Bool.false_eq_true, false_or, key_active hcolon]
  constructor
  · rintro ⟨_, ⟨x, hx, rfl, hactive⟩, hdown⟩
    exact ⟨x, hx, hactive, hdown⟩
  · rintro ⟨x, hx, hactive, hdown⟩
    exact ⟨x.2, ⟨x, hx, rfl, hactive⟩, hdown⟩

end

/-! ## Names that come down -/

section
variable {overrides : List Text}

def path (part : Text) (parts : List Text) : Text := part ++ parts.flatMap (':' :: ·)

theorem replace_part (o : Text) {p : Text} (hp : ':' ∉ p) (s : Text) :
    replace (':' :: o) [] (p ++ s) = p ++ replace (':' :: o) [] s := by
  induction p with
  | nil => rfl
  | cons c p ih =>
    rw [List.mem_cons, not_or] at hp
    have hstart : ¬(':' :: o <+: c :: (p ++ s)) := fun h => hp.1 (List.cons_prefix_cons.mp h).1
    rw [List.cons_append, replace, replaceFrom, if_neg hstart]
    exact congrArg (c :: ·) (ih hp.2)

theorem replace_parts {o : Text} (ho : ':' ∉ o) {parts : List Text} (hcolon : ∀ p ∈ parts, ':' ∉ p)
    (hstart : ∀ p ∈ parts, o <+: p → p = o) :
    replace (':' :: o) [] (parts.flatMap (':' :: ·)) = (parts.filter (· ≠ o)).flatMap (':' :: ·) := by
  induction parts with
  | nil => rfl
  | cons p parts ih =>
    rw [List.forall_mem_cons] at hcolon hstart
    have hrest := ih hcolon.2 hstart.2
    rw [List.flatMap_cons]
    by_cases hp : p = o
    · subst hp
      have hmarker : Marker (':' :: p) := ⟨':', p, rfl, ho⟩
      have hfirst := hmarker.replace_append (a := []) [] (parts.flatMap (':' :: ·))
        (fun h => hmarker.ne_nil (List.infix_nil.mp h))
      rw [List.filter_cons_of_neg (by simp), ← hrest]
      exact hfirst
    · have hnot : ¬(':' :: o <+: ':' :: (p ++ parts.flatMap (':' :: ·))) := by
        intro h
        rcases prefix_append_cases (List.cons_prefix_cons.mp h).2 with h | ⟨q, hq, heq⟩
        · exact hp (hstart.1 h)
        · -- what is behind the part begins with a colon
          cases q with
          | nil => exact hp (by rw [heq, List.append_nil])
          | cons c q =>
            cases parts with
            | nil => simp at hq
            | cons p' parts =>
              rw [List.flatMap_cons, List.cons_append, List.cons_prefix_cons] at hq
              exact ho (by simp [heq, hq.1])
      rw [List.filter_cons_of_pos (by simpa using hp), List.flatMap_cons, List.cons_append,
        List.cons_append, replace, replaceFrom, if_neg hnot, ← hrest]
      exact congrArg (':' :: ·) (replace_part o hcolon.1 _)

/-- A name comes down when none of its parts, but for the first one, begins with another one
that is behind it. -/
theorem comes_down {part : Text} {parts : List Text} (hcolon : ∀ o ∈ overrides, ':' ∉ o)
    (hpart : part ∈ overrides) (hparts : ∀ p ∈ parts, p ∈ overrides)
    (h : parts.Pairwise fun p o => o <+: p → p = o) : ComesDown overrides (path part parts) := by
  induction hn : parts.length using Nat.strong_induction_on generalizing parts with
  | _ n ih =>
    rcases List.eq_nil_or_concat parts with rfl | ⟨before, o, rfl⟩
    · rw [path, List.flatMap_nil, List.append_nil]
      exact .there hpart
    · rw [List.concat_eq_append] at *
      have ho : o ∈ overrides := hparts o (by simp)
      have hbefore : ∀ p ∈ before, p ∈ overrides := fun p hp => hparts p (by simp [hp])
      rw [List.pairwise_append] at h
      have hsuffix : ':' :: o <:+ path part (before ++ [o]) :=
        ⟨part ++ before.flatMap (':' :: ·), by simp [path]⟩
      apply ComesDown.part ho hsuffix
      have hreplace : replace (':' :: o) [] (path part (before ++ [o])) =
          path part (before.filter (· ≠ o)) := by
        rw [path, replace_part o (hcolon part hpart), replace_parts (hcolon o ho), path]
        · simp
        · exact fun p hp => hcolon p (hparts p hp)
        · intro p hp hprefix
          rcases List.mem_append.mp hp with hp | hp
          · exact h.2.2 p hp o (List.mem_singleton_self o) hprefix
          · exact List.mem_singleton.mp hp
      rw [hreplace]
      have hlength : (before.filter (· ≠ o)).length < n := by
        rw [← hn, List.length_append]
        exact Nat.lt_succ_of_le (List.length_filter_le _ _)
      exact ih _ hlength (fun p hp => hbefore p (List.mem_filter.mp hp).1) (h.1.filter _) rfl

end

/-! ## The variants that are noted -/

theorem last_colon_append (s : Text) {p : Text} (hp : ':' ∉ p) :
    last_colon (s ++ ':' :: p) = (p, s) := by
  have htake : (p.reverse ++ ':' :: s.reverse).takeWhile (· ≠ ':') = p.reverse := by
    rw [List.takeWhile_append_of_pos]
    · simp
    · intro c hc
      rw [decide_eq_true_eq]
      rintro rfl
      exact hp (List.mem_reverse.mp hc)
  have hreverse : (s ++ ':' :: p).reverse = p.reverse ++ ':' :: s.reverse := by simp
  rw [last_colon, if_pos (by simp), hreverse, htake, List.reverse_reverse]
  dsimp only
  congr 1
  rw [List.length_append, List.length_cons]
  have hlength : s.length + (p.length + 1) - p.length - 1 = s.length := by omega
  rw [hlength, List.take_left]

theorem eq_of_colon {var : Text} (h : ':' ∈ var) :
    var = (last_colon var).2 ++ ':' :: (last_colon var).1 ∧ ':' ∉ (last_colon var).1 := by
  obtain ⟨after, before, hreverse, hafter⟩ :=
    List.eq_append_cons_of_mem (List.mem_reverse.mpr h)
  have hvar : var = before.reverse ++ ':' :: after.reverse := by
    rw [← List.reverse_reverse var, hreverse]
    simp
  have hcut := last_colon_append before.reverse (fun hmem => hafter (List.mem_reverse.mp hmem))
  rw [← hvar] at hcut
  rw [hcut]
  exact ⟨hvar, fun hmem => hafter (List.mem_reverse.mp hmem)⟩

theorem overrides_of_spec {var : Text} (h : ':' ∈ var) :
    ∀ x ∈ overrides_of var, var = x.1 ++ ':' :: x.2 := by
  have hnames : ∀ turns override shortvar, var = shortvar ++ ':' :: override →
      ∀ x ∈ override_names var turns override shortvar, var = x.1 ++ ':' :: x.2 := by
    intro turns
    induction turns with
    | zero => exact fun _ _ _ x hx => nomatch hx
    | succ turns ih =>
      intro override shortvar hvar x hx
      rw [override_names] at hx
      split at hx
      · rcases List.mem_cons.mp hx with rfl | hx
        · exact hvar
        · unfold next_override at hx
          by_cases hcolon : ':' ∈ shortvar
          · rw [if_pos hcolon] at hx
            dsimp only at hx
            by_cases hbefore : (last_colon shortvar).2 = []
            · rw [if_pos hbefore] at hx
              cases hx
            · rw [if_neg hbefore] at hx
              refine ih _ _ ?_ x hx
              have hcut := (eq_of_colon hcolon).1
              rw [hvar]
              generalize last_colon shortvar = cut at hcut
              subst hcut
              simp
          · rw [if_neg hcolon] at hx
            cases hx
      · cases hx
  exact hnames _ _ _ (eq_of_colon h).1

/-- The name of a part that begins as an override does. -/
def OverrideName (part : Text) : Prop := override_name part ∧ ':' ∉ part

theorem path_snoc (part : Text) (parts : List Text) (p : Text) :
    path part (parts ++ [p]) = path part parts ++ ':' :: p := by
  simp [path]

theorem override_name_path {part : Text} (h : override_name part) (parts : List Text) :
    override_name (path part parts) := by
  cases part with
  | nil => cases h
  | cons c part => exact h

theorem mem_overrides_of {var part : Text} {parts : List Text} (hvar : var ≠ [])
    (hpart : OverrideName part) (hparts : ∀ p ∈ parts, OverrideName p) :
    (var, path part parts) ∈ overrides_of (var ++ ':' :: path part parts) := by
  -- the loop has passed the parts in `after`, and `before` is what is left
  have hturns : ∀ before after : List Text, ∀ p : Text, part :: parts = before ++ p :: after →
      ∀ turns, before.length < turns →
      (var, path part parts) ∈ override_names (var ++ ':' :: path part parts) turns
        (path p after) (path var before) := by
    intro before
    induction before using List.reverseRecOn with
    | nil =>
      intro after p heq turns hturns
      obtain ⟨rfl, rfl⟩ := List.cons.inj heq
      obtain ⟨turns, rfl⟩ := Nat.exists_eq_succ_of_ne_zero (Nat.ne_of_gt hturns)
      rw [override_names, if_pos (override_name_path hpart.1 _)]
      simp [path]
    | append_singleton before q ih =>
      intro after p heq turns hturns
      rw [List.length_append] at hturns
      obtain ⟨turns, rfl⟩ := Nat.exists_eq_succ_of_ne_zero (by omega : turns ≠ 0)
      have hall : ∀ x ∈ part :: parts, OverrideName x := List.forall_mem_cons.mpr ⟨hpart, hparts⟩
      have hp : OverrideName p := hall p (by simp [heq])
      have hq : OverrideName q := hall q (by simp [heq])
      have hbefore : path var before ≠ [] := by simp [path, hvar]
      have hnext : next_override (var ++ ':' :: path part parts) (path var (before ++ [q])) =
          some (path q (p :: after), path var before) := by
        rw [path_snoc, next_override, if_pos (by simp), last_colon_append _ hq.2, if_neg hbefore]
        have hwhole : var ++ ':' :: path part parts =
            (path var before ++ [':']) ++ path q (p :: after) := by
          have hflat := congrArg (List.flatMap (':' :: ·)) heq
          simp only [List.flatMap_cons, List.flatMap_append, List.cons_append,
            List.append_assoc] at hflat
          simp [path, hflat]
        rw [hwhole, List.drop_left' (by simp)]
      rw [override_names, if_pos (override_name_path hp.1 _), hnext]
      apply List.mem_cons_of_mem
      exact ih (p :: after) q (by simpa using heq) turns (by simp at hturns ⊢; omega)
  obtain ⟨before, p, heq⟩ := (List.eq_nil_or_concat (part :: parts)).resolve_left (List.cons_ne_nil _ _)
  rw [List.concat_eq_append] at heq
  have hp : OverrideName p := by
    have hall : ∀ x ∈ part :: parts, OverrideName x := List.forall_mem_cons.mpr ⟨hpart, hparts⟩
    exact hall p (by simp [heq])
  have hwhole : var ++ ':' :: path part parts = path var before ++ ':' :: p := by
    rw [← path_snoc, ← heq]
    rfl
  have hlength : before.length < (var ++ ':' :: path part parts).length + 1 := by
    have hle : before.length ≤ (before.flatMap (':' :: ·)).length := by
      clear heq hwhole hturns
      induction before with
      | nil => simp
      | cons q before ih =>
        simp only [List.length_cons, List.flatMap_cons, List.length_append] at ih ⊢
        omega
    rw [hwhole, path, List.length_append, List.length_append]
    omega
  have hmem := hturns before [] p (by simpa using heq) _ hlength
  have hcut : last_colon (var ++ ':' :: path part parts) = (p, path var before) := by
    rw [hwhole, last_colon_append _ hp.2]
  have hpath : path p [] = p := by simp [path]
  unfold overrides_of
  rw [hcut]
  rw [hpath] at hmem
  exact hmem

def Noted (overridedata : OrderedDict Text (List (Text × Text))) (var : Text) (x : Text × Text) :
    Prop := ∃ data, overridedata.get? var = some data ∧ x ∈ data

theorem noted_step (overridedata : OrderedDict Text (List (Text × Text))) (var shortvar override v : Text)
    (x : Text × Text) :
    Noted (overridedata.set shortvar
        (if (var, override) ∈ (overridedata.get? shortvar).getD [] then (overridedata.get? shortvar).getD []
          else (overridedata.get? shortvar).getD [] ++ [(var, override)])) v x ↔
      Noted overridedata v x ∨ v = shortvar ∧ x = (var, override) := by
  unfold Noted
  by_cases hv : v = shortvar
  · subst hv
    rw [OrderedDict.get?_set_self]
    cases hget : OrderedDict.get? overridedata v with
    | none => simp
    | some data =>
      by_cases hmem : (var, override) ∈ data
      · simp only [Option.getD_some, hmem, if_true, Option.some.injEq, exists_eq_left', true_and]
        exact ⟨Or.inl, fun h => h.elim id fun hx => hx ▸ hmem⟩
      · simp [hmem]
  · rw [OrderedDict.get?_set_other _ _ hv]
    simp [hv]

theorem noted_update (d : Store) (var v : Text) (x : Text × Text) :
    Noted (d.setvar_update_overrides var).overridedata v x ↔
      Noted d.overridedata v x ∨ ∃ y ∈ overrides_of var, v = y.1 ∧ x = (var, y.2) := by
  unfold Store.setvar_update_overrides
  dsimp only
  generalize overrides_of var = names
  generalize d.overridedata = overridedata
  induction names generalizing overridedata with
  | nil => simp
  | cons y names ih =>
    rw [List.foldl_cons, ih, noted_step, List.exists_mem_cons_iff, or_assoc]

/-- A variant whose overrides are names of overrides is noted under its variable. -/
theorem variant_is_noted (d : Store) {var part : Text} {parts : List Text} (hvar : var ≠ [])
    (hpart : OverrideName part) (hparts : ∀ p ∈ parts, OverrideName p) :
    Noted (d.setvar_update_overrides (var ++ ':' :: path part parts)).overridedata var
      (var ++ ':' :: path part parts, path part parts) :=
  (noted_update d _ _ _).mpr (Or.inr ⟨_, mem_overrides_of hvar hpart hparts, rfl, rfl⟩)

section
variable {overrides : List Text}

theorem path_active {part : Text} {parts : List Text} (hcolon : ∀ p ∈ part :: parts, ':' ∉ p)
    (hparts : ∀ p ∈ part :: parts, p ∈ overrides) : Active overrides (path part parts) := by
  have hpath : path part parts = [':'].intercalate (part :: parts) := by
    clear hcolon hparts
    induction parts generalizing part with
    | nil => simp [path]
    | cons p parts ih =>
      rw [List.intercalate_cons_cons, ← ih]
      simp [path]
  unfold Active
  rw [hpath, List.splitOn_intercalate _ hcolon (List.cons_ne_nil _ _)]
  exact hparts

/-- A variant that was set is found by the loop when its overrides are active, and none of them,
but for the first one, begins with another one behind it. -/
theorem a_variant_that_was_set_is_found (d : Store) {var part : Text} {parts : List Text}
    (hnamed : ∀ v x, Noted d.overridedata v x → x.1 ≠ []) (hcolon : ∀ o ∈ overrides, ':' ∉ o) (hvar : var ≠ [])
    (hpart : OverrideName part) (hparts : ∀ p ∈ parts, OverrideName p)
    (hactive : ∀ p ∈ part :: parts, p ∈ overrides) (h : parts.Pairwise fun p o => o <+: p → p = o) :
    ∃ data, (d.setvar_update_overrides (var ++ ':' :: path part parts)).overridedata.get? var = some data ∧
      (override_match overrides data).isSome := by
  obtain ⟨data, hdata, hmem⟩ := variant_is_noted d hvar hpart hparts
  refine ⟨data, hdata, (override_match_isSome hcolon data fun x hx => ?_).mpr ⟨_, hmem, ?_, ?_⟩⟩
  · rcases (noted_update d _ var x).mp ⟨data, hdata, hx⟩ with hx | ⟨_, _, _, rfl⟩
    · exact hnamed var x hx
    · simp
  · refine path_active ?_ hactive
    exact List.forall_mem_cons.mpr ⟨hpart.2, fun p hp => (hparts p hp).2⟩
  · rw [List.forall_mem_cons] at hactive
    exact comes_down hcolon hactive.1 hactive.2 h

theorem a_variant_of_two_overrides_is_found :
    ∃ data, (Store.setvar_update_overrides ⟨[], [], false⟩ (text "V:a:b")).overridedata.get? (text "V") = some data ∧
      (override_match [text "a", text "b"] data).isSome :=
  @a_variant_that_was_set_is_found _ ⟨[], [], false⟩ (text "V") (text "a") [text "b"]
    (by rintro v x ⟨_, h, _⟩; cases h) (by decide) (by decide) ⟨by decide, by decide⟩
    (by simp [OverrideName, override_name, text]) (by decide) (by simp)

end

/-! ## What is read of a variable -/

/-- What the variant that takes the place of a variable gives: its value, not expanded, and the
texts to remove that it carries over. -/
def overriding (d : DataSmart) (depth : Nat) (data : List (Text × Text)) :
    Except DataError (Option Text × List Text) :=
  match override_match d.overrides data with
  | some found => (getVarFlag d depth found (text "_content") false).map fun (value, parser) =>
      (value, parser.removes.getD [])
  | none => .ok (none, [])

/-- What `getVarFlag` makes of the value of the variant, or of none. -/
def with_override (d : DataSmart) (var : Text) (expand : Bool) (overriding : Option Text × List Text) :
    Except DataError (Option Text × VariableParse) := do
  let (value, carried) := overriding
  let local_var := d.findVar var
  let value := full_value d (text "_content") local_var value
  let parser ← d.expandWithRefs value (some var)
  let value := if expand then parser.value else value
  let removes := own_removes d.overrides carried local_var
  if value.getD [] = [] ∨ removes = [] then .ok (value, { parser with removes := none })
  else do
    let removes ← expand_removes d removes
    let parser := take_out removes parser
    .ok (if expand then parser.value else value, parser)

theorem getVarFlag_eq (d : DataSmart) (depth : Nat) (var : Text) (expand : Bool)
    {data : List (Text × Text)} (hdata : d.overridedata var = some data) :
    getVarFlag d (depth + 1) var (text "_content") expand =
      overriding d depth data >>= with_override d var expand := by
  have hcontent : isContent (text "_content") = true := by decide
  rw [getVarFlag, if_neg (by decide)]
  simp only [hcontent, if_true, hdata, Option.bind_some]
  rfl

/-! ## The choice -/

/-- There is something to read of a variant. -/
def HasValue (d : DataSmart) (depth : Nat) (r : Text) : Prop :=
  ∃ v parser, getVarFlag d depth r (text "_content") false = .ok (some v, parser)

/-- The loop comes to its end with an active variant. -/
structure Chooses (d : DataSmart) (depth : Nat) (var : Text) (data : List (Text × Text)) : Prop where
  ends : ∃ result, Ends d.overrides (active_overrides d.overrides data) none result ∧
    override_match d.overrides data = result
  variant : ∃ r ∈ active_variants d.overrides data, override_match d.overrides data = some r
  value : (∀ r ∈ active_variants d.overrides data, HasValue d depth r) →
    ∃ r ∈ active_variants d.overrides data, ∃ v parser,
      getVarFlag d depth r (text "_content") false = .ok (some v, parser) ∧
      ∀ expand, getVarFlag d (depth + 1) var (text "_content") expand =
        with_override d var expand (some v, parser.removes.getD [])

/-- A store with a variable and one variant of it. -/
def oneVariant (value o : String) : DataSmart where
  findVar v :=
    if v = text "V" then some ⟨[(text "_content", text "base")], [], [], []⟩
    else if v = text "V" ++ ':' :: text o then some ⟨[(text "_content", text "x")], [], [], []⟩
    else none
  overridedata v :=
    (Store.empty.setvar_update_overrides (text "V" ++ ':' :: text o)).overridedata.get? v
  overrides := (text value).splitOn ':'
  expandWithRefs s _ := .ok ⟨s, ∅, ∅, []⟩

end yocto.override_choice
