-- The preference among runtime providers (providers.py).
import Yocto.TaskIds

open yocto.task_ids

namespace yocto.runtime_providers

/-- What the choice reads: the recipe of each file, what each recipe provides, and
`PREFERRED_PROVIDER` of each of these. -/
structure DataCache where
  pkg_fn : Text → Text
  pn_provides : Text → List Text
  preferred_provider : Text → Option Text

/-- `pns`: the last eligible file of a recipe. -/
def pns (dc : DataCache) (eligible : List Text) (pn : Text) : Option Text :=
  eligible.reverse.find? fun p => dc.pkg_fn p = pn

/-- The loop over the provides of a provider: the eligible file of the first `PREFERRED_PROVIDER`
that names one and is not preferred yet. -/
def selects (dc : DataCache) (pns : Text → Option Text) (preferred : List Text) (p : Text) :
    Option Text :=
  (dc.pn_provides (dc.pkg_fn p)).findSome? fun provide =>
    ((dc.preferred_provider provide).bind pns).filter (· ∉ preferred)

/-- The state of the loop: the list that `eligible` names, the list that the loop goes through,
whether they are the same list, and what is preferred. -/
structure Search where
  eligible : List Text
  iterated : List Text
  same : Bool
  preferred : List Text

/-- One turn of the loop. `eligible.remove(pref)` changes the list that the loop goes through when
that is still the one. -/
def turn (dc : DataCache) (pns : Text → Option Text) (s : Search) (p : Text) : Search :=
  match selects dc pns s.preferred p with
  | none => s
  | some pref =>
    let left := s.eligible.erase pref
    ⟨pref :: left, if s.same then left else s.iterated, false, s.preferred ++ [pref]⟩

/-- The loop, from an index on, for so many turns at most. -/
def examine (dc : DataCache) (pns : Text → Option Text) : Nat → Nat → Search → Search
  | 0, _, s => s
  | turns + 1, index, s =>
    match s.iterated[index]? with
    | none => s
    | some p => examine dc pns turns (index + 1) (turn dc pns s p)

/-- The first loop, for `PREFERRED_RPROVIDER`. -/
def preferred_rprovider (dc : DataCache) (eligible : List Text) (prefervar : Option Text) :
    Option (List Text) :=
  if prefervar.getD [] = [] then none
  else (eligible.find? fun p => prefervar = some (dc.pkg_fn p)).map fun p => p :: eligible.erase p

/-- `filterProvidersRunTime`, from the eligible providers on. -/
def filterProvidersRunTime (dc : DataCache) (prefervar : Option Text) (eligible : List Text) :
    List Text × Nat :=
  match preferred_rprovider dc eligible prefervar with
  | some eligible => (eligible, 1)
  | none =>
    let s := examine dc (pns dc eligible) (eligible.length + 1) 0 ⟨eligible, eligible, true, []⟩
    (s.eligible, s.preferred.length)

/-! ## What the loop is for -/

/-- What is preferred when each provider is examined once, in order. -/
def select_all (dc : DataCache) (pns : Text → Option Text) (preferred providers : List Text) :
    List Text :=
  providers.foldl (fun preferred p => preferred ++ (selects dc pns preferred p).toList) preferred

/-- The providers that are examined. Behind the first one that selects, the one that it selects is
left out, or the next one when that stands before. -/
def examined (dc : DataCache) (pns : Text → Option Text) : List Text → List Text → List Text
  | _, [] => []
  | before, p :: behind =>
    match selects dc pns [] p with
    | none => p :: examined dc pns (before ++ [p]) behind
    | some pref => p :: if pref ∈ before ++ [p] then behind.tail else behind.erase pref

/-- The result is a rearrangement of the eligible providers, and counts those that are preferred when
each is examined once. -/
structure Chosen (dc : DataCache) (eligible : List Text) (result : List Text × Nat) : Prop where
  perm : result.1.Perm eligible
  number : result.2 = (select_all dc (pns dc eligible) [] eligible).length

/-! ## The loop -/

variable {dc : DataCache} {names : Text → Option Text}

theorem turn_preferred (s : Search) (p : Text) :
    (turn dc names s p).preferred = s.preferred ++ (selects dc names s.preferred p).toList := by
  unfold turn
  cases selects dc names s.preferred p with
  | none => simp
  | some pref => rfl

theorem examine_apart {turns index : Nat} {s : Search} (hsame : s.same = false)
    (hturns : s.iterated.length ≤ turns + index) :
    (examine dc names turns index s).preferred =
      select_all dc names s.preferred (s.iterated.drop index) := by
  induction turns generalizing index s with
  | zero =>
    rw [List.drop_eq_nil_of_le (by omega)]
    rfl
  | succ turns ih =>
    rw [examine]
    cases hp : s.iterated[index]? with
    | none =>
      rw [List.drop_eq_nil_of_le (List.getElem?_eq_none_iff.mp hp)]
      rfl
    | some p =>
      obtain ⟨hlt, rfl⟩ := List.getElem?_eq_some_iff.mp hp
      have hturn : (turn dc names s s.iterated[index]).iterated = s.iterated ∧
          (turn dc names s s.iterated[index]).same = false := by
        unfold turn
        cases selects dc names s.preferred s.iterated[index] with
        | none => exact ⟨rfl, hsame⟩
        | some pref => simp [hsame]
      dsimp only
      rw [ih hturn.2 (by rw [hturn.1]; omega), hturn.1, turn_preferred, List.drop_eq_getElem_cons hlt]
      rfl

theorem examine_same (before behind : List Text) {turns : Nat} (hturns : behind.length < turns) :
    (examine dc names turns before.length ⟨before ++ behind, before ++ behind, true, []⟩).preferred =
      select_all dc names [] (examined dc names before behind) := by
  induction turns generalizing before behind with
  | zero => omega
  | succ turns ih =>
    rw [examine]
    cases behind with
    | nil =>
      rw [List.append_nil, List.getElem?_eq_none (Nat.le_refl _)]
      rfl
    | cons p behind =>
      rw [List.getElem?_append_right (Nat.le_refl _), Nat.sub_self, List.getElem?_cons_zero]
      dsimp only
      rw [List.length_cons] at hturns
      unfold turn examined
      cases hsel : selects dc names [] p with
      | none =>
        dsimp only
        have hih := ih (before ++ [p]) behind (by omega)
        rw [List.append_assoc, List.singleton_append, List.length_append, List.length_singleton] at hih
        rw [hih]
        unfold select_all
        rw [List.foldl_cons, hsel]
        rfl
      | some pref =>
        dsimp only
        rw [examine_apart rfl]
        · have hfirst : ∀ rest, select_all dc names [] (p :: rest) = select_all dc names [pref] rest := by
            intro rest
            unfold select_all
            rw [List.foldl_cons, hsel]
            rfl
          rw [hfirst]
          congr 1
          have hsplit : before ++ p :: behind = (before ++ [p]) ++ behind := by simp
          rw [if_pos rfl, hsplit]
          split
          · -- what stands behind moves up by one
            rename_i hmem
            have hlen : ((before ++ [p]).erase pref).length = before.length := by
              rw [List.length_erase_of_mem hmem]
              simp
            rw [List.erase_append_left _ hmem, List.drop_append, hlen,
              List.drop_eq_nil_of_le (by omega), List.nil_append, Nat.add_sub_cancel_left,
              List.drop_one]
          · rename_i hmem
            have hlen : (before ++ [p]).length = before.length + 1 := by simp
            rw [List.erase_append_right _ hmem, ← hlen, List.drop_left]
        · have hle := @List.length_erase_le _ _ pref (before ++ p :: behind)
          rw [List.length_append, List.length_cons] at hle
          simp only [if_true]
          omega

theorem examine_perm {l : List Text} (hnames : ∀ pn p, names pn = some p → p ∈ l) (turns index : Nat)
    {s : Search} (h : s.eligible.Perm l) : (examine dc names turns index s).eligible.Perm l := by
  induction turns generalizing index s with
  | zero => exact h
  | succ turns ih =>
    rw [examine]
    split
    · exact h
    · apply ih
      unfold turn
      split
      · exact h
      · rename_i pref hsel
        obtain ⟨provide, _, hpref⟩ := List.exists_of_findSome?_eq_some hsel
        obtain ⟨pn, _, hpn⟩ := Option.bind_eq_some_iff.mp (Option.filter_eq_some_iff.mp hpref).1
        have hmem : pref ∈ s.eligible := h.mem_iff.mpr (hnames pn pref hpn)
        exact (List.perm_cons_erase hmem).symm.trans h

/-- Without `PREFERRED_RPROVIDER` the providers are counted as if each were examined, when as many are
selected without the one that is left out. -/
theorem chosen_iff_the_one_left_out_adds_nothing (dc : DataCache) (prefervar : Option Text)
    (eligible : List Text) (hnone : prefervar.getD [] = []) :
    Chosen dc eligible (filterProvidersRunTime dc prefervar eligible) ↔
      (select_all dc (pns dc eligible) [] (examined dc (pns dc eligible) [] eligible)).length =
        (select_all dc (pns dc eligible) [] eligible).length := by
  have hresult : filterProvidersRunTime dc prefervar eligible =
      let s := examine dc (pns dc eligible) (eligible.length + 1) 0 ⟨eligible, eligible, true, []⟩
      (s.eligible, s.preferred.length) := by
    unfold filterProvidersRunTime preferred_rprovider
    rw [if_pos hnone]
  have hpreferred :=
    @examine_same dc (pns dc eligible) [] eligible _ (Nat.lt_succ_self eligible.length)
  rw [List.nil_append, List.length_nil] at hpreferred
  have hperm : (filterProvidersRunTime dc prefervar eligible).1.Perm eligible := by
    rw [hresult]
    refine examine_perm (fun pn p hp => ?_) _ _ (List.Perm.refl eligible)
    exact List.mem_reverse.mp (List.mem_of_find?_eq_some hp)
  constructor
  · intro h
    have hnumber := h.number
    rw [hresult] at hnumber
    rw [← hpreferred]
    exact hnumber
  · intro h
    refine ⟨hperm, ?_⟩
    rw [hresult, ← h, ← hpreferred]

/-- The recipes `a`, `b` and so on, of which each provides what the table says, and the preferred
provider of each provide. -/
def cacheOf (provides : Text → List Text) (preferred : List (Text × Text)) : DataCache where
  pkg_fn p := p
  pn_provides := provides
  preferred_provider provide := (preferred.find? fun x => x.1 = provide).map (·.2)

theorem two_providers_agree :
    Chosen (cacheOf (fun p => [p]) [(text "a", text "b"), (text "b", text "b")]) [text "a", text "b"]
      (filterProvidersRunTime
        (cacheOf (fun p => [p]) [(text "a", text "b"), (text "b", text "b")]) none [text "a", text "b"]) :=
  (chosen_iff_the_one_left_out_adds_nothing _ none [text "a", text "b"] rfl).mpr (by decide)

/-- Two recipes that prefer themselves are in conflict, and the second one is not examined. -/
theorem a_conflict_is_missed :
    let dc := cacheOf (fun p => [p]) [(text "a", text "a"), (text "b", text "b")]
    (select_all dc (pns dc [text "a", text "b"]) [] [text "a", text "b"]).length = 2 ∧
      (filterProvidersRunTime dc none [text "a", text "b"]).2 = 1 ∧
      ¬Chosen dc [text "a", text "b"] (filterProvidersRunTime dc none [text "a", text "b"]) := by
  refine ⟨by decide, by decide, fun h => ?_⟩
  exact absurd h.number (by decide)

end yocto.runtime_providers
