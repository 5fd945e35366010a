-- The overrides are computed in rounds (`need_overrides` of data_smart.py): the value of
-- OVERRIDES under a list of overrides gives the next list, until it gives the same one.
import Yocto.DataReads

open yocto.list_search yocto.task_ids yocto.ordered_dict yocto.data_smart yocto.triples
open yocto.triples.Prog (raise modify reading collect)

namespace yocto.override_rounds

open yocto.data_store

/-! ## Reads while the list is there -/

theorem need_overrides_set {read : Read} {s : Data} (h : s.overrides.isSome) :
    need_overrides read s = (.ok (), s) := by
  unfold need_overrides
  simp only [reading, h, if_true]
  rfl

/-- The store but for the cache, of which each entry was made under the overrides of the store. -/
def Under (d s : Data) : Prop :=
  s = { d with expand_cache := s.expand_cache } ∧ ∀ x ∈ s.expand_cache, x.2.under = d.overrides

theorem add_under (p : Parse) (rs : List Text) : (rs.foldl Parse.add p).under = p.under := by
  induction rs generalizing p with
  | nil => rfl
  | cons r rs ih =>
    rw [List.foldl_cons, ih, Parse.add]
    split <;> rfl

variable {g : Expander} {d : Data}

theorem getVarFlag_under (hset : d.overrides.isSome) (fuel : Nat) (q : Query) :
    Keeps (Under d) (getVarFlag g fuel q) := by
  have hover : ∀ s, Under d s → s.overrides = d.overrides := fun s hs => by rw [hs.1]
  induction fuel generalizing q with
  | zero => exact .raise _
  | succ fuel ih =>
    apply getVarFlag_keeps_step
    · refine ⟨ih, fun s hs => ?_, fun s name p rs hs hget => ?_⟩
      · rw [need_overrides_set (by rw [hover s hs]; exact hset)]
        exact hs
      · refine ⟨by rw [hs.1], fun x hx => ?_⟩
        rcases OrderedDict.mem_of_mem_set hx with hx | rfl
        · exact hs.2 x hx
        · rw [add_under]
          exact hs.2 _ (OrderedDict.mem_of_get? hget)
    · intro s parser hs
      refine ⟨by rw [hs.1], fun x hx => ?_⟩
      rcases OrderedDict.mem_of_mem_set hx with hx | rfl
      · exact hs.2 x hx
      · exact hover s hs

theorem getVarFlag_rounds (hset : d.overrides.isSome) (fuel : Nat) (q : Query) :
    Keeps (fun s => s.overrides = d.overrides ∧ s.rounds = d.rounds) (getVarFlag g fuel q) := by
  induction fuel generalizing q with
  | zero => exact .raise _
  | succ fuel ih =>
    apply getVarFlag_keeps_step
    · refine ⟨ih, fun s hs => ?_, fun s name p rs hs _ => hs⟩
      rw [need_overrides_set (by rw [hs.1]; exact hset)]
      exact hs
    · exact fun s parser hs => hs

/-! ## The rounds -/

/-- The store with a list of overrides, and nothing in the cache. -/
def underOverrides (d : Data) (overrides : List Text) : Data :=
  { d with
    overrides := some overrides, overridesset := overrides, inoverride := false, expand_cache := [] }

/-- The list is the value of OVERRIDES under this list, the set has its members, and each entry of
the cache was made under it. -/
structure Fixpoint (g : Expander) (d : Data) (overrides : List Text) : Prop where
  list : d.overrides = some overrides
  value : ∃ fuel value parser s,
    getVarFlag g fuel (.get (text "OVERRIDES")) (underOverrides d overrides) =
      (.ok (value, parser), s) ∧ split_overrides value = overrides
  set : ∀ o, o ∈ d.overridesset ↔ o ∈ overrides
  cache : ∀ x ∈ d.expand_cache, x.2.under = some overrides

def begin_round (d : Data) : Data :=
  { d with inoverride := true, overrides := some [], overridesset := [], rounds := d.rounds + 1 }

theorem override_rounds_succ (read : Read) (count : Nat) (d : Data) :
    override_rounds read (count + 1) d =
      match read (.get (text "OVERRIDES")) (begin_round d) with
      | (.error e, s) => (.error e, s)
      | (.ok (value, _), s) =>
        match read (.get (text "OVERRIDES")) (underOverrides s (split_overrides value)) with
        | (.error e, t) => (.error e, t)
        | (.ok (value, _), t) =>
          if some (split_overrides value) = t.overrides then (.ok (), t)
          else override_rounds read count { t with
            overrides := some (split_overrides value), overridesset := split_overrides value } := by
  change Prog.andThen (read (.get (text "OVERRIDES"))) _ (begin_round d) = _
  unfold Prog.andThen
  rcases read (.get (text "OVERRIDES")) (begin_round d) with ⟨e | ⟨value, _⟩, s⟩
  · rfl
  · dsimp only
    change Prog.andThen (read (.get (text "OVERRIDES"))) _
      (underOverrides s (split_overrides value)) = _
    unfold Prog.andThen
    rcases read (.get (text "OVERRIDES")) (underOverrides s (split_overrides value)) with
      ⟨e | ⟨value', _⟩, t⟩
    · rfl
    · dsimp only [reading]
      split <;> rfl

theorem getVarFlag_set {fuel : Nat} {q : Query} {d s : Data} {x : Except DataError _}
    (hset : d.overrides.isSome) (hempty : d.expand_cache = [])
    (h : getVarFlag g fuel q d = (x, s)) : Under d s := by
  have hend := getVarFlag_under (g := g) hset fuel q d ⟨rfl, by simp [hempty]⟩
  rw [h] at hend
  exact hend

theorem override_rounds_fixpoint (fuel count : Nat) (d : Data) :
    (override_rounds (getVarFlag g fuel) count d).2.rounds ≤ d.rounds + count ∧
    ((override_rounds (getVarFlag g fuel) count d).1 = .ok () →
      ∃ overrides, Fixpoint g (override_rounds (getVarFlag g fuel) count d).2 overrides) := by
  induction count generalizing d with
  | zero => exact ⟨le_rfl, fun h => nomatch h⟩
  | succ count ih =>
    rw [override_rounds_succ]
    rcases hfirst : getVarFlag g fuel (.get (text "OVERRIDES")) (begin_round d) with ⟨e | ⟨v, p⟩, s⟩
    all_goals
      have hrounds : s.rounds = d.rounds + 1 := by
        have hkeeps := getVarFlag_rounds (g := g) (d := begin_round d) (by rfl) fuel
          (.get (text "OVERRIDES")) (begin_round d) ⟨rfl, rfl⟩
        rw [hfirst] at hkeeps
        exact hkeeps.2
    · exact ⟨by simp only; omega, fun h => nomatch h⟩
    · dsimp only
      rcases hsecond : getVarFlag g fuel (.get (text "OVERRIDES"))
        (underOverrides s (split_overrides v)) with ⟨e | ⟨v', p'⟩, t⟩
      all_goals
        have hunder := getVarFlag_set (by rfl) (by rfl) hsecond
        have ht : t.rounds = d.rounds + 1 := by
          rw [hunder.1, ← hrounds]
          rfl
      · exact ⟨by simp only; omega, fun h => nomatch h⟩
      · dsimp only
        split
        · rename_i hsame
          refine ⟨by simp only; omega, fun _ => ⟨split_overrides v, ?_⟩⟩
          have hlist : t.overrides = some (split_overrides v) := by rw [hunder.1]; rfl
          have hback : underOverrides t (split_overrides v) = underOverrides s (split_overrides v) := by
            rw [hunder.1]
            rfl
          refine ⟨hlist, ⟨fuel, v', p', t, ?_, ?_⟩, ?_, fun x hx => hunder.2 x hx⟩
          · rw [hback]
            exact hsecond
          · exact Option.some.inj (hsame.trans hlist)
          · rw [hunder.1]
            exact fun o => Iff.rfl
        · have hnext := ih { t with
            overrides := some (split_overrides v'), overridesset := split_overrides v' }
          refine ⟨hnext.1.trans ?_, hnext.2⟩
          simp only
          omega

/-! ## The call -/

theorem Fixpoint.value_unique {overrides : List Text} (h : Fixpoint g d overrides) {fuel : Nat}
    {value : Option Text} {parser : Option Parse} {s : Data}
    (hvalue : getVarFlag g fuel (.get (text "OVERRIDES")) (underOverrides d overrides) =
      (.ok (value, parser), s)) : split_overrides value = overrides := by
  obtain ⟨fuel', value', parser', s', hread, hsplit⟩ := h.value
  rw [← hsplit, ← (Prod.mk.inj (getVarFlag_deterministic hread hvalue)).1]

/-! ## A list that is not computed again -/

theorem need_overrides_leaves {fuel : Nat} {overrides others : List Text}
    (hlist : d.overrides = some overrides)
    (hread : (getVarFlag g fuel (.get (text "OVERRIDES")) (underOverrides d overrides)).1.toOption.map
      (split_overrides ·.1) = some others) (hne : others ≠ overrides) :
    (need_overrides (getVarFlag g fuel) d).1 = .ok () ∧
      (need_overrides (getVarFlag g fuel) d).2.overrides = some overrides ∧
      ¬∃ overrides, Fixpoint g (need_overrides (getVarFlag g fuel) d).2 overrides := by
  rw [need_overrides_set (by rw [hlist]; rfl)]
  refine ⟨rfl, hlist, ?_⟩
  rintro ⟨overrides', h⟩
  obtain rfl : overrides = overrides' := Option.some.inj (hlist.symm.trans h.list)
  rcases hcall : getVarFlag g fuel (.get (text "OVERRIDES")) (underOverrides d overrides) with
    ⟨e | ⟨value, parser⟩, s⟩
  · rw [hcall] at hread
    cases hread
  · rw [hcall] at hread
    have hothers : split_overrides value = others := Option.some.inj hread
    exact hne (hothers.symm.trans (h.value_unique hcall))

/-- OVERRIDES refers to FOO. The list is computed, and then a variant of FOO is set whose override
is in the list. -/
def withVariant : Data :=
  let d := Data.empty
  let d := act plainText 6 d (.setVar (text "OVERRIDES") (text "a:${FOO}") true)
  let d := act plainText 6 d (.setVar (text "FOO") (text "b") true)
  let d := act plainText 6 d (.setVar (text "BAR:c") (text "bar") true)
  let d := act plainText 6 d (.getVarFlag (.get (text "BAR")))
  act plainText 6 d (.setVar (text "FOO:a") (text "c") true)

end yocto.override_rounds
