-- What the writes of a datastore do to what is seen of its variables: the levels and
-- the entry that is copied to the own one, and the notes of the variants, to which
-- `_setvar_update_overrides` adds and from which `delVar` takes away.
import Yocto.DataStore

open yocto.list_search yocto.task_ids yocto.ordered_dict yocto.triples
open yocto.data_smart (Variable)
open yocto.assignments (Store noEntry overrides_of)
open yocto.override_choice (Noted)
open yocto.triples.Prog (raise modify reading collect)

namespace yocto.data_store

variable {var : Text} {d : Data}

/-! ## Levels -/

theorem findVar_own {entry : Variable} (h : d.dict.get? var = some entry) :
    d.findVar var = some entry := by
  unfold Data.findVar
  rw [List.findSome?_cons, h]

theorem findVar_parents (h : d.dict.get? var = none) :
    d.findVar var = d.parents.findSome? fun level => level.get? var := by
  unfold Data.findVar
  rw [List.findSome?_cons, h]

theorem findVar_set (d : Data) (var : Text) (entry : Variable) :
    Data.findVar { d with dict := d.dict.set var entry } var = some entry :=
  findVar_own (OrderedDict.get?_set_self _ _ _)

theorem findVar_set_other (d : Data) {var v : Text} (entry : Variable) (h : v ≠ var) :
    Data.findVar { d with dict := d.dict.set var entry } v = d.findVar v := by
  unfold Data.findVar
  rw [List.findSome?_cons, List.findSome?_cons, OrderedDict.get?_set_other _ _ h]

theorem get?_shadow (d : Data) (v w : Text) :
    (d.shadow v).dict.get? w =
      if w = v then some ((d.findVar v).getD noEntry) else d.dict.get? w := by
  unfold Data.shadow
  cases hown : d.dict.get? v with
  | none =>
    simp only [Option.isSome_none, Bool.false_eq_true, if_false]
    split
    · rename_i hw
      rw [hw, OrderedDict.get?_set_self]
    · rename_i hw
      exact OrderedDict.get?_set_other _ _ hw
  | some e =>
    simp only [Option.isSome_some, if_true]
    split
    · rename_i hw
      rw [hw, hown, findVar_own hown]
      rfl
    · rfl

theorem shadow_same (d : Data) (v : Text) :
    (d.shadow v).parents = d.parents ∧ (d.shadow v).overridedata = d.overridedata ∧
      (d.shadow v).expand_cache = d.expand_cache := by
  unfold Data.shadow
  split <;> exact ⟨rfl, rfl, rfl⟩

theorem shadow_entry (d : Data) (v : Text) :
    (d.shadow v).entry v = (d.findVar v).getD noEntry := by
  unfold Data.entry
  rw [get?_shadow, if_pos rfl]
  rfl

theorem delVar_variants (overridedata : OrderedDict Text (List (Text × Text))) (v w : Text)
    (h : w = v ∨ overridedata.get? w = none) :
    (Store.delVar ⟨[], overridedata, false⟩ v).overridedata.get? w = none := by
  have hdel : (OrderedDict.del overridedata v).get? w = none := by
    rw [OrderedDict.get?_del]
    rcases h with h | h
    · rw [if_pos h]
    · rw [h, ite_self]
  unfold Store.delVar
  dsimp only
  split
  · revert hdel
    generalize OrderedDict.del overridedata v = start
    generalize assignments.overrides_of v = names
    intro hstart
    induction names generalizing start with
    | nil => exact hstart
    | cons x names ih =>
      rw [List.foldl_cons]
      apply ih
      split
      · rename_i known hget
        rw [OrderedDict.get?_set_other _ _ ?_]
        · exact hstart
        · rintro rfl
          rw [hstart] at hget
          cases hget
      · exact hstart
  · exact hdel

/-! ## The notes of the variants -/

theorem noted_delVar {overridedata : OrderedDict Text (List (Text × Text))} {v w : Text}
    {r : Text × Text} (h : Noted (Store.delVar ⟨[], overridedata, false⟩ v).overridedata w r) :
    Noted overridedata w r := by
  have hdel : ∀ {w r}, Noted (OrderedDict.del overridedata v) w r → Noted overridedata w r := by
    rintro w r ⟨data, hget, hr⟩
    rw [OrderedDict.get?_del] at hget
    split at hget
    · cases hget
    · exact ⟨data, hget, hr⟩
  unfold Store.delVar at h
  dsimp only at h
  split at h
  · revert h hdel
    generalize OrderedDict.del overridedata v = start
    generalize overrides_of v = names
    intro hdel h
    induction names generalizing start with
    | nil => exact hdel h
    | cons x names ih =>
      rw [List.foldl_cons] at h
      refine ih _ ?_ h
      split
      · rename_i known hget
        rintro w r ⟨data, hdata, hr⟩
        apply hdel
        by_cases hw : w = x.1
        · subst hw
          rw [OrderedDict.get?_set_self] at hdata
          rw [← Option.some.inj hdata] at hr
          exact ⟨known, hget, List.mem_of_mem_erase hr⟩
        · rw [OrderedDict.get?_set_other _ _ hw] at hdata
          exact ⟨data, hdata, hr⟩
      · exact hdel
  · exact hdel h

theorem get?_update_overrides {v : Text} (d : Data) (h : ∀ x ∈ overrides_of var, x.1 ≠ v) :
    (d.setvar_update_overrides var).overridedata.get? v = d.overridedata.get? v := by
  unfold Data.setvar_update_overrides Store.setvar_update_overrides
  dsimp only
  revert h
  generalize overrides_of var = names
  generalize d.overridedata = overridedata
  intro h
  induction names generalizing overridedata with
  | nil => rfl
  | cons x names ih =>
    rw [List.forall_mem_cons] at h
    rw [List.foldl_cons, ih _ h.2]
    exact OrderedDict.get?_set_other _ _ h.1.symm

end yocto.data_store
