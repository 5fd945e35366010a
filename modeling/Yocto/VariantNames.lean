-- Under which variables the variants of a datastore are noted, after any calls.
import Yocto.SetThenGet

open yocto.list_search yocto.task_ids yocto.ordered_dict yocto.triples yocto.runs
open yocto.data_smart (Variable)
open yocto.assignments (Store overrides_of override_names override_name last_colon next_override)
open yocto.override_choice (Noted Active overrides_of_spec)
open yocto.data_store
open yocto.set_then_get (step Forgets setvar_update_overridevars_keeps)

namespace yocto.variant_names

/-- A variant that may be noted under a variable: it is the variable with overrides, or, where a
keyword was written to it, a name without overrides that is longer by one character. -/
def VariantOf (var : Text) (x : Text × Text) : Prop :=
  x.1 = var ++ ':' :: x.2 ∨ ':' ∉ x.1 ∧ override_name x.1 ∧ x.2 = x.1 ∧ var = x.1.dropLast

theorem overrides_of_variant (name : Text) : ∀ y ∈ overrides_of name, VariantOf y.1 (name, y.2) := by
  intro y hy
  by_cases hcolon : ':' ∈ name
  · exact Or.inl (overrides_of_spec hcolon y hy)
  · have hlast : last_colon name = (name, name.dropLast) := if_neg hcolon
    have hnext : next_override name name.dropLast = none :=
      if_neg fun hmem => hcolon (List.dropLast_subset name hmem)
    unfold overrides_of at hy
    rw [hlast, override_names, hnext] at hy
    split at hy
    · rename_i hname
      rw [List.mem_singleton.mp hy]
      exact Or.inr ⟨hcolon, hname, rfl, rfl⟩
    · cases hy

/-! ## The invariant -/

def Told (d : Data) : Prop := ∀ var x, Noted d.overridedata var x → VariantOf var x

variable {g : Expander} {d : Data}

theorem Told.update (h : Told d) (name : Text) : Told (d.setvar_update_overrides name) := by
  intro var x hx
  rcases (override_choice.noted_update ⟨[], d.overridedata, false⟩ name var x).mp hx with hx | ⟨y, hy, rfl, rfl⟩
  · exact h var x hx
  · exact overrides_of_variant name y hy

theorem Told.shadow (h : Told d) (name : Text) : Told (d.shadow name) := by
  unfold Told
  rw [(shadow_same d name).2.1]
  exact h

theorem Told.setEntry (h : Told d) (name : Text) (entry : Variable) : Told (d.setEntry name entry) := h

theorem Told.begin_flag (h : Told d) (name flag : Text) : Told (d.begin_flag name flag) :=
  Told.shadow (d := { d with expand_cache := [], var_renames := _, failed := _ }) h name

theorem Told.delVar (h : Told d) (name : Text) : Told (d.delVar name) :=
  fun var x hx => h var x (noted_delVar hx)

theorem Told.delete (h : Told d) (names : List Text) : Told (names.foldl Data.delVar d) := by
  induction names generalizing d with
  | nil => exact h
  | cons name names ih => exact ih (h.delVar name)

theorem getVarFlag_told (fuel : Nat) (q : Query) : Keeps Told (getVarFlag g fuel q) := by
  intro d h
  unfold Told
  rw [(getVarFlag_variables d fuel q d ⟨rfl, rfl, rfl, rfl⟩).2.2.1]
  exact h

theorem overridevars_told (fuel : Nat) (name value : Text) :
    Keeps Told (setvar_update_overridevars g fuel name value) :=
  setvar_update_overridevars_keeps ⟨fun _ _ h => h, fun _ h => h⟩ (getVarFlag_told fuel) name value

theorem clear_variable_told (fuel : Nat) (name : Text) (parsing : Bool) :
    Keeps Told (clear_variable (getVarFlag g fuel) name parsing) := by
  refine .ite (fun _ => .pure _) fun _ => ?_
  refine Keeps.bind (.modify fun s h => h) fun _ => .reading fun s _ => ?_
  split
  · exact .pure _
  · refine (need_overrides_keeps ⟨fun _ _ _ _ _ h => h, fun _ h => h⟩ (getVarFlag_told fuel)).bind fun _ => ?_
    refine Keeps.bind (.modify fun s h => h.delete _) fun _ => .reading fun s _ => ?_
    refine .ite (fun _ => .modify fun s h => ?_) fun _ => .raise _
    rintro var x ⟨data, hget, hx⟩
    rw [OrderedDict.get?_del] at hget
    split at hget
    · cases hget
    · exact h var x ⟨data, hget, hx⟩

theorem setVar_told (fuel : Nat) (name value : Text) (parsing : Bool) :
    Keeps Told (setVar g fuel name value parsing) := by
  refine .ite (fun _ => .raise _) fun _ => Keeps.bind (.modify fun s h => h) fun _ => ?_
  split
  · refine Keeps.bind (.modify fun s h => ?_) fun _ => .reading fun s _ => ?_
    · dsimp only
      split
      · exact ((h.begin_flag _ _).setEntry _ _).update _
      · exact (h.begin_flag _ _).setEntry _ _
    · exact .ite (fun _ => overridevars_told _ _ _) fun _ => .pure _
  · refine Keeps.bind (.modify fun s h => h.shadow name) fun _ => (clear_variable_told _ _ _).bind fun _ => ?_
    refine Keeps.bind (.modify fun s h => ?_) fun _ => .reading fun s _ => ?_
    · dsimp only
      split
      · exact h.update name
      · exact h
    · exact .ite (fun _ => overridevars_told _ _ _) fun _ => .pure _

theorem setVarFlag_told (fuel : Nat) (name flag value : Text) :
    Keeps Told (setVarFlag g fuel name flag value) := by
  refine Keeps.bind (.modify fun s h => ?_) fun _ => .reading fun s _ => ?_
  · dsimp only
    split
    · exact ((h.begin_flag _ _).setEntry _ _).update _
    · exact (h.begin_flag _ _).setEntry _ _
  · exact .ite (fun _ => overridevars_told _ _ _) fun _ => .pure _

theorem Told.act (h : Told d) (fuel : Nat) (a : Action) : Told (act g fuel d a) := by
  cases a with
  | getVarFlag q => exact getVarFlag_told fuel q d h
  | getVarFlags name expand internalflags =>
    exact getVarFlags_keeps (getVarFlag_told fuel) name expand internalflags d h
  | setVar name value parsing => exact setVar_told fuel name value parsing d h
  | setVarFlag name flag value => exact setVarFlag_told fuel name flag value d h
  | delVar name => exact h.delVar name
  | delVarFlag name flag =>
    change Told (d.delVarFlag name flag)
    unfold Data.delVarFlag
    dsimp only
    split
    · exact h
    · split
      · exact h
      · exact (Told.shadow (d := { d with expand_cache := [] }) h name).setEntry _ _
  | delVarFlags name =>
    change Told (d.delVarFlags name)
    unfold Data.delVarFlags
    have hshadow := Told.shadow (d := { d with expand_cache := [] }) h name
    dsimp only
    split <;> exact hshadow
  | createCopy => exact h

/-- After any calls on a store that was empty, a variable has only its own variants noted, but for
names that are longer by one character, and from these the loop chooses an active one. -/
theorem a_variable_has_its_own_variants (h : Reaches (step g) anyStep Data.empty d) {var : Text}
    {data : List (Text × Text)} (hdata : d.overridedata.get? var = some data) :
    (∀ x ∈ data, VariantOf var x) ∧
      ∀ overrides : List Text, (∀ o ∈ overrides, ':' ∉ o) →
        ∀ r, data_smart.override_match overrides data = some r → ∃ o, Active overrides o ∧ VariantOf var (r, o) := by
  have htold : Told d := by
    apply h.invariant (I := Told)
    · rintro var x ⟨data, hget, _⟩
      cases hget
    · intro s a s' hs _ hstep
      obtain rfl := Option.some.inj hstep
      exact hs.act a.1 a.2
  have hvariants : ∀ x ∈ data, VariantOf var x := fun x hx => htold var x ⟨data, hdata, hx⟩
  refine ⟨hvariants, fun overrides hcolon r hr => ?_⟩
  have hnames : ∀ x ∈ data, x.1 ≠ [] := by
    intro x hx hnil
    rcases hvariants x hx with hname | ⟨_, hname, _⟩
    · simp [hnil] at hname
    · simp [hnil, override_name] at hname
  obtain ⟨x, hx, hactive, rfl⟩ := override_choice.mem_active_variants.mp
    (override_choice.override_match_active hcolon data hnames hr)
  exact ⟨x.2, hactive, hvariants x hx⟩

/-- A store in which something is appended to a function. -/
def appended : Data := act plainText 9 .empty (.setVar (text "do_ab:append") (text "x") true)

/-- The function is noted as a variant of its name without the last character. -/
theorem a_function_is_a_variant :
    appended.overridedata.get? (text "do_a") = some [(text "do_ab", text "do_ab")] ∧
      VariantOf (text "do_a") (text "do_ab", text "do_ab") := by
  have hdata : appended.overridedata.get? (text "do_a") = some [(text "do_ab", text "do_ab")] := by decide
  have hrun : Reaches (step plainText) anyStep Data.empty appended :=
    .step (a := (9, .setVar (text "do_ab:append") (text "x") true)) .start trivial rfl
  exact ⟨hdata, (a_variable_has_its_own_variants hrun hdata).1 _ List.mem_cons_self⟩

end yocto.variant_names
