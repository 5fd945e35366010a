-- A value that is set is the value that is read (`setVar` of data_smart.py): the texts
-- that were appended, prepended and removed, the variants that are active and the
-- notes of all variants are cleared, and a later change of OVERRIDES leaves it so.
import Mathlib.Data.List.TakeWhile
import Yocto.DataReads
import Yocto.DataWrites
import Yocto.Runs

open yocto.list_search yocto.task_ids yocto.ordered_dict yocto.triples yocto.runs
open yocto.data_smart (Variable DataError)
open yocto.assignments (Store noEntry setvar_match keyword_at overrides_of override_names last_colon)
open yocto.override_choice (Noted overrides_of_spec)
open yocto.data_store
open yocto.triples.Prog (raise modify reading collect)

namespace yocto.set_then_get

variable {g : Expander} {var x : Text} {d s : Data}

/-! ## A variable that has its value -/

/-- The entry that is seen has the value and nothing to add to it or to remove, and there is no
variant. -/
structure Holds (var x : Text) (d : Data) : Prop where
  entry : ∃ e, d.findVar var = some e ∧ e.flags.get? content = some x ∧ e.append = [] ∧
    e.prepend = [] ∧ e.remove = []
  variants : d.overridedata.get? var = none

theorem Holds.read (h : Holds var x d) (fuel : Nat) :
    getVarFlag g (fuel + 1) (.plain var) d = (.ok (some x, none), d) := by
  obtain ⟨e, hvar, hvalue, happend, hprepend, hremove⟩ := h.entry
  have hcached : cached d (.plain var) = none := by
    unfold cached
    split <;> rfl
  have hoverride : override_value (getVarFlag g fuel) (.plain var) d = (.ok (none, none), d) := by
    have hdata : (if (Query.plain var).flag = content ∧ !(Query.plain var).parsing then
        d.overridedata.get? (Query.plain var).var else none) = none := by
      rw [if_pos ⟨rfl, rfl⟩]
      exact h.variants
    unfold override_value
    simp only [reading, hdata]
    rfl
  have hfind : d.findVar (Query.plain var).var = some e := hvar
  have hown : entry_value (.plain var) (some e) none = some x := by
    have hflag : e.flags.get? (Query.plain var).flag = some x := hvalue
    simp only [entry_value, hflag]
  have htext : unexpanded_value (getVarFlag g fuel) (.plain var) d = (.ok (some x, none), d) := by
    unfold unexpanded_value
    simp only [reading]
    rw [bind_ok hoverride]
    simp only [hfind, hown, happend, hprepend, add_active, if_true]
    split <;> rfl
  have hparse : parse_value g (getVarFlag g fuel) (.plain var) (some x) d = (.ok none, d) := by
    unfold parse_value
    rw [if_neg (by simp [Query.plain])]
    rfl
  have hremoves : own_removes (getVarFlag g fuel) (.plain var) (some e) (some x) none d =
      (.ok [], d) := by
    unfold own_removes
    dsimp only
    rw [if_neg (fun hall => hall.2.2.1 hremove)]
    rfl
  have hwords : remove_words g (getVarFlag g fuel) (.plain var) (some e) (some x) none none d =
      (.ok none, d) := by
    unfold remove_words
    rw [bind_ok hremoves]
    rfl
  have hexpand : expanded_value g (getVarFlag g fuel) (.plain var) (some e) (some x) none d =
      (.ok (some x, none), d) := by
    unfold expanded_value
    rw [bind_ok hparse]
    exact bind_ok hwords
  rw [getVarFlag, if_neg (by simp [Query.plain, content, text])]
  simp only [reading, hcached]
  rw [bind_ok htext, hfind]
  exact hexpand

/-! ## Names -/

/-- The name of the variable that a name begins with. -/
def family (name : Text) : Text := name.takeWhile (· ≠ ':')

theorem family_cut (s t : Text) : family (s ++ ':' :: t) = family s := by
  unfold family
  induction s with
  | nil => simp
  | cons c s ih =>
    rw [List.cons_append, List.takeWhile_cons, List.takeWhile_cons, ih]

theorem keyword_colon {s keyword : Text} {add : Option Text} (h : keyword_at s = some (keyword, add)) :
    ∃ rest, s = ':' :: rest := by
  unfold keyword_at at h
  obtain ⟨k, hk, hfound⟩ := List.exists_of_findSome?_eq_some h
  split at hfound
  · rename_i hprefix
    obtain ⟨rest, rfl⟩ := hprefix
    simp only [assignments.setvar_keyword, text, List.mem_cons, List.not_mem_nil, or_false] at hk
    rcases hk with rfl | rfl | rfl <;> exact ⟨_, rfl⟩
  · cases hfound

theorem family_base {name base keyword : Text} {add : Option Text}
    (h : setvar_match name = some (base, keyword, add)) : family name = family base := by
  have hcut : ∃ rest, name = base ++ ':' :: rest := by
    induction name generalizing base with
    | nil => cases h
    | cons c cs ih =>
      rw [setvar_match] at h
      split at h
      · rename_i hfound
        obtain ⟨rfl, rfl⟩ := Prod.mk.inj (Option.some.inj h)
        obtain ⟨rest, hrest⟩ := keyword_colon hfound
        exact ⟨rest, hrest⟩
      · obtain ⟨⟨before, y⟩, hy, heq⟩ := Option.map_eq_some_iff.mp h
        obtain ⟨rfl, rfl⟩ := Prod.mk.inj heq
        obtain ⟨rest, rfl⟩ := ih hy
        exact ⟨rest, rfl⟩
  obtain ⟨rest, rfl⟩ := hcut
  exact family_cut base rest

theorem family_noted {name : Text} (h : ':' ∈ name) :
    ∀ y ∈ overrides_of name, family y.1 = family name ∧ y.1 ≠ name := by
  intro y hy
  have hname := overrides_of_spec h y hy
  refine ⟨?_, fun heq => ?_⟩
  · rw [hname]
    exact (family_cut y.1 y.2).symm
  · have hlength := congrArg List.length hname
    rw [heq, List.length_append, List.length_cons] at hlength
    omega

theorem not_noted {name : Text} (h : ':' ∉ name) (hname : assignments.override_name name = false) :
    overrides_of name = [] := by
  have hlast : last_colon name = (name, name.dropLast) := if_neg h
  unfold overrides_of
  rw [hlast, override_names, if_neg (by simp [hname])]

/-! ## Calls for another variable -/

/-- The variable has its value, it is not of the family `root`, and it is not noted as a variant
of a name of this family. -/
structure Aside (root var x : Text) (d : Data) : Prop where
  holds : Holds var x d
  other : family var ≠ root
  unnoted : ∀ name r, family name = root → Noted d.overridedata name r → r.1 ≠ var

section
variable {root : Text}

theorem Aside.write (h : Aside root var x d) (hfind : s.findVar var = d.findVar var)
    (hvariants : d.overridedata.get? var = none → s.overridedata.get? var = none)
    (hnoted : ∀ name r, family name = root → Noted s.overridedata name r →
      Noted d.overridedata name r ∨ r.1 ≠ var) : Aside root var x s := by
  refine ⟨⟨by rw [hfind]; exact h.holds.entry, hvariants h.holds.variants⟩, h.other, ?_⟩
  intro name r hname hr
  rcases hnoted name r hname hr with hr | hne
  · exact h.unnoted name r hname hr
  · exact hne

theorem Aside.of_same (h : Aside root var x d) (hsame : SameVariables d s) : Aside root var x s :=
  h.write (by rw [Data.findVar, hsame.1, hsame.2.1]; rfl) (by rw [hsame.2.2.1]; exact id)
    fun name r _ hr => Or.inl (by rw [hsame.2.2.1] at hr; exact hr)

theorem Aside.ne (h : Aside root var x d) {name : Text} (hname : family name = root) :
    var ≠ name := fun heq => h.other (heq ▸ hname)

theorem Aside.shadow (h : Aside root var x d) {name : Text} (hname : family name = root) :
    Aside root var x (d.shadow name) := by
  obtain ⟨hparents, hover, _⟩ := shadow_same d name
  refine h.write ?_ (by rw [hover]; exact id) fun _ r _ hr => Or.inl (by rw [hover] at hr; exact hr)
  unfold Data.findVar
  rw [List.findSome?_cons, List.findSome?_cons, hparents, get?_shadow, if_neg (h.ne hname)]

theorem Aside.setEntry (h : Aside root var x d) {name : Text} (hname : family name = root)
    (entry : Variable) : Aside root var x (d.setEntry name entry) :=
  h.write (findVar_set_other d entry (h.ne hname)) id fun _ _ _ hr => Or.inl hr

theorem Aside.delVar (h : Aside root var x d) {name : Text} (hname : name ≠ var) :
    Aside root var x (d.delVar name) :=
  h.write (findVar_set_other d noEntry hname.symm)
    (fun hnone => delVar_variants _ _ _ (Or.inr hnone)) fun _ _ _ hr => Or.inl (noted_delVar hr)

theorem Aside.update_overrides (h : Aside root var x d) {name : Text} (hname : family name = root)
    (hroot : assignments.override_name root = false) :
    Aside root var x (d.setvar_update_overrides name) := by
  have hkeys : ∀ y ∈ overrides_of name, y.1 ≠ var := by
    intro y hy
    by_cases hcolon : ':' ∈ name
    · have hfamily := (family_noted hcolon y hy).1
      exact (h.ne (hfamily.trans hname)).symm
    · have hself : family name = name := by
        unfold family
        apply List.takeWhile_eq_self_iff.mpr
        intro c hc
        simpa using fun heq : c = ':' => hcolon (heq ▸ hc)
      rw [hself] at hname
      rw [not_noted hcolon (hname ▸ hroot)] at hy
      cases hy
  refine h.write rfl (fun hnone => by rw [get?_update_overrides d hkeys]; exact hnone) ?_
  intro other r _ hr
  rcases (override_choice.noted_update ⟨[], d.overridedata, false⟩ name other r).mp hr with hr | ⟨y, _, _, rfl⟩
  · exact Or.inl hr
  · exact Or.inr (h.ne hname).symm

theorem getVarFlag_aside (fuel : Nat) (q : Query) :
    Keeps (Aside root var x) (getVarFlag g fuel q) := fun d h =>
  h.of_same (getVarFlag_variables d fuel q d ⟨rfl, rfl, rfl, rfl⟩)

/-! ## The overridevars -/

/-- What changes the names that OVERRIDES depends on, and forgets the overrides, keeps it. -/
structure Forgets (I : Data → Prop) : Prop where
  vars : ∀ s overridevars, I s → I { s with overridevars }
  overrides : ∀ s, I s → I { s with overrides := none }

theorem setvar_update_overridevars_keeps {I : Data → Prop} (h : Forgets I) {fuel : Nat}
    (hread : ∀ q, Keeps I (getVarFlag g fuel q)) (name value : Text) :
    Keeps I (setvar_update_overridevars g fuel name value) := by
  have hloop : ∀ turns new, Keeps I (update_overridevars_loop g fuel turns new) := by
    intro turns
    induction turns with
    | zero => exact fun _ => .raise _
    | succ turns ih =>
      intro new
      refine .reading fun s _ => .ite (fun _ => .pure _) fun _ => ?_
      refine Keeps.bind (.modify fun s hs => h.vars s _ hs) fun _ => ?_
      refine Keeps.bind (.collect (fun i => ?_) _) fun next => ih _
      exact (hread _).bind fun y => (run_keeps hread _).bind fun _ => .pure _
  refine (run_keeps hread _).bind fun vardata => (hloop _ _).bind fun _ => ?_
  exact .modify fun s hs => h.overrides s hs

theorem forgets_aside : Forgets (Aside root var x) :=
  ⟨fun _ _ h => h.write rfl id fun _ _ _ hr => Or.inl hr,
    fun _ h => h.write rfl id fun _ _ _ hr => Or.inl hr⟩

/-! ## A later change -/

theorem Aside.delete_active (h : Aside root var x d) {name : Text} (hname : family name = root) :
    Aside root var x ((active_of d ((d.overridedata.get? name).getD [])).foldl Data.delVar d) := by
  have hactive : ∀ r ∈ active_of d ((d.overridedata.get? name).getD []), r ≠ var := by
    intro r hr
    obtain ⟨y, hy, rfl⟩ := List.mem_map.mp hr
    have hmem := (List.mem_filter.mp hy).1
    cases hget : d.overridedata.get? name with
    | none =>
      rw [hget] at hmem
      cases hmem
    | some data =>
      rw [hget] at hmem
      exact h.unnoted name y hname ⟨data, hget, hmem⟩
  revert hactive
  generalize active_of d ((d.overridedata.get? name).getD []) = rs
  intro hactive
  induction rs generalizing d with
  | nil => exact h
  | cons r rs ih =>
    rw [List.forall_mem_cons] at hactive
    exact ih (h.delVar hactive.1) hactive.2

theorem clear_variable_aside {fuel : Nat} {name : Text} (hname : family name = root)
    (parsing : Bool) : Keeps (Aside root var x) (clear_variable (getVarFlag g fuel) name parsing) := by
  have hleaves : LeavesOverrides (Aside root var x) :=
    ⟨fun _ _ _ _ _ h => h.write rfl id fun _ _ _ hr => Or.inl hr,
      fun _ h => h.write rfl id fun _ _ _ hr => Or.inl hr⟩
  refine .ite (fun _ => .pure _) fun _ => ?_
  refine Keeps.bind (.modify fun s h => h.setEntry hname _) fun _ => .reading fun s _ => ?_
  split
  · exact .pure _
  · refine (need_overrides_keeps hleaves (getVarFlag_aside fuel)).bind fun _ => ?_
    refine Keeps.bind (.modify fun s h => h.delete_active hname) fun _ => .reading fun s _ => ?_
    refine .ite (fun _ => .modify fun s h => ?_) fun _ => .raise _
    refine h.write rfl (fun hnone => ?_) fun v r _ hr => Or.inl ?_
    · rw [OrderedDict.get?_del, hnone, ite_self]
    · obtain ⟨data, hget, hmem⟩ := hr
      rw [OrderedDict.get?_del] at hget
      split at hget
      · cases hget
      · exact ⟨data, hget, hmem⟩

theorem Aside.add (h : Aside root var x d) {base : Text} (hbase : family base = root)
    (keyword : Text) (text : Text × Text) : Aside root var x (d.add base keyword text) := by
  refine Aside.setEntry ?_ hbase _
  exact (h.write (s := { d with expand_cache := [], var_renames := _, failed := _ }) rfl id
    fun _ _ _ hr => Or.inl hr).shadow hbase

theorem setvar_update_overridevars_aside {fuel : Nat} (name value : Text) :
    Keeps (Aside root var x) (setvar_update_overridevars g fuel name value) :=
  setvar_update_overridevars_keeps forgets_aside (getVarFlag_aside fuel) name value

theorem setVar_aside (hroot : assignments.override_name root = false) {fuel : Nat} {name : Text}
    (hname : family name = root) (value : Text) (parsing : Bool) :
    Keeps (Aside root var x) (setVar g fuel name value parsing) := by
  refine .ite (fun _ => .raise _) fun _ => ?_
  refine Keeps.bind (.modify fun s h => h.write rfl id fun _ _ _ hr => Or.inl hr) fun _ => ?_
  split
  · rename_i base keyword override hmatch
    have hbase : family base = root := (family_base hmatch).symm.trans hname
    refine Keeps.bind (.modify fun s h => ?_) fun _ => .reading fun s _ => ?_
    · dsimp only
      split
      · exact (h.add hbase _ _).update_overrides hbase hroot
      · exact h.add hbase _ _
    · exact .ite (fun _ => setvar_update_overridevars_aside _ _) fun _ => .pure _
  · refine Keeps.bind (.modify fun s h => h.shadow hname) fun _ => ?_
    refine (clear_variable_aside hname parsing).bind fun _ => ?_
    refine Keeps.bind (.modify fun s h => ?_) fun _ => .reading fun s _ => ?_
    · dsimp only
      split
      · exact (h.update_overrides hname hroot).setEntry hname _
      · exact h.setEntry hname _
    · exact .ite (fun _ => setvar_update_overridevars_aside _ _) fun _ => .pure _

theorem setVarFlag_aside (hroot : assignments.override_name root = false) {fuel : Nat} {name : Text}
    (hname : family name = root) (flag value : Text) :
    Keeps (Aside root var x) (setVarFlag g fuel name flag value) := by
  refine Keeps.bind (.modify fun s h => ?_) fun _ => .reading fun s _ => ?_
  · have hbegin : Aside root var x (s.begin_flag name flag) :=
      (h.write (s := { s with expand_cache := [], var_renames := _, failed := _ }) rfl id
        fun _ _ _ hr => Or.inl hr).shadow hname
    dsimp only
    split
    · exact (hbegin.setEntry hname _).update_overrides hname hroot
    · exact hbegin.setEntry hname _
  · exact .ite (fun _ => setvar_update_overridevars_aside _ _) fun _ => .pure _

end

/-! ## Setting a value -/

/-- Nothing is added to the content of the own entry, and nothing is removed from it. -/
def Cleared (var : Text) (d : Data) : Prop :=
  (d.entry var).append = [] ∧ (d.entry var).prepend = [] ∧ (d.entry var).remove = []

theorem Cleared.delVar (h : Cleared var d) (name : Text) : Cleared var (d.delVar name) := by
  unfold Cleared Data.entry at *
  by_cases hname : var = name
  · have hget : (d.delVar name).dict.get? var = some noEntry := by
      rw [hname]
      exact OrderedDict.get?_set_self _ _ _
    rw [hget]
    exact ⟨rfl, rfl, rfl⟩
  · have hget : (d.delVar name).dict.get? var = d.dict.get? var :=
      OrderedDict.get?_set_other _ _ hname
    rw [hget]
    exact h

theorem Cleared.delete (h : Cleared var d) (names : List Text) :
    Cleared var (names.foldl Data.delVar d) := by
  induction names generalizing d with
  | nil => exact h
  | cons name names ih => exact ih (h.delVar name)

theorem getVarFlag_holds (fuel : Nat) (q : Query) : Keeps (Holds var x) (getVarFlag g fuel q) := by
  intro d h
  have hsame := getVarFlag_variables (g := g) d fuel q d ⟨rfl, rfl, rfl, rfl⟩
  refine ⟨?_, by rw [hsame.2.2.1]; exact h.variants⟩
  rw [Data.findVar, hsame.1, hsame.2.1]
  exact h.entry

theorem clear_variable_ends {fuel : Nat} (h : clear_variable (getVarFlag g fuel) var false d = (.ok (), s)) :
    Cleared var s ∧ s.overridedata.get? var = none := by
  unfold clear_variable at h
  rw [if_neg Bool.false_ne_true] at h
  obtain ⟨_, t, hentry, h⟩ := bind_ends h
  have hcleared : Cleared var t := by
    rw [← (Prod.mk.inj hentry).2]
    simp [Cleared, Data.entry, Data.setEntry, OrderedDict.get?_set_self]
  simp only [reading] at h
  cases hget : t.overridedata.get? var with
  | none =>
    simp only [hget] at h
    rw [← (Prod.mk.inj h).2]
    exact ⟨hcleared, hget⟩
  | some data =>
    simp only [hget] at h
    obtain ⟨_, u, hneed, h⟩ := bind_ends h
    have hsame : SameVariables t u := by
      have hkeeps := need_overrides_keeps (I := SameVariables t)
        ⟨fun _ _ _ _ _ hs => hs, fun _ hs => hs⟩ (getVarFlag_variables (g := g) t fuel) t
        ⟨rfl, rfl, rfl, rfl⟩
      rw [hneed] at hkeeps
      exact hkeeps
    have hclear : Cleared var u := by
      unfold Cleared Data.entry
      rw [hsame.1]
      exact hcleared
    obtain ⟨_, v, hdelete, h⟩ := bind_ends h
    have hdeleted : Cleared var v := by
      rw [← (Prod.mk.inj hdelete).2]
      exact hclear.delete _
    simp only [reading] at h
    split at h
    · rw [← (Prod.mk.inj h).2]
      refine ⟨hdeleted, ?_⟩
      dsimp only
      rw [OrderedDict.get?_del, if_pos rfl]
    · cases (Prod.mk.inj h).1

theorem setVar_holds {fuel : Nat} (hkey : setvar_match var = none)
    (h : setVar g fuel var x false d = (.ok (), s)) : Holds var x s := by
  unfold setVar at h
  split at h
  · cases (Prod.mk.inj h).1
  · obtain ⟨_, t, _, h⟩ := bind_ends h
    simp only [hkey] at h
    obtain ⟨_, u, _, h⟩ := bind_ends h
    obtain ⟨_, v, hclear, h⟩ := bind_ends h
    obtain ⟨hcleared, hvariants⟩ := clear_variable_ends hclear
    obtain ⟨_, w, hset, h⟩ := bind_ends h
    have hholds : Holds var x w := by
      rw [← (Prod.mk.inj hset).2]
      dsimp only
      have hentry : ∀ d : Data, Cleared var d → ∃ e, (d.setEntry var { d.entry var with
          flags := (d.entry var).flags.set content x }).findVar var = some e ∧
          e.flags.get? content = some x ∧ e.append = [] ∧ e.prepend = [] ∧ e.remove = [] :=
        fun d hd => ⟨_, findVar_set d var _, OrderedDict.get?_set_self _ _ _, hd.1, hd.2.1, hd.2.2⟩
      by_cases hcolon : ':' ∈ var
      · rw [if_pos hcolon]
        refine ⟨hentry _ hcleared, ?_⟩
        change (v.setvar_update_overrides var).overridedata.get? var = none
        rw [get?_update_overrides v (fun y hy => (family_noted hcolon y hy).2)]
        exact hvariants
      · rw [if_neg hcolon]
        exact ⟨hentry _ hcleared, hvariants⟩
    have hforgets : Forgets (Holds var x) :=
      ⟨fun _ _ h => ⟨h.entry, h.variants⟩, fun _ h => ⟨h.entry, h.variants⟩⟩
    have hupdate :=
      @setvar_update_overridevars_keeps g _ hforgets fuel (getVarFlag_holds fuel) var x w hholds
    simp only [reading] at h
    split at h
    · rw [h] at hupdate
      exact hupdate
    · rw [← (Prod.mk.inj h).2]
      exact hholds

/-! ## Later calls -/

/-- A read, a copy, or a write to OVERRIDES or to a variant of it. -/
def Later (_ : Data) (a : Nat × Action) : Prop :=
  match a.2 with
  | .getVarFlag _ | .getVarFlags _ _ _ | .createCopy => True
  | .setVar name _ _ | .setVarFlag name _ _ | .delVar name | .delVarFlag name _ |
    .delVarFlags name => family name = text "OVERRIDES"

def step (g : Expander) (d : Data) (a : Nat × Action) : Option Data := some (act g a.1 d a.2)

theorem Aside.step (h : Aside (text "OVERRIDES") var x d) {a : Nat × Action} (hlater : Later d a)
    (hstep : step g d a = some s) : Aside (text "OVERRIDES") var x s := by
  obtain rfl := Option.some.inj hstep
  have hroot : assignments.override_name (text "OVERRIDES") = false := by decide
  obtain ⟨fuel, a⟩ := a
  cases a with
  | getVarFlag q => exact getVarFlag_aside fuel q d h
  | getVarFlags v expand internalflags =>
    exact getVarFlags_keeps (getVarFlag_aside fuel) v expand internalflags d h
  | setVar name value parsing => exact setVar_aside hroot hlater value parsing d h
  | setVarFlag name flag value => exact setVarFlag_aside hroot hlater flag value d h
  | delVar name => exact h.delVar (h.ne hlater).symm
  | delVarFlag name flag =>
    have hempty : Aside _ var x { d with expand_cache := [] } := h.of_same ⟨rfl, rfl, rfl, rfl⟩
    change Aside _ var x (d.delVarFlag name flag)
    unfold Data.delVarFlag
    dsimp only
    split
    · exact hempty
    · split
      · exact hempty
      · exact (hempty.shadow hlater).setEntry hlater _
  | delVarFlags name =>
    have hempty : Aside _ var x { d with expand_cache := [] } := h.of_same ⟨rfl, rfl, rfl, rfl⟩
    have hshadow := hempty.shadow hlater
    change Aside _ var x (d.delVarFlags name)
    unfold Data.delVarFlags
    dsimp only
    split
    · exact hshadow.setEntry hlater _
    · refine hshadow.write ?_ id fun _ _ _ hr => Or.inl hr
      unfold Data.findVar
      rw [List.findSome?_cons, List.findSome?_cons, OrderedDict.get?_del, if_neg (h.ne hlater)]
  | createCopy => exact h.write rfl id fun _ _ _ hr => Or.inl hr

/-- The value that is set is read, and it is still read after any run of reads, copies and writes
to OVERRIDES and its variants, of which the variable is none. -/
theorem a_value_that_is_set_is_read (g : Expander) (fuel : Nat) (var x : Text) (d s : Data)
    (hkey : setvar_match var = none) (h : setVar g fuel var x false d = (.ok (), s)) :
    (∀ fuel, getVarFlag g (fuel + 1) (.plain var) s = (.ok (some x, none), s)) ∧
    (family var ≠ text "OVERRIDES" →
      (∀ name r, family name = text "OVERRIDES" → Noted s.overridedata name r → r.1 ≠ var) →
      ∀ t, Reaches (step g) Later s t →
        ∀ fuel, getVarFlag g (fuel + 1) (.plain var) t = (.ok (some x, none), t)) := by
  have hholds := setVar_holds hkey h
  refine ⟨hholds.read, fun hother hnoted t hrun => ?_⟩
  have haside : Aside (text "OVERRIDES") var x t :=
    hrun.invariant ⟨hholds, hother, hnoted⟩ fun _ _ _ h hlater hstep => h.step hlater hstep
  exact haside.holds.read

def busyVariable : Data :=
  let d := Data.empty
  let d := act plainText 9 d (.setVar (text "OVERRIDES") (text "a") true)
  let d := act plainText 9 d (.setVar (text "V:append") (text "+") true)
  let d := act plainText 9 d (.setVar (text "V:remove") (text "x") true)
  act plainText 9 d (.setVar (text "V:a") (text "va") true)

def setBusyVariable : Data := (setVar plainText 9 (text "V") (text "x") false busyVariable).2

theorem a_busy_variable_is_set :
    (∀ fuel, getVarFlag plainText (fuel + 1) (.plain (text "V")) setBusyVariable =
      (.ok (some (text "x"), none), setBusyVariable)) ∧
    ∀ fuel, getVarFlag plainText (fuel + 1) (.plain (text "V"))
      (act plainText 9 setBusyVariable (.setVar (text "OVERRIDES:append") (text ":b") false)) =
        (.ok (some (text "x"), none),
          act plainText 9 setBusyVariable (.setVar (text "OVERRIDES:append") (text ":b") false)) := by
  have hset : (setVar plainText 9 (text "V") (text "x") false busyVariable).1 = .ok () := by
    decide +kernel
  have hnotes : setBusyVariable.overridedata = [] := by decide +kernel
  obtain ⟨hfirst, hlater⟩ := a_value_that_is_set_is_read plainText 9 (text "V") (text "x")
    busyVariable setBusyVariable (by decide) (Prod.ext hset rfl)
  have hwrite : family (text "OVERRIDES:append") = text "OVERRIDES" := by decide
  refine ⟨hfirst, hlater (by decide) ?_ _ (.step (a := (9, .setVar (text "OVERRIDES:append")
    (text ":b") false)) .start hwrite rfl)⟩
  rintro name r _ ⟨data, hget, _⟩
  rw [hnotes] at hget
  cases hget

/-- A later value of OVERRIDES is what is read of OVERRIDES itself. -/
theorem a_later_value_of_overrides_is_read :
    setvar_match (text "OVERRIDES") = none ∧
    (setVar plainText 9 (text "OVERRIDES") (text "a") false Data.empty).1 = .ok () ∧
    (getVarFlag plainText 9 (.plain (text "OVERRIDES"))
      (act plainText 9 (setVar plainText 9 (text "OVERRIDES") (text "a") false Data.empty).2
        (.setVar (text "OVERRIDES") (text "b") false))).1.toOption.bind (·.1) = some (text "b") := by
  refine ⟨by decide, ?_, ?_⟩ <;> decide +kernel

end yocto.set_then_get
