-- What is deleted from a datastore stays deleted (`delVar`, `delVarFlag` and `delVarFlags` of
-- data_smart.py), while nothing is written.
import Yocto.DataReads
import Yocto.DataWrites
import Yocto.Runs

open yocto.list_search yocto.task_ids yocto.ordered_dict yocto.triples yocto.runs
open yocto.data_smart (Variable DataError)
open yocto.assignments (Store noEntry)
open yocto.data_store
open yocto.triples.Prog (raise modify reading collect)

namespace yocto.deletion

variable {g : Expander} {keep : Bool} {var : Text} {d : Data}

/-! ## Entries with nothing in them -/

/-- The entry holds nothing, or nothing but a content where this is kept. -/
structure Bare (keep : Bool) (entry : Variable) : Prop where
  flags : ∀ x ∈ entry.flags, keep = true ∧ x.1 = content
  append : entry.append = []
  prepend : entry.prepend = []
  remove : entry.remove = []

theorem Bare.noEntry : Bare keep noEntry :=
  ⟨(fun _ hx => nomatch hx), rfl, rfl, rfl⟩

theorem Bare.get? {entry : Variable} (h : Bare keep entry) {flag : Text}
    (hflag : flag ≠ content ∨ keep = false) : entry.flags.get? flag = none := by
  cases hget : entry.flags.get? flag with
  | none => rfl
  | some value =>
    obtain ⟨hkeep, hname⟩ := h.flags _ (OrderedDict.mem_of_get? hget)
    rcases hflag with hne | hnot
    · exact absurd hname hne
    · rw [hnot] at hkeep
      cases hkeep

theorem Bare.del_flag {entry : Variable} (h : Bare keep entry) (flag : Text) :
    Bare keep (del_flag entry flag) := by
  unfold data_store.del_flag
  split
  · exact ⟨h.flags, rfl, h.prepend, h.remove⟩
  · split
    · exact ⟨h.flags, h.append, rfl, h.remove⟩
    · split
      · exact ⟨h.flags, h.append, h.prepend, rfl⟩
      · exact ⟨fun x hx => h.flags x (List.mem_filter.mp hx).1, h.append, h.prepend, h.remove⟩

/-! ## Reading what is not there -/

section
variable {read : Read} {q : Query} {s : Data}

theorem override_value_none (h : q.flag = content → s.overridedata.get? q.var = none) :
    override_value read q s = (.ok (none, none), s) := by
  have hdata : (if q.flag = content ∧ !q.parsing then s.overridedata.get? q.var else none) = none := by
    split
    · rename_i hc
      exact h hc.1
    · rfl
  unfold override_value
  simp only [reading, hdata]
  rfl

theorem unexpanded_value_none (hentry : ∀ e, s.findVar q.var = some e → Bare keep e)
    (hflag : q.flag ≠ content ∨ keep = false)
    (h : q.flag = content → s.overridedata.get? q.var = none) :
    unexpanded_value read q s = (.ok (none, none), s) := by
  unfold unexpanded_value
  simp only [reading]
  rw [bind_ok (override_value_none h)]
  cases hvar : s.findVar q.var with
  | none => rfl
  | some e =>
    have hbare := hentry e hvar
    have hdefault : (if q.flag = content ∧ !q.noweakdefault then e.flags.get? defaultval else none) =
        none := by
      split
      · exact hbare.get? (Or.inl (by decide))
      · rfl
    have hvalue : entry_value q (some e) none = none := by
      simp only [entry_value, hbare.get? hflag, hdefault]
    simp only [hvalue, hbare.append, hbare.prepend, add_active, if_true]
    split <;> rfl

theorem expanded_value_none (local_var : Option Variable) :
    ∃ parser s', expanded_value g read q local_var none none s = (.ok (none, parser), s') ∧
      (s' = s ∨ ∃ p : Parse, p.value = none ∧ p.unexpanded = none ∧
        s' = { s with expand_cache := s.expand_cache.set q.cachename p }) := by
  have hremove : ∀ parser : Option Parse,
      remove_words g read q local_var none none parser s = (.ok parser, s) := by
    intro parser
    have hown : own_removes read q local_var none none s = (.ok [], s) := by
      unfold own_removes
      cases local_var with
      | none => rfl
      | some v =>
        dsimp only
        rw [if_neg (by simp)]
        rfl
    unfold remove_words
    rw [bind_ok hown]
    cases parser with
    | none => rfl
    | some p =>
      have htake : take_words g read q none none [] p s = (.ok p, s) := by
        unfold take_words
        rw [if_neg (by simp)]
        rfl
      dsimp only
      rw [bind_ok htake]
      rfl
  by_cases hparse : q.expand ∨ q.retparser
  · have hrun : parse_value g read q none s = (.ok (some ⟨⟨none, [], [], []⟩, none, none, [], none⟩), s) := by
      unfold parse_value
      rw [if_pos hparse]
      rfl
    refine ⟨some ⟨⟨none, [], [], []⟩, none, none, [], none⟩, _, ?_,
      Or.inr ⟨⟨⟨none, [], [], []⟩, none, none, [], s.overrides⟩, rfl, rfl, rfl⟩⟩
    unfold expanded_value
    rw [bind_ok hrun]
    cases hexpand : q.expand <;> simp only [Option.bind_some, Bool.false_eq_true, if_true, if_false] <;>
      rw [bind_ok (hremove _)] <;> simp only [store_parse, hexpand] <;> rfl
  · have hrun : parse_value g read q none s = (.ok none, s) := by
      unfold parse_value
      rw [if_neg hparse]
      rfl
    refine ⟨none, s, ?_, Or.inl rfl⟩
    unfold expanded_value
    rw [bind_ok hrun]
    simp only [Option.bind_none, ite_self]
    rw [bind_ok (hremove _)]
    rfl

end

/-! ## What is hidden -/

/-- A name under which the cache keeps something of the variable that was deleted. -/
def Hides (keep : Bool) (var name : Text) : Prop :=
  keep = false ∧ name = var ∨ ∃ flag, flag ≠ content ∧ name = var ++ '[' :: (flag ++ [']'])

/-- Nothing is there of a variable. -/
structure Nothing (d : Data) (var : Text) : Prop where
  levels : ∀ level ∈ d.dict :: d.parents, ∀ e, level.get? var = some e → Bare false e
  variants : d.overridedata.get? var = none

theorem Nothing.findVar (h : Nothing d var) : ∀ e, d.findVar var = some e → Bare false e := by
  intro e he
  obtain ⟨level, hlevel, hget⟩ := List.exists_of_findSome?_eq_some he
  exact h.levels level hlevel e hget

/-- A variable of another name for which the cache would take the same name is not there. -/
def NoClash (keep : Bool) (var : Text) (d : Data) : Prop :=
  ∀ q : Query, q.var ≠ var → Hides keep var q.cachename → Nothing d q.var

/-- What was deleted of a variable is not there, in no level that is seen and not in the cache. -/
structure Hidden (keep : Bool) (var : Text) (d : Data) : Prop where
  entry : ∀ e, d.findVar var = some e → Bare keep e
  variants : keep = false → d.overridedata.get? var = none
  clash : NoClash keep var d
  cache : ∀ x ∈ d.expand_cache, Hides keep var x.1 → x.2.value = none ∧ x.2.unexpanded = none

theorem Hidden.of_same {s : Data} (h : Hidden keep var d) (hsame : SameVariables d s)
    (hcache : ∀ x ∈ s.expand_cache, Hides keep var x.1 →
      x.2.value = none ∧ x.2.unexpanded = none) : Hidden keep var s := by
  obtain ⟨hdict, hparents, hover, _⟩ := hsame
  have hfind : ∀ v, s.findVar v = d.findVar v := fun v => by rw [Data.findVar, hdict, hparents]; rfl
  refine ⟨fun e he => h.entry e (by rw [← hfind, he]), fun hkeep => ?_, fun q hvar hname => ?_, hcache⟩
  · rw [hover]
    exact h.variants hkeep
  · obtain ⟨hlevels, hvariants⟩ := h.clash q hvar hname
    exact ⟨by rw [hdict, hparents]; exact hlevels, by rw [hover]; exact hvariants⟩

theorem hides_own {q : Query} (hvar : q.var = var) (h : Hides keep var q.cachename) :
    q.flag ≠ content ∨ keep = false := by
  by_cases hflag : q.flag = content
  · refine Or.inr ?_
    rcases h with ⟨hkeep, _⟩ | ⟨flag, _, hname⟩
    · exact hkeep
    · have hlength := congrArg List.length hname
      simp [Query.cachename, hflag, hvar] at hlength
  · exact Or.inl hflag

theorem hides_of_flag {q : Query} (hvar : q.var = var) (hflag : q.flag ≠ content ∨ keep = false) :
    Hides keep var q.cachename := by
  unfold Query.cachename
  by_cases hc : q.flag = content
  · rw [if_pos hc]
    exact Or.inl ⟨hflag.resolve_left (fun h => h hc), hvar⟩
  · rw [if_neg hc]
    exact Or.inr ⟨q.flag, hc, by rw [hvar]⟩

theorem Hidden.read (h : Hidden keep var d) {q : Query} (hq : Hides keep var q.cachename)
    (fuel : Nat) : ∃ parser s', getVarFlag g (fuel + 1) q d = (.ok (none, parser), s') ∧
      Hidden keep var s' := by
  by_cases hempty : q.flag = []
  · refine ⟨none, d, ?_, h⟩
    rw [getVarFlag, if_pos hempty]
    rfl
  rw [getVarFlag, if_neg hempty]
  simp only [reading]
  cases hcached : cached d q with
  | some x =>
    refine ⟨some x.2, d, ?_, h⟩
    have hnone : x.1 = none := by
      unfold cached at hcached
      split at hcached
      · cases hcached
      · rename_i p hget
        obtain ⟨hvalue, hunexpanded⟩ := h.cache _ (OrderedDict.mem_of_get? hget) hq
        split at hcached
        · rw [← Option.some.inj hcached]
          exact hvalue
        · split at hcached
          · rw [← Option.some.inj hcached]
            exact hunexpanded
          · cases hcached
    simp only [hnone]
    rfl
  | none =>
    have hunexpanded : unexpanded_value (getVarFlag g fuel) q d = (.ok (none, none), d) := by
      by_cases hvar : q.var = var
      · have hflag := hides_own hvar hq
        have hbare : ∀ e, d.findVar q.var = some e → Bare keep e := by
          rw [hvar]
          exact h.entry
        refine unexpanded_value_none hbare hflag fun hc => ?_
        rw [hvar]
        exact h.variants (hflag.resolve_left (fun hne => hne hc))
      · have hnothing := h.clash q hvar hq
        exact unexpanded_value_none hnothing.findVar (Or.inr rfl) (fun _ => hnothing.variants)
    dsimp only
    rw [bind_ok hunexpanded]
    obtain ⟨parser, s', hend, hs'⟩ :=
      @expanded_value_none g (getVarFlag g fuel) q d (d.findVar q.var)
    refine ⟨parser, s', hend, ?_⟩
    rcases hs' with rfl | ⟨p, hvalue, hunexp, rfl⟩
    · exact h
    · refine h.of_same ⟨rfl, rfl, rfl, rfl⟩ fun x hx hname => ?_
      rcases OrderedDict.mem_of_mem_set hx with hx | rfl
      · exact h.cache x hx hname
      · exact ⟨hvalue, hunexp⟩

theorem foldl_add (p : Parse) (rs : List Text) :
    (rs.foldl Parse.add p).value = p.value ∧ (rs.foldl Parse.add p).unexpanded = p.unexpanded := by
  induction rs generalizing p with
  | nil => exact ⟨rfl, rfl⟩
  | cons r rs ih =>
    rw [List.foldl_cons, (ih _).1, (ih _).2, Parse.add]
    split <;> exact ⟨rfl, rfl⟩

theorem getVarFlag_hidden (fuel : Nat) (q : Query) : Keeps (Hidden keep var) (getVarFlag g fuel q) := by
  have hleaves : LeavesOverrides (Hidden keep var) :=
    ⟨fun _ _ _ _ _ h => h.of_same ⟨rfl, rfl, rfl, rfl⟩ h.cache,
      fun _ h => h.of_same ⟨rfl, rfl, rfl, rfl⟩ fun x hx => nomatch hx⟩
  induction fuel generalizing q with
  | zero => exact .raise _
  | succ fuel ih =>
    by_cases hq : Hides keep var q.cachename
    · intro s hs
      obtain ⟨_, s', hend, hs'⟩ := hs.read (g := g) hq fuel
      rw [hend]
      exact hs'
    · apply getVarFlag_keeps_step
      · refine ⟨ih, need_overrides_keeps hleaves ih, fun s name p rs h hget => ?_⟩
        refine h.of_same ⟨rfl, rfl, rfl, rfl⟩ fun x hx hname => ?_
        rcases OrderedDict.mem_of_mem_set hx with hx | rfl
        · exact h.cache x hx hname
        · rw [(foldl_add p rs).1, (foldl_add p rs).2]
          exact h.cache _ (OrderedDict.mem_of_get? hget) hname
      · intro s parser h
        refine h.of_same ⟨rfl, rfl, rfl, rfl⟩ fun x hx hname => ?_
        rcases OrderedDict.mem_of_mem_set hx with hx | rfl
        · exact h.cache x hx hname
        · exact absurd hname hq

/-! ## Deletions -/

/-- What a deletion of `v` does to the store: an entry with nothing in it stays so, and nothing is
done to another variable. -/
structure Deleted (v : Text) (d s : Data) : Prop where
  parents : s.parents = d.parents
  cache : s.expand_cache = []
  variants : ∀ w, d.overridedata.get? w = none → s.overridedata.get? w = none
  other : ∀ w, w ≠ v → s.dict.get? w = d.dict.get? w
  own : ∀ keep e, s.dict.get? v = some e → (∀ e', d.findVar v = some e' → Bare keep e') → Bare keep e

theorem Deleted.delVar (d : Data) (v : Text) : Deleted v d (d.delVar v) where
  parents := rfl
  cache := rfl
  variants w h := delVar_variants d.overridedata v w (Or.inr h)
  other w hw := OrderedDict.get?_set_other _ _ hw
  own keep e he _ := by
    have hnew : (d.delVar v).dict.get? v = some noEntry := OrderedDict.get?_set_self _ _ _
    rw [hnew] at he
    rw [← Option.some.inj he]
    exact .noEntry

theorem Deleted.delVarFlag (d : Data) (v flag : Text) : Deleted v d (d.delVarFlag v flag) := by
  have hsame : Deleted v d { d with expand_cache := [] } :=
    ⟨rfl, rfl, fun _ h => h, fun _ _ => rfl, fun _ e he h => h e (findVar_own he)⟩
  have hfind : Data.findVar { d with expand_cache := [] } v = d.findVar v := rfl
  unfold Data.delVarFlag
  dsimp only
  rw [hfind]
  cases hvar : d.findVar v with
  | none => exact hsame
  | some entry =>
    dsimp only
    split
    · exact hsame
    · obtain ⟨hparents, hover, hcache⟩ := shadow_same { d with expand_cache := [] } v
      refine ⟨hparents, hcache, fun w hw => ?_, fun w hw => ?_, fun keep e he h => ?_⟩
      · change (({ d with expand_cache := [] } : Data).shadow v).overridedata.get? w = none
        rw [hover]
        exact hw
      · rw [Data.setEntry, OrderedDict.get?_set_other _ _ hw, get?_shadow, if_neg hw]
      · rw [Data.setEntry, OrderedDict.get?_set_self] at he
        rw [← Option.some.inj he, shadow_entry, hfind, hvar]
        exact (h entry hvar).del_flag flag

theorem Deleted.delVarFlags (d : Data) (v : Text) : Deleted v d (d.delVarFlags v) := by
  obtain ⟨hparents, hover, hcache⟩ := shadow_same { d with expand_cache := [] } v
  have hfind : Data.findVar { d with expand_cache := [] } v = d.findVar v := rfl
  unfold Data.delVarFlags
  dsimp only
  rw [shadow_entry, hfind]
  split
  · rename_i value hcontent
    refine ⟨hparents, hcache, fun w hw => ?_, fun w hw => ?_, fun keep e he h => ?_⟩
    · change (({ d with expand_cache := [] } : Data).shadow v).overridedata.get? w = none
      rw [hover]
      exact hw
    · rw [Data.setEntry, OrderedDict.get?_set_other _ _ hw, get?_shadow, if_neg hw]
    · rw [Data.setEntry, OrderedDict.get?_set_self] at he
      cases hvar : d.findVar v with
      | none =>
        rw [hvar] at hcontent
        cases hcontent
      | some entry =>
        rw [hvar] at hcontent
        have hkeep := ((h entry hvar).flags _ (OrderedDict.mem_of_get? hcontent)).1
        rw [← Option.some.inj he]
        exact ⟨fun x hx => ⟨hkeep, by rw [List.mem_singleton.mp hx]⟩, rfl, rfl, rfl⟩
  · refine ⟨hparents, hcache, fun w hw => ?_, fun w hw => ?_, fun keep e he h => ?_⟩
    · rw [hover]
      exact hw
    · rw [OrderedDict.get?_del, if_neg hw, get?_shadow, if_neg hw]
    · rw [OrderedDict.get?_del, if_pos rfl] at he
      cases he

theorem Deleted.nothing {v w : Text} {s : Data} (h : Deleted v d s) (hnothing : Nothing d w) :
    Nothing s w := by
  refine ⟨fun level hlevel e he => ?_, h.variants w hnothing.variants⟩
  rw [h.parents] at hlevel
  rcases List.mem_cons.mp hlevel with rfl | hlevel
  · by_cases hw : w = v
    · subst hw
      exact h.own false e he hnothing.findVar
    · rw [h.other w hw] at he
      exact hnothing.levels _ List.mem_cons_self e he
  · exact hnothing.levels level (List.mem_cons_of_mem _ hlevel) e he

theorem Deleted.hidden {v : Text} {s : Data} (h : Deleted v d s) (hhidden : Hidden keep var d)
    (hstays : v = var → s.dict.get? var = none →
      ∀ e, (d.parents.findSome? fun level => level.get? var) = some e → Bare keep e) :
    Hidden keep var s := by
  refine ⟨fun e he => ?_, fun hkeep => h.variants var (hhidden.variants hkeep),
    fun q hq hname => h.nothing (hhidden.clash q hq hname), fun x hx => ?_⟩
  · by_cases hv : v = var
    · subst hv
      cases hown : s.dict.get? v with
      | none =>
        rw [findVar_parents hown, h.parents] at he
        exact hstays rfl hown e he
      | some e' =>
        rw [findVar_own hown] at he
        obtain rfl := Option.some.inj he
        exact h.own keep e' hown hhidden.entry
    · apply hhidden.entry
      unfold Data.findVar at he ⊢
      rw [List.findSome?_cons, h.parents, h.other var (Ne.symm hv)] at he
      rw [List.findSome?_cons]
      exact he
  · rw [h.cache] at hx
    cases hx

/-! ## Runs without a write -/

def Deletes : Action → Prop
  | .getVarFlag _ | .getVarFlags _ _ _ | .delVar _ | .delVarFlag _ _ | .delVarFlags _ => True
  | .setVar _ _ _ | .setVarFlag _ _ _ | .createCopy => False

/-- The entry that is seen has a content, or the parents hold nothing that was deleted: then
`delVarFlags` uncovers nothing. -/
def Covered (keep : Bool) (var : Text) (d : Data) : Prop :=
  (∃ e, d.findVar var = some e ∧ (e.flags.get? content).isSome) ∨
    ∀ e, (d.parents.findSome? fun level => level.get? var) = some e → Bare keep e

/-- A call of a run: no write, and `delVarFlags` of the variable while it uncovers nothing. -/
def Allowed (keep : Bool) (var : Text) (d : Data) (x : Nat × Action) : Prop :=
  Deletes x.2 ∧ (x.2 = .delVarFlags var → Covered keep var d)

def step (g : Expander) (d : Data) (x : Nat × Action) : Option Data := some (act g x.1 d x.2)

theorem delVarFlags_own (h : (d.delVarFlags var).dict.get? var = none) (hcovered : Covered keep var d) :
    ∀ e, (d.parents.findSome? fun level => level.get? var) = some e → Bare keep e := by
  rcases hcovered with ⟨e, hvar, hcontent⟩ | hparents
  · exfalso
    obtain ⟨value, hvalue⟩ := Option.isSome_iff_exists.mp hcontent
    have hfind : Data.findVar { d with expand_cache := [] } var = some e := hvar
    unfold Data.delVarFlags at h
    dsimp only at h
    rw [shadow_entry, hfind] at h
    simp only [Option.getD_some, hvalue, Data.setEntry, OrderedDict.get?_set_self] at h
    cases h
  · exact hparents

theorem delVarFlag_own {v flag : Text} (h : (d.delVarFlag v flag).dict.get? v = none) :
    d.dict.get? v = none := by
  unfold Data.delVarFlag at h
  dsimp only at h
  split at h
  · exact h
  · split at h
    · exact h
    · rw [Data.setEntry, OrderedDict.get?_set_self] at h
      cases h

theorem Hidden.step {s : Data} {x : Nat × Action} (h : Hidden keep var d) (hok : Allowed keep var d x)
    (hstep : step g d x = some s) : Hidden keep var s := by
  obtain rfl := Option.some.inj hstep
  obtain ⟨fuel, a⟩ := x
  cases a with
  | getVarFlag q => exact getVarFlag_hidden fuel q d h
  | getVarFlags v expand internalflags =>
    exact getVarFlags_keeps (getVarFlag_hidden fuel) v expand internalflags d h
  | delVar v =>
    refine (Deleted.delVar d v).hidden h fun hv hnone => ?_
    subst hv
    rw [show (d.delVar v).dict.get? v = some noEntry from OrderedDict.get?_set_self _ _ _] at hnone
    cases hnone
  | delVarFlag v flag =>
    refine (Deleted.delVarFlag d v flag).hidden h fun hv hnone e he => ?_
    subst hv
    apply h.entry
    rw [findVar_parents (delVarFlag_own hnone), he]
  | delVarFlags v =>
    refine (Deleted.delVarFlags d v).hidden h fun hv hnone => ?_
    subst hv
    exact delVarFlags_own hnone (hok.2 rfl)
  | setVar _ _ _ => exact hok.1.elim
  | setVarFlag _ _ _ => exact hok.1.elim
  | createCopy => exact hok.1.elim

/-- Nothing that was deleted of a variable can be read: no flag, and no content where this was not
kept. -/
structure Unset (g : Expander) (keep : Bool) (var : Text) (d : Data) : Prop where
  value : ∀ fuel q value parser s, q.var = var → (q.flag ≠ content ∨ keep = false) →
    getVarFlag g fuel q d = (.ok (value, parser), s) → value = none
  flags : ∀ fuel expand internalflags flags s,
    getVarFlags g fuel var expand internalflags d = (.ok (some flags), s) →
    ∀ x ∈ flags, keep = true ∧ internalflags = true ∧ x.1 = content

theorem collect_keys {f : Text × Text → Call (Text × Option Text)}
    (hf : ∀ x s y t, f x s = (.ok y, t) → y.1 = x.1) {xs : List (Text × Text)}
    {ys : List (Text × Option Text)} {s t : Data} (h : collect f xs s = (.ok ys, t)) :
    ys.map Prod.fst = xs.map Prod.fst := by
  induction xs generalizing ys s t with
  | nil =>
    obtain rfl := Except.ok.inj (Prod.mk.inj h).1
    rfl
  | cons x xs ih =>
    obtain ⟨y, u, hy, h⟩ := bind_ends h
    obtain ⟨ys', w, hys, h⟩ := bind_ends h
    obtain rfl := Except.ok.inj (Prod.mk.inj h).1
    rw [List.map_cons, List.map_cons, hf x s y u hy, ih hys]

theorem Hidden.unset (h : Hidden keep var d) : Unset g keep var d := by
  constructor
  · intro fuel q value parser s hvar hflag hread
    cases fuel with
    | zero => cases (Prod.mk.inj hread).1
    | succ fuel =>
      obtain ⟨parser', s', hnone, _⟩ := h.read (g := g) (hides_of_flag hvar hflag) fuel
      rw [hnone] at hread
      exact (Prod.mk.inj (Except.ok.inj (Prod.mk.inj hread).1)).1.symm
  · intro fuel expand internalflags flags s hread x hx
    unfold getVarFlags at hread
    simp only [reading] at hread
    obtain ⟨found, t, hcollect, hread⟩ := bind_ends hread
    have hfound : found = flags := by
      have hend := Except.ok.inj (Prod.mk.inj hread).1
      split at hend
      · cases hend
      · exact Option.some.inj hend
    subst hfound
    have hkeys := collect_keys (fun x s y t hy => by
      split at hy
      · obtain ⟨_, _, _, hy⟩ := bind_ends hy
        rw [← Except.ok.inj (Prod.mk.inj hy).1]
      · rw [← Except.ok.inj (Prod.mk.inj hy).1]) hcollect
    have hmem : x.1 ∈ found.map Prod.fst := List.mem_map_of_mem hx
    rw [hkeys] at hmem
    obtain ⟨y, hy, hname⟩ := List.mem_map.mp hmem
    obtain ⟨hy, hshown⟩ := List.mem_filter.mp hy
    have hbare : Bare keep ((d.findVar var).getD noEntry) := by
      cases hvar : d.findVar var with
      | none => exact .noEntry
      | some e => exact h.entry e hvar
    obtain ⟨hkeep, hcontent⟩ := hbare.flags y hy
    refine ⟨hkeep, ?_, hname ▸ hcontent⟩
    rw [hcontent] at hshown
    have hinternal : ['_'] <+: content := by decide
    simpa [hinternal] using hshown

/-! ## Deletion -/

/-- `delVar`, or `delVarFlags`, which keeps the content. -/
def delete (keep : Bool) (var : Text) (d : Data) : Data :=
  if keep then d.delVarFlags var else d.delVar var

theorem delVarFlags_entry {e : Variable} (h : (d.delVarFlags var).dict.get? var = some e) :
    Bare true e := by
  unfold Data.delVarFlags at h
  dsimp only at h
  split at h
  · rw [Data.setEntry, OrderedDict.get?_set_self] at h
    rw [← Option.some.inj h]
    exact ⟨fun x hx => ⟨rfl, by rw [List.mem_singleton.mp hx]⟩, rfl, rfl, rfl⟩
  · rw [OrderedDict.get?_del, if_pos rfl] at h
    cases h

theorem delete_hidden (hclash : NoClash keep var d) (hcovered : keep = true → Covered true var d) :
    Hidden keep var (delete keep var d) := by
  cases keep with
  | false =>
    have hdeleted := Deleted.delVar d var
    refine ⟨fun e he => ?_, fun _ => delVar_variants _ _ _ (Or.inl rfl),
      fun q hq hname => hdeleted.nothing (hclash q hq hname), fun x hx => nomatch hx⟩
    have hnew : (d.delVar var).findVar var = some noEntry := findVar_own (OrderedDict.get?_set_self _ _ _)
    have hsame := hnew.symm.trans he
    rw [← Option.some.inj hsame]
    exact .noEntry
  | true =>
    have hdeleted := Deleted.delVarFlags d var
    refine ⟨fun e he => ?_, (fun hkeep => nomatch hkeep),
      fun q hq hname => hdeleted.nothing (hclash q hq hname), fun x hx => ?_⟩
    · change (d.delVarFlags var).findVar var = some e at he
      cases hown : (d.delVarFlags var).dict.get? var with
      | none =>
        rw [findVar_parents hown, hdeleted.parents] at he
        exact delVarFlags_own hown (hcovered rfl) e he
      | some e' =>
        rw [findVar_own hown] at he
        rw [← Option.some.inj he]
        exact delVarFlags_entry hown
    · change x ∈ (d.delVarFlags var).expand_cache at hx
      rw [hdeleted.cache] at hx
      cases hx

/-- After a deletion nothing of what was deleted can be read, in every run of reads and deletions
in which `delVarFlags` finds a content, or no parent that holds something of the variable. -/
theorem what_is_deleted_stays_deleted (g : Expander) (keep : Bool) (var : Text) (d s : Data)
    (hclash : NoClash keep var d) (hcovered : keep = true → Covered true var d)
    (hrun : Reaches (step g) (Allowed keep var) (delete keep var d) s) : Unset g keep var s :=
  (hrun.invariant (delete_hidden hclash hcovered) fun _ _ _ h hok hstep =>
    h.step hok hstep).unset

/-- A copy of a store in which `V` has a value and a flag. -/
def copyWithVariable : Data :=
  { Data.empty with
    parents := [[(text "V", ⟨[(content, text "x"), (text "doc", text "y")], [], [], []⟩)]] }

theorem a_flag_stays_deleted :
    Unset plainText true (text "V")
      ([(9, Action.delVarFlag (text "V") content), (9, Action.getVarFlag (.get (text "V"))),
        (9, Action.delVar (text "V"))].foldl (fun d x => act plainText x.1 d x.2)
          (delete true (text "V") copyWithVariable)) := by
  have hclash : NoClash true (text "V") copyWithVariable := by
    refine fun q hq _ => ⟨fun level hlevel e he => ?_, rfl⟩
    simp only [copyWithVariable, Data.empty, List.mem_cons, List.not_mem_nil, or_false] at hlevel
    rcases hlevel with rfl | rfl
    · cases he
    · have hmem := OrderedDict.mem_of_get? he
      simp only [List.mem_singleton, Prod.mk.injEq] at hmem
      exact absurd hmem.1 hq
  refine what_is_deleted_stays_deleted plainText true (text "V") copyWithVariable _ hclash
    (fun _ => Or.inl ⟨_, rfl, by decide⟩) ?_
  refine .step (a := (9, .delVar (text "V"))) (.step (a := (9, .getVarFlag (.get (text "V"))))
    (.step (a := (9, .delVarFlag (text "V") content)) .start ?_ rfl) ?_ rfl) ?_ rfl <;>
  exact ⟨trivial, fun h => by cases h⟩

/-- After `delVar` and `delVarFlags` the value of the parent is read again. -/
theorem a_value_is_read_after_it_was_deleted :
    (getVarFlag plainText 9 (.get (text "V"))
      ((copyWithVariable.delVar (text "V")).delVarFlags (text "V"))).1.toOption.bind (·.1) =
        some (text "x") ∧
      ¬Unset plainText false (text "V") ((copyWithVariable.delVar (text "V")).delVarFlags (text "V")) := by
  have hvalue : (getVarFlag plainText 9 (.get (text "V"))
      ((copyWithVariable.delVar (text "V")).delVarFlags (text "V"))).1.toOption.map (·.1) =
        some (some (text "x")) := by decide +kernel
  refine ⟨by decide +kernel, fun h => ?_⟩
  rcases hread : getVarFlag plainText 9 (.get (text "V"))
    ((copyWithVariable.delVar (text "V")).delVarFlags (text "V")) with ⟨e | ⟨value, parser⟩, s⟩
  · rw [hread] at hvalue
    cases hvalue
  · have hnone := h.value 9 _ value parser s rfl (Or.inr rfl) hread
    rw [hread, hnone] at hvalue
    cases hvalue

end yocto.deletion
