-- The base hash of a task (`generate_dependency_hash` of data.py): a hash of the body of the
-- task followed by the names and values of all variables it depends on, in the order of their
-- names.
import Yocto.OrderedDict
import Yocto.SigGen
import Mathlib.Data.Finset.Sort
import Mathlib.Logic.Relation

open yocto.list_search yocto.task_ids yocto.siggen yocto.raising yocto.ordered_dict

namespace yocto.dependency_hash

/-! ## The names a task depends on -/

/-- What `generate_dependencies` returns for a recipe file: for each name the names it depends
on, and for each name its value, which can be None. -/
structure RecipeData where
  gendeps : OrderedDict Text (Finset Text)
  lookupcache : Dict (Option Text)

def deps_of (gendeps : OrderedDict Text (Finset Text)) (names : Finset Text) :
    Except PyError (Finset Text) :=
  if ∀ dep ∈ names, gendeps.get? dep ≠ none then
    .ok (names.biUnion fun dep => (gendeps.get? dep).getD ∅)
  else .error .keyError

/-- The while loop, for at most `fuel` rounds. -/
def seen_loop (gendeps : OrderedDict Text (Finset Text)) :
    Nat → Finset Text → Finset Text → Except PyError (Finset Text)
  | 0, _, seen => .ok seen
  | fuel + 1, newdeps, seen =>
    if newdeps = ∅ then .ok seen
    else do
      let next ← deps_of gendeps newdeps
      seen_loop gendeps fuel (next \ (seen ∪ newdeps)) (seen ∪ newdeps)

/-- All names the task depends on. Every round but the last one finds a name of the table. -/
def all_deps (gendeps : OrderedDict Text (Finset Text)) (task : Text) :
    Except PyError (Finset Text) :=
  match gendeps.get? task with
  | some newdeps => seen_loop gendeps (gendeps.length + 1) newdeps ∅
  | none => .error .keyError

def DependsOn (gendeps : OrderedDict Text (Finset Text)) (name dep : Text) : Prop :=
  ∃ deps, gendeps.get? name = some deps ∧ dep ∈ deps

theorem deps_of_ok {gendeps : OrderedDict Text (Finset Text)} {names next : Finset Text}
    (h : deps_of gendeps names = .ok next) :
    (∀ dep ∈ names, gendeps.get? dep ≠ none) ∧
      ∀ dep, dep ∈ next ↔ ∃ name ∈ names, DependsOn gendeps name dep := by
  unfold deps_of at h
  split at h
  · rename_i hkeys
    obtain rfl := Except.ok.inj h
    refine ⟨hkeys, fun dep => ?_⟩
    simp only [Finset.mem_biUnion, DependsOn]
    constructor
    · rintro ⟨name, hname, hdep⟩
      obtain ⟨deps, hdeps⟩ := Option.ne_none_iff_exists'.mp (hkeys name hname)
      exact ⟨name, hname, deps, hdeps, by simpa [hdeps] using hdep⟩
    · rintro ⟨name, hname, deps, hdeps, hdep⟩
      exact ⟨name, hname, by simpa [hdeps] using hdep⟩
  · cases h

def keys {V : Type} (d : OrderedDict Text V) : Finset Text := (d.map Prod.fst).toFinset

theorem mem_keys {V : Type} {d : OrderedDict Text V} {key : Text} (h : d.get? key ≠ none) :
    key ∈ keys d := by
  obtain ⟨v, hv⟩ := Option.ne_none_iff_exists'.mp h
  have hmem := OrderedDict.mem_of_get? hv
  simp only [keys, List.mem_toFinset, List.mem_map]
  exact ⟨(key, v), hmem, rfl⟩

theorem card_keys_le {V : Type} (d : OrderedDict Text V) : (keys d).card ≤ d.length := by
  have h := List.toFinset_card_le (d.map Prod.fst)
  simpa [keys] using h

/-- What one round of the loop leaves: the names seen so far are keys, and what a seen name
depends on is seen or new. -/
structure Round (gendeps : OrderedDict Text (Finset Text)) (task : Text)
    (newdeps seen : Finset Text) : Prop where
  of_task : ∀ dep, DependsOn gendeps task dep → dep ∈ seen ∨ dep ∈ newdeps
  of_seen : ∀ name ∈ seen, ∀ dep, DependsOn gendeps name dep → dep ∈ seen ∨ dep ∈ newdeps
  reached : ∀ dep, dep ∈ seen ∨ dep ∈ newdeps → Relation.TransGen (DependsOn gendeps) task dep
  keys : ∀ name ∈ seen, gendeps.get? name ≠ none
  fresh : Disjoint newdeps seen

theorem Round.next {gendeps : OrderedDict Text (Finset Text)} {task : Text}
    {newdeps seen next : Finset Text} (h : Round gendeps task newdeps seen)
    (hnext : deps_of gendeps newdeps = .ok next) :
    Round gendeps task (next \ (seen ∪ newdeps)) (seen ∪ newdeps) := by
  obtain ⟨hkeys, hmem⟩ := deps_of_ok hnext
  have hold : ∀ dep, dep ∈ seen ∨ dep ∈ newdeps →
      dep ∈ seen ∪ newdeps ∨ dep ∈ next \ (seen ∪ newdeps) :=
    fun dep hdep => Or.inl (Finset.mem_union.mpr hdep)
  refine ⟨fun dep hdep => hold dep (h.of_task dep hdep), ?_, ?_, ?_, ?_⟩
  · intro name hname dep hdep
    rcases Finset.mem_union.mp hname with hseen | hnew
    · exact hold dep (h.of_seen name hseen dep hdep)
    · by_cases hin : dep ∈ seen ∪ newdeps
      · exact Or.inl hin
      · exact Or.inr (Finset.mem_sdiff.mpr ⟨(hmem dep).mpr ⟨name, hnew, hdep⟩, hin⟩)
  · rintro dep (hin | hin)
    · exact h.reached dep (Finset.mem_union.mp hin)
    · obtain ⟨name, hname, hdep⟩ := (hmem dep).mp (Finset.mem_sdiff.mp hin).1
      exact (h.reached name (Or.inr hname)).tail hdep
  · intro name hname
    rcases Finset.mem_union.mp hname with hseen | hnew
    · exact h.keys name hseen
    · exact hkeys name hnew
  · exact Finset.sdiff_disjoint

theorem seen_loop_ok {gendeps : OrderedDict Text (Finset Text)} {task : Text} {fuel : Nat}
    {newdeps seen result : Finset Text} (hround : Round gendeps task newdeps seen)
    (hfuel : gendeps.length < fuel + seen.card)
    (h : seen_loop gendeps fuel newdeps seen = .ok result) : Round gendeps task ∅ result := by
  induction fuel generalizing newdeps seen with
  | zero =>
    have hle : seen.card ≤ (keys gendeps).card :=
      Finset.card_le_card fun name hname => mem_keys (hround.keys name hname)
    have hlen := card_keys_le gendeps
    omega
  | succ fuel ih =>
    rw [seen_loop] at h
    split at h
    · rename_i hempty
      obtain rfl := Except.ok.inj h
      simpa [hempty] using hround
    · rename_i hne
      rcases hnext : deps_of gendeps newdeps with e | next
      · rw [hnext] at h
        cases h
      · rw [hnext] at h
        refine ih (hround.next hnext) ?_ h
        have hcard : (seen ∪ newdeps).card = seen.card + newdeps.card :=
          Finset.card_union_of_disjoint hround.fresh.symm
        have hpos : 0 < newdeps.card := Finset.card_pos.mpr (Finset.nonempty_iff_ne_empty.mpr hne)
        omega

theorem all_deps_ok {gendeps : OrderedDict Text (Finset Text)} {task : Text} {seen : Finset Text}
    (h : all_deps gendeps task = .ok seen) :
    (∀ dep, dep ∈ seen ↔ Relation.TransGen (DependsOn gendeps) task dep) ∧
      ∀ dep ∈ seen, gendeps.get? dep ≠ none := by
  unfold all_deps at h
  rcases htask : gendeps.get? task with _ | newdeps
  · rw [htask] at h
    cases h
  · rw [htask] at h
    have hstart : Round gendeps task newdeps ∅ :=
      { of_task := by
          rintro dep ⟨deps, hdeps, hdep⟩
          obtain rfl := Option.some.inj (htask.symm.trans hdeps)
          exact Or.inr hdep
        of_seen := by simp
        reached := by
          intro dep hdep
          exact Relation.TransGen.single ⟨newdeps, htask, by simpa using hdep⟩
        keys := by simp
        fresh := Finset.disjoint_empty_right newdeps }
    have hend := seen_loop_ok hstart (by simp) h
    refine ⟨fun dep => ⟨fun hdep => hend.reached dep (Or.inl hdep), fun hdep => ?_⟩, hend.keys⟩
    induction hdep with
    | single hdep => simpa using hend.of_task _ hdep
    | tail _ hdep ih => simpa using hend.of_seen _ ih _ hdep

/-! ## The hashed text -/

def data_loop (lookupcache : Dict (Option Text)) :
    List Text → List Text → Except PyError (List Text)
  | [], data => .ok data
  | dep :: deps, data => do
    match ← lookup lookupcache dep with
    | some var => data_loop lookupcache deps (data ++ [dep] ++ [var])
    | none => data_loop lookupcache deps (data ++ [dep])

/-- What `generate_dependency_hash` does for one task: the names the task depends on, and the text
that is hashed. -/
def dependency_text (r : RecipeData) (task : Text) : Except PyError (Finset Text × Text) := do
  let data ← lookup r.lookupcache task
  let seen ← all_deps r.gendeps task
  let pieces ← data_loop r.lookupcache seen.sort data.toList
  .ok (seen, pieces.flatten)

/-- The loop over the tasks: `taskdeps` and `basehash`. -/
def task_loop (hash : Sha256) (r : RecipeData) (fn : Text) :
    List Text → Dict (Finset Text) × Dict Text → Except PyError (Dict (Finset Text) × Dict Text)
  | [], result => .ok result
  | task :: tasks, (taskdeps, basehash) => do
    let (seen, data) ← dependency_text r task
    task_loop hash r fn tasks (Function.update taskdeps task (some seen),
      Function.update basehash (fn ++ ':' :: task) (some (hash.hexdigest data)))

def generate_dependency_hash (hash : Sha256) (tasklist : List Text) (r : RecipeData) (fn : Text) :
    Except PyError (Dict (Finset Text) × Dict Text) :=
  task_loop hash r fn tasklist (fun _ => none, fun _ => none)

/-- What the hashed text holds of the value of a name. -/
def written (lookupcache : Dict (Option Text)) (name : Text) : Text :=
  ((lookupcache name).getD none).getD []

/-- The names with their values, one after the other. -/
def named_values (lookupcache : Dict (Option Text)) (names : List Text) : Text :=
  names.flatMap fun name => name ++ written lookupcache name

@[simp]
theorem named_values_cons (lookupcache : Dict (Option Text)) (name : Text) (names : List Text) :
    named_values lookupcache (name :: names) =
      name ++ written lookupcache name ++ named_values lookupcache names := rfl

theorem data_loop_ok {lookupcache : Dict (Option Text)} {deps data pieces : List Text}
    (h : data_loop lookupcache deps data = .ok pieces) :
    pieces.flatten = data.flatten ++ named_values lookupcache deps ∧
      ∀ dep ∈ deps, lookupcache dep ≠ none := by
  induction deps generalizing data with
  | nil =>
    obtain rfl := Except.ok.inj h
    simp [named_values]
  | cons dep deps ih =>
    rw [data_loop, lookup] at h
    rcases hdep : lookupcache dep with _ | _ | var
    · rw [hdep] at h
      cases h
    · rw [hdep] at h
      have hrest := ih h
      exact ⟨by simp [hrest.1, written, hdep], by simpa [hdep] using hrest.2⟩
    · rw [hdep] at h
      have hrest := ih h
      exact ⟨by simp [hrest.1, written, hdep], by simpa [hdep] using hrest.2⟩

theorem dependency_text_ok {r : RecipeData} {task data : Text} {seen : Finset Text}
    (h : dependency_text r task = .ok (seen, data)) :
    all_deps r.gendeps task = .ok seen ∧
      data = written r.lookupcache task ++ named_values r.lookupcache seen.sort ∧
      ∀ name, name = task ∨ name ∈ seen → r.lookupcache name ≠ none := by
  unfold dependency_text at h
  obtain ⟨value, hvalue, h⟩ := bind_ok h
  obtain ⟨seen', hseen, h⟩ := bind_ok h
  obtain ⟨pieces, hpieces, h⟩ := bind_ok h
  obtain ⟨rfl, rfl⟩ := Prod.mk.inj (Except.ok.inj h)
  have hloop := data_loop_ok hpieces
  have htask := lookup_ok hvalue
  refine ⟨hseen, ?_, ?_⟩
  · have hwritten : written r.lookupcache task = value.toList.flatten := by
      cases value <;> simp [written, htask]
    rw [hloop.1, hwritten]
  · rintro name (rfl | hname)
    · simp [htask]
    · exact hloop.2 name (by simpa using hname)

theorem data_loop_total {lookupcache : Dict (Option Text)} {deps : List Text}
    (h : ∀ dep ∈ deps, lookupcache dep ≠ none) (data : List Text) :
    ∃ pieces, data_loop lookupcache deps data = .ok pieces := by
  induction deps generalizing data with
  | nil => exact ⟨data, rfl⟩
  | cons dep deps ih =>
    have hrest := fun name hname => h name (List.mem_cons_of_mem dep hname)
    rw [data_loop, lookup]
    rcases hdep : lookupcache dep with _ | _ | var
    · exact absurd hdep (h dep List.mem_cons_self)
    · exact ih hrest _
    · exact ih hrest _

theorem dependency_text_iff {r : RecipeData} {task data : Text} {seen : Finset Text} :
    dependency_text r task = .ok (seen, data) ↔
      all_deps r.gendeps task = .ok seen ∧
        data = written r.lookupcache task ++ named_values r.lookupcache seen.sort ∧
        ∀ name, name = task ∨ name ∈ seen → r.lookupcache name ≠ none := by
  refine ⟨dependency_text_ok, fun ⟨hseen, hdata, hvalues⟩ => ?_⟩
  obtain ⟨value, hvalue⟩ := Option.ne_none_iff_exists'.mp (hvalues task (Or.inl rfl))
  have hdeps : ∀ dep ∈ seen.sort, r.lookupcache dep ≠ none :=
    fun dep hdep => hvalues dep (Or.inr (by simpa using hdep))
  obtain ⟨pieces, hpieces⟩ := data_loop_total hdeps value.toList
  have htext : dependency_text r task = .ok (seen, pieces.flatten) := by
    simp [dependency_text, lookup, hvalue, hseen, hpieces, bind, Except.bind]
  rw [htext, hdata, (dependency_text_ok htext).2.1]

theorem task_loop_ok {hash : Sha256} {r : RecipeData} {fn : Text} {tasks : List Text}
    {start result : Dict (Finset Text) × Dict Text}
    (hstart : ∀ task seen, start.1 task = some seen → ∃ data,
      dependency_text r task = .ok (seen, data) ∧
        start.2 (fn ++ ':' :: task) = some (hash.hexdigest data))
    (h : task_loop hash r fn tasks start = .ok result) :
    ∀ task seen, result.1 task = some seen → ∃ data,
      dependency_text r task = .ok (seen, data) ∧
        result.2 (fn ++ ':' :: task) = some (hash.hexdigest data) := by
  induction tasks generalizing start with
  | nil =>
    obtain rfl := Except.ok.inj h
    exact hstart
  | cons first tasks ih =>
    obtain ⟨⟨names, data⟩, htext, h⟩ := bind_ok h
    refine ih (fun task seen htask => ?_) h
    by_cases hfirst : task = first
    · subst hfirst
      obtain rfl : names = seen := by simpa using htask
      exact ⟨data, htext, by simp⟩
    · have hkey : fn ++ ':' :: task ≠ fn ++ ':' :: first := by simpa using hfirst
      simp only [Function.update_of_ne hfirst] at htask
      simpa only [Function.update_of_ne hkey] using hstart task seen htask

theorem generate_dependency_hash_ok {hash : Sha256} {tasklist : List Text} {r : RecipeData}
    {fn task : Text} {taskdeps : Dict (Finset Text)} {basehash : Dict Text} {seen : Finset Text}
    (h : generate_dependency_hash hash tasklist r fn = .ok (taskdeps, basehash))
    (htask : taskdeps task = some seen) : ∃ data, dependency_text r task = .ok (seen, data) ∧
      basehash (fn ++ ':' :: task) = some (hash.hexdigest data) :=
  task_loop_ok (by simp) h task seen htask

/-! ## Texts and values -/

variable {l l' : Dict (Option Text)} {names : List Text}

theorem flatMap_inj {α : Type} {l : List α} {f g : α → Text}
    (hlen : ∀ x ∈ l, (f x).length = (g x).length) (h : l.flatMap f = l.flatMap g) :
    ∀ x ∈ l, f x = g x := by
  induction l with
  | nil => simp
  | cons x l ih =>
    simp only [List.flatMap_cons] at h
    obtain ⟨hfirst, hrest⟩ := List.append_inj h (hlen x List.mem_cons_self)
    intro y hy
    rcases List.mem_cons.mp hy with rfl | hy
    · exact hfirst
    · exact ih (fun z hz => hlen z (List.mem_cons_of_mem x hz)) hrest y hy

theorem named_values_inj
    (hlen : ∀ name ∈ names, (written l name).length = (written l' name).length)
    (h : named_values l names = named_values l' names) :
    ∀ name ∈ names, written l name = written l' name := by
  intro name hname
  have hall := flatMap_inj (fun n hn => by simp [hlen n hn]) h
  exact List.append_cancel_left (hall name hname)

theorem length_named_values (x : Text)
    (hlen : ∀ name ∈ names, name ≠ x → (written l name).length = (written l' name).length) :
    (named_values l names).length + names.count x * (written l' x).length =
      (named_values l' names).length + names.count x * (written l x).length := by
  induction names with
  | nil => simp [named_values]
  | cons name names ih =>
    have hrest := ih fun n hn => hlen n (List.mem_cons_of_mem name hn)
    by_cases hx : name = x
    · subst hx
      simp only [named_values_cons, List.length_append, List.count_cons_self, Nat.succ_mul]
      omega
    · have hname := hlen name List.mem_cons_self hx
      simp only [named_values_cons, List.length_append, List.count_cons_of_ne hx]
      omega

theorem named_values_inj_but_one (x : Text)
    (hlen : ∀ name ∈ names, name ≠ x → (written l name).length = (written l' name).length)
    (h : named_values l names = named_values l' names) :
    ∀ name ∈ names, written l name = written l' name := by
  refine named_values_inj (fun name hname => ?_) h
  by_cases hx : name = x
  · subst hx
    have hsum := length_named_values name hlen
    rw [h] at hsum
    have hcount : 0 < names.count name := List.count_pos_iff.mpr hname
    exact (Nat.eq_of_mul_eq_mul_left hcount (Nat.add_left_cancel hsum)).symm
  · exact hlen name hname hx

/-- For fixed dependency names, two states whose values differ, but in length for one name at
most, are given different texts to hash. -/
theorem a_changed_value_changes_the_text {r r' : RecipeData} {task data data' : Text}
    {seen : Finset Text} (h : dependency_text r task = .ok (seen, data))
    (h' : dependency_text r' task = .ok (seen, data')) (x : Text)
    (hlen : ∀ name, name = task ∨ name ∈ seen → name ≠ x →
      (written r.lookupcache name).length = (written r'.lookupcache name).length)
    (hchanged : ∃ name, (name = task ∨ name ∈ seen) ∧
      written r.lookupcache name ≠ written r'.lookupcache name) : data ≠ data' := by
  obtain ⟨-, hdata, -⟩ := dependency_text_iff.mp h
  obtain ⟨-, hdata', -⟩ := dependency_text_iff.mp h'
  rintro rfl
  have hmem : ∀ name, name ∈ task :: seen.sort ↔ name = task ∨ name ∈ seen := by
    intro name
    rw [List.mem_cons, Finset.mem_sort]
  have htext : named_values r.lookupcache (task :: seen.sort) =
      named_values r'.lookupcache (task :: seen.sort) := by
    simp only [named_values_cons, List.append_assoc]
    rw [← hdata, ← hdata']
  have hall := named_values_inj_but_one x (fun name hname => hlen name ((hmem name).mp hname)) htext
  obtain ⟨name, hname, hne⟩ := hchanged
  exact hne (hall name ((hmem name).mpr hname))

theorem named_values_append (first rest : List Text) :
    named_values l (first ++ rest) = named_values l first ++ named_values l rest := by
  simp [named_values]

theorem named_values_congr (h : ∀ name ∈ names, l name = l' name) :
    named_values l names = named_values l' names := by
  simp only [named_values]
  exact List.flatMap_congr fun name hname => by rw [written, written, h name hname]

def with_values (l : Dict (Option Text)) (x y vx vy : Text) : Dict (Option Text) :=
  Function.update (Function.update l x (some (some vx))) y (some (some vy))

@[simp]
theorem with_values_left {x y vx vy : Text} (hxy : x ≠ y) :
    written (with_values l x y vx vy) x = vx := by
  simp [written, with_values, hxy]

@[simp]
theorem with_values_right {x y vx vy : Text} : written (with_values l x y vx vy) y = vy := by
  simp [written, with_values]

theorem with_values_other {x y vx vy name : Text} (hx : name ≠ x) (hy : name ≠ y) :
    with_values l x y vx vy name = l name := by
  simp [with_values, hx, hy]

theorem values_trade_text (l : Dict (Option Text)) {x y : Text} {first middle last : List Text}
    (hnodup : (first ++ x :: (middle ++ y :: last)).Nodup) :
    ∃ v v', v ≠ [] ∧ v' ≠ [] ∧
      named_values (with_values l x y [] v) (first ++ x :: (middle ++ y :: last)) =
        named_values (with_values l x y v' []) (first ++ x :: (middle ++ y :: last)) := by
  have hparts := List.nodup_append.mp hnodup
  have hrest := List.nodup_cons.mp hparts.2.1
  have hmiddle := List.nodup_append.mp hrest.2
  have hxy : x ≠ y := fun h => hrest.1 (by simp [h])
  -- outside of `x` and `y` the values are those of `l`
  have hsame : ∀ vx vy part, x ∉ part → y ∉ part →
      named_values (with_values l x y vx vy) part = named_values l part := by
    intro vx vy part hx hy
    refine named_values_congr fun name hname => with_values_other ?_ ?_
    · exact fun h => hx (h ▸ hname)
    · exact fun h => hy (h ▸ hname)
  have hfirst : x ∉ first ∧ y ∉ first :=
    ⟨fun h => hparts.2.2 x h x (by simp) rfl, fun h => hparts.2.2 y h y (by simp) rfl⟩
  have hmid : x ∉ middle ∧ y ∉ middle :=
    ⟨fun h => hrest.1 (by simp [h]), fun h => hmiddle.2.2 y h y (by simp) rfl⟩
  have hlast : x ∉ last ∧ y ∉ last :=
    ⟨fun h => hrest.1 (by simp [h]), (List.nodup_cons.mp hmiddle.2.1).1⟩
  refine ⟨'c' :: (named_values l middle ++ y), named_values l middle ++ y ++ ['c'],
    by simp, by simp, ?_⟩
  simp only [named_values_append, named_values_cons, with_values_left hxy, with_values_right,
    hsame _ _ first hfirst.1 hfirst.2, hsame _ _ middle hmid.1 hmid.2,
    hsame _ _ last hlast.1 hlast.2]
  simp

def one_variable (body value : String) : RecipeData where
  gendeps := [(text "do_x", {text "A"}), (text "A", ∅)]
  lookupcache name :=
    if name = text "do_x" then some (some (text body))
    else if name = text "A" then some (some (text value)) else none

theorem one_variable_text (body value : String) :
    dependency_text (one_variable body value) (text "do_x") =
      .ok ({text "A"}, text body ++ text "A" ++ text value) := by
  rw [dependency_text_iff]
  refine ⟨rfl, by simp [written, named_values, one_variable, text], ?_⟩
  rintro name (rfl | hname)
  · simp [one_variable]
  · obtain rfl := Finset.mem_singleton.mp hname
    simp [one_variable, text]

theorem a_longer_variable_changes_the_text :
    text "make" ++ text "A" ++ text "x" ≠ text "make" ++ text "A" ++ text "xyz" := by
  refine a_changed_value_changes_the_text (one_variable_text "make" "x")
    (one_variable_text "make" "xyz") (text "A") ?_ ?_
  · rintro name (rfl | hname) hne
    · rfl
    · exact absurd (Finset.mem_singleton.mp hname) hne
  · exact ⟨text "A", Or.inr (Finset.mem_singleton_self _), by decide⟩

/-- A name that moves from the end of one value into the next value leaves the text as it was. -/
theorem two_states_with_one_text : ∃ (r r' : RecipeData) (task data : Text) (seen : Finset Text),
    dependency_text r task = .ok (seen, data) ∧ dependency_text r' task = .ok (seen, data) ∧
      r.lookupcache task ≠ r'.lookupcache task ∧
      ∃ dep ∈ seen, r.lookupcache dep ≠ r'.lookupcache dep :=
  ⟨one_variable "A" "", one_variable "" "A", text "do_x", text "AA", {text "A"},
    one_variable_text "A" "", one_variable_text "" "A", by decide,
    text "A", Finset.mem_singleton_self _, by decide⟩

end yocto.dependency_hash
