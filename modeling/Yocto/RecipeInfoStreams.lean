-- Signature information of recipes on its way between processes (SiggenRecipeInfo in
-- cache.py). A process sends each value once, with a number, and afterwards the number alone.
import Yocto.FreshKeys
import Yocto.Raising
import Yocto.TaskIds

open yocto.task_ids yocto.ordered_dict yocto.raising

namespace yocto.recipe_info_streams

variable {V : Type} [DecidableEq V]

/-! ## The objects -/

/-- A table from dependencies to values, or None. -/
abbrev Deps (V : Type) := OrderedDict Text (Option V)

structure Tables (V : Type) where
  siggen_gendeps : Option (Deps V)
  siggen_taskdeps : Option (Deps V)
  siggen_varvals : Option (Deps V)

/-- The keys of a dict are distinct. -/
def Distinct (deps : Option (Deps V)) : Prop := ∀ d ∈ deps, (d.map Prod.fst).Nodup

structure SiggenRecipeInfo (V : Type) extends Tables V where
  gendeps_distinct : Distinct siggen_gendeps
  taskdeps_distinct : Distinct siggen_taskdeps
  varvals_distinct : Distinct siggen_varvals

/-! ## Saving -/

/-- `save_map` and `save_count` of a process. -/
structure Saver (V : Type) where
  save_map : OrderedDict V Nat
  save_count : Nat

def Saver.reset : Saver V := ⟨[], 1⟩

abbrev Triple (V : Type) := Text × Option V × Option Nat

/-- What `_save` returns: a table that is empty or None as it is, or a list of triples. -/
inductive Saved (V : Type)
  | as_is (deps : Option (Deps V))
  | listed (ret : List (Triple V))

/-- The number of a value, and the value when it goes out for the first time. -/
def Saver.number (c : Saver V) (fs : V) : Saver V × Option V × Option Nat :=
  match c.save_map.get? fs with
  | some n => (c, none, some n)
  | none => (⟨c.save_map.set fs c.save_count, c.save_count + 1⟩, some fs, some c.save_count)

def save_loop (c : Saver V) : Deps V → Saver V × List (Triple V)
  | [] => (c, [])
  | (dep, none) :: deps =>
    let (c, ret) := save_loop c deps
    (c, (dep, none, none) :: ret)
  | (dep, some fs) :: deps =>
    let (c, sent) := c.number fs
    let (c, ret) := save_loop c deps
    (c, (dep, sent) :: ret)

def _save (c : Saver V) : Option (Deps V) → Saver V × Saved V
  | none => (c, .as_is none)
  | some [] => (c, .as_is (some []))
  | some (dep :: deps) =>
    let (c, ret) := save_loop c (dep :: deps)
    (c, .listed ret)

/-- What `__getstate__` returns. -/
structure State (V : Type) where
  pid : Nat
  siggen_gendeps : Saved V
  siggen_taskdeps : Saved V
  siggen_varvals : Saved V

def getstate (c : Saver V) (pid : Nat) (info : Tables V) : Saver V × State V :=
  let (c, siggen_gendeps) := _save c info.siggen_gendeps
  let (c, siggen_taskdeps) := _save c info.siggen_taskdeps
  let (c, siggen_varvals) := _save c info.siggen_varvals
  (c, ⟨pid, siggen_gendeps, siggen_taskdeps, siggen_varvals⟩)

/-! ## Restoring -/

/-- `store`, in which every value stands for itself. -/
structure Store (V : Type) [DecidableEq V] where
  values : OrderedDict V V
  same : ∀ fs v, values.get? fs = some v → v = fs

/-- The stored value that is equal to a value. -/
def Store.intern (s : Store V) (fs : V) : Store V × V :=
  match s.values.get? fs with
  | some v => (s, v)
  | none =>
    (⟨s.values.set fs fs, by
      intro k v h
      by_cases hk : k = fs
      · subst hk
        rw [OrderedDict.get?_set_self] at h
        exact (Option.some.inj h).symm
      · rw [OrderedDict.get?_set_other _ _ hk] at h
        exact s.same k v h⟩, fs)

inductive Raised
  | key_error
  deriving DecidableEq

/-- The loop of `_restore`, with the map of the process. -/
def restore_loop (s : Store V) (map : OrderedDict (Option Nat) V) (ret : Deps V) :
    List (Triple V) → Except Raised (Store V × OrderedDict (Option Nat) V × Deps V)
  | [] => .ok (s, map, ret)
  | (dep, none, none) :: deps => restore_loop s map (ret.set dep none) deps
  | (dep, none, some mapnum) :: deps =>
    match map.get? (some mapnum) with
    | some v => restore_loop s map (ret.set dep (some v)) deps
    | none => .error .key_error
  | (dep, some fs, mapnum) :: deps =>
    let (s, fs) := s.intern fs
    restore_loop s (map.set mapnum fs) (ret.set dep (some fs)) deps

/-- `store` and `restore_map` of the receiver. -/
structure Receiver (V : Type) [DecidableEq V] where
  store : Store V
  restore_map : OrderedDict Nat (OrderedDict (Option Nat) V)

/-- The map of a process, which is made when it is not there. -/
def Receiver.map_of (r : Receiver V) (pid : Nat) : OrderedDict (Option Nat) V := (r.restore_map.get? pid).getD []

def _restore (r : Receiver V) (pid : Nat) : Saved V → Except Raised (Receiver V × Option (Deps V))
  | .as_is deps => .ok (r, deps)
  | .listed deps => do
    let (store, map, ret) ← restore_loop r.store (r.map_of pid) [] deps
    .ok (⟨store, r.restore_map.set pid map⟩, some ret)

def setstate (r : Receiver V) (state : State V) : Except Raised (Receiver V × Tables V) := do
  let (r, siggen_gendeps) ← _restore r state.pid state.siggen_gendeps
  let (r, siggen_taskdeps) ← _restore r state.pid state.siggen_taskdeps
  let (r, siggen_varvals) ← _restore r state.pid state.siggen_varvals
  .ok (r, ⟨siggen_gendeps, siggen_taskdeps, siggen_varvals⟩)

/-! ## Streams -/

def dump (c : Saver V) (pid : Nat) : List (SiggenRecipeInfo V) → List (State V)
  | [] => []
  | info :: infos =>
    let (c, state) := getstate c pid info.toTables
    state :: dump c pid infos

/-- The states of all processes as they arrive: those of one process in their order. -/
structure Arrival (dumps : Nat → List (State V)) where
  states : List (State V)
  in_order : ∀ pid, states.filter (fun s => s.pid = pid) = dumps pid

/-- The states are restored one after the other, each object with its process. -/
def restore_all (r : Receiver V) : List (State V) → Except Raised (List (Nat × Tables V))
  | [] => .ok []
  | state :: states => do
    let (r, info) ← setstate r state
    let infos ← restore_all r states
    .ok ((state.pid, info) :: infos)

/-! ## The two sides agree -/

/-- A value with a number is found under that number. -/
structure Agrees (c : Saver V) (map : OrderedDict (Option Nat) V) : Prop where
  below : ∀ v n, c.save_map.get? v = some n → n < c.save_count
  found : ∀ v n, c.save_map.get? v = some n → map.get? (some n) = some v

theorem Agrees.reset (map : OrderedDict (Option Nat) V) : Agrees Saver.reset map where
  below _ _ h := nomatch h
  found _ _ h := nomatch h

theorem intern_eq (s : Store V) (fs : V) : (s.intern fs).2 = fs := by
  unfold Store.intern
  split
  · rename_i v hv
    exact s.same fs v hv
  · rfl

theorem Agrees.next {c : Saver V} {map : OrderedDict (Option Nat) V} (h : Agrees c map) (fs : V) :
    Agrees ⟨c.save_map.set fs c.save_count, c.save_count + 1⟩ (map.set (some c.save_count) fs) where
  below v n hn := by
    by_cases hv : v = fs
    · subst hv
      rw [OrderedDict.get?_set_self] at hn
      obtain rfl := Option.some.inj hn
      exact Nat.lt_succ_self _
    · rw [OrderedDict.get?_set_other _ _ hv] at hn
      exact Nat.lt_succ_of_lt (h.below v n hn)
  found v n hn := by
    by_cases hv : v = fs
    · subst hv
      rw [OrderedDict.get?_set_self] at hn
      obtain rfl := Option.some.inj hn
      exact OrderedDict.get?_set_self _ _ _
    · rw [OrderedDict.get?_set_other _ _ hv] at hn
      have hlt := h.below v n hn
      have hne : some n ≠ some c.save_count := by
        intro heq
        exact absurd (Option.some.inj heq) (by omega)
      rw [OrderedDict.get?_set_other _ _ hne]
      exact h.found v n hn

theorem restore_save_loop {c : Saver V} {map : OrderedDict (Option Nat) V} (h : Agrees c map) (s : Store V)
    (ret : Deps V) {deps : Deps V} (hfresh : ((ret ++ deps).map Prod.fst).Nodup) :
    ∃ s' map', restore_loop s map ret (save_loop c deps).2 = .ok (s', map', ret ++ deps) ∧
      Agrees (save_loop c deps).1 map' := by
  induction deps generalizing c map s ret with
  | nil => exact ⟨s, map, by simp [save_loop, restore_loop], h⟩
  | cons x deps ih =>
    obtain ⟨dep, value⟩ := x
    have hnew : dep ∉ ret.map Prod.fst := by
      intro hmem
      rw [List.map_append, List.nodup_append] at hfresh
      exact hfresh.2.2 _ hmem _ (by simp) rfl
    have hrest : (((ret ++ [(dep, value)]) ++ deps).map Prod.fst).Nodup := by simpa using hfresh
    cases value with
    | none =>
      obtain ⟨s', map', hloop, hagrees⟩ := ih h s _ hrest
      refine ⟨s', map', ?_, hagrees⟩
      simpa [save_loop, restore_loop, OrderedDict.set_fresh hnew] using hloop
    | some fs =>
      unfold save_loop Saver.number
      split
      · rename_i c' sent hsent
        split at hsent
        · rename_i n hn
          obtain ⟨rfl, rfl⟩ := Prod.mk.inj hsent
          obtain ⟨s', map', hloop, hagrees⟩ := ih h s _ hrest
          refine ⟨s', map', ?_, hagrees⟩
          simpa [restore_loop, h.found fs n hn, OrderedDict.set_fresh hnew] using hloop
        · obtain ⟨rfl, rfl⟩ := Prod.mk.inj hsent
          obtain ⟨s', map', hloop, hagrees⟩ := ih (h.next fs) (s.intern fs).1 _ hrest
          refine ⟨s', map', ?_, hagrees⟩
          simpa [restore_loop, intern_eq, OrderedDict.set_fresh hnew] using hloop

/-- The process of a state, and what it finds on the other side. -/
def Linked (c : Saver V) (pid : Nat) (r : Receiver V) : Prop := Agrees c (r.map_of pid)

/-- The maps of other processes are left alone. -/
def Apart (pid : Nat) (r r' : Receiver V) : Prop := ∀ other, other ≠ pid → r'.map_of other = r.map_of other

theorem Apart.trans {pid : Nat} {r r' r'' : Receiver V} (h : Apart pid r r') (h' : Apart pid r' r'') :
    Apart pid r r'' := by
  intro other hother
  rw [h' other hother, h other hother]

theorem restore_save {c : Saver V} {pid : Nat} {r : Receiver V} (h : Linked c pid r) {deps : Option (Deps V)}
    (hdistinct : Distinct deps) :
    ∃ r', _restore r pid (_save c deps).2 = .ok (r', deps) ∧ Linked (_save c deps).1 pid r' ∧ Apart pid r r' := by
  match deps with
  | none => exact ⟨r, rfl, h, fun _ _ => rfl⟩
  | some [] => exact ⟨r, rfl, h, fun _ _ => rfl⟩
  | some (dep :: deps) =>
    have hnodup : (([] ++ (dep :: deps) : Deps V).map Prod.fst).Nodup := hdistinct _ rfl
    obtain ⟨store, map, hloop, hagrees⟩ := restore_save_loop h r.store [] hnodup
    refine ⟨⟨store, r.restore_map.set pid map⟩, ?_, ?_, ?_⟩
    · unfold _restore _save
      simp only
      rw [hloop]
      rfl
    · unfold Linked Receiver.map_of
      rw [OrderedDict.get?_set_self]
      exact hagrees
    · intro other hother
      unfold Receiver.map_of
      rw [OrderedDict.get?_set_other _ _ hother]

theorem setstate_getstate {c : Saver V} {pid : Nat} {r : Receiver V} (h : Linked c pid r)
    (info : SiggenRecipeInfo V) :
    ∃ r', setstate r (getstate c pid info.toTables).2 = .ok (r', info.toTables) ∧
      Linked (getstate c pid info.toTables).1 pid r' ∧ Apart pid r r' := by
  obtain ⟨r₁, hgendeps, hlinked₁, hapart₁⟩ := restore_save h info.gendeps_distinct
  obtain ⟨r₂, htaskdeps, hlinked₂, hapart₂⟩ := restore_save hlinked₁ info.taskdeps_distinct
  obtain ⟨r₃, hvarvals, hlinked₃, hapart₃⟩ := restore_save hlinked₂ info.varvals_distinct
  refine ⟨r₃, ?_, hlinked₃, (hapart₁.trans hapart₂).trans hapart₃⟩
  unfold setstate getstate
  simp only
  rw [hgendeps]
  simp only [bind, Except.bind]
  rw [htaskdeps]
  simp only
  rw [hvarvals]

/-! ## Whole streams -/

theorem dump_cons (c : Saver V) (pid : Nat) (info : SiggenRecipeInfo V) (infos : List (SiggenRecipeInfo V)) :
    dump c pid (info :: infos) =
      (getstate c pid info.toTables).2 :: dump (getstate c pid info.toTables).1 pid infos :=
  rfl

/-- The objects of a process, among what was restored. -/
def of_process (restored : List (Nat × Tables V)) (pid : Nat) : List (Tables V) :=
  (restored.filter fun x => x.1 = pid).map Prod.snd

theorem restore_dumps (states : List (State V)) (savers : Nat → Saver V)
    (infos : Nat → List (SiggenRecipeInfo V)) (r : Receiver V)
    (horder : ∀ pid, states.filter (fun s => s.pid = pid) = dump (savers pid) pid (infos pid))
    (hlinked : ∀ pid, Linked (savers pid) pid r) :
    ∃ restored, restore_all r states = .ok restored ∧
      ∀ pid, of_process restored pid = (infos pid).map SiggenRecipeInfo.toTables := by
  induction states generalizing savers infos r with
  | nil =>
    refine ⟨[], rfl, ?_⟩
    intro pid
    cases hinfos : infos pid with
    | nil => rfl
    | cons info rest =>
      have h := horder pid
      rw [hinfos] at h
      simp [dump] at h
  | cons state states ih =>
    -- the state is the next one of its process
    have hnext := horder state.pid
    rw [List.filter_cons_of_pos (by simp)] at hnext
    cases hinfos : infos state.pid with
    | nil => simp [hinfos, dump] at hnext
    | cons info rest =>
      rw [hinfos, dump_cons] at hnext
      obtain ⟨hstate, hrest⟩ := List.cons.inj hnext
      obtain ⟨r', hset, hlinked', hapart⟩ := setstate_getstate (hlinked state.pid) info
      have horder' : ∀ pid, states.filter (fun s => s.pid = pid) =
          dump (Function.update savers state.pid (getstate (savers state.pid) state.pid info.toTables).1 pid) pid
            (Function.update infos state.pid rest pid) := by
        intro pid
        by_cases hpid : pid = state.pid
        · subst hpid
          rw [Function.update_self, Function.update_self]
          exact hrest
        · have h := horder pid
          rw [List.filter_cons_of_neg (by simpa using fun heq => hpid heq.symm)] at h
          simpa [hpid] using h
      have hlinked_all : ∀ pid, Linked
          (Function.update savers state.pid (getstate (savers state.pid) state.pid info.toTables).1 pid) pid r' := by
        intro pid
        by_cases hpid : pid = state.pid
        · subst hpid
          rw [Function.update_self]
          exact hlinked'
        · unfold Linked
          rw [hapart pid hpid, Function.update_of_ne hpid]
          exact hlinked pid
      obtain ⟨restored, hall, heach⟩ := ih _ _ r' horder' hlinked_all
      refine ⟨(state.pid, info.toTables) :: restored, ?_, ?_⟩
      · unfold restore_all
        rw [← hstate] at hset
        rw [hset]
        simp only [bind, Except.bind]
        rw [hall]
      · intro pid
        have h := heach pid
        by_cases hpid : pid = state.pid
        · subst hpid
          simpa [of_process, hinfos] using h
        · simpa [of_process, hpid, Ne.symm hpid] using h

/-- Whatever is in the store and the maps of the receiver, and however the streams of the processes mix, each
object comes back as it was. -/
theorem streamed_infos_are_restored (r : Receiver V) (infos : Nat → List (SiggenRecipeInfo V))
    (arrival : Arrival fun pid => dump Saver.reset pid (infos pid)) :
    ∃ restored, restore_all r arrival.states = .ok restored ∧
      ∀ pid, of_process restored pid = (infos pid).map SiggenRecipeInfo.toTables := by
  apply restore_dumps arrival.states (fun _ => Saver.reset) infos r arrival.in_order
  intro pid
  exact Agrees.reset _

end yocto.recipe_info_streams
