-- The signature data that `dump_sigtask` writes, and the hashes that `calc_basehash` and
-- `calc_taskhash` make from it again.
import Yocto.DependencyHash
import Yocto.StampHash

open yocto.list_search yocto.task_ids yocto.siggen yocto.raising yocto.ordered_dict yocto.dependency_hash
open yocto.runs

namespace yocto.sig_dump

/-! ## The dump -/

/-- The entries that are there for a task whose task hash is known. -/
structure RuntimeData where
  runtaskdeps : List Text
  file_checksum_values : List (Text × Text)
  runtaskhashes : Dict Text
  taskhash : Text
  unihash : Text

structure SigData where
  task : Text
  basehash_ignore_vars : Finset Text
  taskhash_ignore_tasks : Option Text
  taskdeps : Finset Text
  basehash : Text
  gendeps : Dict (Finset Text)
  varvals : Dict (Option Text)
  runtime : Option RuntimeData
  taint : Option Text

structure Settings where
  basehash_ignore_vars : Finset Text
  taskhash_ignore_tasks : Option Text

/-- The argument `runtime`: a truth value, or a text that names the stamp of the taint file. -/
inductive Runtime
  | no
  | yes
  | customfile (referencestamp : Text)
  deriving DecidableEq, Repr

inductive Mismatch
  | basehash (computed stored tid : Text)
  | taskhash (computed stored tid : Text)
  deriving DecidableEq, Repr

/-- What is written, where, and what was reported. -/
structure Dump where
  sigfile : Text
  data : SigData
  errors : List Mismatch

/-- The name of the file, for which the unihash of the task is asked. -/
def sigfile_of (server : Text → Option Text) (s : Siggen) (tid task stampbase : Text) :
    Runtime → Except PyError (Siggen × Text)
  | .customfile _ => .ok (s, stampbase)
  | .yes => do
    if s.taskhash tid ≠ none then
      let (s', unihash) ← get_unihash server s tid
      .ok (s', stampbase ++ '.' :: task ++ text ".sigdata." ++ unihash)
    else
      .ok (s, stampbase ++ '.' :: task ++ text ".sigbasedata." ++ (← lookup s.basehash tid))
  | .no => do
    .ok (s, stampbase ++ '.' :: task ++ text ".sigbasedata." ++ (← lookup s.basehash tid))

/-- The loop over the names the task depends on: their dependencies and their values. -/
def values_loop (ignored : Finset Text) (r : RecipeData) :
    List Text → Dict (Finset Text) × Dict (Option Text) →
      Except PyError (Dict (Finset Text) × Dict (Option Text))
  | [], d => .ok d
  | dep :: deps, (gendeps, varvals) =>
    if dep ∈ ignored then values_loop ignored r deps (gendeps, varvals)
    else do
      let names ← lookup r.gendeps.get? dep
      let value ← lookup r.lookupcache dep
      values_loop ignored r deps
        (Function.update gendeps dep (some names), Function.update varvals dep (some value))

/-- The loop over the dependencies of the task, in the order of `prep_taskhash`. -/
def hashes_loop (server : Text → Option Text) :
    Siggen → List (Text × Text) → Dict Text → Except PyError (Siggen × Dict Text)
  | s, [], hashes => .ok (s, hashes)
  | s, dep :: deps, hashes => do
    let (s', unihash) ← get_unihash server s dep.2
    hashes_loop server s' deps (Function.update hashes dep.1 (some unihash))

def basename (f : Text) : Text := (f.splitOn '/').getLastD []

def written_checksums (values : List (Text × Text)) : List (Text × Text) :=
  (sorted (fun a b => decide (clean_checksum_file_path a.1 ≤ clean_checksum_file_path b.1))
    values).map fun (f, cs) =>
      match find (text "/./") f with
      | some i => (text "./" ++ after_dot f i, cs)
      | none => (basename f, cs)

def runtime_data (server : Text → Option Text) (s : Siggen) (tid : Text) :
    Except PyError (Siggen × RuntimeData) := do
  let deps ← lookup s.runtaskdeps tid
  let values ← lookup s.file_checksum_values tid
  let (s1, runtaskhashes) ← hashes_loop server s deps fun _ => none
  let taskhash ← lookup s1.taskhash tid
  let (s2, unihash) ← get_unihash server s1 tid
  .ok (s2, { runtaskdeps := (sorted pair_le deps).map Prod.fst
             file_checksum_values := written_checksums values
             runtaskhashes, taskhash, unihash })

/-- The taint that is written: the one of the taint file, or that of a nostamp task. -/
def written_taint (runtime : Runtime) (taints file : Option Text) : Option Text :=
  match taints with
  | some taint =>
    if runtime ≠ .no ∧ text "nostamp:" <:+: taint then some taint else truthy file
  | none => truthy file

/-- The stamp beside which the taint file is read. -/
def taint_stamp (stampbase : Text) : Runtime → Text
  | .customfile referencestamp => referencestamp
  | _ => stampbase

def sig_data (server : Text → Option Text) (settings : Settings) (taskdeps : Dict (Finset Text))
    (r : RecipeData) (read_taint : Text → Option Text) (s : Siggen) (tid task stampbase : Text)
    (runtime : Runtime) : Except PyError (Siggen × SigData) := do
  let names ← lookup taskdeps task
  let basehash ← lookup s.basehash tid
  let value ← lookup r.lookupcache task
  let (gendeps, varvals) ← values_loop settings.basehash_ignore_vars r names.sort
    (fun _ => none, Function.update (fun _ => none) task (some value))
  let (s', runtimedata) ←
    if runtime ≠ .no ∧ s.taskhash tid ≠ none then do
      let (s', data) ← runtime_data server s tid
      .ok (s', some data)
    else .ok (s, none)
  .ok (s', { task, basehash_ignore_vars := settings.basehash_ignore_vars
             taskhash_ignore_tasks := settings.taskhash_ignore_tasks
             taskdeps := names, basehash, gendeps, varvals, runtime := runtimedata
             taint := written_taint runtime (s'.taints tid)
               (read_taint (taint_stamp stampbase runtime)) })

/-! ## The hashes made from the dump -/

def base_loop (varvals : Dict (Option Text)) : List Text → Text → Except PyError Text
  | [], basedata => .ok basedata
  | dep :: deps, basedata => do
    match ← lookup varvals dep with
    | some val => base_loop varvals deps (basedata ++ dep ++ val)
    | none => base_loop varvals deps (basedata ++ dep)

def calc_basehash (hash : Sha256) (sigdata : SigData) : Except PyError Text := do
  let basedata ← lookup sigdata.varvals sigdata.task
  let basedata ← base_loop sigdata.varvals sigdata.taskdeps.sort (basedata.getD [])
  .ok (hash.hexdigest basedata)

def rundeps_loop (runtaskhashes : Dict Text) : List Text → Text → Except PyError Text
  | [], data => .ok data
  | dep :: deps, data => do
    rundeps_loop runtaskhashes deps (data ++ (← lookup runtaskhashes dep))

/-- What the written checksums add to the hashed text. -/
def written_checksum_text (values : List (Text × Text)) : Text :=
  values.flatMap fun c => if c.2 = [] then [] else (if text "./" <:+: c.1 then c.1 else []) ++ c.2

/-- What a written taint adds to the hashed text. -/
def written_taint_text (taint : Option Text) : Text :=
  match taint with
  | some taint => if text "nostamp:" <:+: taint then taint.drop 8 else taint
  | none => []

/-- The text that `calc_taskhash` hashes. Without the entries of a run there is a `KeyError`. -/
def calc_taskhash_data (sigdata : SigData) : Except PyError Text :=
  match sigdata.runtime with
  | some runtime => do
    let data ← rundeps_loop runtime.runtaskhashes runtime.runtaskdeps sigdata.basehash
    .ok (data ++ written_checksum_text runtime.file_checksum_values ++
      written_taint_text sigdata.taint)
  | none => .error .keyError

def calc_taskhash (hash : Sha256) (sigdata : SigData) : Except PyError Text := do
  .ok (hash.hexdigest (← calc_taskhash_data sigdata))

/-- `dump_sigtask`: the data is written also when the hashes made from it are other ones. -/
def dump_sigtask (hash : Sha256) (server : Text → Option Text) (settings : Settings)
    (taskdeps : Dict (Finset Text)) (r : RecipeData) (read_taint : Text → Option Text) (s : Siggen)
    (mcfn task stampbase : Text) (runtime : Runtime) : Except PyError (Siggen × Dump) := do
  let tid := mcfn ++ ':' :: task
  let (s1, sigfile) ← sigfile_of server s tid task stampbase runtime
  let (s2, data) ← sig_data server settings taskdeps r read_taint s1 tid task stampbase runtime
  let computed_basehash ← calc_basehash hash data
  let stored_basehash ← lookup s2.basehash tid
  let baseerrors := if computed_basehash ≠ stored_basehash then
    [Mismatch.basehash computed_basehash stored_basehash tid] else []
  match (if runtime ≠ .no then s2.taskhash tid else none) with
  | some taskhash => do
    let computed_taskhash ← calc_taskhash hash data
    if computed_taskhash ≠ taskhash then
      .ok (s2, { sigfile := replace taskhash computed_taskhash sigfile, data
                 errors := baseerrors ++ [.taskhash computed_taskhash taskhash tid] })
    else .ok (s2, { sigfile, data, errors := baseerrors })
  | none => .ok (s2, { sigfile, data, errors := baseerrors })

/-! ## The base hash -/

theorem base_loop_iff {varvals : Dict (Option Text)} {deps : List Text} (data : Text)
    {data' : Text} : base_loop varvals deps data = .ok data' ↔
      (∀ dep ∈ deps, varvals dep ≠ none) ∧ data' = data ++ named_values varvals deps := by
  induction deps generalizing data with
  | nil => simp [base_loop, named_values, eq_comm]
  | cons dep deps ih =>
    rw [base_loop, lookup]
    rcases hdep : varvals dep with _ | _ | val
    · simp [hdep, bind, Except.bind]
    · simpa [hdep, bind, Except.bind, written] using ih (data ++ dep)
    · simpa [hdep, bind, Except.bind, written] using ih (data ++ dep ++ val)

theorem values_loop_ok (ignored : Finset Text) {r : RecipeData} {deps : List Text}
    (d : Dict (Finset Text) × Dict (Option Text))
    (hkeys : ∀ dep ∈ deps, r.gendeps.get? dep ≠ none ∧ r.lookupcache dep ≠ none) :
    ∃ d', values_loop ignored r deps d = .ok d' ∧ ∀ name,
      d'.2 name = if name ∈ deps ∧ name ∉ ignored then r.lookupcache name else d.2 name := by
  induction deps generalizing d with
  | nil => exact ⟨d, rfl, by simp⟩
  | cons dep deps ih =>
    have hrest := fun name hname => hkeys name (List.mem_cons_of_mem dep hname)
    rw [values_loop]
    split
    · rename_i hign
      obtain ⟨d', hloop, hd'⟩ := ih d hrest
      refine ⟨d', hloop, fun name => ?_⟩
      rw [hd' name]
      by_cases hname : name = dep
      · simp [hname, hign]
      · simp [hname]
    · rename_i hign
      obtain ⟨names, hnames⟩ := Option.ne_none_iff_exists'.mp (hkeys dep List.mem_cons_self).1
      obtain ⟨value, hvalue⟩ := Option.ne_none_iff_exists'.mp (hkeys dep List.mem_cons_self).2
      obtain ⟨d', hloop, hd'⟩ :=
        ih (Function.update d.1 dep (some names), Function.update d.2 dep (some value)) hrest
      refine ⟨d', ?_, fun name => ?_⟩
      · simpa [lookup, hnames, hvalue, bind, Except.bind] using hloop
      · rw [hd' name]
        by_cases hname : name = dep
        · subst hname
          simp [hign, hvalue]
        · simp [hname]

/-! ## The file checksums -/

theorem no_dot_in_basename (f : Text) : ¬ text "./" <:+: basename f := by
  intro h
  have hslash : '/' ∈ basename f := h.subset (by decide)
  have hne := List.splitOn_ne_nil '/' f
  rw [basename, List.getLastD_eq_getLast?, List.getLast?_eq_some_getLast hne] at hslash
  exact not_mem_of_mem_splitOn (List.getLast_mem hne) hslash

theorem written_checksum_text_eq (values : List (Text × Text)) :
    written_checksum_text (written_checksums values) = checksum_text values := by
  rw [written_checksum_text, written_checksums, checksum_text, List.flatMap_map]
  refine List.flatMap_congr fun c _ => ?_
  rcases hfind : find (text "/./") c.1 with _ | i
  · simp [hfind, no_dot_in_basename]
  · simp [hfind, (List.prefix_append (text "./") (after_dot c.1 i)).isInfix]

/-! ## The taint -/

/-- What the taint of a task adds to the text that `get_taskhash` hashes. -/
def taint_text (taint : Option Text) : Text :=
  match taint with
  | some taint => if text "nostamp:" <+: taint then taint.drop 8 else taint
  | none => []

/-- The taint of the generator is the one of the taint file, unless it is that of a nostamp task,
and it holds the mark of such a task at its start only. -/
def TaintKept (taint file : Option Text) : Prop :=
  ∀ t, taint = some t → (text "nostamp:" <:+: t → text "nostamp:" <+: t) ∧
    (¬ text "nostamp:" <:+: t → t = [] ∨ truthy file = some t)

theorem written_taint_text_iff {runtime : Runtime} {taint file : Option Text}
    (hruntime : runtime ≠ .no) (hfile : ∀ t, truthy file = some t → taint = some t) :
    written_taint_text (written_taint runtime taint file) = taint_text taint ↔
      TaintKept taint file := by
  rcases taint with _ | t
  · have hnone : truthy file = none := by
      rcases h : truthy file with _ | t
      · rfl
      · cases hfile t h
    simp [written_taint, written_taint_text, taint_text, TaintKept, hnone]
  · by_cases hin : text "nostamp:" <:+: t
    · have hlen : 8 ≤ t.length := hin.length_le
      by_cases hpre : text "nostamp:" <+: t
      · simp [written_taint, written_taint_text, taint_text, TaintKept, hruntime, hin, hpre]
      · have hne : t.drop 8 ≠ t := fun h => by
          have := congrArg List.length h
          rw [List.length_drop] at this
          omega
        simp [written_taint, written_taint_text, taint_text, TaintKept, hruntime, hin, hpre, hne]
    · have hpre : ¬ text "nostamp:" <+: t := fun h => hin h.isInfix
      rcases hf : truthy file with _ | t'
      · simp [written_taint, written_taint_text, taint_text, TaintKept, hin, hpre, hf, eq_comm]
      · obtain rfl := Option.some.inj (hfile t' hf)
        simp [written_taint, written_taint_text, taint_text, TaintKept, hin, hpre, hf]

/-! ## The unihashes of the dependencies -/

variable {server : Text → Option Text} {s s' : Siggen} {tid : Text}

/-- The unihashes of some tasks, asked for one after the other. -/
def ask_each (server : Text → Option Text) :
    Siggen → List Text → Except PyError (Siggen × List Text)
  | s, [] => .ok (s, [])
  | s, tid :: tids => do
    let (s1, unihash) ← get_unihash server s tid
    let (s2, unihashes) ← ask_each server s1 tids
    .ok (s2, unihash :: unihashes)

theorem ask_each_cons {t : Text} {tids us : List Text} {u : Text}
    (h : ask_each server s (t :: tids) = .ok (s', u :: us)) :
    ∃ s1, get_unihash server s t = .ok (s1, u) ∧ ask_each server s1 tids = .ok (s', us) := by
  obtain ⟨⟨s1, u1⟩, hget, h⟩ := bind_ok h
  obtain ⟨⟨s2, us1⟩, hrest, h⟩ := bind_ok h
  obtain ⟨rfl, hus⟩ := Prod.mk.inj (Except.ok.inj h)
  obtain ⟨rfl, rfl⟩ := List.cons.inj hus
  exact ⟨s1, hget, hrest⟩

theorem ask_each_framed {tids us : List Text} (h : ask_each server s tids = .ok (s', us)) :
    stamp_hash.Framed s s' := by
  induction tids generalizing s us with
  | nil =>
    obtain ⟨rfl, _⟩ := Prod.mk.inj (Except.ok.inj h)
    rfl
  | cons t tids ih =>
    obtain ⟨⟨s1, u⟩, hget, h⟩ := bind_ok h
    obtain ⟨⟨s2, us1⟩, hrest, h⟩ := bind_ok h
    obtain ⟨rfl, _⟩ := Prod.mk.inj (Except.ok.inj h)
    exact (stamp_hash.get_unihash_framed hget).trans (ih hrest)

theorem dep_loop_of_ask {deps : List (Text × Text)} {us : List Text}
    (h : ask_each server s (deps.map Prod.snd) = .ok (s', us)) (data : Text) :
    dep_loop server s deps data = .ok (s', data ++ us.flatten) := by
  induction deps generalizing s us data with
  | nil =>
    obtain ⟨rfl, rfl⟩ := Prod.mk.inj (Except.ok.inj h)
    simp [dep_loop]
  | cons dep deps ih =>
    rw [List.map_cons] at h
    cases us with
    | nil =>
      obtain ⟨⟨_, _⟩, _, h⟩ := bind_ok h
      obtain ⟨⟨_, _⟩, _, h⟩ := bind_ok h
      cases (Prod.mk.inj (Except.ok.inj h)).2
    | cons u us =>
      obtain ⟨s1, hget, hrest⟩ := ask_each_cons h
      simp [dep_loop, hget, ih hrest, bind, Except.bind]

/-- The unihashes that the dump holds: the last one of the dependencies with one name. -/
def recorded (u : Text → Text) (deps : List (Text × Text)) (hashes : Dict Text) : Dict Text :=
  deps.foldl (fun hashes dep => Function.update hashes dep.1 (some (u dep.2))) hashes

theorem hashes_loop_of_ask {u : Text → Text} {deps : List (Text × Text)}
    (h : ask_each server s (deps.map Prod.snd) = .ok (s', deps.map fun dep => u dep.2))
    (hashes : Dict Text) :
    hashes_loop server s deps hashes = .ok (s', recorded u deps hashes) := by
  induction deps generalizing s hashes with
  | nil =>
    obtain ⟨rfl, _⟩ := Prod.mk.inj (Except.ok.inj h)
    rfl
  | cons dep deps ih =>
    obtain ⟨s1, hget, hrest⟩ := ask_each_cons h
    simpa [hashes_loop, hget, recorded, bind, Except.bind] using ih hrest _

theorem recorded_name {u : Text → Text} {deps : List (Text × Text)} {name : Text}
    (hashes : Dict Text) (h : ∃ dep ∈ deps, dep.1 = name) :
    ∃ dep ∈ deps, dep.1 = name ∧ recorded u deps hashes name = some (u dep.2) := by
  induction deps using List.reverseRecOn with
  | nil => simp at h
  | append_singleton deps last ih =>
    rw [recorded, List.foldl_append]
    by_cases hlast : last.1 = name
    · subst hlast
      exact ⟨last, by simp, rfl, by simp⟩
    · obtain ⟨dep, hdep, hname⟩ := h
      have hin : dep ∈ deps := by
        rcases List.mem_append.mp hdep with hin | hin
        · exact hin
        · exact absurd (List.mem_singleton.mp hin ▸ hname) hlast
      obtain ⟨found, hfound, hfname, hvalue⟩ := ih ⟨dep, hin, hname⟩
      refine ⟨found, List.mem_append_left _ hfound, hfname, ?_⟩
      simpa [recorded, Function.update_of_ne (Ne.symm hlast)] using hvalue

theorem rundeps_loop_ok {hashes : Dict Text} {names : List Text} {f : Text → Text}
    (h : ∀ name ∈ names, hashes name = some (f name)) (data : Text) :
    rundeps_loop hashes names data = .ok (data ++ names.flatMap f) := by
  induction names generalizing data with
  | nil => simp [rundeps_loop]
  | cons name names ih =>
    have hrest := ih (fun n hn => h n (List.mem_cons_of_mem name hn)) (data ++ f name)
    simpa [rundeps_loop, lookup, h name List.mem_cons_self, bind, Except.bind] using hrest

theorem mem_sorted {α : Type} {le : α → α → Bool} {l : List α} {x : α} :
    x ∈ sorted le l ↔ x ∈ l := by
  rw [sorted]
  exact (List.perm_insertionSort _ l).mem_iff

/-! ## A task that is left alone -/

/-- The call prepares and hashes no task with this id. -/
def OtherTask (tid : Text) (_ : Siggen) : Call → Prop
  | .prep_taskhash t _ _ _ _ => t ≠ tid
  | .get_taskhash t _ => t ≠ tid
  | _ => True

/-- What the generator knows of the task is the same. -/
structure Kept (tid : Text) (s s' : Siggen) : Prop where
  basehash : s'.basehash tid = s.basehash tid
  runtaskdeps : s'.runtaskdeps tid = s.runtaskdeps tid
  file_checksum_values : s'.file_checksum_values tid = s.file_checksum_values tid
  taints : s'.taints tid = s.taints tid
  tidtopn : s'.tidtopn tid = s.tidtopn tid
  taskhash : s'.taskhash tid = s.taskhash tid

theorem Kept.refl (tid : Text) (s : Siggen) : Kept tid s s := ⟨rfl, rfl, rfl, rfl, rfl, rfl⟩

theorem Kept.trans {s'' : Siggen} (h : Kept tid s s') (h' : Kept tid s' s'') : Kept tid s s'' :=
  ⟨h'.basehash.trans h.basehash, h'.runtaskdeps.trans h.runtaskdeps,
    h'.file_checksum_values.trans h.file_checksum_values, h'.taints.trans h.taints,
    h'.tidtopn.trans h.tidtopn, h'.taskhash.trans h.taskhash⟩

theorem kept_of_framed (h : stamp_hash.Framed s s') : Kept tid s s' := by
  constructor <;> rw [h]

theorem Kept.step {hash : Sha256} {caches : DataCaches}
    {check : Text → Text → Text → Text → Text → Bool} {c : Call} (hother : OtherTask tid s c)
    (h : siggen.step hash caches check s c = some s') : Kept tid s s' := by
  cases c with
  | prep_taskhash t deps checksums uuid taint =>
    obtain ⟨r, hr, rfl⟩ := Option.map_eq_some_iff.mp h
    obtain ⟨n, _, hr⟩ := bind_ok (ok_of_toOption hr)
    obtain ⟨base, _, hr⟩ := bind_ok hr
    obtain ⟨pn, _, hr⟩ := bind_ok hr
    obtain ⟨rundeps, _, hr⟩ := bind_ok hr
    obtain rfl := Except.ok.inj hr
    have hne : tid ≠ t := Ne.symm hother
    constructor <;> simp only [Function.update_of_ne hne]
    -- both updates of the taints are those of the task itself
    split <;> split <;> simp only [Function.update_of_ne hne]
  | get_taskhash t server =>
    obtain ⟨r, hr, rfl⟩ := Option.map_eq_some_iff.mp h
    obtain ⟨deps, data, s1, data', _, hloop, _, heq⟩ := stamp_hash.get_taskhash_ok (ok_of_toOption hr)
    have hkept : Kept tid s s1 := kept_of_framed (stamp_hash.dep_loop_framed hloop)
    refine hkept.trans ?_
    rw [heq]
    exact ⟨rfl, rfl, rfl, rfl, rfl, Function.update_of_ne (Ne.symm hother) _ _⟩
  | get_unihashes tids server =>
    obtain ⟨r, hr, rfl⟩ := Option.map_eq_some_iff.mp h
    exact kept_of_framed (stamp_hash.get_unihashes_framed (ok_of_toOption hr))
  | set_unihash t unihash =>
    exact kept_of_framed (stamp_hash.set_unihash_framed (ok_of_toOption h))
  | get_stampfile_hash t =>
    obtain ⟨_, _, rfl⟩ := Option.map_eq_some_iff.mp h
    exact Kept.refl tid s

theorem Kept.run {hash : Sha256} {caches : DataCaches}
    {check : Text → Text → Text → Text → Text → Bool}
    (h : Reaches (siggen.step hash caches check) (OtherTask tid) s s') : Kept tid s s' :=
  h.invariant (I := Kept tid s) (Kept.refl tid s) fun _ _ _ hs hother hstep =>
    hs.trans (Kept.step hother hstep)

/-! ## What the calls give -/

theorem set_unihash_total {taskhash pn : Text} {n : Names} (hn : split_tid_mcfn tid = some n)
    (hpn : s.tidtopn tid = some pn) (hth : s.taskhash tid = some taskhash) (unihash : Text) :
    ∃ s', set_unihash s tid unihash = .ok s' := by
  simp only [set_unihash, namesOf, lookup, hn, hpn, hth, bind, Except.bind]
  exact ⟨_, rfl⟩

theorem get_cached_unihash_total {taskhash pn : Text} {n : Names}
    (hn : split_tid_mcfn tid = some n) (hpn : s.tidtopn tid = some pn)
    (hth : s.taskhash tid = some taskhash) : ∃ r, get_cached_unihash s tid = .ok r := by
  have hfound : ∃ found, _get_unihash s tid none = .ok found := by
    simp only [_get_unihash, namesOf, hn, hpn, lookup, hth, truthy, bind, Except.bind]
    rcases s.unitaskhashes (joined n.mc pn n.taskname) with _ | ⟨key, unihash⟩
    · exact ⟨_, rfl⟩
    · exact ⟨_, rfl⟩
  obtain ⟨found, hfound⟩ := hfound
  simp only [get_cached_unihash, lookup, hth, hfound, bind, Except.bind]
  split
  · exact ⟨_, rfl⟩
  · rcases found with _ | unihash
    · exact ⟨_, rfl⟩
    · exact ⟨_, rfl⟩

theorem get_unihash_total (server : Text → Option Text) {taskhash pn : Text} {n : Names}
    (hn : split_tid_mcfn tid = some n) (hpn : s.tidtopn tid = some pn) (hth : s.taskhash tid = some taskhash) :
    ∃ r, get_unihash server s tid = .ok r := by
  obtain ⟨⟨s1, cached⟩, hcached⟩ := get_cached_unihash_total hn hpn hth
  have hframe := stamp_hash.get_cached_unihash_framed hcached
  rcases hc : truthy cached with _ | unihash
  · obtain ⟨s2, hset⟩ := set_unihash_total hn (hframe.tidtopn ▸ hpn) (hframe.taskhash ▸ hth)
      ((truthy (server tid)).getD taskhash)
    have hth1 : s1.taskhash tid = some taskhash := hframe.taskhash ▸ hth
    simp [get_unihash, siggen.get_unihashes, cached_loop, query_loop, hcached, hc, hset, lookup,
      hth1, bind, Except.bind]
  · simp [get_unihash, siggen.get_unihashes, cached_loop, query_loop, hcached, hc, lookup, bind,
      Except.bind]

theorem prep_taskhash_gives {caches : DataCaches} {check : Text → Text → Text → Text → Text → Bool}
    {deps ds : List Text} {checksums : List (Text × Text)} {uuid : Text} {taint : Option Text}
    (h : prep_taskhash caches check s tid deps checksums uuid taint = .ok (s', ds)) :
    (∃ base, caches.basetaskhash tid = some base ∧ s'.basehash tid = some base) ∧
      (∃ n pn, split_tid_mcfn tid = some n ∧ s'.tidtopn tid = some pn) ∧
      s'.file_checksum_values tid = some checksums ∧
      ∀ t, truthy taint = some t → s'.taints tid = some t := by
  obtain ⟨n, hn, h⟩ := bind_ok h
  obtain ⟨base, hbase, h⟩ := bind_ok h
  obtain ⟨pn, _, h⟩ := bind_ok h
  obtain ⟨rundeps, _, h⟩ := bind_ok h
  obtain ⟨rfl, _⟩ := Prod.mk.inj (Except.ok.inj h)
  refine ⟨⟨base, lookup_ok hbase, by simp⟩, ⟨n, pn, stamp_hash.namesOf_ok hn, by simp⟩, by simp, ?_⟩
  intro t ht
  simp [ht]

def taskhash_data (server : Text → Option Text) (s : Siggen) (tid : Text) : Except PyError Text := do
  let basehash ← lookup s.basehash tid
  let deps ← lookup s.runtaskdeps tid
  let (_, data) ← dep_loop server s (sorted pair_le deps) basehash
  let values ← lookup s.file_checksum_values tid
  .ok (data ++ checksum_text values ++ taint_text (s.taints tid))

theorem get_taskhash_gives {hash : Sha256} {h : Text}
    (hget : get_taskhash hash server s tid = .ok (s', h)) :
    s'.taskhash tid = some h ∧ s'.basehash = s.basehash ∧ s'.runtaskdeps = s.runtaskdeps ∧
      s'.file_checksum_values = s.file_checksum_values ∧ s'.taints = s.taints ∧
      s'.tidtopn = s.tidtopn ∧
      ∃ data, taskhash_data server s tid = .ok data ∧ h = hash.hexdigest data := by
  obtain ⟨base, hbase, hget⟩ := bind_ok hget
  obtain ⟨deps, hdeps, hget⟩ := bind_ok hget
  obtain ⟨⟨s1, data⟩, hloop, hget⟩ := bind_ok hget
  obtain ⟨values, hvalues, hget⟩ := bind_ok hget
  have hframe : stamp_hash.Framed s s1 := stamp_hash.dep_loop_framed hloop
  obtain ⟨rfl, rfl⟩ := Prod.mk.inj (Except.ok.inj hget)
  have hchecksums : s1.file_checksum_values = s.file_checksum_values := by rw [hframe]
  have htaints : s1.taints = s.taints := by rw [hframe]
  refine ⟨by simp, by rw [hframe], by rw [hframe], hchecksums, htaints, by rw [hframe],
    data ++ checksum_text values ++ taint_text (s.taints tid), ?_, ?_⟩
  · simp [taskhash_data, hbase, hdeps, hloop, hvalues, bind, Except.bind]
  · rw [← htaints]
    rfl

/-! ## The data of the dump -/

/-- The unihashes that a dump of the task asks for. -/
def dump_asks (server : Text → Option Text) (s : Siggen) (tid task stampbase : Text)
    (runtime : Runtime) (deps : List Text) : Except PyError (List Text) := do
  let (s', _) ← sigfile_of server s tid task stampbase runtime
  let (_, unihashes) ← ask_each server s' deps
  .ok unihashes

/-- What the generator and the caches know of a task that is dumped. -/
structure Known (r : RecipeData) (taskdeps : Dict (Finset Text)) (s : Siggen) (tid task : Text)
    (names : Finset Text) (base taskhash : Text) (rundeps values : List (Text × Text)) : Prop where
  taskdeps : taskdeps task = some names
  gendeps : ∀ dep ∈ names, r.gendeps.get? dep ≠ none
  lookupcache : ∀ name, name = task ∨ name ∈ names → r.lookupcache name ≠ none
  basehash : s.basehash tid = some base
  taskhash : s.taskhash tid = some taskhash
  runtaskdeps : s.runtaskdeps tid = some rundeps
  file_checksum_values : s.file_checksum_values tid = some values
  named : ∃ n pn, split_tid_mcfn tid = some n ∧ s.tidtopn tid = some pn

variable {r : RecipeData} {taskdeps : Dict (Finset Text)} {task base taskhash : Text}
  {names : Finset Text} {rundeps values : List (Text × Text)}

theorem Known.of_kept (h : Known r taskdeps s tid task names base taskhash rundeps values)
    (hkept : Kept tid s s') : Known r taskdeps s' tid task names base taskhash rundeps values :=
  { h with
    basehash := hkept.basehash.trans h.basehash
    taskhash := hkept.taskhash.trans h.taskhash
    runtaskdeps := hkept.runtaskdeps.trans h.runtaskdeps
    file_checksum_values := hkept.file_checksum_values.trans h.file_checksum_values
    named := hkept.tidtopn ▸ h.named }

/-- What the dumped data holds. -/
structure Describes (r : RecipeData) (settings : Settings) (taskname : Text) (names : Finset Text)
    (base : Text) (rundeps values : List (Text × Text)) (u : Text → Text) (taint : Option Text)
    (data : SigData) : Prop where
  task : data.task = taskname
  taskdeps : data.taskdeps = names
  basehash : data.basehash = base
  varvals : ∀ name, data.varvals name =
    if name = taskname ∨ name ∈ names ∧ name ∉ settings.basehash_ignore_vars then r.lookupcache name
    else none
  runtime : ∃ runtime, data.runtime = some runtime ∧
    runtime.runtaskdeps = (sorted pair_le rundeps).map Prod.fst ∧
    runtime.file_checksum_values = written_checksums values ∧
    runtime.runtaskhashes = recorded u rundeps fun _ => none
  taint : data.taint = taint

theorem runtime_data_ok {u : Text → Text}
    (h : Known r taskdeps s tid task names base taskhash rundeps values)
    (hask : ask_each server s (rundeps.map Prod.snd) = .ok (s', rundeps.map fun dep => u dep.2)) :
    ∃ s'' runtime, runtime_data server s tid = .ok (s'', runtime) ∧ Kept tid s s'' ∧
      runtime.runtaskdeps = (sorted pair_le rundeps).map Prod.fst ∧
      runtime.file_checksum_values = written_checksums values ∧
      runtime.runtaskhashes = recorded u rundeps fun _ => none := by
  have hkept : Kept tid s s' := kept_of_framed (ask_each_framed hask)
  have h' := h.of_kept hkept
  obtain ⟨n, pn, hn, hpn⟩ := h'.named
  obtain ⟨⟨s2, unihash⟩, hown⟩ := get_unihash_total server hn hpn h'.taskhash
  have hloop := hashes_loop_of_ask hask fun _ => none
  refine ⟨s2, ⟨(sorted pair_le rundeps).map Prod.fst, written_checksums values,
    recorded u rundeps fun _ => none, taskhash, unihash⟩, ?_,
    hkept.trans (kept_of_framed (stamp_hash.get_unihash_framed hown)), rfl, rfl, rfl⟩
  simp [runtime_data, lookup, h.runtaskdeps, h.file_checksum_values, hloop, h'.taskhash, hown, bind,
    Except.bind]

theorem sig_data_ok {u : Text → Text} {runtime : Runtime} (hruntime : runtime ≠ .no)
    (settings : Settings) (read_taint : Text → Option Text) (stampbase : Text)
    (h : Known r taskdeps s tid task names base taskhash rundeps values)
    (hask : ask_each server s (rundeps.map Prod.snd) = .ok (s', rundeps.map fun dep => u dep.2)) :
    ∃ s'' data, sig_data server settings taskdeps r read_taint s tid task stampbase runtime =
        .ok (s'', data) ∧ Kept tid s s'' ∧
      Describes r settings task names base rundeps values u
        (written_taint runtime (s.taints tid) (read_taint (taint_stamp stampbase runtime))) data := by
  obtain ⟨s'', rundata, hrun, hkept, hdeps, hvalues, hhashes⟩ := runtime_data_ok h hask
  obtain ⟨value, hvalue⟩ := Option.ne_none_iff_exists'.mp (h.lookupcache task (Or.inl rfl))
  have hkeys : ∀ dep ∈ names.sort, r.gendeps.get? dep ≠ none ∧ r.lookupcache dep ≠ none := by
    intro dep hdep
    have hdep : dep ∈ names := by simpa using hdep
    exact ⟨h.gendeps dep hdep, h.lookupcache dep (Or.inr hdep)⟩
  obtain ⟨⟨gendeps, varvals⟩, hloop, hvarvals⟩ :=
    values_loop_ok settings.basehash_ignore_vars
      (fun _ => none, Function.update (fun _ => none) task (some value)) hkeys
  refine ⟨s'', { task, basehash_ignore_vars := settings.basehash_ignore_vars
                 taskhash_ignore_tasks := settings.taskhash_ignore_tasks
                 taskdeps := names, basehash := base, gendeps, varvals, runtime := some rundata
                 taint := written_taint runtime (s.taints tid)
                   (read_taint (taint_stamp stampbase runtime)) }, ?_, hkept, ?_⟩
  · simp [sig_data, lookup, h.taskdeps, h.basehash, hvalue, hloop, h.taskhash, hruntime, hrun,
      hkept.taints, bind, Except.bind]
  · refine ⟨rfl, rfl, rfl, fun name => ?_, ⟨rundata, rfl, hdeps, hvalues, hhashes⟩, rfl⟩
    refine (hvarvals name).trans ?_
    by_cases hname : name = task
    · simp [hname, hvalue]
    · simp [hname]

/-! ## The hashes made from the data -/

variable {hash : Sha256} {settings : Settings} {u : Text → Text} {taint : Option Text}
  {data : SigData}

theorem calc_basehash_iff (hash : Sha256) (x : Text)
    (h : Describes r settings task names base rundeps values u taint data)
    (hvalues : ∀ name, name = task ∨ name ∈ names → r.lookupcache name ≠ none) :
    calc_basehash hash data = .ok x ↔
      (∀ dep ∈ names, dep ∈ settings.basehash_ignore_vars → dep = task) ∧
        x = hash.hexdigest (written r.lookupcache task ++ named_values r.lookupcache names.sort) := by
  obtain ⟨value, hvalue⟩ := Option.ne_none_iff_exists'.mp (hvalues task (Or.inl rfl))
  have htask : data.varvals data.task = some value := by
    rw [h.varvals, if_pos (Or.inl h.task), h.task, hvalue]
  have hwritten : value.getD [] = written r.lookupcache task := by simp [written, hvalue]
  have hpresent : (∀ dep ∈ names.sort, data.varvals dep ≠ none) ↔
      ∀ dep ∈ names, dep ∈ settings.basehash_ignore_vars → dep = task := by
    constructor
    · intro hall dep hdep hign
      have hsome := hall dep (by simpa using hdep)
      rw [h.varvals] at hsome
      by_contra hne
      simp [hne, hign] at hsome
    · intro hall dep hdep
      have hin : dep ∈ names := by simpa using hdep
      rw [h.varvals]
      by_cases hign : dep ∈ settings.basehash_ignore_vars
      · rw [if_pos (Or.inl (hall dep hin hign))]
        exact hvalues dep (Or.inr hin)
      · rw [if_pos (Or.inr ⟨hin, hign⟩)]
        exact hvalues dep (Or.inr hin)
  have hsame : (∀ dep ∈ names.sort, data.varvals dep ≠ none) →
      named_values data.varvals names.sort = named_values r.lookupcache names.sort := by
    intro hall
    refine named_values_congr fun dep hdep => ?_
    have hsome := hall dep hdep
    rw [h.varvals] at hsome ⊢
    split at hsome
    · rename_i hcond
      rw [if_pos hcond]
    · exact absurd rfl hsome
  rw [← hpresent]
  unfold calc_basehash
  rw [lookup, htask, h.taskdeps, ← hwritten]
  constructor
  · intro hcalc
    obtain ⟨_, hfirst, hcalc⟩ := bind_ok hcalc
    obtain rfl := Except.ok.inj hfirst
    obtain ⟨basedata, hloop, hx⟩ := bind_ok hcalc
    obtain ⟨hall, rfl⟩ := (base_loop_iff _).mp hloop
    rw [← Except.ok.inj hx, hsame hall]
    exact ⟨hall, rfl⟩
  · rintro ⟨hall, rfl⟩
    have hloop := (base_loop_iff (value.getD [])).mpr ⟨hall, rfl⟩
    rw [hsame hall] at hloop
    simp only [bind, Except.bind]
    rw [hloop]

theorem calc_taskhash_data_eq
    (h : Describes r settings task names base rundeps values u taint data) :
    calc_taskhash_data data = .ok (base ++ ((sorted pair_le rundeps).flatMap fun dep =>
      (recorded u rundeps (fun _ => none) dep.1).getD []) ++ checksum_text values ++
        written_taint_text taint) := by
  obtain ⟨runtime, hruntime, hdeps, hvalues, hhashes⟩ := h.runtime
  have hloop : rundeps_loop runtime.runtaskhashes runtime.runtaskdeps data.basehash =
      .ok (base ++ runtime.runtaskdeps.flatMap fun name =>
        (recorded u rundeps (fun _ => none) name).getD []) := by
    rw [h.basehash]
    refine rundeps_loop_ok (fun name hname => ?_) base
    rw [hdeps] at hname
    obtain ⟨dep, hdep, rfl⟩ := List.mem_map.mp hname
    obtain ⟨found, _, _, hfound⟩ := recorded_name (fun _ => none) ⟨dep, mem_sorted.mp hdep, rfl⟩
    rw [hhashes, hfound]
    rfl
  rw [calc_taskhash_data, hruntime]
  simp only [hloop, bind, Except.bind]
  rw [hdeps, hvalues, written_checksum_text_eq, h.taint, List.flatMap_map]

theorem taskhash_data_eq {s1 : Siggen} (hbase : s.basehash tid = some base)
    (hdeps : s.runtaskdeps tid = some rundeps) (hvalues : s.file_checksum_values tid = some values)
    (hask : ask_each server s ((sorted pair_le rundeps).map Prod.snd) =
      .ok (s1, (sorted pair_le rundeps).map fun dep => u dep.2)) :
    taskhash_data server s tid = .ok (base ++ ((sorted pair_le rundeps).flatMap fun dep => u dep.2) ++
      checksum_text values ++ taint_text (s.taints tid)) := by
  have hloop := dep_loop_of_ask hask base
  simp [taskhash_data, lookup, hbase, hdeps, hvalues, hloop, bind, Except.bind, List.flatMap_def]

/-! ## When the dump says enough -/

/-- No name is left out, dependencies of one name have one unihash, and the taint was kept. -/
structure Recomputable (settings : Settings) (task : Text) (names : Finset Text)
    (rundeps : List (Text × Text)) (u : Text → Text) (taint file : Option Text) : Prop where
  ignored : ∀ dep ∈ names, dep ∈ settings.basehash_ignore_vars → dep = task
  unihashes : ∀ a ∈ rundeps, ∀ b ∈ rundeps, a.1 = b.1 → u a.2 = u b.2
  taint : TaintKept taint file

theorem recorded_iff :
    (∀ dep ∈ rundeps, u dep.2 = (recorded u rundeps (fun _ => none) dep.1).getD []) ↔
      ∀ a ∈ rundeps, ∀ b ∈ rundeps, a.1 = b.1 → u a.2 = u b.2 := by
  constructor
  · intro hall a ha b hb hname
    rw [hall a ha, hall b hb, hname]
  · intro hall dep hdep
    obtain ⟨found, hfound, hname, hvalue⟩ := recorded_name (u := u) (fun _ => none) ⟨dep, hdep, rfl⟩
    rw [hvalue, Option.getD_some]
    exact hall dep hdep found hfound hname.symm

theorem unihashes_of_text {live dumped checksums : Text} {length : Nat}
    (hlength : ∀ dep ∈ rundeps, (u dep.2).length = length)
    (h : base ++ ((sorted pair_le rundeps).flatMap fun dep =>
        (recorded u rundeps (fun _ => none) dep.1).getD []) ++ checksums ++ dumped =
      base ++ ((sorted pair_le rundeps).flatMap fun dep => u dep.2) ++ checksums ++ live) :
    (∀ a ∈ rundeps, ∀ b ∈ rundeps, a.1 = b.1 → u a.2 = u b.2) ∧ dumped = live := by
  have hrecorded : ∀ dep ∈ sorted pair_le rundeps,
      ((recorded u rundeps (fun _ => none) dep.1).getD []).length = (u dep.2).length := by
    intro dep hdep
    have hdep := mem_sorted.mp hdep
    obtain ⟨found, hfound, _, hvalue⟩ := recorded_name (u := u) (fun _ => none) ⟨dep, hdep, rfl⟩
    rw [hvalue, Option.getD_some, hlength found hfound, hlength dep hdep]
  have htotal : ((sorted pair_le rundeps).flatMap fun dep =>
      (recorded u rundeps (fun _ => none) dep.1).getD []).length =
      ((sorted pair_le rundeps).flatMap fun dep => u dep.2).length := by
    simp only [List.length_flatMap]
    exact congrArg List.sum (List.map_congr_left hrecorded)
  simp only [List.append_assoc] at h
  obtain ⟨hdeps, hrest⟩ := List.append_inj (List.append_cancel_left h) htotal
  refine ⟨recorded_iff.mp fun dep hdep => ?_, List.append_cancel_left hrest⟩
  exact (flatMap_inj hrecorded hdeps dep (mem_sorted.mpr hdep)).symm

theorem sigfile_of_framed {stampbase sigfile : Text} {runtime : Runtime}
    (h : sigfile_of server s tid task stampbase runtime = .ok (s', sigfile)) :
    stamp_hash.Framed s s' := by
  unfold sigfile_of at h
  split at h
  · obtain ⟨rfl, _⟩ := Prod.mk.inj (Except.ok.inj h)
    rfl
  · split at h
    · obtain ⟨⟨s1, u⟩, hget, h⟩ := bind_ok h
      obtain ⟨rfl, _⟩ := Prod.mk.inj (Except.ok.inj h)
      exact stamp_hash.get_unihash_framed hget
    · obtain ⟨base, _, h⟩ := bind_ok h
      obtain ⟨rfl, _⟩ := Prod.mk.inj (Except.ok.inj h)
      rfl
  · obtain ⟨base, _, h⟩ := bind_ok h
    obtain ⟨rfl, _⟩ := Prod.mk.inj (Except.ok.inj h)
    rfl

theorem dump_sigtask_data {mcfn stampbase sigfile : Text} {runtime : Runtime}
    {read_taint : Text → Option Text} {s1 s2 s4 : Siggen} {d : Dump}
    (hsig : sigfile_of server s (mcfn ++ ':' :: task) task stampbase runtime = .ok (s1, sigfile))
    (hdata : sig_data server settings taskdeps r read_taint s1 (mcfn ++ ':' :: task) task stampbase
      runtime = .ok (s2, data))
    (h : dump_sigtask hash server settings taskdeps r read_taint s mcfn task stampbase runtime =
      .ok (s4, d)) : d.data = data ∧ ∃ x, calc_basehash hash data = .ok x := by
  obtain ⟨⟨s1', sigfile'⟩, hsig', h⟩ := bind_ok h
  obtain ⟨rfl, rfl⟩ := Prod.mk.inj (Except.ok.inj (hsig.symm.trans hsig'))
  obtain ⟨⟨s2', data'⟩, hdata', h⟩ := bind_ok h
  obtain ⟨rfl, rfl⟩ := Prod.mk.inj (Except.ok.inj (hdata.symm.trans hdata'))
  obtain ⟨x, hx, h⟩ := bind_ok h
  obtain ⟨stored, _, h⟩ := bind_ok h
  refine ⟨?_, x, hx⟩
  dsimp only at h
  split at h
  · obtain ⟨computed, _, h⟩ := bind_ok h
    split at h <;>
      · obtain ⟨_, rfl⟩ := Prod.mk.inj (Except.ok.inj h)
        rfl
  · obtain ⟨_, rfl⟩ := Prod.mk.inj (Except.ok.inj h)
    rfl

theorem dump_sigtask_made {mcfn stampbase sigfile : Text} {runtime : Runtime}
    {read_taint : Text → Option Text} {s1 s2 : Siggen} {x y : Text}
    (hsig : sigfile_of server s (mcfn ++ ':' :: task) task stampbase runtime = .ok (s1, sigfile))
    (hdata : sig_data server settings taskdeps r read_taint s1 (mcfn ++ ':' :: task) task stampbase
      runtime = .ok (s2, data))
    (hruntime : runtime ≠ .no)
    (hbase : s2.basehash (mcfn ++ ':' :: task) = some base)
    (htaskhash : s2.taskhash (mcfn ++ ':' :: task) = some taskhash)
    (hx : calc_basehash hash data = .ok x) (hy : calc_taskhash hash data = .ok y) :
    ∃ d, dump_sigtask hash server settings taskdeps r read_taint s mcfn task stampbase runtime =
        .ok (s2, d) ∧ d.data = data ∧ (x = base → y = taskhash → d.errors = []) := by
  simp only [dump_sigtask, hsig, hdata, hx, hy, lookup, hbase, hruntime, htaskhash, bind, Except.bind,
    ne_eq, not_false_eq_true, if_true]
  by_cases hne : y = taskhash
  · refine ⟨_, by rw [if_neg (not_not.mpr hne)], rfl, fun hxb _ => by simp [hxb]⟩
  · exact ⟨_, by rw [if_pos hne], rfl, fun _ hyt => absurd hyt hne⟩

theorem dump_sigtask_describes (hash : Sha256) (settings : Settings)
    (read_taint : Text → Option Text) {mcfn stampbase : Text} {runtime : Runtime}
    (hruntime : runtime ≠ .no)
    (h : Known r taskdeps s (mcfn ++ ':' :: task) task names base taskhash rundeps values)
    (hdump : dump_asks server s (mcfn ++ ':' :: task) task stampbase runtime
      (rundeps.map Prod.snd) = .ok (rundeps.map fun dep => u dep.2)) :
    ∃ data, Describes r settings task names base rundeps values u
        (written_taint runtime (s.taints (mcfn ++ ':' :: task))
          (read_taint (taint_stamp stampbase runtime))) data ∧
      (∀ x, calc_basehash hash data = .ok x → ∃ s4 d,
        dump_sigtask hash server settings taskdeps r read_taint s mcfn task stampbase runtime =
          .ok (s4, d) ∧ d.data = data ∧
        (x = base → calc_taskhash hash data = .ok taskhash → d.errors = [])) ∧
      ∀ s4 d, dump_sigtask hash server settings taskdeps r read_taint s mcfn task stampbase runtime =
        .ok (s4, d) → d.data = data ∧ ∃ x, calc_basehash hash data = .ok x := by
  obtain ⟨⟨sd, sigfile⟩, hsig, hdump⟩ := bind_ok hdump
  obtain ⟨⟨sa, us⟩, hask, hdump⟩ := bind_ok hdump
  obtain rfl := Except.ok.inj hdump
  have hkept : Kept (mcfn ++ ':' :: task) s sd := kept_of_framed (sigfile_of_framed hsig)
  have hknown := h.of_kept hkept
  obtain ⟨s4, data, hdata, hkept4, hdescribes⟩ :=
    sig_data_ok hruntime settings read_taint stampbase hknown hask
  have hknown4 := hknown.of_kept hkept4
  rw [hkept.taints] at hdescribes
  refine ⟨data, hdescribes, fun x hx => ?_, fun s5 d hd => dump_sigtask_data hsig hdata hd⟩
  obtain ⟨y, hy⟩ : ∃ y, calc_taskhash hash data = .ok y := by
    simp [calc_taskhash, calc_taskhash_data_eq hdescribes, bind, Except.bind]
  obtain ⟨d, hd, hsame, hclean⟩ := dump_sigtask_made hsig hdata hruntime hknown4.basehash
    hknown4.taskhash hx hy
  exact ⟨s4, d, hd, hsame, fun hxb hyt => hclean hxb (Except.ok.inj (hy.symm.trans hyt))⟩

theorem known_of_hashed {caches : DataCaches} {check : Text → Text → Text → Text → Text → Bool}
    {tasklist : List Text} {mcfn uuid : Text} {file : Option Text} {basehash : Dict Text}
    {s0 s1 s2 s3 : Siggen} {deps ds : List Text}
    (hgenerate : generate_dependency_hash hash tasklist r mcfn = .ok (taskdeps, basehash))
    (hnames : taskdeps task = some names)
    (hcaches : caches.basetaskhash (mcfn ++ ':' :: task) = basehash (mcfn ++ ':' :: task))
    (hprep : prep_taskhash caches check s0 (mcfn ++ ':' :: task) deps values uuid file =
      .ok (s1, ds))
    (hget : get_taskhash hash server s1 (mcfn ++ ':' :: task) = .ok (s2, taskhash))
    (hrun : Reaches (siggen.step hash caches check) (OtherTask (mcfn ++ ':' :: task)) s2 s3)
    (hrundeps : s1.runtaskdeps (mcfn ++ ':' :: task) = some rundeps) :
    ∃ body hashed, basehash (mcfn ++ ':' :: task) = some (hash.hexdigest body) ∧
      body = written r.lookupcache task ++ named_values r.lookupcache names.sort ∧
      s1.basehash (mcfn ++ ':' :: task) = some (hash.hexdigest body) ∧
      taskhash_data server s1 (mcfn ++ ':' :: task) = .ok hashed ∧
      taskhash = hash.hexdigest hashed ∧
      s3.taints (mcfn ++ ':' :: task) = s1.taints (mcfn ++ ':' :: task) ∧
      Known r taskdeps s3 (mcfn ++ ':' :: task) task names (hash.hexdigest body) taskhash rundeps
        values := by
  obtain ⟨body, htext, hbasehash⟩ := generate_dependency_hash_ok hgenerate hnames
  obtain ⟨hseen, hbody, hvalues⟩ := dependency_text_iff.mp htext
  obtain ⟨⟨base, hcached, hbase1⟩, hnamed, hsums, _⟩ := prep_taskhash_gives hprep
  obtain rfl := Option.some.inj (hcached.symm.trans (hcaches.trans hbasehash))
  obtain ⟨hth2, hbase2, hdeps2, hsums2, htaints2, htop2, hashed, hhashed, rfl⟩ :=
    get_taskhash_gives hget
  have hkept := Kept.run hrun
  exact ⟨body, hashed, hbasehash, hbody, hbase1, hhashed, rfl, by rw [hkept.taints, htaints2],
    { taskdeps := hnames
      gendeps := (all_deps_ok hseen).2
      lookupcache := hvalues
      basehash := hkept.basehash.trans (hbase2 ▸ hbase1)
      taskhash := hkept.taskhash.trans hth2
      runtaskdeps := hkept.runtaskdeps.trans (hdeps2 ▸ hrundeps)
      file_checksum_values := hkept.file_checksum_values.trans (hsums2 ▸ hsums)
      named := hkept.tidtopn ▸ htop2 ▸ hnamed }⟩

/-- The data dumped for a task gives its base hash and its task hash again when the dump says
enough; where the hash keeps the two hashed texts apart and the unihashes have one length, it gives
the task hash only then. -/
theorem the_dump_recomputes_the_hashes (hash : Sha256) (server server' : Text → Option Text)
    (settings : Settings) (caches : DataCaches) (check : Text → Text → Text → Text → Text → Bool)
    (r : RecipeData) (tasklist : List Text) (mcfn task stampbase : Text) (runtime : Runtime)
    (read_taint : Text → Option Text) (u : Text → Text) {taskdeps : Dict (Finset Text)}
    {basehash : Dict Text} {s0 s1 s2 s3 : Siggen} {deps ds : List Text} {uuid taskhash : Text}
    {checksums rundeps : List (Text × Text)} {names : Finset Text}
    (hgenerate : generate_dependency_hash hash tasklist r mcfn = .ok (taskdeps, basehash))
    (hnames : taskdeps task = some names)
    (hcaches : caches.basetaskhash (mcfn ++ ':' :: task) = basehash (mcfn ++ ':' :: task))
    (hprep : prep_taskhash caches check s0 (mcfn ++ ':' :: task) deps checksums uuid
      (read_taint (taint_stamp stampbase runtime)) = .ok (s1, ds))
    (hget : get_taskhash hash server s1 (mcfn ++ ':' :: task) = .ok (s2, taskhash))
    (hrun : Reaches (siggen.step hash caches check) (OtherTask (mcfn ++ ':' :: task)) s2 s3)
    (hruntime : runtime ≠ .no)
    (hrundeps : s1.runtaskdeps (mcfn ++ ':' :: task) = some rundeps)
    (hlive : (ask_each server s1 ((sorted pair_le rundeps).map Prod.snd)).map Prod.snd =
      .ok ((sorted pair_le rundeps).map fun dep => u dep.2))
    (hdump : dump_asks server' s3 (mcfn ++ ':' :: task) task stampbase runtime
      (rundeps.map Prod.snd) = .ok (rundeps.map fun dep => u dep.2)) :
    (Recomputable settings task names rundeps u (s1.taints (mcfn ++ ':' :: task))
        (read_taint (taint_stamp stampbase runtime)) →
      ∃ s4 d, dump_sigtask hash server' settings taskdeps r read_taint s3 mcfn task stampbase
          runtime = .ok (s4, d) ∧
        (∃ base, basehash (mcfn ++ ':' :: task) = some base ∧
          calc_basehash hash d.data = .ok base) ∧
        calc_taskhash hash d.data = .ok taskhash ∧ d.errors = []) ∧
    ∀ s4 d hashed computed, dump_sigtask hash server' settings taskdeps r read_taint s3 mcfn task
        stampbase runtime = .ok (s4, d) →
      calc_taskhash hash d.data = .ok taskhash →
      taskhash_data server s1 (mcfn ++ ':' :: task) = .ok hashed →
      calc_taskhash_data d.data = .ok computed →
      (hash.hexdigest computed = hash.hexdigest hashed → computed = hashed) →
      (∃ length, ∀ dep ∈ rundeps, (u dep.2).length = length) →
      Recomputable settings task names rundeps u (s1.taints (mcfn ++ ':' :: task))
        (read_taint (taint_stamp stampbase runtime)) := by
  obtain ⟨body, hashed, hbasehash, hbody, hbase1, hhashed, rfl, htaints, hknown⟩ :=
    known_of_hashed hgenerate hnames hcaches hprep hget hrun hrundeps
  obtain ⟨_, _, hsums, hfile⟩ := prep_taskhash_gives hprep
  obtain ⟨⟨sl, us⟩, hask, hus⟩ := map_ok hlive
  obtain rfl : us = _ := hus
  have hlivetext := taskhash_data_eq hbase1 hrundeps hsums hask
  obtain ⟨data, hdescribes, hmade, hdumped⟩ :=
    dump_sigtask_describes hash settings read_taint hruntime hknown hdump
  rw [htaints] at hdescribes
  have hbaseiff := fun x => calc_basehash_iff hash x hdescribes hknown.lookupcache
  have htaskdata := calc_taskhash_data_eq hdescribes
  have htaintiff := written_taint_text_iff hruntime hfile
  constructor
  · rintro ⟨hignored, hunihashes, htaint⟩
    have hcalcbase := (hbaseiff (hash.hexdigest body)).mpr ⟨hignored, by rw [hbody]⟩
    have hsame : ((sorted pair_le rundeps).flatMap fun dep => u dep.2) =
        (sorted pair_le rundeps).flatMap fun dep =>
          (recorded u rundeps (fun _ => none) dep.1).getD [] :=
      List.flatMap_congr fun dep hdep => recorded_iff.mpr hunihashes dep (mem_sorted.mp hdep)
    have hcalctask : calc_taskhash hash data = .ok (hash.hexdigest hashed) := by
      rw [hsame, ← htaintiff.mpr htaint, hhashed] at hlivetext
      rw [calc_taskhash, htaskdata, Except.ok.inj hlivetext]
      rfl
    obtain ⟨s4, d, hd, rfl, hclean⟩ := hmade _ hcalcbase
    exact ⟨s4, d, hd, ⟨_, hbasehash, hcalcbase⟩, hcalctask, hclean rfl hcalctask⟩
  · rintro s4 d x y hd hcalc hx hy hcollision ⟨length, hlength⟩
    obtain ⟨rfl, stored, hstored⟩ := hdumped s4 d hd
    obtain rfl := Except.ok.inj (hhashed.symm.trans hx)
    obtain ⟨z, hz, hdigest⟩ := bind_ok hcalc
    obtain rfl := Except.ok.inj (hy.symm.trans hz)
    have htexts := hcollision (Except.ok.inj hdigest)
    obtain rfl := Except.ok.inj (hhashed.symm.trans hlivetext)
    obtain rfl := Except.ok.inj (hy.symm.trans htaskdata)
    obtain ⟨hunihashes, htaint⟩ := unihashes_of_text hlength htexts
    exact ⟨((hbaseiff stored).mp hstored).1, hunihashes, htaintiff.mp htaint⟩

def lastHash : Sha256 where
  hexdigest data := (data.reverse ++ List.replicate 64 '0').take 64
  length_hexdigest data := by simp

def twoFiles : DataCaches where
  basetaskhash tid :=
    if tid = text "/c.bb:do_c" then some (lastHash.hexdigest (text "make")) else some tid
  pkg_fn fn := if fn = text "/c.bb" then some (text "c") else some (text "p")
  nostamp _ := false

/-- A server with the unihash `ua` for the task of `/a.bb`, and `ub` for all others. -/
def unihashOf (tid : Text) : Text := if tid = text "/a.bb:do_p" then text "ua" else text "ub"

def makeRecipe : RecipeData where
  gendeps := [(text "do_c", ∅)]
  lookupcache name := if name = text "do_c" then some (some (text "make")) else none

def noSettings : Settings := ⟨∅, none⟩

theorem makeRecipe_hash : ∃ taskdeps basehash,
    generate_dependency_hash lastHash [text "do_c"] makeRecipe (text "/c.bb") =
      .ok (taskdeps, basehash) ∧ taskdeps (text "do_c") = some ∅ ∧
      twoFiles.basetaskhash (text "/c.bb:do_c") = basehash (text "/c.bb:do_c") := by
  have htext : dependency_text makeRecipe (text "do_c") = .ok (∅, text "make") := by
    refine dependency_text_iff.mpr ⟨rfl, by simp [written, named_values, makeRecipe], ?_⟩
    rintro name (rfl | hname)
    · decide
    · simp at hname
  refine ⟨_, _, by simp [generate_dependency_hash, task_loop, htext, bind, Except.bind]; exact ⟨rfl, rfl⟩, ?_, ?_⟩
  · simp
  · decide

/-- What is seen of a task that is hashed and dumped: its dependencies, its taint, its task hash,
and the unihashes that the hash and the dump ask for. -/
structure Observed where
  rundeps : List (Text × Text)
  taint : Option Text
  taskhash : Text
  live : List Text
  dumped : List Text
  deriving DecidableEq

/-- The tasks of `/a.bb` and `/b.bb` are hashed, then `/c.bb:do_c` that depends on some of them. -/
def observed (deps : List Text) : Option Observed := do
  let s0 ← runAll (siggen.step lastHash twoFiles fun _ _ _ _ _ => true)
    (Siggen.init (fun _ => none) [])
    (stamp_hash.hashed (text "/a.bb:do_p") ++ stamp_hash.hashed (text "/b.bb:do_p"))
  let prepared ← (prep_taskhash twoFiles (fun _ _ _ _ _ => true) s0 (text "/c.bb:do_c") deps [] []
    none).toOption
  let got ← (get_taskhash lastHash (some ∘ unihashOf) prepared.1 (text "/c.bb:do_c")).toOption
  let rundeps ← prepared.1.runtaskdeps (text "/c.bb:do_c")
  let live ← ((ask_each (some ∘ unihashOf) prepared.1
    ((sorted pair_le rundeps).map Prod.snd)).map Prod.snd).toOption
  let dumped ← (dump_asks (some ∘ unihashOf) got.1 (text "/c.bb:do_c") (text "do_c")
    (text "/tmp/c") .yes (rundeps.map Prod.snd)).toOption
  some ⟨rundeps, prepared.1.taints (text "/c.bb:do_c"), got.2, live, dumped⟩

theorem observed_run {deps : List Text} {o : Observed} (h : observed deps = some o) :
    ∃ s0 s1 s2 ds, prep_taskhash twoFiles (fun _ _ _ _ _ => true) s0 (text "/c.bb:do_c") deps [] []
        none = .ok (s1, ds) ∧
      get_taskhash lastHash (some ∘ unihashOf) s1 (text "/c.bb:do_c") = .ok (s2, o.taskhash) ∧
      s1.runtaskdeps (text "/c.bb:do_c") = some o.rundeps ∧
      s1.taints (text "/c.bb:do_c") = o.taint ∧
      (ask_each (some ∘ unihashOf) s1 ((sorted pair_le o.rundeps).map Prod.snd)).map Prod.snd =
        .ok o.live ∧
      dump_asks (some ∘ unihashOf) s2 (text "/c.bb:do_c") (text "do_c") (text "/tmp/c") .yes
        (o.rundeps.map Prod.snd) = .ok o.dumped := by
  simp only [observed, Option.bind_eq_bind] at h
  obtain ⟨s0, _, h⟩ := Option.bind_eq_some_iff.mp h
  obtain ⟨⟨s1, ds⟩, hprep, h⟩ := Option.bind_eq_some_iff.mp h
  obtain ⟨⟨s2, taskhash⟩, hget, h⟩ := Option.bind_eq_some_iff.mp h
  obtain ⟨rundeps, hrundeps, h⟩ := Option.bind_eq_some_iff.mp h
  obtain ⟨live, hlive, h⟩ := Option.bind_eq_some_iff.mp h
  obtain ⟨dumped, hdumped, h⟩ := Option.bind_eq_some_iff.mp h
  obtain rfl := Option.some.inj h
  exact ⟨s0, s1, s2, ds, ok_of_toOption hprep, ok_of_toOption hget, hrundeps, rfl,
    ok_of_toOption hlive, ok_of_toOption hdumped⟩

theorem observed_one : observed [text "/a.bb:do_p"] = some
    { rundeps := [(text "p:do_p", text "/a.bb:do_p")]
      taint := none
      taskhash := lastHash.hexdigest (lastHash.hexdigest (text "make") ++ text "ua")
      live := [text "ua"]
      dumped := [text "ua"] } := by
  decide +kernel

theorem observed_both : observed [text "/b.bb:do_p", text "/a.bb:do_p"] = some
    { rundeps := [(text "p:do_p", text "/b.bb:do_p"), (text "p:do_p", text "/a.bb:do_p")]
      taint := none
      taskhash := lastHash.hexdigest (lastHash.hexdigest (text "make") ++ text "uaub")
      live := [text "ua", text "ub"]
      dumped := [text "ub", text "ua"] } := by
  decide +kernel

theorem one_dependency_is_recomputed : ∃ taskdeps s s4 d,
    dump_sigtask lastHash (some ∘ unihashOf) noSettings taskdeps makeRecipe (fun _ => none)
      s (text "/c.bb") (text "do_c") (text "/tmp/c") .yes = .ok (s4, d) ∧
    calc_taskhash lastHash d.data =
      .ok (lastHash.hexdigest (lastHash.hexdigest (text "make") ++ text "ua")) ∧ d.errors = [] := by
  obtain ⟨taskdeps, basehash, hgenerate, hnames, hcaches⟩ := makeRecipe_hash
  obtain ⟨s0, s1, s2, ds, hprep, hget, hrundeps, htaint, hlive, hdump⟩ := observed_run observed_one
  have htaints : TaintKept (s1.taints (text "/c.bb:do_c")) none := by
    rw [htaint]
    rintro t ⟨⟩
  have hresult := (the_dump_recomputes_the_hashes lastHash (some ∘ unihashOf) (some ∘ unihashOf)
    noSettings twoFiles (fun _ _ _ _ _ => true) makeRecipe [text "do_c"] (text "/c.bb")
    (text "do_c") (text "/tmp/c") .yes (fun _ => none) unihashOf hgenerate hnames hcaches hprep hget
    .start (by decide) hrundeps hlive hdump).1 ⟨by simp, by simp, htaints⟩
  obtain ⟨s4, d, hd, _, hcalc, herrors⟩ := hresult
  exact ⟨taskdeps, s2, s4, d, hd, hcalc, herrors⟩

/-- Two dependencies of one recipe name and task name: the dump has the unihash of one of them. -/
theorem one_name_loses_a_unihash : ∃ taskdeps basehash s0 s1 s2 ds rundeps taskhash,
    generate_dependency_hash lastHash [text "do_c"] makeRecipe (text "/c.bb") =
      .ok (taskdeps, basehash) ∧
    twoFiles.basetaskhash (text "/c.bb:do_c") = basehash (text "/c.bb:do_c") ∧
    prep_taskhash twoFiles (fun _ _ _ _ _ => true) s0 (text "/c.bb:do_c")
      [text "/b.bb:do_p", text "/a.bb:do_p"] [] [] none = .ok (s1, ds) ∧
    get_taskhash lastHash (some ∘ unihashOf) s1 (text "/c.bb:do_c") = .ok (s2, taskhash) ∧
    s1.runtaskdeps (text "/c.bb:do_c") = some rundeps ∧
    (ask_each (some ∘ unihashOf) s1 ((sorted pair_le rundeps).map Prod.snd)).map Prod.snd =
      .ok ((sorted pair_le rundeps).map fun dep => unihashOf dep.2) ∧
    dump_asks (some ∘ unihashOf) s2 (text "/c.bb:do_c") (text "do_c") (text "/tmp/c") .yes
      (rundeps.map Prod.snd) = .ok (rundeps.map fun dep => unihashOf dep.2) ∧
    ∃ s4 d, dump_sigtask lastHash (some ∘ unihashOf) noSettings taskdeps makeRecipe (fun _ => none)
        s2 (text "/c.bb") (text "do_c") (text "/tmp/c") .yes = .ok (s4, d) ∧
      calc_taskhash lastHash d.data ≠ .ok taskhash := by
  obtain ⟨taskdeps, basehash, hgenerate, hnames, hcaches⟩ := makeRecipe_hash
  obtain ⟨s0, s1, s2, ds, hprep, hget, hrundeps, htaint, hlive, hdump⟩ := observed_run observed_both
  have hlive' := hlive.trans (congrArg Except.ok (by decide : _ =
    (sorted pair_le [(text "p:do_p", text "/b.bb:do_p"), (text "p:do_p", text "/a.bb:do_p")]).map
      fun dep => unihashOf dep.2))
  refine ⟨taskdeps, basehash, s0, s1, s2, ds, _, _, hgenerate, hcaches, hprep, hget, hrundeps, hlive',
    hdump, ?_⟩
  obtain ⟨body, hashed, hbase, _, _, _, _, htaints, hknown⟩ :=
    known_of_hashed hgenerate hnames hcaches hprep hget .start hrundeps
  obtain ⟨data, hdescribes, hmade, _⟩ := dump_sigtask_describes (u := unihashOf)
    lastHash noSettings (fun _ => none) (by decide) hknown hdump
  obtain ⟨s4, d, hd, rfl, _⟩ := hmade _ ((calc_basehash_iff lastHash _ hdescribes
    hknown.lookupcache).mpr ⟨by simp, rfl⟩)
  refine ⟨s4, d, hd, ?_⟩
  rw [htaints.trans htaint] at hdescribes
  rw [calc_taskhash, calc_taskhash_data_eq hdescribes]
  have hmake : lastHash.hexdigest body = lastHash.hexdigest (text "make") := by
    have h := hbase.symm.trans hcaches.symm
    exact Option.some.inj (h.trans (by decide))
  rw [hmake]
  decide +kernel

end yocto.sig_dump
