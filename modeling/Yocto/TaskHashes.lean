-- The hash of a task as `prep_taskhash` and `get_taskhash` of siggen.py make it from its
-- dependencies and the checksums of its files.
import Yocto.FileChecksums
import Yocto.SigDump

open yocto.task_ids yocto.list_search yocto.siggen yocto.posix_path
open yocto.stable_sort yocto.file_checksums yocto.checksum_lists yocto.sig_dump

namespace yocto.task_hashes

/-- `prep_taskhash` and then `get_taskhash`, or none where one of them raises. -/
def task_hash (hash : Sha256) (caches : DataCaches)
    (rundep_check : Text → Text → Text → Text → Text → Bool) (server : Text → Option Text)
    (fs : FileSystem) (localdirsexclude : List Text) (s : Siggen) (tid : Text) (deps : List Text)
    (filelist uuid : Text) (taint : Option Text) : Option Text := do
  let checksums ← get_checksums fs localdirsexclude filelist
  let (s', _) ← (prep_taskhash caches rundep_check s tid deps checksums uuid taint).toOption
  let (_, h) ← (get_taskhash hash server s' tid).toOption
  some h

/-! ## The dependencies -/

variable {caches : DataCaches} {rundep_check : Text → Text → Text → Text → Text → Bool}
variable {server : Text → Option Text} {s : Siggen} {tid : Text}

def rundep (caches : DataCaches) (rundep_check : Text → Text → Text → Text → Text → Bool)
    (s : Siggen) (n : Names) (recipename : Text) (dep : Text) : Option (List (Text × Text)) :=
  match namesOf dep with
  | .error _ => none
  | .ok d =>
    match lookup caches.pkg_fn d.mcfn with
    | .error _ => none
    | .ok dep_pn =>
      if !rundep_check n.mcfn recipename n.taskname dep dep_pn then some []
      else if s.taskhash dep = none then none
      else some [(build_pnid d.mc dep_pn d.taskname, dep)]

theorem rundep_loop_eq (n : Names) (recipename : Text) (deps : List Text) :
    (rundep_loop caches rundep_check s n recipename deps).toOption =
      extend (rundep caches rundep_check s n recipename) deps := by
  induction deps with
  | nil => rfl
  | cons dep deps ih =>
    unfold rundep_loop extend
    rw [← ih]
    unfold rundep
    cases namesOf dep with
    | error e => rfl
    | ok d =>
      simp only [bind, Except.bind]
      cases lookup caches.pkg_fn d.mcfn with
      | error e => rfl
      | ok dep_pn =>
        dsimp only
        split
        · cases rundep_loop caches rundep_check s n recipename deps <;> rfl
        · split
          · rfl
          · cases rundep_loop caches rundep_check s n recipename deps <;> rfl

theorem pair_le_iff (a b : Text × Text) : pair_le a b = true ↔ a.1 < b.1 ∨ a.1 = b.1 ∧ a.2 ≤ b.2 := by
  unfold pair_le
  simp

theorem sorted_pairs_pairwise (deps : List (Text × Text)) :
    (sorted pair_le deps).Pairwise fun a b => pair_le a b = true := by
  have htotal : Std.Total fun a b => pair_le a b = true := by
    constructor
    intro a b
    simp only [pair_le_iff]
    rcases lt_trichotomy a.1 b.1 with hlt | heq | hlt
    · exact Or.inl (Or.inl hlt)
    · rcases le_total a.2 b.2 with hle | hle
      · exact Or.inl (Or.inr ⟨heq, hle⟩)
      · exact Or.inr (Or.inr ⟨heq.symm, hle⟩)
    · exact Or.inr (Or.inl hlt)
  have htrans : IsTrans (Text × Text) fun a b => pair_le a b = true := by
    constructor
    intro a b c hab hbc
    rw [pair_le_iff] at hab hbc ⊢
    rcases hab with hlt | ⟨heq, hle⟩
    · rcases hbc with hlt' | ⟨heq', -⟩
      · exact Or.inl (lt_trans hlt hlt')
      · exact Or.inl (heq' ▸ hlt)
    · rcases hbc with hlt' | ⟨heq', hle'⟩
      · exact Or.inl (heq ▸ hlt')
      · exact Or.inr ⟨heq.trans heq', le_trans hle hle'⟩
  unfold sorted
  exact List.pairwise_insertionSort _ deps

theorem sorted_pairs_perm {deps deps' : List (Text × Text)} (h : deps.Perm deps') :
    sorted pair_le deps = sorted pair_le deps' := by
  refine List.Perm.eq_of_pairwise ?_ (sorted_pairs_pairwise deps) (sorted_pairs_pairwise deps') ?_
  · intro a b _ _ hab hba
    rw [pair_le_iff] at hab hba
    rcases hab with hlt | ⟨heq, hle⟩
    · rcases hba with hlt' | ⟨heq', -⟩
      · exact absurd hlt' (lt_asymm hlt)
      · exact absurd (heq' ▸ hlt) (lt_irrefl _)
    · rcases hba with hlt' | ⟨-, hle'⟩
      · exact absurd (heq ▸ hlt') (lt_irrefl _)
      · exact Prod.ext heq (le_antisymm hle hle')
  · unfold sorted
    exact ((List.perm_insertionSort _ deps).trans h).trans (List.perm_insertionSort _ deps').symm

/-! ## What the unihashes do not depend on -/

/-- The dependencies and the checksums of the tasks, replaced. -/
def with_inputs (s : Siggen) (deps values : Dict (List (Text × Text))) : Siggen :=
  { s with runtaskdeps := deps, file_checksum_values := values }

variable {deps values : Dict (List (Text × Text))}

theorem set_unihash_with_inputs (t unihash : Text) :
    set_unihash (with_inputs s deps values) t unihash =
      (set_unihash s t unihash).map fun s' => with_inputs s' deps values := by
  unfold set_unihash
  cases namesOf t with
  | error e => rfl
  | ok n =>
    have hpn : (with_inputs s deps values).tidtopn = s.tidtopn := rfl
    have hhash : (with_inputs s deps values).taskhash = s.taskhash := rfl
    rw [hpn, hhash]
    simp only [bind, Except.bind]
    cases lookup s.tidtopn t with
    | error e => rfl
    | ok pn =>
      dsimp only
      cases lookup s.taskhash t <;> rfl

theorem get_cached_unihash_with_inputs (t : Text) :
    get_cached_unihash (with_inputs s deps values) t =
      (get_cached_unihash s t).map fun r => (with_inputs r.1 deps values, r.2) := by
  have hget : _get_unihash (with_inputs s deps values) t none = _get_unihash s t none := rfl
  unfold get_cached_unihash
  rw [hget]
  have hhash : (with_inputs s deps values).taskhash = s.taskhash := rfl
  have hscene : (with_inputs s deps values).setscenetasks = s.setscenetasks := rfl
  rw [hhash, hscene]
  simp only [bind, Except.bind]
  cases lookup s.taskhash t with
  | error e => rfl
  | ok h =>
    dsimp only
    split
    · rfl
    · cases _get_unihash s t none with
      | error e => rfl
      | ok u => cases u <;> rfl

theorem cached_loop_with_inputs (tids : List Text) (result : Dict Text) (queries : List Text) :
    cached_loop (with_inputs s deps values) tids result queries =
      (cached_loop s tids result queries).map fun r => (with_inputs r.1 deps values, r.2) := by
  induction tids generalizing s result queries with
  | nil => rfl
  | cons tid tids ih =>
    unfold cached_loop
    rw [get_cached_unihash_with_inputs]
    cases get_cached_unihash s tid with
    | error e => rfl
    | ok r =>
      obtain ⟨s', unihash⟩ := r
      simp only [bind, Except.bind, Except.map]
      split
      · exact ih _ _
      · exact ih _ _

theorem query_loop_with_inputs (tids : List Text) (result : Dict Text) :
    query_loop server (with_inputs s deps values) tids result =
      (query_loop server s tids result).map fun r => (with_inputs r.1 deps values, r.2) := by
  induction tids generalizing s result with
  | nil => rfl
  | cons tid tids ih =>
    have hhash : (with_inputs s deps values).taskhash = s.taskhash := rfl
    unfold query_loop
    rw [hhash]
    cases lookup s.taskhash tid with
    | error e => rfl
    | ok h =>
      simp only [bind, Except.bind]
      rw [set_unihash_with_inputs]
      cases set_unihash s tid ((truthy (server tid)).getD h) with
      | error e => rfl
      | ok s' => exact ih _

theorem get_unihash_with_inputs (t : Text) :
    get_unihash server (with_inputs s deps values) t =
      (get_unihash server s t).map fun r => (with_inputs r.1 deps values, r.2) := by
  unfold get_unihash get_unihashes
  rw [cached_loop_with_inputs]
  cases cached_loop s [t] (fun _ => none) [] with
  | error e => rfl
  | ok r =>
    obtain ⟨s', result, queries⟩ := r
    simp only [bind, Except.bind, Except.map]
    rw [query_loop_with_inputs]
    cases query_loop server s' queries result with
    | error e => rfl
    | ok r =>
      simp only [Except.map]
      cases lookup r.2 t <;> rfl

theorem dep_loop_with_inputs (pairs : List (Text × Text)) (data : Text) :
    dep_loop server (with_inputs s deps values) pairs data =
      (dep_loop server s pairs data).map fun r => (with_inputs r.1 deps values, r.2) := by
  induction pairs generalizing s data with
  | nil => rfl
  | cons pair pairs ih =>
    unfold dep_loop
    rw [get_unihash_with_inputs]
    cases get_unihash server s pair.2 with
    | error e => rfl
    | ok r => exact ih _

/-! ## The hash -/

/-- The hash of a task, from its own dependencies and the text of its checksums. -/
def hash_of (hash : Sha256) (server : Text → Option Text) (s : Siggen) (tid : Text)
    (pairs : List (Text × Text)) (checksums : Text) : Option Text :=
  match s.basehash tid with
  | none => none
  | some basehash =>
    match dep_loop server s (sorted pair_le pairs) basehash with
    | .error _ => none
    | .ok (s', data) => some (hash.hexdigest (data ++ checksums ++ taint_text (s'.taints tid)))

theorem get_taskhash_with_inputs {hash : Sha256} {pairs found : List (Text × Text)}
    (hdeps : deps tid = some pairs) (hvalues : values tid = some found) :
    (get_taskhash hash server (with_inputs s deps values) tid).toOption.map Prod.snd =
      hash_of hash server s tid pairs (checksum_text found) := by
  have hpairs : (with_inputs s deps values).runtaskdeps tid = some pairs := hdeps
  have hfound : ∀ s : Siggen, (with_inputs s deps values).file_checksum_values tid = some found :=
    fun _ => hvalues
  unfold get_taskhash hash_of lookup
  have hbase : (with_inputs s deps values).basehash tid = s.basehash tid := rfl
  rw [hpairs, hbase]
  cases s.basehash tid with
  | none => rfl
  | some basehash =>
    simp only [Except.bind, bind]
    rw [dep_loop_with_inputs]
    cases dep_loop server s (sorted pair_le pairs) basehash with
    | error e => rfl
    | ok r =>
      simp only [Except.map, hfound]
      rfl

/-- The generator when the task is prepared, but for its dependencies and checksums. -/
def prepared (caches : DataCaches) (s : Siggen) (tid basehash recipename uuid : Text)
    (taint : Option Text) : Siggen :=
  let taints :=
    if caches.nostamp tid ∧ ∀ old, s.taints tid = some old → ¬ text "nostamp:" <+: old then
      Function.update s.taints tid (some (text "nostamp:" ++ uuid))
    else s.taints
  { s with
    basehash := Function.update s.basehash tid (some basehash)
    tidtopn := Function.update s.tidtopn tid (some recipename)
    taints := match truthy taint with
      | some taint => Function.update taints tid (some taint)
      | none => taints }

variable {hash : Sha256} {fs fs' : FileSystem} {localdirsexclude : List Text}
variable {filelist uuid : Text} {taint : Option Text}

theorem task_hash_ok {n : Names} {basehash recipename : Text} (hn : namesOf tid = .ok n)
    (hbase : lookup caches.basetaskhash tid = .ok basehash)
    (hrecipe : lookup caches.pkg_fn n.mcfn = .ok recipename) (deps : List Text) :
    task_hash hash caches rundep_check server fs localdirsexclude s tid deps filelist uuid taint =
      ((get_checksums fs localdirsexclude filelist).map checksum_text).bind fun checksums =>
        (extend (rundep caches rundep_check s n recipename) deps).bind fun pairs =>
          hash_of hash server (prepared caches s tid basehash recipename uuid taint) tid pairs
            checksums := by
  unfold task_hash
  cases get_checksums fs localdirsexclude filelist with
  | none => rfl
  | some found =>
    simp only [Option.bind_eq_bind, Option.bind_some, Option.map_some]
    unfold prep_taskhash
    rw [hn, hbase, ← rundep_loop_eq]
    simp only [bind, Except.bind, hrecipe]
    cases rundep_loop caches rundep_check s n recipename deps with
    | error e => rfl
    | ok pairs =>
      have hget : (get_taskhash hash server (with_inputs
          (prepared caches s tid basehash recipename uuid taint)
          (Function.update s.runtaskdeps tid (some pairs))
          (Function.update s.file_checksum_values tid (some found))) tid).toOption.map Prod.snd = _ :=
        get_taskhash_with_inputs (Function.update_self ..) (Function.update_self ..)
      rw [Option.map_eq_bind] at hget
      exact hget

theorem task_hash_error (h : ∀ n basehash recipename, namesOf tid = .ok n →
      lookup caches.basetaskhash tid = .ok basehash →
      lookup caches.pkg_fn n.mcfn ≠ .ok recipename) (deps : List Text) :
    task_hash hash caches rundep_check server fs localdirsexclude s tid deps filelist uuid taint =
      none := by
  unfold task_hash
  cases get_checksums fs localdirsexclude filelist with
  | none => rfl
  | some found =>
    unfold prep_taskhash
    cases hn : namesOf tid with
    | error e => rfl
    | ok n =>
      cases hbase : lookup caches.basetaskhash tid with
      | error e => rfl
      | ok basehash =>
        cases hrecipe : lookup caches.pkg_fn n.mcfn with
        | error e => simp [hrecipe, bind, Except.bind, Except.toOption]
        | ok recipename => exact absurd hrecipe (h n basehash recipename hn hbase)

theorem hash_of_perm {pairs pairs' : List (Text × Text)} (h : pairs.Perm pairs')
    (checksums : Text) : hash_of hash server s tid pairs checksums =
      hash_of hash server s tid pairs' checksums := by
  unfold hash_of
  rw [sorted_pairs_perm h]

theorem task_hash_perm {deps deps' : List Text} (hdeps : deps.Perm deps')
    (hfs : fs.Reordered fs') (habs : AbsoluteList filelist) :
    task_hash hash caches rundep_check server fs localdirsexclude s tid deps filelist uuid taint =
      task_hash hash caches rundep_check server fs' localdirsexclude s tid deps' filelist uuid
        taint := by
  by_cases hok : ∃ n basehash recipename, namesOf tid = .ok n ∧
      lookup caches.basetaskhash tid = .ok basehash ∧ lookup caches.pkg_fn n.mcfn = .ok recipename
  · obtain ⟨n, basehash, recipename, hn, hbase, hrecipe⟩ := hok
    rw [task_hash_ok hn hbase hrecipe, task_hash_ok hn hbase hrecipe, get_checksums_text hfs habs]
    have halike := extend_perm (rundep caches rundep_check s n recipename) hdeps
    congr
    funext checksums
    generalize extend (rundep caches rundep_check s n recipename) deps = a at halike ⊢
    generalize extend (rundep caches rundep_check s n recipename) deps' = b at halike ⊢
    cases halike with
    | none => rfl
    | some hperm => exact hash_of_perm hperm checksums
  · have hnone : ∀ n basehash recipename, namesOf tid = .ok n →
        lookup caches.basetaskhash tid = .ok basehash →
        lookup caches.pkg_fn n.mcfn ≠ .ok recipename := by
      intro n basehash recipename hn hbase hrecipe
      exact hok ⟨n, basehash, recipename, hn, hbase, hrecipe⟩
    rw [task_hash_error hnone, task_hash_error hnone]

end yocto.task_hashes
