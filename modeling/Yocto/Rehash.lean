-- New hashes while a build is running (runqueue.py, `process_possible_migrations`).
import Yocto.Frontier
import Yocto.OrderedDict
import Yocto.TaskGraph
import Yocto.TaskIds

open yocto.task_ids yocto.ordered_dict yocto.task_graph yocto.frontier

namespace yocto.rehash

variable {Tid σ : Type} [DecidableEq Tid]

/-- The signature generator, which the configuration chooses, with its state. -/
structure SigGen (Tid σ : Type) where
  set_unihash : Tid → Text → σ → σ
  save_unitaskhashes : σ → σ
  get_taskhash : Tid → List Tid → σ → Text × σ
  get_unihashes : List Tid → σ → (Tid → Text) × σ
  report_unihash_equiv : Tid → Text → Text → Text → σ → σ

structure RunQueueExecute (Tid σ : Type) where
  runq_running : Finset Tid
  runq_complete : Finset Tid
  scenequeue_covered : Finset Tid
  sq_live : Finset Tid
  sq_deferred : OrderedDict Tid Tid
  updated_taskhash_queue : List (Tid × Text)
  /-- The hash and the unihash of the run task entries. -/
  hash : Tid → Text
  unihash : Tid → Text
  siggen : σ

/-! ## The updates -/

def set_unihash (S : SigGen Tid σ) (unihash : Text) (exec : RunQueueExecute Tid σ) (hashtid : Tid) :
    RunQueueExecute Tid σ :=
  { exec with
    unihash := Function.update exec.unihash hashtid unihash
    siggen := S.set_unihash hashtid unihash exec.siggen }

def take_update (S : SigGen Tid σ) (acc : RunQueueExecute Tid σ × Finset Tid) (item : Tid × Text) :
    RunQueueExecute Tid σ × Finset Tid :=
  let exec := acc.1
  if item.1 ∈ exec.runq_running ∧ item.1 ∉ exec.runq_complete then acc
  else
    let exec := { exec with updated_taskhash_queue := exec.updated_taskhash_queue.erase item }
    if item.2 = exec.unihash item.1 then (exec, acc.2)
    else
      let torehash := item.1 :: (exec.sq_deferred.filter fun x => x.2 = item.1).map Prod.fst
      let exec := torehash.foldl (set_unihash S item.2) exec
      ({ exec with siggen := S.save_unitaskhashes exec.siggen }, acc.2 ∪ torehash.toFinset)

/-- The first loop: the tasks whose unihash has changed are called `toprocess`. -/
def take_updates (S : SigGen Tid σ) (exec : RunQueueExecute Tid σ) : RunQueueExecute Tid σ × Finset Tid :=
  exec.updated_taskhash_queue.foldl (take_update S) (exec, ∅)

/-! ## The tasks to rehash -/

def depends (g : TaskGraph Tid) (tid : Tid) : Finset Tid := (g.depends tid).toFinset

def revdeps (g : TaskGraph Tid) (tid : Tid) : Finset Tid := (g.revdeps tid).toFinset

/-- All tasks which depend upon these. -/
def all_revdeps (turns : Nat) (g : TaskGraph Tid) (toprocess : Finset Tid) : Option (Finset Tid) :=
  spread (revdeps g) turns ∅ (toprocess.biUnion (revdeps g))

/-! ## The loop -/

structure Loop (Tid σ : Type) where
  exec : RunQueueExecute Tid σ
  total : Finset Tid
  next : Finset Tid
  changed : Finset Tid
  /-- The calls of `get_taskhash`, batch by batch. -/
  calls : List (List Tid)

/-- What a task of the batch gets from its new hashes; none where `total` does not have it, which is a
`KeyError`. -/
def finish (S : SigGen Tid σ) (g : TaskGraph Tid) (ready : OrderedDict Tid Text) (unihashes : Tid → Text)
    (s : Loop Tid σ) (tid : Tid) : Option (Loop Tid σ) := do
  let newhash ← ready.get? tid
  let origuni := s.exec.unihash tid
  let newuni := unihashes tid
  let s :=
    if newuni = origuni then s
    else if tid ∈ s.exec.scenequeue_covered ∨ tid ∈ s.exec.sq_live then
      { s with exec := { s.exec with
          siggen := S.report_unihash_equiv tid newhash origuni newuni s.exec.siggen } }
    else
      { s with
        exec := { s.exec with
          hash := Function.update s.exec.hash tid newhash
          unihash := Function.update s.exec.unihash tid newuni }
        changed := insert tid s.changed }
  if tid ∈ s.total then
    some { s with
      total := s.total.erase tid
      next := (s.next ∪ revdeps g tid) ∩ s.total.erase tid }
  else none

/-- The new hashes of the tasks that are ready, one call after the other. -/
def get_taskhashes (S : SigGen Tid σ) (g : TaskGraph Tid) (ready : List Tid) (siggen : σ) :
    OrderedDict Tid Text × σ :=
  ready.foldl (fun acc tid =>
    let taskhash := S.get_taskhash tid (g.depends tid) acc.2
    (acc.1.set tid taskhash.1, taskhash.2)) ([], siggen)

/-- One turn: `p` is what the loop variable of an earlier loop was left at. -/
def batch (S : SigGen Tid σ) (g : TaskGraph Tid) (p : Option Tid) (current : List Tid) (s : Loop Tid σ) :
    Option (Loop Tid σ) :=
  let guarded := p.any fun p => decide (depends g p ≠ ∅)
  let ready := current.filter fun tid => !(guarded && !decide (Disjoint (depends g tid) s.total))
  let hashes := get_taskhashes S g ready s.exec.siggen
  let unihashes := S.get_unihashes ready hashes.2
  ready.foldlM (finish S g hashes.1 unihashes.1)
    { s with exec := { s.exec with siggen := unihashes.2 }, next := ∅, calls := s.calls ++ [ready] }

/-- The `while` loop; none when it has not ended after `turns`. -/
def rehash_loop (S : SigGen Tid σ) (it : Iteration Tid) (g : TaskGraph Tid) (p : Option Tid) :
    Nat → Loop Tid σ → Option (Loop Tid σ)
  | 0, _ => none
  | turns + 1, s =>
    if s.next = ∅ then some s
    else (batch S g p (it.order (turns + 1) s.next) s).bind (rehash_loop S it g p turns)

/-- `process_possible_migrations`, to the end of the loop. -/
def process_possible_migrations (S : SigGen Tid σ) (it : Iteration Tid) (turns : Nat) (g : TaskGraph Tid)
    (exec : RunQueueExecute Tid σ) : Option (Loop Tid σ) := do
  let updates := take_updates S exec
  let total ← all_revdeps turns g updates.2
  let next := total.filter fun p => depends g p = ∅ ∨ Disjoint (depends g p) total
  rehash_loop S it g (it.order 0 total).getLast? turns ⟨updates.1, total, next, ∅, []⟩

/-! ## One batch -/

section
variable {S : SigGen Tid σ} {g : TaskGraph Tid}

theorem get_taskhashes_some {ready : List Tid} {tid : Tid} (htid : tid ∈ ready) (siggen : σ) :
    ∃ newhash, (get_taskhashes S g ready siggen).1.get? tid = some newhash := by
  have hfold : ∀ (l : List Tid) (acc : OrderedDict Tid Text × σ), tid ∈ l ∨ (acc.1.get? tid).isSome →
      ((l.foldl (fun acc tid => (acc.1.set tid (S.get_taskhash tid (g.depends tid) acc.2).1,
        (S.get_taskhash tid (g.depends tid) acc.2).2)) acc).1.get? tid).isSome := by
    intro l
    induction l with
    | nil =>
      intro acc h
      exact h.resolve_left (by simp)
    | cons x l ih =>
      intro acc h
      refine ih _ ?_
      by_cases hx : tid = x
      · subst hx
        right
        rw [OrderedDict.get?_set_self]
        rfl
      · rcases h with h | h
        · exact Or.inl ((List.mem_cons.mp h).resolve_left hx)
        · right
          rw [OrderedDict.get?_set_other _ _ hx]
          exact h
  exact Option.isSome_iff_exists.mp (hfold ready ([], siggen) (Or.inl htid))

theorem finish_spec {ready : OrderedDict Tid Text} {newhash : Text} (unihashes : Tid → Text) {s : Loop Tid σ}
    {tid : Tid} (hready : ready.get? tid = some newhash) (htotal : tid ∈ s.total) :
    ∃ s', finish S g ready unihashes s tid = some s' ∧ s'.total = s.total.erase tid ∧
      s'.next = (s.next ∪ revdeps g tid) ∩ s.total.erase tid ∧ s'.calls = s.calls := by
  unfold finish
  simp only [hready, Option.bind_eq_bind, Option.bind_some]
  by_cases huni : unihashes tid = s.exec.unihash tid
  · simp only [if_pos huni, if_pos htotal]
    exact ⟨_, rfl, rfl, rfl, rfl⟩
  · simp only [if_neg huni]
    by_cases hcovered : tid ∈ s.exec.scenequeue_covered ∨ tid ∈ s.exec.sq_live
    · simp only [if_pos hcovered, if_pos htotal]
      exact ⟨_, rfl, rfl, rfl, rfl⟩
    · simp only [if_neg hcovered, if_pos htotal]
      exact ⟨_, rfl, rfl, rfl, rfl⟩

theorem finish_fold {ready : OrderedDict Tid Text} (unihashes : Tid → Text) (l : List Tid) {s : Loop Tid σ}
    (hready : ∀ tid ∈ l, ∃ newhash, ready.get? tid = some newhash) (hnodup : l.Nodup)
    (htotal : ∀ tid ∈ l, tid ∈ s.total) (hnext : s.next ⊆ s.total) :
    ∃ s', l.foldlM (finish S g ready unihashes) s = some s' ∧ s'.total = s.total \ l.toFinset ∧
      s'.next = (s.next ∪ l.toFinset.biUnion (revdeps g)) ∩ s'.total ∧ s'.calls = s.calls := by
  induction l generalizing s with
  | nil =>
    refine ⟨s, rfl, by simp, ?_, rfl⟩
    rw [List.toFinset_nil, Finset.biUnion_empty, Finset.union_empty]
    exact (Finset.inter_eq_left.mpr hnext).symm
  | cons tid l ih =>
    rw [List.nodup_cons] at hnodup
    obtain ⟨newhash, hnewhash⟩ := hready tid List.mem_cons_self
    obtain ⟨s₁, hs₁, htotal₁, hnext₁, hcalls₁⟩ :=
      finish_spec (S := S) (g := g) unihashes hnewhash (htotal tid List.mem_cons_self)
    have hrest : ∀ other ∈ l, other ∈ s₁.total := by
      intro other hother
      rw [htotal₁, Finset.mem_erase]
      exact ⟨fun heq => hnodup.1 (heq ▸ hother), htotal other (List.mem_cons_of_mem _ hother)⟩
    obtain ⟨s', hs', htotal', hnext', hcalls'⟩ :=
      ih (fun other hother => hready other (List.mem_cons_of_mem _ hother)) hnodup.2 hrest
        (by rw [hnext₁, htotal₁]; exact Finset.inter_subset_right)
    refine ⟨s', ?_, ?_, ?_, hcalls'.trans hcalls₁⟩
    · rw [List.foldlM_cons, hs₁]
      exact hs'
    · rw [htotal', htotal₁, List.toFinset_cons]
      ext x
      simp only [Finset.mem_sdiff, Finset.mem_erase, Finset.mem_insert]
      tauto
    · have hsub : s'.total ⊆ s₁.total := by
        rw [htotal']
        exact Finset.sdiff_subset
      rw [hnext', hnext₁, ← htotal₁, List.toFinset_cons, Finset.biUnion_insert]
      ext x
      simp only [Finset.mem_inter, Finset.mem_union]
      constructor
      · rintro ⟨(⟨h, _⟩ | h), hx⟩
        · exact ⟨by tauto, hx⟩
        · exact ⟨by tauto, hx⟩
      · rintro ⟨h, hx⟩
        exact ⟨by tauto, hx⟩

/-! ## The run -/

theorem mem_depends {t d : Tid} : d ∈ depends g t ↔ g.Dep t d := List.mem_toFinset

theorem mem_revdeps {t d : Tid} : t ∈ revdeps g d ↔ g.Dep t d := by
  unfold revdeps
  rw [List.mem_toFinset, g.matching]
  rfl

/-- Every task of a batch has its dependencies among the tasks of earlier batches, as far as they are
in the set. -/
def InOrder (g : TaskGraph Tid) (world : Finset Tid) (calls : List (List Tid)) : Prop :=
  ∀ before current after, calls = before ++ current :: after → ∀ t ∈ current, ∀ d ∈ g.depends t, d ∈ world →
    d ∈ before.flatten

/-- Between two batches: what is not in the total any more has been called for, once, and a task that
waits for nothing in the total is in the next batch. -/
structure Between (g : TaskGraph Tid) (world : Finset Tid) (s : Loop Tid σ) : Prop where
  total : s.total ⊆ world
  next : s.next ⊆ s.total
  waiting : ∀ t ∈ s.total, Disjoint (depends g t) s.total → t ∈ s.next
  called : ∀ t, t ∈ s.calls.flatten ↔ t ∈ world ∧ t ∉ s.total
  once : s.calls.flatten.Nodup
  ordered : InOrder g world s.calls

omit [DecidableEq Tid] in
theorem InOrder.concat {world : Finset Tid} {calls : List (List Tid)} (h : InOrder g world calls)
    {last : List Tid} (hlast : ∀ t ∈ last, ∀ d ∈ g.depends t, d ∈ world → d ∈ calls.flatten) :
    InOrder g world (calls ++ [last]) := by
  intro before current after heq t ht d hd hw
  rcases List.eq_nil_or_concat after with rfl | ⟨init, final, rfl⟩
  · obtain ⟨rfl, hlists⟩ := List.append_inj' heq rfl
    obtain rfl := (List.cons.inj hlists).1
    exact hlast t ht d hd hw
  · rw [List.concat_eq_append, ← List.cons_append, ← List.append_assoc] at heq
    obtain ⟨heq, _⟩ := List.append_inj' heq rfl
    exact h before current init heq t ht d hd hw

theorem exists_ready (hacyclic : g.Acyclic) {total : Finset Tid} (hne : total.Nonempty) :
    ∃ t ∈ total, Disjoint (depends g t) total := by
  obtain ⟨t, ht, hmin⟩ := hacyclic.wf_swap.has_min (total : Set Tid) hne
  refine ⟨t, ht, Finset.disjoint_left.mpr fun d hd hdt => ?_⟩
  exact hmin d hdt (mem_depends.mp hd)

theorem Between.batch {world : Finset Tid} {s : Loop Tid σ} (h : Between g world s) {p : Tid}
    (hp : depends g p ≠ ∅) {current : List Tid} (hnodup : current.Nodup) (hcurrent : current.toFinset = s.next) :
    ∃ s', batch S g (some p) current s = some s' ∧ Between g world s' ∧ s'.total ⊆ s.total ∧
      ∀ t ∈ s.total, Disjoint (depends g t) s.total → t ∉ s'.total := by
  have hready : current.filter (fun tid => !((some p).any (fun p => decide (depends g p ≠ ∅)) &&
      !decide (Disjoint (depends g tid) s.total))) =
      current.filter fun tid => decide (Disjoint (depends g tid) s.total) := by
    refine List.filter_congr fun tid _ => ?_
    simp [hp]
  obtain ⟨ready, hdef⟩ : ∃ ready, ready = current.filter fun tid => decide (Disjoint (depends g tid) s.total) :=
    ⟨_, rfl⟩
  have hmem : ∀ t, t ∈ ready ↔ t ∈ s.next ∧ Disjoint (depends g t) s.total := by
    intro t
    rw [hdef, List.mem_filter, decide_eq_true_eq, ← List.mem_toFinset, hcurrent]
  have hrnodup : ready.Nodup := hdef ▸ hnodup.filter _
  unfold rehash.batch
  dsimp only
  rw [hready, ← hdef]
  obtain ⟨s', hs', htotal, hnext, hcalls⟩ := finish_fold (S := S) (g := g)
    (S.get_unihashes ready (get_taskhashes S g ready s.exec.siggen).2).1 ready
    (s := { s with
      exec := { s.exec with siggen := (S.get_unihashes ready (get_taskhashes S g ready s.exec.siggen).2).2 }
      next := ∅
      calls := s.calls ++ [ready] })
    (fun tid htid => get_taskhashes_some htid s.exec.siggen) hrnodup
    (fun tid htid => h.next ((hmem tid).mp htid).1) (Finset.empty_subset _)
  dsimp only at htotal hnext hcalls
  rw [Finset.empty_union] at hnext
  have hout : ∀ t, t ∈ s'.total ↔ t ∈ s.total ∧ t ∉ ready := by
    intro t
    rw [htotal, Finset.mem_sdiff, List.mem_toFinset]
  refine ⟨s', hs', ?_, fun t ht => ((hout t).mp ht).1, fun t ht hdisjoint hleft =>
    ((hout t).mp hleft).2 ((hmem t).mpr ⟨h.waiting t ht hdisjoint, hdisjoint⟩)⟩
  refine ⟨fun t ht => h.total ((hout t).mp ht).1, ?_, fun t ht hdisjoint => ?_, fun t => ?_, ?_, ?_⟩
  · rw [hnext]
    exact Finset.inter_subset_right
  · -- the last dependency that was in the total is in this batch
    obtain ⟨hts, hnot⟩ := (hout t).mp ht
    have hwaits : ¬Disjoint (depends g t) s.total :=
      fun hd => hnot ((hmem t).mpr ⟨h.waiting t hts hd, hd⟩)
    obtain ⟨d, hd, hds⟩ := Finset.not_disjoint_iff.mp hwaits
    have hdready : d ∈ ready := by
      by_contra hdnot
      exact (Finset.disjoint_left.mp hdisjoint hd) ((hout d).mpr ⟨hds, hdnot⟩)
    rw [hnext, Finset.mem_inter, Finset.mem_biUnion]
    exact ⟨⟨d, List.mem_toFinset.mpr hdready, mem_revdeps.mpr (mem_depends.mp hd)⟩, ht⟩
  · rw [hcalls, List.flatten_append, List.mem_append, h.called, hout]
    simp only [List.flatten_cons, List.flatten_nil, List.append_nil]
    have hworld : t ∈ ready → t ∈ world := fun ht => h.total (h.next ((hmem t).mp ht).1)
    tauto
  · rw [hcalls, List.flatten_append, List.nodup_append]
    refine ⟨h.once, by simpa using hrnodup, fun a ha b hb heq => ?_⟩
    subst heq
    have hready' : a ∈ ready := by simpa using hb
    exact ((h.called a).mp ha).2 (h.next ((hmem a).mp hready').1)
  · rw [hcalls]
    refine h.ordered.concat fun t ht d hd hw => ?_
    rw [h.called]
    exact ⟨hw, Finset.disjoint_left.mp ((hmem t).mp ht).2 (List.mem_toFinset.mpr hd)⟩

theorem rehash_ends (hacyclic : g.Acyclic) (it : Iteration Tid) {world : Finset Tid} {p : Tid}
    (hp : depends g p ≠ ∅) {turns : Nat} {s : Loop Tid σ} (h : Between g world s) (hturns : s.total.card < turns) :
    ∃ final, rehash_loop S it g (some p) turns s = some final ∧ final.total = ∅ ∧ Between g world final := by
  induction turns generalizing s with
  | zero => omega
  | succ turns ih =>
    rw [rehash_loop]
    by_cases hnext : s.next = ∅
    · refine ⟨s, if_pos hnext, ?_, h⟩
      by_contra hne
      obtain ⟨t, ht, hdisjoint⟩ := exists_ready hacyclic (Finset.nonempty_iff_ne_empty.mpr hne)
      have := h.waiting t ht hdisjoint
      rw [hnext] at this
      simp at this
    · rw [if_neg hnext]
      obtain ⟨s', hs', h', hsub, hless⟩ := h.batch (S := S) hp (it.nodup (turns + 1) s.next) (it.toFinset (turns + 1) s.next)
      rw [hs', Option.bind_some]
      have hne : s.total.Nonempty := (Finset.nonempty_iff_ne_empty.mpr hnext).mono h.next
      obtain ⟨t, ht, hdisjoint⟩ := exists_ready hacyclic hne
      have hcard : s'.total.card < s.total.card :=
        Finset.card_lt_card ⟨hsub, fun hback => hless t ht hdisjoint (hback ht)⟩
      exact ih h' (by omega)

/-! ## The updates and their dependents -/

/-- The items so far: the tasks that got a unihash, and those that kept theirs. -/
structure Updated (exec : RunQueueExecute Tid σ) (items : List (Tid × Text))
    (acc : RunQueueExecute Tid σ × Finset Tid) : Prop where
  running : acc.1.runq_running = exec.runq_running ∧ acc.1.runq_complete = exec.runq_complete
  deferred : acc.1.sq_deferred = exec.sq_deferred
  kept : ∀ t, t ∉ acc.2 → acc.1.unihash t = exec.unihash t
  new : ∀ item ∈ items, ¬(item.1 ∈ exec.runq_running ∧ item.1 ∉ exec.runq_complete) →
    item.2 ≠ exec.unihash item.1 → item.1 ∈ acc.2
  origin : ∀ t ∈ acc.2, ∃ item ∈ items, ¬(item.1 ∈ exec.runq_running ∧ item.1 ∉ exec.runq_complete) ∧
    (t = item.1 ∨ (t, item.1) ∈ exec.sq_deferred)

theorem set_unihash_fold (unihash : Text) (torehash : List Tid) (exec : RunQueueExecute Tid σ) :
    ∃ siggen hashes, torehash.foldl (set_unihash S unihash) exec =
      { exec with siggen := siggen, unihash := hashes } ∧ ∀ t, t ∉ torehash → hashes t = exec.unihash t := by
  induction torehash generalizing exec with
  | nil => exact ⟨exec.siggen, exec.unihash, rfl, fun _ _ => rfl⟩
  | cons hashtid torehash ih =>
    obtain ⟨siggen, hashes, hfold, hkept⟩ := ih (set_unihash S unihash exec hashtid)
    refine ⟨siggen, hashes, hfold, fun t ht => ?_⟩
    rw [List.mem_cons, not_or] at ht
    rw [hkept t ht.2]
    exact Function.update_of_ne ht.1 _ _

theorem Updated.step {exec : RunQueueExecute Tid σ} {items : List (Tid × Text)}
    {acc : RunQueueExecute Tid σ × Finset Tid} (h : Updated exec items acc) (item : Tid × Text) :
    Updated exec (items ++ [item]) (take_update S acc item) := by
  have hrunning : (item.1 ∈ acc.1.runq_running ∧ item.1 ∉ acc.1.runq_complete) ↔
      (item.1 ∈ exec.runq_running ∧ item.1 ∉ exec.runq_complete) := by
    rw [h.running.1, h.running.2]
  unfold take_update
  dsimp only
  have horigin : ∀ t ∈ acc.2, ∃ item' ∈ items ++ [item],
      ¬(item'.1 ∈ exec.runq_running ∧ item'.1 ∉ exec.runq_complete) ∧
        (t = item'.1 ∨ (t, item'.1) ∈ exec.sq_deferred) := by
    intro t ht
    obtain ⟨item', hitem', hrest⟩ := h.origin t ht
    exact ⟨item', List.mem_append_left _ hitem', hrest⟩
  by_cases hheld : item.1 ∈ exec.runq_running ∧ item.1 ∉ exec.runq_complete
  · rw [if_pos (hrunning.mpr hheld)]
    refine ⟨h.running, h.deferred, h.kept, fun item' hitem' htaken hne => ?_, horigin⟩
    rcases List.mem_append.mp hitem' with hmem | hmem
    · exact h.new item' hmem htaken hne
    · rw [List.mem_singleton.mp hmem] at htaken
      exact absurd hheld htaken
  · rw [if_neg (mt hrunning.mp hheld)]
    by_cases hsame : item.2 = acc.1.unihash item.1
    · rw [if_pos hsame]
      refine ⟨h.running, h.deferred, h.kept, fun item' hitem' htaken hne => ?_, horigin⟩
      rcases List.mem_append.mp hitem' with hmem | hmem
      · exact h.new item' hmem htaken hne
      · -- a task whose unihash is not what it was has been updated before
        obtain rfl := List.mem_singleton.mp hmem
        by_contra hnot
        rw [h.kept _ hnot] at hsame
        exact hne hsame
    · rw [if_neg hsame]
      obtain ⟨siggen, hashes, hfold, hkept⟩ := set_unihash_fold (S := S) item.2
        (item.1 :: (acc.1.sq_deferred.filter fun x => x.2 = item.1).map Prod.fst)
        { acc.1 with updated_taskhash_queue := acc.1.updated_taskhash_queue.erase item }
      rw [hfold]
      refine ⟨h.running, h.deferred, fun t ht => ?_, fun item' hitem' htaken hne => ?_, fun t ht => ?_⟩
      · rw [Finset.mem_union, not_or, List.mem_toFinset] at ht
        exact (hkept t ht.2).trans (h.kept t ht.1)
      · rw [Finset.mem_union, List.mem_toFinset]
        rcases List.mem_append.mp hitem' with hmem | hmem
        · exact Or.inl (h.new item' hmem htaken hne)
        · rw [List.mem_singleton.mp hmem]
          exact Or.inr List.mem_cons_self
      · rw [Finset.mem_union, List.mem_toFinset] at ht
        rcases ht with ht | ht
        · exact horigin t ht
        · refine ⟨item, by simp, hheld, ?_⟩
          rcases List.mem_cons.mp ht with heq | ht
          · exact Or.inl heq
          · obtain ⟨x, hx, rfl⟩ := List.mem_map.mp ht
            obtain ⟨hmem, hkey⟩ := List.mem_filter.mp hx
            right
            rw [← of_decide_eq_true hkey, ← h.deferred]
            exact hmem

theorem all_revdeps_spec (g : TaskGraph Tid) (toprocess : Finset Tid) {turns : Nat}
    (hturns : g.runtaskentries.length < turns) :
    ∃ total, all_revdeps turns g toprocess = some total ∧ total.card < turns ∧
      ∀ t, t ∈ total ↔ ∃ u ∈ toprocess, Relation.TransGen g.Dep t u := by
  have hworld : ∀ x ∈ g.runtaskentries.toFinset, revdeps g x ⊆ g.runtaskentries.toFinset := by
    intro x _ t ht
    exact List.mem_toFinset.mpr (g.closed (mem_revdeps.mp ht)).1
  have hnext : toprocess.biUnion (revdeps g) ⊆ g.runtaskentries.toFinset := by
    intro t ht
    obtain ⟨u, _, hu⟩ := Finset.mem_biUnion.mp ht
    exact List.mem_toFinset.mpr (g.closed (mem_revdeps.mp hu)).1
  have hcard := List.toFinset_card_le g.runtaskentries
  obtain ⟨total, htotal, hmem⟩ := spread_spec g.runtaskentries.toFinset hworld hnext
    (Finset.disjoint_empty_left _) (by simp) (by rw [Finset.sdiff_empty]; exact Nat.lt_of_le_of_lt hcard hturns)
  have hiff : ∀ t, t ∈ total ↔ ∃ u ∈ toprocess, Relation.TransGen g.Dep t u := by
    intro t
    rw [hmem]
    have hswap : ∀ s, Relation.ReflTransGen (fun a b => g.Dep b a) s t ↔ Relation.ReflTransGen g.Dep t s :=
      fun s => Relation.reflTransGen_swap
    simp only [Finset.mem_biUnion, mem_revdeps, hswap, Relation.TransGen.tail'_iff]
    constructor
    · rintro (h | ⟨s, ⟨u, hu, hdep⟩, hreach⟩)
      · simp at h
      · exact ⟨u, hu, s, hreach, hdep⟩
    · rintro ⟨u, hu, s, hreach, hdep⟩
      exact Or.inr ⟨s, ⟨u, hu, hdep⟩, hreach⟩
  refine ⟨total, htotal, Nat.lt_of_le_of_lt ?_ hturns, hiff⟩
  refine le_trans (Finset.card_le_card fun t ht => ?_) hcard
  obtain ⟨u, _, hreach⟩ := (hiff t).mp ht
  obtain ⟨s, hstep, _⟩ := Relation.TransGen.head'_iff.mp hreach
  exact List.mem_toFinset.mpr (g.closed hstep).1

/-- The tasks that depend on an updated one are called for once, each after its dependencies. -/
structure Rehashed (g : TaskGraph Tid) (updated : Finset Tid) (calls : List (List Tid)) : Prop where
  exactly : ∀ t, t ∈ calls.flatten ↔ ∃ u ∈ updated, Relation.TransGen g.Dep t u
  once : calls.flatten.Nodup
  ordered : ∀ before current after, calls = before ++ current :: after → ∀ t ∈ current, ∀ d ∈ g.depends t,
    d ∈ calls.flatten → d ∈ before.flatten

theorem dependents_are_rehashed_in_order (hacyclic : g.Acyclic) (S : SigGen Tid σ) (it : Iteration Tid)
    (exec : RunQueueExecute Tid σ) : ∀ turns > g.runtaskentries.length,
    ∃ final, process_possible_migrations S it turns g exec = some final ∧ final.total = ∅ ∧
      Rehashed g (take_updates S exec).2 final.calls := by
  intro turns hturns
  obtain ⟨total, htotal, hcard, hmem⟩ := all_revdeps_spec g (take_updates S exec).2 hturns
  obtain ⟨next, hnext⟩ : ∃ next, next = total.filter fun p => depends g p = ∅ ∨ Disjoint (depends g p) total :=
    ⟨_, rfl⟩
  have hstart : Between g total (⟨(take_updates S exec).1, total, next, ∅, []⟩ : Loop Tid σ) := by
    refine ⟨Finset.Subset.rfl, ?_, fun t ht hdisjoint => ?_, fun t => ?_, List.nodup_nil, fun before current after h => ?_⟩
    · rw [hnext]
      exact Finset.filter_subset _ _
    · rw [hnext]
      exact Finset.mem_filter.mpr ⟨ht, Or.inr hdisjoint⟩
    · simp
    · cases before <;> cases h
  have hends : ∃ final, rehash_loop S it g (it.order 0 total).getLast? turns
      ⟨(take_updates S exec).1, total, next, ∅, []⟩ = some final ∧ final.total = ∅ ∧ Between g total final := by
    cases hlast : (it.order 0 total).getLast? with
    | none =>
      -- no task depends on an updated one
      have hempty : total = ∅ := by
        rw [← it.toFinset 0 total, List.getLast?_eq_none_iff.mp hlast, List.toFinset_nil]
      obtain ⟨turns, rfl⟩ : ∃ n, turns = n + 1 := ⟨turns - 1, by omega⟩
      have hnone : next = ∅ := by rw [hnext, hempty, Finset.filter_empty]
      exact ⟨_, if_pos hnone, hempty, hstart⟩
    | some p =>
      have hp : p ∈ total := by
        rw [← it.toFinset 0 total, List.mem_toFinset]
        exact List.mem_of_getLast? hlast
      obtain ⟨u, _, hreach⟩ := (hmem p).mp hp
      obtain ⟨d, hstep, _⟩ := Relation.TransGen.head'_iff.mp hreach
      have hdepends : depends g p ≠ ∅ := Finset.ne_empty_of_mem (mem_depends.mpr hstep)
      exact rehash_ends hacyclic it hdepends hstart hcard
  obtain ⟨final, hfinal, hempty, hbetween⟩ := hends
  refine ⟨final, ?_, hempty, ?_⟩
  · subst hnext
    unfold process_possible_migrations
    dsimp only
    rw [htotal]
    exact hfinal
  · have hcalled : ∀ t, t ∈ final.calls.flatten ↔ t ∈ total := by
      intro t
      rw [hbetween.called, hempty]
      simp
    refine ⟨fun t => (hcalled t).trans (hmem t), hbetween.once, fun before current after h t ht d hd hdc => ?_⟩
    exact hbetween.ordered before current after h t ht d hd ((hcalled d).mp hdc)

end

def two_in_a_row : TaskGraph Nat where
  runtaskentries := [0, 1]
  depends := fun t => if t = 1 then [0] else []
  revdeps := fun t => if t = 0 then [1] else []
  closed := by
    intro t d h
    by_cases ht : t = 1
    · simp_all
    · simp [ht] at h
  matching := by
    intro t d
    by_cases ht : t = 1
    · by_cases hd : d = 0
      · simp [ht, hd]
      · simp [ht, hd]
    · by_cases hd : d = 0
      · simp [ht, hd]
      · simp [ht, hd]

theorem two_in_a_row_acyclic : two_in_a_row.Acyclic := by
  refine acyclic_of_lt (fun t => 2 - t) fun a b hab => ?_
  unfold TaskGraph.Dep two_in_a_row at hab
  dsimp only at hab
  split at hab
  · rw [List.mem_singleton.mp hab]
    omega
  · cases hab

def ascending : Iteration Nat where
  order := fun _ s => s.sort (· ≤ ·)
  nodup := fun _ s => s.sort_nodup (· ≤ ·)
  toFinset := fun _ s => s.sort_toFinset (· ≤ ·)

def same_hashes : SigGen Nat Unit where
  set_unihash := fun _ _ s => s
  save_unitaskhashes := fun s => s
  get_taskhash := fun _ _ s => (text "h", s)
  get_unihashes := fun _ s => (fun _ => text "u", s)
  report_unihash_equiv := fun _ _ _ _ s => s

theorem the_second_task_is_rehashed :
    let exec : RunQueueExecute Nat Unit :=
      ⟨∅, ∅, ∅, ∅, [], [(0, text "new")], fun _ => text "h", fun _ => text "u", ()⟩
    ∀ turns > 2, ∃ final, process_possible_migrations same_hashes ascending turns two_in_a_row exec = some final ∧
      final.total = ∅ ∧ Rehashed two_in_a_row (take_updates same_hashes exec).2 final.calls := by
  intro exec
  exact dependents_are_rehashed_in_order two_in_a_row_acyclic same_hashes ascending exec

end yocto.rehash
