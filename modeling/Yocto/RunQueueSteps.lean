-- What the parts of a step do to the executor, said once: which setscene tasks each function
-- marks as covered or as not covered, what it leaves alone, and from which parts a call of
-- `execute` is put together.
import Yocto.RunQueueExecute

open yocto.task_ids yocto.ordered_dict yocto.scenequeue yocto.runs

namespace yocto.runqueue

variable {Tid Stamp : Type} [DecidableEq Tid]
variable (cfg : Config Tid) (sq : SQData Tid) (w : World Tid Stamp)

/-! ## Marks -/

/-- From `s` to `s'` the tasks of `C` were marked as covered and those of `N` as not covered. -/
structure Marked (s s' : SceneState Tid Stamp) (C N : Finset Tid) : Prop where
  covered : s'.scenequeue_covered = s.scenequeue_covered ∪ C
  notcovered : s'.scenequeue_notcovered = s.scenequeue_notcovered ∪ N
  running : s'.sq_running = s.sq_running ∪ (C ∪ N)
  entered : ∀ t, s'.entered t = s.entered t +
    (if t ∈ C ∧ t ∉ s.scenequeue_covered then 1 else 0) +
    (if t ∈ N ∧ t ∉ s.scenequeue_notcovered then 1 else 0)
  live : s'.sq_live = s.sq_live
  stamps : s'.stamps = s.stamps
  tasks_covered : s'.tasks_covered = s.tasks_covered
  deferred : ∀ t ∈ s.sq_live, t ∈ s'.sq_deferred.map Prod.fst → t ∈ s.sq_deferred.map Prod.fst

variable {s s' s'' : SceneState Tid Stamp} {C C' N N' : Finset Tid}

theorem Marked.same (hc : s'.scenequeue_covered = s.scenequeue_covered)
    (hn : s'.scenequeue_notcovered = s.scenequeue_notcovered) (hr : s'.sq_running = s.sq_running)
    (he : s'.entered = s.entered) (hl : s'.sq_live = s.sq_live) (hst : s'.stamps = s.stamps)
    (ht : s'.tasks_covered = s.tasks_covered)
    (hd : ∀ t ∈ s.sq_live, t ∈ s'.sq_deferred.map Prod.fst → t ∈ s.sq_deferred.map Prod.fst) :
    Marked s s' ∅ ∅ where
  covered := by rw [hc, Finset.union_empty]
  notcovered := by rw [hn, Finset.union_empty]
  running := by rw [hr, Finset.union_empty, Finset.union_empty]
  entered := by simp [he]
  live := hl
  stamps := hst
  tasks_covered := ht
  deferred := hd

theorem Marked.refl (s : SceneState Tid Stamp) : Marked s s ∅ ∅ :=
  .same rfl rfl rfl rfl rfl rfl rfl fun _ _ h => h

theorem Marked.trans (h : Marked s s' C N) (h' : Marked s' s'' C' N') :
    Marked s s'' (C ∪ C') (N ∪ N') where
  covered := by rw [h'.covered, h.covered, Finset.union_assoc]
  notcovered := by rw [h'.notcovered, h.notcovered, Finset.union_assoc]
  running := by
    rw [h'.running, h.running]
    ext t
    simp only [Finset.mem_union]
    tauto
  entered := by
    intro t
    rw [h'.entered, h.entered, h.covered, h.notcovered]
    simp only [Finset.mem_union]
    by_cases hc : t ∈ s.scenequeue_covered <;> by_cases hC : t ∈ C <;> by_cases hC' : t ∈ C' <;>
      by_cases hn : t ∈ s.scenequeue_notcovered <;> by_cases hN : t ∈ N <;>
      by_cases hN' : t ∈ N' <;> simp [hc, hC, hC', hn, hN, hN']
  live := h'.live.trans h.live
  stamps := h'.stamps.trans h.stamps
  tasks_covered := h'.tasks_covered.trans h.tasks_covered
  deferred := fun t hlive ht =>
    h.deferred t hlive (h'.deferred t (h.live ▸ hlive) ht)

theorem Marked.same_then (h : Marked s s' ∅ ∅) (h' : Marked s' s'' C N) : Marked s s'' C N := by
  simpa using h.trans h'

theorem Marked.then_same (h : Marked s s' C N) (h' : Marked s' s'' ∅ ∅) : Marked s s'' C N := by
  simpa using h.trans h'

theorem Marked.decided (h : Marked s s' C N) : s'.decided = s.decided ∪ (C ∪ N) := by
  unfold SceneState.decided
  rw [h.covered, h.notcovered]
  ext t
  simp only [Finset.mem_union]
  tauto

theorem Marked.of_running {task : Tid} {u : SceneState Tid Stamp} (hC : task ∈ C ∪ N)
    (h : Marked { s with sq_running := insert task s.sq_running
                         sq_buildable := insert task s.sq_buildable } u C N) :
    Marked s u C N :=
  { h with
    running := by
      rw [h.running]
      ext t
      simp only [Finset.mem_union, Finset.mem_insert] at hC ⊢
      constructor
      · rintro ((rfl | h) | h)
        · exact Or.inr hC
        · exact Or.inl h
        · exact Or.inr h
      · rintro (h | h)
        · exact Or.inl (Or.inr h)
        · exact Or.inr h }

theorem count_task_marks (task : Tid) (s : SceneState Tid Stamp) :
    Marked s (count_task cfg sq task s) ∅ ∅ :=
  .same rfl rfl rfl rfl rfl rfl rfl fun _ _ h => h

theorem add_covered_marks {task : Tid} (hrun : task ∈ s.sq_running) :
    Marked s (add_covered task s) {task} ∅ where
  covered := by
    rw [Finset.union_comm]
    rfl
  notcovered := (Finset.union_empty _).symm
  running := by
    rw [Finset.union_empty, Finset.union_comm]
    exact (Finset.insert_eq_self.mpr hrun).symm
  entered := by
    intro t
    unfold add_covered
    by_cases hin : task ∈ s.scenequeue_covered
    · by_cases ht : t = task
      · simp [ht, hin]
      · simp [ht, hin]
    · by_cases ht : t = task
      · simp [ht, hin]
      · simp [ht, hin]
  live := rfl
  stamps := rfl
  tasks_covered := rfl
  deferred := fun _ _ h => h

theorem add_notcovered_marks {task : Tid} (hrun : task ∈ s.sq_running) :
    Marked s (add_notcovered task s) ∅ {task} where
  covered := (Finset.union_empty _).symm
  notcovered := by
    rw [Finset.union_comm]
    rfl
  running := by
    rw [Finset.empty_union, Finset.union_comm]
    exact (Finset.insert_eq_self.mpr hrun).symm
  entered := by
    intro t
    unfold add_notcovered
    by_cases hin : task ∈ s.scenequeue_notcovered
    · by_cases ht : t = task
      · simp [ht, hin]
      · simp [ht, hin]
    · by_cases ht : t = task
      · simp [ht, hin]
      · simp [ht, hin]
  live := rfl
  stamps := rfl
  tasks_covered := rfl
  deferred := fun _ _ h => h

/-! ## The hard dependencies -/

/-- A task that is not decided yet, and that a failed hard dependency fails outright. -/
def falls (s : SceneState Tid Stamp) (dep : Tid) : Prop :=
  dep ∉ s.decided ∧ (check_setscene_stamps cfg w dep).1 = false ∧
    (check_setscene_stamps cfg w dep).2 = false

variable {cfg w} in
theorem falls_anti {t : Tid} (hd : s.decided ⊆ s'.decided) (h : falls cfg w s' t) :
    falls cfg w s t :=
  ⟨fun hin => h.1 (hd hin), h.2⟩

theorem scenequeue_updatecounters_marks (depth : Nat) (task : Tid) (fail : Bool)
    (s : SceneState Tid Stamp) :
    ∃ N, Marked s (scenequeue_updatecounters cfg sq w depth task fail s) ∅ N ∧
      ∀ t ∈ N, falls cfg w s t := by
  induction depth generalizing task fail s with
  | zero => exact ⟨∅, count_task_marks cfg sq task s, by simp⟩
  | succ depth ih =>
    unfold scenequeue_updatecounters
    cases fail with
    | false => exact ⟨∅, count_task_marks cfg sq task s, by simp⟩
    | true =>
      -- the loop over the tasks with a hard dependency on the task
      have hloop : ∀ (deps : List Tid) (u : SceneState Tid Stamp), ∃ N, Marked u
            (deps.foldl (fun s dep =>
              if dep ∈ s.scenequeue_covered ∨ dep ∈ s.scenequeue_notcovered then s
              else if (check_setscene_stamps cfg w dep).1 ∨ (check_setscene_stamps cfg w dep).2
              then s
              else
                scenequeue_updatecounters cfg sq w depth dep true (add_notcovered dep
                  { s with sq_running := insert dep s.sq_running
                           sq_buildable := insert dep s.sq_buildable })) u) ∅ N ∧
            ∀ t ∈ N, falls cfg w u t := by
        intro deps
        induction deps with
        | nil => exact fun u => ⟨∅, .refl u, by simp⟩
        | cons dep deps ihdeps =>
          intro u
          rw [List.foldl_cons]
          by_cases hdecided : dep ∈ u.scenequeue_covered ∨ dep ∈ u.scenequeue_notcovered
          · rw [if_pos hdecided]
            exact ihdeps u
          · rw [if_neg hdecided]
            by_cases hstamp : (check_setscene_stamps cfg w dep).1 ∨
                (check_setscene_stamps cfg w dep).2
            · rw [if_pos hstamp]
              exact ihdeps u
            · rw [if_neg hstamp]
              have hfalls : falls cfg w u dep := by
                simp only [not_or, Bool.not_eq_true] at hstamp
                exact ⟨fun h => hdecided (Finset.mem_union.mp h), hstamp⟩
              have hmark : Marked u (add_notcovered dep
                  { u with sq_running := insert dep u.sq_running
                           sq_buildable := insert dep u.sq_buildable }) ∅ {dep} :=
                (add_notcovered_marks (Finset.mem_insert_self _ _)).of_running (by simp)
              obtain ⟨N1, hN1, hfalls1⟩ := ih dep true (add_notcovered dep
                { u with sq_running := insert dep u.sq_running
                         sq_buildable := insert dep u.sq_buildable })
              have hto := hmark.trans hN1
              obtain ⟨N2, hN2, hfalls2⟩ := ihdeps (scenequeue_updatecounters cfg sq w depth dep true
                (add_notcovered dep { u with sq_running := insert dep u.sq_running
                                             sq_buildable := insert dep u.sq_buildable }))
              refine ⟨_, hto.trans hN2, ?_⟩
              intro t ht
              rcases Finset.mem_union.mp ht with ht | ht
              · rcases Finset.mem_union.mp ht with ht | ht
                · rw [Finset.mem_singleton.mp ht]
                  exact hfalls
                · refine falls_anti ?_ (hfalls1 t ht)
                  rw [hmark.decided]
                  exact Finset.subset_union_left
              · refine falls_anti ?_ (hfalls2 t ht)
                rw [hto.decided]
                exact Finset.subset_union_left
      obtain ⟨N, hN, hfall⟩ := hloop (cfg.sorted (sq.sq_harddeps task)) s
      exact ⟨N, hN.then_same (count_task_marks cfg sq task _), hfall⟩

theorem sq_task_skip_marks (task : Tid) (s : SceneState Tid Stamp) :
    Marked s (sq_task_skip cfg sq w task s) {task} ∅ :=
  ((add_covered_marks (Finset.mem_insert_self _ _)).trans (count_task_marks cfg sq task _)).of_running
    (by simp)

theorem sq_task_complete_marks {task : Tid} (hrun : task ∈ s.sq_running) :
    Marked s (sq_task_complete cfg sq w task s) {task} ∅ :=
  (add_covered_marks hrun).trans (count_task_marks cfg sq task _)

theorem sq_task_fail_marks {task : Tid} (hrun : task ∈ s.sq_running) :
    ∃ N, Marked s (sq_task_fail cfg sq w task s) ∅ ({task} ∪ N) ∧ ∀ t ∈ N, falls cfg w s t := by
  obtain ⟨N, hN, hfall⟩ := scenequeue_updatecounters_marks cfg sq w
    (cfg.runtaskentries.length + 1) task true (add_notcovered task s)
  refine ⟨N, (add_notcovered_marks hrun).trans hN, ?_⟩
  intro t ht
  refine falls_anti ?_ (hfall t ht)
  rw [(add_notcovered_marks hrun).decided]
  exact Finset.subset_union_left

theorem sq_task_failoutright_marks (task : Tid) (s : SceneState Tid Stamp) :
    ∃ N, Marked s (sq_task_failoutright cfg sq w task s) ∅ ({task} ∪ N) ∧
      ∀ t ∈ N, falls cfg w s t := by
  obtain ⟨N, hN, hfall⟩ := sq_task_fail_marks cfg sq w
    (s := { s with sq_running := insert task s.sq_running
                   sq_buildable := insert task s.sq_buildable }) (Finset.mem_insert_self task _)
  exact ⟨N, hN.of_running (by simp), hfall⟩

/-! ## What is present -/

/-- The task needs no setscene run: it has nothing to run, or a stamp of it is present. -/
def present (t : Tid) : Prop :=
  (check_setscene_stamps cfg w t).1 = true ∨ (check_setscene_stamps cfg w t).2 = true

theorem update_step_marks (s : SceneState Tid Stamp) (tocheck : Finset Tid) (tid : Tid) :
    ∃ C, Marked s (update_step cfg sq w (s, tocheck) tid).1 C ∅ ∧
      ∀ t ∈ C, t = tid ∧ present cfg w t := by
  unfold update_step
  by_cases hnoexec : (check_setscene_stamps cfg w tid).1 = true
  · refine ⟨{tid}, ?_, ?_⟩
    · simp only [hnoexec, ↓reduceIte]
      refine Marked.same_then ?_ (sq_task_skip_marks cfg sq w tid _)
      exact .same rfl rfl rfl rfl rfl rfl rfl fun _ _ h => h
    · intro t ht
      rw [Finset.mem_singleton.mp ht]
      exact ⟨rfl, Or.inl hnoexec⟩
  · by_cases hpresent : (check_setscene_stamps cfg w tid).2 = true
    · refine ⟨{tid}, ?_, ?_⟩
      · simp only [hnoexec, hpresent, ↓reduceIte, Bool.false_eq_true]
        refine Marked.same_then ?_ (sq_task_skip_marks cfg sq w tid _)
        exact .same rfl rfl rfl rfl rfl rfl rfl fun _ _ h => h
      · intro t ht
        rw [Finset.mem_singleton.mp ht]
        exact ⟨rfl, Or.inr hpresent⟩
    · refine ⟨∅, ?_, by simp⟩
      simp only [hnoexec, hpresent, ↓reduceIte, Bool.false_eq_true]
      exact .same rfl rfl rfl rfl rfl rfl rfl fun _ _ h => h

theorem update_scenequeue_data_marks (tids : Finset Tid) (s : SceneState Tid Stamp) :
    ∃ C, Marked s (update_scenequeue_data cfg sq w tids s) C ∅ ∧
      ∀ t ∈ C, t ∈ tids ∧ present cfg w t := by
  have hloop : ∀ (l : List Tid) (u : SceneState Tid Stamp) (tocheck : Finset Tid),
      (∀ t ∈ l, t ∈ tids) → ∃ C, Marked u (l.foldl (update_step cfg sq w) (u, tocheck)).1 C ∅ ∧
        ∀ t ∈ C, t ∈ tids ∧ present cfg w t := by
    intro l
    induction l with
    | nil => exact fun u _ _ => ⟨∅, .refl u, by simp⟩
    | cons tid l ih =>
      intro u tocheck hl
      obtain ⟨C, hC, hpresent⟩ := update_step_marks cfg sq w u tocheck tid
      obtain ⟨C', hC', hpresent'⟩ := ih (update_step cfg sq w (u, tocheck) tid).1
        (update_step cfg sq w (u, tocheck) tid).2 fun t ht => hl t (List.mem_cons_of_mem _ ht)
      refine ⟨C ∪ C', hC.trans hC', ?_⟩
      intro t ht
      rcases Finset.mem_union.mp ht with ht | ht
      · obtain ⟨rfl, hp⟩ := hpresent t ht
        exact ⟨hl t List.mem_cons_self, hp⟩
      · exact hpresent' t ht
  unfold update_scenequeue_data
  obtain ⟨C, hC, hpresent⟩ := hloop (cfg.sorted tids) s ∅ fun t ht => by
    unfold Config.sorted at ht
    simpa using (List.mem_filter.mp ht).2
  exact ⟨C, hC.then_same (.same rfl rfl rfl rfl rfl rfl rfl fun _ _ h => h), hpresent⟩

/-! ## Deferred tasks -/

theorem mem_keys_of_del {d : OrderedDict Tid Tid} {key t : Tid}
    (h : t ∈ (d.del key).map Prod.fst) : t ∈ d.map Prod.fst := by
  obtain ⟨x, hx, rfl⟩ := List.mem_map.mp h
  exact List.mem_map_of_mem (List.mem_filter.mp hx).1

theorem not_mem_keys_of_del (d : OrderedDict Tid Tid) (key : Tid) :
    key ∉ (d.del key).map Prod.fst := by
  intro h
  obtain ⟨x, hx, hkey⟩ := List.mem_map.mp h
  simpa [hkey] using (List.mem_filter.mp hx).2

/-- The deferred task that is released when `task` is complete. -/
def released (task : Tid) (s : SceneState Tid Stamp) : Option Tid :=
  (cfg.sorted (s.sq_deferred.map Prod.fst).toFinset).find? fun t =>
    s.sq_deferred.get? t = some task

theorem release_rest_marks (task first : Tid) (l : List Tid) (s : SceneState Tid Stamp) :
    Marked s (l.foldl (release_step cfg sq w task) (s, some first)).1 ∅ ∅ := by
  induction l generalizing s with
  | nil => exact .refl s
  | cons t l ih =>
    rw [List.foldl_cons]
    unfold release_step
    by_cases ht : s.sq_deferred.get? t = some task
    · simp only [ht, ↓reduceIte]
      refine Marked.same_then ?_ (ih _)
      refine .same rfl rfl rfl rfl rfl rfl rfl ?_
      intro t' _ ht'
      rcases OrderedDict.key_set.mp ht' with h | rfl
      · exact h
      · exact List.mem_map_of_mem (OrderedDict.mem_of_get? ht)
    · simp only [ht, ↓reduceIte]
      exact ih s

theorem release_deferred_marks (task : Tid) (s : SceneState Tid Stamp) :
    ∃ C, Marked s (release_deferred cfg sq w task s) C ∅ ∧
      ∀ t ∈ C, released cfg task s = some t ∧ present cfg w t := by
  unfold release_deferred released
  generalize cfg.sorted (s.sq_deferred.map Prod.fst).toFinset = l
  induction l with
  | nil => exact ⟨∅, .refl s, by simp⟩
  | cons t l ih =>
    rw [List.foldl_cons]
    by_cases ht : s.sq_deferred.get? t = some task
    · obtain ⟨C, hC, hpresent⟩ := update_scenequeue_data_marks cfg sq w
        {t} { s with sq_deferred := s.sq_deferred.del t }
      refine ⟨C, ?_, ?_⟩
      · have hdel : Marked s { s with sq_deferred := s.sq_deferred.del t } ∅ ∅ :=
          .same rfl rfl rfl rfl rfl rfl rfl fun _ _ => mem_keys_of_del
        have hfirst : release_step cfg sq w task (s, none) t =
            (update_scenequeue_data cfg sq w {t} { s with sq_deferred := s.sq_deferred.del t },
              some t) := by
          simp [release_step, ht]
        rw [hfirst]
        exact (hdel.same_then hC).then_same (release_rest_marks cfg sq w task t l _)
      · intro t' ht'
        obtain ⟨hmem, hp⟩ := hpresent t' ht'
        rw [Finset.mem_singleton.mp hmem] at hp ⊢
        exact ⟨by simp [ht], hp⟩
    · have hfirst : release_step cfg sq w task (s, none) t = (s, none) := by
        simp [release_step, ht]
      rw [hfirst]
      simpa [ht] using ih

/-! ## The search -/

def Choice.task : Choice Tid → Option Tid
  | .nothing | .woken => none
  | .notneeded task | .skip task | .failoutright task | .start task => some task

theorem check_setscene_task (c : Choice Tid) : (check_setscene cfg w c).task = c.task := by
  unfold check_setscene
  split
  · split
    · rfl
    · split
      · rfl
      · split
        · rfl
        · split <;> rfl
  · rfl

variable {cfg w} in
theorem start_of_check_setscene {c : Choice Tid} {task : Tid}
    (h : check_setscene cfg w c = .start task) : c = .start task := by
  unfold check_setscene at h
  split at h
  · split at h
    · cases h
    · split at h
      · cases h
      · split at h
        · cases h
        · split at h
          · cases h
          · exact h
  · exact h

theorem settle_marks (s : SceneState Tid Stamp) (c : Choice Tid) :
    ∃ C N, Marked s (settle cfg sq w s c) C N ∧ ((N = ∅ ∧ ∀ t ∈ C, c.task = some t) ∨
      (C = ∅ ∧ ∀ t ∈ N, c.task = some t ∨ falls cfg w s t)) := by
  cases c with
  | nothing => exact ⟨∅, ∅, .refl s, Or.inl ⟨rfl, by simp⟩⟩
  | woken => exact ⟨∅, ∅, .refl s, Or.inl ⟨rfl, by simp⟩⟩
  | start task => exact ⟨∅, ∅, .refl s, Or.inl ⟨rfl, by simp⟩⟩
  | notneeded task =>
    refine ⟨{task}, ∅, (sq_task_skip_marks cfg sq w task s).then_same ?_, Or.inl ⟨rfl, ?_⟩⟩
    · exact .same rfl rfl rfl rfl rfl rfl rfl fun _ _ => mem_keys_of_del
    · intro t ht
      rw [Finset.mem_singleton.mp ht]
      rfl
  | skip task =>
    refine ⟨{task}, ∅, sq_task_skip_marks cfg sq w task s, Or.inl ⟨rfl, ?_⟩⟩
    intro t ht
    rw [Finset.mem_singleton.mp ht]
    rfl
  | failoutright task =>
    obtain ⟨N, hN, hfall⟩ := sq_task_failoutright_marks cfg sq w task s
    refine ⟨∅, {task} ∪ N, hN, Or.inr ⟨rfl, ?_⟩⟩
    intro t ht
    rcases Finset.mem_union.mp ht with ht | ht
    · rw [Finset.mem_singleton.mp ht]
      exact Or.inl rfl
    · exact Or.inr (hfall t ht)

section Search

variable [DecidableEq Stamp]

theorem consider_marks (complete : Finset Tid) (in_use : List Stamp) (nexttask : Tid)
    (s : SceneState Tid Stamp) :
    Marked s (consider cfg sq w complete in_use nexttask s).1 ∅ ∅ := by
  unfold consider
  split
  · split
    · exact .refl s
    · split
      · exact .refl s
      · split
        · exact .same rfl rfl rfl rfl rfl rfl rfl fun _ _ h => h
        · dsimp only
          split
          · exact .same rfl rfl rfl rfl rfl rfl rfl fun _ _ => mem_keys_of_del
          · exact .same rfl rfl rfl rfl rfl rfl rfl fun _ _ => mem_keys_of_del
  · exact .refl s

variable {cfg sq w} in
theorem consider_task {complete : Finset Tid} {in_use : List Stamp} {nexttask t : Tid}
    {c : Choice Tid} (hc : (consider cfg sq w complete in_use nexttask s).2 = some c)
    (ht : c.task = some t) :
    (t ∉ s.sq_running ∧ s.stamps t ∉ in_use) ∧ (c = .start t →
      t ∉ (consider cfg sq w complete in_use nexttask s).1.sq_deferred.map Prod.fst) := by
  unfold consider at hc ⊢
  split at hc
  · rename_i hopen
    rw [if_pos hopen]
    split at hc
    · cases hc
    · rename_i hblocked
      rw [if_neg hblocked]
      split at hc
      · obtain rfl := Option.some.inj hc
        obtain rfl := Option.some.inj ht
        exact ⟨⟨hopen.2.1, hopen.2.2.1⟩, by simp⟩
      · rename_i hneeded
        rw [if_neg hneeded]
        split at hc
        · dsimp only at hc
          split at hc
          · cases hc
          · obtain rfl := Option.some.inj hc
            cases ht
        · rename_i hharddeps
          rw [if_neg hharddeps]
          dsimp only at hc ⊢
          split at hc
          · obtain rfl := Option.some.inj hc
            obtain rfl := Option.some.inj ht
            exact ⟨⟨hopen.2.1, hopen.2.2.1⟩, by simp⟩
          · rename_i hvalid
            rw [if_neg hvalid]
            obtain rfl := Option.some.inj hc
            obtain rfl := Option.some.inj ht
            exact ⟨⟨hopen.2.1, hopen.2.2.1⟩, fun _ => not_mem_keys_of_del _ _⟩
  · cases hc

theorem search_setscene_marks (complete : Finset Tid) (in_use : List Stamp) (loops : Nat)
    (s : SceneState Tid Stamp) :
    Marked s (search_setscene cfg sq w complete in_use loops s).1 ∅ ∅ := by
  induction loops generalizing s with
  | zero => exact .refl s
  | succ loops ih =>
    unfold search_setscene
    split
    · exact .refl s
    · rename_i nexttask later _
      have hturn : Marked s { s with setscene_tids_generator := later ++ [nexttask] } ∅ ∅ :=
        .same rfl rfl rfl rfl rfl rfl rfl fun _ _ h => h
      have hone := hturn.then_same (consider_marks cfg sq w complete in_use
        nexttask { s with setscene_tids_generator := later ++ [nexttask] })
      dsimp only
      split
      · rename_i heq
        rw [heq] at hone
        exact hone
      · rename_i heq
        rw [heq] at hone
        exact hone.then_same (ih _)

variable {cfg sq w} in
theorem search_setscene_task {complete : Finset Tid} {in_use : List Stamp} {loops : Nat} {t : Tid}
    (ht : (search_setscene cfg sq w complete in_use loops s).2.task = some t) :
    (t ∉ s.sq_running ∧ s.stamps t ∉ in_use) ∧
      ((search_setscene cfg sq w complete in_use loops s).2 = .start t →
      t ∉ (search_setscene cfg sq w complete in_use loops s).1.sq_deferred.map Prod.fst) := by
  induction loops generalizing s with
  | zero => cases ht
  | succ loops ih =>
    unfold search_setscene at ht ⊢
    split at ht
    · cases ht
    · rename_i nexttask later _
      have hone := consider_marks cfg sq w complete in_use nexttask
        { s with setscene_tids_generator := later ++ [nexttask] }
      dsimp only at ht ⊢
      split at ht
      · rename_i u choice heq
        have htask := consider_task (by rw [heq]) ht
        rw [heq] at htask
        exact htask
      · rename_i u heq
        rw [heq] at hone
        have hrec := ih ht
        rw [hone.running, hone.stamps] at hrec
        simpa using hrec

variable {cfg sq w} in
theorem find_setscene_task {e : Exec Tid Stamp} {t : Tid}
    (ht : (find_setscene cfg sq w e).2.task = some t) :
    t ∉ e.scene.sq_running ∧ e.scene.stamps t ∉ e.build_stamps.map Prod.snd ∧
      can_start_task cfg e := by
  unfold find_setscene at ht
  split at ht
  · rename_i hcan
    have htask := search_setscene_task ((check_setscene_task cfg w _).symm.trans ht)
    exact ⟨htask.1.1, htask.1.2, hcan.2⟩
  · cases ht

variable {cfg sq w} in
theorem find_setscene_start {e : Exec Tid Stamp} {t : Tid}
    (ht : (find_setscene cfg sq w e).2 = .start t) :
    t ∉ (find_setscene cfg sq w e).1.sq_deferred.map Prod.fst := by
  unfold find_setscene at ht ⊢
  split at ht
  · rename_i hcan
    rw [if_pos hcan]
    have hstart := start_of_check_setscene ht
    exact (search_setscene_task (by rw [hstart]; rfl)).2 hstart
  · cases ht

theorem find_setscene_marks (e : Exec Tid Stamp) :
    Marked e.scene (find_setscene cfg sq w e).1 ∅ ∅ := by
  unfold find_setscene
  split
  · exact search_setscene_marks cfg sq w _ _ _ _
  · exact .refl _

end Search

/-! ## Migrations -/

/-- From `e` to `e'` the tasks of `M` were set back. -/
structure SetBack (e e' : Exec Tid Stamp) (M : Finset Tid) : Prop where
  covered : e'.scene.scenequeue_covered = e.scene.scenequeue_covered \ M
  notcovered : e'.scene.scenequeue_notcovered = e.scene.scenequeue_notcovered \ M
  running : e'.scene.sq_running = e.scene.sq_running \ M
  entered : ∀ t, e'.scene.entered t = if t ∈ M then 0 else e.scene.entered t
  stamps : ∀ t ∉ M, e'.scene.stamps t = e.scene.stamps t
  build_stamps : ∀ x ∈ e.build_stamps, x.1 ∉ M → x ∈ e'.build_stamps
  live : e'.scene.sq_live = e.scene.sq_live
  deferred : e'.scene.sq_deferred = e.scene.sq_deferred
  tasks_covered : e'.scene.tasks_covered = e.scene.tasks_covered
  tasks : ∃ failed, e'.tasks = { e.tasks with failed_tids := failed }
  run_stamp : e'.run_stamp = e.run_stamp
  sched_stamps : e'.sched_stamps = e.sched_stamps
  idle : ∀ t ∈ M, t ∉ e.scene.sq_live ∧ t ∉ e.tasks.runq_running

variable {e e' e'' : Exec Tid Stamp} {M M' : Finset Tid}

theorem SetBack.refl (e : Exec Tid Stamp) : SetBack e e ∅ where
  covered := (Finset.sdiff_empty).symm
  notcovered := (Finset.sdiff_empty).symm
  running := (Finset.sdiff_empty).symm
  entered := by simp
  stamps := fun _ _ => rfl
  build_stamps := fun _ h _ => h
  live := rfl
  deferred := rfl
  tasks_covered := rfl
  tasks := ⟨_, rfl⟩
  run_stamp := rfl
  sched_stamps := rfl
  idle := by simp

theorem SetBack.trans (h : SetBack e e' M) (h' : SetBack e' e'' M') :
    SetBack e e'' (M ∪ M') where
  covered := by rw [h'.covered, h.covered, sdiff_sdiff]; rfl
  notcovered := by rw [h'.notcovered, h.notcovered, sdiff_sdiff]; rfl
  running := by rw [h'.running, h.running, sdiff_sdiff]; rfl
  entered := by
    intro t
    rw [h'.entered, h.entered]
    by_cases ht : t ∈ M <;> by_cases ht' : t ∈ M' <;> simp [ht, ht']
  stamps := by
    intro t ht
    rw [Finset.mem_union, not_or] at ht
    rw [h'.stamps t ht.2, h.stamps t ht.1]
  build_stamps := by
    intro x hx ht
    rw [Finset.mem_union, not_or] at ht
    exact h'.build_stamps x (h.build_stamps x hx ht.1) ht.2
  live := h'.live.trans h.live
  deferred := h'.deferred.trans h.deferred
  tasks_covered := h'.tasks_covered.trans h.tasks_covered
  tasks := by
    obtain ⟨failed, hf⟩ := h.tasks
    obtain ⟨failed', hf'⟩ := h'.tasks
    exact ⟨failed', by rw [hf', hf]⟩
  run_stamp := h'.run_stamp.trans h.run_stamp
  sched_stamps := h'.sched_stamps.trans h.sched_stamps
  idle := by
    intro t ht
    rcases Finset.mem_union.mp ht with ht | ht
    · exact h.idle t ht
    · obtain ⟨failed, hf⟩ := h.tasks
      have hidle := h'.idle t ht
      rw [h.live, hf] at hidle
      exact hidle

theorem SetBack.of_pending {p : Finset Tid}
    (h : SetBack { e with pending_migrations := p } e' M) : SetBack e e' M :=
  { h with }

theorem set_back_spec (tid : Tid) (done : Finset Tid)
    (hidle : tid ∉ e.scene.sq_live ∧ tid ∉ e.tasks.runq_running) :
    SetBack e (set_back w tid e done) {tid} where
  covered := Finset.erase_eq _ _
  notcovered := Finset.erase_eq _ _
  running := Finset.erase_eq _ _
  entered := by
    intro t
    simp [set_back, Function.update_apply]
  stamps := by
    intro t ht
    exact Function.update_of_ne (fun h => ht (Finset.mem_singleton.mpr h)) _ _
  build_stamps := by
    intro x hx hne
    exact List.mem_filter.mpr ⟨hx, by simpa using hne⟩
  live := rfl
  deferred := rfl
  tasks_covered := rfl
  tasks := ⟨_, rfl⟩
  run_stamp := rfl
  sched_stamps := rfl
  idle := by simpa using hidle

theorem rehash_tasks_spec (e : Exec Tid Stamp) : SetBack e (rehash_tasks cfg w e).1 ∅ :=
  { SetBack.refl e with tasks := ⟨_, rfl⟩ }

theorem migrate_loop_spec (l : List Tid) (e : Exec Tid Stamp) (update_tasks : List Tid) :
    ∃ new, (migrate_loop cfg sq w l e update_tasks).2.1 = update_tasks ++ new ∧
      SetBack e (migrate_loop cfg sq w l e update_tasks).1 new.toFinset := by
  induction l generalizing e update_tasks with
  | nil => exact ⟨[], (List.append_nil _).symm, .refl e⟩
  | cons tid later ih =>
    unfold migrate_loop
    split
    · obtain ⟨new, hnew, hback⟩ := ih
        { e with pending_migrations := e.pending_migrations.erase tid } update_tasks
      exact ⟨new, hnew, hback.of_pending⟩
    · rename_i hidle
      rw [not_or] at hidle
      split
      · exact ih e update_tasks
      · dsimp only
        split
        · -- the loop returns in the middle
          refine ⟨[], (List.append_nil _).symm, ?_⟩
          exact { SetBack.refl e with tasks := ⟨_, rfl⟩ }
        · obtain ⟨new, hnew, hback⟩ := ih _ _
          refine ⟨tid :: new, by rw [hnew]; simp, ?_⟩
          rw [List.toFinset_cons, Finset.insert_eq]
          refine SetBack.trans ?_ hback
          exact (set_back_spec w tid _
            (e := { e with pending_migrations := e.pending_migrations.erase tid })
            ⟨hidle.2, hidle.1⟩).of_pending

/-- A task that migrates while a hard dependency of it is not covered. -/
def harddepfail (update_tasks : List Tid) (s : SceneState Tid Stamp) (tid : Tid) : Prop :=
  tid ∈ update_tasks ∧ ∃ t ∈ sq.sq_harddeps_rev tid, t ∈ s.scenequeue_notcovered

theorem migrate_buildable_marks (update_tasks : List Tid) (s : SceneState Tid Stamp) :
    Marked s (migrate_buildable sq update_tasks s) ∅ ∅ := by
  unfold migrate_buildable
  induction update_tasks generalizing s with
  | nil => exact .refl s
  | cons tid later ih =>
    rw [List.foldl_cons]
    refine Marked.same_then ?_ (ih _)
    split
    · exact .same rfl rfl rfl rfl rfl rfl rfl fun _ _ h => h
    · exact .refl s

theorem migrate_defer_marks (unihash : Tid → Text) (update_tasks : List Tid)
    (s : SceneState Tid Stamp) (hidle : ∀ t ∈ update_tasks, t ∉ s.sq_live) :
    Marked s (migrate_defer cfg unihash update_tasks s) ∅ ∅ := by
  unfold migrate_defer
  have hin : ∀ t ∈ cfg.mc_sorted_tids.filter (· ∈ update_tasks), t ∉ s.sq_live := by
    intro t ht
    exact hidle t (by simpa using (List.mem_filter.mp ht).2)
  generalize cfg.mc_sorted_tids.filter (· ∈ update_tasks) = l at hin
  induction l generalizing s with
  | nil => exact .refl s
  | cons tid later ih =>
    rw [List.foldl_cons]
    have hlater : ∀ t ∈ later, t ∉ s.sq_live := fun t ht => hin t (List.mem_cons_of_mem _ ht)
    have hnext := fun s1 (hone : Marked s s1 ∅ ∅) =>
      hone.same_then (ih s1 (hone.live ▸ hidle) (hone.live ▸ hlater))
    apply hnext
    split
    · split
      · refine .same rfl rfl rfl rfl rfl rfl rfl ?_
        intro t hlive ht
        rcases OrderedDict.key_set.mp ht with h | rfl
        · exact h
        · exact absurd hlive (hin t List.mem_cons_self)
      · exact .refl s
    · exact .refl s

theorem migrate_tasks_marks (unihash : Tid → Text) {update_tasks : List Tid}
    (s : SceneState Tid Stamp) (hidle : ∀ t ∈ update_tasks, t ∉ s.sq_live) :
    ∃ C N, Marked s (migrate_tasks cfg sq w unihash update_tasks s) C N ∧
      (∀ t ∈ C, t ∈ update_tasks ∧ present cfg w t) ∧
      (∀ t ∈ N, harddepfail sq update_tasks s t ∨ falls cfg w s t) := by
  have hfold : ∀ (l : List Tid) (u : SceneState Tid Stamp), ∃ N,
      Marked u (l.foldl (fun s tid => sq_task_failoutright cfg sq w tid s) u) ∅ N ∧
      ∀ t ∈ N, t ∈ l ∨ falls cfg w u t := by
    intro l
    induction l with
    | nil => exact fun u => ⟨∅, .refl u, by simp⟩
    | cons tid l ih =>
      intro u
      obtain ⟨N, hN, hfall⟩ := sq_task_failoutright_marks cfg sq w tid u
      obtain ⟨N', hN', hfall'⟩ := ih (sq_task_failoutright cfg sq w tid u)
      refine ⟨{tid} ∪ N ∪ N', by simpa using hN.trans hN', ?_⟩
      intro t ht
      rcases Finset.mem_union.mp ht with ht | ht
      · rcases Finset.mem_union.mp ht with ht | ht
        · rw [Finset.mem_singleton.mp ht]
          exact Or.inl List.mem_cons_self
        · exact Or.inr (hfall t ht)
      · rcases hfall' t ht with h | h
        · exact Or.inl (List.mem_cons_of_mem _ h)
        · refine Or.inr (falls_anti ?_ h)
          rw [hN.decided]
          exact Finset.subset_union_left
  have hbuild := migrate_buildable_marks sq update_tasks s
  have hupdate : ∃ C, Marked s (if update_tasks = [] then migrate_buildable sq update_tasks s
      else update_scenequeue_data cfg sq w update_tasks.toFinset (migrate_defer cfg unihash
        update_tasks { migrate_buildable sq update_tasks s with sqdone := false })) C ∅ ∧
      ∀ t ∈ C, t ∈ update_tasks ∧ present cfg w t := by
    split
    · exact ⟨∅, hbuild, by simp⟩
    · have hdone : Marked s { migrate_buildable sq update_tasks s with sqdone := false } ∅ ∅ :=
        hbuild.then_same (.same rfl rfl rfl rfl rfl rfl rfl fun _ _ h => h)
      have hdefer := migrate_defer_marks cfg unihash update_tasks
        { migrate_buildable sq update_tasks s with sqdone := false } (by
          rw [hdone.live]
          exact hidle)
      obtain ⟨C, hC, hpresent⟩ := update_scenequeue_data_marks cfg sq w update_tasks.toFinset
        (migrate_defer cfg unihash update_tasks
          { migrate_buildable sq update_tasks s with sqdone := false })
      refine ⟨C, (hdone.then_same hdefer).same_then hC, ?_⟩
      simpa using hpresent
  obtain ⟨C, hC, hpresent⟩ := hupdate
  obtain ⟨N, hN, hfall⟩ := hfold (update_tasks.filter fun tid =>
    ∃ t ∈ sq.sq_harddeps_rev tid, t ∈ s.scenequeue_notcovered) _
  have hboth := hC.trans hN
  rw [Finset.union_empty, Finset.empty_union] at hboth
  refine ⟨C, N, hboth, hpresent, ?_⟩
  intro t ht
  rcases hfall t ht with h | h
  · have hmem := List.mem_filter.mp h
    exact Or.inl ⟨hmem.1, by simpa using hmem.2⟩
  · refine Or.inr (falls_anti ?_ h)
    rw [hC.decided]
    exact Finset.subset_union_left

/-- The loop over the pending migrations, in the state to which `process_possible_migrations`
comes with it. -/
def migration (e : Exec Tid Stamp) : Exec Tid Stamp × List Tid × Bool :=
  migrate_loop cfg sq w (cfg.runtaskentries.filter
    (· ∈ (rehash_tasks cfg w e).1.pending_migrations)) (rehash_tasks cfg w e).1 []

def migrating (e : Exec Tid Stamp) : List Tid :=
  if (migration cfg sq w e).2.2 then (migration cfg sq w e).2.1 else []

/-- Nothing differs but the setscene part, the hashes and the state of the queue. -/
structure SameTasks (e e' : Exec Tid Stamp) : Prop where
  tasks : e'.tasks = e.tasks
  build_stamps : e'.build_stamps = e.build_stamps
  run_stamp : e'.run_stamp = e.run_stamp
  sched_stamps : e'.sched_stamps = e.sched_stamps

theorem migration_spec (e : Exec Tid Stamp) :
    SetBack e (migration cfg sq w e).1 (migration cfg sq w e).2.1.toFinset := by
  obtain ⟨new, hnew, hback⟩ := migrate_loop_spec cfg sq w (cfg.runtaskentries.filter
    (· ∈ (rehash_tasks cfg w e).1.pending_migrations)) (rehash_tasks cfg w e).1 []
  unfold migration
  rw [hnew, List.nil_append]
  simpa using (rehash_tasks_spec cfg w e).trans hback

theorem process_possible_migrations_eq {e u : Exec Tid Stamp} {update_tasks : List Tid} {ended : Bool}
    (h : migration cfg sq w e = (u, update_tasks, ended)) :
    process_possible_migrations cfg sq w e =
      if ended then
        if (rehash_tasks cfg w e).2 ∨ update_tasks ≠ [] then
          { u with scene := { migrate_tasks cfg sq w u.unihash update_tasks u.scene with
              sq_needed_harddeps := ∅, sq_harddep_deferred := ∅, holdoff_need_update := true } }
        else { u with scene := migrate_tasks cfg sq w u.unihash update_tasks u.scene }
      else u := by
  unfold migration at h
  unfold process_possible_migrations
  rcases hr : rehash_tasks cfg w e with ⟨s, changed⟩
  rw [hr] at h
  dsimp only at h ⊢
  rw [h]
  cases ended <;> rfl

theorem process_possible_migrations_spec (e : Exec Tid Stamp) :
    SameTasks (migration cfg sq w e).1 (process_possible_migrations cfg sq w e) ∧
    ∃ C N, Marked (migration cfg sq w e).1.scene (process_possible_migrations cfg sq w e).scene
        C N ∧
      (∀ t ∈ C, t ∈ migrating cfg sq w e ∧ present cfg w t) ∧
      (∀ t ∈ N, harddepfail sq (migrating cfg sq w e) (migration cfg sq w e).1.scene t ∨
        falls cfg w (migration cfg sq w e).1.scene t) := by
  have hidle : ∀ t ∈ (migration cfg sq w e).2.1, t ∉ (migration cfg sq w e).1.scene.sq_live := by
    intro t ht
    rw [(migration_spec cfg sq w e).live]
    exact ((migration_spec cfg sq w e).idle t (List.mem_toFinset.mpr ht)).1
  obtain ⟨C, N, hmarks, hC, hN⟩ := migrate_tasks_marks cfg sq w (migration cfg sq w e).1.unihash
    (migration cfg sq w e).1.scene hidle
  rcases hmigration : migration cfg sq w e with ⟨u, update_tasks, ended⟩
  rw [process_possible_migrations_eq cfg sq w hmigration]
  unfold migrating
  rw [hmigration] at hmarks hC hN ⊢
  cases ended with
  | false => exact ⟨⟨rfl, rfl, rfl, rfl⟩, ∅, ∅, .refl _, by simp, by simp⟩
  | true =>
    rw [if_pos rfl]
    split
    · refine ⟨⟨rfl, rfl, rfl, rfl⟩, C, N, hmarks.then_same ?_, hC, hN⟩
      exact .same rfl rfl rfl rfl rfl rfl rfl fun _ _ h => h
    · exact ⟨⟨rfl, rfl, rfl, rfl⟩, C, N, hmarks, hC, hN⟩

/-! ## The parts of `execute` -/

/-- There is something to run for the task, and it may run. -/
def HasWork (e : Exec Tid Stamp) (task : Tid) : Prop :=
  ¬ check_setscene_ignore_tasks cfg w e task ∧ task ∉ e.scene.tasks_covered ∧
    w.stamp_current task = false ∧ cfg.noexec task = false

instance (e : Exec Tid Stamp) (task : Tid) : Decidable (HasWork cfg w e task) :=
  inferInstanceAs (Decidable (_ ∧ _))

/-- What `execute` does with a task that it takes from the scheduler. -/
inductive Ran (task : Tid) (e : Exec Tid Stamp) : Exec Tid Stamp → Prop
  | ignored : check_setscene_ignore_tasks cfg w e task → Ran task e (task_fail cfg task e)
  | covered : task ∈ e.scene.tasks_covered → Ran task e (task_skip cfg sq w task e)
  | existing {u : Exec Tid Stamp} : w.stamp_current task → u = task_skip cfg sq w task e →
      Ran task e { u with tasks := { u.tasks with
        runq_tasksrun := insert task u.tasks.runq_tasksrun } }
  | noexec : cfg.noexec task → Ran task e (run_noexec cfg sq w task e)
  | unspawned : HasWork cfg w e task → spawn_fails cfg w task →
      Ran task e { e with
        state := .runQueueFailed
        tasks := { e.tasks with stats := e.tasks.stats.taskFailed } }
  | started : HasWork cfg w e task → ¬ spawn_fails cfg w task → Ran task e (start_task w task e)

theorem run_task_ran (task : Tid) (e : Exec Tid Stamp) :
    Ran cfg sq w task e (run_task cfg sq w task e).1 := by
  unfold run_task
  by_cases hignored : check_setscene_ignore_tasks cfg w e task
  · rw [if_pos hignored]
    exact .ignored hignored
  · rw [if_neg hignored]
    by_cases hcovered : task ∈ e.scene.tasks_covered
    · rw [if_pos hcovered]
      exact .covered hcovered
    · rw [if_neg hcovered]
      by_cases hstamp : w.stamp_current task = true
      · rw [if_pos hstamp]
        exact .existing hstamp rfl
      · rw [if_neg hstamp]
        by_cases hnoexec : cfg.noexec task = true
        · rw [if_pos hnoexec]
          exact .noexec hnoexec
        · rw [if_neg hnoexec]
          have hwork : HasWork cfg w e task :=
            ⟨hignored, hcovered, by simpa using hstamp, by simpa using hnoexec⟩
          by_cases hspawn : spawn_fails cfg w task
          · rw [if_pos hspawn]
            exact .unspawned hwork hspawn
          · rw [if_neg hspawn]
            exact .started hwork hspawn

/-- The setscene tasks at a worker are the same, and so are all stamps. -/
structure SameStamps (e e' : Exec Tid Stamp) : Prop where
  sq_live : e'.scene.sq_live = e.scene.sq_live
  stamps : e'.scene.stamps = e.scene.stamps
  build_stamps : e'.build_stamps = e.build_stamps
  run_stamp : e'.run_stamp = e.run_stamp
  sched_stamps : e'.sched_stamps = e.sched_stamps

omit [DecidableEq Tid] in
theorem SameStamps.refl (e : Exec Tid Stamp) : SameStamps e e := ⟨rfl, rfl, rfl, rfl, rfl⟩

theorem update_holdofftasks_same (e : Exec Tid Stamp) :
    SameStamps e (update_holdofftasks cfg sq e) := by
  unfold update_holdofftasks
  split
  · exact .refl e
  · exact ⟨rfl, rfl, rfl, rfl, rfl⟩

theorem scene_done_same (e : Exec Tid Stamp) : SameStamps e (scene_done cfg e).1 := by
  unfold scene_done
  split
  · split
    · exact ⟨rfl, rfl, rfl, rfl, rfl⟩
    · split
      · exact ⟨rfl, rfl, rfl, rfl, rfl⟩
      · dsimp only
        split <;> exact ⟨rfl, rfl, rfl, rfl, rfl⟩
  · exact .refl e

theorem wind_up_same (e : Exec Tid Stamp) : SameStamps e (wind_up cfg e) := by
  unfold wind_up
  split
  · exact .refl e
  · split
    · exact ⟨rfl, rfl, rfl, rfl, rfl⟩
    · split
      · exact ⟨rfl, rfl, rfl, rfl, rfl⟩
      · split <;> exact ⟨rfl, rfl, rfl, rfl, rfl⟩

theorem task_skip_same (task : Tid) (e : Exec Tid Stamp) :
    SameStamps e (task_skip cfg sq w task e) := by
  obtain ⟨C, hC, -⟩ := release_deferred_marks cfg sq w task e.scene
  exact ⟨hC.live, hC.stamps, rfl, rfl, rfl⟩

theorem task_complete_same (task : Tid) (e : Exec Tid Stamp) :
    SameStamps e (task_complete cfg sq w task e) := by
  obtain ⟨C, hC, -⟩ := release_deferred_marks cfg sq w task e.scene
  exact ⟨hC.live, hC.stamps, rfl, rfl, rfl⟩

variable [DecidableEq Stamp]

variable {cfg w} in
theorem sched_next_spec {task : Tid} (h : sched_next cfg w e = some (some task)) :
    can_start_task cfg e ∧ task ∈ candidates e ∧ ¬ stamp_in_use e task := by
  unfold sched_next at h
  split at h
  · rename_i hcan
    unfold next_buildable_task at h
    have hstartable : ∀ l : List Tid, l.find? (fun t => t ∈ (candidates e).filter fun tid =>
        ¬ too_many_threads cfg e tid ∧ ¬ stamp_in_use e tid) = some task →
        can_start_task cfg e ∧ task ∈ candidates e ∧ ¬ stamp_in_use e task := by
      intro l hl
      have hin := List.find?_some hl
      simp only [Finset.mem_filter, decide_eq_true_eq] at hin
      exact ⟨hcan, hin.1, hin.2.2⟩
    split at h
    · cases h
    · split at h
      · cases h
      · dsimp only at h
        split at h
        · cases h
        · split at h
          · exact hstartable _ (Option.some.inj h)
          · split at h
            · exact hstartable _ (Option.some.inj h)
            · cases h
  · cases h

theorem first_parts_keep {I : Exec Tid Stamp → Prop} (e : Exec Tid Stamp)
    (hmigrated : I (migrated cfg sq w e))
    (hscene : I (migrated cfg sq w e) → I (setscene_part cfg sq w (migrated cfg sq w e)).1)
    (hhold : ∀ u, I u → I (update_holdofftasks cfg sq u))
    (hdone : ∀ u, I u → I (scene_done cfg u).1) : I (first_parts cfg sq w e).1 := by
  have hpart := hscene hmigrated
  unfold first_parts
  split
  · rename_i heq
    rw [heq] at hpart
    exact hpart
  · rename_i heq
    rw [heq] at hpart
    exact hdone _ (hhold _ hpart)

variable {cfg sq w} in
theorem execute_ends {I : Exec Tid Stamp → Prop} (h : execute cfg sq w e = some e')
    (hfirst : I (first_parts cfg sq w e).1)
    (hrun : (first_parts cfg sq w e).2 = false → cfg.setsceneonly = false →
      ∀ task, sched_next cfg w (first_parts cfg sq w e).1 = some (some task) →
        I (run_task cfg sq w task (first_parts cfg sq w e).1).1)
    (hwind : ∀ u, I u → I (wind_up cfg u)) : I e' := by
  unfold execute at h
  split at h
  · rename_i heq
    rw [heq] at hfirst
    rw [← Option.some.inj h]
    exact hfirst
  · rename_i u heq
    rw [heq] at hfirst hrun
    unfold normal_part at h
    split at h
    · cases h
    · rw [← Option.some.inj h]
      exact hwind _ hfirst
    · rename_i task hnext
      split at hnext
      · cases hnext
      rename_i honly
      have hran := hrun rfl (by simpa using honly) task hnext
      split at h
      · rename_i heq'
        rw [heq'] at hran
        rw [← Option.some.inj h]
        exact hran
      · rename_i heq'
        rw [heq'] at hran
        rw [← Option.some.inj h]
        exact hwind _ hran

end yocto.runqueue
