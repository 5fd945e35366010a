-- The priorities of the completion scheduler (runqueue.py).
import Yocto.InsertAfter
import Yocto.OrderedDict
import Yocto.TaskIds

open yocto.task_ids yocto.ordered_dict yocto.insertions

namespace yocto.completion_order

/-! ## The scheduler -/

/-- A task id, cut at its last colon: `taskid.rsplit(':', 1)`. -/
structure TaskId where
  fn : Text
  taskname : Text
  deriving DecidableEq

/-- The task names of each recipe, in the order of the priorities. -/
def task_lists (prio_map : List TaskId) : OrderedDict Text (List Text) :=
  OrderedDict.group TaskId.fn TaskId.taskname prio_map

/-- The state of the merge: the list, the index in it, and the name there. -/
structure Merge where
  all_tasks : List Text
  index : Nat
  old_task : Option Text

def merge_task (s : Merge) (new_task : Text) : Merge :=
  if s.old_task = some new_task then ⟨s.all_tasks, s.index + 1, s.all_tasks[s.index + 1]?⟩
  else match s.all_tasks.idxOf? new_task with
    | some index => ⟨s.all_tasks, index + 1, s.all_tasks[index + 1]?⟩
    | none => ⟨s.all_tasks.insertIdx s.index new_task, s.index + 1, s.old_task⟩

def merge_recipe (all_tasks new_tasks : List Text) : List Text :=
  (new_tasks.foldl merge_task ⟨all_tasks, 0, all_tasks[0]?⟩).all_tasks

def merge_recipes (lists : List (List Text)) : List Text := lists.foldl merge_recipe []

/-- One place of the priorities, while the tasks of one name are moved to the front. -/
def move_task (task : Text) (acc : List TaskId × Nat) (index : Nat) : List TaskId × Nat :=
  match acc.1[index]? with
  | none => acc
  | some taskid =>
    if taskid.taskname = task then ((acc.1.eraseIdx index).insertIdx acc.2 taskid, acc.2 + 1) else acc

/-- The loop over `range(task_index, self.numTasks)`. -/
def move_tasks (numTasks : Nat) (acc : List TaskId × Nat) (task : Text) : List TaskId × Nat :=
  (List.range' acc.2 (numTasks - acc.2)).foldl (move_task task) acc

/-- `RunQueueSchedulerCompletion`, from the priorities of the speed scheduler on: the merged list and
the final priorities. -/
def completion (prio_map : List TaskId) : List Text × List TaskId :=
  let all_tasks := merge_recipes ((task_lists prio_map).map Prod.snd)
  (all_tasks, (all_tasks.reverse.foldl (move_tasks prio_map.length) (prio_map, 0)).1)

/-! ## The merge -/

/-- The first appearances of the names of a recipe, the newest first, each with the name before it in
the recipe. -/
def appear (known : List (Text × Option Text)) (before : Option Text) :
    List Text → List (Text × Option Text)
  | [] => known
  | y :: behind =>
    appear (if y ∈ known.map Prod.fst then known else (y, before) :: known) (some y) behind

def appearances (lists : List (List Text)) : List (Text × Option Text) :=
  lists.foldl (fun known new_tasks => appear known none new_tasks) []

/-- The merge has passed a part of the list, and the last name of it is the last one of the recipe. -/
structure Passed (s : Merge) (a b : List Text) : Prop where
  all_tasks : s.all_tasks = a ++ b
  index : s.index = a.length
  old_task : s.old_task = b.head?

theorem Passed.start (l : List Text) : Passed ⟨l, 0, l[0]?⟩ [] l :=
  ⟨rfl, rfl, List.head?_eq_getElem?.symm⟩

theorem insertIdx_length {α : Type} (a b : List α) (y : α) : (a ++ b).insertIdx a.length y = a ++ y :: b := by
  induction a with
  | nil => rfl
  | cons x a ih => exact congrArg (x :: ·) ih

theorem Passed.insert {s : Merge} {a b : List Text} (h : Passed s a b) {y : Text} (hy : y ∉ a ++ b) :
    Passed (merge_task s y) (a ++ [y]) b := by
  have hold : s.old_task ≠ some y := by
    rw [h.old_task]
    intro hhead
    exact hy (List.mem_append_right a (List.mem_of_head? hhead))
  have hnone : (a ++ b).idxOf? y = none := List.idxOf?_eq_none_iff.mpr hy
  unfold merge_task
  rw [if_neg hold, h.all_tasks, hnone, h.index]
  refine ⟨?_, by simp, h.old_task⟩
  rw [insertIdx_length]
  simp

theorem Passed.skip {s : Merge} {a b a' b' : List Text} (h : Passed s a b) {y : Text}
    (hsame : a ++ b = a' ++ y :: b') (hnodup : (a ++ b).Nodup) :
    Passed (merge_task s y) (a' ++ [y]) b' := by
  have hy : y ∉ a' := by
    rw [hsame] at hnodup
    exact fun hy => (List.nodup_cons.mp (List.nodup_middle.mp hnodup)).1 (List.mem_append_left b' hy)
  have hnext : (a ++ b)[a'.length + 1]? = b'.head? := by
    rw [hsame, List.getElem?_append_right (by omega), Nat.add_sub_cancel_left, List.getElem?_cons_succ,
      List.head?_eq_getElem?]
  unfold merge_task
  split
  · rename_i hold
    -- the place that is reached is the one of the name
    have hindex : a.length = a'.length := by
      rw [h.old_task, List.head?_eq_getElem?] at hold
      have hthere : (a ++ b)[a.length]? = some y := by
        rw [List.getElem?_append_right (Nat.le_refl _), Nat.sub_self, hold]
      have hthere' : (a ++ b)[a'.length]? = some y := by
        rw [hsame, List.getElem?_append_right (Nat.le_refl _), Nat.sub_self, List.getElem?_cons_zero]
      have hlt : a.length < (a ++ b).length := (List.getElem?_eq_some_iff.mp hthere).1
      exact (List.getElem?_inj hlt hnodup).mp (hthere.trans hthere'.symm)
    refine ⟨?_, ?_, ?_⟩
    · rw [h.all_tasks, hsame]
      simp
    · rw [h.index, hindex]
      simp
    · rw [h.all_tasks, h.index, hindex, hnext]
  · have hfound : s.all_tasks.idxOf? y = some a'.length := by
      rw [h.all_tasks, hsame, List.idxOf?_eq_some_iff]
      refine ⟨by simp, by simp, fun j hj => ?_⟩
      rw [List.getElem_append_left hj]
      intro heq
      exact hy (by simpa using heq ▸ List.getElem_mem hj)
    rw [hfound]
    refine ⟨?_, by simp, ?_⟩
    · rw [h.all_tasks, hsame]
      simp
    · dsimp only
      rw [h.all_tasks, hnext]

theorem merge_step {known : List (Text × Option Text)} (hknown : Anchored known) {s : Merge}
    {a b : List Text} (h : Passed s a b) (hgrown : grown known = a ++ b) (y : Text) :
    ∃ a' b', Passed (merge_task s y) (a' ++ [y]) b' ∧
      Anchored (if y ∈ known.map Prod.fst then known else (y, a.getLast?) :: known) ∧
      grown (if y ∈ known.map Prod.fst then known else (y, a.getLast?) :: known) = (a' ++ [y]) ++ b' ∧
      if y ∈ known.map Prod.fst then a ++ b = a' ++ y :: b' else a' = a ∧ b' = b := by
  have hnodup : (a ++ b).Nodup := hgrown ▸ hknown.nodup
  by_cases hy : y ∈ known.map Prod.fst
  · have hmem : y ∈ a ++ b := by rwa [← hgrown, mem_grown hknown]
    obtain ⟨a', b', hsplit⟩ := List.append_of_mem hmem
    refine ⟨a', b', h.skip hsplit hnodup, ?_, ?_, ?_⟩
    · rwa [if_pos hy]
    · rw [if_pos hy, hgrown, hsplit]
      simp
    · rwa [if_pos hy]
  · have hnot : y ∉ a ++ b := by rwa [← hgrown, mem_grown hknown]
    refine ⟨a, b, h.insert hnot, ?_, ?_, ?_⟩
    · rw [if_neg hy]
      refine ⟨hy, fun q hq => ?_, hknown⟩
      rw [← mem_grown hknown, hgrown]
      exact List.mem_append_left b (List.mem_of_getLast? hq)
    · rw [if_neg hy, grown, hgrown, insert_after_last hnodup]
      simp
    · rw [if_neg hy]
      exact ⟨rfl, rfl⟩

theorem appear_anchored {known : List (Text × Option Text)} (hknown : Anchored known) {s : Merge}
    {a b : List Text} (h : Passed s a b) (hgrown : grown known = a ++ b) (new_tasks : List Text) :
    Anchored (appear known a.getLast? new_tasks) ∧
      (new_tasks.foldl merge_task s).all_tasks = grown (appear known a.getLast? new_tasks) := by
  induction new_tasks generalizing known s a b with
  | nil => exact ⟨hknown, h.all_tasks.trans hgrown.symm⟩
  | cons y rest ih =>
    obtain ⟨a', b', hpassed, hanchored, hsplit, _⟩ := merge_step hknown h hgrown y
    have hlast : (a' ++ [y]).getLast? = some y := List.getLast?_concat
    have hrest := ih hanchored hpassed hsplit
    rw [hlast] at hrest
    exact hrest

theorem merge_recipe_grown {known : List (Text × Option Text)} (hknown : Anchored known)
    (new_tasks : List Text) :
    Anchored (appear known none new_tasks) ∧
      merge_recipe (grown known) new_tasks = grown (appear known none new_tasks) :=
  appear_anchored hknown (Passed.start (grown known)) rfl new_tasks

theorem merge_recipes_grown (lists : List (List Text)) :
    Anchored (appearances lists) ∧ merge_recipes lists = grown (appearances lists) := by
  induction lists using List.reverseRecOn with
  | nil => exact ⟨trivial, rfl⟩
  | append_singleton lists new_tasks ih =>
    have hlists : appearances (lists ++ [new_tasks]) = appear (appearances lists) none new_tasks := by
      simp [appearances]
    have hmerge : merge_recipes (lists ++ [new_tasks]) = merge_recipe (merge_recipes lists) new_tasks := by
      simp [merge_recipes]
    rw [hlists, hmerge, ih.2]
    exact merge_recipe_grown ih.1 new_tasks

/-! ## The order within a recipe -/

theorem appear_names (known : List (Text × Option Text)) (before : Option Text) (new_tasks : List Text)
    (x : Text) : x ∈ (appear known before new_tasks).map Prod.fst ↔
      x ∈ known.map Prod.fst ∨ x ∈ new_tasks := by
  induction new_tasks generalizing known before with
  | nil => simp [appear]
  | cons y rest ih =>
    rw [appear, ih]
    by_cases hy : y ∈ known.map Prod.fst
    · rw [if_pos hy, List.mem_cons]
      constructor
      · tauto
      · rintro (h | rfl | h)
        · exact Or.inl h
        · exact Or.inl hy
        · exact Or.inr h
    · rw [if_neg hy, List.map_cons, List.mem_cons, List.mem_cons]
      tauto

theorem appearances_names (lists : List (List Text)) (x : Text) :
    x ∈ (appearances lists).map Prod.fst ↔ x ∈ lists.flatten := by
  induction lists using List.reverseRecOn with
  | nil => simp [appearances]
  | append_singleton lists new_tasks ih =>
    have hlists : appearances (lists ++ [new_tasks]) = appear (appearances lists) none new_tasks := by
      simp [appearances]
    rw [hlists, appear_names, ih]
    simp

theorem mem_merge_recipes (lists : List (List Text)) (x : Text) :
    x ∈ merge_recipes lists ↔ x ∈ lists.flatten := by
  rw [(merge_recipes_grown lists).2, mem_grown (merge_recipes_grown lists).1, appearances_names]

theorem filter_grown {known : List (Text × Option Text)} {l : List Text} (hknown : Anchored known)
    (hl : ∀ x ∈ l, x ∈ known.map Prod.fst) (new_tasks : List Text) :
    (merge_recipe (grown known) new_tasks).filter (fun x => decide (x ∈ l)) =
      (grown known).filter (fun x => decide (x ∈ l)) := by
  have hfold : ∀ (known : List (Text × Option Text)) (s : Merge) (a b : List Text), Anchored known →
      Passed s a b → grown known = a ++ b → (∀ x ∈ l, x ∈ known.map Prod.fst) →
      ((new_tasks.foldl merge_task s).all_tasks).filter (fun x => decide (x ∈ l)) =
        (a ++ b).filter (fun x => decide (x ∈ l)) := by
    induction new_tasks with
    | nil =>
      intro known s a b _ h _ _
      rw [List.foldl_nil, h.all_tasks]
    | cons y rest ih =>
      intro known s a b hanchored h hgrown hl
      have hnodup : (a ++ b).Nodup := hgrown ▸ hanchored.nodup
      obtain ⟨a', b', hpassed, hanchored', hsplit, _⟩ := merge_step hanchored h hgrown y
      rw [List.foldl_cons, ih _ _ _ _ hanchored' hpassed hsplit ?_]
      · rw [← hsplit, ← hgrown]
        by_cases hy : y ∈ known.map Prod.fst
        · rw [if_pos hy]
        · have hyl : y ∉ l := fun h => hy (hl y h)
          rw [if_neg hy, grown, hgrown, insert_after_last hnodup, List.filter_append, List.filter_cons,
            if_neg (by simpa using hyl), ← List.filter_append]
      · intro x hx
        by_cases hy : y ∈ known.map Prod.fst
        · rw [if_pos hy]
          exact hl x hx
        · rw [if_neg hy]
          exact List.mem_cons_of_mem _ (hl x hx)
  exact hfold known _ [] (grown known) hknown (Passed.start _) rfl hl

theorem recipe_in_order {known : List (Text × Option Text)} (hknown : Anchored known)
    {new_tasks : List Text} (hnodup : new_tasks.Nodup)
    (h : (new_tasks.filter fun x => decide (x ∈ known.map Prod.fst)).Sublist (grown known)) :
    new_tasks.Sublist (merge_recipe (grown known) new_tasks) := by
  have hfold : ∀ (known : List (Text × Option Text)) (s : Merge) (done a b : List Text),
      Anchored known → Passed s a b → grown known = a ++ b → done.Sublist a →
      (new_tasks.filter fun x => decide (x ∈ known.map Prod.fst)).Sublist b →
      (done ++ new_tasks).Sublist (new_tasks.foldl merge_task s).all_tasks := by
    clear h
    induction new_tasks with
    | nil =>
      intro known s done a b _ hs _ hdone _
      rw [List.append_nil, List.foldl_nil, hs.all_tasks]
      exact hdone.trans (List.sublist_append_left a b)
    | cons y rest ih =>
      intro known s done a b hanchored hs hgrown hdone hrest
      rw [List.nodup_cons] at hnodup
      obtain ⟨a', b', hpassed, hanchored', hsplit, hplace⟩ := merge_step hanchored hs hgrown y
      have hnext : done ++ y :: rest = (done ++ [y]) ++ rest := by simp
      rw [List.foldl_cons, hnext]
      by_cases hy : y ∈ known.map Prod.fst
      · rw [if_pos hy] at hsplit hanchored' hplace
        rw [List.filter_cons, if_pos (by simpa using hy)] at hrest
        -- the name stands behind the part that is passed, and what is left behind the name
        obtain ⟨r₁, r₂, rfl, hmem, hsub⟩ := List.cons_sublist_iff.mp hrest
        obtain ⟨c, d, rfl⟩ := List.append_of_mem hmem
        have hlist : (a ++ c) ++ y :: (d ++ r₂) = a' ++ y :: b' := by
          rw [← hplace]
          simp
        have hnot : y ∉ a' ∧ y ∉ b' := by
          have hall : (a' ++ y :: b').Nodup := by
            rw [← hplace, ← hgrown]
            exact hanchored.nodup
          have := (List.nodup_cons.mp (List.nodup_middle.mp hall)).1
          rwa [List.mem_append, not_or] at this
        obtain ⟨rfl, _, rfl⟩ := (List.append_cons_inj_of_notMem hnot.1 hnot.2).mp hlist.symm
        refine ih hnodup.2 known _ (done ++ [y]) _ _ hanchored' hpassed hsplit ?_ ?_
        · exact (hdone.trans (List.sublist_append_left a c)).append (List.Sublist.refl [y])
        · exact hsub.trans (List.sublist_append_right d r₂)
      · rw [if_neg hy] at hplace
        obtain ⟨rfl, rfl⟩ := hplace
        rw [List.filter_cons, if_neg (by simpa using hy)] at hrest
        refine ih hnodup.2 _ _ (done ++ [y]) _ _ hanchored' hpassed hsplit ?_ ?_
        · exact hdone.append (List.Sublist.refl [y])
        · rw [if_neg hy]
          have hsame : rest.filter (fun x => decide (x ∈ ((y, a'.getLast?) :: known).map Prod.fst)) =
              rest.filter fun x => decide (x ∈ known.map Prod.fst) := by
            refine List.filter_congr fun x hx => ?_
            have hne : x ≠ y := fun heq => hnodup.1 (heq ▸ hx)
            simp [hne]
          rw [hsame]
          exact hrest
  have hstart := hfold known _ [] [] (grown known) hknown (Passed.start _) rfl (List.Sublist.refl [])
    (by simpa using h)
  exact hstart

theorem merge_recipes_nodup (lists : List (List Text)) : (merge_recipes lists).Nodup := by
  rw [(merge_recipes_grown lists).2]
  exact (merge_recipes_grown lists).1.nodup

theorem merge_recipes_concat (lists : List (List Text)) (new_tasks : List Text) :
    merge_recipes (lists ++ [new_tasks]) = merge_recipe (merge_recipes lists) new_tasks := by
  simp [merge_recipes]

theorem filter_merge_recipes (lists more : List (List Text)) :
    (merge_recipes (lists ++ more)).filter (fun x => decide (x ∈ merge_recipes lists)) =
      merge_recipes lists := by
  induction more using List.reverseRecOn with
  | nil =>
    rw [List.append_nil]
    exact List.filter_eq_self.mpr fun x hx => decide_eq_true hx
  | append_singleton more new_tasks ih =>
    have hgrown := merge_recipes_grown (lists ++ more)
    rw [← List.append_assoc, merge_recipes_concat, hgrown.2, filter_grown hgrown.1, ← hgrown.2, ih]
    intro x hx
    rw [appearances_names]
    rw [mem_merge_recipes] at hx
    simp only [List.flatten_append, List.mem_append]
    exact Or.inl hx

/-- Every two names of a recipe that earlier recipes have come in its order by their first
appearances there: each name goes right behind the one before it in the recipe where it first appears,
in front of what went there before. -/
def InOrder (lists : List (List Text)) : Prop :=
  ∀ earlier new_tasks later, lists = earlier ++ new_tasks :: later → ∀ x y, [x, y].Sublist new_tasks →
    x ∈ earlier.flatten → y ∈ earlier.flatten → Before (appearances earlier) x y

theorem recipe_in_order_iff (earlier later : List (List Text)) {new_tasks : List Text}
    (hnodup : new_tasks.Nodup) :
    new_tasks.Sublist (merge_recipes (earlier ++ new_tasks :: later)) ↔
      ∀ x y, [x, y].Sublist new_tasks → x ∈ earlier.flatten → y ∈ earlier.flatten →
        Before (appearances earlier) x y := by
  have hgrown := merge_recipes_grown earlier
  have hpair := (grown_spec hgrown.1).2.2
  have hlists : earlier ++ new_tasks :: later = (earlier ++ [new_tasks]) ++ later := by simp
  have hlater := filter_merge_recipes (earlier ++ [new_tasks]) later
  have hown := filter_merge_recipes earlier [new_tasks]
  have hall : ∀ x ∈ new_tasks, x ∈ merge_recipes (earlier ++ [new_tasks]) := by
    intro x hx
    rw [mem_merge_recipes]
    simp [hx]
  rw [hlists]
  constructor
  · intro h x y hxy hx hy
    have hthere := h.filter fun z => decide (z ∈ merge_recipes (earlier ++ [new_tasks]))
    rw [hlater, List.filter_eq_self.mpr fun z hz => decide_eq_true (hall z hz)] at hthere
    have hknown := (hxy.trans hthere).filter fun z => decide (z ∈ merge_recipes earlier)
    rw [hown, List.filter_eq_self.mpr] at hknown
    · rw [hgrown.2, hpair] at hknown
      exact hknown
    · intro z hz
      rw [decide_eq_true_iff, mem_merge_recipes]
      rcases List.mem_cons.mp hz with rfl | hz
      · exact hx
      · rw [List.mem_singleton.mp hz]
        exact hy
  · intro h
    have hknown : (new_tasks.filter fun x => decide (x ∈ (appearances earlier).map Prod.fst)).Sublist
        (grown (appearances earlier)) := by
      refine sublist_of_pairs hgrown.1.nodup (hnodup.filter _) (fun x hx => ?_) fun x y hxy => ?_
      · rw [mem_grown hgrown.1]
        simpa using (List.mem_filter.mp hx).2
      · have hmem : ∀ z ∈ [x, y], z ∈ earlier.flatten := by
          intro z hz
          rw [← appearances_names]
          simpa using (List.mem_filter.mp (hxy.subset hz)).2
        rw [hpair]
        exact h x y (hxy.trans List.filter_sublist) (hmem x (by simp)) (hmem y (by simp))
    have hmerged := recipe_in_order hgrown.1 hnodup hknown
    rw [← hgrown.2, ← merge_recipes_concat] at hmerged
    rw [← hlater] at hmerged
    exact hmerged.trans List.filter_sublist

theorem respects_iff (lists : List (List Text)) (hnodup : ∀ new_tasks ∈ lists, new_tasks.Nodup) :
    (∀ new_tasks ∈ lists, new_tasks.Sublist (merge_recipes lists)) ↔ InOrder lists := by
  constructor
  · rintro h earlier new_tasks later rfl
    exact (recipe_in_order_iff earlier later (hnodup new_tasks (by simp))).mp (h new_tasks (by simp))
  · intro h new_tasks hmem
    obtain ⟨earlier, later, rfl⟩ := List.append_of_mem hmem
    exact (recipe_in_order_iff earlier later (hnodup new_tasks hmem)).mpr (h earlier new_tasks later rfl)

/-! ## The groups -/

theorem move_task_split (task : Text) (done skipped behind : List TaskId) :
    ((List.range' (done.length + skipped.length) behind.length).foldl (move_task task)
        (done ++ skipped ++ behind, done.length)) =
      (done ++ behind.filter (fun tid => decide (tid.taskname = task)) ++ skipped ++
          behind.filter (fun tid => !decide (tid.taskname = task)),
        done.length + (behind.filter fun tid => decide (tid.taskname = task)).length) := by
  induction behind generalizing done skipped with
  | nil => simp
  | cons tid behind ih =>
    have hplace : (done ++ skipped ++ tid :: behind)[done.length + skipped.length]? = some tid := by
      rw [List.getElem?_append_right (by simp)]
      simp
    rw [List.length_cons, List.range'_succ, List.foldl_cons, move_task]
    simp only [hplace]
    by_cases htask : tid.taskname = task
    · have herase : (done ++ skipped ++ tid :: behind).eraseIdx (done.length + skipped.length) =
          done ++ (skipped ++ behind) := by
        rw [List.eraseIdx_append_of_length_le (by simp)]
        simp
      have hinsert : (done ++ (skipped ++ behind)).insertIdx done.length tid =
          (done ++ [tid]) ++ skipped ++ behind := by
        rw [insertIdx_length]
        simp
      have hih := ih (done ++ [tid]) skipped
      rw [List.length_append, List.length_singleton, Nat.add_right_comm] at hih
      rw [if_pos htask, herase, hinsert, hih]
      simp [htask]
      omega
    · have hih := ih done (skipped ++ [tid])
      rw [List.length_append, List.length_singleton, ← Nat.add_assoc] at hih
      have hsplit : done ++ skipped ++ tid :: behind = done ++ (skipped ++ [tid]) ++ behind := by simp
      rw [if_neg htask, hsplit, hih]
      simp [htask]

theorem move_tasks_split (done behind : List TaskId) (task : Text) {numTasks : Nat}
    (hnum : numTasks = done.length + behind.length) :
    move_tasks numTasks (done ++ behind, done.length) task =
      ((done ++ behind.filter (fun tid => decide (tid.taskname = task))) ++
          behind.filter (fun tid => !decide (tid.taskname = task)),
        (done ++ behind.filter fun tid => decide (tid.taskname = task)).length) := by
  have hsplit := move_task_split task done [] behind
  unfold move_tasks
  rw [hnum, Nat.add_sub_cancel_left]
  simpa using hsplit

theorem move_names (names : List Text) (hnodup : names.Nodup) (done behind : List TaskId) {numTasks : Nat}
    (hnum : numTasks = done.length + behind.length) :
    (names.foldl (move_tasks numTasks) (done ++ behind, done.length)).1 =
      done ++ names.flatMap (fun task => behind.filter fun tid => decide (tid.taskname = task)) ++
        behind.filter fun tid => !decide (tid.taskname ∈ names) := by
  induction names generalizing done behind with
  | nil => simp
  | cons task names ih =>
    rw [List.nodup_cons] at hnodup
    have hlen : numTasks = (done ++ behind.filter fun tid => decide (tid.taskname = task)).length +
        (behind.filter fun tid => !decide (tid.taskname = task)).length := by
      have := (List.filter_append_perm (fun tid : TaskId => decide (tid.taskname = task)) behind).length_eq
      rw [List.length_append] at this
      rw [hnum, List.length_append, ← this]
      omega
    rw [List.foldl_cons, move_tasks_split done behind task hnum, ih hnodup.2 _ _ hlen, List.flatMap_cons]
    have hgroups : ∀ other ∈ names,
        (behind.filter fun tid => !decide (tid.taskname = task)).filter (fun tid => decide (tid.taskname = other)) =
          behind.filter fun tid => decide (tid.taskname = other) := by
      intro other hother
      rw [List.filter_filter]
      refine List.filter_congr fun tid _ => ?_
      by_cases heq : tid.taskname = other
      · have hne : tid.taskname ≠ task := fun h => hnodup.1 (h ▸ heq ▸ hother)
        simp [heq, heq ▸ hne]
      · simp [heq]
    have hrest : (behind.filter fun tid => !decide (tid.taskname = task)).filter
        (fun tid => !decide (tid.taskname ∈ names)) =
          behind.filter fun tid => !decide (tid.taskname ∈ task :: names) := by
      rw [List.filter_filter]
      refine List.filter_congr fun tid _ => ?_
      by_cases htask : tid.taskname = task
      · simp [htask]
      · by_cases hname : tid.taskname ∈ names <;> simp [htask, hname]
    rw [List.flatMap_congr hgroups, hrest]
    simp

theorem move_names_perm (names : List Text) (done behind : List TaskId) {numTasks : Nat}
    (hnum : numTasks = done.length + behind.length) :
    (names.foldl (move_tasks numTasks) (done ++ behind, done.length)).1.Perm (done ++ behind) := by
  induction names generalizing done behind with
  | nil => exact List.Perm.refl _
  | cons task names ih =>
    have hperm := List.filter_append_perm (fun tid : TaskId => decide (tid.taskname = task)) behind
    have hlen := hperm.length_eq
    rw [List.length_append] at hlen
    rw [List.foldl_cons, move_tasks_split done behind task hnum]
    refine (ih _ _ ?_).trans ?_
    · rw [List.length_append]
      omega
    · rw [List.append_assoc]
      exact hperm.append_left done

/-! ## The lists of the recipes -/

def recipe_lists (prio_map : List TaskId) : List (List Text) := (task_lists prio_map).map Prod.snd

theorem recipe_lists_nodup {prio_map : List TaskId} (h : prio_map.Nodup) :
    ∀ new_tasks ∈ recipe_lists prio_map, new_tasks.Nodup := by
  intro new_tasks hmem
  obtain ⟨x, hx, rfl⟩ := List.mem_map.mp hmem
  rw [OrderedDict.mem_group hx]
  refine (h.filter _).map_on fun a ha b hb heq => ?_
  have hafn : a.fn = x.1 := by simpa using (List.mem_filter.mp ha).2
  have hbfn : b.fn = x.1 := by simpa using (List.mem_filter.mp hb).2
  cases a
  cases b
  simp_all

theorem mem_recipe_lists {prio_map : List TaskId} {tid : TaskId} (h : tid ∈ prio_map) :
    tid.taskname ∈ (recipe_lists prio_map).flatten := by
  have hkey : tid.fn ∈ (task_lists prio_map).map Prod.fst :=
    (OrderedDict.key_group TaskId.fn TaskId.taskname prio_map tid.fn).mpr ⟨tid, h, rfl⟩
  obtain ⟨x, hx, hfn⟩ := List.mem_map.mp hkey
  refine List.mem_flatten.mpr ⟨x.2, List.mem_map_of_mem hx, ?_⟩
  rw [OrderedDict.mem_group hx]
  exact List.mem_map_of_mem (List.mem_filter.mpr ⟨h, by simp [hfn]⟩)

/-! ## The final priorities -/

/-- One total order of the names is the one of every recipe. -/
def Consistent (lists : List (List Text)) : Prop :=
  ∃ total : List Text, total.Nodup ∧ ∀ new_tasks ∈ lists, new_tasks.Sublist total

/-- The merged list holds every name once, and the final priorities are those of the speed scheduler
grouped by name, in the reverse of the merged list, each group in its old order. -/
structure Reordered (prio_map : List TaskId) : Prop where
  nodup : (completion prio_map).1.Nodup
  all : ∀ tid ∈ prio_map, tid.taskname ∈ (completion prio_map).1
  perm : (completion prio_map).2.Perm prio_map
  groups : (completion prio_map).2 =
    (completion prio_map).1.reverse.flatMap fun task => prio_map.filter fun tid => decide (tid.taskname = task)
  order : Consistent (recipe_lists prio_map) →
    ∀ new_tasks ∈ recipe_lists prio_map, new_tasks.Sublist (completion prio_map).1

theorem reordered_iff_in_order (prio_map : List TaskId) (hnodup : prio_map.Nodup) :
    Reordered prio_map ↔ (Consistent (recipe_lists prio_map) → InOrder (recipe_lists prio_map)) := by
  have hmerged : (completion prio_map).1 = merge_recipes (recipe_lists prio_map) := rfl
  have hrespects := respects_iff (recipe_lists prio_map) (recipe_lists_nodup hnodup)
  constructor
  · intro h hconsistent
    exact hrespects.mp (h.order hconsistent)
  · intro h
    have hall : ∀ tid ∈ prio_map, tid.taskname ∈ (completion prio_map).1 := by
      intro tid htid
      rw [hmerged, mem_merge_recipes]
      exact mem_recipe_lists htid
    have hnames : (merge_recipes (recipe_lists prio_map)).reverse.Nodup :=
      List.nodup_reverse.mpr (merge_recipes_nodup _)
    have hgroups := move_names _ hnames [] prio_map (Nat.zero_add prio_map.length).symm
    have hperm := move_names_perm (merge_recipes (recipe_lists prio_map)).reverse [] prio_map
      (Nat.zero_add prio_map.length).symm
    refine ⟨merge_recipes_nodup _, hall, hperm, ?_, fun hconsistent => hrespects.mpr (h hconsistent)⟩
    have hrest : (prio_map.filter fun tid =>
        !decide (tid.taskname ∈ (merge_recipes (recipe_lists prio_map)).reverse)) = [] := by
      rw [List.filter_eq_nil_iff]
      intro tid htid
      have hthere := hall tid htid
      rw [hmerged] at hthere
      simpa using hthere
    rw [hrest, List.nil_append, List.append_nil] at hgroups
    exact hgroups

theorem a_longer_recipe_is_reordered :
    Reordered [⟨text "A", text "a"⟩, ⟨text "B", text "a"⟩, ⟨text "B", text "b"⟩] := by
  refine (reordered_iff_in_order [⟨text "A", text "a"⟩, ⟨text "B", text "a"⟩, ⟨text "B", text "b"⟩]
    (by decide)).mpr fun _ earlier new_tasks later h x y hxy hx hy => ?_
  have hlists : recipe_lists [⟨text "A", text "a"⟩, ⟨text "B", text "a"⟩, ⟨text "B", text "b"⟩] =
      [[text "a"], [text "a", text "b"]] := by decide
  rw [hlists] at h
  cases earlier with
  | nil => cases hx
  | cons first earlier =>
    rw [List.cons_append, List.cons_eq_cons] at h
    obtain ⟨rfl, h⟩ := h
    cases earlier with
    | nil =>
      obtain ⟨rfl, _⟩ := List.cons.inj h
      obtain rfl : x = text "a" := by simpa using hx
      obtain rfl : y = text "a" := by simpa using hy
      exact absurd hxy (by decide)
    | cons second earlier => simp at h

/-- The names of the first two recipes are in no order, and the third one has them the other way
round. -/
theorem a_later_recipe_is_not_respected :
    let prio_map : List TaskId :=
      [⟨text "A", text "a"⟩, ⟨text "B", text "b"⟩, ⟨text "C", text "a"⟩, ⟨text "C", text "b"⟩]
    Consistent (recipe_lists prio_map) ∧ [text "a", text "b"] ∈ recipe_lists prio_map ∧
      (completion prio_map).1 = [text "b", text "a"] ∧ ¬Reordered prio_map := by
  refine ⟨⟨[text "a", text "b"], by decide, by decide⟩, by decide, by decide, fun h => ?_⟩
  have horder := h.order ⟨[text "a", text "b"], by decide, by decide⟩ [text "a", text "b"] (by decide)
  exact absurd horder (by decide)

end yocto.completion_order
