-- The deferred setscene tasks. At the start each task is deferred after the first one with its
-- key, and the key is the recipe and the unihash: the name of the task is not in it.
import Yocto.Acyclic
import Yocto.RunQueueSteps
import Yocto.Runs

open yocto.task_ids yocto.ordered_dict yocto.scenequeue yocto.runqueue yocto.runs yocto.acyclic
open Relation (ReflTransGen)

namespace yocto.deferral

variable {Tid Stamp : Type} [DecidableEq Tid]
variable {cfg : Config Tid} {sq : SQData Tid} {w : World Tid Stamp} {e e' : Exec Tid Stamp}
variable {s s' : SceneState Tid Stamp}

/-! ## Waiting -/

/-- A task is deferred after another one. -/
def Waits (d : OrderedDict Tid Tid) (t other : Tid) : Prop := (t, other) ∈ d

theorem waits_of_set {d : OrderedDict Tid Tid} {t other x y : Tid} (h : Waits (d.set t other) x y) :
    Waits d x y ∨ (x = t ∧ y = other) := by
  rcases OrderedDict.mem_of_mem_set h with h | h
  · exact .inl h
  · exact .inr (Prod.mk.inj h)

theorem waits_of_del {d : OrderedDict Tid Tid} {t x y : Tid} (h : Waits (d.del t) x y) : Waits d x y :=
  (List.mem_filter.mp h).1

theorem not_waits_del {d : OrderedDict Tid Tid} {t y : Tid} : ¬Waits (d.del t) t y := by
  intro h
  simpa using (List.mem_filter.mp h).2

/-- What is deferred and after what, and the table of the keys. -/
def deferrals (s : SceneState Tid Stamp) : OrderedDict Tid Tid × (Text → Option Tid) := (s.sq_deferred, s.hashes)

/-- Tasks are let go, and none is deferred anew. -/
structure LetsGo (s s' : SceneState Tid Stamp) : Prop where
  waits : ∀ x y, Waits s'.sq_deferred x y → Waits s.sq_deferred x y
  hashes : s'.hashes = s.hashes

omit [DecidableEq Tid] in
theorem LetsGo.of_eq (h : deferrals s' = deferrals s) : LetsGo s s' := by
  obtain ⟨hdeferred, hhashes⟩ := Prod.mk.inj h
  exact ⟨fun x y hxy => hdeferred ▸ hxy, hhashes⟩

omit [DecidableEq Tid] in
theorem LetsGo.refl (s : SceneState Tid Stamp) : LetsGo s s := .of_eq rfl

omit [DecidableEq Tid] in
theorem LetsGo.trans {s'' : SceneState Tid Stamp} (h : LetsGo s s') (h' : LetsGo s' s'') : LetsGo s s'' :=
  ⟨fun x y hxy => h.waits x y (h'.waits x y hxy), h'.hashes.trans h.hashes⟩

/-! ## What leaves the deferrals alone -/

theorem deferrals_count_task (task : Tid) : deferrals (count_task cfg sq task s) = deferrals s := rfl

theorem deferrals_updatecounters (depth : Nat) (task : Tid) (fail : Bool) (s : SceneState Tid Stamp) :
    deferrals (scenequeue_updatecounters cfg sq w depth task fail s) = deferrals s := by
  induction depth generalizing task fail s with
  | zero => rfl
  | succ depth ih =>
    unfold scenequeue_updatecounters
    dsimp only
    rw [deferrals_count_task]
    split
    · generalize cfg.sorted (sq.sq_harddeps task) = deps
      induction deps generalizing s with
      | nil => rfl
      | cons dep deps ihdeps =>
        rw [List.foldl_cons, ihdeps]
        split
        · rfl
        · split
          · rfl
          · exact ih _ _ _
    · rfl

theorem deferrals_skip (task : Tid) (s : SceneState Tid Stamp) :
    deferrals (sq_task_skip cfg sq w task s) = deferrals s :=
  deferrals_updatecounters _ _ _ _

theorem deferrals_failoutright (task : Tid) (s : SceneState Tid Stamp) :
    deferrals (sq_task_failoutright cfg sq w task s) = deferrals s :=
  deferrals_updatecounters _ _ _ _

theorem deferrals_update (tids : Finset Tid) (s : SceneState Tid Stamp) :
    deferrals (update_scenequeue_data cfg sq w tids s) = deferrals s := by
  have hstep : ∀ (u : SceneState Tid Stamp) (tocheck : Finset Tid) (tid : Tid),
      deferrals (update_step cfg sq w (u, tocheck) tid).1 = deferrals u := by
    intro u tocheck tid
    unfold update_step
    dsimp only
    split
    · exact deferrals_skip _ _
    · split
      · exact deferrals_skip _ _
      · rfl
  have hloop : ∀ (l : List Tid) (u : SceneState Tid Stamp) (tocheck : Finset Tid),
      deferrals (l.foldl (update_step cfg sq w) (u, tocheck)).1 = deferrals u := by
    intro l
    induction l with
    | nil => exact fun _ _ => rfl
    | cons tid l ih =>
      intro u tocheck
      rw [List.foldl_cons]
      exact (ih _ _).trans (hstep u tocheck tid)
  exact hloop _ _ _

theorem settle_letsGo (s : SceneState Tid Stamp) (c : Choice Tid) : LetsGo s (settle cfg sq w s c) := by
  cases c with
  | nothing | woken | start task => exact .refl s
  | notneeded task =>
    have hskip : LetsGo s (sq_task_skip cfg sq w task s) := .of_eq (deferrals_skip task s)
    exact hskip.trans ⟨fun _ _ => waits_of_del, rfl⟩
  | skip task => exact .of_eq (deferrals_skip task s)
  | failoutright task => exact .of_eq (deferrals_failoutright task s)

section Search

variable [DecidableEq Stamp]

theorem consider_letsGo (complete : Finset Tid) (in_use : List Stamp) (nexttask : Tid)
    (s : SceneState Tid Stamp) : LetsGo s (consider cfg sq w complete in_use nexttask s).1 := by
  unfold consider
  split
  · split
    · exact .refl s
    · split
      · exact .refl s
      · split
        · exact .of_eq rfl
        · dsimp only
          split
          · exact ⟨fun _ _ => waits_of_del, rfl⟩
          · exact ⟨fun _ _ => waits_of_del, rfl⟩
  · exact .refl s

theorem search_letsGo (complete : Finset Tid) (in_use : List Stamp) (loops : Nat)
    (s : SceneState Tid Stamp) : LetsGo s (search_setscene cfg sq w complete in_use loops s).1 := by
  induction loops generalizing s with
  | zero => exact .refl s
  | succ loops ih =>
    unfold search_setscene
    split
    · exact .refl s
    · rename_i nexttask later _
      have hgo : LetsGo _ (consider cfg sq w complete in_use nexttask _).1 :=
        consider_letsGo _ _ _ { s with setscene_tids_generator := later ++ [nexttask] }
      have hone : LetsGo s (consider cfg sq w complete in_use nexttask
          { s with setscene_tids_generator := later ++ [nexttask] }).1 := ⟨hgo.waits, hgo.hashes⟩
      dsimp only
      split
      · rename_i heq
        rw [heq] at hone
        exact hone
      · rename_i heq
        rw [heq] at hone
        exact hone.trans (ih _)

theorem setscene_part_letsGo (e : Exec Tid Stamp) : LetsGo e.scene (setscene_part cfg sq w e).1.scene := by
  have hfind : LetsGo e.scene (find_setscene cfg sq w e).1 := by
    unfold find_setscene
    split
    · exact search_letsGo _ _ _ _
    · exact .refl _
  unfold setscene_part
  split
  · rename_i heq
    rw [heq] at hfind
    exact hfind
  · rename_i heq
    rw [heq] at hfind
    exact ⟨hfind.waits, hfind.hashes⟩
  · rename_i heq
    rw [heq] at hfind
    exact hfind.trans (settle_letsGo _ _)

end Search

/-! ## What defers -/

def Acyclic (s : SceneState Tid Stamp) : Prop := NoCycle (Waits s.sq_deferred)

omit [DecidableEq Tid] in
theorem LetsGo.acyclic (h : LetsGo s s') (hs : Acyclic s) : Acyclic s' := hs.mono h.waits

theorem release_rest_acyclic {task first : Tid} {l : List Tid} (hs : Acyclic s)
    (hfirst : ∀ y, ¬Waits s.sq_deferred first y) :
    Acyclic (l.foldl (release_step cfg sq w task) (s, some first)).1 ∧
      (l.foldl (release_step cfg sq w task) (s, some first)).1.hashes = s.hashes := by
  induction l generalizing s with
  | nil => exact ⟨hs, rfl⟩
  | cons t l ih =>
    rw [List.foldl_cons]
    unfold release_step
    by_cases ht : s.sq_deferred.get? t = some task
    · simp only [ht, ↓reduceIte]
      have hne : first ≠ t := by
        rintro rfl
        exact hfirst task (OrderedDict.mem_of_get? ht)
      refine ih (s := { s with sq_deferred := s.sq_deferred.set t first }) ?_ ?_
      · refine hs.add (fun x y => waits_of_set) fun hback => ?_
        exact hne ((Relation.reflTransGen_iff_eq hfirst).mp hback).symm
      · intro y hy
        rcases waits_of_set hy with hy | ⟨heq, -⟩
        · exact hfirst y hy
        · exact hne heq
    · simp only [ht, ↓reduceIte]
      exact ih hs hfirst

theorem release_acyclic (task : Tid) (hs : Acyclic s) :
    Acyclic (release_deferred cfg sq w task s) ∧ (release_deferred cfg sq w task s).hashes = s.hashes := by
  unfold release_deferred
  generalize cfg.sorted (s.sq_deferred.map Prod.fst).toFinset = l
  induction l with
  | nil => exact ⟨hs, rfl⟩
  | cons t l ih =>
    rw [List.foldl_cons]
    by_cases ht : s.sq_deferred.get? t = some task
    · have hstep : release_step cfg sq w task (s, none) t =
          (update_scenequeue_data cfg sq w {t} { s with sq_deferred := s.sq_deferred.del t }, some t) := by
        simp [release_step, ht]
      have hdel : LetsGo s { s with sq_deferred := s.sq_deferred.del t } := ⟨fun _ _ => waits_of_del, rfl⟩
      have hupdate : LetsGo { s with sq_deferred := s.sq_deferred.del t }
          (update_scenequeue_data cfg sq w {t} { s with sq_deferred := s.sq_deferred.del t }) :=
        .of_eq (deferrals_update _ _)
      have hgo := hdel.trans hupdate
      rw [hstep]
      obtain ⟨hacyclic, hhashes⟩ : _ ∧ (l.foldl (release_step cfg sq w task) (_, some t)).1.hashes = _ :=
        release_rest_acyclic (hgo.acyclic hs) fun y hy => not_waits_del (hupdate.waits t y hy)
      exact ⟨hacyclic, hhashes.trans hgo.hashes⟩
    · have hstep : release_step cfg sq w task (s, none) t = (s, none) := by
        simp [release_step, ht]
      rw [hstep]
      exact ih

/-- One turn of the deferral of the tasks that migrate. -/
def defer_one (cfg : Config Tid) (hashes : Text → Option Tid) (unihash : Tid → Text) (d : OrderedDict Tid Tid)
    (tid : Tid) : OrderedDict Tid Tid :=
  match hashes (pending_hash_index cfg unihash tid) with
  | some other => if tid ≠ other then d.set tid other else d
  | none => d

/-- Each task that is deferred is deferred after one that does not wait for it, neither itself
nor through others. -/
def NoneWaitsBack (cfg : Config Tid) (hashes : Text → Option Tid) (unihash : Tid → Text) :
    List Tid → OrderedDict Tid Tid → Prop
  | [], _ => True
  | tid :: later, d =>
    (∀ other, hashes (pending_hash_index cfg unihash tid) = some other → tid ≠ other →
      ¬ReflTransGen (Waits d) other tid) ∧
    NoneWaitsBack cfg hashes unihash later (defer_one cfg hashes unihash d tid)

theorem migrate_defer_acyclic {unihash : Tid → Text} {update_tasks : List Tid}
    (hok : NoneWaitsBack cfg s.hashes unihash (cfg.mc_sorted_tids.filter (· ∈ update_tasks)) s.sq_deferred)
    (hs : Acyclic s) :
    Acyclic (migrate_defer cfg unihash update_tasks s) ∧
      (migrate_defer cfg unihash update_tasks s).hashes = s.hashes := by
  unfold migrate_defer
  generalize cfg.mc_sorted_tids.filter (· ∈ update_tasks) = l at hok
  induction l generalizing s with
  | nil => exact ⟨hs, rfl⟩
  | cons tid later ih =>
    obtain ⟨hone, hlater⟩ := hok
    rw [List.foldl_cons]
    unfold defer_one at hlater
    cases hother : s.hashes (pending_hash_index cfg unihash tid) with
    | none =>
      rw [hother] at hlater
      exact ih hs hlater
    | some other =>
      rw [hother] at hlater
      dsimp only at hlater ⊢
      by_cases hne : tid = other
      · rw [if_neg (not_not.mpr hne)] at hlater ⊢
        exact ih hs hlater
      · rw [if_pos hne] at hlater ⊢
        refine ih (s := { s with sq_deferred := s.sq_deferred.set tid other }) ?_ hlater
        exact hs.add (fun x y => waits_of_set) (hone other hother hne)

/-! ## Migrations -/

theorem deferrals_buildable (update_tasks : List Tid) (s : SceneState Tid Stamp) :
    deferrals (migrate_buildable sq update_tasks s) = deferrals s := by
  unfold migrate_buildable
  induction update_tasks generalizing s with
  | nil => rfl
  | cons tid later ih =>
    rw [List.foldl_cons, ih]
    split <;> rfl

theorem migrate_tasks_acyclic {unihash : Tid → Text} {update_tasks : List Tid}
    (hok : NoneWaitsBack cfg s.hashes unihash (cfg.mc_sorted_tids.filter (· ∈ update_tasks)) s.sq_deferred)
    (hs : Acyclic s) : Acyclic (migrate_tasks cfg sq w unihash update_tasks s) := by
  have hfail : ∀ (l : List Tid) (u : SceneState Tid Stamp),
      deferrals (l.foldl (fun s tid => sq_task_failoutright cfg sq w tid s) u) = deferrals u := by
    intro l
    induction l with
    | nil => exact fun _ => rfl
    | cons tid l ih =>
      intro u
      rw [List.foldl_cons, ih, deferrals_failoutright]
  have hbuild : deferrals (migrate_buildable sq update_tasks s) = deferrals s := deferrals_buildable _ _
  have hacyclic : Acyclic (migrate_buildable sq update_tasks s) := (LetsGo.of_eq hbuild).acyclic hs
  unfold migrate_tasks
  dsimp only
  apply (LetsGo.of_eq (hfail _ _)).acyclic
  split
  · exact hacyclic
  · apply (LetsGo.of_eq (deferrals_update _ _)).acyclic
    obtain ⟨hdeferred, hhashes⟩ := Prod.mk.inj hbuild
    refine (migrate_defer_acyclic (s := { migrate_buildable sq update_tasks s with sqdone := false }) ?_ hacyclic).1
    dsimp only
    rw [hdeferred, hhashes]
    exact hok

theorem deferrals_migration (e : Exec Tid Stamp) :
    deferrals (migration cfg sq w e).1.scene = deferrals e.scene := by
  have hloop : ∀ (l : List Tid) (u : Exec Tid Stamp) (update_tasks : List Tid),
      deferrals (migrate_loop cfg sq w l u update_tasks).1.scene = deferrals u.scene := by
    intro l
    induction l with
    | nil => exact fun _ _ => rfl
    | cons tid later ih =>
      intro u update_tasks
      unfold migrate_loop
      split
      · exact ih _ _
      · split
        · exact ih _ _
        · dsimp only
          split
          · rfl
          · exact ih _ _
  exact hloop _ _ _

/-- The tasks that migrate are deferred after tasks that do not wait for them. -/
def DefersWell (cfg : Config Tid) (sq : SQData Tid) (e : Exec Tid Stamp) : Action Tid Stamp → Prop
  | .execute w =>
    e.updated_taskhash_queue ≠ [] ∨ e.pending_migrations ≠ ∅ →
      NoneWaitsBack cfg e.scene.hashes (migration cfg sq w e).1.unihash
        (cfg.mc_sorted_tids.filter (· ∈ migrating cfg sq w e)) e.scene.sq_deferred
  | .finish | .finish_now | .reply _ _ _ | .unihash_update _ _ => True

theorem migrated_acyclic (hok : DefersWell cfg sq e (.execute w)) (h : Acyclic e.scene) :
    Acyclic (migrated cfg sq w e).scene := by
  have hscene : deferrals (migration cfg sq w e).1.scene = deferrals e.scene := deferrals_migration e
  have hacyclic : Acyclic (migration cfg sq w e).1.scene := (LetsGo.of_eq hscene).acyclic h
  unfold migrated
  split
  · rename_i hpending
    have hwell := hok hpending
    obtain ⟨hdeferred, hhashes⟩ := Prod.mk.inj hscene
    rw [← hdeferred, ← hhashes] at hwell
    unfold migrating at hwell
    rcases hmigration : migration cfg sq w e with ⟨u, update_tasks, ended⟩
    rw [process_possible_migrations_eq cfg sq w hmigration]
    rw [hmigration] at hwell hacyclic
    cases ended with
    | false => exact hacyclic
    | true =>
      have hmigrated : Acyclic (migrate_tasks cfg sq w u.unihash update_tasks u.scene) :=
        migrate_tasks_acyclic hwell hacyclic
      rw [if_pos rfl]
      split
      · exact hmigrated
      · exact hmigrated
  · exact h

/-! ## Steps -/

theorem ran_acyclic {task : Tid} (h : Acyclic e.scene) (hran : Ran cfg sq w task e e') : Acyclic e'.scene := by
  have hrelease : Acyclic (release_deferred cfg sq w task e.scene) := (release_acyclic task h).1
  cases hran with
  | ignored _ => exact h
  | covered _ => exact hrelease
  | existing _ hu =>
    subst hu
    exact hrelease
  | noexec _ => exact hrelease
  | unspawned _ _ => exact h
  | started _ _ => exact h

theorem wind_up_acyclic (h : Acyclic e.scene) : Acyclic (wind_up cfg e).scene := by
  unfold wind_up
  split
  · exact h
  · split
    · exact h.mono fun x y hxy => List.mem_of_mem_tail hxy
    · split
      · exact h
      · split
        · exact h
        · exact h

theorem reply_acyclic (task : Tid) (success : Bool) (h : Acyclic e.scene) :
    Acyclic (runqueue_process_waitpid cfg sq w task success e).scene := by
  unfold runqueue_process_waitpid
  dsimp only
  split
  · cases success with
    | true =>
      have hgo : deferrals (sq_task_complete cfg sq w task e.scene) = deferrals e.scene :=
        deferrals_updatecounters _ _ _ _
      exact (LetsGo.of_eq hgo).acyclic h
    | false =>
      have hgo : deferrals (sq_task_fail cfg sq w task e.scene) = deferrals e.scene :=
        deferrals_updatecounters _ _ _ _
      have hfail : Acyclic (sq_task_fail cfg sq w task e.scene) := (LetsGo.of_eq hgo).acyclic h
      simp only [Bool.false_eq_true, ↓reduceIte]
      unfold sq_check_taskfail
      split
      · split
        · exact hfail
        · exact hfail
      · exact hfail
  · split
    · exact (release_acyclic task h).1
    · exact h

theorem step_acyclic [DecidableEq Stamp] {a : Action Tid Stamp} (h : Acyclic e.scene) (hok : DefersWell cfg sq e a)
    (hstep : step cfg sq e a = some e') : Acyclic e'.scene := by
  unfold runqueue.step at hstep
  cases a with
  | execute w =>
    dsimp only at hstep
    split at hstep
    · have hfirst : Acyclic (first_parts cfg sq w e).1.scene := by
        apply first_parts_keep (I := fun u => Acyclic u.scene)
        · exact migrated_acyclic hok h
        · exact fun hmigrated => (setscene_part_letsGo _).acyclic hmigrated
        · intro u hu
          unfold update_holdofftasks
          split
          · exact hu
          · exact hu
        · intro u hu
          unfold scene_done
          split
          · split
            · exact hu
            · split
              · exact hu
              · dsimp only
                split
                · exact hu
                · exact hu
          · exact hu
      apply execute_ends (I := fun u => Acyclic u.scene) hstep hfirst
      · intro _ _ task _
        exact ran_acyclic hfirst (run_task_ran cfg sq w task _)
      · exact fun _ => wind_up_acyclic
    · cases hstep
  | finish =>
    obtain rfl := Option.some.inj hstep
    unfold finish
    split
    · exact h
    · split
      · exact h
      · exact h
  | finish_now =>
    obtain rfl := Option.some.inj hstep
    unfold finish_now
    split
    · exact h
    · exact h
  | reply w task success =>
    dsimp only at hstep
    split at hstep
    · obtain rfl := Option.some.inj hstep
      exact reply_acyclic task success h
    · cases hstep
  | unihash_update task unihash =>
    obtain rfl := Option.some.inj hstep
    exact h

/-! ## The first deferral -/

/-- Two tasks with one recipe name, one task name and one unihash. -/
def Equivalent (cfg : Config Tid) (unihash : Tid → Text) (t u : Tid) : Prop :=
  cfg.pn t = cfg.pn u ∧ cfg.taskname t = cfg.taskname u ∧ unihash t = unihash u

/-- A task is deferred after an equivalent one only, and one task of each class is not deferred. -/
def PairsEquivalent (cfg : Config Tid) (unihash : Tid → Text) : Prop :=
  (∀ t other, Waits (first_deferral cfg unihash).2 t other → t ≠ other ∧ Equivalent cfg unihash t other) ∧
  ∀ t ∈ cfg.runq_setscene_tids, ∃! u, u ∈ cfg.runq_setscene_tids ∧ Equivalent cfg unihash u t ∧
    ∀ other, ¬Waits (first_deferral cfg unihash).2 u other

/-- Setscene tasks with one key are equivalent. -/
def KeysTell (cfg : Config Tid) (unihash : Tid → Text) : Prop :=
  ∀ t ∈ cfg.runq_setscene_tids, ∀ u ∈ cfg.runq_setscene_tids,
    pending_hash_index cfg unihash t = pending_hash_index cfg unihash u → Equivalent cfg unihash t u

/-- The setscene tasks in the order of the deferral. -/
def in_order (cfg : Config Tid) : List Tid := cfg.mc_sorted_tids.filter (· ∈ cfg.runq_setscene_tids)

/-- The first task of a list with a key. -/
def owner (cfg : Config Tid) (unihash : Tid → Text) (l : List Tid) (h : Text) : Option Tid :=
  l.find? fun t => pending_hash_index cfg unihash t = h

def first_turn (cfg : Config Tid) (unihash : Tid → Text) (acc : (Text → Option Tid) × OrderedDict Tid Tid)
    (tid : Tid) : (Text → Option Tid) × OrderedDict Tid Tid :=
  match acc.1 (pending_hash_index cfg unihash tid) with
  | none => (Function.update acc.1 (pending_hash_index cfg unihash tid) (some tid), acc.2)
  | some other => (acc.1, acc.2.set tid other)

theorem first_deferral_eq (unihash : Tid → Text) :
    first_deferral cfg unihash = (in_order cfg).foldl (first_turn cfg unihash) (fun _ => none, []) := rfl

omit [DecidableEq Tid] in
theorem owner_append (unihash : Tid → Text) (l : List Tid) (tid : Tid) (h : Text) :
    owner cfg unihash (l ++ [tid]) h =
      (owner cfg unihash l h).or (if pending_hash_index cfg unihash tid = h then some tid else none) := by
  unfold owner
  rw [List.find?_append, List.find?_singleton]
  simp

omit [DecidableEq Tid] in
theorem owner_isSome {unihash : Tid → Text} {l : List Tid} {t : Tid} (ht : t ∈ l) :
    (owner cfg unihash l (pending_hash_index cfg unihash t)).isSome := by
  unfold owner
  rw [List.find?_isSome]
  exact ⟨t, ht, by simp⟩

omit [DecidableEq Tid] in
theorem owner_spec {unihash : Tid → Text} {l : List Tid} {h : Text} {t : Tid} (ht : owner cfg unihash l h = some t) :
    t ∈ l ∧ pending_hash_index cfg unihash t = h := by
  refine ⟨List.mem_of_find?_eq_some ht, ?_⟩
  simpa using List.find?_some ht

theorem first_turns (unihash : Tid → Text) {l : List Tid} (hl : l.Nodup) :
    (∀ h, (l.foldl (first_turn cfg unihash) (fun _ => none, [])).1 h = owner cfg unihash l h) ∧
    ∀ t other, Waits (l.foldl (first_turn cfg unihash) (fun _ => none, [])).2 t other ↔ t ∈ l ∧ t ≠ other ∧
      owner cfg unihash l (pending_hash_index cfg unihash t) = some other := by
  induction l using List.reverseRecOn with
  | nil => simp [owner, Waits]
  | append_singleton l tid ih =>
    rw [List.nodup_append] at hl
    obtain ⟨hl, -, hnew⟩ := hl
    have hnot : tid ∉ l := fun h => hnew tid h tid List.mem_cons_self rfl
    obtain ⟨hhashes, hdeferred⟩ := ih hl
    rw [List.foldl_append, List.foldl_cons, List.foldl_nil]
    generalize l.foldl (first_turn cfg unihash) (fun _ => none, []) = r at hhashes hdeferred
    -- The tasks before this one keep their owners.
    have hkeep : ∀ t ∈ l, owner cfg unihash (l ++ [tid]) (pending_hash_index cfg unihash t) =
        owner cfg unihash l (pending_hash_index cfg unihash t) := by
      intro t ht
      obtain ⟨u, hu⟩ := Option.isSome_iff_exists.mp (@owner_isSome _ cfg unihash _ _ ht)
      rw [owner_append, hu]
      rfl
    have hself : owner cfg unihash (l ++ [tid]) (pending_hash_index cfg unihash tid) =
        (r.1 (pending_hash_index cfg unihash tid)).or (some tid) := by
      rw [owner_append, if_pos rfl, hhashes]
    unfold first_turn
    cases hkey : r.1 (pending_hash_index cfg unihash tid) with
    | none =>
      rw [hkey] at hself
      dsimp only
      constructor
      · intro h
        rw [Function.update_apply]
        by_cases heq : h = pending_hash_index cfg unihash tid
        · rw [if_pos heq, heq, hself]
          rfl
        · rw [if_neg heq, owner_append, if_neg (Ne.symm heq), hhashes, Option.or_none]
      · intro t other
        rw [hdeferred]
        constructor
        · rintro ⟨ht, hne, hother⟩
          exact ⟨List.mem_append_left _ ht, hne, (hkeep t ht).trans hother⟩
        · rintro ⟨ht, hne, hother⟩
          rcases List.mem_append.mp ht with ht | ht
          · exact ⟨ht, hne, (hkeep t ht).symm.trans hother⟩
          · obtain rfl := List.mem_singleton.mp ht
            rw [hself] at hother
            exact absurd (Option.some.inj hother) hne
    | some first =>
      rw [hkey] at hself
      have hfirst : first ∈ l := (owner_spec ((hhashes _).symm.trans hkey)).1
      dsimp only
      constructor
      · intro h
        rw [owner_append, hhashes]
        by_cases heq : pending_hash_index cfg unihash tid = h
        · rw [← heq, ← hhashes, hkey]
          rfl
        · rw [if_neg heq, Option.or_none]
      · intro t other
        constructor
        · intro h
          rcases waits_of_set h with h | ⟨rfl, rfl⟩
          · obtain ⟨ht, hne, hother⟩ := (hdeferred t other).mp h
            exact ⟨List.mem_append_left _ ht, hne, (hkeep t ht).trans hother⟩
          · refine ⟨List.mem_append_right _ List.mem_cons_self, ?_, hself⟩
            rintro rfl
            exact hnot hfirst
        · rintro ⟨ht, hne, hother⟩
          rcases List.mem_append.mp ht with ht | ht
          · have hwait : Waits r.2 t other := (hdeferred t other).mpr ⟨ht, hne, (hkeep t ht).symm.trans hother⟩
            exact OrderedDict.mem_set_of_ne first hwait fun heq => hnot (heq ▸ ht)
          · obtain rfl := List.mem_singleton.mp ht
            rw [hself] at hother
            obtain rfl := Option.some.inj hother
            exact OrderedDict.mem_set_self _ _ _

/-- What `sorted` makes of the task ids: each once, and all setscene tasks are among them. -/
structure Sorted (cfg : Config Tid) : Prop where
  nodup : cfg.mc_sorted_tids.Nodup
  all : ∀ t ∈ cfg.runq_setscene_tids, t ∈ cfg.mc_sorted_tids

theorem first_deferral_spec (h : Sorted cfg) (unihash : Tid → Text) (t other : Tid) :
    Waits (first_deferral cfg unihash).2 t other ↔ t ∈ cfg.runq_setscene_tids ∧ t ≠ other ∧
      owner cfg unihash (in_order cfg) (pending_hash_index cfg unihash t) = some other := by
  have hmem : t ∈ in_order cfg ↔ t ∈ cfg.runq_setscene_tids := by
    unfold in_order
    rw [List.mem_filter, decide_eq_true_eq]
    exact ⟨fun ht => ht.2, fun ht => ⟨h.all t ht, ht⟩⟩
  have hnodup : (in_order cfg).Nodup := h.nodup.filter _
  rw [first_deferral_eq, (first_turns unihash hnodup).2, hmem]

theorem owner_free (h : Sorted cfg) {unihash : Tid → Text} {key : Text} {t : Tid}
    (ht : owner cfg unihash (in_order cfg) key = some t) (other : Tid) :
    ¬Waits (first_deferral cfg unihash).2 t other := by
  intro hwait
  obtain ⟨-, hne, hother⟩ := (first_deferral_spec h unihash t other).mp hwait
  rw [(owner_spec ht).2, ht] at hother
  exact hne (Option.some.inj hother)

theorem first_deferral_noCycle (h : Sorted cfg) (unihash : Tid → Text) :
    NoCycle (Waits (first_deferral cfg unihash).2) := by
  apply NoCycle.of_ends
  intro t other hwait
  exact owner_free h ((first_deferral_spec h unihash t other).mp hwait).2.2

theorem pairs_iff_keys (h : Sorted cfg) (unihash : Tid → Text) :
    PairsEquivalent cfg unihash ↔ KeysTell cfg unihash := by
  have howner : ∀ t ∈ cfg.runq_setscene_tids, ∃ u,
      owner cfg unihash (in_order cfg) (pending_hash_index cfg unihash t) = some u ∧
        u ∈ cfg.runq_setscene_tids ∧ pending_hash_index cfg unihash u = pending_hash_index cfg unihash t := by
    intro t ht
    have hin : t ∈ in_order cfg := List.mem_filter.mpr ⟨h.all t ht, decide_eq_true ht⟩
    obtain ⟨u, hu⟩ := Option.isSome_iff_exists.mp (@owner_isSome _ cfg unihash _ _ hin)
    obtain ⟨hmem, hkey⟩ := owner_spec hu
    exact ⟨u, hu, of_decide_eq_true (List.mem_filter.mp hmem).2, hkey⟩
  constructor
  · rintro ⟨hpairs, -⟩ t ht u hu hkey
    have hsame : ∀ t ∈ cfg.runq_setscene_tids, ∀ o,
        owner cfg unihash (in_order cfg) (pending_hash_index cfg unihash t) = some o →
        Equivalent cfg unihash t o := by
      intro t ht o ho
      by_cases hto : t = o
      · exact hto ▸ ⟨rfl, rfl, rfl⟩
      · exact (hpairs t o ((first_deferral_spec h unihash t o).mpr ⟨ht, hto, ho⟩)).2
    obtain ⟨o, ho, -⟩ := howner t ht
    obtain ⟨hpn, htask, hhash⟩ := hsame t ht o ho
    obtain ⟨hpn', htask', hhash'⟩ := hsame u hu o (hkey ▸ ho)
    exact ⟨hpn.trans hpn'.symm, htask.trans htask'.symm, hhash.trans hhash'.symm⟩
  · intro hkeys
    have hequal : ∀ {t u}, Equivalent cfg unihash t u →
        pending_hash_index cfg unihash t = pending_hash_index cfg unihash u := by
      rintro t u ⟨hpn, -, hhash⟩
      unfold pending_hash_index
      rw [hpn, hhash]
    constructor
    · intro t other hwait
      obtain ⟨ht, hne, hother⟩ := (first_deferral_spec h unihash t other).mp hwait
      obtain ⟨u, hu, hmem, hkey⟩ := howner t ht
      obtain rfl := Option.some.inj (hu.symm.trans hother)
      exact ⟨hne, hkeys t ht u hmem hkey.symm⟩
    · intro t ht
      obtain ⟨u, hu, hmem, hkey⟩ := howner t ht
      refine ⟨u, ⟨hmem, hkeys u hmem t ht hkey, owner_free h hu⟩, ?_⟩
      rintro v ⟨hv, hequiv, hfree⟩
      by_contra hne
      refine hfree u ((first_deferral_spec h unihash v u).mpr ⟨hv, hne, ?_⟩)
      rw [hequal hequiv]
      exact hu

/-- The first deferral pairs equivalent tasks just when their keys tell them apart, and in a run
in which no task is deferred after one that waits for it, no task ever waits for itself. -/
theorem deferral_pairs_and_does_not_deadlock [DecidableEq Stamp] (cfg : Config Tid) (sq : SQData Tid)
    (w : World Tid Stamp) (q : SQRunQueue Tid) (h : Sorted cfg) :
    (PairsEquivalent cfg w.unihash ↔ KeysTell cfg w.unihash) ∧
    ∀ e, Reaches (step cfg sq) (DefersWell cfg sq) (start cfg sq w q) e → Acyclic e.scene := by
  refine ⟨pairs_iff_keys h w.unihash, fun e he => ?_⟩
  apply he.invariant (I := fun u => Acyclic u.scene)
  · have hstart : (start cfg sq w q).scene.sq_deferred = (first_deferral cfg w.unihash).2 := by
      unfold start
      dsimp only
      split
      · exact congrArg Prod.fst (deferrals_update _ _)
      · exact congrArg Prod.fst (deferrals_update _ _)
    unfold Acyclic
    rw [hstart]
    exact first_deferral_noCycle h w.unihash
  · exact fun _ _ _ hs hok hstep => step_acyclic hs hok hstep

/-! ## Runs -/

/-- The setscene tasks 0 and 1 of one recipe depend on task 2. Task 3 keeps the worker busy. -/
def fourTasks : Config (Fin 4) where
  runtaskentries := [0, 1, 2, 3]
  depends := fun t => if t = 0 ∨ t = 1 then [2] else []
  revdeps := fun t => if t = 2 then [0, 1] else []
  closed := by decide
  matching := by decide
  runq_setscene_tids := [3, 0, 1]
  target_tids := [0, 1, 3]
  hard_deptids := fun _ => []
  setscene_mem := by decide
  sorted_tids := [0, 1, 2, 3]
  mc_sorted_tids := [0, 1, 2, 3]
  taskname := fun t => if t = 0 then text "do_a" else text "do_b"
  pn := fun t => if t = 3 then text "other" else text "one"
  noexec := fun _ => false
  fakeroot := fun _ => false
  number_threads := fun _ => none
  prio_map := [0, 1, 2, 3]
  number_tasks := 1
  halt := true
  force := false
  skipsetscene := false
  setsceneonly := false
  dry_run := false
  setscene_enforce := false
  setscene_ignore_tasks := none

def fourBuilt : SQData (Fin 4) × SQRunQueue (Fin 4) :=
  (build_scenequeue_data fourTasks.toRunQueueData).toOption.get (by decide)

/-- No stamp is there, and every setscene object is. -/
def hashesWorld (unihash : Fin 4 → Text) : World (Fin 4) (Fin 4) where
  stamp_current := fun _ => false
  stamp_current_recurse := fun _ => false
  setscene_stamp_current := fun _ => false
  validate_hashes := id
  depvalidate := fun _ => false
  fakeworker_fails := fun _ => false
  exceeds_max_pressure := false
  stampfile := id
  setscene_stampfile := id
  taskhash := fun _ => []
  unihash

def hashes (first second : String) (t : Fin 4) : Text :=
  if t = 0 then text first else if t = 1 then text second else []

def fourStart (w : World (Fin 4) (Fin 4)) : Exec (Fin 4) (Fin 4) := start fourTasks fourBuilt.1 w fourBuilt.2

def started : Exec (Fin 4) (Fin 4) :=
  (step fourTasks fourBuilt.1 (fourStart (hashesWorld (hashes "1" "2")))
    (.execute (hashesWorld (hashes "1" "2")))).get (by decide)

theorem different_hashes_are_told_apart :
    PairsEquivalent fourTasks (hashes "1" "2") ∧ started.scene.sq_live = {3} ∧ Acyclic started.scene := by
  obtain ⟨hpairs, hruns⟩ := deferral_pairs_and_does_not_deadlock fourTasks fourBuilt.1
    (hashesWorld (hashes "1" "2")) fourBuilt.2 ⟨by decide, by decide⟩
  refine ⟨hpairs.mpr ?_, by decide, hruns started ?_⟩
  · unfold KeysTell Equivalent
    decide
  · refine .step .start ?_ (Option.some_get _).symm
    intro hpending
    exact absurd hpending (by decide)

/-- The hash of task 0 becomes that of task 1, and later the hash of task 1 that of task 0. -/
def swapped : Exec (Fin 4) (Fin 4) :=
  (runAll (step fourTasks fourBuilt.1) (fourStart (hashesWorld (hashes "1" "2")))
    [.execute (hashesWorld (hashes "1" "2")),
      .unihash_update 2 (text "a"), .execute (hashesWorld (hashes "2" "2")),
      .unihash_update 2 (text "b"), .execute (hashesWorld (hashes "2" "1"))]).get (by decide)

/-- Tasks with different names are paired when their hashes are the same, and two tasks whose
hashes change one after the other wait for each other. -/
theorem names_are_mixed_and_two_tasks_wait_for_each_other :
    ¬PairsEquivalent fourTasks (hashes "1" "1") ∧
    ∃ e : Exec (Fin 4) (Fin 4),
      Reaches (step fourTasks fourBuilt.1) anyStep (fourStart (hashesWorld (hashes "1" "2"))) e ∧
      ¬Acyclic e.scene := by
  constructor
  · rintro ⟨hpairs, -⟩
    have hnames := (hpairs 1 0 (by unfold Waits; decide)).2.2.1
    exact absurd hnames (by decide)
  · refine ⟨swapped, .of_isSome (by decide), fun h => ?_⟩
    have hforth : Waits swapped.scene.sq_deferred 0 1 := by unfold Waits; decide
    have hback : Waits swapped.scene.sq_deferred 1 0 := by unfold Waits; decide
    exact h 0 (.tail (.single hforth) hback)

end yocto.deferral
