-- The collapse of the task graph is exact.
import Yocto.SceneQueue

open yocto.task_graph yocto.ordered_dict yocto.scenequeue

namespace yocto.scene_collapse

variable {Tid : Type} [DecidableEq Tid] {rq : RunQueueData Tid}

/-! ## Paths -/

/-- A path of dependencies leads from `s` to a task, and the tasks between are no setscene
tasks. -/
inductive Covers (rq : RunQueueData Tid) (s : Tid) : Tid → Prop
  | direct {p : Tid} : rq.Dep s p → Covers rq s p
  | through {q p : Tid} : Covers rq s q → q ∉ rq.runq_setscene_tids → rq.Dep q p → Covers rq s p

/-! ## The invariant -/

/-- The setscene task `t` arrived at `p`: it waits there, or was passed on, or stands among
the endpoints of this round. -/
def Arrived (s : Collapse Tid) (rest : Endpoints Tid) (t p : Tid) : Prop :=
  t ∈ s.sq_revdeps_squash p ∨ p ∈ s.sq_collated_deps t ∨ ∃ task, (p, task) ∈ rest ∧ t ∈ task

/-- The state of the collapse, where `rest` are the endpoints of this round that are still to
come, `new` those of the next round, and `done` the tasks that were processed. -/
structure Flow (rq : RunQueueData Tid) (s : Collapse Tid) (done : Finset Tid)
    (rest new : Endpoints Tid) : Prop where
  squash_sound : ∀ {t p}, t ∈ s.sq_revdeps_squash p → t ∈ rq.runq_setscene_tids ∧ Covers rq t p
  queue_sound : ∀ {t p task}, (p, task) ∈ rest ++ new → t ∈ task →
    t ∈ rq.runq_setscene_tids ∧ Covers rq t p
  collated_sound : ∀ {t p}, p ∈ s.sq_collated_deps t → t ∈ rq.runq_setscene_tids ∧
    p ∉ rq.runq_setscene_tids ∧ Covers rq t p
  revdeps : ∀ {x p}, x ∈ s.sq_revdeps p ↔ rq.Dep x p ∧ x ∉ rq.runq_setscene_tids ∧ x ∉ done
  ready : ∀ {p}, p ∈ rq.runtaskentries → p ∉ rq.runq_setscene_tids → s.sq_revdeps p = ∅ →
    p ∉ done → p ∈ (rest ++ new).map Prod.fst
  pending : ∀ {t p}, p ∉ rq.runq_setscene_tids → t ∈ s.sq_revdeps_squash p →
    p ∈ (rest ++ new).map Prod.fst ∨ s.sq_revdeps p ≠ ∅
  direct : ∀ {t p}, t ∈ rq.runq_setscene_tids → rq.Dep t p → Arrived s rest t p
  onward : ∀ {t p q}, p ∈ s.sq_collated_deps t → rq.Dep p q → Arrived s rest t q

theorem dep_step_spec (point : Tid) (task tasks : Finset Tid) (dep : Tid) (s : Collapse Tid)
    (new : Endpoints Tid) : ∀ r, dep_step rq point task tasks (s, new) dep = r →
      r.1.sq_collated_deps = s.sq_collated_deps ∧
      (∀ x p, x ∈ r.1.sq_revdeps p ↔ x ∈ s.sq_revdeps p ∧ ¬ (x = point ∧ p = dep)) ∧
      (∀ t p, t ∈ r.1.sq_revdeps_squash p ↔ t ∈ s.sq_revdeps_squash p ∨ p = dep ∧ t ∈ tasks) ∧
      (∀ p, p ∈ new.map Prod.fst → p ∈ r.2.map Prod.fst) ∧
      (dep ∉ rq.runq_setscene_tids → r.1.sq_revdeps dep = ∅ → dep ∈ r.2.map Prod.fst) ∧
      ∀ p x, (p, x) ∈ r.2 → (p, x) ∈ new ∨ x = task ∧ p = dep := by
  rintro r rfl
  have hrev : ∀ x p, x ∈ Function.update s.sq_revdeps dep ((s.sq_revdeps dep).erase point) p ↔
      x ∈ s.sq_revdeps p ∧ ¬ (x = point ∧ p = dep) := by
    intro x p
    by_cases hp : p = dep
    · subst hp
      simp [and_comm]
    · simp [hp]
  have hsquash : ∀ t p, t ∈ Function.update s.sq_revdeps_squash dep
      (s.sq_revdeps_squash dep ∪ tasks) p ↔ t ∈ s.sq_revdeps_squash p ∨ p = dep ∧ t ∈ tasks := by
    intro t p
    by_cases hp : p = dep
    · subst hp
      simp
    · simp [hp]
  unfold dep_step
  dsimp only
  split
  · refine ⟨rfl, hrev, hsquash, fun p hp => OrderedDict.key_set.mpr (Or.inl hp),
      fun _ _ => OrderedDict.key_set.mpr (Or.inr rfl), fun p x hx => ?_⟩
    rcases OrderedDict.mem_of_mem_set hx with hx | hx
    · exact Or.inl hx
    · exact Or.inr ⟨congrArg Prod.snd hx, congrArg Prod.fst hx⟩
  · rename_i hno
    exact ⟨rfl, hrev, hsquash, fun p hp => hp, fun hns he => absurd ⟨he, hns⟩ hno, fun p x hx => Or.inl hx⟩

theorem dep_fold_spec (rq : RunQueueData Tid) (point : Tid) (task tasks : Finset Tid) (deps : List Tid) (s : Collapse Tid)
    (new : Endpoints Tid) : ∀ r, deps.foldl (dep_step rq point task tasks) (s, new) = r →
      r.1.sq_collated_deps = s.sq_collated_deps ∧
      (∀ x p, x ∈ r.1.sq_revdeps p ↔ x ∈ s.sq_revdeps p ∧ ¬ (x = point ∧ p ∈ deps)) ∧
      (∀ t p, t ∈ r.1.sq_revdeps_squash p ↔ t ∈ s.sq_revdeps_squash p ∨ p ∈ deps ∧ t ∈ tasks) ∧
      (∀ p, p ∈ new.map Prod.fst → p ∈ r.2.map Prod.fst) ∧
      (∀ p ∈ deps, p ∉ rq.runq_setscene_tids → r.1.sq_revdeps p = ∅ → p ∈ r.2.map Prod.fst) ∧
      ∀ p x, (p, x) ∈ r.2 → (p, x) ∈ new ∨ x = task ∧ p ∈ deps := by
  rintro r rfl
  induction deps generalizing s new with
  | nil => simp
  | cons dep deps ih =>
    rw [List.foldl_cons]
    rcases hstep : dep_step rq point task tasks (s, new) dep with ⟨s1, new1⟩
    obtain ⟨a1, a2, a3, a4, a5, a6⟩ := dep_step_spec point task tasks dep s new _ hstep
    obtain ⟨b1, b2, b3, b4, b5, b6⟩ := ih s1 new1
    refine ⟨b1.trans a1, fun x p => ?_, fun t p => ?_, fun p hp => b4 p (a4 p hp), ?_, ?_⟩
    · rw [b2, a2, List.mem_cons]
      tauto
    · rw [b3, a3, List.mem_cons]
      tauto
    · intro p hp hns hempty
      rcases List.mem_cons.mp hp with rfl | hp
      · by_cases hin : p ∈ deps
        · exact b5 p hin hns hempty
        · -- the later dependencies leave the dict of this one as it is
          apply b4 p
          apply a5 hns
          apply Finset.eq_empty_of_forall_notMem
          intro x hx
          have hx' := (b2 x p).mpr ⟨hx, fun h => hin h.2⟩
          rw [hempty] at hx'
          exact Finset.notMem_empty x hx'
      · exact b5 p hp hns hempty
    · intro p x hx
      rcases b6 p x hx with hx | ⟨rfl, hp⟩
      · rcases a6 p x hx with hx | ⟨rfl, rfl⟩
        · exact Or.inl hx
        · exact Or.inr ⟨rfl, List.mem_cons_self⟩
      · exact Or.inr ⟨rfl, List.mem_cons_of_mem dep hp⟩

theorem Flow.setscene_point {s : Collapse Tid} {done : Finset Tid} {rest new : Endpoints Tid}
    {point : Tid} {task : Finset Tid} (h : Flow rq s done ((point, task) :: rest) new)
    (hp : point ∈ rq.runq_setscene_tids) :
    ∀ r, point_step rq (s, new) (point, task) = r → Flow rq r.1 done rest r.2 := by
  rintro r rfl
  unfold point_step
  dsimp only
  rw [if_pos hp]
  have hsquash : ∀ {t p}, t ∈ Function.update s.sq_revdeps_squash point
      (task ∪ s.sq_revdeps_squash point) p ↔ t ∈ s.sq_revdeps_squash p ∨ p = point ∧ t ∈ task := by
    intro t p
    by_cases heq : p = point
    · subst heq
      simp [or_comm]
    · simp [heq]
  have harrived : ∀ {t p}, Arrived s ((point, task) :: rest) t p →
      t ∈ Function.update s.sq_revdeps_squash point (task ∪ s.sq_revdeps_squash point) p ∨
        p ∈ s.sq_collated_deps t ∨ ∃ x, (p, x) ∈ rest ∧ t ∈ x := by
    rintro t p (ha | ha | ⟨x, hx, ht⟩)
    · exact Or.inl (hsquash.mpr (Or.inl ha))
    · exact Or.inr (Or.inl ha)
    · rcases List.mem_cons.mp hx with hx | hx
      · obtain ⟨rfl, rfl⟩ := Prod.mk.inj hx
        exact Or.inl (hsquash.mpr (Or.inr ⟨rfl, ht⟩))
      · exact Or.inr (Or.inr ⟨x, hx, ht⟩)
  have hkey : ∀ {p}, p ∉ rq.runq_setscene_tids →
      p ∈ (((point, task) :: rest) ++ new).map Prod.fst → p ∈ (rest ++ new).map Prod.fst := by
    intro p hns hin
    rcases List.mem_cons.mp hin with rfl | hin
    · exact absurd hp hns
    · exact hin
  constructor
  case squash_sound =>
    intro t p ht
    rcases hsquash.mp ht with hwait | ⟨rfl, hnew⟩
    · exact h.squash_sound hwait
    · exact h.queue_sound List.mem_cons_self hnew
  case queue_sound => exact fun hx ht => h.queue_sound (List.mem_cons_of_mem _ hx) ht
  case collated_sound => exact h.collated_sound
  case revdeps => exact h.revdeps
  case ready => exact fun hin hns he hd => hkey hns (h.ready hin hns he hd)
  case pending =>
    intro t p hns ht
    rcases hsquash.mp ht with ht | ⟨rfl, _⟩
    · exact (h.pending hns ht).imp_left (hkey hns)
    · exact absurd hp hns
  case direct => exact fun ht hd => harrived (h.direct ht hd)
  case onward => exact fun hc hd => harrived (h.onward hc hd)

theorem Flow.normal_point {s : Collapse Tid} {done : Finset Tid} {rest new : Endpoints Tid}
    {point : Tid} {task : Finset Tid} (hacyclic : rq.Acyclic)
    (h : Flow rq s done ((point, task) :: rest) new) (hp : point ∉ rq.runq_setscene_tids) :
    ∀ r, point_step rq (s, new) (point, task) = r → Flow rq r.1 (insert point done) rest r.2 := by
  rintro r rfl
  unfold point_step
  dsimp only
  rw [if_neg hp]
  have hself : point ∉ rq.depends point := hacyclic.irrefl point
  have htasks : ∀ {t}, t ∈ task ∪ s.sq_revdeps_squash point →
      t ∈ rq.runq_setscene_tids ∧ Covers rq t point := by
    intro t ht
    rcases Finset.mem_union.mp ht with ht | ht
    · exact h.queue_sound List.mem_cons_self ht
    · exact h.squash_sound ht
  -- what the loop over the dependencies starts from
  have hsquash0 : ∀ {t p}, t ∈ Function.update s.sq_revdeps_squash point ∅ p ↔
      t ∈ s.sq_revdeps_squash p ∧ p ≠ point := by
    intro t p
    by_cases heq : p = point <;> simp [heq]
  have hcollated0 : ∀ {t p}, p ∈ (if t ∈ task ∪ s.sq_revdeps_squash point then
      insert point (s.sq_collated_deps t) else s.sq_collated_deps t) ↔
      p ∈ s.sq_collated_deps t ∨ p = point ∧ t ∈ task ∪ s.sq_revdeps_squash point := by
    intro t p
    split <;> rename_i ht <;> simp [ht, or_comm]
  obtain ⟨hcollated, hrevdeps, hsquash, hkeep, hnew, hfrom⟩ := dep_fold_spec rq point task
    (task ∪ s.sq_revdeps_squash point) (rq.depends point) _ new _ rfl
  generalize (rq.depends point).foldl _ _ = r at hcollated hrevdeps hsquash hkeep hnew hfrom ⊢
  dsimp only at hcollated hrevdeps hsquash
  have hkey : ∀ {p}, p ≠ point → p ∈ (((point, task) :: rest) ++ new).map Prod.fst →
      p ∈ (rest ++ r.2).map Prod.fst := by
    intro p hne hin
    rw [List.map_append, List.mem_append] at hin ⊢
    rcases hin with hin | hin
    · rcases List.mem_cons.mp hin with rfl | hin
      · exact absurd rfl hne
      · exact Or.inl hin
    · exact Or.inr (hkeep p hin)
  -- a dict of reverse dependencies that becomes empty makes an endpoint
  have hempty : ∀ {p}, p ∉ rq.runq_setscene_tids → s.sq_revdeps p ≠ ∅ → r.1.sq_revdeps p = ∅ →
      p ∈ (rest ++ r.2).map Prod.fst := by
    intro p hns hne he
    obtain ⟨x, hx⟩ := Finset.nonempty_iff_ne_empty.mpr hne
    have hdep : p ∈ rq.depends point := by
      by_contra hnd
      have hx' := (hrevdeps x p).mpr ⟨hx, fun hc => hnd hc.2⟩
      rw [he] at hx'
      exact Finset.notMem_empty x hx'
    rw [List.map_append, List.mem_append]
    exact Or.inr (hnew p hdep hns he)
  have harrived : ∀ {t p}, Arrived s ((point, task) :: rest) t p → Arrived r.1 rest t p := by
    rintro t p (ha | ha | ⟨x, hx, ht⟩)
    · by_cases heq : p = point
      · subst heq
        refine Or.inr (Or.inl ?_)
        rw [hcollated, hcollated0]
        exact Or.inr ⟨rfl, Finset.mem_union_right _ ha⟩
      · exact Or.inl ((hsquash t p).mpr (Or.inl (hsquash0.mpr ⟨ha, heq⟩)))
    · refine Or.inr (Or.inl ?_)
      rw [hcollated, hcollated0]
      exact Or.inl ha
    · rcases List.mem_cons.mp hx with hx | hx
      · obtain ⟨rfl, rfl⟩ := Prod.mk.inj hx
        refine Or.inr (Or.inl ?_)
        rw [hcollated, hcollated0]
        exact Or.inr ⟨rfl, Finset.mem_union_left _ ht⟩
      · exact Or.inr (Or.inr ⟨x, hx, ht⟩)
  constructor
  case squash_sound =>
    intro t p ht
    rcases (hsquash t p).mp ht with ht | ⟨hd, ht⟩
    · exact h.squash_sound (hsquash0.mp ht).1
    · exact ⟨(htasks ht).1, .through (htasks ht).2 hp hd⟩
  case queue_sound =>
    intro t p x hx ht
    rcases List.mem_append.mp hx with hx | hx
    · exact h.queue_sound (List.mem_append.mpr (Or.inl (List.mem_cons_of_mem _ hx))) ht
    · rcases hfrom p x hx with hx | ⟨rfl, hd⟩
      · exact h.queue_sound (List.mem_append.mpr (Or.inr hx)) ht
      · have := h.queue_sound List.mem_cons_self ht
        exact ⟨this.1, .through this.2 hp hd⟩
  case collated_sound =>
    intro t p hc
    rw [hcollated, hcollated0] at hc
    rcases hc with hc | ⟨rfl, ht⟩
    · exact h.collated_sound hc
    · exact ⟨(htasks ht).1, hp, (htasks ht).2⟩
  case revdeps =>
    intro x p
    rw [hrevdeps, h.revdeps, Finset.mem_insert]
    unfold TaskGraph.Dep
    constructor
    · rintro ⟨⟨h1, h2, h3⟩, h4⟩
      refine ⟨h1, h2, ?_⟩
      rintro (rfl | h5)
      · exact h4 ⟨rfl, h1⟩
      · exact h3 h5
    · rintro ⟨h1, h2, h3⟩
      exact ⟨⟨h1, h2, fun h4 => h3 (Or.inr h4)⟩, fun h4 => h3 (Or.inl h4.1)⟩
  case ready =>
    intro p hin hns he hd
    rw [Finset.mem_insert, not_or] at hd
    by_cases hbefore : s.sq_revdeps p = ∅
    · exact hkey hd.1 (h.ready hin hns hbefore hd.2)
    · exact hempty hns hbefore he
  case pending =>
    intro t p hns ht
    by_cases he : r.1.sq_revdeps p = ∅
    · refine Or.inl ?_
      rcases (hsquash t p).mp ht with ht | ⟨hd, _⟩
      · obtain ⟨ht, hne⟩ := hsquash0.mp ht
        rcases h.pending hns ht with hk | hk
        · exact hkey hne hk
        · exact hempty hns hk he
      · rw [List.map_append, List.mem_append]
        exact Or.inr (hnew p hd hns he)
    · exact Or.inr he
  case direct => exact fun ht hd => harrived (h.direct ht hd)
  case onward =>
    intro t p q hc hd
    rw [hcollated, hcollated0] at hc
    rcases hc with hc | ⟨rfl, ht⟩
    · exact harrived (h.onward hc hd)
    · exact Or.inl ((hsquash t q).mpr (Or.inr ⟨hd, ht⟩))

theorem round_spec (hacyclic : rq.Acyclic) {s : Collapse Tid} {done : Finset Tid}
    {rest new : Endpoints Tid} (h : Flow rq s done rest new) :
    ∀ r, rest.foldl (point_step rq) (s, new) = r → (∃ done', Flow rq r.1 done' [] r.2) ∧
      ∀ x ∈ r.2, x ∈ new ∨ ∃ y ∈ rest, rq.Dep y.1 x.1 := by
  rintro r rfl
  induction rest generalizing s done new with
  | nil => exact ⟨⟨done, h⟩, fun x hx => Or.inl hx⟩
  | cons endpoint rest ih =>
    obtain ⟨point, task⟩ := endpoint
    rw [List.foldl_cons]
    rcases hstep : point_step rq (s, new) (point, task) with ⟨s1, new1⟩
    have hfrom : ∀ x ∈ new1, x ∈ new ∨ rq.Dep point x.1 := by
      intro x hx
      unfold point_step at hstep
      dsimp only at hstep
      split at hstep
      · rw [← (Prod.mk.inj hstep).2] at hx
        exact Or.inl hx
      · obtain ⟨_, _, _, _, _, hfrom⟩ := dep_fold_spec rq point task _ _ _ new _ hstep
        exact (hfrom x.1 x.2 hx).imp_right fun h => h.2
    obtain ⟨done1, h1⟩ : ∃ done1, Flow rq s1 done1 rest new1 := by
      by_cases hp : point ∈ rq.runq_setscene_tids
      · exact ⟨_, h.setscene_point hp _ hstep⟩
      · exact ⟨_, h.normal_point hacyclic hp _ hstep⟩
    obtain ⟨h2, h3⟩ := ih h1
    refine ⟨h2, fun x hx => ?_⟩
    rcases h3 x hx with hx | ⟨y, hy, hd⟩
    · rcases hfrom x hx with hx | hd
      · exact Or.inl hx
      · exact Or.inr ⟨(point, task), List.mem_cons_self, hd⟩
    · exact Or.inr ⟨y, List.mem_cons_of_mem _ hy, hd⟩

omit [DecidableEq Tid] in
theorem Flow.next_round {s : Collapse Tid} {done : Finset Tid} {new : Endpoints Tid}
    (h : Flow rq s done [] new) : Flow rq s done new [] where
  squash_sound := h.squash_sound
  queue_sound := fun hx => h.queue_sound (by simpa using hx)
  collated_sound := h.collated_sound
  revdeps := h.revdeps
  ready := fun hin hns he hd => by simpa using h.ready hin hns he hd
  pending := fun hns ht => by simpa using h.pending hns ht
  direct := fun ht hd => (h.direct ht hd).imp_right (Or.imp_right (by simp))
  onward := fun hc hd => (h.onward hc hd).imp_right (Or.imp_right (by simp))

/-- A chain of `n` dependencies leads to the task. -/
def Deep (rq : RunQueueData Tid) (n : Nat) (p : Tid) : Prop :=
  ∃ chain, chain.length = n ∧ (p :: chain).IsChain (fun a b => rq.Dep b a) ∧
    ∀ t ∈ p :: chain, t ∈ rq.runtaskentries

omit [DecidableEq Tid] in
theorem Deep.lt {n : Nat} {p : Tid} (hacyclic : rq.Acyclic) (h : Deep rq n p) :
    n < rq.runtaskentries.length := by
  obtain ⟨chain, hlen, hchain, hmem⟩ := h
  have := hacyclic.length_le hchain hmem
  rw [List.length_cons] at this
  omega

omit [DecidableEq Tid] in
theorem Deep.succ {n : Nat} {p q : Tid} (h : Deep rq n p) (hd : rq.Dep p q) : Deep rq (n + 1) q := by
  obtain ⟨chain, hlen, hchain, hmem⟩ := h
  refine ⟨p :: chain, by rw [List.length_cons, hlen], List.isChain_cons_cons.mpr ⟨hd, hchain⟩, ?_⟩
  intro t ht
  rcases List.mem_cons.mp ht with rfl | ht
  · exact (rq.closed hd).2
  · exact hmem t ht

theorem process_endpoints_spec (hacyclic : rq.Acyclic) (calls n : Nat) {s : Collapse Tid}
    {done : Finset Tid} {endpoints : Endpoints Tid} (h : Flow rq s done endpoints [])
    (hdeep : ∀ x ∈ endpoints, Deep rq n x.1) (hcalls : rq.runtaskentries.length < calls + n)
    (hpos : calls = 0 → endpoints ≠ []) :
    ∃ s' done', process_endpoints rq calls s endpoints = some s' ∧ Flow rq s' done' [] [] := by
  induction calls generalizing n s done endpoints with
  | zero =>
    obtain ⟨x, xs, rfl⟩ := List.exists_cons_of_ne_nil (hpos rfl)
    have := (hdeep x List.mem_cons_self).lt hacyclic
    omega
  | succ calls ih =>
    unfold process_endpoints
    rcases hround : endpoints.foldl (point_step rq) (s, []) with ⟨s1, new⟩
    obtain ⟨⟨done1, h1⟩, hfrom⟩ := round_spec hacyclic h _ hround
    dsimp only
    split
    · rename_i hnil
      dsimp only at h1
      rw [hnil] at h1
      exact ⟨s1, done1, rfl, h1⟩
    · rename_i hne
      refine ih (n + 1) h1.next_round ?_ (by omega) (fun _ => hne)
      intro x hx
      rcases hfrom x hx with h0 | ⟨y, hy, hd⟩
      · cases h0
      · exact (hdeep y hy).succ hd

/-! ## The start and the end -/

theorem mem_of_mem_getD {e : Endpoints Tid} {p t : Tid} (h : t ∈ (e.get? p).getD ∅) :
    ∃ task, (p, task) ∈ e ∧ t ∈ task := by
  rcases hget : e.get? p with _ | task
  · simp [hget] at h
  · exact ⟨task, OrderedDict.mem_of_get? hget, by simpa [hget] using h⟩

theorem setscene_fold_spec (tid : Tid) (deps : List Tid) (acc : (Tid → Finset Tid) × Endpoints Tid) :
    ∀ r, deps.foldl (setscene_dep_step tid) acc = r →
      (∀ x p, x ∈ r.1 p ↔ x ∈ acc.1 p ∧ ¬ (x = tid ∧ p ∈ deps)) ∧
      (∀ p, p ∈ r.2.map Prod.fst ↔ p ∈ acc.2.map Prod.fst ∨ p ∈ deps) ∧
      (∀ t p, t ∈ (acc.2.get? p).getD ∅ ∨ t = tid ∧ p ∈ deps → t ∈ (r.2.get? p).getD ∅) ∧
      ∀ p x t, (p, x) ∈ r.2 → t ∈ x → (∃ x', (p, x') ∈ acc.2 ∧ t ∈ x') ∨ t = tid ∧ p ∈ deps := by
  rintro r rfl
  induction deps generalizing acc with
  | nil =>
    refine ⟨by simp, by simp, by simp, fun p x t hx ht => Or.inl ⟨x, hx, ht⟩⟩
  | cons dep deps ih =>
    rw [List.foldl_cons]
    obtain ⟨h1, h2, h3, h4⟩ := ih (setscene_dep_step tid acc dep)
    refine ⟨fun x p => ?_, fun p => ?_, fun t p ht => ?_, fun p x t hx ht => ?_⟩
    · rw [h1, setscene_dep_step]
      by_cases hp : p = dep
      · subst hp
        simp only [Function.update_self, Finset.mem_erase, List.mem_cons]
        tauto
      · simp [hp]
    · rw [h2, setscene_dep_step, OrderedDict.key_set, List.mem_cons, or_assoc]
    · apply h3
      rw [setscene_dep_step]
      by_cases hp : p = dep
      · subst hp
        rw [OrderedDict.get?_set_self, Option.getD_some, Finset.mem_insert]
        tauto
      · rw [OrderedDict.get?_set_other _ _ hp]
        simpa [hp] using ht
    · rcases h4 p x t hx ht with ⟨x', hx', ht'⟩ | ⟨rfl, hp⟩
      · rcases OrderedDict.mem_of_mem_set hx' with hx' | hx'
        · exact Or.inl ⟨x', hx', ht'⟩
        · obtain ⟨rfl, rfl⟩ := Prod.mk.inj hx'
          rcases Finset.mem_insert.mp ht' with rfl | ht'
          · exact Or.inr ⟨rfl, List.mem_cons_self⟩
          · exact Or.inl (mem_of_mem_getD ht')
      · exact Or.inr ⟨rfl, List.mem_cons_of_mem dep hp⟩

theorem setscene_folds_spec (rq : RunQueueData Tid) (tids : List Tid) (acc : (Tid → Finset Tid) × Endpoints Tid) :
    ∀ r, tids.foldl (fun acc tid => (rq.depends tid).foldl (setscene_dep_step tid) acc) acc = r →
      (∀ x p, x ∈ r.1 p ↔ x ∈ acc.1 p ∧ ¬ (x ∈ tids ∧ rq.Dep x p)) ∧
      (∀ p, p ∈ r.2.map Prod.fst ↔ p ∈ acc.2.map Prod.fst ∨ ∃ t ∈ tids, rq.Dep t p) ∧
      (∀ t p, t ∈ (acc.2.get? p).getD ∅ ∨ t ∈ tids ∧ rq.Dep t p → t ∈ (r.2.get? p).getD ∅) ∧
      ∀ p x t, (p, x) ∈ r.2 → t ∈ x → (∃ x', (p, x') ∈ acc.2 ∧ t ∈ x') ∨ t ∈ tids ∧ rq.Dep t p := by
  rintro r rfl
  induction tids generalizing acc with
  | nil =>
    refine ⟨by simp, by simp, by simp, fun p x t hx ht => Or.inl ⟨x, hx, ht⟩⟩
  | cons tid tids ih =>
    rw [List.foldl_cons]
    obtain ⟨a1, a2, a3, a4⟩ := setscene_fold_spec tid (rq.depends tid) acc _ rfl
    obtain ⟨b1, b2, b3, b4⟩ := ih ((rq.depends tid).foldl (setscene_dep_step tid) acc)
    refine ⟨fun x p => ?_, fun p => ?_, fun t p ht => b3 t p ?_, fun p x t hx ht => ?_⟩
    · rw [b1, a1, List.mem_cons]
      constructor
      · rintro ⟨⟨h1, h2⟩, h3⟩
        refine ⟨h1, ?_⟩
        rintro ⟨rfl | h4, h5⟩
        · exact h2 ⟨rfl, h5⟩
        · exact h3 ⟨h4, h5⟩
      · rintro ⟨h1, h2⟩
        refine ⟨⟨h1, ?_⟩, fun h4 => h2 ⟨Or.inr h4.1, h4.2⟩⟩
        rintro ⟨rfl, h5⟩
        exact h2 ⟨Or.inl rfl, h5⟩
    · rw [b2, a2, or_assoc]
      simp [TaskGraph.Dep]
    · rcases ht with ht | ⟨ht, hd⟩
      · exact Or.inl (a3 t p (Or.inl ht))
      · rcases List.mem_cons.mp ht with rfl | ht
        · exact Or.inl (a3 t p (Or.inr ⟨rfl, hd⟩))
        · exact Or.inr ⟨ht, hd⟩
    · rcases b4 p x t hx ht with ⟨x', hx', ht'⟩ | ⟨ht', hd⟩
      · rcases a4 p x' t hx' ht' with h | ⟨rfl, hd⟩
        · exact Or.inl h
        · exact Or.inr ⟨List.mem_cons_self, hd⟩
      · exact Or.inr ⟨List.mem_cons_of_mem tid ht', hd⟩

theorem start_flow (rq : RunQueueData Tid) :
    Flow rq (start_collapse rq).1 ∅ (start_collapse rq).2 [] ∧
      ∀ x ∈ (start_collapse rq).2, Deep rq 0 x.1 := by
  obtain ⟨h1, h2, h3, h4⟩ := setscene_folds_spec rq rq.runq_setscene_tids
    (fun tid => (rq.revdeps tid).toFinset, first_endpoints rq) _ rfl
  unfold start_collapse
  generalize rq.runq_setscene_tids.foldl _ _ = r at h1 h2 h3 h4 ⊢
  dsimp only at h1 h2 h3 h4 ⊢
  have hfirst : ∀ {p x}, (p, x) ∈ first_endpoints rq → x = ∅ ∧ p ∈ rq.runtaskentries := by
    intro p x hx
    obtain ⟨q, hq, heq⟩ := List.mem_map.mp hx
    obtain ⟨rfl, rfl⟩ := Prod.mk.inj heq
    exact ⟨rfl, (List.mem_filter.mp hq).1⟩
  have hsound : ∀ {p x t}, (p, x) ∈ r.2 → t ∈ x → t ∈ rq.runq_setscene_tids ∧ rq.Dep t p := by
    intro p x t hx ht
    rcases h4 p x t hx ht with ⟨x', hx', ht'⟩ | h
    · rw [(hfirst hx').1] at ht'
      exact absurd ht' (Finset.notMem_empty t)
    · exact h
  have hrev : ∀ {x p}, x ∈ r.1 p ↔ rq.Dep x p ∧ x ∉ rq.runq_setscene_tids := by
    intro x p
    rw [h1, List.mem_toFinset, rq.matching]
    unfold TaskGraph.Dep
    tauto
  refine ⟨?_, ?_⟩
  · constructor
    case squash_sound => exact fun ht => absurd ht (Finset.notMem_empty _)
    case queue_sound =>
      intro t p x hx ht
      rw [List.append_nil] at hx
      exact ⟨(hsound hx ht).1, .direct (hsound hx ht).2⟩
    case collated_sound => exact fun hc => absurd hc (Finset.notMem_empty _)
    case revdeps =>
      intro x p
      rw [hrev]
      simp
    case ready =>
      intro p hin hns he _
      rw [List.append_nil, h2]
      by_cases hroot : rq.revdeps p = []
      · refine Or.inl (List.mem_map.mpr ⟨(p, ∅), ?_, rfl⟩)
        exact List.mem_map.mpr ⟨p, List.mem_filter.mpr ⟨hin, by simp [hroot, hns]⟩, rfl⟩
      · -- all tasks that depend on it are setscene tasks
        obtain ⟨t, ts, hts⟩ := List.exists_cons_of_ne_nil hroot
        have hd : rq.Dep t p := rq.matching.mp (hts ▸ List.mem_cons_self)
        refine Or.inr ⟨t, ?_, hd⟩
        by_contra hnt
        have hmem : t ∈ r.1 p := hrev.mpr ⟨hd, hnt⟩
        have he' : r.1 p = ∅ := he
        rw [he'] at hmem
        exact Finset.notMem_empty t hmem
    case pending => exact fun _ ht => absurd ht (Finset.notMem_empty _)
    case direct =>
      intro t p ht hd
      obtain ⟨x, hx, ht'⟩ := mem_of_mem_getD (h3 t p (Or.inr ⟨ht, hd⟩))
      exact Or.inr (Or.inr ⟨x, hx, ht'⟩)
    case onward => exact fun hc _ => absurd hc (Finset.notMem_empty _)
  · rintro ⟨p, x⟩ hx
    have hin : p ∈ rq.runtaskentries := by
      rcases (h2 p).mp (List.mem_map.mpr ⟨(p, x), hx, rfl⟩) with h | ⟨t, _, hd⟩
      · obtain ⟨⟨q, x'⟩, hq, rfl⟩ := List.mem_map.mp h
        exact (hfirst hq).2
      · exact (rq.closed hd).2
    exact ⟨[], rfl, List.isChain_singleton p, by simpa using hin⟩

theorem Flow.settled (hacyclic : rq.Acyclic) {s : Collapse Tid} {done : Finset Tid}
    (h : Flow rq s done [] []) {p : Tid} (hp : p ∉ rq.runq_setscene_tids) :
    s.sq_revdeps_squash p = ∅ := by
  have hdone : ∀ q, q ∉ rq.runq_setscene_tids → q ∈ rq.runtaskentries → q ∈ done := by
    intro q
    induction q using hacyclic.wf.induction with
    | _ q ih =>
      intro hns hin
      by_contra hnd
      refine absurd (h.ready hin hns ?_ hnd) List.not_mem_nil
      apply Finset.eq_empty_of_forall_notMem
      intro x hx
      obtain ⟨hd, hxs, hxd⟩ := h.revdeps.mp hx
      exact hxd (ih x hd hxs (rq.closed hd).1)
  apply Finset.eq_empty_of_forall_notMem
  intro t ht
  rcases h.pending hp ht with hk | hne
  · exact absurd hk List.not_mem_nil
  · obtain ⟨x, hx⟩ := Finset.nonempty_iff_ne_empty.mpr hne
    obtain ⟨hd, hxs, hxd⟩ := h.revdeps.mp hx
    exact hxd (hdone x hxs (rq.closed hd).1)

theorem Flow.complete (hacyclic : rq.Acyclic) {s : Collapse Tid} {done : Finset Tid}
    (h : Flow rq s done [] []) {t p : Tid} (ht : t ∈ rq.runq_setscene_tids) (hc : Covers rq t p) :
    if p ∈ rq.runq_setscene_tids then t ∈ s.sq_revdeps_squash p else p ∈ s.sq_collated_deps t := by
  have harrived : ∀ {q}, Arrived s [] t q →
      if q ∈ rq.runq_setscene_tids then t ∈ s.sq_revdeps_squash q else q ∈ s.sq_collated_deps t := by
    rintro q (ha | ha | ⟨x, hx, _⟩)
    · by_cases hq : q ∈ rq.runq_setscene_tids
      · rwa [if_pos hq]
      · rw [h.settled hacyclic hq] at ha
        exact absurd ha (Finset.notMem_empty t)
    · rwa [if_neg (h.collated_sound ha).2.1]
    · cases hx
  induction hc with
  | direct hd => exact harrived (h.direct ht hd)
  | through _ hns hd ih =>
    rw [if_neg hns] at ih
    exact harrived (h.onward ih hd)

/-! ## The loop over the unskippable tasks -/

theorem unskippable_loop_ends (rq : RunQueueData Tid) (turns : Nat) {orig : Finset Tid} (buildable : Finset Tid)
    (hin : orig ⊆ rq.runtaskentries.toFinset) (hturns : rq.runtaskentries.length < turns + orig.card) :
    ∃ r, unskippable_loop rq turns orig buildable = some r := by
  induction turns generalizing orig buildable with
  | zero =>
    have hcard := Finset.card_le_card hin
    have hlen := List.toFinset_card_le rq.runtaskentries
    omega
  | succ turns ih =>
    unfold unskippable_loop
    dsimp only
    split
    · exact ⟨_, rfl⟩
    · rename_i hne
      apply ih
      · intro t ht
        rcases Finset.mem_union.mp ht with ht | ht
        · exact hin ht
        · obtain ⟨q, _, hq⟩ := Finset.mem_biUnion.mp ht
          rw [List.mem_toFinset] at hq ⊢
          exact (rq.closed hq).2
      · have hlt := Finset.card_lt_card (Finset.ssubset_iff_subset_ne.mpr
          ⟨Finset.subset_union_left, fun h => hne h.symm⟩)
        omega

/-! ## The laws -/

/-- Coverage and neighbourhood of the setscene tasks, as the paths have it. -/
structure Exact (rq : RunQueueData Tid) (sq : SQData Tid) : Prop where
  covered : ∀ s ∈ rq.runq_setscene_tids, ∀ p,
    p ∈ sq.sq_covered_tasks s ↔ p ∉ rq.runq_setscene_tids ∧ Covers rq s p
  revdeps : ∀ s ∈ rq.runq_setscene_tids, ∀ t,
    t ∈ sq.sq_revdeps s ↔ t ∈ rq.runq_setscene_tids ∧ Covers rq t s
  deps : ∀ s ∈ rq.runq_setscene_tids, ∀ t,
    t ∈ sq.sq_deps s ↔ t ∈ rq.runq_setscene_tids ∧ s ∈ sq.sq_revdeps t

/-- For every acyclic graph and every set of setscene tasks the construction ends without its
sanity check, and what it gives is exact. It can only refuse a hard dependency on a task that
does not exist. -/
theorem the_collapse_of_an_acyclic_graph_is_exact (rq : RunQueueData Tid) (hacyclic : rq.Acyclic) :
    (∀ e, build_scenequeue_data rq = .error e → e = .nonExistent ∧
      ∃ t ∈ rq.runq_setscene_tids, ∃ dep ∈ rq.hard_deptids t, dep ∉ rq.runtaskentries) ∧
    ∀ sq q, build_scenequeue_data rq = .ok (sq, q) → Exact rq sq := by
  obtain ⟨hflow, hdeep⟩ := start_flow rq
  obtain ⟨s, done, hprocess, hs⟩ := process_endpoints_spec hacyclic (rq.runtaskentries.length + 1) 0
    hflow hdeep (by omega) (by omega)
  have hroots : (rq.runtaskentries.toFinset.filter fun tid => rq.revdeps tid = []) ∪
      (rq.target_tids.toFinset.filter fun tid => tid ∉ rq.runq_setscene_tids ∧ tid ∈ rq.runtaskentries) ⊆
      rq.runtaskentries.toFinset := by
    intro t ht
    rcases Finset.mem_union.mp ht with ht | ht
    · exact (Finset.mem_filter.mp ht).1
    · exact List.mem_toFinset.mpr (Finset.mem_filter.mp ht).2.2
  obtain ⟨⟨unskippable, buildable⟩, hloop⟩ := unskippable_loop_ends rq
    (rq.runtaskentries.length + 1) ∅ hroots (by omega)
  have hsane : ¬ ∃ tid ∈ rq.runtaskentries, tid ∉ rq.runq_setscene_tids ∧
      s.sq_revdeps_squash tid ≠ ∅ := by
    rintro ⟨t, _, hns, hne⟩
    exact hne (hs.settled hacyclic hns)
  unfold build_scenequeue_data
  dsimp only
  rw [hprocess]
  dsimp only
  rw [hloop]
  dsimp only
  rw [if_neg hsane]
  split
  · rename_i hmissing
    refine ⟨?_, fun _ _ h => by cases h⟩
    rintro e ⟨⟩
    exact ⟨rfl, hmissing⟩
  · refine ⟨fun _ h => (by cases h), ?_⟩
    rintro sq q ⟨⟩
    constructor
    case covered =>
      intro t ht p
      constructor
      · intro hp
        exact (hs.collated_sound hp).2
      · rintro ⟨hns, hc⟩
        have := hs.complete hacyclic ht hc
        rwa [if_neg hns] at this
    case revdeps =>
      intro p hp t
      simp only [if_pos hp]
      constructor
      · exact hs.squash_sound
      · rintro ⟨ht, hc⟩
        have := hs.complete hacyclic ht hc
        rwa [if_pos hp] at this
    case deps =>
      intro p hp t
      simp only [those, Finset.mem_filter, List.mem_toFinset]
      constructor
      · rintro ⟨ht, hmem⟩
        exact ⟨ht, by rwa [if_pos ht]⟩
      · rintro ⟨ht, hmem⟩
        exact ⟨ht, by rwa [if_pos ht] at hmem⟩

def threeTasks : RunQueueData (Fin 3) where
  runtaskentries := [0, 1, 2]
  depends := ![[1], [2], []]
  revdeps := ![[], [0], [1]]
  closed := by decide
  matching := by decide
  runq_setscene_tids := [0, 2]
  target_tids := [0]
  hard_deptids := fun _ => []
  setscene_mem := by decide

theorem three_tasks_collapse : ∃ sq q, build_scenequeue_data threeTasks = .ok (sq, q) ∧
    Exact threeTasks sq := by
  have hacyclic : threeTasks.Acyclic := by
    apply acyclic_of_lt Fin.val
    unfold TaskGraph.Dep
    decide
  obtain ⟨herr, hok⟩ := the_collapse_of_an_acyclic_graph_is_exact threeTasks hacyclic
  rcases hbuild : build_scenequeue_data threeTasks with e | ⟨sq, q⟩
  · obtain ⟨_, t, _, dep, hdep, _⟩ := herr e hbuild
    cases hdep
  · exact ⟨sq, q, rfl, hok sq q hbuild⟩

/-! ## No setscene tasks wait for each other -/

omit [DecidableEq Tid] in
theorem Covers.transGen {s p : Tid} (h : Covers rq s p) : Relation.TransGen rq.Dep s p := by
  induction h with
  | direct hd => exact .single hd
  | through _ _ hd ih => exact ih.tail hd

theorem covers_of_build (hacyclic : rq.Acyclic) {sq : SQData Tid} {q : SQRunQueue Tid}
    (h : build_scenequeue_data rq = .ok (sq, q)) {s t : Tid} (ht : t ∈ sq.sq_revdeps s) : Covers rq t s := by
  obtain ⟨hflow, hdeep⟩ := start_flow rq
  obtain ⟨s', done, hprocess, hs⟩ := process_endpoints_spec hacyclic (rq.runtaskentries.length + 1) 0
    hflow hdeep (by omega) (by omega)
  unfold build_scenequeue_data at h
  dsimp only at h
  rw [hprocess] at h
  dsimp only at h
  split at h
  · cases h
  · split_ifs at h
    obtain ⟨rfl, rfl⟩ := Prod.mk.inj (Except.ok.inj h)
    dsimp only at ht
    split_ifs at ht with hsetscene
    · exact (hs.squash_sound ht).2
    · cases ht

/-- Of any tasks that are left there is one that waits for none of them: the collapsed graph of an
acyclic one never deadlocks. -/
theorem a_setscene_task_is_ready (hacyclic : rq.Acyclic) {sq : SQData Tid} {q : SQRunQueue Tid}
    (h : build_scenequeue_data rq = .ok (sq, q)) {waiting : Finset Tid} (hne : waiting.Nonempty) :
    ∃ t ∈ waiting, Disjoint (sq.sq_revdeps t) waiting := by
  obtain ⟨t, ht, hleast⟩ := hacyclic.wf.transGen.has_min (waiting : Set Tid) hne
  refine ⟨t, ht, Finset.disjoint_left.mpr fun x hx hwaiting => ?_⟩
  exact hleast x hwaiting (covers_of_build hacyclic h hx).transGen

theorem one_of_two_is_ready : ∃ sq q, build_scenequeue_data threeTasks = .ok (sq, q) ∧
    ∃ t ∈ ({0, 2} : Finset (Fin 3)), Disjoint (sq.sq_revdeps t) {0, 2} := by
  have hacyclic : threeTasks.Acyclic := by
    apply acyclic_of_lt Fin.val
    unfold TaskGraph.Dep
    decide
  have hbuild := @build_of_isSome _ _ threeTasks (by decide)
  exact ⟨_, _, hbuild, a_setscene_task_is_ready hacyclic hbuild ⟨0, by decide⟩⟩

end yocto.scene_collapse
