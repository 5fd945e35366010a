-- The dependencies that get into the sysroot of a recipe (`extend_recipe_sysroot`).
import Yocto.DataSmart
import Yocto.Elimination
import Yocto.Frontier
import Mathlib.Data.Finset.Sort

open yocto.task_ids yocto.data_smart yocto.elimination yocto.frontier

namespace yocto.sysroot_dependencies

variable {Tid : Type} [LinearOrder Tid]

/-! ## The table -/

structure Entry (Tid : Type) where
  pn : Text
  taskname : Text
  deps : Finset Tid

/-- The variables of the running task, and its table. The patterns of SSTATE_EXCLUDEDEPS_SYSROOT
are given by what they match. -/
structure Build (Tid : Type) [LinearOrder Tid] where
  PN : Text
  mytaskname : Text
  SSTATETASKS : Text
  excludedeps : List ((Text → Bool) × (Text → Bool))
  tasks : Finset Tid
  taskdepdata : Tid → Entry Tid
  closed : ∀ x ∈ tasks, (taskdepdata x).deps ⊆ tasks
  me : Tid
  running : ∀ x ∈ tasks, ((taskdepdata x).taskname = mytaskname ∧ (taskdepdata x).pn = PN ↔ x = me)
  me_mem : me ∈ tasks

def Build.deps (b : Build Tid) (x : Tid) : Finset Tid := (b.taskdepdata x).deps

/-- The orders in which a run meets the table, the start set and the dependency sets. -/
structure Orders (b : Build Tid) where
  table : List Tid
  table_nodup : table.Nodup
  mem_table : ∀ x, x ∈ table ↔ x ∈ b.tasks
  start : Finset Tid → List Tid
  mem_start : ∀ s x, x ∈ start s ↔ x ∈ s
  deps : Tid → Finset Tid → List Tid
  mem_deps : ∀ dep s x, x ∈ deps dep s ↔ x ∈ s

/-! ## Which dependencies are valid -/

def among (names : List String) (x : Text) : Bool := names.any fun name => text name = x

def directtasks : List String :=
  ["do_populate_lic", "do_deploy_source_date_epoch", "do_shared_workdir", "do_stash_locale",
    "do_gcc_stash_builddir", "do_create_spdx", "do_deploy_archives"]

def isNativeCross (x : Text) : Bool :=
  (text "-native").isSuffixOf x || decide (text "-cross-" <:+: x) || decide (text "-crosssdk" <:+: x) ||
    (text "-cross").isSuffixOf x

/-- What one dependee says of the task: none when the loop goes on. -/
def depvalid_turn (b : Build Tid) (task dep : Tid) : Option Bool :=
  let t := b.taskdepdata task
  let e := b.taskdepdata dep
  if t.taskname = text "do_package" && among ["do_package", "do_package_write_deb", "do_package_write_ipk",
      "do_package_write_rpm", "do_packagedata", "do_package_qa"] e.taskname then none
  else if t.taskname = text "do_populate_sysroot" &&
      among ["do_package_write_deb", "do_package_write_ipk", "do_package_write_rpm"] e.taskname then some false
  else if t.taskname = text "do_populate_sysroot" &&
      among ["do_package", "do_packagedata", "do_package_qa", "do_deploy"] e.taskname then none
  else if isNativeCross e.pn && among ["do_package_write_deb", "do_package_write_ipk", "do_package_write_rpm",
      "do_packagedata", "do_package", "do_package_qa"] e.taskname then none
  else if t.taskname = text "do_populate_sysroot" && e.taskname = text "do_populate_sysroot" then
    if b.excludedeps.any fun excl => excl.1 e.pn && excl.2 t.pn then none
    else if e.pn = text "meta-extsdk-toolchain" then some false
    else if isNativeCross t.pn && isNativeCross e.pn then some false
    else if isNativeCross e.pn then some false
    else if isNativeCross t.pn && t.pn ≠ text "shadow-native" then none
    else some false
  else if among directtasks e.taskname then none
  else some false

def depvalid_loop (b : Build Tid) (task : Tid) (notneeded : List Tid) : List Tid → Bool
  | [] => true
  | dep :: deps =>
    if task = dep then depvalid_loop b task notneeded deps
    else if notneeded.contains dep then depvalid_loop b task notneeded deps
    else (depvalid_turn b task dep).getD (depvalid_loop b task notneeded deps)

/-- The task can be skipped, for these dependees (the task itself is one of them). -/
def setscene_depvalid (b : Build Tid) (task : Tid) (taskdependees notneeded : List Tid) : Bool :=
  if among directtasks (b.taskdepdata task).taskname then true
  else if (b.taskdepdata task).taskname = text "do_packagedata" then
    !taskdependees.any fun dep => (b.taskdepdata dep).taskname = text "do_packagedata"
  else depvalid_loop b task notneeded taskdependees

/-! ## The collapse -/

def find_start (b : Build Tid) (table : List Tid) : Option Tid :=
  table.foldl (fun start dep =>
    if (b.taskdepdata dep).taskname = b.mytaskname && (b.taskdepdata dep).pn = b.PN then some dep else start) none

def Build.sstatetasks (b : Build Tid) : List Text :=
  words b.SSTATETASKS ++ [text "do_stash_locale", text "do_deploy"]

def Build.is_sstate (b : Build Tid) (x : Tid) : Bool :=
  b.sstatetasks.any fun name => name = (b.taskdepdata x).taskname

structure Tree (Tid : Type) where
  keys : List Tid
  deps : Tid → Finset Tid
  start : Finset Tid

/-- The users of a task that is no sstate task get its dependencies, and it goes. -/
def collapse_turn (b : Build Tid) (s : Tree Tid) (dep : Tid) : Tree Tid :=
  if b.is_sstate dep then s
  else
    let deps := s.keys.foldl (fun deps dep2 => Function.update deps dep2 (push dep (deps dep) (deps dep2))) s.deps
    ⟨s.keys.erase dep, deps, push dep (deps dep) s.start⟩

def remove_circular (s : Tree Tid) : Tree Tid :=
  { s with deps := s.keys.foldl (fun deps dep => Function.update deps dep ((deps dep).erase dep)) s.deps }

/-- The tree of a running task, from its own dependencies. -/
def collapse (b : Build Tid) (table : List Tid) (start : Tid) : Tree Tid :=
  remove_circular (table.foldl (collapse_turn b) ⟨table, b.deps, (insert start (b.deps start)).erase start⟩)

/-! ## The work list -/

def Build.populates (b : Build Tid) (x : Tid) : Bool :=
  (b.taskdepdata x).taskname = text "do_populate_sysroot"

structure Work (Tid : Type) where
  done : List Tid
  new : List Tid
  configuredeps : List Tid

/-- `configuredeps`, with a task if it populates the sysroot and is not there. -/
def configure (b : Build Tid) (configuredeps : List Tid) (x : Tid) : List Tid :=
  if !configuredeps.contains x && b.populates x then configuredeps ++ [x] else configuredeps

def consider (b : Build Tid) (dep : Tid) (w : Work Tid) (datadep : Tid) : Work Tid :=
  if w.done.contains datadep then w
  else if setscene_depvalid b datadep [dep, datadep] [] then w
  else ⟨w.done ++ [datadep], w.new ++ [datadep], configure b w.configuredeps datadep⟩

def turn (b : Build Tid) (o : Orders b) (s : Tree Tid) (w : Work Tid) (dep : Tid) : Work Tid :=
  (o.deps dep (s.deps dep)).foldl (consider b dep) w

/-- The loop, None when it has not ended after `turns`. -/
def work_list (b : Build Tid) (o : Orders b) (s : Tree Tid) : Nat → List Tid → Work Tid → Option (Work Tid)
  | 0, _, _ => none
  | turns + 1, next, w =>
    if next = [] then some w
    else
      let w' := next.foldl (turn b o s) { w with new := [] }
      work_list b o s turns w'.new w'

/-- The collapsed tree and the tasks whose files get into the sysroot. -/
def extend_recipe_sysroot (b : Build Tid) (o : Orders b) : Option (Tree Tid × List Tid) := do
  let start ← find_start b o.table
  let s := collapse b o.table start
  let direct := s.start.sort.foldl (configure b) []
  let w ← work_list b o s (o.table.length + 1) (o.start s.start) ⟨o.start s.start, [], direct⟩
  return (s, w.configuredeps)

variable {b : Build Tid}

/-! ## The collapsed tree -/

def Build.passed (b : Build Tid) : Finset Tid := b.tasks.filter fun x => b.is_sstate x = false

/-- The sstate task `y` is reached from the tasks of `s` through tasks that are no sstate tasks. -/
def Build.Reached (b : Build Tid) (s : Finset Tid) (y : Tid) : Prop :=
  y ∈ b.tasks ∧ b.is_sstate y = true ∧ Through b.deps b.passed s y

def Build.direct (b : Build Tid) : Finset Tid := (b.deps b.me).erase b.me

theorem find_start_eq (o : Orders b) : find_start b o.table = some b.me := by
  have hfold : ∀ (l : List Tid) (start : Option Tid), (∀ x ∈ l, x ∈ b.tasks) → (b.me ∈ l ∨ start = some b.me) →
      l.foldl (fun start dep => if (b.taskdepdata dep).taskname = b.mytaskname && (b.taskdepdata dep).pn = b.PN
        then some dep else start) start = some b.me := by
    intro l
    induction l with
    | nil =>
      rintro start - (hin | hstart)
      · exact absurd hin List.not_mem_nil
      · exact hstart
    | cons x l ih =>
      intro start hl hor
      rw [List.foldl_cons]
      apply ih _ fun y hy => hl y (List.mem_cons_of_mem x hy)
      have hrun := b.running x (hl x List.mem_cons_self)
      by_cases hme : x = b.me
      · right
        rw [if_pos (by simpa using hrun.mpr hme), hme]
      · have hno : ¬((b.taskdepdata x).taskname = b.mytaskname && (b.taskdepdata x).pn = b.PN) = true := by
          simpa using fun h1 h2 => hme (hrun.mp ⟨h1, h2⟩)
        rw [if_neg hno]
        refine hor.imp_left fun hin => ?_
        exact (List.mem_cons.mp hin).resolve_left fun heq => hme heq.symm
  unfold find_start
  apply hfold
  · exact fun x hx => (o.mem_table x).mp hx
  · exact Or.inl ((o.mem_table b.me).mpr b.me_mem)

theorem push_fold (dep : Tid) (ds : Finset Tid) (keys : List Tid) (hnodup : keys.Nodup) (deps : Tid → Finset Tid)
    (hds : ∀ s, push dep (deps dep) s = push dep ds s) (x : Tid) :
    keys.foldl (fun deps dep2 => Function.update deps dep2 (push dep (deps dep) (deps dep2))) deps x =
      if x ∈ keys then push dep ds (deps x) else deps x := by
  induction keys generalizing deps with
  | nil => simp
  | cons k keys ih =>
    obtain ⟨hk, hnodup⟩ := List.nodup_cons.mp hnodup
    have hds' : ∀ s, push dep (Function.update deps k (push dep (deps dep) (deps k)) dep) s = push dep ds s := by
      intro s
      by_cases hdep : dep = k
      · subst hdep
        rw [Function.update_self, push_self, push_erase, hds]
      · rw [Function.update_of_ne hdep, hds]
    rw [List.foldl_cons, ih hnodup _ hds']
    by_cases hx : x = k
    · subst hx
      rw [if_neg hk, if_pos List.mem_cons_self, Function.update_self, hds]
    · rw [Function.update_of_ne hx]
      simp [hx]

theorem erase_fold (keys : List Tid) (hnodup : keys.Nodup) (deps : Tid → Finset Tid) (x : Tid) :
    keys.foldl (fun deps dep => Function.update deps dep ((deps dep).erase dep)) deps x =
      if x ∈ keys then (deps x).erase x else deps x := by
  induction keys generalizing deps with
  | nil => simp
  | cons k keys ih =>
    obtain ⟨hk, hnodup⟩ := List.nodup_cons.mp hnodup
    rw [List.foldl_cons, ih hnodup]
    by_cases hx : x = k
    · subst hx
      rw [if_neg hk, if_pos List.mem_cons_self, Function.update_self]
    · rw [Function.update_of_ne hx]
      simp [hx]

/-- The tree when the tasks of `gone` were taken out. -/
structure Collapsed (b : Build Tid) (gone : Finset Tid) (s : Tree Tid) : Prop where
  nodup : s.keys.Nodup
  keys : ∀ x, x ∈ s.keys ↔ x ∈ b.tasks ∧ x ∉ gone
  deps : ∀ x ∈ s.keys, Left b.deps gone (b.deps x) (s.deps x)
  start : Left b.deps gone b.direct s.start

theorem Collapsed.turn {gone : Finset Tid} {s : Tree Tid} (h : Collapsed b gone s) {dep : Tid}
    (hdep : dep ∈ b.tasks) (hgone : dep ∉ gone) :
    Collapsed b (if b.is_sstate dep then gone else insert dep gone) (collapse_turn b s dep) := by
  unfold collapse_turn
  split
  · exact h
  · have hkey : dep ∈ s.keys := (h.keys dep).mpr ⟨hdep, hgone⟩
    have hown := h.deps dep hkey
    have hfold := push_fold dep (s.deps dep) s.keys h.nodup s.deps fun _ => rfl
    constructor
    case nodup => exact h.nodup.erase dep
    case keys =>
      intro x
      rw [h.nodup.mem_erase_iff, h.keys x, Finset.mem_insert]
      tauto
    case deps =>
      intro x hx
      have hx' := List.mem_of_mem_erase hx
      dsimp only
      rw [hfold x, if_pos hx']
      exact (h.deps x hx').push hown hgone
    case start =>
      dsimp only
      rw [hfold dep, if_pos hkey, push_self, push_erase]
      exact h.start.push hown hgone

theorem Collapsed.run {gone : Finset Tid} {s : Tree Tid} (h : Collapsed b gone s) {l : List Tid} (hnodup : l.Nodup)
    (hl : ∀ x ∈ l, x ∈ b.tasks ∧ x ∉ gone) :
    Collapsed b (gone ∪ l.toFinset.filter fun x => b.is_sstate x = false) (l.foldl (collapse_turn b) s) := by
  induction l generalizing gone s with
  | nil => simpa using h
  | cons x l ih =>
    obtain ⟨hx, hnodup⟩ := List.nodup_cons.mp hnodup
    obtain ⟨hin, hout⟩ := hl x List.mem_cons_self
    have hnext := ih (h.turn hin hout) hnodup (by
      intro y hy
      refine ⟨(hl y (List.mem_cons_of_mem x hy)).1, ?_⟩
      have hold := (hl y (List.mem_cons_of_mem x hy)).2
      split
      · exact hold
      · exact fun hy' => (Finset.mem_insert.mp hy').elim (fun heq => hx (heq ▸ hy)) hold)
    rw [List.foldl_cons]
    convert hnext using 1
    ext y
    by_cases hs : b.is_sstate x
    · simp [hs, Finset.filter_insert]
    · simp [hs, Finset.filter_insert]

theorem collapse_spec (o : Orders b) : ∀ s, collapse b o.table b.me = s →
    s.keys.Nodup ∧ (∀ x, x ∈ s.keys ↔ x ∈ b.tasks ∧ b.is_sstate x = true) ∧
    (∀ x ∈ s.keys, ∀ y, y ∈ s.deps x ↔ y ≠ x ∧ b.Reached (b.deps x) y) ∧
    ∀ y, y ∈ s.start ↔ b.Reached b.direct y := by
  rintro s rfl
  have hdirect : (insert b.me (b.deps b.me)).erase b.me = b.direct := by
    ext x
    rw [Build.direct, Finset.mem_erase, Finset.mem_erase, Finset.mem_insert]
    tauto
  have hbegin : Collapsed b ∅ ⟨o.table, b.deps, (insert b.me (b.deps b.me)).erase b.me⟩ := by
    refine ⟨o.table_nodup, fun x => ?_, fun x _ => left_empty b.deps _, ?_⟩
    · simp [o.mem_table x]
    · rw [hdirect]
      exact left_empty b.deps _
  have hrun := hbegin.run o.table_nodup fun x hx => ⟨(o.mem_table x).mp hx, Finset.notMem_empty x⟩
  have hgone : (∅ ∪ o.table.toFinset.filter fun x => b.is_sstate x = false) = b.passed := by
    ext x
    simp [Build.passed, o.mem_table x]
  rw [hgone] at hrun
  have hleft : ∀ {s s' : Finset Tid}, s ⊆ b.tasks → Left b.deps b.passed s s' →
      ∀ y, y ∈ s' ↔ b.Reached s y := by
    intro s s' hs h y
    rw [h y]
    constructor
    · rintro ⟨hy, hway⟩
      have hin := hway.inside b.closed (Finset.filter_subset _ _) hs
      exact ⟨hin, by simpa [Build.passed, hin] using hy, hway⟩
    · rintro ⟨-, hshared, hway⟩
      exact ⟨by simp [Build.passed, hshared], hway⟩
  unfold collapse remove_circular
  dsimp only
  refine ⟨hrun.nodup, fun x => ?_, fun x hx y => ?_, hleft ?_ hrun.start⟩
  · rw [hrun.keys x]
    constructor
    · rintro ⟨hin, hout⟩
      exact ⟨hin, by simpa [Build.passed, hin] using hout⟩
    · rintro ⟨hin, hshared⟩
      exact ⟨hin, by simp [Build.passed, hshared]⟩
  · rw [erase_fold _ hrun.nodup, if_pos hx, Finset.mem_erase]
    exact and_congr_right fun _ => hleft (b.closed x ((hrun.keys x).mp hx).1) (hrun.deps x hx) y
  · exact (Finset.erase_subset _ _).trans (b.closed b.me b.me_mem)

/-! ## The tasks that are followed -/

/-- The dependencies of the collapsed tree that are not skipped. -/
def follows (b : Build Tid) (s : Tree Tid) (x : Tid) : Finset Tid :=
  (s.deps x).filter fun y => setscene_depvalid b y [x, y] [] = false

/-- The work that was done took in the tasks of `p`. -/
structure Grown (w w' : Work Tid) (p : Tid → Prop) : Prop where
  done : ∀ y, y ∈ w'.done ↔ y ∈ w.done ∨ p y
  new : ∀ y, y ∈ w'.new ↔ y ∈ w.new ∨ p y ∧ y ∉ w.done

theorem Grown.trans {w w1 w2 : Work Tid} {p q : Tid → Prop} (h : Grown w w1 p) (h' : Grown w1 w2 q) :
    Grown w w2 fun y => p y ∨ q y := by
  constructor
  · intro y
    rw [h'.done, h.done, or_assoc]
  · intro y
    rw [h'.new, h.new, h.done]
    tauto

omit [LinearOrder Tid] in
theorem Grown.congr {w w' : Work Tid} {p q : Tid → Prop} (h : Grown w w' p) (hpq : ∀ y, p y ↔ q y) :
    Grown w w' q := by
  rwa [← funext fun y => propext (hpq y)]

theorem grown_fold {f : Work Tid → Tid → Work Tid} {p : Tid → Tid → Prop} (hf : ∀ w x, Grown w (f w x) (p x))
    (l : List Tid) (w : Work Tid) : Grown w (l.foldl f w) fun y => ∃ x ∈ l, p x y := by
  induction l generalizing w with
  | nil => constructor <;> simp
  | cons x l ih => exact ((hf w x).trans (ih (f w x))).congr (by simp)

/-- The tasks of `configuredeps` are those that are done and populate the sysroot. -/
structure Settled (b : Build Tid) (done configuredeps : List Tid) : Prop where
  nodup : configuredeps.Nodup
  mem : ∀ y, y ∈ configuredeps ↔ y ∈ done ∧ b.populates y = true

theorem Settled.add {done configuredeps : List Tid} (h : Settled b done configuredeps) (x : Tid) :
    Settled b (done ++ [x]) (configure b configuredeps x) := by
  unfold configure
  split
  · rename_i hcond
    have hx : x ∉ configuredeps ∧ b.populates x = true := by simpa using hcond
    constructor
    · exact h.nodup.append (List.nodup_singleton x) (by simpa using hx.1)
    · intro y
      rw [List.mem_append, List.mem_append, List.mem_singleton, h.mem y]
      constructor
      · rintro (hy | rfl)
        · exact ⟨Or.inl hy.1, hy.2⟩
        · exact ⟨Or.inr rfl, hx.2⟩
      · rintro ⟨hy | rfl, hp⟩
        · exact Or.inl ⟨hy, hp⟩
        · exact Or.inr rfl
  · rename_i hcond
    have hx : ¬(x ∉ configuredeps ∧ b.populates x = true) := by simpa using hcond
    refine ⟨h.nodup, fun y => ?_⟩
    rw [List.mem_append, List.mem_singleton, h.mem y]
    constructor
    · exact fun hy => ⟨Or.inl hy.1, hy.2⟩
    · rintro ⟨hy | rfl, hp⟩
      · exact ⟨hy, hp⟩
      · -- it is there already
        exact (h.mem y).mp (by_contra fun hno => hx ⟨hno, hp⟩)

theorem settled_fold (l done configuredeps : List Tid) (h : Settled b done configuredeps) :
    Settled b (done ++ l) (l.foldl (configure b) configuredeps) := by
  induction l generalizing done configuredeps with
  | nil => simpa using h
  | cons x l ih => simpa using ih _ _ (h.add x)

theorem consider_grown (dep : Tid) (w : Work Tid) (x : Tid) :
    Grown w (consider b dep w x) fun y => y = x ∧ setscene_depvalid b x [dep, x] [] = false := by
  unfold consider
  split
  · rename_i hin
    have hx : x ∈ w.done := by simpa using hin
    constructor
    · intro y
      exact ⟨Or.inl, fun hy => hy.elim id fun hy => hy.1 ▸ hx⟩
    · intro y
      exact ⟨Or.inl, fun hy => hy.elim id fun hy => absurd (hy.1.1 ▸ hx) hy.2⟩
  · rename_i hin
    have hx : x ∉ w.done := by simpa using hin
    split
    · rename_i hvalid
      constructor <;> simp [hvalid]
    · rename_i hvalid
      have hneeded : setscene_depvalid b x [dep, x] [] = false := by simpa using hvalid
      constructor
      · simp [hneeded]
      · intro y
        rw [List.mem_append, List.mem_singleton]
        apply or_congr_right
        exact ⟨fun heq => ⟨⟨heq, hneeded⟩, heq ▸ hx⟩, fun hy => hy.1.1⟩

theorem consider_settled (dep : Tid) {w : Work Tid} (h : Settled b w.done w.configuredeps) (x : Tid) :
    Settled b (consider b dep w x).done (consider b dep w x).configuredeps := by
  unfold consider
  split
  · exact h
  · split
    · exact h
    · exact h.add x

theorem turn_grown (o : Orders b) (s : Tree Tid) (w : Work Tid) (dep : Tid) :
    Grown w (turn b o s w dep) fun y => y ∈ follows b s dep := by
  apply (grown_fold (consider_grown dep) (o.deps dep (s.deps dep)) w).congr
  intro y
  rw [follows, Finset.mem_filter]
  constructor
  · rintro ⟨x, hx, rfl, hneeded⟩
    exact ⟨(o.mem_deps dep _ y).mp hx, hneeded⟩
  · exact fun hy => ⟨y, (o.mem_deps dep _ y).mpr hy.1, rfl, hy.2⟩

theorem turn_settled (o : Orders b) (s : Tree Tid) {w : Work Tid} (h : Settled b w.done w.configuredeps)
    (dep : Tid) : Settled b (turn b o s w dep).done (turn b o s w dep).configuredeps := by
  unfold turn
  induction o.deps dep (s.deps dep) generalizing w with
  | nil => exact h
  | cons x l ih => exact ih (consider_settled dep h x)

theorem round_settled (o : Orders b) (s : Tree Tid) (next : List Tid) {w : Work Tid}
    (h : Settled b w.done w.configuredeps) :
    Settled b (next.foldl (turn b o s) w).done (next.foldl (turn b o s) w).configuredeps := by
  induction next generalizing w with
  | nil => exact h
  | cons dep next ih => exact ih (turn_settled o s h dep)

theorem work_list_of_spread (o : Orders b) (s : Tree Tid) {turns : Nat} {next : List Tid} {w : Work Tid}
    {total result : Finset Tid} (hdone : w.done.toFinset = total ∪ next.toFinset)
    (h : Settled b w.done w.configuredeps) (hspread : spread (follows b s) turns total next.toFinset = some result) :
    ∃ w', work_list b o s turns next w = some w' ∧ w'.done.toFinset = result ∧
      Settled b w'.done w'.configuredeps := by
  induction turns generalizing next w total with
  | zero => simp [spread] at hspread
  | succ turns ih =>
    rw [spread] at hspread
    rw [work_list]
    by_cases hnext : next = []
    · subst hnext
      refine ⟨w, if_pos rfl, ?_, h⟩
      rw [hdone]
      simpa using hspread
    · rw [if_neg (by simpa using hnext), ← hdone] at hspread
      rw [if_neg hnext]
      dsimp only
      have hgrown := grown_fold (turn_grown o s) next { w with new := [] }
      have hsettled := round_settled o s next (w := { w with new := [] }) h
      set w' := next.foldl (turn b o s) { w with new := [] } with hw'
      have hnew : w'.new.toFinset = next.toFinset.biUnion (follows b s) \ w.done.toFinset := by
        ext y
        simp [hgrown.new y]
      have hdone' : w'.done.toFinset = w.done.toFinset ∪ w'.new.toFinset := by
        rw [hnew, Finset.union_sdiff_self_eq_union]
        ext y
        simp [hgrown.done y]
      exact ih hdone' hsettled (hnew ▸ hspread)

/-! ## The selection -/

/-- The edge of the collapsed tree from `x` to `y` is followed. -/
def Build.Follows (b : Build Tid) (x y : Tid) : Prop :=
  y ≠ x ∧ b.Reached (b.deps x) y ∧ setscene_depvalid b y [x, y] [] = false

/-- The collapse leaves what is reached through tasks that are no sstate tasks, and the work list
ends with what is followed from the start set. Neither depends on an order. -/
theorem the_selection_is_exact (b : Build Tid) (o : Orders b) :
    ∃ s configuredeps, extend_recipe_sysroot b o = some (s, configuredeps) ∧
      (∀ x, x ∈ s.keys ↔ x ∈ b.tasks ∧ b.is_sstate x = true) ∧
      (∀ x ∈ s.keys, ∀ y, y ∈ s.deps x ↔ y ≠ x ∧ b.Reached (b.deps x) y) ∧
      (∀ y, y ∈ s.start ↔ b.Reached b.direct y) ∧
      configuredeps.Nodup ∧
      ∀ y, y ∈ configuredeps ↔ b.populates y = true ∧ ∃ x ∈ s.start, Relation.ReflTransGen b.Follows x y := by
  obtain ⟨-, hkeys, hdeps, hstart⟩ := collapse_spec o _ rfl
  set s := collapse b o.table b.me with hs
  have hkey : ∀ {x}, x ∈ s.start → x ∈ s.keys := by
    intro x hx
    have := (hstart x).mp hx
    exact (hkeys x).mpr ⟨this.1, this.2.1⟩
  have hworld : ∀ x ∈ s.keys.toFinset, follows b s x ⊆ s.keys.toFinset := by
    intro x hx y hy
    have := (hdeps x (List.mem_toFinset.mp hx) y).mp (Finset.mem_filter.mp hy).1
    exact List.mem_toFinset.mpr ((hkeys y).mpr ⟨this.2.1, this.2.2.1⟩)
  -- the tasks that were listed first
  have hlisted : (o.start s.start).toFinset = s.start := by
    ext x
    rw [List.mem_toFinset, o.mem_start]
  have hsettled : Settled b (o.start s.start) (s.start.sort.foldl (configure b) []) := by
    have hfold := settled_fold (b := b) s.start.sort [] [] ⟨List.nodup_nil, by simp⟩
    refine ⟨hfold.nodup, fun y => ?_⟩
    rw [hfold.mem y, o.mem_start]
    simp
  have hturns : (s.keys.toFinset \ ∅).card < o.table.length + 1 := by
    have hsub : s.keys.toFinset ⊆ o.table.toFinset := by
      intro x hx
      exact List.mem_toFinset.mpr ((o.mem_table x).mpr ((hkeys x).mp (List.mem_toFinset.mp hx)).1)
    rw [Finset.sdiff_empty]
    have := (Finset.card_le_card hsub).trans (List.toFinset_card_le o.table)
    omega
  have hbegin : s.start ⊆ s.keys.toFinset := fun x hx => List.mem_toFinset.mpr (hkey hx)
  obtain ⟨result, hresult, hmem⟩ := spread_spec s.keys.toFinset hworld hbegin (Finset.disjoint_empty_left _)
    (by simp) hturns
  rw [← hlisted] at hresult
  obtain ⟨w, hw, hdone, hconfigured⟩ := work_list_of_spread o s
    (w := ⟨o.start s.start, [], s.start.sort.foldl (configure b) []⟩) (Finset.empty_union _).symm hsettled hresult
  refine ⟨s, w.configuredeps, ?_, hkeys, hdeps, hstart, hconfigured.nodup, fun y => ?_⟩
  · unfold extend_recipe_sysroot
    rw [find_start_eq o]
    simp only [Option.bind_eq_bind, Option.bind_some, ← hs, hw]
    rfl
  · have hclosed : ∀ x z, x ∈ s.keys → z ∈ follows b s x → z ∈ s.keys := by
      intro x z hx hz
      exact List.mem_toFinset.mp (hworld x (List.mem_toFinset.mpr hx) hz)
    have hedge : ∀ x, x ∈ s.keys → ∀ z, z ∈ follows b s x ↔ b.Follows x z := by
      intro x hx z
      rw [follows, Finset.mem_filter, hdeps x hx z, Build.Follows, and_assoc]
    rw [hconfigured.mem y, ← List.mem_toFinset, hdone, hmem y, and_comm]
    apply and_congr_right
    intro hp
    constructor
    · rintro (hno | ⟨x, hx, hway⟩)
      · exact absurd hno (Finset.notMem_empty y)
      · exact ⟨x, hx, (reach_congr hclosed hedge (hkey hx)).mp hway⟩
    · rintro ⟨x, hx, hway⟩
      exact Or.inr ⟨x, hx, (reach_congr hclosed hedge (hkey hx)).mpr hway⟩

/-! ## The running task as its own dependency -/

/-- A task of a recipe that shares its package task alone. -/
def shared_entry (taskname : String) (deps : Finset Nat) : Entry Nat := ⟨text "a", text taskname, deps⟩

/-- The running task depends on itself. -/
def ownTable : Build Nat where
  PN := text "a"
  mytaskname := text "do_package"
  SSTATETASKS := text "do_package"
  excludedeps := []
  tasks := {0}
  taskdepdata := fun _ => shared_entry "do_package" {0}
  closed := by decide
  me := 0
  running := by decide
  me_mem := by decide

/-- The running task depends on a task that is no sstate task, and that on it. -/
def backTable : Build Nat where
  PN := text "a"
  mytaskname := text "do_package"
  SSTATETASKS := text "do_package"
  excludedeps := []
  tasks := {0, 1}
  taskdepdata := fun x => if x = 0 then shared_entry "do_package" {1} else shared_entry "do_compile" {0}
  closed := by decide
  me := 0
  running := by decide
  me_mem := by decide

/-- A running task that depends on itself is not in the start set; and one that is led back to is in it,
so the task is not left out of the set either. -/
theorem the_start_set_is_neither :
    ¬(∀ y, y ∈ (collapse ownTable [0] 0).start ↔ ownTable.Reached (ownTable.deps ownTable.me) y) ∧
    ¬(∀ y, y ∈ (collapse backTable [0, 1] 0).start ↔
      y ≠ backTable.me ∧ backTable.Reached (backTable.deps backTable.me) y) := by
  constructor
  · intro h
    have hstart : 0 ∉ (collapse ownTable [0] 0).start := by decide
    apply hstart
    rw [h 0]
    exact ⟨by decide, by decide, .start (by decide)⟩
  · intro h
    have hstart : 0 ∈ (collapse backTable [0, 1] 0).start := by decide
    exact ((h 0).mp hstart).1 rfl

end yocto.sysroot_dependencies
