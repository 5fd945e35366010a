-- The weights of the tasks (runqueue.py).
import Yocto.Schedulers
import Yocto.TaskGraph
import Yocto.Triples

open yocto.task_ids yocto.ordered_dict yocto.task_graph yocto.triples

namespace yocto.task_weights

/-! ## The loops -/

/-- A task graph whose tasks and dependencies are sets. -/
structure RunTasks (Tid : Type) extends TaskGraph Tid where
  nodup : runtaskentries.Nodup
  depends_nodup : ∀ t, (depends t).Nodup
  revdeps_nodup : ∀ t, (revdeps t).Nodup

variable {Tid : Type} [LinearOrder Tid]

structure Search (Tid : Type) where
  valid_chains : List (List Tid)
  explored_deps : OrderedDict Tid (List Tid)
  msgs : List Text

/-- How the search ends early: by its own exception, by another one, or by having no turns left. -/
inductive Halt where
  | too_many_loops
  | key_error
  | turns
  deriving DecidableEq

/-- The chain from its lowest task on. -/
def chain_reorder (chain : List Tid) : List Tid :=
  let lowest := (List.range chain.length).foldl (fun lowest entry =>
    match chain[entry]?, chain[lowest]? with
    | some a, some b => if a < b then entry else lowest
    | _, _ => lowest) 0
  chain.drop lowest ++ chain.take lowest

def chain_array_contains (chain : List Tid) (chain_array : List (List Tid)) : Bool := chain ∈ chain_array

def note_loop (task_line : Tid → Text) (chain : List Tid) (s : Search Tid) : Search Tid :=
  let new_chain := chain_reorder chain
  if chain_array_contains new_chain s.valid_chains then s
  else
    let valid_chains := s.valid_chains ++ [new_chain]
    { s with
      valid_chains := valid_chains
      msgs := s.msgs ++
        [text "Dependency loop #" ++ Nat.toDigits 10 valid_chains.length ++ text " found:\n"] ++
        new_chain.map task_line ++ [text "\n"] }

def close_loop (task_line : Tid → Text) (prev_chain : List Tid) (revdep : Tid) : Prog (Search Tid) Halt Unit := do
  Prog.modify (note_loop task_line (prev_chain.drop (prev_chain.idxOf revdep)))
  Prog.reading fun s =>
    if s.valid_chains.length > 10 then do
      Prog.modify fun s =>
        { s with msgs := s.msgs ++ [text "Halted dependency loops search after 10 matches.\n"] }
      Prog.raise .too_many_loops
    else pure ()

/-- What is known of `revdep` does not rule out that it leads into the chain. -/
def must_scan (prev_chain : List Tid) (revdep : Tid) (s : Search Tid) : Bool :=
  match s.explored_deps.get? revdep with
  | none => true
  | some deps => decide (revdep ∈ deps) || prev_chain.any fun dep => decide (dep ∈ deps)

def add_new (total_deps deps : List Tid) : List Tid :=
  deps.foldl (fun total dep => if dep ∈ total then total else total ++ [dep]) total_deps

/-- `explored_deps[revdep]`, added to what is there. -/
def add_explored (revdep : Tid) (total_deps : List Tid) : Prog (Search Tid) Halt (List Tid) :=
  Prog.reading fun s =>
    match s.explored_deps.get? revdep with
    | none => Prog.raise .key_error
    | some deps => pure (add_new total_deps deps)

/-- `find_chains`, with a depth that it may go down to. -/
def find_chains (g : TaskGraph Tid) (task_line : Tid → Text) :
    Nat → Tid → List Tid → Prog (Search Tid) Halt Unit
  | 0, _, _ => Prog.raise .turns
  | depth + 1, tid, chain => do
    let prev_chain := chain ++ [tid]
    let total_deps ← (g.revdeps tid).foldlM (fun total_deps revdep =>
      if revdep ∈ prev_chain then do
        close_loop task_line prev_chain revdep
        pure total_deps
      else do
        Prog.reading fun s =>
          if must_scan prev_chain revdep s then find_chains g task_line depth revdep prev_chain else pure ()
        add_explored revdep total_deps) (g.revdeps tid)
    Prog.modify fun s => { s with explored_deps := s.explored_deps.set tid total_deps }

/-- `circular_depchains_handler`: the messages, unless the search goes deeper than `turns`. -/
def circular_depchains_handler (turns : Nat) (g : TaskGraph Tid) (task_line : Tid → Text) (tasks : List Tid) :
    Option (List Text) :=
  let search : Prog (Search Tid) Halt Unit :=
    tasks.foldlM (fun _ task => find_chains g task_line turns task []) ()
  match search ⟨[], [], []⟩ with
  | (.ok (), s) => some s.msgs
  | (.error .too_many_loops, s) => some s.msgs
  | (.error _, _) => none

/-! ## The weights -/

structure Counters (Tid : Type) where
  weight : Tid → Nat
  deps_left : Tid → Int
  task_done : Tid → Bool

def start (g : TaskGraph Tid) (endpoints : List Tid) : Counters Tid where
  weight := fun tid => if tid ∈ endpoints then 10 else 1
  deps_left := fun tid => (g.revdeps tid).length
  task_done := fun tid => decide (tid ∈ endpoints)

/-- A task hands its weight to one of its dependencies. -/
def hand_on (tid : Tid) (acc : Counters Tid × List Tid) (revdep : Tid) : Counters Tid × List Tid :=
  let weight := Function.update acc.1.weight revdep (acc.1.weight revdep + acc.1.weight tid)
  let deps_left := Function.update acc.1.deps_left revdep (acc.1.deps_left revdep - 1)
  if deps_left revdep = 0 then
    (⟨weight, deps_left, Function.update acc.1.task_done revdep true⟩, acc.2 ++ [revdep])
  else (⟨weight, deps_left, acc.1.task_done⟩, acc.2)

/-- One round: the counters, and the tasks that are done by it. -/
def round (g : TaskGraph Tid) (c : Counters Tid) (endpoints : List Tid) : Counters Tid × List Tid :=
  endpoints.foldl (fun acc tid => (g.depends tid).foldl (hand_on tid) acc) (c, [])

/-- The `while` loop; none when it has not ended after `turns`. -/
def rounds (g : TaskGraph Tid) : Nat → Counters Tid → List Tid → Option (Counters Tid)
  | 0, _, _ => none
  | turns + 1, c, endpoints =>
    let next := round g c endpoints
    if next.2 = [] then some next.1 else rounds g turns next.1 next.2

/-- The tasks that cannot be built. -/
def problem_tasks (g : TaskGraph Tid) (c : Counters Tid) : List Tid :=
  g.runtaskentries.filter fun tid => c.task_done tid = false || c.deps_left tid != 0

/-- `calculate_task_weights`: the weights, or the message of the fatal error. -/
def calculate_task_weights (turns : Nat) (g : TaskGraph Tid) (task_line : Tid → Text) (endpoints : List Tid) :
    Option (Except Text (Tid → Nat)) := do
  let c ← rounds g turns (start g endpoints) endpoints
  if problem_tasks g c = [] then return .ok c.weight
  let msgs ← circular_depchains_handler turns g task_line (problem_tasks g c)
  return .error (text "\n" ++ msgs.flatten)

/-- The tasks without reverse dependencies, as `prepare` collects them. -/
def endpoints (g : TaskGraph Tid) : List Tid := g.runtaskentries.filter fun tid => (g.revdeps tid).isEmpty

/-! ## The search for loops ends -/

def Knows (known : List Tid) (s : Search Tid) : Prop := ∀ tid ∈ known, (s.explored_deps.get? tid).isSome

/-- Only the exception of the search is raised. -/
def OnlyLoops (e : Halt) (_ : Search Tid) : Prop := e = .too_many_loops

theorem close_loop_knows (known : List Tid) (task_line : Tid → Text) (prev_chain : List Tid) (revdep : Tid) :
    Triple (Knows known) (close_loop task_line prev_chain revdep) (fun _ => Knows known) OnlyLoops := by
  refine Triple.bind (fun _ => Knows known) (Triple.modify fun s hs => ?_) fun _ => ?_
  · unfold note_loop
    dsimp only
    split
    · exact hs
    · exact hs
  · refine Triple.reading fun s hs => ?_
    refine Triple.ite (fun _ => ?_) fun _ => ?_
    · refine Triple.bind (fun _ _ => True) (Triple.modify fun _ _ => trivial) fun _ => ?_
      exact Triple.raise fun _ _ => rfl
    · refine Triple.pure fun s' heq => ?_
      subst heq
      exact hs

theorem add_explored_knows {known : List Tid} {revdep : Tid} (total_deps : List Tid) :
    Triple (Knows (revdep :: known)) (add_explored revdep total_deps) (fun _ => Knows known) OnlyLoops := by
  refine Triple.reading fun s hs => ?_
  obtain ⟨deps, hdeps⟩ := Option.isSome_iff_exists.mp (hs revdep List.mem_cons_self)
  rw [hdeps]
  refine Triple.pure fun s' heq => ?_
  subst heq
  exact fun tid htid => hs tid (List.mem_cons_of_mem _ htid)

theorem knows_set {known : List Tid} {s : Search Tid} (h : Knows known s) (tid : Tid) (deps : List Tid) :
    Knows (tid :: known) { s with explored_deps := s.explored_deps.set tid deps } := by
  intro other hother
  by_cases heq : other = tid
  · subst heq
    rw [OrderedDict.get?_set_self, Option.isSome_some]
  · rw [OrderedDict.get?_set_other _ _ heq]
    exact h other ((List.mem_cons.mp hother).resolve_left heq)

theorem find_chains_ends (g : TaskGraph Tid) (task_line : Tid → Text) (depth : Nat) (known : List Tid)
    (tid : Tid) (chain : List Tid) (hnodup : (chain ++ [tid]).Nodup)
    (hmem : ∀ t ∈ chain ++ [tid], t ∈ g.runtaskentries) (hdepth : g.runtaskentries.length ≤ depth + chain.length) :
    Triple (Knows known) (find_chains g task_line depth tid chain) (fun _ => Knows (tid :: known)) OnlyLoops := by
  have hlen : (chain ++ [tid]).length ≤ g.runtaskentries.length := (hnodup.subperm hmem).length_le
  rw [List.length_append, List.length_singleton] at hlen
  induction depth generalizing known tid chain with
  | zero => omega
  | succ depth ih =>
    unfold find_chains
    refine Triple.bind (fun _ => Knows known) ?_ fun total_deps => ?_
    · refine Triple.foldlM (fun _ => Knows known) _ (fun total_deps revdep hrevdep => ?_) _
      refine Triple.ite (fun _ => ?_) fun hnot => ?_
      · refine Triple.bind _ (close_loop_knows known task_line _ revdep) fun _ => ?_
        exact Triple.pure fun _ hs => hs
      · refine Triple.bind (fun _ => Knows (revdep :: known)) ?_ fun _ => add_explored_knows total_deps
        refine Triple.reading fun s hs => ?_
        refine Triple.ite (fun _ => ?_) fun hscan => ?_
        · have hnext : ((chain ++ [tid]) ++ [revdep]).Nodup := by
            rw [List.nodup_append]
            refine ⟨hnodup, List.nodup_singleton revdep, fun a ha b hb => ?_⟩
            rw [List.mem_singleton.mp hb]
            exact fun heq => hnot (heq ▸ ha)
          have hentries : ∀ t ∈ (chain ++ [tid]) ++ [revdep], t ∈ g.runtaskentries := by
            intro t ht
            rcases List.mem_append.mp ht with ht | ht
            · exact hmem t ht
            · rw [List.mem_singleton.mp ht]
              exact (g.closed (g.matching.mp hrevdep)).1
          have hlength := (hnext.subperm hentries).length_le
          simp only [List.length_append, List.length_singleton] at hlength
          refine (ih known revdep (chain ++ [tid]) hnext hentries ?_ ?_).mono ?_ (fun _ _ h => h) fun _ _ h => h
          · simp only [List.length_append, List.length_singleton]
            omega
          · simp only [List.length_append, List.length_singleton]
            omega
          · rintro s' rfl
            exact hs
        · refine Triple.pure fun s' heq => ?_
          subst heq
          intro t ht
          rcases List.mem_cons.mp ht with rfl | ht
          · -- what is not scanned is explored
            unfold must_scan at hscan
            cases hget : s'.explored_deps.get? t with
            | none => simp [hget] at hscan
            | some deps => rfl
          · exact hs t ht
    · exact Triple.modify fun s hs => knows_set hs tid total_deps

theorem handler_ends (g : TaskGraph Tid) (task_line : Tid → Text) {tasks : List Tid}
    (h : ∀ tid ∈ tasks, tid ∈ g.runtaskentries) {turns : Nat} (hturns : g.runtaskentries.length ≤ turns) :
    ∃ msgs, circular_depchains_handler turns g task_line tasks = some msgs := by
  have hsearch : Triple (Knows []) (tasks.foldlM (fun _ task => find_chains g task_line turns task []) ())
      (fun _ => Knows []) OnlyLoops := by
    refine Triple.foldlM (fun _ => Knows []) tasks (fun _ tid htid => ?_) ()
    refine (find_chains_ends g task_line turns [] tid [] (List.nodup_singleton tid) ?_ ?_).mono (fun _ h => h)
      (fun _ s _ => ?_) fun _ _ h => h
    · intro t ht
      rw [List.nil_append, List.mem_singleton] at ht
      exact ht ▸ h tid htid
    · rw [List.length_nil]
      omega
    · intro t ht
      cases ht
  have hstart : Knows [] (⟨[], [], []⟩ : Search Tid) := by
    intro t ht
    cases ht
  have hresult := hsearch _ hstart
  unfold circular_depchains_handler
  dsimp only
  split at hresult
  · rename_i hrun
    rw [hrun]
    exact ⟨_, rfl⟩
  · rename_i e s hrun
    rw [hrun, show e = .too_many_loops from hresult]
    exact ⟨_, rfl⟩

/-! ## The edges -/

/-- The counters once the weights have gone along the edges `handled`, each from a task to one of its
dependencies. -/
structure Handled (g : TaskGraph Tid) (c : Counters Tid) (handled : List (Tid × Tid)) : Prop where
  left : ∀ t, c.deps_left t = ((g.revdeps t).filter fun r => decide ((r, t) ∉ handled)).length
  done : ∀ t ∈ g.runtaskentries, (c.task_done t = true ↔ ∀ r ∈ g.revdeps t, (r, t) ∈ handled)
  edges : ∀ r t, (r, t) ∈ handled → g.Dep r t ∧ c.task_done r = true ∧ c.weight r < c.weight t
  pos : ∀ t, 0 < c.weight t

theorem length_filter_handled {l : List Tid} (hnodup : l.Nodup) {r t : Tid} (hr : r ∈ l)
    {handled : List (Tid × Tid)} (hnew : (r, t) ∉ handled) :
    (l.filter fun a => decide ((a, t) ∉ handled)).length =
      (l.filter fun a => decide ((a, t) ∉ (r, t) :: handled)).length + 1 := by
  induction l with
  | nil => cases hr
  | cons a l ih =>
    rw [List.nodup_cons] at hnodup
    by_cases har : a = r
    · subst har
      have hrest : l.filter (fun b => decide ((b, t) ∉ (a, t) :: handled)) =
          l.filter fun b => decide ((b, t) ∉ handled) := by
        refine List.filter_congr fun b hb => ?_
        have hne : b ≠ a := fun heq => hnodup.1 (heq ▸ hb)
        simp [hne]
      rw [List.filter_cons_of_pos (by simpa using hnew), List.filter_cons_of_neg (by simp), hrest,
        List.length_cons]
    · have hrl : r ∈ l := (List.mem_cons.mp hr).resolve_left (Ne.symm har)
      have hrest := ih hnodup.2 hrl
      by_cases ha : (a, t) ∈ handled
      · rw [List.filter_cons_of_neg (by simpa using ha), List.filter_cons_of_neg (by simp [ha]), hrest]
      · rw [List.filter_cons_of_pos (by simpa using ha), List.filter_cons_of_pos (by simp [har, ha]),
          List.length_cons, List.length_cons, hrest]

theorem Handled.step {g : RunTasks Tid} {c : Counters Tid} {handled : List (Tid × Tid)}
    (h : Handled g.toTaskGraph c handled) {r t : Tid} (hdep : g.Dep r t) (hdone : c.task_done r = true)
    (hnew : (r, t) ∉ handled) (next : List Tid) :
    ∃ c', Handled g.toTaskGraph c' ((r, t) :: handled) ∧
      ((hand_on r (c, next) t = (c', next ++ [t]) ∧ c.task_done t = false ∧
          ∀ x, c'.task_done x = true ↔ c.task_done x = true ∨ x = t) ∨
        (hand_on r (c, next) t = (c', next) ∧ c'.task_done = c.task_done)) := by
  have hentries := g.closed hdep
  have hrev : r ∈ g.revdeps t := g.matching.mpr hdep
  -- the dependency is not done, for this edge is not handled
  have hundone : c.task_done t = false := by
    by_contra hne
    exact hnew ((h.done t hentries.2).mp (by simpa using hne) r hrev)
  have hne : r ≠ t := by
    rintro rfl
    rw [hdone] at hundone
    cases hundone
  have hleft := length_filter_handled (g.revdeps_nodup t) hrev hnew
  have hother : ∀ x, x ≠ t → ∀ a, ((a, x) ∈ (r, t) :: handled ↔ (a, x) ∈ handled) := by
    intro x hx a
    simp [hx]
  have hcount : ∀ x, Function.update c.deps_left t (c.deps_left t - 1) x =
      ((g.revdeps x).filter fun a => decide ((a, x) ∉ (r, t) :: handled)).length := by
    intro x
    by_cases hx : x = t
    · subst hx
      rw [Function.update_self, h.left, hleft]
      omega
    · rw [Function.update_of_ne hx, h.left]
      simp [hx]
  have hweight : ∀ a b, (a, b) ∈ (r, t) :: handled → a ≠ t ∧
      Function.update c.weight t (c.weight t + c.weight r) a <
        Function.update c.weight t (c.weight t + c.weight r) b := by
    intro a b hab
    rcases List.mem_cons.mp hab with heq | hab
    · obtain ⟨rfl, rfl⟩ := Prod.mk.inj heq
      refine ⟨hne, ?_⟩
      rw [Function.update_of_ne hne, Function.update_self]
      have := h.pos b
      omega
    · obtain ⟨_, ha, hlt⟩ := h.edges a b hab
      have hat : a ≠ t := by
        rintro rfl
        rw [ha] at hundone
        cases hundone
      refine ⟨hat, ?_⟩
      rw [Function.update_of_ne hat]
      by_cases hb : b = t
      · subst hb
        rw [Function.update_self]
        omega
      · rwa [Function.update_of_ne hb]
  have hpos : ∀ x, 0 < Function.update c.weight t (c.weight t + c.weight r) x := by
    intro x
    by_cases hx : x = t
    · subst hx
      rw [Function.update_self]
      have := h.pos x
      omega
    · rw [Function.update_of_ne hx]
      exact h.pos x
  unfold hand_on
  dsimp only
  by_cases hzero : Function.update c.deps_left t (c.deps_left t - 1) t = 0
  · rw [if_pos hzero]
    have hall : ∀ a ∈ g.revdeps t, (a, t) ∈ (r, t) :: handled := by
      rw [hcount t] at hzero
      have hnil := List.eq_nil_of_length_eq_zero (Int.ofNat_eq_zero.mp hzero)
      intro a ha
      have hnot := List.filter_eq_nil_iff.mp hnil a ha
      rwa [decide_eq_true_eq, not_not] at hnot
    refine ⟨_, ⟨hcount, fun x hx => ?_, fun a b hab => ?_, hpos⟩, Or.inl ⟨rfl, hundone, fun x => ?_⟩⟩
    · by_cases hxt : x = t
      · subst hxt
        simp only [Function.update_self, true_iff]
        exact hall
      · simp only [Function.update_of_ne hxt]
        rw [h.done x hx]
        simp only [hother x hxt]
    · obtain ⟨hat, hlt⟩ := hweight a b hab
      refine ⟨?_, ?_, hlt⟩
      · rcases List.mem_cons.mp hab with heq | hab
        · obtain ⟨rfl, rfl⟩ := Prod.mk.inj heq
          exact hdep
        · exact (h.edges a b hab).1
      · simp only [Function.update_of_ne hat]
        rcases List.mem_cons.mp hab with heq | hab
        · obtain ⟨rfl, rfl⟩ := Prod.mk.inj heq
          exact hdone
        · exact (h.edges a b hab).2.1
    · by_cases hx : x = t
      · simp [hx]
      · simp [hx]
  · rw [if_neg hzero]
    refine ⟨_, ⟨hcount, fun x hx => ?_, fun a b hab => ?_, hpos⟩, Or.inr ⟨rfl, rfl⟩⟩
    · by_cases hxt : x = t
      · subst hxt
        dsimp only
        rw [hundone]
        refine ⟨fun h => absurd h (by simp), fun hall => ?_⟩
        refine absurd ?_ hzero
        have hnil : ((g.revdeps x).filter fun a => decide ((a, x) ∉ (r, x) :: handled)) = [] := by
          rw [List.filter_eq_nil_iff]
          intro a ha
          rw [decide_eq_true_eq, not_not]
          exact hall a ha
        rw [hcount x, hnil]
        rfl
      · rw [h.done x hx]
        simp only [hother x hxt]
    · obtain ⟨_, hlt⟩ := hweight a b hab
      rcases List.mem_cons.mp hab with heq | hmem
      · obtain ⟨rfl, rfl⟩ := Prod.mk.inj heq
        exact ⟨hdep, hdone, hlt⟩
      · exact ⟨(h.edges a b hmem).1, (h.edges a b hmem).2.1, hlt⟩

/-! ## The rounds -/

theorem round_eq (g : TaskGraph Tid) (c : Counters Tid) (endpoints : List Tid) :
    round g c endpoints = (endpoints.flatMap fun tid => (g.depends tid).map fun revdep => (tid, revdep)).foldl
      (fun acc edge => hand_on edge.1 acc edge.2) (c, []) := by
  simp only [round, List.foldl_flatMap, List.foldl_map]

theorem Handled.fold {g : RunTasks Tid} (edges : List (Tid × Tid)) {c : Counters Tid}
    {handled : List (Tid × Tid)} (h : Handled g.toTaskGraph c handled) (hnodup : edges.Nodup)
    (hedges : ∀ e ∈ edges, g.Dep e.1 e.2 ∧ c.task_done e.1 = true ∧ e ∉ handled) (next : List Tid) :
    ∃ c' handled' more, edges.foldl (fun acc edge => hand_on edge.1 acc edge.2) (c, next) = (c', next ++ more) ∧
      Handled g.toTaskGraph c' handled' ∧ (∀ e, e ∈ handled' ↔ e ∈ handled ∨ e ∈ edges) ∧
      (∀ x, c'.task_done x = true ↔ c.task_done x = true ∨ x ∈ more) ∧ more.Nodup ∧
      ∀ x ∈ more, c.task_done x = false ∧ x ∈ g.runtaskentries := by
  induction edges generalizing c handled next with
  | nil => exact ⟨c, handled, [], by simp, h, by simp, by simp, List.nodup_nil, by simp⟩
  | cons e edges ih =>
    obtain ⟨r, t⟩ := e
    rw [List.nodup_cons] at hnodup
    obtain ⟨hdep, hdone, hnew⟩ := hedges (r, t) List.mem_cons_self
    obtain ⟨c₁, h₁, hcases⟩ := h.step hdep hdone hnew next
    have hkept : ∀ x, c.task_done x = true → c₁.task_done x = true := by
      intro x hx
      rcases hcases with ⟨_, _, hdone₁⟩ | ⟨_, hdone₁⟩
      · exact (hdone₁ x).mpr (Or.inl hx)
      · rwa [hdone₁]
    have hrest : ∀ e ∈ edges, g.Dep e.1 e.2 ∧ c₁.task_done e.1 = true ∧ e ∉ (r, t) :: handled := by
      intro e he
      obtain ⟨hd, hsource, hnot⟩ := hedges e (List.mem_cons_of_mem _ he)
      refine ⟨hd, hkept _ hsource, fun hmem => ?_⟩
      rcases List.mem_cons.mp hmem with rfl | hmem
      · exact hnodup.1 he
      · exact hnot hmem
    have hmembers : ∀ handled' : List (Tid × Tid), (∀ e, e ∈ handled' ↔ e ∈ (r, t) :: handled ∨ e ∈ edges) →
        ∀ e, e ∈ handled' ↔ e ∈ handled ∨ e ∈ (r, t) :: edges := by
      intro handled' h' e
      rw [h', List.mem_cons, List.mem_cons]
      tauto
    rcases hcases with ⟨hstep, hundone, hdone₁⟩ | ⟨hstep, hdone₁⟩
    · obtain ⟨c', handled', more, hfold, h', hmem', hdone', hmore, hfresh⟩ := ih h₁ hnodup.2 hrest (next ++ [t])
      refine ⟨c', handled', t :: more, ?_, h', hmembers handled' hmem', fun x => ?_, ?_, fun x hx => ?_⟩
      · rw [List.foldl_cons, hstep, hfold]
        simp
      · rw [hdone', hdone₁, List.mem_cons]
        tauto
      · rw [List.nodup_cons]
        refine ⟨fun ht => ?_, hmore⟩
        have := (hfresh t ht).1
        rw [(hdone₁ t).mpr (Or.inr rfl)] at this
        cases this
      · rcases List.mem_cons.mp hx with rfl | hx
        · exact ⟨hundone, (g.closed hdep).2⟩
        · obtain ⟨hfalse, hentry⟩ := hfresh x hx
          refine ⟨?_, hentry⟩
          by_contra hne
          rw [hkept x (by simpa using hne)] at hfalse
          cases hfalse
    · obtain ⟨c', handled', more, hfold, h', hmem', hdone', hmore, hfresh⟩ := ih h₁ hnodup.2 hrest next
      rw [hdone₁] at hdone' hfresh
      refine ⟨c', handled', more, ?_, h', hmembers handled' hmem', hdone', hmore, hfresh⟩
      rw [List.foldl_cons, hstep, hfold]

/-- Between two rounds: the endpoints are the tasks that are done and have not handed on their weights. -/
structure Stage (g : TaskGraph Tid) (c : Counters Tid) (handled : List (Tid × Tid)) (endpoints : List Tid) :
    Prop where
  counters : Handled g c handled
  nodup : endpoints.Nodup
  done : ∀ x ∈ endpoints, c.task_done x = true
  ahead : ∀ r t, (r, t) ∈ handled → r ∉ endpoints
  behind : ∀ r t, c.task_done r = true → r ∉ endpoints → g.Dep r t → (r, t) ∈ handled

theorem Stage.round {g : RunTasks Tid} {c : Counters Tid} {handled : List (Tid × Tid)} {endpoints : List Tid}
    (h : Stage g.toTaskGraph c handled endpoints) :
    ∃ c' handled' next, round g.toTaskGraph c endpoints = (c', next) ∧ Stage g.toTaskGraph c' handled' next ∧
      (∀ x, c'.task_done x = true ↔ c.task_done x = true ∨ x ∈ next) ∧
      ∀ x ∈ next, c.task_done x = false ∧ x ∈ g.runtaskentries := by
  have hedge : ∀ r t, (r, t) ∈ endpoints.flatMap (fun tid => (g.depends tid).map fun revdep => (tid, revdep)) ↔
      r ∈ endpoints ∧ g.Dep r t := by
    intro r t
    simp only [List.mem_flatMap, List.mem_map, Prod.mk.injEq, TaskGraph.Dep]
    constructor
    · rintro ⟨_, hmem, _, hdep, rfl, rfl⟩
      exact ⟨hmem, hdep⟩
    · rintro ⟨hmem, hdep⟩
      exact ⟨r, hmem, t, hdep, rfl, rfl⟩
  have hnodup : (endpoints.flatMap fun tid => (g.depends tid).map fun revdep => (tid, revdep)).Nodup := by
    rw [List.nodup_flatMap]
    refine ⟨fun tid _ => (g.depends_nodup tid).map fun a b hab => (Prod.mk.inj hab).2, h.nodup.imp ?_⟩
    intro a b hab e ha hb
    obtain ⟨_, _, rfl⟩ := List.mem_map.mp ha
    obtain ⟨_, _, heq⟩ := List.mem_map.mp hb
    exact hab (Prod.mk.inj heq).1.symm
  obtain ⟨c', handled', next, hfold, hhandled, hmem, hdone, hnext, hfresh⟩ :=
    h.counters.fold _ hnodup (fun e he => by
      obtain ⟨hmem, hdep⟩ := (hedge e.1 e.2).mp he
      exact ⟨hdep, h.done _ hmem, fun hold => h.ahead _ _ hold hmem⟩) []
  rw [List.nil_append] at hfold
  refine ⟨c', handled', next, (round_eq _ _ _).trans hfold, ⟨hhandled, hnext, ?_, ?_, ?_⟩, hdone, hfresh⟩
  · exact fun x hx => (hdone x).mpr (Or.inr hx)
  · intro r t hrt hr
    have hfalse := (hfresh r hr).1
    rcases (hmem (r, t)).mp hrt with hold | hnew
    · rw [(h.counters.edges r t hold).2.1] at hfalse
      cases hfalse
    · rw [h.done r ((hedge r t).mp hnew).1] at hfalse
      cases hfalse
  · intro r t hr hnot hdep
    rw [hmem]
    have hold : c.task_done r = true := ((hdone r).mp hr).resolve_right hnot
    by_cases hend : r ∈ endpoints
    · exact Or.inr ((hedge r t).mpr ⟨hend, hdep⟩)
    · exact Or.inl (h.behind r t hold hend hdep)

def undone (g : TaskGraph Tid) (c : Counters Tid) : Nat :=
  (g.runtaskentries.filter fun tid => !c.task_done tid).length

omit [LinearOrder Tid] in
theorem undone_lt {g : TaskGraph Tid} {c c' : Counters Tid} {x : Tid} (hx : x ∈ g.runtaskentries)
    (hold : c.task_done x = false) (hnew : c'.task_done x = true)
    (hkept : ∀ y, c.task_done y = true → c'.task_done y = true) : undone g c' < undone g c := by
  have hsub : (g.runtaskentries.filter fun tid => !c'.task_done tid).Sublist
      (g.runtaskentries.filter fun tid => !c.task_done tid) := by
    refine List.monotone_filter_right _ fun y hy => ?_
    cases hcy : c.task_done y with
    | false => rfl
    | true =>
      rw [hkept y hcy] at hy
      cases hy
  refine lt_of_le_of_ne hsub.length_le fun heq => ?_
  have hsame := hsub.eq_of_length heq
  have hmem : x ∈ g.runtaskentries.filter fun tid => !c.task_done tid := by
    rw [List.mem_filter, hold]
    exact ⟨hx, rfl⟩
  rw [← hsame, List.mem_filter, hnew] at hmem
  cases hmem.2

theorem rounds_ends {g : RunTasks Tid} {c : Counters Tid} {handled : List (Tid × Tid)} {endpoints : List Tid}
    (h : Stage g.toTaskGraph c handled endpoints) {turns : Nat} (hturns : undone g.toTaskGraph c < turns) :
    ∃ c' handled', rounds g.toTaskGraph turns c endpoints = some c' ∧ Stage g.toTaskGraph c' handled' [] := by
  induction turns generalizing c handled endpoints with
  | zero => omega
  | succ turns ih =>
    obtain ⟨c', handled', next, hround, h', hdone, hfresh⟩ := h.round
    rw [rounds, hround]
    dsimp only
    split
    · rename_i hempty
      subst hempty
      exact ⟨c', handled', rfl, h'⟩
    · rename_i hne
      obtain ⟨x, hx⟩ := List.exists_mem_of_ne_nil next hne
      obtain ⟨hold, hentry⟩ := hfresh x hx
      have hlt := undone_lt hentry hold ((hdone x).mpr (Or.inr hx)) fun y hy => (hdone y).mpr (Or.inl hy)
      exact ih h' (by omega)

/-! ## Cycles and weights -/

omit [LinearOrder Tid] in
theorem mem_endpoints {g : TaskGraph Tid} {t : Tid} :
    t ∈ endpoints g ↔ t ∈ g.runtaskentries ∧ g.revdeps t = [] := by
  simp [endpoints]

theorem start_stage (g : RunTasks Tid) :
    Stage g.toTaskGraph (start g.toTaskGraph (endpoints g.toTaskGraph)) [] (endpoints g.toTaskGraph) where
  counters :=
    { left := fun t => by simp [start]
      done := fun t ht => by simp [start, mem_endpoints, ht, List.eq_nil_iff_forall_not_mem]
      edges := fun r t h => by cases h
      pos := fun t => by
        unfold start
        dsimp only
        split
        · omega
        · omega }
  nodup := g.nodup.filter _
  done := fun x hx => by simpa [start] using hx
  ahead := fun r t h => by cases h
  behind := fun r t hr hnot => by
    simp only [start, decide_eq_true_eq] at hr
    exact absurd hr hnot

section
variable {g : RunTasks Tid} {c : Counters Tid} {handled : List (Tid × Tid)}

theorem Stage.done_iff (h : Stage g.toTaskGraph c handled []) {t : Tid} (ht : t ∈ g.runtaskentries) :
    c.task_done t = true ↔ ∀ r ∈ g.revdeps t, c.task_done r = true := by
  rw [h.counters.done t ht]
  constructor
  · intro hall r hr
    exact (h.counters.edges r t (hall r hr)).2.1
  · intro hall r hr
    exact h.behind r t (hall r hr) (by simp) (g.matching.mp hr)

theorem Stage.no_problem_iff (h : Stage g.toTaskGraph c handled []) :
    problem_tasks g.toTaskGraph c = [] ↔ ∀ t ∈ g.runtaskentries, c.task_done t = true := by
  unfold problem_tasks
  rw [List.filter_eq_nil_iff]
  constructor
  · intro hall t ht
    have := hall t ht
    cases hdone : c.task_done t with
    | true => rfl
    | false => simp [hdone] at this
  · intro hall t ht
    have hleft : c.deps_left t = 0 := by
      rw [h.counters.left, List.filter_eq_nil_iff.mpr]
      · rfl
      · intro r hr
        simpa using (h.counters.done t ht).mp (hall t ht) r hr
    simp [hall t ht, hleft]

theorem Stage.weight_lt (h : Stage g.toTaskGraph c handled []) (hall : ∀ t ∈ g.runtaskentries, c.task_done t = true)
    {t d : Tid} (hdep : g.Dep t d) : c.weight t < c.weight d :=
  (h.counters.edges t d (h.behind t d (hall t (g.closed hdep).1) (by simp) hdep)).2.2

theorem Stage.acyclic_iff (h : Stage g.toTaskGraph c handled []) :
    g.Acyclic ↔ ∀ t ∈ g.runtaskentries, c.task_done t = true := by
  constructor
  · intro hacyclic t
    induction t using hacyclic.wf.induction with
    | h t ih =>
      intro ht
      rw [h.done_iff ht]
      intro r hr
      exact ih r (g.matching.mp hr) (g.closed (g.matching.mp hr)).1
  · intro hall
    exact acyclic_of_lt c.weight fun a b hab => h.weight_lt hall hab

end

/-- Every task is in the map, and comes before the tasks that depend on it. -/
structure DependenciesFirst (g : TaskGraph Tid) (prio_map : List Tid) : Prop where
  perm : prio_map.Perm g.runtaskentries
  before : ∀ t d, g.Dep t d → prio_map.idxOf d < prio_map.idxOf t

theorem speed_dependencies_first (g : RunTasks Tid) {weight : Tid → Nat}
    (h : ∀ t d, g.Dep t d → weight t < weight d) :
    DependenciesFirst g.toTaskGraph (schedulers.speed weight g.runtaskentries) := by
  have hperm := schedulers.speed_perm weight g.nodup
  refine ⟨hperm, fun t d hdep => ?_⟩
  have hlt := h t d hdep
  have htmem : t ∈ schedulers.speed weight g.runtaskentries := hperm.mem_iff.mpr (g.closed hdep).1
  by_contra hle
  have hne : (schedulers.speed weight g.runtaskentries).idxOf t ≠
      (schedulers.speed weight g.runtaskentries).idxOf d := by
    intro heq
    have hsame : t = d := (List.idxOf_inj htmem).mp heq
    subst hsame
    exact lt_irrefl _ hlt
  have hsorted := List.pairwise_iff_getElem.mp (schedulers.speed_sorted weight g.runtaskentries)
    _ _ (List.idxOf_lt_length_of_mem htmem)
    (List.idxOf_lt_length_of_mem (hperm.mem_iff.mpr (g.closed hdep).2)) (by omega)
  rw [List.getElem_idxOf, List.getElem_idxOf] at hsorted
  omega

/-- The weights end in a fatal error exactly for graphs with a cycle, and order the tasks else. -/
theorem cycles_are_fatal_and_weights_order (g : RunTasks Tid) (task_line : Tid → Text) :
    ∀ turns > g.runtaskentries.length, ∃ result,
      calculate_task_weights turns g.toTaskGraph task_line (endpoints g.toTaskGraph) = some result ∧
      ((∃ message, result = .error message) ↔ ¬g.Acyclic) ∧
      ∀ weight, result = .ok weight → (∀ t d, g.Dep t d → weight t < weight d) ∧
        DependenciesFirst g.toTaskGraph (schedulers.speed weight g.runtaskentries) := by
  intro turns hturns
  have hundone : undone g.toTaskGraph (start g.toTaskGraph (endpoints g.toTaskGraph)) ≤ g.runtaskentries.length :=
    List.length_filter_le _ _
  obtain ⟨c, handled, hrounds, hstage⟩ := rounds_ends (start_stage g) (Nat.lt_of_le_of_lt hundone hturns)
  unfold calculate_task_weights
  rw [hrounds, Option.bind_eq_bind, Option.bind_some]
  by_cases hproblem : problem_tasks g.toTaskGraph c = []
  · have hall := hstage.no_problem_iff.mp hproblem
    have hweights : ∀ t d, g.Dep t d → c.weight t < c.weight d := fun t d hdep => hstage.weight_lt hall hdep
    refine ⟨.ok c.weight, by rw [if_pos hproblem]; rfl, ?_, fun weight hok => ?_⟩
    · have hacyclic := hstage.acyclic_iff.mpr hall
      refine ⟨fun h => ?_, fun h => absurd hacyclic h⟩
      obtain ⟨_, herror⟩ := h
      cases herror
    · obtain rfl := Except.ok.inj hok
      exact ⟨hweights, speed_dependencies_first g hweights⟩
  · have htasks : ∀ tid ∈ problem_tasks g.toTaskGraph c, tid ∈ g.runtaskentries :=
      fun tid h => (List.mem_filter.mp h).1
    obtain ⟨msgs, hmsgs⟩ := handler_ends g.toTaskGraph task_line htasks (Nat.le_of_lt hturns)
    refine ⟨.error (text "\n" ++ msgs.flatten), by rw [if_neg hproblem, hmsgs]; rfl, ?_, fun _ hok => (by cases hok)⟩
    refine ⟨fun _ hacyclic => hproblem ?_, fun _ => ⟨_, rfl⟩⟩
    exact hstage.no_problem_iff.mpr (hstage.acyclic_iff.mp hacyclic)

theorem zero_one_nodup : [0, 1].Nodup := by decide

theorem the_other_nodup (t : Nat) : (if t < 2 then [1 - t] else []).Nodup := by
  split
  · exact List.nodup_singleton _
  · exact List.nodup_nil

def each_other : RunTasks Nat where
  runtaskentries := [0, 1]
  depends := fun t => if t < 2 then [1 - t] else []
  revdeps := fun t => if t < 2 then [1 - t] else []
  closed := by
    intro t d h
    split at h
    · rw [List.mem_singleton] at h
      simp only [List.mem_cons, List.not_mem_nil, or_false]
      omega
    · cases h
  matching := by
    intro t d
    split
    · split
      · simp only [List.mem_singleton]
        omega
      · simp only [List.mem_singleton, List.not_mem_nil, iff_false]
        omega
    · split
      · simp only [List.mem_singleton, List.not_mem_nil, false_iff]
        omega
      · simp
  nodup := zero_one_nodup
  depends_nodup := the_other_nodup
  revdeps_nodup := the_other_nodup

theorem two_tasks_that_need_each_other_are_fatal :
    ∃ message, calculate_task_weights 3 each_other.toTaskGraph (fun _ => text "line") (endpoints each_other.toTaskGraph) =
      some (.error message) := by
  obtain ⟨result, hresult, hfatal, _⟩ :=
    cycles_are_fatal_and_weights_order each_other (fun _ => text "line") 3 (by decide)
  have hto : each_other.Dep 0 1 := List.mem_singleton.mpr rfl
  have hback : each_other.Dep 1 0 := List.mem_singleton.mpr rfl
  obtain ⟨message, rfl⟩ := hfatal.mpr fun hacyclic => hacyclic 0 (.tail (.single hto) hback)
  exact ⟨message, hresult⟩

end yocto.task_weights
