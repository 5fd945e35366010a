-- The process pool of `multiprocess_launch_mp`, under every order in which the children write,
-- exit and are polled.
import Yocto.FallibleMaps
import Yocto.TaskIds
import Mathlib.Tactic

open yocto.task_ids yocto.fallible_maps

namespace yocto.process_pool

/-! ## Children -/

/-- The output of a `CalledProcessError`, which is a text when the call asked for one. -/
inductive Output
  | bytes (data : List UInt8)
  | str (s : Text)

/-- An exception of a child, as `str` gives it, and its traceback. -/
structure Failure where
  e : Text
  tb : Text
  output : Option Output

/-- What a child sends. An exception may be one that cannot be read back. -/
inductive Message (R : Type)
  | result (ret : R)
  | exception (failure : Failure)
  | unreadable

/-- How far a child is, and what is in its pipe. -/
inductive Phase (R : Type)
  | running
  | writing (msg : Message R)
  | written (msg : Message R)
  | read
  | died
  | died_writing
  | left (msg : Message R)
  | gone

variable {I R : Type}

def Phase.is_alive : Phase R → Bool
  | .running | .writing _ | .written _ | .read => true
  | .died | .died_writing | .left _ | .gone => false

/-- What a child does by itself. It can be killed at any time. -/
inductive Phase.Moves : Phase R → Phase R → Prop
  | sends (msg : Message R) : Moves .running (.writing msg)
  | dies : Moves .running .died
  | sent (msg : Message R) : Moves (.writing msg) (.written msg)
  | breaks (msg : Message R) : Moves (.writing msg) .died_writing
  | leaves (msg : Message R) : Moves (.written msg) (.left msg)
  | exits : Moves .read .gone

/-- A child with the message that was received from it. -/
structure Child (I R : Type) where
  id : ℕ
  item : I
  phase : Phase R
  received : Option (Message R)

def Child.exception (q : Child I R) : Option Failure :=
  match q.received with
  | some (.exception failure) => some failure
  | _ => none

/-- The result, if there is one that is not empty. -/
def Child.result (truthy : R → Bool) (q : Child I R) : Option R :=
  match q.received with
  | some (.result ret) => if truthy ret then some ret else none
  | _ => none

inductive Update (I R : Type)
  | waits
  | raises
  | done (q : Child I R)

/-- The message is received when there is one. The rest of a message that has begun is waited for. -/
def Child.update (q : Child I R) : Update I R :=
  match q.phase with
  | .written .unreadable | .left .unreadable => .raises
  | .written msg => .done { q with phase := .read, received := some msg }
  | .left msg => .done { q with phase := .gone, received := some msg }
  | .writing _ | .died_writing => .waits
  | .running | .read | .died | .gone => .done q

/-! ## The parent -/

/-- Where the parent is: before the test of the loop, before the update of a child or before the
question whether it is alive, or at the end. -/
inductive Control (R : Type)
  | loop
  | scan (i : ℕ)
  | check (i : ℕ)
  | returned (results : List R)
  | fatal (msg : Text)
  | raised

/-- The state of a call. The children that were removed from the list are kept beside it. -/
structure State (I R : Type) where
  items : List I
  launched : List (Child I R)
  ended : List (Child I R)
  errors : List Failure
  results : List R
  control : Control R

structure Pool (I R : Type) where
  items : List I
  max_process : ℕ
  positive : 0 < max_process
  truthy : R → Bool
  decode : List UInt8 → Text

def Pool.start (p : Pool I R) : State I R := ⟨p.items, [], [], [], [], .loop⟩

/-- The text of an error. The output has to be bytes, else its decoding raises. -/
def Pool.error_msg (p : Pool I R) (failure : Failure) : Option Text :=
  match failure.output with
  | some (.bytes data) => some (failure.e ++ text "\n" ++ text "Subprocess output:" ++ p.decode data)
  | some (.str _) => none
  | none => some (failure.e ++ text ": " ++ failure.tb ++ text "\n")

/-- What the call ends with behind its loop. -/
def Pool.finish (p : Pool I R) (s : State I R) : Control R :=
  if s.errors.isEmpty then .returned s.results
  else
    match s.errors.mapM p.error_msg with
    | some msgs => .fatal (text "Fatal errors occurred in subprocesses:\n" ++ msgs.flatten)
    | none => .raised

def Pool.launch (p : Pool I R) (s : State I R) : State I R :=
  if s.errors.isEmpty && s.launched.length < p.max_process then
    match s.items.getLast? with
    | some item => { s with
        items := s.items.dropLast
        launched := s.launched ++ [⟨s.launched.length + s.ended.length, item, .running, none⟩] }
    | none => s
  else s

/-- One step of the parent, or none where it waits or has ended. -/
def Pool.parent (p : Pool I R) (s : State I R) : Option (State I R) :=
  match s.control with
  | .loop =>
    if (!s.items.isEmpty && s.errors.isEmpty) || !s.launched.isEmpty then
      some { p.launch s with control := .scan 0 }
    else some { s with control := p.finish s }
  | .scan i =>
    match s.launched[i]? with
    | none => some { s with control := .loop }
    | some q =>
      match q.update with
      | .waits => none
      | .raises => some { s with control := .raised }
      | .done q' => some { s with launched := s.launched.set i q', control := .check i }
  | .check i =>
    match s.launched[i]? with
    | none => some { s with control := .loop }
    | some q =>
      if q.phase.is_alive then some { s with control := .scan (i + 1) }
      else
        -- the exception is asked for, and that updates once more
        match q.update with
        | .waits => none
        | .raises => some { s with control := .raised }
        | .done q' => some { s with
            launched := s.launched.eraseIdx i
            ended := s.ended ++ [q']
            errors := s.errors ++ q'.exception.toList
            results := s.results ++ (q'.result p.truthy).toList
            -- the list is shorter by one and the loop goes on with the next index
            control := .scan (i + 1) }
  | .returned _ | .fatal _ | .raised => none

/-! ## Runs -/

inductive Label
  | parent
  | child (id : ℕ)
  | idle
  deriving DecidableEq

def Pool.Step (p : Pool I R) : Label → State I R → State I R → Prop
  | .parent, s, s' => p.parent s = some s'
  | .child id, s, s' => ∃ l q l' phase, s.launched = l ++ q :: l' ∧ q.id = id ∧ q.phase.Moves phase ∧
      s' = { s with launched := l ++ { q with phase := phase } :: l' }
  | .idle, s, s' => s' = s

structure Run (p : Pool I R) where
  state : ℕ → State I R
  label : ℕ → Label
  starts : state 0 = p.start
  steps : ∀ n, p.Step (label n) (state n) (state (n + 1))
  fair_parent : ∀ n, (∀ m ≥ n, (p.parent (state m)).isSome) → ∃ m ≥ n, label m = .parent
  fair_child : ∀ n, ∀ q ∈ (state n).launched, q.phase = .running ∨ q.phase = .read → ∃ m ≥ n, label m = .child q.id
  fair_writer : ∀ n i q msg, (state n).launched[i]? = some q → q.phase = .writing msg →
    (∀ m ≥ n, (state m).control = .scan i) → ∃ m ≥ n, label m = .child q.id

/-- Each item is started at most once, and no more children are alive than allowed. -/
structure Bounded (p : Pool I R) (s : State I R) : Prop where
  once : (s.items ++ (s.launched ++ s.ended).map Child.item).Perm p.items
  alive : ((s.launched ++ s.ended).filter fun q => q.phase.is_alive).length ≤ p.max_process

/-- The call has returned the results of all items, or it has ended with the error that names
every child without a result. -/
def Settled (p : Pool I R) (s : State I R) : Prop :=
  s.launched = [] ∧
    ((∃ results, s.control = .returned results ∧ s.items = [] ∧ (s.ended.map Child.item).Perm p.items ∧
        (∀ q ∈ s.ended, ∃ ret, q.received = some (.result ret)) ∧
        results.Perm (s.ended.filterMap (Child.result p.truthy))) ∨
      (∃ msg, s.control = .fatal msg ∧ (∃ q ∈ s.ended, ∃ failure, q.received = some (.exception failure)) ∧
        ∀ q ∈ s.ended, (∃ ret, q.received = some (.result ret)) ∨
          ∃ failure, q.received = some (.exception failure) ∧ failure.e <:+: msg))

/-- A message that can be read back, and whose output can be decoded. -/
def Message.readable : Message R → Bool
  | .result _ => true
  | .exception failure =>
    match failure.output with
    | some (.str _) => false
    | _ => true
  | .unreadable => false

def Phase.orderly : Phase R → Bool
  | .died | .died_writing => false
  | .writing msg | .written msg | .left msg => msg.readable
  | .running | .read | .gone => true

/-- No child ends before its message is written, and every message can be read. -/
def Run.Orderly {p : Pool I R} (run : Run p) : Prop :=
  ∀ n, ∀ q ∈ (run.state n).launched, q.phase.orderly = true

/-- The pool loses nothing in a run. -/
def Run.Keeps {p : Pool I R} (run : Run p) : Prop :=
  (∀ n, Bounded p (run.state n)) ∧ ∃ n, Settled p (run.state n)

/-! ## What a step does -/

variable {p : Pool I R} {s s' : State I R} {q q' : Child I R}

theorem update_done (h : q.update = .done q') :
    (q' = q ∧ (q.phase = .running ∨ q.phase = .read ∨ q.phase = .died ∨ q.phase = .gone)) ∨
      ∃ msg, msg ≠ .unreadable ∧ (q.phase = .written msg ∧ q' = { q with phase := .read, received := some msg } ∨
        q.phase = .left msg ∧ q' = { q with phase := .gone, received := some msg }) := by
  obtain ⟨id, item, phase, received⟩ := q
  unfold Child.update at h
  cases phase with
  | running => exact Or.inl ⟨(Update.done.inj h).symm, by simp⟩
  | writing msg => cases h
  | written msg =>
    cases msg with
    | unreadable => cases h
    | result ret => exact Or.inr ⟨.result ret, by simp, Or.inl ⟨rfl, (Update.done.inj h).symm⟩⟩
    | exception failure => exact Or.inr ⟨.exception failure, by simp, Or.inl ⟨rfl, (Update.done.inj h).symm⟩⟩
  | read => exact Or.inl ⟨(Update.done.inj h).symm, by simp⟩
  | died => exact Or.inl ⟨(Update.done.inj h).symm, by simp⟩
  | died_writing => cases h
  | left msg =>
    cases msg with
    | unreadable => cases h
    | result ret => exact Or.inr ⟨.result ret, by simp, Or.inr ⟨rfl, (Update.done.inj h).symm⟩⟩
    | exception failure => exact Or.inr ⟨.exception failure, by simp, Or.inr ⟨rfl, (Update.done.inj h).symm⟩⟩
  | gone => exact Or.inl ⟨(Update.done.inj h).symm, by simp⟩

theorem update_raises (h : q.update = .raises) : q.phase = .written .unreadable ∨ q.phase = .left .unreadable := by
  obtain ⟨id, item, phase, received⟩ := q
  unfold Child.update at h
  cases phase with
  | written msg => cases msg <;> simp_all
  | left msg => cases msg <;> simp_all
  | _ => simp at h

theorem update_waits (h : q.update = .waits) : (∃ msg, q.phase = .writing msg) ∨ q.phase = .died_writing := by
  obtain ⟨id, item, phase, received⟩ := q
  unfold Child.update at h
  cases phase with
  | written msg => cases msg <;> simp_all
  | left msg => cases msg <;> simp_all
  | writing msg => exact Or.inl ⟨msg, rfl⟩
  | died_writing => exact Or.inr rfl
  | _ => simp at h

inductive ParentStep (p : Pool I R) (s : State I R) : State I R → Prop
  | launches (item : I) (hcontrol : s.control = .loop) (herrors : s.errors = [])
      (hroom : s.launched.length < p.max_process) (hitem : s.items.getLast? = some item) :
      ParentStep p s { s with
        items := s.items.dropLast
        launched := s.launched ++ [⟨s.launched.length + s.ended.length, item, .running, none⟩]
        control := .scan 0 }
  | goes_on (hcontrol : s.control = .loop) (hlaunched : s.launched ≠ []) :
      ParentStep p s { s with control := .scan 0 }
  | finishes (hcontrol : s.control = .loop) (hlaunched : s.launched = []) (hitems : s.items = [] ∨ s.errors ≠ []) :
      ParentStep p s { s with control := p.finish s }
  | ends_scan (i : ℕ) (hcontrol : s.control = .scan i ∨ s.control = .check i) (hnone : s.launched[i]? = none) :
      ParentStep p s { s with control := .loop }
  | raises (i : ℕ) (q : Child I R) (hcontrol : s.control = .scan i ∨ s.control = .check i)
      (hq : s.launched[i]? = some q) (hupdate : q.update = .raises) :
      ParentStep p s { s with control := .raised }
  | updates (i : ℕ) (q q' : Child I R) (hcontrol : s.control = .scan i) (hq : s.launched[i]? = some q)
      (hupdate : q.update = .done q') :
      ParentStep p s { s with launched := s.launched.set i q', control := .check i }
  | alive (i : ℕ) (q : Child I R) (hcontrol : s.control = .check i) (hq : s.launched[i]? = some q)
      (halive : q.phase.is_alive = true) :
      ParentStep p s { s with control := .scan (i + 1) }
  | removes (i : ℕ) (q q' : Child I R) (hcontrol : s.control = .check i) (hq : s.launched[i]? = some q)
      (halive : q.phase.is_alive = false) (hupdate : q.update = .done q') :
      ParentStep p s { s with
        launched := s.launched.eraseIdx i
        ended := s.ended ++ [q']
        errors := s.errors ++ q'.exception.toList
        results := s.results ++ (q'.result p.truthy).toList
        control := .scan (i + 1) }

theorem parent_step (h : p.parent s = some s') : ParentStep p s s' := by
  unfold Pool.parent at h
  cases hcontrol : s.control with
  | loop =>
    simp only [hcontrol] at h
    split at h
    · rename_i hcond
      obtain rfl := Option.some.inj h
      unfold Pool.launch
      split
      · rename_i hroom
        rw [Bool.and_eq_true, List.isEmpty_iff, decide_eq_true_eq] at hroom
        cases hitem : s.items.getLast? with
        | none =>
          have hitems : s.items = [] := List.getLast?_eq_none_iff.mp hitem
          refine .goes_on hcontrol ?_
          simpa [hitems] using hcond
        | some item => exact .launches item hcontrol hroom.1 hroom.2 hitem
      · rename_i hroom
        refine .goes_on hcontrol ?_
        intro hnil
        apply hroom
        simp [hnil] at hcond
        simp [hnil, hcond.2, p.positive]
    · rename_i hcond
      obtain rfl := Option.some.inj h
      simp only [Bool.or_eq_true, Bool.and_eq_true, Bool.not_eq_true', not_or, not_and,
        List.isEmpty_eq_false_iff] at hcond
      refine .finishes hcontrol (not_not.mp hcond.2) ?_
      by_cases hitems : s.items = []
      · exact Or.inl hitems
      · exact Or.inr fun herrors => hcond.1 hitems (by rw [herrors]; rfl)
  | scan i =>
    simp only [hcontrol] at h
    cases hq : s.launched[i]? with
    | none =>
      simp only [hq] at h
      obtain rfl := Option.some.inj h
      exact .ends_scan i (Or.inl hcontrol) hq
    | some q =>
      simp only [hq] at h
      cases hupdate : q.update with
      | waits => simp [hupdate] at h
      | raises =>
        simp only [hupdate] at h
        obtain rfl := Option.some.inj h
        exact .raises i q (Or.inl hcontrol) hq hupdate
      | done q' =>
        simp only [hupdate] at h
        obtain rfl := Option.some.inj h
        exact .updates i q q' hcontrol hq hupdate
  | check i =>
    simp only [hcontrol] at h
    cases hq : s.launched[i]? with
    | none =>
      simp only [hq] at h
      obtain rfl := Option.some.inj h
      exact .ends_scan i (Or.inr hcontrol) hq
    | some q =>
      simp only [hq] at h
      split at h
      · rename_i halive
        obtain rfl := Option.some.inj h
        exact .alive i q hcontrol hq halive
      · rename_i halive
        rw [Bool.not_eq_true] at halive
        cases hupdate : q.update with
        | waits => simp [hupdate] at h
        | raises =>
          simp only [hupdate] at h
          obtain rfl := Option.some.inj h
          exact .raises i q (Or.inr hcontrol) hq hupdate
        | done q' =>
          simp only [hupdate] at h
          obtain rfl := Option.some.inj h
          exact .removes i q q' hcontrol hq halive hupdate
  | returned results => simp [hcontrol] at h
  | fatal msg => simp [hcontrol] at h
  | raised => simp [hcontrol] at h

/-! ## What holds in every state -/

theorem split_at {α : Type} {l : List α} {i : ℕ} {x : α} (h : l[i]? = some x) :
    ∃ a b, l = a ++ x :: b ∧ (∀ y, l.set i y = a ++ y :: b) ∧ l.eraseIdx i = a ++ b := by
  induction l generalizing i with
  | nil => cases h
  | cons z l ih =>
    cases i with
    | zero =>
      obtain rfl : z = x := by simpa using h
      exact ⟨[], l, rfl, fun _ => rfl, rfl⟩
    | succ i =>
      obtain ⟨a, b, rfl, hset, herase⟩ := ih (by simpa using h)
      refine ⟨z :: a, b, rfl, fun y => ?_, ?_⟩
      · rw [List.set_cons_succ, hset, List.cons_append]
      · rw [List.eraseIdx_cons_succ, herase, List.cons_append]

/-- A message was received from the children from which it was read, and from no others. -/
def Child.Kept (q : Child I R) : Prop :=
  (q.received.isSome = true ↔ q.phase = .read ∨ q.phase = .gone) ∧ q.received ≠ some .unreadable

theorem Child.Kept.move (h : q.Kept) {phase : Phase R} (hmove : q.phase.Moves phase) :
    { q with phase := phase }.Kept := by
  obtain ⟨id, item, start, received⟩ := q
  unfold Child.Kept at h ⊢
  cases hmove <;> simpa using h

theorem Child.Kept.update (h : q.Kept) (hupdate : q.update = .done q') : q'.Kept ∧ q'.item = q.item ∧
    (q.phase.is_alive = false → q'.phase = .died ∨ q'.phase = .gone) := by
  unfold Child.Kept at h ⊢
  rcases update_done hupdate with ⟨rfl, hphase⟩ | ⟨msg, hmsg, ⟨hphase, rfl⟩ | ⟨hphase, rfl⟩⟩
  · refine ⟨h, rfl, fun halive => ?_⟩
    rcases hphase with hphase | hphase | hphase
    · rw [hphase] at halive
      cases halive
    · rw [hphase] at halive
      cases halive
    · exact hphase
  · refine ⟨by simpa using hmsg, rfl, fun halive => ?_⟩
    rw [hphase] at halive
    cases halive
  · exact ⟨by simpa using hmsg, rfl, fun _ => Or.inr rfl⟩

structure Inv (p : Pool I R) (s : State I R) : Prop where
  once : (s.items ++ (s.launched ++ s.ended).map Child.item).Perm p.items
  room : s.launched.length ≤ p.max_process
  kept : ∀ q ∈ s.launched ++ s.ended, q.Kept
  dead : ∀ q ∈ s.ended, q.phase = .died ∨ q.phase = .gone
  errors : s.errors = s.ended.filterMap Child.exception
  results : s.results = s.ended.filterMap (Child.result p.truthy)
  returned : ∀ results, s.control = .returned results →
    s.launched = [] ∧ s.items = [] ∧ s.errors = [] ∧ results = s.results
  fatal : ∀ msg, s.control = .fatal msg → s.launched = [] ∧ s.errors ≠ [] ∧
    ∃ msgs, s.errors.mapM p.error_msg = some msgs ∧
      msg = text "Fatal errors occurred in subprocesses:\n" ++ msgs.flatten

theorem Inv.start (p : Pool I R) : Inv p p.start where
  once := by simp [Pool.start]
  room := Nat.zero_le _
  kept := by simp [Pool.start]
  dead := by simp [Pool.start]
  errors := rfl
  results := rfl
  returned := fun _ h => by cases h
  fatal := fun _ h => by cases h

theorem finish_cases (p : Pool I R) (s : State I R) : (s.errors = [] ∧ p.finish s = .returned s.results) ∨
    (s.errors ≠ [] ∧ ((∃ msgs, s.errors.mapM p.error_msg = some msgs ∧
      p.finish s = .fatal (text "Fatal errors occurred in subprocesses:\n" ++ msgs.flatten)) ∨
      (s.errors.mapM p.error_msg = none ∧ p.finish s = .raised))) := by
  unfold Pool.finish
  by_cases herrors : s.errors = []
  · exact Or.inl ⟨herrors, by rw [herrors]; rfl⟩
  · rw [if_neg (by simpa using herrors)]
    cases hmsgs : s.errors.mapM p.error_msg with
    | none => exact Or.inr ⟨herrors, Or.inr ⟨rfl, rfl⟩⟩
    | some msgs => exact Or.inr ⟨herrors, Or.inl ⟨msgs, rfl, rfl⟩⟩

theorem Inv.changed (h : Inv p s) {a b : List (Child I R)} {control : Control R}
    (hlaunched : s.launched = a ++ q :: b) (hq' : q'.Kept) (hitem : q'.item = q.item) (hreturned : ∀ results, control ≠ .returned results)
    (hfatal : ∀ msg, control ≠ .fatal msg) : Inv p { s with launched := a ++ q' :: b, control := control } where
  once := by
    have honce := h.once
    rw [hlaunched] at honce
    simpa [hitem] using honce
  room := by
    have hroom := h.room
    rw [hlaunched] at hroom
    simpa using hroom
  kept := by
    have hkept := h.kept
    rw [hlaunched] at hkept
    simp only [List.append_assoc, List.cons_append, List.forall_mem_append, List.forall_mem_cons] at hkept ⊢
    exact ⟨hkept.1, hq', hkept.2.2⟩
  dead := h.dead
  errors := h.errors
  results := h.results
  returned := fun results hcontrol => absurd hcontrol (hreturned results)
  fatal := fun msg hcontrol => absurd hcontrol (hfatal msg)

theorem Inv.moved (h : Inv p s) {control : Control R} (hreturned : ∀ results, control ≠ .returned results)
    (hfatal : ∀ msg, control ≠ .fatal msg) : Inv p { s with control := control } :=
  { h with
    returned := fun results hcontrol => absurd hcontrol (hreturned results)
    fatal := fun msg hcontrol => absurd hcontrol (hfatal msg) }

theorem filterMap_concat {α β : Type} (f : α → Option β) (l : List α) (x : α) :
    (l ++ [x]).filterMap f = l.filterMap f ++ (f x).toList := by
  rw [List.filterMap_append]
  cases hx : f x <;> simp [hx]

theorem Inv.parent (h : Inv p s) (hstep : ParentStep p s s') : Inv p s' := by
  cases hstep with
  | launches item hcontrol herrors hroom hitem =>
    obtain ⟨rest, hitems⟩ := List.getLast?_eq_some_iff.mp hitem
    have hkept : (⟨s.launched.length + s.ended.length, item, .running, none⟩ : Child I R).Kept := by
      unfold Child.Kept
      simp
    exact { h with
      once := by
        have honce := h.once
        rw [hitems] at honce ⊢
        rw [List.dropLast_concat]
        refine List.Perm.trans ?_ honce
        simp only [List.map_append, List.map_cons, List.append_assoc, List.cons_append, List.nil_append]
        exact List.Perm.append_left _ List.perm_middle
      room := by
        rw [List.length_append]
        exact hroom
      kept := by
        have hall := h.kept
        simp only [List.append_assoc, List.forall_mem_append, List.forall_mem_singleton] at hall ⊢
        exact ⟨hall.1, hkept, hall.2⟩
      returned := fun _ hcontrol => by cases hcontrol
      fatal := fun _ hcontrol => by cases hcontrol }
  | goes_on hcontrol hlaunched => exact h.moved (by simp) (by simp)
  | finishes hcontrol hlaunched hitems =>
    rcases finish_cases p s with ⟨herrors, hfinish⟩ | ⟨herrors, ⟨msgs, hmsgs, hfinish⟩ | ⟨_, hfinish⟩⟩
    · rw [hfinish]
      exact { h with
        returned := fun results hcontrol =>
          ⟨hlaunched, hitems.resolve_right (not_not.mpr herrors), herrors, (Control.returned.inj hcontrol).symm⟩
        fatal := fun _ hcontrol => by cases hcontrol }
    · rw [hfinish]
      exact { h with
        returned := fun _ hcontrol => by cases hcontrol
        fatal := fun msg hcontrol => ⟨hlaunched, herrors, msgs, hmsgs, (Control.fatal.inj hcontrol).symm⟩ }
    · rw [hfinish]
      exact h.moved (by simp) (by simp)
  | ends_scan i hcontrol hnone => exact h.moved (by simp) (by simp)
  | raises i q hcontrol hq hupdate => exact h.moved (by simp) (by simp)
  | updates i q q' hcontrol hq hupdate =>
    obtain ⟨a, b, hsplit, hset, _⟩ := split_at hq
    have hkept := h.kept q (by rw [hsplit]; simp)
    obtain ⟨hq', hitem, _⟩ := hkept.update hupdate
    rw [hset q']
    exact h.changed hsplit hq' hitem (by simp) (by simp)
  | alive i q hcontrol hq halive => exact h.moved (by simp) (by simp)
  | removes i q q' hcontrol hq halive hupdate =>
    obtain ⟨a, b, hsplit, _, herase⟩ := split_at hq
    have hall := h.kept
    obtain ⟨hq', hitem, hdead⟩ := (hall q (by rw [hsplit]; simp)).update hupdate
    exact {
      once := by
        refine List.Perm.trans ?_ h.once
        rw [herase, hsplit]
        simp only [List.map_append, List.map_cons, List.map_nil, List.append_assoc, List.cons_append, hitem]
        refine List.Perm.append_left _ (List.Perm.append_left _ ?_)
        rw [← List.append_assoc]
        exact List.perm_append_singleton _ _
      room := (List.length_eraseIdx_le _ _).trans h.room
      kept := by
        rw [hsplit] at hall
        rw [herase]
        simp only [List.append_assoc, List.cons_append, List.forall_mem_append, List.forall_mem_cons] at hall ⊢
        exact ⟨hall.1, hall.2.2.1, hall.2.2.2, hq', by simp⟩
      dead := by
        rw [List.forall_mem_append, List.forall_mem_singleton]
        exact ⟨h.dead, hdead halive⟩
      errors := by rw [filterMap_concat, h.errors]
      results := by rw [filterMap_concat, h.results]
      returned := fun _ hcontrol => by cases hcontrol
      fatal := fun _ hcontrol => by cases hcontrol }

theorem Inv.step (h : Inv p s) {label : Label} (hstep : p.Step label s s') : Inv p s' := by
  cases label with
  | parent => exact h.parent (parent_step hstep)
  | child id =>
    obtain ⟨a, q, b, phase, hsplit, _, hmove, rfl⟩ := hstep
    have hkept := h.kept q (by rw [hsplit]; simp)
    have hchanged : s.launched ≠ [] := by rw [hsplit]; simp
    have hnext : Inv p { s with launched := a ++ { q with phase := phase } :: b, control := s.control } :=
      h.changed hsplit (hkept.move hmove) rfl (fun results hcontrol => hchanged (h.returned results hcontrol).1)
        (fun msg hcontrol => hchanged (h.fatal msg hcontrol).1)
    exact hnext
  | idle =>
    obtain rfl := hstep
    exact h

theorem Run.inv (run : Run p) (n : ℕ) : Inv p (run.state n) := by
  induction n with
  | zero =>
    rw [run.starts]
    exact Inv.start p
  | succ n ih => exact ih.step (run.steps n)

theorem Inv.bounded (h : Inv p s) : Bounded p s where
  once := h.once
  alive := by
    have hended : s.ended.filter (fun q => q.phase.is_alive) = [] := by
      rw [List.filter_eq_nil_iff]
      intro q hq
      rcases h.dead q hq with hphase | hphase <;> simp [hphase, Phase.is_alive]
    rw [List.filter_append, hended, List.append_nil]
    exact (List.length_filter_le _ _).trans h.room

/-! ## Orderly children -/

/-- A child that was not lost, with a message that can be read. -/
def Child.Sound (q : Child I R) : Prop :=
  q.phase.orderly = true ∧ ∀ msg, q.received = some msg → msg.readable = true

def State.Sound (s : State I R) : Prop := ∀ q ∈ s.launched ++ s.ended, q.Sound

theorem Child.Sound.of_move {phase : Phase R} (hmove : q.phase.Moves phase) (h : { q with phase := phase }.Sound) :
    q.Sound := by
  obtain ⟨id, item, start, received⟩ := q
  unfold Child.Sound at h ⊢
  refine ⟨?_, h.2⟩
  have horderly := h.1
  cases hmove <;> simp_all [Phase.orderly]

theorem Child.Sound.move (h : q.Sound) {phase : Phase R} (horderly : phase.orderly = true) :
    { q with phase := phase }.Sound := ⟨horderly, h.2⟩

theorem sound_update (hkept : q.Kept) (hupdate : q.update = .done q') : q'.Sound ↔ q.Sound := by
  obtain ⟨id, item, phase, received⟩ := q
  rcases update_done hupdate with ⟨rfl, _⟩ | ⟨msg, _, ⟨hphase, rfl⟩ | ⟨hphase, rfl⟩⟩
  · exact Iff.rfl
  · obtain rfl : phase = .written msg := hphase
    have hnone : received = none := by simpa [Child.Kept] using hkept.1
    simp [Child.Sound, Phase.orderly, hnone]
  · obtain rfl : phase = .left msg := hphase
    have hnone : received = none := by simpa [Child.Kept] using hkept.1
    simp [Child.Sound, Phase.orderly, hnone]

theorem sound_parent (h : Inv p s) (hstep : ParentStep p s s') : s'.Sound ↔ s.Sound := by
  cases hstep with
  | launches item hcontrol herrors hroom hitem =>
    have hnew : (⟨s.launched.length + s.ended.length, item, .running, none⟩ : Child I R).Sound :=
      ⟨rfl, fun _ hmsg => by cases hmsg⟩
    unfold State.Sound
    simp only [List.append_assoc, List.forall_mem_append, List.forall_mem_singleton]
    exact ⟨fun hall => ⟨hall.1, hall.2.2⟩, fun hall => ⟨hall.1, hnew, hall.2⟩⟩
  | updates i q q' hcontrol hq hupdate =>
    obtain ⟨a, b, hsplit, hset, _⟩ := split_at hq
    have hsound := sound_update (h.kept q (by rw [hsplit]; simp)) hupdate
    unfold State.Sound
    rw [hset, hsplit]
    simp only [List.append_assoc, List.cons_append, List.forall_mem_append, List.forall_mem_cons, hsound]
  | removes i q q' hcontrol hq halive hupdate =>
    obtain ⟨a, b, hsplit, _, herase⟩ := split_at hq
    have hsound := sound_update (h.kept q (by rw [hsplit]; simp)) hupdate
    unfold State.Sound
    rw [herase, hsplit]
    simp only [List.append_assoc, List.cons_append, List.forall_mem_append, List.forall_mem_cons, hsound]
    constructor
    · exact fun hall => ⟨hall.1, hall.2.2.2.1, hall.2.1, hall.2.2.1⟩
    · exact fun hall => ⟨hall.1, hall.2.2.1, hall.2.2.2, hall.2.1, by simp⟩
  | goes_on hcontrol hlaunched => exact Iff.rfl
  | finishes hcontrol hlaunched hitems => exact Iff.rfl
  | ends_scan i hcontrol hnone => exact Iff.rfl
  | raises i q hcontrol hq hupdate => exact Iff.rfl
  | alive i q hcontrol hq halive => exact Iff.rfl

theorem sound_of_step (h : Inv p s) {label : Label} (hstep : p.Step label s s') (hsound : s'.Sound) : s.Sound := by
  cases label with
  | parent => exact (sound_parent h (parent_step hstep)).mp hsound
  | child id =>
    obtain ⟨a, q, b, phase, hsplit, _, hmove, rfl⟩ := hstep
    unfold State.Sound at hsound ⊢
    rw [hsplit]
    simp only [List.append_assoc, List.cons_append, List.forall_mem_append, List.forall_mem_cons] at hsound ⊢
    exact ⟨hsound.1, .of_move hmove hsound.2.1, hsound.2.2⟩
  | idle =>
    obtain rfl := hstep
    exact hsound

theorem Run.sound_before (run : Run p) {n m : ℕ} (hle : n ≤ m) (h : (run.state m).Sound) : (run.state n).Sound := by
  induction m, hle using Nat.le_induction with
  | base => exact h
  | succ m _ ih => exact ih (sound_of_step (run.inv m) (run.steps m) h)

theorem Run.Orderly.sound {run : Run p} (h : run.Orderly) (n : ℕ) : (run.state n).Sound := by
  induction n with
  | zero =>
    rw [run.starts]
    simp [State.Sound, Pool.start]
  | succ n ih =>
    have hstep := run.steps n
    have hnext := h (n + 1)
    generalize run.state (n + 1) = s' at hstep hnext
    cases hlabel : run.label n with
    | parent =>
      rw [hlabel] at hstep
      exact (sound_parent (run.inv n) (parent_step hstep)).mpr ih
    | child id =>
      rw [hlabel] at hstep
      obtain ⟨a, q, b, phase, hsplit, _, hmove, rfl⟩ := hstep
      have horderly : phase.orderly = true := hnext { q with phase := phase } (by simp)
      unfold State.Sound at ih ⊢
      rw [hsplit] at ih
      simp only [List.append_assoc, List.cons_append, List.forall_mem_append, List.forall_mem_cons] at ih ⊢
      exact ⟨ih.1, ih.2.1.move horderly, ih.2.2⟩
    | idle =>
      rw [hlabel] at hstep
      obtain rfl := hstep
      exact ih

/-! ## The end of a call -/

theorem error_msg_isSome {failure : Failure} :
    (p.error_msg failure).isSome = (Message.exception failure : Message R).readable := by
  obtain ⟨e, tb, output⟩ := failure
  cases output with
  | none => rfl
  | some output => cases output <;> rfl

theorem error_msg_names {failure : Failure} {msg : Text} (h : p.error_msg failure = some msg) :
    failure.e <+: msg := by
  unfold Pool.error_msg at h
  split at h
  · obtain rfl := Option.some.inj h
    rw [List.append_assoc, List.append_assoc]
    exact List.prefix_append _ _
  · cases h
  · obtain rfl := Option.some.inj h
    rw [List.append_assoc, List.append_assoc]
    exact List.prefix_append _ _

theorem Child.Kept.received_cases (h : q.Kept) (hphase : q.phase = .gone) :
    (∃ ret, q.received = some (.result ret)) ∨ ∃ failure, q.received = some (.exception failure) := by
  obtain ⟨msg, hmsg⟩ := Option.isSome_iff_exists.mp (h.1.mpr (Or.inr hphase))
  cases msg with
  | result ret => exact Or.inl ⟨ret, hmsg⟩
  | exception failure => exact Or.inr ⟨failure, hmsg⟩
  | unreadable => exact absurd hmsg h.2

theorem exception_eq {failure : Failure} : q.exception = some failure ↔ q.received = some (.exception failure) := by
  unfold Child.exception
  split
  · rename_i f hreceived
    rw [hreceived]
    simp
  · rename_i hnone
    constructor
    · intro h
      cases h
    · exact fun h => absurd h (hnone failure)

theorem Inv.settled (h : Inv p s) (hsound : s.Sound) (hcontrol : (∃ results, s.control = .returned results) ∨
    ∃ msg, s.control = .fatal msg) : Settled p s := by
  have hcases : ∀ q ∈ s.ended, (∃ ret, q.received = some (.result ret)) ∨
      ∃ failure, q.received = some (.exception failure) := by
    intro q hq
    have hmem : q ∈ s.launched ++ s.ended := List.mem_append_right _ hq
    have hgone : q.phase = .gone := by
      rcases h.dead q hq with hphase | hphase
      · have horderly := (hsound q hmem).1
        rw [hphase] at horderly
        cases horderly
      · exact hphase
    exact (h.kept q hmem).received_cases hgone
  rcases hcontrol with ⟨results, hcontrol⟩ | ⟨msg, hcontrol⟩
  · obtain ⟨hlaunched, hitems, herrors, rfl⟩ := h.returned results hcontrol
    refine ⟨hlaunched, Or.inl ⟨_, hcontrol, hitems, ?_, ?_, ?_⟩⟩
    · have honce := h.once
      rw [hlaunched, hitems] at honce
      simpa using honce
    · intro q hq
      refine (hcases q hq).resolve_right ?_
      rintro ⟨failure, hfailure⟩
      rw [h.errors, List.filterMap_eq_nil_iff] at herrors
      have hnone := herrors q hq
      rw [exception_eq.mpr hfailure] at hnone
      cases hnone
    · rw [h.results]
  · obtain ⟨hlaunched, herrors, msgs, hmsgs, rfl⟩ := h.fatal msg hcontrol
    refine ⟨hlaunched, Or.inr ⟨_, hcontrol, ?_, ?_⟩⟩
    · obtain ⟨failure, hfailure⟩ := List.exists_mem_of_ne_nil _ herrors
      rw [h.errors, List.mem_filterMap] at hfailure
      obtain ⟨q, hq, hexception⟩ := hfailure
      exact ⟨q, hq, failure, exception_eq.mp hexception⟩
    · intro q hq
      refine (hcases q hq).imp_right ?_
      rintro ⟨failure, hfailure⟩
      have hmem : failure ∈ s.errors := by
        rw [h.errors, List.mem_filterMap]
        exact ⟨q, hq, exception_eq.mpr hfailure⟩
      obtain ⟨line, hline, hmsg⟩ := exists_of_mapM hmsgs failure hmem
      refine ⟨failure, hfailure, (error_msg_names hmsg).isInfix.trans ?_⟩
      obtain ⟨before, after, rfl⟩ := List.append_of_mem hline
      refine List.IsInfix.trans ⟨before.flatten, after.flatten, ?_⟩ (List.suffix_append _ _).isInfix
      simp

theorem Inv.sound_of_settled (h : Inv p s) (hsettled : Settled p s) : s.Sound := by
  obtain ⟨hlaunched, hsettled⟩ := hsettled
  unfold State.Sound
  rw [hlaunched, List.nil_append]
  intro q hq
  have hkept := h.kept q (List.mem_append_right _ hq)
  have hcases : (∃ ret, q.received = some (.result ret)) ∨
      ∃ failure, q.received = some (.exception failure) ∧ (p.error_msg failure).isSome = true := by
    rcases hsettled with ⟨results, _, _, _, hall, _⟩ | ⟨msg, hcontrol, _, hall⟩
    · exact Or.inl (hall q hq)
    · refine (hall q hq).imp_right ?_
      rintro ⟨failure, hfailure, _⟩
      obtain ⟨_, _, msgs, hmsgs, _⟩ := h.fatal msg hcontrol
      have hmem : failure ∈ s.errors := by
        rw [h.errors, List.mem_filterMap]
        exact ⟨q, hq, exception_eq.mpr hfailure⟩
      obtain ⟨line, _, hline⟩ := exists_of_mapM hmsgs failure hmem
      exact ⟨failure, hfailure, by rw [hline]; rfl⟩
  have hphase : q.phase = .read ∨ q.phase = .gone := by
    apply hkept.1.mp
    rcases hcases with ⟨ret, hret⟩ | ⟨failure, hfailure, _⟩
    · rw [hret]
      rfl
    · rw [hfailure]
      rfl
  refine ⟨?_, ?_⟩
  · rcases hphase with hphase | hphase <;> rw [hphase] <;> rfl
  · intro msg hmsg
    rcases hcases with ⟨ret, hret⟩ | ⟨failure, hfailure, hsome⟩
    · obtain rfl := Option.some.inj (hret.symm.trans hmsg)
      rfl
    · obtain rfl := Option.some.inj (hfailure.symm.trans hmsg)
      rw [← error_msg_isSome (p := p)]
      exact hsome

theorem sound_not_raised (h : Inv p s) (hsound : s.Sound) (hstep : ParentStep p s s') : s'.control ≠ .raised := by
  cases hstep with
  | finishes hloop hlaunched hitems =>
    rcases finish_cases p s with ⟨_, hfinish⟩ | ⟨_, ⟨msgs, _, hfinish⟩ | ⟨hmsgs, _⟩⟩
    · simp [hfinish]
    · simp [hfinish]
    · have hsome : ∀ failure ∈ s.errors, (p.error_msg failure).isSome = true := by
        intro failure hmem
        rw [h.errors, List.mem_filterMap] at hmem
        obtain ⟨q, hq, hexception⟩ := hmem
        rw [error_msg_isSome]
        exact (hsound q (List.mem_append_right _ hq)).2 _ (exception_eq.mp hexception)
      rw [mapM_eq_some.mpr ⟨hsome, rfl⟩] at hmsgs
      cases hmsgs
  | raises i q hscan hq hupdate =>
    have horderly := (hsound q (List.mem_append_left _ (List.mem_of_getElem? hq))).1
    rcases update_raises hupdate with hphase | hphase <;> simp [hphase, Phase.orderly, Message.readable] at horderly
  | _ => simp

/-! ## Every call ends -/

def Phase.weight : Phase R → ℕ
  | .running => 5
  | .writing _ => 4
  | .written _ => 3
  | .read | .left _ => 2
  | .died | .died_writing | .gone => 1

/-- What is left to do in a call. -/
def State.weight (s : State I R) : ℕ := 6 * s.items.length + (s.launched.map fun q => q.phase.weight).sum

theorem Phase.Moves.weight_lt {phase phase' : Phase R} (h : phase.Moves phase') : phase'.weight < phase.weight := by
  cases h <;> simp [Phase.weight]

theorem Phase.weight_pos (phase : Phase R) : 0 < phase.weight := by
  cases phase <;> simp [Phase.weight]

/-- The next place of the parent, when nothing happens. -/
inductive Next (launched : List (Child I R)) : Control R → Control R → Prop
  | loop (h : launched ≠ []) : Next launched .loop (.scan 0)
  | scan (i : ℕ) (q : Child I R) (hq : launched[i]? = some q)
      (hphase : q.phase = .running ∨ q.phase = .read ∨ q.phase = .died ∨ q.phase = .gone) :
      Next launched (.scan i) (.check i)
  | check (i : ℕ) (q : Child I R) (hq : launched[i]? = some q) (halive : q.phase.is_alive = true) :
      Next launched (.check i) (.scan (i + 1))
  | back_scan (i : ℕ) (h : launched[i]? = none) : Next launched (.scan i) .loop
  | back_check (i : ℕ) (h : launched[i]? = none) : Next launched (.check i) .loop

def Control.is_final : Control R → Bool
  | .returned _ | .fatal _ | .raised => true
  | .loop | .scan _ | .check _ => false

theorem finish_is_final (p : Pool I R) (s : State I R) : (p.finish s).is_final = true := by
  rcases finish_cases p s with ⟨_, hfinish⟩ | ⟨_, ⟨msgs, _, hfinish⟩ | ⟨_, hfinish⟩⟩ <;> rw [hfinish] <;> rfl

theorem parent_weight (hstep : ParentStep p s s') : s'.weight < s.weight ∨ s'.weight = s.weight ∧
    (s'.control.is_final = true ∨ s'.launched = s.launched ∧ Next s.launched s.control s'.control) := by
  cases hstep with
  | launches item hcontrol herrors hroom hitem =>
    obtain ⟨rest, hitems⟩ := List.getLast?_eq_some_iff.mp hitem
    left
    unfold State.weight
    simp only [hitems, List.dropLast_concat, List.length_append, List.length_singleton, List.map_append,
      List.map_cons, List.map_nil, List.sum_append, List.sum_cons, List.sum_nil, Phase.weight]
    omega
  | goes_on hcontrol hlaunched =>
    refine Or.inr ⟨rfl, Or.inr ⟨rfl, ?_⟩⟩
    rw [hcontrol]
    exact .loop hlaunched
  | finishes hcontrol hlaunched hitems => exact Or.inr ⟨rfl, Or.inl (finish_is_final p s)⟩
  | ends_scan i hcontrol hnone =>
    refine Or.inr ⟨rfl, Or.inr ⟨rfl, ?_⟩⟩
    rcases hcontrol with hcontrol | hcontrol
    · rw [hcontrol]
      exact .back_scan i hnone
    · rw [hcontrol]
      exact .back_check i hnone
  | raises i q hcontrol hq hupdate => exact Or.inr ⟨rfl, Or.inl rfl⟩
  | updates i q q' hcontrol hq hupdate =>
    obtain ⟨a, b, hsplit, hset, _⟩ := split_at hq
    rcases update_done hupdate with ⟨rfl, hphase⟩ | hreceives
    · have hsame : s.launched.set i q' = s.launched := by rw [hset, hsplit]
      rw [hsame]
      refine Or.inr ⟨rfl, Or.inr ⟨rfl, ?_⟩⟩
      rw [hcontrol]
      exact .scan i q' hq hphase
    · have hlt : q'.phase.weight < q.phase.weight := by
        obtain ⟨msg, _, ⟨hphase, rfl⟩ | ⟨hphase, rfl⟩⟩ := hreceives <;> rw [hphase] <;> simp [Phase.weight]
      left
      unfold State.weight
      dsimp only
      rw [hset q', hsplit]
      simp only [List.map_append, List.map_cons, List.sum_append, List.sum_cons]
      omega
  | alive i q hcontrol hq halive =>
    refine Or.inr ⟨rfl, Or.inr ⟨rfl, ?_⟩⟩
    rw [hcontrol]
    exact .check i q hq halive
  | removes i q q' hcontrol hq halive hupdate =>
    obtain ⟨a, b, hsplit, _, herase⟩ := split_at hq
    have hpos := q.phase.weight_pos
    left
    unfold State.weight
    dsimp only
    rw [herase, hsplit]
    simp only [List.map_append, List.map_cons, List.sum_append, List.sum_cons]
    omega

theorem child_weight {id : ℕ} (hstep : p.Step (.child id) s s') : s'.weight < s.weight := by
  obtain ⟨a, q, b, phase, hsplit, _, hmove, rfl⟩ := hstep
  have hlt := hmove.weight_lt
  unfold State.weight
  simp only [hsplit, List.map_append, List.map_cons, List.sum_append, List.sum_cons]
  omega

theorem step_weight {label : Label} (hstep : p.Step label s s') : s'.weight ≤ s.weight := by
  cases label with
  | parent => exact (parent_weight (parent_step hstep)).elim le_of_lt fun h => h.1.le
  | child id => exact (child_weight hstep).le
  | idle =>
    obtain rfl := hstep
    exact le_rfl

theorem exists_stable {f : ℕ → ℕ} (h : ∀ n, f (n + 1) ≤ f n) : ∃ n, ∀ m ≥ n, f m = f n := by
  classical
  have hanti : Antitone f := antitone_nat_of_succ_le h
  have hleast : ∃ w, ∃ n, f n = w := ⟨f 0, 0, rfl⟩
  obtain ⟨n, hn⟩ := Nat.find_spec hleast
  refine ⟨n, fun m hm => le_antisymm (hanti hm) ?_⟩
  rw [hn]
  exact Nat.find_min' hleast ⟨m, rfl⟩

theorem parent_waits (hnone : p.parent s = none) (hfinal : s.control.is_final = false) :
    ∃ i q, s.launched[i]? = some q ∧
      (s.control = .scan i ∧ (∃ msg, q.phase = .writing msg) ∨ q.phase = .died_writing) := by
  unfold Pool.parent at hnone
  cases hcontrol : s.control with
  | loop =>
    simp only [hcontrol] at hnone
    split at hnone <;> cases hnone
  | scan i =>
    simp only [hcontrol] at hnone
    cases hq : s.launched[i]? with
    | none => simp [hq] at hnone
    | some q =>
      simp only [hq] at hnone
      cases hupdate : q.update with
      | raises => simp [hupdate] at hnone
      | done q' => simp [hupdate] at hnone
      | waits => exact ⟨i, q, hq, (update_waits hupdate).imp_left fun h => ⟨rfl, h⟩⟩
  | check i =>
    simp only [hcontrol] at hnone
    cases hq : s.launched[i]? with
    | none => simp [hq] at hnone
    | some q =>
      simp only [hq] at hnone
      split at hnone
      · cases hnone
      · rename_i halive
        cases hupdate : q.update with
        | raises => simp [hupdate] at hnone
        | done q' => simp [hupdate] at hnone
        | waits =>
          rcases update_waits hupdate with ⟨msg, hphase⟩ | hphase
          · rw [hphase] at halive
            exact absurd rfl halive
          · exact ⟨i, q, hq, Or.inr hphase⟩
  | returned results => simp [hcontrol, Control.is_final] at hfinal
  | fatal msg => simp [hcontrol, Control.is_final] at hfinal
  | raised => simp [hcontrol, Control.is_final] at hfinal

/-! ### Nothing happens from some time on -/

/-- A run in which nothing happens from a time on, although the call has not ended. -/
structure Quiet (run : Run p) (n : ℕ) : Prop where
  sound : ∀ m, (run.state m).Sound
  unfinished : ∀ m, (run.state m).control.is_final = false
  weight : ∀ m ≥ n, (run.state m).weight = (run.state n).weight

variable {run : Run p} {n : ℕ}

theorem Quiet.no_child (h : Quiet run n) {m : ℕ} (hm : n ≤ m) (id : ℕ) : run.label m ≠ .child id := by
  intro hlabel
  have hstep := run.steps m
  rw [hlabel] at hstep
  have hlt := child_weight hstep
  rw [h.weight m hm, h.weight (m + 1) (Nat.le_succ_of_le hm)] at hlt
  exact lt_irrefl _ hlt

theorem Quiet.parent (h : Quiet run n) {m : ℕ} (hm : n ≤ m) (hlabel : run.label m = .parent) :
    (run.state (m + 1)).launched = (run.state m).launched ∧
      Next (run.state m).launched (run.state m).control (run.state (m + 1)).control := by
  have hstep := run.steps m
  rw [hlabel] at hstep
  rcases parent_weight (parent_step hstep) with hlt | ⟨_, hfinal | hnext⟩
  · rw [h.weight m hm, h.weight (m + 1) (Nat.le_succ_of_le hm)] at hlt
    exact absurd hlt (lt_irrefl _)
  · rw [h.unfinished (m + 1)] at hfinal
    cases hfinal
  · exact hnext

theorem Quiet.same (h : Quiet run n) {m k : ℕ} (hm : n ≤ m) (hk : m ≤ k)
    (hparent : ∀ j, m ≤ j → j < k → run.label j ≠ .parent) : run.state k = run.state m := by
  induction k, hk using Nat.le_induction with
  | base => rfl
  | succ k hk ih =>
    have hsame := ih fun j hj hlt => hparent j hj (Nat.lt_succ_of_lt hlt)
    have hstep := run.steps k
    cases hlabel : run.label k with
    | parent => exact absurd hlabel (hparent k hk (Nat.lt_succ_self k))
    | child id => exact absurd hlabel (h.no_child (hm.trans hk) id)
    | idle =>
      rw [hlabel] at hstep
      exact hstep.trans hsame

theorem Quiet.next (h : Quiet run n) {m : ℕ} (hm : n ≤ m) :
    ∃ k, m ≤ k ∧ (run.state k).launched = (run.state m).launched ∧
      Next (run.state m).launched (run.state m).control (run.state k).control := by
  by_cases hparent : ∃ k, m ≤ k ∧ run.label k = .parent
  · have hfirst := Nat.find_spec hparent
    have hsame := h.same hm hfirst.1 fun j hj hlt hlabel => Nat.find_min hparent hlt ⟨hj, hlabel⟩
    have hnext := h.parent (hm.trans hfirst.1) hfirst.2
    rw [hsame] at hnext
    exact ⟨Nat.find hparent + 1, Nat.le_succ_of_le hfirst.1, hnext⟩
  · exfalso
    have hnever : ∀ k ≥ m, run.label k ≠ .parent := fun k hk hlabel => hparent ⟨k, hk, hlabel⟩
    have hsame : ∀ k ≥ m, run.state k = run.state m := fun k hk => h.same hm hk fun j hj _ => hnever j hj
    cases hnone : p.parent (run.state m) with
    | some s' =>
      obtain ⟨k, hk, hlabel⟩ := run.fair_parent m fun k hk => by rw [hsame k hk, hnone]; rfl
      exact hnever k hk hlabel
    | none =>
      obtain ⟨i, q, hq, ⟨hcontrol, msg, hphase⟩ | hphase⟩ := parent_waits hnone (h.unfinished m)
      · obtain ⟨k, hk, hlabel⟩ := run.fair_writer m i q msg hq hphase fun k hk => by rw [hsame k hk, hcontrol]
        exact h.no_child (hm.trans hk) q.id hlabel
      · have horderly := (h.sound m q (List.mem_append_left _ (List.mem_of_getElem? hq))).1
        rw [hphase] at horderly
        cases horderly

theorem Quiet.gone (h : Quiet run n) {m : ℕ} (hm : n ≤ m) {q : Child I R} (hq : q ∈ (run.state m).launched)
    (hphase : q.phase = .running ∨ q.phase = .read ∨ q.phase = .died ∨ q.phase = .gone) : q.phase = .gone := by
  have hwaits : ¬ (q.phase = .running ∨ q.phase = .read) := by
    intro hphase
    obtain ⟨k, hk, hlabel⟩ := run.fair_child m q hq hphase
    exact h.no_child (hm.trans hk) q.id hlabel
  have horderly := (h.sound m q (List.mem_append_left _ hq)).1
  rcases hphase with hphase | hphase | hphase | hphase
  · exact absurd (Or.inl hphase) hwaits
  · exact absurd (Or.inr hphase) hwaits
  · rw [hphase] at horderly
    cases horderly
  · exact hphase

theorem Quiet.not_first (h : Quiet run n) {m : ℕ} (hm : n ≤ m) (hlaunched : (run.state m).launched ≠ []) :
    (run.state m).control ≠ .scan 0 := by
  intro hcontrol
  obtain ⟨k, hk, hsame, hnext⟩ := h.next hm
  rw [hcontrol] at hnext
  generalize hcontrol' : (run.state k).control = control at hnext
  cases hnext with
  | scan _ q hq hphase =>
    have hgone := h.gone hm (List.mem_of_getElem? hq) hphase
    obtain ⟨k', _, _, hnext'⟩ := h.next (hm.trans hk)
    rw [hcontrol', hsame] at hnext'
    generalize (run.state k').control = control' at hnext'
    cases hnext' with
    | check _ q' hq' halive =>
      obtain rfl := Option.some.inj (hq.symm.trans hq')
      rw [hgone] at halive
      cases halive
    | back_check _ hnone => simp [hq] at hnone
  | back_scan _ hnone =>
    cases hl : (run.state m).launched with
    | nil => exact hlaunched hl
    | cons q l => simp [hl] at hnone

/-- How far the parent is from the start of its loop. -/
def Control.distance (length : ℕ) : Control R → ℕ
  | .loop => 1
  | .check i => 2 * (length - i) + 2
  | .scan i => 2 * (length - i) + 3
  | .returned _ | .fatal _ | .raised => 0

theorem Quiet.absurd_at (h : Quiet run n) (k : ℕ) :
    ∀ m ≥ n, (run.state m).control.distance (run.state m).launched.length ≠ k := by
  induction k using Nat.strong_induction_on with
  | _ k ih =>
    intro m hm hdistance
    obtain ⟨m', hm', hsame, hnext⟩ := h.next hm
    have hle := hm.trans hm'
    have hsmaller : (run.state m').control.distance (run.state m').launched.length < k → False :=
      fun hlt => ih _ hlt m' hle rfl
    rw [hsame] at hsmaller
    generalize hcontrol : (run.state m).control = control at hnext hdistance
    generalize hcontrol' : (run.state m').control = control' at hnext hsmaller
    cases hnext with
    | loop hlaunched => exact h.not_first hle (hsame ▸ hlaunched) hcontrol'
    | scan i q hq hphase =>
      apply hsmaller
      rw [← hdistance]
      simp [Control.distance]
    | check i q hq halive =>
      have hlt : i < (run.state m).launched.length := (List.getElem?_eq_some_iff.mp hq).1
      apply hsmaller
      rw [← hdistance]
      simp only [Control.distance]
      omega
    | back_scan i hnone =>
      apply hsmaller
      rw [← hdistance]
      simp [Control.distance]
    | back_check i hnone =>
      apply hsmaller
      rw [← hdistance]
      simp [Control.distance]

theorem Run.ends (run : Run p) (h : ∀ n, (run.state n).Sound) : ∃ n, (run.state n).control.is_final = true := by
  by_contra hnone
  obtain ⟨n, hstable⟩ := @exists_stable (fun n => (run.state n).weight) fun n => step_weight (run.steps n)
  have hquiet : Quiet run n := ⟨h, fun m => by simpa using fun hm => hnone ⟨m, hm⟩, hstable⟩
  exact hquiet.absurd_at _ n le_rfl rfl

/-! ## An error stops the pool -/

theorem step_errors {label : Label} (hstep : p.Step label s s') :
    s.errors <+: s'.errors ∧ (s.errors ≠ [] → s'.items = s.items) := by
  cases label with
  | parent =>
    cases parent_step hstep with
    | launches item _ herrors _ _ => exact ⟨List.prefix_rfl, fun h => absurd herrors h⟩
    | removes i q q' _ _ _ _ => exact ⟨List.prefix_append _ _, fun _ => rfl⟩
    | _ => exact ⟨List.prefix_rfl, fun _ => rfl⟩
  | child id =>
    obtain ⟨_, _, _, _, _, _, _, rfl⟩ := hstep
    exact ⟨List.prefix_rfl, fun _ => rfl⟩
  | idle =>
    obtain rfl := hstep
    exact ⟨List.prefix_rfl, fun _ => rfl⟩

theorem Run.errors_grow (run : Run p) (n k : ℕ) : (run.state n).errors <+: (run.state (n + k)).errors := by
  induction k with
  | zero => exact List.prefix_rfl
  | succ k ih => exact ih.trans (step_errors (run.steps (n + k))).1

theorem Run.raised_step (run : Run p) (h : ∀ n, (run.state n).Sound) (n : ℕ) : (run.state n).control ≠ .raised := by
  induction n with
  | zero =>
    rw [run.starts]
    simp [Pool.start]
  | succ n ih =>
    have hstep := run.steps n
    cases hlabel : run.label n with
    | parent =>
      rw [hlabel] at hstep
      exact sound_not_raised (run.inv n) (h n) (parent_step hstep)
    | child id =>
      rw [hlabel] at hstep
      obtain ⟨a, q, b, phase, _, _, _, hnext⟩ := hstep
      rw [hnext]
      exact ih
    | idle =>
      rw [hlabel] at hstep
      rw [hstep]
      exact ih

theorem Run.stays (run : Run p) {n m : ℕ} (hle : n ≤ m) (hlaunched : (run.state n).launched = [])
    (hfinal : (run.state n).control.is_final = true) : run.state m = run.state n := by
  induction m, hle using Nat.le_induction with
  | base => rfl
  | succ m _ ih =>
    have hstep := run.steps m
    rw [ih] at hstep
    cases hlabel : run.label m with
    | parent =>
      rw [hlabel] at hstep
      have hnone : p.parent (run.state n) = none := by
        unfold Pool.parent
        cases hcontrol : (run.state n).control <;> simp [hcontrol, Control.is_final] at hfinal ⊢
      rw [Pool.Step, hnone] at hstep
      cases hstep
    | child id =>
      rw [hlabel] at hstep
      obtain ⟨a, q, b, phase, hsplit, _⟩ := hstep
      rw [hlaunched] at hsplit
      simp at hsplit
    | idle =>
      rw [hlabel] at hstep
      exact hstep

theorem settled_final (h : Settled p s) : s.control.is_final = true := by
  rcases h.2 with ⟨results, hcontrol, _⟩ | ⟨msg, hcontrol, _⟩ <;> rw [hcontrol] <;> rfl

/-- The pool loses nothing in exactly those runs in which no child ends before its message is
written, and every message can be read and its output decoded. -/
theorem the_pool_loses_nothing_iff (p : Pool I R) (run : Run p) : run.Keeps ↔ run.Orderly := by
  constructor
  · rintro ⟨_, n, hsettled⟩ m q hq
    have hsound := (run.inv n).sound_of_settled hsettled
    rcases le_total m n with hle | hle
    · exact (run.sound_before hle hsound q (List.mem_append_left _ hq)).1
    · rw [run.stays hle hsettled.1 (settled_final hsettled), hsettled.1] at hq
      cases hq
  · intro h
    refine ⟨fun n => (run.inv n).bounded, ?_⟩
    obtain ⟨n, hfinal⟩ := run.ends h.sound
    refine ⟨n, (run.inv n).settled (h.sound n) ?_⟩
    have hraised := run.raised_step h.sound n
    cases hcontrol : (run.state n).control with
    | returned results => exact Or.inl ⟨results, rfl⟩
    | fatal msg => exact Or.inr ⟨msg, rfl⟩
    | raised => exact absurd hcontrol hraised
    | _ => simp [hcontrol, Control.is_final] at hfinal

/-! ### A child that is killed -/

def strip_pool : Pool Text Unit where
  items := [text "busybox"]
  max_process := 1
  positive := Nat.one_pos
  truthy := fun _ => false
  decode := fun _ => []

/-- The child is killed, and the call returns with no error. -/
def killed (n : ℕ) : State Text Unit :=
  match n with
  | 0 => strip_pool.start
  | 1 => ⟨[], [⟨0, text "busybox", .running, none⟩], [], [], [], .scan 0⟩
  | 2 => ⟨[], [⟨0, text "busybox", .died, none⟩], [], [], [], .scan 0⟩
  | 3 => ⟨[], [⟨0, text "busybox", .died, none⟩], [], [], [], .check 0⟩
  | 4 => ⟨[], [], [⟨0, text "busybox", .died, none⟩], [], [], .scan 1⟩
  | 5 => ⟨[], [], [⟨0, text "busybox", .died, none⟩], [], [], .loop⟩
  | _ + 6 => ⟨[], [], [⟨0, text "busybox", .died, none⟩], [], [], .returned []⟩

def killed_label (n : ℕ) : Label :=
  match n with
  | 0 => .parent
  | 1 => .child 0
  | 2 | 3 | 4 | 5 => .parent
  | _ + 6 => .idle

def killed_run : Run strip_pool where
  state := killed
  label := killed_label
  starts := rfl
  steps := by
    intro n
    rcases n with _ | _ | _ | _ | _ | _ | n
    · rfl
    · exact ⟨[], ⟨0, text "busybox", .running, none⟩, [], .died, rfl, rfl, .dies, rfl⟩
    · rfl
    · rfl
    · rfl
    · rfl
    · rfl
  fair_parent := by
    intro n h
    have hlast := h (n + 6) (Nat.le_add_right n 6)
    cases hlast
  fair_child := by
    intro n q hq hphase
    rcases n with _ | _ | _ | _ | _ | _ | n
    · cases hq
    · rw [List.mem_singleton.mp hq]
      exact ⟨1, le_rfl, rfl⟩
    · rw [List.mem_singleton.mp hq] at hphase
      simp at hphase
    · rw [List.mem_singleton.mp hq] at hphase
      simp at hphase
    · cases hq
    · cases hq
    · cases hq
  fair_writer := by
    intro n i q msg hq hphase
    have hmem := List.mem_of_getElem? hq
    rcases n with _ | _ | _ | _ | _ | _ | n
    · cases hmem
    · rw [List.mem_singleton.mp hmem] at hphase
      cases hphase
    · rw [List.mem_singleton.mp hmem] at hphase
      cases hphase
    · rw [List.mem_singleton.mp hmem] at hphase
      cases hphase
    · cases hmem
    · cases hmem
    · cases hmem

/-- The call returns as if the file had been stripped. -/
theorem a_killed_child_is_not_noticed :
    (killed_run.state 6).control = .returned [] ∧ (killed_run.state 2).launched.map Child.phase = [.died] ∧
      ¬ killed_run.Keeps := by
  refine ⟨rfl, rfl, ?_⟩
  rintro ⟨_, n, hsettled⟩
  -- the child that was killed is among those that have ended
  have hended : (killed_run.state n).control.is_final = true →
      (killed_run.state n).control = .returned [] ∧
        (killed_run.state n).ended = [⟨0, text "busybox", .died, none⟩] := by
    intro hfinal
    rcases n with _ | _ | _ | _ | _ | _ | n
    iterate 6 cases hfinal
    exact ⟨rfl, rfl⟩
  obtain ⟨hreturned, hlast⟩ := hended (settled_final hsettled)
  rcases hsettled.2 with ⟨results, _, _, _, hall, _⟩ | ⟨msg, hcontrol, _⟩
  · rw [hlast] at hall
    obtain ⟨ret, hret⟩ := hall _ (List.mem_singleton_self _)
    cases hret
  · rw [hreturned] at hcontrol
    cases hcontrol

end yocto.process_pool
