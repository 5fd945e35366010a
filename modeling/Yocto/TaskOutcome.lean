-- The execution of one task (`exec_task` of build.py).
import Yocto.TaskIds
import Mathlib.Tactic

open yocto.task_ids

namespace yocto.task_outcome

/-! ## Calls that raise or exit -/

/-- What ends a call before it returns. A `BBHandledException` has told its reason. -/
inductive Exc
  | Exception (handled : Bool)
  | SystemExit
  deriving DecidableEq

inductive Event
  | TaskInvalid
  | TaskStarted (logfile : Text)
  | TaskSucceeded (logfile : Text)
  | TaskFailed (logfile : Option Text) (errprinted : Bool)
  | TaskFailedSilent (logfile : Text)
  deriving DecidableEq

/-- The events that were fired, and whether a new stamp is there. -/
structure World where
  fired : List Event
  stamp : Bool
  deriving DecidableEq

def start : World := ⟨[], false⟩

abbrev Run (α : Type) := ExceptT Exc (StateM World) α

/-- A call that changes nothing here: it returns, or it ends with something. -/
def perform : Option Exc → Run Unit
  | none => pure ()
  | some e => throw e

/-- What a call ends with, for the clauses behind it. -/
def attempt {α : Type} (run : Run α) : Run (Except Exc α) := fun w => ((.ok (run w).1), (run w).2)

/-! ## The functions -/

/-- How the parts of an execution behave. The handlers know the events before. -/
structure Behaviour where
  quieterrors : Bool
  setup : Option Exc
  logfn : Text
  prefuncs : List (Option Exc)
  task : Option Exc
  postfuncs : List (Option Exc)
  handlers : List Event → Option Exc
  triggered : Bool
  verboseStdoutLogging : Bool
  nostamp : Bool
  selfstamp : Bool
  setscene : Bool
  clean_stamp : Option Exc
  open_stamp : Option Exc
  dump_sigtask : Option Exc

variable (b : Behaviour)

def fire (e : Event) : Run Unit := do
  modify fun w => { w with fired := w.fired ++ [e] }
  perform (b.handlers (← get).fired)

def make_stamp : Run Unit := do
  perform b.clean_stamp
  perform b.open_stamp
  modify fun w => { w with stamp := true }
  -- the signature file of a task that is no setscene task
  if !b.setscene then perform b.dump_sigtask

def exec_logged : Run Unit := do
  fire b (.TaskStarted b.logfn)
  b.prefuncs.forM perform
  perform b.task
  b.postfuncs.forM perform

def failure (exc : Exc) : Event :=
  let handled := exc = .Exception true
  if b.quieterrors then .TaskFailedSilent b.logfn
  else .TaskFailed (some b.logfn) (b.verboseStdoutLogging || handled || b.triggered)

def exec_found (is_task : Bool) : Run ℤ := do
  if !is_task then
    fire b .TaskInvalid
    return 1
  perform b.setup
  match ← attempt (exec_logged b) with
  | .error exc =>
    fire b (failure b exc)
    return 1
  | .ok () =>
    fire b (.TaskSucceeded b.logfn)
    if !b.nostamp && !b.selfstamp then make_stamp b
    return 0

def exec_task (is_task : Bool) : Run ℤ := do
  match ← attempt (exec_found b is_task) with
  | .ok ret => return ret
  | .error .SystemExit => throw .SystemExit
  | .error (.Exception _) =>
    if !b.quieterrors then fire b (.TaskFailed none true)
    return 1

/-! ## What a call leaves -/

/-- What a call is that ends with something or returns. -/
def ended : Option Exc → Except Exc Unit
  | none => .ok ()
  | some e => .error e

theorem perform_apply (o : Option Exc) (w : World) : perform o w = (ended o, w) := by
  cases o <;> rfl

theorem bind_ok {α β : Type} {run : Run α} {next : α → Run β} {w w' : World} {a : α}
    (h : run w = (.ok a, w')) : (run >>= next) w = next a w' := by
  have hbind : (run >>= next) w = ExceptT.bindCont next (run w).1 (run w).2 := rfl
  rw [hbind, h]
  rfl

theorem bind_error {α β : Type} {run : Run α} {next : α → Run β} {w w' : World} {e : Exc}
    (h : run w = (.error e, w')) : (run >>= next) w = (.error e, w') := by
  have hbind : (run >>= next) w = ExceptT.bindCont next (run w).1 (run w).2 := rfl
  rw [hbind, h]
  rfl

theorem bind_ended {run next : Run Unit} {w w' : World} {o o' : Option Exc} (h : run w = (ended o, w'))
    (hnext : next w' = (ended o', w')) : (run >>= fun _ => next) w = (ended (o <|> o'), w') := by
  cases o with
  | none => exact (bind_ok h).trans hnext
  | some e => exact bind_error h

theorem fire_apply (e : Event) (w : World) :
    fire b e w = (ended (b.handlers (w.fired ++ [e])), { w with fired := w.fired ++ [e] }) := by
  unfold fire
  exact perform_apply _ _

/-- What the first call that does not return ends with. -/
def first (l : List (Option Exc)) : Option Exc := l.findSome? id

theorem forM_apply (l : List (Option Exc)) (w : World) : l.forM perform w = (ended (first l), w) := by
  induction l with
  | nil => rfl
  | cons o l ih =>
    have hstep : (o :: l).forM perform w = (perform o >>= fun _ => l.forM perform) w := rfl
    rw [hstep, bind_ended (perform_apply o w) ih]
    cases o <;> rfl

def logged_end : Option Exc :=
  b.handlers [.TaskStarted b.logfn] <|> first b.prefuncs <|> b.task <|> first b.postfuncs

theorem exec_logged_apply : exec_logged b start = (ended (logged_end b), ⟨[.TaskStarted b.logfn], false⟩) := by
  unfold exec_logged logged_end
  apply bind_ended (fire_apply b _ start)
  apply bind_ended (forM_apply _ _)
  exact bind_ended (perform_apply _ _) (forM_apply _ _)

def stamp_end : Option Exc :=
  b.clean_stamp <|> b.open_stamp <|> if b.setscene then none else b.dump_sigtask

/-- A new stamp is there once the old ones are gone and the file is made. -/
def stamped : Bool := (b.clean_stamp <|> b.open_stamp) = none

theorem make_stamp_apply (w : World) :
    make_stamp b w = (ended (stamp_end b), { w with stamp := w.stamp || stamped b }) := by
  unfold make_stamp stamp_end stamped
  cases b.clean_stamp with
  | some e =>
    rw [bind_error (perform_apply _ w)]
    simp
    rfl
  | none =>
    rw [bind_ok (perform_apply _ w)]
    cases b.open_stamp with
    | some e =>
      rw [bind_error (perform_apply _ w)]
      simp
      rfl
    | none =>
      rw [bind_ok (perform_apply _ w)]
      cases b.setscene with
      | false =>
        refine (perform_apply b.dump_sigtask _).trans ?_
        simp
      | true =>
        have hdone : (pure () : Run Unit) { w with stamp := true } = (ended none, { w with stamp := true }) := rfl
        refine hdone.trans ?_
        simp

/-! ## What is reported -/

def Event.is_outcome : Event → Bool
  | .TaskSucceeded _ => true
  | .TaskFailed _ _ => true
  | .TaskFailedSilent _ => true
  | _ => false

def stamps : Bool := !b.nostamp && !b.selfstamp

/-- Everything up to and including the stamp succeeded, if the task has one. -/
def Succeeded : Prop :=
  b.setup = none ∧ logged_end b = none ∧ b.handlers [.TaskStarted b.logfn, .TaskSucceeded b.logfn] = none ∧
    (stamps b → stamped b)

/-- One outcome is reported: 0 is returned exactly if all succeeded, there is one event, it is that of a
success exactly if 0 is returned, and there is no new stamp without it. -/
def ReportsOneOutcome : Prop :=
  ((exec_task b true start).1 = .ok 0 ↔ Succeeded b) ∧
    ((exec_task b true start).2.fired.filter Event.is_outcome).length = 1 ∧
    (.TaskSucceeded b.logfn ∈ (exec_task b true start).2.fired ↔ (exec_task b true start).1 = .ok 0) ∧
    ((exec_task b true start).2.stamp → (exec_task b true start).1 = .ok 0)

theorem attempt_apply {α : Type} (run : Run α) (w : World) : attempt run w = (.ok (run w).1, (run w).2) := rfl

theorem bind_pure_ended {run : Run Unit} {w w' : World} {o : Option Exc} (h : run w = (ended o, w')) (n : ℤ) :
    (run >>= fun _ => pure n) w = ((ended o).map fun _ => n, w') := by
  cases o with
  | none => exact bind_ok h
  | some e => exact bind_error h

theorem exec_found_setup {e : Exc} (hsetup : b.setup = some e) : exec_found b true start = (.error e, start) := by
  unfold exec_found
  rw [hsetup]
  exact bind_error (perform_apply _ start)

theorem exec_found_failed {exc : Exc} (hsetup : b.setup = none) (h : logged_end b = some exc) :
    exec_found b true start =
      ((ended (b.handlers [.TaskStarted b.logfn, failure b exc])).map fun _ => 1,
        ⟨[.TaskStarted b.logfn, failure b exc], false⟩) := by
  unfold exec_found
  rw [hsetup]
  refine (bind_ok (perform_apply none start)).trans ?_
  refine (bind_ok (attempt_apply (exec_logged b) start)).trans ?_
  rw [exec_logged_apply, h]
  exact bind_pure_ended (fire_apply b _ _) 1

theorem exec_found_done (hsetup : b.setup = none) (h : logged_end b = none) :
    exec_found b true start =
      ((ended (b.handlers [.TaskStarted b.logfn, .TaskSucceeded b.logfn] <|>
          if stamps b then stamp_end b else none)).map fun _ => 0,
        ⟨[.TaskStarted b.logfn, .TaskSucceeded b.logfn],
          b.handlers [.TaskStarted b.logfn, .TaskSucceeded b.logfn] = none && (stamps b && stamped b)⟩) := by
  unfold exec_found stamps
  rw [hsetup]
  refine (bind_ok (perform_apply none start)).trans ?_
  refine (bind_ok (attempt_apply (exec_logged b) start)).trans ?_
  rw [exec_logged_apply, h]
  have hfire := fire_apply b (.TaskSucceeded b.logfn) ⟨[.TaskStarted b.logfn], false⟩
  simp only [List.cons_append, List.nil_append] at hfire
  cases hend : b.handlers [.TaskStarted b.logfn, .TaskSucceeded b.logfn] with
  | some e =>
    rw [hend] at hfire
    refine (bind_error hfire).trans ?_
    simp
    rfl
  | none =>
    rw [hend] at hfire
    refine (bind_ok hfire).trans ?_
    cases hstamps : !b.nostamp && !b.selfstamp with
    | true =>
      have hpure := bind_pure_ended (make_stamp_apply b ⟨[.TaskStarted b.logfn, .TaskSucceeded b.logfn], false⟩) 0
      refine Eq.trans ?_ (hpure.trans ?_)
      · rfl
      · simp
    | false =>
      have hdone : (pure () : Run Unit) ⟨[.TaskStarted b.logfn, .TaskSucceeded b.logfn], false⟩ =
        (ended none, ⟨[.TaskStarted b.logfn, .TaskSucceeded b.logfn], false⟩) := rfl
      refine (bind_pure_ended hdone 0).trans ?_
      simp

theorem exec_task_ok {ret : ℤ} {w : World} (h : exec_found b true start = (.ok ret, w)) :
    exec_task b true start = (.ok ret, w) := by
  unfold exec_task
  refine (bind_ok (attempt_apply (exec_found b true) start)).trans ?_
  rw [h]
  rfl

theorem exec_task_exit {w : World} (h : exec_found b true start = (.error .SystemExit, w)) :
    exec_task b true start = (.error .SystemExit, w) := by
  unfold exec_task
  refine (bind_ok (attempt_apply (exec_found b true) start)).trans ?_
  rw [h]
  rfl

theorem exec_task_raised {handled : Bool} {w : World} (h : exec_found b true start = (.error (.Exception handled), w)) :
    exec_task b true start =
      if b.quieterrors then (.ok 1, w)
      else ((ended (b.handlers (w.fired ++ [.TaskFailed none true]))).map fun _ => 1,
        { w with fired := w.fired ++ [.TaskFailed none true] }) := by
  unfold exec_task
  refine (bind_ok (attempt_apply (exec_found b true) start)).trans ?_
  rw [h]
  cases b.quieterrors with
  | true => rfl
  | false => exact bind_pure_ended (fire_apply b _ w) 1

/-- The stages behind which an outcome is told twice, or told and not true, do not fail. -/
structure Settles : Prop where
  setup : ∀ e, b.setup = some e → e ≠ .SystemExit ∧ b.quieterrors = false
  failure : ∀ exc, b.setup = none → logged_end b = some exc → b.quieterrors = true ∨
    ∀ handled, b.handlers [.TaskStarted b.logfn, failure b exc] ≠ some (.Exception handled)
  success : b.setup = none → logged_end b = none →
    b.handlers [.TaskStarted b.logfn, .TaskSucceeded b.logfn] = none ∧ (stamps b → stamp_end b = none)

theorem reports_setup {e : Exc} (h : b.setup = some e) :
    ReportsOneOutcome b ↔ e ≠ .SystemExit ∧ b.quieterrors = false := by
  have hfound := exec_found_setup b h
  have hfails : ¬ Succeeded b := fun hs => by
    rw [hs.1] at h
    cases h
  unfold ReportsOneOutcome
  cases e with
  | SystemExit =>
    rw [exec_task_exit b hfound]
    simp [start]
  | Exception handled =>
    rw [exec_task_raised b hfound]
    cases b.quieterrors with
    | true => simp [start]
    | false =>
      have hlast : Event.is_outcome (.TaskFailed none true) = true := rfl
      cases b.handlers (start.fired ++ [.TaskFailed none true]) <;>
        simp [start, ended, Except.map, hfails, hlast]

theorem reports_failure {exc : Exc} (hsetup : b.setup = none) (h : logged_end b = some exc) :
    ReportsOneOutcome b ↔ b.quieterrors = true ∨
      ∀ handled, b.handlers [.TaskStarted b.logfn, failure b exc] ≠ some (.Exception handled) := by
  have hfound := exec_found_failed b hsetup h
  have hfails : ¬ Succeeded b := fun hs => by
    rw [hs.2.1] at h
    cases h
  have hevent : (failure b exc).is_outcome ∧ failure b exc ≠ .TaskSucceeded b.logfn := by
    unfold failure
    dsimp only
    split
    · exact ⟨rfl, by simp⟩
    · exact ⟨rfl, by simp⟩
  have hfirst : Event.is_outcome (.TaskStarted b.logfn) = false := rfl
  unfold ReportsOneOutcome
  cases hend : b.handlers [.TaskStarted b.logfn, failure b exc] with
  | none =>
    rw [hend] at hfound
    rw [exec_task_ok b hfound]
    simp [hfails, hevent.1, hevent.2.symm, hfirst]
  | some e =>
    rw [hend] at hfound
    cases e with
    | SystemExit =>
      rw [exec_task_exit b hfound]
      simp [hfails, hevent.1, hevent.2.symm, hfirst]
    | Exception handled =>
      rw [exec_task_raised b hfound]
      cases b.quieterrors with
      | true => simp [hfails, hevent.1, hevent.2.symm, hfirst]
      | false =>
        have hlast : Event.is_outcome (.TaskFailed none true) = true := rfl
        simp [hevent.1, hfirst, hlast]

theorem exec_task_error {e : Exc} {w : World} (h : exec_found b true start = (.error e, w)) :
    (exec_task b true start).1 ≠ .ok 0 ∧ ∀ event ∈ w.fired, event ∈ (exec_task b true start).2.fired := by
  cases e with
  | SystemExit =>
    rw [exec_task_exit b h]
    exact ⟨by simp, fun _ hevent => hevent⟩
  | Exception handled =>
    rw [exec_task_raised b h]
    cases b.quieterrors with
    | true => exact ⟨by simp, fun _ hevent => hevent⟩
    | false =>
      refine ⟨?_, fun event hevent => List.mem_append_left _ hevent⟩
      cases b.handlers (w.fired ++ [.TaskFailed none true]) <;> simp [ended, Except.map]

theorem reports_success (hsetup : b.setup = none) (h : logged_end b = none) :
    ReportsOneOutcome b ↔
      b.handlers [.TaskStarted b.logfn, .TaskSucceeded b.logfn] = none ∧ (stamps b → stamp_end b = none) := by
  have hfound := exec_found_done b hsetup h
  have hfails : ∀ e w, exec_found b true start = (.error e, w) → .TaskSucceeded b.logfn ∈ w.fired →
      ¬ ReportsOneOutcome b := by
    intro e w hexec hmem hreports
    obtain ⟨hne, hkeep⟩ := exec_task_error b hexec
    exact hne (hreports.2.2.1.mp (hkeep _ hmem))
  cases hend : b.handlers [.TaskStarted b.logfn, .TaskSucceeded b.logfn] with
  | some e =>
    rw [hend] at hfound
    exact iff_of_false (hfails e _ hfound (by simp)) (by simp)
  | none =>
    rw [hend] at hfound
    have hstamped : stamp_end b = none → stamped b = true := by
      unfold stamp_end stamped
      cases b.clean_stamp <;> cases b.open_stamp <;> simp
    cases hstamps : stamps b with
    | false =>
      rw [hstamps] at hfound
      have hsucceeded : Succeeded b := ⟨hsetup, h, hend, by simp [hstamps]⟩
      unfold ReportsOneOutcome
      rw [exec_task_ok b hfound]
      exact iff_of_true ⟨iff_of_true rfl hsucceeded, rfl, iff_of_true (by simp) rfl, fun _ => rfl⟩ ⟨rfl, by simp⟩
    | true =>
      rw [hstamps] at hfound
      cases hstamp : stamp_end b with
      | some e =>
        rw [hstamp] at hfound
        exact iff_of_false (hfails e _ hfound (by simp)) (by simp)
      | none =>
        rw [hstamp, hstamped hstamp] at hfound
        have hsucceeded : Succeeded b := ⟨hsetup, h, hend, fun _ => hstamped hstamp⟩
        unfold ReportsOneOutcome
        rw [exec_task_ok b hfound]
        exact iff_of_true ⟨iff_of_true rfl hsucceeded, rfl, iff_of_true (by simp) rfl, fun _ => rfl⟩ ⟨rfl, by simp⟩

def full_disk : Behaviour where
  quieterrors := false
  setup := none
  logfn := text "log.do_compile.1"
  prefuncs := []
  task := none
  postfuncs := []
  handlers := fun _ => none
  triggered := false
  verboseStdoutLogging := false
  nostamp := false
  selfstamp := false
  setscene := false
  clean_stamp := none
  open_stamp := some (.Exception false)
  dump_sigtask := none

end yocto.task_outcome
