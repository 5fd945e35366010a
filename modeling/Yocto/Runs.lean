-- Runs of a machine that takes one action after the other. An action that the machine refuses
-- is no step.
import Mathlib.Tactic

namespace yocto.runs

variable {σ α : Type}

/-- The states of the runs from `start` in which each step meets `ok`. -/
inductive Reaches (step : σ → α → Option σ) (ok : σ → α → Prop) (start : σ) : σ → Prop
  | start : Reaches step ok start start
  | step {s s' : σ} {a : α} : Reaches step ok start s → ok s a → step s a = some s' →
      Reaches step ok start s'

/-- Every step may be taken. -/
def anyStep : σ → α → Prop := fun _ _ => True

variable {step : σ → α → Option σ} {ok : σ → α → Prop} {start s : σ}

theorem Reaches.invariant {I : σ → Prop} (h : Reaches step ok start s) (hstart : I start)
    (hstep : ∀ s a s', I s → ok s a → step s a = some s' → I s') : I s := by
  induction h with
  | start => exact hstart
  | step _ hok hs ih => exact hstep _ _ _ ih hok hs

theorem Reaches.mono {ok' : σ → α → Prop} (h : Reaches step ok start s)
    (himp : ∀ s a, ok s a → ok' s a) : Reaches step ok' start s := by
  induction h with
  | start => exact .start
  | step _ hok hs ih => exact .step ih (himp _ _ hok) hs

theorem Reaches.trans {t : σ} (h : Reaches step ok start s) (h' : Reaches step ok s t) :
    Reaches step ok start t := by
  induction h' with
  | start => exact h
  | step _ hok hs ih => exact .step ih hok hs

/-- The state after a list of actions, or none when one of them is refused. -/
def runAll (step : σ → α → Option σ) : σ → List α → Option σ
  | s, [] => some s
  | s, a :: as => (step s a).bind fun s' => runAll step s' as

theorem Reaches.of_runAll {t : σ} {as : List α} (h : runAll step s as = some t) :
    Reaches step anyStep s t := by
  induction as generalizing s with
  | nil =>
    obtain rfl := Option.some.inj h
    exact .start
  | cons a as ih =>
    obtain ⟨s', hs, h⟩ := Option.bind_eq_some_iff.mp h
    exact (Reaches.step .start trivial hs).trans (ih h)

theorem Reaches.of_isSome {as : List α} (h : (runAll step s as).isSome) :
    Reaches step anyStep s ((runAll step s as).get h) :=
  .of_runAll (Option.some_get h).symm

/-- The same, where an action is also refused when its step does not meet `ok`. -/
def runOk (step : σ → α → Option σ) (ok : σ → α → Prop) [∀ s a, Decidable (ok s a)] :
    σ → List α → Option σ
  | s, [] => some s
  | s, a :: as => if ok s a then (step s a).bind fun s' => runOk step ok s' as else none

theorem Reaches.of_runOk [∀ s a, Decidable (ok s a)] {t : σ} {as : List α}
    (h : runOk step ok s as = some t) : Reaches step ok s t := by
  induction as generalizing s with
  | nil =>
    obtain rfl := Option.some.inj h
    exact .start
  | cons a as ih =>
    unfold runOk at h
    split at h
    · rename_i hok
      obtain ⟨s', hs, h⟩ := Option.bind_eq_some_iff.mp h
      exact (Reaches.step .start hok hs).trans (ih h)
    · cases h

end yocto.runs
