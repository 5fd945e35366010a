-- Calls that may raise: what a call that came to its end says of its parts, and
-- loops whose turns may raise.
import Mathlib.Tactic

namespace yocto.raising

variable {E α β : Type}

theorem bind_ok {x : Except E α} {f : α → Except E β} {b : β} (h : x >>= f = .ok b) :
    ∃ a, x = .ok a ∧ f a = .ok b := by
  cases x with
  | error e => cases h
  | ok a => exact ⟨a, rfl, h⟩

theorem ok_of_toOption {x : Except E α} {a : α} (h : x.toOption = some a) : x = .ok a := by
  cases x with
  | error e => cases h
  | ok b => rw [Option.some.inj h]

theorem map_ok {x : Except E α} {f : α → β} {b : β} (h : x.map f = .ok b) :
    ∃ a, x = .ok a ∧ f a = b := by
  cases x with
  | error e => cases h
  | ok a => exact ⟨a, rfl, Except.ok.inj h⟩

/-! ## What a call meets -/

/-- A call returns what meets `post`, or raises what meets `err`. -/
def Meets (err : E → Prop) (post : α → Prop) : Except E α → Prop
  | .ok a => post a
  | .error e => err e

theorem Meets.bind {err : E → Prop} {mid : α → Prop} {post : β → Prop} {x : Except E α}
    {f : α → Except E β} (h : Meets err mid x) (hf : ∀ a, mid a → Meets err post (f a)) :
    Meets err post (x >>= f) := by
  cases x with
  | error e => exact h
  | ok a => exact hf a h

theorem Meets.foldlM {err : E → Prop} {post : β → Prop} {f : β → α → Except E β} {as : List α} {b : β}
    (hstart : post b) (hturn : ∀ b, ∀ a ∈ as, post b → Meets err post (f b a)) :
    Meets err post (as.foldlM f b) := by
  induction as generalizing b with
  | nil => exact hstart
  | cons a as ih =>
    rw [List.foldlM_cons]
    refine (hturn b a List.mem_cons_self hstart).bind fun b' hb' => ?_
    exact ih hb' fun b a ha => hturn b a (List.mem_cons_of_mem _ ha)

/-! ## Loops -/

/-- Each turn of a loop meets `ok` in the state before it. -/
def Along (f : β → α → Except E β) (ok : β → α → Prop) : List α → β → Prop
  | [], _ => True
  | a :: as, b => ok b a ∧ match f b a with
    | .ok b' => Along f ok as b'
    | .error _ => True

instance Along.instDecidable (f : β → α → Except E β) (ok : β → α → Prop)
    [∀ b a, Decidable (ok b a)] : ∀ as b, Decidable (Along f ok as b)
  | [], _ => inferInstanceAs (Decidable True)
  | a :: as, b =>
    match h : f b a with
    | .ok b' =>
      have := Along.instDecidable f ok as b'
      decidable_of_iff (ok b a ∧ Along f ok as b') (by simp [Along, h])
    | .error _ => decidable_of_iff (ok b a) (by simp [Along, h])

variable {f : β → α → Except E β} {ok : β → α → Prop} {as : List α} {b b' : β}

theorem Along.of_forall (h : ∀ b a, ok b a) : ∀ as b, Along f ok as b
  | [], _ => trivial
  | a :: as, b => by
    refine ⟨h b a, ?_⟩
    split
    · exact Along.of_forall h as _
    · trivial

theorem Along.invariant {I : β → Prop} (h : Along f ok as b) (hstart : I b)
    (hturn : ∀ b, ∀ a ∈ as, ∀ b', I b → ok b a → f b a = .ok b' → I b')
    (hend : as.foldlM f b = .ok b') : I b' := by
  induction as generalizing b with
  | nil =>
    obtain rfl := Except.ok.inj hend
    exact hstart
  | cons a as ih =>
    rw [List.foldlM_cons] at hend
    obtain ⟨b₁, hfirst, hrest⟩ := bind_ok hend
    obtain ⟨hok, halong⟩ := h
    rw [hfirst] at halong
    exact ih halong (hturn b a List.mem_cons_self b₁ hstart hok hfirst)
      (fun b a ha => hturn b a (List.mem_cons_of_mem _ ha)) hrest

theorem foldlM_error {e : E} (h : as.foldlM f b = .error e) : ∃ b a, f b a = .error e := by
  induction as generalizing b with
  | nil => cases h
  | cons a as ih =>
    rw [List.foldlM_cons] at h
    cases hfirst : f b a with
    | error e' =>
      rw [hfirst] at h
      obtain rfl := Except.error.inj h
      exact ⟨b, a, hfirst⟩
    | ok b₁ =>
      rw [hfirst] at h
      exact ih h

theorem mapM_ok {f : α → Except E β} {bs : List β} (h : as.mapM f = .ok bs) :
    List.Forall₂ (fun a b => f a = .ok b) as bs := by
  induction as generalizing bs with
  | nil =>
    obtain rfl := Except.ok.inj h
    exact .nil
  | cons a as ih =>
    rw [List.mapM_cons] at h
    obtain ⟨b, hb, h⟩ := bind_ok h
    obtain ⟨rest, hrest, h⟩ := bind_ok h
    obtain rfl := Except.ok.inj h
    exact .cons hb (ih hrest)

theorem exists_of_forall₂ {R : α → β → Prop} {bs : List β} (h : List.Forall₂ R as bs) :
    ∀ a ∈ as, ∃ b ∈ bs, R a b := by
  induction h with
  | nil => simp
  | cons hhead _ ih =>
    intro a ha
    rcases List.mem_cons.mp ha with rfl | ha
    · exact ⟨_, List.mem_cons_self, hhead⟩
    · obtain ⟨b, hb, hab⟩ := ih a ha
      exact ⟨b, List.mem_cons_of_mem _ hb, hab⟩

theorem forall₂_and_right {R : α → β → Prop} {P : β → Prop} {bs : List β} (h : List.Forall₂ R as bs)
    (hP : ∀ b ∈ bs, P b) : List.Forall₂ (fun a b => R a b ∧ P b) as bs := by
  induction h with
  | nil => exact .nil
  | cons hhead _ ih =>
    rw [List.forall_mem_cons] at hP
    exact .cons ⟨hhead, hP.1⟩ (ih hP.2)

theorem mapM_error {f : α → Except E β} {e : E} (h : as.mapM f = .error e) :
    ∃ a ∈ as, f a = .error e := by
  induction as with
  | nil => cases h
  | cons a as ih =>
    rw [List.mapM_cons] at h
    cases hfirst : f a with
    | error e' =>
      rw [hfirst] at h
      obtain rfl := Except.error.inj h
      exact ⟨a, List.mem_cons_self, hfirst⟩
    | ok b =>
      rw [hfirst] at h
      cases hrest : as.mapM f with
      | error e' =>
        rw [hrest] at h
        obtain rfl := Except.error.inj h
        obtain ⟨a', ha', hf⟩ := ih hrest
        exact ⟨a', List.mem_cons_of_mem _ ha', hf⟩
      | ok bs =>
        rw [hrest] at h
        cases h

end yocto.raising
