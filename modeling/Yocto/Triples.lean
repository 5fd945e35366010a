-- Programs with a state that may raise, and triples about them: from a state that meets the
-- precondition, the program ends in its postcondition, or it raises and meets the condition of
-- the exception.
import Mathlib.Tactic

namespace yocto.triples

variable {σ E α β : Type}

/-- A program: its result or what it raises, and the state that it leaves. -/
def Prog (σ E α : Type) : Type := σ → Except E α × σ

namespace Prog

/-- What follows a program that has come to its end. -/
def andThen (x : Prog σ E α) (f : α → Prog σ E β) : Prog σ E β := fun s =>
  match x s with
  | (.ok a, s') => f a s'
  | (.error e, s') => (.error e, s')

instance : Monad (Prog σ E) where
  pure a := fun s => (.ok a, s)
  bind := andThen

def raise (e : E) : Prog σ E α := fun s => (.error e, s)

/-- `try` with its handler: what the program did to the state stays. -/
def attempt (x : Prog σ E α) (handler : E → Prog σ E α) : Prog σ E α := fun s =>
  match x s with
  | (.ok a, s') => (.ok a, s')
  | (.error e, s') => handler e s'

def modify (f : σ → σ) : Prog σ E Unit := fun s => (.ok (), f s)

/-- What a program does with the state that it reads. -/
def reading (f : σ → Prog σ E α) : Prog σ E α := fun s => f s s

def each (f : α → Prog σ E Unit) : List α → Prog σ E Unit
  | [] => pure ()
  | a :: as => do
    f a
    each f as

/-- A loop that collects the results of its turns. -/
def collect (f : α → Prog σ E β) : List α → Prog σ E (List β)
  | [] => pure []
  | a :: as => do
    let b ← f a
    let bs ← collect f as
    pure (b :: bs)

/-- Turns that go on until one succeeds. -/
def firstOf (f : α → Prog σ E Bool) : List α → Prog σ E Bool
  | [] => pure false
  | a :: as => do
    let found ← f a
    if found then pure true else firstOf f as

end Prog

open Prog

def Triple (pre : σ → Prop) (x : Prog σ E α) (post : α → σ → Prop) (err : E → σ → Prop) : Prop :=
  ∀ s, pre s → match x s with
    | (.ok a, s') => post a s'
    | (.error e, s') => err e s'

variable {pre pre' : σ → Prop} {x : Prog σ E α} {post post' : α → σ → Prop} {err err' : E → σ → Prop}

theorem reading_apply (f : σ → Prog σ E α) (s : σ) : reading f s = f s s := rfl

theorem Triple.ends (h : Triple pre x post err) {s s' : σ} {a : α} (hpre : pre s)
    (hx : x s = (.ok a, s')) : post a s' := by
  have := h s hpre
  rw [hx] at this
  exact this

theorem Triple.raises (h : Triple pre x post err) {s s' : σ} {e : E} (hpre : pre s)
    (hx : x s = (.error e, s')) : err e s' := by
  have := h s hpre
  rw [hx] at this
  exact this

theorem Triple.mono (h : Triple pre x post err) (hpre : ∀ s, pre' s → pre s)
    (hpost : ∀ a s, post a s → post' a s) (herr : ∀ e s, err e s → err' e s) :
    Triple pre' x post' err' := by
  intro s hs
  have hmeets := h s (hpre s hs)
  split at hmeets
  · exact hpost _ _ hmeets
  · exact herr _ _ hmeets

theorem Triple.pure {a : α} (h : ∀ s, pre s → post a s) :
    Triple pre (pure a : Prog σ E α) post err := h

theorem Triple.raise {e : E} (h : ∀ s, pre s → err e s) :
    Triple pre (raise e : Prog σ E α) post err := h

theorem Triple.modify {f : σ → σ} {post : Unit → σ → Prop} (h : ∀ s, pre s → post () (f s)) :
    Triple pre (modify f : Prog σ E Unit) post err := h

theorem Triple.bind {f : α → Prog σ E β} {post : β → σ → Prop} (mid : α → σ → Prop)
    (hx : Triple pre x mid err) (hf : ∀ a, Triple (mid a) (f a) post err) :
    Triple pre (x >>= f) post err := by
  intro s hs
  have hmid := hx s hs
  change match andThen x f s with
    | (.ok b, s') => post b s'
    | (.error e, s') => err e s'
  unfold andThen
  split at hmid
  · exact hf _ _ hmid
  · exact hmid

theorem Triple.attempt {handler : E → Prog σ E α} (raised : E → σ → Prop)
    (hx : Triple pre x post raised) (hhandler : ∀ e, Triple (raised e) (handler e) post err) :
    Triple pre (attempt x handler) post err := by
  intro s hs
  have hmid := hx s hs
  unfold Prog.attempt
  split at hmid
  · exact hmid
  · exact hhandler _ _ hmid

theorem Triple.reading {f : σ → Prog σ E α}
    (h : ∀ s, pre s → Triple (fun s' => s' = s) (f s) post err) :
    Triple pre (reading f) post err := fun s hs => h s hs s rfl

theorem Triple.ite {c : Prop} [Decidable c] {y : Prog σ E α} (hx : c → Triple pre x post err)
    (hy : ¬c → Triple pre y post err) : Triple pre (if c then x else y) post err := by
  split
  · exact hx ‹_›
  · exact hy ‹_›

theorem Triple.of_not (h : ∀ s, ¬pre s) : Triple pre x post err := fun s hs => absurd hs (h s)

theorem Triple.anyhow : Triple pre x (fun _ _ => True) (fun _ _ => True) := by
  intro s _
  split
  · trivial
  · trivial

theorem Triple.under {c : Prop} (h : c → Triple pre x post err) :
    Triple (fun s => c → pre s) x (fun a s => c → post a s) (fun e s => c → err e s) := by
  intro s hs
  split
  · exact fun hc => (h hc).ends (hs hc) ‹_›
  · exact fun hc => (h hc).raises (hs hc) ‹_›

theorem Triple.each {f : α → Prog σ E Unit} {I : σ → Prop} (as : List α)
    (hturn : ∀ a ∈ as, Triple I (f a) (fun _ s => I s) err) :
    Triple I (Prog.each f as) (fun _ s => I s) err := by
  induction as with
  | nil => exact .pure fun _ hs => hs
  | cons a as ih =>
    refine .bind (fun _ s => I s) (hturn a List.mem_cons_self) fun _ => ?_
    exact ih fun a' ha' => hturn a' (List.mem_cons_of_mem _ ha')

theorem Triple.collect {f : α → Prog σ E β} {settled : α → β → Prop} (I : σ → Prop)
    (hturn : ∀ a, Triple I (f a) (fun b s => settled a b ∧ I s) err) (as : List α) :
    Triple I (Prog.collect f as) (fun bs s => List.Forall₂ settled as bs ∧ I s) err := by
  induction as with
  | nil => exact .pure fun s hs => ⟨.nil, hs⟩
  | cons a as ih =>
    refine .bind (fun b s => settled a b ∧ I s) (hturn a) fun b => ?_
    refine .bind (fun bs s => settled a b ∧ List.Forall₂ settled as bs ∧ I s) ?_ fun bs => ?_
    · intro s hs
      have hmeets := ih s hs.2
      split at hmeets
      · exact ⟨hs.1, hmeets⟩
      · exact hmeets
    · exact .pure fun s hs => ⟨.cons hs.1 hs.2.1, hs.2.2⟩

theorem Triple.foldlM {f : β → α → Prog σ E β} (inv : β → σ → Prop) (l : List α)
    (h : ∀ b, ∀ a ∈ l, Triple (inv b) (f b a) inv err) (b : β) :
    Triple (inv b) (l.foldlM f b) inv err := by
  induction l generalizing b with
  | nil => exact Triple.pure fun _ hs => hs
  | cons a l ih =>
    rw [List.foldlM_cons]
    refine Triple.bind inv (h b a List.mem_cons_self) fun b' => ?_
    exact ih (fun b a ha => h b a (List.mem_cons_of_mem _ ha)) b'

theorem Triple.firstOf {f : α → Prog σ E Bool} {post : Bool → σ → Prop} (as : List α)
    (hturn : ∀ a ∈ as, Triple (post false) (f a) post err) :
    Triple (post false) (Prog.firstOf f as) post err := by
  induction as with
  | nil => exact .pure fun s hs => hs
  | cons a as ih =>
    refine .bind post (hturn a List.mem_cons_self) fun found => ?_
    cases found with
    | true => exact .pure fun s hs => hs
    | false => exact ih fun a' ha' => hturn a' (List.mem_cons_of_mem _ ha')

/-! ## Invariants -/

/-- A program keeps an invariant, however it ends. -/
def Keeps (I : σ → Prop) (x : Prog σ E α) : Prop := ∀ s, I s → I (x s).2

section
variable {I : σ → Prop}

theorem Keeps.pure (a : α) : Keeps I (pure a : Prog σ E α) := fun _ hs => hs

theorem Keeps.raise (e : E) : Keeps I (raise e : Prog σ E α) := fun _ hs => hs

theorem Keeps.modify {f : σ → σ} (h : ∀ s, I s → I (f s)) : Keeps I (modify f : Prog σ E Unit) := h

theorem Keeps.bind {f : α → Prog σ E β} (hx : Keeps I x) (hf : ∀ a, Keeps I (f a)) :
    Keeps I (x >>= f) := by
  intro s hs
  have hmid := hx s hs
  change I (andThen x f s).2
  unfold andThen
  rcases hend : x s with ⟨_ | a, s'⟩
  · rw [hend] at hmid
    exact hmid
  · rw [hend] at hmid
    exact hf a s' hmid

theorem Keeps.reading {f : σ → Prog σ E α} (h : ∀ s, I s → Keeps I (f s)) : Keeps I (reading f) :=
  fun s hs => h s hs s hs

theorem Keeps.ite {c : Prop} [Decidable c] {y : Prog σ E α} (hx : c → Keeps I x)
    (hy : ¬c → Keeps I y) : Keeps I (if c then x else y) := by
  split
  · exact hx ‹_›
  · exact hy ‹_›

theorem Keeps.collect {f : α → Prog σ E β} (h : ∀ a, Keeps I (f a)) (as : List α) :
    Keeps I (Prog.collect f as) := by
  induction as with
  | nil => exact .pure _
  | cons a as ih => exact (h a).bind fun b => ih.bind fun bs => .pure _

end

/-! ## Programs that come to the same end -/

/-- Where the first program comes to its end, the second one comes to the same. -/
def Below (x y : Prog σ E α) : Prop := ∀ s a s', x s = (.ok a, s') → y s = (.ok a, s')

theorem Below.refl (x : Prog σ E α) : Below x x := fun _ _ _ h => h

theorem Below.trans {y z : Prog σ E α} (h : Below x y) (h' : Below y z) : Below x z :=
  fun s a s' hx => h' s a s' (h s a s' hx)

theorem Below.of_raise (e : E) (y : Prog σ E α) : Below (raise e) y := by
  intro s a s' h
  cases (Prod.mk.inj h).1

theorem bind_ends {f : α → Prog σ E β} {s s' : σ} {b : β} (h : (x >>= f) s = (.ok b, s')) :
    ∃ a t, x s = (.ok a, t) ∧ f a t = (.ok b, s') := by
  change andThen x f s = (.ok b, s') at h
  unfold andThen at h
  rcases hx : x s with ⟨_ | a, t⟩
  · rw [hx] at h
    cases (Prod.mk.inj h).1
  · rw [hx] at h
    exact ⟨a, t, rfl, h⟩

theorem ends_with {r : Except E α × σ} (h : r.1.toOption.isSome) :
    r = (.ok (r.1.toOption.get h), r.2) := by
  obtain ⟨_ | a, s⟩ := r
  · cases h
  · rfl

theorem bind_ok {f : α → Prog σ E β} {s t : σ} {a : α} (h : x s = (.ok a, t)) :
    (x >>= f) s = f a t := by
  change andThen x f s = f a t
  unfold andThen
  rw [h]

theorem bind_error {f : α → Prog σ E β} {s t : σ} {e : E} (h : x s = (.error e, t)) :
    (x >>= f) s = (.error e, t) := by
  change andThen x f s = _
  unfold andThen
  rw [h]

theorem attempt_ok {handler : E → Prog σ E α} {s t : σ} {a : α} (h : x s = (.ok a, t)) :
    attempt x handler s = (.ok a, t) := by
  unfold attempt
  rw [h]

theorem attempt_error {handler : E → Prog σ E α} {s t : σ} {e : E} (h : x s = (.error e, t)) :
    attempt x handler s = handler e t := by
  unfold attempt
  rw [h]

theorem Below.bind {y : Prog σ E α} {f g : α → Prog σ E β} (hx : Below x y)
    (hf : ∀ a, Below (f a) (g a)) : Below (x >>= f) (y >>= g) := by
  intro s b s' h
  obtain ⟨a, t, ha, hb⟩ := bind_ends h
  rw [bind_ok (hx s a t ha)]
  exact hf a t b s' hb

theorem Below.reading {f g : σ → Prog σ E α} (h : ∀ s, Below (f s) (g s)) :
    Below (reading f) (reading g) := fun s => h s s

theorem Below.ite {c : Prop} [Decidable c] {x' y y' : Prog σ E α} (hx : Below x x')
    (hy : Below y y') : Below (if c then x else y) (if c then x' else y') := by
  split
  · exact hx
  · exact hy

end yocto.triples
