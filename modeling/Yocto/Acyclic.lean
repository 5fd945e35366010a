-- Relations without a cycle: how a cycle can come in with one more pair.
import Mathlib.Logic.Relation
import Mathlib.Tactic

open Relation

namespace yocto.acyclic

variable {α : Type} {r r' : α → α → Prop} {a b : α}

/-- Nothing leads back to itself. -/
def NoCycle (r : α → α → Prop) : Prop := ∀ a, ¬TransGen r a a

theorem NoCycle.mono (h : NoCycle r) (hsub : ∀ x y, r' x y → r x y) : NoCycle r' := by
  intro x hx
  apply h x
  exact TransGen.mono hsub x x hx

theorem transGen_of_pair (hsub : ∀ x y, r' x y → r x y ∨ (x = a ∧ y = b)) {x y : α}
    (h : TransGen r' x y) : TransGen r x y ∨ (ReflTransGen r x a ∧ ReflTransGen r b y) := by
  induction h with
  | single hstep =>
    rcases hsub _ _ hstep with hr | ⟨rfl, rfl⟩
    · exact .inl (.single hr)
    · exact .inr ⟨.refl, .refl⟩
  | tail _ hstep ih =>
    rcases hsub _ _ hstep with hr | ⟨rfl, rfl⟩
    · rcases ih with hway | ⟨hto, hfrom⟩
      · exact .inl (hway.tail hr)
      · exact .inr ⟨hto, hfrom.tail hr⟩
    · rcases ih with hway | ⟨hto, -⟩
      · exact .inr ⟨hway.to_reflTransGen, .refl⟩
      · exact .inr ⟨hto, .refl⟩

theorem NoCycle.add (h : NoCycle r) (hsub : ∀ x y, r' x y → r x y ∨ (x = a ∧ y = b))
    (hback : ¬ReflTransGen r b a) : NoCycle r' := by
  intro x hx
  rcases transGen_of_pair hsub hx with hway | ⟨hto, hfrom⟩
  · exact h x hway
  · exact hback (hfrom.trans hto)

theorem NoCycle.of_ends (hends : ∀ x y, r x y → ∀ z, ¬r y z) : NoCycle r := by
  intro x hx
  obtain ⟨y, hxy, hyx⟩ := TransGen.head'_iff.mp hx
  rcases hyx.cases_head with rfl | ⟨z, hyz, -⟩
  · exact hends _ _ hxy _ hxy
  · exact hends _ _ hxy _ hyz

end yocto.acyclic
