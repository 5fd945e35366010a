-- Whole numbers as doubles: rounded to 53 binary digits, to the even one of two that are
-- as near, and infinite from 2 ^ 1024 on.
import Mathlib.Order.WithBot
import Mathlib.Algebra.Order.Group.Nat

namespace yocto.doubles

/-- A number rounded to a multiple of `2 ^ e`. -/
def rounded (e n : ℕ) : ℕ :=
  (n / 2 ^ e + if 2 ^ e < 2 * (n % 2 ^ e) ∨ (2 * (n % 2 ^ e) = 2 ^ e ∧ n / 2 ^ e % 2 = 1) then 1 else 0) * 2 ^ e

def double (n : ℕ) : WithTop ℕ :=
  let m := rounded (n.log2 - 52) n
  if m < 2 ^ 1024 then WithTop.some m else ⊤

theorem rounded_mono (e : ℕ) {m n : ℕ} (h : m ≤ n) : rounded e m ≤ rounded e n := by
  have hdiv : m / 2 ^ e ≤ n / 2 ^ e := Nat.div_le_div_right h
  apply Nat.mul_le_mul_right
  rcases Nat.lt_or_eq_of_le hdiv with hlt | heq
  · split <;> split <;> omega
  · have hmod : m % 2 ^ e ≤ n % 2 ^ e := by
      have hm := Nat.div_add_mod m (2 ^ e)
      have hn := Nat.div_add_mod n (2 ^ e)
      rw [heq] at hm
      omega
    rw [heq]
    split <;> split <;> omega

theorem rounded_le {e k n : ℕ} (he : e ≤ k) (h : n < 2 ^ k) : rounded e n ≤ 2 ^ k := by
  have hpow : 2 ^ k = 2 ^ (k - e) * 2 ^ e := by rw [← pow_add, Nat.sub_add_cancel he]
  have hdiv : n / 2 ^ e < 2 ^ (k - e) := by
    rw [Nat.div_lt_iff_lt_mul (Nat.two_pow_pos e), ← hpow]
    exact h
  unfold rounded
  rw [hpow]
  apply Nat.mul_le_mul_right
  split <;> omega

theorem le_rounded {e k n : ℕ} (he : e ≤ k) (h : 2 ^ k ≤ n) : 2 ^ k ≤ rounded e n := by
  have hpow : 2 ^ k = 2 ^ (k - e) * 2 ^ e := by rw [← pow_add, Nat.sub_add_cancel he]
  have hdiv : 2 ^ (k - e) ≤ n / 2 ^ e := by
    rw [Nat.le_div_iff_mul_le (Nat.two_pow_pos e), ← hpow]
    exact h
  unfold rounded
  rw [hpow]
  apply Nat.mul_le_mul_right
  omega

theorem double_mono {m n : ℕ} (h : m ≤ n) : double m ≤ double n := by
  have hrounded : rounded (m.log2 - 52) m ≤ rounded (n.log2 - 52) n := by
    rcases Nat.eq_zero_or_pos m with rfl | hm
    · have hzero : ∀ e, rounded e 0 = 0 := by
        intro e
        simp [rounded]
      rw [hzero]
      exact Nat.zero_le _
    · have hm_ne : m ≠ 0 := by omega
      have hn_ne : n ≠ 0 := by omega
      have hlog : m.log2 ≤ n.log2 := (Nat.le_log2 hn_ne).mpr ((Nat.log2_self_le hm_ne).trans h)
      rcases Nat.lt_or_eq_of_le hlog with hlt | heq
      · -- A power of two stands between them.
        calc rounded (m.log2 - 52) m ≤ 2 ^ n.log2 := by
              apply rounded_le (by omega)
              exact (Nat.log2_lt hm_ne).mp hlt
          _ ≤ rounded (n.log2 - 52) n := le_rounded (by omega) (Nat.log2_self_le hn_ne)
      · rw [heq]
        exact rounded_mono _ h
  unfold double
  dsimp only
  split
  · split
    · exact WithTop.coe_le_coe.mpr hrounded
    · exact le_top
  · rename_i hm
    rw [if_neg (by omega)]

end yocto.doubles
