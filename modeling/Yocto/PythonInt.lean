-- The decimal digits of Unicode, and what `int` of Python makes of a text.
import Yocto.TextLines

open yocto.task_ids yocto.text_lines

namespace yocto.python_int

/-- The zero of each script that has decimal digits. The nine characters behind it are the others. -/
def zeros : List Nat :=
  [0x30, 0x660, 0x6f0, 0x7c0, 0x966, 0x9e6, 0xa66, 0xae6, 0xb66, 0xbe6, 0xc66, 0xce6, 0xd66, 0xde6,
    0xe50, 0xed0, 0xf20, 0x1040, 0x1090, 0x17e0, 0x1810, 0x1946, 0x19d0, 0x1a80, 0x1a90, 0x1b50,
    0x1bb0, 0x1c40, 0x1c50, 0xa620, 0xa8d0, 0xa900, 0xa9d0, 0xa9f0, 0xaa50, 0xabf0, 0xff10, 0x104a0,
    0x10d30, 0x11066, 0x110f0, 0x11136, 0x111d0, 0x112f0, 0x11450, 0x114d0, 0x11650, 0x116c0,
    0x11730, 0x118e0, 0x11950, 0x11c50, 0x11d50, 0x11da0, 0x16a60, 0x16ac0, 0x16b50, 0x1d7ce,
    0x1d7d8, 0x1d7e2, 0x1d7ec, 0x1d7f6, 0x1e140, 0x1e2f0, 0x1e950, 0x1fbf0]

/-- The value of a decimal digit: of what `\d` finds in a text. -/
def decimal_value (c : Char) : Option Nat :=
  (zeros.find? fun base => base ≤ c.toNat && c.toNat < base + 10).map (c.toNat - ·)

def decimal (c : Char) : Bool := (decimal_value c).isSome

/-- One of `string.digits`. -/
def ascii_digit (c : Char) : Bool := '0' ≤ c && c ≤ '9'

/-- One of `string.ascii_letters`. -/
def ascii_letter (c : Char) : Bool := ('a' ≤ c && c ≤ 'z') || ('A' ≤ c && c ≤ 'Z')

/-- The number that decimal digits say, behind the digits of another one. -/
def digits_value (n : Nat) (digits : Text) : Nat :=
  digits.foldl (fun n c => 10 * n + (decimal_value c).getD 0) n

/-- The digits of an integer, of which an underscore may separate two. -/
def integer_digits (n : Nat) (after_digit : Bool) : Text → Option Nat
  | [] => if after_digit then some n else none
  | c :: s =>
    match decimal_value c with
    | some d => integer_digits (10 * n + d) true s
    | none => if c = '_' ∧ after_digit then integer_digits n false s else none

/-- `int(s)` for a text: none is a `ValueError`. -/
def int (s : Text) : Option Int :=
  match strip s with
  | '-' :: digits => (integer_digits 0 false digits).map fun n => -(n : Int)
  | '+' :: digits => (integer_digits 0 false digits).map Int.ofNat
  | digits => (integer_digits 0 false digits).map Int.ofNat

theorem decimal_ascii {c : Char} (h : ascii_digit c) : decimal c := by
  have hbounds : 0x30 ≤ c.toNat ∧ c.toNat < 0x30 + 10 := by
    simp only [ascii_digit, Bool.and_eq_true, decide_eq_true_eq, Char.le_def] at h
    have hlow : (48 : Nat) ≤ c.val.toNat := h.1
    have hhigh : c.val.toNat ≤ (57 : Nat) := h.2
    exact ⟨hlow, Nat.lt_succ_of_le hhigh⟩
  simp [decimal, decimal_value, zeros, hbounds]

theorem not_decimal_letter {c : Char} (h : ascii_letter c) : decimal c = false := by
  have hbounds : 65 ≤ c.toNat ∧ c.toNat ≤ 122 := by
    simp only [ascii_letter, Bool.or_eq_true, Bool.and_eq_true, decide_eq_true_eq, Char.le_def] at h
    rcases h with ⟨hlow, hhigh⟩ | ⟨hlow, hhigh⟩
    · have h1 : (97 : Nat) ≤ c.val.toNat := hlow
      have h2 : c.val.toNat ≤ (122 : Nat) := hhigh
      exact ⟨le_trans (by omega) h1, h2⟩
    · have h1 : (65 : Nat) ≤ c.val.toNat := hlow
      have h2 : c.val.toNat ≤ (90 : Nat) := hhigh
      exact ⟨h1, le_trans h2 (by omega)⟩
  have hnone : zeros.find? (fun base => base ≤ c.toNat && c.toNat < base + 10) = none := by
    rw [List.find?_eq_none]
    have hzeros : ∀ base ∈ zeros, base + 10 ≤ 65 ∨ 122 < base := by decide
    intro base hbase
    have := hzeros base hbase
    simp only [Bool.and_eq_true, decide_eq_true_eq, not_and]
    omega
  simp [decimal, decimal_value, hnone]

theorem digits_value_cons (n : Nat) (c : Char) (digits : Text) :
    digits_value n (c :: digits) = digits_value (10 * n + (decimal_value c).getD 0) digits := rfl

theorem digits_value_append (n : Nat) (digits more : Text) :
    digits_value n (digits ++ more) = digits_value (digits_value n digits) more := by
  simp [digits_value, List.foldl_append]

theorem le_digits_value (n : Nat) (digits : Text) : n ≤ digits_value n digits := by
  induction digits generalizing n with
  | nil => exact Nat.le_refl n
  | cons c digits ih =>
    rw [digits_value_cons]
    exact le_trans (by omega) (ih _)

theorem digits_value_eq_iff {n : Nat} {digits : Text} (hne : digits ≠ []) :
    digits_value n digits = n ↔ n = 0 ∧ ∀ c ∈ digits, (decimal_value c).getD 0 = 0 := by
  induction digits generalizing n with
  | nil => exact absurd rfl hne
  | cons c digits ih =>
    rw [digits_value_cons]
    have hle := le_digits_value (10 * n + (decimal_value c).getD 0) digits
    constructor
    · intro h
      have hn : n = 0 := by omega
      have hc : (decimal_value c).getD 0 = 0 := by omega
      refine ⟨hn, fun d hd => ?_⟩
      rcases List.mem_cons.mp hd with rfl | hd
      · exact hc
      · have hrest : digits ≠ [] := List.ne_nil_of_mem hd
        rw [hn, hc, Nat.mul_zero, Nat.add_zero, ih hrest] at h
        exact h.2 d hd
    · rintro ⟨rfl, hzero⟩
      rw [hzero c List.mem_cons_self, Nat.mul_zero, Nat.add_zero]
      by_cases hrest : digits = []
      · rw [hrest]
        rfl
      · exact (ih hrest).mpr ⟨rfl, fun d hd => hzero d (List.mem_cons_of_mem _ hd)⟩

theorem decimal_not_space {c : Char} (h : decimal c) : data_smart.isspace c = false := by
  have hzeros : ∀ base ∈ zeros, 32 < base ∧ (base + 10 ≤ 0x85 ∨ 0x85 < base) ∧ (base + 10 ≤ 0xA0 ∨ 0xA0 < base) ∧
      (base + 10 ≤ 0x1680 ∨ 0x1680 < base) ∧ (base + 10 ≤ 0x2000 ∨ 0x205F < base) ∧ (base + 10 ≤ 0x3000 ∨ 0x3000 < base) := by
    decide
  unfold decimal decimal_value at h
  rw [Option.isSome_map] at h
  obtain ⟨base, hfind⟩ := Option.isSome_iff_exists.mp h
  have hbounds := List.find?_some hfind
  have hbase := hzeros base (List.mem_of_find?_eq_some hfind)
  simp only [Bool.and_eq_true, decide_eq_true_eq] at hbounds
  unfold data_smart.isspace
  simp only [Bool.or_eq_false_iff, Bool.and_eq_false_iff, decide_eq_false_iff_not]
  omega

theorem integer_digits_decimal (n : Nat) (after_digit : Bool) {digits : Text} (h : ∀ c ∈ digits, decimal c)
    (hor : digits ≠ [] ∨ after_digit = true) : (integer_digits n after_digit digits).isSome := by
  induction digits generalizing n after_digit with
  | nil =>
    rw [integer_digits, hor.resolve_left fun hne => hne rfl]
    rfl
  | cons c digits ih =>
    obtain ⟨d, hd⟩ := Option.isSome_iff_exists.mp (h c List.mem_cons_self)
    rw [integer_digits, hd]
    exact ih _ true (fun c' hc' => h c' (List.mem_cons_of_mem _ hc')) (Or.inr rfl)

theorem int_digits {digits : Text} (hne : digits ≠ []) (h : ∀ c ∈ digits, decimal c) : (int digits).isSome := by
  have hread := integer_digits_decimal 0 false h (Or.inl hne)
  unfold int
  rw [strip_eq_self fun c hc => decimal_not_space (h c hc)]
  split
  · exact absurd (h '-' List.mem_cons_self) (by decide)
  · exact absurd (h '+' List.mem_cons_self) (by decide)
  · rw [Option.isSome_map]
    exact hread

end yocto.python_int
