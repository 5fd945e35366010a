-- Points in time and their ISO text (`datetime.isoformat` and `datetime.fromisoformat`).
import Mathlib.Data.List.Lex
import Mathlib.Data.Char
import Yocto.TaskIds

open yocto.task_ids

namespace yocto.date_times

/-! ## Numbers of a fixed width -/

def digits : Nat → Nat → Text
  | 0, _ => []
  | width + 1, n => digits width (n / 10) ++ [Nat.digitChar (n % 10)]

@[simp] theorem length_digits (width n : Nat) : (digits width n).length = width := by
  induction width generalizing n with
  | zero => rfl
  | succ width ih => simp [digits, ih]

theorem append_lt_append_iff {α : Type} [LinearOrder α] {a b x y : List α}
    (h : a.length = b.length) : a ++ x < b ++ y ↔ a < b ∨ (a = b ∧ x < y) := by
  induction a generalizing b with
  | nil =>
    have hb : b = [] := List.length_eq_zero_iff.mp h.symm
    subst hb
    simp
  | cons c a ih =>
    cases b with
    | nil => cases h
    | cons d b =>
      simp only [List.cons_append, List.cons_lt_cons_iff, List.cons.injEq,
        ih (Nat.succ.inj h)]
      tauto

theorem digitChar_lt_iff {m n : Nat} (hm : m < 10) (hn : n < 10) :
    Nat.digitChar m < Nat.digitChar n ↔ m < n := by
  interval_cases m <;> interval_cases n <;> decide

theorem digitChar_inj {m n : Nat} (hm : m < 10) (hn : n < 10)
    (h : Nat.digitChar m = Nat.digitChar n) : m = n := by
  have hlt := digitChar_lt_iff hm hn
  have hgt := digitChar_lt_iff hn hm
  rw [h] at hlt hgt
  simp only [lt_irrefl, false_iff, not_lt] at hlt hgt
  omega

theorem digits_inj {width m n : Nat} (hm : m < 10 ^ width) (hn : n < 10 ^ width)
    (h : digits width m = digits width n) : m = n := by
  induction width generalizing m n with
  | zero =>
    simp only [pow_zero] at hm hn
    omega
  | succ width ih =>
    obtain ⟨hhigh, hlow⟩ := List.append_inj' h rfl
    have hlast := digitChar_inj (Nat.mod_lt m (by omega)) (Nat.mod_lt n (by omega))
      (List.cons.inj hlow).1
    rw [pow_succ] at hm hn
    have hrest := ih (m := m / 10) (n := n / 10) (by omega) (by omega) hhigh
    omega

theorem digits_lt_iff {width m n : Nat} (hm : m < 10 ^ width) (hn : n < 10 ^ width) :
    digits width m < digits width n ↔ m < n := by
  induction width generalizing m n with
  | zero =>
    simp only [pow_zero] at hm hn
    simp only [digits, lt_irrefl, false_iff]
    omega
  | succ width ih =>
    rw [pow_succ] at hm hn
    have hm' : m / 10 < 10 ^ width := by omega
    have hn' : n / 10 < 10 ^ width := by omega
    have hlast := digitChar_lt_iff (Nat.mod_lt m (by omega : 0 < 10))
      (Nat.mod_lt n (by omega : 0 < 10))
    simp only [digits]
    rw [append_lt_append_iff (by simp), ih hm' hn']
    constructor
    · rintro (hlt | ⟨heq, hlt⟩)
      · omega
      · have hhigh := digits_inj hm' hn' heq
        simp only [List.cons_lt_cons_iff, List.not_lt_nil, and_false, or_false] at hlt
        have hlow := hlast.mp hlt
        omega
    · intro hlt
      by_cases hhigh : m / 10 = n / 10
      · refine Or.inr ⟨by rw [hhigh], ?_⟩
        simp only [List.cons_lt_cons_iff, List.not_lt_nil, and_false, or_false]
        exact hlast.mpr (by omega)
      · exact Or.inl (by omega)

/-- The number that digits write, or none when there is another character. -/
def number (s : Text) : Option Nat :=
  s.foldlM (fun n c => if c.isDigit then some (10 * n + (c.toNat - 48)) else none) 0

theorem digitChar_value {n : Nat} (h : n < 10) :
    (Nat.digitChar n).isDigit = true ∧ (Nat.digitChar n).toNat - 48 = n := by
  interval_cases n <;> decide

theorem number_digits {width n : Nat} (h : n < 10 ^ width) : number (digits width n) = some n := by
  unfold number
  induction width generalizing n with
  | zero =>
    simp only [pow_zero] at h
    obtain rfl : n = 0 := by omega
    rfl
  | succ width ih =>
    rw [pow_succ] at h
    obtain ⟨hdigit, hvalue⟩ := digitChar_value (Nat.mod_lt n (by omega : 0 < 10))
    have hn : 10 * (n / 10) + n % 10 = n := by omega
    simp [digits, List.foldlM_append, ih (by omega : n / 10 < 10 ^ width), hdigit, hvalue, hn]

/-! ## Times -/

/-- A `datetime` without a time zone. -/
@[ext] structure DateTime where
  year : Nat
  month : Nat
  day : Nat
  hour : Nat
  minute : Nat
  second : Nat
  microsecond : Nat
  date : 1 ≤ year ∧ year < 10000 ∧ 1 ≤ month ∧ month ≤ 12 ∧ 1 ≤ day ∧ day ≤ 31
  time : hour < 24 ∧ minute < 60 ∧ second < 60 ∧ microsecond < 1000000
  deriving DecidableEq

def DateTime.fields (d : DateTime) : List Nat :=
  [d.year, d.month, d.day, d.hour, d.minute, d.second, d.microsecond]

theorem DateTime.fields_injective : Function.Injective DateTime.fields := by
  intro d e h
  simp only [DateTime.fields, List.cons.injEq, and_true] at h
  obtain ⟨hyear, hmonth, hday, hhour, hminute, hsecond, hmicrosecond⟩ := h
  exact DateTime.ext hyear hmonth hday hhour hminute hsecond hmicrosecond

instance : LinearOrder DateTime := LinearOrder.lift' DateTime.fields DateTime.fields_injective

/-- The fraction of a second, which is left out when it is zero. -/
def fraction (microsecond : Nat) : Text :=
  if microsecond = 0 then [] else '.' :: digits 6 microsecond

def DateTime.isoformat (sep : Char) (d : DateTime) : Text :=
  digits 4 d.year ++ '-' :: (digits 2 d.month ++ '-' :: (digits 2 d.day ++ sep ::
    (digits 2 d.hour ++ ':' :: (digits 2 d.minute ++ ':' :: (digits 2 d.second ++
      fraction d.microsecond)))))

theorem digits_append_lt_iff {width m n : Nat} {c : Char} {x y : Text} (hm : m < 10 ^ width)
    (hn : n < 10 ^ width) :
    digits width m ++ c :: x < digits width n ++ c :: y ↔ m < n ∨ (m = n ∧ x < y) := by
  rw [append_lt_append_iff (by simp), digits_lt_iff hm hn, List.cons_lt_cons_iff]
  simp only [lt_irrefl, false_or, true_and]
  constructor
  · rintro (hlt | ⟨heq, hlt⟩)
    · exact Or.inl hlt
    · exact Or.inr ⟨digits_inj hm hn heq, hlt⟩
  · rintro (hlt | ⟨rfl, hlt⟩)
    · exact Or.inl hlt
    · exact Or.inr ⟨rfl, hlt⟩

theorem fraction_lt_iff {m n : Nat} (hm : m < 10 ^ 6) (hn : n < 10 ^ 6) :
    fraction m < fraction n ↔ m < n := by
  unfold fraction
  split
  · rename_i hzero
    subst hzero
    split
    · rename_i hzero
      subst hzero
      simp
    · rename_i hne
      simp only [List.nil_lt_cons, true_iff]
      omega
  · split
    · rename_i hzero
      subst hzero
      simp
    · rw [List.cons_lt_cons_iff, digits_lt_iff hm hn]
      simp

theorem isoformat_lt_iff (sep : Char) (d e : DateTime) :
    d.isoformat sep < e.isoformat sep ↔ d < e := by
  have hd := d.date
  have ht := d.time
  have hd' := e.date
  have ht' := e.time
  unfold DateTime.isoformat
  rw [digits_append_lt_iff (by omega) (by omega), digits_append_lt_iff (by omega) (by omega),
    digits_append_lt_iff (by omega) (by omega), digits_append_lt_iff (by omega) (by omega),
    digits_append_lt_iff (by omega) (by omega), append_lt_append_iff (by simp),
    digits_lt_iff (by omega) (by omega), fraction_lt_iff (by omega) (by omega)]
  have hsecond : digits 2 d.second = digits 2 e.second ↔ d.second = e.second :=
    ⟨digits_inj (by omega) (by omega), fun h => by rw [h]⟩
  rw [hsecond]
  change _ ↔ d.fields < e.fields
  simp [DateTime.fields, List.cons_lt_cons_iff]

/-! ## Reading a text -/

/-- A number of a fixed width at the start, and the rest. -/
def field (width : Nat) (s : Text) : Option (Nat × Text) :=
  if width ≤ s.length then (number (s.take width)).map (·, s.drop width) else none

theorem field_digits {width n : Nat} (h : n < 10 ^ width) (rest : Text) :
    field width (digits width n ++ rest) = some (n, rest) := by
  unfold field
  rw [if_pos (by simp), List.take_left' (by simp), List.drop_left' (by simp), number_digits h,
    Option.map_some]

def after (c : Char) : Text → Option Text
  | [] => none
  | x :: xs => if x = c then some xs else none

/-- `.fff` or `.ffffff`. -/
def read_fraction : Text → Option Nat
  | [] => some 0
  | s => do
    let s ← after '.' s
    if s.length = 6 then number s
    else if s.length = 3 then (number s).map (1000 * ·)
    else none

/-- `HH[:MM[:SS[.fff[fff]]]]`. -/
def read_time (s : Text) : Option (Nat × Nat × Nat × Nat) := do
  let (hour, s) ← field 2 s
  if s = [] then some (hour, 0, 0, 0)
  else
    let s ← after ':' s
    let (minute, s) ← field 2 s
    if s = [] then some (hour, minute, 0, 0)
    else
      let s ← after ':' s
      let (second, s) ← field 2 s
      let microsecond ← read_fraction s
      some (hour, minute, second, microsecond)

/-- `datetime.fromisoformat`, for the texts that `isoformat` writes for a time without a zone. -/
def fromisoformat (s : Text) : Option DateTime := do
  let (year, s) ← field 4 s
  let s ← after '-' s
  let (month, s) ← field 2 s
  let s ← after '-' s
  let (day, s) ← field 2 s
  let (hour, minute, second, microsecond) ←
    if s = [] then some (0, 0, 0, 0) else read_time (s.drop 1)
  if date : 1 ≤ year ∧ year < 10000 ∧ 1 ≤ month ∧ month ≤ 12 ∧ 1 ≤ day ∧ day ≤ 31 then
    if time : hour < 24 ∧ minute < 60 ∧ second < 60 ∧ microsecond < 1000000 then
      some ⟨year, month, day, hour, minute, second, microsecond, date, time⟩
    else none
  else none

theorem read_fraction_fraction {n : Nat} (h : n < 10 ^ 6) : read_fraction (fraction n) = some n := by
  unfold fraction
  split
  · rename_i hzero
    rw [hzero]
    rfl
  · simp [read_fraction, after, number_digits h]

theorem fromisoformat_isoformat (sep : Char) (d : DateTime) :
    fromisoformat (d.isoformat sep) = some d := by
  have hd := d.date
  have ht := d.time
  have hyear : d.year < 10 ^ 4 := by omega
  have hmonth : d.month < 10 ^ 2 := by omega
  have hday : d.day < 10 ^ 2 := by omega
  have hhour : d.hour < 10 ^ 2 := by omega
  have hminute : d.minute < 10 ^ 2 := by omega
  have hsecond : d.second < 10 ^ 2 := by omega
  have hmicrosecond : d.microsecond < 10 ^ 6 := by omega
  have htime : read_time (digits 2 d.hour ++ ':' :: (digits 2 d.minute ++ ':' ::
      (digits 2 d.second ++ fraction d.microsecond))) =
      some (d.hour, d.minute, d.second, d.microsecond) := by
    simp [read_time, field_digits hhour, field_digits hminute, field_digits hsecond, after,
      read_fraction_fraction hmicrosecond]
  unfold fromisoformat DateTime.isoformat
  simp only [field_digits hyear, field_digits hmonth, field_digits hday, after, if_true,
    Option.bind_eq_bind, Option.bind_some, reduceCtorEq, if_false, List.drop_succ_cons,
    List.drop_zero, htime, dif_pos hd, dif_pos ht]

end yocto.date_times
