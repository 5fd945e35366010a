-- The order of versions (utils.py).
import Mathlib.Data.Char
import Mathlib.Data.List.Lex
import Mathlib.Data.List.TakeWhile
import Mathlib.Data.Prod.Lex
import Yocto.PythonInt

open yocto.task_ids yocto.python_int

namespace yocto.versions

/-! ## The comparison -/

/-- A piece of a version, as `explode_version` gives it: `(-1, '~')`, `(0, n)`, `(1, s)` or
`(2, c)`. -/
inductive Piece
  | tilde
  | number (n : Nat)
  | letters (s : Text)
  | other (c : Char)
  deriving DecidableEq

/-- `explode_version`, of a text without newline. -/
def explode_version : Text → List Piece
  | [] => []
  | c :: s =>
    if ascii_digit c then
      .number (digits_value 0 (c :: s.takeWhile decimal)) :: explode_version (s.dropWhile decimal)
    else if ascii_letter c then
      .letters (c :: s.takeWhile ascii_letter) :: explode_version (s.dropWhile ascii_letter)
    else if c = '~' then .tilde :: explode_version s
    else .other c :: explode_version s
termination_by s => s.length
decreasing_by
  · exact Nat.lt_succ_of_le (List.dropWhile_sublist _).length_le
  · exact Nat.lt_succ_of_le (List.dropWhile_sublist _).length_le
  · exact Nat.lt_succ_self _
  · exact Nat.lt_succ_self _

/-- The first part of what is popped: none is the end, `(0, None)`. -/
def order : Option Piece → Int
  | none => 0
  | some .tilde => -1
  | some (.number _) => 0
  | some (.letters _) => 1
  | some (.other _) => 2

/-- `ca < cb`, for pieces of one order. -/
def value_lt : Piece → Piece → Bool
  | .number n, .number m => n < m
  | .letters s, .letters t => s < t
  | .other c, .other d => c < d
  | _, _ => false

/-- One turn of the loop of `vercmp_part`, when not both versions have ended: `next` is what the
turns behind it give. -/
def vercmp_piece (a b : Option Piece) (next : Int) : Int :=
  if order a < order b then -1
  else if order a > order b then 1
  else match a, b with
    | none, _ => -1
    | _, none => 1
    | some ca, some cb => if value_lt ca cb then -1 else if value_lt cb ca then 1 else next

def vercmp_loop : List Piece → List Piece → Int
  | [], [] => 0
  | [], b :: vb => vercmp_piece none (some b) (vercmp_loop [] vb)
  | a :: va, [] => vercmp_piece (some a) none (vercmp_loop va [])
  | a :: va, b :: vb => vercmp_piece (some a) (some b) (vercmp_loop va vb)
termination_by va vb => va.length + vb.length

def vercmp_part (a b : Text) : Int := vercmp_loop (explode_version a) (explode_version b)

structure Version where
  pe : Text
  pv : Text
  pr : Text
  deriving DecidableEq

def epoch (e : Text) : Option Int := if e = [] then some 0 else int e

/-- None: the epoch of one of them is no integer, a `ValueError`. -/
def vercmp (ta tb : Version) : Option Int := do
  let ea ← epoch ta.pe
  let eb ← epoch tb.pe
  let r := ea - eb
  let r := if r = 0 then vercmp_part ta.pv tb.pv else r
  let r := if r = 0 then vercmp_part ta.pr tb.pr else r
  return r

/-! ## Comparing in a linear order -/

/-- -1, 0 or 1, as the one is less than, equal to or greater than the other. -/
def cmp_int {α : Type} [LinearOrder α] (x y : α) : Int := if x < y then -1 else if y < x then 1 else 0

section
variable {α β : Type} [LinearOrder α] [LinearOrder β]

theorem cmp_int_self (x : α) : cmp_int x x = 0 := by simp [cmp_int]

theorem cmp_int_swap (x y : α) : cmp_int y x = -cmp_int x y := by
  unfold cmp_int
  rcases lt_trichotomy x y with h | rfl | h
  · rw [if_neg h.not_gt, if_pos h, if_pos h]
    rfl
  · simp
  · rw [if_pos h, if_neg h.not_gt, if_pos h]

theorem cmp_int_nonpos {x y : α} : cmp_int x y ≤ 0 ↔ x ≤ y := by
  unfold cmp_int
  rcases lt_trichotomy x y with h | rfl | h
  · simp [h, h.le]
  · simp
  · simp [h, h.not_gt]

theorem cmp_int_eq_zero {x y : α} : cmp_int x y = 0 ↔ x = y := by
  unfold cmp_int
  rcases lt_trichotomy x y with h | rfl | h
  · simp [h, h.ne]
  · simp
  · simp [h, h.not_gt, h.ne']

theorem cmp_int_of_lt {x y : α} (h : x < y) : cmp_int x y = -1 := if_pos h

theorem cmp_int_of_gt {x y : α} (h : y < x) : cmp_int x y = 1 := by
  unfold cmp_int
  rw [if_neg h.not_gt, if_pos h]

theorem cmp_int_sign (x y : α) : (cmp_int x y).sign = cmp_int x y := by
  unfold cmp_int
  split
  · rfl
  · split <;> rfl

theorem cmp_int_cons (x y : α) (xs ys : List α) :
    cmp_int (x :: xs) (y :: ys) = if x < y then -1 else if y < x then 1 else cmp_int xs ys := by
  rcases lt_trichotomy x y with h | rfl | h
  · rw [if_pos h, cmp_int_of_lt (List.cons_lt_cons_iff.mpr (Or.inl h))]
  · rw [if_neg (lt_irrefl x), if_neg (lt_irrefl x)]
    rcases lt_trichotomy xs ys with h | rfl | h
    · rw [cmp_int_of_lt h, cmp_int_of_lt (List.cons_lt_cons_iff.mpr (Or.inr ⟨rfl, h⟩))]
    · rw [cmp_int_self, cmp_int_self]
    · rw [cmp_int_of_gt h, cmp_int_of_gt (List.cons_lt_cons_iff.mpr (Or.inr ⟨rfl, h⟩))]
  · rw [if_neg h.not_gt, if_pos h, cmp_int_of_gt (List.cons_lt_cons_iff.mpr (Or.inl h))]

theorem cmp_int_pair (x x' : α) (y y' : β) :
    cmp_int (toLex (x, y)) (toLex (x', y')) = if cmp_int x x' = 0 then cmp_int y y' else cmp_int x x' := by
  unfold cmp_int
  simp only [Prod.Lex.toLex_lt_toLex]
  rcases lt_trichotomy x x' with h | rfl | h
  · simp [h]
  · simp
  · simp [h, h.not_gt, h.ne']

end

/-! ## The rank of a piece -/

/-- The end is before a number and behind a tilde. -/
def rank : Option Piece → Nat ×ₗ Nat ×ₗ Text
  | some .tilde => toLex (0, toLex (0, []))
  | none => toLex (1, toLex (0, []))
  | some (.number n) => toLex (1, toLex (n + 1, []))
  | some (.letters s) => toLex (2, toLex (0, s))
  | some (.other c) => toLex (3, toLex (0, [c]))

def ranks (va : List Piece) : List (Nat ×ₗ Nat ×ₗ Text) := va.map (fun a => rank (some a)) ++ [rank none]

theorem vercmp_piece_rank {a b : Option Piece} (h : ¬(a = none ∧ b = none)) (next : Int) :
    vercmp_piece a b next = if rank a < rank b then -1 else if rank b < rank a then 1 else next := by
  cases a with
  | none =>
    cases b with
    | none => exact absurd ⟨rfl, rfl⟩ h
    | some b => cases b <;> simp [vercmp_piece, order, rank, Prod.Lex.toLex_lt_toLex]
  | some a =>
    cases b with
    | none => cases a <;> simp [vercmp_piece, order, rank, Prod.Lex.toLex_lt_toLex]
    | some b =>
      cases a <;> cases b <;>
        simp [vercmp_piece, order, rank, value_lt, Prod.Lex.toLex_lt_toLex, List.cons_lt_cons_iff]

theorem vercmp_loop_ranks (va vb : List Piece) : vercmp_loop va vb = cmp_int (ranks va) (ranks vb) := by
  fun_induction vercmp_loop va vb with
  | case1 => exact (cmp_int_self _).symm
  | case2 b vb ih =>
    have hne : rank none ≠ rank (some b) := by cases b <;> simp [rank]
    rw [vercmp_piece_rank (by simp)]
    unfold ranks
    rw [List.map_nil, List.nil_append, List.map_cons, List.cons_append, cmp_int_cons]
    rcases lt_or_gt_of_ne hne with hlt | hlt
    · rw [if_pos hlt, if_pos hlt]
    · rw [if_neg hlt.not_gt, if_pos hlt, if_neg hlt.not_gt, if_pos hlt]
  | case3 a va ih =>
    have hne : rank (some a) ≠ rank none := by cases a <;> simp [rank]
    rw [vercmp_piece_rank (by simp)]
    unfold ranks
    rw [List.map_nil, List.nil_append, List.map_cons, List.cons_append, cmp_int_cons]
    rcases lt_or_gt_of_ne hne with hlt | hlt
    · rw [if_pos hlt, if_pos hlt]
    · rw [if_neg hlt.not_gt, if_pos hlt, if_neg hlt.not_gt, if_pos hlt]
  | case4 a va b vb ih =>
    rw [vercmp_piece_rank (by simp), ih]
    exact (cmp_int_cons _ _ _ _).symm

/-! ## A version that goes on -/

/-- What the pieces of a version become when a text is appended: a number or a word at the end takes
what belongs to it, and all else gives pieces of its own. -/
inductive Grows (g : Text) : List Piece → List Piece → Prop
  | number (l : List Piece) (n : Nat) :
      Grows g (l ++ [.number n])
        (l ++ .number (digits_value n (g.takeWhile decimal)) :: explode_version (g.dropWhile decimal))
  | letters (l : List Piece) (w : Text) :
      Grows g (l ++ [.letters w])
        (l ++ .letters (w ++ g.takeWhile ascii_letter) :: explode_version (g.dropWhile ascii_letter))
  | apart (va : List Piece) (hnumber : ∀ l n, va ≠ l ++ [.number n])
      (hletters : ∀ l w, va ≠ l ++ [.letters w]) : Grows g va (va ++ explode_version g)

theorem Grows.cons {g : Text} {va vb : List Piece} (h : Grows g va vb) {a : Piece}
    (ha : va ≠ [] ∨ (∀ n, a ≠ .number n) ∧ ∀ w, a ≠ .letters w) : Grows g (a :: va) (a :: vb) := by
  cases h with
  | number l n => exact .number (a :: l) n
  | letters l w => exact .letters (a :: l) w
  | apart _ hnumber hletters =>
    refine .apart (a :: va) (fun l n heq => ?_) (fun l w heq => ?_)
    · cases l with
      | nil =>
        obtain ⟨rfl, rfl⟩ := List.cons.inj heq
        rcases ha with ha | ha
        · exact ha rfl
        · exact ha.1 n rfl
      | cons b l => exact hnumber l n (List.cons.inj heq).2
    · cases l with
      | nil =>
        obtain ⟨rfl, rfl⟩ := List.cons.inj heq
        rcases ha with ha | ha
        · exact ha rfl
        · exact ha.2 w rfl
      | cons b l => exact hletters l w (List.cons.inj heq).2

theorem explode_version_ne_nil {s : Text} (h : s ≠ []) : explode_version s ≠ [] := by
  cases s with
  | nil => exact absurd rfl h
  | cons c s =>
    rw [explode_version]
    split
    · simp
    · split
      · simp
      · split <;> simp

theorem takeWhile_dropWhile_append (p : Char → Bool) (s g : Text) :
    (s.dropWhile p = [] ∧ s.takeWhile p = s ∧ (s ++ g).takeWhile p = s ++ g.takeWhile p ∧
      (s ++ g).dropWhile p = g.dropWhile p) ∨
    (s.dropWhile p ≠ [] ∧ (s ++ g).takeWhile p = s.takeWhile p ∧
      (s ++ g).dropWhile p = s.dropWhile p ++ g) := by
  by_cases hall : ∀ c ∈ s, p c
  · exact Or.inl ⟨List.dropWhile_eq_nil_iff.mpr hall, List.takeWhile_eq_self_iff.mpr hall,
      List.takeWhile_append_of_pos hall, List.dropWhile_append_of_pos hall⟩
  · have hne : s.dropWhile p ≠ [] := fun h => hall (List.dropWhile_eq_nil_iff.mp h)
    have hlen : (s.takeWhile p).length ≠ s.length := fun h =>
      hall (List.takeWhile_eq_self_iff.mp ((List.takeWhile_sublist p).eq_of_length h))
    refine Or.inr ⟨hne, ?_, ?_⟩
    · rw [List.takeWhile_append, if_neg hlen]
    · rw [List.dropWhile_append, if_neg (by simpa using hne)]

theorem explode_append (a g : Text) : Grows g (explode_version a) (explode_version (a ++ g)) := by
  fun_induction explode_version a with
  | case1 => exact .apart [] (by simp) (by simp)
  | case2 c s hdigit ih =>
    rw [List.cons_append, explode_version, if_pos hdigit]
    rcases takeWhile_dropWhile_append decimal s g with ⟨hnil, htake, hmore, hrest⟩ | ⟨hne, htake, hrest⟩
    · rw [hnil, htake, hmore, hrest, explode_version, ← List.cons_append, digits_value_append]
      exact .number [] _
    · rw [htake, hrest]
      exact ih.cons (Or.inl (explode_version_ne_nil hne))
  | case3 c s hdigit hletter ih =>
    rw [List.cons_append, explode_version, if_neg hdigit, if_pos hletter]
    rcases takeWhile_dropWhile_append ascii_letter s g with ⟨hnil, htake, hmore, hrest⟩ | ⟨hne, htake, hrest⟩
    · rw [hnil, htake, hmore, hrest, explode_version, ← List.cons_append]
      exact .letters [] _
    · rw [htake, hrest]
      exact ih.cons (Or.inl (explode_version_ne_nil hne))
  | case4 s hdigit hletter ih =>
    rw [List.cons_append, explode_version, if_neg hdigit, if_neg hletter, if_pos rfl]
    exact ih.cons (Or.inr ⟨by simp, by simp⟩)
  | case5 c s hdigit hletter htilde ih =>
    rw [List.cons_append, explode_version, if_neg hdigit, if_neg hletter, if_neg htilde]
    exact ih.cons (Or.inr ⟨by simp, by simp⟩)

theorem Grows.of_number {g : Text} {l vb : List Piece} {n : Nat} (h : Grows g (l ++ [.number n]) vb) :
    vb = l ++ .number (digits_value n (g.takeWhile decimal)) :: explode_version (g.dropWhile decimal) := by
  generalize hva : l ++ [Piece.number n] = va at h
  cases h with
  | number l' n' =>
    obtain ⟨rfl, hn⟩ := List.append_inj' hva rfl
    obtain rfl : n = n' := by simpa using hn
    rfl
  | letters l' w =>
    have hlast := congrArg List.getLast? hva
    simp at hlast
  | apart _ hnumber => exact absurd hva.symm (hnumber l n)

theorem Grows.of_letters {g : Text} {l vb : List Piece} {w : Text} (h : Grows g (l ++ [.letters w]) vb) :
    vb = l ++ .letters (w ++ g.takeWhile ascii_letter) :: explode_version (g.dropWhile ascii_letter) := by
  generalize hva : l ++ [Piece.letters w] = va at h
  cases h with
  | number l' n =>
    have hlast := congrArg List.getLast? hva
    simp at hlast
  | letters l' w' =>
    obtain ⟨rfl, hw⟩ := List.append_inj' hva rfl
    obtain rfl : w = w' := by simpa using hw
    rfl
  | apart _ _ hletters => exact absurd hva.symm (hletters l w)

theorem Grows.apart_of_start {c : Char} {g : Text} {va vb : List Piece} (h : Grows (c :: g) va vb)
    (hdecimal : decimal c = false ∨ ∀ l n, va ≠ l ++ [.number n])
    (hletter : ascii_letter c = false ∨ ∀ l w, va ≠ l ++ [.letters w]) :
    vb = va ++ explode_version (c :: g) := by
  cases h with
  | number l n =>
    rcases hdecimal with hdecimal | hnot
    · rw [List.takeWhile_cons_of_neg (by simp [hdecimal]), List.dropWhile_cons_of_neg (by simp [hdecimal])]
      simp [digits_value]
    · exact absurd rfl (hnot l n)
  | letters l w =>
    rcases hletter with hletter | hnot
    · rw [List.takeWhile_cons_of_neg (by simp [hletter]), List.dropWhile_cons_of_neg (by simp [hletter])]
      simp
    · exact absurd rfl (hnot l w)
  | apart => rfl

theorem ranks_lt (l : List Piece) {x y : Nat ×ₗ Nat ×ₗ Text} (h : x < y) (xs ys : List (Nat ×ₗ Nat ×ₗ Text)) :
    l.map (fun a => rank (some a)) ++ x :: xs < l.map (fun a => rank (some a)) ++ y :: ys := by
  induction l with
  | nil => exact List.cons_lt_cons_iff.mpr (Or.inl h)
  | cons a l ih => exact List.cons_lt_cons_iff.mpr (Or.inr ⟨rfl, ih⟩)

theorem vercmp_loop_longer (va : List Piece) {b : Piece} (hb : b ≠ .tilde) (vb : List Piece) :
    vercmp_loop va (va ++ b :: vb) = -1 := by
  rw [vercmp_loop_ranks]
  apply cmp_int_of_lt
  unfold ranks
  rw [List.map_append, List.append_assoc]
  apply ranks_lt
  cases b with
  | tilde => exact absurd rfl hb
  | number n => simp [rank, Prod.Lex.toLex_lt_toLex]
  | letters s => simp [rank, Prod.Lex.toLex_lt_toLex]
  | other c => simp [rank, Prod.Lex.toLex_lt_toLex]

theorem vercmp_part_tilde (a x : Text) : vercmp_part (a ++ '~' :: x) a = -1 := by
  have hpieces : explode_version (a ++ '~' :: x) = explode_version a ++ .tilde :: explode_version x := by
    rw [(explode_append a ('~' :: x)).apart_of_start (Or.inl (by decide)) (Or.inl (by decide))]
    congr 1
    rw [explode_version, if_neg (by decide), if_neg (by decide), if_pos rfl]
  unfold vercmp_part
  rw [hpieces, vercmp_loop_ranks]
  apply cmp_int_of_lt
  unfold ranks
  rw [List.map_append, List.append_assoc]
  apply ranks_lt
  simp [rank, Prod.Lex.toLex_lt_toLex]

theorem lt_append (w : Text) (c : Char) (g : Text) : w < w ++ c :: g := by
  induction w with
  | nil => exact List.nil_lt_cons c g
  | cons d w ih => exact List.cons_lt_cons_iff.mpr (Or.inr ⟨rfl, ih⟩)

theorem vercmp_part_letters (a : Text) {g : Text} (hne : g ≠ []) (hg : ∀ c ∈ g, ascii_letter c) :
    vercmp_part a (a ++ g) = -1 := by
  obtain ⟨c, g, rfl⟩ := List.exists_cons_of_ne_nil hne
  have hletter := hg c List.mem_cons_self
  have hdecimal := not_decimal_letter hletter
  have hgrows := explode_append a (c :: g)
  unfold vercmp_part
  by_cases hends : ∃ l w, explode_version a = l ++ [.letters w]
  · obtain ⟨l, w, hl⟩ := hends
    have hall : explode_version (a ++ c :: g) = l ++ [.letters (w ++ c :: g)] := by
      rw [hl] at hgrows
      rw [hgrows.of_letters, List.takeWhile_eq_self_iff.mpr hg, List.dropWhile_eq_nil_iff.mpr hg,
        explode_version]
    rw [hall, hl, vercmp_loop_ranks]
    apply cmp_int_of_lt
    unfold ranks
    rw [List.map_append, List.map_append, List.append_assoc, List.append_assoc]
    apply ranks_lt
    have hlonger : w < w ++ c :: g := lt_append w c g
    simpa [rank, Prod.Lex.toLex_lt_toLex] using hlonger
  · rw [not_exists] at hends
    rw [hgrows.apart_of_start (Or.inl hdecimal) (Or.inr fun l w h => hends l ⟨w, h⟩), explode_version,
      if_neg, if_pos hletter]
    · exact vercmp_loop_longer _ (by simp) _
    · intro hdigit
      rw [decimal_ascii hdigit] at hdecimal
      cases hdecimal

/-- The number zero with zeros behind it. -/
def ZerosBehindZero (a g : Text) : Prop :=
  (∃ l, explode_version a = l ++ [.number 0]) ∧ ∀ c ∈ g, (decimal_value c).getD 0 = 0

theorem vercmp_part_digits (a : Text) {g : Text} (hne : g ≠ []) (hg : ∀ c ∈ g, decimal c) :
    (ZerosBehindZero a g → vercmp_part a (a ++ g) = 0) ∧
      (¬ZerosBehindZero a g → vercmp_part a (a ++ g) = -1) := by
  have hgrows := explode_append a g
  unfold vercmp_part
  by_cases hends : ∃ l n, explode_version a = l ++ [.number n]
  · obtain ⟨l, n, hl⟩ := hends
    rw [hl] at hgrows
    have hall := hgrows.of_number
    rw [List.takeWhile_eq_self_iff.mpr hg, List.dropWhile_eq_nil_iff.mpr hg, explode_version] at hall
    have hzeros : ZerosBehindZero a g ↔ digits_value n g = n := by
      rw [digits_value_eq_iff hne]
      refine and_congr_left fun _ => ⟨fun ⟨l', h⟩ => ?_, fun h => ⟨l, by rw [hl, h]⟩⟩
      rw [hl] at h
      simpa using (List.append_inj' h rfl).2
    rw [hall, hl, vercmp_loop_ranks, hzeros]
    constructor
    · intro hsame
      rw [hsame]
      exact cmp_int_self _
    · intro hother
      have hlt : n < digits_value n g := lt_of_le_of_ne (le_digits_value n g) (Ne.symm hother)
      apply cmp_int_of_lt
      unfold ranks
      rw [List.map_append, List.map_append, List.append_assoc, List.append_assoc]
      apply ranks_lt
      simpa [rank, Prod.Lex.toLex_lt_toLex] using hlt
  · rw [not_exists] at hends
    refine ⟨fun h => absurd h.1 fun ⟨l, hl⟩ => hends l ⟨0, hl⟩, fun _ => ?_⟩
    obtain ⟨c, g, rfl⟩ := List.exists_cons_of_ne_nil hne
    have hdecimal := hg c List.mem_cons_self
    have hletter : ascii_letter c = false := by
      cases h : ascii_letter c with
      | false => rfl
      | true =>
        rw [not_decimal_letter h] at hdecimal
        cases hdecimal
    have htilde : c ≠ '~' := by
      rintro rfl
      exact absurd hdecimal (by decide)
    rw [hgrows.apart_of_start (Or.inr fun l n h => hends l ⟨n, h⟩) (Or.inl hletter), explode_version]
    split
    · exact vercmp_loop_longer _ (by simp) _
    · have hnot : ¬ascii_letter c = true := by simp [hletter]
      rw [if_neg hnot]
      exact vercmp_loop_longer _ (by simp) _

/-! ## The preorder -/

/-- A version that `vercmp` is for: the epoch is an integer or empty, and nothing holds a newline. -/
structure Version.Proper (t : Version) : Prop where
  epoch : (epoch t.pe).isSome
  pv : '\n' ∉ t.pv
  pr : '\n' ∉ t.pr

/-- What a version is compared by. -/
def version_key (e : Int) (t : Version) :
    Int ×ₗ List (Nat ×ₗ Nat ×ₗ Text) ×ₗ List (Nat ×ₗ Nat ×ₗ Text) :=
  toLex (e, toLex (ranks (explode_version t.pv), ranks (explode_version t.pr)))

theorem vercmp_part_ranks (a b : Text) :
    vercmp_part a b = cmp_int (ranks (explode_version a)) (ranks (explode_version b)) :=
  vercmp_loop_ranks _ _

theorem sign_sub (ea eb : Int) : (ea - eb).sign = cmp_int ea eb := by
  rcases lt_trichotomy ea eb with h | rfl | h
  · rw [cmp_int_of_lt h, Int.sign_eq_neg_one_of_neg (by omega)]
  · rw [cmp_int_self, Int.sub_self, Int.sign_zero]
  · rw [cmp_int_of_gt h, Int.sign_eq_one_of_pos (by omega)]

theorem vercmp_key {ta tb : Version} {ea eb : Int} (ha : epoch ta.pe = some ea) (hb : epoch tb.pe = some eb) :
    ∃ r, vercmp ta tb = some r ∧ r.sign = cmp_int (version_key ea ta) (version_key eb tb) := by
  unfold vercmp
  rw [ha, hb]
  refine ⟨_, rfl, ?_⟩
  unfold version_key
  rw [cmp_int_pair, cmp_int_pair, ← sign_sub, ← vercmp_part_ranks, ← vercmp_part_ranks]
  by_cases hepoch : ea - eb = 0
  · rw [if_pos hepoch, hepoch, Int.sign_zero, if_pos rfl]
    split
    · rw [vercmp_part_ranks, cmp_int_sign]
    · rw [vercmp_part_ranks, cmp_int_sign]
  · rw [if_neg hepoch, if_neg hepoch, if_neg (by simpa [Int.sign_eq_zero_iff_zero] using hepoch)]

theorem vercmp_some {ta tb : Version} {r : Int} (h : vercmp ta tb = some r) :
    ∃ ea eb, epoch ta.pe = some ea ∧ epoch tb.pe = some eb ∧
      r.sign = cmp_int (version_key ea ta) (version_key eb tb) := by
  cases ha : epoch ta.pe with
  | none =>
    rw [vercmp, ha] at h
    cases h
  | some ea =>
    cases hb : epoch tb.pe with
    | none =>
      rw [vercmp, ha, hb] at h
      cases h
    | some eb =>
      obtain ⟨r', hr', hsign⟩ := vercmp_key ha hb
      rw [h] at hr'
      obtain rfl := Option.some.inj hr'
      exact ⟨ea, eb, rfl, rfl, hsign⟩

/-- The sign says which one of two values comes first, and is that of a total preorder on the values
that are meant: each is as itself, what is before a second one and that before a third is before the
third, and a value may be replaced by one that it is as. -/
structure TotalPreorder {α : Type} (compare : α → α → Option Int) (meant : α → Prop) : Prop where
  ends : ∀ a b, meant a → meant b → ∃ r, compare a b = some r
  refl : ∀ a, meant a → compare a a = some 0
  swap : ∀ a b r, compare a b = some r → ∃ r', compare b a = some r' ∧ r'.sign = -r.sign
  trans : ∀ a b c r r', compare a b = some r → compare b c = some r' → r ≤ 0 → r' ≤ 0 →
    ∃ r'', compare a c = some r'' ∧ r'' ≤ 0
  congr : ∀ a b c r, compare a b = some 0 → compare b c = some r →
    ∃ r', compare a c = some r' ∧ r'.sign = r.sign

theorem sign_nonpos {r : Int} : r.sign ≤ 0 ↔ r ≤ 0 := by
  rcases lt_trichotomy r 0 with h | rfl | h
  · simp [Int.sign_eq_neg_one_of_neg h, h.le]
  · simp
  · simp [Int.sign_eq_one_of_pos h, h]

theorem vercmp_total_preorder : TotalPreorder vercmp Version.Proper where
  ends a b ha hb := by
    obtain ⟨ea, ha⟩ := Option.isSome_iff_exists.mp ha.epoch
    obtain ⟨eb, hb⟩ := Option.isSome_iff_exists.mp hb.epoch
    obtain ⟨r, hr, _⟩ := vercmp_key ha hb
    exact ⟨r, hr⟩
  refl a ha := by
    obtain ⟨ea, ha⟩ := Option.isSome_iff_exists.mp ha.epoch
    obtain ⟨r, hr, hsign⟩ := vercmp_key ha ha
    rw [cmp_int_self, Int.sign_eq_zero_iff_zero] at hsign
    rw [hr, hsign]
  swap a b r h := by
    obtain ⟨ea, eb, ha, hb, hsign⟩ := vercmp_some h
    obtain ⟨r', hr', hsign'⟩ := vercmp_key hb ha
    exact ⟨r', hr', by rw [hsign', hsign, cmp_int_swap]⟩
  trans a b c r r' h h' hle hle' := by
    obtain ⟨ea, eb, ha, hb, hsign⟩ := vercmp_some h
    obtain ⟨eb', ec, hb', hc, hsign'⟩ := vercmp_some h'
    obtain rfl : eb = eb' := Option.some.inj (hb.symm.trans hb')
    obtain ⟨r'', hr'', hsign''⟩ := vercmp_key ha hc
    refine ⟨r'', hr'', sign_nonpos.mp ?_⟩
    rw [← sign_nonpos, hsign, cmp_int_nonpos] at hle
    rw [← sign_nonpos, hsign', cmp_int_nonpos] at hle'
    rw [hsign'', cmp_int_nonpos]
    exact hle.trans hle'
  congr a b c r h h' := by
    obtain ⟨ea, eb, ha, hb, hsign⟩ := vercmp_some h
    obtain ⟨eb', ec, hb', hc, hsign'⟩ := vercmp_some h'
    obtain rfl : eb = eb' := Option.some.inj (hb.symm.trans hb')
    obtain ⟨r', hr', hsign''⟩ := vercmp_key ha hc
    have hsame := cmp_int_eq_zero.mp (hsign.symm.trans Int.sign_zero)
    exact ⟨r', hr', by rw [hsign'', hsame, hsign']⟩

theorem vercmp_of_part {t : Version} (ht : t.Proper) {pv : Text} {r : Int} (hr : r ≠ 0)
    (h : vercmp_part t.pv pv = r) : vercmp t { t with pv } = some r := by
  obtain ⟨e, he⟩ := Option.isSome_iff_exists.mp ht.epoch
  simp [vercmp, he, h, hr]

/-- `vercmp` gives a total preorder. A version comes behind itself with `~` and more, before itself
with a word, and before itself with digits unless these are zeros behind a number that is zero. -/
theorem vercmp_orders_versions :
    TotalPreorder vercmp Version.Proper ∧
    ∀ t : Version, t.Proper →
      (∀ x, '\n' ∉ x → vercmp { t with pv := t.pv ++ '~' :: x } t = some (-1)) ∧
      (∀ g, g ≠ [] → (∀ c ∈ g, ascii_letter c) → vercmp t { t with pv := t.pv ++ g } = some (-1)) ∧
      ∀ g, g ≠ [] → (∀ c ∈ g, decimal c) → ¬ZerosBehindZero t.pv g →
        vercmp t { t with pv := t.pv ++ g } = some (-1) := by
  refine ⟨vercmp_total_preorder, fun t ht => ⟨fun x _ => ?_, fun g hne hg => ?_, fun g hne hg hnot => ?_⟩⟩
  · obtain ⟨e, he⟩ := Option.isSome_iff_exists.mp ht.epoch
    simp [vercmp, he, vercmp_part_tilde]
  · exact vercmp_of_part ht (by simp) (vercmp_part_letters t.pv hne hg)
  · exact vercmp_of_part ht (by simp) ((vercmp_part_digits t.pv hne hg).2 hnot)

theorem a_candidate_is_earlier :
    vercmp ⟨[], text "1" ++ '~' :: text "rc", []⟩ ⟨[], text "1", []⟩ = some (-1) :=
  (vercmp_orders_versions.2 ⟨[], text "1", []⟩ ⟨by decide, by decide, by decide⟩).1 (text "rc") (by decide)

/-- A zero behind a zero makes no difference. -/
theorem zero_behind_zero_is_no_later_version :
    (⟨[], text "1.0", []⟩ : Version).Proper ∧ (∀ c ∈ text "0", decimal c) ∧
      vercmp ⟨[], text "1.0", []⟩ ⟨[], text "1.0" ++ text "0", []⟩ = some 0 := by
  refine ⟨⟨by decide, by decide, by decide⟩, by simp [text, decimal, decimal_value, zeros], ?_⟩
  have hzero : explode_version (text "1.0") = [.number 1, .other '.'] ++ [.number 0] := by
    simp [explode_version, text, ascii_digit, ascii_letter, decimal, decimal_value, zeros, digits_value]
  have hpart := (vercmp_part_digits (text "1.0") (by simp [text]) (g := text "0")
    (by simp [text, decimal, decimal_value, zeros])).1
    ⟨⟨_, hzero⟩, by simp [text, decimal_value, zeros]⟩
  have hnothing : vercmp_part [] [] = 0 := by
    rw [vercmp_part_ranks]
    exact cmp_int_self _
  simp [vercmp, epoch, hpart, hnothing]

end yocto.versions
