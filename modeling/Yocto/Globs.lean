-- Matching a name with a shell pattern (fnmatch.fnmatchcase). The pattern is read
-- into items, and one without special characters matches no name but itself.
import Yocto.TaskIds

open yocto.task_ids

namespace yocto.globs

/-- A part of a pattern. -/
inductive Item
  | any_text
  | any_char
  | one_of (negated : Bool) (ranges : List (Char × Char))
  | char (c : Char)

/-- The ranges between the brackets. A character alone is a range of one. -/
def set_ranges : Text → List (Char × Char)
  | lo :: '-' :: hi :: rest => (lo, hi) :: set_ranges rest
  | c :: rest => (c, c) :: set_ranges rest
  | [] => []

/-- How long the set behind an opening bracket is, when a closing bracket follows. A closing bracket
at its start is a member. -/
def set_length (p : Text) : Option Nat :=
  let n := if p.head? = some '!' then 1 else 0
  let n := if (p.drop n).head? = some ']' then n + 1 else n
  let n := n + ((p.drop n).takeWhile (· ≠ ']')).length
  if n < p.length then some n else none

def read_set (stuff : Text) : Item :=
  if stuff.head? = some '!' then .one_of true (set_ranges stuff.tail) else .one_of false (set_ranges stuff)

/-- The items of a pattern, without its first `skip` characters. -/
def items : Nat → Text → List Item
  | _, [] => []
  | skip + 1, _ :: p => items skip p
  | 0, c :: p =>
    if c = '*' then .any_text :: items 0 p
    else if c = '?' then .any_char :: items 0 p
    else if c = '[' then
      match set_length p with
      | some n => read_set (p.take n) :: items (n + 1) p
      | none => .char c :: items 0 p
    else .char c :: items 0 p

def accepts : List Item → Text → Bool
  | [], name => name.isEmpty
  | .any_text :: p, name => name.tails.any (accepts p)
  | .any_char :: p, name => name ≠ [] && accepts p name.tail
  | .one_of negated ranges :: p, name =>
    name.head?.any (fun c => negated != ranges.any fun r => decide (r.1 ≤ c ∧ c ≤ r.2)) && accepts p name.tail
  | .char c :: p, name => decide (name.head? = some c) && accepts p name.tail

def fnmatch (name pat : Text) : Bool := accepts (items 0 pat) name

def is_special (c : Char) : Bool := c = '*' || c = '?' || c = '['

theorem items_plain {pat : Text} (h : ∀ c ∈ pat, is_special c = false) : items 0 pat = pat.map .char := by
  induction pat with
  | nil => rfl
  | cons c pat ih =>
    rw [List.forall_mem_cons] at h
    have hc := h.1
    simp only [is_special, Bool.or_eq_false_iff, decide_eq_false_iff_not] at hc
    simp [items, hc, ih h.2]

theorem accepts_chars (pat name : Text) : accepts (pat.map .char) name = decide (name = pat) := by
  induction pat generalizing name with
  | nil => cases name <;> simp [accepts]
  | cons c pat ih =>
    rw [List.map_cons, accepts, ih]
    cases name with
    | nil => simp
    | cons d name =>
      rw [Bool.eq_iff_iff, Bool.and_eq_true, decide_eq_true_iff, decide_eq_true_iff, decide_eq_true_iff]
      simp

theorem fnmatch_plain {pat : Text} (h : ∀ c ∈ pat, is_special c = false) (name : Text) :
    fnmatch name pat = decide (name = pat) := by
  rw [fnmatch, items_plain h, accepts_chars]

example : fnmatch "meta-oe".toList "meta-*".toList = true ∧ fnmatch "b".toList "[!a-c]".toList = false := by
  decide

/-! ## Patterns and their parts -/

/-- The characters that an item accepts which is no asterisk. -/
def takes : Item → Char → Bool
  | .any_text, _ => false
  | .any_char, _ => true
  | .one_of negated ranges, c => negated != ranges.any fun r => decide (r.1 ≤ c ∧ c ≤ r.2)
  | .char d, c => decide (c = d)

theorem accepts_cons {item : Item} (h : item ≠ .any_text) (p : List Item) (name : Text) :
    accepts (item :: p) name = true ↔ ∃ c rest, name = c :: rest ∧ takes item c = true ∧ accepts p rest = true := by
  cases name with
  | nil => cases item <;> simp_all [accepts]
  | cons c name => cases item <;> simp_all [accepts, takes]

theorem accepts_any_text (p : List Item) (name : Text) :
    accepts (.any_text :: p) name = true ↔ ∃ front rest, name = front ++ rest ∧ accepts p rest = true := by
  simp only [accepts, List.any_eq_true, List.mem_tails]
  constructor
  · rintro ⟨rest, ⟨front, rfl⟩, h⟩
    exact ⟨front, rest, rfl, h⟩
  · rintro ⟨front, rest, rfl, h⟩
    exact ⟨rest, List.suffix_append _ _, h⟩

theorem accepts_append (p q : List Item) (name : Text) :
    accepts (p ++ q) name = true ↔ ∃ a b, name = a ++ b ∧ accepts p a = true ∧ accepts q b = true := by
  induction p generalizing name with
  | nil =>
    constructor
    · exact fun h => ⟨[], name, rfl, rfl, h⟩
    · rintro ⟨a, b, rfl, ha, hb⟩
      rw [accepts, List.isEmpty_iff] at ha
      rw [ha]
      exact hb
  | cons item p ih =>
    by_cases hitem : item = .any_text
    · rw [hitem, List.cons_append, accepts_any_text]
      simp only [accepts_any_text, ih]
      constructor
      · rintro ⟨front, _, rfl, a, b, rfl, ha, hb⟩
        exact ⟨front ++ a, b, (List.append_assoc _ _ _).symm, ⟨front, a, rfl, ha⟩, hb⟩
      · rintro ⟨_, b, rfl, ⟨front, a, rfl, ha⟩, hb⟩
        exact ⟨front, a ++ b, List.append_assoc _ _ _, a, b, rfl, ha, hb⟩
    · rw [List.cons_append, accepts_cons hitem]
      simp only [accepts_cons hitem, ih]
      constructor
      · rintro ⟨c, _, rfl, hc, a, b, rfl, ha, hb⟩
        exact ⟨c :: a, b, rfl, ⟨c, a, rfl, hc, ha⟩, hb⟩
      · rintro ⟨_, b, rfl, ⟨c, a, rfl, hc, ha⟩, hb⟩
        exact ⟨c, a ++ b, rfl, hc, a, b, rfl, ha, hb⟩

theorem items_append {p : Text} (h : '[' ∉ p) (q : Text) : items 0 (p ++ q) = items 0 p ++ items 0 q := by
  induction p with
  | nil => rfl
  | cons c p ih =>
    rw [List.mem_cons, not_or] at h
    rw [List.cons_append, items, items, if_neg (Ne.symm h.1), if_neg (Ne.symm h.1), ih h.2]
    split
    · rfl
    · split <;> rfl

theorem fnmatch_append {p q a b : Text} (h : '[' ∉ p) (hp : fnmatch a p = true) (hq : fnmatch b q = true) :
    fnmatch (a ++ b) (p ++ q) = true := by
  rw [fnmatch, items_append h, accepts_append]
  exact ⟨a, b, rfl, hp, hq⟩

theorem fnmatch_self {p : Text} (h : '[' ∉ p) : fnmatch p p = true := by
  induction p with
  | nil => rfl
  | cons c p ih =>
    rw [List.mem_cons, not_or] at h
    refine fnmatch_append (p := [c]) (a := [c]) (by simpa using h.1) ?_ (ih h.2)
    by_cases hstar : c = '*'
    · rw [hstar]
      decide
    by_cases hmark : c = '?'
    · rw [hmark]
      decide
    · simp [fnmatch, items, hstar, hmark, Ne.symm h.1, accepts]

/-! ## Parts that are read as themselves -/

/-- A part of a pattern, with what stands behind it, that is read as itself. It has no asterisk
and no question mark, and none of its opening brackets is closed. -/
def Literal (p rest : Text) : Prop :=
  ∀ u c v, p = u ++ c :: v → c ≠ '*' ∧ c ≠ '?' ∧ (c = '[' → set_length (v ++ rest) = none)

theorem Literal.append {p x rest : Text} (hp : Literal p (x ++ rest)) (hx : Literal x rest) :
    Literal (p ++ x) rest := by
  intro u c v heq
  rcases List.append_eq_append_iff.mp heq with ⟨w, rfl, hw⟩ | ⟨w, rfl, hw⟩
  · exact hx w c v hw
  · cases w with
    | nil => exact hx [] c v hw.symm
    | cons d w =>
      obtain ⟨rfl, hv⟩ := List.cons.inj hw
      have hv : v ++ rest = w ++ (x ++ rest) := by
        rw [hv]
        exact List.append_assoc _ _ _
      rw [hv]
      exact hp u c w rfl

theorem literal_of_plain {p : Text} (h : ∀ c ∈ p, is_special c = false) (rest : Text) : Literal p rest := by
  rintro u c v rfl
  have hc := h c (by simp)
  unfold is_special at hc
  simp only [Bool.or_eq_false_iff, decide_eq_false_iff_not] at hc
  exact ⟨hc.1.1, hc.1.2, fun heq => absurd heq hc.2⟩

/-- Where the members of a set are searched for its end. -/
def set_start (p : Text) : Nat :=
  let n := if p.head? = some '!' then 1 else 0
  if (p.drop n).head? = some ']' then n + 1 else n

theorem set_length_eq_none {p : Text} : set_length p = none ↔ ']' ∉ p.drop (set_start p) := by
  have htake : ∀ s : Text, (s.takeWhile (· ≠ ']')).length < s.length ↔ ']' ∈ s := by
    intro s
    induction s with
    | nil => simp
    | cons c s ih =>
      by_cases hc : c = ']'
      · simp [hc]
      · simp only [ne_eq, decide_not, List.length_cons, List.mem_cons] at ih ⊢
        rw [List.takeWhile_cons_of_pos (by simpa using hc), List.length_cons, Nat.succ_lt_succ_iff, ih]
        simp [Ne.symm hc]
  have hlength : set_length p = if set_start p + ((p.drop (set_start p)).takeWhile (· ≠ ']')).length < p.length
      then some (set_start p + ((p.drop (set_start p)).takeWhile (· ≠ ']')).length) else none := rfl
  have hdrop : (p.drop (set_start p)).length = p.length - set_start p := List.length_drop
  have htake := htake (p.drop (set_start p))
  rw [hlength, ite_eq_right_iff, ← htake, hdrop]
  simp only [reduceCtorEq, imp_false, not_lt]
  omega

theorem set_start_append {p : Text} (h : 2 ≤ p.length) (w : Text) : set_start (p ++ w) = set_start p := by
  obtain ⟨a, b, p, rfl⟩ : ∃ a b p', p = a :: b :: p' := by
    match p, h with
    | a :: b :: p, _ => exact ⟨a, b, p, rfl⟩
  by_cases ha : a = '!' <;> simp [set_start, ha]

theorem set_start_le (p : Text) : set_start p ≤ 2 := by
  unfold set_start
  dsimp only
  split <;> split <;> omega

theorem set_length_insert {p m w : Text} (hp : 2 ≤ p.length) (hm : ']' ∉ m) (h : set_length (p ++ w) = none) :
    set_length (p ++ (m ++ w)) = none := by
  have hle := (set_start_le p).trans hp
  rw [set_length_eq_none, set_start_append hp, List.drop_append_of_le_length hle, List.mem_append, not_or] at h ⊢
  refine ⟨h.1, ?_⟩
  rw [List.mem_append, not_or]
  exact ⟨hm, h.2⟩

theorem items_literal {p rest : Text} (h : Literal p rest) : items 0 (p ++ rest) = p.map .char ++ items 0 rest := by
  induction p with
  | nil => rfl
  | cons c p ih =>
    obtain ⟨hstar, hmark, hbracket⟩ := h [] c p rfl
    have htail : Literal p rest := fun u d v heq => h (c :: u) d v (by rw [heq, List.cons_append])
    rw [List.cons_append, items, if_neg hstar, if_neg hmark, ih htail]
    split
    · rename_i hc
      rw [hbracket hc]
      rfl
    · rfl

theorem fnmatch_literal {p : Text} (h : Literal p []) (name : Text) : fnmatch name p = decide (name = p) := by
  have hitems := items_literal h
  rw [List.append_nil] at hitems
  rw [fnmatch, hitems, items, List.append_nil, accepts_chars]

theorem fnmatch_star {p q : Text} (hp : Literal p ('*' :: q)) (hq : Literal q []) (name : Text) :
    fnmatch name (p ++ '*' :: q) = true ↔ ∃ mid, name = p ++ (mid ++ q) := by
  have hitems := items_literal hq
  rw [List.append_nil, items, List.append_nil] at hitems
  rw [fnmatch, items_literal hp, items, if_pos rfl, hitems, accepts_append]
  simp only [accepts_any_text, accepts_chars, decide_eq_true_eq]
  constructor
  · rintro ⟨_, _, rfl, rfl, mid, _, rfl, rfl⟩
    exact ⟨mid, rfl⟩
  · rintro ⟨mid, rfl⟩
    exact ⟨p, mid ++ q, rfl, rfl, mid, q, rfl, rfl⟩

end yocto.globs
