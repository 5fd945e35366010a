-- JSON as the `json` module of Python writes and reads it.
import Mathlib.Data.List.DropRight
import Yocto.TaskIds

open yocto.task_ids

namespace yocto.json

/-! ## Numbers -/

/-- `0|[1-9]\d*`. -/
def match_whole : Text → Option (Text × Text)
  | [] => none
  | c :: l =>
    if c = '0' then some ([c], l)
    else if c.isDigit then some (c :: l.takeWhile Char.isDigit, l.dropWhile Char.isDigit)
    else none

def match_sign : Text → Text × Text
  | [] => ([], [])
  | c :: l => if c = '-' ∨ c = '+' then ([c], l) else ([], c :: l)

/-- `\d+` after what has been matched, or nothing at all. -/
def match_digits (matched unmatched l : Text) : Text × Text :=
  if l.takeWhile Char.isDigit = [] then ([], unmatched)
  else (matched ++ l.takeWhile Char.isDigit, l.dropWhile Char.isDigit)

/-- `(\.\d+)?`. -/
def match_fraction : Text → Text × Text
  | [] => ([], [])
  | c :: l => if c = '.' then match_digits [c] (c :: l) l else ([], c :: l)

/-- `([eE][-+]?\d+)?`. -/
def match_exponent : Text → Text × Text
  | [] => ([], [])
  | c :: l =>
    if c = 'e' ∨ c = 'E' then match_digits (c :: (match_sign l).1) (c :: l) (match_sign l).2
    else ([], c :: l)

/-- `NUMBER_RE.match`, with what follows the match. -/
def match_number (l : Text) : Option (Text × Text) :=
  let (minus, l) := if l.head? = some '-' then (['-'], l.tail) else ([], l)
  match match_whole l with
  | none => none
  | some (whole, l) =>
    let (fraction, l) := match_fraction l
    let (exponent, l) := match_exponent l
    some (minus ++ whole ++ fraction ++ exponent, l)

structure Number where
  literal : Text
  matches_ : match_number literal = some (literal, [])
  deriving DecidableEq

/-- The number is zero, which is false in a condition. -/
def Number.isZero (x : Number) : Bool :=
  (x.literal.takeWhile fun c => c ≠ 'e' ∧ c ≠ 'E').all fun c => !c.isDigit || c == '0'

/-- A character that can stand in a number. -/
def numeric (c : Char) : Bool :=
  c.isDigit || c == '.' || c == 'e' || c == 'E' || c == '+' || c == '-'

/-- What follows does not carry a number on. -/
def Ends (rest : Text) : Prop := ∀ c ∈ rest.head?, numeric c = false

theorem Ends.nil : Ends [] := by simp [Ends]

theorem Ends.cons {c : Char} (h : numeric c = false) (rest : Text) : Ends (c :: rest) := by
  simpa [Ends] using h

theorem Ends.isDigit {rest : Text} (h : Ends rest) : ∀ c ∈ rest.head?, c.isDigit = false := by
  intro c hc
  have := h c hc
  simp [numeric] at this
  simp [this]

theorem takeWhile_append_of_ends {p : Char → Bool} {rest : Text}
    (h : ∀ c ∈ rest.head?, p c = false) (l : Text) :
    (l ++ rest).takeWhile p = l.takeWhile p := by
  induction l with
  | nil => cases rest <;> simp_all
  | cons x xs ih => simp only [List.cons_append, List.takeWhile_cons, ih]

theorem dropWhile_append_of_ends {p : Char → Bool} {rest : Text}
    (h : ∀ c ∈ rest.head?, p c = false) (l : Text) :
    (l ++ rest).dropWhile p = l.dropWhile p ++ rest := by
  induction l with
  | nil => cases rest <;> simp_all
  | cons x xs ih =>
    simp only [List.cons_append, List.dropWhile_cons, ih]
    split <;> simp

theorem match_whole_append {rest l whole l' : Text} (h : Ends rest)
    (hl : match_whole l = some (whole, l')) :
    match_whole (l ++ rest) = some (whole, l' ++ rest) := by
  cases l with
  | nil => simp [match_whole] at hl
  | cons c l =>
    simp only [match_whole, List.cons_append, takeWhile_append_of_ends h.isDigit,
      dropWhile_append_of_ends h.isDigit] at hl ⊢
    split at hl
    · simp_all
    · split at hl <;> simp_all

theorem match_sign_append {rest : Text} (h : Ends rest) (l : Text) :
    match_sign (l ++ rest) = ((match_sign l).1, (match_sign l).2 ++ rest) := by
  cases l with
  | nil =>
    cases rest with
    | nil => simp [match_sign]
    | cons c rest =>
      have := h c (by simp)
      simp [numeric] at this
      simp [match_sign, this]
  | cons c l =>
    simp only [match_sign, List.cons_append]
    split <;> simp

theorem match_digits_append {rest : Text} (h : Ends rest) (matched unmatched l : Text) :
    match_digits matched (unmatched ++ rest) (l ++ rest) =
      ((match_digits matched unmatched l).1, (match_digits matched unmatched l).2 ++ rest) := by
  simp only [match_digits, takeWhile_append_of_ends h.isDigit, dropWhile_append_of_ends h.isDigit]
  split <;> simp

theorem match_fraction_append {rest : Text} (h : Ends rest) (l : Text) :
    match_fraction (l ++ rest) = ((match_fraction l).1, (match_fraction l).2 ++ rest) := by
  cases l with
  | nil =>
    cases rest with
    | nil => simp [match_fraction]
    | cons c rest =>
      have := h c (by simp)
      simp [numeric] at this
      simp [match_fraction, this]
  | cons c l =>
    simp only [match_fraction, List.cons_append]
    split
    · simpa using match_digits_append h [c] (c :: l) l
    · simp

theorem match_exponent_append {rest : Text} (h : Ends rest) (l : Text) :
    match_exponent (l ++ rest) = ((match_exponent l).1, (match_exponent l).2 ++ rest) := by
  cases l with
  | nil =>
    cases rest with
    | nil => simp [match_exponent]
    | cons c rest =>
      have := h c (by simp)
      simp [numeric] at this
      simp [match_exponent, this]
  | cons c l =>
    simp only [match_exponent, List.cons_append, match_sign_append h]
    split
    · simpa using match_digits_append h (c :: (match_sign l).1) (c :: l) (match_sign l).2
    · simp

theorem match_number_append {rest : Text} (h : Ends rest) (x : Number) :
    match_number (x.literal ++ rest) = some (x.literal, rest) := by
  have hx := x.matches_
  have hminus : ((x.literal ++ rest).head? = some '-') = (x.literal.head? = some '-') := by
    cases x.literal with
    | nil =>
      cases rest with
      | nil => rfl
      | cons c rest =>
        have := h c (by simp)
        simp [numeric] at this
        simp [this]
    | cons c l => simp
  have htail : x.literal.head? = some '-' → (x.literal ++ rest).tail = x.literal.tail ++ rest := by
    cases x.literal <;> simp
  generalize x.literal = literal at hx hminus htail ⊢
  unfold match_number at hx ⊢
  simp only [hminus]
  split_ifs at hx ⊢ with hm
  · rw [htail hm]
    dsimp only at hx ⊢
    split at hx
    · exact absurd hx (by simp)
    · rename_i whole l hwhole
      rw [match_whole_append h hwhole]
      simp only [match_fraction_append h, match_exponent_append h]
      simp_all
  · dsimp only at hx ⊢
    split at hx
    · exact absurd hx (by simp)
    · rename_i whole l hwhole
      rw [match_whole_append h hwhole]
      simp only [match_fraction_append h, match_exponent_append h]
      simp_all

theorem Number.literal_cons (x : Number) :
    ∃ c l, x.literal = c :: l ∧ (c.isDigit = true ∨ c = '-') := by
  have hx := x.matches_
  cases hl : x.literal with
  | nil => simp [hl, match_number, match_whole] at hx
  | cons c l =>
    refine ⟨c, l, rfl, ?_⟩
    by_cases hc : c = '-'
    · exact Or.inr hc
    · left
      simp only [hl, match_number, List.head?_cons, Option.some.injEq, hc, ↓reduceIte,
        match_whole] at hx
      by_cases h0 : c = '0'
      · rw [h0]; decide
      · by_contra hd
        simp [h0, hd] at hx

theorem numeric_digits {l : Text} : ∀ c ∈ l.takeWhile Char.isDigit, numeric c = true := by
  intro c hc
  simp [numeric, List.mem_takeWhile_imp hc]

theorem match_digits_numeric {matched : Text} (h : ∀ c ∈ matched, numeric c = true)
    (unmatched l : Text) : ∀ c ∈ (match_digits matched unmatched l).1, numeric c = true := by
  intro c hc
  unfold match_digits at hc
  split at hc
  · simp at hc
  · rcases List.mem_append.mp hc with hc | hc
    · exact h c hc
    · exact numeric_digits c hc

theorem match_sign_numeric (l : Text) : ∀ c ∈ (match_sign l).1, numeric c = true := by
  intro c hc
  cases l with
  | nil => simp [match_sign] at hc
  | cons x l =>
    simp only [match_sign] at hc
    split at hc
    · simp only [List.mem_singleton] at hc
      subst hc
      rename_i hsign
      rcases hsign with rfl | rfl <;> decide
    · simp at hc

theorem match_whole_numeric {l whole l' : Text} (h : match_whole l = some (whole, l')) :
    ∀ c ∈ whole, numeric c = true := by
  intro c hc
  cases l with
  | nil => simp [match_whole] at h
  | cons x l =>
    simp only [match_whole] at h
    split_ifs at h with h0 hd
    · simp only [Option.some.injEq, Prod.mk.injEq] at h
      rw [← h.1, List.mem_singleton] at hc
      subst hc h0
      decide
    · simp only [Option.some.injEq, Prod.mk.injEq] at h
      rw [← h.1, List.mem_cons] at hc
      rcases hc with rfl | hc
      · simp [numeric, hd]
      · exact numeric_digits c hc

theorem match_fraction_numeric (l : Text) : ∀ c ∈ (match_fraction l).1, numeric c = true := by
  intro c hc
  cases l with
  | nil => simp [match_fraction] at hc
  | cons x l =>
    simp only [match_fraction] at hc
    split at hc
    · rename_i hx
      exact match_digits_numeric (by simp [hx, numeric]) _ _ c hc
    · simp at hc

theorem match_exponent_numeric (l : Text) : ∀ c ∈ (match_exponent l).1, numeric c = true := by
  intro c hc
  cases l with
  | nil => simp [match_exponent] at hc
  | cons x l =>
    simp only [match_exponent] at hc
    split at hc
    · rename_i hx
      refine match_digits_numeric (fun d hd => ?_) _ _ c hc
      rcases List.mem_cons.mp hd with rfl | hd
      · rcases hx with rfl | rfl <;> decide
      · exact match_sign_numeric l d hd
    · simp at hc

theorem Number.numeric (x : Number) : ∀ c ∈ x.literal, numeric c = true := by
  have hx := x.matches_
  generalize hm : (if x.literal.head? = some '-' then (['-'], x.literal.tail)
    else ([], x.literal)) = minus at hx
  unfold match_number at hx
  rw [hm] at hx
  have hminus : ∀ c ∈ minus.1, yocto.json.numeric c = true := by
    intro c hc
    rw [← hm] at hc
    split at hc
    · simp only [List.mem_singleton] at hc
      subst hc
      decide
    · simp at hc
  dsimp only at hx
  split at hx
  · exact absurd hx (by simp)
  · rename_i whole l hwhole
    simp only [Option.some.injEq, Prod.mk.injEq] at hx
    intro c hc
    rw [← hx.1] at hc
    simp only [List.mem_append] at hc
    rcases hc with ((hc | hc) | hc) | hc
    · exact hminus c hc
    · exact match_whole_numeric hwhole c hc
    · exact match_fraction_numeric _ c hc
    · exact match_exponent_numeric _ c hc

theorem Number.no_space (x : Number) : ' ' ∉ x.literal := by
  intro h
  exact absurd (x.numeric _ h) (by decide)

/-! ## String literals -/

def hexDigit (n : Nat) : Char := (text "0123456789abcdef").getD n '0'

def hexValue (c : Char) : Option Nat := (text "0123456789abcdef").findIdx? (· = c.toLower)

/-- `'\\u{0:04x}'.format(n)`. -/
def u_escape (n : Nat) : Text :=
  ['\\', 'u', hexDigit (n / 4096 % 16), hexDigit (n / 256 % 16), hexDigit (n / 16 % 16),
    hexDigit (n % 16)]

/-- What `py_encode_basestring_ascii` puts in the place of a character. -/
def escape (c : Char) : Text :=
  if c = '"' then ['\\', '"']
  else if c = '\\' then ['\\', '\\']
  else if c = '\n' then ['\\', 'n']
  else if c = '\r' then ['\\', 'r']
  else if c = '\t' then ['\\', 't']
  else if c = '\x0c' then ['\\', 'f']
  else if c = '\x08' then ['\\', 'b']
  else if ' ' ≤ c ∧ c ≤ '~' then [c]
  else if c.toNat < 0x10000 then u_escape c.toNat
  else u_escape (0xd800 + (c.toNat - 0x10000) / 1024) ++
    u_escape (0xdc00 + (c.toNat - 0x10000) % 1024)

/-- `chr(n)`. A lone surrogate is no `Char`: it is refused. -/
def chr (n : Nat) : Option Char := if n.isValidChar then some (Char.ofNat n) else none

def decode_uXXXX : Text → Option (Nat × Text)
  | a :: b :: c :: d :: l =>
    match hexValue a, hexValue b, hexValue c, hexValue d with
    | some a, some b, some c, some d => some (4096 * a + 256 * b + 16 * c + d, l)
    | _, _, _, _ => none
  | _ => none

/-- What follows `\\u`: two surrogates in a row are one character. -/
def scan_unicode (l : Text) : Option (Char × Text) :=
  match decode_uXXXX l with
  | none => none
  | some (uni, l) =>
    if 0xd800 ≤ uni ∧ uni ≤ 0xdbff ∧ text "\\u" <+: l then
      match decode_uXXXX (l.drop 2) with
      | none => none
      | some (uni2, l2) =>
        if 0xdc00 ≤ uni2 ∧ uni2 ≤ 0xdfff then
          (chr (0x10000 + ((uni - 0xd800) * 1024 + (uni2 - 0xdc00)))).map (·, l2)
        else (chr uni).map (·, l)
    else (chr uni).map (·, l)

def backslash : List (Char × Char) :=
  [('"', '"'), ('\\', '\\'), ('/', '/'), ('b', '\x08'), ('f', '\x0c'), ('n', '\n'), ('r', '\r'),
    ('t', '\t')]

/-- One character of a string literal. Control characters are refused. -/
def scan_char : Text → Option (Char × Text)
  | [] => none
  | c :: l =>
    if c = '\\' then
      match l with
      | [] => none
      | esc :: l => if esc = 'u' then scan_unicode l else (backslash.lookup esc).map (·, l)
    else if c.toNat < 0x20 then none
    else some (c, l)

/-- `scanstring`, from behind the quote that opens the literal. -/
def scanstring : Nat → Text → Option (Text × Text)
  | 0, _ => none
  | n + 1, l =>
    if l.head? = some '"' then some ([], l.tail)
    else match scan_char l with
      | none => none
      | some (c, l) => (scanstring n l).map fun (s, l) => (c :: s, l)

theorem hexValue_hexDigit : ∀ n < 16, hexValue (hexDigit n) = some n := by decide

theorem decode_u_escape {n : Nat} (h : n < 0x10000) (l : Text) :
    decode_uXXXX ((u_escape n).drop 2 ++ l) = some (n, l) := by
  have h1 := hexValue_hexDigit (n / 4096 % 16) (by omega)
  have h2 := hexValue_hexDigit (n / 256 % 16) (by omega)
  have h3 := hexValue_hexDigit (n / 16 % 16) (by omega)
  have h4 := hexValue_hexDigit (n % 16) (by omega)
  simp only [u_escape, List.drop_succ_cons, List.drop_zero, List.cons_append, List.nil_append,
    decode_uXXXX, h1, h2, h3, h4, Option.some.injEq, Prod.mk.injEq, and_true]
  omega

theorem chr_toNat (c : Char) : chr c.toNat = some c := by
  have h : c.toNat.isValidChar := c.valid
  simp [chr, h]

theorem scan_u_escape {c : Char} (h : c.toNat < 0x10000) (l : Text) :
    scan_unicode ((u_escape c.toNat).drop 2 ++ l) = some (c, l) := by
  have hvalid : c.toNat.isValidChar := c.valid
  have hno : ¬(0xd800 ≤ c.toNat ∧ c.toNat ≤ 0xdbff ∧ text "\\u" <+: l) := by
    rintro ⟨h1, h2, -⟩
    simp only [Nat.isValidChar] at hvalid
    omega
  simp only [scan_unicode, decode_u_escape h, hno, ↓reduceIte, chr_toNat, Option.map_some]

theorem scan_surrogates {high low : Nat} (hhigh : 0xd800 ≤ high ∧ high ≤ 0xdbff)
    (hlow : 0xdc00 ≤ low ∧ low ≤ 0xdfff) (l : Text) :
    scan_unicode ((u_escape high).drop 2 ++ (u_escape low ++ l)) =
      (chr (0x10000 + ((high - 0xd800) * 1024 + (low - 0xdc00)))).map (·, l) := by
  have hstart : text "\\u" <+: u_escape low ++ l := by simp [u_escape, text]
  have hdrop : (u_escape low ++ l).drop 2 = (u_escape low).drop 2 ++ l := by simp [u_escape]
  have hcond : 0xd800 ≤ high ∧ high ≤ 0xdbff ∧ text "\\u" <+: u_escape low ++ l :=
    ⟨hhigh.1, hhigh.2, hstart⟩
  unfold scan_unicode
  rw [decode_u_escape (by omega)]
  simp only [hcond, hdrop, decode_u_escape (show low < 0x10000 by omega), hlow]
  simp

theorem scan_u_escapes {c : Char} (h : ¬c.toNat < 0x10000) (l : Text) :
    scan_unicode ((u_escape (0xd800 + (c.toNat - 0x10000) / 1024)).drop 2 ++
      (u_escape (0xdc00 + (c.toNat - 0x10000) % 1024) ++ l)) = some (c, l) := by
  have hvalid : c.toNat.isValidChar := c.valid
  have hlt : c.toNat < 0x110000 := by
    simp only [Nat.isValidChar] at hvalid
    omega
  generalize hhigh : 0xd800 + (c.toNat - 0x10000) / 1024 = high
  generalize hlow : 0xdc00 + (c.toNat - 0x10000) % 1024 = low
  have hsum : 0x10000 + ((high - 0xd800) * 1024 + (low - 0xdc00)) = c.toNat := by omega
  rw [scan_surrogates (by omega) (by omega), hsum, chr_toNat, Option.map_some]

theorem scan_char_escape (c : Char) (l : Text) : scan_char (escape c ++ l) = some (c, l) := by
  unfold escape
  split_ifs with h1 h2 h3 h4 h5 h6 h7 h8 h9
  · simp [h1, scan_char, backslash]
  · simp [h2, scan_char, backslash, List.lookup_cons]
  · simp [h3, scan_char, backslash, List.lookup_cons]
  · simp [h4, scan_char, backslash, List.lookup_cons]
  · simp [h5, scan_char, backslash, List.lookup_cons]
  · simp [h6, scan_char, backslash, List.lookup_cons]
  · simp [h7, scan_char, backslash, List.lookup_cons]
  · have : ¬c.toNat < 0x20 := by
      have := h8.1
      rw [Char.le_def, UInt32.le_iff_toNat_le] at this
      simpa using this
    simp [scan_char, h2, this]
  · have := scan_u_escape h9 l
    simpa [u_escape, scan_char] using this
  · have := scan_u_escapes h9 l
    simpa [u_escape, scan_char] using this

@[simp] theorem escape_space : escape ' ' = [' '] := by decide

theorem escape_head (c : Char) (l : Text) : (escape c ++ l).head? ≠ some '"' := by
  unfold escape
  split_ifs with h1 <;> simp_all [u_escape]

theorem escape_ne_nil (c : Char) : escape c ≠ [] := by
  unfold escape
  split_ifs <;> simp [u_escape]

theorem escape_printable (c : Char) : ∀ x ∈ escape c, ' ' ≤ x ∧ x ≤ '~' := by
  have hdigit : ∀ n < 16, ' ' ≤ hexDigit n ∧ hexDigit n ≤ '~' := by decide
  have hu : ∀ n, ∀ x ∈ u_escape n, ' ' ≤ x ∧ x ≤ '~' := by
    intro n x hx
    simp only [u_escape, List.mem_cons, List.not_mem_nil, or_false] at hx
    rcases hx with rfl | rfl | rfl | rfl | rfl | rfl
    · decide
    · decide
    all_goals exact hdigit _ (by omega)
  unfold escape
  intro x hx
  split_ifs at hx with h1 h2 h3 h4 h5 h6 h7 h8 h9
  all_goals try (simp only [List.mem_cons, List.not_mem_nil, or_false] at hx)
  all_goals try (rcases hx with rfl | rfl <;> decide)
  · rw [hx]
    exact h8
  · exact hu _ x hx
  · rcases List.mem_append.mp hx with hx | hx
    · exact hu _ x hx
    · exact hu _ x hx

theorem space_mem_escape {c : Char} (h : ' ' ∈ escape c) : c = ' ' := by
  have hdigit : ∀ n < 16, ' ' ≠ hexDigit n := by decide
  have hu : ∀ n, ' ' ∉ u_escape n := by
    intro n hn
    simp only [u_escape, List.mem_cons, List.not_mem_nil, or_false] at hn
    rcases hn with hn | hn | hn | hn | hn | hn
    · exact absurd hn (by decide)
    · exact absurd hn (by decide)
    all_goals exact hdigit _ (by omega) hn
  unfold escape at h
  split_ifs at h with h1 h2 h3 h4 h5 h6 h7 h8 h9
  all_goals try (exact absurd h (by decide))
  · simpa [eq_comm] using h
  · exact absurd h (hu _)
  · exact absurd h (by simp [hu])

theorem scanstring_escape (s rest : Text) :
    ∀ n, s.length < n → scanstring n (s.flatMap escape ++ '"' :: rest) = some (s, rest) := by
  induction s with
  | nil =>
    intro n hn
    obtain ⟨n, rfl⟩ : ∃ k, n = k + 1 := ⟨n - 1, by omega⟩
    simp [scanstring]
  | cons c s ih =>
    intro n hn
    obtain ⟨n, rfl⟩ : ∃ k, n = k + 1 := ⟨n - 1, by omega⟩
    simp only [List.flatMap_cons, List.append_assoc, scanstring, escape_head, ↓reduceIte,
      scan_char_escape]
    rw [ih n (by simpa using hn)]
    rfl

/-! ## Values -/

mutual
inductive Json
  | null
  | bool (b : Bool)
  | number (x : Number)
  | str (s : Text)
  | list (items : Items)
  | dict (fields : Fields)

inductive Items
  | nil
  | cons (v : Json) (items : Items)

/-- The keys of a dictionary with their values, in the order in which they were put in. -/
inductive Fields
  | nil
  | cons (key : Text) (v : Json) (fields : Fields)
end

deriving instance DecidableEq for Json, Items, Fields

@[elab_as_elim, induction_eliminator]
theorem Fields.induction {motive : Fields → Prop} (nil : motive .nil)
    (cons : ∀ key v fields, motive fields → motive (.cons key v fields)) : ∀ fields, motive fields
  | .nil => nil
  | .cons key v fields => cons key v fields (Fields.induction nil cons fields)

def Fields.set : Fields → Text → Json → Fields
  | .nil, key, v => .cons key v .nil
  | .cons k w fields, key, v =>
    if k = key then .cons k v fields else .cons k w (fields.set key v)

def Fields.get? : Fields → Text → Option Json
  | .nil, _ => none
  | .cons k w fields, key => if k = key then some w else fields.get? key

def Fields.append : Fields → Fields → Fields
  | .nil, more => more
  | .cons k v fields, more => .cons k v (fields.append more)

def Fields.keys : Fields → List Text
  | .nil => []
  | .cons k _ fields => k :: fields.keys

def Items.toList : Items → List Json
  | .nil => []
  | .cons v items => v :: items.toList

mutual
/-- No dictionary in the value has a key twice. -/
def Json.distinct : Json → Prop
  | .null => True
  | .bool _ => True
  | .number _ => True
  | .str _ => True
  | .list items => items.distinct
  | .dict fields => fields.keys.Nodup ∧ fields.distinct

def Items.distinct : Items → Prop
  | .nil => True
  | .cons v items => v.distinct ∧ items.distinct

def Fields.distinct : Fields → Prop
  | .nil => True
  | .cons _ v fields => v.distinct ∧ fields.distinct
end

@[simp] theorem Fields.get?_set (fields : Fields) (key : Text) (v : Json) :
    (fields.set key v).get? key = some v := by
  induction fields with
  | nil => simp [Fields.set, Fields.get?]
  | cons k w fields ih =>
    unfold Fields.set
    split <;> simp_all [Fields.get?]

@[simp] theorem Fields.keys_append (fields more : Fields) :
    (fields.append more).keys = fields.keys ++ more.keys := by
  induction fields with
  | nil => simp [Fields.append, Fields.keys]
  | cons k v fields ih => simp [Fields.append, Fields.keys, ih]

theorem Fields.append_assoc (fields more most : Fields) :
    (fields.append more).append most = fields.append (more.append most) := by
  induction fields with
  | nil => simp [Fields.append]
  | cons k v fields ih => simp [Fields.append, ih]

theorem Fields.append_nil (fields : Fields) : fields.append .nil = fields := by
  induction fields with
  | nil => simp [Fields.append]
  | cons k v fields ih => simp [Fields.append, ih]

theorem Fields.set_of_not_mem {fields : Fields} {key : Text} (h : key ∉ fields.keys) (v : Json) :
    fields.set key v = fields.append (.cons key v .nil) := by
  induction fields with
  | nil => simp [Fields.set, Fields.append]
  | cons k w fields ih =>
    simp only [Fields.keys, List.mem_cons, not_or] at h
    simp [Fields.set, Fields.append, ih h.2, Ne.symm h.1]

/-! ## Writing -/

/-- A text with, for each character, whether it stands inside a string literal. -/
abbrev Marked := List (Char × Bool)

def outside (s : Text) : Marked := s.map (·, false)

def inside (s : Text) : Marked := s.map (·, true)

def chars (m : Marked) : Text := m.map Prod.fst

/-- The number of characters inside of string literals. -/
def inner (m : Marked) : Nat := m.countP Prod.snd

def quoted (s : Text) : Marked := outside ['"'] ++ (inside (s.flatMap escape) ++ outside ['"'])

mutual
/-- What `json.dumps` writes for a value, with the marks. -/
def marked : Json → Marked
  | .null => outside (text "null")
  | .bool true => outside (text "true")
  | .bool false => outside (text "false")
  | .number x => outside x.literal
  | .str s => quoted s
  | .list .nil => outside (text "[]")
  | .list (.cons v items) => outside ['['] ++ (marked v ++ (markedItems items ++ outside [']']))
  | .dict .nil => outside (text "\x7b\x7d")
  | .dict (.cons key v fields) =>
    outside ['{'] ++ (quoted key ++ (outside (text ": ") ++ (marked v ++
      (markedFields fields ++ outside ['}']))))

def markedItems : Items → Marked
  | .nil => []
  | .cons v items => outside (text ", ") ++ (marked v ++ markedItems items)

def markedFields : Fields → Marked
  | .nil => []
  | .cons key v fields =>
    outside (text ", ") ++ (quoted key ++ (outside (text ": ") ++ (marked v ++ markedFields fields)))
end

def dumps (v : Json) : Text := chars (marked v)

@[simp] theorem chars_append (m m' : Marked) : chars (m ++ m') = chars m ++ chars m' := by
  simp [chars]

@[simp] theorem chars_outside (s : Text) : chars (outside s) = s := by
  simp [chars, outside, Function.comp_def]

@[simp] theorem chars_inside (s : Text) : chars (inside s) = s := by
  simp [chars, inside, Function.comp_def]

@[simp] theorem chars_nil : chars [] = [] := by simp [chars]

@[simp] theorem inner_append (m m' : Marked) : inner (m ++ m') = inner m + inner m' := by
  simp [inner]

@[simp] theorem inner_outside (s : Text) : inner (outside s) = 0 := by
  simp [inner, outside, List.countP_eq_zero]

@[simp] theorem inner_inside (s : Text) : inner (inside s) = s.length := by
  simp [inner, inside, List.countP_map]

@[simp] theorem inner_quoted (s : Text) : inner (quoted s) = (s.flatMap escape).length := by
  simp only [quoted, inner_append, inner_outside, inner_inside]
  omega

@[simp] theorem inner_nil : inner [] = 0 := by simp [inner]

@[simp] theorem length_outside (s : Text) : (outside s).length = s.length := by simp [outside]

theorem inner_dict (fields : Fields) : inner (marked (.dict fields)) = inner (markedFields fields) := by
  cases fields <;> simp [marked, markedFields]

theorem inner_list (items : Items) : inner (marked (.list items)) = inner (markedItems items) := by
  cases items <;> simp [marked, markedItems]

theorem inner_set (fields : Fields) (key : Text) (v : Json) :
    inner (markedFields (fields.set key v)) ≤
      inner (markedFields fields) + (inner (quoted key) + inner (marked v)) := by
  induction fields with
  | nil => simp [Fields.set, markedFields]
  | cons k w fields ih =>
    unfold Fields.set
    split
    · simp only [markedFields, inner_append, inner_outside]
      omega
    · simp only [markedFields, inner_append, inner_outside]
      omega

/-- How the text of a value can begin. -/
def begins (c : Char) : Bool :=
  c.isDigit || c == '-' || c == '"' || c == '[' || c == '{' || c == 'n' || c == 't' || c == 'f'

theorem marked_cons (v : Json) : ∃ c m, marked v = (c, false) :: m ∧ begins c = true := by
  cases v with
  | null => exact ⟨'n', outside (text "ull"), by decide, by decide⟩
  | bool b =>
    cases b
    · exact ⟨'f', outside (text "alse"), by decide, by decide⟩
    · exact ⟨'t', outside (text "rue"), by decide, by decide⟩
  | number x =>
    obtain ⟨c, l, hl, hc⟩ := x.literal_cons
    refine ⟨c, outside l, by simp [marked, hl, outside], ?_⟩
    rcases hc with hc | hc <;> simp [begins, hc]
  | str s => exact ⟨'"', _, rfl, by decide⟩
  | list items => cases items <;> exact ⟨'[', _, rfl, by decide⟩
  | dict fields => cases fields <;> exact ⟨'{', _, rfl, by decide⟩

/-! ## Texts that have lost spaces -/

/-- `Dropped m l`: `l` is `m` without some of its spaces. -/
inductive Dropped : Marked → Marked → Prop
  | nil : Dropped [] []
  | keep (x : Char × Bool) {m l : Marked} (h : Dropped m l) : Dropped (x :: m) (x :: l)
  | drop (b : Bool) {m l : Marked} (h : Dropped m l) : Dropped ((' ', b) :: m) l

theorem Dropped.refl (m : Marked) : Dropped m m := by
  induction m with
  | nil => exact .nil
  | cons x m ih => exact .keep x ih

theorem Dropped.append {m l m' l' : Marked} (h : Dropped m l) (h' : Dropped m' l') :
    Dropped (m ++ m') (l ++ l') := by
  induction h with
  | nil => exact h'
  | keep x _ ih => exact .keep x ih
  | drop b _ ih => exact .drop b ih

theorem Dropped.append_inv {m m' l : Marked} (h : Dropped (m ++ m') l) :
    ∃ l1 l2, l = l1 ++ l2 ∧ Dropped m l1 ∧ Dropped m' l2 := by
  induction m generalizing l with
  | nil => exact ⟨[], l, rfl, .nil, h⟩
  | cons x m ih =>
    cases h with
    | keep _ h =>
      obtain ⟨l1, l2, rfl, h1, h2⟩ := ih h
      exact ⟨x :: l1, l2, rfl, .keep x h1, h2⟩
    | drop b h =>
      obtain ⟨l1, l2, rfl, h1, h2⟩ := ih h
      exact ⟨l1, l2, rfl, .drop b h1, h2⟩

theorem Dropped.inner_le {m l : Marked} (h : Dropped m l) : inner l ≤ inner m := by
  induction h with
  | nil => simp
  | keep x _ ih =>
    simp only [inner, List.countP_cons] at ih ⊢
    omega
  | drop b _ ih =>
    simp only [inner, List.countP_cons] at ih ⊢
    omega

theorem Dropped.eq_of_no_space {m l : Marked} (h : Dropped m l) (hm : ' ' ∉ chars m) : l = m := by
  induction h with
  | nil => rfl
  | keep x _ ih =>
    simp only [chars, List.map_cons, List.mem_cons, not_or] at hm ih
    rw [ih hm.2]
  | drop b _ ih => simp [chars] at hm

theorem Dropped.cons_inv {c : Char} {b : Bool} {m l : Marked} (h : Dropped ((c, b) :: m) l)
    (hc : c ≠ ' ') : ∃ l', l = (c, b) :: l' ∧ Dropped m l' := by
  cases h with
  | keep _ h => exact ⟨_, rfl, h⟩
  | drop _ h => exact absurd rfl hc

theorem Dropped.separator {c : Char} (hc : c ≠ ' ') {m l : Marked}
    (h : Dropped (outside [c, ' '] ++ m) l) :
    ∃ l', Dropped m l' ∧ ∃ space, (space = [] ∨ space = [' ']) ∧ l = outside (c :: space) ++ l' := by
  change Dropped ((c, false) :: (' ', false) :: m) l at h
  obtain ⟨l', rfl, hspace⟩ := h.cons_inv hc
  clear h
  cases hspace with
  | keep _ h => exact ⟨_, h, [' '], Or.inr rfl, rfl⟩
  | drop _ h => exact ⟨_, h, [], Or.inl rfl, rfl⟩

theorem Dropped.inside_inv {s : Text} {l : Marked} (h : Dropped (inside (s.flatMap escape)) l) :
    ∃ s', l = inside (s'.flatMap escape) ∧
      (inner l = inner (inside (s.flatMap escape)) → s' = s) := by
  induction s generalizing l with
  | nil =>
    cases h
    exact ⟨[], rfl, fun _ => rfl⟩
  | cons c s ih =>
    rw [List.flatMap_cons, show inside (escape c ++ s.flatMap escape) =
      inside (escape c) ++ inside (s.flatMap escape) by simp [inside]] at h ⊢
    obtain ⟨l1, l2, rfl, h1, h2⟩ := h.append_inv
    obtain ⟨s', rfl, hs⟩ := ih h2
    by_cases hc : c = ' '
    · subst hc
      cases h1 with
      | keep _ h1 =>
        cases h1
        refine ⟨' ' :: s', by simp [inside], fun heq => ?_⟩
        have hlen : inner ((' ', true) :: inside (s'.flatMap escape)) =
            inner (inside (s'.flatMap escape)) + 1 := by simp [inner]
        rw [List.singleton_append, hlen] at heq
        rw [hs (by simp at heq ⊢; omega)]
      | drop _ h1 =>
        cases h1
        refine ⟨s', by simp, fun heq => ?_⟩
        have := h2.inner_le
        simp at heq this
        omega
    · have hkeep := h1.eq_of_no_space fun hmem => hc (space_mem_escape (by simpa using hmem))
      subst hkeep
      refine ⟨c :: s', by simp [inside], fun heq => ?_⟩
      rw [hs (by simpa using heq)]

theorem Dropped.quoted_inv {s : Text} {l : Marked} (h : Dropped (quoted s) l) :
    ∃ s', l = quoted s' ∧ (inner l = inner (quoted s) → s' = s) := by
  obtain ⟨l1, l2, rfl, h1, h2⟩ := h.append_inv
  obtain ⟨l3, l4, rfl, h3, h4⟩ := h2.append_inv
  obtain ⟨s', rfl, hs⟩ := h3.inside_inv
  have hquote1 := h1.eq_of_no_space (by simp)
  have hquote2 := h4.eq_of_no_space (by simp)
  subst hquote1 hquote2
  exact ⟨s', rfl, fun heq => hs (by simpa using heq)⟩

/-! ## Reading -/

/-- A character of `WHITESPACE`. -/
def isWhitespace (c : Char) : Bool := c == ' ' || c == '\t' || c == '\n' || c == '\r'

def skip (l : Text) : Text := l.dropWhile isWhitespace

def keyword (word : Text) (v : Json) (l : Text) : Option (Json × Text) :=
  if word <+: l then some (v, l.drop word.length) else none

def scan_number (l : Text) : Option (Json × Text) :=
  match match_number l with
  | none => none
  | some (literal, l) =>
    if h : match_number literal = some (literal, []) then some (.number ⟨literal, h⟩, l) else none

def scan_field (scan : Text → Option (Json × Text)) (l : Text) : Option ((Text × Json) × Text) :=
  if l.head? = some '"' then
    match scanstring l.length l.tail with
    | none => none
    | some (key, l) =>
      if (skip l).head? = some ':' then
        (scan (skip (skip l).tail)).map fun (v, l) => ((key, v), l)
      else none
  else none

mutual
/-- `scan_once`: the value at the beginning of a text, with what follows it. -/
def scan_once : Nat → Text → Option (Json × Text)
  | 0, _ => none
  | _ + 1, [] => none
  | n + 1, c :: l =>
    if c = '"' then (scanstring (l.length + 1) l).map fun (s, l) => (.str s, l)
    else if c = '{' then
      if (skip l).head? = some '}' then some (.dict .nil, (skip l).tail)
      else match scan_field (scan_once n) (skip l) with
        | none => none
        | some ((key, v), l) => (scan_fields n (Fields.nil.set key v) l).map fun (fields, l) => (.dict fields, l)
    else if c = '[' then
      if (skip l).head? = some ']' then some (.list .nil, (skip l).tail)
      else match scan_once n (skip l) with
        | none => none
        | some (v, l) => (scan_items n l).map fun (items, l) => (.list (.cons v items), l)
    else if c = 'n' then keyword (text "null") .null (c :: l)
    else if c = 't' then keyword (text "true") (.bool true) (c :: l)
    else if c = 'f' then keyword (text "false") (.bool false) (c :: l)
    else scan_number (c :: l)

/-- The rest of a list, from behind one of its items. -/
def scan_items : Nat → Text → Option (Items × Text)
  | 0, _ => none
  | n + 1, l =>
    if (skip l).head? = some ']' then some (.nil, (skip l).tail)
    else if (skip l).head? = some ',' then
      match scan_once n (skip (skip l).tail) with
      | none => none
      | some (v, l) => (scan_items n l).map fun (items, l) => (.cons v items, l)
    else none

/-- The rest of a dictionary, from behind one of its fields. -/
def scan_fields : Nat → Fields → Text → Option (Fields × Text)
  | 0, _, _ => none
  | n + 1, fields, l =>
    if (skip l).head? = some '}' then some (fields, (skip l).tail)
    else if (skip l).head? = some ',' then
      match scan_field (scan_once n) (skip (skip l).tail) with
      | none => none
      | some ((key, v), l) => scan_fields n (fields.set key v) l
    else none
end

def loads (s : Text) : Option Json :=
  match scan_once (s.length + 1) (skip s) with
  | none => none
  | some (v, l) => if skip l = [] then some v else none

/-! ## Reading what has lost spaces -/

theorem skip_cons {c : Char} (h : isWhitespace c = false) (l : Text) : skip (c :: l) = c :: l := by
  simp [skip, h]

theorem skip_space {space : Text} (hspace : space = [] ∨ space = [' ']) (l : Text) :
    skip (space ++ l) = skip l := by
  rcases hspace with rfl | rfl
  · rfl
  · simp [skip, isWhitespace]

theorem begins_not_whitespace {c : Char} (h : begins c = true) : isWhitespace c = false := by
  by_contra hc
  simp only [isWhitespace, Bool.or_eq_true, beq_iff_eq, Bool.not_eq_false] at hc
  rcases hc with ((rfl | rfl) | rfl) | rfl <;> simp [begins] at h

theorem Dropped.skip_value {v : Json} {m : Marked} (h : Dropped (marked v) m) (rest : Text) :
    skip (chars m ++ rest) = chars m ++ rest ∧ (chars m ++ rest).head? ≠ some ']' := by
  obtain ⟨c, l, hv, hc⟩ := marked_cons v
  rw [hv] at h
  obtain ⟨l', rfl, -⟩ := h.cons_inv (by rintro rfl; simp [begins] at hc)
  refine ⟨skip_cons (begins_not_whitespace hc) _, ?_⟩
  rintro heq
  simp only [chars, List.map_cons, List.cons_append, List.head?_cons, Option.some.injEq] at heq
  simp [heq, begins] at hc

theorem Dropped.ends_items {items : Items} {m : Marked} (h : Dropped (markedItems items) m)
    (rest : Text) : Ends (chars m ++ ']' :: rest) := by
  cases items with
  | nil =>
    cases h
    exact Ends.cons (by decide) rest
  | cons v items =>
    obtain ⟨m', -, space, -, rfl⟩ := Dropped.separator (c := ',') (by decide) h
    exact Ends.cons (by decide) _

theorem Dropped.ends_fields {fields : Fields} {m : Marked} (h : Dropped (markedFields fields) m)
    (rest : Text) : Ends (chars m ++ '}' :: rest) := by
  cases fields with
  | nil =>
    cases h
    exact Ends.cons (by decide) rest
  | cons key v fields =>
    obtain ⟨m', -, space, -, rfl⟩ := Dropped.separator (c := ',') (by decide) h
    exact Ends.cons (by decide) _

theorem chars_quoted (s rest : Text) :
    chars (quoted s) ++ rest = '"' :: (s.flatMap escape ++ '"' :: rest) := by
  simp [quoted]

theorem length_le_escape (s : Text) : s.length ≤ (s.flatMap escape).length := by
  induction s with
  | nil => simp
  | cons c s ih =>
    have := List.length_pos_iff.mpr (escape_ne_nil c)
    simp only [List.flatMap_cons, List.length_append, List.length_cons]
    omega

theorem scan_once_quoted (n : Nat) (s rest : Text) :
    scan_once (n + 1) (chars (quoted s) ++ rest) = some (.str s, rest) := by
  have hlen := length_le_escape s
  rw [chars_quoted]
  simp only [scan_once, ↓reduceIte]
  rw [scanstring_escape s rest _ (by simp only [List.length_append]; omega)]
  rfl

theorem scan_once_number (n : Nat) (x : Number) {rest : Text} (h : Ends rest) :
    scan_once (n + 1) (x.literal ++ rest) = some (.number x, rest) := by
  have hmatch := match_number_append h x
  obtain ⟨c, l, hl, hc⟩ := x.literal_cons
  have hne : c ≠ '"' ∧ c ≠ '{' ∧ c ≠ '[' ∧ c ≠ 'n' ∧ c ≠ 't' ∧ c ≠ 'f' := by
    refine ⟨?_, ?_, ?_, ?_, ?_, ?_⟩ <;> rintro rfl <;> simp at hc
  have hnumber : scan_number (x.literal ++ rest) = some (.number x, rest) := by
    unfold scan_number
    rw [hmatch]
    simp [x.matches_]
  rw [hl, List.cons_append] at hnumber ⊢
  simpa [scan_once, hne] using hnumber

theorem scan_field_quoted {scan : Text → Option (Json × Text)} {key space value rest : Text}
    {v : Json} (hspace : space = [] ∨ space = [' ']) (hskip : skip value = value)
    (hscan : scan value = some (v, rest)) :
    scan_field scan (chars (quoted key) ++ ':' :: (space ++ value)) = some ((key, v), rest) := by
  have hlen := length_le_escape key
  rw [chars_quoted]
  simp only [scan_field, List.head?_cons, ↓reduceIte, List.tail_cons]
  rw [scanstring_escape key _ _ (by simp only [List.length_cons, List.length_append]; omega)]
  simp only [skip_cons (c := ':') (by decide), List.head?_cons, ↓reduceIte, List.tail_cons,
    skip_space hspace, hskip, hscan, Option.map_some]

mutual
theorem scan_once_dropped : ∀ (v : Json) {m : Marked}, Dropped (marked v) m → ∃ v',
    (∀ n rest, m.length ≤ n → Ends rest → scan_once n (chars m ++ rest) = some (v', rest)) ∧
      inner (marked v') ≤ inner m ∧ (inner m = inner (marked v) → v.distinct → v' = v)
  | .null, m, h => by
    have hm := h.eq_of_no_space (by decide)
    subst hm
    refine ⟨.null, fun n rest hn _ => ?_, le_refl _, fun _ _ => rfl⟩
    obtain ⟨k, rfl⟩ : ∃ k, n = k + 1 := ⟨n - 1, by simp [marked, text] at hn; omega⟩
    simp [marked, text, scan_once, keyword]
  | .bool true, m, h => by
    have hm := h.eq_of_no_space (by decide)
    subst hm
    refine ⟨.bool true, fun n rest hn _ => ?_, le_refl _, fun _ _ => rfl⟩
    obtain ⟨k, rfl⟩ : ∃ k, n = k + 1 := ⟨n - 1, by simp [marked, text] at hn; omega⟩
    simp [marked, text, scan_once, keyword]
  | .bool false, m, h => by
    have hm := h.eq_of_no_space (by decide)
    subst hm
    refine ⟨.bool false, fun n rest hn _ => ?_, le_refl _, fun _ _ => rfl⟩
    obtain ⟨k, rfl⟩ : ∃ k, n = k + 1 := ⟨n - 1, by simp [marked, text] at hn; omega⟩
    simp [marked, text, scan_once, keyword]
  | .number x, m, h => by
    have hm := h.eq_of_no_space (by simpa [marked] using x.no_space)
    subst hm
    refine ⟨.number x, fun n rest hn hends => ?_, le_refl _, fun _ _ => rfl⟩
    obtain ⟨c, l, hl, -⟩ := x.literal_cons
    obtain ⟨k, rfl⟩ : ∃ k, n = k + 1 := ⟨n - 1, by simp [marked, hl] at hn; omega⟩
    simpa [marked] using scan_once_number k x hends
  | .str s, m, h => by
    obtain ⟨s', rfl, hs⟩ := h.quoted_inv
    refine ⟨.str s', fun n rest hn _ => ?_, le_refl _, fun heq _ => by rw [hs heq]⟩
    obtain ⟨k, rfl⟩ : ∃ k, n = k + 1 := ⟨n - 1, by simp [quoted] at hn; omega⟩
    exact scan_once_quoted k s' rest
  | .list .nil, m, h => by
    have hm := h.eq_of_no_space (by decide)
    subst hm
    refine ⟨.list .nil, fun n rest hn _ => ?_, le_refl _, fun _ _ => rfl⟩
    obtain ⟨k, rfl⟩ : ∃ k, n = k + 1 := ⟨n - 1, by simp [marked, text] at hn; omega⟩
    simp [marked, text, scan_once, skip_cons (c := ']') (by decide)]
  | .list (.cons v items), m, h => by
    obtain ⟨m0, m1, rfl, h0, h1⟩ := h.append_inv
    obtain ⟨mv, m2, rfl, hv, h2⟩ := h1.append_inv
    obtain ⟨ms, m3, rfl, hs, h3⟩ := h2.append_inv
    have hm0 := h0.eq_of_no_space (by decide)
    have hm3 := h3.eq_of_no_space (by decide)
    subst hm0 hm3
    obtain ⟨v', hscan, hinner, hsame⟩ := scan_once_dropped v hv
    obtain ⟨items', hscans, hinners, hsames⟩ := scan_items_dropped items hs
    refine ⟨.list (.cons v' items'), fun n rest hn _ => ?_, ?_, ?_⟩
    · simp only [List.length_append, length_outside, List.length_singleton] at hn
      obtain ⟨k, rfl⟩ : ∃ k, n = k + 1 := ⟨n - 1, by omega⟩
      obtain ⟨hskip, hhead⟩ := hv.skip_value (chars ms ++ ']' :: rest)
      simp only [chars_append, chars_outside, List.append_assoc, List.cons_append,
        List.nil_append, scan_once, hskip, hhead, ↓reduceIte, Char.reduceEq,
        hscan k (chars ms ++ ']' :: rest) (by omega) (hs.ends_items rest),
        hscans k rest (by omega), Option.map_some]
    · simp only [inner_list, markedItems, inner_append, inner_outside]
      omega
    · intro heq hdistinct
      have hle := hv.inner_le
      have hles := hs.inner_le
      simp only [inner_list, markedItems, inner_append, inner_outside] at heq
      rw [hsame (by omega) hdistinct.1, hsames (by omega) hdistinct.2]
  | .dict .nil, m, h => by
    have hm := h.eq_of_no_space (by decide)
    subst hm
    refine ⟨.dict .nil, fun n rest hn _ => ?_, le_refl _, fun _ _ => rfl⟩
    obtain ⟨k, rfl⟩ : ∃ k, n = k + 1 := ⟨n - 1, by simp [marked, text] at hn; omega⟩
    simp [marked, text, scan_once, skip_cons (c := '}') (by decide)]
  | .dict (.cons key v fields), m, h => by
    obtain ⟨m0, m1, rfl, h0, h1⟩ := h.append_inv
    obtain ⟨mk, m2, rfl, hk, h2⟩ := h1.append_inv
    obtain ⟨m3, h3, space, hspace, rfl⟩ := Dropped.separator (c := ':') (by decide) h2
    obtain ⟨mv, m4, rfl, hv, h4⟩ := h3.append_inv
    obtain ⟨mf, m5, rfl, hf, h5⟩ := h4.append_inv
    have hm0 := h0.eq_of_no_space (by decide)
    have hm5 := h5.eq_of_no_space (by decide)
    subst hm0 hm5
    obtain ⟨key', rfl, hkey⟩ := hk.quoted_inv
    obtain ⟨v', hscan, hinner, hsame⟩ := scan_once_dropped v hv
    obtain ⟨fields', hscans, hinners, hsames⟩ :=
      scan_fields_dropped fields (Fields.nil.set key' v') hf
    refine ⟨.dict fields', fun n rest hn _ => ?_, ?_, ?_⟩
    · simp only [List.length_append, length_outside, List.length_cons] at hn
      obtain ⟨k, rfl⟩ : ∃ k, n = k + 1 := ⟨n - 1, by omega⟩
      have hfield : _ = some ((key', _), _) := scan_field_quoted hspace (hv.skip_value _).1
        (hscan k (chars mf ++ '}' :: rest) (by omega) (hf.ends_fields rest))
      have hskip : ∀ l, skip (chars (quoted key') ++ l) = chars (quoted key') ++ l := fun l => by
        rw [chars_quoted, skip_cons (by decide)]
      have hhead : ∀ l, (chars (quoted key') ++ l).head? ≠ some '}' := fun l => by
        rw [chars_quoted]
        simp
      simp only [chars_append, chars_outside, List.append_assoc, List.cons_append,
        List.nil_append, scan_once, hskip, hhead, ↓reduceIte, Char.reduceEq, hfield,
        hscans k rest (by omega), Option.map_some]
    · simp only [inner_dict, inner_append, inner_outside]
      have := inner_set .nil key' v'
      simp only [markedFields, inner_nil] at this
      omega
    · intro heq hdistinct
      have hle := hv.inner_le
      have hles := hf.inner_le
      have hlek := hk.inner_le
      simp only [inner_dict, markedFields, inner_append, inner_outside] at heq
      have hkeys : (Fields.cons key v fields).keys.Nodup := hdistinct.1
      rw [hkey (by omega), hsame (by omega) hdistinct.2.1] at hsames
      rw [hsames (by omega) hkeys hdistinct.2.2]
      rfl

theorem scan_items_dropped : ∀ (items : Items) {m : Marked}, Dropped (markedItems items) m →
    ∃ items', (∀ n rest, m.length + 1 ≤ n →
        scan_items n (chars m ++ ']' :: rest) = some (items', rest)) ∧
      inner (markedItems items') ≤ inner m ∧
      (inner m = inner (markedItems items) → items.distinct → items' = items)
  | .nil, m, h => by
    cases h
    refine ⟨.nil, fun n rest hn => ?_, le_refl _, fun _ _ => rfl⟩
    obtain ⟨k, rfl⟩ : ∃ k, n = k + 1 := ⟨n - 1, by omega⟩
    simp [scan_items, skip_cons (c := ']') (by decide)]
  | .cons v items, m, h => by
    obtain ⟨m1, h1, space, hspace, rfl⟩ := Dropped.separator (c := ',') (by decide) h
    obtain ⟨mv, ms, rfl, hv, hs⟩ := h1.append_inv
    obtain ⟨v', hscan, hinner, hsame⟩ := scan_once_dropped v hv
    obtain ⟨items', hscans, hinners, hsames⟩ := scan_items_dropped items hs
    refine ⟨.cons v' items', fun n rest hn => ?_, ?_, ?_⟩
    · simp only [List.length_append, length_outside, List.length_cons] at hn
      obtain ⟨k, rfl⟩ : ∃ k, n = k + 1 := ⟨n - 1, by omega⟩
      obtain ⟨hskip, -⟩ := hv.skip_value (chars ms ++ ']' :: rest)
      simp only [chars_append, chars_outside, List.append_assoc, List.cons_append, scan_items,
        skip_cons (c := ',') (by decide), List.head?_cons, List.tail_cons, skip_space hspace,
        hskip, ↓reduceIte, Option.some.injEq, Char.reduceEq,
        hscan k (chars ms ++ ']' :: rest) (by omega) (hs.ends_items rest),
        hscans k rest (by omega), Option.map_some]
    · simp only [markedItems, inner_append, inner_outside]
      omega
    · intro heq hdistinct
      have hle := hv.inner_le
      have hles := hs.inner_le
      simp only [markedItems, inner_append, inner_outside] at heq
      rw [hsame (by omega) hdistinct.1, hsames (by omega) hdistinct.2]

theorem scan_fields_dropped : ∀ (fields before : Fields) {m : Marked},
    Dropped (markedFields fields) m →
    ∃ fields', (∀ n rest, m.length + 1 ≤ n →
        scan_fields n before (chars m ++ '}' :: rest) = some (fields', rest)) ∧
      inner (markedFields fields') ≤ inner (markedFields before) + inner m ∧
      (inner m = inner (markedFields fields) → (before.append fields).keys.Nodup →
        fields.distinct → fields' = before.append fields)
  | .nil, before, m, h => by
    cases h
    refine ⟨before, fun n rest hn => ?_, by simp, fun _ _ _ => (before.append_nil).symm⟩
    obtain ⟨k, rfl⟩ : ∃ k, n = k + 1 := ⟨n - 1, by omega⟩
    simp [scan_fields, skip_cons (c := '}') (by decide)]
  | .cons key v fields, before, m, h => by
    obtain ⟨m1, h1, space, hspace, rfl⟩ := Dropped.separator (c := ',') (by decide) h
    obtain ⟨mk, m2, rfl, hk, h2⟩ := h1.append_inv
    obtain ⟨m3, h3, colon, hcolon, rfl⟩ := Dropped.separator (c := ':') (by decide) h2
    obtain ⟨mv, mf, rfl, hv, hf⟩ := h3.append_inv
    obtain ⟨key', rfl, hkey⟩ := hk.quoted_inv
    obtain ⟨v', hscan, hinner, hsame⟩ := scan_once_dropped v hv
    obtain ⟨fields', hscans, hinners, hsames⟩ := scan_fields_dropped fields (before.set key' v') hf
    refine ⟨fields', fun n rest hn => ?_, ?_, ?_⟩
    · simp only [List.length_append, length_outside, List.length_cons] at hn
      obtain ⟨k, rfl⟩ : ∃ k, n = k + 1 := ⟨n - 1, by omega⟩
      have hfield : _ = some ((key', _), _) := scan_field_quoted hcolon (hv.skip_value _).1
        (hscan k (chars mf ++ '}' :: rest) (by omega) (hf.ends_fields rest))
      have hskip : ∀ l, skip (chars (quoted key') ++ l) = chars (quoted key') ++ l := fun l => by
        rw [chars_quoted, skip_cons (by decide)]
      simp only [chars_append, chars_outside, List.append_assoc, List.cons_append, scan_fields,
        skip_cons (c := ',') (by decide), List.head?_cons, List.tail_cons, skip_space hspace,
        hskip, ↓reduceIte, Option.some.injEq, Char.reduceEq, hfield, hscans k rest (by omega)]
    · have := inner_set before key' v'
      simp only [inner_append, inner_outside]
      omega
    · intro heq hkeys hdistinct
      have hle := hv.inner_le
      have hles := hf.inner_le
      have hlek := hk.inner_le
      simp only [markedFields, inner_append, inner_outside] at heq
      have hnew : key ∉ before.keys := by
        intro hmem
        simp only [Fields.keys_append, Fields.keys, List.nodup_append] at hkeys
        exact hkeys.2.2 key hmem key List.mem_cons_self rfl
      have hset := Fields.set_of_not_mem hnew v
      rw [hkey (by omega), hsame (by omega) hdistinct.1, hset] at hsames
      rw [hsames (by omega) (by simpa [Fields.append, Fields.keys] using hkeys) hdistinct.2,
        Fields.append_assoc]
      rfl
end

theorem loads_dropped {v : Json} (hv : v.distinct) {m : Marked} (h : Dropped (marked v) m) :
    ∃ v', loads (chars m) = some v' ∧ (v' = v ↔ inner m = inner (marked v)) := by
  obtain ⟨v', hscan, hinner, hsame⟩ := scan_once_dropped v h
  have hlen : m.length ≤ (chars m).length + 1 := by simp [chars]
  have hread := hscan _ [] hlen Ends.nil
  have hskip := (h.skip_value []).1
  rw [List.append_nil] at hread hskip
  refine ⟨v', ?_, fun heq => ?_, fun heq => hsame heq hv⟩
  · unfold loads
    rw [hskip, hread]
    simp [skip]
  · have := h.inner_le
    rw [heq] at hinner
    omega

theorem loads_dumps {v : Json} (hv : v.distinct) : loads (dumps v) = some v := by
  obtain ⟨v', hread, hsame⟩ := loads_dropped hv (Dropped.refl (marked v))
  rw [dumps, hread, hsame.mpr rfl]

/-! ## The characters of a text -/

abbrev printable (c : Char) : Prop := ' ' ≤ c ∧ c ≤ '~'

theorem printable_of_all {l : Text} (h : (l.all fun c => decide (printable c)) = true) :
    ∀ c ∈ l, printable c := by
  simpa using h

theorem printable_of_numeric {c : Char} (h : numeric c = true) : printable c := by
  simp only [numeric, Char.isDigit, Bool.or_eq_true, Bool.and_eq_true, decide_eq_true_eq,
    beq_iff_eq] at h
  rcases h with ((((⟨h1, h2⟩ | rfl) | rfl) | rfl) | rfl) | rfl
  · exact ⟨Char.le_trans (by decide : ' ' ≤ '0') h1, Char.le_trans h2 (by decide : '9' ≤ '~')⟩
  all_goals exact by decide

theorem printable_quoted (s : Text) : ∀ c ∈ chars (quoted s), printable c := by
  intro c hc
  simp only [quoted, chars_append, chars_outside, chars_inside, List.mem_append,
    List.mem_singleton, List.mem_flatMap] at hc
  rcases hc with rfl | ⟨x, -, hx⟩ | rfl
  · decide
  · exact escape_printable x c hx
  · decide

mutual
theorem printable_marked : ∀ v : Json, ∀ c ∈ chars (marked v), printable c
  | .null => printable_of_all (by decide)
  | .bool true => printable_of_all (by decide)
  | .bool false => printable_of_all (by decide)
  | .number x => fun c hc => printable_of_numeric (x.numeric c (by simpa [marked] using hc))
  | .str s => printable_quoted s
  | .list .nil => printable_of_all (by decide)
  | .list (.cons v items) => by
    intro c hc
    simp only [marked, chars_append, chars_outside, List.mem_append, List.mem_singleton] at hc
    rcases hc with rfl | hc | hc | rfl
    · decide
    · exact printable_marked v c hc
    · exact printable_markedItems items c hc
    · decide
  | .dict .nil => printable_of_all (by decide)
  | .dict (.cons key v fields) => by
    intro c hc
    simp only [marked, chars_append, chars_outside, List.mem_append, List.mem_singleton] at hc
    rcases hc with rfl | hc | hc | hc | hc | rfl
    · decide
    · exact printable_quoted key c hc
    · exact printable_of_all (l := text ": ") (by decide) c hc
    · exact printable_marked v c hc
    · exact printable_markedFields fields c hc
    · decide

theorem printable_markedItems : ∀ items : Items, ∀ c ∈ chars (markedItems items), printable c
  | .nil => by simp [markedItems]
  | .cons v items => by
    intro c hc
    simp only [markedItems, chars_append, chars_outside, List.mem_append] at hc
    rcases hc with hc | hc | hc
    · exact printable_of_all (l := text ", ") (by decide) c hc
    · exact printable_marked v c hc
    · exact printable_markedItems items c hc

theorem printable_markedFields : ∀ fields : Fields, ∀ c ∈ chars (markedFields fields), printable c
  | .nil => by simp [markedFields]
  | .cons key v fields => by
    intro c hc
    simp only [markedFields, chars_append, chars_outside, List.mem_append] at hc
    rcases hc with hc | hc | hc | hc | hc
    · exact printable_of_all (l := text ", ") (by decide) c hc
    · exact printable_quoted key c hc
    · exact printable_of_all (l := text ": ") (by decide) c hc
    · exact printable_marked v c hc
    · exact printable_markedFields fields c hc
end

theorem dumps_concat (v : Json) : ∃ l c, dumps v = l ++ [c] ∧ c ≠ ' ' := by
  cases v with
  | null => exact ⟨text "nul", 'l', by decide, by decide⟩
  | bool b =>
    cases b
    · exact ⟨text "fals", 'e', by decide, by decide⟩
    · exact ⟨text "tru", 'e', by decide, by decide⟩
  | number x =>
    obtain ⟨c, l, hl, -⟩ := x.literal_cons
    have hne : x.literal ≠ [] := by simp [hl]
    refine ⟨x.literal.dropLast, x.literal.getLast hne, ?_, ?_⟩
    · simp only [dumps, marked, chars_outside]
      exact (List.dropLast_append_getLast hne).symm
    · intro hspace
      exact x.no_space (hspace ▸ List.getLast_mem hne)
  | str s => exact ⟨'"' :: s.flatMap escape, '"', by simp [dumps, marked, quoted], by decide⟩
  | list items =>
    cases items with
    | nil => exact ⟨['['], ']', by decide, by decide⟩
    | cons v items =>
      exact ⟨'[' :: (chars (marked v) ++ chars (markedItems items)), ']',
        by simp [dumps, marked], by decide⟩
  | dict fields =>
    cases fields with
    | nil => exact ⟨['{'], '}', by decide, by decide⟩
    | cons key v fields =>
      exact ⟨'{' :: (chars (quoted key) ++ (text ": " ++ (chars (marked v) ++
        chars (markedFields fields)))), '}', by simp [dumps, marked], by decide⟩

end yocto.json
