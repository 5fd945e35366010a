-- Percent codes (`quote` and `unquote` of urllib.parse). A text is quoted byte by byte, in
-- UTF-8.
import Mathlib.Data.List.SplitBy
import Yocto.TaskIds

open yocto.task_ids

namespace yocto.percent_codes

abbrev Bytes := List UInt8

/-! ## UTF-8 -/

def encode (s : Text) : Bytes := s.flatMap String.utf8EncodeChar

/-- The character that bytes start with. -/
def first_char (bytes : Bytes) : Option Char := bytes.toByteArray.utf8DecodeChar? 0

def is_continuation (b : UInt8) : Bool := 0x80 ≤ b && b ≤ 0xBF

/-- A first and a second byte that some character starts with, of three bytes or more. -/
def starts_char (b b' : UInt8) : Bool :=
  if b = 0xE0 then 0xA0 ≤ b' && b' ≤ 0xBF
  else if b = 0xED then 0x80 ≤ b' && b' ≤ 0x9F
  else if b = 0xF0 then 0x90 ≤ b' && b' ≤ 0xBF
  else if b = 0xF4 then 0x80 ≤ b' && b' ≤ 0x8F
  else 0xE1 ≤ b && b ≤ 0xF3 && is_continuation b'

/-- How many bytes one replacement character stands for. -/
def bad_length : Bytes → Nat
  | b :: b' :: b'' :: _ => if starts_char b b' then if 0xF0 ≤ b && is_continuation b'' then 3 else 2 else 1
  | [b, b'] => if starts_char b b' then 2 else 1
  | _ => 1

/-- At most `n` characters are decoded. -/
def decode_loop : Nat → Bytes → Text
  | 0, _ => []
  | _ + 1, [] => []
  | n + 1, bytes =>
    match first_char bytes with
    | some c => c :: decode_loop n (bytes.drop c.utf8Size)
    | none => '\uFFFD' :: decode_loop n (bytes.drop (bad_length bytes))

/-- `bytes.decode("utf-8", "replace")`. -/
def decode (bytes : Bytes) : Text := decode_loop bytes.length bytes

theorem first_char_append (c : Char) (rest : Bytes) : first_char (String.utf8EncodeChar c ++ rest) = some c := by
  have h := List.utf8DecodeChar?_utf8Encode_singleton_append (b := rest.toByteArray) (c := c)
  unfold first_char
  rw [List.toByteArray_append]
  simpa [List.utf8Encode] using h

theorem encode_char_ne_nil (c : Char) : String.utf8EncodeChar c ≠ [] := by
  intro h
  have hlength := String.length_utf8EncodeChar c
  rw [h] at hlength
  exact absurd hlength (Nat.ne_of_lt c.utf8Size_pos)

theorem decode_loop_encode {n : Nat} {s : Text} (h : (encode s).length ≤ n) : decode_loop n (encode s) = s := by
  induction s generalizing n with
  | nil => cases n <;> rfl
  | cons c s ih =>
    have hencode : encode (c :: s) = String.utf8EncodeChar c ++ encode s := List.flatMap_cons
    have hsize := c.utf8Size_pos
    rw [hencode, List.length_append, String.length_utf8EncodeChar] at h
    obtain ⟨n, rfl⟩ : ∃ m, n = m + 1 := ⟨n - 1, by omega⟩
    have hne : encode (c :: s) ≠ [] := by
      rw [hencode]
      exact List.append_ne_nil_of_left_ne_nil (encode_char_ne_nil c) _
    obtain ⟨b, bytes, hbytes⟩ := List.exists_cons_of_ne_nil hne
    rw [hbytes]
    unfold decode_loop
    rw [← hbytes, hencode, first_char_append]
    simp only
    rw [← String.length_utf8EncodeChar c, List.drop_left, ih (by omega)]

theorem decode_encode (s : Text) : decode (encode s) = s := decode_loop_encode le_rfl

/-! ## quote and unquote -/

/-- `_ALWAYS_SAFE` and the slash. -/
def is_safe (c : Char) : Bool := c.isAlphanum || c ∈ ['_', '.', '-', '~', '/']

def hex_digit (n : Nat) : Char := Char.ofNat (if n < 10 then 48 + n else 55 + n)

def quote_byte (b : UInt8) : Text :=
  let c := Char.ofNat b.toNat
  if is_safe c then [c] else ['%', hex_digit (b.toNat / 16), hex_digit (b.toNat % 16)]

def quote (s : Text) : Text := (encode s).flatMap quote_byte

def hex_value (c : Char) : Option Nat :=
  if c.isDigit then some (c.toNat - 48)
  else if 'A' ≤ c ∧ c ≤ 'F' then some (c.toNat - 55)
  else if 'a' ≤ c ∧ c ≤ 'f' then some (c.toNat - 87)
  else none

def hex_byte (a b : Char) : Option UInt8 := do
  let high ← hex_value a
  let low ← hex_value b
  return UInt8.ofNat (high * 16 + low)

def unquote_to_bytes : Text → Bytes
  | '%' :: a :: b :: s =>
    match hex_byte a b with
    | some byte => byte :: unquote_to_bytes s
    | none => UInt8.ofNat '%'.toNat :: unquote_to_bytes (a :: b :: s)
  | c :: s => UInt8.ofNat c.toNat :: unquote_to_bytes s
  | [] => []

def is_ascii (c : Char) : Bool := c.toNat < 128

/-- The parts of a text that are ASCII are unquoted on their own. -/
def unquote (s : Text) : Text :=
  if '%' ∈ s then
    (s.splitBy fun a b => is_ascii a = is_ascii b).flatMap fun run =>
      if run.all is_ascii then decode (unquote_to_bytes run) else run
  else s

/-! ## What is quoted is unquoted -/

theorem hex_value_digit {n : Nat} (h : n < 16) : hex_value (hex_digit n) = some n ∧ is_ascii (hex_digit n) := by
  interval_cases n <;> decide

theorem hex_byte_digits (b : UInt8) :
    hex_byte (hex_digit (b.toNat / 16)) (hex_digit (b.toNat % 16)) = some b := by
  have hlt := b.toNat_lt
  unfold hex_byte
  rw [(hex_value_digit (by omega)).1, (hex_value_digit (by omega)).1]
  have hsum : b.toNat / 16 * 16 + b.toNat % 16 = b.toNat := by omega
  change some (UInt8.ofNat (b.toNat / 16 * 16 + b.toNat % 16)) = some b
  rw [hsum, UInt8.ofNat_toNat]

theorem safe_byte : ∀ n : Fin 256, is_safe (Char.ofNat n) →
    Char.ofNat n ≠ '%' ∧ is_ascii (Char.ofNat n) ∧ (Char.ofNat n).toNat = n := by
  decide +kernel

theorem quote_byte_ascii (b : UInt8) {c : Char} (hc : c ∈ quote_byte b) : is_ascii c := by
  have hlt := b.toNat_lt
  unfold quote_byte at hc
  dsimp only at hc
  split at hc
  · rename_i hsafe
    obtain rfl := List.mem_singleton.mp hc
    exact (safe_byte ⟨b.toNat, hlt⟩ hsafe).2.1
  · simp only [List.mem_cons, List.not_mem_nil, or_false] at hc
    rcases hc with rfl | rfl | rfl
    · decide
    · exact (hex_value_digit (by omega)).2
    · exact (hex_value_digit (by omega)).2

theorem mem_quote {s : Text} {c : Char} (hc : c ∈ quote s) : is_safe c ∨ c = '%' := by
  obtain ⟨b, -, hb⟩ := List.mem_flatMap.mp hc
  have hlt := b.toNat_lt
  have hdigit : ∀ n < 16, is_safe (hex_digit n) := by decide
  unfold quote_byte at hb
  dsimp only at hb
  split at hb
  · rename_i hsafe
    obtain rfl := List.mem_singleton.mp hb
    exact .inl hsafe
  · simp only [List.mem_cons, List.not_mem_nil, or_false] at hb
    rcases hb with rfl | rfl | rfl
    · exact .inr rfl
    · exact .inl (hdigit _ (by omega))
    · exact .inl (hdigit _ (by omega))

theorem unquote_to_bytes_quote_byte (b : UInt8) (t : Text) :
    unquote_to_bytes (quote_byte b ++ t) = b :: unquote_to_bytes t := by
  have hlt := b.toNat_lt
  unfold quote_byte
  dsimp only
  split
  · rename_i hsafe
    obtain ⟨hne, -, hnat⟩ := safe_byte ⟨b.toNat, hlt⟩ hsafe
    have hbyte : UInt8.ofNat (Char.ofNat b.toNat).toNat = b := by
      rw [hnat]
      exact UInt8.ofNat_toNat
    rw [List.singleton_append, unquote_to_bytes.eq_2 _ _ (by
      rintro a d s hpercent
      exact absurd hpercent hne), hbyte]
  · change unquote_to_bytes ('%' :: hex_digit (b.toNat / 16) :: hex_digit (b.toNat % 16) :: t) = _
    rw [unquote_to_bytes.eq_1, hex_byte_digits]

theorem unquote_to_bytes_quote (s : Text) : unquote_to_bytes (quote s) = encode s := by
  have hbytes : ∀ bytes : Bytes, unquote_to_bytes (bytes.flatMap quote_byte) = bytes := by
    intro bytes
    induction bytes with
    | nil => exact unquote_to_bytes.eq_3
    | cons b bytes ih => rw [List.flatMap_cons, unquote_to_bytes_quote_byte, ih]
  exact hbytes (encode s)

theorem quote_ascii (s : Text) {c : Char} (hc : c ∈ quote s) : is_ascii c := by
  obtain ⟨b, -, hb⟩ := List.mem_flatMap.mp hc
  exact quote_byte_ascii b hb

theorem encode_char_ascii {c : Char} (hc : is_ascii c) : String.utf8EncodeChar c = [UInt8.ofNat c.toNat] := by
  have hle : c.toNat ≤ 0x7f := Nat.lt_succ_iff.mp (by simpa [is_ascii] using hc)
  unfold String.utf8EncodeChar
  exact if_pos hle

theorem unquote_to_bytes_plain {s : Text} (hpercent : '%' ∉ s) (hascii : ∀ c ∈ s, is_ascii c) :
    unquote_to_bytes s = encode s := by
  induction s with
  | nil => exact unquote_to_bytes.eq_3
  | cons c s ih =>
    rw [List.mem_cons, not_or] at hpercent
    rw [List.forall_mem_cons] at hascii
    rw [unquote_to_bytes.eq_2 _ _ (by
      rintro a d t rfl
      exact absurd rfl hpercent.1), ih hpercent.2 hascii.2]
    unfold encode
    rw [List.flatMap_cons, encode_char_ascii hascii.1]
    rfl

theorem unquote_quote (s : Text) : unquote (quote s) = s := by
  have hdecode : decode (unquote_to_bytes (quote s)) = s := by
    rw [unquote_to_bytes_quote, decode_encode]
  unfold unquote
  split
  · rename_i hpercent
    have hone : (quote s).splitBy (fun a b => is_ascii a = is_ascii b) = [quote s] := by
      apply List.splitBy_of_isChain (List.ne_nil_of_mem hpercent)
      apply List.Pairwise.isChain
      apply List.pairwise_of_forall_mem_list
      intro a ha b hb
      simp [quote_ascii s ha, quote_ascii s hb]
    have hall : (quote s).all is_ascii = true := List.all_eq_true.mpr fun c => quote_ascii s
    rw [hone, List.flatMap_singleton, if_pos hall, hdecode]
  · rename_i hpercent
    rw [unquote_to_bytes_plain hpercent fun c => quote_ascii s, decode_encode] at hdecode
    exact hdecode

end yocto.percent_codes
