-- The codec `unicode_escape` of Python: a text as printable ASCII, with escapes for
-- all other characters, and the way back.
import Yocto.TaskIds

open yocto.task_ids

namespace yocto.unicode_escape

/-! ## Hexadecimal numbers -/

def hexDigit (n : Nat) : Char := Char.ofNat (if n < 10 then 48 + n else 87 + n)

def hexValue (c : Char) : Option Nat :=
  let n := c.toNat
  if 48 ≤ n ∧ n ≤ 57 then some (n - 48)
  else if 97 ≤ n ∧ n ≤ 102 then some (n - 87)
  else if 65 ≤ n ∧ n ≤ 70 then some (n - 55)
  else none

/-- A number with `width` digits. -/
def hex : Nat → Nat → Text
  | 0, _ => []
  | width + 1, n => hex width (n / 16) ++ [hexDigit (n % 16)]

def unhex (digits : Text) : Option Nat := digits.foldlM (fun n c => (hexValue c).map (16 * n + ·)) 0

theorem hexValue_hexDigit {n : Nat} (h : n < 16) : hexValue (hexDigit n) = some n := by
  interval_cases n <;> decide

theorem length_hex (width n : Nat) : (hex width n).length = width := by
  induction width generalizing n with
  | zero => rfl
  | succ width ih => rw [hex, List.length_append, ih, List.length_singleton]

theorem unhex_hex {width n : Nat} (h : n < 16 ^ width) : unhex (hex width n) = some n := by
  induction width generalizing n with
  | zero =>
    obtain rfl : n = 0 := by simpa using h
    rfl
  | succ width ih =>
    have hdiv : n / 16 < 16 ^ width := by
      rw [Nat.div_lt_iff_lt_mul (by decide), ← Nat.pow_succ]
      exact h
    have hmod : n % 16 < 16 := Nat.mod_lt _ (by decide)
    unfold unhex at ih ⊢
    rw [hex, List.foldlM_append, ih hdiv]
    simp only [Option.bind_eq_bind, Option.bind_some, List.foldlM_cons, List.foldlM_nil, hexValue_hexDigit hmod]
    simp only [Option.map_some, Option.bind_some, Option.pure_def, Option.some.injEq]
    omega

/-! ## Encoding -/

def backslash : Char := Char.ofNat 92

def encodeChar (c : Char) : Text :=
  let n := c.toNat
  if c = backslash then [backslash, backslash]
  else if n = 9 then [backslash, 't']
  else if n = 10 then [backslash, 'n']
  else if n = 13 then [backslash, 'r']
  else if 32 ≤ n ∧ n < 127 then [c]
  else if n < 0x100 then backslash :: 'x' :: hex 2 n
  else if n < 0x10000 then backslash :: 'u' :: hex 4 n
  else backslash :: 'U' :: hex 8 n

def encode (s : Text) : Text := s.flatMap encodeChar

/-! ## Decoding -/

/-- The character of a code point. There is none for half of a surrogate pair. -/
def chr (n : Nat) : Option Char := if n.isValidChar then some (Char.ofNat n) else none

/-- The character with the number of the first digits, and what is behind them. -/
def numbered (width : Nat) (s : Text) : Option (Text × Text) :=
  if s.length < width then none
  else ((unhex (s.take width)).bind chr).map fun c => ([c], s.drop width)

def isOctal (c : Char) : Bool := 48 ≤ c.toNat && c.toNat ≤ 55

/-- What an escape stands for, and what is behind it. Names of characters are left out. -/
def unescape (c : Char) (s : Text) : Option (Text × Text) :=
  match c.toNat with
  | 10 => some ([], s)
  | 92 => some ([c], s)
  | 39 => some ([c], s)
  | 34 => some ([c], s)
  | 98 => some ([Char.ofNat 8], s)
  | 102 => some ([Char.ofNat 12], s)
  | 116 => some ([Char.ofNat 9], s)
  | 110 => some ([Char.ofNat 10], s)
  | 114 => some ([Char.ofNat 13], s)
  | 118 => some ([Char.ofNat 11], s)
  | 97 => some ([Char.ofNat 7], s)
  | 120 => numbered 2 s
  | 117 => numbered 4 s
  | 85 => numbered 8 s
  | 78 => none
  | _ =>
    if isOctal c then
      let digits := c :: (s.take 2).takeWhile isOctal
      some ([Char.ofNat (digits.foldl (fun n d => 8 * n + (d.toNat - 48)) 0)], s.drop (digits.length - 1))
    else some ([backslash, c], s)

theorem numbered_le {width : Nat} {s t rest : Text} (h : numbered width s = some (t, rest)) :
    rest.length ≤ s.length := by
  unfold numbered at h
  split at h
  · cases h
  · obtain ⟨c, -, hc⟩ := Option.map_eq_some_iff.mp h
    obtain ⟨-, rfl⟩ := Prod.mk.inj hc
    rw [List.length_drop]
    omega

theorem unescape_le {c : Char} {s t rest : Text} (h : unescape c s = some (t, rest)) :
    rest.length ≤ s.length := by
  unfold unescape at h
  split at h
  all_goals first
    | exact numbered_le h
    | (obtain ⟨-, rfl⟩ := Prod.mk.inj (Option.some.inj h); exact le_refl _)
    | cases h
    | skip
  split at h
  · obtain ⟨-, rfl⟩ := Prod.mk.inj (Option.some.inj h)
    rw [List.length_drop]
    omega
  · obtain ⟨-, rfl⟩ := Prod.mk.inj (Option.some.inj h)
    exact le_refl _

/-- A character that is no escape. What is not ASCII is decoded by the bytes of UTF-8. -/
def plain (c : Char) : Text :=
  if c.toNat < 128 then [c] else (String.utf8EncodeChar c).map fun b => Char.ofNat b.toNat

def decode (s : Text) : Option Text :=
  match s with
  | [] => some []
  | c :: s =>
    if c = backslash then
      match s with
      | [] => none
      | e :: s =>
        match h : unescape e s with
        | none => none
        | some (t, rest) =>
          have := unescape_le h
          (decode rest).map (t ++ ·)
    else (decode s).map (plain c ++ ·)
termination_by s.length

/-! ## The way back -/

theorem numbered_hex {width : Nat} {c : Char} (h : c.toNat < 16 ^ width) (s : Text) :
    numbered width (hex width c.toNat ++ s) = some ([c], s) := by
  have hlen := length_hex width c.toNat
  have htake : (hex width c.toNat ++ s).take width = hex width c.toNat := List.take_left' hlen
  have hdrop : (hex width c.toNat ++ s).drop width = s := List.drop_left' hlen
  have hchr : chr c.toNat = some c := by
    have hvalid : c.toNat.isValidChar := c.valid
    unfold chr
    rw [if_pos hvalid, Char.ofNat_toNat]
  unfold numbered
  rw [if_neg (by rw [List.length_append]; omega), htake, hdrop, unhex_hex h, Option.bind_some, hchr,
    Option.map_some]

theorem decode_escape {e : Char} {s t rest : Text} (h : unescape e s = some (t, rest)) :
    decode (backslash :: e :: s) = (decode rest).map (t ++ ·) := by
  rw [decode, if_pos rfl]
  dsimp only
  split
  · rename_i hnone
    rw [hnone] at h
    cases h
  · rename_i t' rest' hsome
    rw [hsome] at h
    obtain ⟨rfl, rfl⟩ := Prod.mk.inj (Option.some.inj h)
    rfl

theorem decode_plain {c : Char} {s : Text} (h : c ≠ backslash) :
    decode (c :: s) = (decode s).map (plain c ++ ·) := by
  rw [decode.eq_def]
  dsimp only
  rw [if_neg h]

theorem decode_encodeChar (c : Char) (s : Text) : decode (encodeChar c ++ s) = (decode s).map (c :: ·) := by
  have hback : ∀ n, c.toNat = n → c = Char.ofNat n := fun n h => by rw [← h, Char.ofNat_toNat]
  have hlt : c.toNat < 0x110000 := by
    have hvalid : c.toNat.isValidChar := c.valid
    rcases hvalid with h | h <;> omega
  unfold encodeChar
  dsimp only
  split_ifs with hbackslash htab hnewline hreturn hprintable hbyte hshort
  · have h : unescape backslash s = some ([backslash], s) := rfl
    rw [hbackslash]
    exact decode_escape h
  · have h : unescape 't' s = some ([Char.ofNat 9], s) := rfl
    rw [hback 9 htab]
    exact decode_escape h
  · have h : unescape 'n' s = some ([Char.ofNat 10], s) := rfl
    rw [hback 10 hnewline]
    exact decode_escape h
  · have h : unescape 'r' s = some ([Char.ofNat 13], s) := rfl
    rw [hback 13 hreturn]
    exact decode_escape h
  · have hplain : plain c = [c] := if_pos (by omega)
    rw [List.singleton_append, decode_plain hbackslash, hplain]
    rfl
  · have h : unescape 'x' (hex 2 c.toNat ++ s) = some ([c], s) := numbered_hex (by omega) s
    exact decode_escape h
  · have h : unescape 'u' (hex 4 c.toNat ++ s) = some ([c], s) := numbered_hex (by omega) s
    exact decode_escape h
  · have h : unescape 'U' (hex 8 c.toNat ++ s) = some ([c], s) := numbered_hex (by omega) s
    exact decode_escape h

theorem decode_encode (s : Text) : decode (encode s) = some s := by
  induction s with
  | nil => simp [encode, decode]
  | cons c s ih =>
    rw [encode, List.flatMap_cons, decode_encodeChar]
    rw [encode] at ih
    rw [ih, Option.map_some]

/-! ## What an encoded text looks like -/

def Printable (c : Char) : Prop := 32 ≤ c.toNat ∧ c.toNat < 127

theorem printable_hexDigit {n : Nat} (h : n < 16) : Printable (hexDigit n) ∧ hexDigit n ≠ ' ' := by
  unfold Printable
  interval_cases n <;> decide

theorem printable_hex {width n : Nat} {c : Char} (h : c ∈ hex width n) : Printable c := by
  induction width generalizing n with
  | zero => simp [hex] at h
  | succ width ih =>
    rcases List.mem_append.mp h with h | h
    · exact ih h
    · rw [List.mem_singleton.mp h]
      exact (printable_hexDigit (Nat.mod_lt _ (by decide))).1

theorem printable_escape {l : Char} {width n : Nat} (hl : Printable l) : ∀ d ∈ l :: hex width n, Printable d := by
  rw [List.forall_mem_cons]
  exact ⟨hl, fun d hd => printable_hex hd⟩

theorem encodeChar_cases (c : Char) : (encodeChar c = [c] ∧ Printable c) ∨
    ∃ rest, encodeChar c = backslash :: rest ∧ ∀ d ∈ rest, Printable d := by
  have hbackslash : Printable backslash := ⟨by decide, by decide⟩
  have ht : Printable 't' := ⟨by decide, by decide⟩
  have hn : Printable 'n' := ⟨by decide, by decide⟩
  have hr : Printable 'r' := ⟨by decide, by decide⟩
  have hx : Printable 'x' := ⟨by decide, by decide⟩
  have hu : Printable 'u' := ⟨by decide, by decide⟩
  have hU : Printable 'U' := ⟨by decide, by decide⟩
  unfold encodeChar
  dsimp only
  split_ifs with h1 h2 h3 h4 hprintable h6 h7
  · exact .inr ⟨_, rfl, by simpa using hbackslash⟩
  · exact .inr ⟨_, rfl, by simpa using ht⟩
  · exact .inr ⟨_, rfl, by simpa using hn⟩
  · exact .inr ⟨_, rfl, by simpa using hr⟩
  · exact .inl ⟨rfl, hprintable⟩
  · exact .inr ⟨_, rfl, printable_escape hx⟩
  · exact .inr ⟨_, rfl, printable_escape hu⟩
  · exact .inr ⟨_, rfl, printable_escape hU⟩

theorem printable_encode {s : Text} : ∀ c ∈ encode s, Printable c := by
  intro c hc
  obtain ⟨d, -, hd⟩ := List.mem_flatMap.mp hc
  rcases encodeChar_cases d with ⟨heq, hprintable⟩ | ⟨rest, heq, hrest⟩
  · rw [heq] at hd
    exact List.mem_singleton.mp hd ▸ hprintable
  · rw [heq] at hd
    rcases List.mem_cons.mp hd with rfl | hd
    · exact ⟨by decide, by decide⟩
    · exact hrest c hd

theorem head_encode {s : Text} (hne : s ≠ []) (hspace : s.head? ≠ some ' ') :
    ∃ c rest, encode s = c :: rest ∧ c ≠ ' ' := by
  obtain ⟨c, s, rfl⟩ := List.exists_cons_of_ne_nil hne
  rw [encode, List.flatMap_cons]
  rcases encodeChar_cases c with ⟨heq, -⟩ | ⟨rest, heq, -⟩
  · exact ⟨c, _, by rw [heq]; rfl, fun h => hspace (by rw [h, List.head?_cons])⟩
  · exact ⟨backslash, _, by rw [heq]; rfl, by decide⟩

theorem encode_printable {s : Text} (h : ∀ c ∈ s, Printable c ∧ c ≠ backslash) : encode s = s := by
  induction s with
  | nil => rfl
  | cons c s ih =>
    rw [List.forall_mem_cons] at h
    obtain ⟨⟨hlow, hhigh⟩, hne⟩ := h.1
    have hc : encodeChar c = [c] := by
      unfold encodeChar
      dsimp only
      rw [if_neg hne, if_neg (by omega), if_neg (by omega), if_neg (by omega), if_pos ⟨hlow, hhigh⟩]
    have hs := ih h.2
    unfold encode at hs ⊢
    rw [List.flatMap_cons, hc, hs]
    rfl

end yocto.unicode_escape
