-- Texts of C: the bytes before a NUL, read by position. Reading before or beyond a
-- text is a fault, and a text that stands at a position of another one is read
-- there as it is.
import Yocto.ListSearch
import Yocto.Raising

open yocto.list_search
open yocto.raising

namespace yocto.c_text

/-! ## Reading -/

inductive Fault where
  | read
  | assert
  deriving DecidableEq

variable {s t t' : Bytes} {i p : Nat}

/-- The byte at a position. The NUL is right after the text. -/
def peek (s : Bytes) (i : Nat) : Except Fault UInt8 :=
  match s[i]? with
  | some c => .ok c
  | none => if i = s.length then .ok 0 else .error .read

def peek_back (s : Bytes) : Nat → Except Fault UInt8
  | 0 => .error .read
  | i + 1 => peek s i

def assert (p : Prop) [Decidable p] : Except Fault Unit := if p then .ok () else .error .assert

def strlen (s : Bytes) (p : Nat) : Except Fault Nat :=
  if p ≤ s.length then .ok (s.length - p) else .error .read

/-- Where a text is found from a position on. -/
def strstr (s pat : Bytes) (p : Nat) : Except Fault (Option {e // p ≤ e ∧ e + pat.length ≤ s.length}) :=
  if hp : p ≤ s.length then
    match h : findFrom pat s p with
    | none => .ok none
    | some e => .ok (some ⟨e, by
        obtain ⟨hle, hpre, -⟩ := findFrom_eq_some h
        have hlen := hpre.length_le
        obtain ⟨a, ha, rfl⟩ := Option.map_eq_some_iff.mp h
        have := ((find_eq_some_iff _ _ _).mp ha).1
        rw [List.length_drop] at hlen this
        omega⟩)
  else .error .read

/-- `strncmp(s + p, lit, strlen(lit)) == 0`. A NUL is no byte of `lit`, and ends the comparison. -/
def strncmp (s : Bytes) (p : Nat) : Bytes → Except Fault Bool
  | [] => .ok true
  | c :: lit => do
    if (← peek s p) = c then strncmp s (p + 1) lit else return false

def tolower (c : UInt8) : UInt8 := if 65 ≤ c ∧ c ≤ 90 then c + 32 else c

/-- `strncasecmp(s + p, lit, strlen(lit)) == 0`. -/
def strncasecmp (s : Bytes) (p : Nat) : Bytes → Except Fault Bool
  | [] => .ok true
  | c :: lit => do
    if tolower (← peek s p) = tolower c then strncasecmp s (p + 1) lit else return false

def memcpy (s : Bytes) (p len : Nat) : Except Fault Bytes :=
  if p + len ≤ s.length then .ok ((s.drop p).take len) else .error .read

/-! ## Calls without a fault -/

/-- A call comes to its end without a fault, and what it returns meets `post`. -/
def Safe {α : Type} (post : α → Prop) (x : Except Fault α) : Prop := Meets (fun _ => False) post x

section Safe

variable {α β : Type} {post : α → Prop}

theorem Safe.bind {mid : β → Prop} {x : Except Fault β} {f : β → Except Fault α}
    (h : Safe mid x) (hf : ∀ b, mid b → Safe post (f b)) : Safe post (x >>= f) :=
  Meets.bind h hf

theorem Safe.ok {a : α} (h : post a) : Safe post (.ok a) := h

theorem Safe.pure {a : α} (h : post a) : Safe post (pure a : Except Fault α) := h

theorem Safe.mono {post' : α → Prop} {x : Except Fault α} (h : Safe post x) (hpost : ∀ a, post a → post' a) :
    Safe post' x := by
  cases x with
  | ok a => exact hpost a h
  | error e => exact h

theorem Safe.exists_ok {x : Except Fault α} (h : Safe post x) : ∃ a, x = .ok a ∧ post a := by
  cases x with
  | ok a => exact ⟨a, rfl, h⟩
  | error e => exact absurd h id

end Safe

theorem peek_safe (h : i ≤ s.length) : Safe (fun c => i < s.length ∨ c = 0) (peek s i) := by
  unfold peek
  split
  · rename_i c hc
    exact .ok (.inl (List.getElem?_eq_some_iff.mp hc).1)
  · rename_i hnone
    have := List.getElem?_eq_none_iff.mp hnone
    rw [if_pos (by omega)]
    exact .ok (.inr rfl)

theorem peek_back_safe (h : 0 < i ∧ i ≤ s.length) : Safe (fun _ => True) (peek_back s i) := by
  cases i with
  | zero => omega
  | succ i => exact (peek_safe (by omega)).mono fun _ _ => trivial

theorem assert_ok {p : Prop} [Decidable p] (h : p) : assert p = .ok () := if_pos h

theorem assert_safe {p : Prop} [Decidable p] (h : p) : Safe (fun _ => True) (assert p) := by
  rw [assert_ok h]
  exact .ok trivial

theorem strlen_safe (h : p ≤ s.length) : Safe (fun n => p + n = s.length) (strlen s p) := by
  unfold strlen
  rw [if_pos h]
  exact .ok (by omega)

theorem strstr_safe {pat : Bytes} (h : p ≤ s.length) : Safe (fun _ => True) (strstr s pat p) := by
  unfold strstr
  rw [dif_pos h]
  split <;> exact .ok trivial

theorem strncmp_safe {lit : Bytes} (h : p ≤ s.length) (hnul : (0 : UInt8) ∉ lit) :
    Safe (fun same => same = true → p + lit.length ≤ s.length) (strncmp s p lit) := by
  induction lit generalizing p with
  | nil => exact .ok fun _ => by simpa using h
  | cons c lit ih =>
    rw [List.mem_cons, not_or] at hnul
    refine (peek_safe h).bind fun b hb => ?_
    split
    · rename_i heq
      have hlt : p < s.length := hb.resolve_right fun hz => hnul.1 (hz.symm.trans heq)
      refine (ih (p := p + 1) (by omega) hnul.2).mono fun same hsame htrue => ?_
      have := hsame htrue
      rw [List.length_cons]
      omega
    · exact .pure fun hfalse => by cases hfalse

theorem strncasecmp_safe {lit : Bytes} (h : p + lit.length ≤ s.length) :
    Safe (fun _ => True) (strncasecmp s p lit) := by
  induction lit generalizing p with
  | nil => exact .ok trivial
  | cons c lit ih =>
    rw [List.length_cons] at h
    refine (peek_safe (by omega)).bind fun b _ => ?_
    split
    · exact ih (by omega)
    · exact .pure trivial

theorem memcpy_safe {len : Nat} (h : p + len ≤ s.length) : Safe (fun _ => True) (memcpy s p len) := by
  unfold memcpy
  rw [if_pos h]
  exact .ok trivial

/-! ## Texts at a position -/

def At (s : Bytes) (p : Nat) (t : Bytes) : Prop := t <+: s.drop p

theorem At.append_iff : At s p (t ++ t') ↔ At s p t ∧ At s (p + t.length) t' := by
  unfold At
  rw [← List.drop_drop]
  constructor
  · rintro ⟨rest, hrest⟩
    rw [← hrest]
    refine ⟨⟨t' ++ rest, by simp⟩, ?_⟩
    rw [List.append_assoc, List.drop_left]
    exact ⟨rest, rfl⟩
  · rintro ⟨⟨rest, hrest⟩, hlater⟩
    rw [← hrest, List.drop_left] at hlater
    rw [← hrest]
    exact (List.prefix_append_right_inj t).mpr hlater

theorem At.cons_iff {c : UInt8} : At s p (c :: t) ↔ s[p]? = some c ∧ At s (p + 1) t := by
  rw [show c :: t = [c] ++ t from rfl, At.append_iff]
  refine and_congr_left fun _ => ?_
  unfold At
  rw [List.singleton_prefix_iff_head?_eq_some, List.head?_drop]

theorem At.length_le (h : At s p t) (ht : t ≠ []) : p + t.length ≤ s.length := by
  have hlen := List.IsPrefix.length_le h
  have := List.length_pos_iff.mpr ht
  rw [List.length_drop] at hlen
  omega

theorem At.get (h : At s p t) (hi : i < t.length) : s[p + i]? = t[i]? := by
  obtain ⟨rest, hrest⟩ := h
  rw [← List.getElem?_drop, ← hrest, List.getElem?_append_left hi]

theorem peek_at {c : UInt8} (h : s[p]? = some c) : peek s p = .ok c := by
  rw [peek, h]

theorem strncmp_at {lit : Bytes} (h : At s p lit) : strncmp s p lit = .ok true := by
  induction lit generalizing p with
  | nil => rfl
  | cons c lit ih =>
    rw [At.cons_iff] at h
    unfold strncmp
    rw [peek_at h.1]
    simp only [bind, Except.bind, if_true]
    exact ih h.2

theorem strncmp_not_at {lit : Bytes} {c : UInt8} (h : At s p (t ++ [c])) (hc : c ∉ lit) (hpre : ¬lit <+: t) :
    strncmp s p lit = .ok false := by
  induction lit generalizing p t with
  | nil => exact absurd List.nil_prefix hpre
  | cons d lit ih =>
    rw [List.mem_cons, not_or] at hc
    unfold strncmp
    cases t with
    | nil =>
      rw [List.nil_append, At.cons_iff] at h
      rw [peek_at h.1]
      simp [bind, Except.bind, hc.1, pure, Except.pure]
    | cons b t =>
      rw [List.cons_append, At.cons_iff] at h
      rw [List.cons_prefix_cons, not_and] at hpre
      rw [peek_at h.1]
      simp only [bind, Except.bind]
      split
      · rename_i hsame
        exact ih h.2 hc.2 (hpre hsame.symm)
      · rfl

theorem strncasecmp_at {lit : Bytes} (h : At s p t) (hlen : t.length = lit.length) :
    strncasecmp s p lit = .ok (decide (t.map tolower = lit.map tolower)) := by
  induction lit generalizing p t with
  | nil =>
    rw [List.length_nil, List.length_eq_zero_iff] at hlen
    subst hlen
    rfl
  | cons c lit ih =>
    cases t with
    | nil => simp at hlen
    | cons b t =>
      rw [At.cons_iff] at h
      unfold strncasecmp
      rw [peek_at h.1]
      simp only [bind, Except.bind, List.map_cons, List.cons.injEq]
      split
      · rename_i hsame
        rw [ih h.2 (by simpa using hlen)]
        simp [hsame]
      · rename_i hdiff
        simp [hdiff, pure, Except.pure]

theorem peek_back_at {c : UInt8} (h : s[p]? = some c) : peek_back s (p + 1) = .ok c := peek_at h

theorem strstr_at {pat rest : Bytes} (h : At s p (t ++ (pat ++ rest))) (hp : p ≤ s.length) (hpat : Marker pat)
    (hnone : ¬pat <:+: t) : ∃ e, strstr s pat p = .ok (some e) ∧ e.1 = p + t.length := by
  obtain ⟨rest', hrest⟩ := h
  have hfind : findFrom pat s p = some (p + t.length) := by
    rw [findFrom, ← hrest, List.append_assoc, List.append_assoc, hpat.find_append _ hnone, Option.map_some,
      Nat.add_comm]
  unfold strstr
  rw [dif_pos hp]
  split
  · rename_i h
    rw [hfind] at h
    cases h
  · rename_i e h
    rw [hfind] at h
    exact ⟨_, rfl, (Option.some.inj h).symm⟩

theorem strstr_none {pat : Bytes} (h : At s p t) (hlen : p + t.length = s.length) (hnone : ¬pat <:+: t) :
    strstr s pat p = .ok none := by
  have hdrop : s.drop p = t := by
    refine (List.IsPrefix.eq_of_length h ?_).symm
    rw [List.length_drop]
    omega
  have hfind : findFrom pat s p = none := by
    rw [findFrom, hdrop, (find_eq_none_iff pat t).mpr hnone, Option.map_none]
  unfold strstr
  rw [dif_pos (by omega)]
  split
  · rfl
  · rename_i e h
    rw [hfind] at h
    cases h

theorem memcpy_at (h : At s p t) (hp : p ≤ s.length) : memcpy s p t.length = .ok t := by
  unfold memcpy
  have hlen := List.IsPrefix.length_le h
  rw [List.length_drop] at hlen
  rw [if_pos (by omega), List.prefix_iff_eq_take.mp h, List.length_take, List.length_drop,
    Nat.min_eq_left hlen]

end yocto.c_text
