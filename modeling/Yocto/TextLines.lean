-- The lines of a text file as Python reads them, and the words of a line.
import Yocto.DataSmart

open yocto.task_ids yocto.data_smart

namespace yocto.text_lines

/-- Every end of a line is a newline. -/
def universal : Text → Text
  | [] => []
  | c :: s =>
    if c = '\r' then
      match s with
      | [] => ['\n']
      | d :: rest => if d = '\n' then '\n' :: universal rest else '\n' :: universal (d :: rest)
    else c :: universal s

def lines_of : Text → List Text
  | [] => []
  | c :: s =>
    if c = '\n' then ['\n'] :: lines_of s
    else match lines_of s with
      | [] => [[c]]
      | l :: ls => (c :: l) :: ls

/-- `readlines`, with the newlines. -/
def readlines (s : Text) : List Text := lines_of (universal s)

def strip (s : Text) : Text := ((s.dropWhile isspace).reverse.dropWhile isspace).reverse

theorem strip_eq_self {s : Text} (h : ∀ c ∈ s, isspace c = false) : strip s = s := by
  have hdrop : ∀ s : Text, (∀ c ∈ s, isspace c = false) → s.dropWhile isspace = s := by
    intro s hs
    cases s with
    | nil => rfl
    | cons c s => rw [List.dropWhile_cons_of_neg (by simp [hs c List.mem_cons_self])]
  unfold strip
  rw [hdrop s h, hdrop s.reverse (fun c hc => h c (List.mem_reverse.mp hc)), List.reverse_reverse]

theorem universal_of_not_mem {s : Text} (h : '\r' ∉ s) : universal s = s := by
  induction s with
  | nil => rfl
  | cons c s ih =>
    rw [List.mem_cons, not_or] at h
    rw [universal.eq_def]
    dsimp only
    rw [if_neg (Ne.symm h.1), ih h.2]

theorem lines_of_line {l : Text} (h : '\n' ∉ l) (rest : Text) :
    lines_of (l ++ '\n' :: rest) = (l ++ ['\n']) :: lines_of rest := by
  induction l with
  | nil => rfl
  | cons c l ih =>
    rw [List.mem_cons, not_or] at h
    rw [List.cons_append, lines_of, if_neg (Ne.symm h.1), ih h.2]
    rfl

def Line (l : Text) : Prop := ∃ t, l = t ++ ['\n'] ∧ '\n' ∉ t ∧ '\r' ∉ t

theorem readlines_flatten {ls : List Text} (h : ∀ l ∈ ls, Line l) : readlines ls.flatten = ls := by
  have hreturn : '\r' ∉ ls.flatten := by
    intro hmem
    obtain ⟨l, hl, hmem⟩ := List.mem_flatten.mp hmem
    obtain ⟨t, rfl, -, ht⟩ := h l hl
    simp [ht] at hmem
  unfold readlines
  rw [universal_of_not_mem hreturn]
  clear hreturn
  induction ls with
  | nil => rfl
  | cons l ls ih =>
    rw [List.forall_mem_cons] at h
    obtain ⟨⟨t, rfl, hnewline, -⟩, hrest⟩ := h
    rw [List.flatten_cons, List.append_assoc, List.singleton_append, lines_of_line hnewline, ih hrest]

/-! ## Words -/

/-- A text that is not empty and has no white space. -/
structure Word (w : Text) : Prop where
  nonempty : w ≠ []
  no_space : ∀ c ∈ w, isspace c = false

theorem Word.of_all {w : Text} (hne : w ≠ []) (h : (w.all fun c => !isspace c) = true) : Word w :=
  ⟨hne, by simpa using h⟩

theorem Word.not_mem {w : Text} (h : Word w) {c : Char} (hc : isspace c = true) : c ∉ w := by
  intro hmem
  rw [h.no_space c hmem] at hc
  cases hc

theorem words_nil : words [] = [] := by
  simp [words]

theorem words_cons {w : Text} (h : Word w) {c : Char} (hc : isspace c = true) (s : Text) :
    words (w ++ c :: s) = w :: words s := by
  unfold words
  rw [List.splitOnP_append_cons_of_forall_mem h.no_space c hc, List.filter_cons_of_pos (by simpa using h.nonempty)]

theorem words_append_space {c : Char} (hc : isspace c = true) (s t : Text) :
    words (s ++ c :: t) = words s ++ words t := by
  unfold words
  rw [List.splitOnP_append_cons s t hc, List.filter_append]

theorem words_of_part {p : Text} (hp : ∀ c ∈ p, isspace c = false) :
    words p = if p = [] then [] else [p] := by
  unfold words
  rw [List.splitOnP_eq_singleton hp]
  by_cases h : p = [] <;> simp [h]

theorem by_parts {motive : Text → Prop} (part : ∀ p, (∀ c ∈ p, isspace c = false) → motive p)
    (space : ∀ p c s, (∀ c ∈ p, isspace c = false) → isspace c = true → motive s →
      motive (p ++ c :: s)) (s : Text) : motive s := by
  suffices h : ∀ p, (∀ c ∈ p, isspace c = false) → motive (p ++ s) by
    exact h [] (fun c hc => nomatch hc)
  induction s with
  | nil =>
    intro p hp
    rw [List.append_nil]
    exact part p hp
  | cons c s ih =>
    intro p hp
    cases hc : isspace c with
    | true => exact space p c s hp hc (ih [] (fun c hc => nomatch hc))
    | false =>
      rw [← List.singleton_append, ← List.append_assoc]
      apply ih
      intro x hx
      rcases List.mem_append.mp hx with hx | hx
      · exact hp x hx
      · rw [List.mem_singleton.mp hx]
        exact hc

theorem mem_of_mem_words {s w : Text} (h : w ∈ words s) {c : Char} (hc : c ∈ w) : c ∈ s := by
  have hpart {p : Text} (hp : ∀ c ∈ p, isspace c = false) (h : w ∈ words p) : c ∈ p := by
    rw [words_of_part hp] at h
    split at h
    · cases h
    · rwa [← List.mem_singleton.mp h]
  induction s using by_parts with
  | part p hp => exact hpart hp h
  | space p d s hp hd ih =>
    rw [words_append_space hd, List.mem_append] at h
    rw [List.mem_append]
    rcases h with h | h
    · exact .inl (hpart hp h)
    · exact .inr (List.mem_cons_of_mem _ (ih h))

/-! ## The white space between the words -/

theorem whitespace_split_part {p : Text} (hp : ∀ c ∈ p, isspace c = false) :
    whitespace_split p = [p] := by
  induction p with
  | nil => rfl
  | cons c p ih =>
    rw [List.forall_mem_cons] at hp
    rw [whitespace_split, if_neg (by simp [hp.1]), ih hp.2]

theorem whitespace_split_space {p : Text} (hp : ∀ c ∈ p, isspace c = false) {c : Char}
    (hc : isspace c = true) (s : Text) :
    whitespace_split (p ++ c :: s) = p :: [c] :: whitespace_split s := by
  induction p with
  | nil => rw [List.nil_append, whitespace_split, if_pos hc]
  | cons x p ih =>
    rw [List.forall_mem_cons] at hp
    rw [List.cons_append, whitespace_split, if_neg (by simp [hp.1]), ih hp.2]

theorem whitespace_split_flatten (s : Text) : (whitespace_split s).flatten = s := by
  induction s using by_parts with
  | part p hp => simp [whitespace_split_part hp]
  | space p c s hp hc ih => simp [whitespace_split_space hp hc, ih]

/-- A text without the words that meet `p`; all that is between the words stays. -/
def delete_words (p : Text → Bool) (s : Text) : Text :=
  ((whitespace_split s).filter fun v => !p v).flatten

section
variable {p : Text → Bool}

theorem delete_words_part {q : Text} (hq : ∀ c ∈ q, isspace c = false) :
    delete_words p q = if p q then [] else q := by
  rw [delete_words, whitespace_split_part hq]
  cases hdel : p q <;> simp [hdel]

theorem delete_words_space (hp : ∀ w, p w → Word w) {q : Text} (hq : ∀ c ∈ q, isspace c = false)
    {c : Char} (hc : isspace c = true) (s : Text) :
    delete_words p (q ++ c :: s) = delete_words p q ++ c :: delete_words p s := by
  have hspace : p [c] = false := by
    rw [Bool.eq_false_iff]
    intro h
    exact absurd hc (by simp [(hp _ h).no_space c])
  rw [delete_words_part hq, delete_words, whitespace_split_space hq hc]
  cases hdel : p q <;> simp [hdel, hspace, delete_words]

theorem words_delete_words (hp : ∀ w, p w → Word w) (s : Text) :
    words (delete_words p s) = (words s).filter fun w => !p w := by
  have hpart : ∀ q, (∀ c ∈ q, isspace c = false) →
      words (delete_words p q) = (words q).filter fun w => !p w := by
    intro q hq
    rw [delete_words_part hq, words_of_part hq]
    cases hdel : p q with
    | true =>
      have hne : q ≠ [] := (hp q hdel).nonempty
      simp [hdel, hne, words_nil]
    | false =>
      by_cases hne : q = []
      · simp [hne, words_nil]
      · simp [hdel, hne, words_of_part hq]
  induction s using by_parts with
  | part q hq => exact hpart q hq
  | space q c s hq hc ih =>
    rw [delete_words_space hp hq hc, words_append_space hc, words_append_space hc, hpart q hq, ih,
      List.filter_append]

theorem delete_words_congr {p' : Text → Bool} (hp : ∀ w, p w → Word w) (hp' : ∀ w, p' w → Word w)
    {s : Text} (h : ∀ w ∈ words s, p w = p' w) : delete_words p s = delete_words p' s := by
  have hpart : ∀ q, (∀ c ∈ q, isspace c = false) → (∀ w ∈ words q, p w = p' w) →
      delete_words p q = delete_words p' q := by
    intro q hq hwords
    rw [delete_words_part hq, delete_words_part hq]
    rw [words_of_part hq] at hwords
    by_cases hne : q = []
    · simp [hne]
    · rw [hwords q (by simp [hne])]
  induction s using by_parts with
  | part q hq => exact hpart q hq h
  | space q c s hq hc ih =>
    rw [words_append_space hc] at h
    rw [delete_words_space hp hq hc, delete_words_space hp' hq hc,
      hpart q hq (fun w hw => h w (List.mem_append_left _ hw)),
      ih (fun w hw => h w (List.mem_append_right _ hw))]

theorem delete_words_eq_iff {p' : Text → Bool} (hp : ∀ w, p w → Word w) (hp' : ∀ w, p' w → Word w)
    (s : Text) : delete_words p s = delete_words p' s ↔ ∀ w ∈ words s, p w = p' w := by
  refine ⟨fun h w hw => ?_, delete_words_congr hp hp'⟩
  have hleft := congrArg words h
  rw [words_delete_words hp, words_delete_words hp'] at hleft
  have hmem : w ∈ (words s).filter (fun w => !p w) ↔ w ∈ (words s).filter fun w => !p' w := by
    rw [hleft]
  simpa [hw] using hmem

end

end yocto.text_lines
