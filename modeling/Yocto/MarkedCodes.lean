-- Characters that are written as words between two marks, and texts that are read back by
-- replacing one word after the other.
import Yocto.ListSearch

open yocto.list_search

namespace yocto.marked_codes

variable {α : Type}

structure Code (α : Type) where
  char : α
  word : List α

def Code.marked (m : α) (code : Code α) : List α := m :: (code.word ++ [m])

/-- The words hold no character that is written as a word, and the mark is read last. -/
structure Table (m : α) (codes : List (Code α)) : Prop where
  distinct : codes.Pairwise fun a b => a.char ≠ b.char ∧ a.word ≠ b.word
  plain : ∀ a ∈ codes, ∀ b ∈ codes, a.char ∉ b.word
  mark_last : ∀ code, codes.getLast? = some code → code.char = m
  apart : ∀ a ∈ codes, ∀ b ∈ codes, a.char = m → b.char ≠ m → ¬ a.word <+: b.word ∧ ¬ b.word <+: a.word

variable {m : α} {code : Code α} {codes : List (Code α)}

theorem Table.tail (h : Table m (code :: codes)) : Table m codes where
  distinct := (List.pairwise_cons.mp h.distinct).2
  plain := fun a ha b hb => h.plain a (List.mem_cons_of_mem _ ha) b (List.mem_cons_of_mem _ hb)
  mark_last := by
    intro last hlast
    apply h.mark_last
    cases codes with
    | nil => cases hlast
    | cons c cs => rwa [List.getLast?_cons_cons]
  apart := fun a ha b hb => h.apart a (List.mem_cons_of_mem _ ha) b (List.mem_cons_of_mem _ hb)

theorem Table.mark_mem (h : Table m codes) (hne : codes ≠ []) : ∃ code ∈ codes, code.char = m :=
  ⟨codes.getLast hne, List.getLast_mem hne, h.mark_last _ (List.getLast?_eq_some_getLast hne)⟩

theorem Table.mark_not_mem (h : Table m codes) {a : Code α} (ha : a ∈ codes) : m ∉ a.word := by
  obtain ⟨last, hlast, rfl⟩ := h.mark_mem (List.ne_nil_of_mem ha)
  exact h.plain last hlast a ha

theorem Table.head_apart (h : Table m (code :: codes)) {a : Code α} (ha : a ∈ codes) :
    code.char ≠ a.char ∧ code.word ≠ a.word :=
  (List.pairwise_cons.mp h.distinct).1 a ha

theorem Table.head_ne_mark (h : Table m (code :: codes)) (hne : codes ≠ []) : code.char ≠ m := by
  obtain ⟨last, hlast, rfl⟩ := h.tail.mark_mem hne
  exact (h.head_apart hlast).1

theorem Table.word_inj (h : Table m codes) {a b : Code α} (ha : a ∈ codes) (hb : b ∈ codes)
    (heq : a.word = b.word) : a = b := by
  induction codes with
  | nil => cases ha
  | cons code codes ih =>
    rcases List.mem_cons.mp ha with rfl | ha' <;> rcases List.mem_cons.mp hb with rfl | hb'
    · rfl
    · exact absurd heq (h.head_apart hb').2
    · exact absurd heq.symm (h.head_apart ha').2
    · exact ih h.tail ha' hb'

/-! ## What is written -/

variable [DecidableEq α]

def spell (m : α) (codes : List (Code α)) (c : α) : List α :=
  match codes.find? fun code => code.char = c with
  | some code => code.marked m
  | none => [c]

def spelled (m : α) (codes : List (Code α)) (s : List α) : List α := s.flatMap (spell m codes)

/-- One word after the other is replaced, from the first one. -/
def read (m : α) (codes : List (Code α)) (s : List α) : List α :=
  codes.foldl (fun s code => replace (code.marked m) [code.char] s) s

/-- One character after the other is replaced, from the last one. -/
def write (m : α) (codes : List (Code α)) (s : List α) : List α :=
  codes.foldr (fun code s => replace [code.char] (code.marked m) s) s

theorem spell_cons_self (m : α) (code : Code α) (codes : List (Code α)) :
    spell m (code :: codes) code.char = code.marked m := by
  simp [spell]

theorem spell_cons_of_ne {c : α} (h : code.char ≠ c) : spell m (code :: codes) c = spell m codes c := by
  simp [spell, h]

theorem spell_of_no_code {c : α} (h : ∀ code ∈ codes, code.char ≠ c) : spell m codes c = [c] := by
  have hfind : codes.find? (fun code => decide (code.char = c)) = none :=
    List.find?_eq_none.mpr fun code hcode => by simpa using h code hcode
  unfold spell
  rw [hfind]

theorem Table.spell_code (h : Table m codes) {a : Code α} (ha : a ∈ codes) :
    spell m codes a.char = a.marked m := by
  induction codes with
  | nil => cases ha
  | cons code codes ih =>
    rcases List.mem_cons.mp ha with rfl | ha
    · exact spell_cons_self m a codes
    · rw [spell_cons_of_ne (h.head_apart ha).1]
      exact ih h.tail ha

theorem spell_cases (codes : List (Code α)) (c : α) :
    (∃ code ∈ codes, code.char = c) ∨ ∀ code ∈ codes, code.char ≠ c := by
  by_cases h : ∃ code ∈ codes, code.char = c
  · exact Or.inl h
  · exact Or.inr fun code hcode heq => h ⟨code, hcode, heq⟩

theorem replace_char (c : α) (new s : List α) :
    replace [c] new s = s.flatMap fun d => if d = c then new else [d] := by
  induction s with
  | nil => rfl
  | cons d s ih =>
    rw [List.flatMap_cons, ← ih]
    split
    · rename_i heq
      rw [heq]
      exact replace_start (List.cons_ne_nil c []) new s
    · rename_i hne
      apply replace_append_of_no_start (a := [d]) new
      intro k hk
      obtain rfl : k = 0 := by simpa using hk
      simp [Ne.symm hne]

theorem Table.write_eq (h : Table m codes) (s : List α) : write m codes s = spelled m codes s := by
  induction codes with
  | nil =>
    have hspell : spell m ([] : List (Code α)) = fun c => [c] := rfl
    rw [spelled, hspell, List.flatMap_singleton']
    rfl
  | cons code codes ih =>
    have hwrite : write m (code :: codes) s = replace [code.char] (code.marked m) (write m codes s) := rfl
    rw [hwrite, ih h.tail, replace_char]
    unfold spelled
    rw [List.flatMap_assoc]
    apply List.flatMap_congr
    intro c _
    rcases spell_cases codes c with ⟨a, ha, rfl⟩ | hnone
    · -- what is written for the characters before holds no other of them
      have hkeep : ∀ x ∈ a.marked m, x ≠ code.char := by
        intro x hx heq
        have hplain := h.plain code List.mem_cons_self a (List.mem_cons_of_mem _ ha)
        simp only [Code.marked, List.mem_cons, List.mem_append, List.not_mem_nil, or_false] at hx
        rcases hx with rfl | hx | rfl
        · exact h.head_ne_mark (List.ne_nil_of_mem ha) heq.symm
        · exact hplain (heq ▸ hx)
        · exact h.head_ne_mark (List.ne_nil_of_mem ha) heq.symm
      rw [spell_cons_of_ne (h.head_apart ha).1, h.tail.spell_code ha]
      have hflat : ∀ t : List α, (∀ x ∈ t, x ≠ code.char) →
          t.flatMap (fun d => if d = code.char then code.marked m else [d]) = t := by
        intro t ht
        induction t with
        | nil => rfl
        | cons x t ih =>
          rw [List.forall_mem_cons] at ht
          rw [List.flatMap_cons, if_neg ht.1, ih ht.2]
          rfl
      exact hflat _ hkeep
    · rw [spell_of_no_code hnone, List.flatMap_singleton]
      by_cases hc : code.char = c
      · rw [if_pos hc.symm, ← hc, spell_cons_self]
      · rw [if_neg (Ne.symm hc), spell_cons_of_ne hc, spell_of_no_code hnone]

theorem spelled_cons (m : α) (codes : List (Code α)) (c : α) (s : List α) :
    spelled m codes (c :: s) = spell m codes c ++ spelled m codes s := rfl

theorem spelled_append (m : α) (codes : List (Code α)) (s t : List α) :
    spelled m codes (s ++ t) = spelled m codes s ++ spelled m codes t := List.flatMap_append

theorem Table.spelled_inj (h : Table m codes) {s t : List α} (heq : spelled m codes s = spelled m codes t) :
    s = t := by
  induction s generalizing t with
  | nil =>
    cases t with
    | nil => rfl
    | cons d t =>
      exfalso
      rw [spelled_cons] at heq
      rcases spell_cases codes d with ⟨b, hb, rfl⟩ | hd
      · rw [h.spell_code hb] at heq
        cases heq
      · rw [spell_of_no_code hd] at heq
        cases heq
  | cons c s ih =>
    cases t with
    | nil =>
      exfalso
      rw [spelled_cons] at heq
      rcases spell_cases codes c with ⟨a, ha, rfl⟩ | hc
      · rw [h.spell_code ha] at heq
        cases heq
      · rw [spell_of_no_code hc] at heq
        cases heq
    | cons d t =>
      rw [spelled_cons, spelled_cons] at heq
      rcases spell_cases codes c with ⟨a, ha, rfl⟩ | hc <;> rcases spell_cases codes d with ⟨b, hb, rfl⟩ | hd
      · rw [h.spell_code ha, h.spell_code hb] at heq
        simp only [Code.marked, List.cons_append, List.append_assoc, List.nil_append] at heq
        obtain ⟨-, hrest⟩ := List.cons.inj heq
        obtain ⟨hword, hst⟩ := cut_inj (h.mark_not_mem ha) (h.mark_not_mem hb) hrest
        rw [h.word_inj ha hb hword, ih hst]
      · rw [h.spell_code ha, spell_of_no_code hd] at heq
        obtain ⟨last, hlast, hmark⟩ := h.mark_mem (List.ne_nil_of_mem ha)
        exact absurd (hmark.trans (List.cons.inj heq).1) (hd last hlast)
      · rw [h.spell_code hb, spell_of_no_code hc] at heq
        obtain ⟨last, hlast, hmark⟩ := h.mark_mem (List.ne_nil_of_mem hb)
        exact absurd (hmark.trans (List.cons.inj heq).1.symm) (hc last hlast)
      · rw [spell_of_no_code hc, spell_of_no_code hd] at heq
        obtain ⟨rfl, hst⟩ := List.cons.inj heq
        rw [ih hst]

/-! ## What is read -/

/-- The word of a code stands between two characters that are still written as words, and the
first of them is read later. -/
def Slips (code : Code α) (codes : List (Code α)) (s : List α) : Prop :=
  ∃ x ∈ codes, ∃ y ∈ code :: codes, x.char :: (code.word ++ [y.char]) <:+: s

/-- A word slips when its turn comes. -/
def Slipped : List (Code α) → List α → Prop
  | [], _ => False
  | code :: codes, s => Slips code codes s ∨ Slipped codes s

instance Slips.instDecidable (code : Code α) (codes : List (Code α)) (s : List α) :
    Decidable (Slips code codes s) :=
  inferInstanceAs (Decidable (∃ x ∈ codes, ∃ y ∈ code :: codes, x.char :: (code.word ++ [y.char]) <:+: s))

instance Slipped.instDecidable : ∀ (codes : List (Code α)) (s : List α), Decidable (Slipped codes s)
  | [], _ => isFalse id
  | code :: codes, s =>
    have := Slipped.instDecidable codes s
    inferInstanceAs (Decidable (Slips code codes s ∨ Slipped codes s))

/-- A word that slips where the text goes on with `v`. -/
def SlipsBefore (m : α) (code : Code α) (codes : List (Code α)) (u v : List α) : Prop :=
  ∃ before, ∃ x ∈ codes, ∃ behind, u = before ++ x.char :: (code.word ++ behind) ∧
    (spelled m (code :: codes) behind ++ v).head? = some m

theorem replace_of_no_mark (new : List α) {a : List α} (h : m ∉ a) (b : List α) :
    replace (code.marked m) new (a ++ b) = a ++ replace (code.marked m) new b := by
  apply replace_append_of_no_start
  intro k hk hstart
  rw [List.drop_eq_getElem_cons hk, List.cons_append] at hstart
  exact h ((List.cons_prefix_cons.mp hstart).1 ▸ List.getElem_mem hk)

theorem replace_marked (m : α) (code : Code α) (new b : List α) :
    replace (code.marked m) new (code.marked m ++ b) = new ++ replace (code.marked m) new b :=
  replace_start (List.cons_ne_nil m _) new b

theorem replace_mark (new : List α) {b : List α} (h : ¬ code.marked m <+: m :: b) :
    replace (code.marked m) new (m :: b) = m :: replace (code.marked m) new b := by
  apply replace_append_of_no_start (a := [m]) new
  intro k hk
  obtain rfl : k = 0 := by simpa using hk
  exact h

theorem spelled_word {w : List α} (h : ∀ a ∈ codes, a.char ∉ w) : spelled m codes w = w := by
  induction w with
  | nil => rfl
  | cons c w ih =>
    have hc : ∀ a ∈ codes, a.char ≠ c := fun a ha heq => h a ha (heq ▸ List.mem_cons_self)
    rw [spelled_cons, spell_of_no_code hc, ih fun a ha hmem => h a ha (List.mem_cons_of_mem c hmem)]
    rfl

theorem Table.word_of_spelled (h : Table m codes) {w u v t : List α} (hw : ∀ a ∈ codes, a.char ∉ w) (hmark : m ∉ w)
    (hv : ∀ c ∈ v.head?, c = m) (heq : spelled m codes u ++ v = w ++ m :: t) :
    ∃ behind, u = w ++ behind ∧ (spelled m codes behind ++ v).head? = some m := by
  induction w generalizing u with
  | nil => exact ⟨u, rfl, by rw [heq]; rfl⟩
  | cons x w ih =>
    have hx : x ≠ m := fun hxm => hmark (hxm ▸ List.mem_cons_self)
    cases u with
    | nil =>
      have hhead : v = x :: (w ++ m :: t) := heq
      exact absurd (hv x (by rw [hhead]; rfl)) hx
    | cons c u =>
      rw [spelled_cons] at heq
      rcases spell_cases codes c with ⟨a, ha, rfl⟩ | hc
      · rw [h.spell_code ha] at heq
        exact absurd (List.cons.inj heq).1.symm hx
      · rw [spell_of_no_code hc] at heq
        obtain ⟨rfl, hrest⟩ := List.cons.inj heq
        obtain ⟨behind, rfl, hbehind⟩ := ih (fun a ha hmem => hw a ha (List.mem_cons_of_mem c hmem))
          (fun hmem => hmark (List.mem_cons_of_mem c hmem)) hrest
        exact ⟨behind, rfl, hbehind⟩

theorem slipsBefore_cons {c : α} {u v : List α} : SlipsBefore m code codes (c :: u) v ↔
    (∃ x ∈ codes, x.char = c ∧ ∃ behind, u = code.word ++ behind ∧
      (spelled m (code :: codes) behind ++ v).head? = some m) ∨ SlipsBefore m code codes u v := by
  constructor
  · rintro ⟨before, x, hx, behind, heq, hbehind⟩
    cases before with
    | nil =>
      obtain ⟨rfl, rfl⟩ := List.cons.inj heq
      exact Or.inl ⟨x, hx, rfl, behind, rfl, hbehind⟩
    | cons b before =>
      obtain ⟨rfl, rfl⟩ := List.cons.inj heq
      exact Or.inr ⟨before, x, hx, behind, rfl, hbehind⟩
  · rintro (⟨x, hx, rfl, behind, rfl, hbehind⟩ | ⟨before, x, hx, behind, rfl, hbehind⟩)
    · exact ⟨[], x, hx, behind, rfl, hbehind⟩
    · exact ⟨c :: before, x, hx, behind, rfl, hbehind⟩

/-- What one turn makes of a text behind which `v` stands: each of the words is read, or one slips, and
what stands before it ends with a word that has lost a mark. -/
inductive Turned (m : α) (code : Code α) (codes : List (Code α)) (u v : List α) : List α → Prop
  | reads (hno : ¬ SlipsBefore m code codes u v) :
    Turned m code codes u v (spelled m codes u ++ replace (code.marked m) [code.char] v)
  | slips (before : List α) {x : Code α} {behind : List α} (rest : List α) (hx : x ∈ codes)
      (hu : u = before ++ x.char :: (code.word ++ behind))
      (hbehind : (spelled m (code :: codes) behind ++ v).head? = some m) :
    Turned m code codes u v (spelled m codes before ++ m :: (x.word ++ code.char :: rest))

theorem Turned.cons {c : α} {u v t : List α} (h : Turned m code codes u v t)
    (hno : ¬ ∃ x ∈ codes, x.char = c ∧ ∃ behind, u = code.word ++ behind ∧
      (spelled m (code :: codes) behind ++ v).head? = some m) :
    Turned m code codes (c :: u) v (spell m codes c ++ t) := by
  cases h with
  | reads hu =>
    rw [← List.append_assoc]
    exact Turned.reads (u := c :: u) fun hslips => (slipsBefore_cons.mp hslips).elim hno hu
  | slips before rest hx hu hbehind =>
    rw [← List.append_assoc]
    exact Turned.slips (c :: before) rest hx (by rw [hu]; rfl) hbehind

theorem Table.replace_later (h : Table m (code :: codes)) {x : Code α} (hx : x ∈ codes) (b : List α) :
    replace (code.marked m) [code.char] (m :: (x.word ++ m :: b)) =
      m :: (x.word ++ replace (code.marked m) [code.char] (m :: b)) := by
  have hmark : m ∉ code.word := h.mark_not_mem List.mem_cons_self
  have hmx : m ∉ x.word := h.tail.mark_not_mem hx
  rw [replace_mark, replace_of_no_mark _ hmx]
  rintro ⟨t, ht⟩
  simp only [Code.marked, List.cons_append, List.append_assoc, List.nil_append] at ht
  exact (h.head_apart hx).2 (cut_inj hmark hmx (List.cons.inj ht).2).1

theorem Table.replace_spelled (h : Table m (code :: codes)) (u : List α) {v : List α} (hv : ∀ c ∈ v.head?, c = m) :
    Turned m code codes u v (replace (code.marked m) [code.char] (spelled m (code :: codes) u ++ v)) := by
  have hword : ∀ a ∈ code :: codes, a.char ∉ code.word := fun a ha => h.plain a ha code List.mem_cons_self
  have hmark : m ∉ code.word := h.mark_not_mem List.mem_cons_self
  induction u with
  | nil =>
    apply Turned.reads (u := [])
    rintro ⟨before, x, _, behind, heq, _⟩
    simp at heq
  | cons c u ih =>
    rw [spelled_cons, List.append_assoc]
    by_cases hc : code.char = c
    · -- the word of the turn
      have hno : ∀ a ∈ codes, a.char ≠ c := fun a ha heq => (h.head_apart ha).1 (hc.trans heq.symm)
      have hcons := ih.cons (c := c) fun ⟨x, hx, heq, _⟩ => hno x hx heq
      rw [spell_of_no_code hno] at hcons
      rw [← hc] at hcons ⊢
      rwa [spell_cons_self, replace_marked]
    rcases spell_cases codes c with ⟨x, hx, rfl⟩ | hnone
    · -- a word that is read later
      have hform : ∀ b : List α, x.marked m ++ b = m :: (x.word ++ m :: b) := by simp [Code.marked]
      rw [spell_cons_of_ne hc, h.tail.spell_code hx, hform, h.replace_later hx]
      by_cases hstart : code.marked m <+: m :: (spelled m (code :: codes) u ++ v)
      · obtain ⟨t, ht⟩ := hstart
        have hrest : spelled m (code :: codes) u ++ v = code.word ++ m :: t := by
          simp only [Code.marked, List.cons_append, List.append_assoc, List.nil_append] at ht
          exact (List.cons.inj ht).2.symm
        obtain ⟨behind, rfl, hbehind⟩ := h.word_of_spelled hword hmark hv hrest
        rw [← ht, replace_marked]
        exact Turned.slips [] _ hx rfl hbehind
      · rw [replace_mark _ hstart, ← hform, ← h.tail.spell_code hx]
        apply ih.cons
        rintro ⟨_, _, _, behind, rfl, hbehind⟩
        obtain ⟨t, ht⟩ : ∃ t, spelled m (code :: codes) behind ++ v = m :: t :=
          List.head?_eq_some_iff.mp hbehind
        apply hstart
        rw [spelled_append, spelled_word hword, List.append_assoc, ht]
        exact ⟨t, by simp [Code.marked]⟩
    · -- a character that is written as itself
      have hcm : c ≠ m := by
        obtain ⟨last, hlast, hlastm⟩ := h.mark_mem (List.cons_ne_nil code codes)
        rcases List.mem_cons.mp hlast with rfl | hlast
        · exact fun hcm => hc (hlastm.trans hcm.symm)
        · exact fun hcm => hnone last hlast (hlastm.trans hcm.symm)
      have hcons := ih.cons (c := c) fun ⟨x, hx, heq, _⟩ => hnone x hx heq
      rw [spell_cons_of_ne hc, spell_of_no_code hnone, replace_of_no_mark]
      · rwa [spell_of_no_code hnone] at hcons
      · simpa using Ne.symm hcm

/-- A text in which a word has lost a mark: what stands before it is written as it should be. -/
inductive Damaged (m : α) (codes : List (Code α)) (all : List (Code α)) (s : List α) : List α → Prop
  | lost {before : List α} {x y : Code α} (behind rest : List α) (hx : x ∈ all) (hy : y ∈ all)
      (hne : x.char ≠ y.char) (hmark : y.char ≠ m) (hs : s = before ++ x.char :: (y.word ++ behind)) :
    Damaged m codes all s (spelled m codes before ++ m :: (x.word ++ y.char :: rest))

theorem Damaged.turn {all : List (Code α)} (hall : Table m all) (h : Table m (code :: codes))
    (hsub : ∀ a ∈ code :: codes, a ∈ all) {s t : List α} (hd : Damaged m (code :: codes) all s t) :
    Damaged m codes all s (replace (code.marked m) [code.char] t) := by
  have hcode := hsub code List.mem_cons_self
  cases hd with
  | lost behind rest hx hy hne hmark hs =>
    rename_i before x y
    have hv : ∀ c ∈ (m :: (x.word ++ y.char :: rest)).head?, c = m := fun c hc => (Option.some.inj hc).symm
    have hturn := h.replace_spelled before hv
    generalize replace (code.marked m) [code.char]
      (spelled m (code :: codes) before ++ m :: (x.word ++ y.char :: rest)) = t at hturn
    cases hturn with
    | reads hno =>
      have hkeep : replace (code.marked m) [code.char] (m :: (x.word ++ y.char :: rest)) =
          m :: (x.word ++ y.char :: replace (code.marked m) [code.char] rest) := by
        have hword : m ∉ x.word ++ [y.char] := by
          simp [hall.mark_not_mem hx, Ne.symm hmark]
        have hcons : x.word ++ y.char :: rest = (x.word ++ [y.char]) ++ rest := by simp
        rw [replace_mark, hcons, replace_of_no_mark _ hword]
        · simp
        · -- the character stands where the word would have to end
          rintro ⟨t, ht⟩
          simp only [Code.marked, List.cons_append, List.append_assoc, List.nil_append] at ht
          rcases List.append_eq_append_iff.mp (List.cons.inj ht).2 with ⟨c, hx', hc⟩ | ⟨c, hcode', hc⟩
          · cases c with
            | nil => exact hmark (List.cons.inj hc).1.symm
            | cons b c =>
              apply hall.mark_not_mem hx
              rw [hx', (List.cons.inj hc).1]
              simp
          · cases c with
            | nil => exact hmark (List.cons.inj hc).1
            | cons b c =>
              apply hall.plain y hy code hcode
              rw [hcode', (List.cons.inj hc).1]
              simp
      rw [hkeep]
      exact Damaged.lost behind _ hx hy hne hmark hs
    | slips before' rest' hx' hu hbehind =>
      rename_i x' behind'
      have hmark' : code.char ≠ m := h.head_ne_mark (List.ne_nil_of_mem hx')
      refine Damaged.lost (behind' ++ x.char :: (y.word ++ behind)) rest'
        (hsub _ (List.mem_cons_of_mem _ hx')) hcode (h.head_apart hx').1.symm hmark' ?_
      rw [hs, hu]
      simp

theorem Damaged.ne {all : List (Code α)} (hall : Table m all) {s t : List α} (hd : Damaged m [] all s t) : t ≠ s := by
  cases hd with
  | lost behind rest hx hy hne hmark hs =>
    rename_i before x y
    intro heq
    have hspelled : spelled m [] before = before := spelled_word fun a ha => absurd ha List.not_mem_nil
    rw [hspelled, hs] at heq
    obtain ⟨hxm, hrest⟩ := List.cons.inj (List.append_cancel_left heq)
    obtain ⟨hxy, hyx⟩ := hall.apart x hx y hy hxm.symm hmark
    have hpre : x.word <+: y.word ++ behind := ⟨y.char :: rest, hrest⟩
    rcases List.prefix_or_prefix_of_prefix hpre (List.prefix_append y.word behind) with h | h
    · exact hxy h
    · exact hyx h

theorem slips_iff (h : Table m (code :: codes)) (s : List α) :
    Slips code codes s ↔ SlipsBefore m code codes s [] := by
  constructor
  · rintro ⟨x, hx, y, hy, before, behind, hs⟩
    refine ⟨before, x, hx, y.char :: behind, ?_, ?_⟩
    · rw [← hs]
      simp
    · rw [List.append_nil, spelled_cons, h.spell_code hy]
      rfl
  · rintro ⟨before, x, hx, behind, rfl, hbehind⟩
    rw [List.append_nil] at hbehind
    cases behind with
    | nil => cases hbehind
    | cons c behind =>
      rw [spelled_cons] at hbehind
      rcases spell_cases (code :: codes) c with ⟨y, hy, rfl⟩ | hc
      · exact ⟨x, hx, y, hy, before, behind, by simp⟩
      · rw [spell_of_no_code hc] at hbehind
        obtain ⟨last, hlast, hmark⟩ := h.mark_mem (List.cons_ne_nil code codes)
        exact absurd (hmark.trans (Option.some.inj hbehind).symm) (hc last hlast)

theorem Damaged.read_ne {all : List (Code α)} (hall : Table m all) (h : Table m codes)
    (hsub : ∀ a ∈ codes, a ∈ all) {s t : List α} (hd : Damaged m codes all s t) : read m codes t ≠ s := by
  induction codes generalizing t with
  | nil => exact hd.ne hall
  | cons code codes ih =>
    exact ih h.tail (fun a ha => hsub a (List.mem_cons_of_mem _ ha)) (hd.turn hall h hsub)

theorem Table.read_spelled_iff (h : Table m codes) (s : List α) :
    read m codes (spelled m codes s) = s ↔ ¬ Slipped codes s := by
  suffices hrun : ∀ left, Table m left → (∀ a ∈ left, a ∈ codes) →
      (read m left (spelled m left s) = s ↔ ¬ Slipped left s) from hrun codes h fun a ha => ha
  intro left
  induction left with
  | nil =>
    intro _ _
    have hspelled : spelled m [] s = s := spelled_word fun a ha => absurd ha List.not_mem_nil
    simp [read, Slipped, hspelled]
  | cons code left ih =>
    intro hleft hsub
    have hread : read m (code :: left) (spelled m (code :: left) s) =
        read m left (replace (code.marked m) [code.char] (spelled m (code :: left) s ++ [])) := by
      rw [List.append_nil]
      rfl
    have hsub' : ∀ a ∈ left, a ∈ codes := fun a ha => hsub a (List.mem_cons_of_mem _ ha)
    have hturn := hleft.replace_spelled s (v := []) fun c hc => by cases hc
    have hslips := slips_iff hleft s
    rw [hread]
    unfold Slipped
    rw [hslips, not_or]
    generalize replace (code.marked m) [code.char] (spelled m (code :: left) s ++ []) = t at hturn
    cases hturn with
    | reads hno =>
      have hnil : replace (code.marked m) [code.char] ([] : List α) = [] := rfl
      rw [hnil, List.append_nil, ih hleft.tail hsub']
      exact (and_iff_right hno).symm
    | slips before rest hx hu hbehind =>
      rename_i x behind
      have hd : Damaged m left codes s (spelled m left before ++ m :: (x.word ++ code.char :: rest)) :=
        Damaged.lost behind rest (hsub' x hx) (hsub code List.mem_cons_self) (hleft.head_apart hx).1.symm
          (hleft.head_ne_mark (List.ne_nil_of_mem hx)) hu
      exact iff_of_false (hd.read_ne h hleft.tail hsub') fun hboth => hboth.1 ⟨before, x, hx, behind, hu, hbehind⟩

end yocto.marked_codes
