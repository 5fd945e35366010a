-- The versions that the check for known vulnerabilities compares.
import Yocto.Backtracking
import Yocto.Doubles
import Yocto.PythonInt
import Mathlib.Tactic.IntervalCases

open yocto.task_ids yocto.data_smart yocto.backtracking yocto.doubles yocto.python_int

namespace yocto.cve_versions

/-! ## The regular expression -/

/-- What else `re.IGNORECASE` finds for a letter. -/
def foreign : List (Char × Char) := [('i', 'İ'), ('i', 'ı'), ('s', 'ſ'), ('k', 'K')]

/-- A letter of the expression, with `re.IGNORECASE`. -/
def same_letter (l c : Char) : Bool := c.toLower = l || foreign.any fun x => x.1 = l && x.2 = c

/-- `[a-z]`, with `re.IGNORECASE`. -/
def letter (c : Char) : Bool := ascii_letter c || foreign.any fun x => x.2 = c

/-- One character of a class. -/
def one_of (p : Char → Bool) : Text → List (Text × Text)
  | [] => []
  | c :: s => if p c then [([c], s)] else []

def word : Text → Text → List (Text × Text)
  | [], s => [([], s)]
  | _ :: _, [] => []
  | l :: w, c :: s => if same_letter l c then (word w s).map fun x => (c :: x.1, x.2) else []

def word_of (words : List Text) (s : Text) : List (Text × Text) := words.flatMap fun w => word w s

/-- `[-_\.]?` -/
def separator : Text → List (Option Text × Text) := at_most_one (one_of fun c => c = '-' || c = '_' || c = '.')

/-- `(?:[-\.][0-9]+)*`, with a bound for its turns. -/
def more_numbers : ℕ → Text → List (Text × Text)
  | 0, s => [([], s)]
  | n + 1, s => ((one_of (fun c => c = '-' || c = '.') s).flatMap fun a => (greedy1 ascii_digit a.2).flatMap fun b =>
      (more_numbers n b.2).map fun x => (a.1 ++ b.1 ++ x.1, x.2)) ++ [([], s)]

/-- `(?P<release>[0-9]+(?:[-\.][0-9]+)*)` -/
def release (s : Text) : List (Text × Text) :=
  (greedy1 ascii_digit s).flatMap fun a => (more_numbers a.2.length a.2).map fun x => (a.1 ++ x.1, x.2)

/-- `(?P<patch>[-_\.]?(?P<patch_l>[a-z]))` -/
def letter_patch (s : Text) : List (Text × Text) := (separator s).flatMap fun a => one_of letter a.2

/-- `(?P<patch>[-_\.]?(p|patch)(?P<patch_l>[0-9]+))` -/
def number_patch (s : Text) : List (Text × Text) :=
  (separator s).flatMap fun a => (word_of [text "p", text "patch"] a.2).flatMap fun b => greedy1 ascii_digit b.2

def kinds : List Text := [text "rc", text "alpha", text "beta", text "pre", text "preview", text "dev"]

/-- `(?P<pre>[-_\.]?(?P<pre_l>(rc|alpha|beta|pre|preview|dev))[-_\.]?(?P<pre_v>[0-9]+)?)` -/
def pre (s : Text) : List ((Text × Option Text) × Text) :=
  (separator s).flatMap fun a => (word_of kinds a.2).flatMap fun b => (separator b.2).flatMap fun c =>
    (at_most_one (greedy1 ascii_digit) c.2).map fun d => ((b.1, d.1), d.2)

/-- `str(suffix)` -/
def str (suffix : Option Text) : Text := suffix.getD (text "None")

/-- The group `patch` of the expression for a suffix, if it has one. -/
def patch (suffix : Option Text) (s : Text) : List (Option Text × Text) :=
  if str suffix = text "alphabetical" then at_most_one letter_patch s
  else if str suffix = text "patch" then at_most_one number_patch s
  else [(none, s)]

structure Groups where
  release : Text
  patch_l : Option Text
  pre : Option (Text × Option Text)

/-- The whole expression, with the white space around it and the rest of the text. -/
def matches_of (suffix : Option Text) (version : Text) : List Groups :=
  (greedy isspace version).flatMap fun a =>
  (at_most_one (one_of (same_letter 'r')) a.2).flatMap fun b =>
  (at_most_one (one_of (same_letter 'v')) b.2).flatMap fun c =>
  (release c.2).flatMap fun d =>
  (patch suffix d.2).flatMap fun e =>
  (at_most_one pre e.2).flatMap fun f =>
  (at_most_one (greedy (fun c => c ≠ '\n')) f.2).flatMap fun g =>
  ((greedy isspace g.2).filter fun h => h.2 = [] ∨ h.2 = ['\n']).map fun _ => ⟨d.1, e.1, f.1⟩

/-! ## `Version` -/

inductive Raised
  | invalid_version (version : Text)

structure Version where
  release : List ℕ
  patch_l : Text
  pre_l : Option Text
  pre_v : Option Text

/-- `tuple(int(i) for i in release.replace("-", ".").split("."))` -/
def numbers (release : Text) : List ℕ :=
  ((release.map fun c => if c = '-' then '.' else c).splitOn '.').map (digits_value 0)

def init (version : Text) (suffix : Option Text) : Except Raised Version :=
  match (matches_of suffix version).head? with
  | none => .error (.invalid_version version)
  | some m => .ok {
      release := numbers m.release
      patch_l := if str suffix = text "alphabetical" ∨ str suffix = text "patch" then m.patch_l.getD [] else []
      pre_l := m.pre.map Prod.fst
      pre_v := m.pre.bind Prod.snd }

/-- `patch_l.upper()`, for what the expression finds. -/
def upper (c : Char) : Char := if c = 'ı' then 'I' else if c = 'ſ' then 'S' else c.toUpper

/-- A release, a patch and a number between the infinities. -/
structure Key where
  release : List ℕ
  patch : Text
  pre : WithBot (WithTop ℕ)

/-- Without the zeros at the end. -/
def trimmed (release : List ℕ) : List ℕ := (release.reverse.dropWhile (· = 0)).reverse

def cmpkey (release : List ℕ) (patch_l : Text) (pre_l pre_v : Option Text) : Key where
  release := trimmed release
  patch := patch_l.map upper
  pre :=
    if pre_l = none ∧ pre_v = none then ⊤
    else match pre_v with
      | some v => if v = [] then ⊥ else (double (digits_value 0 v) : WithTop ℕ)
      | none => ⊥

def Version.key (v : Version) : Key := cmpkey v.release v.patch_l v.pre_l v.pre_v

def Version.eq (a b : Version) : Bool :=
  a.key.release = b.key.release && a.key.patch = b.key.patch && a.key.pre = b.key.pre

/-- Tuples are compared at the first place where they differ. -/
def Version.gt (a b : Version) : Bool :=
  if a.key.release ≠ b.key.release then b.key.release < a.key.release
  else if a.key.patch ≠ b.key.patch then b.key.patch < a.key.patch
  else b.key.pre < a.key.pre

/-- `functools.total_ordering` -/
def Version.lt (a b : Version) : Bool := !a.gt b && !a.eq b

/-! ## Versions as they are written -/

structure Numeral where
  digits : Text
  nonempty : digits ≠ []
  decimal : ∀ c ∈ digits, ascii_digit c = true

def Numeral.value (n : Numeral) : ℕ := digits_value 0 n.digits

inductive Point
  | dash | dot

def Point.char : Point → Char
  | .dash => '-'
  | .dot => '.'

/-- Numbers with dots or dashes between them. -/
structure Release where
  first : Numeral
  more : List (Point × Numeral)

def Release.more_text (more : List (Point × Numeral)) : Text := more.flatMap fun x => x.1.char :: x.2.digits

def Release.text (r : Release) : Text := r.first.digits ++ Release.more_text r.more

/-- A component, zero behind the last one. -/
def Release.component (r : Release) (i : ℕ) : ℕ := (r.first.value :: r.more.map fun x => x.2.value).getD i 0

/-- The first component that differs is smaller. -/
def Release.Smaller (r s : Release) : Prop :=
  ∃ i, (∀ j < i, r.component j = s.component j) ∧ r.component i < s.component i

def Release.Same (r s : Release) : Prop := ∀ i, r.component i = s.component i

inductive Separator
  | dash | underscore | dot

def Separator.text : Option Separator → Text
  | none => []
  | some .dash => ['-']
  | some .underscore => ['_']
  | some .dot => ['.']

inductive Kind
  | rc | alpha | beta | pre | preview | dev
  deriving DecidableEq

def Kind.text : Kind → Text
  | .rc => yocto.task_ids.text "rc"
  | .alpha => yocto.task_ids.text "alpha"
  | .beta => yocto.task_ids.text "beta"
  | .pre => yocto.task_ids.text "pre"
  | .preview => yocto.task_ids.text "preview"
  | .dev => yocto.task_ids.text "dev"

structure Letter where
  char : Char
  ascii : ascii_letter char = true

inductive Ending
  | plain
  | pre (before : Option Separator) (kind : Kind) (after : Option Separator) (number : Option Numeral)
  | patch (number : Numeral)
  | letter (l : Letter)

def Ending.text : Ending → Text
  | .plain => []
  | .pre before kind after number =>
    Separator.text before ++ (kind.text ++ (Separator.text after ++ (number.map Numeral.digits).getD []))
  | .patch number => 'p' :: number.digits
  | .letter l => [l.char]

structure Written where
  release : Release
  ending : Ending

def Written.text (w : Written) : Text := w.release.text ++ w.ending.text

inductive Mode
  | none | alphabetical | patch
  deriving DecidableEq

def mode_of (suffix : Option Text) : Mode :=
  if str suffix = text "alphabetical" then .alphabetical
  else if str suffix = text "patch" then .patch
  else .none

/-- The place of a letter in the alphabet. -/
def Letter.place (l : Letter) : ℕ := l.char.toUpper.toNat

def asked : Mode → Ending → Ending → Option Ordering
  | _, .plain, .plain => some .eq
  | _, .pre .., .plain => some .lt
  | _, .plain, .pre .. => some .gt
  | _, .pre _ k _ (some m), .pre _ l _ (some n) => if k = l then some (compare m.value n.value) else none
  | .patch, .plain, .patch _ => some .lt
  | .patch, .patch _, .plain => some .gt
  | .patch, .patch m, .patch n => if m.value = n.value then none else some (compare m.value n.value)
  | .alphabetical, .plain, .letter _ => some .lt
  | .alphabetical, .letter _, .plain => some .gt
  | .alphabetical, .letter a, .letter b => some (compare a.place b.place)
  | .none, .plain, .patch _ => some .eq
  | .none, .plain, .letter _ => some .eq
  | .none, .patch _, .plain => some .eq
  | .none, .patch _, .patch _ => some .eq
  | .none, .patch _, .letter _ => some .eq
  | .none, .letter _, .plain => some .eq
  | .none, .letter _, .patch _ => some .eq
  | .none, .letter _, .letter _ => some .eq
  | _, _, _ => none

def Compared (suffix : Option Text) (u v : Text) (o : Ordering) : Prop :=
  ∃ a b, init u suffix = .ok a ∧ init v suffix = .ok b ∧
    a.lt b = decide (o = .lt) ∧ a.eq b = decide (o = .eq) ∧ a.gt b = decide (o = .gt)

/-- Two versions are ordered by their releases, and those of one release as asked. -/
def Ordered (suffix : Option Text) (u v : Written) : Prop :=
  (u.release.Smaller v.release → Compared suffix u.text v.text .lt) ∧
    (u.release.Same v.release → ∀ o, asked (mode_of suffix) u.ending v.ending = some o →
      Compared suffix u.text v.text o)

/-- Two endings that the code orders as asked. -/
def Fits (mode : Mode) : Ending → Ending → Prop
  | .pre _ k _ number, .plain => mode ≠ .alphabetical ∧ (k = .preview ∨ ∀ m ∈ number, double m.value ≠ ⊤)
  | .plain, .pre _ k _ number => mode ≠ .alphabetical ∧ (k = .preview ∨ ∀ m ∈ number, double m.value ≠ ⊤)
  | .pre _ k _ (some m), .pre _ l _ (some n) =>
    k = l → m.value = n.value ∨ (mode ≠ .alphabetical ∧ k ≠ .preview ∧ double m.value ≠ double n.value)
  | .patch m, .patch n => mode = .patch → m.value ≠ n.value → (m.digits < n.digits ↔ m.value < n.value)
  | _, _ => True

/-! ## Releases -/

theorem getD_trimmed (l : List ℕ) (i : ℕ) : (trimmed l).getD i 0 = l.getD i 0 := by
  induction l using List.reverseRecOn with
  | nil => rfl
  | append_singleton l n ih =>
    unfold trimmed at ih ⊢
    rw [List.reverse_append, List.reverse_singleton, List.singleton_append]
    by_cases hn : n = 0
    · subst hn
      rw [List.dropWhile_cons_of_pos (by simp), ih]
      rcases Nat.lt_trichotomy i l.length with hi | hi | hi
      · simp [List.getD, List.getElem?_append_left hi]
      · simp [List.getD, hi]
      · simp [List.getD, List.getElem?_append_right (le_of_lt hi), List.getElem?_eq_none (le_of_lt hi),
          List.getElem?_eq_none (show ([0] : List ℕ).length ≤ i - l.length by simp; omega)]
    · rw [List.dropWhile_cons_of_neg (by simpa using hn), List.reverse_cons, List.reverse_reverse]

theorem getLast?_trimmed (l : List ℕ) : (trimmed l).getLast? ≠ some 0 := by
  unfold trimmed
  rw [List.getLast?_reverse]
  intro h
  have := List.head?_dropWhile_not (fun n : ℕ => decide (n = 0)) l.reverse
  rw [h] at this
  simp at this

theorem length_le_of_same {a b : List ℕ} (h : ∀ i, a.getD i 0 = b.getD i 0) (ha : a.getLast? ≠ some 0) :
    a.length ≤ b.length := by
  by_contra hlt
  apply ha
  have hlast := h (a.length - 1)
  rw [List.getLast?_eq_getElem?]
  have hnone : b.getD (a.length - 1) 0 = 0 := by
    simp [List.getD, List.getElem?_eq_none (show b.length ≤ a.length - 1 by omega)]
  have hsome : a[a.length - 1]? = some a[a.length - 1] := List.getElem?_eq_getElem (by omega)
  rw [hnone, List.getD_eq_getElem?_getD, hsome, Option.getD_some] at hlast
  rw [hsome, hlast]

theorem trimmed_eq {a b : List ℕ} (h : ∀ i, a.getD i 0 = b.getD i 0) : trimmed a = trimmed b := by
  have htrimmed : ∀ i, (trimmed a).getD i 0 = (trimmed b).getD i 0 := by
    intro i
    rw [getD_trimmed, getD_trimmed, h i]
  have hlen : (trimmed a).length = (trimmed b).length :=
    le_antisymm (length_le_of_same htrimmed (getLast?_trimmed a))
      (length_le_of_same (fun i => (htrimmed i).symm) (getLast?_trimmed b))
  apply List.ext_getElem hlen
  intro i ha hb
  have hi := htrimmed i
  rwa [List.getD_eq_getElem?_getD, List.getD_eq_getElem?_getD, List.getElem?_eq_getElem ha,
    List.getElem?_eq_getElem hb] at hi

theorem lt_of_smaller {a b : List ℕ} {i : ℕ} (hsame : ∀ j < i, a.getD j 0 = b.getD j 0)
    (hlt : a.getD i 0 < b.getD i 0) : a < b := by
  induction i generalizing a b with
  | zero =>
    cases b with
    | nil => simp at hlt
    | cons n b =>
      cases a with
      | nil => exact List.nil_lt_cons n b
      | cons m a => exact List.Lex.rel (by simpa using hlt)
  | succ i ih =>
    cases b with
    | nil => simp at hlt
    | cons n b =>
      cases a with
      | nil => exact List.nil_lt_cons n b
      | cons m a =>
        have hhead : m = n := by simpa using hsame 0 (Nat.succ_pos i)
        subst hhead
        refine List.Lex.cons (ih (fun j hj => ?_) (by simpa using hlt))
        simpa using hsame (j + 1) (Nat.succ_lt_succ hj)

def Release.numbers (r : Release) : List ℕ := r.first.value :: r.more.map fun x => x.2.value

theorem ascii_digit_ne {c d : Char} (h : ascii_digit c = true) (hd : ascii_digit d = false) : c ≠ d := by
  rintro rfl
  rw [h] at hd
  cases hd

theorem numbers_text (r : Release) : numbers r.text = r.numbers := by
  have hdigits : ∀ n : Numeral, (n.digits.map fun c => if c = '-' then '.' else c) = n.digits := by
    intro n
    conv_rhs => rw [← List.map_id n.digits]
    apply List.map_congr_left
    intro c hc
    rw [if_neg (ascii_digit_ne (n.decimal c hc) (by decide))]
    rfl
  have hdot : ∀ n : Numeral, '.' ∉ n.digits := by
    intro n hmem
    exact ascii_digit_ne (n.decimal _ hmem) (by decide) rfl
  unfold numbers Release.text Release.numbers
  rw [List.map_append, hdigits]
  generalize r.first = first
  induction r.more generalizing first with
  | nil =>
    have hsplit := List.splitOn_eq_singleton (hdot first)
    simp [Release.more_text, hsplit, Numeral.value]
  | cons x more ih =>
    have hpoint : (if x.1.char = '-' then '.' else x.1.char) = '.' := by
      cases x.1 <;> rfl
    rw [Release.more_text, List.flatMap_cons, List.map_append, List.map_cons, hdigits, hpoint, List.cons_append,
      List.splitOn_append_cons_self_of_not_mem (hdot first), List.map_cons, List.map_cons]
    exact congrArg _ (ih x.2)

/-! ## The first match -/

theorem first_way {α β : Type} {l : List α} {x : α} (hl : l.head? = some x) {k : α → List β} {m : β}
    (hk : (k x).head? = some m) : (l.flatMap k).head? = some m := by
  obtain ⟨more, rfl⟩ := List.head?_eq_some_iff.mp hl
  exact first_of_cons rfl hk

theorem optional_first {α : Type} {group : Text → List (α × Text)} {s : Text} {x : α × Text}
    (h : (group s).head? = some x) : (at_most_one group s).head? = some (some x.1, x.2) := by
  obtain ⟨more, hmore⟩ := List.head?_eq_some_iff.mp h
  rw [at_most_one_first hmore]
  rfl

theorem optional_none {α : Type} {group : Text → List (α × Text)} {s : Text} (h : group s = []) :
    (at_most_one group s).head? = some (none, s) := by
  rw [at_most_one_none h]
  rfl

theorem digit_cases {c : Char} (h : ascii_digit c = true) : ∃ n, 48 ≤ n ∧ n ≤ 57 ∧ c = Char.ofNat n := by
  simp only [ascii_digit, Bool.and_eq_true, decide_eq_true_eq, Char.le_def] at h
  have hlow : (48 : ℕ) ≤ c.val.toNat := h.1
  have hhigh : c.val.toNat ≤ (57 : ℕ) := h.2
  exact ⟨c.toNat, hlow, hhigh, (Char.ofNat_toNat c).symm⟩

theorem digit_apart {c : Char} (h : ascii_digit c = true) :
    isspace c = false ∧ (c = '-' || c = '_' || c = '.') = false ∧ c ≠ '\n' ∧
      ∀ l ∈ ['r', 'v', 'a', 'p', 'b', 'd'], same_letter l c = false := by
  obtain ⟨n, hlow, hhigh, rfl⟩ := digit_cases h
  have hall : (['r', 'v', 'a', 'p', 'b', 'd'].all fun l => !same_letter l (Char.ofNat n)) = true := by
    interval_cases n <;> decide
  refine ⟨?_, ?_, ?_, ?_⟩
  · interval_cases n <;> decide
  · interval_cases n <;> decide
  · interval_cases n <;> decide
  · intro l hl
    simpa using List.all_eq_true.mp hall l hl

theorem upper_digit {c : Char} (h : ascii_digit c = true) : upper c = c := by
  obtain ⟨n, hlow, hhigh, rfl⟩ := digit_cases h
  interval_cases n <;> decide

theorem head_is {p : Char → Bool} {c : Char} {t : Text} (h : p c = false) : ∀ d ∈ (c :: t).head?, p d = false := by
  intro d hd
  rwa [← Option.some.inj hd]

theorem Numeral.head_digit (n : Numeral) : ∃ c t, n.digits = c :: t ∧ ascii_digit c = true := by
  obtain ⟨c, t, ht⟩ := List.exists_cons_of_ne_nil n.nonempty
  exact ⟨c, t, ht, n.decimal c (ht ▸ List.mem_cons_self)⟩

theorem number_first (n : Numeral) {s : Text} (hs : ∀ c ∈ s.head?, ascii_digit c = false) :
    (greedy1 ascii_digit (n.digits ++ s)).head? = some (n.digits, s) := by
  obtain ⟨more, hmore⟩ := greedy1_first n.nonempty n.decimal hs
  rw [hmore]
  rfl

theorem Letter.ne (l : Letter) {c : Char} (hc : ascii_letter c = false) : l.char ≠ c := by
  rintro rfl
  rw [l.ascii] at hc
  cases hc

theorem Letter.head_apart (l : Letter) :
    ∀ c ∈ [l.char].head?, (c = '-' || c = '_' || c = '.') = false := by
  apply head_is
  simp [l.ne (show ascii_letter '-' = false by decide), l.ne (show ascii_letter '_' = false by decide),
    l.ne (show ascii_letter '.' = false by decide)]

/-- Behind a release there is no further number of it. -/
def Stops (s : Text) : Prop := (∀ c ∈ s.head?, ascii_digit c = false) ∧ ∀ n, more_numbers n s = [([], s)]

theorem ending_stops (e : Ending) : Stops e.text := by
  cases e with
  | plain => exact ⟨by simp [Ending.text], fun n => by cases n <;> rfl⟩
  | pre before kind after number =>
    constructor
    · rcases before with _ | before
      · cases kind <;> exact head_is (by decide)
      · cases before <;> exact head_is (by decide)
    · intro n
      cases n with
      | zero => rfl
      | succ n =>
        rcases before with _ | before
        · cases kind <;> rfl
        · cases before <;> cases kind <;> rfl
  | patch number =>
    constructor
    · exact head_is (by decide)
    · intro n
      cases n <;> rfl
  | letter l =>
    constructor
    · intro c hc
      obtain rfl : l.char = c := by simpa [Ending.text] using hc
      by_contra hdigit
      rw [Bool.not_eq_false] at hdigit
      have := not_decimal_letter l.ascii
      rw [decimal_ascii hdigit] at this
      cases this
    · intro n
      cases n with
      | zero => rfl
      | succ n => simp [more_numbers, Ending.text, one_of, l.ne (show ascii_letter '-' = false by decide),
          l.ne (show ascii_letter '.' = false by decide)]

theorem more_numbers_first (more : List (Point × Numeral)) {s : Text} (hs : Stops s) {n : ℕ} (hn : more.length ≤ n) :
    (more_numbers n (Release.more_text more ++ s)).head? = some (Release.more_text more, s) := by
  induction more generalizing n with
  | nil =>
    rw [Release.more_text, List.flatMap_nil, List.nil_append, hs.2]
    rfl
  | cons x more ih =>
    cases n with
    | zero => simp at hn
    | succ n =>
      have hlater := ih (Nat.le_of_succ_le_succ hn)
      have hnext : ∀ c ∈ (Release.more_text more ++ s).head?, ascii_digit c = false := by
        cases more with
        | nil => exact hs.1
        | cons y more =>
          intro c hc
          obtain rfl : y.1.char = c := by simpa [Release.more_text] using hc
          cases y.1 <;> decide
      have hpoint : one_of (fun c => c = '-' || c = '.') (Release.more_text (x :: more) ++ s) =
          [([x.1.char], x.2.digits ++ (Release.more_text more ++ s))] := by
        rw [Release.more_text, List.flatMap_cons]
        cases x.1 <;> simp [one_of, Point.char, Release.more_text]
      have hturn : ([([x.1.char], x.2.digits ++ (Release.more_text more ++ s))].flatMap fun a =>
          (greedy1 ascii_digit a.2).flatMap fun b => (more_numbers n b.2).map fun y => (a.1 ++ b.1 ++ y.1, y.2)).head? =
            some (Release.more_text (x :: more), s) := by
        refine first_way rfl (first_way (number_first x.2 hnext) ?_)
        rw [List.head?_map, hlater]
        simp [Release.more_text]
      rw [more_numbers, hpoint, List.head?_append, hturn]
      rfl

theorem release_first (r : Release) {s : Text} (hs : Stops s) : (release (r.text ++ s)).head? = some (r.text, s) := by
  have hnext : ∀ c ∈ (Release.more_text r.more ++ s).head?, ascii_digit c = false := by
    cases hmore : r.more with
    | nil => exact hs.1
    | cons y more =>
      intro c hc
      obtain rfl : y.1.char = c := by simpa [Release.more_text] using hc
      cases y.1 <;> decide
  have hlength : r.more.length ≤ (Release.more_text r.more ++ s).length := by
    rw [List.length_append, Release.more_text, List.length_flatMap]
    generalize r.more = more
    induction more with
    | nil => simp
    | cons x more ih =>
      simp only [List.map_cons, List.sum_cons, List.length_cons] at ih ⊢
      omega
  unfold release Release.text
  rw [List.append_assoc]
  refine first_way (number_first r.first hnext) ?_
  rw [List.head?_map, more_numbers_first r.more hs hlength]
  rfl

/-! ## What is read behind the release -/

/-- The kind that is found: `pre` is tried before `preview`. -/
def Kind.seen : Kind → Text
  | .preview => yocto.task_ids.text "pre"
  | k => k.text

def Kind.unseen : Kind → Text
  | .preview => yocto.task_ids.text "view"
  | _ => []

theorem kind_first (k : Kind) (s : Text) : (word_of kinds (k.text ++ s)).head? = some (k.seen, k.unseen ++ s) := by
  cases k <;> rfl

theorem separator_none {s : Text} (h : ∀ c ∈ s.head?, (c = '-' || c = '_' || c = '.') = false) :
    separator s = [(none, s)] := by
  apply at_most_one_none
  cases s with
  | nil => rfl
  | cons c s => simp [one_of, h c rfl]

theorem separator_first (sep : Option Separator) {s : Text}
    (h : ∀ c ∈ s.head?, (c = '-' || c = '_' || c = '.') = false) :
    ∃ x, (separator (Separator.text sep ++ s)).head? = some (x, s) := by
  rcases sep with _ | sep
  · exact ⟨none, by rw [Separator.text, List.nil_append, separator_none h]; rfl⟩
  · cases sep <;> exact ⟨_, rfl⟩

def Kind.number (k : Kind) (number : Option Numeral) : Option Text :=
  if k = .preview then none else number.map Numeral.digits

def number_text (number : Option Numeral) : Text := (number.map Numeral.digits).getD []

theorem number_apart (number : Option Numeral) :
    ∀ c ∈ (number_text number).head?, (c = '-' || c = '_' || c = '.') = false := by
  rcases number with _ | n
  · simp [number_text]
  · obtain ⟨c, t, ht, hc⟩ := n.head_digit
    intro d hd
    obtain rfl : c = d := by simpa [number_text, ht] using hd
    exact (digit_apart hc).2.1

theorem pre_first (before : Option Separator) (k : Kind) (after : Option Separator) (number : Option Numeral) :
    (pre (Separator.text before ++ (k.text ++ (Separator.text after ++ number_text number)))).head? =
      some ((k.seen, k.number number),
        if k = .preview then k.unseen ++ (Separator.text after ++ number_text number) else []) := by
  have hkind : ∀ c ∈ (k.text ++ (Separator.text after ++ number_text number)).head?,
      (c = '-' || c = '_' || c = '.') = false := by
    cases k <;> exact head_is (by decide)
  obtain ⟨x, hbefore⟩ := separator_first before hkind
  unfold pre
  refine first_way hbefore (first_way (kind_first k _) ?_)
  by_cases hpreview : k = .preview
  · subst hpreview
    rfl
  · have hunseen : k.unseen = [] := by
      cases k <;> first | rfl | exact absurd rfl hpreview
    rw [hunseen, List.nil_append, if_neg hpreview]
    obtain ⟨y, hafter⟩ := separator_first after (number_apart number)
    refine first_way hafter ?_
    rw [List.head?_map]
    unfold Kind.number
    rw [if_neg hpreview]
    rcases number with _ | n
    · rfl
    · have hfirst := number_first n (s := []) (by simp)
      rw [List.append_nil] at hfirst
      rw [number_text, Option.map_some, Option.getD_some, optional_first hfirst]
      rfl

theorem pre_none {s : Text} (h : ∀ c ∈ s.head?, (c = '-' || c = '_' || c = '.') = false) (hkinds : word_of kinds s = []) :
    pre s = [] := by
  unfold pre
  rw [separator_none h, List.flatMap_cons, hkinds]
  rfl

theorem pre_number (n : Numeral) : pre n.digits = [] := by
  obtain ⟨c, t, ht, hc⟩ := n.head_digit
  obtain ⟨-, hsep, -, hletters⟩ := digit_apart hc
  rw [ht]
  apply pre_none
  · intro d hd
    obtain rfl : c = d := by simpa using hd
    exact hsep
  · have hr := hletters 'r' (by decide)
    have ha := hletters 'a' (by decide)
    have hb := hletters 'b' (by decide)
    have hp := hletters 'p' (by decide)
    have hd := hletters 'd' (by decide)
    simp [word_of, kinds, text, word, hr, ha, hb, hp, hd]

/-- The letter that an ending gives for a patched release. -/
def Ending.patch_l : Mode → Ending → Option Text
  | .alphabetical, .pre _ k _ _ => some (k.text.take 1)
  | .alphabetical, .patch _ => some ['p']
  | .alphabetical, .letter l => some [l.char]
  | .patch, .patch n => some n.digits
  | _, _ => none

def Ending.pre_groups : Mode → Ending → Option (Text × Option Text)
  | .none, .pre _ k _ number => some (k.seen, k.number number)
  | .patch, .pre _ k _ number => some (k.seen, k.number number)
  | _, _ => none

theorem number_line (number : Option Numeral) : '\n' ∉ number_text number := by
  rcases number with _ | n
  · simp [number_text]
  · intro hmem
    exact (digit_apart (n.decimal _ hmem)).2.2.1 rfl

theorem separator_line (sep : Option Separator) : '\n' ∉ Separator.text sep := by
  rcases sep with _ | sep
  · simp [Separator.text]
  · cases sep <;> decide

/-- The ending is read from one line, of which something may be left. -/
def Reads (group : Text → List (Option Text × Text)) (e : Ending) (patch_l : Option Text)
    (pre_groups : Option (Text × Option Text)) : Prop :=
  ∃ between rest, (group e.text).head? = some (patch_l, between) ∧
    (at_most_one pre between).head? = some (pre_groups, rest) ∧ '\n' ∉ rest

theorem reads_pre {group : Text → List (Option Text × Text)} {before : Option Separator} {k : Kind}
    {after : Option Separator} {number : Option Numeral}
    (h : (group (Ending.pre before k after number).text).head? =
      some (none, (Ending.pre before k after number).text)) :
    Reads group (.pre before k after number) none (some (k.seen, k.number number)) := by
  refine ⟨_, _, h, optional_first (pre_first before k after number), ?_⟩
  dsimp only
  split
  · rw [List.mem_append, List.mem_append, not_or, not_or]
    refine ⟨?_, separator_line after, number_line number⟩
    cases k <;> decide
  · simp

theorem pre_letter (l : Letter) : pre [l.char] = [] :=
  pre_none l.head_apart (by simp [word_of, kinds, text, word])

theorem letter_line (l : Letter) : '\n' ∉ [l.char] := by
  rw [List.mem_singleton]
  exact (l.ne (by decide)).symm

theorem reads_none (e : Ending) : Reads (fun s => [(none, s)]) e none (e.pre_groups .none) := by
  cases e with
  | plain => exact ⟨[], [], rfl, rfl, by simp⟩
  | pre before k after number => exact reads_pre rfl
  | patch n =>
    obtain ⟨c, t, ht, hc⟩ := n.head_digit
    have hpre : pre ('p' :: n.digits) = [] := by
      apply pre_none (head_is (by decide))
      -- A digit is not the second letter of `pre`.
      have hr := (digit_apart hc).2.2.2 'r' (by decide)
      simp [ht, word_of, kinds, text, word, hr, show same_letter 'r' 'p' = false by decide,
        show same_letter 'a' 'p' = false by decide, show same_letter 'b' 'p' = false by decide,
        show same_letter 'd' 'p' = false by decide]
    refine ⟨_, 'p' :: n.digits, rfl, optional_none hpre, ?_⟩
    rw [List.mem_cons, not_or]
    exact ⟨by decide, number_line (some n)⟩
  | letter l => exact ⟨_, [l.char], rfl, optional_none (pre_letter l), letter_line l⟩

theorem reads_number (e : Ending) : Reads (at_most_one number_patch) e (e.patch_l .patch) (e.pre_groups .patch) := by
  cases e with
  | plain => exact ⟨[], [], rfl, rfl, by simp⟩
  | pre before k after number =>
    apply reads_pre
    apply optional_none
    rcases before with _ | before
    · cases k <;> rfl
    · cases before <;> cases k <;> rfl
  | patch n =>
    have hfirst : (number_patch ('p' :: n.digits)).head? = some (n.digits, []) := by
      have hword : (word_of [text "p", text "patch"] ('p' :: n.digits)).head? = some (['p'], n.digits) := rfl
      have hnumber := number_first n (s := []) (by simp)
      rw [List.append_nil] at hnumber
      exact first_way (x := (none, 'p' :: n.digits)) rfl (first_way hword hnumber)
    exact ⟨[], [], optional_first hfirst, rfl, by simp⟩
  | letter l =>
    have hnone : number_patch [l.char] = [] := by
      unfold number_patch
      rw [separator_none l.head_apart]
      simp only [word_of, text, List.flatMap_cons, List.flatMap_nil, List.append_nil]
      change (word ['p'] [l.char] ++ word ['p', 'a', 't', 'c', 'h'] [l.char]).flatMap _ = []
      unfold word
      split <;> rfl
    exact ⟨_, [l.char], optional_none hnone, optional_none (pre_letter l), letter_line l⟩

theorem reads_letter (e : Ending) :
    Reads (at_most_one letter_patch) e (e.patch_l .alphabetical) (e.pre_groups .alphabetical) := by
  cases e with
  | plain => exact ⟨[], [], rfl, rfl, by simp⟩
  | pre before k after number =>
    have hfirst : (letter_patch (Ending.pre before k after number).text).head? =
        some (k.text.take 1, k.text.drop 1 ++ (Separator.text after ++ number_text number)) := by
      rcases before with _ | before
      · cases k <;> rfl
      · cases before <;> cases k <;> rfl
    have hpre : pre (k.text.drop 1 ++ (Separator.text after ++ number_text number)) = [] := by
      cases k <;> exact pre_none (head_is (by decide)) rfl
    refine ⟨_, _, optional_first hfirst, optional_none hpre, ?_⟩
    rw [List.mem_append, List.mem_append, not_or, not_or]
    refine ⟨?_, separator_line after, number_line number⟩
    cases k <;> decide
  | patch n =>
    exact ⟨n.digits, n.digits, rfl, optional_none (pre_number n), number_line (some n)⟩
  | letter l =>
    have hfirst : (letter_patch [l.char]).head? = some ([l.char], []) := by
      unfold letter_patch
      rw [separator_none l.head_apart]
      simp [one_of, letter, l.ascii]
    exact ⟨[], [], optional_first hfirst, rfl, by simp⟩

theorem reads_patch (suffix : Option Text) (e : Ending) :
    Reads (patch suffix) e (e.patch_l (mode_of suffix)) (e.pre_groups (mode_of suffix)) := by
  unfold Reads patch mode_of
  split
  · exact reads_letter e
  · split
    · exact reads_number e
    · have hnone : e.patch_l .none = none := by cases e <;> rfl
      rw [hnone]
      exact reads_none e

theorem matches_first (suffix : Option Text) (w : Written) : (matches_of suffix w.text).head? =
    some ⟨w.release.text, w.ending.patch_l (mode_of suffix), w.ending.pre_groups (mode_of suffix)⟩ := by
  obtain ⟨between, rest, hpatch, hpre, hline⟩ := reads_patch suffix w.ending
  obtain ⟨c, t, ht, hc⟩ := w.release.first.head_digit
  obtain ⟨hspace, -, -, hletters⟩ := digit_apart hc
  have hhead : w.text = c :: (t ++ (Release.more_text w.release.more ++ w.ending.text)) := by
    simp [Written.text, Release.text, ht]
  have hspaces : (greedy isspace w.text).head? = some ([], w.text) := by
    rw [greedy_stop]
    · rfl
    · intro d hd
      rw [hhead] at hd
      exact head_is hspace d hd
  have hletter : ∀ l ∈ ['r', 'v', 'a', 'p', 'b', 'd'],
      (at_most_one (one_of (same_letter l)) w.text).head? = some (none, w.text) := by
    intro l hl
    apply optional_none
    rw [hhead, one_of, hletters l hl]
    rfl
  have hdots : (at_most_one (greedy fun c => c ≠ '\n') rest).head? = some (some rest, []) := by
    have hall : ∀ d ∈ rest, (decide (d ≠ '\n')) = true := by
      intro d hd
      rw [decide_eq_true_eq]
      rintro rfl
      exact hline hd
    obtain ⟨more, hmore⟩ := @greedy_first Char (fun d => d ≠ '\n') [] rest hall (by simp)
    rw [List.append_nil] at hmore
    exact optional_first (x := (rest, [])) (by rw [hmore]; rfl)
  unfold matches_of
  refine first_way hspaces (first_way (hletter 'r' (by decide)) (first_way (hletter 'v' (by decide)) ?_))
  refine first_way (release_first w.release (ending_stops w.ending)) (first_way hpatch (first_way hpre ?_))
  exact first_way hdots rfl

/-! ## The order -/

/-- The second part of a key. -/
def Ending.patch_key (mode : Mode) (e : Ending) : Text := ((e.patch_l mode).getD []).map upper

/-- The third part of a key. -/
def Ending.pre_key (mode : Mode) (e : Ending) : WithBot (WithTop ℕ) :=
  match e.pre_groups mode with
  | none => ⊤
  | some (_, none) => ⊥
  | some (_, some v) => (double (digits_value 0 v) : WithTop ℕ)

theorem kind_number_ne {k : Kind} {number : Option Numeral} {v : Text} (h : k.number number = some v) : v ≠ [] := by
  unfold Kind.number at h
  split at h
  · cases h
  · obtain ⟨n, -, rfl⟩ := Option.map_eq_some_iff.mp h
    exact n.nonempty

theorem init_written (suffix : Option Text) (w : Written) : ∃ v, init w.text suffix = .ok v ∧
    v.key.release = trimmed w.release.numbers ∧ v.key.patch = w.ending.patch_key (mode_of suffix) ∧
      v.key.pre = w.ending.pre_key (mode_of suffix) := by
  unfold init
  rw [matches_first]
  refine ⟨_, rfl, ?_, ?_, ?_⟩
  · exact congrArg trimmed (numbers_text w.release)
  · change List.map upper (if _ then _ else _) = _
    split
    · rfl
    · rename_i hsuffix
      rw [not_or] at hsuffix
      have hmode : mode_of suffix = .none := by
        unfold mode_of
        rw [if_neg hsuffix.1, if_neg hsuffix.2]
      rw [hmode]
      cases w.ending <;> rfl
  · change (if _ then ⊤ else _) = _
    unfold Ending.pre_key
    cases hgroups : w.ending.pre_groups (mode_of suffix) with
    | none => simp
    | some g =>
      obtain ⟨kind, number⟩ := g
      cases number with
      | none => simp
      | some v =>
        have hne : v ≠ [] := by
          cases hmode : mode_of suffix <;> cases hending : w.ending <;>
            simp only [hmode, hending, Ending.pre_groups, Option.some_inj, Prod.mk.injEq, reduceCtorEq] at hgroups
          · exact kind_number_ne hgroups.2
          · exact kind_number_ne hgroups.2
        simp [hne]

/-- The order of two keys of one release. -/
def order (p q : Text) (x y : WithBot (WithTop ℕ)) : Ordering :=
  if p = q then if x < y then .lt else if x = y then .eq else .gt
  else if p < q then .lt else .gt

theorem order_of_eq {p q : Text} (h : p = q) (x y : WithBot (WithTop ℕ)) : order p q x y = compare x y := by
  unfold order
  rw [if_pos h]
  rcases lt_trichotomy x y with hlt | heq | hgt
  · rw [if_pos hlt, compare_lt_iff_lt.mpr hlt]
  · rw [if_neg (by simp [heq]), if_pos heq, compare_eq_iff_eq.mpr heq]
  · rw [if_neg hgt.not_gt, if_neg hgt.ne', compare_gt_iff_gt.mpr hgt]

theorem compared_of_keys {suffix : Option Text} {u v : Text} {a b : Version} (ha : init u suffix = .ok a)
    (hb : init v suffix = .ok b) (hrelease : a.key.release = b.key.release) (o : Ordering) :
    Compared suffix u v o ↔ order a.key.patch b.key.patch a.key.pre b.key.pre = o := by
  have hthree : ∀ p : Ordering, a.lt b = decide (p = .lt) ∧ a.eq b = decide (p = .eq) ∧ a.gt b = decide (p = .gt) ↔
      order a.key.patch b.key.patch a.key.pre b.key.pre = p := by
    intro p
    unfold Version.lt Version.eq Version.gt
    by_cases hpatch : a.key.patch = b.key.patch
    · rw [order_of_eq hpatch]
      rcases lt_trichotomy a.key.pre b.key.pre with h | h | h
      · have hcompare : compare a.key.pre b.key.pre = .lt := compare_lt_iff_lt.mpr h
        cases p <;> simp [hrelease, hpatch, hcompare, h.ne, h.not_gt]
      · have hcompare : compare a.key.pre b.key.pre = .eq := compare_eq_iff_eq.mpr h
        rw [hcompare]
        cases p <;> simp [hrelease, hpatch, h]
      · have hcompare : compare a.key.pre b.key.pre = .gt := compare_gt_iff_gt.mpr h
        cases p <;> simp [hrelease, hpatch, hcompare, h, h.ne']
    · unfold order
      rcases lt_or_gt_of_ne hpatch with h | h
      · cases p <;> simp [hrelease, hpatch, h, h.not_gt]
      · cases p <;> simp [hrelease, hpatch, h, h.not_gt]
  constructor
  · rintro ⟨a', b', ha', hb', h⟩
    rw [ha, Except.ok.injEq] at ha'
    rw [hb, Except.ok.injEq] at hb'
    subst ha' hb'
    exact (hthree o).mp h
  · intro h
    exact ⟨a, b, ha, hb, (hthree o).mpr h⟩

theorem compared_of_smaller (suffix : Option Text) {u v : Written} (h : u.release.Smaller v.release) :
    Compared suffix u.text v.text .lt := by
  obtain ⟨a, ha, hrelease_a, -, -⟩ := init_written suffix u
  obtain ⟨b, hb, hrelease_b, -, -⟩ := init_written suffix v
  obtain ⟨i, hsame, hlt⟩ := h
  have hkeys : a.key.release < b.key.release := by
    rw [hrelease_a, hrelease_b]
    apply @lt_of_smaller _ _ i
    · intro j hj
      rw [getD_trimmed, getD_trimmed]
      exact hsame j hj
    · rw [getD_trimmed, getD_trimmed]
      exact hlt
  have hne : a.key.release ≠ b.key.release := ne_of_lt hkeys
  have hnot : ¬ b.key.release < a.key.release := not_lt_of_gt hkeys
  refine ⟨a, b, ha, hb, ?_, ?_, ?_⟩
  · simp [Version.lt, Version.gt, Version.eq, hne, hnot]
  · simp [Version.eq, hne]
  · simp [Version.gt, hne, hnot]

theorem compared_iff (suffix : Option Text) {u v : Written} (h : u.release.Same v.release) (o : Ordering) :
    Compared suffix u.text v.text o ↔
      order (u.ending.patch_key (mode_of suffix)) (v.ending.patch_key (mode_of suffix))
        (u.ending.pre_key (mode_of suffix)) (v.ending.pre_key (mode_of suffix)) = o := by
  obtain ⟨a, ha, hrelease_a, hpatch_a, hpre_a⟩ := init_written suffix u
  obtain ⟨b, hb, hrelease_b, hpatch_b, hpre_b⟩ := init_written suffix v
  have hrelease : a.key.release = b.key.release := by
    rw [hrelease_a, hrelease_b]
    exact trimmed_eq h
  rw [compared_of_keys ha hb hrelease, hpatch_a, hpatch_b, hpre_a, hpre_b]

/-! ## What is asked of endings -/

theorem order_self (p : Text) (x : WithBot (WithTop ℕ)) : order p p x x = .eq := by
  rw [order_of_eq rfl]
  exact compare_eq_iff_eq.mpr rfl

theorem order_lt {p q : Text} (x y : WithBot (WithTop ℕ)) (h : p < q) : order p q x y = .lt := by
  unfold order
  rw [if_neg (ne_of_lt h), if_pos h]

theorem order_gt {p q : Text} (x y : WithBot (WithTop ℕ)) (h : q < p) : order p q x y = .gt := by
  unfold order
  rw [if_neg (ne_of_gt h), if_neg (not_lt_of_gt h)]

theorem plain_patch_key (mode : Mode) : Ending.plain.patch_key mode = [] := by
  cases mode <;> rfl

theorem plain_pre_key (mode : Mode) : Ending.plain.pre_key mode = ⊤ := by
  cases mode <;> rfl

theorem pre_alphabetical (before : Option Separator) (k : Kind) (after : Option Separator) (number : Option Numeral) :
    [] < (Ending.pre before k after number).patch_key .alphabetical := by
  cases k <;> exact List.nil_lt_cons _ _

theorem pre_patch_key {mode : Mode} (h : mode ≠ .alphabetical) (before : Option Separator) (k : Kind)
    (after : Option Separator) (number : Option Numeral) :
    (Ending.pre before k after number).patch_key mode = [] := by
  cases mode with
  | alphabetical => exact absurd rfl h
  | none => rfl
  | patch => rfl

theorem pre_pre_key {mode : Mode} (h : mode ≠ .alphabetical) (before : Option Separator) {k : Kind}
    (hk : k ≠ .preview) (after : Option Separator) (n : Numeral) :
    (Ending.pre before k after (some n)).pre_key mode = (double n.value : WithTop ℕ) := by
  have hnumber : k.number (some n) = some n.digits := if_neg hk
  cases mode with
  | alphabetical => exact absurd rfl h
  | none => simp [Ending.pre_key, Ending.pre_groups, hnumber, Numeral.value]
  | patch => simp [Ending.pre_key, Ending.pre_groups, hnumber, Numeral.value]

theorem preview_pre_key {mode : Mode} (h : mode ≠ .alphabetical) (before after : Option Separator)
    (number : Option Numeral) : (Ending.pre before .preview after number).pre_key mode = ⊥ := by
  cases mode with
  | alphabetical => exact absurd rfl h
  | none => rfl
  | patch => rfl

theorem unnumbered_pre_key {mode : Mode} (h : mode ≠ .alphabetical) (before : Option Separator) (k : Kind)
    (after : Option Separator) : (Ending.pre before k after none).pre_key mode = ⊥ := by
  have hnumber : k.number none = none := by
    unfold Kind.number
    split <;> rfl
  cases mode with
  | alphabetical => exact absurd rfl h
  | none => simp [Ending.pre_key, Ending.pre_groups, hnumber]
  | patch => simp [Ending.pre_key, Ending.pre_groups, hnumber]

theorem pre_key_lt_top_iff {mode : Mode} (h : mode ≠ .alphabetical) (before : Option Separator) (k : Kind)
    (after : Option Separator) (number : Option Numeral) :
    (Ending.pre before k after number).pre_key mode < ⊤ ↔ k = .preview ∨ ∀ m ∈ number, double m.value ≠ ⊤ := by
  by_cases hk : k = .preview
  · subst hk
    rw [preview_pre_key h]
    simp
  · rcases number with _ | n
    · rw [unnumbered_pre_key h]
      simp
    · rw [pre_pre_key h before hk]
      have hcoe : ((double n.value : WithTop ℕ) : WithBot (WithTop ℕ)) = ⊤ ↔ double n.value = ⊤ := by
        rw [← WithBot.coe_top, WithBot.coe_inj]
      simp [lt_top_iff_ne_top, hcoe, hk]

theorem double_compare_iff (m n : ℕ) :
    compare ((double m : WithTop ℕ) : WithBot (WithTop ℕ)) (double n : WithTop ℕ) = compare m n ↔
      m = n ∨ double m ≠ double n := by
  rcases lt_trichotomy m n with h | h | h
  · have hle := WithBot.coe_le_coe.mpr (double_mono h.le)
    rw [compare_lt_iff_lt.mpr h, compare_lt_iff_lt, lt_iff_le_and_ne]
    simp [hle, WithBot.coe_inj, h.ne]
  · subst h
    simp
  · have hle := WithBot.coe_le_coe.mpr (double_mono h.le)
    rw [compare_gt_iff_gt.mpr h, compare_gt_iff_gt, lt_iff_le_and_ne]
    simp [hle, WithBot.coe_inj, h.ne', eq_comm]

theorem pre_plain_iff (mode : Mode) (before : Option Separator) (k : Kind) (after : Option Separator)
    (number : Option Numeral) :
    order ((Ending.pre before k after number).patch_key mode) (Ending.plain.patch_key mode)
        ((Ending.pre before k after number).pre_key mode) (Ending.plain.pre_key mode) = .lt ↔
      mode ≠ .alphabetical ∧ (k = .preview ∨ ∀ m ∈ number, double m.value ≠ ⊤) := by
  rw [plain_patch_key, plain_pre_key]
  by_cases h : mode = .alphabetical
  · subst h
    rw [order_gt _ _ (pre_alphabetical before k after number)]
    simp
  · rw [pre_patch_key h, order_of_eq rfl, compare_lt_iff_lt, pre_key_lt_top_iff h]
    simp [h]

theorem plain_pre_iff (mode : Mode) (before : Option Separator) (k : Kind) (after : Option Separator)
    (number : Option Numeral) :
    order (Ending.plain.patch_key mode) ((Ending.pre before k after number).patch_key mode)
        (Ending.plain.pre_key mode) ((Ending.pre before k after number).pre_key mode) = .gt ↔
      mode ≠ .alphabetical ∧ (k = .preview ∨ ∀ m ∈ number, double m.value ≠ ⊤) := by
  rw [plain_patch_key, plain_pre_key]
  by_cases h : mode = .alphabetical
  · subst h
    rw [order_lt _ _ (pre_alphabetical before k after number)]
    simp
  · rw [pre_patch_key h, order_of_eq rfl, compare_gt_iff_gt, pre_key_lt_top_iff h]
    simp [h]

theorem pre_pre_iff (mode : Mode) (before before' : Option Separator) (k : Kind) (after after' : Option Separator)
    (m n : Numeral) :
    order ((Ending.pre before k after (some m)).patch_key mode) ((Ending.pre before' k after' (some n)).patch_key mode)
        ((Ending.pre before k after (some m)).pre_key mode) ((Ending.pre before' k after' (some n)).pre_key mode) =
          compare m.value n.value ↔
      m.value = n.value ∨ (mode ≠ .alphabetical ∧ k ≠ .preview ∧ double m.value ≠ double n.value) := by
  have heq : (Ordering.eq = compare m.value n.value) ↔ m.value = n.value := by
    rw [eq_comm, compare_eq_iff_eq]
  by_cases h : mode = .alphabetical
  · subst h
    have hsame : order ((Ending.pre before k after (some m)).patch_key .alphabetical)
        ((Ending.pre before' k after' (some n)).patch_key .alphabetical)
        ((Ending.pre before k after (some m)).pre_key .alphabetical)
        ((Ending.pre before' k after' (some n)).pre_key .alphabetical) = .eq := order_self _ _
    rw [hsame, heq]
    simp
  · rw [pre_patch_key h, pre_patch_key h]
    by_cases hk : k = .preview
    · subst hk
      rw [preview_pre_key h, preview_pre_key h, order_self, heq]
      simp
    · rw [pre_pre_key h before hk, pre_pre_key h before' hk, order_of_eq rfl, double_compare_iff]
      simp [h, hk]

theorem upper_digits (n : Numeral) : n.digits.map upper = n.digits := by
  conv_rhs => rw [← List.map_id n.digits]
  apply List.map_congr_left
  intro c hc
  exact upper_digit (n.decimal c hc)

theorem patch_patch_iff (m n : Numeral) (h : m.value ≠ n.value) :
    order ((Ending.patch m).patch_key .patch) ((Ending.patch n).patch_key .patch) ((Ending.patch m).pre_key .patch)
        ((Ending.patch n).pre_key .patch) = compare m.value n.value ↔ (m.digits < n.digits ↔ m.value < n.value) := by
  have hm : (Ending.patch m).patch_key .patch = m.digits := upper_digits m
  have hn : (Ending.patch n).patch_key .patch = n.digits := upper_digits n
  have hne : m.digits ≠ n.digits := by
    intro heq
    apply h
    unfold Numeral.value
    rw [heq]
  rw [hm, hn]
  rcases lt_or_gt_of_ne h with hlt | hlt
  · rw [compare_lt_iff_lt.mpr hlt]
    rcases lt_or_gt_of_ne hne with htext | htext
    · rw [order_lt _ _ htext]
      simp [htext, hlt]
    · rw [order_gt _ _ htext]
      simp [htext.not_gt, hlt]
  · rw [compare_gt_iff_gt.mpr hlt]
    rcases lt_or_gt_of_ne hne with htext | htext
    · rw [order_lt _ _ htext]
      simp [htext, hlt.not_gt]
    · rw [order_gt _ _ htext]
      simp [htext.not_gt, hlt.not_gt]

theorem letter_letter (a b : Letter) :
    order ((Ending.letter a).patch_key .alphabetical) ((Ending.letter b).patch_key .alphabetical)
        ((Ending.letter a).pre_key .alphabetical) ((Ending.letter b).pre_key .alphabetical) =
      compare a.place b.place := by
  have hupper : ∀ l : Letter, (Ending.letter l).patch_key .alphabetical = [l.char.toUpper] := by
    intro l
    change [upper l.char] = _
    unfold upper
    rw [if_neg (l.ne (by decide)), if_neg (l.ne (by decide))]
  rw [hupper, hupper]
  unfold Letter.place
  rcases lt_trichotomy a.char.toUpper b.char.toUpper with h | h | h
  · have hnat : a.char.toUpper.toNat < b.char.toUpper.toNat := h
    rw [order_lt _ _ (List.Lex.rel h), compare_lt_iff_lt.mpr hnat]
  · rw [h, compare_eq_iff_eq.mpr rfl]
    exact order_self _ _
  · have hnat : b.char.toUpper.toNat < a.char.toUpper.toNat := h
    rw [order_gt _ _ (List.Lex.rel h), compare_gt_iff_gt.mpr hnat]

theorem patch_key_pos (n : Numeral) : [] < (Ending.patch n).patch_key .patch := by
  have hkey : (Ending.patch n).patch_key .patch = n.digits := upper_digits n
  obtain ⟨c, t, ht, -⟩ := n.head_digit
  rw [hkey, ht]
  exact List.nil_lt_cons c t

theorem asked_iff (mode : Mode) (e f : Ending) :
    (∀ o, asked mode e f = some o →
      order (e.patch_key mode) (f.patch_key mode) (e.pre_key mode) (f.pre_key mode) = o) ↔ Fits mode e f := by
  have hone : ∀ {o : Ordering} {p : Prop}, asked mode e f = some o →
      (order (e.patch_key mode) (f.patch_key mode) (e.pre_key mode) (f.pre_key mode) = o ↔ p) →
      ((∀ o, asked mode e f = some o →
        order (e.patch_key mode) (f.patch_key mode) (e.pre_key mode) (f.pre_key mode) = o) ↔ p) := by
    intro o p hasked hiff
    rw [hasked]
    simpa using hiff
  have hsilent : asked mode e f = none → ((∀ o, asked mode e f = some o →
      order (e.patch_key mode) (f.patch_key mode) (e.pre_key mode) (f.pre_key mode) = o) ↔ True) := by
    intro hnone
    simp [hnone]
  cases e with
  | plain =>
    cases f with
    | plain => exact hone rfl (iff_true_intro (order_self _ _))
    | pre before k after number => exact hone rfl (plain_pre_iff mode before k after number)
    | patch n =>
      cases mode with
      | none => exact hone rfl (iff_true_intro (order_self _ _))
      | alphabetical => exact hsilent rfl
      | patch => exact hone rfl (iff_true_intro (order_lt _ _ (patch_key_pos n)))
    | letter l =>
      cases mode with
      | none => exact hone rfl (iff_true_intro (order_self _ _))
      | alphabetical => exact hone rfl (iff_true_intro (order_lt _ _ (List.nil_lt_cons _ _)))
      | patch => exact hsilent rfl
  | pre before k after number =>
    cases f with
    | plain => exact hone rfl (pre_plain_iff mode before k after number)
    | pre before' k' after' number' =>
      cases number with
      | none =>
        refine (hsilent (by cases mode <;> cases number' <;> rfl)).trans ?_
        cases number' <;> simp [Fits]
      | some m =>
        cases number' with
        | none => exact hsilent (by cases mode <;> rfl)
        | some n =>
          by_cases hk : k = k'
          · subst hk
            refine (hone (if_pos rfl) (pre_pre_iff mode before before' k after after' m n)).trans ?_
            simp [Fits]
          · refine (hsilent (if_neg hk)).trans ?_
            simp [Fits, hk]
    | patch n => exact hsilent (by cases mode <;> rfl)
    | letter l => exact hsilent (by cases mode <;> rfl)
  | patch m =>
    cases f with
    | plain =>
      cases mode with
      | none => exact hone rfl (iff_true_intro (order_self _ _))
      | alphabetical => exact hsilent rfl
      | patch => exact hone rfl (iff_true_intro (order_gt _ _ (patch_key_pos m)))
    | pre before k after number => exact hsilent (by cases mode <;> rfl)
    | patch n =>
      cases mode with
      | none =>
        refine (hone rfl (iff_true_intro (order_self _ _))).trans ?_
        simp [Fits]
      | alphabetical =>
        refine (hsilent rfl).trans ?_
        simp [Fits]
      | patch =>
        by_cases hvalue : m.value = n.value
        · refine (hsilent (if_pos hvalue)).trans ?_
          simp [Fits, hvalue]
        · refine (hone (if_neg hvalue) (patch_patch_iff m n hvalue)).trans ?_
          simp [Fits, hvalue]
    | letter l =>
      cases mode with
      | none => exact hone rfl (iff_true_intro (order_self _ _))
      | alphabetical => exact hsilent rfl
      | patch => exact hsilent rfl
  | letter l =>
    cases f with
    | plain =>
      cases mode with
      | none => exact hone rfl (iff_true_intro (order_self _ _))
      | alphabetical => exact hone rfl (iff_true_intro (order_gt _ _ (List.nil_lt_cons _ _)))
      | patch => exact hsilent rfl
    | pre before k after number => exact hsilent (by cases mode <;> rfl)
    | patch n =>
      cases mode with
      | none => exact hone rfl (iff_true_intro (order_self _ _))
      | alphabetical => exact hsilent rfl
      | patch => exact hsilent rfl
    | letter k =>
      cases mode with
      | none => exact hone rfl (iff_true_intro (order_self _ _))
      | alphabetical => exact hone rfl (iff_true_intro (letter_letter l k))
      | patch => exact hsilent rfl

/-- Two versions are ordered as they are asked to be if and only if, where their releases are the
same, their endings fit. -/
theorem versions_are_ordered_iff (suffix : Option Text) (u v : Written) :
    Ordered suffix u v ↔ (u.release.Same v.release → Fits (mode_of suffix) u.ending v.ending) := by
  unfold Ordered
  constructor
  · rintro ⟨-, h⟩ hsame
    rw [← asked_iff]
    intro o ho
    exact (compared_iff suffix hsame o).mp (h hsame o ho)
  · intro h
    refine ⟨compared_of_smaller suffix, fun hsame o ho => ?_⟩
    rw [compared_iff suffix hsame]
    exact (asked_iff _ _ _).mpr (h hsame) o ho

def one : Numeral where
  digits := ['1']
  nonempty := by simp
  decimal := by
    intro c hc
    rw [List.mem_singleton.mp hc]
    decide

def candidate : Written := ⟨⟨one, []⟩, .pre none .rc none none⟩

def released : Written := ⟨⟨one, []⟩, .plain⟩

/-- With a letter for the patch, `1rc` is no smaller than `1`. -/
theorem a_candidate_is_a_patched_release : ¬ ∀ (suffix : Option Text) (u v : Written), Ordered suffix u v := by
  intro h
  have hsame : candidate.release.Same released.release := fun _ => rfl
  have hmode : mode_of (some (text "alphabetical")) = .alphabetical := rfl
  have hordered := (h (some (text "alphabetical")) candidate released).2 hsame .lt rfl
  rw [compared_iff _ hsame, hmode] at hordered
  have hgt : order (candidate.ending.patch_key .alphabetical) (released.ending.patch_key .alphabetical)
      (candidate.ending.pre_key .alphabetical) (released.ending.pre_key .alphabetical) = .gt :=
    order_gt _ _ (pre_alphabetical none .rc none none)
  rw [hgt] at hordered
  cases hordered

end yocto.cve_versions
