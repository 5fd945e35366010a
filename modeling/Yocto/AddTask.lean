-- The `addtask` statements (BBHandler.py). One regular expression takes the name of the task
-- and the clauses behind it.
import Yocto.Backtracking
import Yocto.BblayersEdits
import Yocto.ListSearch
import Yocto.TextLines

open yocto.task_ids yocto.data_smart yocto.text_lines yocto.backtracking yocto.list_search

namespace yocto.add_task

/-! ## The statement -/

inductive Keyword
  | before | after
  deriving DecidableEq

def Keyword.text : Keyword → Text
  | .before => task_ids.text "before"
  | .after => task_ids.text "after"

def Keyword.other : Keyword → Keyword
  | .before => .after
  | .after => .before

/-- `\w`. Beyond ASCII it is told which characters are letters or digits. -/
def isword (letter : Char → Bool) (c : Char) : Bool :=
  c.isAlphanum || c = '_' || (128 ≤ c.toNat && !isspace c && letter c)

/-- `before\s*(?P<before>((.*(?=after))|(.*)))`, and the same for `after`. -/
def clause (k : Keyword) (s : Text) : List (Text × Text) :=
  (literal k.text s).flatMap fun s => (greedy isspace s).flatMap fun x =>
    greedy_before (· ≠ '\n') k.other.text x.2 ++ greedy (· ≠ '\n') x.2

abbrev Groups := Keyword → Option Text

/-- The clauses with a star, for at most so many turns. -/
def clauses : ℕ → Groups → Text → List (Groups × Text)
  | 0, groups, s => [(groups, s)]
  | n + 1, groups, s =>
    ((clause .before s).flatMap fun x => clauses n (Function.update groups .before (some x.1)) x.2) ++
    ((clause .after s).flatMap fun x => clauses n (Function.update groups .after (some x.1)) x.2) ++
    [(groups, s)]

/-- The matches of `addtask\s+(?P<func>\w+)\s*(...)*`. -/
def addtask_matches (letter : Char → Bool) (s : Text) : List (Text × Groups) :=
  (literal (text "addtask") s).flatMap fun s => (greedy1 isspace s).flatMap fun x =>
    (greedy1 (isword letter) x.2).flatMap fun y => (greedy isspace y.2).flatMap fun z =>
      (clauses z.2.length (fun _ => none) z.2).map fun w => (y.1, w.1)

structure AddTaskNode where
  func : Text
  before : Option Text
  after : Option Text

inductive Parsed
  | other_statement
  | parse_error (te : Text)
  | node (node : AddTaskNode)

def setvar_keyword : List Text := [text ":append", text ":prepend", text ":remove"]

/-- The branch of `feeder` for an `addtask` statement. -/
def feeder_addtask (letter : Char → Bool) (s : Text) : Parsed :=
  match (addtask_matches letter s).head? with
  | none => .other_statement
  | some m =>
    match (words s).find? fun te => setvar_keyword.any fun keyword => (keyword ++ ['_']) <:+: te with
    | some te => .parse_error te
    | none => .node ⟨m.1, m.2 .before, m.2 .after⟩

/-- The names that `build.addtask` takes out of a clause. -/
def entries (clause : Option Text) : List Text := (clause.map words).getD []

def AddTaskNode.entries (node : AddTaskNode) : Keyword → List Text
  | .before => add_task.entries node.before
  | .after => add_task.entries node.after

/-! ## What is written -/

/-- The name of a task: letters, digits and underscores. -/
structure Name (letter : Char → Bool) where
  word : Text
  nonempty : word ≠ []
  letters : ∀ c ∈ word, isword letter c = true

/-- A statement with one clause, or with one clause and the other one behind it. -/
structure Statement (letter : Char → Bool) where
  func : Name letter
  first : Keyword
  named : List (Name letter)
  second : Option (List (Name letter))

variable {letter : Char → Bool}

def clause_words (k : Keyword) (names : List (Name letter)) : List Text := k.text :: names.map Name.word

def Statement.clause_words (s : Statement letter) : List Text :=
  add_task.clause_words s.first s.named ++ ((s.second.map (add_task.clause_words s.first.other)).getD [])

/-- The words with a blank in front of each. -/
def spaced (ws : List Text) : Text := ws.flatMap (' ' :: ·)

def Statement.text (s : Statement letter) : Text :=
  task_ids.text "addtask" ++ spaced (s.func.word :: s.clause_words)

def Statement.names (s : Statement letter) (k : Keyword) : List Text :=
  (if k = s.first then s.named else s.second.getD []).map Name.word

def ParsedAsWritten (s : Statement letter) : Prop :=
  ∃ node, feeder_addtask letter s.text = .node node ∧ node.func = s.func.word ∧ ∀ k, node.entries k = s.names k

/-- The names of the last clause do not have a keyword in them: the other keyword when it is the only clause,
and any of the two when there is a clause in front of it. -/
def Clear (s : Statement letter) : Prop :=
  match s.second with
  | none => ∀ name ∈ s.named, ¬ s.first.other.text <:+: name.word
  | some names => ∀ name ∈ names, ∀ k : Keyword, ¬ k.text <:+: name.word

/-! ## Characters that are seen -/

/-- How many characters of a text are no white space. -/
def visible (s : Text) : ℕ := s.countP fun c => !isspace c

theorem visible_append (s t : Text) : visible (s ++ t) = visible s + visible t := List.countP_append

theorem visible_of_part {p : Text} (hp : ∀ c ∈ p, isspace c = false) : visible p = p.length := by
  unfold visible
  rw [List.countP_eq_length]
  intro c hc
  simp [hp c hc]

theorem visible_words_part {p : Text} (hp : ∀ c ∈ p, isspace c = false) :
    visible p = (words p).flatten.length := by
  rw [words_of_part hp, visible_of_part hp]
  by_cases hne : p = [] <;> simp [hne]

theorem visible_words (s : Text) : visible s = (words s).flatten.length := by
  induction s using by_parts with
  | part p hp => exact visible_words_part hp
  | space p c s hp hc ih =>
    rw [words_append_space hc, List.flatten_append, List.length_append, ← ih, ← visible_words_part hp,
      visible_append]
    simp [visible, hc]

theorem visible_text_pos (k : Keyword) : 0 < visible k.text := by
  cases k <;> decide

theorem text_ne_nil (k : Keyword) : k.text ≠ [] := by
  cases k <;> decide

theorem space_not_mem_text (k : Keyword) : ' ' ∉ k.text := by
  cases k <;> decide

theorem newline_not_mem_text (k : Keyword) : '\n' ∉ k.text := by
  cases k <;> decide

theorem head_text (k : Keyword) : ∃ c t, k.text = c :: t ∧ isspace c = false := by
  cases k
  · exact ⟨'b', text "efore", by decide, by decide⟩
  · exact ⟨'a', text "fter", by decide, by decide⟩

theorem other_text_no_start (k : Keyword) (s : Text) : ¬ k.other.text <+: k.text ++ s := by
  cases k <;> simp [Keyword.text, Keyword.other, text]

/-! ## Names -/

theorem isspace_of_isword {c : Char} (h : isword letter c = true) : isspace c = false := by
  unfold isword at h
  by_contra hspace
  rw [Bool.not_eq_false] at hspace
  simp only [hspace, Bool.not_true, Bool.and_false, Bool.false_and, Bool.or_false, Bool.or_eq_true,
    decide_eq_true_eq] at h
  rcases h with h | rfl
  · simp only [isspace, Bool.or_eq_true, Bool.and_eq_true, decide_eq_true_eq] at hspace
    have hclass : (((c.val ≥ 'A'.val ∧ c.val ≤ 'Z'.val : Bool) || (c.val ≥ 'a'.val && c.val ≤ 'z'.val)) ||
        (c.val ≥ '0'.val && c.val ≤ '9'.val)) = true := h
    clear h
    simp only [Bool.or_eq_true, Bool.and_eq_true, decide_eq_true_eq, ge_iff_le, UInt32.le_iff_toNat_le] at hclass
    have hn : c.val.toNat = c.toNat := rfl
    have hA : 'A'.val.toNat = 65 := rfl
    have hZ : 'Z'.val.toNat = 90 := rfl
    have ha : 'a'.val.toNat = 97 := rfl
    have hz : 'z'.val.toNat = 122 := rfl
    have h0 : '0'.val.toNat = 48 := rfl
    have h9 : '9'.val.toNat = 57 := rfl
    rw [hn, hA, hZ, ha, hz, h0, h9] at hclass
    omega
  · exact absurd hspace (by decide)

theorem Name.is_word (name : Name letter) : Word name.word :=
  ⟨name.nonempty, fun c hc => isspace_of_isword (name.letters c hc)⟩

theorem Name.not_mem (name : Name letter) {c : Char} (hc : isspace c = true) : c ∉ name.word :=
  name.is_word.not_mem hc

/-- The text of some names, a blank in front of each. -/
def list_text (names : List (Name letter)) : Text := spaced (names.map Name.word)

theorem list_text_nil : list_text ([] : List (Name letter)) = [] := rfl

theorem list_text_cons (name : Name letter) (names : List (Name letter)) :
    list_text (name :: names) = ' ' :: (name.word ++ list_text names) := rfl

theorem list_text_cases (names : List (Name letter)) :
    (names = [] ∧ list_text names = []) ∨ ∃ c t, list_text names = ' ' :: c :: t ∧ isspace c = false := by
  cases names with
  | nil => exact .inl ⟨rfl, rfl⟩
  | cons name names =>
    obtain ⟨c, t, hword⟩ := List.exists_cons_of_ne_nil name.nonempty
    refine .inr ⟨c, t ++ list_text names, by rw [list_text_cons, hword, List.cons_append], ?_⟩
    exact name.is_word.no_space c (by simp [hword])

theorem words_blank (s : Text) : words (' ' :: s) = words s := by
  have h := @words_append_space ' ' (by decide) [] s
  rwa [words_nil] at h

theorem words_list_text (names : List (Name letter)) (s : Text) :
    words (list_text names ++ ' ' :: s) = names.map Name.word ++ words s := by
  induction names with
  | nil => exact words_blank s
  | cons name names ih =>
    obtain ⟨t, ht⟩ : ∃ t, list_text names ++ ' ' :: s = ' ' :: t := by
      cases names with
      | nil => exact ⟨s, rfl⟩
      | cons name' names => exact ⟨name'.word ++ list_text names ++ ' ' :: s, rfl⟩
    rw [ht, words_blank] at ih
    rw [list_text_cons, List.cons_append, words_blank, List.append_assoc, ht,
      words_cons name.is_word (by decide), ih]
    rfl

theorem words_list_text_end (names : List (Name letter)) : words (list_text names) = names.map Name.word := by
  have h := words_list_text names []
  rwa [words_append_space (by decide), words_nil, List.append_nil, List.append_nil] at h

theorem visible_list_text (names : List (Name letter)) :
    visible (list_text names) = (names.map Name.word).flatten.length := by
  rw [visible_words, words_list_text_end]

theorem newline_not_mem_list_text (names : List (Name letter)) : '\n' ∉ list_text names := by
  induction names with
  | nil => exact List.not_mem_nil
  | cons name names ih =>
    rw [list_text_cons]
    simp [@Name.not_mem _ name '\n' (by decide), ih]

theorem infix_list_text {w : Text} (hne : w ≠ []) (hw : ' ' ∉ w) (names : List (Name letter)) :
    w <:+: list_text names ↔ ∃ name ∈ names, w <:+: name.word := by
  induction names with
  | nil => simp [list_text_nil, hne]
  | cons name names ih =>
    have hsplit : w <:+: name.word ++ list_text names ↔ w <:+: name.word ∨ w <:+: list_text names := by
      constructor
      · intro h
        cases names with
        | nil => exact .inl (by simpa [list_text_nil] using h)
        | cons name' names =>
          rw [list_text_cons] at h ⊢
          rcases infix_append_cons hw h with h | h
          · exact .inl h
          · exact .inr (h.trans (List.suffix_cons _ _).isInfix)
      · rintro (h | h)
        · exact h.trans (List.prefix_append _ _).isInfix
        · exact h.trans (List.suffix_append _ _).isInfix
    have hblank : w <:+: ' ' :: (name.word ++ list_text names) ↔ w <:+: name.word ++ list_text names := by
      constructor
      · intro h
        rcases @infix_append_cons _ ' ' w [] _ hw h with h | h
        · exact absurd (List.eq_nil_of_infix_nil h) hne
        · exact h
      · exact fun h => h.trans (List.suffix_cons _ _).isInfix
    rw [list_text_cons, hblank, hsplit, ih]
    simp

/-! ## One clause -/

variable {k : Keyword} {groups : Groups} {n : ℕ}

theorem clause_other (k : Keyword) (s : Text) : clause k.other (k.text ++ s) = [] := by
  unfold clause
  rw [literal_ne (other_text_no_start k s)]
  rfl

theorem clause_text (k : Keyword) {a s : Text} (ha : ∀ c ∈ a, isspace c = true)
    (hs : ∀ c ∈ s.head?, isspace c = false) :
    ∃ more, clause k (k.text ++ (a ++ s)) =
      greedy_before (· ≠ '\n') k.other.text s ++ greedy (· ≠ '\n') s ++ more := by
  obtain ⟨shorter, hshorter⟩ := greedy_first ha hs
  unfold clause
  rw [literal_append]
  simp only [List.flatMap_cons, List.flatMap_nil, List.append_nil, hshorter]
  exact ⟨_, rfl⟩

theorem all_of_newline_not_mem {s : Text} (h : '\n' ∉ s) : ∀ c ∈ s, decide (c ≠ '\n') = true := by
  intro c hc
  simp only [ne_eq, decide_eq_true_eq]
  rintro rfl
  exact h hc

theorem clause_whole {a s : Text} (ha : ∀ c ∈ a, isspace c = true) (hs : ∀ c ∈ s.head?, isspace c = false)
    (hline : '\n' ∉ s) (hnot : ¬ k.other.text <:+: s) :
    ∃ more, clause k (k.text ++ (a ++ s)) = (s, []) :: more := by
  obtain ⟨more, hmore⟩ := clause_text k ha hs
  obtain ⟨shorter, hshorter⟩ := @greedy_first _ (· ≠ '\n') [] s (all_of_newline_not_mem hline) (by simp)
  rw [List.append_nil] at hshorter
  rw [hmore, greedy_before_none hnot, hshorter]
  exact ⟨_, rfl⟩

theorem clause_cut {a u v : Text} (ha : ∀ c ∈ a, isspace c = true)
    (hs : ∀ c ∈ (u ++ (k.other.text ++ v)).head?, isspace c = false) (hline : '\n' ∉ u)
    (hlast : ¬ k.other.text <:+: (k.other.text ++ v).tail) :
    ∃ more, clause k (k.text ++ (a ++ (u ++ (k.other.text ++ v)))) = (u, k.other.text ++ v) :: more := by
  obtain ⟨more, hmore⟩ := clause_text k ha hs
  obtain ⟨shorter, hshorter⟩ :=
    greedy_before_first (text_ne_nil k.other) (all_of_newline_not_mem hline) hlast
  rw [hmore, hshorter]
  exact ⟨_, rfl⟩

theorem mem_clause {k : Keyword} {s : Text} {x : Text × Text} (h : x ∈ clause k s) :
    visible x.1 + visible x.2 < visible s := by
  unfold clause at h
  obtain ⟨t, ht, h⟩ := List.mem_flatMap.mp h
  obtain ⟨y, hy, h⟩ := List.mem_flatMap.mp h
  have hs := mem_literal ht
  have ht := (mem_greedy hy).1
  have hrest : y.2 = x.1 ++ x.2 := by
    rcases List.mem_append.mp h with h | h
    · exact mem_greedy_before h
    · exact (mem_greedy h).1
  have hpos := visible_text_pos k
  rw [hs, ht, hrest, visible_append, visible_append, visible_append]
  omega

/-! ## The clauses -/

theorem head?_some (n : ℕ) (groups : Groups) (s : Text) : ∃ x, (clauses n groups s).head? = some x := by
  have hne : clauses n groups s ≠ [] := by
    cases n <;> simp [clauses]
  exact Option.ne_none_iff_exists'.mp (by simpa using hne)

theorem head?_clauses {s : Text} {x : Text × Text} {more : List (Text × Text)}
    (h : clause k (k.text ++ s) = x :: more) :
    (clauses (n + 1) groups (k.text ++ s)).head? =
      (clauses n (Function.update groups k (some x.1)) x.2).head? := by
  obtain ⟨m, hm⟩ := head?_some n (Function.update groups k (some x.1)) x.2
  rw [hm]
  have hother := clause_other k s
  cases k with
  | before =>
    unfold clauses
    rw [List.append_assoc, List.head?_append, first_of_cons h hm]
    rfl
  | after =>
    unfold clauses
    rw [show clause .before (Keyword.text .after ++ s) = [] from hother, List.flatMap_nil, List.nil_append,
      List.head?_append, first_of_cons h hm]
    rfl

theorem clauses_nil (n : ℕ) (groups : Groups) : clauses n groups [] = [(groups, [])] := by
  cases n with
  | zero => rfl
  | succ n =>
    have hnone : ∀ k : Keyword, clause k [] = [] := by
      intro k
      unfold clause
      rw [literal_ne (by simp [text_ne_nil k])]
      rfl
    simp [clauses, hnone]

theorem group_of_clauses {s : Text} {g : Groups} {left : Text} (h : (g, left) ∈ clauses n groups s) (k : Keyword) :
    g k = groups k ∨ ∃ t, g k = some t ∧ visible t < visible s := by
  induction n generalizing groups s with
  | zero =>
    cases List.mem_singleton.mp h
    exact .inl rfl
  | succ n ih =>
    have hturn : ∀ (k' : Keyword) (y : Text × Text), y ∈ clause k' s →
        (g, left) ∈ clauses n (Function.update groups k' (some y.1)) y.2 →
        g k = groups k ∨ ∃ t, g k = some t ∧ visible t < visible s := by
      intro k' y hy hx
      have hless := mem_clause hy
      rcases ih hx with hsame | ⟨t, ht, hlt⟩
      · by_cases hk : k = k'
        · subst hk
          rw [Function.update_self] at hsame
          exact .inr ⟨y.1, hsame, by omega⟩
        · rw [Function.update_of_ne hk] at hsame
          exact .inl hsame
      · exact .inr ⟨t, ht, by omega⟩
    unfold clauses at h
    rcases List.mem_append.mp h with h | h
    · rcases List.mem_append.mp h with h | h
      · obtain ⟨y, hy, hx⟩ := List.mem_flatMap.mp h
        exact hturn .before y hy hx
      · obtain ⟨y, hy, hx⟩ := List.mem_flatMap.mp h
        exact hturn .after y hy hx
    · cases List.mem_singleton.mp h
      exact .inl rfl

/-! ## The last clause and the one before it -/

theorem all_blank : ∀ c ∈ [' '], isspace c = true := by
  intro c hc
  obtain rfl := List.mem_singleton.mp hc
  decide

theorem head?_ne_space {c : Char} (hc : isspace c = false) (s : Text) : ∀ x ∈ (c :: s).head?, isspace x = false := by
  intro x hx
  obtain rfl := Option.some.inj hx
  exact hc

theorem infix_blank {w : Text} (hne : w ≠ []) (hw : ' ' ∉ w) {s : Text} (h : w <:+: ' ' :: s) : w <:+: s := by
  rcases @infix_append_cons _ ' ' w [] s hw h with h | h
  · exact absurd (List.eq_nil_of_infix_nil h) hne
  · exact h

theorem words_ne {t : Text} {names : List (Name letter)} (h : visible t < visible (list_text names)) :
    words t ≠ names.map Name.word := by
  intro hwords
  rw [visible_words t, hwords, visible_list_text] at h
  omega

theorem last_whole {names : List (Name letter)} (h : ∀ name ∈ names, ¬ k.other.text <:+: name.word) :
    ∃ r, (clauses (n + 1) groups (k.text ++ list_text names)).head? = some (Function.update groups k (some r), []) ∧
      words r = names.map Name.word := by
  have hnot : ¬ k.other.text <:+: list_text names := by
    rw [infix_list_text (text_ne_nil _) (space_not_mem_text _)]
    rintro ⟨name, hname, hinfix⟩
    exact h name hname hinfix
  have hline := newline_not_mem_list_text names
  rcases list_text_cases names with ⟨rfl, hnil⟩ | ⟨c, t, hcons, hc⟩
  · obtain ⟨more, hmore⟩ := @clause_whole k [] [] (by simp) (by simp) (by simp) (by simpa [hnil] using hnot)
    refine ⟨[], ?_, words_nil⟩
    rw [hnil]
    exact (head?_clauses hmore).trans (by rw [clauses_nil]; rfl)
  · rw [hcons] at hnot hline
    obtain ⟨more, hmore⟩ := @clause_whole k [' '] (c :: t) all_blank (head?_ne_space hc t)
      (fun hmem => hline (List.mem_cons_of_mem _ hmem))
      (fun hin => hnot (hin.trans (List.suffix_cons _ _).isInfix))
    refine ⟨c :: t, ?_, ?_⟩
    · rw [hcons]
      exact (head?_clauses hmore).trans (by rw [clauses_nil]; rfl)
    · rw [← words_blank, ← hcons, words_list_text_end]

theorem last_cut {names : List (Name letter)} {name : Name letter} (hname : name ∈ names)
    (h : k.other.text <:+: name.word) {g : Groups} {left : Text}
    (hx : (clauses (n + 1) groups (k.text ++ list_text names)).head? = some (g, left)) :
    ∃ t, g k = some t ∧ visible t < visible (list_text names) := by
  have hinfix : k.other.text <:+: list_text names :=
    (infix_list_text (text_ne_nil _) (space_not_mem_text _) names).mpr ⟨name, hname, h⟩
  have hline := newline_not_mem_list_text names
  rcases list_text_cases names with ⟨rfl, -⟩ | ⟨c, t, hcons, hc⟩
  · cases hname
  · rw [hcons] at hinfix hline
    obtain ⟨u, v, huv, hlast⟩ :=
      exists_last (text_ne_nil _) (infix_blank (text_ne_nil _) (space_not_mem_text _) hinfix)
    have hhead := head?_ne_space hc t
    rw [huv] at hhead hline
    obtain ⟨more, hmore⟩ := @clause_cut k [' '] u v all_blank hhead
      (fun hmem => hline (List.mem_cons_of_mem _ (List.mem_append_left _ hmem))) hlast
    have hvisible : visible (list_text names) = visible u + visible (k.other.text ++ v) := by
      rw [hcons, huv, ← List.singleton_append, visible_append, visible_append]
      simp [visible, show isspace ' ' = true from rfl]
    have hpos := visible_text_pos k.other
    have hless : visible k.other.text ≤ visible (k.other.text ++ v) := by
      rw [visible_append]
      omega
    rw [hcons, huv] at hx
    replace hx := List.mem_of_head? ((head?_clauses hmore).symm.trans hx)
    rcases group_of_clauses hx k with hsame | ⟨t, ht, hlt⟩
    · rw [Function.update_self] at hsame
      exact ⟨u, hsame, by omega⟩
    · have hlt : visible t < visible (k.other.text ++ v) := hlt
      exact ⟨t, ht, by omega⟩

theorem first_text (named : List (Name letter)) {c : Char} (hc : isspace c = false) (s : Text) :
    ∃ p, list_text named ++ ' ' :: c :: s = [' '] ++ (p ++ c :: s) ∧ words p = named.map Name.word ∧ '\n' ∉ p ∧
      ∀ x ∈ (p ++ c :: s).head?, isspace x = false := by
  have hline := newline_not_mem_list_text named
  have hwords := words_list_text named []
  rcases list_text_cases named with ⟨rfl, hnil⟩ | ⟨d, t, hcons, hd⟩
  · exact ⟨[], by rw [hnil]; rfl, words_nil, List.not_mem_nil, head?_ne_space hc s⟩
  · rw [hcons] at hline hwords ⊢
    refine ⟨d :: t ++ [' '], by simp, ?_, ?_, head?_ne_space hd _⟩
    · rw [List.cons_append, words_blank, words_nil, List.append_nil] at hwords
      exact hwords
    · intro hmem
      rcases List.mem_append.mp hmem with hmem | hmem
      · exact hline (List.mem_cons_of_mem _ hmem)
      · simp at hmem

theorem last_place {names : List (Name letter)} (h : ∀ name ∈ names, ¬ k.text <:+: name.word) :
    ¬ k.text <:+: (k.text ++ list_text names).tail := by
  have hnot : ¬ k.text <:+: list_text names := by
    rw [infix_list_text (text_ne_nil _) (space_not_mem_text _)]
    rintro ⟨name, hname, hinfix⟩
    exact h name hname hinfix
  have hshort : ¬ k.text <:+: k.text.tail := by
    cases k <;> decide
  obtain ⟨c, t, htext, -⟩ := head_text k
  have htail : (k.text ++ list_text names).tail = k.text.tail ++ list_text names := by
    rw [htext]
    rfl
  rw [htail]
  intro hinfix
  rcases list_text_cases names with ⟨-, hnil⟩ | ⟨c, t, hcons, -⟩
  · rw [hnil, List.append_nil] at hinfix
    exact hshort hinfix
  · rw [hcons] at hinfix hnot
    rcases infix_append_cons (space_not_mem_text k) hinfix with hin | hin
    · exact hshort hin
    · exact hnot (hin.trans (List.suffix_cons _ _).isInfix)

theorem other_other (k : Keyword) : k.other.other = k := by
  cases k <;> rfl

theorem other_ne (k : Keyword) : k.other ≠ k := by
  cases k <;> decide

theorem first_whole (named : List (Name letter)) {names : List (Name letter)}
    (h : ∀ name ∈ names, ¬ k.other.text <:+: name.word) :
    ∃ p, (clauses (n + 1) groups
        (k.text ++ (list_text named ++ ' ' :: (k.other.text ++ list_text names)))).head? =
        (clauses n (Function.update groups k (some p)) (k.other.text ++ list_text names)).head? ∧
      words p = named.map Name.word := by
  obtain ⟨c, t, htext, hc⟩ := head_text k.other
  obtain ⟨p, hp, hwords, hline, hhead⟩ := first_text named hc (t ++ list_text names)
  have hsplit : c :: (t ++ list_text names) = k.other.text ++ list_text names := by
    rw [htext]
    rfl
  rw [hsplit] at hp hhead
  obtain ⟨more, hmore⟩ := @clause_cut k [' '] p _ all_blank hhead hline (last_place h)
  rw [hp]
  exact ⟨p, head?_clauses hmore, hwords⟩

theorem first_cut (named : List (Name letter)) {names : List (Name letter)} {name : Name letter}
    (hname : name ∈ names) (h : k.other.text <:+: name.word) {g : Groups} {left : Text}
    (hx : (clauses (n + 2) groups
      (k.text ++ (list_text named ++ ' ' :: (k.other.text ++ list_text names)))).head? = some (g, left)) :
    ∃ t, g k.other = some t ∧ visible t < visible (list_text names) := by
  have hinfix : k.other.text <:+: list_text names :=
    (infix_list_text (text_ne_nil _) (space_not_mem_text _) names).mpr ⟨name, hname, h⟩
  obtain ⟨u, v, huv, hlast⟩ := exists_last (text_ne_nil _) hinfix
  obtain ⟨c, t, htext, hc⟩ := head_text k.other
  obtain ⟨p, hp, -, hline, hhead⟩ := first_text named hc (t ++ list_text names)
  have hsplit : c :: (t ++ list_text names) = k.other.text ++ (u ++ (k.other.text ++ v)) := by
    rw [← huv, htext]
    rfl
  have hline' : '\n' ∉ p ++ (k.other.text ++ u) := by
    have hnames := newline_not_mem_list_text names
    rw [huv] at hnames
    simp only [List.mem_append, not_or] at hnames ⊢
    exact ⟨hline, newline_not_mem_text _, hnames.1⟩
  have hall : list_text named ++ ' ' :: (k.other.text ++ list_text names) =
      [' '] ++ ((p ++ (k.other.text ++ u)) ++ (k.other.text ++ v)) := by
    rw [huv, ← hsplit, hp, hsplit]
    simp
  have hhead' : ∀ y ∈ ((p ++ (k.other.text ++ u)) ++ (k.other.text ++ v)).head?, isspace y = false := by
    rw [hsplit] at hhead
    simpa using hhead
  obtain ⟨more, hmore⟩ := @clause_cut k [' '] _ v all_blank hhead' hline' hlast
  rw [hall] at hx
  replace hx := (head?_clauses hmore).symm.trans hx
  -- The second keyword stands in front of what is left, and its clause is taken from there.
  obtain ⟨y, more', hmore'⟩ : ∃ y more', clause k.other (k.other.text ++ v) = y :: more' := by
    have hmem : ([], v) ∈ clause k.other (k.other.text ++ v) := by
      unfold clause
      rw [literal_append]
      exact List.mem_flatMap.mpr ⟨v, by simp, List.mem_flatMap.mpr ⟨([], v), nil_mem_greedy _ _,
        List.mem_append_right _ (nil_mem_greedy _ _)⟩⟩
    exact List.exists_cons_of_ne_nil (List.ne_nil_of_mem hmem)
  have hless := mem_clause (hmore' ▸ List.mem_cons_self : y ∈ clause k.other (k.other.text ++ v))
  have hvisible : visible (list_text names) = visible u + visible (k.other.text ++ v) := by
    rw [huv, visible_append]
  replace hx := List.mem_of_head? ((head?_clauses hmore').symm.trans hx)
  rcases group_of_clauses hx k.other with hsame | ⟨t, ht, hlt⟩
  · rw [Function.update_self] at hsame
    exact ⟨y.1, hsame, by omega⟩
  · exact ⟨t, ht, by omega⟩

/-! ## The whole statement -/

/-- What stands behind the name of the task and the blanks. -/
def Statement.rest (s : Statement letter) : Text :=
  s.first.text ++ (list_text s.named ++
    (s.second.map fun names => ' ' :: (s.first.other.text ++ list_text names)).getD [])

theorem text_eq (s : Statement letter) :
    s.text = text "addtask" ++ ([' '] ++ (s.func.word ++ ([' '] ++ s.rest))) := by
  unfold Statement.text Statement.rest Statement.clause_words spaced
  cases s.second <;> simp [clause_words, list_text, spaced]

theorem isword_space : isword letter ' ' = false := by
  by_contra h
  rw [Bool.not_eq_false] at h
  exact absurd (isspace_of_isword h) (by decide)

theorem addtask_matches_head (s : Statement letter) {g : Groups} {left : Text}
    (hx : (clauses s.rest.length (fun _ => none) s.rest).head? = some (g, left)) :
    (addtask_matches letter s.text).head? = some (s.func.word, g) := by
  obtain ⟨c, t, hword⟩ := List.exists_cons_of_ne_nil s.func.nonempty
  have hfunc : ∀ d ∈ (s.func.word ++ ([' '] ++ s.rest)).head?, isspace d = false := by
    rw [hword]
    exact head?_ne_space (s.func.is_word.no_space c (by simp [hword])) _
  obtain ⟨c', t', htext, hc'⟩ := head_text s.first
  have hrest : ∀ d ∈ s.rest.head?, isspace d = false := by
    unfold Statement.rest
    rw [htext]
    exact head?_ne_space hc' _
  have hblank : ∀ d ∈ ([' '] ++ s.rest).head?, isword letter d = false := by
    intro d hd
    obtain rfl := Option.some.inj hd
    exact isword_space
  obtain ⟨more₁, h₁⟩ := @greedy1_first _ isspace _ [' '] (by simp) all_blank hfunc
  obtain ⟨more₂, h₂⟩ := greedy1_first s.func.nonempty s.func.letters hblank
  obtain ⟨more₃, h₃⟩ := @greedy_first _ isspace s.rest [' '] all_blank hrest
  unfold addtask_matches
  rw [text_eq]
  apply first_of_cons (literal_append _ _)
  apply first_of_cons h₁
  apply first_of_cons h₂
  apply first_of_cons h₃
  rw [List.head?_map, hx, Option.map_some]

theorem colon_not_mem (s : Statement letter) : ':' ∉ s.text := by
  have hword : ∀ name : Name letter, ':' ∉ name.word := by
    intro name hmem
    have h := name.letters ':' hmem
    simp [isword] at h
  have hkeyword : ∀ k : Keyword, ':' ∉ k.text := by
    intro k
    cases k <;> decide
  have hlist : ∀ names : List (Name letter), ':' ∉ list_text names := by
    intro names
    induction names with
    | nil => exact List.not_mem_nil
    | cons name names ih => simp [list_text_cons, hword name, ih]
  rw [text_eq]
  unfold Statement.rest
  cases s.second <;> simp [text, hword, hkeyword, hlist]

theorem feeder_statement (s : Statement letter) {g : Groups} {left : Text}
    (hx : (clauses s.rest.length (fun _ => none) s.rest).head? = some (g, left)) :
    feeder_addtask letter s.text = .node ⟨s.func.word, g .before, g .after⟩ := by
  have hfind : ((words s.text).find? fun te =>
      setvar_keyword.any fun keyword => (keyword ++ ['_']) <:+: te) = none := by
    apply List.find?_eq_none.mpr
    intro te hte hany
    obtain ⟨keyword, hkeyword, hinfix⟩ := List.any_eq_true.mp hany
    have hcolon : ':' ∈ keyword := by
      have hall : ∀ keyword ∈ setvar_keyword, ':' ∈ keyword := by decide
      exact hall keyword hkeyword
    have hmem : ':' ∈ te := (of_decide_eq_true hinfix).subset (List.mem_append_left _ hcolon)
    exact colon_not_mem s (mem_of_mem_words hte hmem)
  unfold feeder_addtask
  rw [addtask_matches_head s hx]
  simp only [hfind]

theorem parsed_iff (s : Statement letter) {g : Groups} {left : Text}
    (hx : (clauses s.rest.length (fun _ => none) s.rest).head? = some (g, left)) :
    ParsedAsWritten s ↔ ∀ k, entries (g k) = s.names k := by
  have hnode : ∀ k, (AddTaskNode.mk s.func.word (g .before) (g .after)).entries k = entries (g k) := by
    intro k
    cases k <;> rfl
  unfold ParsedAsWritten
  rw [feeder_statement s hx]
  constructor
  · rintro ⟨node, hparsed, -, hentries⟩ k
    cases hparsed
    rw [← hnode]
    exact hentries k
  · intro h
    refine ⟨_, rfl, rfl, fun k => ?_⟩
    rw [hnode]
    exact h k

theorem rest_length (s : Statement letter) : ∃ n, s.rest.length = n + 2 := by
  have htext : 2 ≤ s.first.text.length := by
    cases s.first <;> decide
  refine ⟨s.rest.length - 2, ?_⟩
  unfold Statement.rest
  rw [List.length_append]
  omega

theorem eq_or_other (k k' : Keyword) : k' = k ∨ k' = k.other := by
  cases k <;> cases k' <;> decide

theorem one_clause (func : Name letter) (k : Keyword) (named : List (Name letter)) :
    ParsedAsWritten ⟨func, k, named, none⟩ ↔ ∀ name ∈ named, ¬ k.other.text <:+: name.word := by
  let s : Statement letter := ⟨func, k, named, none⟩
  obtain ⟨n, hn⟩ := rest_length s
  have hrest : s.rest = k.text ++ list_text named := by
    simp [s, Statement.rest]
  constructor
  · intro hparsed name hname hinfix
    obtain ⟨⟨g, left⟩, hx⟩ := head?_some s.rest.length (fun _ => none) s.rest
    have hnames := (parsed_iff s hx).mp hparsed k
    rw [hn, hrest] at hx
    obtain ⟨t, ht, hlt⟩ := last_cut hname hinfix hx
    rw [ht] at hnames
    exact words_ne hlt (by simpa [entries, s, Statement.names] using hnames)
  · intro h
    obtain ⟨r, hr, hwords⟩ := @last_whole letter k (fun _ => none) (n + 1) named h
    have hx : (clauses s.rest.length (fun _ => none) s.rest).head? =
        some (Function.update (fun _ => none) k (some r), []) := by
      rw [hn, hrest]
      exact hr
    apply (parsed_iff s hx).mpr
    intro k'
    rcases eq_or_other k k' with rfl | rfl
    · simp [entries, s, Statement.names, hwords]
    · rw [Function.update_of_ne (other_ne k)]
      simp [entries, s, Statement.names, other_ne]

theorem two_clauses (func : Name letter) (k : Keyword) (named names : List (Name letter)) :
    ParsedAsWritten ⟨func, k, named, some names⟩ ↔ ∀ name ∈ names, ∀ k : Keyword, ¬ k.text <:+: name.word := by
  let s : Statement letter := ⟨func, k, named, some names⟩
  obtain ⟨n, hn⟩ := rest_length s
  have hrest : s.rest = k.text ++ (list_text named ++ ' ' :: (k.other.text ++ list_text names)) := by
    simp [s, Statement.rest]
  have hsecond : s.names k.other = names.map Name.word := by
    simp [s, Statement.names, other_ne]
  constructor
  · intro hparsed name hname k' hinfix
    obtain ⟨⟨g, left⟩, hx⟩ := head?_some s.rest.length (fun _ => none) s.rest
    have hnames := (parsed_iff s hx).mp hparsed k.other
    rw [hn, hrest] at hx
    rw [hsecond] at hnames
    suffices h : ∃ t, g k.other = some t ∧ visible t < visible (list_text names) by
      obtain ⟨t, ht, hlt⟩ := h
      rw [ht] at hnames
      exact words_ne hlt (by simpa [entries] using hnames)
    by_cases hsecond : ∃ name ∈ names, k.other.text <:+: name.word
    · obtain ⟨name, hname, hinfix⟩ := hsecond
      exact first_cut named hname hinfix hx
    · -- Only the keyword of the first clause is in the names: the second clause is cut.
      have hnot : ∀ name ∈ names, ¬ k.other.text <:+: name.word := by
        intro name hname hinfix
        exact hsecond ⟨name, hname, hinfix⟩
      obtain ⟨p, hp, -⟩ := @first_whole letter k (fun _ => none) (n + 1) named names hnot
      rcases eq_or_other k k' with rfl | rfl
      · rw [hp] at hx
        exact last_cut hname (by rwa [other_other]) hx
      · exact absurd hinfix (hnot name hname)
  · intro h
    obtain ⟨p, hp, hpwords⟩ := @first_whole letter k (fun _ => none) (n + 1) named names
      fun name hname => h name hname _
    obtain ⟨r, hr, hrwords⟩ := @last_whole letter k.other (Function.update (fun _ => none) k (some p)) n names
      fun name hname => h name hname _
    have hx : (clauses s.rest.length (fun _ => none) s.rest).head? =
        some (Function.update (Function.update (fun _ => none) k (some p)) k.other (some r), []) := by
      rw [hn, hrest, hp]
      exact hr
    apply (parsed_iff s hx).mpr
    intro k'
    rcases eq_or_other k k' with rfl | rfl
    · rw [Function.update_of_ne (Ne.symm (other_ne _)), Function.update_self]
      simp [entries, s, Statement.names, hpwords]
    · rw [Function.update_self, hsecond]
      simp [entries, hrwords]

/-- A statement is parsed as it is written when the names of its last clause do not have a keyword in them that
the expression looks for there. -/
theorem addtask_is_parsed_iff (s : Statement letter) : ParsedAsWritten s ↔ Clear s := by
  obtain ⟨func, k, named, second⟩ := s
  cases second with
  | none => exact one_clause func k named
  | some names => exact two_clauses func k named names

/-- A name of ASCII letters. -/
def plain_name (word : Text) (h : word ≠ [] ∧ (word.all fun c => isword (fun _ => false) c) = true) :
    Name (fun _ => false) where
  word := word
  nonempty := h.1
  letters := List.all_eq_true.mp h.2

/-- The task `do_prepare_before_install` is taken for a clause. -/
theorem a_name_is_taken_apart :
    ¬ ∀ (letter : Char → Bool) (s : Statement letter), ParsedAsWritten s := by
  intro h
  let install := plain_name (text "do_install") (by decide)
  let prepare := plain_name (text "prepare_before_install") (by decide)
  exact (one_clause install .after [prepare]).mp (h _ _) prepare List.mem_cons_self (by decide)

end yocto.add_task
