-- The two loops that join the lines of a file which end with a backslash: `handle` of
-- ConfHandler.py, and `feeder` of BBHandler.py with its residue.
import Yocto.ConfStatements

open yocto.task_ids yocto.data_smart yocto.text_lines yocto.metadata_editing yocto.conf_statements

namespace yocto.line_joiners

/-! ## Loops over lines -/

inductive Raised
  | index_error
  /-- A comment in the middle of a multiline expression. -/
  | fatal_comment
  /-- A multiline expression that is partly a comment. -/
  | fatal_confusing
  | parse_error
  deriving DecidableEq

section

variable {σ : Type} (step : σ → Text → Except Raised (σ × Option Text)) (finish : σ → Except Raised (List Text))

/-- The logical lines of a loop that takes one line after the other, and comes to the end of the file. -/
def run : σ → List Text → Except Raised (List Text)
  | s, [] => finish s
  | s, line :: rest =>
    match step s line with
    | .error e => .error e
    | .ok (s, out) => (run s rest).map (out.toList ++ ·)

def reads : σ → List Text → Except Raised σ
  | s, [] => .ok s
  | s, line :: rest =>
    match step s line with
    | .error e => .error e
    | .ok (s, _) => reads s rest

/-- Behind some lines that leave nothing open the rest is like this. -/
def Somewhere (idle : σ) (p : List Text → Prop) (s : σ) (lines : List Text) : Prop :=
  ∃ before rest, lines = before ++ rest ∧ reads step s before = .ok idle ∧ p rest

end

/-! ## The loop of ConfHandler.handle -/

/-- The end of a turn: `while s[-1]` goes on, or the line is given to the parser if it is no comment. -/
def close (s : Text) : Except Raised (Option Text × Option Text) :=
  if s = [] then .error .index_error
  else if s.getLast? = some '\\' then .ok (some s, none)
  else .ok (none, if s.head? = some '#' then none else some s)

/-- One line of the loop, and of the loop within it that joins lines. -/
def conf_step (pending : Option Text) (line : Text) : Except Raised (Option Text × Option Text) :=
  match pending with
  | none => if strip line = [] then .ok (none, none) else close (rstrip line)
  | some s => if confusing s (rstrip line) then .error .fatal_confusing else close (s.dropLast ++ rstrip line)

/-- At the end of the file `readline` gives the empty text again and again. -/
def conf_finish : Option Text → Except Raised (List Text)
  | none => .ok []
  | some s =>
    let joined := s.rdropWhile (· = '\\')
    if confusing s [] then .error .fatal_confusing
    else if joined = [] then .error .index_error
    else .ok [joined]

def conf_lines (file : Text) : Except Raised (List Text) := run conf_step conf_finish none (readlines file)

/-! ## The residue of BBHandler.feeder -/

def check (residue : List Text) (s : Text) : Option Raised :=
  match residue with
  | [] => none
  | [] :: _ => some .index_error
  | (c :: _) :: _ =>
    if s.head? = some '#' ∧ c ≠ '#' then some .fatal_comment
    else if c = '#' ∧ s.head? ≠ some '#' then some .fatal_confusing
    else none

/-- `feeder` for a line outside of functions. -/
def feeder (residue : List Text) (line : Text) : Except Raised (List Text × Option Text) :=
  let s := rstrip line
  match check residue s with
  | some e => .error e
  | none =>
    if s.getLast? = some '\\' then .ok (residue ++ [s.dropLast], none)
    else
      let s := residue.flatten ++ s
      .ok ([], if s = [] ∨ s.head? = some '#' then none else some s)

/-- `get_statements` raises for a residue at the end. -/
def bb_finish (residue : List Text) : Except Raised (List Text) :=
  if residue = [] then .ok [] else .error .parse_error

def bb_lines (file : Text) : Except Raised (List Text) := run feeder bb_finish [] (readlines file)

/-! ## Line joining -/

/-- The logical lines: a line that ends with a backslash is joined with the next one, and empty logical lines are
skipped. -/
def joined : Text → List Text → List Text
  | _, [] => []
  | before, line :: rest =>
    let s := rstrip line
    if s.getLast? = some '\\' then joined (before ++ s.dropLast) rest
    else (if before ++ s = [] then [] else [before ++ s]) ++ joined [] rest

def CommentFree (lines : List Text) : Prop := ∀ line ∈ lines, (rstrip line).head? ≠ some '#'

/-- The last line does not end with a backslash. -/
def Closed (lines : List Text) : Prop := ∀ line, lines.getLast? = some line → (rstrip line).getLast? ≠ some '\\'

/-- Both loops give the logical lines, for files without comments that end outside of a continuation, and no
index is out of range. -/
structure Assembled (file : Text) : Prop where
  alike : CommentFree (readlines file) → Closed (readlines file) →
    conf_lines file = .ok (joined [] (readlines file)) ∧ bb_lines file = .ok (joined [] (readlines file))
  conf_sound : conf_lines file ≠ .error .index_error
  bb_sound : bb_lines file ≠ .error .index_error

/-- A backslash alone on a line, and one more line. -/
def LoneBackslash (rest : List Text) : Prop := ∃ line next after, rest = line :: next :: after ∧ rstrip line = ['\\']

/-- A line of backslashes, and more lines of backslashes or blank lines behind it, that have fewer backslashes than
lines or go to the end. -/
def RunsOut (rest : List Text) : Prop :=
  ∃ line more, line :: more <+: rest ∧ rstrip line ≠ [] ∧ (∀ l ∈ line :: more, ∀ c ∈ rstrip l, c = '\\') ∧
    (((line :: more).flatMap rstrip).length < (line :: more).length ∨ line :: more = rest)

/-- The lines that make both loops right. -/
structure Regular (lines : List Text) : Prop where
  /-- A file that is to be joined has no logical line that ends with a backslash. -/
  ends : CommentFree lines → Closed lines → ∀ s ∈ joined [] lines, s.getLast? ≠ some '\\'
  conf : ¬ Somewhere conf_step none RunsOut none lines
  bb : ¬ Somewhere feeder [] LoneBackslash [] lines

/-! ## Turns of the loops -/

section

variable {σ : Type} {step : σ → Text → Except Raised (σ × Option Text)} {finish : σ → Except Raised (List Text)}
variable {s idle : σ} {line : Text} {rest : List Text} {p : List Text → Prop}

theorem run_cons_error {e : Raised} (h : step s line = .error e) : run step finish s (line :: rest) = .error e := by
  conv_lhs => unfold run
  rw [h]

theorem run_cons_ok {s' : σ} {out : Option Text} (h : step s line = .ok (s', out)) :
    run step finish s (line :: rest) = (run step finish s' rest).map (out.toList ++ ·) := by
  conv_lhs => unfold run
  rw [h]

theorem map_eq_error {α β : Type} {x : Except Raised α} {f : α → β} {e : Raised} :
    x.map f = .error e ↔ x = .error e := by
  cases x <;> simp [Except.map]

theorem somewhere_nil : Somewhere step idle p s [] ↔ s = idle ∧ p [] := by
  constructor
  · rintro ⟨before, rest, hlines, hreads, hp⟩
    obtain ⟨rfl, rfl⟩ := List.append_eq_nil_iff.mp hlines.symm
    exact ⟨Except.ok.inj hreads, hp⟩
  · rintro ⟨rfl, hp⟩
    exact ⟨[], [], rfl, rfl, hp⟩

theorem somewhere_cons_error {e : Raised} (h : step s line = .error e) :
    Somewhere step idle p s (line :: rest) ↔ s = idle ∧ p (line :: rest) := by
  constructor
  · rintro ⟨before, behind, hlines, hreads, hp⟩
    cases before with
    | nil =>
      obtain rfl : line :: rest = behind := hlines
      exact ⟨Except.ok.inj hreads, hp⟩
    | cons l before =>
      obtain ⟨rfl, -⟩ := List.cons.inj hlines
      unfold reads at hreads
      rw [h] at hreads
      cases hreads
  · rintro ⟨rfl, hp⟩
    exact ⟨[], line :: rest, rfl, rfl, hp⟩

theorem somewhere_cons_ok {s' : σ} {out : Option Text} (h : step s line = .ok (s', out)) :
    Somewhere step idle p s (line :: rest) ↔ (s = idle ∧ p (line :: rest)) ∨ Somewhere step idle p s' rest := by
  constructor
  · rintro ⟨before, behind, hlines, hreads, hp⟩
    cases before with
    | nil =>
      obtain rfl : line :: rest = behind := hlines
      exact .inl ⟨Except.ok.inj hreads, hp⟩
    | cons l before =>
      obtain ⟨rfl, rfl⟩ := List.cons.inj hlines
      unfold reads at hreads
      rw [h] at hreads
      exact .inr ⟨before, behind, rfl, hreads, hp⟩
  · rintro (⟨rfl, hp⟩ | ⟨before, behind, rfl, hreads, hp⟩)
    · exact ⟨[], line :: rest, rfl, rfl, hp⟩
    · refine ⟨line :: before, behind, rfl, ?_, hp⟩
      unfold reads
      rw [h]
      exact hreads

end

/-! ## Backslashes -/

/-- A text of backslashes only. -/
def Backslashes (s : Text) : Prop := ∀ c ∈ s, c = '\\'

/-- The same lines, behind so many backslashes that are not taken away yet. -/
def RunsOutFrom (k : ℕ) (lines : List Text) : Prop :=
  ∃ pre, pre <+: lines ∧ (∀ l ∈ pre, Backslashes (rstrip l)) ∧
    ((pre.flatMap rstrip).length + k ≤ pre.length ∨ pre = lines)

theorem backslashes_append {s t : Text} : Backslashes (s ++ t) ↔ Backslashes s ∧ Backslashes t :=
  List.forall_mem_append

theorem Backslashes.getLast? {s : Text} (h : Backslashes s) (hne : s ≠ []) : s.getLast? = some '\\' := by
  rw [List.getLast?_eq_some_getLast hne, h _ (List.getLast_mem hne)]

theorem runsOutFrom_zero (lines : List Text) : RunsOutFrom 0 lines :=
  ⟨[], List.nil_prefix, fun l hl => absurd hl List.not_mem_nil, .inl (by simp)⟩

theorem runsOutFrom_cons {k : ℕ} (hk : 0 < k) (line : Text) (rest : List Text) :
    RunsOutFrom k (line :: rest) ↔ Backslashes (rstrip line) ∧ RunsOutFrom (k - 1 + (rstrip line).length) rest := by
  constructor
  · rintro ⟨pre, hpre, hall, hcount⟩
    cases pre with
    | nil =>
      simp only [List.flatMap_nil, List.length_nil, reduceCtorEq, or_false] at hcount
      omega
    | cons l pre =>
      obtain ⟨rfl, hmore⟩ := List.cons_prefix_cons.mp hpre
      rw [List.forall_mem_cons] at hall
      refine ⟨hall.1, pre, hmore, hall.2, ?_⟩
      rcases hcount with hcount | hcount
      · simp only [List.flatMap_cons, List.length_append, List.length_cons] at hcount
        exact .inl (by omega)
      · exact .inr (List.cons.inj hcount).2
  · rintro ⟨hline, pre, hpre, hall, hcount⟩
    refine ⟨line :: pre, List.cons_prefix_cons.mpr ⟨rfl, hpre⟩, List.forall_mem_cons.mpr ⟨hline, hall⟩, ?_⟩
    rcases hcount with hcount | rfl
    · left
      simp only [List.flatMap_cons, List.length_append, List.length_cons]
      omega
    · exact .inr rfl

theorem runsOut_cons (line : Text) (rest : List Text) :
    RunsOut (line :: rest) ↔
      rstrip line ≠ [] ∧ Backslashes (rstrip line) ∧ RunsOutFrom (rstrip line).length rest := by
  constructor
  · rintro ⟨l, more, hpre, hne, hall, hcount⟩
    obtain ⟨rfl, hmore⟩ := List.cons_prefix_cons.mp hpre
    rw [List.forall_mem_cons] at hall
    refine ⟨hne, hall.1, more, hmore, hall.2, ?_⟩
    rcases hcount with hcount | hcount
    · simp only [List.flatMap_cons, List.length_append, List.length_cons] at hcount
      exact .inl (by omega)
    · exact .inr (List.cons.inj hcount).2
  · rintro ⟨hne, hline, pre, hpre, hall, hcount⟩
    refine ⟨line, pre, List.cons_prefix_cons.mpr ⟨rfl, hpre⟩, hne, List.forall_mem_cons.mpr ⟨hline, hall⟩, ?_⟩
    rcases hcount with hcount | rfl
    · left
      simp only [List.flatMap_cons, List.length_append, List.length_cons]
      omega
    · exact .inr rfl

theorem not_runsOut_nil : ¬ RunsOut [] := by
  rintro ⟨l, more, hpre, -⟩
  simp at hpre

theorem strip_eq_nil_iff (s : Text) : strip s = [] ↔ rstrip s = [] := by
  unfold strip rstrip
  rw [List.reverse_eq_nil_iff, List.rdropWhile_eq_nil_iff, List.dropWhile_eq_nil_iff]
  constructor
  · intro h c hc
    by_contra hspace
    -- The first character that is no white space is left by the first step.
    have hleft : s.dropWhile isspace ≠ [] := by
      rw [ne_eq, List.dropWhile_eq_nil_iff, not_forall]
      exact ⟨c, by simpa using ⟨hc, by simpa using hspace⟩⟩
    have hhead := List.head_dropWhile_not isspace hleft
    have hmem := h _ (List.mem_reverse.mpr (List.head_mem hleft))
    rw [hmem] at hhead
    cases hhead
  · intro h c hc
    exact h c ((List.dropWhile_sublist isspace).subset (List.mem_reverse.mp hc))

/-! ## When ConfHandler fails -/

/-- The statement that is open is of backslashes only, and the lines run out behind it. -/
def Fails : Option Text → List Text → Prop
  | none, _ => False
  | some s, lines => Backslashes s ∧ RunsOutFrom s.length lines

theorem close_cases (s : Text) :
    (s = [] ∧ close s = .error .index_error) ∨
      (s ≠ [] ∧ s.getLast? = some '\\' ∧ close s = .ok (some s, none)) ∨
      (s ≠ [] ∧ s.getLast? ≠ some '\\' ∧ ∃ out, close s = .ok (none, out)) := by
  unfold close
  by_cases hnil : s = []
  · exact .inl ⟨hnil, if_pos hnil⟩
  · by_cases hlast : s.getLast? = some '\\'
    · exact .inr (.inl ⟨hnil, hlast, by rw [if_neg hnil, if_pos hlast]⟩)
    · exact .inr (.inr ⟨hnil, hlast, _, by rw [if_neg hnil, if_neg hlast]⟩)

theorem fails_close {s : Text} (rest : List Text) :
    (close s = .error .index_error ∧ Backslashes s ∧ RunsOutFrom s.length rest) ∨
      ∃ pending out, close s = .ok (pending, out) ∧ (∀ t, pending = some t → t.getLast? = some '\\') ∧
        (Fails pending rest ↔ Backslashes s ∧ RunsOutFrom s.length rest) := by
  rcases close_cases s with ⟨rfl, hclose⟩ | ⟨hne, hlast, hclose⟩ | ⟨hne, hlast, out, hclose⟩
  · exact .inl ⟨hclose, fun c hc => absurd hc List.not_mem_nil, runsOutFrom_zero rest⟩
  · refine .inr ⟨some s, none, hclose, ?_, Iff.rfl⟩
    intro t ht
    obtain rfl := Option.some.inj ht
    exact hlast
  · refine .inr ⟨none, out, hclose, fun t ht => (Option.some_ne_none t ht.symm).elim, ?_⟩
    constructor
    · exact False.elim
    · rintro ⟨hall, -⟩
      exact hlast (hall.getLast? hne)

theorem not_confusing_of_backslashes {s t : Text} (h : Backslashes s) : confusing s t = false := by
  unfold confusing
  cases s with
  | nil => simp
  | cons c s =>
    obtain rfl := h c List.mem_cons_self
    simp

theorem dropLast_concat_backslash {s : Text} (h : s.getLast? = some '\\') : s = s.dropLast ++ ['\\'] :=
  (List.dropLast_append_getLast? '\\' h).symm

theorem fails_cons {s line : Text} {rest : List Text} (hlast : s.getLast? = some '\\') :
    Fails (some s) (line :: rest) ↔
      Backslashes (s.dropLast ++ rstrip line) ∧ RunsOutFrom (s.dropLast ++ rstrip line).length rest := by
  have hs := dropLast_concat_backslash hlast
  have hall : Backslashes s ↔ Backslashes s.dropLast := by
    conv_lhs => rw [hs]
    rw [backslashes_append]
    simp [Backslashes]
  have hlength : s.length = s.dropLast.length + 1 := by
    conv_lhs => rw [hs]
    simp
  change (Backslashes s ∧ RunsOutFrom s.length (line :: rest)) ↔ _
  rw [hall, hlength, runsOutFrom_cons (by omega), backslashes_append, List.length_append, Nat.add_sub_cancel]
  tauto

theorem conf_finish_fails_iff (s : Text) : conf_finish (some s) = .error .index_error ↔ Backslashes s := by
  have hjoined : s.rdropWhile (· = '\\') = [] ↔ Backslashes s := by
    rw [List.rdropWhile_eq_nil_iff]
    simp [Backslashes]
  unfold conf_finish
  by_cases hall : Backslashes s
  · simp [not_confusing_of_backslashes hall, hjoined, hall]
  · simp only [hjoined, hall, if_false, iff_false]
    split <;> simp

theorem conf_fails_iff (lines : List Text) {pending : Option Text}
    (hpending : ∀ s, pending = some s → s.getLast? = some '\\') :
    run conf_step conf_finish pending lines = .error .index_error ↔
      Fails pending lines ∨ Somewhere conf_step none RunsOut pending lines := by
  induction lines generalizing pending with
  | nil =>
    rw [somewhere_nil]
    cases pending with
    | none => simp [run, conf_finish, Fails, not_runsOut_nil]
    | some s =>
      have hlast := hpending s rfl
      have hfails : Fails (some s) [] ↔ Backslashes s := by
        refine ⟨fun h => h.1, fun h => ⟨h, [], List.nil_prefix, ?_, .inr rfl⟩⟩
        exact fun l hl => absurd hl List.not_mem_nil
      rw [hfails]
      rw [show run conf_step conf_finish (some s) [] = conf_finish (some s) from rfl, conf_finish_fails_iff]
      simp
  | cons line rest ih =>
    cases pending with
    | none =>
      by_cases hblank : strip line = []
      · have hstep : conf_step none line = .ok (none, none) := by simp [conf_step, hblank]
        have hnot : ¬ RunsOut (line :: rest) := by
          rw [runsOut_cons]
          exact fun h => h.1 ((strip_eq_nil_iff line).mp hblank)
        rw [run_cons_ok hstep, map_eq_error, ih (by simp), somewhere_cons_ok hstep]
        simp [Fails, hnot]
      · have hstep : conf_step none line = close (rstrip line) := by simp [conf_step, hblank]
        have hne : rstrip line ≠ [] := fun h => hblank ((strip_eq_nil_iff line).mpr h)
        have hruns := runsOut_cons line rest
        rcases @fails_close (rstrip line) rest with ⟨herror, -⟩ | ⟨pending, out, hok, hlast, hfails⟩
        · rcases close_cases (rstrip line) with ⟨hnil, -⟩ | ⟨-, -, hclose⟩ | ⟨-, -, out, hclose⟩
          · exact absurd hnil hne
          · rw [herror] at hclose
            cases hclose
          · rw [herror] at hclose
            cases hclose
        · rw [← hstep] at hok
          rw [run_cons_ok hok, map_eq_error, ih hlast, somewhere_cons_ok hok, hruns, hfails]
          simp [Fails, hne]
    | some s =>
      have hs := hpending s rfl
      rw [fails_cons hs]
      by_cases hconfusing : confusing s (rstrip line)
      · have hstep : conf_step (some s) line = .error .fatal_confusing := by simp [conf_step, hconfusing]
        rw [run_cons_error hstep, somewhere_cons_error hstep]
        have hnot : ¬ Backslashes (s.dropLast ++ rstrip line) := by
          intro hall
          have hbackslashes : Backslashes s := by
            rw [dropLast_concat_backslash hs, backslashes_append]
            exact ⟨(backslashes_append.mp hall).1, by simp [Backslashes]⟩
          rw [not_confusing_of_backslashes hbackslashes] at hconfusing
          cases hconfusing
        simp [hnot]
      · have hstep : conf_step (some s) line = close (s.dropLast ++ rstrip line) := by
          simp [conf_step, hconfusing]
        rcases @fails_close (s.dropLast ++ rstrip line) rest with ⟨herror, hout⟩ | ⟨pending, out, hok, hlast, hfails⟩
        · rw [← hstep] at herror
          rw [run_cons_error herror]
          exact iff_of_true rfl (.inl hout)
        · rw [← hstep] at hok
          rw [run_cons_ok hok, map_eq_error, ih hlast, somewhere_cons_ok hok, hfails]
          simp

/-! ## When BBHandler fails -/

theorem bb_fails_iff (lines : List Text) (residue : List Text) :
    run feeder bb_finish residue lines = .error .index_error ↔
      (residue.head? = some [] ∧ lines ≠ []) ∨ Somewhere feeder [] LoneBackslash residue lines := by
  induction lines generalizing residue with
  | nil =>
    rw [somewhere_nil]
    have hnot : ¬ LoneBackslash [] := by
      rintro ⟨line, next, after, hnil, -⟩
      cases hnil
    unfold run bb_finish
    split <;> simp [hnot]
  | cons line rest ih =>
    have hlone : LoneBackslash (line :: rest) ↔ rstrip line = ['\\'] ∧ rest ≠ [] := by
      constructor
      · rintro ⟨l, next, after, hlines, hl⟩
        obtain ⟨rfl, rfl⟩ := List.cons.inj hlines
        exact ⟨hl, List.cons_ne_nil _ _⟩
      · rintro ⟨hl, hne⟩
        obtain ⟨next, after, rfl⟩ := List.exists_cons_of_ne_nil hne
        exact ⟨line, next, after, rfl, hl⟩
    cases hcheck : check residue (rstrip line) with
    | some e =>
      have hstep : feeder residue line = .error e := by simp [feeder, hcheck]
      rw [run_cons_error hstep, somewhere_cons_error hstep]
      cases residue with
      | nil => simp [check] at hcheck
      | cons first residue =>
        cases first with
        | nil =>
          simp only [check, Option.some.injEq] at hcheck
          simp [← hcheck]
        | cons c first =>
          have hne : e ≠ .index_error := by
            rintro rfl
            simp only [check] at hcheck
            split_ifs at hcheck <;> cases hcheck
          simp [hne]
    | none =>
      have hhead : residue.head? ≠ some [] := by
        intro hhead
        cases residue with
        | nil => cases hhead
        | cons first residue =>
          obtain rfl := Option.some.inj hhead
          cases hcheck
      by_cases hlast : (rstrip line).getLast? = some '\\'
      · have hstep : feeder residue line = .ok (residue ++ [(rstrip line).dropLast], none) := by
          simp [feeder, hcheck, hlast]
        rw [run_cons_ok hstep, map_eq_error, ih, somewhere_cons_ok hstep, hlone]
        have hfirst : (residue ++ [(rstrip line).dropLast]).head? = some [] ↔
            residue = [] ∧ rstrip line = ['\\'] := by
          cases residue with
          | nil =>
            have hline := dropLast_concat_backslash hlast
            constructor
            · intro h
              have hnil : (rstrip line).dropLast = [] := by simpa using h
              rw [hnil] at hline
              exact ⟨rfl, hline⟩
            · rintro ⟨-, h⟩
              simp [h]
          | cons first residue => simpa using hhead
        rw [hfirst]
        simp only [hhead, false_and, false_or]
        tauto
      · have hstep : ∃ out, feeder residue line = .ok ([], out) := by
          simp [feeder, hcheck, hlast]
        obtain ⟨out, hstep⟩ := hstep
        have hnot : rstrip line ≠ ['\\'] := by
          rintro h
          rw [h] at hlast
          exact hlast rfl
        rw [run_cons_ok hstep, map_eq_error, ih, somewhere_cons_ok hstep, hlone]
        simp [hhead, hnot]

/-! ## What the loops give -/

theorem CommentFree.tail {line : Text} {rest : List Text} (h : CommentFree (line :: rest)) : CommentFree rest :=
  fun l hl => h l (List.mem_cons_of_mem _ hl)

theorem Closed.tail {line : Text} {rest : List Text} (h : Closed (line :: rest)) : Closed rest := by
  intro l hl
  cases rest with
  | nil => cases hl
  | cons next rest => exact h l (by rwa [List.getLast?_cons_cons])

theorem Closed.ne_nil {line : Text} {rest : List Text} (h : Closed (line :: rest))
    (hlast : (rstrip line).getLast? = some '\\') : rest ≠ [] := by
  rintro rfl
  exact h line rfl hlast

theorem joined_cons_open {before line : Text} {rest : List Text} (h : (rstrip line).getLast? = some '\\') :
    joined before (line :: rest) = joined (before ++ (rstrip line).dropLast) rest := by
  conv_lhs => unfold joined
  exact if_pos h

theorem joined_cons_closed {before line : Text} {rest : List Text} (h : (rstrip line).getLast? ≠ some '\\') :
    joined before (line :: rest) =
      (if before ++ rstrip line = [] then [] else [before ++ rstrip line]) ++ joined [] rest := by
  conv_lhs => unfold joined
  exact if_neg h

theorem head?_append_ne {c : Char} {s t : Text} (hs : s.head? ≠ some c) (ht : t.head? ≠ some c) :
    (s ++ t).head? ≠ some c := by
  cases s with
  | nil => exact ht
  | cons d s => exact hs

theorem head?_dropLast_ne {c : Char} {s : Text} (hs : s.head? ≠ some c) : s.dropLast.head? ≠ some c := by
  cases s with
  | nil => simp
  | cons d s =>
    cases s with
    | nil => simp
    | cons e s => simpa using hs

theorem bb_joined (lines : List Text) {residue : List Text} (hcomment : CommentFree lines) (hclosed : Closed lines)
    (hopen : residue = [] ∨ lines ≠ []) (hhead : ∀ first ∈ residue, first.head? ≠ some '#') :
    run feeder bb_finish residue lines = .error .index_error ∨
      run feeder bb_finish residue lines = .ok (joined residue.flatten lines) := by
  induction lines generalizing residue with
  | nil =>
    obtain rfl : residue = [] := by simpa using hopen
    exact .inr rfl
  | cons line rest ih =>
    have hline := hcomment line List.mem_cons_self
    have hflatten : residue.flatten.head? ≠ some '#' := by
      clear ih hopen
      induction residue with
      | nil => simp
      | cons first residue ih =>
        rw [List.flatten_cons]
        exact head?_append_ne (hhead first List.mem_cons_self) (ih fun f hf => hhead f (List.mem_cons_of_mem _ hf))
    have hcheck : check residue (rstrip line) = some .index_error ∨ check residue (rstrip line) = none := by
      cases residue with
      | nil => exact .inr rfl
      | cons first residue =>
        cases first with
        | nil => exact .inl rfl
        | cons c first =>
          right
          have hc : c ≠ '#' := fun h => hhead (c :: first) List.mem_cons_self (by rw [h]; rfl)
          simp [check, hline, hc]
    rcases hcheck with hcheck | hcheck
    · exact .inl (run_cons_error (by simp [feeder, hcheck]))
    · by_cases hlast : (rstrip line).getLast? = some '\\'
      · have hstep : feeder residue line = .ok (residue ++ [(rstrip line).dropLast], none) := by
          simp [feeder, hcheck, hlast]
        have hnext : ∀ first ∈ residue ++ [(rstrip line).dropLast], first.head? ≠ some '#' := by
          intro first hfirst
          rcases List.mem_append.mp hfirst with hfirst | hfirst
          · exact hhead first hfirst
          · rw [List.mem_singleton.mp hfirst]
            exact head?_dropLast_ne hline
        have h := ih hcomment.tail hclosed.tail (.inr (hclosed.ne_nil hlast)) hnext
        rw [run_cons_ok hstep, joined_cons_open hlast]
        rcases h with h | h
        · exact .inl (map_eq_error.mpr h)
        · right
          rw [h]
          simp [Except.map]
      · have hjoined := head?_append_ne hflatten hline
        have hstep : feeder residue line = .ok ([], if residue.flatten ++ rstrip line = [] then none
            else some (residue.flatten ++ rstrip line)) := by
          simp only [feeder, hcheck, hlast, if_false, hjoined, or_false]
        have h := @ih [] hcomment.tail hclosed.tail (.inl rfl) fun f hf => absurd hf List.not_mem_nil
        rw [run_cons_ok hstep, joined_cons_closed hlast]
        rcases h with h | h
        · exact .inl (map_eq_error.mpr h)
        · right
          rw [h]
          by_cases hnil : residue.flatten ++ rstrip line = []
          · rw [if_pos hnil, if_pos hnil]
            rfl
          · rw [if_neg hnil, if_neg hnil]
            rfl

/-- What is open: nothing, or the text before with its backslash. -/
def Pends (before : Text) (pending : Option Text) : Prop :=
  (before = [] ∧ pending = none) ∨ pending = some (before ++ ['\\'])

theorem conf_joined (lines : List Text) {before : Text} {pending : Option Text} (hpends : Pends before pending)
    (hcomment : CommentFree lines) (hclosed : Closed lines) (hopen : pending = none ∨ lines ≠ [])
    (hhead : before.head? ≠ some '#') (hends : ∀ s ∈ joined before lines, s.getLast? ≠ some '\\') :
    run conf_step conf_finish pending lines = .error .index_error ∨
      run conf_step conf_finish pending lines = .ok (joined before lines) := by
  induction lines generalizing before pending with
  | nil =>
    obtain rfl : pending = none := by simpa using hopen
    exact .inr rfl
  | cons line rest ih =>
    have hline := hcomment line List.mem_cons_self
    have hturn : conf_step pending line = close (before ++ rstrip line) ∨
        (rstrip line = [] ∧ before = [] ∧ conf_step pending line = .ok (none, none)) := by
      rcases hpends with ⟨rfl, rfl⟩ | rfl
      · by_cases hblank : strip line = []
        · exact .inr ⟨(strip_eq_nil_iff line).mp hblank, rfl, by simp [conf_step, hblank]⟩
        · exact .inl (by simp [conf_step, hblank])
      · left
        have hhash : (before ++ ['\\']).head? ≠ some '#' := head?_append_ne hhead (by decide)
        have hconfusing : confusing (before ++ ['\\']) (rstrip line) = false := by
          unfold confusing
          simp only [hhash, decide_false, Bool.false_and]
        simp [conf_step, hconfusing]
    rcases hturn with hturn | ⟨hblank, rfl, hstep⟩
    · by_cases hlast : (rstrip line).getLast? = some '\\'
      · -- The line goes on, and its backslash is the one that is pending.
        have hsplit : before ++ rstrip line = (before ++ (rstrip line).dropLast) ++ ['\\'] := by
          rw [List.append_assoc, ← dropLast_concat_backslash hlast]
        rw [joined_cons_open hlast] at hends ⊢
        have hstep : conf_step pending line = .ok (some ((before ++ (rstrip line).dropLast) ++ ['\\']), none) := by
          rw [hturn, hsplit]
          simp [close]
        have h := ih (.inr rfl) hcomment.tail hclosed.tail (.inr (hclosed.ne_nil hlast))
          (head?_append_ne hhead (head?_dropLast_ne hline)) hends
        rw [run_cons_ok hstep]
        rcases h with h | h
        · exact .inl (map_eq_error.mpr h)
        · right
          rw [h]
          rfl
      · rw [joined_cons_closed hlast] at hends ⊢
        by_cases hnil : before ++ rstrip line = []
        · exact .inl (run_cons_error (by rw [hturn, hnil]; rfl))
        · rw [if_neg hnil] at hends ⊢
          have hend : (before ++ rstrip line).getLast? ≠ some '\\' := hends _ (by simp)
          have hstep : conf_step pending line = .ok (none, some (before ++ rstrip line)) := by
            rw [hturn]
            unfold close
            rw [if_neg hnil, if_neg hend, if_neg (head?_append_ne hhead hline)]
          have h := ih (.inl ⟨rfl, rfl⟩) hcomment.tail hclosed.tail (.inl rfl) (by simp)
            fun s hs => hends s (List.mem_append_right _ hs)
          rw [run_cons_ok hstep]
          rcases h with h | h
          · exact .inl (map_eq_error.mpr h)
          · right
            rw [h]
            rfl
    · have hlast : (rstrip line).getLast? ≠ some '\\' := by simp [hblank]
      rw [joined_cons_closed hlast, hblank] at hends ⊢
      rw [run_cons_ok hstep]
      have h := ih (.inl ⟨rfl, rfl⟩) hcomment.tail hclosed.tail (.inl rfl) (by simp) hends
      rcases h with h | h
      · exact .inl (map_eq_error.mpr h)
      · right
        rw [h]
        rfl

theorem conf_ends (lines : List Text) {pending : Option Text} {out : List Text}
    (h : run conf_step conf_finish pending lines = .ok out) : ∀ s ∈ out, s.getLast? ≠ some '\\' := by
  induction lines generalizing pending out with
  | nil =>
    cases pending with
    | none =>
      obtain rfl := Except.ok.inj h
      exact fun s hs => absurd hs List.not_mem_nil
    | some s =>
      have hfinish : conf_finish (some s) = .ok out := h
      unfold conf_finish at hfinish
      dsimp only at hfinish
      split_ifs at hfinish with hconfusing hjoined
      obtain rfl := Except.ok.inj hfinish
      intro x hx
      obtain rfl := List.mem_singleton.mp hx
      rw [List.getLast?_eq_some_getLast hjoined]
      intro hlast
      have hnot := List.rdropWhile_last_not (fun c => decide (c = '\\')) s hjoined
      simp [Option.some.inj hlast] at hnot
  | cons line rest ih =>
    cases hstep : conf_step pending line with
    | error e =>
      rw [run_cons_error hstep] at h
      cases h
    | ok x =>
      obtain ⟨pending', found⟩ := x
      have hfound : ∀ s, found = some s → s.getLast? ≠ some '\\' := by
        intro s hs
        have hclose : ∀ t, close t = .ok (pending', found) → s.getLast? ≠ some '\\' := by
          intro t ht
          unfold close at ht
          split_ifs at ht with hnil hlast hhash
          · cases ht
            cases hs
          · cases ht
            cases hs
          · cases ht
            cases hs
            exact hlast
        unfold conf_step at hstep
        cases pending with
        | none =>
          dsimp only at hstep
          split_ifs at hstep with hblank
          · cases hstep
            cases hs
          · exact hclose _ hstep
        | some t =>
          dsimp only at hstep
          split_ifs at hstep
          exact hclose _ hstep
      rw [run_cons_ok hstep] at h
      cases hrest : run conf_step conf_finish pending' rest with
      | error e =>
        rw [hrest] at h
        cases h
      | ok more =>
        rw [hrest] at h
        obtain rfl := Except.ok.inj h
        intro s hs
        rcases List.mem_append.mp hs with hs | hs
        · exact hfound s (by simpa using hs)
        · exact ih hrest s hs

/-- Both loops join the lines as they are to, for the files with regular lines. -/
theorem lines_are_assembled_iff (file : Text) : Assembled file ↔ Regular (readlines file) := by
  have hconf := @conf_fails_iff (readlines file) none (by simp)
  have hbb := bb_fails_iff (readlines file) []
  simp only [Fails, false_or] at hconf
  simp only [List.head?_nil, reduceCtorEq, false_and, false_or] at hbb
  constructor
  · intro h
    refine ⟨fun hcomment hclosed => ?_, fun hfails => h.conf_sound (hconf.mpr hfails),
      fun hfails => h.bb_sound (hbb.mpr hfails)⟩
    exact conf_ends (readlines file) (h.alike hcomment hclosed).1
  · intro h
    have hconf_sound : conf_lines file ≠ .error .index_error := fun hfails => h.conf (hconf.mp hfails)
    have hbb_sound : bb_lines file ≠ .error .index_error := fun hfails => h.bb (hbb.mp hfails)
    refine ⟨fun hcomment hclosed => ⟨?_, ?_⟩, hconf_sound, hbb_sound⟩
    · exact (conf_joined (readlines file) (.inl ⟨rfl, rfl⟩) hcomment hclosed (.inl rfl) (by simp)
        (h.ends hcomment hclosed)).resolve_left hconf_sound
    · exact (@bb_joined (readlines file) [] hcomment hclosed (.inl rfl)
        fun f hf => absurd hf List.not_mem_nil).resolve_left hbb_sound

/-- A backslash alone on a line in front of an assignment. -/
def lone_lines : List Text := [['\\', '\n'], text "A = 1\n"]

/-- The residue starts with an empty text when the next line comes. -/
theorem a_lone_backslash_is_an_index_error : ¬ ∀ file : Text, Assembled file := by
  intro h
  have hlines : ∀ l ∈ lone_lines, Line l := by
    intro l hl
    rcases List.mem_cons.mp hl with rfl | hl
    · exact ⟨['\\'], rfl, by decide, by decide⟩
    · obtain rfl := List.mem_singleton.mp hl
      exact ⟨text "A = 1", rfl, by decide, by decide⟩
  have hread := readlines_flatten hlines
  apply (h lone_lines.flatten).bb_sound
  unfold bb_lines
  rw [hread, bb_fails_iff]
  refine .inr ⟨[], lone_lines, rfl, rfl, _, _, _, rfl, ?_⟩
  exact @rstrip_line [] ['\n'] '\\' (by decide) (by simp [isspace])

end yocto.line_joiners
