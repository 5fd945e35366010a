-- What edit_metadata makes of a bblayers.conf when its callback keeps values, drops them
-- or writes lists of layers: another bblayers.conf, assignment by assignment.
import Yocto.BblayersConf

open yocto.task_ids yocto.data_smart yocto.text_lines yocto.metadata_editing yocto.assigned_lists
open yocto.conf_statements yocto.bblayers_grammar yocto.bblayers_conf

namespace yocto.bblayers_scan

/-! ## The scan of an assignment -/

/-- What is held back of an assignment at its end. -/
def held (a : Assignment) : Scan := ⟨a.head, a.lines, text "BBLAYERS", a.value, a.quote⟩

theorem variable_not_func : is_func (text "BBLAYERS") = false := by decide

section
variable {a : Assignment}

theorem quote_of_start (hblanks : a.Blanks) (s : Text) :
    quote_of (a.before ++ (sign a.op ++ (a.after ++ a.quote :: s))) = some a.quote := by
  have hbefore : ∀ c ∈ a.before, is_blank c = true := fun c hc => by
    rw [hblanks c (List.mem_append_left _ hc)]
    rfl
  have hafter : ∀ c ∈ a.after, is_blank c = true := fun c hc => by
    rw [hblanks c (List.mem_append_right _ hc)]
    rfl
  have hquote : is_blank a.quote = false := by
    rcases a.is_quote with h | h <;> rw [h] <;> rfl
  have hdots : (a.after ++ a.quote :: s).dropWhile (fun c => decide (c ∈ ['+', '.'])) = a.after ++ a.quote :: s := by
    cases hlist : a.after with
    | nil => rcases a.is_quote with h | h <;> simp [h]
    | cons c after =>
      have hc : c = ' ' := hblanks c (by simp [hlist])
      simp [hc]
  have hend : (a.after ++ a.quote :: s).dropWhile is_blank = a.quote :: s := by
    rw [List.dropWhile_append_of_pos hafter, List.dropWhile_cons_of_neg (by simp [hquote])]
  unfold quote_of
  rw [List.dropWhile_append_of_pos hbefore]
  cases a.op with
  | assign =>
    have hsign : ((sign .assign ++ (a.after ++ a.quote :: s)).dropWhile is_blank).dropWhile
        (fun c => decide (c ∈ ['?', '+', ':', '.'])) = '=' :: (a.after ++ a.quote :: s) := rfl
    rw [hsign]
    simp only [hdots, hend]
    simp [a.is_quote]
  | append =>
    have hsign : ((sign .append ++ (a.after ++ a.quote :: s)).dropWhile is_blank).dropWhile
        (fun c => decide (c ∈ ['?', '+', ':', '.'])) = '=' :: (a.after ++ a.quote :: s) := rfl
    rw [hsign]
    simp only [hdots, hend]
    simp [a.is_quote]

theorem match_start (hblanks : a.Blanks) (s : Text) :
    match_line [bblayers_pattern] (a.start ++ s) = some (bblayers_pattern, text "BBLAYERS", a.quote) := by
  have hform : a.start ++ s = text "BBLAYERS" ++ (a.before ++ (sign a.op ++ (a.after ++ a.quote :: s))) := by
    simp [Assignment.start, Assignment.head]
  have hfind : bblayers_pattern.find (a.start ++ s) = some (text "BBLAYERS", a.quote) := by
    unfold bblayers_pattern variable_pattern
    dsimp only
    rw [hform, if_pos (List.prefix_append _ _), List.drop_left, quote_of_start hblanks]
    rfl
  simp [match_line, hfind]

theorem head_chars (hblanks : a.Blanks) : ∀ c ∈ a.head ++ a.after, c ∈ text "BLAYERS =+" := by
  have hname : ∀ c ∈ text "BBLAYERS", c ∈ text "BLAYERS =+" := by simp [text]
  have hsign : ∀ c ∈ sign a.op, c ∈ text "BLAYERS =+" := by cases a.op <;> simp [sign, text]
  intro c hc
  simp only [Assignment.head, List.mem_append] at hc
  rcases hc with ((hc | hc) | hc) | hc
  · exact hname c hc
  · rw [hblanks c (List.mem_append_left _ hc)]
    decide
  · exact hsign c hc
  · rw [hblanks c (List.mem_append_right _ hc)]
    decide

theorem quote_not_mem_head (hblanks : a.Blanks) : ∀ c ∈ a.head ++ a.after, decide (c ≠ a.quote) = true := by
  intro c hc
  rw [decide_eq_true_iff]
  rintro rfl
  have hmem := head_chars hblanks _ hc
  rcases a.is_quote with h | h <;> rw [h] at hmem <;> exact absurd hmem (by decide)

theorem takeWhile_start (hblanks : a.Blanks) (s : Text) :
    (a.start ++ s).takeWhile (· ≠ a.quote) = a.head ++ a.after := by
  rw [Assignment.start, List.append_assoc, List.takeWhile_append_of_pos (quote_not_mem_head hblanks)]
  simp

theorem dropWhile_start (hblanks : a.Blanks) (s : Text) :
    ((a.start ++ s).dropWhile (· ≠ a.quote)).drop 1 = s := by
  rw [Assignment.start, List.append_assoc, List.dropWhile_append_of_pos (quote_not_mem_head hblanks)]
  simp

variable (a) in
theorem head_concat : ∃ s, a.head = s ++ ['='] := by
  unfold Assignment.head
  cases a.op with
  | assign => exact ⟨text "BBLAYERS" ++ a.before, rfl⟩
  | append => exact ⟨text "BBLAYERS" ++ a.before ++ ['+'], by simp [sign, text]⟩

variable (a) in
theorem rstrip_head : rstrip (a.head ++ a.after) = a.head := by
  obtain ⟨s, hs⟩ := head_concat a
  rw [rstrip_append_space a.after_space, hs, rstrip_concat (by decide)]

theorem getLast?_part {p : Text × Text} (hp : p ∈ a.parts ++ [a.last]) : p.1.getLast? ≠ some a.quote :=
  fun h => a.quote_not_mem hp (List.mem_of_getLast? h)

theorem rstrip_broken {p : Text × Text} (hp : p ∈ a.parts ++ [a.last]) : rstrip (broken p) = p.1 ++ ['\\'] :=
  rstrip_line (by decide) (a.ends_space p hp)

variable (a) in
theorem rstrip_closed : rstrip (closed a.quote a.last) = a.last.1 ++ [a.quote] :=
  rstrip_line a.quote_not_space (a.ends_space _ a.last_mem)

theorem begin_broken (hblanks : a.Blanks) {p : Text × Text} (hp : p ∈ a.parts ++ [a.last]) :
    begin_entry bblayers_pattern (text "BBLAYERS") a.quote (a.start ++ broken p) =
      (⟨a.head, [a.start ++ broken p], text "BBLAYERS", p.1, a.quote⟩, false) := by
  have hfunc : is_func bblayers_pattern.varname = false := variable_not_func
  unfold begin_entry
  rw [takeWhile_start hblanks, dropWhile_start hblanks, rstrip_head, rstrip_broken hp, hfunc]
  simp [getLast?_part hp]

theorem begin_closed (hblanks : a.Blanks) :
    begin_entry bblayers_pattern (text "BBLAYERS") a.quote (a.start ++ closed a.quote a.last) =
      (⟨a.head, [a.start ++ closed a.quote a.last], text "BBLAYERS", a.last.1, a.quote⟩, true) := by
  have hfunc : is_func bblayers_pattern.varname = false := variable_not_func
  unfold begin_entry
  rw [takeWhile_start hblanks, dropWhile_start hblanks, rstrip_head, rstrip_closed, hfunc]
  simp [a.quote_ne_backslash]

theorem hold_broken {s : Scan} (hs : s.in_var = text "BBLAYERS") (hend : s.var_end = a.quote) {p : Text × Text}
    (hp : p ∈ a.parts ++ [a.last]) : hold_line s (broken p) =
      ({ s with varlines := s.varlines ++ [broken p], full_value := s.full_value ++ p.1 }, false) := by
  unfold hold_line
  rw [rstrip_broken hp, hs, variable_not_func, hend]
  simp [Ne.symm a.quote_ne_backslash]

theorem hold_closed {s : Scan} (hs : s.in_var = text "BBLAYERS") (hend : s.var_end = a.quote) :
    hold_line s (closed a.quote a.last) =
      ({ s with varlines := s.varlines ++ [closed a.quote a.last], full_value := s.full_value ++ a.last.1 }, true) := by
  unfold hold_line
  rw [rstrip_closed, hs, variable_not_func, hend]
  simp

variable {σ : Type} (varfunc : Callback σ)

theorem scan_parts {parts : List (Text × Text)} (hparts : ∀ p ∈ parts, p ∈ a.parts ++ [a.last]) {e : Edit σ}
    (hs : e.scan.in_var = text "BBLAYERS") (hend : e.scan.var_end = a.quote) :
    (parts.map broken ++ [closed a.quote a.last]).foldl (turn [bblayers_pattern] varfunc) e =
      handle_var_end varfunc e { e.scan with
        varlines := e.scan.varlines ++ (parts.map broken ++ [closed a.quote a.last])
        full_value := e.scan.full_value ++ ((parts.map Prod.fst).flatten ++ a.last.1) } := by
  have hin : e.scan.in_var ≠ [] := by
    rw [hs]
    decide
  induction parts generalizing e with
  | nil =>
    rw [List.map_nil, List.nil_append, List.foldl_cons, List.foldl_nil, turn, if_pos hin, hold_closed hs hend]
    rfl
  | cons p parts ih =>
    rw [List.forall_mem_cons] at hparts
    rw [List.map_cons, List.cons_append, List.foldl_cons, turn, if_pos hin, hold_broken hs hend hparts.1]
    dsimp only
    rw [if_neg (by simp), ih hparts.2 (e := { e with scan := { e.scan with
      varlines := e.scan.varlines ++ [broken p]
      full_value := e.scan.full_value ++ p.1 } }) hs hend hin]
    simp only [List.append_assoc, List.singleton_append, List.map_cons, List.flatten_cons]
    rfl

theorem scan_assignment (hblanks : a.Blanks) {e : Edit σ} (hout : e.scan.in_var = []) :
    a.lines.foldl (turn [bblayers_pattern] varfunc) e = handle_var_end varfunc e (held a) := by
  unfold held Assignment.lines Assignment.value
  split
  · rename_i hparts
    rw [List.foldl_cons, List.foldl_nil, turn, if_neg (by simp [hout]), match_start hblanks]
    dsimp only
    rw [begin_closed hblanks, hparts]
    rfl
  · rename_i p parts hparts
    have hmem : p ∈ a.parts ++ [a.last] := by simp [hparts]
    rw [List.foldl_cons, turn, if_neg (by simp [hout]), match_start hblanks]
    dsimp only
    rw [begin_broken hblanks hmem]
    dsimp only
    rw [if_neg (by simp), scan_parts varfunc (a := a) (fun q hq => by simp [hparts, hq]) rfl rfl, hparts]
    simp only [List.map_cons, List.flatten_cons, List.append_assoc]
    rfl

end

/-! ## What is written for an assignment -/

theorem strip_sign {before : Text} (h : ∀ c ∈ before, isspace c = true) (op : Op) :
    strip (before ++ sign op) = sign op := by
  unfold strip
  rw [List.dropWhile_append_of_pos h]
  cases op <;> decide

theorem line_of_parts {a : Assignment} (hblanks : a.Blanks)
    (h : ∀ p ∈ a.parts ++ [a.last], p.2 = ['\n'] ∧ '\n' ∉ p.1 ∧ '\r' ∉ p.1) : ∀ l ∈ a.lines, Line l := by
  have hquote : a.quote ≠ '\n' ∧ a.quote ≠ '\r' := by
    rcases a.is_quote with hq | hq <;> rw [hq] <;> decide
  have hhead {c : Char} (hc : c ∉ text "BLAYERS =+") : c ∉ a.head ++ a.after :=
    fun hmem => hc (head_chars hblanks c hmem)
  have hnot {c : Char} (hc : c ∉ text "BLAYERS =+") (hne : a.quote ≠ c) : c ∉ a.start := by
    rw [Assignment.start, List.mem_append, not_or, List.mem_singleton]
    exact ⟨hhead hc, hne.symm⟩
  have hstart : '\n' ∉ a.start ∧ '\r' ∉ a.start := ⟨hnot (by decide) hquote.1, hnot (by decide) hquote.2⟩
  have hend {c : Char} (hc : c ≠ '\n' ∧ c ≠ '\r') {s : Text} (hs : '\n' ∉ s ∧ '\r' ∉ s) {p : Text × Text}
      (hp : p ∈ a.parts ++ [a.last]) : Line (s ++ (p.1 ++ c :: p.2)) := by
    obtain ⟨hnewline, hno⟩ := h p hp
    refine ⟨s ++ p.1 ++ [c], by simp [hnewline], ?_, ?_⟩
    · simp [hs.1, hno.1, hc.1.symm]
    · simp [hs.2, hno.2, hc.2.symm]
  have hnil : '\n' ∉ ([] : Text) ∧ '\r' ∉ ([] : Text) := by simp
  unfold Assignment.lines
  split
  · intro l hl
    rw [List.mem_singleton.mp hl]
    exact hend hquote hstart a.last_mem
  · rename_i p parts hparts
    rw [List.forall_mem_cons, List.forall_mem_append, List.forall_mem_singleton]
    refine ⟨hend (by decide) hstart (by simp [hparts]), ?_, hend hquote hnil a.last_mem⟩
    intro l hl
    obtain ⟨q, hq, rfl⟩ := List.mem_map.mp hl
    exact hend (by decide) hnil (by simp [hparts, hq])

def item_part (item : Text) : Text × Text := (text "  " ++ item ++ [' '], ['\n'])

theorem words_items {items : List Text} (h : ∀ i ∈ items, Word i) :
    words ((items.map fun i => (item_part i).1).flatten ++ text "  ") = items := by
  have hspace (s : Text) : words (' ' :: s) = words s := by
    have hsplit := words_append_space (c := ' ') (by decide) [] s
    rwa [words_nil] at hsplit
  induction items with
  | nil => exact (hspace [' ']).trans ((hspace []).trans words_nil)
  | cons i items ih =>
    rw [List.forall_mem_cons] at h
    have hform : ((i :: items).map fun i => (item_part i).1).flatten ++ text "  " =
        ' ' :: ' ' :: (i ++ ' ' :: ((items.map fun i => (item_part i).1).flatten ++ text "  ")) := by
      simp [item_part, text]
    rw [hform, hspace, hspace, words_cons h.1 (by decide), ih h.2]

theorem item_part_spec {i : Text} (h : LayerPath i) : ('"' ∉ (item_part i).1 ∧ '\'' ∉ (item_part i).1) ∧
    (∀ c ∈ (item_part i).2, isspace c = true) ∧
    (item_part i).2 = ['\n'] ∧ '\n' ∉ (item_part i).1 ∧ '\r' ∉ (item_part i).1 := by
  have hnewline := h.word.not_mem (c := '\n') (by decide)
  have hreturn := h.word.not_mem (c := '\r') (by decide)
  have hspace : isspace '\n' = true := by decide
  refine ⟨?_, by simp [item_part, hspace], rfl, ?_⟩ <;> simp [item_part, text, h.no_quotes, hnewline, hreturn]

theorem space_is_space : ∀ c ∈ [' '], isspace c = true := by simp [isspace]

theorem double_is_quote : '"' = '"' ∨ '"' = '\'' := Or.inl rfl

def empty_assignment (a : Assignment) : Assignment where
  before := a.before
  op := a.op
  after := [' ']
  quote := '"'
  parts := []
  last := ([], ['\n'])
  before_space := a.before_space
  after_space := space_is_space
  is_quote := double_is_quote
  no_quotes := by simp
  ends_space := by simp [isspace]

def layers_assignment (a : Assignment) (items : List Text) (h : ∀ i ∈ items, LayerPath i) : Assignment where
  before := a.before
  op := a.op
  after := [' ']
  quote := '"'
  parts := ([' '], ['\n']) :: items.map item_part
  last := (text "  ", ['\n'])
  before_space := a.before_space
  after_space := space_is_space
  is_quote := double_is_quote
  no_quotes := by
    simp only [List.cons_append, List.forall_mem_cons, List.forall_mem_append, List.forall_mem_map]
    exact ⟨by decide, fun i hi => (item_part_spec (h i hi)).1, by decide⟩
  ends_space := by
    simp only [List.cons_append, List.forall_mem_cons, List.forall_mem_append, List.forall_mem_map]
    exact ⟨by simp [isspace], fun i hi => (item_part_spec (h i hi)).2.1, by simp [isspace]⟩

theorem written_layers {a : Assignment} (hblanks : a.Blanks) {items : List Text} (h : ∀ i ∈ items, LayerPath i) :
    ∃ a' : Assignment, a'.lines = variable_lines a.head (text "  ") false (.list items) ∧ a'.Blanks ∧
      a'.entry = (a.op, items) ∧ ∀ l ∈ a'.lines, Line l := by
  have hbefore : ∀ c ∈ a.before ++ [' '], c = ' ' := by
    rw [List.forall_mem_append, List.forall_mem_singleton]
    exact ⟨fun c hc => hblanks c (List.mem_append_left _ hc), rfl⟩
  cases hitems : items with
  | nil =>
    refine ⟨empty_assignment a, ?_, hbefore, ?_, line_of_parts hbefore (by simp [empty_assignment])⟩
    · simp [Assignment.lines, Assignment.start, Assignment.head, empty_assignment, closed, variable_lines, text]
    · simp [Assignment.entry, Assignment.layers, Assignment.value, empty_assignment, words_nil]
  | cons i is =>
    rw [← hitems]
    refine ⟨layers_assignment a items h, ?_, hbefore, ?_, line_of_parts hbefore ?_⟩
    · simp [Assignment.lines, Assignment.start, Assignment.head, layers_assignment, broken, closed, variable_lines,
        text, hitems, item_part, Function.comp_def]
    · have hwords := words_items fun i hi => (h i hi).word
      have hspace := words_append_space (c := ' ') (by decide) []
        ((items.map fun i => (item_part i).1).flatten ++ text "  ")
      rw [words_nil, hwords] at hspace
      simpa [Assignment.entry, Assignment.layers, Assignment.value, layers_assignment, Function.comp_def] using hspace
    · unfold layers_assignment
      simp only [List.cons_append, List.forall_mem_cons, List.forall_mem_append, List.forall_mem_map]
      exact ⟨by decide, fun i hi => (item_part_spec (h i hi)).2.2, by decide⟩

theorem appended_layer {x : Text} (hx : LayerPath x) :
    ∃ a : Assignment, a.lines = [text "BBLAYERS += \"" ++ x ++ text "\"\n"] ∧ a.entry = (.append, [x]) ∧
      ∀ l ∈ a.lines, Line l := by
  let a : Assignment := {
    before := [' ']
    op := .append
    after := [' ']
    quote := '"'
    parts := []
    last := (x, ['\n'])
    before_space := space_is_space
    after_space := space_is_space
    is_quote := double_is_quote
    no_quotes := by simpa using hx.no_quotes
    ends_space := by simp [isspace] }
  refine ⟨a, ?_, ?_, line_of_parts (a := a) (by simp [Assignment.Blanks, a]) ?_⟩
  · simp [a, Assignment.lines, Assignment.start, Assignment.head, closed, sign, text]
  · simp [a, Assignment.entry, Assignment.layers, Assignment.value, words_of_part hx.word.no_space, hx.word.nonempty]
  · simpa [a] using ⟨hx.word.not_mem (c := '\n') (by decide), hx.word.not_mem (c := '\r') (by decide)⟩

/-! ## A run over a file -/

section
variable {σ : Type} (f : σ → Text → Text → Value × σ)

inductive Written (a : Assignment) : Value → List Assignment → Prop
  | same : Written a (.str a.value) [a]
  | dropped : Written a .none []
  | layers {items : List Text} {a' : Assignment} : a'.entry = (a.op, items) → Written a (.list items) [a']

/-- What comes in the place of assignments, one after the other. -/
inductive Rewritten : σ → List Assignment → List Assignment → σ → Prop
  | nil {state : σ} : Rewritten state [] [] state
  | cons {state state' : σ} {a : Assignment} {new as as' : List Assignment} :
    Written a (f state (sign a.op) a.value).1 new → Rewritten (f state (sign a.op) a.value).2 as as' state' →
    Rewritten state (a :: as) (new ++ as') state'

/-- How `edit_metadata` gets from one file to another. -/
structure Ran (bs bs' : List Block) (e e' : Edit σ) : Prop where
  outside : e'.scan.in_var = []
  newlines : e'.newlines = e.newlines ++ bs'.flatMap Block.lines
  assignments : Rewritten f e.state (bs.flatMap Block.assignments) (bs'.flatMap Block.assignments) e'.state
  same : e'.updated = false → e.updated = false ∧ (e.checkspc = false → e'.checkspc = false ∧ bs' = bs)
  empty : bs = [] → bs' = []
  in_lines : (∀ l ∈ bs.flatMap Block.lines, Line l) → ∀ l ∈ bs'.flatMap Block.lines, Line l
  in_text : TextLines (bs.flatMap Block.lines) → TextLines (bs'.flatMap Block.lines)

/-- A callback that keeps values, drops them or writes lists of layers. -/
structure Fine (Inv : σ → Prop) : Prop where
  keeps : ∀ {state op v}, Inv state → (∀ w ∈ words v, LayerPath w) → Inv (f state op v).2
  writes : ∀ {state op v}, Inv state → (∀ w ∈ words v, LayerPath w) → (f state op v).1 = .str v ∨
    (f state op v).1 = .none ∨ ∃ items, (f state op v).1 = .list items ∧ ∀ i ∈ items, LayerPath i

variable {f}

theorem Rewritten.append {state state' state'' : σ} {as as' cs cs' : List Assignment}
    (h : Rewritten f state as as' state') (h' : Rewritten f state' cs cs' state'') :
    Rewritten f state (as ++ cs) (as' ++ cs') state'' := by
  induction h with
  | nil => exact h'
  | cons hwritten _ ih =>
    rw [List.cons_append, List.append_assoc]
    exact .cons hwritten (ih h')

theorem Rewritten.single {state : σ} {a : Assignment} {new : List Assignment}
    (h : Written a (f state (sign a.op) a.value).1 new) :
    Rewritten f state [a] new (f state (sign a.op) a.value).2 := by
  have hcons : Rewritten f state [a] (new ++ []) (f state (sign a.op) a.value).2 := .cons h .nil
  rwa [List.append_nil] at hcons

theorem lines_ne_nil (b : Block) : b.lines ≠ [] := by
  cases b with
  | assignment a =>
    change a.lines ≠ []
    unfold Assignment.lines
    split <;> simp
  | other o => exact o.nonempty

theorem Ran.append {bs bs' cs cs' : List Block} {e e' e'' : Edit σ} (h : Ran f bs bs' e e')
    (h' : Ran f cs cs' e' e'') : Ran f (bs ++ cs) (bs' ++ cs') e e'' where
  outside := h'.outside
  newlines := by rw [h'.newlines, h.newlines, List.flatMap_append, List.append_assoc]
  assignments := by
    rw [List.flatMap_append, List.flatMap_append]
    exact h.assignments.append h'.assignments
  same hfalse := by
    obtain ⟨hupdated, hsame'⟩ := h'.same hfalse
    obtain ⟨hstart, hsame⟩ := h.same hupdated
    refine ⟨hstart, fun hspc => ?_⟩
    obtain ⟨hspc', rfl⟩ := hsame hspc
    obtain ⟨hspc'', rfl⟩ := hsame' hspc'
    exact ⟨hspc'', rfl⟩
  empty hnil := by
    obtain ⟨hbs, hcs⟩ := List.append_eq_nil_iff.mp hnil
    rw [h.empty hbs, h'.empty hcs]
    rfl
  in_lines hall := by
    rw [List.flatMap_append, List.forall_mem_append] at hall ⊢
    exact ⟨h.in_lines hall.1, h'.in_lines hall.2⟩
  in_text htext := by
    cases cs with
    | nil =>
      rw [h'.empty rfl, List.append_nil]
      rw [List.append_nil] at htext
      exact h.in_text htext
    | cons b cs =>
      rw [List.flatMap_append] at htext ⊢
      obtain ⟨hlines, hrest⟩ := htext.split (by simp [lines_ne_nil])
      exact .append (h.in_lines hlines) (h'.in_text hrest)

theorem keep_lines {varfunc : Callback σ} {ls : List Text} (h : ∀ l ∈ ls, match_line [bblayers_pattern] l = none)
    {e : Edit σ} (hout : e.scan.in_var = []) (hspc : e.checkspc = false) :
    ls.foldl (turn [bblayers_pattern] varfunc) e = { e with newlines := e.newlines ++ ls } := by
  induction ls generalizing e with
  | nil => rw [List.foldl_nil, List.append_nil]
  | cons l ls ih =>
    rw [List.forall_mem_cons] at h
    have hturn : turn [bblayers_pattern] varfunc e l = { e with newlines := e.newlines ++ [l] } := by
      rw [turn, if_neg (by simp [hout]), h.1]
      simp [keep_line, hspc]
    rw [List.foldl_cons, hturn, ih h.2 (e := { e with newlines := e.newlines ++ [l] }) hout hspc, List.append_assoc]
    rfl

theorem Ran.of_suffix {o : Other} {bs' : List Block} {e e' : Edit σ} (hout : e'.scan.in_var = [])
    (hstate : e'.state = e.state) (hupdated : e'.updated = e.updated)
    (hlines : e'.newlines = e.newlines ++ bs'.flatMap Block.lines) (hnone : bs'.flatMap Block.assignments = [])
    (hsuffix : bs'.flatMap Block.lines <:+ o.lines)
    (hsame : e.checkspc = false → e'.checkspc = false ∧ bs' = [.other o]) : Ran f [.other o] bs' e e' where
  outside := hout
  newlines := hlines
  assignments := by
    rw [hnone, hstate]
    exact .nil
  same h := ⟨hupdated.symm.trans h, hsame⟩
  empty h := nomatch h
  in_lines h := by
    rw [List.flatMap_singleton] at h
    exact fun l hl => h l (hsuffix.subset hl)
  in_text h := by
    rw [List.flatMap_singleton] at h
    exact h.suffix hsuffix

theorem run_other (o : Other) {varfunc : Callback σ} {e : Edit σ} (hout : e.scan.in_var = []) :
    (o.lines.foldl (turn [bblayers_pattern] varfunc) e).state = e.state ∧
      ∃ bs', Ran f [.other o] bs' e (o.lines.foldl (turn [bblayers_pattern] varfunc) e) := by
  obtain ⟨l, ls, hlines⟩ := List.exists_cons_of_ne_nil o.nonempty
  have hnone := o.unmatched
  rw [hlines, List.forall_mem_cons] at hnone
  have hturn : turn [bblayers_pattern] varfunc e l = keep_line e l := by
    rw [turn, if_neg (by simp [hout]), hnone.1]
  by_cases hsquash : e.checkspc = true ∧ e.newlines.getLast? = some ['\n'] ∧ l = ['\n']
  · obtain ⟨hspc, hlast, rfl⟩ := hsquash
    have hkeep : keep_line e ['\n'] = { e with checkspc := false } := by simp [keep_line, hspc, hlast]
    have hdiffers {p : Prop} : e.checkspc = false → p := fun hfalse => by simp [hspc] at hfalse
    rw [hlines, List.foldl_cons, hturn, hkeep, keep_lines hnone.2 (e := { e with checkspc := false }) hout rfl]
    refine ⟨rfl, ?_⟩
    by_cases hls : ls = []
    · subst hls
      exact ⟨[], .of_suffix hout rfl rfl rfl rfl List.nil_suffix hdiffers⟩
    · let rest : Other := {
        lines := ls
        statements := o.statements
        nonempty := hls
        reads := fun tail => by
          rw [← o.reads tail, hlines, List.cons_append, logical_lines_blank (by decide)]
        unmatched := hnone.2
        silent := o.silent }
      have hrest : [Block.other rest].flatMap Block.lines = ls := List.append_nil ls
      refine ⟨[.other rest], .of_suffix hout rfl rfl ?_ rfl ?_ hdiffers⟩
      · rw [hrest]
      · rw [hrest, hlines]
        exact List.suffix_cons _ _
  · have hkeep : keep_line e l = { e with checkspc := false, newlines := e.newlines ++ [l] } := by
      unfold keep_line
      dsimp only
      rw [if_neg (by simpa using hsquash)]
    rw [hlines, List.foldl_cons, hturn, hkeep,
      keep_lines hnone.2 (e := { e with checkspc := false, newlines := e.newlines ++ [l] }) hout rfl]
    refine ⟨rfl, [.other o], .of_suffix hout rfl rfl ?_ rfl ?_ fun _ => ⟨rfl, rfl⟩⟩
    · simp [Block.lines, hlines]
    · simp [Block.lines]

theorem handle_held (a : Assignment) (e : Edit σ) :
    handle_var_end (value_callback f) e (held a) =
      { updated := e.updated || (replaced (held a) (sign a.op) (answer (f e.state (sign a.op) a.value).1)).1
        newlines := e.newlines ++ (replaced (held a) (sign a.op) (answer (f e.state (sign a.op) a.value).1)).2
        scan := { held a with in_var := [] }
        checkspc := e.checkspc || (replaced (held a) (sign a.op) (answer (f e.state (sign a.op) a.value).1)).1
        state := (f e.state (sign a.op) a.value).2 } := by
  have hop : strip ((held a).varset_start.drop (held a).in_var.length) = sign a.op := by
    have hdrop : (held a).varset_start.drop (held a).in_var.length = a.before ++ sign a.op := by
      simp [held, Assignment.head]
    rw [hdrop, strip_sign a.before_space]
  unfold handle_var_end
  rw [hop]
  rfl

theorem replaced_layers (a : Assignment) (items : List Text) : replaced (held a) (sign a.op) (answer (.list items)) =
    (true, variable_lines a.head (text "  ") false (.list items)) := by
  have hindent : indentspc a.head (.spaces 2) = text "  " := rfl
  simp [replaced, answer, held, variable_not_func, hindent]

theorem run_assignment {Inv : σ → Prop} (hf : Fine f Inv) {a : Assignment} (hblanks : a.Blanks)
    (hpaths : ∀ w ∈ a.layers, LayerPath w) {e : Edit σ} (hout : e.scan.in_var = []) (hinv : Inv e.state) :
    Inv (a.lines.foldl (turn [bblayers_pattern] (value_callback f)) e).state ∧
      ∃ bs', Ran f [.assignment a] bs' e (a.lines.foldl (turn [bblayers_pattern] (value_callback f)) e) := by
  rw [scan_assignment _ hblanks hout, handle_held]
  refine ⟨hf.keeps hinv hpaths, ?_⟩
  have hwrites : (f e.state (sign a.op) a.value).1 = .str a.value ∨ (f e.state (sign a.op) a.value).1 = .none ∨
      ∃ items, (f e.state (sign a.op) a.value).1 = .list items ∧ ∀ i ∈ items, LayerPath i := hf.writes hinv hpaths
  rcases hwrites with hvalue | hvalue | ⟨items, hvalue, hitems⟩
  · have hreplaced : replaced (held a) (sign a.op) (answer (.str a.value)) = (false, a.lines) := by
      simp [replaced, answer, held]
    rw [hvalue, hreplaced]
    refine ⟨[.assignment a], ?_⟩
    exact {
      outside := rfl
      newlines := by simp [Block.lines]
      assignments := .single (hvalue ▸ .same)
      same := fun h => ⟨by simpa using h, fun hspc => ⟨by simpa using hspc, rfl⟩⟩
      empty := fun h => by cases h
      in_lines := id
      in_text := id }
  · have hreplaced : replaced (held a) (sign a.op) (answer .none) = (true, []) := by
      simp [replaced, answer]
    rw [hvalue, hreplaced]
    refine ⟨[], ?_⟩
    exact {
      outside := rfl
      newlines := rfl
      assignments := .single (hvalue ▸ .dropped)
      same := fun h => by simp at h
      empty := fun h => by cases h
      in_lines := fun _ l hl => by cases hl
      in_text := fun _ => trivial }
  · obtain ⟨a', hlines, -, hentry, hends⟩ := written_layers hblanks hitems
    rw [hvalue, replaced_layers, ← hlines]
    refine ⟨[.assignment a'], ?_⟩
    exact {
      outside := rfl
      newlines := by simp [Block.lines]
      assignments := .single (hvalue ▸ .layers hentry)
      same := fun h => by simp at h
      empty := fun h => by cases h
      in_lines := fun _ => by simpa [Block.lines] using hends
      in_text := fun _ => textLines_of_lines (by simpa [Block.lines] using hends) }

theorem run_blocks {Inv : σ → Prop} (hf : Fine f Inv) {bs : List Block}
    (hblanks : ∀ a ∈ bs.flatMap Block.assignments, a.Blanks)
    (hpaths : ∀ a ∈ bs.flatMap Block.assignments, ∀ w ∈ a.layers, LayerPath w) {e : Edit σ}
    (hout : e.scan.in_var = []) (hinv : Inv e.state) :
    ∃ bs', Ran f bs bs' e ((bs.flatMap Block.lines).foldl (turn [bblayers_pattern] (value_callback f)) e) := by
  induction bs generalizing e with
  | nil =>
    refine ⟨[], ?_⟩
    exact {
      outside := hout
      newlines := by simp
      assignments := .nil
      same := fun h => ⟨h, fun hspc => ⟨hspc, rfl⟩⟩
      empty := fun _ => rfl
      in_lines := id
      in_text := id }
  | cons b bs ih =>
    rw [List.flatMap_cons, List.forall_mem_append] at hblanks hpaths
    rw [List.flatMap_cons, List.foldl_append]
    have hblock : Inv (b.lines.foldl (turn [bblayers_pattern] (value_callback f)) e).state ∧
        ∃ bs', Ran f [b] bs' e (b.lines.foldl (turn [bblayers_pattern] (value_callback f)) e) := by
      cases b with
      | assignment a =>
        have hmem : a ∈ (Block.assignment a).assignments := List.mem_singleton_self a
        exact run_assignment hf (hblanks.1 a hmem) (hpaths.1 a hmem) hout hinv
      | other o =>
        have hother : (o.lines.foldl (turn [bblayers_pattern] (value_callback f)) e).state = e.state ∧
            ∃ bs', Ran f [.other o] bs' e (o.lines.foldl (turn [bblayers_pattern] (value_callback f)) e) :=
          run_other o hout
        refine ⟨?_, hother.2⟩
        rw [Block.lines, hother.1]
        exact hinv
    obtain ⟨hinv', bs', hran⟩ := hblock
    obtain ⟨cs', hran'⟩ := ih hblanks.2 hpaths.2 hran.outside hinv'
    exact ⟨bs' ++ cs', hran.append hran'⟩

end

end yocto.bblayers_scan
