-- The license expression of an image manifest (oe/license.py): what is left of an expression
-- without the licenses that are not wanted.
import Yocto.Globs
import Yocto.LicenseTrees

open yocto.task_ids yocto.text_lines yocto.license_trees yocto.globs

namespace yocto.license_manifests

/-! ## The visitor -/

def license_ok (license : Text) (dont_want_licenses : List Text) : Bool :=
  !dont_want_licenses.any fun dwl => fnmatch license dwl

structure ManifestVisitor where
  operators : List Char := []
  licenses : List Text := []
  licensestr : Text := []
  deriving DecidableEq, Repr

/-- One turn of the loop over the operators: of operators in a row the last one is kept. -/
def merge_operator (ops : List Char) (op : Char) : List Char :=
  if op = '[' ∨ op = ']' then ops ++ [op]
  else match ops.getLast? with
    | none => ops ++ [op]
    | some last => if last = '[' ∨ last = ']' then ops ++ [op] else ops.dropLast ++ [op]

def merged (operators : List Char) : List Char := operators.foldl merge_operator []

/-- An operator is only written behind a license. -/
def write_operator (licenses : List Text) (licensestr : Text) (op : Char) : Text :=
  if op = '[' ∨ op = ']' then licensestr ++ [op]
  else if licenses ≠ [] then licensestr ++ [' ', op, ' '] else licensestr

section Visit
variable (canonical_license : Text → Text) (dont_want_licenses : List Text)

def visit_str (v : ManifestVisitor) (lic : Text) : ManifestVisitor :=
  if license_ok (canonical_license lic) dont_want_licenses then
    { operators := []
      licenses := v.licenses ++ [lic]
      licensestr := (merged v.operators).foldl (write_operator v.licenses) v.licensestr ++ lic }
  else v

def push (v : ManifestVisitor) (op : Char) : ManifestVisitor := { v with operators := v.operators ++ [op] }

/-- `ast.Load`, the context of a list, a tuple or a subscript. -/
def load (v : ManifestVisitor) : ManifestVisitor := { v with licensestr := v.licensestr ++ [']'] }

def visit (v : ManifestVisitor) : Node → ManifestVisitor
  | .Str s => visit_str canonical_license dont_want_licenses v s
  | .BinOp l op r => visit (push (visit v l) op.char) r
  | .EmptyTuple => load v
  | .EmptyList => load (push v '[')
  | .ListOf elt => load (visit (push v '[') elt)
  | .Subscript value slice => load (visit (visit v value) slice)
  | .Call func => visit v func
  | .CallWith func arg => visit (visit v func) arg

/-- `'['` for `'('`, and `']'` for `')'`. -/
def square : Element → Element
  | .name s => .name s
  | .operator c => if c = '(' then .operator '[' else if c = ')' then .operator ']' else .operator c

def round_char (c : Char) : Char := if c = '[' then '(' else if c = ']' then ')' else c

def manifest_licenses (licensestr : Text) : Except LicenseError (Text × List Text) :=
  match get_elements licensestr with
  | .error e => .error e
  | .ok elements =>
    match parse (elements.map square) with
    | none => .error (.LicenseSyntaxError licensestr)
    | some body =>
      let manifest := body.elim {} (visit canonical_license dont_want_licenses {})
      .ok (manifest.licensestr.map round_char, manifest.licenses)

end Visit

/-! ## The elements that are written -/

/-- The state of the visitor, with the elements that it wrote. -/
structure Manifest where
  operators : List Char
  licenses : List Text
  out : List Element

def render : Element → Text
  | .name s => s
  | .operator c => if c = '[' ∨ c = ']' then [c] else [' ', c, ' ']

def Manifest.visitor (m : Manifest) : ManifestVisitor := ⟨m.operators, m.licenses, m.out.flatMap render⟩

/-- The operators that are written before a license. -/
def flush (started : Bool) (operators : List Char) : List Char :=
  (merged operators).filter fun c => decide (c = '[' ∨ c = ']') || started

variable (wanted : Text → Bool)

def Manifest.act (m : Manifest) : Element → Manifest
  | .name s =>
    if wanted s then ⟨[], m.licenses ++ [s],
      m.out ++ (flush (decide (m.licenses ≠ [])) m.operators).map .operator ++ [.name s]⟩
    else m
  | .operator c =>
    if c = ']' then { m with out := m.out ++ [.operator ']'] } else { m with operators := m.operators ++ [c] }

def Manifest.run (m : Manifest) (es : List Element) : Manifest := es.foldl (Manifest.act wanted) m

@[simp] theorem run_nil (m : Manifest) : m.run wanted [] = m := rfl

@[simp] theorem run_cons (m : Manifest) (e : Element) (es : List Element) :
    m.run wanted (e :: es) = (m.act wanted e).run wanted es := rfl

@[simp] theorem run_append (m : Manifest) (es fs : List Element) :
    m.run wanted (es ++ fs) = (m.run wanted es).run wanted fs := by simp [Manifest.run]

theorem write_operators (licenses : List Text) (ops : List Char) (licensestr : Text) :
    ops.foldl (write_operator licenses) licensestr =
      licensestr ++ ((ops.filter fun c => decide (c = '[' ∨ c = ']') || decide (licenses ≠ [])).map
        .operator).flatMap render := by
  induction ops generalizing licensestr with
  | nil => simp
  | cons op ops ih =>
    rw [List.foldl_cons, ih]
    unfold write_operator
    by_cases hop : op = '[' ∨ op = ']'
    · simp [hop, render]
    · by_cases hlic : licenses = []
      · simp [hop, hlic]
      · simp [hop, hlic, render]

section Simulation
variable (canonical_license : Text → Text) (dont_want_licenses : List Text)

def kept (lic : Text) : Bool := license_ok (canonical_license lic) dont_want_licenses

theorem visit_events (n : Node) (m : Manifest) :
    visit canonical_license dont_want_licenses m.visitor n =
      (m.run (kept canonical_license dont_want_licenses) n.events).visitor := by
  induction n generalizing m with
  | Str s =>
    simp only [visit, visit_str, Node.events, run_cons, run_nil, Manifest.act]
    by_cases hkept : kept canonical_license dont_want_licenses s = true
    · have hok : license_ok (canonical_license s) dont_want_licenses = true := hkept
      rw [if_pos hok, if_pos hkept, Manifest.visitor, write_operators]
      simp [Manifest.visitor, flush, render]
    · have hok : ¬license_ok (canonical_license s) dont_want_licenses = true := hkept
      rw [if_neg hok, if_neg hkept]
  | BinOp l op r ihl ihr =>
    have hop : ∀ m : Manifest, push m.visitor op.char =
        (m.act (kept canonical_license dont_want_licenses) (.operator op.char)).visitor := by
      intro m
      cases op <;> rfl
    rw [visit, ihl, hop, ihr, Node.events, run_append, run_cons]
  | EmptyTuple => simp [visit, load, Node.events, Manifest.act, Manifest.visitor, render]
  | EmptyList => simp [visit, load, push, Node.events, Manifest.act, Manifest.visitor, render]
  | ListOf elt ih =>
    have hopen : push m.visitor '[' =
        (m.act (kept canonical_license dont_want_licenses) (.operator '[')).visitor := rfl
    rw [visit, hopen, ih, Node.events, run_cons, run_append]
    simp [load, Manifest.visitor, Manifest.act, render]
  | Subscript value slice ihv ihs =>
    rw [visit, ihv, ihs, Node.events, run_append, run_append]
    simp [load, Manifest.visitor, Manifest.act, render]
  | Call func ih => exact ih m
  | CallWith func arg ihf iha => rw [visit, ihf, iha, Node.events, run_append]

end Simulation

/-! ## The operators that wait -/

theorem merged_concat (operators : List Char) (op : Char) :
    merged (operators ++ [op]) = merge_operator (merged operators) op := by simp [merged]

/-- Only operators, and no bracket. -/
def Operators (q : List Char) : Prop := ∀ c ∈ q, ∃ op : Op, c = op.char

theorem Operators.append {q q' : List Char} (h : Operators q) (h' : Operators q') : Operators (q ++ q') :=
  fun c hc => (List.mem_append.mp hc).elim (h c) (h' c)

theorem op_not_bracket (op : Op) : ¬(op.char = '[' ∨ op.char = ']') := by cases op <;> decide

theorem Operators.not_bracket {q : List Char} (h : Operators q) {c : Char} (hc : c ∈ q) :
    ¬(c = '[' ∨ c = ']') := by
  obtain ⟨op, rfl⟩ := h c hc
  exact op_not_bracket op

theorem operators_op (op : Op) : Operators [op.char] := by
  intro c hc
  exact ⟨op, List.mem_singleton.mp hc⟩

theorem flush_open (started : Bool) (q : List Char) : flush started (q ++ ['[']) = flush started q ++ ['['] := by
  simp [flush, merged_concat, merge_operator]

theorem flush_unstarted {op : Char} (h : ¬(op = '[' ∨ op = ']')) (q : List Char) :
    flush false (q ++ [op]) = flush false q := by
  unfold flush
  rw [merged_concat, merge_operator, if_neg h]
  cases hlast : (merged q).getLast? with
  | none => simp [h]
  | some last =>
    dsimp only
    split
    · simp [h]
    · rename_i hnot
      obtain ⟨ops, hops⟩ := List.getLast?_eq_some_iff.mp hlast
      rw [hops]
      simp [h, hnot]

theorem flush_unstarted_append {o : List Char} (h : Operators o) (q : List Char) :
    flush false (q ++ o) = flush false q := by
  induction o using List.reverseRecOn with
  | nil => simp
  | append_singleton o op ih =>
    rw [← List.append_assoc, flush_unstarted (h.not_bracket (by simp)), ih fun op hop => h op (by simp [hop])]

theorem flush_operators {o : List Char} {op : Char} (h : Operators (o ++ [op])) :
    flush true (o ++ [op]) = [op] := by
  have hmerged : merged (o ++ [op]) = [op] := by
    induction o using List.reverseRecOn generalizing op with
    | nil => simp [merged, merge_operator]
    | append_singleton o last ih =>
      have hlast := h.not_bracket (c := last) (by simp)
      have hop := h.not_bracket (c := op) (by simp)
      have hbefore : merged (o ++ [last]) = [last] := ih fun x hx => h x (List.mem_append_left [op] hx)
      rw [merged_concat, hbefore, merge_operator, if_neg hop]
      simp [hlast]
  simp [flush, hmerged]

theorem mem_merged {c : Char} {q : List Char} (h : c ∈ merged q) : c ∈ q := by
  induction q using List.reverseRecOn with
  | nil => exact h
  | append_singleton q op ih =>
    rw [merged_concat, merge_operator] at h
    have hdrop := (merged q).dropLast_sublist.subset (a := c)
    have hlast : c ∈ merged q ∨ c = op := by
      split at h
      · simpa using h
      · split at h
        · simpa using h
        · split at h
          · simpa using h
          · rcases List.mem_append.mp h with h | h
            · exact Or.inl (hdrop h)
            · exact Or.inr (List.mem_singleton.mp h)
    rcases hlast with h | rfl
    · exact List.mem_append_left _ (ih h)
    · simp

theorem count_merged (q : List Char) : (merged q).count '[' = q.count '[' := by
  induction q using List.reverseRecOn with
  | nil => rfl
  | append_singleton q op ih =>
    rw [merged_concat, merge_operator, List.count_append, ← ih]
    split
    · rw [List.count_append]
    · cases hlast : (merged q).getLast? with
      | none => simp
      | some last =>
        dsimp only
        split
        · rw [List.count_append]
        · rename_i hnot
          obtain ⟨ops, hops⟩ := List.getLast?_eq_some_iff.mp hlast
          rw [not_or] at hnot
          simp [hops, hnot.1]

theorem count_flush (started : Bool) (q : List Char) : (flush started q).count '[' = q.count '[' := by
  unfold flush
  rw [List.count_filter (by simp), count_merged]

/-- A bracket with an operator right behind it. -/
def OpenThenOp (ops : List Char) : Prop := ∃ u c v, ops = u ++ '[' :: c :: v ∧ c ≠ '['

theorem OpenThenOp.merge {ops : List Char} (h : OpenThenOp ops) (c : Char) : OpenThenOp (merge_operator ops c) := by
  obtain ⟨u, d, v, rfl, hd⟩ := h
  unfold merge_operator
  split
  · exact ⟨u, d, v ++ [c], by simp, hd⟩
  · rename_i hc
    rw [not_or] at hc
    cases v using List.reverseRecOn with
    | nil =>
      have hlast : (u ++ ['[', d]).getLast? = some d := by simp
      rw [hlast]
      dsimp only
      split
      · exact ⟨u, d, [c], by simp, hd⟩
      · exact ⟨u, c, [], by simp, hc.1⟩
    | append_singleton v last =>
      have hsplit : u ++ '[' :: d :: (v ++ [last]) = (u ++ '[' :: d :: v) ++ [last] := by simp
      rw [hsplit, List.getLast?_concat]
      dsimp only
      split
      · exact ⟨u, d, v ++ [last, c], by simp, hd⟩
      · rw [List.dropLast_concat]
        exact ⟨u, d, v ++ [c], by simp, hd⟩

theorem openThenOp_of_mem {q : List Char} (h : '[' ∈ q) (op : Op) : OpenThenOp (merged (q ++ [op.char])) := by
  have hmem : '[' ∈ merged q := by
    rw [← List.count_pos_iff, count_merged, List.count_pos_iff]
    exact h
  rw [merged_concat]
  -- the last of the brackets
  obtain ⟨v, u, hsplit, hv⟩ := List.eq_append_cons_of_mem (List.mem_reverse.mpr hmem)
  have hq : merged q = u.reverse ++ '[' :: v.reverse := by
    rw [← List.reverse_reverse (merged q), hsplit]
    simp
  rw [hq]
  cases hbehind : v.reverse with
  | nil =>
    refine ⟨u.reverse, op.char, [], ?_, fun h => op_not_bracket op (Or.inl h)⟩
    simp [merge_operator, op_not_bracket op]
  | cons c rest =>
    apply OpenThenOp.merge
    refine ⟨u.reverse, c, rest, rfl, ?_⟩
    rintro rfl
    exact hv (List.mem_reverse.mp (hbehind ▸ List.mem_cons_self))

theorem flush_some {q : List Char} (h : Operators q) (hne : q ≠ []) : ∃ op : Op, flush true q = [op.char] := by
  rw [← List.dropLast_append_getLast hne] at h ⊢
  obtain ⟨op, hop⟩ := h (q.getLast hne) (by simp)
  exact ⟨op, hop ▸ flush_operators h⟩

/-! ## Expressions that come out well -/

/-- Whether one of the licenses is kept, and whether the first is. -/
def some_kept (e : Expr) : Bool := e.names.any fun n => wanted n.text

def first_kept : Expr → Bool
  | .name n => wanted n.text
  | .binary l _ _ => first_kept l
  | .paren e => first_kept e

def kept_names (e : Expr) : List Name := e.names.filter fun n => wanted n.text

/-- Parentheses hold a license that is kept, and begin with one where another stands before them. -/
def Fits (started : Bool) : Expr → Prop
  | .name _ => True
  | .binary l _ r => Fits started l ∧ Fits (started || some_kept wanted l) r
  | .paren e => some_kept wanted e = true ∧ (started = true → first_kept wanted e = true) ∧ Fits started e

theorem some_kept_binary (l : Expr) (op : Op) (r : Expr) :
    some_kept wanted (.binary l op r) = (some_kept wanted l || some_kept wanted r) := by
  simp [some_kept, Expr.names]

theorem kept_names_binary (l : Expr) (op : Op) (r : Expr) :
    kept_names wanted (.binary l op r) = kept_names wanted l ++ kept_names wanted r := by
  simp [kept_names, Expr.names]

theorem kept_names_eq_nil {e : Expr} : kept_names wanted e = [] ↔ some_kept wanted e = false := by
  simp [kept_names, some_kept]

theorem some_kept_of_first {e : Expr} (h : first_kept wanted e = true) : some_kept wanted e = true := by
  induction e with
  | name n => simpa [some_kept, Expr.names, first_kept] using h
  | binary l op r ihl ihr => simp [some_kept_binary, ihl h]
  | paren e ih => exact ih h

/-- What becomes of an expression. -/
inductive Came (m : Manifest) (e : Expr) : Manifest → Prop
  | dropped {q : List Char} : some_kept wanted e = false → Operators q →
      Came m e { m with operators := m.operators ++ q }
  | written {o q : List Char} {part : Expr} : some_kept wanted e = true → Operators o → Operators q →
      (first_kept wanted e = true → o = []) → part.names = kept_names wanted e →
      Came m e ⟨q, m.licenses ++ (kept_names wanted e).map Name.text,
        m.out ++ (flush (decide (m.licenses ≠ [])) (m.operators ++ o)).map .operator ++
          part.elements '[' ']'⟩

theorem act_op (m : Manifest) (op : Op) :
    m.act wanted (.operator op.char) = { m with operators := m.operators ++ [op.char] } := by
  have hop : op.char ≠ ']' := fun h => op_not_bracket op (Or.inr h)
  simp [Manifest.act, hop]

theorem run_fits (e : Expr) (m : Manifest) (h : Fits wanted (decide (m.licenses ≠ [])) e) :
    Came wanted m e (m.run wanted (e.elements '[' ']')) := by
  induction e generalizing m with
  | name n =>
    simp only [Expr.elements, run_cons, run_nil, Manifest.act]
    by_cases hn : wanted n.text = true
    · rw [if_pos hn]
      have hkept : kept_names wanted (.name n) = [n] := by simp [kept_names, Expr.names, hn]
      have hcame := @Came.written wanted m (.name n) [] [] (.name n)
        (by simp [some_kept, Expr.names, hn]) (by simp [Operators]) (by simp [Operators])
        (fun _ => rfl) hkept.symm
      simpa [hkept, Expr.elements] using hcame
    · rw [if_neg hn]
      have hcame := @Came.dropped wanted m (.name n) [] (by simp [some_kept, Expr.names, hn])
        (by simp [Operators])
      simpa using hcame
  | binary l op r ihl ihr =>
    rw [Expr.elements, run_append, run_cons]
    have hl := ihl m h.1
    generalize m.run wanted (l.elements '[' ']') = m1 at hl
    cases hl with
    | @dropped q hno hq =>
      rw [act_op]
      have hr := ihr { m with operators := m.operators ++ q ++ [op.char] } (by simpa [hno] using h.2)
      generalize Manifest.run wanted _ (r.elements '[' ']') = m2 at hr
      cases hr with
      | @dropped q' hno' hq' =>
        have hcame := @Came.dropped wanted m (.binary l op r) (q ++ [op.char] ++ q')
          (by simp [some_kept_binary, hno, hno']) ((hq.append (operators_op op)).append hq')
        simpa using hcame
      | @written o q' part hsome ho hq' hfirst hnames =>
        have hnil := (kept_names_eq_nil wanted).mpr hno
        have hcame := @Came.written wanted m (.binary l op r) (q ++ [op.char] ++ o) q' part
          (by simp [some_kept_binary, hsome]) ((hq.append (operators_op op)).append ho) hq'
          (fun hf => by
            rw [some_kept_of_first wanted (e := l) hf] at hno
            cases hno)
          (by rw [kept_names_binary, hnil, hnames]; rfl)
        simpa [kept_names_binary, hnil] using hcame
    | @written o q part hsome ho hq hfirst hnames =>
      rw [act_op]
      have hne : m.licenses ++ (kept_names wanted l).map Name.text ≠ [] := by
        have := mt (kept_names_eq_nil wanted).mp (by simp [hsome] : ¬some_kept wanted l = false)
        simp [this]
      have hr := ihr ⟨q ++ [op.char], m.licenses ++ (kept_names wanted l).map Name.text,
        m.out ++ (flush (decide (m.licenses ≠ [])) (m.operators ++ o)).map .operator ++ part.elements '[' ']'⟩
        (by simpa [hne, hsome] using h.2)
      generalize Manifest.run wanted _ (r.elements '[' ']') = m2 at hr
      cases hr with
      | @dropped q' hno' hq' =>
        have hnil := (kept_names_eq_nil wanted).mpr hno'
        have hcame := @Came.written wanted m (.binary l op r) o (q ++ [op.char] ++ q') part
          (by simp [some_kept_binary, hsome]) ho ((hq.append (operators_op op)).append hq') hfirst
          (by rw [kept_names_binary, hnil, hnames, List.append_nil])
        simpa [kept_names_binary, hnil] using hcame
      | @written o' q' part' hsome' ho' hq' hfirst' hnames' =>
        obtain ⟨op', hop'⟩ := flush_some ((hq.append (operators_op op)).append ho') (by simp)
        have hcame := @Came.written wanted m (.binary l op r) o q' (.binary part op' part')
          (by simp [some_kept_binary, hsome]) ho hq' hfirst
          (by rw [kept_names_binary, ← hnames, ← hnames', Expr.names])
        have hstarted : decide (m.licenses ++ (kept_names wanted l).map Name.text ≠ []) = true := decide_eq_true hne
        rw [hstarted, hop']
        simpa [kept_names_binary, Expr.elements] using hcame
  | paren e ih =>
    obtain ⟨hsome, hbegin, hfits⟩ := h
    have hopen : m.act wanted (.operator '[') = { m with operators := m.operators ++ ['['] } := rfl
    rw [Expr.elements, run_cons, hopen, run_append]
    have he := ih { m with operators := m.operators ++ ['['] } hfits
    generalize Manifest.run wanted _ (e.elements '[' ']') = m1 at he
    cases he with
    | @dropped q hno hq =>
      rw [hsome] at hno
      cases hno
    | @written o q part _ ho hq hfirst hnames =>
      -- the bracket is written behind what waited before it, and nothing comes between
      have hflush : flush (decide (m.licenses ≠ [])) (m.operators ++ ['['] ++ o) =
          flush (decide (m.licenses ≠ [])) m.operators ++ ['['] := by
        by_cases hstarted : decide (m.licenses ≠ []) = true
        · rw [hfirst (hbegin hstarted), List.append_nil, flush_open]
        · rw [Bool.not_eq_true] at hstarted
          rw [hstarted, flush_unstarted_append ho, flush_open]
      have hcame := @Came.written wanted m (.paren e) [] q (.paren part) hsome (by simp [Operators]) hq
        (fun _ => rfl) hnames
      have hkept : kept_names wanted (.paren e) = kept_names wanted e := rfl
      rw [hflush]
      simpa [Manifest.act, Expr.elements, hkept] using hcame

/-! ## Expressions that come out broken -/

/-- A closing bracket at the start, or an operator right behind an opening one. -/
def Broken (out : List Element) : Prop :=
  out.head? = some (.operator ']') ∨
    ∃ u c v, out = u ++ .operator '[' :: .operator c :: v ∧ c ≠ '['

/-- A bracket waits that will never be written in its place, or harm is done. -/
def Stuck (m : Manifest) : Prop := Broken m.out ∨ m.licenses ≠ [] ∧ '[' ∈ m.operators

/-- As `Stuck`, with an operator behind the bracket. -/
def StuckBefore (m : Manifest) : Prop := Broken m.out ∨ m.licenses ≠ [] ∧ OpenThenOp (merged m.operators)

theorem Broken.append {out : List Element} (h : Broken out) (t : List Element) : Broken (out ++ t) := by
  rcases h with h | ⟨u, c, v, rfl, hc⟩
  · left
    rw [List.head?_append, h]
    rfl
  · exact Or.inr ⟨u, c, v ++ t, by simp, hc⟩

variable {wanted}

theorem Stuck.op {m : Manifest} (h : Stuck m) (op : Op) : StuckBefore (m.act wanted (.operator op.char)) := by
  rw [act_op]
  exact h.imp_right fun h => ⟨h.1, openThenOp_of_mem h.2 op⟩

theorem Stuck.close {m : Manifest} (h : Stuck m) : Stuck (m.run wanted [.operator ']']) :=
  h.imp_left fun h => h.append _

theorem StuckBefore.stuck {m : Manifest} (h : StuckBefore m) : Stuck m := by
  refine h.imp_right fun h => ⟨h.1, ?_⟩
  obtain ⟨u, c, v, hmerged, -⟩ := h.2
  exact mem_merged (by simp [hmerged])

theorem StuckBefore.run {m : Manifest} (h : StuckBefore m) (e : Expr) :
    Stuck (m.run wanted (e.elements '[' ']')) := by
  induction e generalizing m with
  | name n =>
    simp only [Expr.elements, run_cons, run_nil, Manifest.act]
    split
    · left
      rcases h with h | ⟨hstarted, u, c, v, hmerged, hc⟩
      · rw [List.append_assoc]
        exact h.append _
      · refine Or.inr ⟨m.out ++ u.map .operator, c, v.map .operator ++ [.name n.text], ?_, hc⟩
        simp [flush, hstarted, hmerged]
    · exact h.stuck
  | binary l op r ihl ihr =>
    rw [Expr.elements, run_append, run_cons]
    exact ihr ((ihl h).op op)
  | paren e ih =>
    rw [Expr.elements, run_cons, run_append]
    have hopen : StuckBefore (m.act wanted (.operator '[')) := by
      refine h.imp_right fun h => ⟨h.1, ?_⟩
      have := h.2.merge '['
      rwa [← merged_concat] at this
    exact (ih hopen).close

theorem stuck_of_first {m : Manifest} (hstarted : m.licenses ≠ []) (hopen : '[' ∈ m.operators) {e : Expr}
    (h : first_kept wanted e = false) : Stuck (m.run wanted (e.elements '[' ']')) := by
  induction e generalizing m with
  | name n =>
    have hn : wanted n.text = false := h
    simp only [Expr.elements, run_cons, run_nil, Manifest.act, hn]
    exact Or.inr ⟨hstarted, hopen⟩
  | binary l op r ihl ihr =>
    rw [Expr.elements, run_append, run_cons]
    exact ((ihl hstarted hopen h).op op).run r
  | paren e ih =>
    rw [Expr.elements, run_cons, run_append]
    have hpushed : '[' ∈ (m.act wanted (.operator '[')).operators := List.mem_append_left _ hopen
    exact (ih (m := m.act wanted (.operator '[')) hstarted hpushed h).close

theorem run_dropped {e : Expr} (h : some_kept wanted e = false) (m : Manifest) :
    ∃ q k, m.run wanted (e.elements '[' ']') =
      ⟨m.operators ++ q, m.licenses, m.out ++ List.replicate k (.operator ']')⟩ := by
  induction e generalizing m with
  | name n =>
    have hn : wanted n.text = false := by simpa [some_kept, Expr.names] using h
    exact ⟨[], 0, by simp [Expr.elements, Manifest.act, hn]⟩
  | binary l op r ihl ihr =>
    rw [some_kept_binary, Bool.or_eq_false_iff] at h
    obtain ⟨q, k, hl⟩ := ihl h.1 m
    rw [Expr.elements, run_append, hl, run_cons, act_op]
    obtain ⟨q', k', hr⟩ := ihr h.2 ⟨m.operators ++ q ++ [op.char], m.licenses,
      m.out ++ List.replicate k (.operator ']')⟩
    refine ⟨q ++ [op.char] ++ q', k + k', ?_⟩
    rw [hr]
    simp [← List.replicate_append_replicate]
  | paren e ih =>
    obtain ⟨q, k, he⟩ := ih h (m.act wanted (.operator '['))
    rw [Expr.elements, run_cons, run_append, he]
    refine ⟨'[' :: q, k + 1, ?_⟩
    simp [Manifest.act, List.replicate_succ']

theorem run_unfit {e : Expr} {m : Manifest} (hclean : m.licenses = [] → m.out = [])
    (h : ¬Fits wanted (decide (m.licenses ≠ [])) e) : Stuck (m.run wanted (e.elements '[' ']')) := by
  induction e generalizing m with
  | name n => exact absurd trivial h
  | binary l op r ihl ihr =>
    rw [Expr.elements, run_append, run_cons]
    by_cases hl : Fits wanted (decide (m.licenses ≠ [])) l
    · have hr : ¬Fits wanted (decide (m.licenses ≠ []) || some_kept wanted l) r := fun hr => h ⟨hl, hr⟩
      have hcame := run_fits wanted l m hl
      generalize m.run wanted (l.elements '[' ']') = m1 at hcame
      rw [act_op]
      cases hcame with
      | @dropped q hno hq => exact ihr hclean (by simpa [hno] using hr)
      | @written o q part hsome ho hq hfirst hnames =>
        have hne : m.licenses ++ (kept_names wanted l).map Name.text ≠ [] := by
          have := mt (kept_names_eq_nil wanted).mp (by simp [hsome] : ¬some_kept wanted l = false)
          simp [this]
        refine ihr (fun hnil => absurd hnil hne) ?_
        rw [decide_eq_true hne]
        simpa [hsome] using hr
    · exact ((ihl hclean hl).op op).run r
  | paren e ih =>
    rw [Expr.elements, run_cons, run_append]
    cases hsome : some_kept wanted e with
    | false =>
      obtain ⟨q, k, he⟩ := run_dropped hsome (m.act wanted (.operator '['))
      rw [he]
      by_cases hstarted : m.licenses = []
      · left
        left
        have hout : (m.act wanted (.operator '[')).out = [] := hclean hstarted
        cases k <;> simp [Manifest.act, hclean hstarted, List.replicate_succ]
      · right
        exact ⟨hstarted, by simp [Manifest.act]⟩
    | true =>
      by_cases hbegin : decide (m.licenses ≠ []) = true → first_kept wanted e = true
      · have he : ¬Fits wanted (decide (m.licenses ≠ [])) e := fun he => h ⟨hsome, hbegin, he⟩
        exact (ih (m := m.act wanted (.operator '[')) hclean he).close
      · rw [Classical.not_imp, Bool.not_eq_true, decide_eq_true_eq] at hbegin
        have hpushed : '[' ∈ (m.act wanted (.operator '[')).operators := by simp [Manifest.act]
        exact (stuck_of_first (m := m.act wanted (.operator '[')) hbegin.1 hpushed hbegin.2).close

/-! ## The text that is written -/

/-- `square`, the other way. -/
def round : Element → Element
  | .name s => .name s
  | .operator c => .operator (round_char c)

/-- What a manifest is written with. -/
inductive Piece : Element → Prop
  | name (n : Name) : Piece (.name n.text)
  | op (op : Op) : Piece (.operator op.char)
  | opening : Piece (.operator '[')
  | closing : Piece (.operator ']')

def Element.is_name : Element → Bool
  | .name _ => true
  | .operator _ => false

def Apart (x y : Element) : Prop := ¬(Element.is_name x = true ∧ Element.is_name y = true)

/-- The text of an element, without the spaces around it. -/
def label : Element → Text
  | .name s => s
  | .operator c => [round_char c]

theorem round_name (n : Name) : n.text.map round_char = n.text := by
  have hround : ∀ c ∈ n.text, round_char c = id c := by
    intro c hc
    have hchar := n.chars c hc
    have hopening : c ≠ '[' := by
      rintro rfl
      exact absurd hchar (by decide)
    have hclosing : c ≠ ']' := by
      rintro rfl
      exact absurd hchar (by decide)
    simp [round_char, hopening, hclosing]
  rw [List.map_congr_left hround, List.map_id]

theorem head_rendered {x : Element} (h : Piece x) (hx : Element.is_name x = false) (s : Text) :
    ∃ c ∈ license_operator_chars, ((render x).map round_char ++ s).head? = some c := by
  cases h with
  | name n => cases hx
  | op op => exact ⟨' ', by decide, by cases op <;> rfl⟩
  | opening => exact ⟨'(', by decide, rfl⟩
  | closing => exact ⟨')', by decide, rfl⟩

theorem split_rendered {w : List Element} (h : ∀ x ∈ w, Piece x) (hapart : w.IsChain Apart) :
    split_elements ((w.flatMap render).map round_char) = w.map label := by
  induction w with
  | nil => rfl
  | cons x w ih =>
    rw [List.forall_mem_cons] at h
    have hw := ih h.2 hapart.tail
    rw [List.flatMap_cons, List.map_append, List.map_cons, ← hw]
    obtain ⟨hx, hrest⟩ := h
    cases hx with
    | name n =>
      have hname : (render (.name n.text)).map round_char = n.text := round_name n
      rw [hname]
      refine split_elements_name n ?_
      intro c hc
      cases w with
      | nil => cases hc
      | cons y w =>
        have hy : Element.is_name y = false := by
          have := (List.isChain_cons_cons.mp hapart).1
          simpa [Apart, Element.is_name] using this
        rw [List.flatMap_cons, List.map_append] at hc
        obtain ⟨d, hd, hhead⟩ := head_rendered (hrest y List.mem_cons_self) hy
          ((w.flatMap render).map round_char)
        rw [hhead] at hc
        obtain rfl := Option.some.inj hc
        exact hd
    | op op =>
      have hspace : ' ' ∈ license_operator_chars := by decide
      cases op with
      | BitAnd =>
        have hop : (render (.operator (Op.char .BitAnd))).map round_char = [' ', '&', ' '] := rfl
        rw [hop, List.cons_append, split_elements_operator hspace, List.cons_append,
          split_elements_operator (by decide), List.cons_append, split_elements_operator hspace]
        rfl
      | BitOr =>
        have hop : (render (.operator (Op.char .BitOr))).map round_char = [' ', '|', ' '] := rfl
        rw [hop, List.cons_append, split_elements_operator hspace, List.cons_append,
          split_elements_operator (by decide), List.cons_append, split_elements_operator hspace]
        rfl
    | opening =>
      have hop : (render (.operator '[')).map round_char = ['('] := rfl
      rw [hop, List.cons_append, split_elements_operator (by decide)]
      rfl
    | closing =>
      have hop : (render (.operator ']')).map round_char = [')'] := rfl
      rw [hop, List.cons_append, split_elements_operator (by decide)]
      rfl

theorem new_elements_label {w : List Element} (h : ∀ x ∈ w, Piece x) (hapart : w.IsChain Apart)
    (previous : Option Text)
    (hprevious : previous.any license_pattern = true → ∀ x ∈ w.head?, Element.is_name x = false) :
    new_elements previous (w.map label) = .ok (w.map round) := by
  induction w generalizing previous with
  | nil => rfl
  | cons x w ih =>
    rw [List.forall_mem_cons] at h
    obtain ⟨hx, hrest⟩ := h
    have hoperator : ∀ c, round_char c ∈ license_operator_chars →
        new_elements previous ((Element.operator c :: w).map label) =
          .ok ((Element.operator c :: w).map round) := by
      intro c hc
      have hw := ih hrest hapart.tail (some [round_char c])
        (fun hp => by simp [operator_pattern hc] at hp)
      simp only [List.map_cons, label, new_elements, operator_pattern hc, if_pos hc, hw]
      rfl
    cases hx with
    | name n =>
      have hw := ih hrest hapart.tail (some n.text) (by
        intro _ y hy
        cases w with
        | nil => cases hy
        | cons z w =>
          obtain rfl := Option.some.inj hy
          have := (List.isChain_cons_cons.mp hapart).1
          simpa [Apart, Element.is_name] using this)
      have hnot : previous.any license_pattern = false := by
        rw [← Bool.not_eq_true]
        intro hp
        exact absurd (hprevious hp _ rfl) (by simp [Element.is_name])
      simp only [List.map_cons, label, new_elements, n.pattern, hw, hnot]
      rfl
    | op op => exact hoperator _ (by cases op <;> decide)
    | opening => exact hoperator _ (by decide)
    | closing => exact hoperator _ (by decide)

theorem get_elements_rendered {w : List Element} (h : ∀ x ∈ w, Piece x) (hapart : w.IsChain Apart) :
    get_elements ((w.flatMap render).map round_char) = .ok (w.map round) := by
  unfold get_elements
  rw [split_rendered h hapart]
  exact new_elements_label h hapart none fun hp => by cases hp

/-! ## What a run keeps -/

theorem merged_ne_nil {q : List Char} (h : q ≠ []) : merged q ≠ [] := by
  rw [← List.dropLast_append_getLast h, merged_concat, merge_operator]
  split
  · simp
  · split
    · simp
    · split <;> simp

/-- What is written are names, operators and brackets, and names are never neighbours. -/
structure Tidy (m : Manifest) : Prop where
  operators : ∀ c ∈ m.operators, Piece (.operator c)
  pieces : ∀ x ∈ m.out, Piece x
  apart : m.out.IsChain Apart
  unnamed : m.licenses = [] → ∀ x ∈ m.out, Element.is_name x = false

/-- Behind a license an operator comes first. -/
def Ready (m : Manifest) : Prop := m.licenses ≠ [] → m.operators ≠ []

theorem isChain_unnamed {w : List Element} (h : ∀ x ∈ w, Element.is_name x = false) : w.IsChain Apart := by
  apply List.Pairwise.isChain
  apply List.pairwise_of_forall_mem_list
  intro x hx y _ hapart
  rw [h x hx] at hapart
  cases hapart.1

theorem isChain_append_unnamed {u v : List Element} (hu : u.IsChain Apart) (hv : v.IsChain Apart)
    (h : (∀ x ∈ u.getLast?, Element.is_name x = false) ∨ ∀ x ∈ v.head?, Element.is_name x = false) :
    (u ++ v).IsChain Apart := by
  rw [List.isChain_append]
  refine ⟨hu, hv, ?_⟩
  intro x hx y hy hapart
  rcases h with h | h
  · rw [h x hx] at hapart
    cases hapart.1
  · rw [h y hy] at hapart
    cases hapart.2

theorem Tidy.push {m : Manifest} (h : Tidy m) {c : Char} (hc : Piece (.operator c)) :
    Tidy { m with operators := m.operators ++ [c] } where
  operators := by
    intro d hd
    rcases List.mem_append.mp hd with hd | hd
    · exact h.operators d hd
    · rw [List.mem_singleton.mp hd]
      exact hc
  pieces := h.pieces
  apart := h.apart
  unnamed := h.unnamed

theorem Tidy.run {m : Manifest} (h : Tidy m) (hready : Ready m) (e : Expr) :
    Tidy (m.run wanted (e.elements '[' ']')) := by
  induction e generalizing m with
  | name n =>
    simp only [Expr.elements, run_cons, run_nil, Manifest.act]
    split
    · have hflush : ∀ c ∈ flush (decide (m.licenses ≠ [])) m.operators, c ∈ m.operators :=
        fun c hc => mem_merged (List.mem_of_mem_filter hc)
      have hunnamed : ∀ x ∈ (flush (decide (m.licenses ≠ [])) m.operators).map Element.operator,
          Element.is_name x = false := by
        intro x hx
        obtain ⟨c, -, rfl⟩ := List.mem_map.mp hx
        rfl
      refine ⟨by simp, ?_, ?_, by simp⟩
      · intro x hx
        rw [List.append_assoc, List.mem_append, List.mem_append, List.mem_singleton] at hx
        rcases hx with hx | hx | rfl
        · exact h.pieces x hx
        · obtain ⟨c, hc, rfl⟩ := List.mem_map.mp hx
          exact h.operators c (hflush c hc)
        · exact .name n
      · refine isChain_append_unnamed (isChain_append_unnamed h.apart (isChain_unnamed hunnamed)
          (Or.inr fun x hx => hunnamed x (List.mem_of_mem_head? hx))) (List.isChain_singleton _) (Or.inl ?_)
        -- before the name stands an operator, or nothing was named before
        intro x hx
        by_cases hstarted : m.licenses = []
        · rcases List.mem_append.mp (List.mem_of_mem_getLast? hx) with hx | hx
          · exact h.unnamed hstarted x hx
          · exact hunnamed x hx
        · have hne : (flush (decide (m.licenses ≠ [])) m.operators).map Element.operator ≠ [] := by
            simpa [flush, hstarted] using merged_ne_nil (hready hstarted)
          rw [List.getLast?_append, List.getLast?_eq_some_getLast hne, Option.some_or] at hx
          obtain rfl := Option.some.inj hx
          exact hunnamed _ (List.getLast_mem hne)
    · exact h
  | binary l op r ihl ihr =>
    rw [Expr.elements, run_append, run_cons, act_op]
    refine ihr ((ihl h hready).push (.op op)) ?_
    intro _
    simp
  | paren e ih =>
    rw [Expr.elements, run_cons, run_append]
    have hopen : Tidy (m.act wanted (.operator '[')) := h.push .opening
    have he := ih hopen fun _ => by simp [Manifest.act]
    exact {
      operators := he.operators
      pieces := by
        intro x hx
        rcases List.mem_append.mp hx with hx | hx
        · exact he.pieces x hx
        · rw [List.mem_singleton.mp hx]
          exact .closing
      apart := isChain_append_unnamed he.apart (List.isChain_singleton _)
        (Or.inr fun x hx => by rw [← Option.some.inj hx]; rfl)
      unnamed := by
        intro hnil x hx
        rcases List.mem_append.mp hx with hx | hx
        · exact he.unnamed hnil x hx
        · rw [List.mem_singleton.mp hx]
          rfl }

theorem run_operators {m : Manifest} (h : ']' ∉ m.operators) (e : Expr) :
    ']' ∉ (m.run wanted (e.elements '[' ']')).operators := by
  induction e generalizing m with
  | name n =>
    simp only [Expr.elements, run_cons, run_nil, Manifest.act]
    split
    · simp
    · exact h
  | binary l op r ihl ihr =>
    rw [Expr.elements, run_append, run_cons, act_op]
    have hop : ']' ≠ op.char := fun h => op_not_bracket op (Or.inr h.symm)
    exact ihr (by simp [ihl h, hop])
  | paren e ih =>
    rw [Expr.elements, run_cons, run_append]
    have hopen : ']' ∉ (m.act wanted (.operator '[')).operators := by simp [Manifest.act, h]
    exact ih hopen

theorem run_balance (e : Expr) {m : Manifest} (h : ']' ∉ m.operators) :
    (m.run wanted (e.elements '[' ']')).operators.count '[' +
        (m.run wanted (e.elements '[' ']')).out.count (.operator '[') + m.out.count (.operator ']') =
      m.operators.count '[' + m.out.count (.operator '[') +
        (m.run wanted (e.elements '[' ']')).out.count (.operator ']') := by
  induction e generalizing m with
  | name n =>
    simp only [Expr.elements, run_cons, run_nil, Manifest.act]
    split
    · have hcount : ∀ c, ((flush (decide (m.licenses ≠ [])) m.operators).map Element.operator).count
          (.operator c) = (flush (decide (m.licenses ≠ [])) m.operators).count c := fun c =>
        List.count_map_of_injective _ _ (fun _ _ h => Element.operator.inj h) c
      have hclosing : (flush (decide (m.licenses ≠ [])) m.operators).count ']' = 0 :=
        List.count_eq_zero.mpr fun hmem => h (mem_merged (List.mem_of_mem_filter hmem))
      rw [List.count_append, List.count_append, List.count_append, List.count_append, hcount, hcount, hclosing,
        count_flush]
      simp
      omega
    · omega
  | binary l op r ihl ihr =>
    rw [Expr.elements, run_append, run_cons, act_op]
    have hop : op.char ≠ '[' := fun h => op_not_bracket op (Or.inl h)
    have hop' : ']' ≠ op.char := fun h => op_not_bracket op (Or.inr h.symm)
    have hl := ihl h
    have hclosing := @run_operators wanted m h l
    generalize m.run wanted (l.elements '[' ']') = m1 at hl hclosing
    have hr := ihr (m := { m1 with operators := m1.operators ++ [op.char] }) (by simp [hclosing, hop'])
    simp only [List.count_append, List.count_singleton, beq_iff_eq, hop, if_false] at hr
    omega
  | paren e ih =>
    rw [Expr.elements, run_cons, run_append]
    have he := ih (m := { m with operators := m.operators ++ ['['] }) (by simp [h])
    have hopen : m.act wanted (.operator '[') = { m with operators := m.operators ++ ['['] } := rfl
    rw [hopen]
    generalize Manifest.run wanted _ (e.elements '[' ']') = m1 at he
    simp [Manifest.act] at he ⊢
    omega

/-! ## Well-formed elements -/

theorem expr_pieces (e : Expr) : ∀ x ∈ e.elements '[' ']', Piece x := by
  induction e with
  | name n => simpa [Expr.elements] using Piece.name n
  | binary l op r ihl ihr =>
    simp only [Expr.elements, List.forall_mem_append, List.forall_mem_cons]
    exact ⟨ihl, .op op, ihr⟩
  | paren e ih =>
    simp only [Expr.elements, List.forall_mem_cons, List.forall_mem_append]
    exact ⟨.opening, ih, .closing, by simp⟩

/-- What may follow what in an expression. -/
def Follows (x y : Element) : Prop := Apart x y ∧ (x = .operator '[' → ∀ c, y = .operator c → c = '[')

theorem expr_count (e : Expr) :
    (e.elements '[' ']').count (.operator '[') = (e.elements '[' ']').count (.operator ']') := by
  induction e with
  | name n => simp [Expr.elements]
  | binary l op r ihl ihr => cases op <;> simp [Expr.elements, Op.char, ihl, ihr]
  | paren e ih => simp [Expr.elements, ih]

theorem expr_head (opening closing : Char) (e : Expr) : ∃ x, (e.elements opening closing).head? = some x ∧
    (Element.is_name x = true ∨ x = .operator opening) := by
  induction e with
  | name n => exact ⟨_, rfl, Or.inl rfl⟩
  | binary l op r ihl ihr =>
    obtain ⟨x, hhead, hx⟩ := ihl
    refine ⟨x, ?_, hx⟩
    rw [Expr.elements, List.head?_append, hhead]
    rfl
  | paren e ih => exact ⟨_, rfl, Or.inr rfl⟩

theorem expr_last (e : Expr) : ∃ x, (e.elements '[' ']').getLast? = some x ∧ x ≠ .operator '[' := by
  induction e with
  | name n => exact ⟨_, rfl, by simp⟩
  | binary l op r ihl ihr =>
    obtain ⟨x, hlast, hx⟩ := ihr
    refine ⟨x, ?_, hx⟩
    rw [Expr.elements, List.getLast?_append, List.getLast?_cons, hlast]
    rfl
  | paren e ih =>
    refine ⟨.operator ']', ?_, by simp⟩
    rw [Expr.elements, List.getLast?_cons, List.getLast?_concat]
    rfl

theorem expr_follows (e : Expr) : (e.elements '[' ']').IsChain Follows := by
  induction e with
  | name n => exact List.isChain_singleton _
  | binary l op r ihl ihr =>
    obtain ⟨x, hlast, hx⟩ := expr_last l
    have hop : op.char ≠ '[' := fun h => op_not_bracket op (Or.inl h)
    rw [Expr.elements, List.isChain_append]
    refine ⟨ihl, List.isChain_cons.mpr ⟨?_, ihr⟩, ?_⟩
    · intro y _
      exact ⟨by simp [Apart, Element.is_name], fun h => absurd (Element.operator.inj h) hop⟩
    · intro y hy z hz
      rw [hlast] at hy
      obtain rfl := Option.some.inj hy
      obtain rfl := Option.some.inj hz
      exact ⟨by simp [Apart, Element.is_name], fun h => absurd h hx⟩
  | paren e ih =>
    obtain ⟨x, hhead, hx⟩ := expr_head '[' ']' e
    rw [Expr.elements, List.isChain_cons]
    refine ⟨?_, List.isChain_append.mpr ⟨ih, List.isChain_singleton _, ?_⟩⟩
    · intro y hy
      rw [List.head?_append, hhead] at hy
      obtain rfl := Option.some.inj hy
      refine ⟨by simp [Apart, Element.is_name], ?_⟩
      rintro - c rfl
      rcases hx with hx | hx
      · cases hx
      · exact Element.operator.inj hx
    · intro y hy z hz
      obtain ⟨x', hlast, hx'⟩ := expr_last e
      rw [hlast] at hy
      obtain rfl := Option.some.inj hy
      obtain rfl := Option.some.inj hz
      exact ⟨by simp [Apart, Element.is_name], fun h => absurd h hx'⟩

theorem expr_not_broken (e : Expr) : ¬Broken (e.elements '[' ']') := by
  rintro (h | ⟨u, c, v, h, hc⟩)
  · obtain ⟨x, hhead, hx⟩ := expr_head '[' ']' e
    rw [hhead] at h
    obtain rfl := Option.some.inj h
    simp [Element.is_name] at hx
  · have hfollows := expr_follows e
    rw [h, List.isChain_append_cons_cons] at hfollows
    exact hc (hfollows.2.1.2 rfl c rfl)

theorem square_elements (e : Expr) : (e.elements '(' ')').map square = e.elements '[' ']' := by
  induction e with
  | name n => rfl
  | binary l op r ihl ihr =>
    have hop : square (.operator op.char) = .operator op.char := by cases op <;> rfl
    rw [Expr.elements, List.map_append, List.map_cons, ihl, ihr, hop, Expr.elements]
  | paren e ih =>
    rw [Expr.elements, List.map_cons, List.map_append, ih, Expr.elements]
    rfl

theorem round_elements (e : Expr) : (e.elements '[' ']').map round = e.elements '(' ')' := by
  induction e with
  | name n => rfl
  | binary l op r ihl ihr =>
    have hop : round (.operator op.char) = .operator op.char := by cases op <;> rfl
    rw [Expr.elements, List.map_append, List.map_cons, ihl, ihr, hop, Expr.elements]
  | paren e ih =>
    rw [Expr.elements, List.map_cons, List.map_append, ih, Expr.elements]
    rfl

theorem square_round {x : Element} (h : Piece x) : square (round x) = x := by
  cases h with
  | name n => rfl
  | op op => cases op <;> rfl
  | opening => rfl
  | closing => rfl

theorem get_elements_expr (e : Expr) :
    get_elements (((e.elements '[' ']').flatMap render).map round_char) = .ok (e.elements '(' ')') := by
  rw [get_elements_rendered (expr_pieces e) ((expr_follows e).imp fun _ _ h => h.1), round_elements]

/-! ## The manifest -/

theorem run_licenses (e : Expr) (m : Manifest) : (m.run wanted (e.elements '[' ']')).licenses =
    m.licenses ++ (kept_names wanted e).map Name.text := by
  induction e generalizing m with
  | name n =>
    simp only [Expr.elements, run_cons, run_nil, Manifest.act, kept_names, Expr.names]
    by_cases hn : wanted n.text = true
    · simp [hn]
    · simp [hn]
  | binary l op r ihl ihr =>
    rw [Expr.elements, run_append, run_cons, act_op, ihr, kept_names_binary]
    simp [ihl]
  | paren e ih =>
    rw [Expr.elements, run_cons, run_append]
    exact ih _

section Manifest
variable (canonical_license : Text → Text) (dont_want_licenses : List Text)

/-- The licenses of the expression that are not unwanted, in their order. -/
def accepted (e : Expr) : List Text :=
  (kept_names (kept canonical_license dont_want_licenses) e).map Name.text

def visited (e : Expr) : Manifest :=
  Manifest.run (kept canonical_license dont_want_licenses) ⟨[], [], []⟩ (e.elements '[' ']')

theorem manifest_licenses_expr {licensestr : Text} {e : Expr}
    (h : get_elements licensestr = .ok (e.elements '(' ')')) :
    manifest_licenses canonical_license dont_want_licenses licensestr =
      .ok (((visited canonical_license dont_want_licenses e).out.flatMap render).map round_char,
        accepted canonical_license dont_want_licenses e) := by
  obtain ⟨n, hparse, hevents⟩ := parse_expr e
  have hvisit := visit_events canonical_license dont_want_licenses n ⟨[], [], []⟩
  have hlicenses := @run_licenses (kept canonical_license dont_want_licenses) e ⟨[], [], []⟩
  rw [hevents] at hvisit
  unfold manifest_licenses
  rw [h]
  dsimp only
  rw [square_elements, hparse]
  have hstart : (Manifest.visitor ⟨[], [], []⟩) = {} := rfl
  rw [hstart] at hvisit
  simp only [Option.elim_some, hvisit]
  unfold visited accepted
  simp [Manifest.visitor, hlicenses]

/-- A manifest is empty when no license is accepted. Else it is an expression of those that are. -/
def WellFormed (accepted : List Text) (manifest : Text) : Prop :=
  if accepted = [] then manifest = []
  else ∃ e : Expr, get_elements manifest = .ok (e.elements '(' ')') ∧ e.names.map Name.text = accepted

theorem render_ne_nil {x : Element} (h : Piece x) : (render x).map round_char ≠ [] := by
  cases h with
  | name n => simpa [render] using n.ne_nil
  | op op => cases op <;> simp [render, Op.char]
  | opening => simp [render]
  | closing => simp [render]

theorem visited_tidy (e : Expr) : Tidy (visited canonical_license dont_want_licenses e) :=
  Tidy.run ⟨by simp, by simp, List.IsChain.nil, by simp⟩ (fun h => absurd rfl h) e

theorem visited_licenses (e : Expr) : (visited canonical_license dont_want_licenses e).licenses =
    accepted canonical_license dont_want_licenses e :=
  @run_licenses (kept canonical_license dont_want_licenses) e ⟨[], [], []⟩

theorem not_written_of_stuck {e : Expr} (h : Stuck (visited canonical_license dont_want_licenses e))
    (part : Expr) : (visited canonical_license dont_want_licenses e).out ≠ part.elements '[' ']' := by
  intro hout
  rcases h with hbroken | ⟨-, hwaits⟩
  · rw [hout] at hbroken
    exact expr_not_broken part hbroken
  · have hbalance := @run_balance (kept canonical_license dont_want_licenses) e ⟨[], [], []⟩ (by simp)
    have hvisited : Manifest.run (kept canonical_license dont_want_licenses) ⟨[], [], []⟩ (e.elements '[' ']') =
      visited canonical_license dont_want_licenses e := rfl
    have hpos := List.count_pos_iff.mpr hwaits
    rw [hvisited, hout, expr_count] at hbalance
    simp only [List.count_nil] at hbalance
    omega

theorem out_nil_of_stuck {e : Expr} (h : Stuck (visited canonical_license dont_want_licenses e))
    (hnone : accepted canonical_license dont_want_licenses e = []) :
    (visited canonical_license dont_want_licenses e).out ≠ [] := by
  intro hout
  rcases h with (hhead | ⟨u, c, v, hsplit, -⟩) | ⟨hsome, -⟩
  · simp [hout] at hhead
  · simp [hout] at hsplit
  · exact hsome ((visited_licenses canonical_license dont_want_licenses e).trans hnone)

/-- For every license expression, `manifest_licenses` gives the licenses that are accepted. And the
text that it gives is an expression of these licenses exactly where parentheses hold one of them, and
begin with one unless it is the first. -/
theorem manifests_are_well_formed_iff {licensestr : Text} {e : Expr}
    (h : get_elements licensestr = .ok (e.elements '(' ')')) :
    (∃ manifest, manifest_licenses canonical_license dont_want_licenses licensestr =
        .ok (manifest, accepted canonical_license dont_want_licenses e) ∧
      WellFormed (accepted canonical_license dont_want_licenses e) manifest) ↔
    Fits (kept canonical_license dont_want_licenses) false e := by
  have hmanifest := manifest_licenses_expr canonical_license dont_want_licenses h
  have htidy := visited_tidy canonical_license dont_want_licenses e
  constructor
  · rintro ⟨manifest, hresult, hwell⟩
    rw [hmanifest] at hresult
    obtain ⟨rfl, -⟩ := Prod.mk.inj (Except.ok.inj hresult)
    by_contra hunfit
    have hstuck : Stuck (visited canonical_license dont_want_licenses e) := run_unfit (fun _ => rfl) hunfit
    unfold WellFormed at hwell
    split at hwell
    · rename_i hnone
      have hout := out_nil_of_stuck canonical_license dont_want_licenses hstuck hnone
      obtain ⟨x, rest, hsplit⟩ := List.exists_cons_of_ne_nil hout
      have hx := htidy.pieces x (hsplit ▸ List.mem_cons_self)
      rw [hsplit, List.flatMap_cons, List.map_append, List.append_eq_nil_iff] at hwell
      exact render_ne_nil hx hwell.1
    · obtain ⟨part, hpart, -⟩ := hwell
      rw [get_elements_rendered htidy.pieces htidy.apart] at hpart
      -- the elements of the text are those that the visitor wrote
      have hsquare := congrArg (List.map square) (Except.ok.inj hpart)
      rw [square_elements, List.map_map] at hsquare
      have hid : (visited canonical_license dont_want_licenses e).out.map (square ∘ round) =
          (visited canonical_license dont_want_licenses e).out.map id :=
        List.map_congr_left fun x hx => square_round (htidy.pieces x hx)
      rw [hid, List.map_id] at hsquare
      exact not_written_of_stuck canonical_license dont_want_licenses hstuck part hsquare
  · intro hfits
    have hcame := run_fits (kept canonical_license dont_want_licenses) e ⟨[], [], []⟩ hfits
    have hvisited : visited canonical_license dont_want_licenses e = Manifest.run
      (kept canonical_license dont_want_licenses) ⟨[], [], []⟩ (e.elements '[' ']') := rfl
    refine ⟨_, hmanifest, ?_⟩
    rw [hvisited]
    generalize Manifest.run (kept canonical_license dont_want_licenses) ⟨[], [], []⟩ _ = m at hcame
    unfold WellFormed accepted
    cases hcame with
    | @dropped q hno hq =>
      have hnil := (kept_names_eq_nil _).mpr hno
      simp [hnil]
    | @written o q part hsome ho hq hfirst hnames =>
      have hne : kept_names (kept canonical_license dont_want_licenses) e ≠ [] :=
        mt (kept_names_eq_nil _).mp (by simp [hsome])
      have hflush : flush false o = [] := flush_unstarted_append ho []
      rw [if_neg (by simpa using hne)]
      refine ⟨part, ?_, by rw [hnames]⟩
      simpa [hflush] using get_elements_expr part

end Manifest

theorem a_license_is_left_out :
    ∃ manifest, manifest_licenses id [text "GPL-*"] (text "MIT & (BSD-3-Clause | GPL-3.0-only)") =
      .ok (manifest, accepted id [text "GPL-*"]
        (.binary (.name mit) .BitAnd (.paren (.binary (.name bsd) .BitOr (.name gpl))))) ∧
      WellFormed (accepted id [text "GPL-*"]
        (.binary (.name mit) .BitAnd (.paren (.binary (.name bsd) .BitOr (.name gpl))))) manifest :=
  (manifests_are_well_formed_iff id [text "GPL-*"] (by decide +kernel)).mpr
    ⟨trivial, by decide +kernel, fun _ => by decide +kernel, trivial, trivial⟩

/-- The closing bracket is written before the opening one. -/
theorem brackets_are_crossed :
    ¬∃ manifest, manifest_licenses id [text "GPL-*"] (text "(GPL-3.0-only) & MIT") =
      .ok (manifest, [text "MIT"]) ∧ WellFormed [text "MIT"] manifest := by
  have hresult : manifest_licenses id [text "GPL-*"] (text "(GPL-3.0-only) & MIT") =
      .ok (text ")(MIT", [text "MIT"]) := by decide +kernel
  have helements : get_elements (text ")(MIT") =
      .ok [.operator ')', .operator '(', .name (text "MIT")] := by decide +kernel
  rintro ⟨manifest, hmanifest, hwell⟩
  rw [hresult] at hmanifest
  obtain ⟨rfl, -⟩ := Prod.mk.inj (Except.ok.inj hmanifest)
  rw [WellFormed, if_neg (by simp)] at hwell
  obtain ⟨e, he, -⟩ := hwell
  obtain ⟨x, hhead, hx⟩ := expr_head '(' ')' e
  rw [helements] at he
  rw [← Except.ok.inj he] at hhead
  obtain rfl := Option.some.inj hhead
  rcases hx with hx | hx <;> cases hx

end yocto.license_manifests
