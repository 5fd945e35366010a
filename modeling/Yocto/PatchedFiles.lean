-- The files that a patch touches.
import Yocto.PathComponents
import Yocto.TextLines

open yocto.task_ids yocto.data_smart yocto.text_lines

namespace yocto.patched_files

/-! ## The file -/

abbrev Bytes := List UInt8

/-- The bytes of one character: its value so far, and the bounds of the bytes still due. -/
structure Decoder where
  value : ℕ
  due : List (ℕ × ℕ)

def idle : Decoder := ⟨0, []⟩

/-- The first byte of a character. -/
def Decoder.first (b : ℕ) : Option Decoder :=
  if b ≤ 0x7F then some ⟨b, []⟩
  else if 0xC2 ≤ b ∧ b ≤ 0xDF then some ⟨b - 0xC0, [(0x80, 0xBF)]⟩
  else if b = 0xE0 then some ⟨0x0, [(0xA0, 0xBF), (0x80, 0xBF)]⟩
  else if b = 0xED then some ⟨0xD, [(0x80, 0x9F), (0x80, 0xBF)]⟩
  else if 0xE1 ≤ b ∧ b ≤ 0xEF then some ⟨b - 0xE0, [(0x80, 0xBF), (0x80, 0xBF)]⟩
  else if b = 0xF0 then some ⟨0x0, [(0x90, 0xBF), (0x80, 0xBF), (0x80, 0xBF)]⟩
  else if 0xF1 ≤ b ∧ b ≤ 0xF3 then some ⟨b - 0xF0, [(0x80, 0xBF), (0x80, 0xBF), (0x80, 0xBF)]⟩
  else if b = 0xF4 then some ⟨0x4, [(0x80, 0x8F), (0x80, 0xBF), (0x80, 0xBF)]⟩
  else none

def Decoder.byte (d : Decoder) (b : ℕ) : Option Decoder :=
  match d.due with
  | [] => Decoder.first b
  | (low, high) :: due => if low ≤ b ∧ b ≤ high then some ⟨64 * d.value + (b - 0x80), due⟩ else none

/-- The characters of some bytes, and what is due behind them; `none` where UTF-8 has no such bytes. -/
def Decoder.bytes : Decoder → Bytes → Option (Decoder × Text)
  | d, [] => some (d, [])
  | d, b :: rest => do
    let d ← d.byte b.toNat
    let (last, s) ← d.bytes rest
    return (last, if d.due = [] then Char.ofNat d.value :: s else s)

def utf_8 (file : Bytes) : Option Text := do
  let (d, s) ← idle.bytes file
  if d.due = [] then some s else none

/-- The bytes as latin-1, which reads any. -/
def latin_1 (file : Bytes) : Text := file.map fun b => Char.ofNat b.toNat

/-- The text of a file: UTF-8, and latin-1 if it is not that. -/
def text_of (file : Bytes) : Text := (utf_8 file).getD (latin_1 file)

/-- What the chunks of a file give before one that does not decode. -/
def ahead : Decoder → List Bytes → Text
  | _, [] => []
  | d, chunk :: rest => match d.bytes chunk with
    | none => []
    | some (d, s) => s ++ ahead d rest

/-- The lines that an open file gives, and whether a `UnicodeDecodeError` ends them. -/
structure Opened where
  lines : List Text
  fails : Bool

/-- `open(patchfile)` in the UTF-8 locale that bitbake sets. -/
def opened (file : Bytes) : Opened :=
  match utf_8 file with
  | some s => ⟨readlines s, false⟩
  | none =>
    let s := ahead idle (file.toChunks 8192)
    let s := if s.getLast? = some '\r' then s.dropLast else s
    ⟨(readlines s).filter fun line => line.getLast? = some '\n', true⟩

/-! ## `getPatchedFiles` -/

inductive Raised
  | index_error | unbound_local_error | patch_error
  deriving DecidableEq

/-- 'A' for add, 'D' for delete or 'M' for modify. -/
inductive Mode
  | A | D | M
  deriving DecidableEq

abbrev Entry := Text × Mode

def devnull : Text := text "/dev/null"

/-- `os.sep.join(filesplit[striplevel:])`. -/
def stripped (striplevel : ℕ) (filepth : Text) : Text := ['/'].intercalate ((filepth.splitOn '/').drop striplevel)

/-- `patchline.split()[1]`. -/
def name_of (patchline : Text) : Option Text := (words patchline)[1]?

def patchedpath (striplevel : ℕ) (patchline : Text) : Except Raised (Option Text) :=
  match name_of patchline with
  | none => .error .index_error
  | some filepth =>
    if devnull <:+ filepth then .ok (some devnull)
    else if striplevel > (filepth.splitOn '/').length then .ok none
    else .ok (some (stripped striplevel filepth))

/-- The variables of the loop. The two names are unbound before their first assignment. -/
structure Locals where
  copiedmode : Bool
  removedfile : Option (Option Text)
  addedfile : Option (Option Text)
  filelist : List Entry

/-- A name that is neither `None` nor empty. -/
def truthy (name : Option Text) : Bool := name.getD [] ≠ []

def mode (removedfile addedfile : Text) : Mode :=
  if removedfile = devnull then .A else if addedfile = devnull then .D else .M

/-- `fullpath`, for a `cwd`. -/
def fullpath (cwd : Text) (srcdir : Option Text) (addedfile : Text) : Text :=
  if truthy srcdir then path_components.abspath cwd (posix_path.join (srcdir.getD []) addedfile) else addedfile

/-- The end of the loop's body: an entry if there are both names. -/
def record (cwd : Text) (srcdir : Option Text) (s : Locals) : Except Raised Locals :=
  match s.addedfile with
  | none => .error .unbound_local_error
  | some addedfile =>
    if truthy addedfile then
      match s.removedfile with
      | none => .error .unbound_local_error
      | some removedfile =>
        if truthy removedfile then
          .ok { s with filelist := s.filelist ++
            [(fullpath cwd srcdir (addedfile.getD []), mode (removedfile.getD []) (addedfile.getD []))] }
        else .ok s
    else .ok s

def minus (line : Text) : Prop := text "--- " <+: line
def plus (line : Text) : Prop := text "+++ " <+: line
def star (line : Text) : Prop := text "*** " <+: line

instance (line : Text) : Decidable (minus line) := inferInstanceAs (Decidable (_ <+: _))
instance (line : Text) : Decidable (plus line) := inferInstanceAs (Decidable (_ <+: _))
instance (line : Text) : Decidable (star line) := inferInstanceAs (Decidable (_ <+: _))

/-- One turn of the loop; it is done at a `break`. -/
def turn (cwd : Text) (striplevel : ℕ) (srcdir : Option Text) (s : Locals) (line : Text) :
    Except Raised (ForInStep Locals) :=
  if minus line then do
    let patchpth ← patchedpath striplevel line
    if truthy patchpth then
      .yield <$> record cwd srcdir
        (if s.copiedmode then { s with addedfile := some patchpth } else { s with removedfile := some patchpth })
    else return .done s
  else if plus line then do
    let addedfile ← patchedpath striplevel line
    let s := { s with addedfile := some addedfile }
    if truthy addedfile then .yield <$> record cwd srcdir s else return .done s
  else if star line then do
    let removedfile ← patchedpath striplevel line
    let s := { s with copiedmode := true, removedfile := some removedfile }
    if truthy removedfile then .yield <$> record cwd srcdir s else return .done s
  else .yield <$> record cwd srcdir { s with removedfile := some none, addedfile := some none }

def scan (cwd : Text) (striplevel : ℕ) (srcdir : Option Text) : Locals → List Text → Except Raised (ForInStep Locals)
  | s, [] => .ok (.yield s)
  | s, line :: rest => do
    match ← turn cwd striplevel srcdir s line with
    | .done s => return .done s
    | .yield s => scan cwd striplevel srcdir s rest

/-- `for encoding in ...`: the file is opened without the encoding, and what the locals hold
after an attempt that failed they hold in the next. -/
def attempts (cwd : Text) (file : Bytes) (striplevel : ℕ) (srcdir : Option Text) :
    Locals → List Text → Except Raised (List Entry)
  | _, [] => .error .patch_error
  | s, _encoding :: rest => do
    match ← scan cwd striplevel srcdir { s with copiedmode := false, filelist := [] } (opened file).lines with
    | .done s => return s.filelist
    | .yield s => if (opened file).fails then attempts cwd file striplevel srcdir s rest else return s.filelist

def getPatchedFiles (cwd : Text) (file : Bytes) (striplevel : ℕ) (srcdir : Option Text) :
    Except Raised (List Entry) :=
  attempts cwd file striplevel srcdir ⟨false, none, none, []⟩ [text "utf-8", text "latin-1"]

/-! ## Patches -/

/-- A name in a header line, with a stamp behind it. -/
structure Named where
  path : Text
  stamp : Text
  nonempty : path ≠ []
  bare : '\t' ∉ path ∧ '\n' ∉ path
  apart : stamp = [] ∨ ∃ t, stamp = '\t' :: t ∨ stamp = '\n' :: t

def Named.old_line (name : Named) : Text := text "--- " ++ (name.path ++ name.stamp)
def Named.new_line (name : Named) : Text := text "+++ " ++ (name.path ++ name.stamp)

/-- A line of a hunk, by its first characters. -/
inductive HunkLine
  | context (t : Text) | removed (t : Text) | added (t : Text) | note (t : Text)

def HunkLine.line : HunkLine → Text
  | .context t => ' ' :: t
  | .removed t => '-' :: t
  | .added t => '+' :: t
  | .note t => '\\' :: t

structure Hunk where
  range : Text
  lines : List HunkLine

def Hunk.all_lines (h : Hunk) : List Text := (text "@@" ++ h.range) :: h.lines.map HunkLine.line

/-- What a patch says of one file. -/
structure Section where
  header : List Text
  plain : ∀ line ∈ header, ¬ minus line ∧ ¬ plus line ∧ ¬ star line
  old : Named
  new : Named
  one : old.path ≠ devnull ∨ new.path ≠ devnull
  hunks : List Hunk

def Section.hunk_lines (s : Section) : List Text := s.hunks.flatMap Hunk.all_lines

def Section.lines (s : Section) : List Text :=
  s.header ++ s.old.old_line :: s.new.new_line :: s.hunk_lines

/-- A file of any bytes whose lines are those of sections. -/
structure Patch where
  file : Bytes
  sections : List Section
  content : readlines (text_of file) = sections.flatMap Section.lines

/-- The names that a strip level leaves something of. -/
def Section.Valid (n : ℕ) (s : Section) : Prop :=
  (s.old.path = devnull ∨ stripped n s.old.path ≠ []) ∧ (s.new.path = devnull ∨ stripped n s.new.path ≠ [])

def Section.entry (n : ℕ) (s : Section) : Entry :=
  if s.old.path = devnull then (stripped n s.new.path, .A)
  else if s.new.path = devnull then (stripped n s.old.path, .D)
  else (stripped n s.new.path, .M)

def Patch.Valid (n : ℕ) (p : Patch) : Prop := ∀ s ∈ p.sections, s.Valid n

/-- At every strip level, the files are those of the sections. -/
def Listed (p : Patch) : Prop :=
  ∀ cwd n, p.Valid n → getPatchedFiles cwd p.file n none = .ok (p.sections.map (Section.entry n))

/-! ## When the files are those of the sections -/

def path_of (n : ℕ) (name : Text) : Text := if devnull <:+ name then devnull else stripped n name

def Reads (n : ℕ) (line path : Text) : Prop := ∃ name, name_of line = some name ∧ path = path_of n name ∧ path ≠ []

def Readable (n : ℕ) (line : Text) : Prop := ∃ path, Reads n line path

/-- A line that looks like a header. -/
def Marked (line : Text) : Prop := minus line ∨ plus line

/-- One line looks like the header of the old file, the other like that of the new one. -/
def Opposite (a b : Text) : Prop := (minus a ∧ plus b) ∨ (plus a ∧ minus b)

/-- The names of a section are told as they are: nothing is cut from the new one, and the null
device is where it is said to be, and not the new file. -/
structure Section.Told (s : Section) : Prop where
  new_space : ∀ c ∈ s.new.path, isspace c = false
  new_kept : ¬ devnull <:+ s.new.path
  old_null : ∀ name, name_of s.old.old_line = some name → (devnull <:+ name ↔ s.old.path = devnull)

/-- The lines from the name of a new file to that of the next old one, or to the end. -/
def gaps : List Section → List (List Text)
  | [] => []
  | [s] => [s.hunk_lines]
  | s :: next :: rest =>
    (s.new.new_line :: (s.hunk_lines ++ (next.header ++ [next.old.old_line]))) :: gaps (next :: rest)

/-- The file is UTF-8, it begins with a header text, every name is told as it is, no two lines of
opposite looks stand together but the two of a section, and no line that looks like a header
but that may be the last section's cuts the patch off, at any strip level. -/
structure Patch.Regular (p : Patch) : Prop where
  decodes : (utf_8 p.file).isSome = true
  headed : ∀ s, p.sections.head? = some s → s.header ≠ []
  told : ∀ s ∈ p.sections, s.Told
  apart : ∀ gap ∈ gaps p.sections, gap.IsChain fun a b => ¬ Opposite a b
  named : ∀ s ∈ p.sections, ∀ line ∈ s.hunk_lines, Marked line → Readable 0 line
  old_reached : ∀ n, p.Valid n → ∀ s ∈ p.sections, Readable n s.old.old_line
  reached : ∀ n, p.Valid n → ∀ s ∈ p.sections.dropLast, ∀ line ∈ s.hunk_lines, Marked line → Readable n line

/-! ## Names -/

theorem devnull_word : Word devnull := by
  unfold devnull
  exact Word.of_all (by decide) (by decide)

theorem devnull_ne_nil : devnull ≠ [] := devnull_word.nonempty

theorem stripped_suffix (n : ℕ) (name : Text) : stripped n name <:+ name := by
  have hall : ['/'].intercalate (name.splitOn '/') = name := List.intercalate_splitOn '/'
  unfold stripped
  conv_rhs => rw [← hall]
  generalize name.splitOn '/' = parts
  induction n generalizing parts with
  | zero => simp
  | succ n ih =>
    cases parts with
    | nil => simp
    | cons part parts =>
      rw [List.drop_succ_cons]
      refine (ih parts).trans ?_
      cases parts with
      | nil => simp
      | cons next parts =>
        refine ⟨part ++ ['/'], ?_⟩
        simp [List.intercalate, List.intersperse]

theorem stripped_zero (name : Text) : stripped 0 name = name := by
  unfold stripped
  rw [List.drop_zero]
  exact List.intercalate_splitOn '/'

theorem path_of_eq_devnull (n : ℕ) (name : Text) : path_of n name = devnull ↔ devnull <:+ name := by
  unfold path_of
  split
  · rename_i h
    simp [h]
  · rename_i h
    simp only [h, iff_false]
    intro heq
    exact h (heq ▸ stripped_suffix n name)

theorem path_of_zero_ne_nil {name : Text} (h : name ≠ []) : path_of 0 name ≠ [] := by
  unfold path_of
  split
  · exact devnull_ne_nil
  · rw [stripped_zero]
    exact h

theorem name_ne_nil {line name : Text} (h : name_of line = some name) : name ≠ [] :=
  (mem_words (List.mem_of_getElem? h)).1

theorem readable_zero {line name : Text} (h : name_of line = some name) : Readable 0 line :=
  ⟨path_of 0 name, name, h, rfl, path_of_zero_ne_nil (name_ne_nil h)⟩

theorem name_of_marker {marker : Text} (hmarker : Word marker) (s : Text) :
    name_of (marker ++ ' ' :: s) = (words s).head? := by
  unfold name_of
  rw [words_cons hmarker (by decide), List.getElem?_cons_succ, List.head?_eq_getElem?]

theorem words_named {name : Named} (h : ∀ c ∈ name.path, isspace c = false) :
    (words (name.path ++ name.stamp)).head? = some name.path := by
  rcases name.apart with hstamp | ⟨t, hstamp | hstamp⟩
  · rw [hstamp, List.append_nil, words_of_part h, if_neg name.nonempty]
    rfl
  · rw [hstamp, words_cons ⟨name.nonempty, h⟩ (by decide)]
    rfl
  · rw [hstamp, words_cons ⟨name.nonempty, h⟩ (by decide)]
    rfl

theorem name_of_new_line (name : Named) : name_of name.new_line = (words (name.path ++ name.stamp)).head? :=
  @name_of_marker (text "+++") (Word.of_all (by decide) (by decide)) (name.path ++ name.stamp)

theorem name_is_read_iff (name : Named) :
    (words (name.path ++ name.stamp)).head? = some name.path ↔ ∀ c ∈ name.path, isspace c = false := by
  refine ⟨fun h => ?_, words_named⟩
  exact (mem_words (List.mem_of_head? h)).2

/-! ## Lines -/

theorem minus_old_line (name : Named) : minus name.old_line := List.prefix_append _ _

theorem plus_new_line (name : Named) : plus name.new_line := List.prefix_append _ _

theorem head_of_minus {line : Text} (h : minus line) : line.head? = some '-' := by
  obtain ⟨t, rfl⟩ := h
  rfl

theorem head_of_plus {line : Text} (h : plus line) : line.head? = some '+' := by
  obtain ⟨t, rfl⟩ := h
  rfl

theorem head_of_star {line : Text} (h : star line) : line.head? = some '*' := by
  obtain ⟨t, rfl⟩ := h
  rfl

theorem not_minus_of_plus {line : Text} (h : plus line) : ¬ minus line := by
  intro hminus
  have := (head_of_minus hminus).symm.trans (head_of_plus h)
  simp at this

theorem not_star_hunk_lines {s : Section} : ∀ line ∈ s.hunk_lines, ¬ star line := by
  intro line hline hstar
  have hhead := head_of_star hstar
  simp only [Section.hunk_lines, List.mem_flatMap, Hunk.all_lines, List.mem_cons, List.mem_map] at hline
  obtain ⟨h, -, rfl | ⟨l, -, rfl⟩⟩ := hline
  · simp [text] at hhead
  · cases l <;> simp [HunkLine.line] at hhead

theorem hunk_lines_head {s : Section} : ∀ line, s.hunk_lines.head? = some line → ¬ minus line ∧ ¬ plus line := by
  intro line hline
  unfold Section.hunk_lines at hline
  cases hhunks : s.hunks with
  | nil => simp [hhunks] at hline
  | cons h hs =>
    rw [hhunks, List.flatMap_cons, Hunk.all_lines, List.cons_append, List.head?_cons, Option.some_inj] at hline
    subst hline
    constructor <;> intro hmark
    · simpa [text] using head_of_minus hmark
    · simpa [text] using head_of_plus hmark

/-! ## One turn -/

section turns

variable {cwd : Text} {n : ℕ}

def bound (r a : Option Text) (acc : List Entry) : Locals := ⟨false, some r, some a, acc⟩

/-- A name that is not `None` is not empty. -/
def Filled (r : Option Text) : Prop := ∀ p, r = some p → p ≠ []

def entries : Option Text → Option Text → List Entry
  | some r, some a => [(a, mode r a)]
  | _, _ => []

theorem filled_none : Filled none := by
  intro p hp
  cases hp

theorem Reads.filled {line p : Text} (h : Reads n line p) : Filled (some p) := by
  intro q hq
  obtain ⟨-, -, -, hne⟩ := h
  exact Option.some_inj.mp hq ▸ hne

theorem truthy_filled {r : Option Text} (h : Filled r) : truthy r = r.isSome := by
  cases r with
  | none => rfl
  | some p => simpa [truthy] using h p rfl

theorem entries_none (a : Option Text) : entries none a = [] := by
  cases a <;> rfl

theorem entries_none_right (r : Option Text) : entries r none = [] := by
  cases r <;> rfl

theorem entries_eq_nil {r a : Option Text} : entries r a = [] ↔ r = none ∨ a = none := by
  cases r <;> cases a <;> simp [entries]

theorem record_bound {r a : Option Text} (hr : Filled r) (ha : Filled a) (acc : List Entry) :
    record cwd none (bound r a acc) = .ok (bound r a (acc ++ entries r a)) := by
  unfold record bound
  dsimp only
  rw [truthy_filled ha]
  cases a with
  | none => simp [entries_none_right]
  | some a =>
    rw [Option.isSome_some, if_pos rfl, truthy_filled hr]
    cases r with
    | none => simp [entries_none]
    | some r => simp [entries, fullpath, truthy]

theorem patchedpath_of_reads {line p : Text} (h : Reads n line p) : patchedpath n line = .ok (some p) := by
  obtain ⟨name, hname, rfl, hne⟩ := h
  unfold patchedpath
  rw [hname]
  unfold path_of at hne ⊢
  dsimp only
  split
  · rfl
  · rename_i hnull
    rw [if_neg hnull] at hne
    rw [if_neg]
    intro hlen
    apply hne
    unfold stripped
    rw [List.drop_eq_nil_of_le (le_of_lt hlen)]
    rfl

theorem patchedpath_of_nameless {line : Text} (h : name_of line = none) : patchedpath n line = .error .index_error := by
  unfold patchedpath
  rw [h]

theorem patchedpath_of_not_readable {line name : Text} (hname : name_of line = some name) (h : ¬ Readable n line) :
    ∃ q, patchedpath n line = .ok q ∧ truthy q = false := by
  have hpath : path_of n name = [] := by
    by_contra hne
    exact h ⟨path_of n name, name, hname, rfl, hne⟩
  unfold path_of at hpath
  unfold patchedpath
  rw [hname]
  dsimp only
  split at hpath
  · exact absurd hpath devnull_ne_nil
  · rename_i hnull
    rw [if_neg hnull]
    split
    · exact ⟨none, rfl, rfl⟩
    · exact ⟨some (stripped n name), rfl, by simp [truthy, hpath]⟩

theorem turn_other {line : Text} (h : ¬ Marked line) (hstar : ¬ star line) {s : Locals} (hs : s.copiedmode = false) :
    turn cwd n none s line = .ok (.yield (bound none none s.filelist)) := by
  obtain ⟨hminus, hplus⟩ := not_or.mp h
  have hrecord := @record_bound cwd none none filled_none filled_none s.filelist
  rw [entries_none, List.append_nil] at hrecord
  unfold turn
  rw [if_neg hminus, if_neg hplus, if_neg hstar, hs]
  unfold bound at hrecord
  rw [hrecord]
  rfl

theorem turn_minus {line p : Text} (h : minus line) (hp : Reads n line p) {a : Option Text} (ha : Filled a)
    (r : Option Text) (acc : List Entry) :
    turn cwd n none (bound r a acc) line = .ok (.yield (bound (some p) a (acc ++ entries (some p) a))) := by
  unfold turn
  rw [if_pos h, patchedpath_of_reads hp]
  have hrecord := @record_bound cwd (some p) a hp.filled ha acc
  have htruthy : truthy (some p) = true := truthy_filled hp.filled
  simp only [bound, bind, Except.bind, htruthy, if_true, Bool.false_eq_true, if_false] at hrecord ⊢
  rw [hrecord]
  rfl

theorem turn_plus {line p : Text} (h : plus line) (hp : Reads n line p) {r : Option Text} (hr : Filled r)
    (a : Option Text) (acc : List Entry) :
    turn cwd n none (bound r a acc) line = .ok (.yield (bound r (some p) (acc ++ entries r (some p)))) := by
  unfold turn
  rw [if_neg (not_minus_of_plus h), if_pos h, patchedpath_of_reads hp]
  have hrecord := @record_bound cwd r (some p) hr hp.filled acc
  have htruthy : truthy (some p) = true := truthy_filled hp.filled
  simp only [bound, bind, Except.bind, htruthy, if_true] at hrecord ⊢
  rw [hrecord]
  rfl

theorem turn_stops {line name : Text} (h : Marked line) (hname : name_of line = some name) (hnot : ¬ Readable n line)
    (s : Locals) : ∃ s', turn cwd n none s line = .ok (.done s') ∧ s'.filelist = s.filelist := by
  obtain ⟨q, hq, hfalsy⟩ := patchedpath_of_not_readable hname hnot
  unfold turn
  by_cases hminus : minus line
  · rw [if_pos hminus, hq]
    exact ⟨s, by simp [bind, Except.bind, hfalsy, pure, Except.pure], rfl⟩
  · rw [if_neg hminus, if_pos (h.resolve_left hminus), hq]
    exact ⟨{ s with addedfile := some q }, by simp [bind, Except.bind, hfalsy, pure, Except.pure], rfl⟩

theorem turn_nameless {line : Text} (h : Marked line) (hname : name_of line = none) (s : Locals) :
    turn cwd n none s line = .error .index_error := by
  unfold turn
  rw [patchedpath_of_nameless hname]
  rcases h with h | h
  · rw [if_pos h]
    rfl
  · rw [if_neg (not_minus_of_plus h), if_pos h]
    rfl

/-! ## Many turns -/

theorem scan_yield {s s' : Locals} {line : Text} (h : turn cwd n none s line = .ok (.yield s')) (rest : List Text) :
    scan cwd n none s (line :: rest) = scan cwd n none s' rest := by
  rw [scan, h]
  rfl

theorem scan_done {s s' : Locals} {line : Text} (h : turn cwd n none s line = .ok (.done s')) (rest : List Text) :
    scan cwd n none s (line :: rest) = .ok (.done s') := by
  rw [scan, h]
  rfl

theorem scan_error {s : Locals} {line : Text} {e : Raised} (h : turn cwd n none s line = .error e)
    (rest : List Text) : scan cwd n none s (line :: rest) = .error e := by
  rw [scan, h]
  rfl

def out : ForInStep Locals → List Entry
  | .done s => s.filelist
  | .yield s => s.filelist

/-- The first of some lines makes no entry with the names that are there. -/
def Fits (r a : Option Text) (lines : List Text) : Prop :=
  ∀ line, lines.head? = some line → (minus line → a = none) ∧ (plus line → r = none)

theorem fits_of_not_marked {r a : Option Text} {lines : List Text}
    (h : ∀ line, lines.head? = some line → ¬ Marked line) : Fits r a lines := by
  intro line hline
  exact ⟨fun hminus => absurd (Or.inl hminus) (h line hline), fun hplus => absurd (Or.inr hplus) (h line hline)⟩

theorem fits_none (lines : List Text) : Fits none none lines := fun _ _ => ⟨fun _ => rfl, fun _ => rfl⟩

/-- The loop stops in some lines, or it runs through them; it makes no entry. -/
def Through (cwd : Text) (n : ℕ) (r a : Option Text) (acc : List Entry) (lines tail rest : List Text) : Prop :=
  ((∃ line ∈ lines, Marked line ∧ ¬ Readable n line) ∧
    ∃ s, scan cwd n none (bound r a acc) (lines ++ rest) = .ok (.done s) ∧ s.filelist = acc) ∨
  ((∀ line ∈ lines, Marked line → Readable n line) ∧ ∃ r' a', Filled r' ∧ Filled a' ∧ Fits r' a' tail ∧
    scan cwd n none (bound r a acc) (lines ++ rest) = scan cwd n none (bound r' a' acc) rest)

theorem Through.cons {r a r₁ a₁ : Option Text} {acc : List Entry} {line : Text} {lines tail rest : List Text}
    (h : Through cwd n r₁ a₁ acc lines tail rest) (hread : Marked line → Readable n line)
    (hturn : turn cwd n none (bound r a acc) line = .ok (.yield (bound r₁ a₁ acc))) :
    Through cwd n r a acc (line :: lines) tail rest := by
  unfold Through at h ⊢
  rw [← scan_yield hturn, ← List.cons_append] at h
  rcases h with ⟨⟨l, hl, hnot⟩, hstops⟩ | ⟨hreads, hruns⟩
  · exact Or.inl ⟨⟨l, List.mem_cons_of_mem _ hl, hnot⟩, hstops⟩
  · refine Or.inr ⟨?_, hruns⟩
    rw [List.forall_mem_cons]
    exact ⟨hread, hreads⟩

theorem scan_apart {lines tail : List Text} (hstar : ∀ line ∈ lines, ¬ star line)
    (hnames : ∀ line ∈ lines, Marked line → ∃ name, name_of line = some name)
    (hapart : (lines ++ tail).IsChain fun a b => ¬ Opposite a b) {r a : Option Text} (hr : Filled r) (ha : Filled a)
    (hfits : Fits r a (lines ++ tail)) (acc : List Entry) (rest : List Text) :
    Through cwd n r a acc lines tail rest := by
  induction lines generalizing r a with
  | nil => exact Or.inr ⟨by simp, r, a, hr, ha, hfits, rfl⟩
  | cons line lines ih =>
    rw [List.forall_mem_cons] at hstar hnames
    rw [List.cons_append, List.isChain_cons] at hapart
    obtain ⟨hnext, hapart⟩ := hapart
    obtain ⟨hminus_fits, hplus_fits⟩ := hfits line rfl
    by_cases hmark : Marked line
    · obtain ⟨name, hname⟩ := hnames.1 hmark
      by_cases hread : Readable n line
      · obtain ⟨p, hp⟩ := hread
        rcases hmark with hminus | hplus
        · have hturn := @turn_minus cwd n line p hminus hp a ha r acc
          rw [hminus_fits hminus, entries_none_right, List.append_nil] at hturn
          rw [hminus_fits hminus]
          refine (ih hstar.2 hnames.2 hapart hp.filled filled_none ?_).cons (fun _ => ⟨p, hp⟩) hturn
          intro l hl
          exact ⟨fun _ => rfl, fun hplus => absurd (Or.inl ⟨hminus, hplus⟩) (hnext l hl)⟩
        · have hturn := @turn_plus cwd n line p hplus hp r hr a acc
          rw [hplus_fits hplus, entries_none, List.append_nil] at hturn
          rw [hplus_fits hplus]
          refine (ih hstar.2 hnames.2 hapart filled_none hp.filled ?_).cons (fun _ => ⟨p, hp⟩) hturn
          intro l hl
          exact ⟨fun hminus => absurd (Or.inr ⟨hplus, hminus⟩) (hnext l hl), fun _ => rfl⟩
      · obtain ⟨s, hturn, hs⟩ := @turn_stops cwd n line name hmark hname hread (bound r a acc)
        exact Or.inl ⟨⟨line, List.mem_cons_self, hmark, hread⟩, s, scan_done hturn _, hs⟩
    · refine (ih hstar.2 hnames.2 hapart filled_none filled_none (fits_none _)).cons (fun h => absurd h hmark) ?_
      exact turn_other hmark hstar.1 rfl

/-- At level zero a run through some lines has read them all, and where it made no entry they stand
apart. -/
def Came (cwd : Text) (r a : Option Text) (acc : List Entry) (lines rest : List Text) (f : ForInStep Locals) : Prop :=
  (∀ line ∈ lines, Marked line → Readable 0 line) ∧ ∃ r' a' more, Filled r' ∧ Filled a' ∧
    scan cwd 0 none (bound r' a' (acc ++ more)) rest = .ok f ∧
    (more = [] → ∀ tail : List Text, (tail.IsChain fun a b => ¬ Opposite a b) → Fits r' a' tail →
      ((lines ++ tail).IsChain fun a b => ¬ Opposite a b) ∧ Fits r a (lines ++ tail))

theorem Came.cons {r a r₁ a₁ : Option Text} {acc made : List Entry} {line : Text} {lines rest : List Text}
    {f : ForInStep Locals} (h : Came cwd r₁ a₁ (acc ++ made) lines rest f) (hread : Marked line → Readable 0 line)
    (hmade : made = [] → (minus line → a = none ∧ r₁ ≠ none) ∧ (plus line → r = none ∧ a₁ ≠ none)) :
    Came cwd r a acc (line :: lines) rest f := by
  obtain ⟨hreads, r', a', more, hr', ha', hrest, hquiet⟩ := h
  refine ⟨?_, r', a', made ++ more, hr', ha', ?_, ?_⟩
  · rw [List.forall_mem_cons]
    exact ⟨hread, hreads⟩
  · rwa [← List.append_assoc]
  · intro hnil tail hapart hfits
    obtain ⟨hmade_nil, hmore_nil⟩ := List.append_eq_nil_iff.mp hnil
    obtain ⟨hchain, hfits₁⟩ := hquiet hmore_nil tail hapart hfits
    obtain ⟨hminus, hplus⟩ := hmade hmade_nil
    constructor
    · rw [List.cons_append, List.isChain_cons]
      refine ⟨fun l hl => ?_, hchain⟩
      rintro (⟨hl₁, hl₂⟩ | ⟨hl₁, hl₂⟩)
      · exact (hminus hl₁).2 ((hfits₁ l hl).2 hl₂)
      · exact (hplus hl₁).2 ((hfits₁ l hl).1 hl₂)
    · intro l hl
      rw [List.cons_append, List.head?_cons, Option.some_inj] at hl
      subst hl
      exact ⟨fun h => (hminus h).1, fun h => (hplus h).1⟩

theorem scan_came {lines : List Text} (hstar : ∀ line ∈ lines, ¬ star line) {r a : Option Text} (hr : Filled r)
    (ha : Filled a) {acc : List Entry} {rest : List Text} {f : ForInStep Locals}
    (h : scan cwd 0 none (bound r a acc) (lines ++ rest) = .ok f) : Came cwd r a acc lines rest f := by
  induction lines generalizing r a acc with
  | nil =>
    refine ⟨by simp, r, a, [], hr, ha, ?_, fun _ tail hapart hfits => ⟨hapart, hfits⟩⟩
    rwa [List.append_nil]
  | cons line lines ih =>
    rw [List.forall_mem_cons] at hstar
    rw [List.cons_append] at h
    by_cases hmark : Marked line
    · cases hname : name_of line with
      | none =>
        rw [scan_error (turn_nameless hmark hname _)] at h
        cases h
      | some name =>
        obtain ⟨p, hp⟩ := readable_zero hname
        rcases hmark with hminus | hplus
        · rw [scan_yield (turn_minus hminus hp ha r acc)] at h
          refine (ih hstar.2 hp.filled ha h).cons (fun _ => ⟨p, hp⟩) ?_
          intro hnil
          refine ⟨fun _ => ⟨?_, by simp⟩, fun hplus => absurd hminus (not_minus_of_plus hplus)⟩
          exact (entries_eq_nil.mp hnil).resolve_left (by simp)
        · rw [scan_yield (turn_plus hplus hp hr a acc)] at h
          refine (ih hstar.2 hr hp.filled h).cons (fun _ => ⟨p, hp⟩) ?_
          intro hnil
          refine ⟨fun hminus => absurd hminus (not_minus_of_plus hplus), fun _ => ⟨?_, by simp⟩⟩
          exact (entries_eq_nil.mp hnil).resolve_right (by simp)
    · rw [scan_yield (turn_other hmark hstar.1 rfl), ← List.append_nil (bound r a acc).filelist] at h
      refine (ih hstar.2 filled_none filled_none h).cons (fun h => absurd h hmark) ?_
      intro _
      exact ⟨fun h => absurd (Or.inl h) hmark, fun h => absurd (Or.inr h) hmark⟩

end turns

/-! ## One section -/

section sections

variable {cwd : Text} {n : ℕ}

theorem not_marked_header {s : Section} : ∀ line ∈ s.header, ¬ Marked line :=
  fun line hline hmark => hmark.elim (s.plain line hline).1 (s.plain line hline).2.1

theorem not_star_between {lines : List Text} (hstar : ∀ line ∈ lines, ¬ star line) (s : Section) :
    ∀ line ∈ lines ++ s.header, ¬ star line := by
  intro line hline
  rcases List.mem_append.mp hline with hline | hline
  · exact hstar line hline
  · exact (s.plain line hline).2.2

theorem Section.Told.new_ne {s : Section} (h : s.Told) : s.new.path ≠ devnull :=
  fun heq => h.new_kept (heq ▸ List.suffix_refl _)

theorem Section.Told.new_reads {s : Section} (h : s.Told) (hvalid : s.Valid n) :
    Reads n s.new.new_line (stripped n s.new.path) := by
  refine ⟨s.new.path, ?_, ?_, hvalid.2.resolve_left h.new_ne⟩
  · rw [name_of_new_line]
    exact words_named h.new_space
  · unfold path_of
    rw [if_neg h.new_kept]

theorem Reads.eq {line p q : Text} (hp : Reads n line p) (hq : Reads n line q) : p = q := by
  obtain ⟨name, hname, rfl, -⟩ := hp
  obtain ⟨name', hname', rfl, -⟩ := hq
  rw [hname] at hname'
  rw [Option.some_inj.mp hname']

theorem Section.Told.entry_eq {s : Section} (h : s.Told) {p q : Text} (hvalid : s.Valid n)
    (hp : Reads n s.old.old_line p) (hq : Reads n s.new.new_line q) : (q, mode p q) = s.entry n := by
  obtain rfl := hq.eq (h.new_reads hvalid)
  obtain ⟨name, hname, rfl, -⟩ := hp
  have hold : path_of n name = devnull ↔ s.old.path = devnull :=
    (path_of_eq_devnull n name).trans (h.old_null name hname)
  have hnew : stripped n s.new.path ≠ devnull :=
    fun heq => h.new_kept (heq ▸ stripped_suffix n s.new.path)
  unfold mode Section.entry
  simp only [hold, hnew, h.new_ne, if_false]
  split <;> rfl

theorem told_of_entry {s : Section} {p q : Text} (hp : Reads 0 s.old.old_line p) (hq : Reads 0 s.new.new_line q)
    (h : (q, mode p q) = s.entry 0) : s.Told := by
  obtain ⟨old, hold, rfl, -⟩ := hp
  obtain ⟨new, hnew, rfl, -⟩ := hq
  have hone := s.one
  unfold Section.entry mode at h
  simp only [path_of_eq_devnull, stripped_zero] at h
  -- The new file is not the null device: its own name is told for it, and not the old one.
  have hne : s.new.path ≠ devnull := by
    intro heq
    have hdevnull : new = devnull := by
      have hspace : ∀ c ∈ s.new.path, isspace c = false := by
        rw [heq]
        exact devnull_word.no_space
      rw [name_of_new_line, words_named hspace, heq] at hnew
      exact (Option.some_inj.mp hnew).symm
    have hold_ne : s.old.path ≠ devnull := hone.resolve_right (not_not.mpr heq)
    rw [if_neg hold_ne, if_pos heq, Prod.mk.injEq, hdevnull] at h
    have hpath : path_of 0 devnull = devnull := (path_of_eq_devnull 0 devnull).mpr (List.suffix_refl _)
    exact hold_ne (h.1.symm.trans hpath)
  have hpath : path_of 0 new = s.new.path := by
    have hfst := congrArg Prod.fst h
    rw [if_neg hne] at hfst
    simpa [apply_ite Prod.fst] using hfst
  have hkept : ¬ devnull <:+ new := by
    intro hnull
    exact hne (hpath ▸ (path_of_eq_devnull 0 new).mpr hnull)
  have hname : new = s.new.path := by
    unfold path_of at hpath
    rwa [if_neg hkept, stripped_zero] at hpath
  subst hname
  rw [name_of_new_line] at hnew
  refine ⟨(name_is_read_iff s.new).mp hnew, hkept, ?_⟩
  intro name hname
  obtain rfl : old = name := Option.some_inj.mp (hold.symm.trans hname)
  simp only [hkept, hne, if_false] at h
  by_cases hnull : devnull <:+ old
  · by_cases heq : s.old.path = devnull
    · simp [hnull, heq]
    · rw [if_pos hnull, if_neg heq, Prod.mk.injEq] at h
      cases h.2
  · by_cases heq : s.old.path = devnull
    · rw [if_neg hnull, if_pos heq, Prod.mk.injEq] at h
      cases h.2
    · simp [hnull, heq]

theorem scan_section {lines : List Text} {next : Section} (hstar : ∀ line ∈ lines, ¬ star line)
    (hnames : ∀ line ∈ lines, Marked line → ∃ name, name_of line = some name)
    (hold : ∃ name, name_of next.old.old_line = some name)
    (hapart : (lines ++ (next.header ++ [next.old.old_line])).IsChain fun a b => ¬ Opposite a b)
    {r a : Option Text} (hr : Filled r) (ha : Filled a)
    (hfits : Fits r a (lines ++ (next.header ++ [next.old.old_line]))) (htold : next.Told) (hvalid : next.Valid n)
    (acc : List Entry) (rest : List Text) :
    (((∃ line ∈ lines, Marked line ∧ ¬ Readable n line) ∨ ¬ Readable n next.old.old_line) ∧
      ∃ s, scan cwd n none (bound r a acc) (lines ++ (next.lines ++ rest)) = .ok (.done s) ∧ s.filelist = acc) ∨
    ((∀ line ∈ lines, Marked line → Readable n line) ∧ Readable n next.old.old_line ∧
      ∃ p q, Filled (some p) ∧ Filled (some q) ∧
      scan cwd n none (bound r a acc) (lines ++ (next.lines ++ rest)) =
        scan cwd n none (bound (some p) (some q) (acc ++ [next.entry n])) (next.hunk_lines ++ rest)) := by
  obtain ⟨name, hname⟩ := hold
  have hmarked : ∀ line ∈ lines ++ next.header, Marked line → line ∈ lines := by
    intro line hline hmark
    exact (List.mem_append.mp hline).resolve_right fun h => not_marked_header line h hmark
  have happend : lines ++ (next.lines ++ rest) = (lines ++ next.header) ++
      (next.old.old_line :: next.new.new_line :: (next.hunk_lines ++ rest)) := by
    simp [Section.lines]
  rw [← List.append_assoc] at hapart hfits
  have hthrough := @scan_apart cwd n (lines ++ next.header) [next.old.old_line] (not_star_between hstar next)
    (fun line hline hmark => hnames line (hmarked line hline hmark) hmark) hapart r a hr ha hfits acc
    (next.old.old_line :: next.new.new_line :: (next.hunk_lines ++ rest))
  rw [happend]
  rcases hthrough with ⟨⟨line, hline, hmark, hnot⟩, hstops⟩ | ⟨hreads, r', a', hr', ha', hfits', hruns⟩
  · exact Or.inl ⟨Or.inl ⟨line, hmarked line hline hmark, hmark, hnot⟩, hstops⟩
  · rw [hruns]
    by_cases hread : Readable n next.old.old_line
    · obtain ⟨p, hp⟩ := hread
      obtain rfl := (hfits' next.old.old_line rfl).1 (minus_old_line next.old)
      have hq := htold.new_reads hvalid
      refine Or.inr ⟨fun line hline => hreads line (List.mem_append_left _ hline), ⟨p, hp⟩, p, _, hp.filled, hq.filled, ?_⟩
      rw [scan_yield (turn_minus (minus_old_line next.old) hp ha' r' acc),
        scan_yield (turn_plus (plus_new_line next.new) hq hp.filled none _), entries_none_right, List.append_nil,
        ← htold.entry_eq hvalid hp hq]
      rfl
    · obtain ⟨s, hturn, hs⟩ := @turn_stops cwd n _ name (Or.inl (minus_old_line next.old)) hname hread (bound r' a' acc)
      exact Or.inl ⟨Or.inr hread, s, scan_done hturn _, hs⟩

theorem section_came {lines : List Text} {next : Section} (hstar : ∀ line ∈ lines, ¬ star line)
    {r a : Option Text} (hr : Filled r) (ha : Filled a) {acc : List Entry} {rest : List Text} {f : ForInStep Locals}
    (h : scan cwd 0 none (bound r a acc) (lines ++ (next.lines ++ rest)) = .ok f) :
    (∀ line ∈ lines, Marked line → Readable 0 line) ∧ ∃ p q more, Reads 0 next.old.old_line p ∧
      Reads 0 next.new.new_line q ∧
      scan cwd 0 none (bound (some p) (some q) (acc ++ (more ++ [(q, mode p q)]))) (next.hunk_lines ++ rest) = .ok f ∧
      (more = [] → ((lines ++ (next.header ++ [next.old.old_line])).IsChain fun a b => ¬ Opposite a b) ∧
        Fits r a (lines ++ (next.header ++ [next.old.old_line]))) := by
  have happend : lines ++ (next.lines ++ rest) = (lines ++ next.header) ++
      (next.old.old_line :: next.new.new_line :: (next.hunk_lines ++ rest)) := by
    simp [Section.lines]
  rw [happend] at h
  obtain ⟨hreads, r', a', more, hr', ha', hrun, hquiet⟩ := scan_came (not_star_between hstar next) hr ha h
  refine ⟨fun line hline => hreads line (List.mem_append_left _ hline), ?_⟩
  have hnamed : ∀ {line : Text} {s : Locals} {rest : List Text}, Marked line →
      scan cwd 0 none s (line :: rest) = .ok f → Readable 0 line := by
    intro line s rest hmark hscan
    cases hname : name_of line with
    | none =>
      rw [scan_error (turn_nameless hmark hname _)] at hscan
      cases hscan
    | some name => exact readable_zero hname
  obtain ⟨p, hp⟩ := hnamed (Or.inl (minus_old_line next.old)) hrun
  rw [scan_yield (turn_minus (minus_old_line next.old) hp ha' r' _)] at hrun
  obtain ⟨q, hq⟩ := hnamed (Or.inr (plus_new_line next.new)) hrun
  rw [scan_yield (turn_plus (plus_new_line next.new) hq hp.filled a' _)] at hrun
  refine ⟨p, q, more ++ entries (some p) a', hp, hq, ?_, ?_⟩
  · rw [← hrun]
    simp [entries]
  · intro hnil
    obtain ⟨hmore, hentries⟩ := List.append_eq_nil_iff.mp hnil
    have hnone : a' = none := (entries_eq_nil.mp hentries).resolve_left (by simp)
    have hfits : Fits r' a' [next.old.old_line] := by
      intro line hline
      obtain rfl : next.old.old_line = line := by simpa using hline
      exact ⟨fun _ => hnone, fun hplus => absurd (minus_old_line next.old) (not_minus_of_plus hplus)⟩
    have := hquiet hmore [next.old.old_line] (List.isChain_singleton _) hfits
    rwa [List.append_assoc] at this

/-! ## All sections -/

theorem counted (x : Section) (rest : List Section) {r a : Option Text} (hr : Filled r) (ha : Filled a)
    {acc : List Entry} {f : ForInStep Locals}
    (h : scan cwd 0 none (bound r a acc) (x.hunk_lines ++ rest.flatMap Section.lines) = .ok f) :
    ∃ more, out f = acc ++ more ∧ rest.length ≤ more.length := by
  induction rest generalizing x r a acc with
  | nil =>
    obtain ⟨-, r', a', more, -, -, hrun, -⟩ := scan_came not_star_hunk_lines hr ha h
    rw [List.flatMap_nil, scan] at hrun
    cases hrun
    exact ⟨more, rfl, Nat.zero_le _⟩
  | cons next rest ih =>
    rw [List.flatMap_cons] at h
    obtain ⟨-, p, q, more, hp, hq, hrun, -⟩ := section_came not_star_hunk_lines hr ha h
    obtain ⟨later, hout, hlen⟩ := ih next hp.filled hq.filled hrun
    refine ⟨more ++ [(q, mode p q)] ++ later, ?_, ?_⟩
    · rw [hout, List.append_assoc]
    · simp only [List.length_append, List.length_cons, List.length_nil]
      omega

/-- What level zero says of the lines behind the names of one section. -/
structure Sound (x : Section) (rest : List Section) : Prop where
  told : ∀ s ∈ rest, s.Told
  olds : ∀ s ∈ rest, Readable 0 s.old.old_line
  named : ∀ s ∈ x :: rest, ∀ line ∈ s.hunk_lines, Marked line → Readable 0 line
  apart : ∀ gap ∈ gaps (x :: rest), gap.IsChain fun a b => ¬ Opposite a b

theorem section_sound {lines : List Text} {next : Section} {rest : List Section} (hstar : ∀ line ∈ lines, ¬ star line)
    {r a : Option Text} (hr : Filled r) (ha : Filled a) {acc : List Entry} {f : ForInStep Locals}
    (h : scan cwd 0 none (bound r a acc) (lines ++ (next.lines ++ rest.flatMap Section.lines)) = .ok f)
    (hout : out f = acc ++ (next :: rest).map (Section.entry 0)) :
    (∀ line ∈ lines, Marked line → Readable 0 line) ∧ next.Told ∧ Readable 0 next.old.old_line ∧
      ((lines ++ (next.header ++ [next.old.old_line])).IsChain fun a b => ¬ Opposite a b) ∧
      Fits r a (lines ++ (next.header ++ [next.old.old_line])) ∧
      ∃ p q, Filled (some p) ∧ Filled (some q) ∧ scan cwd 0 none (bound (some p) (some q) (acc ++ [next.entry 0]))
        (next.hunk_lines ++ rest.flatMap Section.lines) = .ok f := by
  obtain ⟨hreads, p, q, more, hp, hq, hrun, hquiet⟩ := section_came hstar hr ha h
  obtain ⟨later, hlater, hlen⟩ := counted next rest hp.filled hq.filled hrun
  -- There are as many entries as sections, so none comes before the section's own.
  rw [hlater, List.append_assoc, List.append_cancel_left_eq, List.map_cons, List.append_assoc,
    List.singleton_append] at hout
  have hmore : more = [] := by
    have := congrArg List.length hout
    simp only [List.length_append, List.length_cons, List.length_map] at this
    exact List.eq_nil_of_length_eq_zero (by omega)
  subst hmore
  rw [List.nil_append, List.cons.injEq] at hout
  obtain ⟨hchain, hfits⟩ := hquiet rfl
  refine ⟨hreads, told_of_entry hp hq hout.1, ⟨p, hp⟩, hchain, hfits, p, q, hp.filled, hq.filled, ?_⟩
  rw [← hout.1]
  exact hrun

theorem sound_of_scan (x : Section) (rest : List Section) {p q : Text} (hp : Filled (some p)) (hq : Filled (some q))
    {acc : List Entry} {f : ForInStep Locals}
    (h : scan cwd 0 none (bound (some p) (some q) acc) (x.hunk_lines ++ rest.flatMap Section.lines) = .ok f)
    (hout : out f = acc ++ rest.map (Section.entry 0)) : Sound x rest := by
  induction rest generalizing x p q acc with
  | nil =>
    obtain ⟨hreads, r', a', more, -, -, hrun, hquiet⟩ := scan_came not_star_hunk_lines hp hq h
    rw [List.flatMap_nil, scan] at hrun
    cases hrun
    rw [List.map_nil, List.append_nil] at hout
    have hmore : more = [] := by simpa [out, bound] using hout
    have hchain := (hquiet hmore [] List.isChain_nil (fun _ h => (nomatch h))).1
    rw [List.append_nil] at hchain
    exact ⟨by simp, by simp, by simpa using hreads, by simpa [gaps] using hchain⟩
  | cons next rest ih =>
    rw [List.flatMap_cons] at h
    obtain ⟨hreads, htold, hold, hchain, hfits, p', q', hp', hq', hrun⟩ := section_sound not_star_hunk_lines hp hq h hout
    rw [List.map_cons, ← List.singleton_append, ← List.append_assoc] at hout
    have hsound := ih next hp' hq' hrun hout
    refine ⟨?_, ?_, ?_, ?_⟩
    · rw [List.forall_mem_cons]
      exact ⟨htold, hsound.told⟩
    · rw [List.forall_mem_cons]
      exact ⟨hold, hsound.olds⟩
    · rw [List.forall_mem_cons]
      exact ⟨hreads, hsound.named⟩
    · rw [gaps, List.forall_mem_cons, List.isChain_cons]
      refine ⟨⟨fun line hline => ?_, hchain⟩, hsound.apart⟩
      -- Behind the name of a new file no line looks like that of an old one.
      rintro (⟨hminus, -⟩ | ⟨-, hminus⟩)
      · exact not_minus_of_plus (plus_new_line x.new) hminus
      · have := (hfits line hline).1 hminus
        cases this

theorem fits_behind {x next : Section} {r a : Option Text}
    (h : (x.new.new_line :: (x.hunk_lines ++ (next.header ++ [next.old.old_line]))).IsChain fun a b => ¬ Opposite a b) :
    Fits r a (x.hunk_lines ++ (next.header ++ [next.old.old_line])) := by
  rw [List.isChain_cons] at h
  apply fits_of_not_marked
  intro line hline hmark
  rcases hmark with hminus | hplus
  · exact h.1 line hline (Or.inr ⟨plus_new_line x.new, hminus⟩)
  · cases hhunk : x.hunk_lines with
    | cons l ls =>
      rw [hhunk, List.cons_append, List.head?_cons, Option.some_inj] at hline
      subst hline
      exact (hunk_lines_head l (by rw [hhunk]; rfl)).2 hplus
    | nil =>
      rw [hhunk, List.nil_append] at hline
      cases hheader : next.header with
      | nil =>
        rw [hheader, List.nil_append, List.head?_cons, Option.some_inj] at hline
        subst hline
        exact not_minus_of_plus hplus (minus_old_line next.old)
      | cons l ls =>
        rw [hheader, List.cons_append, List.head?_cons, Option.some_inj] at hline
        subst hline
        exact (next.plain l (hheader ▸ List.mem_cons_self)).2.1 hplus

/-- No line stops the loop before the hunks of the last section. -/
def Reached (n : ℕ) (x : Section) (rest : List Section) : Prop :=
  (∀ s ∈ rest, Readable n s.old.old_line) ∧
    ∀ s ∈ (x :: rest).dropLast, ∀ line ∈ s.hunk_lines, Marked line → Readable n line

theorem reached_cons {x next : Section} {rest : List Section} :
    Reached n x (next :: rest) ↔ (∀ line ∈ x.hunk_lines, Marked line → Readable n line) ∧
      Readable n next.old.old_line ∧ Reached n next rest := by
  unfold Reached
  rw [List.dropLast_cons_cons, List.forall_mem_cons, List.forall_mem_cons]
  tauto

theorem named_of_readable {line : Text} (h : Readable 0 line) : ∃ name, name_of line = some name := by
  obtain ⟨p, name, hname, -⟩ := h
  exact ⟨name, hname⟩

theorem scan_sections (x : Section) (rest : List Section) (h : Sound x rest) (hvalid : ∀ s ∈ rest, s.Valid n)
    {p q : Text} (hp : Filled (some p)) (hq : Filled (some q)) (acc : List Entry) :
    ∃ f, scan cwd n none (bound (some p) (some q) acc) (x.hunk_lines ++ rest.flatMap Section.lines) = .ok f ∧
      ((Reached n x rest ∧ out f = acc ++ rest.map (Section.entry n)) ∨
        (¬ Reached n x rest ∧ (out f).length < acc.length + rest.length)) := by
  induction rest generalizing x p q acc with
  | nil =>
    have hreached : Reached n x [] := ⟨by simp, by simp⟩
    have hnames := fun line hline hmark => named_of_readable (h.named x List.mem_cons_self line hline hmark)
    have hchain : x.hunk_lines.IsChain fun a b => ¬ Opposite a b := h.apart _ List.mem_cons_self
    have hfits : Fits (some p) (some q) x.hunk_lines := by
      apply fits_of_not_marked
      intro line hline hmark
      exact hmark.elim (hunk_lines_head line hline).1 (hunk_lines_head line hline).2
    rw [← List.append_nil x.hunk_lines] at hchain hfits
    rcases @scan_apart cwd n x.hunk_lines [] not_star_hunk_lines hnames hchain _ _ hp hq hfits acc [] with
      ⟨-, s, hs, hacc⟩ | ⟨-, r', a', -, -, -, hs⟩
    · exact ⟨_, hs, Or.inl ⟨hreached, by simpa [out] using hacc⟩⟩
    · exact ⟨_, hs, Or.inl ⟨hreached, by simp [out, bound]⟩⟩
  | cons next rest ih =>
    rw [List.flatMap_cons, reached_cons]
    rw [List.forall_mem_cons] at hvalid
    have hgaps := h.apart
    rw [gaps, List.forall_mem_cons] at hgaps
    have hnext : Sound next rest := ⟨fun s hs => h.told s (List.mem_cons_of_mem _ hs),
      fun s hs => h.olds s (List.mem_cons_of_mem _ hs), fun s hs => h.named s (List.mem_cons_of_mem _ hs), hgaps.2⟩
    have hnames := fun line hline hmark => named_of_readable (h.named x List.mem_cons_self line hline hmark)
    rcases @scan_section cwd n x.hunk_lines next not_star_hunk_lines hnames
      (named_of_readable (h.olds next List.mem_cons_self)) (List.isChain_cons.mp hgaps.1).2 _ _ hp hq
      (fits_behind hgaps.1) (h.told next List.mem_cons_self) hvalid.1 acc (rest.flatMap Section.lines) with
      ⟨hnot, s, hs, hacc⟩ | ⟨hreads, hold, p', q', hp', hq', hrun⟩
    · refine ⟨_, hs, Or.inr ⟨?_, ?_⟩⟩
      · rintro ⟨hreads, hold, -⟩
        rcases hnot with ⟨line, hline, hmark, hnot⟩ | hnot
        · exact hnot (hreads line hline hmark)
        · exact hnot hold
      · simp only [out, hacc, List.length_cons]
        omega
    · obtain ⟨f, hf, hcases⟩ := ih next hnext hvalid.2 hp' hq' (acc ++ [next.entry n])
      refine ⟨f, hrun.trans hf, ?_⟩
      rcases hcases with ⟨hreached, hout⟩ | ⟨hnot, hlen⟩
      · refine Or.inl ⟨⟨hreads, hold, hreached⟩, ?_⟩
        rw [hout, List.map_cons, List.append_assoc, List.singleton_append]
      · refine Or.inr ⟨fun h => hnot h.2.2, ?_⟩
        simp only [List.length_append, List.length_cons, List.length_nil] at hlen ⊢
        omega

end sections

/-! ## The whole file -/

section files

variable {cwd : Text} {n : ℕ}

def unbound : Locals := ⟨false, none, none, []⟩

theorem getPatchedFiles_of_utf_8 {file : Bytes} {s : Text} (h : utf_8 file = some s) :
    getPatchedFiles cwd file n none = (scan cwd n none unbound (readlines s)).map out := by
  unfold getPatchedFiles attempts opened
  rw [h]
  change (scan cwd n none unbound (readlines s) >>= _) = _
  cases scan cwd n none unbound (readlines s) with
  | error e => rfl
  | ok f => cases f <;> rfl

theorem turn_zero (s s' : Locals) (line : Text) : turn cwd 0 none s line ≠ .ok (.done s') := by
  have htruthy : ∀ q, patchedpath 0 line = .ok q → truthy q = true := by
    intro q hq
    cases hname : name_of line with
    | none =>
      rw [patchedpath_of_nameless hname] at hq
      cases hq
    | some name =>
      obtain ⟨p, hp⟩ := readable_zero hname
      rw [patchedpath_of_reads hp, Except.ok.injEq] at hq
      exact hq ▸ truthy_filled hp.filled
  have hrecord : ∀ t, (ForInStep.yield <$> record cwd none t : Except Raised (ForInStep Locals)) ≠ .ok (.done s') := by
    intro t
    cases record cwd none t <;> simp [Functor.map, Except.map]
  unfold turn
  cases hq : patchedpath 0 line with
  | error e =>
    split
    · simp [bind, Except.bind]
    · split
      · simp [bind, Except.bind]
      · split
        · simp [bind, Except.bind]
        · exact hrecord _
  | ok q =>
    simp only [bind, Except.bind, htruthy q hq, if_true]
    split
    · exact hrecord _
    · split
      · exact hrecord _
      · split <;> exact hrecord _

theorem scan_zero (lines : List Text) (s s' : Locals) : scan cwd 0 none s lines ≠ .ok (.done s') := by
  induction lines generalizing s with
  | nil => simp [scan]
  | cons line lines ih =>
    cases hturn : turn cwd 0 none s line with
    | error e =>
      rw [scan_error hturn]
      simp
    | ok f =>
      cases f with
      | done t => exact absurd hturn (turn_zero s t line)
      | yield t =>
        rw [scan_yield hturn]
        exact ih t

theorem attempts_fail {file : Bytes} (h : utf_8 file = none) (encodings : List Text) (s : Locals) (l : List Entry) :
    attempts cwd file 0 none s encodings ≠ .ok l := by
  induction encodings generalizing s with
  | nil => simp [attempts]
  | cons encoding encodings ih =>
    have hfails : (opened file).fails = true := by
      unfold opened
      rw [h]
    rw [attempts]
    cases hscan : scan cwd 0 none { s with copiedmode := false, filelist := [] } (opened file).lines with
    | error e => simp [bind, Except.bind]
    | ok f =>
      cases f with
      | done t => exact absurd hscan (scan_zero _ _ t)
      | yield t =>
        simp only [bind, Except.bind, hfails, if_true]
        exact ih t

theorem turn_unbound {line : Text} (h : minus line) : ∀ f, turn cwd 0 none unbound line ≠ .ok f := by
  intro f hf
  cases hname : name_of line with
  | none =>
    rw [turn_nameless (Or.inl h) hname] at hf
    cases hf
  | some name =>
    obtain ⟨p, hp⟩ := readable_zero hname
    have htruthy : truthy (some p) = true := truthy_filled hp.filled
    unfold turn at hf
    rw [if_pos h, patchedpath_of_reads hp] at hf
    simp [bind, Except.bind, htruthy, unbound, record, Functor.map, Except.map] at hf

/-- A section without the first line of its header text. -/
def Section.behind (s : Section) : Section :=
  { s with header := s.header.tail, plain := fun line hline => s.plain line (List.mem_of_mem_tail hline) }

theorem scan_header {s : Section} (h : s.header ≠ []) (more : List Text) :
    scan cwd n none unbound (s.lines ++ more) = scan cwd n none (bound none none []) (s.behind.lines ++ more) := by
  obtain ⟨line, header, hheader⟩ := List.exists_cons_of_ne_nil h
  have hline : line ∈ s.header := hheader ▸ List.mem_cons_self
  have hturn := @turn_other cwd n line (not_marked_header line hline) (s.plain line hline).2.2 unbound rfl
  have hlines : s.lines = line :: s.behind.lines := by
    unfold Section.lines Section.behind
    simp [hheader, Section.hunk_lines]
  rw [hlines, List.cons_append, scan_yield hturn]
  rfl

theorem scan_headless {s : Section} (h : s.header = []) (more : List Text) (f : ForInStep Locals) :
    scan cwd 0 none unbound (s.lines ++ more) ≠ .ok f := by
  unfold Section.lines
  rw [h, List.nil_append, List.cons_append]
  cases hturn : turn cwd 0 none unbound s.old.old_line with
  | error e =>
    rw [scan_error hturn]
    simp
  | ok f => exact absurd hturn (turn_unbound (minus_old_line s.old) f)

theorem isChain_of_not_marked {lines : List Text} (h : ∀ line ∈ lines, ¬ Marked line) (last : Text) :
    (lines ++ [last]).IsChain fun a b => ¬ Opposite a b := by
  induction lines with
  | nil => exact List.isChain_singleton _
  | cons line lines ih =>
    rw [List.forall_mem_cons] at h
    rw [List.cons_append, List.isChain_cons]
    refine ⟨fun b _ hopposite => h.1 ?_, ih h.2⟩
    exact hopposite.elim (fun h => Or.inl h.1) (fun h => Or.inr h.1)

theorem gaps_behind (s : Section) (rest : List Section) : gaps (s.behind :: rest) = gaps (s :: rest) := by
  cases rest <;> rfl

theorem reached_behind {s : Section} {rest : List Section} : Reached n s.behind rest ↔ Reached n s rest := by
  cases rest with
  | nil => exact Iff.rfl
  | cons next rest =>
    rw [reached_cons, reached_cons]
    exact Iff.rfl

theorem valid_zero (s : Section) : s.Valid 0 := by
  constructor <;> right <;> rw [stripped_zero]
  · exact s.old.nonempty
  · exact s.new.nonempty

theorem content_eq {p : Patch} {s : Text} (h : utf_8 p.file = some s) :
    readlines s = p.sections.flatMap Section.lines := by
  have hcontent := p.content
  unfold text_of at hcontent
  rwa [h, Option.getD_some] at hcontent

theorem scan_start {s : Section} (hheader : s.header ≠ []) (htold : s.Told) (hold : Readable 0 s.old.old_line)
    (hvalid : s.Valid n) (more : List Text) :
    (¬ Readable n s.old.old_line ∧ ∃ t, scan cwd n none unbound (s.lines ++ more) = .ok (.done t) ∧ t.filelist = []) ∨
    (Readable n s.old.old_line ∧ ∃ p q, Filled (some p) ∧ Filled (some q) ∧
      scan cwd n none unbound (s.lines ++ more) =
        scan cwd n none (bound (some p) (some q) [s.entry n]) (s.behind.hunk_lines ++ more)) := by
  rw [scan_header hheader]
  have hbehind : s.behind.Told := ⟨htold.new_space, htold.new_kept, htold.old_null⟩
  have hchain := isChain_of_not_marked (@not_marked_header s.behind) s.old.old_line
  rcases @scan_section cwd n [] s.behind (by simp) (by simp) (named_of_readable hold) hchain none none filled_none
    filled_none (fits_none _) hbehind hvalid [] more with ⟨hnot, t, ht, hnil⟩ | ⟨-, hread, p, q, hp, hq, hrun⟩
  · exact Or.inl ⟨hnot.resolve_left (by simp), t, ht, hnil⟩
  · exact Or.inr ⟨hread, p, q, hp, hq, hrun⟩

theorem Patch.Regular.listed {p : Patch} (h : p.Regular) : Listed p := by
  intro cwd n hvalid
  obtain ⟨s, hs⟩ := Option.isSome_iff_exists.mp h.decodes
  rw [getPatchedFiles_of_utf_8 hs, content_eq hs]
  have hreached := h.reached n hvalid
  have holds := h.old_reached n hvalid
  have hzero := h.old_reached 0 fun s _ => valid_zero s
  have htold := h.told
  have hnamed := h.named
  have happart := h.apart
  have hheaded := h.headed
  unfold Patch.Valid at hvalid
  cases hsections : p.sections with
  | nil => rfl
  | cons first rest =>
    rw [hsections] at hreached holds hzero htold hnamed happart hheaded hvalid
    rw [List.forall_mem_cons] at holds hzero htold hvalid
    have hnamed' : ∀ s ∈ first.behind :: rest, ∀ line ∈ s.hunk_lines, Marked line → Readable 0 line := by
      rw [List.forall_mem_cons] at hnamed ⊢
      exact hnamed
    have hsound : Sound first.behind rest := ⟨htold.2, hzero.2, hnamed', gaps_behind first rest ▸ happart⟩
    rw [List.flatMap_cons]
    rcases @scan_start cwd n first (hheaded first rfl) htold.1 hzero.1 hvalid.1 (rest.flatMap Section.lines) with
      ⟨hnot, -⟩ | ⟨-, p', q', hp', hq', hrun⟩
    · exact absurd holds.1 hnot
    · obtain ⟨f, hf, hcases⟩ := @scan_sections cwd n first.behind rest hsound hvalid.2 p' q' hp' hq' [first.entry n]
      rcases hcases with ⟨-, hout⟩ | ⟨hnot, -⟩
      · rw [hrun, hf]
        simp [Except.map, hout]
      · exact absurd (reached_behind.mpr ⟨holds.2, hreached⟩) hnot

theorem regular_of_listed {p : Patch} (h : Listed p) : p.Regular := by
  have hzero : p.Valid 0 := fun s _ => valid_zero s
  have hfirst := h [] 0 hzero
  cases hs : utf_8 p.file with
  | none => exact absurd hfirst (attempts_fail hs _ _ _)
  | some s =>
    have hrun : ∀ cwd n, p.Valid n → ∃ f, scan cwd n none unbound (p.sections.flatMap Section.lines) = .ok f ∧
        out f = p.sections.map (Section.entry n) := by
      intro cwd n hvalid
      have hlisted := h cwd n hvalid
      rw [getPatchedFiles_of_utf_8 hs, content_eq hs] at hlisted
      cases hscan : scan cwd n none unbound (p.sections.flatMap Section.lines) with
      | error e =>
        rw [hscan] at hlisted
        cases hlisted
      | ok f =>
        rw [hscan] at hlisted
        exact ⟨f, rfl, Except.ok.inj hlisted⟩
    have hdecodes : (utf_8 p.file).isSome = true := by rw [hs]; rfl
    unfold Patch.Valid at hrun
    cases hsections : p.sections with
    | nil => constructor <;> simp [hsections, hdecodes, gaps]
    | cons first rest =>
      rw [hsections] at hrun
      obtain ⟨f, hscan, hout⟩ := hrun [] 0 fun s _ => valid_zero s
      rw [List.flatMap_cons] at hscan
      have hheader : first.header ≠ [] := by
        intro hnil
        exact absurd hscan (scan_headless hnil _ f)
      have hscan₀ := hscan
      rw [scan_header hheader] at hscan₀
      have hout₀ : out f = [] ++ (first.behind :: rest).map (Section.entry 0) := hout
      obtain ⟨-, htold, hold, -, -, p', q', hp', hq', hlater⟩ :=
        @section_sound [] [] first.behind rest (by simp) none none filled_none filled_none [] f hscan₀ hout₀
      have hsound := sound_of_scan first.behind rest hp' hq' hlater hout₀
      have htold' : first.Told := ⟨htold.new_space, htold.new_kept, htold.old_null⟩
      have hreached : ∀ n, (∀ s ∈ first :: rest, s.Valid n) → Readable n first.old.old_line ∧ Reached n first rest := by
        intro n hvalid
        obtain ⟨f, hscan, hout⟩ := hrun [] n hvalid
        rw [List.flatMap_cons] at hscan
        rw [List.forall_mem_cons] at hvalid
        rcases @scan_start [] n first hheader htold' hold hvalid.1 (rest.flatMap Section.lines) with
          ⟨-, t, ht, hnil⟩ | ⟨hread, p', q', hp', hq', hlater⟩
        · rw [hscan, Except.ok.injEq] at ht
          rw [ht] at hout
          simp [out, hnil] at hout
        · obtain ⟨f', hf', hcases⟩ := @scan_sections [] n first.behind rest hsound hvalid.2 p' q' hp' hq' [first.entry n]
          rw [hscan, hf', Except.ok.injEq] at hlater
          subst hlater
          rcases hcases with ⟨hreached, -⟩ | ⟨-, hlen⟩
          · exact ⟨hread, reached_behind.mp hreached⟩
          · rw [hout] at hlen
            simp only [List.length_map, List.length_cons, List.length_nil] at hlen
            omega
      refine ⟨hdecodes, ?_, ?_, ?_, ?_, ?_, ?_⟩
      · intro s hs
        rw [hsections, List.head?_cons, Option.some_inj] at hs
        exact hs ▸ hheader
      · rw [hsections, List.forall_mem_cons]
        exact ⟨htold', hsound.told⟩
      · rw [hsections, ← gaps_behind]
        exact hsound.apart
      · rw [hsections, List.forall_mem_cons]
        have hnamed := hsound.named
        rw [List.forall_mem_cons] at hnamed
        exact hnamed
      · intro n hvalid
        unfold Patch.Valid at hvalid
        rw [hsections] at hvalid ⊢
        rw [List.forall_mem_cons]
        exact ⟨(hreached n hvalid).1, (hreached n hvalid).2.1⟩
      · intro n hvalid
        unfold Patch.Valid at hvalid
        rw [hsections] at hvalid ⊢
        exact (hreached n hvalid).2.2

end files

/-- `getPatchedFiles` lists the files of a patch, at every strip level, if and only if the patch is
regular. -/
theorem patches_are_listed_iff (p : Patch) : Listed p ↔ p.Regular :=
  ⟨regular_of_listed, Patch.Regular.listed⟩

def one_word : List Text := [text "--- a\n", text "+++ b\n", text "@@ -1 +1 @@\n", text "-x\n", text "+y\n"]

def one_word_file : Bytes := one_word.flatten.map fun c => c.toNat.toUInt8

theorem utf_8_one_word : utf_8 one_word_file = some one_word.flatten := by
  decide

theorem readlines_one_word : readlines one_word.flatten = one_word := by
  apply readlines_flatten
  simp only [one_word, List.forall_mem_cons]
  exact ⟨⟨text "--- a", rfl, by decide, by decide⟩, ⟨text "+++ b", rfl, by decide, by decide⟩,
    ⟨text "@@ -1 +1 @@", rfl, by decide, by decide⟩, ⟨text "-x", rfl, by decide, by decide⟩,
    ⟨text "+y", rfl, by decide, by decide⟩, by simp⟩

def headless : Patch where
  file := one_word_file
  sections := [{
    header := []
    plain := by simp
    old := ⟨text "a", ['\n'], by decide, by decide, Or.inr ⟨[], Or.inr rfl⟩⟩
    new := ⟨text "b", ['\n'], by decide, by decide, Or.inr ⟨[], Or.inr rfl⟩⟩
    one := Or.inl (by decide)
    hunks := [⟨text " -1 +1 @@\n", [.removed (text "x\n"), .added (text "y\n")]⟩] }]
  content := by
    unfold text_of
    rw [utf_8_one_word, Option.getD_some, readlines_one_word]
    rfl

/-- Before the first header there is no second name to ask for. -/
theorem a_patch_without_a_header_text_raises : ¬ ∀ p : Patch, Listed p := by
  intro h
  have hlisted := h headless [] 0 fun s _ => valid_zero s
  change getPatchedFiles [] one_word_file 0 none = _ at hlisted
  rw [getPatchedFiles_of_utf_8 utf_8_one_word, readlines_one_word] at hlisted
  cases hscan : scan [] 0 none unbound one_word with
  | error e =>
    rw [hscan] at hlisted
    cases hlisted
  | ok f =>
    have hminus : minus (text "--- a\n") := by decide
    cases hturn : turn [] 0 none unbound (text "--- a\n") with
    | error e =>
      rw [one_word, scan_error hturn] at hscan
      cases hscan
    | ok f => exact turn_unbound hminus f hturn

end yocto.patched_files
