-- The text that an output hash is made of (`OEOuthashBasic` of sstatesig.py): one line for
-- each entry of a tree, with columns of fixed or variable width, and in the order of a walk
-- that sorts the names of each directory.
import Mathlib.Data.Char
import Mathlib.Data.List.Lex
import Yocto.ListSearch
import Yocto.Raising
import Yocto.SigGen
import Yocto.TaskIds

open yocto.task_ids
open yocto.list_search (Bytes infix_append_cons cut_inj)

namespace yocto.output_hash

/-! ## Trees -/

/-- The permission bits of `st_mode`. -/
structure Mode where
  S_IRUSR : Bool
  S_IWUSR : Bool
  S_IXUSR : Bool
  S_ISUID : Bool
  S_IRGRP : Bool
  S_IWGRP : Bool
  S_IXGRP : Bool
  S_ISGID : Bool
  S_IROTH : Bool
  S_IWOTH : Bool
  S_IXOTH : Bool
  S_ISVTX : Bool
  deriving DecidableEq

/-- What `lstat` says of any entry. The time is in whole seconds. -/
structure Stat where
  mode : Mode
  uid : Nat
  gid : Nat
  mtime : Int
  deriving DecidableEq

/-- The type of an entry with what there is of this type. -/
inductive Kind
  | directory
  | character (major minor : Nat)
  | block (major minor : Nat)
  | socket
  | link (target : Text)
  | fifo
  | regular (content : Bytes)
  | other
  deriving DecidableEq

mutual
/-- A directory, or an entry of another kind. A directory that cannot be listed is a leaf. -/
inductive Tree
  | dir (s : Stat) (entries : Entries)
  | leaf (s : Stat) (kind : Kind)

/-- The entries of a directory, in the order in which it is read. -/
inductive Entries
  | nil
  | cons (name : Text) (t : Tree) (entries : Entries)
end

/-- An entry as `process` finds it. -/
structure Entry where
  path : Text
  stat : Stat
  kind : Kind
  deriving DecidableEq

/-- `os.path.join`. -/
def join (root name : Text) : Text := root ++ '/' :: name

/-! ## The line of an entry -/

/-- The environment of the task. Two of its variables may be empty or not set. Digests are 64
hexadecimal digits. -/
structure Env where
  task : Text
  pseudo : Bool
  source_date_epoch : Int
  hash_version : Text
  extra_sigdata : Text
  pkgspec : Text
  pw_name : Nat → Option Text
  gr_name : Nat → Option Text
  hexdigest : Bytes → Text
  hexdigest_length : ∀ content, (hexdigest content).length = 64

def Env.include_owners (env : Env) : Bool :=
  if text "package_write_" <:+: env.task ∨ env.task = text "package_qa" then false else env.pseudo

def Env.include_timestamps (env : Env) : Bool := env.task == text "package"

def Env.include_root (env : Env) : Bool := env.task != text "package"

def add_perm (set : Bool) (on off : Char) : Char := if set then on else off

/-- `"%ws" % s`: the text at the right of a column that is at least so wide. -/
def column (width : Nat) (s : Text) : Text := List.replicate (width - s.length) ' ' ++ s

/-- `"%d" % n`. -/
def decimal (n : Nat) : Text := Nat.toDigits 10 n

def decimal_int : Int → Text
  | .ofNat n => decimal n
  | .negSucc n => '-' :: decimal (n + 1)

def type_char : Kind → Char
  | .directory => 'd'
  | .character _ _ => 'c'
  | .block _ _ => 'b'
  | .socket => 's'
  | .link _ => 'l'
  | .fifo => 'p'
  | .regular _ => '-'
  | .other => '-'

def owner_bits (m : Mode) : Text :=
  [add_perm m.S_IRUSR 'r' '-', add_perm m.S_IWUSR 'w' '-',
    if m.S_ISUID then add_perm m.S_IXUSR 's' 'S' else add_perm m.S_IXUSR 'x' '-']

def group_other_bits (m : Mode) : Text :=
  [add_perm m.S_IRGRP 'r' '-', add_perm m.S_IWGRP 'w' '-',
    if m.S_ISGID then add_perm m.S_IXGRP 's' 'S' else add_perm m.S_IXGRP 'x' '-',
    add_perm m.S_IROTH 'r' '-', add_perm m.S_IWOTH 'w' '-',
    if m.S_ISVTX then 't' else add_perm m.S_IXOTH 'x' '-']

/-- The bits and the names of the owners. An owner without a name is a `KeyError`. -/
def owners (env : Env) (s : Stat) : Option Text :=
  if env.include_owners then
    match env.pw_name s.uid, env.gr_name s.gid with
    | some user, some group =>
      some (group_other_bits s.mode ++ (' ' :: column 10 user ++ ' ' :: column 10 group))
    | _, _ => none
  else some []

def timestamp (env : Env) (s : Stat) : Text :=
  if env.include_timestamps then
    ' ' :: column 10 (decimal_int
      (if env.source_date_epoch < s.mtime then env.source_date_epoch else s.mtime))
  else []

def device (major minor : Nat) : Text := column 9 (decimal major ++ '.' :: decimal minor)

def blank (width : Nat) : Text := List.replicate width ' '

/-- The columns of the device number, the size and the digest. -/
def columns (env : Env) (kind : Kind) : Text :=
  match kind with
  | .character major minor => device major minor ++ ' ' :: (blank 10 ++ ' ' :: blank 64)
  | .block major minor => device major minor ++ ' ' :: (blank 10 ++ ' ' :: blank 64)
  | .regular content =>
    blank 9 ++ ' ' :: (column 10 (decimal content.length) ++ ' ' :: env.hexdigest content)
  | _ => blank 9 ++ ' ' :: (blank 10 ++ ' ' :: blank 64)

/-- The path, with the target of a link. -/
def named (path : Text) : Kind → Text
  | .link target => path ++ (text " -> " ++ target)
  | _ => path

def process (env : Env) (e : Entry) : Option Text :=
  (owners env e.stat).map fun owners =>
    type_char e.kind :: (owner_bits e.stat.mode ++ (owners ++ (timestamp env e.stat ++
      ' ' :: (columns env e.kind ++ ' ' :: (named e.path e.kind ++ ['\n'])))))

/-! ## The walk -/

/-- What the walk makes of an entry of a directory: a file, a link among the directories, or the
walk through a directory. -/
inductive Item
  | file (e : Entry)
  | linked (e : Entry)
  | subdir (walked : List Entry)

def by_name (items : List (Text × Item)) : List (Text × Item) :=
  siggen.sorted (fun a b => decide (a.1 ≤ b.1)) items

def file_of (item : Text × Item) : Option Entry :=
  match item.2 with
  | .file e => if item.1 = text "fixmepath" then none else some e
  | _ => none

def linked_of (item : Text × Item) : Option Entry :=
  match item.2 with
  | .linked e => some e
  | _ => none

def subdir_of (item : Text × Item) : List Entry :=
  match item.2 with
  | .subdir walked => walked
  | _ => []

/-- What is processed in a directory, and then below it. -/
def visit (items : List (Text × Item)) : List Entry :=
  (by_name items).filterMap file_of ++ ((by_name items).filterMap linked_of ++
    (by_name items).flatMap subdir_of)

mutual
/-- The entries that are processed, from a directory on. -/
def walk (is_dir : Text → Bool) (root : Text) : Tree → List Entry
  | .dir s entries => ⟨root, s, .directory⟩ :: visit (scan is_dir root entries)
  | .leaf _ _ => []

def scan (is_dir : Text → Bool) (root : Text) : Entries → List (Text × Item)
  | .nil => []
  | .cons name (.dir s entries) rest =>
    (name, .subdir (walk is_dir (join root name) (.dir s entries))) :: scan is_dir root rest
  | .cons name (.leaf s kind) rest =>
    let e : Entry := ⟨join root name, s, kind⟩
    (name, match kind with
      | .link _ => if is_dir e.path then .linked e else .file e
      | .directory => .subdir []
      | _ => .file e) :: scan is_dir root rest
end

def processed (env : Env) (is_dir : Text → Bool) (t : Tree) : List Entry :=
  if env.include_root then walk is_dir ['.'] t else (walk is_dir ['.'] t).tail

/-- A variable that is hashed when it is set. -/
def optional_line (value : Text) : Text := if value = [] then [] else value ++ ['\n']

def header (env : Env) : Text :=
  text "OEOuthashBasic\n" ++ (optional_line env.hash_version ++
    (optional_line env.extra_sigdata ++ (text "SSTATE_PKGSPEC=" ++ (env.pkgspec ++ '\n' ::
      (text "task=" ++ (env.task ++ ['\n']))))))

/-- `OEOuthashBasic`: the text that is hashed. -/
def OEOuthashBasic (env : Env) (is_dir : Text → Bool) (t : Tree) : Option Text :=
  ((processed env is_dir t).mapM (process env)).map fun lines => header env ++ lines.flatten

/-! ## Columns -/

/-- A text that can be told from the spaces around it. -/
def Word (s : Text) : Prop := s ≠ [] ∧ ' ' ∉ s

def first_word (s : Text) : Text := (s.dropWhile (· == ' ')).takeWhile (· != ' ')

theorem first_word_column {s : Text} (h : Word s) (width : Nat) (rest : Text) :
    first_word (column width s ++ ' ' :: rest) = s := by
  obtain ⟨hne, hspace⟩ := h
  have hdrop : (column width s ++ ' ' :: rest).dropWhile (· == ' ') = s ++ ' ' :: rest := by
    rw [column, List.append_assoc, List.dropWhile_append_of_pos (by simp)]
    cases s with
    | nil => exact absurd rfl hne
    | cons c cs =>
      have hc : c ≠ ' ' := fun heq => hspace (heq ▸ List.mem_cons_self)
      simp [hc]
  rw [first_word, hdrop, List.takeWhile_append_of_pos]
  · simp
  · intro c hc
    simp only [bne_iff_ne, ne_eq]
    rintro rfl
    exact hspace hc

theorem column_inj {s s' : Text} (h : Word s) (h' : Word s') (width : Nat) {rest rest' : Text}
    (heq : column width s ++ ' ' :: rest = column width s' ++ ' ' :: rest') :
    s = s' ∧ rest = rest' := by
  have hword := congrArg first_word heq
  rw [first_word_column h, first_word_column h'] at hword
  subst hword
  exact ⟨rfl, List.cons.inj (List.append_cancel_left heq) |>.2⟩

theorem column_ne_nil {s rest rest' : Text} {width : Nat} (h : Word s) (hwidth : 0 < width) :
    column width s ++ rest ≠ List.replicate width ' ' ++ rest' := by
  intro heq
  cases s with
  | nil => exact h.1 rfl
  | cons c cs =>
    -- the word begins in the column
    have hlt : width - (cs.length + 1) < width := by omega
    have hword : (column width (c :: cs) ++ rest)[width - (cs.length + 1)]? = some c := by
      rw [column, List.append_assoc, List.getElem?_append_right (by simp)]
      simp
    have hblank : (List.replicate width ' ' ++ rest')[width - (cs.length + 1)]? = some ' ' := by
      rw [List.getElem?_append_left (by simpa using hlt)]
      simp [hlt]
    obtain rfl : c = ' ' := by simpa [heq, hblank] using hword.symm
    exact h.2 List.mem_cons_self

theorem name_column_inj {s s' : Text} (h : ' ' ∉ s) (h' : ' ' ∉ s') (width : Nat)
    (hwidth : 0 < width) {rest rest' : Text}
    (heq : column width s ++ ' ' :: rest = column width s' ++ ' ' :: rest') :
    s = s' ∧ rest = rest' := by
  have hnil : column width [] = List.replicate width ' ' := by simp [column]
  by_cases hs : s = []
  · by_cases hs' : s' = []
    · subst hs hs'
      exact ⟨rfl, (List.cons.inj (List.append_cancel_left heq)).2⟩
    · rw [hs, hnil] at heq
      exact absurd heq.symm (column_ne_nil ⟨hs', h'⟩ hwidth)
  · by_cases hs' : s' = []
    · rw [hs', hnil] at heq
      exact absurd heq (column_ne_nil ⟨hs, h⟩ hwidth)
    · exact column_inj ⟨hs, h⟩ ⟨hs', h'⟩ width heq

theorem decimal_word (n : Nat) : Word (decimal n) := by
  refine ⟨Nat.toDigits_ne_nil, fun h => ?_⟩
  have := Nat.isDigit_of_mem_toDigits (by decide) (by decide) h
  exact absurd this (by decide)

theorem decimal_inj {n m : Nat} (h : decimal n = decimal m) : n = m := by
  have := congrArg (fun s => Nat.ofDigitChars 10 s 0) h
  simpa [decimal, Nat.ofDigitChars_ten_toDigits] using this

theorem dot_not_mem_decimal (n : Nat) : '.' ∉ decimal n := by
  intro h
  have := Nat.isDigit_of_mem_toDigits (by decide) (by decide) h
  exact absurd this (by decide)

theorem decimal_int_word (n : Int) : Word (decimal_int n) := by
  cases n with
  | ofNat n => exact decimal_word n
  | negSucc n =>
    refine ⟨by simp [decimal_int], ?_⟩
    have := (decimal_word (n + 1)).2
    simp [decimal_int, this]

theorem device_word (major minor : Nat) : Word (decimal major ++ '.' :: decimal minor) := by
  have h1 := (decimal_word major).2
  have h2 := (decimal_word minor).2
  exact ⟨by simp, by simp [h1, h2]⟩

theorem device_inj {major minor major' minor' : Nat} {rest rest' : Text}
    (h : device major minor ++ ' ' :: rest = device major' minor' ++ ' ' :: rest') :
    (major = major' ∧ minor = minor') ∧ rest = rest' := by
  obtain ⟨hnumber, hrest⟩ := column_inj (device_word major minor) (device_word major' minor') 9 h
  obtain ⟨h1, h2⟩ := cut_inj (dot_not_mem_decimal major) (dot_not_mem_decimal major') hnumber
  exact ⟨⟨decimal_inj h1, decimal_inj h2⟩, hrest⟩

/-! ## The path and the target -/

theorem arrow_inj {p p' t t' : Text} (hp : ¬text " -> " <:+: p ++ text " ->")
    (hp' : ¬text " -> " <:+: p' ++ text " ->")
    (h : p ++ (text " -> " ++ t) = p' ++ (text " -> " ++ t')) : p = p' ∧ t = t' := by
  -- a longer path goes on with what is the beginning of an arrow
  have hshort : ∀ {p s t t' : Text}, ¬text " -> " <:+: (p ++ s) ++ text " ->" →
      text " -> " ++ t = s ++ (text " -> " ++ t') → s = [] := by
    intro p s t t' hno heq
    match s, heq with
    | [], _ => rfl
    | [a], heq => simp [text] at heq
    | [a, b], heq => simp [text] at heq
    | [a, b, c], heq =>
      simp only [text, String.reduceToList, List.cons_append, List.nil_append,
        List.cons.injEq] at heq
      obtain ⟨rfl, rfl, rfl, -⟩ := heq
      refine absurd ?_ hno
      exact ⟨p, text "->", by simp [text]⟩
    | a :: b :: c :: d :: s, heq =>
      simp only [text, String.reduceToList, List.cons_append, List.nil_append,
        List.cons.injEq] at heq
      obtain ⟨rfl, rfl, rfl, rfl, -⟩ := heq
      refine absurd ?_ hno
      exact ⟨p, s ++ text " ->", by simp [text]⟩
  rcases List.append_eq_append_iff.mp h with ⟨s, rfl, hs⟩ | ⟨s, rfl, hs⟩
  · obtain rfl := hshort hp' hs
    exact ⟨by simp, by simpa using List.append_cancel_left hs⟩
  · obtain rfl := hshort hp hs
    exact ⟨by simp, by simpa using (List.append_cancel_left hs).symm⟩

/-! ## The line of an entry determines it -/

/-- The same type, with what the text says of an entry of this type. -/
def SameKind (env : Env) : Kind → Kind → Prop
  | .regular content, .regular content' =>
    content.length = content'.length ∧ env.hexdigest content = env.hexdigest content'
  | kind, kind' => kind = kind'

/-- The bits that are shown: where the sticky bit is set it stands in the place of the last one. -/
def Mode.shown (m : Mode) : Mode := { m with S_IXOTH := m.S_ISVTX || m.S_IXOTH }

/-- The same path, type and owner bits, and, when owners are included, the same other bits and names
of the owners. -/
structure Alike (env : Env) (e e' : Entry) : Prop where
  path : e.path = e'.path
  kind : SameKind env e.kind e'.kind
  owner_r : e.stat.mode.S_IRUSR = e'.stat.mode.S_IRUSR
  owner_w : e.stat.mode.S_IWUSR = e'.stat.mode.S_IWUSR
  owner_x : e.stat.mode.S_IXUSR = e'.stat.mode.S_IXUSR
  owner_s : e.stat.mode.S_ISUID = e'.stat.mode.S_ISUID
  group_other : env.include_owners = true →
    e.stat.mode.shown = e'.stat.mode.shown ∧ env.pw_name e.stat.uid = env.pw_name e'.stat.uid ∧
      env.gr_name e.stat.gid = env.gr_name e'.stat.gid

/-- The columns of an entry can be told from one another. -/
structure Clear (env : Env) (e : Entry) : Prop where
  path : '\n' ∉ e.path
  start : e.path.head? = some '.'
  target : ∀ target, e.kind = .link target →
    '\n' ∉ target ∧ ¬text " -> " <:+: e.path ++ text " ->"
  names : env.include_owners = true →
    ∀ name, env.pw_name e.stat.uid = some name ∨ env.gr_name e.stat.gid = some name → ' ' ∉ name

theorem add_perm_inj {b b' : Bool} {on : Char} (hon : on ≠ '-')
    (h : add_perm b on '-' = add_perm b' on '-') : b = b' := by
  cases b with
  | false => cases b' with
    | false => rfl
    | true => exact absurd h.symm hon
  | true => cases b' with
    | false => exact absurd h hon
    | true => rfl

theorem owner_bits_inj {m m' : Mode} (h : owner_bits m = owner_bits m') :
    m.S_IRUSR = m'.S_IRUSR ∧ m.S_IWUSR = m'.S_IWUSR ∧ m.S_IXUSR = m'.S_IXUSR ∧
      m.S_ISUID = m'.S_ISUID := by
  obtain ⟨r, w, x, s, _, _, _, _, _, _, _, _⟩ := m
  obtain ⟨r', w', x', s', _, _, _, _, _, _, _, _⟩ := m'
  simp only [owner_bits, List.cons.injEq, and_true] at h ⊢
  obtain ⟨hr, hw, hx⟩ := h
  refine ⟨?_, ?_, ?_⟩
  · cases r <;> cases r' <;> simp_all [add_perm]
  · cases w <;> cases w' <;> simp_all [add_perm]
  · cases x <;> cases x' <;> cases s <;> cases s' <;> simp_all [add_perm]

theorem group_other_bits_inj {m m' : Mode} (howner : owner_bits m = owner_bits m')
    (h : group_other_bits m = group_other_bits m') : m.shown = m'.shown := by
  obtain ⟨h1, h2, h3, h4⟩ := owner_bits_inj howner
  obtain ⟨_, _, _, _, r, w, x, s, r2, w2, x2, t⟩ := m
  obtain ⟨_, _, _, _, r', w', x', s', r2', w2', x2', t'⟩ := m'
  simp only [group_other_bits, List.cons.injEq, and_true] at h
  obtain ⟨hr, hw, hx, hr2, hw2, hx2⟩ := h
  have hexec : x = x' ∧ s = s' := by
    cases x <;> cases x' <;> cases s <;> cases s' <;> simp_all [add_perm]
  have hsticky : (t || x2) = (t' || x2') ∧ t = t' := by
    cases x2 <;> cases x2' <;> cases t <;> cases t' <;> simp_all [add_perm]
  simp only at h1 h2 h3 h4
  simp only [Mode.shown]
  rw [add_perm_inj (by decide) hr, add_perm_inj (by decide) hw, add_perm_inj (by decide) hr2,
    add_perm_inj (by decide) hw2, hexec.1, hexec.2, hsticky.1, hsticky.2, h1, h2, h3, h4]

theorem column_ne_blank {s rest rest' : Text} {width n : Nat} {c : Char} (hs : Word s) (hc : c ≠ ' ')
    (hfirst : s.head? ≠ some c) :
    column width s ++ ' ' :: rest ≠ blank n ++ c :: rest' := by
  intro h
  have hword := congrArg first_word h
  rw [first_word_column hs] at hword
  have hdrop : (blank n ++ c :: rest').dropWhile (· == ' ') = c :: rest' := by
    rw [blank, List.dropWhile_append_of_pos (by simp)]
    simp [hc]
  rw [first_word, hdrop, List.takeWhile_cons, if_pos (by simpa using hc)] at hword
  exact hfirst (by rw [hword, List.head?_cons])

theorem regular_ne_blank (env : Env) (content : Bytes) {rest rest' : Text}
    (hrest : rest.head? = some '.') : columns env .other ++ ' ' :: rest ≠
      columns env (.regular content) ++ ' ' :: rest' := by
  intro h
  simp only [columns, List.append_assoc, List.cons_append, List.append_cancel_left_eq,
    List.cons.injEq, true_and] at h
  obtain ⟨c, rest, rfl⟩ : ∃ c l, rest = c :: l := by
    cases rest with
    | nil => simp at hrest
    | cons c l => exact ⟨c, l, rfl⟩
  obtain rfl : c = '.' := by simpa using hrest
  have hblank : blank 10 ++ ' ' :: (blank 64 ++ ' ' :: '.' :: rest) = blank 76 ++ '.' :: rest := by
    simp [blank, List.replicate_succ]
  rw [hblank] at h
  refine column_ne_blank (decimal_word content.length) (by decide) ?_ h.symm
  intro hhead
  exact dot_not_mem_decimal _ (List.mem_of_mem_head? (by rw [hhead]; rfl))

theorem columns_inj {env : Env} {kind kind' : Kind} (htype : type_char kind = type_char kind')
    {rest rest' : Text} (hrest : rest.head? = some '.') (hrest' : rest'.head? = some '.')
    (h : columns env kind ++ ' ' :: rest = columns env kind' ++ ' ' :: rest') :
    rest = rest' ∧ (SameKind env kind kind' ∨
      ∃ target target', kind = .link target ∧ kind' = .link target') := by
  have hsame : ∀ {s rest rest' : Text}, s ++ ' ' :: rest = s ++ ' ' :: rest' → rest = rest' := by
    intro s rest rest' heq
    exact (List.cons.inj (List.append_cancel_left heq)).2
  cases kind <;> cases kind' <;> try (simp [type_char] at htype; done)
  case directory.directory => exact ⟨hsame h, Or.inl rfl⟩
  case socket.socket => exact ⟨hsame h, Or.inl rfl⟩
  case fifo.fifo => exact ⟨hsame h, Or.inl rfl⟩
  case other.other => exact ⟨hsame h, Or.inl rfl⟩
  case link.link target target' => exact ⟨hsame h, Or.inr ⟨target, target', rfl, rfl⟩⟩
  case character.character major minor major' minor' =>
    simp only [columns, List.append_assoc, List.cons_append] at h
    obtain ⟨⟨rfl, rfl⟩, h⟩ := device_inj h
    refine ⟨?_, Or.inl rfl⟩
    simpa using h
  case block.block major minor major' minor' =>
    simp only [columns, List.append_assoc, List.cons_append] at h
    obtain ⟨⟨rfl, rfl⟩, h⟩ := device_inj h
    refine ⟨?_, Or.inl rfl⟩
    simpa using h
  case regular.regular content content' =>
    simp only [columns, List.append_assoc, List.cons_append, List.append_cancel_left_eq,
      List.cons.injEq, true_and] at h
    obtain ⟨hlen, h⟩ := column_inj (decimal_word _) (decimal_word _) 10 h
    obtain ⟨hdigest, h⟩ := List.append_inj h
      ((env.hexdigest_length content).trans (env.hexdigest_length content').symm)
    exact ⟨(List.cons.inj h).2, Or.inl ⟨decimal_inj hlen, hdigest⟩⟩
  case regular.other content => exact absurd h.symm (regular_ne_blank env content hrest')
  case other.regular content => exact absurd h (regular_ne_blank env content hrest)

theorem head?_named {path : Text} (h : path.head? = some '.') (kind : Kind) (rest : Text) :
    (named path kind ++ rest).head? = some '.' := by
  cases path with
  | nil => simp at h
  | cons c l =>
    obtain rfl : c = '.' := by simpa using h
    cases kind <;> simp [named]

theorem named_inj {env : Env} {e e' : Entry} (he : Clear env e) (he' : Clear env e')
    (hkind : SameKind env e.kind e'.kind ∨
      ∃ target target', e.kind = .link target ∧ e'.kind = .link target') {r r' : Text}
    (h : named e.path e.kind ++ '\n' :: r = named e'.path e'.kind ++ '\n' :: r') :
    e.path = e'.path ∧ SameKind env e.kind e'.kind ∧ r = r' := by
  have hline : ∀ {e : Entry}, Clear env e → '\n' ∉ named e.path e.kind := by
    intro e he
    have hpath := he.path
    cases hk : e.kind with
    | link target =>
      have htarget := (he.target target hk).1
      simp [named, text, hpath, htarget]
    | _ => simpa [named] using hpath
  obtain ⟨hnamed, hr⟩ := cut_inj (hline he) (hline he') h
  have hlink : ∀ target target', e.kind = .link target → e'.kind = .link target' →
      e.path = e'.path ∧ target = target' := by
    intro target target' hk hk'
    rw [hk, hk'] at hnamed
    exact arrow_inj (he.target target hk).2 (he'.target target' hk').2 hnamed
  rcases hkind with hkind | ⟨target, target', hk, hk'⟩
  · refine ⟨?_, hkind, hr⟩
    cases hk : e.kind with
    | link target =>
      cases hk' : e'.kind with
      | link target' => exact (hlink target target' hk hk').1
      | _ => simp [hk, hk', SameKind] at hkind
    | _ =>
      cases hk' : e'.kind with
      | link target' => simp [hk, hk', SameKind] at hkind
      | _ => simpa [hk, hk', named] using hnamed
  · obtain ⟨hpath, rfl⟩ := hlink target target' hk hk'
    exact ⟨hpath, by rw [hk, hk']; rfl, hr⟩

theorem timestamp_append (env : Env) (s : Stat) (rest : Text) :
    ∃ rest', timestamp env s ++ ' ' :: rest = ' ' :: rest' := by
  unfold timestamp
  split
  · exact ⟨_, rfl⟩
  · exact ⟨rest, rfl⟩

theorem timestamp_inj {env : Env} {s s' : Stat} {rest rest' : Text}
    (h : timestamp env s ++ ' ' :: rest = timestamp env s' ++ ' ' :: rest') : rest = rest' := by
  unfold timestamp at h
  split at h
  · simp only [List.cons_append, List.cons.injEq, true_and] at h
    exact (column_inj (decimal_int_word _) (decimal_int_word _) 10 h).2
  · simpa using h

theorem owners_inj {env : Env} {e e' : Entry} (he : Clear env e) (he' : Clear env e')
    (hbits : owner_bits e.stat.mode = owner_bits e'.stat.mode) {o o' rest rest' : Text}
    (ho : owners env e.stat = some o) (ho' : owners env e'.stat = some o')
    (h : o ++ ' ' :: rest = o' ++ ' ' :: rest') : rest = rest' ∧ (env.include_owners = true →
      e.stat.mode.shown = e'.stat.mode.shown ∧ env.pw_name e.stat.uid = env.pw_name e'.stat.uid ∧
        env.gr_name e.stat.gid = env.gr_name e'.stat.gid) := by
  unfold owners at ho ho'
  split at ho
  · rename_i hinclude
    simp only [hinclude, ↓reduceIte] at ho'
    split at ho
    · rename_i user group huser hgroup
      split at ho'
      · rename_i user' group' huser' hgroup'
        obtain rfl := Option.some.inj ho
        obtain rfl := Option.some.inj ho'
        simp only [List.append_assoc, List.cons_append] at h
        obtain ⟨hmode, h⟩ := List.append_inj h (by simp [group_other_bits])
        have hword := he.names hinclude
        have hword' := he'.names hinclude
        obtain ⟨hu, h⟩ := name_column_inj (hword user (Or.inl huser))
          (hword' user' (Or.inl huser')) 10 (by decide) (List.cons.inj h).2
        obtain ⟨hg, h⟩ := name_column_inj (hword group (Or.inr hgroup))
          (hword' group' (Or.inr hgroup')) 10 (by decide) h
        refine ⟨h, fun _ => ⟨?_, ?_, ?_⟩⟩
        · exact group_other_bits_inj hbits hmode
        · rw [huser, huser', hu]
        · rw [hgroup, hgroup', hg]
      · exact absurd ho' (by simp)
    · exact absurd ho (by simp)
  · rename_i hinclude
    simp only [hinclude, Bool.false_eq_true, ↓reduceIte] at ho'
    obtain rfl := Option.some.inj ho
    obtain rfl := Option.some.inj ho'
    exact ⟨by simpa using h, fun hin => absurd hin hinclude⟩

theorem process_inj {env : Env} {e e' : Entry} (he : Clear env e) (he' : Clear env e')
    {line line' r r' : Text} (hline : process env e = some line) (hline' : process env e' = some line')
    (h : line ++ r = line' ++ r') : Alike env e e' ∧ r = r' := by
  obtain ⟨o, ho, rfl⟩ := Option.map_eq_some_iff.mp hline
  obtain ⟨o', ho', rfl⟩ := Option.map_eq_some_iff.mp hline'
  simp only [List.cons_append, List.append_assoc, List.nil_append, List.cons.injEq] at h
  obtain ⟨htype, h⟩ := h
  obtain ⟨hbits, h⟩ := List.append_inj h (by simp [owner_bits])
  obtain ⟨rest, hrest⟩ := timestamp_append env e.stat
    (columns env e.kind ++ ' ' :: (named e.path e.kind ++ '\n' :: r))
  obtain ⟨rest', hrest'⟩ := timestamp_append env e'.stat
    (columns env e'.kind ++ ' ' :: (named e'.path e'.kind ++ '\n' :: r'))
  rw [hrest, hrest'] at h
  obtain ⟨hrests, howners⟩ := owners_inj he he' hbits ho ho' h
  subst hrests
  have hcolumns := timestamp_inj (hrest.trans hrest'.symm)
  obtain ⟨hnamed, hkind⟩ := columns_inj htype (head?_named he.start e.kind _)
    (head?_named he'.start e'.kind _) hcolumns
  obtain ⟨hpath, hsame, hr⟩ := named_inj he he' hkind hnamed
  obtain ⟨h1, h2, h3, h4⟩ := owner_bits_inj hbits
  exact ⟨⟨hpath, hsame, h1, h2, h3, h4, howners⟩, hr⟩

theorem processed_inj {env : Env} {l l' : List Entry} (hl : ∀ e ∈ l, Clear env e)
    (hl' : ∀ e ∈ l', Clear env e) {lines lines' : List Text}
    (hlines : l.mapM (process env) = some lines) (hlines' : l'.mapM (process env) = some lines')
    (h : lines.flatten = lines'.flatten) : List.Forall₂ (Alike env) l l' := by
  have hne : ∀ {e line}, process env e = some line → line ≠ [] := by
    intro e line hline
    obtain ⟨o, -, rfl⟩ := Option.map_eq_some_iff.mp hline
    simp
  induction l generalizing l' lines lines' with
  | nil =>
    obtain rfl : lines = [] := by simpa using hlines.symm
    cases l' with
    | nil => exact .nil
    | cons e' l' =>
      simp only [List.mapM_cons, Option.bind_eq_bind, Option.bind_eq_some_iff] at hlines'
      obtain ⟨line', hline', rest', -, hcons⟩ := hlines'
      obtain rfl := Option.some.inj hcons
      simp [hne hline'] at h
  | cons e l ih =>
    simp only [List.mapM_cons, Option.bind_eq_bind, Option.bind_eq_some_iff] at hlines
    obtain ⟨line, hline, rest, hrest, hcons⟩ := hlines
    obtain rfl := Option.some.inj hcons
    cases l' with
    | nil =>
      obtain rfl : lines' = [] := by simpa using hlines'.symm
      simp [hne hline] at h
    | cons e' l' =>
      simp only [List.mapM_cons, Option.bind_eq_bind, Option.bind_eq_some_iff] at hlines'
      obtain ⟨line', hline', rest', hrest', hcons'⟩ := hlines'
      obtain rfl := Option.some.inj hcons'
      simp only [List.forall_mem_cons] at hl hl'
      obtain ⟨halike, hflat⟩ := process_inj hl.1 hl'.1 hline hline' h
      exact .cons halike (ih hl.2 hl'.2 hrest hrest' hflat)

/-! ## The walk finds the entries of the tree -/

mutual
def nodes (root : Text) : Tree → List Entry
  | .dir s entries => ⟨root, s, .directory⟩ :: nodesIn root entries
  | .leaf s kind => [⟨root, s, kind⟩]

def nodesIn (root : Text) : Entries → List Entry
  | .nil => []
  | .cons name t rest => nodes (join root name) t ++ nodesIn root rest
end

mutual
/-- What holds of every entry below a directory, with its name. -/
def Tree.Each (P : Text → Tree → Prop) : Tree → Prop
  | .dir _ entries => entries.Each P
  | .leaf _ _ => True

def Entries.Each (P : Text → Tree → Prop) : Entries → Prop
  | .nil => True
  | .cons name t rest => P name t ∧ t.Each P ∧ rest.Each P
end

def Listed (_name : Text) : Tree → Prop
  | .dir _ _ => True
  | .leaf _ kind => kind ≠ .directory

/-- A file that the walk passes over. -/
def Fixme (e : Entry) : Prop := e.kind ≠ .directory ∧ ∃ root, e.path = join root (text "fixmepath")

def Finds (item : Text × Item) (e : Entry) : Prop :=
  file_of item = some e ∨ linked_of item = some e ∨ e ∈ subdir_of item

theorem mem_visit {items : List (Text × Item)} {e : Entry} :
    e ∈ visit items ↔ ∃ item ∈ items, Finds item e := by
  have hperm : ∀ item, item ∈ by_name items ↔ item ∈ items := fun item =>
    (List.perm_insertionSort _ items).mem_iff
  simp only [visit, List.mem_append, List.mem_filterMap, List.mem_flatMap, hperm, Finds]
  grind

variable (is_dir : Text → Bool)

mutual
theorem nodes_of_walk : ∀ (t : Tree) (root : Text), ∀ e ∈ walk is_dir root t, e ∈ nodes root t
  | .leaf s kind, root => by simp [walk]
  | .dir s entries, root => by
    intro e he
    rcases List.mem_cons.mp he with rfl | he
    · exact List.mem_cons_self
    · obtain ⟨item, hitem, hfinds⟩ := mem_visit.mp he
      exact List.mem_cons_of_mem _ (nodes_of_scan entries root item hitem e hfinds)

theorem nodes_of_scan : ∀ (entries : Entries) (root : Text), ∀ item ∈ scan is_dir root entries,
    ∀ e, Finds item e → e ∈ nodesIn root entries
  | .nil, root => by simp [scan]
  | .cons name (.dir s entries) rest, root => by
    intro item hitem e hfinds
    rcases List.mem_cons.mp hitem with rfl | hitem
    · have hwalk : e ∈ walk is_dir (join root name) (.dir s entries) := by
        simpa [Finds, file_of, linked_of, subdir_of] using hfinds
      exact List.mem_append_left _ (nodes_of_walk (.dir s entries) (join root name) e hwalk)
    · exact List.mem_append_right _ (nodes_of_scan rest root item hitem e hfinds)
  | .cons name (.leaf s kind) rest, root => by
    intro item hitem e hfinds
    rcases List.mem_cons.mp hitem with rfl | hitem
    · have he : e = ⟨join root name, s, kind⟩ := by
        simp only [Finds, file_of, linked_of, subdir_of] at hfinds
        cases kind with
        | link target => split_ifs at hfinds <;> simp_all
        | directory => simp at hfinds
        | _ => split_ifs at hfinds <;> simp_all
      exact List.mem_append_left _ (by simp [nodes, he])
    · exact List.mem_append_right _ (nodes_of_scan rest root item hitem e hfinds)
end

theorem finds_leaf {name root : Text} {s : Stat} {kind : Kind} (hkind : kind ≠ .directory)
    (hfixme : ¬Fixme ⟨join root name, s, kind⟩) (rest : Entries) :
    ∃ item ∈ scan is_dir root (.cons name (.leaf s kind) rest),
      Finds item ⟨join root name, s, kind⟩ := by
  have hname : name ≠ text "fixmepath" := by
    rintro rfl
    exact hfixme ⟨hkind, root, rfl⟩
  refine ⟨_, List.mem_cons_self, ?_⟩
  simp only [Finds, file_of, linked_of, subdir_of]
  cases kind with
  | directory => exact absurd rfl hkind
  | link target => by_cases hdir : is_dir (join root name) <;> simp [hdir, hname]
  | _ => simp [hname]

mutual
theorem walk_of_nodes : ∀ (s : Stat) (entries : Entries) (root : Text), entries.Each Listed →
    ∀ e ∈ nodes root (.dir s entries), ¬Fixme e → e ∈ walk is_dir root (.dir s entries)
  | s, entries, root => by
    intro hlisted e he hfixme
    rcases List.mem_cons.mp he with rfl | he
    · exact List.mem_cons_self
    · obtain ⟨item, hitem, hfinds⟩ := scan_of_nodes entries root hlisted e he hfixme
      exact List.mem_cons_of_mem _ (mem_visit.mpr ⟨item, hitem, hfinds⟩)

theorem scan_of_nodes : ∀ (entries : Entries) (root : Text), entries.Each Listed →
    ∀ e ∈ nodesIn root entries, ¬Fixme e → ∃ item ∈ scan is_dir root entries, Finds item e
  | .nil, root => by simp [nodesIn]
  | .cons name (.dir s entries) rest, root => by
    intro hlisted e he hfixme
    rcases List.mem_append.mp he with he | he
    · have hwalk := walk_of_nodes s entries (join root name) hlisted.2.1 e he hfixme
      exact ⟨_, List.mem_cons_self, Or.inr (Or.inr hwalk)⟩
    · obtain ⟨item, hitem, hfinds⟩ := scan_of_nodes rest root hlisted.2.2 e he hfixme
      exact ⟨item, List.mem_cons_of_mem _ hitem, hfinds⟩
  | .cons name (.leaf s kind) rest, root => by
    intro hlisted e he hfixme
    rcases List.mem_append.mp he with he | he
    · obtain rfl : e = ⟨join root name, s, kind⟩ := by simpa [nodes] using he
      exact finds_leaf is_dir hlisted.1 hfixme rest
    · obtain ⟨item, hitem, hfinds⟩ := scan_of_nodes rest root hlisted.2.2 e he hfixme
      exact ⟨item, List.mem_cons_of_mem _ hitem, hfinds⟩
end

/-! ## Names -/

/-- A file name without a newline and without an arrow. -/
def Plain (name : Text) (_t : Tree) : Prop := '\n' ∉ name ∧ ¬text " -> " <:+: name

/-- A path that the end of a line and an arrow can be told from. -/
structure PlainPath (path : Text) : Prop where
  newline : '\n' ∉ path
  arrow : ¬text " -> " <:+: path
  start : path.head? = some '.'

theorem PlainPath.join {root name : Text} {t : Tree} (hroot : PlainPath root) (hname : Plain name t) :
    PlainPath (join root name) := by
  refine ⟨?_, fun harrow => ?_, ?_⟩
  · simpa [output_hash.join] using ⟨hroot.newline, hname.1⟩
  · rcases infix_append_cons (by decide) harrow with h | h
    · exact hroot.arrow h
    · exact hname.2 h
  · have hstart := hroot.start
    cases root <;> simp_all [output_hash.join]

mutual
theorem plain_nodes : ∀ (t : Tree) (root : Text), PlainPath root → t.Each Plain →
    ∀ e ∈ nodes root t, PlainPath e.path
  | .leaf s kind, root => by
    intro hroot _ e he
    obtain rfl : e = ⟨root, s, kind⟩ := by simpa [nodes] using he
    exact hroot
  | .dir s entries, root => by
    intro hroot hplain e he
    rcases List.mem_cons.mp he with rfl | he
    · exact hroot
    · exact plain_nodesIn entries root hroot hplain e he

theorem plain_nodesIn : ∀ (entries : Entries) (root : Text), PlainPath root → entries.Each Plain →
    ∀ e ∈ nodesIn root entries, PlainPath e.path
  | .nil, root => by simp [nodesIn]
  | .cons name t rest, root => by
    intro hroot hplain e he
    rcases List.mem_append.mp he with he | he
    · exact plain_nodes t (join root name) (hroot.join hplain.1) hplain.2.1 e he
    · exact plain_nodesIn rest root hroot hplain.2.2 e he
end

theorem arrow_after {path : Text} (harrow : ¬text " -> " <:+: path) (hend : ¬text " ->" <:+ path) :
    ¬text " -> " <:+: path ++ text " ->" := by
  intro h
  obtain ⟨a, b, hab⟩ := h
  -- what stands after the arrow is nothing, or a part of its beginning
  rcases List.append_eq_append_iff.mp hab with ⟨c, hpath, -⟩ | ⟨c, hpath, hc⟩
  · exact harrow ⟨a, c, hpath.symm⟩
  · match c, hc with
    | [], _ => exact harrow ⟨a, [], by simpa using hpath⟩
    | [x], hc =>
      obtain rfl : ' ' = x := by simpa [text] using congrArg List.head? hc
      have hcut : (a ++ text " ->") ++ [' '] = path ++ [' '] := by rw [← hpath]; simp [text]
      exact hend ⟨a, List.append_cancel_right hcut⟩
    | [x, y], hc =>
      have hlast : ' ' = y := by simpa [text] using congrArg List.getLast? hpath
      have hdash : '-' = y := by simpa [text] using congrArg (fun l => l.tail.head?) hc
      exact absurd (hlast.trans hdash.symm) (by decide)
    | [x, y, z], hc =>
      have hlast : ' ' = z := by simpa [text] using congrArg List.getLast? hpath
      have hhead : '>' = z := by simpa [text] using congrArg (fun l => l.tail.tail.head?) hc
      exact absurd (hlast.trans hhead.symm) (by decide)
    | _ :: _ :: _ :: _ :: _, hc => simp [text] at hc

/-! ## The text determines the tree -/

/-- The end of a link can be told from its path, and the owners from one another. -/
structure Told (env : Env) (e : Entry) : Prop where
  target : ∀ target, e.kind = .link target → '\n' ∉ target ∧ ¬text " ->" <:+ e.path
  names : env.include_owners = true →
    ∀ name, env.pw_name e.stat.uid = some name ∨ env.gr_name e.stat.gid = some name → ' ' ∉ name

/-- A tree whose lines can be read: there is no newline and no arrow in its names, all directories are
listed, and the ends of links and the owners can be told. -/
structure Legible (env : Env) (s : Stat) (entries : Entries) : Prop where
  plain : entries.Each Plain
  listed : entries.Each Listed
  told : ∀ e ∈ nodes ['.'] (.dir s entries), Told env e

theorem Legible.clear {env : Env} {s : Stat} {entries : Entries} (h : Legible env s entries) :
    ∀ e ∈ nodes ['.'] (.dir s entries), Clear env e := by
  intro e he
  have hpath := plain_nodes (.dir s entries) ['.'] ⟨by decide, by decide, rfl⟩ h.plain e he
  have htold := h.told e he
  refine ⟨hpath.newline, hpath.start, fun target hkind => ?_, htold.names⟩
  have htarget := htold.target target hkind
  exact ⟨htarget.1, arrow_after hpath.arrow htarget.2⟩

/-- The entries that the text is about, and the files that it passes over: the root is no part of the
output of `package`. -/
def shown (env : Env) (s : Stat) (entries : Entries) : List Entry :=
  if env.include_root then nodes ['.'] (.dir s entries) else nodesIn ['.'] entries

/-- Every entry of one tree has an entry of the other that is alike, but for the files that are passed
over. -/
def Covered (env : Env) (shown shown' : List Entry) : Prop :=
  ∀ e ∈ shown, ¬Fixme e → ∃ e' ∈ shown', Alike env e e'

theorem shown_of_processed {env : Env} {s : Stat} {entries : Entries} {e : Entry}
    (he : e ∈ processed env is_dir (.dir s entries)) : e ∈ shown env s entries := by
  have hvisit : e ∈ visit (scan is_dir ['.'] entries) → e ∈ nodesIn ['.'] entries := by
    intro h
    obtain ⟨item, hitem, hfinds⟩ := mem_visit.mp h
    exact nodes_of_scan is_dir entries ['.'] item hitem e hfinds
  unfold shown
  unfold processed at he
  by_cases hroot : env.include_root
  · simp only [hroot, ↓reduceIte] at he ⊢
    exact nodes_of_walk is_dir (.dir s entries) ['.'] e he
  · simp only [hroot, Bool.false_eq_true, ↓reduceIte] at he ⊢
    exact hvisit he

theorem processed_of_shown {env : Env} {s : Stat} {entries : Entries} (hlisted : entries.Each Listed)
    {e : Entry} (he : e ∈ shown env s entries) (hfixme : ¬Fixme e) :
    e ∈ processed env is_dir (.dir s entries) := by
  have hvisit : e ∈ nodesIn ['.'] entries → e ∈ visit (scan is_dir ['.'] entries) := by
    intro h
    exact mem_visit.mpr (scan_of_nodes is_dir entries ['.'] hlisted e h hfixme)
  unfold shown at he
  unfold processed
  by_cases hroot : env.include_root
  · simp only [hroot, ↓reduceIte] at he ⊢
    exact walk_of_nodes is_dir s entries ['.'] hlisted e he hfixme
  · simp only [hroot, Bool.false_eq_true, ↓reduceIte] at he ⊢
    exact hvisit he

theorem Legible.clear_processed {env : Env} {s : Stat} {entries : Entries} (h : Legible env s entries) :
    ∀ e ∈ processed env is_dir (.dir s entries), Clear env e := by
  intro e he
  have hshown := shown_of_processed is_dir he
  unfold shown at hshown
  split at hshown
  · exact h.clear e hshown
  · exact h.clear e (List.mem_cons_of_mem _ hshown)

theorem OEOuthashBasic_inj {env : Env} {is_dir is_dir' : Text → Bool} {s s' : Stat}
    {entries entries' : Entries} (h : Legible env s entries) (h' : Legible env s' entries')
    {hashed : Text}
    (htext : OEOuthashBasic env is_dir (.dir s entries) = some hashed)
    (htext' : OEOuthashBasic env is_dir' (.dir s' entries') = some hashed) :
    List.Forall₂ (Alike env) (processed env is_dir (.dir s entries))
      (processed env is_dir' (.dir s' entries')) := by
  obtain ⟨lines, hlines, rfl⟩ := Option.map_eq_some_iff.mp htext
  obtain ⟨lines', hlines', heq⟩ := Option.map_eq_some_iff.mp htext'
  exact processed_inj (h.clear_processed is_dir) (h'.clear_processed is_dir') hlines hlines'
    (List.append_cancel_left heq).symm

theorem covered_of_alike {env : Env} {is_dir is_dir' : Text → Bool} {s s' : Stat}
    {entries entries' : Entries} (hlisted : entries.Each Listed)
    (h : List.Forall₂ (Alike env) (processed env is_dir (.dir s entries))
      (processed env is_dir' (.dir s' entries'))) :
    Covered env (shown env s entries) (shown env s' entries') := by
  intro e he hfixme
  obtain ⟨e', he', halike⟩ := raising.exists_of_forall₂ h e (processed_of_shown is_dir hlisted he hfixme)
  exact ⟨e', shown_of_processed is_dir' he', halike⟩

/-! ## The order of the entries -/

def Entries.names : Entries → List Text
  | .nil => []
  | .cons name _ rest => name :: rest.names

mutual
def Tree.Distinct : Tree → Prop
  | .dir _ entries => entries.names.Nodup ∧ entries.Distinct
  | .leaf _ _ => True

def Entries.Distinct : Entries → Prop
  | .nil => True
  | .cons _ t rest => t.Distinct ∧ rest.Distinct
end

/-- The same entries, and the same below them, with every directory read in another order. -/
inductive Reordered : Entries → Entries → Prop
  | nil : Reordered .nil .nil
  | leaf (name : Text) (s : Stat) (kind : Kind) {rest rest' : Entries} :
    Reordered rest rest' → Reordered (.cons name (.leaf s kind) rest) (.cons name (.leaf s kind) rest')
  | dir (name : Text) (s : Stat) {entries entries' rest rest' : Entries} : Reordered entries entries' →
    Reordered rest rest' →
    Reordered (.cons name (.dir s entries) rest) (.cons name (.dir s entries') rest')
  | swap (name name' : Text) (t t' : Tree) (rest : Entries) :
    Reordered (.cons name t (.cons name' t' rest)) (.cons name' t' (.cons name t rest))
  | trans {entries entries' entries'' : Entries} :
    Reordered entries entries' → Reordered entries' entries'' → Reordered entries entries''

theorem by_name_perm {items items' : List (Text × Item)} (hperm : items.Perm items')
    (hnames : (items.map Prod.fst).Nodup) : by_name items = by_name items' := by
  have hsorted : ∀ items : List (Text × Item), (by_name items).Pairwise fun a b => a.1 ≤ b.1 := by
    intro items
    have := List.pairwise_insertionSort (fun a b : Text × Item => decide (a.1 ≤ b.1) = true) items
    exact this.imp of_decide_eq_true
  refine List.Perm.eq_of_pairwise ?_ (hsorted items) (hsorted items') ?_
  · intro a b ha hb hab hba
    have ha : a ∈ items := (List.perm_insertionSort _ items).mem_iff.mp ha
    have hb : b ∈ items := hperm.mem_iff.mpr ((List.perm_insertionSort _ items').mem_iff.mp hb)
    exact List.inj_on_of_nodup_map hnames ha hb (le_antisymm hab hba)
  · exact (List.perm_insertionSort _ items).trans (hperm.trans (List.perm_insertionSort _ items').symm)

theorem names_of_scan : ∀ (entries : Entries) (root : Text),
    (scan is_dir root entries).map Prod.fst = entries.names
  | .nil, root => rfl
  | .cons name (.dir s entries) rest, root => by simp [scan, Entries.names, names_of_scan rest root]
  | .cons name (.leaf s kind) rest, root => by simp [scan, Entries.names, names_of_scan rest root]

theorem scan_cons (root name : Text) (t : Tree) : ∃ item, ∀ rest,
    scan is_dir root (.cons name t rest) = item :: scan is_dir root rest := by
  cases t <;> exact ⟨_, fun rest => rfl⟩

theorem walk_of_scan {s : Stat} {entries entries' : Entries} (hnames : entries.names.Nodup) (root : Text)
    (hscan : (scan is_dir root entries).Perm (scan is_dir root entries')) :
    walk is_dir root (.dir s entries) = walk is_dir root (.dir s entries') := by
  rw [← names_of_scan is_dir entries root] at hnames
  simp only [walk, visit, by_name_perm hscan hnames]

theorem scan_reordered {entries entries' : Entries} (h : Reordered entries entries')
    (hd : entries.Distinct) : entries'.Distinct ∧
    ∀ root, (scan is_dir root entries).Perm (scan is_dir root entries') := by
  induction h with
  | nil => exact ⟨hd, fun root => .refl _⟩
  | leaf name s kind _ ih =>
    obtain ⟨hrest, hscan⟩ := ih hd.2
    exact ⟨⟨hd.1, hrest⟩, fun root => (hscan root).cons _⟩
  | @dir name s entries entries' rest rest' _ _ ih ihrest =>
    obtain ⟨hentries, hscan⟩ := ih hd.1.2
    obtain ⟨hrest, hscan'⟩ := ihrest hd.2
    have hnames : entries'.names.Nodup := by
      have hperm := (hscan []).map Prod.fst
      rw [names_of_scan, names_of_scan] at hperm
      exact hperm.nodup hd.1.1
    refine ⟨⟨⟨hnames, hentries⟩, hrest⟩, fun root => ?_⟩
    simp only [scan]
    rw [walk_of_scan is_dir hd.1.1 (join root name) (hscan (join root name))]
    exact (hscan' root).cons _
  | swap name name' t t' rest =>
    refine ⟨⟨hd.2.1, hd.1, hd.2.2⟩, fun root => ?_⟩
    obtain ⟨item, hitem⟩ := scan_cons is_dir root name t
    obtain ⟨item', hitem'⟩ := scan_cons is_dir root name' t'
    rw [hitem, hitem', hitem', hitem]
    exact .swap item' item _
  | trans _ _ ih ih' =>
    obtain ⟨hd', hscan⟩ := ih hd
    obtain ⟨hd'', hscan'⟩ := ih' hd'
    exact ⟨hd'', fun root => (hscan root).trans (hscan' root)⟩

theorem OEOuthashBasic_reordered {env : Env} {s : Stat} {entries entries' : Entries}
    (h : Reordered entries entries') (hd : (Tree.dir s entries).Distinct) :
    OEOuthashBasic env is_dir (.dir s entries) = OEOuthashBasic env is_dir (.dir s entries') := by
  have hscan := (scan_reordered is_dir h hd.2).2 ['.']
  simp only [OEOuthashBasic, processed, walk_of_scan is_dir hd.1 ['.'] hscan]

/-! ## The place of the tree -/

/-- Every link leads to a directory at both places, or at none. -/
def SameLinks (is_dir is_dir' : Text → Bool) (l : List Entry) : Prop :=
  ∀ e ∈ l, ∀ target, e.kind = .link target → is_dir e.path = is_dir' e.path

mutual
theorem walk_moved {is_dir is_dir' : Text → Bool} : ∀ (t : Tree) (root : Text),
    SameLinks is_dir is_dir' (nodes root t) → walk is_dir root t = walk is_dir' root t
  | .leaf s kind, root => fun _ => rfl
  | .dir s entries, root => by
    intro h
    have hscan := scan_moved entries root fun e he => h e (List.mem_cons_of_mem _ he)
    simp only [walk, hscan]

theorem scan_moved {is_dir is_dir' : Text → Bool} : ∀ (entries : Entries) (root : Text),
    SameLinks is_dir is_dir' (nodesIn root entries) →
    scan is_dir root entries = scan is_dir' root entries
  | .nil, root => fun _ => rfl
  | .cons name (.dir s entries) rest, root => by
    intro h
    have hwalk := walk_moved (.dir s entries) (join root name)
      fun e he => h e (List.mem_append_left _ he)
    have hrest := scan_moved rest root fun e he => h e (List.mem_append_right _ he)
    simp only [scan, hwalk, hrest]
  | .cons name (.leaf s kind) rest, root => by
    intro h
    have hrest := scan_moved rest root fun e he => h e (List.mem_append_right _ he)
    cases kind with
    | link target =>
      have hlink := h ⟨join root name, s, .link target⟩
        (List.mem_append_left _ (by simp [nodes])) target rfl
      simp only [scan, hrest, hlink]
    | _ => simp only [scan, hrest]
end

theorem OEOuthashBasic_moved {env : Env} {is_dir is_dir' : Text → Bool} {t : Tree}
    (h : SameLinks is_dir is_dir' (nodes ['.'] t)) :
    OEOuthashBasic env is_dir t = OEOuthashBasic env is_dir' t := by
  simp only [OEOuthashBasic, processed, walk_moved t ['.'] h]

/-! ## The text and the tree -/

/-- The text determines the tree, as far as a text of this form can, and it depends neither on the
order in which directories are read nor on the place of the tree. -/
theorem text_determines_the_output (env : Env) :
    (∀ (is_dir is_dir' : Text → Bool) (s s' : Stat) (entries entries' : Entries) (hashed : Text),
      Legible env s entries → Legible env s' entries' →
      OEOuthashBasic env is_dir (.dir s entries) = some hashed →
      OEOuthashBasic env is_dir' (.dir s' entries') = some hashed →
      Covered env (shown env s entries) (shown env s' entries') ∧
        Covered env (shown env s' entries') (shown env s entries)) ∧
    (∀ (is_dir : Text → Bool) (s : Stat) (entries entries' : Entries),
      (Tree.dir s entries).Distinct → Reordered entries entries' →
      OEOuthashBasic env is_dir (.dir s entries) = OEOuthashBasic env is_dir (.dir s entries')) ∧
    ∀ (is_dir is_dir' : Text → Bool) (s : Stat) (entries : Entries),
      SameLinks is_dir is_dir' (nodes ['.'] (.dir s entries)) →
      OEOuthashBasic env is_dir (.dir s entries) = OEOuthashBasic env is_dir' (.dir s entries) := by
  refine ⟨?_, ?_, ?_⟩
  · intro is_dir is_dir' s s' entries entries' hashed h h' htext htext'
    exact ⟨covered_of_alike h.listed (OEOuthashBasic_inj h h' htext htext'),
      covered_of_alike h'.listed (OEOuthashBasic_inj h' h htext' htext)⟩
  · intro is_dir s entries entries' hd h
    exact OEOuthashBasic_reordered is_dir h hd
  · intro is_dir is_dir' s entries h
    exact OEOuthashBasic_moved h

/-- The digest of the empty content, and another one of the same length. -/
def digest (content : Bytes) : Text :=
  if content = [] then text "e3b0c44298fc1c149afbf4c8996fb92427ae41e4649b934ca495991b7852b855"
  else List.replicate 64 '0'

/-- A task of a recipe on a host with one user and one group. -/
def env_of (task : String) : Env where
  task := text task
  pseudo := true
  source_date_epoch := 0
  hash_version := []
  extra_sigdata := []
  pkgspec := text "sstate:zlib"
  pw_name := fun uid => if uid = 0 then some (text "root") else none
  gr_name := fun gid => if gid = 0 then some (text "root") else none
  hexdigest := digest
  hexdigest_length := by intro content; unfold digest; split <;> decide

def mode_755 : Mode := ⟨true, true, true, false, true, false, true, false, true, false, true, false⟩

def mode_555 : Mode := ⟨true, false, true, false, true, false, true, false, true, false, true, false⟩

def plain_stat (mode : Mode) : Stat := ⟨mode, 0, 0, 0⟩

def link_to (name target : String) (rest : Entries) : Entries :=
  .cons (text name) (.leaf (plain_stat mode_755) (.link (text target))) rest

def zlib : Entries :=
  link_to "libz.so" "lib/libz.so.1" (.cons (text "lib") (.dir (plain_stat mode_755)
    (.cons (text "libz.so.1") (.leaf (plain_stat mode_755) (.regular [])) .nil)) .nil)

def zlib_reordered : Entries :=
  .cons (text "lib") (.dir (plain_stat mode_755)
    (.cons (text "libz.so.1") (.leaf (plain_stat mode_755) (.regular [])) .nil))
    (link_to "libz.so" "lib/libz.so.1" .nil)

def populate_sysroot : Env := env_of "populate_sysroot"

theorem plain_zlib : zlib.Each Plain :=
  ⟨⟨by decide, by decide⟩, trivial, ⟨by decide, by decide⟩,
    ⟨⟨by decide, by decide⟩, trivial, trivial⟩, trivial⟩

theorem legible_zlib : Legible populate_sysroot (plain_stat mode_755) zlib := by
  refine ⟨plain_zlib, ?_, fun e he => ⟨?_, ?_⟩⟩
  · simp [zlib, link_to, Entries.Each, Tree.Each, Listed]
  · intro target hkind
    simp only [zlib, link_to, nodes, nodesIn, List.mem_cons, List.mem_append, List.not_mem_nil,
      or_false] at he
    rcases he with rfl | rfl | rfl | rfl
    · simp at hkind
    · obtain rfl := Kind.link.inj hkind
      exact ⟨by decide, by decide⟩
    · simp at hkind
    · simp at hkind
  · intro _ name hname
    obtain rfl : text "root" = name := by
      simp only [populate_sysroot, env_of] at hname
      grind
    decide

theorem zlib_is_determined :
    OEOuthashBasic populate_sysroot (fun _ => false) (.dir (plain_stat mode_755) zlib) =
      OEOuthashBasic populate_sysroot (fun _ => false) (.dir (plain_stat mode_755) zlib_reordered) ∧
    OEOuthashBasic populate_sysroot (fun _ => false) (.dir (plain_stat mode_755) zlib) =
      OEOuthashBasic populate_sysroot (fun path => path == text "./lib")
        (.dir (plain_stat mode_755) zlib) ∧
    Covered populate_sysroot (shown populate_sysroot (plain_stat mode_755) zlib)
      (shown populate_sysroot (plain_stat mode_755) zlib) := by
  obtain ⟨hdetermines, horder, hplace⟩ := text_determines_the_output populate_sysroot
  refine ⟨horder _ _ _ _ ?_ (.swap _ _ _ _ _), hplace _ _ _ _ ?_, ?_⟩
  · exact ⟨by decide, trivial, ⟨by decide, trivial, trivial⟩, trivial⟩
  · intro e he target hkind
    simp only [zlib, link_to, nodes, nodesIn, List.mem_cons, List.mem_append, List.not_mem_nil,
      or_false] at he
    rcases he with rfl | rfl | rfl | rfl <;> first | decide | simp at hkind
  · obtain ⟨hashed, htext⟩ := Option.isSome_iff_exists.mp (show (OEOuthashBasic populate_sysroot
      (fun _ => false) (.dir (plain_stat mode_755) zlib)).isSome = true by decide +kernel)
    exact (hdetermines _ _ _ _ _ _ hashed legible_zlib legible_zlib htext htext).1

theorem not_covered {env : Env} {l l' : List Entry} (e : Entry) (he : e ∈ l)
    (hlast : e.path.getLast? ≠ some 'h') (h : ∀ e' ∈ l', ¬Alike env e e') : ¬Covered env l l' := by
  have hfixme : ¬Fixme e := by
    rintro ⟨-, root, hroot⟩
    exact hlast (by simp [hroot, join, text])
  intro hcovered
  obtain ⟨e', he', halike⟩ := hcovered e he hfixme
  exact h e' he' halike

/-- Two outputs with names as they should be, and one text, that differ. -/
def Collide (env : Env) (s s' : Stat) (entries entries' : Entries) : Prop :=
  entries.Each Plain ∧ entries'.Each Plain ∧
    OEOuthashBasic env (fun _ => false) (.dir s entries) =
      OEOuthashBasic env (fun _ => false) (.dir s' entries') ∧
    ¬Covered env (nodes ['.'] (.dir s entries)) (nodes ['.'] (.dir s' entries'))

theorem collide_of_path {env : Env} {entries entries' : Entries} (hplain : entries.Each Plain)
    (hplain' : entries'.Each Plain)
    (htext : OEOuthashBasic env (fun _ => false) (.dir (plain_stat mode_755) entries) =
      OEOuthashBasic env (fun _ => false) (.dir (plain_stat mode_755) entries'))
    (e : Entry) (he : e ∈ nodes ['.'] (.dir (plain_stat mode_755) entries))
    (hlast : e.path.getLast? ≠ some 'h')
    (h : ∀ e' ∈ nodes ['.'] (.dir (plain_stat mode_755) entries'), e.path ≠ e'.path) :
    Collide env (plain_stat mode_755) (plain_stat mode_755) entries entries' :=
  ⟨hplain, hplain', htext, not_covered e he hlast fun e' he' halike => h e' he' halike.path⟩

def spaced : Env := { populate_sysroot with
  pw_name := fun uid => some (if uid = 0 then text "build-host a" else text "build-host")
  gr_name := fun gid => some (if gid = 0 then text "build-users" else text "a build-users") }

/-- The line of a link, which another link may have in its target. -/
def target_of_two : String :=
  "b\nlrwxr-xr-x       root       root " ++ "          " ++ "           " ++
    "                                                                 ./c -> d"

theorem different_outputs_have_one_text :
    -- the root is no part of the text of `package`
    Collide (env_of "package") (plain_stat mode_755) (plain_stat mode_555) .nil .nil ∧
    -- the beginning of an arrow at the end of a name
    Collide populate_sysroot (plain_stat mode_755) (plain_stat mode_755) (link_to "a ->" "b" .nil)
      (link_to "a" "-> b" .nil) ∧
    -- a target of two lines
    Collide populate_sysroot (plain_stat mode_755) (plain_stat mode_755)
      (link_to "a" "b" (link_to "c" "d" .nil)) (link_to "a" target_of_two .nil) ∧
    -- a directory that cannot be listed
    Collide populate_sysroot (plain_stat mode_755) (plain_stat mode_755)
      (.cons (text "lib") (.leaf (plain_stat mode_755) .directory) .nil) .nil ∧
    -- owners whose names have spaces
    Collide spaced (plain_stat mode_755) ⟨mode_755, 1, 1, 0⟩ .nil .nil ∧
    -- a link that leads to a directory at one place only
    OEOuthashBasic populate_sysroot (fun _ => false)
        (.dir (plain_stat mode_755) (link_to "a" "../b" (link_to "c" "d" .nil))) ≠
      OEOuthashBasic populate_sysroot (fun path => path == text "./a")
        (.dir (plain_stat mode_755) (link_to "a" "../b" (link_to "c" "d" .nil))) := by
  refine ⟨⟨trivial, trivial, by decide +kernel, ?_⟩, ?_, ?_, ?_,
    ⟨trivial, trivial, by decide +kernel, ?_⟩, by decide +kernel⟩
  · refine not_covered ⟨['.'], plain_stat mode_755, .directory⟩ List.mem_cons_self (by decide) ?_
    intro e' he' halike
    obtain rfl := List.mem_singleton.mp he'
    exact absurd halike.owner_w (by decide)
  · exact collide_of_path ⟨⟨by decide, by decide⟩, trivial, trivial⟩
      ⟨⟨by decide, by decide⟩, trivial, trivial⟩ (by decide +kernel)
      ⟨text "./a ->", plain_stat mode_755, .link (text "b")⟩ (by decide) (by decide) (by decide)
  · exact collide_of_path ⟨⟨by decide, by decide⟩, trivial, ⟨by decide, by decide⟩, trivial, trivial⟩
      ⟨⟨by decide, by decide⟩, trivial, trivial⟩ (by decide +kernel)
      ⟨text "./c", plain_stat mode_755, .link (text "d")⟩ (by decide) (by decide) (by decide)
  · exact collide_of_path ⟨⟨by decide, by decide⟩, trivial, trivial⟩ trivial (by decide +kernel)
      ⟨text "./lib", plain_stat mode_755, .directory⟩ (by decide) (by decide) (by decide)
  · refine not_covered ⟨['.'], plain_stat mode_755, .directory⟩ List.mem_cons_self (by decide) ?_
    intro e' he' halike
    obtain rfl := List.mem_singleton.mp he'
    exact absurd (halike.group_other (by decide)).2.1 (by decide)

end yocto.output_hash
