-- The cleaning of the stamps of a task. The mask is a glob that is made of the path of the
-- stamps, and the mask of the setscene variant is made by text replacement.
import Yocto.Globs
import Yocto.Replacing
import Mathlib.Data.List.DropRight
import Mathlib.Tactic

open yocto.task_ids yocto.list_search yocto.globs

namespace yocto.stamp_cleaning

/-! ## Files, recipes and tasks -/

@[ext]
structure File where
  parts : List Text
  named : ∀ c ∈ parts, c ≠ [] ∧ '/' ∉ c

def path (parts : List Text) : Text := parts.flatMap ('/' :: ·)

/-- The stamp base path of a recipe, and the extra information of its tasks. -/
structure Recipe where
  dir : List Text
  base : Text
  named : ∀ c ∈ base :: dir, c ≠ [] ∧ '/' ∉ c
  stamp_extrainfo : Text → Text
  extra_no_slash : ∀ task, '/' ∉ stamp_extrainfo task

def Recipe.stamp (r : Recipe) : Text := path (r.dir ++ [r.base])

structure Task where
  name : Text
  starts : text "do_" <+: name
  no_slash : '/' ∉ name
  plain : ∀ c ∈ name, is_special c = false
  no_setscene : ¬ text "_setscene" <:+ name

/-- The variant of a task that takes its result from a cache. -/
def Task.setscene (t : Task) : Text := t.name ++ text "_setscene"

structure Hash where
  digits : Text
  nonempty : digits ≠ []
  hexadecimal : ∀ c ∈ digits, c ∈ text "0123456789abcdef"

/-! ## The functions -/

def taskflagname (taskname : Text) : Text :=
  if (text "_setscene").isSuffixOf taskname then replace (text "_setscene") [] taskname else taskname

def stampfile (r : Recipe) (taskname h : Text) : Text :=
  let extrainfo := r.stamp_extrainfo (taskflagname taskname)
  (r.stamp ++ '.' :: (taskname ++ '.' :: (h ++ '.' :: extrainfo))).rdropWhile (· = '.')

def stampcleanmask (r : Recipe) (taskname : Text) : Text := stampfile r taskname ['*']

def get_cleanmask (r : Recipe) (taskname : Text) : List Text :=
  let cleanmask := stampcleanmask r taskname
  let taskflagname := replace (text "_setscene") [] taskname
  [cleanmask, replace taskflagname (taskflagname ++ text "_setscene") cleanmask]

def has_magic (s : Text) : Bool := s.any is_special

def is_hidden (s : Text) : Bool := s.head? = some '.'

/-- What `glob` does with one name of a path. -/
def matched (pat name : Text) : Bool :=
  if has_magic pat then (!is_hidden name || is_hidden pat) && fnmatch name pat else name = pat

def all_matched : List Text → List Text → Bool
  | [], [] => true
  | pat :: pats, name :: names => matched pat name && all_matched pats names
  | _, _ => false

def names (pathname : Text) : List Text := (pathname.splitOn '/').filter (· ≠ [])

/-- Whether `glob` finds a file. -/
def caught (mask : Text) (f : File) : Bool := all_matched (names mask) f.parts

/-- Files with signature data and taint files are preserved. -/
def preserved (name : Text) : Bool :=
  (find (text "sigdata") name).isSome || (find (text "sigbasedata") name).isSome || (text ".taint").isSuffixOf name

def clean_mask (mask : Text) (contents : List File) : List File :=
  contents.filter fun f => !(caught mask f && !preserved (path f.parts))

def clean_stamp (r : Recipe) (task : Text) (contents : List File) : List File :=
  (get_cleanmask r task).foldl (fun contents mask => clean_mask mask contents) contents

/-- The file of a stamp is removed and made again. -/
def make_stamp (r : Recipe) (task h : Text) (stamp : File) (contents : List File) : List File :=
  let contents := (clean_stamp r task contents).filter fun f => !caught (stampfile r task h) f
  stamp :: contents

/-! ## The stamps of a task -/

/-- What stands behind the hash in the name of a stamp. -/
def ending (r : Recipe) (taskname : Text) : Text :=
  let extrainfo := (r.stamp_extrainfo (taskflagname taskname)).rdropWhile (· = '.')
  if extrainfo = [] then [] else '.' :: extrainfo

def Own (r : Recipe) (t : Task) (f : File) : Prop :=
  ∃ h : Hash, path f.parts = stampfile r t.name h.digits ∨ path f.parts = stampfile r t.setscene h.digits

/-- A file that is named like a stamp of the task and is none, without a hash in its name. -/
def Lookalike (r : Recipe) (t : Task) (f : File) : Prop :=
  ¬ Own r t f ∧ preserved (path f.parts) = false ∧ ∃ taskname mid,
    (taskname = t.name ∨ taskname = t.setscene) ∧ '/' ∉ mid ∧
      path f.parts = r.stamp ++ '.' :: (taskname ++ '.' :: (mid ++ ending r t.name))

/-- All stamps of the task are removed and nothing else, and the new one is its only stamp. -/
def Exact (r : Recipe) (t : Task) (contents : List File) : Prop :=
  (∀ f, f ∈ clean_stamp r t.name contents ↔ f ∈ contents ∧ ¬ Own r t f) ∧
    ∀ (h : Hash) (stamp : File), path stamp.parts = stampfile r t.name h.digits →
      ∀ f, Own r t f → (f ∈ make_stamp r t.name h.digits stamp contents ↔ f = stamp)

/-- The stamps of a task can be told by their mask. -/
structure Plain (r : Recipe) (t : Task) : Prop where
  dir_literal : ∀ c ∈ r.dir, Literal c []
  base_literal : Literal r.base ('.' :: (t.name ++ '.' :: '*' :: ending r t.name))
  ending_literal : Literal (ending r t.name) []
  /-- The name of the task stands nowhere else in the mask. -/
  alone : ¬ t.name <:+: r.stamp ++ '.' :: t.name.dropLast ∧ ¬ t.name <:+: ending r t.name
  no_setscene : ¬ text "_setscene" <:+: t.name
  unmarked : ∀ word ∈ [text "sigdata", text "sigbasedata"],
    ¬ word <:+: r.stamp ∧ ¬ word <:+: t.name ∧ ¬ word <:+: ending r t.name
  untainted : ¬ text ".taint" <:+ ending r t.name

/-! ## Files and masks -/

variable {r : Recipe} {t : Task} {f : File}

theorem path_concat (parts : List Text) (name x : Text) :
    path (parts ++ [name ++ x]) = path (parts ++ [name]) ++ x := by
  simp [path]

theorem names_path {parts : List Text} (h : ∀ c ∈ parts, c ≠ [] ∧ '/' ∉ c) : names (path parts) = parts := by
  have hnames : ∀ (parts : List Text) (c : Text), (∀ d ∈ c :: parts, d ≠ [] ∧ '/' ∉ d) →
      names (c ++ path parts) = c :: parts := by
    intro parts
    induction parts with
    | nil =>
      intro c hc
      have hc := hc c List.mem_cons_self
      simp [names, path, List.splitOn_eq_singleton hc.2, hc.1]
    | cons d parts ih =>
      intro c hc
      have hrest := ih d fun e he => hc e (List.mem_cons_of_mem _ he)
      have hc := hc c List.mem_cons_self
      have hpath : path (d :: parts) = '/' :: (d ++ path parts) := rfl
      unfold names at hrest ⊢
      rw [hpath, List.splitOn_append_cons_self_of_not_mem hc.2, List.filter_cons, if_pos (by simpa using hc.1), hrest]
  cases parts with
  | nil => rfl
  | cons c parts =>
    have hpath : path (c :: parts) = [] ++ '/' :: (c ++ path parts) := rfl
    have hrest := hnames parts c h
    unfold names at hrest ⊢
    rw [hpath, List.splitOn_append_cons_self_of_not_mem List.not_mem_nil, List.filter_cons, if_neg (by simp), hrest]

theorem Recipe.named_concat (r : Recipe) {x : Text} (hx : '/' ∉ x) :
    ∀ c ∈ r.dir ++ [r.base ++ x], c ≠ [] ∧ '/' ∉ c := by
  intro c hc
  rcases List.mem_append.mp hc with hc | hc
  · exact r.named c (List.mem_cons_of_mem _ hc)
  · obtain ⟨hne, hslash⟩ := r.named r.base List.mem_cons_self
    rw [List.mem_singleton.mp hc]
    simp [hne, hslash, hx]

theorem names_stamp {x : Text} (hx : '/' ∉ x) : names (r.stamp ++ x) = r.dir ++ [r.base ++ x] := by
  unfold Recipe.stamp
  rw [← path_concat, names_path (r.named_concat hx)]

theorem path_eq_iff {x : Text} (hx : '/' ∉ x) : path f.parts = r.stamp ++ x ↔ f.parts = r.dir ++ [r.base ++ x] := by
  constructor
  · intro h
    rw [← names_path f.named, h, names_stamp hx]
  · intro h
    rw [h, path_concat]
    rfl

theorem matched_literal {p : Text} (h : Literal p []) (name : Text) : matched p name = true ↔ name = p := by
  unfold matched
  rw [fnmatch_literal h]
  by_cases heq : name = p
  · simp [heq]
  · simp [heq]

theorem matched_star {p q : Text} (hne : p ≠ []) (hp : Literal p ('*' :: q)) (hq : Literal q []) (name : Text) :
    matched (p ++ '*' :: q) name = true ↔ ∃ mid, name = p ++ (mid ++ q) := by
  have hmagic : has_magic (p ++ '*' :: q) = true := by
    unfold has_magic
    rw [List.any_eq_true]
    exact ⟨'*', by simp, by decide⟩
  unfold matched
  rw [if_pos hmagic, Bool.and_eq_true, fnmatch_star hp hq]
  constructor
  · exact fun h => h.2
  · rintro ⟨mid, rfl⟩
    refine ⟨?_, mid, rfl⟩
    obtain ⟨c, p, rfl⟩ := List.exists_cons_of_ne_nil hne
    simp [is_hidden]

theorem all_matched_literal {pats : List Text} (h : ∀ p ∈ pats, Literal p []) (parts : List Text) :
    all_matched pats parts = true ↔ parts = pats := by
  induction pats generalizing parts with
  | nil => cases parts <;> simp [all_matched]
  | cons p pats ih =>
    rw [List.forall_mem_cons] at h
    cases parts with
    | nil => simp [all_matched]
    | cons name parts => rw [all_matched, Bool.and_eq_true, matched_literal h.1, ih h.2, List.cons.injEq]

theorem all_matched_append {a b c d : List Text} (hlength : a.length = c.length) :
    all_matched (a ++ b) (c ++ d) = (all_matched a c && all_matched b d) := by
  induction a generalizing c with
  | nil =>
    obtain rfl := List.length_eq_zero_iff.mp hlength.symm
    rfl
  | cons x a ih =>
    cases c with
    | nil => cases hlength
    | cons y c =>
      rw [List.cons_append, List.cons_append, all_matched, all_matched, ih (Nat.succ.inj hlength), Bool.and_assoc]

theorem all_matched_length {a b : List Text} (h : all_matched a b = true) : a.length = b.length := by
  induction a generalizing b with
  | nil =>
    cases b with
    | nil => rfl
    | cons y b => cases h
  | cons x a ih =>
    cases b with
    | nil => cases h
    | cons y b =>
      rw [all_matched, Bool.and_eq_true] at h
      rw [List.length_cons, List.length_cons, ih h.2]

theorem all_matched_concat {pats : List Text} {last : Text} {parts : List Text} :
    all_matched (pats ++ [last]) parts = true ↔
      ∃ front name, parts = front ++ [name] ∧ all_matched pats front = true ∧ matched last name = true := by
  constructor
  · intro h
    have hlength := all_matched_length h
    rw [List.length_append, List.length_singleton] at hlength
    obtain ⟨front, name, rfl⟩ := (List.eq_nil_or_concat' parts).resolve_left (by
      rintro rfl
      cases hlength)
    have hfront : pats.length = front.length := by simpa using hlength
    rw [all_matched_append hfront, Bool.and_eq_true] at h
    refine ⟨front, name, rfl, h.1, ?_⟩
    simpa [all_matched] using h.2
  · rintro ⟨front, name, rfl, hfront, hname⟩
    rw [all_matched_append (all_matched_length hfront), hfront]
    simpa [all_matched] using hname

theorem caught_star {x q : Text} (hx : '/' ∉ x) (hq : '/' ∉ q) (hdir : ∀ c ∈ r.dir, Literal c [])
    (hbase : Literal (r.base ++ x) ('*' :: q)) (hend : Literal q []) :
    caught (r.stamp ++ (x ++ '*' :: q)) f = true ↔ ∃ mid, f.parts = r.dir ++ [r.base ++ (x ++ (mid ++ q))] := by
  have hne : r.base ++ x ≠ [] := by simp [(r.named r.base List.mem_cons_self).1]
  unfold caught
  rw [names_stamp (by simp [hx, hq]), all_matched_concat, ← List.append_assoc]
  simp only [all_matched_literal hdir, matched_star hne hbase hend]
  constructor
  · rintro ⟨_, _, hparts, rfl, mid, rfl⟩
    exact ⟨mid, by rw [hparts, List.append_assoc]⟩
  · rintro ⟨mid, hparts⟩
    exact ⟨r.dir, _, hparts, rfl, mid, (List.append_assoc _ _ _).symm⟩

/-! ## Names of stamps -/

theorem ending_cases (r : Recipe) (taskname : Text) :
    ending r taskname = [] ∨ ∃ rest, ending r taskname = '.' :: rest := by
  unfold ending
  dsimp only
  split
  · exact Or.inl rfl
  · exact Or.inr ⟨_, rfl⟩

theorem ending_no_slash (r : Recipe) (taskname : Text) : '/' ∉ ending r taskname := by
  have hextra := r.extra_no_slash (taskflagname taskname)
  unfold ending
  dsimp only
  split
  · exact List.not_mem_nil
  · intro h
    rcases List.mem_cons.mp h with h | h
    · exact absurd h (by decide)
    · have hpart : (r.stamp_extrainfo (taskflagname taskname)).rdropWhile (· = '.') <+:
          r.stamp_extrainfo (taskflagname taskname) := List.rdropWhile_prefix _ _
      exact hextra (hpart.subset h)

theorem rdropWhile_ending {a : Text} {c : Char} (hc : c ≠ '.') (r : Recipe) (taskname : Text) :
    ((a ++ [c]) ++ '.' :: r.stamp_extrainfo (taskflagname taskname)).rdropWhile (· = '.') =
      (a ++ [c]) ++ ending r taskname := by
  unfold ending
  generalize r.stamp_extrainfo (taskflagname taskname) = extra
  induction extra using List.reverseRecOn with
  | nil =>
    rw [List.rdropWhile_concat_pos _ _ _ (by simp), List.rdropWhile_concat_neg _ _ _ (by simpa using hc)]
    simp
  | append_singleton extra d ih =>
    rw [← List.cons_append, ← List.append_assoc]
    by_cases hd : d = '.'
    · rw [List.rdropWhile_concat_pos _ _ _ (by simpa using hd),
        List.rdropWhile_concat_pos _ _ _ (by simpa using hd), ih]
    · rw [List.rdropWhile_concat_neg _ _ _ (by simpa using hd), List.rdropWhile_concat_neg _ _ _ (by simpa using hd)]
      simp

theorem stampfile_eq {h : Text} {c : Char} (hc : c ≠ '.') (r : Recipe) (taskname : Text) :
    stampfile r taskname (h ++ [c]) = r.stamp ++ ('.' :: (taskname ++ '.' :: ((h ++ [c]) ++ ending r taskname))) := by
  have hstart : r.stamp ++
      '.' :: (taskname ++ '.' :: ((h ++ [c]) ++ '.' :: r.stamp_extrainfo (taskflagname taskname))) =
      (r.stamp ++ '.' :: (taskname ++ '.' :: h)) ++ [c] ++ '.' :: r.stamp_extrainfo (taskflagname taskname) := by
    simp
  unfold stampfile
  dsimp only
  rw [hstart, rdropWhile_ending hc]
  simp

theorem Hash.no_slash (h : Hash) : '/' ∉ h.digits := fun hmem =>
  absurd (h.hexadecimal _ hmem) (by decide)

theorem Hash.stampfile (h : Hash) (r : Recipe) (taskname : Text) :
    stampfile r taskname h.digits = r.stamp ++ ('.' :: (taskname ++ '.' :: (h.digits ++ ending r taskname))) := by
  obtain ⟨front, c, hdigits⟩ := (List.eq_nil_or_concat' h.digits).resolve_left h.nonempty
  have hmem := h.hexadecimal c (by rw [hdigits]; simp)
  have hc : c ≠ '.' := by
    rintro rfl
    exact absurd hmem (by decide)
  rw [hdigits]
  exact stampfile_eq hc r taskname

/-- The mask of a task, and what is left of it to say. -/
def mask (r : Recipe) (taskname e : Text) : Text := r.stamp ++ ('.' :: (taskname ++ ['.']) ++ '*' :: e)

theorem stampcleanmask_eq (r : Recipe) (taskname : Text) :
    stampcleanmask r taskname = mask r taskname (ending r taskname) := by
  have h := stampfile_eq (h := []) (c := '*') (by decide) r taskname
  unfold stampcleanmask mask
  rw [List.nil_append] at h
  rw [h]
  simp

theorem Task.taskflagname_name (t : Task) : taskflagname t.name = t.name := by
  unfold taskflagname
  rw [if_neg]
  rw [List.isSuffixOf_iff_suffix]
  exact t.no_setscene

theorem ending_congr {r : Recipe} {a b : Text} (h : taskflagname a = taskflagname b) : ending r a = ending r b := by
  unfold ending
  rw [h]

theorem Task.taskflagname_setscene (t : Task) (h : ¬ text "_setscene" <:+: t.name) :
    taskflagname t.setscene = t.name := by
  have hmarker : Marker (text "_setscene") := by decide
  have hreplace := hmarker.replace_append [] [] h
  unfold taskflagname Task.setscene
  rw [if_pos (List.isSuffixOf_iff_suffix.mpr (List.suffix_append _ _))]
  have hnil : replace (text "_setscene") [] [] = [] := rfl
  simpa [hnil] using hreplace

theorem ending_setscene (h : ¬ text "_setscene" <:+: t.name) : ending r t.setscene = ending r t.name :=
  ending_congr ((t.taskflagname_setscene h).trans t.taskflagname_name.symm)

theorem Task.ne_nil (t : Task) : t.name ≠ [] := by
  intro h
  have := t.starts
  rw [h, List.prefix_nil] at this
  exact absurd this (by decide)

theorem Plain.get_cleanmask (h : Plain r t) :
    get_cleanmask r t.name = [mask r t.name (ending r t.name), mask r t.setscene (ending r t.name)] := by
  have hname : t.name = t.name.dropLast ++ [t.name.getLast t.ne_nil] := (List.dropLast_append_getLast t.ne_nil).symm
  have hstart : ∀ k < (r.stamp ++ ['.']).length,
      ¬ t.name <+: (r.stamp ++ ['.']).drop k ++ (t.name ++ '.' :: '*' :: ending r t.name) := by
    intro k hk hahead
    apply h.alone.1
    have hlong : t.name <+: (r.stamp ++ ['.']).drop k ++ t.name.dropLast := by
      have hother : (r.stamp ++ ['.']).drop k ++ t.name.dropLast <+:
          (r.stamp ++ ['.']).drop k ++ (t.name ++ '.' :: '*' :: ending r t.name) := by
        have hpart : t.name.dropLast <+: t.name := List.dropLast_prefix _
        exact (List.prefix_append_right_inj _).mpr (hpart.trans (List.prefix_append _ _))
      apply List.prefix_of_prefix_length_le hahead hother
      rw [List.length_append, List.length_drop, List.length_dropLast]
      have := List.length_pos_iff.mpr t.ne_nil
      omega
    have hall : r.stamp ++ '.' :: t.name.dropLast = (r.stamp ++ ['.']) ++ t.name.dropLast := by simp
    rw [hall, ← List.take_append_drop k (r.stamp ++ ['.']), List.append_assoc]
    exact hlong.isInfix.trans (List.suffix_append _ _).isInfix
  have hend : ¬ t.name <:+: '.' :: '*' :: ending r t.name := by
    intro hwithin
    obtain ⟨rest, hrest⟩ := t.starts
    rw [List.infix_cons_iff, List.infix_cons_iff] at hwithin
    rcases hwithin with hwithin | hwithin | hwithin
    · rw [← hrest] at hwithin
      exact absurd (List.cons_prefix_cons.mp hwithin).1 (by decide)
    · rw [← hrest] at hwithin
      exact absurd (List.cons_prefix_cons.mp hwithin).1 (by decide)
    · exact h.alone.2 hwithin
  have hmask : mask r t.name (ending r t.name) =
      (r.stamp ++ ['.']) ++ (t.name ++ '.' :: '*' :: ending r t.name) := by simp [mask]
  unfold stamp_cleaning.get_cleanmask
  dsimp only
  rw [stampcleanmask_eq, replace_of_absent [] h.no_setscene, hmask, replace_append_of_no_start _ hstart,
    replace_start t.ne_nil, replace_of_absent _ hend]
  simp [mask, Task.setscene]

/-! ## Files that are preserved -/

theorem find_isSome {pat s : Text} : (find pat s).isSome = true ↔ pat <:+: s := by
  rw [← not_iff_not, Bool.not_eq_true, Option.isSome_eq_false_iff, Option.isNone_iff_eq_none, find_eq_none_iff]

theorem preserved_iff {name : Text} : preserved name = true ↔
    (∃ word ∈ [text "sigdata", text "sigbasedata"], word <:+: name) ∨ text ".taint" <:+ name := by
  unfold preserved
  rw [Bool.or_eq_true, Bool.or_eq_true, find_isSome, find_isSome, List.isSuffixOf_iff_suffix]
  simp

theorem marked_iff {word taskname : Text} {h : Hash} {e : Text} (hword : word ∈ [text "sigdata", text "sigbasedata"])
    (he : e = [] ∨ ∃ rest, e = '.' :: rest) :
    word <:+: r.stamp ++ ('.' :: (taskname ++ '.' :: (h.digits ++ e))) ↔
      word <:+: r.stamp ∨ word <:+: taskname ∨ word <:+: e := by
  have hdot : '.' ∉ word := by
    rcases List.mem_pair.mp hword with rfl | rfl <;> decide
  have hs : 's' ∈ word := by
    rcases List.mem_pair.mp hword with rfl | rfl <;> decide
  have hhash : ¬ word <:+: h.digits := fun hwithin =>
    absurd (h.hexadecimal 's' (hwithin.subset hs)) (by decide)
  constructor
  · intro hwithin
    rcases infix_append_cons hdot hwithin with hwithin | hwithin
    · exact Or.inl hwithin
    rcases infix_append_cons hdot hwithin with hwithin | hwithin
    · exact Or.inr (Or.inl hwithin)
    rcases he with rfl | ⟨rest, rfl⟩
    · rw [List.append_nil] at hwithin
      exact absurd hwithin hhash
    · rcases infix_append_cons hdot hwithin with hwithin | hwithin
      · exact absurd hwithin hhash
      · exact Or.inr (Or.inr (hwithin.trans (List.suffix_cons _ _).isInfix))
  · rintro (hwithin | hwithin | hwithin)
    · exact hwithin.trans (List.prefix_append _ _).isInfix
    · refine hwithin.trans (List.IsInfix.trans ?_ (List.suffix_append _ _).isInfix)
      exact ⟨['.'], '.' :: (h.digits ++ e), by simp⟩
    · refine hwithin.trans (List.IsSuffix.isInfix ⟨r.stamp ++ '.' :: (taskname ++ '.' :: h.digits), by simp⟩)

theorem tainted_iff (front : Text) {h : Hash} {e : Text} (he : e = [] ∨ ∃ rest, e = '.' :: rest) :
    text ".taint" <:+ front ++ (h.digits ++ e) ↔ text ".taint" <:+ e := by
  constructor
  · intro hsuffix
    have hother : e <:+ front ++ (h.digits ++ e) := by
      rw [← List.append_assoc]
      exact List.suffix_append _ _
    rcases List.suffix_or_suffix_of_suffix hsuffix hother with hshort | hshort
    · exact hshort
    rcases he with rfl | ⟨rest, rfl⟩
    · obtain ⟨digits, c, hdigits⟩ := (List.eq_nil_or_concat' h.digits).resolve_left h.nonempty
      have hmem := h.hexadecimal c (by rw [hdigits]; simp)
      have htaint : text ".taint" = text ".tain" ++ ['t'] := rfl
      obtain ⟨u, hu⟩ := hsuffix
      rw [hdigits, htaint, List.append_nil, ← List.append_assoc, ← List.append_assoc] at hu
      have hlast := (List.append_inj' hu rfl).2
      obtain rfl : 't' = c := by simpa using hlast
      exact absurd hmem (by decide)
    · have hcases : ∀ s, '.' :: s <:+ text ".taint" → '.' :: s = text ".taint" := by
        intro s hs
        have hmem : '.' :: s ∈ (text ".taint").tails := (List.mem_tails _ _).mpr hs
        have htails : (text ".taint").tails =
            [text ".taint", text "taint", text "aint", text "int", text "nt", text "t", []] := by
          decide
        rw [htails] at hmem
        simp [text] at hmem
        simp [text, hmem]
      rw [hcases rest hshort]
  · exact fun hsuffix => hsuffix.trans ((List.suffix_append _ _).trans (List.suffix_append _ _))

/-! ## What is cleaned -/

theorem mem_clean_stamp {taskname : Text} {contents : List File} : f ∈ clean_stamp r taskname contents ↔
    f ∈ contents ∧ ∀ m ∈ get_cleanmask r taskname, caught m f = true → preserved (path f.parts) = true := by
  have hmasks : ∀ (masks : List Text) (contents : List File),
      f ∈ masks.foldl (fun contents m => clean_mask m contents) contents ↔
        f ∈ contents ∧ ∀ m ∈ masks, caught m f = true → preserved (path f.parts) = true := by
    intro masks
    induction masks with
    | nil => simp
    | cons m masks ih =>
      intro contents
      rw [List.foldl_cons, ih, List.forall_mem_cons]
      unfold clean_mask
      rw [List.mem_filter, and_assoc]
      cases caught m f <;> simp
  exact hmasks _ _

theorem plain_of_no_magic {s : Text} (h : has_magic s = false) : ∀ c ∈ s, is_special c = false := by
  intro c hc
  exact Bool.eq_false_iff.mpr (List.any_eq_false.mp h c hc)

theorem Task.no_dot_special (t : Task) {taskname : Text} (h : taskname = t.name ∨ taskname = t.setscene) :
    (∀ c ∈ '.' :: (taskname ++ ['.']), is_special c = false) ∧ '/' ∉ '.' :: (taskname ++ ['.']) := by
  have hset : (∀ c ∈ text "_setscene", is_special c = false) ∧ '/' ∉ text "_setscene" :=
    ⟨plain_of_no_magic (by decide), by decide⟩
  have hdot : is_special '.' = false := by decide
  rcases h with rfl | rfl
  · constructor
    · simp only [List.mem_cons, List.mem_append, List.not_mem_nil, or_false]
      rintro c (rfl | hc | rfl)
      · exact hdot
      · exact t.plain c hc
      · exact hdot
    · simp [t.no_slash]
  · unfold Task.setscene
    constructor
    · simp only [List.mem_cons, List.mem_append, List.not_mem_nil, or_false]
      rintro c (rfl | (hc | hc) | rfl)
      · exact hdot
      · exact t.plain c hc
      · exact hset.1 c hc
      · exact hdot
    · simp [t.no_slash, hset.2]

theorem Plain.literal (h : Plain r t) {taskname : Text} (htask : taskname = t.name ∨ taskname = t.setscene) :
    Literal (r.base ++ '.' :: (taskname ++ ['.'])) ('*' :: ending r t.name) := by
  have hbase : Literal r.base ('.' :: (taskname ++ ['.']) ++ '*' :: ending r t.name) := by
    rcases htask with rfl | rfl
    · simpa using h.base_literal
    · intro u c v heq
      obtain ⟨hstar, hmark, hbracket⟩ := h.base_literal u c v heq
      refine ⟨hstar, hmark, fun hc => ?_⟩
      have hlength : 2 ≤ (v ++ '.' :: t.name).length := by
        have := List.length_pos_iff.mpr t.ne_nil
        rw [List.length_append, List.length_cons]
        omega
      have hclosed : ']' ∉ text "_setscene" := by decide
      have hopen : set_length ((v ++ '.' :: t.name) ++ ('.' :: '*' :: ending r t.name)) = none := by
        simpa using hbracket hc
      have hinsert := set_length_insert hlength hclosed hopen
      simpa [Task.setscene] using hinsert
  exact hbase.append (literal_of_plain (t.no_dot_special htask).1 _)

theorem Plain.caught_mask (h : Plain r t) {taskname : Text} (htask : taskname = t.name ∨ taskname = t.setscene) :
    caught (mask r taskname (ending r t.name)) f = true ↔ ∃ mid, '/' ∉ mid ∧
      path f.parts = r.stamp ++ '.' :: (taskname ++ '.' :: (mid ++ ending r t.name)) := by
  have hslash := (t.no_dot_special htask).2
  have hend := ending_no_slash r t.name
  unfold mask
  rw [caught_star hslash hend h.dir_literal (h.literal htask) h.ending_literal]
  constructor
  · rintro ⟨mid, hparts⟩
    have hlast : r.base ++ ('.' :: (taskname ++ ['.']) ++ (mid ++ ending r t.name)) ∈ f.parts := by
      rw [hparts]
      exact List.mem_append_right _ (List.mem_singleton_self _)
    have hnamed := (f.named _ hlast).2
    have hmid : '/' ∉ mid := fun hmem => hnamed (by simp [hmem])
    have hx : '/' ∉ '.' :: (taskname ++ ['.']) ++ (mid ++ ending r t.name) := by
      rw [List.mem_append, List.mem_append, not_or, not_or]
      exact ⟨hslash, hmid, hend⟩
    refine ⟨mid, hmid, ?_⟩
    rw [(path_eq_iff hx).mpr hparts]
    simp
  · rintro ⟨mid, hmid, hpath⟩
    have hx : '/' ∉ '.' :: (taskname ++ ['.']) ++ (mid ++ ending r t.name) := by
      rw [List.mem_append, List.mem_append, not_or, not_or]
      exact ⟨hslash, hmid, hend⟩
    refine ⟨mid, (path_eq_iff hx).mp ?_⟩
    rw [hpath]
    simp

theorem Plain.not_preserved (h : Plain r t) {taskname : Text} (htask : taskname = t.name ∨ taskname = t.setscene)
    (hash : Hash) :
    preserved (r.stamp ++ '.' :: (taskname ++ '.' :: (hash.digits ++ ending r t.name))) = false := by
  have hend := ending_cases r t.name
  have hname : ∀ word ∈ [text "sigdata", text "sigbasedata"], ¬ word <:+: taskname := by
    intro word hword hwithin
    rcases htask with rfl | rfl
    · exact (h.unmarked word hword).2.1 hwithin
    · have hsetscene : t.setscene = t.name ++ '_' :: text "setscene" := rfl
      have hline : '_' ∉ word ∧ ¬ word <:+: text "setscene" := by
        rcases List.mem_pair.mp hword with rfl | rfl <;> decide
      rw [hsetscene] at hwithin
      rcases infix_append_cons hline.1 hwithin with hwithin | hwithin
      · exact (h.unmarked word hword).2.1 hwithin
      · exact hline.2 hwithin
  rw [← Bool.not_eq_true, preserved_iff]
  rintro (⟨word, hword, hwithin⟩ | hsuffix)
  · rcases (marked_iff hword hend).mp hwithin with hwithin | hwithin | hwithin
    · exact (h.unmarked word hword).1 hwithin
    · exact hname word hword hwithin
    · exact (h.unmarked word hword).2.2 hwithin
  · have hfront : r.stamp ++ '.' :: (taskname ++ '.' :: (hash.digits ++ ending r t.name)) =
        (r.stamp ++ '.' :: (taskname ++ ['.'])) ++ (hash.digits ++ ending r t.name) := by simp
    rw [hfront, tainted_iff _ hend] at hsuffix
    exact h.untainted hsuffix

theorem own_iff (h : ¬ text "_setscene" <:+: t.name) : Own r t f ↔
    ∃ (hash : Hash) (taskname : Text), (taskname = t.name ∨ taskname = t.setscene) ∧
      path f.parts = r.stamp ++ '.' :: (taskname ++ '.' :: (hash.digits ++ ending r t.name)) := by
  unfold Own
  simp only [Hash.stampfile, ending_setscene h]
  constructor
  · rintro ⟨hash, hpath | hpath⟩
    · exact ⟨hash, t.name, Or.inl rfl, hpath⟩
    · exact ⟨hash, t.setscene, Or.inr rfl, hpath⟩
  · rintro ⟨hash, taskname, rfl | rfl, hpath⟩
    · exact ⟨hash, Or.inl hpath⟩
    · exact ⟨hash, Or.inr hpath⟩

theorem Plain.mem_clean_stamp (h : Plain r t) {contents : List File} :
    f ∈ clean_stamp r t.name contents ↔ f ∈ contents ∧ ¬ Own r t f ∧ ¬ Lookalike r t f := by
  rw [stamp_cleaning.mem_clean_stamp, h.get_cleanmask, and_congr_right_iff]
  intro _
  constructor
  · intro hkept
    have hkept : ∀ taskname, taskname = t.name ∨ taskname = t.setscene →
        caught (mask r taskname (ending r t.name)) f = true → preserved (path f.parts) = true := by
      rintro taskname (rfl | rfl)
      · exact hkept _ (by simp)
      · exact hkept _ (by simp)
    constructor
    · intro hown
      obtain ⟨hash, taskname, htask, hpath⟩ := (own_iff h.no_setscene).mp hown
      have hpreserved := hkept taskname htask ((h.caught_mask htask).mpr ⟨hash.digits, hash.no_slash, hpath⟩)
      rw [hpath, h.not_preserved htask hash] at hpreserved
      cases hpreserved
    · rintro ⟨_, hpreserved, taskname, mid, htask, hmid, hpath⟩
      have hpreserved' := hkept taskname htask ((h.caught_mask htask).mpr ⟨mid, hmid, hpath⟩)
      rw [hpreserved] at hpreserved'
      cases hpreserved'
  · rintro ⟨hown, hlook⟩
    have hleft : ∀ taskname, taskname = t.name ∨ taskname = t.setscene →
        caught (mask r taskname (ending r t.name)) f = true → preserved (path f.parts) = true := by
      intro taskname htask hcaught
      obtain ⟨mid, hmid, hpath⟩ := (h.caught_mask htask).mp hcaught
      by_contra hpreserved
      exact hlook ⟨hown, Bool.eq_false_iff.mpr hpreserved, taskname, mid, htask, hmid, hpath⟩
    intro m hm
    rcases List.mem_pair.mp hm with rfl | rfl
    · exact hleft _ (Or.inl rfl)
    · exact hleft _ (Or.inr rfl)

theorem Plain.exact_iff (h : Plain r t) (contents : List File) :
    Exact r t contents ↔ ∀ f ∈ contents, ¬ Lookalike r t f := by
  constructor
  · rintro ⟨hclean, _⟩ f hf hlook
    have hkept := (hclean f).mpr ⟨hf, hlook.1⟩
    exact (h.mem_clean_stamp.mp hkept).2.2 hlook
  · intro hnone
    have hclean : ∀ f, f ∈ clean_stamp r t.name contents ↔ f ∈ contents ∧ ¬ Own r t f := by
      intro f
      rw [h.mem_clean_stamp]
      exact ⟨fun hf => ⟨hf.1, hf.2.1⟩, fun hf => ⟨hf.1, hf.2, hnone f hf.1⟩⟩
    refine ⟨hclean, ?_⟩
    intro hash stamp hstamp f hown
    unfold make_stamp
    dsimp only
    rw [List.mem_cons, List.mem_filter, hclean]
    exact ⟨fun hf => hf.elim id fun hf => absurd hown hf.1.2, Or.inl⟩

/-! ## What is not cleaned right -/

def beside (r : Recipe) (x : Text) (hx : '/' ∉ x) : File := ⟨r.dir ++ [r.base ++ x], r.named_concat hx⟩

theorem path_beside {x : Text} (hx : '/' ∉ x) : path (beside r x hx).parts = r.stamp ++ x :=
  (path_eq_iff hx).mpr rfl

def zero : Hash where
  digits := ['0']
  nonempty := List.cons_ne_nil _ _
  hexadecimal := by
    intro c hc
    rw [List.mem_singleton.mp hc]
    decide

/-- Cleaning is exact wherever nothing looks like a stamp of the task. -/
def Reliable (r : Recipe) (t : Task) : Prop :=
  ∀ contents, (∀ f ∈ contents, ¬ Lookalike r t f) → Exact r t contents

theorem Reliable.own_iff (h : Reliable r t) (hlook : ¬ Lookalike r t f) :
    Own r t f ↔ ∃ m ∈ get_cleanmask r t.name, caught m f = true ∧ preserved (path f.parts) = false := by
  have hclean := (h [f] (by simpa using hlook)).1 f
  rw [mem_clean_stamp, List.mem_singleton] at hclean
  simp only [true_and] at hclean
  rw [← not_iff_not, ← hclean]
  simp only [not_exists, not_and, Bool.not_eq_false]

theorem Reliable.own_found (h : Reliable r t) (hown : Own r t f) :
    ∃ m ∈ get_cleanmask r t.name, caught m f = true ∧ preserved (path f.parts) = false :=
  (h.own_iff fun hlook => hlook.1 hown).mp hown

theorem named_no_slash (t : Task) (hash : Hash) {taskname : Text}
    (htask : taskname = t.name ∨ taskname = t.setscene) {e : Text} (he : '/' ∉ e) :
    '/' ∉ '.' :: (taskname ++ '.' :: (hash.digits ++ e)) := by
  have hslash := (t.no_dot_special htask).2
  have hhash := hash.no_slash
  simp only [List.mem_cons, List.mem_append, not_or] at hslash ⊢
  exact ⟨hslash.1, hslash.2.1, by decide, hhash, he⟩

/-- A stamp of the task with the hash 0. -/
def first_stamp (r : Recipe) (t : Task) : File :=
  beside r ('.' :: (t.name ++ '.' :: (zero.digits ++ ending r t.name)))
    (named_no_slash t zero (Or.inl rfl) (ending_no_slash r t.name))

theorem path_first_stamp : path (first_stamp r t).parts =
    r.stamp ++ '.' :: (t.name ++ '.' :: (zero.digits ++ ending r t.name)) := path_beside _

theorem own_first_stamp : Own r t (first_stamp r t) := by
  refine ⟨zero, Or.inl ?_⟩
  rw [path_first_stamp, Hash.stampfile]

theorem Reliable.first_not_preserved (h : Reliable r t) :
    preserved (r.stamp ++ '.' :: (t.name ++ '.' :: (zero.digits ++ ending r t.name))) = false := by
  obtain ⟨_, _, _, hpreserved⟩ := h.own_found own_first_stamp
  rw [← path_first_stamp]
  exact hpreserved

theorem Reliable.unmarked (h : Reliable r t) : ∀ word ∈ [text "sigdata", text "sigbasedata"],
    ¬ word <:+: r.stamp ∧ ¬ word <:+: t.name ∧ ¬ word <:+: ending r t.name := by
  intro word hword
  rw [← not_or, ← not_or, ← marked_iff (h := zero) hword (ending_cases r t.name)]
  intro hwithin
  have hpreserved := preserved_iff.mpr (Or.inl ⟨word, hword, hwithin⟩)
  rw [h.first_not_preserved] at hpreserved
  cases hpreserved

theorem Reliable.untainted (h : Reliable r t) : ¬ text ".taint" <:+ ending r t.name := by
  rw [← tainted_iff (r.stamp ++ '.' :: (t.name ++ ['.'])) (h := zero) (ending_cases r t.name)]
  intro hsuffix
  have hpreserved := preserved_iff.mpr (Or.inr hsuffix)
  have hfront : (r.stamp ++ '.' :: (t.name ++ ['.'])) ++ (zero.digits ++ ending r t.name) =
      r.stamp ++ '.' :: (t.name ++ '.' :: (zero.digits ++ ending r t.name)) := by simp
  rw [hfront, h.first_not_preserved] at hpreserved
  cases hpreserved

/-! ### Asterisks and question marks -/

theorem preserved_altered {u v : Text} (c : Char) (h : preserved (u ++ 'x' :: v) = true) :
    preserved (u ++ c :: v) = true := by
  rw [preserved_iff] at h ⊢
  rcases h with ⟨word, hword, hwithin⟩ | hsuffix
  · have hx : 'x' ∉ word := by
      rcases List.mem_pair.mp hword with rfl | rfl <;> decide
    refine Or.inl ⟨word, hword, ?_⟩
    rcases infix_append_cons hx hwithin with hwithin | hwithin
    · exact hwithin.trans (List.prefix_append _ _).isInfix
    · exact hwithin.trans ((List.suffix_cons _ _).trans (List.suffix_append _ _)).isInfix
  · have hx : 'x' ∉ text ".taint" := by decide
    right
    have hv : text ".taint" <:+ v := by
      rcases List.suffix_or_suffix_of_suffix hsuffix (List.suffix_append u ('x' :: v)) with hv | hv
      · rcases List.suffix_cons_iff.mp hv with heq | hv
        · rw [heq] at hx
          simp at hx
        · exact hv
      · exact absurd (hv.subset List.mem_cons_self) hx
    exact hv.trans ((List.suffix_cons _ _).trans (List.suffix_append _ _))

theorem is_hidden_append {p : Text} (hne : p ≠ []) (q : Text) : is_hidden (p ++ q) = is_hidden p := by
  obtain ⟨c, p, rfl⟩ := List.exists_cons_of_ne_nil hne
  rfl

theorem matched_of_fnmatch {p name : Text} (hmagic : has_magic p = true)
    (hhidden : is_hidden name = true → is_hidden p = true) (h : fnmatch name p = true) : matched p name = true := by
  unfold matched
  rw [if_pos hmagic, h, Bool.and_true]
  cases hname : is_hidden name
  · rfl
  · rw [hhidden hname]
    rfl

theorem matched_self {p : Text} (h : '[' ∉ p) : matched p p = true := by
  by_cases hmagic : has_magic p = true
  · exact matched_of_fnmatch hmagic id (fnmatch_self h)
  · unfold matched
    rw [if_neg hmagic]
    simp

theorem fnmatch_altered {a b : Text} {c : Char} (h : '[' ∉ a ++ c :: b) (hc : c = '*' ∨ c = '?') :
    fnmatch (a ++ 'x' :: b) (a ++ c :: b) = true := by
  rw [List.mem_append, List.mem_cons, not_or, not_or] at h
  have hone : fnmatch ['x'] [c] = true := by
    rcases hc with rfl | rfl <;> decide
  have hcons : '[' ∉ [c] := by simpa using h.2.1
  exact fnmatch_append h.1 (fnmatch_self h.1) (fnmatch_append hcons hone (fnmatch_self h.2.2))

theorem hidden_altered {a b : Text} {c : Char} (h : is_hidden (a ++ 'x' :: b) = true) :
    is_hidden (a ++ c :: b) = true := by
  cases a with
  | nil => exact absurd h (by simp [is_hidden])
  | cons d a => exact h

theorem caught_mask_of {dir : List Text} {base mid e : Text} (hdir : all_matched r.dir dir = true)
    (hbracket : '[' ∉ r.base) (hbase : fnmatch base r.base = true) (hne : base ≠ [])
    (hhidden : is_hidden base = true → is_hidden r.base = true) (hend : fnmatch e (ending r t.name) = true)
    (hparts : f.parts = dir ++ [base ++ ('.' :: (t.name ++ '.' :: (mid ++ e)))]) :
    caught (mask r t.name (ending r t.name)) f = true := by
  obtain ⟨hplain, hslash⟩ := t.no_dot_special (Or.inl rfl)
  have hx : '/' ∉ '.' :: (t.name ++ ['.']) ++ '*' :: ending r t.name := by
    have hend := ending_no_slash r t.name
    rw [List.mem_append, not_or]
    exact ⟨hslash, by simp [hend]⟩
  have hmid : fnmatch (mid ++ e) ('*' :: ending r t.name) = true := by
    rw [fnmatch, items, if_pos rfl, accepts_any_text]
    exact ⟨mid, e, rfl, hend⟩
  have hmiddle : '[' ∉ '.' :: (t.name ++ ['.']) := fun hmem => absurd (hplain _ hmem) (by decide)
  have hlast : fnmatch (base ++ ('.' :: (t.name ++ ['.']) ++ (mid ++ e)))
      (r.base ++ ('.' :: (t.name ++ ['.']) ++ '*' :: ending r t.name)) = true :=
    fnmatch_append hbracket hbase (fnmatch_append hmiddle (fnmatch_self hmiddle) hmid)
  have hname : base ++ ('.' :: (t.name ++ '.' :: (mid ++ e))) = base ++ ('.' :: (t.name ++ ['.']) ++ (mid ++ e)) := by
    simp
  unfold caught mask
  rw [names_stamp hx, hparts, all_matched_append (all_matched_length hdir), hdir, hname, Bool.true_and]
  unfold all_matched all_matched
  rw [Bool.and_true]
  apply matched_of_fnmatch
  · unfold has_magic
    rw [List.any_eq_true]
    exact ⟨'*', by simp, by decide⟩
  · rw [is_hidden_append hne, is_hidden_append (r.named r.base List.mem_cons_self).1]
    exact hhidden
  · exact hlast

theorem all_matched_self {dir : List Text} (h : ∀ c ∈ dir, '[' ∉ c) : all_matched dir dir = true := by
  induction dir with
  | nil => rfl
  | cons c dir ih =>
    rw [List.forall_mem_cons] at h
    rw [all_matched, matched_self h.1, ih h.2]
    rfl

theorem Reliable.altered (h : Reliable r t) {u v : Text} {c : Char}
    (hown : path (first_stamp r t).parts = u ++ c :: v) (hpath : path f.parts = u ++ 'x' :: v)
    (hcaught : caught (mask r t.name (ending r t.name)) f = true) : Own r t f ∨ Lookalike r t f := by
  by_contra hnone
  rw [not_or] at hnone
  apply hnone.1
  rw [h.own_iff hnone.2]
  refine ⟨_, by rw [get_cleanmask, stampcleanmask_eq]; exact List.mem_cons_self, hcaught, ?_⟩
  rw [hpath, ← Bool.not_eq_true]
  intro hpreserved
  have hfirst := preserved_altered c hpreserved
  rw [← hown, path_first_stamp, h.first_not_preserved] at hfirst
  cases hfirst

theorem beside_of_own (h : Own r t f ∨ Lookalike r t f) : ∃ y, f.parts = r.dir ++ [r.base ++ y] := by
  rcases h with ⟨hash, hpath | hpath⟩ | ⟨_, _, taskname, mid, htask, hmid, hpath⟩
  · rw [Hash.stampfile, path_eq_iff (named_no_slash t hash (Or.inl rfl) (ending_no_slash r _))] at hpath
    exact ⟨_, hpath⟩
  · rw [Hash.stampfile, path_eq_iff (named_no_slash t hash (Or.inr rfl) (ending_no_slash r _))] at hpath
    exact ⟨_, hpath⟩
  · have hslash := (t.no_dot_special htask).2
    have hx : '/' ∉ '.' :: (taskname ++ '.' :: (mid ++ ending r t.name)) := by
      have hend := ending_no_slash r t.name
      simp only [List.mem_cons, List.mem_append, not_or] at hslash ⊢
      exact ⟨hslash.1, hslash.2.1, by decide, hmid, hend⟩
    exact ⟨_, (path_eq_iff hx).mp hpath⟩

theorem special_cases {c : Char} (h : is_special c = true) (hne : c ≠ '[') : c = '*' ∨ c = '?' := by
  unfold is_special at h
  rw [Bool.or_eq_true, Bool.or_eq_true, decide_eq_true_eq, decide_eq_true_eq, decide_eq_true_eq] at h
  exact h.resolve_right hne

theorem Reliable.stamp_altered (h : Reliable r t) {r' : Recipe} {a b : Text} {c : Char}
    (hstamp : r.stamp = a ++ c :: b) (hstamp' : r'.stamp = a ++ 'x' :: b) (hbracket : ∀ c ∈ r.base :: r.dir, '[' ∉ c)
    (hend : '[' ∉ ending r t.name) (hdir : all_matched r.dir r'.dir = true) (hbase : fnmatch r'.base r.base = true)
    (hhidden : is_hidden r'.base = true → is_hidden r.base = true) :
    r'.dir = r.dir ∧ ∃ x y, r'.base ++ x = r.base ++ y := by
  have hslash := named_no_slash t zero (Or.inl rfl) (ending_no_slash r t.name)
  have hown : path (first_stamp r t).parts =
      a ++ c :: (b ++ '.' :: (t.name ++ '.' :: (zero.digits ++ ending r t.name))) := by
    rw [path_first_stamp, hstamp]
    simp
  have hpath : path (beside r' _ hslash).parts =
      a ++ 'x' :: (b ++ '.' :: (t.name ++ '.' :: (zero.digits ++ ending r t.name))) := by
    rw [path_beside, hstamp']
    simp
  have hcaught : caught (mask r t.name (ending r t.name)) (beside r' _ hslash) = true :=
    caught_mask_of hdir (hbracket _ List.mem_cons_self) hbase (r'.named _ List.mem_cons_self).1 hhidden
      (fnmatch_self hend) rfl
  obtain ⟨y, hparts⟩ := beside_of_own (h.altered hown hpath hcaught)
  obtain ⟨hdir, hlast⟩ := List.append_inj' hparts rfl
  exact ⟨hdir, _, y, (List.cons.inj hlast).1⟩

theorem Reliable.dir_plain (h : Reliable r t) (hbracket : ∀ c ∈ r.base :: r.dir, '[' ∉ c)
    (hend : '[' ∉ ending r t.name) : ∀ name ∈ r.dir, ∀ c ∈ name, is_special c = false := by
  intro name hname c hc
  rw [← Bool.not_eq_true]
  intro hspecial
  have hbrackets := List.forall_mem_cons.mp hbracket
  have hcases := special_cases hspecial fun heq => hbrackets.2 name hname (heq ▸ hc)
  obtain ⟨d₁, d₂, hdir⟩ := List.append_of_mem hname
  obtain ⟨a, b, rfl⟩ := List.append_of_mem hc
  have hnamed := fun d (hd : d ∈ r.dir) => r.named d (List.mem_cons_of_mem _ hd)
  have hfree := hbrackets.2
  rw [hdir, List.forall_mem_append, List.forall_mem_cons] at hnamed hfree
  have hnamed' : ∀ d ∈ r.base :: (d₁ ++ (a ++ 'x' :: b) :: d₂), d ≠ [] ∧ '/' ∉ d := by
    have hslash := hnamed.2.1.2
    rw [List.forall_mem_cons, List.forall_mem_append, List.forall_mem_cons]
    simp only [List.mem_append, List.mem_cons, not_or] at hslash ⊢
    exact ⟨r.named _ List.mem_cons_self, hnamed.1, ⟨by simp, hslash.1, by decide, hslash.2.2⟩, hnamed.2.2⟩
  let r' : Recipe := ⟨d₁ ++ (a ++ 'x' :: b) :: d₂, r.base, hnamed', r.stamp_extrainfo, r.extra_no_slash⟩
  have hstamp : r.stamp = (path d₁ ++ '/' :: a) ++ c :: (b ++ path (d₂ ++ [r.base])) := by
    simp [Recipe.stamp, hdir, path]
  have hstamp' : r'.stamp = (path d₁ ++ '/' :: a) ++ 'x' :: (b ++ path (d₂ ++ [r.base])) := by
    simp [Recipe.stamp, r', path]
  have hmatched : matched (a ++ c :: b) (a ++ 'x' :: b) = true := by
    apply matched_of_fnmatch
    · unfold has_magic
      rw [List.any_eq_true]
      exact ⟨c, by simp, hspecial⟩
    · exact hidden_altered
    · exact fnmatch_altered hfree.2.1 hcases
  have hall : all_matched r.dir r'.dir = true := by
    rw [hdir, all_matched_append rfl, all_matched_self hfree.1, all_matched, hmatched, all_matched_self hfree.2.2]
    rfl
  obtain ⟨hsame, _⟩ := h.stamp_altered hstamp hstamp' hbracket hend hall
    (fnmatch_self (hbracket _ List.mem_cons_self)) id
  have hrest := List.append_cancel_left (hsame.trans hdir)
  have hchar := List.append_cancel_left (List.cons.inj hrest).1
  obtain rfl : 'x' = c := (List.cons.inj hchar).1
  exact absurd hcases (by decide)

theorem Reliable.base_plain (h : Reliable r t) (hbracket : ∀ c ∈ r.base :: r.dir, '[' ∉ c)
    (hend : '[' ∉ ending r t.name) : ∀ c ∈ r.base, is_special c = false := by
  intro c hc
  rw [← Bool.not_eq_true]
  intro hspecial
  have hbrackets := List.forall_mem_cons.mp hbracket
  have hcases := special_cases hspecial fun heq => hbrackets.1 (heq ▸ hc)
  obtain ⟨a, b, hbase⟩ := List.append_of_mem hc
  have hfree := hbrackets.1
  rw [hbase] at hfree
  have hnamed' : ∀ d ∈ (a ++ 'x' :: b) :: r.dir, d ≠ [] ∧ '/' ∉ d := by
    have hslash := (r.named _ List.mem_cons_self).2
    rw [hbase] at hslash
    rw [List.forall_mem_cons]
    simp only [List.mem_append, List.mem_cons, not_or] at hslash ⊢
    exact ⟨⟨by simp, hslash.1, by decide, hslash.2.2⟩, fun d hd => r.named d (List.mem_cons_of_mem _ hd)⟩
  let r' : Recipe := ⟨r.dir, a ++ 'x' :: b, hnamed', r.stamp_extrainfo, r.extra_no_slash⟩
  have hstamp : r.stamp = (path r.dir ++ '/' :: a) ++ c :: b := by
    simp [Recipe.stamp, hbase, path]
  have hstamp' : r'.stamp = (path r.dir ++ '/' :: a) ++ 'x' :: b := by
    simp [Recipe.stamp, r', path]
  have hfnmatch : fnmatch r'.base r.base = true := by
    rw [hbase]
    exact fnmatch_altered hfree hcases
  have hhidden : is_hidden r'.base = true → is_hidden r.base = true := by
    rw [hbase]
    exact hidden_altered
  obtain ⟨_, x, y, hxy⟩ :=
    h.stamp_altered hstamp hstamp' hbracket hend (all_matched_self hbrackets.2) hfnmatch hhidden
  have hlength : r'.base.length = r.base.length := by simp [r', hbase]
  have hsame := (List.append_inj hxy hlength).1
  rw [hbase] at hsame
  obtain rfl : 'x' = c := (List.cons.inj (List.append_cancel_left hsame)).1
  exact absurd hcases (by decide)

theorem Reliable.ending_plain (h : Reliable r t) (hbracket : ∀ c ∈ r.base :: r.dir, '[' ∉ c)
    (hend : '[' ∉ ending r t.name) : ∀ c ∈ ending r t.name, is_special c = false := by
  intro c hc
  rw [← Bool.not_eq_true]
  intro hspecial
  have hbrackets := List.forall_mem_cons.mp hbracket
  have hcases := special_cases hspecial fun heq => hend (heq ▸ hc)
  obtain ⟨a, b, heq⟩ := List.append_of_mem hc
  have hfree := hend
  have hslash := ending_no_slash r t.name
  rw [heq] at hfree hslash
  have hslash' : '/' ∉ a ++ 'x' :: b := by
    simp only [List.mem_append, List.mem_cons, not_or] at hslash ⊢
    exact ⟨hslash.1, by decide, hslash.2.2⟩
  have hx := named_no_slash t zero (Or.inl rfl) hslash'
  have hown : path (first_stamp r t).parts =
      (r.stamp ++ '.' :: (t.name ++ '.' :: (zero.digits ++ a))) ++ c :: b := by
    rw [path_first_stamp, heq]
    simp
  have hpath : path (beside r _ hx).parts =
      (r.stamp ++ '.' :: (t.name ++ '.' :: (zero.digits ++ a))) ++ 'x' :: b := by
    rw [path_beside]
    simp
  have hfnmatch : fnmatch (a ++ 'x' :: b) (ending r t.name) = true := by
    rw [heq]
    exact fnmatch_altered hfree hcases
  have hcaught : caught (mask r t.name (ending r t.name)) (beside r _ hx) = true :=
    caught_mask_of (all_matched_self hbrackets.2) hbrackets.1 (fnmatch_self hbrackets.1)
      (r.named _ List.mem_cons_self).1 id hfnmatch rfl
  have hdiffer : ∀ front : Text, zero.digits ++ (a ++ 'x' :: b) ≠ front ++ ending r t.name := by
    intro front hfront
    rw [heq] at hfront
    have hsame := (List.append_inj' hfront (by simp)).2
    obtain rfl : 'x' = c := (List.cons.inj (List.append_cancel_left hsame)).1
    exact absurd hcases (by decide)
  have hset : ∀ y : Text, r.stamp ++ '.' :: (t.name ++ '.' :: (zero.digits ++ (a ++ 'x' :: b))) ≠
      r.stamp ++ '.' :: (t.setscene ++ y) := by
    intro y hy
    have hsame := (List.cons.inj (List.append_cancel_left hy)).2
    have hunder : t.setscene = t.name ++ '_' :: text "setscene" := rfl
    rw [hunder, List.append_assoc] at hsame
    have hchar := (List.cons.inj (List.append_cancel_left hsame)).1
    exact absurd hchar (by decide)
  have hname : ∀ front : Text, r.stamp ++ '.' :: (t.name ++ '.' :: (zero.digits ++ (a ++ 'x' :: b))) ≠
      r.stamp ++ '.' :: (t.name ++ '.' :: (front ++ ending r t.name)) := by
    intro front hfront
    have hsame := (List.cons.inj (List.append_cancel_left hfront)).2
    exact hdiffer front (List.cons.inj (List.append_cancel_left hsame)).2
  rcases h.altered hown hpath hcaught with ⟨hash, hfile | hfile⟩ | ⟨_, _, taskname, mid, rfl | rfl, _, hfile⟩
  · rw [path_beside, Hash.stampfile] at hfile
    exact hname _ hfile
  · rw [path_beside, Hash.stampfile] at hfile
    exact hset _ hfile
  · rw [path_beside] at hfile
    exact hname _ hfile
  · rw [path_beside] at hfile
    exact hset _ hfile

/-! ### The name of the task elsewhere in the mask -/

theorem replace_path {old : Text} (hne : old ≠ []) (hold : '/' ∉ old) (new : Text) (parts : List Text) :
    replace old new (path parts) = path (parts.map (replace old new)) := by
  have hjoin : ∀ (parts : List Text) (front : Text),
      replace old new (front ++ path parts) = replace old new front ++ path (parts.map (replace old new)) := by
    intro parts
    induction parts with
    | nil =>
      intro front
      simp [path]
    | cons c parts ih =>
      intro front
      have hpath : path (c :: parts) = '/' :: (c ++ path parts) := rfl
      have hpath' : path ((c :: parts).map (replace old new)) =
          '/' :: (replace old new c ++ path (parts.map (replace old new))) := rfl
      rw [hpath, hpath', replace_append_cons hne new hold, ih c]
  exact hjoin parts []

theorem caught_replaced {old x q : Text} (new : Text) (hne : old ≠ []) (hnew : new ≠ [])
    (hold : ∀ c ∈ old, is_special c = false) (hold' : '/' ∉ old)
    (hspecial : ∀ c ∈ new, is_special c = false) (hslash : '/' ∉ new)
    (hbase : ∀ name ∈ (r.base ++ x) :: r.dir, ∀ c ∈ name, is_special c = false) (hx : '/' ∉ x)
    (hq : ∀ c ∈ q, is_special c = false) (hq' : '/' ∉ q)
    (hcaught : caught (replace old new (r.stamp ++ (x ++ '*' :: q))) f = true) :
    ∃ mid, path f.parts = replace old new (r.stamp ++ x) ++ (mid ++ replace old new q) := by
  have hstar : '*' ∉ old := fun hmem => absurd (hold _ hmem) (by decide)
  have hplain : ∀ {s : Text}, (∀ c ∈ s, is_special c = false) → ∀ c ∈ replace old new s, is_special c = false :=
    fun hs c hc => (mem_replace hne hc).elim (hs c) (hspecial c)
  have hfree : ∀ {s : Text}, '/' ∉ s → '/' ∉ replace old new s :=
    fun hs hmem => (mem_replace hne hmem).elim hs hslash
  have hnil : ∀ {s : Text}, s ≠ [] → replace old new s ≠ [] := by
    intro s hs
    by_cases hwithin : old <:+: s
    · obtain ⟨u, v, _, _, hreplace⟩ := replace_first hne new hwithin
      rw [hreplace]
      simp [hnew]
    · rwa [replace_of_absent new hwithin]
  have hnamed := r.named_concat hx
  rw [List.forall_mem_append] at hnamed
  have hnamed' : ∀ c ∈ replace old new (r.base ++ x) :: r.dir.map (replace old new), c ≠ [] ∧ '/' ∉ c := by
    rw [List.forall_mem_cons, List.forall_mem_map]
    have hlast := hnamed.2 _ (List.mem_singleton_self _)
    exact ⟨⟨hnil hlast.1, hfree hlast.2⟩, fun c hc => ⟨hnil (hnamed.1 c hc).1, hfree (hnamed.1 c hc).2⟩⟩
  -- the replaced path is that of another recipe
  let r' : Recipe :=
    ⟨r.dir.map (replace old new), replace old new (r.base ++ x), hnamed', r.stamp_extrainfo, r.extra_no_slash⟩
  have hstamp : replace old new (r.stamp ++ x) = r'.stamp := by
    have hconcat : r.stamp ++ x = path (r.dir ++ [r.base ++ x]) := (path_concat _ _ _).symm
    rw [hconcat, replace_path hne hold', List.map_append]
    rfl
  have hmask : replace old new (r.stamp ++ (x ++ '*' :: q)) = r'.stamp ++ ([] ++ '*' :: replace old new q) := by
    rw [← List.append_assoc, replace_append_cons hne new hstar, hstamp]
    rfl
  rw [List.forall_mem_cons] at hbase
  have hdir : ∀ c ∈ r'.dir, Literal c [] := by
    intro c hc
    obtain ⟨name, hname, rfl⟩ := List.mem_map.mp hc
    exact literal_of_plain (hplain (hbase.2 name hname)) []
  have hlast : Literal (r'.base ++ []) ('*' :: replace old new q) := by
    rw [List.append_nil]
    exact literal_of_plain (hplain hbase.1) _
  rw [hmask, caught_star List.not_mem_nil (hfree hq') hdir hlast (literal_of_plain (hplain hq) [])] at hcaught
  obtain ⟨mid, hparts⟩ := hcaught
  refine ⟨mid, ?_⟩
  rw [hstamp, hparts]
  exact path_concat _ _ _

theorem setscene_moved {v : Text} (h : text "_setscene" ++ v = v ++ text "_setscene") :
    v = [] ∨ text "_setscene" <:+ v := by
  cases v with
  | nil => exact Or.inl rfl
  | cons c v =>
    right
    have hc : '_' = c := (List.cons.inj h).1
    have hsuffix : c :: v <:+ (c :: v) ++ text "_setscene" := ⟨text "_setscene", h⟩
    rcases List.suffix_or_suffix_of_suffix hsuffix (List.suffix_append (c :: v) (text "_setscene")) with hv | hv
    · have hcons : text "_setscene" = '_' :: text "setscene" := rfl
      rw [hcons] at hv
      rcases List.suffix_cons_iff.mp hv with heq | hv
      · rw [heq, hcons]
      · have hmem := hv.subset List.mem_cons_self
        rw [← hc] at hmem
        exact absurd hmem (by decide)
    · exact hv

theorem Task.cut (t : Task) {front : Text} (h : t.name = front ++ replace (text "_setscene") [] t.name) :
    front = [] := by
  have hcount : (replace (text "_setscene") [] t.name).count 'd' = t.name.count 'd' :=
    count_replace (by decide) (by decide) t.name
  have hsum := congrArg (List.count 'd') h
  rw [List.count_append, hcount] at hsum
  obtain ⟨rest, hrest⟩ := t.starts
  cases front with
  | nil => rfl
  | cons c front =>
    rw [← hrest] at h
    obtain rfl : 'd' = c := (List.cons.inj h).1
    rw [List.count_cons_self] at hsum
    omega

theorem alone_of_replace {t : Task} {stamp : Text}
    (h : replace (replace (text "_setscene") [] t.name) (replace (text "_setscene") [] t.name ++ text "_setscene")
      (stamp ++ '.' :: (t.name ++ ['.'])) <+: stamp ++ '.' :: (t.setscene ++ ['.'])) :
    ¬ text "_setscene" <:+: t.name ∧ ¬ t.name <:+: stamp ++ '.' :: t.name.dropLast := by
  have hlink : text "_setscene" ≠ [] := by decide
  have hunder : text "_setscene" = '_' :: text "setscene" := rfl
  have hshort := length_remove_le (text "_setscene") t.name
  have hcut := fun front => @Task.cut t front
  generalize hflag : replace (text "_setscene") [] t.name = flag at h hcut hshort
  have hne : flag ≠ [] := by
    rintro rfl
    exact t.ne_nil (hcut t.name (List.append_nil _).symm)
  have hwithin : flag <:+: stamp ++ '.' :: (t.name ++ ['.']) := by
    by_contra hwithin
    rw [replace_of_absent _ hwithin, List.prefix_append_right_inj, List.cons_prefix_cons, Task.setscene, hunder,
      List.append_assoc, List.prefix_append_right_inj, List.cons_append, List.cons_prefix_cons] at h
    exact absurd h.2.1 (by decide)
  have hlength : (stamp ++ '.' :: (t.setscene ++ ['.'])).length =
      (stamp ++ '.' :: (t.name ++ ['.'])).length + (text "_setscene").length := by
    simp only [Task.setscene, List.length_append, List.length_cons, List.length_nil]
    omega
  obtain ⟨u, v, hsplit, hfirst, heq⟩ := replaced_once hne hlink hwithin h hlength
  -- nothing but the point stands behind the name that is replaced
  obtain ⟨v', rfl⟩ : ∃ v', v = v' ++ ['.'] := by
    rcases List.eq_nil_or_concat' v with rfl | ⟨v', c, rfl⟩
    · have hword : text "_setscene" = text "_setscen" ++ ['e'] := rfl
      rw [List.append_nil] at heq
      have hpoint : (stamp ++ '.' :: t.setscene) ++ ['.'] = (u ++ (flag ++ text "_setscen")) ++ ['e'] := by
        rw [hword] at heq
        simpa using heq
      exact absurd (List.append_inj' hpoint rfl).2 (by decide)
    · have hpoint : (stamp ++ '.' :: t.name) ++ ['.'] = (u ++ (flag ++ v')) ++ [c] := by simpa using hsplit
      exact ⟨v', by rw [(List.append_inj' hpoint rfl).2]⟩
  have hname : stamp ++ '.' :: t.name = u ++ (flag ++ v') := by
    have hpoint : (stamp ++ '.' :: t.name) ++ ['.'] = (u ++ (flag ++ v')) ++ ['.'] := by simpa using hsplit
    exact List.append_cancel_right hpoint
  have hmoved : text "_setscene" ++ v' = v' ++ text "_setscene" := by
    have hpoint : (u ++ flag) ++ ((v' ++ text "_setscene") ++ ['.']) =
        (u ++ flag) ++ ((text "_setscene" ++ v') ++ ['.']) := by
      calc (u ++ flag) ++ ((v' ++ text "_setscene") ++ ['.'])
        _ = (u ++ (flag ++ v')) ++ (text "_setscene" ++ ['.']) := by simp
        _ = stamp ++ '.' :: (t.setscene ++ ['.']) := by rw [← hname, Task.setscene]; simp
        _ = (u ++ flag) ++ ((text "_setscene" ++ v') ++ ['.']) := by rw [heq]; simp
    exact (List.append_cancel_right (List.append_cancel_left hpoint)).symm
  obtain rfl : v' = [] := by
    rcases setscene_moved hmoved with hnil | hsuffix
    · exact hnil
    · have hend : text "_setscene" <:+ stamp ++ '.' :: t.name := by
        rw [hname]
        exact hsuffix.trans ((List.suffix_append _ _).trans (List.suffix_append _ _))
      rcases List.suffix_or_suffix_of_suffix hend (List.suffix_append stamp ('.' :: t.name)) with hs | hs
      · rcases List.suffix_cons_iff.mp hs with hs | hs
        · rw [hunder] at hs
          exact absurd (List.cons.inj hs).1 (by decide)
        · exact absurd hs t.no_setscene
      · exact absurd (hs.subset List.mem_cons_self) (by decide)
  rw [List.append_nil] at hname
  have hflag_suffix : flag <:+ t.name := by
    have hboth : t.name <:+ stamp ++ '.' :: t.name := (List.suffix_cons _ _).trans (List.suffix_append _ _)
    rw [hname] at hboth
    exact List.suffix_of_suffix_length_le (List.suffix_append u flag) hboth hshort
  obtain ⟨front, hfront⟩ := hflag_suffix
  obtain rfl := hcut front hfront.symm
  rw [List.nil_append] at hfront
  constructor
  · intro hinner
    have hlt := length_remove_lt hlink hinner
    rw [hflag, hfront] at hlt
    exact absurd hlt (lt_irrefl _)
  · rintro ⟨p, s, hp⟩
    have hu : u = stamp ++ ['.'] := by
      rw [hfront] at hname
      have hpoint : u ++ t.name = (stamp ++ ['.']) ++ t.name := by rw [← hname]; simp
      exact List.append_cancel_right hpoint
    have hlength := congrArg List.length hp
    have hpos := List.length_pos_iff.mpr t.ne_nil
    simp only [List.length_append, List.length_cons, List.length_dropLast] at hlength
    apply hfirst p.length
    · rw [hu, List.length_append, List.length_singleton]
      omega
    · have hwhole : stamp ++ '.' :: (t.name ++ ['.']) = p ++ (t.name ++ (s ++ [t.name.getLast t.ne_nil, '.'])) := by
        calc stamp ++ '.' :: (t.name ++ ['.'])
          _ = (stamp ++ '.' :: t.name.dropLast) ++ [t.name.getLast t.ne_nil, '.'] := by
            conv_lhs => rw [← List.dropLast_append_getLast t.ne_nil]
            simp
          _ = p ++ (t.name ++ (s ++ [t.name.getLast t.ne_nil, '.'])) := by rw [← hp]; simp
      rw [hwhole, List.drop_left, hfront]
      exact List.prefix_append _ _

theorem Reliable.alone (h : Reliable r t) (hdir : ∀ name ∈ r.dir, ∀ c ∈ name, is_special c = false)
    (hbase : ∀ c ∈ r.base, is_special c = false) (hend : ∀ c ∈ ending r t.name, is_special c = false) :
    (¬ text "_setscene" <:+: t.name ∧ ¬ t.name <:+: r.stamp ++ '.' :: t.name.dropLast) ∧
      ¬ t.name <:+: ending r t.name := by
  have hlink : text "_setscene" ≠ [] := by decide
  have hword : (∀ c ∈ text "_setscene", is_special c = false) ∧ '/' ∉ text "_setscene" ∧ '0' ∉ text "_setscene" :=
    ⟨plain_of_no_magic (by decide), by decide, by decide⟩
  have hslash := named_no_slash t zero (Or.inr rfl) (ending_no_slash r t.setscene)
  have hown : Own r t (beside r _ hslash) := by
    refine ⟨zero, Or.inr ?_⟩
    rw [path_beside, Hash.stampfile]
  have hpath := path_beside (r := r) hslash
  have hmiddle := t.no_dot_special (Or.inl rfl)
  have hlast : ∀ c ∈ r.base ++ '.' :: (t.name ++ ['.']), is_special c = false := by
    rw [List.forall_mem_append]
    exact ⟨hbase, hmiddle.1⟩
  obtain ⟨m, hm, hcaught, _⟩ := h.own_found hown
  rw [get_cleanmask, stampcleanmask_eq] at hm
  rcases List.mem_pair.mp hm with rfl | rfl
  · -- the mask of the task catches no stamp of the setscene variant
    have hliteral := literal_of_plain hlast ('*' :: ending r t.name)
    rw [mask, caught_star hmiddle.2 (ending_no_slash r t.name) (fun c hc => literal_of_plain (hdir c hc) []) hliteral
      (literal_of_plain hend [])] at hcaught
    obtain ⟨mid, hparts⟩ := hcaught
    have hname := (List.cons.inj (List.append_cancel_left hparts)).1
    have hunder : t.setscene = t.name ++ '_' :: text "setscene" := rfl
    have hrest : t.setscene ++ '.' :: (zero.digits ++ ending r t.setscene) =
        (t.name ++ ['.']) ++ (mid ++ ending r t.name) := (List.cons.inj (List.append_cancel_left hname)).2
    generalize ending r t.setscene = e at hrest
    rw [hunder, List.append_assoc, List.append_assoc] at hrest
    exact absurd (List.cons.inj (List.append_cancel_left hrest)).1 (by decide)
  · generalize hflag : replace (text "_setscene") [] t.name = flag at hcaught
    have hne : flag ≠ [] := by
      rintro rfl
      exact t.ne_nil (t.cut (by rw [hflag, List.append_nil]))
    have hmem : ∀ {c}, c ∈ flag → c ∈ t.name := by
      intro c hc
      rw [← hflag] at hc
      exact (mem_replace hlink hc).resolve_right List.not_mem_nil
    have hfree : ∀ c ∈ flag, is_special c = false := fun c hc => t.plain c (hmem hc)
    have hfree' : '/' ∉ flag := fun hc => t.no_slash (hmem hc)
    have hcount : (flag ++ text "_setscene").count '0' = flag.count '0' := by
      rw [List.count_append, List.count_eq_zero.mpr hword.2.2, Nat.add_zero]
    obtain ⟨mid, hfile⟩ := caught_replaced (flag ++ text "_setscene") hne (by simp [hne]) hfree hfree'
      (by rw [List.forall_mem_append]; exact ⟨hfree, hword.1⟩) (by simp [hfree', hword.2.1])
      (List.forall_mem_cons.mpr ⟨hlast, hdir⟩) hmiddle.2 hend (ending_no_slash r t.name) hcaught
    have hstart : r.stamp ++ '.' :: (t.setscene ++ '.' :: (zero.digits ++ ending r t.setscene)) =
        (r.stamp ++ '.' :: (t.setscene ++ ['.'])) ++ '0' :: ending r t.setscene := by
      simp [zero]
    rw [hpath, hstart] at hfile
    -- the part before the hash has no more zeros than its mask
    have hahead : replace flag (flag ++ text "_setscene") (r.stamp ++ '.' :: (t.name ++ ['.'])) <+:
        r.stamp ++ '.' :: (t.setscene ++ ['.']) := by
      have hzeros := count_replace hne hcount (r.stamp ++ '.' :: (t.name ++ ['.']))
      rcases List.append_eq_append_iff.mp hfile with ⟨w, hw, hrest⟩ | ⟨w, hw, _⟩
      · cases w with
        | nil =>
          rw [List.append_nil] at hw
          rw [hw]
        | cons c w =>
          obtain rfl : '0' = c := (List.cons.inj hrest).1
          rw [hw] at hzeros
          have hsetscene : t.setscene.count '0' = t.name.count '0' := by
            rw [Task.setscene, List.count_append, List.count_eq_zero.mpr hword.2.2, Nat.add_zero]
          simp only [List.count_append, List.count_cons, hsetscene] at hzeros
          simp at hzeros
      · exact ⟨w, hw.symm⟩
    have hahead' := hahead
    rw [← hflag] at hahead'
    have halone := alone_of_replace hahead'
    refine ⟨halone, fun hwithin => ?_⟩
    rw [ending_setscene halone.1] at hfile
    obtain rfl : t.name = flag := by
      rw [← hflag, replace_of_absent [] halone.1]
    have hstamp := length_replace_of_infix (text "_setscene") hne
      (List.IsInfix.trans ⟨['.'], ['.'], by simp⟩ (List.suffix_append r.stamp ('.' :: (t.name ++ ['.']))).isInfix)
    have hgrown := length_replace_of_infix (text "_setscene") hne hwithin
    have hlength := congrArg List.length hfile
    have hnine : (text "_setscene").length = 9 := rfl
    simp only [Task.setscene, List.length_append, List.length_cons] at hlength hstamp hgrown
    omega

/-! ## Cleaning is exact -/

/-- Where the stamps of a task can be told by their mask, cleaning is exact unless a file looks like
one of them. Without an opening bracket in the mask, it is exact nowhere else. -/
theorem cleaning_is_exact_iff (r : Recipe) (t : Task) :
    (Plain r t → ∀ contents, Exact r t contents ↔ ∀ f ∈ contents, ¬ Lookalike r t f) ∧
      ('[' ∉ r.stamp → '[' ∉ ending r t.name →
        (∀ contents, (∀ f ∈ contents, ¬ Lookalike r t f) → Exact r t contents) → Plain r t) := by
  refine ⟨fun h => h.exact_iff, ?_⟩
  intro hstamp hend hall
  have h : Reliable r t := hall
  have hbracket : ∀ c ∈ r.base :: r.dir, '[' ∉ c := by
    intro c hc hmem
    apply hstamp
    have hmem' : c ∈ r.dir ++ [r.base] := by
      rw [List.mem_append, List.mem_singleton]
      exact (List.mem_cons.mp hc).symm
    exact List.mem_flatMap.mpr ⟨c, hmem', List.mem_cons_of_mem _ hmem⟩
  have hdir := h.dir_plain hbracket hend
  have hbase := h.base_plain hbracket hend
  have hending := h.ending_plain hbracket hend
  obtain ⟨⟨hno, hstart⟩, hrest⟩ := h.alone hdir hbase hending
  exact {
    dir_literal := fun c hc => literal_of_plain (hdir c hc) []
    base_literal := literal_of_plain hbase _
    ending_literal := literal_of_plain hending []
    alone := ⟨hstart, hrest⟩
    no_setscene := hno
    unmarked := h.unmarked
    untainted := h.untainted }

def sigdata_tools : Recipe where
  dir := [text "work", text "stamps", text "sigdata-tools"]
  base := text "1.0"
  named := by decide
  stamp_extrainfo := fun _ => []
  extra_no_slash := fun _ => List.not_mem_nil

def do_fetch : Task where
  name := text "do_fetch"
  starts := by decide
  no_slash := by decide
  plain := plain_of_no_magic (by decide)
  no_setscene := by decide

def old_stamp : File := ⟨[text "work", text "stamps", text "sigdata-tools", text "1.0.do_fetch.0a"], by decide⟩

/-- The old stamp of the task is preserved, as a file with signature data. -/
theorem an_old_stamp_is_kept :
    path old_stamp.parts = text "/work/stamps/sigdata-tools/1.0.do_fetch.0a" ∧
      path old_stamp.parts = stampfile sigdata_tools do_fetch.name (text "0a") ∧
      old_stamp ∈ clean_stamp sigdata_tools do_fetch.name [old_stamp] ∧
      ¬ Exact sigdata_tools do_fetch [old_stamp] := by
  have hpath : path old_stamp.parts = stampfile sigdata_tools do_fetch.name (text "0a") := by decide
  have hpreserved : preserved (path old_stamp.parts) = true := by decide
  have hkept : old_stamp ∈ clean_stamp sigdata_tools do_fetch.name [old_stamp] :=
    mem_clean_stamp.mpr ⟨List.mem_singleton_self _, fun _ _ _ => hpreserved⟩
  refine ⟨by decide, hpath, hkept, fun hexact => ?_⟩
  have hown : Own sigdata_tools do_fetch old_stamp :=
    ⟨⟨text "0a", by decide, by intro c hc; rcases List.mem_pair.mp hc with rfl | rfl <;> decide⟩, Or.inl hpath⟩
  exact ((hexact.1 old_stamp).mp hkept).2 hown

end yocto.stamp_cleaning
