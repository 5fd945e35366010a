-- The list of the local files of a recipe with a flag for each, whether it exists
-- (`get_checksum_file_list` of the fetcher).
import Mathlib.Data.List.DropRight
import Yocto.TextLines

open yocto.task_ids yocto.data_smart yocto.text_lines

namespace yocto.checksum_lists

/-! ## The writer -/

def bool_text (b : Bool) : Text := if b then text "True" else text "False"

/-- `f + ":" + str(os.path.exists(f))`. -/
def entry (p : Text × Bool) : Text := p.1 ++ ':' :: bool_text p.2

/-- The end of `get_checksum_file_list`: `" ".join(filelist)`, for the paths that were searched. -/
def get_checksum_file_list (paths : List (Text × Bool)) : Text := [' '].intercalate (paths.map entry)

/-! ## The readers -/

/-- The text before a place, read backwards, ends with a flag: `(?<=:True)|(?<=:False)`. -/
def flagged (before : Text) : Bool :=
  (text ":True").reverse.isPrefixOf before || (text ":False").reverse.isPrefixOf before

/-- `filelist_regex.split`, with the text before the place read backwards, the part that is read,
and whether a separator is read. -/
def filelist_split : Text → Text → Bool → Text → List Text
  | _, part, _, [] => [part]
  | before, part, skipping, c :: s =>
    if isspace c && skipping then filelist_split (c :: before) [] true s
    else if isspace c && flagged before then part :: filelist_split (c :: before) [] true s
    else filelist_split (c :: before) (part ++ [c]) false s

/-- `pth.split(":")[0]` and `pth.split(":")[1]`. Without a colon the index raises. -/
def first_colon (pth : Text) : Option (Text × Text) := do
  let exist ← (pth.splitOn ':')[1]?
  let path ← (pth.splitOn ':')[0]?
  some (path, exist)

/-- `f, exist = f.rsplit(":", 1)`. Without a colon the assignment raises. -/
def last_colon (f : Text) : Option (Text × Text) :=
  if ':' ∈ f then some ((f.rdropWhile (· ≠ ':')).dropLast, f.rtakeWhile (· ≠ ':')) else none

/-- The paths and flags that the loop of `get_checksums` goes through. -/
def get_checksums_entries (filelist : Text) : Option (List (Text × Text)) :=
  (((filelist_split [] [] false filelist).map strip).filter (· ≠ [])).mapM first_colon

/-- The paths and flags that the loop of `cacheValid` goes through. -/
def cacheValid_entries (fl : Text) : Option (List (Text × Text)) :=
  if strip fl = [] then some []
  else ((filelist_split [] [] false (strip fl)).filter (· ≠ [])).mapM last_colon

/-! ## Reading the list -/

/-- An absolute path in which no flag stands before white space. -/
structure PlainPath (path : Text) : Prop where
  absolute : path.head? = some '/'
  unflagged : ∀ a c b, path = a ++ c :: b → isspace c = true → flagged a.reverse = false

/-- Both readers get the paths that were written. -/
def ReadAlike (paths : List (Text × Bool)) : Prop :=
  get_checksums_entries (get_checksum_file_list paths) =
      some (paths.map fun p => (p.1, bool_text p.2)) ∧
    cacheValid_entries (get_checksum_file_list paths) =
      some (paths.map fun p => (p.1, bool_text p.2))

theorem filelist_split_plain {s : Text} {before : Text} (part : Text)
    (h : ∀ a c b, s = a ++ c :: b → isspace c = true → flagged (a.reverse ++ before) = false)
    (rest : Text) : filelist_split before part false (s ++ rest) =
      filelist_split (s.reverse ++ before) (part ++ s) false rest := by
  induction s generalizing before part with
  | nil => simp
  | cons c s ih =>
    have hstep : filelist_split before part false (c :: (s ++ rest)) =
        filelist_split (c :: before) (part ++ [c]) false (s ++ rest) := by
      rw [filelist_split]
      by_cases hc : isspace c = true
      · have hflag := h [] c s rfl hc
        simp only [List.reverse_nil, List.nil_append] at hflag
        simp [hflag]
      · simp [hc]
    rw [List.cons_append, hstep, ih]
    · simp
    · intro a d b hs hd
      have hflag := h (c :: a) d b (by rw [hs]; rfl) hd
      simpa using hflag

theorem filelist_split_skipped {before s : Text} {c : Char} (hc : isspace c = false) :
    filelist_split before [] true (c :: s) = filelist_split before [] false (c :: s) := by
  simp [filelist_split, hc]

theorem flagged_append_of_slash {a before : Text} (h : '/' ∈ a) :
    flagged (a ++ before) = flagged a := by
  have hflag : ∀ flag : Text, '/' ∉ flag → (flag.isPrefixOf (a ++ before) = flag.isPrefixOf a) := by
    intro flag hflag
    rw [Bool.eq_iff_iff, List.isPrefixOf_iff_prefix, List.isPrefixOf_iff_prefix]
    constructor
    · intro hp
      rcases List.prefix_or_prefix_of_prefix hp (List.prefix_append a before) with h' | h'
      · exact h'
      · exact absurd (h'.subset h) hflag
    · intro hp
      exact hp.trans (List.prefix_append a before)
  unfold flagged
  rw [hflag _ (by decide), hflag _ (by decide)]

theorem PlainPath.cons {path : Text} (h : PlainPath path) : ∃ tail, path = '/' :: tail := by
  have habs := h.absolute
  cases path with
  | nil => simp at habs
  | cons c tail => exact ⟨tail, by rw [Option.some.inj habs]⟩

theorem bool_text_plain (b : Bool) :
    ':' ∉ bool_text b ∧ (bool_text b).all (fun c => !isspace c) = true := by
  cases b <;> decide

theorem filelist_split_entry {p : Text × Bool} (h : PlainPath p.1) (before rest : Text) :
    filelist_split before [] false (entry p ++ rest) =
      filelist_split ((entry p).reverse ++ before) (entry p) false rest := by
  obtain ⟨tail, htail⟩ := h.cons
  apply filelist_split_plain
  intro a c b hs hc
  -- the white space stands in the path, behind the slash with which it starts
  have hpath : ∃ b', p.1 = a ++ c :: b' := by
    unfold entry at hs
    rcases List.append_eq_append_iff.mp hs with ⟨d, hd, hflag⟩ | ⟨d, hd, hrest⟩
    · exfalso
      have hmem : c ∈ ':' :: bool_text p.2 := by
        rw [hflag]
        simp
      rcases List.mem_cons.mp hmem with rfl | hmem
      · exact absurd hc (by decide)
      · have hall := List.all_eq_true.mp (bool_text_plain p.2).2 c hmem
        simp [hc] at hall
    · cases d with
      | nil =>
        rw [List.nil_append] at hrest
        obtain ⟨rfl, -⟩ := List.cons.inj hrest
        exact absurd hc (by decide)
      | cons d ds =>
        obtain ⟨rfl, -⟩ := List.cons.inj hrest
        exact ⟨ds, hd⟩
  obtain ⟨b', hpath⟩ := hpath
  have hslash : '/' ∈ a := by
    rw [htail] at hpath
    cases a with
    | nil =>
      obtain ⟨rfl, -⟩ := List.cons.inj hpath
      exact absurd hc (by decide)
    | cons d a =>
      obtain ⟨rfl, -⟩ := List.cons.inj hpath
      exact List.mem_cons_self
  rw [flagged_append_of_slash (List.mem_reverse.mpr hslash)]
  exact h.unflagged a c b' hpath hc

theorem flagged_entry (p : Text × Bool) (before : Text) :
    flagged ((entry p).reverse ++ before) = true := by
  unfold flagged entry bool_text
  cases p.2 <;> simp [text]

theorem filelist_split_list {p : Text × Bool} {ps : List (Text × Bool)}
    (h : ∀ q ∈ p :: ps, PlainPath q.1) (before : Text) :
    filelist_split before [] false (get_checksum_file_list (p :: ps)) = (p :: ps).map entry := by
  induction ps generalizing p before with
  | nil =>
    have hone : get_checksum_file_list [p] = entry p ++ [] := by
      simp [get_checksum_file_list]
    rw [hone, filelist_split_entry (h p List.mem_cons_self)]
    simp [filelist_split]
  | cons q ps ih =>
    have hmore : get_checksum_file_list (p :: q :: ps) =
        entry p ++ ' ' :: get_checksum_file_list (q :: ps) := by
      simp [get_checksum_file_list]
    have hrest := fun r hr => h r (List.mem_cons_of_mem p hr)
    obtain ⟨tail, htail⟩ := (hrest q List.mem_cons_self).cons
    have hslash : ∃ s, get_checksum_file_list (q :: ps) = '/' :: s := by
      cases ps <;> simp [get_checksum_file_list, entry, htail]
    obtain ⟨s, hs⟩ := hslash
    rw [hmore, filelist_split_entry (h p List.mem_cons_self)]
    have hspace : isspace ' ' = true := by decide
    rw [filelist_split, hspace, flagged_entry]
    simp only [Bool.and_false, Bool.false_eq_true, if_false, Bool.and_self, if_true]
    have hstart := ih hrest (' ' :: ((entry p).reverse ++ before))
    rw [hs] at hstart ⊢
    rw [filelist_split_skipped (by decide), hstart]
    rfl

/-! ## The entries -/

theorem strip_of_ends {s : Text} {c d : Char} (hc : isspace c = false) (hd : isspace d = false)
    (hhead : s.head? = some c) (hlast : s.getLast? = some d) : strip s = s := by
  have hdrop : ∀ {l : Text} {e : Char}, isspace e = false → l.head? = some e →
      l.dropWhile isspace = l := by
    intro l e he hl
    cases l with
    | nil => cases hl
    | cons x l =>
      obtain rfl := Option.some.inj hl
      simp [he]
  unfold strip
  rw [hdrop hc hhead, hdrop hd (by rw [List.head?_reverse, hlast]), List.reverse_reverse]

theorem entry_head {p : Text × Bool} (h : PlainPath p.1) : (entry p).head? = some '/' := by
  obtain ⟨tail, htail⟩ := h.cons
  simp [entry, htail]

theorem entry_last (p : Text × Bool) : (entry p).getLast? = some 'e' := by
  unfold entry bool_text
  cases p.2 <;> simp [text]

theorem entry_ne_nil (p : Text × Bool) : entry p ≠ [] := by
  simp [entry]

theorem strip_entry {p : Text × Bool} (h : PlainPath p.1) : strip (entry p) = entry p :=
  strip_of_ends (by decide) (by decide) (entry_head h) (entry_last p)

theorem last_colon_entry (p : Text × Bool) : last_colon (entry p) = some (p.1, bool_text p.2) := by
  have hplain := (bool_text_plain p.2).1
  have hall : ∀ c ∈ (bool_text p.2).reverse, (!decide (c = ':')) = true := by
    intro c hc
    rw [Bool.not_eq_true', decide_eq_false_iff_not]
    rintro rfl
    exact hplain (List.mem_reverse.mp hc)
  unfold last_colon entry
  rw [if_pos (by simp)]
  simp only [List.rdropWhile, List.rtakeWhile, List.reverse_append, List.reverse_cons,
    List.append_assoc, List.singleton_append, ne_eq, decide_not]
  rw [List.dropWhile_append_of_pos hall, List.takeWhile_append_of_pos hall]
  simp

theorem first_colon_entry (p : Text × Bool) :
    first_colon (entry p) = some (p.1, bool_text p.2) ↔ ':' ∉ p.1 := by
  unfold first_colon
  constructor
  · intro h hcolon
    obtain ⟨exist, -, h⟩ := Option.bind_eq_some_iff.mp h
    obtain ⟨path, hpath, h⟩ := Option.bind_eq_some_iff.mp h
    obtain ⟨rfl, -⟩ := Prod.mk.inj (Option.some.inj h)
    exact not_mem_of_mem_splitOn (List.mem_of_getElem? hpath) hcolon
  · intro hcolon
    have hsplit : (entry p).splitOn ':' = [p.1, bool_text p.2] := by
      unfold entry
      rw [List.splitOn_eq_splitOnP, List.splitOnP_append_cons p.1 _ (by simp),
        ← List.splitOn_eq_splitOnP, ← List.splitOn_eq_splitOnP, List.splitOn_eq_singleton hcolon,
        List.splitOn_eq_singleton (bool_text_plain p.2).1]
      rfl
    rw [hsplit]
    rfl

theorem list_head {p : Text × Bool} (ps : List (Text × Bool)) (h : PlainPath p.1) :
    (get_checksum_file_list (p :: ps)).head? = some '/' := by
  obtain ⟨tail, htail⟩ := h.cons
  cases ps <;> simp [get_checksum_file_list, entry, htail]

theorem list_last (p : Text × Bool) (ps : List (Text × Bool)) :
    (get_checksum_file_list (p :: ps)).getLast? = some 'e' := by
  induction ps generalizing p with
  | nil =>
    have hone : get_checksum_file_list [p] = entry p := by simp [get_checksum_file_list]
    rw [hone, entry_last]
  | cons q ps ih =>
    have hmore : get_checksum_file_list (p :: q :: ps) =
        (entry p ++ [' ']) ++ get_checksum_file_list (q :: ps) := by
      simp [get_checksum_file_list]
    rw [hmore, List.getLast?_append, ih]
    rfl

theorem filter_entries (paths : List (Text × Bool)) :
    (paths.map entry).filter (· ≠ []) = paths.map entry := by
  rw [List.filter_eq_self]
  intro e he
  obtain ⟨p, -, rfl⟩ := List.mem_map.mp he
  simp [entry_ne_nil]

theorem strip_entries {paths : List (Text × Bool)} (h : ∀ p ∈ paths, PlainPath p.1) :
    (paths.map entry).map strip = paths.map entry := by
  rw [List.map_map]
  apply List.map_congr_left
  intro p hp
  exact strip_entry (h p hp)

theorem mapM_entry {read : Text → Option (Text × Text)} {paths : List (Text × Bool)} :
    (paths.map entry).mapM read = some (paths.map fun p => (p.1, bool_text p.2)) ↔
      ∀ p ∈ paths, read (entry p) = some (p.1, bool_text p.2) := by
  induction paths with
  | nil => simp
  | cons p ps ih =>
    rw [List.map_cons, List.map_cons, List.mapM_cons, List.forall_mem_cons, ← ih]
    cases read (entry p) with
    | none => simp
    | some x =>
      cases (ps.map entry).mapM read with
      | none => simp
      | some xs => simp

theorem get_checksums_entries_eq {paths : List (Text × Bool)} (h : ∀ p ∈ paths, PlainPath p.1) :
    get_checksums_entries (get_checksum_file_list paths) = (paths.map entry).mapM first_colon := by
  unfold get_checksums_entries
  cases paths with
  | nil => rfl
  | cons p ps => rw [filelist_split_list h, strip_entries h, filter_entries]

theorem cacheValid_entries_eq {paths : List (Text × Bool)} (h : ∀ p ∈ paths, PlainPath p.1) :
    cacheValid_entries (get_checksum_file_list paths) =
      some (paths.map fun p => (p.1, bool_text p.2)) := by
  unfold cacheValid_entries
  cases paths with
  | nil => rfl
  | cons p ps =>
    have hstrip := strip_of_ends (by decide) (by decide) (list_head ps (h p List.mem_cons_self))
      (list_last p ps)
    have hne : get_checksum_file_list (p :: ps) ≠ [] := by
      intro hnil
      have hlast := list_last p ps
      rw [hnil] at hlast
      cases hlast
    rw [hstrip, if_neg hne, filelist_split_list h, filter_entries]
    exact mapM_entry.mpr fun q _ => last_colon_entry q

/-- The list is read alike exactly if there is no colon in a path. -/
theorem read_alike_iff {paths : List (Text × Bool)} (h : ∀ p ∈ paths, PlainPath p.1) :
    ReadAlike paths ↔ ∀ p ∈ paths, ':' ∉ p.1 := by
  unfold ReadAlike
  rw [cacheValid_entries_eq h, get_checksums_entries_eq h, mapM_entry]
  simp only [and_true]
  constructor
  · intro hread p hp
    exact (first_colon_entry p).mp (hread p hp)
  · intro hplain p hp
    exact (first_colon_entry p).mpr (hplain p hp)

theorem PlainPath.of_no_colon {path : Text} (habs : path.head? = some '/') (h : ':' ∉ path) :
    PlainPath path where
  absolute := habs
  unflagged := by
    intro a c b hpath _
    have hcolon : ':' ∉ a.reverse := by
      intro hmem
      apply h
      rw [hpath]
      exact List.mem_append_left _ (List.mem_reverse.mp hmem)
    have hflag : ∀ flag : Text, ':' ∈ flag → flag.isPrefixOf a.reverse = false := by
      intro flag hflag
      rw [Bool.eq_false_iff]
      intro hp
      exact hcolon ((List.isPrefixOf_iff_prefix.mp hp).subset hflag)
    unfold flagged
    rw [hflag _ (by decide), hflag _ (by decide)]
    rfl

theorem PlainPath.of_no_space {path : Text} (habs : path.head? = some '/')
    (h : path.all (fun c => !isspace c) = true) : PlainPath path where
  absolute := habs
  unflagged := by
    intro a c b hpath hc
    have hplain := List.all_eq_true.mp h c (by simp [hpath])
    simp [hc] at hplain

theorem spaces_are_read :
    ReadAlike [(text "/a b", true), (text "/c", false)] := by
  have hplain : ∀ p ∈ [(text "/a b", true), (text "/c", false)], ':' ∉ p.1 := by decide
  refine (read_alike_iff ?_).mpr hplain
  intro p hp
  have habs : p.1.head? = some '/' := by
    revert p
    decide
  exact .of_no_colon habs (hplain p hp)

/-- Of a path with a colon `get_checksums` gets the part before it. -/
theorem colon_is_misread : PlainPath (text "/a:b") ∧ ¬ReadAlike [(text "/a:b", true)] := by
  refine ⟨.of_no_space rfl (by decide), ?_⟩
  rintro ⟨h, -⟩
  exact absurd h (by decide)

end yocto.checksum_lists
