-- The dependencies of single files of a package.
import Yocto.DependencyStrings
import Yocto.MarkedCodes
import Yocto.TextLines

open yocto.task_ids yocto.data_smart yocto.text_lines yocto.list_search yocto.marked_codes
open yocto.dependency_strings (words_intercalate)

namespace yocto.file_dependencies

/-! ## The functions -/

def file_translate (file : Text) : Text :=
  let ft := replace (text "@") (text "@at@") file
  let ft := replace (text " ") (text "@space@") ft
  let ft := replace (text "\t") (text "@tab@") ft
  let ft := replace (text "[") (text "@openbrace@") ft
  let ft := replace (text "]") (text "@closebrace@") ft
  let ft := replace (text "_") (text "@underscore@") ft
  ft

/-- The value of `FILERDEPENDSFLIST` or `FILERPROVIDESFLIST`: what `process_filedeps` sets for the
files of a package. -/
def flist (files : List Text) : Text :=
  [' '].intercalate ((files.map file_translate).mergeSort fun a b => decide (a ≤ b))

/-- `d.getVar` of a value: what the expansion makes of one with a reference in it, if it does not fail. -/
def getVar (expanded : Text → Option Text) (value : Text) : Option Text :=
  if ['$', '{'] <:+: value then expanded value else some value

/-- The path in the spec file. -/
def file_of (dfile : Text) : Text :=
  let file := replace (text "@underscore@") (text "_") dfile
  let file := replace (text "@closebrace@") (text "]") file
  let file := replace (text "@openbrace@") (text "[") file
  let file := replace (text "@tab@") (text "\t") file
  let file := replace (text "@space@") (text " ") file
  let file := replace (text "@at@") (text "@") file
  file

/-- The turns of the loop of `dump_filerdeps`: the name of a file, by which its dependencies are
looked up, and the path that they are written for. -/
def dump_filerdeps (expanded : Text → Option Text) (dependsflist : Text) : Option (List (Text × Text)) :=
  (getVar expanded dependsflist).map fun value => (words value).map fun dfile => (dfile, file_of dfile)

/-! ## The words for characters -/

/-- The characters that a list or a variable may not have in a name, in the order in which they are
read back. -/
def codes : List (Code Char) :=
  [⟨'_', text "underscore"⟩, ⟨']', text "closebrace"⟩, ⟨'[', text "openbrace"⟩, ⟨'\t', text "tab"⟩,
    ⟨' ', text "space"⟩, ⟨'@', text "at"⟩]

theorem table : Table '@' codes where
  distinct := by decide
  plain := by decide
  mark_last := by
    intro code h
    have hat : code = ⟨'@', text "at"⟩ := (Option.some.inj h).symm
    rw [hat]
  apart := by decide

theorem file_translate_eq (file : Text) : file_translate file = spelled '@' codes file := table.write_eq file

theorem file_of_eq (dfile : Text) : file_of dfile = read '@' codes dfile := rfl

theorem file_translate_injective : Function.Injective file_translate := by
  intro file file' h
  rw [file_translate_eq, file_translate_eq] at h
  exact table.spelled_inj h

/-- White space of which a list cannot tell that it stands in a name. -/
def Splits (c : Char) : Prop := isspace c = true ∧ c ≠ ' ' ∧ c ≠ '\t'

instance (c : Char) : Decidable (Splits c) := inferInstanceAs (Decidable (_ ∧ _ ∧ _))

theorem codes_plain : (codes.all fun code =>
    (code.marked '@').all (fun x => !isspace x) && !decide (Splits code.char)) = true := by
  decide

theorem isspace_spell (c : Char) : (∀ x ∈ spell '@' codes c, isspace x = false) ↔ ¬ Splits c := by
  have hplain := List.all_eq_true.mp codes_plain
  rcases spell_cases codes c with ⟨code, hcode, rfl⟩ | hnone
  · obtain ⟨hword, hchar⟩ := Bool.and_eq_true_iff.mp (hplain code hcode)
    rw [table.spell_code hcode]
    apply iff_of_true
    · simpa using hword
    · simpa using hchar
  · have hblank : c ≠ ' ' := (hnone ⟨' ', text "space"⟩ (by simp [codes])).symm
    have htab : c ≠ '\t' := (hnone ⟨'\t', text "tab"⟩ (by simp [codes])).symm
    rw [spell_of_no_code hnone]
    simp [Splits, hblank, htab]

theorem isspace_file_translate (file : Text) :
    (∀ x ∈ file_translate file, isspace x = false) ↔ ∀ c ∈ file, ¬ Splits c := by
  rw [file_translate_eq]
  constructor
  · intro h c hc
    rw [← isspace_spell]
    exact fun x hx => h x (List.mem_flatMap.mpr ⟨c, hc, hx⟩)
  · intro h x hx
    obtain ⟨c, hc, hx⟩ := List.mem_flatMap.mp hx
    exact (isspace_spell c).mpr (h c hc) x hx

theorem file_translate_eq_nil {file : Text} : file_translate file = [] ↔ file = [] := by
  constructor
  · intro h
    exact file_translate_injective (h.trans (show [] = file_translate [] from rfl))
  · rintro rfl
    rfl

/-! ## The list of a package -/

theorem word_file_translate (file : Text) : Word (file_translate file) ↔ file ≠ [] ∧ ∀ c ∈ file, ¬ Splits c := by
  constructor
  · intro h
    exact ⟨fun hnil => h.nonempty (file_translate_eq_nil.mpr hnil), (isspace_file_translate file).mp h.no_space⟩
  · rintro ⟨hne, hsplits⟩
    exact ⟨fun hnil => hne (file_translate_eq_nil.mp hnil), (isspace_file_translate file).mpr hsplits⟩

theorem words_intercalate_iff (names : List Text) :
    words ([' '].intercalate names) = names ↔ ∀ name ∈ names, Word name := by
  constructor
  · intro h name hname
    rw [← h] at hname
    obtain ⟨hne, hspace⟩ := mem_words hname
    exact ⟨hne, hspace⟩
  · intro h
    rw [words_intercalate]
    have hword : ∀ name ∈ names, words name = [name] := by
      intro name hname
      rw [words_of_part (h name hname).no_space, if_neg (h name hname).nonempty]
    rw [List.flatMap_congr hword, List.flatMap_singleton']

/-- The names are told apart, they are split as they were put together, and the path that each of
them stands for is read back. -/
def RoundTrips (expanded : Text → Option Text) (files : List Text) : Prop :=
  Function.Injective file_translate ∧
    (getVar expanded (flist files)).map words =
      some ((files.map file_translate).mergeSort fun a b => decide (a ≤ b)) ∧
    ∀ file ∈ files, file_of (file_translate file) = file

/-- The dependencies of each file are written for the path that it has. -/
theorem RoundTrips.attributed {expanded : Text → Option Text} {files : List Text} (h : RoundTrips expanded files) :
    ∃ written, dump_filerdeps expanded (flist files) = some written ∧
      written.Perm (files.map fun file => (file_translate file, file)) := by
  obtain ⟨-, hsplit, hread⟩ := h
  obtain ⟨value, hvalue, hwords⟩ := Option.map_eq_some_iff.mp hsplit
  refine ⟨(words value).map fun dfile => (dfile, file_of dfile), by rw [dump_filerdeps, hvalue]; rfl, ?_⟩
  rw [hwords]
  refine ((List.mergeSort_perm _ _).map _).trans ?_
  rw [List.map_map]
  apply List.Perm.of_eq
  apply List.map_congr_left
  intro file hfile
  exact congrArg (file_translate file, ·) (hread file hfile)

/-- The expansion leaves the words of the list, no path is empty or has white space other than a
blank and a tab, and no word stands in it between two characters that are read back later. -/
theorem names_round_trip_iff (expanded : Text → Option Text) (files : List Text) :
    RoundTrips expanded files ↔
      (getVar expanded (flist files)).map words = some (words (flist files)) ∧
        ∀ file ∈ files, file ≠ [] ∧ (∀ c ∈ file, ¬ Splits c) ∧ ¬ Slipped codes file := by
  have hmem : ∀ name, name ∈ ((files.map file_translate).mergeSort fun a b => decide (a ≤ b)) ↔
      name ∈ files.map file_translate := fun name => List.mem_mergeSort
  have hread : ∀ file, file_of (file_translate file) = file ↔ ¬ Slipped codes file := by
    intro file
    rw [file_translate_eq, file_of_eq]
    exact table.read_spelled_iff file
  have hwords : words (flist files) = ((files.map file_translate).mergeSort fun a b => decide (a ≤ b)) ↔
      ∀ file ∈ files, file ≠ [] ∧ ∀ c ∈ file, ¬ Splits c := by
    unfold flist
    rw [words_intercalate_iff]
    constructor
    · intro h file hfile
      exact (word_file_translate file).mp (h _ ((hmem _).mpr (List.mem_map_of_mem hfile)))
    · intro h name hname
      obtain ⟨file, hfile, rfl⟩ := List.mem_map.mp ((hmem _).mp hname)
      exact (word_file_translate file).mpr (h file hfile)
  constructor
  · rintro ⟨-, hsplit, hback⟩
    have hlist : words (flist files) = ((files.map file_translate).mergeSort fun a b => decide (a ≤ b)) := by
      apply (words_intercalate_iff _).mpr
      intro name hname
      -- what is split from a value is a word
      obtain ⟨value, -, hvalue⟩ := Option.map_eq_some_iff.mp hsplit
      rw [← hvalue] at hname
      exact ⟨(mem_words hname).1, (mem_words hname).2⟩
    refine ⟨hsplit.trans (congrArg some hlist.symm), fun file hfile => ?_⟩
    obtain ⟨hne, hsplits⟩ := hwords.mp hlist file hfile
    exact ⟨hne, hsplits, (hread file).mp (hback file hfile)⟩
  · rintro ⟨hexpanded, hfiles⟩
    have hlist := hwords.mpr fun file hfile => ⟨(hfiles file hfile).1, (hfiles file hfile).2.1⟩
    refine ⟨file_translate_injective, hexpanded.trans (congrArg some hlist), fun file hfile => ?_⟩
    exact (hread file).mpr (hfiles file hfile).2.2

/-- The word `tab` between two at signs. -/
theorem a_unit_is_not_read_back :
    ¬ ∀ (expanded : Text → Option Text) (files : List Text), (∀ file ∈ files, '\n' ∉ file) →
      RoundTrips expanded files := by
  intro h
  have hfile : file_of (file_translate (text "/etc/unit@tab@1")) = text "/etc/unit@tab@1" :=
    (h some [text "/etc/unit@tab@1"] (by decide)).2.2 _ List.mem_cons_self
  exact absurd hfile (by decide)

end yocto.file_dependencies
