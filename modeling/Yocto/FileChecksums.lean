-- The checksums of the files of a task (`get_checksums` of checksum.py).
import Yocto.ChecksumLists
import Yocto.ListSearch
import Yocto.PosixPath
import Yocto.SigGen
import Yocto.StableSort

open yocto.task_ids yocto.data_smart yocto.text_lines yocto.checksum_lists yocto.list_search
open yocto.posix_path yocto.siggen yocto.stable_sort

namespace yocto.file_checksums

/-! ## The file system -/

mutual
/-- A directory: its files, and the directories in it that are no links, as they are listed. -/
inductive Dir
  | node (files : List Text) (dirs : Dirs)

inductive Dirs
  | nil
  | cons (name : Text) (dir : Dir) (rest : Dirs)
end

/-- A path from the root directory on. -/
def Absolute (f : Text) : Prop := f.head? = some '/'

instance (f : Text) : Decidable (Absolute f) := inferInstanceAs (Decidable (_ = some '/'))

/-- What `get_checksums` asks for. `checksum_file` is none where the file cannot be read. -/
structure FileSystem where
  glob : Text → List Text
  isdir : Text → Bool
  islink : Text → Bool
  tree : Text → Dir
  checksum_file : Text → Option Text
  tree_nil : tree [] = .node [] .nil
  glob_absolute : ∀ pth, Absolute pth → ∀ f ∈ glob pth, Absolute f

mutual
/-- `os.walk` from the top down, without the directories that are removed from `dirs`. -/
def walk (localdirsexclude : List Text) (root : Text) : Dir → List (Text × List Text)
  | .node files dirs => (root, files) :: walk_dirs localdirsexclude root dirs

def walk_dirs (localdirsexclude : List Text) (root : Text) : Dirs → List (Text × List Text)
  | .nil => []
  | .cons name dir rest =>
    (if name ∈ localdirsexclude then [] else walk localdirsexclude (join root name) dir) ++
      walk_dirs localdirsexclude root rest
end

/-! ## The checksums -/

/-- The path with the marker: `path.replace(pth, os.path.join(pth, "."))`. -/
def mark (pth path : Text) : Text := replace pth (join pth (text ".")) path

def checksum_file (fs : FileSystem) (f : Text) : Option (Text × Text) :=
  (truthy (fs.checksum_file f)).map fun checksum => (f, checksum)

/-- `checksum_dir`, for the path without the slashes at its end. -/
def checksum_files (fs : FileSystem) (localdirsexclude : List Text) (pth : Text) :
    List (Text × Text) :=
  (walk localdirsexclude pth (fs.tree pth)).flatMap fun (root, files) =>
    files.filterMap fun name => checksum_file fs (mark pth (join root name))

/-- `checksum_dir`. For the root directory it raises. -/
def checksum_dir (fs : FileSystem) (localdirsexclude : List Text) (pth : Text) :
    Option (List (Text × Text)) :=
  if pth = text "/" then none
  else some (checksum_files fs localdirsexclude (pth.rdropWhile (· = '/')))

/-- A path: a directory that is no link, or a file. -/
def checksum_path (fs : FileSystem) (localdirsexclude : List Text) (f : Text) :
    Option (List (Text × Text)) :=
  if fs.isdir f then
    if fs.islink f then some [] else checksum_dir fs localdirsexclude f
  else some (checksum_file fs f).toList

/-- A loop that extends the list of checksums and may raise. -/
def extend {α : Type} (f : α → Option (List (Text × Text))) : List α → Option (List (Text × Text))
  | [] => some []
  | a :: as => do
    let found ← f a
    let rest ← extend f as
    some (found ++ rest)

def checksum_entry (fs : FileSystem) (localdirsexclude : List Text) (entry : Text × Text) :
    Option (List (Text × Text)) :=
  if entry.2 = text "False" then some []
  else if '*' ∈ entry.1 then extend (checksum_path fs localdirsexclude) (fs.glob entry.1)
  else checksum_path fs localdirsexclude entry.1

def get_checksums (fs : FileSystem) (localdirsexclude : List Text) (filelist : Text) :
    Option (List (Text × Text)) := do
  let entries ← get_checksums_entries filelist
  let checksums ← extend (checksum_entry fs localdirsexclude) entries
  some (sort_by Prod.snd checksums)

/-! ## Other orders -/

mutual
/-- The same directory, listed in another order. -/
inductive Dir.Reordered : Dir → Dir → Prop
  | node {files files' : List Text} {dirs dirs' : Dirs} : files.Perm files' →
      Dirs.Reordered dirs dirs' → Dir.Reordered (.node files dirs) (.node files' dirs')

inductive Dirs.Reordered : Dirs → Dirs → Prop
  | nil : Dirs.Reordered .nil .nil
  | cons (name : Text) {dir dir' : Dir} {rest rest' : Dirs} : Dir.Reordered dir dir' →
      Dirs.Reordered rest rest' → Dirs.Reordered (.cons name dir rest) (.cons name dir' rest')
  | swap (a b : Text) (dir dir' : Dir) (rest : Dirs) :
      Dirs.Reordered (.cons a dir (.cons b dir' rest)) (.cons b dir' (.cons a dir rest))
  | trans {a b c : Dirs} : Dirs.Reordered a b → Dirs.Reordered b c → Dirs.Reordered a c
end

/-- The same file system, in which patterns and directories give their files in another order. -/
structure FileSystem.Reordered (fs fs' : FileSystem) : Prop where
  glob : ∀ pth, (fs.glob pth).Perm (fs'.glob pth)
  isdir : fs'.isdir = fs.isdir
  islink : fs'.islink = fs.islink
  tree : ∀ pth, (fs.tree pth).Reordered (fs'.tree pth)
  checksum_file : fs'.checksum_file = fs.checksum_file

variable {fs fs' : FileSystem} {localdirsexclude : List Text}

def found (walked : List (Text × List Text)) : List (Text × Text) :=
  walked.flatMap fun x => x.2.map fun name => (x.1, name)

theorem found_append (a b : List (Text × List Text)) : found (a ++ b) = found a ++ found b := by
  simp [found]

mutual
theorem walk_perm {t t' : Dir} (h : t.Reordered t') (root : Text) :
    (found (walk localdirsexclude root t)).Perm (found (walk localdirsexclude root t')) :=
  match h with
  | .node hfiles hdirs => by
    have hrest := walk_dirs_perm hdirs root
    unfold walk
    exact (hfiles.map _).append hrest

theorem walk_dirs_perm {ds ds' : Dirs} (h : ds.Reordered ds') (root : Text) :
    (found (walk_dirs localdirsexclude root ds)).Perm (found (walk_dirs localdirsexclude root ds')) :=
  match h with
  | .nil => List.Perm.refl _
  | .cons name hdir hrest => by
    have hone := walk_perm hdir (join root name)
    have hmore := walk_dirs_perm hrest root
    unfold walk_dirs
    rw [found_append, found_append]
    split
    · exact hmore
    · exact hone.append hmore
  | .swap a b dir dir' rest => by
    simp only [walk_dirs, found_append]
    rw [← List.append_assoc, ← List.append_assoc]
    exact List.perm_append_comm.append_right _
  | .trans h h' => (walk_dirs_perm h root).trans (walk_dirs_perm h' root)
end

theorem checksum_files_eq (fs : FileSystem) (localdirsexclude : List Text) (pth : Text) :
    checksum_files fs localdirsexclude pth =
      (found (walk localdirsexclude pth (fs.tree pth))).filterMap fun x =>
        checksum_file fs (mark pth (join x.1 x.2)) := by
  unfold checksum_files found
  rw [List.filterMap_flatMap]
  apply List.flatMap_congr
  intro x _
  rw [List.filterMap_map]
  rfl

/-- Two results with the same items, or two failures. -/
abbrev Alike {α : Type} : Option (List α) → Option (List α) → Prop := Option.Rel List.Perm

theorem Alike.refl {α : Type} (a : Option (List α)) : Alike a a := by
  cases a with
  | none => exact .none
  | some l => exact .some (List.Perm.refl l)

theorem Alike.trans {α : Type} {a b c : Option (List α)} (h : Alike a b) (h' : Alike b c) :
    Alike a c := by
  cases h with
  | none => exact h'
  | some hab =>
    cases h' with
    | some hbc => exact .some (hab.trans hbc)

def both {α : Type} (a b : Option (List α)) : Option (List α) := do some ((← a) ++ (← b))

theorem Alike.both {α : Type} {a a' b b' : Option (List α)} (h : Alike a a') (h' : Alike b b') :
    Alike (both a b) (both a' b') := by
  cases h with
  | none => exact .none
  | some hab =>
    cases h' with
    | none => exact .none
    | some hcd => exact .some (hab.append hcd)

theorem both_swap {α : Type} (a b c : Option (List α)) :
    Alike (both a (both b c)) (both b (both a c)) := by
  cases a with
  | none => cases b <;> exact .none
  | some x =>
    cases b with
    | none => exact .none
    | some y =>
      cases c with
      | none => exact .none
      | some z =>
        refine .some ?_
        rw [← List.append_assoc, ← List.append_assoc]
        exact List.perm_append_comm.append_right z

theorem extend_cons {α : Type} (f : α → Option (List (Text × Text))) (a : α) (as : List α) :
    extend f (a :: as) = both (f a) (extend f as) := rfl

theorem extend_congr {α : Type} {f f' : α → Option (List (Text × Text))}
    (hf : ∀ a, Alike (f a) (f' a)) (as : List α) : Alike (extend f as) (extend f' as) := by
  induction as with
  | nil => exact Alike.refl _
  | cons a as ih =>
    rw [extend_cons, extend_cons]
    exact (hf a).both ih

theorem extend_perm {α : Type} (f : α → Option (List (Text × Text))) {as as' : List α}
    (h : as.Perm as') : Alike (extend f as) (extend f as') := by
  induction h with
  | nil => exact Alike.refl _
  | cons a _ ih =>
    rw [extend_cons, extend_cons]
    exact (Alike.refl _).both ih
  | swap a b as =>
    simp only [extend_cons]
    exact both_swap _ _ _
  | trans _ _ ih ih' => exact ih.trans ih'

theorem checksum_path_alike (h : fs.Reordered fs') (f : Text) :
    Alike (checksum_path fs localdirsexclude f) (checksum_path fs' localdirsexclude f) := by
  have hfile : checksum_file fs' = checksum_file fs := by
    funext f
    unfold checksum_file
    rw [h.checksum_file]
  unfold checksum_path
  rw [h.isdir, h.islink, hfile]
  split
  · split
    · exact Alike.refl _
    · unfold checksum_dir
      split
      · exact .none
      · refine .some ?_
        rw [checksum_files_eq, checksum_files_eq, hfile]
        exact (walk_perm (h.tree _) _).filterMap _
  · exact Alike.refl _

theorem checksum_entry_alike (h : fs.Reordered fs') (entry : Text × Text) :
    Alike (checksum_entry fs localdirsexclude entry) (checksum_entry fs' localdirsexclude entry) := by
  unfold checksum_entry
  split
  · exact Alike.refl _
  · split
    · exact (extend_perm _ (h.glob _)).trans (extend_congr (checksum_path_alike h) _)
    · exact checksum_path_alike h _

/-! ## The text that is hashed -/

/-- What a checksum adds to the hashed text, told from the part of its path alone. -/
def contribution (x : Text × Text) : Text :=
  if x.2 = [] then [] else if Absolute x.1 then x.2 else x.1 ++ x.2

theorem clean_absolute {f : Text} (h : Absolute f) :
    Absolute (clean_checksum_file_path f) ↔ find (text "/./") f = none := by
  unfold clean_checksum_file_path
  cases hfind : find (text "/./") f with
  | none => simpa using h
  | some i => simp [Absolute, text]

theorem sorted_eq_sort_by {α κ : Type} [LinearOrder κ] (key : α → κ) (l : List α) :
    sorted (fun a b => decide (key a ≤ key b)) l = sort_by key l := by
  unfold sorted sort_by
  congr
  simp

theorem checksum_text_eq {values : List (Text × Text)} (h : ∀ x ∈ values, Absolute x.1) :
    checksum_text values =
      ((sort_by (fun x => clean_checksum_file_path x.1) values).map
        fun x => (clean_checksum_file_path x.1, x.2)).flatMap contribution := by
  unfold checksum_text
  rw [sorted_eq_sort_by, List.flatMap_map]
  apply List.flatMap_congr
  intro x hx
  have habs := h x ((sort_by_perm _ _).mem_iff.mp hx)
  have hclean := clean_absolute habs
  unfold contribution
  dsimp only
  split
  · rfl
  · cases hfind : find (text "/./") x.1 with
    | none =>
      rw [hfind] at hclean
      rw [if_pos (hclean.mpr rfl)]
    | some i =>
      have hnot : ¬Absolute (clean_checksum_file_path x.1) := by
        rw [hclean, hfind]
        intro hnone
        cases hnone
      rw [if_neg hnot]
      simp [clean_checksum_file_path, hfind]

theorem checksum_text_perm {values values' : List (Text × Text)} (h : ∀ x ∈ values, Absolute x.1)
    (hperm : values.Perm values') :
    checksum_text (sort_by Prod.snd values) = checksum_text (sort_by Prod.snd values') := by
  have hperm' := (sort_by_perm Prod.snd values).trans hperm
  rw [checksum_text_eq (fun x hx => h x ((sort_by_perm _ _).mem_iff.mp hx)),
    checksum_text_eq (fun x hx => h x (hperm.mem_iff.mpr ((sort_by_perm _ _).mem_iff.mp hx))),
    sort_by_twice_keys Prod.snd (fun x : Text × Text => clean_checksum_file_path x.1) hperm]

/-! ## Absolute paths -/

theorem Absolute.append {f : Text} (h : Absolute f) (s : Text) : Absolute (f ++ s) := by
  unfold Absolute at *
  rw [List.head?_append, h]
  rfl

theorem Absolute.join {root : Text} (h : Absolute root) (name : Text) : Absolute (join root name) := by
  unfold posix_path.join
  split
  · rename_i habs
    exact of_decide_eq_true habs
  · split
    · exact h.append name
    · exact h.append _

theorem Absolute.replace {old new f : Text} (h : Absolute f) (hnew : Absolute new) :
    Absolute (replace old new f) := by
  cases f with
  | nil => cases h
  | cons c f =>
    unfold list_search.replace replaceFrom
    split
    · exact hnew.append _
    · exact h

theorem Absolute.rstrip {pth : Text} (h : Absolute pth) :
    pth.rdropWhile (· = '/') = [] ∨ Absolute (pth.rdropWhile (· = '/')) := by
  have hpre := List.rdropWhile_prefix (fun c => decide (c = '/')) pth
  cases hd : pth.rdropWhile (· = '/') with
  | nil => exact Or.inl rfl
  | cons c rest =>
    rw [hd] at hpre
    obtain ⟨t, rfl⟩ := hpre
    exact Or.inr h

mutual
theorem walk_absolute (t : Dir) {root : Text} (h : Absolute root) :
    ∀ x ∈ walk localdirsexclude root t, Absolute x.1 :=
  match t with
  | .node files dirs => by
    intro x hx
    unfold walk at hx
    rcases List.mem_cons.mp hx with rfl | hx
    · exact h
    · exact walk_dirs_absolute dirs h x hx

theorem walk_dirs_absolute (ds : Dirs) {root : Text} (h : Absolute root) :
    ∀ x ∈ walk_dirs localdirsexclude root ds, Absolute x.1 :=
  match ds with
  | .nil => by simp [walk_dirs]
  | .cons name dir rest => by
    intro x hx
    unfold walk_dirs at hx
    rcases List.mem_append.mp hx with hx | hx
    · split at hx
      · cases hx
      · exact walk_absolute dir (h.join name) x hx
    · exact walk_dirs_absolute rest h x hx
end

theorem checksum_file_path {f : Text} {x : Text × Text} (h : checksum_file fs f = some x) :
    x.1 = f := by
  unfold checksum_file at h
  obtain ⟨checksum, -, rfl⟩ := Option.map_eq_some_iff.mp h
  rfl

theorem checksum_files_absolute {pth : Text} (h : Absolute pth) :
    ∀ x ∈ checksum_files fs localdirsexclude (pth.rdropWhile (· = '/')), Absolute x.1 := by
  intro x hx
  rw [checksum_files_eq] at hx
  obtain ⟨y, hy, hfile⟩ := List.mem_filterMap.mp hx
  rw [checksum_file_path hfile]
  rcases h.rstrip with hnil | habs
  · rw [hnil, fs.tree_nil] at hy
    simp [walk, walk_dirs, found] at hy
  · obtain ⟨z, hz, hy⟩ := List.mem_flatMap.mp hy
    obtain ⟨name, -, rfl⟩ := List.mem_map.mp hy
    exact ((walk_absolute _ habs z hz).join name).replace (habs.join _)

theorem extend_all {α : Type} {p : Text × Text → Prop} {f : α → Option (List (Text × Text))}
    {as : List α} (hf : ∀ a ∈ as, ∀ found, f a = some found → ∀ x ∈ found, p x) :
    ∀ found, extend f as = some found → ∀ x ∈ found, p x := by
  induction as with
  | nil =>
    intro found h
    obtain rfl := Option.some.inj h
    simp
  | cons a as ih =>
    intro found h x hx
    obtain ⟨one, hone, h⟩ := Option.bind_eq_some_iff.mp h
    obtain ⟨rest, hrest, h⟩ := Option.bind_eq_some_iff.mp h
    obtain rfl := Option.some.inj h
    rcases List.mem_append.mp hx with hx | hx
    · exact hf a List.mem_cons_self one hone x hx
    · exact ih (fun b hb => hf b (List.mem_cons_of_mem a hb)) rest hrest x hx

theorem checksum_path_absolute {f : Text} (h : Absolute f) :
    ∀ found, checksum_path fs localdirsexclude f = some found → ∀ x ∈ found, Absolute x.1 := by
  intro found hfound x hx
  unfold checksum_path at hfound
  split at hfound
  · split at hfound
    · obtain rfl := Option.some.inj hfound
      cases hx
    · unfold checksum_dir at hfound
      split at hfound
      · cases hfound
      · obtain rfl := Option.some.inj hfound
        exact checksum_files_absolute h x hx
  · obtain rfl := Option.some.inj hfound
    rw [Option.mem_toList] at hx
    rw [checksum_file_path hx]
    exact h

theorem checksum_entry_absolute {entry : Text × Text} (h : Absolute entry.1) :
    ∀ found, checksum_entry fs localdirsexclude entry = some found → ∀ x ∈ found, Absolute x.1 := by
  intro found hfound x hx
  unfold checksum_entry at hfound
  split at hfound
  · obtain rfl := Option.some.inj hfound
    cases hx
  · split at hfound
    · exact extend_all (fun f hf => checksum_path_absolute (fs.glob_absolute _ h f hf)) found hfound
        x hx
    · exact checksum_path_absolute h found hfound x hx

/-- The paths of the list are absolute. -/
def AbsoluteList (filelist : Text) : Prop :=
  ∀ entries, get_checksums_entries filelist = some entries → ∀ entry ∈ entries, Absolute entry.1

theorem get_checksums_eq {filelist : Text} {entries : List (Text × Text)}
    (h : get_checksums_entries filelist = some entries) :
    get_checksums fs localdirsexclude filelist =
      (extend (checksum_entry fs localdirsexclude) entries).map (sort_by Prod.snd) := by
  unfold get_checksums
  rw [h]
  simp only [Option.bind_eq_bind, Option.bind_some]
  cases extend (checksum_entry fs localdirsexclude) entries <;> rfl

theorem get_checksums_text (h : fs.Reordered fs') {filelist : Text} (habs : AbsoluteList filelist) :
    (get_checksums fs localdirsexclude filelist).map checksum_text =
      (get_checksums fs' localdirsexclude filelist).map checksum_text := by
  cases hentries : get_checksums_entries filelist with
  | none => simp [get_checksums, hentries]
  | some entries =>
    have halike : Alike (extend (checksum_entry fs localdirsexclude) entries)
        (extend (checksum_entry fs' localdirsexclude) entries) :=
      extend_congr (checksum_entry_alike h) entries
    have hall : ∀ found, extend (checksum_entry fs localdirsexclude) entries = some found →
        ∀ x ∈ found, Absolute x.1 := by
      apply extend_all
      intro entry hentry
      exact checksum_entry_absolute (habs entries hentries entry hentry)
    rw [get_checksums_eq hentries, get_checksums_eq hentries]
    generalize extend (checksum_entry fs localdirsexclude) entries = a at halike hall ⊢
    generalize extend (checksum_entry fs' localdirsexclude) entries = b at halike ⊢
    cases halike with
    | none => rfl
    | some hperm => exact congrArg some (checksum_text_perm (hall _ rfl) hperm)

end yocto.file_checksums
