-- The file list of a package in a spec file.
import Yocto.FallibleMaps
import Yocto.MarkedCodes
import Yocto.PosixPath

open yocto.task_ids yocto.list_search yocto.fallible_maps yocto.marked_codes yocto.posix_path

namespace yocto.package_files

/-! ## The directory of a package -/

structure Name where
  name : Text
  nonempty : name ≠ []
  no_slash : '/' ∉ name

structure Stat where
  mode : ℕ
  uid : ℕ
  gid : ℕ

/-- A link, which may lead to a directory, a directory, or anything else. -/
inductive Entry
  | file (stat : Stat)
  | link (stat : Stat) (to_dir : Bool)
  | dir (stat : Stat) (entries : List (Name × Entry))

abbrev Folder := List (Name × Entry)

def Entry.stat : Entry → Stat
  | .file stat => stat
  | .link stat _ => stat
  | .dir stat _ => stat

/-- What `os.walk` takes for a directory. -/
def Entry.isdir : Entry → Bool
  | .file _ => false
  | .link _ to_dir => to_dir
  | .dir _ _ => true

def Entry.islink : Entry → Bool
  | .link _ _ => true
  | _ => false

/-- A directory that is no link. -/
def Entry.is_folder : Entry → Bool
  | .dir _ _ => true
  | _ => false

/-! ## The functions -/

mutual
/-- The directories with what is in them, in the order of `os.walk`, which enters no link. -/
def walk (rootpath : Text) : Entry → List (Text × Folder)
  | .file _ => []
  | .link _ _ => []
  | .dir _ entries => (rootpath, entries) :: walk_in rootpath entries

def walk_in (rootpath : Text) : Folder → List (Text × Folder)
  | [] => []
  | (n, e) :: rest => walk (join rootpath n.name) e ++ walk_in rootpath rest
end

/-- The names of users and groups. None of them has a quotation mark. -/
structure Users where
  getpwuid : ℕ → Option Text
  getgrgid : ℕ → Option Text
  user_plain : ∀ uid, ∀ owner ∈ getpwuid uid, '"' ∉ owner
  group_plain : ∀ gid, ∀ group ∈ getgrgid gid, '"' ∉ group

/-- A user or group without a name raises. -/
def get_attr (users : Users) (stat : Stat) : Option Text := do
  let owner ← users.getpwuid stat.uid
  let group ← users.getgrgid stat.gid
  return text "%attr(" ++ Nat.toDigits 8 stat.mode ++ ',' :: (owner ++ ',' :: (group ++ text ") "))

def escape_chars (p : Text) : Text :=
  replace (text "\"") (text "\\\"") (replace (text "\\") (text "\\\\") (replace (text "%") (text "%%") p))

/-- The names that other backends use. -/
def is_backend (s : Text) : Bool := s = text "CONTROL" || s = text "DEBIAN"

def ends_like_backend (path : Text) : Bool :=
  (text "DEBIAN").isSuffixOf path || (text "CONTROL").isSuffixOf path

def dir_line (users : Users) (p : Text) (e : Entry) : Option Text := do
  let attr ← get_attr users e.stat
  return attr ++ text "%dir \"" ++ escape_chars p ++ text "\""

def file_line (users : Users) (conffiles : List Text) (p : Text) (e : Entry) : Option Text := do
  let attr ← get_attr users e.stat
  if conffiles.any fun c => c = p then
    return attr ++ text "%config \"" ++ escape_chars p ++ text "\""
  else return attr ++ text "\"" ++ escape_chars p ++ text "\""

/-- One turn of the loop of `walk_files`, with `DIRFILES` not set: the lines of a directory. -/
def turn (users : Users) (walkpath : Text) (conffiles : List Text) (x : Text × Folder) : Option (List Text) :=
  let path := replace walkpath [] x.1
  if ends_like_backend path then some []
  else do
    -- links to directories are files
    let files := x.2.filter (fun y => !y.2.isdir) ++ x.2.filter fun y => y.2.isdir && y.2.islink
    let dirs := x.2.filter fun y => y.2.isdir && !y.2.islink
    let dir_lines ← (dirs.filter fun y => !is_backend y.1.name).mapM fun y =>
      dir_line users (path ++ '/' :: y.1.name) y.2
    let file_lines ← (files.filter fun y => !is_backend y.1.name).mapM fun y =>
      file_line users conffiles (path ++ '/' :: y.1.name) y.2
    return dir_lines ++ file_lines

def walk_files (users : Users) (walkpath : Text) (conffiles : List Text) (top : Folder) : Option (List Text) :=
  (((walkpath, top) :: walk_in walkpath top).mapM (turn users walkpath conffiles)).map List.flatten

/-! ## What is below a directory -/

mutual
/-- The entries below a directory, each under its path. -/
def below (path : Text) : Folder → List (Text × Entry)
  | [] => []
  | (n, e) :: rest => (path ++ '/' :: n.name, e) :: (inside (path ++ '/' :: n.name) e ++ below path rest)

def inside (path : Text) : Entry → List (Text × Entry)
  | .file _ => []
  | .link _ _ => []
  | .dir _ entries => below path entries
end

mutual
/-- The directories below one and that one, each under its path. -/
def folders (path : Text) : Folder → List (Text × Folder)
  | [] => []
  | (n, e) :: rest => folders_of (path ++ '/' :: n.name) e ++ folders path rest

def folders_of (path : Text) : Entry → List (Text × Folder)
  | .file _ => []
  | .link _ _ => []
  | .dir _ entries => (path, entries) :: folders path entries
end

/-- The line of an entry, with its own mode and owner. The configuration files are files. -/
def line (users : Users) (conffiles : List Text) (x : Text × Entry) : Option Text :=
  if x.2.is_folder then dir_line users x.1 x.2 else file_line users conffiles x.1 x.2

/-- The directory of a package, `PKGDEST/pkg`. The directories of other backends hold files only. -/
structure Package where
  pkgdest : Text
  pkg : Name
  absolute : pkgdest.head? = some '/'
  top : Folder
  backends : ∀ n stat entries, (n, Entry.dir stat entries) ∈ top → is_backend n.name →
    ∀ y ∈ entries, y.2.is_folder = false

def Package.walkpath (p : Package) : Text := p.pkgdest ++ '/' :: p.pkg.name

/-- What is at the top without the directories of other backends. -/
def Package.content (p : Package) : Folder := p.top.filter fun y => !(is_backend y.1.name && y.2.is_folder)

/-- Every entry is listed once, under its path, and nothing else. -/
def Listed (users : Users) (conffiles : List Text) (p : Package) : Prop :=
  ∃ target expected, walk_files users p.walkpath conffiles p.top = some target ∧
    (below [] p.content).mapM (line users conffiles) = some expected ∧ target.Perm expected

/-! ## The lines -/

def escape (c : Char) : Text :=
  if c = '%' then ['%', '%'] else if c = '\\' then ['\\', '\\'] else if c = '"' then ['\\', '"'] else [c]

theorem escape_chars_eq (p : Text) : escape_chars p = p.flatMap escape := by
  have hpercent : text "%" = ['%'] := rfl
  have hbackslash : text "\\" = ['\\'] := rfl
  have hquote : text "\"" = ['"'] := rfl
  unfold escape_chars
  rw [hpercent, hbackslash, hquote, replace_char, replace_char, replace_char, List.flatMap_assoc, List.flatMap_assoc]
  apply List.flatMap_congr
  intro c _
  unfold escape
  by_cases hc : c = '%'
  · rw [if_pos hc, if_pos hc]
    decide
  by_cases hc' : c = '\\'
  · rw [if_neg hc, if_neg hc, if_pos hc', hc']
    decide
  by_cases hc'' : c = '"'
  · rw [if_neg hc, if_neg hc, if_neg hc', if_pos hc'', hc'']
    decide
  · rw [if_neg hc, if_neg hc, if_neg hc', if_neg hc'']
    simp [hc', hc'']

def unescape : Text → Text
  | [] => []
  | [c] => [c]
  | c :: d :: rest => if c = '%' || c = '\\' then d :: unescape rest else c :: unescape (d :: rest)

theorem unescape_escape (p : Text) : unescape (p.flatMap escape) = p := by
  induction p with
  | nil => rfl
  | cons c p ih =>
    rw [List.flatMap_cons]
    by_cases hc : c = '%'
    · rw [hc]
      exact congrArg ('%' :: ·) ih
    by_cases hc' : c = '\\'
    · rw [hc']
      exact congrArg ('\\' :: ·) ih
    by_cases hc'' : c = '"'
    · rw [hc'']
      exact congrArg ('"' :: ·) ih
    · have hplain : escape c = [c] := by
        unfold escape
        rw [if_neg hc, if_neg hc', if_neg hc'']
      rw [hplain, List.singleton_append]
      cases hrest : p.flatMap escape with
      | nil =>
        rw [hrest] at ih
        exact congrArg (c :: ·) ih
      | cons d rest =>
        rw [hrest] at ih
        simp [unescape, hc, hc', ih]

theorem escape_chars_inj {p q : Text} (h : escape_chars p = escape_chars q) : p = q := by
  rw [escape_chars_eq, escape_chars_eq] at h
  rw [← unescape_escape p, h, unescape_escape q]

variable {users : Users} {walkpath : Text} {conffiles : List Text}

theorem get_attr_plain {stat : Stat} {attr : Text} (h : get_attr users stat = some attr) : '"' ∉ attr := by
  unfold get_attr at h
  simp only [Option.bind_eq_bind, Option.bind_eq_some_iff, Option.pure_def, Option.some.injEq] at h
  obtain ⟨owner, howner, group, hgroup, rfl⟩ := h
  have huser := users.user_plain stat.uid owner howner
  have hgroup := users.group_plain stat.gid group hgroup
  have hdigits : '"' ∉ Nat.toDigits 8 stat.mode := fun hmem =>
    absurd (Nat.isDigit_of_mem_toDigits (by decide) (by decide) hmem) (by decide)
  have hstart : '"' ∉ text "%attr(" := by decide
  have hend : '"' ∉ text ") " := by decide
  simp [huser, hgroup, hdigits, hstart, hend]

theorem line_eq_some {x : Text × Entry} {t : Text} (h : line users conffiles x = some t) :
    ∃ front, '"' ∉ front ∧ t = front ++ '"' :: (escape_chars x.1 ++ ['"']) := by
  unfold line dir_line file_line at h
  cases hattr : get_attr users x.2.stat with
  | none => simp [hattr] at h
  | some attr =>
    have hplain := get_attr_plain hattr
    have hquote : text "\"" = ['"'] := rfl
    have hdir : text "%dir \"" = text "%dir " ++ ['"'] := by decide
    have hconfig : text "%config \"" = text "%config " ++ ['"'] := by decide
    have hdir_plain : '"' ∉ text "%dir " := by decide
    have hconfig_plain : '"' ∉ text "%config " := by decide
    rw [hattr] at h
    simp only [Option.bind_eq_bind, Option.bind_some, Option.pure_def] at h
    split at h
    · rw [Option.some.injEq] at h
      refine ⟨attr ++ text "%dir ", ?_, ?_⟩
      · simp [hplain, hdir_plain]
      · rw [← h, hdir, hquote]
        simp
    split at h
    · rw [Option.some.injEq] at h
      refine ⟨attr ++ text "%config ", ?_, ?_⟩
      · simp [hplain, hconfig_plain]
      · rw [← h, hconfig, hquote]
        simp
    · rw [Option.some.injEq] at h
      refine ⟨attr, hplain, ?_⟩
      rw [← h, hquote]
      simp

theorem line_told {x y : Text × Entry} {t : Text} (hx : line users conffiles x = some t)
    (hy : line users conffiles y = some t) : x.1 = y.1 := by
  obtain ⟨front, hfront, rfl⟩ := line_eq_some hx
  obtain ⟨front', hfront', heq⟩ := line_eq_some hy
  have hrest := (cut_inj hfront hfront' heq).2
  rw [List.append_left_inj] at hrest
  exact escape_chars_inj hrest

theorem line_isSome (x : Text × Entry) : (line users conffiles x).isSome = (get_attr users x.2.stat).isSome := by
  unfold line dir_line file_line
  cases get_attr users x.2.stat with
  | none => simp
  | some attr =>
    simp only [Option.bind_eq_bind, Option.bind_some, Option.pure_def]
    split
    · rfl
    · split <;> rfl

/-! ## The turns of the loop -/

/-- The entries that a turn lists, each under its path. -/
def rows (walkpath : Text) (x : Text × Folder) : List (Text × Entry) :=
  if ends_like_backend (replace walkpath [] x.1) then []
  else
    (((x.2.filter fun y => y.2.isdir && !y.2.islink) ++ (x.2.filter (fun y => !y.2.isdir) ++
      x.2.filter fun y => y.2.isdir && y.2.islink)).filter fun y => !is_backend y.1.name).map
      fun y => (replace walkpath [] x.1 ++ '/' :: y.1.name, y.2)

theorem Entry.is_folder_eq (e : Entry) : e.is_folder = (e.isdir && !e.islink) := by
  cases e <;> simp [Entry.is_folder, Entry.isdir, Entry.islink]

theorem turn_eq (x : Text × Folder) :
    turn users walkpath conffiles x = (rows walkpath x).mapM (line users conffiles) := by
  unfold turn rows
  by_cases hends : ends_like_backend (replace walkpath [] x.1) = true
  · simp [hends]
  · have hdirs : ∀ y ∈ (x.2.filter fun y => y.2.isdir && !y.2.islink).filter fun y => !is_backend y.1.name,
        dir_line users (replace walkpath [] x.1 ++ '/' :: y.1.name) y.2 =
          line users conffiles (replace walkpath [] x.1 ++ '/' :: y.1.name, y.2) := by
      intro y hy
      have hfolder := (List.mem_filter.mp (List.mem_filter.mp hy).1).2
      rw [← Entry.is_folder_eq] at hfolder
      unfold line
      rw [if_pos hfolder]
    have hfiles : ∀ y ∈ (x.2.filter (fun y => !y.2.isdir) ++ x.2.filter fun y => y.2.isdir && y.2.islink).filter
          fun y => !is_backend y.1.name,
        file_line users conffiles (replace walkpath [] x.1 ++ '/' :: y.1.name) y.2 =
          line users conffiles (replace walkpath [] x.1 ++ '/' :: y.1.name, y.2) := by
      intro y hy
      have hmem := (List.mem_filter.mp hy).1
      have hfolder : y.2.is_folder = false := by
        rw [Entry.is_folder_eq]
        rcases List.mem_append.mp hmem with h | h
        · simp [(Bool.not_eq_true' _).mp (List.mem_filter.mp h).2]
        · simp [((Bool.and_eq_true _ _).mp (List.mem_filter.mp h).2).2]
      unfold line
      rw [hfolder]
      rfl
    rw [if_neg hends, if_neg hends, List.filter_append, List.map_append, List.mapM_append, List.mapM_map,
      List.mapM_map]
    dsimp only
    rw [mapM_congr hdirs, mapM_congr hfiles]
    rfl

theorem walk_files_eq (top : Folder) : walk_files users walkpath conffiles top =
    (((walkpath, top) :: walk_in walkpath top).flatMap (rows walkpath)).mapM (line users conffiles) := by
  unfold walk_files
  rw [← mapM_flatMap]
  exact congrArg _ (mapM_congr fun x _ => turn_eq x)

/-! ## The walk -/

theorem folder_induction {P : Folder → Prop} (nil : P [])
    (cons : ∀ n e rest, (∀ stat entries, e = .dir stat entries → P entries) → P rest → P ((n, e) :: rest)) :
    ∀ top, P top
  | [] => nil
  | (n, .file stat) :: rest =>
    cons n (.file stat) rest (fun _ _ h => Entry.noConfusion h) (folder_induction nil cons rest)
  | (n, .link stat to_dir) :: rest =>
    cons n (.link stat to_dir) rest (fun _ _ h => Entry.noConfusion h) (folder_induction nil cons rest)
  | (n, .dir stat entries) :: rest =>
    cons n (.dir stat entries) rest (fun _ _ h => (Entry.dir.inj h).2 ▸ folder_induction nil cons entries)
      (folder_induction nil cons rest)

theorem not_ends_with_sep_name (path : Text) (n : Name) : ends_with_sep (path ++ '/' :: n.name) = false := by
  rw [← Bool.not_eq_true]
  intro h
  obtain ⟨t, ht⟩ := exists_of_ends_with_sep h
  obtain ⟨front, c, hname⟩ := (List.eq_nil_or_concat' n.name).resolve_left n.nonempty
  rw [hname, ← List.cons_append, ← List.append_assoc] at ht
  have hlast := (List.append_inj' ht rfl).2
  apply n.no_slash
  rw [hname, hlast]
  simp

theorem join_name {path : Text} (hne : path ≠ []) (hends : ends_with_sep path = false) (n : Name) :
    join path n.name = path ++ '/' :: n.name := by
  rw [join_eq hne n.no_slash, hends]
  simp

theorem walk_in_eq (walkpath : Text) (top : Folder) : ∀ path, walkpath ++ path ≠ [] →
    ends_with_sep (walkpath ++ path) = false →
    walk_in (walkpath ++ path) top = (folders path top).map fun x => (walkpath ++ x.1, x.2) := by
  induction top using folder_induction with
  | nil => exact fun _ _ _ => rfl
  | cons n e rest hin hrest =>
    intro path hne hends
    have hpath : join (walkpath ++ path) n.name = walkpath ++ (path ++ '/' :: n.name) := by
      rw [join_name hne hends, List.append_assoc]
    have hwalk : walk (walkpath ++ (path ++ '/' :: n.name)) e =
        (folders_of (path ++ '/' :: n.name) e).map fun x => (walkpath ++ x.1, x.2) := by
      cases e with
      | file stat => simp [walk, folders_of]
      | link stat to_dir => simp [walk, folders_of]
      | dir stat entries =>
        have hfound := hin stat entries rfl (path ++ '/' :: n.name) (by simp)
          (by rw [← List.append_assoc]; exact not_ends_with_sep_name _ n)
        rw [walk, folders_of, List.map_cons, hfound]
    rw [walk_in, folders, List.map_append, hpath, hwalk, hrest path hne hends]

/-- The entries of one directory, each under its path. -/
def own (x : Text × Folder) : List (Text × Entry) := x.2.map fun y => (x.1 ++ '/' :: y.1.name, y.2)

theorem below_perm (top : Folder) :
    ∀ path, (below path top).Perm (((path, top) :: folders path top).flatMap own) := by
  induction top using folder_induction with
  | nil =>
    intro path
    simp [below, folders, own]
  | cons n e rest hin hrest =>
    intro path
    have hinside : (inside (path ++ '/' :: n.name) e).Perm ((folders_of (path ++ '/' :: n.name) e).flatMap own) := by
      cases e with
      | file stat => simp [inside, folders_of]
      | link stat to_dir => simp [inside, folders_of]
      | dir stat entries =>
        rw [inside, folders_of]
        exact hin stat entries rfl _
    have hown : own (path, (n, e) :: rest) = (path ++ '/' :: n.name, e) :: own (path, rest) := rfl
    have hrest := hrest path
    rw [List.flatMap_cons] at hrest
    rw [below, folders, List.flatMap_cons, List.flatMap_append, hown, List.cons_append]
    apply List.Perm.cons
    exact (hinside.append hrest).trans (List.perm_append_comm_assoc _ _ _)

/-! ## What is left out -/

def Fine (walkpath : Text) (x : Text × Folder) : Prop :=
  (∀ y ∈ x.2, is_backend y.1.name = false) ∧
    (x.2 ≠ [] → ¬ walkpath <:+: x.1 ∧ ends_like_backend x.1 = false)

theorem sorted_perm (entries : Folder) :
    ((entries.filter fun y => y.2.isdir && !y.2.islink) ++ (entries.filter (fun y => !y.2.isdir) ++
      entries.filter fun y => y.2.isdir && y.2.islink)).Perm entries := by
  have hfolders : (entries.filter fun y => y.2.isdir && !y.2.islink) =
      (entries.filter (·.2.isdir)).filter fun y => !y.2.islink := by
    rw [List.filter_filter]
    exact List.filter_congr fun y _ => Bool.and_comm _ _
  have hlinks : (entries.filter fun y => y.2.isdir && y.2.islink) =
      (entries.filter (·.2.isdir)).filter (·.2.islink) := by
    rw [List.filter_filter]
    exact List.filter_congr fun y _ => Bool.and_comm _ _
  have hdirs : ((entries.filter fun y => y.2.isdir && y.2.islink) ++
      entries.filter fun y => y.2.isdir && !y.2.islink).Perm (entries.filter (·.2.isdir)) := by
    rw [hfolders, hlinks]
    exact List.filter_append_perm _ _
  refine List.Perm.trans ?_ (List.filter_append_perm (·.2.isdir) entries)
  refine List.perm_append_comm.trans ?_
  rw [List.append_assoc]
  exact List.perm_append_comm.trans (hdirs.append_right _)

theorem rows_perm {x : Text × Folder} (hends : ends_like_backend (replace walkpath [] x.1) = false) :
    (rows walkpath x).Perm (own (replace walkpath [] x.1, x.2.filter fun y => !is_backend y.1.name)) := by
  unfold rows own
  rw [hends, if_neg Bool.false_ne_true]
  exact ((sorted_perm x.2).filter _).map _

/-- The lengths of the paths, and one for each entry. -/
def weight (l : List (Text × Entry)) : ℕ := (l.map fun x => x.1.length + 1).sum

theorem weight_perm {l l' : List (Text × Entry)} (h : (l.map Prod.fst).Perm (l'.map Prod.fst)) :
    weight l = weight l' := by
  have hsum := (h.map fun path => path.length + 1).sum_eq
  rw [List.map_map, List.map_map] at hsum
  exact hsum

theorem weight_flatMap (f : Text × Folder → List (Text × Entry)) (l : List (Text × Folder)) :
    weight (l.flatMap f) = (l.map fun x => weight (f x)).sum := by
  induction l with
  | nil => rfl
  | cons x l ih =>
    rw [List.flatMap_cons, List.map_cons, List.sum_cons, ← ih]
    unfold weight
    rw [List.map_append, List.sum_append]

theorem weight_own (path : Text) (entries : Folder) :
    weight (own (path, entries)) =
      entries.length * (path.length + 2) + (entries.map fun y => y.1.name.length).sum := by
  induction entries with
  | nil => simp [weight, own]
  | cons y entries ih =>
    unfold weight own at ih ⊢
    dsimp only at ih ⊢
    rw [List.map_cons, List.map_cons, List.sum_cons, ih, List.map_cons, List.sum_cons, List.length_cons,
      List.length_append, List.length_cons, Nat.succ_mul]
    omega

theorem Fine.rows_perm_own {x : Text × Folder} (h : Fine walkpath x) : (rows walkpath x).Perm (own x) := by
  cases hentries : x.2 with
  | nil =>
    have hrows : rows walkpath x = [] := by
      unfold rows
      split
      · rfl
      · simp [hentries]
    rw [hrows, own, hentries]
    exact List.Perm.nil
  | cons y entries =>
    obtain ⟨hroot, hends⟩ := h.2 (by rw [hentries]; exact List.cons_ne_nil _ _)
    have hpath : replace walkpath [] x.1 = x.1 := replace_of_absent [] hroot
    have hkeep : x.2.filter (fun y => !is_backend y.1.name) = x.2 := by
      rw [List.filter_eq_self]
      intro y hy
      rw [h.1 y hy]
      rfl
    have hperm : (rows walkpath x).Perm (own (replace walkpath [] x.1, x.2.filter fun y => !is_backend y.1.name)) :=
      rows_perm (by rw [hpath, hends])
    rw [hpath, hkeep] at hperm
    exact hperm

theorem weight_rows_lt {x : Text × Folder} (hne : walkpath ≠ []) (h : ¬ Fine walkpath x) :
    weight (rows walkpath x) < weight (own x) := by
  obtain ⟨path, entries⟩ := x
  have hentries : entries ≠ [] := by
    rintro rfl
    exact h ⟨by simp, fun hne => absurd rfl hne⟩
  have hlength : 0 < entries.length := List.length_pos_iff.mpr hentries
  rw [weight_own]
  cases hends : ends_like_backend (replace walkpath [] path) with
  | true =>
    have hrows : rows walkpath (path, entries) = [] := if_pos hends
    rw [hrows]
    exact Nat.add_pos_left (Nat.mul_pos hlength (Nat.succ_pos _)) _
  | false =>
    rw [weight_perm ((rows_perm (x := (path, entries)) hends).map _), weight_own]
    have hcut : (replace walkpath [] path).length ≤ path.length := length_remove_le _ _
    have hnames : ((entries.filter fun y => !is_backend y.1.name).map fun y => y.1.name.length).sum ≤
        (entries.map fun y => y.1.name.length).sum :=
      List.Sublist.sum_le_sum ((List.filter_sublist).map _) (fun _ _ => Nat.zero_le _)
    have hcount : (entries.filter fun y => !is_backend y.1.name).length ≤ entries.length :=
      List.length_filter_le _ _
    by_cases hback : ∃ y ∈ entries, is_backend y.1.name = true
    · have hlt : (entries.filter fun y => !is_backend y.1.name).length < entries.length := by
        obtain ⟨y, hy, hyback⟩ := hback
        apply List.length_filter_lt_length_iff_exists.mpr
        exact ⟨y, hy, by simp [hyback]⟩
      have hmul := Nat.mul_lt_mul_of_lt_of_le hlt (Nat.add_le_add_right hcut 2) (Nat.succ_pos _)
      exact Nat.add_lt_add_of_lt_of_le hmul hnames
    · have hroot : walkpath <:+: path := by
        by_contra hroot
        apply h
        refine ⟨fun y hy => by simpa using fun hyback => hback ⟨y, hy, hyback⟩, fun _ => ⟨hroot, ?_⟩⟩
        rw [← hends, replace_of_absent [] hroot]
      have hlt := length_remove_lt hne hroot
      have hmul := Nat.mul_lt_mul_of_le_of_lt hcount (Nat.add_lt_add_right hlt 2) hlength
      exact Nat.add_lt_add_of_lt_of_le hmul hnames

theorem fine_of_weight_eq {l : List (Text × Folder)} (hne : walkpath ≠ [])
    (h : (l.map fun x => weight (rows walkpath x)).sum = (l.map fun x => weight (own x)).sum) :
    ∀ x ∈ l, Fine walkpath x := by
  have hle : ∀ x : Text × Folder, weight (rows walkpath x) ≤ weight (own x) := by
    intro x
    by_cases hfine : Fine walkpath x
    · exact (weight_perm (hfine.rows_perm_own.map _)).le
    · exact (weight_rows_lt hne hfine).le
  induction l with
  | nil => simp
  | cons x l ih =>
    have hrest : (l.map fun x => weight (rows walkpath x)).sum ≤ (l.map fun x => weight (own x)).sum :=
      List.sum_le_sum fun x _ => hle x
    have hx := hle x
    rw [List.map_cons, List.map_cons, List.sum_cons, List.sum_cons] at h
    rw [List.forall_mem_cons]
    constructor
    · by_contra hfine
      have hlt := weight_rows_lt hne hfine
      omega
    · exact ih (by omega)

/-! ## Every entry is listed once -/

variable {p : Package}

theorem Package.walkpath_ne_nil (p : Package) : p.walkpath ≠ [] := by
  unfold Package.walkpath
  simp

theorem Package.walkpath_absent (p : Package) (n : Name) : ¬ p.walkpath <:+: '/' :: n.name := by
  intro h
  obtain ⟨dest, hdest⟩ := List.head?_eq_some_iff.mp p.absolute
  have hcount := h.sublist.count_le '/'
  have hname : n.name.count '/' = 0 := List.count_eq_zero.mpr n.no_slash
  unfold Package.walkpath at hcount
  rw [hdest, List.count_append, List.count_cons_self, List.count_cons_self, List.count_cons_self, hname] at hcount
  omega

theorem is_folder_iff {e : Entry} : e.is_folder = true ↔ ∃ stat entries, e = .dir stat entries := by
  cases e <;> simp [Entry.is_folder]

theorem folders_eq_nil {entries : Folder} (h : ∀ y ∈ entries, y.2.is_folder = false) (path : Text) :
    folders path entries = [] := by
  induction entries with
  | nil => rfl
  | cons y entries ih =>
    obtain ⟨n, e⟩ := y
    rw [List.forall_mem_cons] at h
    rw [folders, ih h.2]
    cases e with
    | file stat => rfl
    | link stat to_dir => rfl
    | dir stat inner => exact absurd h.1 (by simp [Entry.is_folder])

theorem ends_like_backend_of_is_backend {name : Text} (h : is_backend name = true) (front : Text) :
    ends_like_backend (front ++ name) = true := by
  unfold is_backend at h
  unfold ends_like_backend
  rw [Bool.or_eq_true, decide_eq_true_eq, decide_eq_true_eq] at h
  rw [Bool.or_eq_true, List.isSuffixOf_iff_suffix, List.isSuffixOf_iff_suffix]
  rcases h with rfl | rfl
  · exact Or.inr (List.suffix_append _ _)
  · exact Or.inl (List.suffix_append _ _)

theorem Package.rows_backend (p : Package) {n : Name} (h : is_backend n.name = true) (entries : Folder) :
    rows p.walkpath ('/' :: n.name, entries) = [] := by
  have hpath : replace p.walkpath [] ('/' :: n.name) = '/' :: n.name := replace_of_absent [] (p.walkpath_absent n)
  unfold rows
  dsimp only
  rw [hpath]
  exact if_pos (ends_like_backend_of_is_backend h ['/'])

theorem rows_kept {keep : Name × Entry → Bool} {entries : Folder}
    (h : ∀ y ∈ entries, is_backend y.1.name = false → keep y = true) (path : Text) :
    rows walkpath (path, entries.filter keep) = rows walkpath (path, entries) := by
  have hfilter : ∀ kind : Name × Entry → Bool,
      (((entries.filter keep).filter kind).filter fun y => !is_backend y.1.name) =
        (entries.filter kind).filter fun y => !is_backend y.1.name := by
    intro kind
    rw [List.filter_filter, List.filter_filter, List.filter_filter]
    apply List.filter_congr
    intro y hy
    cases hback : is_backend y.1.name with
    | true => rfl
    | false => simp [h y hy hback]
  unfold rows
  simp only [List.filter_append, hfilter]

theorem Package.rows_content (p : Package) : (([], p.content) :: folders [] p.content).flatMap (rows p.walkpath) =
    (([], p.top) :: folders [] p.top).flatMap (rows p.walkpath) := by
  have hfolders : ∀ l : Folder, (∀ n stat entries, (n, Entry.dir stat entries) ∈ l → is_backend n.name →
        ∀ y ∈ entries, y.2.is_folder = false) →
      (folders [] (l.filter fun y => !(is_backend y.1.name && y.2.is_folder))).flatMap (rows p.walkpath) =
        (folders [] l).flatMap (rows p.walkpath) := by
    intro l hl
    induction l with
    | nil => rfl
    | cons y l ih =>
      obtain ⟨n, e⟩ := y
      have hrest := ih fun n' stat entries hmem => hl n' stat entries (List.mem_cons_of_mem _ hmem)
      rw [List.filter_cons, folders, List.flatMap_append, ← hrest]
      split
      · rw [folders, List.flatMap_append]
      · rename_i hdrop
        simp only [Bool.not_eq_true', Bool.not_eq_false, Bool.and_eq_true] at hdrop
        obtain ⟨stat, entries, rfl⟩ := is_folder_iff.mp hdrop.2
        have hnone := folders_eq_nil (hl n stat entries List.mem_cons_self hdrop.1) ('/' :: n.name)
        rw [List.nil_append, folders_of, hnone, List.flatMap_cons, p.rows_backend hdrop.1]
        rfl
  rw [List.flatMap_cons, List.flatMap_cons, Package.content, hfolders _ p.backends, rows_kept]
  intro y _ hback
  rw [hback]
  rfl

theorem walk_files_rows (p : Package) : walk_files users p.walkpath conffiles p.top =
    ((([], p.content) :: folders [] p.content).flatMap (rows p.walkpath)).mapM (line users conffiles) := by
  have hends : ends_with_sep p.walkpath = false := not_ends_with_sep_name p.pkgdest p.pkg
  have hwalk := walk_in_eq p.walkpath p.top [] (by simpa using p.walkpath_ne_nil) (by simpa using hends)
  rw [List.append_nil] at hwalk
  have hall : (p.walkpath, p.top) :: walk_in p.walkpath p.top =
      (([], p.top) :: folders [] p.top).map fun x => (p.walkpath ++ x.1, x.2) := by
    rw [hwalk, List.map_cons, List.append_nil]
  have hstart : ∀ x : Text × Folder, rows p.walkpath (p.walkpath ++ x.1, x.2) = rows p.walkpath x := by
    intro x
    unfold rows
    dsimp only
    rw [replace_start p.walkpath_ne_nil, List.nil_append]
  rw [walk_files_eq, hall, List.flatMap_map, p.rows_content]
  exact congrArg (List.mapM _) (List.flatMap_congr fun x _ => hstart x)

/-- The list is complete exactly where every user and group has a name, no path holds the path
of the root again or ends like the names of other backends, and nothing has such a name. -/
theorem the_list_is_complete_iff (users : Users) (conffiles : List Text) (p : Package) :
    Listed users conffiles p ↔
      (∀ x ∈ below [] p.content, (get_attr users x.2.stat).isSome) ∧
        ∀ x ∈ ([], p.content) :: folders [] p.content, Fine p.walkpath x := by
  have hbelow := below_perm p.content []
  have hsome : ∀ {l : List (Text × Entry)}, (∀ x ∈ l, (line users conffiles x).isSome) ↔
      ∀ x ∈ l, (get_attr users x.2.stat).isSome := by
    intro l
    simp only [line_isSome]
  unfold Listed
  simp only [walk_files_rows, mapM_eq_some]
  constructor
  · rintro ⟨target, expected, ⟨hrows, rfl⟩, ⟨hentries, rfl⟩, hperm⟩
    refine ⟨hsome.mp hentries, fine_of_weight_eq p.walkpath_ne_nil ?_⟩
    have hpaths := map_perm_of_filterMap_perm hrows hentries (g := Prod.fst) (fun _ _ _ => line_told) hperm
    rw [← weight_flatMap, ← weight_flatMap]
    exact weight_perm (hpaths.trans (hbelow.map _))
  · rintro ⟨hnamed, hfine⟩
    have hrows : ((([], p.content) :: folders [] p.content).flatMap (rows p.walkpath)).Perm (below [] p.content) :=
      (List.Perm.flatMap_left _ fun x hx => (hfine x hx).rows_perm_own).trans hbelow.symm
    have hentries := hsome.mpr hnamed
    exact ⟨_, _, ⟨fun x hx => hentries x (hrows.mem_iff.mp hx), rfl⟩, ⟨hentries, rfl⟩, hrows.filterMap _⟩

def root : Users where
  getpwuid := fun _ => some (text "root")
  getgrgid := fun _ => some (text "root")
  user_plain := by
    intro _ owner howner
    obtain rfl := Option.some.inj howner
    decide
  group_plain := by
    intro _ group hgroup
    obtain rfl := Option.some.inj hgroup
    decide

def icons : Package where
  pkgdest := text "/work/packages-split"
  pkg := ⟨text "icons", by decide, by decide⟩
  absolute := by decide
  top := [(⟨text "REMOTECONTROL", by decide, by decide⟩,
    .dir ⟨493, 0, 0⟩ [(⟨text "icon", by decide, by decide⟩, .file ⟨420, 0, 0⟩)])]
  backends := by
    intro n stat entries hmem hback
    rw [List.mem_singleton, Prod.mk.injEq] at hmem
    rw [hmem.1] at hback
    exact absurd hback (by decide)

/-- The directory is listed, and the file in it is not. -/
theorem a_file_is_left_out :
    (below [] icons.content).map Prod.fst = [text "/REMOTECONTROL", text "/REMOTECONTROL/icon"] ∧
      walk_files root icons.walkpath [] icons.top = some [text "%attr(755,root,root) %dir \"/REMOTECONTROL\""] ∧
      ¬ Listed root [] icons := by
  have hlist : walk_files root icons.walkpath [] icons.top =
      some [text "%attr(755,root,root) %dir \"/REMOTECONTROL\""] := by
    decide
  have hlines : (below [] icons.content).mapM (line root []) =
      some [text "%attr(755,root,root) %dir \"/REMOTECONTROL\"",
        text "%attr(644,root,root) \"/REMOTECONTROL/icon\""] := by
    decide
  refine ⟨by decide, hlist, ?_⟩
  rintro ⟨target, expected, htarget, hexpected, hperm⟩
  obtain rfl := Option.some.inj (hlist.symm.trans htarget)
  obtain rfl := Option.some.inj (hlines.symm.trans hexpected)
  exact absurd hperm.length_eq (by decide)

end yocto.package_files
