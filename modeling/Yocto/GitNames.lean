-- The names under which the git fetcher keeps a repository: the directory of the clone, the
-- tarballs of the mirrors and the key of the revisions.
import Yocto.MarkedCodes
import Yocto.PosixPath

open yocto.task_ids yocto.list_search yocto.marked_codes

namespace yocto.git_names

/-! ## The functions -/

inductive Fetcher
  | Git
  | GitSM
  | GitANNEX
  deriving DecidableEq

/-- `self.__class__.__name__.lower()`. -/
def Fetcher.lower : Fetcher → Text
  | .Git => text "git"
  | .GitSM => text "gitsm"
  | .GitANNEX => text "gitannex"

/-- A git URL: what it says, and the revision of each of its names once it is known. -/
structure UrlData where
  fetcher : Fetcher
  host : Text
  path : Text
  names : List Text
  rebaseable : Bool
  shallow : Bool
  bareclone : Bool
  nobranch : Bool
  revisions : Text → Text
  unresolvedrev : Text → Text
  branches : Text → Text
  shallow_revs : List Text
  shallow_depths : Text → ℕ
  shallow_extra_refs : List Text
  host_plain : '/' ∉ host
  revisions_plain : ∀ name, '/' ∉ revisions name

def sorted (l : List Text) : List Text := l.mergeSort fun a b => decide (a ≤ b)

def gitsrcname (ud : UrlData) : Text :=
  let path := replace ['/'] ['.'] ud.path
  let path := replace ['*'] ['.'] path
  let path := replace [' '] ['_'] path
  let path := replace ['('] ['_'] path
  let path := replace [')'] ['_'] path
  let gitsrcname := replace [':'] ['.'] ud.host ++ path
  let gitsrcname := if gitsrcname.head? = some '.' then gitsrcname.tail else gitsrcname
  if ud.rebaseable then ud.names.foldl (fun name_ name => name_ ++ '_' :: ud.revisions name) gitsrcname
  else gitsrcname

def clonedir (gitdir : Text) (ud : UrlData) : Text := posix_path.join gitdir (gitsrcname ud)

def shallow_refs (ud : UrlData) : List Text :=
  (if ud.nobranch then [] else ud.names.dedup.map ud.branches) ++
    ud.shallow_extra_refs.map fun r => replace ['*'] (text "ALL") (replace (text "refs/heads/") [] r)

/-- The name of a shallow tarball, from the name of the source. -/
def tarballname (ud : UrlData) (gitsrcname : Text) : Text :=
  let tarballname := if ud.bareclone then gitsrcname ++ text "_bare" else gitsrcname
  let tarballname :=
    if ud.shallow_revs = [] then tarballname else tarballname ++ '_' :: ['_'].intercalate (sorted ud.shallow_revs)
  let tarballname := (sorted ud.names.dedup).foldl (fun tarballname name =>
    let tarballname := tarballname ++ '_' :: (ud.revisions name).take 7
    if ud.shallow_depths name = 0 then tarballname
    else tarballname ++ '-' :: Nat.toDigits 10 (ud.shallow_depths name)) tarballname
  if shallow_refs ud = [] then tarballname
  else tarballname ++ '_' :: replace ['/'] ['.'] (['_'].intercalate (sorted (shallow_refs ud)))

def fulltarball (ud : UrlData) : Text := text "git2_" ++ gitsrcname ud ++ text ".tar.gz"

def shallowtarball (ud : UrlData) : Text :=
  ud.fetcher.lower ++ text "shallow_" ++ tarballname ud (gitsrcname ud) ++ text ".tar.gz"

def mirrortarballs (ud : UrlData) : List Text :=
  if ud.shallow then [shallowtarball ud, fulltarball ud] else [fulltarball ud]

/-- `slash_re.sub(s, path)`. -/
def sub_slashes (s : Text) : Text → Text
  | [] => []
  | c :: path =>
    if c = '/' then (if path.head? = some '/' then sub_slashes s path else s ++ sub_slashes s path)
    else c :: sub_slashes s path

def revision_key (ud : UrlData) (name : Text) : Text :=
  text "git:" ++ ud.host ++ sub_slashes ['.'] ud.path ++ ud.unresolvedrev name

/-! ## Characters that are written alike -/

/-- Where a character of a name comes from. -/
inductive Part
  | host
  | path
  | rest
  deriving DecidableEq

/-- The characters of each part that are written as a point, and those that are written as an
underscore. -/
structure Writing where
  dots : Part → List Char
  lows : Part → List Char
  dot_mem : ∀ p, '.' ∈ dots p
  low_mem : ∀ p, '_' ∈ lows p
  apart : ∀ p, ∀ c ∈ dots p, c ∉ lows p

def Writing.write (w : Writing) (x : Part × Char) : Char :=
  if x.2 ∈ w.dots x.1 then '.' else if x.2 ∈ w.lows x.1 then '_' else x.2

/-- Two characters of one kind, or the same character of no kind. -/
def Writing.Alike (w : Writing) (x y : Part × Char) : Prop :=
  x.2 ∈ w.dots x.1 ∧ y.2 ∈ w.dots y.1 ∨ x.2 ∈ w.lows x.1 ∧ y.2 ∈ w.lows y.1 ∨
    x.2 = y.2 ∧ ∀ z ∈ [x, y], z.2 ∉ w.dots z.1 ∧ z.2 ∉ w.lows z.1

theorem Writing.write_eq_iff (w : Writing) (x y : Part × Char) : w.write x = w.write y ↔ w.Alike x y := by
  have hx := w.apart x.1 x.2
  have hy := w.apart y.1 y.2
  have hdot : ∀ z : Part × Char, z.2 ∉ w.dots z.1 → z.2 ≠ '.' := fun z hz heq => hz (heq ▸ w.dot_mem z.1)
  have hlow : ∀ z : Part × Char, z.2 ∉ w.lows z.1 → z.2 ≠ '_' := fun z hz heq => hz (heq ▸ w.low_mem z.1)
  have hdx := hdot x
  have hdy := hdot y
  have hlx := hlow x
  have hly := hlow y
  unfold write Alike
  simp only [List.forall_mem_cons, List.not_mem_nil, false_imp_iff, implies_true, and_true]
  by_cases hxd : x.2 ∈ w.dots x.1 <;> by_cases hyd : y.2 ∈ w.dots y.1 <;>
    by_cases hxl : x.2 ∈ w.lows x.1 <;> by_cases hyl : y.2 ∈ w.lows y.1 <;> simp_all [eq_comm]

/-- Two texts are written alike, character by character. -/
def Writing.AllAlike (w : Writing) (l l' : List (Part × Char)) : Prop := List.Forall₂ w.Alike l l'

theorem Writing.map_write_eq_iff (w : Writing) (l l' : List (Part × Char)) :
    l.map w.write = l'.map w.write ↔ w.AllAlike l l' := by
  unfold AllAlike
  rw [← List.forall₂_eq_eq_eq, List.forall₂_map_left_iff, List.forall₂_map_right_iff]
  simp only [w.write_eq_iff]

def part (p : Part) (s : Text) : List (Part × Char) := s.map fun c => (p, c)

theorem Writing.map_write_part (w : Writing) (p : Part) (s : Text) :
    (part p s).map w.write = s.map fun c => w.write (p, c) := by
  rw [part, List.map_map]
  rfl

def source : Writing where
  dots
    | .host => [':', '.']
    | .path => ['/', '*', '.']
    | .rest => ['.']
  lows
    | .host => ['_']
    | .path => [' ', '(', ')', '_']
    | .rest => ['_']
  dot_mem := by intro p; cases p <;> decide
  low_mem := by intro p; cases p <;> decide
  apart := by intro p; cases p <;> simp

def key : Writing where
  dots
    | .path => ['/', '.']
    | _ => ['.']
  lows _ := ['_']
  dot_mem := by intro p; cases p <;> decide
  low_mem := fun _ => List.mem_cons_self
  apart := by intro p; cases p <;> simp

/-- The characters of the host and the path, without the first one where it is written as a point. -/
def bare (l : List (Part × Char)) : List (Part × Char) :=
  match l with
  | [] => []
  | x :: rest => if x.2 ∈ source.dots x.1 then rest else x :: rest

def revisions_rest (ud : UrlData) : Text :=
  if ud.rebaseable then ud.names.flatMap fun name => '_' :: ud.revisions name else []

/-- The characters from which the name of a source is written. -/
def letters (ud : UrlData) : List (Part × Char) :=
  bare (part .host ud.host ++ part .path ud.path) ++ part .rest (revisions_rest ud)

theorem replace_one (c d : Char) (s : Text) : replace [c] [d] s = s.map fun x => if x = c then d else x := by
  rw [replace_char, ← List.flatMap_singleton' (s.map _), List.flatMap_map]
  apply List.flatMap_congr
  intro x _
  split <;> rfl

theorem Writing.map_write_plain (w : Writing) {p : Part} (hdots : w.dots p = ['.']) (hlows : w.lows p = ['_'])
    (s : Text) : (part p s).map w.write = s := by
  rw [w.map_write_part]
  conv_rhs => rw [← List.map_id s]
  apply List.map_congr_left
  intro c _
  unfold Writing.write
  simp only [hdots, hlows, List.mem_singleton, id_eq]
  grind

theorem write_rest (s : Text) : (part .rest s).map source.write = s := source.map_write_plain rfl rfl s

theorem write_host (s : Text) : (part .host s).map source.write = replace [':'] ['.'] s := by
  rw [source.map_write_part, replace_one]
  apply List.map_congr_left
  intro c _
  simp only [Writing.write, source, List.mem_cons, List.not_mem_nil, or_false]
  grind

theorem write_path (s : Text) : (part .path s).map source.write =
    replace [')'] ['_'] (replace ['('] ['_'] (replace [' '] ['_'] (replace ['*'] ['.'] (replace ['/'] ['.'] s)))) := by
  rw [source.map_write_part]
  simp only [replace_one, List.map_map]
  apply List.map_congr_left
  intro c _
  simp only [Writing.write, source, List.mem_cons, List.not_mem_nil, or_false, Function.comp_apply]
  grind

theorem head_write (l : List (Part × Char)) :
    (bare l).map source.write =
      if (l.map source.write).head? = some '.' then (l.map source.write).tail else l.map source.write := by
  cases l with
  | nil => rfl
  | cons x rest =>
    have hhead : source.write x = '.' ↔ x.2 ∈ source.dots x.1 := by
      constructor
      · intro h
        by_contra hdot
        unfold Writing.write at h
        rw [if_neg hdot] at h
        split at h
        · exact absurd h (by decide)
        · exact hdot (h ▸ source.dot_mem x.1)
      · intro h
        exact if_pos h
    simp only [bare, List.map_cons, List.head?_cons, Option.some.injEq, hhead, List.tail_cons]
    split <;> rfl

theorem foldl_names (f : Text → Text) (names : List Text) (start : Text) :
    names.foldl (fun s name => s ++ f name) start = start ++ names.flatMap f := by
  induction names generalizing start with
  | nil => simp
  | cons name names ih => rw [List.foldl_cons, ih, List.flatMap_cons, List.append_assoc]

theorem gitsrcname_eq (ud : UrlData) : gitsrcname ud = (letters ud).map source.write := by
  unfold gitsrcname letters revisions_rest
  rw [List.map_append, write_rest, head_write, List.map_append, write_host, write_path]
  dsimp only
  split
  · rw [foldl_names]
  · rw [List.append_nil]

/-! ## The clone and the tarballs -/

theorem gitsrcname_plain (ud : UrlData) : '/' ∉ gitsrcname ud := by
  rw [gitsrcname_eq]
  intro h
  obtain ⟨x, hx, hwrite⟩ := List.mem_map.mp h
  have hslash : x.2 ∉ source.dots x.1 ∧ x.2 = '/' := by
    unfold Writing.write at hwrite
    split at hwrite
    · exact absurd hwrite (by decide)
    · split at hwrite
      · exact absurd hwrite (by decide)
      · exact ⟨‹_›, hwrite⟩
  have hletters : x ∈ part .host ud.host ++ part .path ud.path ∨ x ∈ part .rest (revisions_rest ud) := by
    refine (List.mem_append.mp hx).imp_left fun hbare => ?_
    unfold bare at hbare
    split at hbare
    · cases hbare
    · rename_i heq
      rw [heq]
      split at hbare
      · exact List.mem_cons_of_mem _ hbare
      · exact hbare
  have hpart : ∀ {p : Part} {s : Text}, x ∈ part p s → x.1 = p ∧ '/' ∈ s := by
    intro p s hmem
    obtain ⟨c, hc, rfl⟩ := List.mem_map.mp hmem
    exact ⟨rfl, hslash.2 ▸ hc⟩
  rcases hletters with hmem | hmem
  · rcases List.mem_append.mp hmem with hmem | hmem
    · exact ud.host_plain (hpart hmem).2
    · apply hslash.1
      rw [(hpart hmem).1, hslash.2]
      decide
  · have hrest := (hpart hmem).2
    unfold revisions_rest at hrest
    split at hrest
    · obtain ⟨name, -, hname⟩ := List.mem_flatMap.mp hrest
      rcases List.mem_cons.mp hname with h | h
      · exact absurd h (by decide)
      · exact ud.revisions_plain name h
    · cases hrest

variable (gitdir : Text) (a b : UrlData)

theorem gitsrcname_eq_iff : gitsrcname a = gitsrcname b ↔ source.AllAlike (letters a) (letters b) := by
  rw [gitsrcname_eq, gitsrcname_eq, source.map_write_eq_iff]

theorem clonedir_eq_iff : clonedir gitdir a = clonedir gitdir b ↔ source.AllAlike (letters a) (letters b) := by
  rw [← gitsrcname_eq_iff]
  have hjoin : ∀ ud : UrlData, clonedir gitdir ud =
      (if gitdir = [] ∨ posix_path.ends_with_sep gitdir then gitdir else gitdir ++ ['/']) ++ gitsrcname ud := by
    intro ud
    have habs : posix_path.isabs (gitsrcname ud) = false := by
      unfold posix_path.isabs
      rw [decide_eq_false_iff_not]
      exact fun hhead => gitsrcname_plain ud (List.mem_of_mem_head? hhead)
    unfold clonedir posix_path.join
    rw [habs]
    split
    · rename_i h
      cases h
    · split <;> simp
  rw [hjoin, hjoin, List.append_cancel_left_eq]

theorem tarballname_append (ud : UrlData) (s : Text) : tarballname ud s = s ++ tarballname ud [] := by
  have hturn : ∀ start : Text, (sorted ud.names.dedup).foldl (fun tarballname name =>
      let tarballname := tarballname ++ '_' :: (ud.revisions name).take 7
      if ud.shallow_depths name = 0 then tarballname
      else tarballname ++ '-' :: Nat.toDigits 10 (ud.shallow_depths name)) start =
        start ++ (sorted ud.names.dedup).flatMap fun name => '_' :: ((ud.revisions name).take 7 ++
          if ud.shallow_depths name = 0 then [] else '-' :: Nat.toDigits 10 (ud.shallow_depths name)) := by
    intro start
    rw [← foldl_names]
    congr 1
    funext tarballname name
    dsimp only
    split <;> simp
  unfold tarballname
  simp only [hturn]
  split <;> split <;> split <;> simp

/-- The characters from which the name of a shallow tarball is written. -/
def shallow_letters (ud : UrlData) : List (Part × Char) := letters ud ++ part .rest (tarballname ud [])

theorem fulltarball_eq_iff : fulltarball a = fulltarball b ↔ source.AllAlike (letters a) (letters b) := by
  rw [← gitsrcname_eq_iff]
  unfold fulltarball
  rw [List.append_cancel_right_eq, List.append_cancel_left_eq]

theorem shallowtarball_eq_iff : shallowtarball a = shallowtarball b ↔
    a.fetcher = b.fetcher ∧ source.AllAlike (shallow_letters a) (shallow_letters b) := by
  have hname : ∀ ud : UrlData, tarballname ud (gitsrcname ud) = (shallow_letters ud).map source.write := by
    intro ud
    rw [shallow_letters, List.map_append, ← gitsrcname_eq, write_rest]
    exact tarballname_append ud _
  rw [← source.map_write_eq_iff, ← hname, ← hname]
  unfold shallowtarball
  rw [List.append_cancel_right_eq]
  cases a.fetcher <;> cases b.fetcher <;> simp [Fetcher.lower, text]

theorem shallowtarball_ne : shallowtarball a ≠ fulltarball b := by
  unfold shallowtarball fulltarball
  cases a.fetcher <;> simp [Fetcher.lower, text]

/-- Two URLs say one host and one path, whatever the number of slashes between its parts. -/
def SameRepository : Prop := a.host = b.host ∧ sub_slashes ['/'] a.path = sub_slashes ['/'] b.path

/-- URLs of different repositories have different clones and different tarballs. -/
def KeptApart : Prop :=
  ¬ SameRepository a b → clonedir gitdir a ≠ clonedir gitdir b ∧ ∀ t ∈ mirrortarballs a, t ∉ mirrortarballs b

theorem kept_apart_iff : KeptApart gitdir a b ↔
    (¬ SameRepository a b → ¬ source.AllAlike (letters a) (letters b) ∧
      (a.fetcher = b.fetcher → a.shallow → b.shallow →
        ¬ source.AllAlike (shallow_letters a) (shallow_letters b))) := by
  have htarballs : (∀ t ∈ mirrortarballs a, t ∉ mirrortarballs b) ↔ fulltarball a ≠ fulltarball b ∧
      (a.shallow → b.shallow → shallowtarball a ≠ shallowtarball b) := by
    have hab := shallowtarball_ne a b
    have hba := (shallowtarball_ne b a).symm
    unfold mirrortarballs
    cases a.shallow <;> cases b.shallow <;> simp [hab, hba, and_comm]
  unfold KeptApart
  rw [htarballs, Ne, clonedir_eq_iff, Ne, fulltarball_eq_iff]
  simp only [Ne, shallowtarball_eq_iff]
  tauto

/-! ## The key of a revision -/

theorem sub_slashes_point (path : Text) :
    sub_slashes ['.'] path = (part .path (sub_slashes ['/'] path)).map key.write := by
  rw [key.map_write_part]
  induction path with
  | nil => rfl
  | cons c path ih =>
    have hc : c ≠ '/' → key.write (.path, c) = c := by
      intro hc
      simp only [Writing.write, key, List.mem_cons, hc, List.not_mem_nil, or_false, false_or]
      grind
    unfold sub_slashes
    split
    · split
      · exact ih
      · rw [ih, List.map_append]
        rfl
    · rename_i h
      rw [ih, List.map_cons, hc h]

/-- The characters from which the key of a revision is written. -/
def key_letters (ud : UrlData) (name : Text) : List (Part × Char) :=
  part .host ud.host ++ part .path (sub_slashes ['/'] ud.path) ++ part .rest (ud.unresolvedrev name)

/-- A host, a path and a branch or tag that differ have keys that differ. -/
def RevisionsApart (name name' : Text) : Prop :=
  ¬ (SameRepository a b ∧ a.unresolvedrev name = b.unresolvedrev name') →
    revision_key a name ≠ revision_key b name'

theorem revision_key_eq_iff (name name' : Text) : revision_key a name = revision_key b name' ↔
    key.AllAlike (key_letters a name) (key_letters b name') := by
  have hkey : ∀ (ud : UrlData) (name : Text),
      revision_key ud name = text "git:" ++ (key_letters ud name).map key.write := by
    intro ud name
    unfold revision_key key_letters
    rw [List.map_append, List.map_append, key.map_write_plain (p := .host) rfl rfl,
      key.map_write_plain (p := .rest) rfl rfl, ← sub_slashes_point]
    simp
  rw [hkey, hkey, List.append_cancel_left_eq, key.map_write_eq_iff]

/-- The clones and the tarballs of two repositories are different exactly when their hosts, paths and
revisions, one behind the other, are not alike in each character, and so are the keys of two branches. -/
theorem repositories_are_kept_apart_iff (name name' : Text) :
    (KeptApart gitdir a b ↔ (¬ SameRepository a b → ¬ source.AllAlike (letters a) (letters b) ∧
      (a.fetcher = b.fetcher → a.shallow → b.shallow →
        ¬ source.AllAlike (shallow_letters a) (shallow_letters b)))) ∧
    (RevisionsApart a b name name' ↔ (¬ (SameRepository a b ∧ a.unresolvedrev name = b.unresolvedrev name') →
      ¬ key.AllAlike (key_letters a name) (key_letters b name'))) := by
  refine ⟨kept_apart_iff gitdir a b, ?_⟩
  unfold RevisionsApart
  rw [Ne, revision_key_eq_iff]

/-- A URL of a host and a path with the branch `master`. -/
def plain_url (host path : Text) (host_plain : '/' ∉ host) : UrlData where
  fetcher := .Git
  host := host
  path := path
  names := [text "default"]
  rebaseable := false
  shallow := false
  bareclone := false
  nobranch := false
  revisions := fun _ => text "0f1e2d3c4b5a69788796a5b4c3d2e1f00f1e2d3c"
  unresolvedrev := fun _ => text "master"
  branches := fun _ => text "master"
  shallow_revs := []
  shallow_depths := fun _ => 1
  shallow_extra_refs := []
  host_plain := host_plain
  revisions_plain := fun _ => by decide

/-- The repositories `a/b` and `a.b` of one host have one clone and one key. -/
theorem two_repositories_have_one_clone :
    (¬ ∀ (gitdir : Text) (a b : UrlData), KeptApart gitdir a b) ∧
      ¬ ∀ (a b : UrlData) (name name' : Text), RevisionsApart a b name name' := by
  have hother : ¬ SameRepository (plain_url (text "example.org") (text "/a/b") (by decide))
      (plain_url (text "example.org") (text "/a.b") (by decide)) := fun h => absurd h.2 (by decide)
  refine ⟨fun h => (h (text "/git2") _ _ hother).1 (by decide), fun h => ?_⟩
  exact h _ _ (text "default") (text "default") (fun hsame => hother hsame.1) (by decide)

end yocto.git_names
