-- The canonical path of a file below a root (`realpath` of oe/path.py).
import Yocto.PosixPath
import Yocto.Raising

open yocto.posix_path
open yocto.raising
open yocto.task_ids

namespace yocto.real_path

/-! ## The code -/

/-- What the system says of a path. With a slash at its end a path names what a link points to. -/
structure FileSystem where
  readlink : Text → Option Text
  isdir : Text → Bool
  followed : ∀ path, ends_with_sep path = true → readlink path = none

inductive Errno where
  | ENOENT
  | ELOOP
  | EINVAL
  deriving DecidableEq

inductive Raised where
  | OSError (errno : Errno) (strerror : Text)
  | AssertionError
  deriving DecidableEq

def is_path_below (file root : Text) : Bool := root.isPrefixOf (file ++ ['/'])

section

variable (fs : FileSystem) (root : Text) (assume_dir : Bool)

/-- One turn of the loop of `__realpath_rel`, with `realpath` for the call in it. -/
def rel_turn (realpath : Text → Except Raised (Text × Bool)) (state : Text × Bool) (d : Text) :
    Except Raised (Text × Bool) :=
  let (start, have_dir) := state
  if !have_dir && !assume_dir then .error (.OSError .ENOENT (text "no such directory " ++ start))
  else do
    let next ← (if d = text ".." then
        -- do not follow '..' before root
        (if start.length ≥ root.length then .ok (dirname start, have_dir) else .ok (start, have_dir))
      else realpath (join start d))
    if is_path_below next.1 root then .ok next else .error .AssertionError

def realpath_rel (realpath : Text → Except Raised (Text × Bool)) (start rel_path : Text) :
    Except Raised Text := do
  let last ← (rel_path.splitOn '/').foldlM (rel_turn root assume_dir realpath) (start, true)
  return last.1

/-- `__realpath`: the file at the end of a chain of links, and whether it is a directory. -/
def realpath_link : Nat → Text → Except Raised (Text × Bool)
  | loop_cnt, file =>
    match fs.readlink file with
    | none => .ok (file, fs.isdir file)
    | some link =>
      if file.length < root.length then .ok (file, fs.isdir file)
      else
        match loop_cnt with
        | 0 => .error (.OSError .ELOOP file)
        | loop_cnt + 1 => do
          let target := normpath link
          let tdir ← (if isabs target then .ok root
            else if is_path_below (dirname file) root then .ok (dirname file)
            else .error .AssertionError)
          let file ← realpath_rel root assume_dir (realpath_link loop_cnt) tdir target
          realpath_link loop_cnt file

end

def realpath (fs : FileSystem) (file root : Text) (use_physdir : Bool) (loop_cnt : Nat)
    (assume_dir : Bool) : Except Raised Text :=
  let root := with_sep (normpath root)
  let file := normpath file
  if !is_path_below file root then
    .error (.OSError .EINVAL (text "file '" ++ file ++ text "' is not below root"))
  else
    let found :=
      if use_physdir then
        realpath_rel root assume_dir (realpath_link fs root assume_dir loop_cnt) root
          (file.drop (root.length - 1))
      else (realpath_link fs root assume_dir loop_cnt file).map Prod.fst
    match found with
    | .error (.OSError .ELOOP strerror) =>
      .error (.OSError .ELOOP (text "too much recursions while resolving '" ++ file ++
        text "'; loop in '" ++ strerror ++ text "'"))
    | found => found

/-! ## Below the root -/

section

variable {fs : FileSystem} {root : Text} {assume_dir : Bool}

/-- No link, and nothing that leads up. -/
def Plain (fs : FileSystem) (path : Text) : Prop := fs.readlink path = none ∧ ¬text "/.." <:+ path

/-- Each component of the path below the root is plain. -/
def Resolved (fs : FileSystem) (root path : Text) : Prop :=
  ∀ q, Boundary q path → root <+: q → Plain fs q

/-- The root, or a path below it that needs no more resolving. -/
structure Settled (fs : FileSystem) (root path : Text) : Prop where
  below : Below root path
  resolved : Resolved fs root path

/-- A path below the root of which only the last component may be a link. -/
structure Entry (fs : FileSystem) (root path : Text) : Prop where
  below : root <+: path
  resolved : ∀ q r, path = q ++ '/' :: r → root <+: q → Plain fs q
  stays : ¬text "/.." <:+ path

def os_error : Raised → Prop
  | .OSError _ _ => True
  | .AssertionError => False

theorem plain_of_sep {path : Text} (h : ends_with_sep path = true) : Plain fs path := by
  refine ⟨fs.followed path h, ?_⟩
  rintro ⟨t, rfl⟩
  simp [ends_with_sep, text] at h

theorem Settled.is_path_below {path : Text} (h : Settled fs root path) : is_path_below path root = true :=
  List.isPrefixOf_iff_prefix.mpr h.below.prefix_sep

theorem settled_root (hroot : IsRoot root) : Settled fs root root := by
  refine ⟨.inl (List.prefix_refl root), fun q hq hrootq => ?_⟩
  have hqroot : q <+: root := by
    rcases hq with hq | ⟨r, hq⟩
    · exact ⟨[], by rw [List.append_nil, ← hq]⟩
    · exact ⟨'/' :: r, hq.symm⟩
  rw [hqroot.eq_of_length (le_antisymm hqroot.length_le hrootq.length_le)]
  exact plain_of_sep hroot.sep

theorem settled_dirname (hroot : IsRoot root) {path : Text} (hbelow : root <+: path)
    (hresolved : ∀ q r, path = q ++ '/' :: r → root <+: q → Plain fs q) :
    Settled fs root (dirname path) := by
  obtain ⟨hdir, hboundary⟩ := dirname_below hroot hbelow
  refine ⟨hdir, fun q hq hrootq => ?_⟩
  rcases hboundary q hq hrootq with hsep | ⟨r, hr⟩
  · exact plain_of_sep hsep
  · exact hresolved q r hr hrootq

theorem settled_up (hroot : IsRoot root) {start : Text} (h : Settled fs root start)
    (hlen : root.length ≤ start.length) : Settled fs root (dirname start) := by
  rcases h.below with hbelow | ⟨hlonger, -, -⟩
  · exact settled_dirname hroot hbelow fun q r hq => h.resolved q (.inr ⟨r, hq⟩)
  · have : root.length = start.length + 1 := by
      rw [hlonger, List.length_append, List.length_singleton]
    omega

theorem entry_join (hroot : IsRoot root) {start d : Text} (h : Settled fs root start) (hd : '/' ∉ d)
    (hup : d ≠ text "..") : Entry fs root (join start d) := by
  obtain ⟨hbelow, hboundary, dir, hdir, hsep⟩ := join_below hroot h.below hd
  refine ⟨hbelow, fun q r hq hrootq => h.resolved q (hboundary q r hq) hrootq, ?_⟩
  rintro ⟨t, ht⟩
  rw [hdir, show text "/.." = '/' :: text ".." by decide] at ht
  obtain ⟨c, hc, hdots⟩ := slash_in_append hd ht.symm
  obtain ⟨s, hs⟩ := exists_of_ends_with_sep hsep
  rcases List.eq_nil_or_concat c with rfl | ⟨c, x, rfl⟩
  · exact hup hdots.symm
  · have hx : x = '/' := by
      rw [List.concat_eq_append, hs, ← List.cons_append, ← List.append_assoc] at hc
      exact (List.singleton_inj.mp (List.append_inj' hc rfl).2).symm
    have hmem : '/' ∈ c.concat x ++ d := by
      rw [hx]
      simp
    rw [← hdots] at hmem
    exact absurd hmem (by decide)

/-! ## Following links -/

theorem realpath_settled (loop_cnt : Nat) {file : Text} (h : Settled fs root file) :
    realpath_link fs root assume_dir loop_cnt file = .ok (file, fs.isdir file) := by
  unfold realpath_link
  split
  · rfl
  · rename_i link hlink
    rcases h.below with hbelow | ⟨hlonger, -, -⟩
    · have := (h.resolved file (.inl rfl) hbelow).1
      rw [this] at hlink
      cases hlink
    · rw [if_pos (by rw [hlonger, List.length_append, List.length_singleton]; omega)]

theorem realpath_rel_settled (hroot : IsRoot root) {realpath : Text → Except Raised (Text × Bool)}
    (hcall : ∀ file, Entry fs root file →
      Meets os_error (fun found => Settled fs root found.1) (realpath file))
    {start : Text} (hstart : Settled fs root start) (rel_path : Text) :
    Meets os_error (Settled fs root) (realpath_rel root assume_dir realpath start rel_path) := by
  have hloop : Meets os_error (fun state : Text × Bool => Settled fs root state.1)
      ((rel_path.splitOn '/').foldlM (rel_turn root assume_dir realpath) (start, true)) := by
    refine Meets.foldlM hstart fun state d hd hstate => ?_
    obtain ⟨start, have_dir⟩ := state
    unfold rel_turn
    dsimp only
    split
    · trivial
    · have hnext : Meets os_error (fun next : Text × Bool => Settled fs root next.1)
          (if d = text ".." then
            (if start.length ≥ root.length then .ok (dirname start, have_dir) else .ok (start, have_dir))
          else realpath (join start d)) := by
        split
        · split
          · rename_i hlen
            exact settled_up hroot hstate hlen
          · exact hstate
        · rename_i hup
          exact hcall _ (entry_join hroot hstate (not_mem_of_mem_splitOn hd) hup)
      refine hnext.bind fun next hsettled => ?_
      rw [if_pos hsettled.is_path_below]
      exact hsettled
  exact hloop.bind fun last hlast => hlast

theorem Entry.settled {file : Text} (h : Entry fs root file) (hlink : fs.readlink file = none) :
    Settled fs root file := by
  refine ⟨.inl h.below, fun q hq hrootq => ?_⟩
  rcases hq with rfl | ⟨r, hr⟩
  · exact ⟨hlink, h.stays⟩
  · exact h.resolved q r hr hrootq

theorem realpath_link_settled (hroot : IsRoot root) (loop_cnt : Nat) {file : Text}
    (h : Entry fs root file) :
    Meets os_error (fun found => Settled fs root found.1)
      (realpath_link fs root assume_dir loop_cnt file) := by
  have hlong : ∀ {file}, Entry fs root file → ¬file.length < root.length := fun h =>
    not_lt.mpr h.below.length_le
  induction loop_cnt generalizing file with
  | zero =>
    unfold realpath_link
    split
    · rename_i hlink
      exact h.settled hlink
    · rw [if_neg (hlong h)]
      trivial
  | succ loop_cnt ih =>
    unfold realpath_link
    split
    · rename_i hlink
      exact h.settled hlink
    · rename_i link hlink
      rw [if_neg (hlong h)]
      have htdir : Meets os_error (Settled fs root) (if isabs (normpath link) then .ok root
          else if is_path_below (dirname file) root then .ok (dirname file)
          else .error .AssertionError) := by
        have hdir := settled_dirname hroot h.below h.resolved
        split
        · exact settled_root hroot
        · rw [if_pos hdir.is_path_below]
          exact hdir
      refine htdir.bind fun tdir htdir => ?_
      refine (realpath_rel_settled hroot (fun file => ih) htdir (normpath link)).bind fun file hfile => ?_
      rw [realpath_settled loop_cnt hfile]
      exact hfile

end

/-! ## The whole -/

/-- Following all links of a file below a root ends, with an exception of the system or with a path that
is the root or below it, and in which no component below the root is a link or leads up. -/
theorem realpath_stays_below_root (fs : FileSystem) (file root : Text) (loop_cnt : Nat)
    (assume_dir : Bool) :
    (∃ errno strerror, realpath fs file root true loop_cnt assume_dir = .error (.OSError errno strerror)) ∨
    ∃ path, realpath fs file root true loop_cnt assume_dir = .ok path ∧
      is_path_below path (with_sep (normpath root)) = true ∧
      Resolved fs (with_sep (normpath root)) path := by
  have hroot := with_sep_isRoot (normpath_ne_nil root) (normpath_trimmed root)
  unfold realpath
  dsimp only
  generalize hfrom : with_sep (normpath root) = root at *
  split
  · exact .inl ⟨.EINVAL, _, rfl⟩
  · rw [if_pos rfl]
    have hfound : Meets os_error (Settled fs root)
        (realpath_rel root assume_dir (realpath_link fs root assume_dir loop_cnt) root
          ((normpath file).drop (root.length - 1))) :=
      realpath_rel_settled hroot (fun file => realpath_link_settled hroot loop_cnt) (settled_root hroot) _
    cases hcall : realpath_rel root assume_dir (realpath_link fs root assume_dir loop_cnt) root
        ((normpath file).drop (root.length - 1)) with
    | ok path =>
      rw [hcall] at hfound
      exact .inr ⟨path, rfl, hfound.is_path_below, hfound.resolved⟩
    | error e =>
      rw [hcall] at hfound
      cases e with
      | AssertionError => exact hfound.elim
      | OSError errno strerror =>
        left
        cases errno with
        | ELOOP => exact ⟨.ELOOP, _, rfl⟩
        | ENOENT => exact ⟨.ENOENT, strerror, rfl⟩
        | EINVAL => exact ⟨.EINVAL, strerror, rfl⟩

def two_links : FileSystem where
  readlink path :=
    if path = text "/R/a" then some (text "../../etc")
    else if path = text "/R/etc/b" then some (text "/a/c")
    else none
  isdir path := path = text "/R/" ∨ path = text "/R/etc"
  followed path hsep := by
    have ha : path ≠ text "/R/a" := by
      rintro rfl
      exact absurd hsep (by decide)
    have hb : path ≠ text "/R/etc/b" := by
      rintro rfl
      exact absurd hsep (by decide)
    rw [if_neg ha, if_neg hb]

example : realpath two_links (text "/R/x/../a/b") (text "/R") true 100 false = .ok (text "/R/etc/c") := by
  decide +kernel

end yocto.real_path
