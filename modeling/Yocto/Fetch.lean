-- The downloads of the fetcher (`Fetch.download` of fetch2): the done stamps and the
-- checksums, premirrors, upstream and mirrors, and which exceptions end a download.
import Yocto.ListSearch
import Yocto.Raising
import Yocto.TaskIds
import Yocto.Triples

open yocto.task_ids yocto.triples
open yocto.list_search (Bytes)

namespace yocto.fetch

/-! ## Files and stamps -/

abbrev Path := Text

/-- A checksum: hexadecimal digits, never empty. -/
structure Digest where
  digits : Text
  nonempty : digits ≠ []
  deriving DecidableEq

inductive Node
  | file (content : Bytes) (mtime : Nat)
  | directory
  | link (target : Path)
  deriving DecidableEq

/-- A done stamp, with the checksums that it holds when they can be loaded. -/
structure Stamp where
  mtime : Nat
  loaded : Option (List (Text × Digest))
  deriving DecidableEq

structure Disk where
  nodes : Path → Option Node
  stamps : Path → Option Stamp

/-- What a path leads to, through links. -/
def Disk.follow (disk : Disk) : Nat → Path → Option Node
  | 0, _ => none
  | links + 1, path =>
    match disk.nodes path with
    | some (.link target) => disk.follow links target
    | node => node

/-- `os.stat`: a path leads through forty links at most. -/
def Disk.stat (disk : Disk) (path : Path) : Option Node := disk.follow 41 path

/-- `os.path.exists`. -/
def Disk.exists_ (disk : Disk) (path : Path) : Bool := (disk.stat path).isSome

def Disk.isdir (disk : Disk) (path : Path) : Bool := disk.stat path = some .directory

def Disk.has_stamp (disk : Disk) (path : Path) : Bool := (disk.stamps path).isSome

def basename (path : Path) : Text := (path.reverse.takeWhile (· != '/')).reverse

/-! ## Methods and what they do -/

/-- Error numbers. -/
def ESTALE : Nat := 116

def ENOENT : Nat := 2

def EISDIR : Nat := 21

/-- What is raised. `FetchError` stands for every other `BBFetchException`. -/
inductive Raised
  | NetworkAccess
  | ChecksumError (checksum : Text)
  | NoChecksumError (message : Text)
  | FetchError
  | OSError (errno : Nat)
  | other
  deriving DecidableEq

/-- A fetch method. The methods of npm have a proxy, to which they forward what is asked of them. -/
structure Method where
  proxied : Bool
  supports_checksum : Bool
  recommends_checksum : Bool
  cleanup_upon_failure : Bool
  build_mirror_data : Bool
  own_need_update : Bool
  own_try_premirror : Bool

structure FetchData where
  url : Text
  method : Method
  localpath : Path
  donestamp : Path
  needdonestamp : Bool
  ignore_checksums : Bool
  checksum_name : Text → Text
  checksum_expected : Text → Option Text
  mirrortarballs : List Text

/-- What a call of a method does: the files that it leaves, the time that it takes, what it answers
and what it raises. -/
structure Outcome where
  nodes : Path → Option Node
  elapsed : Nat
  answer : Bool
  raised : Option Raised

/-- The configuration, the checksums of contents, and what each call of a method does. -/
structure Env where
  behaviour : Nat → Outcome
  checksum : Text → Bytes → Digest
  strict : Text
  premirrors : FetchData → List FetchData
  mirrors : FetchData → List FetchData
  trusted_network : FetchData → Bool
  dldir : Path
  glob : Path → Path → Bool

structure World where
  disk : Disk
  now : Nat
  calls : Nat

abbrev Fetching (α : Type) := Prog World Raised α

variable (env : Env)

def call : Fetching Bool := fun w =>
  let outcome := env.behaviour w.calls
  let w' : World := ⟨{ w.disk with nodes := outcome.nodes }, w.now + outcome.elapsed, w.calls + 1⟩
  match outcome.raised with
  | none => (.ok outcome.answer, w')
  | some e => (.error e, w')

/-! ## Checksums -/

def CHECKSUM_LIST : List Text := [text "md5", text "sha256", text "sha1", text "sha384", text "sha512"]

def supports_checksum (ud : FetchData) (disk : Disk) : Bool :=
  ud.method.supports_checksum && !disk.isdir ud.localpath

def expected (ud : FetchData) (id : Text) : Option Text :=
  if ud.checksum_expected id = some [] then none else ud.checksum_expected id

def file_checksum (disk : Disk) (path : Path) (id : Text) : Except Raised Digest :=
  match disk.stat path with
  | some (.file content _) => .ok (env.checksum id content)
  | some _ => .error (.OSError EISDIR)
  | none => .error (.OSError ENOENT)

def compute_checksum_info (ud : FetchData) (disk : Disk) (precomputed : List (Text × Digest))
    (id : Text) : Except Raised (Text × Digest) :=
  match precomputed.lookup id with
  | some data => .ok (id, data)
  | none => (file_checksum env disk ud.localpath id).map fun data => (id, data)

/-- The line to add to a recipe. -/
def checksum_line (ud : FetchData) (infos : List (Text × Digest)) : Text :=
  match infos.lookup (text "sha256") with
  | some data => text "SRC_URI[" ++ (ud.checksum_name (text "sha256") ++
      (text "] = \"" ++ (data.digits ++ ['"'])))
  | none => []

def mismatch (ud : FetchData) (info : Text × Digest) : Bool :=
  match expected ud info.1 with
  | some sum => sum != info.2.digits
  | none => false

/-- No checksum is expected, where there should be one. -/
def no_checksum (ud : FetchData) (infos : List (Text × Digest)) : Bool :=
  ud.method.recommends_checksum && infos.all fun info => expected ud info.1 == none

def verify_checksum (ud : FetchData) (disk : Disk) (precomputed : List (Text × Digest)) :
    Except Raised (List (Text × Digest)) :=
  if ud.ignore_checksums || !supports_checksum ud disk then .ok []
  else do
    let infos ← CHECKSUM_LIST.mapM (compute_checksum_info env ud disk precomputed)
    if no_checksum ud infos && env.strict == ['1'] then
      .error (.NoChecksumError (checksum_line ud infos))
    else
      match (infos.filter (mismatch ud)).getLast? with
      | some bad => .error (.ChecksumError bad.2.digits)
      | none => .ok infos

/-! ## The done stamp -/

def setStamp (path : Path) (stamp : Option Stamp) (w : World) : World :=
  { w with disk := { w.disk with
      stamps := fun p => if p = path then stamp else w.disk.stamps p } }

def dump (path : Path) (loaded : Option (List (Text × Digest))) : Fetching Unit :=
  Prog.modify fun w => setStamp path (some ⟨w.now, loaded⟩) w

/-- `os.utime`. -/
def touch (path : Path) : Fetching Unit := Prog.modify fun w =>
  setStamp path ((w.disk.stamps path).map fun stamp => { stamp with mtime := w.now }) w

def has_magic (path : Path) : Bool := path.any fun c => c == '*' || c == '?' || c == '['

/-- `bb.utils.remove` of a stamp: a name with the characters of a pattern is taken for one. -/
def remove (path : Path) : Fetching Unit := Prog.modify fun w =>
  { w with disk := { w.disk with
      stamps := fun p =>
        if has_magic path then (if env.glob path p then none else w.disk.stamps p)
        else if p = path then none else w.disk.stamps p } }

def rename_bad_checksum (ud : FetchData) (suffix : Text) : Fetching Unit := Prog.modify fun w =>
  let new_localpath := ud.localpath ++ (text "_bad-checksum_" ++ suffix)
  if (w.disk.nodes ud.localpath).isSome then
    { w with disk := { w.disk with
        nodes := fun p => if p = new_localpath then w.disk.nodes ud.localpath
          else if p = ud.localpath then none else w.disk.nodes p } }
  else w

def rename_if_exists (ud : FetchData) (suffix : Text) : Fetching Unit := Prog.reading fun w =>
  if w.disk.exists_ ud.localpath then rename_bad_checksum ud suffix else pure ()

/-- The stamp is younger than what it is about. -/
def newer (disk : Disk) (path : Path) (stamp : Stamp) : Bool :=
  match disk.stat path with
  | some (.file _ mtime) => decide (mtime < stamp.mtime)
  | some _ => true
  | none => false

/-- The checksums that need not be computed. -/
def precomputed_checksums (ud : FetchData) (disk : Disk) : List (Text × Digest) :=
  match disk.stamps ud.donestamp with
  | some stamp => if newer disk ud.localpath stamp then stamp.loaded.getD [] else []
  | none => []

def same_dict (d d' : List (Text × Digest)) : Bool :=
  d.all (fun p => d'.lookup p.1 == some p.2) && d'.all fun p => d.lookup p.1 == some p.2

/-- `verify_donestamp`, for a mirror with the data of the original URL. -/
def verify_donestamp (ud : FetchData) (origud : Option FetchData) : Fetching Bool :=
  Prog.reading fun w =>
    if !ud.needdonestamp || origud.any (fun o => !o.needdonestamp) then pure true
    else if !w.disk.exists_ ud.localpath then do
      if w.disk.has_stamp ud.donestamp then remove env ud.donestamp else pure ()
      pure false
    else if !supports_checksum ud w.disk || origud.any (fun o => !supports_checksum o w.disk) then
      pure (w.disk.has_stamp ud.donestamp)
    else
      let precomputed := precomputed_checksums ud w.disk
      match verify_checksum env ud w.disk precomputed with
      | .ok checksums => do
        if same_dict checksums precomputed then pure () else dump ud.donestamp (some checksums)
        pure true
      | .error (.ChecksumError checksum) => do
        rename_if_exists ud checksum
        remove env ud.donestamp
        pure false
      | .error e => Prog.raise e

def update_stamp (ud : FetchData) : Fetching Unit := Prog.reading fun w =>
  if !ud.needdonestamp then pure ()
  else if w.disk.has_stamp ud.donestamp then touch ud.donestamp
  else
    match verify_checksum env ud w.disk [] with
    | .ok checksums => dump ud.donestamp (some checksums)
    | .error (.ChecksumError checksum) => do
      rename_if_exists ud checksum
      remove env ud.donestamp
      Prog.raise (.ChecksumError checksum)
    | .error e => Prog.raise e

/-! ## The operations of a method -/

def m_verify_donestamp (ud : FetchData) : Fetching Bool :=
  if ud.method.proxied then call env else verify_donestamp env ud none

def m_update_donestamp (ud : FetchData) : Fetching Unit :=
  if ud.method.proxied then do let _ ← call env; pure () else update_stamp env ud

def m_need_update (ud : FetchData) : Fetching Bool :=
  if ud.method.own_need_update then call env
  else Prog.reading fun w => pure (!w.disk.exists_ ud.localpath)

def m_try_premirror (ud : FetchData) : Fetching Bool :=
  if ud.method.own_try_premirror then call env else pure true

def m_done (ud : FetchData) : Fetching Bool :=
  if ud.method.proxied then call env
  else Prog.reading fun w => pure (w.disk.exists_ ud.localpath)

/-- The download, and `build_mirror_data` of the methods that have it. -/
def m_download (ud : FetchData) : Fetching Unit := do
  let _ ← call env
  if ud.method.build_mirror_data then do let _ ← call env; pure () else pure ()

def m_clean_upon_failure (ud : FetchData) : Fetching Unit :=
  if ud.method.cleanup_upon_failure then do let _ ← call env; pure () else pure ()

/-! ## Mirrors -/

/-- A link, where there is no file yet. -/
def symlink (target path : Path) : Fetching Unit := Prog.modify fun w =>
  { w with disk := { w.disk with
      nodes := fun p => if p = path then some (.link target) else w.disk.nodes p } }

def ensure_symlink (target path : Path) : Fetching Unit := Prog.reading fun w =>
  if w.disk.exists_ path then pure () else symlink target path

/-- The tarball of a mirror is linked to, unless something has its name. -/
def symlink_tarball (target path : Path) : Fetching Unit := Prog.reading fun w =>
  if (w.disk.nodes path).isSome then pure () else symlink target path

def download_if_needed (ud : FetchData) (origud : Option FetchData) : Fetching Unit := do
  let stamped ← verify_donestamp env ud origud
  let needed ← if stamped then m_need_update env ud else pure true
  if needed then m_download env ud else pure ()

def is_mirror_tarball (origud ud : FetchData) : Bool :=
  origud.mirrortarballs.contains (basename ud.localpath) &&
    basename ud.localpath != basename origud.localpath

def try_mirror_url (origud ud : FetchData) : Fetching Bool :=
  Prog.attempt
    (do
      download_if_needed env ud (some origud)
      Prog.reading fun w =>
        if ud.localpath = [] ∨ w.disk.exists_ ud.localpath = false then pure false
        else if ud.localpath = origud.localpath then pure true
        else if is_mirror_tarball origud ud then do
          -- a stamp in the old format, which holds nothing
          if ud.needdonestamp then dump ud.donestamp none else pure ()
          symlink_tarball ud.localpath (env.dldir ++ '/' :: basename ud.localpath)
          download_if_needed env origud none
          pure (!origud.localpath.isEmpty)
        else do
          ensure_symlink ud.localpath origud.localpath
          update_stamp env origud
          pure true)
    fun
      | .NetworkAccess => Prog.raise .NetworkAccess
      | .OSError errno => if errno = ESTALE then pure false else Prog.raise (.OSError errno)
      | .ChecksumError checksum => do
        rename_if_exists ud checksum
        m_clean_upon_failure env ud
        pure false
      | .NoChecksumError message => Prog.raise (.NoChecksumError message)
      | .FetchError => do
        m_clean_upon_failure env ud
        pure false
      | .other => Prog.raise .other

/-- `try_mirrors`, with the mirrors of a URL, whose checksums are those of the URL itself. -/
def try_mirrors (origud : FetchData) (uds : List FetchData) : Fetching Bool :=
  Prog.firstOf (fun ud => try_mirror_url env origud { ud with ignore_checksums := true }) uds

def m_try_mirrors (ud : FetchData) (uds : List FetchData) : Fetching Bool :=
  if ud.method.proxied then call env else try_mirrors env ud uds

/-! ## The download of one URL -/

/-- How the turn of a URL ended: with the answer of `done` and the disk on which it was given, or
with an error that is collected, or with one that is dropped. -/
inductive Ending
  | accepted (done : Bool) (disk : Disk)
  | missing (message : Text)
  | passed (errno : Nat)

/-- The stamp, or else the premirrors, with an early verification. -/
def fetch_before_upstream (ud : FetchData) : Fetching Bool := do
  let stamped ← m_verify_donestamp env ud
  let update ← if stamped then m_need_update env ud else pure true
  if !update then pure true
  else do
    let premirror ← m_try_premirror env ud
    if premirror then do
      let found ← m_try_mirrors env ud (env.premirrors ud)
      if found then
        Prog.attempt (do m_update_donestamp env ud; pure true) fun
          | .ChecksumError _ => pure false
          | e => Prog.raise e
      else pure false
    else pure false

/-- The upstream, and the mirrors where it fails. -/
def fetch_upstream (ud : FetchData) (verified_stamp : Bool) : Fetching Bool :=
  Prog.attempt
    (do
      if env.trusted_network ud then pure () else Prog.raise .FetchError
      m_download env ud
      m_update_donestamp env ud
      pure true)
    fun
      | .NetworkAccess => Prog.raise .NetworkAccess
      | .ChecksumError checksum => do
        rename_if_exists ud checksum
        if verified_stamp then pure () else m_clean_upon_failure env ud
        m_try_mirrors env ud (env.mirrors ud)
      | .NoChecksumError message => Prog.raise (.NoChecksumError message)
      | .FetchError => do
        if verified_stamp then pure () else m_clean_upon_failure env ud
        m_try_mirrors env ud (env.mirrors ud)
      | e => Prog.raise e

/-- The last steps: what is done is accepted, and the stamp is updated. -/
def accept (ud : FetchData) (done : Bool) : Fetching Ending := do
  let held ← (if done then m_done env ud else pure false)
  if held then
    Prog.reading fun w => do
      m_update_donestamp env ud
      pure (.accepted held w.disk)
  else Prog.raise .FetchError

def fetch_url (ud : FetchData) : Fetching Ending :=
  Prog.attempt
    (do
      let done ← fetch_before_upstream env ud
      let verified_stamp ← (if done then m_verify_donestamp env ud else pure false)
      let upstream ← (if done then pure false
        else if verified_stamp then m_need_update env ud else pure true)
      let done ← (if upstream then fetch_upstream env ud verified_stamp else pure done)
      accept env ud done)
    fun
      | .OSError errno =>
        if errno = ESTALE then Prog.raise (.ChecksumError (text "None")) else pure (.passed errno)
      | .NoChecksumError message => pure (.missing message)
      | e => Prog.raise e

/-- `Fetch.download`. It returns when no checksum is missing. -/
def download (urls : List FetchData) : Fetching (List Ending) := do
  let endings ← Prog.collect (fetch_url env) urls
  if endings.any (fun | .missing _ => true | _ => false) then Prog.raise .FetchError
  else pure endings

/-! ## What is verified -/

/-- A URL whose downloads are checked: it needs a stamp, whose name is no pattern, its checksums are
not those of another URL, and nothing but a missing file makes its method download again. -/
structure Checked (ud : FetchData) : Prop where
  localpath : ud.localpath ≠ []
  needdonestamp : ud.needdonestamp = true
  not_ignored : ud.ignore_checksums = false
  not_proxied : ud.method.proxied = false
  need_update : ud.method.own_need_update = false
  no_pattern : has_magic ud.donestamp = false

/-- The file has the checksums that are expected, or a stamp that was there at the start has them, and
it is younger than the file, which nothing has changed. -/
def Verified (ud : FetchData) (start disk : Disk) : Prop :=
  ∀ id ∈ CHECKSUM_LIST, ∀ sum, expected ud id = some sum →
    ∃ content mtime, disk.stat ud.localpath = some (.file content mtime) ∧
      ((env.checksum id content).digits = sum ∨
        disk.nodes = start.nodes ∧ ∃ stamp, start.stamps ud.donestamp = some stamp ∧
          mtime < stamp.mtime ∧ ∃ data, (stamp.loaded.getD []).lookup id = some data ∧
            data.digits = sum)

def NoStamp (ud : FetchData) (w : World) : Prop := w.disk.stamps ud.donestamp = none

/-- There is no stamp that holds anything. -/
def Blank (ud : FetchData) (w : World) : Prop :=
  ∀ stamp, w.disk.stamps ud.donestamp = some stamp → stamp.loaded = none

/-- There is a stamp only when the file is verified, as far as it can have checksums. -/
def Kept (ud : FetchData) (start : Disk) (w : World) : Prop :=
  NoStamp ud w ∨ (supports_checksum ud w.disk = true → Verified env ud start w.disk)

/-- Whatever is raised leaves no stamp, unless it is the error of a missing checksum. -/
def Fails (ud : FetchData) (e : Raised) (w : World) : Prop :=
  (∀ message, e ≠ .NoChecksumError message) → NoStamp ud w

/-! ## The checksums of a file -/

theorem follow_ne_link (disk : Disk) (n : Nat) (path target : Path) :
    disk.follow n path ≠ some (.link target) := by
  induction n generalizing path with
  | zero => simp [Disk.follow]
  | succ n ih =>
    unfold Disk.follow
    split
    · exact ih _
    · rename_i hnode
      exact fun h => hnode target h

theorem stat_of_supports {ud : FetchData} {disk : Disk} (hexists : disk.exists_ ud.localpath = true)
    (hsupports : supports_checksum ud disk = true) :
    ∃ content mtime, disk.stat ud.localpath = some (.file content mtime) := by
  obtain ⟨node, hnode⟩ := Option.isSome_iff_exists.mp hexists
  cases node with
  | file content mtime => exact ⟨content, mtime, hnode⟩
  | directory => simp [supports_checksum, Disk.isdir, hnode] at hsupports
  | link target => exact absurd hnode (follow_ne_link _ _ _ _)

theorem compute_checksum_info_ok {ud : FetchData} {disk : Disk} {pre : List (Text × Digest)} {id : Text}
    {info : Text × Digest} (h : compute_checksum_info env ud disk pre id = .ok info) :
    info.1 = id ∧ (pre.lookup id = some info.2 ∨
      file_checksum env disk ud.localpath id = .ok info.2) := by
  unfold compute_checksum_info at h
  split at h
  · obtain rfl := Except.ok.inj h
    exact ⟨rfl, Or.inl ‹_›⟩
  · obtain ⟨data, hdata, rfl⟩ := raising.map_ok h
    exact ⟨rfl, Or.inr hdata⟩

theorem file_checksum_ok {disk : Disk} {path : Path} {id : Text} {data : Digest}
    (h : file_checksum env disk path id = .ok data) :
    ∃ content mtime, disk.stat path = some (.file content mtime) ∧ env.checksum id content = data := by
  unfold file_checksum at h
  split at h
  · rename_i content mtime hstat
    exact ⟨content, mtime, hstat, Except.ok.inj h⟩
  · cases h
  · cases h

theorem verify_checksum_ok {ud : FetchData} {disk : Disk} {pre checksums : List (Text × Digest)}
    (hignore : ud.ignore_checksums = false) (hsupports : supports_checksum ud disk = true)
    (h : verify_checksum env ud disk pre = .ok checksums) :
    ∀ id ∈ CHECKSUM_LIST, ∀ sum, expected ud id = some sum → ∃ data : Digest, data.digits = sum ∧
      (pre.lookup id = some data ∨ file_checksum env disk ud.localpath id = .ok data) := by
  intro id hid sum hsum
  simp only [verify_checksum, hignore, hsupports, Bool.not_true, Bool.or_self, Bool.false_eq_true,
    ↓reduceIte] at h
  obtain ⟨infos, hinfos, h⟩ := raising.bind_ok h
  obtain ⟨info, hmem, hinfo⟩ := raising.exists_of_forall₂ (raising.mapM_ok hinfos) id hid
  obtain ⟨rfl, hdata⟩ := compute_checksum_info_ok env hinfo
  refine ⟨info.2, ?_, hdata⟩
  split at h
  · cases h
  · split at h
    · cases h
    · rename_i hnone
      have hfilter : infos.filter (mismatch ud) = [] := List.getLast?_eq_none_iff.mp hnone
      have hmatch := List.filter_eq_nil_iff.mp hfilter info hmem
      simp only [mismatch, hsum, bne_iff_ne, ne_eq, not_not] at hmatch
      exact hmatch.symm

theorem verify_checksum_error {ud : FetchData} {disk : Disk} {pre : List (Text × Digest)} {e : Raised}
    {content : Bytes} {mtime : Nat} (hstat : disk.stat ud.localpath = some (.file content mtime))
    (h : verify_checksum env ud disk pre = .error e) :
    (∃ sum, e = .ChecksumError sum) ∨ ∃ message, e = .NoChecksumError message := by
  have hinfo : ∀ id e, compute_checksum_info env ud disk pre id ≠ .error e := by
    intro id e hid
    unfold compute_checksum_info at hid
    split at hid
    · cases hid
    · simp [file_checksum, hstat, Except.map] at hid
  unfold verify_checksum at h
  split at h
  · cases h
  · cases hinfos : CHECKSUM_LIST.mapM (compute_checksum_info env ud disk pre) with
    | error e' =>
      obtain ⟨id, -, hid⟩ := raising.mapM_error hinfos
      exact absurd hid (hinfo id e')
    | ok infos =>
      rw [hinfos] at h
      change (if _ then _ else _) = _ at h
      split at h
      · exact Or.inr ⟨_, (Except.error.inj h).symm⟩
      · split at h
        · exact Or.inl ⟨_, (Except.error.inj h).symm⟩
        · cases h

theorem verify_checksum_ignored {ud : FetchData} (h : ud.ignore_checksums = true) (disk : Disk)
    (pre : List (Text × Digest)) : verify_checksum env ud disk pre = .ok [] := by
  simp [verify_checksum, h]

theorem verified_of_verify {ud : FetchData} {disk : Disk} {checksums : List (Text × Digest)}
    (hignore : ud.ignore_checksums = false) (hexists : disk.exists_ ud.localpath = true)
    (hsupports : supports_checksum ud disk = true)
    (h : verify_checksum env ud disk (precomputed_checksums ud disk) = .ok checksums) :
    Verified env ud disk disk := by
  intro id hid sum hsum
  obtain ⟨content, mtime, hstat⟩ := stat_of_supports hexists hsupports
  obtain ⟨data, hdigits, hdata⟩ := verify_checksum_ok env hignore hsupports h id hid sum hsum
  refine ⟨content, mtime, hstat, ?_⟩
  rcases hdata with hrecorded | hcomputed
  · right
    unfold precomputed_checksums at hrecorded
    split at hrecorded
    · rename_i stamp hstamp
      split at hrecorded
      · rename_i hnewer
        refine ⟨rfl, stamp, hstamp, ?_, data, hrecorded, hdigits⟩
        simpa [newer, hstat] using hnewer
      · simp at hrecorded
    · simp at hrecorded
  · left
    obtain ⟨content', mtime', hstat', hdata⟩ := file_checksum_ok env hcomputed
    rw [hstat] at hstat'
    obtain ⟨rfl, rfl⟩ := Node.file.inj (Option.some.inj hstat')
    rw [hdata, hdigits]

theorem verified_of_verify_nil {ud : FetchData} {start disk : Disk} {checksums : List (Text × Digest)}
    (hignore : ud.ignore_checksums = false) (hsupports : supports_checksum ud disk = true)
    (h : verify_checksum env ud disk [] = .ok checksums) : Verified env ud start disk := by
  intro id hid sum hsum
  obtain ⟨data, hdigits, hdata⟩ := verify_checksum_ok env hignore hsupports h id hid sum hsum
  rcases hdata with hrecorded | hcomputed
  · simp at hrecorded
  · obtain ⟨content, mtime, hstat, hdata⟩ := file_checksum_ok env hcomputed
    exact ⟨content, mtime, hstat, Or.inl (by rw [hdata, hdigits])⟩

/-! ## What each step does to the stamp -/

variable {ud : FetchData} {start : Disk}

@[simp] theorem setStamp_nodes (path : Path) (stamp : Option Stamp) (w : World) :
    (setStamp path stamp w).disk.nodes = w.disk.nodes := rfl

theorem noStamp_setStamp {path : Path} {stamp : Option Stamp} {w : World} (hw : NoStamp ud w)
    (h : path ≠ ud.donestamp) : NoStamp ud (setStamp path stamp w) := by
  simp [NoStamp, setStamp, h.symm]
  exact hw

theorem call_noStamp : Triple (NoStamp ud) (call env) (fun _ => NoStamp ud) (fun _ => NoStamp ud) := by
  intro w hw
  unfold call
  dsimp only
  cases (env.behaviour w.calls).raised with
  | none => exact hw
  | some e => exact hw

theorem remove_noStamp (path : Path) (err : Raised → World → Prop) :
    Triple (NoStamp ud) (remove env path) (fun _ => NoStamp ud) err :=
  .modify fun w hw => by
    have hnone : w.disk.stamps ud.donestamp = none := hw
    simp [NoStamp, hnone]

theorem remove_own (hmagic : has_magic ud.donestamp = false) (err : Raised → World → Prop) :
    Triple (fun _ => True) (remove env ud.donestamp) (fun _ => NoStamp ud) err :=
  .modify fun w _ => by simp [NoStamp, hmagic]

theorem rename_noStamp (ud' : FetchData) (sum : Text) (err : Raised → World → Prop) :
    Triple (NoStamp ud) (rename_if_exists ud' sum) (fun _ => NoStamp ud) err := by
  refine .reading fun w hw => .ite (fun _ => .modify ?_) fun _ => .pure ?_
  · rintro w' rfl
    split
    · exact hw
    · exact hw
  · rintro w' rfl
    exact hw

theorem rename_remove_own {α : Type} (hmagic : has_magic ud.donestamp = false) (sum : Text)
    {f : Fetching α} {post : α → World → Prop} {err : Raised → World → Prop}
    (hf : Triple (NoStamp ud) f post err) :
    Triple (fun _ => True) (do rename_if_exists ud sum; remove env ud.donestamp; f) post err := by
  refine .bind (fun _ _ => True) ?_ fun _ => ?_
  · exact .reading fun w _ => .ite (fun _ => .modify fun _ _ => trivial) fun _ => .pure fun _ _ => trivial
  · exact .bind (fun _ => NoStamp ud) (remove_own env hmagic err) fun _ => hf

/-- The world after a stamp that is good: nothing but stamps has changed. -/
def Stamped (ud : FetchData) (w w' : World) : Prop :=
  w'.disk.nodes = w.disk.nodes ∧ w.disk.exists_ ud.localpath = true ∧
    (supports_checksum ud w.disk = true → Verified env ud w.disk w.disk)

theorem verify_donestamp_spec (hc : Checked ud) (w : World) :
    Triple (fun w' => w' = w) (verify_donestamp env ud none)
      (fun stamped w' => if stamped then Stamped env ud w w' else NoStamp ud w') (Fails ud) := by
  refine .reading fun w' hw' => ?_
  subst hw'
  simp only [hc.needdonestamp, Bool.not_true, Option.any_none, Bool.or_false, Bool.false_eq_true,
    ↓reduceIte]
  refine .ite (fun hmissing => ?_) fun hexists => .ite (fun hunsupported => ?_) fun hsupports => ?_
  · -- no file, and so no stamp
    refine .ite (fun _ => .bind (fun _ => NoStamp ud) ?_ fun _ => .pure ?_) fun hstamp => .pure ?_
    · exact (remove_own env hc.no_pattern _).mono (fun _ _ => trivial) (fun _ _ h => h) fun _ _ h => h
    · exact fun w hw => by simpa using hw
    · rintro w rfl
      simpa [Disk.has_stamp, NoStamp] using hstamp
  · -- what can have no checksums is taken as it is
    refine .pure ?_
    rintro w rfl
    split
    · refine ⟨rfl, by simpa using hexists, fun h => ?_⟩
      simp [h] at hunsupported
    · rename_i hstamp
      simpa [Disk.has_stamp, NoStamp] using hstamp
  · have hexists : w'.disk.exists_ ud.localpath = true := by simpa using hexists
    have hsupports : supports_checksum ud w'.disk = true := by simpa using hsupports
    cases hverify : verify_checksum env ud w'.disk (precomputed_checksums ud w'.disk) with
    | ok checksums =>
      have hstamped : ∀ w : World, w.disk.nodes = w'.disk.nodes → Stamped env ud w' w :=
        fun w hw =>
          ⟨hw, hexists, fun _ => verified_of_verify env hc.not_ignored hexists hsupports hverify⟩
      refine .ite (fun _ => .pure ?_) fun _ => .bind (fun _ w => w.disk.nodes = w'.disk.nodes)
        (.modify ?_) fun _ => .pure hstamped
      · rintro w rfl
        exact hstamped _ rfl
      · rintro w rfl
        rfl
    | error e =>
      obtain ⟨content, mtime, hstat⟩ := stat_of_supports hexists hsupports
      rcases verify_checksum_error env hstat hverify with ⟨sum, rfl⟩ | ⟨message, rfl⟩
      · exact (rename_remove_own env hc.no_pattern sum (.pure fun w hw => by simpa using hw)).mono
          (fun _ _ => trivial) (fun _ _ h => h) fun _ _ h => h
      · exact .raise fun w _ h => absurd rfl (h message)

/-! ## What is about files only -/

theorem follow_congr {disk disk' : Disk} (h : disk'.nodes = disk.nodes) (n : Nat) (path : Path) :
    disk'.follow n path = disk.follow n path := by
  induction n generalizing path with
  | zero => rfl
  | succ n ih => simp only [Disk.follow, h, ih]

theorem stat_congr {disk disk' : Disk} (h : disk'.nodes = disk.nodes) (path : Path) :
    disk'.stat path = disk.stat path := follow_congr h 41 path

theorem supports_congr {disk disk' : Disk} (h : disk'.nodes = disk.nodes) :
    supports_checksum ud disk' = supports_checksum ud disk := by
  simp only [supports_checksum, Disk.isdir, stat_congr h]

theorem verified_congr {disk disk' : Disk} (h : disk'.nodes = disk.nodes)
    (hv : Verified env ud start disk) : Verified env ud start disk' := by
  intro id hid sum hsum
  obtain ⟨content, mtime, hstat, hsums⟩ := hv id hid sum hsum
  refine ⟨content, mtime, by rw [stat_congr h, hstat], hsums.imp_right fun hstamp => ?_⟩
  exact ⟨h.trans hstamp.1, hstamp.2⟩

theorem kept_congr {w w' : World} (h : w'.disk.nodes = w.disk.nodes)
    (hv : supports_checksum ud w.disk = true → Verified env ud start w.disk) : Kept env ud start w' := by
  right
  intro hsupports
  rw [supports_congr h] at hsupports
  exact verified_congr env h (hv hsupports)

/-! ## Stamps of the URL itself -/

theorem verify_at_start (hc : Checked ud) : Triple (fun w => w.disk = start) (m_verify_donestamp env ud)
    (fun stamped w => if stamped then Kept env ud start w ∧ w.disk.exists_ ud.localpath = true
      else NoStamp ud w) (Fails ud) := by
  unfold m_verify_donestamp
  simp only [hc.not_proxied, Bool.false_eq_true, ↓reduceIte]
  intro w hw
  refine (verify_donestamp_spec env hc w).mono (fun w' h => h) ?_ (fun _ _ h => h) w rfl
  intro stamped w' h
  cases stamped with
  | true =>
    obtain ⟨hnodes, hexists, hv⟩ := h
    refine ⟨kept_congr env hnodes fun hsupports => hw ▸ hv hsupports, ?_⟩
    simpa [Disk.exists_, stat_congr hnodes] using hexists
  | false => exact h

theorem verify_blank (hc : Checked ud) : Triple (fun w => Blank ud w ∨ Kept env ud start w)
    (verify_donestamp env ud none)
    (fun stamped w => if stamped then Kept env ud start w ∧ w.disk.exists_ ud.localpath = true
      else NoStamp ud w) (Fails ud) := by
  intro w hw
  refine (verify_donestamp_spec env hc w).mono (fun w' h => h) ?_ (fun _ _ h => h) w rfl
  intro stamped w' h
  cases stamped with
  | true =>
    obtain ⟨hnodes, hexists, hv⟩ := h
    refine ⟨kept_congr env hnodes fun hsupports => ?_, by simpa [Disk.exists_, stat_congr hnodes] using hexists⟩
    have hfile : Blank ud w → Verified env ud start w.disk := by
      intro hblank id hid sum hsum
      obtain ⟨content, mtime, hstat, hsums⟩ := hv hsupports id hid sum hsum
      refine ⟨content, mtime, hstat, hsums.imp_right ?_⟩
      rintro ⟨-, stamp, hstamp, -, data, hdata, -⟩
      simp [hblank stamp hstamp] at hdata
    rcases hw with hblank | hnone | hverified
    · exact hfile hblank
    · exact hfile fun stamp hstamp => absurd (hnone.symm.trans hstamp) (by simp)
    · exact hverified hsupports
  | false => exact h

theorem verify_kept (hc : Checked ud) : Triple (Kept env ud start) (m_verify_donestamp env ud)
    (fun _ => Kept env ud start) (Fails ud) := by
  unfold m_verify_donestamp
  simp only [hc.not_proxied, Bool.false_eq_true, ↓reduceIte]
  refine (verify_blank env hc).mono (fun w hw => Or.inr hw) ?_ fun _ _ h => h
  intro stamped w h
  cases stamped with
  | true => exact h.1
  | false => exact Or.inl h

theorem update_stamp_kept (hc : Checked ud) : Triple (Kept env ud start) (update_stamp env ud)
    (fun _ => Kept env ud start) (Fails ud) := by
  refine .reading fun w hw => ?_
  simp only [hc.needdonestamp, Bool.not_true, Bool.false_eq_true, ↓reduceIte]
  refine .ite (fun hstamp => .modify ?_) fun hstamp => ?_
  · rintro w' rfl
    refine kept_congr env (setStamp_nodes _ _ _) (hw.resolve_left fun hnone => ?_)
    rw [Disk.has_stamp, show w'.disk.stamps ud.donestamp = none from hnone] at hstamp
    cases hstamp
  · have hnone : NoStamp ud w := by simpa [Disk.has_stamp, NoStamp] using hstamp
    cases hverify : verify_checksum env ud w.disk [] with
    | ok checksums =>
      refine .modify ?_
      rintro w' rfl
      exact kept_congr env (setStamp_nodes _ _ _) fun hsupports =>
        verified_of_verify_nil env hc.not_ignored hsupports hverify
    | error e =>
      cases e with
      | ChecksumError sum =>
        exact (rename_remove_own env hc.no_pattern sum (.raise fun w hw _ => hw)).mono
          (fun _ _ => trivial) (fun _ _ h => h) fun _ _ h => h
      | _ =>
        refine .raise ?_
        rintro w' rfl _
        exact hnone

theorem update_kept (hc : Checked ud) : Triple (Kept env ud start) (m_update_donestamp env ud)
    (fun _ => Kept env ud start) (Fails ud) := by
  unfold m_update_donestamp
  simp only [hc.not_proxied, Bool.false_eq_true, ↓reduceIte]
  exact update_stamp_kept env hc

theorem update_verifies (hc : Checked ud) (w : World) :
    Triple (fun w' => w' = w) (m_update_donestamp env ud)
      (fun _ _ => Kept env ud start w → supports_checksum ud w.disk = true →
        Verified env ud start w.disk) fun _ _ => True := by
  unfold m_update_donestamp
  simp only [hc.not_proxied, Bool.false_eq_true, ↓reduceIte]
  refine .reading fun w' hw' => ?_
  subst hw'
  simp only [hc.needdonestamp, Bool.not_true, Bool.false_eq_true, ↓reduceIte]
  refine .ite (fun hstamp => .modify fun _ _ hkept hsupports => ?_) fun _ => ?_
  · refine hkept.resolve_left (fun hnone => ?_) hsupports
    rw [Disk.has_stamp, show w'.disk.stamps ud.donestamp = none from hnone] at hstamp
    cases hstamp
  · cases hverify : verify_checksum env ud w'.disk [] with
    | ok checksums =>
      exact .modify fun _ _ _ hsupports =>
        verified_of_verify_nil env hc.not_ignored hsupports hverify
    | error e =>
      cases e with
      | ChecksumError sum =>
        exact (rename_remove_own env hc.no_pattern sum (.raise fun _ _ => trivial)).mono
          (fun _ _ => trivial) (fun _ _ h => h) fun _ _ h => h
      | _ => exact .raise fun _ _ => trivial

/-! ## Downloads without a stamp -/

theorem noStamp_fails {e : Raised} {w : World} (h : NoStamp ud w) : Fails ud e w := fun _ => h

theorem noStamp_kept {w : World} (h : NoStamp ud w) : Kept env ud start w := Or.inl h

theorem call_fails : Triple (NoStamp ud) (call env) (fun _ => NoStamp ud) (Fails ud) :=
  (call_noStamp env).mono (fun _ h => h) (fun _ _ h => h) fun _ _ => noStamp_fails

theorem m_download_noStamp (ud' : FetchData) :
    Triple (NoStamp ud) (m_download env ud') (fun _ => NoStamp ud) (Fails ud) := by
  refine .bind (fun _ => NoStamp ud) (call_fails env) fun _ => .ite (fun _ => ?_) fun _ => .pure fun _ h => h
  exact .bind (fun _ => NoStamp ud) (call_fails env) fun _ => .pure fun _ h => h

theorem m_clean_noStamp (ud' : FetchData) :
    Triple (NoStamp ud) (m_clean_upon_failure env ud') (fun _ => NoStamp ud) (Fails ud) := by
  refine .ite (fun _ => ?_) fun _ => .pure fun _ h => h
  exact .bind (fun _ => NoStamp ud) (call_fails env) fun _ => .pure fun _ h => h

theorem m_need_update_noStamp (ud' : FetchData) :
    Triple (NoStamp ud) (m_need_update env ud') (fun _ => NoStamp ud) (Fails ud) := by
  refine .ite (fun _ => call_fails env) fun _ => .reading fun w hw => .pure ?_
  rintro w' rfl
  exact hw

theorem verify_mirror (ud' origud : FetchData) (hignore : ud'.ignore_checksums = true) :
    Triple (NoStamp ud) (verify_donestamp env ud' (some origud)) (fun _ => NoStamp ud) (Fails ud) := by
  refine .reading fun w hw => ?_
  have hsame : ∀ w', w' = w → NoStamp ud w' := fun w' h => h ▸ hw
  refine .ite (fun _ => .pure hsame) fun _ => .ite (fun _ => ?_) fun _ => .ite (fun _ => .pure hsame)
    fun _ => ?_
  · refine .ite (fun _ => .bind (fun _ => NoStamp ud) ?_ fun _ => .pure fun _ h => h) fun _ => .pure hsame
    exact (remove_noStamp env _ _).mono hsame (fun _ _ h => h) fun _ _ h => h
  · simp only [verify_checksum_ignored env hignore]
    refine .ite (fun _ => .pure hsame) fun hdiffers => .bind (fun _ => NoStamp ud) (.modify ?_)
      fun _ => .pure fun _ h => h
    rintro w' rfl
    refine noStamp_setStamp hw fun hpath => hdiffers ?_
    -- where there was no stamp there are no checksums that the new ones could differ from
    have hnone : w'.disk.stamps ud'.donestamp = none := hpath ▸ hw
    simp [precomputed_checksums, hnone, same_dict]

theorem mirror_download_if_needed (ud' origud : FetchData) (hignore : ud'.ignore_checksums = true) :
    Triple (NoStamp ud) (download_if_needed env ud' (some origud)) (fun _ => NoStamp ud) (Fails ud) := by
  refine .bind (fun _ => NoStamp ud) (verify_mirror env ud' origud hignore) fun stamped => ?_
  refine .ite (fun _ => ?_) fun _ => ?_
  · refine .bind (fun _ => NoStamp ud) (m_need_update_noStamp env ud') fun needed => ?_
    exact .ite (fun _ => m_download_noStamp env ud') fun _ => .pure fun _ h => h
  · exact .bind (fun _ => NoStamp ud) (.pure fun _ h => h) fun needed =>
      .ite (fun _ => m_download_noStamp env ud') fun _ => .pure fun _ h => h

theorem own_download_if_needed (hc : Checked ud) : Triple (Blank ud) (download_if_needed env ud none)
    (fun _ => Kept env ud start) (Fails ud) := by
  refine .bind (fun stamped w =>
      if stamped then Kept env ud start w ∧ w.disk.exists_ ud.localpath = true else NoStamp ud w)
    ((verify_blank env hc).mono (fun w hw => Or.inl hw) (fun _ _ h => h) fun _ _ h => h)
    fun stamped => ?_
  cases stamped with
  | true =>
    simp only [↓reduceIte, m_need_update, hc.need_update, Bool.false_eq_true]
    refine .bind (fun needed w => needed = false ∧ Kept env ud start w) (.reading fun w hw => .pure ?_)
      fun needed => .ite (fun hneeded => .of_not fun w hw => ?_) fun _ => .pure fun w hw => hw.2
    · rintro w' rfl
      exact ⟨by simp [hw.2], hw.1⟩
    · rw [hw.1] at hneeded
      cases hneeded
  | false =>
    simp only [Bool.false_eq_true, ↓reduceIte]
    refine .bind (fun _ => NoStamp ud) (.pure fun _ h => h) fun needed => ?_
    refine .ite (fun _ => ?_) fun _ => .pure fun _ h => noStamp_kept env h
    exact (m_download_noStamp env ud).mono (fun _ h => h) (fun _ _ h => noStamp_kept env h)
      fun _ _ h => h

/-! ## Mirrors -/

/-- What a search among the mirrors leaves. -/
def Found (ud : FetchData) (start : Disk) (found : Bool) (w : World) : Prop :=
  if found then Kept env ud start w else NoStamp ud w

theorem symlink_noStamp (target path : Path) (err : Raised → World → Prop) :
    Triple (NoStamp ud) (symlink target path) (fun _ => NoStamp ud) err :=
  .modify fun _ hw => hw

theorem noStamp_blank {w : World} (h : NoStamp ud w) : Blank ud w :=
  fun stamp hstamp => absurd (h.symm.trans hstamp) (by simp)

theorem blank_dump {path : Path} {w : World} (h : NoStamp ud w) :
    Blank ud (setStamp path (some ⟨w.now, none⟩) w) := by
  by_cases hpath : path = ud.donestamp
  · intro stamp hstamp
    simp only [setStamp, hpath, ↓reduceIte, Option.some.injEq] at hstamp
    rw [← hstamp]
  · exact noStamp_blank (noStamp_setStamp h hpath)

theorem tarball_found (hc : Checked ud) (target path : Path) : Triple (Blank ud)
    (do symlink_tarball target path; download_if_needed env ud none; pure (!ud.localpath.isEmpty))
    (Found env ud start) (Fails ud) := by
  refine .bind (fun _ => Blank ud) (.reading fun w hw => .ite (fun _ => .pure ?_) fun _ => .modify ?_)
    fun _ => .bind (fun _ => Kept env ud start) (own_download_if_needed env hc) fun _ => .pure ?_
  · rintro w' rfl
    exact hw
  · rintro w' rfl
    exact hw
  · intro w hw
    have hpath : (!ud.localpath.isEmpty) = true := by simpa using hc.localpath
    rw [hpath]
    exact hw

theorem try_mirror_url_found (hc : Checked ud) (mirror : FetchData)
    (hignore : mirror.ignore_checksums = true) :
    Triple (Found env ud start false) (try_mirror_url env ud mirror) (Found env ud start) (Fails ud) := by
  have hclean : Triple (NoStamp ud) (do m_clean_upon_failure env mirror; pure false)
      (Found env ud start) (Fails ud) :=
    .bind (fun _ => NoStamp ud) (m_clean_noStamp env mirror) fun _ => .pure fun _ h => h
  refine .attempt (Fails ud) ?_ fun e => ?_
  · refine .bind (fun _ => NoStamp ud) (mirror_download_if_needed env mirror ud hignore) fun _ => ?_
    refine .reading fun w hw => ?_
    have hhere : ∀ w', w' = w → NoStamp ud w' := fun w' h => h ▸ hw
    refine .ite (fun _ => .pure hhere) fun _ => .ite (fun _ => .pure fun w' h => Or.inl (hhere w' h))
      fun _ => .ite (fun _ => ?_) fun _ => ?_
    · refine .ite (fun _ => .bind (fun _ => Blank ud) (.modify ?_) fun _ => ?_) fun _ => ?_
      · rintro w' rfl
        exact blank_dump (hhere _ rfl)
      · exact tarball_found env hc _ _
      · exact (tarball_found env hc _ _).mono (fun w' h => noStamp_blank (hhere w' h))
          (fun _ _ h => h) fun _ _ h => h
    · refine .bind (fun _ => NoStamp ud) ?_ fun _ => ?_
      · refine .reading fun w' hw' => .ite (fun _ => .pure ?_) fun _ => ?_
        · rintro w'' rfl
          exact hhere _ hw'
        · refine (symlink_noStamp _ _ _).mono ?_ (fun _ _ h => h) fun _ _ h => h
          rintro w'' rfl
          exact hhere _ hw'
      · refine .bind (fun _ => Kept env ud start) ?_ fun _ => .pure fun w' h => h
        exact (update_stamp_kept env hc).mono (fun _ h => Or.inl h) (fun _ _ h => h) fun _ _ h => h
  · cases e with
    | NetworkAccess => exact .raise fun _ h => h
    | OSError errno =>
      exact .ite (fun _ => .pure fun w h => h (by simp)) fun _ => .raise fun _ h => h
    | ChecksumError sum =>
      refine .bind (fun _ => NoStamp ud) ?_ fun _ => hclean
      exact (rename_noStamp mirror sum _).mono (fun w h => h (by simp)) (fun _ _ h => h) fun _ _ h => h
    | NoChecksumError message => exact .raise fun _ h => h
    | FetchError => exact hclean.mono (fun w h => h (by simp)) (fun _ _ h => h) fun _ _ h => h
    | other => exact .raise fun _ h => h

theorem m_try_mirrors_found (hc : Checked ud) (uds : List FetchData) :
    Triple (NoStamp ud) (m_try_mirrors env ud uds) (Found env ud start) (Fails ud) := by
  unfold m_try_mirrors
  simp only [hc.not_proxied, Bool.false_eq_true, ↓reduceIte]
  exact .firstOf uds fun mirror _ => try_mirror_url_found env hc _ rfl

/-! ## The turn of a URL -/

theorem found_kept {found : Bool} {w : World} (h : Found env ud start found w) :
    Kept env ud start w := by
  cases found with
  | true => exact h
  | false => exact Or.inl h

theorem m_try_premirror_noStamp : Triple (NoStamp ud) (m_try_premirror env ud) (fun _ => NoStamp ud)
    (Fails ud) := .ite (fun _ => call_fails env) fun _ => .pure fun _ h => h

theorem early_update_found (hc : Checked ud) : Triple (Kept env ud start)
    (Prog.attempt (do m_update_donestamp env ud; pure true) fun
      | .ChecksumError _ => pure false
      | e => Prog.raise e) (Found env ud start) (Fails ud) := by
  refine .attempt (Fails ud) ?_ fun e => ?_
  · exact .bind (fun _ => Kept env ud start) (update_kept env hc) fun _ => .pure fun _ h => h
  · cases e with
    | ChecksumError sum => exact .pure fun w h => h (by simp)
    | _ => exact .raise fun _ h => h

theorem fetch_before_upstream_found (hc : Checked ud) :
    Triple (fun w => w.disk = start) (fetch_before_upstream env ud) (Found env ud start) (Fails ud) := by
  refine .bind _ (verify_at_start env hc) fun stamped => ?_
  cases stamped with
  | true =>
    -- the stamp is good, and the file is there
    simp only [↓reduceIte, m_need_update, hc.need_update, Bool.false_eq_true]
    refine .bind (fun update w => update = false ∧ Kept env ud start w) (.reading fun w hw => .pure ?_)
      fun update => .ite (fun _ => .pure fun w h => h.2) fun hupdate => .of_not fun w hw => ?_
    · rintro w' rfl
      exact ⟨by simp [hw.2], hw.1⟩
    · simp [hw.1] at hupdate
  | false =>
    simp only [Bool.false_eq_true, ↓reduceIte]
    refine .bind (fun _ => NoStamp ud) (.pure fun _ h => h) fun update =>
      .ite (fun _ => .pure fun w h => Or.inl h) fun _ => ?_
    refine .bind (fun _ => NoStamp ud) (m_try_premirror_noStamp env) fun premirror =>
      .ite (fun _ => ?_) fun _ => .pure fun _ h => h
    refine .bind (Found env ud start) (m_try_mirrors_found env hc _) fun found => ?_
    cases found with
    | true => exact early_update_found env hc
    | false => exact .pure fun _ h => h

theorem fetch_upstream_found (hc : Checked ud) (verified_stamp : Bool) :
    Triple (NoStamp ud) (fetch_upstream env ud verified_stamp) (Found env ud start) (Fails ud) := by
  have hmirrors : Triple (NoStamp ud)
      (do if verified_stamp then pure () else m_clean_upon_failure env ud
          m_try_mirrors env ud (env.mirrors ud)) (Found env ud start) (Fails ud) := by
    have hfound : Triple (NoStamp ud) (m_try_mirrors env ud (env.mirrors ud)) (Found env ud start)
        (Fails ud) := m_try_mirrors_found env hc _
    exact .ite (fun _ => hfound) fun _ =>
      .bind (fun _ => NoStamp ud) (m_clean_noStamp env ud) fun _ => hfound
  refine .attempt (Fails ud) ?_ fun e => ?_
  · have hrest : Triple (NoStamp ud) (do m_download env ud; m_update_donestamp env ud; pure true)
        (Found env ud start) (Fails ud) := by
      refine .bind (fun _ => NoStamp ud) (m_download_noStamp env ud) fun _ => ?_
      refine .bind (fun _ => Kept env ud start) ?_ fun _ => .pure fun _ h => h
      exact (update_kept env hc).mono (fun _ h => Or.inl h) (fun _ _ h => h) fun _ _ h => h
    exact .ite (fun _ => hrest) fun _ =>
      .bind (fun _ => NoStamp ud) (.raise fun _ h => noStamp_fails h) fun _ => hrest
  · cases e with
    | NetworkAccess => exact .raise fun _ h => h
    | OSError errno => exact .raise fun _ h => h
    | ChecksumError sum =>
      refine .bind (fun _ => NoStamp ud) ?_ fun _ => hmirrors
      exact (rename_noStamp ud sum _).mono (fun w h => h (by simp)) (fun _ _ h => h) fun _ _ h => h
    | NoChecksumError message => exact .raise fun _ h => h
    | FetchError => exact hmirrors.mono (fun w h => h (by simp)) (fun _ _ h => h) fun _ _ h => h
    | other => exact .raise fun _ h => h

/-- How the turn of a URL ends that does not raise: it is accepted, or an error is collected, or it is
dropped. -/
def Settled (ud : FetchData) (start : Disk) : Ending → Prop
  | .accepted done disk => done = true ∧
      (ud.method.proxied = false → disk.exists_ ud.localpath = true) ∧
      (Checked ud → supports_checksum ud disk = true → Verified env ud start disk)
  | .missing _ => True
  | .passed errno => errno ≠ ESTALE

theorem m_done_spec : Triple (fun w => Checked ud → Kept env ud start w) (m_done env ud)
    (fun held w => (held = true → ud.method.proxied = false → w.disk.exists_ ud.localpath = true) ∧
      (Checked ud → Kept env ud start w)) (fun _ _ => True) := by
  refine .ite (fun hproxied => Triple.anyhow.mono (fun _ h => h) (fun held w _ => ⟨?_, ?_⟩)
    fun _ _ h => h) fun _ => .reading fun w hw => .pure ?_
  · intro _ hnot
    rw [hproxied] at hnot
    cases hnot
  · exact fun hc => absurd (hproxied.symm.trans hc.not_proxied) (by simp)
  · rintro w' rfl
    exact ⟨fun h _ => h, hw⟩

theorem accept_settled (done : Bool) :
    Triple (fun w => Checked ud → Kept env ud start w) (accept env ud done)
      (fun ending _ => Settled env ud start ending) (fun _ _ => True) := by
  refine .bind (fun held w => (held = true → ud.method.proxied = false →
    w.disk.exists_ ud.localpath = true) ∧ (Checked ud → Kept env ud start w)) ?_ fun held => ?_
  · exact .ite (fun _ => m_done_spec env) fun _ => .pure fun w hw => ⟨fun h => (by cases h), hw⟩
  · refine .ite (fun hheld => .reading fun w hw => ?_) fun _ => .raise fun _ _ => trivial
    refine .bind (fun _ _ => Checked ud → supports_checksum ud w.disk = true →
      Verified env ud start w.disk) ?_ fun _ => .pure fun _ hv => ⟨hheld, hw.1 hheld, hv⟩
    by_cases hc : Checked ud
    · exact (update_verifies env hc w).mono (fun _ h => h) (fun _ _ h _ => h (hw.2 hc)) fun _ _ h => h
    · exact Triple.anyhow.mono (fun _ h => h) (fun _ _ _ h => absurd h hc) fun _ _ h => h

theorem second_look (done : Bool) : Triple (fun w => Checked ud → Found env ud start done w)
    (if done then m_verify_donestamp env ud else pure false)
    (fun _ w => Checked ud → Found env ud start done w) (fun _ _ => True) := by
  cases done with
  | true =>
    exact (Triple.under fun hc => verify_kept env hc).mono (fun _ h => h) (fun _ _ h => h)
      fun _ _ _ => trivial
  | false => exact .pure fun _ h => h

theorem go_upstream (done verified_stamp : Bool) :
    Triple (fun w => Checked ud → Found env ud start done w)
      (if done then pure false else if verified_stamp then m_need_update env ud else pure true)
      (fun upstream w => (done = true → upstream = false) ∧ (Checked ud → Found env ud start done w))
      (fun _ _ => True) := by
  cases done with
  | true => exact .pure fun _ h => ⟨fun _ => rfl, h⟩
  | false =>
    simp only [Bool.false_eq_true, ↓reduceIte, false_implies, true_and]
    refine .ite (fun _ => ?_) fun _ => .pure fun _ hw => hw
    exact (Triple.under fun _ => m_need_update_noStamp env ud).mono (fun _ h => h) (fun _ _ h => h)
      fun _ _ _ => trivial

theorem after_upstream (done upstream verified_stamp : Bool) :
    Triple (fun w => (done = true → upstream = false) ∧ (Checked ud → Found env ud start done w))
      (if upstream then fetch_upstream env ud verified_stamp else pure done)
      (fun done w => Checked ud → Found env ud start done w) (fun _ _ => True) := by
  cases upstream with
  | true =>
    cases done with
    | true => exact .of_not fun _ h => absurd (h.1 rfl) (by simp)
    | false =>
      exact (Triple.under fun hc => fetch_upstream_found env hc verified_stamp).mono (fun _ h => h.2)
        (fun _ _ h => h) fun _ _ _ => trivial
  | false => exact .pure fun _ h => h.2

theorem fetch_url_settled : Triple (fun w => w.disk = start) (fetch_url env ud)
    (fun ending _ => Settled env ud start ending) (fun _ _ => True) := by
  refine .attempt (fun _ _ => True) ?_ fun e => ?_
  · refine .bind (fun done w => Checked ud → Found env ud start done w) ?_ fun done =>
      .bind _ (second_look env done) fun verified_stamp =>
      .bind _ (go_upstream env done verified_stamp) fun upstream =>
      .bind _ (after_upstream env done upstream verified_stamp) fun done => ?_
    · exact (Triple.under fun hc => fetch_before_upstream_found env hc).mono (fun _ h _ => h)
        (fun _ _ h => h) fun _ _ _ => trivial
    · exact (accept_settled env done).mono (fun w h hc => found_kept env (h hc)) (fun _ _ h => h)
        fun _ _ h => h
  · cases e with
    | OSError errno =>
      exact .ite (fun _ => .raise fun _ _ => trivial) fun hstale => .pure fun _ _ => hstale
    | NoChecksumError message => exact .pure fun _ _ => trivial
    | _ => exact .raise fun _ _ => trivial

/-- The turn of a URL from the world in which it starts. -/
def Turn (ud : FetchData) (start : World) (ending : Ending) : Prop :=
  (fetch_url env ud start).1 = .ok ending

theorem turn_settled : Triple (fun _ => True) (fetch_url env ud)
    (fun ending _ => (∃ start, Turn env ud start ending ∧ Settled env ud start.disk ending) ∧ True)
    (fun _ _ => True) := by
  intro w _
  have hsettled := @fetch_url_settled env ud w.disk w rfl
  have hturn : ∀ ending, (fetch_url env ud w).1 = .ok ending → Turn env ud w ending := fun _ h => h
  revert hsettled hturn
  generalize fetch_url env ud w = result
  rcases result with ⟨_ | ending, after⟩
  · exact fun _ _ => trivial
  · exact fun hsettled hturn => ⟨⟨w, hturn ending rfl, hsettled⟩, trivial⟩

theorem download_settled (urls : List FetchData) : Triple (fun _ => True) (download env urls)
    (fun endings _ => List.Forall₂ (fun ud ending => (∃ start, Turn env ud start ending ∧
      Settled env ud start.disk ending) ∧ ∀ message, ending ≠ .missing message) urls endings)
    (fun _ _ => True) := by
  refine .bind _ (.collect (fun _ => True) (fun _ => turn_settled env) urls) fun endings =>
    .ite (fun _ => .raise fun _ _ => trivial) fun hnone => .pure fun _ h => ?_
  have hmissing : ∀ ending ∈ endings, ∀ message, ending ≠ .missing message := by
    rintro ending hmem message rfl
    exact hnone (List.any_eq_true.mpr ⟨_, hmem, rfl⟩)
  exact raising.forall₂_and_right h.1 hmissing

def sums_of_a : List (Text × Text) := [
  (text "md5", text "0cc175b9c0f1b6a831c399e269772661"),
  (text "sha256", text "ca978112ca1bbdcafac231b39a23dc4da786eff8147c4e72b9807785afee48bb"),
  (text "sha1", text "86f7e437faa5a7fce15d1ddcb9eaeaea377667b8"),
  (text "sha384", text "54a59b9f22b0b80880d8427e548b7c23abd873486e1f035dce9cd697e85175033caa88e6d57bc35efae0b5afd3145f31"),
  (text "sha512", text "1f40fc92da241694750979ee6cf582f2d5d7d28e18335de05abc54d0560e0f5302860c652bf08d560252aa5e74210546f369fbbbce8c12cfc7957b2652fe9a75")]

def digests (id : Text) (content : Bytes) : Digest :=
  match if content = [97] then sums_of_a.lookup id else none with
  | some (c :: cs) => ⟨c :: cs, by simp⟩
  | _ => ⟨text "00", by decide⟩

def wget : Method := ⟨false, true, true, true, false, false, false⟩

def local_ : Method := ⟨false, true, false, true, false, false, false⟩

def a_sum : Text → Option Text := fun id =>
  if id = text "sha256" then sums_of_a.lookup id else none

def http_url : FetchData where
  url := text "https://example.com/a"
  method := wget
  localpath := text "/downloads/a"
  donestamp := text "/downloads/a.done"
  needdonestamp := true
  ignore_checksums := false
  checksum_name := fun id => id ++ text "sum"
  checksum_expected := a_sum
  mirrortarballs := []

def file_url : FetchData := { http_url with
  url := text "file:///recipe/a"
  method := local_
  localpath := text "/recipe/a"
  needdonestamp := false }

def at_path (path : String) (content : Bytes) : Path → Option Node :=
  fun p => if p = text path then some (.file content 1) else none

/-- A host on which every call of a method does the same. -/
def host (outcome : Outcome) : Env where
  behaviour := fun _ => outcome
  checksum := digests
  strict := text "0"
  premirrors := fun _ => []
  mirrors := fun _ => []
  trusted_network := fun _ => true
  dldir := text "/downloads"
  glob := fun pattern p => pattern == p

def downloaded : Env := host ⟨at_path "/downloads/a" [97], 1, true, none⟩

def ENOSPC : Nat := 28

def full_disk : Env := host ⟨fun _ => none, 1, true, some (.OSError ENOSPC)⟩

def empty_world : World := ⟨⟨fun _ => none, fun _ => none⟩, 0, 0⟩

def recipe_world : World := ⟨⟨at_path "/recipe/a" [98], fun _ => none⟩, 0, 0⟩

def returned (urls : List FetchData) (env : Env) (w : World) : Bool :=
  match (download env urls w).1 with
  | .ok _ => true
  | .error _ => false

end yocto.fetch
