-- Absolute paths by their components. A directory is a list of names, and a text leads from
-- one directory to another, up and down its components.
import Yocto.PosixPath

open yocto.task_ids yocto.posix_path

namespace yocto.path_components

/-! ## The functions -/

/-- `os.path.abspath`. -/
def abspath (cwd path : Text) : Text := normpath (if isabs path then path else join cwd path)

/-- `os.path.commonprefix` of two lists, as its length. -/
def common : List Text → List Text → Nat
  | a :: as, b :: bs => if a = b then common as bs + 1 else 0
  | _, _ => 0

def parts (cwd path : Text) : List Text := ((abspath cwd path).splitOn '/').filter (· ≠ [])

def join_all : List Text → Text
  | [] => []
  | first :: rest => rest.foldl join first

/-- `os.path.relpath`, for a path that is not empty. -/
def relpath (cwd path start : Text) : Text :=
  let start_list := parts cwd start
  let path_list := parts cwd path
  let i := common start_list path_list
  let rel_list := List.replicate (start_list.length - i) (text "..") ++ path_list.drop i
  if rel_list = [] then text "." else join_all rel_list

/-! ## Directories -/

structure Component (name : Text) : Prop where
  nonempty : name ≠ []
  no_slash : '/' ∉ name
  not_dot : name ≠ text "."
  not_dotdot : name ≠ text ".."

/-- A place below the root. -/
structure Directory where
  comps : List Text
  named : ∀ c ∈ comps, Component c

def joined (comps : List Text) : Text := comps.flatMap fun c => '/' :: c

/-- The absolute path that is normalised. -/
def Directory.path (d : Directory) : Text := if d.comps = [] then ['/'] else joined d.comps

def step (dir : List Text) (comp : Text) : List Text :=
  if comp = [] ∨ comp = text "." then dir
  else if comp = text ".." then dir.dropLast
  else dir ++ [comp]

/-- The components of what a text leads to, followed from a directory. An empty text leads nowhere. -/
def resolve (dir : List Text) (link : Text) : Option (List Text) :=
  if link = [] then none
  else some ((link.splitOn '/').foldl step (if isabs link then [] else dir))

/-! ## Texts and their components -/

theorem splitOn_root (b : Text) : ('/' :: b).splitOn '/' = [] :: b.splitOn '/' := List.splitOn_append_cons_self [] b

@[simp] theorem joined_nil : joined [] = [] := rfl

@[simp] theorem joined_cons (c : Text) (comps : List Text) : joined (c :: comps) = '/' :: c ++ joined comps := by
  simp [joined]

theorem joined_append (a b : List Text) : joined (a ++ b) = joined a ++ joined b := by
  simp [joined]

theorem splitOn_joined {comps : List Text} (h : ∀ c ∈ comps, '/' ∉ c) (c : Text) (hc : '/' ∉ c) :
    (c ++ joined comps).splitOn '/' = c :: comps := by
  induction comps generalizing c with
  | nil => rw [joined_nil, List.append_nil, List.splitOn_eq_singleton hc]
  | cons d comps ih =>
    rw [List.forall_mem_cons] at h
    rw [joined_cons, List.cons_append, List.splitOn_append_cons_self, List.splitOn_eq_singleton hc, ih h.2 d h.1]
    rfl

theorem not_isabs {c : Text} (hne : c ≠ []) (hc : '/' ∉ c) (s : Text) : isabs (c ++ s) = false := by
  obtain ⟨x, c, rfl⟩ := List.exists_cons_of_ne_nil hne
  have hx : x ≠ '/' := fun heq => hc (heq ▸ List.mem_cons_self)
  simp [isabs, hx]

/-! ## Steps -/

@[simp] theorem step_nil (dir : List Text) : step dir [] = dir := by simp [step]

@[simp] theorem step_dot (dir : List Text) : step dir (text ".") = dir := by simp [step]

@[simp] theorem step_dotdot (dir : List Text) : step dir (text "..") = dir.dropLast := by
  simp [step, text]

theorem step_component {c : Text} (h : Component c) (dir : List Text) : step dir c = dir ++ [c] := by
  simp [step, h.nonempty, h.not_dot, h.not_dotdot]

theorem steps_down {comps : List Text} (h : ∀ c ∈ comps, Component c) (dir : List Text) :
    comps.foldl step dir = dir ++ comps := by
  induction comps generalizing dir with
  | nil => simp
  | cons c comps ih =>
    rw [List.forall_mem_cons] at h
    rw [List.foldl_cons, step_component h.1, ih h.2]
    simp

theorem steps_up (k : ℕ) (dir : List Text) :
    (List.replicate k (text "..")).foldl step dir = dir.take (dir.length - k) := by
  induction k generalizing dir with
  | zero => simp
  | succ k ih =>
    rw [List.replicate_succ, List.foldl_cons, step_dotdot, ih, List.dropLast_eq_take, List.take_take,
      List.length_take]
    congr 1
    omega

theorem step_named {dir : List Text} (hdir : ∀ c ∈ dir, Component c) {comp : Text} (h : '/' ∉ comp) :
    ∀ c ∈ step dir comp, Component c := by
  intro c hc
  unfold step at hc
  split_ifs at hc with hskip hup
  · exact hdir c hc
  · exact hdir c (List.mem_of_mem_dropLast hc)
  · rcases List.mem_append.mp hc with hc | hc
    · exact hdir c hc
    · rw [List.mem_singleton.mp hc]
      exact ⟨fun hempty => hskip (Or.inl hempty), h, fun hdot => hskip (Or.inr hdot), hup⟩

theorem steps_named {comps dir : List Text} (hdir : ∀ c ∈ dir, Component c) (h : ∀ c ∈ comps, '/' ∉ c) :
    ∀ c ∈ comps.foldl step dir, Component c := by
  induction comps generalizing dir with
  | nil => exact hdir
  | cons comp comps ih =>
    rw [List.forall_mem_cons] at h
    exact ih (step_named hdir h.1) h.2

/-! ## Normalised paths -/

theorem norm_turn_eq {slashes : ℕ} (hslashes : slashes ≠ 0) {dir : List Text} (hdir : ∀ c ∈ dir, Component c)
    (comp : Text) : norm_turn slashes dir comp = step dir comp := by
  have hlast : dir.getLast? ≠ some (text "..") := by
    intro h
    exact (hdir _ (List.mem_of_getLast? h)).not_dotdot rfl
  unfold norm_turn step
  split
  · rfl
  · simp only [hslashes, hlast, false_and, or_false]
    by_cases hup : comp = text ".."
    · simp [hup]
    · simp [hup]

theorem norm_turns_eq {slashes : ℕ} (hslashes : slashes ≠ 0) {comps dir : List Text}
    (hdir : ∀ c ∈ dir, Component c) (h : ∀ c ∈ comps, '/' ∉ c) :
    comps.foldl (norm_turn slashes) dir = comps.foldl step dir := by
  induction comps generalizing dir with
  | nil => rfl
  | cons comp comps ih =>
    rw [List.forall_mem_cons] at h
    rw [List.foldl_cons, List.foldl_cons, norm_turn_eq hslashes hdir]
    exact ih (step_named hdir h.1) h.2

theorem initial_slashes_ne_zero {path : Text} (h : isabs path = true) : initial_slashes path ≠ 0 := by
  unfold initial_slashes
  rw [h]
  split_ifs <;> simp_all

theorem normpath_parts {path : Text} (h : isabs path = true) :
    ((normpath path).splitOn '/').filter (· ≠ []) = (path.splitOn '/').foldl step [] := by
  have hslashes := initial_slashes_ne_zero h
  have hcomps := @steps_named (path.splitOn '/') [] (by simp) (fun c hc => not_mem_of_mem_splitOn hc)
  have hne : path ≠ [] := by
    rintro rfl
    cases h
  unfold normpath
  rw [if_neg hne, norm_turns_eq hslashes (by simp) fun c hc => not_mem_of_mem_splitOn hc]
  generalize (path.splitOn '/').foldl step [] = comps at hcomps
  obtain ⟨k, hk⟩ := Nat.exists_eq_succ_of_ne_zero hslashes
  dsimp only
  rw [hk, if_neg (by simp [List.replicate_succ])]
  clear hk
  have hslash : ∀ k (s : Text), ((List.replicate k '/' ++ s).splitOn '/').filter (· ≠ []) =
      (s.splitOn '/').filter (· ≠ []) := by
    intro k s
    induction k with
    | zero => rfl
    | succ k ih =>
      rw [List.replicate_succ, List.cons_append, splitOn_root, List.filter_cons_of_neg (by simp), ih]
  rw [hslash]
  by_cases hnil : comps = []
  · simp [hnil]
  · rw [List.splitOn_intercalate '/' (fun c hc => (hcomps c hc).no_slash) hnil, List.filter_eq_self]
    intro c hc
    simpa using (hcomps c hc).nonempty

theorem parts_eq {cwd path : Text} (h : isabs (if isabs path then path else join cwd path) = true) :
    parts cwd path = ((if isabs path then path else join cwd path).splitOn '/').foldl step [] :=
  normpath_parts h

theorem Directory.slashless (d : Directory) : ∀ c ∈ d.comps, '/' ∉ c := fun c hc => (d.named c hc).no_slash

theorem Directory.path_of_ne_nil {d : Directory} (h : d.comps ≠ []) : d.path = joined d.comps := if_neg h

theorem Directory.path_isabs (d : Directory) : isabs d.path = true := by
  unfold Directory.path
  split
  · rfl
  · rename_i hne
    obtain ⟨c, comps, hcomps⟩ := List.exists_cons_of_ne_nil hne
    rw [hcomps, joined_cons]
    rfl

theorem Directory.steps_path (d : Directory) : (d.path.splitOn '/').foldl step [] = d.comps := by
  unfold Directory.path
  split
  · rename_i hnil
    rw [splitOn_root, hnil]
    simp
  · have hsplit := splitOn_joined (fun c hc => (d.named c hc).no_slash) [] (by simp)
    rw [List.nil_append] at hsplit
    rw [hsplit, List.foldl_cons, step_nil, steps_down d.named, List.nil_append]

theorem Directory.parts_path (cwd : Text) (d : Directory) : parts cwd d.path = d.comps := by
  have h := d.path_isabs
  rw [parts_eq (by rw [if_pos h, h]), if_pos h, d.steps_path]

/-! ## Relative paths -/

theorem common_spec (a b : List Text) :
    common a b ≤ a.length ∧ common a b ≤ b.length ∧ a.take (common a b) = b.take (common a b) := by
  fun_induction common a b with
  | case1 x as bs ih => simpa using ih
  | case2 x as y bs hne => simp
  | case3 => simp

/-- A component between two slashes, or behind the last one. -/
structure Piece (c : Text) : Prop where
  nonempty : c ≠ []
  no_slash : '/' ∉ c

theorem Component.piece {c : Text} (h : Component c) : Piece c := ⟨h.nonempty, h.no_slash⟩

theorem Piece.no_sep {c : Text} (h : Piece c) (s : Text) : ends_with_sep (s ++ c) = false := by
  unfold ends_with_sep
  rw [List.getLast?_append_of_ne_nil _ h.nonempty, decide_eq_false_iff_not]
  intro hlast
  exact h.no_slash (List.mem_of_getLast? hlast)

theorem Piece.join {c : Text} (h : Piece c) {s : Text} (hne : s ≠ []) (hs : ends_with_sep s = false) :
    join s c = s ++ '/' :: c := by
  rw [join_eq hne h.no_slash, hs]
  simp

theorem join_pieces {comps : List Text} (h : ∀ c ∈ comps, Piece c) {s : Text} (hne : s ≠ [])
    (hs : ends_with_sep s = false) : comps.foldl join s = s ++ joined comps := by
  induction comps generalizing s with
  | nil => simp
  | cons c comps ih =>
    rw [List.forall_mem_cons] at h
    have hform : s ++ '/' :: c = (s ++ ['/']) ++ c := by simp
    rw [List.foldl_cons, h.1.join hne hs, ih h.2 (by simp) (by rw [hform, h.1.no_sep])]
    simp

theorem resolve_join_all (dir : List Text) {comps : List Text} (hne : comps ≠ []) (h : ∀ c ∈ comps, Piece c) :
    resolve dir (join_all comps) = some (comps.foldl step dir) := by
  obtain ⟨c, comps, rfl⟩ := List.exists_cons_of_ne_nil hne
  rw [List.forall_mem_cons] at h
  have hjoin : join_all (c :: comps) = c ++ joined comps := join_pieces h.2 h.1.nonempty (h.1.no_sep [])
  unfold resolve
  rw [hjoin, if_neg (by simp [h.1.nonempty]), not_isabs h.1.nonempty h.1.no_slash,
    splitOn_joined (fun d hd => (h.2 d hd).no_slash) c h.1.no_slash]
  rfl

theorem resolve_relpath (dir : List Text) (cwd start : Text) (target : Directory) :
    resolve dir (relpath cwd target.path start) =
      some (dir.take (dir.length - ((parts cwd start).length - common (parts cwd start) target.comps)) ++
        target.comps.drop (common (parts cwd start) target.comps)) := by
  unfold relpath
  rw [target.parts_path]
  dsimp only
  generalize common (parts cwd start) target.comps = i
  generalize (parts cwd start).length - i = k
  have hdown : ∀ c ∈ target.comps.drop i, Component c := fun c hc => target.named c (List.mem_of_mem_drop hc)
  have hsteps : (List.replicate k (text "..") ++ target.comps.drop i).foldl step dir =
      dir.take (dir.length - k) ++ target.comps.drop i := by
    rw [List.foldl_append, steps_up, steps_down hdown]
  rw [← hsteps]
  split
  · rename_i hnil
    rw [hnil]
    simp [resolve, text, isabs, List.splitOn_eq_singleton, step]
  · rename_i hne
    apply resolve_join_all dir hne
    intro c hc
    rcases List.mem_append.mp hc with hc | hc
    · rw [List.eq_of_mem_replicate hc]
      exact ⟨by decide, by decide⟩
    · exact (hdown c hc).piece

end yocto.path_components
