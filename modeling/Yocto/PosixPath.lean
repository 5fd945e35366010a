-- The functions of `os.path` on the text of a path.
import Mathlib.Data.List.DropRight
import Yocto.TaskIds

open yocto.task_ids

namespace yocto.posix_path

/-! ## The functions -/

/-- `path.endswith(os.path.sep)`. -/
def ends_with_sep (path : Text) : Bool := path.getLast? = some '/'

def isabs (path : Text) : Bool := path.head? = some '/'

def join (path part : Text) : Text :=
  if isabs part then part
  else if path = [] ∨ ends_with_sep path then path ++ part
  else path ++ '/' :: part

def head (path : Text) : Text := path.rdropWhile (· ≠ '/')

def dirname (path : Text) : Text :=
  if (head path).all (· = '/') then head path else (head path).rdropWhile (· = '/')

/-- One turn of the loop of `os.path.normpath`. -/
def norm_turn (initial_slashes : Nat) (new_comps : List Text) (comp : Text) : List Text :=
  if comp = [] ∨ comp = text "." then new_comps
  else if comp ≠ text ".." ∨ initial_slashes = 0 ∧ new_comps = [] ∨
      new_comps.getLast? = some (text "..") then new_comps ++ [comp]
  else new_comps.dropLast

/-- Two slashes at the start of a path stay, three are one. -/
def initial_slashes (path : Text) : Nat :=
  if (text "//").isPrefixOf path ∧ !(text "///").isPrefixOf path then 2
  else if isabs path then 1
  else 0

/-- `os.path.normpath`. -/
def normpath (path : Text) : Text :=
  if path = [] then text "."
  else
    let comps := (path.splitOn '/').foldl (norm_turn (initial_slashes path)) []
    let joined := List.replicate (initial_slashes path) '/' ++ ['/'].intercalate comps
    if joined = [] then text "." else joined

/-! ## What comes out of `normpath` -/

/-- A path that is slashes alone, or has none at its end. -/
def Trimmed (path : Text) : Prop := (∀ c ∈ path, c = '/') ∨ ends_with_sep path = false

theorem intercalate_concat_last (comps : List Text) {comp : Text} (hne : comp ≠ []) :
    (['/'].intercalate (comps ++ [comp])).getLast? = comp.getLast? := by
  induction comps with
  | nil => simp
  | cons first comps ih =>
    obtain ⟨second, rest, hrest⟩ : ∃ second rest, comps ++ [comp] = second :: rest :=
      List.exists_cons_of_ne_nil (by simp)
    rw [hrest] at ih
    rw [List.cons_append, hrest, List.intercalate_cons_cons, List.getLast?_append, ih]
    cases hlast : comp.getLast? with
    | none => exact absurd (List.getLast?_eq_none_iff.mp hlast) hne
    | some c => rfl

theorem norm_comps {slashes : Nat} {comps new_comps : List Text} (hcomps : ∀ comp ∈ comps, '/' ∉ comp)
    (hnew : ∀ comp ∈ new_comps, comp ≠ [] ∧ '/' ∉ comp) :
    ∀ comp ∈ comps.foldl (norm_turn slashes) new_comps, comp ≠ [] ∧ '/' ∉ comp := by
  induction comps generalizing new_comps with
  | nil => exact hnew
  | cons comp comps ih =>
    rw [List.forall_mem_cons] at hcomps
    refine ih hcomps.2 ?_
    unfold norm_turn
    split_ifs with hskip hkeep
    · exact hnew
    · intro comp' hmem
      rcases List.mem_append.mp hmem with hmem | hmem
      · exact hnew comp' hmem
      · obtain rfl := List.mem_singleton.mp hmem
        exact ⟨fun hempty => hskip (.inl hempty), hcomps.1⟩
    · exact fun comp' hmem => hnew comp' (List.mem_of_mem_dropLast hmem)

theorem normpath_trimmed (path : Text) : Trimmed (normpath path) := by
  unfold normpath
  split_ifs with hempty
  · exact .inr (by decide)
  · dsimp only
    split_ifs with hjoined
    · exact .inr (by decide)
    · have hcomps : ∀ comp ∈ (path.splitOn '/').foldl (norm_turn (initial_slashes path)) [],
          comp ≠ [] ∧ '/' ∉ comp :=
        norm_comps (fun comp => not_mem_of_mem_splitOn) (by simp)
      rcases List.eq_nil_or_concat ((path.splitOn '/').foldl (norm_turn (initial_slashes path)) []) with
        hnil | ⟨comps, comp, hconcat⟩
      · left
        rw [hnil]
        intro c hc
        rw [List.intercalate_nil, List.append_nil] at hc
        exact List.eq_of_mem_replicate hc
      · right
        rw [List.concat_eq_append] at hconcat
        rw [hconcat] at hcomps ⊢
        obtain ⟨hne, hslash⟩ := hcomps comp (by simp)
        rw [ends_with_sep, List.getLast?_append, intercalate_concat_last comps hne]
        cases hlast : comp.getLast? with
        | none => exact absurd (List.getLast?_eq_none_iff.mp hlast) hne
        | some c =>
          have hc : c ≠ '/' := fun heq => hslash (heq ▸ List.mem_of_getLast? hlast)
          simp [hc]

/-! ## Paths and their ends -/

theorem slash_in_append {s d q r : Text} (hd : '/' ∉ d) (h : s ++ d = q ++ '/' :: r) :
    ∃ c, s = q ++ '/' :: c ∧ r = c ++ d := by
  rcases List.append_eq_append_iff.mp h with ⟨a, rfl, rfl⟩ | ⟨c, rfl, hcd⟩
  · exact absurd (by simp) hd
  · cases c with
    | nil =>
      rw [List.nil_append] at hcd
      exact absurd (hcd ▸ List.mem_cons_self) hd
    | cons x c =>
      rw [List.cons_append, List.cons.injEq] at hcd
      exact ⟨c, by rw [hcd.1], hcd.2⟩

theorem ends_with_sep_concat (s : Text) : ends_with_sep (s ++ ['/']) = true := by
  simp [ends_with_sep]

theorem exists_of_ends_with_sep {s : Text} (h : ends_with_sep s = true) : ∃ t, s = t ++ ['/'] := by
  rcases List.eq_nil_or_concat s with rfl | ⟨t, c, rfl⟩
  · simp [ends_with_sep] at h
  · rw [List.concat_eq_append] at h ⊢
    obtain rfl : c = '/' := by simpa [ends_with_sep] using h
    exact ⟨t, rfl⟩

theorem join_eq {path part : Text} (hne : path ≠ []) (hpart : '/' ∉ part) :
    join path part = (if ends_with_sep path then path else path ++ ['/']) ++ part := by
  have habs : isabs part = false := by
    cases part with
    | nil => rfl
    | cons c part =>
      have : c ≠ '/' := fun heq => hpart (heq ▸ List.mem_cons_self)
      simp [isabs, this]
  rw [join, habs]
  simp only [hne, false_or, Bool.false_eq_true, if_false]
  split <;> simp

theorem head_spec (path : Text) : ∃ last, path = head path ++ last ∧ '/' ∉ last ∧
    (head path = [] ∨ ends_with_sep (head path) = true) := by
  refine ⟨path.rtakeWhile (· ≠ '/'), (List.rdropWhile_append_rtakeWhile).symm, ?_, ?_⟩
  · intro hmem
    simpa using List.mem_rtakeWhile_imp hmem
  · by_cases hne : head path = []
    · exact .inl hne
    · right
      have hlast : ¬decide ((head path).getLast hne ≠ '/') = true := List.rdropWhile_last_not _ _ hne
      have hlast : (head path).getLast hne = '/' := by simpa using hlast
      rw [ends_with_sep, List.getLast?_eq_some_getLast hne, hlast]
      rfl

theorem normpath_ne_nil (path : Text) : normpath path ≠ [] := by
  unfold normpath
  split_ifs with hempty
  · decide
  · dsimp only
    split_ifs with hjoined
    · decide
    · exact hjoined

/-! ## Below a directory -/

/-- A directory as the prefix of the paths below it: slashes alone, or one slash after a path that
has none at its end. -/
structure IsRoot (root : Text) : Prop where
  sep : ends_with_sep root = true
  trimmed : (∀ c ∈ root, c = '/') ∨ ∃ dir, root = dir ++ ['/'] ∧ dir ≠ [] ∧ ends_with_sep dir = false

def with_sep (path : Text) : Text := if ends_with_sep path then path else path ++ ['/']

theorem with_sep_isRoot {path : Text} (hne : path ≠ []) (h : Trimmed path) : IsRoot (with_sep path) := by
  unfold with_sep
  rcases h with hall | hsep
  · have hsep : ends_with_sep path = true := by
      rw [ends_with_sep, List.getLast?_eq_some_getLast hne, hall _ (List.getLast_mem hne)]
      rfl
    rw [if_pos hsep]
    exact ⟨hsep, .inl hall⟩
  · rw [if_neg (by simp [hsep])]
    exact ⟨ends_with_sep_concat path, .inr ⟨path, rfl, hne, hsep⟩⟩

theorem IsRoot.ne_nil {root : Text} (hroot : IsRoot root) : root ≠ [] := by
  rintro rfl
  simpa [ends_with_sep] using hroot.sep

def Below (root path : Text) : Prop :=
  root <+: path ∨ root = path ++ ['/'] ∧ path ≠ [] ∧ ends_with_sep path = false

/-- `q` is `path`, or what stands before one of its slashes. -/
def Boundary (q path : Text) : Prop := path = q ∨ ∃ r, path = q ++ '/' :: r

theorem Below.prefix_sep {root path : Text} (h : Below root path) : root <+: path ++ ['/'] := by
  rcases h with h | ⟨rfl, -, -⟩
  · exact h.trans (List.prefix_append path ['/'])
  · exact List.prefix_refl _

theorem Below.ne_nil {root path : Text} (hroot : IsRoot root) (h : Below root path) : path ≠ [] := by
  rcases h with h | ⟨-, h, -⟩
  · rintro rfl
    exact hroot.ne_nil (List.prefix_nil.mp h)
  · exact h

theorem join_below {root path part : Text} (hroot : IsRoot root) (h : Below root path)
    (hpart : '/' ∉ part) : root <+: join path part ∧
      (∀ q r, join path part = q ++ '/' :: r → Boundary q path) ∧
      ∃ dir, join path part = dir ++ part ∧ ends_with_sep dir = true := by
  rw [join_eq (h.ne_nil hroot) hpart]
  split
  · rename_i hsep
    refine ⟨?_, ?_, path, rfl, hsep⟩
    · rcases h with h | ⟨-, -, hno⟩
      · exact h.trans (List.prefix_append path part)
      · rw [hno] at hsep
        cases hsep
    · intro q r heq
      obtain ⟨c, hpath, -⟩ := slash_in_append hpart heq
      exact .inr ⟨c, hpath⟩
  · refine ⟨?_, ?_, path ++ ['/'], rfl, ends_with_sep_concat path⟩
    · exact h.prefix_sep.trans (List.prefix_append _ part)
    · intro q r heq
      obtain ⟨c, hpath, -⟩ := slash_in_append hpart heq
      rcases List.eq_nil_or_concat c with rfl | ⟨c, x, rfl⟩
      · exact .inl (List.append_inj_left' hpath rfl)
      · rw [List.concat_eq_append, ← List.cons_append, ← List.append_assoc] at hpath
        exact .inr ⟨c, List.append_inj_left' hpath rfl⟩

theorem dirname_below {root path : Text} (hroot : IsRoot root) (h : root <+: path) :
    Below root (dirname path) ∧ ∀ q, Boundary q (dirname path) → root <+: q →
      ends_with_sep q = true ∨ ∃ r, path = q ++ '/' :: r := by
  obtain ⟨last, hpath, hlast, hend⟩ := head_spec path
  have hhead : root <+: head path := by
    obtain ⟨dir, hdir⟩ := exists_of_ends_with_sep hroot.sep
    obtain ⟨rest, hrest⟩ := h
    rw [hpath, hdir, List.append_assoc, List.singleton_append] at hrest
    obtain ⟨c, hc, -⟩ := slash_in_append hlast hrest.symm
    exact ⟨c, by rw [hc, hdir, List.append_assoc, List.singleton_append]⟩
  unfold dirname
  split
  · -- nothing but slashes: the directory itself
    rename_i hall
    refine ⟨.inl hhead, fun q hq hrootq => .inl ?_⟩
    have hmem : ∀ c ∈ q, c = '/' := by
      have hall : ∀ c ∈ head path, c = '/' := by simpa using hall
      intro c hc
      rcases hq with hq | ⟨r, hq⟩
      · exact hall c (by rw [hq]; exact hc)
      · exact hall c (by rw [hq]; exact List.mem_append_left _ hc)
    have hne : q ≠ [] := by
      rintro rfl
      exact hroot.ne_nil (List.prefix_nil.mp hrootq)
    rw [ends_with_sep, List.getLast?_eq_some_getLast hne, hmem _ (List.getLast_mem hne)]
    rfl
  · rename_i hall
    have hsome : (head path).rdropWhile (· = '/') ≠ [] := by
      intro hnil
      rw [List.rdropWhile_eq_nil_iff] at hnil
      exact hall (List.all_eq_true.mpr hnil)
    have hno : ends_with_sep ((head path).rdropWhile (· = '/')) = false := by
      have := List.rdropWhile_last_not _ _ hsome
      rw [ends_with_sep, List.getLast?_eq_some_getLast hsome]
      simpa using this
    obtain ⟨slashes, hslashes, hall⟩ : ∃ slashes, (head path).rdropWhile (· = '/') ++ slashes = head path ∧
        ∀ c ∈ slashes, c = '/' :=
      ⟨(head path).rtakeWhile (· = '/'), List.rdropWhile_append_rtakeWhile, fun c hc => by
        simpa using List.mem_rtakeWhile_imp hc⟩
    generalize (head path).rdropWhile (· = '/') = dir at *
    have hne : head path ≠ [] := by
      intro hnil
      rw [hnil] at hslashes
      exact hsome (List.append_eq_nil_iff.mp hslashes).1
    obtain ⟨more, rfl⟩ : ∃ more, slashes = '/' :: more := by
      cases slashes with
      | nil =>
        rw [List.append_nil] at hslashes
        have := hend.resolve_left hne
        rw [← hslashes, hno] at this
        cases this
      | cons c more => exact ⟨more, by rw [hall c List.mem_cons_self]⟩
    have hproper : path = dir ++ '/' :: (more ++ last) := by
      rw [hpath, ← hslashes, List.append_assoc, List.cons_append]
    refine ⟨?_, fun q hq _ => .inr ?_⟩
    · rw [← hslashes] at hhead
      obtain ⟨rest, hrest⟩ := hhead
      rcases List.append_eq_append_iff.mp hrest with ⟨a, rfl, -⟩ | ⟨c, hc, hrest⟩
      · exact .inl (List.prefix_append root a)
      · rcases List.eq_nil_or_concat c with rfl | ⟨c, x, rfl⟩
        · rw [List.append_nil] at hc
          exact .inl (by rw [hc])
        · -- the directory is `dir` and slashes, so it is `dir` and one slash
          rw [List.concat_eq_append] at hc hrest
          have hslash : ∀ y ∈ c ++ [x], y = '/' := fun y hy =>
            hall y (by rw [hrest]; exact List.mem_append_left _ hy)
          rcases hroot.trimmed with hroot | ⟨dir', hdir', -, hno'⟩
          · have hmem : dir.getLast hsome ∈ root := by
              rw [hc]
              exact List.mem_append_left _ (List.getLast_mem hsome)
            have : ends_with_sep dir = true := by
              rw [ends_with_sep, List.getLast?_eq_some_getLast hsome, hroot _ hmem]
              rfl
            rw [hno] at this
            cases this
          · rcases List.eq_nil_or_concat c with rfl | ⟨c, y, rfl⟩
            · have hx : x = '/' := hslash x (by simp)
              rw [hx] at hc
              exact .inr ⟨hc, hsome, hno⟩
            · have hy : y = '/' := hslash y (by simp)
              rw [hdir', hy, List.concat_eq_append, ← List.append_assoc, ← List.append_assoc] at hc
              have hdir : dir' = dir ++ c ++ ['/'] := (List.append_inj' hc rfl).1
              rw [hdir, ends_with_sep_concat] at hno'
              cases hno'
    · rcases hq with rfl | ⟨r, rfl⟩
      · exact ⟨more ++ last, hproper⟩
      · exact ⟨r ++ '/' :: (more ++ last), by rw [hproper, List.append_assoc, List.cons_append]⟩

end yocto.posix_path
