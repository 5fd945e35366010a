-- Symbolic links that are made relative (oe.path).
import Yocto.ListSearch
import Yocto.PathComponents

open yocto.task_ids yocto.posix_path yocto.path_components

namespace yocto.relative_links

/-! ## The program -/

/-- `s.rpartition('/')[0]`. -/
def rpartition_sep (s : Text) : Text := (head s).dropLast

/-- `s.partition(sep)[2]`. -/
def partition_behind (sep s : Text) : Text :=
  match list_search.find sep s with
  | some i => s.drop (i + sep.length)
  | none => []

/-- `s.rpartition(sep)[2]`: what stands behind the last `sep`. -/
def rpartition_behind (sep s : Text) : Text :=
  match list_search.find sep.reverse s.reverse with
  | some i => s.drop (s.length - i)
  | none => s

/-- The first loop: up from the path to a directory with which the target starts, if there is one.
-/
def find_ancestor (link : Text) : ℕ → Text → ℕ → Text × ℕ
  | 0, ancestor, depth => (ancestor, depth)
  | turns + 1, ancestor, depth =>
    if ancestor ≠ [] ∧ ¬ancestor <+: link then find_ancestor link turns (rpartition_sep ancestor) (depth + 1)
    else (ancestor, depth)

def go_up : ℕ → Text → Text
  | 0, base => base
  | 1, base => base
  | depth + 2, base => go_up (depth + 1) (text "../" ++ base)

/-- `s.strip('/')`. -/
def strip_sep (s : Text) : Text := (s.dropWhile (· = '/')).rdropWhile (· = '/')

inductive Made
  | nothing
  | no_common_ancestor
  | symlink (base : Text)
  deriving DecidableEq

/-- `make_relative_symlink`. `readlink` is what is in the link, and None where the path is no link. -/
def make_relative_symlink (readlink : Option Text) (path : Text) : Made :=
  match readlink with
  | none => .nothing
  | some link =>
    if isabs link then
      let (ancestor, depth) := find_ancestor link path.length path 0
      if ancestor = [] then .no_common_ancestor
      else .symlink (go_up depth (strip_sep (partition_behind ancestor link)))
    else .nothing

/-- What `replace_absolute_symlinks` does with a path that it walks over. -/
def replace_absolute_symlink (cwd basedir : Text) (readlink : Option Text) (path : Text) : Made :=
  match readlink with
  | none => .nothing
  | some link =>
    if isabs link then .symlink (relpath cwd link (dirname (rpartition_behind basedir path)))
    else .nothing

/-! ## Links -/

/-- A link that stands in a directory. -/
structure Link where
  dir : Directory
  name : Text
  named : Component name

def Link.place (l : Link) : Directory where
  comps := l.dir.comps ++ [l.name]
  named := by
    intro c hc
    rcases List.mem_append.mp hc with hc | hc
    · exact l.dir.named c hc
    · rw [List.mem_singleton.mp hc]
      exact l.named

/-- The text that is made, if one is made, leads from the directory `dir` to `target`. -/
def Made.LeadsTo (m : Made) (dir target : List Text) : Prop :=
  ∀ base, m = .symlink base → resolve dir base = some target

/-- A base directory, as any text that leads to it. The root is written as it is. -/
structure BaseDir where
  basedir : Text
  dir : Directory
  nonempty : basedir ≠ []
  root : dir.comps = [] → basedir = ['/']

/-- The path of a link below the base directory, as `os.walk` and `os.path.join` make it. -/
def BaseDir.path (b : BaseDir) (l : Link) : Text := l.place.comps.foldl join b.basedir

/-- Where the target starts with the text of a directory of the link, it is in that directory, and it
is neither the directory in which the link is nor the link nor below it. -/
structure Parted (l : Link) (target : Directory) : Prop where
  parted : ∀ comps, comps <+: l.place.comps → joined comps <+: target.path → comps <+: target.comps
  outside : ¬l.place.comps <+: target.comps
  elsewhere : target.comps = l.dir.comps → l.dir.comps = []

/-- The text of the base directory does not end with a slash and is not in the path again; or both the
base directory and the target are the root, and the link is in it. -/
def Once (b : BaseDir) (l : Link) (target : Directory) : Prop :=
  (ends_with_sep b.basedir = false ∧ ¬b.basedir <:+: (b.path l).drop 1) ∨
    (b.dir.comps = [] ∧ l.dir.comps = [] ∧ target.comps = [])

/-! ## The common ancestor -/

theorem head_append {c : Text} (h : '/' ∉ c) (s : Text) : head (s ++ '/' :: c) = s ++ ['/'] := by
  unfold head
  induction c using List.reverseRecOn with
  | nil => exact List.rdropWhile_concat_neg _ _ _ (by simp)
  | append_singleton c x ih =>
    have hx : x ≠ '/' := fun heq => h (by simp [heq])
    rw [← List.cons_append, ← List.append_assoc, List.rdropWhile_concat_pos _ _ _ (by simpa using hx)]
    exact ih fun hmem => h (List.mem_append_left _ hmem)

theorem joined_concat (comps : List Text) (c : Text) : joined (comps ++ [c]) = joined comps ++ '/' :: c := by
  simp [joined_append]

theorem rpartition_joined (comps : List Text) {c : Text} (h : Component c) :
    rpartition_sep (joined (comps ++ [c])) = joined comps := by
  unfold rpartition_sep
  rw [joined_concat, head_append h.no_slash, List.dropLast_concat]

theorem length_le_joined (comps : List Text) : comps.length ≤ (joined comps).length := by
  induction comps with
  | nil => simp
  | cons c comps ih =>
    rw [joined_cons]
    simp only [List.length_append, List.length_cons]
    omega

theorem find_ancestor_spec (link : Text) {comps : List Text} (h : ∀ c ∈ comps, Component c) {turns : ℕ}
    (hturns : comps.length ≤ turns) (depth : ℕ) :
    ∃ found rest, comps = found ++ rest ∧
      find_ancestor link turns (joined comps) depth = (joined found, depth + rest.length) ∧
      (found = [] ∨ joined found <+: link) ∧ ∀ a, a <+: comps → joined a <+: link → a <+: found := by
  induction comps using List.reverseRecOn generalizing turns depth with
  | nil =>
    refine ⟨[], [], rfl, ?_, Or.inl rfl, fun a ha _ => ha⟩
    cases turns <;> simp [find_ancestor]
  | append_singleton comps c ih =>
    obtain ⟨turns, rfl⟩ : ∃ n, turns = n + 1 := Nat.exists_eq_succ_of_ne_zero (by
      rw [List.length_append, List.length_singleton] at hturns
      omega)
    by_cases hstart : joined (comps ++ [c]) <+: link
    · refine ⟨comps ++ [c], [], by simp, ?_, Or.inr hstart, fun a ha _ => ha⟩
      simp [find_ancestor, hstart]
    · obtain ⟨found, rest, hcomps, hfind, hfound, hdeepest⟩ := ih
        (fun d hd => h d (List.mem_append_left _ hd)) (by simpa using hturns) (depth + 1)
      refine ⟨found, rest ++ [c], by rw [hcomps, List.append_assoc], ?_, hfound, ?_⟩
      · have hne : joined (comps ++ [c]) ≠ [] := by simp [joined_concat]
        rw [find_ancestor, if_pos ⟨hne, hstart⟩, rpartition_joined comps (h c (by simp)), hfind]
        simp only [List.length_append, List.length_singleton]
        congr 1
        omega
      · intro a ha hlink
        rcases List.prefix_concat_iff.mp ha with rfl | ha
        · exact absurd hlink hstart
        · exact hdeepest a ha hlink

/-! ## The text of the link -/

theorem partition_behind_start {sep s : Text} (h : sep <+: s) : partition_behind sep s = s.drop sep.length := by
  have hfind : list_search.find sep s = some 0 := by
    rw [list_search.find_eq_some_iff]
    exact ⟨Nat.zero_le _, h, fun j hj => absurd hj (Nat.not_lt_zero j)⟩
  simp [partition_behind, hfind]

theorem strip_sep_self {s : Text} (hhead : isabs s = false) (hlast : ends_with_sep s = false) : strip_sep s = s := by
  unfold strip_sep
  have hstart : s.dropWhile (· = '/') = s := by
    cases s with
    | nil => rfl
    | cons c s =>
      have hc : c ≠ '/' := by simpa [isabs] using hhead
      simp [hc]
  rw [hstart, List.rdropWhile_eq_self_iff]
  intro hne
  unfold ends_with_sep at hlast
  rw [List.getLast?_eq_some_getLast hne] at hlast
  simpa using hlast

theorem strip_sep_cons (s : Text) : strip_sep ('/' :: s) = strip_sep s := by
  simp [strip_sep]

theorem joined_no_sep {c : Text} (hc : Piece c) {comps : List Text} (h : ∀ d ∈ comps, Piece d) :
    ends_with_sep (c ++ joined comps) = false := by
  induction comps using List.reverseRecOn with
  | nil => simpa using hc.no_sep []
  | append_singleton comps d _ =>
    have hform : c ++ joined (comps ++ [d]) = (c ++ joined comps ++ ['/']) ++ d := by simp [joined_concat]
    rw [hform]
    exact (h d (by simp)).no_sep _

theorem strip_pieces {c : Text} (hc : Piece c) {comps : List Text} (h : ∀ d ∈ comps, Piece d) :
    strip_sep (c ++ joined comps) = c ++ joined comps :=
  strip_sep_self (not_isabs hc.nonempty hc.no_slash _) (joined_no_sep hc h)

theorem splitOn_go_up (depth : ℕ) (base : Text) :
    (go_up depth base).splitOn '/' = List.replicate (depth - 1) (text "..") ++ base.splitOn '/' := by
  fun_induction go_up depth base with
  | case1 base => simp
  | case2 base => simp
  | case3 depth base ih =>
    have hform : text "../" ++ base = text ".." ++ '/' :: base := rfl
    rw [ih, hform, List.splitOn_append_cons_self, List.splitOn_eq_singleton (by decide : '/' ∉ text "..")]
    have hcount : depth + 2 - 1 = (depth + 1 - 1) + 1 := rfl
    rw [hcount, List.replicate_succ', List.append_assoc]

theorem go_up_eq_nil {depth : ℕ} {base : Text} : go_up depth base = [] ↔ depth ≤ 1 ∧ base = [] := by
  fun_induction go_up depth base with
  | case1 base => simp
  | case2 base => simp
  | case3 depth base ih =>
    rw [ih]
    simp [text]

theorem go_up_isabs {base : Text} (h : isabs base = false) (depth : ℕ) : isabs (go_up depth base) = false := by
  fun_induction go_up depth base with
  | case1 base => exact h
  | case2 base => exact h
  | case3 depth base ih => exact ih rfl

theorem resolve_go_up (dir : List Text) {base : Text} (h : isabs base = false) (depth : ℕ) :
    resolve dir (go_up depth base) = if depth ≤ 1 ∧ base = [] then none
      else some ((base.splitOn '/').foldl step (dir.take (dir.length - (depth - 1)))) := by
  unfold resolve
  simp only [go_up_eq_nil, go_up_isabs h, splitOn_go_up, List.foldl_append, steps_up, Bool.false_eq_true, if_false]

/-! ## Components and texts -/

theorem joined_prefix_of_prefix {a b : List Text} (h : a <+: b) : joined a <+: joined b := by
  obtain ⟨c, rfl⟩ := h
  rw [joined_append]
  exact List.prefix_append _ _

theorem prefix_of_joined_prefix {a b : List Text} (ha : ∀ c ∈ a, '/' ∉ c) (hb : ∀ c ∈ b, '/' ∉ c)
    (h : joined a <+: joined b) :
    a <+: b ∨ ∃ shared c x rest, a = shared ++ [c] ∧ b = shared ++ (c ++ x) :: rest ∧ x ≠ [] := by
  induction a generalizing b with
  | nil => exact Or.inl List.nil_prefix
  | cons c a ih =>
    cases b with
    | nil => simp at h
    | cons d b =>
      rw [List.forall_mem_cons] at ha hb
      rw [joined_cons, joined_cons, List.cons_append, List.cons_append, List.cons_prefix_cons] at h
      by_cases hcd : c = d
      · subst hcd
        rcases ih ha.2 hb.2 ((List.prefix_append_right_inj c).mp h.2) with hab | ⟨shared, e, x, rest, rfl, rfl, hx⟩
        · exact Or.inl (List.cons_prefix_cons.mpr ⟨rfl, hab⟩)
        · exact Or.inr ⟨c :: shared, e, x, rest, rfl, rfl, hx⟩
      · right
        have hstart : c <+: d := by
          rcases List.prefix_or_prefix_of_prefix ((List.prefix_append c _).trans h.2) (List.prefix_append d _) with
            hstart | ⟨y, rfl⟩
          · exact hstart
          · rw [List.append_assoc, List.prefix_append_right_inj] at h
            have hy := (List.prefix_append y _).trans h.2
            cases y with
            | nil => simp at hcd
            | cons z y =>
              cases b with
              | nil => simp at hy
              | cons e b =>
                rw [joined_cons, List.cons_append, List.cons_prefix_cons] at hy
                exact absurd (by simp [hy.1]) ha.1
        obtain ⟨x, rfl⟩ := hstart
        have hx : x ≠ [] := by
          rintro rfl
          simp at hcd
        rw [List.append_assoc, List.prefix_append_right_inj] at h
        cases a with
        | nil => exact ⟨[], c, x, b, rfl, rfl, hx⟩
        | cons e a =>
          obtain ⟨z, x, rfl⟩ := List.exists_cons_of_ne_nil hx
          rw [joined_cons, List.cons_append, List.cons_append, List.cons_prefix_cons] at h
          exact absurd (by simp [← h.2.1]) hb.1

theorem joined_prefix_path {a : List Text} (ha : a ≠ []) (hslash : ∀ c ∈ a, Component c) {d : Directory}
    (h : joined a <+: d.path) : d.comps ≠ [] ∧ joined a <+: joined d.comps := by
  have hne : d.comps ≠ [] := by
    intro hnil
    unfold Directory.path at h
    rw [if_pos hnil] at h
    obtain ⟨c, a, rfl⟩ := List.exists_cons_of_ne_nil ha
    rw [List.forall_mem_cons] at hslash
    have hlen := h.length_le
    have hc := List.length_pos_iff.mpr hslash.1.nonempty
    simp only [joined_cons, List.length_append, List.length_cons, List.length_nil] at hlen
    omega
  rw [Directory.path_of_ne_nil hne] at h
  exact ⟨hne, h⟩

theorem joined_prefix_of_comps {a : List Text} (ha : a ≠ []) {d : Directory} (h : a <+: d.comps) :
    joined a <+: d.path := by
  have hne : d.comps ≠ [] := by
    intro hnil
    rw [hnil] at h
    exact ha (List.prefix_nil.mp h)
  rw [Directory.path_of_ne_nil hne]
  exact joined_prefix_of_prefix h

/-! ## Links that are made relative to what they share with the target -/

section
variable {l : Link} {target : Directory}

theorem Link.place_ne_nil (l : Link) : l.place.comps ≠ [] := by simp [Link.place]

theorem Link.place_length (l : Link) : l.place.comps.length = l.dir.comps.length + 1 := by simp [Link.place]

theorem make_relative_symlink_spec (l : Link) (target : Directory) :
    ∃ found rest, l.place.comps = found ++ rest ∧ (found = [] ∨ joined found <+: target.path) ∧
      (∀ a, a <+: l.place.comps → joined a <+: target.path → a <+: found) ∧
      make_relative_symlink (some target.path) l.place.path = if found = [] then .no_common_ancestor
        else .symlink (go_up rest.length (strip_sep (target.path.drop (joined found).length))) := by
  have hpath := Directory.path_of_ne_nil l.place_ne_nil
  have hturns : l.place.comps.length ≤ l.place.path.length := by
    rw [hpath]
    exact length_le_joined _
  obtain ⟨found, rest, hcomps, hfind, hfound, hdeepest⟩ := find_ancestor_spec target.path l.place.named hturns 0
  refine ⟨found, rest, hcomps, hfound, hdeepest, ?_⟩
  rw [← hpath] at hfind
  unfold make_relative_symlink
  simp only [target.path_isabs, if_true, hfind, Nat.zero_add]
  cases found with
  | nil => simp
  | cons c found =>
    have hstart := hfound.resolve_left (List.cons_ne_nil c found)
    rw [if_neg (by simp), if_neg (by simp), partition_behind_start hstart]

theorem dir_above {found rest : List Text} (h : l.place.comps = found ++ rest) :
    (rest = [] ∧ found = l.dir.comps ++ [l.name]) ∨
      (rest ≠ [] ∧ l.dir.comps.take (l.dir.comps.length - (rest.length - 1)) = found) := by
  rcases List.eq_nil_or_concat rest with rfl | ⟨above, name, rfl⟩
  · left
    exact ⟨rfl, by rw [← List.append_nil found, ← h]; rfl⟩
  · right
    rw [List.concat_eq_append] at h ⊢
    have hdir : l.dir.comps = found ++ above := by
      unfold Link.place at h
      rw [← List.append_assoc] at h
      exact (List.append_inj' h rfl).1
    refine ⟨by simp, ?_⟩
    rw [hdir, List.length_append, List.length_append, List.length_singleton, Nat.add_sub_cancel, Nat.add_sub_cancel,
      List.take_left']
    rfl

theorem shared_leads_iff {found rest below : List Text} (hplace : l.place.comps = found ++ rest)
    (htarget : target.comps = found ++ below) (hne : found ≠ []) :
    resolve l.dir.comps (go_up rest.length (strip_sep (target.path.drop (joined found).length))) = some target.comps ↔
      rest ≠ [] ∧ (rest.length ≤ 1 → below ≠ []) := by
  have hbelow : ∀ c ∈ below, Component c := by
    intro c hc
    exact target.named c (by rw [htarget]; exact List.mem_append_right _ hc)
  have hdrop : target.path.drop (joined found).length = joined below := by
    rw [Directory.path_of_ne_nil (by rw [htarget]; simp [hne]), htarget, joined_append, List.drop_left]
  obtain ⟨hbase, hnil, hsplit⟩ : isabs (strip_sep (joined below)) = false ∧
      (strip_sep (joined below) = [] ↔ below = []) ∧ ∀ dir, ((strip_sep (joined below)).splitOn '/').foldl step dir = dir ++ below := by
    cases below with
    | nil => simp [strip_sep, isabs]
    | cons c below =>
      have hpieces := fun d hd => (hbelow d hd).piece
      rw [List.forall_mem_cons] at hpieces
      rw [joined_cons, List.cons_append, strip_sep_cons, strip_pieces hpieces.1 hpieces.2]
      refine ⟨not_isabs hpieces.1.nonempty hpieces.1.no_slash _, by simp [hpieces.1.nonempty], fun dir => ?_⟩
      rw [splitOn_joined (fun d hd => (hpieces.2 d hd).no_slash) c hpieces.1.no_slash, steps_down hbelow]
  rw [hdrop, resolve_go_up _ hbase, htarget]
  simp only [hnil, hsplit]
  rcases dir_above hplace with ⟨rfl, hfound⟩ | ⟨hrest, habove⟩
  · -- the target is the link, or below it
    have hlen : l.dir.comps ++ below ≠ found ++ below := by
      intro heq
      have hlen := congrArg List.length heq
      rw [hfound] at hlen
      simp at hlen
    simpa using fun _ => hlen
  · rw [habove]
    by_cases hstay : rest.length ≤ 1 ∧ below = []
    · simp [hstay]
    · rw [if_neg hstay]
      simp only [true_iff]
      exact ⟨hrest, fun hlen hnil => hstay ⟨hlen, hnil⟩⟩

theorem mistaken_leads {shared rest below : List Text} {c x : Text} (hplace : l.place.comps = (shared ++ [c]) ++ rest)
    (htarget : target.comps = shared ++ (c ++ x) :: below) (hx : x ≠ []) :
    resolve l.dir.comps (go_up rest.length (strip_sep (target.path.drop (joined (shared ++ [c])).length))) ≠
      some target.comps := by
  have hnamed := target.named
  rw [htarget, List.forall_mem_append, List.forall_mem_cons] at hnamed
  have hbelow := hnamed.2.2
  have hslash : '/' ∉ x := fun hmem => hnamed.2.1.no_slash (List.mem_append_right c hmem)
  have hc : c ≠ [] := (l.place.named c (by rw [hplace]; simp)).nonempty
  have hpiece : Piece x := ⟨hx, hslash⟩
  have hdrop : target.path.drop (joined (shared ++ [c])).length = x ++ joined below := by
    have hform : joined target.comps = joined (shared ++ [c]) ++ (x ++ joined below) := by
      rw [htarget, joined_append, joined_concat, joined_cons]
      simp
    rw [Directory.path_of_ne_nil (by rw [htarget]; simp), hform, List.drop_left]
  rw [hdrop, strip_pieces hpiece fun d hd => (hbelow d hd).piece, resolve_go_up _ (not_isabs hx hslash _),
    if_neg (by simp [hx]), splitOn_joined (fun d hd => (hbelow d hd).no_slash) x hslash, List.foldl_cons,
    steps_down hbelow, htarget]
  have hform : shared ++ (c ++ x) :: below = (shared ++ [c ++ x]) ++ below := by simp
  rw [hform, ne_eq, Option.some_inj, List.append_left_inj]
  intro hsame
  -- a step along `x` from the directory, or from the one above the link
  have hstep : ∀ dir, step dir x = dir ∨ step dir x = dir.dropLast ∨ step dir x = dir ++ [x] := by
    intro dir
    unfold step
    split_ifs <;> simp
  rcases dir_above hplace with ⟨rfl, hfound⟩ | ⟨hrest, habove⟩
  · have hdir : l.dir.comps = shared := (List.append_inj' hfound.symm rfl).1
    rw [hdir, List.length_nil, Nat.zero_sub, Nat.sub_zero, List.take_length] at hsame
    rcases hstep shared with h | h | h
    · simpa using h.symm.trans hsame
    · have hlen := congrArg List.length (h.symm.trans hsame)
      simp at hlen
    · simpa [hc] using h.symm.trans hsame
  · rw [habove] at hsame
    rcases hstep (shared ++ [c]) with h | h | h
    · simpa [hx] using h.symm.trans hsame
    · simpa using h.symm.trans hsame
    · simpa using h.symm.trans hsame

theorem parted_of_none (h : ∀ a, a <+: l.place.comps → joined a <+: target.path → a <+: []) : Parted l target where
  parted a ha hstart := (h a ha hstart).trans List.nil_prefix
  outside hbelow :=
    l.place_ne_nil (List.prefix_nil.mp (h _ List.prefix_rfl (joined_prefix_of_comps l.place_ne_nil hbelow)))
  elsewhere hsame := by
    by_contra hne
    have hstart := joined_prefix_of_comps hne (d := target) (by rw [hsame])
    exact hne (List.prefix_nil.mp (h _ (List.prefix_append _ _) hstart))

theorem shared_parted_iff {found rest below : List Text} (hplace : l.place.comps = found ++ rest)
    (htarget : target.comps = found ++ below) (hne : found ≠ [])
    (hdeepest : ∀ a, a <+: l.place.comps → joined a <+: target.path → a <+: found) :
    (rest ≠ [] ∧ (rest.length ≤ 1 → below ≠ [])) ↔ Parted l target := by
  constructor
  · rintro ⟨hrest, hmore⟩
    have hin : found <+: target.comps := by
      rw [htarget]
      exact List.prefix_append _ _
    refine ⟨fun a ha hstart => (hdeepest a ha hstart).trans hin, fun hbelow => ?_, fun hsame => ?_⟩
    · have hlen := (hdeepest _ List.prefix_rfl (joined_prefix_of_comps l.place_ne_nil hbelow)).length_le
      have hpos := List.length_pos_iff.mpr hrest
      rw [hplace, List.length_append] at hlen
      omega
    · by_contra hdir
      have hstart := joined_prefix_of_comps hdir (d := target) (by rw [hsame])
      have hlen := (hdeepest _ (List.prefix_append _ _) hstart).length_le
      have hplace_len := congrArg List.length hplace
      rw [← hsame, htarget, List.length_append] at hlen
      have hbelow : below = [] := List.length_eq_zero_iff.mp (by omega)
      apply hmore ?_ hbelow
      rw [l.place_length, ← hsame, htarget, hbelow, List.append_nil, List.length_append] at hplace_len
      omega
  · intro h
    have hrest : rest ≠ [] := by
      rintro rfl
      apply h.outside
      rw [hplace, htarget, List.append_nil]
      exact List.prefix_append _ _
    refine ⟨hrest, fun hlen hnil => ?_⟩
    rcases dir_above hplace with ⟨hnone, -⟩ | ⟨-, habove⟩
    · exact hrest hnone
    · have hzero : rest.length - 1 = 0 := by omega
      rw [hzero, Nat.sub_zero, List.take_length] at habove
      apply hne
      rw [← habove]
      apply h.elsewhere
      rw [htarget, hnil, List.append_nil, habove]

theorem made_relative_iff (l : Link) (target : Directory) :
    (make_relative_symlink (some target.path) l.place.path).LeadsTo l.dir.comps target.comps ↔ Parted l target := by
  obtain ⟨found, rest, hplace, hfound, hdeepest, hmade⟩ := make_relative_symlink_spec l target
  unfold Made.LeadsTo
  rw [hmade]
  by_cases hnil : found = []
  · rw [hnil] at hdeepest
    simp [hnil, parted_of_none hdeepest]
  · rw [if_neg hnil]
    have hnamed : ∀ c ∈ found, Component c := by
      intro c hc
      exact l.place.named c (by rw [hplace]; exact List.mem_append_left _ hc)
    obtain ⟨-, hstart⟩ := joined_prefix_path hnil hnamed (hfound.resolve_left hnil)
    simp only [Made.symlink.injEq, forall_eq']
    rcases prefix_of_joined_prefix (fun c hc => (hnamed c hc).no_slash) target.slashless hstart with
      ⟨below, htarget⟩ | ⟨shared, c, x, below, rfl, htarget, hx⟩
    · rw [shared_leads_iff hplace htarget.symm hnil, shared_parted_iff hplace htarget.symm hnil hdeepest]
    · have hnot : ¬Parted l target := by
        intro h
        have hin := h.parted _ (by rw [hplace]; exact List.prefix_append _ _) (hfound.resolve_left hnil)
        rw [htarget, List.prefix_append_right_inj, List.cons_prefix_cons] at hin
        simp [hx] at hin
      exact iff_of_false (mistaken_leads hplace htarget hx) hnot

end

/-! ## Behind the base directory -/

theorem rpartition_behind_spec {sep s : Text} (h : sep <:+: s) :
    (∃ x, s = x ++ sep ++ rpartition_behind sep s) ∧
      ∀ y z, s = y ++ sep ++ z → rpartition_behind sep s <:+ z := by
  obtain ⟨i, hfind⟩ : ∃ i, list_search.find sep.reverse s.reverse = some i := by
    rw [← Option.ne_none_iff_exists', ne_eq, list_search.find_eq_none_iff, List.reverse_infix, not_not]
    exact h
  obtain ⟨hle, hprefix, hfirst⟩ := (list_search.find_eq_some_iff _ _ _).mp hfind
  rw [List.length_reverse] at hle
  have hbehind : rpartition_behind sep s = s.drop (s.length - i) := by simp [rpartition_behind, hfind]
  have hlast : sep <:+ s.take (s.length - i) := by
    rw [← List.reverse_prefix]
    rwa [List.drop_reverse] at hprefix
  rw [hbehind]
  constructor
  · obtain ⟨x, hx⟩ := hlast
    exact ⟨x, by rw [hx, List.take_append_drop]⟩
  · intro y z hs
    have hz : z <:+ s := ⟨y ++ sep, by rw [hs]⟩
    apply List.suffix_of_suffix_length_le (List.drop_suffix _ s) hz
    rw [List.length_drop]
    by_contra hlt
    apply hfirst z.length (by omega)
    have hrev : s.reverse = z.reverse ++ (sep.reverse ++ y.reverse) := by rw [hs]; simp
    rw [hrev, ← List.length_reverse, List.drop_left]
    exact List.prefix_append _ _

theorem suffix_joined {comps : List Text} (h : ∀ c ∈ comps, '/' ∉ c) {s : Text} (hs : s <:+ joined comps)
    (habs : isabs s = true) : ∃ rest, rest ≠ [] ∧ rest <:+ comps ∧ s = joined rest := by
  induction comps with
  | nil =>
    rw [joined_nil, List.suffix_nil] at hs
    rw [hs] at habs
    cases habs
  | cons c comps ih =>
    rw [List.forall_mem_cons] at h
    rw [joined_cons] at hs
    rcases List.suffix_or_suffix_of_suffix hs (List.suffix_append _ _) with hin | ⟨w, rfl⟩
    · obtain ⟨rest, hne, hrest, heq⟩ := ih h.2 hin
      exact ⟨rest, hne, hrest.trans (List.suffix_cons c comps), heq⟩
    · cases w with
      | nil =>
        obtain ⟨rest, hne, hrest, heq⟩ := ih h.2 List.suffix_rfl
        exact ⟨rest, hne, hrest.trans (List.suffix_cons c comps), heq⟩
      | cons x w =>
        have hx : x = '/' := by simpa [isabs] using habs
        rw [List.suffix_append_self_iff, List.suffix_cons_iff] at hs
        rcases hs with hs | hs
        · exact ⟨c :: comps, by simp, List.suffix_rfl, by rw [hs, joined_cons]⟩
        · exact absurd (hs.subset (by simp [hx])) h.1

theorem dirname_joined (comps : List Text) (hnamed : ∀ c ∈ comps, Component c) {name : Text} (h : Component name) :
    dirname (joined (comps ++ [name])) = if comps = [] then ['/'] else joined comps := by
  unfold dirname
  rw [joined_concat, head_append h.no_slash]
  rcases List.eq_nil_or_concat comps with rfl | ⟨init, last, rfl⟩
  · simp
  · rw [List.concat_eq_append] at hnamed ⊢
    have hlast := hnamed last (by simp)
    have hsep : ends_with_sep (joined (init ++ [last])) = false := by
      have hform : joined (init ++ [last]) = (joined init ++ ['/']) ++ last := by simp [joined_concat]
      rw [hform, hlast.piece.no_sep]
    obtain ⟨c, hc, hslash⟩ : ∃ c ∈ last, c ≠ '/' := by
      obtain ⟨c, rest, hform⟩ := List.exists_cons_of_ne_nil hlast.nonempty
      refine ⟨c, by simp [hform], ?_⟩
      rintro rfl
      exact hlast.no_slash (by simp [hform])
    have hall : (joined (init ++ [last]) ++ ['/']).all (· = '/') = false := by
      rw [List.all_eq_false]
      exact ⟨c, by simp [joined_concat, hc], by simpa using hslash⟩
    rw [hall, if_neg (by simp), if_neg (by simp), List.rdropWhile_concat_pos _ _ _ (by simp)]
    rw [List.rdropWhile_eq_self_iff]
    intro hne
    unfold ends_with_sep at hsep
    rw [List.getLast?_eq_some_getLast hne] at hsep
    simpa using hsep

theorem dirname_prefix (s : Text) : dirname s <+: s := by
  unfold dirname head
  split
  · exact List.rdropWhile_prefix _ _
  · exact (List.rdropWhile_prefix _ _).trans (List.rdropWhile_prefix _ _)

theorem dirname_isabs {s : Text} (h : isabs s = false) : isabs (dirname s) = false := by
  obtain ⟨t, ht⟩ := dirname_prefix s
  cases hd : dirname s with
  | nil => rfl
  | cons c d =>
    rw [hd] at ht
    rw [← ht] at h
    exact h

theorem BaseDir.path_eq (b : BaseDir) (l : Link) : b.path l = b.basedir ++
    if ends_with_sep b.basedir then (joined l.place.comps).drop 1 else joined l.place.comps := by
  have hpieces : ∀ c ∈ l.place.comps, Piece c := fun c hc => (l.place.named c hc).piece
  unfold BaseDir.path
  split
  · rename_i hsep
    obtain ⟨c, comps, hcomps⟩ := List.exists_cons_of_ne_nil l.place_ne_nil
    rw [hcomps, List.forall_mem_cons] at hpieces
    have hjoin : join b.basedir c = b.basedir ++ c := by
      rw [join_eq b.nonempty hpieces.1.no_slash, if_pos hsep]
    rw [hcomps, List.foldl_cons, hjoin,
      join_pieces hpieces.2 (by simp [b.nonempty]) (hpieces.1.no_sep _), joined_cons]
    simp
  · rename_i hsep
    exact join_pieces hpieces b.nonempty (by simpa using hsep)

/-! ## Links that are made relative to a base directory -/

section
variable {b : BaseDir} {l : Link} {target : Directory}

theorem replaced_leads_iff (cwd : Text) :
    (replace_absolute_symlink cwd b.basedir (some target.path) (b.path l)).LeadsTo
        (b.dir.comps ++ l.dir.comps) (b.dir.comps ++ target.comps) ↔
      resolve (b.dir.comps ++ l.dir.comps)
        (relpath cwd target.path (dirname (rpartition_behind b.basedir (b.path l)))) =
          some (b.dir.comps ++ target.comps) := by
  unfold Made.LeadsTo replace_absolute_symlink
  simp [target.path_isabs]

theorem not_from_above {dir start : List Text} :
    (b.dir.comps ++ dir).take ((b.dir.comps ++ dir).length - (start.length - common start target.comps)) ++
        target.comps.drop (common start target.comps) = b.dir.comps ++ target.comps →
      dir.length ≤ start.length := by
  intro heq
  by_contra hlt
  obtain ⟨hstart, htarget, -⟩ := common_spec start target.comps
  have hlen := congrArg List.length heq
  simp only [List.length_append, List.length_take, List.length_drop] at hlen
  omega

theorem behind_once (hsep : ends_with_sep b.basedir = false) (honce : ¬b.basedir <:+: (b.path l).drop 1) :
    rpartition_behind b.basedir (b.path l) = joined l.place.comps := by
  have hpath := b.path_eq l
  rw [hsep, if_neg (by simp)] at hpath
  have hin : b.basedir <:+: b.path l := ⟨[], _, hpath.symm⟩
  obtain ⟨⟨x, hx⟩, -⟩ := rpartition_behind_spec hin
  cases x with
  | nil =>
    rw [List.nil_append, hpath, List.append_right_inj] at hx
    rw [hpath]
    exact hx.symm
  | cons c x =>
    refine absurd ?_ honce
    rw [hx]
    exact ⟨x, rpartition_behind b.basedir (b.path l), by simp⟩

theorem behind_again (h : ¬(ends_with_sep b.basedir = false ∧ ¬b.basedir <:+: (b.path l).drop 1)) :
    rpartition_behind b.basedir (b.path l) <:+ (joined l.place.comps).drop 1 := by
  have hpath := b.path_eq l
  have hin : b.basedir <:+: b.path l := ⟨[], _, hpath.symm⟩
  obtain ⟨-, hshortest⟩ := rpartition_behind_spec hin
  cases hsep : ends_with_sep b.basedir with
  | true =>
    rw [hsep, if_pos rfl] at hpath
    exact hshortest [] _ hpath
  | false =>
    rw [hsep, if_neg (by simp)] at hpath
    have hagain : b.basedir <:+: (b.path l).drop 1 := by
      by_contra hnot
      exact h ⟨hsep, hnot⟩
    obtain ⟨y, z, hyz⟩ := hagain
    have hlen := congrArg List.length hyz
    have hwhole : b.path l = ((b.path l).take 1 ++ y) ++ b.basedir ++ z := by
      rw [List.append_assoc, List.append_assoc, ← List.append_assoc y, hyz, List.take_append_drop]
    have hz : z <:+ (joined l.place.comps).drop 1 := by
      have hone : (joined l.place.comps).drop 1 <:+ b.path l := by
        rw [hpath]
        exact (List.drop_suffix _ _).trans (List.suffix_append _ _)
      refine List.suffix_of_suffix_length_le ⟨_, hwhole.symm⟩ hone ?_
      have hpos : 0 < (b.path l).length := by
        rw [hpath, List.length_append]
        have := List.length_pos_iff.mpr b.nonempty
        omega
      rw [hpath] at hlen hpos
      simp only [List.length_append, List.length_drop] at hlen hpos ⊢
      omega
    exact (hshortest _ _ hwhole).trans hz

theorem behind_slash {cwd : Text} (habs : isabs (rpartition_behind b.basedir (b.path l)) = true)
    (hshort : rpartition_behind b.basedir (b.path l) <:+ (joined l.place.comps).drop 1) :
    (parts cwd (dirname (rpartition_behind b.basedir (b.path l)))).length < l.dir.comps.length := by
  have hsuffix := hshort.trans (List.drop_suffix _ _)
  obtain ⟨rest, hne, ⟨above, hrest⟩, hbehind⟩ := suffix_joined l.place.slashless hsuffix habs
  have hlen := hshort.length_le
  rw [hbehind] at hlen ⊢
  have habove : above ≠ [] := by
    rintro rfl
    rw [List.nil_append] at hrest
    rw [hrest, List.length_drop] at hlen
    have hpos := length_le_joined l.place.comps
    rw [l.place_length] at hpos
    omega
  rcases List.eq_nil_or_concat rest with hnil | ⟨init, name, hconcat⟩
  · exact absurd hnil hne
  · rw [List.concat_eq_append] at hconcat
    rw [hconcat] at hrest ⊢
    have hnamed : ∀ c ∈ init ++ [name], Component c := by
      intro c hc
      exact l.place.named c (by rw [← hrest]; exact List.mem_append_right _ hc)
    have hinit : ∀ c ∈ init, Component c := fun c hc => hnamed c (List.mem_append_left _ hc)
    have hparts := Directory.parts_path cwd ⟨init, hinit⟩
    unfold Directory.path at hparts
    rw [dirname_joined init hinit (hnamed name (by simp)), hparts]
    have hcount := congrArg List.length hrest
    have hpos := List.length_pos_iff.mpr habove
    rw [l.place_length] at hcount
    simp only [List.length_append, List.length_singleton] at hcount ⊢
    omega

theorem steps_keep (z : Text) (comps : List Text) (n : ℕ) {dir : List Text}
    (h : ∃ more, dir = List.replicate (n + comps.length) z ++ more) :
    ∃ more, comps.foldl step dir = List.replicate n z ++ more := by
  induction comps generalizing dir with
  | nil => exact h
  | cons comp comps ih =>
    rw [List.foldl_cons]
    apply ih
    obtain ⟨more, rfl⟩ := h
    have hcount : n + (comp :: comps).length = (n + comps.length) + 1 := rfl
    unfold step
    split_ifs
    · exact ⟨z :: more, by rw [hcount, List.replicate_succ']; simp⟩
    · rcases List.eq_nil_or_concat more with rfl | ⟨init, last, rfl⟩
      · exact ⟨[], by rw [hcount, List.replicate_succ']; simp⟩
      · rw [List.concat_eq_append, ← List.append_assoc, List.dropLast_concat]
        exact ⟨z :: init, by rw [hcount, List.replicate_succ']; simp⟩
    · exact ⟨z :: (more ++ [comp]), by rw [hcount, List.replicate_succ']; simp⟩

theorem parts_relative {cwd : Directory} {path : Text} (h : isabs path = false) :
    parts cwd.path path = (path.splitOn '/').foldl step cwd.comps := by
  have habs : isabs (join cwd.path path) = true ∧
      ((join cwd.path path).splitOn '/').foldl step [] = (path.splitOn '/').foldl step cwd.comps := by
    by_cases hnil : cwd.comps = []
    · have hjoin : join cwd.path path = '/' :: path := by
        unfold join Directory.path
        rw [h, hnil]
        simp [ends_with_sep]
      rw [hjoin, splitOn_root, List.foldl_cons, step_nil, hnil]
      exact ⟨rfl, rfl⟩
    · obtain ⟨init, last, hconcat⟩ := (List.eq_nil_or_concat cwd.comps).resolve_left hnil
      rw [List.concat_eq_append] at hconcat
      have hjoined : joined cwd.comps = (joined init ++ ['/']) ++ last := by
        rw [hconcat, joined_concat]
        simp
      have hlast := cwd.named last (by rw [hconcat]; simp)
      have hjoin : join cwd.path path = cwd.path ++ '/' :: path := by
        unfold join
        rw [h, Directory.path_of_ne_nil hnil, hjoined, hlast.piece.no_sep]
        simp
      have hstart := cwd.path_isabs
      rw [hjoin, List.splitOn_append_cons_self, List.foldl_append, cwd.steps_path]
      refine ⟨?_, rfl⟩
      cases hp : cwd.path with
      | nil =>
        rw [hp] at hstart
        cases hstart
      | cons c rest =>
        rw [hp] at hstart
        exact hstart
  rw [parts_eq (by rw [h]; exact habs.1), h]
  exact habs.2

theorem behind_relative {path : Text} (hroot : b.dir.comps ≠ []) (h : isabs path = false) :
    ∃ cwd : Directory, resolve (b.dir.comps ++ l.dir.comps) (relpath cwd.path target.path path) ≠
      some (b.dir.comps ++ target.comps) := by
  obtain ⟨z, hz, hother⟩ : ∃ z, Component z ∧ target.comps.head? ≠ some z := by
    have ha : Component (text "a") := ⟨by decide, by decide, by decide, by decide⟩
    have hb : Component (text "b") := ⟨by decide, by decide, by decide, by decide⟩
    by_cases hhead : target.comps.head? = some (text "a")
    · exact ⟨text "b", hb, by rw [hhead]; decide⟩
    · exact ⟨text "a", ha, hhead⟩
  let depth := (b.dir.comps ++ l.dir.comps).length + 1
  let cwd : Directory := ⟨List.replicate (depth + (path.splitOn '/').length) z, fun c hc => by
    rw [List.eq_of_mem_replicate hc]
    exact hz⟩
  have hfar : ∃ more, cwd.comps = List.replicate (depth + (path.splitOn '/').length) z ++ more :=
    ⟨[], by simp [cwd]⟩
  obtain ⟨more, hkeep⟩ := steps_keep z (path.splitOn '/') depth hfar
  refine ⟨cwd, ?_⟩
  rw [resolve_relpath, parts_relative h, hkeep]
  have hcommon : common (List.replicate depth z ++ more) target.comps = 0 := by
    cases hcomps : target.comps with
    | nil => simp [common]
    | cons c rest =>
      have hne : z ≠ c := by
        rintro rfl
        rw [hcomps] at hother
        exact hother rfl
      simp [depth, List.replicate_succ, common, hne]
  have hlen : (b.dir.comps ++ l.dir.comps).length - (List.replicate depth z ++ more).length = 0 := by
    simp only [List.length_append, List.length_replicate, depth]
    omega
  rw [hcommon, Nat.sub_zero, hlen, List.take_zero, List.drop_zero, List.nil_append, ne_eq, Option.some_inj]
  simpa using hroot

theorem behind_root (h : b.dir.comps = []) : dirname (rpartition_behind b.basedir (b.path l)) = [] := by
  have hbase := b.root h
  have hpath := b.path_eq l
  have hsep : ends_with_sep ['/'] = true := by decide
  rw [hbase, hsep, if_pos rfl] at hpath
  have hplace : joined l.place.comps = joined l.dir.comps ++ '/' :: l.name := joined_concat _ _
  have hstart : b.path l = joined l.place.comps := by
    rw [hpath]
    obtain ⟨c, comps, hcomps⟩ := List.exists_cons_of_ne_nil l.place_ne_nil
    rw [hcomps, joined_cons]
    rfl
  rw [hstart, hplace, hbase]
  have hin : ['/'] <:+: joined l.dir.comps ++ '/' :: l.name := ⟨joined l.dir.comps, l.name, by simp⟩
  obtain ⟨-, hshortest⟩ := rpartition_behind_spec hin
  obtain ⟨w, hw⟩ := hshortest (joined l.dir.comps) l.name (by simp)
  have hslash : '/' ∉ rpartition_behind ['/'] (joined l.dir.comps ++ '/' :: l.name) := by
    intro hmem
    exact l.named.no_slash (hw ▸ List.mem_append_right w hmem)
  have hhead : head (rpartition_behind ['/'] (joined l.dir.comps ++ '/' :: l.name)) = [] := by
    unfold head
    rw [List.rdropWhile_eq_nil_iff]
    intro c hc
    rw [decide_eq_true_iff]
    rintro rfl
    exact hslash hc
  unfold dirname
  rw [hhead]
  rfl

theorem replaced_iff (b : BaseDir) (l : Link) (target : Directory) :
    (∀ cwd : Directory, (replace_absolute_symlink cwd.path b.basedir (some target.path) (b.path l)).LeadsTo
        (b.dir.comps ++ l.dir.comps) (b.dir.comps ++ target.comps)) ↔ Once b l target := by
  simp only [replaced_leads_iff]
  by_cases honce : ends_with_sep b.basedir = false ∧ ¬b.basedir <:+: (b.path l).drop 1
  · refine iff_of_true ?_ (Or.inl honce)
    intro cwd
    have hdir : dirname (joined l.place.comps) = l.dir.path := dirname_joined _ l.dir.named l.named
    rw [behind_once honce.1 honce.2, hdir, resolve_relpath, l.dir.parts_path]
    obtain ⟨hstart, -, hcommon⟩ := common_spec l.dir.comps target.comps
    have hlen : (b.dir.comps ++ l.dir.comps).length - (l.dir.comps.length - common l.dir.comps target.comps) =
        b.dir.comps.length + common l.dir.comps target.comps := by
      rw [List.length_append]
      omega
    rw [hlen, List.take_length_add_append, hcommon, List.append_assoc, List.take_append_drop]
  · unfold Once
    rw [or_iff_right honce]
    by_cases hroot : b.dir.comps = []
    · simp only [behind_root hroot, resolve_relpath, Option.some_inj, hroot, List.nil_append, true_and]
      have hparts : ∀ cwd : Directory, parts cwd.path [] = cwd.comps := fun cwd => by
        rw [parts_relative rfl]
        simp
      simp only [hparts]
      constructor
      · intro h
        have hdir : l.dir.comps = [] := by simpa [common] using h ⟨[], by simp⟩
        refine ⟨hdir, ?_⟩
        cases hcomps : target.comps with
        | nil => rfl
        | cons c comps =>
          have hc : ∀ d ∈ [c], Component d := fun d hd => target.named d (by
            rw [List.mem_singleton.mp hd, hcomps]
            exact List.mem_cons_self)
          have hlen := congrArg List.length (h ⟨[c], hc⟩)
          simp [hdir, hcomps, common] at hlen
      · rintro ⟨hdir, htarget⟩ cwd
        simp [hdir, htarget]
    · simp only [hroot, false_and, iff_false, not_forall]
      cases habs : isabs (rpartition_behind b.basedir (b.path l)) with
      | true =>
        refine ⟨⟨[], by simp⟩, ?_⟩
        rw [resolve_relpath, Option.some_inj]
        intro heq
        have hle := not_from_above heq
        have hlt := @behind_slash b l (Directory.path ⟨[], by simp⟩) habs (behind_again honce)
        omega
      | false => exact behind_relative hroot (dirname_isabs habs)

end

/-- Links keep their targets: one that is made relative to what it shares with the target where both are
parted at a slash, and one that is made relative to a base directory where the text of that is in the
path only once. -/
theorem links_keep_their_targets_iff (b : BaseDir) (l : Link) (target : Directory) :
    ((make_relative_symlink (some target.path) l.place.path).LeadsTo l.dir.comps target.comps ↔ Parted l target) ∧
      ((∀ cwd : Directory, (replace_absolute_symlink cwd.path b.basedir (some target.path) (b.path l)).LeadsTo
        (b.dir.comps ++ l.dir.comps) (b.dir.comps ++ target.comps)) ↔ Once b l target) :=
  ⟨made_relative_iff l target, replaced_iff b l target⟩

/-- The text of the link starts that of its target: what is left of the target is the end of a name. And
the base directory is looked for at the end of the path. -/
theorem a_name_is_cut :
    (make_relative_symlink (some (text "/usr/lib/libz.so.1")) (text "/usr/lib/libz.so") = .symlink (text ".1") ∧
      resolve [text "usr", text "lib"] (text ".1") ≠ some [text "usr", text "lib", text "libz.so.1"]) ∧
    (replace_absolute_symlink (text "/") (text "/image") (some (text "/lib")) (text "/image/usr/image/lib") =
        .symlink (text "lib") ∧
      resolve [text "image", text "usr", text "image"] (text "lib") ≠ some [text "image", text "lib"]) := by
  decide

end yocto.relative_links
