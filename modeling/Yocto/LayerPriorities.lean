-- The recipe files of a build and which of them hide others.
import Mathlib.Data.List.Nodup
import Yocto.MirrorUris
import Yocto.StableSort
import Yocto.TextLines

open yocto.task_ids yocto.data_smart yocto.posix_path yocto.mirror_uris yocto.stable_sort

namespace yocto.layer_priorities

/-! ## The functions -/

/-- A layer of which `BBFILE_PATTERN` is `^`, the directory and a slash. -/
structure Layer where
  layername : Text
  dir : Text
  pri : ℤ
  literal : ∀ c ∈ dir, c ∉ ['.', '^', '$', '*', '+', '?', '{', '}', '[', ']', '\\', '|', '(', ')']

def Layer.pattern (l : Layer) : Text := '^' :: (l.dir ++ ['/'])

/-- `regex.match(filename)`. -/
def Layer.holds (l : Layer) (filename : Text) : Bool := (l.dir ++ ['/']).isPrefixOf filename

/-- `bbfile_config_priorities` of `CookerCollectFiles`. -/
def config_priorities (priorities : List Layer) : List Layer :=
  sort_by (fun l => OrderDual.toDual l.pattern) priorities

/-- The priority, and the layer that it is of. -/
def calc_bbfile_priority (priorities : List Layer) (filename : Text) : ℤ × Option Layer :=
  match (config_priorities priorities).find? fun l => l.holds filename with
  | some l => (l.pri, some l)
  | none => (0, none)

/-- What `os.walk` finds in a directory: its files, and the directories in it that are not links. -/
inductive Dir
  | node (files : List Text) (dirs : List (Text × Dir))

def is_ignored (name : Text) : Bool := [text "SCCS", text "CVS", text ".svn"].any fun n => n = name

def is_bb (f : Text) : Bool := (text ".bb").isSuffixOf f || (text ".bbappend").isSuffixOf f

mutual
/-- Find all the .bb and .bbappend files in a directory. -/
def find_bbfiles (path : Text) : Dir → List Text
  | .node files dirs => (files.filter is_bb).map (join path) ++ find_in path dirs

def find_in (path : Text) : List (Text × Dir) → List Text
  | [] => []
  | (name, d) :: rest =>
    (if is_ignored name then [] else find_bbfiles (join path name) d) ++ find_in path rest
end

/-- The file system, and the expressions of `re`. -/
structure Env where
  isdir : Text → Option Dir
  is_there : Text → Bool
  glob : Text → List Text
  cwd : Text
  listdir : List Text
  compile : Text → Option (Text → Bool)

/-- The list of default .bb files: those in the current directory. -/
def get_bbfiles (env : Env) : List Text :=
  (env.listdir.filter fun f => (text ".bb").isSuffixOf f).map fun f => normpath (join env.cwd f)

def items (env : Env) (priorities : List Layer) (bbfiles : Text) : List Text :=
  let files := sort_by (fun fileitem => (calc_bbfile_priority priorities fileitem).1) (words bbfiles)
  if files = [] then get_bbfiles env else files

def expand (env : Env) (f : Text) : List Text :=
  match env.isdir f with
  | some d => find_bbfiles f d
  | none =>
    let globbed := env.glob f
    let globbed := if globbed = [] ∧ env.is_there f then [f] else globbed
    globbed.mergeSort fun a b => decide (a ≤ b)

def add_new (newfiles : List Text) (g : Text) : List Text :=
  if newfiles.any fun f => f = g then newfiles else newfiles ++ [g]

def newfiles_of (env : Env) (files : List Text) : List Text :=
  files.foldl (fun newfiles f => (expand env f).foldl add_new newfiles) []

/-- `BBMASK` as what it finds in a name. -/
def masked_by (compile : Text → Option (Text → Bool)) (bbmask : Text) : Text → Bool :=
  if bbmask = [] then fun _ => false
  else
    let bbmasks := (words bbmask).filterMap fun mask =>
      let mask := if mask.head? = some '|' then mask.tail else mask
      if (compile mask).isSome then some mask else none
    (compile (['|'].intercalate bbmasks)).getD fun _ => false

/-- What is known of the base names when the files are seen from the last one on. -/
structure Seen where
  bbfile_seen : Text → Option Text
  overlayed : Text → List Text

def seen_turn (s : Seen) (f : Text) : Seen :=
  match s.bbfile_seen (basename f) with
  | none => { s with bbfile_seen := Function.update s.bbfile_seen (basename f) (some f) }
  | some topfile =>
    { s with overlayed := Function.update s.overlayed topfile (s.overlayed topfile ++ [f]) }

def overlayed_of (bbfiles : List Text) : Text → List Text :=
  (bbfiles.reverse.foldl seen_turn ⟨fun _ => none, fun _ => []⟩).overlayed

/-- The recipes that are found, how many files are masked, the appends with the names of their recipes,
and the recipes that each recipe hides. -/
structure Collected where
  bbfiles : List Text
  masked : ℕ
  bbappends : List (Text × Text)
  overlayed : Text → List Text

def collect_bbfiles (env : Env) (priorities : List Layer) (bbfiles bbmask : Text) : Collected :=
  let newfiles := newfiles_of env (items env priorities bbfiles)
  let masks := masked_by env.compile bbmask
  let kept := newfiles.filter fun f => !masks f
  let bbfiles := kept.filter fun f => (text ".bb").isSuffixOf f
  let bbappend := kept.filter fun f => !(text ".bb").isSuffixOf f && (text ".bbappend").isSuffixOf f
  { bbfiles
    masked := (newfiles.filter masks).length
    bbappends := bbappend.map fun f => (list_search.replace (text ".bbappend") (text ".bb") (basename f), f)
    overlayed := overlayed_of bbfiles }

/-! ## The innermost layer -/

/-- The priority of a file is that of the innermost layer it is in, and 0 outside of all layers. -/
inductive Innermost (priorities : List Layer) (filename : Text) : ℤ × Option Layer → Prop
  | layer {l : Layer} (hl : l ∈ priorities) (hholds : l.holds filename)
      (hinner : ∀ l' ∈ priorities, l'.holds filename → l'.dir ++ ['/'] <+: l.dir ++ ['/']) :
    Innermost priorities filename (l.pri, some l)
  | outside (hnone : ∀ l ∈ priorities, l.holds filename = false) : Innermost priorities filename (0, none)

theorem le_of_start {a b : Text} (h : a <+: b) : a ≤ b := by
  obtain ⟨t, rfl⟩ := h
  induction a with
  | nil =>
    cases t with
    | nil => exact le_refl _
    | cons c t => exact le_of_lt (List.nil_lt_cons c t)
  | cons c a ih =>
    rcases eq_or_lt_of_le ih with h | h
    · rw [List.cons_append, ← h]
    · exact le_of_lt (List.cons_lt_cons_iff.mpr (Or.inr ⟨rfl, h⟩))

theorem calc_bbfile_priority_innermost (priorities : List Layer) (filename : Text) :
    Innermost priorities filename (calc_bbfile_priority priorities filename) := by
  have hmem : ∀ l, l ∈ config_priorities priorities ↔ l ∈ priorities := fun l => (sort_by_perm _ priorities).mem_iff
  unfold calc_bbfile_priority
  cases hfind : (config_priorities priorities).find? fun l => l.holds filename with
  | none =>
    apply Innermost.outside
    intro l hl
    simpa using List.find?_eq_none.mp hfind l ((hmem l).mpr hl)
  | some l =>
    obtain ⟨hholds, before, behind, hlist, hbefore⟩ := List.find?_eq_some_iff_append.mp hfind
    refine Innermost.layer ((hmem l).mp (List.mem_of_find?_eq_some hfind)) hholds fun l' hl' hholds' => ?_
    -- the two directories start the same name, and the greater pattern comes first
    have hstart := List.isPrefixOf_iff_prefix.mp hholds
    have hstart' := List.isPrefixOf_iff_prefix.mp hholds'
    rcases List.prefix_or_prefix_of_prefix hstart hstart' with h | h
    · have hle : l'.pattern ≤ l.pattern := by
        have hl'mem := (hmem l').mpr hl'
        rw [hlist] at hl'mem
        rcases List.mem_append.mp hl'mem with hb | hb
        · exact absurd hholds' (by simpa using hbefore l' hb)
        · rcases List.mem_cons.mp hb with rfl | hb
          · exact le_refl _
          · have hsorted := sort_by_stable (fun l : Layer => OrderDual.toDual l.pattern)
              (List.pairwise_of_forall (l := priorities) fun _ _ => trivial)
            have hconfig : (config_priorities priorities).Pairwise fun a b => b.pattern ≤ a.pattern :=
              hsorted.imp fun hab => hab.1
            rw [hlist] at hconfig
            exact List.rel_of_pairwise_cons (List.pairwise_append.mp hconfig).2.1 hb
      have heq : l.pattern = l'.pattern :=
        le_antisymm (le_of_start (List.cons_prefix_cons.mpr ⟨rfl, h⟩)) hle
      exact (List.cons.inj heq).2 ▸ List.prefix_rfl
    · exact h

/-! ## The order in which files are found -/

/-- An item stands in a list before any of another one. -/
def Before {α : Type} (l : List α) (f g : α) : Prop := ∃ a b, l = a ++ f :: b ∧ g ∉ a

theorem before_append {α : Type} {l l' : List α} {f g : α} : Before (l ++ l') f g ↔
    Before l f g ∨ g ∉ l ∧ Before l' f g := by
  constructor
  · rintro ⟨a, b, heq, hg⟩
    rcases List.append_eq_append_iff.mp heq with ⟨c, rfl, hc⟩ | ⟨c, rfl, hc⟩
    · exact Or.inr ⟨fun hmem => hg (List.mem_append_left c hmem), c, b, hc,
        fun hmem => hg (List.mem_append_right l hmem)⟩
    · cases c with
      | nil =>
        rw [List.append_nil]
        exact Or.inr ⟨hg, [], b, hc.symm, List.not_mem_nil⟩
      | cons x c =>
        obtain ⟨rfl, -⟩ := List.cons.inj hc
        exact Or.inl ⟨a, c, rfl, hg⟩
  · rintro (⟨a, b, rfl, hg⟩ | ⟨hl, a, b, rfl, hg⟩)
    · exact ⟨a, b ++ l', by simp, hg⟩
    · exact ⟨l ++ a, b, by simp, by simp [hl, hg]⟩

theorem before_of_not_mem {α : Type} {l : List α} {f g : α} (h : g ∉ l) : Before l f g ↔ f ∈ l := by
  constructor
  · rintro ⟨a, b, rfl, -⟩
    simp
  · intro hf
    obtain ⟨a, b, rfl⟩ := List.append_of_mem hf
    exact ⟨a, b, rfl, fun hg => h (List.mem_append_left _ hg)⟩

/-- An item of `BBFILES` finds a file, none before it finds the other, and it does not find the
other first. -/
def Earlier (expand : Text → List Text) (items : List Text) (f g : Text) : Prop :=
  ∃ before item behind, items = before ++ item :: behind ∧ (∀ i ∈ before, g ∉ expand i) ∧
    Before (expand item) f g

theorem before_flatMap (expand : Text → List Text) (items : List Text) (f g : Text) :
    Before (items.flatMap expand) f g ↔ Earlier expand items f g := by
  induction items with
  | nil =>
    constructor
    · rintro ⟨a, b, h, _⟩
      simp at h
    · rintro ⟨before, item, behind, h, _⟩
      simp at h
  | cons item items ih =>
    rw [List.flatMap_cons, before_append, ih]
    constructor
    · rintro (h | ⟨hg, before, i, behind, rfl, hbefore, h⟩)
      · exact ⟨[], item, items, rfl, fun i hi => absurd hi List.not_mem_nil, h⟩
      · exact ⟨item :: before, i, behind, rfl, List.forall_mem_cons.mpr ⟨hg, hbefore⟩, h⟩
    · rintro ⟨before, i, behind, heq, hbefore, h⟩
      cases before with
      | nil =>
        obtain ⟨rfl, -⟩ := List.cons.inj heq
        exact Or.inl h
      | cons x before =>
        obtain ⟨rfl, rfl⟩ := List.cons.inj heq
        rw [List.forall_mem_cons] at hbefore
        exact Or.inr ⟨hbefore.1, before, i, behind, rfl, hbefore.2, h⟩

theorem add_new_eq (newfiles : List Text) (g : Text) :
    add_new newfiles g = if g ∈ newfiles then newfiles else newfiles ++ [g] := by
  unfold add_new
  simp

theorem pair_sublist_concat {f g x : Text} {l : List Text} :
    [f, g].Sublist (l ++ [x]) ↔ [f, g].Sublist l ∨ g = x ∧ f ∈ l := by
  rw [← List.reverse_sublist, ← @List.reverse_sublist _ [f, g] l]
  simp only [List.reverse_append, List.reverse_cons, List.reverse_nil, List.nil_append, List.cons_append]
  rw [List.sublist_cons_iff]
  refine or_congr Iff.rfl ⟨?_, ?_⟩
  · rintro ⟨r, hr, hsub⟩
    obtain ⟨rfl, rfl⟩ := List.cons.inj hr
    exact ⟨rfl, List.mem_reverse.mp (List.singleton_sublist.mp hsub)⟩
  · rintro ⟨rfl, hf⟩
    exact ⟨[f], rfl, List.singleton_sublist.mpr (List.mem_reverse.mpr hf)⟩

theorem foldl_add_new (l : List Text) :
    (l.foldl add_new []).Nodup ∧ (∀ f, f ∈ l.foldl add_new [] ↔ f ∈ l) ∧
      ∀ f g, f ≠ g → g ∈ l → ([f, g].Sublist (l.foldl add_new []) ↔ Before l f g) := by
  induction l using List.reverseRecOn with
  | nil => exact ⟨List.nodup_nil, fun f => Iff.rfl, fun f g _ hg => absurd hg List.not_mem_nil⟩
  | append_singleton l x ih =>
    obtain ⟨hnodup, hmem, horder⟩ := ih
    have hlast : ∀ {f g : Text}, f ≠ g → g ∈ l → (Before (l ++ [x]) f g ↔ Before l f g) := by
      intro f g _ hg
      rw [before_append]
      exact ⟨fun h => h.elim id fun h => absurd hg h.1, Or.inl⟩
    rw [List.foldl_append, List.foldl_cons, List.foldl_nil, add_new_eq]
    split
    · rename_i hx
      have hxl := (hmem x).mp hx
      refine ⟨hnodup, fun f => ?_, fun f g hne hg => ?_⟩
      · rw [hmem, List.mem_append, List.mem_singleton]
        exact ⟨Or.inl, fun h => h.elim id fun h => h ▸ hxl⟩
      · have hgl : g ∈ l := (List.mem_append.mp hg).elim id fun h => List.mem_singleton.mp h ▸ hxl
        rw [horder f g hne hgl, hlast hne hgl]
    · rename_i hx
      have hxl : x ∉ l := fun h => hx ((hmem x).mpr h)
      refine ⟨?_, fun f => ?_, fun f g hne hg => ?_⟩
      · rw [List.nodup_append]
        refine ⟨hnodup, List.nodup_singleton x, fun a ha b hb hab => hx ?_⟩
        rw [List.mem_singleton.mp hb] at hab
        exact hab ▸ ha
      · rw [List.mem_append, hmem, List.mem_append]
      · rw [pair_sublist_concat]
        by_cases hgl : g ∈ l
        · have hgx : g ≠ x := fun h => hxl (h ▸ hgl)
          rw [horder f g hne hgl, hlast hne hgl]
          exact ⟨fun h => h.elim id fun h => absurd h.1 hgx, Or.inl⟩
        · obtain rfl : g = x := (List.mem_append.mp hg).elim (fun h => absurd h hgl) List.mem_singleton.mp
          have hnosub : ¬ [f, g].Sublist (l.foldl add_new []) := fun h => hx (h.subset (by simp))
          rw [before_append, before_of_not_mem hxl, hmem]
          constructor
          · exact fun h => Or.inl (h.resolve_left hnosub).2
          · rintro (h | ⟨-, h⟩)
            · exact Or.inr ⟨rfl, h⟩
            · obtain ⟨a, b, heq, -⟩ := h
              exact absurd (List.mem_singleton.mp (heq ▸ by simp)) hne

theorem newfiles_of_spec (env : Env) (files : List Text) :
    (newfiles_of env files).Nodup ∧ (∀ f, f ∈ newfiles_of env files ↔ ∃ item ∈ files, f ∈ expand env item) ∧
      ∀ f g, f ≠ g → g ∈ newfiles_of env files →
        ([f, g].Sublist (newfiles_of env files) ↔ Earlier (expand env) files f g) := by
  have hflat : newfiles_of env files = (files.flatMap (expand env)).foldl add_new [] := by
    unfold newfiles_of
    rw [List.foldl_flatMap]
  obtain ⟨hnodup, hmem, horder⟩ := foldl_add_new (files.flatMap (expand env))
  rw [hflat]
  refine ⟨hnodup, fun f => ?_, fun f g hne hg => ?_⟩
  · rw [hmem, List.mem_flatMap]
  · rw [horder f g hne ((hmem g).mp hg), before_flatMap]

/-! ## The recipes that are hidden -/

/-- The recipes of one base name, as they are seen. -/
def of_base (files : List Text) (base : Text) : List Text := files.filter fun f => basename f = base

theorem foldl_seen (l : List Text) :
    (∀ base, (l.foldl seen_turn ⟨fun _ => none, fun _ => []⟩).bbfile_seen base = (of_base l base).head?) ∧
      ∀ t, (l.foldl seen_turn ⟨fun _ => none, fun _ => []⟩).overlayed t =
        if (of_base l (basename t)).head? = some t then (of_base l (basename t)).tail else [] := by
  induction l using List.reverseRecOn with
  | nil => exact ⟨fun _ => rfl, fun _ => rfl⟩
  | append_singleton l f ih =>
    obtain ⟨hseen, hover⟩ := ih
    have hconcat : ∀ base, of_base (l ++ [f]) base = of_base l base ++ if basename f = base then [f] else [] := by
      intro base
      unfold of_base
      rw [List.filter_append]
      congr 1
      by_cases h : basename f = base <;> simp [h]
    rw [List.foldl_append, List.foldl_cons, List.foldl_nil]
    generalize l.foldl seen_turn ⟨fun _ => none, fun _ => []⟩ = s at hseen hover
    have hhead := hseen (basename f)
    cases hfound : of_base l (basename f) with
    | nil =>
      rw [hfound] at hhead
      have hturn : seen_turn s f = { s with bbfile_seen := Function.update s.bbfile_seen (basename f) (some f) } := by
        unfold seen_turn
        rw [hhead]
        rfl
      rw [hturn]
      refine ⟨fun base => ?_, fun t => ?_⟩
      · rw [hconcat]
        by_cases hb : basename f = base
        · subst hb
          simp [hfound]
        · simp [Function.update_of_ne (Ne.symm hb), hseen, hb]
      · rw [hconcat]
        by_cases hb : basename f = basename t
        · rw [if_pos hb]
          have hnone := hover t
          rw [← hb, hfound] at hnone ⊢
          simpa using hnone
        · simpa [hb] using hover t
    | cons top rest =>
      rw [hfound] at hhead
      have hbase : basename top = basename f := by
        have hmem : top ∈ of_base l (basename f) := by simp [hfound]
        simpa [of_base] using (List.mem_filter.mp hmem).2
      have hturn : seen_turn s f = { s with overlayed := Function.update s.overlayed top (s.overlayed top ++ [f]) } := by
        unfold seen_turn
        rw [hhead]
        rfl
      rw [hturn]
      refine ⟨fun base => ?_, fun t => ?_⟩
      · rw [hseen, hconcat]
        by_cases hb : basename f = base
        · subst hb
          simp [hfound]
        · simp [hb]
      · rw [hconcat]
        have hnone := hover t
        by_cases hb : basename f = basename t
        · rw [← hb, hfound] at hnone ⊢
          by_cases ht : t = top
          · subst ht
            rw [List.head?_cons, if_pos rfl, List.tail_cons] at hnone
            simp [hnone]
          · have hkeep : Function.update s.overlayed top (s.overlayed top ++ [f]) t = s.overlayed t :=
              Function.update_of_ne ht _ _
            rw [List.head?_cons, if_neg fun h => ht (Option.some.inj h).symm] at hnone
            dsimp only
            rw [hkeep, hnone]
            simp [Ne.symm ht]
        · have ht : t ≠ top := fun h => hb (h ▸ hbase.symm)
          simpa [Function.update_of_ne ht, hb] using hnone

theorem overlayed_of_last {bbfiles : List Text} (hnodup : bbfiles.Nodup) {before behind : List Text} {top : Text}
    (hfiles : bbfiles = before ++ top :: behind) (htop : ∀ f ∈ behind, basename f ≠ basename top) :
    (∀ t, top ∉ overlayed_of bbfiles t) ∧ ∀ f ∈ bbfiles, basename f = basename top → f ≠ top →
      (overlayed_of bbfiles top).count f = 1 ∧ ∀ t ≠ top, f ∉ overlayed_of bbfiles t := by
  have hreverse : bbfiles.reverse = behind.reverse ++ top :: before.reverse := by
    rw [hfiles]
    simp
  have hnotin : top ∉ before := by
    rw [hfiles, List.nodup_append] at hnodup
    exact fun h => hnodup.2.2 top h top List.mem_cons_self rfl
  have hbase : of_base bbfiles.reverse (basename top) = top :: of_base before.reverse (basename top) := by
    have hnone : behind.reverse.filter (fun f => basename f = basename top) = [] := by
      rw [List.filter_eq_nil_iff]
      intro f hf
      simpa using htop f (List.mem_reverse.mp hf)
    unfold of_base
    rw [hreverse, List.filter_append, hnone, List.filter_cons_of_pos (by simp)]
    rfl
  have hover := (foldl_seen bbfiles.reverse).2
  have hmem : ∀ {f t}, f ∈ overlayed_of bbfiles t →
      basename f = basename t ∧ (of_base bbfiles.reverse (basename t)).head? = some t ∧
        f ∈ (of_base bbfiles.reverse (basename t)).tail := by
    intro f t hf
    unfold overlayed_of at hf
    rw [hover] at hf
    split at hf
    · rename_i hhead
      have hfilter := (List.mem_filter.mp (List.mem_of_mem_tail hf)).2
      exact ⟨by simpa using hfilter, hhead, hf⟩
    · cases hf
  have htail : ∀ f, f ∈ of_base before.reverse (basename top) ↔ f ∈ before ∧ basename f = basename top := by
    intro f
    simp [of_base]
  refine ⟨fun t ht => ?_, fun f hf hsame hne => ⟨?_, fun t htne ht => ?_⟩⟩
  · obtain ⟨hsame, -, hin⟩ := hmem ht
    rw [← hsame, hbase, List.tail_cons, htail] at hin
    exact hnotin hin.1
  · have hvalue : overlayed_of bbfiles top = of_base before.reverse (basename top) := by
      unfold overlayed_of
      rw [hover, hbase, List.head?_cons, if_pos rfl, List.tail_cons]
    rw [hvalue]
    apply List.count_eq_one_of_mem
    · have hsub : (of_base before.reverse (basename top)).Sublist before.reverse := List.filter_sublist
      rw [hfiles] at hnodup
      exact (List.nodup_reverse.mpr hnodup.of_append_left).sublist hsub
    · rw [htail]
      rw [hfiles] at hf
      rcases List.mem_append.mp hf with h | h
      · exact ⟨h, hsame⟩
      · rcases List.mem_cons.mp h with rfl | h
        · exact absurd rfl hne
        · exact absurd hsame (htop f h)
  · obtain ⟨hft, hhead, -⟩ := hmem ht
    rw [← hft, hsame, hbase] at hhead
    exact htne (Option.some.inj hhead).symm

/-! ## Which recipe is found last -/

theorem before_asymm {α : Type} {l : List α} {f g : α} (hne : f ≠ g) (h : Before l f g) : ¬ Before l g f := by
  rintro ⟨c, d, hl', hf⟩
  obtain ⟨a, b, hl, hg⟩ := h
  rcases List.append_eq_append_iff.mp (hl.symm.trans hl') with ⟨e, rfl, he⟩ | ⟨e, rfl, he⟩
  · cases e with
    | nil => exact hne (List.cons.inj he).1
    | cons x e => exact hf (by rw [(List.cons.inj he).1]; simp)
  · cases e with
    | nil => exact hne (List.cons.inj he).1.symm
    | cons x e => exact hg (by rw [(List.cons.inj he).1]; simp)

variable (env : Env) (priorities : List Layer) (bbfiles bbmask : Text)

/-- A recipe that an item of `BBFILES` finds and `BBMASK` leaves. -/
def Recipe (f : Text) : Prop :=
  (∃ item ∈ items env priorities bbfiles, f ∈ expand env item) ∧ masked_by env.compile bbmask f = false ∧
    (text ".bb").isSuffixOf f

theorem mem_bbfiles (f : Text) :
    f ∈ (collect_bbfiles env priorities bbfiles bbmask).bbfiles ↔ Recipe env priorities bbfiles bbmask f := by
  unfold collect_bbfiles Recipe
  rw [← (newfiles_of_spec env (items env priorities bbfiles)).2.1]
  simp only [List.mem_filter, Bool.not_eq_true']
  tauto

theorem earlier_of_sublist {f g : Text} (hne : f ≠ g)
    (h : [f, g].Sublist (collect_bbfiles env priorities bbfiles bbmask).bbfiles) :
    Earlier (expand env) (items env priorities bbfiles) f g := by
  have hsub : (collect_bbfiles env priorities bbfiles bbmask).bbfiles.Sublist
      (newfiles_of env (items env priorities bbfiles)) :=
    List.filter_sublist.trans List.filter_sublist
  have hfound := h.trans hsub
  exact ((newfiles_of_spec env _).2.2 f g hne (hfound.subset (by simp))).mp hfound

/-- Of the recipes of each name exactly one is not hidden, each other is listed once, under it, and no
other has a higher priority. -/
def Resolves : Prop :=
  let c := collect_bbfiles env priorities bbfiles bbmask
  ∀ base, of_base c.bbfiles base ≠ [] → ∃ top ∈ of_base c.bbfiles base, (∀ t, top ∉ c.overlayed t) ∧
    (∀ f ∈ of_base c.bbfiles base, f ≠ top → (c.overlayed top).count f = 1 ∧ ∀ t ≠ top, f ∉ c.overlayed t) ∧
    ∀ f ∈ of_base c.bbfiles base,
      (calc_bbfile_priority priorities f).1 ≤ (calc_bbfile_priority priorities top).1

/-- The recipe of a name that is found last has the highest priority of the name. -/
def LastIsHighest : Prop :=
  ∀ top, Recipe env priorities bbfiles bbmask top →
    (∀ f, Recipe env priorities bbfiles bbmask f → basename f = basename top → f ≠ top →
      Earlier (expand env) (items env priorities bbfiles) f top) →
    ∀ f, Recipe env priorities bbfiles bbmask f → basename f = basename top →
      (calc_bbfile_priority priorities f).1 ≤ (calc_bbfile_priority priorities top).1

theorem resolves_iff : Resolves env priorities bbfiles bbmask ↔ LastIsHighest env priorities bbfiles bbmask := by
  unfold Resolves LastIsHighest
  have hmem := mem_bbfiles env priorities bbfiles bbmask
  have hearlier := fun f g => @earlier_of_sublist env priorities bbfiles bbmask f g
  have hover : (collect_bbfiles env priorities bbfiles bbmask).overlayed =
      overlayed_of (collect_bbfiles env priorities bbfiles bbmask).bbfiles := rfl
  have hnodup : (collect_bbfiles env priorities bbfiles bbmask).bbfiles.Nodup :=
    ((newfiles_of_spec env (items env priorities bbfiles)).1.filter _).filter _
  simp only [hover]
  generalize (collect_bbfiles env priorities bbfiles bbmask).bbfiles = l at hmem hearlier hnodup
  have hbase : ∀ f base, f ∈ of_base l base ↔ f ∈ l ∧ basename f = base := by simp [of_base]
  constructor
  · intro h top htop hlast f hf hsame
    have htopl := (hmem top).mpr htop
    obtain ⟨top', htop', hfree, hothers, hpri⟩ := h (basename top) (List.ne_nil_of_mem ((hbase _ _).mpr ⟨htopl, rfl⟩))
    -- the recipe that is found last is not hidden, so it is the one that hides the others
    have heq : top = top' := by
      by_contra hne
      obtain ⟨before, behind, hsplit⟩ := List.append_of_mem htopl
      have hbehind : ∀ f ∈ behind, basename f ≠ basename top := by
        intro g hg hgbase
        have hgl : g ∈ l := by simp [hsplit, hg]
        have hgne : g ≠ top := by
          rintro rfl
          rw [hsplit, List.nodup_append] at hnodup
          exact (List.nodup_cons.mp hnodup.2.1).1 hg
        have hsub : [top, g].Sublist l := by
          rw [hsplit]
          exact (List.Sublist.cons_cons top (List.singleton_sublist.mpr hg)).trans (List.sublist_append_right before _)
        have hgt := (before_flatMap _ _ _ _).mpr (hlast g ((hmem g).mp hgl) hgbase hgne)
        have htg := (before_flatMap _ _ _ _).mpr (hearlier top g (Ne.symm hgne) hsub)
        exact before_asymm hgne hgt htg
      have hcount := (hothers top ((hbase _ _).mpr ⟨htopl, rfl⟩) hne).1
      exact (overlayed_of_last hnodup hsplit hbehind).1 top' (List.count_pos_iff.mp (by omega))
    rw [heq]
    exact hpri f ((hbase _ _).mpr ⟨(hmem f).mpr hf, hsame⟩)
  · intro h base hne
    obtain ⟨g, hg⟩ := List.exists_mem_of_ne_nil _ hne
    obtain ⟨top, hfind⟩ : ∃ top, l.reverse.find? (fun f => basename f = base) = some top := by
      apply Option.isSome_iff_exists.mp
      rw [List.find?_isSome]
      exact ⟨g, List.mem_reverse.mpr ((hbase _ _).mp hg).1, by simpa using ((hbase _ _).mp hg).2⟩
    obtain ⟨htopbase, a, b, hreverse, hnone⟩ := List.find?_eq_some_iff_append.mp hfind
    obtain rfl : basename top = base := by simpa using htopbase
    have hsplit : l = b.reverse ++ top :: a.reverse := by
      rw [← List.reverse_reverse l, hreverse]
      simp
    have hbehind : ∀ f ∈ a.reverse, basename f ≠ basename top := by
      intro f hf
      simpa using hnone f (List.mem_reverse.mp hf)
    have htopl : top ∈ l := by simp [hsplit]
    obtain ⟨hfree, hothers⟩ := overlayed_of_last hnodup hsplit hbehind
    refine ⟨top, (hbase _ _).mpr ⟨htopl, rfl⟩, hfree, ?_, ?_⟩
    · intro f hf hfne
      obtain ⟨hfl, hfbase⟩ := (hbase _ _).mp hf
      exact hothers f hfl hfbase hfne
    · intro f hf
      obtain ⟨hfl, hfbase⟩ := (hbase _ _).mp hf
      refine h top ((hmem top).mp htopl) ?_ f ((hmem f).mp hfl) hfbase
      intro f' hf' hfbase' hfne
      apply hearlier f' top hfne
      have hin : f' ∈ b.reverse := by
        have hl := (hmem f').mpr hf'
        rw [hsplit] at hl
        rcases List.mem_append.mp hl with hl | hl
        · exact hl
        · rcases List.mem_cons.mp hl with rfl | hl
          · exact absurd rfl hfne
          · exact absurd hfbase' (hbehind f' hl)
      rw [hsplit]
      exact List.Sublist.append (List.singleton_sublist.mpr hin) (List.singleton_sublist.mpr List.mem_cons_self)

def two_layers : List Layer :=
  [⟨text "core", text "/l/a", 10, by simp [text]⟩, ⟨text "other", text "/l/b", 5, by simp [text]⟩]

def two_recipes : Env where
  isdir := fun _ => none
  is_there := fun _ => false
  glob := fun _ => [text "/l/a/x.bb", text "/l/b/x.bb"]
  cwd := text "/"
  listdir := []
  compile := fun _ => none

theorem collected_of_two : (collect_bbfiles two_recipes two_layers (text "/l/*/*.bb") []).bbfiles =
    [text "/l/a/x.bb", text "/l/b/x.bb"] := by
  have hitems : items two_recipes two_layers (text "/l/*/*.bb") = [text "/l/*/*.bb"] := by decide
  have hexpand : expand two_recipes (text "/l/*/*.bb") = [text "/l/a/x.bb", text "/l/b/x.bb"] := by
    apply List.mergeSort_of_pairwise
    decide
  have hnew : newfiles_of two_recipes [text "/l/*/*.bb"] = [text "/l/a/x.bb", text "/l/b/x.bb"] := by
    unfold newfiles_of
    rw [List.foldl_cons, hexpand]
    decide
  unfold collect_bbfiles
  rw [hitems, hnew]
  decide

end yocto.layer_priorities
