-- The marker `/./` in the paths of checksum.py and siggen.py.
import Yocto.TaskHashes

open yocto.task_ids yocto.list_search yocto.siggen yocto.posix_path
open yocto.checksum_lists yocto.file_checksums yocto.task_hashes

namespace yocto.marked_paths

/-! ## Markers in a text -/

variable {a b s rel : Text}

theorem marker_before_dot (h : text "/./" <:+: a ++ text "/.") : text "/./" <:+: a ++ ['/'] := by
  have hform : a ++ text "/." = (a ++ ['/']) ++ ['.'] := by simp [text]
  rw [hform, List.infix_concat_iff] at h
  rcases h with h | h
  · exfalso
    obtain ⟨t, ht⟩ := h
    have hlast := congrArg List.getLast? ht
    simp [text] at hlast
  · exact h

theorem find_marker (h : ¬text "/./" <:+: a ++ text "/.") (b : Text) :
    find (text "/./") (a ++ text "/./" ++ b) = some a.length := by
  rw [find_eq_some_iff]
  refine ⟨by simp, by simp, ?_⟩
  intro j hj hp
  apply h
  have hform : a ++ text "/./" ++ b = (a ++ text "/.") ++ ('/' :: b) := by simp [text]
  rw [hform, List.drop_append_of_le_length (by simp [text]; omega)] at hp
  have hlen : (text "/./").length ≤ ((a ++ text "/.").drop j).length := by
    simp [text]
    omega
  exact (List.prefix_of_prefix_length_le hp (List.prefix_append _ _) hlen).isInfix.trans
    (List.drop_suffix j _).isInfix

/-- The text up to the next marker: what `after_dot` takes. -/
def upto (s : Text) : Text :=
  match find (text "/./") s with
  | some j => s.take j
  | none => s

theorem after_dot_eq (f : Text) (i : Nat) : after_dot f i = upto (f.drop (i + 3)) := rfl

theorem upto_eq_iff (h : ¬text "/./" <:+: rel ++ text "/.") :
    upto s = rel ↔ s = rel ∨ ∃ t, s = rel ++ text "/./" ++ t := by
  have hplain : ¬text "/./" <:+: rel := fun hin => h (hin.trans (List.prefix_append _ _).isInfix)
  constructor
  · intro hs
    unfold upto at hs
    split at hs
    · rename_i j hfind
      obtain ⟨-, ⟨t, ht⟩, -⟩ := (find_eq_some_iff _ _ _).mp hfind
      refine Or.inr ⟨t, ?_⟩
      rw [← hs, List.append_assoc, ht, List.take_append_drop]
    · exact Or.inl hs
  · rintro (rfl | ⟨t, rfl⟩)
    · unfold upto
      rw [(find_eq_none_iff _ _).mpr hplain]
    · unfold upto
      rw [find_marker h]
      simp

theorem clean_marked (h : ¬text "/./" <:+: a ++ text "/.") (b : Text) :
    clean_checksum_file_path (a ++ text "/./" ++ b) = text "./" ++ upto b := by
  unfold clean_checksum_file_path
  rw [find_marker h]
  dsimp only
  rw [after_dot_eq]
  congr 2
  simp [text]

/-! ## The path below a directory -/

/-- The text of a directory's path, without a slash at its end. -/
structure DirPath (pth : Text) : Prop where
  absolute : Absolute pth
  trimmed : ends_with_sep pth = false

/-- A path below a directory, from the slash on, with no component that is empty or a dot. -/
structure Tail (below : Text) : Prop where
  absolute : Absolute below
  trimmed : ends_with_sep below = false
  plain : ¬text "/./" <:+: below ++ ['/']

/-- What stands in the directory's path between its first marker and the next one, or its end. -/
def Own (pth rel : Text) : Prop :=
  ∃ a c, pth ++ text "/./" = a ++ text "/./" ++ rel ++ text "/./" ++ c ∧
    ¬text "/./" <:+: a ++ text "/."

/-- The text of the directory stands once in the path, with no marker in it. -/
def PartIsKept (pth below : Text) : Prop :=
  (¬text "/./" <:+: pth ++ ['/'] ∧ ¬pth <:+: below) ∨ Own pth below.tail

variable {pth below : Text}

theorem DirPath.ne_nil (h : DirPath pth) : pth ≠ [] := by
  rintro rfl
  cases h.absolute

theorem DirPath.mark_eq (h : DirPath pth) (below : Text) :
    mark pth (pth ++ below) =
      pth ++ text "/." ++ replace pth (pth ++ text "/.") below := by
  have hjoin : join pth (text ".") = pth ++ text "/." := by
    rw [join_eq h.ne_nil (by decide), h.trimmed]
    simp [text]
  unfold mark
  rw [hjoin, replace_start h.ne_nil]

theorem Tail.cons (h : Tail below) : below = '/' :: below.tail := by
  have habs := h.absolute
  cases below with
  | nil => cases habs
  | cons c rel =>
    obtain rfl := Option.some.inj habs
    rfl

theorem Tail.rel_plain (h : Tail below) : ¬text "/./" <:+: below.tail ++ text "/." := by
  intro hin
  apply h.plain
  rw [h.cons]
  exact (marker_before_dot hin).trans ⟨['/'], [], by simp⟩

theorem DirPath.marked (h : DirPath pth) (hb : Tail below) :
    ∃ rest, replace pth (pth ++ text "/.") below = '/' :: rest ∧
      mark pth (pth ++ below) = pth ++ text "/./" ++ rest := by
  have habs : Absolute (replace pth (pth ++ text "/.") below) :=
    hb.absolute.replace (h.absolute.append _)
  rw [h.mark_eq]
  cases hr : replace pth (pth ++ text "/.") below with
  | nil =>
    rw [hr] at habs
    cases habs
  | cons c rest =>
    rw [hr] at habs
    obtain rfl := Option.some.inj habs
    exact ⟨rest, rfl, by simp [text]⟩

theorem replaced_is_other (h : DirPath pth) (hb : Tail below) (hin : pth <:+: below) {more : Text}
    (hmore : more = [] ∨ ∃ t, more = text "/./" ++ t) :
    replace pth (pth ++ text "/.") below ≠ below ++ more := by
  intro heq
  obtain ⟨i, hfind⟩ : ∃ i, find pth below = some i := by
    cases hfind : find pth below with
    | none => exact absurd hin ((find_eq_none_iff _ _).mp hfind)
    | some i => exact ⟨i, rfl⟩
  obtain ⟨hi, ⟨v, hv⟩, hfirst⟩ := (find_eq_some_iff _ _ _).mp hfind
  have hbelow : below = below.take i ++ (pth ++ v) := by rw [hv, List.take_append_drop]
  have hlen : (below.take i).length = i := by simp [hi]
  have hreplace : replace pth (pth ++ text "/.") below =
      below.take i ++ ((pth ++ text "/.") ++ replace pth (pth ++ text "/.") v) := by
    conv_lhs => rw [hbelow]
    rw [replace_append_of_no_start, replace_start h.ne_nil]
    intro k hk
    rw [hv]
    have hdrop : (below.take i).drop k ++ below.drop i = below.drop k := by
      rw [← List.drop_append_of_le_length (by omega), List.take_append_drop]
    rw [hdrop]
    exact hfirst k (hlen ▸ hk)
  -- the dot that comes in stands against what the path has there
  have hrest : '/' :: '.' :: replace pth (pth ++ text "/.") v = v ++ more := by
    rw [hreplace] at heq
    conv_rhs at heq => rw [hbelow]
    have hdot : text "/." = ['/', '.'] := rfl
    simpa [hdot] using heq
  have hplain := hb.plain
  rw [hbelow] at hplain
  cases v with
  | nil =>
    rcases hmore with rfl | ⟨t, rfl⟩
    · cases hrest
    · have hlength := congrArg List.length hrest
      simp [text, replace, replaceFrom] at hlength
  | cons c v =>
    rw [List.cons_append] at hrest
    obtain ⟨rfl, hrest⟩ := List.cons.inj hrest
    cases v with
    | nil =>
      have htrim := hb.trimmed
      rw [hbelow] at htrim
      simp [ends_with_sep] at htrim
    | cons d v =>
      rw [List.cons_append] at hrest
      obtain ⟨rfl, hrest⟩ := List.cons.inj hrest
      cases v with
      | nil => exact hplain ⟨below.take i ++ pth, [], by simp [text]⟩
      | cons x v =>
        have habs : Absolute (replace pth (pth ++ text "/.") ('/' :: '.' :: x :: v)) :=
          Absolute.replace rfl (h.absolute.append _)
        rw [hrest] at habs
        obtain rfl : x = '/' := Option.some.inj habs
        exact hplain ⟨below.take i ++ pth, v ++ ['/'], by simp [text]⟩

theorem clean_of_unmarked (h : DirPath pth) (hb : Tail below)
    (hplain : ¬text "/./" <:+: pth ++ ['/']) :
    clean_checksum_file_path (mark pth (pth ++ below)) = text "./" ++ below.tail ↔
      ¬pth <:+: below := by
  obtain ⟨rest, hrest, hmark⟩ := h.marked hb
  rw [hmark, clean_marked (fun hin => hplain (marker_before_dot hin)), List.append_right_inj,
    upto_eq_iff hb.rel_plain]
  constructor
  · intro hpart hin
    have hcons := hb.cons
    rcases hpart with heq | ⟨t, heq⟩
    · apply replaced_is_other h hb hin (Or.inl rfl)
      rw [hrest, heq, List.append_nil]
      exact hcons.symm
    · apply replaced_is_other h hb hin (Or.inr ⟨t, rfl⟩)
      rw [hrest, heq]
      conv_rhs => rw [hcons]
      simp
  · intro hin
    left
    rw [replace_of_absent _ hin, hb.cons] at hrest
    exact (List.cons.inj hrest).2.symm

theorem marker_first (h : find (text "/./") (a ++ text "/./" ++ b) = some a.length) :
    ¬text "/./" <:+: a ++ text "/." := by
  intro hin
  obtain ⟨i, hfind, hi⟩ := find_append_le ('/' :: b) hin
  have hform : a ++ text "/." ++ '/' :: b = a ++ text "/./" ++ b := by simp [text]
  rw [hform, h] at hfind
  obtain rfl := Option.some.inj hfind
  simp [text] at hi

theorem cut_marker (h : text "/./" <:+: s) :
    ∃ a b, s = a ++ text "/./" ++ b ∧ ¬text "/./" <:+: a ++ text "/." := by
  obtain ⟨i, hfind⟩ : ∃ i, find (text "/./") s = some i := by
    cases hfind : find (text "/./") s with
    | none => exact absurd h ((find_eq_none_iff _ _).mp hfind)
    | some i => exact ⟨i, rfl⟩
  obtain ⟨hi, ⟨b, hb⟩, -⟩ := (find_eq_some_iff _ _ _).mp hfind
  have hs : s = s.take i ++ text "/./" ++ b := by
    rw [List.append_assoc, hb, List.take_append_drop]
  refine ⟨s.take i, b, hs, marker_first (b := b) ?_⟩
  rw [← hs, hfind, List.length_take, min_eq_left hi]

theorem behind_marker {a' b' : Text} (h : ¬text "/./" <:+: a ++ text "/.")
    (h' : ¬text "/./" <:+: a' ++ text "/.") (heq : a ++ text "/./" ++ b = a' ++ text "/./" ++ b') :
    a = a' ∧ b = b' := by
  have hfind := find_marker h b
  rw [heq, find_marker h'] at hfind
  have hlen := Option.some.inj hfind
  rw [List.append_assoc, List.append_assoc] at heq
  obtain ⟨rfl, hrest⟩ := List.append_inj heq hlen.symm
  exact ⟨rfl, List.append_cancel_left hrest⟩

theorem own_iff {pth : Text} (h : ¬text "/./" <:+: a ++ text "/.")
    (hpth : pth ++ ['/'] = a ++ text "/./" ++ b) (rel : Text) :
    Own pth rel ↔ ∃ c, b ++ text "./" = rel ++ text "/./" ++ c := by
  have hform : pth ++ text "/./" = a ++ text "/./" ++ (b ++ text "./") := by
    have hdot : pth ++ text "/./" = (pth ++ ['/']) ++ text "./" := by simp [text]
    rw [hdot, hpth, List.append_assoc]
  unfold Own
  rw [hform]
  constructor
  · rintro ⟨a', c, heq, hfirst⟩
    refine ⟨c, (behind_marker h hfirst ?_).2⟩
    rw [heq]
    simp
  · rintro ⟨c, heq⟩
    refine ⟨a, c, ?_, h⟩
    rw [heq]
    simp

theorem Tail.not_dot (h : Tail below) (t : Text) : below.tail ≠ text "./" ++ t := by
  intro heq
  apply h.plain
  rw [h.cons, heq]
  exact ⟨[], t ++ ['/'], by simp [text]⟩

theorem part_in_directory (hb : Tail below) {b rest : Text} (hslash : b = [] ∨ ∃ b', b = b' ++ ['/']) :
    (b ++ text "./" ++ rest = below.tail ∨ ∃ t, b ++ text "./" ++ rest = below.tail ++ text "/./" ++ t) ↔
      ∃ c, b ++ text "./" = below.tail ++ text "/./" ++ c := by
  constructor
  · rcases hslash with rfl | ⟨b', rfl⟩
    · rintro (heq | ⟨t, heq⟩)
      · exact absurd heq.symm (hb.not_dot rest)
      · exfalso
        have hdot : '.' :: '/' :: rest = below.tail ++ (text "/./" ++ t) := by
          simpa [text] using heq
        cases hrel : below.tail with
        | nil =>
          have htrim := hb.trimmed
          rw [hb.cons, hrel] at htrim
          simp [ends_with_sep] at htrim
        | cons c rel =>
          have hplain := hb.plain
          rw [hb.cons, hrel] at hplain
          rw [hrel, List.cons_append] at hdot
          obtain ⟨rfl, hslash⟩ := List.cons.inj hdot
          cases rel with
          | nil => exact hplain ⟨[], [], by simp [text]⟩
          | cons d rel =>
            obtain rfl : '/' = d := (List.cons.inj hslash).1
            exact hplain ⟨[], rel ++ ['/'], by simp [text]⟩
    · have hform : b' ++ ['/'] ++ text "./" = b' ++ text "/./" := by simp [text]
      rw [hform]
      rintro (heq | ⟨t, heq⟩)
      · exfalso
        apply hb.rel_plain
        rw [← heq]
        exact ⟨b', rest ++ text "/.", by simp⟩
      · by_cases hlen : below.tail.length ≤ b'.length
        · have hpre : below.tail ++ text "/./" <+: b' ++ text "/./" := by
            have hwhole : below.tail ++ text "/./" <+: b' ++ text "/./" ++ rest := by
              rw [heq]
              exact List.prefix_append _ _
            refine List.prefix_of_prefix_length_le hwhole (List.prefix_append _ _) ?_
            simpa using hlen
          obtain ⟨c, hc⟩ := hpre
          exact ⟨c, hc.symm⟩
        · exfalso
          apply hb.rel_plain
          have hpre : b' ++ text "/./" <+: below.tail ++ text "/." := by
            have hwhole : below.tail ++ text "/." <+: b' ++ text "/./" ++ rest := by
              rw [heq]
              exact ⟨'/' :: t, by simp [text]⟩
            refine List.prefix_of_prefix_length_le (List.prefix_append _ _) hwhole ?_
            simp only [List.length_append]
            have hthree : (text "/./").length = 3 := rfl
            have htwo : (text "/.").length = 2 := rfl
            omega
          exact (List.suffix_append b' _).isInfix.trans hpre.isInfix
  · rintro ⟨c, heq⟩
    refine Or.inr ⟨c ++ rest, ?_⟩
    rw [heq]
    simp

theorem clean_of_marked (h : DirPath pth) (hb : Tail below) (hin : text "/./" <:+: pth ++ ['/']) :
    clean_checksum_file_path (mark pth (pth ++ below)) = text "./" ++ below.tail ↔
      Own pth below.tail := by
  obtain ⟨rest, -, hmark⟩ := h.marked hb
  obtain ⟨a, b, hpth, hfirst⟩ := cut_marker hin
  have hslash : b = [] ∨ ∃ b', b = b' ++ ['/'] := by
    rcases List.eq_nil_or_concat b with hnil | ⟨b', c, hb'⟩
    · exact Or.inl hnil
    · right
      refine ⟨b', ?_⟩
      have hlast := congrArg List.getLast? hpth
      rw [hb'] at hlast ⊢
      simp at hlast
      simp [← hlast]
  have hform : pth ++ text "/./" ++ rest = a ++ text "/./" ++ (b ++ text "./" ++ rest) := by
    have hdot : pth ++ text "/./" ++ rest = (pth ++ ['/']) ++ text "./" ++ rest := by simp [text]
    rw [hdot, hpth]
    simp
  rw [hmark, hform, clean_marked hfirst, List.append_right_inj, upto_eq_iff hb.rel_plain,
    own_iff hfirst hpth]
  exact part_in_directory hb hslash

theorem clean_iff (h : DirPath pth) (hb : Tail below) :
    clean_checksum_file_path (mark pth (pth ++ below)) = text "./" ++ below.tail ↔
      PartIsKept pth below := by
  unfold PartIsKept
  by_cases hin : text "/./" <:+: pth ++ ['/']
  · rw [clean_of_marked h hb hin]
    simp [hin]
  · rw [clean_of_unmarked h hb hin]
    have hown : ¬Own pth below.tail := by
      rintro ⟨a, c, heq, -⟩
      apply hin
      have hpre : a ++ text "/./" <+: pth := by
        have hwhole : a ++ text "/./" <+: pth ++ text "/./" := by
          rw [heq]
          exact ⟨below.tail ++ text "/./" ++ c, by simp⟩
        refine List.prefix_of_prefix_length_le hwhole (List.prefix_append _ _) ?_
        have hlength := congrArg List.length heq
        have hthree : (text "/./").length = 3 := rfl
        simp only [List.length_append, hthree] at hlength ⊢
        omega
      exact ((List.suffix_append a _).isInfix.trans hpre.isInfix).trans
        (List.prefix_append pth _).isInfix
    simp [hin, hown]

/-! ## The files that are found -/

/-- The name of a file or of a directory, as a listing has it. -/
structure FileName (name : Text) : Prop where
  ne_nil : name ≠ []
  no_slash : '/' ∉ name
  not_dot : name ≠ text "."

mutual
/-- The files and directories of a tree have names. -/
def Named : Dir → Prop
  | .node files dirs => (∀ f ∈ files, FileName f) ∧ NamedDirs dirs

def NamedDirs : Dirs → Prop
  | .nil => True
  | .cons name dir rest => FileName name ∧ Named dir ∧ NamedDirs rest
end

/-- The path below a directory: its names, each behind a slash. -/
def below_path (names : List Text) : Text := names.flatMap fun name => '/' :: name

theorem below_path_concat (names : List Text) (name : Text) :
    below_path (names ++ [name]) = below_path names ++ '/' :: name := by
  simp [below_path]

theorem ends_with_name {name : Text} (h : FileName name) (s : Text) :
    ends_with_sep (s ++ name) = false := by
  obtain ⟨init, c, rfl⟩ := List.eq_nil_or_concat name |>.resolve_left h.ne_nil
  have hc : c ≠ '/' := by
    rintro rfl
    exact h.no_slash (by simp)
  simp [ends_with_sep, hc]

theorem join_name {root name : Text} (hroot : root ≠ []) (htrim : ends_with_sep root = false)
    (h : FileName name) : join root name = root ++ '/' :: name := by
  rw [join_eq hroot h.no_slash, htrim]
  simp

theorem DirPath.names_below (h : DirPath pth) {names : List Text} (hnames : ∀ n ∈ names, FileName n) :
    pth ++ below_path names ≠ [] ∧ ends_with_sep (pth ++ below_path names) = false := by
  refine ⟨by simp [h.ne_nil], ?_⟩
  rcases List.eq_nil_or_concat names with rfl | ⟨init, name, rfl⟩
  · simpa [below_path] using h.trimmed
  · rw [List.concat_eq_append, below_path_concat, ← List.append_assoc]
    have hform : pth ++ below_path init ++ '/' :: name = (pth ++ below_path init ++ ['/']) ++ name := by
      simp
    rw [hform]
    exact ends_with_name (hnames name (by simp)) _

mutual
theorem walk_below {localdirsexclude : List Text} (h : DirPath pth) (t : Dir) (ht : Named t)
    {names : List Text} (hnames : ∀ n ∈ names, FileName n) :
    ∀ x ∈ walk localdirsexclude (pth ++ below_path names) t,
      ∃ dirs, (∀ n ∈ dirs, FileName n) ∧ x.1 = pth ++ below_path dirs ∧ ∀ f ∈ x.2, FileName f :=
  match t with
  | .node files dirs => by
    intro x hx
    unfold Named at ht
    unfold walk at hx
    rcases List.mem_cons.mp hx with rfl | hx
    · exact ⟨names, hnames, rfl, ht.1⟩
    · exact walk_dirs_below h dirs ht.2 hnames x hx

theorem walk_dirs_below {localdirsexclude : List Text} (h : DirPath pth) (ds : Dirs)
    (hds : NamedDirs ds) {names : List Text} (hnames : ∀ n ∈ names, FileName n) :
    ∀ x ∈ walk_dirs localdirsexclude (pth ++ below_path names) ds,
      ∃ dirs, (∀ n ∈ dirs, FileName n) ∧ x.1 = pth ++ below_path dirs ∧ ∀ f ∈ x.2, FileName f :=
  match ds with
  | .nil => by simp [walk_dirs]
  | .cons name dir rest => by
    intro x hx
    unfold NamedDirs at hds
    unfold walk_dirs at hx
    rcases List.mem_append.mp hx with hx | hx
    · split at hx
      · cases hx
      · have hroot := h.names_below hnames
        rw [join_name hroot.1 hroot.2 hds.1, List.append_assoc, ← below_path_concat] at hx
        refine walk_below h dir hds.2.1 ?_ x hx
        intro n hn
        rcases List.mem_append.mp hn with hn | hn
        · exact hnames n hn
        · rw [List.mem_singleton.mp hn]
          exact hds.1
    · exact walk_dirs_below h rest hds.2.2 hnames x hx
end

theorem splitOn_below {names : List Text} (h : ∀ n ∈ names, FileName n) :
    ∃ rest, below_path names ++ ['/'] = '/' :: rest ∧ rest.splitOn '/' = names ++ [[]] := by
  induction names with
  | nil => exact ⟨[], rfl, rfl⟩
  | cons name names ih =>
    obtain ⟨rest, hrest, hsplit⟩ := ih fun n hn => h n (List.mem_cons_of_mem name hn)
    refine ⟨name ++ '/' :: rest, ?_, ?_⟩
    · rw [← hrest]
      simp [below_path]
    · rw [List.splitOn_append_cons_self, hsplit, List.splitOn_eq_singleton (h name List.mem_cons_self).no_slash]
      rfl

theorem below_tail {names : List Text} (h : ∀ n ∈ names, FileName n) (hne : names ≠ []) :
    Tail (below_path names) where
  absolute := by
    cases names with
    | nil => exact absurd rfl hne
    | cons name names => rfl
  trimmed := by
    obtain ⟨init, name, rfl⟩ := List.eq_nil_or_concat names |>.resolve_left hne
    rw [List.concat_eq_append] at h ⊢
    have hform : below_path (init ++ [name]) = (below_path init ++ ['/']) ++ name := by
      rw [below_path_concat]
      simp
    rw [hform]
    exact ends_with_name (h name (by simp)) _
  plain := by
    rintro ⟨s, t, hst⟩
    obtain ⟨rest, hrest, hsplit⟩ := splitOn_below h
    have hdot : text "." ∈ ('/' :: rest).splitOn '/' := by
      rw [← hrest, ← hst]
      have hform : s ++ text "/./" ++ t = s ++ '/' :: (text "." ++ '/' :: t) := by simp [text]
      rw [hform, List.splitOn_append_cons_self, List.splitOn_append_cons_self]
      simp [List.splitOn_eq_singleton (show '/' ∉ text "." by decide)]
    have hcons : ('/' :: rest).splitOn '/' = [] :: rest.splitOn '/' := List.splitOn_append_cons_self [] rest
    rw [hcons, hsplit] at hdot
    have hmem : text "." ∈ names := by
      simpa [text] using hdot
    exact (h _ hmem).not_dot rfl

theorem found_below {localdirsexclude : List Text} (h : DirPath pth) {t : Dir} (ht : Named t)
    {x : Text × Text} (hx : x ∈ found (walk localdirsexclude pth t)) :
    ∃ below, Tail below ∧ join x.1 x.2 = pth ++ below := by
  obtain ⟨y, hy, hx⟩ := List.mem_flatMap.mp hx
  obtain ⟨name, hname, rfl⟩ := List.mem_map.mp hx
  have hstart : pth ++ below_path [] = pth := by simp [below_path]
  rw [← hstart] at hy
  obtain ⟨dirs, hdirs, hroot, hfiles⟩ := walk_below h t ht (by simp) y hy
  have hnames : ∀ n ∈ dirs ++ [name], FileName n := by
    intro n hn
    rcases List.mem_append.mp hn with hn | hn
    · exact hdirs n hn
    · rw [List.mem_singleton.mp hn]
      exact hfiles name hname
  refine ⟨below_path (dirs ++ [name]), below_tail hnames (by simp), ?_⟩
  have hbelow := h.names_below hdirs
  dsimp only
  rw [hroot, join_name hbelow.1 hbelow.2 (hfiles name hname), below_path_concat, List.append_assoc]

/-! ## The hash of a task -/

/-- The hash of a task does not depend on the order of its dependencies, nor on that in which
patterns and directories give their files. And the part of the path of a file below a directory
that is hashed is its path below that directory exactly where `PartIsKept` says so. -/
theorem hashes_are_stable (localdirsexclude : List Text) :
    (∀ (hash : Sha256) (caches : DataCaches)
      (rundep_check : Text → Text → Text → Text → Text → Bool) (server : Text → Option Text)
      (fs fs' : FileSystem) (s : Siggen) (tid : Text)
      (deps deps' : List Text) (filelist uuid : Text) (taint : Option Text),
      deps.Perm deps' → fs.Reordered fs' → AbsoluteList filelist →
      task_hash hash caches rundep_check server fs localdirsexclude s tid deps filelist uuid taint =
        task_hash hash caches rundep_check server fs' localdirsexclude s tid deps' filelist uuid
          taint) ∧
    (∀ (pth : Text) (t : Dir), DirPath pth → Named t →
      ∀ x ∈ found (walk localdirsexclude pth t), ∃ rel, join x.1 x.2 = pth ++ '/' :: rel ∧
        (clean_checksum_file_path (mark pth (join x.1 x.2)) = text "./" ++ rel ↔
          PartIsKept pth ('/' :: rel))) := by
  constructor
  · intro hash caches rundep_check server fs fs' s tid deps deps' filelist uuid taint
      hdeps hfs habs
    exact task_hash_perm hdeps hfs habs
  · intro pth t hpth ht x hx
    obtain ⟨below, hbelow, hjoin⟩ := found_below hpth ht hx
    refine ⟨below.tail, ?_, ?_⟩
    · rw [hjoin, hbelow.cons]
      rfl
    · rw [hjoin, clean_iff hpth hbelow, ← hbelow.cons]

/-- A directory with some files in it, and nothing else. -/
def one_directory (files : List Text) : FileSystem where
  glob := fun _ => []
  isdir := fun f => f = text "/d"
  islink := fun _ => false
  tree := fun pth => if pth = text "/d" then .node files .nil else .node [] .nil
  checksum_file := fun f => some f
  tree_nil := rfl
  glob_absolute := fun _ _ _ hf => nomatch hf

def two_files : FileSystem := one_directory [text "x", text "y"]

def two_files_again : FileSystem := one_directory [text "y", text "x"]

def known : Siggen :=
  { Siggen.init (fun _ => none) [] with
    taskhash := fun tid => some tid
    tidtopn := fun _ => some (text "p") }

def one_recipe : DataCaches :=
  { basetaskhash := fun tid => some tid, pkg_fn := fun _ => some (text "p"), nostamp := fun _ => false }

theorem two_orders_give_one_hash :
    (∀ hash : Sha256,
      task_hash hash one_recipe (fun _ _ _ _ _ => true) (fun _ => none) two_files [] known
          (text "r:do_a") [text "p:do_b", text "q:do_c"] (text "/d:True") [] none =
        task_hash hash one_recipe (fun _ _ _ _ _ => true) (fun _ => none) two_files_again [] known
          (text "r:do_a") [text "q:do_c", text "p:do_b"] (text "/d:True") [] none) ∧
    clean_checksum_file_path (mark (text "/d") (join (text "/d") (text "x"))) = text "./x" := by
  have hpth : DirPath (text "/d") := ⟨rfl, rfl⟩
  have hname : ∀ c : Char, c ≠ '/' → c ≠ '.' → FileName [c] := by
    intro c hslash hdot
    exact ⟨by simp, by simpa using hslash.symm, by simpa [text] using hdot⟩
  have hnames : ∀ f ∈ [text "x", text "y"], FileName f := by
    intro f hf
    rcases List.mem_cons.mp hf with rfl | hf
    · exact hname 'x' (by decide) (by decide)
    · rw [List.mem_singleton.mp hf]
      exact hname 'y' (by decide) (by decide)
  constructor
  · intro hash
    apply (hashes_are_stable []).1
    · exact List.Perm.swap _ _ _
    · exact {
        glob := fun _ => List.Perm.refl _
        isdir := rfl
        islink := rfl
        tree := by
          intro pth
          change Dir.Reordered (if pth = text "/d" then _ else _) (if pth = text "/d" then _ else _)
          split
          · exact .node (List.Perm.swap _ _ _) .nil
          · exact .node (List.Perm.refl _) .nil
        checksum_file := rfl }
    · intro entries hentries entry hentry
      have hread : get_checksums_entries (text "/d:True") = some [(text "/d", text "True")] := by
        decide +kernel
      rw [hread] at hentries
      obtain rfl := Option.some.inj hentries
      rw [List.mem_singleton.mp hentry]
      rfl
  · obtain ⟨rel, hrel, hpart⟩ := (hashes_are_stable []).2 (text "/d")
      (.node [text "x", text "y"] .nil) hpth ⟨hnames, trivial⟩ (text "/d", text "x") (by
        simp [walk, walk_dirs, found])
    have hjoin : join (text "/d") (text "x") = text "/d" ++ '/' :: text "x" := by decide
    obtain rfl : text "x" = rel := by
      rw [hjoin] at hrel
      exact (List.cons.inj (List.append_cancel_left hrel)).2
    exact hpart.mpr (Or.inl ⟨by decide, by decide⟩)

/-- The directory `/a` comes again in the path of a file in a directory `a` below it, and of such a
path only the directory is hashed. -/
theorem directory_is_marked_twice :
    DirPath (text "/a") ∧
    found (walk [] (text "/a") (.node [] (.cons (text "a") (.node [text "x", text "y"] .nil) .nil))) =
      [(text "/a/a", text "x"), (text "/a/a", text "y")] ∧
    clean_checksum_file_path (mark (text "/a") (join (text "/a/a") (text "x"))) = text "./a" ∧
    clean_checksum_file_path (mark (text "/a") (join (text "/a/a") (text "y"))) = text "./a" := by
  refine ⟨⟨by decide, by decide⟩, by decide +kernel, by decide +kernel, by decide +kernel⟩

end yocto.marked_paths
