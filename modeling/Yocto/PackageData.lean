-- The data files of packages (packagedata.py of oe): a line for each variable, in the form for
-- the package or in the general one, with its value escaped.
import Yocto.Dependencies
import Yocto.OutputHash
import Yocto.TextLines
import Yocto.UnicodeEscape

open yocto.list_search yocto.task_ids yocto.ordered_dict yocto.data_smart yocto.dependencies
open yocto.unicode_escape yocto.text_lines
open yocto.output_hash (decimal)

namespace yocto.package_data

/-! ## Writing -/

def truthy (val : Option Text) : Option Text := val.filter (· ≠ [])

/-- The name of a variable in the form for a package. -/
def for_pkg (pkg var : Text) : Text := var ++ ':' :: pkg

/-- `write_if_exists`: what is written. -/
def write_if_exists (getVar : Text → Option Text) (pkg var : Text) : Text :=
  match truthy (getVar (for_pkg pkg var)) with
  | some val => for_pkg pkg var ++ text ": " ++ encode val ++ ['\n']
  | none =>
    match truthy (getVar var) with
    | some val => var ++ text ": " ++ encode val ++ ['\n']
    | none => []

/-- The variables of a package that `emit_pkgdata` writes, in their order. -/
def pkgdata_vars (getVar : Text → Option Text) (pkg : Text) : List Text :=
  let files := fun flist => sorted_texts (words ((getVar (for_pkg pkg flist)).getD []))
  words ((getVar (text "PKGDATA_VARS")).getD []) ++
    text "FILERPROVIDESFLIST" :: (files (text "FILERPROVIDESFLIST")).map (text "FILERPROVIDES:" ++ ·) ++
    text "FILERDEPENDSFLIST" :: (files (text "FILERDEPENDSFLIST")).map (text "FILERDEPENDS:" ++ ·)

def subdata (getVar : Text → Option Text) (pkg : Text) (total_size : Nat) : Text :=
  (pkgdata_vars getVar pkg).flatMap (write_if_exists getVar pkg) ++
    (for_pkg pkg (text "PKGSIZE") ++ text ": " ++ decimal total_size ++ ['\n'])

/-! ## Reading -/

/-- The first colon with white space behind it: what is before the colon and after the white space. -/
def split_key : Text → Option (Text × Text)
  | [] => none
  | c :: s =>
    if c = ':' ∧ s.head?.any isspace then some ([], s.dropWhile isspace)
    else if c = '\n' then none
    else (split_key s).map fun (key, val) => (c :: key, val)

/-- The groups of a line for `(^.+?):\s+(.*)`. -/
def match_line : Text → Option (Text × Text)
  | [] => none
  | c :: s =>
    if c = '\n' then none
    else (split_key s).map fun (key, val) => (c :: key, val.takeWhile (· ≠ '\n'))

/-- `read_pkgdatafile`, for a file that may not be there. -/
def read_pkgdatafile (file : Option Text) : Option (OrderedDict Text Text) :=
  match file with
  | none => some []
  | some s => (readlines s).foldlM (fun pkgdata l =>
      match match_line l with
      | none => some pkgdata
      | some (key, val) => (decode val).map (OrderedDict.set pkgdata key)) []

/-- The loop of `read_subpkgdata_dict`. -/
def collapse (pkg : Text) (subd : OrderedDict Text Text) (ret : OrderedDict Text Text) (entry : Text × Text) :
    OrderedDict Text Text :=
  let newvar := replace (':' :: pkg) [] entry.1
  if newvar = entry.1 ∧ (subd.get? (for_pkg pkg entry.1)).isSome then ret else ret.set newvar entry.2

def read_subpkgdata_dict (pkg : Text) (subd : OrderedDict Text Text) : OrderedDict Text Text :=
  subd.foldl (collapse pkg subd) []

/-! ## What is written -/

/-- A line of the file: a variable in one of the two forms, with its value. -/
structure Entry where
  var : Text
  specific : Bool
  value : Text
  deriving DecidableEq

def Entry.key (pkg : Text) (e : Entry) : Text := if e.specific then for_pkg pkg e.var else e.var

def Entry.line (pkg : Text) (e : Entry) : Text := e.key pkg ++ text ": " ++ encode e.value ++ ['\n']

def entry_of (getVar : Text → Option Text) (pkg var : Text) : Option Entry :=
  match truthy (getVar (for_pkg pkg var)) with
  | some val => some ⟨var, true, val⟩
  | none => (truthy (getVar var)).map fun val => ⟨var, false, val⟩

def entries (getVar : Text → Option Text) (pkg : Text) (total_size : Nat) : List Entry :=
  (pkgdata_vars getVar pkg).filterMap (entry_of getVar pkg) ++ [⟨text "PKGSIZE", true, decimal total_size⟩]

theorem write_if_exists_eq (getVar : Text → Option Text) (pkg var : Text) :
    write_if_exists getVar pkg var = (entry_of getVar pkg var).elim [] (Entry.line pkg) := by
  unfold write_if_exists entry_of
  cases truthy (getVar (for_pkg pkg var)) with
  | some val => rfl
  | none =>
    dsimp only
    cases truthy (getVar var) with
    | some val => rfl
    | none => rfl

theorem digit_printable {c : Char} {n : Nat} (h : c ∈ decimal n) : Printable c ∧ c ≠ backslash := by
  have hdigit := Nat.isDigit_of_mem_toDigits (by decide) (by decide) h
  simp only [Char.isDigit, Bool.and_eq_true, decide_eq_true_eq] at hdigit
  obtain ⟨hlow, hhigh⟩ := hdigit
  rw [ge_iff_le, UInt32.le_iff_toNat_le] at hlow
  rw [UInt32.le_iff_toNat_le] at hhigh
  have hlow : 48 ≤ c.toNat := hlow
  have hhigh : c.toNat ≤ 57 := hhigh
  refine ⟨⟨by omega, by omega⟩, fun heq => ?_⟩
  have hback : c.toNat = 92 := by rw [heq]; rfl
  omega

theorem subdata_eq (getVar : Text → Option Text) (pkg : Text) (total_size : Nat) :
    subdata getVar pkg total_size = (entries getVar pkg total_size).flatMap (Entry.line pkg) := by
  have hvars : ∀ vars : List Text, vars.flatMap (write_if_exists getVar pkg) =
      (vars.filterMap (entry_of getVar pkg)).flatMap (Entry.line pkg) := by
    intro vars
    induction vars with
    | nil => rfl
    | cons var vars ih =>
      rw [List.flatMap_cons, write_if_exists_eq, ih, List.filterMap_cons]
      cases entry_of getVar pkg var with
      | none => rfl
      | some e => rfl
  have hsize : encode (decimal total_size) = decimal total_size := encode_printable fun c hc => digit_printable hc
  rw [subdata, entries, List.flatMap_append, ← hvars, List.flatMap_singleton, Entry.line, hsize]
  rfl

/-! ## The lines are read back -/

def NoSpace (name : Text) : Prop := ∀ c ∈ name, isspace c = false

theorem noSpace_of_all {name : Text} (h : (name.all fun c => !isspace c) = true) : NoSpace name := by
  simpa [NoSpace] using h

/-- An entry with a name that is a word, and a value that does not start with a space. -/
structure Readable (pkg : Text) (e : Entry) : Prop where
  nonempty : e.key pkg ≠ []
  no_space : NoSpace (e.key pkg)
  value : e.value ≠ []
  head : e.value.head? ≠ some ' '

theorem isspace_printable {c : Char} (h : Printable c) (hne : c ≠ ' ') : isspace c = false := by
  obtain ⟨hlow, hhigh⟩ := h
  have hn : c.toNat ≠ 32 := fun heq => hne (Char.toNat_inj.mp heq)
  simp only [isspace, Bool.or_eq_false_iff, Bool.and_eq_false_iff, decide_eq_false_iff_not]
  omega

theorem split_key_at {key rest : Text} (hkey : NoSpace key) :
    split_key (key ++ ':' :: ' ' :: rest) = some (key, rest.dropWhile isspace) := by
  induction key with
  | nil =>
    have hspace : isspace ' ' = true := by decide
    simp [split_key, hspace]
  | cons c key ih =>
    rw [NoSpace, List.forall_mem_cons] at hkey
    have hne : c ≠ '\n' := by
      rintro rfl
      exact absurd hkey.1 (by decide)
    have hcolon : ¬(c = ':' ∧ (key ++ ':' :: ' ' :: rest).head?.any isspace = true) := by
      rintro ⟨-, hany⟩
      cases key with
      | nil => simp [isspace] at hany
      | cons d key => simp [hkey.2 d List.mem_cons_self] at hany
    rw [List.cons_append, split_key, if_neg hcolon, if_neg hne, ih hkey.2]
    rfl

theorem match_line_entry {pkg : Text} {e : Entry} (h : Readable pkg e) :
    match_line (e.line pkg) = some (e.key pkg, encode e.value) := by
  obtain ⟨d, rest, hencode, hd⟩ := head_encode h.value h.head
  have hprintable : ∀ c ∈ encode e.value, Printable c := printable_encode
  have hnewline : ∀ c ∈ encode e.value, decide (c ≠ '\n') = true := by
    intro c hc
    have := (hprintable c hc).1
    rw [decide_eq_true_eq]
    rintro rfl
    exact absurd this (by decide)
  have hdrop : (encode e.value ++ ['\n']).dropWhile isspace = encode e.value ++ ['\n'] := by
    have hspace : isspace d = false := isspace_printable (hprintable d (hencode ▸ List.mem_cons_self)) hd
    rw [hencode, List.cons_append, List.dropWhile_cons, hspace]
    rfl
  have htake : (encode e.value ++ ['\n']).takeWhile (fun c => decide (c ≠ '\n')) = encode e.value := by
    rw [List.takeWhile_append_of_pos hnewline]
    simp
  obtain ⟨c, key, hkey⟩ := List.exists_cons_of_ne_nil h.nonempty
  have hkeys : NoSpace (c :: key) := hkey ▸ h.no_space
  rw [NoSpace, List.forall_mem_cons] at hkeys
  have hc : c ≠ '\n' := by
    rintro rfl
    exact absurd hkeys.1 (by decide)
  have hline : e.line pkg = c :: (key ++ ':' :: ' ' :: (encode e.value ++ ['\n'])) := by
    rw [Entry.line, hkey]
    simp [text]
  rw [hline, match_line, if_neg hc, split_key_at hkeys.2, hdrop, Option.map_some]
  dsimp only
  rw [htake, ← hkey]

theorem line_line {pkg : Text} {e : Entry} (h : Readable pkg e) : Line (e.line pkg) := by
  have hkey : ∀ c, isspace c = true → c ∉ e.key pkg := fun c hc hmem => by
    rw [h.no_space c hmem] at hc
    cases hc
  have hvalue : ∀ c : Char, c.toNat < 32 → c ∉ encode e.value := fun c hc hmem => by
    have := (printable_encode c hmem).1
    omega
  refine ⟨_, rfl, ?_, ?_⟩
  · simp [text, hkey '\n' (by decide), hvalue '\n' (by decide)]
  · simp [text, hkey '\r' (by decide), hvalue '\r' (by decide)]

theorem readlines_entries {pkg : Text} {l : List Entry} (h : ∀ e ∈ l, Readable pkg e) :
    readlines (l.flatMap (Entry.line pkg)) = l.map (Entry.line pkg) := by
  rw [List.flatMap_def]
  apply readlines_flatten
  intro line hline
  obtain ⟨e, he, rfl⟩ := List.mem_map.mp hline
  exact line_line (h e he)

def written_dict (pkg : Text) (l : List Entry) : OrderedDict Text Text :=
  l.foldl (fun d e => d.set (e.key pkg) e.value) []

theorem read_entries {pkg : Text} {l : List Entry} (h : ∀ e ∈ l, Readable pkg e) :
    read_pkgdatafile (some (l.flatMap (Entry.line pkg))) = some (written_dict pkg l) := by
  unfold read_pkgdatafile written_dict
  dsimp only
  rw [readlines_entries h]
  generalize ([] : OrderedDict Text Text) = d
  induction l generalizing d with
  | nil => rfl
  | cons e l ih =>
    rw [List.forall_mem_cons] at h
    rw [List.map_cons, List.foldlM_cons, match_line_entry h.1]
    dsimp only
    rw [decode_encode, Option.map_some]
    exact ih h.2 _

/-! ## The names without the package -/

section Collapse

variable {pkg : Text} {l : List Entry}

def last_value (pkg : Text) (l : List Entry) (key : Text) : Option Text :=
  (l.reverse.find? fun e => e.key pkg = key).map Entry.value

theorem get?_written_dict (key : Text) : (written_dict pkg l).get? key = last_value pkg l key := by
  unfold written_dict last_value
  induction l using List.reverseRecOn with
  | nil => rfl
  | append_singleton l e ih =>
    rw [List.foldl_append, List.reverse_append]
    simp only [List.foldl_cons, List.foldl_nil, List.reverse_singleton, List.singleton_append, List.find?_cons]
    by_cases hkey : e.key pkg = key
    · rw [← hkey, OrderedDict.get?_set_self]
      simp
    · rw [OrderedDict.get?_set_other _ _ (Ne.symm hkey), ih]
      simp [hkey]

theorem mem_written_dict {x : Text × Text} (h : x ∈ written_dict pkg l) :
    (∃ e ∈ l, e.key pkg = x.1) ∧ last_value pkg l x.1 = some x.2 := by
  rw [← get?_written_dict]
  unfold written_dict at h ⊢
  induction l using List.reverseRecOn with
  | nil => simp at h
  | append_singleton l e ih =>
    rw [List.foldl_append] at h ⊢
    simp only [List.foldl_cons, List.foldl_nil] at h ⊢
    by_cases hkey : x.1 = e.key pkg
    · rw [hkey, OrderedDict.get?_set_self, OrderedDict.eq_of_mem_set h hkey]
      exact ⟨⟨e, by simp, rfl⟩, rfl⟩
    · rcases OrderedDict.mem_of_mem_set h with h | rfl
      · obtain ⟨⟨e', he', hkey'⟩, hvalue⟩ := ih h
        rw [OrderedDict.get?_set_other _ _ hkey]
        exact ⟨⟨e', List.mem_append_left _ he', hkey'⟩, hvalue⟩
      · exact absurd rfl hkey

theorem last_value_isSome {e : Entry} (he : e ∈ l) : (last_value pkg l (e.key pkg)).isSome := by
  unfold last_value
  rw [Option.isSome_map, List.find?_isSome]
  exact ⟨e, List.mem_reverse.mpr he, by simp⟩

/-- An entry of the dict is kept under this name. -/
def Kept (pkg : Text) (subd : OrderedDict Text Text) (x : Text × Text) (name : Text) : Prop :=
  replace (':' :: pkg) [] x.1 = name ∧ ¬(name = x.1 ∧ (subd.get? (for_pkg pkg x.1)).isSome = true)

theorem collapse_none {subd d ret : OrderedDict Text Text} {name : Text}
    (h : ∀ x ∈ d, ¬Kept pkg subd x name) : (d.foldl (collapse pkg subd) ret).get? name = ret.get? name := by
  induction d generalizing ret with
  | nil => rfl
  | cons x d ih =>
    rw [List.forall_mem_cons] at h
    rw [List.foldl_cons, ih h.2]
    unfold collapse
    dsimp only
    split
    · rfl
    · rename_i hskip
      refine OrderedDict.get?_set_other _ _ fun heq => h.1 ⟨heq.symm, ?_⟩
      rw [heq]
      exact hskip

theorem collapse_some {subd d ret : OrderedDict Text Text} {name value : Text}
    (hsame : ∀ x ∈ d, Kept pkg subd x name → x.2 = value)
    (hsome : ret.get? name = some value ∨ ∃ x ∈ d, Kept pkg subd x name) :
    (d.foldl (collapse pkg subd) ret).get? name = some value := by
  induction d generalizing ret with
  | nil => simpa using hsome
  | cons x d ih =>
    rw [List.forall_mem_cons] at hsame
    rw [List.foldl_cons]
    apply ih hsame.2
    by_cases hkept : Kept pkg subd x name
    · left
      unfold collapse
      dsimp only
      rw [if_neg (by rw [hkept.1]; exact hkept.2), hkept.1, OrderedDict.get?_set_self, hsame.1 hkept]
    · rcases hsome with hret | ⟨y, hy, hykept⟩
      · left
        rw [← hret]
        refine @collapse_none _ _ [x] _ _ fun z hz => ?_
        rw [List.mem_singleton.mp hz]
        exact hkept
      · rcases List.mem_cons.mp hy with rfl | hy
        · exact absurd hykept hkept
        · exact .inr ⟨y, hy, hykept⟩

theorem marker_pkg (hpkg : ':' ∉ pkg) : Marker (':' :: pkg) := ⟨':', pkg, rfl, hpkg⟩

theorem replace_key {e : Entry} (hpkg : ':' ∉ pkg) (hout : ¬(':' :: pkg) <:+: e.var) :
    replace (':' :: pkg) [] (e.key pkg) = e.var := by
  unfold Entry.key for_pkg
  split
  · have := (marker_pkg hpkg).replace_append [] [] hout
    simpa [replace, replaceFrom] using this
  · exact replace_of_absent [] hout

theorem replace_key_lt {e : Entry} (hpkg : ':' ∉ pkg) (hin : (':' :: pkg) <:+: e.var) :
    (replace (':' :: pkg) [] (e.key pkg)).length < e.var.length := by
  have hm := marker_pkg hpkg
  obtain ⟨a, b, hvar, ha⟩ := hm.exists_first hin
  have hlen : e.var.length = a.length + (pkg.length + 1 + b.length) := by
    rw [hvar, List.length_append, List.length_append, List.length_cons]
  -- In the form for the package, one more package stands at the end.
  have hrest : ∃ rest, e.key pkg = a ++ ((':' :: pkg) ++ rest) ∧
      (replace (':' :: pkg) [] rest).length ≤ b.length := by
    unfold Entry.key for_pkg
    split
    · refine ⟨b ++ ':' :: pkg, by rw [hvar]; simp, ?_⟩
      obtain ⟨a', b', hrest, ha'⟩ := hm.exists_first (List.suffix_append b (':' :: pkg)).isInfix
      have hle := length_remove_le (':' :: pkg) b'
      have hlen' := congrArg List.length hrest
      rw [hrest, hm.replace_append [] b' ha']
      simp only [List.length_append, List.length_cons, List.nil_append] at hlen' ⊢
      omega
    · exact ⟨b, hvar, length_remove_le _ b⟩
  obtain ⟨rest, hkey, hle⟩ := hrest
  rw [hkey, hm.replace_append [] rest ha]
  simp only [List.length_append, List.nil_append]
  omega

theorem collapse_names (hpkg : ':' ∉ pkg) (hout : ∀ e ∈ l, ¬(':' :: pkg) <:+: e.var)
    {e : Entry} (he : e ∈ l) :
    (read_subpkgdata_dict pkg (written_dict pkg l)).get? e.var =
      (last_value pkg l (for_pkg pkg e.var)).or (last_value pkg l e.var) := by
  have hkept : ∀ x ∈ written_dict pkg l, Kept pkg (written_dict pkg l) x e.var →
      some x.2 = (last_value pkg l (for_pkg pkg e.var)).or (last_value pkg l e.var) := by
    intro x hx hkeep
    obtain ⟨⟨e', he', hkey⟩, hvalue⟩ := mem_written_dict hx
    obtain ⟨hname, hskip⟩ := hkeep
    rw [← hkey, replace_key hpkg (hout e' he')] at hname
    rw [get?_written_dict] at hskip
    rw [← hkey] at hvalue hskip
    unfold Entry.key at hvalue hskip
    split at hvalue
    · rw [← hname, hvalue]
      rfl
    · rename_i hgeneral
      rw [if_neg hgeneral, not_and, Bool.not_eq_true, Option.isSome_eq_false_iff, Option.isNone_iff_eq_none] at hskip
      rw [← hname, hskip hname.symm, hvalue]
      rfl
  have hsome : (last_value pkg l (for_pkg pkg e.var)).isSome ∨ (last_value pkg l e.var).isSome := by
    have := @last_value_isSome pkg l _ he
    unfold Entry.key at this
    split at this
    · exact .inl this
    · exact .inr this
  have hmem : ∀ {key value}, last_value pkg l key = some value → (key, value) ∈ written_dict pkg l := by
    intro key value h
    rw [← get?_written_dict] at h
    exact OrderedDict.mem_of_get? h
  have hfind : ∃ x ∈ written_dict pkg l, Kept pkg (written_dict pkg l) x e.var := by
    rcases hspecific : last_value pkg l (for_pkg pkg e.var) with _ | value
    · rw [hspecific] at hsome
      obtain ⟨value, hvalue⟩ := Option.isSome_iff_exists.mp (hsome.resolve_left (by simp))
      refine ⟨_, hmem hvalue, replace_of_absent [] (hout e he), fun h => ?_⟩
      have hin := h.2
      rw [get?_written_dict, hspecific] at hin
      cases hin
    · refine ⟨_, hmem hspecific, @replace_key _ ⟨e.var, true, value⟩ hpkg (hout e he), fun h => ?_⟩
      have hlen := congrArg List.length h.1
      simp [for_pkg] at hlen
  obtain ⟨x, hx, hkeep⟩ := hfind
  rw [← hkept x hx hkeep]
  refine collapse_some (fun y hy hkeepy => ?_) (.inr ⟨x, hx, hkeep⟩)
  exact Option.some.inj ((hkept y hy hkeepy).trans (hkept x hx hkeep).symm)

theorem collapse_loses (hpkg : ':' ∉ pkg) {e : Entry} (hin : (':' :: pkg) <:+: e.var)
    (hlongest : ∀ e' ∈ l, (':' :: pkg) <:+: e'.var → e'.var.length ≤ e.var.length) :
    (read_subpkgdata_dict pkg (written_dict pkg l)).get? e.var = none := by
  refine collapse_none fun x hx hkeep => ?_
  obtain ⟨⟨e', he', hkey⟩, -⟩ := mem_written_dict hx
  obtain ⟨hname, -⟩ := hkeep
  rw [← hkey] at hname
  by_cases hin' : (':' :: pkg) <:+: e'.var
  · have hlt := @replace_key_lt _ e' hpkg hin'
    have hle := hlongest e' he' hin'
    rw [hname] at hlt
    omega
  · rw [replace_key hpkg hin'] at hname
    exact hin' (hname ▸ hin)

end Collapse

/-! ## The round trip -/

/-- A name of a package, as `split` finds them: without white space, and without a colon. -/
structure PackageName (pkg : Text) : Prop where
  no_colon : ':' ∉ pkg
  no_space : NoSpace pkg

/-- The data of a package is read back as it was written: each key with its value, and each
variable with the value for the package or with the general one. -/
def RoundTrips (getVar : Text → Option Text) (pkg : Text) (total_size : Nat) : Prop :=
  let l := entries getVar pkg total_size
  ∃ subd, read_pkgdatafile (some (subdata getVar pkg total_size)) = some subd ∧
    (∀ key, subd.get? key = last_value pkg l key) ∧
    ∀ e ∈ l, (read_subpkgdata_dict pkg subd).get? e.var =
      (last_value pkg l (for_pkg pkg e.var)).or (last_value pkg l e.var)

theorem mem_sorted_texts {w : Text} {l : List Text} : w ∈ sorted_texts l ↔ w ∈ l :=
  (List.perm_insertionSort _ l).mem_iff

theorem pkgdata_vars_word {getVar : Text → Option Text} {pkg var : Text} (h : var ∈ pkgdata_vars getVar pkg) :
    var ≠ [] ∧ NoSpace var := by
  have hfile : ∀ (start : Text) (s file : Text), NoSpace start → file ∈ sorted_texts (words s) →
      NoSpace (start ++ file) := by
    intro start s file hstart hmem c hc
    rcases List.mem_append.mp hc with hc | hc
    · exact hstart c hc
    · exact (mem_words (mem_sorted_texts.mp hmem)).2 c hc
  simp only [pkgdata_vars, List.mem_append, List.mem_cons, List.mem_map] at h
  rcases h with (h | rfl | ⟨file, hmem, rfl⟩) | rfl | ⟨file, hmem, rfl⟩
  · exact mem_words h
  · exact ⟨by decide, noSpace_of_all (by decide)⟩
  · exact ⟨by simp [text], hfile _ _ _ (noSpace_of_all (by decide)) hmem⟩
  · exact ⟨by decide, noSpace_of_all (by decide)⟩
  · exact ⟨by simp [text], hfile _ _ _ (noSpace_of_all (by decide)) hmem⟩

theorem truthy_ne_nil {val : Option Text} {value : Text} (h : truthy val = some value) : value ≠ [] := by
  obtain ⟨-, hne⟩ := Option.filter_eq_some_iff.mp h
  exact of_decide_eq_true hne

theorem entry_of_var {getVar : Text → Option Text} {pkg var : Text} {e : Entry}
    (h : entry_of getVar pkg var = some e) : e.var = var ∧ e.value ≠ [] := by
  unfold entry_of at h
  split at h
  · rename_i val hval
    obtain rfl := Option.some.inj h
    exact ⟨rfl, truthy_ne_nil hval⟩
  · obtain ⟨val, hval, rfl⟩ := Option.map_eq_some_iff.mp h
    exact ⟨rfl, truthy_ne_nil hval⟩

theorem entry_readable {getVar : Text → Option Text} {pkg : Text} {total_size : Nat} (hpkg : PackageName pkg)
    {e : Entry} (he : e ∈ entries getVar pkg total_size) (hhead : e.value.head? ≠ some ' ') : Readable pkg e := by
  have hword : e.var ≠ [] ∧ NoSpace e.var ∧ e.value ≠ [] := by
    rcases List.mem_append.mp he with he | he
    · obtain ⟨var, hvar, he⟩ := List.mem_filterMap.mp he
      obtain ⟨rfl, hvalue⟩ := entry_of_var he
      exact ⟨(pkgdata_vars_word hvar).1, (pkgdata_vars_word hvar).2, hvalue⟩
    · rw [List.mem_singleton.mp he]
      have hname : text "PKGSIZE" ≠ [] ∧ NoSpace (text "PKGSIZE") := ⟨by decide, noSpace_of_all (by decide)⟩
      exact ⟨hname.1, hname.2, Nat.toDigits_ne_nil⟩
  have hcolon : NoSpace (':' :: pkg) := List.forall_mem_cons.mpr ⟨by decide, hpkg.no_space⟩
  refine ⟨?_, ?_, hword.2.2, hhead⟩
  · unfold Entry.key for_pkg
    split
    · simp
    · exact hword.1
  · unfold Entry.key for_pkg
    split
    · exact List.forall_mem_append.mpr ⟨hword.2.1, hcolon⟩
    · exact hword.2.1

theorem round_trips_names {getVar : Text → Option Text} {pkg : Text} {total_size : Nat} (hpkg : PackageName pkg)
    (hvalues : ∀ e ∈ entries getVar pkg total_size, e.value.head? ≠ some ' ')
    (h : RoundTrips getVar pkg total_size) :
    ∀ e ∈ entries getVar pkg total_size, ¬(':' :: pkg) <:+: e.var := by
  obtain ⟨subd, hsubd, -, hvars⟩ := h
  rw [subdata_eq, read_entries fun e he => entry_readable hpkg he (hvalues e he)] at hsubd
  obtain rfl := Option.some.inj hsubd
  intro e₀ he₀ hin₀
  let l := (entries getVar pkg total_size).filter fun e => decide ((':' :: pkg) <:+: e.var)
  have hl : e₀ ∈ l := List.mem_filter.mpr ⟨he₀, decide_eq_true hin₀⟩
  obtain ⟨e, he⟩ : ∃ e, e ∈ l.argmax fun e => e.var.length := by
    cases hmax : l.argmax fun e => e.var.length with
    | none => simp [List.argmax_eq_none.mp hmax] at hl
    | some e => exact ⟨e, rfl⟩
  obtain ⟨hmem, hin⟩ := List.mem_filter.mp (List.argmax_mem he)
  have hlongest : ∀ e' ∈ entries getVar pkg total_size,
      (':' :: pkg) <:+: e'.var → e'.var.length ≤ e.var.length := by
    intro e' he' hin'
    have hl' : e' ∈ l := List.mem_filter.mpr ⟨he', decide_eq_true hin'⟩
    exact @List.le_of_mem_argmax _ _ _ (fun e : Entry => e.var.length) _ _ _ hl' he
  have hlost := collapse_loses hpkg.no_colon (of_decide_eq_true hin) hlongest
  have hkey := @last_value_isSome pkg _ _ hmem
  rw [hvars e hmem, Option.or_eq_none_iff] at hlost
  unfold Entry.key at hkey
  split at hkey
  · rw [hlost.1] at hkey
    cases hkey
  · rw [hlost.2] at hkey
    cases hkey

/-- Package data round-trips just when no variable that is written has the package in its own
name, as the file of a `FILERDEPENDS` can have it. -/
theorem round_trips_without_the_package_in_a_name (getVar : Text → Option Text) (pkg : Text) (total_size : Nat)
    (hpkg : PackageName pkg) (hvalues : ∀ e ∈ entries getVar pkg total_size, e.value.head? ≠ some ' ') :
    RoundTrips getVar pkg total_size ↔
      ∀ var ∈ pkgdata_vars getVar pkg, (entry_of getVar pkg var).isSome → ¬(':' :: pkg) <:+: var := by
  constructor
  · intro h var hvar hsome
    obtain ⟨e, he⟩ := Option.isSome_iff_exists.mp hsome
    rw [← (entry_of_var he).1]
    exact round_trips_names hpkg hvalues h e (List.mem_append_left _ (List.mem_filterMap.mpr ⟨var, hvar, he⟩))
  · intro h
    have hout : ∀ e ∈ entries getVar pkg total_size, ¬(':' :: pkg) <:+: e.var := by
      intro e he
      rcases List.mem_append.mp he with he | he
      · obtain ⟨var, hvar, he⟩ := List.mem_filterMap.mp he
        rw [(entry_of_var he).1]
        exact h var hvar (by rw [he]; rfl)
      · rw [List.mem_singleton.mp he]
        have hname : ':' ∉ text "PKGSIZE" := by decide
        exact fun hin => hname (hin.subset List.mem_cons_self)
    have hread := read_entries fun e he => entry_readable hpkg he (hvalues e he)
    rw [← subdata_eq] at hread
    exact ⟨_, hread, fun key => get?_written_dict key, fun e he => collapse_names hpkg.no_colon hout he⟩

/-- `FILERDEPENDS` of a file `/x:a`, written for the package `a`. -/
def depends_of (file : String) : Text → Option Text := fun name =>
  if name = for_pkg (text "a") (text "FILERDEPENDSFLIST") then some (text file)
  else if name = for_pkg (text "a") (text "FILERDEPENDS:" ++ text file) then some (text "b")
  else none

theorem a_file_is_read_back : RoundTrips (depends_of "/x") (text "a") 5 := by
  refine (round_trips_without_the_package_in_a_name _ _ _ ⟨by decide, noSpace_of_all (by decide)⟩ ?_).mpr ?_
  · decide
  · decide

/-- A path with the package in it is not found under its name. -/
theorem a_file_with_the_package_is_lost : ¬RoundTrips (depends_of "/x:a") (text "a") 5 := by
  intro h
  have hnames := round_trips_names ⟨by decide, noSpace_of_all (by decide)⟩ (by decide) h
  exact hnames ⟨text "FILERDEPENDS:/x:a", true, text "b"⟩ (by decide) (by decide)

end yocto.package_data
