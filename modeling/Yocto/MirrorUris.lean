-- An URL that is mapped to a mirror (uri_replace of bb.fetch2). Each part of the URL is
-- matched with a pattern and rewritten, the parameters come last.
import Yocto.DecodedUrls
import Yocto.ListSearch
import Yocto.PosixPath
import Yocto.Raising

open yocto.task_ids yocto.ordered_dict yocto.raising yocto.decoded_urls

namespace yocto.mirror_uris

/-! ## The parts of an URL -/

/-- The first five places of a decoded URL. -/
inductive Part
  | type
  | host
  | path
  | user
  | pswd
  deriving DecidableEq

def part (t : Decoded) : Part → Text
  | .type => t.type
  | .host => t.host
  | .path => t.path
  | .user => t.user
  | .pswd => t.pswd

def set_part (t : Decoded) (loc : Part) (s : Text) : Decoded :=
  match loc with
  | .type => { t with type := s }
  | .host => { t with host := s }
  | .path => { t with path := s }
  | .user => { t with user := s }
  | .pswd => { t with pswd := s }

@[simp] theorem part_set_part (t : Decoded) (loc q : Part) (s : Text) :
    part (set_part t loc s) q = if q = loc then s else part t q := by
  cases loc <;> cases q <;> rfl

@[simp] theorem set_part_p (t : Decoded) (loc : Part) (s : Text) : (set_part t loc s).p = t.p := by
  cases loc <;> rfl

/-! ## uri_replace -/

inductive Failure
  | url (raised : Raised)
  | key_error (k : Text)
  | re_error
  deriving DecidableEq

/-- `re.match(regexp, s)`, when it is asked whether there is a match, and `re.sub(regexp, repl, s, 1)`. -/
structure Expressions where
  re_match : Text → Text → Except Failure Bool
  re_sub : Text → Text → Text → Except Failure Text

/-- What is asked of a fetch. A path that is None is empty here. -/
structure FetchData where
  url : Text
  localpath : Text
  supports_checksum : Bool

inductive Stop
  | return_none
  | raises (f : Failure)
  deriving DecidableEq

/-- `s.replace(k, value)`. -/
def str_replace (k value s : Text) : Text :=
  if k = [] then value ++ s.flatMap (fun c => c :: value) else list_search.replace k value s

def substitute (replacements : OrderedDict Text Text) (s : Text) : Text :=
  replacements.foldl (fun s x => str_replace x.1 x.2 s) s

/-- `os.path.basename`. -/
def basename (path : Text) : Text := path.rtakeWhile (· ≠ '/')

/-- The type is anchored at its end. -/
def regexp (find : Decoded) (loc : Part) : Text :=
  if loc = .type ∧ find.type ≠ [] ∧ find.type.getLast? ≠ some '$' then find.type ++ ['$'] else part find loc

structure State where
  uri_decoded : Decoded
  uri_find_decoded : Decoded
  uri_replace_decoded : Decoded
  result_decoded : Decoded

/-- A path that ends with the name of the file, in the place of the other one. -/
def with_basename (basename_ uri_basename result_path : Text) : Text :=
  let path := '/' :: result_path
  if uri_basename ≠ [] ∧ basename_ ≠ uri_basename ∧ ('/' :: uri_basename) <:+ path then
    path.tail.take (path.tail.length - uri_basename.length) ++ basename_
  else if ¬('/' :: basename_) <:+ path then posix_path.join path.tail basename_
  else result_path

variable (re : Expressions) (ud : FetchData) (replacements : OrderedDict Text Text) (mirrortarball : Text)

/-- The mapping is one to the tarball of a mirror. -/
def is_tarball (s : State) : Bool := s.uri_decoded.type ≠ s.uri_replace_decoded.type && mirrortarball ≠ []

def handle_path (s : State) : State :=
  let basename_ :=
    if is_tarball mirrortarball s then basename mirrortarball
    else if ud.localpath ≠ [] && ud.supports_checksum then basename ud.localpath
    else []
  let s := if is_tarball mirrortarball s then
    { s with
      uri_decoded := { s.uri_decoded with p := [] }
      uri_find_decoded := { s.uri_find_decoded with p := [] } }
    else s
  if basename_ ≠ [] then
    let path := with_basename basename_ (basename s.uri_decoded.path) s.result_decoded.path
    { s with result_decoded := set_part s.result_decoded .path path }
  else s

def rewrite (s : State) (loc : Part) : Except Stop State :=
  if part s.uri_replace_decoded loc = [] then
    .ok { s with result_decoded := set_part s.result_decoded loc [] }
  else
    let replaced := substitute replacements (part s.uri_replace_decoded loc)
    match re.re_sub (regexp s.uri_find_decoded loc) replaced (part s.uri_decoded loc) with
    | .ok result => .ok { s with
        uri_replace_decoded := set_part s.uri_replace_decoded loc replaced
        result_decoded := set_part s.result_decoded loc result }
    | .error f => .error (.raises f)

/-- A turn of the loop, for one of the first five places. -/
def turn (s : State) (loc : Part) : Except Stop State :=
  let s := { s with result_decoded := set_part s.result_decoded loc (part s.uri_decoded loc) }
  if (loc = .user ∨ loc = .pswd) ∧ part s.uri_replace_decoded loc ≠ [] then
    .ok { s with result_decoded := set_part s.result_decoded loc (part s.uri_replace_decoded loc) }
  else
    match re.re_match (regexp s.uri_find_decoded loc) (part s.uri_decoded loc) with
    | .error f => .error (.raises f)
    | .ok false => .error .return_none
    | .ok true => do
      let s ← rewrite re replacements s loc
      if loc = .path then .ok (handle_path ud mirrortarball s) else .ok s

/-- A parameter of the pattern and the one of the URL. -/
def compare (p : OrderedDict Text Text) (x : Text × Text) : Except Stop Unit :=
  match p.get? x.1 with
  | none => .error (.raises (.key_error x.1))
  | some value => if value = x.2 then .ok () else .error .return_none

def parameters_turn (s : State) : Except Stop Decoded := do
  s.uri_find_decoded.p.forM (compare s.uri_decoded.p)
  let p := s.uri_replace_decoded.p.foldl (fun p x => p.set x.1 (substitute replacements x.2)) s.uri_decoded.p
  .ok { s.result_decoded with p := p }

def parts : List Part := [.type, .host, .path, .user, .pswd]

def decoded_result (uri find replace : Decoded) : Except Stop Decoded := do
  let s ← parts.foldlM (turn re ud replacements mirrortarball) ⟨uri, find, replace, ⟨[], [], [], [], [], []⟩⟩
  parameters_turn replacements s

/-- The result of the function, or what it raises. -/
def uri_replace (uri_find uri_replace : Text) : Except Failure (Option Text) :=
  if ud.url = [] ∨ uri_find = [] ∨ uri_replace = [] then .ok none
  else
    match decodeurl ud.url, decodeurl uri_find, decodeurl uri_replace with
    | .ok uri, .ok find, .ok replace =>
      match decoded_result re ud replacements mirrortarball uri find replace with
      | .error .return_none => .ok none
      | .error (.raises f) => .error f
      | .ok result_decoded =>
        match encodeurl result_decoded with
        | .ok result => .ok (if result = ud.url then none else some result)
        | .error raised => .error (.url raised)
    | .error raised, _, _ => .error (.url raised)
    | _, .error raised, _ => .error (.url raised)
    | _, _, .error raised => .error (.url raised)

/-! ## What decides about a mapping -/

variable (uri find replace : Decoded)

/-- A part matches its pattern, or the replacement gives a user or a password, which is taken as it is. -/
def Matched (loc : Part) : Prop :=
  ((loc = .user ∨ loc = .pswd) ∧ part replace loc ≠ []) ∨
    re.re_match (regexp find loc) (part uri loc) = .ok true

/-- The expressions are valid, and so are the templates once the replacements are made. -/
structure Valid : Prop where
  re_match : ∀ loc s, ∃ b, re.re_match (regexp find loc) s = .ok b
  re_sub : ∀ loc s, ∃ r, re.re_sub (regexp find loc) (substitute replacements (part replace loc)) s = .ok r

def replaced_type : Text := if replace.type = [] then [] else substitute replacements replace.type

/-- The types differ and there is a tarball: the parameters do not count. -/
def Tarball : Prop := uri.type ≠ replaced_type replacements replace ∧ mirrortarball ≠ []

/-- Each parameter of the pattern is one of the URL. -/
def Known : Prop := ∀ x ∈ find.p, ∃ value, uri.p.get? x.1 = some value

def Same : Prop := ∀ x ∈ find.p, uri.p.get? x.1 = some x.2

/-- The parts that are left at a turn are as they were. -/
structure Rest (left : List Part) (s : State) : Prop where
  uri_part : ∀ loc, part s.uri_decoded loc = part uri loc
  find_part : ∀ loc, part s.uri_find_decoded loc = part find loc
  replace_part : ∀ loc ∈ left, part s.uri_replace_decoded loc = part replace loc
  replace_p : s.uri_replace_decoded.p = replace.p
  type_done : .type ∉ left → s.uri_replace_decoded.type = replaced_type replacements replace ∧
    (replace.type = [] → s.result_decoded.type = []) ∧ (replace.type ≠ [] →
      re.re_sub (regexp find .type) (replaced_type replacements replace) uri.type = .ok s.result_decoded.type)
  params : .path ∈ left ∨ ¬Tarball replacements mirrortarball uri replace →
    s.uri_decoded.p = uri.p ∧ s.uri_find_decoded.p = find.p
  no_params : .path ∉ left → Tarball replacements mirrortarball uri replace →
    s.uri_decoded.p = [] ∧ s.uri_find_decoded.p = []

/-! ## The loop -/

variable {re : Expressions} {ud : FetchData} {replacements : OrderedDict Text Text} {mirrortarball : Text}
variable {uri find replace : Decoded}

theorem regexp_congr {find' : Decoded} (h : ∀ loc, part find' loc = part find loc) (loc : Part) :
    regexp find' loc = regexp find loc := by
  have htype : find'.type = find.type := h .type
  unfold regexp
  rw [htype, h loc]

/-- What a part of the replacement is when it was used. -/
def used (replacements : OrderedDict Text Text) (s : Text) : Text := if s = [] then [] else substitute replacements s

/-- A rewritten part, and the others as they were. -/
structure Rewritten (re : Expressions) (replacements : OrderedDict Text Text) (uri find replace : Decoded) (loc : Part)
    (s s' : State) : Prop where
  uri_decoded : s'.uri_decoded = s.uri_decoded
  uri_find_decoded : s'.uri_find_decoded = s.uri_find_decoded
  replace_p : s'.uri_replace_decoded.p = s.uri_replace_decoded.p
  replace_part : ∀ q, part s'.uri_replace_decoded q =
    if q = loc then used replacements (part replace loc) else part s.uri_replace_decoded q
  result_part : ∀ q ≠ loc, part s'.result_decoded q = part s.result_decoded q
  result_nil : part replace loc = [] → part s'.result_decoded loc = []
  result_sub : part replace loc ≠ [] → re.re_sub (regexp find loc) (substitute replacements (part replace loc))
    (part uri loc) = .ok (part s'.result_decoded loc)

theorem rewrite_spec (hvalid : Valid re replacements find replace) {loc : Part} {left : List Part} {s : State}
    (h : Rest re replacements mirrortarball uri find replace (loc :: left) s) :
    ∃ s', rewrite re replacements s loc = .ok s' ∧ Rewritten re replacements uri find replace loc s s' := by
  have hreplace := h.replace_part loc List.mem_cons_self
  unfold rewrite
  rw [hreplace, regexp_congr h.find_part, h.uri_part]
  by_cases hnil : part replace loc = []
  · rw [if_pos hnil]
    refine ⟨_, rfl, rfl, rfl, rfl, ?_, ?_, ?_, ?_⟩
    · intro q
      by_cases hq : q = loc
      · rw [if_pos hq, hq, hreplace, hnil]
        rfl
      · rw [if_neg hq]
    · intro q hq
      simp [hq]
    · simp
    · exact fun hne => absurd hnil hne
  · rw [if_neg hnil]
    obtain ⟨r, hr⟩ := hvalid.re_sub loc (part uri loc)
    simp only [hr]
    refine ⟨_, rfl, rfl, rfl, by simp, ?_, ?_, ?_, ?_⟩
    · intro q
      simp [used, hnil]
    · intro q hq
      simp [hq]
    · exact fun hne => absurd hne hnil
    · simp [hr]

theorem Rewritten.rest {loc : Part} {left : List Part} {s s' : State} (hs : Rewritten re replacements uri find replace loc s s')
    (h : Rest re replacements mirrortarball uri find replace (loc :: left) s) (hloc : loc ∉ left) (hpath : loc ≠ .path) :
    Rest re replacements mirrortarball uri find replace left s' where
  uri_part q := by rw [hs.uri_decoded, h.uri_part]
  find_part q := by rw [hs.uri_find_decoded, h.find_part]
  replace_part q hq := by
    rw [hs.replace_part, if_neg (ne_of_mem_of_not_mem hq hloc)]
    exact h.replace_part q (List.mem_cons_of_mem _ hq)
  replace_p := hs.replace_p.trans h.replace_p
  type_done htype := by
    by_cases hloc_type : loc = .type
    · subst hloc_type
      refine ⟨?_, hs.result_nil, ?_⟩
      · exact (hs.replace_part .type).trans (if_pos rfl)
      · intro hne
        have hsub := hs.result_sub hne
        unfold replaced_type
        rw [if_neg hne]
        exact hsub
    · have hresult : s'.result_decoded.type = s.result_decoded.type := hs.result_part .type (Ne.symm hloc_type)
      have hreplace : s'.uri_replace_decoded.type = s.uri_replace_decoded.type :=
        (hs.replace_part .type).trans (if_neg (Ne.symm hloc_type))
      rw [hresult, hreplace]
      exact h.type_done (by simp [htype, Ne.symm hloc_type])
  params hp := by
    rw [hs.uri_decoded, hs.uri_find_decoded]
    exact h.params (hp.imp_left (List.mem_cons_of_mem _))
  no_params hp := by
    rw [hs.uri_decoded, hs.uri_find_decoded]
    exact h.no_params (by simp [hp, Ne.symm hpath])

theorem Rest.set_result {loc : Part} {left : List Part} {s : State}
    (h : Rest re replacements mirrortarball uri find replace (loc :: left) s) (value : Text) :
    Rest re replacements mirrortarball uri find replace (loc :: left)
      { s with result_decoded := set_part s.result_decoded loc value } where
  uri_part := h.uri_part
  find_part := h.find_part
  replace_part := h.replace_part
  replace_p := h.replace_p
  type_done htype := by
    have hne : Part.type ≠ loc := by
      rintro rfl
      exact htype List.mem_cons_self
    have hresult : (set_part s.result_decoded loc value).type = s.result_decoded.type :=
      (part_set_part s.result_decoded loc .type value).trans (if_neg hne)
    rw [hresult]
    exact h.type_done htype
  params := h.params
  no_params := h.no_params

theorem Rest.drop {loc : Part} {left : List Part} {s : State}
    (h : Rest re replacements mirrortarball uri find replace (loc :: left) s) (htype : loc ≠ .type) (hpath : loc ≠ .path) :
    Rest re replacements mirrortarball uri find replace left s where
  uri_part := h.uri_part
  find_part := h.find_part
  replace_part q hq := h.replace_part q (List.mem_cons_of_mem _ hq)
  replace_p := h.replace_p
  type_done hleft := h.type_done (by simp [hleft, Ne.symm htype])
  params hp := h.params (hp.imp_left (List.mem_cons_of_mem _))
  no_params hleft := h.no_params (by simp [hleft, Ne.symm hpath])

theorem handle_path_uri (ud : FetchData) (mirrortarball : Text) (s : State) :
    (handle_path ud mirrortarball s).uri_decoded =
        (if is_tarball mirrortarball s then { s.uri_decoded with p := [] } else s.uri_decoded) ∧
      (handle_path ud mirrortarball s).uri_find_decoded =
        (if is_tarball mirrortarball s then { s.uri_find_decoded with p := [] } else s.uri_find_decoded) ∧
      (handle_path ud mirrortarball s).uri_replace_decoded = s.uri_replace_decoded ∧
      (handle_path ud mirrortarball s).result_decoded.type = s.result_decoded.type := by
  unfold handle_path
  dsimp only
  by_cases htarball : is_tarball mirrortarball s = true
  · simp only [htarball, if_true]
    split <;> exact ⟨rfl, rfl, rfl, rfl⟩
  · simp only [htarball, Bool.false_eq_true, if_false]
    split
    · split <;> exact ⟨rfl, rfl, rfl, rfl⟩
    · split <;> exact ⟨rfl, rfl, rfl, rfl⟩

theorem part_without_p (t : Decoded) (loc : Part) : part { t with p := [] } loc = part t loc := by
  cases loc <;> rfl

theorem Rewritten.rest_path {left : List Part} {s s' : State}
    (hs : Rewritten re replacements uri find replace .path s s')
    (h : Rest re replacements mirrortarball uri find replace (.path :: left) s) (hpath : .path ∉ left)
    (htype : .type ∉ left) :
    Rest re replacements mirrortarball uri find replace left (handle_path ud mirrortarball s') := by
  obtain ⟨hdone_replace, hdone_nil, hdone_sub⟩ := h.type_done (by simp [htype])
  have hreplace_type : s'.uri_replace_decoded.type = replaced_type replacements replace :=
    ((hs.replace_part .type).trans (if_neg (by decide))).trans hdone_replace
  have hresult_type : s'.result_decoded.type = s.result_decoded.type := hs.result_part .type (by decide)
  have huri_type : s'.uri_decoded.type = uri.type := by
    rw [hs.uri_decoded]
    exact h.uri_part .type
  have htarball : is_tarball mirrortarball s' = true ↔ Tarball replacements mirrortarball uri replace := by
    unfold is_tarball Tarball
    rw [huri_type, hreplace_type]
    simp
  obtain ⟨huri, hfind, hreplace, hresult⟩ := handle_path_uri ud mirrortarball s'
  obtain ⟨hp_uri, hp_find⟩ := h.params (.inl List.mem_cons_self)
  constructor
  · intro q
    rw [huri, ← h.uri_part q, ← hs.uri_decoded]
    split
    · exact part_without_p _ q
    · rfl
  · intro q
    rw [hfind, ← h.find_part q, ← hs.uri_find_decoded]
    split
    · exact part_without_p _ q
    · rfl
  · intro q hq
    rw [hreplace, hs.replace_part, if_neg (ne_of_mem_of_not_mem hq hpath)]
    exact h.replace_part q (List.mem_cons_of_mem _ hq)
  · rw [hreplace, hs.replace_p, h.replace_p]
  · intro _
    rw [hreplace, hresult, hresult_type, hreplace_type]
    exact ⟨rfl, hdone_nil, hdone_sub⟩
  · rintro (hmem | hnot)
    · exact absurd hmem hpath
    · rw [huri, hfind, if_neg (htarball.not.mpr hnot), if_neg (htarball.not.mpr hnot), hs.uri_decoded,
        hs.uri_find_decoded]
      exact ⟨hp_uri, hp_find⟩
  · intro _ ht
    rw [huri, hfind, if_pos (htarball.mpr ht), if_pos (htarball.mpr ht)]
    exact ⟨rfl, rfl⟩

variable (ud) in
theorem turn_spec (hvalid : Valid re replacements find replace) {loc : Part} {left : List Part} {s : State}
    (h : Rest re replacements mirrortarball uri find replace (loc :: left) s) (hloc : loc ∉ left)
    (htype : loc = .path → .type ∉ left) :
    (¬Matched re uri find replace loc → turn re ud replacements mirrortarball s loc = .error .return_none) ∧
      (Matched re uri find replace loc → ∃ s', turn re ud replacements mirrortarball s loc = .ok s' ∧
        Rest re replacements mirrortarball uri find replace left s') := by
  have hstart := h.set_result (part s.uri_decoded loc)
  unfold turn
  dsimp only
  rw [h.replace_part loc List.mem_cons_self, regexp_congr h.find_part, h.uri_part]
  rw [h.uri_part] at hstart
  by_cases hgiven : (loc = .user ∨ loc = .pswd) ∧ part replace loc ≠ []
  · rw [if_pos hgiven]
    refine ⟨fun hnot => absurd (.inl hgiven) hnot, fun _ => ⟨_, rfl, ?_⟩⟩
    have hne : loc ≠ .type ∧ loc ≠ .path := by
      rcases hgiven.1 with rfl | rfl <;> decide
    exact (hstart.set_result (part replace loc)).drop hne.1 hne.2
  · rw [if_neg hgiven]
    have hmatched : Matched re uri find replace loc ↔ re.re_match (regexp find loc) (part uri loc) = .ok true := by
      unfold Matched
      exact or_iff_right hgiven
    obtain ⟨b, hb⟩ := hvalid.re_match loc (part uri loc)
    rw [hmatched, hb]
    cases b with
    | false => exact ⟨fun _ => rfl, fun hok => nomatch hok⟩
    | true =>
      refine ⟨fun hnot => absurd rfl hnot, fun _ => ?_⟩
      obtain ⟨s', hrewrite, hs'⟩ := rewrite_spec hvalid hstart
      simp only [hrewrite, bind, Except.bind]
      by_cases hpath : loc = .path
      · subst hpath
        exact ⟨_, rfl, hs'.rest_path hstart hloc (htype rfl)⟩
      · rw [if_neg hpath]
        exact ⟨s', rfl, hs'.rest hstart hloc hpath⟩

variable (ud) in
theorem loop_spec (hvalid : Valid re replacements find replace) (left : List Part) {s : State}
    (h : Rest re replacements mirrortarball uri find replace left s) (hnodup : left.Nodup) (htype : .type ∉ left) :
    ((∃ loc ∈ left, ¬Matched re uri find replace loc) →
        left.foldlM (turn re ud replacements mirrortarball) s = .error .return_none) ∧
      ((∀ loc ∈ left, Matched re uri find replace loc) →
        ∃ s', left.foldlM (turn re ud replacements mirrortarball) s = .ok s' ∧
          Rest re replacements mirrortarball uri find replace [] s') := by
  induction left generalizing s with
  | nil =>
    refine ⟨?_, fun _ => ⟨s, rfl, h⟩⟩
    rintro ⟨loc, hloc, -⟩
    cases hloc
  | cons loc left ih =>
    rw [List.nodup_cons] at hnodup
    rw [List.mem_cons, not_or] at htype
    obtain ⟨hstop, hgo⟩ := turn_spec ud hvalid h hnodup.1 fun _ => htype.2
    rw [List.foldlM_cons]
    by_cases hmatched : Matched re uri find replace loc
    · obtain ⟨s', hturn, hs'⟩ := hgo hmatched
      obtain ⟨hnone, hsome⟩ := ih hs' hnodup.2 htype.2
      simp only [hturn, bind, Except.bind]
      refine ⟨?_, fun hall => hsome fun q hq => hall q (List.mem_cons_of_mem _ hq)⟩
      rintro ⟨q, hq, hnot⟩
      rcases List.mem_cons.mp hq with rfl | hq
      · exact absurd hmatched hnot
      · exact hnone ⟨q, hq, hnot⟩
    · simp only [hstop hmatched, bind, Except.bind, true_and, implies_true]
      exact fun hall => absurd (hall loc List.mem_cons_self) hmatched

variable (re replacements mirrortarball uri find replace) in
theorem rest_start : Rest re replacements mirrortarball uri find replace parts
    ⟨uri, find, replace, ⟨[], [], [], [], [], []⟩⟩ where
  uri_part _ := rfl
  find_part _ := rfl
  replace_part _ _ := rfl
  replace_p := rfl
  type_done h := absurd (by decide) h
  params _ := ⟨rfl, rfl⟩
  no_params h := absurd (by decide) h

variable (ud mirrortarball uri) in
theorem parts_spec (hvalid : Valid re replacements find replace) :
    ((∃ loc, ¬Matched re uri find replace loc) →
        parts.foldlM (turn re ud replacements mirrortarball) ⟨uri, find, replace, ⟨[], [], [], [], [], []⟩⟩ =
          .error .return_none) ∧
      ((∀ loc, Matched re uri find replace loc) →
        ∃ s, parts.foldlM (turn re ud replacements mirrortarball) ⟨uri, find, replace, ⟨[], [], [], [], [], []⟩⟩ = .ok s ∧
          Rest re replacements mirrortarball uri find replace [] s) := by
  have hall : ∀ loc : Part, loc = .type ∨ loc ∈ [Part.host, .path, .user, .pswd] := by
    intro loc
    cases loc <;> decide
  obtain ⟨hstop, hgo⟩ := turn_spec ud hvalid
    (rest_start re replacements mirrortarball uri find replace) (by decide) (by decide)
  unfold parts
  rw [List.foldlM_cons]
  by_cases htype : Matched re uri find replace .type
  · obtain ⟨s, hturn, hs⟩ := hgo htype
    obtain ⟨hnone, hsome⟩ := loop_spec ud hvalid _ hs (by decide) (by decide)
    simp only [hturn, bind, Except.bind]
    refine ⟨?_, fun hmatched => hsome fun loc _ => hmatched loc⟩
    rintro ⟨loc, hnot⟩
    rcases hall loc with rfl | hloc
    · exact absurd htype hnot
    · exact hnone ⟨loc, hloc, hnot⟩
  · simp only [hstop htype, bind, Except.bind, true_and, implies_true]
    exact fun hmatched => absurd (hmatched .type) htype

/-! ## The parameters -/

theorem compare_same {p items : OrderedDict Text Text} (h : ∀ x ∈ items, p.get? x.1 = some x.2) :
    items.forM (compare p) = .ok () := by
  induction items with
  | nil => rfl
  | cons x items ih =>
    rw [List.forall_mem_cons] at h
    change (compare p x >>= fun _ => items.forM (compare p)) = _
    have hcompare : compare p x = .ok () := by
      unfold compare
      rw [h.1]
      exact if_pos rfl
    rw [hcompare]
    exact ih h.2

theorem compare_other {p items : OrderedDict Text Text} (hknown : ∀ x ∈ items, ∃ value, p.get? x.1 = some value)
    (h : ∃ x ∈ items, p.get? x.1 ≠ some x.2) : items.forM (compare p) = .error .return_none := by
  induction items with
  | nil =>
    obtain ⟨x, hx, -⟩ := h
    cases hx
  | cons x items ih =>
    rw [List.forall_mem_cons] at hknown
    obtain ⟨⟨value, hvalue⟩, hknown⟩ := hknown
    have hcompare : compare p x = if value = x.2 then .ok () else .error .return_none := by
      unfold compare
      rw [hvalue]
    change (compare p x >>= fun _ => items.forM (compare p)) = _
    rw [hcompare]
    by_cases heq : value = x.2
    · rw [if_pos heq]
      apply ih hknown
      obtain ⟨y, hy, hne⟩ := h
      rcases List.mem_cons.mp hy with rfl | hy
      · exact absurd (hvalue.trans (congrArg some heq)) hne
      · exact ⟨y, hy, hne⟩
    · rw [if_neg heq]
      rfl

theorem get?_overwritten (f : Text → Text) {items d : OrderedDict Text Text} (hnodup : (items.map Prod.fst).Nodup)
    {x : Text × Text} (hx : x ∈ items) :
    OrderedDict.get? (items.foldl (fun p x => OrderedDict.set p x.1 (f x.2)) d) x.1 = some (f x.2) := by
  have hother : ∀ (items d : OrderedDict Text Text) (k : Text), k ∉ items.map Prod.fst →
      OrderedDict.get? (items.foldl (fun p x => OrderedDict.set p x.1 (f x.2)) d) k = d.get? k := by
    intro items
    induction items with
    | nil => exact fun d k _ => rfl
    | cons y items ih =>
      intro d k hk
      rw [List.map_cons, List.mem_cons, not_or] at hk
      rw [List.foldl_cons, ih _ k hk.2, OrderedDict.get?_set_other _ _ hk.1]
  induction items generalizing d with
  | nil => cases hx
  | cons y items ih =>
    rw [List.map_cons, List.nodup_cons] at hnodup
    rw [List.foldl_cons]
    rcases List.mem_cons.mp hx with rfl | hx
    · rw [hother items _ _ hnodup.1, OrderedDict.get?_set_self]
    · exact ih hnodup.2 hx

theorem decoded_names_nodup {url : Text} {t : Decoded} (h : decodeurl url = .ok t) : (t.p.map Prod.fst).Nodup := by
  have hparameters : ∀ parm, Meets (fun _ => True) (fun p => (p.map Prod.fst).Nodup) (parameters url parm) := by
    intro parm
    refine Meets.foldlM (by exact List.nodup_nil) ?_
    intro p s _ hp
    unfold parameter
    split
    · exact hp
    · split
      · trivial
      · exact OrderedDict.keys_set_nodup hp
  unfold decodeurl at h
  split at h
  · cases h
  · rename_i m _
    have hm := hparameters (m.parm.getD [])
    obtain ⟨p, hp, h⟩ := bind_ok h
    rw [hp] at hm
    split at h
    · rw [← Except.ok.inj h]
      exact hm
    · cases h

/-! ## Mappings -/

/-- The parts of a mapped URL: the parameters of the replacement are among its own. -/
structure Mapped (re : Expressions) (replacements : OrderedDict Text Text) (uri find replace result : Decoded) : Prop where
  params : ∀ x ∈ replace.p, result.p.get? x.1 = some (substitute replacements x.2)
  type_nil : replace.type = [] → result.type = []
  type_sub : replace.type ≠ [] →
    re.re_sub (regexp find .type) (substitute replacements replace.type) uri.type = .ok result.type

theorem parameters_spec (hnodup : (replace.p.map Prod.fst).Nodup) {s : State}
    (h : Rest re replacements mirrortarball uri find replace [] s) :
    (¬Tarball replacements mirrortarball uri replace → Known uri find → ¬Same uri find →
        parameters_turn replacements s = .error .return_none) ∧
      (Tarball replacements mirrortarball uri replace ∨ Same uri find →
        ∃ result, parameters_turn replacements s = .ok result ∧
          Mapped re replacements uri find replace result) := by
  obtain ⟨-, hnil, hsub⟩ := h.type_done List.not_mem_nil
  have hmapped : ∀ p : OrderedDict Text Text, Mapped re replacements uri find replace
      { s.result_decoded with p := s.uri_replace_decoded.p.foldl (fun p x => p.set x.1 (substitute replacements x.2)) p } := by
    intro p
    refine ⟨fun x hx => ?_, hnil, fun hne => ?_⟩
    · rw [h.replace_p]
      exact get?_overwritten _ hnodup hx
    · have hsub := hsub hne
      unfold replaced_type at hsub
      rwa [if_neg hne] at hsub
  unfold parameters_turn
  constructor
  · intro htarball hknown hsame
    obtain ⟨hp_uri, hp_find⟩ := h.params (.inr htarball)
    unfold Same at hsame
    push Not at hsame
    rw [hp_uri, hp_find, compare_other hknown hsame]
    rfl
  · intro hgiven
    have hcompare : s.uri_find_decoded.p.forM (compare s.uri_decoded.p) = .ok () := by
      by_cases htarball : Tarball replacements mirrortarball uri replace
      · rw [(h.no_params List.not_mem_nil htarball).2]
        rfl
      · obtain ⟨hp_uri, hp_find⟩ := h.params (.inr htarball)
        rw [hp_uri, hp_find]
        exact compare_same (hgiven.resolve_left htarball)
    rw [hcompare]
    exact ⟨_, rfl, hmapped _⟩

/-- An URL is mapped when all its parts match, and its parameters are those of the pattern or do not count. All
that is raised then is that the mapped URL has no type. -/
theorem mirror_uri_spec (ud : FetchData) (uri_find uri_replace_ : Text) (huri : decodeurl ud.url = .ok uri)
    (hfind : decodeurl uri_find = .ok find) (hreplace : decodeurl uri_replace_ = .ok replace)
    (hvalid : Valid re replacements find replace) :
    ((∃ loc, ¬Matched re uri find replace loc) →
        uri_replace re ud replacements mirrortarball uri_find uri_replace_ = .ok none) ∧
      (¬Tarball replacements mirrortarball uri replace → Known uri find → ¬Same uri find →
        uri_replace re ud replacements mirrortarball uri_find uri_replace_ = .ok none) ∧
      ((∀ loc, Matched re uri find replace loc) → Tarball replacements mirrortarball uri replace ∨ Same uri find →
        ∃ result, Mapped re replacements uri find replace result ∧
          ((∃ encoded, encodeurl result = .ok encoded ∧
              uri_replace re ud replacements mirrortarball uri_find uri_replace_ =
                .ok (if encoded = ud.url then none else some encoded)) ∨
            (result.type = [] ∧ uri_replace re ud replacements mirrortarball uri_find uri_replace_ =
              .error (.url (.missing_parameter_error (text "type")))))) := by
  have hne : ∀ {url : Text} {t : Decoded}, decodeurl url = .ok t → url ≠ [] := by
    rintro url t h rfl
    cases h
  have hrun : uri_replace re ud replacements mirrortarball uri_find uri_replace_ =
      match decoded_result re ud replacements mirrortarball uri find replace with
      | .error .return_none => .ok none
      | .error (.raises f) => .error f
      | .ok result_decoded =>
        match encodeurl result_decoded with
        | .ok result => .ok (if result = ud.url then none else some result)
        | .error raised => .error (.url raised) := by
    unfold uri_replace
    rw [if_neg (by simp [hne huri, hne hfind, hne hreplace]), huri, hfind, hreplace]
  obtain ⟨hnone, hsome⟩ := parts_spec ud mirrortarball uri hvalid
  unfold decoded_result at hrun
  refine ⟨?_, ?_, ?_⟩
  · intro hnot
    rw [hrun, hnone hnot]
    rfl
  · intro htarball hknown hsame
    by_cases hmatched : ∀ loc, Matched re uri find replace loc
    · obtain ⟨s, hs, hrest⟩ := hsome hmatched
      obtain ⟨hother, -⟩ := parameters_spec (decoded_names_nodup hreplace) hrest
      rw [hrun, hs]
      simp only [bind, Except.bind]
      rw [hother htarball hknown hsame]
    · rw [hrun, hnone (not_forall.mp hmatched)]
      rfl
  · intro hmatched hgiven
    obtain ⟨s, hs, hrest⟩ := hsome hmatched
    obtain ⟨-, hmapped⟩ := parameters_spec (decoded_names_nodup hreplace) hrest
    obtain ⟨result, hresult, hmapped⟩ := hmapped hgiven
    refine ⟨result, hmapped, ?_⟩
    rw [hrun, hs]
    simp only [bind, Except.bind]
    rw [hresult]
    unfold encodeurl
    by_cases htype : result.type = []
    · right
      simp [htype]
    · left
      simp [htype]

/-! ## Some mappings -/

/-- Expressions without special characters, but for a dollar sign at the end. They match at the start. -/
def plain_expressions : Expressions where
  re_match regexp s := .ok (if regexp.getLast? = some '$' then s = regexp.dropLast else regexp <+: s)
  re_sub regexp repl s := .ok (
    if regexp.getLast? = some '$' then (if s = regexp.dropLast then repl else s)
    else if regexp <+: s then repl ++ s.drop regexp.length else s)

theorem plain_expressions_valid (replacements : OrderedDict Text Text) (find replace : Decoded) :
    Valid plain_expressions replacements find replace :=
  ⟨fun _ _ => ⟨_, rfl⟩, fun _ _ => ⟨_, rfl⟩⟩

/-- A fetch whose file is not known by a name of its own. -/
def fetch_of (url : Text) : FetchData := ⟨url, [], false⟩

def source : Decoded := ⟨text "http", text "h", text "/a", [], [], [(text "n", text "1")]⟩

def pattern : Decoded := ⟨text "http", text "h", text "/", [], [], [(text "n", text "1")]⟩

def mirror : Decoded := ⟨text "https", text "m", text "/b/", [], [], [(text "k", text "v")]⟩

theorem a_parameter_is_mapped :
    ∃ result, Mapped plain_expressions [] source pattern mirror result ∧
      ((∃ encoded, encodeurl result = .ok encoded ∧
          uri_replace plain_expressions (fetch_of (text "http://h/a;n=1")) [] [] (text "http://h/;n=1")
            (text "https://m/b/;k=v") = .ok (if encoded = text "http://h/a;n=1" then none else some encoded)) ∨
        (result.type = [] ∧ uri_replace plain_expressions (fetch_of (text "http://h/a;n=1")) [] []
          (text "http://h/;n=1") (text "https://m/b/;k=v") =
            .error (.url (.missing_parameter_error (text "type"))))) := by
  have hmatched : ∀ loc, Matched plain_expressions source pattern mirror loc := by
    intro loc
    right
    cases loc <;> decide
  have hsame : Same source pattern := by
    unfold Same
    decide
  exact (mirror_uri_spec (fetch_of (text "http://h/a;n=1")) (text "http://h/;n=1") (text "https://m/b/;k=v")
    (by decide +kernel) (by decide +kernel) (by decide +kernel) (plain_expressions_valid [] pattern mirror)).2.2
    hmatched (.inr hsame)

/-- A parameter of the pattern that is not there raises. A user in the replacement and a tarball map an URL that
does not match, a replacement may have no type, and a mapping to the URL itself gives nothing. -/
theorem mappings_differ :
    uri_replace plain_expressions (fetch_of (text "http://h/a")) [] [] (text "http://h/;n=1") (text "http://m/b/") =
        .error (.key_error (text "n")) ∧
      uri_replace plain_expressions (fetch_of (text "http://y@h/a")) [] [] (text "http://x@h/") (text "http://z@m/b/") =
        .ok (some (text "http://z@m/b/a")) ∧
      uri_replace plain_expressions (fetch_of (text "git://h/a;n=2")) [] (text "t") (text "git://h/;n=1")
        (text "http://m/b/") = .ok (some (text "http://m/b/t")) ∧
      uri_replace plain_expressions (fetch_of (text "http://h/a")) [] [] (text "http://h/") (text "://m/b/") =
        .error (.url (.missing_parameter_error (text "type"))) ∧
      uri_replace plain_expressions (fetch_of (text "http://h/a;n=1")) [] [] (text "http://h/") (text "http://h/;n=1") =
        .ok none := by
  decide +kernel

end yocto.mirror_uris
