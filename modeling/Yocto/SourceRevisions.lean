-- The revision of the sources (_get_srcrev of bb.fetch2). A variable marks that the look-up
-- goes on, so that a look-up within it can be told.
import Yocto.DataSmart
import Yocto.Substitution

open yocto.task_ids yocto.data_smart yocto.ordered_dict yocto.substitution

namespace yocto.source_revisions

/-! ## The look-up -/

inductive Raised
  | fetch_error (msg : Text)
  | other (what : Text)

/-- The data of a URL: whether its method supports revisions, its names, and what the method of the fetcher
that is asked for gives for a name. -/
structure FetchData where
  supports_srcrev : Bool
  names : List Text
  names_ne : names ≠ []
  revision : Text → Except Raised (Bool × Text)

/-- What a look-up finds: the expanded variables, and `Fetch`, whose data are told in their order. -/
structure World where
  SRC_URI : Except Raised Text
  SRCREV_FORMAT : Except Raised (Option Text)
  fetch : List Text → Except Raised (List (Text × FetchData))

/-- The variables that are set: `__BBINSRCREV` and `__BBSRCREV_SEEN`. -/
structure Vars where
  bbinsrcrev : Bool
  bbsrcrev_seen : Bool

def autoinc_text (autoinc : Bool) : Text := if autoinc then text "AUTOINC+" else []

def cut (rev : Text) : Text := if rev.length > 10 then rev.take 10 else rev

def named (scms : List (Text × FetchData)) : List (Text × FetchData) :=
  scms.flatMap fun scm => scm.2.names.map fun name => (name, scm.2)

/-- The loop over the SCMs and their names: the name, whether its revision is AUTOINC, and the revision. -/
def revisions (scms : List (Text × FetchData)) : Except Raised (List (Text × Bool × Text)) :=
  (named scms).mapM fun x => (x.2.revision x.1).map fun r => (x.1, r)

def name_to_rev (revisions : List (Text × Bool × Text)) : OrderedDict Text Text :=
  revisions.foldl (fun d x => d.set x.1 (cut x.2.2)) []

def value (dict : OrderedDict Text Text) (name : Text) : Text := (dict.get? name).getD []

def formatted (format : Text) (revisions : List (Text × Bool × Text)) : Text :=
  let dict := name_to_rev revisions
  sub (longest_first (dict.map Prod.fst)) (value dict) 0 format

def single : List (Text × FetchData) → Option (Text × FetchData)
  | [(_, ud)] =>
    match ud.names with
    | [name] => some (name, ud)
    | _ => none
  | _ => none

def fetch_error (message : Text) : Raised := .fetch_error (text "Fetcher failure: " ++ message)

def recursive_message : Text :=
  text "There are recursive references in fetcher variables, likely through SRC_URI"

def format_message (scms : List (Text × FetchData)) : Text :=
  text "The SRCREV_FORMAT variable must be set when multiple SCMs are used.\nThe SCMs are:\n" ++
    ['\n'].intercalate (scms.map Prod.fst)

def Vars.set (vars : Vars) : Vars := { vars with bbinsrcrev := true }

def Vars.del (vars : Vars) : Vars := { vars with bbinsrcrev := false }

/-- The part for several SCMs, or several names. -/
def multiple_scms (vars : Vars) (world : World) (scms : List (Text × FetchData)) :
    Except Raised (Text × List Text) × Vars :=
  match world.SRCREV_FORMAT with
  | .error e => (.error e, vars)
  | .ok none => (.error (fetch_error (format_message scms)), vars)
  | .ok (some []) => (.error (fetch_error (format_message scms)), vars)
  | .ok (some format) =>
    match revisions scms with
    | .error e => (.error e, vars)
    | .ok revs =>
      (.ok (autoinc_text (revs.any fun x => x.2.1) ++ formatted format revs, revs.map fun x => x.2.2), vars.del)

def _get_srcrev (vars : Vars) (world : World) : Except Raised (Text × List Text) × Vars :=
  let vars := { vars with bbsrcrev_seen := true }
  if vars.bbinsrcrev then (.error (fetch_error recursive_message), vars)
  else
    let vars := vars.set
    match world.SRC_URI with
    | .error e => (.error e, vars)
    | .ok src_uri =>
      match world.fetch (words src_uri) with
      | .error e => (.error e, vars)
      | .ok urldata =>
        let scms := urldata.filter fun u => u.2.supports_srcrev
        if scms.isEmpty then (.ok ([], []), vars.del)
        else
          match single scms with
          | some (name, ud) =>
            match ud.revision name with
            | .error e => (.error e, vars)
            | .ok (autoinc, rev) => (.ok (autoinc_text autoinc ++ cut rev, [rev]), vars.del)
          | none => multiple_scms vars world scms

/-! ## What the look-up is for -/

def Scms (world : World) (scms : List (Text × FetchData)) : Prop :=
  ∃ src_uri urldata, world.SRC_URI = .ok src_uri ∧ world.fetch (words src_uri) = .ok urldata ∧
    scms = urldata.filter fun u => u.2.supports_srcrev

/-- The revision that was given last for a name, cut to ten characters. -/
def revision_of (revs : List (Text × Bool × Text)) (name : Text) : Text :=
  ((revs.reverse.find? fun x => x.1 = name).map fun x => x.2.2.take 10).getD []

/-- With several names the format has the revisions in place of the names. AUTOINC stands in front of it when a
revision is not incremental. -/
def Formatted (vars : Vars) (world : World) : Prop :=
  ∀ result scms, (_get_srcrev vars world).1 = .ok result → Scms world scms → 1 < (named scms).length →
    ∃ format revs r, world.SRCREV_FORMAT = .ok (some format) ∧ revisions scms = .ok revs ∧
      Replaced (revs.map Prod.fst) (revision_of revs) format r ∧
      result.1 = autoinc_text (revs.any fun x => x.2.1) ++ r

/-- The look-up leaves its mark as it found it, and gives what it is for. -/
structure Clean (vars : Vars) (world : World) : Prop where
  left_as_found : (_get_srcrev vars world).2.bbinsrcrev = vars.bbinsrcrev
  formatted : Formatted vars world

/-- Nothing that the look-up asks for raises: the variables can be expanded, and there is a format when there are
several names. -/
def Answered (world : World) : Prop :=
  ∃ scms, Scms world scms ∧ (∀ x ∈ named scms, ∃ r, x.2.revision x.1 = .ok r) ∧
    (1 < (named scms).length → ∃ format, world.SRCREV_FORMAT = .ok (some format) ∧ format ≠ [])

/-! ## The revisions of the names -/

theorem cut_eq (rev : Text) : cut rev = rev.take 10 := by
  unfold cut
  split
  · rfl
  · rw [List.take_of_length_le (by omega)]

theorem name_to_rev_concat (revs : List (Text × Bool × Text)) (x : Text × Bool × Text) :
    name_to_rev (revs ++ [x]) = (name_to_rev revs).set x.1 (cut x.2.2) := by
  unfold name_to_rev
  rw [List.foldl_concat]

theorem key_name_to_rev (revs : List (Text × Bool × Text)) (name : Text) :
    name ∈ (name_to_rev revs).map Prod.fst ↔ name ∈ revs.map Prod.fst := by
  induction revs using List.reverseRecOn with
  | nil => rfl
  | append_singleton revs x ih =>
    rw [name_to_rev_concat, OrderedDict.key_set, ih]
    simp [eq_comm]

theorem value_name_to_rev (revs : List (Text × Bool × Text)) (name : Text) :
    value (name_to_rev revs) name = revision_of revs name := by
  induction revs using List.reverseRecOn with
  | nil => rfl
  | append_singleton revs x ih =>
    unfold value revision_of at ih ⊢
    rw [name_to_rev_concat, List.reverse_concat, List.find?_cons]
    by_cases hname : x.1 = name
    · subst hname
      simp [OrderedDict.get?_set_self, cut_eq]
    · rw [OrderedDict.get?_set_other _ _ (Ne.symm hname), ih]
      simp [hname]

theorem replaced_formatted (format : Text) (revs : List (Text × Bool × Text)) :
    Replaced (revs.map Prod.fst) (revision_of revs) format (formatted format revs) :=
  (replaced_sub ((name_to_rev revs).map Prod.fst) (value (name_to_rev revs)) format).congr
    (key_name_to_rev revs) fun name _ => value_name_to_rev revs name

theorem revisions_ok_iff (scms : List (Text × FetchData)) :
    (∃ revs, revisions scms = .ok revs) ↔ ∀ x ∈ named scms, ∃ r, x.2.revision x.1 = .ok r := by
  unfold revisions
  induction named scms with
  | nil => simp [pure, Except.pure]
  | cons x l ih =>
    rw [List.mapM_cons, List.forall_mem_cons, ← ih]
    cases hx : x.2.revision x.1 with
    | error e => simp [Except.map, bind, Except.bind]
    | ok r =>
      cases hl : l.mapM (m := Except Raised) fun x => (x.2.revision x.1).map fun r => (x.1, r) with
      | error e => simp [Except.map, bind, Except.bind]
      | ok revs => simp [Except.map, bind, Except.bind, pure, Except.pure]

theorem named_single {scms : List (Text × FetchData)} {x : Text × FetchData} (h : single scms = some x) :
    named scms = [x] := by
  unfold single at h
  split at h
  · split at h
    · rename_i hnames
      obtain rfl := Option.some.inj h
      simp [named, hnames]
    · cases h
  · cases h

theorem length_named_cons (u : Text × FetchData) (scms : List (Text × FetchData)) :
    (named (u :: scms)).length = u.2.names.length + (named scms).length := by
  simp [named]

theorem one_lt_named {scms : List (Text × FetchData)} (hne : scms ≠ []) (h : single scms = none) :
    1 < (named scms).length := by
  obtain ⟨u, rest, rfl⟩ := List.exists_cons_of_ne_nil hne
  have hu := List.length_pos_iff.mpr u.2.names_ne
  rw [length_named_cons]
  cases rest with
  | nil =>
    have htwo : u.2.names.length ≠ 1 := by
      intro hone
      obtain ⟨name, hname⟩ := List.length_eq_one_iff.mp hone
      simp [single, hname] at h
    omega
  | cons v rest =>
    have hv := List.length_pos_iff.mpr v.2.names_ne
    rw [length_named_cons]
    omega

/-! ## The mark -/

section

variable {vars : Vars} {world : World} {scms : List (Text × FetchData)}

theorem Scms.unique {scms' : List (Text × FetchData)} (h : Scms world scms) (h' : Scms world scms') :
    scms' = scms := by
  obtain ⟨src_uri, urldata, hsrc, hfetch, rfl⟩ := h
  obtain ⟨src_uri', urldata', hsrc', hfetch', rfl⟩ := h'
  obtain rfl : src_uri = src_uri' := by simpa [hsrc] using hsrc'
  obtain rfl : urldata = urldata' := by simpa [hfetch] using hfetch'
  rfl

theorem get_srcrev_recursive (h : vars.bbinsrcrev = true) :
    _get_srcrev vars world = (.error (fetch_error recursive_message), { vars with bbsrcrev_seen := true }) := by
  unfold _get_srcrev
  rw [if_pos h]

theorem get_srcrev_not_scms (h : vars.bbinsrcrev = false) (hscms : ∀ scms, ¬ Scms world scms) :
    ∃ e, _get_srcrev vars world = (.error e, ⟨true, true⟩) := by
  unfold _get_srcrev
  rw [if_neg (by simp [h])]
  cases hsrc : world.SRC_URI with
  | error e => exact ⟨e, by simp [Vars.set]⟩
  | ok src_uri =>
    cases hfetch : world.fetch (words src_uri) with
    | error e => exact ⟨e, by simp [Vars.set, hfetch]⟩
    | ok urldata => exact absurd ⟨src_uri, urldata, hsrc, hfetch, rfl⟩ (hscms _)

theorem get_srcrev_scms (h : vars.bbinsrcrev = false) (hscms : Scms world scms) :
    (scms = [] → _get_srcrev vars world = (.ok ([], []), ⟨false, true⟩)) ∧
      (∀ x r, single scms = some x → x.2.revision x.1 = .ok r →
        _get_srcrev vars world = (.ok (autoinc_text r.1 ++ cut r.2, [r.2]), ⟨false, true⟩)) ∧
      (∀ x e, single scms = some x → x.2.revision x.1 = .error e →
        _get_srcrev vars world = (.error e, ⟨true, true⟩)) ∧
      (scms ≠ [] → single scms = none → _get_srcrev vars world = multiple_scms ⟨true, true⟩ world scms) := by
  obtain ⟨src_uri, urldata, hsrc, hfetch, rfl⟩ := hscms
  have hne : ∀ x, single (urldata.filter fun u => u.2.supports_srcrev) = some x →
      (urldata.filter fun u => u.2.supports_srcrev).isEmpty = false := by
    intro x hx
    rw [List.isEmpty_eq_false_iff]
    intro hnil
    rw [hnil] at hx
    cases hx
  unfold _get_srcrev
  rw [if_neg (by simp [h])]
  simp only [hsrc, hfetch]
  refine ⟨fun hnil => ?_, fun x r hx hr => ?_, fun x e hx he => ?_, fun hscms hnone => ?_⟩
  · simp [hnil, Vars.set, Vars.del]
  · simp [hne x hx, hx, hr, Vars.set, Vars.del]
  · simp [hne x hx, hx, he, Vars.set]
  · rw [if_neg (by simpa using hscms)]
    simp [hnone, Vars.set]

theorem multiple_scms_answered {format : Text} {revs : List (Text × Bool × Text)}
    (hformat : world.SRCREV_FORMAT = .ok (some format)) (hne : format ≠ []) (hrevs : revisions scms = .ok revs) :
    multiple_scms vars world scms =
      (.ok (autoinc_text (revs.any fun x => x.2.1) ++ formatted format revs, revs.map fun x => x.2.2), vars.del) := by
  unfold multiple_scms
  cases format with
  | nil => exact absurd rfl hne
  | cons c format => simp only [hformat, hrevs]

theorem multiple_scms_raises
    (h : ¬ ∃ format revs, world.SRCREV_FORMAT = .ok (some format) ∧ format ≠ [] ∧ revisions scms = .ok revs) :
    ∃ e, multiple_scms vars world scms = (.error e, vars) := by
  unfold multiple_scms
  cases hformat : world.SRCREV_FORMAT with
  | error e => exact ⟨e, rfl⟩
  | ok format =>
    cases format with
    | none => exact ⟨_, rfl⟩
    | some format =>
      cases format with
      | nil => exact ⟨_, rfl⟩
      | cons c format =>
        cases hrevs : revisions scms with
        | error e => exact ⟨e, rfl⟩
        | ok revs => exact absurd ⟨c :: format, revs, hformat, List.cons_ne_nil _ _, hrevs⟩ h

theorem get_srcrev_cases (h : vars.bbinsrcrev = false) :
    (Answered world ∧ (_get_srcrev vars world).2.bbinsrcrev = false ∧ Formatted vars world) ∨
      (¬ Answered world ∧ (_get_srcrev vars world).2.bbinsrcrev = true) := by
  by_cases hscms : ∃ scms, Scms world scms
  · obtain ⟨scms, hscms⟩ := hscms
    obtain ⟨hnil, hsingle, herror, hseveral⟩ := get_srcrev_scms h hscms
    rcases eq_or_ne scms [] with rfl | hne
    · left
      refine ⟨⟨[], hscms, by simp [named], by simp [named]⟩, by rw [hnil rfl], ?_⟩
      intro result scms' _ hscms' hlength
      obtain rfl := hscms.unique hscms'
      simp [named] at hlength
    · cases hx : single scms with
      | some x =>
        have hnamed := named_single hx
        cases hr : x.2.revision x.1 with
        | error e =>
          right
          refine ⟨?_, by rw [herror x e hx hr]⟩
          rintro ⟨scms', hscms', hall, -⟩
          obtain rfl := hscms.unique hscms'
          obtain ⟨r, hok⟩ := hall x (by simp [hnamed])
          rw [hr] at hok
          cases hok
        | ok r =>
          left
          refine ⟨⟨scms, hscms, ?_, ?_⟩, by rw [hsingle x r hx hr], ?_⟩
          · rw [hnamed]
            intro y hy
            obtain rfl := List.mem_singleton.mp hy
            exact ⟨r, hr⟩
          · simp [hnamed]
          · intro result scms' _ hscms' hlength
            obtain rfl := hscms.unique hscms'
            simp [hnamed] at hlength
      | none =>
        have hlength := one_lt_named hne hx
        rw [hseveral hne hx]
        by_cases hanswer : ∃ format revs, world.SRCREV_FORMAT = .ok (some format) ∧ format ≠ [] ∧
            revisions scms = .ok revs
        · left
          obtain ⟨format, revs, hformat, hformatne, hrevs⟩ := hanswer
          have hmultiple := @multiple_scms_answered ⟨true, true⟩ world scms format revs hformat hformatne hrevs
          refine ⟨⟨scms, hscms, (revisions_ok_iff scms).mp ⟨revs, hrevs⟩, fun _ => ⟨format, hformat, hformatne⟩⟩,
            by rw [hmultiple]; rfl, ?_⟩
          intro result scms' hresult hscms' _
          obtain rfl := hscms.unique hscms'
          rw [hseveral hne hx, hmultiple] at hresult
          refine ⟨format, revs, _, hformat, hrevs, replaced_formatted format revs, ?_⟩
          rw [← Except.ok.inj hresult]
        · right
          obtain ⟨e, he⟩ := @multiple_scms_raises ⟨true, true⟩ world scms hanswer
          refine ⟨?_, by rw [he]⟩
          rintro ⟨scms', hscms', hall, hformat⟩
          obtain rfl := hscms.unique hscms'
          obtain ⟨format, hformat, hformatne⟩ := hformat hlength
          obtain ⟨revs, hrevs⟩ := (revisions_ok_iff _).mpr hall
          exact hanswer ⟨format, revs, hformat, hformatne, hrevs⟩
  · right
    obtain ⟨e, he⟩ := get_srcrev_not_scms h fun scms hs => hscms ⟨scms, hs⟩
    refine ⟨?_, by rw [he]⟩
    rintro ⟨scms, hs, -⟩
    exact hscms ⟨scms, hs⟩

/-- The look-up leaves its mark as it found it, and replaces the names in the format, when the mark is there
already or nothing raises. -/
theorem get_srcrev_is_clean_iff (vars : Vars) (world : World) :
    Clean vars world ↔ vars.bbinsrcrev = true ∨ Answered world := by
  cases h : vars.bbinsrcrev with
  | true =>
    refine ⟨fun _ => .inl rfl, fun _ => ⟨?_, ?_⟩⟩
    · rw [get_srcrev_recursive h]
    · intro result scms hresult
      rw [get_srcrev_recursive h] at hresult
      cases hresult
  | false =>
    rcases @get_srcrev_cases vars world h with ⟨hanswered, hleft, hformatted⟩ | ⟨hnot, hleft⟩
    · exact ⟨fun _ => .inr hanswered, fun _ => ⟨by rw [hleft, h], hformatted⟩⟩
    · constructor
      · intro hclean
        have hsame := hclean.left_as_found
        rw [hleft, h] at hsame
        cases hsame
      · rintro (htrue | hanswered)
        · cases htrue
        · exact absurd hanswered hnot

end

def unreachable : World where
  SRC_URI := .ok (text "git://example.com/repo")
  SRCREV_FORMAT := .ok none
  fetch := fun urls => .ok (urls.map fun url =>
    (url, ⟨true, [text "default"], by simp, fun _ => .error (fetch_error (text "Unable to resolve"))⟩))

/-- The fetcher raises, and the mark stays. -/
theorem the_mark_stays : ¬ ∀ (vars : Vars) (world : World), Clean vars world := by
  intro h
  have hleft := (h ⟨false, false⟩ unreachable).left_as_found
  exact absurd hleft (by decide)

end yocto.source_revisions
