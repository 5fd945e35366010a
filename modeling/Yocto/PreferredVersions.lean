-- The version that is built (providers.py).
import Yocto.OrderedDict
import Yocto.Versions

open yocto.task_ids yocto.ordered_dict yocto.python_int yocto.text_lines yocto.versions

namespace yocto.preferred_versions

/-! ## The choice -/

/-- What the choice reads of the `dataCache`. Every version is one that `vercmp` is for. -/
structure DataCache where
  bbfile_priority : Text → Int
  pkg_dp : Text → Int
  pkg_pepvpr : Text → Version
  proper : ∀ f, (pkg_pepvpr f).Proper

def sorted_keys {V : Type} (d : OrderedDict Int V) : List Int :=
  (d.map Prod.fst).mergeSort fun a b => decide (a ≤ b)

/-- `priorities[priority][preference].append(f)`. -/
def file_in (dc : DataCache) (priorities : OrderedDict Int (OrderedDict Int (List Text))) (f : Text) :
    OrderedDict Int (OrderedDict Int (List Text)) :=
  let preferences := (priorities.get? (dc.bbfile_priority f)).getD []
  let files := (preferences.get? (dc.pkg_dp f)).getD []
  priorities.set (dc.bbfile_priority f) (preferences.set (dc.pkg_dp f) (files ++ [f]))

/-- `tmp_pref`: the files of one priority by preference. -/
def by_preference (preferences : OrderedDict Int (List Text)) : List Text :=
  (sorted_keys preferences).flatMap fun pref => (preferences.get? pref).getD []

/-- `sortPriorities`: the files of each priority, the highest first. -/
def sortPriorities (dc : DataCache) (files : List Text) : List (List Text) :=
  let priorities := files.foldl (file_in dc) []
  (sorted_keys priorities).foldl (fun tmp_pn pri => by_preference ((priorities.get? pri).getD []) :: tmp_pn) []

/-- `versionVariableMatch`, of the variables in the configuration. -/
def versionVariableMatch (cfg : Text → Option Text) (keyword pn : Text) : Option Text :=
  let falsy := fun ver : Option Text => ver.getD [] = []
  let ver := cfg (keyword ++ text "_VERSION:pn-" ++ pn)
  let ver := if falsy ver then cfg (keyword ++ text "_VERSION_" ++ pn) else ver
  if falsy ver then cfg (keyword ++ text "_VERSION") else ver

/-- `(\d+:)*`: the digits of the last time it matches, and what is left behind it. -/
def match_epochs (last : Option Text) (digits start : Text) : Text → Option Text × Text
  | [] => (last, start)
  | c :: s =>
    if decimal c then match_epochs last (digits ++ [c]) start s
    else if c = ':' ∧ digits ≠ [] then match_epochs (some digits) [] s s
    else (last, start)

/-- `(\d+:)*(.*)(_.*)*`: the three groups, the first without its colon and the third without its underscore. -/
def match_version (preferred_v : Text) : Option Text × Text × Option Text :=
  let (e, rest) := match_epochs none [] preferred_v preferred_v
  let group := fun s : Text => s.takeWhile (· ≠ '\n')
  (e, group rest, match rest.dropWhile (· ≠ '\n') with
    | '_' :: r => some (group r)
    | _ => none)

def preferredVersionMatch (v : Version) (preferred_e : Option Text) (preferred_v : Text) (preferred_r : Option Text) :
    Bool :=
  if some v.pr = preferred_r ∨ preferred_r = none then
    if some v.pe = preferred_e ∨ preferred_e = none then
      if preferred_v = v.pv then true
      else ['%'] <:+ preferred_v ∧ preferred_v.take (preferred_v.length - 1) <+: v.pv
    else false
  else false

/-- The test of a file against the text that asks. -/
def asked (preferred_v : Text) (v : Version) : Bool :=
  let (e, pv, r) := match_version preferred_v
  preferredVersionMatch v e pv r

/-- `findPreferredProvider`: the file, and whether the version is required. A file's name is not empty. -/
def findPreferredProvider (dc : DataCache) (cfg : Text → Option Text) (pn : Text) (pkg_pn : List (List Text)) :
    Option Text × Bool :=
  let required_v := versionVariableMatch cfg (text "REQUIRED") pn
  let preferred_v := if required_v.isSome then required_v else versionVariableMatch cfg (text "PREFERRED") pn
  let asked_v := preferred_v.getD []
  (if asked_v = [] then none
    else pkg_pn.findSome? fun file_set => file_set.find? fun f => asked asked_v (dc.pkg_pepvpr f), required_v.isSome)

/-- The file with the latest version so far. -/
structure Latest where
  latest : Version
  latest_p : Int
  latest_f : Text

/-- One turn of the loop of `findLatestProvider`. -/
def latest_turn (dc : DataCache) (acc : Option Latest) (f : Text) : Option (Option Latest) :=
  let new := Latest.mk (dc.pkg_pepvpr f) (dc.pkg_dp f) f
  match acc with
  | none => some (some new)
  | some l => do
    let later ← if l.latest_p = new.latest_p then (vercmp l.latest new.latest).map (decide <| · < 0) else some false
    some (if later ∨ new.latest_p > l.latest_p then some new else some l)

def findLatestProvider (dc : DataCache) (file_set : List Text) : Option (Option Latest) :=
  file_set.foldlM (latest_turn dc) none

structure Best where
  latest : Option Version
  latest_f : Option Text
  preferred_ver : Option Version
  preferred_file : Option Text
  required : Bool

/-- `findBestProvider`, of the files of one name. None is an exception. -/
def findBestProvider (dc : DataCache) (cfg : Text → Option Text) (pn : Text) (files : List Text) : Option Best := do
  let sortpkg_pn := sortPriorities dc files
  let (preferred_file, required) := findPreferredProvider dc cfg pn sortpkg_pn
  let l ← findLatestProvider dc (← sortpkg_pn.head?)
  let latest := l.map Latest.latest
  let latest_f := l.map Latest.latest_f
  if required = false ∧ preferred_file = none then some ⟨latest, latest_f, latest, latest_f, required⟩
  else some ⟨latest, latest_f, preferred_file.map dc.pkg_pepvpr, preferred_file, required⟩

/-! ## The sets of files -/

section
variable (dc : DataCache)

theorem sorted_keys_mem {V : Type} (d : OrderedDict Int V) (k : Int) : k ∈ sorted_keys d ↔ k ∈ d.map Prod.fst := by
  rw [sorted_keys, List.mem_mergeSort]

theorem get?_file_in (files : List Text) (pri : Int) :
    ((files.foldl (file_in dc) []).get? pri).getD [] =
      OrderedDict.group dc.pkg_dp id (files.filter fun f => decide (dc.bbfile_priority f = pri)) := by
  induction files using List.reverseRecOn with
  | nil => rfl
  | append_singleton files f ih =>
    rw [List.foldl_append, List.filter_append]
    simp only [List.foldl_cons, List.foldl_nil, file_in]
    by_cases hpri : dc.bbfile_priority f = pri
    · subst hpri
      rw [OrderedDict.get?_set_self, Option.getD_some, ih]
      simp [OrderedDict.group_concat]
    · rw [OrderedDict.get?_set_other _ _ (Ne.symm hpri), ih]
      simp [hpri]

theorem key_file_in (files : List Text) (pri : Int) :
    pri ∈ (files.foldl (file_in dc) []).map Prod.fst ↔ ∃ f ∈ files, dc.bbfile_priority f = pri := by
  induction files using List.reverseRecOn with
  | nil => simp
  | append_singleton files f ih =>
    rw [List.foldl_append]
    simp only [List.foldl_cons, List.foldl_nil, file_in]
    rw [OrderedDict.key_set, ih]
    simp only [List.mem_append, List.mem_singleton]
    constructor
    · rintro (⟨g, hg, hpri⟩ | rfl)
      · exact ⟨g, Or.inl hg, hpri⟩
      · exact ⟨f, Or.inr rfl, rfl⟩
    · rintro ⟨g, hg | rfl, hpri⟩
      · exact Or.inl ⟨g, hg, hpri⟩
      · exact Or.inr hpri.symm

theorem file_in_nodup (files : List Text) : ((files.foldl (file_in dc) []).map Prod.fst).Nodup := by
  induction files using List.reverseRecOn with
  | nil => exact List.nodup_nil
  | append_singleton files f ih =>
    rw [List.foldl_append]
    exact OrderedDict.keys_set_nodup ih

def set_of (files : List Text) (pri : Int) : List Text :=
  by_preference (((files.foldl (file_in dc) []).get? pri).getD [])

theorem mem_set_of (files : List Text) (pri : Int) (f : Text) :
    f ∈ set_of dc files pri ↔ f ∈ files ∧ dc.bbfile_priority f = pri := by
  unfold set_of by_preference
  rw [get?_file_in, List.mem_flatMap]
  simp only [sorted_keys_mem, OrderedDict.key_group, OrderedDict.get?_group, List.map_id, List.mem_filter,
    decide_eq_true_eq]
  constructor
  · rintro ⟨_, _, hf, _⟩
    exact hf
  · rintro hf
    exact ⟨dc.pkg_dp f, ⟨f, hf, rfl⟩, hf, rfl⟩

theorem sortPriorities_spec (files : List Text) :
    ∃ priorities : List Int, sortPriorities dc files = priorities.map (set_of dc files) ∧
      priorities.Pairwise (· > ·) ∧ ∀ pri, pri ∈ priorities ↔ ∃ f ∈ files, dc.bbfile_priority f = pri := by
  have hfold : ∀ (l : List Int) (acc : List (List Text)),
      l.foldl (fun tmp_pn pri => set_of dc files pri :: tmp_pn) acc = (l.map (set_of dc files)).reverse ++ acc := by
    intro l
    induction l with
    | nil => simp
    | cons pri l ih => simp [ih]
  refine ⟨(sorted_keys (files.foldl (file_in dc) [])).reverse, ?_, ?_, fun pri => ?_⟩
  · have hsets := hfold (sorted_keys (files.foldl (file_in dc) [])) []
    rw [List.append_nil, ← List.map_reverse] at hsets
    exact hsets
  · rw [List.pairwise_reverse]
    exact OrderedDict.pairwise_sorted_keys (file_in_nodup dc files)
  · rw [List.mem_reverse, sorted_keys_mem, key_file_in]

end

/-! ## The two searches -/

section
variable {dc : DataCache} {files : List Text}

theorem first_in_sets (p : Text → Bool) {priorities : List Int} (hdesc : priorities.Pairwise (· > ·)) {f : Text}
    (h : (priorities.map (set_of dc files)).findSome? (fun file_set => file_set.find? p) = some f) :
    f ∈ files ∧ p f ∧ ∀ g ∈ files, dc.bbfile_priority g ∈ priorities → p g →
      dc.bbfile_priority g ≤ dc.bbfile_priority f := by
  induction priorities with
  | nil => cases h
  | cons pri priorities ih =>
    rw [List.pairwise_cons] at hdesc
    rw [List.map_cons, List.findSome?_cons] at h
    cases hfirst : (set_of dc files pri).find? p with
    | some f' =>
      rw [hfirst] at h
      obtain rfl := Option.some.inj h
      obtain ⟨hin, hpri⟩ := (mem_set_of dc files pri f').mp (List.mem_of_find?_eq_some hfirst)
      refine ⟨hin, List.find?_some hfirst, fun g _ hg _ => ?_⟩
      rcases List.mem_cons.mp hg with hg | hg
      · rw [hg, hpri]
      · have hlt := hdesc.1 _ hg
        omega
    | none =>
      rw [hfirst] at h
      obtain ⟨hin, hp, hmax⟩ := ih hdesc.2 h
      refine ⟨hin, hp, fun g hgin hg hpg => ?_⟩
      rcases List.mem_cons.mp hg with hg | hg
      · have hnone := List.find?_eq_none.mp hfirst g ((mem_set_of dc files pri g).mpr ⟨hgin, hg⟩)
        exact absurd hpg hnone
      · exact hmax g hgin hg hpg

theorem none_in_sets (p : Text → Bool) {priorities : List Int}
    (h : (priorities.map (set_of dc files)).findSome? (fun file_set => file_set.find? p) = none) :
    ∀ g ∈ files, dc.bbfile_priority g ∈ priorities → ¬ p g := by
  intro g hg hpri
  rw [List.findSome?_eq_none_iff] at h
  exact List.find?_eq_none.mp (h _ (List.mem_map_of_mem hpri)) g ((mem_set_of dc files _ g).mpr ⟨hg, rfl⟩)

/-- One file comes before another: by preference, and by version where these are equal. -/
def NotLater (dc : DataCache) (g f : Text) : Prop :=
  dc.pkg_dp g < dc.pkg_dp f ∨
    dc.pkg_dp g = dc.pkg_dp f ∧ ∃ r, vercmp (dc.pkg_pepvpr g) (dc.pkg_pepvpr f) = some r ∧ r ≤ 0

theorem NotLater.refl (f : Text) : NotLater dc f f :=
  Or.inr ⟨rfl, 0, vercmp_total_preorder.refl _ (dc.proper f), le_refl 0⟩

theorem NotLater.trans {a b c : Text} (h : NotLater dc a b) (h' : NotLater dc b c) : NotLater dc a c := by
  rcases h with h | ⟨h, r, hr, hle⟩
  · rcases h' with h' | ⟨h', _⟩
    · exact Or.inl (h.trans h')
    · exact Or.inl (h' ▸ h)
  · rcases h' with h' | ⟨h', r', hr', hle'⟩
    · exact Or.inl (h ▸ h')
    · exact Or.inr ⟨h.trans h', vercmp_total_preorder.trans _ _ _ _ _ hr hr' hle hle'⟩

/-- What the loop has found: a file of the list, and none of those before is later. -/
structure Found (dc : DataCache) (seen : List Text) (l : Latest) : Prop where
  file : l.latest_f ∈ seen
  latest : l.latest = dc.pkg_pepvpr l.latest_f
  latest_p : l.latest_p = dc.pkg_dp l.latest_f
  maximal : ∀ g ∈ seen, NotLater dc g l.latest_f

theorem latest_turn_first (dc : DataCache) (f : Text) :
    ∃ l, latest_turn dc none f = some (some l) ∧ Found dc [f] l := by
  refine ⟨_, rfl, List.mem_singleton.mpr rfl, rfl, rfl, fun g hg => ?_⟩
  rw [List.mem_singleton.mp hg]
  exact NotLater.refl f

theorem Found.turn {seen : List Text} {l : Latest} (h : Found dc seen l) (f : Text) :
    ∃ l', latest_turn dc (some l) f = some (some l') ∧ Found dc (seen ++ [f]) l' := by
  have hstays : NotLater dc f l.latest_f → Found dc (seen ++ [f]) l := by
    intro hnot
    refine ⟨List.mem_append_left _ h.file, h.latest, h.latest_p, fun g hg => ?_⟩
    rcases List.mem_append.mp hg with hg | hg
    · exact h.maximal g hg
    · rw [List.mem_singleton.mp hg]
      exact hnot
  have hreplaced : NotLater dc l.latest_f f → Found dc (seen ++ [f]) ⟨dc.pkg_pepvpr f, dc.pkg_dp f, f⟩ := by
    intro hlater
    refine ⟨by simp, rfl, rfl, fun g hg => ?_⟩
    rcases List.mem_append.mp hg with hg | hg
    · exact (h.maximal g hg).trans hlater
    · rw [List.mem_singleton.mp hg]
      exact NotLater.refl f
  unfold latest_turn
  dsimp only
  by_cases hdp : l.latest_p = dc.pkg_dp f
  · have hsame : dc.pkg_dp l.latest_f = dc.pkg_dp f := h.latest_p ▸ hdp
    obtain ⟨r, hr⟩ := vercmp_total_preorder.ends _ _ (dc.proper l.latest_f) (dc.proper f)
    rw [if_pos hdp, h.latest, hr]
    dsimp only [Option.map_some, Option.bind_eq_bind, Option.bind_some]
    have hnot : ¬ dc.pkg_dp f > l.latest_p := by omega
    by_cases hneg : r < 0
    · rw [if_pos (Or.inl (decide_eq_true hneg))]
      exact ⟨_, rfl, hreplaced (Or.inr ⟨hsame, r, hr, by omega⟩)⟩
    · obtain ⟨r', hr', hsign⟩ := vercmp_total_preorder.swap _ _ _ hr
      have hle : r' ≤ 0 := by
        rw [← sign_nonpos, hsign]
        have hpos : 0 ≤ r.sign := Int.sign_nonneg_iff.mpr (by omega)
        omega
      rw [if_neg (by simp [hneg, hnot])]
      exact ⟨l, rfl, hstays (Or.inr ⟨hsame.symm, r', hr', hle⟩)⟩
  · rw [if_neg hdp]
    dsimp only [Option.bind_eq_bind, Option.bind_some]
    by_cases hgt : dc.pkg_dp f > l.latest_p
    · rw [if_pos (Or.inr hgt)]
      exact ⟨_, rfl, hreplaced (Or.inl (h.latest_p ▸ hgt))⟩
    · rw [if_neg (by simp [hgt])]
      refine ⟨l, rfl, hstays (Or.inl ?_)⟩
      rw [← h.latest_p]
      omega

theorem findLatestProvider_spec (dc : DataCache) {file_set : List Text} (hne : file_set ≠ []) :
    ∃ l, findLatestProvider dc file_set = some (some l) ∧ Found dc file_set l := by
  obtain ⟨f, rest, rfl⟩ := List.exists_cons_of_ne_nil hne
  have hrest : ∀ (rest seen : List Text) (l : Latest), Found dc seen l →
      ∃ l', rest.foldlM (latest_turn dc) (some l) = some (some l') ∧ Found dc (seen ++ rest) l' := by
    intro rest
    induction rest with
    | nil => exact fun seen l h => ⟨l, rfl, by rwa [List.append_nil]⟩
    | cons g rest ih =>
      intro seen l h
      obtain ⟨l', hturn, h'⟩ := h.turn g
      obtain ⟨l'', hfold, h''⟩ := ih (seen ++ [g]) l' h'
      refine ⟨l'', ?_, by rwa [List.append_assoc] at h''⟩
      rw [List.foldlM_cons, hturn]
      exact hfold
  obtain ⟨l, hfirst, h⟩ := latest_turn_first dc f
  obtain ⟨l', hfold, h'⟩ := hrest rest [f] l h
  refine ⟨l', ?_, h'⟩
  unfold findLatestProvider
  rw [List.foldlM_cons, hfirst]
  exact hfold

end

/-! ## The choice, by what matches -/

/-- The file that is chosen, given what matches: it is a match in the highest priority that has one. Without any
match there is none when the version is required, and otherwise it is the latest one in the highest priority. -/
structure Chosen (dc : DataCache) (files : List Text) (matching : Version → Prop) (required : Bool) (best : Best) :
    Prop where
  version : best.preferred_ver = best.preferred_file.map dc.pkg_pepvpr
  matched : (∃ f ∈ files, matching (dc.pkg_pepvpr f)) → ∃ f ∈ files, best.preferred_file = some f ∧
    matching (dc.pkg_pepvpr f) ∧
      ∀ g ∈ files, matching (dc.pkg_pepvpr g) → dc.bbfile_priority g ≤ dc.bbfile_priority f
  missing : (∀ f ∈ files, ¬ matching (dc.pkg_pepvpr f)) → required = true → best.preferred_file = none
  latest : (∀ f ∈ files, ¬ matching (dc.pkg_pepvpr f)) → required = false → ∃ f ∈ files,
    best.preferred_file = some f ∧ (∀ g ∈ files, dc.bbfile_priority g ≤ dc.bbfile_priority f) ∧
      ∀ g ∈ files, dc.bbfile_priority g = dc.bbfile_priority f → NotLater dc g f

/-- The configuration asks for a version. -/
def Requests (cfg : Text → Option Text) (pn : Text) (required : Bool) (asked_v : Text) : Prop :=
  if required then versionVariableMatch cfg (text "REQUIRED") pn = some asked_v
  else versionVariableMatch cfg (text "REQUIRED") pn = none ∧
    versionVariableMatch cfg (text "PREFERRED") pn = some asked_v

section
variable {dc : DataCache} {cfg : Text → Option Text} {pn asked_v : Text} {files : List Text} {required : Bool}

theorem findPreferredProvider_requests (h : Requests cfg pn required asked_v) (hne : asked_v ≠ [])
    (sets : List (List Text)) :
    findPreferredProvider dc cfg pn sets =
      (sets.findSome? fun file_set => file_set.find? fun f => asked asked_v (dc.pkg_pepvpr f), required) := by
  unfold Requests at h
  unfold findPreferredProvider
  cases required with
  | true =>
    rw [if_pos rfl] at h
    rw [h]
    simp [hne]
  | false =>
    rw [if_neg Bool.false_ne_true] at h
    rw [h.1, h.2]
    simp [hne]

theorem findBestProvider_spec (dc : DataCache) (h : Requests cfg pn required asked_v) (hne : asked_v ≠ []) (hfiles : files ≠ []) :
    ∃ best, findBestProvider dc cfg pn files = some best ∧
      Chosen dc files (fun v => asked asked_v v = true) required best := by
  obtain ⟨priorities, hsets, hdesc, hmem⟩ := sortPriorities_spec dc files
  obtain ⟨first, hfirst⟩ := List.exists_mem_of_ne_nil files hfiles
  obtain ⟨pri, rest, rfl⟩ := List.exists_cons_of_ne_nil
    (List.ne_nil_of_mem ((hmem (dc.bbfile_priority first)).mpr ⟨first, hfirst, rfl⟩))
  have hset : set_of dc files pri ≠ [] := by
    obtain ⟨f, hf, hpri⟩ := (hmem pri).mp List.mem_cons_self
    exact List.ne_nil_of_mem ((mem_set_of dc files pri f).mpr ⟨hf, hpri⟩)
  have hinside : ∀ g ∈ files, dc.bbfile_priority g ∈ pri :: rest := fun g hg => (hmem _).mpr ⟨g, hg, rfl⟩
  obtain ⟨l, hl, hfound⟩ := findLatestProvider_spec dc hset
  obtain ⟨hlin, hlpri⟩ := (mem_set_of dc files pri l.latest_f).mp hfound.file
  unfold findBestProvider
  rw [hsets]
  dsimp only
  rw [findPreferredProvider_requests h hne]
  simp only [List.map_cons, List.head?_cons, Option.bind_eq_bind, Option.bind_some, hl]
  rw [← List.map_cons]
  cases hsearch : ((pri :: rest).map (set_of dc files)).findSome? fun file_set =>
      file_set.find? fun f => asked asked_v (dc.pkg_pepvpr f) with
  | some f =>
    obtain ⟨hin, hp, hmax⟩ := first_in_sets (fun f => asked asked_v (dc.pkg_pepvpr f)) hdesc hsearch
    rw [if_neg (by simp)]
    refine ⟨_, rfl, rfl, fun _ => ⟨f, hin, rfl, hp, fun g hg => hmax g hg (hinside g hg)⟩, fun hnone => ?_, fun hnone => ?_⟩
    · exact absurd hp (hnone f hin)
    · exact absurd hp (hnone f hin)
  | none =>
    have hno := none_in_sets (fun f => asked asked_v (dc.pkg_pepvpr f)) hsearch
    have hnone : ¬∃ f ∈ files, asked asked_v (dc.pkg_pepvpr f) = true := by
      rintro ⟨f, hf, hp⟩
      exact hno f hf (hinside f hf) hp
    cases required with
    | true =>
      rw [if_neg (by simp)]
      exact ⟨_, rfl, rfl, fun hex => absurd hex hnone, fun _ _ => rfl, fun _ hr => (nomatch hr)⟩
    | false =>
      rw [if_pos ⟨rfl, rfl⟩]
      refine ⟨_, rfl, ?_, fun hex => absurd hex hnone, fun _ hr => (nomatch hr), fun _ _ => ⟨l.latest_f, hlin, rfl, ?_, ?_⟩⟩
      · simp [hfound.latest]
      · intro g hg
        rw [hlpri]
        rcases List.mem_cons.mp (hinside g hg) with heq | hrest
        · exact le_of_eq heq
        · exact le_of_lt ((List.pairwise_cons.mp hdesc).1 _ hrest)
      · intro g hg hsame
        exact hfound.maximal g ((mem_set_of dc files pri g).mpr ⟨hg, hsame.trans hlpri⟩)

end

/-! ## The text that asks -/

/-- A text of the form `[PE:]PV[%][_PR]`, with its parts. -/
structure Spec where
  epoch : Option Text
  version : Text
  wildcard : Bool
  revision : Option Text
  digits : ∀ e ∈ epoch, e ≠ [] ∧ ∀ c ∈ e, decimal c
  given : version ≠ [] ∨ wildcard = true
  separators : ':' ∉ version ∧ '_' ∉ version
  plain : wildcard = false → ¬ ['%'] <:+ version
  line : '\n' ∉ version ∧ ∀ r ∈ revision, '\n' ∉ r

/-- What stands behind the epoch. -/
def Spec.body (spec : Spec) : Text :=
  spec.version ++ (if spec.wildcard then ['%'] else []) ++ (match spec.revision with
    | some r => '_' :: r
    | none => [])

def Spec.text (spec : Spec) : Text :=
  match spec.epoch with
  | some e => e ++ ':' :: spec.body
  | none => spec.body

/-- A version has every part that is given. -/
def Spec.Matches (spec : Spec) (v : Version) : Prop :=
  (∀ e ∈ spec.epoch, v.pe = e) ∧ (if spec.wildcard then spec.version <+: v.pv else v.pv = spec.version) ∧
    ∀ r ∈ spec.revision, v.pr = r

section
variable (spec : Spec)

theorem match_epochs_digits (last : Option Text) {d : Text} (hd : ∀ c ∈ d, decimal c) (digits start s : Text) :
    match_epochs last digits start (d ++ s) = match_epochs last (digits ++ d) start s := by
  induction d generalizing digits with
  | nil => rw [List.nil_append, List.append_nil]
  | cons c d ih =>
    rw [List.cons_append, match_epochs, if_pos (hd c List.mem_cons_self), ih fun c' h => hd c' (List.mem_cons_of_mem _ h)]
    simp

theorem match_epochs_stops (last : Option Text) {s : Text} (h : ∀ c ∈ (s.dropWhile decimal).head?, c ≠ ':')
    (digits start : Text) : match_epochs last digits start s = (last, start) := by
  induction s generalizing digits with
  | nil => rfl
  | cons c s ih =>
    rw [match_epochs]
    split
    · rename_i hc
      rw [List.dropWhile_cons_of_pos hc] at h
      exact ih h _
    · rename_i hc
      rw [List.dropWhile_cons_of_neg hc] at h
      rw [if_neg fun hcolon => h c rfl hcolon.1]

theorem head_behind_digits {tail : Text} (htail : ∀ c ∈ tail.head?, c ≠ ':' ∧ decimal c = false) {v : Text} (hv : ':' ∉ v) :
    ∀ c ∈ ((v ++ tail).dropWhile decimal).head?, c ≠ ':' := by
  induction v with
  | nil =>
    intro c hc
    cases tail with
    | nil => cases hc
    | cons t tail =>
      have ht := htail t rfl
      rw [List.nil_append, List.dropWhile_cons_of_neg (by simp [ht.2])] at hc
      cases hc
      exact ht.1
  | cons d v ih =>
    rw [List.mem_cons, not_or] at hv
    intro c hc
    rw [List.cons_append] at hc
    by_cases hd : decimal d
    · rw [List.dropWhile_cons_of_pos hd] at hc
      exact ih hv.2 c hc
    · rw [List.dropWhile_cons_of_neg hd] at hc
      cases hc
      exact Ne.symm hv.1

def Spec.tail (spec : Spec) : Text :=
  (if spec.wildcard then ['%'] else []) ++ (match spec.revision with
    | some r => '_' :: r
    | none => [])

theorem body_eq : spec.body = spec.version ++ spec.tail := by
  rw [Spec.body, Spec.tail, List.append_assoc]

theorem tail_head : ∀ c ∈ spec.tail.head?, c ≠ ':' ∧ decimal c = false := by
  intro c hc
  have hcases : c = '%' ∨ c = '_' := by
    unfold Spec.tail at hc
    cases hwild : spec.wildcard with
    | true =>
      rw [hwild] at hc
      exact Or.inl (Option.some.inj hc).symm
    | false =>
      rw [hwild] at hc
      cases hrev : spec.revision with
      | none =>
        rw [hrev] at hc
        cases hc
      | some r =>
        rw [hrev] at hc
        exact Or.inr (Option.some.inj hc).symm
  rcases hcases with rfl | rfl <;> decide

theorem body_line : '\n' ∉ spec.body := by
  unfold Spec.body
  have hversion := spec.line.1
  cases spec.wildcard <;> cases hrev : spec.revision with
  | none => simp [hversion]
  | some r => simp [hversion, spec.line.2 r hrev]

theorem body_ne_nil : spec.body ≠ [] := by
  unfold Spec.body
  rcases spec.given with h | h
  · simp [h]
  · simp [h]

theorem text_ne_nil : spec.text ≠ [] := by
  unfold Spec.text
  cases spec.epoch with
  | none => exact body_ne_nil spec
  | some e => simp

theorem match_version_text : match_version spec.text = (spec.epoch, spec.body, none) := by
  have hstops : ∀ last start, match_epochs last [] start spec.body = (last, start) := by
    intro last start
    apply match_epochs_stops
    rw [body_eq]
    exact head_behind_digits (tail_head spec) spec.separators.1
  have hepochs : match_epochs none [] spec.text spec.text = (spec.epoch, spec.body) := by
    unfold Spec.text
    cases hepoch : spec.epoch with
    | none => exact hstops none spec.body
    | some e =>
      obtain ⟨hne, hdigits⟩ := spec.digits e hepoch
      dsimp only
      rw [match_epochs_digits none hdigits, List.nil_append, match_epochs, if_neg (by decide), if_pos ⟨rfl, hne⟩]
      exact hstops (some e) spec.body
  have hline : ∀ c ∈ spec.body, decide (c ≠ '\n') = true := by
    intro c hc
    rw [decide_eq_true_iff]
    rintro rfl
    exact body_line spec hc
  have htake : spec.body.takeWhile (fun c => decide (c ≠ '\n')) = spec.body := List.takeWhile_eq_self_iff.mpr hline
  have hdrop : spec.body.dropWhile (fun c => decide (c ≠ '\n')) = [] := List.dropWhile_eq_nil_iff.mpr hline
  unfold match_version
  rw [hepochs]
  dsimp only
  rw [htake, hdrop]

theorem asked_iff (v : Version) : asked spec.text v = true ↔ (∀ e ∈ spec.epoch, v.pe = e) ∧
    (v.pv = spec.body ∨ ['%'] <:+ spec.body ∧ spec.body.take (spec.body.length - 1) <+: v.pv) := by
  unfold asked
  rw [match_version_text]
  unfold preferredVersionMatch
  dsimp only
  rw [if_pos (Or.inr rfl)]
  have hepoch : (some v.pe = spec.epoch ∨ spec.epoch = none) ↔ ∀ e ∈ spec.epoch, v.pe = e := by
    cases spec.epoch with
    | none => simp
    | some e => simp
  by_cases he : some v.pe = spec.epoch ∨ spec.epoch = none
  · rw [if_pos he]
    have hleft := hepoch.mp he
    by_cases hv : spec.body = v.pv
    · rw [if_pos hv]
      exact iff_of_true rfl ⟨hleft, Or.inl hv.symm⟩
    · rw [if_neg hv, decide_eq_true_iff]
      constructor
      · exact fun hprefix => ⟨hleft, Or.inr hprefix⟩
      · rintro ⟨_, heq | hprefix⟩
        · exact absurd heq.symm hv
        · exact hprefix
  · rw [if_neg he]
    simp only [Bool.false_eq_true, false_iff, not_and]
    exact fun h => absurd (hepoch.mpr h) he

theorem asked_iff_matches (h : spec.revision = none) (v : Version) : asked spec.text v = true ↔ spec.Matches v := by
  rw [asked_iff]
  unfold Spec.Matches Spec.body
  rw [h]
  cases hwild : spec.wildcard with
  | true =>
    have htake : (spec.version ++ ['%']).take ((spec.version ++ ['%']).length - 1) = spec.version := by simp
    simp only [if_true, List.append_nil, htake]
    constructor
    · rintro ⟨he, hv | ⟨_, hprefix⟩⟩
      · rw [hv]
        exact ⟨he, List.prefix_append _ _, fun r hr => (nomatch hr)⟩
      · exact ⟨he, hprefix, fun r hr => (nomatch hr)⟩
    · rintro ⟨he, hprefix, _⟩
      exact ⟨he, Or.inr ⟨List.suffix_append _ _, hprefix⟩⟩
  | false =>
    simp only [Bool.false_eq_true, if_false, List.append_nil]
    constructor
    · rintro ⟨he, hv | ⟨hsuffix, _⟩⟩
      · exact ⟨he, hv, fun r hr => (nomatch hr)⟩
      · exact absurd hsuffix (spec.plain hwild)
    · rintro ⟨he, hv, _⟩
      exact ⟨he, Or.inl hv⟩

theorem not_asked_of_revision {r : Text} (h : spec.revision = some r) {v : Version} (hv : v.pv = spec.version) :
    asked spec.text v = false := by
  rw [← Bool.not_eq_true, asked_iff, hv]
  have hbody : spec.body = spec.version ++ (if spec.wildcard then ['%'] else []) ++ '_' :: r := by
    rw [Spec.body, h]
  rintro ⟨_, heq | ⟨hsuffix, hprefix⟩⟩
  · have hlen := congrArg List.length heq
    rw [hbody] at hlen
    simp at hlen
  · -- the text ends with `%`, so the revision is not empty
    have hne : r ≠ [] := by
      rintro rfl
      rw [hbody] at hsuffix
      have hlast := hsuffix.getLast (by simp)
      simp at hlast
    have hlen := hprefix.length_le
    have hpos := List.length_pos_iff.mpr hne
    rw [hbody] at hlen
    simp only [List.length_take, List.length_append, List.length_cons] at hlen
    omega

end

/-! ## The revision -/

/-- Two files of the asked version, of which the preferred one has another revision. -/
def two_revisions (spec : Spec) (r : Text) (hr : spec.revision = some r) : DataCache where
  bbfile_priority _ := 0
  pkg_dp f := if f = text "b" then 1 else 0
  pkg_pepvpr f := ⟨spec.epoch.getD [], spec.version, if f = text "b" then r ++ ['x'] else r⟩
  proper f := by
    refine ⟨?_, spec.line.1, ?_⟩
    · unfold epoch
      cases he : spec.epoch with
      | none => rfl
      | some e =>
        obtain ⟨hne, hdigits⟩ := spec.digits e he
        rw [Option.getD_some, if_neg hne]
        exact int_digits hne hdigits
    · have hline := spec.line.2 r hr
      dsimp only
      split
      · simp [hline]
      · exact hline

/-- A configuration in which the version is set for `p` alone. -/
def set_for_p (required : Bool) (asked_v : Text) (name : Text) : Option Text :=
  if name = (if required then text "REQUIRED" else text "PREFERRED") ++ text "_VERSION:pn-p" then some asked_v else none

theorem set_for_p_requests (required : Bool) {asked_v : Text} (hne : asked_v ≠ []) :
    Requests (set_for_p required asked_v) (text "p") required asked_v := by
  unfold Requests
  cases required with
  | true =>
    rw [if_pos rfl]
    have hset : set_for_p true asked_v (text "REQUIRED" ++ text "_VERSION:pn-" ++ text "p") = some asked_v := rfl
    unfold versionVariableMatch
    simp only [hset, Option.getD_some, hne, if_false]
  | false =>
    rw [if_neg Bool.false_ne_true]
    have hset : set_for_p false asked_v (text "PREFERRED" ++ text "_VERSION:pn-" ++ text "p") = some asked_v := rfl
    refine ⟨rfl, ?_⟩
    unfold versionVariableMatch
    simp only [hset, Option.getD_some, hne, if_false]

theorem revision_is_missed (spec : Spec) {r : Text} (hr : spec.revision = some r) (required : Bool) :
    ¬∃ best, findBestProvider (two_revisions spec r hr) (set_for_p required spec.text) (text "p")
      [text "a", text "b"] = some best ∧
        Chosen (two_revisions spec r hr) [text "a", text "b"] spec.Matches required best := by
  rintro ⟨best, hbest, hchosen⟩
  have hrequests := set_for_p_requests required (text_ne_nil spec)
  have hfiles : [text "a", text "b"] ≠ [] := by simp
  obtain ⟨best', hbest', hcode⟩ := findBestProvider_spec (two_revisions spec r hr) hrequests (text_ne_nil spec) hfiles
  rw [hbest] at hbest'
  obtain rfl := Option.some.inj hbest'
  have hno : ∀ f ∈ [text "a", text "b"], ¬ asked spec.text ((two_revisions spec r hr).pkg_pepvpr f) = true := by
    intro f _
    rw [not_asked_of_revision spec hr rfl]
    exact Bool.false_ne_true
  -- `a` is the match, and `b` is not
  have hmatch : spec.Matches ((two_revisions spec r hr).pkg_pepvpr (text "a")) := by
    refine ⟨fun e he => ?_, ?_, fun r' hr' => ?_⟩
    · change spec.epoch.getD [] = e
      rw [Option.mem_def.mp he]
      rfl
    · change if spec.wildcard then spec.version <+: spec.version else spec.version = spec.version
      simp
    · rw [hr] at hr'
      exact Option.some.inj hr'
  have hother : ¬ spec.Matches ((two_revisions spec r hr).pkg_pepvpr (text "b")) := by
    intro h
    have hrevision : r ++ ['x'] = r := h.2.2 r hr
    simp at hrevision
  obtain ⟨f, hf, hpreferred, hfmatch, _⟩ := hchosen.matched ⟨text "a", List.mem_cons_self, hmatch⟩
  obtain rfl : f = text "a" := by
    simp only [List.mem_cons, List.not_mem_nil, or_false] at hf
    rcases hf with rfl | rfl
    · rfl
    · exact absurd hfmatch hother
  cases required with
  | true =>
    rw [hcode.missing hno rfl] at hpreferred
    cases hpreferred
  | false =>
    obtain ⟨g, _, hlatest, _, hmax⟩ := hcode.latest hno rfl
    rw [hpreferred] at hlatest
    obtain rfl := Option.some.inj hlatest
    have hpref : (two_revisions spec r hr).pkg_dp (text "b") = 1 ∧ (two_revisions spec r hr).pkg_dp (text "a") = 0 :=
      ⟨rfl, rfl⟩
    rcases hmax (text "b") (by simp) rfl with h | ⟨h, _⟩ <;> omega

/-- The choice is right for all files exactly if the text has no revision. -/
theorem version_is_chosen_iff_no_revision (spec : Spec) (required : Bool) :
    (∀ (dc : DataCache) (cfg : Text → Option Text) (pn : Text) (files : List Text), files ≠ [] →
      Requests cfg pn required spec.text → ∃ best, findBestProvider dc cfg pn files = some best ∧
        Chosen dc files spec.Matches required best) ↔ spec.revision = none := by
  constructor
  · intro h
    by_contra hrevision
    obtain ⟨r, hr⟩ := Option.ne_none_iff_exists'.mp hrevision
    exact revision_is_missed spec hr required
      (h _ _ (text "p") [text "a", text "b"] (by simp) (set_for_p_requests required (text_ne_nil spec)))
  · intro hrevision dc cfg pn files hfiles hrequests
    obtain ⟨best, hbest, hchosen⟩ := findBestProvider_spec dc hrequests (text_ne_nil spec) hfiles
    simp only [asked_iff_matches spec hrevision] at hchosen
    exact ⟨best, hbest, hchosen⟩

def any_one : Spec where
  epoch := none
  version := text "1."
  wildcard := true
  revision := none
  digits := by simp
  given := by decide
  separators := by decide
  plain := by decide
  line := by decide

def first_revision : Spec where
  epoch := none
  version := text "1.0"
  wildcard := false
  revision := some (text "r1")
  digits := by simp
  given := by decide
  separators := by decide
  plain := by decide
  line := by decide

theorem the_prefix_is_found :
    ∃ best, findBestProvider (two_revisions first_revision (text "r1") rfl) (set_for_p false any_one.text) (text "p")
      [text "a", text "b"] = some best ∧
        Chosen (two_revisions first_revision (text "r1") rfl) [text "a", text "b"] any_one.Matches false best :=
  (version_is_chosen_iff_no_revision any_one false).mpr rfl _ _ _ _ (by simp)
    (set_for_p_requests false (text_ne_nil any_one))

/-- The file of version 1.0 and revision r1 is there, and `1.0_r1` is required; but no file is chosen. -/
theorem the_required_revision_is_missed :
    Requests (set_for_p true (text "1.0_r1")) (text "p") true first_revision.text ∧
      first_revision.Matches ((two_revisions first_revision (text "r1") rfl).pkg_pepvpr (text "a")) ∧
      ¬∃ best, findBestProvider (two_revisions first_revision (text "r1") rfl) (set_for_p true (text "1.0_r1"))
        (text "p") [text "a", text "b"] = some best ∧
          Chosen (two_revisions first_revision (text "r1") rfl) [text "a", text "b"] first_revision.Matches true best := by
  refine ⟨set_for_p_requests true (text_ne_nil first_revision), ⟨by simp [first_revision], rfl, ?_⟩, ?_⟩
  · intro r hr
    exact Option.some.inj hr
  · exact revision_is_missed first_revision rfl true

end yocto.preferred_versions
