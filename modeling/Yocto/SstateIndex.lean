-- The index of the shared state (sstate.bbclass): each installation appends a line that is not
-- there yet, and the handler of `ReachableStamps` takes the last line of each manifest for the
-- one that counts.
import Yocto.Runs
import Yocto.TextLines

open yocto.task_ids yocto.data_smart yocto.text_lines yocto.runs

namespace yocto.sstate_index

/-! ## The files -/

/-- An installation: what `STAMP`, `SSTATE_MANFILEPREFIX` and `WORKDIR` are then. -/
structure Entry where
  stamp : Text
  manifest : Text
  workdir : Text
  stamp_word : Word stamp
  manifest_word : Word manifest
  workdir_word : Word workdir
  manifest_plain : ∀ c ∈ manifest, c ∉ ['*', '?', '[']
  deriving DecidableEq

def Entry.line (e : Entry) : Text := e.stamp ++ ' ' :: (e.manifest ++ ' ' :: (e.workdir ++ ['\n']))

/-- The name of a task: without dot and slash, and not the one of the script beside a manifest. -/
structure Task where
  name : Text
  no_dot : '.' ∉ name
  no_slash : '/' ∉ name
  not_postrm : name ≠ text "postrm"
  deriving DecidableEq

/-- A manifest file: the one of a task under a manifest name. -/
structure Manifest where
  manifest : Text
  task : Task
  deriving DecidableEq

def Manifest.path (f : Manifest) : Text := f.manifest ++ '.' :: f.task.name

structure Shared where
  index : Text → Option Text
  machineindex : List Text
  preserve : Option Text
  manifests : List Manifest
  owner : Text → Option Entry

def Shared.empty : Shared := ⟨fun _ => none, [], none, [], fun _ => none⟩

/-! ## `sstate_install` -/

variable (manmach : Text → Text)

/-- The manifest and the index of `sstate_install`. `manmach` is the architecture in the name of
a manifest. -/
def sstate_install (e : Entry) (task : Task) (s : Shared) : Option Shared :=
  -- "Package already staged"
  if ⟨e.manifest, task⟩ ∈ s.manifests then none
  else
    let i := manmach e.manifest
    let content := (s.index i).getD []
    some { s with
      manifests := s.manifests ++ [⟨e.manifest, task⟩]
      index := Function.update s.index i
        (some (if e.line ∈ readlines content then content else content ++ e.line))
      owner := Function.update s.owner e.manifest (some e) }

/-! ## `sstate_eventhandler_reachablestamps` -/

/-- `glob.glob(manifest + ".*")` finds the file, and it is no script. -/
def globbed (manifest : Text) (f : Manifest) : Prop :=
  manifest ++ ['.'] <+: f.path ∧ '/' ∉ f.path.drop (manifest.length + 1) ∧ ¬text ".postrm" <:+ f.path

instance (manifest : Text) (f : Manifest) : Decidable (globbed manifest f) := inferInstanceAs (Decidable (_ ∧ _))

structure Scan where
  manseen : List Text
  ignore : List Text
  toremove : List Text

/-- One turn of the loop over the lines, from the last to the first. A line that is not made of
three words is fatal. -/
def scan_line (unreachable : Text → Bool) (acc : Scan) (l : Text) : Option Scan :=
  match words l with
  | [stamp, manifest, _] =>
    some (if manifest ∈ acc.manseen then { acc with ignore := acc.ignore ++ [l] }
      else { acc with
        manseen := acc.manseen ++ [manifest]
        toremove := if unreachable stamp then acc.toremove ++ [l] else acc.toremove })
  | _ => none

/-- One turn of the loop over the lines to remove. -/
def remove_line (acc : List Manifest × List Text) (r : Text) : List Manifest × List Text :=
  (acc.1.filter fun f => ¬globbed ((words r).getD 1 []) f, acc.2.erase r)

def names (manifest : Text) (l : Text) : Bool := (words l).getD 1 [] = manifest

/-- The turn of the handler for one architecture. -/
def prune_arch (unreachable : Text → Bool) (s : Shared) (a : Text) : Option Shared :=
  match s.index a with
  | none => some s
  | some content => do
    let lines := readlines content
    let scan ← lines.reverse.foldlM (scan_line unreachable) ⟨[], [], []⟩
    let (manifests, left) := scan.toremove.foldl remove_line (s.manifests, lines)
    some { s with
      manifests
      index := Function.update s.index a (some (left.filter (· ∉ scan.ignore)).flatten)
      owner := fun manifest => if scan.toremove.any (names manifest) then none else s.owner manifest }

/-- The lines of `preserve-stamps`. -/
def Shared.preservestamps (s : Shared) : List Text := (s.preserve.map readlines).getD []

/-- A stamp whose manifests are removed. -/
def Shared.unreachable (s : Shared) (stamps : List Text) (stamp : Text) : Bool :=
  stamp ∉ stamps ∧ stamp ∉ s.preservestamps ∧ stamp ∈ s.machineindex

def sstate_eventhandler_reachablestamps (stamps archs : List Text) (s : Shared) : Option Shared := do
  let s' ← archs.foldlM (prune_arch (s.unreachable stamps)) s
  some { s' with
    machineindex := s.machineindex ++ stamps
    preserve := if s.preservestamps = [] then s.preserve else none }

/-! ## Runs -/

/-- What happens in the area. Manifests are also cleaned by `sstate_clean`, and `devtool` writes
`preserve-stamps`. -/
inductive Action
  | install (e : Entry) (task : Task)
  | reachablestamps (stamps archs : List Text)
  | clean (f : Manifest)
  | preserve (content : Text)

def step (s : Shared) : Action → Option Shared
  | .install e task => sstate_install manmach e task s
  | .reachablestamps stamps archs => sstate_eventhandler_reachablestamps stamps archs s
  | .clean f => some { s with manifests := s.manifests.filter (· ≠ f) }
  | .preserve content => some { s with preserve := some content }

def last_line (s : Shared) (manifest : Text) : Option Text :=
  (readlines ((s.index (manmach manifest)).getD [])).reverse.find? (names manifest)

/-- The stamp is listed in `preserve-stamps`. -/
def Shared.preserved (s : Shared) (stamp : Text) : Prop := stamp ∈ s.preservestamps.map strip

/-- The last line for each manifest is the one of its latest installation. -/
def NamesOwner (s : Shared) : Prop := ∀ manifest, last_line manmach s manifest = (s.owner manifest).map Entry.line

/-- The handler cleans no manifest that was installed last with a stamp that is reachable or
preserved, and it cleans those whose stamp is neither and is in the machine index. -/
structure PrunesRightly (stamps archs : List Text) (s s' : Shared) : Prop where
  spares : ∀ f ∈ s.manifests, f ∉ s'.manifests → ∀ e, s.owner f.manifest = some e →
    e.stamp ∉ stamps ∧ ¬s.preserved e.stamp
  cleans : ∀ f ∈ s.manifests, ∀ e, s.owner f.manifest = some e → manmach f.manifest ∈ archs →
    e.stamp ∉ stamps → ¬s.preserved e.stamp → e.stamp ∈ s.machineindex → f ∉ s'.manifests

/-! ## The lines of entries -/

theorem line_words (e : Entry) : words e.line = [e.stamp, e.manifest, e.workdir] := by
  have hspace : isspace ' ' = true := by decide
  have hnewline : isspace '\n' = true := by decide
  unfold Entry.line
  rw [words_cons e.stamp_word hspace, words_cons e.manifest_word hspace, words_cons e.workdir_word hnewline,
    words_nil]

theorem line_inj {e e' : Entry} (h : e.line = e'.line) : e = e' := by
  have hwords := congrArg words h
  rw [line_words, line_words] at hwords
  obtain ⟨_, _, _, _, _, _, _⟩ := e
  obtain ⟨_, _, _, _, _, _, _⟩ := e'
  simp only [List.cons.injEq, and_true] at hwords
  obtain ⟨rfl, rfl, rfl⟩ := hwords
  rfl

theorem names_line (manifest : Text) (e : Entry) : names manifest e.line = decide (e.manifest = manifest) := by
  unfold names
  rw [line_words]
  rfl

theorem line_line (e : Entry) : Line e.line := by
  refine ⟨e.stamp ++ ' ' :: (e.manifest ++ ' ' :: e.workdir), by simp [Entry.line], ?_, ?_⟩
  · have hc : isspace '\n' = true := by decide
    simp [e.stamp_word.not_mem hc, e.manifest_word.not_mem hc, e.workdir_word.not_mem hc]
  · have hc : isspace '\r' = true := by decide
    simp [e.stamp_word.not_mem hc, e.manifest_word.not_mem hc, e.workdir_word.not_mem hc]

theorem readlines_entries (es : List Entry) : readlines (es.map Entry.line).flatten = es.map Entry.line := by
  apply readlines_flatten
  intro l hl
  obtain ⟨e, -, rfl⟩ := List.mem_map.mp hl
  exact line_line e

theorem mem_lines {e : Entry} {es : List Entry} : e.line ∈ es.map Entry.line ↔ e ∈ es := by
  constructor
  · intro h
    obtain ⟨e', he', heq⟩ := List.mem_map.mp h
    exact line_inj heq ▸ he'
  · exact List.mem_map_of_mem

def last_entry (es : List Entry) (manifest : Text) : Option Entry := es.reverse.find? fun e => e.manifest = manifest

theorem last_entry_spec {es : List Entry} {manifest : Text} {e : Entry} (h : last_entry es manifest = some e) :
    e ∈ es ∧ e.manifest = manifest := by
  refine ⟨List.mem_reverse.mp (List.mem_of_find?_eq_some h), ?_⟩
  simpa using List.find?_some h

theorem last_entry_append (es : List Entry) (e : Entry) (manifest : Text) :
    last_entry (es ++ [e]) manifest = if e.manifest = manifest then some e else last_entry es manifest := by
  unfold last_entry
  rw [List.reverse_append, List.reverse_singleton, List.singleton_append, List.find?_cons]
  by_cases h : e.manifest = manifest <;> simp [h]

theorem find_line (es : List Entry) (manifest : Text) :
    (es.map Entry.line).reverse.find? (names manifest) = (last_entry es manifest).map Entry.line := by
  have hnames : names manifest ∘ Entry.line = fun e : Entry => decide (e.manifest = manifest) :=
    funext (names_line manifest)
  unfold last_entry
  rw [← List.map_reverse, List.find?_map, hnames]

/-! ## The loop over the lines -/

/-- The line of an entry counts: no line that was seen before is for its manifest. -/
def Counts (seen : List Text) (rs : List Entry) (e : Entry) : Prop :=
  e.manifest ∉ seen ∧ (rs.find? fun r => r.manifest = e.manifest) = some e

theorem counts_head (seen : List Text) (rs : List Entry) (e : Entry) :
    Counts seen (e :: rs) e ↔ e.manifest ∉ seen := by
  simp [Counts]

theorem counts_tail {seen : List Text} {rs : List Entry} {r e : Entry} (hr : r ∉ rs) (he : e ∈ rs) :
    Counts seen (r :: rs) e ↔ Counts (if r.manifest ∈ seen then seen else seen ++ [r.manifest]) rs e := by
  have hne : r ≠ e := fun h => hr (h ▸ he)
  unfold Counts
  rw [List.find?_cons]
  by_cases hsame : r.manifest = e.manifest
  · by_cases hseen : r.manifest ∈ seen
    · simp [← hsame, hseen]
    · simp [hsame, hsame ▸ hseen, hne]
  · by_cases hseen : r.manifest ∈ seen
    · simp [hsame, hseen]
    · simp [hsame, hseen, Ne.symm hsame]

/-- The turn of the loop for the line of an entry. -/
def scan_entry (unreachable : Text → Bool) (acc : Scan) (e : Entry) : Scan :=
  if e.manifest ∈ acc.manseen then { acc with ignore := acc.ignore ++ [e.line] }
  else { acc with
    manseen := acc.manseen ++ [e.manifest]
    toremove := if unreachable e.stamp then acc.toremove ++ [e.line] else acc.toremove }

theorem scan_entries (unreachable : Text → Bool) (rs : List Entry) (acc : Scan) :
    (rs.map Entry.line).foldlM (scan_line unreachable) acc = some (rs.foldl (scan_entry unreachable) acc) := by
  induction rs generalizing acc with
  | nil => rfl
  | cons r rs ih =>
    have hturn : scan_line unreachable acc r.line = some (scan_entry unreachable acc r) := by
      unfold scan_line scan_entry
      rw [line_words]
    rw [List.map_cons, List.foldlM_cons, hturn, List.foldl_cons]
    exact ih _

theorem scan_entry_manseen (unreachable : Text → Bool) (acc : Scan) (r : Entry) :
    (scan_entry unreachable acc r).manseen =
      if r.manifest ∈ acc.manseen then acc.manseen else acc.manseen ++ [r.manifest] := by
  unfold scan_entry
  split <;> rfl

theorem scan_entry_toremove (unreachable : Text → Bool) (acc : Scan) (r : Entry) (l : Text) :
    l ∈ (scan_entry unreachable acc r).toremove ↔
      l ∈ acc.toremove ∨ (r.line = l ∧ r.manifest ∉ acc.manseen ∧ unreachable r.stamp = true) := by
  unfold scan_entry
  by_cases hseen : r.manifest ∈ acc.manseen
  · simp [hseen]
  · by_cases hreach : unreachable r.stamp = true
    · simp [hseen, hreach, eq_comm]
    · simp [hseen, hreach]

theorem scan_entry_ignore (unreachable : Text → Bool) (acc : Scan) (r : Entry) (l : Text) :
    l ∈ (scan_entry unreachable acc r).ignore ↔ l ∈ acc.ignore ∨ (r.line = l ∧ ¬r.manifest ∉ acc.manseen) := by
  unfold scan_entry
  by_cases hseen : r.manifest ∈ acc.manseen
  · simp [hseen, eq_comm]
  · simp [hseen]

theorem scan_spec (unreachable : Text → Bool) {rs : List Entry} (hrs : rs.Nodup) (acc : Scan) (l : Text) :
    (l ∈ (rs.foldl (scan_entry unreachable) acc).toremove ↔ l ∈ acc.toremove ∨
      ∃ e ∈ rs, e.line = l ∧ Counts acc.manseen rs e ∧ unreachable e.stamp = true) ∧
    (l ∈ (rs.foldl (scan_entry unreachable) acc).ignore ↔ l ∈ acc.ignore ∨
      ∃ e ∈ rs, e.line = l ∧ ¬Counts acc.manseen rs e) := by
  induction rs generalizing acc with
  | nil => simp
  | cons r rs ih =>
    obtain ⟨hr, hrs⟩ := List.nodup_cons.mp hrs
    have hcounts : ∀ e ∈ rs, Counts (scan_entry unreachable acc r).manseen rs e ↔ Counts acc.manseen (r :: rs) e := by
      intro e he
      rw [scan_entry_manseen, counts_tail hr he]
    obtain ⟨htoremove, hignore⟩ := ih hrs (scan_entry unreachable acc r)
    rw [List.foldl_cons, htoremove, hignore, scan_entry_toremove, scan_entry_ignore]
    constructor
    · rw [List.exists_mem_cons_iff, counts_head, or_assoc]
      refine or_congr_right (or_congr_right (exists_congr fun e => and_congr_right fun he => ?_))
      rw [hcounts e he]
    · rw [List.exists_mem_cons_iff, counts_head, or_assoc]
      refine or_congr_right (or_congr_right (exists_congr fun e => and_congr_right fun he => ?_))
      rw [hcounts e he]

theorem remove_lines (rs : List Text) (manifests : List Manifest) (lines : List Text) :
    rs.foldl remove_line (manifests, lines) =
      (manifests.filter fun f => rs.all fun r => ¬globbed ((words r).getD 1 []) f, lines.diff rs) := by
  induction rs generalizing manifests lines with
  | nil => simp
  | cons r rs ih =>
    rw [List.foldl_cons, remove_line, ih, List.filter_filter, List.diff_cons]
    simp only [List.all_cons, Bool.and_comm]

/-! ## One architecture -/

/-- The index of an architecture holds the lines of these entries. -/
structure Holds (s : Shared) (a : Text) (es : List Entry) : Prop where
  content : (s.index a).getD [] = (es.map Entry.line).flatten
  nodup : es.Nodup

def Removes (unreachable : Text → Bool) (es : List Entry) (manifest : Text) (e : Entry) : Prop :=
  last_entry es manifest = some e ∧ unreachable e.stamp = true

theorem counts_last {es : List Entry} {e : Entry} : Counts [] es.reverse e ↔ last_entry es e.manifest = some e := by
  simp [Counts, last_entry]

structure Pruned (unreachable : Text → Bool) (es : List Entry) (s : Shared) (a : Text) (s' : Shared) : Prop where
  index : Holds s' a (es.filter fun e => last_entry es e.manifest = some e ∧ ¬unreachable e.stamp)
  others : ∀ a' ≠ a, s'.index a' = s.index a'
  manifests : ∀ f, f ∈ s'.manifests ↔ f ∈ s.manifests ∧
    ∀ e, Removes unreachable es e.manifest e → ¬globbed e.manifest f
  gone : ∀ manifest e, Removes unreachable es manifest e → s'.owner manifest = none
  kept : ∀ manifest, (∀ e, ¬Removes unreachable es manifest e) → s'.owner manifest = s.owner manifest

theorem lines_of_holds {s : Shared} {a : Text} {es : List Entry} (h : Holds s a es) :
    readlines ((s.index a).getD []) = es.map Entry.line := by
  rw [h.content, readlines_entries]

theorem scan_lines (unreachable : Text → Bool) {es : List Entry} (hes : es.Nodup) :
    ∃ scan, (es.map Entry.line).reverse.foldlM (scan_line unreachable) ⟨[], [], []⟩ = some scan ∧
      (∀ l, l ∈ scan.toremove ↔ ∃ e, Removes unreachable es e.manifest e ∧ e.line = l) ∧
      ∀ e ∈ es, e.line ∈ scan.ignore ↔ last_entry es e.manifest ≠ some e := by
  have hrs : es.reverse.Nodup := List.nodup_reverse.mpr hes
  refine ⟨_, by rw [← List.map_reverse]; exact scan_entries _ _ _, fun l => ?_, fun e he => ?_⟩
  · rw [(scan_spec unreachable hrs _ l).1]
    simp only [List.not_mem_nil, false_or, List.mem_reverse, counts_last]
    constructor
    · rintro ⟨e, -, hl, hlast, hreach⟩
      exact ⟨e, ⟨hlast, hreach⟩, hl⟩
    · rintro ⟨e, ⟨hlast, hreach⟩, hl⟩
      exact ⟨e, (last_entry_spec hlast).1, hl, hlast, hreach⟩
  · rw [(scan_spec unreachable hrs _ e.line).2]
    simp only [List.not_mem_nil, false_or, List.mem_reverse, counts_last]
    constructor
    · rintro ⟨e', -, hline, hnot⟩
      exact line_inj hline ▸ hnot
    · exact fun hnot => ⟨e, he, rfl, hnot⟩

theorem prune_arch_spec {unreachable : Text → Bool} {s : Shared} {a : Text} {es : List Entry} (h : Holds s a es) :
    ∃ s', prune_arch unreachable s a = some s' ∧ Pruned unreachable es s a s' := by
  have hlines := lines_of_holds h
  unfold prune_arch
  cases hindex : s.index a with
  | none =>
    have hes : es = [] := by
      have hcontent := h.content
      rw [hindex] at hcontent
      cases es with
      | nil => rfl
      | cons e es =>
        have hlen := congrArg List.length hcontent
        simp [Entry.line] at hlen
    subst hes
    have hno : ∀ manifest e, ¬Removes unreachable [] manifest e := fun _ _ hr => by cases hr.1
    refine ⟨s, rfl, ⟨h.content, .nil⟩, fun _ _ => rfl, fun f => ?_, fun _ _ hr => absurd hr (hno _ _), fun _ _ => rfl⟩
    simp [hno]
  | some content =>
    rw [hindex, Option.getD_some] at hlines
    obtain ⟨scan, hscan, htoremove, hignore⟩ := scan_lines unreachable h.nodup
    have hnodup : (es.map Entry.line).Nodup := h.nodup.map fun _ _ => line_inj
    have hleft : ((es.map Entry.line).diff scan.toremove).filter (· ∉ scan.ignore) =
        (es.filter fun e => last_entry es e.manifest = some e ∧ ¬unreachable e.stamp).map Entry.line := by
      rw [hnodup.sdiff_eq_filter, List.filter_filter, List.filter_map]
      congr 1
      apply List.filter_congr
      intro e he
      have hremoved : e.line ∈ scan.toremove ↔ Removes unreachable es e.manifest e := by
        rw [htoremove]
        constructor
        · rintro ⟨e', hr, hline⟩
          exact line_inj hline ▸ hr
        · exact fun hr => ⟨e, hr, rfl⟩
      have hignored := hignore e he
      by_cases hlast : last_entry es e.manifest = some e
      · simp [hremoved, hignored, hlast, Removes]
      · simp [hignored, hlast]
    have hany : ∀ manifest, scan.toremove.any (names manifest) = true ↔ ∃ e, Removes unreachable es manifest e := by
      intro manifest
      rw [List.any_eq_true]
      constructor
      · rintro ⟨l, hl, hname⟩
        obtain ⟨e, hr, rfl⟩ := (htoremove l).mp hl
        rw [names_line, decide_eq_true_eq] at hname
        exact ⟨e, hname ▸ hr⟩
      · rintro ⟨e, hr⟩
        have hname := (last_entry_spec hr.1).2
        exact ⟨e.line, (htoremove _).mpr ⟨e, hname.symm ▸ hr, rfl⟩, by rw [names_line, hname]; simp⟩
    dsimp only
    rw [hlines, hscan]
    simp only [Option.bind_eq_bind, Option.bind_some, remove_lines]
    refine ⟨_, rfl, ⟨?_, h.nodup.filter _⟩, ?_, ?_, ?_, ?_⟩
    · dsimp only
      rw [Function.update_self, Option.getD_some, hleft]
    · intro a' ha'
      exact Function.update_of_ne ha' _ _
    · intro f
      dsimp only
      rw [List.mem_filter, List.all_eq_true]
      refine and_congr_right fun _ => ?_
      constructor
      · intro hall e hr
        have hnot := hall e.line ((htoremove _).mpr ⟨e, hr, rfl⟩)
        rw [line_words] at hnot
        simpa using hnot
      · intro hall l hl
        obtain ⟨e, hr, rfl⟩ := (htoremove l).mp hl
        rw [line_words]
        simpa using hall e hr
    · intro manifest e hr
      exact if_pos ((hany manifest).mpr ⟨e, hr⟩)
    · intro manifest hno
      exact if_neg fun hin => by
        obtain ⟨e, hr⟩ := (hany manifest).mp hin
        exact hno e hr

/-! ## What each step keeps -/

/-- The indexes hold lines of entries, each in the index of its architecture, and the last entry
of each manifest is its owner. -/
structure Good (s : Shared) (a : Text) (es : List Entry) : Prop extends Holds s a es where
  archs : ∀ e ∈ es, manmach e.manifest = a
  owners : ∀ manifest, manmach manifest = a → last_entry es manifest = s.owner manifest

def Sound (s : Shared) : Prop := ∀ a, ∃ es, Good manmach s a es

variable {manmach} {s s' : Shared}

theorem Sound.namesOwner (h : Sound manmach s) : NamesOwner manmach s := by
  intro manifest
  obtain ⟨es, hes⟩ := h (manmach manifest)
  unfold last_line
  rw [lines_of_holds hes.toHolds, find_line, hes.owners manifest rfl]

theorem last_entry_kept {unreachable : Text → Bool} {es : List Entry} (manifest : Text) :
    last_entry (es.filter fun e => last_entry es e.manifest = some e ∧ ¬unreachable e.stamp) manifest =
      (last_entry es manifest).filter fun e => ¬unreachable e.stamp := by
  have hmem : ∀ e, e ∈ es.filter (fun e => last_entry es e.manifest = some e ∧ ¬unreachable e.stamp) →
      last_entry es e.manifest = some e ∧ ¬unreachable e.stamp = true := by
    intro e he
    exact of_decide_eq_true (List.mem_filter.mp he).2
  cases hkept : last_entry (es.filter fun e => last_entry es e.manifest = some e ∧ ¬unreachable e.stamp) manifest with
  | some e =>
    obtain ⟨he, hmanifest⟩ := last_entry_spec hkept
    obtain ⟨hlast, hreach⟩ := hmem e he
    rw [← hmanifest, hlast, Option.filter_some, if_pos (decide_eq_true hreach)]
  | none =>
    cases hlast : last_entry es manifest with
    | none => rfl
    | some e =>
      obtain ⟨he, hmanifest⟩ := last_entry_spec hlast
      rw [Option.filter_some]
      split
      · rename_i hreach
        have hin : e ∈ (es.filter fun e => last_entry es e.manifest = some e ∧ ¬unreachable e.stamp).reverse := by
          rw [List.mem_reverse]
          exact List.mem_filter.mpr ⟨he, decide_eq_true ⟨hmanifest.symm ▸ hlast, of_decide_eq_true hreach⟩⟩
        have hnone := List.find?_eq_none.mp hkept e hin
        simp [hmanifest] at hnone
      · rfl

theorem Sound.pruned (h : Sound manmach s) {unreachable : Text → Bool} {a : Text} {es : List Entry}
    (hes : Good manmach s a es) (hp : Pruned unreachable es s a s') : Sound manmach s' := by
  have howner : ∀ manifest, manmach manifest = a →
      s'.owner manifest = (s.owner manifest).filter fun e => ¬unreachable e.stamp := by
    intro manifest hmanifest
    rw [← hes.owners manifest hmanifest]
    cases hlast : last_entry es manifest with
    | none =>
      have hno : ∀ e, ¬Removes unreachable es manifest e := by
        rintro e ⟨hlast', -⟩
        rw [hlast] at hlast'
        cases hlast'
      rw [hp.kept manifest hno, ← hes.owners manifest hmanifest, hlast]
      rfl
    | some e =>
      rw [Option.filter_some]
      split
      · rename_i hreach
        rw [hp.kept manifest, ← hes.owners manifest hmanifest, hlast]
        rintro e' ⟨hlast', hreach'⟩
        obtain rfl := Option.some.inj (hlast.symm.trans hlast')
        exact of_decide_eq_true hreach hreach'
      · rename_i hreach
        exact hp.gone manifest e ⟨hlast, by simpa using hreach⟩
  intro a'
  by_cases ha' : a' = a
  · subst ha'
    refine ⟨_, hp.index, fun e he => hes.archs e (List.mem_filter.mp he).1, fun manifest hmanifest => ?_⟩
    rw [last_entry_kept, hes.owners manifest hmanifest, howner manifest hmanifest]
  · obtain ⟨es', hes'⟩ := h a'
    refine ⟨es', ⟨?_, hes'.nodup⟩, hes'.archs, fun manifest hmanifest => ?_⟩
    · rw [hp.others a' ha']
      exact hes'.content
    · rw [hes'.owners manifest hmanifest]
      refine (hp.kept manifest ?_).symm
      rintro e ⟨hlast, -⟩
      obtain ⟨he, rfl⟩ := last_entry_spec hlast
      exact ha' (hmanifest.symm.trans (hes.archs e he))

theorem globbed_self (f : Manifest) : globbed f.manifest f := by
  obtain ⟨manifest, name, no_dot, no_slash, not_postrm⟩ := f
  unfold globbed Manifest.path
  dsimp only
  refine ⟨⟨name, by simp⟩, by simpa using no_slash, ?_⟩
  rintro ⟨t, ht⟩
  have hrev := congrArg (fun l => l.reverse.takeWhile (· ≠ '.')) ht
  have hname : ∀ c ∈ name.reverse, decide (c ≠ '.') = true := by
    intro c hc
    rw [decide_eq_true_eq]
    rintro rfl
    exact no_dot (List.mem_reverse.mp hc)
  simp only [List.reverse_append, List.reverse_cons, List.append_assoc, List.singleton_append] at hrev
  rw [List.takeWhile_append_of_pos hname, List.takeWhile_cons_of_neg (by simp), List.append_nil] at hrev
  have hpostrm : ((text ".postrm").reverse ++ t.reverse).takeWhile (· ≠ '.') = (text "postrm").reverse := by
    simp [text]
  rw [hpostrm] at hrev
  exact not_postrm (List.reverse_injective hrev).symm

variable (manmach) in
structure Swept (unreachable : Text → Bool) (archs : List Text) (s s' : Shared) : Prop where
  sound : Sound manmach s'
  owners : ∀ manifest e, s'.owner manifest = some e → s.owner manifest = some e
  fewer : ∀ f ∈ s'.manifests, f ∈ s.manifests
  cleaned : ∀ f ∈ s.manifests, f ∉ s'.manifests → ∃ manifest e, s.owner manifest = some e ∧
    manmach manifest ∈ archs ∧ unreachable e.stamp = true ∧ globbed manifest f
  due : ∀ f ∈ s.manifests, ∀ e, s.owner f.manifest = some e → manmach f.manifest ∈ archs →
    unreachable e.stamp = true → f ∉ s'.manifests

theorem Sound.swept (h : Sound manmach s) (unreachable : Text → Bool) (archs : List Text) :
    ∃ s', archs.foldlM (prune_arch unreachable) s = some s' ∧ Swept manmach unreachable archs s s' := by
  induction archs generalizing s with
  | nil => exact ⟨s, rfl, h, fun _ _ he => he, fun _ hf => hf, fun f hf hnot => absurd hf hnot, by simp⟩
  | cons a archs ih =>
    obtain ⟨es, hes⟩ := h a
    obtain ⟨s₁, hs₁, hp⟩ : ∃ s₁, prune_arch unreachable s a = some s₁ ∧ Pruned unreachable es s a s₁ :=
      prune_arch_spec hes.toHolds
    obtain ⟨s', hs', hswept⟩ := ih (h.pruned hes hp)
    have howners : ∀ manifest e, s₁.owner manifest = some e → s.owner manifest = some e := by
      intro manifest e he
      by_cases hr : ∃ e', Removes unreachable es manifest e'
      · obtain ⟨e', hr⟩ := hr
        rw [hp.gone manifest e' hr] at he
        cases he
      · rwa [← hp.kept manifest fun e' hr' => hr ⟨e', hr'⟩]
    refine ⟨s', by rw [List.foldlM_cons, hs₁]; exact hs', hswept.sound, ?_, ?_, ?_, ?_⟩
    · exact fun manifest e he => howners manifest e (hswept.owners manifest e he)
    · exact fun f hf => ((hp.manifests f).mp (hswept.fewer f hf)).1
    · intro f hf hnot
      by_cases hf₁ : f ∈ s₁.manifests
      · obtain ⟨manifest, e, he, harch, hreach, hglob⟩ := hswept.cleaned f hf₁ hnot
        exact ⟨manifest, e, howners manifest e he, List.mem_cons_of_mem _ harch, hreach, hglob⟩
      · rw [hp.manifests, not_and] at hf₁
        obtain ⟨e, he⟩ := not_forall.mp (hf₁ hf)
        rw [Classical.not_imp, not_not] at he
        obtain ⟨hr, hglob⟩ := he
        have harch : manmach e.manifest = a := hes.archs e (last_entry_spec hr.1).1
        refine ⟨e.manifest, e, ?_, ?_, hr.2, hglob⟩
        · rw [← hes.owners e.manifest harch]
          exact hr.1
        · rw [harch]
          exact List.mem_cons_self
    · intro f hf e he harch hreach hf'
      have hf₁ := hswept.fewer f hf'
      by_cases ha : manmach f.manifest = a
      · have hlast := (hes.owners f.manifest ha).trans he
        have hmanifest := (last_entry_spec hlast).2
        refine ((hp.manifests f).mp hf₁).2 e ⟨hmanifest.symm ▸ hlast, hreach⟩ ?_
        rw [hmanifest]
        exact globbed_self f
      · have he₁ : s₁.owner f.manifest = some e := by
          rw [hp.kept f.manifest ?_]
          · exact he
          · rintro e' ⟨hlast, -⟩
            obtain ⟨he', hmanifest⟩ := last_entry_spec hlast
            exact ha (hmanifest ▸ hes.archs e' he')
        exact hswept.due f hf₁ e he₁ ((List.mem_cons.mp harch).resolve_left ha) hreach hf'

/-! ## Runs that keep the owners -/

variable (manmach) in
/-- An installation writes a new line, or its line is the last one for its manifest. -/
def KeepsOwners (s : Shared) : Action → Prop
  | .install e _ =>
    e.line ∈ readlines ((s.index (manmach e.manifest)).getD []) → last_line manmach s e.manifest = some e.line
  | .reachablestamps stamps archs =>
    (∀ manifest e, s.owner manifest = some e → manmach manifest ∈ archs → e.stamp ∉ stamps →
      e.stamp ∈ s.machineindex → s.preserved e.stamp → e.stamp ∈ s.preservestamps) ∧
    ∀ manifest e, s.owner manifest = some e → manmach manifest ∈ archs → s.unreachable stamps e.stamp = true →
      ∀ f ∈ s.manifests, f.manifest ≠ manifest → globbed manifest f →
        ∀ e', s.owner f.manifest = some e' → e'.stamp ∉ stamps ∧ ¬s.preserved e'.stamp
  | .clean _ | .preserve _ => True

theorem Sound.congr (h : Sound manmach s) (hindex : s'.index = s.index) (howner : s'.owner = s.owner) :
    Sound manmach s' := by
  intro a
  obtain ⟨es, hes⟩ := h a
  exact ⟨es, ⟨⟨by rw [hindex]; exact hes.content, hes.nodup⟩, hes.archs, by rw [howner]; exact hes.owners⟩⟩

theorem Sound.install (h : Sound manmach s) {e : Entry} {task : Task} (hok : KeepsOwners manmach s (.install e task))
    (hs : sstate_install manmach e task s = some s') : Sound manmach s' := by
  unfold sstate_install at hs
  split at hs
  · cases hs
  · obtain rfl := Option.some.inj hs
    intro a
    obtain ⟨es, hes⟩ := h a
    by_cases ha : a = manmach e.manifest
    · have hlines := lines_of_holds hes.toHolds
      rw [ha] at hlines
      have hold : e.line ∈ readlines ((s.index (manmach e.manifest)).getD []) →
          last_line manmach s e.manifest = some e.line := hok
      unfold last_line at hold
      rw [hlines, mem_lines, find_line] at hold
      have hcontent := hes.content
      rw [ha] at hcontent
      by_cases hin : e ∈ es
      · -- the line is there, as the last one
        have hlast : last_entry es e.manifest = some e := by
          obtain ⟨e', he', hline⟩ := Option.map_eq_some_iff.mp (hold hin)
          exact line_inj hline ▸ he'
        refine ⟨es, ⟨?_, hes.nodup⟩, hes.archs, fun manifest hmanifest => ?_⟩
        · dsimp only
          rw [ha, Function.update_self, if_pos (by rw [hlines]; exact mem_lines.mpr hin)]
          exact hcontent
        · dsimp only
          rw [Function.update_apply]
          split
          · rename_i heq
            rw [heq, hlast]
          · exact hes.owners manifest hmanifest
      · refine ⟨es ++ [e], ⟨?_, ?_⟩, ?_, fun manifest hmanifest => ?_⟩
        · dsimp only
          rw [ha, Function.update_self, if_neg (by rw [hlines]; exact fun hmem => hin (mem_lines.mp hmem)),
            Option.getD_some, hcontent]
          simp
        · rw [List.nodup_append]
          refine ⟨hes.nodup, List.nodup_singleton e, fun x hx y hy heq => hin ?_⟩
          rw [← List.mem_singleton.mp hy, ← heq]
          exact hx
        · intro x hx
          rcases List.mem_append.mp hx with hx | hx
          · exact hes.archs x hx
          · rw [List.mem_singleton.mp hx, ha]
        · dsimp only
          rw [last_entry_append, Function.update_apply]
          by_cases heq : e.manifest = manifest
          · rw [if_pos heq, if_pos heq.symm]
          · rw [if_neg heq, if_neg (Ne.symm heq)]
            exact hes.owners manifest hmanifest
    · refine ⟨es, ⟨?_, hes.nodup⟩, hes.archs, fun manifest hmanifest => ?_⟩
      · dsimp only
        rw [Function.update_of_ne ha]
        exact hes.content
      · dsimp only
        rw [Function.update_of_ne (by rintro rfl; exact ha hmanifest.symm)]
        exact hes.owners manifest hmanifest

theorem Sound.reachablestamps (h : Sound manmach s) {stamps archs : List Text}
    (hs : sstate_eventhandler_reachablestamps stamps archs s = some s') :
    Sound manmach s' ∧ (KeepsOwners manmach s (.reachablestamps stamps archs) →
      PrunesRightly manmach stamps archs s s') := by
  obtain ⟨s₁, hs₁, hswept⟩ := h.swept (s.unreachable stamps) archs
  unfold sstate_eventhandler_reachablestamps at hs
  rw [hs₁] at hs
  obtain rfl := Option.some.inj hs
  refine ⟨hswept.sound.congr rfl rfl, fun hok => ⟨fun f hf hnot e he => ?_, fun f hf e he harch hstamp hkeep hindex => ?_⟩⟩
  · obtain ⟨manifest, e', he', harch, hreach, hglob⟩ := hswept.cleaned f hf hnot
    by_cases hsame : f.manifest = manifest
    · obtain rfl := Option.some.inj (he.symm.trans (hsame ▸ he'))
      have hwanted := hreach
      unfold Shared.unreachable at hwanted
      simp only [decide_eq_true_eq] at hwanted
      exact ⟨hwanted.1, fun hkeep => hwanted.2.1 (hok.1 manifest e he' harch hwanted.1 hwanted.2.2 hkeep)⟩
    · exact hok.2 manifest e' he' harch hreach f hf hsame hglob e he
  · refine hswept.due f hf e he harch ?_
    unfold Shared.unreachable
    simp only [decide_eq_true_eq]
    refine ⟨hstamp, fun hraw => hkeep ?_, hindex⟩
    exact List.mem_map.mpr ⟨e.stamp, hraw, strip_eq_self e.stamp_word.no_space⟩

theorem Sound.step {a : Action} (h : Sound manmach s) (hok : KeepsOwners manmach s a)
    (hs : step manmach s a = some s') : Sound manmach s' := by
  cases a with
  | install e task => exact h.install hok hs
  | reachablestamps stamps archs => exact (h.reachablestamps hs).1
  | clean f =>
    obtain rfl := Option.some.inj hs
    exact h.congr rfl rfl
  | preserve content =>
    obtain rfl := Option.some.inj hs
    exact h.congr rfl rfl

/-- In a run in which no installation comes back to a line that is not the last one for its
manifest, the last lines name the owners, and the handler prunes rightly. -/
theorem last_lines_name_the_owners (manmach : Text → Text) (s : Shared)
    (h : Reaches (step manmach) (KeepsOwners manmach) Shared.empty s) :
    NamesOwner manmach s ∧ ∀ stamps archs s', KeepsOwners manmach s (.reachablestamps stamps archs) →
      step manmach s (.reachablestamps stamps archs) = some s' → PrunesRightly manmach stamps archs s s' := by
  have hsound : Sound manmach s := by
    apply h.invariant (I := Sound manmach)
    · exact fun a => ⟨[], ⟨rfl, .nil⟩, by simp, fun _ _ => rfl⟩
    · exact fun _ _ _ hs hok hstep => hs.step hok hstep
  exact ⟨hsound.namesOwner, fun stamps archs s' hok hs => (hsound.reachablestamps hs).2 hok⟩

/-- The installation of the manifest `m` with a stamp. -/
def entry (stamp : Char) (h : isspace stamp = false) : Entry where
  stamp := [stamp]
  manifest := text "m"
  workdir := text "w"
  stamp_word := ⟨by simp, by simpa using h⟩
  manifest_word := .of_all (by decide) (by decide)
  workdir_word := .of_all (by decide) (by decide)
  manifest_plain := by simp [text]

def first : Entry := entry '1' (by decide)

def second : Entry := entry '2' (by decide)

def task : Task := ⟨text "t", by decide, by decide, by decide⟩

def arch : Text → Text := fun _ => text "a"

/-- Both stamps were reachable, and the manifest was installed with the first one. -/
def installed : Shared :=
  (runAll (step arch) Shared.empty
    [.reachablestamps [first.stamp, second.stamp] [arch []], .install first task]).get (by decide)

theorem an_installation_is_named :
    last_line arch installed (text "m") = some first.line ∧
    ∀ s', step arch installed (.reachablestamps [second.stamp] [arch []]) = some s' →
      PrunesRightly arch [second.stamp] [arch []] installed s' := by
  have howner : installed.owner = Function.update (fun _ => none) (text "m") (some first) := rfl
  have hreaches : Reaches (step arch) (KeepsOwners arch) Shared.empty installed := by
    refine .step (.step .start (a := .reachablestamps [first.stamp, second.stamp] [arch []]) ?_ rfl)
      (a := .install first task) ?_ rfl
    · constructor
      · intro _ _ h
        cases h
      · intro _ _ h
        cases h
    · exact fun h => absurd h (by decide)
  obtain ⟨hnames, hprunes⟩ := last_lines_name_the_owners arch installed hreaches
  refine ⟨?_, fun s' => hprunes _ _ s' ⟨?_, ?_⟩⟩
  · rw [hnames, howner]
    rfl
  · intro _ _ _ _ _ _ hkeep
    cases hkeep
  · intro manifest e he _ _ f hf hne
    have hm : manifest = text "m" := by
      by_contra hother
      rw [howner, Function.update_of_ne hother] at he
      cases he
    have hf : f ∈ [(⟨text "m", task⟩ : Manifest)] := hf
    rw [List.mem_singleton.mp hf, hm] at hne
    exact absurd rfl hne

/-- The first stamp comes back after the second one. -/
def returned : Shared :=
  (runAll (step arch) installed
    [.clean ⟨text "m", task⟩, .install second task, .clean ⟨text "m", task⟩, .install first task]).get (by decide)

def cleaned : Shared := (step arch returned (.reachablestamps [first.stamp] [arch []])).get (by decide)

/-- The first stamp comes back, and the last line still names the second one. When only the first
is reachable, the manifest that was installed with it is cleaned. -/
theorem a_stamp_that_comes_back_is_not_the_last :
    Reaches (step arch) anyStep Shared.empty returned ∧ ¬NamesOwner arch returned ∧
      step arch returned (.reachablestamps [first.stamp] [arch []]) = some cleaned ∧
      ¬PrunesRightly arch [first.stamp] [arch []] returned cleaned := by
  refine ⟨Reaches.trans (.of_isSome (by decide)) (.of_isSome (by decide)), fun h => ?_, (Option.some_get _).symm,
    fun h => ?_⟩
  · exact absurd (h (text "m")) (by decide)
  · exact absurd (h.spares ⟨text "m", task⟩ (by decide) (by decide) first (by decide)).1 (by decide)

end yocto.sstate_index
