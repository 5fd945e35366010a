-- The cache of file checksums of `checksum.py`, and how the extras of the parsing processes
-- are merged into it.
import Yocto.TaskIds
import Yocto.OrderedDict

open yocto.task_ids yocto.ordered_dict

namespace yocto.checksum_cache

/-! ## The merge -/

/-- The mtime and the checksum of a file. -/
abbrev Entry := Int × Text

abbrev Files := OrderedDict Text Entry

/-- `cachedata`, and `cachedata_extras`. -/
abbrev CacheData := List Files

def create_cachedata : CacheData := [[]]

/-- `h == d` of a text and a dict. -/
def equals_dict (_ : Text) (_ : Files) : Bool := false

/-- `h in data`, which compares the text with every dict of the list. -/
def in_data (h : Text) (data : CacheData) : Bool := data.any (equals_dict h)

/-- One turn of `merge_data`. A look-up that fails raises, and so does an index. -/
def merge_turn (source dest : CacheData) (h : Text) : Option CacheData := do
  let theirs ← source.head?
  let entry ← theirs.get? h
  let files ← dest.head?
  if in_data h dest then
    let old ← files.get? h
    if entry.1 > old.1 then some (files.set h entry :: dest.tail) else some dest
  else some (files.set h entry :: dest.tail)

def merge_data (source dest : CacheData) : Option CacheData := do
  let theirs ← source.head?
  (theirs.map Prod.fst).foldlM (merge_turn source) dest

/-- The loop of `save_merge` over the extras that it finds, in the order of the directory. -/
def merge_all (extras : List CacheData) (data : CacheData) : Option CacheData :=
  extras.foldlM (fun data extra => merge_data extra data) data

/-! ## What is merged -/

def entries (caches : List Files) (f : Text) : List Entry := caches.filterMap fun d => d.get? f

/-- The entry that is left is one of the newest, if there is any. -/
def Newest (all : List Entry) : Option Entry → Prop
  | none => all = []
  | some e => e ∈ all ∧ ∀ e' ∈ all, e'.1 ≤ e.1

/-- In whatever order the extras are merged, each file is left with one of its newest entries, and
two orders leave it with entries of one mtime. -/
def KeepsNewest (dest : Files) (extras : List Files) : Prop :=
  (∀ order : List Files, order.Perm extras → ∃ merged : Files,
    merge_all (order.map fun x => [x]) [dest] = some [merged] ∧
      ∀ f, Newest (entries (dest :: extras) f) (merged.get? f)) ∧
  (∀ (order order' : List Files) (merged merged' : Files), order.Perm extras → order'.Perm extras →
    merge_all (order.map fun x => [x]) [dest] = some [merged] →
    merge_all (order'.map fun x => [x]) [dest] = some [merged'] →
    ∀ f, (merged.get? f).map Prod.fst = (merged'.get? f).map Prod.fst)

theorem in_data_eq (h : Text) (data : CacheData) : in_data h data = false := by
  unfold in_data
  simp [equals_dict]

theorem merge_turn_eq {source dest : Files} {h : Text} {e : Entry} (he : source.get? h = some e) :
    merge_turn [source] [dest] h = some [dest.set h e] := by
  simp [merge_turn, he, in_data_eq]

theorem merge_turns {source : Files} {keys : List Text} (hkeys : ∀ h ∈ keys, h ∈ source.map Prod.fst)
    (dest : Files) : ∃ merged, keys.foldlM (merge_turn [source]) [dest] = some [merged] ∧
      ∀ f, merged.get? f = if f ∈ keys then source.get? f else dest.get? f := by
  induction keys generalizing dest with
  | nil => exact ⟨dest, rfl, by simp⟩
  | cons h keys ih =>
    obtain ⟨e, he⟩ := OrderedDict.get?_of_key (hkeys h List.mem_cons_self)
    obtain ⟨merged, hrun, hget⟩ :=
      ih (fun k hk => hkeys k (List.mem_cons_of_mem _ hk)) (dest.set h e)
    refine ⟨merged, ?_, ?_⟩
    · rw [List.foldlM_cons, merge_turn_eq he]
      exact hrun
    · intro f
      rw [hget f]
      by_cases hf : f = h
      · subst hf
        simp [he, OrderedDict.get?_set_self]
      · simp [hf, OrderedDict.get?_set_other]

theorem merge_data_spec (source dest : Files) : ∃ merged, merge_data [source] [dest] = some [merged] ∧
    ∀ f, merged.get? f = (source.get? f).or (dest.get? f) := by
  have hkeys : ∀ h ∈ source.map Prod.fst, h ∈ source.map Prod.fst := fun _ hh => hh
  obtain ⟨merged, hrun, hget⟩ := merge_turns hkeys dest
  refine ⟨merged, hrun, ?_⟩
  intro f
  rw [hget f]
  split
  · rename_i hf
    obtain ⟨e, he⟩ := OrderedDict.get?_of_key hf
    simp [he]
  · rename_i hf
    have hnone : source.get? f = none := by
      cases hget : source.get? f with
      | none => rfl
      | some e =>
        exact absurd (List.mem_map.mpr ⟨_, OrderedDict.mem_of_get? hget, rfl⟩) hf
    simp [hnone]

theorem merge_all_spec (order : List Files) (dest : Files) :
    ∃ merged, merge_all (order.map fun x => [x]) [dest] = some [merged] ∧
      ∀ f, merged.get? f = (entries order f).getLast?.or (dest.get? f) := by
  induction order generalizing dest with
  | nil => exact ⟨dest, rfl, by simp [entries]⟩
  | cons source order ih =>
    obtain ⟨first, hfirst, hget⟩ := merge_data_spec source dest
    obtain ⟨merged, hrun, hlast⟩ := ih first
    refine ⟨merged, ?_, ?_⟩
    · unfold merge_all at hrun ⊢
      rw [List.map_cons, List.foldlM_cons, hfirst]
      exact hrun
    · intro f
      rw [hlast f, hget f]
      unfold entries
      rw [List.filterMap_cons]
      split
      · rename_i hnone
        simp [hnone]
      · rename_i e he
        rw [he, List.getLast?_cons]
        cases hl : (order.filterMap fun d => d.get? f).getLast? <;> simp

theorem Newest.mtime {all : List Entry} {r r' : Option Entry} (h : Newest all r)
    (h' : Newest all r') : r.map Prod.fst = r'.map Prod.fst := by
  cases r with
  | none =>
    obtain rfl : all = [] := h
    cases r' with
    | none => rfl
    | some e' => exact absurd h'.1 List.not_mem_nil
  | some e =>
    cases r' with
    | none =>
      obtain rfl : all = [] := h'
      exact absurd h.1 List.not_mem_nil
    | some e' =>
      rw [Option.map_some, Option.map_some, le_antisymm (h'.2 e h.1) (h.2 e' h'.1)]

theorem entries_cons_perm {dest : Files} {order extras : List Files} (h : order.Perm extras)
    (f : Text) : (entries (dest :: order) f).Perm (entries (dest :: extras) f) :=
  (h.cons dest).filterMap _

/-- The newest entries are kept in every order exactly if each extra has only such entries. -/
theorem newest_kept_iff (dest : Files) (extras : List Files) :
    KeepsNewest dest extras ↔
      ∀ extra ∈ extras, ∀ f e, extra.get? f = some e →
        ∀ e' ∈ entries (dest :: extras) f, e'.1 ≤ e.1 := by
  constructor
  · -- an extra that is merged as the last one is what is left
    intro h extra hextra f e he
    obtain ⟨before, after, rfl⟩ := List.append_of_mem hextra
    have hperm : (before ++ after ++ [extra]).Perm (before ++ extra :: after) := by
      rw [List.append_assoc]
      exact (List.perm_append_singleton extra after).append_left before
    obtain ⟨merged, hrun, hnew⟩ := h.1 _ hperm
    obtain ⟨merged', hrun', hget⟩ := merge_all_spec (before ++ after ++ [extra]) dest
    have hsame := hrun'.symm.trans hrun
    obtain rfl : merged' = merged := by simpa only [Option.some.injEq, List.cons.injEq, and_true] using hsame
    have hleft : merged'.get? f = some e := by
      rw [hget f]
      simp [entries, he]
    have hnewest := hnew f
    rw [hleft] at hnewest
    exact hnewest.2
  · intro h
    have hnewest : ∀ order : List Files, order.Perm extras → ∃ merged,
        merge_all (order.map fun x => [x]) [dest] = some [merged] ∧
          ∀ f, Newest (entries (dest :: extras) f) (merged.get? f) := by
      intro order hperm
      obtain ⟨merged, hrun, hget⟩ := merge_all_spec order dest
      refine ⟨merged, hrun, ?_⟩
      intro f
      rw [hget f]
      cases hl : (entries order f).getLast? with
      | some e =>
        have hmem := List.mem_of_getLast? hl
        obtain ⟨extra, hextra, he⟩ := List.mem_filterMap.mp hmem
        refine ⟨?_, h extra (hperm.mem_iff.mp hextra) f e he⟩
        exact (entries_cons_perm hperm f).mem_iff.mp (List.mem_filterMap.mpr
          ⟨extra, List.mem_cons_of_mem _ hextra, he⟩)
      | none =>
        -- no extra has the file
        have hnil : entries extras f = [] := by
          have hperm' : (entries order f).Perm (entries extras f) := hperm.filterMap _
          rw [List.getLast?_eq_none_iff.mp hl] at hperm'
          exact hperm'.symm.eq_nil
        have hall : entries (dest :: extras) f = (dest.get? f).toList := by
          unfold entries at hnil ⊢
          rw [List.filterMap_cons]
          cases dest.get? f <;> simp [hnil]
        rw [hall]
        cases dest.get? f <;> simp [Newest]
    refine ⟨hnewest, ?_⟩
    intro order order' merged merged' hperm hperm' hrun hrun' f
    obtain ⟨m, hm, hnew⟩ := hnewest order hperm
    obtain ⟨m', hm', hnew'⟩ := hnewest order' hperm'
    have hsame := hm.symm.trans hrun
    have hsame' := hm'.symm.trans hrun'
    simp only [Option.some.injEq, List.cons.injEq, and_true] at hsame hsame'
    subst hsame hsame'
    exact (hnew f).mtime (hnew' f)

/-- An older entry overwrites the newer one that is there. -/
theorem older_entry_overwrites :
    ¬KeepsNewest [(text "f", 2, text "new")] [[(text "f", 1, text "old")]] := by
  rintro ⟨h, -⟩
  obtain ⟨merged, hrun, hnew⟩ := h _ (List.Perm.refl _)
  obtain rfl := List.cons.inj (Option.some.inj hrun) |>.1
  have hleft := (hnew (text "f")).2 (2, text "new") (by decide)
  exact absurd hleft (by decide)

end yocto.checksum_cache
