-- The names of recipe files and of tasks (cache.py and runqueue.py).
import Yocto.RunTaskEntries

open yocto.task_ids yocto.run_task_entries

namespace yocto.virtual_names

/-! ## The functions -/

/-- `s.split(':', 1)`, for a text with a colon. -/
def cut (s : Text) : Text × Text := (s.takeWhile fun c => decide (c ≠ ':'), (s.dropWhile fun c => decide (c ≠ ':')).drop 1)

/-- `n.startswith('mc:') and n.count(':') >= 2`. -/
abbrev HasMc (n : Text) : Prop := text "mc:" <+: n ∧ 2 ≤ n.count ':'

def virtualfn2realfn (virtualfn : Text) : Text × Text × Text :=
  let (mc, virtualfn) := if HasMc virtualfn then cut (cut virtualfn).2 else ([], virtualfn)
  if text "virtual:" <+: virtualfn then
    let elems := virtualfn.splitOn ':'
    (elems.getLastD [], [':'].intercalate (elems.drop 1).dropLast, mc)
  else (virtualfn, [], mc)

def realfn2virtual (realfn cls mc : Text) : Text :=
  let realfn := if cls ≠ [] then text "virtual:" ++ cls ++ ':' :: realfn else realfn
  if mc ≠ [] then text "mc:" ++ mc ++ ':' :: realfn else realfn

def variant2virtual (realfn variant : Text) : Text :=
  if variant = [] then realfn
  else if HasMc variant then
    let elems := variant.splitOn ':'
    if elems.getD 2 [] ≠ [] then
      text "mc:" ++ elems.getD 1 [] ++ text ":virtual:" ++ [':'].intercalate (elems.drop 2) ++ ':' :: realfn
    else text "mc:" ++ elems.getD 1 [] ++ ':' :: realfn
  else text "virtual:" ++ variant ++ ':' :: realfn

def mc_from_tid (tid : Text) : Text := if HasMc tid then (tid.splitOn ':').getD 1 [] else []

def split_mc (n : Text) : Text × Text := if HasMc n then cut (cut n).2 else ([], n)

def build_tid (mc fn taskname : Text) : Text :=
  if mc ≠ [] then text "mc:" ++ mc ++ ':' :: (fn ++ ':' :: taskname) else fn ++ ':' :: taskname

/-! ## The names -/

/-- A multiconfig, a variant, a real file name and a task name. Each may be empty, where it stands
for none; the variant may have parts with colons between them. -/
@[ext] structure TaskName where
  mc : Text
  cls : Text
  fn : Text
  task : Text
  mc_plain : ':' ∉ mc
  fn_plain : ':' ∉ fn
  task_plain : ':' ∉ task
  parts : ∀ part ∈ cls.splitOn ':', ¬text "mc" <+: part

def TaskName.vfn (n : TaskName) : Text := realfn2virtual n.fn n.cls []

def TaskName.tid (n : TaskName) : Text := build_tid n.mc n.vfn n.task

/-- The name of a variant in the datastores of a recipe: a multiconfig is named when there is one. -/
def variant_of (mc cls : Text) : Text := if mc ≠ [] then text "mc:" ++ mc ++ ':' :: cls else cls

/-! ## Taking names apart -/

theorem cut_append {a : Text} (h : ':' ∉ a) (b : Text) : cut (a ++ ':' :: b) = (a, b) := by
  have hall : ∀ c ∈ a, decide (c ≠ ':') = true := by
    intro c hc
    rw [decide_eq_true_iff]
    rintro rfl
    exact h hc
  unfold cut
  rw [List.takeWhile_append_of_pos hall, List.dropWhile_append_of_pos hall]
  simp

theorem text_mc (s : Text) : text "mc:" ++ s = text "mc" ++ ':' :: s := rfl

theorem hasMc_mc (mc s : Text) : HasMc (text "mc:" ++ mc ++ ':' :: s) := by
  refine ⟨⟨mc ++ ':' :: s, by simp⟩, ?_⟩
  have hmc : (text "mc:").count ':' = 1 := by decide
  simp only [List.count_append, List.count_cons_self, hmc]
  omega

theorem cut_mc {mc : Text} (h : ':' ∉ mc) (s : Text) :
    cut (cut (text "mc:" ++ mc ++ ':' :: s)).2 = (mc, s) := by
  rw [List.append_assoc, text_mc, cut_append (by decide), cut_append h]

theorem split_mc_mc {mc : Text} (h : ':' ∉ mc) (s : Text) : split_mc (text "mc:" ++ mc ++ ':' :: s) = (mc, s) := by
  rw [split_mc, if_pos (hasMc_mc mc s), cut_mc h]

variable (n : TaskName)

theorem splitOn_virtual : (text "virtual:" ++ n.cls ++ ':' :: n.fn).splitOn ':' =
    text "virtual" :: (n.cls.splitOn ':' ++ [n.fn]) := by
  have hform : text "virtual:" ++ n.cls ++ ':' :: n.fn = text "virtual" ++ ':' :: (n.cls ++ ':' :: n.fn) := by
    simp [text]
  rw [hform, List.splitOn_append_cons_self, List.splitOn_append_cons_self, List.splitOn_eq_singleton n.fn_plain, List.splitOn_eq_singleton (by decide)]
  rfl

theorem vfn_not_mc (rest : Text) (hrest : rest.count ':' ≤ 1) : ¬HasMc (n.vfn ++ rest) := by
  rintro ⟨hmc, hcount⟩
  unfold TaskName.vfn realfn2virtual at hmc hcount
  by_cases hcls : n.cls = []
  · simp [hcls, List.count_append, List.count_eq_zero_of_not_mem n.fn_plain] at hcount
    omega
  · simp [hcls, text] at hmc

theorem virtualfn2realfn_vfn : virtualfn2realfn n.vfn = (n.fn, n.cls, []) := by
  have hmc : ¬HasMc n.vfn := by simpa using vfn_not_mc n [] (by simp)
  unfold virtualfn2realfn
  rw [if_neg hmc]
  dsimp only
  by_cases hcls : n.cls = []
  · have hfn : n.vfn = n.fn := by simp [TaskName.vfn, realfn2virtual, hcls]
    have hvirtual : ¬text "virtual:" <+: n.fn := by
      intro h
      exact n.fn_plain (h.subset (by decide))
    rw [hfn, if_neg hvirtual, hcls]
  · have hvfn : n.vfn = text "virtual:" ++ n.cls ++ ':' :: n.fn := by simp [TaskName.vfn, realfn2virtual, hcls]
    rw [hvfn, if_pos ⟨n.cls ++ ':' :: n.fn, by simp⟩, splitOn_virtual]
    rw [← List.cons_append, List.getLastD_eq_getLast?, List.getLast?_concat]
    simp [List.intercalate_splitOn]

theorem realfn2virtual_mc (h : n.mc ≠ []) : realfn2virtual n.fn n.cls n.mc = text "mc:" ++ n.mc ++ ':' :: n.vfn := by
  simp [TaskName.vfn, realfn2virtual, h]

theorem realfn2virtual_no_mc (h : n.mc = []) : realfn2virtual n.fn n.cls n.mc = n.vfn := by
  rw [h]
  rfl

theorem virtualfn2realfn_realfn2virtual : virtualfn2realfn (realfn2virtual n.fn n.cls n.mc) = (n.fn, n.cls, n.mc) := by
  by_cases hmc : n.mc = []
  · rw [realfn2virtual_no_mc n hmc, virtualfn2realfn_vfn, hmc]
  · have hplain := virtualfn2realfn_vfn n
    have hnot : ¬HasMc n.vfn := by simpa using vfn_not_mc n [] (by simp)
    rw [realfn2virtual_mc n hmc]
    unfold virtualfn2realfn at hplain ⊢
    rw [if_neg hnot] at hplain
    rw [if_pos (hasMc_mc n.mc n.vfn), cut_mc n.mc_plain]
    dsimp only at hplain ⊢
    split at hplain
    · rename_i hvirtual
      rw [if_pos hvirtual]
      obtain ⟨hfn, hcls, -⟩ := by simpa only [Prod.mk.injEq] using hplain
      rw [hfn, hcls]
    · rename_i hvirtual
      rw [if_neg hvirtual]
      obtain ⟨hfn, hcls, -⟩ := by simpa only [Prod.mk.injEq] using hplain
      rw [hfn, hcls]

theorem cls_not_mc : ¬HasMc n.cls := by
  rintro ⟨⟨rest, hrest⟩, -⟩
  have hmem : text "mc" ∈ n.cls.splitOn ':' := by
    rw [← hrest, text_mc, List.splitOn_append_cons_self, List.splitOn_eq_singleton (by decide)]
    exact List.mem_cons_self
  exact n.parts _ hmem (List.prefix_refl _)

theorem variant2virtual_cls : variant2virtual n.fn n.cls = n.vfn := by
  unfold variant2virtual TaskName.vfn realfn2virtual
  rw [if_neg (cls_not_mc n)]
  by_cases hcls : n.cls = []
  · simp [hcls]
  · simp [hcls]

theorem first_part_ne_nil (hcls : n.cls ≠ []) (hfirst : n.cls.head? ≠ some ':') :
    ∃ part parts, n.cls.splitOn ':' = part :: parts ∧ part ≠ [] := by
  cases hc : n.cls with
  | nil => exact absurd hc hcls
  | cons c s =>
    have hne : (c == ':') = false := by
      rw [beq_eq_false_iff_ne]
      rintro rfl
      exact hfirst (by rw [hc]; rfl)
    obtain ⟨part, parts, hparts⟩ := List.exists_cons_of_ne_nil (List.splitOn_ne_nil ':' s)
    refine ⟨c :: part, parts, ?_, by simp⟩
    rw [List.splitOn_cons_eq_if_modifyHead, hne, hparts]
    rfl

theorem variant2virtual_mc (hfirst : n.cls.head? ≠ some ':') :
    variant2virtual n.fn (text "mc:" ++ n.mc ++ ':' :: n.cls) = text "mc:" ++ n.mc ++ ':' :: n.vfn := by
  have hsplit : (text "mc:" ++ n.mc ++ ':' :: n.cls).splitOn ':' = text "mc" :: n.mc :: n.cls.splitOn ':' := by
    rw [List.append_assoc, text_mc, List.splitOn_append_cons_self, List.splitOn_append_cons_self, List.splitOn_eq_singleton n.mc_plain,
      List.splitOn_eq_singleton (by decide)]
    rfl
  unfold variant2virtual
  rw [if_neg (by simp [text]), if_pos (hasMc_mc n.mc n.cls)]
  simp only [hsplit, List.getD_cons_succ, List.getD_cons_zero, List.drop_succ_cons, List.drop_zero,
    List.intercalate_splitOn]
  by_cases hcls : n.cls = []
  · simp [hcls, TaskName.vfn, realfn2virtual]
  · obtain ⟨part, parts, hparts, hpart⟩ := first_part_ne_nil n hcls hfirst
    simp [hparts, hpart, hcls, TaskName.vfn, realfn2virtual, text]

theorem variant2virtual_variant_of (hfirst : n.cls.head? ≠ some ':') :
    variant2virtual n.fn (variant_of n.mc n.cls) = realfn2virtual n.fn n.cls n.mc := by
  by_cases hmc : n.mc = []
  · rw [realfn2virtual_no_mc n hmc, ← variant2virtual_cls]
    simp [variant_of, hmc]
  · rw [realfn2virtual_mc n hmc, ← variant2virtual_mc n hfirst]
    simp [variant_of, hmc]

/-! ## Task ids -/

theorem tid_eq : n.tid = tid_of (realfn2virtual n.fn n.cls n.mc) n.task := by
  unfold TaskName.tid build_tid tid_of
  by_cases hmc : n.mc = []
  · rw [realfn2virtual_no_mc n hmc]
    simp [hmc]
  · rw [realfn2virtual_mc n hmc]
    simp [hmc]

theorem split_tid_mcfn_tid :
    split_tid_mcfn n.tid = some ⟨n.mc, n.vfn, n.task, realfn2virtual n.fn n.cls n.mc⟩ := by
  have hne := List.splitOn_ne_nil ':' n.vfn
  by_cases hmc : n.mc = []
  · have htid : n.tid = n.vfn ++ ':' :: n.task := by simp [TaskName.tid, build_tid, hmc]
    have hnot : ¬HasMc (n.vfn ++ ':' :: n.task) := by
      apply vfn_not_mc
      simp [List.count_eq_zero_of_not_mem n.task_plain]
    have hlen : 2 ≤ (n.vfn.splitOn ':' ++ [n.task]).length := by
      have hpos := List.length_pos_iff.mpr hne
      simp only [List.length_append, List.length_singleton]
      omega
    unfold split_tid_mcfn
    rw [htid, if_neg hnot, List.splitOn_append_cons_self, List.splitOn_eq_singleton n.task_plain, if_pos hlen, realfn2virtual_no_mc n hmc]
    simp [List.getLastD_eq_getLast?, List.intercalate_splitOn, hmc]
  · have htid : n.tid = text "mc:" ++ n.mc ++ ':' :: (n.vfn ++ ':' :: n.task) := by
      simp [TaskName.tid, build_tid, hmc]
    have hsplit : (text "mc:" ++ n.mc ++ ':' :: (n.vfn ++ ':' :: n.task)).splitOn ':' =
        text "mc" :: n.mc :: (n.vfn.splitOn ':' ++ [n.task]) := by
      rw [List.append_assoc, text_mc, List.splitOn_append_cons_self, List.splitOn_append_cons_self, List.splitOn_append_cons_self, List.splitOn_eq_singleton n.mc_plain,
        List.splitOn_eq_singleton n.task_plain, List.splitOn_eq_singleton (by decide)]
      rfl
    have hmc' : HasMc (text "mc:" ++ n.mc ++ ':' :: (n.vfn ++ ':' :: n.task)) := hasMc_mc _ _
    have hlast : (text "mc" :: n.mc :: (n.vfn.splitOn ':' ++ [n.task])).getLastD [] = n.task := by
      rw [List.getLastD_eq_getLast?, ← List.cons_append, ← List.cons_append, List.getLast?_concat]
      rfl
    unfold split_tid_mcfn
    rw [htid, hsplit, if_pos hmc', realfn2virtual_mc n hmc, hlast]
    simp [List.intercalate_splitOn]

theorem mc_from_tid_tid : mc_from_tid n.tid = n.mc := by
  have hsplit := split_tid_mcfn_tid n
  unfold mc_from_tid
  unfold split_tid_mcfn at hsplit
  dsimp only at hsplit
  split at hsplit
  · rename_i hmc
    rw [if_pos hmc]
    exact congrArg Names.mc (Option.some.inj hsplit)
  · rename_i hmc
    rw [if_neg hmc]
    split at hsplit
    · exact congrArg Names.mc (Option.some.inj hsplit)
    · cases hsplit

theorem split_mc_mcfn : split_mc (realfn2virtual n.fn n.cls n.mc) = (n.mc, n.vfn) := by
  by_cases hmc : n.mc = []
  · have hnot : ¬HasMc n.vfn := by simpa using vfn_not_mc n [] (by simp)
    rw [realfn2virtual_no_mc n hmc, split_mc, if_neg hnot, hmc]
  · rw [realfn2virtual_mc n hmc, split_mc_mc n.mc_plain]

theorem split_mc_tid : split_mc n.tid = (n.mc, n.vfn ++ ':' :: n.task) := by
  unfold TaskName.tid build_tid
  by_cases hmc : n.mc = []
  · have hnot : ¬HasMc (n.vfn ++ ':' :: n.task) := by
      apply vfn_not_mc
      simp [List.count_eq_zero_of_not_mem n.task_plain]
    rw [if_neg (by simp [hmc]), split_mc, if_neg hnot, hmc]
  · rw [if_pos hmc, split_mc_mc n.mc_plain]

/-- All functions take the names apart that they were built from, and a task id has only one such
way. -/
theorem names_are_taken_apart :
    virtualfn2realfn (realfn2virtual n.fn n.cls n.mc) = (n.fn, n.cls, n.mc) ∧
    variant2virtual n.fn n.cls = realfn2virtual n.fn n.cls [] ∧
    (n.cls.head? ≠ some ':' → variant2virtual n.fn (variant_of n.mc n.cls) = realfn2virtual n.fn n.cls n.mc) ∧
    split_tid_mcfn n.tid = some ⟨n.mc, n.vfn, n.task, realfn2virtual n.fn n.cls n.mc⟩ ∧
    fn_from_tid n.tid = realfn2virtual n.fn n.cls n.mc ∧
    taskname_from_tid n.tid = n.task ∧
    mc_from_tid n.tid = n.mc ∧
    split_mc (realfn2virtual n.fn n.cls n.mc) = (n.mc, n.vfn) ∧
    split_mc n.tid = (n.mc, n.vfn ++ ':' :: n.task) ∧
    ∀ n' : TaskName, n'.tid = n.tid → n' = n := by
  refine ⟨virtualfn2realfn_realfn2virtual n, variant2virtual_cls n, variant2virtual_variant_of n,
    split_tid_mcfn_tid n, ?_, ?_, mc_from_tid_tid n, split_mc_mcfn n, split_mc_tid n, fun n' h => ?_⟩
  · rw [tid_eq, fn_from_tid_of _ n.task_plain]
  · rw [tid_eq, taskname_from_tid_of _ n.task_plain]
  · have hsplit := split_tid_mcfn_tid n'
    rw [h, split_tid_mcfn_tid n] at hsplit
    obtain ⟨hmc, -, htask, hmcfn⟩ := by simpa only [Option.some.injEq, Names.mk.injEq] using hsplit
    have hnames := virtualfn2realfn_realfn2virtual n'
    rw [← hmcfn, virtualfn2realfn_realfn2virtual n] at hnames
    obtain ⟨hfn, hcls, -⟩ := by simpa only [Prod.mk.injEq] using hnames
    exact TaskName.ext hmc.symm hcls.symm hfn.symm htask.symm

def native : TaskName where
  mc := text "arm"
  cls := text "devupstream:target"
  fn := text "/a.bb"
  task := text "do_fetch"
  mc_plain := by decide
  fn_plain := by decide
  task_plain := by decide
  parts := by decide

theorem native_is_taken_apart :
    native.tid = text "mc:arm:virtual:devupstream:target:/a.bb:do_fetch" ∧
    variant2virtual native.fn (text "mc:arm:devupstream:target") = text "mc:arm:virtual:devupstream:target:/a.bb" :=
  ⟨by decide, (names_are_taken_apart native).2.2.1 (by decide)⟩

/-- A variant whose first part is empty. -/
theorem an_empty_part_is_lost :
    variant2virtual (text "/a.bb") (text "mc:arm::x") ≠ realfn2virtual (text "/a.bb") (text ":x") (text "arm") ∧
    variant2virtual (text "/a.bb") (text "mc::x") ≠ realfn2virtual (text "/a.bb") (text "x") [] := by
  decide

end yocto.virtual_names
