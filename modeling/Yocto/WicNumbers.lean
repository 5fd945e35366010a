-- The number of a partition, twice: `realnum` is predicted from the place of the partition in
-- the list and goes into /etc/fstab, `num` is what the table gives it in the end.
import Yocto.WicLayout

open yocto.task_ids
open yocto.raising
open yocto.wic_layout

namespace yocto.wic_numbers

/-! ## What the numbers are written into -/

def shown : Option Text → Text
  | none => text "None"
  | some value => value

/-- The partitions of an mmc device are named mmcblk0p1, mmcblk0p2. -/
def device (disk : Text) (num : Nat) : Text :=
  text "/dev/" ++ disk ++ (if (text "mmcblk").isPrefixOf disk then text "p" else []) ++ text (toString num)

def device_name (part : Partition) : Text :=
  if part.use_uuid then
    if truthy part.fsuuid then
      let fsuuid := part.fsuuid.getD []
      -- the UUID of a FAT is different from others
      if fsuuid.length = 10 then text "UUID=" ++ (fsuuid.take 6).drop 2 ++ '-' :: fsuuid.drop 6
      else text "UUID=" ++ fsuuid
    else text "PARTUUID=" ++ shown part.uuid
  else if part.use_label then text "LABEL=" ++ shown part.label
  else device part.disk part.realnum

/-- What a setting is, or a default where it is left out or empty. -/
def setting (value : Option Text) (default : String) : Text :=
  if truthy value then value.getD [] else text default

/-- The line of a partition in fstab, if it gets one. -/
def fstab_line (part : Partition) : Option Text :=
  match part.mountpoint with
  | none => none
  | some mountpoint =>
    if part.realnum = 0 ∨ mountpoint = [] ∨ mountpoint = text "/" ∨
        ¬(mountpoint.head? = some '/' ∨ mountpoint = text "swap") then none
    else some (['\t'].intercalate [device_name part, mountpoint, part.fstype,
      setting part.fsopts "defaults", text "0", setting part.fspassno "0"] ++ ['\n'])

/-- `update_fstab`: the lines of the file afterwards. -/
def update_fstab (fstab_lines : List Text) (parts : List Partition) : List Text :=
  fstab_lines ++ parts.filterMap fstab_line

/-- `rootdev`: the device of the first partition that is mounted on the root. -/
def rootdev (fmt : Ptable) (parts : List Partition) : Option Text :=
  (parts.find? fun part => part.mountpoint = some (text "/")).map fun part =>
    if truthy part.uuid then text "PARTUUID=" ++ shown part.uuid
    else if truthy part.label ∧ fmt ≠ .msdos then text "PARTLABEL=" ++ shown part.label
    else device part.disk part.realnum

/-! ## The prediction -/

/-- The number of a partition of the table with `before` others before it. -/
def predicted (fmt : Ptable) (num_real before : Nat) : Nat :=
  if fmt = .msdos ∧ before + 1 > 3 ∧ num_real > 4 then before + 2 else before + 1

/-- `realnum` is what is predicted, from a partition on that has `before` others before it. -/
def Numbered (fmt : Ptable) (num_real : Nat) : Nat → List Partition → Prop
  | _, [] => True
  | before, part :: parts =>
    if part.no_table then part.realnum = 0 ∧ Numbered fmt num_real before parts
    else part.realnum = predicted fmt num_real before ∧ Numbered fmt num_real (before + 1) parts

theorem predict_numbered (fmt : Ptable) (num_real before : Nat) (parts : List Partition) :
    Numbered fmt num_real before (predict fmt num_real before parts) := by
  induction parts generalizing before with
  | nil => trivial
  | cons part parts ih =>
    unfold predict
    split_ifs with hno hlate
    · simpa [Numbered, hno] using ih before
    · simp only [Numbered, hno]
      exact ⟨by rw [predicted, if_pos hlate], ih (before + 1)⟩
    · simp only [Numbered, hno]
      exact ⟨by rw [predicted, if_neg hlate], ih (before + 1)⟩

/-- What a partition of the image has in common with the partition it was made from. -/
def Same (part part' : Partition) : Prop := part'.no_table = part.no_table ∧ part'.type = part.type

theorem uuids_keep (fmt : Ptable) (identifier : Nat) (uuid4 fs_uuid4 : Text) (part : Partition) :
    let part' := generate_fsuuid fs_uuid4 (generate_uuid fmt identifier uuid4 part)
    Same part part' ∧ part'.realnum = part.realnum := by
  unfold Same generate_fsuuid generate_uuid
  simp only
  split_ifs <;> simp

theorem Numbered.mapIdx {fmt : Ptable} {num_real before : Nat} {parts : List Partition}
    (h : Numbered fmt num_real before parts) {f : Nat → Partition → Partition}
    (hf : ∀ i part, Same part (f i part) ∧ (f i part).realnum = part.realnum) :
    Numbered fmt num_real before (parts.mapIdx f) := by
  induction parts generalizing before f with
  | nil => trivial
  | cons part parts ih =>
    rw [List.mapIdx_cons]
    obtain ⟨⟨hno, -⟩, hnum⟩ := hf 0 part
    unfold Numbered at h ⊢
    rw [hno, hnum]
    split at h
    · rename_i htable
      rw [if_pos htable]
      exact ⟨h.1, ih h.2 fun i => hf (i + 1)⟩
    · rename_i htable
      rw [if_neg htable]
      exact ⟨h.1, ih h.2 fun i => hf (i + 1)⟩

theorem same_mapIdx (parts : List Partition) {f : Nat → Partition → Partition}
    (hf : ∀ i part, Same part (f i part)) : List.Forall₂ Same parts (parts.mapIdx f) := by
  induction parts generalizing f with
  | nil => exact .nil
  | cons part parts ih =>
    rw [List.mapIdx_cons]
    exact .cons (hf 0 part) (ih fun i => hf (i + 1))

theorem same_predict (fmt : Ptable) (num_real before : Nat) (parts : List Partition) :
    List.Forall₂ Same parts (predict fmt num_real before parts) := by
  induction parts generalizing before with
  | nil => exact .nil
  | cons part parts ih =>
    unfold predict
    split_ifs
    all_goals exact .cons ⟨rfl, rfl⟩ (ih _)

theorem Same.trans {part part' part'' : Partition} (h : Same part part') (h' : Same part' part'') :
    Same part part'' :=
  ⟨h'.1.trans h.1, h'.2.trans h.2⟩

theorem same_trans {l l' l'' : List Partition} (h : List.Forall₂ Same l l')
    (h' : List.Forall₂ Same l' l'') : List.Forall₂ Same l l'' := by
  induction h generalizing l'' with
  | nil => exact h'
  | cons hfirst hrest ih =>
    obtain _ | ⟨hfirst', hrest'⟩ := h'
    exact .cons (hfirst.trans hfirst') (ih hrest')

theorem table_types_same {l l' : List Partition} (h : List.Forall₂ Same l l') :
    table_types l' = table_types l := by
  induction h with
  | nil => rfl
  | @cons part part' l l' hfirst hrest ih =>
    obtain ⟨hno, htype⟩ := hfirst
    unfold table_types in_table at ih ⊢
    rw [List.filter_cons, List.filter_cons, hno]
    split
    · rw [List.map_cons, List.map_cons, htype, ih]
    · exact ih

section Init

variable (path : Text) (fmt : Ptable) (parts : List Partition) (extra_space identifier : Nat)
  (uuid4 fs_uuid4 : Nat → Text)

theorem init_numbered : Numbered fmt (num_real_partitions parts) 0
    (PartitionedImage.init path fmt parts extra_space identifier uuid4 fs_uuid4).partitions :=
  (predict_numbered fmt _ 0 parts).mapIdx fun i => uuids_keep fmt identifier (uuid4 i) (fs_uuid4 i)

theorem init_same : List.Forall₂ Same parts
    (PartitionedImage.init path fmt parts extra_space identifier uuid4 fs_uuid4).partitions :=
  same_trans (same_predict fmt _ 0 parts) (same_mapIdx _ fun i part =>
    (uuids_keep fmt identifier (uuid4 i) (fs_uuid4 i) part).1)

end Init

/-! ## The prediction and the table -/

/-- The partitions that the prediction takes to be primary ask for no logical one: the
first three of more than four in the table, or all of up to four. -/
def Predictable (fmt : Ptable) (parts : List Partition) : Prop :=
  fmt = .msdos →
    ∀ type ∈ (table_types parts).take (if (table_types parts).length > 4 then 3 else 4), type = .primary

instance (fmt : Ptable) (parts : List Partition) : Decidable (Predictable fmt parts) :=
  inferInstanceAs (Decidable (fmt = .msdos →
    ∀ type ∈ (table_types parts).take (if (table_types parts).length > 4 then 3 else 4), type = .primary))

/-- The counters of an msdos table as predicted, after `before` partitions of the table. -/
structure Counted (num_real before : Nat) (img : PartitionedImage) : Prop where
  early : before ≤ 3 ∨ num_real ≤ 4 →
    img.primary_part_num = before ∧ img.extendedpart = 0 ∧ img.logical_part_cnt = 0
  late : 3 < before → 4 < num_real →
    img.primary_part_num = 4 ∧ img.extendedpart ≠ 0 ∧ img.logical_part_cnt + 3 = before

section Msdos

variable {num_real before : Nat} {img img' : PartitionedImage} {part : Partition} {placed : Placed}

theorem number_of_logical (h : layout_part num_real img part = .ok (img', placed))
    (hfmt : img.ptable_format = .msdos) (htable : part.no_table = false) (htype : part.type = .logical) :
    4 < placed.num := by
  have hsettled : (settle_type num_real img part).type = .logical := by
    unfold settle_type
    split
    · rfl
    · exact htype
  by_cases hfirst : img.extendedpart = 0
  · have := (number_first_logical h hfmt htable hsettled hfirst).1
    omega
  · have := (number_later_logical h hfmt htable hsettled hfirst).1
    omega

theorem number_as_predicted (h : layout_part num_real img part = .ok (img', placed))
    (hfmt : img.ptable_format = .msdos) (htable : part.no_table = false)
    (hcounted : Counted num_real before img) (hreal : before < num_real)
    (htype : before < (if num_real > 4 then 3 else 4) → part.type = .primary) :
    placed.num = predicted .msdos num_real before ∧ Counted num_real (before + 1) img' := by
  by_cases hearly : before < if num_real > 4 then 3 else 4
  · obtain ⟨hprimary, hext, hlogical⟩ := hcounted.early (by split at hearly <;> omega)
    have hsettled : (settle_type num_real img part).type = .primary := by
      rw [settle_type, if_neg]
      · exact htype hearly
      · rw [hprimary]
        split at hearly <;> omega
    obtain ⟨hnum, hprimary', hext', hlogical', -⟩ := number_primary h hfmt htable hsettled
    constructor
    · rw [predicted, if_neg (by split at hearly <;> omega)]
      omega
    · constructor
      · intro _
        omega
      · intro _ _
        split at hearly <;> omega
  · have hmany : 4 < num_real := by
      split at hearly <;> omega
    have hbefore : 3 ≤ before := by
      split at hearly <;> omega
    by_cases hthree : before = 3
    · obtain ⟨hprimary, hext, hlogical⟩ := hcounted.early (by omega)
      have hsettled : (settle_type num_real img part).type = .logical := by
        rw [settle_type, if_pos ⟨hfmt, .inr ⟨hext, by omega, hmany⟩⟩]
      obtain ⟨hnum, hprimary', hext', hlogical', -⟩ :=
        number_first_logical h hfmt htable hsettled hext
      constructor
      · rw [predicted, if_pos ⟨rfl, by omega, hmany⟩]
        omega
      · constructor <;> intros <;> omega
    · obtain ⟨hprimary, hext, hlogical⟩ := hcounted.late (by omega) hmany
      have hsettled : (settle_type num_real img part).type = .logical := by
        rw [settle_type, if_pos ⟨hfmt, .inl (by omega)⟩]
      obtain ⟨hnum, hprimary', hext', hlogical', -⟩ :=
        number_later_logical h hfmt htable hsettled hext
      constructor
      · rw [predicted, if_pos ⟨rfl, by omega, hmany⟩]
        omega
      · constructor <;> intros <;> omega

end Msdos

section Loop

variable {num_real before : Nat} {img img' : PartitionedImage} {parts : List Partition} {row : List Placed}

theorem placed_realnum {part : Partition} {placed : Placed}
    (h : layout_part num_real img part = .ok (img', placed)) : placed.realnum = part.realnum := by
  rw [placed_settings h, settled_realnum]

theorem gpt_numbers (h : layout_loop num_real img parts = .ok (img', row))
    (hfmt : img.ptable_format ≠ .msdos) (hpart : img.realpart = before)
    (hnumbered : Numbered img.ptable_format num_real before parts) :
    ∀ placed ∈ row, placed.realnum = placed.num := by
  induction parts generalizing img before row with
  | nil =>
    obtain ⟨-, rfl⟩ := layout_loop_nil h
    simp
  | cons part parts ih =>
    obtain ⟨next, placed, rest, hturn, hrest, rfl⟩ := layout_loop_cons h
    obtain ⟨-, hfmt', -, hreal'⟩ := next_offset hturn
    have hnum := (number_plain hturn (.inl hfmt)).1
    have hreal := placed_realnum hturn
    unfold Numbered at hnumbered
    intro placed' hmem
    cases hno : part.no_table with
    | true =>
      simp only [hno, if_true] at hnumbered hnum hreal'
      rcases List.mem_cons.mp hmem with rfl | hmem
      · rw [hreal, hnum, hnumbered.1]
      · exact ih hrest (hfmt' ▸ hfmt) (hreal'.trans hpart) (hfmt' ▸ hnumbered.2) placed' hmem
    | false =>
      simp only [hno, Bool.false_eq_true, if_false] at hnumbered hnum hreal'
      rcases List.mem_cons.mp hmem with rfl | hmem
      · rw [hreal, hnum, hnumbered.1, predicted, if_neg (fun hlate => hfmt hlate.1), hpart]
      · exact ih hrest (hfmt' ▸ hfmt) (by omega) (hfmt' ▸ hnumbered.2) placed' hmem

theorem msdos_numbers (h : layout_loop num_real img parts = .ok (img', row))
    (hfmt : img.ptable_format = .msdos) (hcounted : Counted num_real before img)
    (hnumbered : Numbered .msdos num_real before parts)
    (hreal : before + (table_types parts).length = num_real)
    (htypes : ∀ type ∈ (table_types parts).take ((if num_real > 4 then 3 else 4) - before), type = .primary) :
    ∀ placed ∈ row, placed.realnum = placed.num := by
  induction parts generalizing img before row with
  | nil =>
    obtain ⟨-, rfl⟩ := layout_loop_nil h
    simp
  | cons part parts ih =>
    obtain ⟨next, placed, rest, hturn, hrest, rfl⟩ := layout_loop_cons h
    obtain ⟨-, hfmt', -⟩ := next_offset hturn
    have hkept := placed_realnum hturn
    unfold Numbered at hnumbered
    intro placed' hmem
    cases hno : part.no_table with
    | true =>
      obtain ⟨hnum, hprimary, hext, hlogical, -⟩ := number_plain hturn (.inr hno)
      simp only [hno, if_true] at hnumbered hnum
      rw [types_cons_outside hno] at hreal htypes
      rcases List.mem_cons.mp hmem with rfl | hmem
      · rw [hkept, hnum, hnumbered.1]
      · have hcounted' : Counted num_real before next := by
          constructor
          · rw [hprimary, hext, hlogical]
            exact hcounted.early
          · rw [hprimary, hext, hlogical]
            exact hcounted.late
        exact ih hrest (hfmt'.trans hfmt) hcounted' hnumbered.2 hreal htypes placed' hmem
    | false =>
      simp only [hno, Bool.false_eq_true, if_false] at hnumbered
      rw [types_cons_table hno] at hreal htypes
      rw [List.length_cons] at hreal
      obtain ⟨hnum, hcounted'⟩ := number_as_predicted hturn hfmt hno hcounted (by omega) fun hlt =>
        htypes part.type (by
          obtain ⟨m, hm⟩ := Nat.exists_eq_add_of_lt hlt
          rw [hm, show before + m + 1 - before = m + 1 by omega]
          exact List.mem_cons_self)
      rcases List.mem_cons.mp hmem with rfl | hmem
      · rw [hkept, hnum, hnumbered.1]
      · refine ih hrest (hfmt'.trans hfmt) hcounted' hnumbered.2 (by omega) ?_ placed' hmem
        intro type htype
        refine htypes type ?_
        by_cases hlt : before < if num_real > 4 then 3 else 4
        · obtain ⟨m, hm⟩ := Nat.exists_eq_add_of_lt hlt
          rw [hm, show before + m + 1 - (before + 1) = m by omega] at htype
          rw [hm, show before + m + 1 - before = m + 1 by omega]
          exact List.mem_cons_of_mem _ htype
        · rw [Nat.sub_eq_zero_of_le (by omega)] at htype
          simp at htype

theorem types_of_numbers (h : layout_loop num_real img parts = .ok (img', row))
    (hfmt : img.ptable_format = .msdos) (hnumbered : Numbered .msdos num_real before parts)
    (hsame : ∀ placed ∈ row, placed.realnum = placed.num) :
    ∀ type ∈ (table_types parts).take ((if num_real > 4 then 3 else 4) - before), type = .primary := by
  induction parts generalizing img before row with
  | nil => simp [table_types, in_table]
  | cons part parts ih =>
    obtain ⟨next, placed, rest, hturn, hrest, rfl⟩ := layout_loop_cons h
    obtain ⟨-, hfmt', -⟩ := next_offset hturn
    unfold Numbered at hnumbered
    intro type htype
    cases hno : part.no_table with
    | true =>
      simp only [hno, if_true] at hnumbered
      rw [types_cons_outside hno] at htype
      exact ih hrest (hfmt'.trans hfmt) hnumbered.2
        (fun placed' hmem => hsame placed' (List.mem_cons_of_mem _ hmem)) type htype
    | false =>
      simp only [hno, Bool.false_eq_true, if_false] at hnumbered
      rw [types_cons_table hno] at htype
      by_cases hlt : before < if num_real > 4 then 3 else 4
      · obtain ⟨m, hm⟩ := Nat.exists_eq_add_of_lt hlt
        rw [hm, show before + m + 1 - before = m + 1 by omega] at htype
        rcases List.mem_cons.mp htype with rfl | htype
        · cases hlogical : part.type with
          | primary => rfl
          | logical =>
            -- a logical one is numbered from five on, and at most four is predicted here
            have hnum := number_of_logical hturn hfmt hno hlogical
            have heq := hsame placed List.mem_cons_self
            rw [placed_realnum hturn, hnumbered.1, predicted, if_neg (by split at hlt <;> omega)] at heq
            split at hlt <;> omega
        · refine ih hrest (hfmt'.trans hfmt) hnumbered.2
            (fun placed' hmem => hsame placed' (List.mem_cons_of_mem _ hmem)) type ?_
          rw [hm, show before + m + 1 - (before + 1) = m by omega]
          exact htype
      · rw [Nat.sub_eq_zero_of_le (by omega)] at htype
        simp at htype

end Loop

section Image

variable (path : Text) (fmt : Ptable) (parts : List Partition) (extra_space identifier : Nat)
  (uuid4 fs_uuid4 : Nat → Text) {img : PartitionedImage} {row : List Placed}

theorem init_table_types : table_types
    (PartitionedImage.init path fmt parts extra_space identifier uuid4 fs_uuid4).partitions =
      table_types parts :=
  table_types_same (init_same path fmt parts extra_space identifier uuid4 fs_uuid4)

theorem layout_of_init (h : layout_partitions
    (PartitionedImage.init path fmt parts extra_space identifier uuid4 fs_uuid4) = .ok (img, row)) :
    ∃ last, layout_loop (num_real_partitions parts)
      (PartitionedImage.init path fmt parts extra_space identifier uuid4 fs_uuid4)
      (PartitionedImage.init path fmt parts extra_space identifier uuid4 fs_uuid4).partitions =
        .ok (last, row) := by
  obtain ⟨last, hloop, -⟩ := layout_partitions_ok h
  rw [num_real_eq, init_table_types, ← num_real_eq] at hloop
  exact ⟨last, hloop⟩

theorem agree_of_predictable (h : layout_partitions
    (PartitionedImage.init path fmt parts extra_space identifier uuid4 fs_uuid4) = .ok (img, row))
    (hpredictable : Predictable fmt parts) : ∀ placed ∈ row, placed.realnum = placed.num := by
  obtain ⟨last, hloop⟩ := layout_of_init path fmt parts extra_space identifier uuid4 fs_uuid4 h
  have hnumbered := init_numbered path fmt parts extra_space identifier uuid4 fs_uuid4
  by_cases hfmt : fmt = .msdos
  · subst hfmt
    have hcounted : Counted (num_real_partitions parts) 0
        (PartitionedImage.init path .msdos parts extra_space identifier uuid4 fs_uuid4) :=
      ⟨fun _ => ⟨rfl, rfl, rfl⟩, fun hlt => absurd hlt (by omega)⟩
    refine msdos_numbers hloop rfl hcounted hnumbered ?_ ?_
    · rw [init_table_types, num_real_eq, Nat.zero_add]
    · rw [init_table_types, num_real_eq]
      exact hpredictable rfl
  · exact gpt_numbers hloop hfmt rfl hnumbered

/-- Every partition gets the number that was predicted for it exactly when the prediction takes no
logical partition to be primary. -/
theorem numbers_agree_when_predictable (h : layout_partitions
    (PartitionedImage.init path fmt parts extra_space identifier uuid4 fs_uuid4) = .ok (img, row)) :
    (∀ placed ∈ row, placed.realnum = placed.num) ↔ Predictable fmt parts := by
  constructor
  · intro hsame hfmt
    subst hfmt
    obtain ⟨last, hloop⟩ := layout_of_init path _ parts extra_space identifier uuid4 fs_uuid4 h
    have hnumbered := init_numbered path .msdos parts extra_space identifier uuid4 fs_uuid4
    have := types_of_numbers hloop rfl hnumbered hsame
    rwa [init_table_types, num_real_eq] at this
  · exact agree_of_predictable path fmt parts extra_space identifier uuid4 fs_uuid4 h

/-- Where the prediction holds, fstab names the partitions by their numbers in the table. -/
theorem fstab_has_the_final_numbers (h : layout_partitions
    (PartitionedImage.init path fmt parts extra_space identifier uuid4 fs_uuid4) = .ok (img, row))
    (hpredictable : Predictable fmt parts) (lines : List Text) :
    update_fstab lines (row.map Placed.toPartition) =
      update_fstab lines (row.map fun placed => { placed.toPartition with realnum := placed.num }) := by
  have hsame := agree_of_predictable path fmt parts extra_space identifier uuid4 fs_uuid4 h hpredictable
  have hmap : row.map Placed.toPartition =
      row.map fun placed => { placed.toPartition with realnum := placed.num } := by
    refine List.map_congr_left fun placed hmem => ?_
    rw [← hsame placed hmem]
  rw [hmap]

end Image

theorem numbers_of_six_agree :
    ∃ img row, layout_partitions (small_image (List.replicate 6 (eight_sectors .primary false))) =
      .ok (img, row) ∧ ∀ placed ∈ row, placed.realnum = placed.num := by
  have hlaid : (layout_partitions
      (small_image (List.replicate 6 (eight_sectors .primary false)))).toOption.isSome = true := by
    decide +kernel
  obtain ⟨⟨img, row⟩, h⟩ := Option.isSome_iff_exists.mp hlaid
  exact ⟨img, row, ok_of_toOption h, (numbers_agree_when_predictable (text "image") .msdos
    (List.replicate 6 (eight_sectors .primary false)) 0 1 (fun _ => []) (fun _ => [])
    (ok_of_toOption h)).mpr (by decide +kernel)⟩

/-- A logical partition before a primary one is predicted to be 1 and gets 5. -/
theorem a_logical_partition_is_misnumbered :
    (layout_partitions (small_image [eight_sectors .logical false, eight_sectors .primary false])).map
        (fun result => result.2.map fun placed => (placed.realnum, placed.num)) =
      .ok [(1, 5), (2, 2)] := by
  decide +kernel

end yocto.wic_numbers
