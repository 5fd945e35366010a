-- The sectors of a laid out image. The partitions never meet, in any table.
import Yocto.WicLayout

open yocto.extents
open yocto.raising
open yocto.task_ids
open yocto.wic_layout

namespace yocto.wic_sectors

/-! ## Where a partition starts -/

def extent (placed : Placed) : Extent := ⟨placed.start, placed.size_sec⟩

section Turn

variable {num_real : Nat} {img img' : PartitionedImage} {part : Partition} {placed : Placed}

theorem seek_ok {numpart offset start : Nat} (h : seek numpart part offset = .ok start) :
    offset ≤ start ∧ (part.offset = none → start = offset) ∧
      ∀ bytes, part.offset = some bytes → (start : Int) * SECTOR_SIZE = bytes ∧
        start = (bytes / (SECTOR_SIZE : Int)).toNat := by
  unfold seek at h
  split at h
  · rename_i hnone
    obtain rfl := Except.ok.inj h
    exact ⟨le_refl _, fun _ => rfl, fun bytes hbytes => by simp [hnone] at hbytes⟩
  · rename_i bytes hbytes
    dsimp only at h
    split_ifs at h with hmultiple hdelta
    have hstart := Except.ok.inj h
    have hnonneg : 0 ≤ bytes / (SECTOR_SIZE : Int) := by omega
    refine ⟨by omega, fun hnone => by simp [hnone] at hbytes, fun bytes' hbytes' => ?_⟩
    rw [hbytes] at hbytes'
    obtain rfl := Option.some.inj hbytes'
    refine ⟨?_, hstart.symm⟩
    rw [← hstart, Int.toNat_of_nonneg hnonneg]
    exact not_not.mp hmultiple

theorem align_sectors_dvd {align : Nat} (halign : part.align = some align) (hpos : align ≠ 0)
    (offset : Nat) : align * 1024 ∣ (offset + align_sectors part offset) * SECTOR_SIZE := by
  have hk : align * 1024 / SECTOR_SIZE = 2 * align := by
    unfold SECTOR_SIZE
    omega
  have hmis : align_sectors part offset = misaligned (2 * align) offset := by
    simp only [align_sectors, halign, if_neg hpos, hk, misaligned]
    split_ifs <;> omega
  rw [hmis]
  have := Nat.mul_dvd_mul_right (dvd_add_misaligned (k := 2 * align) (by omega) offset) SECTOR_SIZE
  rwa [show 2 * align * SECTOR_SIZE = align * 1024 by unfold SECTOR_SIZE; omega] at this

@[simp] theorem settled_align : (settle_type num_real img part).align = part.align := by
  unfold settle_type
  split <;> rfl

@[simp] theorem settled_offset : (settle_type num_real img part).offset = part.offset := by
  unfold settle_type
  split <;> rfl

theorem settled_align_sectors (offset : Nat) :
    align_sectors (settle_type num_real img part) offset = align_sectors part offset := by
  simp [align_sectors]

/-- What a partition asks for is what it gets: its offset, or its alignment. -/
def Honoured (placed : Placed) : Prop :=
  (∀ bytes, placed.offset = some bytes → (placed.start : Int) * SECTOR_SIZE = bytes) ∧
  (placed.offset = none → ∀ align, placed.align = some align → align ≠ 0 →
    align * 1024 ∣ placed.start * SECTOR_SIZE)

theorem turn_honours (h : layout_part num_real img part = .ok (img', placed)) : Honoured placed := by
  obtain ⟨-, hnone, hsome⟩ := seek_ok (placed_start h)
  have hplaced := placed_settings h
  constructor
  · intro bytes hbytes
    refine (hsome bytes ?_).1
    rw [← hplaced]
    exact hbytes
  · intro hoffset align halign hpos
    rw [hplaced] at hoffset halign
    rw [hnone hoffset]
    exact align_sectors_dvd halign hpos _

theorem turn_advances (h : layout_part num_real img part = .ok (img', placed)) :
    (count img part).offset ≤ placed.start ∧ (extent placed).stop = img'.offset := by
  have hle := (seek_ok (placed_start h)).1
  unfold free_sector at hle
  refine ⟨by omega, ?_⟩
  rw [(next_offset h).1, Extent.stop, extent, placed_settings h, settled_size]

end Turn

/-! ## No partitions meet -/

/-- The first sector that the next partition may take. -/
def cursor (img : PartitionedImage) : Nat :=
  if img.numpart = 0 then img.offset + overhead img.ptable_format else img.offset

theorem count_offset (img : PartitionedImage) (part : Partition) : (count img part).offset = cursor img := by
  simp [count, cursor]

theorem layout_loop_laid {num_real : Nat} {img img' : PartitionedImage} {parts : List Partition}
    {row : List Placed} (h : layout_loop num_real img parts = .ok (img', row)) :
    Laid (cursor img) (row.map extent) (cursor img') ∧ (∀ placed ∈ row, Honoured placed) ∧
      img'.ptable_format = img.ptable_format ∧ img'.numpart = img.numpart + row.length := by
  induction parts generalizing img row with
  | nil =>
    obtain ⟨rfl, rfl⟩ := layout_loop_nil h
    exact ⟨le_refl _, by simp, rfl, rfl⟩
  | cons part parts ih =>
    obtain ⟨next, placed, rest, hturn, hrest, rfl⟩ := layout_loop_cons h
    obtain ⟨hlaid, hhonoured, hfmt, hcount⟩ := ih hrest
    obtain ⟨hstart, hstop⟩ := turn_advances hturn
    obtain ⟨hoffset, hfmt', hnumpart, -⟩ := next_offset hturn
    have hcursor : cursor next = next.offset := by simp [cursor, hnumpart]
    rw [count_offset] at hstart
    refine ⟨⟨hstart, ?_⟩, ?_, hfmt.trans hfmt', ?_⟩
    · rw [hstop, ← hcursor]
      exact hlaid
    · intro placed' hmem
      rcases List.mem_cons.mp hmem with rfl | hmem
      · exact turn_honours hturn
      · exact hhonoured placed' hmem
    · rw [hcount, hnumpart, List.length_cons]
      omega

/-! ## Which partitions are logical -/

/-- No primary partition is left for a partition after those `before` it: the extended partition
takes one, once there is a logical partition or when there has to be one. -/
def crowded (num_real : Nat) (before : List Partition) : Prop :=
  3 ≤ (table_types before).count .primary ∧ (4 < num_real ∨ .logical ∈ table_types before) ∨
    4 ≤ (table_types before).count .primary

instance (num_real : Nat) (before : List Partition) : Decidable (crowded num_real before) :=
  inferInstanceAs (Decidable (_ ∧ (_ ∨ _) ∨ _))

/-- In an msdos table a partition is logical if it asks for it, or when it is crowded out. -/
def becomes_logical (num_real : Nat) (before : List Partition) (part : Partition) : Prop :=
  part.type = .logical ∨ crowded num_real before

instance (num_real : Nat) (before : List Partition) (part : Partition) :
    Decidable (becomes_logical num_real before part) :=
  inferInstanceAs (Decidable (_ ∨ _))

/-- The counters of an msdos table, after the partitions `before`. -/
structure After (num_real : Nat) (before : List Partition) (img : PartitionedImage) : Prop where
  format : img.ptable_format = .msdos
  all_primary : img.extendedpart = 0 → img.logical_part_cnt = 0 ∧
    img.primary_part_num = (table_types before).count .primary ∧ .logical ∉ table_types before
  extended : img.extendedpart ≠ 0 → img.extendedpart = 5 ∧ 0 < img.logical_part_cnt ∧
    (crowded num_real before → 3 < img.primary_part_num) ∧
    (¬crowded num_real before → img.primary_part_num = (table_types before).count .primary + 1 ∧
      .logical ∈ table_types before)

theorem types_append_outside {part : Partition} {before : List Partition} (hno : part.no_table = true) :
    table_types (before ++ [part]) = table_types before := by
  simp [table_types, in_table, hno]

theorem types_append_table {part : Partition} {before : List Partition} (hno : part.no_table = false) :
    table_types (before ++ [part]) = table_types before ++ [part.type] := by
  simp [table_types, in_table, hno]

section Types

variable {num_real : Nat} {before : List Partition} {img img' : PartitionedImage} {part : Partition}
  {placed : Placed}

theorem After.forced_iff (hafter : After num_real before img) :
    (img.primary_part_num > 3 ∨
      img.extendedpart = 0 ∧ img.primary_part_num ≥ 3 ∧ num_real > 4) ↔ crowded num_real before := by
  by_cases hext : img.extendedpart = 0
  · obtain ⟨-, hcount, hnone⟩ := hafter.all_primary hext
    simp only [crowded, hcount, hnone, or_false, hext, true_and]
    omega
  · obtain ⟨-, -, hcrowded, hroom⟩ := hafter.extended hext
    simp only [hext, false_and, or_false]
    constructor
    · intro hlt
      by_contra hnot
      obtain ⟨hcount, hmem⟩ := hroom hnot
      exact hnot (.inl ⟨by omega, .inr hmem⟩)
    · exact hcrowded

theorem After.settled_iff (hafter : After num_real before img) :
    (settle_type num_real img part).type = .logical ↔ becomes_logical num_real before part := by
  unfold settle_type becomes_logical
  simp only [hafter.format, true_and, hafter.forced_iff]
  split
  · rename_i h
    simp [h]
  · rename_i h
    simp [h]

theorem After.settled_primary (hafter : After num_real before img)
    (h : ¬becomes_logical num_real before part) : (settle_type num_real img part).type = .primary := by
  have := mt hafter.settled_iff.mp h
  cases htype : (settle_type num_real img part).type with
  | primary => rfl
  | logical => exact absurd htype this

theorem crowded.append (h : crowded num_real before) (part : Partition) :
    crowded num_real (before ++ [part]) := by
  cases hno : part.no_table with
  | true =>
    unfold crowded at h ⊢
    rwa [types_append_outside hno]
  | false =>
    unfold crowded at h ⊢
    rw [types_append_table hno, List.count_append, List.mem_append]
    rcases h with ⟨hcount, hmany | hmem⟩ | hcount
    · exact .inl ⟨by omega, .inl hmany⟩
    · exact .inl ⟨by omega, .inr (.inl hmem)⟩
    · exact .inr (by omega)

theorem After.next (hafter : After num_real before img)
    (h : layout_part num_real img part = .ok (img', placed)) : After num_real (before ++ [part]) img' := by
  have hformat := (next_offset h).2.1.trans hafter.format
  cases hno : part.no_table with
  | true =>
    obtain ⟨-, hprimary, hext, hlogical, -⟩ := number_plain h (.inr hno)
    constructor
    · exact hformat
    · rw [hprimary, hext, hlogical, types_append_outside hno]
      exact hafter.all_primary
    · rw [hprimary, hext, hlogical, crowded, types_append_outside hno]
      exact hafter.extended
  | false =>
    have htypes : table_types (before ++ [part]) = table_types before ++ [part.type] :=
      types_append_table hno
    by_cases hlogical : becomes_logical num_real before part
    · have hsettled := hafter.settled_iff.mpr hlogical
      by_cases hext : img.extendedpart = 0
      · obtain ⟨hcnt, hcount, hnone⟩ := hafter.all_primary hext
        obtain ⟨hnum, hprimary', hext', hcnt', -⟩ :=
          number_first_logical h hafter.format hno hsettled hext
        refine ⟨hformat, fun hzero => by omega, fun _ => ⟨by omega, by omega, ?_, ?_⟩⟩
        · intro hcrowded
          rw [hprimary', hcount]
          cases htype : part.type with
          | primary =>
            rcases hlogical with hlogical | hlogical
            · rw [htype] at hlogical
              cases hlogical
            · unfold crowded at hlogical
              omega
          | logical =>
            unfold crowded at hcrowded
            rw [htypes, htype] at hcrowded
            simp only [List.count_append, List.count_singleton] at hcrowded
            simp at hcrowded
            omega
        · intro hroom
          have htype : part.type = .logical := by
            rcases hlogical with htype | hcrowded
            · exact htype
            · exact absurd (hcrowded.append part) hroom
          rw [hprimary', hcount, htypes, htype]
          simp
      · obtain ⟨hfive, hpos, hcrowded, hroom⟩ := hafter.extended hext
        obtain ⟨hnum, hprimary', hext', hcnt', -⟩ :=
          number_later_logical h hafter.format hno hsettled hext
        refine ⟨hformat, fun hzero => by omega, fun _ => ⟨by omega, by omega, ?_, ?_⟩⟩
        · intro hcrowded'
          rw [hprimary']
          by_cases hbefore : crowded num_real before
          · exact hcrowded hbefore
          · obtain ⟨hcount, hmem⟩ := hroom hbefore
            rcases hlogical with htype | habsurd
            · refine absurd ?_ hbefore
              unfold crowded at hcrowded' ⊢
              rw [htypes, htype] at hcrowded'
              simp at hcrowded'
              simp only [hmem, or_true, and_true]
              omega
            · exact absurd habsurd hbefore
        · intro hroom'
          have hbefore : ¬crowded num_real before := fun hcrowded => hroom' (hcrowded.append part)
          obtain ⟨hcount, hmem⟩ := hroom hbefore
          have htype : part.type = .logical := hlogical.resolve_right hbefore
          rw [hprimary', hcount, htypes, htype]
          simp
    · have hsettled := hafter.settled_primary hlogical
      have htype : part.type = .primary := by
        cases htype : part.type with
        | primary => rfl
        | logical => exact absurd (.inl htype) hlogical
      obtain ⟨hnum, hprimary', hext', hcnt', -⟩ := number_primary h hafter.format hno hsettled
      refine ⟨hformat, fun hzero => ?_, fun hsome => ?_⟩
      · obtain ⟨hcnt, hcount, hnone⟩ := hafter.all_primary (by omega)
        rw [hcnt', hprimary', hcount, htypes, htype]
        simp [hcnt, hnone]
      · obtain ⟨hfive, hpos, hcrowded, hroom⟩ := hafter.extended (by omega)
        obtain ⟨hcount, hmem⟩ := hroom fun hcrowded => hlogical (.inr hcrowded)
        refine ⟨by omega, by omega, ?_, ?_⟩
        · intro hcrowded'
          unfold crowded at hcrowded'
          rw [htypes, htype] at hcrowded'
          simp at hcrowded'
          omega
        · intro _
          rw [hprimary', hcount, htypes, htype]
          simp [hmem]

end Types

/-! ## Where the sectors go -/

/-- Where an msdos table puts a partition, when those `before` it take the sectors below `free`. -/
def place (num_real : Nat) (before : List Partition) (free : Nat) (part : Partition) : Nat :=
  match part.offset with
  | some bytes => (bytes / (SECTOR_SIZE : Int)).toNat
  | none =>
    let reserved := free + if becomes_logical num_real before part then 2 else 0
    reserved + align_sectors part reserved

def free_from (num_real : Nat) : List Partition → Nat → List Partition → Nat
  | _, free, [] => free
  | before, free, part :: parts =>
    free_from num_real (before ++ [part]) (place num_real before free part + part.size_sec) parts

/-- The first sector after the partitions of an msdos table. -/
def first_free (num_real : Nat) (parts : List Partition) : Nat := free_from num_real [] MBR_OVERHEAD parts

theorem free_from_append (num_real : Nat) (before : List Partition) (free : Nat)
    (parts : List Partition) (part : Partition) :
    free_from num_real before free (parts ++ [part]) =
      place num_real (before ++ parts) (free_from num_real before free parts) part + part.size_sec := by
  induction parts generalizing before free with
  | nil => simp [free_from]
  | cons p parts ih =>
    rw [List.cons_append, free_from, ih, List.append_assoc, List.singleton_append]
    rfl

theorem first_free_append (num_real : Nat) (before : List Partition) (part : Partition) :
    first_free num_real (before ++ [part]) =
      place num_real before (first_free num_real before) part + part.size_sec :=
  free_from_append num_real [] MBR_OVERHEAD before part

/-- A logical partition of the table. -/
def in_extended (num_real : Nat) (before : List Partition) (part : Partition) : Prop :=
  part.no_table = false ∧ becomes_logical num_real before part

instance (num_real : Nat) (before : List Partition) (part : Partition) :
    Decidable (in_extended num_real before part) :=
  inferInstanceAs (Decidable (_ ∧ _))

/-- The partition takes no more sectors than are counted for the extended partition: a logical one
its EBR, the alignment and its size, any other one none at all. -/
def Tight (num_real : Nat) (before : List Partition) (part : Partition) : Prop :=
  let free := first_free num_real before
  first_free num_real (before ++ [part]) =
    if in_extended num_real before part then free + 2 + align_sectors part (free + 2) + part.size_sec
    else free

instance (num_real : Nat) (before : List Partition) (part : Partition) :
    Decidable (Tight num_real before part) :=
  inferInstanceAs (Decidable (_ = _))

/-- The `i`-th of `parts`, which come after `before`, is a logical partition of the table. -/
def logical_at (num_real : Nat) (before parts : List Partition) (i : Nat) : Prop :=
  ∃ part, parts[i]? = some part ∧ in_extended num_real (before ++ parts.take i) part

/-- Up to the last logical partition all of `parts` are tight. -/
def Packed (num_real : Nat) (before parts : List Partition) : Prop :=
  ∀ j k, j ≤ k → logical_at num_real before parts k →
    ∀ part, parts[j]? = some part → Tight num_real (before ++ parts.take j) part

/-- From the first logical partition to the last one, all partitions after the first are tight. -/
def Gapless (num_real : Nat) (before parts : List Partition) : Prop :=
  ∀ i j k, i < j → j ≤ k → logical_at num_real before parts i → logical_at num_real before parts k →
    ∀ part, parts[j]? = some part → Tight num_real (before ++ parts.take j) part

section Gaps

variable {num_real : Nat} {before parts : List Partition} {part : Partition}

theorem logical_at_zero :
    logical_at num_real before (part :: parts) 0 ↔ in_extended num_real before part := by
  simp [logical_at]

theorem logical_at_succ {i : Nat} : logical_at num_real before (part :: parts) (i + 1) ↔
    logical_at num_real (before ++ [part]) parts i := by
  simp [logical_at]

theorem exists_logical_cons : (∃ k, logical_at num_real before (part :: parts) k) ↔
    in_extended num_real before part ∨ ∃ k, logical_at num_real (before ++ [part]) parts k := by
  constructor
  · rintro ⟨k, hk⟩
    cases k with
    | zero => exact .inl (logical_at_zero.mp hk)
    | succ k => exact .inr ⟨k, logical_at_succ.mp hk⟩
  · rintro (h | ⟨k, hk⟩)
    · exact ⟨0, logical_at_zero.mpr h⟩
    · exact ⟨k + 1, logical_at_succ.mpr hk⟩

theorem packed_cons : Packed num_real before (part :: parts) ↔
    ((∃ k, logical_at num_real before (part :: parts) k) → Tight num_real before part) ∧
      Packed num_real (before ++ [part]) parts := by
  constructor
  · intro h
    constructor
    · rintro ⟨k, hk⟩
      simpa using h 0 k (Nat.zero_le k) hk part rfl
    · intro j k hjk hk p hp
      simpa using h (j + 1) (k + 1) (by omega) (logical_at_succ.mpr hk) p (by simpa using hp)
  · rintro ⟨hfirst, hrest⟩ j k hjk hk p hp
    cases j with
    | zero =>
      obtain rfl : part = p := by simpa using hp
      simpa using hfirst ⟨k, hk⟩
    | succ j =>
      cases k with
      | zero => omega
      | succ k =>
        simpa using hrest j k (by omega) (logical_at_succ.mp hk) p (by simpa using hp)

theorem gapless_cons : Gapless num_real before (part :: parts) ↔
    (in_extended num_real before part → Packed num_real (before ++ [part]) parts) ∧
      Gapless num_real (before ++ [part]) parts := by
  constructor
  · intro h
    constructor
    · intro hlogical j k hjk hk p hp
      simpa using h 0 (j + 1) (k + 1) (by omega) (by omega) (logical_at_zero.mpr hlogical)
        (logical_at_succ.mpr hk) p (by simpa using hp)
    · intro i j k hij hjk hi hk p hp
      simpa using h (i + 1) (j + 1) (k + 1) (by omega) (by omega) (logical_at_succ.mpr hi)
        (logical_at_succ.mpr hk) p (by simpa using hp)
  · rintro ⟨hfirst, hrest⟩ i j k hij hjk hi hk p hp
    obtain ⟨j, rfl⟩ : ∃ j', j = j' + 1 := ⟨j - 1, by omega⟩
    obtain ⟨k, rfl⟩ : ∃ k', k = k' + 1 := ⟨k - 1, by omega⟩
    cases i with
    | zero =>
      simpa using hfirst (logical_at_zero.mp hi) j k (by omega) (logical_at_succ.mp hk) p
        (by simpa using hp)
    | succ i =>
      simpa using hrest i j k (by omega) (by omega) (logical_at_succ.mp hi) (logical_at_succ.mp hk) p
        (by simpa using hp)

theorem Packed.gapless (h : Packed num_real before parts) : Gapless num_real before parts :=
  fun _ j k _ hjk _ hk => h j k hjk hk

instance decidable_exists_logical (num_real : Nat) : ∀ before parts : List Partition,
    Decidable (∃ k, logical_at num_real before parts k)
  | _, [] => isFalse (by simp [logical_at])
  | before, part :: parts =>
    have := decidable_exists_logical num_real (before ++ [part]) parts
    decidable_of_iff _ exists_logical_cons.symm

instance decidable_packed (num_real : Nat) : ∀ before parts : List Partition,
    Decidable (Packed num_real before parts)
  | _, [] => isTrue (by simp [Packed])
  | before, part :: parts =>
    have := decidable_packed num_real (before ++ [part]) parts
    decidable_of_iff _ packed_cons.symm

instance decidable_gapless (num_real : Nat) : ∀ before parts : List Partition,
    Decidable (Gapless num_real before parts)
  | _, [] => isTrue (by simp [Gapless])
  | before, part :: parts =>
    have := decidable_packed num_real (before ++ [part]) parts
    have := decidable_gapless num_real (before ++ [part]) parts
    decidable_of_iff _ gapless_cons.symm

end Gaps

/-! ## The size of the extended partition -/

def is_logical (placed : Placed) : Prop := placed.no_table = false ∧ placed.type = .logical

/-- The state of an msdos layout after the partitions `before`. -/
structure Reached (num_real : Nat) (before : List Partition) (img : PartitionedImage) : Prop
    extends After num_real before img where
  cursor_eq : cursor img = first_free num_real before

section Extended

variable {num_real : Nat} {before parts : List Partition} {img img' : PartitionedImage}
  {part : Partition} {placed : Placed} {row : List Placed}

theorem Reached.free_sector (hreached : Reached num_real before img) (part : Partition) :
    free_sector num_real img part =
      first_free num_real before + if becomes_logical num_real before part then 2 else 0 := by
  rw [wic_layout.free_sector, count_offset, hreached.cursor_eq, ebr, hreached.format]
  simp only [true_and, hreached.settled_iff]

theorem Reached.place (hreached : Reached num_real before img)
    (h : layout_part num_real img part = .ok (img', placed)) :
    placed.start = place num_real before (first_free num_real before) part := by
  obtain ⟨-, hnone, hsome⟩ := seek_ok (placed_start h)
  rw [settled_offset] at hnone hsome
  unfold wic_sectors.place
  cases hoffset : part.offset with
  | none => rw [hnone hoffset, settled_align_sectors, hreached.free_sector]
  | some bytes => exact (hsome bytes hoffset).2

theorem Reached.next (hreached : Reached num_real before img)
    (h : layout_part num_real img part = .ok (img', placed)) :
    Reached num_real (before ++ [part]) img' := by
  obtain ⟨hoffset, -, hnumpart, -⟩ := next_offset h
  refine ⟨hreached.toAfter.next h, ?_⟩
  rw [first_free_append, ← hreached.place h, ← hoffset, cursor, if_neg (by omega)]

theorem Reached.logical_iff (hreached : Reached num_real before img)
    (h : layout_part num_real img part = .ok (img', placed)) :
    is_logical placed ↔ in_extended num_real before part := by
  rw [is_logical, in_extended, placed_settings h, settled_no_table, hreached.settled_iff]

theorem Reached.not_logical (hreached : Reached num_real before img)
    (h : layout_part num_real img part = .ok (img', placed)) (hnot : ¬in_extended num_real before part) :
    img'.extendedpart = img.extendedpart ∧ img'.extended_size_sec = img.extended_size_sec ∧
      placed.num ≤ 4 := by
  cases hno : part.no_table with
  | true =>
    obtain ⟨hnum, -, hext, -, hsize⟩ := number_plain h (.inr hno)
    rw [hno, if_pos rfl] at hnum
    exact ⟨hext, hsize, by omega⟩
  | false =>
    have hprimary : ¬becomes_logical num_real before part := fun hlogical => hnot ⟨hno, hlogical⟩
    obtain ⟨hnum, -, hext, -, hsize⟩ :=
      number_primary h hreached.format hno (hreached.settled_primary hprimary)
    have hroom : ¬img.primary_part_num > 3 := fun hlt =>
      hprimary (.inr (hreached.forced_iff.mp (.inl hlt)))
    exact ⟨hext, hsize, by omega⟩

theorem Reached.later_logical (hreached : Reached num_real before img)
    (h : layout_part num_real img part = .ok (img', placed)) (hext : img.extendedpart ≠ 0)
    (hin : in_extended num_real before part) :
    img'.extendedpart = img.extendedpart ∧ 5 < placed.num ∧
      img'.extended_size_sec = img.extended_size_sec +
        align_sectors part (first_free num_real before + 2) + (part.size_sec + 2) := by
  obtain ⟨hnum, -, hext', -, hsize⟩ := number_later_logical h hreached.format hin.1
    (hreached.settled_iff.mpr hin.2) hext
  have hpos := (hreached.extended hext).2.1
  rw [settled_align_sectors, hreached.free_sector, if_pos hin.2] at hsize
  exact ⟨hext', by omega, hsize⟩

theorem Reached.counted (hreached : Reached num_real before img)
    (h : layout_part num_real img part = .ok (img', placed)) (hext : img.extendedpart ≠ 0) :
    cursor img + img'.extended_size_sec ≤ cursor img' + img.extended_size_sec ∧
      (Tight num_real before part ↔
        cursor img + img'.extended_size_sec = cursor img' + img.extended_size_sec) := by
  have hnext := (hreached.next h).cursor_eq
  have hplace := hreached.place h
  have hle := (seek_ok (placed_start h)).1
  rw [settled_align_sectors, hreached.free_sector] at hle
  rw [first_free_append, ← hplace] at hnext
  rw [Tight, first_free_append, ← hplace, hnext, hreached.cursor_eq]
  by_cases hin : in_extended num_real before part
  · obtain ⟨-, -, hsize⟩ := hreached.later_logical h hext hin
    rw [if_pos hin.2] at hle
    rw [if_pos hin]
    omega
  · obtain ⟨-, hsize, -⟩ := hreached.not_logical h hin
    rw [if_neg hin]
    omega

theorem extended_size_le (h : layout_loop num_real img parts = .ok (img', row))
    (hreached : Reached num_real before img) (hext : img.extendedpart ≠ 0) :
    img'.extendedpart = img.extendedpart ∧ img.extended_size_sec ≤ img'.extended_size_sec ∧
      ((¬∃ k, logical_at num_real before parts k) → img'.extended_size_sec = img.extended_size_sec) := by
  induction parts generalizing before img row with
  | nil =>
    obtain ⟨rfl, rfl⟩ := layout_loop_nil h
    exact ⟨rfl, le_refl _, fun _ => rfl⟩
  | cons part parts ih =>
    obtain ⟨next, placed, rest, hturn, hrest, rfl⟩ := layout_loop_cons h
    rw [exists_logical_cons]
    by_cases hin : in_extended num_real before part
    · obtain ⟨hext', -, hsize⟩ := hreached.later_logical hturn hext hin
      obtain ⟨hext'', hle, -⟩ := ih hrest (hreached.next hturn) (by omega)
      exact ⟨by omega, by omega, fun hnone => absurd (.inl hin) hnone⟩
    · obtain ⟨hext', hsize, -⟩ := hreached.not_logical hturn hin
      obtain ⟨hext'', hle, hsame⟩ := ih hrest (hreached.next hturn) (by omega)
      refine ⟨by omega, by omega, fun hnone => ?_⟩
      rw [hsame fun hlater => hnone (.inr hlater), hsize]

theorem contained_iff (h : layout_loop num_real img parts = .ok (img', row))
    (hreached : Reached num_real before img) (hext : img.extendedpart ≠ 0) {base : Nat}
    (hbase : base + img.extended_size_sec ≤ cursor img) :
    (∀ placed ∈ row, is_logical placed → (extent placed).stop ≤ base + img'.extended_size_sec) ↔
      ((∃ k, logical_at num_real before parts k) → cursor img = base + img.extended_size_sec) ∧
        Packed num_real before parts := by
  induction parts generalizing before img row with
  | nil =>
    obtain ⟨rfl, rfl⟩ := layout_loop_nil h
    simp [logical_at, Packed]
  | cons part parts ih =>
    obtain ⟨next, placed, rest, hturn, hrest, rfl⟩ := layout_loop_cons h
    have hnext := hreached.next hturn
    obtain ⟨hle, htight⟩ := hreached.counted hturn hext
    have hext' : next.extendedpart ≠ 0 := by
      by_cases hin : in_extended num_real before part
      · rw [(hreached.later_logical hturn hext hin).1]
        exact hext
      · rw [(hreached.not_logical hturn hin).1]
        exact hext
    obtain ⟨-, hgrows, hsame⟩ := extended_size_le hrest hnext hext'
    have ih := ih hrest hnext hext' (by omega)
    have hstop : (extent placed).stop = cursor next := by
      rw [(turn_advances hturn).2, cursor, if_neg (by have := (next_offset hturn).2.2.1; omega)]
    rw [List.forall_mem_cons, ih, hstop, hreached.logical_iff hturn, packed_cons, exists_logical_cons]
    by_cases hin : in_extended num_real before part
    · simp only [hin, true_or, forall_true_left]
      by_cases hlater : ∃ k, logical_at num_real (before ++ [part]) parts k
      · simp only [hlater, forall_true_left]
        constructor
        · rintro ⟨-, heq, hpacked⟩
          exact ⟨by omega, htight.mpr (by omega), hpacked⟩
        · rintro ⟨heq, hpart, hpacked⟩
          have := htight.mp hpart
          exact ⟨by omega, by omega, hpacked⟩
      · rw [hsame hlater]
        simp only [hlater, false_implies, true_and]
        constructor
        · rintro ⟨hend, hpacked⟩
          exact ⟨by omega, htight.mpr (by omega), hpacked⟩
        · rintro ⟨heq, hpart, hpacked⟩
          have := htight.mp hpart
          exact ⟨by omega, hpacked⟩
    · simp only [hin, false_or, false_implies, true_and]
      constructor
      · rintro ⟨heq, hpacked⟩
        refine ⟨fun hlater => ?_, fun hlater => htight.mpr ?_, hpacked⟩
        · have := heq hlater
          omega
        · have := heq hlater
          omega
      · rintro ⟨heq, hpart, hpacked⟩
        refine ⟨fun hlater => ?_, hpacked⟩
        have := heq hlater
        have := htight.mp (hpart hlater)
        omega

theorem others_outside (h : layout_loop num_real img parts = .ok (img', row))
    (hreached : Reached num_real before img) (hext : img.extendedpart ≠ 0) {base : Nat}
    (hbase : base + img.extended_size_sec ≤ cursor img)
    (heq : (∃ k, logical_at num_real before parts k) → cursor img = base + img.extended_size_sec)
    (hpacked : Packed num_real before parts) :
    ∀ placed ∈ row, ¬is_logical placed →
      Disjoint (Extent.sectors ⟨base, img'.extended_size_sec⟩) (extent placed).sectors := by
  induction parts generalizing before img row with
  | nil =>
    obtain ⟨rfl, rfl⟩ := layout_loop_nil h
    simp
  | cons part parts ih =>
    obtain ⟨next, placed, rest, hturn, hrest, rfl⟩ := layout_loop_cons h
    have hnext := hreached.next hturn
    obtain ⟨hle, htight⟩ := hreached.counted hturn hext
    rw [packed_cons, exists_logical_cons] at hpacked
    rw [exists_logical_cons] at heq
    have hext' : next.extendedpart ≠ 0 := by
      by_cases hin : in_extended num_real before part
      · rw [(hreached.later_logical hturn hext hin).1]
        exact hext
      · rw [(hreached.not_logical hturn hin).1]
        exact hext
    have heq' : (∃ k, logical_at num_real (before ++ [part]) parts k) →
        cursor next = base + next.extended_size_sec := by
      intro hlater
      have := heq (.inr hlater)
      have := htight.mp (hpacked.1 (.inr hlater))
      omega
    rw [List.forall_mem_cons]
    refine ⟨fun hnot => ?_, ih hrest hnext hext' (by omega) heq' hpacked.2⟩
    have hin : ¬in_extended num_real before part := mt (hreached.logical_iff hturn).mpr hnot
    obtain ⟨-, hsize, -⟩ := hreached.not_logical hturn hin
    obtain ⟨hstart, hstop⟩ := turn_advances hturn
    rw [count_offset] at hstart
    by_cases hlater : ∃ k, logical_at num_real (before ++ [part]) parts k
    · -- between logical partitions it takes no sector
      have hsame := htight.mp (hpacked.1 (.inr hlater))
      have hcursor : cursor next = (extent placed).stop := by
        rw [hstop, cursor, if_neg (by have := (next_offset hturn).2.2.1; omega)]
      have hempty : (extent placed).sectors = ∅ := by
        apply Set.Ico_eq_empty
        simp only [extent, Extent.stop] at hcursor ⊢
        omega
      rw [hempty]
      exact Set.disjoint_empty _
    · -- after the last logical partition it starts after the extended one
      obtain ⟨-, -, hlast⟩ := extended_size_le hrest hnext hext'
      apply Extent.disjoint_of_le
      rw [Extent.stop, hlast hlater, hsize]
      exact hbase.trans hstart

theorem num_ne_five (h : layout_loop num_real img parts = .ok (img', row))
    (hreached : Reached num_real before img) (hext : img.extendedpart ≠ 0) :
    ∀ placed ∈ row, placed.num ≠ 5 := by
  induction parts generalizing before img row with
  | nil =>
    obtain ⟨rfl, rfl⟩ := layout_loop_nil h
    simp
  | cons part parts ih =>
    obtain ⟨next, placed, rest, hturn, hrest, rfl⟩ := layout_loop_cons h
    rw [List.forall_mem_cons]
    by_cases hin : in_extended num_real before part
    · obtain ⟨hext', hnum, -⟩ := hreached.later_logical hturn hext hin
      exact ⟨by omega, ih hrest (hreached.next hturn) (by omega)⟩
    · obtain ⟨hext', -, hnum⟩ := hreached.not_logical hturn hin
      exact ⟨by omega, ih hrest (hreached.next hturn) (by omega)⟩

/-- A layout up to its first logical partition `first`, and the rest of it from `next` on. -/
structure FirstLogical (num_real : Nat) (before parts : List Partition) (img img' : PartitionedImage)
    (row : List Placed) (next : PartitionedImage) (earlier : List Placed) (first : Placed)
    (later : List Placed) (before' parts' : List Partition) : Prop where
  row_eq : row = earlier ++ first :: later
  earlier_before : ∀ placed ∈ earlier, ¬is_logical placed ∧ placed.num ≤ 4 ∧
    (extent placed).stop + 2 ≤ first.start
  logical : is_logical first
  num_eq : first.num = 5
  start_le : cursor img + 2 ≤ first.start
  rest : layout_loop num_real next parts' = .ok (img', later)
  reached : Reached num_real before' next
  extendedpart : next.extendedpart = 5
  size_eq : next.extended_size_sec = first.size_sec + 2
  cursor_eq : cursor next = (extent first).stop
  gapless_iff : Gapless num_real before parts ↔ Packed num_real before' parts'

theorem Reached.first_logical (hreached : Reached num_real before img)
    (h : layout_part num_real img part = .ok (img', placed)) (hext : img.extendedpart = 0)
    (hin : in_extended num_real before part) :
    placed.num = 5 ∧ img'.extendedpart = 5 ∧
      img'.extended_size_sec = img.extended_size_sec + (part.size_sec + 2) ∧
      cursor img + 2 ≤ placed.start := by
  obtain ⟨hnum, -, hext', -, hsize⟩ := number_first_logical h hreached.format hin.1
    (hreached.settled_iff.mpr hin.2) hext
  have hnone := (hreached.all_primary hext).1
  have hle := (seek_ok (placed_start h)).1
  rw [hreached.free_sector, if_pos hin.2, ← hreached.cursor_eq] at hle
  exact ⟨by omega, by omega, hsize, by omega⟩

theorem first_logical (h : layout_loop num_real img parts = .ok (img', row))
    (hreached : Reached num_real before img) (hext : img.extendedpart = 0)
    (hsize : img.extended_size_sec = 0) :
    (img'.extendedpart = 0 ∧ (∀ placed ∈ row, ¬is_logical placed) ∧ Gapless num_real before parts) ∨
      ∃ next earlier first later before' parts',
        FirstLogical num_real before parts img img' row next earlier first later before' parts' := by
  induction parts generalizing before img row with
  | nil =>
    obtain ⟨rfl, rfl⟩ := layout_loop_nil h
    exact .inl ⟨hext, by simp, fun i j k _ _ _ _ part hpart => by simp at hpart⟩
  | cons part parts ih =>
    obtain ⟨next, placed, rest, hturn, hrest, rfl⟩ := layout_loop_cons h
    have hnext := hreached.next hturn
    have hcursor : (extent placed).stop = cursor next := by
      rw [(turn_advances hturn).2, cursor, if_neg (by have := (next_offset hturn).2.2.1; omega)]
    by_cases hin : in_extended num_real before part
    · obtain ⟨hnum, hext', hsize', hstart⟩ := hreached.first_logical hturn hext hin
      right
      exact ⟨next, [], placed, rest, before ++ [part], parts, {
        row_eq := rfl
        earlier_before := by simp
        logical := (hreached.logical_iff hturn).mpr hin
        num_eq := hnum
        start_le := hstart
        rest := hrest
        reached := hnext
        extendedpart := hext'
        size_eq := by
          rw [hsize', hsize, placed_settings hturn, settled_size]
          omega
        cursor_eq := hcursor.symm
        gapless_iff := by
          rw [gapless_cons]
          exact ⟨fun hgapless => hgapless.1 hin, fun hpacked => ⟨fun _ => hpacked, hpacked.gapless⟩⟩ }⟩
    · obtain ⟨hext', hsize', hnum⟩ := hreached.not_logical hturn hin
      have hplaced : ¬is_logical placed := mt (hreached.logical_iff hturn).mp hin
      have hgapless : Gapless num_real before (part :: parts) ↔
          Gapless num_real (before ++ [part]) parts := by
        rw [gapless_cons]
        exact ⟨And.right, fun hrest => ⟨fun hlogical => absurd hlogical hin, hrest⟩⟩
      rcases ih hrest hnext (by omega) (by omega) with ⟨hnone, hrow, hfree⟩ |
        ⟨next', earlier, first, later, before', parts', hfirst⟩
      · refine .inl ⟨hnone, ?_, hgapless.mpr hfree⟩
        rw [List.forall_mem_cons]
        exact ⟨hplaced, hrow⟩
      · right
        have hstart := hfirst.start_le
        have hle := (turn_advances hturn).1
        rw [count_offset] at hle
        refine ⟨next', placed :: earlier, first, later, before', parts', { hfirst with
          row_eq := by rw [hfirst.row_eq, List.cons_append]
          earlier_before := ?_
          start_le := by
            have : placed.start ≤ cursor next := by
              rw [← hcursor]
              exact Nat.le_add_right placed.start placed.size_sec
            omega
          gapless_iff := hgapless.trans hfirst.gapless_iff }⟩
        rw [List.forall_mem_cons]
        exact ⟨⟨hplaced, hnum, by omega⟩, hfirst.earlier_before⟩

end Extended

/-! ## The partitions that are made -/

/-- The sectors of an extended partition that is made. -/
def extended_of : Command → Option Extent
  | .create_partition _ parttype none start size =>
    if parttype = text "extended" then some ⟨start, size⟩ else none
  | _ => none

def created_extended (commands : List Command) : List Extent := commands.filterMap extended_of

section Create

variable {img : PartitionedImage}

/-- The extended partition that is made before a partition. -/
def extended_before (img : PartitionedImage) (placed : Placed) : List Extent :=
  if placed.num ≠ 0 ∧ placed.num = img.extendedpart then [⟨placed.start - 2, img.extended_size_sec⟩]
  else []

theorem created_describe (img : PartitionedImage) (k : Nat) (placed : Placed) : created_extended (describe img k placed) = [] := by
  unfold created_extended describe
  simp only [List.filterMap_append, List.append_eq_nil_iff]
  refine ⟨⟨⟨⟨⟨⟨?_, ?_⟩, ?_⟩, ?_⟩, ?_⟩, ?_⟩, ?_⟩
  · split <;> split <;> rfl
  all_goals split <;> rfl

theorem create_part_msdos (hfmt : img.ptable_format = .msdos) (k : Nat) (placed : Placed) :
    ∃ commands, create_part img k placed = .ok (k, commands) ∧
      created_extended commands = extended_before img placed := by
  unfold create_part extended_before
  by_cases hnum : placed.num = 0
  · exact ⟨[], by rw [if_pos hnum], by simp [hnum, created_extended]⟩
  · have hhybrid : ∀ part, create_hybrid img k part = .ok (k, []) := by
      intro part
      rw [create_hybrid, if_neg (by simp [hfmt])]
    rw [if_neg hnum]
    simp only [hhybrid]
    refine ⟨_, rfl, ?_⟩
    have hextended : created_extended (create_extended img placed) =
        if placed.num ≠ 0 ∧ placed.num = img.extendedpart then
          [⟨placed.start - 2, img.extended_size_sec⟩] else [] := by
      unfold create_extended
      simp only [hfmt, true_and, hnum, ne_eq, not_false_eq_true]
      split <;> rfl
    rw [← hextended]
    have hdescribe := created_describe img k (even_sectors (fat16_id placed))
    unfold created_extended at hdescribe ⊢
    rw [List.filterMap_append, List.filterMap_append, hdescribe, List.append_nil]
    exact List.append_nil _

theorem create_loop_msdos (hfmt : img.ptable_format = .msdos) (k : Nat) (row : List Placed) :
    ∃ commands, create_loop img k row = .ok (k, commands) ∧
      created_extended commands = row.flatMap (extended_before img) := by
  induction row with
  | nil => exact ⟨[], rfl, rfl⟩
  | cons placed row ih =>
    obtain ⟨commands, hpart, hextended⟩ := create_part_msdos hfmt k placed
    obtain ⟨rest, hloop, hrest⟩ := ih
    refine ⟨commands ++ rest, ?_, ?_⟩
    · rw [create_loop, hpart]
      change (create_loop img k row >>= _) = _
      rw [hloop]
      rfl
    · rw [created_extended, List.filterMap_append, List.flatMap_cons, ← hextended, ← hrest]
      rfl

theorem create_msdos (hfmt : img.ptable_format = .msdos) (guid : Text) (row : List Placed) :
    ∃ commands, create img guid row = .ok commands ∧
      created_extended commands = row.flatMap (extended_before img) := by
  obtain ⟨commands, hloop, hextended⟩ := create_loop_msdos hfmt 0 row
  unfold create
  rw [hloop]
  simp only [hfmt, protect]
  refine ⟨_, rfl, ?_⟩
  rw [← hextended, created_extended, List.filterMap_append, List.filterMap_append]
  simp [created_extended, extended_of, Ptable.is_gpt]

end Create

/-! ## Sound layouts -/

/-- What is left free at the end of the image for the table. -/
def backup : Ptable → Nat
  | .msdos => 0
  | .gpt | .gpt_hybrid => GPT_OVERHEAD

/-- The partitions do not meet, they lie between the table and the end of the image, and each is
where it asked to be. -/
structure Sound (fmt : Ptable) (parts : List Partition) (img : PartitionedImage) (row : List Placed) :
    Prop where
  settings : List.Forall₂ (fun part placed => ∃ type, placed.toPartition = { part with type }) parts row
  disjoint : row.Pairwise fun placed placed' => Disjoint (extent placed).sectors (extent placed').sectors
  after_table : ∀ placed ∈ row, overhead fmt ≤ placed.start
  before_end : ∀ placed ∈ row, ((extent placed).stop + backup fmt) * SECTOR_SIZE ≤ img.min_size
  honoured : ∀ placed ∈ row, Honoured placed

/-- A logical partition with the sectors that are reserved before it. -/
def with_ebr (placed : Placed) : Extent := ⟨placed.start - 2, placed.size_sec + 2⟩

/-- `create` makes an extended partition around the logical partitions, and around no other one. -/
def ExtendedSound (img : PartitionedImage) (guid : Text) (row : List Placed) : Prop :=
  ∃ commands, create img guid row = .ok commands ∧
    ((∃ placed ∈ row, is_logical placed) → created_extended commands ≠ []) ∧
    ∀ extended ∈ created_extended commands,
      (∀ placed ∈ row, is_logical placed →
        2 ≤ placed.start ∧ (with_ebr placed).sectors ⊆ extended.sectors) ∧
      ∀ placed ∈ row, ¬is_logical placed → Disjoint extended.sectors (extent placed).sectors

theorem layout_loop_settings {num_real : Nat} {img img' : PartitionedImage} {parts : List Partition}
    {row : List Placed} (h : layout_loop num_real img parts = .ok (img', row)) :
    List.Forall₂ (fun part placed => ∃ type, placed.toPartition = { part with type }) parts row := by
  induction parts generalizing img row with
  | nil =>
    obtain ⟨-, rfl⟩ := layout_loop_nil h
    exact .nil
  | cons part parts ih =>
    obtain ⟨next, placed, rest, hturn, hrest, rfl⟩ := layout_loop_cons h
    refine .cons ?_ (ih hrest)
    rw [placed_settings hturn, settle_type]
    split
    · exact ⟨_, rfl⟩
    · exact ⟨part.type, rfl⟩

theorem cursor_init (path : Text) (fmt : Ptable) (parts : List Partition) (extra_space identifier : Nat)
    (uuid4 fs_uuid4 : Nat → Text) :
    cursor (PartitionedImage.init path fmt parts extra_space identifier uuid4 fs_uuid4) = overhead fmt := by
  simp [cursor, PartitionedImage.init]

section Image

variable {path : Text} {fmt : Ptable} {parts : List Partition} {extra_space identifier : Nat}
  {uuid4 fs_uuid4 : Nat → Text} {img : PartitionedImage} {row : List Placed}

theorem layout_is_sound (h : layout_partitions
    (PartitionedImage.init path fmt parts extra_space identifier uuid4 fs_uuid4) = .ok (img, row)) :
    Sound fmt (PartitionedImage.init path fmt parts extra_space identifier uuid4 fs_uuid4).partitions
      img row := by
  obtain ⟨last, hloop, rfl⟩ := layout_partitions_ok h
  obtain ⟨hlaid, hhonoured, hfmt, hcount⟩ := layout_loop_laid hloop
  have hbounds : ∀ placed ∈ row, overhead fmt ≤ placed.start ∧ (extent placed).stop ≤ cursor last :=
    fun placed hmem => cursor_init path fmt parts extra_space identifier uuid4 fs_uuid4 ▸ hlaid.within (List.mem_map_of_mem hmem)
  refine ⟨layout_loop_settings hloop, ?_, ?_, ?_, hhonoured⟩
  · have := hlaid.disjoint
    rwa [List.pairwise_map] at this
  · exact fun placed hmem => (hbounds placed hmem).1
  · intro placed hmem
    have hstop := (hbounds placed hmem).2
    have hpos := List.length_pos_of_mem hmem
    rw [cursor, if_neg (by omega)] at hstop
    have hend : (extent placed).stop + backup fmt ≤ last.offset + match last.ptable_format with
        | .msdos => 0
        | .gpt | .gpt_hybrid => GPT_OVERHEAD := by
      rw [hfmt]
      exact Nat.add_le_add_right hstop _
    exact (Nat.mul_le_mul_right SECTOR_SIZE hend).trans (Nat.le_add_right _ _)

theorem reached_init (n : Nat) : Reached n []
    (PartitionedImage.init path .msdos parts extra_space identifier uuid4 fs_uuid4) where
  format := rfl
  all_primary := by
    intro _
    exact ⟨rfl, rfl, by simp [table_types, in_table]⟩
  extended := by
    intro hext
    exact absurd rfl hext
  cursor_eq := rfl

theorem extended_sound_iff (guid : Text) (h : layout_partitions
    (PartitionedImage.init path .msdos parts extra_space identifier uuid4 fs_uuid4) = .ok (img, row)) :
    ExtendedSound img guid row ↔ Gapless (num_real_partitions (PartitionedImage.init path .msdos parts
        extra_space identifier uuid4 fs_uuid4).partitions) []
      (PartitionedImage.init path .msdos parts extra_space identifier uuid4 fs_uuid4).partitions := by
  obtain ⟨last, hloop, himg⟩ := layout_partitions_ok h
  have hfmt : img.ptable_format = .msdos := by
    rw [himg]
    exact (layout_loop_laid hloop).2.2.1
  have hext : img.extendedpart = last.extendedpart := by rw [himg]
  have hsize : img.extended_size_sec = last.extended_size_sec := by rw [himg]
  obtain ⟨commands, hcreate, hcreated⟩ := create_msdos hfmt guid row
  have hiff : ExtendedSound img guid row ↔
      ((∃ placed ∈ row, is_logical placed) → created_extended commands ≠ []) ∧
      ∀ extended ∈ created_extended commands,
        (∀ placed ∈ row, is_logical placed →
          2 ≤ placed.start ∧ (with_ebr placed).sectors ⊆ extended.sectors) ∧
        ∀ placed ∈ row, ¬is_logical placed → Disjoint extended.sectors (extent placed).sectors := by
    constructor
    · rintro ⟨commands', hcreate', hsound⟩
      obtain rfl := Except.ok.inj (hcreate.symm.trans hcreate')
      exact hsound
    · exact fun hsound => ⟨commands, hcreate, hsound⟩
  rw [hiff, hcreated]
  rcases first_logical hloop (reached_init _) rfl rfl with ⟨hnone, hrow, hgapless⟩ |
    ⟨next, earlier, first, later, before', parts', hfirst⟩
  · -- without a logical partition no extended one is made
    have hempty : row.flatMap (extended_before img) = [] := by
      rw [List.flatMap_eq_nil_iff]
      intro placed hmem
      rw [extended_before, if_neg (by omega)]
    rw [hempty]
    refine ⟨fun _ => hgapless, fun _ => ⟨?_, by simp⟩⟩
    rintro ⟨placed, hmem, hlogical⟩
    exact absurd hlogical (hrow placed hmem)
  · obtain ⟨hlast, hgrows, -⟩ := extended_size_le hfirst.rest hfirst.reached (by
      have := hfirst.extendedpart
      omega)
    have hnext := hfirst.extendedpart
    have hsize' := hfirst.size_eq
    have hcursor := hfirst.cursor_eq
    have hstart := hfirst.start_le
    simp only [Extent.stop, extent] at hcursor
    have hmade : row.flatMap (extended_before img) =
        [⟨first.start - 2, img.extended_size_sec⟩] := by
      have hearlier : earlier.flatMap (extended_before img) = [] := by
        rw [List.flatMap_eq_nil_iff]
        intro placed hmem
        have := (hfirst.earlier_before placed hmem).2.1
        rw [extended_before, if_neg (by omega)]
      have hlater : later.flatMap (extended_before img) = [] := by
        rw [List.flatMap_eq_nil_iff]
        intro placed hmem
        have := num_ne_five hfirst.rest hfirst.reached (by omega) placed hmem
        rw [extended_before, if_neg (by omega)]
      rw [hfirst.row_eq, List.flatMap_append, List.flatMap_cons, hearlier, hlater, extended_before,
        if_pos (by have := hfirst.num_eq; omega)]
      rfl
    have hcontained := contained_iff hfirst.rest hfirst.reached (by omega)
      (show first.start - 2 + next.extended_size_sec ≤ cursor next by omega)
    have hlaid := (layout_loop_laid hfirst.rest).1
    have hlow : ∀ placed ∈ later, cursor next ≤ placed.start := fun placed hmem =>
      (hlaid.within (List.mem_map_of_mem (f := extent) hmem)).1
    have hebr : ∀ placed, 2 ≤ placed.start → (with_ebr placed).stop = (extent placed).stop := by
      intro placed hle
      simp only [with_ebr, Extent.stop, extent]
      omega
    rw [hfirst.gapless_iff, hmade, hfirst.row_eq, List.forall_mem_singleton]
    constructor
    · rintro ⟨-, hsound, -⟩
      refine (hcontained.mp fun placed hmem hlogical => ?_).2
      obtain ⟨hle, hsubset⟩ := hsound placed (by simp [hmem]) hlogical
      rw [Extent.sectors_subset (by simp [with_ebr]), hebr placed hle] at hsubset
      rw [← hsize]
      exact hsubset.2
    · intro hpacked
      have hlater := hcontained.mpr ⟨fun _ => by omega, hpacked⟩
      have hothers := others_outside hfirst.rest hfirst.reached (by omega)
        (show first.start - 2 + next.extended_size_sec ≤ cursor next by omega) (fun _ => by omega) hpacked
      refine ⟨fun _ => by simp, ?_, ?_⟩
      · intro placed hmem hlogical
        rcases List.mem_append.mp hmem with hmem | hmem
        · exact absurd hlogical (hfirst.earlier_before placed hmem).1
        · have hwithin : first.start ≤ placed.start ∧
              (extent placed).stop ≤ first.start - 2 + img.extended_size_sec := by
            rcases List.mem_cons.mp hmem with rfl | hmem
            · simp only [Extent.stop, extent]
              omega
            · have := hlow placed hmem
              have := hlater placed hmem hlogical
              omega
          refine ⟨by omega, ?_⟩
          rw [Extent.sectors_subset (by simp [with_ebr]), hebr placed (by omega)]
          exact ⟨Nat.sub_le_sub_right hwithin.1 2, hwithin.2⟩
      · intro placed hmem hnot
        rcases List.mem_append.mp hmem with hmem | hmem
        · apply Disjoint.symm
          apply Extent.disjoint_of_le
          have := (hfirst.earlier_before placed hmem).2.2
          exact Nat.le_sub_of_add_le this
        · rcases List.mem_cons.mp hmem with rfl | hmem
          · exact absurd hfirst.logical hnot
          · rw [hsize]
            exact hothers placed hmem hnot

/-- Every layout that raises nothing is sound, and so is the extended partition of an msdos table,
exactly when nothing between the first and the last logical partition of an msdos table takes sectors
that are not counted. -/
theorem layouts_are_sound_without_gaps (guid : Text) (h : layout_partitions
    (PartitionedImage.init path fmt parts extra_space identifier uuid4 fs_uuid4) = .ok (img, row)) :
    let partitions := (PartitionedImage.init path fmt parts extra_space identifier uuid4 fs_uuid4).partitions
    Sound fmt partitions img row ∧ (fmt = .msdos → ExtendedSound img guid row) ↔
      (fmt = .msdos → Gapless (num_real_partitions partitions) [] partitions) := by
  intro partitions
  constructor
  · rintro ⟨-, hextended⟩ rfl
    exact (extended_sound_iff guid h).mp (hextended rfl)
  · intro hgapless
    refine ⟨layout_is_sound h, ?_⟩
    rintro rfl
    exact (extended_sound_iff guid h).mpr (hgapless rfl)

end Image

theorem five_in_a_row_are_sound :
    ∃ img row, layout_partitions (small_image (List.replicate 5 (eight_sectors .primary false))) =
      .ok (img, row) ∧ ExtendedSound img [] row := by
  have hlaid : (layout_partitions
      (small_image (List.replicate 5 (eight_sectors .primary false)))).toOption.isSome = true := by
    decide +kernel
  obtain ⟨⟨img, row⟩, h⟩ := Option.isSome_iff_exists.mp hlaid
  have hgapless : Gapless 5 [] (small_image (List.replicate 5 (eight_sectors .primary false))).partitions := by
    decide +kernel
  exact ⟨img, row, ok_of_toOption h, ((@layouts_are_sound_without_gaps (text "image") .msdos
    (List.replicate 5 (eight_sectors .primary false)) 0 1 (fun _ => []) (fun _ => []) img row []
    (ok_of_toOption h)).mpr fun _ => hgapless).2 rfl⟩

def moved_partitions : List Partition :=
  List.replicate 4 (eight_sectors .primary false) ++
    [{ eight_sectors .primary false with offset := some 1048576 }]

/-- The extended partition then takes the sectors 25 to 44, and the last partition is at 2048. -/
theorem a_moved_partition_is_outside :
    (layout_partitions (small_image moved_partitions)).toOption.map (fun result =>
        (result.2.map fun placed => (placed.num, placed.start, placed.size_sec),
          ((create result.1 [] result.2).toOption.getD []).filterMap fun command =>
            (extended_of command).map fun extended => (extended.start, extended.size))) =
      some ([(1, 1, 8), (2, 9, 8), (3, 17, 8), (5, 27, 8), (6, 2048, 8)], [(25, 20)]) ∧
    ∃ img row, layout_partitions (small_image moved_partitions) = .ok (img, row) ∧
      ¬ExtendedSound img [] row := by
  refine ⟨by decide +kernel, ?_⟩
  have hlaid : (layout_partitions (small_image moved_partitions)).toOption.isSome = true := by
    decide +kernel
  obtain ⟨⟨img, row⟩, h⟩ := Option.isSome_iff_exists.mp hlaid
  have hgap : ¬Gapless 5 [] (small_image moved_partitions).partitions := by
    decide +kernel
  exact ⟨img, row, ok_of_toOption h, fun hsound =>
    hgap ((extended_sound_iff [] (ok_of_toOption h)).mp hsound)⟩

end yocto.wic_sectors
