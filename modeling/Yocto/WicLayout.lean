-- How `wic` lays the partitions of an image out (`PartitionedImage` of direct.py): the numbers
-- it predicts for them, the sectors and the numbers that `layout_partitions` gives them, and
-- the partitions that `create` makes.
import Yocto.Extents
import Yocto.Raising
import Yocto.TaskIds

open yocto.task_ids
open yocto.extents
open yocto.raising

namespace yocto.wic_layout

/-! ## Partitions and images -/

/-- The choices of `--ptable`. -/
inductive Ptable where
  | msdos
  | gpt
  | gpt_hybrid
  deriving DecidableEq

/-- The choices of `--type`. -/
inductive PartType where
  | primary
  | logical
  deriving DecidableEq

structure Partition where
  disk : Text
  mountpoint : Option Text
  fstype : Text
  label : Option Text
  no_table : Bool
  type : PartType
  align : Option Nat
  offset : Option Int
  size_sec : Nat
  part_name : Option Text
  part_type : Option Text
  system_id : Option Text
  mbr : Bool
  active : Bool
  hidden : Bool
  uuid : Option Text
  fsuuid : Option Text
  use_uuid : Bool
  use_label : Bool
  fsopts : Option Text
  fspassno : Option Text
  realnum : Nat

/-- A partition with what `layout_partitions` sets. -/
structure Placed extends Partition where
  start : Nat
  num : Nat

structure PartitionedImage where
  path : Text
  numpart : Nat
  realpart : Nat
  primary_part_num : Nat
  extendedpart : Nat
  extended_size_sec : Nat
  logical_part_cnt : Nat
  offset : Nat
  min_size : Nat
  ptable_format : Ptable
  identifier : Nat
  partitions : List Partition
  extra_space : Nat

/-- A setting that is neither left out nor empty. -/
def truthy : Option Text → Bool
  | some (_ :: _) => true
  | _ => false

def MBR_OVERHEAD : Nat := 1

def GPT_OVERHEAD : Nat := 34

def SECTOR_SIZE : Nat := 512

/-! ## The constructor -/

/-- `len([p for p in self.partitions if not p.no_table])`. -/
def num_real_partitions (parts : List Partition) : Nat :=
  (parts.filter fun part => !part.no_table).length

/-- The first loop of the constructor: `realnum` counts the partitions of the table. -/
def predict (fmt : Ptable) (num_real : Nat) : Nat → List Partition → List Partition
  | _, [] => []
  | realnum, part :: parts =>
    if part.no_table then { part with realnum := 0 } :: predict fmt num_real realnum parts
    else if fmt = .msdos ∧ realnum + 1 > 3 ∧ num_real > 4 then
      { part with realnum := realnum + 1 + 1 } :: predict fmt num_real (realnum + 1) parts
    else { part with realnum := realnum + 1 } :: predict fmt num_real (realnum + 1) parts

/-- `'%0*d' % (width, n)`, in a base. -/
def zero_padded (base width n : Nat) : Text :=
  let digits := Nat.toDigits base n
  List.replicate (width - digits.length) '0' ++ digits

/-- The UUID of a partition that asks for one. A GPT takes a random one. -/
def generate_uuid (fmt : Ptable) (identifier : Nat) (uuid4 : Text) (part : Partition) : Partition :=
  if !truthy part.uuid && part.use_uuid then
    if fmt = .gpt ∨ fmt = .gpt_hybrid then { part with uuid := some uuid4 }
    else { part with uuid := some (zero_padded 16 8 identifier ++ '-' :: zero_padded 10 2 part.realnum) }
  else part

def rjust_8 (s : Text) : Text := List.replicate (8 - s.length) '0' ++ s

/-- The UUID of the file system. That of a FAT has eight digits. -/
def generate_fsuuid (uuid4 : Text) (part : Partition) : Partition :=
  let fat : Bool := part.fstype = text "vfat" ∨ part.fstype = text "msdos"
  if !truthy part.fsuuid then
    { part with fsuuid := some (if fat then text "0x" ++ (uuid4.take 8).map Char.toUpper else uuid4) }
  else if fat then
    let upper := (part.fsuuid.getD []).map Char.toUpper
    { part with fsuuid := some (text "0x" ++
        if (text "0X").isPrefixOf upper then rjust_8 (upper.drop 2) else rjust_8 upper) }
  else part

/-- `PartitionedImage.__init__`, for one identifier of the disk and the random UUIDs. -/
def PartitionedImage.init (path : Text) (fmt : Ptable) (partitions : List Partition) (extra_space : Nat)
    (identifier : Nat) (uuid4 fs_uuid4 : Nat → Text) : PartitionedImage where
  path
  numpart := 0
  realpart := 0
  primary_part_num := 0
  extendedpart := 0
  extended_size_sec := 0
  logical_part_cnt := 0
  offset := 0
  min_size := 0
  ptable_format := fmt
  identifier
  partitions := (predict fmt (num_real_partitions partitions) 0 partitions).mapIdx fun i part =>
    generate_fsuuid (fs_uuid4 i) (generate_uuid fmt identifier (uuid4 i) part)
  extra_space

/-! ## The layout -/

/-- What `layout_partitions` refuses before it looks at the offset. -/
def refuse (fmt : Ptable) (part : Partition) : Except Text Unit :=
  if fmt = .msdos ∧ truthy part.part_name then
    .error (text "setting custom partition name is not implemented for msdos partitions")
  else if fmt = .msdos ∧ truthy part.part_type then
    .error (text "setting custom partition type is not implemented for msdos partitions")
  else if part.mbr ∧ fmt ≠ .gpt_hybrid then
    .error (text "Partition may only be included in MBR with a gpt-hybrid partition table")
  else .ok ()

def overhead : Ptable → Nat
  | .msdos => MBR_OVERHEAD
  | .gpt | .gpt_hybrid => GPT_OVERHEAD

/-- The partition is counted. Before the first one the offset goes over the table. -/
def count (img : PartitionedImage) (part : Partition) : PartitionedImage :=
  let numpart := img.numpart + 1
  { img with
    numpart
    realpart := if part.no_table then img.realpart else img.realpart + 1
    offset := if numpart = 1 then img.offset + overhead img.ptable_format else img.offset }

/-- The rest of an msdos table is logical once the primary partitions are used up, or
once there is only one left for the extended partition. -/
def settle_type (num_real : Nat) (img : PartitionedImage) (part : Partition) : Partition :=
  if img.ptable_format = .msdos ∧ (img.primary_part_num > 3 ∨
      img.extendedpart = 0 ∧ img.primary_part_num ≥ 3 ∧ num_real > 4) then
    { part with type := .logical }
  else part

/-- The sectors for the EBR of a logical partition. -/
def ebr (fmt : Ptable) (part : Partition) : Nat :=
  if fmt = .msdos ∧ part.type = .logical then 2 else 0

/-- How far the offset moves on for the alignment. An alignment of zero is none. -/
def align_sectors (part : Partition) (offset : Nat) : Nat :=
  match part.align with
  | none => 0
  | some align =>
    if align = 0 then 0
    else
      let off := offset % (align * 1024 / SECTOR_SIZE)
      if off ≠ 0 then align * 1024 / SECTOR_SIZE - off else off

/-- The first sector of the partition: the one it asks for, or the offset. -/
def seek (numpart : Nat) (part : Partition) (offset : Nat) : Except Text Nat :=
  match part.offset with
  | none => .ok offset
  | some bytes =>
    let sector := bytes / (SECTOR_SIZE : Int)
    let delta := sector - offset
    if sector * SECTOR_SIZE ≠ bytes then
      .error (text "Could not place " ++ part.disk ++ text s!"{numpart} at offset {bytes} with sector size {SECTOR_SIZE}")
    else if delta < 0 then
      .error (text "Could not place " ++ part.disk ++
        text s!"{numpart} at offset {bytes}: next free sector is {offset} (delta: {delta})")
    else .ok sector.toNat

def assign (img : PartitionedImage) (part : Partition) (aligned start : Nat) : PartitionedImage × Placed :=
  if img.ptable_format = .msdos ∧ !part.no_table then
    if part.type = .logical then
      let logical_part_cnt := img.logical_part_cnt + 1
      let num := logical_part_cnt + 4
      let img :=
        if img.extendedpart = 0 then
          { img with logical_part_cnt, primary_part_num := img.primary_part_num + 1, extendedpart := num }
        else { img with logical_part_cnt, extended_size_sec := img.extended_size_sec + aligned }
      ({ img with extended_size_sec := img.extended_size_sec + (part.size_sec + 2) },
        { part with start, num })
    else
      let primary_part_num := img.primary_part_num + 1
      ({ img with primary_part_num }, { part with start, num := primary_part_num })
  else (img, { part with start, num := if part.no_table then 0 else img.realpart })

def layout_part (num_real : Nat) (img : PartitionedImage) (part : Partition) :
    Except Text (PartitionedImage × Placed) := do
  refuse img.ptable_format part
  let img := count img part
  let part := settle_type num_real img part
  let offset := img.offset + ebr img.ptable_format part
  let aligned := align_sectors part offset
  let start ← seek img.numpart part (offset + aligned)
  return assign { img with offset := start + part.size_sec } part aligned start

def layout_loop (num_real : Nat) :
    PartitionedImage → List Partition → Except Text (PartitionedImage × List Placed)
  | img, [] => return (img, [])
  | img, part :: parts => do
    let (img, placed) ← layout_part num_real img part
    let (img, rest) ← layout_loop num_real img parts
    return (img, placed :: rest)

/-- `layout_partitions`: the sectors and the number of each partition, or the text of
the `WicError`. -/
def layout_partitions (img : PartitionedImage) : Except Text (PartitionedImage × List Placed) := do
  let (img, placed) ← layout_loop (num_real_partitions img.partitions) img img.partitions
  let min_size := img.offset + match img.ptable_format with
    | .msdos => 0
    | .gpt | .gpt_hybrid => GPT_OVERHEAD
  return ({ img with min_size := min_size * SECTOR_SIZE + img.extra_space }, placed)

/-! ## The partition table -/

inductive Command where
  | make_disk (device label : Text) (min_size : Nat)
  | write_identifier (device : Text) (identifier : Nat)
  | disk_id (device guid : Text)
  /-- `parted mkpart`, from `start` on, `size` sectors. -/
  | create_partition (device parttype : Text) (fstype : Option Text) (start size : Nat)
  | change_name (device : Text) (num : Nat) (name : Text)
  | typecode (device : Text) (num : Nat) (part_type : Text)
  | partition_guid (device : Text) (num : Nat) (uuid : Text)
  | set_flag (device : Text) (num : Nat) (flag : Text)
  | part_type (device : Text) (num : Nat) (system_id : Text)
  | part_attrs (device : Text) (num : Nat) (attrs : Text)
  | copy_mbr (source device : Text)

def Ptable.is_gpt : Ptable → Bool
  | .msdos => false
  | .gpt | .gpt_hybrid => true

/-- `mklabel` of the image: a hybrid table is a GPT. -/
def Ptable.label : Ptable → Text
  | .msdos => text "msdos"
  | .gpt | .gpt_hybrid => text "gpt"

def PartType.name : PartType → Text
  | .primary => text "primary"
  | .logical => text "logical"

def mbr_path (img : PartitionedImage) : Text := img.path ++ text ".mbr"

def parted_fs_type (fstype : Text) : Text :=
  if fstype = text "swap" then text "linux-swap"
  else if fstype = text "vfat" then text "fat32"
  else if fstype = text "msdos" then text "fat16"
  else text "ext2"

/-- A boot partition with FAT takes an even number of sectors. -/
def even_sectors (part : Placed) : Placed :=
  if part.mountpoint = some (text "/boot") ∧ (part.fstype = text "vfat" ∨ part.fstype = text "msdos") ∧
      part.size_sec % 2 ≠ 0 then
    { part with size_sec := part.size_sec - 1 }
  else part

/-- A FAT16 partition without a system id takes 0x6. -/
def fat16_id (part : Placed) : Placed :=
  if part.fstype = text "msdos" ∧ !truthy part.system_id then { part with system_id := some (text "0x6") }
  else part

/-- The extended partition, which is made before the first logical one. -/
def create_extended (img : PartitionedImage) (part : Placed) : List Command :=
  if img.ptable_format = .msdos ∧ part.num = img.extendedpart then
    [.create_partition img.path (text "extended") none (part.start - 2) img.extended_size_sec]
  else []

/-- A partition of a hybrid table that is in the MBR too, and how many these are. -/
def create_hybrid (img : PartitionedImage) (hybrid_mbr_part_num : Nat) (part : Placed) :
    Except Text (Nat × List Command) :=
  if img.ptable_format = .gpt_hybrid ∧ part.mbr then
    if hybrid_mbr_part_num + 1 > 4 then
      .error (text "Extended MBR partitions are not supported in hybrid MBR")
    else .ok (hybrid_mbr_part_num + 1, [.create_partition (mbr_path img) (text "primary")
      (some (parted_fs_type part.fstype)) part.start part.size_sec])
  else .ok (hybrid_mbr_part_num, [])

def describe (img : PartitionedImage) (hybrid_mbr_part_num : Nat) (part : Placed) : List Command :=
  let gpt := img.ptable_format.is_gpt
  let name := if truthy part.part_name then part.part_name else part.label
  let names : List Command :=
    if gpt && truthy name then [.change_name img.path part.num (name.getD [])] else []
  let types : List Command :=
    if truthy part.part_type then [.typecode img.path part.num (part.part_type.getD [])] else []
  let guids : List Command :=
    if truthy part.uuid && gpt then [.partition_guid img.path part.num (part.uuid.getD [])] else []
  let flags : List Command :=
    if part.active then [.set_flag img.path part.num (if gpt then text "legacy_boot" else text "boot")] else []
  let mbr_flags : List Command :=
    if part.active && img.ptable_format = .gpt_hybrid && part.mbr then
      [.set_flag (mbr_path img) hybrid_mbr_part_num (text "boot")]
    else []
  let ids : List Command :=
    if truthy part.system_id then [.part_type img.path part.num (part.system_id.getD [])] else []
  let attrs : List Command :=
    if part.hidden && img.ptable_format = .gpt then
      [.part_attrs img.path part.num (text "RequiredPartition")]
    else []
  names ++ types ++ guids ++ flags ++ mbr_flags ++ ids ++ attrs

/-- One turn of the loop of `create`. A partition outside of the table is left out. -/
def create_part (img : PartitionedImage) (hybrid_mbr_part_num : Nat) (part : Placed) :
    Except Text (Nat × List Command) :=
  if part.num = 0 then .ok (hybrid_mbr_part_num, [])
  else do
    let extended := create_extended img part
    let part := even_sectors (fat16_id part)
    let created : Command := .create_partition img.path part.type.name (some (parted_fs_type part.fstype))
      part.start part.size_sec
    let (hybrid_mbr_part_num, hybrid) ← create_hybrid img hybrid_mbr_part_num part
    return (hybrid_mbr_part_num, extended ++ created :: hybrid ++ describe img hybrid_mbr_part_num part)

def create_loop (img : PartitionedImage) : Nat → List Placed → Except Text (Nat × List Command)
  | hybrid_mbr_part_num, [] => return (hybrid_mbr_part_num, [])
  | hybrid_mbr_part_num, part :: parts => do
    let (hybrid_mbr_part_num, commands) ← create_part img hybrid_mbr_part_num part
    let (hybrid_mbr_part_num, rest) ← create_loop img hybrid_mbr_part_num parts
    return (hybrid_mbr_part_num, commands ++ rest)

/-- The protective partition of a hybrid table, and its way into the image. -/
def protect (img : PartitionedImage) (hybrid_mbr_part_num : Nat) : Except Text (List Command) :=
  if img.ptable_format = .gpt_hybrid then
    if hybrid_mbr_part_num + 1 > 4 then
      .error (text "Extended MBR partitions are not supported in hybrid MBR")
    else .ok [.create_partition (mbr_path img) (text "primary") (some (text "fat32")) 1 GPT_OVERHEAD,
      .part_type (mbr_path img) (hybrid_mbr_part_num + 1) (text "0xee"), .copy_mbr (mbr_path img) img.path]
  else .ok []

/-- `create`, for partitions that are laid out: the commands it runs. -/
def create (img : PartitionedImage) (disk_guid : Text) (parts : List Placed) : Except Text (List Command) := do
  let disk := [.make_disk img.path img.ptable_format.label img.min_size,
    .write_identifier img.path img.identifier] ++
    (if img.ptable_format.is_gpt then [.disk_id img.path disk_guid] else []) ++
    (if img.ptable_format = .gpt_hybrid then
      [.make_disk (mbr_path img) (text "msdos") img.min_size,
        .write_identifier (mbr_path img) img.identifier]
    else [])
  let (hybrid_mbr_part_num, commands) ← create_loop img 0 parts
  let hybrid ← protect img hybrid_mbr_part_num
  return disk ++ commands ++ hybrid

/-! ## The types of the table -/

def in_table (parts : List Partition) : List Partition := parts.filter fun part => !part.no_table

/-- The types that the partitions of the table ask for. -/
def table_types (parts : List Partition) : List PartType := (in_table parts).map Partition.type

theorem num_real_eq (parts : List Partition) :
    num_real_partitions parts = (table_types parts).length := by
  simp [num_real_partitions, table_types, in_table]

theorem types_cons_outside {part : Partition} {parts : List Partition}
    (hno : part.no_table = true) : table_types (part :: parts) = table_types parts := by
  simp [table_types, in_table, hno]

theorem types_cons_table {part : Partition} {parts : List Partition}
    (hno : part.no_table = false) : table_types (part :: parts) = part.type :: table_types parts := by
  simp [table_types, in_table, hno]

/-! ## What one turn of the layout does -/

section Turn

variable {num_real : Nat} {img img' : PartitionedImage} {part : Partition} {placed : Placed}

/-- The offset that `part` finds, with the sectors of its EBR. -/
def free_sector (num_real : Nat) (img : PartitionedImage) (part : Partition) : Nat :=
  (count img part).offset + ebr img.ptable_format (settle_type num_real img part)

theorem layout_part_ok (h : layout_part num_real img part = .ok (img', placed)) :
    let settled := settle_type num_real img part
    let aligned := align_sectors settled (free_sector num_real img part)
    ∃ start, seek (img.numpart + 1) settled (free_sector num_real img part + aligned) = .ok start ∧
      assign { count img part with offset := start + settled.size_sec } settled aligned start =
        (img', placed) := by
  unfold layout_part at h
  obtain ⟨_, -, h⟩ := bind_ok h
  obtain ⟨start, hstart, h⟩ := bind_ok h
  exact ⟨start, hstart, Except.ok.inj h⟩

@[simp] theorem settled_no_table : (settle_type num_real img part).no_table = part.no_table := by
  unfold settle_type
  split <;> rfl

@[simp] theorem settled_realnum : (settle_type num_real img part).realnum = part.realnum := by
  unfold settle_type
  split <;> rfl

@[simp] theorem settled_size : (settle_type num_real img part).size_sec = part.size_sec := by
  unfold settle_type
  split <;> rfl

theorem placed_settings (h : layout_part num_real img part = .ok (img', placed)) :
    placed.toPartition = settle_type num_real img part := by
  obtain ⟨start, -, h⟩ := layout_part_ok h
  unfold assign at h
  split_ifs at h
  all_goals
    obtain ⟨-, rfl⟩ := Prod.mk.inj h
    rfl

theorem placed_start (h : layout_part num_real img part = .ok (img', placed)) :
    seek (img.numpart + 1) (settle_type num_real img part) (free_sector num_real img part +
      align_sectors (settle_type num_real img part) (free_sector num_real img part)) =
        .ok placed.start := by
  obtain ⟨start, hstart, h⟩ := layout_part_ok h
  unfold assign at h
  split_ifs at h
  all_goals
    obtain ⟨-, rfl⟩ := Prod.mk.inj h
    exact hstart

theorem next_offset (h : layout_part num_real img part = .ok (img', placed)) :
    img'.offset = placed.start + part.size_sec ∧ img'.ptable_format = img.ptable_format ∧
      img'.numpart = img.numpart + 1 ∧
      img'.realpart = (if part.no_table then img.realpart else img.realpart + 1) := by
  obtain ⟨start, -, h⟩ := layout_part_ok h
  unfold assign at h
  split_ifs at h
  all_goals
    obtain ⟨rfl, rfl⟩ := Prod.mk.inj h
    simp [count]

theorem number_plain (h : layout_part num_real img part = .ok (img', placed))
    (hplain : img.ptable_format ≠ .msdos ∨ part.no_table = true) :
    placed.num = (if part.no_table then 0 else img.realpart + 1) ∧
      img'.primary_part_num = img.primary_part_num ∧ img'.extendedpart = img.extendedpart ∧
      img'.logical_part_cnt = img.logical_part_cnt ∧ img'.extended_size_sec = img.extended_size_sec := by
  obtain ⟨start, -, h⟩ := layout_part_ok h
  have hcond : ¬(img.ptable_format = .msdos ∧ (!part.no_table) = true) := by
    rintro ⟨hfmt, htable⟩
    rcases hplain with hplain | hplain
    · exact hplain hfmt
    · simp [hplain] at htable
  rw [assign, if_neg (by simpa [count] using hcond)] at h
  obtain ⟨rfl, rfl⟩ := Prod.mk.inj h
  refine ⟨?_, rfl, rfl, rfl, rfl⟩
  cases hno : part.no_table <;> simp [count, hno]

theorem number_primary (h : layout_part num_real img part = .ok (img', placed))
    (hfmt : img.ptable_format = .msdos) (htable : part.no_table = false)
    (htype : (settle_type num_real img part).type = .primary) :
    placed.num = img.primary_part_num + 1 ∧
      img'.primary_part_num = img.primary_part_num + 1 ∧ img'.extendedpart = img.extendedpart ∧
      img'.logical_part_cnt = img.logical_part_cnt ∧ img'.extended_size_sec = img.extended_size_sec := by
  obtain ⟨start, -, h⟩ := layout_part_ok h
  rw [assign, if_pos (by simp [count, hfmt, htable]), if_neg (by simp [htype])] at h
  obtain ⟨rfl, rfl⟩ := Prod.mk.inj h
  exact ⟨rfl, rfl, rfl, rfl, rfl⟩

theorem number_first_logical (h : layout_part num_real img part = .ok (img', placed))
    (hfmt : img.ptable_format = .msdos) (htable : part.no_table = false)
    (htype : (settle_type num_real img part).type = .logical) (hfirst : img.extendedpart = 0) :
    placed.num = img.logical_part_cnt + 5 ∧
      img'.primary_part_num = img.primary_part_num + 1 ∧ img'.extendedpart = placed.num ∧
      img'.logical_part_cnt = img.logical_part_cnt + 1 ∧
      img'.extended_size_sec = img.extended_size_sec + (part.size_sec + 2) := by
  obtain ⟨start, -, h⟩ := layout_part_ok h
  rw [assign, if_pos (by simp [count, hfmt, htable]), if_pos htype] at h
  have hcount : (count img part).extendedpart = 0 := hfirst
  obtain ⟨rfl, rfl⟩ := Prod.mk.inj h
  simp only [if_pos hcount]
  simp [count]

theorem number_later_logical (h : layout_part num_real img part = .ok (img', placed))
    (hfmt : img.ptable_format = .msdos) (htable : part.no_table = false)
    (htype : (settle_type num_real img part).type = .logical) (hlater : img.extendedpart ≠ 0) :
    placed.num = img.logical_part_cnt + 5 ∧
      img'.primary_part_num = img.primary_part_num ∧ img'.extendedpart = img.extendedpart ∧
      img'.logical_part_cnt = img.logical_part_cnt + 1 ∧
      img'.extended_size_sec = img.extended_size_sec +
        align_sectors (settle_type num_real img part) (free_sector num_real img part) +
        (part.size_sec + 2) := by
  obtain ⟨start, -, h⟩ := layout_part_ok h
  rw [assign, if_pos (by simp [count, hfmt, htable]), if_pos htype] at h
  have hcount : (count img part).extendedpart ≠ 0 := hlater
  obtain ⟨rfl, rfl⟩ := Prod.mk.inj h
  simp only [if_neg hcount]
  simp [count]

theorem layout_loop_cons {parts : List Partition} {row : List Placed}
    (h : layout_loop num_real img (part :: parts) = .ok (img', row)) :
    ∃ next placed rest, layout_part num_real img part = .ok (next, placed) ∧
      layout_loop num_real next parts = .ok (img', rest) ∧ row = placed :: rest := by
  unfold layout_loop at h
  obtain ⟨⟨next, placed⟩, hturn, h⟩ := bind_ok h
  obtain ⟨⟨last, rest⟩, hrest, h⟩ := bind_ok h
  obtain ⟨rfl, rfl⟩ := Prod.mk.inj (Except.ok.inj h)
  exact ⟨next, placed, rest, hturn, hrest, rfl⟩

theorem layout_loop_nil {row : List Placed} (h : layout_loop num_real img [] = .ok (img', row)) :
    img' = img ∧ row = [] := by
  obtain ⟨rfl, rfl⟩ := Prod.mk.inj (Except.ok.inj h)
  exact ⟨rfl, rfl⟩

end Turn

theorem layout_partitions_ok {img img' : PartitionedImage} {row : List Placed}
    (h : layout_partitions img = .ok (img', row)) :
    ∃ last, layout_loop (num_real_partitions img.partitions) img img.partitions = .ok (last, row) ∧
      img' = { last with min_size := (last.offset + match last.ptable_format with
        | .msdos => 0
        | .gpt | .gpt_hybrid => GPT_OVERHEAD) * SECTOR_SIZE + last.extra_space } := by
  unfold layout_partitions at h
  obtain ⟨⟨last, placed⟩, hloop, h⟩ := bind_ok h
  obtain ⟨rfl, rfl⟩ := Prod.mk.inj (Except.ok.inj h)
  exact ⟨last, hloop, rfl⟩

/-! ## A small image -/

def eight_sectors (type : PartType) (no_table : Bool) : Partition where
  disk := text "sda"
  mountpoint := none
  fstype := text "ext4"
  label := none
  no_table
  type
  align := none
  offset := none
  size_sec := 8
  part_name := none
  part_type := none
  system_id := none
  mbr := false
  active := false
  hidden := false
  uuid := none
  fsuuid := none
  use_uuid := false
  use_label := false
  fsopts := none
  fspassno := none
  realnum := 0

/-- An image with an msdos table. -/
def small_image (parts : List Partition) : PartitionedImage :=
  PartitionedImage.init (text "image") .msdos parts 0 1 (fun _ => []) fun _ => []

end yocto.wic_layout
