-- `sparse_copy` of filemap.py: the ranges of data of a file are copied in chunks of one MiB
-- into another file, between an offset in the one and an offset in the other.
import Yocto.FileMap
import Yocto.Overwrite
import Yocto.Raising

open yocto.extents
open yocto.file_map
open yocto.overwrite
open yocto.raising

namespace yocto.sparse_files

/-! ## The code -/

def MiB : Nat := 1024 * 1024

/-- `chunk_size`: as before, or what is left to read. -/
def next_size (to_read read chunk_size : Nat) : Nat :=
  if read + chunk_size > to_read then to_read - read else chunk_size

/-- `size`: the size of the chunk, or what is left to write. -/
def capped (length written chunk_size : Nat) : Nat :=
  if length ≠ 0 ∧ written + chunk_size > length then length - written else chunk_size

theorem next_size_pos {to_read read chunk_size : Nat} (hread : read < to_read) (hchunk : 0 < chunk_size) :
    0 < next_size to_read read chunk_size := by
  unfold next_size
  split <;> omega

theorem capped_pos {length written chunk_size : Nat} (hroom : length = 0 ∨ written < length)
    (hchunk : 0 < chunk_size) : 0 < capped length written chunk_size := by
  unfold capped
  split <;> omega

theorem room_after {length written chunk_size : Nat} (hroom : length = 0 ∨ written < length)
    (hdone : ¬written + capped length written chunk_size = length) :
    length = 0 ∨ written + capped length written chunk_size < length := by
  unfold capped at hdone ⊢
  split_ifs at hdone ⊢ <;> omega

theorem next_size_le {to_read read chunk_size : Nat} : next_size to_read read chunk_size ≤ to_read - read := by
  unfold next_size
  split <;> omega

theorem capped_le {length written chunk_size : Nat} : capped length written chunk_size ≤ chunk_size := by
  unfold capped
  split <;> omega

/-- The inner loop of `sparse_copy`, with the positions of both files: the destination, the bytes that
are written and whether that ended the copy. -/
def copy_chunks (src : List UInt8) (length to_read read chunk_size pos : Nat) (dst : List UInt8)
    (dst_pos written : Nat) (hchunk : 0 < chunk_size) (hroom : length = 0 ∨ written < length) :
    List UInt8 × Nat × Bool :=
  if hread : read < to_read then
    have hnext := next_size_pos hread hchunk
    have := capped_pos hroom hnext
    let chunk_size := next_size to_read read chunk_size
    let size := capped length written chunk_size
    let chunk := (src.drop pos).take size
    let dst := write 0 dst dst_pos chunk
    if hdone : written + size = length then (dst, written + size, true)
    else
      copy_chunks src length to_read (read + size) chunk_size (pos + chunk.length) dst
        (dst_pos + chunk.length) (written + size) hnext (room_after hroom hdone)
  else (dst, written, false)
termination_by to_read - read
decreasing_by omega

/-- The loop of `sparse_copy` over the ranges. A range that ends before what is skipped is left out, one
that starts after the length ends the copy. -/
def copy_ranges (img : Image) (skip seek length : Nat) : Int → List UInt8 → List BlockRange → List UInt8
  | _, dst, [] => dst
  | written, dst, r :: ranges =>
    let start := r.first * img.block_size
    let stop := ((r.last + 1) * img.block_size).toNat
    if skip ≥ stop then copy_ranges img skip seek length written dst ranges
    else
      let start := if start < skip ∧ skip < stop then skip else start
      let written := (written + (start - skip - written)).toNat
      if hend : length ≠ 0 ∧ written ≥ length then dst
      else
        let (dst, written, done) := copy_chunks img.bytes length (stop - start) 0 MiB start dst
          (seek + start - skip) written (by decide) (by omega)
        if done then dst else copy_ranges img skip seek length written dst ranges

/-- The bytes of the destination before the copy. Without the file one is made of the final size. -/
def destination (img : Image) (dst : Option (List UInt8)) (skip seek length : Nat) : List UInt8 :=
  match dst with
  | some bytes => bytes
  | none => List.replicate (if length ≠ 0 then length + seek else img.image_size + seek - skip) 0

/-- `sparse_copy`: the bytes of the destination. -/
def sparse_copy (fmap : Filemap) (img : Image) (dst : Option (List UInt8)) (skip seek length : Nat) :
    Except Raised (List UInt8) := do
  let ranges ← get_mapped_ranges fmap img 0 img.blocks_cnt
  return copy_ranges img skip seek length 0 (destination img dst skip seek length) ranges

/-! ## One range -/

def copied (length left written : Nat) : Nat := if length = 0 then left else min left (length - written)

theorem copy_chunks_eq (src : List UInt8) (length to_read read chunk_size pos : Nat) (dst : List UInt8)
    (dst_pos written : Nat) (hchunk : 0 < chunk_size) (hroom : length = 0 ∨ written < length) :
    copy_chunks src length to_read read chunk_size pos dst dst_pos written hchunk hroom =
      (write 0 dst dst_pos ((src.drop pos).take (copied length (to_read - read) written)),
        written + copied length (to_read - read) written,
        decide (length ≠ 0 ∧ written + copied length (to_read - read) written = length)) := by
  fun_induction copy_chunks with
  | case1 read chunk_size pos dst dst_pos written hchunk hroom hread hnext hpos chunk_size' size chunk dst'
      hdone =>
    have hle : size ≤ to_read - read := capped_le.trans next_size_le
    have hpos : 0 < size := hpos
    have hsize : copied length (to_read - read) written = size := by
      unfold copied
      split <;> omega
    have hlength : length ≠ 0 := by omega
    rw [hsize]
    simp [hdone, hlength, dst', chunk]
  | case2 read chunk_size pos dst dst_pos written hchunk hroom hread hnext hpos chunk_size' size chunk dst'
      hdone ih =>
    have hle : size ≤ to_read - read := capped_le.trans next_size_le
    have hpos : 0 < size := hpos
    have hroom' : length = 0 ∨ written + size < length := room_after hroom hdone
    have hsize : copied length (to_read - read) written =
        size + copied length (to_read - (read + size)) (written + size) := by
      unfold copied
      split <;> omega
    rw [ih, hsize, ← Nat.add_assoc]
    simp only [dst', chunk, write_write, read_append]
  | case3 read chunk_size pos dst dst_pos written hchunk hroom hread =>
    have hzero : copied length (to_read - read) written = 0 := by
      unfold copied
      split <;> omega
    rw [hzero, List.take_zero, write_nil, Nat.add_zero]
    simp only [Prod.mk.injEq, true_and]
    exact (decide_eq_false (by omega)).symm

/-! ## All ranges -/

section Ranges

variable {img : Image} {skip seek length : Nat}

/-- How many bytes are asked for. No length is up to the end of the file. -/
def asked (img : Image) (skip length : Nat) : Nat := if length = 0 then img.image_size - skip else length

/-- The byte is in a range. -/
def InRanges (img : Image) (ranges : List BlockRange) (pos : Nat) : Prop :=
  ∃ r ∈ ranges, pos / img.block_size ∈ r.blocks.sectors

/-- What the destination holds once some bytes of the source are copied into it. -/
structure CopiedInto (img : Image) (skip seek length : Nat) (copied : Nat → Prop)
    (dst dst' : List UInt8) : Prop where
  length_eq : dst'.length = dst.length
  inside : ∀ i < asked img skip length, copied (skip + i) → dst'[seek + i]? = img.bytes[skip + i]?
  kept : ∀ i < asked img skip length, ¬copied (skip + i) → dst'[seek + i]? = dst[seek + i]?
  outside : ∀ j, j < seek ∨ seek + asked img skip length ≤ j → dst'[j]? = dst[j]?

theorem CopiedInto.refl {copied : Nat → Prop} (dst : List UInt8)
    (hnone : ∀ i < asked img skip length, ¬copied (skip + i)) :
    CopiedInto img skip seek length copied dst dst :=
  ⟨rfl, fun i hi h => absurd h (hnone i hi), fun _ _ _ => rfl, fun _ _ => rfl⟩

theorem CopiedInto.trans {first second both : Nat → Prop} {dst dst₁ dst₂ : List UInt8}
    (h : CopiedInto img skip seek length first dst dst₁) (h' : CopiedInto img skip seek length second dst₁ dst₂)
    (hboth : ∀ i < asked img skip length, both (skip + i) ↔ first (skip + i) ∨ second (skip + i)) :
    CopiedInto img skip seek length both dst dst₂ := by
  refine ⟨h'.length_eq.trans h.length_eq, fun i hi hin => ?_, fun i hi hout => ?_, fun j hj => ?_⟩
  · by_cases hsecond : second (skip + i)
    · exact h'.inside i hi hsecond
    · rw [h'.kept i hi hsecond]
      exact h.inside i hi (((hboth i hi).mp hin).resolve_right hsecond)
  · rw [hboth i hi, not_or] at hout
    rw [h'.kept i hi hout.2, h.kept i hi hout.1]
  · rw [h'.outside j hj, h.outside j hj]

theorem write_copies {start left : Nat} {dst : List UInt8} (hskip : skip ≤ start)
    (hsource : skip + asked img skip length ≤ img.image_size)
    (hdst : asked img skip length = 0 ∨ seek + asked img skip length ≤ dst.length)
    (hroom : length = 0 ∨ start - skip < length) :
    CopiedInto img skip seek length (fun pos => start ≤ pos ∧ pos < start + left) dst
      (write 0 dst (seek + start - skip) ((img.bytes.drop start).take (copied length left (start - skip)))) := by
  have hlen : ((img.bytes.drop start).take (copied length left (start - skip))).length =
      min (copied length left (start - skip)) (img.image_size - start) := by
    rw [List.length_take, List.length_drop]
    rfl
  by_cases hempty : (img.bytes.drop start).take (copied length left (start - skip)) = []
  · rw [hempty, write_nil]
    rw [hempty, List.length_nil] at hlen
    apply CopiedInto.refl
    intro i hi hrange
    unfold asked at hi hsource
    unfold copied at hlen
    split at hlen <;> simp_all <;> omega
  · have hpos := List.length_pos_iff.mpr hempty
    have hcopied : seek + start - skip +
        ((img.bytes.drop start).take (copied length left (start - skip))).length ≤ dst.length := by
      rw [hlen] at hpos ⊢
      unfold asked at hsource hdst
      unfold copied at hpos ⊢
      split at hsource <;> simp_all <;> omega
    have hrange : ∀ i < asked img skip length, start ≤ skip + i → skip + i < start + left →
        i - (start - skip) < min (copied length left (start - skip)) (img.image_size - start) := by
      intro i hi hle hlt
      unfold asked at hi hsource
      unfold copied
      split at hi <;> simp_all <;> omega
    refine ⟨length_write hcopied, fun i hi hin => ?_, fun i hi hout => ?_, fun j hj => ?_⟩
    · have hlt := hrange i hi hin.1 hin.2
      rw [write_getElem? hcopied, hlen, if_pos (by omega), List.getElem?_take_of_lt (by omega),
        List.getElem?_drop]
      congr 1
      omega
    · rw [write_getElem? hcopied, hlen, if_neg]
      rintro ⟨hlow, hhigh⟩
      refine hout ⟨by omega, ?_⟩
      unfold copied at hhigh
      split at hhigh <;> omega
    · rw [write_getElem? hcopied, if_neg]
      rintro ⟨hlow, hhigh⟩
      rw [hlen] at hpos hhigh
      unfold asked at hj hsource
      unfold copied at hpos hhigh
      split at hj <;> simp_all <;> omega

/-! ## The run over the ranges -/

theorem mem_range_iff {pos : Nat} {r : BlockRange} (hproper : (r.first : Int) ≤ r.last + 1) :
    pos / img.block_size ∈ r.blocks.sectors ↔
      r.first * img.block_size ≤ pos ∧ pos < ((r.last + 1) * img.block_size).toNat := by
  have hpos := img.block_pos
  obtain ⟨stop, hstop⟩ : ∃ stop : Nat, r.last + 1 = stop := ⟨(r.last + 1).toNat, by omega⟩
  have hmem : pos / img.block_size ∈ r.blocks.sectors ↔
      r.first ≤ pos / img.block_size ∧ pos / img.block_size < stop := by
    rw [mem_blocks]
    omega
  have hbytes : ((stop : Int) * img.block_size).toNat = stop * img.block_size := by
    rw [← Int.natCast_mul, Int.toNat_natCast]
  rw [hmem, hstop, hbytes, Nat.le_div_iff_mul_le hpos, Nat.div_lt_iff_lt_mul hpos]

theorem le_of_later {lo hi pos : Nat} {r : BlockRange} {ranges : List BlockRange}
    (hlaid : Laid lo ((r :: ranges).map BlockRange.blocks) hi) (hproper : (r.first : Int) ≤ r.last + 1)
    (hin : InRanges img ranges pos) : ((r.last + 1) * img.block_size).toNat ≤ pos := by
  obtain ⟨r', hr', hmem⟩ := hin
  have hafter := (hlaid.2.within (List.mem_map_of_mem hr')).1
  have hfirst : r'.first ≤ pos / img.block_size := (mem_blocks.mp hmem).1
  have hstart : r'.blocks.start = r'.first := rfl
  have hstop : r.last + 1 ≤ (pos / img.block_size : Nat) := by
    simp only [BlockRange.blocks, Extent.stop] at hafter
    omega
  have hbytes : (r.last + 1) * img.block_size ≤ (pos : Int) := calc
    (r.last + 1) * img.block_size ≤ (pos / img.block_size : Nat) * (img.block_size : Int) :=
      Int.mul_le_mul_of_nonneg_right hstop (Int.natCast_nonneg _)
    _ = ((pos / img.block_size * img.block_size : Nat) : Int) := (Int.natCast_mul _ _).symm
    _ ≤ pos := Int.ofNat_le.mpr (Nat.div_mul_le_self _ _)
  omega

theorem copy_ranges_copies {ranges : List BlockRange} {lo hi : Nat} {written : Int} {dst : List UInt8}
    (hlaid : Laid lo (ranges.map BlockRange.blocks) hi)
    (hproper : ∀ r ∈ ranges, (r.first : Int) ≤ r.last + 1)
    (hsource : skip + asked img skip length ≤ img.image_size)
    (hdst : asked img skip length = 0 ∨ seek + asked img skip length ≤ dst.length) :
    CopiedInto img skip seek length (InRanges img ranges) dst
      (copy_ranges img skip seek length written dst ranges) := by
  induction ranges generalizing lo written dst with
  | nil => exact .refl dst fun i _ hin => by simp [InRanges] at hin
  | cons r ranges ih =>
    rw [List.forall_mem_cons] at hproper
    have hlater : ∀ pos, InRanges img ranges pos → ((r.last + 1) * img.block_size).toNat ≤ pos :=
      fun pos => le_of_later hlaid hproper.1
    have hrange : ∀ pos, pos / img.block_size ∈ r.blocks.sectors ↔
        r.first * img.block_size ≤ pos ∧ pos < ((r.last + 1) * img.block_size).toNat :=
      fun pos => mem_range_iff hproper.1
    have hsplit : ∀ pos, InRanges img (r :: ranges) pos ↔
        pos / img.block_size ∈ r.blocks.sectors ∨ InRanges img ranges pos := by
      intro pos
      simp [InRanges]
    have hnonempty : r.first * img.block_size ≤ ((r.last + 1) * img.block_size).toNat := by
      have := Int.mul_le_mul_of_nonneg_right hproper.1 (Int.natCast_nonneg img.block_size)
      rw [← Int.natCast_mul] at this
      omega
    unfold copy_ranges
    simp only [copy_chunks_eq, Nat.sub_zero]
    generalize ((r.last + 1) * img.block_size).toNat = stop at hlater hrange hnonempty ⊢
    generalize r.first * img.block_size = first at hrange hnonempty ⊢
    split
    · -- all of the range is skipped
      rename_i hskip
      have hnone : ∀ i < asked img skip length, ¬(skip + i) / img.block_size ∈ r.blocks.sectors := by
        intro i _ hin
        have := (hrange _).mp hin
        omega
      have hsame : CopiedInto img skip seek length (fun pos => pos / img.block_size ∈ r.blocks.sectors) dst dst :=
        .refl dst hnone
      exact hsame.trans (ih hlaid.2 hproper.2 hdst) fun i _ => hsplit _
    · rename_i hskip
      have hstart : ∃ start, (if first < skip ∧ skip < stop then skip else first) = start ∧ skip ≤ start ∧
          start ≤ stop ∧ ∀ i, first ≤ skip + i ↔ start ≤ skip + i := by
        refine ⟨_, rfl, ?_, ?_, fun i => ?_⟩ <;> split <;> omega
      obtain ⟨start, heq, hle, hstop, hsame⟩ := hstart
      have hwritten : (written + ((start : Int) - skip - written)).toNat = start - skip := by omega
      simp only [heq, hwritten]
      split
      · -- the range starts after the length
        rename_i hend
        apply CopiedInto.refl
        intro i hi hin
        rw [asked, if_neg hend.1] at hi
        rcases (hsplit _).mp hin with hin | hin
        · have := (hsame i).mp ((hrange _).mp hin).1
          omega
        · have := hlater _ hin
          omega
      · rename_i hend
        have hroom : length = 0 ∨ start - skip < length := by omega
        have hcopies : CopiedInto img skip seek length (fun pos => start ≤ pos ∧ pos < start + (stop - start)) _ _ :=
          write_copies hle hsource hdst hroom
        have hboth : ∀ i, InRanges img (r :: ranges) (skip + i) ↔
            (start ≤ skip + i ∧ skip + i < start + (stop - start)) ∨ InRanges img ranges (skip + i) := by
          intro i
          rw [hsplit, hrange, hsame, Nat.add_sub_cancel' hstop]
        split
        · -- the chunk ended the copy
          rename_i hdone
          rw [decide_eq_true_eq] at hdone
          refine hcopies.trans (.refl _ fun i hi hin => ?_) fun i hi => hboth i
          have := hlater _ hin
          rw [asked, if_neg hdone.1] at hi
          rw [copied, if_neg hdone.1] at hdone
          omega
        · exact hcopies.trans (ih hlaid.2 hproper.2 (by rwa [hcopies.length_eq])) fun i hi => hboth i

end Ranges

/-! ## What is copied -/

section Copy

variable {fmap : Filemap} {img : Image} {dst : Option (List UInt8)} {skip seek length : Nat}

/-- The bytes of the source that are asked for are in the destination, which is the same elsewhere. -/
structure Copied (img : Image) (skip seek length : Nat) (dst dst' : List UInt8) : Prop where
  length_eq : dst'.length = dst.length
  inside : ∀ i < asked img skip length, dst'[seek + i]? = img.bytes[skip + i]?
  outside : ∀ j, j < seek ∨ seek + asked img skip length ≤ j → dst'[j]? = dst[j]?

/-- There are zeros where the destination is written to. -/
def ZeroThere (img : Image) (skip seek length : Nat) (dst : List UInt8) : Prop :=
  ∀ i < asked img skip length, dst[seek + i]? = some 0

theorem ZeroThere.room {bytes : List UInt8} (h : ZeroThere img skip seek length bytes) :
    asked img skip length = 0 ∨ seek + asked img skip length ≤ bytes.length := by
  rcases Nat.eq_zero_or_pos (asked img skip length) with hnone | hpos
  · exact .inl hnone
  · right
    have hlast := h (asked img skip length - 1) (by omega)
    have := (List.getElem?_eq_some_iff.mp hlast).1
    omega

theorem destination_zero (hsource : skip + length ≤ img.image_size)
    (hzero : ∀ bytes, dst = some bytes → ZeroThere img skip seek length bytes) :
    ZeroThere img skip seek length (destination img dst skip seek length) := by
  cases dst with
  | some bytes => exact hzero bytes rfl
  | none =>
    intro i hi
    unfold destination
    rw [List.getElem?_replicate, if_pos]
    unfold asked at hi
    split_ifs at hi ⊢ <;> omega

theorem source_zero {ranges : List BlockRange} (hdesc : Describes fmap img)
    (hmaps : Maps fmap.mapped ranges 0 img.blocks_cnt) {pos : Nat} (hpos : pos < img.image_size)
    (hout : ¬InRanges img ranges pos) : img.bytes[pos]? = some 0 := by
  have hblock : pos / img.block_size < img.blocks_cnt := by
    rw [Nat.div_lt_iff_lt_mul img.block_pos]
    exact hpos.trans_le (image_size_le img)
  have hunmapped : ¬fmap.mapped (pos / img.block_size) := fun hmapped =>
    hout (hmaps.holds _ hmapped (Nat.zero_le _) hblock)
  rw [List.getElem?_eq_getElem hpos]
  exact congrArg some (hdesc.holes pos hpos hunmapped)

/-- The copy holds what is asked for unless the ioctl tells of no extent in the file. -/
theorem sparse_copy_copies_when_mapped (hdesc : Describes fmap img) (hsource : skip + length ≤ img.image_size)
    (hzero : ∀ bytes, dst = some bytes → ZeroThere img skip seek length bytes) :
    (∃ result, sparse_copy fmap img dst skip seek length = .ok result ∧
      Copied img skip seek length (destination img dst skip seek length) result) ↔
        ¬NothingMapped fmap img := by
  have hzero := destination_zero hsource hzero
  unfold sparse_copy
  rcases get_mapped_ranges_maps hdesc with ⟨hnothing, herror⟩ | ⟨hmapped, ranges, hranges, hmaps⟩
  · rw [herror]
    simp [hnothing, bind, Except.bind]
  · rw [hranges]
    have hasked : skip + asked img skip length ≤ img.image_size := by
      unfold asked
      split <;> omega
    have hcopies : CopiedInto img skip seek length (InRanges img ranges) _
        (copy_ranges img skip seek length 0 _ ranges) :=
      copy_ranges_copies hmaps.laid hmaps.proper hasked hzero.room
    refine ⟨fun _ => hmapped, fun _ => ⟨_, rfl, hcopies.length_eq, fun i hi => ?_, hcopies.outside⟩⟩
    by_cases hin : InRanges img ranges (skip + i)
    · exact hcopies.inside i hi hin
    · rw [hcopies.kept i hi hin, hzero i hi, source_zero hdesc hmaps (by omega) hin]

end Copy

def half_a_hole : Image := ⟨[0, 0, 7], 2, by decide⟩

def one_extent : Filemap := .FilemapFiemap [⟨1, 1, by decide⟩] fun _ => 0

theorem one_extent_describes : Describes one_extent half_a_hole := by
  refine ⟨fun pos hpos hhole => ?_, fun extents batch heq => ?_⟩
  · have hpos : pos < 3 := hpos
    have hfirst : pos < 2 := by
      by_contra hge
      refine hhole ⟨_, List.mem_singleton_self _, ?_⟩
      have : pos = 2 := by omega
      subst this
      decide
    interval_cases pos <;> rfl
  · obtain ⟨rfl, -⟩ := Filemap.FilemapFiemap.inj heq
    exact List.pairwise_singleton _ _

theorem half_a_hole_is_copied : ∃ result, sparse_copy one_extent half_a_hole none 1 4 0 = .ok result ∧
    Copied half_a_hole 1 4 0 (destination half_a_hole none 1 4 0) result := by
  refine (sparse_copy_copies_when_mapped one_extent_describes (by decide) (by simp)).mpr ?_
  rintro ⟨extents, batch, heq, hnone⟩
  obtain ⟨rfl, -⟩ := Filemap.FilemapFiemap.inj heq
  have := hnone _ (List.mem_singleton_self _)
  revert this
  decide

def only_a_hole : Image := ⟨[0, 0], 2, by decide⟩

theorem only_a_hole_is_not_copied :
    Describes (.FilemapFiemap [] fun _ => 0) only_a_hole ∧
      ∀ dst skip seek length, sparse_copy (.FilemapFiemap [] fun _ => 0) only_a_hole dst skip seek length =
        .error .RuntimeError := by
  have hdesc : Describes (.FilemapFiemap [] fun _ => 0) only_a_hole := by
    refine ⟨fun pos hpos _ => ?_, fun extents batch heq => ?_⟩
    · have hpos : pos < 2 := hpos
      interval_cases pos <;> rfl
    · obtain ⟨rfl, -⟩ := Filemap.FilemapFiemap.inj heq
      exact List.Pairwise.nil
  refine ⟨hdesc, fun dst skip seek length => ?_⟩
  have hnothing : NothingMapped (.FilemapFiemap [] fun _ => 0) only_a_hole := ⟨[], _, rfl, by simp⟩
  rcases get_mapped_ranges_maps hdesc with ⟨-, herror⟩ | ⟨hmapped, -⟩
  · unfold sparse_copy
    rw [herror]
    rfl
  · exact absurd hnothing hmapped

end yocto.sparse_files
