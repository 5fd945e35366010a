-- Which blocks of a file hold data (filemap.py of wic): from the extents that the FIEMAP ioctl
-- tells of in batches, from SEEK_DATA and SEEK_HOLE, or without any map.
import Yocto.Extents
import Yocto.TaskIds

open yocto.extents
open yocto.task_ids

namespace yocto.file_map

/-! ## Images and maps -/

/-- A file with the block size of its file system. -/
structure Image where
  bytes : List UInt8
  block_size : Nat
  block_pos : 0 < block_size

def Image.image_size (img : Image) : Nat := img.bytes.length

def Image.blocks_cnt (img : Image) : Nat := (img.image_size + img.block_size - 1) / img.block_size

/-- Mapped blocks as the ioctl tells of them: whole blocks, and at least one. -/
structure FiemapExtent where
  block : Nat
  count : Nat
  count_pos : 0 < count

def FiemapExtent.stop (e : FiemapExtent) : Nat := e.block + e.count

/-- The first and the last block of a range. The last one of an empty range is before the first. -/
structure BlockRange where
  first : Nat
  last : Int
  deriving DecidableEq

inductive Raised where
  | Error (msg : Text)
  /-- A generator that another one waits for has ended. -/
  | RuntimeError
  deriving DecidableEq

/-- What the system says of the file: its extents and how many of them fit into the answer of the ioctl
for a block, the blocks with data, or nothing. -/
inductive Filemap where
  | FilemapFiemap (extents : List FiemapExtent) (batch : Nat → Nat)
  | FilemapSeek (data : Nat → Bool)
  | FilemapNobmap

/-! ## FIEMAP -/

section Fiemap

variable (img : Image) (extents : List FiemapExtent) (batch : Nat → Nat)

/-- The extents that meet the blocks, in their order. One at least fits into the answer. -/
def fiemap (block count : Nat) : List FiemapExtent :=
  (extents.filter fun e => decide (e.block < block + count ∧ block < e.stop)).take (batch block + 1)

def invoke_fiemap (block count : Nat) : Except Raised (List FiemapExtent) :=
  if img.blocks_cnt ≠ 0 ∧ block ≥ img.blocks_cnt then
    .error (.Error (text s!"bad block number {block}, should be within [0, {img.blocks_cnt}]"))
  else .ok (fiemap extents batch block count)

/-- The inner loop of `_do_get_mapped_ranges` over the extents of an answer: the ranges, and whether an
extent after the last block ended the generator. -/
def walk_extents (start count block : Nat) : List FiemapExtent → List BlockRange × Bool
  | [] => ([], false)
  | e :: es =>
    if e.block > start + count - 1 then ([], true)
    else
      let (ranges, ended) := walk_extents start count block es
      (⟨max e.block block, (min e.stop (start + count) : Nat) - 1⟩ :: ranges, ended)

theorem invoke_fiemap_mem {block count : Nat} {es : List FiemapExtent}
    (h : invoke_fiemap img extents batch block count = .ok es) :
    ∀ e ∈ es, e ∈ extents ∧ block < e.stop := by
  unfold invoke_fiemap at h
  split at h
  · cases h
  · obtain rfl := Except.ok.inj h
    intro e he
    have he := List.mem_of_mem_take he
    simp only [List.mem_filter, decide_eq_true_eq] at he
    exact ⟨he.1, he.2.2⟩

/-- `_do_get_mapped_ranges`, from a block on: what the generator yields. -/
def do_get_mapped_ranges (start count block : Nat) : Except Raised (List BlockRange) :=
  if block < start + count then
    match h : invoke_fiemap img extents batch block count with
    | .error e => .error e
    | .ok [] => .ok []
    | .ok (e :: es) =>
      let (ranges, ended) := walk_extents start count block (e :: es)
      if ended then .ok ranges
      else
        have : block < ((e :: es).getLast (List.cons_ne_nil e es)).stop :=
          (invoke_fiemap_mem img extents batch h _ (List.getLast_mem _)).2
        (do_get_mapped_ranges start count ((e :: es).getLast (List.cons_ne_nil e es)).stop).map
          (ranges ++ ·)
  else .ok []
termination_by start + count - block

/-- The loop of `get_mapped_ranges`: a range that goes on where the one before it ended is joined to it. -/
def merge_ranges (prev : BlockRange) : List BlockRange → List BlockRange
  | [] => [prev]
  | r :: rs =>
    if prev.last = r.first - 1 then merge_ranges ⟨prev.first, r.last⟩ rs
    else prev :: merge_ranges r rs

/-- `FilemapFiemap.get_mapped_ranges`. The first range is asked for without a default. -/
def fiemap_ranges (start count : Nat) : Except Raised (List BlockRange) :=
  match do_get_mapped_ranges img extents batch start count start with
  | .error e => .error e
  | .ok [] => .error .RuntimeError
  | .ok (r :: rs) => .ok (merge_ranges r rs)

end Fiemap

/-! ## SEEK_DATA and SEEK_HOLE -/

section Seek

variable (img : Image) (data : Nat → Bool)

/-- The first byte of data from an offset on. -/
def lseek_data (offset : Nat) : Option Nat :=
  (List.range img.image_size).find? fun pos => offset ≤ pos && data (pos / img.block_size)

/-- The first hole from an offset on, or the end of the file. Beyond the file there is none. -/
def lseek_hole (offset : Nat) : Option Nat :=
  if offset ≥ img.image_size then none
  else some (((List.range img.image_size).find? fun pos =>
    offset ≤ pos && !data (pos / img.block_size)).getD img.image_size)

theorem lseek_data_spec {offset start : Nat} (h : lseek_data img data offset = some start) :
    offset ≤ start ∧ start < img.image_size ∧ data (start / img.block_size) = true ∧
      ∀ pos, offset ≤ pos → pos < start → data (pos / img.block_size) = false := by
  have hprop := List.find?_some h
  have hmem := List.mem_of_find?_eq_some h
  simp only [Bool.and_eq_true, decide_eq_true_eq] at hprop
  rw [List.mem_range] at hmem
  refine ⟨hprop.1, hmem, hprop.2, fun pos hle hlt => ?_⟩
  obtain ⟨-, as, bs, hsplit, hnone⟩ := List.find?_eq_some_iff_append.mp h
  have hin : pos ∈ as := by
    have hpos : (List.range img.image_size)[pos]? = some pos := by
      rw [List.getElem?_range (by omega)]
    have hlen : as.length = start := by
      have hstart : (List.range img.image_size)[as.length]? = some start := by
        rw [hsplit]
        simp
      obtain ⟨hlt, heq⟩ := List.getElem?_eq_some_iff.mp hstart
      rwa [List.getElem_range] at heq
    rw [hsplit, List.getElem?_append_left (by omega)] at hpos
    exact List.mem_of_getElem? hpos
  have := hnone pos hin
  simpa [hle] using this

theorem lseek_hole_spec {start next : Nat} (hdata : data (start / img.block_size) = true)
    (h : lseek_hole img data start = some next) :
    start < next ∧ (next = img.image_size ∨ next < img.image_size ∧ data (next / img.block_size) = false) ∧
      ∀ pos, start ≤ pos → pos < next → pos < img.image_size → data (pos / img.block_size) = true := by
  unfold lseek_hole at h
  split at h
  · cases h
  · rename_i hlt
    have hnext := Option.some.inj h
    cases hfind : (List.range img.image_size).find? fun pos =>
        start ≤ pos && !data (pos / img.block_size) with
    | none =>
      rw [hfind, Option.getD_none] at hnext
      rw [List.find?_eq_none] at hfind
      refine ⟨by omega, .inl hnext.symm, fun pos hle _ hpos => ?_⟩
      have := hfind pos (List.mem_range.mpr hpos)
      simpa [hle] using this
    | some pos =>
      rw [hfind, Option.getD_some] at hnext
      subst hnext
      have hspec := lseek_data_spec img (fun block => !data block) hfind
      simp only [Bool.not_eq_true', Bool.not_eq_false'] at hspec
      obtain ⟨hle, hsize, hhole, hbefore⟩ := hspec
      refine ⟨lt_of_le_of_ne hle fun heq => ?_, .inr ⟨hsize, hhole⟩, fun pos hpos hlt _ => hbefore pos hpos hlt⟩
      rw [heq, hhole] at hdata
      cases hdata

/-- Where a range of data ends that starts at `start`. -/
def seek_end (limit start : Nat) : Nat :=
  let next := match lseek_hole img data start with
    | none => img.blocks_cnt * img.block_size
    | some next => if next = img.image_size then img.blocks_cnt * img.block_size else next
  if next > limit then limit else next

theorem image_size_le : img.image_size ≤ img.blocks_cnt * img.block_size := by
  have hpos := img.block_pos
  unfold Image.blocks_cnt
  have := Nat.div_add_mod (img.image_size + img.block_size - 1) img.block_size
  have := Nat.mod_lt (img.image_size + img.block_size - 1) hpos
  rw [Nat.mul_comm]
  omega

theorem seek_end_gt {limit start : Nat} (hsize : start < img.image_size)
    (hdata : data (start / img.block_size) = true) (hlimit : start < limit) :
    start < seek_end img data limit start ∧ seek_end img data limit start ≤ limit := by
  have hle := image_size_le img
  unfold seek_end
  generalize img.blocks_cnt * img.block_size = total at hle ⊢
  cases hhole : lseek_hole img data start with
  | none =>
    dsimp only
    split <;> omega
  | some next =>
    have := (lseek_hole_spec img data hdata hhole).1
    dsimp only
    split_ifs <;> omega

theorem get_ranges_decreases {limit next start : Nat} (h : lseek_data img data next = some start)
    (hend : ¬(start ≥ limit ∨ start = img.image_size)) :
    limit - seek_end img data limit start < limit - next := by
  obtain ⟨hle, hsize, hdata, -⟩ := lseek_data_spec img data h
  have hlimit : start < limit := not_le.mp fun hge => hend (.inl hge)
  have := seek_end_gt img data hsize hdata hlimit
  omega

/-- `FilemapSeek._get_ranges` for data and holes, from `next` on: what the generator yields. -/
def get_ranges (limit next : Nat) : List BlockRange :=
  match h : lseek_data img data next with
  | none => []
  | some start =>
    if hend : start ≥ limit ∨ start = img.image_size then []
    else
      have := get_ranges_decreases img data h hend
      ⟨start / img.block_size, (seek_end img data limit start / img.block_size : Nat) - 1⟩ ::
        get_ranges limit (seek_end img data limit start)
termination_by limit - next

end Seek

/-- `get_mapped_ranges` of each kind of map: the ranges that it yields, or what it raises. -/
def get_mapped_ranges (fmap : Filemap) (img : Image) (start count : Nat) : Except Raised (List BlockRange) :=
  match fmap with
  | .FilemapFiemap extents batch => fiemap_ranges img extents batch start count
  | .FilemapSeek data =>
    .ok (get_ranges img data (start * img.block_size + count * img.block_size) (start * img.block_size))
  | .FilemapNobmap => .ok [⟨start, (start + count : Nat) - 1⟩]

/-! ## What a map says of the data -/

def BlockRange.blocks (r : BlockRange) : Extent := ⟨r.first, (r.last + 1 - r.first).toNat⟩

/-- A block that holds data, as the map tells of it. -/
def Filemap.mapped : Filemap → Nat → Prop
  | .FilemapFiemap extents _, block => ∃ e ∈ extents, e.block ≤ block ∧ block < e.stop
  | .FilemapSeek data, block => data block = true
  | .FilemapNobmap, _ => True

/-- The map tells of all data of the file, and the extents of the ioctl come in their order. -/
structure Describes (fmap : Filemap) (img : Image) : Prop where
  holes : ∀ pos (hpos : pos < img.bytes.length), ¬fmap.mapped (pos / img.block_size) → img.bytes[pos] = 0
  sorted : ∀ extents batch, fmap = .FilemapFiemap extents batch →
    extents.Pairwise fun e e' => e.stop ≤ e'.block

/-- The ranges are in their order from `lo` to `hi`, and hold all that is mapped there. -/
structure Maps (mapped : Nat → Prop) (ranges : List BlockRange) (lo hi : Nat) : Prop where
  laid : Laid lo (ranges.map BlockRange.blocks) hi
  proper : ∀ r ∈ ranges, (r.first : Int) ≤ r.last + 1
  holds : ∀ block, mapped block → lo ≤ block → block < hi → ∃ r ∈ ranges, block ∈ r.blocks.sectors

theorem mem_blocks {r : BlockRange} {block : Nat} :
    block ∈ r.blocks.sectors ↔ r.first ≤ block ∧ (block : Int) ≤ r.last := by
  simp only [Extent.sectors, BlockRange.blocks, Extent.stop, Set.mem_Ico]
  omega

section Walk

variable {start count block : Nat}

theorem walk_laid {es : List FiemapExtent} {lo hi : Nat} (hsorted : es.Pairwise fun e e' => e.stop ≤ e'.block)
    (hlow : ∀ e ∈ es, lo ≤ max e.block block ∧ block < e.stop) (hlo : lo ≤ hi)
    (hhigh : ∀ e ∈ es, min e.stop (start + count) ≤ hi) (hblock : block < start + count) :
    Laid lo ((walk_extents start count block es).1.map BlockRange.blocks) hi := by
  induction es generalizing lo with
  | nil => exact hlo
  | cons e es ih =>
    rw [List.pairwise_cons] at hsorted
    rw [List.forall_mem_cons] at hlow hhigh
    unfold walk_extents
    split
    · exact hlo
    · rename_i hstop
      have hpos := e.count_pos
      have hne : max e.block block < min e.stop (start + count) := by
        have := hlow.1.2
        unfold FiemapExtent.stop at *
        omega
      have hend : (BlockRange.blocks ⟨max e.block block, (min e.stop (start + count) : Nat) - 1⟩).stop =
          min e.stop (start + count) := by
        simp only [BlockRange.blocks, Extent.stop]
        omega
      refine ⟨hlow.1.1, ?_⟩
      rw [hend]
      refine ih hsorted.2 (fun e' he' => ⟨?_, (hlow.2 e' he').2⟩) hhigh.1 hhigh.2
      have := hsorted.1 e' he'
      omega

theorem walk_proper {es : List FiemapExtent} (hlow : ∀ e ∈ es, block < e.stop)
    (hblock : block < start + count) :
    ∀ r ∈ (walk_extents start count block es).1, (r.first : Int) ≤ r.last + 1 := by
  induction es with
  | nil => simp [walk_extents]
  | cons e es ih =>
    rw [List.forall_mem_cons] at hlow
    unfold walk_extents
    split
    · simp
    · rename_i hstop
      rw [List.forall_mem_cons]
      refine ⟨?_, ih hlow.2⟩
      have := e.count_pos
      have := hlow.1
      unfold FiemapExtent.stop at *
      dsimp only
      omega

theorem walk_holds {es : List FiemapExtent} (hsorted : es.Pairwise fun e e' => e.stop ≤ e'.block)
    {e : FiemapExtent} (he : e ∈ es) {b : Nat} (hb : e.block ≤ b ∧ b < e.stop)
    (hrange : block ≤ b ∧ b < start + count) :
    ∃ r ∈ (walk_extents start count block es).1, b ∈ r.blocks.sectors := by
  induction es with
  | nil => simp at he
  | cons e' es ih =>
    rw [List.pairwise_cons] at hsorted
    have hfirst : e'.block ≤ e.block := by
      rcases List.mem_cons.mp he with rfl | he
      · exact le_refl _
      · have := hsorted.1 e he
        unfold FiemapExtent.stop at this
        omega
    unfold walk_extents
    rw [if_neg (by omega)]
    rcases List.mem_cons.mp he with rfl | he
    · refine ⟨_, List.mem_cons_self, ?_⟩
      rw [mem_blocks]
      dsimp only
      omega
    · obtain ⟨r, hr, hmem⟩ := ih hsorted.2 he
      exact ⟨r, List.mem_cons_of_mem _ hr, hmem⟩

end Walk

/-! ## What the generators yield -/

section Fiemap

variable {img : Image} {extents : List FiemapExtent} {batch : Nat → Nat}

/-- An extent has a block in a part of the file. -/
def Meets (extents : List FiemapExtent) (lo hi : Nat) : Prop :=
  ∃ e ∈ extents, max e.block lo < min e.stop hi

theorem fiemap_split (extents : List FiemapExtent) (batch : Nat → Nat) (block count : Nat) : ∃ later,
    extents.filter (fun e => decide (e.block < block + count ∧ block < e.stop)) =
      fiemap extents batch block count ++ later :=
  ⟨_, (List.take_append_drop (batch block + 1) _).symm⟩

theorem fiemap_eq_nil {block count : Nat} (hcount : 0 < count) :
    fiemap extents batch block count = [] ↔ ¬Meets extents block (block + count) := by
  have hmeets : ∀ e : FiemapExtent, (e.block < block + count ∧ block < e.stop) ↔
      max e.block block < min e.stop (block + count) := by
    intro e
    have := e.count_pos
    unfold FiemapExtent.stop
    omega
  rw [fiemap, List.take_eq_nil_iff, Meets]
  simp [List.filter_eq_nil_iff, hmeets]

theorem walk_ended {es : List FiemapExtent} {start count block : Nat}
    (h : (walk_extents start count block es).2 = true) : ∃ e ∈ es, start + count - 1 < e.block := by
  induction es with
  | nil => cases h
  | cons e es ih =>
    unfold walk_extents at h
    split at h
    · rename_i hstop
      exact ⟨e, List.mem_cons_self, hstop⟩
    · obtain ⟨e', he', hlt⟩ := ih h
      exact ⟨e', List.mem_cons_of_mem _ he', hlt⟩

theorem walk_eq_nil {e : FiemapExtent} {es : List FiemapExtent} {start count block : Nat} :
    (walk_extents start count block (e :: es)).1 = [] ↔ start + count - 1 < e.block := by
  unfold walk_extents
  split
  · rename_i hstop
    simpa using hstop
  · rename_i hstop
    simpa using not_lt.mp hstop

theorem last_stop_le {es : List FiemapExtent} (hsorted : es.Pairwise fun e e' => e.stop ≤ e'.block)
    (hne : es ≠ []) : ∀ e ∈ es, e.stop ≤ (es.getLast hne).stop := by
  induction es with
  | nil => exact absurd rfl hne
  | cons e es ih =>
    rw [List.pairwise_cons] at hsorted
    intro e' he'
    cases es with
    | nil =>
      obtain rfl := List.mem_singleton.mp he'
      exact le_refl _
    | cons e₂ es =>
      rw [List.getLast_cons (List.cons_ne_nil e₂ es)]
      rcases List.mem_cons.mp he' with rfl | he'
      · have hfirst := hsorted.1 _ (List.getLast_mem (List.cons_ne_nil e₂ es))
        unfold FiemapExtent.stop at hfirst ⊢
        omega
      · exact ih hsorted.2 (List.cons_ne_nil e₂ es) e' he'

/-- What an answer for a block tells: extents that end behind it, in their order. -/
structure Answers (extents : List FiemapExtent) (block bound : Nat) (es : List FiemapExtent) : Prop where
  sorted : es.Pairwise fun e e' => e.stop ≤ e'.block
  behind : ∀ e ∈ es, e ∈ extents ∧ block < e.stop
  complete : ∀ e ∈ extents, e.block < bound → block < e.stop → e ∈ es ∨ ∀ e₁ ∈ es, e₁.stop ≤ e.block

theorem invoke_answers (hsorted : extents.Pairwise fun e e' => e.stop ≤ e'.block) {start count block : Nat}
    (hstart : start ≤ block) {es : List FiemapExtent} (h : invoke_fiemap img extents batch block count = .ok es) :
    Answers extents block (start + count) es := by
  have hbehind := invoke_fiemap_mem img extents batch h
  unfold invoke_fiemap at h
  split at h
  · cases h
  · obtain rfl := Except.ok.inj h
    obtain ⟨later, hlater⟩ := fiemap_split extents batch block count
    have hordered := hsorted.filter fun e => decide (e.block < block + count ∧ block < e.stop)
    rw [hlater] at hordered
    obtain ⟨hanswer, -, hapart⟩ := List.pairwise_append.mp hordered
    refine ⟨hanswer, hbehind, fun e he hbefore hafter => ?_⟩
    have hmem : e ∈ fiemap extents batch block count ++ later := by
      rw [← hlater, List.mem_filter]
      exact ⟨he, decide_eq_true ⟨by omega, hafter⟩⟩
    exact (List.mem_append.mp hmem).imp_right fun hin e₁ he₁ => hapart e₁ he₁ e hin

theorem Maps.append {mapped : Nat → Prop} {rs rs' : List BlockRange} {lo mid hi : Nat} (h : Maps mapped rs lo mid)
    (h' : Maps mapped rs' mid hi) : Maps mapped (rs ++ rs') lo hi where
  laid := by
    rw [List.map_append]
    exact h.laid.append h'.laid
  proper r hr := (List.mem_append.mp hr).elim (h.proper r) (h'.proper r)
  holds b hb hlo hhi := by
    by_cases hbefore : b < mid
    · obtain ⟨r, hr, hin⟩ := h.holds b hb hlo hbefore
      exact ⟨r, List.mem_append_left _ hr, hin⟩
    · obtain ⟨r, hr, hin⟩ := h'.holds b hb (not_lt.mp hbefore) hhi
      exact ⟨r, List.mem_append_right _ hr, hin⟩

namespace Answers

variable {start count block : Nat}

theorem meets {e : FiemapExtent} {es : List FiemapExtent} (h : Answers extents block (start + count) (e :: es))
    (hlt : block < start + count) : Meets extents block (start + count) ↔ ¬start + count - 1 < e.block := by
  constructor
  · rintro ⟨e', he', hmeets⟩ hbeyond
    rcases h.complete e' he' (by omega) (by omega) with hin | hafter
    · rcases List.mem_cons.mp hin with rfl | hin
      · omega
      · have := (List.pairwise_cons.mp h.sorted).1 e' hin
        unfold FiemapExtent.stop at *
        omega
    · have := hafter e List.mem_cons_self
      unfold FiemapExtent.stop at *
      omega
  · intro hfirst
    obtain ⟨he, hafter⟩ := h.behind e List.mem_cons_self
    have := e.count_pos
    refine ⟨e, he, ?_⟩
    unfold FiemapExtent.stop at *
    omega

theorem maps {es : List FiemapExtent} {hi : Nat} (h : Answers extents block (start + count) es)
    (hlt : block < start + count) (hlo : block ≤ hi) (hbound : hi ≤ start + count)
    (hhigh : ∀ e ∈ es, min e.stop (start + count) ≤ hi) (hreach : ∃ e ∈ es, hi ≤ e.stop) :
    Maps (Filemap.FilemapFiemap extents batch).mapped (walk_extents start count block es).1 block hi where
  laid := walk_laid h.sorted (fun e he => ⟨le_max_right _ _, (h.behind e he).2⟩) hlo hhigh hlt
  proper := walk_proper (fun e he => (h.behind e he).2) hlt
  holds := by
    rintro b ⟨e, he, hle, hstop⟩ hb hhi
    obtain ⟨e₁, he₁, hend⟩ := hreach
    rcases h.complete e he (by omega) (by omega) with hin | hafter
    · exact walk_holds h.sorted hin ⟨hle, hstop⟩ ⟨hb, by omega⟩
    · have := hafter e₁ he₁
      omega

end Answers

theorem do_get_mapped_ranges_maps (img : Image) (batch : Nat → Nat)
    (hsorted : extents.Pairwise fun e e' => e.stop ≤ e'.block) (start count block : Nat)
    (himg : start + count ≤ img.blocks_cnt) (hstart : start ≤ block) (hblock : block ≤ start + count) :
    ∃ ranges, do_get_mapped_ranges img extents batch start count block = .ok ranges ∧
      Maps (Filemap.FilemapFiemap extents batch).mapped ranges block (start + count) ∧
      (ranges = [] ↔ ¬Meets extents block (start + count)) := by
  induction hn : start + count - block using Nat.strong_induction_on generalizing block with
  | _ n ih =>
    unfold do_get_mapped_ranges
    by_cases hlt : block < start + count
    · rw [if_pos hlt]
      have hinvoke : invoke_fiemap img extents batch block count = .ok (fiemap extents batch block count) := by
        rw [invoke_fiemap, if_neg (by omega)]
      split
      · rename_i e he
        rw [hinvoke] at he
        cases he
      · rename_i hnil
        rw [hinvoke] at hnil
        have hnone := (fiemap_eq_nil (by omega)).mp (Except.ok.inj hnil)
        have hnone' : ¬Meets extents block (start + count) := by
          rintro ⟨e, he, hmeets⟩
          exact hnone ⟨e, he, by omega⟩
        refine ⟨[], rfl, ⟨hblock, by simp, fun b hb hlo hhi => ?_⟩, by simp [hnone']⟩
        obtain ⟨e, he, hle, hstop⟩ := hb
        exact absurd ⟨e, he, by omega⟩ hnone'
      · rename_i e es hes
        have hanswer := invoke_answers hsorted hstart hes
        have hmeets := hanswer.meets hlt
        have hlast := last_stop_le hanswer.sorted (List.cons_ne_nil e es)
        have hmem := List.getLast_mem (List.cons_ne_nil e es)
        dsimp only
        split
        · -- an extent after the last block ends the generator
          rename_i hended
          obtain ⟨e₁, he₁, hbeyond⟩ := walk_ended hended
          have hreach : start + count ≤ e₁.stop := by
            unfold FiemapExtent.stop
            omega
          refine ⟨_, rfl, hanswer.maps hlt hblock le_rfl (fun e' _ => min_le_right _ _) ⟨e₁, he₁, hreach⟩, ?_⟩
          rw [hmeets, not_not, walk_eq_nil]
        · rename_i hended
          have hfirst : ¬start + count - 1 < e.block := by
            intro hbeyond
            rw [walk_extents, if_pos hbeyond] at hended
            exact hended rfl
          have hwalked : (walk_extents start count block (e :: es)).1 ≠ [] := mt walk_eq_nil.mp hfirst
          have hnext := (hanswer.behind _ hmem).2
          generalize (e :: es).getLast (List.cons_ne_nil e es) = last at *
          by_cases hinside : last.stop < start + count
          · obtain ⟨rest, hrest, hmaps, -⟩ := ih (start + count - last.stop) (by omega) last.stop
              (by omega) (by omega) rfl
            have hwalk : Maps (Filemap.FilemapFiemap extents batch).mapped
                (walk_extents start count block (e :: es)).1 block last.stop :=
              hanswer.maps hlt hnext.le hinside.le
                (fun e' he' => (min_le_left _ _).trans (hlast e' he')) ⟨last, hmem, le_rfl⟩
            rw [hrest]
            refine ⟨_, rfl, hwalk.append hmaps, ?_⟩
            simp [hwalked, hmeets, hfirst]
          · rw [do_get_mapped_ranges, if_neg hinside]
            refine ⟨(walk_extents start count block (e :: es)).1 ++ [], rfl, ?_, ?_⟩
            · rw [List.append_nil]
              exact hanswer.maps hlt hblock le_rfl (fun e' _ => min_le_right _ _) ⟨last, hmem, not_lt.mp hinside⟩
            · simp [hwalked, hmeets, hfirst]
    · rw [if_neg hlt]
      have hend : block = start + count := by omega
      refine ⟨[], rfl, ⟨hblock, by simp, fun b hb hlo hhi => by omega⟩, ?_⟩
      simp only [true_iff]
      rintro ⟨e, he, hmeets⟩
      omega

theorem merge_maps {mapped : Nat → Prop} {prev : BlockRange} {rs : List BlockRange} {lo hi : Nat}
    (h : Maps mapped (prev :: rs) lo hi) : Maps mapped (merge_ranges prev rs) lo hi := by
  induction rs generalizing prev lo mapped with
  | nil => exact h
  | cons r rs ih =>
    obtain ⟨⟨hprev, hr, hrest⟩, hproper, hholds⟩ := h
    rw [List.forall_mem_cons, List.forall_mem_cons] at hproper
    unfold merge_ranges
    split
    · rename_i hjoin
      refine ih ⟨⟨hprev, ?_⟩, ?_, fun b hb hlo hhi => ?_⟩
      · refine Laid.mono hrest ?_
        simp only [BlockRange.blocks, Extent.stop] at *
        omega
      · rw [List.forall_mem_cons]
        refine ⟨?_, hproper.2.2⟩
        dsimp only
        omega
      · obtain ⟨r', hr', hmem⟩ := hholds b hb hlo hhi
        rw [mem_blocks] at hmem
        rcases List.mem_cons.mp hr' with rfl | hr'
        · refine ⟨_, List.mem_cons_self, ?_⟩
          rw [mem_blocks]
          dsimp only
          omega
        · rcases List.mem_cons.mp hr' with rfl | hr'
          · refine ⟨_, List.mem_cons_self, ?_⟩
            rw [mem_blocks]
            dsimp only
            simp only [BlockRange.blocks, Extent.stop] at *
            omega
          · exact ⟨r', List.mem_cons_of_mem _ hr', mem_blocks.mpr hmem⟩
    · have hrest : Maps mapped (r :: rs) prev.blocks.stop hi := by
        refine ⟨⟨hr, hrest⟩, List.forall_mem_cons.mpr hproper.2, fun b hb hlo' hhi => ?_⟩
        have hle : prev.first ≤ prev.blocks.stop := Nat.le_add_right _ _
        obtain ⟨r', hr', hmem⟩ := hholds b hb (hprev.trans (hle.trans hlo')) hhi
        rcases List.mem_cons.mp hr' with rfl | hr'
        · exact absurd hmem.2 (not_lt.mpr hlo')
        · exact ⟨r', hr', hmem⟩
      have hmerged := ih hrest
      refine ⟨⟨hprev, hmerged.laid⟩, List.forall_mem_cons.mpr ⟨hproper.1, hmerged.proper⟩,
        fun b hb hlo hhi => ?_⟩
      obtain ⟨r', hr', hmem⟩ := hholds b hb hlo hhi
      rcases List.mem_cons.mp hr' with rfl | hr'
      · exact ⟨r', List.mem_cons_self, hmem⟩
      · have hafter := (hrest.laid.within (List.mem_map_of_mem hr')).1
        obtain ⟨r₁, hr₁, hmem₁⟩ := hmerged.holds b hb (hafter.trans hmem.1) hhi
        exact ⟨r₁, List.mem_cons_of_mem _ hr₁, hmem₁⟩

end Fiemap

section Seek

variable {img : Image} {data : Nat → Bool}

theorem aligned_of_change {p : Nat → Bool} {bs lo pos : Nat} (hbs : 0 < bs) (hle : lo * bs ≤ pos)
    (hpos : p (pos / bs) = true) (hbefore : ∀ q, lo * bs ≤ q → q < pos → p (q / bs) = false) :
    ∃ k, pos = k * bs := by
  have hstart : pos / bs * bs ≤ pos := Nat.div_mul_le_self pos bs
  have hk : lo ≤ pos / bs := (Nat.le_div_iff_mul_le hbs).mpr hle
  by_contra hnot
  have hlt : pos / bs * bs < pos := lt_of_le_of_ne hstart fun heq => hnot ⟨pos / bs, heq.symm⟩
  have := hbefore (pos / bs * bs) (Nat.mul_le_mul_right bs hk) hlt
  rw [Nat.mul_div_cancel _ hbs, hpos] at this
  cases this

theorem block_start_lt {block : Nat} (h : block < img.blocks_cnt) : block * img.block_size < img.image_size := by
  have hpos := img.block_pos
  have hle : (block + 1) * img.block_size ≤ img.image_size + img.block_size - 1 :=
    (Nat.mul_le_mul_right _ h).trans (Nat.div_mul_le_self _ _)
  rw [Nat.add_mul, Nat.one_mul] at hle
  omega

theorem seek_end_spec {k limit : Nat} (hk : k < limit) (hdata : data k = true)
    (hlimit : limit ≤ img.blocks_cnt) :
    ∃ next, seek_end img data (limit * img.block_size) (k * img.block_size) = next * img.block_size ∧
      k < next ∧ next ≤ limit := by
  have hpos := img.block_pos
  have hblock : k * img.block_size / img.block_size = k := Nat.mul_div_cancel _ hpos
  have hsize : k * img.block_size < img.image_size := block_start_lt (by omega)
  have hgt : ∀ {m}, k * img.block_size < m * img.block_size → k < m := Nat.lt_of_mul_lt_mul_right
  have hwhole : ∃ m, (match lseek_hole img data (k * img.block_size) with
      | none => img.blocks_cnt * img.block_size
      | some next => if next = img.image_size then img.blocks_cnt * img.block_size else next) =
        m * img.block_size ∧ k < m := by
    cases hhole : lseek_hole img data (k * img.block_size) with
    | none => exact ⟨img.blocks_cnt, rfl, by omega⟩
    | some next =>
      obtain ⟨hlt, hnext, hall⟩ := lseek_hole_spec img data (by rwa [hblock]) hhole
      dsimp only
      split
      · exact ⟨img.blocks_cnt, rfl, by omega⟩
      · rename_i hne
        obtain ⟨hinside, hgap⟩ := hnext.resolve_left hne
        obtain ⟨m, rfl⟩ := aligned_of_change (p := fun block => !data block) hpos hlt.le
          (by simp [hgap]) fun q hle hq => by simp [hall q hle hq (by omega)]
        exact ⟨m, rfl, hgt hlt⟩
  obtain ⟨m, hm, hkm⟩ := hwhole
  unfold seek_end
  dsimp only
  rw [hm]
  split
  · exact ⟨limit, rfl, hk, le_refl _⟩
  · rename_i hle
    exact ⟨m, rfl, hkm, Nat.le_of_mul_le_mul_right (not_lt.mp hle) hpos⟩

theorem get_ranges_maps (img : Image) (data : Nat → Bool) {lo limit : Nat} (hlo : lo ≤ limit)
    (hlimit : limit ≤ img.blocks_cnt) : Maps (Filemap.FilemapSeek data).mapped
      (get_ranges img data (limit * img.block_size) (lo * img.block_size)) lo limit := by
  have hpos := img.block_pos
  induction hn : limit - lo using Nat.strong_induction_on generalizing lo with
  | _ n ih =>
    unfold get_ranges
    split
    · rename_i hnone
      refine ⟨hlo, by simp, fun b hb hle hlt => ?_⟩
      rw [lseek_data, List.find?_eq_none] at hnone
      have := hnone (b * img.block_size) (List.mem_range.mpr (block_start_lt (by omega)))
      rw [Nat.mul_div_cancel _ hpos] at this
      simp only [Bool.and_eq_true, decide_eq_true_eq, not_and] at this
      exact absurd hb (this (Nat.mul_le_mul_right _ hle))
    · rename_i start hstart
      obtain ⟨hle, hsize, hdata, hbefore⟩ := lseek_data_spec img data hstart
      obtain ⟨k, rfl⟩ := aligned_of_change hpos hle hdata hbefore
      rw [Nat.mul_div_cancel _ hpos] at hdata ⊢
      have hlok : lo ≤ k := Nat.le_of_mul_le_mul_right hle hpos
      have hgap : ∀ b, data b = true → lo ≤ b → k ≤ b := by
        intro b hb hle
        by_contra hlt
        have := hbefore (b * img.block_size) (Nat.mul_le_mul_right _ hle)
          (Nat.mul_lt_mul_of_pos_right (not_le.mp hlt) hpos)
        rw [Nat.mul_div_cancel _ hpos, hb] at this
        cases this
      split
      · rename_i hend
        have hk : limit ≤ k := Nat.le_of_mul_le_mul_right (hend.resolve_right hsize.ne) hpos
        refine ⟨hlo, by simp, fun b hb hle hlt => ?_⟩
        have := hgap b hb hle
        omega
      · rename_i hend
        have hk : k < limit := by
          by_contra hge
          exact hend (.inl (Nat.mul_le_mul_right _ (not_lt.mp hge)))
        obtain ⟨next, hnext, hlt, hle'⟩ := seek_end_spec hk hdata hlimit
        dsimp only
        rw [hnext, Nat.mul_div_cancel _ hpos]
        obtain ⟨hlaid, hproper, hholds⟩ := ih (limit - next) (by omega) hle' rfl
        have hstop : (BlockRange.blocks ⟨k, (next : Nat) - 1⟩).stop = next := by
          simp only [BlockRange.blocks, Extent.stop]
          omega
        refine ⟨⟨hlok, by rwa [hstop]⟩, ?_, fun b hb hle hlt' => ?_⟩
        · rw [List.forall_mem_cons]
          refine ⟨?_, hproper⟩
          dsimp only
          omega
        · by_cases hin : b < next
          · refine ⟨_, List.mem_cons_self, ?_⟩
            have := hgap b hb hle
            rw [mem_blocks]
            dsimp only
            omega
          · obtain ⟨r, hr, hmem⟩ := hholds b hb (not_lt.mp hin) hlt'
            exact ⟨r, List.mem_cons_of_mem _ hr, hmem⟩

end Seek

/-! ## All maps -/

/-- The ioctl tells of no extent in the file. -/
def NothingMapped (fmap : Filemap) (img : Image) : Prop :=
  ∃ extents batch, fmap = .FilemapFiemap extents batch ∧ ∀ e ∈ extents, img.blocks_cnt ≤ e.block

theorem get_mapped_ranges_maps {fmap : Filemap} {img : Image} (hdesc : Describes fmap img) :
    (NothingMapped fmap img ∧ get_mapped_ranges fmap img 0 img.blocks_cnt = .error .RuntimeError) ∨
    ¬NothingMapped fmap img ∧ ∃ ranges, get_mapped_ranges fmap img 0 img.blocks_cnt = .ok ranges ∧
      Maps fmap.mapped ranges 0 img.blocks_cnt := by
  cases fmap with
  | FilemapFiemap extents batch =>
    obtain ⟨ranges, hranges, hmaps, hnil⟩ := do_get_mapped_ranges_maps img batch
      (hdesc.sorted extents batch rfl) 0 img.blocks_cnt 0 (by omega) (le_refl 0) (by omega)
    have hnothing : NothingMapped (.FilemapFiemap extents batch) img ↔
        ¬Meets extents 0 (0 + img.blocks_cnt) := by
      constructor
      · rintro ⟨extents', batch', heq, hnone⟩ ⟨e, he, hmeets⟩
        obtain ⟨rfl, rfl⟩ := Filemap.FilemapFiemap.inj heq
        have := hnone e he
        omega
      · intro hnone
        refine ⟨extents, batch, rfl, fun e he => ?_⟩
        by_contra hlt
        have := e.count_pos
        refine hnone ⟨e, he, ?_⟩
        unfold FiemapExtent.stop
        omega
    unfold get_mapped_ranges fiemap_ranges
    dsimp only
    rw [hranges, hnothing, ← hnil]
    cases ranges with
    | nil => exact .inl ⟨rfl, rfl⟩
    | cons r rs =>
      rw [Nat.zero_add] at hmaps
      exact .inr ⟨by simp, _, rfl, merge_maps hmaps⟩
  | FilemapSeek data =>
    right
    refine ⟨?_, _, rfl, ?_⟩
    · rintro ⟨extents, batch, heq, -⟩
      cases heq
    · have := get_ranges_maps img data (Nat.zero_le img.blocks_cnt) (le_refl _)
      rw [Nat.zero_mul] at this ⊢
      rwa [Nat.zero_add]
  | FilemapNobmap =>
    right
    refine ⟨?_, _, rfl, ?_⟩
    · rintro ⟨extents, batch, heq, -⟩
      cases heq
    · refine ⟨⟨le_refl 0, ?_⟩, ?_, fun b _ _ hlt => ⟨_, List.mem_singleton_self _, ?_⟩⟩
      · simp [Laid, BlockRange.blocks, Extent.stop]
      · simp
      · rw [mem_blocks]
        dsimp only
        omega

end yocto.file_map
