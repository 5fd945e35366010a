-- The strings of the devices (Sddp.c) on a heap on which each string that was allocated stays
-- known, with how often it was freed.
import Yocto.Sddp

open yocto.c_text
open yocto.list_search
open yocto.sddp

namespace yocto.sddp_heap

/-! ## The heap -/

/-- An allocated string, and how often it was freed. -/
structure Cell where
  text : Bytes
  frees : ℕ

/-- The strings in the order in which they were allocated. A pointer is a position. -/
abbrev Heap := List Cell

def free (heap : Heap) : Option ℕ → Heap
  | none => heap
  | some p => heap.modify p fun c => { c with frees := c.frees + 1 }

/-- `dupStr`. An empty string stands for NULL. -/
def dupStr (heap : Heap) (str : Option Bytes) : Heap × ℕ := (heap ++ [⟨str.getD [], 0⟩], heap.length)

/-- What is read through a pointer: nothing, if the string was freed. -/
def read (heap : Heap) (p : ℕ) : Option Bytes := heap[p]?.bind fun c => if c.frees = 0 then some c.text else none

/-! ## The calls -/

inductive Str
  | product_name | primary_proxy | proxies | manufacturer | model | driver | config_url
  deriving DecidableEq

/-- The order in which they are set. -/
def strs_in_order : List Str :=
  [.product_name, .primary_proxy, .proxies, .manufacturer, .model, .driver, .config_url]

structure Device where
  str : Str → Option ℕ
  max_age : Int
  local_only : Bool

def zeroed : Device := ⟨fun _ => none, 0, false⟩

/-- The arguments of `SDDPSetDevice` that describe the device. -/
structure Described where
  str : Str → Option Bytes
  max_age : Int
  local_only : Bool

/-- The string that is freed when there is one to be replaced. -/
def freed_for : Str → Str
  | .config_url => .driver
  | f => f

/-- One of the seven steps: `if (dev->config.f) free(...); dev->config.f = dupStr(f)`. -/
def set_str (described : Described) (s : Heap × Device) (f : Str) : Heap × Device :=
  let heap := if s.2.str f = none then s.1 else free s.1 (s.2.str (freed_for f))
  let (heap, p) := dupStr heap (described.str f)
  (heap, { s.2 with str := Function.update s.2.str f (some p) })

def fill (heap : Heap) (dev : Device) (described : Described) : Heap × Device :=
  let (heap, dev) := strs_in_order.foldl (set_str described) (heap, dev)
  (heap, { dev with max_age := described.max_age, local_only := described.local_only })

def SDDPIsConfigValid (dev : Device) : SDDPStatus :=
  if dev.str .product_name = none ∨ dev.str .primary_proxy = none ∨ dev.str .proxies = none ∨
      dev.str .manufacturer = none ∨ dev.str .model = none ∨ dev.str .driver = none then .INVALID_PARAM
  else .SUCCESS

/-- The loop that walks to the device before the one that is set: `i` counts down, and the device is told
by its position. -/
def walk (count : ℕ) : ℕ → ℕ → Option ℕ
  | i + 2, dev => if dev + 1 < count then walk count (i + 1) (dev + 1) else none
  | _, dev => some dev

/-- The position of the device that is set, which is the first one behind the last where it is created. -/
def target (count : ℕ) (index : Int) : Option ℕ :=
  if count = 0 then if index ≠ 0 then none else some 0
  else if index > 0 then (walk count index.toNat 0).map (· + 1)
  else some 0

/-- `SDDPSetDevice` for the devices of a handle. -/
def SDDPSetDevice (heap : Heap) (devices : List Device) (index : Int) (described : Described) :
    Heap × List Device × SDDPStatus :=
  match target devices.length index with
  | none => (heap, devices, .INVALID_PARAM)
  | some pos =>
    let (heap, dev) := fill heap ((devices[pos]?).getD zeroed) described
    (heap, devices.take pos ++ dev :: devices.drop (pos + 1), SDDPIsConfigValid dev)

/-- What `SDDPShutdown` frees of a device. -/
def free_device (heap : Heap) (dev : Device) : Heap := strs_in_order.foldl (fun heap f => free heap (dev.str f)) heap

/-- The memory, and the devices of each handle, as long as it is not shut down. -/
structure State where
  heap : Heap
  handles : List (Option (List Device))

inductive Call
  | Init
  | SetDevice (handle : ℕ) (index : Int) (described : Described)
  | Shutdown (handle : ℕ)

def exec (s : State) : Call → State × SDDPStatus
  | .Init => ({ s with handles := s.handles ++ [some []] }, .SUCCESS)
  | .SetDevice handle index described =>
    match s.handles[handle]? with
    | some (some devices) =>
      let (heap, devices, status) := SDDPSetDevice s.heap devices index described
      (⟨heap, s.handles.set handle (some devices)⟩, status)
    | _ => (s, .INVALID_PARAM)
  | .Shutdown handle =>
    match s.handles[handle]? with
    | some (some devices) => (⟨devices.foldl free_device s.heap, s.handles.set handle none⟩, .SUCCESS)
    | _ => (s, .INVALID_PARAM)

/-! ## What the calls are for -/

/-- The texts that were set last, for each device of each handle. -/
abbrev Texts := List (Option (List (Str → Bytes)))

def Described.texts (described : Described) (f : Str) : Bytes := (described.str f).getD []

/-- Setting a device that exists, or the next one. -/
def set_texts (texts : List (Str → Bytes)) (index : Int) (described : Described) : List (Str → Bytes) :=
  if 0 ≤ index ∧ index ≤ texts.length then
    texts.take index.toNat ++ described.texts :: texts.drop (index.toNat + 1)
  else texts

def told (a : Texts) : Call → Texts
  | .Init => a ++ [some []]
  | .SetDevice handle index described =>
    match a[handle]? with
    | some (some texts) => a.set handle (some (set_texts texts index described))
    | _ => a
  | .Shutdown handle => a.set handle none

/-- What a device reads through its pointers. -/
def texts_read (heap : Heap) (dev : Device) (f : Str) : Option Bytes := (dev.str f).bind (read heap)

/-- The pointers of a device. -/
def Device.refs (dev : Device) : List ℕ := strs_in_order.filterMap dev.str

def refs (handles : List (Option (List Device))) : List ℕ :=
  handles.flatMap fun devices => (devices.getD []).flatMap Device.refs

/-- How often the string was freed. What is not allocated counts as freed. -/
def frees (heap : Heap) (p : ℕ) : ℕ := (heap[p]?.map Cell.frees).getD 1

/-- Every string of every device is there and is the one that was set, and every string is either pointed
to once and was not freed, or is pointed to no more and was freed once. -/
structure Valid (s : State) (a : Texts) : Prop where
  texts : s.handles.map (Option.map (List.map (texts_read s.heap))) =
    a.map (Option.map (List.map fun texts f => some (texts f)))
  owned : ∀ p, (refs s.handles).count p + frees s.heap p = 1

/-- An index that is neither that of a device nor the next one. -/
def Outside (s : State) : Call → Prop
  | .SetDevice handle index _ =>
    ∀ devices, s.handles[handle]? = some (some devices) → index < 0 ∨ devices.length < index
  | _ => False

/-- The call keeps the descriptions, and one with an index outside changes nothing and fails. -/
structure Kept (s : State) (a : Texts) (c : Call) : Prop where
  valid : Valid (exec s c).1 (told a c)
  refused : Outside s c → (exec s c).1 = s ∧ (exec s c).2 ≠ .SUCCESS

/-- No device is set a second time, and no negative index is used when there are devices. -/
def Once (s : State) : Call → Prop
  | .SetDevice handle index _ =>
    ∀ devices, s.handles[handle]? = some (some devices) → devices = [] ∨ devices.length ≤ index
  | _ => True

/-! ## Strings that are allocated and freed -/

theorem length_free (heap : Heap) (ptr : Option ℕ) : (free heap ptr).length = heap.length := by
  cases ptr <;> simp [free]

theorem getElem?_free (heap : Heap) (q p : ℕ) :
    (free heap (some q))[p]? = heap[p]?.map fun c => if q = p then { c with frees := c.frees + 1 } else c := by
  simp only [free, List.getElem?_modify]
  split <;> simp

theorem frees_free {heap : Heap} {p : ℕ} (q : ℕ) (hp : p < heap.length) :
    frees (free heap (some q)) p = frees heap p + if q = p then 1 else 0 := by
  unfold frees
  rw [getElem?_free, List.getElem?_eq_getElem hp]
  split <;> simp

theorem frees_of_le {heap : Heap} {p : ℕ} (hp : heap.length ≤ p) : frees heap p = 1 := by
  simp [frees, List.getElem?_eq_none hp]

theorem read_free_of_ne (heap : Heap) {p q : ℕ} (h : q ≠ p) : read (free heap (some q)) p = read heap p := by
  unfold read
  rw [getElem?_free]
  simp [h]

def free_all (heap : Heap) (ps : List ℕ) : Heap := ps.foldl (fun heap p => free heap (some p)) heap

theorem length_free_all (heap : Heap) (ps : List ℕ) : (free_all heap ps).length = heap.length := by
  induction ps generalizing heap with
  | nil => rfl
  | cons q ps ih =>
    have h := ih (free heap (some q))
    rwa [length_free] at h

theorem frees_free_all {heap : Heap} {p : ℕ} (ps : List ℕ) (hp : p < heap.length) :
    frees (free_all heap ps) p = frees heap p + ps.count p := by
  induction ps generalizing heap with
  | nil => simp [free_all]
  | cons q ps ih =>
    have h := @ih (free heap (some q)) (by rwa [length_free])
    rw [frees_free q hp] at h
    have hcount : (q :: ps).count p = ps.count p + if q = p then 1 else 0 := by
      simp [List.count_cons]
    rw [hcount]
    unfold free_all at h ⊢
    rw [List.foldl_cons, h]
    omega

theorem read_free_all {p : ℕ} {ps : List ℕ} (heap : Heap) (hp : p ∉ ps) :
    read (free_all heap ps) p = read heap p := by
  induction ps generalizing heap with
  | nil => rfl
  | cons q ps ih =>
    have hne : q ≠ p := fun h => hp (by simp [h])
    have h := ih (free heap (some q)) fun h => hp (List.mem_cons_of_mem _ h)
    rwa [read_free_of_ne heap hne] at h

theorem free_device_eq (heap : Heap) (dev : Device) : free_device heap dev = free_all heap dev.refs := by
  unfold free_device free_all Device.refs
  rw [List.foldl_filterMap]
  apply congrArg (fun step => strs_in_order.foldl step heap)
  funext heap f
  cases dev.str f <;> rfl

theorem foldl_free_device (heap : Heap) (devices : List Device) :
    devices.foldl free_device heap = free_all heap (devices.flatMap Device.refs) := by
  unfold free_all
  rw [List.foldl_flatMap]
  apply congrArg (fun step => devices.foldl step heap)
  funext heap dev
  exact free_device_eq heap dev

theorem read_append {heap : Heap} (cells : Heap) {p : ℕ} (h : p < heap.length) :
    read (heap ++ cells) p = read heap p := by
  unfold read
  rw [List.getElem?_append_left h]

/-! ## A device that is set -/

theorem length_set_str (described : Described) (s : Heap × Device) (f : Str) :
    (set_str described s f).1.length = s.1.length + 1 := by
  unfold set_str dupStr
  split <;> simp [length_free]

theorem str_set_str (described : Described) (s : Heap × Device) (f : Str) :
    (set_str described s f).2.str = Function.update s.2.str f (some s.1.length) := by
  unfold set_str dupStr
  split <;> simp [length_free]

theorem heap_set_str {s : Heap × Device} {f : Str} (described : Described) (h : s.2.str f = none) :
    (set_str described s f).1 = s.1 ++ [⟨described.texts f, 0⟩] := by
  simp [set_str, dupStr, h, Described.texts]

theorem foldl_set_str (described : Described) {fs : List Str} (hfs : fs.Nodup) {s : Heap × Device}
    (hnone : ∀ f ∈ fs, s.2.str f = none) :
    (fs.foldl (set_str described) s).1 = s.1 ++ fs.map (fun f => ⟨described.texts f, 0⟩) ∧
      ∀ f, (fs.foldl (set_str described) s).2.str f =
        if f ∈ fs then some (s.1.length + fs.idxOf f) else s.2.str f := by
  induction fs generalizing s with
  | nil => simp
  | cons g fs ih =>
    obtain ⟨hg, hfs⟩ := List.nodup_cons.mp hfs
    have hstr := str_set_str described s g
    have hheap := heap_set_str described (hnone g (by simp))
    have hlength := length_set_str described s g
    have hnext : ∀ f ∈ fs, (set_str described s g).2.str f = none := by
      intro f hf
      have hne : f ≠ g := fun h => hg (h ▸ hf)
      rw [hstr, Function.update_of_ne hne]
      exact hnone f (List.mem_cons_of_mem _ hf)
    obtain ⟨hcells, hptr⟩ := ih hfs hnext
    rw [List.foldl_cons]
    constructor
    · rw [hcells, hheap]
      simp
    · intro f
      rw [hptr f, hstr, hlength]
      by_cases hf : f = g
      · subst hf
        simp [hg]
      · rw [Function.update_of_ne hf, List.idxOf_cons_ne _ (Ne.symm hf)]
        simp only [List.mem_cons, hf, false_or]
        split
        · congr 1
          omega
        · rfl

theorem mem_strs_in_order (f : Str) : f ∈ strs_in_order := by
  cases f <;> decide

theorem getElem?_idxOf (f : Str) : strs_in_order[strs_in_order.idxOf f]? = some f := by
  cases f <;> decide

theorem filterMap_idxOf (n : ℕ) :
    strs_in_order.filterMap (fun f => some (n + strs_in_order.idxOf f)) = List.range' n 7 := by
  rfl

def cells_of (described : Described) : Heap := strs_in_order.map fun f => ⟨described.texts f, 0⟩

theorem length_cells_of (described : Described) : (cells_of described).length = 7 := rfl

theorem heap_fill_zeroed (heap : Heap) (described : Described) :
    (fill heap zeroed described).1 = heap ++ cells_of described :=
  (@foldl_set_str described strs_in_order (by decide) (heap, zeroed) fun _ _ => rfl).1

theorem str_fill_zeroed (heap : Heap) (described : Described) (f : Str) :
    (fill heap zeroed described).2.str f = some (heap.length + strs_in_order.idxOf f) := by
  have h := (@foldl_set_str described strs_in_order (by decide) (heap, zeroed) fun _ _ => rfl).2 f
  rwa [if_pos (mem_strs_in_order f)] at h

theorem texts_read_fill_zeroed (heap : Heap) (described : Described) :
    texts_read (fill heap zeroed described).1 (fill heap zeroed described).2 =
      fun f => some (described.texts f) := by
  funext f
  unfold texts_read
  rw [str_fill_zeroed, heap_fill_zeroed]
  unfold read cells_of
  rw [Option.bind_some, List.getElem?_append_right (by omega), Nat.add_sub_cancel_left,
    List.getElem?_map, getElem?_idxOf]
  simp

theorem refs_fill_zeroed (heap : Heap) (described : Described) :
    (fill heap zeroed described).2.refs = List.range' heap.length 7 := by
  unfold Device.refs
  rw [← filterMap_idxOf]
  exact congrArg (fun g => strs_in_order.filterMap g) (funext (str_fill_zeroed heap described))

theorem owned_fill_zeroed (heap : Heap) (described : Described) {p : ℕ} (hp : heap.length ≤ p) :
    (List.range' heap.length 7).count p + frees (heap ++ cells_of described) p = 1 := by
  by_cases hnew : p < heap.length + 7
  · have hmem : p ∈ List.range' heap.length 7 := by
      rw [List.mem_range'_1]
      omega
    have hcount := List.count_eq_one_of_mem List.nodup_range' hmem
    have hfrees : frees (heap ++ cells_of described) p = 0 := by
      unfold frees cells_of
      rw [List.getElem?_append_right hp, List.getElem?_map]
      have hsome : p - heap.length < strs_in_order.length := by
        simp only [strs_in_order, List.length_cons, List.length_nil]
        omega
      simp [List.getElem?_eq_getElem hsome]
    omega
  · have hmem : p ∉ List.range' heap.length 7 := by
      rw [List.mem_range'_1]
      omega
    rw [List.count_eq_zero_of_not_mem hmem, frees_of_le (by simp [length_cells_of]; omega)]

theorem str_foldl_of_not_mem (described : Described) {fs : List Str} {f : Str} (hf : f ∉ fs) (s : Heap × Device) :
    (fs.foldl (set_str described) s).2.str f = s.2.str f := by
  induction fs generalizing s with
  | nil => rfl
  | cons g fs ih =>
    have hne : f ≠ g := fun h => hf (by simp [h])
    rw [List.foldl_cons, ih fun h => hf (List.mem_cons_of_mem _ h), str_set_str, Function.update_of_ne hne]

theorem read_free_self (heap : Heap) (p : ℕ) : read (free heap (some p)) p = none := by
  unfold read
  rw [getElem?_free]
  cases heap[p]? <;> simp

theorem texts_read_fill (heap : Heap) (described : Described) {dev : Device} (h : dev.str .config_url ≠ none) :
    texts_read (fill heap dev described).1 (fill heap dev described).2 .driver = none := by
  let fs : List Str := [.product_name, .primary_proxy, .proxies, .manufacturer, .model]
  let s := fs.foldl (set_str described) (heap, dev)
  let t := set_str described s .driver
  have hurl : t.2.str .config_url = dev.str .config_url := by
    rw [str_set_str, Function.update_of_ne (by decide)]
    exact str_foldl_of_not_mem described (by decide) _
  have hdriver : t.2.str .driver = some s.1.length := by
    rw [str_set_str, Function.update_self]
  have hlength : t.1.length = s.1.length + 1 := length_set_str described s .driver
  -- The step of the url frees the driver of the step before it.
  have hheap : (set_str described t .config_url).1 =
      free t.1 (some s.1.length) ++ [⟨described.texts .config_url, 0⟩] := by
    unfold set_str dupStr freed_for
    rw [hurl, if_neg h, hdriver]
    rfl
  have hptr : (set_str described t .config_url).2.str .driver = some s.1.length := by
    rw [str_set_str, Function.update_of_ne (by decide), hdriver]
  change ((set_str described t .config_url).2.str .driver).bind
    (read (set_str described t .config_url).1) = none
  rw [hptr, hheap, Option.bind_some, read_append _ (by rw [length_free]; omega), read_free_self]

/-! ## The texts and the owners over all handles -/

/-- What the devices of all handles read. -/
def view (heap : Heap) (handles : List (Option (List Device))) : List (Option (List (Str → Option Bytes))) :=
  handles.map (Option.map (List.map (texts_read heap)))

theorem texts_read_congr {heap heap' : Heap} {dev : Device} (h : ∀ p ∈ dev.refs, read heap' p = read heap p) :
    texts_read heap' dev = texts_read heap dev := by
  funext f
  unfold texts_read
  cases hf : dev.str f with
  | none => rfl
  | some p => exact h p (List.mem_filterMap.mpr ⟨f, mem_strs_in_order f, hf⟩)

theorem view_congr {heap heap' : Heap} {handles : List (Option (List Device))}
    (h : ∀ p ∈ refs handles, read heap' p = read heap p) : view heap' handles = view heap handles := by
  apply List.map_congr_left
  intro devices hdevices
  cases devices with
  | none => rfl
  | some devices =>
    apply congrArg some
    apply List.map_congr_left
    intro dev hdev
    apply texts_read_congr
    intro p hp
    exact h p (List.mem_flatMap.mpr ⟨_, hdevices, List.mem_flatMap.mpr ⟨dev, hdev, hp⟩⟩)

theorem count_refs_set {handles : List (Option (List Device))} {handle : ℕ} {x : Option (List Device)}
    (y : Option (List Device)) (h : handles[handle]? = some x) (p : ℕ) :
    (refs (handles.set handle y)).count p + ((x.getD []).flatMap Device.refs).count p =
      (refs handles).count p + ((y.getD []).flatMap Device.refs).count p := by
  unfold refs
  induction handles generalizing handle with
  | nil => simp at h
  | cons z handles ih =>
    cases handle with
    | zero =>
      obtain rfl : z = x := by simpa using h
      simp only [List.set_cons_zero, List.flatMap_cons, List.count_append]
      omega
    | succ handle =>
      have h := ih (by simpa using h)
      simp only [List.set_cons_succ, List.flatMap_cons, List.count_append]
      omega

theorem refs_set_le {handles : List (Option (List Device))} {handle : ℕ} {devices : List Device}
    (h : handles[handle]? = some (some devices)) {p : ℕ} (hp : (refs handles).count p ≤ 1)
    (hmem : p ∈ refs (handles.set handle none)) : p ∉ devices.flatMap Device.refs := by
  have hcount := count_refs_set none h p
  have hpos := List.count_pos_iff.mpr hmem
  simp only [Option.getD_some, Option.getD_none, List.flatMap_nil, List.count_nil] at hcount
  rw [← List.count_eq_zero]
  omega

/-! ## The device that is set -/

theorem walk_succ (count i dev : ℕ) (hdev : dev < count) :
    walk count (i + 1) dev = if dev + i < count then some (dev + i) else none := by
  induction i generalizing dev with
  | zero => simp [walk, hdev]
  | succ i ih =>
    unfold walk
    by_cases hnext : dev + 1 < count
    · rw [if_pos hnext, ih (dev + 1) hnext, show dev + 1 + i = dev + (i + 1) by omega]
    · rw [if_neg hnext, if_neg (by omega)]

theorem target_eq (count : ℕ) (index : Int) :
    target count index =
      if count < index ∨ (count = 0 ∧ index < 0) then none else some index.toNat := by
  unfold target
  by_cases hcount : count = 0
  · subst hcount
    by_cases hindex : index = 0
    · simp [hindex]
    · rw [if_pos rfl, if_pos hindex, if_pos (by omega)]
  · rw [if_neg hcount]
    by_cases hindex : index > 0
    · obtain ⟨i, rfl⟩ : ∃ i : ℕ, index = (i + 1 : ℕ) := ⟨index.toNat - 1, by omega⟩
      rw [if_pos hindex, Int.toNat_natCast, walk_succ count i 0 (by omega), Nat.zero_add]
      by_cases hi : i < count
      · rw [if_pos hi, if_neg (by omega)]
        rfl
      · rw [if_neg hi, if_pos (by omega)]
        rfl
    · rw [if_neg hindex, if_neg (by omega), Int.toNat_of_nonpos (by omega)]

/-! ## What one call keeps -/

variable {s : State} {a : Texts} {handle : ℕ} {devices : List Device} {index : Int} {described : Described}

theorem Valid.texts_of (hvalid : Valid s a) (h : s.handles[handle]? = some (some devices)) :
    ∃ texts, a[handle]? = some (some texts) ∧
      devices.map (texts_read s.heap) = texts.map fun t f => some (t f) := by
  have hview := congrArg (fun l => l[handle]?) hvalid.texts
  simp only [List.getElem?_map, h, Option.map_some] at hview
  cases ha : a[handle]? with
  | none => simp [ha] at hview
  | some x =>
    cases x with
    | none => simp [ha] at hview
    | some texts => exact ⟨texts, rfl, by simpa [ha] using hview⟩

theorem Valid.read_ne_none (hvalid : Valid s a) {p : ℕ} (hp : p ∈ refs s.handles) : p < s.heap.length := by
  by_contra hle
  have howned := hvalid.owned p
  rw [frees_of_le (Nat.le_of_not_lt hle)] at howned
  have hpos := List.count_pos_iff.mpr hp
  omega

theorem Valid.str_ne_none (hvalid : Valid s a) (h : s.handles[handle]? = some (some devices))
    {dev : Device} (hdev : dev ∈ devices) (f : Str) : dev.str f ≠ none := by
  obtain ⟨texts, -, htexts⟩ := hvalid.texts_of h
  have hmem : texts_read s.heap dev ∈ texts.map fun t f => some (t f) := by
    rw [← htexts]
    exact List.mem_map_of_mem hdev
  obtain ⟨t, -, ht⟩ := List.mem_map.mp hmem
  intro hnone
  have hread := congrFun ht f
  simp [texts_read, hnone] at hread

theorem Valid.closed (hvalid : Valid s a) (h : ∀ devices, s.handles[handle]? ≠ some (some devices)) :
    (a[handle]? = none ∨ a[handle]? = some none) ∧
      (s.handles[handle]? = none ∨ s.handles[handle]? = some none) := by
  have hview := congrArg (fun l => l[handle]?) hvalid.texts
  simp only [List.getElem?_map] at hview
  cases hs : s.handles[handle]? with
  | none =>
    rw [hs] at hview
    exact ⟨.inl (by simpa using hview.symm), .inl rfl⟩
  | some x =>
    cases x with
    | none =>
      rw [hs] at hview
      cases ha : a[handle]? with
      | none => simp [ha] at hview
      | some y =>
        cases y with
        | none => simp
        | some texts => simp [ha] at hview
    | some devices => exact absurd hs (h devices)

theorem valid_start : Valid ⟨[], []⟩ [] := ⟨rfl, fun _ => rfl⟩

theorem Valid.init (hvalid : Valid s a) : Valid (exec s .Init).1 (told a .Init) := by
  constructor
  · change (s.handles ++ [some []]).map _ = (a ++ [some []]).map _
    rw [List.map_append, List.map_append]
    exact congrArg₂ (· ++ ·) hvalid.texts rfl
  · intro p
    have hrefs : refs (s.handles ++ [some []]) = refs s.handles := by simp [refs]
    change (refs (s.handles ++ [some []])).count p + _ = 1
    rw [hrefs]
    exact hvalid.owned p

theorem Valid.shutdown (hvalid : Valid s a) (handle : ℕ) :
    Valid (exec s (.Shutdown handle)).1 (told a (.Shutdown handle)) := by
  by_cases hopen : ∃ devices, s.handles[handle]? = some (some devices)
  · obtain ⟨devices, h⟩ := hopen
    have hexec : (exec s (.Shutdown handle)).1 =
        ⟨free_all s.heap (devices.flatMap Device.refs), s.handles.set handle none⟩ := by
      simp only [exec, h, foldl_free_device]
    rw [hexec]
    constructor
    · have hread : ∀ p ∈ refs (s.handles.set handle none),
          read (free_all s.heap (devices.flatMap Device.refs)) p = read s.heap p := by
        intro p hp
        have hle := hvalid.owned p
        exact read_free_all _ (refs_set_le h (by omega) hp)
      refine (view_congr hread).trans ?_
      simp only [view, told, List.map_set, hvalid.texts, Option.map_none]
    · intro p
      have hcount := count_refs_set none h p
      have howned := hvalid.owned p
      simp only [Option.getD_some, Option.getD_none, List.flatMap_nil, List.count_nil] at hcount
      by_cases hp : p < s.heap.length
      · simp only [frees_free_all _ hp]
        omega
      · rw [frees_of_le (Nat.le_of_not_lt hp)] at howned
        have hfreed := length_free_all s.heap (devices.flatMap Device.refs)
        have hfrees := @frees_of_le (free_all s.heap (devices.flatMap Device.refs)) p (by omega)
        simp only [hfrees]
        omega
  · rw [not_exists] at hopen
    obtain ⟨ha, hs⟩ := hvalid.closed hopen
    have hexec : (exec s (.Shutdown handle)).1 = s := by
      rcases hs with hs | hs <;> simp only [exec, hs]
    have htold : told a (.Shutdown handle) = a := by
      rcases ha with ha | ha
      · exact List.set_eq_of_length_le (List.getElem?_eq_none_iff.mp ha)
      · obtain ⟨hlt, hget⟩ := List.getElem?_eq_some_iff.mp ha
        change a.set handle none = a
        rw [← hget, List.set_getElem_self]
    rw [hexec, htold]
    exact hvalid

theorem exec_SetDevice (h : s.handles[handle]? = some (some devices)) :
    exec s (.SetDevice handle index described) =
      (⟨(SDDPSetDevice s.heap devices index described).1,
        s.handles.set handle (some (SDDPSetDevice s.heap devices index described).2.1)⟩,
        (SDDPSetDevice s.heap devices index described).2.2) := by
  simp only [exec, h]

theorem set_closed (hvalid : Valid s a) (h : ∀ devices, s.handles[handle]? ≠ some (some devices)) :
    exec s (.SetDevice handle index described) = (s, .INVALID_PARAM) ∧
      told a (.SetDevice handle index described) = a := by
  obtain ⟨ha, hs⟩ := hvalid.closed h
  constructor
  · rcases hs with hs | hs <;> simp only [exec, hs]
  · rcases ha with ha | ha <;> simp only [told, ha]

theorem set_self {α : Type} {l : List α} {i : ℕ} {x : α} (h : l[i]? = some x) : l.set i x = l := by
  obtain ⟨hlt, rfl⟩ := List.getElem?_eq_some_iff.mp h
  exact List.set_getElem_self hlt

theorem set_refused (hvalid : Valid s a) (h : s.handles[handle]? = some (some devices))
    (hindex : devices.length < index ∨ (devices = [] ∧ index < 0)) :
    exec s (.SetDevice handle index described) = (s, .INVALID_PARAM) ∧
      told a (.SetDevice handle index described) = a := by
  obtain ⟨texts, ha, htexts⟩ := hvalid.texts_of h
  have hlength : texts.length = devices.length := by simpa using (congrArg List.length htexts).symm
  constructor
  · have htarget : target devices.length index = none := by
      rw [target_eq, if_pos (by simpa using hindex)]
    rw [exec_SetDevice h]
    simp only [SDDPSetDevice, htarget, set_self h]
  · have hsame : set_texts texts index described = texts := by
      unfold set_texts
      rw [if_neg]
      rw [hlength]
      rintro ⟨hnonneg, hle⟩
      rcases hindex with hlt | ⟨-, hneg⟩ <;> omega
    simp only [told, ha, hsame, set_self ha]

theorem Valid.set_next (hvalid : Valid s a) (h : s.handles[handle]? = some (some devices)) :
    Valid (exec s (.SetDevice handle devices.length described)).1
      (told a (.SetDevice handle devices.length described)) := by
  obtain ⟨texts, ha, htexts⟩ := hvalid.texts_of h
  have hlength : texts.length = devices.length := by simpa using (congrArg List.length htexts).symm
  have htarget : target devices.length devices.length = some devices.length := by
    rw [target_eq, if_neg (by omega), Int.toNat_natCast]
  have hexec : (exec s (.SetDevice handle devices.length described)).1 =
      ⟨s.heap ++ cells_of described,
        s.handles.set handle (some (devices ++ [(fill s.heap zeroed described).2]))⟩ := by
    rw [exec_SetDevice h]
    simp only [SDDPSetDevice, htarget, List.getElem?_eq_none (Nat.le_refl devices.length), Option.getD_none,
      heap_fill_zeroed, List.take_length, List.drop_eq_nil_of_le (Nat.le_succ devices.length)]
  have htold : told a (.SetDevice handle devices.length described) =
      a.set handle (some (texts ++ [described.texts])) := by
    simp only [told, ha, set_texts, hlength, Int.toNat_natCast]
    rw [if_pos (by omega), ← hlength, List.take_length, List.drop_eq_nil_of_le (Nat.le_succ texts.length)]
  have hold : ∀ p ∈ refs s.handles, read (s.heap ++ cells_of described) p = read s.heap p := by
    intro p hp
    exact read_append _ (hvalid.read_ne_none hp)
  rw [hexec, htold]
  constructor
  · have hview := (view_congr hold).trans hvalid.texts
    have hdevices : devices.map (texts_read (s.heap ++ cells_of described)) = texts.map fun t f => some (t f) := by
      have hget := congrArg (fun l => l[handle]?) hview
      simpa [view, h, ha] using hget
    have hnew := texts_read_fill_zeroed s.heap described
    rw [heap_fill_zeroed] at hnew
    rw [List.map_set, List.map_set]
    change (view _ s.handles).set handle _ = _
    rw [hview, Option.map_some, Option.map_some, List.map_append, List.map_append, hdevices]
    simp only [List.map_cons, List.map_nil, hnew]
  · intro p
    have hcount := count_refs_set (some (devices ++ [(fill s.heap zeroed described).2])) h p
    simp only [Option.getD_some, List.flatMap_append, List.flatMap_cons, List.flatMap_nil, List.append_nil,
      List.count_append, refs_fill_zeroed] at hcount
    have howned := hvalid.owned p
    change (refs (s.handles.set handle _)).count p + frees (s.heap ++ cells_of described) p = 1
    by_cases hp : p < s.heap.length
    · have hnot : p ∉ List.range' s.heap.length 7 := by
        rw [List.mem_range'_1]
        omega
      have hsame : frees (s.heap ++ cells_of described) p = frees s.heap p := by
        unfold frees
        rw [List.getElem?_append_left hp]
      rw [List.count_eq_zero_of_not_mem hnot] at hcount
      omega
    · have hnew := owned_fill_zeroed s.heap described (Nat.le_of_not_lt hp)
      rw [frees_of_le (Nat.le_of_not_lt hp)] at howned
      omega

theorem not_valid_of_set_again (hvalid : Valid s a) (h : s.handles[handle]? = some (some devices))
    (hne : devices ≠ []) (hindex : index < devices.length) :
    ¬ Valid (exec s (.SetDevice handle index described)).1 (told a (.SetDevice handle index described)) := by
  have hpos := List.length_pos_iff.mpr hne
  have hlt : index.toNat < devices.length := by omega
  have htarget : target devices.length index = some index.toNat := by
    rw [target_eq, if_neg (by omega)]
  have hdev := List.getElem?_eq_getElem hlt
  let new := fill s.heap devices[index.toNat] described
  have hexec : (exec s (.SetDevice handle index described)).1 =
      ⟨new.1, s.handles.set handle
        (some (devices.take index.toNat ++ new.2 :: devices.drop (index.toNat + 1)))⟩ := by
    rw [exec_SetDevice h]
    simp only [SDDPSetDevice, htarget, hdev, Option.getD_some]
    rfl
  rw [hexec]
  intro hnew
  have hhandle : handle < s.handles.length := (List.getElem?_eq_some_iff.mp h).1
  obtain ⟨texts, -, htexts⟩ := hnew.texts_of (List.getElem?_set_self hhandle)
  have hmem : texts_read new.1 new.2 ∈ texts.map fun t f => some (t f) := by
    rw [← htexts]
    simp
  obtain ⟨t, -, ht⟩ := List.mem_map.mp hmem
  have hlost := texts_read_fill s.heap described
    (hvalid.str_ne_none h (List.getElem_mem hlt) .config_url)
  have hread := congrFun ht .driver
  rw [hlost] at hread
  cases hread

theorem kept_iff (hvalid : Valid s a) (c : Call) : Kept s a c ↔ Once s c := by
  cases c with
  | Init => exact ⟨fun _ => trivial, fun _ => ⟨hvalid.init, False.elim⟩⟩
  | Shutdown handle => exact ⟨fun _ => trivial, fun _ => ⟨hvalid.shutdown handle, False.elim⟩⟩
  | SetDevice handle index described =>
    by_cases hopen : ∃ devices, s.handles[handle]? = some (some devices)
    · obtain ⟨devices, h⟩ := hopen
      constructor
      · intro hkept devices' h'
        obtain rfl : devices' = devices := by simpa [h'] using h
        by_contra hagain
        rw [not_or, not_le] at hagain
        exact not_valid_of_set_again hvalid h hagain.1 hagain.2 hkept.valid
      · intro honce
        by_cases hnext : index = devices.length
        · subst hnext
          refine ⟨hvalid.set_next h, fun hout => ?_⟩
          rcases hout devices h with hlt | hlt <;> omega
        · have hrefused : devices.length < index ∨ (devices = [] ∧ index < 0) := by
            rcases honce devices h with rfl | hle
            · simp only [List.length_nil, Nat.cast_zero, true_and] at hnext ⊢
              omega
            · omega
          obtain ⟨hexec, htold⟩ := @set_refused _ _ _ _ _ described hvalid h hrefused
          refine ⟨?_, fun _ => ?_⟩
          · rw [hexec, htold]
            exact hvalid
          · simp [hexec]
    · rw [not_exists] at hopen
      obtain ⟨hexec, htold⟩ := @set_closed _ _ _ index described hvalid hopen
      refine ⟨fun _ devices h => absurd h (hopen devices), fun _ => ⟨?_, fun _ => ?_⟩⟩
      · rw [hexec, htold]
        exact hvalid
      · simp [hexec]

/-! ## Runs -/

/-- The state after a run of calls from the start, and the texts that were set. -/
def after (calls : List Call) : State × Texts :=
  calls.foldl (fun s c => ((exec s.1 c).1, told s.2 c)) (⟨[], []⟩, [])

theorem after_append (calls : List Call) (c : Call) :
    after (calls ++ [c]) = ((exec (after calls).1 c).1, told (after calls).2 c) := by
  simp [after]

theorem valid_after {calls : List Call}
    (h : ∀ before c, before ++ [c] <+: calls → Valid (after before).1 (after before).2 →
      Valid (after (before ++ [c])).1 (after (before ++ [c])).2) :
    ∀ before, before <+: calls → Valid (after before).1 (after before).2 := by
  intro before hbefore
  induction before using List.reverseRecOn with
  | nil => exact valid_start
  | append_singleton before c ih =>
    exact h before c hbefore (ih ((List.prefix_append before [c]).trans hbefore))

/-- The descriptions are kept throughout a run when no device is set a second time in it, and no negative index
is used for a handle with devices. -/
theorem descriptions_stay_valid_iff (calls : List Call) :
    (∀ before c, before ++ [c] <+: calls → Kept (after before).1 (after before).2 c) ↔
      ∀ before c, before ++ [c] <+: calls → Once (after before).1 c := by
  constructor
  · intro hkept before c hc
    have hvalid := @valid_after calls (fun before c hc _ => by
      rw [after_append]
      exact (hkept before c hc).valid)
    exact (kept_iff (hvalid before ((List.prefix_append before [c]).trans hc)) c).mp (hkept before c hc)
  · intro honce before c hc
    have hvalid := @valid_after calls (fun before c hc hvalid => by
      rw [after_append]
      exact ((kept_iff hvalid c).mpr (honce before c hc)).valid)
    exact (kept_iff (hvalid before ((List.prefix_append before [c]).trans hc)) c).mpr (honce before c hc)

def television : Described := ⟨fun _ => some (ascii "c4:tv"), 1800, false⟩

/-- The same device is set twice, and its driver is freed while the device points to it. -/
theorem the_driver_is_lost :
    ¬ ∀ calls : List Call, ∀ before c, before ++ [c] <+: calls → Kept (after before).1 (after before).2 c := by
  intro h
  have hset := h [.Init, .SetDevice 0 0 television, .SetDevice 0 0 television]
    [.Init, .SetDevice 0 0 television] (.SetDevice 0 0 television) (List.prefix_refl _)
  obtain ⟨texts, -, htexts⟩ := @Valid.texts_of _ _ 0 _ hset.valid rfl
  have hlength := congrArg List.length htexts
  cases texts with
  | nil => simp at hlength
  | cons t texts =>
    have hread := congrFun (List.cons.inj htexts).1 .driver
    cases hread

end yocto.sddp_heap
