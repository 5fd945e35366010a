-- The buffer into which a packet of SDDP is written.
import Yocto.Sddp
import Yocto.SddpRoundTrip

open yocto.list_search
open yocto.sddp_packet
open yocto.sddp_round_trip
open yocto.sddp

namespace yocto.sddp_buffers

/-! ## The pieces of a packet -/

def first_pieces : StartLine → List Bytes
  | .Unknown => []
  | .Request method argument version =>
    [method.getD [], [space], argument.getD [], space :: SDDP, version.getD [], crlf]
  | .Response status_code reason version =>
    [SDDP, version.getD [], [space], status_code.getD [], [space], reason.getD [], crlf]

def header_pieces (packet : SddpPacket) (f : Field × Bool) : List Bytes :=
  ((packet.headers f.1).map fun value =>
    [f.1.name, if f.2 then [colon, space, quote] else [colon, space], value,
      if f.2 then quote :: crlf else crlf]).getD []

def body_pieces (body : Option Bytes) : List Bytes := (body.map fun body => [crlf, body]).getD []

def pieces (packet : SddpPacket) : List Bytes :=
  first_pieces packet.h ++ written_fields.flatMap (header_pieces packet) ++ body_pieces packet.body

/-- No part of the first line is missing. -/
def Writable : StartLine → Prop
  | .Unknown => False
  | .Request method argument version => hasValue method ∧ hasValue argument ∧ hasValue version
  | .Response status_code reason version => hasValue status_code ∧ hasValue reason ∧ hasValue version

/-- A number that is not too large says that the buffer holds the packet, and the text in the buffer
with its NUL is never longer than that. -/
structure Delivered (packet : SddpPacket) (old : Bytes) (bufferSize : ℕ) : Prop where
  complete : 1 ≤ (WriteSDDPPacket packet (some old) bufferSize).written →
    (WriteSDDPPacket packet (some old) bufferSize).written ≤ bufferSize →
      (WriteSDDPPacket packet (some old) bufferSize).buffer = some (packet_text packet) ∧
        (packet_text packet).length = (WriteSDDPPacket packet (some old) bufferSize).written - 1
  within : bufferSize = 0 ∧ (WriteSDDPPacket packet (some old) bufferSize).buffer = some old ∨
    ∃ t, (WriteSDDPPacket packet (some old) bufferSize).buffer = some t ∧ t.length + 1 ≤ bufferSize

/-! ## The packet is written piece by piece -/

section
variable {bufferSize : ℕ} {w : Written}

theorem writeFirstLine_pieces {first : StartLine} (h : Writable first) :
    writeFirstLine bufferSize w first = some ((first_pieces first).foldl (writeBuffer bufferSize) w) := by
  cases first with
  | Unknown => exact h.elim
  | Request => exact if_pos h
  | Response => exact if_pos h

theorem writeFirstLine_none {first : StartLine} (h : ¬Writable first) : writeFirstLine bufferSize w first = none := by
  cases first with
  | Unknown => rfl
  | Request => exact if_neg h
  | Response => exact if_neg h

theorem writeHeader_pieces (packet : SddpPacket) (f : Field × Bool) :
    writeHeader bufferSize w f.1.name (packet.headers f.1) f.2 =
      (header_pieces packet f).foldl (writeBuffer bufferSize) w := by
  unfold writeHeader header_pieces
  cases packet.headers f.1 <;> rfl

theorem writeHeaders_pieces (packet : SddpPacket) (fields : List (Field × Bool)) :
    writeHeaders bufferSize packet fields w =
      (fields.flatMap (header_pieces packet)).foldl (writeBuffer bufferSize) w := by
  unfold writeHeaders
  induction fields generalizing w with
  | nil => rfl
  | cons f fields ih =>
    rw [List.foldl_cons, List.flatMap_cons, List.foldl_append, ← writeHeader_pieces, ← ih]

theorem writeBody_pieces (body : Option Bytes) :
    writeBody bufferSize w body = (body_pieces body).foldl (writeBuffer bufferSize) w := by
  cases body <;> rfl

end

def cleared (old : Bytes) (bufferSize : ℕ) : Bytes := if bufferSize > 0 then [] else old

theorem write_pieces {packet : SddpPacket} (h : Writable packet.h) (old : Bytes) (bufferSize : ℕ) :
    WriteSDDPPacket packet (some old) bufferSize =
      (pieces packet).foldl (writeBuffer bufferSize) ⟨1, some (cleared old bufferSize)⟩ := by
  have hbuffer : (if bufferSize > 0 then (some old).map fun _ => [] else some old) = some (cleared old bufferSize) := by
    unfold cleared
    split <;> rfl
  unfold WriteSDDPPacket pieces
  rw [hbuffer]
  dsimp only
  rw [writeFirstLine_pieces h]
  dsimp only
  rw [writeBody_pieces, writeHeaders_pieces, List.foldl_append, List.foldl_append]

theorem write_nothing {packet : SddpPacket} (h : ¬Writable packet.h) (old : Bytes) (bufferSize : ℕ) :
    WriteSDDPPacket packet (some old) bufferSize = ⟨0, some (cleared old bufferSize)⟩ := by
  have hbuffer : (if bufferSize > 0 then (some old).map fun _ => [] else some old) = some (cleared old bufferSize) := by
    unfold cleared
    split <;> rfl
  unfold WriteSDDPPacket
  rw [hbuffer]
  dsimp only
  rw [writeFirstLine_none h]

theorem pieces_text {packet : SddpPacket} (h : Writable packet.h) : (pieces packet).flatten = packet_text packet := by
  have hfirst : (first_pieces packet.h).flatten = first_line packet.h ++ crlf := by
    cases hstart : packet.h with
    | Unknown =>
      rw [hstart] at h
      exact h.elim
    | Request => simp [first_pieces, first_line]
    | Response => simp [first_pieces, first_line]
  have hheader : ∀ f, (header_pieces packet f).flatten = header_text packet f := by
    rintro ⟨f, quoted⟩
    unfold header_pieces header_text
    cases packet.headers f with
    | none => rfl
    | some value => cases quoted <;> simp [header_line, shown]
  have hheaders : ∀ fields : List (Field × Bool), (fields.flatMap (header_pieces packet)).flatten = fields.flatMap (header_text packet) := by
    intro fields
    induction fields with
    | nil => rfl
    | cons f fields ih => rw [List.flatMap_cons, List.flatten_append, hheader, ih, List.flatMap_cons]
  have hbody : (body_pieces packet.body).flatten = body_text packet.body := by
    cases packet.body with
    | none => rfl
    | some body => simp [body_pieces, body_text]
  unfold pieces packet_text
  rw [List.flatten_append, List.flatten_append, hfirst, hheaders, hbody]
  simp

/-! ## What fits into the buffer -/

/-- The text in the buffer is counted with its NUL, and leaves a byte unless it is empty. -/
def Fits (bufferSize : ℕ) (w : Written) : Prop :=
  ∃ t, w.buffer = some t ∧ t.length + 1 ≤ w.written ∧ (t = [] ∨ t.length + 1 < bufferSize)

theorem Fits.write {bufferSize : ℕ} {w : Written} (h : Fits bufferSize w) (str : Bytes) :
    Fits bufferSize (writeBuffer bufferSize w str) := by
  obtain ⟨t, htext, hcounted, hroom⟩ := h
  unfold Fits writeBuffer
  dsimp only
  split
  · rename_i hfits
    refine ⟨t ++ str, by rw [htext, Option.map_some], ?_, Or.inr ?_⟩
    · rw [List.length_append]
      omega
    · rw [List.length_append]
      omega
  · exact ⟨t, htext, by omega, hroom⟩

theorem Fits.write_all {bufferSize : ℕ} {w : Written} (h : Fits bufferSize w) (strs : List Bytes) :
    Fits bufferSize (strs.foldl (writeBuffer bufferSize) w) := by
  induction strs generalizing w with
  | nil => exact h
  | cons str strs ih => exact ih (h.write str)

theorem write_all_none (w : Written) (strs : List Bytes) : (strs.foldl (writeBuffer 0) w).buffer = w.buffer := by
  induction strs generalizing w with
  | nil => rfl
  | cons str strs ih =>
    have hkeep : (writeBuffer 0 w str).buffer = w.buffer := by simp [writeBuffer]
    rw [List.foldl_cons, ih, hkeep]

section
variable {packet : SddpPacket} (old : Bytes) {bufferSize : ℕ}

theorem written_eq (h : Writable packet.h) :
    (WriteSDDPPacket packet (some old) bufferSize).written = (packet_text packet).length + 1 := by
  have happends := @appends_buffers bufferSize (pieces packet) ⟨1, some (cleared old bufferSize)⟩
  rw [write_pieces h, happends.written, pieces_text h, Nat.add_comm]

theorem write_fits (hpos : 0 < bufferSize) (h : Writable packet.h) :
    Fits bufferSize (WriteSDDPPacket packet (some old) bufferSize) := by
  rw [write_pieces h]
  apply Fits.write_all
  have hcleared : cleared old bufferSize = [] := if_pos hpos
  rw [hcleared]
  exact ⟨[], rfl, le_rfl, Or.inl rfl⟩

theorem write_within (packet : SddpPacket) (bufferSize : ℕ) :
    bufferSize = 0 ∧ (WriteSDDPPacket packet (some old) bufferSize).buffer = some old ∨
      ∃ t, (WriteSDDPPacket packet (some old) bufferSize).buffer = some t ∧ t.length + 1 ≤ bufferSize := by
  rcases Nat.eq_zero_or_pos bufferSize with rfl | hpos
  · left
    refine ⟨rfl, ?_⟩
    by_cases h : Writable packet.h
    · rw [write_pieces h, write_all_none]
      rfl
    · rw [write_nothing h]
      rfl
  · right
    by_cases h : Writable packet.h
    · obtain ⟨t, htext, -, hroom⟩ := write_fits old hpos h
      refine ⟨t, htext, ?_⟩
      rcases hroom with rfl | hroom
      · exact hpos
      · exact hroom.le
    · rw [write_nothing h]
      exact ⟨[], congrArg some (if_pos hpos), hpos⟩

theorem delivered_iff : Delivered packet old bufferSize ↔
    ¬(Writable packet.h ∧ (packet_text packet).length + 1 = bufferSize) := by
  by_cases h : Writable packet.h
  · have hwritten := @written_eq packet old bufferSize h
    constructor
    · rintro hdelivered ⟨-, hfull⟩
      obtain ⟨hbuffer, -⟩ := hdelivered.complete (by omega) (by omega)
      have hpos : 0 < bufferSize := by omega
      obtain ⟨t, htext, -, hroom⟩ := write_fits old hpos h
      rw [hbuffer, Option.some_inj] at htext
      rw [← htext] at hroom
      have hne : packet_text packet ≠ [] := by simp [packet_text, crlf]
      have hless := hroom.resolve_left hne
      omega
    · intro hnot
      refine ⟨fun _ hle => ⟨?_, by omega⟩, write_within old packet bufferSize⟩
      have hless : (packet_text packet).length + 1 < bufferSize := by
        apply lt_of_le_of_ne (by omega)
        exact fun hfull => hnot ⟨h, hfull⟩
      have happends := @appends_buffers bufferSize (pieces packet) ⟨1, some (cleared old bufferSize)⟩
      have hbuffer := happends.buffer (by rw [← write_pieces h]; omega)
      have hcleared : cleared old bufferSize = [] := if_pos (by omega)
      rw [← write_pieces h, pieces_text h, hcleared] at hbuffer
      exact hbuffer
  · refine iff_of_true ⟨fun hpos => ?_, write_within old packet bufferSize⟩ fun hfull => h hfull.1
    rw [write_nothing h] at hpos
    exact absurd hpos (Nat.not_succ_le_zero 0)

end

/-! ## The notification -/

theorem notify_writable {host freed : Bytes} {dev : SDDPDevice} {iface : SDDPInterface} {packet : SddpPacket}
    (h : notify_packet host dev iface freed = some packet) : Writable packet.h := by
  unfold notify_packet at h
  obtain ⟨⟨first, tran, age, devInfo⟩, hkind, rfl⟩ := Option.map_eq_some_iff.mp h
  have hready : Writable response ∧ ∀ argument : Bytes, argument ≠ [] → Writable (notify argument) := by
    simp [Writable, response, notify, hasValue, SDDP_VERSION, ascii]
  unfold kind at hkind
  split at hkind
  · cases hkind
    exact hready.1
  · split at hkind
    · cases hkind
      exact hready.2 _ (by decide)
    · cases hkind
      exact hready.2 _ (by decide)
    · cases hkind
      exact hready.2 _ (by decide)
    · cases hkind

/-- A packet is written as a whole, or is refused, unless it fills the buffer to the last byte. So it is in
`SDDPCreateNotify`, which refuses only what is larger. -/
theorem packets_are_complete_iff (packet : SddpPacket) (old : Bytes) (bufferSize : ℕ) (host freed : Bytes)
    (dev : SDDPDevice) (iface : SDDPInterface) :
    (Delivered packet old bufferSize ↔ ¬(Writable packet.h ∧ (packet_text packet).length + 1 = bufferSize)) ∧
      ((∀ msg, SDDPCreateNotify host dev iface freed = some msg →
          ∃ packet, notify_packet host dev iface freed = some packet ∧ msg = packet_text packet) ↔
        ∀ packet, notify_packet host dev iface freed = some packet →
          (packet_text packet).length + 1 ≠ MAX_SDDP_FRAME_SIZE) := by
  refine ⟨delivered_iff old, ?_⟩
  unfold SDDPCreateNotify
  cases hpacket : notify_packet host dev iface freed with
  | none => simp
  | some packet =>
    have hwritable := notify_writable hpacket
    have hdelivered := @delivered_iff packet [] MAX_SDDP_FRAME_SIZE
    have hwritten := @written_eq packet [] MAX_SDDP_FRAME_SIZE hwritable
    simp only [hwritable, true_and] at hdelivered
    simp only [Option.some.injEq, exists_eq_left', forall_eq']
    rw [ne_eq, ← hdelivered]
    split
    · rename_i hlarge
      refine iff_of_true (fun msg hmsg => by cases hmsg) ?_
      rw [hdelivered]
      omega
    · rename_i hsmall
      constructor
      · intro hmsg
        refine ⟨fun _ _ => ⟨?_, by omega⟩, write_within [] packet MAX_SDDP_FRAME_SIZE⟩
        obtain ⟨t, htext, -⟩ := @write_fits packet [] MAX_SDDP_FRAME_SIZE (by decide) hwritable
        rw [htext, hmsg t htext]
      · intro h msg hmsg
        obtain ⟨hbuffer, -⟩ := h.complete (by omega) (by omega)
        rw [hbuffer, Option.some_inj] at hmsg
        exact hmsg.symm

def search : SddpPacket where
  h := .Request (some (ascii "SEARCH")) (some (ascii "c4:television:x")) (some (ascii "1.0"))
  headers _ := none
  body := none

/-- A search of 33 bytes in a buffer of 34 of them: the end of the line is lost. -/
theorem the_last_piece_is_lost :
    (WriteSDDPPacket search (some []) 34).written = 34 ∧
      (WriteSDDPPacket search (some []) 34).buffer = some (ascii "SEARCH c4:television:x SDDP/1.0") ∧
      ¬Delivered search [] 34 := by
  refine ⟨by decide, by decide, fun h => ?_⟩
  have hcomplete := (h.complete (by decide) (by decide)).1
  have hlost : (WriteSDDPPacket search (some []) 34).buffer ≠ some (packet_text search) := by decide
  exact hlost hcomplete

end yocto.sddp_buffers
