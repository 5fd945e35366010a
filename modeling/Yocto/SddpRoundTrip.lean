-- A packet of SDDP that is written into a large buffer and read again is the same:
-- each word, each header and the body stand in the text where the parser looks for
-- them, as long as no value holds what ends it.
import Yocto.SddpPacket

open yocto.list_search
open yocto.c_text
open yocto.sddp_packet

namespace yocto.sddp_round_trip

/-! ## The text of a packet -/

def first_line : StartLine → Bytes
  | .Unknown => []
  | .Request method argument version =>
    method.getD [] ++ ([space] ++ (argument.getD [] ++ (space :: SDDP ++ version.getD [])))
  | .Response status_code reason version =>
    SDDP ++ (version.getD [] ++ ([space] ++ (status_code.getD [] ++ ([space] ++ reason.getD []))))

/-- The value of a header as it is written. -/
def shown (quoted : Bool) (value : Bytes) : Bytes := if quoted then quote :: (value ++ [quote]) else value

/-- The line of a header, without its end. -/
def header_line (f : Field) (quoted : Bool) (value : Bytes) : Bytes :=
  f.name ++ ([colon, space] ++ shown quoted value)

def header_text (packet : SddpPacket) (f : Field × Bool) : Bytes :=
  match packet.headers f.1 with
  | none => []
  | some value => header_line f.1 f.2 value ++ crlf

def body_text : Option Bytes → Bytes
  | none => []
  | some body => crlf ++ body

def packet_text (packet : SddpPacket) : Bytes :=
  first_line packet.h ++ (crlf ++ (written_fields.flatMap (header_text packet) ++ body_text packet.body))

/-! ## The writer appends the text -/

section Writer

variable {bufferSize : Nat}

/-- A call of the writer appends a text, as long as it fits. -/
structure Appends (bufferSize : Nat) (t : Bytes) (w w' : Written) : Prop where
  written : w'.written = w.written + t.length
  buffer : w'.written < bufferSize → w'.buffer = w.buffer.map (· ++ t)

theorem Appends.refl (w : Written) : Appends bufferSize [] w w :=
  ⟨rfl, fun _ => by simp⟩

theorem Appends.trans {t t' : Bytes} {w w' w'' : Written} (h : Appends bufferSize t w w')
    (h' : Appends bufferSize t' w' w'') : Appends bufferSize (t ++ t') w w'' := by
  have hwritten := h.written
  have hwritten' := h'.written
  refine ⟨?_, fun hfits => ?_⟩
  · rw [List.length_append]
    omega
  · rw [h'.buffer hfits, h.buffer (by omega), Option.map_map]
    simp [Function.comp_def]

theorem appends_buffer (w : Written) (str : Bytes) :
    Appends bufferSize str w (writeBuffer bufferSize w str) := by
  refine ⟨rfl, fun hfits => ?_⟩
  unfold writeBuffer at hfits ⊢
  dsimp only at hfits ⊢
  rw [if_pos hfits]

theorem appends_buffers (strs : List Bytes) (w : Written) :
    Appends bufferSize strs.flatten w (strs.foldl (writeBuffer bufferSize) w) := by
  induction strs generalizing w with
  | nil => exact .refl w
  | cons str strs ih => exact (appends_buffer w str).trans (ih _)

theorem appends_header (packet : SddpPacket) (f : Field × Bool) (w : Written) :
    Appends bufferSize (header_text packet f) w
      (writeHeader bufferSize w f.1.name (packet.headers f.1) f.2) := by
  obtain ⟨f, quoted⟩ := f
  unfold header_text writeHeader
  dsimp only
  cases packet.headers f with
  | none => exact .refl w
  | some value =>
    have h : Appends bufferSize _ w _ := appends_buffers [f.name, if quoted then [colon, space, quote] else
      [colon, space], value, if quoted then quote :: crlf else crlf] w
    have htext : header_line f quoted value ++ crlf = [f.name, if quoted then [colon, space, quote] else
        [colon, space], value, if quoted then quote :: crlf else crlf].flatten := by
      cases quoted <;> simp [header_line, shown]
    dsimp only
    rw [htext]
    exact h

theorem appends_headers (packet : SddpPacket) (fields : List (Field × Bool)) (w : Written) :
    Appends bufferSize (fields.flatMap (header_text packet)) w (writeHeaders bufferSize packet fields w) := by
  induction fields generalizing w with
  | nil => exact .refl w
  | cons f fields ih =>
    rw [List.flatMap_cons, writeHeaders, List.foldl_cons]
    exact (appends_header packet f w).trans (ih _)

end Writer

/-! ## Packets that can be read again -/

/-- There is no CR and no LF in a text. -/
def OneLine (t : Bytes) : Prop := 13 ∉ t ∧ 10 ∉ t

structure Word (t : Bytes) : Prop where
  nonempty : t ≠ []
  no_space : space ∉ t
  one_line : OneLine t

structure Reason (t : Bytes) : Prop where
  nonempty : t ≠ []
  no_space : t.head? ≠ some space
  one_line : OneLine t

/-- The first line of a request or of a response. -/
inductive Readable : StartLine → Prop where
  | Request {method argument version : Bytes} (hmethod : Word method) (hstarts : ¬SDDP <+: method)
      (hargument : Word argument) (hversion : Word version) :
      Readable (.Request (some method) (some argument) (some version))
  | Response {status_code reason version : Bytes} (hstatus : Word status_code) (hreason : Reason reason)
      (hversion : Word version) : Readable (.Response (some status_code) (some reason) (some version))

/-- A value that is written without quotes keeps them and its spaces away from its ends. -/
structure Bare (value : Bytes) : Prop where
  head : value.head? ≠ some space
  last : value.getLast? ≠ some space ∧ value.getLast? ≠ some tab
  unquoted : ¬(value.head? = some quote ∧ value.getLast? = some quote)

structure WellFormed (packet : SddpPacket) : Prop where
  first : Readable packet.h
  one_line : ∀ f value, packet.headers f = some value → OneLine value
  bare : ∀ f value, (f, false) ∈ written_fields → packet.headers f = some value → Bare value

theorem appends_first {first : StartLine} (h : Readable first) (bufferSize : Nat) (w : Written) :
    ∃ w', writeFirstLine bufferSize w first = some w' ∧ Appends bufferSize (first_line first ++ crlf) w w' := by
  cases h with
  | @Request method argument version hmethod _ hargument hversion =>
    have happends : Appends bufferSize _ w _ :=
      appends_buffers [method, [space], argument, space :: SDDP, version, crlf] w
    have htext : first_line (.Request (some method) (some argument) (some version)) ++ crlf =
        [method, [space], argument, space :: SDDP, version, crlf].flatten := by
      simp [first_line]
    rw [htext]
    refine ⟨_, if_pos ?_, happends⟩
    simp [hasValue, hmethod.nonempty, hargument.nonempty, hversion.nonempty]
  | @Response status_code reason version hstatus hreason hversion =>
    have happends : Appends bufferSize _ w _ :=
      appends_buffers [SDDP, version, [space], status_code, [space], reason, crlf] w
    have htext : first_line (.Response (some status_code) (some reason) (some version)) ++ crlf =
        [SDDP, version, [space], status_code, [space], reason, crlf].flatten := by
      simp [first_line]
    rw [htext]
    refine ⟨_, if_pos ?_, happends⟩
    simp [hasValue, hstatus.nonempty, hreason.nonempty, hversion.nonempty]

theorem write_appends {packet : SddpPacket} (h : Readable packet.h) (old : Bytes) {bufferSize : Nat}
    (hpos : 0 < bufferSize) :
    Appends bufferSize (packet_text packet) ⟨1, some []⟩ (WriteSDDPPacket packet (some old) bufferSize) := by
  obtain ⟨w, hw, hfirst⟩ := appends_first h bufferSize ⟨1, some []⟩
  have hheaders := hfirst.trans (appends_headers packet written_fields w)
  unfold WriteSDDPPacket packet_text
  rw [if_pos hpos, Option.map_some]
  dsimp only
  rw [hw, ← List.append_assoc, ← List.append_assoc]
  cases packet.body with
  | none =>
    rw [body_text, List.append_nil]
    exact hheaders
  | some body =>
    rw [body_text, ← List.append_assoc]
    exact (hheaders.trans (appends_buffer _ _)).trans (appends_buffer _ _)

theorem writes_text {packet : SddpPacket} (h : Readable packet.h) (old : Bytes) {bufferSize : Nat}
    (hfits : (WriteSDDPPacket packet (some old) bufferSize).written < bufferSize) :
    (WriteSDDPPacket packet (some old) bufferSize).buffer = some (packet_text packet) := by
  rw [(write_appends h old (by omega)).buffer hfits, Option.map_some, List.nil_append]

/-! ## Words are read back -/

section Words

variable {s t : Bytes} {p e : Nat} {c : UInt8}

theorem skipSpaces_at (h : s[p]? = some c) (hc : c ≠ space) (hlt : p < e) :
    skipSpaces s p (some e) = .ok (some p) := by
  unfold skipSpaces
  rw [dif_pos (before_some.mpr hlt), peek_at h]
  simp [bind, Except.bind, hc, pure, Except.pure]

theorem skipSpaces_space (h : s[p]? = some space) (hlt : p < e) :
    skipSpaces s p (some e) = skipSpaces s (p + 1) (some e) := by
  rw [skipSpaces, dif_pos (before_some.mpr hlt), peek_at h]
  simp [bind, Except.bind]

theorem skipSpaces_end : skipSpaces s e (some e) = .ok none := by
  unfold skipSpaces
  rw [dif_neg (mt before_some.mp (Nat.lt_irrefl e))]
  rfl

/-- A word stands in a line that ends at `e`. -/
structure Stands (s : Bytes) (e p : Nat) (t : Bytes) : Prop where
  here : At s p t
  nonempty : t ≠ []
  no_space : space ∉ t
  fits : p + t.length ≤ e
  stop : p + t.length = e ∨ s[p + t.length]? = some space

theorem skipOver_at (hat : At s p t) (hspace : space ∉ t) (hfits : p + t.length ≤ e)
    (hstop : p + t.length = e ∨ s[p + t.length]? = some space) :
    skipOver s p (some e) = .ok (some (p + t.length)) := by
  induction t generalizing p with
  | nil =>
    rw [List.length_nil, Nat.add_zero] at hstop hfits ⊢
    unfold skipOver
    rcases Nat.lt_or_ge p e with hlt | hge
    · rw [dif_pos (before_some.mpr hlt), peek_at (hstop.resolve_left (Nat.ne_of_lt hlt))]
      simp [bind, Except.bind, pure, Except.pure]
    · rw [dif_neg (mt before_some.mp (Nat.not_lt.mpr hge)), Nat.le_antisymm hfits hge]
      rfl
  | cons c t ih =>
    rw [At.cons_iff] at hat
    rw [List.mem_cons, not_or] at hspace
    rw [List.length_cons] at hfits hstop ⊢
    have hnext : p + (t.length + 1) = p + 1 + t.length := by omega
    rw [hnext] at hstop ⊢
    have hlt : before p (some e) := before_some.mpr (by omega)
    unfold skipOver
    rw [dif_pos hlt, peek_at hat.1]
    simp only [bind, Except.bind]
    rw [if_neg (Ne.symm hspace.1)]
    exact ih hat.2 hspace.2 (by omega) hstop

theorem Stands.first (h : Stands s e p t) : ∃ c, s[p]? = some c ∧ c ≠ space ∧ p < e := by
  obtain ⟨c, t, rfl⟩ := List.exists_cons_of_ne_nil h.nonempty
  have hfits := h.fits
  have hspace := h.no_space
  rw [List.length_cons] at hfits
  rw [List.mem_cons, not_or] at hspace
  exact ⟨c, (At.cons_iff.mp h.here).1, Ne.symm hspace.1, by omega⟩

theorem Stands.skipSpaces (h : Stands s e p t) : skipSpaces s p (some e) = .ok (some p) := by
  obtain ⟨c, hc, hne, hlt⟩ := h.first
  exact skipSpaces_at hc hne hlt

theorem Stands.skipToken (h : Stands s e p t) : skipToken s p (some e) = .ok (some (p + t.length)) := by
  obtain ⟨c, hc, hne, hlt⟩ := h.first
  unfold sddp_packet.skipToken
  rw [h.skipSpaces]
  simp only [bind, Except.bind]
  rw [if_pos (before_some.mpr hlt)]
  exact skipOver_at h.here h.no_space h.fits h.stop

theorem dupLine_at (h : At s p t) (hp : p ≤ s.length) : dupLine s p (some (p + t.length)) = .ok t := by
  unfold dupLine
  rw [Option.getD_some, Nat.add_sub_cancel_left]
  exact memcpy_at h hp

theorem Stands.le_length (h : Stands s e p t) : p + t.length ≤ s.length :=
  h.here.length_le h.nonempty

theorem Stands.dupToken (h : Stands s e p t) : dupToken s p (some e) = .ok t := by
  have hle := h.le_length
  unfold sddp_packet.dupToken
  rw [h.skipToken]
  have hassert : assert (at_most ((some (p + t.length)).or (some e)) (some e)) = .ok () := assert_ok h.fits
  simp only [bind, Except.bind]
  rw [hassert]
  exact dupLine_at h.here (by omega)

theorem Stands.findToken (h : Stands s e p t) {line : Nat} (hspace : s[p + t.length]? = some space)
    (hnext : s[p + t.length + 1]? = some c) (hc : c ≠ space) (hlt : p + t.length + 1 < e) :
    findToken s line (some e) (some p) = .ok (some (p + t.length + 1)) := by
  unfold sddp_packet.findToken
  dsimp only
  rw [h.skipToken]
  simp only [bind, Except.bind]
  rw [skipSpaces_space hspace (by omega)]
  exact skipSpaces_at hnext hc hlt

theorem Stands.dupVersion (h : Stands s e (p + SDDP.length) t) (hstarts : At s p SDDP) :
    dupVersion s p (some e) = .ok t := by
  have hword : Stands s (p + SDDP.length + t.length) (p + SDDP.length) t :=
    ⟨h.here, h.nonempty, h.no_space, le_refl _, .inl rfl⟩
  unfold sddp_packet.dupVersion
  rw [strncmp_at hstarts]
  simp only [bind, Except.bind]
  rw [assert_ok trivial, h.skipToken]
  exact hword.dupToken

theorem isProtocol_at (hstarts : At s p SDDP) (hlen : p + 5 < s.length) : isProtocol s p = .ok true := by
  unfold isProtocol strlen
  rw [strncmp_at hstarts]
  simp only [bind, Except.bind, if_true]
  rw [if_pos (by omega)]
  simp only [pure, Except.pure]
  rw [decide_eq_true (by omega)]

theorem not_isProtocol (h : At s p (t ++ [space])) (hstarts : ¬SDDP <+: t) : isProtocol s p = .ok false := by
  unfold isProtocol
  rw [strncmp_not_at h (by decide) hstarts]
  rfl

/-- The packet of a first line. -/
def blank (first : StartLine) : SddpPacket := ⟨first, fun _ => none, none⟩

theorem parseFirstLine_request {method argument version : Bytes} (hmethod : Word method)
    (hstarts : ¬SDDP <+: method) (hargument : Word argument) (hversion : Word version)
    (hat : At s p (first_line (.Request (some method) (some argument) (some version)))) :
    parseFirstLine s p (some (p + (first_line (.Request (some method) (some argument) (some version))).length)) =
      .ok (some (blank (.Request (some method) (some argument) (some version)))) := by
  have hlength : (first_line (.Request (some method) (some argument) (some version))).length =
      method.length + 1 + argument.length + 1 + SDDP.length + version.length := by
    simp only [first_line, Option.getD_some, List.length_append, List.length_cons, List.length_nil]
    omega
  rw [hlength]
  generalize he : p + (method.length + 1 + argument.length + 1 + SDDP.length + version.length) = e
  simp only [first_line, Option.getD_some, List.cons_append, List.nil_append, At.append_iff, At.cons_iff] at hat
  obtain ⟨hat_method, hspace, hat_argument, hspace', hat_protocol, hat_version⟩ := hat
  have hmethod_stands : Stands s e p method :=
    ⟨hat_method, hmethod.nonempty, hmethod.no_space, by omega, .inr hspace⟩
  have hargument_stands : Stands s e (p + method.length + 1) argument :=
    ⟨hat_argument, hargument.nonempty, hargument.no_space, by omega, .inr hspace'⟩
  have hversion_stands : Stands s e (p + method.length + 1 + argument.length + 1 + SDDP.length) version :=
    ⟨hat_version, hversion.nonempty, hversion.no_space, by omega, .inl (by omega)⟩
  have hSDDP : s[p + method.length + 1 + argument.length + 1]? = some 83 := (At.cons_iff.mp hat_protocol).1
  have hlen := hversion_stands.le_length
  have hpos := List.length_pos_iff.mpr hversion.nonempty
  have hSDDP_length : SDDP.length = 5 := rfl
  obtain ⟨c, hc, hne, hlt⟩ := hargument_stands.first
  have hat_space : At s p (method ++ [space]) :=
    At.append_iff.mpr ⟨hat_method, At.cons_iff.mpr ⟨hspace, List.nil_prefix⟩⟩
  unfold parseFirstLine
  rw [findToken]
  dsimp only
  rw [hmethod_stands.skipSpaces]
  simp only [bind, Except.bind]
  rw [not_isProtocol hat_space hstarts]
  simp only [Bool.false_eq_true, if_false]
  rw [hmethod_stands.findToken hspace hc hne hlt]
  simp only []
  rw [hargument_stands.findToken hspace' hSDDP (by decide) (by omega)]
  simp only []
  rw [isProtocol_at hat_protocol (by omega)]
  simp only [if_true]
  rw [hmethod_stands.dupToken]
  simp only []
  rw [hargument_stands.dupToken]
  simp only []
  rw [hversion_stands.dupVersion hat_protocol]
  rfl

theorem parseFirstLine_response {status_code reason version : Bytes} (hstatus : Word status_code)
    (hreason : Reason reason) (hversion : Word version)
    (hat : At s p (first_line (.Response (some status_code) (some reason) (some version)))) :
    parseFirstLine s p (some (p + (first_line (.Response (some status_code) (some reason)
      (some version))).length)) =
        .ok (some (blank (.Response (some status_code) (some reason) (some version)))) := by
  have hlength : (first_line (.Response (some status_code) (some reason) (some version))).length =
      SDDP.length + version.length + 1 + status_code.length + 1 + reason.length := by
    simp only [first_line, Option.getD_some, List.length_append, List.length_cons, List.length_nil]
    omega
  rw [hlength]
  generalize he : p + (SDDP.length + version.length + 1 + status_code.length + 1 + reason.length) = e
  simp only [first_line, Option.getD_some, List.cons_append, List.nil_append, At.append_iff, At.cons_iff] at hat
  obtain ⟨hat_protocol, hat_version, hspace, hat_status, hspace', hat_reason⟩ := hat
  have hreason_pos := List.length_pos_iff.mpr hreason.nonempty
  have hversion_pos := List.length_pos_iff.mpr hversion.nonempty
  have hSDDP_length : SDDP.length = 5 := rfl
  have hat_word : At s p (SDDP ++ version) := At.append_iff.mpr ⟨hat_protocol, hat_version⟩
  have hword_length : p + (SDDP ++ version).length = p + SDDP.length + version.length := by
    rw [List.length_append]
    omega
  have hword_stands : Stands s e p (SDDP ++ version) := by
    refine ⟨hat_word, by simp [hversion.nonempty], ?_, by omega, .inr (hword_length ▸ hspace)⟩
    rw [List.mem_append, not_or]
    exact ⟨by decide, hversion.no_space⟩
  have hversion_stands : Stands s (p + SDDP.length + version.length + 1) (p + SDDP.length) version :=
    ⟨hat_version, hversion.nonempty, hversion.no_space, by omega, .inr hspace⟩
  have hstatus_stands : Stands s e (p + SDDP.length + version.length + 1) status_code :=
    ⟨hat_status, hstatus.nonempty, hstatus.no_space, by omega, .inr hspace'⟩
  have hlen := hat_reason.length_le hreason.nonempty
  obtain ⟨c, hc, hne, hlt⟩ := hstatus_stands.first
  obtain ⟨c', reason', rfl⟩ := List.exists_cons_of_ne_nil hreason.nonempty
  have hc' := (At.cons_iff.mp hat_reason).1
  have hne' : c' ≠ space := by simpa using hreason.no_space
  unfold parseFirstLine
  rw [findToken]
  dsimp only
  rw [hword_stands.skipSpaces]
  simp only [bind, Except.bind]
  rw [isProtocol_at hat_protocol (by omega)]
  simp only [if_true]
  rw [hword_stands.findToken (by rwa [hword_length]) (by rwa [hword_length]) hne (by omega), hword_length]
  simp only []
  rw [hstatus_stands.findToken hspace' hc' hne' (by omega)]
  simp only []
  rw [hstatus_stands.dupToken]
  simp only []
  rw [← he, show p + (SDDP.length + version.length + 1 + status_code.length + 1 + (c' :: reason').length) =
    p + SDDP.length + version.length + 1 + status_code.length + 1 + (c' :: reason').length by omega,
    dupLine_at hat_reason (by omega)]
  simp only []
  rw [hversion_stands.dupVersion hat_protocol]
  rfl

end Words

/-! ## Header lines are read back -/

section Headers

variable {s t : Bytes} {p e : Nat} {c : UInt8}

theorem parseHeaderValue_at {rest : Bytes} (hat : At s p (t ++ colon :: rest)) (hcolon : colon ∉ t)
    (hfits : p + t.length < e) : parseHeaderValue s p e =
      (skipSpaces s (p + t.length + 1) (some e)).map fun value => some (p + t.length, value) := by
  induction t generalizing p with
  | nil =>
    rw [List.length_nil, Nat.add_zero] at hfits ⊢
    rw [List.nil_append, At.cons_iff] at hat
    unfold parseHeaderValue
    rw [if_pos hfits, peek_at hat.1]
    simp only [bind, Except.bind, if_true]
    cases skipSpaces s (p + 1) (some e) <;> rfl
  | cons c t ih =>
    rw [List.cons_append, At.cons_iff] at hat
    rw [List.mem_cons, not_or] at hcolon
    rw [List.length_cons] at hfits ⊢
    have hnext : p + (t.length + 1) = p + 1 + t.length := by omega
    unfold parseHeaderValue
    rw [if_pos (by omega), peek_at hat.1]
    simp only [bind, Except.bind]
    rw [if_neg (Ne.symm hcolon.1), ih hat.2 hcolon.2 (by omega), hnext]

theorem name_inj : ∀ f ∈ parsed_fields, ∀ g ∈ parsed_fields, g.name.map tolower = f.name.map tolower → f = g := by
  decide

theorem mem_parsed_fields (f : Field) : f ∈ parsed_fields := by
  cases f <;> decide

theorem isHeader_at {f : Field} (hat : At s p f.name) (g : Field) :
    isHeader s p f.name.length g.name = .ok (decide (f = g)) := by
  unfold isHeader
  split
  · rename_i hlen
    rw [strncasecmp_at hat hlen]
    congr 1
    rw [decide_eq_decide]
    exact ⟨fun h => name_inj f (mem_parsed_fields f) g (mem_parsed_fields g) h.symm, fun h => by rw [h]⟩
  · rename_i hlen
    have hne : f ≠ g := fun h => hlen (by rw [h])
    simp [hne, pure, Except.pure]

theorem findHeader_at {f : Field} (hat : At s p f.name) {fields : List Field} (hf : f ∈ fields) :
    findHeader s p f.name.length fields = .ok (some f) := by
  induction fields with
  | nil => simp at hf
  | cons g fields ih =>
    unfold findHeader
    rw [isHeader_at hat]
    simp only [bind, Except.bind, decide_eq_true_eq]
    split
    · rename_i heq
      rw [heq]
      rfl
    · rename_i hne
      exact ih ((List.mem_cons.mp hf).resolve_left hne)

theorem trimRight_at {line : Nat} (h : s[p]? = some c) (hc : c ≠ space ∧ c ≠ tab) (hline : line ≤ p) :
    trimRight s line (p + 1) = .ok (p + 1) := by
  unfold trimRight
  rw [if_pos (by omega), peek_back_at h]
  simp [bind, Except.bind, hc, pure, Except.pure]

theorem dupValue_quoted (hat : At s p (shown true t)) : dupValue s p (p + (shown true t).length) = .ok t := by
  have hlen : p + (shown true t).length = p + 1 + t.length + 1 := by
    simp only [shown, if_true, List.length_cons, List.length_append, List.length_nil]
    omega
  simp only [shown, if_true, At.cons_iff, At.append_iff] at hat
  obtain ⟨hopen, hvalue, hclose, -⟩ := hat
  have hfits := (List.getElem?_eq_some_iff.mp hclose).1
  rw [hlen]
  unfold dupValue
  rw [trimRight_at hclose (by decide) (by omega)]
  simp only [bind, Except.bind]
  rw [isQuoted, if_pos (by omega), peek_at hopen]
  simp only [bind, Except.bind, if_true]
  rw [peek_back_at hclose]
  simp only [pure, Except.pure, decide_true, if_true, Nat.add_sub_cancel]
  exact dupLine_at hvalue (by omega)

theorem dupValue_bare (hat : At s p t) (ht : t ≠ []) (hbare : Bare t) : dupValue s p (p + t.length) = .ok t := by
  have hfits := hat.length_le ht
  obtain ⟨init, last, rfl⟩ := List.eq_nil_or_concat'  t |>.resolve_left ht
  have hlast : s[p + init.length]? = some last := by
    rw [hat.get (by simp)]
    simp
  have hspace : last ≠ space ∧ last ≠ tab := by
    have := hbare.last
    simpa using this
  obtain ⟨first, rest, hfirst⟩ := List.exists_cons_of_ne_nil ht
  have hhead : s[p]? = some first := (At.cons_iff.mp (hfirst ▸ hat)).1
  have hquotes : ¬(first = quote ∧ last = quote) := by
    have := hbare.unquoted
    rw [hfirst, List.head?_cons, ← hfirst, List.getLast?_concat] at this
    simpa using this
  have hlen : p + (init ++ [last]).length = p + init.length + 1 := by
    rw [List.length_append]
    rfl
  rw [hlen] at hfits ⊢
  have hquoted : isQuoted s p (p + init.length + 1) = .ok false := by
    unfold isQuoted
    rw [if_pos (by omega), peek_at hhead]
    simp only [bind, Except.bind]
    split
    · rename_i heq
      have hne : last ≠ quote := fun h => hquotes ⟨heq, h⟩
      rw [peek_back_at hlast]
      simp [pure, Except.pure, hne]
    · rfl
  unfold dupValue
  rw [trimRight_at hlast hspace (by omega)]
  simp only [bind, Except.bind]
  rw [hquoted]
  simp only [Bool.false_eq_true, if_false]
  rw [← hlen]
  exact dupLine_at hat (by omega)

theorem colon_not_mem_name (f : Field) : colon ∉ f.name := by
  cases f <;> decide

theorem dupValue_empty : dupValue [] 0 0 = .ok [] := by
  unfold dupValue trimRight
  rfl

theorem parseHeaderLine_at {f : Field} {quoted : Bool} {value : Bytes} (packet : SddpPacket)
    (hat : At s p (header_line f quoted value)) (hbare : quoted = false → Bare value)
    (habsent : packet.headers f = none) :
    parseHeaderLine s packet p (p + (header_line f quoted value).length) =
      .ok (some { packet with headers := Function.update packet.headers f (some value) }) := by
  have hlength : p + (header_line f quoted value).length =
      p + f.name.length + 1 + 1 + (shown quoted value).length := by
    simp only [header_line, List.length_append, List.length_cons, List.length_nil]
    omega
  have hline : At s p (f.name ++ colon :: space :: shown quoted value) := hat
  have hcolon := parseHeaderValue_at (e := p + f.name.length + 1 + 1 + (shown quoted value).length) hline
    (colon_not_mem_name f) (by omega)
  simp only [header_line, List.cons_append, List.nil_append, At.append_iff, At.cons_iff] at hat
  obtain ⟨hname, -, hspace, hshown⟩ := hat
  rw [skipSpaces_space hspace (by omega)] at hcolon
  have hdup : (∃ start, skipSpaces s (p + f.name.length + 1 + 1)
      (some (p + f.name.length + 1 + 1 + (shown quoted value).length)) = .ok (some start) ∧
        dupValue s start (p + f.name.length + 1 + 1 + (shown quoted value).length) = .ok value) ∨
      skipSpaces s (p + f.name.length + 1 + 1)
        (some (p + f.name.length + 1 + 1 + (shown quoted value).length)) = .ok none ∧
          dupValue [] 0 0 = .ok value := by
    cases quoted with
    | true =>
      left
      refine ⟨_, skipSpaces_at (At.cons_iff.mp hshown).1 (by decide) (by simp [shown]), ?_⟩
      exact dupValue_quoted hshown
    | false =>
      have hshows : shown false value = value := rfl
      rw [hshows] at hshown ⊢
      cases hvalue : value with
      | nil => exact Or.inr ⟨skipSpaces_end, dupValue_empty⟩
      | cons c rest =>
        left
        rw [hvalue] at hshown hbare
        have hne : c ≠ space := by simpa using (hbare rfl).head
        refine ⟨_, skipSpaces_at (At.cons_iff.mp hshown).1 hne (by simp), ?_⟩
        exact dupValue_bare hshown (by simp) (hbare rfl)
  rw [hlength]
  unfold parseHeaderLine
  rw [hcolon]
  rcases hdup with ⟨start, hstart, hdup⟩ | ⟨hstart, hdup⟩
  · rw [hstart]
    simp only [bind, Except.bind, Except.map]
    rw [Nat.add_sub_cancel_left, findHeader_at hname (mem_parsed_fields f)]
    simp only [habsent, if_true]
    rw [hdup]
    rfl
  · rw [hstart]
    simp only [bind, Except.bind, Except.map]
    rw [Nat.add_sub_cancel_left, findHeader_at hname (mem_parsed_fields f)]
    simp only [habsent, if_true]
    rw [hdup]
    rfl

end Headers

/-! ## The lines are read back -/

section Lines

variable {s : Bytes} {packet p : SddpPacket} {line i : Nat}

theorem marker_crlf : Marker crlf := by decide

theorem not_infix_of_one_line {t : Bytes} (h : 13 ∉ t) : ¬crlf <:+: t := fun hfound =>
  h (hfound.subset (by decide))

theorem parseLines_at {t rest : Bytes} {p' : SddpPacket} {q : Option SddpPacket}
    (hat : At s line (t ++ (crlf ++ rest))) (hline : line ≤ s.length) (ht : t ≠ []) (hone : 13 ∉ t)
    (hparse : parseLine s line (line + t.length) i q = .ok (some p')) :
    parseLines s line i q = parseLines s (line + t.length + 2) (i + 1) (some p') := by
  obtain ⟨⟨e, hfits⟩, hstr, he⟩ := strstr_at hat hline marker_crlf (not_infix_of_one_line hone)
  obtain rfl : e = line + t.length := he
  have hpos := List.length_pos_iff.mpr ht
  rw [parseLines, hstr]
  simp only [bind, Except.bind]
  rw [if_neg (by omega), hparse]

theorem parseLines_body (hat : At s line (body_text packet.body))
    (hlen : s.length = line + (body_text packet.body).length) (hi : i ≠ 0) (hp : p.body = none) :
    parseLines s line i (some p) = .ok (some { p with body := packet.body }) := by
  rw [parseLines]
  cases hbody : packet.body with
  | none =>
    rw [hbody] at hat hlen
    rw [strstr_none hat (by omega) (by decide)]
    simp only [bind, Except.bind]
    rw [strlen, if_pos (by omega)]
    dsimp only
    rw [if_pos (by simp only [body_text, List.length_nil] at hlen; omega), ← hp]
    rfl
  | some body =>
    rw [hbody] at hat hlen
    have hcrlf : crlf.length = 2 := rfl
    simp only [body_text, List.length_append] at hat hlen
    obtain ⟨⟨e, hfits⟩, hstr, he⟩ := strstr_at (t := []) hat (by omega) marker_crlf (by decide)
    obtain rfl : e = line := he
    rw [At.append_iff, hcrlf] at hat
    rw [hstr]
    simp only [bind, Except.bind]
    rw [if_pos trivial, assert_ok (Nat.pos_of_ne_zero hi), strlen, if_pos (by omega)]
    dsimp only
    have hend : e + 2 + (s.length - (e + 2)) = e + 2 + body.length := by omega
    rw [hend, dupLine_at hat.2 (by omega)]
    rfl

theorem header_line_ne_nil (f : Field) (quoted : Bool) (value : Bytes) : header_line f quoted value ≠ [] := by
  simp [header_line]

theorem header_line_one_line (f : Field) (quoted : Bool) {value : Bytes} (h : OneLine value) :
    13 ∉ header_line f quoted value := by
  have hname : 13 ∉ f.name := by cases f <;> decide
  have hshown : 13 ∉ shown quoted value := by
    cases quoted with
    | false => exact h.1
    | true => simp [shown, h.1, quote]
  simp [header_line, hname, hshown, colon, space]

/-- The headers of the lines that are left. -/
def with_headers (packet p : SddpPacket) (fields : List (Field × Bool)) : SddpPacket :=
  { p with headers := fun f => if f ∈ fields.map Prod.fst then packet.headers f else p.headers f }

theorem parseLines_headers (h : WellFormed packet) {fields : List (Field × Bool)}
    (hfields : ∀ f ∈ fields, f ∈ written_fields) (hnodup : (fields.map Prod.fst).Nodup)
    (habsent : ∀ f ∈ fields, p.headers f.1 = none) (hbody : p.body = none) (hi : i ≠ 0)
    (hat : At s line (fields.flatMap (header_text packet) ++ body_text packet.body))
    (hlen : s.length = line + (fields.flatMap (header_text packet) ++ body_text packet.body).length) :
    parseLines s line i (some p) =
      .ok (some { with_headers packet p fields with body := packet.body }) := by
  induction fields generalizing p line i with
  | nil => simpa [with_headers] using parseLines_body hat hlen hi hbody
  | cons f fields ih =>
    obtain ⟨f, quoted⟩ := f
    rw [List.forall_mem_cons] at hfields habsent
    rw [List.map_cons, List.nodup_cons] at hnodup
    rw [List.flatMap_cons, List.append_assoc] at hat hlen
    cases hvalue : packet.headers f with
    | none =>
      have hskip : header_text packet (f, quoted) = [] := by simp [header_text, hvalue]
      rw [hskip, List.nil_append] at hat hlen
      have hsame : with_headers packet p ((f, quoted) :: fields) = with_headers packet p fields := by
        unfold with_headers
        congr 1
        funext g
        by_cases hg : g = f
        · simp [hg, hvalue, habsent.1]
        · simp [hg]
      rw [hsame]
      exact ih hfields.2 hnodup.2 habsent.2 hbody hi hat hlen
    | some value =>
      have htext : header_text packet (f, quoted) = header_line f quoted value ++ crlf := by
        simp [header_text, hvalue]
      rw [htext, List.append_assoc] at hat hlen
      have hparse : parseLine s line (line + (header_line f quoted value).length) i (some p) =
          .ok (some { p with headers := Function.update p.headers f (some value) }) := by
        unfold parseLine
        rw [if_neg hi]
        refine parseHeaderLine_at p (At.append_iff.mp hat).1 (fun hbare => ?_) habsent.1
        exact h.bare f value (hbare ▸ hfields.1) hvalue
      rw [parseLines_at hat (by omega) (header_line_ne_nil f quoted value)
        (header_line_one_line f quoted (h.one_line f value hvalue)) hparse]
      have hcrlf : crlf.length = 2 := rfl
      have hsame : with_headers packet p ((f, quoted) :: fields) =
          with_headers packet { p with headers := Function.update p.headers f (some value) } fields := by
        unfold with_headers
        congr 1
        funext g
        by_cases hg : g = f
        · have hout : f ∉ fields.map Prod.fst := hnodup.1
          subst hg
          simp only [List.map_cons, List.mem_cons, true_or, if_true, hout, if_false, Function.update_self,
            hvalue]
        · simp [hg]
      rw [hsame]
      refine ih hfields.2 hnodup.2 (fun f' hf' => ?_) hbody (Nat.succ_ne_zero i) ?_ ?_
      · have hne : f'.1 ≠ f := fun heq => hnodup.1 (List.mem_map.mpr ⟨f', hf', heq⟩)
        exact (Function.update_of_ne hne _ _).trans (habsent.2 f' hf')
      · have := (At.append_iff.mp (At.append_iff.mp hat).2).2
        rwa [hcrlf] at this
      · rw [List.length_append, List.length_append] at hlen
        omega

theorem first_line_one_line {first : StartLine} (h : Readable first) : 13 ∉ first_line first := by
  have hSDDP : 13 ∉ SDDP := by decide
  cases h with
  | Request hmethod _ hargument hversion =>
    simp [first_line, hmethod.one_line.1, hargument.one_line.1, hversion.one_line.1, hSDDP, space]
  | Response hstatus hreason hversion =>
    simp [first_line, hstatus.one_line.1, hreason.one_line.1, hversion.one_line.1, hSDDP, space]

theorem first_line_ne_nil {first : StartLine} (h : Readable first) : first_line first ≠ [] := by
  cases h <;> simp [first_line, SDDP, ascii]

theorem parseFirstLine_at {first : StartLine} (h : Readable first) (hat : At s line (first_line first)) :
    parseFirstLine s line (some (line + (first_line first).length)) = .ok (some (blank first)) := by
  cases h with
  | Request hmethod hstarts hargument hversion =>
    exact parseFirstLine_request hmethod hstarts hargument hversion hat
  | Response hstatus hreason hversion => exact parseFirstLine_response hstatus hreason hversion hat

theorem parse_packet_text (h : WellFormed packet) : ParseSDDPPacket (packet_text packet) = .ok (some packet) := by
  have hat : At (packet_text packet) 0 (first_line packet.h ++ (crlf ++
      (written_fields.flatMap (header_text packet) ++ body_text packet.body))) := List.prefix_rfl
  have hlen : (packet_text packet).length = (first_line packet.h).length + (crlf.length +
      (written_fields.flatMap (header_text packet) ++ body_text packet.body).length) := by
    rw [packet_text, List.length_append, List.length_append]
  have hcrlf : crlf.length = 2 := rfl
  generalize packet_text packet = s at hat hlen
  have hparse : parseLine s 0 (0 + (first_line packet.h).length) 0 none = .ok (some (blank packet.h)) := by
    unfold parseLine
    rw [if_pos rfl]
    exact parseFirstLine_at h.first (At.append_iff.mp hat).1
  unfold ParseSDDPPacket
  rw [parseLines_at hat (Nat.zero_le _) (first_line_ne_nil h.first) (first_line_one_line h.first) hparse]
  have hrest := (At.append_iff.mp (At.append_iff.mp hat).2).2
  rw [hcrlf] at hrest
  rw [parseLines_headers h (fun _ hf => hf) (by decide) (fun _ _ => rfl) rfl (by omega) hrest (by omega)]
  have hall : ∀ f, f ∈ written_fields.map Prod.fst := by
    intro f
    cases f <;> decide
  simp [with_headers, blank, hall]

end Lines

/-- The parser ends on every text without a fault, and reads each packet back that the writer had room
for. -/
theorem packets_are_read_back :
    (∀ text, ∃ received, ParseSDDPPacket text = .ok received) ∧
      ∀ packet, WellFormed packet → ∀ old bufferSize,
        (WriteSDDPPacket packet (some old) bufferSize).written < bufferSize →
          ∃ text, (WriteSDDPPacket packet (some old) bufferSize).buffer = some text ∧
            ParseSDDPPacket text = .ok (some packet) := by
  refine ⟨fun text => ?_, fun packet h old bufferSize hfits => ?_⟩
  · obtain ⟨received, hreceived, -⟩ := (ParseSDDPPacket_safe text).exists_ok
    exact ⟨received, hreceived⟩
  · exact ⟨packet_text packet, writes_text h.first old hfits, parse_packet_text h⟩

def a_search : SddpPacket :=
  ⟨.Request (some (ascii "SEARCH")) (some (ascii "*")) (some (ascii "1.0")),
    fun f => if f = .Tran then some (ascii "1234") else if f = .Host then some (ascii "box 1") else none, some []⟩

theorem a_search_well_formed : WellFormed a_search := by
  have hone : ∀ value ∈ [ascii "1234", ascii "box 1"], OneLine value := by
    simp [OneLine, ascii]
  refine ⟨.Request ⟨by decide, by decide, by decide, by decide⟩ (by decide)
    ⟨by decide, by decide, by decide, by decide⟩ ⟨by decide, by decide, by decide, by decide⟩,
    fun f value hvalue => ?_, fun f value hf hvalue => ?_⟩
  · apply hone
    simp only [a_search] at hvalue
    split_ifs at hvalue <;> simp_all
  · have hne : f ≠ .Host := by
      rintro rfl
      revert hf
      decide
    simp only [a_search, hne, if_false] at hvalue
    split at hvalue
    · obtain rfl := Option.some.inj hvalue
      exact ⟨by decide, by decide, by decide⟩
    · cases hvalue

theorem a_search_is_read_back : ∃ text,
    (WriteSDDPPacket a_search (some []) 1400).buffer = some text ∧
      ParseSDDPPacket text = .ok (some a_search) :=
  packets_are_read_back.2 a_search a_search_well_formed [] 1400 (by decide)

end yocto.sddp_round_trip
