-- Packets of SDDP (SddpPacket.c): a start line, headers and a body, that are read by pointers
-- which walk over lines and tokens, and written into a buffer.
import Yocto.CText

open yocto.list_search
open yocto.raising
open yocto.c_text

namespace yocto.sddp_packet

/-! ## Packets -/

/-- The first line of a packet, for each type of packet. -/
inductive StartLine where
  | Unknown
  | Request (method argument version : Option Bytes)
  | Response (status_code reason version : Option Bytes)
  deriving DecidableEq

inductive Field where
  | From | Host | Tran | Max_Age | Timeout | Primary_Proxy | Proxies | Manufacturer | Model | Driver
  | Config_URL | Type_
  deriving DecidableEq

def Field.name : Field → Bytes
  | From => ascii "From"
  | Host => ascii "Host"
  | Tran => ascii "Tran"
  | Max_Age => ascii "Max-Age"
  | Timeout => ascii "Timeout"
  | Primary_Proxy => ascii "Primary-Proxy"
  | Proxies => ascii "Proxies"
  | Manufacturer => ascii "Manufacturer"
  | Model => ascii "Model"
  | Driver => ascii "Driver"
  | Config_URL => ascii "Config-URL"
  | Type_ => ascii "Type"

structure SddpPacket where
  h : StartLine
  headers : Field → Option Bytes
  body : Option Bytes

def space : UInt8 := 32
def tab : UInt8 := 9
def quote : UInt8 := 34
def colon : UInt8 := 58
def crlf : Bytes := [13, 10]

/-! ## Tokens and lines -/

def before (p : Nat) (q : Option Nat) : Prop := p < q.getD 0

instance (p : Nat) (q : Option Nat) : Decidable (before p q) := Nat.decLt _ _

@[simp] theorem before_some {p q : Nat} : before p (some q) ↔ p < q := Iff.rfl

/-- `p <= q` for pointers which may be NULL. -/
def at_most : Option Nat → Option Nat → Prop
  | none, _ => True
  | some _, none => False
  | some p, some q => p ≤ q

instance : ∀ p q, Decidable (at_most p q)
  | none, _ => isTrue trivial
  | some _, none => isFalse id
  | some p, some q => Nat.decLe p q

section Tokens

variable (s : Bytes)

def skipSpaces (line : Nat) (lineEnd : Option Nat) : Except Fault (Option Nat) :=
  if h : before line lineEnd then do
    if (← peek s line) ≠ space then return some line
    skipSpaces (line + 1) lineEnd
  else return none
termination_by lineEnd.getD 0 - line
decreasing_by
  unfold before at h
  omega

/-- The inner loop of `skipToken`. -/
def skipOver (line : Nat) (lineEnd : Option Nat) : Except Fault (Option Nat) :=
  if h : before line lineEnd then do
    if (← peek s line) = space then return some line
    skipOver (line + 1) lineEnd
  else return lineEnd
termination_by lineEnd.getD 0 - line
decreasing_by
  unfold before at h
  omega

def skipToken (line : Nat) (lineEnd : Option Nat) : Except Fault (Option Nat) := do
  match ← skipSpaces s line lineEnd with
  | none => return none
  | some line => if before line lineEnd then skipOver s line lineEnd else return none

def findToken (line : Nat) (lineEnd current : Option Nat) : Except Fault (Option Nat) := do
  match current with
  | none => skipSpaces s line lineEnd
  | some current =>
    match ← skipToken s current lineEnd with
    | none => return none
    | some line => skipSpaces s line lineEnd

def dupLine (line : Nat) (lineEnd : Option Nat) : Except Fault Bytes :=
  memcpy s line (lineEnd.getD 0 - line)

def dupToken (token : Nat) (lineEnd : Option Nat) : Except Fault Bytes := do
  let tokenEnd := (← skipToken s token lineEnd).or lineEnd
  assert (at_most tokenEnd lineEnd)
  dupLine s token tokenEnd

/-! ## Header lines -/

/-- `parseHeaderValue` from a position of the line on: where the colon is, and the value. -/
def parseHeaderValue (p lineEnd : Nat) : Except Fault (Option (Nat × Option Nat)) :=
  if p < lineEnd then do
    if (← peek s p) = colon then return some (p, ← skipSpaces s (p + 1) (some lineEnd))
    parseHeaderValue (p + 1) lineEnd
  else return none
termination_by lineEnd - p

def isHeader (header headerLen : Nat) (cmp : Bytes) : Except Fault Bool :=
  if headerLen = cmp.length then strncasecmp s header cmp else return false

def trimRight (line lineEnd : Nat) : Except Fault Nat :=
  if line < lineEnd then do
    let c ← peek_back s lineEnd
    if c ≠ space ∧ c ≠ tab then return lineEnd
    trimRight line (lineEnd - 1)
  else return lineEnd
termination_by lineEnd

/-- `value < lineEnd && *value == '"' && *(lineEnd - 1) == '"'`. -/
def isQuoted (value lineEnd : Nat) : Except Fault Bool := do
  if value < lineEnd then
    if (← peek s value) = quote then return decide ((← peek_back s lineEnd) = quote) else return false
  else return false

def dupValue (value lineEnd : Nat) : Except Fault Bytes := do
  let lineEnd ← trimRight s value lineEnd
  if ← isQuoted s value lineEnd then dupLine s (value + 1) (some (lineEnd - 1))
  else dupLine s value (some lineEnd)

end Tokens

/-- The headers in the order in which a line is compared with them. -/
def parsed_fields : List Field :=
  [.From, .Host, .Tran, .Max_Age, .Timeout, .Primary_Proxy, .Proxies, .Manufacturer, .Model, .Driver,
    .Config_URL, .Type_]

/-- The header whose name a line starts with. -/
def findHeader (s : Bytes) (header headerLen : Nat) : List Field → Except Fault (Option Field)
  | [] => return none
  | f :: fields => do
    if ← isHeader s header headerLen f.name then return some f else findHeader s header headerLen fields

/-- `parseHeaderLine`. Without a colon the line is no header. The first of several values stays. -/
def parseHeaderLine (s : Bytes) (packet : SddpPacket) (line lineEnd : Nat) :
    Except Fault (Option SddpPacket) := do
  match ← parseHeaderValue s line lineEnd with
  | none => return none
  | some (p, value) =>
    -- without a value the pointers are moved to an empty literal
    let (mem, value, lineEnd) := match value with
      | some value => (s, value, lineEnd)
      | none => ([], 0, 0)
    match ← findHeader s line (p - line) parsed_fields with
    | none => return some packet
    | some f =>
      if packet.headers f = none then
        let value ← dupValue mem value lineEnd
        return some { packet with headers := Function.update packet.headers f (some value) }
      else return some packet

/-! ## The first line -/

def SDDP : Bytes := ascii "SDDP/"

def dupVersion (s : Bytes) (protocol : Nat) (lineEnd : Option Nat) : Except Fault Bytes := do
  assert ((← strncmp s protocol SDDP) = true)
  let tokenEnd ← skipToken s (protocol + SDDP.length) lineEnd
  dupToken s (protocol + SDDP.length) tokenEnd

/-- `strncmp(protocol, "SDDP/", 5) == 0 && strlen(protocol) > 5`. -/
def isProtocol (s : Bytes) (protocol : Nat) : Except Fault Bool := do
  if ← strncmp s protocol SDDP then return decide ((← strlen s protocol) > 5) else return false

def parseFirstLine (s : Bytes) (line : Nat) (lineEnd : Option Nat) : Except Fault (Option SddpPacket) := do
  let some protocol ← findToken s line lineEnd none | return none
  if ← isProtocol s protocol then
    let some status ← findToken s line lineEnd (some protocol) | return none
    let some reason ← findToken s line lineEnd (some status) | return none
    let status_code ← dupToken s status lineEnd
    let reason ← dupLine s reason lineEnd
    let version ← dupVersion s protocol (some status)
    return some ⟨.Response (some status_code) (some reason) (some version), fun _ => none, none⟩
  else
    let method := protocol
    let some argument ← findToken s line lineEnd (some method) | return none
    let some protocol ← findToken s line lineEnd (some argument) | return none
    if ← isProtocol s protocol then
      let method ← dupToken s method lineEnd
      let argument ← dupToken s argument lineEnd
      let version ← dupVersion s protocol lineEnd
      return some ⟨.Request (some method) (some argument) (some version), fun _ => none, none⟩
    else return none

/-! ## The lines of a packet -/

/-- What `ParseSDDPPacket` makes of the `i`-th line. -/
def parseLine (s : Bytes) (line lineEnd i : Nat) (p : Option SddpPacket) : Except Fault (Option SddpPacket) :=
  if i = 0 then parseFirstLine s line (some lineEnd)
  else match p with
    | none => .error .assert
    | some p => parseHeaderLine s p line lineEnd

/-- The loop of `ParseSDDPPacket` from a line on. -/
def parseLines (s : Bytes) (line i : Nat) (p : Option SddpPacket) : Except Fault (Option SddpPacket) := do
  match ← strstr s crlf line with
  | none =>
    let lineEnd := line + (← strlen s line)
    if lineEnd = line then return p else parseLine s line lineEnd i p
  | some ⟨lineEnd, _⟩ =>
    let nextLine := lineEnd + 2
    if lineEnd = line then match p with
      | none => return none
      | some p =>
        assert (i > 0)
        let body ← dupLine s nextLine (some (nextLine + (← strlen s nextLine)))
        return some { p with body := some body }
    else match ← parseLine s line lineEnd i p with
      | none => return none
      | some p => parseLines s nextLine (i + 1) (some p)
termination_by s.length - line
decreasing_by
  all_goals
    have hlen : crlf.length = 2 := rfl
    omega

def ParseSDDPPacket (packet : Bytes) : Except Fault (Option SddpPacket) := parseLines packet 0 0 none

/-! ## Writing -/

/-- What the writer returns, which counts the NUL, and the text in the buffer. -/
structure Written where
  written : Nat
  buffer : Option Bytes

def writeBuffer (bufferSize : Nat) (w : Written) (str : Bytes) : Written :=
  let written := w.written + str.length
  ⟨written, if bufferSize > written then w.buffer.map (· ++ str) else w.buffer⟩

def writeHeader (bufferSize : Nat) (w : Written) (header : Bytes) (value : Option Bytes)
    (forceQuotes : Bool) : Written :=
  match value with
  | none => w
  | some value =>
    let w := writeBuffer bufferSize w header
    let w := writeBuffer bufferSize w (if forceQuotes then [colon, space, quote] else [colon, space])
    let w := writeBuffer bufferSize w value
    writeBuffer bufferSize w (if forceQuotes then quote :: crlf else crlf)

/-- The headers in the order in which they are written, and which of them are quoted. -/
def written_fields : List (Field × Bool) :=
  [(.From, true), (.Host, true), (.Tran, false), (.Max_Age, false), (.Type_, true), (.Timeout, false),
    (.Primary_Proxy, true), (.Proxies, true), (.Manufacturer, true), (.Model, true), (.Driver, true),
    (.Config_URL, true)]

def writeHeaders (bufferSize : Nat) (packet : SddpPacket) (fields : List (Field × Bool)) (w : Written) : Written :=
  fields.foldl (fun w (f, forceQuotes) => writeHeader bufferSize w f.name (packet.headers f) forceQuotes) w

def writeBody (bufferSize : Nat) (w : Written) : Option Bytes → Written
  | none => w
  | some body => writeBuffer bufferSize (writeBuffer bufferSize w crlf) body

def hasValue (val : Option Bytes) : Prop := val ≠ none ∧ val ≠ some []

instance (val : Option Bytes) : Decidable (hasValue val) := inferInstanceAs (Decidable (_ ∧ _))

/-- The first line, unless a part of it is missing. -/
def writeFirstLine (bufferSize : Nat) (w : Written) : StartLine → Option Written
  | .Request method argument version =>
    if hasValue method ∧ hasValue argument ∧ hasValue version then
      some ([method.getD [], [space], argument.getD [], space :: SDDP, version.getD [], crlf].foldl
        (writeBuffer bufferSize) w)
    else none
  | .Response status_code reason version =>
    if hasValue status_code ∧ hasValue reason ∧ hasValue version then
      some ([SDDP, version.getD [], [space], status_code.getD [], [space], reason.getD [], crlf].foldl
        (writeBuffer bufferSize) w)
    else none
  | .Unknown => none

/-- `WriteSDDPPacket`. The buffer holds some text before, or is NULL. -/
def WriteSDDPPacket (packet : SddpPacket) (buffer : Option Bytes) (bufferSize : Nat) : Written :=
  let buffer := if bufferSize > 0 then buffer.map fun _ => [] else buffer
  match writeFirstLine bufferSize ⟨1, buffer⟩ packet.h with
  | none => ⟨0, buffer⟩
  | some w => writeBody bufferSize (writeHeaders bufferSize packet written_fields w) packet.body

/-! ## No read outside of the text -/

section Safety

variable {s : Bytes} {line : Nat} {lineEnd : Option Nat}

theorem at_most.le {p q : Option Nat} (h : at_most p q) : p.getD 0 ≤ q.getD 0 := by
  cases p with
  | none => exact Nat.zero_le _
  | some p =>
    cases q with
    | none => exact h.elim
    | some q => exact h

theorem at_most.refl (p : Option Nat) : at_most p p := by
  cases p with
  | none => exact trivial
  | some p => exact Nat.le_refl p

theorem skipSpaces_safe (hend : lineEnd.getD 0 ≤ s.length) :
    Safe (fun r => ∀ q, r = some q → line ≤ q ∧ before q lineEnd) (skipSpaces s line lineEnd) := by
  induction hn : lineEnd.getD 0 - line using Nat.strong_induction_on generalizing line with
  | _ n ih =>
    unfold skipSpaces
    split
    · rename_i hbefore
      unfold before at hbefore
      refine (peek_safe (by omega)).bind fun c _ => ?_
      split
      · refine .pure fun q hq => ?_
        obtain rfl := Option.some.inj hq
        exact ⟨le_refl _, hbefore⟩
      · refine (ih _ (by omega) rfl).mono fun r hr q hq => ?_
        have := hr q hq
        exact ⟨by omega, this.2⟩
    · exact .pure (by simp)

theorem skipOver_safe (hline : before line lineEnd) (hend : lineEnd.getD 0 ≤ s.length) :
    Safe (fun r => at_most r lineEnd ∧ ∀ q, r = some q → line ≤ q) (skipOver s line lineEnd) := by
  obtain ⟨e, rfl⟩ : ∃ e, lineEnd = some e := by
    cases lineEnd with
    | none => exact absurd hline (Nat.not_lt_zero _)
    | some e => exact ⟨e, rfl⟩
  have hle : line ≤ e := Nat.le_of_lt hline
  clear hline
  induction hn : e - line using Nat.strong_induction_on generalizing line with
  | _ n ih =>
    unfold skipOver
    split
    · rename_i hbefore
      have hlt : line < e := hbefore
      refine (peek_safe (hle.trans hend)).bind fun c _ => ?_
      split
      · exact .pure ⟨hle, by simp⟩
      · refine (ih (e - (line + 1)) (by omega) hlt rfl).mono fun r hr => ⟨hr.1, fun q hq => ?_⟩
        have := hr.2 q hq
        omega
    · exact .pure ⟨at_most.refl _, by simpa using hle⟩

theorem skipToken_safe (hend : lineEnd.getD 0 ≤ s.length) :
    Safe (fun r => at_most r lineEnd) (skipToken s line lineEnd) := by
  refine (skipSpaces_safe hend).bind fun r hr => ?_
  cases r with
  | none => exact .pure trivial
  | some p =>
    dsimp only
    split
    · rename_i hbefore
      exact (skipOver_safe hbefore hend).mono fun _ h => h.1
    · exact .pure trivial

theorem findToken_safe {current : Option Nat} (hend : lineEnd.getD 0 ≤ s.length) :
    Safe (fun r => ∀ q, r = some q → before q lineEnd) (findToken s line lineEnd current) := by
  cases current with
  | none => exact (skipSpaces_safe hend).mono fun r hr q hq => (hr q hq).2
  | some current =>
    refine (skipToken_safe hend).bind fun r _ => ?_
    cases r with
    | none => exact .pure (by simp)
    | some p => exact (skipSpaces_safe hend).mono fun r hr q hq => (hr q hq).2

theorem dupLine_safe (hline : line ≤ s.length) (hend : lineEnd.getD 0 ≤ s.length) :
    Safe (fun _ => True) (dupLine s line lineEnd) := by
  apply memcpy_safe
  omega

theorem dupToken_safe (hline : line ≤ s.length) (hend : lineEnd.getD 0 ≤ s.length) :
    Safe (fun _ => True) (dupToken s line lineEnd) := by
  refine (skipToken_safe hend).bind fun r hr => ?_
  have htoken : at_most (r.or lineEnd) lineEnd := by
    cases r with
    | none => exact at_most.refl _
    | some p => exact hr
  refine (assert_safe htoken).bind fun _ _ => dupLine_safe hline ?_
  exact htoken.le.trans hend

theorem dupVersion_safe (hline : line ≤ s.length) (hend : lineEnd.getD 0 ≤ s.length)
    (hstarts : strncmp s line SDDP = .ok true) : Safe (fun _ => True) (dupVersion s line lineEnd) := by
  have hlen : line + SDDP.length ≤ s.length := by
    have hsafe : Safe _ (strncmp s line SDDP) := strncmp_safe hline (by decide)
    rw [hstarts] at hsafe
    exact hsafe rfl
  unfold dupVersion
  rw [hstarts]
  refine (assert_safe (p := true = true) rfl).bind fun _ _ => (skipToken_safe hend).bind fun r hr => ?_
  exact dupToken_safe hlen (hr.le.trans hend)

theorem isProtocol_safe (hline : line ≤ s.length) :
    Safe (fun b => b = true → strncmp s line SDDP = .ok true) (isProtocol s line) := by
  have hsafe : Safe _ (strncmp s line SDDP) := strncmp_safe hline (by decide)
  obtain ⟨b, hb, -⟩ := hsafe.exists_ok
  unfold isProtocol
  rw [hb]
  cases b with
  | false => exact .pure (by simp)
  | true => exact (strlen_safe hline).bind fun n _ => .pure fun _ => rfl

theorem parseFirstLine_safe (hend : lineEnd.getD 0 ≤ s.length) :
    Safe (fun _ => True) (parseFirstLine s line lineEnd) := by
  have hle : ∀ q, before q lineEnd → q ≤ s.length := fun q hq => (Nat.le_of_lt hq).trans hend
  refine (findToken_safe hend).bind fun protocol hprotocol => ?_
  cases protocol with
  | none => exact .pure trivial
  | some protocol =>
    have hprotocol := hle _ (hprotocol _ rfl)
    refine (isProtocol_safe hprotocol).bind fun isp hisp => ?_
    split
    · rename_i htrue
      refine (findToken_safe hend).bind fun status hstatus => ?_
      cases status with
      | none => exact .pure trivial
      | some status =>
        have hstatus := hle _ (hstatus _ rfl)
        refine (findToken_safe hend).bind fun reason hreason => ?_
        cases reason with
        | none => exact .pure trivial
        | some reason =>
          have hreason := hle _ (hreason _ rfl)
          have hversion : Safe _ (dupVersion s protocol (some status)) :=
            dupVersion_safe hprotocol hstatus (hisp htrue)
          exact (dupToken_safe hstatus hend).bind fun _ _ => (dupLine_safe hreason hend).bind fun _ _ =>
            hversion.bind fun _ _ => .pure trivial
    · refine (findToken_safe hend).bind fun argument hargument => ?_
      cases argument with
      | none => exact .pure trivial
      | some argument =>
        have hargument := hle _ (hargument _ rfl)
        refine (findToken_safe hend).bind fun version hversion => ?_
        cases version with
        | none => exact .pure trivial
        | some version =>
          have hversion := hle _ (hversion _ rfl)
          refine (isProtocol_safe hversion).bind fun isp hisp => ?_
          split
          · rename_i htrue
            exact (dupToken_safe hprotocol hend).bind fun _ _ => (dupToken_safe hargument hend).bind fun _ _ =>
              (dupVersion_safe hversion hend (hisp htrue)).bind fun _ _ => .pure trivial
          · exact .pure trivial

theorem parseHeaderValue_safe {p e : Nat} (hend : e ≤ s.length) :
    Safe (fun r => ∀ q v, r = some (q, v) → p ≤ q ∧ q < e ∧ ∀ w, v = some w → w < e)
      (parseHeaderValue s p e) := by
  induction hn : e - p using Nat.strong_induction_on generalizing p with
  | _ n ih =>
    unfold parseHeaderValue
    split
    · rename_i hlt
      refine (peek_safe (by omega)).bind fun c _ => ?_
      split
      · have hspaces : Safe _ (skipSpaces s (p + 1) (some e)) := skipSpaces_safe hend
        refine hspaces.bind fun r hr => .pure fun q v hq => ?_
        obtain ⟨rfl, rfl⟩ := Prod.mk.inj (Option.some.inj hq)
        exact ⟨le_refl _, hlt, fun w hw => (hr w hw).2⟩
      · refine (ih (e - (p + 1)) (by omega) rfl).mono fun r hr q v hq => ?_
        have := hr q v hq
        exact ⟨by omega, this.2⟩
    · exact .pure (by simp)

theorem findHeader_safe {header headerLen : Nat} (hlen : header + headerLen ≤ s.length)
    (fields : List Field) : Safe (fun _ => True) (findHeader s header headerLen fields) := by
  induction fields with
  | nil => exact .pure trivial
  | cons f fields ih =>
    have hheader : Safe (fun _ => True) (isHeader s header headerLen f.name) := by
      unfold isHeader
      split
      · rename_i heq
        exact strncasecmp_safe (by omega)
      · exact .pure trivial
    refine hheader.bind fun b _ => ?_
    split
    · exact .pure trivial
    · exact ih

theorem trimRight_safe {e : Nat} (hline : line ≤ e) (hend : e ≤ s.length) :
    Safe (fun r => line ≤ r ∧ r ≤ e) (trimRight s line e) := by
  induction e using Nat.strong_induction_on with
  | _ e ih =>
    unfold trimRight
    split
    · refine (peek_back_safe (by omega)).bind fun c _ => ?_
      split
      · exact .pure ⟨hline, le_refl e⟩
      · exact (ih (e - 1) (by omega) (by omega) (by omega)).mono fun r hr => by omega
    · exact .pure ⟨hline, le_refl e⟩

theorem dupValue_safe {value e : Nat} (hvalue : value ≤ e) (hend : e ≤ s.length) :
    Safe (fun _ => True) (dupValue s value e) := by
  refine (trimRight_safe hvalue hend).bind fun stop hstop => ?_
  have hquoted : Safe (fun b => b = true → value < stop) (isQuoted s value stop) := by
    unfold isQuoted
    split
    · rename_i hlt
      refine (peek_safe (by omega)).bind fun c _ => ?_
      split
      · exact (peek_back_safe (by omega)).bind fun c _ => .pure fun _ => hlt
      · exact .pure (by simp)
    · exact .pure (by simp)
  refine hquoted.bind fun b hb => ?_
  split
  · rename_i htrue
    have := hb htrue
    apply dupLine_safe
    · omega
    · rw [Option.getD_some]
      omega
  · apply dupLine_safe
    · omega
    · rw [Option.getD_some]
      omega

theorem parseHeaderLine_safe (packet : SddpPacket) {e : Nat} (hend : e ≤ s.length) :
    Safe (fun _ => True) (parseHeaderLine s packet line e) := by
  refine (parseHeaderValue_safe hend).bind fun r hr => ?_
  cases r with
  | none => exact .pure trivial
  | some r =>
    obtain ⟨p, value⟩ := r
    obtain ⟨hle, hlt, hvalue⟩ := hr p value rfl
    refine (findHeader_safe (by omega) parsed_fields).bind fun f _ => ?_
    cases f with
    | none => exact .pure trivial
    | some f =>
      dsimp only
      split
      · cases value with
        | none => exact (dupValue_safe (le_refl 0) (le_refl 0)).bind fun _ _ => .pure trivial
        | some value =>
          exact (dupValue_safe (Nat.le_of_lt (hvalue value rfl)) hend).bind fun _ _ => .pure trivial
      · exact .pure trivial

theorem parseLine_safe {e i : Nat} {p : Option SddpPacket} (hend : e ≤ s.length) (hp : i = 0 ↔ p = none) :
    Safe (fun _ => True) (parseLine s line e i p) := by
  unfold parseLine
  split
  · exact parseFirstLine_safe hend
  · rename_i hi
    cases p with
    | none => exact absurd (hp.mpr rfl) hi
    | some p => exact parseHeaderLine_safe p hend

theorem parseLines_safe {i : Nat} {p : Option SddpPacket} (hline : line ≤ s.length)
    (hp : i = 0 ↔ p = none) : Safe (fun _ => True) (parseLines s line i p) := by
  induction hn : s.length - line using Nat.strong_induction_on generalizing line i p with
  | _ n ih =>
    unfold parseLines
    refine (strstr_safe hline).bind fun found _ => ?_
    cases found with
    | none =>
      refine (strlen_safe hline).bind fun len hlen => ?_
      dsimp only
      split
      · exact .pure trivial
      · exact parseLine_safe (by omega) hp
    | some found =>
      obtain ⟨e, hle, hfits⟩ := found
      have hcrlf : crlf.length = 2 := rfl
      dsimp only
      split
      · cases p with
        | none => exact .pure trivial
        | some p =>
          have hi : i > 0 := Nat.pos_of_ne_zero fun hz => by simpa using hp.mp hz
          refine (assert_safe hi).bind fun _ _ => (strlen_safe (by omega)).bind fun len hlen => ?_
          refine (dupLine_safe (by omega) ?_).bind fun _ _ => .pure trivial
          rw [Option.getD_some]
          omega
      · refine (parseLine_safe (by omega) hp).bind fun p' _ => ?_
        cases p' with
        | none => exact .pure trivial
        | some p' => exact ih _ (by omega) (by omega) (by simp) rfl

theorem ParseSDDPPacket_safe (packet : Bytes) : Safe (fun _ => True) (ParseSDDPPacket packet) :=
  parseLines_safe (Nat.zero_le _) (by simp)

end Safety

end yocto.sddp_packet
