-- The messages of the RPC connections (`asyncrpc/connection.py`).
import Yocto.DataSmart
import Yocto.Json

open yocto.task_ids yocto.json
open yocto.data_smart (isspace)

namespace yocto.message_chunks

/-! ## Sending -/

/-- The groups that `zip_longest` makes of `k` times the same iterator. -/
def grouped {α : Type} (k : Nat) : Nat → List α → List (List α)
  | 0, _ => []
  | n + 1, l => if k = 0 ∨ l.isEmpty then [] else l.take k :: grouped k n (l.drop k)

def pieces {α : Type} (k : Nat) (l : List α) : List (List α) := grouped k l.length l

/-- `{"chunk-stream": None}`. -/
def chunk_stream : Json := .dict (.cons (text "chunk-stream") .null .nil)

def chunkify (msg : Text) (max_chunk : Nat) : List Text :=
  if msg.length < max_chunk - 1 then [msg ++ ['\n']]
  else (dumps chunk_stream ++ ['\n']) ::
    ((pieces (max_chunk - 1) msg).map (· ++ ['\n']) ++ [['\n']])

def send_message (max_chunk : Nat) (msg : Json) : Text := (chunkify (dumps msg) max_chunk).flatten

/-! ## Receiving -/

/-- The reader of a connection: what it will get, and the bytes that a line may have. -/
structure StreamReader where
  limit : Nat
  buffer : Text
  deriving DecidableEq

/-- What `recv_message` can raise. -/
inductive RecvError
  | connectionClosed
  | badMessage (line : Text)
  | limitOverrun
  | jsonDecode
  | notIterable
  deriving DecidableEq

def byteLength (s : Text) : Nat := (s.map Char.utf8Size).sum

/-- `readline`. At the end of the stream it returns what is left. -/
def readline (reader : StreamReader) : Except RecvError (Text × StreamReader) :=
  let line := reader.buffer.takeWhile (· ≠ '\n')
  if reader.limit < byteLength line then .error .limitOverrun
  else match reader.buffer.dropWhile (· ≠ '\n') with
    | [] => .ok (line, ⟨reader.limit, []⟩)
    | _ :: rest => .ok (line ++ ['\n'], ⟨reader.limit, rest⟩)

def rstrip (line : Text) : Text := line.rdropWhile isspace

def recv (reader : StreamReader) : Except RecvError (Text × StreamReader) := do
  let (line, reader) ← readline reader
  if line = [] then .error .connectionClosed
  else if line.getLast? ≠ some '\n' then .error (.badMessage line)
  else .ok (rstrip line, reader)

/-- The loop that reads the pieces, up to an empty line. -/
def recv_lines : Nat → StreamReader → Except RecvError (List Text × StreamReader)
  | 0, _ => .error .connectionClosed
  | n + 1, reader => do
    let (l, reader) ← recv reader
    if l = [] then .ok ([], reader)
    else
      let (lines, reader) ← recv_lines n reader
      .ok (l :: lines, reader)

/-- `not m`. -/
def falsy : Json → Bool
  | .null => true
  | .bool b => !b
  | .number x => x.isZero
  | .str s => s.isEmpty
  | .list items => items.toList.isEmpty
  | .dict fields => fields.keys.isEmpty

/-- `"chunk-stream" in m`. Numbers and truth values hold nothing: that is a `TypeError`. -/
def holds_chunk_stream : Json → Option Bool
  | .str s => some (decide (text "chunk-stream" <:+: s))
  | .list items => some (decide (Json.str (text "chunk-stream") ∈ items.toList))
  | .dict fields => some (decide (text "chunk-stream" ∈ fields.keys))
  | _ => none

def load (s : Text) : Except RecvError Json :=
  match loads s with
  | none => .error .jsonDecode
  | some m => .ok m

def recv_message (reader : StreamReader) : Except RecvError (Json × StreamReader) := do
  let (l, reader) ← recv reader
  let m ← load l
  if falsy m then .ok (m, reader)
  else match holds_chunk_stream m with
    | none => .error .notIterable
    | some false => .ok (m, reader)
    | some true =>
      -- every turn takes at least one character of the buffer
      let (lines, reader) ← recv_lines (reader.buffer.length + 1) reader
      let m ← load lines.flatten
      .ok (m, reader)

/-! ## Pieces -/

theorem grouped_flatten {α : Type} {k : Nat} (hk : 0 < k) (n : Nat) (l : List α)
    (h : l.length ≤ n) : (grouped k n l).flatten = l := by
  induction n generalizing l with
  | zero =>
    rw [List.length_eq_zero_iff.mp (by omega : l.length = 0)]
    simp [grouped]
  | succ n ih =>
    cases l with
    | nil => simp [grouped]
    | cons x l =>
      have hne : ¬(k = 0 ∨ (x :: l).isEmpty = true) := by simp; omega
      rw [grouped, if_neg hne, List.flatten_cons, ih _ (by simp at h ⊢; omega),
        List.take_append_drop]

theorem pieces_flatten {α : Type} {k : Nat} (hk : 0 < k) (l : List α) : (pieces k l).flatten = l :=
  grouped_flatten hk _ l (le_refl _)

theorem grouped_map {α β : Type} (f : α → β) (k n : Nat) (l : List α) :
    grouped k n (l.map f) = (grouped k n l).map (List.map f) := by
  induction n generalizing l with
  | zero => rfl
  | succ n ih =>
    unfold grouped
    rw [← List.map_drop, ih]
    split_ifs <;> simp_all

theorem pieces_map {α β : Type} (f : α → β) (k : Nat) (l : List α) :
    pieces k (l.map f) = (pieces k l).map (List.map f) := by
  rw [pieces, List.length_map, grouped_map, pieces]

theorem length_of_mem_grouped {α : Type} {k n : Nat} {l piece : List α}
    (h : piece ∈ grouped k n l) : piece.length ≤ k := by
  induction n generalizing l with
  | zero => simp [grouped] at h
  | succ n ih =>
    rw [grouped] at h
    split at h
    · simp at h
    · rcases List.mem_cons.mp h with rfl | h
      · simp
      · exact ih h

theorem pieces_cons {α : Type} {k : Nat} (hk : 0 < k) {l : List α} (h : k ≤ l.length) :
    ∃ ps, pieces k l = l.take k :: ps := by
  obtain ⟨x, l, rfl⟩ := List.exists_cons_of_length_pos (by omega : 0 < l.length)
  have hne : ¬(k = 0 ∨ (x :: l).isEmpty = true) := by simp; omega
  exact ⟨_, by rw [pieces, List.length_cons, grouped, if_neg hne]⟩

/-! ## Lines -/

/-- What can stand in a line: no line feed, and not more bytes than the reader takes. -/
def Fits (limit : Nat) (line : Text) : Prop := '\n' ∉ line ∧ byteLength line ≤ limit

theorem byteLength_printable {s : Text} (h : ∀ c ∈ s, printable c) : byteLength s = s.length := by
  induction s with
  | nil => rfl
  | cons c s ih =>
    have hc := h c List.mem_cons_self
    have hsize : c.utf8Size = 1 := by
      have h2 := hc.2
      rw [Char.le_def, UInt32.le_iff_toNat_le] at h2
      simp only [Char.utf8Size]
      rw [if_pos]
      rw [UInt32.le_iff_toNat_le]
      exact le_trans h2 (by decide)
    simp only [byteLength, List.map_cons, List.sum_cons, List.length_cons, hsize] at ih ⊢
    rw [ih fun x hx => h x (List.mem_cons_of_mem c hx)]
    omega

theorem readline_line {limit : Nat} {line : Text} (rest : Text) (h : Fits limit line) :
    readline ⟨limit, line ++ '\n' :: rest⟩ = .ok (line ++ ['\n'], ⟨limit, rest⟩) := by
  have htake : (line ++ '\n' :: rest).takeWhile (· ≠ '\n') = line := by
    rw [List.takeWhile_append_of_pos fun c hc => by
      simp only [ne_eq, decide_eq_true_eq]
      rintro rfl
      exact h.1 hc]
    simp
  have hdrop : (line ++ '\n' :: rest).dropWhile (· ≠ '\n') = '\n' :: rest := by
    rw [List.dropWhile_append_of_pos fun c hc => by
      simp only [ne_eq, decide_eq_true_eq]
      rintro rfl
      exact h.1 hc]
    simp
  have hfits : ¬limit < byteLength line := by
    have := h.2
    omega
  simp only [readline, htake, hdrop, hfits, ↓reduceIte]

theorem rstrip_line (line : Text) : rstrip (line ++ ['\n']) = rstrip line := by
  rw [rstrip, List.rdropWhile_concat_pos _ _ _ (by decide), rstrip]

theorem recv_line {limit : Nat} {line : Text} (rest : Text) (h : Fits limit line) :
    recv ⟨limit, line ++ '\n' :: rest⟩ = .ok (rstrip line, ⟨limit, rest⟩) := by
  simp only [recv, readline_line rest h, bind, Except.bind]
  simp [rstrip_line]

theorem recv_long_line {limit : Nat} {line : Text} (rest : Text) (hline : '\n' ∉ line)
    (h : limit < byteLength line) : recv ⟨limit, line ++ '\n' :: rest⟩ = .error .limitOverrun := by
  have htake : (line ++ '\n' :: rest).takeWhile (· ≠ '\n') = line := by
    rw [List.takeWhile_append_of_pos fun c hc => by
      simp only [ne_eq, decide_eq_true_eq]
      rintro rfl
      exact hline hc]
    simp
  simp only [recv, readline, htake, h, ↓reduceIte, bind, Except.bind]

def piece_lines (ps : List Text) : Text := (ps.map (· ++ ['\n'])).flatten

theorem recv_lines_pieces {limit : Nat} {ps : List Text} (rest : Text)
    (hfits : ∀ p ∈ ps, Fits limit p) (hblank : ∀ p ∈ ps, rstrip p ≠ []) {n : Nat}
    (hn : ps.length < n) : recv_lines n ⟨limit, piece_lines ps ++ '\n' :: rest⟩ =
      .ok (ps.map rstrip, ⟨limit, rest⟩) := by
  induction ps generalizing n with
  | nil =>
    obtain ⟨k, rfl⟩ : ∃ k, n = k + 1 := ⟨n - 1, by omega⟩
    have hempty : Fits limit [] := ⟨by simp, by simp [byteLength]⟩
    have := recv_line rest hempty
    simp only [List.nil_append] at this
    simp [recv_lines, piece_lines, this, bind, Except.bind, rstrip]
  | cons p ps ih =>
    obtain ⟨k, rfl⟩ : ∃ k, n = k + 1 := ⟨n - 1, by omega⟩
    simp only [List.forall_mem_cons] at hfits hblank
    have hline : piece_lines (p :: ps) ++ '\n' :: rest =
        p ++ '\n' :: (piece_lines ps ++ '\n' :: rest) := by simp [piece_lines]
    simp only [hline, recv_lines, recv_line _ hfits.1, bind, Except.bind, hblank.1, ↓reduceIte,
      ih hfits.2 hblank.2 (by simpa using hn), List.map_cons]

theorem recv_lines_blank {limit : Nat} {ps : List Text} (rest : Text)
    (hfits : ∀ p ∈ ps, Fits limit p) (hblank : ∃ p ∈ ps, rstrip p = []) {n : Nat}
    {lines : List Text} {reader : StreamReader}
    (h : recv_lines n ⟨limit, piece_lines ps ++ '\n' :: rest⟩ = .ok (lines, reader)) :
    rest.length < reader.buffer.length := by
  induction ps generalizing n lines reader with
  | nil => simp at hblank
  | cons p ps ih =>
    cases n with
    | zero => simp [recv_lines] at h
    | succ k =>
      simp only [List.forall_mem_cons] at hfits
      have hline : piece_lines (p :: ps) ++ '\n' :: rest =
          p ++ '\n' :: (piece_lines ps ++ '\n' :: rest) := by simp [piece_lines]
      simp only [hline, recv_lines, recv_line _ hfits.1, bind, Except.bind] at h
      split_ifs at h with hp
      · simp only [Except.ok.injEq, Prod.mk.injEq] at h
        simp only [← h.2, List.length_append, List.length_cons]
        omega
      · split at h
        · exact absurd h (by simp)
        · rename_i result heq
          obtain ⟨lines', reader'⟩ := result
          simp only [Except.ok.injEq, Prod.mk.injEq] at h
          rw [← h.2]
          refine ih hfits.2 ?_ heq
          simpa [hp] using hblank

/-! ## What a piece keeps -/

/-- What `rstrip` leaves of a piece, with the marks. -/
def stripped (piece : Marked) : Marked := piece.rdropWhile (·.1 == ' ')

/-- The piece is not blank, and no space at its end stands inside a string literal. -/
def Keeps (piece : Marked) : Prop :=
  (∃ x ∈ piece, x.1 ≠ ' ') ∧ ∀ x ∈ piece.rtakeWhile (·.1 == ' '), x.2 = false

theorem isspace_printable {c : Char} (h : printable c) : isspace c = (c == ' ') := by
  obtain ⟨h1, h2⟩ := h
  by_cases hc : c = ' '
  · subst hc
    decide
  · have hne : c.toNat ≠ 32 := fun heq => hc (Char.toNat_inj.mp heq)
    rw [Char.le_def, UInt32.le_iff_toNat_le] at h1 h2
    change 32 ≤ c.toNat at h1
    change c.toNat ≤ 126 at h2
    simp only [isspace, beq_eq_false_iff_ne.mpr hc, Bool.or_eq_false_iff, Bool.and_eq_false_iff,
      decide_eq_false_iff_not]
    omega

theorem rstrip_chars {piece : Marked} (h : ∀ c ∈ chars piece, printable c) :
    rstrip (chars piece) = chars (stripped piece) := by
  unfold rstrip stripped
  induction piece using List.reverseRecOn with
  | nil => simp
  | append_singleton piece x ih =>
    simp only [chars_append, List.mem_append] at h
    have hx : isspace x.1 = (x.1 == ' ') := isspace_printable (h x.1 (Or.inr (by simp [chars])))
    rw [chars_append, show chars [x] = [x.1] by simp [chars], List.rdropWhile_concat,
      List.rdropWhile_concat, hx]
    split
    · exact ih fun c hc => h c (Or.inl hc)
    · simp [chars]

theorem dropped_spaces {m : Marked} (h : ∀ x ∈ m, x.1 = ' ') : Dropped m [] := by
  induction m with
  | nil => exact .nil
  | cons x m ih =>
    simp only [List.forall_mem_cons] at h
    obtain ⟨c, b⟩ := x
    obtain rfl : c = ' ' := h.1
    exact .drop b (ih h.2)

theorem dropped_stripped (piece : Marked) : Dropped piece (stripped piece) := by
  have hspaces : Dropped (piece.rtakeWhile (·.1 == ' ')) [] :=
    dropped_spaces fun x hx => by simpa using List.mem_rtakeWhile_imp hx
  have := (Dropped.refl (stripped piece)).append hspaces
  rwa [List.append_nil, stripped, List.rdropWhile_append_rtakeWhile] at this

theorem dropped_pieces (ps : List Marked) : Dropped ps.flatten (ps.map stripped).flatten := by
  induction ps with
  | nil => exact .nil
  | cons piece ps ih => exact (dropped_stripped piece).append ih

theorem inner_stripped (piece : Marked) : inner (stripped piece) = inner piece ↔
    ∀ x ∈ piece.rtakeWhile (·.1 == ' '), x.2 = false := by
  have hsum : inner piece = inner (stripped piece) + inner (piece.rtakeWhile (·.1 == ' ')) := by
    rw [← inner_append, stripped, List.rdropWhile_append_rtakeWhile]
  rw [hsum]
  simp only [json.inner, left_eq_add, List.countP_eq_zero, Bool.not_eq_true]

theorem inner_pieces (ps : List Marked) : inner (ps.map stripped).flatten = inner ps.flatten ↔
    ∀ piece ∈ ps, ∀ x ∈ piece.rtakeWhile (·.1 == ' '), x.2 = false := by
  induction ps with
  | nil => simp
  | cons piece ps ih =>
    have hle := (dropped_stripped piece).inner_le
    have hles := (dropped_pieces ps).inner_le
    rw [List.forall_mem_cons, ← ih, ← inner_stripped]
    simp only [List.map_cons, List.flatten_cons, inner_append]
    omega

theorem stripped_eq_nil {piece : Marked} : stripped piece = [] ↔ ∀ x ∈ piece, x.1 = ' ' := by
  simp [stripped, List.rdropWhile_eq_nil_iff]

/-! ## Messages -/

/-- A value that can be a message: no Python dictionary has a key twice. -/
structure Message where
  value : Json
  distinct : value.distinct

/-- The message is received as it was sent. A short one must not be taken for the beginning of a
long one, and no piece of a long one may lose more than what JSON does not need. -/
def Survives (limit max_chunk : Nat) (v : Json) : Prop :=
  if (dumps v).length < max_chunk - 1 then
    (dumps v).length ≤ limit ∧ (falsy v = true ∨ holds_chunk_stream v = some false)
  else max_chunk - 1 ≤ limit ∧ ∀ piece ∈ pieces (max_chunk - 1) (marked v), Keeps piece

theorem printable_dumps (v : Json) : ∀ c ∈ dumps v, printable c := printable_marked v

theorem no_line_feed {s : Text} (h : ∀ c ∈ s, printable c) : '\n' ∉ s := by
  intro hmem
  exact absurd (h _ hmem) (by decide)

theorem fits_of_printable {limit : Nat} {s : Text} (h : ∀ c ∈ s, printable c)
    (hlen : s.length ≤ limit) : Fits limit s :=
  ⟨no_line_feed h, by rwa [byteLength_printable h]⟩

theorem rstrip_dumps (v : Json) : rstrip (dumps v) = dumps v := by
  obtain ⟨l, c, hl, hc⟩ := dumps_concat v
  have hprint := printable_dumps v c (by simp [hl])
  rw [hl, rstrip, List.rdropWhile_concat_neg]
  simp [isspace_printable hprint, hc]

theorem load_dumps {v : Json} (hv : v.distinct) : load (dumps v) = .ok v := by
  rw [load, loads_dumps hv]

theorem recv_short {limit : Nat} (v : Message) (rest : Text)
    (hlimit : (dumps v.value).length ≤ limit) :
    recv_message ⟨limit, dumps v.value ++ '\n' :: rest⟩ =
      if falsy v.value then .ok (v.value, ⟨limit, rest⟩)
      else match holds_chunk_stream v.value with
        | none => .error .notIterable
        | some false => .ok (v.value, ⟨limit, rest⟩)
        | some true =>
          (recv_lines (rest.length + 1) ⟨limit, rest⟩).bind fun (lines, reader) =>
            (load lines.flatten).bind fun m => .ok (m, reader) := by
  have hrecv := recv_line rest (fits_of_printable (printable_dumps v.value) hlimit)
  simp only [recv_message, hrecv, rstrip_dumps, load_dumps v.distinct, bind, Except.bind]

theorem recv_long {limit k : Nat} (v : Message) (rest : Text)
    (hlimit : (dumps chunk_stream).length ≤ limit) :
    recv_message ⟨limit, dumps chunk_stream ++ '\n' :: (piece_lines (pieces k (dumps v.value)) ++
        '\n' :: rest)⟩ =
      (recv_lines ((piece_lines (pieces k (dumps v.value)) ++ '\n' :: rest).length + 1)
        ⟨limit, piece_lines (pieces k (dumps v.value)) ++ '\n' :: rest⟩).bind fun (lines, reader) =>
          (load lines.flatten).bind fun m => .ok (m, reader) := by
  have hdistinct : chunk_stream.distinct := by simp [chunk_stream, Json.distinct, Fields.distinct,
    Fields.keys]
  rw [recv_short ⟨chunk_stream, hdistinct⟩ _ hlimit]
  have hfalsy : falsy chunk_stream = false := by decide
  have hholds : holds_chunk_stream chunk_stream = some true := by decide
  simp only [hfalsy, hholds, Bool.false_eq_true, ↓reduceIte]

theorem send_short {max_chunk : Nat} {v : Json} (h : (dumps v).length < max_chunk - 1)
    (rest : Text) : send_message max_chunk v ++ rest = dumps v ++ '\n' :: rest := by
  simp [send_message, chunkify, h]

theorem send_long {max_chunk : Nat} {v : Json} (h : ¬(dumps v).length < max_chunk - 1)
    (rest : Text) : send_message max_chunk v ++ rest = dumps chunk_stream ++ '\n' ::
      (piece_lines (pieces (max_chunk - 1) (dumps v)) ++ '\n' :: rest) := by
  simp [send_message, chunkify, h, piece_lines]

theorem length_le_piece_lines (ps : List Text) : ps.length ≤ (piece_lines ps).length := by
  induction ps with
  | nil => simp
  | cons p ps ih =>
    simp only [piece_lines, List.map_cons, List.flatten_cons, List.length_append,
      List.length_cons] at ih ⊢
    omega

/-- The message comes out of the connection as it went in, and what comes next is next. -/
def Received (limit max_chunk : Nat) (v : Json) : Prop :=
  ∀ rest, recv_message ⟨limit, send_message max_chunk v ++ rest⟩ = .ok (v, ⟨limit, rest⟩)

theorem received_short {limit max_chunk : Nat} (v : Message)
    (h : (dumps v.value).length < max_chunk - 1) :
    Received limit max_chunk v.value ↔ (dumps v.value).length ≤ limit ∧
      (falsy v.value = true ∨ holds_chunk_stream v.value = some false) := by
  simp only [Received, send_short h]
  by_cases hlimit : (dumps v.value).length ≤ limit
  · simp only [recv_short v _ hlimit, hlimit, true_and]
    constructor
    · intro hrecv
      have hnil := hrecv []
      by_cases hfalsy : falsy v.value = true
      · exact Or.inl hfalsy
      · right
        simp only [hfalsy, Bool.false_eq_true, ↓reduceIte] at hnil
        split at hnil
        · exact absurd hnil (by simp)
        · assumption
        · exact absurd hnil (by simp [recv_lines, recv, readline, byteLength, bind, Except.bind])
    · rintro (hfalsy | hholds) rest
      · simp [hfalsy]
      · simp [hholds]
  · refine iff_of_false (fun hrecv => ?_) fun h => hlimit h.1
    have hprint := printable_dumps v.value
    have hlong : limit < byteLength (dumps v.value) := by
      rw [byteLength_printable hprint]
      omega
    have := hrecv []
    simp [recv_message, recv_long_line [] (no_line_feed hprint) hlong, bind, Except.bind] at this

theorem pieces_dumps (k : Nat) (v : Json) :
    pieces k (dumps v) = (pieces k (marked v)).map chars := pieces_map Prod.fst k (marked v)

theorem printable_piece {k : Nat} (hk : 0 < k) {v : Json} {piece : Marked}
    (h : piece ∈ pieces k (marked v)) : ∀ c ∈ chars piece, printable c := by
  intro c hc
  refine printable_marked v c ?_
  rw [← pieces_flatten hk (marked v), chars, List.map_flatten]
  exact List.mem_flatten_of_mem (List.mem_map_of_mem h) hc

theorem fits_piece {limit k : Nat} (hk : 0 < k) (hlimit : k ≤ limit) {v : Json} :
    ∀ p ∈ pieces k (dumps v), Fits limit p := by
  intro p hp
  rw [pieces_dumps] at hp
  obtain ⟨piece, hpiece, rfl⟩ := List.mem_map.mp hp
  have := length_of_mem_grouped hpiece
  exact fits_of_printable (printable_piece hk hpiece) (by simp only [chars, List.length_map]; omega)

theorem flatten_rstrip {k : Nat} (hk : 0 < k) (v : Json) :
    ((pieces k (dumps v)).map rstrip).flatten =
      chars ((pieces k (marked v)).map stripped).flatten := by
  rw [pieces_dumps, List.map_map, chars, List.map_flatten, List.map_map]
  congr 1
  exact List.map_congr_left fun piece hpiece => rstrip_chars (printable_piece hk hpiece)

theorem recv_long_pieces {limit k : Nat} (hk : 0 < k) (hlimit : k ≤ limit)
    (hheader : (dumps chunk_stream).length ≤ limit) (v : Message)
    (hblank : ∀ piece ∈ pieces k (marked v.value), ∃ x ∈ piece, x.1 ≠ ' ') :
    ∃ v', (∀ rest, recv_message ⟨limit, dumps chunk_stream ++ '\n' ::
        (piece_lines (pieces k (dumps v.value)) ++ '\n' :: rest)⟩ = .ok (v', ⟨limit, rest⟩)) ∧
      (v' = v.value ↔ ∀ piece ∈ pieces k (marked v.value),
        ∀ x ∈ piece.rtakeWhile (·.1 == ' '), x.2 = false) := by
  have hdropped := dropped_pieces (pieces k (marked v.value))
  have hsame := inner_pieces (pieces k (marked v.value))
  rw [pieces_flatten hk] at hdropped hsame
  obtain ⟨v', hload, hv'⟩ := loads_dropped v.distinct hdropped
  refine ⟨v', fun rest => ?_, hv'.trans hsame⟩
  have hne : ∀ p ∈ pieces k (dumps v.value), rstrip p ≠ [] := by
    intro p hp
    rw [pieces_dumps] at hp
    obtain ⟨piece, hpiece, rfl⟩ := List.mem_map.mp hp
    obtain ⟨x, hx, hspace⟩ := hblank piece hpiece
    rw [rstrip_chars (printable_piece hk hpiece)]
    simp only [chars, ne_eq, List.map_eq_nil_iff, stripped_eq_nil]
    exact fun h => hspace (h x hx)
  have hlen := length_le_piece_lines (pieces k (dumps v.value))
  have hlines := recv_lines_pieces rest (fits_piece hk hlimit) hne
    (n := (piece_lines (pieces k (dumps v.value)) ++ '\n' :: rest).length + 1)
    (by simp only [List.length_append]; omega)
  rw [recv_long v rest hheader, hlines]
  simp only [Except.bind, load, flatten_rstrip hk, hload]

theorem recv_long_blank {limit k : Nat} (hk : 0 < k) (hlimit : k ≤ limit)
    (hheader : (dumps chunk_stream).length ≤ limit) (v : Message) {piece : Marked}
    (hpiece : piece ∈ pieces k (marked v.value)) (hblank : ∀ x ∈ piece, x.1 = ' ') (rest : Text)
    (v' : Json) : recv_message ⟨limit, dumps chunk_stream ++ '\n' ::
      (piece_lines (pieces k (dumps v.value)) ++ '\n' :: rest)⟩ ≠ .ok (v', ⟨limit, rest⟩) := by
  intro hrecv
  have hempty : ∃ p ∈ pieces k (dumps v.value), rstrip p = [] := by
    refine ⟨chars piece, ?_, ?_⟩
    · rw [pieces_dumps]
      exact List.mem_map_of_mem hpiece
    · rw [rstrip_chars (printable_piece hk hpiece), stripped_eq_nil.mpr hblank, chars_nil]
  rw [recv_long v rest hheader] at hrecv
  generalize (piece_lines (pieces k (dumps v.value)) ++ '\n' :: rest).length + 1 = n at hrecv
  cases hlines : recv_lines n ⟨limit, piece_lines (pieces k (dumps v.value)) ++ '\n' :: rest⟩ with
  | error e => simp [hlines, Except.bind] at hrecv
  | ok result =>
    obtain ⟨lines, reader⟩ := result
    have hleft := recv_lines_blank rest (fits_piece hk hlimit) hempty hlines
    rw [hlines] at hrecv
    simp only [Except.bind] at hrecv
    cases hload : load lines.flatten with
    | error e => simp [hload] at hrecv
    | ok m =>
      simp only [hload, Except.ok.injEq, Prod.mk.injEq] at hrecv
      rw [hrecv.2] at hleft
      exact absurd hleft (by simp)

theorem recv_long_refused {limit k : Nat} (hk : 0 < k) (hlimit : limit < k) (v : Message)
    (hlen : k ≤ (dumps v.value).length) (rest : Text) (result : Json × StreamReader) :
    recv_message ⟨limit, dumps chunk_stream ++ '\n' ::
      (piece_lines (pieces k (dumps v.value)) ++ '\n' :: rest)⟩ ≠ .ok result := by
  intro hrecv
  by_cases hheader : (dumps chunk_stream).length ≤ limit
  · obtain ⟨ps, hps⟩ := pieces_cons hk hlen
    have hprint : ∀ c ∈ (dumps v.value).take k, printable c := fun c hc =>
      printable_dumps v.value c (List.mem_of_mem_take hc)
    have hlong : limit < byteLength ((dumps v.value).take k) := by
      rw [byteLength_printable hprint, List.length_take]
      omega
    have hline : piece_lines (pieces k (dumps v.value)) ++ '\n' :: rest =
        (dumps v.value).take k ++ '\n' :: (piece_lines ps ++ '\n' :: rest) := by
      simp [hps, piece_lines]
    rw [recv_long v rest hheader, hline] at hrecv
    simp [recv_lines, recv_long_line _ (no_line_feed hprint) hlong, bind, Except.bind] at hrecv
  · have hprint := printable_dumps chunk_stream
    have hlong : limit < byteLength (dumps chunk_stream) := by
      rw [byteLength_printable hprint]
      omega
    simp [recv_message, recv_long_line _ (no_line_feed hprint) hlong, bind, Except.bind] at hrecv

theorem received_long {limit max_chunk : Nat} (hmax : 32 ≤ max_chunk) (v : Message)
    (h : ¬(dumps v.value).length < max_chunk - 1) :
    Received limit max_chunk v.value ↔ max_chunk - 1 ≤ limit ∧
      ∀ piece ∈ pieces (max_chunk - 1) (marked v.value), Keeps piece := by
  simp only [Received, send_long h]
  generalize hk : max_chunk - 1 = k at h ⊢
  have hheader : (dumps chunk_stream).length = 22 := by decide
  by_cases hlimit : k ≤ limit
  · simp only [hlimit, true_and]
    by_cases hblank : ∀ piece ∈ pieces k (marked v.value), ∃ x ∈ piece, x.1 ≠ ' '
    · obtain ⟨v', hrecv, hv'⟩ := recv_long_pieces (by omega) hlimit (by omega) v hblank
      simp only [hrecv, Except.ok.injEq, Prod.mk.injEq, and_true, forall_const, hv', Keeps]
      exact ⟨fun hkeep piece hp => ⟨hblank piece hp, hkeep piece hp⟩,
        fun hkeep piece hp => (hkeep piece hp).2⟩
    · simp only [not_forall, not_exists, not_and, not_not] at hblank
      obtain ⟨piece, hpiece, hspaces⟩ := hblank
      refine iff_of_false (fun hrecv => ?_) fun hkeep => ?_
      · exact recv_long_blank (by omega) hlimit (by omega) v hpiece hspaces [] v.value (hrecv [])
      · obtain ⟨x, hx, hne⟩ := (hkeep piece hpiece).1
        exact hne (hspaces x hx)
  · refine iff_of_false (fun hrecv => ?_) fun hkeep => hlimit hkeep.1
    exact recv_long_refused (by omega) (by omega) v (by omega) [] _ (hrecv [])

/-- A message is received exactly when no piece of its text loses what belongs to a string. -/
theorem received_iff_survives (limit : Nat) {max_chunk : Nat} (hmax : 32 ≤ max_chunk)
    (v : Message) : Received limit max_chunk v.value ↔ Survives limit max_chunk v.value := by
  unfold Survives
  split
  · exact received_short v ‹_›
  · exact received_long hmax v ‹_›

/-- A dictionary whose text is cut behind a space of a string. -/
def cut_behind_a_space : Message where
  value := .dict (.cons (text "k") (.str (text "xxxxxxxxxxxxxxxxxxxxxxx y")) .nil)
  distinct := by simp [Json.distinct, Fields.distinct, Fields.keys]

/-- Received without the space, or taken for the beginning of a long message: both happen to
messages of 32 characters at most. -/
theorem messages_do_not_survive : ¬Received 65536 32 cut_behind_a_space.value ∧
    ¬Received 65536 32 chunk_stream := by
  constructor
  · intro h
    have := h []
    revert this
    decide +kernel
  · intro h
    have := h []
    revert this
    decide +kernel

theorem a_message_survives : 32 ≤ 33 ∧
    (Received 65536 33 cut_behind_a_space.value ↔ Survives 65536 33 cut_behind_a_space.value) :=
  ⟨by decide, received_iff_survives 65536 (by decide) cut_behind_a_space⟩

end yocto.message_chunks
