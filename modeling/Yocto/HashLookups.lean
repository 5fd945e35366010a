-- The lookups of a hash equivalence server (hashserv/server.py): each looks into the database
-- first and asks the upstream server afterwards, and some of them store what comes from there.
import Mathlib.Data.List.TakeWhile
import Yocto.DataSmart
import Yocto.HashServer

open yocto.task_ids yocto.unique_table yocto.data_smart yocto.hash_tables yocto.hash_server

namespace yocto.hash_lookups

variable {T : Type}

/-! ## Handlers -/

/-- What handlers read and write. -/
structure State (T : Type) where
  db : Database T
  backfill_queue : List (Text × Text)

inductive Raised
  | type_error
  | key_error
  | value_error
  deriving DecidableEq

/-- What was written before an exception stays. -/
abbrev Handling (T α : Type) := EStateM Raised (State T) α

/-- A dict that comes from the upstream server, if it is one: null is None. -/
inductive Reply (R : Type)
  | null
  | empty
  | row (r : R)

def Reply.items {R : Type} : Reply R → Handling T R
  | .null => throw .type_error
  | .empty => throw .key_error
  | .row r => pure r

/-- A reply to a request for a task hash. -/
structure Equivalent where
  taskhash : Text
  method : Text
  unihash : Text
  deriving DecidableEq

/-- A row of both tables. -/
structure Unified (T : Type) where
  outhash_data : Outhash T
  unihash : Text

/-- What the upstream server replies to a request. A unihash that it does not know is empty. -/
structure Client (T : Type) where
  get_taskhash : Text → Text → Reply Equivalent
  get_taskhash_all : Text → Text → Reply (Unified T)
  get_outhash : Text → Text → Text → Reply (Unified T)
  get_unihash : Text → Text → Text
  unihash_exists : Text → Bool

/-- A dict that is returned. -/
inductive Columns (T : Type)
  | equivalent (d : Equivalent)
  | unified (d : Unified T)
  | outhash (d : Outhash T)

def insert_unihash (method taskhash unihash : Text) : Handling T Bool :=
  modifyGet fun s =>
    let (db, inserted) := s.db.insert_unihash method taskhash unihash
    (inserted, { s with db })

def insert_outhash (row : Outhash T) : Handling T Bool :=
  modifyGet fun s =>
    let (db, inserted) := s.db.insert_outhash row
    (inserted, { s with db })

def update_unified (data : Reply (Unified T)) : Handling T Unit :=
  match data with
  | .null => pure ()
  | _ => do
    let data ← data.items
    let _ ← insert_unihash data.outhash_data.method data.outhash_data.taskhash data.unihash
    let _ ← insert_outhash data.outhash_data

/-- A reply as it is returned. An empty one is not returned, as it was read before. -/
def Reply.columns {R : Type} (f : R → Columns T) : Reply R → Option (Columns T)
  | .row r => some (f r)
  | _ => none

section
variable [LinearOrder T] (upstream_client : Option (Client T))

def get_unihash (method taskhash : Text) (fetch_all : Bool) : Handling T (Option (Columns T)) := do
  let db := (← get).db
  if fetch_all then
    match db.get_unihash_by_taskhash_full method taskhash, upstream_client with
    | some row, _ => return some (.unified ⟨row.1, row.2.unihash⟩)
    | none, none => return none
    | none, some client =>
      let d := client.get_taskhash_all method taskhash
      update_unified d
      return d.columns .unified
  else
    match db.get_equivalent method taskhash, upstream_client with
    | some row, _ => return some (.equivalent ⟨row.taskhash, row.method, row.unihash⟩)
    | none, none => return none
    | none, some client =>
      let d ← (client.get_taskhash method taskhash).items
      let _ ← insert_unihash d.method d.taskhash d.unihash
      return some (.equivalent d)

def get_outhash (method outhash taskhash : Text) (with_unihash : Bool) :
    Handling T (Option (Columns T)) := do
  let db := (← get).db
  let row :=
    if with_unihash then
      (db.get_unihash_by_outhash method outhash).map fun row => Columns.unified ⟨row.1, row.2.unihash⟩
    else (db.get_outhash method outhash).map .outhash
  match row, upstream_client with
  | some d, _ => return some d
  | none, none => return none
  | none, some client =>
    let d := client.get_outhash method outhash taskhash
    update_unified d
    return d.columns .unified

/-- `d["unihash"]`. -/
def Columns.unihash : Columns T → Handling T Text
  | .equivalent d => pure d.unihash
  | .unified d => pure d.unihash
  | .outhash _ => throw .key_error

/-- The unihash of a dict, or the one that was reported. -/
def unihash_of (data : Report T) : Option (Columns T) → Handling T Text
  | some d => d.unihash
  | none => pure data.unihash

def report_readonly (data : Report T) : Handling T Equivalent := do
  let info ← get_outhash upstream_client data.method data.outhash data.taskhash true
  let unihash ← unihash_of data info
  return ⟨data.taskhash, data.method, unihash⟩

/-- The unihash of a new row. -/
def new_unihash (data : Report T) : Handling T Text := do
  let db := (← get).db
  match db.get_equivalent_for_outhash data.method data.outhash data.taskhash, upstream_client with
  | some row, _ => return row.2.unihash
  | none, none => return data.unihash
  | none, some client =>
    match client.get_outhash data.method data.outhash data.taskhash with
    | .null => return data.unihash
    | upstream_data => return (← upstream_data.items).unihash

/-- A report is read only when the server is, or when the client may not report. -/
def handle_report (read_only : Bool) (data : Report T) : Handling T Equivalent := do
  if read_only then report_readonly upstream_client data
  else
    if ← insert_outhash data.outhash_data then
      let unihash ← new_unihash upstream_client data
      let _ ← insert_unihash data.method data.taskhash unihash
    let unihash_data ← get_unihash upstream_client data.method data.taskhash false
    let unihash ← unihash_of data unihash_data
    return ⟨data.taskhash, data.method, unihash⟩

/-! ## Streams -/

/-- The answers to the messages up to the end of a stream. -/
def stream_loop (handler : Text → Handling T Text) : List Text → Handling T (List Text)
  | [] => pure []
  | l :: messages =>
    if l = [] ∨ l = text "END" then pure []
    else do
      let msg ← handler l
      let msgs ← stream_loop handler messages
      return msg :: msgs

/-- All that is sent. -/
def stream_handler (handler : Text → Handling T Text) (messages : List Text) : Handling T (List Text) := do
  let msgs ← stream_loop handler messages
  return text "ok" :: msgs ++ [text "ok"]

def get_stream_handler (l : Text) : Handling T Text :=
  match words l with
  | [method, taskhash] => do
    let db := (← get).db
    match db.get_equivalent method taskhash, upstream_client with
    | some row, _ => return row.unihash
    | none, none => return []
    | none, some client =>
      let upstream := client.get_unihash method taskhash
      if upstream = [] then return []
      modify fun s => { s with backfill_queue := s.backfill_queue ++ [(method, taskhash)] }
      return upstream
  | _ => throw .value_error

def exists_stream_handler (l : Text) : Handling T Text := do
  let db := (← get).db
  if db.unihash_exists l then return text "true"
  match upstream_client with
  | some client => return if client.unihash_exists l then text "true" else text "false"
  | none => return text "false"

/-! ## Requests -/

/-- The messages of a client after get-stream: each names a method and a task hash. -/
structure Queries where
  messages : List Text
  two_words : ∀ l ∈ messages, l = [] ∨ l = text "END" ∨ ∃ method taskhash, words l = [method, taskhash]

inductive Lookup (T : Type)
  | get (method taskhash : Text) (all : Bool)
  | get_outhash (method outhash taskhash : Text) (with_unihash : Bool)
  | report (read_only : Bool) (data : Report T)
  | get_stream (queries : Queries)
  | exists_stream (messages : List Text)

inductive Response (T : Type)
  | dict (d : Option (Columns T))
  | sent (msgs : List Text)

def handle : Lookup T → Handling T (Response T)
  | .get method taskhash all => do return .dict (← get_unihash upstream_client method taskhash all)
  | .get_outhash method outhash taskhash with_unihash => do
    return .dict (← get_outhash upstream_client method outhash taskhash with_unihash)
  | .report read_only data => do
    return .dict (some (.equivalent (← handle_report upstream_client read_only data)))
  | .get_stream queries => do
    return .sent (← stream_handler (get_stream_handler upstream_client) queries.messages)
  | .exists_stream messages => do
    return .sent (← stream_handler (exists_stream_handler upstream_client) messages)

end

/-! ## What should come back -/

def Reply.Unknown {R : Type} (reply : Reply R) : Prop := ∀ r, reply ≠ .row r

section
variable [LinearOrder T] (upstream_client : Option (Client T)) (db : Database T)

/-- The messages of a stream that are answered. -/
def asked (messages : List Text) : List Text := messages.takeWhile fun l => l ≠ [] ∧ l ≠ text "END"

/-- The row that a request for an output hash finds in the database. -/
def NoRow (method outhash : Text) : Bool → Prop
  | true => db.get_unihash_by_outhash method outhash = none
  | false => db.get_outhash method outhash = none

/-- Neither the database nor the upstream server knows a line of a stream. -/
def NoUnihash (l : Text) : Prop :=
  ∀ method taskhash, words l = [method, taskhash] → db.get_equivalent method taskhash = none ∧
    ∀ client ∈ upstream_client, client.get_unihash method taskhash = []

/-- Nobody has a unihash for a report. -/
def NoUnihashFor (read_only : Bool) (data : Report T) : Prop :=
  if read_only then
    NoRow db data.method data.outhash true ∧
      ∀ client ∈ upstream_client, (client.get_outhash data.method data.outhash data.taskhash).Unknown
  else
    db.get_equivalent data.method data.taskhash = none ∧
      db.get_equivalent_for_outhash data.method data.outhash data.taskhash = none ∧
      ∀ client ∈ upstream_client,
        (client.get_outhash data.method data.outhash data.taskhash).Unknown ∧
          (client.get_taskhash data.method data.taskhash).Unknown

/-- A response is None or an empty message when neither the database nor the upstream server knows
the hash. -/
def Answers : Lookup T → Response T → Prop
  | .get method taskhash false, response => ∃ d, response = .dict d ∧
    (db.get_equivalent method taskhash = none →
      (∀ client ∈ upstream_client, (client.get_taskhash method taskhash).Unknown) → d.isNone)
  | .get method taskhash true, response => ∃ d, response = .dict d ∧
    (db.get_unihash_by_taskhash_full method taskhash = none →
      (∀ client ∈ upstream_client, (client.get_taskhash_all method taskhash).Unknown) → d.isNone)
  | .get_outhash method outhash taskhash with_unihash, response => ∃ d, response = .dict d ∧
    (NoRow db method outhash with_unihash →
      (∀ client ∈ upstream_client, (client.get_outhash method outhash taskhash).Unknown) → d.isNone)
  | .report read_only data, response => ∃ unihash,
    response = .dict (some (.equivalent ⟨data.taskhash, data.method, unihash⟩)) ∧
      (NoUnihashFor upstream_client db read_only data → unihash = data.unihash)
  | .get_stream queries, response => ∃ msgs, response = .sent (text "ok" :: msgs ++ [text "ok"]) ∧
    List.Forall₂ (fun l msg => NoUnihash upstream_client db l → msg = []) (asked queries.messages) msgs
  | .exists_stream messages, response => ∃ msgs, response = .sent (text "ok" :: msgs ++ [text "ok"]) ∧
    List.Forall₂ (fun l msg => msg = if db.unihash_exists l ∨ ∃ client ∈ upstream_client,
      client.unihash_exists l then text "true" else text "false") (asked messages) msgs

/-- A request completes. -/
def Completes (queue : List (Text × Text)) (q : Lookup T) : Prop :=
  ∃ response s, (handle upstream_client q).run ⟨db, queue⟩ = .ok response s ∧ Answers upstream_client db q response

/-- The upstream server is asked, and its reply is read as a row but is none. -/
def Stuck : Lookup T → Prop
  | .get method taskhash false => db.get_equivalent method taskhash = none ∧
    ∃ client ∈ upstream_client, (client.get_taskhash method taskhash).Unknown
  | .get method taskhash true => db.get_unihash_by_taskhash_full method taskhash = none ∧
    ∃ client ∈ upstream_client, client.get_taskhash_all method taskhash = .empty
  | .get_outhash method outhash taskhash with_unihash => NoRow db method outhash with_unihash ∧
    ∃ client ∈ upstream_client, client.get_outhash method outhash taskhash = .empty
  | .report true data => NoRow db data.method data.outhash true ∧
    ∃ client ∈ upstream_client, client.get_outhash data.method data.outhash data.taskhash = .empty
  | .report false data =>
    -- a new output hash asks for other tasks with it, a known one for its own task
    if db.outhashes.get? data.outhash_data.key = none then
      db.get_equivalent_for_outhash data.method data.outhash data.taskhash = none ∧
        ∃ client ∈ upstream_client, client.get_outhash data.method data.outhash data.taskhash = .empty
    else
      db.get_equivalent data.method data.taskhash = none ∧
        ∃ client ∈ upstream_client, (client.get_taskhash data.method data.taskhash).Unknown
  | .get_stream _ => False
  | .exists_stream _ => False

end

/-! ## Single steps -/

section
variable {α β : Type} {x : Handling T α} {f : α → Handling T β} {s : State T} {stuck : Prop}

structure Raises (x : Handling T α) (s : State T) (stuck : Prop) (post : α → State T → Prop) : Prop where
  raised : stuck → ∃ e s', x.run s = .error e s'
  returned : ¬stuck → ∃ a s', x.run s = .ok a s' ∧ post a s'

theorem Raises.bind {post : α → State T → Prop} {last : β → State T → Prop} (h : Raises x s stuck post)
    (hf : ∀ a s', post a s' → ∃ b s'', (f a).run s' = .ok b s'' ∧ last b s'') : Raises (x >>= f) s stuck last where
  raised hstuck := by
    obtain ⟨e, s', hx⟩ := h.raised hstuck
    exact ⟨e, s', by simp [hx]⟩
  returned hstuck := by
    obtain ⟨a, s', hx, hpost⟩ := h.returned hstuck
    obtain ⟨b, s'', hb, hlast⟩ := hf a s' hpost
    exact ⟨b, s'', by simp [hx, hb], hlast⟩

end

section
variable {R : Type} (r : R) (s : State T)

@[simp] theorem unknown_row : ¬(Reply.row r).Unknown := fun h => h r rfl

@[simp] theorem unknown_null : (Reply.null : Reply R).Unknown := fun _ h => nomatch h

@[simp] theorem unknown_empty : (Reply.empty : Reply R).Unknown := fun _ h => nomatch h

@[simp] theorem run_items_row : (Reply.row r).items.run s = .ok r s := rfl

@[simp] theorem run_items_null : (Reply.null : Reply R).items.run s = .error .type_error s := rfl

@[simp] theorem run_items_empty : (Reply.empty : Reply R).items.run s = .error .key_error s := rfl

@[simp] theorem run_insert_unihash (method taskhash unihash : Text) :
    (insert_unihash method taskhash unihash).run s =
      .ok (s.db.insert_unihash method taskhash unihash).2
        { s with db := (s.db.insert_unihash method taskhash unihash).1 } :=
  rfl

@[simp] theorem run_insert_outhash (row : Outhash T) :
    (insert_outhash row).run s =
      .ok (s.db.insert_outhash row).2 { s with db := (s.db.insert_outhash row).1 } :=
  rfl

end

def HasUnihash (d : Option (Columns T)) : Prop := ∀ o, d ≠ some (.outhash o)

theorem unified_reply_raises (d : Reply (Unified T)) (s : State T) :
    Raises (do update_unified d; return d.columns .unified) s (d = .empty)
      fun columns _ => HasUnihash columns ∧ (d.Unknown → columns.isNone) where
  raised h := by
    subst h
    exact ⟨.key_error, s, by simp [update_unified]⟩
  returned h := by
    cases d with
    | null => exact ⟨none, s, by simp [update_unified, Reply.columns], nofun, by simp⟩
    | empty => exact absurd rfl h
    | row r => exact ⟨some (.unified r), _, by simp [update_unified, Reply.columns]; rfl, nofun, by simp⟩

section
variable [LinearOrder T] (upstream_client : Option (Client T)) (db : Database T) (queue : List (Text × Text))

theorem get_unihash_raises (method taskhash : Text) :
    Raises (get_unihash upstream_client method taskhash false) ⟨db, queue⟩
      (Stuck upstream_client db (.get method taskhash false)) fun d _ =>
        (∀ row, db.get_equivalent method taskhash = some row →
          d = some (.equivalent ⟨row.taskhash, row.method, row.unihash⟩)) ∧ HasUnihash d ∧
        (db.get_equivalent method taskhash = none →
          (∀ client ∈ upstream_client, (client.get_taskhash method taskhash).Unknown) → d.isNone) := by
  unfold Stuck get_unihash
  cases hrow : db.get_equivalent method taskhash with
  | some row => constructor <;> simp [hrow, HasUnihash]
  | none =>
    cases upstream_client with
    | none => constructor <;> simp [hrow, HasUnihash]
    | some client =>
      cases hreply : client.get_taskhash method taskhash with
      | null => constructor <;> simp [hrow, hreply]
      | empty => constructor <;> simp [hrow, hreply]
      | row d => constructor <;> simp [hrow, hreply, HasUnihash, -bind_pure_comp]

theorem get_unihash_full_raises (method taskhash : Text) :
    Raises (get_unihash upstream_client method taskhash true) ⟨db, queue⟩
      (Stuck upstream_client db (.get method taskhash true)) fun d _ =>
        db.get_unihash_by_taskhash_full method taskhash = none →
          (∀ client ∈ upstream_client, (client.get_taskhash_all method taskhash).Unknown) → d.isNone := by
  unfold Stuck get_unihash
  cases hrow : db.get_unihash_by_taskhash_full method taskhash with
  | some row => constructor <;> simp [hrow]
  | none =>
    cases upstream_client with
    | none => constructor <;> simp [hrow]
    | some client =>
      have h := unified_reply_raises (client.get_taskhash_all method taskhash) ⟨db, queue⟩
      constructor
      · simpa [hrow] using h.raised
      · intro hstuck
        obtain ⟨d, s', hrun, -, hnone⟩ := h.returned fun hempty => hstuck ⟨hrow, client, rfl, hempty⟩
        exact ⟨d, s', by simpa [hrow] using hrun, by simpa using hnone⟩

theorem get_outhash_raises (method outhash taskhash : Text) (with_unihash : Bool) :
    Raises (get_outhash upstream_client method outhash taskhash with_unihash) ⟨db, queue⟩
      (Stuck upstream_client db (.get_outhash method outhash taskhash with_unihash)) fun d _ =>
        (with_unihash = true → HasUnihash d) ∧ (NoRow db method outhash with_unihash →
          (∀ client ∈ upstream_client, (client.get_outhash method outhash taskhash).Unknown) → d.isNone) := by
  have hreply : ∀ client : Client T, _ := fun client =>
    unified_reply_raises (client.get_outhash method outhash taskhash) ⟨db, queue⟩
  unfold Stuck get_outhash
  cases with_unihash with
  | true =>
    unfold NoRow
    cases hrow : db.get_unihash_by_outhash method outhash with
    | some row => constructor <;> simp [hrow, HasUnihash]
    | none =>
      cases upstream_client with
      | none => constructor <;> simp [hrow, HasUnihash]
      | some client =>
        constructor
        · simpa [hrow] using (hreply client).raised
        · simpa [hrow] using (hreply client).returned
  | false =>
    unfold NoRow
    cases hrow : db.get_outhash method outhash with
    | some row => constructor <;> simp [hrow]
    | none =>
      cases upstream_client with
      | none => constructor <;> simp [hrow]
      | some client =>
        constructor
        · simpa [hrow] using (hreply client).raised
        · intro hstuck
          obtain ⟨d, s', hrun, -, hnone⟩ := (hreply client).returned fun hempty => hstuck ⟨hrow, client, rfl, hempty⟩
          exact ⟨d, s', by simpa [hrow] using hrun, nofun, by simpa using hnone⟩

/-! ## Reports -/

theorem get_equivalent_for_outhash_insert (row : Outhash T) (method outhash : Text) :
    (db.insert_outhash row).1.get_equivalent_for_outhash method outhash row.taskhash =
      db.get_equivalent_for_outhash method outhash row.taskhash := by
  unfold Database.get_equivalent_for_outhash
  cases hget : db.outhashes.get? row.key with
  | some other =>
    have hsame : (db.insert_outhash row).1 = db := by
      unfold Database.insert_outhash
      rw [Table.insert_of_some hget]
    rw [hsame]
  | none =>
    have hrows : (db.insert_outhash row).1.outhashes.rows = db.outhashes.rows ++ [row] := by
      unfold Database.insert_outhash
      exact (Table.insert_of_none hget).1
    congr 1
    unfold Database.joined
    rw [hrows, List.filterMap_append, List.filter_append]
    simp only [get_equivalent_insert_outhash]
    cases db.get_equivalent row.method row.taskhash <;> simp

omit [LinearOrder T] in
theorem run_unihash_of {info : Option (Columns T)} (h : HasUnihash info) (data : Report T) (s : State T) :
    ∃ unihash, (unihash_of data info).run s = .ok unihash s ∧ (info.isNone → unihash = data.unihash) := by
  cases info with
  | none => exact ⟨data.unihash, rfl, fun _ => rfl⟩
  | some d =>
    cases d with
    | equivalent d => exact ⟨d.unihash, rfl, nofun⟩
    | unified d => exact ⟨d.unihash, rfl, nofun⟩
    | outhash o => exact absurd rfl (h o)

theorem report_readonly_raises (data : Report T) :
    Raises (handle_report upstream_client true data) ⟨db, queue⟩
      (Stuck upstream_client db (.report true data)) fun d _ =>
        d.taskhash = data.taskhash ∧ d.method = data.method ∧
          (NoUnihashFor upstream_client db true data → d.unihash = data.unihash) := by
  have h := get_outhash_raises upstream_client db queue data.method data.outhash data.taskhash true
  unfold handle_report report_readonly
  simp only [if_true]
  apply h.bind
  rintro info s' ⟨hunihash, hnone⟩
  obtain ⟨unihash, hrun, hown⟩ := run_unihash_of (hunihash rfl) data s'
  refine ⟨⟨data.taskhash, data.method, unihash⟩, s', by simp [hrun, -bind_pure_comp], rfl, rfl, ?_⟩
  intro hno
  exact hown (hnone hno.1 hno.2)

theorem new_unihash_raises (data : Report T) :
    Raises (new_unihash upstream_client data) ⟨db, queue⟩
      (db.get_equivalent_for_outhash data.method data.outhash data.taskhash = none ∧
        ∃ client ∈ upstream_client, client.get_outhash data.method data.outhash data.taskhash = .empty)
      fun unihash s' => s' = ⟨db, queue⟩ ∧
        (db.get_equivalent_for_outhash data.method data.outhash data.taskhash = none →
          (∀ client ∈ upstream_client, (client.get_outhash data.method data.outhash data.taskhash).Unknown) →
            unihash = data.unihash) := by
  unfold new_unihash
  cases hrow : db.get_equivalent_for_outhash data.method data.outhash data.taskhash with
  | some row => constructor <;> simp [hrow]
  | none =>
    cases upstream_client with
    | none => constructor <;> simp [hrow]
    | some client =>
      cases hreply : client.get_outhash data.method data.outhash data.taskhash with
      | null => constructor <;> simp [hrow, hreply]
      | empty => constructor <;> simp [hrow, hreply, -bind_pure_comp]
      | row d => constructor <;> simp [hrow, hreply, -bind_pure_comp]

theorem reported_unihash_raises (data : Report T) :
    Raises (do
        let unihash_data ← get_unihash upstream_client data.method data.taskhash false
        let unihash ← unihash_of data unihash_data
        return (⟨data.taskhash, data.method, unihash⟩ : Equivalent)) ⟨db, queue⟩
      (Stuck upstream_client db (.get data.method data.taskhash false)) fun d _ =>
        d.taskhash = data.taskhash ∧ d.method = data.method ∧
          (∀ row, db.get_equivalent data.method data.taskhash = some row → d.unihash = row.unihash) ∧
          (db.get_equivalent data.method data.taskhash = none → (∀ client ∈ upstream_client,
            (client.get_taskhash data.method data.taskhash).Unknown) → d.unihash = data.unihash) := by
  apply (get_unihash_raises upstream_client db queue data.method data.taskhash).bind
  rintro unihash_data s' ⟨hfound, hunihash, hnone⟩
  obtain ⟨unihash, hrun, hown⟩ := run_unihash_of hunihash data s'
  refine ⟨⟨data.taskhash, data.method, unihash⟩, s', by simp [hrun, -bind_pure_comp], rfl, rfl, ?_, ?_⟩
  · intro row hrow
    rw [hfound row hrow] at hrun
    simpa [unihash_of, Columns.unihash] using hrun.symm
  · intro hrow hunknown
    exact hown (hnone hrow hunknown)

theorem report_raises (data : Report T) :
    Raises (handle_report upstream_client false data) ⟨db, queue⟩
      (Stuck upstream_client db (.report false data)) fun d _ =>
        d.taskhash = data.taskhash ∧ d.method = data.method ∧
          (NoUnihashFor upstream_client db false data → d.unihash = data.unihash) := by
  unfold handle_report
  simp only [Bool.false_eq_true, if_false]
  cases hget : db.outhashes.get? data.outhash_data.key with
  | some other =>
    -- nothing is stored, and the task is looked up
    have hsame : db.insert_outhash data.outhash_data = (db, false) := by
      unfold Database.insert_outhash
      rw [Table.insert_of_some hget]
    have h := reported_unihash_raises upstream_client db queue data
    constructor
    · intro hstuck
      obtain ⟨e, s', hrun⟩ := h.raised (by simpa [Stuck, hget] using hstuck)
      exact ⟨e, s', by simpa [hsame] using hrun⟩
    · intro hstuck
      obtain ⟨d, s', hrun, htaskhash, hmethod, -, hown⟩ := h.returned (by simpa [Stuck, hget] using hstuck)
      refine ⟨d, s', by simpa [hsame] using hrun, htaskhash, hmethod, ?_⟩
      intro hno
      exact hown hno.1 fun client hclient => (hno.2.2 client hclient).2
  | none =>
    have hnew : (db.insert_outhash data.outhash_data).2 = true := insert_outhash_eq_true_iff.mpr hget
    have hother := get_equivalent_for_outhash_insert db data.outhash_data data.method data.outhash
    have h := new_unihash_raises upstream_client (db.insert_outhash data.outhash_data).1 queue data
    rw [show data.outhash_data.taskhash = data.taskhash from rfl] at hother
    rw [hother] at h
    constructor
    · intro hstuck
      obtain ⟨e, s', hrun⟩ := h.raised (by simpa [Stuck, hget] using hstuck)
      exact ⟨e, s', by simp [hnew, hrun]⟩
    · intro hstuck
      obtain ⟨unihash, s', hrun, rfl, hown⟩ := h.returned (by simpa [Stuck, hget] using hstuck)
      -- the task has a unihash now, so it is found
      obtain ⟨row, hrow, hrow_unihash⟩ : ∃ row,
          ((db.insert_outhash data.outhash_data).1.insert_unihash data.method data.taskhash unihash).1.get_equivalent
            data.method data.taskhash = some row ∧
          (db.get_equivalent data.method data.taskhash = none → row.unihash = unihash) := by
        rw [get_equivalent_insert_unihash, if_pos ⟨rfl, rfl⟩, get_equivalent_insert_outhash]
        refine ⟨_, rfl, ?_⟩
        intro hnone
        rw [hnone]
        rfl
      obtain ⟨d, s'', hlast, htaskhash, hmethod, hfound, -⟩ :=
        (reported_unihash_raises upstream_client _ queue data).returned fun hstuck => by
          rw [hstuck.1] at hrow
          cases hrow
      refine ⟨d, s'', by simpa [hnew, hrun] using hlast, htaskhash, hmethod, ?_⟩
      intro hno
      rw [hfound row hrow, hrow_unihash hno.1]
      exact hown hno.2.1 fun client hclient => (hno.2.2 client hclient).1

/-! ## Messages of a stream -/

omit [LinearOrder T] in
theorem stream_loop_runs (handler : Text → Handling T Text) (answer : Text → Text → Prop)
    (db : Database T) (messages : List Text)
    (hhandler : ∀ l ∈ asked messages, ∀ queue, ∃ msg queue',
      (handler l).run ⟨db, queue⟩ = .ok msg ⟨db, queue'⟩ ∧ answer l msg) (queue : List (Text × Text)) :
    ∃ msgs queue', (stream_loop handler messages).run ⟨db, queue⟩ = .ok msgs ⟨db, queue'⟩ ∧
      List.Forall₂ answer (asked messages) msgs := by
  induction messages generalizing queue with
  | nil => exact ⟨[], queue, rfl, .nil⟩
  | cons l messages ih =>
    unfold asked at *
    unfold stream_loop
    by_cases hend : l = [] ∨ l = text "END"
    · rw [if_pos hend, List.takeWhile_cons_of_neg (by simpa using by tauto)]
      exact ⟨[], queue, rfl, .nil⟩
    · rw [List.takeWhile_cons_of_pos (by simpa using by tauto)] at hhandler ⊢
      rw [List.forall_mem_cons] at hhandler
      obtain ⟨msg, queue', hmsg, hanswer⟩ := hhandler.1 queue
      obtain ⟨msgs, queue'', hmsgs, hall⟩ := ih hhandler.2 queue'
      refine ⟨msg :: msgs, queue'', ?_, .cons hanswer hall⟩
      rw [if_neg hend]
      simp [hmsg, hmsgs, -bind_pure_comp]

omit [LinearOrder T] in
theorem get_stream_handler_runs {l method taskhash : Text} (hwords : words l = [method, taskhash]) :
    ∃ msg queue', (get_stream_handler upstream_client l).run ⟨db, queue⟩ = .ok msg ⟨db, queue'⟩ ∧
      (NoUnihash upstream_client db l → msg = []) := by
  unfold get_stream_handler
  rw [hwords]
  cases hrow : db.get_equivalent method taskhash with
  | some row =>
    refine ⟨row.unihash, queue, by simp [hrow], ?_⟩
    intro hno
    rw [(hno method taskhash hwords).1] at hrow
    cases hrow
  | none =>
    cases upstream_client with
    | none => exact ⟨[], queue, by simp [hrow], fun _ => rfl⟩
    | some client =>
      by_cases hknown : client.get_unihash method taskhash = []
      · exact ⟨[], queue, by simp [hrow, hknown], fun _ => rfl⟩
      · refine ⟨client.get_unihash method taskhash, _, by simp [hrow, hknown, -bind_pure_comp]; rfl, ?_⟩
        intro hno
        exact absurd ((hno method taskhash hwords).2 client rfl) hknown

omit [LinearOrder T] in
theorem exists_stream_handler_runs (l : Text) :
    (exists_stream_handler upstream_client l).run ⟨db, queue⟩ =
      .ok (if db.unihash_exists l ∨ ∃ client ∈ upstream_client, client.unihash_exists l
        then text "true" else text "false") ⟨db, queue⟩ := by
  unfold exists_stream_handler
  by_cases hexists : db.unihash_exists l = true
  · simp [hexists]
  · cases upstream_client with
    | none => simp [hexists]
    | some client => by_cases hclient : client.unihash_exists l = true <;> simp [hexists, hclient]

/-! ## All requests -/

theorem completes_of_raises {α : Type} {x : Handling T α} {q : Lookup T} {respond : α → Response T}
    {stuck : Prop} {post : α → State T → Prop} (h : Raises x ⟨db, queue⟩ stuck post)
    (hhandle : handle upstream_client q = x >>= fun a => pure (respond a))
    (hanswers : ∀ a s, post a s → Answers upstream_client db q (respond a)) :
    Completes upstream_client db queue q ↔ ¬stuck := by
  unfold Completes
  rw [hhandle]
  constructor
  · rintro ⟨response, s, hrun, -⟩ hstuck
    obtain ⟨e, s', hraised⟩ := h.raised hstuck
    simp [hraised, -bind_pure_comp] at hrun
  · intro hstuck
    obtain ⟨a, s', hrun, hpost⟩ := h.returned hstuck
    exact ⟨respond a, s', by simp [hrun, -bind_pure_comp], hanswers a s' hpost⟩

omit [LinearOrder T] in
theorem stream_raises (handler : Text → Handling T Text) (answer : Text → Text → Prop) (messages : List Text)
    (hhandler : ∀ l ∈ asked messages, ∀ queue, ∃ msg queue',
      (handler l).run ⟨db, queue⟩ = .ok msg ⟨db, queue'⟩ ∧ answer l msg) :
    Raises (stream_handler handler messages) ⟨db, queue⟩ False fun sent _ =>
      ∃ msgs, sent = text "ok" :: msgs ++ [text "ok"] ∧ List.Forall₂ answer (asked messages) msgs where
  raised hstuck := hstuck.elim
  returned _ := by
    obtain ⟨msgs, queue', hrun, hall⟩ := stream_loop_runs handler answer db messages hhandler queue
    refine ⟨_, ⟨db, queue'⟩, ?_, msgs, rfl, hall⟩
    unfold stream_handler
    simp [hrun, -bind_pure_comp]

def empty_upstream : Client Nat where
  get_taskhash _ _ := .null
  get_taskhash_all _ _ := .null
  get_outhash _ _ _ := .null
  get_unihash _ _ := []
  unihash_exists _ := false

end

end yocto.hash_lookups
