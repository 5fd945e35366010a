-- The two backends of a hash equivalence server. hashserv/sqlite.py writes its statements
-- itself, keeps times as texts and leaves the ids of rows to SQLite. hashserv/sqlalchemy.py
-- keeps times as times, and the id is a column like the others to it.
import Yocto.HashTables
import Yocto.ListSearch

open yocto.task_ids yocto.ordered_dict yocto.unique_table yocto.date_times yocto.hash_tables
open yocto.list_search

namespace yocto.hash_backends

/-! ## Requests to a backend -/

abbrev Data := OrderedDict Text Value

/-- A row or a dict that a backend returns, without the id. -/
abbrev Row := OrderedDict Text Value

inductive Operation
  | insert_unihash (method taskhash unihash : Text)
  | insert_outhash (data : Data)
  | get_equivalent (method taskhash : Text)
  | get_equivalent_for_outhash (method outhash taskhash : Text)
  | get_unihash_by_outhash (method outhash : Text)
  | get_unihash_by_taskhash_full (method taskhash : Text)
  | get_outhash (method outhash : Text)
  | unihash_exists (unihash : Text)
  | remove (condition : Condition)
  | gc_mark (mark : Text) (condition : Condition)
  | gc_sweep
  | gc_status
  | clean_unused (oldest : DateTime)

inductive Reply
  | row (r : Option Row)
  | truth (b : Bool)
  | count (n : Nat)
  | status (keep_rows remove_rows : Nat) (current_mark : Option Text)
  deriving DecidableEq

inductive Raised
  | KeyError
  | ValueError
  | TypeError
  | StatementError
  | OperationalError
  deriving DecidableEq

/-- The replies to operations that come one after the other, and the last state. -/
def serve {σ : Type} (run : σ → Operation → σ × Except Raised Reply) :
    σ → List Operation → σ × List (Except Raised Reply)
  | s, [] => (s, [])
  | s, op :: ops =>
    let (s, reply) := run s op
    let (s, replies) := serve run s ops
    (s, reply :: replies)

/-! ## Rows -/

variable {T S : Type}

def text_of (data : Data) (column : Text) : Option Text := (data.get? column).bind Value.as_text

/-- The row that data make, with a time of its own. There is none without a method, a task hash or
an output hash, which are NOT NULL. -/
def outhash_row (created : WithBot T) (data : Data) : Option (Outhash T) := do
  let method ← text_of data (text "method")
  let taskhash ← text_of data (text "taskhash")
  let outhash ← text_of data (text "outhash")
  return ⟨method, taskhash, outhash, created, fun
    | .owner => text_of data (text "owner")
    | .PN => text_of data (text "PN")
    | .PV => text_of data (text "PV")
    | .PR => text_of data (text "PR")
    | .task => text_of data (text "task")
    | .outhash_siginfo => text_of data (text "outhash_siginfo")⟩

def value_of : Option Text → Value
  | some s => .text s
  | none => .null

def outhash_columns (created : Value) (o : Outhash T) : Row :=
  [(text "method", .text o.method), (text "taskhash", .text o.taskhash),
    (text "outhash", .text o.outhash), (text "created", created),
    (text "owner", value_of (o.fields .owner)), (text "PN", value_of (o.fields .PN)),
    (text "PV", value_of (o.fields .PV)), (text "PR", value_of (o.fields .PR)),
    (text "task", value_of (o.fields .task)),
    (text "outhash_siginfo", value_of (o.fields .outhash_siginfo))]

def equivalent_columns (r : Unihash) : Row :=
  [(text "taskhash", .text r.taskhash), (text "method", .text r.method),
    (text "unihash", .text r.unihash)]

/-- The columns that `get_equivalent_for_outhash` selects. -/
def matching_columns (x : Outhash T × Unihash) : Row :=
  [(text "taskhash", .text x.1.taskhash), (text "unihash", .text x.2.unihash)]

/-! ## sqlite -/

namespace sqlite

/-- The time of a row as it is kept, and returned. -/
def created_value : WithBot Text → Value
  | none => .null
  | some s => .text s

def joined_columns (x : Outhash Text × Unihash) : Row :=
  outhash_columns (created_value x.1.created) x.1 ++
    [(text "unihash", .text x.2.unihash), (text "gc_mark", .text x.2.gc_mark)]

/-- The columns of the data that the table has. Without any, the statement is no SQL. -/
def insert_outhash (db : Database Text) (data : Data) : Database Text × Except Raised Reply :=
  let data : Data := data.filter fun x => x.1 ∈ OUTHASH_TABLE_COLUMNS
  if data = [] then (db, .error .OperationalError)
  else match outhash_row (text_of data (text "created")) data with
    | some row =>
      let (db, inserted) := db.insert_outhash row
      (db, .ok (.truth inserted))
    | none => (db, .ok (.truth false))

def run (db : Database Text) : Operation → Database Text × Except Raised Reply
  | .insert_unihash method taskhash unihash =>
    let (db, inserted) := db.insert_unihash method taskhash unihash
    (db, .ok (.truth inserted))
  | .insert_outhash data => insert_outhash db data
  | .get_equivalent method taskhash =>
    (db, .ok (.row ((db.get_equivalent method taskhash).map equivalent_columns)))
  | .get_equivalent_for_outhash method outhash taskhash =>
    (db, .ok (.row ((db.get_equivalent_for_outhash method outhash taskhash).map matching_columns)))
  | .get_unihash_by_outhash method outhash =>
    (db, .ok (.row ((db.get_unihash_by_outhash method outhash).map joined_columns)))
  | .get_unihash_by_taskhash_full method taskhash =>
    (db, .ok (.row ((db.get_unihash_by_taskhash_full method taskhash).map joined_columns)))
  | .get_outhash method outhash =>
    (db, .ok (.row ((db.get_outhash method outhash).map fun o =>
      outhash_columns (created_value o.created) o)))
  | .unihash_exists unihash => (db, .ok (.truth (db.unihash_exists unihash)))
  | .remove condition =>
    let (db, count) := db.remove Value.as_text condition
    (db, .ok (.count count))
  | .gc_mark mark condition =>
    let (db, new_rows) := db.gc_mark_where mark (make_condition UNIHASH_TABLE_COLUMNS condition)
    (db, .ok (.count new_rows))
  | .gc_sweep =>
    let (db, count) := db.gc_sweep
    (db, .ok (.count count))
  | .gc_status =>
    let (keep_rows, remove_rows, current_mark) := db.gc_status
    (db, .ok (.status keep_rows remove_rows current_mark))
  | .clean_unused oldest =>
    let (db, count) := db.clean_unused (oldest.isoformat ' ')
    (db, .ok (.count count))

end sqlite

/-! ## sqlalchemy -/

namespace sqlalchemy

/-- What comes from the engine: the id of a new row, and what an INTEGER column compares with, and
holds, for a value. -/
structure Engine where
  next_id : List Int → Int
  next_id_not_mem : ∀ ids, next_id ids ∉ ids
  int_of : Value → Option Int

/-- The tables, and the id of each row, by the key of the row. -/
structure Tables where
  db : Database DateTime
  unihash_id : Text × Text → Int
  outhash_id : Text × Text × Text → Int

def Tables.empty : Tables := ⟨.empty, fun _ => 0, fun _ => 0⟩

def created_value : WithBot DateTime → Value
  | none => .null
  | some d => .time d

def joined_columns (x : Outhash DateTime × Unihash) : Row :=
  outhash_columns (created_value x.1.created) x.1 ++ [(text "unihash", .text x.2.unihash)]

/-- A DateTime column takes no other values. -/
def time_of : Value → Option DateTime
  | .time d => some d
  | _ => none

variable (e : Engine)

/-- A row meets the conditions on its id. -/
def id_meets (where_ : List (Text × Value)) (id : Int) : Bool :=
  where_.all fun x => x.1 ≠ text "id" || e.int_of x.2 = some id

def without_id (where_ : List (Text × Value)) : List (Text × Value) :=
  where_.filter fun x => x.1 ≠ text "id"

def unihash_where (s : Tables) (where_ : List (Text × Value)) (r : Unihash) : Bool :=
  id_meets e where_ (s.unihash_id r.key) && unihash_meets (without_id where_) r

def outhash_where (s : Tables) (where_ : List (Text × Value)) (o : Outhash DateTime) : Bool :=
  id_meets e where_ (s.outhash_id o.key) && outhash_meets time_of (without_id where_) o

def insert_unihash (s : Tables) (method taskhash unihash : Text) :
    Tables × Except Raised Reply :=
  let ids := s.db.unihashes.rows.map fun r => s.unihash_id r.key
  let (db, inserted) := s.db.insert_unihash method taskhash unihash
  let unihash_id := if inserted then
    Function.update s.unihash_id (method, taskhash) (e.next_id ids) else s.unihash_id
  ({ s with db, unihash_id }, .ok (.truth inserted))

/-- The time that data come with. -/
def created_of (data : Data) : Except Raised (WithBot DateTime) :=
  match data.get? (text "created") with
  | none => .ok ⊥
  | some (.time d) => .ok d
  | some (.text s) =>
    match fromisoformat s with
    | some d => .ok d
    | none => .error .ValueError
  | some _ => .error .TypeError

/-- The id that data come with, or that the engine gives. -/
def row_id (ids : List Int) (data : Data) : Option Int :=
  match data.get? (text "id") with
  | none => some (e.next_id ids)
  | some .null => some (e.next_id ids)
  | some v => e.int_of v

/-- The row that is inserted, or none when it is against a constraint. -/
def new_row (s : Tables) (created : WithBot DateTime) (data : Data) :
    Option (Int × Outhash DateTime) := do
  let ids := s.db.outhashes.rows.map fun o => s.outhash_id o.key
  let row ← outhash_row created data
  let id ← row_id e ids data
  if id ∉ ids ∧ (s.db.outhashes.get? row.key).isNone then some (id, row) else none

def insert_outhash (s : Tables) (data : Data) : Tables × Except Raised Reply :=
  let data : Data := data.filter fun x => x.1 ∈ text "id" :: OUTHASH_TABLE_COLUMNS
  match created_of data with
  | .error raised => (s, .error raised)
  | .ok created =>
    match new_row e s created data with
    | some (id, row) =>
      ({ s with
        db := (s.db.insert_outhash row).1
        outhash_id := Function.update s.outhash_id row.key id }, .ok (.truth true))
    | none =>
      -- the message of the debug log takes the method and the output hash
      (s, if (data.get? (text "method")).isSome ∧ (data.get? (text "outhash")).isSome then
        .ok (.truth false) else .error .KeyError)

/-- The rows of `unihashes_v3` are deleted first, in a transaction of their own. -/
def remove (s : Tables) (condition : Condition) : Tables × Except Raised Reply :=
  let where_ := make_condition (text "id" :: UNIHASH_TABLE_COLUMNS) condition
  let unihash_deleted := fun r => where_ ≠ [] && unihash_where e s where_ r
  let unihashes := s.db.unihashes.delete unihash_deleted
  let db := { s.db with unihashes }
  let where_ := make_condition (text "id" :: OUTHASH_TABLE_COLUMNS) condition
  if where_.all fun x => x.1 ≠ text "created" || (time_of x.2).isSome then
    let outhash_deleted := fun o => where_ ≠ [] && outhash_where e s where_ o
    let outhashes := s.db.outhashes.delete outhash_deleted
    ({ s with db := { db with outhashes } }, .ok (.count
      (s.db.unihashes.count unihash_deleted + s.db.outhashes.count outhash_deleted)))
  else ({ s with db }, .error .StatementError)

def gc_mark (s : Tables) (mark : Text) (condition : Condition) : Tables × Except Raised Reply :=
  let db := { s.db with gc_mark := some mark }
  let where_ := make_condition (text "id" :: UNIHASH_TABLE_COLUMNS) condition
  if where_ = [] then ({ s with db }, .ok (.count 0))
  else
    let marked := db.unihashes.update (unihash_where e s where_)
      (fun r => { r with gc_mark := mark }) (Unihash.key_gc_mark mark)
    ({ s with db := { db with unihashes := marked } },
      .ok (.count (db.unihashes.count (unihash_where e s where_))))

def run (s : Tables) : Operation → Tables × Except Raised Reply
  | .insert_unihash method taskhash unihash => insert_unihash e s method taskhash unihash
  | .insert_outhash data => insert_outhash e s data
  | .get_equivalent method taskhash =>
    (s, .ok (.row ((s.db.get_equivalent method taskhash).map equivalent_columns)))
  | .get_equivalent_for_outhash method outhash taskhash =>
    (s, .ok (.row
      ((s.db.get_equivalent_for_outhash method outhash taskhash).map matching_columns)))
  | .get_unihash_by_outhash method outhash =>
    (s, .ok (.row ((s.db.get_unihash_by_outhash method outhash).map joined_columns)))
  | .get_unihash_by_taskhash_full method taskhash =>
    (s, .ok (.row ((s.db.get_unihash_by_taskhash_full method taskhash).map joined_columns)))
  | .get_outhash method outhash =>
    (s, .ok (.row ((s.db.get_outhash method outhash).map fun o =>
      outhash_columns (created_value o.created) o)))
  | .unihash_exists unihash => (s, .ok (.truth (s.db.unihash_exists unihash)))
  | .remove condition => remove e s condition
  | .gc_mark mark condition => gc_mark e s mark condition
  | .gc_sweep =>
    let (db, count) := s.db.gc_sweep
    ({ s with db }, .ok (.count count))
  | .gc_status =>
    let (keep_rows, remove_rows, current_mark) := s.db.gc_status
    (s, .ok (.status keep_rows remove_rows current_mark))
  | .clean_unused oldest =>
    let (db, count) := s.db.clean_unused oldest
    ({ s with db }, .ok (.count count))

end sqlalchemy

/-! ## The same replies and rows -/

/-- A time in a row, where sqlite returns its text. -/
def as_time : Text × Value → Text × Value
  | (column, .text s) =>
    match fromisoformat s with
    | some d => if column = text "created" then (column, .time d) else (column, .text s)
    | none => (column, .text s)
  | x => x

/-- A row of sqlite without the column `gc_mark`, and with a time for its text. -/
def plain_row (r : Row) : Row := (r.filter fun x => x.1 ≠ text "gc_mark").map as_time

def Reply.plain : Reply → Reply
  | .row r => .row (r.map plain_row)
  | reply => reply

/-- No condition on the id. -/
def IdFree (d : OrderedDict Text Value) : Prop :=
  d.get? (text "id") = none ∨ d.get? (text "id") = some .null

/-- The operations for which the two were written: data have a method and an output hash, a time is
given as a time or as its text, and nothing asks for an id. -/
def Operation.plain : Operation → Prop
  | .insert_outhash data => IdFree data ∧ (data.get? (text "method")).isSome ∧
    (data.get? (text "outhash")).isSome ∧ (data.get? (text "created") = none ∨
      ∃ d : DateTime, data.get? (text "created") = some (.time d) ∨
        data.get? (text "created") = some (.text (d.isoformat ' ')))
  | .remove condition => IdFree condition ∧ ∀ v ∈ condition.get? (text "created"),
    v = .null ∨ ∃ d, v = .time d
  | .gc_mark _ condition => IdFree condition
  | _ => True

/-- The rows of sqlalchemy as sqlite keeps them. -/
def sent (db : Database DateTime) : Database Text := db.map (DateTime.isoformat ' ')

theorem isoformat_strictMono : StrictMono (DateTime.isoformat ' ') :=
  fun d d' => (isoformat_lt_iff ' ' d d').mpr

/-! ### Rows that are returned -/

theorem as_time_of_ne {column : Text} {v : Value} (h : column ≠ text "created") :
    as_time (column, v) = (column, v) := by
  cases v with
  | text s =>
    unfold as_time
    dsimp only
    cases fromisoformat s <;> simp [h]
  | _ => rfl

theorem as_time_created (c : WithBot DateTime) :
    as_time (text "created", sqlite.created_value (WithBot.map (DateTime.isoformat ' ') c)) =
      (text "created", sqlalchemy.created_value c) := by
  cases c with
  | bot => rfl
  | coe d =>
    change as_time (text "created", .text (d.isoformat ' ')) = (text "created", .time d)
    simp [as_time, fromisoformat_isoformat]

theorem plain_row_append (r r' : Row) : plain_row (r ++ r') = plain_row r ++ plain_row r' := by
  simp [plain_row]

theorem plain_row_of_ne {r : Row} (columns : List Text) (hcolumns : r.map Prod.fst = columns)
    (h : ∀ c ∈ columns, c ≠ text "gc_mark" ∧ c ≠ text "created") : plain_row r = r := by
  have hne : ∀ x ∈ r, x.1 ≠ text "gc_mark" ∧ x.1 ≠ text "created" := by
    intro x hx
    apply h
    rw [← hcolumns]
    exact List.mem_map_of_mem hx
  unfold plain_row
  rw [List.filter_eq_self.mpr fun x hx => by simpa using (hne x hx).1]
  have hid : ∀ x ∈ r, as_time x = id x := fun x hx => as_time_of_ne (hne x hx).2
  rw [List.map_congr_left hid, List.map_id]

theorem plain_outhash_columns (o : Outhash DateTime) :
    plain_row (outhash_columns (sqlite.created_value (o.map (DateTime.isoformat ' ')).created)
      (o.map (DateTime.isoformat ' '))) =
    outhash_columns (sqlalchemy.created_value o.created) o := by
  have hparts : ∀ {T : Type} (v : Value) (o : Outhash T), outhash_columns v o =
      (outhash_columns v o).take 3 ++ ([(text "created", v)] ++ (outhash_columns v o).drop 4) :=
    fun _ _ => rfl
  have hcreated : plain_row [(text "created",
      sqlite.created_value (o.map (DateTime.isoformat ' ')).created)] =
      [(text "created", sqlalchemy.created_value o.created)] := by
    change [as_time _] = _
    exact congrArg (fun x => [x]) (as_time_created o.created)
  rw [hparts, plain_row_append, plain_row_append, hcreated,
    plain_row_of_ne [text "method", text "taskhash", text "outhash"] rfl (by decide),
    plain_row_of_ne [text "owner", text "PN", text "PV", text "PR", text "task",
      text "outhash_siginfo"] rfl (by decide)]
  rfl

theorem plain_joined_columns (x : Outhash DateTime × Unihash) :
    plain_row (sqlite.joined_columns (x.1.map (DateTime.isoformat ' '), x.2)) =
      sqlalchemy.joined_columns x := by
  unfold sqlite.joined_columns sqlalchemy.joined_columns
  rw [plain_row_append, plain_outhash_columns]
  congr 1
  change [as_time (text "unihash", .text x.2.unihash)] = _
  rw [as_time_of_ne (by decide)]

/-! ### Conditions -/

theorem mem_make_condition {columns : List Text} {condition : Condition} {x : Text × Value}
    (h : x ∈ make_condition columns condition) :
    x.1 ∈ columns ∧ condition.get? x.1 = some x.2 ∧ x.2 ≠ .null := by
  obtain ⟨c, hc, hx⟩ := List.mem_filterMap.mp h
  split at hx
  · cases hx
  · cases hx
  · rename_i v hnull hget
    obtain rfl := Option.some.inj hx
    exact ⟨hc, hget, hnull⟩

theorem make_condition_id {condition : Condition} (h : IdFree condition) (columns : List Text) :
    make_condition (text "id" :: columns) condition = make_condition columns condition := by
  unfold make_condition
  rw [List.filterMap_cons]
  rcases h with h | h <;> rw [h]

theorem id_meets_of_ne {e : sqlalchemy.Engine} {where_ : List (Text × Value)}
    (h : ∀ x ∈ where_, x.1 ≠ text "id") (id : Int) : sqlalchemy.id_meets e where_ id = true := by
  unfold sqlalchemy.id_meets
  rw [List.all_eq_true]
  intro x hx
  simp [h x hx]

theorem without_id_of_ne {where_ : List (Text × Value)} (h : ∀ x ∈ where_, x.1 ≠ text "id") :
    sqlalchemy.without_id where_ = where_ := by
  unfold sqlalchemy.without_id
  rw [List.filter_eq_self]
  intro x hx
  simpa using h x hx

section
variable {e : sqlalchemy.Engine} {s : sqlalchemy.Tables} {condition : Condition}

theorem unihash_columns_ne_id {x : Text × Value}
    (h : x ∈ make_condition UNIHASH_TABLE_COLUMNS condition) : x.1 ≠ text "id" := by
  have hne : ∀ c ∈ UNIHASH_TABLE_COLUMNS, c ≠ text "id" := by decide
  exact hne _ (mem_make_condition h).1

theorem outhash_columns_ne_id {x : Text × Value}
    (h : x ∈ make_condition OUTHASH_TABLE_COLUMNS condition) : x.1 ≠ text "id" := by
  have hne : ∀ c ∈ OUTHASH_TABLE_COLUMNS, c ≠ text "id" := by decide
  exact hne _ (mem_make_condition h).1

theorem unihash_where_eq :
    sqlalchemy.unihash_where e s (make_condition UNIHASH_TABLE_COLUMNS condition) =
      unihash_meets (make_condition UNIHASH_TABLE_COLUMNS condition) := by
  funext r
  unfold sqlalchemy.unihash_where
  rw [id_meets_of_ne fun x hx => unihash_columns_ne_id hx,
    without_id_of_ne fun x hx => unihash_columns_ne_id hx, Bool.true_and]

theorem outhash_where_eq (htime : ∀ v ∈ condition.get? (text "created"), v = .null ∨ ∃ d, v = .time d)
    (o : Outhash DateTime) :
    sqlalchemy.outhash_where e s (make_condition OUTHASH_TABLE_COLUMNS condition) o =
      outhash_meets Value.as_text (make_condition OUTHASH_TABLE_COLUMNS condition)
        (o.map (DateTime.isoformat ' ')) := by
  unfold sqlalchemy.outhash_where
  rw [id_meets_of_ne fun x hx => outhash_columns_ne_id hx,
    without_id_of_ne fun x hx => outhash_columns_ne_id hx, Bool.true_and]
  unfold outhash_meets
  rw [Bool.eq_iff_iff, List.all_eq_true, List.all_eq_true]
  apply forall₂_congr
  intro x hx
  obtain ⟨-, hget, hnull⟩ := mem_make_condition hx
  split
  · rename_i hcreated
    rw [hcreated] at hget
    obtain ⟨d, hd⟩ := (htime x.2 hget).resolve_left hnull
    simp only [hd, sqlalchemy.time_of, Value.as_text, decide_eq_true_eq]
    exact (map_inj isoformat_strictMono (b := (d : WithBot DateTime))).symm
  · exact Iff.rfl

theorem remove_agrees (hid : IdFree condition)
    (htime : ∀ v ∈ condition.get? (text "created"), v = .null ∨ ∃ d, v = .time d) :
    sqlite.run (sent s.db) (.remove condition) =
      (sent (sqlalchemy.remove e s condition).1.db, (sqlalchemy.remove e s condition).2) := by
  have hbindable : ((make_condition OUTHASH_TABLE_COLUMNS condition).all fun x =>
      x.1 ≠ text "created" || (sqlalchemy.time_of x.2).isSome) = true := by
    rw [List.all_eq_true]
    intro x hx
    obtain ⟨-, hget, hnull⟩ := mem_make_condition hx
    by_cases hcreated : x.1 = text "created"
    · rw [hcreated] at hget
      obtain ⟨d, hd⟩ := (htime x.2 hget).resolve_left hnull
      simp [hd, sqlalchemy.time_of]
    · simp [hcreated]
  have hwhere : (fun o : Outhash DateTime =>
      make_condition OUTHASH_TABLE_COLUMNS condition ≠ [] &&
        sqlalchemy.outhash_where e s (make_condition OUTHASH_TABLE_COLUMNS condition) o) =
      fun o => make_condition OUTHASH_TABLE_COLUMNS condition ≠ [] &&
        outhash_meets Value.as_text (make_condition OUTHASH_TABLE_COLUMNS condition)
          (o.map (DateTime.isoformat ' ')) := by
    funext o
    rw [outhash_where_eq htime]
  unfold sqlalchemy.remove sqlite.run Database.remove
  simp only [make_condition_id hid, unihash_where_eq, hbindable, if_true, hwhere]
  simp only [sent, Database.map, Table.delete_map (Outhash.map (DateTime.isoformat ' ')) (key_map _),
    Table.count_map (Outhash.map (DateTime.isoformat ' ')) (key_map _), Nat.add_comm]

theorem gc_mark_agrees (mark : Text) (hid : IdFree condition) :
    sqlite.run (sent s.db) (.gc_mark mark condition) =
      (sent (sqlalchemy.gc_mark e s mark condition).1.db,
        (sqlalchemy.gc_mark e s mark condition).2) := by
  unfold sqlalchemy.gc_mark sqlite.run Database.gc_mark_where
  simp only [make_condition_id hid, unihash_where_eq]
  split
  · rfl
  · rfl

end

/-! ### Data -/

section
variable {data : Data} {columns : List Text}

theorem get?_columns {c : Text} (hc : c ∈ columns) :
    OrderedDict.get? (data.filter fun x => x.1 ∈ columns) c = data.get? c := by
  rw [OrderedDict.get?_filter data (fun c => decide (c ∈ columns)), if_pos (by simpa using hc)]

theorem text_of_filter {c : Text} (hc : c ∈ columns) :
    text_of (data.filter fun x => x.1 ∈ columns) c = text_of data c := by
  unfold text_of
  rw [get?_columns hc]

theorem outhash_row_filter (hcolumns : ∀ c ∈ OUTHASH_TABLE_COLUMNS, c ∈ columns)
    (created : WithBot T) :
    outhash_row created (data.filter fun x => x.1 ∈ columns) = outhash_row created data := by
  have hsame : ∀ c ∈ OUTHASH_TABLE_COLUMNS,
      text_of (data.filter fun x => x.1 ∈ columns) c = text_of data c :=
    fun c hc => text_of_filter (hcolumns c hc)
  unfold outhash_row
  rw [hsame (text "method") (by decide), hsame (text "taskhash") (by decide),
    hsame (text "outhash") (by decide), hsame (text "owner") (by decide),
    hsame (text "PN") (by decide), hsame (text "PV") (by decide), hsame (text "PR") (by decide),
    hsame (text "task") (by decide), hsame (text "outhash_siginfo") (by decide)]

theorem outhash_row_map (f : T → S) (created : WithBot T) :
    outhash_row (WithBot.map f created) data = (outhash_row created data).map (Outhash.map f) := by
  unfold outhash_row
  cases text_of data (text "method") with
  | none => rfl
  | some method =>
    cases text_of data (text "taskhash") with
    | none => rfl
    | some taskhash => cases text_of data (text "outhash") <;> rfl

theorem created_agrees (hcreated : data.get? (text "created") = none ∨
      ∃ d : DateTime, data.get? (text "created") = some (.time d) ∨
        data.get? (text "created") = some (.text (d.isoformat ' '))) :
    ∃ created, sqlalchemy.created_of data = .ok created ∧
      text_of data (text "created") = WithBot.map (DateTime.isoformat ' ') created := by
  unfold sqlalchemy.created_of text_of
  rcases hcreated with h | ⟨d, h | h⟩
  · rw [h]
    exact ⟨⊥, rfl, rfl⟩
  · rw [h]
    exact ⟨d, rfl, rfl⟩
  · rw [h]
    simp only [fromisoformat_isoformat]
    exact ⟨d, rfl, rfl⟩

variable {e : sqlalchemy.Engine} {s : sqlalchemy.Tables}

theorem new_row_of_id_free (hid : IdFree data) (created : WithBot DateTime) :
    sqlalchemy.new_row e s created data = (outhash_row created data).bind fun row =>
      if (s.db.outhashes.get? row.key).isNone then
        some (e.next_id (s.db.outhashes.rows.map fun o => s.outhash_id o.key), row)
      else none := by
  have hrow : ∀ ids, sqlalchemy.row_id e ids data = some (e.next_id ids) := by
    intro ids
    unfold sqlalchemy.row_id
    rcases hid with h | h <;> rw [h]
  unfold sqlalchemy.new_row
  simp only [hrow, e.next_id_not_mem, not_false_eq_true, true_and, Option.bind_eq_bind,
    Option.bind_some]

theorem insert_outhash_agrees (hplain : Operation.plain (.insert_outhash data)) :
    sqlite.insert_outhash (sent s.db) data =
      (sent (sqlalchemy.insert_outhash e s data).1.db, (sqlalchemy.insert_outhash e s data).2) := by
  obtain ⟨hid, hmethod, houthash, hcreated⟩ := hplain
  obtain ⟨created, hof, htext⟩ := created_agrees hcreated
  have hin : ∀ c ∈ OUTHASH_TABLE_COLUMNS, c ∈ text "id" :: OUTHASH_TABLE_COLUMNS :=
    fun c hc => List.mem_cons_of_mem _ hc
  have hnonempty : (data.filter fun x => x.1 ∈ OUTHASH_TABLE_COLUMNS) ≠ [] := by
    intro hnil
    have hget : OrderedDict.get? (data.filter fun x => x.1 ∈ OUTHASH_TABLE_COLUMNS)
        (text "method") = data.get? (text "method") := get?_columns (by decide)
    rw [hnil] at hget
    rw [← hget] at hmethod
    cases hmethod
  have hof' : sqlalchemy.created_of
      (data.filter fun x => x.1 ∈ text "id" :: OUTHASH_TABLE_COLUMNS) = .ok created := by
    rw [← hof]
    unfold sqlalchemy.created_of
    rw [get?_columns (hin _ (by decide))]
  have hid' : IdFree (data.filter fun x => x.1 ∈ text "id" :: OUTHASH_TABLE_COLUMNS) := by
    unfold IdFree
    rw [get?_columns List.mem_cons_self]
    exact hid
  unfold sqlite.insert_outhash sqlalchemy.insert_outhash
  simp only [if_neg hnonempty, hof', new_row_of_id_free hid', outhash_row_filter hin,
    outhash_row_filter fun c hc => hc, text_of_filter (by decide : text "created" ∈ OUTHASH_TABLE_COLUMNS),
    htext, outhash_row_map, get?_columns (hin _ (by decide : text "method" ∈ OUTHASH_TABLE_COLUMNS)),
    get?_columns (hin _ (by decide : text "outhash" ∈ OUTHASH_TABLE_COLUMNS)), hmethod, houthash,
    and_self, if_true]
  cases outhash_row created data with
  | none => rfl
  | some row =>
    have hinsert := insert_outhash_map (f := DateTime.isoformat ' ') s.db row
    simp only [Option.map_some, Option.bind_some, sent, hinsert]
    cases hget : s.db.outhashes.get? row.key with
    | none =>
      rw [insert_outhash_eq_true_iff.mpr hget]
      rfl
    | some old =>
      have hsame : s.db.insert_outhash row = (s.db, false) := by
        unfold Database.insert_outhash
        rw [Table.insert_of_some hget]
      rw [hsame]
      rfl

end

/-! ## Whole runs -/

section
variable {e : sqlalchemy.Engine} {s : sqlalchemy.Tables}

theorem read_agrees {α β : Type} (f : α → β) {x : Option α} {columns : β → Row} {columns' : α → Row}
    (h : ∀ a, plain_row (columns (f a)) = columns' a) :
    Except.map Reply.plain (.ok (.row ((x.map f).map columns)) : Except Raised Reply) =
      .ok (.row (x.map columns')) := by
  cases x with
  | none => rfl
  | some a => simp [Except.map, Reply.plain, h]

theorem plain_insert_outhash (data : Data) :
    (sqlalchemy.insert_outhash e s data).2.map Reply.plain =
      (sqlalchemy.insert_outhash e s data).2 := by
  unfold sqlalchemy.insert_outhash
  dsimp only
  split
  · rfl
  · split
    · rfl
    · dsimp only
      split <;> rfl

theorem plain_remove (condition : Condition) :
    (sqlalchemy.remove e s condition).2.map Reply.plain = (sqlalchemy.remove e s condition).2 := by
  unfold sqlalchemy.remove
  dsimp only
  split <;> rfl

theorem plain_gc_mark (mark : Text) (condition : Condition) :
    (sqlalchemy.gc_mark e s mark condition).2.map Reply.plain =
      (sqlalchemy.gc_mark e s mark condition).2 := by
  unfold sqlalchemy.gc_mark
  dsimp only
  split <;> rfl

end

theorem run_agrees (e : sqlalchemy.Engine) (s : sqlalchemy.Tables) {op : Operation}
    (hplain : op.plain) :
    (sqlite.run (sent s.db) op).1 = sent (sqlalchemy.run e s op).1.db ∧
      (sqlite.run (sent s.db) op).2.map Reply.plain = (sqlalchemy.run e s op).2 := by
  cases op with
  | insert_unihash method taskhash unihash => exact ⟨rfl, rfl⟩
  | insert_outhash data =>
    have hagrees := insert_outhash_agrees (e := e) (s := s) hplain
    constructor
    · exact congrArg Prod.fst hagrees
    · exact (congrArg (fun x => x.2.map Reply.plain) hagrees).trans (plain_insert_outhash data)
  | get_equivalent method taskhash =>
    refine ⟨rfl, ?_⟩
    have hplain : ∀ r, plain_row (equivalent_columns r) = equivalent_columns r :=
      fun r => plain_row_of_ne [text "taskhash", text "method", text "unihash"] rfl (by decide)
    have hread := read_agrees id (x := s.db.get_equivalent method taskhash) hplain
    rw [Option.map_id] at hread
    exact hread
  | get_equivalent_for_outhash method outhash taskhash =>
    refine ⟨rfl, ?_⟩
    unfold sqlite.run sqlalchemy.run Database.get_equivalent_for_outhash
    dsimp only
    rw [sent, first_joined_map isoformat_strictMono]
    apply read_agrees
    exact fun x => plain_row_of_ne [text "taskhash", text "unihash"] rfl (by decide)
  | get_unihash_by_outhash method outhash =>
    refine ⟨rfl, ?_⟩
    unfold sqlite.run sqlalchemy.run Database.get_unihash_by_outhash
    dsimp only
    rw [sent, first_joined_map isoformat_strictMono]
    exact read_agrees _ plain_joined_columns
  | get_unihash_by_taskhash_full method taskhash =>
    refine ⟨rfl, ?_⟩
    unfold sqlite.run sqlalchemy.run Database.get_unihash_by_taskhash_full
    dsimp only
    rw [sent, first_joined_map isoformat_strictMono]
    exact read_agrees _ plain_joined_columns
  | get_outhash method outhash =>
    refine ⟨rfl, ?_⟩
    unfold sqlite.run sqlalchemy.run
    dsimp only
    rw [sent, get_outhash_map isoformat_strictMono]
    exact read_agrees _ plain_outhash_columns
  | unihash_exists unihash => exact ⟨rfl, rfl⟩
  | remove condition =>
    have hagrees := remove_agrees (e := e) (s := s) hplain.1 hplain.2
    constructor
    · exact congrArg Prod.fst hagrees
    · exact (congrArg (fun x => x.2.map Reply.plain) hagrees).trans (plain_remove condition)
  | gc_mark mark condition =>
    have hagrees := gc_mark_agrees (e := e) (s := s) mark hplain
    constructor
    · exact congrArg Prod.fst hagrees
    · exact (congrArg (fun x => x.2.map Reply.plain) hagrees).trans (plain_gc_mark mark condition)
  | gc_sweep =>
    unfold sqlite.run sqlalchemy.run Database.gc_sweep
    cases hmark : s.db.gc_mark <;> simp [hmark, sent, Database.map, Except.map, Reply.plain]
  | gc_status => exact ⟨rfl, rfl⟩
  | clean_unused oldest =>
    unfold sqlite.run sqlalchemy.run
    dsimp only
    rw [sent, clean_unused_map isoformat_strictMono]
    exact ⟨rfl, rfl⟩

/-- SQLite: a new row gets the next id behind the largest one. -/
def engine : sqlalchemy.Engine where
  next_id ids := ids.foldr max 0 + 1
  next_id_not_mem ids := by
    have hle : ∀ id ∈ ids, id ≤ ids.foldr max 0 := by
      intro id hid
      induction ids with
      | nil => cases hid
      | cons x ids ih =>
        rcases List.mem_cons.mp hid with rfl | hid
        · exact le_max_left _ _
        · exact (ih hid).trans (le_max_right _ _)
    intro hmem
    have hlast := hle _ hmem
    omega
  int_of
    | .int n => some n
    | _ => none

def at_hour (hour : Nat) (h : hour < 24) : DateTime :=
  ⟨2024, 1, 1, hour, 0, 0, 0, by omega, by omega⟩

def midnight : DateTime := at_hour 0 (by omega)

def noon : DateTime := at_hour 12 (by omega)

def data_of (taskhash : Text) : Data :=
  [(text "method", .text (text "m")), (text "taskhash", .text taskhash),
    (text "outhash", .text (text "o"))]

def reported : List Operation :=
  [.insert_unihash (text "m") (text "t") (text "u"),
    .insert_outhash (data_of (text "t") ++ [(text "created", .time noon)]),
    .get_unihash_by_outhash (text "m") (text "o")]

def Alike (ops : List Operation) : Prop :=
  (serve sqlite.run .empty ops).2 = (serve (sqlalchemy.run engine) .empty ops).2

/-- Both return the same, up to the column `gc_mark` and the form of times. -/
def PlainlyAlike (ops : List Operation) : Prop :=
  (serve sqlite.run .empty ops).2.map (Except.map Reply.plain) =
    (serve (sqlalchemy.run engine) .empty ops).2

instance : DecidablePred Alike := fun _ => inferInstanceAs (Decidable (_ = _))

instance : DecidablePred PlainlyAlike := fun _ => inferInstanceAs (Decidable (_ = _))

/-- A row of an upstream server comes with an id that is taken. -/
def withIds : List Operation :=
  [.insert_outhash (data_of (text "t") ++ [(text "id", .int 1)]),
    .insert_outhash (data_of (text "t2") ++ [(text "id", .int 1)])]

/-- A row of an upstream server comes with a time as JSON has it. -/
def withJsonTime : List Operation :=
  [.insert_unihash (text "m") (text "t") (text "u"),
    .insert_unihash (text "m") (text "t2") (text "u2"),
    .insert_outhash (data_of (text "t") ++ [(text "created", .text (midnight.isoformat 'T'))]),
    .insert_outhash (data_of (text "t2") ++ [(text "created", .time noon)]),
    .get_equivalent_for_outhash (text "m") (text "o") (text "t3")]

end yocto.hash_backends
