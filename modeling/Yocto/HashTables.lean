-- The database of a hash equivalence server (hashserv/sqlite.py and sqlalchemy.py): a table of
-- unihashes, a table of output hashes, and the current mark of a garbage collection.
import Mathlib.Data.List.MinMax
import Mathlib.Order.WithBot
import Yocto.ListSearch
import Yocto.UniqueTable
import Yocto.OrderedDict
import Yocto.DateTimes

open yocto.task_ids yocto.ordered_dict yocto.unique_table yocto.date_times yocto.list_search

namespace yocto.hash_tables

/-! ## Rows -/

/-- A row of `unihashes_v3`. -/
@[ext] structure Unihash where
  method : Text
  taskhash : Text
  unihash : Text
  gc_mark : Text
  deriving DecidableEq

def Unihash.key (r : Unihash) : Text × Text := (r.method, r.taskhash)

theorem Unihash.key_gc_mark (mark : Text) (r : Unihash) : { r with gc_mark := mark }.key = r.key := rfl

/-- The optional columns of `outhashes_v2`. -/
inductive OuthashField
  | owner
  | PN
  | PV
  | PR
  | task
  | outhash_siginfo
  deriving DecidableEq, Repr

/-- A row of `outhashes_v2`. NULL comes before all times. -/
@[ext] structure Outhash (T : Type) where
  method : Text
  taskhash : Text
  outhash : Text
  created : WithBot T
  fields : OuthashField → Option Text

variable {T : Type}

def Outhash.key (r : Outhash T) : Text × Text × Text := (r.method, r.taskhash, r.outhash)

structure Database (T : Type) where
  unihashes : Table Unihash.key
  outhashes : Table (Outhash.key (T := T))
  /-- The value of `gc-mark` in the table `config`, NULL when it is not there. -/
  gc_mark : Option Text

def Database.empty : Database T := ⟨.empty, .empty, none⟩

/-! ## Conditions -/

/-- A value that comes with a request or from the program. -/
inductive Value
  | null
  | text (s : Text)
  | int (n : Int)
  | time (d : DateTime)
  deriving DecidableEq

/-- What a TEXT column compares with, and holds, for a value. -/
def Value.as_text : Value → Option Text
  | .null => none
  | .text s => some s
  | .int n => some (toString n).toList
  | .time d => some (d.isoformat ' ')

abbrev Condition := OrderedDict Text Value

/-- The columns of a condition, as `_make_condition_statement` picks them. -/
def make_condition (columns : List Text) (condition : Condition) : List (Text × Value) :=
  columns.filterMap fun c => match condition.get? c with
    | none => none
    | some .null => none
    | some v => some (c, v)

def UNIHASH_TABLE_COLUMNS : List Text :=
  [text "method", text "taskhash", text "unihash", text "gc_mark"]

def OUTHASH_TABLE_COLUMNS : List Text :=
  [text "method", text "taskhash", text "outhash", text "created", text "owner", text "PN",
    text "PV", text "PR", text "task", text "outhash_siginfo"]

def Unihash.column (r : Unihash) (c : Text) : Option Text :=
  if c = text "method" then some r.method
  else if c = text "taskhash" then some r.taskhash
  else if c = text "unihash" then some r.unihash
  else if c = text "gc_mark" then some r.gc_mark
  else none

/-- A row meets `WHERE c=v AND ...`. -/
def unihash_meets (where_ : List (Text × Value)) (r : Unihash) : Bool :=
  where_.all fun x => x.2.as_text.isSome && r.column x.1 = x.2.as_text

def outhash_column (o : Outhash T) (c : Text) : Option Text :=
  if c = text "method" then some o.method
  else if c = text "taskhash" then some o.taskhash
  else if c = text "outhash" then some o.outhash
  else if c = text "owner" then o.fields .owner
  else if c = text "PN" then o.fields .PN
  else if c = text "PV" then o.fields .PV
  else if c = text "PR" then o.fields .PR
  else if c = text "task" then o.fields .task
  else if c = text "outhash_siginfo" then o.fields .outhash_siginfo
  else none

section
variable [LinearOrder T]

/-- The same of a row of the output hashes, whose `created` compares with a value of its own type. -/
def outhash_meets (created_of : Value → Option T) (where_ : List (Text × Value)) (o : Outhash T) :
    Bool :=
  where_.all fun x =>
    if x.1 = text "created" then
      match created_of x.2 with
      | some created => o.created = created
      | none => false
    else x.2.as_text.isSome && outhash_column o x.1 = x.2.as_text

/-! ## Statements -/

def Database.get_equivalent (db : Database T) (method taskhash : Text) : Option Unihash :=
  db.unihashes.get? (method, taskhash)

def Database.joined (db : Database T) : List (Outhash T × Unihash) :=
  db.outhashes.rows.filterMap fun o => (db.get_equivalent o.method o.taskhash).map (o, ·)

/-- `ORDER BY created ASC LIMIT 1`. Of rows with one time the first is taken. -/
def first_created (l : List (Outhash T × Unihash)) : Option (Outhash T × Unihash) :=
  l.argmin fun x => x.1.created

def Database.get_unihash_by_taskhash_full (db : Database T) (method taskhash : Text) :
    Option (Outhash T × Unihash) :=
  first_created (db.joined.filter fun x => x.1.method = method ∧ x.1.taskhash = taskhash)

def Database.get_unihash_by_outhash (db : Database T) (method outhash : Text) :
    Option (Outhash T × Unihash) :=
  first_created (db.joined.filter fun x => x.1.method = method ∧ x.1.outhash = outhash)

def Database.unihash_exists (db : Database T) (unihash : Text) : Bool :=
  db.unihashes.rows.any fun r => r.unihash = unihash

def Database.get_outhash (db : Database T) (method outhash : Text) : Option (Outhash T) :=
  (db.outhashes.rows.filter fun o => o.method = method ∧ o.outhash = outhash).argmin
    fun o => o.created

/-- The matching output hash of another task, the oldest one, with its unihash. -/
def Database.get_equivalent_for_outhash (db : Database T) (method outhash taskhash : Text) :
    Option (Outhash T × Unihash) :=
  first_created (db.joined.filter fun x =>
    x.1.method = method ∧ x.1.outhash = outhash ∧ x.1.taskhash ≠ taskhash)

/-- Whether the row was inserted is returned. -/
def Database.insert_unihash (db : Database T) (method taskhash unihash : Text) :
    Database T × Bool :=
  let (unihashes, inserted) :=
    db.unihashes.insert ⟨method, taskhash, unihash, db.gc_mark.getD []⟩
  ({ db with unihashes }, inserted)

def Database.insert_outhash (db : Database T) (row : Outhash T) : Database T × Bool :=
  let (outhashes, inserted) := db.outhashes.insert row
  ({ db with outhashes }, inserted)

/-- `gc_status`: the rows to keep, the rows to remove, and the current mark. -/
def Database.gc_status (db : Database T) : Nat × Nat × Option Text :=
  (db.unihashes.count fun r => r.gc_mark = db.gc_mark.getD [],
    db.unihashes.count fun r => r.gc_mark ≠ db.gc_mark.getD [], db.gc_mark)

/-- `gc_mark`, for the columns that the condition has. -/
def Database.gc_mark_where (db : Database T) (mark : Text) (where_ : List (Text × Value)) :
    Database T × Nat :=
  let db := { db with gc_mark := some mark }
  if where_ = [] then (db, 0)
  else
    let marked := db.unihashes.update (unihash_meets where_) (fun r => { r with gc_mark := mark })
      (Unihash.key_gc_mark mark)
    ({ db with unihashes := marked }, db.unihashes.count (unihash_meets where_))

/-- `gc_sweep`. Without a mark, nothing is deleted. -/
def Database.gc_sweep (db : Database T) : Database T × Nat :=
  match db.gc_mark with
  | none => (db, 0)
  | some mark =>
    ({ db with
      unihashes := db.unihashes.delete fun r => r.gc_mark ≠ mark
      gc_mark := none }, db.unihashes.count fun r => r.gc_mark ≠ mark)

/-- An output hash is unused when it is old and its task has no unihash. -/
def Database.unused (db : Database T) (oldest : T) (o : Outhash T) : Bool :=
  (o.created ≠ ⊥ ∧ o.created < oldest) ∧ db.get_equivalent o.method o.taskhash = none

def Database.clean_unused (db : Database T) (oldest : T) : Database T × Nat :=
  ({ db with outhashes := db.outhashes.delete (db.unused oldest) },
    db.outhashes.count (db.unused oldest))

/-- `remove`. A table is left alone when the condition has none of its columns. -/
def Database.remove (db : Database T) (created_of : Value → Option T) (condition : Condition) :
    Database T × Nat :=
  let where_ := make_condition OUTHASH_TABLE_COLUMNS condition
  let outhash_where := fun o => where_ ≠ [] && outhash_meets created_of where_ o
  let where_ := make_condition UNIHASH_TABLE_COLUMNS condition
  let unihash_where := fun r => where_ ≠ [] && unihash_meets where_ r
  ({ db with
    outhashes := db.outhashes.delete outhash_where
    unihashes := db.unihashes.delete unihash_where },
    db.outhashes.count outhash_where + db.unihashes.count unihash_where)

end

/-! ## What the statements keep -/

variable {db : Database T} {method taskhash unihash : Text}

theorem get_equivalent_insert_unihash (db : Database T) (method taskhash unihash m t : Text) :
    (db.insert_unihash method taskhash unihash).1.get_equivalent m t =
      if m = method ∧ t = taskhash then
        some ((db.get_equivalent m t).getD ⟨method, taskhash, unihash, db.gc_mark.getD []⟩)
      else db.get_equivalent m t := by
  unfold Database.get_equivalent Database.insert_unihash
  dsimp only
  rw [Table.get?_insert]
  simp only [Unihash.key, Prod.mk.injEq]

@[simp] theorem insert_unihash_outhashes (db : Database T) (method taskhash unihash : Text) :
    (db.insert_unihash method taskhash unihash).1.outhashes = db.outhashes := rfl

@[simp] theorem get_equivalent_insert_outhash (db : Database T) (row : Outhash T) (m t : Text) :
    (db.insert_outhash row).1.get_equivalent m t = db.get_equivalent m t := rfl

theorem mem_insert_outhash {row o : Outhash T} :
    o ∈ (db.insert_outhash row).1.outhashes.rows ↔
      o ∈ db.outhashes.rows ∨ (o = row ∧ db.outhashes.get? row.key = none) :=
  Table.mem_insert

theorem insert_outhash_eq_true_iff {row : Outhash T} :
    (db.insert_outhash row).2 = true ↔ db.outhashes.get? row.key = none :=
  Table.insert_eq_true_iff

theorem exists_mem_insert_outhash (db : Database T) (row : Outhash T) :
    ∃ o ∈ (db.insert_outhash row).1.outhashes.rows,
      o.method = row.method ∧ o.taskhash = row.taskhash ∧ o.outhash = row.outhash := by
  cases hget : db.outhashes.get? row.key with
  | none => exact ⟨row, mem_insert_outhash.mpr (Or.inr ⟨rfl, hget⟩), rfl, rfl, rfl⟩
  | some o =>
    obtain ⟨ho, hkey⟩ := Table.get?_eq_some_iff.mp hget
    simp only [Outhash.key, Prod.mk.injEq] at hkey
    exact ⟨o, mem_insert_outhash.mpr (Or.inl ho), hkey⟩

theorem mem_joined {x : Outhash T × Unihash} :
    x ∈ db.joined ↔
      x.1 ∈ db.outhashes.rows ∧ db.get_equivalent x.1.method x.1.taskhash = some x.2 := by
  unfold Database.joined
  rw [List.mem_filterMap]
  constructor
  · rintro ⟨o, ho, hx⟩
    obtain ⟨r, hr, rfl⟩ := Option.map_eq_some_iff.mp hx
    exact ⟨ho, hr⟩
  · rintro ⟨ho, hr⟩
    exact ⟨x.1, ho, by rw [hr]; rfl⟩

variable [LinearOrder T]

theorem first_created_mem {l : List (Outhash T × Unihash)} {x : Outhash T × Unihash}
    (h : first_created l = some x) : x ∈ l := List.argmin_mem h

theorem first_created_concat (l : List (Outhash T × Unihash)) (x : Outhash T × Unihash) :
    first_created (l ++ [x]) = match first_created l with
      | none => some x
      | some e => if x.1.created < e.1.created then some x else some e := by
  unfold first_created
  rw [List.argmin_concat]
  cases l.argmin fun x => x.1.created <;> rfl

theorem first_created_of_mem {l : List (Outhash T × Unihash)} {x : Outhash T × Unihash}
    (h : x ∈ l) : ∃ y, first_created l = some y := by
  cases hfirst : first_created l with
  | none =>
    rw [List.argmin_eq_none.mp hfirst] at h
    cases h
  | some y => exact ⟨y, rfl⟩

/-! ## Times in another form -/

variable {S : Type} [LinearOrder S] {f : T → S}

omit [LinearOrder T] [LinearOrder S]

def Outhash.map (f : T → S) (o : Outhash T) : Outhash S :=
  ⟨o.method, o.taskhash, o.outhash, WithBot.map f o.created, o.fields⟩

@[simp] theorem key_map (f : T → S) (o : Outhash T) : (o.map f).key = o.key := rfl

def Database.map (f : T → S) (db : Database T) : Database S :=
  ⟨db.unihashes, db.outhashes.map (Outhash.map f) fun _ => rfl, db.gc_mark⟩

@[simp] theorem get_equivalent_map (db : Database T) (method taskhash : Text) :
    (db.map f).get_equivalent method taskhash = db.get_equivalent method taskhash := rfl

theorem joined_map (db : Database T) :
    (db.map f).joined = db.joined.map fun x => (x.1.map f, x.2) := by
  simp only [Database.joined, Database.map, Table.map, List.filterMap_map, List.map_filterMap]
  congr 1
  funext o
  change ((db.map f).get_equivalent o.method o.taskhash).map _ = _
  rw [get_equivalent_map]
  cases db.get_equivalent o.method o.taskhash <;> rfl

theorem insert_outhash_map (db : Database T) (row : Outhash T) :
    (db.map f).insert_outhash (row.map f) =
      ((db.insert_outhash row).1.map f, (db.insert_outhash row).2) := by
  have hinsert : (db.map f).outhashes.insert (row.map f) =
      ((db.outhashes.insert row).1.map (Outhash.map f) fun _ => rfl, (db.outhashes.insert row).2) :=
    Table.insert_map db.outhashes row
  simp only [Database.insert_outhash, hinsert]
  rfl

variable [LinearOrder T] [LinearOrder S] (hf : StrictMono f)
include hf

theorem map_lt_map {a b : WithBot T} : WithBot.map f a < WithBot.map f b ↔ a < b :=
  hf.withBot_map.lt_iff_lt

theorem map_inj {a b : WithBot T} : WithBot.map f a = WithBot.map f b ↔ a = b :=
  hf.withBot_map.injective.eq_iff

theorem first_created_map (l : List (Outhash T × Unihash)) :
    first_created (l.map fun x => (x.1.map f, x.2)) =
      (first_created l).map fun x => (x.1.map f, x.2) := by
  have hlt : ∀ x y : Outhash T × Unihash,
      (x.1.map f).created < (y.1.map f).created ↔ x.1.created < y.1.created :=
    fun _ _ => map_lt_map hf
  exact argmin_map (fun x => x.1.created) (fun x => x.1.created) (fun x => (x.1.map f, x.2)) hlt l

theorem first_joined_map (db : Database T) (p : Outhash S × Unihash → Bool) :
    first_created ((db.map f).joined.filter p) =
      (first_created (db.joined.filter fun x => p (x.1.map f, x.2))).map
        fun x => (x.1.map f, x.2) := by
  rw [joined_map, List.filter_map, first_created_map hf]
  rfl

theorem get_outhash_map (db : Database T) (method outhash : Text) :
    (db.map f).get_outhash method outhash = (db.get_outhash method outhash).map (Outhash.map f) := by
  unfold Database.get_outhash
  change List.argmin _ ((db.outhashes.rows.map (Outhash.map f)).filter _) = _
  rw [List.filter_map]
  have hlt : ∀ x y : Outhash T, (x.map f).created < (y.map f).created ↔ x.created < y.created :=
    fun _ _ => map_lt_map hf
  exact argmin_map Outhash.created Outhash.created (Outhash.map f) hlt _

theorem clean_unused_map (db : Database T) (oldest : T) :
    (db.map f).clean_unused (f oldest) =
      ((db.clean_unused oldest).1.map f, (db.clean_unused oldest).2) := by
  have hunused : (fun o : Outhash T => (db.map f).unused (f oldest) (o.map f)) = db.unused oldest := by
    funext o
    have hbot : WithBot.map f o.created ≠ ⊥ ↔ o.created ≠ ⊥ := by
      rw [← WithBot.map_bot f]
      exact (map_inj hf).not
    have hlt : WithBot.map f o.created < (f oldest : WithBot S) ↔ o.created < (oldest : WithBot T) :=
      map_lt_map hf (b := (oldest : WithBot T))
    simp [Database.unused, Outhash.map, hbot, hlt]
  have hdelete : (db.map f).outhashes.delete ((db.map f).unused (f oldest)) =
      (db.outhashes.delete (db.unused oldest)).map (Outhash.map f) fun _ => rfl := by
    rw [← hunused]
    exact Table.delete_map (Outhash.map f) (key_map f) db.outhashes _
  have hcount : (db.map f).outhashes.count ((db.map f).unused (f oldest)) =
      db.outhashes.count (db.unused oldest) := by
    rw [← hunused]
    exact Table.count_map (Outhash.map f) (key_map f) db.outhashes _
  simp only [Database.clean_unused, hdelete, hcount]
  rfl

end yocto.hash_tables
