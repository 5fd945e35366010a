-- The PR table of the PR server (prserv/db.py): for each checksum of a version and an
-- architecture, the value of the package that has it.
import Yocto.HighWater
import Yocto.TaskIds
import Yocto.UniqueTable

open yocto.task_ids yocto.unique_table yocto.high_water

namespace yocto.pr_table

/-! ## Values -/

/-- An INTEGER of 64 bits, or the REAL 2^63, which a sum beyond them is rounded to. -/
@[ext] structure Number where
  val : Int
  low : -2 ^ 63 ≤ val
  high : val ≤ 2 ^ 63
  deriving DecidableEq

instance : LinearOrder Number := LinearOrder.lift' Number.val fun _ _ => Number.ext

theorem Number.le_def {m n : Number} : m ≤ n ↔ m.val ≤ n.val := Iff.rfl

theorem Number.lt_def {m n : Number} : m < n ↔ m.val < n.val := Iff.rfl

def real : Number := ⟨2 ^ 63, by norm_num, le_rfl⟩

def zero : Number := ⟨0, by norm_num, by norm_num⟩

/-- `n+1`, which is `n` again when `n` is the REAL. -/
def plus_one (n : Number) : Number :=
  if h : n.val < 2 ^ 63 then ⟨n.val + 1, by have := n.low; omega, h⟩ else n

/-- `ifnull(max(value)+1, 0)`. -/
def next (top : WithBot Number) : Number := (top.map plus_one).unbotD zero

/-- What a value column may be given: None, an int of any size, or a float read from a table. -/
inductive PyValue
  | none
  | int (n : Int)
  | float (n : Number)
  deriving DecidableEq

/-- A value as a statement is given it. An int of more than 64 bits is an OverflowError. -/
def PyValue.bind : PyValue → Option (WithBot Number)
  | .none => some ⊥
  | .int n =>
    if h : -2 ^ 63 ≤ n ∧ n < 2 ^ 63 then some ((⟨n, h.1, h.2.le⟩ : Number) : WithBot Number)
    else Option.none
  | .float n => some n

/-- A column as it is read. -/
def to_python (value : WithBot Number) : PyValue :=
  (value.map fun n : Number => if n.val < 2 ^ 63 then PyValue.int n.val else .float n).unbotD .none

inductive PrError
  | NotFoundError
  | OverflowError
  deriving DecidableEq

/-! ## The table -/

structure Row where
  version : Text
  pkgarch : Text
  checksum : Text
  value : WithBot Number
  deriving DecidableEq

abbrev Key := Text × Text × Text

def Row.key (r : Row) : Key := (r.version, r.pkgarch, r.checksum)

theorem Row.key_value (r : Row) (value : WithBot Number) : ({ r with value } : Row).key = r.key := rfl

abbrev Rows := Table Row.key

/-- The columns of the primary key that a call gives. None of them may be NULL. -/
def key? (version pkgarch checksum : Option Text) : Option Key :=
  match version, pkgarch, checksum with
  | some version, some pkgarch, some checksum => some (version, pkgarch, checksum)
  | _, _, _ => none

/-- The rows that the connection sees, and those that were committed. -/
structure Connection where
  rows : Rows
  committed : Rows

def Connection.commit (conn : Connection) : Connection := { conn with committed := conn.rows }

def Connection.rollback (conn : Connection) : Connection := { conn with rows := conn.committed }

/-- `INSERT INTO`, or an IntegrityError. -/
def Connection.insert (conn : Connection) (version pkgarch checksum : Option Text)
    (value : WithBot Number) : Option Connection :=
  match key? version pkgarch checksum with
  | some (version, pkgarch, checksum) =>
    let (rows, inserted) := conn.rows.insert ⟨version, pkgarch, checksum, value⟩
    if inserted then some { conn with rows } else none
  | none => none

/-- `INSERT OR REPLACE INTO`, or an IntegrityError. -/
def Connection.replace (conn : Connection) (version pkgarch checksum : Option Text)
    (value : WithBot Number) : Option Connection :=
  (key? version pkgarch checksum).map fun (version, pkgarch, checksum) =>
    { conn with rows := conn.rows.replace ⟨version, pkgarch, checksum, value⟩ }

/-- `UPDATE ... SET value=? WHERE ... AND value<?`. -/
def Connection.raise (conn : Connection) (version pkgarch checksum : Option Text)
    (value : WithBot Number) : Connection :=
  { conn with
    rows := conn.rows.update
      (fun r => key? version pkgarch checksum = some r.key ∧ r.value ≠ ⊥ ∧ r.value < value)
      (fun r => { r with value }) fun r => r.key_value value }

structure PRTable where
  conn : Connection
  nohist : Bool
  read_only : Bool
  dirty : Bool
  table : Text

/-- `PRTable.__init__`, on a database that has the table. -/
def PRTable.init (conn : Connection) (table : Text) (nohist read_only : Bool) : PRTable where
  conn := conn
  nohist := nohist
  read_only := read_only
  dirty := false
  table := table ++ if nohist then text "_nohist" else text "_hist"

def PRTable.sync (t : PRTable) : PRTable :=
  if t.read_only then t else { t with conn := t.conn.commit }

def PRTable.sync_if_dirty (t : PRTable) : PRTable :=
  if t.dirty then { t.sync with dirty := false } else t

/-! ## Looking up -/

def PRTable.select (t : PRTable) (version pkgarch checksum : Option Text) : Option Row :=
  (key? version pkgarch checksum).bind t.conn.rows.get?

/-- The rows of a version and an architecture. -/
def PRTable.package (t : PRTable) (version pkgarch : Option Text) : List Row :=
  t.conn.rows.rows.filter fun r => some r.version = version ∧ some r.pkgarch = pkgarch

/-- `select max(value)`. -/
def PRTable.max_value (t : PRTable) (version pkgarch : Option Text) : WithBot Number :=
  ((t.package version pkgarch).map Row.value).foldr max ⊥

def PRTable.test_package (t : PRTable) (version pkgarch : Option Text) : Bool :=
  !(t.package version pkgarch).isEmpty

def PRTable.find_value (t : PRTable) (version pkgarch checksum : Option Text) : WithBot Number :=
  ((t.select version pkgarch checksum).map Row.value).getD ⊥

def PRTable.find_max_value (t : PRTable) (version pkgarch : Option Text) : WithBot Number :=
  t.max_value version pkgarch

/-! ## Getting a value -/

/-- The row that was written is read again. -/
def PRTable.read_back (t : PRTable) (version pkgarch checksum : Option Text) :
    Except PrError (WithBot Number) :=
  match t.select version pkgarch checksum with
  | some row => .ok row.value
  | none => .error .NotFoundError

def PRTable.get_value_hist (t : PRTable) (version pkgarch checksum : Option Text) :
    PRTable × Except PrError (WithBot Number) :=
  match t.select version pkgarch checksum with
  | some row => (t, .ok row.value)
  | none =>
    if t.read_only then (t, .ok (next (t.max_value version pkgarch)))
    else
      let conn := t.conn.insert version pkgarch checksum (next (t.max_value version pkgarch))
      let t := { t with conn := conn.getD t.conn, dirty := true }
      (t, t.read_back version pkgarch checksum)

/-- The row holds the largest value of its package. -/
def PRTable.select_max (t : PRTable) (version pkgarch checksum : Option Text) : Option Row :=
  (t.select version pkgarch checksum).filter fun r =>
    r.value ≠ ⊥ ∧ t.max_value version pkgarch ≤ r.value

def PRTable.get_value_no_hist (t : PRTable) (version pkgarch checksum : Option Text) :
    PRTable × Except PrError (WithBot Number) :=
  match t.select_max version pkgarch checksum with
  | some row => (t, .ok row.value)
  | none =>
    if t.read_only then (t, .ok (next (t.max_value version pkgarch)))
    else
      let conn := t.conn.replace version pkgarch checksum (next (t.max_value version pkgarch))
      let t := { t with conn := conn.getD t.conn.rollback, dirty := true }
      (t, t.read_back version pkgarch checksum)

def PRTable.get_value (t : PRTable) (version pkgarch checksum : Option Text) :
    PRTable × Except PrError (WithBot Number) :=
  if t.nohist then t.get_value_no_hist version pkgarch checksum
  else t.get_value_hist version pkgarch checksum

/-! ## Importing -/

def PRTable.import_hist (t : PRTable) (version pkgarch checksum : Option Text) (value : PyValue) :
    PRTable × Except PrError (WithBot Number) :=
  if t.read_only then (t, .ok ⊥)
  else
    match t.select version pkgarch checksum with
    | some row => (t, .ok row.value)
    | none =>
      match value.bind with
      | none => (t, .error .OverflowError)
      | some value =>
        let conn := t.conn.insert version pkgarch checksum value
        let t := { t with conn := conn.getD t.conn, dirty := true }
        (t, .ok (t.find_value version pkgarch checksum))

def PRTable.import_no_hist (t : PRTable) (version pkgarch checksum : Option Text)
    (value : PyValue) : PRTable × Except PrError (WithBot Number) :=
  if t.read_only then (t, .ok ⊥)
  else
    match value.bind with
    | none => (t, .error .OverflowError)
    | some value =>
      let conn := t.conn.insert version pkgarch checksum value
      let t :=
        { t with conn := conn.getD (t.conn.raise version pkgarch checksum value), dirty := true }
      let row := (t.select version pkgarch checksum).filter fun r =>
        r.value ≠ ⊥ ∧ value ≠ ⊥ ∧ value ≤ r.value
      (t, .ok ((row.map Row.value).getD ⊥))

def PRTable.importone (t : PRTable) (version pkgarch checksum : Option Text) (value : PyValue) :
    PRTable × Except PrError (WithBot Number) :=
  if t.nohist then t.import_no_hist version pkgarch checksum value
  else t.import_hist version pkgarch checksum value

/-! ## Exporting -/

/-- A row of `datainfo`. -/
structure Col where
  version : Text
  pkgarch : Text
  checksum : Text
  value : PyValue
  deriving DecidableEq

def Col.key (col : Col) : Key := (col.version, col.pkgarch, col.checksum)

def Row.col (r : Row) : Col := ⟨r.version, r.pkgarch, r.checksum, to_python r.value⟩

/-- An argument that is given and not empty asks for the rows that hold it. -/
def asks (arg : Option Text) (column : Text) : Bool :=
  match arg with
  | none => true
  | some arg => arg = [] || column = arg

/-- `datainfo` of `export`. -/
def PRTable.export_data (t : PRTable) (version pkgarch checksum : Option Text) : List Col :=
  let selected := if t.nohist
    then t.conn.rows.rows.filter fun r =>
      r.value ≠ ⊥ ∧ r.value = t.max_value r.version r.pkgarch
    else t.conn.rows.rows
  let where_ := selected.filter fun r =>
    asks version r.version && asks pkgarch r.pkgarch && asks checksum r.checksum
  (where_.filter fun r => r.version ≠ []).map Row.col

/-! ## The next value -/

@[simp] theorem next_bot : next ⊥ = zero := rfl

@[simp] theorem next_coe (n : Number) : next n = plus_one n := rfl

theorem le_next (top : WithBot Number) : top ≤ next top := by
  cases top with
  | bot => exact bot_le
  | coe n =>
    rw [next_coe, WithBot.coe_le_coe, Number.le_def]
    unfold plus_one
    split
    · dsimp only
      omega
    · exact le_rfl

theorem lt_next {top : WithBot Number} (h : top < real) : top < next top := by
  cases top with
  | bot => exact WithBot.bot_lt_coe _
  | coe n =>
    rw [WithBot.coe_lt_coe, Number.lt_def] at h
    have hlt : n.val < 2 ^ 63 := h
    rw [next_coe, WithBot.coe_lt_coe, Number.lt_def]
    unfold plus_one
    rw [dif_pos hlt]
    dsimp only
    omega

/-! ## What is stored -/

/-- The value that is stored for a checksum, if there is a row for it. -/
def stored (rows : Rows) (version pkgarch checksum : Text) : Option (WithBot Number) :=
  (rows.get? (version, pkgarch, checksum)).map Row.value

section
variable {t t' : PRTable} {version pkgarch checksum : Text} {b : WithBot Number} {n : Number}

theorem stored_of_mem {rows : Rows} {r : Row} (h : r ∈ rows.rows) :
    stored rows r.version r.pkgarch r.checksum = some r.value := by
  unfold stored
  rw [show (r.version, r.pkgarch, r.checksum) = r.key from rfl, Table.get?_of_mem h]
  rfl

theorem stored_eq_some_iff {rows : Rows} :
    stored rows version pkgarch checksum = some b ↔ ⟨version, pkgarch, checksum, b⟩ ∈ rows.rows := by
  unfold stored
  rw [Option.map_eq_some_iff]
  constructor
  · rintro ⟨r, hr, rfl⟩
    obtain ⟨hmem, hkey⟩ := Table.get?_eq_some_iff.mp hr
    simp only [Row.key, Prod.mk.injEq] at hkey
    obtain ⟨rfl, rfl, rfl⟩ := hkey
    exact hmem
  · intro h
    exact ⟨_, Table.get?_of_mem h, rfl⟩

theorem max_value_le_iff :
    t.max_value version pkgarch ≤ b ↔
      ∀ c x, stored t.conn.rows version pkgarch c = some x → x ≤ b := by
  constructor
  · intro h c x hx
    apply le_trans _ h
    apply List.le_max_of_le _ le_rfl
    rw [List.mem_map]
    exact ⟨_, List.mem_filter.mpr ⟨stored_eq_some_iff.mp hx, by simp⟩, rfl⟩
  · intro h
    apply List.max_le_of_forall_le
    intro x hx
    obtain ⟨r, hr, rfl⟩ := List.mem_map.mp hx
    obtain ⟨hmem, hpackage⟩ := List.mem_filter.mp hr
    simp only [Option.some.injEq, Bool.decide_and, Bool.and_eq_true, decide_eq_true_eq] at hpackage
    obtain ⟨rfl, rfl⟩ := hpackage
    exact h r.checksum r.value (stored_of_mem hmem)

theorem le_max_value (h : stored t.conn.rows version pkgarch checksum = some b) :
    b ≤ t.max_value version pkgarch := max_value_le_iff.mp le_rfl _ _ h

theorem foldr_max_mem {α : Type} [LinearOrder α] [OrderBot α] :
    ∀ l : List α, l.foldr max ⊥ = ⊥ ∨ l.foldr max ⊥ ∈ l
  | [] => Or.inl rfl
  | x :: l => by
    rw [List.foldr_cons]
    rcases foldr_max_mem l with h | h
    · rw [h, max_bot_right]
      exact Or.inr List.mem_cons_self
    · rcases max_choice x (l.foldr max ⊥) with hx | hx
      · rw [hx]
        exact Or.inr List.mem_cons_self
      · rw [hx]
        exact Or.inr (List.mem_cons_of_mem _ h)

theorem max_value_mem (t : PRTable) (version pkgarch : Text) :
    t.max_value version pkgarch = ⊥ ∨
      ∃ c, stored t.conn.rows version pkgarch c = some (t.max_value version pkgarch) := by
  refine (foldr_max_mem _).imp id fun h => ?_
  obtain ⟨r, hr, hvalue⟩ := List.mem_map.mp h
  obtain ⟨hmem, hpackage⟩ := List.mem_filter.mp hr
  simp only [Option.some.injEq, Bool.decide_and, Bool.and_eq_true, decide_eq_true_eq] at hpackage
  obtain ⟨rfl, rfl⟩ := hpackage
  exact ⟨r.checksum, (stored_of_mem hmem).trans (congrArg some hvalue)⟩

/-- The checksums that hold the largest value of a package. -/
def PRTable.mark (t : PRTable) (version pkgarch : Text) : Mark Text Number where
  top := t.max_value version pkgarch
  holders := {c | ∃ n : Number, stored t.conn.rows version pkgarch c = some ↑n ∧
    t.max_value version pkgarch = n}

@[simp] theorem top_mark (t : PRTable) (version pkgarch : Text) :
    (t.mark version pkgarch).top = t.max_value version pkgarch := rfl

theorem mark_congr
    (h : ∀ c, stored t'.conn.rows version pkgarch c = stored t.conn.rows version pkgarch c) :
    t'.mark version pkgarch = t.mark version pkgarch := by
  have htop : t'.max_value version pkgarch = t.max_value version pkgarch := by
    apply eq_of_forall_ge_iff
    intro b
    simp only [max_value_le_iff, h]
  unfold PRTable.mark
  simp only [htop, h]

theorem mark_of_write
    (hwrite : ∀ c, stored t'.conn.rows version pkgarch c =
      if c = checksum then some ↑n else stored t.conn.rows version pkgarch c)
    (hold : ∀ x, stored t.conn.rows version pkgarch checksum = some x → x ≤ n) :
    t'.mark version pkgarch = (t.mark version pkgarch).raise checksum n := by
  have htop : t'.max_value version pkgarch = max (t.max_value version pkgarch) n := by
    apply eq_of_forall_ge_iff
    intro b
    rw [max_le_iff, max_value_le_iff, max_value_le_iff]
    constructor
    · intro h
      have hn : ↑n ≤ b := h checksum n (by simp [hwrite])
      refine ⟨fun c x hx => ?_, hn⟩
      by_cases hc : c = checksum
      · subst hc
        exact (hold x hx).trans hn
      · exact h c x (by rw [hwrite, if_neg hc, hx])
    · rintro ⟨h, hn⟩ c x hx
      rw [hwrite] at hx
      split at hx
      · rw [← Option.some.inj hx]
        exact hn
      · exact h c x hx
  rcases lt_trichotomy (t.max_value version pkgarch) n with h | h | h
  · rw [Mark.raise_of_lt (by exact h)]
    rw [max_eq_right h.le] at htop
    ext c
    · rw [PRTable.mark, htop]
    · simp only [PRTable.mark, htop, hwrite, Set.mem_ofPred_eq, Set.mem_singleton_iff]
      constructor
      · rintro ⟨k, hk, hkn⟩
        by_contra hc
        rw [if_neg hc] at hk
        exact absurd (le_max_value hk) (by rw [← hkn]; exact h.not_ge)
      · rintro rfl
        exact ⟨n, by simp, rfl⟩
  · rw [Mark.raise_of_eq (by exact h)]
    rw [max_eq_right h.le] at htop
    ext c
    · rw [PRTable.mark, htop]
    · simp only [PRTable.mark, htop, hwrite, h, Set.mem_ofPred_eq, Set.mem_insert_iff]
      by_cases hc : c = checksum
      · simp [hc]
      · simp [hc]
  · rw [Mark.raise_of_gt (by exact h)]
    rw [max_eq_left h.le] at htop
    ext c
    · rw [PRTable.mark, htop, top_mark]
    · simp only [PRTable.mark, htop, hwrite, Set.mem_ofPred_eq]
      by_cases hc : c = checksum
      · subst hc
        rw [if_pos rfl]
        constructor
        · rintro ⟨k, hk, htopk⟩
          rw [← Option.some.inj hk] at htopk
          exact absurd htopk h.ne'
        · rintro ⟨k, hk, htopk⟩
          exact absurd (hold k hk) (by rw [← htopk]; exact h.not_ge)
      · rw [if_neg hc]

theorem mark_of_null
    (hwrite : ∀ c, stored t'.conn.rows version pkgarch c =
      if c = checksum then some ⊥ else stored t.conn.rows version pkgarch c)
    (hold : stored t.conn.rows version pkgarch checksum = none) :
    t'.mark version pkgarch = t.mark version pkgarch := by
  have htop : t'.max_value version pkgarch = t.max_value version pkgarch := by
    apply eq_of_forall_ge_iff
    intro b
    rw [max_value_le_iff, max_value_le_iff]
    constructor
    · intro h c x hx
      apply h c x
      rw [hwrite, if_neg, hx]
      rintro rfl
      simp [hold] at hx
    · intro h c x hx
      rw [hwrite] at hx
      split at hx
      · rw [← Option.some.inj hx]
        exact bot_le
      · exact h c x hx
  ext c
  · simp only [PRTable.mark, htop]
  · simp only [PRTable.mark, htop, hwrite, Set.mem_ofPred_eq]
    by_cases hc : c = checksum
    · simp [hc, hold]
    · simp [hc]

/-! ## Statements -/

variable {conn conn' : Connection}

@[simp] theorem key?_some (version pkgarch checksum : Text) :
    key? version pkgarch checksum = some (version, pkgarch, checksum) := rfl

theorem select_some (t : PRTable) (version pkgarch checksum : Text) :
    (t.select version pkgarch checksum).map Row.value =
      stored t.conn.rows version pkgarch checksum := rfl

theorem insert_eq_some
    (h : conn.insert version pkgarch checksum b = some conn') :
    stored conn.rows version pkgarch checksum = none ∧ conn'.committed = conn.committed ∧
      ∀ v p c, stored conn'.rows v p c =
        if (v, p, c) = (version, pkgarch, checksum) then some b else stored conn.rows v p c := by
  simp only [Connection.insert, key?_some] at h
  split at h
  · rename_i hinserted
    obtain rfl := Option.some.inj h
    rw [Table.insert_eq_true_iff] at hinserted
    refine ⟨by unfold stored; simpa [Row.key] using hinserted, rfl, fun v p c => ?_⟩
    unfold stored
    rw [Table.get?_insert]
    split
    · rename_i hkey
      rw [if_pos (show (v, p, c) = (version, pkgarch, checksum) from hkey), hkey, hinserted]
      rfl
    · rename_i hkey
      rw [if_neg (show ¬(v, p, c) = (version, pkgarch, checksum) from hkey)]
  · cases h

theorem insert_eq_none_iff :
    conn.insert version pkgarch checksum b = none ↔
      ∃ x, stored conn.rows version pkgarch checksum = some x := by
  rw [← Option.ne_none_iff_exists', ← not_iff_not, not_not]
  constructor
  · intro h
    obtain ⟨conn', hconn⟩ := Option.ne_none_iff_exists'.mp h
    exact (insert_eq_some hconn).1
  · intro h
    have hget : conn.rows.get? (version, pkgarch, checksum) = none := by
      simpa [stored] using h
    simp [Connection.insert, Table.insert_of_none (t := conn.rows)
      (r := ⟨version, pkgarch, checksum, b⟩) hget]

theorem exists_insert (h : stored conn.rows version pkgarch checksum = none)
    (b : WithBot Number) : ∃ conn', conn.insert version pkgarch checksum b = some conn' := by
  rw [← Option.ne_none_iff_exists']
  intro hnone
  obtain ⟨x, hx⟩ := insert_eq_none_iff.mp hnone
  simp [h] at hx

theorem read_back_of_stored (h : stored t.conn.rows version pkgarch checksum = some b) :
    t.read_back version pkgarch checksum = .ok b := by
  rw [← select_some, Option.map_eq_some_iff] at h
  obtain ⟨row, hrow, rfl⟩ := h
  simp [PRTable.read_back, hrow]

theorem stored_replace (rows : Rows) (version pkgarch checksum : Text) (b : WithBot Number)
    (v p c : Text) : stored (rows.replace ⟨version, pkgarch, checksum, b⟩) v p c =
      if (v, p, c) = (version, pkgarch, checksum) then some b else stored rows v p c := by
  unfold stored
  rw [Table.get?_replace, apply_ite (Option.map Row.value)]
  rfl

theorem stored_raise (v p c : Text) :
    stored (conn.raise version pkgarch checksum b).rows v p c =
      (stored conn.rows v p c).map fun x =>
        if (v, p, c) = (version, pkgarch, checksum) ∧ x ≠ ⊥ ∧ x < b then b else x := by
  unfold stored Connection.raise
  rw [Table.get?_update, Option.map_map, Option.map_map]
  cases hget : conn.rows.get? (v, p, c) with
  | none => rfl
  | some r =>
    have hkey : r.key = (v, p, c) := Table.key_of_get? hget
    simp only [Option.map_some, Function.comp, key?_some, Option.some.injEq, hkey,
      decide_eq_true_eq, eq_comm (a := (version, pkgarch, checksum))]
    split <;> rfl

/-! ## A call on a table without history -/

/-- Nothing but the rows was touched, and the table is to be committed. -/
structure Written (t t' : PRTable) : Prop where
  nohist : t'.nohist = t.nohist
  read_only : t'.read_only = t.read_only
  committed : t'.conn.committed = t.conn.committed
  dirty : t'.dirty = true

theorem select_max_of_mem (h : checksum ∈ (t.mark version pkgarch).holders) :
    ∃ row, t.select_max version pkgarch checksum = some row ∧
      row.value = t.max_value version pkgarch := by
  obtain ⟨n, hn, htop⟩ := h
  rw [← select_some, Option.map_eq_some_iff] at hn
  obtain ⟨row, hrow, hvalue⟩ := hn
  refine ⟨row, ?_, by rw [hvalue, htop]⟩
  unfold PRTable.select_max
  rw [hrow, Option.filter_some, if_pos]
  simp [hvalue, htop]

theorem select_max_of_not_mem (h : checksum ∉ (t.mark version pkgarch).holders) :
    t.select_max version pkgarch checksum = none := by
  unfold PRTable.select_max
  rw [Option.filter_eq_none_iff]
  intro row hrow hmax
  simp only [decide_eq_true_eq] at hmax
  obtain ⟨n, hn⟩ := WithBot.ne_bot_iff_exists.mp hmax.1
  have hstored : stored t.conn.rows version pkgarch checksum = some row.value := by
    rw [← select_some, hrow, Option.map_some]
  refine h ⟨n, by rw [hstored, hn], ?_⟩
  rw [hn]
  exact le_antisymm hmax.2 (le_max_value hstored)

theorem get_value_of_mem (hn : t.nohist = true)
    (h : checksum ∈ (t.mark version pkgarch).holders) :
    t.get_value version pkgarch checksum = (t, .ok (t.max_value version pkgarch)) := by
  obtain ⟨row, hrow, hvalue⟩ := select_max_of_mem h
  simp [PRTable.get_value, hn, PRTable.get_value_no_hist, hrow, hvalue]

theorem get_value_of_not_mem (hn : t.nohist = true) (hw : t.read_only = false)
    (h : checksum ∉ (t.mark version pkgarch).holders) :
    ∃ t', t.get_value version pkgarch checksum =
        (t', .ok (next (t.max_value version pkgarch))) ∧ Written t t' ∧
      ∀ v p c, stored t'.conn.rows v p c =
        if (v, p, c) = (version, pkgarch, checksum) then some ↑(next (t.max_value version pkgarch))
        else stored t.conn.rows v p c := by
  have hrows := stored_replace t.conn.rows version pkgarch checksum
    (next (t.max_value version pkgarch))
  let rows := t.conn.rows.replace ⟨version, pkgarch, checksum, next (t.max_value version pkgarch)⟩
  let t' : PRTable := { t with conn := { t.conn with rows }, dirty := true }
  refine ⟨t', ?_, ⟨rfl, rfl, rfl, rfl⟩, hrows⟩
  have hread : t'.read_back version pkgarch checksum = .ok ↑(next (t.max_value version pkgarch)) :=
    read_back_of_stored ((hrows version pkgarch checksum).trans (if_pos rfl))
  simp [PRTable.get_value, hn, PRTable.get_value_no_hist, hw, select_max_of_not_mem h,
    Connection.replace, ← hread, t', rows]

theorem get_value_mark (hn : t.nohist = true) (hw : t.read_only = false)
    (version pkgarch checksum v p : Text) :
    (t.get_value version pkgarch checksum).1.mark v p =
      if (v, p) = (version, pkgarch) then (t.mark version pkgarch).claim next checksum
      else t.mark v p := by
  by_cases h : checksum ∈ (t.mark version pkgarch).holders
  · rw [get_value_of_mem hn h, Mark.claim_of_mem h]
    split
    · rename_i heq
      simp only [Prod.mk.injEq] at heq
      rw [heq.1, heq.2]
    · rfl
  · obtain ⟨t', hget, _, hstored⟩ := get_value_of_not_mem hn hw h
    rw [hget, Mark.claim_of_not_mem h]
    split
    · rename_i heq
      simp only [Prod.mk.injEq] at heq
      rw [heq.1, heq.2]
      refine mark_of_write (fun c => by simp [hstored]) fun x hx => ?_
      exact (le_max_value hx).trans (le_next _)
    · rename_i hne
      refine mark_congr fun c => ?_
      rw [hstored, if_neg]
      simp only [Prod.mk.injEq] at hne ⊢
      tauto

theorem get_value_answer (hn : t.nohist = true) (hw : t.read_only = false) :
    (t.get_value version pkgarch checksum).2 =
      .ok ((t.mark version pkgarch).claim next checksum).top := by
  by_cases h : checksum ∈ (t.mark version pkgarch).holders
  · rw [get_value_of_mem hn h, Mark.claim_of_mem h]
    rfl
  · obtain ⟨t', hget, _, _⟩ := get_value_of_not_mem hn hw h
    rw [hget, Mark.claim_of_not_mem h, Mark.top_raise (le_next _)]
    rfl

theorem get_value_holds (hn : t.nohist = true) (hw : t.read_only = false)
    (version pkgarch checksum : Text) :
    ∃ n : Number, (t.get_value version pkgarch checksum).2 = .ok ↑n ∧
      ((t.get_value version pkgarch checksum).1.mark version pkgarch).top = n ∧
      checksum ∈ ((t.get_value version pkgarch checksum).1.mark version pkgarch).holders := by
  have hmark := get_value_mark hn hw version pkgarch checksum version pkgarch
  rw [if_pos rfl] at hmark
  have hmem : checksum ∈ ((t.mark version pkgarch).claim next checksum).holders :=
    Mark.mem_claim (le_next _)
  rw [get_value_answer hn hw, ← hmark]
  rw [← hmark] at hmem
  obtain ⟨n, _, hn'⟩ := id hmem
  exact ⟨n, congrArg Except.ok hn', hn', hmem⟩

theorem get_value_kind (t : PRTable) (version pkgarch checksum : Option Text) :
    (t.get_value version pkgarch checksum).1.nohist = t.nohist ∧
      (t.get_value version pkgarch checksum).1.read_only = t.read_only := by
  unfold PRTable.get_value PRTable.get_value_no_hist PRTable.get_value_hist
  split
  · split
    · simp
    · split <;> simp
  · split
    · simp
    · split <;> simp

theorem importone_kind (t : PRTable) (version pkgarch checksum : Option Text) (value : PyValue) :
    (t.importone version pkgarch checksum value).1.nohist = t.nohist ∧
      (t.importone version pkgarch checksum value).1.read_only = t.read_only := by
  unfold PRTable.importone PRTable.import_no_hist PRTable.import_hist
  split
  · split
    · simp
    · split <;> simp
  · split
    · simp
    · split
      · simp
      · split <;> simp

theorem stored_import_no_hist (hn : t.nohist = true) (hw : t.read_only = false)
    {value : PyValue} (hb : value.bind = some b) (version pkgarch checksum v p c : Text) :
    stored (t.importone version pkgarch checksum value).1.conn.rows v p c =
      if (v, p, c) = (version, pkgarch, checksum) then
        some (match stored t.conn.rows version pkgarch checksum with
          | none => b
          | some x => if x ≠ ⊥ ∧ x < b then b else x)
      else stored t.conn.rows v p c := by
  simp only [PRTable.importone, hn, if_true, PRTable.import_no_hist, hw, hb, Bool.false_eq_true,
    if_false]
  cases hinsert : t.conn.insert version pkgarch checksum b with
  | some conn' =>
    obtain ⟨hnone, _, hstored⟩ := insert_eq_some hinsert
    rw [Option.getD_some, hstored, hnone]
  | none =>
    obtain ⟨x, hx⟩ := insert_eq_none_iff.mp hinsert
    rw [Option.getD_none, stored_raise, hx]
    split
    · rename_i heq
      simp only [Prod.mk.injEq] at heq
      obtain ⟨rfl, rfl, rfl⟩ := heq
      simp [hx]
    · rename_i hne
      simp [hne]

theorem importone_mark (hn : t.nohist = true) (hw : t.read_only = false)
    (version pkgarch checksum : Text) (value : PyValue) (v p : Text) :
    (t.importone version pkgarch checksum value).1.mark v p = t.mark v p ∨
      (v, p) = (version, pkgarch) ∧ ∃ n : Number, value.bind = some ↑n ∧
        (t.importone version pkgarch checksum value).1.mark v p =
          (t.mark v p).raise checksum n := by
  cases hb : value.bind with
  | none =>
    left
    simp [PRTable.importone, hn, PRTable.import_no_hist, hw, hb]
  | some b =>
    have hstored := stored_import_no_hist hn hw hb version pkgarch checksum
    by_cases heq : (v, p) = (version, pkgarch)
    · simp only [Prod.mk.injEq] at heq
      obtain ⟨rfl, rfl⟩ := heq
      simp only [Prod.mk.injEq, true_and] at hstored ⊢
      cases b with
      | bot =>
        left
        cases hold : stored t.conn.rows v p checksum with
        | none => exact mark_of_null (fun c => by simp [hstored, hold]) hold
        | some x =>
          refine mark_congr fun c => ?_
          rw [hstored, hold]
          split
          · rename_i hc
            simp [hc, hold]
          · rfl
      | coe n =>
        cases hold : stored t.conn.rows v p checksum with
        | none =>
          right
          exact ⟨n, rfl, mark_of_write (fun c => by simp [hstored, hold]) (by simp [hold])⟩
        | some x =>
          by_cases hx : x ≠ ⊥ ∧ x < ↑n
          · right
            refine ⟨n, rfl, mark_of_write (fun c => by simp [hstored, hold, hx]) ?_⟩
            intro y hy
            rw [hold] at hy
            rw [← Option.some.inj hy]
            exact hx.2.le
          · left
            refine mark_congr fun c => ?_
            rw [hstored, hold]
            split
            · rename_i hc
              simp [hc, hold, hx]
            · rfl
    · left
      refine mark_congr fun c => ?_
      rw [hstored, if_neg]
      simp only [Prod.mk.injEq] at heq ⊢
      tauto

/-! ## A call on a table with history -/

theorem get_value_of_stored (hn : t.nohist = false)
    (h : stored t.conn.rows version pkgarch checksum = some b) :
    t.get_value version pkgarch checksum = (t, .ok b) := by
  rw [← select_some, Option.map_eq_some_iff] at h
  obtain ⟨row, hrow, rfl⟩ := h
  simp [PRTable.get_value, hn, PRTable.get_value_hist, hrow]

theorem get_value_of_not_stored (hn : t.nohist = false) (hw : t.read_only = false)
    (h : stored t.conn.rows version pkgarch checksum = none) :
    ∃ t', t.get_value version pkgarch checksum =
        (t', .ok (next (t.max_value version pkgarch))) ∧ Written t t' ∧
      ∀ v p c, stored t'.conn.rows v p c =
        if (v, p, c) = (version, pkgarch, checksum) then some ↑(next (t.max_value version pkgarch))
        else stored t.conn.rows v p c := by
  have hselect : t.select version pkgarch checksum = none := by
    rwa [← select_some, Option.map_eq_none_iff] at h
  obtain ⟨conn', hconn⟩ := exists_insert h (next (t.max_value version pkgarch))
  obtain ⟨_, hcommitted, hstored⟩ := insert_eq_some hconn
  let t' : PRTable := { t with conn := conn', dirty := true }
  refine ⟨t', ?_, ⟨rfl, rfl, hcommitted, rfl⟩, hstored⟩
  have hread : t'.read_back version pkgarch checksum = .ok ↑(next (t.max_value version pkgarch)) :=
    read_back_of_stored ((hstored version pkgarch checksum).trans (if_pos rfl))
  simp [PRTable.get_value, hn, PRTable.get_value_hist, hw, hselect, hconn, ← hread, t']

theorem stored_import_hist (hn : t.nohist = false) (hw : t.read_only = false) (value : PyValue)
    (v p c : Text) :
    stored (t.importone version pkgarch checksum value).1.conn.rows v p c =
      if (v, p, c) = (version, pkgarch, checksum) then
        (stored t.conn.rows version pkgarch checksum).or value.bind
      else stored t.conn.rows v p c := by
  have hsame (h : (v, p, c) = (version, pkgarch, checksum)) :
      stored t.conn.rows v p c = stored t.conn.rows version pkgarch checksum := by
    simp only [Prod.mk.injEq] at h
    rw [h.1, h.2.1, h.2.2]
  simp only [PRTable.importone, hn, Bool.false_eq_true, if_false, PRTable.import_hist, hw]
  cases hselect : t.select version pkgarch checksum with
  | some row =>
    have hold : stored t.conn.rows version pkgarch checksum = some row.value := by
      rw [← select_some, hselect, Option.map_some]
    dsimp only
    split
    · rename_i h
      rw [hsame h, hold, Option.some_or]
    · rfl
  | none =>
    have hold : stored t.conn.rows version pkgarch checksum = none := by
      rw [← select_some, hselect, Option.map_none]
    cases hb : value.bind with
    | none =>
      dsimp only
      split
      · rename_i h
        rw [hsame h, hold, Option.none_or]
      · rfl
    | some b =>
      obtain ⟨conn', hconn⟩ := exists_insert hold b
      obtain ⟨_, _, hstored⟩ := insert_eq_some hconn
      rw [hold, Option.none_or]
      simpa [hconn] using hstored v p c

end

end yocto.pr_table
