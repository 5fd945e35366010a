-- Reports and the two tables of a hash server without an upstream server.
import Yocto.HashServer
import Yocto.Runs

open yocto.task_ids yocto.unique_table yocto.hash_tables yocto.hash_server

namespace yocto.hash_records

variable {T : Type} [LinearOrder T]

/-! ## One request after the other -/

/-- A handler runs through so many calls without any other handler between them. -/
def finish (cfg : Config T) : Nat → Database T → Handler T → Database T × Option Answer
  | 0, db, _ => (db, none)
  | calls + 1, db, h =>
    match advance cfg none db h with
    | (db, .await h) => finish cfg calls db h
    | (db, .answer a) => (db, some a)
    | (db, .backfill a) => (db, some a)
    | (db, _) => (db, none)

/-- A request is handled to its end. Without an upstream server no handler makes more calls. -/
def handle (cfg : Config T) (db : Database T) (q : Request T) : Database T × Option Answer :=
  finish cfg 4 db q.handler

variable {cfg : Config T} {db : Database T} {r : Report T}

/-- A report stores a unihash only when its output hash is new: that of an equivalent task when there
is one, its own otherwise. -/
def stored (db : Database T) (r : Report T) : Database T :=
  let (db', inserted) := db.insert_outhash r.outhash_data
  if inserted then
    let unihash := match db'.get_equivalent_for_outhash r.method r.outhash r.taskhash with
      | some row => row.2.unihash
      | none => r.unihash
    (db'.insert_unihash r.method r.taskhash unihash).1
  else db'

theorem finish_await {db' : Database T} {h h' : Handler T}
    (hcall : advance cfg none db h = (db', .await h')) (calls : Nat) :
    finish cfg (calls + 1) db h = finish cfg calls db' h' := by
  rw [finish, hcall]

theorem finish_unihash_row (hcfg : cfg.upstream = false) (calls : Nat) (db : Database T)
    (r : Report T) : finish cfg (calls + 1) db (.unihash_row (.report r)) =
      (db, some ⟨r.method, r.taskhash, match db.get_equivalent r.method r.taskhash with
        | some row => row.unihash
        | none => r.unihash⟩) := by
  simp only [finish, advance, Caller.method, Caller.taskhash, hcfg, Bool.false_eq_true, if_false]
  cases db.get_equivalent r.method r.taskhash <;> rfl

theorem handle_report (hcfg : cfg.upstream = false) (db : Database T) (r : Report T) :
    handle cfg db (.report true r) = (stored db r, some ⟨r.method, r.taskhash,
      match (stored db r).get_equivalent r.method r.taskhash with
      | some row => row.unihash
      | none => r.unihash⟩) := by
  unfold handle stored Request.handler
  dsimp only
  have hfirst : advance cfg none db (.report_outhash r) = ((db.insert_outhash r.outhash_data).1,
      .await (if (db.insert_outhash r.outhash_data).2 then .report_equivalent r
        else .unihash_row (.report r))) := rfl
  rw [finish_await hfirst]
  generalize db.insert_outhash r.outhash_data = x
  obtain ⟨db', inserted⟩ := x
  cases inserted with
  | false => exact finish_unihash_row hcfg 2 db' r
  | true =>
    dsimp only
    rw [if_pos rfl]
    cases hfound : db'.get_equivalent_for_outhash r.method r.outhash r.taskhash with
    | some row =>
      have hsecond : advance cfg none db' (.report_equivalent r) =
          (db', .await (.report_unihash r (some row.2.unihash) row.2.unihash)) := by
        simp only [advance, hfound]
      rw [finish_await hsecond]
      exact finish_unihash_row hcfg 0 _ r
    | none =>
      have hsecond : advance cfg none db' (.report_equivalent r) =
          (db', .await (.report_unihash r none r.unihash)) := by
        simp only [advance, hfound, hcfg, Bool.false_eq_true, if_false]
      rw [finish_await hsecond]
      exact finish_unihash_row hcfg 0 _ r

theorem handle_get (hcfg : cfg.upstream = false) (db : Database T) (method taskhash : Text) :
    handle cfg db (.get method taskhash false) = (db, (db.get_equivalent method taskhash).map
      fun row => ⟨method, taskhash, row.unihash⟩) := by
  simp only [handle, Request.handler, finish, advance, Caller.method, Caller.taskhash, hcfg,
    Bool.false_eq_true, if_false]
  cases db.get_equivalent method taskhash <;> rfl

theorem handle_get_all (hcfg : cfg.upstream = false) (db : Database T) (method taskhash : Text) :
    handle cfg db (.get method taskhash true) =
      (db, (db.get_unihash_by_taskhash_full method taskhash).map
        fun row => ⟨method, taskhash, row.2.unihash⟩) := by
  simp only [handle, Request.handler, finish, advance, hcfg, Bool.false_eq_true, if_false]
  cases db.get_unihash_by_taskhash_full method taskhash <;> rfl

/-! ## When a report is recorded -/

/-- A task hash of which nothing is stored. -/
structure Fresh (db : Database T) (method taskhash : Text) : Prop where
  unihash : db.get_equivalent method taskhash = none
  outhash : ∀ o ∈ db.outhashes.rows, ¬ (o.method = method ∧ o.taskhash = taskhash)

/-- A unihash that a stored row with the output hash maps to. -/
def Mapped (db : Database T) (method outhash unihash : Text) : Prop :=
  ∃ o ∈ db.outhashes.rows, o.method = method ∧ o.outhash = outhash ∧
    ∃ row, db.get_equivalent method o.taskhash = some row ∧ row.unihash = unihash

/-- The report is recorded: it answers a unihash, a following `get` of either kind answers the same
one, and a report of the same output hash by a new task answers one that is stored for this output
hash. -/
def Recorded (cfg : Config T) (db : Database T) (r : Report T) : Prop :=
  ∃ unihash, (handle cfg db (.report true r)).2 = some ⟨r.method, r.taskhash, unihash⟩ ∧
    (∀ all, (handle cfg (handle cfg db (.report true r)).1 (.get r.method r.taskhash all)).2 =
      some ⟨r.method, r.taskhash, unihash⟩) ∧
    ∀ r' : Report T, r'.method = r.method → r'.outhash = r.outhash →
      Fresh (handle cfg db (.report true r)).1 r'.method r'.taskhash →
      ∃ unihash', (handle cfg (handle cfg db (.report true r)).1 (.report true r')).2 =
          some ⟨r'.method, r'.taskhash, unihash'⟩ ∧
        Mapped (handle cfg db (.report true r)).1 r.method r.outhash unihash'

theorem equivalent_for_new_task {r' : Report T} {o : Outhash T} {row : Unihash}
    (ho : o ∈ db.outhashes.rows) (hmethod : o.method = r'.method) (houthash : o.outhash = r'.outhash)
    (hrow : db.get_equivalent r'.method o.taskhash = some row)
    (hnew : Fresh db r'.method r'.taskhash) :
    ∃ unihash, (stored db r').get_equivalent r'.method r'.taskhash =
        some ⟨r'.method, r'.taskhash, unihash, db.gc_mark.getD []⟩ ∧
      Mapped db r'.method r'.outhash unihash := by
  have hinserted : (db.insert_outhash r'.outhash_data).2 = true := by
    rw [insert_outhash_eq_true_iff, Table.get?_eq_none_iff]
    intro x hx hkey
    apply hnew.outhash x hx
    simp only [Outhash.key, Report.outhash_data, Prod.mk.injEq] at hkey
    exact ⟨hkey.1, hkey.2.1⟩
  have hne : o.taskhash ≠ r'.taskhash := by
    intro heq
    rw [heq, hnew.unihash] at hrow
    cases hrow
  have hcand : (o, row) ∈ (db.insert_outhash r'.outhash_data).1.joined.filter fun x =>
      x.1.method = r'.method ∧ x.1.outhash = r'.outhash ∧ x.1.taskhash ≠ r'.taskhash := by
    rw [List.mem_filter, mem_joined]
    refine ⟨⟨mem_insert_outhash.mpr (Or.inl ho), ?_⟩, by simp [hmethod, houthash, hne]⟩
    rw [get_equivalent_insert_outhash, hmethod]
    exact hrow
  obtain ⟨x, hx⟩ := first_created_of_mem hcand
  obtain ⟨hjoined, hmeets⟩ := List.mem_filter.mp (first_created_mem hx)
  obtain ⟨hxrow, hxunihash⟩ := mem_joined.mp hjoined
  simp only [decide_eq_true_eq] at hmeets
  obtain ⟨hxmethod, hxouthash, hxne⟩ := hmeets
  rw [get_equivalent_insert_outhash, hxmethod] at hxunihash
  refine ⟨x.2.unihash, ?_, ?_⟩
  · unfold stored
    dsimp only
    rw [if_pos hinserted]
    unfold Database.get_equivalent_for_outhash
    rw [hx]
    dsimp only
    rw [get_equivalent_insert_unihash, if_pos ⟨rfl, rfl⟩, get_equivalent_insert_outhash,
      hnew.unihash]
    rfl
  · have hold : x.1 ∈ db.outhashes.rows := by
      rcases mem_insert_outhash.mp hxrow with hold | ⟨hnew, -⟩
      · exact hold
      · rw [hnew] at hxne
        exact absurd rfl hxne
    exact ⟨x.1, hold, hxmethod, hxouthash, x.2, hxunihash, rfl⟩

theorem get_of_rows (hcfg : cfg.upstream = false) {o : Outhash T} {row : Unihash} {taskhash : Text}
    (ho : o ∈ db.outhashes.rows) (htaskhash : o.taskhash = taskhash)
    (hrow : db.get_equivalent o.method taskhash = some row) (all : Bool) :
    (handle cfg db (.get o.method taskhash all)).2 = some ⟨o.method, taskhash, row.unihash⟩ := by
  cases all with
  | false =>
    rw [handle_get hcfg, hrow]
    rfl
  | true =>
    subst htaskhash
    have hcand : (o, row) ∈ db.joined.filter fun x =>
        x.1.method = o.method ∧ x.1.taskhash = o.taskhash := by
      rw [List.mem_filter, mem_joined]
      exact ⟨⟨ho, hrow⟩, by simp⟩
    obtain ⟨x, hx⟩ := first_created_of_mem hcand
    obtain ⟨hjoined, hmeets⟩ := List.mem_filter.mp (first_created_mem hx)
    obtain ⟨-, hxunihash⟩ := mem_joined.mp hjoined
    simp only [decide_eq_true_eq] at hmeets
    rw [hmeets.1, hmeets.2, hrow] at hxunihash
    rw [handle_get_all hcfg]
    unfold Database.get_unihash_by_taskhash_full
    rw [hx, Option.map_some, ← Option.some.inj hxunihash]

theorem stored_outhash (db : Database T) (r : Report T) :
    ∃ o ∈ (stored db r).outhashes.rows,
      o.method = r.method ∧ o.taskhash = r.taskhash ∧ o.outhash = r.outhash := by
  have hrow := exists_mem_insert_outhash db r.outhash_data
  unfold stored
  dsimp only
  split
  · exact hrow
  · exact hrow

theorem stored_unihash_iff (db : Database T) (r : Report T) :
    (∃ row, (stored db r).get_equivalent r.method r.taskhash = some row) ↔
      ((∃ o, db.outhashes.get? (r.method, r.taskhash, r.outhash) = some o) →
        ∃ row, db.get_equivalent r.method r.taskhash = some row) := by
  unfold stored
  dsimp only
  cases hget : db.outhashes.get? (r.method, r.taskhash, r.outhash) with
  | none =>
    rw [if_pos (insert_outhash_eq_true_iff.mpr hget), get_equivalent_insert_unihash,
      if_pos ⟨rfl, rfl⟩]
    simp
  | some o =>
    have hnot : ¬ (db.insert_outhash r.outhash_data).2 = true := by
      rw [insert_outhash_eq_true_iff]
      change ¬ db.outhashes.get? (r.method, r.taskhash, r.outhash) = none
      rw [hget]
      simp
    rw [if_neg hnot, get_equivalent_insert_outhash]
    simp

/-- A report is recorded exactly when a task whose output hash is there has its unihash there too. -/
theorem report_is_recorded_iff (cfg : Config T) (hcfg : cfg.upstream = false) (db : Database T)
    (r : Report T) :
    Recorded cfg db r ↔ ((∃ o, db.outhashes.get? (r.method, r.taskhash, r.outhash) = some o) →
      ∃ row, db.get_equivalent r.method r.taskhash = some row) := by
  rw [← stored_unihash_iff]
  unfold Recorded
  rw [handle_report hcfg]
  dsimp only
  constructor
  · rintro ⟨unihash, -, hget, -⟩
    have hget' := hget false
    rw [handle_get hcfg] at hget'
    obtain ⟨row, hrow, -⟩ := Option.map_eq_some_iff.mp hget'
    exact ⟨row, hrow⟩
  · rintro ⟨row, hrow⟩
    obtain ⟨o, ho, hmethod, htaskhash, houthash⟩ := stored_outhash db r
    rw [hrow]
    refine ⟨row.unihash, rfl, ?_, ?_⟩
    · intro all
      rw [← hmethod]
      apply get_of_rows hcfg ho htaskhash
      rw [hmethod]
      exact hrow
    · intro r' hmethod' houthash' hnew
      have hrow' : (stored db r).get_equivalent r'.method o.taskhash = some row := by
        rw [hmethod', htaskhash]
        exact hrow
      obtain ⟨unihash, hstored, hmapped⟩ := equivalent_for_new_task ho (hmethod.trans hmethod'.symm)
        (houthash.trans houthash'.symm) hrow' hnew
      refine ⟨unihash, ?_, ?_⟩
      · rw [handle_report hcfg, hstored]
      · rw [← hmethod', ← houthash']
        exact hmapped

/-! ## A report after a collection -/

/-- The database after requests that come one after the other. -/
def serve (cfg : Config T) (db : Database T) (requests : List (Request T)) : Database T :=
  requests.foldl (fun db q => (handle cfg db q).1) db

def alone : Config Nat := ⟨false, fun _ => none⟩

/-- A report of one task and one output hash, with a unihash. -/
def reportOf (unihash : Text) : Report Nat where
  method := text "m"
  taskhash := text "t"
  outhash := text "o"
  unihash := unihash
  created := 0
  fields _ := none

def reported : Database Nat := serve alone .empty [.report true (reportOf (text "u"))]

/-- A collection that keeps nothing deletes the unihash, not the output hash. -/
def collected : Database Nat :=
  serve alone reported [.gc_mark (text "k") [(text "method", .text (text "x"))], .gc_sweep (text "k")]

theorem a_second_report_is_recorded : Recorded alone reported (reportOf (text "v")) := by
  rw [report_is_recorded_iff alone rfl]
  intro _
  have hsome : (reported.get_equivalent (text "m") (text "t")).isSome := by decide +kernel
  exact Option.isSome_iff_exists.mp hsome

/-- A report after the collection answers its own unihash, and the `get` that follows finds none. -/
theorem a_report_after_a_collection_is_lost :
    (handle alone collected (.report true (reportOf (text "v")))).2 =
        some ⟨text "m", text "t", text "v"⟩ ∧
      (handle alone (handle alone collected (.report true (reportOf (text "v")))).1
        (.get (text "m") (text "t") false)).2 = none ∧
      ¬ Recorded alone collected (reportOf (text "v")) := by
  have hget : (handle alone (handle alone collected (.report true (reportOf (text "v")))).1
      (.get (text "m") (text "t") false)).2 = none := by decide +kernel
  refine ⟨by decide +kernel, hget, ?_⟩
  rintro ⟨unihash, -, hfollow, -⟩
  have hsome := hfollow false
  change (handle alone _ (.get (text "m") (text "t") false)).2 = _ at hsome
  rw [hget] at hsome
  cases hsome

end yocto.hash_records
