-- The requests of a hash equivalence server (hashserv/server.py).
import Yocto.HashTables

open yocto.task_ids yocto.ordered_dict yocto.unique_table yocto.hash_tables

namespace yocto.hash_server

/-! ## Requests and handlers -/

/-- The data of a `report`, with the time at which its handler started. -/
structure Report (T : Type) where
  method : Text
  taskhash : Text
  outhash : Text
  unihash : Text
  created : T
  fields : OuthashField → Option Text

/-- What the upstream server replies. There is no output hash when only a unihash was asked for. -/
structure Upstream (T : Type) where
  method : Text
  taskhash : Text
  unihash : Text
  outhash : Option Text
  created : WithBot T
  fields : OuthashField → Option Text

/-- An answer that carries a unihash. -/
structure Answer where
  method : Text
  taskhash : Text
  unihash : Text
  deriving DecidableEq

variable {T : Type}

def Report.outhash_data (r : Report T) : Outhash T :=
  ⟨r.method, r.taskhash, r.outhash, r.created, r.fields⟩

/-- The row that `insert_outhash` makes of a reply. It is ignored without an output hash. -/
def Upstream.outhash_data (d : Upstream T) : Option (Outhash T) :=
  d.outhash.map fun outhash => ⟨d.method, d.taskhash, outhash, d.created, d.fields⟩

/-- Who called `get_unihash`, or `update_unified`: the handler of a `get` or of a `report`. -/
inductive Caller (T : Type)
  | get (method taskhash : Text)
  | report (r : Report T)

def Caller.method : Caller T → Text
  | .get method _ => method
  | .report r => r.method

def Caller.taskhash : Caller T → Text
  | .get _ taskhash => taskhash
  | .report r => r.taskhash

def Caller.answer (c : Caller T) (unihash : Text) : Answer := ⟨c.method, c.taskhash, unihash⟩

/-- The call that a handler is waiting for. -/
inductive Handler (T : Type)
  -- handle_report
  | report_outhash (r : Report T)
  | report_equivalent (r : Report T)
  | report_upstream (r : Report T)
  | report_unihash (r : Report T) (row : Option Text) (unihash : Text)
  -- get_unihash
  | unihash_row (c : Caller T)
  | unihash_upstream (c : Caller T)
  | unihash_store (c : Caller T) (d : Upstream T)
  -- get_unihash, with fetch_all
  | full_row (method taskhash : Text)
  | full_upstream (method taskhash : Text)
  -- report_readonly
  | readonly_row (r : Report T)
  | readonly_upstream (r : Report T)
  -- update_unified
  | unified_unihash (c : Caller T) (d : Upstream T)
  | unified_outhash (c : Caller T) (d : Upstream T)
  -- handle_equivreport
  | equiv_unihash (method taskhash unihash : Text)
  | equiv_row (method taskhash unihash : Text)
  -- handle_get_stream
  | stream_row (method taskhash : Text)
  | stream_upstream (method taskhash : Text)
  -- handle_gc_mark, handle_gc_sweep, handle_remove, handle_clean_unused
  | gc_mark (mark : Text) (condition : Condition)
  | gc_current (mark : Text)
  | gc_sweep (mark : Text)
  | remove (condition : Condition)
  | clean_unused (oldest : T)

/-- A message of a client. A report counts as one of a client that may report or not. -/
inductive Request (T : Type)
  | report (may_report : Bool) (r : Report T)
  | report_equiv (method taskhash unihash : Text)
  | get (method taskhash : Text) (all : Bool)
  | get_stream (method taskhash : Text)
  | gc_mark (mark : Text) (condition : Condition)
  | gc_sweep (mark : Text)
  | remove (condition : Condition)
  | clean_unused (oldest : T)

def Request.handler : Request T → Handler T
  | .report true r => .report_outhash r
  | .report false r => .readonly_row r
  | .report_equiv method taskhash unihash => .equiv_unihash method taskhash unihash
  | .get method taskhash true => .full_row method taskhash
  | .get method taskhash false => .unihash_row (.get method taskhash)
  | .get_stream method taskhash => .stream_row method taskhash
  | .gc_mark mark condition => .gc_mark mark condition
  | .gc_sweep mark => .gc_current mark
  | .remove condition => .remove condition
  | .clean_unused oldest => .clean_unused oldest

/-! ## From one call to the next -/

/-- How a handler goes on after a call. -/
inductive Outcome (T : Type)
  | await (h : Handler T)
  | answer (a : Answer)
  /-- It answers, and puts its key in the backfill queue. -/
  | backfill (a : Answer)
  /-- It swept the unihashes. -/
  | swept
  /-- It ends with an answer that carries no unihash, or with an exception. -/
  | over

/-- Whether there is an upstream server, and what a `created` column compares with for a value of a
condition. -/
structure Config (T : Type) where
  upstream : Bool
  created_of : Value → Option T

section
variable [LinearOrder T]

/-- The awaited call returns, and the handler runs to its next one. -/
def advance (cfg : Config T) (reply : Option (Upstream T)) (db : Database T) :
    Handler T → Database T × Outcome T
  | .report_outhash r =>
    let (db, inserted) := db.insert_outhash r.outhash_data
    (db, .await (if inserted then .report_equivalent r else .unihash_row (.report r)))
  | .report_equivalent r =>
    match db.get_equivalent_for_outhash r.method r.outhash r.taskhash with
    | some row => (db, .await (.report_unihash r (some row.2.unihash) row.2.unihash))
    | none =>
      (db, .await (if cfg.upstream then .report_upstream r else .report_unihash r none r.unihash))
  | .report_upstream r =>
    match reply with
    | some upstream_data => (db, .await (.report_unihash r none upstream_data.unihash))
    | none => (db, .await (.report_unihash r none r.unihash))
  | .report_unihash r _ unihash =>
    ((db.insert_unihash r.method r.taskhash unihash).1, .await (.unihash_row (.report r)))
  | .unihash_row c =>
    match db.get_equivalent c.method c.taskhash with
    | some row => (db, .answer (c.answer row.unihash))
    | none =>
      if cfg.upstream then (db, .await (.unihash_upstream c))
      else match c with
        | .get _ _ => (db, .over)
        | .report r => (db, .answer (c.answer r.unihash))
  | .unihash_upstream c =>
    match reply with
    | some d => (db, .await (.unihash_store c d))
    | none => (db, .over)
  | .unihash_store c d =>
    ((db.insert_unihash d.method d.taskhash d.unihash).1, .answer (c.answer d.unihash))
  | .full_row method taskhash =>
    match db.get_unihash_by_taskhash_full method taskhash with
    | some row => (db, .answer ⟨method, taskhash, row.2.unihash⟩)
    | none => (db, if cfg.upstream then .await (.full_upstream method taskhash) else .over)
  | .full_upstream method taskhash =>
    match reply with
    | some d => (db, .await (.unified_unihash (.get method taskhash) d))
    | none => (db, .over)
  | .readonly_row r =>
    match db.get_unihash_by_outhash r.method r.outhash with
    | some row => (db, .answer ⟨r.method, r.taskhash, row.2.unihash⟩)
    | none =>
      if cfg.upstream then (db, .await (.readonly_upstream r))
      else (db, .answer ⟨r.method, r.taskhash, r.unihash⟩)
  | .readonly_upstream r =>
    match reply with
    | some d => (db, .await (.unified_unihash (.report r) d))
    | none => (db, .answer ⟨r.method, r.taskhash, r.unihash⟩)
  | .unified_unihash c d =>
    ((db.insert_unihash d.method d.taskhash d.unihash).1, .await (.unified_outhash c d))
  | .unified_outhash c d =>
    match d.outhash_data with
    | some row => ((db.insert_outhash row).1, .answer (c.answer d.unihash))
    | none => (db, .answer (c.answer d.unihash))
  | .equiv_unihash method taskhash unihash =>
    ((db.insert_unihash method taskhash unihash).1, .await (.equiv_row method taskhash unihash))
  | .equiv_row method taskhash _ =>
    match db.get_equivalent method taskhash with
    | some row => (db, .answer ⟨method, taskhash, row.unihash⟩)
    | none => (db, .over)
  | .stream_row method taskhash =>
    match db.get_equivalent method taskhash with
    | some row => (db, .answer ⟨method, taskhash, row.unihash⟩)
    | none => (db, if cfg.upstream then .await (.stream_upstream method taskhash) else .over)
  | .stream_upstream method taskhash =>
    match reply with
    | some upstream =>
      if upstream.unihash = [] then (db, .over)
      else (db, .backfill ⟨method, taskhash, upstream.unihash⟩)
    | none => (db, .over)
  | .gc_mark mark condition =>
    ((db.gc_mark_where mark (make_condition UNIHASH_TABLE_COLUMNS condition)).1, .over)
  | .gc_current mark =>
    (db, if db.gc_mark.getD [] = [] ∨ db.gc_mark ≠ some mark then .over else .await (.gc_sweep mark))
  | .gc_sweep _ => (db.gc_sweep.1, .swept)
  | .remove condition => ((db.remove cfg.created_of condition).1, .over)
  | .clean_unused oldest => ((db.clean_unused oldest).1, .over)

/-- What a call does to the database. -/
def effect (cfg : Config T) (db : Database T) : Handler T → Database T
  | .report_outhash r => (db.insert_outhash r.outhash_data).1
  | .report_unihash r _ unihash => (db.insert_unihash r.method r.taskhash unihash).1
  | .unihash_store _ d => (db.insert_unihash d.method d.taskhash d.unihash).1
  | .unified_unihash _ d => (db.insert_unihash d.method d.taskhash d.unihash).1
  | .unified_outhash _ d =>
    match d.outhash_data with
    | some row => (db.insert_outhash row).1
    | none => db
  | .equiv_unihash method taskhash unihash => (db.insert_unihash method taskhash unihash).1
  | .gc_mark mark condition =>
    (db.gc_mark_where mark (make_condition UNIHASH_TABLE_COLUMNS condition)).1
  | .gc_sweep _ => db.gc_sweep.1
  | .remove condition => (db.remove cfg.created_of condition).1
  | .clean_unused oldest => (db.clean_unused oldest).1
  | _ => db

theorem advance_effect (cfg : Config T) (reply : Option (Upstream T)) (db : Database T)
    (h : Handler T) : (advance cfg reply db h).1 = effect cfg db h := by
  cases h with
  | report_equivalent r =>
    simp only [advance, effect]
    split <;> rfl
  | report_upstream r => cases reply <;> rfl
  | unihash_row c =>
    simp only [advance, effect]
    split
    · rfl
    · split
      · rfl
      · cases c <;> rfl
  | unihash_upstream c => cases reply <;> rfl
  | full_row method taskhash =>
    simp only [advance, effect]
    split <;> rfl
  | full_upstream method taskhash => cases reply <;> rfl
  | readonly_row r =>
    simp only [advance, effect]
    split
    · rfl
    · split <;> rfl
  | readonly_upstream r => cases reply <;> rfl
  | unified_outhash c d =>
    simp only [advance, effect]
    split <;> rfl
  | equiv_row method taskhash unihash =>
    simp only [advance, effect]
    split <;> rfl
  | stream_row method taskhash =>
    simp only [advance, effect]
    split <;> rfl
  | stream_upstream method taskhash =>
    simp only [advance, effect]
    split
    · split <;> rfl
    · rfl
  | _ => rfl

end

/-! ## The server -/

inductive Worker (T : Type)
  | queue
  | upstream (method taskhash : Text)
  | unihash (d : Upstream T)

structure Server (T : Type) where
  db : Database T
  clients : Nat → Option (Handler T)
  backfill_queue : List (Text × Text)
  worker : Worker T
  /-- All answers so far that carry a unihash. -/
  answers : List Answer

def Server.init : Server T where
  db := .empty
  clients _ := none
  backfill_queue := []
  worker := .queue
  answers := []

inductive Action (T : Type)
  | request (client : Nat) (q : Request T)
  | advance (client : Nat) (reply : Option (Upstream T))
  | worker (reply : Option (Upstream T))

/-- What becomes of the server when a handler goes on. -/
def Server.after (s : Server T) (client : Nat) (db : Database T) : Outcome T → Server T
  | .await h => { s with db, clients := Function.update s.clients client (some h) }
  | .answer a =>
    { s with db, clients := Function.update s.clients client none, answers := s.answers ++ [a] }
  | .backfill a =>
    { s with
      db
      clients := Function.update s.clients client none
      answers := s.answers ++ [a]
      backfill_queue := s.backfill_queue ++ [(a.method, a.taskhash)] }
  | .swept => { s with db, clients := Function.update s.clients client none }
  | .over => { s with db, clients := Function.update s.clients client none }

/-- A turn of `backfill_worker_task`. -/
def work (reply : Option (Upstream T)) (s : Server T) : Option (Server T) :=
  match s.worker with
  | .queue =>
    match s.backfill_queue with
    | [] => none
    | (method, taskhash) :: rest =>
      some { s with backfill_queue := rest, worker := .upstream method taskhash }
  | .upstream _ _ =>
    match reply with
    | some d => some { s with worker := .unihash d }
    | none => some { s with worker := .queue }
  | .unihash d =>
    some { s with db := (s.db.insert_unihash d.method d.taskhash d.unihash).1, worker := .queue }

/-- The call that the client's handler waits for next. -/
def Outcome.next : Outcome T → Option (Handler T)
  | .await h => some h
  | _ => none

def Outcome.given : Outcome T → Option Answer
  | .answer a => some a
  | .backfill a => some a
  | _ => none

@[simp] theorem after_clients (s : Server T) (client : Nat) (db : Database T) (o : Outcome T) :
    (s.after client db o).clients = Function.update s.clients client o.next := by
  cases o <;> rfl

@[simp] theorem after_answers (s : Server T) (client : Nat) (db : Database T) (o : Outcome T) :
    (s.after client db o).answers = s.answers ++ o.given.toList := by
  cases o <;> simp [Server.after, Outcome.given]

@[simp] theorem after_worker (s : Server T) (client : Nat) (db : Database T) (o : Outcome T) :
    (s.after client db o).worker = s.worker := by
  cases o <;> rfl

@[simp] theorem after_db (s : Server T) (client : Nat) (db : Database T) (o : Outcome T) :
    (s.after client db o).db = db := by
  cases o <;> rfl

def step [LinearOrder T] (cfg : Config T) (s : Server T) : Action T → Option (Server T)
  | .request client q =>
    match s.clients client with
    | none => some { s with clients := Function.update s.clients client (some q.handler) }
    | some _ => none
  | .advance client reply =>
    match s.clients client with
    | none => none
    | some h =>
      let (db, outcome) := advance cfg reply s.db h
      some (s.after client db outcome)
  | .worker reply => work reply s

end yocto.hash_server
