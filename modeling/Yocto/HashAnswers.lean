-- The answers of a hash server. Without `remove` and `gc-sweep` a stored unihash stays, so all
-- answers that are read from the table agree.
import Yocto.HashServer
import Yocto.Runs

open yocto.task_ids yocto.ordered_dict yocto.unique_table yocto.hash_tables yocto.hash_server
open yocto.runs

namespace yocto.hash_answers

variable {T : Type}

/-! ## What a call stores -/

/-- The unihash that a call inserts, unless there is one. -/
def stores : Handler T → Option Answer
  | .report_unihash r _ unihash => some ⟨r.method, r.taskhash, unihash⟩
  | .unihash_store _ d => some ⟨d.method, d.taskhash, d.unihash⟩
  | .unified_unihash _ d => some ⟨d.method, d.taskhash, d.unihash⟩
  | .equiv_unihash method taskhash unihash => some ⟨method, taskhash, unihash⟩
  | _ => none

/-- The calls of `report`, `report-equiv`, `get` and `get-stream`. -/
def Handler.asks : Handler T → Prop
  | .gc_mark _ _ => False
  | .gc_current _ => False
  | .gc_sweep _ => False
  | .remove _ => False
  | .clean_unused _ => False
  | _ => True

def Stored (db : Database T) (method taskhash : Text) : Prop :=
  ∃ row, db.get_equivalent method taskhash = some row

/-- The rows of `unihashes_v3` stay, and a new one is that of an insertion. -/
structure Grows (a : Option Answer) (db db' : Database T) : Prop where
  kept : ∀ {m t row}, db.get_equivalent m t = some row → db'.get_equivalent m t = some row
  new : ∀ {m t row}, db'.get_equivalent m t = some row → db.get_equivalent m t = some row ∨
    (db.get_equivalent m t = none ∧ a = some ⟨m, t, row.unihash⟩)
  stored : ∀ x, a = some x → Stored db' x.method x.taskhash

variable {db db' : Database T} {method taskhash unihash : Text}

theorem Grows.refl (db : Database T) : Grows none db db :=
  ⟨id, Or.inl, fun _ h => by cases h⟩

theorem insert_unihash_grows (db : Database T) (method taskhash unihash : Text) :
    Grows (some ⟨method, taskhash, unihash⟩) db (db.insert_unihash method taskhash unihash).1 := by
  constructor
  · intro m t row h
    rw [get_equivalent_insert_unihash]
    split
    · rw [h, Option.getD_some]
    · exact h
  · intro m t row h
    rw [get_equivalent_insert_unihash] at h
    split at h
    · rename_i heq
      obtain ⟨rfl, rfl⟩ := heq
      cases hold : db.get_equivalent m t with
      | none =>
        rw [hold, Option.getD_none] at h
        obtain rfl := Option.some.inj h
        exact Or.inr ⟨rfl, rfl⟩
      | some old =>
        rw [hold, Option.getD_some] at h
        exact Or.inl h
    · exact Or.inl h
  · intro x hx
    obtain rfl := Option.some.inj hx
    exact ⟨_, by rw [get_equivalent_insert_unihash, if_pos ⟨rfl, rfl⟩]⟩

theorem insert_outhash_grows (db : Database T) (row : Outhash T) :
    Grows none db (db.insert_outhash row).1 :=
  ⟨id, Or.inl, fun _ h => by cases h⟩

theorem Stored.grows {a : Option Answer} (h : Stored db method taskhash) (hgrows : Grows a db db') :
    Stored db' method taskhash := by
  obtain ⟨row, hrow⟩ := h
  exact ⟨row, hgrows.kept hrow⟩

theorem effect_grows [LinearOrder T] {cfg : Config T} {h : Handler T} (hasks : Handler.asks h) :
    Grows (stores h) db (effect cfg db h) := by
  cases h with
  | report_outhash r => exact insert_outhash_grows db _
  | report_unihash r row unihash => exact insert_unihash_grows db _ _ _
  | unihash_store c d => exact insert_unihash_grows db _ _ _
  | unified_unihash c d => exact insert_unihash_grows db _ _ _
  | unified_outhash c d =>
    unfold effect stores
    dsimp only
    split
    · exact insert_outhash_grows db _
    · exact Grows.refl db
  | equiv_unihash method taskhash unihash => exact insert_unihash_grows db _ _ _
  | gc_mark mark condition => cases hasks
  | gc_current mark => cases hasks
  | gc_sweep mark => cases hasks
  | remove condition => cases hasks
  | clean_unused oldest => cases hasks
  | _ => exact Grows.refl db

/-! ## When an answer does no harm -/

/-- The unihash stored for a task. -/
def Holds (db : Database T) (a : Answer) : Prop :=
  ∃ row, db.get_equivalent a.method a.taskhash = some row ∧ row.unihash = a.unihash

theorem Holds.grows {a : Option Answer} {x : Answer} (h : Holds db x) (hgrows : Grows a db db') :
    Holds db' x := by
  obtain ⟨row, hrow, hunihash⟩ := h
  exact ⟨row, hgrows.kept hrow, hunihash⟩

/-- All earlier answers for the task are the same. -/
def Repeats (s : Server T) (a : Answer) : Prop :=
  ∀ b ∈ s.answers, b.method = a.method → b.taskhash = a.taskhash → b.unihash = a.unihash

/-- A unihash may be inserted when there is one, or when all answers for its task carried it. -/
def MayStore (s : Server T) (a : Answer) : Prop :=
  Stored s.db a.method a.taskhash ∨ Repeats s a

/-- A unihash may be answered before one is stored when all answers for its task carried it. -/
def MayPromise (s : Server T) (a : Answer) : Prop :=
  Holds s.db a ∨ (¬ Stored s.db a.method a.taskhash ∧ Repeats s a)

section
variable [LinearOrder T]

/-- The condition on a call of a client's handler. -/
def CallOk (cfg : Config T) (s : Server T) (reply : Option (Upstream T)) : Handler T → Prop
  | .report_unihash r _ unihash => MayStore s ⟨r.method, r.taskhash, unihash⟩
  | .equiv_unihash method taskhash unihash => MayStore s ⟨method, taskhash, unihash⟩
  | .unified_unihash _ d => MayStore s ⟨d.method, d.taskhash, d.unihash⟩
  -- the reply is answered, whether it could be stored or not
  | .unihash_store c d =>
    d.method = c.method ∧ d.taskhash = c.taskhash ∧ MayPromise s (c.answer d.unihash)
  | .unified_outhash c d => Holds s.db (c.answer d.unihash)
  | .stream_upstream method taskhash =>
    ∀ d ∈ reply, d.unihash ≠ [] → MayPromise s ⟨method, taskhash, d.unihash⟩
  -- a report whose output hash was there, and no unihash
  | .unihash_row (.report r) =>
    cfg.upstream = false → ¬ Stored s.db r.method r.taskhash →
      Repeats s ⟨r.method, r.taskhash, r.unihash⟩
  -- a report of a client that may not report
  | .readonly_row r =>
    match s.db.get_unihash_by_outhash r.method r.outhash with
    | some row => Holds s.db ⟨r.method, r.taskhash, row.2.unihash⟩
    | none => cfg.upstream = false → Holds s.db ⟨r.method, r.taskhash, r.unihash⟩
  | .readonly_upstream r => reply = none → Holds s.db ⟨r.method, r.taskhash, r.unihash⟩
  | _ => True

/-- The condition on a turn of the backfill worker. -/
def WorkOk (s : Server T) (reply : Option (Upstream T)) : Prop :=
  match s.worker with
  | .queue => True
  | .upstream method taskhash => Stored s.db method taskhash ∨
    ∃ d ∈ reply, d.method = method ∧ d.taskhash = taskhash
  | .unihash d => MayStore s ⟨d.method, d.taskhash, d.unihash⟩

/-- The steps of a run: requests of the four kinds, and calls that meet the condition. -/
def StepOk (cfg : Config T) (s : Server T) : Action T → Prop
  | .request _ q => Handler.asks q.handler
  | .advance client reply => ∀ h, s.clients client = some h → CallOk cfg s reply h
  | .worker reply => WorkOk s reply

end

instance : Decidable (Stored db method taskhash) :=
  decidable_of_iff ((db.get_equivalent method taskhash).isSome = true) Option.isSome_iff_exists

instance (a : Answer) : Decidable (Holds db a) :=
  decidable_of_iff (∃ row ∈ db.get_equivalent a.method a.taskhash, row.unihash = a.unihash) Iff.rfl

instance (s : Server T) (a : Answer) : Decidable (Repeats s a) :=
  inferInstanceAs (Decidable (∀ b ∈ s.answers, _))

instance (s : Server T) (a : Answer) : Decidable (MayStore s a) :=
  inferInstanceAs (Decidable (_ ∨ _))

instance (s : Server T) (a : Answer) : Decidable (MayPromise s a) :=
  inferInstanceAs (Decidable (_ ∨ _))

instance : @DecidablePred (Handler T) Handler.asks
  | .gc_mark _ _ | .gc_current _ | .gc_sweep _ | .remove _ | .clean_unused _ =>
    inferInstanceAs (Decidable False)
  | .report_outhash _ | .report_equivalent _ | .report_upstream _ | .report_unihash _ _ _
  | .unihash_row _ | .unihash_upstream _ | .unihash_store _ _ | .full_row _ _ | .full_upstream _ _
  | .readonly_row _ | .readonly_upstream _ | .unified_unihash _ _ | .unified_outhash _ _
  | .equiv_unihash _ _ _ | .equiv_row _ _ _ | .stream_row _ _ | .stream_upstream _ _ =>
    inferInstanceAs (Decidable True)

instance [LinearOrder T] (cfg : Config T) (s : Server T) (reply : Option (Upstream T)) :
    DecidablePred (CallOk cfg s reply)
  | .report_unihash _ _ _ | .equiv_unihash _ _ _ | .unified_unihash _ _ =>
    inferInstanceAs (Decidable (MayStore s _))
  | .unihash_store _ _ => inferInstanceAs (Decidable (_ ∧ _ ∧ MayPromise s _))
  | .unified_outhash _ _ => inferInstanceAs (Decidable (Holds s.db _))
  | .stream_upstream method taskhash => inferInstanceAs (Decidable
      (∀ d ∈ reply, d.unihash ≠ [] → MayPromise s ⟨method, taskhash, d.unihash⟩))
  | .unihash_row (.report r) => inferInstanceAs (Decidable
      (cfg.upstream = false → ¬ Stored s.db r.method r.taskhash → Repeats s _))
  | .readonly_row r =>
    match hrow : s.db.get_unihash_by_outhash r.method r.outhash with
    | some row => decidable_of_iff (Holds s.db ⟨r.method, r.taskhash, row.2.unihash⟩)
        (by simp only [CallOk, hrow])
    | none => decidable_of_iff
        (cfg.upstream = false → Holds s.db ⟨r.method, r.taskhash, r.unihash⟩)
        (by simp only [CallOk, hrow])
  | .readonly_upstream r => inferInstanceAs (Decidable
      (reply = none → Holds s.db ⟨r.method, r.taskhash, r.unihash⟩))
  | .report_outhash _ | .report_equivalent _ | .report_upstream _ | .unihash_row (.get _ _)
  | .unihash_upstream _ | .full_row _ _ | .full_upstream _ _ | .equiv_row _ _ _ | .stream_row _ _
  | .gc_mark _ _ | .gc_current _ | .gc_sweep _ | .remove _ | .clean_unused _ =>
    inferInstanceAs (Decidable True)

instance (s : Server T) (reply : Option (Upstream T)) : Decidable (WorkOk s reply) :=
  match hworker : s.worker with
  | .queue => decidable_of_iff True (by simp only [WorkOk, hworker])
  | .upstream method taskhash => decidable_of_iff
      (Stored s.db method taskhash ∨ ∃ d ∈ reply, d.method = method ∧ d.taskhash = taskhash)
      (by simp only [WorkOk, hworker])
  | .unihash d => decidable_of_iff (MayStore s ⟨d.method, d.taskhash, d.unihash⟩)
      (by simp only [WorkOk, hworker])

instance [LinearOrder T] (cfg : Config T) (s : Server T) : DecidablePred (StepOk cfg s)
  | .request _ q => inferInstanceAs (Decidable (Handler.asks q.handler))
  | .advance client reply =>
    decidable_of_iff (∀ h ∈ s.clients client, CallOk cfg s reply h) Iff.rfl
  | .worker reply => inferInstanceAs (Decidable (WorkOk s reply))

/-! ## The invariant -/

/-- A report that has inserted its output hash, and will insert a unihash. -/
def WillStore (method taskhash : Text) : Handler T → Prop
  | .report_equivalent r => r.method = method ∧ r.taskhash = taskhash
  | .report_upstream r => r.method = method ∧ r.taskhash = taskhash
  | .report_unihash r _ _ => r.method = method ∧ r.taskhash = taskhash
  | _ => False

/-- A task has a unihash, or a report is about to insert one. -/
def Settled (s : Server T) (method taskhash : Text) : Prop :=
  Stored s.db method taskhash ∨
    ∃ client h, s.clients client = some h ∧ WillStore method taskhash h

/-- The backfill is about to insert a unihash. -/
def Queued (s : Server T) (method taskhash : Text) : Prop :=
  (method, taskhash) ∈ s.backfill_queue ∨
    match s.worker with
    | .queue => False
    | .upstream m t => m = method ∧ t = taskhash
    | .unihash d => d.method = method ∧ d.taskhash = taskhash

/-- The output hash of a report is there. -/
def Inserted (db : Database T) (r : Report T) : Prop :=
  ∃ o ∈ db.outhashes.rows, o.method = r.method ∧ o.taskhash = r.taskhash

def Reliable (db : Database T) : Handler T → Prop
  | .report_equivalent r => Inserted db r
  | .report_upstream r => Inserted db r
  | .report_unihash r _ _ => Inserted db r
  | .unihash_row (.report r) => Inserted db r
  | .unified_outhash _ d => Stored db d.method d.taskhash
  | .equiv_row method taskhash _ => Stored db method taskhash
  | _ => True

structure Stable (s : Server T) : Prop where
  agree : ∀ a ∈ s.answers, Repeats s a
  rows : ∀ a ∈ s.answers, ∀ row, s.db.get_equivalent a.method a.taskhash = some row →
    row.unihash = a.unihash
  promised : ∀ a ∈ s.answers, Settled s a.method a.taskhash ∨ Queued s a.method a.taskhash
  outhashes : ∀ o ∈ s.db.outhashes.rows, Settled s o.method o.taskhash
  asks : ∀ client h, s.clients client = some h → Handler.asks h
  reliable : ∀ client h, s.clients client = some h → Reliable s.db h

/-! ## A call of a handler -/

/-- What a call of a client's handler does, apart from its insertion. -/
structure Moves (s : Server T) (h : Handler T) (db' : Database T) (o : Outcome T) : Prop where
  kept : ∀ x ∈ s.db.outhashes.rows, x ∈ db'.outhashes.rows
  settles : ∀ m t, WillStore m t h → Stored db' m t ∨ ∃ h' ∈ o.next, WillStore m t h'
  new : ∀ x ∈ db'.outhashes.rows, x ∈ s.db.outhashes.rows ∨ Stored db' x.method x.taskhash ∨
    ∃ h' ∈ o.next, WillStore x.method x.taskhash h'
  next : ∀ h' ∈ o.next, Handler.asks h' ∧ Reliable db' h'
  answer : ∀ a, o = .answer a → Holds db' a ∨
    (¬ Stored db' a.method a.taskhash ∧ Repeats s a ∧ Settled s a.method a.taskhash)
  backfill : ∀ a, o = .backfill a → Holds db' a ∨
    (¬ Stored db' a.method a.taskhash ∧ Repeats s a)

variable {s s' : Server T}

theorem Moves.of_goes_on {h h' : Handler T} (hwill : ∀ m t, WillStore m t h → WillStore m t h')
    (hnext : Handler.asks h' ∧ Reliable s.db h') : Moves s h s.db (.await h') where
  kept _ hx := hx
  settles m t hw := Or.inr ⟨h', rfl, hwill m t hw⟩
  new _ hx := Or.inl hx
  next := by
    rintro _ ⟨rfl⟩
    exact hnext
  answer _ ho := by cases ho
  backfill _ ho := by cases ho

theorem Moves.of_answer {h : Handler T} {a : Answer} (hwill : ∀ m t, ¬ WillStore m t h)
    (hholds : Holds s.db a) : Moves s h s.db (.answer a) where
  kept _ hx := hx
  settles m t hw := absurd hw (hwill m t)
  new _ hx := Or.inl hx
  next _ hh := by cases hh
  answer _ ho := by
    obtain rfl := Outcome.answer.inj ho
    exact Or.inl hholds
  backfill _ ho := by cases ho

theorem Moves.of_over {h : Handler T} (hwill : ∀ m t, ¬ WillStore m t h) : Moves s h s.db .over where
  kept _ hx := hx
  settles m t hw := absurd hw (hwill m t)
  new _ hx := Or.inl hx
  next _ hh := by cases hh
  answer _ ho := by cases ho
  backfill _ ho := by cases ho

theorem Moves.of_promise {h : Handler T} {a : Answer} (hwill : ∀ m t, ¬ WillStore m t h)
    (hnot : ¬ Stored s.db a.method a.taskhash) (hrepeats : Repeats s a)
    (hsettled : Settled s a.method a.taskhash) : Moves s h s.db (.answer a) where
  kept _ hx := hx
  settles m t hw := absurd hw (hwill m t)
  new _ hx := Or.inl hx
  next _ hh := by cases hh
  answer _ ho := by
    obtain rfl := Outcome.answer.inj ho
    exact Or.inr ⟨hnot, hrepeats, hsettled⟩
  backfill _ ho := by cases ho

theorem Moves.of_insert {h h' : Handler T} {method taskhash unihash : Text}
    (hwill : ∀ m t, WillStore m t h → m = method ∧ t = taskhash)
    (hnext : Handler.asks h' ∧ Reliable (s.db.insert_unihash method taskhash unihash).1 h') :
    Moves s h (s.db.insert_unihash method taskhash unihash).1 (.await h') where
  kept _ hx := hx
  settles m t hw := by
    obtain ⟨rfl, rfl⟩ := hwill m t hw
    exact Or.inl ((insert_unihash_grows s.db _ _ _).stored _ rfl)
  new _ hx := Or.inl hx
  next := by
    rintro _ ⟨rfl⟩
    exact hnext
  answer _ ho := by cases ho
  backfill _ ho := by cases ho

theorem report_outhash_moves (s : Server T) (r : Report T) :
    Moves s (.report_outhash r) (s.db.insert_outhash r.outhash_data).1
      (.await (if (s.db.insert_outhash r.outhash_data).2 then .report_equivalent r
        else .unihash_row (.report r))) := by
  have hold : ∀ x ∈ s.db.outhashes.rows, x ∈ (s.db.insert_outhash r.outhash_data).1.outhashes.rows :=
    fun x hx => mem_insert_outhash.mpr (Or.inl hx)
  cases hget : s.db.outhashes.get? r.outhash_data.key with
  | none =>
    rw [if_pos (insert_outhash_eq_true_iff.mpr hget)]
    constructor
    · exact hold
    · exact fun m t hw => hw.elim
    · intro x hx
      rcases mem_insert_outhash.mp hx with hx | ⟨rfl, -⟩
      · exact Or.inl hx
      · exact Or.inr (Or.inr ⟨_, rfl, rfl, rfl⟩)
    · rintro _ ⟨rfl⟩
      exact ⟨trivial, r.outhash_data, mem_insert_outhash.mpr (Or.inr ⟨rfl, hget⟩), rfl, rfl⟩
    · intro a ho
      cases ho
    · intro a ho
      cases ho
  | some o =>
    have hnot : ¬ (s.db.insert_outhash r.outhash_data).2 = true := by
      rw [insert_outhash_eq_true_iff, hget]
      simp
    rw [if_neg hnot]
    obtain ⟨ho, hkey⟩ := Table.get?_eq_some_iff.mp hget
    simp only [Outhash.key, Report.outhash_data, Prod.mk.injEq] at hkey
    constructor
    · exact hold
    · exact fun m t hw => hw.elim
    · intro x hx
      rcases mem_insert_outhash.mp hx with hx | ⟨-, hnone⟩
      · exact Or.inl hx
      · rw [hget] at hnone
        cases hnone
    · rintro _ ⟨rfl⟩
      exact ⟨trivial, o, hold o ho, hkey.1, hkey.2.1⟩
    · intro a ho
      cases ho
    · intro a ho
      cases ho

section
variable [LinearOrder T] {cfg : Config T} {reply : Option (Upstream T)}

theorem moves (hs : Stable s) {client : Nat} {h : Handler T} (hclient : s.clients client = some h)
    (hok : CallOk cfg s reply h) :
    Moves s h (advance cfg reply s.db h).1 (advance cfg reply s.db h).2 := by
  have hreliable := hs.reliable client h hclient
  cases h with
  | report_outhash r => exact report_outhash_moves s r
  | report_equivalent r =>
    simp only [advance]
    split
    · exact .of_goes_on (fun m t hw => hw) ⟨trivial, hreliable⟩
    · split
      · exact .of_goes_on (fun m t hw => hw) ⟨trivial, hreliable⟩
      · exact .of_goes_on (fun m t hw => hw) ⟨trivial, hreliable⟩
  | report_upstream r =>
    cases reply with
    | some d => exact .of_goes_on (fun m t hw => hw) ⟨trivial, hreliable⟩
    | none => exact .of_goes_on (fun m t hw => hw) ⟨trivial, hreliable⟩
  | report_unihash r row unihash =>
    refine .of_insert ?_ ⟨trivial, hreliable⟩
    rintro m t ⟨rfl, rfl⟩
    exact ⟨rfl, rfl⟩
  | unihash_row c =>
    simp only [advance]
    split
    · rename_i row hrow
      exact .of_answer (fun m t hw => hw) ⟨row, hrow, rfl⟩
    · rename_i hnone
      split
      · exact .of_goes_on (fun m t hw => hw.elim) ⟨trivial, trivial⟩
      · rename_i hup
        cases c with
        | get method taskhash => exact .of_over (fun m t hw => hw)
        | report r =>
          obtain ⟨o, ho, hmethod, htaskhash⟩ := hreliable
          have hnot : ¬ Stored s.db r.method r.taskhash := by
            rintro ⟨row, hrow⟩
            exact Option.some_ne_none row (hrow.symm.trans hnone)
          have hsettled := hs.outhashes o ho
          rw [hmethod, htaskhash] at hsettled
          exact .of_promise (fun m t hw => hw) hnot (hok (by simpa using hup) hnot) hsettled
  | unihash_upstream c =>
    cases reply with
    | some d => exact .of_goes_on (fun m t hw => hw.elim) ⟨trivial, trivial⟩
    | none => exact .of_over (fun m t hw => hw)
  | unihash_store c d =>
    obtain ⟨hmethod, htaskhash, hpromise⟩ := hok
    have hgrows := insert_unihash_grows s.db d.method d.taskhash d.unihash
    have hholds : Holds (s.db.insert_unihash d.method d.taskhash d.unihash).1
        (c.answer d.unihash) := by
      rcases hpromise with ⟨row, hrow, hunihash⟩ | ⟨hnot, -⟩
      · exact ⟨row, hgrows.kept hrow, hunihash⟩
      · have hnone : s.db.get_equivalent c.method c.taskhash = none :=
          Option.eq_none_iff_forall_ne_some.mpr fun row hrow => hnot ⟨row, hrow⟩
        refine ⟨⟨d.method, d.taskhash, d.unihash, s.db.gc_mark.getD []⟩, ?_, rfl⟩
        change (s.db.insert_unihash d.method d.taskhash d.unihash).1.get_equivalent c.method
          c.taskhash = _
        rw [get_equivalent_insert_unihash, if_pos ⟨hmethod.symm, htaskhash.symm⟩, hnone,
          Option.getD_none]
    constructor
    · exact fun x hx => hx
    · exact fun m t hw => hw.elim
    · exact fun x hx => Or.inl hx
    · intro h' hh
      cases hh
    · intro a ho
      obtain rfl := Outcome.answer.inj ho
      exact Or.inl hholds
    · intro a ho
      cases ho
  | full_row method taskhash =>
    simp only [advance]
    split
    · rename_i row hrow
      refine .of_answer (fun m t hw => hw) ?_
      obtain ⟨hjoined, hmeets⟩ := List.mem_filter.mp (first_created_mem hrow)
      obtain ⟨-, hunihash⟩ := mem_joined.mp hjoined
      simp only [decide_eq_true_eq] at hmeets
      rw [hmeets.1, hmeets.2] at hunihash
      exact ⟨row.2, hunihash, rfl⟩
    · split
      · exact .of_goes_on (fun m t hw => hw.elim) ⟨trivial, trivial⟩
      · exact .of_over (fun m t hw => hw)
  | full_upstream method taskhash =>
    cases reply with
    | some d => exact .of_goes_on (fun m t hw => hw.elim) ⟨trivial, trivial⟩
    | none => exact .of_over (fun m t hw => hw)
  | readonly_row r =>
    simp only [CallOk] at hok
    simp only [advance]
    split
    · rename_i row hrow
      rw [hrow] at hok
      exact .of_answer (fun m t hw => hw) hok
    · rename_i hnone
      rw [hnone] at hok
      split
      · exact .of_goes_on (fun m t hw => hw.elim) ⟨trivial, trivial⟩
      · rename_i hup
        exact .of_answer (fun m t hw => hw) (hok (by simpa using hup))
  | readonly_upstream r =>
    cases reply with
    | some d => exact .of_goes_on (fun m t hw => hw.elim) ⟨trivial, trivial⟩
    | none => exact .of_answer (fun m t hw => hw) (hok rfl)
  | unified_unihash c d =>
    exact .of_insert (fun m t hw => hw.elim)
      ⟨trivial, (insert_unihash_grows s.db _ _ _).stored _ rfl⟩
  | unified_outhash c d =>
    simp only [advance]
    split
    · rename_i row hrow
      obtain ⟨outhash, -, rfl⟩ := Option.map_eq_some_iff.mp hrow
      constructor
      · exact fun x hx => mem_insert_outhash.mpr (Or.inl hx)
      · exact fun m t hw => hw.elim
      · intro x hx
        rcases mem_insert_outhash.mp hx with hx | ⟨rfl, -⟩
        · exact Or.inl hx
        · exact Or.inr (Or.inl hreliable)
      · intro h' hh
        cases hh
      · intro a ho
        obtain rfl := Outcome.answer.inj ho
        exact Or.inl hok
      · intro a ho
        cases ho
    · exact .of_answer (fun m t hw => hw) hok
  | equiv_unihash method taskhash unihash =>
    exact .of_insert (fun m t hw => hw.elim)
      ⟨trivial, (insert_unihash_grows s.db _ _ _).stored _ rfl⟩
  | equiv_row method taskhash unihash =>
    simp only [advance]
    split
    · rename_i row hrow
      exact .of_answer (fun m t hw => hw) ⟨row, hrow, rfl⟩
    · exact .of_over (fun m t hw => hw)
  | stream_row method taskhash =>
    simp only [advance]
    split
    · rename_i row hrow
      exact .of_answer (fun m t hw => hw) ⟨row, hrow, rfl⟩
    · split
      · exact .of_goes_on (fun m t hw => hw.elim) ⟨trivial, trivial⟩
      · exact .of_over (fun m t hw => hw)
  | stream_upstream method taskhash =>
    cases reply with
    | none => exact .of_over (fun m t hw => hw)
    | some d =>
      simp only [advance]
      split
      · exact .of_over (fun m t hw => hw)
      · rename_i hne
        constructor
        · exact fun x hx => hx
        · exact fun m t hw => hw.elim
        · exact fun x hx => Or.inl hx
        · intro h' hh
          cases hh
        · intro a ho
          cases ho
        · intro a ho
          obtain rfl := Outcome.backfill.inj ho
          exact hok d rfl hne
  | gc_mark mark condition => cases hs.asks client _ hclient
  | gc_current mark => cases hs.asks client _ hclient
  | gc_sweep mark => cases hs.asks client _ hclient
  | remove condition => cases hs.asks client _ hclient
  | clean_unused oldest => cases hs.asks client _ hclient

/-! ## What a step keeps -/

theorem may_store {h : Handler T} {a : Answer} (hok : CallOk cfg s reply h)
    (hstores : stores h = some a) : MayStore s a := by
  cases h with
  | report_unihash r row unihash =>
    obtain rfl := Option.some.inj hstores
    exact hok
  | unihash_store c d =>
    obtain rfl := Option.some.inj hstores
    obtain ⟨hmethod, htaskhash, hpromise⟩ := hok
    rw [hmethod, htaskhash]
    rcases hpromise with ⟨row, hrow, -⟩ | ⟨-, hrepeats⟩
    · exact Or.inl ⟨row, hrow⟩
    · exact Or.inr hrepeats
  | unified_unihash c d =>
    obtain rfl := Option.some.inj hstores
    exact hok
  | equiv_unihash method taskhash unihash =>
    obtain rfl := Option.some.inj hstores
    exact hok
  | _ => cases hstores

end

theorem rows_grow {a : Option Answer} (hs : Stable s) (hgrows : Grows a s.db db')
    (hmay : ∀ x, a = some x → MayStore s x) :
    ∀ b ∈ s.answers, ∀ row, db'.get_equivalent b.method b.taskhash = some row →
      row.unihash = b.unihash := by
  intro b hb row hrow
  rcases hgrows.new hrow with hold | ⟨hnone, hstores⟩
  · exact hs.rows b hb row hold
  · rcases hmay _ hstores with ⟨old, hold⟩ | hrepeats
    · change s.db.get_equivalent b.method b.taskhash = some old at hold
      rw [hnone] at hold
      cases hold
    · exact (hrepeats b hb rfl rfl).symm

theorem Reliable.grows {a : Option Answer} {h : Handler T} (hreliable : Reliable s.db h)
    (hgrows : Grows a s.db db') (hkept : ∀ x ∈ s.db.outhashes.rows, x ∈ db'.outhashes.rows) :
    Reliable db' h := by
  have hinserted : ∀ r : Report T, Inserted s.db r → Inserted db' r := by
    rintro r ⟨o, ho, hkey⟩
    exact ⟨o, hkept o ho, hkey⟩
  cases h with
  | report_equivalent r => exact hinserted r hreliable
  | report_upstream r => exact hinserted r hreliable
  | report_unihash r row unihash => exact hinserted r hreliable
  | unihash_row c =>
    cases c with
    | get method taskhash => trivial
    | report r => exact hinserted r hreliable
  | unified_outhash c d => exact Stored.grows hreliable hgrows
  | equiv_row method taskhash unihash => exact Stored.grows hreliable hgrows
  | _ => trivial

theorem Settled.after {a : Option Answer} {client : Nat} {h : Handler T} {o : Outcome T}
    {m t : Text} (hsettled : Settled s m t) (hclient : s.clients client = some h)
    (hmoves : Moves s h db' o) (hgrows : Grows a s.db db') :
    Settled (s.after client db' o) m t := by
  rcases hsettled with hstored | ⟨c, g, hg, hwill⟩
  · left
    rw [after_db]
    exact hstored.grows hgrows
  · by_cases hc : c = client
    · subst hc
      obtain rfl := Option.some.inj (hclient.symm.trans hg)
      rcases hmoves.settles m t hwill with hstored | ⟨h', hnext, hwill'⟩
      · left
        rw [after_db]
        exact hstored
      · right
        refine ⟨c, h', ?_, hwill'⟩
        rw [after_clients, Function.update_self]
        exact hnext
    · right
      refine ⟨c, g, ?_, hwill⟩
      rw [after_clients, Function.update_of_ne hc]
      exact hg

theorem Queued.after {m t : Text} (hqueued : Queued s m t) (client : Nat) (db' : Database T)
    (o : Outcome T) : Queued (s.after client db' o) m t := by
  unfold Queued at hqueued ⊢
  rw [after_worker]
  rcases hqueued with hin | hworker
  · left
    cases o with
    | backfill a => exact List.mem_append_left _ hin
    | _ => exact hin
  · exact Or.inr hworker

theorem Moves.repeats {a : Answer} {h : Handler T} {o : Outcome T} (hmoves : Moves s h db' o)
    (client : Nat)
    (hrows : ∀ b ∈ s.answers, ∀ row, db'.get_equivalent b.method b.taskhash = some row →
      row.unihash = b.unihash)
    (hgiven : o.given = some a) :
    Repeats s a ∧ (∀ row, db'.get_equivalent a.method a.taskhash = some row →
        row.unihash = a.unihash) ∧
      (Stored db' a.method a.taskhash ∨ Settled s a.method a.taskhash ∨
        Queued (s.after client db' o) a.method a.taskhash) := by
  have hholds : Holds db' a → Repeats s a ∧
      (∀ row, db'.get_equivalent a.method a.taskhash = some row → row.unihash = a.unihash) ∧
      Stored db' a.method a.taskhash := by
    rintro ⟨row, hrow, hunihash⟩
    refine ⟨?_, ?_, row, hrow⟩
    · intro b hb hmethod htaskhash
      rw [← hmethod, ← htaskhash] at hrow
      rw [← hrows b hb row hrow, hunihash]
    · intro row' hrow'
      rw [hrow] at hrow'
      obtain rfl := Option.some.inj hrow'
      exact hunihash
  cases o with
  | answer b =>
    obtain rfl := Option.some.inj hgiven
    rcases hmoves.answer b rfl with hhold | ⟨hnot, hrepeats, hsettled⟩
    · obtain ⟨hrepeats, hrow, hstored⟩ := hholds hhold
      exact ⟨hrepeats, hrow, Or.inl hstored⟩
    · exact ⟨hrepeats, fun row hrow => absurd ⟨row, hrow⟩ hnot, Or.inr (Or.inl hsettled)⟩
  | backfill b =>
    obtain rfl := Option.some.inj hgiven
    rcases hmoves.backfill b rfl with hhold | ⟨hnot, hrepeats⟩
    · obtain ⟨hrepeats, hrow, hstored⟩ := hholds hhold
      exact ⟨hrepeats, hrow, Or.inl hstored⟩
    · refine ⟨hrepeats, fun row hrow => absurd ⟨row, hrow⟩ hnot, Or.inr (Or.inr (Or.inl ?_))⟩
      exact List.mem_append_right _ (List.mem_singleton.mpr rfl)
  | _ => cases hgiven

theorem Stable.after {a : Option Answer} {client : Nat} {h : Handler T} {o : Outcome T}
    (hs : Stable s) (hclient : s.clients client = some h) (hmoves : Moves s h db' o)
    (hgrows : Grows a s.db db') (hmay : ∀ x, a = some x → MayStore s x) :
    Stable (s.after client db' o) := by
  have hrows := rows_grow hs hgrows hmay
  have hanswers : ∀ x ∈ (s.after client db' o).answers, x ∈ s.answers ∨ o.given = some x := by
    intro x hx
    rw [after_answers, List.mem_append, Option.mem_toList] at hx
    exact hx
  have hsettled : ∀ {m t}, Settled s m t → Settled (s.after client db' o) m t :=
    fun hset => hset.after hclient hmoves hgrows
  have hstored : ∀ {m t}, Stored db' m t → Settled (s.after client db' o) m t := by
    intro m t hst
    left
    rw [after_db]
    exact hst
  constructor
  · intro x hx y hy hmethod htaskhash
    rcases hanswers x hx with hx | hx
    · rcases hanswers y hy with hy | hy
      · exact hs.agree x hx y hy hmethod htaskhash
      · obtain ⟨hrepeats, -⟩ := hmoves.repeats client hrows hy
        exact (hrepeats x hx hmethod.symm htaskhash.symm).symm
    · rcases hanswers y hy with hy | hy
      · obtain ⟨hrepeats, -⟩ := hmoves.repeats client hrows hx
        exact hrepeats y hy hmethod htaskhash
      · rw [Option.some.inj (hx.symm.trans hy)]
  · intro x hx
    rw [after_db]
    rcases hanswers x hx with hx | hx
    · exact hrows x hx
    · exact (hmoves.repeats client hrows hx).2.1
  · intro x hx
    rcases hanswers x hx with hx | hx
    · rcases hs.promised x hx with hset | hqueued
      · exact Or.inl (hsettled hset)
      · exact Or.inr (hqueued.after client db' o)
    · rcases (hmoves.repeats client hrows hx).2.2 with hst | hset | hqueued
      · exact Or.inl (hstored hst)
      · exact Or.inl (hsettled hset)
      · exact Or.inr hqueued
  · intro x hx
    rw [after_db] at hx
    rcases hmoves.new x hx with hold | hst | ⟨h', hnext, hwill⟩
    · exact hsettled (hs.outhashes x hold)
    · exact hstored hst
    · right
      refine ⟨client, h', ?_, hwill⟩
      rw [after_clients, Function.update_self]
      exact hnext
  · intro c g hg
    rw [after_clients] at hg
    by_cases hc : c = client
    · rw [hc, Function.update_self] at hg
      exact (hmoves.next g hg).1
    · rw [Function.update_of_ne hc] at hg
      exact hs.asks c g hg
  · intro c g hg
    rw [after_clients] at hg
    rw [after_db]
    by_cases hc : c = client
    · rw [hc, Function.update_self] at hg
      exact (hmoves.next g hg).2
    · rw [Function.update_of_ne hc] at hg
      exact (hs.reliable c g hg).grows hgrows hmoves.kept

theorem Stable.request {client : Nat} {q : Request T} (hs : Stable s)
    (hclient : s.clients client = none) (hasks : Handler.asks q.handler) :
    Stable { s with clients := Function.update s.clients client (some q.handler) } := by
  have hsettled : ∀ {m t}, Settled s m t →
      Settled { s with clients := Function.update s.clients client (some q.handler) } m t := by
    rintro m t (hstored | ⟨c, h, hh, hwill⟩)
    · exact Or.inl hstored
    · right
      refine ⟨c, h, ?_, hwill⟩
      have hne : c ≠ client := by
        rintro rfl
        rw [hclient] at hh
        cases hh
      change Function.update s.clients client (some q.handler) c = some h
      rw [Function.update_of_ne hne]
      exact hh
  have hreliable : Reliable s.db q.handler := by
    cases q with
    | report may_report r => cases may_report <;> trivial
    | get method taskhash all => cases all <;> trivial
    | _ => trivial
  constructor
  · exact hs.agree
  · exact hs.rows
  · intro a ha
    exact (hs.promised a ha).imp hsettled id
  · intro o ho
    exact hsettled (hs.outhashes o ho)
  · intro c h hh
    change Function.update s.clients client (some q.handler) c = some h at hh
    by_cases hc : c = client
    · rw [hc, Function.update_self] at hh
      obtain rfl := Option.some.inj hh
      exact hasks
    · rw [Function.update_of_ne hc] at hh
      exact hs.asks c h hh
  · intro c h hh
    change Function.update s.clients client (some q.handler) c = some h at hh
    by_cases hc : c = client
    · rw [hc, Function.update_self] at hh
      obtain rfl := Option.some.inj hh
      exact hreliable
    · rw [Function.update_of_ne hc] at hh
      exact hs.reliable c h hh

theorem Stable.turn (hs : Stable s) {queue : List (Text × Text)} {worker : Worker T}
    (hqueued : ∀ {m t}, Queued s m t → Stored s.db m t ∨
      Queued { s with backfill_queue := queue, worker } m t) :
    Stable { s with backfill_queue := queue, worker } where
  agree := hs.agree
  rows := hs.rows
  promised a ha := by
    rcases hs.promised a ha with hsettled | hq
    · exact Or.inl hsettled
    · rcases hqueued hq with hstored | hq
      · exact Or.inl (Or.inl hstored)
      · exact Or.inr hq
  outhashes := hs.outhashes
  asks := hs.asks
  reliable := hs.reliable

theorem Stable.backfilled {d : Upstream T} (hs : Stable s) (hworker : s.worker = .unihash d)
    (hmay : MayStore s ⟨d.method, d.taskhash, d.unihash⟩) :
    Stable { s with
      db := (s.db.insert_unihash d.method d.taskhash d.unihash).1
      worker := .queue } := by
  have hgrows := insert_unihash_grows s.db d.method d.taskhash d.unihash
  have hsettled : ∀ {m t}, Settled s m t →
      Settled { s with
        db := (s.db.insert_unihash d.method d.taskhash d.unihash).1
        worker := .queue } m t :=
    fun hset => hset.imp (fun hstored => hstored.grows hgrows) id
  constructor
  · exact hs.agree
  · apply rows_grow hs hgrows
    intro x hx
    obtain rfl := Option.some.inj hx
    exact hmay
  · intro a ha
    rcases hs.promised a ha with hset | hin | hd
    · exact Or.inl (hsettled hset)
    · exact Or.inr (Or.inl hin)
    · rw [hworker] at hd
      left
      left
      rw [← hd.1, ← hd.2]
      exact hgrows.stored _ rfl
  · intro o ho
    exact hsettled (hs.outhashes o ho)
  · exact hs.asks
  · intro c h hh
    exact (hs.reliable c h hh).grows hgrows fun x hx => hx

theorem work_keeps_stable {reply : Option (Upstream T)} (hs : Stable s) (hok : WorkOk s reply)
    (hwork : work reply s = some s') : Stable s' := by
  unfold work at hwork
  unfold WorkOk at hok
  split at hwork
  · rename_i hworker
    split at hwork
    · cases hwork
    · rename_i method taskhash rest hqueue
      obtain rfl := Option.some.inj hwork
      apply hs.turn
      rintro m t (hin | hw)
      · rw [hqueue] at hin
        rcases List.mem_cons.mp hin with heq | hin
        · obtain ⟨rfl, rfl⟩ := Prod.mk.inj heq
          exact Or.inr (Or.inr ⟨rfl, rfl⟩)
        · exact Or.inr (Or.inl hin)
      · rw [hworker] at hw
        exact hw.elim
  · rename_i method taskhash hworker
    rw [hworker] at hok
    split at hwork
    · rename_i d
      obtain rfl := Option.some.inj hwork
      apply hs.turn
      rintro m t (hin | hw)
      · exact Or.inr (Or.inl hin)
      · rw [hworker] at hw
        obtain ⟨rfl, rfl⟩ := hw
        rcases hok with hstored | ⟨d', hd, hkey⟩
        · exact Or.inl hstored
        · obtain rfl := Option.some.inj hd
          exact Or.inr (Or.inr hkey)
    · obtain rfl := Option.some.inj hwork
      apply hs.turn
      rintro m t (hin | hw)
      · exact Or.inr (Or.inl hin)
      · rw [hworker] at hw
        obtain ⟨rfl, rfl⟩ := hw
        rcases hok with hstored | ⟨d', hd, -⟩
        · exact Or.inl hstored
        · cases hd
  · rename_i d hworker
    rw [hworker] at hok
    obtain rfl := Option.some.inj hwork
    exact hs.backfilled hworker hok

variable [LinearOrder T] {cfg : Config T}

theorem step_keeps_stable {a : Action T} (hs : Stable s) (hok : StepOk cfg s a)
    (hstep : step cfg s a = some s') : Stable s' := by
  cases a with
  | request client q =>
    unfold step at hstep
    dsimp only at hstep
    split at hstep
    · rename_i hclient
      obtain rfl := Option.some.inj hstep
      exact hs.request hclient hok
    · cases hstep
  | advance client reply =>
    unfold step at hstep
    dsimp only at hstep
    split at hstep
    · cases hstep
    · rename_i h hclient
      obtain rfl := Option.some.inj hstep
      have hcall := hok h hclient
      apply hs.after hclient (moves hs hclient hcall)
      · rw [advance_effect]
        exact effect_grows (hs.asks client h hclient)
      · exact fun x hx => may_store hcall hx
  | worker reply => exact work_keeps_stable hs hok hstep

/-! ## Runs -/

/-- A server with a database in which each task with an output hash has a unihash. -/
structure Opened (db : Database T) : Prop where
  paired : ∀ o ∈ db.outhashes.rows, Stored db o.method o.taskhash

def started (db : Database T) : Server T := { Server.init with db }

structure Ended (s : Server T) : Prop where
  clients : ∀ client, s.clients client = none
  backfill_queue : s.backfill_queue = []
  worker : s.worker = .queue

omit [LinearOrder T] in
theorem started_stable (hdb : Opened db) : Stable (started db) where
  agree a ha := by cases ha
  rows a ha := by cases ha
  promised a ha := by cases ha
  outhashes o ho := Or.inl (hdb.paired o ho)
  asks client h hh := by cases hh
  reliable client h hh := by cases hh

omit [LinearOrder T] in
theorem Stable.holds (hs : Stable s) (hended : Ended s) : ∀ a ∈ s.answers, Holds s.db a := by
  intro a ha
  have hstored : Stored s.db a.method a.taskhash := by
    rcases hs.promised a ha with (hstored | ⟨client, h, hh, -⟩) | hin | hw
    · exact hstored
    · rw [hended.clients client] at hh
      cases hh
    · rw [hended.backfill_queue] at hin
      cases hin
    · rw [hended.worker] at hw
      exact hw.elim
  obtain ⟨row, hrow⟩ := hstored
  exact ⟨row, hrow, hs.rows a ha row hrow⟩

/-- In each run whose steps do no harm, all answers for a task agree, with each other, with what is
stored for it at any time after, and at the end something is. -/
theorem answers_are_stable_without_harm (hdb : Opened db)
    (hrun : Reaches (step cfg) (StepOk cfg) (started db) s) :
    (∀ a ∈ s.answers, ∀ b ∈ s.answers, b.method = a.method → b.taskhash = a.taskhash →
      b.unihash = a.unihash) ∧
    (∀ a ∈ s.answers, ∀ row, s.db.get_equivalent a.method a.taskhash = some row →
      row.unihash = a.unihash) ∧
    (Ended s → ∀ a ∈ s.answers, Holds s.db a) := by
  have hs : Stable s := hrun.invariant (started_stable hdb) fun _ _ _ => step_keeps_stable
  exact ⟨hs.agree, hs.rows, hs.holds⟩

/-! ## A reply from upstream, and two reports of one output hash -/

def upstream : Config Nat := ⟨true, fun _ => none⟩

def reply : Upstream Nat :=
  ⟨text "m", text "t", text "u", none, ⊥, fun _ => none⟩

/-- A client asks with `get-stream`, and the backfill worker stores the reply. -/
def backfilled : Server Nat :=
  (runOk (step upstream) (StepOk upstream) (started .empty)
    [.request 0 (.get_stream (text "m") (text "t")), .advance 0 none, .advance 0 (some reply),
      .worker none, .worker (some reply), .worker none]).get (by decide +kernel)

theorem a_backfilled_answer_is_stored :
    backfilled.answers = [⟨text "m", text "t", text "u"⟩] ∧ Ended backfilled ∧
      Holds backfilled.db ⟨text "m", text "t", text "u"⟩ := by
  have hanswers : backfilled.answers = [⟨text "m", text "t", text "u"⟩] := by decide +kernel
  have hended : Ended backfilled := by
    refine ⟨?_, by decide +kernel, rfl⟩
    rintro (_ | client)
    · rfl
    · rfl
  have hdb : Opened (.empty : Database Nat) := ⟨fun o ho => by cases ho⟩
  have hrun : Reaches (step upstream) (StepOk upstream) (started .empty) backfilled :=
    .of_runOk (Option.some_get _).symm
  refine ⟨hanswers, hended, (answers_are_stable_without_harm hdb hrun).2.2 hended _ ?_⟩
  rw [hanswers]
  exact List.mem_singleton.mpr rfl

def alone : Config Nat := ⟨false, fun _ => none⟩

/-- A report of one task and one output hash, with a unihash. -/
def reportOf (unihash : Text) : Report Nat where
  method := text "m"
  taskhash := text "t"
  outhash := text "o"
  unihash := unihash
  created := 0
  fields _ := none

/-- Another client reports the same while the first one looks for an equivalent task. -/
def overlapping : Server Nat :=
  (runAll (step alone) (started .empty)
    [.request 0 (.report true (reportOf (text "u"))), .advance 0 none,
      .request 1 (.report true (reportOf (text "v"))), .advance 1 none, .advance 1 none,
      .advance 0 none, .advance 0 none, .advance 0 none]).get (by decide +kernel)

/-- Its answer is its own unihash, and not the one that the first client stores and is answered. -/
theorem overlapping_reports_disagree :
    Opened (.empty : Database Nat) ∧
      Reaches (step alone) anyStep (started .empty) overlapping ∧ Ended overlapping ∧
      ¬ ((∀ a ∈ overlapping.answers, ∀ b ∈ overlapping.answers, b.method = a.method →
          b.taskhash = a.taskhash → b.unihash = a.unihash) ∧
        ∀ a ∈ overlapping.answers, Holds overlapping.db a) := by
  have hanswers : overlapping.answers =
      [⟨text "m", text "t", text "v"⟩, ⟨text "m", text "t", text "u"⟩] := by decide +kernel
  refine ⟨⟨fun o ho => by cases ho⟩, .of_isSome _, ?_, ?_⟩
  · refine ⟨?_, by decide +kernel, rfl⟩
    rintro (_ | _ | client)
    · rfl
    · rfl
    · rfl
  · rintro ⟨hagree, -⟩
    have hsame := hagree ⟨text "m", text "t", text "v"⟩ (by rw [hanswers]; simp)
      ⟨text "m", text "t", text "u"⟩ (by rw [hanswers]; simp) rfl rfl
    exact absurd hsame (by decide)

end yocto.hash_answers
