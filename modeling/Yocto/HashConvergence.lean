-- Reports of one output hash by several tasks. A report looks for an equivalent task before it
-- stores a unihash, and only a task whose unihash is stored can be found.
import Yocto.HashAnswers
import Yocto.ListSearch

open yocto.task_ids yocto.unique_table yocto.hash_tables yocto.hash_server yocto.hash_answers
open yocto.list_search yocto.runs

namespace yocto.hash_convergence

variable {T : Type}

/-! ## Reports of tasks without a unihash -/

/-- A server, the reports that it handles whose task had no unihash when they came, and those of
them that were answered. -/
structure Watch (T : Type) where
  server : Server T
  running : Nat → Option (Report T)
  completed : List (Report T)

def Watch.start (db : Database T) : Watch T := ⟨started db, fun _ => none, []⟩

def noted (db : Database T) : Request T → Option (Report T)
  | .report true r => if db.get_equivalent r.method r.taskhash = none then some r else none
  | _ => none

/-- A step of the server, which is watched. -/
def watch [LinearOrder T] (cfg : Config T) (w : Watch T) (a : Action T) : Option (Watch T) :=
  (step cfg w.server a).map fun server =>
    match a with
    | .request client q =>
      { w with server, running := Function.update w.running client (noted w.server.db q) }
    | .advance client _ =>
      match server.clients client with
      | some _ => { w with server }
      | none =>
        let answered := w.server.answers.length < server.answers.length
        { server
          running := Function.update w.running client none
          completed := w.completed ++ if answered then (w.running client).toList else [] }
    | .worker _ => { w with server }

/-! ## When a call does no harm -/

/-- The row of an output hash that a call inserts. -/
def inserts : Handler T → Option (Outhash T)
  | .report_outhash r => some r.outhash_data
  | .unified_outhash _ d => d.outhash_data
  | _ => none

section
variable [LinearOrder T]

/-- A new unihash of a task is that of the first task with any of its output hashes. -/
def StoreOk (db : Database T) (a : Answer) : Prop :=
  Stored db a.method a.taskhash ∨
    ∀ o ∈ db.outhashes.rows, o.method = a.method → o.taskhash = a.taskhash →
      ∀ e ∈ db.get_unihash_by_outhash o.method o.outhash, e.2.unihash = a.unihash

/-- An output hash of a task that has a unihash already is one of the same unihash, or it does not
come before these. -/
def InsertOk (db : Database T) (fresh : Bool) (row : Outhash T) : Prop :=
  ∀ x ∈ db.get_equivalent row.method row.taskhash,
    ∀ e ∈ db.get_unihash_by_outhash row.method row.outhash, e.2.unihash = x.unihash ∨
      (fresh = false ∧ (e.1.created ≤ row.created ∨ (db.outhashes.get? row.key).isSome))

/-- A report is answered only when its task has a unihash. -/
def AnswerOk (cfg : Config T) (db : Database T) : Handler T → Prop
  | .unihash_row (.report r) => cfg.upstream = false → Stored db r.method r.taskhash
  | .unihash_store (.report r) d =>
    Stored db r.method r.taskhash ∨ (d.method = r.method ∧ d.taskhash = r.taskhash)
  | _ => True

/-- The steps of a run. Nothing is removed. -/
def StepOk (cfg : Config T) (w : Watch T) : Action T → Prop
  | .request _ _ => True
  | .advance client _ => ∀ h ∈ w.server.clients client, Handler.asks h ∧
    (∀ a ∈ stores h, StoreOk w.server.db a) ∧
    (∀ row ∈ inserts h, InsertOk w.server.db (w.running client).isSome row) ∧
    ((w.running client).isSome → AnswerOk cfg w.server.db h)
  | .worker _ => ∀ d, w.server.worker = .unihash d →
    StoreOk w.server.db ⟨d.method, d.taskhash, d.unihash⟩

instance (db : Database T) (a : Answer) : Decidable (StoreOk db a) :=
  inferInstanceAs (Decidable (_ ∨ ∀ o ∈ db.outhashes.rows, _))

instance (db : Database T) (fresh : Bool) (row : Outhash T) : Decidable (InsertOk db fresh row) :=
  inferInstanceAs (Decidable (∀ x ∈ db.get_equivalent row.method row.taskhash,
    ∀ e ∈ db.get_unihash_by_outhash row.method row.outhash, _))

instance (cfg : Config T) (db : Database T) : DecidablePred (AnswerOk cfg db)
  | .unihash_row (.report r) =>
    inferInstanceAs (Decidable (cfg.upstream = false → Stored db r.method r.taskhash))
  | .unihash_store (.report r) d => inferInstanceAs (Decidable
      (Stored db r.method r.taskhash ∨ (d.method = r.method ∧ d.taskhash = r.taskhash)))
  | .report_outhash _ | .report_equivalent _ | .report_upstream _ | .report_unihash _ _ _
  | .unihash_row (.get _ _) | .unihash_upstream _ | .unihash_store (.get _ _) _ | .full_row _ _
  | .full_upstream _ _ | .readonly_row _ | .readonly_upstream _ | .unified_unihash _ _
  | .unified_outhash _ _ | .equiv_unihash _ _ _ | .equiv_row _ _ _ | .stream_row _ _
  | .stream_upstream _ _ | .gc_mark _ _ | .gc_current _ | .gc_sweep _ | .remove _
  | .clean_unused _ => inferInstanceAs (Decidable True)

instance (cfg : Config T) (w : Watch T) : DecidablePred (StepOk cfg w)
  | .request _ _ => inferInstanceAs (Decidable True)
  | .advance client _ => inferInstanceAs (Decidable (∀ h ∈ w.server.clients client, _ ∧ _ ∧ _ ∧ _))
  | .worker _ =>
    match hworker : w.server.worker with
    | .queue => isTrue fun d hd => by simp [hworker] at hd
    | .upstream _ _ => isTrue fun d hd => by simp [hworker] at hd
    | .unihash d => decidable_of_iff (StoreOk w.server.db ⟨d.method, d.taskhash, d.unihash⟩)
        (by simp [StepOk, hworker])

/-! ## The invariant -/

/-- The task of a report has the unihash of the first task with its output hash. -/
def Converged (db : Database T) (r : Report T) : Prop :=
  ∃ e, db.get_unihash_by_outhash r.method r.outhash = some e ∧
    Holds db ⟨r.method, r.taskhash, e.2.unihash⟩

/-- An output hash is there, and has converged if its task has a unihash. -/
structure Converging (db : Database T) (r : Report T) : Prop where
  inserted : ∃ o ∈ db.outhashes.rows,
    o.method = r.method ∧ o.taskhash = r.taskhash ∧ o.outhash = r.outhash
  converged : Stored db r.method r.taskhash → Converged db r

end

/-- The calls of a report after its first one. -/
def Follows (r : Report T) : Handler T → Prop
  | .report_equivalent r' => r' = r
  | .report_upstream r' => r' = r
  | .report_unihash r' _ _ => r' = r
  | .unihash_row c => c = .report r
  | .unihash_upstream c => c = .report r
  | .unihash_store c _ => c = .report r
  | _ => False

structure Tracked [LinearOrder T] (w : Watch T) : Prop where
  running : ∀ client r, w.running client = some r → ∃ h, w.server.clients client = some h ∧
    (h = .report_outhash r ∨ (Follows r h ∧ Converging w.server.db r))
  completed : ∀ r ∈ w.completed, Converged w.server.db r

/-! ## What an insertion does to the first task with an output hash -/

variable {db : Database T} {a : Answer} {row : Outhash T} {method outhash : Text}

/-- The rows with an output hash whose tasks have unihashes. -/
def candidates (db : Database T) (method outhash : Text) : List (Outhash T × Unihash) :=
  db.joined.filter fun x => x.1.method = method ∧ x.1.outhash = outhash

theorem mem_candidates {x : Outhash T × Unihash} :
    x ∈ candidates db method outhash ↔ (x.1 ∈ db.outhashes.rows ∧
      db.get_equivalent x.1.method x.1.taskhash = some x.2) ∧
      x.1.method = method ∧ x.1.outhash = outhash := by
  unfold candidates
  rw [List.mem_filter, mem_joined, decide_eq_true_eq]

theorem candidates_nodup (db : Database T) (method outhash : Text) :
    (candidates db method outhash).Nodup := by
  apply List.Nodup.filter
  apply List.Nodup.filterMap _ db.outhashes.unique.of_map
  intro o o' x hx hx'
  obtain ⟨r, -, rfl⟩ := Option.map_eq_some_iff.mp hx
  obtain ⟨r', -, heq⟩ := Option.map_eq_some_iff.mp hx'
  exact (Prod.mk.inj heq).1.symm

theorem candidates_grow (db : Database T) (a : Answer) (method outhash : Text) :
    (candidates db method outhash).Sublist
      (candidates (db.insert_unihash a.method a.taskhash a.unihash).1 method outhash) := by
  apply List.Sublist.filter
  apply filterMap_sublist
  intro o x hx
  obtain ⟨r, hr, rfl⟩ := Option.map_eq_some_iff.mp hx
  rw [(insert_unihash_grows db _ _ _).kept hr]
  rfl

theorem candidates_insert_outhash (db : Database T) (row : Outhash T) (method outhash : Text) :
    candidates (db.insert_outhash row).1 method outhash = candidates db method outhash ∨
      ∃ x, db.outhashes.get? row.key = none ∧ db.get_equivalent row.method row.taskhash = some x ∧
        row.method = method ∧ row.outhash = outhash ∧
        candidates (db.insert_outhash row).1 method outhash =
          candidates db method outhash ++ [(row, x)] := by
  cases hget : db.outhashes.get? row.key with
  | some o =>
    left
    have hsame : (db.insert_outhash row).1 = db := by
      unfold Database.insert_outhash
      rw [Table.insert_of_some hget]
    rw [hsame]
  | none =>
    have hrows : (db.insert_outhash row).1.outhashes.rows = db.outhashes.rows ++ [row] :=
      (Table.insert_of_none hget).1
    have hjoined : (db.insert_outhash row).1.joined = db.joined ++
        ((db.get_equivalent row.method row.taskhash).map (row, ·)).toList := by
      unfold Database.joined
      rw [hrows, List.filterMap_append]
      cases hx : db.get_equivalent row.method row.taskhash <;> simp [hx]
    unfold candidates
    rw [hjoined, List.filter_append]
    cases hx : db.get_equivalent row.method row.taskhash with
    | none =>
      left
      simp
    | some x =>
      by_cases hkey : row.method = method ∧ row.outhash = outhash
      · right
        exact ⟨x, rfl, rfl, hkey.1, hkey.2, by simp [hkey]⟩
      · left
        simp [hkey]

variable [LinearOrder T]

theorem exists_first {x : Outhash T × Unihash} (h : x ∈ candidates db method outhash) :
    ∃ e, db.get_unihash_by_outhash method outhash = some e := first_created_of_mem h

theorem first_after_insert_unihash {e : Outhash T × Unihash}
    (he : (db.insert_unihash a.method a.taskhash a.unihash).1.get_unihash_by_outhash method outhash =
      some e) :
    db.get_unihash_by_outhash method outhash = some e ∨
      (¬ Stored db a.method a.taskhash ∧ e.2.unihash = a.unihash ∧
        ∃ o ∈ db.outhashes.rows, o.method = a.method ∧ o.taskhash = a.taskhash ∧
          o.method = method ∧ o.outhash = outhash) := by
  obtain ⟨⟨hrow, hunihash⟩, hmethod, houthash⟩ := mem_candidates.mp (first_created_mem he)
  rcases (insert_unihash_grows db _ _ _).new hunihash with hold | ⟨hnone, heq⟩
  · left
    exact argmin_of_sublist (candidates_grow db a method outhash) (candidates_nodup _ _ _) he
      (mem_candidates.mpr ⟨⟨hrow, hold⟩, hmethod, houthash⟩)
  · right
    obtain ⟨ha, ha', hu⟩ := Answer.mk.inj (Option.some.inj heq)
    refine ⟨?_, hu.symm, e.1, hrow, ha.symm, ha'.symm, hmethod, houthash⟩
    rintro ⟨old, hold⟩
    rw [ha, ha', hnone] at hold
    cases hold

theorem converged_insert_unihash {r : Report T} (hok : StoreOk db a) (h : Converged db r) :
    Converged (db.insert_unihash a.method a.taskhash a.unihash).1 r := by
  obtain ⟨e, he, hholds⟩ := h
  have hgrows := insert_unihash_grows db a.method a.taskhash a.unihash
  have hin := (candidates_grow db a _ _).subset (first_created_mem he)
  obtain ⟨e', he'⟩ := exists_first hin
  refine ⟨e', he', ?_⟩
  rcases first_after_insert_unihash he' with hold | ⟨hnot, hunihash, o, ho, hmethod, htaskhash, hm, hh⟩
  · rw [he] at hold
    obtain rfl := Option.some.inj hold
    exact hholds.grows hgrows
  · have hsame := (hok.resolve_left hnot) o ho hmethod htaskhash e (by rw [hm, hh]; exact he)
    obtain ⟨row, hrow, hu⟩ := hholds.grows hgrows
    exact ⟨row, hrow, hu.trans (hsame.trans hunihash.symm)⟩

theorem converging_insert_unihash {r : Report T} (hok : StoreOk db a) (h : Converging db r) :
    Converging (db.insert_unihash a.method a.taskhash a.unihash).1 r := by
  refine ⟨h.inserted, ?_⟩
  rintro ⟨row, hrow⟩
  rcases (insert_unihash_grows db _ _ _).new hrow with hold | ⟨hnone, heq⟩
  · exact converged_insert_unihash hok (h.converged ⟨row, hold⟩)
  · -- the task itself gets a unihash now
    obtain ⟨ha, ha', hu⟩ := Answer.mk.inj (Option.some.inj heq)
    obtain ⟨o, ho, hmethod, htaskhash, houthash⟩ := h.inserted
    have hin : (o, row) ∈ candidates
        (db.insert_unihash a.method a.taskhash a.unihash).1 r.method r.outhash := by
      refine mem_candidates.mpr ⟨⟨ho, ?_⟩, hmethod, houthash⟩
      rw [hmethod, htaskhash]
      exact hrow
    obtain ⟨e, he⟩ := exists_first hin
    have hunihash : e.2.unihash = a.unihash := by
      rcases first_after_insert_unihash he with hold | ⟨-, hunihash, -⟩
      · have hnot : ¬ Stored db a.method a.taskhash := by
          rintro ⟨old, hold⟩
          rw [ha, ha', hnone] at hold
          cases hold
        refine (hok.resolve_left hnot) o ho (hmethod.trans ha.symm) (htaskhash.trans ha'.symm) e ?_
        rw [hmethod, houthash]
        exact hold
      · exact hunihash
    exact ⟨e, he, row, hrow, by rw [hunihash, hu]⟩

theorem first_after_insert_outhash {e : Outhash T × Unihash}
    (he : (db.insert_outhash row).1.get_unihash_by_outhash method outhash = some e) :
    db.get_unihash_by_outhash method outhash = some e ∨
      (db.outhashes.get? row.key = none ∧
        db.get_equivalent row.method row.taskhash = some e.2 ∧
        row.method = method ∧ row.outhash = outhash ∧
        ∀ e' ∈ db.get_unihash_by_outhash method outhash, row.created < e'.1.created) := by
  rcases candidates_insert_outhash db row method outhash with hsame | ⟨x, hnone, hx, hm, hh, happend⟩
  · left
    rw [← he]
    exact (congrArg first_created hsame).symm
  · have hfirst : (db.insert_outhash row).1.get_unihash_by_outhash method outhash =
        first_created (candidates db method outhash ++ [(row, x)]) := congrArg first_created happend
    rw [hfirst, first_created_concat] at he
    have hbefore : first_created (candidates db method outhash) =
        db.get_unihash_by_outhash method outhash := rfl
    rw [hbefore] at he
    cases hold : db.get_unihash_by_outhash method outhash with
    | none =>
      rw [hold] at he
      obtain rfl := Option.some.inj he
      exact Or.inr ⟨hnone, hx, hm, hh, fun e' he' => by cases he'⟩
    | some first =>
      rw [hold] at he
      dsimp only at he
      split at he
      · rename_i hlt
        obtain rfl := Option.some.inj he
        refine Or.inr ⟨hnone, hx, hm, hh, ?_⟩
        intro e' he'
        obtain rfl := Option.some.inj he'
        exact hlt
      · exact Or.inl he

theorem converged_insert_outhash {r : Report T} {fresh : Bool} (hok : InsertOk db fresh row)
    (h : Converged db r) : Converged (db.insert_outhash row).1 r := by
  obtain ⟨e, he, hholds⟩ := h
  have hin : e ∈ candidates (db.insert_outhash row).1 r.method r.outhash := by
    obtain ⟨⟨hrow, hunihash⟩, hkey⟩ := mem_candidates.mp (first_created_mem he)
    exact mem_candidates.mpr ⟨⟨mem_insert_outhash.mpr (Or.inl hrow), hunihash⟩, hkey⟩
  obtain ⟨e', he'⟩ := exists_first hin
  refine ⟨e', he', ?_⟩
  rcases first_after_insert_outhash he' with hold | ⟨hnone, hx, hm, hh, holder⟩
  · rw [he] at hold
    obtain rfl := Option.some.inj hold
    exact hholds
  · have hfirst : e ∈ db.get_unihash_by_outhash row.method row.outhash := by
      rw [hm, hh]
      exact he
    rcases hok e'.2 hx e hfirst with hsame | ⟨-, hle | hthere⟩
    · rw [← hsame]
      exact hholds
    · exact absurd hle (not_le_of_gt (holder e he))
    · rw [hnone] at hthere
      cases hthere

theorem converging_insert_outhash {r : Report T} {fresh : Bool} (hok : InsertOk db fresh row)
    (h : Converging db r) : Converging (db.insert_outhash row).1 r where
  inserted := by
    obtain ⟨o, ho, hkey⟩ := h.inserted
    exact ⟨o, mem_insert_outhash.mpr (Or.inl ho), hkey⟩
  converged hstored := converged_insert_outhash hok (h.converged hstored)

theorem converging_of_report {r : Report T} (hok : InsertOk db true r.outhash_data) :
    Converging (db.insert_outhash r.outhash_data).1 r := by
  have hinserted := exists_mem_insert_outhash db r.outhash_data
  refine ⟨hinserted, ?_⟩
  rintro ⟨x, hx⟩
  obtain ⟨o, ho, hmethod, htaskhash, houthash⟩ := hinserted
  have hin : (o, x) ∈ candidates (db.insert_outhash r.outhash_data).1 r.method r.outhash := by
    refine mem_candidates.mpr ⟨⟨ho, ?_⟩, hmethod, houthash⟩
    rw [hmethod, htaskhash]
    exact hx
  obtain ⟨e, he⟩ := exists_first hin
  refine ⟨e, he, x, hx, ?_⟩
  rcases first_after_insert_outhash he with hold | ⟨-, hx', -⟩
  · rcases hok x hx e hold with hsame | ⟨hfresh, -⟩
    · exact hsame.symm
    · cases hfresh
  · have hsame := hx.symm.trans hx'
    rw [Option.some.inj hsame]

/-! ## What a step keeps -/

variable {w w' : Watch T} {cfg : Config T} {reply : Option (Upstream T)} {r : Report T}

theorem effect_cases (cfg : Config T) (db : Database T) {h : Handler T} (hasks : Handler.asks h) :
    (∃ a ∈ stores h, effect cfg db h = (db.insert_unihash a.method a.taskhash a.unihash).1) ∨
      (∃ row ∈ inserts h, effect cfg db h = (db.insert_outhash row).1) ∨ effect cfg db h = db := by
  cases h with
  | report_outhash r => exact Or.inr (Or.inl ⟨_, rfl, rfl⟩)
  | report_unihash r row unihash => exact Or.inl ⟨_, rfl, rfl⟩
  | unihash_store c d => exact Or.inl ⟨_, rfl, rfl⟩
  | unified_unihash c d => exact Or.inl ⟨_, rfl, rfl⟩
  | unified_outhash c d =>
    cases hrow : d.outhash_data with
    | none =>
      right
      right
      simp only [effect, hrow]
    | some row =>
      right
      left
      refine ⟨row, hrow, ?_⟩
      simp only [effect, hrow]
  | equiv_unihash method taskhash unihash => exact Or.inl ⟨_, rfl, rfl⟩
  | gc_mark mark condition => cases hasks
  | gc_current mark => cases hasks
  | gc_sweep mark => cases hasks
  | remove condition => cases hasks
  | clean_unused oldest => cases hasks
  | _ => exact Or.inr (Or.inr rfl)

theorem effect_keeps (cfg : Config T) {h : Handler T} {fresh : Bool} (hasks : Handler.asks h)
    (hstores : ∀ a ∈ stores h, StoreOk db a) (hinserts : ∀ row ∈ inserts h, InsertOk db fresh row)
    (r : Report T) :
    (Converged db r → Converged (effect cfg db h) r) ∧
      (Converging db r → Converging (effect cfg db h) r) := by
  rcases effect_cases cfg db hasks with ⟨a, ha, heq⟩ | ⟨row, hrow, heq⟩ | heq
  · rw [heq]
    exact ⟨converged_insert_unihash (hstores a ha), converging_insert_unihash (hstores a ha)⟩
  · rw [heq]
    exact ⟨converged_insert_outhash (hinserts row hrow),
      converging_insert_outhash (hinserts row hrow)⟩
  · rw [heq]
    exact ⟨id, id⟩

theorem follows_next {h h' : Handler T} (hown : h = .report_outhash r ∨ Follows r h)
    (hnext : (advance cfg reply db h).2.next = some h') : Follows r h' := by
  rcases hown with rfl | hfollows
  · obtain rfl := Option.some.inj hnext
    split
    · exact rfl
    · exact rfl
  · cases h with
    | report_equivalent r' =>
      obtain rfl := hfollows
      simp only [advance] at hnext
      split at hnext
      · obtain rfl := Option.some.inj hnext
        exact rfl
      · obtain rfl := Option.some.inj hnext
        split
        · exact rfl
        · exact rfl
    | report_upstream r' =>
      obtain rfl := hfollows
      cases reply with
      | some d =>
        obtain rfl := Option.some.inj hnext
        exact rfl
      | none =>
        obtain rfl := Option.some.inj hnext
        exact rfl
    | report_unihash r' row unihash =>
      obtain rfl := hfollows
      obtain rfl := Option.some.inj hnext
      exact rfl
    | unihash_row c =>
      obtain rfl := hfollows
      simp only [advance] at hnext
      split at hnext
      · cases hnext
      · split at hnext
        · obtain rfl := Option.some.inj hnext
          exact rfl
        · cases hnext
    | unihash_upstream c =>
      obtain rfl := hfollows
      cases reply with
      | some d =>
        obtain rfl := Option.some.inj hnext
        exact rfl
      | none => cases hnext
    | unihash_store c d => cases hnext
    | _ => exact hfollows.elim

theorem stored_of_given {h : Handler T} {a : Answer}
    (hown : h = .report_outhash r ∨ Follows r h) (hok : AnswerOk cfg db h)
    (hgiven : (advance cfg reply db h).2.given = some a) :
    Stored (effect cfg db h) r.method r.taskhash := by
  rcases hown with rfl | hfollows
  · cases hgiven
  · cases h with
    | report_equivalent r' =>
      simp only [advance] at hgiven
      split at hgiven
      · cases hgiven
      · cases hgiven
    | report_upstream r' => cases reply <;> cases hgiven
    | report_unihash r' row unihash => cases hgiven
    | unihash_row c =>
      obtain rfl := hfollows
      simp only [advance] at hgiven
      split at hgiven
      · rename_i row hrow
        exact ⟨row, hrow⟩
      · split at hgiven
        · cases hgiven
        · rename_i hup
          exact hok (by simpa using hup)
    | unihash_upstream c => cases reply <;> cases hgiven
    | unihash_store c d =>
      obtain rfl := hfollows
      have hgrows := insert_unihash_grows db d.method d.taskhash d.unihash
      rcases hok with hstored | ⟨hmethod, htaskhash⟩
      · exact hstored.grows hgrows
      · rw [← hmethod, ← htaskhash]
        exact hgrows.stored _ rfl
    | _ => exact hfollows.elim

theorem watch_advance {client : Nat} {h : Handler T} (hclient : w.server.clients client = some h) :
    watch cfg w (.advance client reply) =
      let outcome := (advance cfg reply w.server.db h).2
      let server := w.server.after client (effect cfg w.server.db h) outcome
      some (match outcome.next with
        | some _ => { w with server }
        | none => ⟨server, Function.update w.running client none,
            w.completed ++ if outcome.given.isSome then (w.running client).toList else []⟩) := by
  unfold watch step
  simp only [hclient, Option.map_some, after_clients, after_answers, Function.update_self,
    List.length_append, advance_effect]
  cases (advance cfg reply w.server.db h).2 <;> simp [Outcome.next, Outcome.given]

theorem Tracked.advance {client : Nat} (ht : Tracked w) (hok : StepOk cfg w (.advance client reply))
    (hwatch : watch cfg w (.advance client reply) = some w') : Tracked w' := by
  cases hclient : w.server.clients client with
  | none =>
    unfold watch step at hwatch
    dsimp only at hwatch
    rw [hclient] at hwatch
    cases hwatch
  | some h =>
    obtain ⟨hasks, hstores, hinserts, hanswer⟩ := hok h hclient
    have hkeeps := effect_keeps cfg hasks hstores hinserts
    have hown : ∀ r, w.running client = some r → (h = .report_outhash r ∨ Follows r h) ∧
        Converging (effect cfg w.server.db h) r := by
      intro r hr
      obtain ⟨h', hh', hcase⟩ := ht.running client r hr
      obtain rfl := Option.some.inj (hclient.symm.trans hh')
      rcases hcase with rfl | ⟨hfollows, hconverging⟩
      · have hinsert := hinserts r.outhash_data rfl
        rw [hr] at hinsert
        exact ⟨Or.inl rfl, converging_of_report hinsert⟩
      · exact ⟨Or.inr hfollows, (hkeeps r).2 hconverging⟩
    rw [watch_advance hclient] at hwatch
    obtain rfl := Option.some.inj hwatch
    have hothers : ∀ c r, c ≠ client → w.running c = some r → ∃ h',
        (w.server.after client (effect cfg w.server.db h)
          (advance cfg reply w.server.db h).2).clients c = some h' ∧
        (h' = .report_outhash r ∨ (Follows r h' ∧ Converging (effect cfg w.server.db h) r)) := by
      intro c r hc hr
      obtain ⟨h', hh', hcase⟩ := ht.running c r hr
      refine ⟨h', ?_, hcase.imp id fun hf => ⟨hf.1, (hkeeps r).2 hf.2⟩⟩
      rw [after_clients, Function.update_of_ne hc]
      exact hh'
    cases hnext : (advance cfg reply w.server.db h).2.next with
    | some h' =>
      constructor
      · intro c r hr
        by_cases hc : c = client
        · subst hc
          obtain ⟨hcase, hconverging⟩ := hown r hr
          refine ⟨h', ?_, Or.inr ⟨follows_next hcase hnext, ?_⟩⟩
          · dsimp only
            rw [after_clients, Function.update_self]
            exact hnext
          · dsimp only
            rw [after_db]
            exact hconverging
        · dsimp only
          rw [after_db]
          exact hothers c r hc hr
      · intro r hr
        dsimp only
        rw [after_db]
        exact (hkeeps r).1 (ht.completed r hr)
    | none =>
      constructor
      · intro c r hr
        dsimp only at hr ⊢
        rw [after_db]
        by_cases hc : c = client
        · rw [hc, Function.update_self] at hr
          cases hr
        · rw [Function.update_of_ne hc] at hr
          exact hothers c r hc hr
      · intro r hr
        dsimp only at hr ⊢
        rw [after_db]
        rcases List.mem_append.mp hr with hold | hnew
        · exact (hkeeps r).1 (ht.completed r hold)
        · split at hnew
          · rename_i hgiven
            obtain ⟨a, ha⟩ := Option.isSome_iff_exists.mp hgiven
            have hr' : w.running client = some r := Option.mem_toList.mp hnew
            obtain ⟨hcase, hconverging⟩ := hown r hr'
            apply hconverging.converged
            exact stored_of_given hcase (hanswer (by rw [hr']; rfl)) ha
          · cases hnew

theorem step_keeps_tracked {a : Action T} (ht : Tracked w) (hok : StepOk cfg w a)
    (hwatch : watch cfg w a = some w') : Tracked w' := by
  cases a with
  | advance client reply => exact ht.advance hok hwatch
  | request client q =>
    unfold watch step at hwatch
    dsimp only at hwatch
    cases hclient : w.server.clients client with
    | some h =>
      rw [hclient] at hwatch
      cases hwatch
    | none =>
      rw [hclient] at hwatch
      obtain rfl := Option.some.inj hwatch
      refine ⟨?_, ht.completed⟩
      intro c r hr
      dsimp only at hr ⊢
      by_cases hc : c = client
      · rw [hc, Function.update_self] at hr
        refine ⟨q.handler, by rw [hc, Function.update_self], Or.inl ?_⟩
        unfold noted at hr
        split at hr
        · split at hr
          · obtain rfl := Option.some.inj hr
            rfl
          · cases hr
        · cases hr
      · rw [Function.update_of_ne hc] at hr ⊢
        exact ht.running c r hr
  | worker reply =>
    unfold watch step work at hwatch
    dsimp only at hwatch
    cases hworker : w.server.worker with
    | queue =>
      rw [hworker] at hwatch
      dsimp only at hwatch
      split at hwatch
      · cases hwatch
      · obtain rfl := Option.some.inj hwatch
        exact ⟨ht.running, ht.completed⟩
    | upstream method taskhash =>
      rw [hworker] at hwatch
      cases reply with
      | some d =>
        obtain rfl := Option.some.inj hwatch
        exact ⟨ht.running, ht.completed⟩
      | none =>
        obtain rfl := Option.some.inj hwatch
        exact ⟨ht.running, ht.completed⟩
    | unihash d =>
      rw [hworker] at hwatch
      obtain rfl := Option.some.inj hwatch
      have hstore := hok d hworker
      constructor
      · intro c r hr
        obtain ⟨h, hh, hcase⟩ := ht.running c r hr
        exact ⟨h, hh, hcase.imp id fun hf => ⟨hf.1, converging_insert_unihash hstore hf.2⟩⟩
      · intro r hr
        exact converged_insert_unihash hstore (ht.completed r hr)

/-! ## Runs -/

def alone : Config Nat := ⟨false, fun _ => none⟩

/-- A report of a task, with the one output hash. -/
def reportOf (taskhash unihash : Text) (created : Nat) : Report Nat where
  method := text "m"
  taskhash := taskhash
  outhash := text "o"
  unihash := unihash
  created := created
  fields _ := none

def first : Report Nat := reportOf (text "t1") (text "u1") 1

def second : Report Nat := reportOf (text "t2") (text "u2") 2

def calls (client n : Nat) : List (Action Nat) := List.replicate n (.advance client none)

def inTurn : Watch Nat :=
  (runOk (watch alone) (StepOk alone) (.start .empty)
    ([.request 0 (.report true first)] ++ calls 0 4 ++
      [.request 1 (.report true second)] ++ calls 1 4)).get (by decide +kernel)

/-- Both look for an equivalent task before either stores a unihash. -/
def overlapping : Watch Nat :=
  (runAll (watch alone) (.start .empty)
    ([.request 0 (.report true first)] ++ calls 0 2 ++
      [.request 1 (.report true second)] ++ calls 1 4 ++ calls 0 2)).get (by decide +kernel)

end yocto.hash_convergence
