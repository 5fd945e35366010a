-- Where the unihashes of a hash server come from: it makes up none, whatever the order of the calls.
import Yocto.HashServer
import Yocto.Runs

open yocto.task_ids yocto.unique_table yocto.hash_tables yocto.hash_server yocto.runs

namespace yocto.hash_origin

variable {T : Type} {P : Text → Prop}

/-! ## The unihashes at a handler -/

def Reported (P : Text → Prop) : Caller T → Prop
  | .get _ _ => True
  | .report r => P r.unihash

/-- The unihashes that a handler was given, and may answer or insert. -/
def Holds (P : Text → Prop) : Handler T → Prop
  | .report_outhash r | .report_equivalent r | .report_upstream r => P r.unihash
  | .readonly_row r | .readonly_upstream r => P r.unihash
  | .report_unihash r _ unihash => P r.unihash ∧ P unihash
  | .unihash_row c | .unihash_upstream c => Reported P c
  | .unihash_store _ d | .unified_unihash _ d | .unified_outhash _ d => P d.unihash
  | .equiv_unihash _ _ unihash => P unihash
  | _ => True

def Passes (P : Text → Prop) : Outcome T → Prop
  | .await h => Holds P h
  | .answer a | .backfill a => P a.unihash
  | .swept | .over => True

/-- What a message of a client carries, or a reply of the upstream server. -/
def Carries (P : Text → Prop) (_ : Server T) : Action T → Prop
  | .request _ q => Holds P q.handler
  | .advance _ reply | .worker reply => ∀ d ∈ reply, P d.unihash

structure Known (P : Text → Prop) (s : Server T) : Prop where
  rows : ∀ r ∈ s.db.unihashes.rows, P r.unihash
  handlers : ∀ client h, s.clients client = some h → Holds P h
  worker : ∀ d, s.worker = .unihash d → P d.unihash
  answers : ∀ a ∈ s.answers, P a.unihash

/-! ## A call -/

variable [LinearOrder T] {cfg : Config T} {db : Database T} {hd : Handler T} {s s' : Server T}

omit [LinearOrder T] in
theorem insert_rows (hrows : ∀ r ∈ db.unihashes.rows, P r.unihash) (method taskhash : Text) {unihash : Text}
    (h : P unihash) : ∀ r ∈ (db.insert_unihash method taskhash unihash).1.unihashes.rows, P r.unihash := by
  intro r hr
  rcases Table.mem_insert.mp hr with hr | ⟨rfl, _⟩
  · exact hrows r hr
  · exact h

theorem effect_rows (hrows : ∀ r ∈ db.unihashes.rows, P r.unihash) (h : Holds P hd) :
    ∀ r ∈ (effect cfg db hd).unihashes.rows, P r.unihash := by
  cases hd with
  | report_unihash r row unihash => exact insert_rows hrows _ _ h.2
  | unihash_store c d => exact insert_rows hrows _ _ h
  | unified_unihash c d => exact insert_rows hrows _ _ h
  | equiv_unihash method taskhash unihash => exact insert_rows hrows _ _ h
  | unified_outhash c d =>
    unfold effect
    dsimp only
    split <;> exact hrows
  | gc_mark mark condition =>
    unfold effect Database.gc_mark_where
    dsimp only
    split
    · exact hrows
    · intro r hr
      obtain ⟨r₀, hr₀, rfl⟩ := List.mem_map.mp hr
      split <;> exact hrows r₀ hr₀
  | gc_sweep mark =>
    unfold effect Database.gc_sweep
    dsimp only
    split
    · exact hrows
    · exact fun r hr => hrows r (List.mem_of_mem_filter hr)
  | remove condition => exact fun r hr => hrows r (List.mem_of_mem_filter hr)
  | _ => exact hrows

theorem advance_passes {reply : Option (Upstream T)} (hrows : ∀ r ∈ db.unihashes.rows, P r.unihash)
    (hreply : ∀ d ∈ reply, P d.unihash) (h : Holds P hd) : Passes P (advance cfg reply db hd).2 := by
  have hrow : ∀ method taskhash row, db.get_equivalent method taskhash = some row → P row.unihash :=
    fun _ _ row hget => hrows row (Table.get?_eq_some_iff.mp hget).1
  have hjoined : ∀ x ∈ db.joined, P x.2.unihash := fun x hx => hrow _ _ _ (mem_joined.mp hx).2
  have hfirst : ∀ p x, first_created (db.joined.filter p) = some x → P x.2.unihash :=
    fun p x hx => hjoined x (List.mem_of_mem_filter (first_created_mem hx))
  cases hd <;> simp only [advance]
  case report_outhash | unified_outhash => split <;> exact h
  case report_equivalent =>
    split
    · rename_i row hget
      exact ⟨h, hfirst _ row hget⟩
    · split
      · exact h
      · exact ⟨h, h⟩
  case report_upstream =>
    split
    · exact ⟨h, hreply _ rfl⟩
    · exact ⟨h, h⟩
  case report_unihash => exact h.1
  case unihash_row c =>
    split
    · rename_i row hget
      exact hrow _ _ row hget
    · split
      · exact h
      · cases c <;> exact h
  case unihash_upstream | full_upstream =>
    split
    · exact hreply _ rfl
    · trivial
  case full_row =>
    split
    · rename_i row hget
      exact hfirst _ row hget
    · split <;> trivial
  case readonly_row =>
    split
    · rename_i row hget
      exact hfirst _ row hget
    · split <;> exact h
  case readonly_upstream =>
    split
    · exact hreply _ rfl
    · exact h
  case equiv_row =>
    split
    · rename_i row hget
      exact hrow _ _ row hget
    · trivial
  case stream_row =>
    split
    · rename_i row hget
      exact hrow _ _ row hget
    · split <;> trivial
  case stream_upstream =>
    split
    · split
      · trivial
      · exact hreply _ rfl
    · trivial
  case gc_current => split <;> trivial
  all_goals first | exact h | trivial

/-! ## Runs -/

omit [LinearOrder T] in
theorem Known.after (h : Known P s) (client : ℕ) (hrows : ∀ r ∈ db.unihashes.rows, P r.unihash) {o : Outcome T}
    (ho : Passes P o) : Known P (s.after client db o) where
  rows := by
    rw [after_db]
    exact hrows
  handlers := by
    rw [after_clients]
    intro i h' hh
    by_cases hi : i = client
    · rw [hi, Function.update_self] at hh
      cases o <;> cases hh
      exact ho
    · rw [Function.update_of_ne hi] at hh
      exact h.handlers i h' hh
  worker := by
    rw [after_worker]
    exact h.worker
  answers := by
    rw [after_answers]
    intro a ha
    rcases List.mem_append.mp ha with ha | ha
    · exact h.answers a ha
    · cases o <;> simp [Outcome.given] at ha
      all_goals
        subst ha
        exact ho

theorem Known.step (h : Known P s) {a : Action T} (ha : Carries P s a) (hstep : step cfg s a = some s') :
    Known P s' := by
  unfold hash_server.step at hstep
  cases a with
  | request client q =>
    dsimp only at hstep
    split at hstep <;> cases hstep
    refine ⟨h.rows, fun i h' hh => ?_, h.worker, h.answers⟩
    dsimp only at hh
    by_cases hi : i = client
    · rw [hi, Function.update_self] at hh
      cases hh
      exact ha
    · rw [Function.update_of_ne hi] at hh
      exact h.handlers i h' hh
  | advance client reply =>
    dsimp only at hstep
    split at hstep <;> cases hstep
    rename_i hd hclient
    have hholds := h.handlers client hd hclient
    refine h.after client ?_ (advance_passes h.rows ha hholds)
    rw [advance_effect]
    exact effect_rows h.rows hholds
  | worker reply =>
    dsimp only at hstep
    unfold work at hstep
    split at hstep
    · split at hstep <;> cases hstep
      exact ⟨h.rows, h.handlers, fun d hd => (by cases hd), h.answers⟩
    · split at hstep <;> cases hstep
      · refine ⟨h.rows, h.handlers, fun d hd => ?_, h.answers⟩
        cases hd
        exact ha _ rfl
      · exact ⟨h.rows, h.handlers, fun d hd => (by cases hd), h.answers⟩
    · rename_i d hworker
      cases hstep
      exact ⟨insert_rows h.rows _ _ (h.worker d hworker), h.handlers, fun d hd => (by cases hd), h.answers⟩

/-- Whatever the order of the calls, each unihash that is answered or stored meets what all meet
that clients have reported and the upstream server has replied: the server makes up none. -/
theorem no_unihash_is_made_up (h : Reaches (step cfg) (Carries P) Server.init s) :
    (∀ a ∈ s.answers, P a.unihash) ∧
      ∀ method taskhash row, s.db.get_equivalent method taskhash = some row → P row.unihash := by
  have hknown : Known P s := by
    apply h.invariant (I := Known P)
    · refine ⟨fun _ hx => ?_, fun _ _ hx => ?_, fun _ hx => ?_, fun _ hx => ?_⟩ <;> cases hx
    · exact fun _ _ _ hs ha hstep => hs.step ha hstep
  exact ⟨hknown.answers, fun _ _ row hget => hknown.rows row (Table.get?_eq_some_iff.mp hget).1⟩

theorem one_unihash_is_answered : ∃ s : Server ℕ, s.answers = [⟨text "m", text "t", text "u"⟩] ∧
    ∀ a ∈ s.answers, a.unihash = text "u" := by
  have hrun : Reaches (step ⟨false, fun _ => none⟩) (Carries (· = text "u")) (Server.init (T := ℕ)) _ :=
    .step (a := .advance 0 none) (.step (a := .advance 0 none) (.step
      (a := .request 0 (.report_equiv (text "m") (text "t") (text "u"))) .start rfl rfl) (by simp [Carries]) rfl)
      (by simp [Carries]) rfl
  exact ⟨_, rfl, (no_unihash_is_made_up hrun).1⟩

end yocto.hash_origin
