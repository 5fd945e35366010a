-- What a read of a datastore keeps, and what it comes to: an invariant of the
-- places where a read writes to the store is an invariant of every read, and a
-- read that comes to its end does so with any greater bound on the recursion.
import Yocto.DataStore

open yocto.list_search yocto.task_ids yocto.ordered_dict yocto.data_smart yocto.triples
open yocto.triples.Prog (raise modify reading collect)

namespace yocto.data_store

/-! ## Invariants -/

section
variable {g : Expander} {read : Read} {I : Data → Prop}

theorem run_keeps (hread : ∀ q, Keeps I (read q)) (code : Code) : Keeps I (run read code) := by
  induction code with
  | done parse => exact .pure _
  | raises e => exact .raise _
  | reads q k ih => exact (hread q).bind fun x => ih x.1

/-- The places where a read writes to the store keep the invariant: the computation of the
overrides, and the words that are added to the parse of a variant. -/
structure Closed (I : Data → Prop) (read : Read) : Prop where
  reads : ∀ q, Keeps I (read q)
  need : Keeps I (need_overrides read)
  add : ∀ s name p (rs : List Text), I s → s.expand_cache.get? name = some p →
    I { s with expand_cache := s.expand_cache.set name (rs.foldl Parse.add p) }

/-- What is said of the overrides and how they are computed, and an empty cache, keep it. -/
structure LeavesOverrides (I : Data → Prop) : Prop where
  fields : ∀ s overrides overridesset inoverride rounds, I s →
    I { s with overrides, overridesset, inoverride, rounds }
  clear : ∀ s, I s → I { s with expand_cache := [] }

theorem override_rounds_keeps (h : LeavesOverrides I) (hread : ∀ q, Keeps I (read q)) (count : Nat) :
    Keeps I (override_rounds read count) := by
  induction count with
  | zero => exact .raise _
  | succ count ih =>
    refine Keeps.bind (.modify fun s hs => h.fields s _ _ _ _ hs) fun _ => ?_
    refine (hread _).bind fun x => ?_
    refine Keeps.bind (.modify fun s hs => h.fields _ _ _ _ _ (h.clear s hs)) fun _ => ?_
    refine (hread _).bind fun y => .reading fun s _ => ?_
    refine .ite (fun _ => .pure _) fun _ => ?_
    exact Keeps.bind (.modify fun s hs => h.fields s _ _ _ _ hs) fun _ => ih

theorem need_overrides_keeps (h : LeavesOverrides I) (hread : ∀ q, Keeps I (read q)) :
    Keeps I (need_overrides read) :=
  .reading fun _ _ => .ite (fun _ => .pure _) fun _ => .ite (fun _ => .pure _) fun _ =>
    override_rounds_keeps h hread 5

/-- So does the entry that is made at the end. -/
def Stores (I : Data → Prop) (q : Query) : Prop :=
  ∀ s (parser : Parse), I s → I { s with
    expand_cache := s.expand_cache.set q.cachename { parser with under := s.overrides } }

theorem override_value_keeps (h : Closed I read) (q : Query) : Keeps I (override_value read q) := by
  refine .reading fun s _ => ?_
  split
  · exact .pure _
  · refine h.need.bind fun _ => .reading fun t _ => ?_
    split
    · exact .raise _
    · exact .pure _
    · exact (h.reads _).bind fun _ => .pure _

theorem add_active_keeps (h : Closed I read) (join : Text → Text → Text) (texts : List (Text × Text))
    (value : Option Text) : Keeps I (add_active read join texts value) := by
  refine .ite (fun _ => .pure _) fun _ => h.need.bind fun _ => .reading fun t _ => ?_
  split
  · exact .raise _
  · exact .pure _

theorem unexpanded_value_keeps (h : Closed I read) (q : Query) :
    Keeps I (unexpanded_value read q) := by
  refine .reading fun s _ => (override_value_keeps h q).bind fun x => ?_
  dsimp only
  split
  · refine .ite (fun _ => ?_) fun _ => .pure _
    refine (add_active_keeps h _ _ _).bind fun value => ?_
    exact (add_active_keeps h _ _ _).bind fun _ => .pure _
  · exact .pure _

theorem add_removes_keeps (h : Closed I read) (carrier : Carrier) (rs : List Text) :
    Keeps I (add_removes carrier rs) := by
  intro s hs
  cases carrier with
  | none => exact hs
  | some x =>
    unfold add_removes
    cases hget : s.expand_cache.get? x.1 with
    | none =>
      simp only [reading, hget]
      exact hs
    | some p =>
      simp only [reading, hget]
      exact h.add s x.1 p rs hs hget

theorem own_removes_keeps (h : Closed I read) (q : Query) (local_var : Option Variable)
    (value : Option Text) (carrier : Carrier) :
    Keeps I (own_removes read q local_var value carrier) := by
  unfold own_removes
  split
  · refine .ite (fun _ => ?_) fun _ => .reading fun s _ => .pure _
    refine h.need.bind fun _ => .reading fun s _ => ?_
    split
    · exact .raise _
    · exact add_removes_keeps h carrier _
  · exact .reading fun s _ => .pure _

theorem expand_removes_keeps (h : Closed I read) (same : Data → Bool) (removes : List Text) :
    Keeps I (expand_removes g read same removes) := by
  induction removes with
  | nil => exact .pure _
  | cons r rs ih =>
    refine (run_keeps h.reads _).bind fun parser => .reading fun s _ => ?_
    exact .ite (fun _ => ih.bind fun _ => .pure _) fun _ => .raise _

theorem take_words_keeps (h : Closed I read) (q : Query) (value : Option Text) (carrier : Carrier)
    (removes : List Text) (parser : Parse) :
    Keeps I (take_words g read q value carrier removes parser) :=
  .ite (fun _ => (expand_removes_keeps h _ _).bind fun _ => .pure _) fun _ => .pure _

theorem remove_words_keeps (h : Closed I read) (q : Query) (local_var : Option Variable)
    (value : Option Text) (carrier : Carrier) (parser : Option Parse) :
    Keeps I (remove_words g read q local_var value carrier parser) := by
  refine (own_removes_keeps h q local_var value carrier).bind fun removes => ?_
  cases parser with
  | none => exact .pure _
  | some parser => exact (take_words_keeps h q value carrier removes parser).bind fun _ => .pure _

theorem expanded_value_keeps (h : Closed I read) {q : Query} (hstore : Stores I q)
    (local_var : Option Variable) (value : Option Text) (carrier : Carrier) :
    Keeps I (expanded_value g read q local_var value carrier) := by
  have hparser : Keeps I (parse_value g read q value) :=
    .ite (fun _ => (run_keeps h.reads _).bind fun _ => .pure _) fun _ => .pure _
  refine hparser.bind fun parser => (remove_words_keeps h _ _ _ _ _).bind fun parser => ?_
  cases parser with
  | none => exact .pure _
  | some parser => exact Keeps.bind (.modify fun s hs => hstore s parser hs) fun _ => .pure _

theorem getVarFlag_keeps_step {fuel : Nat} (h : Closed I (getVarFlag g fuel)) {q : Query}
    (hstore : Stores I q) : Keeps I (getVarFlag g (fuel + 1) q) := by
  rw [getVarFlag]
  refine .ite (fun _ => .pure _) fun _ => .reading fun s _ => ?_
  split
  · exact .pure _
  · exact (unexpanded_value_keeps h q).bind fun x => expanded_value_keeps h hstore _ _ _

/-- A read changes what is kept beside the variables. -/
def SameVariables (d s : Data) : Prop :=
  s.dict = d.dict ∧ s.parents = d.parents ∧ s.overridedata = d.overridedata ∧
    s.overridevars = d.overridevars

theorem getVarFlag_variables (d : Data) (fuel : Nat) (q : Query) :
    Keeps (SameVariables d) (getVarFlag g fuel q) := by
  have hleaves : LeavesOverrides (SameVariables d) := ⟨fun _ _ _ _ _ hs => hs, fun _ hs => hs⟩
  induction fuel generalizing q with
  | zero => exact .raise _
  | succ fuel ih =>
    exact getVarFlag_keeps_step ⟨ih, need_overrides_keeps hleaves ih, fun _ _ _ _ hs _ => hs⟩
      (fun _ _ hs => hs)

theorem getVarFlags_keeps {fuel : Nat} (h : ∀ q, Keeps I (getVarFlag g fuel q)) (var : Text)
    (expand : List Text) (internalflags : Bool) :
    Keeps I (getVarFlags g fuel var expand internalflags) := by
  refine .reading fun s _ => Keeps.bind (.collect (fun x => ?_) _) fun _ => .pure _
  exact .ite (fun _ => (run_keeps h _).bind fun _ => .pure _) fun _ => .pure _

end

/-! ## More fuel -/

section
variable {g : Expander} {read read' : Read}

theorem run_below (h : ∀ q, Below (read q) (read' q)) (code : Code) :
    Below (run read code) (run read' code) := by
  induction code with
  | done parse => exact .refl _
  | raises e => exact .refl _
  | reads q k ih => exact (h q).bind fun x => ih x.1

theorem override_rounds_below (h : ∀ q, Below (read q) (read' q)) (count : Nat) :
    Below (override_rounds read count) (override_rounds read' count) := by
  induction count with
  | zero => exact .refl _
  | succ count ih =>
    refine (Below.refl _).bind fun _ => (h _).bind fun x => (Below.refl _).bind fun _ => ?_
    refine (h _).bind fun y => .reading fun s => ?_
    exact .ite (.refl _) ((Below.refl _).bind fun _ => ih)

theorem need_overrides_below (h : ∀ q, Below (read q) (read' q)) :
    Below (need_overrides read) (need_overrides read') :=
  .reading fun _ => .ite (.refl _) (.ite (.refl _) (override_rounds_below h 5))

theorem override_value_below (h : ∀ q, Below (read q) (read' q)) (q : Query) :
    Below (override_value read q) (override_value read' q) := by
  refine .reading fun s => ?_
  split
  · exact .refl _
  · refine (need_overrides_below h).bind fun _ => .reading fun t => ?_
    split
    · exact .refl _
    · exact .refl _
    · exact (h _).bind fun _ => .refl _

theorem add_active_below (h : ∀ q, Below (read q) (read' q)) (join : Text → Text → Text)
    (texts : List (Text × Text)) (value : Option Text) :
    Below (add_active read join texts value) (add_active read' join texts value) :=
  .ite (.refl _) ((need_overrides_below h).bind fun _ => .refl _)

theorem unexpanded_value_below (h : ∀ q, Below (read q) (read' q)) (q : Query) :
    Below (unexpanded_value read q) (unexpanded_value read' q) := by
  refine .reading fun s => (override_value_below h q).bind fun x => ?_
  dsimp only
  split
  · refine .ite ?_ (.refl _)
    refine (add_active_below h _ _ _).bind fun value => ?_
    exact (add_active_below h _ _ _).bind fun _ => .refl _
  · exact .refl _

theorem own_removes_below (h : ∀ q, Below (read q) (read' q)) (q : Query)
    (local_var : Option Variable) (value : Option Text) (carrier : Carrier) :
    Below (own_removes read q local_var value carrier)
      (own_removes read' q local_var value carrier) := by
  unfold own_removes
  split
  · exact .ite ((need_overrides_below h).bind fun _ => .refl _) (.refl _)
  · exact .refl _

theorem expand_removes_below (h : ∀ q, Below (read q) (read' q)) (same : Data → Bool)
    (removes : List Text) :
    Below (expand_removes g read same removes) (expand_removes g read' same removes) := by
  induction removes with
  | nil => exact .refl _
  | cons r rs ih =>
    refine (run_below h _).bind fun parser => .reading fun s => ?_
    exact .ite (ih.bind fun _ => .refl _) (.refl _)

theorem take_words_below (h : ∀ q, Below (read q) (read' q)) (q : Query) (value : Option Text)
    (carrier : Carrier) (removes : List Text) (parser : Parse) :
    Below (take_words g read q value carrier removes parser)
      (take_words g read' q value carrier removes parser) :=
  .ite ((expand_removes_below h _ _).bind fun _ => .refl _) (.refl _)

theorem remove_words_below (h : ∀ q, Below (read q) (read' q)) (q : Query)
    (local_var : Option Variable) (value : Option Text) (carrier : Carrier) (parser : Option Parse) :
    Below (remove_words g read q local_var value carrier parser)
      (remove_words g read' q local_var value carrier parser) := by
  refine (own_removes_below h q local_var value carrier).bind fun removes => ?_
  cases parser with
  | none => exact .refl _
  | some parser => exact (take_words_below h q value carrier removes parser).bind fun _ => .refl _

theorem expanded_value_below (h : ∀ q, Below (read q) (read' q)) (q : Query)
    (local_var : Option Variable) (value : Option Text) (carrier : Carrier) :
    Below (expanded_value g read q local_var value carrier)
      (expanded_value g read' q local_var value carrier) := by
  have hparser : Below (parse_value g read q value) (parse_value g read' q value) :=
    .ite ((run_below h _).bind fun _ => .refl _) (.refl _)
  exact hparser.bind fun parser => (remove_words_below h _ _ _ _ _).bind fun _ => .refl _

theorem getVarFlag_succ (fuel : Nat) (q : Query) :
    Below (getVarFlag g fuel q) (getVarFlag g (fuel + 1) q) := by
  induction fuel generalizing q with
  | zero => exact .of_raise _ _
  | succ fuel ih =>
    rw [getVarFlag, getVarFlag]
    refine .ite (.refl _) (.reading fun s => ?_)
    split
    · exact .refl _
    · exact (unexpanded_value_below ih q).bind fun x => expanded_value_below ih _ _ _ _

theorem getVarFlag_mono {fuel fuel' : Nat} (h : fuel ≤ fuel') (q : Query) :
    Below (getVarFlag g fuel q) (getVarFlag g fuel' q) := by
  induction h with
  | refl => exact .refl _
  | step _ ih => exact ih.trans (getVarFlag_succ _ q)

theorem getVarFlag_deterministic {fuel fuel' : Nat} {q : Query} {d d' d'' : Data}
    {x y : Option Text × Option Parse} (h : getVarFlag g fuel q d = (.ok x, d'))
    (h' : getVarFlag g fuel' q d = (.ok y, d'')) : x = y := by
  have hx := getVarFlag_mono (Nat.le_max_left fuel fuel') q d x d' h
  have hy := getVarFlag_mono (Nat.le_max_right fuel fuel') q d y d'' h'
  rw [hx] at hy
  exact Except.ok.inj (Prod.mk.inj hy).1

end

end yocto.data_store
