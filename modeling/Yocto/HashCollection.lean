-- Garbage collection of unihashes.
import Yocto.HashServer
import Yocto.Runs

open yocto.task_ids yocto.ordered_dict yocto.unique_table yocto.hash_tables yocto.hash_server
open yocto.runs

namespace yocto.hash_collection

variable {T : Type}

/-! ## What a collection is about -/

/-- A row matches a condition when it has all its values, each in the column of that name. An empty
condition matches nothing. -/
def row_matches (condition : Condition) (r : Unihash) : Bool :=
  condition ≠ [] && unihash_meets condition r

def row_marked (condition : Condition) (r : Unihash) : Bool :=
  make_condition UNIHASH_TABLE_COLUMNS condition ≠ [] &&
    unihash_meets (make_condition UNIHASH_TABLE_COLUMNS condition) r

/-- The collection that runs: the keys that matched a condition of it or were inserted since it
began, and the keys of the rows that bore its mark when it began or were marked since. -/
structure Collection where
  mark : Text
  kept : List (Text × Text)
  marked : List (Text × Text)

/-- A server, and the collection that runs. -/
structure Watch (T : Type) where
  server : Server T
  collection : Option Collection

def Watch.init : Watch T := ⟨.init, none⟩

def keys_where (db : Database T) (p : Unihash → Bool) : List (Text × Text) :=
  (db.unihashes.rows.filter p).map Unihash.key

def Collection.start (mark : Text) (db : Database T) : Collection :=
  ⟨mark, [], keys_where db fun r => r.gc_mark = mark⟩

/-- A `gc-mark` continues the collection with its mark, or starts one. -/
def Collection.next (current : Option Collection) (mark : Text) (db : Database T) : Collection :=
  match current with
  | some c => if c.mark = mark then c else .start mark db
  | none => .start mark db

def Collection.add_marks (c : Collection) (condition : Condition) (db : Database T) : Collection :=
  ⟨c.mark, c.kept ++ keys_where db (row_matches condition),
    c.marked ++ keys_where db (row_marked condition)⟩

def inserted (db db' : Database T) : List (Text × Text) :=
  keys_where db' fun r => db.unihashes.get? r.key = none

def call (s : Server T) : Action T → Option (Handler T)
  | .advance client _ => s.clients client
  | _ => none

def follow (w : Watch T) (a : Action T) (s' : Server T) : Option Collection :=
  match call w.server a with
  | some (.gc_mark mark condition) =>
    some ((Collection.next w.collection mark w.server.db).add_marks condition w.server.db)
  | some (.gc_sweep _) => none
  | _ => w.collection.map fun c => { c with kept := c.kept ++ inserted w.server.db s'.db }

/-! ## Marks -/

variable {db : Database T}

theorem mem_keys_where {p : Unihash → Bool} {k : Text × Text} :
    k ∈ keys_where db p ↔ ∃ r ∈ db.unihashes.rows, p r ∧ r.key = k := by
  simp [keys_where, and_assoc]

theorem key_mem_keys_where {p : Unihash → Bool} {r : Unihash} (hr : r ∈ db.unihashes.rows) :
    r.key ∈ keys_where db p ↔ p r := by
  rw [mem_keys_where]
  constructor
  · rintro ⟨x, hx, hp, hkey⟩
    rwa [← List.inj_on_of_nodup_map db.unihashes.unique hx hr hkey]
  · intro hp
    exact ⟨r, hr, hp, rfl⟩

theorem column_of_ne_none {r : Unihash} {c : Text} (h : r.column c ≠ none) :
    c ∈ UNIHASH_TABLE_COLUMNS := by
  unfold Unihash.column at h
  unfold UNIHASH_TABLE_COLUMNS
  split at h
  · simp [*]
  · split at h
    · simp [*]
    · split at h
      · simp [*]
      · split at h
        · simp [*]
        · exact absurd rfl h

theorem row_marked_of_matches {condition : Condition} {r : Unihash}
    (h : row_matches condition r = true) : row_marked condition r = true := by
  simp only [row_matches, unihash_meets, Bool.and_eq_true, decide_eq_true_eq, List.all_eq_true] at h
  obtain ⟨hne, hall⟩ := h
  have hmem : ∀ x ∈ make_condition UNIHASH_TABLE_COLUMNS condition, x ∈ condition := by
    intro x hx
    obtain ⟨c, -, hc⟩ := List.mem_filterMap.mp hx
    split at hc
    · cases hc
    · cases hc
    · rename_i v hget
      obtain rfl := Option.some.inj hc
      exact OrderedDict.mem_of_get? hget
  have hnonempty : make_condition UNIHASH_TABLE_COLUMNS condition ≠ [] := by
    obtain ⟨x, rest, hcond⟩ := List.exists_cons_of_ne_nil hne
    have hget : OrderedDict.get? condition x.1 = some x.2 := by
      rw [hcond]
      simp [OrderedDict.get?]
    obtain ⟨hsome, hcolumn⟩ := hall x (by rw [hcond]; exact List.mem_cons_self)
    have hcol : x.1 ∈ UNIHASH_TABLE_COLUMNS := by
      apply column_of_ne_none (r := r)
      rw [hcolumn]
      exact Option.isSome_iff_ne_none.mp hsome
    have hin : x ∈ make_condition UNIHASH_TABLE_COLUMNS condition := by
      refine List.mem_filterMap.mpr ⟨x.1, hcol, ?_⟩
      rw [hget]
      cases hv : x.2 with
      | null =>
        rw [hv] at hsome
        cases hsome
      | text v => simp [← hv]
      | int v => simp [← hv]
      | time v => simp [← hv]
    exact List.ne_nil_of_mem hin
  simp only [row_marked, unihash_meets, Bool.and_eq_true, decide_eq_true_eq, List.all_eq_true]
  exact ⟨hnonempty, fun x hx => hall x (hmem x hx)⟩

/-- Calls other than those of a collection change no row and give new rows the current mark. -/
structure Adds (db db' : Database T) : Prop where
  gc_mark : db'.gc_mark = db.gc_mark
  rows : ∀ r ∈ db'.unihashes.rows, r ∈ db.unihashes.rows ∨
    (db.unihashes.get? r.key = none ∧ r.gc_mark = db.gc_mark.getD [])

theorem Adds.refl (db : Database T) : Adds db db := ⟨rfl, fun _ h => Or.inl h⟩

theorem insert_unihash_adds (db : Database T) (method taskhash unihash : Text) :
    Adds db (db.insert_unihash method taskhash unihash).1 := by
  refine ⟨rfl, ?_⟩
  intro r hr
  rcases Table.mem_insert.mp hr with hr | ⟨rfl, hnew⟩
  · exact Or.inl hr
  · exact Or.inr ⟨hnew, rfl⟩

theorem insert_outhash_adds (db : Database T) (row : Outhash T) :
    Adds db (db.insert_outhash row).1 := ⟨rfl, fun _ h => Or.inl h⟩

/-- The invariant of all runs: the mark of the database is that of the collection, and the rows that
bear it are those that the collection knows. -/
structure Tracked (w : Watch T) : Prop where
  mark : w.collection.map Collection.mark = w.server.db.gc_mark
  rows : ∀ c, w.collection = some c → ∀ r ∈ w.server.db.unihashes.rows,
    r.gc_mark = c.mark ↔ r.key ∈ c.kept ∨ r.key ∈ c.marked

theorem Tracked.adds {w : Watch T} {s' : Server T} (h : Tracked w) (hadds : Adds w.server.db s'.db) :
    Tracked ⟨s', w.collection.map fun c =>
      { c with kept := c.kept ++ inserted w.server.db s'.db }⟩ := by
  constructor
  · rw [hadds.gc_mark, ← h.mark, Option.map_map]
    rfl
  · intro c hc r hr
    obtain ⟨c₀, hc₀, rfl⟩ := Option.map_eq_some_iff.mp hc
    have hnew : r.key ∈ inserted w.server.db s'.db ↔ w.server.db.unihashes.get? r.key = none := by
      unfold inserted
      rw [key_mem_keys_where hr]
      simp
    rcases hadds.rows r hr with hold | ⟨habsent, hmark⟩
    · have hpresent : w.server.db.unihashes.get? r.key ≠ none := by
        rw [Table.get?_of_mem hold]
        simp
      rw [h.rows c₀ hc₀ r hold]
      simp only [List.mem_append, hnew, hpresent, or_false]
    · have hcurrent := h.mark
      rw [hc₀, Option.map_some] at hcurrent
      rw [← hcurrent, Option.getD_some] at hmark
      simp only [List.mem_append, hnew, habsent, or_true, true_or, iff_true]
      exact hmark

theorem mem_gc_mark {mark : Text} {condition : Condition} {r : Unihash}
    (hr : r ∈ (db.gc_mark_where mark
      (make_condition UNIHASH_TABLE_COLUMNS condition)).1.unihashes.rows) :
    ∃ r₀ ∈ db.unihashes.rows, r.key = r₀.key ∧
      (r.gc_mark = mark ↔ row_marked condition r₀ ∨ r₀.gc_mark = mark) := by
  unfold Database.gc_mark_where at hr
  dsimp only at hr
  split at hr
  · rename_i hnil
    exact ⟨r, hr, rfl, by simp [row_marked, hnil]⟩
  · rename_i hne
    obtain ⟨r₀, hr₀, rfl⟩ := List.mem_map.mp hr
    refine ⟨r₀, hr₀, ?_, ?_⟩
    · split <;> rfl
    · cases hmeets : unihash_meets (make_condition UNIHASH_TABLE_COLUMNS condition) r₀ <;>
        simp [row_marked, hne, hmeets]

theorem Tracked.next {w : Watch T} (h : Tracked w) (mark : Text) :
    (Collection.next w.collection mark w.server.db).mark = mark ∧
      ∀ r ∈ w.server.db.unihashes.rows, r.gc_mark = mark ↔
        r.key ∈ (Collection.next w.collection mark w.server.db).kept ∨
          r.key ∈ (Collection.next w.collection mark w.server.db).marked := by
  have hstart : ∀ r ∈ w.server.db.unihashes.rows, r.gc_mark = mark ↔
      r.key ∈ (Collection.start mark w.server.db).kept ∨
        r.key ∈ (Collection.start mark w.server.db).marked := by
    intro r hr
    simp only [Collection.start, List.not_mem_nil, false_or]
    rw [key_mem_keys_where hr]
    simp
  unfold Collection.next
  split
  · rename_i c hc
    split
    · rename_i heq
      subst heq
      exact ⟨rfl, h.rows c hc⟩
    · exact ⟨rfl, hstart⟩
  · exact ⟨rfl, hstart⟩

theorem Tracked.marks {w : Watch T} {s' : Server T} {mark : Text} {condition : Condition} (h : Tracked w)
    (hdb : s'.db = (w.server.db.gc_mark_where mark
      (make_condition UNIHASH_TABLE_COLUMNS condition)).1) :
    Tracked ⟨s', some ((Collection.next w.collection mark w.server.db).add_marks condition
      w.server.db)⟩ := by
  obtain ⟨hmark, hnext⟩ := h.next mark
  constructor
  · dsimp only
    rw [hdb, Option.map_some]
    unfold Database.gc_mark_where Collection.add_marks
    dsimp only
    rw [hmark]
    split <;> rfl
  · intro c hc r hr
    obtain rfl := Option.some.inj hc
    dsimp only at hr
    rw [hdb] at hr
    obtain ⟨r₀, hr₀, hkey, hiff⟩ := mem_gc_mark hr
    unfold Collection.add_marks
    dsimp only
    rw [hmark, hiff, hnext r₀ hr₀, hkey, List.mem_append, List.mem_append, key_mem_keys_where hr₀,
      key_mem_keys_where hr₀]
    constructor
    · rintro (hmarked | hkept | hmarked)
      · exact Or.inr (Or.inr hmarked)
      · exact Or.inl (Or.inl hkept)
      · exact Or.inr (Or.inl hmarked)
    · rintro ((hkept | hmatches) | hmarked | hmarked)
      · exact Or.inr (Or.inl hkept)
      · exact Or.inl (row_marked_of_matches hmatches)
      · exact Or.inr (Or.inr hmarked)
      · exact Or.inl hmarked

variable [LinearOrder T]

theorem remove_adds (db : Database T) (created_of : Value → Option T) (condition : Condition) :
    Adds db (db.remove created_of condition).1 :=
  ⟨rfl, fun _ h => Or.inl (List.mem_of_mem_filter h)⟩

theorem clean_unused_adds (db : Database T) (oldest : T) : Adds db (db.clean_unused oldest).1 :=
  ⟨rfl, fun _ h => Or.inl h⟩

theorem effect_adds {cfg : Config T} {h : Handler T} (hmark : ∀ mark condition, h ≠ .gc_mark mark condition)
    (hsweep : ∀ mark, h ≠ .gc_sweep mark) : Adds db (effect cfg db h) := by
  cases h with
  | report_outhash r => exact insert_outhash_adds db r.outhash_data
  | report_unihash r row unihash => exact insert_unihash_adds db _ _ _
  | unihash_store c d => exact insert_unihash_adds db _ _ _
  | unified_unihash c d => exact insert_unihash_adds db _ _ _
  | unified_outhash c d =>
    unfold effect
    dsimp only
    split
    · exact insert_outhash_adds db _
    · exact Adds.refl db
  | equiv_unihash method taskhash unihash => exact insert_unihash_adds db _ _ _
  | gc_mark mark condition => exact absurd rfl (hmark mark condition)
  | gc_sweep mark => exact absurd rfl (hsweep mark)
  | remove condition => exact remove_adds db _ _
  | clean_unused oldest => exact clean_unused_adds db _
  | _ => exact Adds.refl db

/-! ## Runs -/

def watch (cfg : Config T) (w : Watch T) (a : Action T) : Option (Watch T) :=
  (step cfg w.server a).map fun s' => ⟨s', follow w a s'⟩

variable {cfg : Config T} {s s' : Server T} {w w' : Watch T} {a : Action T}

theorem step_db (h : step cfg s a = some s') :
    (∃ hd, call s a = some hd ∧ s'.db = effect cfg s.db hd) ∨
      (call s a = none ∧ Adds s.db s'.db) := by
  cases a with
  | request client q =>
    refine Or.inr ⟨rfl, ?_⟩
    simp only [step] at h
    split at h
    · obtain rfl := Option.some.inj h
      exact Adds.refl _
    · cases h
  | advance client reply =>
    refine Or.inl ?_
    simp only [step] at h
    split at h
    · cases h
    · rename_i hd hclient
      obtain rfl := Option.some.inj h
      refine ⟨hd, hclient, ?_⟩
      rw [after_db, advance_effect]
  | worker reply =>
    refine Or.inr ⟨rfl, ?_⟩
    simp only [step, work] at h
    split at h
    · split at h
      · cases h
      · obtain rfl := Option.some.inj h
        exact Adds.refl _
    · split at h
      · obtain rfl := Option.some.inj h
        exact Adds.refl _
      · obtain rfl := Option.some.inj h
        exact Adds.refl _
    · obtain rfl := Option.some.inj h
      exact insert_unihash_adds _ _ _ _

theorem Tracked.step (h : Tracked w) (hstep : watch cfg w a = some w') : Tracked w' := by
  obtain ⟨s', hs, rfl⟩ := Option.map_eq_some_iff.mp hstep
  unfold follow
  rcases step_db hs with ⟨hd, hcall, hdb⟩ | ⟨hcall, hadds⟩
  · rw [hcall]
    split
    · rename_i mark condition heq
      obtain rfl := Option.some.inj heq
      exact h.marks hdb
    · rename_i mark heq
      obtain rfl := Option.some.inj heq
      constructor
      · dsimp only
        rw [hdb]
        unfold effect Database.gc_sweep
        dsimp only
        split
        · rename_i hnone
          rw [hnone]
          rfl
        · rfl
      · intro c hc
        cases hc
    · rename_i hmark hsweep
      apply h.adds
      rw [hdb]
      exact effect_adds (fun mark condition heq => hmark mark condition (by rw [heq]))
        (fun mark heq => hsweep mark (by rw [heq]))
  · rw [hcall]
    exact h.adds hadds

/-- The sweep of a handler deletes exactly the rows that the collection with its mark did not keep. -/
def SweepsExactly (w : Watch T) (mark : Text) (s' : Server T) : Prop :=
  ∃ c, w.collection = some c ∧ c.mark = mark ∧ ∀ r, r ∈ s'.db.unihashes.rows ↔
    r ∈ w.server.db.unihashes.rows ∧ r.key ∈ c.kept

/-- In every run, a sweep that is carried out is exact exactly when its mark is still the current one,
and each row that bore it when the collection began, or was marked since, matched a condition or was
inserted since. -/
theorem sweep_is_exact_iff (cfg : Config T) {client : Nat} {mark : Text}
    {reply : Option (Upstream T)} (hrun : Reaches (watch cfg) anyStep Watch.init w)
    (hclient : w.server.clients client = some (.gc_sweep mark))
    (hstep : step cfg w.server (.advance client reply) = some s') :
    SweepsExactly w mark s' ↔ w.server.db.gc_mark = some mark ∧ ∀ c, w.collection = some c →
      ∀ r ∈ w.server.db.unihashes.rows, r.key ∈ c.marked → r.key ∈ c.kept := by
  have htracked : Tracked w := by
    apply hrun.invariant
    · exact ⟨rfl, by simp [Watch.init]⟩
    · exact fun _ _ _ h _ hstep => h.step hstep
  have hdb : s'.db = w.server.db.gc_sweep.1 := by
    simp only [hash_server.step, hclient] at hstep
    obtain rfl := Option.some.inj hstep
    rw [after_db]
    rfl
  have hmark := htracked.mark
  constructor
  · rintro ⟨c, hc, rfl, hexact⟩
    rw [hc, Option.map_some] at hmark
    refine ⟨hmark.symm, ?_⟩
    intro c' hc' r hr hmarked
    obtain rfl := Option.some.inj (hc.symm.trans hc')
    have hstays : r ∈ s'.db.unihashes.rows := by
      rw [hdb]
      unfold Database.gc_sweep
      rw [← hmark]
      have hbears := (htracked.rows c hc r hr).mpr (Or.inr hmarked)
      exact List.mem_filter.mpr ⟨hr, by simp [hbears]⟩
    exact ((hexact r).mp hstays).2
  · rintro ⟨hcurrent, hkept⟩
    rw [hcurrent] at hmark
    obtain ⟨c, hc, rfl⟩ := Option.map_eq_some_iff.mp hmark
    refine ⟨c, hc, rfl, ?_⟩
    intro r
    rw [hdb]
    unfold Database.gc_sweep
    rw [hcurrent]
    simp only [Table.delete, List.mem_filter, decide_not, Bool.not_not, decide_eq_true_eq]
    apply and_congr_right
    intro hr
    rw [htracked.rows c hc r hr]
    exact ⟨fun h => h.elim id (hkept c hc r hr), Or.inl⟩

/-! ## A mark that is used twice -/

def quiet : Config Nat := ⟨false, fun _ => none⟩

def asks (q : Request Nat) (calls : Nat) : List (Action Nat) :=
  .request 0 q :: List.replicate calls (.advance 0 none)

def marks (method : Text) : List (Action Nat) :=
  asks (.gc_mark (text "k") [(text "method", .text method)]) 1

def begun : List (Action Nat) :=
  asks (.report_equiv (text "m") (text "t") (text "u")) 2 ++ marks (text "m")

def sweeping (before : List (Action Nat)) : List (Action Nat) :=
  before ++ asks (.gc_sweep (text "k")) 1

def firstSweep : Watch Nat :=
  (runAll (watch quiet) Watch.init (sweeping begun)).get (by decide +kernel)

/-- The second one, with the same mark, marks only the rows of another method. -/
def secondSweep : Watch Nat :=
  (runAll (watch quiet) Watch.init
    (sweeping (sweeping begun ++ [.advance 0 none] ++ marks (text "x")))).get (by decide +kernel)

def swept (w : Watch Nat) : Option (Server Nat) := step quiet w.server (.advance 0 none)

theorem the_first_sweep_is_exact :
    firstSweep.server.db.unihashes.rows = [⟨text "m", text "t", text "u", text "k"⟩] ∧
      ∃ s', swept firstSweep = some s' ∧ SweepsExactly firstSweep (text "k") s' := by
  have hrun : Reaches (watch quiet) anyStep Watch.init firstSweep := .of_isSome _
  have hclient : firstSweep.server.clients 0 = some (.gc_sweep (text "k")) := rfl
  refine ⟨by decide +kernel, _, rfl, ?_⟩
  rw [sweep_is_exact_iff quiet hrun hclient
    (rfl : step quiet firstSweep.server (.advance 0 none) = some _)]
  have hkept : firstSweep.collection.map (fun c => (c.kept, c.marked)) =
      some ([(text "m", text "t")], [(text "m", text "t")]) := by decide +kernel
  refine ⟨by decide +kernel, ?_⟩
  intro c hc r _ hmarked
  rw [hc, Option.map_some, Option.some.injEq, Prod.mk.injEq] at hkept
  rw [hkept.1, ← hkept.2]
  exact hmarked

/-- The second sweep keeps a row that nothing of its collection matched. -/
theorem the_second_sweep_keeps_too_much :
    Reaches (watch quiet) anyStep Watch.init secondSweep ∧
      secondSweep.server.clients 0 = some (.gc_sweep (text "k")) ∧
      secondSweep.collection.map Collection.kept = some [] ∧
      ∃ s', swept secondSweep = some s' ∧
        s'.db.unihashes.rows = [⟨text "m", text "t", text "u", text "k"⟩] ∧
        ¬ SweepsExactly secondSweep (text "k") s' := by
  have hkept : secondSweep.collection.map Collection.kept = some [] := by decide +kernel
  refine ⟨.of_isSome _, rfl, hkept, _, rfl, by decide +kernel, ?_⟩
  rintro ⟨c, hc, -, hexact⟩
  rw [hc, Option.map_some, Option.some.injEq] at hkept
  have hstays := (hexact ⟨text "m", text "t", text "u", text "k"⟩).mp (by decide +kernel)
  rw [hkept] at hstays
  cases hstays.2

end yocto.hash_collection
