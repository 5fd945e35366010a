-- The request `clean-unused` of a hash equivalence server (handle_clean_unused in
-- hashserv/server.py, clean_unused of both backends).
import Mathlib.Order.Hom.Basic
import Yocto.HashTables

open yocto.task_ids yocto.unique_table yocto.hash_tables

namespace yocto.unused_hashes

/-! ## The handler -/

/-- The number of microseconds that a datetime can tell apart. -/
def span : Nat := 3652059 * 86400 * 1000000

/-- A datetime, in microseconds since the first one. -/
abbrev Moment := Fin span

inductive Raised
  | overflow_error
  deriving DecidableEq

/-- `timedelta(seconds=seconds)`, in microseconds. -/
def timedelta (seconds : Int) : Int := seconds * 1000000

def minus (moment : Moment) (interval : Int) : Except Raised Moment :=
  if h : 0 ≤ moment.val - interval ∧ moment.val - interval < span then
    .ok ⟨(moment.val - interval).toNat, by omega⟩
  else .error .overflow_error

variable {S : Type} [LinearOrder S] (stored : Moment ↪o S) (now : Moment)

/-- A backend keeps times in a form of its own, `stored`. The count goes out with the answer. -/
def handle_clean_unused (db : Database S) (max_age : Int) : Except Raised (Database S × Nat) := do
  let oldest ← minus now (timedelta (-max_age))
  .ok (db.clean_unused (stored oldest))

def after_request (db : Database S) (max_age : Int) : Database S :=
  match handle_clean_unused stored now db max_age with
  | .ok (db, _) => db
  | .error _ => db

/-! ## What is asked for -/

/-- Created more than so many seconds ago. -/
def OlderThan (max_age : Nat) (o : Outhash Moment) : Prop :=
  ∃ created : Moment, o.created = created ∧ created.val + max_age * 1000000 < now.val

/-- No row of the unihashes has the method and the task hash. -/
def Unused (db : Database Moment) (o : Outhash Moment) : Prop :=
  ∀ r ∈ db.unihashes.rows, ¬(r.method = o.method ∧ r.taskhash = o.taskhash)

/-- Exactly the old and unused rows are gone. -/
structure Cleaned (db : Database Moment) (max_age : Nat) (after : Database S) : Prop where
  outhashes : ∀ o, o ∈ after.outhashes.rows ↔
    ∃ row ∈ db.outhashes.rows, ¬(OlderThan now max_age row ∧ Unused db row) ∧ row.map stored = o
  unihashes : after.unihashes = db.unihashes
  gc_mark : after.gc_mark = db.gc_mark

/-- Created before the moment that lies so many seconds ahead. -/
def Before (max_age : Nat) (o : Outhash Moment) : Prop :=
  ∃ created : Moment, o.created = created ∧ created.val < now.val + max_age * 1000000

/-! ## What is done -/

theorem minus_negated (max_age : Nat) :
    minus now (timedelta (-max_age)) =
      if h : now.val + max_age * 1000000 < span then .ok ⟨now.val + max_age * 1000000, h⟩
      else .error .overflow_error := by
  unfold minus timedelta
  by_cases h : now.val + max_age * 1000000 < span
  · rw [dif_pos (by omega), dif_pos h]
    congr
    omega
  · rw [dif_neg (by omega), dif_neg h]

theorem unused_iff {db : Database Moment} {o : Outhash Moment} :
    Unused db o ↔ db.get_equivalent o.method o.taskhash = none := by
  unfold Unused Database.get_equivalent
  rw [Table.get?_eq_none_iff]
  simp [Unihash.key]

theorem handle_ok {max_age : Nat} (h : now.val + max_age * 1000000 < span) (db : Database Moment) :
    handle_clean_unused stored now (db.map stored) max_age =
      .ok ((db.clean_unused ⟨now.val + max_age * 1000000, h⟩).1.map stored,
        (db.clean_unused ⟨now.val + max_age * 1000000, h⟩).2) := by
  unfold handle_clean_unused
  rw [minus_negated, dif_pos h]
  simp only [bind, Except.bind]
  rw [clean_unused_map stored.strictMono]

theorem handle_error {max_age : Nat} (h : ¬(now.val + max_age * 1000000 < span)) (db : Database S) :
    handle_clean_unused stored now db max_age = .error .overflow_error := by
  unfold handle_clean_unused
  rw [minus_negated, dif_neg h]
  rfl

theorem unused_row_iff {db : Database Moment} {max_age : Nat} (h : now.val + max_age * 1000000 < span)
    {o : Outhash Moment} :
    db.unused ⟨now.val + max_age * 1000000, h⟩ o = true ↔ Before now max_age o ∧ Unused db o := by
  unfold Database.unused
  rw [unused_iff]
  simp only [decide_eq_true_eq]
  refine and_congr_left fun _ => ?_
  unfold Before
  cases hcreated : o.created using WithBot.recBotCoe with
  | bot => simp
  | coe created =>
    simp only [ne_eq, WithBot.coe_ne_bot, not_false_eq_true, true_and, WithBot.coe_lt_coe, WithBot.coe_inj]
    simp [Fin.lt_def]

theorem mem_after {db : Database Moment} {max_age : Nat} (h : now.val + max_age * 1000000 < span)
    {o : Outhash S} :
    o ∈ ((db.clean_unused ⟨now.val + max_age * 1000000, h⟩).1.map stored).outhashes.rows ↔
      ∃ row ∈ db.outhashes.rows, ¬(Before now max_age row ∧ Unused db row) ∧ row.map stored = o := by
  simp only [Database.map, Table.map, Database.clean_unused, Table.delete, List.mem_map, List.mem_filter,
    ← unused_row_iff now h, and_assoc]
  simp

theorem map_inj_row {o o' : Outhash Moment} (h : o.map stored = o'.map stored) : o = o' := by
  unfold Outhash.map at h
  simp only [Outhash.mk.injEq] at h
  obtain ⟨hmethod, htaskhash, houthash, hcreated, hfields⟩ := h
  ext1
  · exact hmethod
  · exact htaskhash
  · exact houthash
  · exact (map_inj stored.strictMono).mp hcreated
  · exact hfields

theorem before_of_older {max_age : Nat} {o : Outhash Moment} (h : OlderThan now max_age o) :
    Before now max_age o := by
  obtain ⟨created, hcreated, hlt⟩ := h
  exact ⟨created, hcreated, by omega⟩

theorem cleaned_iff (db : Database Moment) (max_age : Nat) :
    (∃ after count, handle_clean_unused stored now (db.map stored) max_age = .ok (after, count) ∧
        Cleaned stored now db max_age after) ↔
      now.val + max_age * 1000000 < span ∧
        ∀ row ∈ db.outhashes.rows, Unused db row → Before now max_age row → OlderThan now max_age row := by
  constructor
  · rintro ⟨after, count, hhandle, hcleaned⟩
    by_cases h : now.val + max_age * 1000000 < span
    · rw [handle_ok stored now h] at hhandle
      obtain ⟨rfl, -⟩ := Prod.mk.inj (Except.ok.inj hhandle)
      refine ⟨h, ?_⟩
      intro row hrow hunused hbefore
      -- a row that should stay is not there any more
      by_contra holder
      have hstays := (hcleaned.outhashes (row.map stored)).mpr ⟨row, hrow, fun hold => holder hold.1, rfl⟩
      obtain ⟨row', -, hkept, heq⟩ := (mem_after stored now h).mp hstays
      obtain rfl := map_inj_row stored heq
      exact hkept ⟨hbefore, hunused⟩
    · rw [handle_error stored now h] at hhandle
      cases hhandle
  · rintro ⟨h, hrows⟩
    refine ⟨_, _, handle_ok stored now h db, ?_, rfl, rfl⟩
    intro o
    rw [mem_after stored now h]
    refine exists_congr fun row => and_congr_right fun hrow => and_congr_left fun _ => not_congr ?_
    exact and_congr_left fun hunused => ⟨hrows row hrow hunused, before_of_older now⟩

theorem kept_subset_iff (db : Database Moment) (max_age extra : Nat) :
    (after_request stored now (db.map stored) max_age).outhashes.rows ⊆
        (after_request stored now (db.map stored) (max_age + extra : Nat)).outhashes.rows ↔
      (now.val + (max_age + extra) * 1000000 < span → ∀ row ∈ db.outhashes.rows, Unused db row →
        Before now (max_age + extra) row → Before now max_age row) := by
  unfold after_request
  by_cases h : now.val + (max_age + extra) * 1000000 < span
  · have hle : max_age * 1000000 ≤ (max_age + extra) * 1000000 := Nat.mul_le_mul_right _ (Nat.le_add_right _ _)
    have h' : now.val + max_age * 1000000 < span := lt_of_le_of_lt (Nat.add_le_add_left hle _) h
    rw [handle_ok stored now h, handle_ok stored now h']
    simp only [h, true_implies]
    constructor
    · intro hsubset row hrow hunused hbefore
      by_contra hnot
      have hstays := hsubset ((mem_after stored now h').mpr ⟨row, hrow, fun hold => hnot hold.1, rfl⟩)
      obtain ⟨row', -, hkept, heq⟩ := (mem_after stored now h).mp hstays
      obtain rfl := map_inj_row stored heq
      exact hkept ⟨hbefore, hunused⟩
    · intro hrows o ho
      obtain ⟨row, hrow, hkept, rfl⟩ := (mem_after stored now h').mp ho
      apply (mem_after stored now h).mpr
      exact ⟨row, hrow, fun hold => hkept ⟨hrows row hrow hold.2 hold.1, hold.2⟩, rfl⟩
  · rw [handle_error stored now h]
    simp only [h, false_implies, iff_true]
    by_cases h' : now.val + max_age * 1000000 < span
    · rw [handle_ok stored now h']
      intro o ho
      obtain ⟨row, hrow, -, rfl⟩ := (mem_after stored now h').mp ho
      exact List.mem_map_of_mem hrow
    · rw [handle_error stored now h']
      exact List.Subset.refl _

/-- The request does what it should as long as the moment that lies `max_age` ahead is one, and each unused
row from before that moment is also old enough. A larger age spares the rows that a smaller one spares, as long
as no unused row lies between the two moments ahead. -/
theorem old_unused_rows_are_removed_iff (db : Database Moment) (max_age : Nat) :
    ((∃ after count, handle_clean_unused stored now (db.map stored) max_age = .ok (after, count) ∧
        Cleaned stored now db max_age after) ↔
      now.val + max_age * 1000000 < span ∧
        ∀ row ∈ db.outhashes.rows, Unused db row → Before now max_age row → OlderThan now max_age row) ∧
    ∀ extra, (after_request stored now (db.map stored) max_age).outhashes.rows ⊆
        (after_request stored now (db.map stored) (max_age + extra : Nat)).outhashes.rows ↔
      (now.val + (max_age + extra) * 1000000 < span → ∀ row ∈ db.outhashes.rows, Unused db row →
        Before now (max_age + extra) row → Before now max_age row) :=
  ⟨cleaned_iff stored now db max_age, kept_subset_iff stored now db max_age⟩

/-! ## A row of the same second -/

/-- An output hash that was stored half a second before a request, and that is not used. -/
def just_stored : Outhash Moment :=
  ⟨text "m", text "t", text "o", ((⟨500000, by unfold span; omega⟩ : Moment) : WithBot Moment), fun _ => none⟩

def one_row : Database Moment := { (Database.empty : Database Moment) with
  outhashes := ⟨[just_stored], List.nodup_singleton _⟩ }

def request_time : Moment := ⟨1000000, by unfold span; omega⟩

def as_it_is : Moment ↪o Moment := RelEmbedding.refl (· ≤ ·)

theorem request_in_span : request_time.val + 3600 * 1000000 < span := by
  simp [request_time, span]

/-- It is removed by a request for rows that are more than an hour old. -/
theorem a_new_row_is_removed :
    (after_request as_it_is request_time (one_row.map as_it_is) 3600).outhashes.rows = [] ∧
      ¬∃ after count, handle_clean_unused as_it_is request_time (one_row.map as_it_is) 3600 = .ok (after, count) ∧
        Cleaned as_it_is request_time one_row 3600 after := by
  have hgone : (after_request as_it_is request_time (one_row.map as_it_is) (3600 : Nat)).outhashes.rows = [] := by
    unfold after_request
    rw [handle_ok as_it_is request_time request_in_span]
    apply List.eq_nil_iff_forall_not_mem.mpr
    intro o ho
    obtain ⟨row, hrow, hkept, -⟩ := (mem_after as_it_is request_time request_in_span).mp ho
    obtain rfl := List.mem_singleton.mp hrow
    apply hkept
    refine ⟨⟨_, rfl, ?_⟩, fun r hr => nomatch hr⟩
    simp [request_time]
  refine ⟨hgone, ?_⟩
  rintro ⟨after, count, hhandle, hcleaned⟩
  have hafter : after.outhashes.rows = [] := by
    have hrows := hgone
    unfold after_request at hrows
    rw [Nat.cast_ofNat, hhandle] at hrows
    exact hrows
  have hnew : ¬OlderThan request_time 3600 just_stored := by
    rintro ⟨created, hcreated, hlt⟩
    obtain rfl := WithBot.coe_injective hcreated
    simp [request_time] at hlt
  have hstays := (hcleaned.outhashes (just_stored.map as_it_is)).mpr
    ⟨just_stored, List.mem_singleton_self _, fun hold => hnew hold.1, rfl⟩
  simp [hafter] at hstays

end yocto.unused_hashes
