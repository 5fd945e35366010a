-- Tables of a database in which a key is UNIQUE: a row whose key is there
-- already is not inserted, rows are deleted by a condition, and an update leaves
-- the keys alone.
import Mathlib.Data.List.Nodup
import Mathlib.Tactic

namespace yocto.unique_table

variable {R K : Type} {key : R → K}

structure Table (key : R → K) where
  rows : List R
  unique : (rows.map key).Nodup

namespace Table

def empty : Table key := ⟨[], List.nodup_nil⟩

def delete (t : Table key) (p : R → Bool) : Table key where
  rows := t.rows.filter fun r => !p r
  unique := t.unique.sublist (List.filter_sublist.map key)

/-- `UPDATE ... WHERE`, of columns that are not part of the key. -/
def update (t : Table key) (p : R → Bool) (f : R → R) (hkey : ∀ r, key (f r) = key r) :
    Table key where
  rows := t.rows.map fun r => if p r then f r else r
  unique := by
    have hkeys : (t.rows.map fun r => if p r then f r else r).map key = t.rows.map key := by
      rw [List.map_map]
      apply List.map_congr_left
      intro r _
      simp only [Function.comp]
      split
      · exact hkey r
      · rfl
    rw [hkeys]
    exact t.unique

theorem update_eq_self {t : Table key} {p : R → Bool} {f : R → R}
    {hkey : ∀ r, key (f r) = key r} (h : ∀ r ∈ t.rows, p r = false) : t.update p f hkey = t := by
  have hrows : (t.rows.map fun r => if p r then f r else r) = t.rows := by
    rw [List.map_congr_left fun r hr => if_neg (ne_true_of_eq_false (h r hr)), List.map_id']
  unfold update
  cases t
  simp only at hrows
  simp only [hrows]

/-- The same rows in another form, with their keys. -/
def map {R' : Type} {key' : R' → K} (t : Table key) (f : R → R') (hkey : ∀ r, key' (f r) = key r) :
    Table key' where
  rows := t.rows.map f
  unique := by
    rw [List.map_map, show key' ∘ f = key from funext hkey]
    exact t.unique

def count (t : Table key) (p : R → Bool) : Nat := t.rows.countP p

theorem ext_rows {t t' : Table key} (h : t.rows = t'.rows) : t = t' := by
  cases t
  cases t'
  simp only at h
  subst h
  rfl

section
variable {R' : Type} {key' : R' → K} (f : R → R')

theorem delete_map (hkey : ∀ r, key' (f r) = key r) (t : Table key) (p : R' → Bool) :
    (t.map f hkey).delete p = (t.delete fun r => p (f r)).map f hkey := by
  apply ext_rows
  simp [delete, map, List.filter_map, Function.comp_def]

theorem count_map (hkey : ∀ r, key' (f r) = key r) (t : Table key) (p : R' → Bool) :
    (t.map f hkey).count p = t.count fun r => p (f r) := by
  simp [count, map, List.countP_map, Function.comp_def]

end

variable [DecidableEq K]

def get? (t : Table key) (k : K) : Option R := t.rows.find? fun r => key r = k

/-- `INSERT OR IGNORE`, with whether the row was inserted. -/
def insert (t : Table key) (r : R) : Table key × Bool :=
  if h : key r ∈ t.rows.map key then (t, false)
  else (⟨t.rows ++ [r], by
    rw [List.map_append]
    apply t.unique.append (List.nodup_singleton _)
    intro k hk hkr
    rw [List.mem_singleton.mp hkr] at hk
    exact h hk⟩, true)

theorem get?_eq_some_iff {t : Table key} {k : K} {r : R} :
    t.get? k = some r ↔ r ∈ t.rows ∧ key r = k := by
  constructor
  · intro h
    exact ⟨List.mem_of_find?_eq_some h, by simpa using List.find?_some h⟩
  · rintro ⟨hr, rfl⟩
    unfold get?
    cases hfind : t.rows.find? fun x => key x = key r with
    | none =>
      rw [List.find?_eq_none] at hfind
      exact absurd (by simp) (hfind r hr)
    | some x =>
      have hx : key x = key r := by simpa using List.find?_some hfind
      rw [List.inj_on_of_nodup_map t.unique (List.mem_of_find?_eq_some hfind) hr hx]

theorem get?_eq_none_iff {t : Table key} {k : K} :
    t.get? k = none ↔ ∀ r ∈ t.rows, key r ≠ k := by
  simp [get?, List.find?_eq_none]

theorem get?_of_mem {t : Table key} {r : R} (h : r ∈ t.rows) : t.get? (key r) = some r :=
  get?_eq_some_iff.mpr ⟨h, rfl⟩

theorem key_of_get? {t : Table key} {k : K} {r : R} (h : t.get? k = some r) : key r = k :=
  (get?_eq_some_iff.mp h).2

theorem get?_insert (t : Table key) (r : R) (k : K) :
    (t.insert r).1.get? k = if k = key r then some ((t.get? k).getD r) else t.get? k := by
  unfold insert
  split
  · rename_i hin
    split
    · rename_i heq
      subst heq
      obtain ⟨x, hx, hkey⟩ := List.mem_map.mp hin
      rw [get?_eq_some_iff.mpr ⟨hx, hkey⟩, Option.getD_some]
    · rfl
  · rename_i hin
    have habsent : t.get? (key r) = none :=
      get?_eq_none_iff.mpr fun x hx heq => hin (List.mem_map.mpr ⟨x, hx, heq⟩)
    unfold get? at habsent ⊢
    dsimp only
    rw [List.find?_append]
    split
    · rename_i heq
      subst heq
      simp [habsent]
    · rename_i hne
      simp [Ne.symm hne]

theorem insert_eq_true_iff {t : Table key} {r : R} :
    (t.insert r).2 = true ↔ t.get? (key r) = none := by
  rw [get?_eq_none_iff]
  unfold insert
  split
  · rename_i hin
    obtain ⟨x, hx, hkey⟩ := List.mem_map.mp hin
    simp only [Bool.false_eq_true, false_iff, not_forall]
    exact ⟨x, hx, not_not_intro hkey⟩
  · rename_i hin
    simp only [true_iff]
    exact fun x hx heq => hin (List.mem_map.mpr ⟨x, hx, heq⟩)

theorem insert_of_none {t : Table key} {r : R} (h : t.get? (key r) = none) :
    (t.insert r).1.rows = t.rows ++ [r] ∧ (t.insert r).2 = true := by
  have htrue := insert_eq_true_iff.mpr h
  unfold insert at htrue ⊢
  split
  · rename_i hin
    simp [hin] at htrue
  · exact ⟨rfl, rfl⟩

theorem insert_of_some {t : Table key} {r x : R} (h : t.get? (key r) = some x) :
    t.insert r = (t, false) := by
  obtain ⟨hx, hkey⟩ := get?_eq_some_iff.mp h
  unfold insert
  rw [dif_pos (List.mem_map.mpr ⟨x, hx, hkey⟩)]

theorem mem_insert {t : Table key} {r x : R} :
    x ∈ (t.insert r).1.rows ↔ x ∈ t.rows ∨ (x = r ∧ t.get? (key r) = none) := by
  cases h : t.get? (key r) with
  | none => simp [(insert_of_none h).1]
  | some y => simp [insert_of_some h]

theorem get?_delete (t : Table key) (p : R → Bool) (k : K) :
    (t.delete p).get? k = (t.get? k).filter fun r => !p r := by
  cases h : t.get? k with
  | none =>
    rw [get?_eq_none_iff] at h
    simp only [Option.filter_none]
    rw [get?_eq_none_iff]
    exact fun r hr => h r (List.mem_of_mem_filter hr)
  | some r =>
    obtain ⟨hr, hkey⟩ := get?_eq_some_iff.mp h
    cases hp : p r with
    | false =>
      simp only [Option.filter_some, hp, Bool.not_false, if_true]
      exact get?_eq_some_iff.mpr ⟨List.mem_filter.mpr ⟨hr, by simp [hp]⟩, hkey⟩
    | true =>
      simp only [Option.filter_some, hp, Bool.not_true, Bool.false_eq_true, if_false]
      rw [get?_eq_none_iff]
      intro x hx hxk
      obtain ⟨hx, hnot⟩ := List.mem_filter.mp hx
      rw [List.inj_on_of_nodup_map t.unique hx hr (hxk.trans hkey.symm)] at hnot
      simp [hp] at hnot

def replace (t : Table key) (r : R) : Table key := ((t.delete fun x => key x = key r).insert r).1

theorem get?_replace (t : Table key) (r : R) (k : K) :
    (t.replace r).get? k = if k = key r then some r else t.get? k := by
  unfold replace
  rw [get?_insert, get?_delete]
  cases hfind : t.get? k with
  | none => simp
  | some x =>
    have hkey := key_of_get? hfind
    rw [Option.filter_some, hkey]
    by_cases hk : k = key r <;> simp [hk]

theorem get?_update (t : Table key) (p : R → Bool) (f : R → R) (hkey : ∀ r, key (f r) = key r)
    (k : K) : (t.update p f hkey).get? k = (t.get? k).map fun r => if p r then f r else r := by
  cases h : t.get? k with
  | none =>
    rw [get?_eq_none_iff] at h
    rw [Option.map_none, get?_eq_none_iff]
    intro x hx
    obtain ⟨r, hr, rfl⟩ := List.mem_map.mp hx
    split
    · rw [hkey]
      exact h r hr
    · exact h r hr
  | some r =>
    obtain ⟨hr, hk⟩ := get?_eq_some_iff.mp h
    rw [Option.map_some, get?_eq_some_iff]
    refine ⟨List.mem_map.mpr ⟨r, hr, rfl⟩, ?_⟩
    split
    · rw [hkey]
      exact hk
    · exact hk

section
variable {R' : Type} {key' : R' → K} {f : R → R'} {hkey : ∀ r, key' (f r) = key r}

theorem insert_map (t : Table key) (r : R) :
    (t.map f hkey).insert (f r) = ((t.insert r).1.map f hkey, (t.insert r).2) := by
  have hkeys : (t.map f hkey).rows.map key' = t.rows.map key := by
    simp [map, Function.comp_def, hkey]
  unfold insert
  by_cases hin : key r ∈ t.rows.map key
  · rw [dif_pos hin, dif_pos (by rw [hkeys, hkey]; exact hin)]
  · rw [dif_neg hin, dif_neg (by rw [hkeys, hkey]; exact hin)]
    simp [map]

end

end Table

end yocto.unique_table
