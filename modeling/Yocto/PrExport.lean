-- What an export carries over.
import Yocto.PrValues

open yocto.task_ids yocto.unique_table yocto.high_water yocto.pr_table yocto.pr_values

namespace yocto.pr_export

/-- The call that imports an exported row. -/
def import_col (col : Col) : Call := .importone col.version col.pkgarch col.checksum col.value

def get (key : Key) : Call := .get_value key.1 key.2.1 key.2.2

variable {t t' : PRTable} {version pkgarch checksum : Text}

/-! ## Tables that give the same values -/

/-- Without history the marks are the same, and with history the rows are. -/
structure Same (t t' : PRTable) : Prop where
  nohist : t'.nohist = t.nohist
  writable : t.read_only = false
  writable' : t'.read_only = false
  marks : ∀ v p, t'.mark v p = t.mark v p
  rows : t.nohist = false → ∀ v p c, stored t'.conn.rows v p c = stored t.conn.rows v p c

theorem Same.get_value (h : Same t t') (version pkgarch checksum : Text) :
    (t'.get_value version pkgarch checksum).2 = (t.get_value version pkgarch checksum).2 ∧
      Same (t.get_value version pkgarch checksum).1 (t'.get_value version pkgarch checksum).1 := by
  obtain ⟨hnohist, hread_only⟩ := get_value_kind t version pkgarch checksum
  obtain ⟨hnohist', hread_only'⟩ := get_value_kind t' version pkgarch checksum
  cases hn : t.nohist with
  | true =>
    have hn' : t'.nohist = true := h.nohist.trans hn
    refine ⟨?_, ?_, hread_only.trans h.writable, hread_only'.trans h.writable', ?_, ?_⟩
    · rw [get_value_answer hn h.writable, get_value_answer hn' h.writable', h.marks]
    · rw [hnohist, hnohist', h.nohist]
    · intro v p
      rw [get_value_mark hn h.writable, get_value_mark hn' h.writable', h.marks, h.marks]
    · intro hfalse
      simp [hnohist, hn] at hfalse
  | false =>
    have hn' : t'.nohist = false := h.nohist.trans hn
    have hrows := h.rows hn
    have htop : t'.max_value version pkgarch = t.max_value version pkgarch := by
      rw [← top_mark, h.marks, top_mark]
    cases hold : stored t.conn.rows version pkgarch checksum with
    | some b =>
      rw [get_value_of_stored hn hold, get_value_of_stored hn' ((hrows _ _ _).trans hold)]
      exact ⟨rfl, h⟩
    | none =>
      obtain ⟨s, hget, hwritten, hstored⟩ := get_value_of_not_stored hn h.writable hold
      obtain ⟨s', hget', hwritten', hstored'⟩ :=
        get_value_of_not_stored hn' h.writable' ((hrows _ _ _).trans hold)
      have hsame : ∀ v p c, stored s'.conn.rows v p c = stored s.conn.rows v p c := by
        intro v p c
        rw [hstored, hstored', htop, hrows]
      rw [hget, hget', htop]
      refine ⟨rfl, ?_, ?_, ?_, fun v p => mark_congr (hsame v p), fun _ => hsame⟩
      · rw [hwritten.nohist, hwritten'.nohist, h.nohist]
      · exact hwritten.read_only.trans h.writable
      · exact hwritten'.read_only.trans h.writable'

theorem Same.answers (h : Same t t') (gets : List Key) :
    pr_values.answers t' (gets.map get) = pr_values.answers t (gets.map get) := by
  induction gets generalizing t t' with
  | nil => rfl
  | cons key gets ih =>
    obtain ⟨heq, hsame⟩ := h.get_value key.1 key.2.1 key.2.2
    rw [List.map_cons, pr_values.answers, pr_values.answers]
    simp only [get, call]
    rw [heq, ih hsame]

/-! ## Importing rows -/

theorem bind_to_python (b : WithBot Number) : (to_python b).bind = some b := by
  cases b with
  | bot => rfl
  | coe n =>
    simp only [to_python, WithBot.map_coe, WithBot.unbotD_coe]
    split
    · rename_i hlt
      rw [PyValue.bind, dif_pos ⟨n.low, hlt⟩]
    · rfl

theorem stored_import_new (hw : t.read_only = false) {value : PyValue} {b : WithBot Number}
    (hb : value.bind = some b) (hnew : stored t.conn.rows version pkgarch checksum = none)
    (v p c : Text) :
    stored (t.importone version pkgarch checksum value).1.conn.rows v p c =
      if (v, p, c) = (version, pkgarch, checksum) then some b else stored t.conn.rows v p c := by
  cases hn : t.nohist with
  | true => rw [stored_import_no_hist hn hw hb, hnew]
  | false => rw [stored_import_hist hn hw, hnew, hb, Option.none_or]

theorem stored_import_all {cols : List Col} (hw : t.read_only = false)
    (hnodup : (cols.map Col.key).Nodup)
    (hnew : ∀ col ∈ cols, stored t.conn.rows col.version col.pkgarch col.checksum = none)
    (hbind : ∀ col ∈ cols, ∃ b, col.value.bind = some b) {b : WithBot Number} :
    stored (after t (cols.map import_col)).conn.rows version pkgarch checksum = some b ↔
      stored t.conn.rows version pkgarch checksum = some b ∨
        ∃ col ∈ cols, col.key = (version, pkgarch, checksum) ∧ col.value.bind = some b := by
  induction cols generalizing t with
  | nil => simp [after]
  | cons col cols ih =>
    obtain ⟨b₀, hb₀⟩ := hbind col List.mem_cons_self
    have hnone := hnew col List.mem_cons_self
    have hstored := stored_import_new hw hb₀ hnone
    rw [List.map_cons, List.nodup_cons] at hnodup
    have hafter : after t ((col :: cols).map import_col) =
        after (call t (import_col col)).1 (cols.map import_col) := rfl
    rw [hafter, ih ((call_kind t _).2.trans hw) hnodup.2 _
      fun c hc => hbind c (List.mem_cons_of_mem _ hc)]
    · simp only [call, import_col, hstored, List.mem_cons, exists_eq_or_imp]
      by_cases hkey : (version, pkgarch, checksum) = (col.version, col.pkgarch, col.checksum)
      · rw [if_pos hkey]
        simp only [Prod.mk.injEq] at hkey
        obtain ⟨rfl, rfl, rfl⟩ := hkey
        simp [hnone, hb₀, Col.key]
      · rw [if_neg hkey]
        have hne : col.key ≠ (version, pkgarch, checksum) := fun h => hkey h.symm
        simp [hne]
    · intro c hc
      simp only [call, import_col, hstored]
      rw [if_neg, hnew c (List.mem_cons_of_mem _ hc)]
      intro hkey
      exact hnodup.1 (List.mem_map.mpr ⟨c, hc, hkey⟩)

/-! ## Exporting rows -/

/-- The row is exported: without history, when its value is the largest of its package. -/
def Exported (t : PRTable) (r : Row) : Prop :=
  t.nohist = true → r.value ≠ ⊥ ∧ r.value = t.max_value r.version r.pkgarch

theorem mem_export_data {col : Col} :
    col ∈ t.export_data none none none ↔
      ∃ r ∈ t.conn.rows.rows, r.version ≠ [] ∧ Exported t r ∧ r.col = col := by
  unfold PRTable.export_data Exported
  cases hn : t.nohist with
  | true => simp [asks, and_assoc]
  | false => simp [asks, and_assoc]

theorem export_data_nodup (t : PRTable) : ((t.export_data none none none).map Col.key).Nodup := by
  unfold PRTable.export_data
  rw [List.map_map]
  refine List.Nodup.sublist (List.Sublist.map _ ?_) t.conn.rows.unique
  refine List.filter_sublist.trans (List.filter_sublist.trans ?_)
  split
  · exact List.filter_sublist
  · exact List.Sublist.refl _

theorem stored_restored {nohist : Bool} {calls : List Call} {cols : List Col}
    (hversion : ∀ c ∈ calls, c.key.1 ≠ [])
    (hperm : cols.Perm ((after (start nohist) calls).export_data none none none))
    (version pkgarch checksum : Text) (b : WithBot Number) :
    stored (after (start nohist) (cols.map import_col)).conn.rows version pkgarch checksum = some b ↔
      stored (after (start nohist) calls).conn.rows version pkgarch checksum = some b ∧
        Exported (after (start nohist) calls) ⟨version, pkgarch, checksum, b⟩ := by
  have hmem (col : Col) : col ∈ cols ↔ ∃ r ∈ (after (start nohist) calls).conn.rows.rows,
      r.version ≠ [] ∧ Exported (after (start nohist) calls) r ∧ r.col = col := by
    rw [hperm.mem_iff, mem_export_data]
  rw [stored_import_all rfl ((hperm.map _).nodup_iff.mpr (export_data_nodup _)) (fun _ _ => rfl)]
  · constructor
    · rintro (h | ⟨col, hcol, hkey, hbind⟩)
      · cases h
      · obtain ⟨r, hr, _, hexported, rfl⟩ := (hmem col).mp hcol
        simp only [Row.col, Col.key, Prod.mk.injEq, bind_to_python, Option.some.injEq] at hkey hbind
        obtain ⟨rfl, rfl, rfl⟩ := hkey
        subst hbind
        exact ⟨stored_of_mem hr, hexported⟩
    · rintro ⟨h, hexported⟩
      obtain ⟨c, hc, hkey⟩ := exists_call_of_stored h
      refine Or.inr ⟨_, (hmem _).mpr ⟨_, stored_eq_some_iff.mp h, ?_, hexported, rfl⟩, rfl, ?_⟩
      · have hne := hversion c hc
        rwa [← hkey] at hne
      · exact bind_to_python b
  · intro col hcol
    obtain ⟨r, _, _, _, rfl⟩ := (hmem col).mp hcol
    exact ⟨r.value, bind_to_python _⟩

theorem same_restored {nohist : Bool} {calls : List Call} {cols : List Col}
    (hversion : ∀ c ∈ calls, c.key.1 ≠ [])
    (hperm : cols.Perm ((after (start nohist) calls).export_data none none none)) :
    Same (after (start nohist) calls) (after (start nohist) (cols.map import_col)) := by
  obtain ⟨hn, hw⟩ := after_kind (t := start nohist) rfl calls
  obtain ⟨hn', hw'⟩ := after_kind (t := start nohist) rfl (cols.map import_col)
  have hstored := stored_restored hversion hperm
  generalize after (start nohist) calls = t at *
  generalize after (start nohist) (cols.map import_col) = t' at *
  have hrows (h : t.nohist = false) (v p c : Text) :
      stored t'.conn.rows v p c = stored t.conn.rows v p c := by
    apply Option.ext
    intro b
    rw [hstored]
    simp [Exported, h]
  refine ⟨hn'.trans hn.symm, hw, hw', fun v p => ?_, hrows⟩
  cases hmode : t.nohist with
  | false => exact mark_congr (hrows hmode v p)
  | true =>
    have htop : t'.max_value v p = t.max_value v p := by
      apply eq_of_forall_ge_iff
      intro b
      rw [max_value_le_iff]
      constructor
      · intro h
        by_cases hbot : t.max_value v p = ⊥
        · rw [hbot]
          exact bot_le
        · obtain ⟨c, hc⟩ := (max_value_mem t v p).resolve_left hbot
          exact h c _ ((hstored v p c _).mpr ⟨hc, fun _ => ⟨hbot, rfl⟩⟩)
      · intro h c x hx
        exact (le_max_value ((hstored v p c x).mp hx).1).trans h
    ext c
    · simp [htop]
    · simp only [PRTable.mark, htop, hstored, Set.mem_ofPred_eq]
      constructor
      · rintro ⟨n, ⟨hn, _⟩, hmax⟩
        exact ⟨n, hn, hmax⟩
      · rintro ⟨n, hn, hmax⟩
        exact ⟨n, ⟨hn, fun _ => ⟨WithBot.coe_ne_bot, hmax.symm⟩⟩, hmax⟩

/-! ## Reading only -/

theorem read_only_get_value (t : PRTable) (version pkgarch checksum : Text) :
    let reader : PRTable := { t with read_only := true }
    let writer : PRTable := { t with read_only := false }
    reader.get_value version pkgarch checksum =
      (reader, (writer.get_value version pkgarch checksum).2) := by
  intro reader writer
  have hmark : reader.mark version pkgarch = writer.mark version pkgarch := rfl
  cases hn : t.nohist with
  | true =>
    by_cases h : checksum ∈ (writer.mark version pkgarch).holders
    · rw [get_value_of_mem (t := writer) hn h, get_value_of_mem (t := reader) hn h]
      rfl
    · obtain ⟨t', hget, _, _⟩ := get_value_of_not_mem (t := writer) hn rfl h
      rw [hget]
      have hnone : reader.select_max version pkgarch checksum = none := select_max_of_not_mem h
      unfold PRTable.get_value PRTable.get_value_no_hist
      rw [if_pos (show reader.nohist = true from hn), hnone]
      rfl
  | false =>
    cases h : stored t.conn.rows version pkgarch checksum with
    | some b =>
      rw [get_value_of_stored (t := writer) hn h, get_value_of_stored (t := reader) hn h]
    | none =>
      obtain ⟨t', hget, _, _⟩ := get_value_of_not_stored (t := writer) hn rfl h
      rw [hget]
      have hnone : reader.select version pkgarch checksum = none := by
        rwa [← Option.map_eq_none_iff, select_some]
      unfold PRTable.get_value PRTable.get_value_hist
      rw [if_neg (show ¬reader.nohist = true by simp [reader, hn]), hnone]
      rfl

/-! ## Moving a server -/

/-- Importing what is exported, in any order, makes a server that gives the values of the
original. A server that only reads gives the values that the next call would give. -/
theorem export_moves_a_server (nohist : Bool) (calls : List Call)
    (hversion : ∀ c ∈ calls, c.key.1 ≠ []) :
    (∀ cols : List Col, cols.Perm ((after (start nohist) calls).export_data none none none) →
      ∀ gets : List Key,
        answers (after (start nohist) (cols.map import_col)) (gets.map get) =
          answers (after (start nohist) calls) (gets.map get)) ∧
    ∀ (t : PRTable) (version pkgarch checksum : Text),
      let reader : PRTable := { t with read_only := true }
      let writer : PRTable := { t with read_only := false }
      reader.get_value version pkgarch checksum =
        (reader, (writer.get_value version pkgarch checksum).2) :=
  ⟨fun _ hperm gets => (same_restored hversion hperm).answers gets, read_only_get_value⟩

theorem export_moves_one_of_three :
    answers (after (start true) [.importone (text "1.0") (text "core2-64") (text "c") (.int 2)])
      [.get_value (text "1.0") (text "core2-64") (text "a")] =
    answers (after (start true)
      [.get_value (text "1.0") (text "core2-64") (text "a"),
        .get_value (text "1.0") (text "core2-64") (text "b"),
        .get_value (text "1.0") (text "core2-64") (text "c")])
      [.get_value (text "1.0") (text "core2-64") (text "a")] :=
  (export_moves_a_server true
    [.get_value (text "1.0") (text "core2-64") (text "a"),
      .get_value (text "1.0") (text "core2-64") (text "b"),
      .get_value (text "1.0") (text "core2-64") (text "c")] (by decide)).1
    [⟨text "1.0", text "core2-64", text "c", .int 2⟩] (by decide +kernel)
    [(text "1.0", text "core2-64", text "a")]

end yocto.pr_export
