-- The layers of a bblayers.conf after edit_bblayers_conf. What is asked for holds when no
-- layer to remove is repeated in a value, and the layers to add go where they have an effect.
import Yocto.BblayersScan

open yocto.task_ids yocto.data_smart yocto.text_lines yocto.metadata_editing yocto.assigned_lists
open yocto.conf_statements yocto.bblayers_grammar yocto.globs yocto.bblayers_conf yocto.bblayers_scan

namespace yocto.bblayers_edits

/-! ## The two passes -/

section
variable (expanduser : Option (Text → Text))

/-- An assignment with the canonical paths of its layers. -/
def named (a : Assignment) : Op × List Text := (a.op, a.layers.map (canonicalise_path expanduser))

theorem named_eq (a : Assignment) : named expanduser a = a.entry.map id (List.map (canonicalise_path expanduser)) := rfl

theorem firstpass_fine : Fine (handle_bblayers_firstpass expanduser) fun _ => True where
  keeps _ _ := trivial
  writes _ _ := .inl rfl

theorem firstpass_found {found found' : Found} {as as' : List Assignment}
    (h : Rewritten (handle_bblayers_firstpass expanduser) found as as' found') :
    found'.bblayercalls = found.bblayercalls ++ as.map (sign ∘ Assignment.op) ∧
      found'.orig_bblayers = (as.map (named expanduser)).foldl value_turn found.orig_bblayers := by
  induction h with
  | nil => simp
  | @cons found found' a new as as' _ _ ih =>
    obtain ⟨hcalls, horig⟩ := ih
    rw [hcalls, horig, List.map_cons, List.map_cons, List.foldl_cons]
    refine ⟨List.append_assoc _ _ _, ?_⟩
    congr 1
    unfold handle_bblayers_firstpass named Assignment.layers
    cases a.op with
    | assign => rfl
    | append => rfl

variable {removelayers : List Text} (hremove : ∀ x ∈ removelayers, Given x) {plusequals : Bool}
include hremove

theorem handle_fine : Fine (handle_bblayers expanduser removelayers plusequals none)
    fun shared => ∀ x ∈ shared.addlayers, Given x where
  keeps {shared op v} hadd hwords := by
    obtain ⟨-, -, -, -, hlayers, -⟩ := handle_bblayers_spec expanduser hremove plusequals hadd op hwords
    rw [hlayers]
    cases plusequals with
    | true => exact hadd
    | false => exact fun x hx => nomatch hx
  writes {shared op v} hadd hwords := by
    obtain ⟨extra, -, -, hgives, -⟩ := handle_bblayers_spec expanduser hremove plusequals hadd op hwords
    generalize handle_bblayers expanduser removelayers plusequals none shared op v = r at hgives ⊢
    obtain ⟨value, shared'⟩ := r
    cases hgives with
    | same _ => exact .inl rfl
    | dropped _ _ => exact .inr (.inl rfl)
    | layers _ hitems => exact .inr (.inr ⟨_, rfl, hitems⟩)

omit hremove in
theorem written_names {a : Assignment} {names : List Text} {value : Value} {new : List Assignment}
    (hgives : Gives expanduser (sign a.op) a.value names value) (hwritten : Written a value new) (layers : List Text) :
    (new.map (named expanduser)).foldl value_turn layers = value_turn layers (a.op, names) := by
  cases hwritten with
  | same =>
    cases hgives with
    | same hnames =>
      rw [hnames]
      rfl
  | dropped =>
    cases hgives with
    | dropped hop hnames =>
      have happend : a.op = .append := by
        cases hsign : a.op with
        | append => rfl
        | assign =>
          rw [hsign] at hop
          exact absurd hop (by decide)
      rw [happend, hnames]
      exact (List.append_nil layers).symm
  | layers hentry =>
    cases hgives with
    | layers hnames _ =>
      rw [List.map_cons, List.map_nil, List.foldl_cons, List.foldl_nil, named_eq, hentry, ← hnames]
      rfl

theorem pass_without {shared shared' : Shared} {as as' : List Assignment}
    (h : Rewritten (handle_bblayers expanduser removelayers plusequals none) shared as as' shared')
    (hadding : adding plusequals shared = []) (hadd : ∀ x ∈ shared.addlayers, Given x)
    (hpaths : ∀ a ∈ as, ∀ w ∈ a.layers, LayerPath w) :
    (∀ layers, (as'.map (named expanduser)).foldl value_turn layers =
        (without removelayers (as.map (named expanduser))).foldl value_turn layers) ∧
      shared'.addlayers = shared.addlayers ∧
      ∀ x, x ∈ shared'.removed ↔
        x ∈ shared.removed ∨ (x ∈ removelayers ∧ ∃ a ∈ as, x ∈ (named expanduser a).2) := by
  induction h with
  | nil => simp [without]
  | @cons shared shared' a new as as' hwritten _ ih =>
    rw [List.forall_mem_cons] at hpaths
    obtain ⟨extra, hsub, -, hgives, hlayers, hremoved⟩ :=
      handle_bblayers_spec expanduser hremove plusequals hadd (sign a.op) hpaths.1
    obtain rfl : extra = [] := List.eq_nil_iff_forall_not_mem.mpr fun x hx => by simpa [hadding] using hsub x hx
    rw [List.append_nil] at hgives
    have hsame : (if plusequals then shared.addlayers else []) = shared.addlayers := by
      unfold adding at hadding
      cases plusequals with
      | true => rfl
      | false => exact hadding.symm
    rw [hsame] at hlayers
    obtain ⟨hnames, hlast, hremoved'⟩ := ih (by rw [adding, hlayers]; exact hadding) (by rw [hlayers]; exact hadd)
      hpaths.2
    refine ⟨fun layers => ?_, hlast.trans hlayers, fun x => ?_⟩
    · rw [List.map_append, List.foldl_append, written_names expanduser hgives hwritten, hnames]
      rfl
    · rw [hremoved', hremoved, or_assoc, ← and_or_left, List.exists_mem_cons_iff]
      rfl

theorem pass_with_first {shared shared' : Shared} {a : Assignment} {as as' : List Assignment}
    (h : Rewritten (handle_bblayers expanduser removelayers false none) shared (a :: as) as' shared')
    (hadd : ∀ x ∈ shared.addlayers, Given x) (hpaths : ∀ b ∈ a :: as, ∀ w ∈ b.layers, LayerPath w) :
    ∃ extra, (∀ x ∈ extra, x ∈ shared.addlayers) ∧
      (∀ x ∈ shared.addlayers, x ∈ (named expanduser a).2.diff removelayers ++ extra) ∧
      evaluate (as'.map (named expanduser)) = evaluate ((a.op, (named expanduser a).2.diff removelayers ++ extra) ::
        without removelayers (as.map (named expanduser))) ∧
      shared'.addlayers = [] ∧
      ∀ x, x ∈ shared'.removed ↔
        x ∈ shared.removed ∨ (x ∈ removelayers ∧ ∃ b ∈ a :: as, x ∈ (named expanduser b).2) := by
  cases h with
  | @cons _ _ _ new _ as' hwritten hrest =>
    rw [List.forall_mem_cons] at hpaths
    obtain ⟨extra, hsub, hall, hgives, hlayers, hremoved⟩ :=
      handle_bblayers_spec expanduser hremove false hadd (sign a.op) hpaths.1
    rw [if_neg Bool.false_ne_true] at hlayers
    obtain ⟨hnames, hlast, hremoved'⟩ := pass_without expanduser hremove hrest (by rw [adding, hlayers]; rfl)
      (by rw [hlayers]; exact fun x hx => nomatch hx) hpaths.2
    refine ⟨extra, hsub, hall, ?_, hlast.trans hlayers, fun x => ?_⟩
    · unfold evaluate
      rw [List.map_append, List.foldl_append, written_names expanduser hgives hwritten, hnames]
      rfl
    · rw [hremoved', hremoved, or_assoc, ← and_or_left, List.exists_mem_cons_iff]
      rfl

end

/-! ## The whole edit -/

section
variable (expanduser : Option (Text → Text)) (add remove : LayerParam)

/-- The layers become those that are asked for. All paths are compared in their canonical forms. -/
structure LayersEdited (layers layers' notremoved : List Text) : Prop where
  added : ∀ x ∈ layerlist_param add,
    canonicalise_path expanduser x ∈ layers'.map (canonicalise_path expanduser)
  removed : ∀ x ∈ layerlist_param remove,
    canonicalise_path expanduser x ∉ (layerlist_param add).map (canonicalise_path expanduser) →
    canonicalise_path expanduser x ∉ layers'.map (canonicalise_path expanduser)
  kept : (layers'.map (canonicalise_path expanduser)).filter (fun x =>
      x ∉ (layerlist_param add ++ layerlist_param remove).map (canonicalise_path expanduser)) =
    (layers.map (canonicalise_path expanduser)).filter fun x =>
      x ∉ (layerlist_param add ++ layerlist_param remove).map (canonicalise_path expanduser)
  notremoved : ∀ x, x ∈ notremoved ↔ x ∈ layerlist_param remove ∧
    canonicalise_path expanduser x ∉ layers.map (canonicalise_path expanduser)

/-- More than one assignment appends. -/
def Appends (c : Conf) : Prop := 1 < (c.assignments.map Assignment.op).count .append

/-- A layer that is to be added and is there and stays there. -/
def There (c : Conf) (x : Text) : Prop :=
  x ∈ evaluate (c.assignments.map (named expanduser)) ∧ x ∉ layerlist_param remove

structure Regular (c : Conf) : Prop where
  blanks : ∀ a ∈ c.assignments, a.Blanks
  paths : ∀ a ∈ c.assignments, ∀ w ∈ a.layers, OneSep w
  /-- No line of the value has a layer more often than it is taken out. -/
  once : ∀ x ∈ layerlist_param remove, x ∉ layerlist_param add →
    ∀ l ∈ effective (c.assignments.map (named expanduser)), l.count x ≤ (layerlist_param remove).count x
  /-- A layer that is taken out is not only in assignments without an effect. -/
  in_effect : ∀ x ∈ layerlist_param remove, ∀ a ∈ c.assignments, x ∈ (named expanduser a).2 →
    x ∈ evaluate (c.assignments.map (named expanduser))
  /-- New layers go to the end of the file, or to the first assignment when no other sets the variable. -/
  room : (∀ x ∈ layerlist_param add, There expanduser remove c x) ∨
    (Appends c ∧ ∀ l ∈ c.lines, Line l) ∨ (¬Appends c ∧ ¬Sets (c.assignments.tail.map Assignment.entry))

end

/-! ### Files -/

theorem layerPath_of_mem {a : Assignment} {w : Text} (h : w ∈ a.layers) (hsep : OneSep w) : LayerPath w where
  word := ⟨(mem_words h).1, (mem_words h).2⟩
  no_quotes := by
    have hvalue {q : Char} (hq : ∀ p ∈ a.parts ++ [a.last], q ∉ p.1) : q ∉ w := by
      intro hmem
      rcases List.mem_append.mp (mem_of_mem_words h hmem) with hmem | hmem
      · obtain ⟨t, ht, hmem⟩ := List.mem_flatten.mp hmem
        obtain ⟨p, hp, rfl⟩ := List.mem_map.mp ht
        exact hq p (List.mem_append_left _ hp) hmem
      · exact hq _ a.last_mem hmem
    exact ⟨hvalue fun p hp => (a.no_quotes p hp).1, hvalue fun p hp => (a.no_quotes p hp).2⟩
  stripped := hsep

theorem appended_layers {adds : List Text} (h : ∀ x ∈ adds, LayerPath x) :
    ∃ bs : List Block,
      bs.flatMap Block.lines = adds.map (fun x => text "BBLAYERS += \"" ++ x ++ text "\"\n") ∧
      (bs.flatMap Block.assignments).map Assignment.entry = adds.map (fun x => (.append, [x])) ∧
      ∀ l ∈ bs.flatMap Block.lines, Line l := by
  induction adds with
  | nil => exact ⟨[], rfl, rfl, fun l hl => nomatch hl⟩
  | cons x adds ih =>
    rw [List.forall_mem_cons] at h
    obtain ⟨bs, hlines, hentries, hends⟩ := ih h.2
    obtain ⟨a, halines, hentry, haends⟩ := appended_layer h.1
    refine ⟨.assignment a :: bs, ?_, ?_, ?_⟩
    · rw [List.flatMap_cons, hlines, Block.lines, halines]
      rfl
    · rw [List.flatMap_cons, List.map_append, hentries, Block.assignments, List.map_singleton, hentry]
      rfl
    · rw [List.flatMap_cons, List.forall_mem_append]
      exact ⟨haends, hends⟩

/-! ### The passes together -/

section
variable {expanduser : Option (Text → Text)}

theorem map_canonical {xs : List Text} (h : ∀ x ∈ xs, Given x) : xs.map (canonicalise_path expanduser) = xs :=
  (List.map_congr_left fun x hx => (h x hx).canonical expanduser).trans (List.map_id xs)

theorem evaluate_named (as : List Assignment) : evaluate (as.map (named expanduser)) =
    (evaluate (as.map Assignment.entry)).map (canonicalise_path expanduser) := by
  rw [← evaluate_map, List.map_map]
  rfl

theorem sets_named (as : List Assignment) : Sets (as.map (named expanduser)) ↔ Sets (as.map Assignment.entry) := by
  simp [Sets, named, Assignment.entry]

theorem second_pass {removelayers adds : List Text} (hremove : ∀ x ∈ removelayers, Given x) {plusequals : Bool}
    {as as' : List Assignment} {shared' : Shared}
    (h : Rewritten (handle_bblayers expanduser removelayers plusequals none) ⟨adds, []⟩ as as' shared')
    (hne : as ≠ []) (hadd : ∀ x ∈ adds, Given x) (hpaths : ∀ a ∈ as, ∀ w ∈ a.layers, LayerPath w)
    (hroom : adds = [] ∨ plusequals = true ∨ ¬Sets (as.tail.map Assignment.entry)) :
    Placed adds (evaluate (without removelayers (as.map (named expanduser))))
        (evaluate (as'.map (named expanduser) ++ shared'.addlayers.map fun x => (.append, [x]))) ∧
      (∀ x ∈ shared'.addlayers, x ∈ adds) ∧ (plusequals = false → shared'.addlayers = []) ∧
      ∀ x, x ∈ shared'.removed ↔ x ∈ removelayers ∧ ∃ a ∈ as, x ∈ (named expanduser a).2 := by
  cases hplus : plusequals with
  | true =>
    subst hplus
    obtain ⟨hnames, hlayers, hremoved⟩ := pass_without expanduser hremove h rfl hadd hpaths
    have hevaluate (entries : List (Op × List Text)) : evaluate (as'.map (named expanduser) ++ entries) =
        evaluate (without removelayers (as.map (named expanduser)) ++ entries) := by
      unfold evaluate
      rw [List.foldl_append, List.foldl_append, hnames]
    rw [hevaluate, hlayers]
    exact ⟨placed_at_end adds _, fun _ hx => hx, (fun h => nomatch h), by simpa using hremoved⟩
  | false =>
    subst hplus
    obtain ⟨a, as, rfl⟩ := List.exists_cons_of_ne_nil hne
    obtain ⟨extra, hextra, hall, hnames, hlayers, hremoved⟩ := pass_with_first expanduser hremove h hadd hpaths
    have hroom' : adds = [] ∨ ¬Sets (without removelayers (as.map (named expanduser))) := by
      rw [sets_without, sets_named]
      simpa using hroom
    rw [hlayers, List.map_nil, List.append_nil, hnames]
    exact ⟨placed_in_first a.op hextra hall hroom', (fun x hx => nomatch hx), fun _ => rfl, by simpa using hremoved⟩

variable {add remove : LayerParam} {c : Conf}

theorem layers_edited (hadd : ∀ x ∈ layerlist_param add, Given x) (hremove : ∀ x ∈ layerlist_param remove, Given x)
    (h : Regular expanduser add remove c) {adds removed : List Text} {as' : List Assignment}
    (hadds : ∀ x, x ∈ adds ↔ x ∈ layerlist_param add ∧ ¬There expanduser remove c x)
    (hplaced : Placed adds (evaluate (without (layerlist_param remove) (c.assignments.map (named expanduser))))
      (evaluate (as'.map (named expanduser))))
    (hremoved : ∀ x, x ∈ removed ↔
      x ∈ layerlist_param remove ∧ ∃ a ∈ c.assignments, x ∈ (named expanduser a).2) :
    LayersEdited expanduser add remove (evaluate (c.assignments.map Assignment.entry))
      (evaluate (as'.map Assignment.entry)) ((layerlist_param remove).dedup.filter (· ∉ removed)) where
  added x hx := by
    rw [(hadd x hx).canonical, ← evaluate_named]
    by_cases hthere : There expanduser remove c x
    · apply hplaced.mem
      obtain ⟨l, hl, hxl⟩ := mem_evaluate.mp hthere.1
      refine mem_evaluate_without.mpr ⟨l, hl, ?_⟩
      rw [List.count_eq_zero_of_not_mem hthere.2]
      exact List.count_pos_iff.mpr hxl
    · exact hplaced.all x ((hadds x).mpr ⟨hx, hthere⟩)
  removed x hx hnot := by
    rw [(hremove x hx).canonical, map_canonical hadd] at hnot
    rw [(hremove x hx).canonical, ← evaluate_named]
    intro hmem
    rcases hplaced.of_mem hmem with hmem | hmem
    · obtain ⟨l, hl, hlt⟩ := mem_evaluate_without.mp hmem
      exact absurd (h.once x hx hnot l hl) (Nat.not_le_of_lt hlt)
    · exact hnot ((hadds x).mp hmem).1
  kept := by
    rw [← evaluate_named, ← evaluate_named, List.map_append, map_canonical hadd, map_canonical hremove]
    rw [hplaced.filter fun x hx => by simp [((hadds x).mp hx).1],
      filter_evaluate_without fun x hx => by simp [hx]]
  notremoved x := by
    rw [List.mem_filter, List.mem_dedup, decide_eq_true_iff, hremoved]
    refine and_congr_right fun hx => ?_
    rw [(hremove x hx).canonical, ← evaluate_named]
    refine not_congr ⟨fun ⟨_, a, ha, hmem⟩ => h.in_effect x hx a ha hmem, fun hmem => ⟨hx, ?_⟩⟩
    obtain ⟨l, hl, hxl⟩ := mem_evaluate.mp hmem
    obtain ⟨e, he, rfl⟩ := exists_of_mem_effective hl
    obtain ⟨a, ha, rfl⟩ := List.mem_map.mp he
    exact ⟨a, ha, hxl⟩

variable (expanduser c) in
theorem firstpass_spec (hblanks : ∀ a ∈ c.assignments, a.Blanks)
    (hpaths : ∀ a ∈ c.assignments, ∀ w ∈ a.layers, LayerPath w) :
    let e := edit_loop [bblayers_pattern] (value_callback (handle_bblayers_firstpass expanduser)) ⟨[], []⟩ c.lines
    e.newlines = c.lines ∧ e.state.bblayercalls = c.assignments.map (sign ∘ Assignment.op) ∧
      e.state.orig_bblayers = evaluate (c.assignments.map (named expanduser)) := by
  have hunchanging : Unchanging (value_callback (handle_bblayers_firstpass expanduser)) :=
    fun _ _ _ _ _ => ⟨rfl, rfl, rfl⟩
  obtain ⟨bs, hran⟩ := run_blocks (firstpass_fine expanduser) hblanks hpaths
    (e := ⟨false, [], no_entry, false, ⟨[], []⟩⟩) rfl trivial
  obtain ⟨hupdated, -⟩ := loop_unchanging [bblayers_pattern] hunchanging c.lines
    (e := ⟨false, [], no_entry, false, ⟨[], []⟩⟩) rfl
  obtain ⟨-, hsame⟩ := hran.same hupdated
  obtain ⟨-, hblocks⟩ := hsame rfl
  obtain ⟨hcalls, horig⟩ := firstpass_found expanduser hran.assignments
  refine ⟨?_, hcalls, horig⟩
  have hnewlines := hran.newlines
  rw [hblocks] at hnewlines
  exact hnewlines

theorem second_pass_spec {removelayers adds : List Text} (hremove : ∀ x ∈ removelayers, Given x)
    (hadd : ∀ x ∈ adds, Given x) (plusequals : Bool) (hne : c.assignments ≠ [])
    (hblanks : ∀ a ∈ c.assignments, a.Blanks) (hpaths : ∀ a ∈ c.assignments, ∀ w ∈ a.layers, LayerPath w)
    (hroom : adds = [] ∨ (plusequals = true ∧ ∀ l ∈ c.lines, Line l) ∨
      (plusequals = false ∧ ¬Sets (c.assignments.tail.map Assignment.entry))) :
    let e := edit_loop [bblayers_pattern] (value_callback (handle_bblayers expanduser removelayers plusequals none))
      ⟨adds, []⟩ c.lines
    ∃ c' : Conf, (if e.updated ∨ e.state.addlayers ≠ [] then
          (e.newlines ++ e.state.addlayers.map fun x => text "BBLAYERS += \"" ++ x ++ text "\"\n").flatten
        else c.file) = c'.file ∧
      Placed adds (evaluate (without removelayers (c.assignments.map (named expanduser))))
        (evaluate (c'.assignments.map (named expanduser))) ∧
      ∀ x, x ∈ e.state.removed ↔ x ∈ removelayers ∧ ∃ a ∈ c.assignments, x ∈ (named expanduser a).2 := by
  intro e
  have hfine : Fine (handle_bblayers expanduser removelayers plusequals none)
      fun shared => ∀ x ∈ shared.addlayers, Given x := handle_fine expanduser hremove
  obtain ⟨bs, hran⟩ := run_blocks hfine hblanks hpaths (e := ⟨false, [], no_entry, false, ⟨adds, []⟩⟩) rfl hadd
  have hroom' : adds = [] ∨ plusequals = true ∨ ¬Sets (c.assignments.tail.map Assignment.entry) :=
    hroom.imp_right (Or.imp And.left And.right)
  obtain ⟨hplaced, hleft, hfirst, hremoved⟩ := second_pass hremove hran.assignments hne hadd hpaths hroom'
  have hlayers : ∀ x ∈ e.state.addlayers, LayerPath x := fun x hx => (hadd x (hleft x hx)).toLayerPath
  obtain ⟨behind, hlines, hentries, hends⟩ := appended_layers hlayers
  have htext : TextLines ((bs ++ behind).flatMap Block.lines) := by
    rw [List.flatMap_append]
    by_cases hnil : e.state.addlayers = []
    · rw [hlines, hnil, List.map_nil, List.append_nil]
      exact hran.in_text c.text_lines
    · have hterminated : ∀ l ∈ c.lines, Line l := by
        rcases hroom with hadds | ⟨-, hterminated⟩ | ⟨hplus, -⟩
        · refine absurd (List.eq_nil_iff_forall_not_mem.mpr fun x hx => ?_) hnil
          simpa [hadds] using hleft x hx
        · exact hterminated
        · exact absurd (hfirst hplus) hnil
      exact .append (hran.in_lines hterminated) (textLines_of_lines hends)
  refine ⟨⟨bs ++ behind, htext⟩, ?_, ?_, hremoved⟩
  · unfold Conf.file Conf.lines
    rw [List.flatMap_append, hlines]
    split
    · rw [show e.newlines = bs.flatMap Block.lines from hran.newlines]
    · rename_i hnot
      rw [not_or, not_not, Bool.not_eq_true] at hnot
      obtain ⟨-, hsame⟩ := hran.same hnot.1
      rw [hnot.2, (hsame rfl).2, List.map_nil, List.append_nil]
  · have hnamed : (behind.flatMap Block.assignments).map (named expanduser) =
        e.state.addlayers.map fun x => (Op.append, [x]) := by
      have hmap := congrArg (List.map (Prod.map id (List.map (canonicalise_path expanduser)))) hentries
      rw [List.map_map, List.map_map] at hmap
      refine Eq.trans hmap (List.map_congr_left fun x hx => ?_)
      simp [(hadd x (hleft x hx)).canonical expanduser]
    unfold Conf.assignments
    rw [List.flatMap_append, List.map_append, hnamed]
    exact hplaced

theorem plusequals_iff : 1 < (c.assignments.map (sign ∘ Assignment.op)).count (text "+=") ↔ Appends c := by
  have hsign (op : Op) : (sign op == text "+=") = (op == .append) := by cases op <;> decide
  unfold Appends List.count
  rw [List.countP_map, List.countP_map]
  simp only [Function.comp_def, hsign]

variable (expanduser) in
/-- The layers that are asked for are put in and taken out, and no other layer changes. -/
theorem layers_are_edited (bblayers_conf : Text) (c : Conf) (add remove : LayerParam) (hsome : c.assignments ≠ [])
    (hadd : ∀ p ∈ add.given, PlainPath p) (hremove : ∀ p ∈ remove.given, PlainPath p)
    (h : Regular expanduser add remove c) :
    ∃ r layers layers', edit_bblayers_conf expanduser bblayers_conf c.file add remove none = .ok r ∧
      bblayers c.file = some layers ∧ bblayers r.file = some layers' ∧
      LayersEdited expanduser add remove layers layers' r.notremoved ∧
      ∀ x, x ∈ r.notadded ↔ x ∈ layerlist_param add ∧
        canonicalise_path expanduser x ∈ layers.map (canonicalise_path expanduser) ∧
        canonicalise_path expanduser x ∉ (layerlist_param remove).map (canonicalise_path expanduser) := by
  have hadds := given_layerlist_param hadd
  have hremoves := given_layerlist_param hremove
  have hpaths : ∀ a ∈ c.assignments, ∀ w ∈ a.layers, LayerPath w :=
    fun a ha w hw => layerPath_of_mem hw (h.paths a ha w hw)
  have hread : readlines c.file = c.lines := readlines_text c.text_lines
  obtain ⟨hnewlines, hcalls, horig⟩ := firstpass_spec expanduser c h.blanks hpaths
  let old := evaluate (c.assignments.map (named expanduser))
  let notadded := (layerlist_param add).filter fun layer =>
    canonicalise_path expanduser layer ∈ old &&
      canonicalise_path expanduser layer ∉ (layerlist_param remove).map (canonicalise_path expanduser)
  let adds := (layerlist_param add).filter fun layer =>
    canonicalise_path expanduser layer ∉ notadded.map (canonicalise_path expanduser)
  let plusequals := decide (1 < (c.assignments.map (sign ∘ Assignment.op)).count (text "+="))
  have hnotadded (x : Text) : x ∈ notadded ↔ x ∈ layerlist_param add ∧ There expanduser remove c x := by
    rw [List.mem_filter]
    refine and_congr_right fun hx => ?_
    rw [(hadds x hx).canonical, map_canonical hremoves, Bool.and_eq_true, decide_eq_true_iff, decide_eq_true_iff]
    rfl
  have hmissing (x : Text) : x ∈ adds ↔ x ∈ layerlist_param add ∧ ¬There expanduser remove c x := by
    rw [List.mem_filter, decide_eq_true_iff]
    refine and_congr_right fun hx => not_congr ?_
    have hgiven : ∀ y ∈ notadded, Given y := fun y hy => hadds y ((hnotadded y).mp hy).1
    rw [(hadds x hx).canonical, map_canonical hgiven, hnotadded]
    exact and_iff_right hx
  have hroom : adds = [] ∨ (plusequals = true ∧ ∀ l ∈ c.lines, Line l) ∨
      (plusequals = false ∧ ¬Sets (c.assignments.tail.map Assignment.entry)) := by
    rw [decide_eq_true_iff, decide_eq_false_iff_not, plusequals_iff]
    refine h.room.imp_left fun hall => List.eq_nil_iff_forall_not_mem.mpr fun x hx => ?_
    obtain ⟨hx, hnot⟩ := (hmissing x).mp hx
    exact hnot (hall x hx)
  obtain ⟨c', hfile, hplaced, hremoved⟩ := second_pass_spec hremoves (fun x hx => hadds x ((hmissing x).mp hx).1)
    plusequals hsome h.blanks hpaths hroom
  have hcalled : c.assignments.map (sign ∘ Assignment.op) ≠ [] := by simpa using hsome
  refine ⟨⟨notadded, _, c'.file⟩, _, _, ?_, bblayers_blocks c.text_lines, bblayers_blocks c'.text_lines,
    layers_edited hadds hremoves h hmissing hplaced hremoved, fun x => ?_⟩
  · have hsecond : (edit_metadata [bblayers_pattern] (value_callback (handle_bblayers_firstpass expanduser)) ⟨[], []⟩
        c.lines).2 = c.lines := hnewlines
    unfold edit_bblayers_conf
    dsimp only
    rw [hread, hsecond, hcalls, horig, if_neg hcalled, ← hfile]
  · rw [hnotadded]
    refine and_congr_right fun hx => ?_
    rw [(hadds x hx).canonical, map_canonical hremoves, ← evaluate_named]
    rfl

end

/-! ## A file that is edited -/

def one_line (op : Op) (value : Text) (h : '"' ∉ value ∧ '\'' ∉ value) : Assignment where
  before := [' ']
  op := op
  after := [' ']
  quote := '"'
  parts := []
  last := (value, ['\n'])
  before_space := space_is_space
  after_space := space_is_space
  is_quote := double_is_quote
  no_quotes := by simpa using h
  ends_space := by simp [isspace]

def comment : Other where
  lines := [text "# layers\n"]
  statements := []
  nonempty := by decide
  reads rest := by
    have hfirst := logical_lines_first (s := text "# layer") (c := 's') (t := ['\n']) (by decide) (by simp [isspace]) rest
    simpa [text] using hfirst
  unmatched := by simp [match_line, bblayers_pattern, variable_pattern, text]
  silent := fun _ h => nomatch h

def two_assignments : Conf where
  blocks := [.assignment (one_line .assign (text "/a /b/") (by decide)), .other comment,
    .assignment (one_line .append (text "/c") (by decide))]
  text_lines := by
    have hassign : Line (text "BBLAYERS = \"/a /b/\"\n") := ⟨text "BBLAYERS = \"/a /b/\"", rfl, by decide, by decide⟩
    have hcomment : Line (text "# layers\n") := ⟨text "# layers", rfl, by decide, by decide⟩
    have happend : Line (text "BBLAYERS += \"/c\"\n") := ⟨text "BBLAYERS += \"/c\"", rfl, by decide, by decide⟩
    exact ⟨.inl hassign, .inl hcomment, .inl happend, trivial⟩

theorem plain_path {w : Text} (hsep : OneSep w) (hne : w ≠ [])
    (h : (w.all fun c => !(isspace c || is_special c || c = '~' || c = '"' || c = '\'')) = true) : PlainPath w := by
  have hall : ∀ c ∈ w, isspace c = false ∧ is_special c = false ∧ c ≠ '~' ∧ c ≠ '"' ∧ c ≠ '\'' := by
    simpa [and_assoc] using h
  exact {
    word := ⟨hne, fun c hc => (hall c hc).1⟩
    no_quotes := ⟨fun hmem => (hall _ hmem).2.2.2.1 rfl, fun hmem => (hall _ hmem).2.2.2.2 rfl⟩
    stripped := hsep
    no_home := fun hmem => (hall _ hmem).2.2.1 rfl
    no_special := fun c hc => (hall c hc).2.1 }

theorem two_assignments_regular :
    Regular none (.paths [text "/x", text "/a"]) (.paths [text "/b", text "/y"]) two_assignments where
  blanks a ha := by
    have hall : a ∈ [one_line .assign (text "/a /b/") (by decide), one_line .append (text "/c") (by decide)] := ha
    simp only [List.mem_cons, List.not_mem_nil, or_false] at hall
    rcases hall with rfl | rfl <;> simp [Assignment.Blanks, one_line]
  paths := by unfold OneSep; decide
  once := by decide
  in_effect := by decide
  room := .inr (.inr ⟨by unfold Appends; decide, by unfold Sets; decide⟩)

theorem two_assignments_are_edited :
    ∃ r layers layers', edit_bblayers_conf none (text "bblayers.conf") two_assignments.file
        (.paths [text "/x", text "/a"]) (.paths [text "/b", text "/y"]) none = .ok r ∧
      bblayers two_assignments.file = some layers ∧ bblayers r.file = some layers' ∧
      LayersEdited none (.paths [text "/x", text "/a"]) (.paths [text "/b", text "/y"]) layers layers' r.notremoved ∧
      ∀ x, x ∈ r.notadded ↔ x ∈ layerlist_param (.paths [text "/x", text "/a"]) ∧
        canonicalise_path none x ∈ layers.map (canonicalise_path none) ∧
        canonicalise_path none x ∉ (layerlist_param (.paths [text "/b", text "/y"])).map (canonicalise_path none) := by
  refine layers_are_edited none (text "bblayers.conf") two_assignments _ _ (by decide) ?_ ?_ two_assignments_regular
  · intro p hp
    have hall : p ∈ [text "/x", text "/a"] := hp
    simp only [List.mem_cons, List.not_mem_nil, or_false] at hall
    rcases hall with rfl | rfl <;> exact plain_path (by unfold OneSep; decide) (by decide) (by decide)
  · intro p hp
    have hall : p ∈ [text "/b", text "/y"] := hp
    simp only [List.mem_cons, List.not_mem_nil, or_false] at hall
    rcases hall with rfl | rfl <;> exact plain_path (by unfold OneSep; decide) (by decide) (by decide)

/-! ## Files where it goes wrong -/

/-- What an edit is asked for: all of the layers to add that were there are reported. -/
def AsAsked (expanduser : Option (Text → Text)) (bblayers_conf file : Text) (add remove : LayerParam) : Prop :=
  ∃ r layers layers', edit_bblayers_conf expanduser bblayers_conf file add remove none = .ok r ∧
    bblayers file = some layers ∧ bblayers r.file = some layers' ∧
    LayersEdited expanduser add remove layers layers' r.notremoved ∧
    ∀ x, x ∈ r.notadded ↔ x ∈ layerlist_param add ∧
      canonicalise_path expanduser x ∈ layers.map (canonicalise_path expanduser)

section
variable {expanduser : Option (Text → Text)} {add remove : LayerParam}

instance (layers layers' notremoved : List Text) :
    Decidable (LayersEdited expanduser add remove layers layers' notremoved) :=
  decidable_of_iff
    ((∀ x ∈ layerlist_param add, canonicalise_path expanduser x ∈ layers'.map (canonicalise_path expanduser)) ∧
      (∀ x ∈ layerlist_param remove,
        canonicalise_path expanduser x ∉ (layerlist_param add).map (canonicalise_path expanduser) →
        canonicalise_path expanduser x ∉ layers'.map (canonicalise_path expanduser)) ∧
      ((layers'.map (canonicalise_path expanduser)).filter (fun x =>
          x ∉ (layerlist_param add ++ layerlist_param remove).map (canonicalise_path expanduser)) =
        (layers.map (canonicalise_path expanduser)).filter fun x =>
          x ∉ (layerlist_param add ++ layerlist_param remove).map (canonicalise_path expanduser)) ∧
      (∀ x ∈ notremoved, x ∈ layerlist_param remove ∧
        canonicalise_path expanduser x ∉ layers.map (canonicalise_path expanduser)) ∧
      ∀ x ∈ layerlist_param remove, canonicalise_path expanduser x ∉ layers.map (canonicalise_path expanduser) →
        x ∈ notremoved)
    ⟨fun h => ⟨h.1, h.2.1, h.2.2.1, fun x => ⟨h.2.2.2.1 x, fun hx => h.2.2.2.2 x hx.1 hx.2⟩⟩,
      fun h => ⟨h.added, h.removed, h.kept, fun x hx => (h.notremoved x).mp hx,
        fun x hx hnot => (h.notremoved x).mpr ⟨hx, hnot⟩⟩⟩

instance (bblayers_conf file : Text) : Decidable (AsAsked expanduser bblayers_conf file add remove) :=
  match hedit : edit_bblayers_conf expanduser bblayers_conf file add remove none with
  | .error _ => isFalse (by simp [AsAsked, hedit])
  | .ok r =>
    match hlayers : bblayers file, hlayers' : bblayers r.file with
    | some layers, some layers' => decidable_of_iff
        (LayersEdited expanduser add remove layers layers' r.notremoved ∧
          (∀ x ∈ r.notadded, x ∈ layerlist_param add ∧
            canonicalise_path expanduser x ∈ layers.map (canonicalise_path expanduser)) ∧
          ∀ x ∈ layerlist_param add, canonicalise_path expanduser x ∈ layers.map (canonicalise_path expanduser) →
            x ∈ r.notadded)
        ⟨fun h => ⟨r, layers, layers', hedit, hlayers, hlayers', h.1,
          fun x => ⟨h.2.1 x, fun hx => h.2.2 x hx.1 hx.2⟩⟩, by
          rintro ⟨r', layers₁, layers₂, hr, hl, hl', hedited, hnotadded⟩
          obtain rfl := Except.ok.inj (hr.symm.trans hedit)
          obtain rfl := Option.some.inj (hl.symm.trans hlayers)
          obtain rfl := Option.some.inj (hl'.symm.trans hlayers')
          exact ⟨hedited, fun x hx => (hnotadded x).mp hx, fun x hx hmem => (hnotadded x).mpr ⟨hx, hmem⟩⟩⟩
    | none, _ => isFalse (by simp [AsAsked, hlayers])
    | some _, none => isFalse (by simp [AsAsked, hedit, hlayers'])

end

example : AsAsked none (text "bblayers.conf") (text "BBLAYERS = \"a b\"\n") (.path (text "c/")) (.path (text "b")) := by
  decide +kernel

/-- A layer that is added and removed, a layer that is there twice, a layer that goes to an assignment without an
effect, one that is found only there, a tab before the operator, a last line without a newline, the root directory,
a path with two separators at its end, and a layer that is removed under two names. -/
theorem edits_go_wrong : ¬∃ x ∈ [
      (text "BBLAYERS = \"a\"\n", LayerParam.path (text "a"), LayerParam.path (text "a")),
      (text "BBLAYERS = \"a a\"\n", .none, .path (text "a")),
      (text "BBLAYERS = \"a\"\nBBLAYERS = \"b\"\n", .path (text "c"), .none),
      (text "BBLAYERS = \"a\"\nBBLAYERS = \"b\"\n", .none, .path (text "a")),
      (text "BBLAYERS\t= \"a\"\nBBLAYERS += \"b\"\n", .none, .path (text "a")),
      (text "BBLAYERS += \"a\"\nBBLAYERS += \"b\"", .path (text "c"), .none),
      (text "BBLAYERS = \"/ b\"\n", .none, .path (text "b")),
      (text "BBLAYERS = \"a// b\"\n", .none, .path (text "b")),
      (text "BBLAYERS = \"a\"\n", .none, .paths [text "a", text "a//"])],
    AsAsked none (text "bblayers.conf") x.1 x.2.1 x.2.2 := by
  decide +kernel

end yocto.bblayers_edits
