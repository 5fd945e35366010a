-- Adding layers to a bblayers.conf and removing layers from it (edit_bblayers_conf in
-- bb.utils).
import Yocto.BblayersGrammar
import Yocto.Globs

open yocto.task_ids yocto.data_smart yocto.text_lines yocto.metadata_editing yocto.assigned_lists
open yocto.conf_statements yocto.bblayers_grammar yocto.globs

namespace yocto.bblayers_conf

/-! ## Paths -/

def remove_trailing_sep (pth : Text) : Text := if pth.getLast? = some '/' then pth.dropLast else pth

/-- A list of layers, as `edit_bblayers_conf` takes it. -/
inductive LayerParam
  | none
  | path (p : Text)
  | paths (ps : List Text)

def LayerParam.given : LayerParam → List Text
  | .none => []
  | .path p => if p = [] then [] else [p]
  | .paths ps => ps

def layerlist_param (value : LayerParam) : List Text := value.given.map remove_trailing_sep

section
-- What `os.path.expanduser` does, when HOME is an approved variable.
variable (expanduser : Option (Text → Text))

def canonicalise_path (pth : Text) : Text :=
  let pth := remove_trailing_sep pth
  match expanduser with
  | some expanduser => if '~' ∈ pth then expanduser pth else pth
  | none => pth

/-! ## The passes -/

/-- A value, `None`, 2 and `False`. -/
def answer (newvalue : Value) : Answer := ⟨newvalue, .none, .spaces 2, false, []⟩

/-- A callback that looks at the value and its operator. -/
def value_callback {σ : Type} (f : σ → Text → Text → Value × σ) : Callback σ :=
  fun state _ origvalue op _ => (answer (f state op origvalue).1, (f state op origvalue).2)

structure Found where
  bblayercalls : List Text
  orig_bblayers : List Text

def handle_bblayers_firstpass (found : Found) (op origvalue : Text) : Value × Found :=
  let orig_bblayers := if op = text "=" then [] else found.orig_bblayers
  (.str origvalue,
    ⟨found.bblayercalls ++ [op], orig_bblayers ++ (words origvalue).map (canonicalise_path expanduser)⟩)

structure Removal where
  updated : Bool
  bblayers : List Text
  removed : List Text

/-- One turn of the loop over `removelayers`: the first layer that matches goes. -/
def remove_layer (r : Removal) (removelayer : Text) : Removal :=
  match r.bblayers.find? fun layer =>
    fnmatch (canonicalise_path expanduser layer) (canonicalise_path expanduser removelayer) with
  | some layer => ⟨true, r.bblayers.erase layer, r.removed ++ [removelayer]⟩
  | none => r

def add_layer (bblayers : Bool × List Text) (addlayer : Text) : Bool × List Text :=
  if addlayer ∈ bblayers.2 then bblayers else (true, bblayers.2 ++ [addlayer])

def call_back (edit_cb : Text → Text → Text) (bblayers : Bool × List Text) : Bool × List Text :=
  let newlist := bblayers.2.map fun layer => edit_cb layer (canonicalise_path expanduser layer)
  (bblayers.1 || decide (newlist ≠ bblayers.2), newlist)

structure Shared where
  addlayers : List Text
  removed : List Text

def handle_bblayers (removelayers : List Text) (plusequals : Bool) (edit_cb : Option (Text → Text → Text))
    (shared : Shared) (op origvalue : Text) : Value × Shared :=
  let removal := removelayers.foldl (remove_layer expanduser)
    ⟨false, (words origvalue).map remove_trailing_sep, shared.removed⟩
  let adding := if plusequals then [] else shared.addlayers
  let added := adding.foldl add_layer (removal.updated, removal.bblayers)
  let bblayers := match edit_cb with
    | some edit_cb => call_back expanduser edit_cb added
    | none => added
  (if bblayers.1 then (if op = text "+=" ∧ bblayers.2 = [] then .none else .list bblayers.2) else .str origvalue,
    ⟨if plusequals then shared.addlayers else [], removal.removed⟩)

structure Edited where
  notadded : List Text
  notremoved : List Text
  /-- What the file holds afterwards. -/
  file : Text

def edit_bblayers_conf (bblayers_conf file : Text) (add remove : LayerParam)
    (edit_cb : Option (Text → Text → Text)) : Except Text Edited :=
  let addlayers := layerlist_param add
  let removelayers := layerlist_param remove
  let found := (edit_loop [bblayers_pattern] (value_callback (handle_bblayers_firstpass expanduser)) ⟨[], []⟩
    (readlines file)).state
  -- The first pass changes nothing, so that the second one gets the lines that the first one gives.
  let newlines := (edit_metadata [bblayers_pattern] (value_callback (handle_bblayers_firstpass expanduser)) ⟨[], []⟩
    (readlines file)).2
  if found.bblayercalls = [] then .error (text "Unable to find BBLAYERS in " ++ bblayers_conf)
  else
    let plusequals := decide (1 < found.bblayercalls.count (text "+="))
    let removelayers_canon := removelayers.map (canonicalise_path expanduser)
    let notadded := addlayers.filter fun layer =>
      let layer_canon := canonicalise_path expanduser layer
      layer_canon ∈ found.orig_bblayers && layer_canon ∉ removelayers_canon
    let notadded_canon := notadded.map (canonicalise_path expanduser)
    let addlayers := addlayers.filter fun layer => canonicalise_path expanduser layer ∉ notadded_canon
    let e := edit_loop [bblayers_pattern] (value_callback (handle_bblayers expanduser removelayers plusequals edit_cb))
      ⟨addlayers, []⟩ newlines
    let appended := e.state.addlayers.map fun addlayer => text "BBLAYERS += \"" ++ addlayer ++ text "\"\n"
    .ok {
      notadded
      -- A set has no order of its own.
      notremoved := removelayers.dedup.filter (· ∉ e.state.removed)
      file := if e.updated ∨ e.state.addlayers ≠ [] then (e.newlines ++ appended).flatten else file }

end

/-! ## Layers that are given -/

/-- A path that ends with one separator at most, and is more than that. -/
def OneSep (w : Text) : Prop := remove_trailing_sep w ≠ [] ∧ (remove_trailing_sep w).getLast? ≠ some '/'

structure LayerPath (w : Text) : Prop where
  word : Word w
  no_quotes : '"' ∉ w ∧ '\'' ∉ w
  stripped : OneSep w

/-- A path for which nothing has to be looked up. -/
structure PlainPath (w : Text) : Prop extends LayerPath w where
  no_home : '~' ∉ w
  no_special : ∀ c ∈ w, is_special c = false

/-- A plain path without a separator at its end. -/
structure Given (w : Text) : Prop extends PlainPath w where
  no_sep : remove_trailing_sep w = w

theorem remove_trailing_sep_subset (w : Text) : remove_trailing_sep w ⊆ w := by
  unfold remove_trailing_sep
  split
  · exact List.dropLast_subset w
  · exact fun _ h => h

namespace LayerPath

variable {w : Text}

theorem again (h : LayerPath w) : remove_trailing_sep (remove_trailing_sep w) = remove_trailing_sep w :=
  if_neg h.stripped.2

theorem strip (h : LayerPath w) : LayerPath (remove_trailing_sep w) where
  word := ⟨h.stripped.1, fun c hc => h.word.no_space c (remove_trailing_sep_subset w hc)⟩
  no_quotes := ⟨fun hmem => h.no_quotes.1 (remove_trailing_sep_subset w hmem),
    fun hmem => h.no_quotes.2 (remove_trailing_sep_subset w hmem)⟩
  stripped := by
    unfold OneSep
    rw [h.again]
    exact h.stripped

end LayerPath

theorem PlainPath.strip {w : Text} (h : PlainPath w) : Given (remove_trailing_sep w) where
  toLayerPath := h.toLayerPath.strip
  no_home hmem := h.no_home (remove_trailing_sep_subset w hmem)
  no_special c hc := h.no_special c (remove_trailing_sep_subset w hc)
  no_sep := h.again

theorem given_layerlist_param {value : LayerParam} (h : ∀ p ∈ value.given, PlainPath p) :
    ∀ p ∈ layerlist_param value, Given p := by
  intro p hp
  obtain ⟨q, hq, rfl⟩ := List.mem_map.mp hp
  exact (h q hq).strip

section
variable (expanduser : Option (Text → Text))

theorem LayerPath.canonical {w : Text} (h : LayerPath w) :
    canonicalise_path expanduser (remove_trailing_sep w) = canonicalise_path expanduser w := by
  simp only [canonicalise_path, h.again]

theorem Given.canonical {w : Text} (h : Given w) : canonicalise_path expanduser w = w := by
  cases expanduser <;> simp [canonicalise_path, h.no_sep, h.no_home]

/-! ## Taking layers out and putting layers in -/

/-- What a run of the loop over `removelayers` does. -/
structure Removes (removelayers : List Text) (r r' : Removal) : Prop where
  names : r'.bblayers.map (canonicalise_path expanduser) =
    (r.bblayers.map (canonicalise_path expanduser)).diff removelayers
  subset : r'.bblayers ⊆ r.bblayers
  removed : ∀ x, x ∈ r'.removed ↔
    x ∈ r.removed ∨ (x ∈ removelayers ∧ x ∈ r.bblayers.map (canonicalise_path expanduser))
  unchanged : r'.updated = false → r.updated = false ∧ r'.bblayers = r.bblayers

theorem remove_layer_removes {x : Text} (hx : Given x) (r : Removal) :
    Removes expanduser [x] r (remove_layer expanduser r x) := by
  have hmatch : (fun layer => fnmatch (canonicalise_path expanduser layer) (canonicalise_path expanduser x)) =
      fun layer => decide (canonicalise_path expanduser layer = x) := by
    funext layer
    rw [hx.canonical, fnmatch_plain hx.no_special]
  unfold remove_layer
  rw [hmatch]
  cases hfind : r.bblayers.find? fun layer => decide (canonicalise_path expanduser layer = x) with
  | none =>
    have hnot : x ∉ r.bblayers.map (canonicalise_path expanduser) := by simpa using hfind
    exact {
      names := by rw [List.diff_cons, List.erase_of_not_mem hnot, List.diff_nil]
      subset := fun _ h => h
      removed := fun y => ⟨.inl, fun h => h.elim id fun ⟨hy, hmem⟩ => by
        rw [List.mem_singleton.mp hy] at hmem
        exact absurd hmem hnot⟩
      unchanged := fun h => ⟨h, rfl⟩ }
  | some layer =>
    obtain ⟨hlayer, before, behind, hlist, hbefore⟩ := List.find?_eq_some_iff_append.mp hfind
    rw [decide_eq_true_iff] at hlayer
    have hmem : layer ∉ before := fun hmem => by simpa [hlayer] using hbefore layer hmem
    have hnames : x ∉ before.map (canonicalise_path expanduser) := by simpa using hbefore
    have herase : r.bblayers.erase layer = before ++ behind := by
      rw [hlist, List.erase_append_right _ hmem, List.erase_cons_head]
    have hx_mem : x ∈ r.bblayers.map (canonicalise_path expanduser) := by simp [hlist, hlayer]
    exact {
      names := by
        change (r.bblayers.erase layer).map _ = _
        rw [herase, List.diff_cons, List.diff_nil, hlist, List.map_append, List.map_append, List.map_cons, hlayer,
          List.erase_append_right _ hnames, List.erase_cons_head]
      subset := List.erase_subset
      removed := fun y => by
        rw [List.mem_append, List.mem_singleton]
        refine or_congr_right ⟨fun h => ⟨h, ?_⟩, And.left⟩
        rw [h]
        exact hx_mem
      unchanged := fun h => nomatch h }

theorem Removes.cons {x : Text} {xs : List Text} {r r' r'' : Removal} (h : Removes expanduser [x] r r')
    (h' : Removes expanduser xs r' r'') : Removes expanduser (x :: xs) r r'' where
  names := by rw [h'.names, h.names, List.diff_cons, List.diff_nil, List.diff_cons]
  subset _ hy := h.subset (h'.subset hy)
  removed y := by
    rw [h'.removed, h.removed, h.names, List.diff_cons, List.diff_nil, List.mem_singleton, List.mem_cons, or_assoc]
    refine or_congr_right ?_
    by_cases hy : y = x
    · simp only [hy, true_and, true_or]
      exact or_iff_left_of_imp fun h => List.mem_of_mem_erase h.2
    · simp [hy, List.mem_erase_of_ne hy]
  unchanged hfalse := by
    obtain ⟨hupdated, hlist⟩ := h'.unchanged hfalse
    obtain ⟨hstart, hlist'⟩ := h.unchanged hupdated
    exact ⟨hstart, hlist.trans hlist'⟩

theorem remove_layers_removes {removelayers : List Text} (h : ∀ x ∈ removelayers, Given x) (r : Removal) :
    Removes expanduser removelayers r (removelayers.foldl (remove_layer expanduser) r) := by
  induction removelayers generalizing r with
  | nil =>
    exact { names := by simp, subset := fun _ h => h, removed := by simp, unchanged := fun h => ⟨h, rfl⟩ }
  | cons x xs ih =>
    rw [List.forall_mem_cons] at h
    exact (remove_layer_removes expanduser h.1 r).cons expanduser (ih h.2 _)

theorem add_layers_spec (adding : List Text) (bblayers : Bool × List Text) :
    ∃ extra, (adding.foldl add_layer bblayers).2 = bblayers.2 ++ extra ∧ (∀ x ∈ extra, x ∈ adding) ∧
      (∀ a ∈ adding, a ∈ bblayers.2 ++ extra) ∧
      ((adding.foldl add_layer bblayers).1 = false → bblayers.1 = false ∧ extra = []) := by
  induction adding generalizing bblayers with
  | nil => exact ⟨[], by simp, by simp, by simp, fun h => ⟨h, rfl⟩⟩
  | cons a adding ih =>
    rw [List.foldl_cons]
    obtain ⟨extra, hlist, hsub, hall, hsame⟩ := ih (add_layer bblayers a)
    unfold add_layer at hlist hall hsame ⊢
    by_cases ha : a ∈ bblayers.2
    · rw [if_pos ha] at hlist hall hsame ⊢
      refine ⟨extra, hlist, fun x hx => List.mem_cons_of_mem _ (hsub x hx), ?_, hsame⟩
      exact List.forall_mem_cons.mpr ⟨List.mem_append_left _ ha, hall⟩
    · rw [if_neg ha] at hlist hall hsame ⊢
      refine ⟨a :: extra, by rw [hlist]; simp, ?_, ?_, fun h => nomatch (hsame h).1⟩
      · exact List.forall_mem_cons.mpr ⟨List.mem_cons_self, fun x hx => List.mem_cons_of_mem _ (hsub x hx)⟩
      · refine List.forall_mem_cons.mpr ⟨by simp, fun x hx => ?_⟩
        simpa using hall x hx

/-! ## One assignment -/

/-- What `handle_bblayers` leaves of a value whose layers become `names`. -/
inductive Gives (op origvalue : Text) (names : List Text) : Value → Prop
  | same : names = (words origvalue).map (canonicalise_path expanduser) → Gives op origvalue names (.str origvalue)
  | dropped : op = text "+=" → names = [] → Gives op origvalue names .none
  | layers {items : List Text} : items.map (canonicalise_path expanduser) = names → (∀ i ∈ items, LayerPath i) →
    Gives op origvalue names (.list items)

def adding (plusequals : Bool) (shared : Shared) : List Text := if plusequals then [] else shared.addlayers

theorem handle_bblayers_spec {removelayers : List Text} (hremove : ∀ x ∈ removelayers, Given x) (plusequals : Bool)
    {shared : Shared} (hadd : ∀ x ∈ shared.addlayers, Given x) (op : Text) {origvalue : Text}
    (hwords : ∀ w ∈ words origvalue, LayerPath w) :
    let names := (words origvalue).map (canonicalise_path expanduser)
    let r := handle_bblayers expanduser removelayers plusequals none shared op origvalue
    ∃ extra, (∀ x ∈ extra, x ∈ adding plusequals shared) ∧
      (∀ x ∈ adding plusequals shared, x ∈ names.diff removelayers ++ extra) ∧
      Gives expanduser op origvalue (names.diff removelayers ++ extra) r.1 ∧
      r.2.addlayers = (if plusequals then shared.addlayers else []) ∧
      ∀ x, x ∈ r.2.removed ↔ x ∈ shared.removed ∨ (x ∈ removelayers ∧ x ∈ names) := by
  dsimp only
  have hnames : ((words origvalue).map remove_trailing_sep).map (canonicalise_path expanduser) =
      (words origvalue).map (canonicalise_path expanduser) := by
    rw [List.map_map]
    exact List.map_congr_left fun w hw => (hwords w hw).canonical expanduser
  have hr := remove_layers_removes expanduser hremove
    ⟨false, (words origvalue).map remove_trailing_sep, shared.removed⟩
  have hadding : ∀ x ∈ adding plusequals shared, Given x := by
    intro x hx
    unfold adding at hx
    split at hx
    · cases hx
    · exact hadd x hx
  unfold handle_bblayers
  dsimp only
  generalize removelayers.foldl (remove_layer expanduser) _ = removal at hr ⊢
  obtain ⟨extra, hlist, hsub, hall, hsame⟩ := add_layers_spec (adding plusequals shared)
    (removal.updated, removal.bblayers)
  have hextra : extra.map (canonicalise_path expanduser) = extra :=
    (List.map_congr_left fun x hx => (hadding x (hsub x hx)).canonical expanduser).trans (List.map_id extra)
  have hitems : (removal.bblayers ++ extra).map (canonicalise_path expanduser) =
      ((words origvalue).map (canonicalise_path expanduser)).diff removelayers ++ extra := by
    rw [List.map_append, hextra, hr.names, hnames]
  refine ⟨extra, hsub, fun x hx => ?_, ?_, rfl, ?_⟩
  · rw [← hitems, ← (hadding x hx).canonical expanduser]
    exact List.mem_map_of_mem (hall x hx)
  · rw [show (if plusequals = true then [] else shared.addlayers) = adding plusequals shared from rfl, hlist]
    cases hupdated : ((adding plusequals shared).foldl add_layer (removal.updated, removal.bblayers)).1 with
    | false =>
      obtain ⟨hnot, rfl⟩ := hsame hupdated
      rw [if_neg (by simp)]
      refine .same ?_
      rw [← hitems, List.append_nil, (hr.unchanged hnot).2, hnames]
    | true =>
      rw [if_pos rfl]
      split
      · rename_i hdrop
        refine .dropped hdrop.1 ?_
        rw [← hitems, hdrop.2]
        rfl
      · refine .layers hitems ?_
        rw [List.forall_mem_append]
        refine ⟨fun i hi => ?_, fun i hi => (hadding i (hsub i hi)).toLayerPath⟩
        obtain ⟨w, hw, rfl⟩ := List.mem_map.mp (hr.subset hi)
        exact (hwords w hw).strip
  · intro x
    rw [hr.removed, hnames]

end

end yocto.bblayers_conf
