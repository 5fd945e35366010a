-- The paths in the files of a shared state package (sstate.bbclass): markers take the place of
-- the sysroots and of the paths of EXTRA_STAGING_FIXMES when the package is made, and the
-- paths of the build that unpacks it take the place of the markers.
import Yocto.Places
import Yocto.TaskIds

open yocto.task_ids yocto.list_search yocto.places

namespace yocto.path_relocation

/-! ## The two functions -/

abbrev Datastore := Text → Text

/-- `sed -e 's:old:new:g' ...` on a text: the substitutions one after the other, each old text
taken as it is and without newline. -/
def sed (program : List (Text × Text)) (s : Text) : Text :=
  program.foldl (fun s x => replace x.1 x.2 s) s

def fixmestagingdirhost : Text := text "FIXMESTAGINGDIRHOST"

def fixmestagingdirtarget : Text := text "FIXMESTAGINGDIRTARGET"

/-- The marker of a variable of `EXTRA_STAGING_FIXMES`. -/
def fixme (fixmevar : Text) : Text := text "FIXME_" ++ fixmevar

/-- The recipe: the classes it inherits, and the words of `EXTRA_STAGING_FIXMES`. -/
structure Recipe where
  inherits_class : Text → Bool
  extra_staging_fixmes : List Text

/-- The first case of both functions. -/
def Recipe.native (recipe : Recipe) : Bool :=
  recipe.inherits_class (text "native") || recipe.inherits_class (text "cross-canadian")

/-- The second case of both functions. -/
def Recipe.cross (recipe : Recipe) : Bool :=
  recipe.inherits_class (text "cross") || recipe.inherits_class (text "crosssdk")

def staging_target (d : Datastore) : Text := d (text "RECIPE_SYSROOT")

def staging_host (d : Datastore) : Text := d (text "RECIPE_SYSROOT_NATIVE")

/-- A file: its content, and whether `fixmepath` lists it. -/
structure File where
  content : Text
  fixmepath : Bool
  deriving DecidableEq

/-- What `grep -l` looks for. -/
def sstate_grep (recipe : Recipe) (d : Datastore) : List Text :=
  (if recipe.native then [staging_host d]
  else if recipe.cross then [staging_target d, staging_host d]
  else [staging_target d, staging_host d]) ++
    recipe.extra_staging_fixmes.map d

/-- The substitutions of `sstate_hardcode_path`. -/
def sstate_hardcode_sed (recipe : Recipe) (d : Datastore) : List (Text × Text) :=
  (staging_host d, fixmestagingdirhost) ::
    (if recipe.native then []
    else if recipe.cross then [(staging_target d, fixmestagingdirtarget)]
    else [(staging_target d, fixmestagingdirtarget)]) ++
    recipe.extra_staging_fixmes.map fun fixmevar => (d fixmevar, fixme fixmevar)

/-- `sstate_hardcode_path`, on the content of a file that the scan finds. -/
def sstate_hardcode_path (recipe : Recipe) (d : Datastore) (content : Text) : File :=
  if (sstate_grep recipe d).any fun path => path <:+: content then
    ⟨sed (sstate_hardcode_sed recipe d) content, true⟩
  else ⟨content, false⟩

/-- The substitutions of `sstate_hardcode_path_unpack`. -/
def sstate_unpack_sed (recipe : Recipe) (d : Datastore) : List (Text × Text) :=
  (if recipe.native then [(fixmestagingdirhost, staging_host d)]
  else if recipe.cross then
    [(fixmestagingdirtarget, staging_target d), (fixmestagingdirhost, staging_host d)]
  else [(fixmestagingdirtarget, staging_target d)]) ++
    recipe.extra_staging_fixmes.map fun fixmevar => (fixme fixmevar, d fixmevar)

/-- `sstate_hardcode_path_unpack`, on a file of the package. -/
def sstate_hardcode_path_unpack (recipe : Recipe) (d : Datastore) (file : File) : Text :=
  if file.fixmepath then sed (sstate_unpack_sed recipe d) file.content else file.content

/-! ## What they are for -/

/-- A path of the build: a sysroot, or the one of the variable at an index of
`EXTRA_STAGING_FIXMES`. -/
inductive Place
  | host
  | target
  | extra (index : Nat)
  deriving DecidableEq

def paths (recipe : Recipe) (d : Datastore) : Place → Text
  | .host => staging_host d
  | .target => staging_target d
  | .extra index => (recipe.extra_staging_fixmes[index]?).elim [] d

/-- All places: first that of the native sysroot, of which the sysroot is a prefix. -/
def all_places (recipe : Recipe) : List Place :=
  .host :: .target :: (List.range recipe.extra_staging_fixmes.length).map Place.extra

/-- The content, with a place for every occurrence of a path. -/
def placed (recipe : Recipe) (d : Datastore) (content : Text) : List (Char ⊕ Place) :=
  (all_places recipe).foldl (fun s place => mark (paths recipe d place) place s)
    (content.map Sum.inl)

/-- The content, with every occurrence of a path of the one build replaced by that path of the
other one. -/
def relocated (recipe : Recipe) (d d' : Datastore) (content : Text) : Text :=
  fill (paths recipe d') (placed recipe d content)

theorem relocated_same (recipe : Recipe) (d : Datastore) (content : Text) :
    relocated recipe d d content = content := by
  have hmarks : ∀ (places : List Place) (s : List (Char ⊕ Place)),
      fill (paths recipe d) (places.foldl (fun s place => mark (paths recipe d place) place s) s) =
        fill (paths recipe d) s := by
    intro places
    induction places with
    | nil => exact fun _ => rfl
    | cons place places ih => exact fun s => (ih _).trans (fill_mark rfl s)
  exact (hmarks _ _).trans (fill_items _ _)

/-! ## The substitutions, place by place -/

/-- The places of the variables, from an index on, are filled with what each variable gives. -/
def extra_steps (new : Text → Text) : Nat → List Text → List (Place × Text)
  | _, [] => []
  | index, fixmevar :: fixmevars => (.extra index, new fixmevar) :: extra_steps new (index + 1) fixmevars

theorem replacements_extra {r : Place → Text} {old : Text → Text} (new : Text → Text)
    {index : Nat} {fixmevars : List Text}
    (h : ∀ k v, fixmevars[k]? = some v → r (.extra (index + k)) = old v) :
    replacements r (extra_steps new index fixmevars) = fixmevars.map fun v => (old v, new v) := by
  induction fixmevars generalizing r index with
  | nil => rfl
  | cons v fixmevars ih =>
    have hfirst : r (.extra index) = old v := h 0 v rfl
    rw [extra_steps, replacements, List.map_cons, hfirst]
    congr 1
    refine ih fun k w hw => ?_
    have hne : Place.extra (index + 1 + k) ≠ .extra index := by
      intro heq
      injection heq
      omega
    rw [Function.update_of_ne hne, Nat.add_assoc, Nat.add_comm 1 k]
    exact h (k + 1) w hw

theorem refilled_other {r : Place → Text} {new : Text → Text} {index : Nat} {fixmevars : List Text}
    {place : Place} (h : ∀ k, place ≠ .extra (index + k)) :
    refilled r (extra_steps new index fixmevars) place = r place := by
  induction fixmevars generalizing r index with
  | nil => rfl
  | cons v fixmevars ih =>
    have hrest : ∀ k, place ≠ .extra (index + 1 + k) := by
      intro k
      rw [Nat.add_assoc]
      exact h (1 + k)
    exact (ih hrest).trans (Function.update_of_ne (h 0) _ _)

theorem refilled_extra (r : Place → Text) (new : Text → Text) (index : Nat) (fixmevars : List Text)
    (k : Nat) :
    refilled r (extra_steps new index fixmevars) (.extra (index + k)) =
      (fixmevars[k]?).elim (r (.extra (index + k))) new := by
  induction fixmevars generalizing r index k with
  | nil => rfl
  | cons v fixmevars ih =>
    cases k with
    | zero =>
      have hother : ∀ k, Place.extra (index + 0) ≠ .extra (index + 1 + k) := by
        intro k heq
        injection heq
        omega
      exact (refilled_other hother).trans (Function.update_self _ _ _)
    | succ k =>
      have hne : Place.extra (index + (k + 1)) ≠ .extra index := by
        intro heq
        injection heq
        omega
      have hih := ih (Function.update r (.extra index) (new v)) (index + 1) k
      rw [Nat.add_assoc, Nat.add_comm 1 k, Function.update_of_ne hne] at hih
      exact hih

def hardcode_steps (recipe : Recipe) : List (Place × Text) :=
  (.host, fixmestagingdirhost) ::
    (if recipe.native then [] else [(.target, fixmestagingdirtarget)]) ++
    extra_steps fixme 0 recipe.extra_staging_fixmes

def unpack_steps (recipe : Recipe) (d : Datastore) : List (Place × Text) :=
  (if recipe.native then [(.host, staging_host d)]
  else if recipe.cross then [(.target, staging_target d), (.host, staging_host d)]
  else [(.target, staging_target d)]) ++
    extra_steps d 0 recipe.extra_staging_fixmes

def packaged (recipe : Recipe) (d : Datastore) : Place → Text
  | .host => fixmestagingdirhost
  | .target => if recipe.native then staging_target d else fixmestagingdirtarget
  | .extra index => (recipe.extra_staging_fixmes[index]?).elim [] fixme

/-- What the places hold once the package is unpacked: a native recipe leaves the sysroot as it
was, and one that is neither native nor cross leaves the marker of the native sysroot. -/
def unpacked (recipe : Recipe) (d d' : Datastore) : Place → Text
  | .host => if recipe.native || recipe.cross then staging_host d' else fixmestagingdirhost
  | .target => if recipe.native then staging_target d else staging_target d'
  | .extra index => (recipe.extra_staging_fixmes[index]?).elim [] d'

theorem hardcode_refilled (recipe : Recipe) (d : Datastore) :
    refilled (paths recipe d) (hardcode_steps recipe) = packaged recipe d := by
  unfold hardcode_steps
  rw [refilled_append]
  funext place
  cases place with
  | host =>
    rw [refilled_other (fun _ => Place.noConfusion)]
    cases hnative : recipe.native <;> rfl
  | target =>
    rw [refilled_other (fun _ => Place.noConfusion)]
    cases hnative : recipe.native <;> simp [hnative, refilled, packaged, paths]
  | extra index =>
    have hextra := refilled_extra (refilled (paths recipe d) ((.host, fixmestagingdirhost) ::
      (if recipe.native then [] else [(.target, fixmestagingdirtarget)]))) fixme 0
      recipe.extra_staging_fixmes index
    rw [Nat.zero_add] at hextra
    rw [hextra]
    simp only [packaged]
    cases hv : recipe.extra_staging_fixmes[index]? with
    | some v => simp only [Option.elim_some]
    | none => cases hnative : recipe.native <;> simp [refilled, paths, hv]

theorem unpack_refilled (recipe : Recipe) (d d' : Datastore) :
    refilled (packaged recipe d) (unpack_steps recipe d') = unpacked recipe d d' := by
  unfold unpack_steps
  rw [refilled_append]
  funext place
  cases place with
  | host =>
    rw [refilled_other (fun _ => Place.noConfusion)]
    cases hnative : recipe.native <;> cases hcross : recipe.cross <;>
      simp [hnative, hcross, refilled, packaged, unpacked]
  | target =>
    rw [refilled_other (fun _ => Place.noConfusion)]
    cases hnative : recipe.native <;> cases hcross : recipe.cross <;>
      simp [hnative, refilled, packaged, unpacked]
  | extra index =>
    have hextra := refilled_extra (refilled (packaged recipe d)
      (if recipe.native then [(.host, staging_host d')]
      else if recipe.cross then [(.target, staging_target d'), (.host, staging_host d')]
      else [(.target, staging_target d')])) d' 0 recipe.extra_staging_fixmes index
    rw [Nat.zero_add] at hextra
    rw [hextra]
    simp only [unpacked]
    cases hv : recipe.extra_staging_fixmes[index]? with
    | some v => simp only [Option.elim_some]
    | none =>
      cases hnative : recipe.native <;> cases hcross : recipe.cross <;>
        simp [refilled, packaged, hv]

theorem hardcode_program (recipe : Recipe) (d : Datastore) :
    replacements (paths recipe d) (hardcode_steps recipe) = sstate_hardcode_sed recipe d := by
  have hextra : ∀ steps : List (Place × Text),
      (∀ index, refilled (paths recipe d) steps (.extra index) = paths recipe d (.extra index)) →
      replacements (refilled (paths recipe d) steps) (extra_steps fixme 0 recipe.extra_staging_fixmes) =
        recipe.extra_staging_fixmes.map fun fixmevar => (d fixmevar, fixme fixmevar) := by
    intro steps hsteps
    refine replacements_extra fixme fun k v hv => ?_
    rw [hsteps, Nat.zero_add]
    simp only [paths, hv, Option.elim_some]
  unfold hardcode_steps sstate_hardcode_sed
  rw [replacements_append, hextra _ fun index => by cases recipe.native <;> simp [refilled]]
  cases recipe.native <;> simp [replacements, paths]

theorem unpack_program (recipe : Recipe) (d d' : Datastore) :
    replacements (packaged recipe d) (unpack_steps recipe d') = sstate_unpack_sed recipe d' := by
  have hextra : ∀ steps : List (Place × Text),
      (∀ index, refilled (packaged recipe d) steps (.extra index) = packaged recipe d (.extra index)) →
      replacements (refilled (packaged recipe d) steps) (extra_steps d' 0 recipe.extra_staging_fixmes) =
        recipe.extra_staging_fixmes.map fun fixmevar => (fixme fixmevar, d' fixmevar) := by
    intro steps hsteps
    refine replacements_extra d' fun k v hv => ?_
    rw [hsteps, Nat.zero_add]
    simp only [packaged, hv, Option.elim_some]
  unfold unpack_steps sstate_unpack_sed
  rw [replacements_append, hextra _ fun index => by
    cases recipe.native <;> cases recipe.cross <;> simp [refilled]]
  cases hnative : recipe.native <;> cases recipe.cross <;> simp [hnative, replacements, packaged]

/-! ## A file that is packed and unpacked -/

def markers (recipe : Recipe) : List Text :=
  fixmestagingdirhost :: fixmestagingdirtarget :: recipe.extra_staging_fixmes.map fixme

theorem sed_without_match {program : List (Text × Text)} {s : Text}
    (h : ∀ x ∈ program, ¬ x.1 <:+: s) : sed program s = s := by
  induction program with
  | nil => rfl
  | cons x program ih =>
    unfold sed
    rw [List.foldl_cons, replace_of_absent _ (h x List.mem_cons_self)]
    exact ih fun y hy => h y (List.mem_cons_of_mem _ hy)

theorem grep_of_sed {recipe : Recipe} {d : Datastore} {x : Text × Text}
    (hx : x ∈ sstate_hardcode_sed recipe d) : x.1 ∈ sstate_grep recipe d := by
  unfold sstate_hardcode_sed at hx
  unfold sstate_grep
  rcases List.mem_append.mp hx with hx | hx
  · apply List.mem_append_left
    rcases List.mem_cons.mp hx with rfl | hx
    · split
      · simp
      · split <;> simp
    · split at hx
      · cases hx
      · rename_i hnative
        rw [ite_self, List.mem_singleton] at hx
        rw [if_neg hnative, ite_self, hx]
        simp
  · apply List.mem_append_right
    obtain ⟨v, hv, rfl⟩ := List.mem_map.mp hx
    exact List.mem_map_of_mem hv

theorem marker_of_sed {recipe : Recipe} {d : Datastore} {x : Text × Text}
    (hx : x ∈ sstate_unpack_sed recipe d) : x.1 ∈ markers recipe := by
  unfold sstate_unpack_sed at hx
  unfold markers
  rcases List.mem_append.mp hx with hx | hx
  · have hmarker : x.1 = fixmestagingdirhost ∨ x.1 = fixmestagingdirtarget := by
      split at hx
      · exact Or.inl (by rw [List.mem_singleton.mp hx])
      · split at hx <;> simp only [List.mem_cons, List.not_mem_nil, or_false] at hx
        · rcases hx with rfl | rfl <;> simp
        · exact Or.inr (by rw [hx])
    rcases hmarker with h | h <;> simp [h]
  · obtain ⟨v, hv, rfl⟩ := List.mem_map.mp hx
    simp only [List.mem_cons]
    exact Or.inr (Or.inr (List.mem_map_of_mem hv))

theorem unpack_hardcode {recipe : Recipe} (d d' : Datastore) {content : Text}
    (hnone : ∀ marker ∈ markers recipe, ¬ marker <:+: content) :
    sstate_hardcode_path_unpack recipe d' (sstate_hardcode_path recipe d content) =
      sed (sstate_unpack_sed recipe d') (sed (sstate_hardcode_sed recipe d) content) := by
  unfold sstate_hardcode_path
  split
  · rfl
  · rename_i hgrep
    have hpaths : ∀ x ∈ sstate_hardcode_sed recipe d, ¬ x.1 <:+: content := by
      intro x hx hfound
      apply hgrep
      exact List.any_eq_true.mpr ⟨x.1, grep_of_sed hx, by simpa using hfound⟩
    rw [sed_without_match hpaths, sed_without_match fun x hx => hnone x.1 (marker_of_sed hx)]
    rfl

theorem unpack_hardcode_fill {recipe : Recipe} {d d' : Datastore} {content : Text}
    (hnone : ∀ marker ∈ markers recipe, ¬ marker <:+: content)
    (hclear : Undisturbed (paths recipe d) (placed recipe d content)
      (hardcode_steps recipe ++ unpack_steps recipe d')) :
    sstate_hardcode_path_unpack recipe d' (sstate_hardcode_path recipe d content) =
      fill (unpacked recipe d d') (placed recipe d content) := by
  have hfill := replacements_fill hclear
  rw [replacements_append, refilled_append, hardcode_refilled, unpack_refilled, hardcode_program,
    unpack_program, List.foldl_append] at hfill
  rw [unpack_hardcode d d' hnone, ← hfill]
  unfold sed
  congr 2
  exact (relocated_same recipe d content).symm

/-! ## Relocation is undone -/

theorem host_mem_placed {recipe : Recipe} {d : Datastore} (hne : staging_host d ≠ [])
    (content : Text) :
    Sum.inr .host ∈ placed recipe d content ↔ staging_host d <:+: content := by
  have hothers : ∀ (places : List Place) (s : List (Char ⊕ Place)), Place.host ∉ places →
      (Sum.inr .host ∈ places.foldl (fun s place => mark (paths recipe d place) place s) s ↔
        Sum.inr .host ∈ s) := by
    intro places
    induction places with
    | nil => exact fun _ _ => Iff.rfl
    | cons place places ih =>
      intro s hnot
      rw [List.mem_cons, not_or] at hnot
      rw [List.foldl_cons, ih _ hnot.2, place_mem_mark s hnot.1]
  have hpath : paths recipe d .host ≠ [] := hne
  unfold placed all_places
  rw [List.foldl_cons, hothers _ _ (by simp), own_place_mem_mark hpath]
  simp only [List.mem_map, reduceCtorEq, and_false, exists_false, false_or, paths]
  constructor
  · intro h
    obtain ⟨part, hpart, heq⟩ := List.infix_map_iff.mp h
    rwa [List.map_injective_iff.mpr Sum.inl_injective heq]
  · exact fun h => h.map _

/-- What is left out is not needed. -/
def Handled (recipe : Recipe) (d d' : Datastore) (content : Text) : Prop :=
  if recipe.native then
    Sum.inr .target ∉ placed recipe d content ∨ staging_target d = staging_target d'
  else recipe.cross = true ∨ ¬ staging_host d <:+: content ∨ fixmestagingdirhost = staging_host d'

/-- Every occurrence of a path of the one build is replaced by that path of the other one, and with
the same paths the content is restored. -/
structure Undone (recipe : Recipe) (d d' : Datastore) (content : Text) : Prop where
  relocated : sstate_hardcode_path_unpack recipe d' (sstate_hardcode_path recipe d content) =
    relocated recipe d d' content
  restored : paths recipe d' = paths recipe d →
    sstate_hardcode_path_unpack recipe d' (sstate_hardcode_path recipe d content) = content

theorem unpacked_native {recipe : Recipe} (d d' : Datastore) (h : recipe.native) :
    unpacked recipe d d' = Function.update (paths recipe d') .target (staging_target d) := by
  funext place
  cases place <;> simp [unpacked, paths, h]

theorem unpacked_cross {recipe : Recipe} (d d' : Datastore) (h : ¬recipe.native) (hcross : recipe.cross) :
    unpacked recipe d d' = paths recipe d' := by
  funext place
  cases place <;> simp [unpacked, paths, h, hcross]

theorem unpacked_other {recipe : Recipe} (d d' : Datastore) (h : ¬recipe.native)
    (hcross : ¬recipe.cross) :
    unpacked recipe d d' = Function.update (paths recipe d') .host fixmestagingdirhost := by
  funext place
  cases place <;> simp [unpacked, paths, h, hcross]

/-- A content in which each path and each marker is found at its places only, when its turn comes,
is relocated as far as the kind of the recipe handles what it holds. -/
theorem relocation_is_undone_iff_handled (recipe : Recipe) (d d' : Datastore) (content : Text)
    (hnone : ∀ marker ∈ markers recipe, ¬ marker <:+: content)
    (hclear : Undisturbed (paths recipe d) (placed recipe d content)
      (hardcode_steps recipe ++ unpack_steps recipe d')) :
    Undone recipe d d' content ↔ Handled recipe d d' content := by
  have hresult := unpack_hardcode_fill hnone hclear
  have hundone : Undone recipe d d' content ↔
      fill (unpacked recipe d d') (placed recipe d content) =
        fill (paths recipe d') (placed recipe d content) := by
    constructor
    · intro h
      exact hresult.symm.trans h.relocated
    · intro h
      have hrelocated := hresult.trans h
      refine ⟨hrelocated, fun hsame => hrelocated.trans ?_⟩
      rw [hsame]
      exact relocated_same recipe d content
  rw [hundone]
  unfold Handled
  by_cases hnative : recipe.native
  · have hown : Function.update (paths recipe d') .target (staging_target d') = paths recipe d' :=
      Function.update_eq_self _ _
    rw [if_pos hnative, unpacked_native d d' hnative, ← fill_update_eq_iff (paths recipe d'), hown]
  rw [if_neg hnative]
  by_cases hcross : recipe.cross
  · rw [unpacked_cross d d' hnative hcross]
    simp [hcross]
  · have hown : Function.update (paths recipe d') .host (staging_host d') = paths recipe d' :=
      Function.update_eq_self _ _
    have hne : staging_host d ≠ [] := hclear.1
    rw [unpacked_other d d' hnative hcross, or_iff_right hcross, ← @host_mem_placed recipe d hne,
      ← fill_update_eq_iff (paths recipe d'), hown]

/-- A recipe of a class, with one variable in `EXTRA_STAGING_FIXMES`. -/
def recipeOf (c : String) : Recipe := ⟨fun name => name = text c, [text "H"]⟩

/-- A build with its sysroots and the path of the variable. -/
def build (target host h : String) : Datastore := fun name =>
  if name = text "RECIPE_SYSROOT" then text target
  else if name = text "RECIPE_SYSROOT_NATIVE" then text host
  else text h

theorem a_cross_recipe_is_relocated :
    Undone (recipeOf "cross") (build "/t" "/tn" "/h") (build "/u" "/un" "/g") (text "/h/t/tn") ↔
      Handled (recipeOf "cross") (build "/t" "/tn" "/h") (build "/u" "/un" "/g") (text "/h/t/tn") :=
  relocation_is_undone_iff_handled (recipeOf "cross") (build "/t" "/tn" "/h") (build "/u" "/un" "/g")
    (text "/h/t/tn") (by decide) (by decide)

/-- The marker of the native sysroot stays in a file of a recipe of no such class, although the
paths are the same. -/
theorem the_native_marker_stays :
    (∀ marker ∈ markers (recipeOf "cmake"), ¬ marker <:+: text "#!/tn/perl") ∧
      sstate_hardcode_path_unpack (recipeOf "cmake") (build "/t" "/tn" "/h")
        (sstate_hardcode_path (recipeOf "cmake") (build "/t" "/tn" "/h") (text "#!/tn/perl")) =
        text "#!FIXMESTAGINGDIRHOST/perl" ∧
      ¬Undone (recipeOf "cmake") (build "/t" "/tn" "/h") (build "/t" "/tn" "/h") (text "#!/tn/perl") := by
  refine ⟨by decide, by decide, fun h => ?_⟩
  exact absurd (h.restored rfl) (by decide)

end yocto.path_relocation
