-- What a failure does.
import Yocto.TaskData

open yocto.task_ids yocto.ordered_dict yocto.taskdata

namespace yocto.provider_failure

variable {s t u : TaskData} {k : Kind} {fn target : Text}

/-! ## Provider lists -/

@[simp] theorem providers_set_self (s : TaskData) (k : Kind) (target : Text) (l : List Text) :
    (s.set_targets k ((s.targets k).set target l)).providers k target = l := by
  simp [TaskData.providers, TaskData.set_targets, OrderedDict.get?_set_self]

theorem providers_set_other (s : TaskData) {k k' : Kind} {target target' : Text} (l : List Text)
    (h : ¬ (k' = k ∧ target' = target)) :
    (s.set_targets k ((s.targets k).set target l)).providers k' target' =
      s.providers k' target' := by
  by_cases hk : k' = k
  · subst hk
    have hne : target' ≠ target := fun heq => h ⟨rfl, heq⟩
    simp [TaskData.providers, TaskData.set_targets, OrderedDict.get?_set_other _ _ hne]
  · simp [TaskData.providers, TaskData.set_targets, Function.update_of_ne hk]

theorem providers_of_not_key (h : target ∉ (s.targets k).map Prod.fst) :
    s.providers k target = [] := by
  have hnone : (s.targets k).find? (fun x => x.1 = target) = none := by
    rw [List.find?_eq_none]
    intro x hx heq
    exact h (List.mem_map.mpr ⟨x, hx, by simpa using heq⟩)
  simp [TaskData.providers, OrderedDict.get?, hnone]

/-- No list names a provider twice. -/
def Tidy (s : TaskData) : Prop := ∀ k target, (s.providers k target).Nodup

/-- The file is in no list. -/
def Unlisted (s : TaskData) (fn : Text) : Prop := ∀ k target, fn ∉ s.providers k target

/-- All that depends on the target has failed. -/
structure Deserted (s : TaskData) (k : Kind) (target : Text) : Prop where
  files : ∀ x ∈ s.depids k, target ∈ x.2 → x.1 ∈ s.failed_fns
  tasks : ∀ x ∈ s.taskentries, ∀ dep ∈ x.2.depends k, dep.1 = target →
    fn_of_tid x.1 ∈ s.failed_fns

/-- A failure leads from the first state to the second. -/
structure Falls (s t : TaskData) : Prop where
  seenfns : t.seenfns = s.seenfns
  depids : t.depids = s.depids
  taskentries : t.taskentries = s.taskentries
  failed_fns : s.failed_fns ⊆ t.failed_fns
  failed_deps : ∀ k, s.failed_deps k ⊆ t.failed_deps k
  providers : ∀ k target, (t.providers k target).Sublist (s.providers k target)
  unlisted : ∀ fn ∈ t.failed_fns, fn ∉ s.failed_fns → Unlisted t fn
  deserted : ∀ k, ∀ target ∈ t.failed_deps k, target ∉ s.failed_deps k →
    t.providers k target = [] ∧ Deserted t k target

theorem Falls.refl (s : TaskData) : Falls s s where
  seenfns := rfl
  depids := rfl
  taskentries := rfl
  failed_fns := fun _ h => h
  failed_deps := fun _ _ h => h
  providers := fun _ _ => List.Sublist.refl _
  unlisted := fun _ h hn => absurd h hn
  deserted := fun _ _ h hn => absurd h hn

theorem Unlisted.falls (h : Unlisted s fn) (hf : Falls s t) : Unlisted t fn :=
  fun k target hin => h k target ((hf.providers k target).subset hin)

theorem Tidy.falls (h : Tidy s) (hf : Falls s t) : Tidy t :=
  fun k target => (h k target).sublist (hf.providers k target)

theorem providers_nil_falls (hf : Falls s t) (h : s.providers k target = []) :
    t.providers k target = [] := by
  have hsub := hf.providers k target
  rw [h] at hsub
  exact List.sublist_nil.mp hsub

theorem Deserted.falls (h : Deserted s k target) (hf : Falls s t) : Deserted t k target where
  files := by
    rw [hf.depids]
    exact fun x hx hin => hf.failed_fns (h.files x hx hin)
  tasks := by
    rw [hf.taskentries]
    exact fun x hx dep hdep heq => hf.failed_fns (h.tasks x hx dep hdep heq)

theorem Falls.trans (h : Falls s t) (h' : Falls t u) : Falls s u where
  seenfns := h'.seenfns.trans h.seenfns
  depids := h'.depids.trans h.depids
  taskentries := h'.taskentries.trans h.taskentries
  failed_fns := List.Subset.trans h.failed_fns h'.failed_fns
  failed_deps := fun k => List.Subset.trans (h.failed_deps k) (h'.failed_deps k)
  providers := fun k target => (h'.providers k target).trans (h.providers k target)
  unlisted := by
    intro fn hin hnot
    by_cases hmid : fn ∈ t.failed_fns
    · exact (h.unlisted fn hmid hnot).falls h'
    · exact h'.unlisted fn hin hmid
  deserted := by
    intro k target hin hnot
    by_cases hmid : target ∈ t.failed_deps k
    · obtain ⟨hnil, hdes⟩ := h.deserted k target hmid hnot
      exact ⟨providers_nil_falls h' hnil, hdes.falls h'⟩
    · exact h'.deserted k target hin hmid

theorem Falls.foldl {β : Type} {f : TaskData → β → TaskData} {Q : TaskData → β → Prop} {l : List β}
    (hstep : ∀ t, Falls s t → ∀ b ∈ l, Falls t (f t b) ∧ Q (f t b) b)
    (hkeep : ∀ {t u b}, Q t b → Falls t u → Q u b) :
    Falls s (l.foldl f s) ∧ ∀ b ∈ l, Q (l.foldl f s) b := by
  induction l generalizing s with
  | nil => exact ⟨Falls.refl s, by simp⟩
  | cons b l ih =>
    obtain ⟨hfirst, hb⟩ := hstep s (Falls.refl s) b List.mem_cons_self
    obtain ⟨hrest, hl⟩ := ih (s := f s b) fun t ht b' hb' =>
      hstep t (hfirst.trans ht) b' (List.mem_cons_of_mem b hb')
    refine ⟨hfirst.trans hrest, ?_⟩
    intro b' hb'
    rcases List.mem_cons.mp hb' with rfl | hb'
    · exact hkeep hb hrest
    · exact hl b' hb'

/-! ## Depth -/

def mark (fn : Text) (s : TaskData) : TaskData := { s with failed_fns := s.failed_fns ++ [fn] }

def remaining (s : TaskData) : Nat := ((dependents s).toFinset \ s.failed_fns.toFinset).card

theorem Falls.dependents (h : Falls s t) : dependents t = dependents s := by
  simp only [taskdata.dependents, h.depids, h.taskentries]

theorem Falls.remaining_le (h : Falls s t) : remaining t ≤ remaining s := by
  unfold remaining
  rw [h.dependents]
  apply Finset.card_le_card
  apply Finset.sdiff_subset_sdiff (Finset.Subset.refl _)
  intro fn hin
  simp only [List.mem_toFinset] at hin ⊢
  exact h.failed_fns hin

theorem remaining_mark_le (fn : Text) (s : TaskData) : remaining (mark fn s) ≤ remaining s := by
  unfold remaining
  apply Finset.card_le_card
  intro g hg
  simp only [mark, Finset.mem_sdiff, List.mem_toFinset, List.mem_append, not_or] at hg ⊢
  exact ⟨hg.1, hg.2.1⟩

theorem remaining_mark_lt (hin : fn ∈ dependents s) (hgood : fn ∉ s.failed_fns) :
    remaining (mark fn s) < remaining s := by
  unfold remaining
  apply Finset.card_lt_card
  rw [Finset.ssubset_iff]
  refine ⟨fn, by simp [mark], ?_⟩
  intro g hg
  simp only [mark, Finset.mem_insert, Finset.mem_sdiff, List.mem_toFinset, List.mem_append,
    not_or] at hg ⊢
  rcases hg with rfl | hg
  · exact ⟨hin, hgood⟩
  · exact ⟨hg.1, hg.2.1⟩

theorem remaining_le (s : TaskData) : remaining s ≤ (dependents s).length := by
  unfold remaining
  exact (Finset.card_le_card Finset.sdiff_subset).trans (List.toFinset_card_le _)

/-- The function fails a file, when so many files at most can fail beside it. -/
def FailsWithin (n : Nat) (fail : Text → TaskData → TaskData) : Prop :=
  ∀ s fn, Tidy s → fn ∈ s.failed_fns ∨ remaining (mark fn s) < n →
    Falls s (fail fn s) ∧ fn ∈ (fail fn s).failed_fns

/-! ## The loops -/

variable {n : Nat} {fail : Text → TaskData → TaskData}

theorem FailsWithin.dependent (h : FailsWithin n fail) (htidy : Tidy s) (hn : remaining s ≤ n)
    (hin : fn ∈ dependents s) : Falls s (fail fn s) ∧ fn ∈ (fail fn s).failed_fns := by
  apply h s fn htidy
  by_cases hgood : fn ∈ s.failed_fns
  · exact Or.inl hgood
  · have hlt := remaining_mark_lt hin hgood
    exact Or.inr (by omega)

theorem get_dependees_dependents (hin : fn ∈ get_dependees s k target) : fn ∈ dependents s := by
  obtain ⟨x, hx, rfl⟩ := List.mem_map.mp hin
  have hkey : x.1 ∈ (s.depids k).map Prod.fst :=
    List.mem_map_of_mem (List.mem_of_mem_filter hx)
  unfold dependents
  cases k <;> simp only [List.mem_append, hkey, true_or, or_true]

theorem fail_dependents_falls (k : Kind) (target : Text) (h : FailsWithin n fail) (htidy : Tidy s)
    (hn : remaining s ≤ n) :
    Falls s (fail_dependents fail k target s) ∧
      Deserted (fail_dependents fail k target s) k target := by
  have hone : ∀ t, Falls s t → ∀ fn ∈ dependents s,
      Falls t (fail fn t) ∧ fn ∈ (fail fn t).failed_fns := by
    intro t ht fn hfn
    rw [← ht.dependents] at hfn
    exact h.dependent (htidy.falls ht) (ht.remaining_le.trans hn) hfn
  -- the files that depend on the target
  obtain ⟨hfall₁, hfiles⟩ := Falls.foldl (s := s) (f := fun s fn => fail fn s)
    (Q := fun s fn => fn ∈ s.failed_fns) (l := get_dependees s k target)
    (fun t ht fn hfn => hone t ht fn (get_dependees_dependents hfn))
    (fun hq hf => hf.failed_fns hq)
  unfold fail_dependents
  dsimp only
  generalize (get_dependees s k target).foldl _ s = s₁ at hfall₁ hfiles ⊢
  -- the tasks that depend on it
  have hturn : ∀ t, Falls s₁ t → ∀ x ∈ s₁.taskentries,
      Falls t ((x.2.depends k).foldl (fun s dep =>
        if dep.1 = target then fail (fn_of_tid x.1) s else s) t) ∧
      ∀ dep ∈ x.2.depends k, dep.1 = target → fn_of_tid x.1 ∈
        ((x.2.depends k).foldl (fun s dep =>
          if dep.1 = target then fail (fn_of_tid x.1) s else s) t).failed_fns := by
    intro t ht x hx
    have hdep : fn_of_tid x.1 ∈ dependents s := by
      rw [hfall₁.taskentries] at hx
      unfold dependents
      exact List.mem_append_right _ (List.mem_map.mpr ⟨x, hx, rfl⟩)
    apply Falls.foldl (Q := fun s (dep : Text × Text) =>
      dep.1 = target → fn_of_tid x.1 ∈ s.failed_fns)
    · intro u hu dep _
      obtain ⟨hf, hin⟩ := hone u ((hfall₁.trans ht).trans hu) _ hdep
      by_cases heq : dep.1 = target
      · rw [if_pos heq]
        exact ⟨hf, fun _ => hin⟩
      · rw [if_neg heq]
        exact ⟨Falls.refl u, fun h => absurd h heq⟩
    · exact fun hq hf heq => hf.failed_fns (hq heq)
  obtain ⟨hfall₂, htasks⟩ := Falls.foldl
    (Q := fun s (x : Text × TaskEntry) => ∀ dep ∈ x.2.depends k, dep.1 = target →
      fn_of_tid x.1 ∈ s.failed_fns)
    hturn (fun hq hf dep hdep heq => hf.failed_fns (hq dep hdep heq))
  refine ⟨hfall₁.trans hfall₂, ?_, ?_⟩
  · intro x hx hin
    rw [hfall₂.depids, hfall₁.depids] at hx
    apply hfall₂.failed_fns
    apply hfiles
    exact List.mem_map.mpr ⟨x, List.mem_filter.mpr ⟨hx, by simpa using hin⟩, rfl⟩
  · intro x hx
    rw [hfall₂.taskentries] at hx
    exact htasks x hx

theorem mem_add_failed_dep {k' : Kind} {target' : Text} :
    target' ∈ (s.add_failed_dep k target).failed_deps k' ↔
      target' ∈ s.failed_deps k' ∨ (k' = k ∧ target' = target) := by
  by_cases hk : k' = k
  · subst hk
    simp [TaskData.add_failed_dep]
  · simp [TaskData.add_failed_dep, hk]

theorem remove_target_falls (h : FailsWithin n fail) (htidy : Tidy s) (hn : remaining s ≤ n)
    (hnil : s.providers k target = []) :
    Falls s (remove_target fail k target s) ∧
      target ∈ (remove_target fail k target s).failed_deps k := by
  obtain ⟨hall, hdeserted⟩ :=
    fail_dependents_falls (s := s.add_failed_dep k target) k target h htidy hn
  unfold remove_target
  generalize fail_dependents fail k target (s.add_failed_dep k target) = t at hall hdeserted
  constructor
  · constructor
    · exact hall.seenfns
    · exact hall.depids
    · exact hall.taskentries
    · exact hall.failed_fns
    · exact fun k' target' hin => hall.failed_deps k' (mem_add_failed_dep.mpr (Or.inl hin))
    · exact hall.providers
    · exact hall.unlisted
    · intro k' target' hin hnot
      by_cases hmid : target' ∈ (s.add_failed_dep k target).failed_deps k'
      · obtain ⟨rfl, rfl⟩ := (mem_add_failed_dep.mp hmid).resolve_left hnot
        exact ⟨providers_nil_falls hall hnil, hdeserted⟩
      · exact hall.deserted k' target' hin hmid
  · exact hall.failed_deps k (mem_add_failed_dep.mpr (Or.inr ⟨rfl, rfl⟩))

theorem drop_provider_falls (h : FailsWithin n fail) (htidy : Tidy s) (hn : remaining s ≤ n) :
    Falls s (drop_provider fail fn k s target) ∧
      fn ∉ (drop_provider fail fn k s target).providers k target := by
  unfold drop_provider
  split
  · dsimp only
    have herased : Falls s (s.set_targets k ((s.targets k).set target
        ((s.providers k target).erase fn))) := by
      constructor
      · rfl
      · rfl
      · rfl
      · exact fun _ h => h
      · exact fun _ _ h => h
      · intro k' target'
        by_cases heq : k' = k ∧ target' = target
        · obtain ⟨rfl, rfl⟩ := heq
          rw [providers_set_self]
          exact List.erase_sublist
        · rw [providers_set_other s _ heq]
      · exact fun _ hin hnot => absurd hin hnot
      · exact fun _ _ hin hnot => absurd hin hnot
    have hnot : fn ∉ (s.providers k target).erase fn := (htidy k target).not_mem_erase
    split
    · rename_i hnil
      obtain ⟨hfall, -⟩ := remove_target_falls h (htidy.falls herased)
        (herased.remaining_le.trans hn) (by rw [providers_set_self]; exact hnil)
      refine ⟨herased.trans hfall, ?_⟩
      intro hin
      have hin' := (hfall.providers k target).subset hin
      rw [providers_set_self] at hin'
      exact hnot hin'
    · refine ⟨herased, ?_⟩
      rw [providers_set_self]
      exact hnot
  · rename_i hnot
    exact ⟨Falls.refl s, hnot⟩

theorem drop_providers_falls (fn : Text) (k : Kind) (h : FailsWithin n fail) (htidy : Tidy s)
    (hn : remaining s ≤ n) :
    Falls s (drop_providers fail fn k s) ∧
      ∀ target, fn ∉ (drop_providers fail fn k s).providers k target := by
  obtain ⟨hfall, hkeys⟩ := Falls.foldl (s := s) (f := drop_provider fail fn k)
    (Q := fun s target => fn ∉ s.providers k target) (l := (s.targets k).map Prod.fst)
    (fun t ht target _ =>
      drop_provider_falls h (htidy.falls ht) (ht.remaining_le.trans hn))
    (fun hq hf hin => hq ((hf.providers _ _).subset hin))
  refine ⟨hfall, ?_⟩
  intro target
  by_cases hkey : target ∈ (s.targets k).map Prod.fst
  · exact hkeys target hkey
  · have hnil := providers_nil_falls hfall (providers_of_not_key hkey)
    unfold drop_providers
    rw [hnil]
    exact List.not_mem_nil

/-! ## The recursion -/

theorem fail_depth_fails (n : Nat) : FailsWithin n (fail_depth n) := by
  induction n with
  | zero =>
    rintro s fn - (hfailed | hlt)
    · exact ⟨Falls.refl s, hfailed⟩
    · omega
  | succ n ih =>
    intro s fn htidy hor
    unfold fail_depth
    split
    · rename_i hfailed
      exact ⟨Falls.refl s, hfailed⟩
    · rename_i hgood
      have hn : remaining (mark fn s) ≤ n := Nat.le_of_lt_succ (hor.resolve_left hgood)
      dsimp only
      change Falls s (drop_providers _ fn .run (drop_providers _ fn .build (mark fn s))) ∧
        fn ∈ (drop_providers _ fn .run (drop_providers _ fn .build (mark fn s))).failed_fns
      obtain ⟨hbuild, hnob⟩ := drop_providers_falls (s := mark fn s) fn .build ih htidy hn
      generalize drop_providers (fail_depth n) fn .build (mark fn s) = s₁ at hbuild hnob
      have htidy₁ : Tidy s₁ := Tidy.falls (s := mark fn s) htidy hbuild
      obtain ⟨hrun, hnor⟩ := drop_providers_falls fn .run ih htidy₁
        (hbuild.remaining_le.trans hn)
      have hall := hbuild.trans hrun
      generalize drop_providers (fail_depth n) fn .run s₁ = s₂ at hrun hnor hall
      have hfn : fn ∈ s₂.failed_fns := hall.failed_fns (by simp [mark])
      refine ⟨?_, hfn⟩
      constructor
      · exact hall.seenfns
      · exact hall.depids
      · exact hall.taskentries
      · exact fun g hg => hall.failed_fns (List.mem_append_left _ hg)
      · exact hall.failed_deps
      · exact hall.providers
      · intro g hin hnot
        by_cases heq : g = fn
        · subst heq
          intro k target hlisted
          cases k with
          | build => exact hnob target ((hrun.providers .build target).subset hlisted)
          | run => exact hnor target hlisted
        · apply hall.unlisted g hin
          simp [mark, hnot, heq]
      · exact hall.deserted

theorem fail_fn_fails (n : Nat) : FailsWithin n fail_fn := by
  intro s fn htidy _
  apply fail_depth_fails _ s fn htidy
  have hle := (remaining_mark_le fn s).trans (remaining_le s)
  exact Or.inr (by omega)

theorem fail_fn_falls (htidy : Tidy s) (fn : Text) :
    Falls s (fail_fn fn s) ∧ fn ∈ (fail_fn fn s).failed_fns :=
  fail_fn_fails (remaining (mark fn s) + 1) s fn htidy (Or.inr (Nat.lt_succ_self _))

end yocto.provider_failure
