-- The values of the PR table over all sequences of calls.
import Yocto.PrTable

open yocto.task_ids yocto.unique_table yocto.high_water yocto.pr_table

namespace yocto.pr_values

inductive Call
  | get_value (version pkgarch checksum : Text)
  | importone (version pkgarch checksum : Text) (value : PyValue)
  deriving DecidableEq

/-- The checksum that a call is for, with its package. -/
def Call.key : Call → Key
  | .get_value version pkgarch checksum => (version, pkgarch, checksum)
  | .importone version pkgarch checksum _ => (version, pkgarch, checksum)

def call (t : PRTable) : Call → PRTable × Except PrError (WithBot Number)
  | .get_value version pkgarch checksum => t.get_value version pkgarch checksum
  | .importone version pkgarch checksum value => t.importone version pkgarch checksum value

def after (t : PRTable) (calls : List Call) : PRTable := calls.foldl (fun t c => (call t c).1) t

/-- What the calls return, where none of them raises. -/
def answers (t : PRTable) : List Call → List (Option (WithBot Number))
  | [] => []
  | c :: calls => (call t c).2.toOption :: answers (call t c).1 calls

def start (nohist : Bool) : PRTable := .init ⟨.empty, .empty⟩ (text "PRMAIN") nohist false

variable {t : PRTable} {version pkgarch checksum : Text} {calls : List Call}

theorem call_kind (t : PRTable) (c : Call) :
    (call t c).1.nohist = t.nohist ∧ (call t c).1.read_only = t.read_only := by
  cases c with
  | get_value => exact get_value_kind t _ _ _
  | importone => exact importone_kind t _ _ _ _

theorem after_invariant {I : PRTable → Prop} (hw : t.read_only = false) (hstart : I t)
    (hcall : ∀ s : PRTable, s.nohist = t.nohist → s.read_only = false → I s →
      ∀ c ∈ calls, I (call s c).1) :
    I (after t calls) ∧ (after t calls).nohist = t.nohist ∧ (after t calls).read_only = false := by
  induction calls generalizing t with
  | nil => exact ⟨hstart, rfl, hw⟩
  | cons c calls ih =>
    obtain ⟨hnohist, hread_only⟩ := call_kind t c
    have hnext := hcall t rfl hw hstart c List.mem_cons_self
    rw [← hnohist]
    apply ih (hread_only.trans hw) hnext
    intro s hs hsw hI d hd
    exact hcall s (hs.trans hnohist) hsw hI d (List.mem_cons_of_mem _ hd)

theorem after_kind (hw : t.read_only = false) (calls : List Call) :
    (after t calls).nohist = t.nohist ∧ (after t calls).read_only = false :=
  (after_invariant (I := fun _ => True) hw trivial fun _ _ _ _ _ _ => trivial).2

theorem stored_call_of_ne (hw : t.read_only = false) {c : Call}
    (h : (version, pkgarch, checksum) ≠ c.key) :
    stored (call t c).1.conn.rows version pkgarch checksum =
      stored t.conn.rows version pkgarch checksum := by
  cases hn : t.nohist with
  | true =>
    cases c with
    | get_value v p k =>
      replace h : (version, pkgarch, checksum) ≠ (v, p, k) := h
      by_cases hmem : k ∈ (t.mark v p).holders
      · rw [call, get_value_of_mem hn hmem]
      · obtain ⟨t', hget, _, hstored⟩ := get_value_of_not_mem hn hw hmem
        rw [call, hget, hstored, if_neg h]
    | importone v p k value =>
      replace h : (version, pkgarch, checksum) ≠ (v, p, k) := h
      cases hb : value.bind with
      | none => simp [call, PRTable.importone, hn, PRTable.import_no_hist, hw, hb]
      | some b => rw [call, stored_import_no_hist hn hw hb, if_neg h]
  | false =>
    cases c with
    | get_value v p k =>
      replace h : (version, pkgarch, checksum) ≠ (v, p, k) := h
      cases hold : stored t.conn.rows v p k with
      | some b => rw [call, get_value_of_stored hn hold]
      | none =>
        obtain ⟨t', hget, _, hstored⟩ := get_value_of_not_stored hn hw hold
        rw [call, hget, hstored, if_neg h]
    | importone v p k value =>
      replace h : (version, pkgarch, checksum) ≠ (v, p, k) := h
      rw [call, stored_import_hist hn hw, if_neg h]

theorem exists_call_of_stored {nohist : Bool} {b : WithBot Number}
    (h : stored (after (start nohist) calls).conn.rows version pkgarch checksum = some b) :
    ∃ c ∈ calls, (version, pkgarch, checksum) = c.key := by
  by_contra hnot
  have hempty : stored (after (start nohist) calls).conn.rows version pkgarch checksum = none := by
    apply (after_invariant
      (I := fun s => stored s.conn.rows version pkgarch checksum = none) rfl rfl _).1
    intro s _ hw hI c hc
    rwa [stored_call_of_ne hw]
    exact fun heq => hnot ⟨c, hc, heq⟩
  simp [hempty] at h

/-! ## Without history -/

theorem call_mark (hn : t.nohist = true) (hw : t.read_only = false) (c : Call) (v p : Text) :
    (call t c).1.mark v p = t.mark v p ∨
      (∃ checksum, c = .get_value v p checksum ∧
        (call t c).1.mark v p = (t.mark v p).claim next checksum) ∨
      ∃ checksum value n, c = .importone v p checksum value ∧
        (call t c).1.mark v p = (t.mark v p).raise checksum n := by
  cases c with
  | get_value version pkgarch checksum =>
    have hmark := get_value_mark hn hw version pkgarch checksum v p
    split at hmark
    · rename_i heq
      simp only [Prod.mk.injEq] at heq
      obtain ⟨rfl, rfl⟩ := heq
      exact Or.inr (Or.inl ⟨checksum, rfl, hmark⟩)
    · exact Or.inl hmark
  | importone version pkgarch checksum value =>
    rcases importone_mark hn hw version pkgarch checksum value v p with h | ⟨heq, n, _, h⟩
    · exact Or.inl h
    · simp only [Prod.mk.injEq] at heq
      obtain ⟨rfl, rfl⟩ := heq
      exact Or.inr (Or.inr ⟨checksum, value, n, rfl, h⟩)

theorem le_call (hn : t.nohist = true) (hw : t.read_only = false) (c : Call) (v p : Text) :
    (t.mark v p).top ≤ ((call t c).1.mark v p).top := by
  rcases call_mark hn hw c v p with h | ⟨checksum, _, h⟩ | ⟨checksum, _, n, _, h⟩
  · rw [h]
  · rw [h]
    exact Mark.le_claim next _ checksum
  · rw [h]
    exact Mark.le_raise _ checksum n

theorem le_after (hn : t.nohist = true) (hw : t.read_only = false) (calls : List Call)
    (v p : Text) : (t.mark v p).top ≤ ((after t calls).mark v p).top := by
  apply (after_invariant (I := fun s => (t.mark v p).top ≤ (s.mark v p).top) hw le_rfl _).1
  intro s hs hsw hle c _
  exact hle.trans (le_call (hs.trans hn) hsw c v p)

theorem mem_after (hn : t.nohist = true) (hw : t.read_only = false)
    (hmem : checksum ∈ (t.mark version pkgarch).holders)
    (htop : ((after t calls).mark version pkgarch).top = (t.mark version pkgarch).top) :
    checksum ∈ ((after t calls).mark version pkgarch).holders := by
  induction calls generalizing t with
  | nil => exact hmem
  | cons c calls ih =>
    obtain ⟨hnohist, hread_only⟩ := call_kind t c
    have hle := le_call hn hw c version pkgarch
    have hle' := le_after (hnohist.trans hn) (hread_only.trans hw) calls version pkgarch
    have htop₁ : ((call t c).1.mark version pkgarch).top = (t.mark version pkgarch).top :=
      le_antisymm (hle'.trans htop.le) hle
    refine ih (hnohist.trans hn) (hread_only.trans hw) ?_ (htop.trans htop₁.symm)
    rcases call_mark hn hw c version pkgarch with h | ⟨_, _, h⟩ | ⟨_, _, _, _, h⟩
    · rwa [h]
    · rw [h] at htop₁ ⊢
      exact Mark.mem_claim_of_mem hmem htop₁
    · rw [h] at htop₁ ⊢
      exact Mark.mem_raise_of_mem hmem htop₁

theorem sole_after {p : Text → Prop} (hn : t.nohist = true) (hw : t.read_only = false)
    (hsole : Mark.Sole p (t.mark version pkgarch))
    (himport : ∀ c value, .importone version pkgarch c value ∈ calls → ¬p c)
    (htop : ((after t calls).mark version pkgarch).top < real) :
    Mark.Sole p ((after t calls).mark version pkgarch) := by
  induction calls generalizing t with
  | nil => exact hsole
  | cons c calls ih =>
    obtain ⟨hnohist, hread_only⟩ := call_kind t c
    refine ih (hnohist.trans hn) (hread_only.trans hw) ?_
      (fun c value hc => himport c value (List.mem_cons_of_mem _ hc)) htop
    have hlt : (t.mark version pkgarch).top < real :=
      (le_after hn hw (c :: calls) version pkgarch).trans_lt htop
    rcases call_mark hn hw c version pkgarch with h | ⟨_, _, h⟩ | ⟨checksum, value, n, rfl, h⟩
    · rwa [h]
    · rw [h]
      exact hsole.claim fun _ => lt_next hlt
    · rw [h]
      exact hsole.raise fun hp => absurd hp (himport checksum value List.mem_cons_self)

theorem mark_start (version pkgarch : Text) : (start true).mark version pkgarch = .empty := by
  ext c
  · rfl
  · simp [PRTable.mark, stored, start, PRTable.init, Table.empty, Table.get?, Mark.empty]

theorem claim_ne (hn : t.nohist = true) (hw : t.read_only = false) {checksum' : Text}
    {p : Text → Prop} (hsole : Mark.Sole p (t.mark version pkgarch)) (hne : checksum ≠ checksum')
    (hp : p checksum) (hp' : p checksum')
    (hmem : checksum ∈ (t.mark version pkgarch).holders)
    (hreal : (t.mark version pkgarch).top < real) :
    (t.mark version pkgarch).top <
      ((t.get_value version pkgarch checksum').1.mark version pkgarch).top := by
  rw [get_value_mark hn hw, if_pos rfl]
  have hnot : checksum' ∉ (t.mark version pkgarch).holders :=
    fun h => hne (hsole checksum hmem checksum' h hp hp')
  rw [Mark.claim_of_lt hnot (lt_next hreal)]
  exact lt_next hreal

theorem values_without_history (version pkgarch checksum checksum' : Text)
    (before between : List Call) :
    let t := after (start true) before
    let first := t.get_value version pkgarch checksum
    let second := (after first.1 between).get_value version pkgarch checksum'
    ∃ m n : Number, first.2 = .ok ↑m ∧ second.2 = .ok ↑n ∧ m ≤ n ∧
      (checksum ≠ checksum' →
        (∀ c value, c = checksum ∨ c = checksum' →
          .importone version pkgarch c value ∉ before ++ between) →
        m < real → m < n) := by
  intro t first second
  obtain ⟨hn, hw⟩ : t.nohist = true ∧ t.read_only = false := after_kind rfl before
  obtain ⟨hn₁, hw₁⟩ : first.1.nohist = true ∧ first.1.read_only = false := by
    obtain ⟨h, h'⟩ := get_value_kind t version pkgarch checksum
    exact ⟨h.trans hn, h'.trans hw⟩
  obtain ⟨hn₂, hw₂⟩ : (after first.1 between).nohist = true ∧
      (after first.1 between).read_only = false := by
    obtain ⟨h, h'⟩ := after_kind hw₁ between
    exact ⟨h.trans hn₁, h'⟩
  obtain ⟨m, hm, htop₁, hmem⟩ := get_value_holds hn hw version pkgarch checksum
  obtain ⟨n, hn', htop₂, _⟩ := get_value_holds hn₂ hw₂ version pkgarch checksum'
  have hle := le_after hn₁ hw₁ between version pkgarch
  have hle' := le_call hn₂ hw₂ (.get_value version pkgarch checksum') version pkgarch
  refine ⟨m, n, hm, hn', ?_, fun hne himport hreal => ?_⟩
  · exact WithBot.coe_le_coe.mp (htop₁.ge.trans ((hle.trans hle').trans htop₂.le))
  · rw [← WithBot.coe_lt_coe] at hreal ⊢
    rw [← htop₁] at hreal ⊢
    rw [← htop₂]
    rcases hle.lt_or_eq with hlt | heq
    · exact hlt.trans_le hle'
    · -- the mark did not move, so the first checksum still has it, and has it alone
      have hsole₀ : Mark.Sole (fun c => c = checksum ∨ c = checksum') (t.mark version pkgarch) := by
        apply sole_after rfl rfl
        · rw [mark_start]
          exact Mark.Sole.empty _
        · intro c value hc hp
          exact himport c value hp (List.mem_append_left _ hc)
        · exact (le_call hn hw (.get_value version pkgarch checksum) _ _).trans_lt hreal
      have hsole₁ : Mark.Sole (fun c => c = checksum ∨ c = checksum')
          (first.1.mark version pkgarch) := by
        rw [get_value_mark hn hw, if_pos rfl]
        apply hsole₀.claim
        intro _
        exact lt_next ((le_call hn hw (.get_value version pkgarch checksum) _ _).trans_lt hreal)
      have hsole₂ : Mark.Sole (fun c => c = checksum ∨ c = checksum')
          ((after first.1 between).mark version pkgarch) :=
        sole_after hn₁ hw₁ hsole₁
          (fun c value hc hp => himport c value hp (List.mem_append_right _ hc))
          (heq.symm.trans_lt hreal)
      rw [heq]
      exact claim_ne hn₂ hw₂ hsole₂ hne (Or.inl rfl) (Or.inr rfl)
        (mem_after hn₁ hw₁ hmem heq.symm) (heq.symm.trans_lt hreal)

/-! ## With history -/

theorem stored_after (hn : t.nohist = false) (hw : t.read_only = false) {b : WithBot Number}
    (h : stored t.conn.rows version pkgarch checksum = some b) (calls : List Call) :
    stored (after t calls).conn.rows version pkgarch checksum = some b := by
  apply (after_invariant (I := fun s => stored s.conn.rows version pkgarch checksum = some b)
    hw h _).1
  intro s hs hsw hI c _
  by_cases hkey : (version, pkgarch, checksum) = c.key
  · cases c with
    | get_value v p k =>
      simp only [Call.key, Prod.mk.injEq] at hkey
      obtain ⟨rfl, rfl, rfl⟩ := hkey
      rw [call, get_value_of_stored (hs.trans hn) hI]
      exact hI
    | importone v p k value =>
      simp only [Call.key, Prod.mk.injEq] at hkey
      obtain ⟨rfl, rfl, rfl⟩ := hkey
      rw [call, stored_import_hist (hs.trans hn) hsw, if_pos rfl, hI, Option.some_or]
  · rw [stored_call_of_ne hsw hkey]
    exact hI

theorem values_with_history (version pkgarch checksum : Text) (before between : List Call) :
    let t := after (start false) before
    let first := t.get_value version pkgarch checksum
    ∃ b : WithBot Number, first.2 = .ok b ∧
      ((after first.1 between).get_value version pkgarch checksum).2 = .ok b ∧
      ((∀ c ∈ before, c.key ≠ (version, pkgarch, checksum)) →
        (∀ c x, stored t.conn.rows version pkgarch c = some x → x < real) →
        ∀ c x, stored t.conn.rows version pkgarch c = some x → x < b) := by
  intro t first
  obtain ⟨hn, hw⟩ : t.nohist = false ∧ t.read_only = false := after_kind rfl before
  obtain ⟨hn₁, hw₁⟩ : first.1.nohist = false ∧ first.1.read_only = false := by
    obtain ⟨h, h'⟩ := get_value_kind t version pkgarch checksum
    exact ⟨h.trans hn, h'.trans hw⟩
  have hn₂ : (after first.1 between).nohist = false := (after_kind hw₁ between).1.trans hn₁
  -- what the first call returns is stored then, and stays
  suffices h : ∃ b : WithBot Number, first.2 = .ok b ∧
      stored first.1.conn.rows version pkgarch checksum = some b ∧
      ((∀ c ∈ before, c.key ≠ (version, pkgarch, checksum)) →
        (∀ c x, stored t.conn.rows version pkgarch c = some x → x < real) →
        ∀ c x, stored t.conn.rows version pkgarch c = some x → x < b) by
    obtain ⟨b, hfirst, hstored, hnew⟩ := h
    refine ⟨b, hfirst, ?_, hnew⟩
    rw [get_value_of_stored hn₂ (stored_after hn₁ hw₁ hstored between)]
  cases hold : stored t.conn.rows version pkgarch checksum with
  | some b =>
    obtain ⟨c, hc, hkey⟩ := exists_call_of_stored hold
    have hget : first = (t, .ok b) := get_value_of_stored hn hold
    refine ⟨b, by rw [hget], by rw [hget, hold], fun hunseen => ?_⟩
    exact absurd hkey.symm (hunseen c hc)
  | none =>
    obtain ⟨t', hget, _, hstored⟩ := get_value_of_not_stored hn hw hold
    have hfirst : first = (t', .ok ↑(next (t.max_value version pkgarch))) := hget
    refine ⟨_, by rw [hfirst], by rw [hfirst, hstored, if_pos rfl], fun _ hreal c x hx => ?_⟩
    refine (le_max_value hx).trans_lt (lt_next ?_)
    rcases max_value_mem t version pkgarch with hbot | ⟨c', hc'⟩
    · rw [hbot]
      exact WithBot.bot_lt_coe _
    · exact hreal c' _ hc'

/-! ## The values of the server -/

/-- Without history a value never goes back, and it goes up when the checksum is another one,
nothing is imported for either checksum and the earlier value is an INTEGER. With history a
checksum keeps its value, and a new one is above those of its package as long as these are
INTEGERs. -/
theorem values_do_not_go_back (version pkgarch checksum checksum' : Text)
    (before between : List Call) :
    (let t := after (start true) before
      let first := t.get_value version pkgarch checksum
      let second := (after first.1 between).get_value version pkgarch checksum'
      ∃ m n : Number, first.2 = .ok ↑m ∧ second.2 = .ok ↑n ∧ m ≤ n ∧
        (checksum ≠ checksum' →
          (∀ c value, c = checksum ∨ c = checksum' →
            .importone version pkgarch c value ∉ before ++ between) →
          m < real → m < n)) ∧
    (let t := after (start false) before
      let first := t.get_value version pkgarch checksum
      ∃ b : WithBot Number, first.2 = .ok b ∧
        ((after first.1 between).get_value version pkgarch checksum).2 = .ok b ∧
        ((∀ c ∈ before, c.key ≠ (version, pkgarch, checksum)) →
          (∀ c x, stored t.conn.rows version pkgarch c = some x → x < real) →
          ∀ c x, stored t.conn.rows version pkgarch c = some x → x < b)) :=
  ⟨values_without_history version pkgarch checksum checksum' before between,
    values_with_history version pkgarch checksum before between⟩

/-- Without history, the last checksum differs from the one before and nothing was imported for
it, and it gets the same value. With history, the last checksum is a new one and gets a value
that is stored already. -/
theorem imports_make_values_equal :
    (answers (start true)
      [.get_value (text "1.0") (text "core2-64") (text "a"),
        .get_value (text "1.0") (text "core2-64") (text "b"),
        .importone (text "1.0") (text "core2-64") (text "a") (.int 1),
        .get_value (text "1.0") (text "core2-64") (text "a"),
        .get_value (text "1.0") (text "core2-64") (text "b")]).map (·.map to_python) =
      [some (.int 0), some (.int 1), some (.int 1), some (.int 1), some (.int 1)] ∧
    (answers (start false)
      [.importone (text "1.0") (text "core2-64") (text "a") (.int (2 ^ 63 - 1)),
        .get_value (text "1.0") (text "core2-64") (text "b"),
        .get_value (text "1.0") (text "core2-64") (text "c")]).map (·.map to_python) =
      [some (.int (2 ^ 63 - 1)), some (.float real), some (.float real)] := by
  decide +kernel

theorem values_go_up_after_an_import :
    ∃ m n : Number, m < n ∧
      ((start true).get_value (text "1.0") (text "core2-64") (text "a")).2 = .ok ↑m ∧
      ((after ((start true).get_value (text "1.0") (text "core2-64") (text "a")).1
        [.importone (text "1.0") (text "core2-64") (text "c") (.int 7)]).get_value
          (text "1.0") (text "core2-64") (text "b")).2 = .ok ↑n := by
  obtain ⟨⟨m, n, hm, hn, _, hlt⟩, _⟩ := values_do_not_go_back (text "1.0") (text "core2-64")
    (text "a") (text "b") [] [.importone (text "1.0") (text "core2-64") (text "c") (.int 7)]
  refine ⟨m, n, hlt (by decide) ?_ ?_, hm, hn⟩
  · rintro c value (rfl | rfl) <;> simp [text]
  · have hzero : ((start true).get_value (text "1.0") (text "core2-64") (text "a")).2.toOption =
        some ↑zero := by decide +kernel
    rw [after, List.foldl_nil] at hm
    rw [hm] at hzero
    rw [WithBot.coe_injective (Option.some.inj hzero)]
    decide

end yocto.pr_values
