-- What `:remove` takes out of the value of a variable (`getVarFlag` of data_smart.py). The
-- words of the variant are carried over in the set of its parse.
import Yocto.DataReads
import Yocto.TextLines

open yocto.list_search yocto.task_ids yocto.ordered_dict yocto.triples yocto.text_lines
open yocto.data_store
open yocto.data_smart (words whitespace_split mem_words)
open yocto.triples.Prog (raise modify reading collect)

namespace yocto.removed_words

variable {g : Expander} {fuel : Nat} {var : Text} {d : Data}

/-! ## The point where the removes are collected -/

def own_texts (d : Data) (var : Text) : List (Text × Text) :=
  match d.findVar var with
  | some v => v.remove
  | none => []

/-- The run of `getVar` up to the removes: the value is expanded to the text `s`, and the
variable's own removes that are active are `own`. -/
structure Point (g : Expander) (fuel : Nat) (var : Text) (d : Data) where
  value : Option Text
  carrier : Carrier
  assembled : Data
  text : unexpanded_value (getVarFlag g fuel) (.get var) d = (.ok (value, carrier), assembled)
  parser : Parse
  parsed : Data
  parse : parse_value g (getVarFlag g fuel) (.get var) value assembled = (.ok (some parser), parsed)
  s : Text
  expanded : parser.value = some s
  own : List Text
  state : Data
  collected :
    if s ≠ [] ∧ own_texts d var ≠ [] then
      need_overrides (getVarFlag g fuel) parsed = (.ok (), state) ∧
        active_texts state.overrides (own_texts d var) = .ok own
    else own = [] ∧ state = parsed

/-- The parse of the variant, as the cache holds it. -/
def shared (carrier : Carrier) (d : Data) : Option Parse :=
  carrier.map fun x => (d.expand_cache.get? x.1).getD x.2

/-- The words that the variant's parse had when it was made, and the variable's own: those that
were added later are another variable's. -/
def Point.Mine (x : Point g fuel var d) (r : Text) : Prop :=
  r ∈ x.own ∨ ∃ p, shared x.carrier x.state = some p ∧ r ∈ p.removes.getD [] ∧ r ∉ p.others

instance (x : Point g fuel var d) (r : Text) : Decidable (x.Mine r) :=
  match h : shared x.carrier x.state with
  | none => decidable_of_iff (r ∈ x.own) (by simp [Point.Mine, h])
  | some p => decidable_of_iff (r ∈ x.own ∨ r ∈ p.removes.getD [] ∧ r ∉ p.others)
      (by simp [Point.Mine, h])

/-- The texts that are removed, each with its words as this run expands it. -/
def Point.Expands (x : Point g fuel var d) (removes : List (Text × List Text)) : Prop :=
  (x.s = [] → removes = []) ∧ (x.s ≠ [] →
    (∀ r, r ∈ removes.map Prod.fst ↔ r ∈ x.own ∨ r ∈ carried x.carrier x.state) ∧
    ∃ same t t', expand_removes g (getVarFlag g fuel) same (removes.map Prod.fst) t =
      (.ok removes, t'))

/-- A word of some of the texts. -/
def taken (removes : List (Text × List Text)) (w : Text) : Bool := removes.any fun r => w ∈ r.2

/-- The words of the texts that are the variable's own or come from its variant are deleted, all
that is between the words stays, and the order of the texts does not matter. -/
structure Point.Correct (x : Point g fuel var d) (removes : List (Text × List Text))
    (result : Text) : Prop where
  value : result = delete_words (taken (removes.filter fun r => x.Mine r.1)) x.s
  words : words result =
    (words x.s).filter fun w => !taken (removes.filter fun r => x.Mine r.1) w
  order : ∀ removes', removes'.Perm removes → x.s ≠ [] →
    (take_out removes' x.parser).value = some result

/-! ## The sets of texts -/

theorem expand_removes_ends {read : Read} {same : Data → Bool} {rs : List Text} {d d' : Data}
    {removes : List (Text × List Text)}
    (h : expand_removes g read same rs d = (.ok removes, d')) :
    removes.map Prod.fst = rs ∧ ∀ r ∈ removes, ∀ w ∈ r.2, Word w := by
  induction rs generalizing d removes d' with
  | nil =>
    obtain rfl := Except.ok.inj (Prod.mk.inj h).1
    simp
  | cons r rs ih =>
    obtain ⟨parser, t, _, h⟩ := bind_ends h
    simp only [reading] at h
    split at h
    · obtain ⟨rest, u, hrest, h⟩ := bind_ends h
      obtain rfl := Except.ok.inj (Prod.mk.inj h).1
      obtain ⟨hnames, hwords⟩ := ih hrest
      refine ⟨by rw [List.map_cons, hnames], List.forall_mem_cons.mpr ⟨fun w hw => ?_, hwords⟩⟩
      obtain ⟨hne, hspace⟩ := mem_words hw
      exact ⟨hne, hspace⟩
    · cases (Prod.mk.inj h).1

theorem mem_foldl_add (p : Parse) (rs : List Text) (r : Text) :
    r ∈ (rs.foldl Parse.add p).removes.getD [] ↔ r ∈ p.removes.getD [] ∨ r ∈ rs := by
  induction rs generalizing p with
  | nil => simp
  | cons x rs ih =>
    rw [List.foldl_cons, ih, List.mem_cons, ← or_assoc]
    apply or_congr_left
    rw [Parse.add]
    split
    · rename_i hx
      rw [or_iff_left_of_imp]
      rintro rfl
      exact hx
    · simp

theorem mem_foldl_set (removes rs : List Text) (r : Text) :
    r ∈ rs.foldl (fun removes r => if r ∈ removes then removes else removes ++ [r]) removes ↔
      r ∈ removes ∨ r ∈ rs := by
  induction rs generalizing removes with
  | nil => simp
  | cons x rs ih =>
    rw [List.foldl_cons, ih, List.mem_cons, ← or_assoc]
    apply or_congr_left
    split
    · rename_i hx
      rw [or_iff_left_of_imp]
      rintro rfl
      exact hx
    · simp

theorem add_removes_ends {carrier : Carrier} {rs removes : List Text} {d d' : Data}
    (h : add_removes carrier rs d = (.ok removes, d')) (r : Text) :
    r ∈ removes ↔ r ∈ rs ∨ r ∈ carried carrier d := by
  cases carrier with
  | none =>
    obtain rfl := Except.ok.inj (Prod.mk.inj h).1
    simp [mem_foldl_set, carried]
  | some x =>
    unfold add_removes at h
    cases hget : d.expand_cache.get? x.1 with
    | none =>
      simp only [reading, hget] at h
      obtain rfl := Except.ok.inj (Prod.mk.inj h).1
      simp [mem_foldl_add, carried, hget, or_comm]
    | some p =>
      simp only [reading, hget] at h
      obtain ⟨_, t, _, h⟩ := bind_ends h
      obtain rfl := Except.ok.inj (Prod.mk.inj h).1
      simp [mem_foldl_add, carried, hget, or_comm]

/-! ## The run of `getVar` -/

theorem getVarFlag_stages {value : Option Text} {parser : Option Parse} {d' : Data}
    (hcache : d.expand_cache.get? var = none)
    (h : getVarFlag g (fuel + 1) (.get var) d = (.ok (value, parser), d')) :
    ∃ unexpanded carrier d₁ parse d₂ parse' d₃,
      unexpanded_value (getVarFlag g fuel) (.get var) d = (.ok (unexpanded, carrier), d₁) ∧
      parse_value g (getVarFlag g fuel) (.get var) unexpanded d₁ = (.ok (some parse), d₂) ∧
      remove_words g (getVarFlag g fuel) (.get var) (d.findVar var) parse.value carrier (some parse)
        d₂ = (.ok (some parse'), d₃) ∧
      parse'.value = value := by
  have hname : (Query.get var).cachename = var := by simp [Query.get, Query.cachename]
  have hcached : cached d (.get var) = none := by simp only [cached, hname, hcache]
  rw [getVarFlag, if_neg (by simp [Query.get, content, text])] at h
  simp only [reading, hcached] at h
  obtain ⟨⟨unexpanded, carrier⟩, d₁, htext, h⟩ := bind_ends h
  obtain ⟨parse, d₂, hparse, h⟩ := bind_ends h
  obtain ⟨parse', d₃, hremove, h⟩ := bind_ends h
  obtain ⟨parse, rfl⟩ : ∃ p, parse = some p := by
    unfold parse_value at hparse
    rw [if_pos (by simp [Query.get])] at hparse
    obtain ⟨_, _, _, hparse⟩ := bind_ends hparse
    exact ⟨_, (Except.ok.inj (Prod.mk.inj hparse).1).symm⟩
  obtain ⟨parse', rfl⟩ : ∃ p, parse' = some p := by
    obtain ⟨_, _, _, hremove⟩ := bind_ends hremove
    obtain ⟨p, _, _, hremove⟩ := bind_ends hremove
    exact ⟨p, (Except.ok.inj (Prod.mk.inj hremove).1).symm⟩
  refine ⟨unexpanded, carrier, d₁, parse, d₂, parse', d₃, htext, hparse, hremove, ?_⟩
  obtain ⟨_, _, _, h⟩ := bind_ends h
  exact (Prod.mk.inj (Except.ok.inj (Prod.mk.inj h).1)).1

theorem own_removes_ends {s : Text} {carrier : Carrier} {removes : List Text} {d₂ t : Data}
    (h : own_removes (getVarFlag g fuel) (.get var) (d.findVar var) (some s) carrier d₂ =
      (.ok removes, t)) :
    ∃ own state, (if s ≠ [] ∧ own_texts d var ≠ [] then
        need_overrides (getVarFlag g fuel) d₂ = (.ok (), state) ∧
          active_texts state.overrides (own_texts d var) = .ok own
      else own = [] ∧ state = d₂) ∧
      ∀ r, r ∈ removes ↔ r ∈ own ∨ r ∈ carried carrier state := by
  unfold own_removes at h
  unfold own_texts
  cases hvar : d.findVar var with
  | none =>
    rw [hvar] at h
    obtain rfl := Except.ok.inj (Prod.mk.inj h).1
    exact ⟨[], d₂, by simp, by simp⟩
  | some v =>
    rw [hvar] at h
    dsimp only at h ⊢
    by_cases hcollect : s ≠ [] ∧ v.remove ≠ []
    · rw [if_pos ⟨hcollect.1, rfl, hcollect.2, rfl⟩] at h
      obtain ⟨_, state, hneed, h⟩ := bind_ends h
      simp only [reading] at h
      cases hactive : active_texts state.overrides v.remove with
      | error e =>
        simp only [hactive] at h
        cases (Prod.mk.inj h).1
      | ok own =>
        simp only [hactive] at h
        refine ⟨own, state, ?_, add_removes_ends h⟩
        rw [if_pos hcollect]
        exact ⟨hneed, hactive⟩
    · rw [if_neg (fun hall => hcollect ⟨hall.1, hall.2.2.1⟩)] at h
      obtain rfl := Except.ok.inj (Prod.mk.inj h).1
      refine ⟨[], d₂, ?_, by simp⟩
      rw [if_neg hcollect]
      exact ⟨rfl, rfl⟩

theorem remove_words_ends {s : Text} {carrier : Carrier} {parse parse' : Parse} {d₂ d₃ : Data}
    (h : remove_words g (getVarFlag g fuel) (.get var) (d.findVar var) (some s) carrier (some parse)
      d₂ = (.ok (some parse'), d₃)) :
    ∃ own state removes, (if s ≠ [] ∧ own_texts d var ≠ [] then
        need_overrides (getVarFlag g fuel) d₂ = (.ok (), state) ∧
          active_texts state.overrides (own_texts d var) = .ok own
      else own = [] ∧ state = d₂) ∧
      ((s = [] ∧ removes = [] ∧ parse' = parse) ∨
       (s ≠ [] ∧ (∀ r, r ∈ removes.map Prod.fst ↔ r ∈ own ∨ r ∈ carried carrier state) ∧
        (∃ same t t', expand_removes g (getVarFlag g fuel) same (removes.map Prod.fst) t =
          (.ok removes, t')) ∧
        (removes = [] ∧ parse' = parse ∨ parse' = take_out removes parse))) := by
  obtain ⟨rs, t, hown, h⟩ := bind_ends h
  obtain ⟨own, state, hcollected, hmem⟩ := own_removes_ends hown
  obtain ⟨parse'', t', htake, h⟩ := bind_ends h
  obtain rfl : parse'' = parse' := Option.some.inj (Except.ok.inj (Prod.mk.inj h).1)
  unfold take_words at htake
  by_cases hs : s = []
  · rw [if_neg (by simp [hs])] at htake
    exact ⟨own, state, [], hcollected,
      Or.inl ⟨hs, rfl, (Except.ok.inj (Prod.mk.inj htake).1).symm⟩⟩
  · by_cases hrs : rs = []
    · rw [if_neg (by simp [hrs])] at htake
      refine ⟨own, state, [], hcollected, Or.inr ⟨hs, ?_, ⟨fun _ => true, d₂, d₂, rfl⟩,
        Or.inl ⟨rfl, (Except.ok.inj (Prod.mk.inj htake).1).symm⟩⟩⟩
      rw [List.map_nil, ← hrs]
      exact hmem
    · rw [if_pos ⟨hs, rfl, rfl, hrs⟩] at htake
      obtain ⟨removes, u, hexpand, htake⟩ := bind_ends htake
      obtain ⟨hnames, _⟩ := expand_removes_ends hexpand
      refine ⟨own, state, removes, hcollected, Or.inr ⟨hs, ?_, ?_,
        Or.inr (Except.ok.inj (Prod.mk.inj htake).1).symm⟩⟩
      · rw [hnames]
        exact hmem
      · rw [hnames]
        exact ⟨_, t, u, hexpand⟩

/-! ## What is left of the text -/

theorem take_out_value (removes : List (Text × List Text)) {parse : Parse} {s : Text}
    (hs : parse.value = some s) :
    (take_out removes parse).value = some (delete_words (taken removes) s) := by
  unfold take_out delete_words taken
  simp only [hs, Option.getD_some]
  congr 2
  apply List.filter_congr
  intro v _
  rw [List.all_eq_not_any_not]
  simp

theorem taken_perm {removes removes' : List (Text × List Text)} (h : removes'.Perm removes) :
    taken removes' = taken removes := by
  funext w
  exact h.any_eq

theorem taken_eq (x : Point g fuel var d) (removes : List (Text × List Text)) (w : Text) :
    taken removes w = (taken (removes.filter fun r => x.Mine r.1) w ||
      taken (removes.filter fun r => ¬x.Mine r.1) w) := by
  unfold taken
  induction removes with
  | nil => rfl
  | cons r rs ih =>
    rw [List.any_cons, ih]
    by_cases hmine : x.Mine r.1
    · simp [hmine, Bool.or_assoc]
    · simp [hmine, Bool.or_left_comm]

theorem Point.correct_iff (x : Point g fuel var d) {removes : List (Text × List Text)}
    (hwords : ∀ r ∈ removes, ∀ w ∈ r.2, Word w) {result : Text}
    (hresult : result = delete_words (taken removes) x.s) :
    x.Correct removes result ↔ ∀ w ∈ words x.s, taken (removes.filter fun r => ¬x.Mine r.1) w →
      taken (removes.filter fun r => x.Mine r.1) w := by
  have htaken : ∀ rs : List (Text × List Text), rs ⊆ removes → ∀ w, taken rs w → Word w := by
    intro rs hrs w hw
    obtain ⟨r, hr, hmem⟩ := List.any_eq_true.mp hw
    exact hwords r (hrs hr) w (of_decide_eq_true hmem)
  have hmine := htaken _ (List.filter_subset_self (p := fun r => decide (x.Mine r.1)) removes)
  have hsame : result = delete_words (taken (removes.filter fun r => x.Mine r.1)) x.s ↔
      ∀ w ∈ words x.s, taken (removes.filter fun r => ¬x.Mine r.1) w →
        taken (removes.filter fun r => x.Mine r.1) w := by
    rw [hresult, delete_words_eq_iff (htaken _ (List.Subset.refl _)) hmine]
    apply forall₂_congr
    intro w _
    rw [taken_eq x]
    cases taken (removes.filter fun r => x.Mine r.1) w <;> simp
  rw [← hsame]
  refine ⟨Correct.value, fun hvalue => ⟨hvalue, ?_, ?_⟩⟩
  · rw [hvalue, words_delete_words hmine]
  · intro removes' hperm _
    rw [take_out_value removes' x.expanded, taken_perm hperm, hresult]

theorem delete_none (s : Text) : delete_words (taken []) s = s := by
  have hfilter : (whitespace_split s).filter (fun v => !taken [] v) = whitespace_split s := by
    rw [List.filter_eq_self]
    intro v _
    rfl
  rw [delete_words, hfilter, whitespace_split_flatten]

theorem ends_of_value {q : Query} {value : Option Text}
    (h : (getVarFlag g fuel q d).1.toOption.map (·.1) = some value) :
    ∃ parser d', getVarFlag g fuel q d = (.ok (value, parser), d') := by
  rcases hrun : getVarFlag g fuel q d with ⟨_ | ⟨v, parser⟩, d'⟩
  · rw [hrun] at h
    cases h
  · rw [hrun] at h
    obtain rfl : v = value := Option.some.inj h
    exact ⟨parser, d', rfl⟩

theorem parse_ends {run : Except data_smart.DataError (Option Parse) × Data}
    (h : (run.1.toOption.bind id).isSome) :
    run = (.ok (some ((run.1.toOption.bind id).get h)), run.2) := by
  obtain ⟨_ | _ | p, s⟩ := run
  · cases h
  · cases h
  · rfl

/-- `A` and `A:b` have the same variant. `A` removes `bar`, and the variant `foo`. -/
def sharedVariant : Data :=
  let d := Data.empty
  let d := act plainText 9 d (.setVar (text "OVERRIDES") (text "b:c") true)
  let d := act plainText 9 d (.setVar (text "A:b:c") (text "foo bar") true)
  let d := act plainText 9 d (.setVar (text "A:b:c:remove") (text "foo") true)
  act plainText 9 d (.setVar (text "A:remove") (text "bar") true)

def afterA : Data := act plainText 9 sharedVariant (.getVarFlag (.get (text "A")))

/-- The run of `getVar("A:b")` then. -/
def textRun := unexpanded_value (getVarFlag plainText 8) (.get (text "A:b")) afterA

theorem textRun_ends : textRun.1.toOption.isSome := by decide +kernel

def parseRun := parse_value plainText (getVarFlag plainText 8) (.get (text "A:b"))
  (textRun.1.toOption.get textRun_ends).1 textRun.2

theorem parseRun_ends : (parseRun.1.toOption.bind id).isSome := by decide +kernel

theorem parseRun_value : ((parseRun.1.toOption.bind id).get parseRun_ends).value =
    some (text "foo bar") := by decide +kernel

/-- The removes of `A:b`: none of its own, and those that the parse of `A:b:c` has. -/
def sharedPoint : Point plainText 8 (text "A:b") afterA where
  value := (textRun.1.toOption.get textRun_ends).1
  carrier := (textRun.1.toOption.get textRun_ends).2
  assembled := textRun.2
  text := ends_with textRun_ends
  parser := (parseRun.1.toOption.bind id).get parseRun_ends
  parsed := parseRun.2
  parse := parse_ends parseRun_ends
  s := text "foo bar"
  expanded := parseRun_value
  own := []
  state := parseRun.2
  collected := by
    have hown : own_texts afterA (task_ids.text "A:b") = [] := by decide +kernel
    rw [if_neg (fun h => h.2 hown)]
    exact ⟨rfl, rfl⟩

end yocto.removed_words
