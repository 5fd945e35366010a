-- The stamp of a task carries a hash, and the tasks that depend on it hash its unihash.
import Yocto.SigGen
import Yocto.Runs

open yocto.task_ids yocto.siggen yocto.raising yocto.runs

namespace yocto.stamp_hash

/-! ## Entries of the table -/

/-- The multiconfig, the recipe name and the task name of a task. -/
def ident (caches : DataCaches) (tid : Text) : Option (Text × Text × Text) := do
  let n ← split_tid_mcfn tid
  let pn ← caches.pkg_fn n.mcfn
  some (n.mc, pn, n.taskname)

def entry (caches : DataCaches) (s : Siggen) (tid : Text) : Option (Text × Text) := do
  let (mc, pn, taskname) ← ident caches tid
  s.unitaskhashes (joined mc pn taskname)

/-- `get_unihash` answers the task hash of the task and does not look at the table. -/
def Short (s : Siggen) (tid : Text) : Prop := s.setscenetasks ≠ [] ∧ tid ∉ s.setscenetasks

instance (s : Siggen) (tid : Text) : Decidable (Short s tid) := instDecidableAnd

/-- The cache answers nothing for the task, so the server is asked. -/
def Queried (s : Siggen) (tid : Text) : Prop :=
  (get_cached_unihash s tid).toOption.bind (fun r => truthy r.2) = none

instance (s : Siggen) (tid : Text) : Decidable (Queried s tid) :=
  inferInstanceAs (Decidable (_ = none))

/-- The pair that is stored for a task that is asked for. -/
def asked_pair (server : Text → Option Text) (tid taskhash : Text) : Text × Text :=
  (taskhash, (truthy (server tid)).getD taskhash)

/-- The pair of a task itself in a call of `get_unihashes`: the one that is asked for, or the
one that is in the table. -/
def own_pair (caches : DataCaches) (server : Text → Option Text) (s : Siggen) (tid : Text) :
    Option (Text × Text) :=
  if Queried s tid then (s.taskhash tid).map (asked_pair server tid) else entry caches s tid

/-! ## Runs -/

/-- Neither the unihash of the task is set, nor its task hash computed anew to another value. -/
def Undisturbed (hash : Sha256) (tid : Text) (s : Siggen) : Call → Prop
  | .set_unihash t _ => t ≠ tid
  | .get_taskhash t server =>
    t = tid → ∀ r, get_taskhash hash server s t = .ok r → s.taskhash tid = some r.2
  | _ => True

/-- To store the pair under the key of the task does no harm. -/
def Harmless (s : Siggen) (tid : Text) (own : Option (Text × Text)) (pair : Text × Text) : Prop :=
  if Short s tid then s.taskhash tid = some pair.1 → pair.2 = pair.1 else own = some pair

/-- Other tasks of the same names that a call of `get_unihashes` asks for store no harm. -/
def CleanQueries (caches : DataCaches) (tid : Text) (server : Text → Option Text) (s : Siggen)
    (tids : List Text) : Prop :=
  ∀ t ∈ tids, t ≠ tid → ident caches t = ident caches tid → Queried s t →
    ∀ h, s.taskhash t = some h → Harmless s tid (own_pair caches server s tid) (asked_pair server t h)

/-- The same for the dependencies that `get_taskhash` asks for one after the other. -/
def CleanDeps (caches : DataCaches) (tid : Text) (server : Text → Option Text) :
    Siggen → List (Text × Text) → Prop
  | _, [] => True
  | s, dep :: deps => CleanQueries caches tid server s [dep.2] ∧
      ∀ r, get_unihash server s dep.2 = .ok r → CleanDeps caches tid server r.1 deps

/-- No call for another task of the same multiconfig, recipe name and task name, that is for
another recipe file, stores harm under the common key. -/
def Clean (caches : DataCaches) (tid : Text) (s : Siggen) : Call → Prop
  | .get_taskhash t server =>
    ∀ deps, s.runtaskdeps t = some deps → CleanDeps caches tid server s (sorted pair_le deps)
  | .get_unihashes tids server => CleanQueries caches tid server s tids
  | .set_unihash t unihash => t ≠ tid → ident caches t = ident caches tid →
      ∀ h, s.taskhash t = some h → Harmless s tid (entry caches s tid) (h, unihash)
  | _ => True

/-- The same for the call that answers, and the table must not hold another unihash for the
task hash of a task that it does not answer for. -/
def CleanAnswer (caches : DataCaches) (tid : Text) (server : Text → Option Text) (s : Siggen)
    (tids : List Text) : Prop :=
  CleanQueries caches tid server s tids ∧
    (Short s tid → ∀ pair, entry caches s tid = some pair → s.taskhash tid = some pair.1 →
      pair.2 = pair.1)

/-! ## What the functions do -/

variable {caches : DataCaches} {s s' : Siggen} {server : Text → Option Text} {tid t : Text}

theorem namesOf_ok {n : Names} (h : namesOf tid = .ok n) : split_tid_mcfn tid = some n := by
  unfold namesOf at h
  split at h
  · rename_i hn
    rw [hn, Except.ok.inj h]
  · cases h

/-- Task hashes are never empty, and the recipe names come from the caches. -/
structure Sound (caches : DataCaches) (s : Siggen) : Prop where
  taskhash_ne : ∀ t h, s.taskhash t = some h → h ≠ []
  tidtopn : ∀ t pn, s.tidtopn t = some pn → ∃ n, split_tid_mcfn t = some n ∧ caches.pkg_fn n.mcfn = some pn

/-- Only the unihashes and their table may differ. -/
def Framed (s s' : Siggen) : Prop :=
  s' = { s with unihash := s'.unihash, unitaskhashes := s'.unitaskhashes }

theorem Framed.trans {s'' : Siggen} (h : Framed s s') (h' : Framed s' s'') : Framed s s'' := by
  unfold Framed at *
  rw [h', h]

theorem Framed.taskhash (h : Framed s s') : s'.taskhash = s.taskhash := by rw [h]

theorem Framed.tidtopn (h : Framed s s') : s'.tidtopn = s.tidtopn := by rw [h]

theorem Framed.setscenetasks (h : Framed s s') : s'.setscenetasks = s.setscenetasks := by rw [h]

theorem Framed.short (h : Framed s s') : Short s' tid ↔ Short s tid := by
  rw [Short, Short, h.setscenetasks]

theorem Framed.sound (h : Framed s s') (hs : Sound caches s) : Sound caches s' where
  taskhash_ne := h.taskhash ▸ hs.taskhash_ne
  tidtopn := h.tidtopn ▸ hs.tidtopn

/-! ## What the calls for unihashes leave -/

theorem set_unihash_framed {unihash : Text} (h : set_unihash s t unihash = .ok s') : Framed s s' := by
  obtain ⟨n, _, h⟩ := bind_ok h
  obtain ⟨pn, _, h⟩ := bind_ok h
  obtain ⟨taskhash, _, h⟩ := bind_ok h
  obtain rfl := Except.ok.inj h
  rfl

theorem get_cached_unihash_framed {r : Siggen × Option Text} (h : get_cached_unihash s t = .ok r) :
    Framed s r.1 := by
  obtain ⟨taskhash, _, h⟩ := bind_ok h
  split at h
  · obtain rfl := Except.ok.inj h
    rfl
  · obtain ⟨found, _, h⟩ := bind_ok h
    split at h <;>
      · obtain rfl := Except.ok.inj h
        rfl

theorem cached_loop_framed {tids queries : List Text} {result : Dict Text}
    {r : Siggen × Dict Text × List Text} (h : cached_loop s tids result queries = .ok r) :
    Framed s r.1 := by
  induction tids generalizing s result queries with
  | nil =>
    obtain rfl := Except.ok.inj h
    rfl
  | cons tid tids ih =>
    obtain ⟨⟨s1, unihash⟩, hcached, h⟩ := bind_ok h
    have hframe := get_cached_unihash_framed hcached
    dsimp only at h
    split at h
    · exact hframe.trans (ih h)
    · exact hframe.trans (ih h)

theorem query_loop_framed {queries : List Text} {result : Dict Text} {r : Siggen × Dict Text}
    (h : query_loop server s queries result = .ok r) : Framed s r.1 := by
  induction queries generalizing s result with
  | nil =>
    obtain rfl := Except.ok.inj h
    rfl
  | cons tid queries ih =>
    obtain ⟨taskhash, _, h⟩ := bind_ok h
    obtain ⟨s1, hset, h⟩ := bind_ok h
    exact (set_unihash_framed hset).trans (ih h)

theorem get_unihashes_framed {tids : List Text} {r : Siggen × Dict Text}
    (h : siggen.get_unihashes server s tids = .ok r) : Framed s r.1 := by
  obtain ⟨⟨s1, result, queries⟩, hloop, h⟩ := bind_ok h
  exact (cached_loop_framed hloop).trans (query_loop_framed h)

theorem get_unihash_ok {r : Siggen × Text} (h : get_unihash server s t = .ok r) :
    ∃ result, siggen.get_unihashes server s [t] = .ok (r.1, result) ∧ result t = some r.2 := by
  obtain ⟨⟨s1, result⟩, hr, h⟩ := bind_ok h
  obtain ⟨u, hu, h⟩ := bind_ok h
  obtain rfl := Except.ok.inj h
  exact ⟨result, hr, lookup_ok hu⟩

theorem get_unihash_framed {r : Siggen × Text} (h : get_unihash server s t = .ok r) :
    Framed s r.1 := by
  obtain ⟨result, hget, _⟩ := get_unihash_ok h
  exact get_unihashes_framed hget

theorem dep_loop_framed {deps : List (Text × Text)} {data : Text} {r : Siggen × Text}
    (h : dep_loop server s deps data = .ok r) : Framed s r.1 := by
  induction deps generalizing s data with
  | nil =>
    obtain rfl := Except.ok.inj h
    rfl
  | cons dep deps ih =>
    obtain ⟨⟨s1, u⟩, hget, h⟩ := bind_ok h
    exact (get_unihash_framed hget).trans (ih h)

/-! ## What the calls for unihashes answer -/

theorem entry_of_table (h : s'.unitaskhashes = s.unitaskhashes) :
    entry caches s' t = entry caches s t := by
  rw [entry, entry, h]

theorem ident_of_key {n n' : Names} {pn pn' : Text} (hn : split_tid_mcfn t = some n)
    (hn' : split_tid_mcfn tid = some n') (hpn : caches.pkg_fn n.mcfn = some pn)
    (hpn' : caches.pkg_fn n'.mcfn = some pn')
    (hkey : joined n.mc pn n.taskname = joined n'.mc pn' n'.taskname) :
    ident caches t = ident caches tid := by
  obtain ⟨hc, hc'⟩ := split_tid_mcfn_colons hn
  obtain ⟨hd, hd'⟩ := split_tid_mcfn_colons hn'
  obtain ⟨h1, h2, h3⟩ := joined_inj hc hd hc' hd' hkey
  simp [ident, hn, hn', hpn, hpn', h1, h2, h3]

theorem set_unihash_ok (hs : Sound caches s) {unihash : Text} (h : set_unihash s t unihash = .ok s') :
    Framed s s' ∧ ∃ taskhash, s.taskhash t = some taskhash ∧ s.tidtopn t ≠ none ∧
      entry caches s' t = some (taskhash, unihash) ∧
      ∀ tid, ident caches t ≠ ident caches tid → entry caches s' tid = entry caches s tid := by
  obtain ⟨n, hn, h⟩ := bind_ok h
  obtain ⟨pn, hpn, h⟩ := bind_ok h
  obtain ⟨taskhash, hth, h⟩ := bind_ok h
  obtain rfl := Except.ok.inj h
  have hn := namesOf_ok hn
  have hpn := lookup_ok hpn
  obtain ⟨n', hn', hcache⟩ := hs.tidtopn t pn hpn
  obtain rfl : n = n' := Option.some.inj (hn.symm.trans hn')
  refine ⟨rfl, taskhash, lookup_ok hth, by simp [hpn], ?_, fun tid hne => ?_⟩
  · simp [entry, ident, hn, hcache]
  · unfold entry
    rcases hid : ident caches tid with _ | ⟨mc, pn', task⟩
    · rfl
    · obtain ⟨n', hn', hid'⟩ := Option.bind_eq_some_iff.mp hid
      obtain ⟨pn'', hcache', hid'⟩ := Option.bind_eq_some_iff.mp hid'
      cases hid'
      refine Function.update_of_ne (fun hkey => hne ?_) _ _
      exact ident_of_key hn hn' hcache hcache' hkey.symm

theorem _get_unihash_spec (hs : Sound caches s) {taskhash : Text} (hth : s.taskhash tid = some taskhash) :
    _get_unihash s tid none = .ok none ∨ ∃ v, _get_unihash s tid none = .ok (some v) ∧
      s.tidtopn tid ≠ none ∧ entry caches s tid = some (taskhash, v) := by
  unfold _get_unihash
  rcases hpn : s.tidtopn tid with _ | pn
  · exact Or.inl rfl
  obtain ⟨n, hn, hcache⟩ := hs.tidtopn tid pn hpn
  have hentry : entry caches s tid = s.unitaskhashes (joined n.mc pn n.taskname) := by
    simp [entry, ident, hn, hcache]
  rw [hentry]
  simp only [namesOf, hn, bind, Except.bind]
  rcases he : s.unitaskhashes (joined n.mc pn n.taskname) with _ | ⟨key, v⟩
  · exact Or.inl rfl
  · simp only [truthy, Option.filter_none, lookup, hth]
    by_cases hkey : key = taskhash
    · exact Or.inr ⟨v, by simp [hkey], by simp, by rw [hkey]⟩
    · exact Or.inl (by simp [hkey])

theorem _get_unihash_hit (hs : Sound caches s) {taskhash v : Text} (hth : s.taskhash tid = some taskhash)
    (hpn : s.tidtopn tid ≠ none) (he : entry caches s tid = some (taskhash, v)) :
    _get_unihash s tid none = .ok (some v) := by
  obtain ⟨pn, hpn⟩ := Option.ne_none_iff_exists'.mp hpn
  obtain ⟨n, hn, hcache⟩ := hs.tidtopn tid pn hpn
  have hentry : s.unitaskhashes (joined n.mc pn n.taskname) = some (taskhash, v) := by
    simpa [entry, ident, hn, hcache] using he
  simp [_get_unihash, hpn, namesOf, hn, hentry, truthy, lookup, hth, bind, Except.bind]

theorem get_cached_unihash_ok (hs : Sound caches s) {r : Siggen × Option Text}
    (h : get_cached_unihash s t = .ok r) :
    Framed s r.1 ∧ r.1.unitaskhashes = s.unitaskhashes ∧ ∃ taskhash, s.taskhash t = some taskhash ∧
      (Short s t → r.2 = some taskhash) ∧
      ∀ u, ¬ Short s t → r.2 = some u →
        s.tidtopn t ≠ none ∧ entry caches s t = some (taskhash, u) := by
  obtain ⟨taskhash, hth, h⟩ := bind_ok h
  have hth := lookup_ok hth
  split at h
  · rename_i hshort
    obtain rfl := Except.ok.inj h
    exact ⟨rfl, rfl, taskhash, hth, fun _ => rfl, fun u hns => absurd hshort hns⟩
  · rename_i hns
    obtain ⟨found, hfound, h⟩ := bind_ok h
    have hspec := _get_unihash_spec hs hth
    rw [hfound] at hspec
    split at h
    · obtain rfl := Except.ok.inj h
      refine ⟨rfl, rfl, taskhash, hth, fun hshort => absurd hshort hns, ?_⟩
      rintro u _ ⟨⟩
      rcases hspec with h0 | ⟨v, hv, hpn, he⟩
      · cases h0
      · exact ⟨hpn, by rw [he, Option.some.inj (Except.ok.inj hv)]⟩
    · obtain rfl := Except.ok.inj h
      exact ⟨rfl, rfl, taskhash, hth, fun hshort => absurd hshort hns, by simp⟩

theorem cached_answer_framed (h : Framed s s') (htable : s'.unitaskhashes = s.unitaskhashes) :
    (get_cached_unihash s' t).map Prod.snd = (get_cached_unihash s t).map Prod.snd := by
  have hunder : _get_unihash s' t none = _get_unihash s t none := by
    rw [_get_unihash, _get_unihash, h.tidtopn, h.taskhash, htable]
  unfold get_cached_unihash
  rw [h.taskhash, h.setscenetasks, hunder]
  rcases hth : s.taskhash t with _ | taskhash
  · simp [lookup, hth, bind, Except.bind, Except.map]
  · simp only [lookup, hth, bind, Except.bind]
    split
    · rfl
    · rcases _get_unihash s t none with e | _ | u <;> rfl

theorem queried_of_framed (h : Framed s s') (htable : s'.unitaskhashes = s.unitaskhashes) :
    Queried s' t ↔ Queried s t := by
  have hanswer := cached_answer_framed (t := t) h htable
  unfold Queried
  rcases h1 : get_cached_unihash s t with e | x <;> rcases h2 : get_cached_unihash s' t with e' | x' <;>
    simp_all [Except.map, Except.toOption]

theorem queried_iff {r : Siggen × Option Text} (h : get_cached_unihash s t = .ok r) :
    Queried s t ↔ truthy r.2 = none := by
  rw [Queried, h]
  rfl

theorem cached_loop_ok (hs : Sound caches s) {tids queries : List Text} {result : Dict Text}
    {r : Siggen × Dict Text × List Text} (h : cached_loop s tids result queries = .ok r) :
    Framed s r.1 ∧ r.1.unitaskhashes = s.unitaskhashes ∧
      (∀ t, t ∈ r.2.2 ↔ t ∈ queries ∨ t ∈ tids ∧ Queried s t) ∧
      ∀ t u, r.2.1 t = some u → result t = some u ∨
        ∃ x, get_cached_unihash s t = .ok x ∧ truthy x.2 = some u := by
  induction tids generalizing s queries result with
  | nil =>
    obtain rfl := Except.ok.inj h
    exact ⟨rfl, rfl, by simp, fun t u h => Or.inl h⟩
  | cons tid tids ih =>
    obtain ⟨x, hx, h⟩ := bind_ok h
    obtain ⟨hframe, htable, _⟩ := get_cached_unihash_ok hs hx
    have hq := queried_iff hx
    have hlater : ∀ t u, (∃ y, get_cached_unihash x.1 t = .ok y ∧ truthy y.2 = some u) →
        ∃ y, get_cached_unihash s t = .ok y ∧ truthy y.2 = some u := by
      rintro t u ⟨y, hy, hu⟩
      have hanswer := cached_answer_framed (t := t) hframe htable
      rw [hy] at hanswer
      rcases hy' : get_cached_unihash s t with e | y'
      · rw [hy'] at hanswer
        cases hanswer
      · rw [hy'] at hanswer
        exact ⟨y', rfl, (Except.ok.inj hanswer) ▸ hu⟩
    dsimp only at h
    split at h
    · rename_i u hu
      obtain ⟨h1, h2, h3, h4⟩ := ih (hframe.sound hs) h
      refine ⟨hframe.trans h1, h2.trans htable, fun t => ?_, fun t v hv => ?_⟩
      · rw [h3, queried_of_framed hframe htable, List.mem_cons]
        have : t = tid → ¬ Queried s t := by
          rintro rfl
          rw [hq, hu]
          simp
        tauto
      · rcases h4 t v hv with h5 | h5
        · by_cases ht : t = tid
          · subst ht
            rw [Function.update_self] at h5
            exact Or.inr ⟨x, hx, hu.trans h5⟩
          · rw [Function.update_of_ne ht] at h5
            exact Or.inl h5
        · exact Or.inr (hlater t v h5)
    · rename_i hu
      obtain ⟨h1, h2, h3, h4⟩ := ih (hframe.sound hs) h
      refine ⟨hframe.trans h1, h2.trans htable, fun t => ?_, fun t v hv => ?_⟩
      · rw [h3, queried_of_framed hframe htable, List.mem_cons]
        have hmem : t ∈ (if tid ∈ queries then queries else queries ++ [tid]) ↔ t ∈ queries ∨ t = tid := by
          split
          · rename_i hin
            exact ⟨Or.inl, by rintro (h | rfl) <;> assumption⟩
          · simp
        have : t = tid → Queried s t := by
          rintro rfl
          exact hq.mpr hu
        tauto
      · exact (h4 t v hv).imp_right (hlater t v)

theorem entry_of_ident (h : ident caches t = ident caches tid) :
    entry caches s t = entry caches s tid := by
  rw [entry, entry, h]

theorem query_loop_ok (tid : Text) (hs : Sound caches s) {queries : List Text} {result : Dict Text}
    {r : Siggen × Dict Text} (h : query_loop server s queries result = .ok r) :
    Framed s r.1 ∧
      (tid ∉ queries ∧ r.2 tid = result tid ∨ tid ∈ queries ∧ s.tidtopn tid ≠ none ∧
        ∃ taskhash, s.taskhash tid = some taskhash ∧ r.2 tid = some (asked_pair server tid taskhash).2) ∧
      ((∀ t ∈ queries, ident caches t ≠ ident caches tid) ∧ entry caches r.1 tid = entry caches s tid ∨
        ∃ t ∈ queries, ident caches t = ident caches tid ∧ ∃ taskhash, s.taskhash t = some taskhash ∧
          entry caches r.1 tid = some (asked_pair server t taskhash)) := by
  induction queries generalizing s result with
  | nil =>
    obtain rfl := Except.ok.inj h
    exact ⟨rfl, Or.inl ⟨by simp, rfl⟩, Or.inl ⟨by simp, rfl⟩⟩
  | cons q qs ih =>
    obtain ⟨taskhash, hth, h⟩ := bind_ok h
    obtain ⟨s1, hset, h⟩ := bind_ok h
    obtain ⟨hframe, th, hth', hpn, hentry, hother⟩ := set_unihash_ok hs hset
    obtain rfl : taskhash = th := Option.some.inj ((lookup_ok hth).symm.trans hth')
    obtain ⟨h1, h2, h3⟩ := ih (hframe.sound hs) h
    rw [hframe.taskhash, hframe.tidtopn] at h2
    rw [hframe.taskhash] at h3
    refine ⟨hframe.trans h1, ?_, ?_⟩
    · rcases h2 with ⟨hnin, h2⟩ | ⟨hin, h2⟩
      · by_cases ht : tid = q
        · subst ht
          refine Or.inr ⟨List.mem_cons_self, hpn, taskhash, hth', ?_⟩
          rw [h2, Function.update_self]
          rfl
        · refine Or.inl ⟨by simp [ht, hnin], ?_⟩
          rw [h2, Function.update_of_ne ht]
      · exact Or.inr ⟨List.mem_cons_of_mem q hin, h2⟩
    · rcases h3 with ⟨hnone, h3⟩ | ⟨t, ht, h3⟩
      · by_cases hid : ident caches q = ident caches tid
        · refine Or.inr ⟨q, List.mem_cons_self, hid, taskhash, hth', ?_⟩
          rw [h3, ← entry_of_ident hid, hentry]
          rfl
        · refine Or.inl ⟨?_, h3.trans (hother tid hid)⟩
          rintro t ht
          rcases List.mem_cons.mp ht with rfl | ht
          · exact hid
          · exact hnone t ht
      · exact Or.inr ⟨t, List.mem_cons_of_mem q ht, h3⟩

/-! ## The invariant -/

/-- The answer `u` for the task is what its stamp will find. -/
structure Stamped (caches : DataCaches) (s : Siggen) (tid u : Text) : Prop where
  sound : Sound caches s
  answered : ∃ taskhash, s.taskhash tid = some taskhash ∧
    (Short s tid → u = taskhash ∧ ∀ v, entry caches s tid = some (taskhash, v) → v = taskhash) ∧
    (¬ Short s tid → u ≠ [] ∧ s.tidtopn tid ≠ none ∧ entry caches s tid = some (taskhash, u))

theorem truthy_some {u : Text} (h : u ≠ []) : truthy (some u) = some u := by
  simp [truthy, Option.filter, h]

theorem truthy_eq_some {x : Option Text} {u : Text} (h : truthy x = some u) : x = some u ∧ u ≠ [] := by
  obtain ⟨h1, h2⟩ := Option.filter_eq_some_iff.mp h
  exact ⟨h1, by simpa using h2⟩

variable {u : Text}

theorem not_queried_of_short (hs : Sound caches s) {taskhash : Text}
    (hth : s.taskhash tid = some taskhash) (hshort : Short s tid) : ¬ Queried s tid := by
  have hcached : get_cached_unihash s tid = .ok
      ({ s with unihash := Function.update s.unihash tid (some none) }, some taskhash) := by
    simp only [get_cached_unihash, lookup, hth, bind, Except.bind]
    exact if_pos hshort
  simp [queried_iff hcached, truthy_some (hs.taskhash_ne tid taskhash hth)]

theorem Stamped.not_queried (h : Stamped caches s tid u) : ¬ Queried s tid := by
  obtain ⟨taskhash, hth, hshort, hlong⟩ := h.answered
  by_cases hs : Short s tid
  · exact not_queried_of_short h.sound hth hs
  · obtain ⟨hu, hpn, he⟩ := hlong hs
    have hhit := _get_unihash_hit h.sound hth hpn he
    have hcached : get_cached_unihash s tid = .ok
        ({ s with unihash := Function.update s.unihash tid (some (some u)) }, some u) := by
      simp only [get_cached_unihash, lookup, hth, bind, Except.bind, hhit]
      exact if_neg hs
    simp [queried_iff hcached, truthy_some hu]

theorem Stamped.keep (h : Stamped caches s tid u) (hframe : Framed s s')
    (hstored : entry caches s' tid = entry caches s tid ∨
      ∃ pair, entry caches s' tid = some pair ∧ Harmless s tid (entry caches s tid) pair) :
    Stamped caches s' tid u where
  sound := hframe.sound h.sound
  answered := by
    obtain ⟨taskhash, hth, hshort, hlong⟩ := h.answered
    rw [hframe.taskhash, hframe.tidtopn, hframe.short]
    rcases hstored with he | ⟨pair, he, hpair⟩
    · exact ⟨taskhash, hth, he ▸ hshort, he ▸ hlong⟩
    · refine ⟨taskhash, hth, fun hs => ⟨(hshort hs).1, fun v hv => ?_⟩, fun hs => ?_⟩
      · rw [Harmless, if_pos hs] at hpair
        obtain rfl := Option.some.inj (he.symm.trans hv)
        exact hpair hth
      · rw [Harmless, if_neg hs] at hpair
        exact ⟨(hlong hs).1, (hlong hs).2.1, he.trans (hpair.symm.trans (hlong hs).2.2)⟩

theorem own_pair_of_not_queried (h : ¬ Queried s tid) :
    own_pair caches server s tid = entry caches s tid := if_neg h

theorem Stamped.get_unihashes (h : Stamped caches s tid u) {tids : List Text} {r : Siggen × Dict Text}
    (hclean : CleanQueries caches tid server s tids)
    (hr : siggen.get_unihashes server s tids = .ok r) : Stamped caches r.1 tid u := by
  obtain ⟨⟨s1, result, queries⟩, hloop, hr⟩ := bind_ok hr
  obtain ⟨hframe, htable, hmem, _⟩ := cached_loop_ok h.sound hloop
  obtain ⟨hframe', _, hstored⟩ := query_loop_ok tid (hframe.sound h.sound) hr
  refine h.keep (hframe.trans hframe') ?_
  rw [entry_of_table htable] at hstored
  rcases hstored with ⟨_, he⟩ | ⟨t, ht, hid, th, hth, he⟩
  · exact Or.inl he
  · rcases (hmem t).mp ht with hnil | ⟨hin, hq⟩
    · cases hnil
    · have hne : t ≠ tid := by
        rintro rfl
        exact h.not_queried hq
      have := hclean t hin hne hid hq th (hframe.taskhash ▸ hth)
      rw [own_pair_of_not_queried h.not_queried] at this
      exact Or.inr ⟨_, he, this⟩

theorem Stamped.dep_loop (h : Stamped caches s tid u) {deps : List (Text × Text)} {data : Text}
    {r : Siggen × Text} (hclean : CleanDeps caches tid server s deps)
    (hr : siggen.dep_loop server s deps data = .ok r) : Stamped caches r.1 tid u := by
  induction deps generalizing s data with
  | nil =>
    obtain rfl := Except.ok.inj hr
    exact h
  | cons dep deps ih =>
    obtain ⟨⟨s1, v⟩, hget, hr⟩ := bind_ok hr
    obtain ⟨result, hget', _⟩ := get_unihash_ok hget
    exact ih (h.get_unihashes hclean.1 hget') (hclean.2 _ hget) hr

theorem get_taskhash_ok {hash : Sha256} {r : Siggen × Text}
    (h : get_taskhash hash server s t = .ok r) : ∃ deps data s1 data', s.runtaskdeps t = some deps ∧
      dep_loop server s (sorted pair_le deps) data = .ok (s1, data') ∧ r.2 ≠ [] ∧
      r.1 = { s1 with taskhash := Function.update s1.taskhash t (some r.2) } := by
  obtain ⟨base, _, h⟩ := bind_ok h
  obtain ⟨deps, hdeps, h⟩ := bind_ok h
  obtain ⟨⟨s1, data⟩, hloop, h⟩ := bind_ok h
  obtain ⟨values, _, h⟩ := bind_ok h
  obtain rfl := Except.ok.inj h
  refine ⟨deps, base, s1, data, lookup_ok hdeps, hloop, fun hnil => ?_, rfl⟩
  have := congrArg List.length hnil
  rw [hash.length_hexdigest] at this
  cases this

theorem prep_taskhash_ok {check : Text → Text → Text → Text → Text → Bool} {deps : List Text}
    {checksums : List (Text × Text)} {uuid : Text} {taint : Option Text} {r : Siggen × List Text}
    (h : prep_taskhash caches check s t deps checksums uuid taint = .ok r) :
    r.1.taskhash = s.taskhash ∧ r.1.setscenetasks = s.setscenetasks ∧
      r.1.unitaskhashes = s.unitaskhashes ∧ ∃ n pn, split_tid_mcfn t = some n ∧
        caches.pkg_fn n.mcfn = some pn ∧ r.1.tidtopn = Function.update s.tidtopn t (some pn) := by
  obtain ⟨n, hn, h⟩ := bind_ok h
  obtain ⟨base, _, h⟩ := bind_ok h
  obtain ⟨pn, hpn, h⟩ := bind_ok h
  obtain ⟨rundeps, _, h⟩ := bind_ok h
  obtain rfl := Except.ok.inj h
  exact ⟨rfl, rfl, rfl, n, pn, namesOf_ok hn, lookup_ok hpn, rfl⟩

theorem Sound.step {hash : Sha256} {check : Text → Text → Text → Text → Text → Bool} {c : Call}
    (hs : Sound caches s) (h : siggen.step hash caches check s c = some s') : Sound caches s' := by
  cases c with
  | prep_taskhash t deps checksums uuid taint =>
    obtain ⟨r, hr, rfl⟩ := Option.map_eq_some_iff.mp h
    obtain ⟨hth, _, _, n, pn, hn, hpn, htop⟩ := prep_taskhash_ok (ok_of_toOption hr)
    refine ⟨hth ▸ hs.taskhash_ne, fun t' pn' ht' => ?_⟩
    rw [htop] at ht'
    by_cases heq : t' = t
    · subst heq
      rw [Function.update_self] at ht'
      exact ⟨n, hn, ht' ▸ hpn⟩
    · rw [Function.update_of_ne heq] at ht'
      exact hs.tidtopn t' pn' ht'
  | get_taskhash t server =>
    obtain ⟨r, hr, rfl⟩ := Option.map_eq_some_iff.mp h
    obtain ⟨deps, data, s1, data', _, hloop, hne, heq⟩ := get_taskhash_ok (ok_of_toOption hr)
    have hs1 := (dep_loop_framed hloop).sound hs
    rw [heq]
    refine ⟨fun t' th ht' => ?_, hs1.tidtopn⟩
    by_cases hte : t' = t
    · subst hte
      simp only [Function.update_self, Option.some.injEq] at ht'
      exact ht' ▸ hne
    · simp only [Function.update_of_ne hte] at ht'
      exact hs1.taskhash_ne t' th ht'
  | get_unihashes tids server =>
    obtain ⟨r, hr, rfl⟩ := Option.map_eq_some_iff.mp h
    exact (get_unihashes_framed (ok_of_toOption hr)).sound hs
  | set_unihash t unihash =>
    exact (set_unihash_ok hs (ok_of_toOption h)).1.sound hs
  | get_stampfile_hash t =>
    obtain ⟨_, _, rfl⟩ := Option.map_eq_some_iff.mp h
    exact hs

theorem Sound.init (table : Dict (Text × Text)) (setscenetasks : List Text) :
    Sound caches (Siggen.init table setscenetasks) where
  taskhash_ne := fun t h ht => by cases ht
  tidtopn := fun t pn ht => by cases ht

theorem Stamped.step {hash : Sha256} {check : Text → Text → Text → Text → Text → Bool} {c : Call}
    (hs : Stamped caches s tid u) (hund : Undisturbed hash tid s c) (hclean : Clean caches tid s c)
    (h : siggen.step hash caches check s c = some s') : Stamped caches s' tid u := by
  have hsound := hs.sound.step h
  cases c with
  | prep_taskhash t deps checksums uuid taint =>
    obtain ⟨r, hr, rfl⟩ := Option.map_eq_some_iff.mp h
    obtain ⟨hth, hset, htable, _, _, _, _, htop⟩ := prep_taskhash_ok (ok_of_toOption hr)
    obtain ⟨th, htid, hshort, hlong⟩ := hs.answered
    refine ⟨hsound, th, hth ▸ htid, ?_⟩
    rw [entry_of_table htable, Short, hset, htop]
    refine ⟨hshort, fun hns => ⟨(hlong hns).1, ?_, (hlong hns).2.2⟩⟩
    by_cases heq : tid = t
    · subst heq
      simp
    · rw [Function.update_of_ne heq]
      exact (hlong hns).2.1
  | get_taskhash t server =>
    obtain ⟨r, hr, rfl⟩ := Option.map_eq_some_iff.mp h
    have hr := ok_of_toOption hr
    obtain ⟨deps, data, s1, data', hdeps, hloop, _, heq⟩ := get_taskhash_ok hr
    have hs1 := hs.dep_loop (hclean deps hdeps) hloop
    have hframe := dep_loop_framed hloop
    obtain ⟨th, htid, hanswer⟩ := hs1.answered
    refine ⟨hsound, th, ?_, ?_⟩
    · rw [heq]
      by_cases hte : tid = t
      · -- the task hash of the task itself comes out as before
        subst hte
        have hsame := hund rfl r hr
        rw [hframe.taskhash, hsame] at htid
        simpa using htid
      · simpa [Function.update_of_ne hte] using htid
    · rw [heq]
      exact hanswer
  | get_unihashes tids server =>
    obtain ⟨r, hr, rfl⟩ := Option.map_eq_some_iff.mp h
    exact hs.get_unihashes hclean (ok_of_toOption hr)
  | set_unihash t unihash =>
    obtain ⟨hframe, th, hth, _, hentry, hother⟩ := set_unihash_ok hs.sound (ok_of_toOption h)
    refine hs.keep hframe ?_
    by_cases hid : ident caches t = ident caches tid
    · exact Or.inr ⟨_, (entry_of_ident hid) ▸ hentry, hclean hund hid th hth⟩
    · exact Or.inl (hother tid hid)
  | get_stampfile_hash t =>
    obtain ⟨_, _, rfl⟩ := Option.map_eq_some_iff.mp h
    exact hs

theorem answer_stamped (hs : Sound caches s) {tids : List Text} {r : Siggen × Dict Text}
    (hclean : CleanAnswer caches tid server s tids)
    (hr : siggen.get_unihashes server s tids = .ok r) (hu : r.2 tid = some u) :
    Stamped caches r.1 tid u := by
  have hr' := hr
  obtain ⟨⟨s1, result, queries⟩, hloop, hr⟩ := bind_ok hr
  obtain ⟨hframe1, htable, hmem, hcached⟩ := cached_loop_ok hs hloop
  obtain ⟨hframe2, hresult, hstored⟩ := query_loop_ok tid (hframe1.sound hs) hr
  have hframe := hframe1.trans hframe2
  rw [hframe1.taskhash, hframe1.tidtopn] at hresult
  rw [hframe1.taskhash] at hstored
  rcases hresult with ⟨hnin, hres⟩ | ⟨hin, hpn, th, hth, hres⟩
  · -- the cache answers, and the others keep the answer
    rcases hcached tid u (hres.symm.trans hu) with h0 | ⟨x, hx, hxu⟩
    · cases h0
    obtain ⟨hxu', hne⟩ := truthy_eq_some hxu
    obtain ⟨_, _, th, hth, hshort, hlong⟩ := get_cached_unihash_ok hs hx
    have hstamped : Stamped caches s tid u := by
      refine ⟨hs, th, hth, fun hsh => ⟨?_, fun v hv => hclean.2 hsh _ hv hth⟩, fun hns => ?_⟩
      · exact Option.some.inj (hxu'.symm.trans (hshort hsh))
      · exact ⟨hne, hlong u hns hxu'⟩
    exact hstamped.get_unihashes hclean.1 hr'
  · -- the server is asked, and the last one to store under the key stores the same pair
    have hq : Queried s tid := by
      rcases (hmem tid).mp hin with h0 | ⟨_, hq⟩
      · cases h0
      · exact hq
    have hns : ¬ Short s tid := fun hsh => not_queried_of_short hs hth hsh hq
    have hown : own_pair caches server s tid = some (asked_pair server tid th) := by
      rw [own_pair, if_pos hq, hth, Option.map_some]
    have hu' : (asked_pair server tid th).2 = u := Option.some.inj (hres.symm.trans hu)
    have hentry : entry caches r.1 tid = some (asked_pair server tid th) := by
      rcases hstored with ⟨hnone, _⟩ | ⟨t, ht, hid, th', hth', he⟩
      · exact absurd rfl (hnone tid hin)
      by_cases hte : t = tid
      · subst hte
        obtain rfl : th' = th := Option.some.inj (hth'.symm.trans hth)
        exact he
      · have ht' : t ∈ tids ∧ Queried s t := by simpa using (hmem t).mp ht
        have := hclean.1 t ht'.1 hte hid ht'.2 th' hth'
        rw [Harmless, if_neg hns, hown] at this
        exact he.trans this.symm
    refine ⟨hframe.sound hs, th, hframe.taskhash ▸ hth, fun hsh => absurd (hframe.short.mp hsh) hns,
      fun _ => ⟨?_, hframe.tidtopn ▸ hpn, ?_⟩⟩
    · rw [← hu', asked_pair]
      rcases htr : truthy (server tid) with _ | v
      · exact hs.taskhash_ne tid th hth
      · exact (truthy_eq_some htr).2
    · rw [hentry, ← hu']
      rfl

theorem Stamped.stampfile_hash (h : Stamped caches s tid u) : get_stampfile_hash s tid = .ok u := by
  obtain ⟨th, hth, hshort, hlong⟩ := h.answered
  unfold get_stampfile_hash
  simp only [hth]
  by_cases hs : Short s tid
  · obtain ⟨rfl, hentry⟩ := hshort hs
    rcases _get_unihash_spec h.sound hth with h1 | ⟨v, h1, _, he⟩
    · rw [h1]
      rfl
    · rw [h1, hentry v he]
      rfl
  · obtain ⟨_, hpn, he⟩ := hlong hs
    rw [_get_unihash_hit h.sound hth hpn he]
    rfl

/-! ## The laws -/

/-- Once a call answered the unihash of a task, its stamp carries it through every run that
neither disturbs the task nor stores harm under its key, whatever the table, the set of
setscene tasks and the answers of the server are. -/
theorem the_stamp_carries_the_answered_unihash (hash : Sha256) (caches : DataCaches)
    (check : Text → Text → Text → Text → Text → Bool) (table : Dict (Text × Text))
    (setscenetasks : List Text) {s0 s : Siggen} {tid u : Text} {tids : List Text}
    {server : Text → Option Text} {answer : Siggen × Dict Text}
    (hbefore : Reaches (step hash caches check) anyStep (Siggen.init table setscenetasks) s0)
    (hanswer : get_unihashes server s0 tids = .ok answer) (hu : answer.2 tid = some u)
    (hclean : CleanAnswer caches tid server s0 tids)
    (hafter : Reaches (step hash caches check)
      (fun s c => Undisturbed hash tid s c ∧ Clean caches tid s c) answer.1 s) :
    get_stampfile_hash s tid = .ok u := by
  have hsound : Sound caches s0 :=
    hbefore.invariant (Sound.init table setscenetasks) fun _ _ _ hs _ h => hs.step h
  have hstamped : Stamped caches answer.1 tid u := answer_stamped hsound hclean hanswer hu
  have hs : Stamped caches s tid u := by
    refine hafter.invariant (I := fun s => Stamped caches s tid u) hstamped ?_
    rintro s1 c s2 h1 ⟨hund, hc⟩ h
    exact h1.step hund hc h
  exact hs.stampfile_hash

def baseHash : Sha256 where
  hexdigest data :=
    if data = text "base" then text "cae662172fd450bb0cd710a769079c05bfc5d8e35efa6576edc7d0377afdd4a2"
    else List.replicate 64 '0'
  length_hexdigest data := by
    split
    · rfl
    · simp

def twoRecipes : DataCaches where
  basetaskhash := fun _ => some (text "base")
  pkg_fn := fun mcfn => if mcfn = text "/a.bb" then some (text "a") else some (text "c")
  nostamp := fun _ => false

def hashed (tid : Text) : List Call :=
  [.prep_taskhash tid [] [] [] none, .get_taskhash tid fun _ => none]

theorem a_stamp_with_the_answer_of_the_server : ∃ (s0 : Siggen) (answer : Siggen × Dict Text) (s : Siggen),
    Reaches (step baseHash twoRecipes fun _ _ _ _ _ => true) anyStep (Siggen.init (fun _ => none) []) s0 ∧
    get_unihashes (fun _ => some (text "ab")) s0 [text "/a.bb:do_b"] = .ok answer ∧
    set_unihash answer.1 (text "/c.bb:do_b") (text "cd") = .ok s ∧
    get_stampfile_hash s (text "/a.bb:do_b") = .ok (text "ab") := by
  have hrun : ((runAll (step baseHash twoRecipes fun _ _ _ _ _ => true) (Siggen.init (fun _ => none) [])
      (hashed (text "/a.bb:do_b") ++ hashed (text "/c.bb:do_b"))).bind fun s0 =>
        (get_unihashes (fun _ => some (text "ab")) s0 [text "/a.bb:do_b"]).toOption.bind fun answer =>
          (set_unihash answer.1 (text "/c.bb:do_b") (text "cd")).toOption.map
            fun _ => (s0.setscenetasks, answer.2 (text "/a.bb:do_b"))) = some ([], some (text "ab")) := by
    decide
  obtain ⟨s0, h0, hrun⟩ := Option.bind_eq_some_iff.mp hrun
  obtain ⟨answer, hanswer, hrun⟩ := Option.bind_eq_some_iff.mp hrun
  obtain ⟨s, hset, hrun⟩ := Option.map_eq_some_iff.mp hrun
  obtain ⟨hnone, hu⟩ := Prod.mk.inj hrun
  have hanswer := ok_of_toOption hanswer
  refine ⟨s0, answer, s, .of_runAll h0, hanswer, ok_of_toOption hset, ?_⟩
  refine the_stamp_carries_the_answered_unihash _ _ _ _ _ (.of_runAll h0) hanswer hu ⟨?_, ?_⟩
    (.step .start (a := .set_unihash (text "/c.bb:do_b") (text "cd")) ⟨?_, ?_⟩ hset)
  · intro t ht hne
    exact absurd (List.mem_singleton.mp ht) hne
  · exact fun hshort => absurd hnone hshort.1
  · exact show text "/c.bb:do_b" ≠ text "/a.bb:do_b" by decide
  · intro _ hid
    exact absurd hid (by decide)

/-- A task that is no setscene task, and an entry for its task hash from an earlier build. -/
theorem an_old_entry_parts_the_stamp_from_the_unihash :
    ¬ ∀ (table : Dict (Text × Text)) (setscenetasks : List Text) (s0 s : Siggen) (tid u : Text)
        (tids : List Text) (server : Text → Option Text) (answer : Siggen × Dict Text),
      Reaches (step baseHash twoRecipes fun _ _ _ _ _ => true) anyStep
        (Siggen.init table setscenetasks) s0 →
      get_unihashes server s0 tids = .ok answer → answer.2 tid = some u →
      Reaches (step baseHash twoRecipes fun _ _ _ _ _ => true) (Undisturbed baseHash tid) answer.1 s →
      get_stampfile_hash s tid = .ok u := by
  intro h
  have hrun : ((runAll (step baseHash twoRecipes fun _ _ _ _ _ => true)
      (Siggen.init (fun key => if key = text ":a:do_b" then
        some (baseHash.hexdigest (text "base"), text "ff") else none) [text "/a.bb:do_c"])
      (hashed (text "/a.bb:do_b"))).bind fun s0 =>
        (get_unihashes (fun _ => none) s0 [text "/a.bb:do_b"]).toOption.map fun answer =>
          (answer.2 (text "/a.bb:do_b"), (get_stampfile_hash answer.1 (text "/a.bb:do_b")).toOption)) =
      some (some (baseHash.hexdigest (text "base")), some (text "ff")) := by
    decide
  obtain ⟨s0, h0, hrun⟩ := Option.bind_eq_some_iff.mp hrun
  obtain ⟨answer, hanswer, hrun⟩ := Option.map_eq_some_iff.mp hrun
  obtain ⟨hu, hstamp⟩ := Prod.mk.inj hrun
  have hsame := h _ _ s0 answer.1 _ _ _ _ answer (.of_runAll h0) (ok_of_toOption hanswer) hu .start
  rw [ok_of_toOption hstamp] at hsame
  exact absurd hsame (by decide)

end yocto.stamp_hash
