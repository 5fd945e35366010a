-- The handlers of events (bb.event). The table of the handlers is saved before a recipe is
-- finalised and put back behind it.
import Yocto.OrderedDict
import Yocto.TaskIds
import Mathlib.Tactic

open yocto.task_ids yocto.ordered_dict

namespace yocto.event_handlers

/-! ## The tables -/

/-- A handler in the table. The mask that was given with it is kept with it here, and is not read by the code. -/
structure Entry (H : Type) where
  handler : H
  mask : List Text

abbrev Handlers (H : Type) := OrderedDict Text (Entry H)

variable {H : Type}

/-- The tables that were ever made, of which one is `_handlers`, the tables of the masks, and the names in
`__BBHANDLERS_MC` of each datastore. -/
structure State (H : Type) where
  tables : List (Handlers H)
  current : ℕ
  catchall_handlers : List Text
  event_handler_map : Text → List Text
  bbhandlers_mc : ℕ → List Text

def State.handlers (s : State H) : Handlers H := s.tables.getD s.current []

/-- The table that `_handlers` names is changed in place. -/
def State.with_handlers (s : State H) (handlers : Handlers H) : State H :=
  { s with tables := s.tables.set s.current handlers }

def start : State H := ⟨[[]], 0, [], fun _ => [], fun _ => []⟩

/-! ## The calls -/

structure Data where
  store : ℕ
  current_mc : Option Text

/-- `'%s%s' % (mc.replace('-', '_'), name)` for a datastore of a multiconfig. -/
def full_name (name : Text) : Option Data → Text
  | none => name
  | some data =>
    match data.current_mc with
    | none => name
    | some mc => mc.map (fun c => if c = '-' then '_' else c) ++ name

/-- What is registered as a handler: nothing, a function, or the text of one. -/
inductive Given (H : Type)
  | nothing
  | function (handler : H)
  | code (handler : Text)

inductive Status
  | Registered | AlreadyRegistered | None
  deriving DecidableEq

def bbhandlers_mc_add (s : State H) (name : Text) : Option Data → State H
  | none => s
  | some data =>
    let names := (s.bbhandlers_mc data.store).insert name
    { s with bbhandlers_mc := Function.update s.bbhandlers_mc data.store names }

def bbhandlers_mc_remove (s : State H) (name : Text) : Option Data → State H
  | none => s
  | some data =>
    let names := (s.bbhandlers_mc data.store).filter (· ≠ name)
    { s with bbhandlers_mc := Function.update s.bbhandlers_mc data.store names }

/-- `not mask or '*' in mask`. -/
def catches_all (mask : List Text) : Bool := mask = [] || text "*" ∈ mask

def add_mask (s : State H) (name : Text) (mask : List Text) : State H :=
  if catches_all mask then { s with catchall_handlers := s.catchall_handlers.insert name }
  else
    let add map m := Function.update map m ((map m).insert name)
    { s with event_handler_map := mask.foldl add s.event_handler_map }

/-- `register`. The text of a handler is compiled, which fails for one that is no Python. -/
def register (compile : Text → Text → Option H) (noop : H) (s : State H) (name : Text) (given : Given H)
    (mask : List Text) (data : Option Data) : State H × Status :=
  let name := full_name name data
  if name ∈ s.handlers.map Prod.fst then (bbhandlers_mc_add s name data, .AlreadyRegistered)
  else
    let registered (handler : H) :=
      let s := s.with_handlers (s.handlers.set name ⟨handler, mask⟩)
      (bbhandlers_mc_add (add_mask s name mask) name data, Status.Registered)
    match given with
    | .nothing => (s, .None)
    | .function handler => registered handler
    | .code handler =>
      match compile name handler with
      | some handler => registered handler
      | none => (s.with_handlers (s.handlers.set name ⟨noop, mask⟩), .None)

/-- `remove`. A name that is not in the table is a `KeyError`. -/
def remove (s : State H) (name : Text) (data : Option Data) : Except Text (State H) :=
  let name := full_name name data
  if name ∉ s.handlers.map Prod.fst then .error name
  else
    let s := s.with_handlers (s.handlers.del name)
    .ok (bbhandlers_mc_remove { s with
      catchall_handlers := s.catchall_handlers.filter (· ≠ name)
      event_handler_map := fun event => (s.event_handler_map event).filter (· ≠ name) } name data)

/-- `get_handlers().copy()`. -/
def copy_handlers (s : State H) : State H := { s with tables := s.tables ++ [s.handlers] }

def set_handlers (s : State H) (table : ℕ) : State H := { s with current := table }

def executed (raises : Text → Bool) : List (Text × Entry H) → List (Text × Entry H)
  | [] => []
  | x :: rest => if raises x.1 then [x] else x :: executed raises rest

/-- The handler is in no datastore, or in the set of the one that is given. -/
def of_datastore (s : State H) (data : Option ℕ) (name : Text) : Bool :=
  data.all fun store => name ∈ s.bbhandlers_mc store

/-- `fire_class_handlers` for an event of the class `eid`, or for a log record. -/
def fire_class_handlers (s : State H) (eid : Option Text) (data : Option ℕ) (raises : Text → Bool) :
    List (Text × Entry H) :=
  match eid with
  | none => []
  | some eid => executed raises (s.handlers.filter fun x =>
      (x.1 ∈ s.catchall_handlers || x.1 ∈ s.event_handler_map eid) && of_datastore s data x.1)

inductive Call (H : Type)
  | register (name : Text) (given : Given H) (mask : List Text) (data : Option Data)
  | remove (name : Text) (data : Option Data)
  | copy_handlers
  | set_handlers (table : ℕ)
  | fire_class_handlers (eid : Option Text) (data : Option ℕ) (raises : Text → Bool)
  /-- Anything else that changes the set of a datastore. -/
  | set_bbhandlers_mc (store : ℕ) (names : List Text)

def exec (compile : Text → Text → Option H) (noop : H) (s : State H) : Call H → State H
  | .register name given mask data => (register compile noop s name given mask data).1
  | .remove name data => (remove s name data).toOption.getD s
  | .copy_handlers => copy_handlers s
  | .set_handlers table => if table < s.tables.length then set_handlers s table else s
  | .fire_class_handlers _ _ _ => s
  | .set_bbhandlers_mc store names => { s with bbhandlers_mc := Function.update s.bbhandlers_mc store names }

/-! ## What handlers are registered for -/

/-- The mask is empty, contains `*` or contains the class. -/
def selects (mask : List Text) (eid : Text) : Bool := catches_all mask || eid ∈ mask

/-- Every event is given to the handlers in the table whose own mask selects it, in their order, up to one that
raises. -/
def FiresAsRegistered (s : State H) : Prop :=
  ∀ eid data raises, fire_class_handlers s (some eid) data raises =
    executed raises (s.handlers.filter fun x => selects x.2.mask eid && of_datastore s data x.1)

/-- The masks with which a name was registered since it was removed. -/
abbrev Since := Text → List (List Text)

def Given.compiles (compile : Text → Text → Option H) (name : Text) : Given H → Bool
  | .nothing => false
  | .function _ => true
  | .code handler => (compile name handler).isSome

/-- A call that registers a handler adds its mask, and one that removes it takes the masks away. -/
def noted (compile : Text → Text → Option H) (s : State H) (since : Since) : Call H → Since
  | .register name given mask data =>
    let name := full_name name data
    if name ∉ s.handlers.map Prod.fst ∧ given.compiles compile name then
      Function.update since name (mask :: since name)
    else since
  | .remove name data =>
    let name := full_name name data
    if name ∈ s.handlers.map Prod.fst then Function.update since name [] else since
  | _ => since

def after (compile : Text → Text → Option H) (noop : H) (calls : List (Call H)) : State H × Since :=
  calls.foldl (fun s c => (exec compile noop s.1 c, noted compile s.1 s.2 c)) (start, fun _ => [])

/-- For every handler in the table the masks under its name together select what its own mask selects. -/
def MasksAgree (s : State H) (since : Since) : Prop :=
  ∀ x ∈ s.handlers, ∀ eid, (since x.1).any (selects · eid) = selects x.2.mask eid

/-! ## The tables of the masks -/

/-- The tables hold the masks of the names, from before the table of the handlers was put back too. -/
structure Marked (s : State H) (since : Since) : Prop where
  catchall : ∀ name, name ∈ s.catchall_handlers ↔ ∃ mask ∈ since name, catches_all mask
  map : ∀ name eid, name ∈ s.event_handler_map eid ↔ ∃ mask ∈ since name, ¬ catches_all mask ∧ eid ∈ mask

theorem Marked.congr {s s' : State H} {since : Since} (h : Marked s since)
    (hcatchall : s'.catchall_handlers = s.catchall_handlers) (hmap : s'.event_handler_map = s.event_handler_map) :
    Marked s' since :=
  ⟨by rw [hcatchall]; exact h.catchall, by rw [hmap]; exact h.map⟩

theorem marked_start : Marked (start : State H) fun _ => [] := by
  constructor <;> simp [start]

theorem catchall_add (s : State H) (name : Text) (data : Option Data) :
    (bbhandlers_mc_add s name data).catchall_handlers = s.catchall_handlers := by
  cases data <;> rfl

theorem map_add (s : State H) (name : Text) (data : Option Data) :
    (bbhandlers_mc_add s name data).event_handler_map = s.event_handler_map := by
  cases data <;> rfl

theorem catchall_remove (s : State H) (name : Text) (data : Option Data) :
    (bbhandlers_mc_remove s name data).catchall_handlers = s.catchall_handlers := by
  cases data <;> rfl

theorem map_remove (s : State H) (name : Text) (data : Option Data) :
    (bbhandlers_mc_remove s name data).event_handler_map = s.event_handler_map := by
  cases data <;> rfl

theorem mem_add_loop (name : Text) (mask : List Text) (map : Text → List Text) (n eid : Text) :
    n ∈ mask.foldl (fun map m => Function.update map m ((map m).insert name)) map eid ↔
      n ∈ map eid ∨ (n = name ∧ eid ∈ mask) := by
  induction mask generalizing map with
  | nil => simp
  | cons m mask ih =>
    rw [List.foldl_cons, ih]
    by_cases hm : eid = m
    · subst hm
      rw [Function.update_self, List.mem_insert_iff]
      simp
      tauto
    · rw [Function.update_of_ne hm]
      simp [hm]

theorem Marked.add_mask {s : State H} {since : Since} (h : Marked s since) (name : Text) (mask : List Text) :
    Marked (add_mask s name mask) (Function.update since name (mask :: since name)) := by
  by_cases hall : catches_all mask
  · unfold event_handlers.add_mask
    rw [if_pos hall]
    constructor
    · intro n
      simp only [List.mem_insert_iff, h.catchall]
      by_cases hn : n = name
      · subst hn
        simp [hall]
      · simp [hn]
    · intro n eid
      simp only [h.map]
      by_cases hn : n = name
      · subst hn
        simp [hall]
      · simp [hn]
  · unfold event_handlers.add_mask
    rw [if_neg hall]
    constructor
    · intro n
      simp only [h.catchall]
      by_cases hn : n = name
      · subst hn
        simp [hall]
      · simp [hn]
    · intro n eid
      simp only [mem_add_loop, h.map]
      by_cases hn : n = name
      · subst hn
        simp [hall, or_comm]
      · simp [hn]

theorem Marked.remove {s : State H} {since : Since} (h : Marked s since) (name : Text) :
    Marked { s with
      catchall_handlers := s.catchall_handlers.filter (· ≠ name)
      event_handler_map := fun event => (s.event_handler_map event).filter (· ≠ name) }
      (Function.update since name []) := by
  constructor
  · intro n
    simp only [List.mem_filter, h.catchall]
    by_cases hn : n = name
    · subst hn
      simp
    · simp [hn]
  · intro n eid
    simp only [List.mem_filter, h.map]
    by_cases hn : n = name
    · subst hn
      simp
    · simp [hn]

section

variable (compile : Text → Text → Option H) (noop : H)

theorem noted_register (s : State H) (since : Since) (name : Text) (given : Given H) (mask : List Text)
    (data : Option Data) :
    noted compile s since (.register name given mask data) =
      if full_name name data ∉ s.handlers.map Prod.fst ∧ given.compiles compile (full_name name data) then
        Function.update since (full_name name data) (mask :: since (full_name name data))
      else since :=
  rfl

theorem Marked.register {s : State H} {since : Since} (h : Marked s since) (name : Text) (given : Given H)
    (mask : List Text) (data : Option Data) :
    Marked (register compile noop s name given mask data).1
      (noted compile s since (.register name given mask data)) := by
  -- The table of the handlers changes first, and then the masks.
  have hregistered : ∀ handlers, Marked (bbhandlers_mc_add
      (event_handlers.add_mask (s.with_handlers handlers) (full_name name data) mask) (full_name name data) data)
      (Function.update since (full_name name data) (mask :: since (full_name name data))) := by
    intro handlers
    have hadd := @Marked.add_mask H (s.with_handlers handlers) since (h.congr rfl rfl) (full_name name data) mask
    exact hadd.congr (catchall_add _ _ _) (map_add _ _ _)
  rw [noted_register]
  unfold event_handlers.register
  by_cases hname : full_name name data ∈ s.handlers.map Prod.fst
  · rw [if_pos hname, if_neg (by simp [hname])]
    exact h.congr (catchall_add _ _ _) (map_add _ _ _)
  · rw [if_neg hname]
    cases given with
    | nothing =>
      rw [if_neg (by simp [Given.compiles])]
      exact h
    | function handler =>
      rw [if_pos ⟨hname, rfl⟩]
      exact hregistered _
    | code handler =>
      cases hcompile : compile (full_name name data) handler with
      | none =>
        rw [if_neg (by simp [Given.compiles, hcompile])]
        simp only [hcompile]
        exact h.congr rfl rfl
      | some handler =>
        rw [if_pos ⟨hname, by simp [Given.compiles, hcompile]⟩]
        simp only [hcompile]
        exact hregistered _

theorem Marked.exec {s : State H} {since : Since} (h : Marked s since) (c : Call H) :
    Marked (exec compile noop s c) (noted compile s since c) := by
  cases c with
  | register name given mask data => exact h.register compile noop name given mask data
  | remove name data =>
    unfold event_handlers.exec event_handlers.remove noted
    by_cases hname : full_name name data ∈ s.handlers.map Prod.fst
    · simp only [hname, not_true_eq_false, if_false, if_true]
      have hremove := (@Marked.remove H (s.with_handlers (s.handlers.del (full_name name data))) since
        (h.congr rfl rfl) (full_name name data))
      exact hremove.congr (catchall_remove _ _ _) (map_remove _ _ _)
    · simp only [hname, not_false_eq_true, if_true, if_false]
      exact h
  | copy_handlers => exact h.congr rfl rfl
  | set_handlers table =>
    change Marked (if table < s.tables.length then set_handlers s table else s) since
    split
    · exact h.congr rfl rfl
    · exact h
  | fire_class_handlers eid data raises => exact h
  | set_bbhandlers_mc store names => exact h.congr rfl rfl

theorem marked_after (calls : List (Call H)) :
    Marked (after compile noop calls).1 (after compile noop calls).2 := by
  induction calls using List.reverseRecOn with
  | nil => exact marked_start
  | append_singleton calls c ih =>
    unfold after at ih ⊢
    rw [List.foldl_concat]
    exact ih.exec compile noop c

/-! ## What is executed -/

theorem executed_none (l : List (Text × Entry H)) : executed (fun _ => false) l = l := by
  induction l with
  | nil => rfl
  | cons x l ih =>
    unfold executed
    rw [if_neg Bool.false_ne_true, ih]

theorem Marked.selected {s : State H} {since : Since} (h : Marked s since) (name eid : Text) :
    (decide (name ∈ s.catchall_handlers) || decide (name ∈ s.event_handler_map eid)) =
      (since name).any (selects · eid) := by
  rw [Bool.eq_iff_iff, Bool.or_eq_true, decide_eq_true_eq, decide_eq_true_eq, h.catchall, h.map, List.any_eq_true]
  constructor
  · rintro (⟨mask, hmask, hall⟩ | ⟨mask, hmask, -, heid⟩)
    · exact ⟨mask, hmask, by simp [selects, hall]⟩
    · exact ⟨mask, hmask, by simp [selects, heid]⟩
  · rintro ⟨mask, hmask, hselects⟩
    by_cases hall : catches_all mask
    · exact .inl ⟨mask, hmask, hall⟩
    · exact .inr ⟨mask, hmask, hall, by simpa [selects, hall] using hselects⟩

theorem eq_of_filter_eq {α : Type} {l : List α} {p q : α → Bool} (h : l.filter p = l.filter q) {x : α} (hx : x ∈ l) :
    p x = q x := by
  have hmem : x ∈ l.filter p ↔ x ∈ l.filter q := by rw [h]
  rw [List.mem_filter, List.mem_filter] at hmem
  rw [Bool.eq_iff_iff]
  simpa [hx] using hmem

theorem Marked.fires_iff {s : State H} {since : Since} (h : Marked s since) :
    FiresAsRegistered s ↔ MasksAgree s since := by
  unfold FiresAsRegistered fire_class_handlers
  simp only [h.selected]
  constructor
  · intro hfires x hx eid
    have hall := hfires eid none fun _ => false
    rw [executed_none, executed_none] at hall
    simpa [of_datastore] using eq_of_filter_eq hall hx
  · intro hagree eid data raises
    apply congrArg
    apply List.filter_congr
    intro x hx
    rw [hagree x hx eid]

/-- After any calls, handlers are executed for what they were registered for when, for each handler in the table,
the masks under its name since the name was removed together select what its own mask selects. -/
theorem handlers_fire_as_registered_iff (calls : List (Call H)) :
    FiresAsRegistered (after compile noop calls).1 ↔
      MasksAgree (after compile noop calls).1 (after compile noop calls).2 :=
  (marked_after compile noop calls).fires_iff

end

def two_recipes : List (Call Unit) :=
  [.copy_handlers, .register (text "handler") (.function ()) [text "bb.event.RecipePreFinalise"] none,
    .set_handlers 1, .copy_handlers, .register (text "handler") (.function ()) [text "bb.event.RecipeParsed"] none]

/-- The handler of the second recipe is executed for the event of the first one. -/
theorem the_mask_of_another_recipe_stays :
    ¬ ∀ (H : Type) (compile : Text → Text → Option H) (noop : H) (calls : List (Call H)),
      FiresAsRegistered (after compile noop calls).1 := by
  intro h
  have hfires := h Unit (fun _ _ => none) () two_recipes (text "bb.event.RecipePreFinalise") none fun _ => false
  exact absurd (congrArg List.length hfires) (by decide)

end yocto.event_handlers
