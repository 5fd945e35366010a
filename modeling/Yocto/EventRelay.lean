-- The relay of events from the task processes to the cooker.
import Yocto.ListSearch
import Yocto.Runs

open yocto.list_search yocto.runs

namespace yocto.event_relay

/-! ## Pickles and messages -/

/-- The errors of `pickle.loads` that the readers tell apart: `UnpicklingError` with
"truncated" in its text, and every other one. -/
inductive LoadError
  | truncated
  | other
  deriving DecidableEq, Repr

/-- `pickle`, for the values of one type. A complete pickle gives its value back, and a
strict prefix of one raises the truncated error. -/
structure Pickle (V : Type) where
  dumps : V → Bytes
  loads : Bytes → Except LoadError V
  loads_dumps : ∀ v, loads (dumps v) = .ok v
  loads_prefix : ∀ v p, p <+: dumps v → p ≠ dumps v → loads p = .error .truncated

def event_open : Bytes := ascii "<event>"
def event_close : Bytes := ascii "</event>"
def exitcode_open : Bytes := ascii "<exitcode>"
def exitcode_close : Bytes := ascii "</exitcode>"

/-- What the cooker acts on: an event that it fires, or the exit code of a task. -/
inductive Msg (Event Exit : Type)
  | event (e : Event)
  | exitcode (x : Exit)
  deriving DecidableEq, Repr

variable {Pid Event Task Status : Type}
variable (events : Pickle Event) (exits : Pickle (Task × Status))

/-- The bytes of an event, as `worker_child_fire` builds them. -/
def eventBytes (e : Event) : Bytes := event_open ++ (events.dumps e ++ event_close)

/-- The bytes of an exit code, as `process_waitpid` builds them. -/
def exitBytes (x : Task × Status) : Bytes := exitcode_open ++ (exits.dumps x ++ exitcode_close)

def msgBytes : Msg Event (Task × Status) → Bytes
  | .event e => eventBytes events e
  | .exitcode x => exitBytes exits x

/-! ## The worker's reader -/

/-- The `while` of `runQueueWorkerPipe.read`: the messages that it passes on, what stays in the
queue, and false when the `assert` fails. -/
def relay_loop : Nat → Bytes → List Bytes × Bytes × Bool
  | 0, queue => ([], queue, true)
  | turns + 1, queue =>
    match find event_close queue with
    | none => ([], queue, true)
    | some index =>
      let msg := queue.take (index + 8)
      if event_open <+: msg ∧ count event_open msg = 1 then
        let (msgs, queue', ok) := relay_loop turns (queue.drop (index + 8))
        (msg :: msgs, queue', ok)
      else ([], queue, false)

/-! ## The cooker's reader -/

/-- The part of `runQueuePipe` that reads: the queue, the messages it acted on, and whether
a pickle failed to load, which is fatal. -/
structure Cooker (Event Exit : Type) where
  queue : Bytes
  received : List (Msg Event Exit)
  failed : Bool
  deriving DecidableEq, Repr

/-- The `while` over the events at the front of the queue. -/
def event_loop : Nat → Cooker Event (Task × Status) → Option Nat → Bool →
    Cooker Event (Task × Status) × Bool
  | 0, c, _, found => (c, found)
  | _ + 1, c, none, found => (c, found)
  | turns + 1, c, some index, found =>
    if event_open <+: c.queue then
      match events.loads (slice c.queue 7 index) with
      | .error .truncated => event_loop turns c (findFrom event_close c.queue (index + 1)) found
      | .error .other => ({ c with failed := true }, found)
      | .ok e =>
        let queue := c.queue.drop (index + 8)
        event_loop turns { c with queue, received := c.received ++ [.event e] }
          (find event_close queue) true
    else (c, found)

/-- The `while` over the exit codes at the front of the queue. Here a pickle that does not
load is fatal at once. -/
def exitcode_loop : Nat → Cooker Event (Task × Status) → Option Nat → Bool →
    Cooker Event (Task × Status) × Bool
  | 0, c, _, found => (c, found)
  | _ + 1, c, none, found => (c, found)
  | turns + 1, c, some index, found =>
    if exitcode_open <+: c.queue then
      match exits.loads (slice c.queue 10 index) with
      | .error _ => ({ c with failed := true }, found)
      | .ok x =>
        let queue := c.queue.drop (index + 11)
        exitcode_loop turns { c with queue, received := c.received ++ [.exitcode x] }
          (find exitcode_close queue) true
    else (c, found)

/-- `while found and self.queue`: a turn that goes on has taken a message away. -/
def read_loop : Nat → Cooker Event (Task × Status) → Cooker Event (Task × Status)
  | 0, c => c
  | turns + 1, c =>
    if c.queue = [] then c
    else
      let (c1, found1) := event_loop events (c.queue.length + 1) c (find event_close c.queue) false
      if c1.failed then c1
      else
        let (c2, found2) :=
          exitcode_loop exits (c1.queue.length + 1) c1 (find exitcode_close c1.queue) found1
        if c2.failed ∨ found2 = false then c2 else read_loop turns c2

/-- `runQueuePipe.read`, when the pipe gives `data`. -/
def cooker_read (c : Cooker Event (Task × Status)) (data : Bytes) : Cooker Event (Task × Status) :=
  read_loop events exits (c.queue.length + data.length + 1) { c with queue := c.queue ++ data }

/-! ## The cooker takes whole messages, in order -/

def stream (msgs : List (Msg Event (Task × Status))) : Bytes := msgs.flatMap (msgBytes events exits)

/-- The cooker acted on the first messages, and its queue with the bytes that are still to
come is the stream of the others. -/
def InStep (msgs : List (Msg Event (Task × Status))) (rest : Bytes)
    (c : Cooker Event (Task × Status)) : Prop :=
  c.failed = false ∧ ∃ todo, msgs = c.received ++ todo ∧ stream events exits todo = c.queue ++ rest

/-- No whole event is at the front of the queue. -/
def NoWholeEvent (msgs : List (Msg Event (Task × Status))) (c : Cooker Event (Task × Status)) : Prop :=
  ∀ e ts, msgs = c.received ++ .event e :: ts → ¬ eventBytes events e <+: c.queue

/-- No whole exit code is at the front of the queue. -/
def NoWholeExit (msgs : List (Msg Event (Task × Status))) (c : Cooker Event (Task × Status)) : Prop :=
  ∀ x ts, msgs = c.received ++ .exitcode x :: ts → ¬ exitBytes exits x <+: c.queue

/-- The pickle of an exit code does not hold the closing tag of exit codes. -/
def ExitClean (x : Task × Status) : Prop := ¬ exitcode_close <:+: exits.dumps x

theorem event_close_marker : Marker event_close := by decide

theorem exitcode_close_marker : Marker exitcode_close := by decide

theorem event_close_after_open {x : Bytes} {i : Nat} (h : event_close <+: (event_open ++ x).drop i) :
    7 ≤ i := by
  by_contra hlt
  have h7 : i < 7 := by omega
  revert h
  interval_cases i <;> simp [event_close, event_open, ascii, List.cons_prefix_cons]

theorem stream_event {todo : List (Msg Event (Task × Status))} {q rest : Bytes}
    (hs : stream events exits todo = q ++ rest) (ho : event_open <+: q) :
    ∃ e ts, todo = .event e :: ts := by
  have hp : event_open <+: stream events exits todo := hs ▸ ho.trans (List.prefix_append _ _)
  rcases todo with _ | ⟨e | x, ts⟩
  · simp [stream, event_open, ascii] at hp
  · exact ⟨e, ts, rfl⟩
  · simp [stream, msgBytes, exitBytes, event_open, exitcode_open, ascii, List.cons_prefix_cons] at hp

theorem stream_exitcode {todo : List (Msg Event (Task × Status))} {q rest : Bytes}
    (hs : stream events exits todo = q ++ rest) (ho : exitcode_open <+: q) :
    ∃ x ts, todo = .exitcode x :: ts := by
  have hp : exitcode_open <+: stream events exits todo := hs ▸ ho.trans (List.prefix_append _ _)
  rcases todo with _ | ⟨e | x, ts⟩
  · simp [stream, exitcode_open, ascii] at hp
  · simp [stream, msgBytes, eventBytes, event_open, exitcode_open, ascii, List.cons_prefix_cons] at hp
  · exact ⟨x, ts, rfl⟩

theorem event_open_length : event_open.length = 7 := rfl

theorem event_close_length : event_close.length = 8 := rfl

theorem slice_inside {q rest d t : Bytes} {i : Nat} (hq : q ++ rest = event_open ++ (d ++ t))
    (h7 : 7 ≤ i) (hi : i < 7 + d.length) (hlen : i ≤ q.length) :
    slice q 7 i <+: d ∧ slice q 7 i ≠ d := by
  have htake : q.take i = (event_open ++ (d ++ t)).take i := by
    rw [← hq, List.take_append_of_le_length hlen]
  have ho := event_open_length
  have hslice : slice q 7 i = d.take (i - 7) := by
    rw [slice, htake, List.take_append, List.take_of_length_le (by omega), ho,
      List.drop_append_of_le_length (by omega), List.drop_of_length_le (by omega), List.nil_append,
      List.take_append_of_le_length (by omega)]
  refine ⟨hslice ▸ List.take_prefix _ _, fun h => ?_⟩
  have := congrArg List.length (hslice.symm.trans h)
  simp only [List.length_take] at this
  omega

theorem whole_of_length {q rest a b t : Bytes} (hq : q ++ rest = a ++ (b ++ t))
    (hlen : a.length + b.length ≤ q.length) : ∃ q', q = a ++ (b ++ q') ∧ q' ++ rest = t := by
  rw [← List.append_assoc] at hq
  rcases List.append_eq_append_iff.mp hq with ⟨c, hc, hrest⟩ | ⟨c, hc, ht⟩
  · have hcl := congrArg List.length hc
    simp only [List.length_append] at hcl
    obtain rfl : c = [] := List.length_eq_zero_iff.mp (by omega)
    exact ⟨[], by simpa using hc.symm, by simpa using hrest⟩
  · exact ⟨c, by simpa using hc, ht.symm⟩

theorem closing_place {d q : Bytes} {k i : Nat}
    (hi : findFrom event_close (event_open ++ (d ++ (event_close ++ q))) k = some i)
    (hk : k ≤ 7 + d.length) (hge : 7 + d.length ≤ i) : i = 7 + d.length := by
  obtain ⟨_, _, hmin⟩ := findFrom_eq_some hi
  by_contra hne
  refine hmin _ hk (by omega) ⟨q, ?_⟩
  exact (drop_append_append event_open d (event_close ++ q)).symm

theorem event_loop_spec (turns : Nat) (found : Bool) {msgs : List (Msg Event (Task × Status))}
    {rest : Bytes} {c : Cooker Event (Task × Status)} {k : Nat}
    (h : InStep events exits msgs rest c)
    (hk : ∀ e ts, msgs = c.received ++ .event e :: ts → k ≤ 7 + (events.dumps e).length)
    (hturns : c.queue.length < turns + k) (hlen : k ≤ c.queue.length) :
    ∀ r, event_loop events turns c (findFrom event_close c.queue k) found = r →
      InStep events exits msgs rest r.1 ∧ NoWholeEvent events msgs r.1 ∧
        (r = (c, found) ∨ r.1.queue.length < c.queue.length ∧ r.2 = true) := by
  rintro r rfl
  induction turns generalizing c k found with
  | zero => omega
  | succ turns ih =>
    obtain ⟨hok, todo, hmsgs, hs⟩ := id h
    rcases hi : findFrom event_close c.queue k with _ | i
    · refine ⟨h, ?_, Or.inl rfl⟩
      rintro e ts he ⟨q, hq⟩
      apply findFrom_eq_none hi (7 + (events.dumps e).length) (hk e ts he)
      refine ⟨q, ?_⟩
      rw [show c.queue = event_open ++ (events.dumps e ++ (event_close ++ q)) by
        rw [show c.queue = eventBytes events e ++ q from hq.symm]; simp [eventBytes]]
      exact (drop_append_append event_open (events.dumps e) (event_close ++ q)).symm
    obtain ⟨hki, hclose, hmin⟩ := findFrom_eq_some hi
    unfold event_loop
    by_cases hop : event_open <+: c.queue
    · simp only [hop, if_true]
      obtain ⟨e, ts, rfl⟩ := stream_event events exits hs hop
      have hframe : c.queue ++ rest =
          event_open ++ (events.dumps e ++ (event_close ++ stream events exits ts)) := by
        rw [← hs]
        simp [stream, msgBytes, eventBytes]
      have h7 : 7 ≤ i := by
        obtain ⟨x, hx⟩ := hop
        exact event_close_after_open (hx ▸ hclose)
      have hroom : i + 8 ≤ c.queue.length := by
        have := hclose.length_le
        rw [List.length_drop, event_close_length] at this
        omega
      rcases Nat.lt_or_ge i (7 + (events.dumps e).length) with hlt | hge
      · -- a closing tag inside the pickle: try the next one
        obtain ⟨hpre, hne⟩ := slice_inside hframe h7 hlt (by omega)
        rw [events.loads_prefix e _ hpre hne]
        refine ih found h (fun e' ts' he => ?_) (by omega) (by omega)
        rw [hmsgs] at he
        obtain ⟨he', _⟩ := List.cons.inj (List.append_cancel_left he)
        obtain rfl := Msg.event.inj he'
        omega
      · rw [← List.append_assoc] at hframe
        obtain ⟨q, hq, hrest⟩ := whole_of_length hframe (by
          rw [List.length_append, event_open_length, event_close_length]
          omega)
        rw [List.append_assoc] at hq
        obtain rfl := closing_place (hq ▸ hi) (hk e ts hmsgs) hge
        have hslice : slice c.queue 7 (7 + (events.dumps e).length) = events.dumps e :=
          hq ▸ slice_append event_open (events.dumps e) (event_close ++ q)
        have hdrop : c.queue.drop (7 + (events.dumps e).length + 8) = q := by
          rw [← List.drop_drop, hq]
          exact congrArg (List.drop 8) (drop_append_append event_open (events.dumps e) _)
        have hshort : c.queue.length = q.length + (7 + (events.dumps e).length) + 8 := by
          rw [hq]
          simp only [List.length_append, event_open_length, event_close_length]
          omega
        have hcursor := hk e ts hmsgs
        rw [hslice, events.loads_dumps]
        simp only [hdrop, ← findFrom_zero event_close q]
        have hnext : InStep events exits msgs rest
            { c with queue := q, received := c.received ++ [.event e] } :=
          ⟨hok, ts, by simp [hmsgs], hrest.symm⟩
        obtain ⟨h1, h2, h3⟩ := ih true (k := 0) hnext (fun _ _ _ => Nat.zero_le _)
          (by dsimp only; omega) (Nat.zero_le _)
        refine ⟨h1, h2, Or.inr ?_⟩
        rcases h3 with h3 | ⟨h3, h4⟩
        · rw [h3]
          exact ⟨by dsimp only; omega, rfl⟩
        · exact ⟨by dsimp only at h3; omega, h4⟩
    · simp only [hop, if_false]
      refine ⟨h, fun e ts he hp => hop ?_, by simp⟩
      exact (List.prefix_append event_open _).trans hp

theorem exitClean_open {x : Task × Status} (hx : ExitClean exits x) :
    ¬ exitcode_close <:+: exitcode_open ++ exits.dumps x := by
  intro h
  apply hx
  simpa [exitcode_open, exitcode_close, ascii, List.infix_cons_iff, List.cons_prefix_cons] using h

theorem exit_close_place {x : Task × Status} (hx : ExitClean exits x) (q : Bytes) :
    find exitcode_close (exitBytes exits x ++ q) = some (10 + (exits.dumps x).length) := by
  have := exitcode_close_marker.find_append q (exitClean_open exits hx)
  rwa [List.length_append, show exitcode_open.length = 10 from rfl, List.append_assoc,
    ← List.append_assoc (exits.dumps x), ← List.append_assoc exitcode_open] at this

theorem exitcode_loop_spec (turns : Nat) (found : Bool) {msgs : List (Msg Event (Task × Status))}
    {rest : Bytes} {c : Cooker Event (Task × Status)} (h : InStep events exits msgs rest c)
    (hclean : ∀ x, .exitcode x ∈ msgs → ExitClean exits x) (hturns : c.queue.length < turns) :
    ∀ r, exitcode_loop exits turns c (find exitcode_close c.queue) found = r →
      InStep events exits msgs rest r.1 ∧ NoWholeExit exits msgs r.1 ∧
        (r = (c, found) ∨ r.1.queue.length < c.queue.length ∧ r.2 = true) := by
  rintro r rfl
  induction turns generalizing c found with
  | zero => omega
  | succ turns ih =>
    obtain ⟨hok, todo, hmsgs, hs⟩ := id h
    by_cases hwhole : ∃ x ts, todo = .exitcode x :: ts ∧ exitBytes exits x <+: c.queue
    · obtain ⟨x, ts, rfl, q, hq⟩ := hwhole
      have hx : ExitClean exits x := hclean x (by simp [hmsgs])
      have hplace := exit_close_place exits hx q
      rw [hq] at hplace
      unfold exitcode_loop
      have hop : exitcode_open <+: c.queue := by
        rw [← hq, exitBytes, List.append_assoc]
        exact List.prefix_append _ _
      have hslice : slice c.queue 10 (10 + (exits.dumps x).length) = exits.dumps x := by
        rw [← hq, exitBytes, List.append_assoc, List.append_assoc]
        exact slice_append exitcode_open (exits.dumps x) (exitcode_close ++ q)
      have hdrop : c.queue.drop (10 + (exits.dumps x).length + 11) = q := by
        rw [← List.drop_drop, ← hq, exitBytes, List.append_assoc, List.append_assoc]
        exact congrArg (List.drop 11) (drop_append_append exitcode_open (exits.dumps x) _)
      have hshort : q.length + 21 ≤ c.queue.length := by
        rw [← hq]
        simp only [exitBytes, List.length_append, show exitcode_open.length = 10 from rfl,
          show exitcode_close.length = 11 from rfl]
        omega
      have hnext : InStep events exits msgs rest
          { c with queue := q, received := c.received ++ [.exitcode x] } := by
        refine ⟨hok, ts, by simp [hmsgs], ?_⟩
        rw [← hq, List.append_assoc] at hs
        exact List.append_cancel_left hs
      simp only [hplace, hop, if_true, hslice, exits.loads_dumps, hdrop]
      obtain ⟨h1, h2, h3⟩ := ih true hnext (by dsimp only; omega)
      refine ⟨h1, h2, Or.inr ?_⟩
      rcases h3 with h3 | ⟨h3, h4⟩
      · rw [h3]
        exact ⟨by dsimp only; omega, rfl⟩
      · exact ⟨by dsimp only at h3; omega, h4⟩
    · -- no whole exit code at the front: the loop ends here
      have hstop : exitcode_loop exits (turns + 1) c (find exitcode_close c.queue) found =
          (c, found) := by
        rcases hi : find exitcode_close c.queue with _ | i
        · rfl
        unfold exitcode_loop
        rw [if_neg]
        intro hop
        obtain ⟨x, ts, rfl⟩ := stream_exitcode events exits hs hop
        have hx : ExitClean exits x := hclean x (by simp [hmsgs])
        have hin : exitcode_close <:+: c.queue := by
          rw [← not_not (a := exitcode_close <:+: c.queue), ← find_eq_none_iff, hi]
          simp
        have hnot : ¬ exitBytes exits x <+: c.queue := fun hp => hwhole ⟨x, ts, rfl, hp⟩
        have hqueue : c.queue <+: exitBytes exits x ++ stream events exits ts :=
          ⟨rest, by rw [← hs]; rfl⟩
        rcases List.prefix_or_prefix_of_prefix hqueue (List.prefix_append _ _) with hp | hp
        · rw [exitBytes, ← List.append_assoc] at hp hnot
          refine exitcode_close_marker.not_infix_of_start (exitClean_open exits hx) hp ?_ hin
          exact fun he => hnot (he ▸ List.prefix_rfl)
        · exact hnot hp
      rw [hstop]
      refine ⟨h, fun x ts he hp => hwhole ⟨x, ts, ?_, hp⟩, Or.inl rfl⟩
      rw [hmsgs] at he
      exact List.append_cancel_left he

/-- No whole message is at the front of the queue. -/
def Settled (msgs : List (Msg Event (Task × Status))) (c : Cooker Event (Task × Status)) : Prop :=
  ∀ m ts, msgs = c.received ++ m :: ts → ¬ msgBytes events exits m <+: c.queue

theorem settled_of_parts {msgs : List (Msg Event (Task × Status))} {c : Cooker Event (Task × Status)}
    (h1 : NoWholeEvent events msgs c) (h2 : NoWholeExit exits msgs c) : Settled events exits msgs c := by
  intro m ts he
  cases m with
  | event e => exact h1 e ts he
  | exitcode x => exact h2 x ts he

theorem msgBytes_ne_nil (m : Msg Event (Task × Status)) : msgBytes events exits m ≠ [] := by
  cases m <;> simp [msgBytes, eventBytes, exitBytes, event_open, exitcode_open, ascii]

theorem read_loop_spec (turns : Nat) {msgs : List (Msg Event (Task × Status))} {rest : Bytes}
    {c : Cooker Event (Task × Status)} (h : InStep events exits msgs rest c)
    (hclean : ∀ x, .exitcode x ∈ msgs → ExitClean exits x) (hturns : c.queue.length < turns) :
    InStep events exits msgs rest (read_loop events exits turns c) ∧
      Settled events exits msgs (read_loop events exits turns c) := by
  induction turns generalizing c with
  | zero => omega
  | succ turns ih =>
    unfold read_loop
    by_cases hq : c.queue = []
    · rw [if_pos hq]
      refine ⟨h, fun m ts _ hp => ?_⟩
      rw [hq, List.prefix_nil] at hp
      exact msgBytes_ne_nil events exits m hp
    rw [if_neg hq, ← findFrom_zero event_close c.queue]
    obtain ⟨h1, hno1, hgo1⟩ := event_loop_spec events exits (c.queue.length + 1) false h
      (fun _ _ _ => Nat.zero_le _) (Nat.lt_succ_self _) (Nat.zero_le _) _ rfl
    generalize event_loop events (c.queue.length + 1) c (findFrom event_close c.queue 0) false = r1
      at h1 hno1 hgo1
    obtain ⟨c1, found1⟩ := r1
    obtain ⟨h2, hno2, hgo2⟩ := exitcode_loop_spec events exits (c1.queue.length + 1) found1 h1 hclean
      (Nat.lt_succ_self _) _ rfl
    dsimp only at h1 hno1 hgo1 ⊢
    rw [if_neg (by simp [h1.1])]
    generalize exitcode_loop exits (c1.queue.length + 1) c1 (find exitcode_close c1.queue) found1 = r2
      at h2 hno2 hgo2
    obtain ⟨c2, found2⟩ := r2
    dsimp only at h2 hno2 hgo2 ⊢
    cases found2 with
    | false =>
      -- neither loop took a message
      rw [if_pos (Or.inr rfl)]
      have hsame : c2 = c1 := by
        rcases hgo2 with hgo2 | ⟨_, hgo2⟩
        · exact congrArg Prod.fst hgo2
        · cases hgo2
      exact ⟨h2, settled_of_parts events exits (hsame ▸ hno1) hno2⟩
    | true =>
      rw [if_neg (by simp [h2.1])]
      apply ih h2
      rcases hgo2 with hgo2 | ⟨hgo2, _⟩ <;> rcases hgo1 with hgo1 | ⟨hgo1, _⟩
      · simp_all
      · rw [(Prod.mk.inj hgo2).1]
        omega
      · rw [(Prod.mk.inj hgo1).1] at hgo2
        omega
      · omega

theorem cooker_read_spec {msgs : List (Msg Event (Task × Status))} {rest data : Bytes}
    {c : Cooker Event (Task × Status)} (h : InStep events exits msgs (data ++ rest) c)
    (hclean : ∀ x, .exitcode x ∈ msgs → ExitClean exits x) :
    InStep events exits msgs rest (cooker_read events exits c data) ∧
      Settled events exits msgs (cooker_read events exits c data) := by
  apply read_loop_spec events exits _ _ hclean
  · dsimp only
    rw [List.length_append]
    omega
  · obtain ⟨hok, todo, hmsgs, hs⟩ := h
    exact ⟨hok, todo, hmsgs, by rw [hs, List.append_assoc]⟩

/-! ## The worker passes whole events on -/

/-- The pickle of an event holds neither tag of an event. -/
def EventClean (e : Event) : Prop :=
  ¬ event_open <:+: events.dumps e ∧ ¬ event_close <:+: events.dumps e

def eventStream (es : List Event) : Bytes := es.flatMap (eventBytes events)

theorem eventClean_open {e : Event} (he : EventClean events e) :
    ¬ event_close <:+: event_open ++ events.dumps e := by
  intro h
  apply he.2
  simpa [event_open, event_close, ascii, List.infix_cons_iff, List.cons_prefix_cons] using h

theorem eventBytes_count {e : Event} (he : EventClean events e) :
    event_open <+: eventBytes events e ∧ count event_open (eventBytes events e) = 1 := by
  refine ⟨List.prefix_append _ _, ?_⟩
  rw [eventBytes, count_append _ _ (by decide), count_of_not_infix]
  intro h
  have hm : Marker event_open := by decide
  have hhead : event_close.head? = event_open.head? := rfl
  rcases hm.infix_append (Or.inr hhead) h with h1 | h1
  · exact he.1 h1
  · revert h1
    decide

theorem relay_loop_spec (turns : Nat) {todo : List Event} {q rest : Bytes}
    (hs : eventStream events todo = q ++ rest) (hclean : ∀ e ∈ todo, EventClean events e)
    (hturns : q.length < turns) :
    ∃ done todo' q', todo = done ++ todo' ∧
      relay_loop turns q = (done.map (eventBytes events), q', true) ∧
      eventStream events todo' = q' ++ rest ∧ (rest = [] → todo' = []) := by
  induction turns generalizing todo q with
  | zero => omega
  | succ turns ih =>
    rcases todo with _ | ⟨e, es⟩
    · obtain ⟨rfl, rfl⟩ := List.append_eq_nil_iff.mp (show q ++ rest = [] from hs.symm)
      exact ⟨[], [], [], rfl, rfl, rfl, fun _ => rfl⟩
    have he := hclean e (by simp)
    have hframe : q ++ rest =
        (event_open ++ events.dumps e) ++ (event_close ++ eventStream events es) := by
      rw [← hs]
      simp [eventStream, eventBytes]
    rcases Nat.lt_or_ge q.length ((event_open ++ events.dumps e).length + event_close.length) with
      hlt | hge
    · -- the event is not whole yet
      have hnone : find event_close q = none := by
        rw [find_eq_none_iff]
        have hp : q <+: (event_open ++ events.dumps e) ++ event_close := by
          refine List.prefix_of_prefix_length_le (List.prefix_append q rest) ?_ ?_
          · rw [hframe, ← List.append_assoc]
            exact List.prefix_append _ _
          · rw [List.length_append]
            omega
        apply event_close_marker.not_infix_of_start (eventClean_open events he) hp
        intro h
        rw [h, List.length_append] at hlt
        omega
      refine ⟨[], e :: es, q, rfl, by simp [relay_loop, hnone], hs, ?_⟩
      rintro rfl
      rw [List.append_nil] at hframe
      rw [hframe] at hlt
      simp only [List.length_append] at hlt
      omega
    · obtain ⟨q1, hq, hrest⟩ := whole_of_length hframe hge
      have hfind : find event_close q = some (event_open ++ events.dumps e).length := by
        rw [hq, event_close_marker.find_append q1 (eventClean_open events he)]
      have hwhole : q = eventBytes events e ++ q1 := by simp [hq, eventBytes]
      have hlen : (event_open ++ events.dumps e).length + 8 = (eventBytes events e).length := by
        simp [eventBytes, event_close_length, Nat.add_assoc]
      obtain ⟨done, todo', q', hsplit, hloop, hstream, hdone⟩ :=
        ih hrest.symm (fun x hx => hclean x (by simp [hx])) (by
          have := congrArg List.length hq
          simp only [List.length_append, event_close_length] at this
          omega)
      refine ⟨e :: done, todo', q', by simp [hsplit], ?_, hstream, hdone⟩
      unfold relay_loop
      simp only [hfind, hlen]
      rw [hwhole, List.take_left, List.drop_left, if_pos (eventBytes_count events he), hloop]
      rfl

/-! ## The system -/

structure Child (Event Task Status : Type) where
  task : Task
  fired : List Event
  data : Bytes
  status : Option Status
  pipe : Bytes
  queue : Bytes
  reaped : Bool
  deriving DecidableEq, Repr

/-- The worker with its children, its output to the cooker, and the cooker. -/
structure Relay (Pid Event Task Status : Type) where
  children : Pid → Option (Child Event Task Status)
  worker_queue : List Bytes
  worker_queue_int : Bytes
  worker_pipe : Bytes
  cooker : Cooker Event (Task × Status)
  aborted : Bool

def Relay.init : Relay Pid Event Task Status :=
  { children := fun _ => none, worker_queue := [], worker_queue_int := [], worker_pipe := [],
    cooker := ⟨[], [], false⟩, aborted := false }

/-- `runQueueWorkerPipe.read`, when the pipe gives `n` bytes. -/
def pipe_read (c : Child Event Task Status) (n : Nat) :
    Child Event Task Status × List Bytes × Bool :=
  let queue := c.queue ++ c.pipe.take n
  let (msgs, queue', ok) := relay_loop (queue.length + 1) queue
  ({ c with queue := queue', pipe := c.pipe.drop n }, msgs, ok)

/-- `runQueueWorkerPipe.close`: reads of `ns` bytes, and then the read that gets nothing. -/
def pipe_close : List Nat → Child Event Task Status → Child Event Task Status × List Bytes × Bool
  | [], c => pipe_read c 0
  | n :: ns, c =>
    let (c1, msgs, ok) := pipe_read c n
    if ok then
      let (c2, msgs', ok') := pipe_close ns c1
      (c2, msgs ++ msgs', ok')
    else (c1, msgs, false)

inductive Action (Pid Event Task Status : Type)
  /-- The worker forks a task process. -/
  | fork (pid : Pid) (task : Task)
  /-- A child starts to write an event. -/
  | fire (pid : Pid) (e : Event)
  /-- The child writes `n` of the bytes. -/
  | write (pid : Pid) (n : Nat)
  | exit (pid : Pid) (status : Status)
  | read (pid : Pid) (n : Nat)
  /-- `process_waitpid`: the worker closes the pipe of a dead child and posts its exit code. -/
  | waitpid (pid : Pid) (ns : List Nat)
  /-- `worker_flush` takes a message from the worker queue. -/
  | get
  /-- `worker_flush` writes `n` bytes to the cooker. -/
  | flush (n : Nat)
  /-- `runQueuePipe.read` gets `n` bytes. -/
  | cooker_read (n : Nat)
  deriving DecidableEq, Repr

variable [DecidableEq Pid]

def Relay.setChild (s : Relay Pid Event Task Status) (pid : Pid) (c : Child Event Task Status) :
    Relay Pid Event Task Status :=
  { s with children := fun p => if p = pid then some c else s.children p }

/-- One step of the system. After an abort there is none. -/
def step (s : Relay Pid Event Task Status) :
    Action Pid Event Task Status → Option (Relay Pid Event Task Status)
  | .fork pid task =>
    match s.children pid with
    | none => some (s.setChild pid ⟨task, [], [], none, [], [], false⟩)
    | some _ => none
  | .fire pid e => do
    let c ← s.children pid
    if c.status.isNone ∧ c.data = [] then
      some (s.setChild pid { c with fired := c.fired ++ [e], data := eventBytes events e })
    else none
  | .write pid n => do
    let c ← s.children pid
    some (s.setChild pid { c with data := c.data.drop n, pipe := c.pipe ++ c.data.take n })
  | .exit pid status => do
    let c ← s.children pid
    if c.status.isNone ∧ c.data = [] then
      some (s.setChild pid { c with status := some status })
    else none
  | .read pid n => do
    let c ← s.children pid
    if s.aborted ∨ c.reaped then none
    else
      let (c', msgs, ok) := pipe_read c n
      some { s.setChild pid c' with worker_queue := s.worker_queue ++ msgs, aborted := !ok }
  | .waitpid pid ns => do
    let c ← s.children pid
    let status ← c.status
    if s.aborted ∨ c.reaped then none
    else
      let (c', msgs, ok) := pipe_close ns c
      if ok then
        if c'.pipe = [] then
          some { s.setChild pid { c' with reaped := true } with
            worker_queue := s.worker_queue ++ msgs ++ [exitBytes exits (c.task, status)] }
        else none
      else
        some { s.setChild pid c' with worker_queue := s.worker_queue ++ msgs, aborted := true }
  | .get =>
    match s.worker_queue with
    | [] => none
    | msg :: msgs => some { s with worker_queue := msgs, worker_queue_int := s.worker_queue_int ++ msg }
  | .flush n =>
    some { s with worker_queue_int := s.worker_queue_int.drop n
                  worker_pipe := s.worker_pipe ++ s.worker_queue_int.take n }
  | .cooker_read n =>
    if s.cooker.failed then none
    else
      some { s with worker_pipe := s.worker_pipe.drop n
                    cooker := cooker_read events exits s.cooker (s.worker_pipe.take n) }

/-- What a child has to say: its events and then its exit code. -/
def Child.messages (c : Child Event Task Status) : List (Msg Event (Task × Status)) :=
  c.fired.map .event ++ c.status.toList.map fun status => .exitcode (c.task, status)

/-- The messages of one child in a log. -/
def ofChild (pid : Pid) (log : List (Pid × Msg Event (Task × Status))) :
    List (Msg Event (Task × Status)) :=
  (log.filter fun x => x.1 = pid).map Prod.snd

/-- Nothing of the child is on its way: it is reaped and the output of the worker is read. -/
def Drained (s : Relay Pid Event Task Status) (c : Child Event Task Status) : Prop :=
  c.reaped = true ∧ s.worker_queue = [] ∧ s.worker_queue_int = [] ∧ s.worker_pipe = []

/-- Nothing aborted, and the cooker received a merge of the children's messages: of every
child the first ones, each once and in order, and all of them once the child is drained. -/
def Delivered (s : Relay Pid Event Task Status) : Prop :=
  s.aborted = false ∧ s.cooker.failed = false ∧
    ∃ log : List (Pid × Msg Event (Task × Status)), log.map Prod.snd = s.cooker.received ∧
      (∀ pid, s.children pid = none → ofChild pid log = []) ∧
      ∀ pid c, s.children pid = some c →
        ofChild pid log <+: c.messages ∧ (Drained s c → ofChild pid log = c.messages)

/-- A step that brings no tag into a pickle: no event with a tag of events in it, and no
exit code with the closing tag of exit codes in it. -/
def Clean (s : Relay Pid Event Task Status) : Action Pid Event Task Status → Prop
  | .fire _ e => EventClean events e
  | .exit pid status => ∀ c, s.children pid = some c → ExitClean exits (c.task, status)
  | _ => True

/-! ## The invariant of one child -/

/-- What the worker passed on of a child so far (`l`), and what is still in its pipe. -/
structure ChildInv (l : List (Msg Event (Task × Status))) (c : Child Event Task Status) : Prop where
  clean : ∀ e ∈ c.fired, EventClean events e
  written : c.status.isSome → c.data = []
  relayed : ∃ done todo, c.fired = done ++ todo ∧
    eventStream events todo = c.queue ++ (c.pipe ++ c.data) ∧
    (c.reaped = false → l = done.map .event) ∧ (c.reaped = true → todo = [] ∧ l = c.messages)
  reaped : c.reaped = true → c.status.isSome

theorem ChildInv.prefix_messages {l : List (Msg Event (Task × Status))} {c : Child Event Task Status}
    (h : ChildInv events l c) : l <+: c.messages ∧ (c.reaped = true → l = c.messages) := by
  obtain ⟨done, todo, hfired, _, hlive, hreaped⟩ := h.relayed
  cases hr : c.reaped with
  | true =>
    obtain ⟨_, hl⟩ := hreaped hr
    exact ⟨hl ▸ List.prefix_rfl, fun _ => hl⟩
  | false =>
    refine ⟨?_, fun h => by cases h⟩
    rw [hlive hr, Child.messages, hfired, List.map_append, List.append_assoc]
    exact List.prefix_append _ _

theorem ChildInv.fork (task : Task) :
    ChildInv events [] (⟨task, [], [], none, [], [], false⟩ : Child Event Task Status) where
  clean := by simp
  written := by simp
  relayed := ⟨[], [], rfl, rfl, fun _ => rfl, fun h => by cases h⟩
  reaped := by simp

theorem ChildInv.fire {l : List (Msg Event (Task × Status))} {c : Child Event Task Status} {e : Event}
    (h : ChildInv events l c) (hstatus : c.status.isNone) (hdata : c.data = [])
    (he : EventClean events e) :
    ChildInv events l { c with fired := c.fired ++ [e], data := eventBytes events e } where
  clean := by
    intro x hx
    rcases List.mem_append.mp hx with hx | hx
    · exact h.clean x hx
    · obtain rfl := List.mem_singleton.mp hx
      exact he
  written := fun hs => by simp_all
  relayed := by
    obtain ⟨done, todo, hfired, hs, hlive, _⟩ := h.relayed
    have hr : c.reaped = false := by
      by_contra hr
      have := h.reaped (by simpa using hr)
      simp_all
    refine ⟨done, todo ++ [e], by simp [hfired], ?_, hlive, fun h => by simp_all⟩
    simp_all [eventStream]
  reaped := h.reaped

theorem ChildInv.write {l : List (Msg Event (Task × Status))} {c : Child Event Task Status}
    (h : ChildInv events l c) (n : Nat) :
    ChildInv events l { c with data := c.data.drop n, pipe := c.pipe ++ c.data.take n } where
  clean := h.clean
  written := fun hs => by simp [h.written hs]
  relayed := by
    obtain ⟨done, todo, hfired, hs, hl⟩ := h.relayed
    exact ⟨done, todo, hfired, by simp [hs], hl⟩
  reaped := h.reaped

theorem ChildInv.exit {l : List (Msg Event (Task × Status))} {c : Child Event Task Status}
    (h : ChildInv events l c) (status : Status) (hstatus : c.status.isNone) (hdata : c.data = []) :
    ChildInv events l { c with status := some status } where
  clean := h.clean
  written := fun _ => hdata
  relayed := by
    obtain ⟨done, todo, hfired, hs, hlive, _⟩ := h.relayed
    refine ⟨done, todo, hfired, hs, hlive, fun hr => ?_⟩
    have := h.reaped hr
    simp_all
  reaped := fun _ => rfl

theorem ChildInv.read {l : List (Msg Event (Task × Status))} {c : Child Event Task Status}
    (h : ChildInv events l c) (hr : c.reaped = false) (n : Nat) :
    ∃ (c' : Child Event Task Status) (done : List Event),
      pipe_read c n = (c', done.map (eventBytes events), true) ∧
      ChildInv events (l ++ done.map .event) c' ∧ c'.reaped = false ∧
      c'.task = c.task ∧ c'.status = c.status ∧
      (c'.pipe = [] → c'.data = [] → c'.queue = [] ∧ c'.fired.map .event = l ++ done.map .event) := by
  obtain ⟨done, todo, hfired, hs, hlive, _⟩ := h.relayed
  have hs' : eventStream events todo =
      (c.queue ++ c.pipe.take n) ++ (c.pipe.drop n ++ c.data) := by
    rw [hs, List.append_assoc, ← List.append_assoc (c.pipe.take n), List.take_append_drop]
  have hclean : ∀ e ∈ todo, EventClean events e := fun e he => h.clean e (by simp [hfired, he])
  obtain ⟨done', todo', q', hsplit, hloop, hstream, hdone⟩ :=
    relay_loop_spec events ((c.queue ++ c.pipe.take n).length + 1) hs' hclean (Nat.lt_succ_self _)
  refine ⟨{ c with queue := q', pipe := c.pipe.drop n }, done', ?_, ⟨h.clean, h.written, ?_, h.reaped⟩,
    hr, rfl, rfl, ?_⟩
  · unfold pipe_read
    dsimp only
    rw [hloop]
  · refine ⟨done ++ done', todo', by simp [hfired, hsplit], hstream, fun _ => ?_, fun h => ?_⟩
    · rw [hlive hr, List.map_append]
    · simp [hr] at h
  · intro hp hd
    dsimp only at hp hd
    rw [hp, hd] at hstream hdone
    obtain rfl := hdone rfl
    refine ⟨(List.append_eq_nil_iff.mp hstream.symm).1, ?_⟩
    rw [hfired, hsplit, hlive hr]
    simp

theorem ChildInv.close {l : List (Msg Event (Task × Status))} {c : Child Event Task Status}
    (h : ChildInv events l c) (hr : c.reaped = false) (ns : List Nat) :
    ∃ (c' : Child Event Task Status) (done : List Event),
      pipe_close ns c = (c', done.map (eventBytes events), true) ∧
      ChildInv events (l ++ done.map .event) c' ∧ c'.reaped = false ∧
      c'.task = c.task ∧ c'.status = c.status ∧
      (c'.pipe = [] → c'.data = [] → c'.queue = [] ∧ c'.fired.map .event = l ++ done.map .event) := by
  induction ns generalizing c l with
  | nil => exact h.read events hr 0
  | cons n ns ih =>
    obtain ⟨c1, done1, hread, h1, hr1, htask1, hstatus1, _⟩ := h.read events hr n
    obtain ⟨c2, done2, hclose, h2, hr2, htask2, hstatus2, hall⟩ := ih h1 hr1
    refine ⟨c2, done1 ++ done2, ?_, ?_, hr2, htask2.trans htask1, hstatus2.trans hstatus1, ?_⟩
    · simp [pipe_close, hread, hclose]
    · simpa using h2
    · simpa using hall

theorem ChildInv.reap {l : List (Msg Event (Task × Status))} {c : Child Event Task Status}
    {status : Status} (h : ChildInv events l c) (hstatus : c.status = some status)
    (hpipe : c.pipe = []) (hqueue : c.queue = []) (hall : c.fired.map .event = l) :
    ChildInv events (l ++ [.exitcode (c.task, status)]) { c with reaped := true } where
  clean := h.clean
  written := h.written
  relayed := by
    have hdata := h.written (by simp [hstatus])
    refine ⟨c.fired, [], by simp, ?_, by simp, fun _ => ⟨rfl, ?_⟩⟩
    · simp [eventStream, hqueue, hpipe, hdata]
    · simp [Child.messages, hstatus, hall]
  reaped := fun _ => by simp [hstatus]

/-! ## The invariant of the system -/

/-- The log of all messages that the worker posted, each with its child: the cooker acted on
the first ones, the others are on their way, and no message is whole in the cooker's queue. -/
structure Inv (s : Relay Pid Event Task Status) (log : List (Pid × Msg Event (Task × Status))) :
    Prop where
  relaying : s.aborted = false
  inStep : InStep events exits (log.map Prod.snd)
    (s.worker_pipe ++ (s.worker_queue_int ++ s.worker_queue.flatten)) s.cooker
  settled : Settled events exits (log.map Prod.snd) s.cooker
  exits_clean : ∀ x, .exitcode x ∈ log.map Prod.snd → ExitClean exits x
  statuses_clean : ∀ pid c status, s.children pid = some c → c.status = some status →
    ExitClean exits (c.task, status)
  unknown : ∀ pid, s.children pid = none → ofChild pid log = []
  child : ∀ pid c, s.children pid = some c → ChildInv events (ofChild pid log) c

omit [DecidableEq Pid] in
theorem InStep.post {msgs : List (Msg Event (Task × Status))} {rest : Bytes}
    {c : Cooker Event (Task × Status)} (more : List (Msg Event (Task × Status))) (h : InStep events exits msgs rest c) :
    InStep events exits (msgs ++ more) (rest ++ stream events exits more) c := by
  obtain ⟨hok, todo, hmsgs, hs⟩ := h
  exact ⟨hok, todo ++ more, by simp [hmsgs], by simp_all [stream]⟩

theorem Settled.post {msgs : List (Msg Event (Task × Status))} {rest : Bytes}
    {c : Cooker Event (Task × Status)} (more : List (Msg Event (Task × Status))) (hin : InStep events exits msgs rest c)
    (h : Settled events exits msgs c) : Settled events exits (msgs ++ more) c := by
  obtain ⟨_, todo, hmsgs, hs⟩ := hin
  intro m ts he
  rw [hmsgs, List.append_assoc] at he
  have he := List.append_cancel_left he
  cases todo with
  | nil =>
    obtain ⟨hq, _⟩ := List.append_eq_nil_iff.mp (show c.queue ++ rest = [] from hs.symm)
    rw [hq, List.prefix_nil]
    exact msgBytes_ne_nil events exits m
  | cons x xs =>
    obtain ⟨rfl, _⟩ := List.cons.inj he
    exact h x xs hmsgs

theorem ofChild_append (pid : Pid) (log more : List (Pid × Msg Event (Task × Status))) :
    ofChild pid (log ++ more) = ofChild pid log ++ ofChild pid more := by
  simp [ofChild]

theorem ofChild_same (pid : Pid) (msgs : List (Msg Event (Task × Status))) :
    ofChild pid (msgs.map fun m => (pid, m)) = msgs := by
  induction msgs with
  | nil => rfl
  | cons m ms ih => simpa [ofChild] using ih

theorem ofChild_other {pid p : Pid} (h : p ≠ pid) (msgs : List (Msg Event (Task × Status))) :
    ofChild p (msgs.map fun m => (pid, m)) = [] := by
  simp [ofChild, List.filter_map, Function.comp_def, h.symm]

theorem Inv.post {s : Relay Pid Event Task Status} {log : List (Pid × Msg Event (Task × Status))}
    {pid : Pid} {c : Child Event Task Status} (msgs : List (Msg Event (Task × Status)))
    (h : Inv events exits s log) (hc : ChildInv events (ofChild pid log ++ msgs) c)
    (hexit : ∀ x, .exitcode x ∈ msgs → ExitClean exits x)
    (hstatus : ∀ status, c.status = some status → ExitClean exits (c.task, status)) :
    Inv events exits
      { s.setChild pid c with
        worker_queue := s.worker_queue ++ msgs.map (msgBytes events exits) }
      (log ++ msgs.map fun m => (pid, m)) where
  relaying := h.relaying
  inStep := by
    have := h.inStep.post events exits msgs
    simpa [Relay.setChild, stream, List.flatMap_def, Function.comp_def] using this
  settled := by
    have := Settled.post events exits msgs h.inStep h.settled
    simpa [Relay.setChild, Function.comp_def] using this
  exits_clean := by
    intro x hx
    simp only [List.map_append, List.map_map, Function.comp_def, List.map_id', List.mem_append] at hx
    rcases hx with hx | hx
    · exact h.exits_clean x hx
    · exact hexit x hx
  statuses_clean := by
    intro p c' status hp hs
    simp only [Relay.setChild] at hp
    split at hp
    · obtain rfl := Option.some.inj hp
      exact hstatus status hs
    · exact h.statuses_clean p c' status hp hs
  unknown := by
    intro p hp
    simp only [Relay.setChild] at hp
    split at hp
    · cases hp
    · rename_i hne
      rw [ofChild_append, h.unknown p hp, ofChild_other hne, List.append_nil]
  child := by
    intro p c' hp
    simp only [Relay.setChild] at hp
    split at hp
    · rename_i heq
      obtain rfl := Option.some.inj hp
      rw [heq, ofChild_append, ofChild_same]
      exact hc
    · rename_i hne
      rw [ofChild_append, ofChild_other hne, List.append_nil]
      exact h.child p c' hp

/-- The worker posted some log. -/
def Kept (s : Relay Pid Event Task Status) : Prop := ∃ log, Inv events exits s log

theorem Inv.init : Inv events exits (Relay.init : Relay Pid Event Task Status) [] where
  relaying := rfl
  inStep := ⟨rfl, [], rfl, rfl⟩
  settled := fun m ts he => by simp [Relay.init] at he
  exits_clean := by simp
  statuses_clean := fun pid c status h => by cases h
  unknown := fun _ _ => rfl
  child := fun pid c h => by cases h

theorem Inv.quiet {s : Relay Pid Event Task Status} {log : List (Pid × Msg Event (Task × Status))}
    {pid : Pid} {c : Child Event Task Status} (h : Inv events exits s log)
    (hc : ChildInv events (ofChild pid log) c)
    (hstatus : ∀ status, c.status = some status → ExitClean exits (c.task, status)) :
    Inv events exits (s.setChild pid c) log := by
  have := h.post events exits [] ((List.append_nil (ofChild pid log)).symm ▸ hc) (by simp) hstatus
  simpa [Relay.setChild] using this

theorem Inv.step {s s' : Relay Pid Event Task Status}
    {log : List (Pid × Msg Event (Task × Status))} {a : Action Pid Event Task Status}
    (h : Inv events exits s log) (hclean : Clean events exits s a)
    (hs : step events exits s a = some s') :
    ∃ more, Inv events exits s' (log ++ more) := by
  cases a with
  | fork pid task =>
    simp only [event_relay.step] at hs
    split at hs
    · rename_i hpid
      obtain rfl := Option.some.inj hs
      refine ⟨[], ?_⟩
      rw [List.append_nil]
      exact h.quiet events exits (h.unknown pid hpid ▸ ChildInv.fork events task) (by simp)
    · cases hs
  | fire pid e =>
    obtain ⟨c, hc, hs⟩ := Option.bind_eq_some_iff.mp hs
    split at hs
    · rename_i hg
      obtain rfl := Option.some.inj hs
      refine ⟨[], ?_⟩
      rw [List.append_nil]
      exact h.quiet events exits ((h.child pid c hc).fire events hg.1 hg.2 hclean)
        (h.statuses_clean pid c · hc)
    · cases hs
  | write pid n =>
    obtain ⟨c, hc, hs⟩ := Option.bind_eq_some_iff.mp hs
    obtain rfl := Option.some.inj hs
    refine ⟨[], ?_⟩
    rw [List.append_nil]
    exact h.quiet events exits ((h.child pid c hc).write events n) (h.statuses_clean pid c · hc)
  | exit pid status =>
    obtain ⟨c, hc, hs⟩ := Option.bind_eq_some_iff.mp hs
    split at hs
    · rename_i hg
      obtain rfl := Option.some.inj hs
      refine ⟨[], ?_⟩
      rw [List.append_nil]
      refine h.quiet events exits ((h.child pid c hc).exit events status hg.1 hg.2) ?_
      rintro status' ⟨⟩
      exact hclean c hc
    · cases hs
  | read pid n =>
    obtain ⟨c, hc, hs⟩ := Option.bind_eq_some_iff.mp hs
    split at hs
    · cases hs
    rename_i hg
    obtain ⟨c', done, hread, hc', _, htask, hstatus, _⟩ :=
      (h.child pid c hc).read events (by simpa using (not_or.mp hg).2) n
    simp only [hread, Bool.not_true, Option.some.injEq] at hs
    subst hs
    refine ⟨(done.map .event).map fun m => (pid, m), ?_⟩
    have := h.post events exits (done.map .event) hc' (by simp) (by
      rw [htask, hstatus]
      exact (h.statuses_clean pid c · hc))
    simpa [msgBytes, Function.comp_def, h.relaying, Relay.setChild] using this
  | waitpid pid ns =>
    obtain ⟨c, hc, hs⟩ := Option.bind_eq_some_iff.mp hs
    obtain ⟨status, hstat, hs⟩ := Option.bind_eq_some_iff.mp hs
    split at hs
    · cases hs
    rename_i hg
    have hci := h.child pid c hc
    obtain ⟨c', done, hclose, hc', _, htask, hstatus, hall⟩ :=
      hci.close events (by simpa using (not_or.mp hg).2) ns
    simp only [hclose, if_true] at hs
    split at hs
    · rename_i hpipe
      obtain rfl := Option.some.inj hs
      have hstat' : c'.status = some status := hstatus.trans hstat
      obtain ⟨hqueue, hfired⟩ := hall hpipe (hc'.written (by simp [hstat']))
      have hreap := hc'.reap events hstat' hpipe hqueue hfired
      rw [List.append_assoc] at hreap
      have hok := h.statuses_clean pid c status hc hstat
      refine ⟨(done.map Msg.event ++ [Msg.exitcode (c'.task, status)]).map fun m => (pid, m), ?_⟩
      have := h.post events exits _ hreap (by simp [htask, hok]) (by simp [hstat', htask, hok])
      simpa [msgBytes, Function.comp_def, Relay.setChild, htask] using this
    · cases hs
  | get =>
    simp only [event_relay.step] at hs
    split at hs
    · cases hs
    · rename_i msg msgs hq
      obtain rfl := Option.some.inj hs
      refine ⟨[], ?_⟩
      rw [List.append_nil]
      exact { h with inStep := by simpa [hq] using h.inStep }
  | flush n =>
    obtain rfl := Option.some.inj hs
    refine ⟨[], ?_⟩
    rw [List.append_nil]
    refine { h with inStep := ?_ }
    have : s.worker_queue_int.take n ++ (s.worker_queue_int.drop n ++ s.worker_queue.flatten) =
        s.worker_queue_int ++ s.worker_queue.flatten := by
      rw [← List.append_assoc, List.take_append_drop]
    simpa [this] using h.inStep
  | cooker_read n =>
    simp only [event_relay.step] at hs
    split at hs
    · cases hs
    · obtain rfl := Option.some.inj hs
      refine ⟨[], ?_⟩
      rw [List.append_nil]
      have hin : InStep events exits (log.map Prod.snd) (s.worker_pipe.take n ++
          (s.worker_pipe.drop n ++ (s.worker_queue_int ++ s.worker_queue.flatten))) s.cooker := by
        rw [← List.append_assoc, List.take_append_drop]
        exact h.inStep
      obtain ⟨h1, h2⟩ := cooker_read_spec events exits hin h.exits_clean
      exact { h with inStep := h1, settled := h2 }

theorem Inv.delivered {s : Relay Pid Event Task Status}
    {log : List (Pid × Msg Event (Task × Status))} (h : Inv events exits s log) : Delivered s := by
  obtain ⟨hok, todo, hmsgs, hs⟩ := h.inStep
  have hlog : (log.take s.cooker.received.length).map Prod.snd = s.cooker.received := by
    rw [List.map_take, hmsgs, List.take_left]
  have hpre : ∀ pid, ofChild pid (log.take s.cooker.received.length) <+: ofChild pid log := by
    intro pid
    refine ⟨ofChild pid (log.drop s.cooker.received.length), ?_⟩
    rw [← ofChild_append, List.take_append_drop]
  refine ⟨h.relaying, hok, log.take s.cooker.received.length, hlog, fun pid hp => ?_, fun pid c hc => ?_⟩
  · have := hpre pid
    rw [h.unknown pid hp] at this
    exact List.prefix_nil.mp this
  · obtain ⟨hl, hreaped⟩ := (h.child pid c hc).prefix_messages
    refine ⟨(hpre pid).trans hl, ?_⟩
    rintro ⟨hr, hwq, hint, hpipe⟩
    -- nothing is on its way, so the cooker acted on the whole log
    have htodo : todo = [] := by
      cases todo with
      | nil => rfl
      | cons m ts =>
        refine absurd ?_ (h.settled m ts hmsgs)
        rw [hpipe, hint, hwq] at hs
        refine ⟨stream events exits ts, ?_⟩
        simpa [stream] using hs
    rw [← hreaped hr, List.take_of_length_le]
    have hlen := congrArg List.length hmsgs
    rw [List.length_map, htodo, List.append_nil] at hlen
    exact hlen.le

/-! ## The laws -/

/-- In every run whose pickles hold no tag that a reader could take for its own, nothing
aborts, and every event and every exit code arrives once, those of a child in order and its
exit code last. -/
theorem clean_pickles_arrive_once_and_in_order {s : Relay Pid Event Task Status}
    (h : Reaches (step events exits) (Clean events exits) Relay.init s) : Delivered s := by
  have hkept : Kept events exits s := by
    refine h.invariant (I := Kept events exits) ⟨[], Inv.init events exits⟩ ?_
    rintro s a s' ⟨log, hlog⟩ hclean hs
    obtain ⟨more, hmore⟩ := hlog.step events exits hclean hs
    exact ⟨_, hmore⟩
  obtain ⟨log, hlog⟩ := hkept
  exact hlog.delivered events exits

/-- The pickle of a type with one value. -/
def Pickle.single {V : Type} (v : V) (hv : ∀ w, w = v) (bytes : Bytes) : Pickle V where
  dumps _ := bytes
  loads data := if data = bytes then .ok v else .error .truncated
  loads_dumps w := by simp [hv w]
  loads_prefix _ p _ hne := by simp [hne]

/-- What `pickle.dumps` gives for a text of fewer than 252 bytes. -/
def textPickle (text : Bytes) : Bytes :=
  [128, 4, 149, (text.length + 4).toUInt8, 0, 0, 0, 0, 0, 0, 0, 140, text.length.toUInt8] ++
    text ++ [148, 46]

def textEvent (text : Bytes) : Pickle Unit := .single () (fun _ => rfl) (textPickle text)

def exitZero : Pickle (Unit × Unit) :=
  .single ((), ()) (fun _ => rfl)
    ([128, 4, 149, 12, 0, 0, 0, 0, 0, 0, 0, 140, 6] ++ ascii "a:do_b" ++ [148, 75, 0, 134, 148, 46])

/-- A child fires an event and ends, and everything is read. The event takes `n` bytes. -/
def oneEvent (n : Nat) : List (Action Unit Unit Unit Unit) :=
  [.fork () (), .fire () (), .write () n, .read () n, .exit () (), .waitpid () [], .get, .get,
    .flush 100, .cooker_read 100]

theorem one_event_arrives : ∃ s : Relay Unit Unit Unit Unit,
    Reaches (step (textEvent (ascii "note")) exitZero) (Clean (textEvent (ascii "note")) exitZero)
      Relay.init s ∧
    s.cooker.received = [.event (), .exitcode ((), ())] ∧ Delivered s := by
  have hreceived : (runAll (step (textEvent (ascii "note")) exitZero) Relay.init (oneEvent 34)).map
      (·.cooker.received) = some [.event (), .exitcode ((), ())] := by decide
  obtain ⟨s, hs, hreceived⟩ := Option.map_eq_some_iff.mp hreceived
  have hclean : ∀ s a, Clean (textEvent (ascii "note")) exitZero (s : Relay Unit Unit Unit Unit) a := by
    intro s a
    cases a with
    | fire pid e => exact show EventClean (textEvent (ascii "note")) () by unfold EventClean; decide
    | exit pid status => exact fun _ _ => show ExitClean exitZero ((), ()) by unfold ExitClean; decide
    | _ => trivial
  have hreach := (Reaches.of_runAll hs).mono fun s a _ => hclean s a
  exact ⟨s, hreach, hreceived, clean_pickles_arrive_once_and_in_order _ _ hreach⟩

/-- The worker asserts when an event holds the text of a closing tag. -/
theorem a_closing_tag_in_an_event_stops_the_worker :
    ¬ ∀ s : Relay Unit Unit Unit Unit,
      Reaches (step (textEvent (ascii "</event>")) exitZero) anyStep Relay.init s → Delivered s := by
  intro h
  have haborted : (runAll (step (textEvent (ascii "</event>")) exitZero) Relay.init
      ((oneEvent 38).take 4)).map (·.aborted) = some true := by decide
  obtain ⟨s, hs, haborted⟩ := Option.map_eq_some_iff.mp haborted
  obtain ⟨hok, _⟩ := h s (Reaches.of_runAll hs)
  rw [haborted] at hok
  cases hok

end yocto.event_relay
