-- The batches of the hash equivalence client (`Batch` of hashserv/client.py).
import Yocto.Runs

open yocto.runs

namespace yocto.stream_batch

variable {M A : Type}

/-! ## The tasks -/

/-- Where `send` waits: in the loop over `pending`, behind so many of its messages, or in the loop
over the messages, with what a list has for it still. -/
inductive Sender (M : Type)
  | resending (i : Nat)
  | iterating (own : List M)
  | finished

/-- Where `recv` waits: for a pending message, or for a line. -/
inductive Receiver
  | waiting
  | receiving
  | finished
  deriving DecidableEq

/-- The messages. A list starts again in every loop over it, a generator does not. -/
structure Source (M : Type) where
  msgs : List M
  restarts : Bool

structure State (M A : Type) where
  done : Bool
  pending : List M
  results : List (M × A)
  sent_count : Nat
  generator : List M
  sender : Sender M
  receiver : Receiver
  lines : List M
  answers : List (M × A)
  left : List (Sender M)
  losses : Nat

def look (pending : List M) (done : Bool) : Receiver :=
  if pending.isEmpty then if done then .finished else .waiting else .receiving

def start (src : Source M) : State M A where
  done := false
  pending := []
  results := []
  sent_count := 0
  generator := src.msgs
  sender := .resending 0
  receiver := .waiting
  lines := []
  answers := []
  left := []
  losses := 0

/-- What the loop over the messages has still to send. -/
def upcoming (src : Source M) (s : State M A) (own : List M) : List M :=
  if src.restarts then own else s.generator

def take (src : Source M) (s : State M A) (m : M) (rest : List M) : State M A :=
  { s with
    pending := s.pending ++ [m]
    sent_count := s.sent_count + 1
    generator := if src.restarts then s.generator else rest }

/-- A turn of the loop over the messages, up to the next `await`. -/
def iterate (src : Source M) (s : State M A) (own : List M) : State M A :=
  match upcoming src s own with
  | [] => { s with done := true, sender := .finished }
  | m :: rest => { take src s m rest with lines := s.lines ++ [m], sender := .iterating rest }

inductive Action (A : Type)
  /-- The sender goes on. -/
  | send
  /-- The server answers the first line that it has not answered. -/
  | answer (a : A)
  /-- The receiver is told that there is something. -/
  | wake
  /-- The receiver gets a line. -/
  | receive
  /-- The connection is lost, or the receiver waits for too long, and there is a new one. The sender
  has failed too or is left behind. -/
  | lose (left_behind : Bool)
  /-- A sender that was left behind goes on, or fails. -/
  | left_go (k : Nat) (goes_on : Bool)

def reconnect (s : State M A) (done : Bool) (left : List (Sender M)) : State M A :=
  { s with
    done
    left
    sender := .resending 0
    receiver := look s.pending done
    lines := []
    answers := []
    losses := s.losses + 1 }

/-- A sender that was left behind has no connection to send on: it takes at most one message, fails,
and leaves `done` behind. -/
def left_takes (src : Source M) (s : State M A) (own : List M) : State M A :=
  match upcoming src s own with
  | [] => s
  | m :: rest => take src s m rest

def left_turn (src : Source M) (s : State M A) : Sender M → State M A
  | .resending i => if i < s.pending.length then s else left_takes src s src.msgs
  | .iterating own => left_takes src s own
  | .finished => s

def step (src : Source M) (s : State M A) : Action A → Option (State M A)
  | .send =>
    match s.sender with
    | .resending i =>
      match s.pending[i]? with
      | some m => some { s with lines := s.lines ++ [m], sender := .resending (i + 1) }
      | none => some (iterate src s src.msgs)
    | .iterating own => some (iterate src s own)
    | .finished => none
  | .answer a =>
    match s.lines with
    | m :: rest => some { s with lines := rest, answers := s.answers ++ [(m, a)] }
    | [] => none
  | .wake =>
    match s.receiver with
    | .waiting => some { s with receiver := look s.pending s.done }
    | _ => none
  | .receive =>
    match s.receiver, s.answers with
    | .receiving, x :: rest =>
      some { s with
        results := s.results ++ [x]
        pending := s.pending.tail
        answers := rest
        receiver := look s.pending.tail s.done }
    | _, _ => none
  | .lose left_behind =>
    -- the fourth loss is raised
    if 3 ≤ s.losses then none
    else match s.sender, s.receiver, left_behind with
      | .finished, .finished, _ => none
      | _, _, false => some (reconnect s true s.left)
      | .resending 0, _, true => none
      | .finished, _, true => none
      | sender, _, true => some (reconnect s s.done (s.left ++ [sender]))
  | .left_go k goes_on =>
    match s.left[k]? with
    | none => none
    | some sender =>
      let s := { s with done := true, left := s.left.eraseIdx k }
      some (if goes_on then left_turn src s sender else s)

/-- What `process` returns, when both tasks have ended with as many answers as messages. -/
def returned (s : State M A) : Option (List (M × A)) :=
  match s.sender, s.receiver with
  | .finished, .finished => if s.results.length = s.sent_count then some s.results else none
  | _, _ => none

/-! ## Answers in the place of their messages -/

/-- What no step may do: start a list again of which something has been taken; receive an answer
while a pending message is still to be sent again; take a message that the new connection will not
send. -/
def Keeps (src : Source M) (s : State M A) : Action A → Prop
  | .receive => ∀ i, s.sender = .resending i → s.pending.length ≤ i
  | .lose _ => src.restarts = false ∨ s.sent_count = 0
  | .left_go _ true => src.restarts = true ∨ s.generator = [] ∨
      ∃ i, s.sender = .resending i ∧ i ≤ s.pending.length
  | _ => True

def remaining (src : Source M) (s : State M A) : List M :=
  if src.restarts then
    match s.sender with
    | .resending _ => src.msgs
    | .iterating own => own
    | .finished => []
  else s.generator

/-- The pending messages that the connection has got. -/
def resent (s : State M A) : List M :=
  match s.sender with
  | .resending i => s.pending.take i
  | _ => s.pending

/-- The answers are those of the first messages, in order, the next ones are pending, and those that
were sent are on their way in the same order. -/
structure Aligned (src : Source M) (s : State M A) : Prop where
  msgs : s.results.map Prod.fst ++ (s.pending ++ remaining src s) = src.msgs
  count : s.sent_count = s.results.length + s.pending.length
  line : s.answers.map Prod.fst ++ s.lines = resent s
  ended : s.sender = .finished → remaining src s = []
  /-- A list is never started again. -/
  once : src.restarts = true → s.left = [] ∧ (∀ i, s.sender = .resending i → i = 0) ∧
    ∀ own, s.sender = .iterating own → 0 < s.sent_count

theorem Aligned.start (src : Source M) : Aligned src (start src : State M A) where
  msgs := by cases h : src.restarts <;> simp [stream_batch.start, remaining, h]
  count := by simp [stream_batch.start]
  line := by simp [stream_batch.start, resent]
  ended h := by simp [stream_batch.start] at h
  once _ := by simp [stream_batch.start]

variable {src : Source M} {s s' : State M A}

theorem Aligned.of_resending (h : Aligned src s) (hlist : src.restarts = true) {i : Nat}
    (hi : s.sender = .resending i) : i = 0 ∧ s.results = [] ∧ s.pending = [] := by
  have hlen := congrArg List.length h.msgs
  simp only [remaining, hlist, ↓reduceIte, hi, List.length_append, List.length_map] at hlen
  refine ⟨(h.once hlist).2.1 i hi, List.length_eq_zero_iff.mp (by omega),
    List.length_eq_zero_iff.mp (by omega)⟩

theorem Aligned.iterate {own : List M} (h : Aligned src s) (hresent : resent s = s.pending)
    (hown : upcoming src s own = remaining src s) : Aligned src (iterate src s own) := by
  have hmsgs := h.msgs
  have hline := h.line
  rw [← hown] at hmsgs
  rw [hresent] at hline
  unfold stream_batch.iterate
  cases hup : upcoming src s own with
  | nil =>
    rw [hup] at hmsgs
    have hgen : src.restarts = false → s.generator = [] := fun hr => by
      simpa [upcoming, hr] using hup
    refine ⟨?_, h.count, hline, fun _ => ?_, fun hlist => ⟨(h.once hlist).1, by simp⟩⟩
    · cases hr : src.restarts <;> simp_all [remaining]
    · cases hr : src.restarts <;> simp_all [remaining]
  | cons m rest =>
    rw [hup] at hmsgs
    refine ⟨?_, ?_, ?_, by simp, fun hlist => ⟨(h.once hlist).1, by simp [take]⟩⟩
    · cases hr : src.restarts <;> simpa [take, remaining, hr] using hmsgs
    · have := h.count
      simp only [take, List.length_append, List.length_singleton]
      omega
    · simp only [take, resent, ← List.append_assoc, hline]

theorem Aligned.left_takes {own : List M} (h : Aligned src s) (hgen : src.restarts = false)
    (hsender : s.generator = [] ∨ ∃ i, s.sender = .resending i ∧ i ≤ s.pending.length) :
    Aligned src (left_takes src s own) := by
  unfold stream_batch.left_takes
  cases hup : upcoming src s own with
  | nil => exact h
  | cons m rest =>
    have hrest : s.generator = m :: rest := by simpa [upcoming, hgen] using hup
    rcases hsender with hnil | ⟨i, hi, hle⟩
    · exact absurd (hrest.symm.trans hnil) (by simp)
    have hmsgs := h.msgs
    have hline := h.line
    refine ⟨?_, ?_, ?_, ?_, fun hlist => absurd hlist (by simp [hgen])⟩
    · simp only [remaining, hgen, Bool.false_eq_true, ↓reduceIte, hrest] at hmsgs
      simpa [take, remaining, hgen] using hmsgs
    · have := h.count
      simp only [take, List.length_append, List.length_singleton]
      omega
    · simp only [resent, hi] at hline
      simp only [take, resent, hi, hline, List.take_append_of_le_length hle]
    · simp [take, hi]

theorem Aligned.send (h : Aligned src s) (hstep : step src s (.send : Action A) = some s') :
    Aligned src s' := by
  simp only [step] at hstep
  cases hsender : s.sender with
  | finished => simp [hsender] at hstep
  | iterating own =>
    simp only [hsender, Option.some.injEq] at hstep
    rw [← hstep]
    refine h.iterate (by simp [resent, hsender]) ?_
    cases hr : src.restarts <;> simp [upcoming, remaining, hr, hsender]
  | resending i =>
    simp only [hsender] at hstep
    cases hget : s.pending[i]? with
    | none =>
      simp only [hget, Option.some.injEq] at hstep
      rw [← hstep]
      refine h.iterate ?_ ?_
      · simpa [resent, hsender] using hget
      · cases hr : src.restarts <;> simp [upcoming, remaining, hr, hsender]
    | some m =>
      simp only [hget, Option.some.injEq] at hstep
      have hgen : src.restarts = false := by
        by_contra hlist
        have := (h.of_resending (by simpa using hlist) hsender).2.2
        simp [this] at hget
      have hline := h.line
      simp only [resent, hsender] at hline
      rw [← hstep]
      refine ⟨?_, h.count, ?_, by simp, fun hlist => absurd hlist (by simp [hgen])⟩
      · simpa [remaining, hgen] using h.msgs
      · simp only [resent, List.take_add_one, hget, ← List.append_assoc, hline, Option.toList]

theorem Aligned.receive (h : Aligned src s) (hok : Keeps src s (.receive : Action A))
    (hstep : step src s (.receive : Action A) = some s') : Aligned src s' := by
  simp only [step] at hstep
  split at hstep
  · rename_i x rest _ hanswers
    have hall : resent s = s.pending := by
      unfold resent
      split
      · rename_i i hi
        exact List.take_of_length_le (hok i hi)
      · rfl
    have hline := h.line
    rw [hall, hanswers, List.map_cons, List.cons_append] at hline
    have hmsgs := h.msgs
    have hcount := h.count
    rw [← hline] at hmsgs hcount
    rw [← Option.some.inj hstep]
    refine ⟨?_, ?_, ?_, fun hend => by simpa [remaining] using h.ended hend, fun hlist => h.once hlist⟩
    · simpa [remaining, ← hline] using hmsgs
    · simp only [List.length_append, List.length_cons, List.length_nil, ← hline,
        List.tail_cons] at hcount ⊢
      omega
    · have hrest : resent { s with
          results := s.results ++ [x]
          pending := s.pending.tail
          answers := rest
          receiver := look s.pending.tail s.done } = s.pending.tail := by
        unfold resent
        split
        · rename_i i hi
          have := hok i hi
          exact List.take_of_length_le (by simp; omega)
        · rfl
      rw [hrest, ← hline, List.tail_cons]
  · exact absurd hstep (by simp)

theorem Aligned.reconnect (h : Aligned src s) (hok : src.restarts = false ∨ s.sent_count = 0)
    (done : Bool) {left : List (Sender M)} (hleft : src.restarts = true → left = []) :
    Aligned src (reconnect s done left) := by
  have hmsgs := h.msgs
  have hcount := h.count
  refine ⟨?_, h.count, by simp [stream_batch.reconnect, resent], by simp [stream_batch.reconnect],
    fun hlist => ⟨hleft hlist, by simp [stream_batch.reconnect], by simp [stream_batch.reconnect]⟩⟩
  rcases hok with hgen | hzero
  · simpa [stream_batch.reconnect, remaining, hgen] using hmsgs
  · have hresults := List.length_eq_zero_iff.mp (by omega : s.results.length = 0)
    have hpending := List.length_eq_zero_iff.mp (by omega : s.pending.length = 0)
    simp only [hresults, hpending, List.map_nil, List.nil_append] at hmsgs
    cases hr : src.restarts
    · simpa [stream_batch.reconnect, remaining, hr, hresults, hpending] using hmsgs
    · simp [stream_batch.reconnect, remaining, hr, hresults, hpending]

theorem Aligned.lose (h : Aligned src s) {left_behind : Bool}
    (hok : src.restarts = false ∨ s.sent_count = 0)
    (hstep : step src s (.lose left_behind : Action A) = some s') : Aligned src s' := by
  simp only [step] at hstep
  split_ifs at hstep
  split at hstep
  · exact absurd hstep (by simp)
  · rw [← Option.some.inj hstep]
    exact h.reconnect hok true fun hlist => (h.once hlist).1
  · exact absurd hstep (by simp)
  · exact absurd hstep (by simp)
  · rename_i hresending hfinished _
    rw [← Option.some.inj hstep]
    refine h.reconnect hok s.done fun hlist => ?_
    have hzero : s.sent_count = 0 := by simpa [hlist] using hok
    obtain ⟨-, hi, hown⟩ := h.once hlist
    cases hsender : s.sender with
    | finished => exact absurd hsender hfinished
    | iterating own =>
      have := hown own hsender
      omega
    | resending i =>
      rw [hi i hsender] at hsender
      exact absurd hsender hresending

theorem Aligned.step (h : Aligned src s) {a : Action A} (hok : Keeps src s a)
    (hstep : step src s a = some s') : Aligned src s' := by
  cases a with
  | send => exact h.send hstep
  | receive => exact h.receive hok hstep
  | lose left_behind => exact h.lose hok hstep
  | answer a =>
    simp only [stream_batch.step] at hstep
    split at hstep
    · rename_i m rest hlines
      have hline := h.line
      rw [hlines] at hline
      rw [← Option.some.inj hstep]
      refine ⟨h.msgs, h.count, ?_, h.ended, h.once⟩
      simpa [resent] using hline
    · exact absurd hstep (by simp)
  | wake =>
    simp only [stream_batch.step] at hstep
    split at hstep
    · rw [← Option.some.inj hstep]
      exact ⟨h.msgs, h.count, h.line, h.ended, h.once⟩
    · exact absurd hstep (by simp)
  | left_go k goes_on =>
    simp only [stream_batch.step] at hstep
    split at hstep
    · exact absurd hstep (by simp)
    · rename_i sender hget
      have hgen : src.restarts = false := by
        by_contra hlist
        have := (h.once (by simpa using hlist)).1
        simp [this] at hget
      have hdone : Aligned src { s with done := true, left := s.left.eraseIdx k } :=
        ⟨h.msgs, h.count, h.line, h.ended, fun hlist => absurd hlist (by simp [hgen])⟩
      rw [← Option.some.inj hstep]
      cases goes_on with
      | false => exact hdone
      | true =>
        have hsender : s.generator = [] ∨ ∃ i, s.sender = .resending i ∧ i ≤ s.pending.length := by
          simpa [Keeps, hgen] using hok
        simp only [↓reduceIte]
        cases sender with
        | finished => exact hdone
        | iterating own => exact hdone.left_takes hgen hsender
        | resending i =>
          simp only [left_turn]
          split
          · exact hdone
          · exact hdone.left_takes hgen hsender

/-- In every run whose steps all keep to `Keeps`, a batch that returns has one entry for each message,
in order, and each is what the server answered to this message. -/
theorem results_match_messages (src : Source M) {s : State M A}
    (h : Reaches (step src) (Keeps src) (start src) s) {results : List (M × A)}
    (hreturned : returned s = some results) : results.map Prod.fst = src.msgs := by
  have haligned : Aligned src s :=
    h.invariant (.start src) fun s a s' halign hok hstep => halign.step hok hstep
  unfold returned at hreturned
  split at hreturned
  · rename_i hsender _
    split_ifs at hreturned with hlen
    obtain rfl := Option.some.inj hreturned
    have hcount := haligned.count
    have hpending := List.length_eq_zero_iff.mp (by omega : s.pending.length = 0)
    have hmsgs := haligned.msgs
    rwa [hpending, haligned.ended hsender, List.append_nil, List.append_nil] at hmsgs
  · exact absurd hreturned (by simp)

/-! ## Answers in the place of other messages -/

def listOfTwo : Source Nat := ⟨[1, 2], true⟩

/-- The connection is lost with one answer received. Then the pending message is sent again, and the
list from its beginning. -/
def startedAgain : List (Action Nat) :=
  [.send, .wake, .answer 10, .receive, .send, .wake, .lose false, .send, .send, .send, .send,
    .answer 20, .answer 10, .answer 20, .receive, .receive, .receive]

def generatorOfThree : Source Nat := ⟨[1, 2, 3], false⟩

/-- The answer to the first of three pending messages comes while these are sent again: the loop
over `pending` goes past the second. -/
def skipped : List (Action Nat) :=
  [.send, .send, .send, .wake, .lose false, .send, .answer 10, .receive, .send, .send,
    .answer 30, .receive, .lose false, .send, .send, .answer 30, .receive]

/-- A list that is started again has two answers for its messages, and a generator can have the
answer to a message in the place of another. -/
theorem results_do_not_match :
    (∃ (s : State Nat Nat) (results : List (Nat × Nat)),
      Reaches (step listOfTwo) anyStep (start listOfTwo) s ∧
      returned s = some results ∧ results.map Prod.fst ≠ listOfTwo.msgs) ∧
    ∃ (s : State Nat Nat) (results : List (Nat × Nat)),
      Reaches (step generatorOfThree) anyStep (start generatorOfThree) s ∧
      returned s = some results ∧ results.map Prod.fst ≠ generatorOfThree.msgs := by
  exact ⟨⟨(runAll (step listOfTwo) (start listOfTwo) startedAgain).get (by decide),
      [(1, 10), (2, 20), (1, 10), (2, 20)], .of_isSome _, by decide, by decide⟩,
    ⟨(runAll (step generatorOfThree) (start generatorOfThree) skipped).get (by decide),
      [(1, 10), (3, 30), (3, 30)], .of_isSome _, by decide, by decide⟩⟩

instance (src : Source M) (s : State M A) (a : Action A) : Decidable (Keeps src s a) :=
  match a with
  | .receive =>
    match h : s.sender with
    | .resending i => decidable_of_iff (s.pending.length ≤ i) (by simp [Keeps, h])
    | .iterating _ => isTrue (by simp [Keeps, h])
    | .finished => isTrue (by simp [Keeps, h])
  | .lose _ => inferInstanceAs (Decidable (src.restarts = false ∨ s.sent_count = 0))
  | .left_go _ true =>
    match h : s.sender with
    | .resending i => decidable_of_iff
        (src.restarts = true ∨ s.generator.isEmpty = true ∨ i ≤ s.pending.length) (by simp [Keeps, h])
    | .iterating _ => decidable_of_iff
        (src.restarts = true ∨ s.generator.isEmpty = true) (by simp [Keeps, h])
    | .finished => decidable_of_iff
        (src.restarts = true ∨ s.generator.isEmpty = true) (by simp [Keeps, h])
  | .left_go _ false => isTrue trivial
  | .send => isTrue trivial
  | .answer _ => isTrue trivial
  | .wake => isTrue trivial

/-- The connection is lost with two messages pending, and both are sent again before the first answer
comes. -/
def recovered : List (Action Nat) :=
  [.send, .send, .wake, .lose false, .send, .send, .send, .answer 10, .answer 20, .receive, .send,
    .answer 30, .receive, .receive]

theorem a_batch_recovers : ∃ s : State Nat Nat,
    Reaches (step generatorOfThree) (Keeps generatorOfThree) (start generatorOfThree) s ∧
      returned s = some [(1, 10), (2, 20), (3, 30)] ∧
      [(1, 10), (2, 20), (3, 30)].map Prod.fst = generatorOfThree.msgs := by
  have hreturned : returned ((runOk (step generatorOfThree) (Keeps generatorOfThree)
      (start generatorOfThree) recovered).get (by decide)) = some [(1, 10), (2, 20), (3, 30)] := by
    decide
  exact ⟨(runOk (step generatorOfThree) (Keeps generatorOfThree) (start generatorOfThree)
      recovered).get (by decide), .of_runOk (Option.some_get _).symm, hreturned,
    results_match_messages generatorOfThree (.of_runOk (Option.some_get _).symm) hreturned⟩

end yocto.stream_batch
