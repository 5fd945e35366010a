-- The framing from the cooker to the worker: `RunQueue.send_pickled_data` writes a message,
-- and each turn of `BitbakeWorker.serve` hands the messages at the front of its queue to their
-- handlers.
import Yocto.ListSearch

open yocto.list_search

namespace yocto.worker_framing

/-! ## The messages -/

/-- The eight names that the worker serves. -/
inductive Item
  | cookerconfig | extraconfigdata | workerdata | newtaskhashes
  | runtask | finishnow | ping | quit
  deriving DecidableEq, Repr

def Item.name : Item → Bytes
  | .cookerconfig => ascii "cookerconfig"
  | .extraconfigdata => ascii "extraconfigdata"
  | .workerdata => ascii "workerdata"
  | .newtaskhashes => ascii "newtaskhashes"
  | .runtask => ascii "runtask"
  | .finishnow => ascii "finishnow"
  | .ping => ascii "ping"
  | .quit => ascii "quit"

def opening_tag (item : Item) : Bytes := ascii "<" ++ item.name ++ ascii ">"

def closing_tag (item : Item) : Bytes := ascii "</" ++ item.name ++ ascii ">"

/-- `n.to_bytes(4, 'big')`: from 2^32 on it raises `OverflowError`. -/
def to_bytes (n : Nat) : Option Bytes :=
  if n < 2 ^ 32 then
    some [(n / 2 ^ 24 % 256).toUInt8, (n / 2 ^ 16 % 256).toUInt8, (n / 2 ^ 8 % 256).toUInt8,
      (n % 256).toUInt8]
  else none

def from_bytes (header : Bytes) : Nat := header.foldl (fun acc b => acc * 256 + b.toNat) 0

/-- The bytes that `send_pickled_data` writes, where `pickled_data` is what
`pickle.dumps` made of the data. -/
def send_pickled_data (pickled_data : Bytes) (name : Item) : Option Bytes := do
  let header ← to_bytes pickled_data.length
  return opening_tag name ++ header ++ pickled_data ++ closing_tag name

/-- The byte stream of a list of messages, sent one after the other. -/
def sendAll : List (Item × Bytes) → Option Bytes
  | [] => some []
  | m :: ms => do
    let msg ← send_pickled_data m.2 m.1
    let rest ← sendAll ms
    return msg ++ rest

/-! ## The worker -/

/-- The part of `BitbakeWorker` that frames: the queue, and the calls of the handlers so far. -/
structure Worker where
  queue : Bytes
  calls : List (Item × Bytes)
  deriving DecidableEq, Repr

def handle_item (w : Worker) (item : Item) : Worker :=
  if ¬ opening_tag item <+: w.queue then w
  else
    let tag_len := (opening_tag item).length
    if w.queue.length < tag_len + 4 then w
    else
      let header := slice w.queue tag_len (tag_len + 4)
      let payload_len := from_bytes header
      -- the four bytes of the header are not counted here
      if w.queue.length < tag_len * 2 + 1 + payload_len then w
      else
        match find (closing_tag item) w.queue with
        | none => w
        | some index =>
          { queue := w.queue.drop (index + 2 + item.name.length + 1)
            calls := w.calls ++ [(item, slice w.queue (tag_len + 4) index)] }

/-- The order of the `handle_item` calls in `serve`. -/
def served : List Item :=
  [.cookerconfig, .extraconfigdata, .workerdata, .newtaskhashes, .runtask, .finishnow, .ping, .quit]

/-- One turn of the loop of `serve` after a read of `r`. A turn with no data to read has
`r = []`. -/
def serve_turn (w : Worker) (r : Bytes) : Worker :=
  let w := { w with queue := w.queue ++ r }
  if w.queue.length = 0 then w else served.foldl handle_item w

def serve (reads : List Bytes) : Worker := reads.foldl serve_turn ⟨[], []⟩

/-- Every payload comes to its own handler, whole and in order. -/
def Delivered (msgs : List (Item × Bytes)) : Prop :=
  ∃ stream, sendAll msgs = some stream ∧
    (∀ reads : List Bytes, reads.flatten <+: stream → (serve reads).calls <+: msgs) ∧
    ∀ reads : List Bytes, reads.flatten = stream →
      ∃ n, (serve (reads ++ List.replicate n [])).calls = msgs

/-- The payload has a length that the header holds, and the closing tag of the message
stands neither in its header nor in its payload. -/
def Fits (m : Item × Bytes) : Prop :=
  ∃ header, to_bytes m.2.length = some header ∧ ¬ closing_tag m.1 <:+: header ++ m.2

/-! ## The tags and the header -/

theorem closing_tag_marker (item : Item) : Marker (closing_tag item) := by
  cases item <;> decide

theorem closing_tag_length (item : Item) :
    (closing_tag item).length = (opening_tag item).length + 1 := by
  cases item <;> decide

theorem opening_tag_length_le (item : Item) : 6 ≤ (opening_tag item).length := by
  cases item <;> decide

theorem name_length (item : Item) : 2 + item.name.length + 1 = (closing_tag item).length := by
  cases item <;> decide

theorem opening_tag_starts_stream {i j : Item} (h : opening_tag i <+: opening_tag j) : i = j := by
  revert h
  cases i <;> cases j <;> decide

theorem closing_infix_opening (item : Item) (b : Bytes) :
    closing_tag item <:+: opening_tag item ++ b ↔ closing_tag item <:+: b := by
  cases item <;>
    simp [closing_tag, opening_tag, Item.name, ascii, List.infix_cons_iff, List.cons_prefix_cons]

theorem to_bytes_spec {n : Nat} {header : Bytes} (h : to_bytes n = some header) :
    header.length = 4 ∧ from_bytes header = n := by
  unfold to_bytes at h
  split at h
  · simp only [Option.some.injEq] at h
    subst h
    refine ⟨rfl, ?_⟩
    simp [from_bytes]
    omega
  · cases h

/-! ## One call of `handle_item` -/

/-- The bytes of one message up to its closing tag. -/
def opened (m : Item × Bytes) (header : Bytes) : Bytes := opening_tag m.1 ++ (header ++ m.2)

theorem sendAll_cons {m : Item × Bytes} {ms : List (Item × Bytes)} {s : Bytes}
    (h : sendAll (m :: ms) = some s) :
    ∃ header tail, to_bytes m.2.length = some header ∧ sendAll ms = some tail ∧
      s = opened m header ++ closing_tag m.1 ++ tail := by
  simp only [sendAll, send_pickled_data, bind, Option.bind_eq_some_iff, pure, Option.some.injEq] at h
  obtain ⟨_, ⟨header, hh, rfl⟩, tail, ht, rfl⟩ := h
  exact ⟨header, tail, hh, ht, by simp [opened]⟩

theorem handle_item_other {w : Worker} {m : Item × Bytes} {item : Item} {rest tail : Bytes}
    (hs : w.queue ++ rest = opening_tag m.1 ++ tail) (hi : item ≠ m.1) : handle_item w item = w := by
  unfold handle_item
  rw [if_pos]
  intro hp
  have h1 : opening_tag item <+: opening_tag m.1 ++ tail := hs ▸ hp.trans (List.prefix_append _ _)
  rcases List.prefix_or_prefix_of_prefix h1 (List.prefix_append _ _) with h2 | h2
  · exact hi (opening_tag_starts_stream h2)
  · exact hi (opening_tag_starts_stream h2).symm

theorem handle_item_waits {w : Worker} {item : Item} (h : ¬ closing_tag item <:+: w.queue) :
    handle_item w item = w := by
  unfold handle_item
  simp only [(find_eq_none_iff _ _).mpr h, ite_self]

theorem handle_item_whole {w : Worker} {m : Item × Bytes} {header tail : Bytes} {index : Nat}
    (hh : to_bytes m.2.length = some header)
    (hq : w.queue = opened m header ++ closing_tag m.1 ++ tail)
    (hf : find (closing_tag m.1) w.queue = some index) :
    handle_item w m.1 =
      { queue := w.queue.drop (index + (closing_tag m.1).length)
        calls := w.calls ++ [(m.1, slice w.queue ((opening_tag m.1).length + 4) index)] } := by
  obtain ⟨h4, hn⟩ := to_bytes_spec hh
  have hlen := closing_tag_length m.1
  have hheader : slice w.queue (opening_tag m.1).length ((opening_tag m.1).length + 4) = header := by
    rw [hq, ← h4]
    simp only [opened, List.append_assoc, slice_append]
  have hqlen : w.queue.length = (opening_tag m.1).length +
      (4 + m.2.length) + (closing_tag m.1).length + tail.length := by
    simp [hq, opened, h4, Nat.add_assoc]
  unfold handle_item
  rw [if_neg (by simp [hq, opened]), if_neg (by omega)]
  simp only [hheader, hn]
  rw [if_neg (by omega), hf]
  simp only [Nat.add_assoc, ← name_length]

theorem handle_item_fits {w : Worker} {m : Item × Bytes} {rest header tail : Bytes}
    (hh : to_bytes m.2.length = some header) (hfit : ¬ closing_tag m.1 <:+: header ++ m.2)
    (hs : w.queue ++ rest = opened m header ++ closing_tag m.1 ++ tail) :
    (handle_item w m.1 = w ∧ rest ≠ []) ∨
      ∃ q, handle_item w m.1 = { queue := q, calls := w.calls ++ [m] } ∧ q ++ rest = tail := by
  have hclear : ¬ closing_tag m.1 <:+: opened m header := by
    rwa [opened, closing_infix_opening]
  have hwhole : ∀ q, w.queue = opened m header ++ closing_tag m.1 ++ q →
      handle_item w m.1 = { queue := q, calls := w.calls ++ [m] } := by
    intro q hq
    have hf : find (closing_tag m.1) w.queue = some (opened m header).length := by
      rw [hq, List.append_assoc, (closing_tag_marker m.1).find_append _ hclear]
    have hpay : slice w.queue ((opening_tag m.1).length + 4) (opened m header).length = m.2 := by
      have := slice_append (opening_tag m.1 ++ header) m.2 (closing_tag m.1 ++ q)
      simpa [hq, opened, (to_bytes_spec hh).1, Nat.add_assoc] using this
    rw [handle_item_whole hh hq hf, hpay, hq, ← List.length_append, List.drop_left]
  rcases List.append_eq_append_iff.mp hs with ⟨a, ha, hrest⟩ | ⟨q, hq, htail⟩
  · rcases eq_or_ne a [] with rfl | hne
    · right
      refine ⟨[], hwhole [] ?_, by simpa using hrest⟩
      simpa using ha.symm
    · -- the queue ends before the message does
      left
      refine ⟨handle_item_waits ?_, by simp [hrest, hne]⟩
      apply (closing_tag_marker m.1).not_infix_of_start hclear ⟨a, ha.symm⟩
      intro h
      rw [h] at ha
      exact hne (by simpa using ha)
  · exact Or.inr ⟨q, hwhole q hq, htail.symm⟩

theorem handle_item_calls (w : Worker) (item : Item) :
    ∃ more, (handle_item w item).calls = w.calls ++ more := by
  have hsame : ∃ more, w.calls = w.calls ++ more := ⟨[], by simp⟩
  unfold handle_item
  split
  · exact hsame
  · dsimp only
    split
    · exact hsame
    · split
      · exact hsame
      · split
        · exact hsame
        · exact ⟨_, rfl⟩

theorem handle_item_front {w : Worker} {m : Item × Bytes} {ms : List (Item × Bytes)} {rest : Bytes}
    (item : Item) (hm : Fits m) (hs : sendAll (m :: ms) = some (w.queue ++ rest)) :
    (handle_item w item = w ∧ (item = m.1 → rest ≠ [])) ∨
      ∃ q, handle_item w item = { queue := q, calls := w.calls ++ [m] } ∧
        sendAll ms = some (q ++ rest) := by
  obtain ⟨header, tail, hh, ht, hs⟩ := sendAll_cons hs
  obtain ⟨header', hh', hfit⟩ := hm
  obtain rfl : header = header' := Option.some.inj (hh.symm.trans hh')
  by_cases hi : item = m.1
  · subst hi
    rcases handle_item_fits hh hfit hs with ⟨hsame, hrest⟩ | ⟨q, hstep, hq⟩
    · exact Or.inl ⟨hsame, fun _ => hrest⟩
    · exact Or.inr ⟨q, hstep, by rw [ht, hq]⟩
  · rw [opened, List.append_assoc, List.append_assoc] at hs
    exact Or.inl ⟨handle_item_other hs hi, fun h => absurd h hi⟩

/-! ## A run of messages that fit -/

/-- The calls are the first messages, and the queue with the bytes that are still to be
read is the stream of the others, of which there are at most `k`. -/
def InStep (msgs : List (Item × Bytes)) (rest : Bytes) (k : Nat) (w : Worker) : Prop :=
  ∃ todo, msgs = w.calls ++ todo ∧ sendAll todo = some (w.queue ++ rest) ∧ todo.length ≤ k

theorem foldl_inStep {msgs : List (Item × Bytes)} {rest : Bytes} {k : Nat} (items : List Item)
    {w : Worker} (hfits : ∀ m ∈ msgs, Fits m) (h : InStep msgs rest k w) :
    InStep msgs rest k (items.foldl handle_item w) := by
  induction items generalizing w with
  | nil => exact h
  | cons item items ih =>
    apply ih
    obtain ⟨todo, hmsgs, hs, hk⟩ := h
    cases todo with
    | nil =>
      have hq : w.queue = [] := by
        simp only [sendAll, Option.some.injEq] at hs
        exact (List.append_eq_nil_iff.mp hs.symm).1
      rw [handle_item_waits (by rw [hq, List.infix_nil]; exact (closing_tag_marker item).ne_nil)]
      exact ⟨[], hmsgs, hs, hk⟩
    | cons m ms =>
      rcases handle_item_front item (hfits m (by simp [hmsgs])) hs with ⟨hsame, _⟩ | ⟨q, hstep, ht⟩
      · rw [hsame]
        exact ⟨m :: ms, hmsgs, hs, hk⟩
      · rw [hstep]
        exact ⟨ms, by simp [hmsgs], ht, by simp only [List.length_cons] at hk; omega⟩

theorem foldl_inStep_pred {msgs : List (Item × Bytes)} {k : Nat} (items : List Item) {w : Worker}
    (hfits : ∀ m ∈ msgs, Fits m) (h : InStep msgs [] (k + 1) w)
    (hfirst : ∀ m ms, msgs = w.calls ++ m :: ms → m.1 ∈ items) :
    InStep msgs [] k (items.foldl handle_item w) := by
  obtain ⟨todo, hmsgs, hs, hk⟩ := h
  cases todo with
  | nil => exact foldl_inStep items hfits ⟨[], hmsgs, hs, Nat.zero_le k⟩
  | cons m ms =>
    have hin := hfirst m ms hmsgs
    induction items with
    | nil => cases hin
    | cons item items ih =>
      rcases handle_item_front item (hfits m (by simp [hmsgs])) hs with ⟨hsame, hrest⟩ | ⟨q, hstep, ht⟩
      · have hne : item ≠ m.1 := fun h => hrest h rfl
        have htail : m.1 ∈ items := (List.mem_cons.mp hin).resolve_left hne.symm
        rw [List.foldl_cons, hsame]
        refine ih (fun m' ms' he => ?_) htail
        rw [hmsgs] at he
        obtain ⟨rfl, _⟩ := List.cons.inj (List.append_cancel_left he)
        exact htail
      · rw [List.foldl_cons, hstep]
        refine foldl_inStep items hfits ⟨ms, by simp [hmsgs], ht, ?_⟩
        simp only [List.length_cons] at hk
        omega

theorem serve_turn_inStep {msgs : List (Item × Bytes)} {r rest : Bytes} {k : Nat} {w : Worker}
    (hfits : ∀ m ∈ msgs, Fits m) (h : InStep msgs (r ++ rest) k w) :
    InStep msgs rest k (serve_turn w r) := by
  obtain ⟨todo, hmsgs, hs, hk⟩ := h
  have hread : InStep msgs rest k { w with queue := w.queue ++ r } :=
    ⟨todo, hmsgs, by rw [List.append_assoc]; exact hs, hk⟩
  unfold serve_turn
  dsimp only
  split
  · exact hread
  · exact foldl_inStep served hfits hread

theorem serve_turn_inStep_pred {msgs : List (Item × Bytes)} {k : Nat} {w : Worker}
    (hfits : ∀ m ∈ msgs, Fits m) (h : InStep msgs [] (k + 1) w) :
    InStep msgs [] k (serve_turn w []) := by
  unfold serve_turn
  simp only [List.append_nil]
  split
  · rename_i hq
    obtain ⟨todo, hmsgs, hs, _⟩ := h
    cases todo with
    | nil => exact ⟨[], hmsgs, hs, Nat.zero_le k⟩
    | cons m ms =>
      obtain ⟨header, tail, _, _, hs⟩ := sendAll_cons hs
      have := congrArg List.length hs
      have := closing_tag_length m.1
      simp only [List.append_nil, List.length_append] at *
      omega
  · refine foldl_inStep_pred served hfits h fun m _ _ => ?_
    cases m.1 <;> decide

theorem serve_inStep {msgs : List (Item × Bytes)} {stream : Bytes} (reads : List Bytes) {rest : Bytes}
    (hfits : ∀ m ∈ msgs, Fits m) (hs : sendAll msgs = some stream)
    (hread : reads.flatten ++ rest = stream) : InStep msgs rest msgs.length (serve reads) := by
  induction reads using List.reverseRecOn generalizing rest with
  | nil =>
    simp only [List.flatten_nil, List.nil_append] at hread
    exact ⟨msgs, rfl, by simp [hs, hread, serve], Nat.le_refl _⟩
  | append_singleton reads r ih =>
    simp only [List.flatten_append, List.flatten_singleton, List.append_assoc] at hread
    rw [serve, List.foldl_append]
    exact serve_turn_inStep hfits (ih hread)

theorem serve_turns_inStep {msgs : List (Item × Bytes)} {w : Worker} (n : Nat)
    (hfits : ∀ m ∈ msgs, Fits m) (h : InStep msgs [] n w) :
    InStep msgs [] 0 ((List.replicate n []).foldl serve_turn w) := by
  induction n generalizing w with
  | zero => exact h
  | succ n ih => exact ih (serve_turn_inStep_pred hfits h)

/-! ## A run with a message that does not fit -/

/-- The worker has not reached message `m` yet, or it gave the handler of `m` something
else than the payload of `m`. -/
def Cut (good : List (Item × Bytes)) (m : Item × Bytes) (w : Worker) : Prop :=
  (∃ todo later, good = w.calls ++ todo ∧ sendAll (todo ++ m :: later) = some w.queue) ∨
    ∃ data after, w.calls = good ++ (m.1, data) :: after ∧ data ≠ m.2

theorem handle_item_cut {w : Worker} {m : Item × Bytes} {header tail : Bytes}
    (hh : to_bytes m.2.length = some header) (hin : closing_tag m.1 <:+: header ++ m.2)
    (hq : w.queue = opened m header ++ closing_tag m.1 ++ tail) :
    ∃ q data, handle_item w m.1 = { queue := q, calls := w.calls ++ [(m.1, data)] } ∧
      data ≠ m.2 := by
  have hin' : closing_tag m.1 <:+: opened m header := by rwa [opened, closing_infix_opening]
  obtain ⟨index, hf, hle⟩ := find_append_le (closing_tag m.1 ++ tail) hin'
  rw [← List.append_assoc, ← hq] at hf
  refine ⟨_, _, handle_item_whole hh hq hf, fun h => ?_⟩
  have hlen := congrArg List.length h
  have hslice := length_slice_le w.queue ((opening_tag m.1).length + 4) index
  have htag := closing_tag_length m.1
  have htag' := opening_tag_length_le m.1
  have hroom := hin.length_le
  simp only [opened, List.length_append, (to_bytes_spec hh).1] at hle hroom
  omega

theorem handle_item_keeps_cut {good : List (Item × Bytes)} {m : Item × Bytes} {header : Bytes}
    {w : Worker} (item : Item) (hgood : ∀ x ∈ good, Fits x) (hh : to_bytes m.2.length = some header)
    (hin : closing_tag m.1 <:+: header ++ m.2) (h : Cut good m w) : Cut good m (handle_item w item) := by
  rcases h with ⟨todo, later, hcalls, hs⟩ | ⟨data, after, hcalls, hne⟩
  · cases todo with
    | nil =>
      obtain ⟨header', tail, hh', ht, hq⟩ := sendAll_cons hs
      obtain rfl : header = header' := Option.some.inj (hh.symm.trans hh')
      by_cases hi : item = m.1
      · subst hi
        obtain ⟨q, data, hstep, hne⟩ := handle_item_cut hh hin hq
        rw [hstep]
        exact Or.inr ⟨data, [], by simp [hcalls], hne⟩
      · have hfront : w.queue ++ [] =
            opening_tag m.1 ++ (header ++ m.2 ++ (closing_tag m.1 ++ tail)) := by simp [hq, opened]
        rw [handle_item_other hfront hi]
        exact Or.inl ⟨[], later, hcalls, hs⟩
    | cons x xs =>
      have hx : Fits x := hgood x (by simp [hcalls])
      have hs' : sendAll (x :: (xs ++ m :: later)) = some (w.queue ++ []) := by
        rw [List.append_nil]; exact hs
      rcases handle_item_front item hx hs' with ⟨hsame, _⟩ | ⟨q, hstep, ht⟩
      · rw [hsame]
        exact Or.inl ⟨x :: xs, later, hcalls, hs⟩
      · rw [hstep]
        exact Or.inl ⟨xs, later, by simp [hcalls], by simpa using ht⟩
  · obtain ⟨more, hmore⟩ := handle_item_calls w item
    exact Or.inr ⟨data, after ++ more, by rw [hmore, hcalls]; simp, hne⟩

theorem serve_turn_keeps_cut {good : List (Item × Bytes)} {m : Item × Bytes} {header r : Bytes}
    {w : Worker} (hgood : ∀ x ∈ good, Fits x) (hh : to_bytes m.2.length = some header)
    (hin : closing_tag m.1 <:+: header ++ m.2) (h : Cut good m { w with queue := w.queue ++ r }) :
    Cut good m (serve_turn w r) := by
  have hfold : ∀ (items : List Item) (v : Worker), Cut good m v →
      Cut good m (items.foldl handle_item v) := by
    intro items
    induction items with
    | nil => exact fun _ hv => hv
    | cons item items ih => exact fun v hv => ih _ (handle_item_keeps_cut item hgood hh hin hv)
  unfold serve_turn
  dsimp only
  split
  · exact h
  · exact hfold served _ h

theorem serve_turns_keep_cut {good : List (Item × Bytes)} {m : Item × Bytes} {header : Bytes}
    {w : Worker} (n : Nat) (hgood : ∀ x ∈ good, Fits x) (hh : to_bytes m.2.length = some header)
    (hin : closing_tag m.1 <:+: header ++ m.2) (h : Cut good m w) :
    Cut good m ((List.replicate n []).foldl serve_turn w) := by
  induction n generalizing w with
  | zero => exact h
  | succ n ih => exact ih (serve_turn_keeps_cut hgood hh hin (by rw [List.append_nil]; exact h))

theorem cut_never_delivers {good later : List (Item × Bytes)} {m : Item × Bytes} {w : Worker}
    (h : Cut good m w) : w.calls ≠ good ++ m :: later := by
  intro he
  rcases h with ⟨todo, _, hcalls, _⟩ | ⟨data, after, hcalls, hne⟩
  · have := congrArg List.length he
    rw [hcalls] at this
    simp only [List.length_append, List.length_cons] at this
    omega
  · rw [hcalls] at he
    obtain ⟨h1, _⟩ := List.cons.inj (List.append_cancel_left he)
    exact hne (congrArg Prod.snd h1)

theorem first_misfit {msgs : List (Item × Bytes)} (h : ¬ ∀ m ∈ msgs, Fits m) :
    ∃ good m later, msgs = good ++ m :: later ∧ (∀ x ∈ good, Fits x) ∧ ¬ Fits m := by
  induction msgs with
  | nil => simp at h
  | cons x xs ih =>
    by_cases hx : Fits x
    · have hxs : ¬ ∀ m ∈ xs, Fits m := fun hall => h (List.forall_mem_cons.mpr ⟨hx, hall⟩)
      obtain ⟨good, m, later, rfl, hgood, hm⟩ := ih hxs
      exact ⟨x :: good, m, later, rfl, List.forall_mem_cons.mpr ⟨hx, hgood⟩, hm⟩
    · exact ⟨[], x, xs, rfl, by simp, hx⟩

theorem sent_of_fits {msgs : List (Item × Bytes)} (h : ∀ m ∈ msgs, Fits m) :
    ∃ stream, sendAll msgs = some stream := by
  induction msgs with
  | nil => exact ⟨[], rfl⟩
  | cons m ms ih =>
    obtain ⟨⟨header, hh, _⟩, hms⟩ := List.forall_mem_cons.mp h
    obtain ⟨rest, hrest⟩ := ih hms
    exact ⟨_, by simp [sendAll, send_pickled_data, hh, hrest]; rfl⟩

theorem misfit_of_sent {good later : List (Item × Bytes)} {m : Item × Bytes} {stream : Bytes}
    (hs : sendAll (good ++ m :: later) = some stream) (hm : ¬ Fits m) :
    ∃ header, to_bytes m.2.length = some header ∧ closing_tag m.1 <:+: header ++ m.2 := by
  induction good generalizing stream with
  | nil =>
    obtain ⟨header, _, hh, _⟩ := sendAll_cons hs
    exact ⟨header, hh, by_contra fun hin => hm ⟨header, hh, hin⟩⟩
  | cons x xs ih =>
    obtain ⟨_, _, _, ht, _⟩ := sendAll_cons hs
    exact ih ht

/-! ## The laws -/

/-- Whatever the reads are, the worker gets every payload whole, in order and at its own
handler, exactly when no payload is too long for the header and no closing tag stands
inside its own message. -/
theorem every_payload_is_delivered_iff_every_message_fits (msgs : List (Item × Bytes)) :
    Delivered msgs ↔ ∀ m ∈ msgs, Fits m := by
  constructor
  · rintro ⟨stream, hs, _, hall⟩
    by_contra hnot
    obtain ⟨good, m, later, rfl, hgood, hm⟩ := first_misfit hnot
    obtain ⟨header, hh, hin⟩ := misfit_of_sent hs hm
    -- the stream comes in one read
    obtain ⟨n, hn⟩ := hall [stream] (by simp)
    refine cut_never_delivers ?_ hn
    have hfirst : Cut good m (serve [stream]) :=
      serve_turn_keeps_cut hgood hh hin (Or.inl ⟨good, later, rfl, hs⟩)
    rw [serve, List.foldl_append]
    exact serve_turns_keep_cut n hgood hh hin hfirst
  · intro hfits
    obtain ⟨stream, hs⟩ := sent_of_fits hfits
    refine ⟨stream, hs, ?_, ?_⟩
    · rintro reads ⟨rest, hrest⟩
      obtain ⟨todo, hmsgs, _⟩ := serve_inStep reads hfits hs hrest
      exact ⟨todo, hmsgs.symm⟩
    · intro reads hreads
      have hread := serve_inStep reads hfits hs (by rw [hreads, List.append_nil])
      obtain ⟨todo, hmsgs, _, hk⟩ := serve_turns_inStep msgs.length hfits hread
      refine ⟨msgs.length, ?_⟩
      rw [List.length_eq_zero_iff.mp (Nat.le_zero.mp hk), List.append_nil] at hmsgs
      rw [serve, List.foldl_append]
      exact hmsgs.symm

/-- A run of the worker on a payload that holds its own closing tag. -/
theorem a_payload_with_its_closing_tag_is_cut :
    ¬ Delivered [(.runtask, ascii "a</runtask>b")] := by
  rintro ⟨stream, hs, hsafe, _⟩
  have hrun := hsafe [stream] (by simp)
  obtain rfl := Option.some.inj hs
  revert hrun
  decide

end yocto.worker_framing
