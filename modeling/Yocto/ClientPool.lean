-- The pool of clients of `asyncrpc/client.py`. The tasks of one loop share at most
-- `max_clients` clients under a condition.
import Yocto.Runs

open yocto.runs

namespace yocto.client_pool

/-! ## The pool -/

/-- Where a task of `process_task` awaits, and the client that it has there. -/
inductive Phase
  /-- The lock, at the head of `get_client`. -/
  | entering
  /-- `_new_client`, with the lock. -/
  | creating
  /-- The condition, without the lock. -/
  | waiting
  /-- The lock, after a notification. -/
  | woken
  /-- The task itself, with the client that was handed to it. -/
  | using (client : Nat)
  /-- The lock, in the `finally` of `get_client`. -/
  | leaving (client : Nat) (raised : Bool)
  | done (raised : Bool)
  deriving DecidableEq, Repr

structure Pool where
  avail_clients : List Nat
  num_clients : Nat
  max_clients : Nat
  locked : Bool
  waiters : List Nat
  tasks : List Phase
  made : Nat
  deriving Repr

def new_pool (max_clients : Nat) : Pool :=
  { avail_clients := [], num_clients := 0, max_clients := max_clients, locked := false,
    waiters := [], tasks := [], made := 0 }

def Pool.put (p : Pool) (i : Nat) (x : Phase) : Pool := { p with tasks := p.tasks.set i x }

/-- `client_condition.wait()` up to its await. -/
def wait (p : Pool) (i : Nat) : Pool := { p with waiters := p.waiters ++ [i] }.put i .waiting

def notify (p : Pool) : Pool :=
  match p.waiters with
  | [] => p
  | w :: ws => { p with waiters := ws }.put w .woken

/-- What a task does once it has the lock at the head of `get_client`. -/
def enter (p : Pool) (i : Nat) : Pool :=
  match p.avail_clients with
  | client :: rest => { p with avail_clients := rest }.put i (.using client)
  | [] =>
    if p.num_clients < p.max_clients then
      { p with num_clients := p.num_clients + 1, locked := true }.put i .creating
    else wait p i

/-- What a woken task does once it has the lock again: `while not self.avail_clients`. -/
def resume (p : Pool) (i : Nat) : Pool :=
  match p.avail_clients with
  | client :: rest => { p with avail_clients := rest }.put i (.using client)
  | [] => wait p i

/-- The `finally` of `get_client`, once it has the lock. -/
def give_back (p : Pool) (i client : Nat) (raised : Bool) : Pool :=
  notify ({ p with avail_clients := client :: p.avail_clients }.put i (.done raised))

inductive Move
  /-- A task is added to the loop. -/
  | spawns
  | enters (i : Nat)
  /-- `_new_client` returns a client that did not exist before. -/
  | creates (i : Nat)
  /-- `_new_client` raises. -/
  | fails (i : Nat)
  | resumes (i : Nat)
  /-- The task returns, or raises, and is in the `finally`. -/
  | ends (i : Nat) (raised : Bool)
  | gives_back (i : Nat)

def step (p : Pool) : Move → Option Pool
  | .spawns => some { p with tasks := p.tasks ++ [.entering] }
  | .enters i => if p.tasks[i]? = some .entering ∧ p.locked = false then some (enter p i) else none
  | .creates i =>
    if p.tasks[i]? = some .creating then
      some ({ p with made := p.made + 1, locked := false }.put i (.using p.made))
    else none
  | .fails i =>
    -- the exception leaves `async with`, which gives the lock free, and nothing else is undone
    if p.tasks[i]? = some .creating then some ({ p with locked := false }.put i (.done true))
    else none
  | .resumes i => if p.tasks[i]? = some .woken ∧ p.locked = false then some (resume p i) else none
  | .ends i raised =>
    match p.tasks[i]? with
    | some (.using client) => some (p.put i (.leaving client raised))
    | _ => none
  | .gives_back i =>
    match p.tasks[i]? with
    | some (.leaving client raised) =>
      if p.locked then none else some (give_back p i client raised)
    | _ => none

/-! ## The clients that are handed out -/

def Phase.client? : Phase → Option Nat
  | .using client => some client
  | .leaving client _ => some client
  | _ => none

def Pool.client? (p : Pool) (i : Nat) : Option Nat := p.tasks[i]?.bind Phase.client?

def Pool.in_use (p : Pool) : Nat := p.tasks.countP fun x => x.client?.isSome

def Pool.being_made (p : Pool) : Nat := p.tasks.countP fun x => x = .creating

/-- The number of the tasks that are notified and did not run yet. -/
def Pool.woken (p : Pool) : Nat := p.tasks.countP fun x => x = .woken

/-- A client is available once, or some task's and no other one's. -/
structure OneUser (available : List Nat) (user : Nat → Option Nat) : Prop where
  once : available.Nodup
  apart : ∀ i client, user i = some client → client ∉ available
  one : ∀ i j client, user i = some client → user j = some client → i = j

/-- A task that waits has no slot left to take, and as many tasks as there are available clients
are awake and on their way to one. -/
def NoIdleClient (p : Pool) : Prop :=
  ∀ i : Nat, p.tasks[i]? = some Phase.waiting →
    p.num_clients = p.max_clients ∧ p.avail_clients.length ≤ p.woken

def Counted (p : Pool) : Prop :=
  p.num_clients = p.avail_clients.length + p.in_use + p.being_made

/-! ## One task that moves -/

variable {p : Pool} {i w : Nat} {x y : Phase}

@[simp]
theorem put_avail_clients (p : Pool) (i : Nat) (x : Phase) :
    (p.put i x).avail_clients = p.avail_clients := rfl

@[simp]
theorem put_num_clients (p : Pool) (i : Nat) (x : Phase) :
    (p.put i x).num_clients = p.num_clients := rfl

@[simp]
theorem put_max_clients (p : Pool) (i : Nat) (x : Phase) :
    (p.put i x).max_clients = p.max_clients := rfl

@[simp]
theorem put_waiters (p : Pool) (i : Nat) (x : Phase) : (p.put i x).waiters = p.waiters := rfl

@[simp]
theorem put_made (p : Pool) (i : Nat) (x : Phase) : (p.put i x).made = p.made := rfl

theorem put_tasks (h : p.tasks[i]? = some x) (j : Nat) :
    (p.put i y).tasks[j]? = if j = i then some y else p.tasks[j]? := by
  obtain ⟨hi, -⟩ := List.getElem?_eq_some_iff.mp h
  unfold Pool.put
  by_cases hj : j = i
  · subst hj
    simp [hi]
  · rw [if_neg hj, List.getElem?_set_ne (Ne.symm hj)]

theorem client?_put (h : p.tasks[i]? = some x) :
    (p.put i y).client? = Function.update p.client? i y.client? := by
  funext j
  unfold Pool.client?
  rw [put_tasks h, Function.update_apply]
  split
  · rfl
  · rfl

theorem client?_of_task (h : p.tasks[i]? = some x) : p.client? i = x.client? := by
  simp [Pool.client?, h]

theorem waiting_put (h : p.tasks[i]? = some x) (hx : x ≠ .waiting) (hy : y ≠ .waiting) (j : Nat) :
    (p.put i y).tasks[j]? = some .waiting ↔ p.tasks[j]? = some .waiting := by
  rw [put_tasks h]
  split
  · rename_i heq
    rw [heq, h]
    simp [hx, hy]
  · rfl

theorem woken_of_put (h : p.tasks[i]? = some x) (hy : y ≠ .woken) {j : Nat}
    (hj : (p.put i y).tasks[j]? = some .woken) : p.tasks[j]? = some .woken := by
  rw [put_tasks h] at hj
  split at hj
  · exact absurd (Option.some.inj hj) hy
  · exact hj

theorem count_put (f : Phase → Bool) (h : p.tasks[i]? = some x) :
    (p.put i y).tasks.countP f + (if f x then 1 else 0) =
      p.tasks.countP f + (if f y then 1 else 0) := by
  obtain ⟨hi, rfl⟩ := List.getElem?_eq_some_iff.mp h
  have hold : p.tasks = p.tasks.take i ++ p.tasks[i] :: p.tasks.drop (i + 1) := by simp
  have hnew : (p.put i y).tasks = p.tasks.take i ++ y :: p.tasks.drop (i + 1) := by
    unfold Pool.put
    dsimp only
    rw [List.set_eq_take_append_cons_drop, if_pos hi]
  have hcount : p.tasks.countP f = (p.tasks.take i).countP f +
      ((p.tasks.drop (i + 1)).countP f + if f p.tasks[i] then 1 else 0) := by
    rw [← List.countP_cons, ← List.countP_append, ← hold]
  rw [hnew, List.countP_append, List.countP_cons, hcount]
  omega

theorem in_use_put (h : p.tasks[i]? = some x) :
    (p.put i y).in_use + (if x.client?.isSome then 1 else 0) =
      p.in_use + (if y.client?.isSome then 1 else 0) := count_put _ h

theorem being_made_put (h : p.tasks[i]? = some x) :
    (p.put i y).being_made + (if x = .creating then 1 else 0) =
      p.being_made + (if y = .creating then 1 else 0) := by
  have hcount := count_put (y := y) (fun x => decide (x = .creating)) h
  simp only [decide_eq_true_eq] at hcount
  exact hcount

theorem woken_put (h : p.tasks[i]? = some x) :
    (p.put i y).woken + (if x = .woken then 1 else 0) =
      p.woken + (if y = .woken then 1 else 0) := by
  have hcount := count_put (y := y) (fun x => decide (x = .woken)) h
  simp only [decide_eq_true_eq] at hcount
  exact hcount

/-! ## Clients that change hands -/

section
variable {available : List Nat} {user : Nat → Option Nat} {client : Nat}

theorem OneUser.keeps (h : OneUser available user) {c? : Option Nat}
    (hkeep : ∀ client, c? = some client → user i = some client) :
    OneUser available (Function.update user i c?) := by
  have hold : ∀ j client, Function.update user i c? j = some client → user j = some client := by
    intro j client hj
    rw [Function.update_apply] at hj
    split at hj
    · rename_i heq
      rw [heq, hkeep client hj]
    · exact hj
  exact {
    once := h.once
    apart := fun j client hj => h.apart j client (hold j client hj)
    one := fun j k client hj hk => h.one j k client (hold j client hj) (hold k client hk) }

theorem OneUser.hands (h : OneUser available user) (hout : client ∉ available)
    (hfree : ∀ j, user j ≠ some client) :
    OneUser available (Function.update user i (some client)) where
  once := h.once
  apart := by
    intro j c hj
    rw [Function.update_apply] at hj
    split at hj
    · obtain rfl := Option.some.inj hj
      exact hout
    · exact h.apart j c hj
  one := by
    intro j k c hj hk
    rw [Function.update_apply] at hj hk
    split at hj
    · rename_i hji
      obtain rfl := Option.some.inj hj
      split at hk
      · rename_i hki
        rw [hji, hki]
      · exact absurd hk (hfree k)
    · split at hk
      · obtain rfl := Option.some.inj hk
        exact absurd hj (hfree j)
      · exact h.one j k c hj hk

theorem OneUser.pops (h : OneUser (client :: available) user) :
    OneUser available (Function.update user i (some client)) := by
  have honce := List.nodup_cons.mp h.once
  have hrest : OneUser available user := {
    once := honce.2
    apart := fun j c hj hmem => h.apart j c hj (List.mem_cons_of_mem _ hmem)
    one := h.one }
  apply hrest.hands honce.1
  intro j hj
  exact h.apart j client hj List.mem_cons_self

theorem OneUser.pushes (h : OneUser available user) (hi : user i = some client) :
    OneUser (client :: available) (Function.update user i none) where
  once := List.nodup_cons.mpr ⟨h.apart i client hi, h.once⟩
  apart := by
    intro j c hj
    rw [Function.update_apply] at hj
    split at hj
    · cases hj
    · rename_i hne
      rw [List.mem_cons, not_or]
      refine ⟨?_, h.apart j c hj⟩
      rintro rfl
      exact hne (h.one j i c hj hi)
  one := by
    intro j k c hj hk
    rw [Function.update_apply] at hj hk
    split at hj
    · cases hj
    · split at hk
      · cases hk
      · exact h.one j k c hj hk

end

/-! ## The invariant -/

/-- The clients are apart and all of them were made here, the sleepers of the condition are the
tasks that wait, and there are not too many clients. -/
structure Ordered (p : Pool) : Prop where
  users : OneUser p.avail_clients p.client?
  known : ∀ client ∈ p.avail_clients, client < p.made
  known_user : ∀ i client, p.client? i = some client → client < p.made
  once : p.waiters.Nodup
  sleepers : ∀ i, i ∈ p.waiters ↔ p.tasks[i]? = some Phase.waiting
  room : p.num_clients ≤ p.max_clients
  full : ∀ i : Nat, p.tasks[i]? = some Phase.woken → p.num_clients = p.max_clients

/-- What holds whether or not a client could be made: also, nobody sleeps in vain. -/
structure Sound (p : Pool) : Prop extends Ordered p where
  idle : p.waiters ≠ [] → p.num_clients = p.max_clients ∧ p.avail_clients.length ≤ p.woken

theorem Sound.moves (h : Sound p) (hi : p.tasks[i]? = some x)
    (hx : x ≠ .waiting ∧ x ≠ .woken) (hy : y ≠ .waiting ∧ y ≠ .woken)
    (hclient : ∀ client, y.client? = some client → p.client? i = some client) :
    Sound (p.put i y) where
  users := by
    rw [client?_put hi]
    exact h.users.keeps hclient
  known := h.known
  known_user := by
    intro j client hj
    rw [client?_put hi, Function.update_apply] at hj
    split at hj
    · exact h.known_user i client (hclient client hj)
    · exact h.known_user j client hj
  once := h.once
  sleepers := fun j => (h.sleepers j).trans (waiting_put hi hx.1 hy.1 j).symm
  room := h.room
  full := fun j hj => h.full j (woken_of_put hi hy.2 hj)
  idle := by
    intro hw
    obtain ⟨hroom, hidle⟩ := h.idle hw
    have hwoken := woken_put (y := y) hi
    rw [if_neg hx.2] at hwoken
    refine ⟨hroom, ?_⟩
    rw [put_avail_clients]
    omega

theorem Sound.takes (h : Sound p) (hi : p.tasks[i]? = some x) (hx : x ≠ .waiting) {client : Nat}
    {rest : List Nat} (havail : p.avail_clients = client :: rest) :
    Sound ({ p with avail_clients := rest }.put i (.using client)) := by
  have hi' : { p with avail_clients := rest }.tasks[i]? = some x := hi
  have hknown := h.known
  have husers := h.users
  rw [havail] at hknown husers
  exact {
    users := by
      rw [client?_put hi']
      exact husers.pops
    known := fun c hc => hknown c (List.mem_cons_of_mem _ hc)
    known_user := by
      intro j c hj
      rw [client?_put hi', Function.update_apply] at hj
      split at hj
      · obtain rfl := Option.some.inj hj
        exact hknown client List.mem_cons_self
      · exact h.known_user j c hj
    once := h.once
    sleepers := fun j => (h.sleepers j).trans (waiting_put hi' hx (by simp) j).symm
    room := h.room
    full := fun j hj => h.full j (woken_of_put hi' (by simp) hj)
    idle := by
      intro hw
      obtain ⟨hroom, hidle⟩ := h.idle hw
      refine ⟨hroom, ?_⟩
      -- the task that takes the client may be one of the woken ones, but then both become fewer
      have hwoken : (Pool.put { p with avail_clients := rest } i (.using client)).woken +
          (if x = .woken then 1 else 0) = p.woken + 0 := woken_put hi'
      rw [havail, List.length_cons] at hidle
      rw [put_avail_clients]
      dsimp only
      split at hwoken <;> omega }

theorem Sound.sleeps (h : Sound p) (hi : p.tasks[i]? = some x) (havail : p.avail_clients = [])
    (hfull : p.num_clients = p.max_clients) (hx : x ≠ .waiting) : Sound (wait p i) := by
  have hi' : { p with waiters := p.waiters ++ [i] }.tasks[i]? = some x := hi
  have hw : (wait p i).waiters = p.waiters ++ [i] := rfl
  have hnot : i ∉ p.waiters := by
    rw [h.sleepers i, hi]
    simpa using hx
  exact {
    users := by
      unfold wait
      rw [client?_put hi']
      exact h.users.keeps (fun c hc => by cases hc)
    known := h.known
    known_user := by
      intro j c hj
      unfold wait at hj
      rw [client?_put hi', Function.update_apply] at hj
      split at hj
      · cases hj
      · exact h.known_user j c hj
    once := by
      rw [hw]
      exact h.once.append (List.nodup_singleton i) (by simpa using hnot)
    sleepers := by
      intro j
      rw [hw, List.mem_append, List.mem_singleton, h.sleepers j]
      unfold wait
      rw [put_tasks hi']
      split
      · rename_i heq
        simp [heq]
      · rename_i hne
        simp [hne]
    room := h.room
    full := fun _ _ => hfull
    idle := by
      intro _
      refine ⟨hfull, ?_⟩
      have hnil : (wait p i).avail_clients = [] := havail
      simp [hnil] }

theorem Sound.reserves (h : Sound p) (hroom : p.num_clients < p.max_clients) :
    Sound { p with num_clients := p.num_clients + 1, locked := true } where
  users := h.users
  known := h.known
  known_user := h.known_user
  once := h.once
  sleepers := h.sleepers
  room := hroom
  full := by
    intro j hj
    have hfull := h.full j hj
    omega
  idle := by
    intro hw
    obtain ⟨hfull, -⟩ := h.idle hw
    omega

theorem Sound.makes (h : Sound p) (hi : p.tasks[i]? = some .creating) :
    Sound ({ p with made := p.made + 1, locked := false }.put i (.using p.made)) := by
  have hi' : { p with made := p.made + 1, locked := false }.tasks[i]? = some .creating := hi
  exact {
    users := by
      rw [client?_put hi']
      apply h.users.hands
      · intro hmem
        exact absurd (h.known p.made hmem) (by omega)
      · intro j hj
        exact absurd (h.known_user j p.made hj) (by omega)
    known := fun c hc => Nat.lt_succ_of_lt (h.known c hc)
    known_user := by
      intro j c hj
      rw [client?_put hi', Function.update_apply] at hj
      rw [put_made]
      dsimp only
      split at hj
      · obtain rfl := Option.some.inj hj
        omega
      · exact Nat.lt_succ_of_lt (h.known_user j c hj)
    once := h.once
    sleepers := fun j => (h.sleepers j).trans (waiting_put hi' (by simp) (by simp) j).symm
    room := h.room
    full := fun j hj => h.full j (woken_of_put hi' (by simp) hj)
    idle := by
      intro hw
      obtain ⟨hroom, hidle⟩ := h.idle hw
      refine ⟨hroom, ?_⟩
      have hwoken : (Pool.put { p with made := p.made + 1, locked := false } i
          (.using p.made)).woken + 0 = p.woken + 0 := woken_put hi'
      rw [put_avail_clients]
      dsimp only
      omega }

theorem Ordered.notify (h : Ordered p)
    (hidle : p.waiters ≠ [] →
      p.num_clients = p.max_clients ∧ p.avail_clients.length ≤ p.woken + 1) :
    Sound (notify p) := by
  unfold client_pool.notify
  split
  · rename_i hnil
    exact { h with idle := fun hw => absurd hnil hw }
  · rename_i w ws hwaiters
    have hw : p.tasks[w]? = some .waiting := (h.sleepers w).mp (by simp [hwaiters])
    have hw' : { p with waiters := ws }.tasks[w]? = some .waiting := hw
    have honce := h.once
    rw [hwaiters, List.nodup_cons] at honce
    obtain ⟨hroom, hidle⟩ := hidle (by simp [hwaiters])
    exact {
      users := by
        rw [client?_put hw']
        exact h.users.keeps (fun c hc => by cases hc)
      known := h.known
      known_user := by
        intro j c hj
        rw [client?_put hw', Function.update_apply] at hj
        split at hj
        · cases hj
        · exact h.known_user j c hj
      once := honce.2
      sleepers := by
        intro j
        rw [put_waiters, put_tasks hw']
        have hj := h.sleepers j
        rw [hwaiters, List.mem_cons] at hj
        split
        · rename_i heq
          simpa [heq] using honce.1
        · rename_i hne
          simpa [hne] using hj
      room := h.room
      full := fun _ _ => hroom
      idle := by
        intro _
        refine ⟨hroom, ?_⟩
        have hwoken : (Pool.put { p with waiters := ws } w .woken).woken + 0 = p.woken + 1 :=
          woken_put hw'
        rw [put_avail_clients]
        dsimp only
        omega }

theorem Sound.gives_back (h : Sound p) {client : Nat} {raised : Bool}
    (hi : p.tasks[i]? = some (.leaving client raised)) :
    Sound (give_back p i client raised) := by
  have hi' : { p with avail_clients := client :: p.avail_clients }.tasks[i]? =
      some (.leaving client raised) := hi
  have hclient : p.client? i = some client := client?_of_task hi
  unfold give_back
  apply Ordered.notify
  · exact {
      users := by
        rw [client?_put hi']
        exact h.users.pushes hclient
      known := by
        intro c hc
        rcases List.mem_cons.mp hc with rfl | hc
        · exact h.known_user i c hclient
        · exact h.known c hc
      known_user := by
        intro j c hj
        rw [client?_put hi', Function.update_apply] at hj
        split at hj
        · cases hj
        · exact h.known_user j c hj
      once := h.once
      sleepers := fun j => (h.sleepers j).trans (waiting_put hi' (by simp) (by simp) j).symm
      room := h.room
      full := fun j hj => h.full j (woken_of_put hi' (by simp) hj) }
  · intro hw
    obtain ⟨hroom, hidle⟩ := h.idle hw
    have hwoken : (Pool.put { p with avail_clients := client :: p.avail_clients } i
        (.done raised)).woken + 0 = p.woken + 0 := woken_put hi'
    refine ⟨hroom, ?_⟩
    rw [put_avail_clients, List.length_cons]
    omega

theorem Sound.spawns (h : Sound p) : Sound { p with tasks := p.tasks ++ [.entering] } := by
  have hclient : { p with tasks := p.tasks ++ [Phase.entering] }.client? = p.client? := by
    funext j
    unfold Pool.client?
    dsimp only
    rw [List.getElem?_append, List.getElem?_singleton]
    split
    · rfl
    · rename_i hj
      rw [List.getElem?_eq_none (by omega)]
      split <;> rfl
  exact {
    users := by
      rw [hclient]
      exact h.users
    known := h.known
    known_user := by
      rw [hclient]
      exact h.known_user
    once := h.once
    sleepers := by
      intro j
      rw [h.sleepers j, List.getElem?_append, List.getElem?_singleton]
      split
      · rfl
      · rename_i hj
        rw [List.getElem?_eq_none (by omega)]
        split <;> simp
    room := h.room
    full := by
      intro j hj
      rw [List.getElem?_append, List.getElem?_singleton] at hj
      split at hj
      · exact h.full j hj
      · split at hj <;> simp at hj
    idle := by
      intro hw
      have hwoken : { p with tasks := p.tasks ++ [Phase.entering] }.woken = p.woken := by
        unfold Pool.woken
        simp
      rw [hwoken]
      exact h.idle hw }

/-! ## Runs -/

theorem Sound.new_pool (max_clients : Nat) : Sound (new_pool max_clients) where
  users := {
    once := List.nodup_nil
    apart := fun i client hi => by simp [Pool.client?, client_pool.new_pool] at hi
    one := fun i j client hi _ => by simp [Pool.client?, client_pool.new_pool] at hi }
  known := fun client hc => by cases hc
  known_user := fun i client hi => by simp [Pool.client?, client_pool.new_pool] at hi
  once := List.nodup_nil
  sleepers := fun i => by simp [client_pool.new_pool]
  room := Nat.zero_le _
  full := fun i hi => by simp [client_pool.new_pool] at hi
  idle := fun hw => absurd rfl hw

theorem Sound.enters (h : Sound p) (hi : p.tasks[i]? = some .entering) : Sound (enter p i) := by
  unfold enter
  split
  · rename_i client rest havail
    exact h.takes hi (by simp) havail
  · rename_i havail
    split
    · rename_i hroom
      exact (h.reserves hroom).moves hi (by simp) (by simp) (fun c hc => by cases hc)
    · rename_i hfull
      have hroom := h.room
      exact h.sleeps hi havail (by omega) (by simp)

theorem Sound.resumes (h : Sound p) (hi : p.tasks[i]? = some .woken) : Sound (resume p i) := by
  unfold resume
  split
  · rename_i client rest havail
    exact h.takes hi (by simp) havail
  · rename_i havail
    exact h.sleeps hi havail (h.full i hi) (by simp)

theorem Sound.step (h : Sound p) {a : Move} {p' : Pool} (hs : step p a = some p') : Sound p' := by
  cases a with
  | spawns =>
    obtain rfl := Option.some.inj hs
    exact h.spawns
  | enters i =>
    simp only [client_pool.step, Option.ite_none_right_eq_some, Option.some.injEq] at hs
    obtain ⟨⟨hi, -⟩, rfl⟩ := hs
    exact h.enters hi
  | creates i =>
    simp only [client_pool.step, Option.ite_none_right_eq_some, Option.some.injEq] at hs
    obtain ⟨hi, rfl⟩ := hs
    exact h.makes hi
  | fails i =>
    simp only [client_pool.step, Option.ite_none_right_eq_some, Option.some.injEq] at hs
    obtain ⟨hi, rfl⟩ := hs
    have hfree : Sound { p with locked := false } := { h with }
    exact hfree.moves hi (by simp) (by simp) (fun c hc => by cases hc)
  | resumes i =>
    simp only [client_pool.step, Option.ite_none_right_eq_some, Option.some.injEq] at hs
    obtain ⟨⟨hi, -⟩, rfl⟩ := hs
    exact h.resumes hi
  | ends i raised =>
    unfold client_pool.step at hs
    dsimp only at hs
    split at hs
    · rename_i client hi
      obtain rfl := Option.some.inj hs
      apply h.moves hi (by simp) (by simp)
      intro c hc
      rw [client?_of_task hi]
      exact hc
    · cases hs
  | gives_back i =>
    unfold client_pool.step at hs
    dsimp only at hs
    split at hs
    · rename_i client raised hi
      split at hs
      · cases hs
      · obtain rfl := Option.some.inj hs
        exact h.gives_back hi
    · cases hs

/-! ## The counter -/

/-- The slots that a task takes up. -/
def Phase.slots : Phase → Nat
  | .creating => 1
  | .using _ => 1
  | .leaving _ _ => 1
  | _ => 0

theorem Phase.slots_eq (x : Phase) :
    x.slots = (if x.client?.isSome then 1 else 0) + (if x = .creating then 1 else 0) := by
  cases x <;> simp [slots, Phase.client?]

theorem Counted.of_move (h : Counted p) {q : Pool} (hi : p.tasks[i]? = some x)
    (ht : q.tasks = p.tasks.set i y)
    (hn : q.num_clients + p.avail_clients.length + x.slots =
      p.num_clients + q.avail_clients.length + y.slots) : Counted q := by
  have huse : q.in_use = (p.put i y).in_use := by
    unfold Pool.in_use
    rw [ht]
    rfl
  have hmade : q.being_made = (p.put i y).being_made := by
    unfold Pool.being_made
    rw [ht]
    rfl
  have huse' := in_use_put (y := y) hi
  have hmade' := being_made_put (y := y) hi
  rw [Phase.slots_eq x, Phase.slots_eq y] at hn
  unfold Counted at h ⊢
  rw [huse, hmade]
  omega

theorem Counted.takes (h : Counted p) (hi : p.tasks[i]? = some x) (hx : x.slots = 0) {client : Nat}
    {rest : List Nat} (havail : p.avail_clients = client :: rest) :
    Counted ({ p with avail_clients := rest }.put i (.using client)) := by
  apply h.of_move hi rfl
  have hnew : (Phase.using client).slots = 1 := rfl
  simp only [put_num_clients, put_avail_clients, havail, List.length_cons]
  omega

theorem Counted.sleeps (h : Counted p) (hi : p.tasks[i]? = some x) (hx : x.slots = 0) :
    Counted (wait p i) := by
  apply h.of_move hi rfl
  have hnew : Phase.waiting.slots = 0 := rfl
  rw [hx, hnew]
  rfl

theorem Counted.notify (h : Counted p)
    (hs : ∀ i, i ∈ p.waiters → p.tasks[i]? = some Phase.waiting) : Counted (notify p) := by
  unfold client_pool.notify
  split
  · exact h
  · rename_i w ws hwaiters
    have hw := hs w (by simp [hwaiters])
    apply h.of_move hw rfl
    simp [Phase.slots]

theorem Counted.gives_back (h : Counted p) (hp : Sound p) {client : Nat} {raised : Bool}
    (hi : p.tasks[i]? = some (.leaving client raised)) :
    Counted (give_back p i client raised) := by
  unfold give_back
  apply Counted.notify
  · apply h.of_move hi rfl
    simp [Phase.slots]
    omega
  · intro j hj
    exact (waiting_put hi (by simp) (by simp) j).mpr ((hp.sleepers j).mp hj)

/-- `_new_client` raises in the step. -/
def Move.raises : Move → Bool
  | .fails _ => true
  | _ => false

/-- No creation of a client fails in the step. -/
def noFailure (_ : Pool) (a : Move) : Prop := a.raises = false

instance (p : Pool) (a : Move) : Decidable (noFailure p a) :=
  inferInstanceAs (Decidable (_ = false))

theorem Counted.step (h : Counted p) (hp : Sound p) {a : Move} (ha : noFailure p a) {p' : Pool}
    (hs : step p a = some p') : Counted p' := by
  cases a with
  | spawns =>
    obtain rfl := Option.some.inj hs
    unfold Counted Pool.in_use Pool.being_made at h ⊢
    simpa [Phase.client?] using h
  | enters i =>
    simp only [client_pool.step, Option.ite_none_right_eq_some, Option.some.injEq] at hs
    obtain ⟨⟨hi, -⟩, rfl⟩ := hs
    unfold enter
    split
    · rename_i client rest havail
      exact h.takes hi rfl havail
    · split
      · apply h.of_move hi rfl
        simp [Phase.slots]
        omega
      · exact h.sleeps hi rfl
  | creates i =>
    simp only [client_pool.step, Option.ite_none_right_eq_some, Option.some.injEq] at hs
    obtain ⟨hi, rfl⟩ := hs
    apply h.of_move hi rfl
    simp [Phase.slots]
  | fails i => simp [noFailure, Move.raises] at ha
  | resumes i =>
    simp only [client_pool.step, Option.ite_none_right_eq_some, Option.some.injEq] at hs
    obtain ⟨⟨hi, -⟩, rfl⟩ := hs
    unfold resume
    split
    · rename_i client rest havail
      exact h.takes hi rfl havail
    · exact h.sleeps hi rfl
  | ends i raised =>
    unfold client_pool.step at hs
    dsimp only at hs
    split at hs
    · rename_i client hi
      obtain rfl := Option.some.inj hs
      apply h.of_move hi rfl
      simp [Phase.slots]
    · cases hs
  | gives_back i =>
    unfold client_pool.step at hs
    dsimp only at hs
    split at hs
    · rename_i client raised hi
      split at hs
      · cases hs
      · obtain rfl := Option.some.inj hs
        exact h.gives_back hp hi
    · cases hs

/-! ## Runs -/

theorem step_max_clients {a : Move} {p' : Pool} (hs : step p a = some p') :
    p'.max_clients = p.max_clients := by
  have hnotify : ∀ q : Pool, (notify q).max_clients = q.max_clients := by
    intro q
    unfold notify
    split
    · rfl
    · rfl
  unfold step at hs
  split at hs
  · simp [← Option.some.inj hs]
  · rw [← Option.some.inj (Option.ite_none_right_eq_some.mp hs).2]
    unfold enter
    split
    · rfl
    · split
      · rfl
      · rfl
  · simp [← Option.some.inj (Option.ite_none_right_eq_some.mp hs).2]
  · simp [← Option.some.inj (Option.ite_none_right_eq_some.mp hs).2]
  · rw [← Option.some.inj (Option.ite_none_right_eq_some.mp hs).2]
    unfold resume
    split
    · rfl
    · rfl
  · split at hs
    · simp [← Option.some.inj hs]
    · cases hs
  · split at hs
    · split at hs
      · cases hs
      · rw [← Option.some.inj hs]
        exact hnotify _
    · cases hs

theorem Sound.no_idle_client (h : Sound p) : NoIdleClient p := by
  intro i hi
  apply h.idle
  intro hnil
  have hmem := (h.sleepers i).mpr hi
  simp [hnil] at hmem

/-- However the tasks are interleaved, and whatever raises, there are at most `max_clients` clients,
no two tasks have the same one, and a task waits only when all slots are taken and every available
client has a woken task on its way. And all clients are counted as long as none failed to be made. -/
theorem clients_are_accounted_for (max_clients : Nat) (p : Pool) :
    (Reaches step anyStep (new_pool max_clients) p →
      p.max_clients = max_clients ∧ p.num_clients ≤ p.max_clients ∧
        OneUser p.avail_clients p.client? ∧ NoIdleClient p) ∧
    (Reaches step noFailure (new_pool max_clients) p → Counted p) := by
  constructor
  · intro h
    have hsound : Sound p :=
      h.invariant (Sound.new_pool max_clients) (fun _ _ _ hp _ hs => hp.step hs)
    refine ⟨?_, hsound.room, hsound.users, hsound.no_idle_client⟩
    apply h.invariant (I := fun p => p.max_clients = max_clients) rfl
    intro s a s' hmax _ hs
    rw [step_max_clients hs, hmax]
  · intro h
    have hstart : Counted (new_pool max_clients) := by
      simp [Counted, new_pool, Pool.in_use, Pool.being_made]
    have hboth : Sound p ∧ Counted p := by
      apply h.invariant (I := fun p => Sound p ∧ Counted p) ⟨Sound.new_pool max_clients, hstart⟩
      intro s a s' hp ha hs
      exact ⟨hp.1.step hs, hp.2.step hp.1 ha hs⟩
    exact hboth.2

/-- Three tasks share one client. The first one raises and gives it back. -/
def handover : List Move :=
  [.spawns, .spawns, .spawns, .enters 0, .creates 0, .enters 1, .enters 2, .ends 0 true,
    .gives_back 0]

theorem handover_is_accounted_for :
    ∃ p, runAll step (new_pool 1) handover = some p ∧ p.tasks[2]? = some Phase.waiting ∧
      p.num_clients = 1 ∧ p.avail_clients.length ≤ p.woken ∧ Counted p := by
  have hrun : Reaches step noFailure (new_pool 1) ((runOk step noFailure (new_pool 1) handover).get
      (by decide)) := .of_runOk (Option.some_get _).symm
  have hany : Reaches step anyStep (new_pool 1) _ := hrun.mono (fun _ _ _ => trivial)
  obtain ⟨-, -, -, hidle⟩ := (clients_are_accounted_for 1 _).1 hany
  exact ⟨_, rfl, rfl, (hidle 2 rfl).1, (hidle 2 rfl).2, (clients_are_accounted_for 1 _).2 hrun⟩

/-- While the first client is made the counter is ahead of the clients. A task still waits although
a client is available, for another one was woken for it. And the slot of a client that could not be
made stays taken, so that the next task waits for nobody. -/
theorem counter_runs_ahead :
    (∃ p, runAll step (new_pool 1) [.spawns, .enters 0] = some p ∧
      p.num_clients ≠ p.avail_clients.length + p.in_use) ∧
    (∃ p, runAll step (new_pool 1) handover = some p ∧ p.tasks[2]? = some Phase.waiting ∧
      p.avail_clients ≠ []) ∧
    (∃ p, runAll step (new_pool 1) [.spawns, .enters 0, .fails 0, .spawns, .enters 1] = some p ∧
      p.tasks[1]? = some Phase.waiting ∧ p.avail_clients.length + p.in_use + p.being_made = 0 ∧
      p.num_clients = 1) := by
  refine ⟨⟨_, rfl, by decide⟩, ⟨_, rfl, rfl, by decide⟩, ⟨_, rfl, rfl, by decide, rfl⟩⟩

end yocto.client_pool
