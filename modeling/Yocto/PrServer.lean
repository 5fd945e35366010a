-- The PR server (prserv/serv.py): a message is given to the handler it names, and the changes
-- of the table are committed when a handler raises or the server is told to stop.
import Yocto.OrderedDict
import Yocto.PrTable
import Yocto.Runs

open yocto.task_ids yocto.ordered_dict yocto.unique_table yocto.high_water yocto.pr_table yocto.runs

namespace yocto.pr_server

/-! ## Messages -/

inductive Field
  | missing
  | null
  | text (t : Text)
  deriving DecidableEq

structure Request where
  version : Field
  pkgarch : Field
  checksum : Field
  value : Option PyValue
  colinfo : Option Bool
  deriving DecidableEq

/-- A JSON object: the name of the command, with the request for it. -/
abbrev Message := OrderedDict Text Request

inductive Response
  | none
  | value (value : WithBot Number)
  | found (value : Bool)
  | exported (datainfo : List Col)
  | readonly (readonly : Bool)
  | alive
  deriving DecidableEq

inductive ServerError
  | KeyError
  | ClientError
  | raised (e : PrError)
  deriving DecidableEq

def Field.get : Field → Except ServerError (Option Text)
  | .missing => .error .KeyError
  | .null => .ok none
  | .text t => .ok (some t)

/-- An optional field of a request that must be there. -/
def required {α : Type} : Option α → Except ServerError α
  | some value => .ok value
  | none => .error .KeyError

/-! ## The server -/

structure PRServer where
  table : PRTable

/-- `start`: the table `PRMAIN`, without history. -/
def PRServer.start (conn : Connection) (read_only : Bool) : PRServer where
  table := .init conn (text "PRMAIN") true read_only

/-- `self.server.read_only`. -/
def PRServer.read_only (server : PRServer) : Bool := server.table.read_only

/-- What a handler leaves behind: the server, and the response or what it raised. -/
abbrev Handled := PRServer × Except ServerError Response

/-- A handler that reads its fields first. A field that is missing is raised. -/
def with_fields {α : Type} (server : PRServer) (fields : Except ServerError α) (f : α → Handled) :
    Handled :=
  match fields with
  | .ok fields => f fields
  | .error e => (server, .error e)

/-- The fields `version`, `pkgarch` and `checksum`. -/
def Request.key (request : Request) :
    Except ServerError (Option Text × Option Text × Option Text) := do
  let version ← request.version.get
  let pkgarch ← request.pkgarch.get
  let checksum ← request.checksum.get
  return (version, pkgarch, checksum)

def PRServer.handle_test_pr (server : PRServer) (request : Request) : Handled :=
  with_fields server request.key fun (version, pkgarch, checksum) =>
    (server, .ok (.value (server.table.find_value version pkgarch checksum)))

def PRServer.handle_test_package (server : PRServer) (request : Request) : Handled :=
  with_fields server (do return (← request.version.get, ← request.pkgarch.get))
    fun (version, pkgarch) => (server, .ok (.found (server.table.test_package version pkgarch)))

def PRServer.handle_max_package_pr (server : PRServer) (request : Request) : Handled :=
  with_fields server (do return (← request.version.get, ← request.pkgarch.get))
    fun (version, pkgarch) => (server, .ok (.value (server.table.find_max_value version pkgarch)))

def PRServer.handle_get_pr (server : PRServer) (request : Request) : Handled :=
  with_fields server request.key fun (version, pkgarch, checksum) =>
    let (table, answer) := server.table.get_value version pkgarch checksum
    match answer with
    | .ok value => (⟨table⟩, .ok (.value value))
    | .error .NotFoundError => (⟨table⟩, .ok .none)
    | .error e => (⟨table⟩, .error (.raised e))

def PRServer.handle_import_one (server : PRServer) (request : Request) : Handled :=
  if server.read_only then (server, .ok .none)
  else
    with_fields server (do return (← request.key, ← required request.value))
      fun ((version, pkgarch, checksum), value) =>
        let (table, answer) := server.table.importone version pkgarch checksum value
        match answer with
        | .ok value => (⟨table⟩, .ok (if value = ⊥ then .none else .value value))
        | .error e => (⟨table⟩, .error (.raised e))

def PRServer.handle_export (server : PRServer) (request : Request) : Handled :=
  with_fields server (do return (← request.key, ← required request.colinfo))
    fun ((version, pkgarch, checksum), _) =>
      (server, .ok (.exported (server.table.export_data version pkgarch checksum)))

def PRServer.handle_is_readonly (server : PRServer) (_ : Request) : Handled :=
  (server, .ok (.readonly server.read_only))

def PRServer.handle_ping (server : PRServer) (_ : Request) : Handled := (server, .ok .alive)

inductive Command
  | ping
  | get_pr
  | test_pr
  | test_package
  | max_package_pr
  | import_one
  | export_
  | is_readonly
  deriving DecidableEq

/-- The keys of `handlers`, in the order in which they are tried. -/
def handlers : List Command :=
  [.ping, .get_pr, .test_pr, .test_package, .max_package_pr, .import_one, .export_, .is_readonly]

def Command.name : Command → Text
  | .ping => text "ping"
  | .get_pr => text "get-pr"
  | .test_pr => text "test-pr"
  | .test_package => text "test-package"
  | .max_package_pr => text "max-package-pr"
  | .import_one => text "import-one"
  | .export_ => text "export"
  | .is_readonly => text "is-readonly"

def PRServer.handle (server : PRServer) : Command → Request → Handled
  | .ping => server.handle_ping
  | .get_pr => server.handle_get_pr
  | .test_pr => server.handle_test_pr
  | .test_package => server.handle_test_package
  | .max_package_pr => server.handle_max_package_pr
  | .import_one => server.handle_import_one
  | .export_ => server.handle_export
  | .is_readonly => server.handle_is_readonly

/-- The first handler that the message names, with its request. -/
def selected (msg : Message) : Option (Command × Request) :=
  handlers.findSome? fun k => (msg.get? k.name).map (k, ·)

/-- `dispatch_message` of every server. -/
def PRServer.dispatch (server : PRServer) (msg : Message) : Handled :=
  match selected msg with
  | some (command, request) => server.handle command request
  | none => (server, .error .ClientError)

/-- `dispatch_message`. The `return` leaves the `try` before its `else`, so nothing is committed
after a handler that did not raise. -/
def PRServer.dispatch_message (server : PRServer) (msg : Message) : Handled :=
  match server.dispatch msg with
  | (server, .ok response) => (server, .ok response)
  | (server, .error e) => (⟨server.table.sync⟩, .error e)

/-- The server is told to stop: the signal handler commits, and so does `stop`. -/
def PRServer.stop (server : PRServer) : Connection := server.table.sync.sync_if_dirty.conn.rollback

/-- What a crash leaves of the database. -/
def PRServer.crash (server : PRServer) : Connection := server.table.conn.rollback

/-! ## Sessions -/

/-- The server, with the values that it gave out: for which checksum, and which value. -/
structure Session where
  server : PRServer
  given : List (Key × Number)

inductive Event
  | request (msg : Message)
  | crash
  | restart
  deriving DecidableEq

/-- The checksum that a message asks a value for. -/
def asked (msg : Message) : Option Key :=
  match selected msg with
  | some (.get_pr, request) =>
    match request.key with
    | .ok (version, pkgarch, checksum) => key? version pkgarch checksum
    | .error _ => none
  | _ => none

/-- The value that a message asks to import, for which checksum. -/
def imported (msg : Message) : Option (Key × PyValue) :=
  match selected msg with
  | some (.import_one, request) =>
    match request.key, request.value with
    | .ok (version, pkgarch, checksum), some value =>
      (key? version pkgarch checksum).map (·, value)
    | _, _ => none
  | _ => none

/-- The message asks for the value of something without a version, an architecture or a
checksum. -/
def asks_for_null (msg : Message) : Bool :=
  match selected msg with
  | some (.get_pr, request) =>
    match request.key with
    | .ok (version, pkgarch, checksum) => (key? version pkgarch checksum).isNone
    | .error _ => false
  | _ => false

/-- The value that a response gives to a checksum. -/
def gives (msg : Message) (answer : Except ServerError Response) : List (Key × Number) :=
  match asked msg, answer with
  | some key, .ok (.value value) => (value.map fun n => [(key, n)]).unbotD []
  | _, _ => []

def Session.next (s : Session) : Event → Session
  | .request msg =>
    let handled := s.server.dispatch_message msg
    ⟨handled.1, gives msg handled.2 ++ s.given⟩
  | .crash => ⟨.start s.server.crash s.server.read_only, s.given⟩
  | .restart => ⟨.start s.server.stop s.server.read_only, s.given⟩

def step (s : Session) (e : Event) : Option Session := some (s.next e)

def start (read_only : Bool) : Session := ⟨.start ⟨.empty, .empty⟩ read_only, []⟩

/-! ## The condition -/

def Settled (t : PRTable) : Prop := t.conn.rows.rows = t.conn.committed.rows

instance (t : PRTable) : Decidable (Settled t) :=
  inferInstanceAs (Decidable (t.conn.rows.rows = t.conn.committed.rows))

/-- A value is asked of a server that stores it, and the next one is an INTEGER. -/
def may_ask (t : PRTable) (key : Key) : Prop :=
  t.read_only = false ∧
    ((t.select_max key.1 key.2.1 key.2.2).isSome ∨ t.max_value key.1 key.2.1 < real)

instance (t : PRTable) (key : Key) : Decidable (may_ask t key) := inferInstanceAs (Decidable (_ ∧ _))

/-- The largest value of a package is imported for no second checksum. -/
def may_import (t : PRTable) (key : Key) (value : PyValue) : Prop :=
  value.bind = some (t.max_value key.1 key.2.1) →
    t.max_value key.1 key.2.1 = ⊥ ∨ (t.select_max key.1 key.2.1 key.2.2).isSome

instance (t : PRTable) (key : Key) (value : PyValue) : Decidable (may_import t key value) :=
  inferInstanceAs (Decidable (_ → _))

/-- A crash, or a request that rolls back, finds nothing uncommitted. -/
def Harmless (s : Session) : Event → Prop
  | .request msg =>
    (∀ key ∈ asked msg, may_ask s.server.table key) ∧
      (∀ x ∈ imported msg, may_import s.server.table x.1 x.2) ∧
      (asks_for_null msg = true → Settled s.server.table)
  | .crash => Settled s.server.table
  | .restart => True

instance (s : Session) : ∀ e, Decidable (Harmless s e)
  | .request _ => inferInstanceAs (Decidable (_ ∧ _ ∧ _))
  | .crash => inferInstanceAs (Decidable (Settled s.server.table))
  | .restart => inferInstanceAs (Decidable True)

/-- The message makes the server store a value. -/
def stores (t : PRTable) (msg : Message) : Bool :=
  match asked msg, imported msg with
  | some key, _ => (t.select_max key.1 key.2.1 key.2.2).isNone
  | none, some (key, value) =>
    match value.bind, t.select key.1 key.2.1 key.2.2 with
    | some _, none => true
    | some value, some row => row.value ≠ ⊥ ∧ row.value < value
    | none, _ => false
  | none, none => false

/-! ## Marks -/

/-- The checksums of a package were given values of their own, and they have the largest
value when they were given it. -/
structure Own (marks : Text → Text → Mark Text Number) (given : List (Key × Number)) : Prop where
  sole : ∀ v p, Mark.Sole (fun _ => True) (marks v p)
  below : ∀ v p c n, ((v, p, c), n) ∈ given → ↑n ≤ (marks v p).top
  held : ∀ v p c n, ((v, p, c), n) ∈ given → (marks v p).top = ↑n → c ∈ (marks v p).holders
  own : ∀ v p c c' n, ((v, p, c), n) ∈ given → ((v, p, c'), n) ∈ given → c = c'

variable {marks marks' : Text → Text → Mark Text Number} {given : List (Key × Number)}
  {n : Number}

theorem Own.claim (h : Own marks given) (version pkgarch checksum : Text)
    (hmarks : ∀ v p, marks' v p = if (v, p) = (version, pkgarch)
      then (marks version pkgarch).claim next checksum else marks v p)
    (hlt : checksum ∉ (marks version pkgarch).holders →
      (marks version pkgarch).top < next (marks version pkgarch).top)
    (hn : ((marks version pkgarch).claim next checksum).top = n) :
    Own marks' (((version, pkgarch, checksum), n) :: given) := by
  have hself : marks' version pkgarch = (marks version pkgarch).claim next checksum := by
    rw [hmarks, if_pos rfl]
  -- a checksum that was given this value before is the one that asks
  have hsame : ∀ c, ((version, pkgarch, c), n) ∈ given → c = checksum := by
    intro c hc
    by_cases hmem : checksum ∈ (marks version pkgarch).holders
    · rw [Mark.claim_of_mem hmem] at hn
      exact h.sole version pkgarch c (h.held _ _ _ _ hc hn) checksum hmem trivial trivial
    · rw [Mark.claim_of_lt hmem (hlt hmem)] at hn
      exact absurd (h.below _ _ _ _ hc) (by rw [← hn]; exact (hlt hmem).not_ge)
  constructor
  · intro v p
    rw [hmarks]
    split
    · exact (h.sole version pkgarch).claim hlt
    · exact h.sole v p
  · intro v p c k hmem
    rcases List.mem_cons.mp hmem with heq | hin
    · simp only [Prod.mk.injEq] at heq
      obtain ⟨⟨rfl, rfl, rfl⟩, rfl⟩ := heq
      rw [hself, hn]
    · refine (h.below v p c k hin).trans ?_
      rw [hmarks]
      split
      · rename_i heq
        simp only [Prod.mk.injEq] at heq
        rw [heq.1, heq.2]
        exact Mark.le_claim next _ checksum
      · exact le_rfl
  · intro v p c k hmem htop
    rcases List.mem_cons.mp hmem with heq | hin
    · simp only [Prod.mk.injEq] at heq
      obtain ⟨⟨rfl, rfl, rfl⟩, rfl⟩ := heq
      rw [hself]
      exact Mark.mem_claim (le_next _)
    · rw [hmarks] at htop ⊢
      split at htop
      · rename_i heq
        rw [if_pos heq]
        simp only [Prod.mk.injEq] at heq
        obtain ⟨rfl, rfl⟩ := heq
        have hle := Mark.le_claim next (marks v p) checksum
        have hk : (marks v p).top = k :=
          le_antisymm (hle.trans htop.le) (h.below v p c k hin)
        exact Mark.mem_claim_of_mem (h.held v p c k hin hk) (htop.trans hk.symm)
      · rename_i hne
        rw [if_neg hne]
        exact h.held v p c k hin htop
  · intro v p c c' k hmem hmem'
    rcases List.mem_cons.mp hmem with heq | hin
    · simp only [Prod.mk.injEq] at heq
      obtain ⟨⟨rfl, rfl, rfl⟩, rfl⟩ := heq
      rcases List.mem_cons.mp hmem' with heq | hin'
      · simp only [Prod.mk.injEq] at heq
        exact heq.1.2.2.symm
      · exact (hsame c' hin').symm
    · rcases List.mem_cons.mp hmem' with heq | hin'
      · simp only [Prod.mk.injEq] at heq
        obtain ⟨⟨rfl, rfl, rfl⟩, rfl⟩ := heq
        exact hsame c hin
      · exact h.own v p c c' k hin hin'

theorem Own.raise (h : Own marks given) (version pkgarch checksum : Text)
    (hmarks : ∀ v p, marks' v p = if (v, p) = (version, pkgarch)
      then (marks version pkgarch).raise checksum n else marks v p)
    (htie : (marks version pkgarch).top = n → checksum ∈ (marks version pkgarch).holders) :
    Own marks' given := by
  refine ⟨?_, ?_, ?_, h.own⟩
  · intro v p
    rw [hmarks]
    split
    · exact (h.sole version pkgarch).raise fun _ => htie
    · exact h.sole v p
  · intro v p c k hmem
    refine (h.below v p c k hmem).trans ?_
    rw [hmarks]
    split
    · rename_i heq
      simp only [Prod.mk.injEq] at heq
      rw [heq.1, heq.2]
      exact Mark.le_raise _ checksum n
    · exact le_rfl
  · intro v p c k hmem htop
    rw [hmarks] at htop ⊢
    split at htop
    · rename_i heq
      rw [if_pos heq]
      simp only [Prod.mk.injEq] at heq
      obtain ⟨rfl, rfl⟩ := heq
      have hle := Mark.le_raise (marks v p) checksum n
      have hk : (marks v p).top = k := le_antisymm (hle.trans htop.le) (h.below v p c k hmem)
      exact Mark.mem_raise_of_mem (h.held v p c k hmem hk) (htop.trans hk.symm)
    · rename_i hne
      rw [if_neg hne]
      exact h.held v p c k hmem htop

/-! ## What a message does -/

theorem mark_of_rows {t t' : PRTable} (h : t'.conn.rows = t.conn.rows) (v p : Text) :
    t'.mark v p = t.mark v p := mark_congr fun c => by rw [h]

theorem sync_keeps (t : PRTable) :
    t.sync.nohist = t.nohist ∧ t.sync.read_only = t.read_only ∧ t.sync.conn.rows = t.conn.rows := by
  unfold PRTable.sync
  split
  · simp
  · simp [Connection.commit]

/-- A message ends with the table that its handler left, which is committed when it raised. -/
def Ends (t : PRTable) (handled : Handled) : Prop :=
  (∃ response, handled.2 = .ok response ∧ handled.1.table = t) ∨
    ∃ e, handled.2 = .error e ∧ handled.1.table = t.sync

theorem ends_with_fields {α : Type} (server : PRServer) (fields : Except ServerError α)
    (f : α → Response) :
    Ends server.table
      (match with_fields server fields fun x => (server, .ok (f x)) with
        | (server, .ok response) => (server, .ok response)
        | (server, .error e) => (⟨server.table.sync⟩, .error e)) := by
  cases fields with
  | error e => exact Or.inr ⟨e, rfl, rfl⟩
  | ok x => exact Or.inl ⟨f x, rfl, rfl⟩

theorem dispatch_cases (server : PRServer) (msg : Message) :
    (asked msg = none ∧ (server.read_only = true ∨ imported msg = none) ∧
      asks_for_null msg = false ∧ Ends server.table (server.dispatch_message msg)) ∨
    (∃ version pkgarch checksum, asked msg = key? version pkgarch checksum ∧
      asks_for_null msg = (key? version pkgarch checksum).isNone ∧ imported msg = none ∧
      Ends (server.table.get_value version pkgarch checksum).1 (server.dispatch_message msg) ∧
      ∀ value, (server.table.get_value version pkgarch checksum).2 = .ok value →
        (server.dispatch_message msg).2 = .ok (.value value)) ∨
    (asked msg = none ∧ asks_for_null msg = false ∧ server.read_only = false ∧
      ∃ version pkgarch checksum value,
        imported msg = (key? version pkgarch checksum).map (·, value) ∧
        Ends (server.table.importone version pkgarch checksum value).1
          (server.dispatch_message msg)) := by
  unfold asked imported asks_for_null PRServer.dispatch_message PRServer.dispatch
  cases hselected : selected msg with
  | none => exact Or.inl ⟨rfl, Or.inr rfl, rfl, Or.inr ⟨_, rfl, rfl⟩⟩
  | some x =>
    obtain ⟨command, request⟩ := x
    cases command with
    | ping => exact Or.inl ⟨rfl, Or.inr rfl, rfl, Or.inl ⟨_, rfl, rfl⟩⟩
    | is_readonly => exact Or.inl ⟨rfl, Or.inr rfl, rfl, Or.inl ⟨_, rfl, rfl⟩⟩
    | test_pr => exact Or.inl ⟨rfl, Or.inr rfl, rfl, ends_with_fields server _ _⟩
    | test_package => exact Or.inl ⟨rfl, Or.inr rfl, rfl, ends_with_fields server _ _⟩
    | max_package_pr => exact Or.inl ⟨rfl, Or.inr rfl, rfl, ends_with_fields server _ _⟩
    | export_ => exact Or.inl ⟨rfl, Or.inr rfl, rfl, ends_with_fields server _ _⟩
    | get_pr =>
      simp only [PRServer.handle, PRServer.handle_get_pr]
      cases hkey : request.key with
      | error e => exact Or.inl ⟨rfl, Or.inr trivial, rfl, Or.inr ⟨e, rfl, rfl⟩⟩
      | ok key =>
        obtain ⟨version, pkgarch, checksum⟩ := key
        refine Or.inr (Or.inl ⟨version, pkgarch, checksum, rfl, rfl, trivial, ?_⟩)
        simp only [with_fields]
        rcases server.table.get_value version pkgarch checksum with ⟨t, e | value⟩
        · cases e with
          | NotFoundError => exact ⟨Or.inl ⟨.none, rfl, rfl⟩, fun value h => by cases h⟩
          | OverflowError => exact ⟨Or.inr ⟨_, rfl, rfl⟩, fun value h => by cases h⟩
        · refine ⟨Or.inl ⟨.value value, rfl, rfl⟩, fun value' h => ?_⟩
          rw [Except.ok.inj h]
    | import_one =>
      simp only [PRServer.handle, PRServer.handle_import_one]
      cases hread_only : server.read_only with
      | true => exact Or.inl ⟨trivial, Or.inl rfl, trivial, Or.inl ⟨.none, rfl, rfl⟩⟩
      | false =>
        cases hkey : request.key with
        | error e => exact Or.inl ⟨trivial, Or.inr rfl, trivial, Or.inr ⟨e, rfl, rfl⟩⟩
        | ok key =>
          obtain ⟨version, pkgarch, checksum⟩ := key
          cases hvalue : request.value with
          | none => exact Or.inl ⟨trivial, Or.inr rfl, trivial, Or.inr ⟨_, rfl, rfl⟩⟩
          | some value =>
            refine Or.inr (Or.inr ⟨trivial, trivial, rfl, version, pkgarch, checksum, value, rfl, ?_⟩)
            simp only [required, with_fields, bind, pure, Except.bind, Except.pure,
              Bool.false_eq_true, if_false]
            rcases server.table.importone version pkgarch checksum value with ⟨t, e | answer⟩
            · exact Or.inr ⟨_, rfl, rfl⟩
            · exact Or.inl ⟨_, rfl, rfl⟩

/-! ## Calls for nothing -/

section
variable {t : PRTable} {v p c : Option Text}

theorem get_value_null (hn : t.nohist = true) (hkey : key? v p c = none) :
    (t.get_value v p c).1.nohist = true ∧ (t.get_value v p c).1.read_only = t.read_only ∧
      ((t.get_value v p c).1.conn = t.conn ∨ (t.get_value v p c).1.conn = t.conn.rollback) := by
  have hselect : t.select_max v p c = none := by
    simp [PRTable.select_max, PRTable.select, hkey]
  unfold PRTable.get_value PRTable.get_value_no_hist
  rw [if_pos hn, hselect]
  cases hread_only : t.read_only with
  | true => simp [hn, hread_only]
  | false => simp [hn, Connection.replace, hkey]

theorem importone_null (hn : t.nohist = true) (hkey : key? v p c = none) (value : PyValue) :
    (t.importone v p c value).1.conn = t.conn := by
  unfold PRTable.importone PRTable.import_no_hist
  rw [if_pos hn]
  split
  · rfl
  · split
    · rfl
    · simp [Connection.insert, Connection.raise, hkey, Table.update_eq_self]

end

/-! ## Steps of a session -/

variable {version pkgarch checksum : Text}

/-- The values given out are the checksums' own, and a server that only reads has nothing to
commit. -/
structure Inv (s : Session) : Prop where
  nohist : s.server.table.nohist = true
  settled : s.server.read_only = true → Settled s.server.table
  own : Own s.server.table.mark s.given

theorem Settled.rows {t : PRTable} (h : Settled t) : t.conn.rollback.rows = t.conn.rows :=
  Table.ext_rows h.symm

theorem mem_holders_of_select_max {t : PRTable}
    (h : (t.select_max version pkgarch checksum).isSome) :
    checksum ∈ (t.mark version pkgarch).holders := by
  by_contra hnot
  simp [select_max_of_not_mem hnot] at h

theorem Inv.of_rows {s : Session} {server : PRServer} (h : Inv s)
    (hnohist : server.table.nohist = true)
    (hsettled : server.read_only = true → Settled server.table)
    (hrows : server.table.conn.rows = s.server.table.conn.rows) : Inv ⟨server, s.given⟩ := by
  refine ⟨hnohist, hsettled, ?_⟩
  have hmarks : server.table.mark = s.server.table.mark := by
    funext v p
    exact mark_of_rows hrows v p
  show Own server.table.mark s.given
  rw [hmarks]
  exact h.own

theorem Inv.ends {t : PRTable} {given : List (Key × Number)} {handled : Handled}
    (h : Inv ⟨⟨t⟩, given⟩) (hends : Ends t handled) : Inv ⟨handled.1, given⟩ := by
  rcases hends with ⟨_, _, heq⟩ | ⟨_, _, heq⟩
  · rw [show handled.1 = ⟨t⟩ by rw [← heq]]
    exact h
  · obtain ⟨hnohist, hread_only, hrows⟩ := sync_keeps t
    apply h.of_rows (by rw [heq, hnohist, h.nohist]) _ (by rw [heq, hrows])
    intro hr
    rw [PRServer.read_only, heq, hread_only] at hr
    rw [heq, PRTable.sync, if_pos hr]
    exact h.settled hr

theorem Inv.importone {s : Session} (h : Inv s) (hw : s.server.read_only = false)
    {value : PyValue} (hmay : may_import s.server.table (version, pkgarch, checksum) value) :
    Own (s.server.table.importone version pkgarch checksum value).1.mark s.given := by
  have hmark := importone_mark h.nohist hw version pkgarch checksum value
  have hother (v p : Text) (hne : ¬(v, p) = (version, pkgarch)) :=
    (hmark v p).resolve_right fun hright => hne hright.1
  rcases hmark version pkgarch with hsame | ⟨_, n, hbind, hraise⟩
  · have hmarks : (s.server.table.importone version pkgarch checksum value).1.mark =
        s.server.table.mark := by
      funext v p
      by_cases heq : (v, p) = (version, pkgarch)
      · simp only [Prod.mk.injEq] at heq
        rw [heq.1, heq.2, hsame]
      · exact hother v p heq
    rw [hmarks]
    exact h.own
  · refine h.own.raise version pkgarch checksum (n := n) (fun v p => ?_) fun htop => ?_
    · split
      · rename_i heq
        simp only [Prod.mk.injEq] at heq
        rw [heq.1, heq.2, hraise]
      · rename_i hne
        exact hother v p hne
    · rw [top_mark] at htop
      rcases hmay (hbind.trans (congrArg some htop.symm)) with hbot | hsome
      · rw [hbot] at htop
        exact absurd htop.symm WithBot.coe_ne_bot
      · exact mem_holders_of_select_max hsome

theorem Inv.get_value {s : Session} (h : Inv s)
    (hmay : may_ask s.server.table (version, pkgarch, checksum)) {n : Number}
    (hn : (s.server.table.get_value version pkgarch checksum).2 = .ok ↑n) :
    Own (s.server.table.get_value version pkgarch checksum).1.mark
      (((version, pkgarch, checksum), n) :: s.given) := by
  obtain ⟨hw, hlast⟩ := hmay
  rw [get_value_answer h.nohist hw] at hn
  apply h.own.claim version pkgarch checksum (get_value_mark h.nohist hw version pkgarch checksum)
  · intro hnot
    rcases hlast with hsome | hlt
    · exact absurd (mem_holders_of_select_max hsome) hnot
    · exact lt_next hlt
  · exact Except.ok.inj hn

theorem key?_eq_some {v p c : Option Text} {key : Key} (h : key? v p c = some key) :
    v = some key.1 ∧ p = some key.2.1 ∧ c = some key.2.2 := by
  unfold key? at h
  split at h
  · obtain rfl := Option.some.inj h
    simp
  · cases h

theorem gives_of_not_asked {msg : Message} (h : asked msg = none)
    (answer : Except ServerError Response) : gives msg answer = [] := by
  simp [gives, h]

theorem Inv.request {s : Session} {msg : Message} (h : Inv s) (hok : Harmless s (.request msg)) :
    Inv (s.next (.request msg)) := by
  obtain ⟨hask, himport, hnull⟩ := hok
  show Inv ⟨(s.server.dispatch_message msg).1, gives msg (s.server.dispatch_message msg).2 ++ s.given⟩
  rcases dispatch_cases s.server msg with ⟨hasked, _, _, hends⟩ |
    ⟨v, p, c, hasked, hasks, _, hends, hvalue⟩ | ⟨hasked, _, hw, v, p, c, value, himported, hends⟩
  · rw [gives_of_not_asked hasked, List.nil_append]
    exact h.ends hends
  · cases hkey : key? v p c with
    | none =>
      rw [hkey] at hasked hasks
      obtain ⟨hnohist, hread_only, hconn⟩ := get_value_null h.nohist hkey
      have hsettled : Settled s.server.table := hnull hasks
      rw [gives_of_not_asked hasked, List.nil_append]
      apply Inv.ends _ hends
      apply h.of_rows hnohist
      · intro hr
        rcases hconn with hconn | hconn
        · simp only [Settled, hconn]
          exact hsettled
        · simp [Settled, hconn, Connection.rollback]
      · rcases hconn with hconn | hconn
        · simp only [hconn]
        · simp only [hconn]
          exact hsettled.rows
    | some key =>
      obtain ⟨version, pkgarch, checksum⟩ := key
      obtain ⟨rfl, rfl, rfl⟩ := key?_eq_some hkey
      rw [hkey] at hasked
      have hmay := hask _ hasked
      obtain ⟨n, hn, _, _⟩ := get_value_holds h.nohist hmay.1 version pkgarch checksum
      obtain ⟨hnohist, hread_only⟩ := get_value_kind s.server.table version pkgarch checksum
      have hgives : gives msg (s.server.dispatch_message msg).2 =
          [((version, pkgarch, checksum), n)] := by
        simp [gives, hasked, hvalue ↑n hn]
      rw [hgives]
      refine Inv.ends ⟨hnohist.trans h.nohist, fun hr => ?_, h.get_value hmay hn⟩ hends
      exact absurd (hread_only.symm.trans hr) (by simp [hmay.1])
  · obtain ⟨hnohist, hread_only⟩ := importone_kind s.server.table v p c value
    rw [gives_of_not_asked hasked, List.nil_append]
    apply Inv.ends _ hends
    have hwritable : ¬(s.server.table.importone v p c value).1.read_only = true := by
      rw [hread_only]
      exact ne_true_of_eq_false hw
    cases hkey : key? v p c with
    | none =>
      have hconn := importone_null h.nohist hkey value
      exact h.of_rows (hnohist.trans h.nohist) (fun hr => absurd hr hwritable) (by simp only [hconn])
    | some key =>
      obtain ⟨version, pkgarch, checksum⟩ := key
      obtain ⟨rfl, rfl, rfl⟩ := key?_eq_some hkey
      refine ⟨hnohist.trans h.nohist, fun hr => absurd hr hwritable, h.importone hw ?_⟩
      exact himport ((version, pkgarch, checksum), value) himported

theorem stop_rows {server : PRServer} (h : server.read_only = true → Settled server.table) :
    server.stop.rows = server.table.conn.rows := by
  unfold PRServer.stop PRTable.sync_if_dirty PRTable.sync
  cases hr : server.table.read_only with
  | true =>
    have hsettled : Settled server.table := h hr
    cases hd : server.table.dirty <;> simpa [hr, hd] using hsettled.rows
  | false =>
    simp only [Bool.false_eq_true, if_false]
    cases server.table.dirty <;> rfl

theorem Inv.step {s : Session} {e : Event} (h : Inv s) (hok : Harmless s e) : Inv (s.next e) := by
  cases e with
  | request msg => exact h.request hok
  | crash =>
    show Inv ⟨.start s.server.crash s.server.read_only, s.given⟩
    exact h.of_rows rfl (fun _ => rfl) (Settled.rows hok)
  | restart =>
    show Inv ⟨.start s.server.stop s.server.read_only, s.given⟩
    exact h.of_rows rfl (fun _ => rfl) (stop_rows h.settled)

theorem Inv.start (read_only : Bool) : Inv (start read_only) := by
  refine ⟨rfl, fun _ => rfl, ?_, ?_, ?_, ?_⟩
  · intro v p x hx
    obtain ⟨n, hn, _⟩ := hx
    cases hn
  all_goals intros; contradiction

theorem values_are_own {read_only : Bool} {s : Session}
    (h : Reaches step Harmless (pr_server.start read_only) s) : Inv s := by
  apply h.invariant (Inv.start read_only)
  intro s e s' hI hok hs
  rw [← Option.some.inj hs]
  exact hI.step hok

/-! ## Responses -/

theorem Ends.of_ok {t : PRTable} {handled : Handled} {response : Response} (h : Ends t handled)
    (hok : handled.2 = .ok response) : handled.1.table = t := by
  rcases h with ⟨_, _, heq⟩ | ⟨_, herror, _⟩
  · exact heq
  · cases hok.symm.trans herror

theorem Settled.stored {t t' : PRTable} (h : Settled t) (h' : Settled t')
    (hcommitted : t'.conn.committed = t.conn.committed) (v p c : Text) :
    stored t'.conn.rows v p c = stored t.conn.rows v p c := by
  have hrows : t'.conn.rows = t.conn.rows :=
    Table.ext_rows (by rw [h', hcommitted, h])
  rw [hrows]

theorem settled_get_value {t : PRTable} (hn : t.nohist = true) (hw : t.read_only = false)
    (h : Settled t) :
    Settled (t.get_value version pkgarch checksum).1 ↔
      (t.select_max version pkgarch checksum).isNone = false := by
  by_cases hmem : checksum ∈ (t.mark version pkgarch).holders
  · obtain ⟨row, hrow, _⟩ := select_max_of_mem hmem
    rw [get_value_of_mem hn hmem, hrow]
    simp [h]
  · obtain ⟨t', hget, hwritten, hstored⟩ := get_value_of_not_mem hn hw hmem
    rw [hget, select_max_of_not_mem hmem]
    simp only [Option.isNone_none, Bool.true_eq_false, iff_false]
    intro h'
    have hsame := h.stored h' hwritten.committed version pkgarch checksum
    rw [hstored, if_pos rfl] at hsame
    exact hmem ⟨_, hsame.symm, le_antisymm (le_next _) (le_max_value hsame.symm)⟩

theorem settled_importone {t : PRTable} (hn : t.nohist = true) (hw : t.read_only = false)
    (h : Settled t) (value : PyValue) :
    Settled (t.importone version pkgarch checksum value).1 ↔
      (match value.bind, t.select version pkgarch checksum with
        | some _, none => true
        | some value, some row => decide (row.value ≠ ⊥ ∧ row.value < value)
        | none, _ => false) = false := by
  cases hbind : value.bind with
  | none => simp [PRTable.importone, hn, PRTable.import_no_hist, hw, hbind, h]
  | some b =>
    have hstored := stored_import_no_hist hn hw hbind version pkgarch checksum
      version pkgarch checksum
    rw [if_pos rfl] at hstored
    have hconn : (t.importone version pkgarch checksum value).1.conn =
        (t.conn.insert version pkgarch checksum b).getD
          (t.conn.raise version pkgarch checksum b) := by
      simp [PRTable.importone, hn, PRTable.import_no_hist, hw, hbind]
    have hcommitted : (t.importone version pkgarch checksum value).1.conn.committed =
        t.conn.committed := by
      rw [hconn]
      cases hinsert : t.conn.insert version pkgarch checksum b with
      | none => rfl
      | some conn' => exact (insert_eq_some hinsert).2.1
    cases hselect : t.select version pkgarch checksum with
    | none =>
      have hold : stored t.conn.rows version pkgarch checksum = none := by
        rw [← select_some, hselect, Option.map_none]
      simp only [Bool.true_eq_false, iff_false]
      intro h'
      rw [h.stored h' hcommitted, hold] at hstored
      cases hstored
    | some row =>
      have hold : stored t.conn.rows version pkgarch checksum = some row.value := by
        rw [← select_some, hselect, Option.map_some]
      rw [hold] at hstored
      simp only [decide_eq_false_iff_not]
      constructor
      · intro h' hlt
        rw [h.stored h' hcommitted, hold] at hstored
        simp only [if_pos hlt, Option.some.injEq] at hstored
        exact hlt.2.ne hstored
      · intro hnot
        have hsame : t.conn.raise version pkgarch checksum b = t.conn := by
          unfold Connection.raise
          rw [Table.update_eq_self]
          intro r hr
          simp only [key?_some, Option.some.injEq, decide_eq_false_iff_not]
          rintro ⟨hkey, hlt⟩
          have hr' : t.select version pkgarch checksum = some r := by
            simp only [PRTable.select, key?_some, Option.bind_some, hkey]
            exact Table.get?_of_mem hr
          rw [hselect] at hr'
          rw [Option.some.inj hr'] at hnot
          exact hnot hlt
        have hinsert : t.conn.insert version pkgarch checksum b = none :=
          insert_eq_none_iff.mpr ⟨_, hold⟩
        unfold Settled
        rw [hconn, hinsert, Option.getD_none, hsame]
        exact h

theorem settled_iff {server : PRServer} {msg : Message} {response : Response}
    (hn : server.table.nohist = true) (hw : server.read_only = false)
    (h : Settled server.table) (hok : (server.dispatch_message msg).2 = .ok response) :
    Settled (server.dispatch_message msg).1.table ↔ stores server.table msg = false := by
  rcases dispatch_cases server msg with ⟨hasked, himported, _, hends⟩ |
    ⟨v, p, c, hasked, _, himported, hends, _⟩ | ⟨hasked, _, _, v, p, c, value, himported, hends⟩
  · rw [hends.of_ok hok]
    have hnone : imported msg = none := himported.resolve_left (by simp [hw])
    simp [stores, hasked, hnone, h]
  · rw [hends.of_ok hok]
    cases hkey : key? v p c with
    | none =>
      obtain ⟨_, _, hconn⟩ := get_value_null hn hkey
      rw [hkey] at hasked
      simp only [stores, hasked, himported, iff_true]
      rcases hconn with hconn | hconn
      · simp only [Settled, hconn]
        exact h
      · simp [Settled, hconn, Connection.rollback]
    | some key =>
      obtain ⟨version, pkgarch, checksum⟩ := key
      obtain ⟨rfl, rfl, rfl⟩ := key?_eq_some hkey
      rw [hkey] at hasked
      simp only [stores, hasked]
      exact settled_get_value hn hw h
  · rw [hends.of_ok hok]
    cases hkey : key? v p c with
    | none =>
      rw [hkey] at himported
      have hnone : imported msg = none := himported
      simp only [stores, hasked, hnone, iff_true, Settled, importone_null hn hkey value]
      exact h
    | some key =>
      obtain ⟨version, pkgarch, checksum⟩ := key
      obtain ⟨rfl, rfl, rfl⟩ := key?_eq_some hkey
      rw [hkey] at himported
      have hsome : imported msg = some ((version, pkgarch, checksum), value) := himported
      simp only [stores, hasked, hsome]
      exact settled_importone hn hw h value

/-! ## Values given out -/

/-- In a session whose steps do no harm, a value of a package is given to one checksum alone. And
where nothing is uncommitted, a response is sent with nothing uncommitted exactly when its message
stores no value. -/
theorem given_values_stay_own_without_harm (read_only : Bool) :
    (∀ s, Reaches step Harmless (start read_only) s →
      ∀ version pkgarch checksum checksum' n,
        ((version, pkgarch, checksum), n) ∈ s.given →
        ((version, pkgarch, checksum'), n) ∈ s.given → checksum = checksum') ∧
    ∀ (server : PRServer) (msg : Message) (response : Response),
      server.table.nohist = true → server.read_only = false → Settled server.table →
      (server.dispatch_message msg).2 = .ok response →
      (Settled (server.dispatch_message msg).1.table ↔ stores server.table msg = false) :=
  ⟨fun _ h => (values_are_own h).own.own, fun _ _ _ => settled_iff⟩

/-- A message that asks for the value of a checksum. -/
def ask (checksum : String) : Message :=
  [(text "get-pr",
    ⟨.text (text "1.0"), .text (text "core2-64"), .text (text checksum), none, none⟩)]

theorem values_stay_own_after_a_restart :
    (∀ checksum checksum' n,
      ((text "1.0", text "core2-64", checksum), n) ∈
        ((runOk step Harmless (start false)
          [.request (ask "a"), .restart, .crash, .request (ask "b")]).get (by decide +kernel)).given →
      ((text "1.0", text "core2-64", checksum'), n) ∈
        ((runOk step Harmless (start false)
          [.request (ask "a"), .restart, .crash, .request (ask "b")]).get (by decide +kernel)).given →
      checksum = checksum') ∧
    Settled (((start false).next (.request (ask "a")) |>.next .restart).server.dispatch_message
      (ask "a")).1.table :=
  ⟨(given_values_stay_own_without_harm false).1 _
      (Reaches.of_runOk (Option.some_get _).symm) (text "1.0") (text "core2-64"),
    ((given_values_stay_own_without_harm false).2 ((start false).next (.request (ask "a")) |>.next .restart).server
      (ask "a") (.value ↑zero) rfl rfl (by decide +kernel) (by decide +kernel)).mpr
      (by decide +kernel)⟩

/-- The first value is not committed when it is given out, and after a crash it is given to
another checksum. -/
theorem a_crash_gives_a_value_again :
    ¬Settled ((start false).next (.request (ask "a"))).server.table ∧
    (runAll step (start false) [.request (ask "a"), .crash, .request (ask "b")]).map
        Session.given =
      some [((text "1.0", text "core2-64", text "b"), zero),
        ((text "1.0", text "core2-64", text "a"), zero)] := by
  decide +kernel

end yocto.pr_server
