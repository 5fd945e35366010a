-- The users of a hash equivalence server (hashserv/server.py).
import Yocto.DataSmart
import Yocto.Json
import Yocto.SigGen
import Yocto.UniqueTable

open yocto.task_ids yocto.json yocto.unique_table yocto.raising
open yocto.data_smart (words)

namespace yocto.user_access

/-! ## Permissions -/

/-- This permission only exists to match nothing. -/
def NONE_PERM : Text := text "@none"
def READ_PERM : Text := text "@read"
def REPORT_PERM : Text := text "@report"
def DB_ADMIN_PERM : Text := text "@db-admin"
def USER_ADMIN_PERM : Text := text "@user-admin"
def ALL_PERM : Text := text "@all"

def ALL_PERMISSIONS : List Text := [READ_PERM, REPORT_PERM, DB_ADMIN_PERM, USER_ADMIN_PERM, ALL_PERM]

/-- `sorted(list(...))` of a set of texts. -/
def sorted_set (l : List Text) : List Text := siggen.sorted (fun a b => decide (a ≤ b)) l.dedup

def texts (l : List Text) : Json := .list (l.foldr (fun s items => .cons (.str s) items) .nil)

/-! ## The users table -/

structure UserRow where
  username : Text
  token : Text
  permissions : Text
  deriving DecidableEq

abbrev Users := Table UserRow.username

structure User where
  username : Text
  permissions : List Text
  deriving DecidableEq

def map_user (row : UserRow) : User := ⟨row.username, words row.permissions⟩

def lookup_user_token (users : Users) (username : Text) : Option (User × Text) :=
  (users.get? username).map fun row => (map_user row, row.token)

def lookup_user (users : Users) (username : Text) : Option User :=
  (users.get? username).map map_user

/-- The rows of one user are the row of this name. The number is the `rowcount` of the statement. -/
def named (username : Text) (row : UserRow) : Bool := row.username == username

def set_user_token (users : Users) (username token : Text) : Users × Bool :=
  (users.update (named username) (fun row => { row with token }) fun _ => rfl,
    users.count (named username) ≠ 0)

def set_user_perms (users : Users) (username : Text) (permissions : List Text) : Users × Bool :=
  (users.update (named username)
    (fun row => { row with permissions := [' '].intercalate permissions }) fun _ => rfl,
    users.count (named username) ≠ 0)

def new_user (users : Users) (username : Text) (permissions : List Text) (token : Text) :
    Users × Bool :=
  users.insert ⟨username, token, [' '].intercalate permissions⟩

def delete_user (users : Users) (username : Text) : Users × Bool :=
  (users.delete (named username), users.count (named username) ≠ 0)

/-! ## Requests -/

inductive Command
  | ping
  | get
  | get_outhash
  | get_stream
  | exists_stream
  | get_stats
  | get_db_usage
  | get_db_query_columns
  | report
  | auth
  | get_user
  | get_all_users
  | become_user
  | report_equiv
  | reset_stats
  | backfill_wait
  | remove
  | gc_mark
  | gc_sweep
  | gc_status
  | clean_unused
  | refresh_token
  | set_perms
  | new_user
  | delete_user
  deriving DecidableEq

/-- The key under which a message has the request. -/
def Command.key : Command → Text
  | .ping => text "ping"
  | .get => text "get"
  | .get_outhash => text "get-outhash"
  | .get_stream => text "get-stream"
  | .exists_stream => text "exists-stream"
  | .get_stats => text "get-stats"
  | .get_db_usage => text "get-db-usage"
  | .get_db_query_columns => text "get-db-query-columns"
  | .report => text "report"
  | .auth => text "auth"
  | .get_user => text "get-user"
  | .get_all_users => text "get-all-users"
  | .become_user => text "become-user"
  | .report_equiv => text "report-equiv"
  | .reset_stats => text "reset-stats"
  | .backfill_wait => text "backfill-wait"
  | .remove => text "remove"
  | .gc_mark => text "gc-mark"
  | .gc_sweep => text "gc-sweep"
  | .gc_status => text "gc-status"
  | .clean_unused => text "clean-unused"
  | .refresh_token => text "refresh-token"
  | .set_perms => text "set-user-perms"
  | .new_user => text "new-user"
  | .delete_user => text "delete-user"

/-- `self.handlers`, in the order in which the message is searched for their keys. -/
def handlers (read_only : Bool) : List Command :=
  [.ping, .get, .get_outhash, .get_stream, .exists_stream, .get_stats, .get_db_usage,
    .get_db_query_columns, .report, .auth, .get_user, .get_all_users, .become_user] ++
  if read_only then []
  else [.report_equiv, .reset_stats, .backfill_wait, .remove, .gc_mark, .gc_sweep, .gc_status,
    .clean_unused, .refresh_token, .set_perms, .new_user, .delete_user]

structure Guard where
  permissions : List Text
  allow_anon : Bool := true
  allow_self_service : Bool := false

/-- The decorator of a handler. `ping` has none, and the authentication is always allowed. -/
def Command.guard : Command → Option Guard
  | .ping => none
  | .get => some { permissions := [READ_PERM] }
  | .get_outhash => some { permissions := [READ_PERM] }
  | .get_stream => some { permissions := [READ_PERM] }
  | .exists_stream => some { permissions := [READ_PERM] }
  | .get_stats => some { permissions := [READ_PERM] }
  | .get_db_usage => some { permissions := [DB_ADMIN_PERM] }
  | .get_db_query_columns => some { permissions := [DB_ADMIN_PERM] }
  | .report => some { permissions := [READ_PERM] }
  | .auth => none
  | .get_user => some ⟨[USER_ADMIN_PERM], false, true⟩
  | .get_all_users => some ⟨[USER_ADMIN_PERM], false, false⟩
  | .become_user => some ⟨[USER_ADMIN_PERM], false, false⟩
  | .report_equiv => some { permissions := [READ_PERM, REPORT_PERM] }
  | .reset_stats => some { permissions := [DB_ADMIN_PERM] }
  | .backfill_wait => some { permissions := [READ_PERM] }
  | .remove => some { permissions := [DB_ADMIN_PERM] }
  | .gc_mark => some { permissions := [DB_ADMIN_PERM] }
  | .gc_sweep => some { permissions := [DB_ADMIN_PERM] }
  | .gc_status => some { permissions := [DB_ADMIN_PERM] }
  | .clean_unused => some { permissions := [DB_ADMIN_PERM] }
  | .refresh_token => some ⟨[USER_ADMIN_PERM], false, true⟩
  | .set_perms => some ⟨[USER_ADMIN_PERM], false, false⟩
  | .new_user => some ⟨[USER_ADMIN_PERM], false, false⟩
  | .delete_user => some ⟨[USER_ADMIN_PERM], false, true⟩

/-- What ends a request without a response. Only an `InvokeError` is told to the client, and each of
them ends the connection. -/
inductive Raised
  | invokeError (message : Text)
  | clientError
  | keyError (key : Text)
  | typeError
  | attributeError
  | valueError
  deriving DecidableEq

def subscript (request : Json) (key : Text) : Except Raised Json :=
  match request with
  | .dict fields =>
    match fields.get? key with
    | some v => .ok v
    | none => .error (.keyError key)
  | _ => .error .typeError

/-- The handler that a message is for, with its request. -/
def dispatch (read_only : Bool) (message : Json) : Except Raised (Command × Json) :=
  match message with
  | .dict fields =>
    match (handlers read_only).find? fun c => c.key ∈ fields.keys with
    | some c => (subscript message c.key).map fun request => (c, request)
    | none => .error .clientError
  | _ => .error .typeError

/-! ## The server and its connections -/

/-- A server, of which the constructor has accepted the permissions of anonymous users. -/
structure Server where
  read_only : Bool
  anon_perms : List Text
  accepted : ∀ p ∈ anon_perms, p ∈ [NONE_PERM, READ_PERM, REPORT_PERM, DB_ADMIN_PERM]

def Server.init? (upstream read_only : Bool) (anon_perms : List Text) : Option Server :=
  if upstream && read_only then none
  else if h : ∀ p ∈ anon_perms, p ∈ [NONE_PERM, READ_PERM, REPORT_PERM, DB_ADMIN_PERM] then
    some ⟨read_only, anon_perms, h⟩
  else none

/-- A message of a client, with the lines that follow it when it opens a stream, and with the token
and the salt that the server makes when it needs new ones. -/
structure Request where
  message : Json
  lines : List Text
  token : Text
  salt : Text

/-- What a connection sees of the server: the users table, and `rest`, the tables of hashes with the
statistics and the backfill queue. -/
structure Connection (σ : Type) where
  users : Users
  rest : σ
  user : Option User
  closed : Bool

variable {σ : Type}

structure Env (σ : Type) where
  server : Server
  run : Command → Option User → Bool → Json → List Text → σ → σ × Except Raised (Option Json)
  hexdigest : Text → Text → Text → Option Text
  repr : Json → Text

/-- `str(v)`. -/
def Env.str (env : Env σ) : Json → Text
  | .null => text "None"
  | .bool true => text "True"
  | .bool false => text "False"
  | .number x => x.literal
  | .str s => s
  | v => env.repr v

def TOKEN_ALGORITHM : Text := text "sha256"

def Env.hash_token (env : Env σ) (algo salt token : Text) : Option Text :=
  (env.hexdigest algo salt token).map fun digest => [':'].intercalate [algo, salt, digest]

def user_has_permissions (server : Server) (user : Option User) (permissions : List Text)
    (allow_anon : Bool) : Bool :=
  if allow_anon = true ∧ (ALL_PERM ∈ server.anon_perms ∨ ∀ p ∈ permissions, p ∈ server.anon_perms)
  then true
  else match user with
    | none => false
    | some user => decide (ALL_PERM ∈ user.permissions ∨ ∀ p ∈ permissions, p ∈ user.permissions)

def refusal (user : Option User) (permissions : List Text) : Text :=
  (match user with
    | none => text "Anonymous user"
    | some user => user.username) ++
    text " is not allowed to access permissions(s) " ++ (text ", ").intercalate permissions

/-- `wrap`: whether the handler runs, and the request that it gets. -/
def wrap (server : Server) (user : Option User) (guard : Guard) (request : Json) :
    Except Raised Json :=
  let checked :=
    if user_has_permissions server user guard.permissions guard.allow_anon then .ok request
    else .error (.invokeError (refusal user guard.permissions))
  match user with
  | none => checked
  | some user =>
    if guard.allow_self_service then
      match request with
      | .dict fields =>
        let username := (fields.get? (text "username")).getD (.str user.username)
        if username = .str user.username then
          .ok (.dict (fields.set (text "username") (.str user.username)))
        else checked
      | _ => .error .attributeError
    else checked

/-! ## The handlers of users -/

def no_user_error (username : Text) : Raised :=
  .invokeError (text "No user named '" ++ username ++ text "' exists")

def auth_error (username : Text) : Raised :=
  .invokeError (text "Unable to authenticate as " ++ username)

/-- `str(request["username"])`. -/
def Env.username (env : Env σ) (request : Json) : Except Raised Text :=
  (subscript request (text "username")).map env.str

def dict (fields : List (Text × Json)) : Json :=
  .dict (fields.foldr (fun (key, v) rest => .cons key v rest) .nil)

def return_perms (permissions : List Text) : Json :=
  texts (if ALL_PERM ∈ permissions then sorted_set ALL_PERMISSIONS else sorted_set permissions)

/-- `get_perm_arg`. What is no text can be put in no message. -/
def get_perm_arg (arg : Json) : Except Raised (List Text) :=
  match arg with
  | .list items =>
    match items.toList.mapM fun v => match v with
      | .str s => some s
      | _ => none with
    | none => .error .typeError
    | some arg =>
      let arg := sorted_set (arg.filter (· ≠ NONE_PERM))
      let unknown_perms := arg.filter (· ∉ ALL_PERMISSIONS)
      if unknown_perms = [] then .ok arg
      else .error (.invokeError (text "Unknown permissions " ++ (text ", ").intercalate unknown_perms))
  | _ => .error (.invokeError (text "Unexpected type for permissions"))

/-- The user that has this token: the hash of the token is the one that the table has. -/
def Env.authenticate (env : Env σ) (users : Users) (username token : Text) : Except Raised User :=
  match lookup_user_token users username with
  | none => .error (auth_error username)
  | some (user, db_token) =>
    if db_token = [] then .error (auth_error username)
    else match db_token.splitOn ':' with
      | [algo, salt, _] =>
        match env.hash_token algo salt token with
        | none => .error .valueError
        | some hashed => if hashed ≠ db_token then .error (auth_error username) else .ok user
      | _ => .error (auth_error username)

def handle_auth (env : Env σ) (conn : Connection σ) (request : Json) :
    Except Raised (Connection σ × Json) := do
  let username ← env.username request
  let token ← (subscript request (text "token")).map env.str
  let user ← env.authenticate conn.users username token
  .ok ({ conn with user := some user },
    dict [(text "result", .bool true), (text "username", .str user.username),
      (text "permissions", texts (sorted_set user.permissions))])

/-- The hash that is stored of a new token. -/
def Env.stored_token (env : Env σ) (q : Request) : Except Raised Text :=
  match env.hash_token TOKEN_ALGORITHM q.salt q.token with
  | none => .error .valueError
  | some hashed => .ok hashed

def handle_refresh_token (env : Env σ) (conn : Connection σ) (q : Request) (request : Json) :
    Except Raised (Connection σ × Json) := do
  let username ← env.username request
  let hashed ← env.stored_token q
  let (users, updated) := set_user_token conn.users username hashed
  if updated then
    .ok ({ conn with users }, dict [(text "username", .str username), (text "token", .str q.token)])
  else .error (no_user_error username)

def handle_set_perms (env : Env σ) (conn : Connection σ) (request : Json) :
    Except Raised (Connection σ × Json) := do
  let username ← env.username request
  let permissions ← get_perm_arg (← subscript request (text "permissions"))
  let (users, updated) := set_user_perms conn.users username permissions
  if updated then
    .ok ({ conn with users },
      dict [(text "username", .str username), (text "permissions", return_perms permissions)])
  else .error (no_user_error username)

def user_dict (user : User) : Json :=
  dict [(text "username", .str user.username), (text "permissions", return_perms user.permissions)]

def handle_get_user (env : Env σ) (conn : Connection σ) (request : Json) :
    Except Raised (Connection σ × Json) := do
  let username ← env.username request
  match lookup_user conn.users username with
  | none => .ok (conn, .null)
  | some user => .ok (conn, user_dict user)

def handle_get_all_users (conn : Connection σ) : Except Raised (Connection σ × Json) :=
  .ok (conn, dict [(text "users", .list ((conn.users.rows.map map_user).foldr
    (fun user items => .cons (user_dict user) items) .nil))])

def handle_new_user (env : Env σ) (conn : Connection σ) (q : Request) (request : Json) :
    Except Raised (Connection σ × Json) := do
  let username ← env.username request
  let permissions ← get_perm_arg (← subscript request (text "permissions"))
  let hashed ← env.stored_token q
  let (users, inserted) := new_user conn.users username permissions hashed
  if inserted then
    .ok ({ conn with users }, dict [(text "username", .str username),
      (text "permissions", return_perms permissions), (text "token", .str q.token)])
  else .error (.invokeError (text "Cannot create new user '" ++ username ++ text "'"))

def handle_delete_user (env : Env σ) (conn : Connection σ) (request : Json) :
    Except Raised (Connection σ × Json) := do
  let username ← env.username request
  let (users, deleted) := delete_user conn.users username
  if deleted then .ok ({ conn with users }, dict [(text "username", .str username)])
  else .error (no_user_error username)

def handle_become_user (env : Env σ) (conn : Connection σ) (request : Json) :
    Except Raised (Connection σ × Json) := do
  let username ← env.username request
  match lookup_user conn.users username with
  | none => .error (.invokeError (text "User " ++ username ++ text " doesn't exist"))
  | some user => .ok ({ conn with user := some user }, user_dict user)

/-! ## A request -/

/-- What the handler of a command does, and its response. -/
def handle (env : Env σ) (conn : Connection σ) (q : Request) (c : Command) (request : Json) :
    Connection σ × Except Raised (Option Json) :=
  let told (result : Except Raised (Connection σ × Json)) :
      Connection σ × Except Raised (Option Json) :=
    match result with
    | .error e => (conn, .error e)
    | .ok (conn, reply) => (conn, .ok (some reply))
  match c with
  | .ping => (conn, .ok (some (dict [(text "alive", .bool true)])))
  | .auth => told (handle_auth env conn request)
  | .refresh_token => told (handle_refresh_token env conn q request)
  | .set_perms => told (handle_set_perms env conn request)
  | .get_user => told (handle_get_user env conn request)
  | .get_all_users => told (handle_get_all_users conn)
  | .new_user => told (handle_new_user env conn q request)
  | .delete_user => told (handle_delete_user env conn request)
  | .become_user => told (handle_become_user env conn request)
  | c =>
    let may_report := !env.server.read_only &&
      user_has_permissions env.server conn.user [REPORT_PERM] true
    let (rest, reply) := env.run c conn.user may_report request q.lines conn.rest
    ({ conn with rest }, reply)

/-- The handler that runs for a message, with the request that it gets. -/
def admitted (env : Env σ) (user : Option User) (message : Json) : Except Raised (Command × Json) := do
  let (c, request) ← dispatch env.server.read_only message
  match c.guard with
  | none => .ok (c, request)
  | some guard =>
    let request ← wrap env.server user guard request
    .ok (c, request)

/-- A turn of the loop of `process_requests`. The connection is closed at a message `null`, and when
something is raised. -/
def serve (env : Env σ) (conn : Connection σ) (q : Request) :
    Connection σ × Except Raised (Option Json) :=
  if conn.closed then (conn, .ok none)
  else if q.message = .null then ({ conn with closed := true }, .ok none)
  else match admitted env conn.user q.message with
    | .error e => ({ conn with closed := true }, .error e)
    | .ok (c, request) =>
      match handle env conn q c request with
      | (conn, .error e) => ({ conn with closed := true }, .error e)
      | (conn, .ok reply) => (conn, .ok reply)

def runs (env : Env σ) (conn : Connection σ) (q : Request) : Option (Command × Json) :=
  if conn.closed ∨ q.message = .null then none
  else match admitted env conn.user q.message with
    | .error _ => none
    | .ok call => some call

def opened (users : Users) (rest : σ) : Connection σ := ⟨users, rest, none, false⟩

def serveAll (env : Env σ) (conn : Connection σ) (requests : List Request) : Connection σ :=
  requests.foldl (fun conn q => (serve env conn q).1) conn

/-! ## What is allowed -/

/-- A user that may do everything to the users. -/
def User.is_admin (user : User) : Prop :=
  USER_ADMIN_PERM ∈ user.permissions ∨ ALL_PERM ∈ user.permissions

instance (user : User) : Decidable user.is_admin := instDecidableOr

/-- The anonymous users or the user of the connection have what the handler requires, or the user
asks about itself. -/
def Allowed (server : Server) (user : Option User) (c : Command) (request : Json) : Prop :=
  match c.guard with
  | none => True
  | some guard => (∀ p ∈ guard.permissions, p ∈ server.anon_perms) ∨ ∃ u, user = some u ∧
      ((∀ p ∈ guard.permissions, p ∈ u.permissions) ∨
        (guard.allow_self_service = true ∧
          subscript request (text "username") = .ok (.str u.username)))

/-- The message presents the token of a user: with the salt of the token that the table has, its
hash is the one that the table has. -/
def Presents (env : Env σ) (users : Users) (message : Json) (user : User) : Prop :=
  ∃ request username token db_token algo salt digest,
    dispatch env.server.read_only message = .ok (.auth, request) ∧
    env.username request = .ok username ∧
    (subscript request (text "token")).map env.str = .ok token ∧
    lookup_user_token users username = some (user, db_token) ∧
    db_token.splitOn ':' = [algo, salt, digest] ∧ env.hash_token algo salt token = some db_token

variable {env : Env σ} {conn : Connection σ} {user : Option User} {q : Request}

theorem all_not_anon (server : Server) : ALL_PERM ∉ server.anon_perms :=
  fun h => absurd (server.accepted _ h) (by decide)

theorem user_admin_not_anon (server : Server) : USER_ADMIN_PERM ∉ server.anon_perms :=
  fun h => absurd (server.accepted _ h) (by decide)

theorem user_has_permissions_iff (server : Server) (hadmin : ∀ u, user = some u → ¬u.is_admin)
    (permissions : List Text) (allow_anon : Bool) :
    user_has_permissions server user permissions allow_anon = true ↔
      (allow_anon = true ∧ ∀ p ∈ permissions, p ∈ server.anon_perms) ∨
        ∃ u, user = some u ∧ ∀ p ∈ permissions, p ∈ u.permissions := by
  unfold user_has_permissions
  simp only [all_not_anon, false_or]
  split
  · simp_all
  · rename_i hanon
    cases user with
    | none => simp [hanon]
    | some u =>
      have hall : ALL_PERM ∉ u.permissions := fun h => hadmin u rfl (Or.inr h)
      simp [hanon, hall]

theorem wrap_ok {server : Server} {guard : Guard} {request request' : Json}
    (h : wrap server user guard request = .ok request') :
    user_has_permissions server user guard.permissions guard.allow_anon = true ∨
      ∃ u, user = some u ∧ guard.allow_self_service = true ∧
        subscript request' (text "username") = .ok (.str u.username) := by
  by_contra hnot
  simp only [not_or, Bool.not_eq_true] at hnot
  obtain ⟨hperms, hself⟩ := hnot
  simp only [wrap, hperms, Bool.false_eq_true, ↓reduceIte] at h
  cases user with
  | none => simp at h
  | some u =>
    dsimp only at h
    split_ifs at h with hservice
    cases request with
    | dict fields =>
      dsimp only at h
      split_ifs at h with hname
      refine hself ⟨u, rfl, hservice, ?_⟩
      rw [← Except.ok.inj h]
      simp [subscript]
    | _ => simp at h

theorem admitted_ok {message : Json} {c : Command} {request : Json}
    (h : admitted env user message = .ok (c, request)) :
    ∃ sent, dispatch env.server.read_only message = .ok (c, sent) ∧
      ((c.guard = none ∧ request = sent) ∨
        ∃ guard, c.guard = some guard ∧ wrap env.server user guard sent = .ok request) := by
  simp only [admitted, bind, Except.bind] at h
  split at h
  · exact absurd h (by simp)
  · rename_i call hcall
    obtain ⟨c', sent⟩ := call
    dsimp only at h
    split at h
    · rename_i hguard
      obtain ⟨rfl, rfl⟩ := Prod.mk.inj (Except.ok.inj h)
      exact ⟨sent, hcall, Or.inl ⟨hguard, rfl⟩⟩
    · rename_i guard hguard
      split at h
      · exact absurd h (by simp)
      · rename_i request' hwrap
        obtain ⟨rfl, rfl⟩ := Prod.mk.inj (Except.ok.inj h)
        exact ⟨sent, hcall, Or.inr ⟨guard, hguard, hwrap⟩⟩

theorem allowed_of_admitted (hadmin : ∀ u, user = some u → ¬u.is_admin) {message : Json}
    {c : Command} {request : Json} (h : admitted env user message = .ok (c, request)) :
    Allowed env.server user c request := by
  obtain ⟨sent, -, ⟨hguard, -⟩ | ⟨guard, hguard, hwrap⟩⟩ := admitted_ok h
  · simp [Allowed, hguard]
  · simp only [Allowed, hguard]
    rcases wrap_ok hwrap with hperms | ⟨u, hu, hself⟩
    · rcases (user_has_permissions_iff env.server hadmin _ _).mp hperms with hanon | ⟨u, hu, huser⟩
      · exact Or.inl hanon.2
      · exact Or.inr ⟨u, hu, Or.inl huser⟩
    · exact Or.inr ⟨u, hu, Or.inr hself⟩

theorem self_service_of_allowed (hadmin : ∀ u, user = some u → ¬u.is_admin) {server : Server}
    {c : Command} {request : Json} {allow_anon self : Bool}
    (hguard : c.guard = some ⟨[USER_ADMIN_PERM], allow_anon, self⟩)
    (h : Allowed server user c request) : self = true ∧
      ∃ u, user = some u ∧ subscript request (text "username") = .ok (.str u.username) := by
  simp only [Allowed, hguard, List.forall_mem_singleton] at h
  rcases h with h | ⟨u, hu, h | h⟩
  · exact absurd h (user_admin_not_anon server)
  · exact absurd (Or.inl h) (hadmin u hu)
  · exact ⟨h.1, u, hu, h.2⟩

/-! ## What a handler changes -/

theorem set_user_token_get? (users : Users) {username name : Text} (token : Text)
    (h : name ≠ username) : (set_user_token users username token).1.get? name = users.get? name := by
  rw [set_user_token, Table.get?_update]
  cases hrow : users.get? name with
  | none => rfl
  | some row =>
    have := Table.key_of_get? hrow
    simp [named, this, h]

theorem delete_user_get? (users : Users) {username name : Text} (h : name ≠ username) :
    (delete_user users username).1.get? name = users.get? name := by
  rw [delete_user, Table.get?_delete]
  cases hrow : users.get? name with
  | none => rfl
  | some row =>
    have := Table.key_of_get? hrow
    simp [named, this, h]

/-- What a handler can do to the connection. -/
inductive Change (env : Env σ) (conn : Connection σ) : Command → Json → Connection σ → Prop
  | same (c : Command) (request : Json) : Change env conn c request conn
  | rest (c : Command) (request : Json) (rest : σ) : Change env conn c request { conn with rest }
  | auth {request : Json} {username token : Text} {user : User}
      (husername : env.username request = .ok username)
      (htoken : (subscript request (text "token")).map env.str = .ok token)
      (huser : env.authenticate conn.users username token = .ok user) :
      Change env conn .auth request { conn with user := some user }
  | refresh_token {request : Json} {username : Text} (hashed : Text)
      (husername : env.username request = .ok username) :
      Change env conn .refresh_token request
        { conn with users := (set_user_token conn.users username hashed).1 }
  | delete_user {request : Json} {username : Text}
      (husername : env.username request = .ok username) :
      Change env conn .delete_user request
        { conn with users := (delete_user conn.users username).1 }
  | set_perms (request : Json) (users : Users) : Change env conn .set_perms request { conn with users }
  | new_user (request : Json) (users : Users) : Change env conn .new_user request { conn with users }
  | become_user (request : Json) (user : User) :
      Change env conn .become_user request { conn with user := some user }

theorem handle_auth_ok {request reply : Json} {conn' : Connection σ}
    (h : handle_auth env conn request = .ok (conn', reply)) :
    Change env conn .auth request conn' := by
  obtain ⟨username, husername, h⟩ := bind_ok h
  obtain ⟨token, htoken, h⟩ := bind_ok h
  obtain ⟨user, huser, h⟩ := bind_ok h
  obtain ⟨rfl, -⟩ := Prod.mk.inj (Except.ok.inj h)
  exact .auth husername htoken huser

theorem handle_refresh_token_ok {request reply : Json} {conn' : Connection σ}
    (h : handle_refresh_token env conn q request = .ok (conn', reply)) :
    Change env conn .refresh_token request conn' := by
  obtain ⟨username, husername, h⟩ := bind_ok h
  obtain ⟨hashed, -, h⟩ := bind_ok h
  dsimp only at h
  split_ifs at h
  obtain ⟨rfl, -⟩ := Prod.mk.inj (Except.ok.inj h)
  exact .refresh_token hashed husername

theorem handle_delete_user_ok {request reply : Json} {conn' : Connection σ}
    (h : handle_delete_user env conn request = .ok (conn', reply)) :
    Change env conn .delete_user request conn' := by
  obtain ⟨username, husername, h⟩ := bind_ok h
  dsimp only at h
  split_ifs at h
  obtain ⟨rfl, -⟩ := Prod.mk.inj (Except.ok.inj h)
  exact .delete_user husername

theorem handle_set_perms_ok {request reply : Json} {conn' : Connection σ}
    (h : handle_set_perms env conn request = .ok (conn', reply)) :
    Change env conn .set_perms request conn' := by
  obtain ⟨username, -, h⟩ := bind_ok h
  obtain ⟨arg, -, h⟩ := bind_ok h
  obtain ⟨permissions, -, h⟩ := bind_ok h
  dsimp only at h
  split_ifs at h
  obtain ⟨rfl, -⟩ := Prod.mk.inj (Except.ok.inj h)
  exact .set_perms _ _

theorem handle_new_user_ok {request reply : Json} {conn' : Connection σ}
    (h : handle_new_user env conn q request = .ok (conn', reply)) :
    Change env conn .new_user request conn' := by
  obtain ⟨username, -, h⟩ := bind_ok h
  obtain ⟨arg, -, h⟩ := bind_ok h
  obtain ⟨permissions, -, h⟩ := bind_ok h
  obtain ⟨hashed, -, h⟩ := bind_ok h
  dsimp only at h
  split_ifs at h
  obtain ⟨rfl, -⟩ := Prod.mk.inj (Except.ok.inj h)
  exact .new_user _ _

theorem handle_become_user_ok {request reply : Json} {conn' : Connection σ}
    (h : handle_become_user env conn request = .ok (conn', reply)) :
    Change env conn .become_user request conn' := by
  obtain ⟨username, -, h⟩ := bind_ok h
  split at h
  · exact absurd h (by simp)
  · obtain ⟨rfl, -⟩ := Prod.mk.inj (Except.ok.inj h)
    exact .become_user _ _

theorem handle_get_user_ok {request reply : Json} {conn' : Connection σ}
    (h : handle_get_user env conn request = .ok (conn', reply)) : conn' = conn := by
  obtain ⟨username, -, h⟩ := bind_ok h
  split at h
  · exact (Prod.mk.inj (Except.ok.inj h)).1.symm
  · exact (Prod.mk.inj (Except.ok.inj h)).1.symm

theorem handle_change (env : Env σ) (conn : Connection σ) (q : Request) (c : Command)
    (request : Json) : Change env conn c request (handle env conn q c request).1 := by
  unfold handle
  cases c
  case auth =>
    dsimp only
    split
    · exact .same _ _
    · exact handle_auth_ok ‹_›
  case refresh_token =>
    dsimp only
    split
    · exact .same _ _
    · exact handle_refresh_token_ok ‹_›
  case set_perms =>
    dsimp only
    split
    · exact .same _ _
    · exact handle_set_perms_ok ‹_›
  case new_user =>
    dsimp only
    split
    · exact .same _ _
    · exact handle_new_user_ok ‹_›
  case delete_user =>
    dsimp only
    split
    · exact .same _ _
    · exact handle_delete_user_ok ‹_›
  case become_user =>
    dsimp only
    split
    · exact .same _ _
    · exact handle_become_user_ok ‹_›
  case get_user =>
    dsimp only
    split
    · exact .same _ _
    · rename_i heq
      rw [handle_get_user_ok heq]
      exact .same _ _
  case get_all_users => exact .same _ _
  case ping => exact .same _ _
  all_goals exact .rest _ _ _

theorem serve_change (env : Env σ) (conn : Connection σ) (q : Request) :
    ((serve env conn q).1.users = conn.users ∧ (serve env conn q).1.user = conn.user) ∨
      ∃ c request conn', runs env conn q = some (c, request) ∧ Change env conn c request conn' ∧
        (serve env conn q).1.users = conn'.users ∧ (serve env conn q).1.user = conn'.user := by
  unfold serve runs
  by_cases hclosed : conn.closed = true
  · simp [hclosed]
  by_cases hnull : q.message = .null
  · simp [hclosed, hnull]
  simp only [hclosed, hnull, ↓reduceIte]
  cases hadmitted : admitted env conn.user q.message with
  | error e => simp
  | ok call =>
    obtain ⟨c, request⟩ := call
    have hchange := handle_change env conn q c request
    right
    dsimp only
    generalize handle env conn q c request = outcome at hchange ⊢
    obtain ⟨conn', result⟩ := outcome
    refine ⟨c, request, conn', ?_, hchange, ?_⟩
    · simp
    · cases result <;> exact ⟨rfl, rfl⟩

/-! ## Privileges do not grow -/

theorem admitted_of_runs {c : Command} {request : Json} (h : runs env conn q = some (c, request)) :
    admitted env conn.user q.message = .ok (c, request) := by
  unfold runs at h
  split at h
  · exact absurd h (by simp)
  · split at h
    · exact absurd h (by simp)
    · rename_i heq
      rw [heq, Option.some.inj h]

theorem own_row_of_changed (hadmin : ∀ u, conn.user = some u → ¬u.is_admin) {name : Text}
    (h : (serve env conn q).1.users.get? name ≠ conn.users.get? name) :
    ∃ c request u, runs env conn q = some (c, request) ∧ (c = .refresh_token ∨ c = .delete_user) ∧
      conn.user = some u ∧ u.username = name := by
  rcases serve_change env conn q with ⟨husers, -⟩ | ⟨c, request, conn', hruns, hchange, husers, -⟩
  · exact absurd (by rw [husers]) h
  rw [husers] at h
  have hallowed := allowed_of_admitted hadmin (admitted_of_runs hruns)
  have hself : ∀ allow_anon self, c.guard = some ⟨[USER_ADMIN_PERM], allow_anon, self⟩ →
      self = true ∧ ∃ u, conn.user = some u ∧ env.username request = .ok u.username := by
    intro allow_anon self hguard
    obtain ⟨hself, u, hu, hname⟩ := self_service_of_allowed hadmin hguard hallowed
    exact ⟨hself, u, hu, by simp [Env.username, hname, Except.map, Env.str]⟩
  cases hchange with
  | same => exact absurd rfl h
  | rest => exact absurd rfl h
  | auth => exact absurd rfl h
  | become_user => exact absurd rfl h
  | refresh_token hashed husername =>
    obtain ⟨-, u, hu, hname⟩ := hself false true rfl
    refine ⟨_, _, u, hruns, Or.inl rfl, hu, ?_⟩
    by_contra hne
    rw [hname] at husername
    exact h (set_user_token_get? _ _ fun heq => hne (by rw [Except.ok.inj husername, heq]))
  | delete_user husername =>
    obtain ⟨-, u, hu, hname⟩ := hself false true rfl
    refine ⟨_, _, u, hruns, Or.inr rfl, hu, ?_⟩
    by_contra hne
    rw [hname] at husername
    exact h (delete_user_get? _ fun heq => hne (by rw [Except.ok.inj husername, heq]))
  | set_perms => exact absurd (hself false false rfl).1 (by simp)
  | new_user => exact absurd (hself false false rfl).1 (by simp)

theorem authenticate_ok {users : Users} {username token : Text} {user : User}
    (h : env.authenticate users username token = .ok user) :
    ∃ db_token algo salt digest, lookup_user_token users username = some (user, db_token) ∧
      db_token.splitOn ':' = [algo, salt, digest] ∧
      env.hash_token algo salt token = some db_token := by
  unfold Env.authenticate at h
  split at h
  · exact absurd h (by simp)
  · rename_i u db_token hrow
    split_ifs at h with hempty
    split at h
    · rename_i algo salt digest hparts
      split at h
      · exact absurd h (by simp)
      · rename_i hashed hhash
        split_ifs at h with hne
        rw [not_not] at hne
        obtain rfl := Except.ok.inj h
        exact ⟨db_token, algo, salt, digest, hrow, hparts, hne ▸ hhash⟩
    · exact absurd h (by simp)

theorem presents_of_user (hadmin : ∀ u, conn.user = some u → ¬u.is_admin) {u : User}
    (h : (serve env conn q).1.user = some u) :
    conn.user = some u ∨ Presents env conn.users q.message u := by
  rcases serve_change env conn q with ⟨-, huser⟩ | ⟨c, request, conn', hruns, hchange, -, huser⟩
  · exact Or.inl (huser ▸ h)
  rw [huser] at h
  have hadmitted := admitted_of_runs hruns
  cases hchange with
  | auth husername htoken hu =>
    right
    obtain rfl := Option.some.inj h
    obtain ⟨sent, hdispatch, ⟨-, rfl⟩ | ⟨guard, hguard, -⟩⟩ := admitted_ok hadmitted
    · obtain ⟨db_token, algo, salt, digest, hrow, hparts, hhash⟩ := authenticate_ok hu
      exact ⟨_, _, _, db_token, algo, salt, digest, hdispatch, husername, htoken, hrow, hparts,
        hhash⟩
    · exact absurd hguard (by simp [Command.guard])
  | become_user =>
    have hallowed := allowed_of_admitted hadmin hadmitted
    have hguard : Command.become_user.guard = some ⟨[USER_ADMIN_PERM], false, false⟩ := rfl
    exact absurd (self_service_of_allowed hadmin hguard hallowed).1 (by simp)
  | _ => exact Or.inl h

theorem serveAll_concat (env : Env σ) (conn : Connection σ) (before : List Request) (q : Request) :
    serveAll env conn (before ++ [q]) = (serve env (serveAll env conn before) q).1 := by
  simp [serveAll]

/-- As long as the user of the connection has no administrator rights, its requests change at most
its own row, by `refresh-token` and `delete-user`; every user of the connection has presented its
token; and every handler that runs is allowed. -/
theorem privileges_do_not_grow (env : Env σ) (users : Users) (rest : σ) (requests : List Request)
    (hadmin : ∀ before, before <+: requests → ∀ u,
      (serveAll env (opened users rest) before).user = some u → ¬u.is_admin) :
    (∀ before q, before ++ [q] <+: requests → ∀ name,
      (serveAll env (opened users rest) (before ++ [q])).users.get? name ≠
          (serveAll env (opened users rest) before).users.get? name →
        ∃ c request u, runs env (serveAll env (opened users rest) before) q = some (c, request) ∧
          (c = .refresh_token ∨ c = .delete_user) ∧
          (serveAll env (opened users rest) before).user = some u ∧ u.username = name) ∧
    (∀ before, before <+: requests → ∀ u,
      (serveAll env (opened users rest) before).user = some u →
        ∃ earlier q, earlier ++ [q] <+: before ∧
          Presents env (serveAll env (opened users rest) earlier).users q.message u) ∧
    ∀ before q, before ++ [q] <+: requests → ∀ c request,
      runs env (serveAll env (opened users rest) before) q = some (c, request) →
        Allowed env.server (serveAll env (opened users rest) before).user c request := by
  have hbefore : ∀ {before : List Request} {q}, before ++ [q] <+: requests → before <+: requests :=
    fun h => (List.prefix_append _ _).trans h
  refine ⟨fun before q hq name hne => ?_, fun before => ?_, fun before q hq c request hruns => ?_⟩
  · rw [serveAll_concat] at hne
    exact own_row_of_changed (hadmin before (hbefore hq)) hne
  · induction before using List.reverseRecOn with
    | nil =>
      intro _ u hu
      simp [serveAll, opened] at hu
    | append_singleton before q ih =>
      intro hq u hu
      rw [serveAll_concat] at hu
      rcases presents_of_user (hadmin before (hbefore hq)) hu with hu | hpresents
      · obtain ⟨earlier, q', hprefix, hpresents⟩ := ih (hbefore hq) u hu
        exact ⟨earlier, q', hprefix.trans (List.prefix_append _ _), hpresents⟩
      · exact ⟨before, q, List.prefix_rfl, hpresents⟩
  · exact allowed_of_admitted (hadmin before (hbefore hq)) (admitted_of_runs hruns)

def plain : Env Unit where
  server := ⟨false, [READ_PERM], by decide⟩
  run _ _ _ _ _ rest := (rest, .ok none)
  hexdigest _ salt token := some (salt ++ token)
  repr _ := []

def twoUsers : Users :=
  ⟨[⟨text "alice", text "sha256:1:1secret", text "@read"⟩, ⟨text "root", text "sha256:2:2x", text "@all"⟩],
    by decide⟩

def asksAuth : Request :=
  ⟨dict [(text "auth", dict [(text "username", .str (text "alice")),
    (text "token", .str (text "secret"))])], [], [], []⟩

def asksToken : Request := ⟨dict [(text "refresh-token", dict [])], [], text "new", text "3"⟩

theorem alice_changes_her_row :
    (serveAll plain (opened twoUsers ()) [asksAuth, asksToken]).users.get? (text "alice") ≠
        (serveAll plain (opened twoUsers ()) [asksAuth]).users.get? (text "alice") ∧
      ∃ c request u,
        runs plain (serveAll plain (opened twoUsers ()) [asksAuth]) asksToken = some (c, request) ∧
        (c = .refresh_token ∨ c = .delete_user) ∧
        (serveAll plain (opened twoUsers ()) [asksAuth]).user = some u ∧
        u.username = text "alice" := by
  have hrow : (serveAll plain (opened twoUsers ()) [asksAuth, asksToken]).users.get? (text "alice") ≠
      (serveAll plain (opened twoUsers ()) [asksAuth]).users.get? (text "alice") := by
    decide +kernel
  have hadmin : ∀ before ∈ [asksAuth, asksToken].inits,
      ∀ u ∈ (serveAll plain (opened twoUsers ()) before).user, ¬u.is_admin := by
    decide +kernel
  exact ⟨hrow, (privileges_do_not_grow plain twoUsers () [asksAuth, asksToken]
    fun before h u hu => hadmin before ((List.mem_inits _ _).mpr h) u hu).1 [asksAuth] asksToken
    List.prefix_rfl (text "alice") hrow⟩

end yocto.user_access
