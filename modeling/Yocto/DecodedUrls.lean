-- URLs that are taken apart and put together (decodeurl and encodeurl of bb.fetch2).
import Yocto.Backtracking
import Yocto.FreshKeys
import Yocto.PercentCodes
import Yocto.Raising

open yocto.task_ids yocto.ordered_dict yocto.backtracking yocto.percent_codes yocto.raising

namespace yocto.decoded_urls

/-! ## decodeurl -/

inductive Raised
  | malformed_url (msg : Text)
  | unbound_local_error
  | missing_parameter_error (missing : Text)
  deriving DecidableEq

/-- A `MalformedUrl`, with the message that is used when none is given. -/
def malformed_url (url message : Text) : Raised :=
  .malformed_url (if message = [] then
    text "The URL: '" ++ url ++ text "' is invalid and cannot be interpreted" else message)

structure Decoded where
  type : Text
  host : Text
  path : Text
  user : Text
  pswd : Text
  p : OrderedDict Text Text
  deriving DecidableEq

/-- The groups of `(?P<type>[^:]*)://((?P<user>[^/;]+)@)?(?P<location>[^;]+)(;(?P<parm>.*))?`. -/
structure Groups where
  type : Text
  user : Option Text
  location : Text
  parm : Option Text

def user_class (c : Char) : Bool := c ≠ '/' && c ≠ ';'

/-- `((?P<user>[^/;]+)@)`. -/
def user_group (s : Text) : List (Text × Text) :=
  (greedy1 user_class s).flatMap fun x => (literal ['@'] x.2).map fun s => (x.1, s)

/-- `(;(?P<parm>.*))`. -/
def parm_group (s : Text) : List (Text × Text) := (literal [';'] s).flatMap (greedy (· ≠ '\n'))

/-- The matches behind the type. -/
def location_matches (type s : Text) : List Groups :=
  (at_most_one user_group s).flatMap fun x =>
    (greedy1 (· ≠ ';') x.2).flatMap fun y =>
      (at_most_one parm_group y.2).map fun z => ⟨type, x.1, y.1, z.1⟩

def url_matches (url : Text) : List Groups :=
  (greedy (· ≠ ':') url).flatMap fun x => (literal (text "://") x.2).flatMap (location_matches x.1)

/-- The matches of `(?P<user>[^:]+)(:?(?P<pswd>.*))`. -/
def user_matches (user : Text) : List (Text × Text) :=
  (greedy1 (· ≠ ':') user).flatMap fun x =>
    (at_most_one (fun s => (literal [':'] s).map fun s => ((), s)) x.2).flatMap fun y =>
      (greedy (· ≠ '\n') y.2).map fun z => (x.1, z.1)

/-- The user and the password. The password is not assigned when a user does not match. -/
def user_and_pswd : Option Text → Text × Option Text
  | none => ([], some [])
  | some user =>
    match (user_matches user).head? with
    | some (user, pswd) => (user, some pswd)
    | none => (user, none)

def lower (s : Text) : Text := s.map Char.toLower

def host_and_path (type location : Text) : Text × Text :=
  if '/' ∈ location ∧ lower type ≠ text "file" then (location.takeWhile (· ≠ '/'), location.dropWhile (· ≠ '/'))
  else if lower type = text "file" then ([], location)
  else (location, ['/'])

def parameter (url : Text) (p : OrderedDict Text Text) (s : Text) : Except Raised (OrderedDict Text Text) :=
  if s = [] then .ok p
  else if '=' ∉ s then
    .error (malformed_url url (text "The URL: '" ++ url ++ text "' is invalid: parameter " ++ s ++
      text " does not specify a value (missing '=')"))
  else .ok (p.set (s.takeWhile (· ≠ '=')) (s.dropWhile (· ≠ '=')).tail)

def parameters (url parm : Text) : Except Raised (OrderedDict Text Text) := (parm.splitOn ';').foldlM (parameter url) []

def decodeurl (url : Text) : Except Raised Decoded :=
  match (url_matches url).head? with
  | none => .error (malformed_url url [])
  | some m => do
    let (host, path) := host_and_path m.type m.location
    let (user, pswd) := user_and_pswd m.user
    let p ← parameters url (m.parm.getD [])
    match pswd with
    | some pswd => .ok ⟨m.type, host, unquote path, user, pswd, p⟩
    | none => .error .unbound_local_error

/-! ## encodeurl -/

/-- `path.replace("//", "/")`. -/
def replace_slashes : Text → Text
  | '/' :: '/' :: path => '/' :: replace_slashes path
  | c :: path => c :: replace_slashes path
  | [] => []

/-- So many turns of the loop that standardises a path. -/
def standard_loop : Nat → Text → Text
  | 0, path => path
  | n + 1, path => if ['/', '/'] <:+: path then standard_loop n (replace_slashes path) else path

/-- Each turn makes the path shorter. -/
def standard_path (path : Text) : Text := standard_loop path.length path

def parameter_text (x : Text × Text) : Text := ';' :: x.1 ++ '=' :: x.2

def encodeurl (decoded : Decoded) : Except Raised Text :=
  if decoded.type = [] then .error (.missing_parameter_error (text "type"))
  else .ok (decoded.type ++ text "://" ++
    (if decoded.user ≠ [] ∧ decoded.type ≠ text "file" then
      decoded.user ++ (if decoded.pswd ≠ [] then ':' :: decoded.pswd else []) ++ ['@'] else []) ++
    (if decoded.host ≠ [] ∧ decoded.type ≠ text "file" then decoded.host else []) ++
    (if decoded.path ≠ [] then quote (standard_path decoded.path) else []) ++
    decoded.p.flatMap parameter_text)

/-! ## URLs that come back -/

/-- Two slashes, one after the other. -/
def RepeatedSlashes (path : Text) : Prop := ['/', '/'] <:+: path

/-- What holds of the parts of an URL whose type is not file. -/
structure Remote (t : Decoded) : Prop where
  host : ∀ c ∈ t.host, c ≠ '/' ∧ c ≠ ';' ∧ c ≠ '@'
  path : t.path.head? = some '/'
  user : ∀ c ∈ t.user, c ≠ '/' ∧ c ≠ ';' ∧ c ≠ '@' ∧ c ≠ ':'
  pswd : ∀ c ∈ t.pswd, c ≠ '/' ∧ c ≠ ';' ∧ c ≠ '@' ∧ c ≠ '\n'
  pswd_of_user : t.user = [] → t.pswd = []
  /-- The type is not file in other letters, unless there is no host. -/
  host_of_type : lower t.type = text "file" → t.host = []

structure Regular (t : Decoded) : Prop where
  type_given : t.type ≠ []
  type : ∀ c ∈ t.type, c ≠ ':' ∧ c ≠ '/'
  path_given : t.path ≠ []
  path : ¬RepeatedSlashes t.path
  file : t.type = text "file" → t.host = [] ∧ t.user = [] ∧ t.pswd = []
  remote : t.type ≠ text "file" → Remote t
  names : ∀ x ∈ t.p, ∀ c ∈ x.1, c ≠ ';' ∧ c ≠ '\n' ∧ c ≠ '='
  values : ∀ x ∈ t.p, ∀ c ∈ x.2, c ≠ ';' ∧ c ≠ '\n'
  distinct : (t.p.map Prod.fst).Nodup

/-! ### Parameters -/

def entry (x : Text × Text) : Text := x.1 ++ '=' :: x.2

theorem parameter_text_eq (x : Text × Text) : parameter_text x = ';' :: entry x := rfl

def joined (p : OrderedDict Text Text) : Text := [';'].intercalate (p.map entry)

theorem flatMap_parameter_text {p : OrderedDict Text Text} (hp : p ≠ []) :
    p.flatMap parameter_text = ';' :: joined p := by
  induction p with
  | nil => exact absurd rfl hp
  | cons x p ih =>
    cases p with
    | nil => simp [joined, parameter_text_eq]
    | cons y p =>
      rw [List.flatMap_cons, ih (by simp), parameter_text_eq]
      simp [joined, List.intercalate]

variable {t : Decoded}

theorem mem_entry (h : Regular t) {x : Text × Text} (hx : x ∈ t.p) {c : Char} (hc : c ∈ entry x) : c ≠ ';' ∧ c ≠ '\n' := by
  rcases List.mem_append.mp hc with hc | hc
  · exact ⟨(h.names x hx c hc).1, (h.names x hx c hc).2.1⟩
  · rcases List.mem_cons.mp hc with rfl | hc
    · decide
    · exact h.values x hx c hc

theorem mem_joined (h : Regular t) {c : Char} (hc : c ∈ joined t.p) : c ≠ '\n' := by
  by_cases hp : t.p = []
  · rw [hp] at hc
    cases hc
  · have hmem : c ∈ t.p.flatMap parameter_text := by
      rw [flatMap_parameter_text hp]
      exact List.mem_cons_of_mem _ hc
    obtain ⟨x, hx, hcx⟩ := List.mem_flatMap.mp hmem
    rcases List.mem_cons.mp hcx with rfl | hcx
    · decide
    · exact (mem_entry h hx hcx).2

theorem parameter_entry (url : Text) (p : OrderedDict Text Text) {x : Text × Text} (hx : '=' ∉ x.1) :
    parameter url p (entry x) = .ok (p.set x.1 x.2) := by
  have hne : entry x ≠ [] := by simp [entry]
  have hequals : '=' ∈ entry x := by simp [entry]
  have hall : ∀ c ∈ x.1, (decide (c ≠ '=')) = true := fun c hc => by simpa using ne_of_mem_of_not_mem hc hx
  unfold parameter
  rw [if_neg hne, if_neg (not_not.mpr hequals)]
  unfold entry
  rw [List.takeWhile_append_of_pos hall, List.dropWhile_append_of_pos hall]
  simp

theorem parameters_joined (h : Regular t) (url : Text) : parameters url (joined t.p) = .ok t.p := by
  have hfold : ∀ (p d : OrderedDict Text Text), (∀ x ∈ p, '=' ∉ x.1) →
      (p.map entry).foldlM (parameter url) d = .ok (OrderedDict.fill d p) := by
    intro p
    induction p with
    | nil => exact fun d _ => rfl
    | cons x p ih =>
      intro d hp
      rw [List.forall_mem_cons] at hp
      rw [List.map_cons, List.foldlM_cons, parameter_entry url d hp.1]
      exact ih _ hp.2
  have hequals : ∀ x ∈ t.p, '=' ∉ x.1 := fun x hx hc => (h.names x hx _ hc).2.2 rfl
  unfold parameters
  by_cases hp : t.p = []
  · rw [hp]
    rfl
  · have hsplit : (joined t.p).splitOn ';' = t.p.map entry := by
      apply List.splitOn_intercalate
      · intro s hs hc
        obtain ⟨x, hx, rfl⟩ := List.mem_map.mp hs
        exact (mem_entry h hx hc).1 rfl
      · simpa using hp
    rw [hsplit, hfold t.p [] hequals, OrderedDict.fill_fresh (by simpa using h.distinct)]
    rfl

/-! ### The regular expressions -/

abbrev parm_text (t : Decoded) : Text := t.p.flatMap parameter_text

theorem parm_text_head (t : Decoded) : ∀ c ∈ (parm_text t).head?, c = ';' := by
  unfold parm_text
  cases t.p with
  | nil => simp
  | cons x p => simp [parameter_text]

theorem parm_first (h : Regular t) :
    ∃ parm more, at_most_one parm_group (parm_text t) = (parm, []) :: more ∧ parm.getD [] = joined t.p := by
  unfold parm_text
  by_cases hp : t.p = []
  · rw [hp]
    exact ⟨none, [], rfl, rfl⟩
  · obtain ⟨more, hmore⟩ := greedy_first (p := fun c : Char => decide (c ≠ '\n')) (s := [])
      (fun c hc => by simpa using mem_joined h hc) (by simp)
    rw [List.append_nil] at hmore
    refine ⟨some (joined t.p), (more.map fun x => (some x.1, x.2)) ++ [(none, ';' :: joined t.p)], ?_, rfl⟩
    rw [flatMap_parameter_text hp]
    unfold at_most_one parm_group
    rw [show ';' :: joined t.p = [';'] ++ joined t.p from rfl, literal_append, List.flatMap_singleton, hmore]
    rfl

theorem location_first (h : Regular t) (type : Text) (user : Option Text) {location : Text} (hne : location ≠ [])
    (hlocation : ∀ c ∈ location, c ≠ ';') :
    ∃ parm, ((greedy1 (fun c : Char => decide (c ≠ ';')) (location ++ parm_text t)).flatMap fun y =>
        (at_most_one parm_group y.2).map fun z => (⟨type, user, y.1, z.1⟩ : Groups)).head? =
          some ⟨type, user, location, parm⟩ ∧ parm.getD [] = joined t.p := by
  obtain ⟨parm, more, hparm, hjoined⟩ := parm_first h
  obtain ⟨more', hmore'⟩ := greedy1_first (p := fun c : Char => decide (c ≠ ';')) (s := parm_text t) hne
    (fun c hc => by simpa using hlocation c hc) (fun c hc => by simpa using parm_text_head t c hc)
  refine ⟨parm, first_of_cons hmore' ?_, hjoined⟩
  rw [hparm]
  rfl

theorem url_first (type s : Text) (htype : ∀ c ∈ type, c ≠ ':') {m : Groups}
    (hm : (location_matches type s).head? = some m) : (url_matches (type ++ (text "://" ++ s))).head? = some m := by
  obtain ⟨more, hmore⟩ := greedy_first (p := fun c : Char => decide (c ≠ ':')) (s := text "://" ++ s)
    (fun c hc => by simpa using htype c hc) (by
      intro c hc
      obtain rfl : ':' = c := Option.some.inj hc
      rfl)
  apply first_of_cons hmore
  rw [literal_append, List.flatMap_singleton]
  exact hm

theorem no_at {s a b : Text} (hs : s = a ++ b) (ha : '@' ∉ a) (hb : ∀ c ∈ b.head?, user_class c = false) :
    ∀ x ∈ greedy user_class s, literal ['@'] x.2 = [] := by
  intro x hx
  obtain ⟨hsplit, hall⟩ := mem_greedy hx
  apply literal_ne
  rintro ⟨rest, hrest⟩
  rw [hs, ← hrest] at hsplit
  rcases List.append_eq_append_iff.mp hsplit with ⟨z, hx, hz⟩ | ⟨z, hx, hz⟩
  · cases z with
    | nil =>
      rw [List.nil_append] at hz
      have hat := hb '@' (by simp [hz])
      exact absurd hat (by decide)
    | cons c z =>
      have hc := hb c (by simp [hz])
      rw [hall c (by simp [hx])] at hc
      cases hc
  · cases z with
    | nil =>
      rw [List.nil_append] at hz
      have hat := hb '@' (by simp [← hz])
      exact absurd hat (by decide)
    | cons c z =>
      obtain rfl : '@' = c := (List.cons.inj hz).1
      exact ha (by simp [hx])

theorem user_group_none {s : Text} (hs : ∀ x ∈ greedy user_class s, literal ['@'] x.2 = []) : user_group s = [] := by
  unfold user_group
  rw [List.flatMap_eq_nil_iff]
  intro x hx
  rw [hs x (mem_greedy1 hx).1]
  rfl

theorem user_group_first {user s : Text} (hne : user ≠ []) (huser : ∀ c ∈ user, user_class c)
    (hs : ∀ x ∈ greedy user_class s, literal ['@'] x.2 = []) :
    ∃ more, user_group (user ++ '@' :: s) = (user, s) :: more := by
  obtain ⟨c, user, rfl⟩ := List.exists_cons_of_ne_nil hne
  rw [List.forall_mem_cons] at huser
  obtain ⟨shorter, hshorter⟩ := greedy_append huser.2 ('@' :: s)
  unfold user_group
  rw [List.cons_append, greedy1_cons, if_pos huser.1, hshorter, greedy_cons, if_pos (by decide)]
  simp only [List.map_append, List.flatMap_append, List.map_map, List.flatMap_map, List.append_assoc,
    Function.comp_apply]
  have hlonger : ((greedy user_class s).flatMap fun x =>
      (literal ['@'] x.2).map fun rest => (c :: (user ++ '@' :: x.1), rest)) = [] := by
    rw [List.flatMap_eq_nil_iff]
    intro x hx
    rw [hs x hx]
    rfl
  rw [hlonger, List.flatMap_singleton]
  change ∃ more, [] ++ ((literal ['@'] (['@'] ++ s)).map _ ++ _) = _
  rw [literal_append]
  exact ⟨_, by simp; rfl⟩

/-! ### The parts -/

theorem standard_path_eq {path : Text} (h : ¬RepeatedSlashes path) : standard_path path = path := by
  unfold standard_path
  cases path.length with
  | zero => rfl
  | succ n => exact if_neg h

theorem quote_slash (path : Text) : quote ('/' :: path) = '/' :: quote path := by
  unfold quote encode
  rw [List.flatMap_cons, List.flatMap_append]
  rfl

theorem quote_plain {path : Text} {c : Char} (hc : c ∈ quote path) : c ≠ ';' ∧ c ≠ '@' := by
  rcases mem_quote hc with hsafe | rfl
  · constructor <;> rintro rfl <;> exact absurd hsafe (by decide)
  · decide

theorem quote_ne_nil {path : Text} (h : path ≠ []) : quote path ≠ [] := by
  intro hquote
  have hback := unquote_quote path
  rw [hquote] at hback
  exact h hback.symm

theorem decode_of_match (h : Regular t) {url location : Text} (user parm : Option Text)
    (hmatch : (url_matches url).head? = some ⟨t.type, user, location, parm⟩) (hparm : parm.getD [] = joined t.p)
    (hlocation : host_and_path t.type location = (t.host, quote t.path))
    (huser : user_and_pswd user = (t.user, some t.pswd)) : decodeurl url = .ok t := by
  unfold decodeurl
  rw [hmatch]
  simp only [hparm, hlocation, huser, parameters_joined h, unquote_quote, bind, Except.bind]

theorem user_and_pswd_joined {user pswd : Text} (hne : user ≠ []) (huser : ∀ c ∈ user, c ≠ ':')
    (hpswd : ∀ c ∈ pswd, c ≠ '\n') :
    user_and_pswd (some (user ++ if pswd ≠ [] then ':' :: pswd else [])) = (user, some pswd) := by
  obtain ⟨more, hmore⟩ := greedy1_first (p := fun c : Char => decide (c ≠ ':'))
    (s := if pswd ≠ [] then ':' :: pswd else []) hne (fun c hc => by simpa using huser c hc) (by
      intro c hc
      split at hc
      · obtain rfl : ':' = c := Option.some.inj hc
        rfl
      · cases hc)
  have hfirst : (user_matches (user ++ if pswd ≠ [] then ':' :: pswd else [])).head? = some (user, pswd) := by
    apply first_of_cons hmore
    by_cases hp : pswd = []
    · rw [hp]
      rfl
    · obtain ⟨more', hmore'⟩ := greedy_first (p := fun c : Char => decide (c ≠ '\n')) (s := [])
        (fun c hc => by simpa using hpswd c hc) (by simp)
      rw [List.append_nil] at hmore'
      rw [if_pos hp]
      have hgroup : ((fun s => (literal [':'] s).map fun s => ((), s)) : Text → List (Unit × Text)) (':' :: pswd) =
          [((), pswd)] := congrArg (List.map _) (literal_append [':'] pswd)
      apply first_of_cons (at_most_one_first hgroup)
      rw [hmore']
      rfl
  unfold user_and_pswd
  simp only [hfirst]

theorem host_and_path_remote (hremote : Remote t) : host_and_path t.type (t.host ++ quote t.path) = (t.host, quote t.path) := by
  obtain ⟨path, hpath⟩ : ∃ path, t.path = '/' :: path := by
    have hhead := hremote.path
    cases hp : t.path with
    | nil => simp [hp] at hhead
    | cons c path =>
      rw [hp] at hhead
      exact ⟨path, by rw [Option.some.inj hhead]⟩
  unfold host_and_path
  by_cases hfile : lower t.type = text "file"
  · rw [if_neg fun hslash => hslash.2 hfile, if_pos hfile, hremote.host_of_type hfile]
    rfl
  · have hall : ∀ c ∈ t.host, (decide (c ≠ '/')) = true := fun c hc => by simpa using (hremote.host c hc).1
    rw [hpath, quote_slash, if_pos ⟨by simp, hfile⟩, List.takeWhile_append_of_pos hall,
      List.dropWhile_append_of_pos hall]
    simp

theorem location_plain {host : Text} (path : Text) (hhost : ∀ c ∈ host, c ≠ ';') :
    ∀ c ∈ host ++ quote path, c ≠ ';' := by
  intro c hc
  rcases List.mem_append.mp hc with hc | hc
  · exact hhost c hc
  · exact (quote_plain hc).1

theorem decode_encode_remote (h : Regular t) (hfile : t.type ≠ text "file") (hremote : Remote t) :
    ∃ url, encodeurl t = .ok url ∧ decodeurl url = .ok t := by
  have hne : t.host ++ quote t.path ≠ [] := List.append_ne_nil_of_right_ne_nil _ (quote_ne_nil h.path_given)
  have hplain := location_plain t.path fun c hc => (hremote.host c hc).2.1
  have hhost : (if t.host ≠ [] ∧ t.type ≠ text "file" then t.host else []) = t.host := by
    by_cases hempty : t.host = [] <;> simp [hempty, hfile]
  -- what follows the user has no at sign where a user could end
  have hno_at : ∀ x ∈ greedy user_class (t.host ++ quote t.path ++ parm_text t), literal ['@'] x.2 = [] := by
    apply no_at (List.append_assoc _ _ _) fun hat => (hremote.host _ hat).2.2 rfl
    cases hp : t.path with
    | nil => exact absurd hp h.path_given
    | cons c path =>
      have hhead := hremote.path
      rw [hp] at hhead
      obtain rfl : c = '/' := Option.some.inj hhead
      rw [quote_slash]
      intro c hc
      obtain rfl : '/' = c := Option.some.inj hc
      rfl
  by_cases huser : t.user = []
  · obtain ⟨parm, hhead, hparm⟩ := location_first h t.type none hne hplain
    refine ⟨_, if_neg h.type_given, ?_⟩
    rw [huser, if_neg (by simp), hhost, if_pos h.path_given, standard_path_eq h.path]
    apply decode_of_match h none parm _ hparm (host_and_path_remote hremote)
    · rw [huser, hremote.pswd_of_user huser]
      rfl
    · have hgroup := at_most_one_none (user_group_none hno_at)
      have hmatches := url_first t.type _ (fun c hc => (h.type c hc).1) (first_of_cons hgroup hhead)
      simpa using hmatches
  · have hu : ∀ c ∈ t.user ++ (if t.pswd ≠ [] then ':' :: t.pswd else []), user_class c = true := by
      intro c hc
      rcases List.mem_append.mp hc with hc | hc
      · simp [user_class, hremote.user c hc]
      · split at hc
        · rcases List.mem_cons.mp hc with rfl | hc
          · rfl
          · simp [user_class, hremote.pswd c hc]
        · cases hc
    obtain ⟨more, hmore⟩ := user_group_first (List.append_ne_nil_of_left_ne_nil huser _) hu hno_at
    obtain ⟨parm, hhead, hparm⟩ := location_first h t.type
      (some (t.user ++ if t.pswd ≠ [] then ':' :: t.pswd else [])) hne hplain
    refine ⟨_, if_neg h.type_given, ?_⟩
    rw [if_pos ⟨huser, hfile⟩, hhost, if_pos h.path_given, standard_path_eq h.path]
    apply decode_of_match h (some (t.user ++ if t.pswd ≠ [] then ':' :: t.pswd else [])) parm _ hparm
      (host_and_path_remote hremote)
    · exact user_and_pswd_joined huser (fun c hc => (hremote.user c hc).2.2.2) fun c hc => (hremote.pswd c hc).2.2.2
    · have hgroup := at_most_one_first hmore
      have hmatches := url_first t.type _ (fun c hc => (h.type c hc).1) (first_of_cons hgroup hhead)
      simpa using hmatches

theorem decode_encode_file (h : Regular t) (hfile : t.type = text "file") :
    ∃ url, encodeurl t = .ok url ∧ decodeurl url = .ok t := by
  obtain ⟨hhost, huser, hpswd⟩ := h.file hfile
  have hno_at : ∀ x ∈ greedy user_class (quote t.path ++ parm_text t), literal ['@'] x.2 = [] := by
    apply no_at rfl fun hat => (quote_plain hat).2 rfl
    intro c hc
    rw [parm_text_head t c hc]
    rfl
  obtain ⟨parm, hhead, hparm⟩ := location_first h t.type none (quote_ne_nil h.path_given)
    fun c hc => (quote_plain hc).1
  refine ⟨_, if_neg h.type_given, ?_⟩
  rw [if_neg fun hgiven => hgiven.1 huser, if_neg fun hgiven => hgiven.1 hhost, if_pos h.path_given,
    standard_path_eq h.path]
  apply decode_of_match h none parm _ hparm
  · unfold host_and_path
    have hlower : lower t.type = text "file" := by
      rw [hfile]
      decide
    rw [if_neg fun hslash => hslash.2 hlower, if_pos hlower, hhost]
  · rw [huser, hpswd]
    rfl
  · have hgroup := at_most_one_none (user_group_none hno_at)
    have hmatches := url_first t.type _ (fun c hc => (h.type c hc).1) (first_of_cons hgroup hhead)
    simpa using hmatches

theorem decode_encode_url (h : Regular t) : ∃ url, encodeurl t = .ok url ∧ decodeurl url = .ok t := by
  by_cases hfile : t.type = text "file"
  · exact decode_encode_file h hfile
  · exact decode_encode_remote h hfile (h.remote hfile)

/-! ## Texts that are no URLs -/

/-- A text with a user that starts with a colon. -/
def ColonUser (url : Text) : Prop :=
  ∃ type user location, url = type ++ (text "://" ++ (':' :: user ++ '@' :: location)) ∧
    (∀ c ∈ type, c ≠ ':') ∧ (∀ c ∈ user, c ≠ '/' ∧ c ≠ ';') ∧ ∃ c ∈ location.head?, c ≠ ';'

theorem parameters_error {url parm : Text} {e : Raised} (h : parameters url parm = .error e) :
    ∃ msg, e = .malformed_url msg := by
  obtain ⟨p, s, hs⟩ := foldlM_error h
  unfold parameter at hs
  split at hs
  · cases hs
  · split at hs
    · exact ⟨_, (Except.error.inj hs).symm⟩
    · cases hs

theorem colon_of_no_match {user : Text} (hne : user ≠ []) (h : user_matches user = []) :
    ∃ rest, user = ':' :: rest := by
  obtain ⟨c, rest, rfl⟩ := List.exists_cons_of_ne_nil hne
  by_cases hc : c = ':'
  · exact ⟨rest, by rw [hc]⟩
  · unfold user_matches at h
    rw [List.flatMap_eq_nil_iff] at h
    have hmem : ([c], rest) ∈ greedy1 (fun c : Char => decide (c ≠ ':')) (c :: rest) := by
      rw [greedy1_cons, if_pos (by simpa using hc)]
      exact List.mem_map.mpr ⟨_, nil_mem_greedy _ rest, rfl⟩
    have hnone := h _ hmem
    rw [List.flatMap_eq_nil_iff] at hnone
    have hlast := hnone (none, rest) (List.mem_append_right _ (List.mem_singleton_self _))
    rw [List.map_eq_nil_iff] at hlast
    have hlast_mem := nil_mem_greedy (fun c : Char => decide (c ≠ '\n')) rest
    rw [show greedy (fun c : Char => decide (c ≠ '\n')) rest = [] from hlast] at hlast_mem
    cases hlast_mem

theorem user_of_match {url user : Text} {m : Groups} (hm : m ∈ url_matches url) (huser : m.user = some user) :
    ∃ location, url = m.type ++ (text "://" ++ (user ++ '@' :: location)) ∧ (∀ c ∈ m.type, c ≠ ':') ∧
      user ≠ [] ∧ (∀ c ∈ user, c ≠ '/' ∧ c ≠ ';') ∧ ∃ c ∈ location.head?, c ≠ ';' := by
  unfold url_matches at hm
  obtain ⟨x, hx, hm⟩ := List.mem_flatMap.mp hm
  obtain ⟨s, hs, hm⟩ := List.mem_flatMap.mp hm
  obtain ⟨y, hy, hm⟩ := List.mem_flatMap.mp hm
  obtain ⟨z, hz, hm⟩ := List.mem_flatMap.mp hm
  obtain ⟨w, -, rfl⟩ := List.mem_map.mp hm
  obtain ⟨hurl, htype⟩ := mem_greedy hx
  have hx2 := mem_literal hs
  -- the user comes from its group
  rcases List.mem_append.mp hy with hy | hy
  · obtain ⟨g, hg, rfl⟩ := List.mem_map.mp hy
    obtain rfl : g.1 = user := Option.some.inj huser
    obtain ⟨v, hv, hg⟩ := List.mem_flatMap.mp hg
    obtain ⟨rest, hrest, rfl⟩ := List.mem_map.mp hg
    obtain ⟨hvmem, hvne⟩ := mem_greedy1 hv
    obtain ⟨hs', hall⟩ := mem_greedy hvmem
    obtain ⟨hzmem, hzne⟩ := mem_greedy1 hz
    obtain ⟨hlocation, hz1⟩ := mem_greedy hzmem
    have hv2 := mem_literal hrest
    refine ⟨rest, ?_, ?_, hvne, ?_, ?_⟩
    · rw [hurl, hx2, hs', hv2]
      simp
    · intro c hc
      simpa using htype c hc
    · intro c hc
      simpa [user_class] using hall c hc
    · obtain ⟨c, l, hl⟩ := List.exists_cons_of_ne_nil hzne
      refine ⟨c, ?_, ?_⟩
      · change rest = z.1 ++ z.2 at hlocation
        rw [hlocation, hl]
        rfl
      · have hc := hz1 c (by simp [hl])
        simpa using hc
  · obtain rfl := List.mem_singleton.mp hy
    cases huser

theorem decode_raises {url : Text} {e : Raised} (hcolon : ¬ColonUser url) (h : decodeurl url = .error e) :
    ∃ msg, e = .malformed_url msg := by
  unfold decodeurl at h
  split at h
  · exact ⟨_, (Except.error.inj h).symm⟩
  · rename_i m hm
    cases hp : parameters url (m.parm.getD []) with
    | error e' =>
      simp only [hp, bind, Except.bind] at h
      obtain rfl := Except.error.inj h
      exact parameters_error hp
    | ok p =>
      simp only [hp, bind, Except.bind] at h
      cases huser : m.user with
      | none =>
        rw [huser] at h
        cases h
      | some user =>
        obtain ⟨location, hurl, htype, hne, hplain, hlocation⟩ := user_of_match (List.mem_of_mem_head? hm) huser
        cases hfirst : user_matches user with
        | nil =>
          obtain ⟨rest, rfl⟩ := colon_of_no_match hne hfirst
          rw [List.forall_mem_cons] at hplain
          exact absurd ⟨m.type, rest, location, hurl, htype, hplain.2, hlocation⟩ hcolon
        | cons x more =>
          simp [huser, user_and_pswd, hfirst] at h

/-- An URL is put together and taken apart, and a text is taken apart or is malformed. An URL without a type is
not put together. -/
theorem urls_are_decoded_again (t : Decoded) (h : Regular t) (url : Text) (hurl : ¬ColonUser url) :
    (encodeurl t >>= decodeurl) = .ok t ∧
      ((∃ decoded, decodeurl url = .ok decoded) ∨ ∃ msg, decodeurl url = .error (.malformed_url msg)) ∧
      ∀ other, encodeurl other = .error (.missing_parameter_error (text "type")) ↔ other.type = [] := by
  refine ⟨?_, ?_, ?_⟩
  · obtain ⟨encoded, hencode, hdecode⟩ := decode_encode_url h
    rw [hencode]
    exact hdecode
  · cases hresult : decodeurl url with
    | ok decoded => exact .inl ⟨decoded, rfl⟩
    | error e =>
      obtain ⟨msg, rfl⟩ := decode_raises hurl hresult
      exact .inr ⟨msg, rfl⟩
  · intro other
    unfold encodeurl
    by_cases htype : other.type = [] <;> simp [htype]

def all_parts : Decoded where
  type := text "http"
  host := text "h:80"
  path := text "/a b%@;"
  user := text "me"
  pswd := text "p:w"
  p := [(text "n", text "v=1")]

theorem all_parts_regular : Regular all_parts where
  type_given := by decide
  type := by simp [all_parts, text]
  path_given := by decide
  path := by unfold RepeatedSlashes; decide
  file := by decide
  remote _ :=
    ⟨by simp [all_parts, text], by decide, by simp [all_parts, text], by simp [all_parts, text], by decide, by decide⟩
  names := by simp [all_parts, text]
  values := by simp [all_parts, text]
  distinct := by decide

theorem all_parts_are_decoded_again :
    (encodeurl all_parts >>= decodeurl) = .ok all_parts ∧
      ((∃ decoded, decodeurl (text "x") = .ok decoded) ∨ ∃ msg, decodeurl (text "x") = .error (.malformed_url msg)) ∧
      ∀ other, encodeurl other = .error (.missing_parameter_error (text "type")) ↔ other.type = [] :=
  urls_are_decoded_again all_parts all_parts_regular (text "x") (by
    rintro ⟨type, user, location, hurl, -⟩
    have hlength := congrArg List.length hurl
    simp [text] at hlength
    omega)

/-! ## URLs that do not come back -/

/-- An URL without a type, a password without a user, a file in capitals that has a host, a file without a path,
parts with a new line, and a user that starts with a colon. -/
theorem urls_are_lost :
    encodeurl ⟨[], text "h", text "/p", [], [], []⟩ = .error (.missing_parameter_error (text "type")) ∧
      (encodeurl ⟨text "http", text "h", text "/p", [], text "pw", []⟩ >>= decodeurl) =
        .ok ⟨text "http", text "h", text "/p", [], [], []⟩ ∧
      (encodeurl ⟨text "FILE", text "h", text "/p", [], [], []⟩ >>= decodeurl) =
        .ok ⟨text "FILE", [], text "h/p", [], [], []⟩ ∧
      (encodeurl ⟨text "file", [], [], [], [], []⟩ >>= decodeurl) =
        .error (malformed_url (text "file://") []) ∧
      (encodeurl ⟨text "http", text "h", text "/p", text "u", text "p\nw", []⟩ >>= decodeurl) =
        .ok ⟨text "http", text "h", text "/p", text "u", text "p", []⟩ ∧
      (encodeurl ⟨text "http", text "h", text "/p", [], [], [(text "n", text "v\n")]⟩ >>= decodeurl) =
        .ok ⟨text "http", text "h", text "/p", [], [], [(text "n", text "v")]⟩ ∧
      decodeurl (text "http://:pw@h/p") = .error .unbound_local_error := by
  decide +kernel

end yocto.decoded_urls
