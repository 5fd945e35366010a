-- The URL of the configuration page in a notification (Sddp.c).
import Yocto.Sddp

open yocto.list_search
open yocto.c_text
open yocto.sddp

namespace yocto.sddp_urls

/-! ## Configured texts -/

def host : Bytes := ascii "host"

def open_bracket : UInt8 := 60

def close_bracket : UInt8 := 62

def placeholder : Bytes := open_bracket :: (host ++ [close_bracket])

/-- A text in which angle brackets stand only in placeholders: the parts around these. -/
structure Url where
  start : Bytes
  rest : List Bytes
  plain : ∀ part ∈ start :: rest, open_bracket ∉ part ∧ close_bracket ∉ part

/-- The parts with a text between them. -/
def Url.filled (u : Url) (between : Bytes) : Bytes := u.start ++ u.rest.flatMap (between ++ ·)

def Url.text (u : Url) : Bytes := u.filled placeholder

/-- What `calloc` is asked for. -/
def allocated (url ip_addr : Bytes) : ℕ := url.length + ip_addr.length

/-- The address stands for every placeholder, and the text fits with its NUL. -/
structure Expanded (u : Url) (ip_addr : Bytes) : Prop where
  replaced : config_url u.text ip_addr = u.filled ip_addr
  fits : (config_url u.text ip_addr).length + 1 ≤ allocated u.text ip_addr

/-! ## The tokens -/

def bracket (c : UInt8) : Bool := c = 60 || c = 62

/-- What the loop makes of one token. -/
def expand (ip_addr token : Bytes) : Bytes := if token = host then ip_addr else token

theorem splitOnP_bracket {part : Bytes} (h : open_bracket ∉ part ∧ close_bracket ∉ part) :
    ∀ c ∈ part, bracket c = false := by
  intro c hc
  have hopen : c ≠ 60 := by
    rintro rfl
    exact h.1 hc
  have hclose : c ≠ 62 := by
    rintro rfl
    exact h.2 hc
  simp [bracket, hopen, hclose]

theorem tokens {start : Bytes} {rest : List Bytes}
    (h : ∀ part ∈ start :: rest, open_bracket ∉ part ∧ close_bracket ∉ part) :
    (start ++ rest.flatMap (placeholder ++ ·)).splitOnP bracket = start :: rest.flatMap fun part => [host, part] := by
  induction rest generalizing start with
  | nil =>
    rw [List.flatMap_nil, List.append_nil]
    exact List.splitOnP_eq_singleton (splitOnP_bracket (h start List.mem_cons_self))
  | cons part rest ih =>
    rw [List.forall_mem_cons] at h
    have hform : start ++ (part :: rest).flatMap (placeholder ++ ·) =
        start ++ open_bracket :: (host ++ close_bracket :: (part ++ rest.flatMap (placeholder ++ ·))) := by
      simp [placeholder]
    rw [hform, List.splitOnP_append_cons_of_forall_mem (splitOnP_bracket h.1) _ (by decide),
      List.splitOnP_append_cons_of_forall_mem (splitOnP_bracket ⟨by decide, by decide⟩) _ (by decide), ih h.2]
    rfl

theorem config_url_eq (u : Url) (ip_addr : Bytes) : config_url u.text ip_addr =
    expand ip_addr u.start ++ u.rest.flatMap fun part => ip_addr ++ expand ip_addr part := by
  have hempty : ∀ tokens : List Bytes, (tokens.filter (· ≠ [])).flatMap (expand ip_addr) =
      tokens.flatMap (expand ip_addr) := by
    intro tokens
    induction tokens with
    | nil => rfl
    | cons token tokens ih =>
      by_cases hnil : token = []
      · rw [List.filter_cons_of_neg (by simp [hnil]), ih, List.flatMap_cons, hnil]
        rfl
      · rw [List.filter_cons_of_pos (by simp [hnil]), List.flatMap_cons, ih, List.flatMap_cons]
  have htokens := tokens u.plain
  unfold config_url Url.text Url.filled
  change ((((u.start ++ u.rest.flatMap (placeholder ++ ·)).splitOnP bracket).filter (· ≠ [])).flatMap
    (expand ip_addr)) = _
  rw [htokens, hempty, List.flatMap_cons, List.flatMap_assoc]
  simp [expand]

/-! ## What becomes of the parts -/

/-- No part is `host`, unless that is the address. -/
def Told (u : Url) (ip_addr : Bytes) : Prop := host ∈ u.start :: u.rest → ip_addr = host

theorem expand_of_told {u : Url} {ip_addr : Bytes} (h : Told u ip_addr) {part : Bytes}
    (hpart : part ∈ u.start :: u.rest) : expand ip_addr part = part := by
  unfold expand
  split
  · rename_i heq
    rw [heq] at hpart ⊢
    exact h hpart
  · rfl

theorem length_joined (f : Bytes → Bytes) (between start : Bytes) (rest : List Bytes) :
    (f start ++ rest.flatMap fun part => between ++ f part).length =
      ((start :: rest).map fun part => (f part).length).sum + rest.length * between.length := by
  induction rest generalizing start with
  | nil => simp
  | cons part rest ih =>
    have hrest := ih part
    simp only [List.length_append, List.flatMap_cons, List.map_cons, List.sum_cons, List.length_cons,
      Nat.add_mul, Nat.one_mul] at hrest ⊢
    omega

theorem parts_eq {f : Bytes → Bytes} {between start : Bytes} {rest : List Bytes}
    (hlen : ∀ part ∈ start :: rest, (f part).length = part.length)
    (h : (f start ++ rest.flatMap fun part => between ++ f part) = start ++ rest.flatMap (between ++ ·)) :
    ∀ part ∈ start :: rest, f part = part := by
  induction rest generalizing start with
  | nil => simpa using h
  | cons part rest ih =>
    rw [List.forall_mem_cons] at hlen
    obtain ⟨hstart, hrest⟩ := List.append_inj h hlen.1
    rw [List.flatMap_cons, List.flatMap_cons, List.append_assoc, List.append_assoc, List.append_right_inj] at hrest
    exact List.forall_mem_cons.mpr ⟨hstart, ih hlen.2 hrest⟩

theorem replaced_iff (u : Url) (ip_addr : Bytes) :
    config_url u.text ip_addr = u.filled ip_addr ↔ Told u ip_addr := by
  rw [config_url_eq]
  constructor
  · intro h hhost
    have hchange : ∀ part, part ≠ host → expand ip_addr part = part := fun part hne => if_neg hne
    have hsame : expand ip_addr host = ip_addr := if_pos rfl
    -- what is put for `host` shows in the length, unless it has the same
    have hsum : ((u.start :: u.rest).map fun part => (expand ip_addr part).length).sum =
        ((u.start :: u.rest).map fun part => part.length).sum := by
      have hlen := congrArg List.length h
      have hid := length_joined id ip_addr u.start u.rest
      unfold Url.filled at hlen
      simp only [id] at hid
      rw [length_joined, hid] at hlen
      omega
    rcases lt_trichotomy ip_addr.length host.length with hlt | heq | hgt
    · have hless := List.sum_lt_sum (l := u.start :: u.rest) (fun part => (expand ip_addr part).length)
        (fun part => part.length) (fun part _ => by
          by_cases hpart : part = host
          · rw [hpart, hsame]
            exact hlt.le
          · rw [hchange part hpart]) ⟨host, hhost, by rw [hsame]; exact hlt⟩
      omega
    · have hall := parts_eq (fun part _ => by
        by_cases hpart : part = host
        · rw [hpart, hsame, heq]
        · rw [hchange part hpart]) h
      rw [← hsame]
      exact hall host hhost
    · have hmore := List.sum_lt_sum (l := u.start :: u.rest) (fun part => part.length)
        (fun part => (expand ip_addr part).length) (fun part _ => by
          by_cases hpart : part = host
          · rw [hpart, hsame]
            exact hgt.le
          · rw [hchange part hpart]) ⟨host, hhost, by rw [hsame]; exact hgt⟩
      omega
  · intro h
    unfold Url.filled
    rw [expand_of_told h List.mem_cons_self]
    apply congrArg
    apply List.flatMap_congr
    intro part hpart
    rw [expand_of_told h (List.mem_cons_of_mem _ hpart)]

theorem filled_length (u : Url) (between : Bytes) : (u.filled between).length =
    ((u.start :: u.rest).map List.length).sum + u.rest.length * between.length :=
  length_joined id between u.start u.rest

/-- The URL has the address for each placeholder, and fits, if no part between the placeholders is `host`
and the placeholders have room for all addresses but one. -/
theorem urls_are_expanded_iff (u : Url) (ip_addr : Bytes) : Expanded u ip_addr ↔
    Told u ip_addr ∧ u.rest.length * ip_addr.length + 1 ≤ 6 * u.rest.length + ip_addr.length := by
  have hholder : placeholder.length = 6 := by decide
  have hroom : (u.filled ip_addr).length + 1 ≤ allocated u.text ip_addr ↔
      u.rest.length * ip_addr.length + 1 ≤ 6 * u.rest.length + ip_addr.length := by
    unfold allocated Url.text
    rw [filled_length, filled_length, hholder, Nat.mul_comm u.rest.length 6]
    omega
  rw [← replaced_iff, ← hroom]
  constructor
  · intro h
    exact ⟨h.replaced, by rw [← h.replaced]; exact h.fits⟩
  · rintro ⟨hreplaced, hfits⟩
    exact ⟨hreplaced, by rw [hreplaced]; exact hfits⟩

/-- Two placeholders, and an address of thirteen characters: 33 bytes are allocated, and the text has 34 and
the NUL. -/
theorem two_addresses_do_not_fit :
    ¬Expanded ⟨ascii "http://", [ascii "/", []], by decide⟩ (ascii "192.168.1.100") := by
  intro h
  have hlarge : ¬(config_url (ascii "http://<host>/<host>") (ascii "192.168.1.100")).length + 1 ≤
      allocated (ascii "http://<host>/<host>") (ascii "192.168.1.100") := by decide
  exact hlarge h.fits

end yocto.sddp_urls
