-- What the SDDP service sends: over every run of calls, a multicast packet is the
-- notification of the call, and a unicast packet answers the search that the call
-- has received, with its transaction.
import Yocto.Sddp
import Yocto.SddpRoundTrip

open yocto.list_search
open yocto.c_text
open yocto.sddp_packet
open yocto.sddp_round_trip
open yocto.sddp
open yocto.runs

namespace yocto.sddp_traffic

/-! ## The head of a packet -/

section Head

variable {bufferSize : Nat}

/-- What is in the buffer stays there. -/
structure Extends (w w' : Written) : Prop where
  written : w.written ≤ w'.written
  buffer : ∀ b, w.buffer = some b → ∃ t, w'.buffer = some (b ++ t)

theorem Extends.refl (w : Written) : Extends w w := ⟨le_refl _, fun b hb => ⟨[], by simp [hb]⟩⟩

theorem Extends.trans {w w' w'' : Written} (h : Extends w w') (h' : Extends w' w'') : Extends w w'' := by
  refine ⟨h.written.trans h'.written, fun b hb => ?_⟩
  obtain ⟨t, ht⟩ := h.buffer b hb
  obtain ⟨t', ht'⟩ := h'.buffer _ ht
  exact ⟨t ++ t', by rw [ht', List.append_assoc]⟩

theorem extends_buffer (w : Written) (str : Bytes) : Extends w (writeBuffer bufferSize w str) := by
  refine ⟨Nat.le_add_right _ _, fun b hb => ?_⟩
  unfold writeBuffer
  dsimp only
  split
  · exact ⟨str, by rw [hb, Option.map_some]⟩
  · exact ⟨[], by rw [hb, List.append_nil]⟩

theorem extends_header (w : Written) (header : Bytes) (value : Option Bytes) (forceQuotes : Bool) :
    Extends w (writeHeader bufferSize w header value forceQuotes) := by
  cases value with
  | none => exact .refl w
  | some value =>
    exact (((extends_buffer w _).trans (extends_buffer _ _)).trans (extends_buffer _ _)).trans
      (extends_buffer _ _)

theorem extends_headers (packet : SddpPacket) (fields : List (Field × Bool)) (w : Written) :
    Extends w (writeHeaders bufferSize packet fields w) := by
  induction fields generalizing w with
  | nil => exact .refl w
  | cons f fields ih => exact (extends_header w _ _ _).trans (ih _)

theorem extends_body (body : Option Bytes) (w : Written) :
    Extends w (writeBody bufferSize w body) := by
  cases body with
  | none => exact .refl w
  | some body => exact (extends_buffer w _).trans (extends_buffer _ _)

def head (packet : SddpPacket) : Bytes :=
  first_line packet.h ++ crlf ++ (written_fields.take 4).flatMap (header_text packet)

theorem writes_head {packet : SddpPacket} (h : Readable packet.h) (htype : packet.headers .Type_ ≠ none)
    (hfits : (WriteSDDPPacket packet (some []) bufferSize).written ≤ bufferSize) (hpos : 0 < bufferSize) :
    ∃ t, (WriteSDDPPacket packet (some []) bufferSize).buffer = some (head packet ++ t) := by
  obtain ⟨w, hw, hfirst⟩ := appends_first h bufferSize ⟨1, some []⟩
  have hhead := hfirst.trans (appends_headers packet (written_fields.take 4) w)
  have hsplit : written_fields = written_fields.take 4 ++ (.Type_, true) :: written_fields.drop 5 := rfl
  unfold WriteSDDPPacket at hfits ⊢
  rw [if_pos hpos, Option.map_some] at hfits ⊢
  dsimp only at hfits ⊢
  rw [hw] at hfits ⊢
  dsimp only at hfits ⊢
  have hheaders : writeHeaders bufferSize packet written_fields w =
      writeHeaders bufferSize packet (written_fields.drop 5) (writeHeader bufferSize
        (writeHeaders bufferSize packet (written_fields.take 4) w) (Field.name .Type_) (packet.headers .Type_)
          true) := by
    rw [hsplit, writeHeaders, List.foldl_append]
    rfl
  rw [hheaders] at hfits ⊢
  generalize writeHeaders bufferSize packet (written_fields.take 4) w = w₁ at hhead hfits ⊢
  have htype_text : Appends bufferSize (header_text packet (.Type_, true)) w₁ _ :=
    appends_header packet (.Type_, true) w₁
  dsimp only at htype_text
  have hgrow : Extends w₁ (writeHeader bufferSize w₁ (Field.name .Type_) (packet.headers .Type_) true) :=
    extends_header w₁ _ _ true
  generalize writeHeader bufferSize w₁ (Field.name .Type_) (packet.headers .Type_) true = w₂
    at htype_text hgrow hfits ⊢
  have hrest : Extends w₂ (writeBody bufferSize (writeHeaders bufferSize packet (written_fields.drop 5) w₂)
      packet.body) := (extends_headers packet _ w₂).trans (extends_body packet.body _)
  have hlonger : w₁.written < w₂.written := by
    obtain ⟨value, hvalue⟩ := Option.ne_none_iff_exists'.mp htype
    have hlen : 0 < (header_text packet (.Type_, true)).length := by
      simp [header_text, hvalue, header_line]
    have := htype_text.written
    omega
  have hroom : w₁.written < bufferSize := lt_of_lt_of_le (lt_of_lt_of_le hlonger hrest.written) hfits
  have hbuffer : w₁.buffer = some (head packet) := by
    rw [hhead.buffer hroom, Option.map_some, List.nil_append, head]
  exact (hgrow.trans hrest).buffer _ hbuffer

end Head

/-! ## One notification -/

/-- A message is what is written of a packet with this first line and transaction, and holds them. -/
def Carries (msg : Bytes) (first : StartLine) (tran : Option Bytes) : Prop :=
  ∃ packet : SddpPacket, packet.h = first ∧ packet.headers .Tran = tran ∧
    (WriteSDDPPacket packet (some []) MAX_SDDP_FRAME_SIZE).buffer = some msg ∧ head packet <+: msg

theorem readable_notify {argument : Bytes} (h : Word argument) : Readable (notify argument) :=
  .Request ⟨by decide, by decide, by decide, by decide⟩ (by decide) h
    ⟨by decide, by decide, by decide, by decide⟩

theorem readable_response : Readable response :=
  .Response ⟨by decide, by decide, by decide, by decide⟩ ⟨by decide, by decide, by decide, by decide⟩
    ⟨by decide, by decide, by decide, by decide⟩

theorem readable_kind {p : SDDPPrivateState} {first : StartLine} {tran : Option Bytes} {age devInfo : Bool}
    (h : kind p = some (first, tran, age, devInfo)) : Readable first := by
  have hword : ∀ argument ∈ [ascii "ALIVE", ascii "OFFLINE", ascii "IDENTIFY"], Word argument := by
    intro argument hmem
    simp only [List.mem_cons, List.not_mem_nil, or_false] at hmem
    rcases hmem with rfl | rfl | rfl <;> exact ⟨by decide, by decide, by decide, by decide⟩
  unfold kind at h
  split at h
  · cases h
    exact readable_response
  · cases hnt : p.nt with
    | SDDP_NONE => simp [hnt] at h
    | SDDP_ALIVE =>
      simp only [hnt, Option.some.injEq, Prod.mk.injEq] at h
      exact h.1 ▸ readable_notify (hword _ (by simp))
    | SDDP_OFFLINE =>
      simp only [hnt, Option.some.injEq, Prod.mk.injEq] at h
      exact h.1 ▸ readable_notify (hword _ (by simp))
    | SDDP_IDENTIFY =>
      simp only [hnt, Option.some.injEq, Prod.mk.injEq] at h
      exact h.1 ▸ readable_notify (hword _ (by simp))

theorem create_carries {host freed msg : Bytes} {dev : SDDPDevice} {iface : SDDPInterface} {first : StartLine}
    {tran : Option Bytes} {age devInfo : Bool} (h : SDDPCreateNotify host dev iface freed = some msg)
    (hkind : kind dev.private_state = some (first, tran, age, devInfo)) : Carries msg first tran := by
  unfold SDDPCreateNotify notify_packet at h
  rw [hkind, Option.map_some] at h
  dsimp only at h
  split at h
  · cases h
  · rename_i hfits
    obtain ⟨t, ht⟩ := writes_head (readable_kind hkind) (by simp [packet_headers]) (not_lt.mp hfits) (by decide)
    refine ⟨_, rfl, rfl, h, ?_⟩
    rw [ht] at h
    exact ⟨t, Option.some.inj h⟩

/-! ## The loops over the interfaces -/

section Interfaces

variable {host : Bytes} {world : World} {type : SDDPMessageType} {i : Nat} {status : SDDPStatus}
  {dev : SDDPDevice} {ifaces : List SDDPInterface}

theorem notify_loop_device : (notify_loop host world type i status dev ifaces).2.1.config = dev.config ∧
    (notify_loop host world type i status dev ifaces).2.1.private_state.tran = dev.private_state.tran := by
  induction ifaces generalizing i status dev with
  | nil => exact ⟨rfl, rfl⟩
  | cons ifa ifaces ih =>
    unfold notify_loop
    dsimp only
    split
    · exact ⟨rfl, rfl⟩
    · cases type with
      | MULTICAST => exact @ih _ _ (dev.set_nt .SDDP_ALIVE)
      | UNICAST dest iface_addr =>
        dsimp only
        split_ifs
        · exact ⟨rfl, rfl⟩
        · exact ⟨rfl, rfl⟩
        · exact @ih _ _ (dev.set_nt .SDDP_ALIVE)

theorem notify_loop_sent {sent : Sent} (h : sent ∈ (notify_loop host world type i status dev ifaces).2.2) :
    sent.device = dev.config ∧ ∃ ifa ∈ ifaces,
      SDDPCreateNotify host (dev.set_nt .SDDP_ALIVE) ifa world.freed = some sent.msg ∧
        sent.receiver = match type with
          | .MULTICAST => .Multicast ifa
          | .UNICAST dest _ => .SendTo dest := by
  induction ifaces generalizing i status dev with
  | nil => simp [notify_loop] at h
  | cons ifa ifaces ih =>
    unfold notify_loop at h
    dsimp only at h
    split at h
    · simp at h
    · rename_i msg hmsg
      cases type with
      | MULTICAST =>
        rcases List.mem_cons.mp h with rfl | h
        · exact ⟨notify_loop_device.1, ifa, List.mem_cons_self, hmsg, rfl⟩
        · obtain ⟨hdevice, ifa', hifa', hcreate⟩ := ih h
          exact ⟨hdevice, ifa', List.mem_cons_of_mem _ hifa', hcreate⟩
      | UNICAST dest iface_addr =>
        dsimp only at h
        split_ifs at h
        · simp at h
        · obtain rfl := List.mem_singleton.mp h
          exact ⟨rfl, ifa, List.mem_cons_self, hmsg, rfl⟩
        · obtain ⟨hdevice, ifa', hifa', hcreate⟩ := ih h
          exact ⟨hdevice, ifa', List.mem_cons_of_mem _ hifa', hcreate⟩

theorem tell_loop_device {nt : NotificationType} :
    (tell_loop host world nt i status dev ifaces).2.1.config = dev.config ∧
      (tell_loop host world nt i status dev ifaces).2.1.private_state.tran = dev.private_state.tran := by
  induction ifaces generalizing i status dev with
  | nil => exact ⟨rfl, rfl⟩
  | cons ifa ifaces ih =>
    unfold tell_loop
    dsimp only
    split
    · exact ih
    · exact ih

theorem tell_loop_sent {nt : NotificationType} {sent : Sent}
    (h : sent ∈ (tell_loop host world nt i status dev ifaces).2.2) :
    sent.device = dev.config ∧ ∃ ifa ∈ ifaces, sent.receiver = .Multicast ifa ∧ ∃ dev' : SDDPDevice,
      dev'.private_state = { dev.private_state with nt := nt, search_response := false } ∧
        SDDPCreateNotify host dev' ifa world.freed = some sent.msg := by
  induction ifaces generalizing i status dev with
  | nil => simp [tell_loop] at h
  | cons ifa ifaces ih =>
    unfold tell_loop at h
    dsimp only at h
    split at h
    · obtain ⟨hdevice, ifa', hifa', hcreate⟩ := ih h
      exact ⟨hdevice, ifa', List.mem_cons_of_mem _ hifa', hcreate⟩
    · rename_i msg hmsg
      rcases List.mem_cons.mp h with rfl | h
      · exact ⟨tell_loop_device.1, ifa, List.mem_cons_self, rfl, _, rfl, hmsg⟩
      · obtain ⟨hdevice, ifa', hifa', hcreate⟩ := ih h
        exact ⟨hdevice, ifa', List.mem_cons_of_mem _ hifa', hcreate⟩

theorem local_interface {ifa : SDDPInterface} {ifaddrs : Option (List IfAddr)} {local_only : Bool}
    (h : ifa ∈ SDDPGetInterfaces local_only ifaddrs) (hlocal : local_only = true) :
    ifa.addr = INADDR_LOOPBACK := by
  subst hlocal
  obtain rfl : ifa = interface_of INADDR_LOOPBACK := List.mem_singleton.mp h
  rfl

end Interfaces

/-! ## What the packets of a call may say -/

/-- The argument of the notifications of a call. -/
def argument_of : Call → Option Bytes
  | .SetHost _ => none
  | .SetDevice _ _ _ => none
  | .Start _ _ _ => some (ascii "ALIVE")
  | .Tick _ _ _ _ => some (ascii "ALIVE")
  | .Identify _ => some (ascii "IDENTIFY")
  | .Leave _ => some (ascii "OFFLINE")

/-- What a call has received, and what the system tells while it is answered. -/
def heard : Call → Option (Datagram × (Nat → World))
  | .Tick _ (some datagram) _ answers => some (datagram, answers)
  | _ => none

/-- A multicast packet is the notification of the call. -/
def Notifies (argument : Bytes) (sent : Sent) : Prop :=
  ∃ iface, sent.receiver = .Multicast iface ∧ Carries sent.msg (notify argument) none ∧
    (sent.device.local_only = true → iface.addr = INADDR_LOOPBACK)

/-- A unicast packet answers a search for the device, with the transaction of the search. -/
def Answers (datagram : Datagram) (answers : Nat → World) (sent : Sent) : Prop :=
  ∃ received argument, ParseSDDPPacket datagram.text = .ok (some received) ∧
    received.h = .Request (some (ascii "SEARCH")) (some argument) (some SDDP_VERSION) ∧
    matches_target argument sent.device.product_name ∧
    sent.receiver = .SendTo datagram.sender ∧ Carries sent.msg response (received.headers .Tran) ∧
    (sent.device.local_only = true →
      ∃ k, SDDPNetworkIsLocalAddress datagram.sender.1 (answers k).ifaddrs = true)

/-- A packet of a call is one of these, and of a device of the service. -/
def Lawful (call : Call) (state : SDDPState) (sent : Sent) : Prop :=
  sent.device ∈ state.devices.map SDDPDevice.config ∧
    ((∃ argument, argument_of call = some argument ∧ Notifies argument sent) ∨
      ∃ datagram answers, heard call = some (datagram, answers) ∧ Answers datagram answers sent)

section Devices

variable {host : Bytes} {world : World} {status : SDDPStatus} {dev : SDDPDevice}

theorem multicast_notifies {sent : Sent} (h : sent ∈ (SDDPNotify host world .MULTICAST dev).2.2)
    (hresponse : dev.private_state.search_response = false) :
    sent.device = dev.config ∧ Notifies (ascii "ALIVE") sent := by
  obtain ⟨hdevice, ifa, hifa, hcreate, hreceiver⟩ := notify_loop_sent h
  have hkind : kind (dev.set_nt .SDDP_ALIVE).private_state = some (notify (ascii "ALIVE"), none, true, true) := by
    simp [kind, SDDPDevice.set_nt, hresponse]
  refine ⟨hdevice, ifa, hreceiver, create_carries hcreate hkind, ?_⟩
  rw [hdevice]
  exact local_interface hifa

theorem start_device_sent : ∀ sent ∈ (start_device host world status dev).2.2,
    sent.device = (start_device host world status dev).2.1.config ∧ Notifies (ascii "ALIVE") sent := by
  intro sent h
  have hsent : sent ∈ (SDDPNotify host world .MULTICAST (started dev)).2.2 := h
  obtain ⟨hdevice, hnotifies⟩ := multicast_notifies hsent rfl
  refine ⟨?_, hnotifies⟩
  rw [hdevice, ← notify_loop_device.1]
  unfold start_device SDDPNotify
  dsimp only
  split <;> rfl

theorem start_device_tran : (start_device host world status dev).2.1.private_state.tran = none := by
  have htran : (SDDPNotify host world .MULTICAST (started dev)).2.1.private_state.tran = none :=
    notify_loop_device.2
  unfold start_device
  dsimp only
  split
  · exact htran
  · exact htran

theorem advertise_device {forceAlive : Bool} :
    (advertise host forceAlive world status dev).2.1.config = dev.config ∧
      (advertise host forceAlive world status dev).2.1.private_state.tran = dev.private_state.tran := by
  unfold advertise
  split
  · exact notify_loop_device
  · exact ⟨rfl, rfl⟩

theorem advertise_sent {forceAlive : Bool} : ∀ sent ∈ (advertise host forceAlive world status dev).2.2,
    sent.device = (advertise host forceAlive world status dev).2.1.config ∧ Notifies (ascii "ALIVE") sent := by
  intro sent h
  rw [advertise_device.1]
  unfold advertise at h
  split at h
  · dsimp only at h
    obtain ⟨hdevice, hnotifies⟩ := multicast_notifies h (by rfl)
    exact ⟨hdevice, hnotifies⟩
  · simp at h

theorem answer_device {argument : Bytes} {tran : Option Bytes} {sender : InAddr × UInt16} {iface_addr : InAddr} :
    (answer host argument tran sender iface_addr world status dev).2.1.config = dev.config ∧
      (dev.private_state.tran = none →
        (answer host argument tran sender iface_addr world status dev).2.1.private_state.tran = none) := by
  unfold answer
  split_ifs
  · exact ⟨rfl, id⟩
  · exact ⟨notify_loop_device.1, fun _ => rfl⟩
  · exact ⟨rfl, id⟩

theorem answer_sent {argument : Bytes} {tran : Option Bytes} {sender : InAddr × UInt16} {iface_addr : InAddr} :
    ∀ sent ∈ (answer host argument tran sender iface_addr world status dev).2.2,
      sent.device = (answer host argument tran sender iface_addr world status dev).2.1.config ∧
        matches_target argument sent.device.product_name ∧ sent.receiver = .SendTo sender ∧
        Carries sent.msg response tran ∧
        (sent.device.local_only = true → SDDPNetworkIsLocalAddress sender.1 world.ifaddrs = true) := by
  intro sent h
  rw [answer_device.1]
  unfold answer at h
  split_ifs at h with htarget hlocal
  · simp at h
  · obtain ⟨hdevice, ifa, hifa, hcreate, hreceiver⟩ := notify_loop_sent h
    refine ⟨hdevice, ?_, hreceiver, create_carries hcreate rfl, fun hlocal_only => ?_⟩
    · rw [hdevice]
      exact htarget
    · rw [hdevice] at hlocal_only
      dsimp only at hlocal_only
      simpa [hlocal_only] using hlocal
  · simp at h

theorem tell_sent {nt : NotificationType} {argument : Bytes} {age devInfo : Bool} {ifaces : List SDDPInterface}
    (hifaces : ∀ ifa ∈ ifaces, dev.config.local_only = true → ifa.addr = INADDR_LOOPBACK)
    (hkind : ∀ p : SDDPPrivateState, kind { p with nt := nt, search_response := false } =
      some (notify argument, none, age, devInfo)) :
    ∀ sent ∈ (tell_loop host world nt 0 status dev ifaces).2.2,
      sent.device = (tell_loop host world nt 0 status dev ifaces).2.1.config ∧ Notifies argument sent := by
  intro sent h
  obtain ⟨hdevice, ifa, hifa, hreceiver, dev', hdev', hcreate⟩ := tell_loop_sent h
  rw [tell_loop_device.1]
  have hflags : kind dev'.private_state = some (notify argument, none, age, devInfo) := by
    rw [hdev']
    exact hkind _
  refine ⟨hdevice, ifa, hreceiver, create_carries hcreate hflags, ?_⟩
  rw [hdevice]
  exact hifaces ifa hifa

end Devices

/-! ## The loop over the devices -/

section Each

variable {serve : World → SDDPStatus → SDDPDevice → SDDPStatus × SDDPDevice × List Sent} {world : Nat → World}
  {k : Nat} {status : SDDPStatus} {devices : List SDDPDevice}

theorem each_config (hserve : ∀ world status dev, (serve world status dev).2.1.config = dev.config) :
    (each serve world k status devices).2.1.map SDDPDevice.config = devices.map SDDPDevice.config := by
  induction devices generalizing k status with
  | nil => rfl
  | cons dev devices ih =>
    unfold each
    dsimp only
    rw [List.map_cons, List.map_cons, hserve, ih]

theorem each_keeps {I : SDDPDevice → Prop} (hserve : ∀ world status dev, I dev → I (serve world status dev).2.1)
    (h : ∀ dev ∈ devices, I dev) : ∀ dev ∈ (each serve world k status devices).2.1, I dev := by
  induction devices generalizing k status with
  | nil => simp [each]
  | cons dev devices ih =>
    rw [List.forall_mem_cons] at h
    unfold each
    dsimp only
    rw [List.forall_mem_cons]
    exact ⟨hserve _ _ _ h.1, ih h.2⟩

theorem each_sent {Q : Sent → Prop} (hserve : ∀ k status dev, ∀ sent ∈ (serve (world k) status dev).2.2,
      sent.device = (serve (world k) status dev).2.1.config ∧ Q sent) :
    ∀ sent ∈ (each serve world k status devices).2.2,
      sent.device ∈ (each serve world k status devices).2.1.map SDDPDevice.config ∧ Q sent := by
  induction devices generalizing k status with
  | nil => simp [each]
  | cons dev devices ih =>
    intro sent h
    unfold each at h ⊢
    dsimp only at h ⊢
    rw [List.map_cons, List.mem_cons]
    rcases List.mem_append.mp h with h | h
    · have := hserve k status dev sent h
      exact ⟨.inl this.1, this.2⟩
    · have := ih sent h
      exact ⟨.inr this.1, this.2⟩

end Each

/-! ## Calls -/

section Calls

variable {state : SDDPState}

theorem start_lawful {network_ready : Bool} {now : Int} {world : Nat → World} :
    ∀ sent ∈ (SDDPStart state network_ready now world).sent,
      Lawful (.Start network_ready now world) (SDDPStart state network_ready now world).state sent := by
  intro sent h
  unfold SDDPStart at h ⊢
  by_cases hvalid : IsStateValid state
  · rw [if_neg (not_not.mpr hvalid)] at h ⊢
    cases network_ready with
    | false => simp at h
    | true =>
      obtain ⟨hdevice, hnotifies⟩ := each_sent (fun k status dev => start_device_sent) sent h
      exact ⟨hdevice, .inl ⟨_, rfl, hnotifies⟩⟩
  · rw [if_pos hvalid] at h
    simp at h

theorem tell_lawful {nt : NotificationType} {argument : Bytes} {age devInfo : Bool} {world : Nat → World}
    (hkind : ∀ p : SDDPPrivateState, kind { p with nt := nt, search_response := false } =
      some (notify argument, none, age, devInfo)) :
    ∀ sent ∈ (announce state nt world).sent,
      sent.device ∈ (announce state nt world).state.devices.map SDDPDevice.config ∧ Notifies argument sent := by
  intro sent h
  unfold announce at h ⊢
  by_cases hvalid : IsStateValid state
  · rw [if_neg (not_not.mpr hvalid)] at h ⊢
    split at h
    · simp at h
    · rename_i henabled
      rw [if_neg henabled]
      exact each_sent (fun k status dev => tell_sent (fun ifa hifa => local_interface hifa) hkind) sent h
  · rw [if_pos hvalid] at h
    simp at h

theorem receive_config {datagram : Datagram} {answers : Nat → World} :
    (receive state datagram answers).state.devices.map SDDPDevice.config = state.devices.map SDDPDevice.config := by
  unfold receive
  split
  · split_ifs
    · exact each_config fun _ _ _ => answer_device.1
    · rfl
  · rfl

theorem receive_answers {datagram : Datagram} {answers : Nat → World} :
    ∀ sent ∈ (receive state datagram answers).sent,
      sent.device ∈ (receive state datagram answers).state.devices.map SDDPDevice.config ∧
        Answers datagram answers sent := by
  intro sent h
  unfold receive at h ⊢
  split at h
  · rename_i method argument version headers body hparse
    split_ifs at h ⊢ with hsearch
    · obtain ⟨rfl, rfl⟩ := hsearch
      refine each_sent (fun k status dev sent hsent => ?_) sent h
      obtain ⟨hdevice, htarget, hreceiver, hcarries, hlocal⟩ := answer_sent sent hsent
      exact ⟨hdevice, _, argument, hparse, rfl, htarget, hreceiver, hcarries, fun h => ⟨k, hlocal h⟩⟩
    · simp at h
  · simp at h

theorem tick_lawful {forceAlive : Bool} {received : Option Datagram} {world answers : Nat → World} :
    ∀ sent ∈ (SDDPTick state forceAlive received world answers).sent,
      Lawful (.Tick forceAlive received world answers)
        (SDDPTick state forceAlive received world answers).state sent := by
  intro sent h
  unfold SDDPTick at h ⊢
  by_cases hvalid : IsStateValid state
  · rw [if_neg (not_not.mpr hvalid)] at h ⊢
    split at h
    · simp at h
    · rename_i henabled
      rw [if_neg henabled]
      cases received with
      | none =>
        obtain ⟨hdevice, hnotifies⟩ := each_sent (fun k status dev => advertise_sent) sent h
        exact ⟨hdevice, .inl ⟨_, rfl, hnotifies⟩⟩
      | some datagram =>
        dsimp only at h ⊢
        rcases List.mem_append.mp h with h | h
        · obtain ⟨hdevice, hnotifies⟩ := each_sent (fun k status dev => advertise_sent) sent h
          refine ⟨?_, .inl ⟨_, rfl, hnotifies⟩⟩
          rw [receive_config]
          exact hdevice
        · obtain ⟨hdevice, hanswers⟩ := receive_answers sent h
          exact ⟨hdevice, .inr ⟨datagram, answers, rfl, hanswers⟩⟩
  · rw [if_pos hvalid] at h
    simp at h

theorem exec_lawful (state : SDDPState) (call : Call) :
    ∀ sent ∈ (exec state call).sent, Lawful call (exec state call).state sent := by
  intro sent h
  cases call with
  | SetHost host =>
    simp only [exec, SDDPSetHost] at h
    split at h <;> simp at h
  | SetDevice index config driver =>
    simp only [exec, SDDPSetDevice] at h
    split_ifs at h <;> simp at h
  | Start network_ready now world => exact start_lawful sent h
  | Tick forceAlive received world answers => exact tick_lawful sent h
  | Identify world =>
    obtain ⟨hdevice, hnotifies⟩ := tell_lawful (fun _ => rfl) sent h
    exact ⟨hdevice, .inl ⟨_, rfl, hnotifies⟩⟩
  | Leave world =>
    obtain ⟨hdevice, hnotifies⟩ := tell_lawful (fun _ => rfl) sent h
    exact ⟨hdevice, .inl ⟨_, rfl, hnotifies⟩⟩

/-- No transaction of a search is left. -/
def NoTransaction (state : SDDPState) : Prop := ∀ dev ∈ state.devices, dev.private_state.tran = none

theorem tell_no_transaction {nt : NotificationType} {world : Nat → World} (h : NoTransaction state) :
    NoTransaction (announce state nt world).state := by
  unfold announce
  split_ifs
  · exact h
  · exact each_keeps (fun world status dev htran => tell_loop_device.2.trans htran) h
  · exact h

theorem receive_no_transaction {datagram : Datagram} {answers : Nat → World} (h : NoTransaction state) :
    NoTransaction (receive state datagram answers).state := by
  unfold receive
  split
  · split
    · exact each_keeps (fun world status dev htran => answer_device.2 htran) h
    · exact h
  · exact h

theorem exec_no_transaction {call : Call} (h : NoTransaction state) : NoTransaction (exec state call).state := by
  cases call with
  | SetHost host =>
    simp only [exec, SDDPSetHost]
    split <;> exact h
  | SetDevice index config driver =>
    simp only [exec, SDDPSetDevice]
    split_ifs
    · exact h
    · intro dev hdev
      rcases List.mem_append.mp hdev with hdev | hdev
      · exact h dev hdev
      · obtain rfl := List.mem_singleton.mp hdev
        rfl
    · intro dev hdev
      obtain ⟨k, hk⟩ := List.mem_iff_getElem?.mp hdev
      rw [List.getElem?_modify] at hk
      obtain ⟨old, hold, rfl⟩ := Option.map_eq_some_iff.mp hk
      have := h old (List.mem_of_getElem? hold)
      split <;> exact this
  | Start network_ready now world =>
    have hstart : NoTransaction { state with
        devices := (each (start_device state.host) world 0 .SUCCESS state.devices).2.1 } :=
      each_keeps (fun world status dev _ => start_device_tran) h
    simp only [exec, SDDPStart]
    split_ifs
    · exact hstart
    · exact hstart
    · exact h
    · exact h
  | Tick forceAlive received world answers =>
    have hadvertise : NoTransaction { state with
        devices := (each (advertise state.host forceAlive) world 0 .SUCCESS state.devices).2.1 } :=
      each_keeps (fun world status dev htran => advertise_device.2.trans htran) h
    simp only [exec, SDDPTick]
    split_ifs
    · exact h
    · cases received with
      | none => exact hadvertise
      | some datagram => exact receive_no_transaction hadvertise
    · exact h
  | Identify world => exact tell_no_transaction h
  | Leave world => exact tell_no_transaction h

end Calls

def an_amp : SDDPDeviceConfig :=
  ⟨ascii "lea:amp", ascii "AMP", ascii "AMP", ascii "LEA", ascii "34d", none, [], 1800, false⟩

def one_network : World :=
  ⟨some [⟨true, true, true, false, false, ⟨10, 0, 0, 7⟩⟩], fun _ => true, 1000, []⟩

def a_datagram : Datagram :=
  ⟨ascii "SEARCH lea SDDP/1.0" ++ crlf ++ ascii "Tran: 42" ++ crlf, (⟨10, 0, 0, 9⟩, 1902), ⟨10, 0, 0, 7⟩⟩

def a_run : List Call :=
  [.SetHost (ascii "amp"), .SetDevice 0 an_amp (ascii "amp.c4i"), .Start true 1000 fun _ => one_network]

def a_state : SDDPState := a_run.foldl (fun state call => (exec state call).state) SDDPInit

theorem a_state_reached : Reaches step anyStep SDDPInit a_state :=
  .step (.step (.step .start trivial rfl) trivial rfl) trivial rfl

end yocto.sddp_traffic
