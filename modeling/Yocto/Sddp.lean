-- The SDDP service (Sddp.c): devices that advertise themselves on every interface, and answer
-- a search that names them.
import Yocto.Runs
import Yocto.SddpPacket

open yocto.list_search
open yocto.c_text
open yocto.sddp_packet
open yocto.runs

namespace yocto.sddp

/-! ## The network -/

structure InAddr where
  a : UInt8
  b : UInt8
  c : UInt8
  d : UInt8
  deriving DecidableEq

def INADDR_LOOPBACK : InAddr := ⟨127, 0, 0, 1⟩

def inet_ntoa (addr : InAddr) : Bytes := ascii s!"{addr.a}.{addr.b}.{addr.c}.{addr.d}"

/-- An address that `getifaddrs` tells of, with its family and the flags of its interface. -/
structure IfAddr where
  inet : Bool
  up : Bool
  multicast : Bool
  loopback : Bool
  pointopoint : Bool
  addr : InAddr

structure SDDPInterface where
  addr : InAddr
  ip_addr : Bytes

def interface_of (addr : InAddr) : SDDPInterface := ⟨addr, inet_ntoa addr⟩

def IsSDDPInterface (ifa : IfAddr) : Bool :=
  ifa.inet && ifa.up && ifa.multicast && !ifa.loopback && !ifa.pointopoint

/-- `SDDPGetInterfaces`. Without an interface there is the one of the loopback address. -/
def SDDPGetInterfaces (local_only : Bool) (ifaddrs : Option (List IfAddr)) : List SDDPInterface :=
  if local_only then [interface_of INADDR_LOOPBACK]
  else match ifaddrs with
    | none => []
    | some ifaddrs =>
      if (ifaddrs.filter IsSDDPInterface).isEmpty then [interface_of INADDR_LOOPBACK]
      else (ifaddrs.filter IsSDDPInterface).map fun ifa => interface_of ifa.addr

def SDDPNetworkIsLocalAddress (addr : InAddr) (ifaddrs : Option (List IfAddr)) : Bool :=
  addr == INADDR_LOOPBACK || (SDDPGetInterfaces false ifaddrs).any fun ifc => addr == ifc.addr

/-! ## Devices -/

inductive SDDPStatus where
  | SUCCESS | FATAL_ERROR | INVALID_PARAM | NETWORK_ERROR | TIME_ERROR | UNINITIALIZED
  deriving DecidableEq

inductive NotificationType where
  | SDDP_NONE | SDDP_ALIVE | SDDP_OFFLINE | SDDP_IDENTIFY
  deriving DecidableEq

structure SDDPDeviceConfig where
  product_name : Bytes
  primary_proxy : Bytes
  proxies : Bytes
  manufacturer : Bytes
  model : Bytes
  /-- None once the text is freed, while the device still points to it. -/
  driver : Option Bytes
  config_url : Bytes
  max_age : Int
  local_only : Bool

structure SDDPPrivateState where
  search_response : Bool
  tran : Option Bytes
  nt : NotificationType
  time_prev : Int
  alive_interval : Nat

structure SDDPDevice where
  config : SDDPDeviceConfig
  private_state : SDDPPrivateState

structure SDDPState where
  devices : List SDDPDevice
  sddp_enabled : Bool
  host : Bytes

def no_private_state : SDDPPrivateState := ⟨false, none, .SDDP_NONE, 0, 0⟩

def SDDPInit : SDDPState := ⟨[], false, []⟩

def MAX_SDDP_FRAME_SIZE : Nat := 512
def MAX_HOST_SIZE : Nat := 100
def MIN_ADVERT_PERIOD : Int := 60
def DISABLE_PERIODIC_ADVERTS : Int := 0

/-- `IsStateValid`. No text of a device is NULL, so that its configuration is valid. -/
def IsStateValid (state : SDDPState) : Prop := state.devices ≠ [] ∧ state.host ≠ []

instance (state : SDDPState) : Decidable (IsStateValid state) := by
  unfold IsStateValid
  exact match h : state.devices with
    | [] => isFalse fun hv => hv.1 rfl
    | _ :: _ => decidable_of_iff (state.host ≠ []) (by simp)

/-- What the system answers while a device is served: its addresses, which of the packets it sends, the
time, and what memory holds that is free. -/
structure World where
  ifaddrs : Option (List IfAddr)
  sends : Nat → Bool
  now : Int
  freed : Bytes

/-! ## Packets -/

inductive Receiver where
  | Multicast (iface : SDDPInterface)
  | SendTo (dest : InAddr × UInt16)

structure Sent where
  device : SDDPDeviceConfig
  receiver : Receiver
  msg : Bytes

def SDDP_VERSION : Bytes := ascii "1.0"

def response : StartLine := .Response (some (ascii "200")) (some (ascii "OK")) (some SDDP_VERSION)

def notify (argument : Bytes) : StartLine := .Request (some (ascii "NOTIFY")) (some argument) (some SDDP_VERSION)

/-- The tokens of a text between angle brackets, with the address for the token `host`. -/
def config_url (url ip_addr : Bytes) : Bytes :=
  ((url.splitOnP fun c => c = 60 || c = 62).filter (· ≠ [])).flatMap fun token =>
    if token = ascii "host" then ip_addr else token

/-- What the flags of a device make of a packet: the first line, the transaction, whether there is an age,
and whether there is all information about the device. -/
def kind (p : SDDPPrivateState) : Option (StartLine × Option Bytes × Bool × Bool) :=
  if p.search_response then some (response, p.tran, true, true)
  else match p.nt with
    | .SDDP_ALIVE => some (notify (ascii "ALIVE"), none, true, true)
    | .SDDP_OFFLINE => some (notify (ascii "OFFLINE"), none, false, false)
    | .SDDP_IDENTIFY => some (notify (ascii "IDENTIFY"), none, false, true)
    | .SDDP_NONE => none

def packet_headers (host : Bytes) (config : SDDPDeviceConfig) (iface : SDDPInterface) (freed : Bytes)
    (tran : Option Bytes) (age devInfo : Bool) : Field → Option Bytes
  | .From => some (iface.ip_addr ++ ascii ":1902")
  | .Host => some host
  | .Tran => tran
  | .Max_Age => if age then some (ascii (toString config.max_age)) else none
  | .Type_ => some config.product_name
  | .Timeout => none
  | .Primary_Proxy => if devInfo then some config.primary_proxy else none
  | .Proxies => if devInfo then some config.proxies else none
  | .Manufacturer => if devInfo then some config.manufacturer else none
  | .Model => if devInfo then some config.model else none
  | .Driver => if devInfo then some (config.driver.getD freed) else none
  | .Config_URL => if devInfo ∧ config.config_url ≠ [] then some (config_url config.config_url iface.ip_addr)
    else none

def notify_packet (host : Bytes) (dev : SDDPDevice) (iface : SDDPInterface) (freed : Bytes) : Option SddpPacket :=
  (kind dev.private_state).map fun (first, tran, age, devInfo) =>
    ⟨first, packet_headers host dev.config iface freed tran age devInfo, none⟩

def SDDPCreateNotify (host : Bytes) (dev : SDDPDevice) (iface : SDDPInterface) (freed : Bytes) : Option Bytes :=
  match notify_packet host dev iface freed with
  | none => none
  | some packet =>
    let w := WriteSDDPPacket packet (some []) MAX_SDDP_FRAME_SIZE
    if w.written > MAX_SDDP_FRAME_SIZE then none else w.buffer

/-! ## Notifications -/

inductive SDDPMessageType where
  | MULTICAST
  | UNICAST (dest : InAddr × UInt16) (iface_addr : InAddr)

def sent_status (sent : Bool) : SDDPStatus := if sent then .SUCCESS else .NETWORK_ERROR

def SDDPDevice.set_nt (dev : SDDPDevice) (nt : NotificationType) : SDDPDevice :=
  { dev with private_state := { dev.private_state with nt := nt } }

/-- The loop of `SDDPNotify` over the interfaces from the `i`-th on. -/
def notify_loop (host : Bytes) (world : World) (type : SDDPMessageType) :
    Nat → SDDPStatus → SDDPDevice → List SDDPInterface → SDDPStatus × SDDPDevice × List Sent
  | _, status, dev, [] => (status, dev, [])
  | i, _, dev, ifa :: ifaces =>
    let dev := dev.set_nt .SDDP_ALIVE
    match SDDPCreateNotify host dev ifa world.freed with
    | none => (.FATAL_ERROR, dev, [])
    | some msg =>
      match type with
      | .MULTICAST =>
        let (status, dev, sent) := notify_loop host world type (i + 1) (sent_status (world.sends i)) dev ifaces
        (status, dev, ⟨dev.config, .Multicast ifa, msg⟩ :: sent)
      | .UNICAST dest iface_addr =>
        -- only the interface that received the request
        if iface_addr = ifa.addr then
          if dest.1 = ⟨0, 0, 0, 0⟩ then (.INVALID_PARAM, dev, [])
          else (sent_status (world.sends i), dev, [⟨dev.config, .SendTo dest, msg⟩])
        else notify_loop host world type (i + 1) .SUCCESS dev ifaces

def SDDPNotify (host : Bytes) (world : World) (type : SDDPMessageType) (dev : SDDPDevice) :
    SDDPStatus × SDDPDevice × List Sent :=
  notify_loop host world type 0 .NETWORK_ERROR dev (SDDPGetInterfaces dev.config.local_only world.ifaddrs)

/-- The loop of `SDDPIdentify` and of `SDDPLeave` over the interfaces. A packet that is not sent is passed
over. -/
def tell_loop (host : Bytes) (world : World) (nt : NotificationType) :
    Nat → SDDPStatus → SDDPDevice → List SDDPInterface → SDDPStatus × SDDPDevice × List Sent
  | _, status, dev, [] => (status, dev, [])
  | i, status, dev, ifa :: ifaces =>
    let dev := { dev with private_state := { dev.private_state with nt := nt, search_response := false } }
    match SDDPCreateNotify host dev ifa world.freed with
    | none => tell_loop host world nt (i + 1) status dev ifaces
    | some msg =>
      let (status, dev, sent) := tell_loop host world nt (i + 1) (if world.sends i then .SUCCESS else status)
        dev ifaces
      (status, dev, ⟨dev.config, .Multicast ifa, msg⟩ :: sent)

/-! ## Calls -/

/-- A loop over the devices: each one is served in its own world. -/
def each (serve : World → SDDPStatus → SDDPDevice → SDDPStatus × SDDPDevice × List Sent) (world : Nat → World) :
    Nat → SDDPStatus → List SDDPDevice → SDDPStatus × List SDDPDevice × List Sent
  | _, status, [] => (status, [], [])
  | k, status, dev :: devices =>
    let (status, dev, sent) := serve (world k) status dev
    let (status, devices, more) := each serve world (k + 1) status devices
    (status, dev :: devices, sent ++ more)

/-- What a call returns, with the state after it and the packets that it sends. -/
structure Outcome where
  status : SDDPStatus
  state : SDDPState
  sent : List Sent

def SDDPSetHost (state : SDDPState) (host : Bytes) : Outcome :=
  if host.length ≥ MAX_HOST_SIZE then ⟨.INVALID_PARAM, state, []⟩
  else ⟨.SUCCESS, { state with host := host }, []⟩

/-- `SDDPSetDevice`. Setting a device again frees its new driver, and keeps its flags. -/
def SDDPSetDevice (state : SDDPState) (index : Int) (config : SDDPDeviceConfig) (driver : Bytes) : Outcome :=
  let i := index.toNat
  if (state.devices = [] ∧ index ≠ 0) ∨ i > state.devices.length then ⟨.INVALID_PARAM, state, []⟩
  else if i = state.devices.length then
    ⟨.SUCCESS, { state with devices := state.devices ++
      [⟨{ config with driver := some driver }, no_private_state⟩] }, []⟩
  else
    ⟨.SUCCESS, { state with devices := state.devices.modify i fun dev =>
      { dev with config := { config with driver := none } } }, []⟩

/-- The device of `SDDPStart`: with the shortest age that is allowed, and without flags. -/
def started (dev : SDDPDevice) : SDDPDevice :=
  let max_age := if dev.config.max_age > DISABLE_PERIODIC_ADVERTS ∧ dev.config.max_age < MIN_ADVERT_PERIOD then
    MIN_ADVERT_PERIOD else dev.config.max_age
  ⟨{ dev.config with max_age := max_age }, { no_private_state with
    alive_interval := (Int.tdiv (Int.bmod (max_age * 2) (2 ^ 32)) 3 % 2 ^ 32).toNat }⟩

def SDDPDevice.set_time_prev (dev : SDDPDevice) (now : Int) : SDDPDevice :=
  { dev with private_state := { dev.private_state with time_prev := now } }

def start_device (host : Bytes) (world : World) (_ : SDDPStatus) (dev : SDDPDevice) :
    SDDPStatus × SDDPDevice × List Sent :=
  let (status, dev, sent) := SDDPNotify host world .MULTICAST (started dev)
  (status, if status = .SUCCESS then dev.set_time_prev world.now else dev, sent)

def SDDPStart (state : SDDPState) (network_ready : Bool) (now : Int) (world : Nat → World) : Outcome :=
  if ¬IsStateValid state then ⟨.INVALID_PARAM, state, []⟩
  else
    let state := { state with sddp_enabled := true }
    if network_ready then
      let (status, devices, sent) := each (start_device state.host) world 0 .SUCCESS state.devices
      ⟨if now = -1 then .TIME_ERROR else status, { state with devices := devices }, sent⟩
    else ⟨.NETWORK_ERROR, state, []⟩

/-- The advertisement of `SDDPTick` for a device, when it is due. -/
def advertise (host : Bytes) (forceAlive : Bool) (world : World) (status : SDDPStatus) (dev : SDDPDevice) :
    SDDPStatus × SDDPDevice × List Sent :=
  if dev.config.max_age ≠ DISABLE_PERIODIC_ADVERTS ∧
      (world.now - dev.private_state.time_prev > dev.private_state.alive_interval ∨ forceAlive) then
    let dev := dev.set_time_prev world.now
    let (_, dev, sent) := SDDPNotify host world .MULTICAST
      { dev with private_state := { dev.private_state with search_response := false } }
    (status, dev, sent)
  else (status, dev, [])

/-- A search names a device: all of them, its product, or what is before a colon of its product. -/
def matches_target (argument product_name : Bytes) : Prop :=
  argument = ascii "*" ∨ argument = product_name ∨
    argument <+: product_name ∧ product_name[argument.length]? = some colon

instance (argument product_name : Bytes) : Decidable (matches_target argument product_name) :=
  inferInstanceAs (Decidable (_ ∨ _ ∨ _))

def answer (host argument : Bytes) (tran : Option Bytes) (sender : InAddr × UInt16) (iface_addr : InAddr)
    (world : World) (status : SDDPStatus) (dev : SDDPDevice) : SDDPStatus × SDDPDevice × List Sent :=
  if matches_target argument dev.config.product_name then
    if dev.config.local_only && !SDDPNetworkIsLocalAddress sender.1 world.ifaddrs then (status, dev, [])
    else
      let (status, dev, sent) := SDDPNotify host world (.UNICAST sender iface_addr)
        { dev with private_state := { dev.private_state with search_response := true, tran := tran } }
      (status, { dev with private_state := { dev.private_state with tran := none } }, sent)
  else (status, dev, [])

/-- What was received: the bytes, the sender and the address of the interface. -/
structure Datagram where
  data : Bytes
  sender : InAddr × UInt16
  iface_addr : InAddr

/-- The text that a datagram leaves in the buffer. -/
def Datagram.text (datagram : Datagram) : Bytes :=
  (datagram.data.take MAX_SDDP_FRAME_SIZE).takeWhile (· ≠ 0)

/-- What `SDDPTick` makes of a datagram. -/
def receive (state : SDDPState) (datagram : Datagram) (world : Nat → World) : Outcome :=
  match ParseSDDPPacket datagram.text with
  | .ok (some ⟨.Request (some method) (some argument) (some version), headers, _⟩) =>
    if version = SDDP_VERSION ∧ method = ascii "SEARCH" then
      let (status, devices, sent) := each (answer state.host argument (headers .Tran) datagram.sender
        datagram.iface_addr) world 0 .SUCCESS state.devices
      ⟨status, { state with devices := devices }, sent⟩
    else ⟨.SUCCESS, state, []⟩
  | _ => ⟨.SUCCESS, state, []⟩

def SDDPTick (state : SDDPState) (forceAlive : Bool) (received : Option Datagram) (world answers : Nat → World) :
    Outcome :=
  if ¬IsStateValid state then ⟨.INVALID_PARAM, state, []⟩
  else if !state.sddp_enabled then ⟨.UNINITIALIZED, state, []⟩
  else
    let (_, devices, sent) := each (advertise state.host forceAlive) world 0 .SUCCESS state.devices
    let state := { state with devices := devices }
    match received with
    | none => ⟨.SUCCESS, state, sent⟩
    | some datagram =>
      let outcome := receive state datagram answers
      { outcome with sent := sent ++ outcome.sent }

/-- The body of `SDDPIdentify` and of `SDDPLeave`. -/
def announce (state : SDDPState) (nt : NotificationType) (world : Nat → World) : Outcome :=
  if ¬IsStateValid state then ⟨.INVALID_PARAM, state, []⟩
  else if !state.sddp_enabled then ⟨.UNINITIALIZED, state, []⟩
  else
    let (status, devices, sent) := each (fun world status dev => tell_loop state.host world nt 0 status dev
      (SDDPGetInterfaces dev.config.local_only world.ifaddrs)) world 0 .NETWORK_ERROR state.devices
    ⟨status, { state with devices := devices }, sent⟩

def SDDPIdentify (state : SDDPState) (world : Nat → World) : Outcome := announce state .SDDP_IDENTIFY world

def SDDPLeave (state : SDDPState) (world : Nat → World) : Outcome := announce state .SDDP_OFFLINE world

inductive Call where
  | SetHost (host : Bytes)
  | SetDevice (index : Int) (config : SDDPDeviceConfig) (driver : Bytes)
  | Start (network_ready : Bool) (now : Int) (world : Nat → World)
  | Tick (forceAlive : Bool) (received : Option Datagram) (world answers : Nat → World)
  | Identify (world : Nat → World)
  | Leave (world : Nat → World)

def exec (state : SDDPState) : Call → Outcome
  | .SetHost host => SDDPSetHost state host
  | .SetDevice index config driver => SDDPSetDevice state index config driver
  | .Start network_ready now world => SDDPStart state network_ready now world
  | .Tick forceAlive received world answers => SDDPTick state forceAlive received world answers
  | .Identify world => SDDPIdentify state world
  | .Leave world => SDDPLeave state world

def step (state : SDDPState) (call : Call) : Option SDDPState := some (exec state call).state

end yocto.sddp
