import MicroK.CheckedState
import MicroK.MachineWords

/-!
# State of the network stack

The variables of `net.c` that packet handlers read and write, the ARP cache and the frame
transmission. Buffers of a fixed size carry that size in their type; what the network card and the
wireless driver answer is part of the environment.
-/

namespace MicroK.Net

def u16 (n : ℕ) : ℕ := n % 2 ^ 16

theorem u16_of_lt {n : ℕ} (h : n < 2 ^ 16) : u16 n = n := Nat.mod_eq_of_lt h

def ntohs (n : ℕ) : ℕ := u16 (n <<< 8 ||| n >>> 8)

def htons (n : ℕ) : ℕ := u16 (n <<< 8 ||| n >>> 8)

def htonl (h : ℕ) : ℕ :=
  (h &&& 0xFF) <<< 24 ||| ((h >>> 8) &&& 0xFF) <<< 16 ||| ((h >>> 16) &&& 0xFF) <<< 8 |||
    ((h >>> 24) &&& 0xFF)

def ntohl (n : ℕ) : ℕ := htonl n

def asciiBytes (s : String) : List UInt8 := s.toList.map fun c => UInt8.ofNat c.toNat

abbrev Ip := Vector UInt8 4

abbrev Mac := Vector UInt8 6

structure ArpEntry where
  ip : Ip
  mac : Mac
  valid : Bool

structure ArpCache where
  entries : Fin 16 → ArpEntry
  victim : Fin 16

namespace ArpCache

variable (c : ArpCache)

def find (ip : Ip) : Option (Fin 16) :=
  (List.finRange 16).find? fun i => (c.entries i).valid && (c.entries i).ip == ip

def lookup (ip : Ip) : Option Mac := (c.find ip).map fun i => (c.entries i).mac

end ArpCache

def arpCacheAdd (c : ArpCache) (ip : Ip) (mac : Mac) : ArpCache :=
  match c.find ip with
  | some i => { c with entries := Function.update c.entries i { c.entries i with mac } }
  | none =>
    match (List.finRange 16).find? fun i => !(c.entries i).valid with
    | some i => { c with entries := Function.update c.entries i ⟨ip, mac, true⟩ }
    | none =>
      ⟨Function.update c.entries c.victim ⟨ip, mac, true⟩, c.victim + 1⟩

theorem lookup_arpCacheAdd (c : ArpCache) (ip : Ip) (mac : Mac) :
    ∃ found, (arpCacheAdd c ip mac).lookup ip = some found := by
  have hfound : ∀ c' : ArpCache, (∃ i, (c'.entries i).valid = true ∧ (c'.entries i).ip = ip) →
      ∃ found, c'.lookup ip = some found := by
    rintro c' ⟨i, hvalid, hip⟩
    have hsome : (c'.find ip).isSome = true := by
      rw [ArpCache.find, List.find?_isSome]
      exact ⟨i, List.mem_finRange i, by simp [hvalid, hip]⟩
    obtain ⟨j, hj⟩ := Option.isSome_iff_exists.mp hsome
    exact ⟨_, by rw [ArpCache.lookup, hj, Option.map_some]⟩
  apply hfound
  unfold arpCacheAdd
  cases hfind : c.find ip with
  | some i =>
    have hhit := List.find?_some hfind
    exact ⟨i, by simpa using hhit⟩
  | none =>
    cases (List.finRange 16).find? fun i => !(c.entries i).valid with
    | some i => exact ⟨i, by simp⟩
    | none => exact ⟨c.victim, by simp⟩

structure TxRing where
  ready : Bool
  tail : Fin 8
  buffers : Image
  size_eq : buffers.size = 8 * 2048

def TxRing.store (r : TxRing) (l : List UInt8) : Outcome TxRing :=
  if r.tail * 2048 + l.length ≤ r.buffers.size then
    .ok { r with buffers := r.buffers.put (r.tail * 2048) l }
  else .fault

structure NetConfig where
  ip : Ip
  mac : Mac
  nicPresent : Bool

inductive TcpState
  | closed
  | synSent
  | established
  | done
  deriving DecidableEq

structure TcpConn where
  state : TcpState
  remoteIp : Ip
  remotePort : ℕ
  localPort : ℕ
  localSeq : ℕ
  remoteSeq : ℕ
  rstReceived : Bool
  finReceived : Bool

/-- `tcp_recv_buf` and `tcp_recv_buf_size`: a buffer of the caller and how much may be used. -/
structure RecvBuffer where
  bytes : Image
  size : ℕ
  size_le : size ≤ bytes.size
  size_lt : size < 2 ^ 32

def RecvBuffer.store (b : RecvBuffer) (off : ℕ) (l : List UInt8) : Outcome RecvBuffer :=
  if off + l.length ≤ b.bytes.size then .ok { b with bytes := b.bytes.put off l } else .fault

structure Segment where
  seq : ℕ
  ack : ℕ
  flags : ℕ
  payload : List UInt8
  deriving DecidableEq

def Segment.has (seg : Segment) (flag : ℕ) : Bool := seg.flags &&& flag != 0

structure Step where
  conn : TcpConn
  buf : Option RecvBuffer
  len : ℕ
  seg : Segment

inductive DhcpState
  | idle
  | discovering
  | requesting
  | bound
  deriving DecidableEq

structure DhcpClient where
  state : DhcpState
  xid : ℕ
  offeredIp : Ip
  serverId : Ip
  offeredMask : Ip
  offeredGw : Ip
  offeredDns : Ip

structure DnsClient where
  replyReceived : Bool
  txid : ℕ
  resolvedIp : Ip

structure PingClient where
  replyReceived : Bool
  pendingId : ℕ
  pendingSeq : ℕ

inductive UdpHandler
  | dhcp
  | dns
  | llm
  | rsh
  deriving DecidableEq

structure UdpBinding where
  port : ℕ
  handler : UdpHandler
  active : Bool

structure UdpRequest where
  handler : UdpHandler
  srcIp : Ip
  srcMac : Mac
  srcPort : ℕ
  payload : List UInt8

structure NetState where
  config : NetConfig
  arpCache : ArpCache
  wifiRouteActive : Bool
  rtl : TxRing
  e1000 : TxRing
  /-- The frames that were handed to a driver. -/
  sent : List (List UInt8)
  /-- The number of calls to a driver. -/
  sends : ℕ
  ping : PingClient
  tcp : TcpConn
  tcpNextLocalPort : ℕ
  recvBuf : Option RecvBuffer
  recvLen : ℕ
  /-- The segments of the connection so far. -/
  log : List Step
  dhcp : DhcpClient
  dns : DnsClient
  udpBindings : Fin 8 → UdpBinding
  requests : List UdpRequest

/-- The state once a card with the given driver has been found: the variables are zero. -/
def NetState.boot (config : NetConfig) (rtlReady e1000Ready : Bool) : NetState where
  config := config
  arpCache := ⟨fun _ => ⟨Vector.replicate 4 0, Vector.replicate 6 0, false⟩, 0⟩
  wifiRouteActive := false
  rtl := ⟨rtlReady, 0, ⟨8 * 2048, fun _ => 0⟩, rfl⟩
  e1000 := ⟨e1000Ready, 0, ⟨8 * 2048, fun _ => 0⟩, rfl⟩
  sent := []
  sends := 0
  ping := ⟨false, 0, 0⟩
  tcp := ⟨.closed, Vector.replicate 4 0, 0, 0, 0, 0, false, false⟩
  tcpNextLocalPort := 49152
  recvBuf := none
  recvLen := 0
  log := []
  dhcp := ⟨.idle, 0, Vector.replicate 4 0, Vector.replicate 4 0, Vector.replicate 4 0,
    Vector.replicate 4 0, Vector.replicate 4 0⟩
  dns := ⟨false, 0, Vector.replicate 4 0⟩
  udpBindings := fun _ => ⟨0, .dhcp, false⟩
  requests := []

def NetState.ringsReady (s : NetState) : Bool := s.e1000.ready || s.rtl.ready

/-- What the environment decides: the bytes of a fresh stack buffer, and for every call to a driver
whether the descriptor at the tail is free, whether the card completes in time and what the wireless
driver returns. -/
structure NetEnv where
  stack : ℕ → UInt8
  slotFree : ℕ → Bool
  completes : ℕ → Bool
  wifiSends : ℕ → Bool

/-- The card takes every frame. -/
def NetEnv.quiet : NetEnv := ⟨fun _ => 0, fun _ => true, fun _ => true, fun _ => true⟩

abbrev NetM := Checked NetState

open Checked

variable (env : NetEnv)

def stackFrame (size : ℕ) : Image := ⟨size, env.stack⟩

def checksumWords (f : Image) : ℕ → ℕ → ℕ → Outcome ℕ
  | off, len + 2, sum => do
    let hi ← f.readLe off 1
    let lo ← f.readLe (off + 1) 1
    checksumWords f (off + 2) len (u32 (sum + (hi <<< 8 ||| lo)))
  | off, 1, sum => do
    let hi ← f.readLe off 1
    pure (u32 (sum + hi <<< 8))
  | _, 0, sum => pure sum

/-- The loop `while (sum >> 16)`, for a number of rounds. -/
def foldCarries : ℕ → ℕ → Outcome ℕ
  | 0, _ => .endless
  | rounds + 1, sum =>
    if sum >>> 16 = 0 then .ok sum
    else foldCarries rounds (u32 ((sum &&& 0xFFFF) + sum >>> 16))

def netChecksum16Finish (sum : ℕ) : Outcome ℕ := do
  let sum ← foldCarries 3 sum
  pure (0xFFFF - u16 sum)

variable (f : Image)

def netChecksum16 (off len : ℕ) : Outcome ℕ := do
  let sum ← checksumWords f off len 0
  netChecksum16Finish sum

def ethParts (dest src : Mac) (type : ℕ) : List (ℕ × List UInt8) :=
  [(0, dest.toList), (6, src.toList), (12, leBytes 2 (htons type))]

/-- The IPv4 header behind the Ethernet header; `id` as it stands in memory. -/
def ipParts (total id proto : ℕ) (src dest : Ip) : List (ℕ × List UInt8) :=
  [(14, [0x45]), (15, [0]), (16, leBytes 2 (htons total)), (18, leBytes 2 id), (20, leBytes 2 0),
    (22, [64]), (23, leBytes 1 proto), (24, leBytes 2 0), (26, src.toList), (30, dest.toList)]

variable (len : ℕ)

def padFrame : Outcome (Image × ℕ) := do
  if len < 60 then
    let f ← f.store len (List.replicate (60 - len) 0)
    pure (f, 60)
  else pure (f, len)

def rtlSendFrame : NetM Bool := do
  let s ← get
  if !s.rtl.ready || len == 0 || decide (2048 < len) then pure false
  else if !env.slotFree s.sends then do
    modify fun s => { s with sends := s.sends + 1 }
    pure false
  else do
    let bytes ← lift (f.readBytes 0 len)
    let bytes := bytes ++ List.replicate (60 - len) 0
    let ring ← lift (s.rtl.store bytes)
    modify fun s => { s with
      rtl := { ring with tail := ring.tail + 1 }, sent := s.sent ++ [bytes], sends := s.sends + 1 }
    pure true

def e1000SendFrame : NetM Bool := do
  let s ← get
  if !s.e1000.ready || len == 0 || decide (2048 < len) then pure false
  else if !env.slotFree s.sends then do
    modify fun s => { s with sends := s.sends + 1 }
    pure false
  else do
    let bytes ← lift (f.readBytes 0 len)
    let ring ← lift (s.e1000.store bytes)
    modify fun s => { s with
      e1000 := { ring with tail := ring.tail + 1 }, sent := s.sent ++ [bytes],
      sends := s.sends + 1 }
    pure (env.completes s.sends)

def nicSendFrame : NetM Bool := do
  let s ← get
  if s.wifiRouteActive then do
    let bytes ← lift (f.readBytes 0 len)
    modify fun s => { s with sent := s.sent ++ [bytes], sends := s.sends + 1 }
    pure (env.wifiSends s.sends)
  else if s.rtl.ready then rtlSendFrame env f len
  else e1000SendFrame env f len

variable (env : NetEnv)

def arpFrame (config : NetConfig) (dest targetMac : Mac) (opcode : ℕ) (targetIp : Ip) :
    Outcome Image :=
  (stackFrame env 42).storeAll (ethParts dest config.mac 0x0806 ++
    [(14, leBytes 2 (htons 1)), (16, leBytes 2 (htons 0x0800)), (18, [6]), (19, [4]),
      (20, leBytes 2 (htons opcode)), (22, config.mac.toList), (28, config.ip.toList),
      (32, targetMac.toList), (38, targetIp.toList)])

def icmpEchoReplyFrame (config : NetConfig) (rx : Image) (icmpStart dataLen : ℕ) :
    Outcome (Image × ℕ) := do
  let dataLen := if 56 < dataLen then 56 else dataLen
  let ipTotal := u16 (20 + 8 + dataLen)
  let destMac ← rx.readArray 6 6
  let id ← rx.readLe 18 2
  let destIp ← rx.readArray 4 26
  let f ← (stackFrame env 512).storeAll
    (ethParts destMac config.mac 0x0800 ++ ipParts ipTotal id 1 config.ip destIp)
  let sum ← netChecksum16 f 14 20
  let icmpId ← rx.readLe (icmpStart + 4) 2
  let icmpSeq ← rx.readLe (icmpStart + 6) 2
  let data ← rx.readBytes (icmpStart + 8) dataLen
  let f ← f.storeAll
    [(24, leBytes 2 (htons sum)), (34, [0]), (35, [0]), (38, leBytes 2 icmpId),
      (40, leBytes 2 icmpSeq), (36, leBytes 2 0), (42, data)]
  let sum ← netChecksum16 f 34 (8 + dataLen)
  let f ← f.store 36 (leBytes 2 (htons sum))
  padFrame f (14 + ipTotal)

def udpFrame (config : NetConfig) (destIp : Ip) (destMac : Mac) (destPort srcPort : ℕ)
    (payload : List UInt8) : Outcome (Image × ℕ) := do
  let ipLen := 20 + 8 + payload.length
  let f ← (stackFrame env 2048).storeAll ((0, List.replicate (14 + ipLen) 0) ::
    ethParts destMac config.mac 0x0800 ++
    ipParts (u16 ipLen) (htons 0x4D4B) 17 config.ip destIp)
  let sum ← netChecksum16 f 14 20
  let f ← f.storeAll
    [(24, leBytes 2 (htons sum)), (34, leBytes 2 (htons srcPort)), (36, leBytes 2 (htons destPort)),
      (38, leBytes 2 (htons (u16 (8 + payload.length)))), (40, leBytes 2 0), (42, payload)]
  padFrame f (14 + ipLen)

def tcpPseudoHeader (src dest : Ip) (tcpLen : ℕ) : Image :=
  .ofList (src.toList ++ dest.toList ++ [0, 6] ++ leBytes 2 (htons (u16 tcpLen)))

def tcpFrame (config : NetConfig) (conn : TcpConn) (destMac : Mac) (flags : ℕ)
    (payload : List UInt8) : Outcome (Image × ℕ) := do
  let ipLen := 20 + 20 + payload.length
  let f ← (stackFrame env 2048).storeAll ((0, List.replicate (14 + ipLen) 0) ::
    ethParts destMac config.mac 0x0800 ++
    ipParts (u16 ipLen) (htons 0x4D4C) 6 config.ip conn.remoteIp)
  let sum ← netChecksum16 f 14 20
  let f ← f.storeAll
    [(24, leBytes 2 (htons sum)), (34, leBytes 2 (htons conn.localPort)),
      (36, leBytes 2 (htons conn.remotePort)), (38, leBytes 4 (htonl conn.localSeq)),
      (42, leBytes 4 (htonl (if flags &&& 0x10 ≠ 0 then conn.remoteSeq else 0))), (46, [0x50]),
      (47, leBytes 1 flags), (48, leBytes 2 (htons 8192)), (50, leBytes 2 0), (52, leBytes 2 0),
      (54, payload)]
  let sum ← checksumWords (tcpPseudoHeader config.ip conn.remoteIp (20 + payload.length)) 0 12 0
  let sum ← checksumWords f 34 (20 + payload.length) sum
  let sum ← netChecksum16Finish sum
  let f ← f.store 50 (leBytes 2 (htons sum))
  padFrame f (14 + ipLen)

def dhcpRequest (config : NetConfig) (dhcp : DhcpClient) : Outcome (List UInt8) := do
  let f ← (stackFrame env 300).storeAll
    [(0, List.replicate 300 0), (0, [1]), (1, [1]), (2, [6]), (4, leBytes 4 dhcp.xid),
      (10, leBytes 2 (htons 0x8000)), (28, config.mac.toList), (236, leBytes 4 (htonl 0x63825363)),
      (240, [53, 1, 3, 50, 4]), (245, dhcp.offeredIp.toList), (249, [54, 4]),
      (251, dhcp.serverId.toList), (255, [55, 4, 1, 3, 6, 51, 255])]
  f.readBytes 0 262

section

def broadcastMac : Mac := Vector.replicate 6 0xFF

def broadcastIp : Ip := Vector.replicate 4 0xFF

def netSendArpRequest (targetIp : Ip) : NetM Bool := do
  let s ← get
  let f ← lift (arpFrame env s.config broadcastMac (Vector.replicate 6 0) 1 targetIp)
  nicSendFrame env f 42

def netSendArpReply (rx : Image) : NetM Bool := do
  let s ← get
  let senderMac ← lift (rx.readArray 6 22)
  let senderIp ← lift (rx.readArray 4 28)
  let f ← lift (arpFrame env s.config senderMac senderMac 2 senderIp)
  nicSendFrame env f 42

def netSendIcmpEchoReply (rx : Image) (icmpStart dataLen : ℕ) : NetM Unit := do
  let s ← get
  let (f, len) ← lift (icmpEchoReplyFrame env s.config rx icmpStart dataLen)
  let _ ← nicSendFrame env f (u16 len)
  pure ()

variable (wait : Ip → NetM (Option Mac))

def netResolveMac (destIp : Ip) : NetM (Option Mac) := do
  if destIp = broadcastIp then pure (some broadcastMac)
  else do
    let s ← get
    match s.arpCache.lookup destIp with
    | some mac => pure (some mac)
    | none => wait destIp

def netSendUdp (destIp : Ip) (destPort srcPort : ℕ) (payload : List UInt8) : NetM Bool := do
  let s ← get
  if !s.ringsReady || !s.config.nicPresent then pure false
  else do
    match ← netResolveMac wait destIp with
    | none => pure false
    | some destMac =>
      if 2048 < 14 + (20 + 8 + payload.length) then pure false
      else do
        let s ← get
        let (f, len) ← lift (udpFrame env s.config destIp destMac destPort srcPort payload)
        nicSendFrame env f (u16 len)

def netSendTcpSegment (flags : ℕ) (payload : List UInt8) : NetM Bool := do
  let s ← get
  if !s.ringsReady || !s.config.nicPresent then pure false
  else do
    match ← netResolveMac wait s.tcp.remoteIp with
    | none => pure false
    | some destMac =>
      if 2048 < 14 + (20 + 20 + payload.length) then pure false
      else do
        let s ← get
        let (f, len) ← lift (tcpFrame env s.config s.tcp destMac flags payload)
        nicSendFrame env f (u16 len)

def dhcpSendRequest : NetM Unit := do
  let s ← get
  let payload ← lift (dhcpRequest env s.config s.dhcp)
  let _ ← netSendUdp env wait broadcastIp 67 68 payload
  pure ()

end

end MicroK.Net
