import MicroK.CheckedState
import MicroK.Wpa2Crypto
import MicroK.MachineWords

/-!
# State of the wireless driver

The variables of `iwlwifi.c` that the runtime driver reads and writes. The adapter completes receive
buffers: it writes their contents and their descriptors and moves its index on. It is observed
whenever the driver reads that index, and what it has completed by then is part of the environment,
as is what the network stack sends in answer to a packet. The trace records what the driver does to
the adapter and to the network stack, and where the handshake code runs; the driver never reads it.
-/

namespace MicroK.Iwl

structure ScanResult where
  bssid : Vector UInt8 6 := .replicate 6 0
  ssid : Vector UInt8 33 := .replicate 33 0
  ssidLength : ℕ := 0
  channel : UInt8 := 0
  rssiDbm : ℤ := 0
  capability : ℕ := 0
  beaconInterval : ℕ := 0
  dtimPeriod : UInt8 := 0
  rsn : Bool := false
  rsnIe : Vector UInt8 66 := .replicate 66 0
  rsnIeLength : ℕ := 0
  wpa2PskCcmp : Bool := false
  ssidLength_le : ssidLength ≤ 32 := by decide
  rsnIeLength_le : rsnIeLength ≤ 66 := by decide

def zeroImage (n : ℕ) : Image := ⟨n, fun _ => 0⟩

def be16 (n : ℕ) : List UInt8 := [UInt8.ofNat (n / 256), UInt8.ofNat n]

def readBe16 (b : List UInt8) (i : ℕ) : ℕ := 256 * (b.getD i 0).toNat + (b.getD (i + 1) 0).toNat

def managementHeader (control : ℕ) (bssid mac : Vector UInt8 6) : List (ℕ × List UInt8) :=
  [(0, List.replicate 24 0), (0, leBytes 2 control), (4, bssid.toList), (10, mac.toList),
    (16, bssid.toList)]

def assemble (size length : ℕ) (parts : List (ℕ × List UInt8)) : Outcome (List UInt8) := do
  let f ← (zeroImage size).storeAll parts
  f.readBytes 0 length

def authenticationFrame (network : ScanResult) (mac : Vector UInt8 6) : Outcome (List UInt8) :=
  assemble 160 30 <| managementHeader 0x00B0 network.bssid mac ++
    [(24, leBytes 2 0), (26, leBytes 2 1), (28, leBytes 2 0)]

def supportedRates (channel : UInt8) : List UInt8 :=
  if channel ≤ 14 then [4, 0x82, 0x84, 0x8B, 0x96]
  else [8, 0x8C, 0x12, 0x98, 0x24, 0xB0, 0x48, 0x60, 0x6C]

def associationRequest (network : ScanResult) (mac : Vector UInt8 6) : Outcome (List UInt8) :=
  let rates := supportedRates network.channel
  let ratesAt := 30 + network.ssidLength
  let length := ratesAt + 1 + rates.length
  let parts := managementHeader 0x0000 network.bssid mac ++
    [(24, leBytes 2 network.capability), (26, leBytes 2 10),
      (28, [0, UInt8.ofNat network.ssidLength]), (30, network.ssid.toList.take network.ssidLength),
      (ratesAt, [1]), (ratesAt + 1, rates)]
  if network.rsnIeLength ≠ 0 ∧ length + network.rsnIeLength ≤ 160 then
    assemble 160 (length + network.rsnIeLength)
      (parts ++ [(length, network.rsnIe.toList.take network.rsnIeLength)])
  else assemble 160 length parts

def ccmpHeader (pn : ℕ) : List UInt8 :=
  [UInt8.ofNat pn, UInt8.ofNat (pn / 2 ^ 8), 0, 0x20, UInt8.ofNat (pn / 2 ^ 16),
    UInt8.ofNat (pn / 2 ^ 24), UInt8.ofNat (pn / 2 ^ 32), UInt8.ofNat (pn / 2 ^ 40)]

/-- The data frame for an Ethernet frame, with the CCMP header in front of the payload when the
frame is encrypted. -/
def ethernetFrame (network : ScanResult) (mac : Vector UInt8 6) (encrypted : Bool) (pn : ℕ)
    (ethernet : List UInt8) : Outcome (List UInt8) :=
  let payloadAt := if encrypted then 32 else 24
  assemble 1536 (ethernet.length + 18 + if encrypted then 8 else 0) <|
    managementHeader (if encrypted then 0x4108 else 0x0108) network.bssid mac ++
    [(16, ethernet.take 6)] ++ (if encrypted then [(24, ccmpHeader pn)] else []) ++
    [(payloadAt, [0xAA, 0xAA, 0x03, 0, 0, 0, ethernet.getD 12 0, ethernet.getD 13 0]),
      (payloadAt + 8, ethernet.drop 14)]

/-- An answer of the handshake: an Ethernet frame with an EAPOL-Key body at offset 14, whose MIC is
computed over the body before it is filled in. -/
def keyMessage (size bodyLength : ℕ) (network : ScanResult) (mac : Vector UInt8 6)
    (ptk : List UInt8) (body : List (ℕ × List UInt8)) : Outcome (List UInt8) := do
  let f ← (zeroImage size).storeAll <|
    [(0, network.bssid.toList), (6, mac.toList), (12, [0x88, 0x8E])] ++ body
  let eapol ← f.readBytes 14 bodyLength
  let f ← f.store 95 ((Wpa2.hmacSha1 (ptk.take 16) eapol).take 16)
  f.readBytes 0 (14 + bodyLength)

def wpa2Message2 (network : ScanResult) (mac : Vector UInt8 6) (ptk : List UInt8)
    (replayCounter : Vector UInt8 8) (snonce : Vector UInt8 32) (message1 : List UInt8) :
    Outcome (List UInt8) :=
  let dataLength := network.rsnIeLength
  keyMessage (14 + 99 + 66) (99 + dataLength) network mac ptk
    [(14, [message1.getD 0 0]), (15, [3]), (16, be16 (95 + dataLength)),
      (18, [message1.getD 4 0]), (19, be16 (readBe16 message1 5 % 8 + 0x0108)),
      (21, (message1.drop 7).take 2), (23, replayCounter.toList), (31, snonce.toList),
      (111, be16 dataLength), (113, network.rsnIe.toList.take dataLength)]

def wpa2Message4 (network : ScanResult) (mac : Vector UInt8 6) (ptk message3 : List UInt8) :
    Outcome (List UInt8) :=
  keyMessage (14 + 99) 99 network mac ptk
    [(14, [message3.getD 0 0]), (15, [3]), (16, be16 95), (18, [message3.getD 4 0]),
      (19, be16 (readBe16 message3 5 % 8 + 0x0308)), (21, (message3.drop 7).take 2),
      (23, (message3.drop 9).take 8)]

def auxTxSlots : ℕ := 32

def auxQueueId : ℕ := 1

structure AuxTx where
  write : ℕ := 0
  read : ℕ := 0
  deriving DecidableEq

namespace AuxTx

variable (q : AuxTx)

def full : Prop := auxTxSlots ≤ sub32 q.write q.read

instance (q : AuxTx) : Decidable q.full := inferInstanceAs (Decidable (_ ≤ _))

/-- What queueing a frame does to the counters; a full queue refuses it. -/
def send : AuxTx := if q.full then q else { q with write := u32 (q.write + 1) }

def completed (sequence : ℕ) : AuxTx :=
  let completed := sequence % 256 + 1
  let base := q.read / 256 * 256
  let base := if completed ≤ q.read % 256 then u32 (base + 256) else base
  if u32 (base + completed) ≤ q.write then { q with read := u32 (base + completed) } else q

/-- The frames queued and not reported yet, by their count. -/
def InFlight (slot : ℕ) : Prop := q.read ≤ slot ∧ slot < q.write

instance (q : AuxTx) (slot : ℕ) : Decidable (q.InFlight slot) :=
  inferInstanceAs (Decidable (_ ∧ _))

structure Bounded (q : AuxTx) (sends : ℕ) : Prop where
  read_le : q.read ≤ q.write
  write_le : q.write ≤ q.read + auxTxSlots
  write_le_sends : q.write ≤ sends

variable {q : AuxTx} {n : ℕ}

variable (h : q.Bounded n)
include h

theorem Bounded.send (hn : n + 1 < 2 ^ 31) : q.send.Bounded (n + 1) := by
  obtain ⟨hread, hwrite, hsends⟩ := h
  unfold AuxTx.send
  split_ifs with hfull
  · exact ⟨hread, hwrite, by omega⟩
  · have hdiff : sub32 q.write q.read = q.write - q.read := sub32_of_le hread (by omega)
    have hnext : u32 (q.write + 1) = q.write + 1 := u32_of_lt (by omega)
    unfold full at hfull
    refine ⟨?_, ?_, ?_⟩ <;> dsimp only <;> omega

theorem completed_eq (hn : n < 2 ^ 31) (sequence : ℕ) :
    q.completed sequence =
      let target := q.read + (sequence % 256 + 256 - q.read % 256) % 256 + 1
      if target ≤ q.write then { q with read := target } else q := by
  obtain ⟨hread, hwrite, hsends⟩ := h
  have hbase : (if sequence % 256 + 1 ≤ q.read % 256 then u32 (q.read / 256 * 256 + 256)
      else q.read / 256 * 256) + (sequence % 256 + 1) =
      q.read + (sequence % 256 + 256 - q.read % 256) % 256 + 1 := by
    split_ifs with hwrap
    · rw [u32_of_lt (by omega)]
      omega
    · omega
  unfold completed
  dsimp only
  rw [hbase, u32_of_lt (by omega)]

theorem Bounded.completed (hn : n < 2 ^ 31) (sequence : ℕ) : (q.completed sequence).Bounded n := by
  rw [completed_eq h hn]
  obtain ⟨hread, hwrite, hsends⟩ := h
  dsimp only
  split_ifs with htarget
  · refine ⟨?_, ?_, ?_⟩ <;> dsimp only <;> omega
  · exact ⟨hread, hwrite, hsends⟩

theorem completed_of_inFlight (hn : n < 2 ^ 31) {slot sequence : ℕ}
    (hslot : q.InFlight slot) (hname : sequence % 256 = slot % 256) :
    q.completed sequence = { q with read := slot + 1 } := by
  obtain ⟨hlow, hhigh⟩ := hslot
  have hwindow := h.write_le
  unfold auxTxSlots at hwindow
  have htarget : q.read + (sequence % 256 + 256 - q.read % 256) % 256 = slot := by omega
  rw [completed_eq h hn]
  rw [htarget, if_pos (by omega)]

theorem completed_of_not_inFlight (hn : n < 2 ^ 31) {sequence : ℕ}
    (hname : ∀ slot, q.InFlight slot → sequence % 256 ≠ slot % 256) : q.completed sequence = q := by
  rw [completed_eq h hn]
  refine if_neg fun htarget => ?_
  apply hname (q.read + (sequence % 256 + 256 - q.read % 256) % 256) ⟨by omega, by omega⟩
  omega

end AuxTx

/-- What can happen to the queue: the driver sends, or the adapter reports. -/
inductive AuxOp where
  | send
  | completed (sequence : ℕ)
  deriving DecidableEq

def AuxOp.apply (q : AuxTx) : AuxOp → AuxTx
  | .send => q.send
  | .completed sequence => q.completed sequence

def auxRun (ops : List AuxOp) : AuxTx := ops.foldl AuxOp.apply {}

theorem auxRun_bounded (ops : List AuxOp) (hops : ops.count .send < 2 ^ 31) :
    (auxRun ops).Bounded (ops.count .send) := by
  induction ops using List.reverseRecOn with
  | nil => exact ⟨le_rfl, Nat.zero_le _, le_rfl⟩
  | append_singleton ops op ih =>
    rw [List.count_append] at hops ⊢
    rw [auxRun, List.foldl_append]
    cases op with
    | send => exact (ih (by omega)).send hops
    | completed sequence => exact (ih (by omega)).completed (by omega) sequence

/-- After any sends, fewer than 2³¹ of them, and any reports, at most 32 frames are in flight; a
report that names one of them moves the read count just past it, and any other changes nothing. -/
theorem auxRun_window (ops : List AuxOp) (hops : ops.count .send < 2 ^ 31) :
    let q := auxRun ops
    q.read ≤ q.write ∧ q.write ≤ q.read + auxTxSlots ∧
      (∀ slot sequence, q.InFlight slot → sequence % 256 = slot % 256 →
        q.completed sequence = { q with read := slot + 1 }) ∧
      ∀ sequence, (∀ slot, q.InFlight slot → sequence % 256 ≠ slot % 256) →
        q.completed sequence = q := by
  have h := auxRun_bounded ops hops
  exact ⟨h.read_le, h.write_le,
    fun slot sequence hslot hname => AuxTx.completed_of_inFlight h hops hslot hname,
    fun sequence hname => AuxTx.completed_of_not_inFlight h hops hname⟩

theorem auxRun_window_three :
    let q := auxRun [.send, .send, .send, .completed 0x100, .completed 0x177]
    (q.read = 1 ∧ q.write = 3 ∧ q.InFlight 2) ∧
      q.completed 0x102 = { q with read := 3 } ∧ q.completed 0x100 = q := by
  have h := auxRun_window [.send, .send, .send, .completed 0x100, .completed 0x177] (by decide)
  refine ⟨by decide, h.2.2.1 2 0x102 (by decide) rfl, h.2.2.2 0x100 fun slot hslot => ?_⟩
  have hread : (1 : ℕ) ≤ slot := hslot.1
  have hwrite : slot < 3 := hslot.2
  omega

def rxQueueSize : ℕ := 512

def rxBufferSize : ℕ := 4096

def rxFrameInvalid : ℕ := 0x55550000

def rxFrameAlign : ℕ := 64

structure Completion where
  descriptor : ℕ
  contents : ℕ → UInt8

/-- The receive queue: what the adapter writes (the index of the next buffer it will complete, the
used descriptors and the buffers by their number) and the indices of the driver. -/
structure RxRing where
  closed : ℕ := 0
  used : ℕ → ℕ := fun _ => 0
  buffer : ℕ → ℕ → UInt8 := fun _ _ => 0
  readIndex : ℕ := 0
  writeIndex : ℕ := 511
  writeActual : ℕ := 504

namespace RxRing

def complete (r : RxRing) (c : Completion) : RxRing :=
  { r with
    closed := (r.closed + 1) % rxQueueSize
    used := Function.update r.used r.closed c.descriptor
    buffer := Function.update r.buffer (c.descriptor % 4096) c.contents }

def virtualId (r : RxRing) (index : ℕ) : ℕ := r.used index % 4096

def image (r : RxRing) (id : ℕ) : Image := ⟨rxBufferSize, r.buffer id⟩

end RxRing

inductive FwCommand where
  | phyContext (channel : UInt8)
  | macContext (bssid : Vector UInt8 6) (associated : Bool)
  | bindingContext
  | addStation (bssid : Vector UInt8 6)
  | queueConfig
  | pairwiseKey (key : List UInt8)
  | groupKey (key : List UInt8) (keyId : ℕ) (receiveSequence : List UInt8)
  deriving DecidableEq

def FwCommand.opcode : FwCommand → ℕ
  | phyContext _ => 0x08
  | macContext .. => 0x28
  | bindingContext => 0x2B
  | addStation _ => 0x18
  | queueConfig => 0x1D
  | pairwiseKey _ => 0x17
  | groupKey .. => 0x17

/-- How far the handshake code has come with one frame: a pairwise key may have been installed, and
the handshake may have been completed after that. -/
inductive Progress where
  | unkeyed
  | keyed
  | complete
  deriving DecidableEq

/-- What the driver does, as far as the outside can see it. -/
inductive Event where
  /-- A connection with a passphrase is begun. -/
  | connecting
  /-- A network is joined without one. -/
  | associating
  /-- The link is up; the flag says whether the network entry had an RSN element then. -/
  | joined (rsn : Bool)
  /-- A frame is handed to the transmit queue, with the temporal key of that moment. -/
  | sent (station : ℕ) (frame temporalKey : List UInt8)
  | command (c : FwCommand)
  /-- A packet is passed to the handler of notifications. -/
  | notified (packet : List UInt8)
  | recycled (id : ℕ)
  /-- A frame without receive errors arrives, with its frame control field. -/
  | received (control : ℕ)
  /-- A packet is passed to the network stack, with the frame control and the receive status. -/
  | delivered (control status : ℕ) (ethernet : List UInt8)
  /-- An entry of the scan table is rewritten, with or without an RSN element. -/
  | filed (index : Fin 16) (rsn : Bool)
  /-- A frame of an active handshake reaches the deferral check of the handshake code. -/
  | offered
  /-- The handshake code starts to work on a frame. -/
  | entered
  /-- It is done with it. -/
  | left (progress : Progress)
  /-- The MIC of message 3 has been verified under a key. -/
  | verified (ptk : List UInt8)
  /-- The firmware has confirmed a pairwise key. -/
  | installed (temporalKey : List UInt8)
  deriving DecidableEq

structure RxPhy where
  channel : ℕ
  energy : ℕ
  deriving DecidableEq

structure ScanTable where
  results : Vector ScanResult 16 := .replicate 16 {}
  count : ℕ := 0
  count_le : count ≤ 16 := by decide

local instance networks_neZero : NeZero 16 := ⟨by decide⟩

structure Link where
  associationContextReady : Bool := false
  associationNetwork : Fin 16 := 0
  associationStarted : Bool := false
  associated : Bool := false
  securityReady : Bool := false
  apStationReady : Bool := false
  authenticationResponse : Bool := false
  authenticationStatus : ℕ := 0
  associationResponse : Bool := false
  associationStatus : ℕ := 0
  associationId : ℕ := 0
  disconnectReason : ℕ := 0
  associationError : ℕ := 0

structure Wpa2State where
  pmk : List UInt8 := List.replicate 32 0
  ptk : List UInt8 := List.replicate 64 0
  anonce : Vector UInt8 32 := .replicate 32 0
  snonce : Vector UInt8 32 := .replicate 32 0
  replayCounter : Vector UInt8 8 := .replicate 8 0
  handshakeActive : Bool := false
  stage : ℕ := 0
  error : ℕ := 0
  micValid : Bool := false
  pairwiseKeyReady : Bool := false
  groupKeyReady : Bool := false
  groupKeyId : ℕ := 0
  txPacketNumber : ℕ := 0

def Wpa2State.temporalKey (w : Wpa2State) : List UInt8 := (w.ptk.drop 32).take 16

structure Wifi where
  macAddress : Vector UInt8 6 := .replicate 6 0
  runtimeConfigured : Bool := false
  rxHwProgrammed : Bool := false
  managementTxReady : Bool := false
  commandQueueActive : Bool := false
  auxiliaryStationId : ℕ := 0
  rx : RxRing := {}
  tx : AuxTx := {}
  commandWriteIndex : ℕ := 0
  commandReadIndex : ℕ := 0
  commandError : ℕ := 0
  commandWaitActive : Bool := false
  runtimePollProcessing : Bool := false
  pendingEapol : Vector UInt8 384 := .replicate 384 0
  pendingEapolLength : ℕ := 0
  firmwareNotifications : ℕ := 0
  initComplete : Bool := false
  phyDbBytes : ℕ := 0
  phyDbSections : ℕ := 0
  calibrationError : ℕ := 0
  managementTxError : ℕ := 0
  managementTxCount : ℕ := 0
  wifiTxPackets : ℕ := 0
  wifiRxPackets : ℕ := 0
  lastRxPhy : Option RxPhy := none
  scan : ScanTable := {}
  scanActive : Bool := false
  scanComplete : Bool := false
  scanCompleteStatus : ℕ := 0
  scanFrames : ℕ := 0
  scanError : ℕ := 0
  link : Link := {}
  wpa : Wpa2State := {}
  ticks : ℕ := 0
  deliveries : ℕ := 0
  trace : List Event := []

/-- The outside of the driver: what the adapter has completed before the driver reads its index for
the `n`-th time, and what the network stack sends when it is given its `n`-th packet. The fuel
bounds the nesting of command waits and the length of a walk over the receive queue. -/
structure Env where
  arrivals : ℕ → List Completion
  replies : ℕ → List (List UInt8)
  fuel : ℕ

abbrev Driver := Checked Wifi

def note (e : Event) : Driver Unit := Checked.modify fun s => { s with trace := e :: s.trace }

def setLink (f : Link → Link) : Driver Unit := Checked.modify fun s => { s with link := f s.link }

def setWpa (f : Wpa2State → Wpa2State) : Driver Unit :=
  Checked.modify fun s => { s with wpa := f s.wpa }

def Wifi.network (s : Wifi) : ScanResult := s.scan.results.get s.link.associationNetwork

open Checked

def auxTxBufferSize : ℕ := 2048

def txCmdSize : ℕ := 56

def protectedBit (control : ℕ) : Bool := control.testBit 14

variable (frame : List UInt8)

def frameControl : ℕ := leValue (frame.take 2)

def sendWifiFrame (station : ℕ) : Driver Bool := do
  let s ← get
  note (.sent station frame s.wpa.temporalKey)
  if s.managementTxReady = false ∨ frame.length < 24 ∨
      auxTxBufferSize < 4 + txCmdSize + frame.length then
    modify fun s => { s with managementTxError := 1 }
    pure false
  else if s.tx.full then
    modify fun s => { s with managementTxError := 2 }
    pure false
  else
    modify fun s =>
      { s with tx := s.tx.send, managementTxCount := u32 (s.managementTxCount + 1) }
    pure true

def sendManagementFrame : Driver Bool := do
  let s ← get
  sendWifiFrame frame s.auxiliaryStationId

/-- The packet number of an encrypted frame is taken before the frame is built. -/
def nextPacketNumber (encrypted : Bool) : Driver Unit :=
  if encrypted then
    setWpa fun w => { w with txPacketNumber := (w.txPacketNumber + 1) % 2 ^ 64 }
  else pure ()

def sendEthernet (ethernet : List UInt8) : Driver Bool := do
  let s ← get
  if s.link.associated = false ∨ s.link.apStationReady = false ∨ ethernet.length < 14 ∨
      1514 < ethernet.length then
    pure false
  else
    let encrypted := s.link.securityReady && s.network.rsn
    nextPacketNumber encrypted
    let t ← get
    let frame ← lift (ethernetFrame s.network s.macAddress encrypted t.wpa.txPacketNumber ethernet)
    let accepted ← sendWifiFrame frame 0
    if accepted then
      modify fun s => { s with wifiTxPackets := u32 (s.wifiTxPackets + 1) }
      pure true
    else pure false

/-- The network stack takes a packet and sends what it answers. -/
def netHandlePacket (env : Env) (control status : ℕ) (ethernet : List UInt8) : Driver Unit := do
  let s ← get
  note (.delivered control status ethernet)
  modify fun s => { s with deliveries := s.deliveries + 1 }
  (env.replies s.deliveries).forM fun reply => do
    let _ ← sendEthernet reply
    pure ()

end MicroK.Iwl
