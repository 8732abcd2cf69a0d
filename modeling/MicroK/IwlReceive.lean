import MicroK.IwlState

/-!
# Received frames

What the driver does with a frame the adapter has received: it notes a disconnection, passes data
to the network stack or to the handshake, notes the answers of an association, and files beacons and
probe responses in the scan table. The handshake code is a parameter, because it can wait for the
adapter and receive frames meanwhile.
-/

namespace MicroK.Iwl

open Checked

def storeField {n : ℕ} (v : Vector UInt8 n) (off : ℕ) (l : List UInt8) :
    Outcome (Vector UInt8 n) :=
  if off + l.length ≤ n then
    .ok (.ofFn fun i => if off ≤ i.val ∧ i.val < off + l.length then l.getD (i.val - off) 0
      else v.get i)
  else .fault

def hasSuite (buf : Image) (kind : UInt8) : ℕ → ℕ → Outcome Bool
  | 0, _ => .ok false
  | n + 1, offset => do
    let suite ← buf.readBytes offset 4
    let rest ← hasSuite buf kind n (offset + 4)
    .ok (suite == [0x00, 0x0F, 0xAC, kind] || rest)

variable (buf : Image)

/-- `rsn` is where the body of the element starts in the receive buffer. -/
def rsnIsWpa2PskCcmp (rsn length : ℕ) : Outcome Bool :=
  if length < 18 then .ok false else do
    let version ← buf.readLe rsn 2
    if version ≠ 1 then .ok false else do
      let pairwiseCount ← buf.readLe (rsn + 6) 2
      if pairwiseCount = 0 ∨ (length - 8) / 4 < pairwiseCount then .ok false else do
        let ccmp ← hasSuite buf 4 pairwiseCount (rsn + 8)
        let offset := 8 + 4 * pairwiseCount
        if length < offset + 2 then .ok false else do
          let akmCount ← buf.readLe (rsn + offset) 2
          if akmCount = 0 ∨ (length - (offset + 2)) / 4 < akmCount then .ok false else do
            let psk ← hasSuite buf 2 akmCount (rsn + offset + 2)
            .ok (ccmp && psk)

/-- One information element of a beacon, with its body at `body`. -/
def informationElement (id length body : ℕ) (r : ScanResult) : Outcome ScanResult :=
  if hssid : id = 0 ∧ length ≤ 32 then do
    let name ← buf.readBytes body length
    let ssid ← storeField r.ssid 0 name
    let ssid ← storeField ssid length [0]
    .ok { r with ssid, ssidLength := length, ssidLength_le := hssid.2 }
  else if id = 3 ∧ length = 1 then do
    let channel ← buf.readLe body 1
    .ok { r with channel := UInt8.ofNat channel }
  else if id = 48 then
    if hrsn : length ≤ 64 then do
      let rsnIe ← storeField r.rsnIe 0 [UInt8.ofNat id, UInt8.ofNat length]
      let element ← buf.readBytes body length
      let rsnIe ← storeField rsnIe 2 element
      let wpa2PskCcmp ← rsnIsWpa2PskCcmp buf body length
      .ok { r with
        rsn := true, rsnIe, rsnIeLength := length + 2, wpa2PskCcmp
        rsnIeLength_le := Nat.add_le_add_right hrsn 2 }
    else .ok { r with rsn := true }
  else if id = 5 ∧ 2 ≤ length then do
    let dtim ← buf.readLe (body + 1) 1
    .ok { r with dtimPeriod := UInt8.ofNat dtim }
  else .ok r

/-- The elements of a beacon at `frame`, from an offset of the frame on. -/
def informationElements (buf : Image) (frame frameLength : ℕ) :
    ℕ → ℕ → ScanResult → Outcome ScanResult
  | 0, _, _ => .endless
  | fuel + 1, offset, r =>
    if offset + 2 ≤ frameLength then do
      let id ← buf.readLe (frame + offset) 1
      let length ← buf.readLe (frame + offset + 1) 1
      let offset := offset + 2
      if frameLength - offset < length then .ok r else do
        let r ← informationElement buf id length (frame + offset) r
        informationElements buf frame frameLength fuel (offset + length) r
    else .ok r

/-- The smallest nonzero reading of three antennas, negated as a signed byte. -/
def rssiOf (energy : ℕ) : ℤ :=
  let best : ℕ := [0, 8, 16].foldl (fun (best shift : ℕ) =>
    let antenna := energy / 2 ^ shift % 256
    if antenna ≠ 0 ∧ antenna < best then antenna else best) 0xFF
  if best = 0xFF then 0 else (-(best : ℤ)).bmod 256

def ScanTable.find (t : ScanTable) (bssid : List UInt8) : Option (Fin 16) :=
  (List.finRange 16).find? fun i => i.val < t.count && (t.results.get i).bssid.toList == bssid

def ScanTable.set (t : ScanTable) (i : Fin 16) (r : ScanResult) : ScanTable :=
  { t with results := t.results.set i.val r i.isLt }

def ScanTable.entryFor (t : ScanTable) (bssid : Vector UInt8 6) : Option (Fin 16 × ScanTable) :=
  match t.find bssid.toList with
  | some i => some (i, t)
  | none =>
    if h : t.count < 16 then
      let i : Fin 16 := ⟨t.count, h⟩
      some (i, { t.set i { t.results.get i with bssid } with count := t.count + 1, count_le := h })
    else none

def handleBeacon (frame frameLength : ℕ) (phy : RxPhy) : Driver Unit := do
  modify fun s => { s with scanFrames := u32 (s.scanFrames + 1) }
  let bssid ← lift (buf.readArray 6 (frame + 16))
  let s ← get
  match s.scan.entryFor bssid with
  | none => pure ()
  | some (i, scan) =>
    let capability ← lift (buf.readLe (frame + 34) 2)
    let beaconInterval ← lift (buf.readLe (frame + 32) 2)
    let r := { scan.results.get i with
      capability, beaconInterval, channel := UInt8.ofNat phy.channel
      rssiDbm := rssiOf phy.energy, rsn := false }
    let r ← lift (informationElements buf frame frameLength frameLength 36 r)
    modify fun s => { s with scan := scan.set i r }
    note (.filed i r.rsn)

def handleDisconnect (frame : ℕ) : Driver Unit := do
  let disconnectReason ← lift (buf.readLe (frame + 24) 2)
  setLink fun l => { l with disconnectReason, associated := false, securityReady := false }
  setWpa fun w => { w with handshakeActive := false }

/-- The Ethernet frame that a data frame carries, if its headers are as expected: `control` is the
frame control field, `status` the receive status. -/
def dataFrameContents (frame frameLength control status : ℕ)
    (mac : Vector UInt8 6) (securityReady : Bool) : Outcome (Option (List UInt8)) := do
  let addr1 ← buf.readBytes (frame + 4) 6
  let groupDestination := (addr1.getD 0 0).toNat % 2 = 1
  if control / 256 % 4 ≠ 2 ∨ (addr1 ≠ mac.toList ∧ ¬ (groupDestination ∧ securityReady)) then
    .ok none
  else
    let crypto := if protectedBit control then 8 else 0
    let headerLength := if control.testBit 7 then 26 else 24
    if protectedBit control ∧ ¬ (status.testBit 6 ∧ status.testBit 11) then .ok none
    else if frameLength < headerLength + crypto + 8 + crypto then .ok none
    else do
      let llcAt := frame + headerLength + crypto
      let llc ← buf.readBytes llcAt 8
      if llc.take 6 ≠ [0xAA, 0xAA, 0x03, 0, 0, 0] then .ok none
      else
        let payloadLength := frameLength - (headerLength + crypto) - 8 - crypto
        if 1500 < payloadLength then .ok none
        else do
          let addr3 ← buf.readBytes (frame + 16) 6
          let payload ← buf.readBytes (llcAt + 8) payloadLength
          let ethernet ← assemble 1514 (14 + payloadLength)
            [(0, addr1), (6, addr3), (12, llc.drop 6), (14, payload)]
          .ok (some ethernet)

variable (env : Env) (eapol : List UInt8 → Driver Bool)

def handleDataFrame (buf : Image)
    (frame frameLength control status : ℕ) : Driver Unit := do
  let s ← get
  let contents ← lift (dataFrameContents buf frame frameLength control status s.macAddress
    s.link.securityReady)
  match contents with
  | none => pure ()
  | some ethernet =>
    modify fun s => { s with wifiRxPackets := u32 (s.wifiRxPackets + 1) }
    if (ethernet.drop 12).take 2 = [0x88, 0x8E] then
      let taken ← eapol ethernet
      if taken then pure () else netHandlePacket env control status ethernet
    else netHandlePacket env control status ethernet

def handleAuthentication (frame : ℕ) : Driver Unit := do
  let transaction ← lift (buf.readLe (frame + 26) 2)
  if transaction = 2 then
    let authenticationStatus ← lift (buf.readLe (frame + 28) 2)
    setLink fun l => { l with authenticationStatus, authenticationResponse := true }
  else pure ()

def handleAssociation (frame : ℕ) : Driver Unit := do
  let associationStatus ← lift (buf.readLe (frame + 26) 2)
  let id ← lift (buf.readLe (frame + 28) 2)
  setLink fun l =>
    { l with associationStatus, associationId := id % 2 ^ 14, associationResponse := true }

def handleFrame (buf : Image)
    (frame frameLength status : ℕ) (phy : RxPhy) : Driver Unit := do
  let control ← lift (buf.readLe frame 2)
  note (.received control)
  let subtype := control &&& 0x00FC
  let addr1 ← lift (buf.readBytes (frame + 4) 6)
  let s ← get
  let ours := addr1 = s.macAddress.toList
  if (subtype = 0x00A0 ∨ subtype = 0x00C0) ∧ 26 ≤ frameLength ∧ ours then
    handleDisconnect buf frame
  else if control &&& 0x000C = 0x0008 then
    handleDataFrame env eapol buf frame frameLength control status
  else if subtype = 0x00B0 ∧ 30 ≤ frameLength ∧ ours then handleAuthentication buf frame
  else if subtype = 0x0010 ∧ 30 ≤ frameLength ∧ ours then handleAssociation buf frame
  else if (subtype ≠ 0x0080 ∧ subtype ≠ 0x0050) ∨ frameLength < 36 then pure ()
  else handleBeacon buf frame frameLength phy

def handleScanMpdu (buf : Image)
    (data dataLength : ℕ) : Driver Unit := do
  let s ← get
  match s.lastRxPhy with
  | none => pure ()
  | some phy =>
    if dataLength < 8 then pure ()
    else
      let frameLength ← lift (buf.readLe data 2)
      if frameLength < 24 ∨ dataLength - 8 < frameLength then pure ()
      else
        let status ← lift (buf.readLe (data + 4 + frameLength) 4)
        if status % 4 ≠ 3 then pure ()
        else handleFrame env eapol buf (data + 4) frameLength status phy

def rxPacketSize : ℕ := 8

def rxPhySize : ℕ := 68

def phyDbStorageSize : ℕ := 64 * 1024

def cmdQueueSlots : ℕ := 32

def commandRounds : ℕ := 10000000

def readStatus : Driver ℕ := do
  modify fun s =>
    { s with rx := (env.arrivals s.ticks).foldl RxRing.complete s.rx, ticks := s.ticks + 1 }
  let s ← get
  pure (s.rx.closed % rxQueueSize)

def advanceReadIndex : Driver Unit :=
  modify fun s =>
    { s with rx := { s.rx with readIndex := (s.rx.readIndex + 1) % rxQueueSize } }

def validId (id : ℕ) : Prop := id ≠ 0 ∧ id ≤ rxQueueSize

instance (id : ℕ) : Decidable (validId id) := inferInstanceAs (Decidable (_ ∧ _))

def RxRing.recycle (r : RxRing) (id : ℕ) : RxRing :=
  let writeIndex := (r.writeIndex + 1) % rxQueueSize
  { r with
    buffer := Function.update r.buffer id ((r.image id).put 0 (leBytes 4 rxFrameInvalid)).byte
    writeIndex
    writeActual := writeIndex / 8 * 8 }

def recycleRxBuffer (completionIndex : ℕ) : Driver Bool := do
  let s ← get
  let id := s.rx.virtualId completionIndex
  if validId id then
    modify fun s => { s with rx := s.rx.recycle id }
    note (.recycled id)
    pure true
  else pure false

/-- A notification of the init image; it is also looked for at run time. -/
def handleInitNotification (packet frameLength : ℕ) : Driver Bool := do
  let cmd ← lift (buf.readLe (packet + 4) 1)
  let group ← lift (buf.readLe (packet + 5) 1)
  if group ≠ 0 then pure true
  else if cmd = 0x04 then
    modify fun s => { s with initComplete := true }
    pure true
  else if cmd ≠ 0x6B then pure true
  else if frameLength < 8 then pure false
  else
    let dataLength ← lift (buf.readLe (packet + 10) 2)
    let recordLength := 4 + dataLength
    let s ← get
    if frameLength - 4 < recordLength ∨ phyDbStorageSize - recordLength < s.phyDbBytes then
      pure false
    else
      modify fun s =>
        { s with
          phyDbBytes := s.phyDbBytes + recordLength
          phyDbSections := u32 (s.phyDbSections + 1) }
      pure true

/-- The notification at `packet`, whose length field is `frameLength`. -/
def handleRuntimeNotification (buf : Image)
    (packet frameLength : ℕ) : Driver Bool := do
  let bytes ← lift (buf.readBytes packet (frameLength + 4))
  note (.notified bytes)
  let cmd ← lift (buf.readLe (packet + 4) 1)
  let group ← lift (buf.readLe (packet + 5) 1)
  let sequence ← lift (buf.readLe (packet + 6) 2)
  let data := packet + 8
  let dataLength := frameLength - 4
  if cmd = 0x1C ∧ group = 0 ∧ sequence / 256 = auxQueueId then
    modify fun s => { s with tx := s.tx.completed sequence }
    pure true
  else if cmd = 0xC0 ∧ group = 0 then
    if dataLength < rxPhySize then pure false
    else
      let channel ← lift (buf.readLe (data + 22) 2)
      let energy ← lift (buf.readLe (data + 28) 4)
      modify fun s => { s with lastRxPhy := some ⟨channel, energy⟩ }
      pure true
  else if cmd = 0xC1 ∧ group = 0 then
    handleScanMpdu env eapol buf data dataLength
    pure true
  else if cmd = 0x0F ∧ group = 0 then
    if frameLength < 20 then pure false
    else
      let uid ← lift (buf.readLe data 4)
      if uid ≠ 0 then pure true
      else
        let status ← lift (buf.readLe (data + 6) 1)
        modify fun s =>
          { s with scanCompleteStatus := status, scanActive := false, scanComplete := true }
        pure true
  else pure true

/-- The length of a packet in its buffer, with what pads it. -/
def consumedLength (frameLength : ℕ) : ℕ :=
  (frameLength + 4 + (rxFrameAlign - 1)) / rxFrameAlign * rxFrameAlign

/-- The packet at an offset of a buffer: none, one with a wrong length, or one with its length. -/
inductive PacketAt where
  | invalid
  | malformed
  | packet (frameLength : ℕ)

def packetAt (offset : ℕ) : Outcome PacketAt := do
  let frameWord ← buf.readLe offset 4
  if frameWord = rxFrameInvalid then .ok .invalid
  else
    let frameLength := frameWord % 2 ^ 14
    if frameLength < 4 ∨ rxBufferSize - offset - 4 < frameLength then .ok .malformed
    else .ok (.packet frameLength)

def pollPackets (env : Env) (eapol : List UInt8 → Driver Bool) (id : ℕ) : ℕ → ℕ → Driver Unit
  | 0, _ => endless
  | fuel + 1, offset =>
    if offset + rxPacketSize ≤ rxBufferSize then do
      let s ← get
      let buf := s.rx.image id
      match ← lift (packetAt buf offset) with
      | .invalid => pure ()
      | .malformed => modify fun s => { s with scanError := 8 }
      | .packet frameLength =>
        let accepted ← handleRuntimeNotification env eapol buf offset frameLength
        if accepted then
          modify fun s => { s with firmwareNotifications := u32 (s.firmwareNotifications + 1) }
          let consumed := consumedLength frameLength
          if consumed = 0 ∨ rxBufferSize - offset < consumed then
            modify fun s => { s with scanError := 9 }
          else pollPackets env eapol id fuel (offset + consumed)
        else modify fun s => { s with scanError := 8 }
    else pure ()

inductive Inspection where
  | noResponse
  | failed
  | response (payload : List UInt8)

/-- Whether the packet at `packet` answers a command, and how. The room for the answer is `none`
when the caller does not ask for it. -/
def responseAt (packet frameLength opcode sequence : ℕ) (capacity : Option ℕ) :
    Outcome (Option Inspection) := do
  let cmd ← buf.readLe (packet + 4) 1
  let group ← buf.readLe (packet + 5) 1
  let seq ← buf.readLe (packet + 6) 2
  if cmd = opcode ∧ group = 0 ∧ seq = sequence then
    let payloadLength := frameLength - 4
    match capacity with
    | none => .ok (some (.response []))
    | some room =>
      if room < payloadLength then .ok (some .failed)
      else do
        let payload ← buf.readBytes (packet + 8) payloadLength
        .ok (some (.response payload))
  else .ok none

def inspectPackets (env : Env) (eapol : List UInt8 → Driver Bool) (id opcode sequence : ℕ)
    (capacity : Option ℕ) : ℕ → ℕ → Driver Inspection
  | 0, _ => endless
  | fuel + 1, offset =>
    if offset + rxPacketSize ≤ rxBufferSize then do
      let s ← get
      let buf := s.rx.image id
      match ← lift (packetAt buf offset) with
      | .invalid => pure .noResponse
      | .malformed => pure .failed
      | .packet frameLength =>
        modify fun s => { s with firmwareNotifications := u32 (s.firmwareNotifications + 1) }
        let accepted ← handleInitNotification buf offset frameLength
        if accepted = false then
          modify fun s => { s with calibrationError := 1 }
          pure .failed
        else
          let accepted ← (if s.runtimeConfigured then
            handleRuntimeNotification env eapol buf offset frameLength else pure true)
          if accepted = false then
            modify fun s => { s with commandError := 5 }
            pure .failed
          else
            let t ← get
            match ← lift (responseAt (t.rx.image id) offset frameLength opcode sequence capacity)
              with
            | some result => pure result
            | none =>
              let consumed := consumedLength frameLength
              if consumed = 0 ∨ rxBufferSize - offset < consumed then pure .failed
              else inspectPackets env eapol id opcode sequence capacity fuel (offset + consumed)
    else pure .noResponse

def inspectCommandResponse
    (completionIndex opcode sequence : ℕ) (capacity : Option ℕ) : Driver Inspection := do
  let s ← get
  let id := s.rx.virtualId completionIndex
  if validId id then inspectPackets env eapol id opcode sequence capacity rxBufferSize 0
  else pure .failed

def endWait (error : ℕ) : Driver (Option (List UInt8)) := do
  modify fun s => { s with commandError := error, commandWaitActive := false }
  pure none

/-- The buffers up to the index the adapter was seen at, until one of them ends the wait. -/
def drainCompletions (env : Env) (eapol : List UInt8 → Driver Bool) (opcode sequence : ℕ)
    (capacity : Option ℕ) (closed : ℕ) : ℕ → Driver (Option (Option (List UInt8)))
  | 0 => endless
  | fuel + 1 => do
    let s ← get
    if s.rx.readIndex = closed then pure none
    else
      let result ← inspectCommandResponse env eapol s.rx.readIndex opcode sequence capacity
      let t ← get
      let recycled ← recycleRxBuffer t.rx.readIndex
      if recycled = false then
        let r ← endWait 4
        pure (some r)
      else
        advanceReadIndex
        match result with
        | .response payload =>
          modify fun s =>
            { s with
              commandReadIndex := u32 (s.commandReadIndex + 1)
              commandWaitActive := false }
          pure (some (some payload))
        | .failed =>
          let r ← endWait 2
          pure (some r)
        | .noResponse => drainCompletions env eapol opcode sequence capacity closed fuel

def awaitResponse (env : Env) (eapol : List UInt8 → Driver Bool) (opcode sequence : ℕ)
    (capacity : Option ℕ) : ℕ → Driver (Option (List UInt8))
  | 0 => endWait 1
  | rounds + 1 => do
    let closed ← readStatus env
    match ← drainCompletions env eapol opcode sequence capacity closed env.fuel with
    | some r => pure r
    | none => awaitResponse env eapol opcode sequence capacity rounds

/-- The sequence number of a command is its slot in the command queue, which is queue 0. -/
def sendCommandSync (c : FwCommand)
    (capacity : Option ℕ) : Driver (Option (List UInt8)) := do
  let s ← get
  if s.commandQueueActive = false ∨
      cmdQueueSlots ≤ sub32 s.commandWriteIndex s.commandReadIndex then pure none
  else
    note (.command c)
    modify fun s => { s with commandWriteIndex := u32 (s.commandWriteIndex + 1) }
    awaitResponse env eapol c.opcode (s.commandWriteIndex % 256) capacity commandRounds

end MicroK.Iwl
