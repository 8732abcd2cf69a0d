import MicroK.AesKeyWrap
import MicroK.IwlReceive

/-!
# Joining a network

Polling the receive queue, joining a network and connecting with a passphrase. Joining sends
commands to the firmware and polls for the answers of the access point; connecting derives the key,
joins, and polls until the handshake is complete or time runs out.
-/

namespace MicroK.Iwl

open Checked

/-- How a command is sent and its answer awaited. -/
abbrev Sender := FwCommand → Option ℕ → Driver (Option (List UInt8))

def bytesAt (l : List UInt8) (n off : ℕ) : Vector UInt8 n := .ofFn fun i => l.getD (off + i) 0

def confirms (response : Option (List UInt8)) : Bool :=
  match response with
  | none => false
  | some r => decide (4 ≤ r.length ∧ r.getD 0 0 = 1)

variable (send : Sender)

def installPairwiseCcmpKey : Driver Bool := do
  let s ← get
  let key := s.wpa.temporalKey
  let response ← send (.pairwiseKey key) (some 4)
  let success := confirms response
  setWpa fun w => { w with pairwiseKeyReady := success }
  if success then
    note (.installed key)
    pure true
  else pure false

def installGroupCcmpKey (gtk : List UInt8) (keyId : ℕ)
    (receiveSequence : List UInt8) : Driver Bool := do
  let response ← send (.groupKey gtk keyId receiveSequence) (some 4)
  if confirms response then
    setWpa fun w => { w with groupKeyId := keyId, groupKeyReady := true }
    pure true
  else pure false

def findGtk : ℕ → List UInt8 → Option (ℕ × List UInt8)
  | 0, _ => none
  | fuel + 1, id :: length :: rest =>
    if rest.length < length.toNat then none
    else if id = 0xDD ∧ 22 ≤ length.toNat ∧ rest.take 4 = [0x00, 0x0F, 0xAC, 0x01] then
      some ((rest.getD 4 0).toNat % 4, (rest.drop 6).take 16)
    else findGtk fuel (rest.drop length.toNat)
  | _, _ => none

variable (body : List UInt8)

/-- The EAPOL body of message 3 carries the wrapped group key from byte 99 on. -/
def unwrapAndInstallGtk : Driver Bool := do
  let encryptedLength := readBe16 body 97
  if encryptedLength = 0 ∨ 256 < encryptedLength ∨ body.length < 99 + encryptedLength ∨
      encryptedLength % 8 ≠ 0 then pure false
  else
    let s ← get
    match Wpa2.aesKeyUnwrap ((s.wpa.ptk.drop 16).take 16) ((body.drop 99).take encryptedLength) 256
      with
    | (true, some plain) =>
      match findGtk plain.length plain with
      | none => pure false
      | some (keyId, gtk) => installGroupCcmpKey send gtk keyId ((body.drop 65).take 8)
    | _ => pure false

def enableWpa2GroupReceive : Driver Bool := do
  let s ← get
  let response ← send (.macContext s.network.bssid true) none
  pure response.isSome

def setWpaError (error : ℕ) : Driver Unit := setWpa fun w => { w with error }

/-- The nonce of this station is a hash of what message 1 brings. -/
def stationNonce (pmk : List UInt8) (anonce : Vector UInt8 32) (mac : Vector UInt8 6)
    (replayCounter : Vector UInt8 8) : Vector UInt8 32 :=
  let seed := anonce.toList ++ mac.toList ++ replayCounter.toList
  bytesAt (Wpa2.hmacSha1 pmk (seed ++ [0]) ++ (Wpa2.hmacSha1 pmk (seed ++ [1])).take 12) 32 0

def handleMessage1 : Driver Unit := do
  let s ← get
  let replayCounter := bytesAt body 8 9
  let anonce := bytesAt body 32 17
  let snonce := stationNonce s.wpa.pmk anonce s.macAddress replayCounter
  let ptk := Wpa2.derivePtk s.wpa.pmk s.network.bssid.toList s.macAddress.toList anonce.toList
    snonce.toList
  setWpa fun w => { w with replayCounter, anonce, snonce, ptk }
  let message2 ← lift (wpa2Message2 s.network s.macAddress ptk replayCounter snonce body)
  let accepted ← sendEthernet message2
  if accepted then setWpa fun w => { w with stage := 2 } else setWpaError 3

/-- The MIC of message 3 is over the body with the MIC field cleared. -/
def micValid (ptk body : List UInt8) : Bool :=
  let cleared := body.take 81 ++ List.replicate 16 0 ++ body.drop 97
  Wpa2.constantTimeEqual ((body.drop 81).take 16)
    ((Wpa2.hmacSha1 (ptk.take 16) cleared).take 16)

def finishHandshake : Driver Progress := do
  let s ← get
  let enabled ← (if s.wpa.groupKeyReady then enableWpa2GroupReceive send else pure false)
  if enabled then
    let t ← get
    let message4 ← lift (wpa2Message4 t.network t.macAddress t.wpa.ptk body)
    let accepted ← sendEthernet message4
    if accepted then
      setWpa fun w => { w with stage := 4, handshakeActive := false }
      setLink fun l => { l with securityReady := true }
      pure .complete
    else
      setWpaError 8
      pure .keyed
  else
    setWpaError 11
    pure .keyed

def installKeys : Driver Progress := do
  let installed ← installPairwiseCcmpKey send
  if installed then
    let grouped ← (if (readBe16 body 5).testBit 12 then unwrapAndInstallGtk send body
      else pure true)
    if grouped then finishHandshake send body
    else
      setWpaError 9
      pure .keyed
  else
    setWpaError 7
    pure .unkeyed

def handleMessage3 : Driver Progress := do
  let s ← get
  let replayCounter := bytesAt body 8 9
  if Wpa2.byteLess replayCounter.toList s.wpa.replayCounter.toList ∨
      bytesAt body 32 17 ≠ s.wpa.anonce then
    setWpaError 13
    pure .unkeyed
  else if 384 < body.length then
    setWpaError 5
    pure .unkeyed
  else if micValid s.wpa.ptk body = false then
    setWpaError 6
    pure .unkeyed
  else
    note (.verified s.wpa.ptk)
    setWpa fun w => { w with micValid := true, replayCounter }
    installKeys send body

variable (ethernet : List UInt8)

def handleKeyFrame : Driver Progress := do
  let eapolLength := 4 + readBe16 ethernet 16
  if ethernet.getD 15 0 ≠ 3 ∨ eapolLength < 99 ∨ ethernet.length - 14 < eapolLength then
    pure .unkeyed
  else
    let body ← lift ((Image.ofList ethernet).readBytes 14 eapolLength)
    let keyInfo := readBe16 body 5
    let s ← get
    if body.getD 4 0 ≠ 2 ∨ keyInfo % 8 ≠ 2 then
      setWpaError 12
      pure .unkeyed
    else if keyInfo.testBit 3 = false then pure .unkeyed
    else if keyInfo.testBit 7 ∧ ¬ keyInfo.testBit 8 ∧ s.wpa.stage = 0 then
      handleMessage1 body
      pure .unkeyed
    else if keyInfo.testBit 7 ∧ keyInfo.testBit 8 ∧ keyInfo.testBit 6 ∧ s.wpa.stage = 2 then
      handleMessage3 send body
    else pure .unkeyed

/-- A frame kept for later, in place of the one kept before. -/
def deferFrame : Driver Unit := do
  let s ← get
  if ethernet.length ≤ 384 then
    let pendingEapol ← lift (storeField s.pendingEapol 0 ethernet)
    modify fun s => { s with pendingEapol, pendingEapolLength := ethernet.length }
  else setWpaError 10

/-- Whether a frame is one for the handshake code, and what that code does with it. -/
def handleWpa2Eapol : Driver Bool := do
  let s ← get
  if s.wpa.handshakeActive = false ∨ ethernet.length < 113 then pure false
  else
    note .offered
    if s.commandWaitActive ∨ s.runtimePollProcessing then
      deferFrame ethernet
      pure true
    else
      note .entered
      let progress ← handleKeyFrame send ethernet
      note (.left progress)
      pure true

/-- The handshake code inside at most `n` command waits of its own. -/
def eapolAt (env : Env) : ℕ → List UInt8 → Driver Bool
  | 0 => fun _ => endless
  | n + 1 => handleWpa2Eapol (sendCommandSync env (eapolAt env n))

variable (env : Env)

def eapol : List UInt8 → Driver Bool := eapolAt env env.fuel

def sendCommand : Sender := sendCommandSync env (eapol env)

def handshakeRounds : ℕ := 20000000

/-- The loop of `iwlwifi_poll` over the completed buffers; the result is false when a buffer could
not be given back. -/
def pollCompletions (env : Env) (closed : ℕ) : ℕ → Driver Bool
  | 0 => endless
  | fuel + 1 => do
    let s ← get
    if s.rx.readIndex = closed then pure true
    else
      let id := s.rx.virtualId s.rx.readIndex
      if validId id then
        pollPackets env (eapol env) id rxBufferSize 0
        let t ← get
        let recycled ← recycleRxBuffer t.rx.readIndex
        if recycled then
          advanceReadIndex
          pollCompletions env closed fuel
        else
          modify fun s => { s with scanError := 10 }
          pure false
      else
        modify fun s => { s with scanError := 7 }
        advanceReadIndex
        pollCompletions env closed fuel

def handlePending : Driver Unit := do
  let s ← get
  if s.pendingEapolLength ≠ 0 ∧ s.commandWaitActive = false then
    let length := s.pendingEapolLength
    modify fun s => { s with pendingEapolLength := 0 }
    let _ ← eapol env (s.pendingEapol.toList.take length)
    modify fun s =>
      { s with pendingEapol := .ofFn fun i => if i.val < length then 0 else s.pendingEapol.get i }
  else pure ()

def poll : Driver Unit := do
  let s ← get
  if s.runtimeConfigured = false ∨ s.rxHwProgrammed = false then pure ()
  else
    let closed ← readStatus env
    modify fun s => { s with runtimePollProcessing := true }
    let finished ← pollCompletions env closed (rxQueueSize + 1)
    modify fun s => { s with runtimePollProcessing := false }
    if finished then handlePending env else pure ()

/-- Polling until something holds of the state, at most so many times. -/
def pollUntil (env : Env) (done : Wifi → Bool) : ℕ → Driver Unit
  | 0 => pure ()
  | rounds + 1 => do
    let s ← get
    if done s then pure ()
    else
      poll env
      pollUntil env done rounds

def associationFails (error : ℕ) : Driver Bool := do
  setLink fun l => { l with associationError := error }
  pure false

variable (networkIndex : ℕ)

def prepareAssociation : Driver Bool := do
  setLink fun l => { l with associationContextReady := false, associationError := 0 }
  let s ← get
  if hindex : networkIndex < s.scan.count then
    if s.runtimeConfigured = false ∨ s.scanActive then associationFails 1
    else
      let index : Fin 16 := ⟨networkIndex, hindex.trans_le s.scan.count_le⟩
      let network := s.scan.results.get index
      if network.channel = 0 then associationFails 2
      else
        let phy ← sendCommand env (.phyContext network.channel) none
        if phy.isNone then associationFails 3
        else
          let t ← get
          let mac ← sendCommand env (.macContext (t.scan.results.get index).bssid false) none
          if mac.isNone then associationFails 4
          else
            match ← sendCommand env .bindingContext (some 4) with
            | none => associationFails 5
            | some status =>
              if status.length < 4 ∨ leValue (status.take 4) ≠ 0 then associationFails 5
              else
                setLink fun l =>
                  { l with associationNetwork := index, associationContextReady := true }
                pure true
  else associationFails 1

def finalizeFirmwareAssociation (index : Fin 16) : Driver Bool := do
  let s ← get
  let station ← sendCommand env (.addStation (s.scan.results.get index).bssid) (some 4)
  if confirms station then
    let queue ← sendCommand env .queueConfig none
    if queue.isSome then
      let t ← get
      let mac ← sendCommand env (.macContext (t.scan.results.get index).bssid true) none
      if mac.isSome then
        setLink fun l => { l with apStationReady := true }
        pure true
      else pure false
    else pure false
  else pure false

def associateOpen : Driver Bool := do
  let prepared ← prepareAssociation env networkIndex
  if prepared then
    let s ← get
    let index := s.link.associationNetwork
    setLink fun l =>
      { l with
        associationStarted := true, associated := false, securityReady := false
        authenticationResponse := false, associationResponse := false }
    let frame ← lift (authenticationFrame s.network s.macAddress)
    let sent ← sendManagementFrame frame
    if sent then
      pollUntil env (fun s => s.link.authenticationResponse) commandRounds
      let t ← get
      if t.link.authenticationResponse = false ∨ t.link.authenticationStatus ≠ 0 then
        associationFails 6
      else
        let frame ← lift (associationRequest (t.scan.results.get index) t.macAddress)
        let sent ← sendManagementFrame frame
        if sent then
          pollUntil env (fun s => s.link.associationResponse) commandRounds
          let u ← get
          if u.link.associationResponse = false ∨ u.link.associationStatus ≠ 0 then
            associationFails 7
          else
            let finalized ← finalizeFirmwareAssociation env index
            if finalized then
              let v ← get
              let rsn := (v.scan.results.get index).rsn
              setLink fun l => { l with associated := true, securityReady := !rsn }
              note (.joined rsn)
              pure true
            else associationFails 8
        else pure false
    else pure false
  else pure false

def connectWpa2 (passphrase : List UInt8) : Driver Bool := do
  let s ← get
  if hindex : networkIndex < s.scan.count then
    let network := s.scan.results.get ⟨networkIndex, hindex.trans_le s.scan.count_le⟩
    if network.wpa2PskCcmp then
      note .connecting
      setWpa fun w =>
        { w with
          pmk := List.replicate 32 0, ptk := List.replicate 64 0, stage := 0, error := 0
          micValid := false, pairwiseKeyReady := false, groupKeyReady := false
          txPacketNumber := 0 }
      match Wpa2.derivePmk passphrase (network.ssid.toList.take network.ssidLength) with
      | none =>
        setWpaError 1
        pure false
      | some pmk =>
        setWpa fun w => { w with pmk, handshakeActive := true }
        let joined ← associateOpen env networkIndex
        if joined then
          pollUntil env (fun s => 4 ≤ s.wpa.stage) handshakeRounds
          let t ← get
          if t.wpa.stage < 4 then
            setWpa fun w => { w with error := if w.error = 0 then 4 else w.error }
            pure false
          else pure true
        else
          setWpa fun w => { w with error := 2, handshakeActive := false }
          pure false
    else pure false
  else pure false

/-- What the rest of the kernel asks of the driver. -/
inductive Call where
  | poll
  | associate (networkIndex : ℕ)
  | connect (networkIndex : ℕ) (passphrase : List UInt8)
  | send (ethernet : List UInt8)

def Call.run : Call → Driver Bool
  | .poll => do
    Iwl.poll env
    pure true
  | .associate networkIndex => do
    note .associating
    associateOpen env networkIndex
  | .connect networkIndex passphrase => connectWpa2 env networkIndex passphrase
  | .send ethernet => sendEthernet ethernet

def runCalls (calls : List Call) : Driver Unit :=
  calls.forM fun c => do
    let _ ← c.run env
    pure ()

/-- A driver whose firmware runs and which has not joined a network yet. -/
structure Configured (s : Wifi) : Prop where
  runtimeConfigured : s.runtimeConfigured = true
  commandWait : s.commandWaitActive = false
  pollProcessing : s.runtimePollProcessing = false
  pending : s.pendingEapolLength = 0
  link : s.link = {}
  wpa : s.wpa = {}
  trace : s.trace = []

end MicroK.Iwl
