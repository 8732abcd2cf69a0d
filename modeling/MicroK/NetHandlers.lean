import MicroK.NetState

/-!
# Packet handlers

`net_handle_packet` and the handlers it dispatches to. A handler reads the received frame by
position, and a position outside of the frame is a fault. The loops over DHCP options and DNS names
run for at most as many rounds as there are bytes, which has to suffice.
-/

namespace MicroK.Net

open Checked Total Image Nat

variable (env : NetEnv)

/-- Inside `net_poll` a nested call of `net_poll` returns at once, so a handler that waits for an
ARP reply waits for one that cannot come. -/
def nestedWait : Ip → NetM (Option Mac) := fun _ => endless

variable (rx : Image)

def netHandleArp : NetM Unit := do
  let hwType ← lift (rx.readLe 14 2)
  let protoType ← lift (rx.readLe 16 2)
  let opcode ← lift (rx.readLe 20 2)
  if ntohs hwType ≠ 1 ∨ ntohs protoType ≠ 0x0800 then pure ()
  else do
    let senderMac ← lift (rx.readArray 6 22)
    let senderIp ← lift (rx.readArray 4 28)
    modify fun s => { s with arpCache := arpCacheAdd s.arpCache senderIp senderMac }
    let targetIp ← lift (rx.readArray 4 38)
    let s ← get
    if ntohs opcode = 1 ∧ targetIp = s.config.ip then do
      let _ ← netSendArpReply env rx
      pure ()
    else pure ()

def netHandleIcmp (icmpStart icmpLen : ℕ) : NetM Unit := do
  if icmpLen < 8 then pure ()
  else do
    let dest ← lift (rx.readArray 4 30)
    let s ← get
    if dest ≠ s.config.ip then pure ()
    else do
      let dataLen := if 8 < icmpLen then icmpLen - 8 else 0
      let type ← lift (rx.readLe icmpStart 1)
      let code ← lift (rx.readLe (icmpStart + 1) 1)
      if type = 8 ∧ code = 0 then netSendIcmpEchoReply env rx icmpStart dataLen
      else if type = 0 ∧ code = 0 then do
        let id ← lift (rx.readLe (icmpStart + 4) 2)
        let seq ← lift (rx.readLe (icmpStart + 6) 2)
        if ntohs id = s.ping.pendingId ∧ ntohs seq = s.ping.pendingSeq then
          modify fun s => { s with ping := { s.ping with replyReceived := true } }
        else pure ()
      else pure ()

namespace TcpConn

variable (c : TcpConn)

def reset : TcpConn := { c with rstReceived := true, state := .done }

def establish (seq : ℕ) : TcpConn :=
  { c with localSeq := u32 (c.localSeq + 1), remoteSeq := u32 (seq + 1), state := .established }

def advance (n : ℕ) : TcpConn := { c with remoteSeq := u32 (c.remoteSeq + n) }

def finSeen : TcpConn := { c with remoteSeq := u32 (c.remoteSeq + 1), finReceived := true }

def finish : TcpConn := { c with localSeq := u32 (c.localSeq + 1), state := .done }

end TcpConn

def modifyTcp (f : TcpConn → TcpConn) : NetM Unit := modify fun s => { s with tcp := f s.tcp }

def tcpStore (payload : List UInt8) : NetM Unit := do
  let s ← get
  match s.recvBuf with
  | none => pure ()
  | some buf =>
    if 0 < payload.length ∧ s.recvLen < buf.size then do
      let space := buf.size - s.recvLen
      let copyLen := if payload.length < space then payload.length else space
      let buf ← lift (buf.store s.recvLen (payload.take copyLen))
      modify fun s => { s with recvBuf := some buf, recvLen := u32 (s.recvLen + copyLen) }
    else pure ()

/-- The part of `net_handle_tcp` behind the checks of the header. -/
def tcpReceive (seg : Segment) : NetM Unit := do
  let s ← get
  if seg.has 0x04 then modifyTcp (·.reset)
  else if s.tcp.state = .synSent then
    if seg.flags &&& 0x12 = 0x12 ∧ seg.ack = u32 (s.tcp.localSeq + 1) then do
      modifyTcp (·.establish seg.seq)
      let _ ← netSendTcpSegment env nestedWait 0x10 []
      pure ()
    else pure ()
  else if s.tcp.state ≠ .established then pure ()
  else if seg.seq ≠ s.tcp.remoteSeq then pure ()
  else if seg.payload.length = 0 ∧ !seg.has 0x01 then pure ()
  else do
    tcpStore seg.payload
    modifyTcp (·.advance seg.payload.length)
    if seg.has 0x01 then do
      modifyTcp (·.finSeen)
      let _ ← netSendTcpSegment env nestedWait 0x11 []
      modifyTcp (·.finish)
    else do
      let _ ← netSendTcpSegment env nestedWait 0x10 []
      pure ()

def netHandleTcp (tcpStart tcpSegLen : ℕ) : NetM Unit := do
  if tcpSegLen < 20 then pure ()
  else do
    let s ← get
    if s.tcp.state = .closed ∨ s.tcp.state = .done then pure ()
    else do
      let destPort ← lift (rx.readLe (tcpStart + 2) 2)
      let srcPort ← lift (rx.readLe tcpStart 2)
      let src ← lift (rx.readArray 4 26)
      if ntohs destPort ≠ s.tcp.localPort ∨ ntohs srcPort ≠ s.tcp.remotePort ∨
          src ≠ s.tcp.remoteIp then pure ()
      else do
        let dataOffset ← lift (rx.readLe (tcpStart + 12) 1)
        let dataOffsetBytes := ((dataOffset >>> 4) &&& 0x0F) * 4
        if dataOffsetBytes < 20 ∨ tcpSegLen < dataOffsetBytes then pure ()
        else do
          let flags ← lift (rx.readLe (tcpStart + 13) 1)
          let seq ← lift (rx.readLe (tcpStart + 4) 4)
          let ack ← lift (rx.readLe (tcpStart + 8) 4)
          let payload ← lift
            (rx.readBytes (tcpStart + dataOffsetBytes) (tcpSegLen - dataOffsetBytes))
          tcpReceive env ⟨ntohl seq, ntohl ack, flags, payload⟩

/-- The loop of `dhcp_get_option` from option `i` on; the bytes that are copied. -/
def dhcpOptionLoop (rx : Image) (opts optsLen code outMax : ℕ) : ℕ → ℕ → Outcome (List UInt8)
  | 0, _ => .endless
  | rounds + 1, i =>
    if i < optsLen then do
      let opt ← rx.readLe (opts + i) 1
      let i := u16 (i + 1)
      if opt = 255 then pure []
      else if opt = 0 then dhcpOptionLoop rx opts optsLen code outMax rounds i
      else if optsLen ≤ i then pure []
      else do
        let len ← rx.readLe (opts + i) 1
        let i := u16 (i + 1)
        if optsLen < i + len then pure []
        else if opt = code ∧ 0 < outMax then
          rx.readBytes (opts + i) (if len < outMax then len else outMax)
        else dhcpOptionLoop rx opts optsLen code outMax rounds (u16 (i + len))
    else pure []

def dhcpGetOption (opts optsLen code outMax : ℕ) : Outcome (List UInt8) :=
  dhcpOptionLoop rx opts optsLen code outMax (optsLen + 1) 0

def storeArray {n : ℕ} (out : Vector UInt8 n) (l : List UInt8) : Outcome (Vector UInt8 n) :=
  if l.length ≤ n then .ok (Vector.ofFn fun i => l.getD i out[i]) else .fault

def dhcpAddress (opts optsLen code : ℕ) (out : Ip) : Outcome Ip := do
  let bytes ← dhcpGetOption rx opts optsLen code 4
  storeArray out bytes

def dhcpUdpHandler (payload len : ℕ) : NetM Unit := do
  if len < 240 then pure ()
  else do
    let op ← lift (rx.readLe payload 1)
    let xid ← lift (rx.readLe (payload + 4) 4)
    let magic ← lift (rx.readLe (payload + 236) 4)
    let s ← get
    if op ≠ 2 ∨ xid ≠ s.dhcp.xid ∨ magic ≠ htonl 0x63825363 then pure ()
    else do
      let opts := payload + 240
      let optsLen := u16 (len - 240)
      let bytes ← lift (dhcpGetOption rx opts optsLen 53 1)
      let msgType ← lift (storeArray (Vector.replicate 1 0) bytes)
      if msgType[0] = 2 ∧ s.dhcp.state = .discovering then do
        let offeredIp ← lift (rx.readArray 4 (payload + 16))
        let offeredMask ← lift (dhcpAddress rx opts optsLen 1 s.dhcp.offeredMask)
        let offeredGw ← lift (dhcpAddress rx opts optsLen 3 s.dhcp.offeredGw)
        let offeredDns ← lift (dhcpAddress rx opts optsLen 6 s.dhcp.offeredDns)
        let serverId ← lift (dhcpAddress rx opts optsLen 54 s.dhcp.serverId)
        let siaddr ← lift (rx.readArray 4 (payload + 20))
        let serverId := if serverId[0]? = some 0 then siaddr else serverId
        modify fun s => { s with dhcp := { s.dhcp with
          state := .requesting, offeredIp, serverId, offeredMask, offeredGw, offeredDns } }
        dhcpSendRequest env nestedWait
      else if msgType[0] = 5 ∧ s.dhcp.state = .requesting then do
        let offeredIp ← lift (rx.readArray 4 (payload + 16))
        let offeredMask ← lift (dhcpAddress rx opts optsLen 1 s.dhcp.offeredMask)
        let offeredGw ← lift (dhcpAddress rx opts optsLen 3 s.dhcp.offeredGw)
        let offeredDns ← lift (dhcpAddress rx opts optsLen 6 s.dhcp.offeredDns)
        modify fun s => { s with dhcp := { s.dhcp with
          state := .bound, offeredIp, offeredMask, offeredGw, offeredDns } }
      else pure ()

def readBe16 (off : ℕ) : Outcome ℕ := do
  let hi ← rx.readLe off 1
  let lo ← rx.readLe (off + 1) 1
  pure (hi <<< 8 ||| lo)

def dnsSkipName (rx : Image) (payload len : ℕ) : ℕ → ℕ → Outcome ℕ
  | 0, _ => .endless
  | rounds + 1, pos =>
    if pos < len then do
      let b ← rx.readLe (payload + pos) 1
      if b = 0 then pure (u16 (pos + 1))
      else if b &&& 0xC0 = 0xC0 then pure (u16 (pos + 2))
      else dnsSkipName rx payload len rounds (u16 (pos + u16 (b + 1)))
    else pure pos

def dnsQuestions (rx : Image) (payload len : ℕ) : ℕ → ℕ → Outcome ℕ
  | 0, pos => pure pos
  | left + 1, pos =>
    if pos < len then do
      let pos ← dnsSkipName rx payload len (len + 1) pos
      dnsQuestions rx payload len left (u16 (pos + 4))
    else pure pos

/-- The loop over the answers; the first address. -/
def dnsAnswers (rx : Image) (payload len : ℕ) : ℕ → ℕ → Outcome (Option Ip)
  | 0, _ => pure none
  | left + 1, pos =>
    if pos < len then do
      let pos ← dnsSkipName rx payload len (len + 1) pos
      if len < pos + 10 then pure none
      else do
        let rtype ← readBe16 rx (payload + pos)
        let pos := u16 (u16 (u16 (pos + 2) + 2) + 4)
        let rdlen ← readBe16 rx (payload + pos)
        let pos := u16 (pos + 2)
        if rtype = 1 ∧ rdlen = 4 ∧ pos + 4 ≤ len then do
          let ip ← rx.readArray 4 (payload + pos)
          pure (some ip)
        else dnsAnswers rx payload len left (u16 (pos + rdlen))
    else pure none

def dnsUdpHandler (payload len : ℕ) : NetM Unit := do
  if len < 12 then pure ()
  else do
    let id ← lift (readBe16 rx payload)
    let flags ← lift (readBe16 rx (payload + 2))
    let qdcount ← lift (readBe16 rx (payload + 4))
    let ancount ← lift (readBe16 rx (payload + 6))
    let s ← get
    if id ≠ s.dns.txid ∨ flags &&& 0x8000 = 0 ∨ flags &&& 0x000F ≠ 0 ∨ ancount = 0 then pure ()
    else do
      let pos ← lift (dnsQuestions rx payload len qdcount 12)
      match ← lift (dnsAnswers rx payload len ancount pos) with
      | none => pure ()
      | some ip =>
        modify fun s => { s with dns := { s.dns with resolvedIp := ip, replyReceived := true } }

def udpDispatch (handler : UdpHandler) (rx : Image) (srcPort payload len : ℕ) : NetM Unit :=
  match handler with
  | .dhcp => dhcpUdpHandler env rx payload len
  | .dns => dnsUdpHandler rx payload len
  | handler => do
    let srcIp ← lift (rx.readArray 4 26)
    let srcMac ← lift (rx.readArray 6 6)
    let bytes ← lift (rx.readBytes payload len)
    modify fun s => { s with requests := s.requests ++ [⟨handler, srcIp, srcMac, srcPort, bytes⟩] }

def netHandleUdp (ipHeaderLen : ℕ) : NetM Unit := do
  if rx.size < 14 + ipHeaderLen + 8 then pure ()
  else do
    let udp := 14 + ipHeaderLen
    let sport ← lift (rx.readLe udp 2)
    let dport ← lift (rx.readLe (udp + 2) 2)
    let udpTotal ← lift (rx.readLe (udp + 4) 2)
    let remaining := rx.size - 14 - ipHeaderLen
    if ntohs udpTotal < 8 then pure ()
    else if remaining < ntohs udpTotal then pure ()
    else do
      let s ← get
      match (List.finRange 8).find? fun i =>
          (s.udpBindings i).active && (s.udpBindings i).port == ntohs dport with
      | none => pure ()
      | some i =>
        udpDispatch env (s.udpBindings i).handler rx (ntohs sport) (udp + 8)
          (u16 (ntohs udpTotal - 8))

def netHandlePacket : NetM Unit := do
  if rx.size < 14 then pure ()
  else do
    let type ← lift (rx.readLe 12 2)
    if type = 0x0608 then
      if rx.size < 14 + 28 then pure () else netHandleArp env rx
    else if type ≠ 0x0008 then pure ()
    else if rx.size < 14 + 20 then pure ()
    else do
      let src ← lift (rx.readArray 4 26)
      let srcMac ← lift (rx.readArray 6 6)
      modify fun s => { s with arpCache := arpCacheAdd s.arpCache src srcMac }
      let versionIhl ← lift (rx.readLe 14 1)
      let ipHeaderLen := (versionIhl &&& 0x0F) * 4
      if ipHeaderLen < 20 then pure ()
      else if rx.size < 14 + ipHeaderLen then pure ()
      else do
        let ipPayloadLen := rx.size - 14 - ipHeaderLen
        let total ← lift (rx.readLe 16 2)
        let ipPayloadLen :=
          if ipHeaderLen ≤ ntohs total ∧ ntohs total - ipHeaderLen < ipPayloadLen then
            ntohs total - ipHeaderLen
          else ipPayloadLen
        let proto ← lift (rx.readLe 23 1)
        if proto = 1 then netHandleIcmp env rx (14 + ipHeaderLen) ipPayloadLen
        else if proto = 6 then netHandleTcp env rx (14 + ipHeaderLen) ipPayloadLen
        else if proto ≠ 17 then pure ()
        else netHandleUdp env rx ipHeaderLen

open Checked Outcome

variable {f rx : Image} {len sum : ℕ} {payload : List UInt8}

theorem ends_checksumWords {off : ℕ} (h : off + len ≤ f.size) (hsum : sum < 2 ^ 32) :
    (checksumWords f off len sum).Ends fun v => v < 2 ^ 32 := by
  induction len using Nat.twoStepInduction generalizing off sum with
  | zero => exact ends_pure hsum
  | one => exact ends_bind (ends_readLe h) fun hi _ => ends_pure (u32_lt _)
  | more len ih _ =>
    refine ends_bind (ends_readLe (by omega)) fun hi _ => ?_
    refine ends_bind (ends_readLe (by omega)) fun lo _ => ?_
    exact ih (by omega) (u32_lt _)

theorem carry_le (n : ℕ) : u32 ((n &&& 0xFFFF) + n >>> 16) ≤ n % 2 ^ 16 + n / 2 ^ 16 := by
  have hmask : n &&& 0xFFFF = n % 2 ^ 16 := and_two_pow_sub_one_eq_mod n 16
  rw [hmask, shiftRight_eq_div_pow]
  exact mod_le _ _

theorem ends_foldCarries (h : sum < 2 ^ 32) : (foldCarries 3 sum).Ends fun _ => True := by
  have hfirst : u32 ((sum &&& 0xFFFF) + sum >>> 16) ≤ 0x1FFFE := (carry_le sum).trans (by omega)
  refine ends_guard trivial fun _ => ?_
  generalize u32 ((sum &&& 0xFFFF) + sum >>> 16) = m at hfirst
  have hsecond : u32 ((m &&& 0xFFFF) + m >>> 16) < 2 ^ 16 := (carry_le m).trans_lt (by omega)
  refine ends_guard trivial fun _ => ?_
  rw [foldCarries, if_pos (by rw [shiftRight_eq_div_pow]; omega)]
  exact ends_pure trivial

theorem ends_netChecksum16Finish (h : sum < 2 ^ 32) :
    (netChecksum16Finish sum).Ends fun _ => True :=
  ends_bind (ends_foldCarries h) fun _ _ => ends_pure trivial

theorem ends_netChecksum16 {off : ℕ} (h : off + len ≤ f.size) :
    (netChecksum16 f off len).Ends fun _ => True :=
  ends_bind (ends_checksumWords h (by norm_num)) fun _ hsum => ends_netChecksum16Finish hsum

section

variable (env : NetEnv)

theorem ends_padFrame (hlen : len ≤ f.size) (hsize : 60 ≤ f.size) :
    (padFrame f len).Ends fun r => r.2 ≤ r.1.size := by
  refine ends_ite (fun hshort => ?_) fun _ => ends_pure hlen
  have hpad : len + (List.replicate (60 - len) (0 : UInt8)).length ≤ f.size := by
    rw [List.length_replicate]
    omega
  exact ends_bind (ends_store hpad) fun g hg => ends_pure (hg ▸ hsize)

variable (config : NetConfig)

theorem ends_arpFrame (dest targetMac : Mac) (opcode : ℕ) (targetIp : Ip) :
    (arpFrame env config dest targetMac opcode targetIp).Ends fun f => f.size = 42 :=
  ends_storeAll (by simp [stackFrame, ethParts])

theorem ends_icmpEchoReplyFrame {icmpStart dataLen : ℕ}
    (hheader : 34 ≤ rx.size) (hend : icmpStart + 8 + dataLen ≤ rx.size) :
    (icmpEchoReplyFrame env config rx icmpStart dataLen).Ends fun r => r.2 ≤ r.1.size := by
  have hdata : (if 56 < dataLen then 56 else dataLen) ≤ 56 ∧
      (if 56 < dataLen then 56 else dataLen) ≤ dataLen := by
    split_ifs <;> omega
  unfold icmpEchoReplyFrame
  generalize (if 56 < dataLen then 56 else dataLen) = n at hdata
  refine ends_bind (ends_readArray (by omega)) fun destMac _ => ?_
  refine ends_bind (ends_readLe (by omega)) fun id _ => ?_
  refine ends_bind (ends_readArray (by omega)) fun destIp _ => ?_
  refine ends_bind (ends_storeAll (by simp [stackFrame, ethParts, ipParts])) fun f hf => ?_
  have hsize : f.size = 512 := hf
  refine ends_bind (ends_netChecksum16 (by omega)) fun sum _ => ?_
  refine ends_bind (ends_readLe (by omega)) fun icmpId _ => ?_
  refine ends_bind (ends_readLe (by omega)) fun icmpSeq _ => ?_
  refine ends_bind (ends_readBytes (by omega)) fun data hlen => ?_
  refine ends_bind (ends_storeAll (by simp [hsize, hlen]; omega)) fun g hg => ?_
  refine ends_bind (ends_netChecksum16 (by omega)) fun sum _ => ?_
  refine ends_bind (ends_store (by rw [length_leBytes]; omega)) fun k hk => ?_
  have htotal : u16 (20 + 8 + n) = 20 + 8 + n := u16_of_lt (by omega)
  exact ends_padFrame (by omega) (by omega)

theorem ends_udpFrame (destIp : Ip) (destMac : Mac) (destPort srcPort : ℕ)
    (h : 14 + (20 + 8 + payload.length) ≤ 2048) :
    (udpFrame env config destIp destMac destPort srcPort payload).Ends fun r => r.2 ≤ r.1.size := by
  refine ends_bind (ends_storeAll (by simp [stackFrame, ethParts, ipParts]; omega))
    fun f hf => ?_
  have hsize : f.size = 2048 := hf
  refine ends_bind (ends_netChecksum16 (by omega)) fun sum _ => ?_
  refine ends_bind (ends_storeAll (by simp [hsize]; omega)) fun g hg => ?_
  exact ends_padFrame (by omega) (by omega)

theorem ends_tcpFrame (conn : TcpConn) (destMac : Mac) (flags : ℕ)
    (h : 14 + (20 + 20 + payload.length) ≤ 2048) :
    (tcpFrame env config conn destMac flags payload).Ends fun r => r.2 ≤ r.1.size := by
  refine ends_bind (ends_storeAll (by simp [stackFrame, ethParts, ipParts]; omega))
    fun f hf => ?_
  have hsize : f.size = 2048 := hf
  refine ends_bind (ends_netChecksum16 (by omega)) fun sum _ => ?_
  refine ends_bind (ends_storeAll (by simp [hsize]; omega)) fun g hg => ?_
  refine ends_bind (ends_checksumWords (by simp [tcpPseudoHeader, Image.ofList]) (by norm_num))
    fun part hpart => ?_
  refine ends_bind (ends_checksumWords (by omega) hpart) fun whole hwhole => ?_
  refine ends_bind (ends_netChecksum16Finish hwhole) fun sum _ => ?_
  refine ends_bind (ends_store (by rw [length_leBytes]; omega)) fun k hk => ?_
  exact ends_padFrame (by omega) (by omega)

theorem ends_dhcpRequest (dhcp : DhcpClient) :
    (dhcpRequest env config dhcp).Ends fun l => l.length = 262 := by
  refine ends_bind (ends_storeAll ?_) fun f hf => ?_
  · simp only [List.forall_mem_cons, List.length_replicate, List.length_cons, List.length_nil,
      length_leBytes, Vector.length_toList, stackFrame]
    simp
  · have hsize : f.size = 300 := hf
    exact ends_readBytes (by omega)

end

/-- The condition does not depend on the drivers. -/
def DriverFree (P : NetState → Prop) : Prop :=
  ∀ s rtl e1000 sent sends, P s →
    P { s with rtl := rtl, e1000 := e1000, sent := sent, sends := sends }

section

variable {env : NetEnv} {P P' : NetState → Prop}

theorem ends_txRing_store (r : TxRing) {l : List UInt8} (h : l.length ≤ 2048) :
    (r.store l).Ends fun _ => True := by
  exact ⟨_, if_pos (by rw [r.size_eq]; omega), trivial⟩

variable (hP : DriverFree P)
include hP

theorem rtlSendFrame_total (hlen : len ≤ f.size) :
    Total P (rtlSendFrame env f len) fun _ s => P s := by
  refine get_bind fun s hs => Total.ite (fun _ => ?_) fun hready => Total.ite (fun _ => ?_)
    fun _ => ?_
  · exact Total.pure fun _ h => h ▸ hs
  · refine Total.bind (Total.modify (Q := P) ?_) fun _ => done
    rintro _ rfl
    exact hP _ _ _ _ _ hs
  · simp only [Bool.or_eq_true, decide_eq_true_eq, not_or] at hready
    refine Total.bind (Total.lift (ends_readBytes (by omega))) fun bytes => ?_
    refine of_fact fun hbytes => ?_
    refine Total.bind (Total.lift (ends_txRing_store _ ?_)) fun ring => ?_
    · rw [List.length_append, List.length_replicate]
      omega
    · refine Total.bind (Total.modify (Q := P) ?_) fun _ => done
      rintro _ ⟨-, rfl⟩
      exact hP _ _ _ _ _ hs

theorem e1000SendFrame_total (hlen : len ≤ f.size) :
    Total P (e1000SendFrame env f len) fun _ s => P s := by
  refine get_bind fun s hs => Total.ite (fun _ => ?_) fun hready => Total.ite (fun _ => ?_)
    fun _ => ?_
  · exact Total.pure fun _ h => h ▸ hs
  · refine Total.bind (Total.modify (Q := P) ?_) fun _ => done
    rintro _ rfl
    exact hP _ _ _ _ _ hs
  · simp only [Bool.or_eq_true, decide_eq_true_eq, not_or] at hready
    refine Total.bind (Total.lift (ends_readBytes (by omega))) fun bytes => ?_
    refine of_fact fun hbytes => ?_
    refine Total.bind (Total.lift (ends_txRing_store _ (by omega))) fun ring => ?_
    refine Total.bind (Total.modify (Q := P) ?_) fun _ => done
    rintro _ ⟨-, rfl⟩
    exact hP _ _ _ _ _ hs

theorem nicSendFrame_total (hlen : len ≤ f.size) :
    Total P (nicSendFrame env f len) fun _ s => P s := by
  refine get_bind fun s hs => Total.ite (fun _ => ?_) fun _ => Total.ite (fun _ => ?_)
    fun _ => ?_
  · refine Total.bind (Total.lift (ends_readBytes (by omega))) fun bytes => ?_
    refine Total.bind (Total.modify (Q := P) ?_) fun _ => done
    rintro _ ⟨-, rfl⟩
    exact hP _ _ _ _ _ hs
  · exact (rtlSendFrame_total hP hlen).of_eq hs
  · exact (e1000SendFrame_total hP hlen).of_eq hs

theorem sendBuilt_total {build : NetState → Outcome (Image × ℕ)}
    (hbuild : ∀ s, (build s).Ends fun r => r.2 ≤ r.1.size) :
    Total P (get >>= fun s => lift (build s) >>= fun r => nicSendFrame env r.1 (u16 r.2))
      fun _ s => P s := by
  refine get_bind fun s hs => ?_
  refine lift_then (hbuild s) fun r hr => ?_
  exact (nicSendFrame_total hP ((mod_le _ _).trans hr)).of_eq hs

theorem netSendArpRequest_total (targetIp : Ip) :
    Total P (netSendArpRequest env targetIp) fun _ s => P s := by
  refine get_bind fun s hs => ?_
  refine lift_then (ends_arpFrame env _ _ _ _ _) fun f hf => ?_
  exact (nicSendFrame_total hP hf.ge).of_eq hs

theorem netSendArpReply_total (hrx : 42 ≤ rx.size) :
    Total P (netSendArpReply env rx) fun _ s => P s := by
  refine get_bind fun s hs => ?_
  refine Total.bind (Total.lift (ends_readArray (by omega))) fun senderMac => ?_
  refine Total.bind (Total.lift (ends_readArray (by omega))) fun senderIp => ?_
  refine lift_then (ends_arpFrame env _ _ _ _ _) fun f hf => ?_
  exact (nicSendFrame_total hP hf.ge).conseq (fun _ h => h.2.2 ▸ hs) fun _ _ h => h

theorem netSendIcmpEchoReply_total {icmpStart dataLen : ℕ}
    (hheader : 34 ≤ rx.size) (hend : icmpStart + 8 + dataLen ≤ rx.size) :
    Total P (netSendIcmpEchoReply env rx icmpStart dataLen) fun _ s => P s := by
  refine get_bind fun s hs => ?_
  refine lift_then (ends_icmpEchoReplyFrame env _ hheader hend) fun r hr => ?_
  refine Total.bind ((nicSendFrame_total hP ((mod_le _ _).trans hr)).conseq
    (fun _ h => h ▸ hs) fun _ _ h => h) fun _ => done

omit hP

variable {wait : Ip → NetM (Option Mac)}

theorem netSendUdp_total (hP : DriverFree P') {destIp : Ip} {destPort srcPort : ℕ}
    (hPP : ∀ s, P s → P' s) (hresolve : Total P (netResolveMac wait destIp) fun _ s => P' s) :
    Total P (netSendUdp env wait destIp destPort srcPort payload) fun _ s => P' s := by
  refine get_bind fun s hs => Total.ite (fun _ => ?_) fun _ => ?_
  · exact Total.pure fun _ h => h ▸ hPP s hs
  · refine Total.bind (hresolve.of_eq hs) fun got => ?_
    cases got with
    | none => exact done
    | some destMac =>
      refine guard fun hlen => ?_
      exact sendBuilt_total hP fun s => ends_udpFrame env _ _ _ _ _ (not_lt.mp hlen)

theorem netSendTcpSegment_total (hP : DriverFree P') {flags : ℕ} (hPP : ∀ s, P s → P' s)
    (hresolve : ∀ s, P s → Total (· = s) (netResolveMac wait s.tcp.remoteIp) fun _ s => P' s) :
    Total P (netSendTcpSegment env wait flags payload) fun _ s => P' s := by
  refine get_bind fun s hs => Total.ite (fun _ => ?_) fun _ => ?_
  · exact Total.pure fun _ h => h ▸ hPP s hs
  · refine Total.bind (hresolve s hs) fun got => ?_
    cases got with
    | none => exact done
    | some destMac =>
      refine guard fun hlen => ?_
      exact sendBuilt_total hP fun s => ends_tcpFrame env _ _ _ _ (not_lt.mp hlen)

theorem dhcpSendRequest_total (hP : DriverFree P) :
    Total P (dhcpSendRequest env wait) fun _ s => P s := by
  refine get_bind fun s hs => ?_
  refine Total.bind (Total.lift (ends_dhcpRequest env _ _)) fun payload => ?_
  have hresolve : Total P (netResolveMac wait broadcastIp) fun _ s => P s := by
    exact done
  refine Total.bind ((netSendUdp_total hP (fun _ => id) hresolve).conseq (fun _ h => h.2 ▸ hs)
    fun _ _ h => h) fun _ => done

end

end MicroK.Net
