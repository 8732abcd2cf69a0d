import MicroK.DnsReplies

/-!
# Packet handlers stay within the frame

Whatever a frame of at most 2 KiB holds, handling it ends without an access outside of a buffer, and
the connection changes as the segment says that the frame carries, if it carries one.
-/

namespace MicroK.Net

open Checked Outcome Total Image

structure TcpView where
  conn : TcpConn
  buf : Option RecvBuffer
  len : ℕ
  log : List Step

def NetState.tcpView (s : NetState) : TcpView := ⟨s.tcp, s.recvBuf, s.recvLen, s.log⟩

/-- The condition depends on the connection and the receive buffer only. -/
def TcpOnly (P : NetState → Prop) : Prop := ∀ s s' : NetState, s.tcpView = s'.tcpView → P s → P s'

theorem TcpOnly.driverFree {P : NetState → Prop} (hP : TcpOnly P) : DriverFree P :=
  fun s rtl e1000 sent sends hs =>
    hP s { s with rtl := rtl, e1000 := e1000, sent := sent, sends := sends } rfl hs

namespace TcpView

variable (v : TcpView)

def update (f : TcpConn → TcpConn) : TcpView := { v with conn := f v.conn }

def store (payload : List UInt8) : TcpView :=
  match v.buf with
  | none => v
  | some buf =>
    if 0 < payload.length ∧ v.len < buf.size then
      let space := buf.size - v.len
      let copyLen := if payload.length < space then payload.length else space
      { v with
        buf := some { buf with bytes := buf.bytes.put v.len (payload.take copyLen) }
        len := u32 (v.len + copyLen) }
    else v

def receive (seg : Segment) : TcpView :=
  if seg.has 0x04 then v.update (·.reset)
  else if v.conn.state = .synSent then
    if seg.flags &&& 0x12 = 0x12 ∧ seg.ack = u32 (v.conn.localSeq + 1) then
      v.update (·.establish seg.seq)
    else v
  else if v.conn.state ≠ .established then v
  else if seg.seq ≠ v.conn.remoteSeq then v
  else if seg.payload.length = 0 ∧ !seg.has 0x01 then v
  else
    let v := (v.store seg.payload).update (·.advance seg.payload.length)
    if seg.has 0x01 then (v.update (·.finSeen)).update (·.finish) else v

@[simp] theorem conn_store (payload : List UInt8) : (v.store payload).conn = v.conn := by
  unfold store
  split
  · rfl
  · split_ifs <;> rfl

end TcpView

/-- The hardware address can be found without asking. -/
def NetState.Knows (s : NetState) (ip : Ip) : Prop :=
  ip = broadcastIp ∨ ∃ mac, s.arpCache.lookup ip = some mac

section

variable {env : NetEnv} {v : TcpView} {ip : Ip}

def Seen (v : TcpView) (ip : Ip) (s : NetState) : Prop := s.tcpView = v ∧ s.Knows ip

theorem driverFree_seen (v : TcpView) (ip : Ip) : DriverFree (Seen v ip) :=
  fun _ _ _ _ _ h => ⟨h.1, h.2⟩

theorem netResolveMac_seen {wait : Ip → NetM (Option Mac)} :
    Total (Seen v ip) (netResolveMac wait ip) fun _ s => Seen v ip s := by
  refine guard fun hne => get_bind fun s hs => ?_
  obtain ⟨mac, hmac⟩ : ∃ mac, s.arpCache.lookup ip = some mac := hs.2.resolve_left hne
  rw [hmac]
  exact Total.pure fun _ h => h ▸ hs

theorem netSendTcpSegment_seen {flags : ℕ} {payload : List UInt8} (hip : v.conn.remoteIp = ip) :
    Total (Seen v ip) (netSendTcpSegment env nestedWait flags payload) fun _ s => Seen v ip s := by
  refine netSendTcpSegment_total (driverFree_seen v ip) (fun _ => id) fun s hs => ?_
  have hremote : s.tcp.remoteIp = ip := by
    rw [← hip, ← hs.1]
    rfl
  rw [hremote]
  exact netResolveMac_seen.of_eq hs

theorem modifyTcp_seen (f : TcpConn → TcpConn) :
    Total (Seen v ip) (modifyTcp f) fun _ s => Seen (v.update f) ip s := by
  refine Total.modify fun s hs => ⟨?_, hs.2⟩
  rw [← hs.1]
  rfl

theorem tcpStore_seen (payload : List UInt8) :
    Total (Seen v ip) (tcpStore payload) fun _ s => Seen (v.store payload) ip s := by
  refine get_bind fun s hs => ?_
  have hbuf : s.recvBuf = v.buf := congrArg TcpView.buf hs.1
  have hlen : s.recvLen = v.len := congrArg TcpView.len hs.1
  have hstay : Total (· = s) (pure () : NetM Unit) fun _ s' => Seen v ip s' :=
    Total.pure fun _ h => h ▸ hs
  unfold TcpView.store
  rw [hbuf, hlen]
  cases hv : v.buf with
  | none => exact hstay
  | some buf =>
    dsimp only
    by_cases hroom : 0 < payload.length ∧ v.len < buf.size
    · rw [if_pos hroom, if_pos hroom]
      generalize hcopy : (if payload.length < buf.size - v.len then payload.length
        else buf.size - v.len) = copyLen
      have hin : v.len + (payload.take copyLen).length ≤ buf.bytes.size := by
        have hle := buf.size_le
        rw [List.length_take]
        split_ifs at hcopy <;> omega
      refine Total.bind (Total.lift ⟨_, if_pos hin, rfl⟩) fun buf' => of_fact ?_
      rintro rfl
      apply Total.modify
      rintro _ rfl
      refine ⟨?_, hs.2⟩
      rw [← hlen, ← hs.1]
      rfl
    · rw [if_neg hroom, if_neg hroom]
      exact hstay

theorem tcpReceive_seen (seg : Segment) (hip : v.conn.remoteIp = ip) :
    Total (Seen v ip) (tcpReceive env seg) fun _ s => s.tcpView = v.receive seg := by
  refine get_bind fun s hs => ?_
  have hconn : s.tcp = v.conn := congrArg TcpView.conn hs.1
  have hstay : Total (Seen v ip) (pure () : NetM Unit) fun _ s' => s'.tcpView = v :=
    Total.pure fun _ h => h.1
  unfold TcpView.receive
  rw [hconn]
  refine conseq (P := Seen v ip) ?_ (fun _ h => h ▸ hs) fun _ _ h => h
  split_ifs with hrst hsyn hack hest hseq hempty hfin
  · exact (modifyTcp_seen _).mono fun _ _ h => h.1
  · refine Total.bind (modifyTcp_seen _) fun _ => ?_
    exact Total.bind (netSendTcpSegment_seen hip) fun _ => Total.pure fun _ h => h.1
  · exact hstay
  · exact hstay
  · exact hstay
  · exact hstay
  · refine Total.bind (tcpStore_seen _) fun _ => Total.bind (modifyTcp_seen _) fun _ => ?_
    refine Total.bind (modifyTcp_seen _) fun _ => ?_
    refine Total.bind (netSendTcpSegment_seen ?_) fun _ => ?_
    · simpa [TcpView.update, TcpConn.finSeen, TcpConn.advance] using hip
    · exact (modifyTcp_seen _).mono fun _ _ h => h.1
  · refine Total.bind (tcpStore_seen _) fun _ => Total.bind (modifyTcp_seen _) fun _ => ?_
    refine Total.bind (netSendTcpSegment_seen ?_) fun _ => Total.pure fun _ h => h.1
    simpa [TcpView.update, TcpConn.advance] using hip

end

section

variable {rx : Image} {opts optsLen code outMax : ℕ}

variable (hend : opts + optsLen ≤ rx.size)
include hend

theorem ends_dhcpOptionLoop (hlen : optsLen < 2 ^ 16)
    {rounds i : ℕ} (hi : i ≤ optsLen) (hrounds : optsLen < rounds + i) :
    (dhcpOptionLoop rx opts optsLen code outMax rounds i).Ends fun l => l.length ≤ outMax := by
  have hnone : (pure [] : Outcome (List UInt8)).Ends fun l => l.length ≤ outMax :=
    ends_pure (Nat.zero_le _)
  induction rounds generalizing i with
  | zero => omega
  | succ rounds ih =>
    refine ends_ite (fun hlt => ?_) fun _ => hnone
    refine ends_bind (ends_readLe (by omega)) fun opt _ => ?_
    rw [u16_of_lt (n := i + 1) (by omega)]
    refine ends_ite (fun _ => hnone) fun _ => ends_ite (fun _ => ih (by omega) (by omega)) fun _ =>
      ends_ite (fun _ => hnone) fun hmore => ?_
    refine ends_bind (ends_readLe (by omega)) fun len _ => ?_
    rw [u16_of_lt (n := i + 1 + 1) (by omega)]
    refine ends_ite (fun _ => hnone) fun hfits => ends_ite (fun _ => ?_) fun _ => ?_
    · have hcopy : (if len < outMax then len else outMax) ≤ len ∧
          (if len < outMax then len else outMax) ≤ outMax := by
        split_ifs <;> omega
      generalize (if len < outMax then len else outMax) = n at hcopy
      have hread : (rx.readBytes (opts + (i + 1 + 1)) n).Ends fun l => l.length = n :=
        ends_readBytes (by omega)
      obtain ⟨l, hl, hlength⟩ := hread
      exact ⟨l, hl, hlength.le.trans hcopy.2⟩
    · rw [u16_of_lt (by omega)]
      exact ih (by omega) (by omega)

theorem ends_dhcpGetOption (hlen : optsLen < 2 ^ 16) :
    (dhcpGetOption rx opts optsLen code outMax).Ends fun l => l.length ≤ outMax :=
  ends_dhcpOptionLoop hend hlen (Nat.zero_le _) (by omega)

theorem ends_dhcpAddress (hlen : optsLen < 2 ^ 16) (out : Ip) :
    (dhcpAddress rx opts optsLen code out).Ends fun _ => True :=
  ends_bind (ends_dhcpGetOption hend hlen) fun _ hl => ⟨_, if_pos hl, trivial⟩

end

section

variable {env : NetEnv} {P : NetState → Prop} {rx : Image}

variable (hP : TcpOnly P)
include hP

theorem netHandleArp_total (hrx : 42 ≤ rx.size) : Total P (netHandleArp env rx) fun _ s => P s := by
  refine lift_then (ends_readLe (by omega)) fun hwType _ => ?_
  refine lift_then (ends_readLe (by omega)) fun protoType _ => ?_
  refine lift_then (ends_readLe (by omega)) fun opcode _ => ?_
  refine guard fun _ => ?_
  refine lift_then (ends_readArray (by omega)) fun senderMac _ => ?_
  refine lift_then (ends_readArray (by omega)) fun senderIp _ => ?_
  refine Total.bind (Total.modify (Q := P) fun s hs => hP s _ rfl hs) fun _ => ?_
  refine lift_then (ends_readArray (by omega)) fun targetIp _ => ?_
  refine get_then fun s hs => ?_
  refine Total.ite (fun _ => ?_) fun _ => done
  exact Total.bind (netSendArpReply_total hP.driverFree hrx) fun _ => done

theorem netHandleIcmp_total {icmpStart icmpLen : ℕ} (hheader : 34 ≤ rx.size)
    (hend : icmpStart + icmpLen ≤ rx.size) :
    Total P (netHandleIcmp env rx icmpStart icmpLen) fun _ s => P s := by
  refine guard fun hlen => ?_
  refine lift_then (ends_readArray (by omega)) fun dest _ => ?_
  refine get_then fun s hs => ?_
  refine guard fun _ => ?_
  refine lift_then (ends_readLe (by omega)) fun type _ => ?_
  refine lift_then (ends_readLe (by omega)) fun code _ => ?_
  have hdata : (if 8 < icmpLen then icmpLen - 8 else 0) = icmpLen - 8 := by split_ifs <;> omega
  refine Total.ite (fun _ => netSendIcmpEchoReply_total hP.driverFree hheader (by omega)) fun _ =>
    Total.ite (fun _ => ?_) fun _ => done
  refine lift_then (ends_readLe (by omega)) fun id _ => ?_
  refine lift_then (ends_readLe (by omega)) fun seq _ => ?_
  refine Total.ite (fun _ => ?_) fun _ => done
  exact Total.modify fun s hs => hP s _ rfl hs

theorem dhcpUdpHandler_total {payload len : ℕ} (hend : payload + len ≤ rx.size)
    (hlen : len < 2 ^ 16) : Total P (dhcpUdpHandler env rx payload len) fun _ s => P s := by
  refine guard fun hheader => ?_
  refine lift_then (ends_readLe (by omega)) fun op _ => ?_
  refine lift_then (ends_readLe (by omega)) fun xid _ => ?_
  refine lift_then (ends_readLe (by omega)) fun magic _ => ?_
  refine get_then fun s hs => ?_
  refine guard fun _ => ?_
  rw [u16_of_lt (n := len - 240) (by omega)]
  have hopts : payload + 240 + (len - 240) ≤ rx.size := by omega
  have hsmall : len - 240 < 2 ^ 16 := by omega
  have haddress : ∀ code out, (dhcpAddress rx (payload + 240) (len - 240) code out).Ends
      fun _ => True := fun code out => ends_dhcpAddress hopts hsmall out
  refine lift_then (ends_dhcpGetOption hopts hsmall) fun bytes hbytes => ?_
  apply lift_bind (if_pos hbytes)
  refine Total.ite (fun _ => ?_) fun _ => Total.ite (fun _ => ?_) fun _ => done
  · refine lift_then (ends_readArray (by omega)) fun offeredIp _ => ?_
    refine lift_then (haddress _ _) fun offeredMask _ => ?_
    refine lift_then (haddress _ _) fun offeredGw _ => ?_
    refine lift_then (haddress _ _) fun offeredDns _ => ?_
    refine lift_then (haddress _ _) fun serverId _ => ?_
    refine lift_then (ends_readArray (by omega)) fun siaddr _ => ?_
    refine Total.bind (Total.modify (Q := P) fun s hs => hP s _ rfl hs) fun _ => ?_
    exact dhcpSendRequest_total hP.driverFree
  · refine lift_then (ends_readArray (by omega)) fun offeredIp _ => ?_
    refine lift_then (haddress _ _) fun offeredMask _ => ?_
    refine lift_then (haddress _ _) fun offeredGw _ => ?_
    refine lift_then (haddress _ _) fun offeredDns _ => ?_
    exact Total.modify fun s hs => hP s _ rfl hs

theorem dnsUdpHandler_total {payload len : ℕ} (hend : payload + len ≤ rx.size)
    (hlen : len ≤ 2048) : Total P (dnsUdpHandler rx payload len) fun _ s => P s := by
  intro s hs
  refine ⟨(), _, dnsUdpHandler_eq hend hlen s, ?_⟩
  generalize (if IsReply rx payload len s.dns.txid then _ else _) = found
  cases found with
  | none => exact hs
  | some ip => exact hP s _ rfl hs

theorem udpDispatch_total (handler : UdpHandler) {srcPort payload len : ℕ}
    (hheader : 34 ≤ rx.size) (hend : payload + len ≤ rx.size) (hlen : len ≤ 2048) :
    Total P (udpDispatch env handler rx srcPort payload len) fun _ s => P s := by
  have hrequest : ∀ handler, Total P (do
      let srcIp ← lift (rx.readArray 4 26)
      let srcMac ← lift (rx.readArray 6 6)
      let bytes ← lift (rx.readBytes payload len)
      modify fun s =>
        { s with requests := s.requests ++ [⟨handler, srcIp, srcMac, srcPort, bytes⟩] } : NetM Unit)
      fun _ s => P s := by
    intro handler
    refine lift_then (ends_readArray (by omega)) fun srcIp _ => ?_
    refine lift_then (ends_readArray (by omega)) fun srcMac _ => ?_
    refine lift_then (ends_readBytes hend) fun bytes _ => ?_
    exact Total.modify fun s hs => hP s _ rfl hs
  cases handler with
  | dhcp => exact dhcpUdpHandler_total hP hend (by omega)
  | dns => exact dnsUdpHandler_total hP hend hlen
  | llm => exact hrequest .llm
  | rsh => exact hrequest .rsh

theorem netHandleUdp_total {ipHeaderLen : ℕ} (hheader : 34 ≤ rx.size)
    (hrx : rx.size ≤ 2048) : Total P (netHandleUdp env rx ipHeaderLen) fun _ s => P s := by
  refine guard fun hudp => ?_
  refine lift_then (ends_readLe (by omega)) fun sport _ => ?_
  refine lift_then (ends_readLe (by omega)) fun dport _ => ?_
  refine lift_then (ends_readLe (by omega)) fun udpTotal _ => ?_
  refine guard fun hmin => Total.ite
    (fun _ => done) fun hmax => ?_
  refine get_then fun s hs => ?_
  have hlen : u16 (ntohs udpTotal - 8) ≤ ntohs udpTotal - 8 := Nat.mod_le _ _
  cases (List.finRange 8).find? fun i =>
      (s.udpBindings i).active && (s.udpBindings i).port == ntohs dport with
  | none => exact done
  | some i => exact udpDispatch_total hP _ hheader (by omega) (by omega)

end

section

variable (conn : TcpConn) (rx : Image)

def field (off n : ℕ) : ℕ := leValue (rx.bytes off n)

def tcpHeaderLen (tcpStart : ℕ) : ℕ := ((field rx (tcpStart + 12) 1 >>> 4) &&& 0x0F) * 4

def segmentAt (tcpStart tcpSegLen : ℕ) : Option Segment :=
  if tcpSegLen < 20 then none
  else if conn.state = .closed ∨ conn.state = .done then none
  else if ntohs (field rx (tcpStart + 2) 2) ≠ conn.localPort ∨
      ntohs (field rx tcpStart 2) ≠ conn.remotePort ∨ rx.array 4 26 ≠ conn.remoteIp then none
  else if tcpHeaderLen rx tcpStart < 20 ∨ tcpSegLen < tcpHeaderLen rx tcpStart then none
  else some
    { seq := ntohl (field rx (tcpStart + 4) 4)
      ack := ntohl (field rx (tcpStart + 8) 4)
      flags := field rx (tcpStart + 13) 1
      payload := rx.bytes (tcpStart + tcpHeaderLen rx tcpStart)
        (tcpSegLen - tcpHeaderLen rx tcpStart) }

theorem segmentAt_eq {conn conn' : TcpConn} {rx : Image} {tcpStart tcpSegLen : ℕ}
    {seg seg' : Segment}
    (h : segmentAt conn rx tcpStart tcpSegLen = some seg)
    (h' : segmentAt conn' rx tcpStart tcpSegLen = some seg') : seg = seg' := by
  unfold segmentAt at h h'
  split_ifs at h h'
  exact (Option.some.inj h).symm.trans (Option.some.inj h')

def ipHeaderLen : ℕ := (field rx 14 1 &&& 0x0F) * 4

/-- The length of the payload, without the padding of short frames. -/
def ipPayloadLen : ℕ :=
  if ipHeaderLen rx ≤ ntohs (field rx 16 2) ∧
      ntohs (field rx 16 2) - ipHeaderLen rx < rx.size - 14 - ipHeaderLen rx then
    ntohs (field rx 16 2) - ipHeaderLen rx
  else rx.size - 14 - ipHeaderLen rx

def IsIp : Prop :=
  34 ≤ rx.size ∧ field rx 12 2 = 0x0008 ∧ 20 ≤ ipHeaderLen rx ∧ 14 + ipHeaderLen rx ≤ rx.size

instance : Decidable (IsIp rx) := inferInstanceAs (Decidable (_ ∧ _ ∧ _ ∧ _))

def segmentOf : Option Segment :=
  if IsIp rx ∧ field rx 23 1 = 6 then segmentAt conn rx (14 + ipHeaderLen rx) (ipPayloadLen rx)
  else none

end

theorem segmentOf_eq {conn conn' : TcpConn} {rx : Image} {seg seg' : Segment}
    (h : segmentOf conn rx = some seg) (h' : segmentOf conn' rx = some seg') : seg = seg' := by
  unfold segmentOf at h h'
  split_ifs at h h'
  exact segmentAt_eq h h'

def TcpView.handle (v : TcpView) : Option Segment → TcpView
  | none => v
  | some seg => v.receive seg

theorem readLe_field {rx : Image} {off n : ℕ} (h : off + n ≤ rx.size) :
    rx.readLe off n = .ok (field rx off n) := readLe_eq h

section

variable {env : NetEnv} {rx : Image} {v : TcpView}

theorem netHandleTcp_seen {tcpStart tcpSegLen : ℕ} (hheader : 34 ≤ rx.size)
    (hend : tcpStart + tcpSegLen ≤ rx.size) :
    Total (Seen v (rx.array 4 26)) (netHandleTcp env rx tcpStart tcpSegLen)
      fun _ s => s.tcpView = v.handle (segmentAt v.conn rx tcpStart tcpSegLen) := by
  have hstay : Total (Seen v (rx.array 4 26)) (pure () : NetM Unit) fun _ s => s.tcpView = v :=
    Total.pure fun _ h => h.1
  unfold segmentAt
  refine Total.ite (fun hshort => ?_) fun hshort => get_bind fun s hs => ?_
  · rw [if_pos hshort]
    exact hstay
  have hconn : s.tcp = v.conn := congrArg TcpView.conn hs.1
  refine conseq (P := Seen v (rx.array 4 26)) ?_ (fun _ h => h ▸ hs) fun _ _ h => h
  rw [if_neg hshort, hconn]
  refine Total.ite (fun hidle => ?_) fun hidle => ?_
  · rw [if_pos hidle]
    exact hstay
  refine lift_bind (readLe_field (by omega)) <| lift_bind (readLe_field (by omega))
    <| lift_bind (readArray_eq (by omega)) ?_
  rw [if_neg hidle]
  refine Total.ite (fun hother => ?_) fun hother => ?_
  · rw [if_pos hother]
    exact hstay
  apply lift_bind (readLe_field (by omega))
  rw [if_neg hother]
  change Total _ (if tcpHeaderLen rx tcpStart < 20 ∨ tcpSegLen < tcpHeaderLen rx tcpStart then _
    else _) _
  refine Total.ite (fun hoff => ?_) fun hoff => ?_
  · rw [if_pos hoff]
    exact hstay
  rw [if_neg hoff]
  refine lift_bind (readLe_field (by omega)) <| lift_bind (readLe_field (by omega))
    <| lift_bind (readLe_field (by omega)) <| lift_bind (readBytes_eq ?_) ?_
  · change tcpStart + tcpHeaderLen rx tcpStart + (tcpSegLen - tcpHeaderLen rx tcpStart) ≤ rx.size
    omega
  · apply tcpReceive_seen _
    simp only [not_or, not_not] at hother
    exact hother.2.2.symm

theorem netHandlePacket_view (hrx : rx.size ≤ 2048) :
    Total (fun s => s.tcpView = v) (netHandlePacket env rx)
      fun _ s => s.tcpView = v.handle (segmentOf v.conn rx) := by
  have hview : TcpOnly fun s => s.tcpView = v := fun s s' h hs => h.symm.trans hs
  have hnone : segmentOf v.conn rx = none → ∀ {x : NetM Unit} {P : NetState → Prop},
      Total P x (fun _ s => s.tcpView = v) →
      Total P x fun _ s => s.tcpView = v.handle (segmentOf v.conn rx) := by
    intro hseg x P hx
    rw [hseg]
    exact hx
  have hstay : Total (fun s => s.tcpView = v) (pure () : NetM Unit) fun _ s => s.tcpView = v :=
    done
  refine Total.ite (fun hshort => hnone (if_neg fun h => ?_) hstay) fun hshort => ?_
  · exact absurd h.1.1 (by omega)
  apply lift_bind (readLe_field (by omega))
  refine Total.ite (fun harp => ?_) fun _ => ?_
  · have hseg : segmentOf v.conn rx = none :=
      if_neg fun h => absurd (harp.symm.trans h.1.2.1) (by decide)
    exact Total.ite (fun _ => hnone hseg hstay)
      fun hlen => hnone hseg (netHandleArp_total hview (by omega))
  refine Total.ite (fun htype => hnone (if_neg fun h => htype h.1.2.1) hstay) fun htype => ?_
  refine Total.ite (fun hlen => hnone (if_neg fun h => ?_) hstay) fun hlen => ?_
  · exact absurd h.1.1 (by omega)
  refine lift_bind (readArray_eq (by omega)) <|
    lift_bind (readArray_eq (by omega)) ?_
  refine Total.bind (Total.modify (Q := Seen v (rx.array 4 26)) fun s hs =>
    ⟨hs, .inr (lookup_arpCacheAdd _ _ _)⟩) fun _ => ?_
  have hseen : ∀ {x : NetM Unit}, Total (fun s => s.tcpView = v) x (fun _ s => s.tcpView = v) →
      Total (Seen v (rx.array 4 26)) x fun _ s => s.tcpView = v :=
    fun hx => hx.conseq (fun _ h => h.1) fun _ _ h => h
  apply lift_bind (readLe_field (by omega))
  change Total _ (if ipHeaderLen rx < 20 then _ else if rx.size < 14 + ipHeaderLen rx then _
    else _) _
  refine Total.ite (fun hihl => hnone (if_neg fun h => ?_) (hseen hstay)) fun hihl => ?_
  · exact absurd h.1.2.2.1 (by omega)
  refine Total.ite (fun hfit => hnone (if_neg fun h => ?_) (hseen hstay)) fun hfit => ?_
  · exact absurd h.1.2.2.2 (by omega)
  refine lift_bind (readLe_field (by omega)) <| lift_bind (readLe_field (by omega)) ?_
  have hpayload : 14 + ipHeaderLen rx + ipPayloadLen rx ≤ rx.size := by
    unfold ipPayloadLen
    split_ifs <;> omega
  change Total _ (if field rx 23 1 = 1 then netHandleIcmp env rx (14 + ipHeaderLen rx)
    (ipPayloadLen rx) else if field rx 23 1 = 6 then netHandleTcp env rx (14 + ipHeaderLen rx)
    (ipPayloadLen rx) else if field rx 23 1 ≠ 17 then pure () else
    netHandleUdp env rx (ipHeaderLen rx)) _
  refine Total.ite (fun hicmp => ?_) fun _ => Total.ite (fun htcp => ?_) fun htcp => ?_
  · have hseg : segmentOf v.conn rx = none :=
      if_neg fun h => absurd (hicmp.symm.trans h.2) (by decide)
    exact hnone hseg (hseen (netHandleIcmp_total hview (by omega) hpayload))
  · have hseg : segmentOf v.conn rx =
        segmentAt v.conn rx (14 + ipHeaderLen rx) (ipPayloadLen rx) :=
      if_pos ⟨⟨by omega, not_not.mp htype, by omega, by omega⟩, htcp⟩
    rw [hseg]
    exact netHandleTcp_seen (by omega) hpayload
  · have hseg : segmentOf v.conn rx = none := if_neg fun h => htcp h.2
    exact Total.ite (fun _ => hnone hseg (hseen hstay)) fun _ => hnone hseg
      (hseen (netHandleUdp_total hview (by omega) hrx))

end

/-- Whatever the frame holds and whatever state the stack is in, the packet is handled without an
access outside of a buffer, and the handlers return. -/
theorem netHandlePacket_total (env : NetEnv) (s : NetState) (rx : Image) (hrx : rx.size ≤ 2048) :
    ∃ s', netHandlePacket env rx s = .ok ((), s') := by
  have hhandle : Total (fun t => t.tcpView = s.tcpView) (netHandlePacket env rx) _ :=
    netHandlePacket_view hrx
  obtain ⟨_, s', hrun, -⟩ := hhandle s rfl
  exact ⟨s', hrun⟩

/-- A reply from a name server, cut off within its first record. -/
def truncatedReply : Image := .ofList
  ([0, 0, 0, 0, 0, 0, 2, 0, 0, 0, 0, 1, 8, 0] ++
    [0x45, 0, 0, 42, 0, 0, 0, 0, 64, 17, 0, 0, 10, 0, 0, 1, 10, 0, 0, 2] ++
    [0, 53, 0x14, 0xB4, 0, 22, 0, 0] ++
    [0xD0, 0, 0x80, 0, 0, 0, 0, 1, 0, 0, 0, 0] ++ [0xC0, 0x0C])

def resolving : NetState :=
  { NetState.boot ⟨#v[10, 0, 0, 2], #v[2, 0, 0, 0, 0, 2], true⟩ false true with
    udpBindings := fun _ => ⟨5300, .dns, true⟩
    dns := ⟨false, 0xD000, Vector.replicate 4 0⟩ }

theorem truncatedReply_handled :
    truncatedReply.size ≤ 2048 ∧
      ∃ s', netHandlePacket .quiet truncatedReply resolving = .ok ((), s') :=
  ⟨by decide, netHandlePacket_total .quiet resolving truncatedReply (by decide)⟩

end MicroK.Net
