import MicroK.TcpPeer

/-!
# The reply of `net_http_get` and the stream of the peer

Whatever segments the peer sends, in whatever order they arrive: nothing is lost and the reply is
the beginning of the stream, exactly if no payload is accepted while no buffer is installed.
-/

namespace MicroK.Net

open Checked Total TcpView

variable (env : NetEnv)

inductive PollEvent
  | packet (rx : Image)
  /-- The wireless link is lost, and the wired card takes over with its own address. -/
  | wired (mac : Mac)

abbrev Poll := List PollEvent

def netReceive (rx : Image) : NetM Unit := do
  modify fun s => { s with
    log := s.log ++ (segmentOf s.tcp rx).toList.map fun seg => ⟨s.tcp, s.recvBuf, s.recvLen, seg⟩ }
  netHandlePacket env rx

def pollEvent : PollEvent → NetM Unit
  | .packet rx => netReceive env rx
  | .wired mac => modify fun s => { s with
      wifiRouteActive := false
      config := { s.config with mac }
      arpCache := ⟨(NetState.boot s.config false false).arpCache.entries, s.arpCache.victim⟩ }

def netPoll (poll : Poll) : NetM Unit := poll.forM (pollEvent env)

/-- `net_poll` until the deadline or until the state of the connection changes. -/
def pollWhile (state : TcpState) : List Poll → NetM Unit
  | [] => pure ()
  | poll :: polls => do
    let s ← get
    if s.tcp.state = state then do
      netPoll env poll
      pollWhile state polls
    else pure ()

def arpWaitLoop (ip : Ip) : List Poll → NetM (Option Mac)
  | [] => pure none
  | poll :: polls => do
    netPoll env poll
    let s ← get
    match s.arpCache.lookup ip with
    | some mac => pure (some mac)
    | none => arpWaitLoop ip polls

/-- The part of `net_resolve_mac` behind the cache, outside of `net_poll`. -/
def arpWait (polls : List Poll) (ip : Ip) : NetM (Option Mac) := do
  let _ ← netSendArpRequest env ip
  arpWaitLoop env ip polls

def receiveLoop : List Poll → NetM Unit
  | [] => pure ()
  | poll :: polls => do
    let s ← get
    if s.tcp.state = .established then do
      netPoll env poll
      let s ← get
      if (s.recvBuf.elim 0 RecvBuffer.size) ≤ s.recvLen then pure () else receiveLoop polls
    else pure ()

structure Attempt where
  arp : List Poll
  answer : List Poll

def connectLoop : List Attempt → NetM Bool
  | [] => do
    modifyTcp fun c => { c with state := .closed }
    pure false
  | attempt :: attempts => do
    let _ ← netSendTcpSegment env (arpWait env attempt.arp) 0x02 []
    pollWhile env .synSent attempt.answer
    let s ← get
    if s.tcp.state = .established then pure true
    else if s.tcp.state = .done then pure false
    else connectLoop attempts

/-- `net_tcp_connect`; `ticks` is the time at which it starts. -/
def netTcpConnect (ticks : ℕ) (attempts : Vector Attempt 3) (destIp : Ip) (destPort : ℕ) :
    NetM Bool := do
  let s ← get
  if !s.ringsReady || !s.config.nicPresent then pure false
  else do
    modify fun s => { s with
      tcp :=
        { state := .synSent, remoteIp := destIp, remotePort := destPort
          localPort := s.tcpNextLocalPort
          localSeq := u32 (ticks ^^^ s.tcpNextLocalPort <<< 16), remoteSeq := 0
          rstReceived := false, finReceived := false }
      tcpNextLocalPort :=
        if u16 (s.tcpNextLocalPort + 1) = 0 then 49152 else u16 (s.tcpNextLocalPort + 1)
      log := [] }
    connectLoop env attempts.toList

def netTcpAbort (arp : List Poll) : NetM Unit := do
  let s ← get
  if s.tcp.state = .established ∨ s.tcp.state = .synSent then do
    let _ ← netSendTcpSegment env (arpWait env arp) 0x14 []
    modifyTcp fun c => { c with state := .closed }
  else modifyTcp fun c => { c with state := .closed }

def httpRequest (host path : List UInt8) : List UInt8 :=
  (asciiBytes "GET " ++ path ++ asciiBytes " HTTP/1.0\r\nHost: " ++ host ++
    asciiBytes "\r\nConnection: close\r\n\r\n").take 255

structure HttpSchedule where
  ticks : ℕ
  attempts : Vector Attempt 3
  beforeRequest : Poll
  requestArp : List Poll
  beforeInstall : Poll
  receive : List Poll
  beforeRemove : Poll
  beforeAbort : Poll
  abortArp : List Poll

/-- The value that `net_http_get` returns, and the bytes of the buffer of its caller. -/
structure HttpReply where
  ret : ℤ
  out : Image

def toInt32 (n : ℕ) : ℤ := if n < 2 ^ 31 then n else n - 2 ^ 32

def httpFinish (sched : HttpSchedule) (out : RecvBuffer) : NetM HttpReply := do
  let s ← get
  let hadData := decide (0 < s.recvLen)
  let closedCleanly := decide (s.tcp.state = .done) && s.tcp.finReceived
  let bytes := (s.recvBuf.getD out).bytes
  modify fun s => { s with recvBuf := none }
  netPoll env sched.beforeAbort
  let s ← get
  if s.tcp.state ≠ .done then netTcpAbort env sched.abortArp else pure ()
  let s ← get
  if !hadData && !closedCleanly then pure ⟨-4, bytes⟩ else pure ⟨toInt32 s.recvLen, bytes⟩

/-- `net_http_get`; `destIp` is what `net_dns_resolve` has found. -/
def netHttpGet (sched : HttpSchedule) (destIp : Option Ip) (port : ℕ) (host path : List UInt8)
    (out : RecvBuffer) : NetM HttpReply := do
  match destIp with
  | none => pure ⟨-1, out.bytes⟩
  | some destIp =>
    if out.size = 0 then pure ⟨-1, out.bytes⟩
    else if ← netTcpConnect env sched.ticks sched.attempts destIp port then do
      netPoll env sched.beforeRequest
      let request := httpRequest host path
      if ← netSendTcpSegment env (arpWait env sched.requestArp) 0x18 request then do
        netPoll env sched.beforeInstall
        modifyTcp fun c => { c with localSeq := u32 (c.localSeq + request.length) }
        modify fun s => { s with recvBuf := some out, recvLen := 0 }
        receiveLoop env sched.receive
        netPoll env sched.beforeRemove
        httpFinish env sched out
      else do
        netTcpAbort env sched.abortArp
        pure ⟨-3, out.bytes⟩
    else pure ⟨-2, out.bytes⟩

def TcpView.packet (v : TcpView) (rx : Image) : TcpView :=
  match segmentOf v.conn rx with
  | none => v
  | some seg => (v.note seg).receive seg

variable (ok : Image → Prop)

/-- A condition on the view that every packet with a property keeps. -/
def Kept (I : TcpView → Prop) : Prop := ∀ v rx, ok rx → I v → I (v.packet rx)

def PollEvent.Ok : PollEvent → Prop
  | .packet rx => rx.size ≤ 2048 ∧ ok rx
  | .wired _ => True

def Poll.Ok (poll : Poll) : Prop := ∀ e ∈ poll, e.Ok ok

variable {polls : List Poll}

section

variable {env : NetEnv} {ok : Image → Prop} {I : TcpView → Prop}

theorem tcpOnly_view (I : TcpView → Prop) : TcpOnly fun s => I s.tcpView :=
  fun _ _ h hs => (congrArg I h).mp hs

theorem netReceive_view {rx : Image} (hrx : rx.size ≤ 2048) {v : TcpView} :
    Total (fun s => s.tcpView = v) (netReceive env rx) fun _ s => s.tcpView = v.packet rx := by
  cases hseg : segmentOf v.conn rx with
  | none =>
    refine Total.bind (Total.modify (Q := fun s => s.tcpView = v) fun s hs => ?_) fun _ => ?_
    · have hnone : segmentOf s.tcp rx = none := by
        rw [← hseg, ← hs]
        rfl
      simpa [NetState.tcpView, hnone] using hs
    · refine (netHandlePacket_view hrx).mono fun _ s hs => ?_
      rw [hs, packet, hseg]
      rfl
  | some seg =>
    refine Total.bind (Total.modify (Q := fun s => s.tcpView = v.note seg) fun s hs => ?_)
      fun _ => ?_
    · have hsome : segmentOf s.tcp rx = some seg := by
        rw [← hseg, ← hs]
        rfl
      rw [← hs]
      simp [NetState.tcpView, hsome, note]
    · refine (netHandlePacket_view hrx).mono fun _ s hs => ?_
      have hnoted : segmentOf (v.note seg).conn rx = some seg := hseg
      rw [hs, hnoted, packet, hseg]
      rfl

variable (hkept : Kept ok I)
include hkept

theorem pollEvent_total {e : PollEvent} (he : e.Ok ok) :
    Total (fun s => I s.tcpView) (pollEvent env e) fun _ s => I s.tcpView := by
  cases e with
  | packet rx =>
    intro s hs
    have hreceive : Total (fun t => t.tcpView = s.tcpView) (netReceive env rx) _ :=
      netReceive_view he.1
    obtain ⟨a, s', hrun, hview⟩ := hreceive s rfl
    exact ⟨a, s', hrun, (congrArg I hview).mpr (hkept _ _ he.2 hs)⟩
  | wired mac => exact Total.modify fun _ => id

theorem netPoll_total {poll : Poll} (hpoll : poll.Ok ok) :
    Total (fun s => I s.tcpView) (netPoll env poll) fun _ s => I s.tcpView :=
  forM fun e he => pollEvent_total hkept (hpoll e he)

variable (hpolls : ∀ q ∈ polls, q.Ok ok)
include hpolls

theorem pollWhile_total {state : TcpState} :
    Total (fun s => I s.tcpView) (pollWhile env state polls) fun _ s => I s.tcpView := by
  induction polls with
  | nil => exact done
  | cons q polls ih =>
    refine get_then fun s _ => Total.ite (fun _ => ?_) fun _ => done
    exact Total.bind (netPoll_total hkept (hpolls q List.mem_cons_self))
      fun _ => ih fun q' hq' => hpolls q' (List.mem_cons_of_mem q hq')

theorem receiveLoop_total :
    Total (fun s => I s.tcpView) (receiveLoop env polls) fun _ s => I s.tcpView := by
  induction polls with
  | nil => exact done
  | cons q polls ih =>
    refine get_then fun s _ => Total.ite (fun _ => ?_) fun _ => done
    refine Total.bind (netPoll_total hkept (hpolls q List.mem_cons_self)) fun _ => ?_
    exact get_then fun s _ => guard fun _ =>
      ih fun q' hq' => hpolls q' (List.mem_cons_of_mem q hq')

theorem arpWait_total (ip : Ip) :
    Total (fun s => I s.tcpView) (arpWait env polls ip) fun _ s => I s.tcpView := by
  refine Total.bind (netSendArpRequest_total (tcpOnly_view I).driverFree ip) fun _ => ?_
  induction polls with
  | nil => exact done
  | cons q polls ih =>
    refine Total.bind (netPoll_total hkept (hpolls q List.mem_cons_self)) fun _ => ?_
    refine get_then fun s _ => ?_
    cases s.arpCache.lookup ip with
    | some mac => exact done
    | none => exact ih fun q' hq' => hpolls q' (List.mem_cons_of_mem q hq')

theorem clientSend_total (flags : ℕ) (payload : List UInt8) :
    Total (fun s => I s.tcpView) (netSendTcpSegment env (arpWait env polls) flags payload)
      fun _ s => I s.tcpView := by
  refine netSendTcpSegment_total (tcpOnly_view I).driverFree (fun _ => id) fun s hs => ?_
  refine conseq (P := fun s => I s.tcpView) ?_ (fun _ h => h ▸ hs) fun _ _ h => h
  refine guard fun _ => get_then fun s _ => ?_
  cases s.arpCache.lookup _ with
  | some mac => exact done
  | none => exact arpWait_total hkept hpolls _

theorem netTcpAbort_total
    (hclose : ∀ v, I v → I (v.update fun c => { c with state := .closed })) :
    Total (fun s => I s.tcpView) (netTcpAbort env polls) fun _ s => I s.tcpView := by
  have hend : Total (fun s => I s.tcpView) (modifyTcp fun c => { c with state := .closed })
      fun _ s => I s.tcpView := Total.modify fun s hs => hclose s.tcpView hs
  refine get_then fun s _ => Total.ite (fun _ => ?_) fun _ => hend
  exact Total.bind (clientSend_total hkept hpolls 0x14 []) fun _ => hend

omit hpolls

theorem connectLoop_total {attempts : List Attempt}
    (hpolls : ∀ a ∈ attempts, (∀ q ∈ a.arp, q.Ok ok) ∧ ∀ q ∈ a.answer, q.Ok ok)
    (hclose : ∀ v, I v → I (v.update fun c => { c with state := .closed })) :
    Total (fun s => I s.tcpView) (connectLoop env attempts) fun r s =>
      I s.tcpView ∧ (r = true → s.tcp.state = .established) := by
  induction attempts with
  | nil =>
    refine Total.bind (Total.modify (Q := fun s => I s.tcpView) fun s hs => hclose s.tcpView hs)
      fun _ => Total.pure fun _ h => ⟨h, nofun⟩
  | cons a attempts ih =>
    obtain ⟨harp, hanswer⟩ := hpolls a List.mem_cons_self
    refine Total.bind (clientSend_total hkept harp 0x02 []) fun _ => ?_
    refine Total.bind (pollWhile_total hkept hanswer) fun _ => ?_
    refine get_bind fun s hs => Total.ite (fun hest => ?_) fun _ => Total.ite (fun _ => ?_)
      fun _ => ?_
    · exact Total.pure fun t ht => by rw [ht]; exact ⟨hs, fun _ => hest⟩
    · exact Total.pure fun t ht => by rw [ht]; exact ⟨hs, nofun⟩
    · exact (ih fun a' ha' => hpolls a' (List.mem_cons_of_mem a ha')).of_eq hs

end

namespace Peer

variable (p : Peer) (localPort : ℕ)

/-- The frame holds nothing for the connection but what the peer may send. -/
def MaySend (rx : Image) : Prop :=
  ∀ conn seg, p.Talks localPort conn → segmentOf conn rx = some seg → p.Sends seg

structure Closing (bytes : Image) (len : ℕ) (v : TcpView) : Prop where
  buf : v.buf = none
  len_eq : v.len = len
  holds : v.AllBuffered → len ≤ p.stream.length ∧ ∀ i < len, bytes.byte i = p.stream.getD i 0

variable {p localPort}

theorem kept_of_receive {ok : Image → Prop} {I : TcpView → Prop}
    (h : ∀ v rx seg, ok rx → segmentOf v.conn rx = some seg → I v → I ((v.note seg).receive seg)) :
    Kept ok I := by
  intro v rx hok hv
  rw [packet]
  cases hseg : segmentOf v.conn rx with
  | none => exact hv
  | some seg => exact h v rx seg hok hseg hv

theorem kept_opening : Kept (p.MaySend localPort) (p.Opening localPort) :=
  kept_of_receive fun v _ seg hok hseg h => h.receive (hok v.conn seg h.talks hseg)

theorem Opening.close {v : TcpView} (h : p.Opening localPort v) :
    p.Opening localPort (v.update fun c => { c with state := .closed }) :=
  ⟨⟨h.talks.1, h.talks.2, h.talks.3⟩, h.buf, nofun⟩

theorem kept_opened : Kept (p.MaySend localPort)
    fun v => p.Opening localPort v ∧ v.conn.state ≠ .synSent := by
  refine kept_of_receive fun v _ seg hok hseg ⟨h, hstate⟩ =>
    ⟨h.receive (hok v.conn seg h.talks hseg), ?_⟩
  rcases receive_cases (v.note seg) seg with heq | heq | ⟨hsyn, -, -, -⟩ | hacc
  · rw [heq]
    exact hstate
  · rw [heq]
    exact nofun
  · exact absurd hsyn hstate
  · exact hacc.receive_conn.1

theorem kept_receiving (hlong : p.stream.length + 2 < 2 ^ 32) (size : ℕ) :
    Kept (p.MaySend localPort) (p.Receiving localPort size) :=
  kept_of_receive fun v _ seg hok hseg h => h.receive (hok v.conn seg h.talks hseg) hlong

theorem kept_closing (bytes : Image) (len : ℕ) :
    Kept (p.MaySend localPort) (p.Closing bytes len) := by
  refine kept_of_receive fun v _ seg _ _ h => ?_
  have hnone : (v.note seg).buf = none := h.buf
  have hstay : ((v.note seg).receive seg).buf = none ∧ ((v.note seg).receive seg).len = v.len := by
    by_cases hacc : Accepts (v.note seg) seg
    · rw [hacc.receive_buf.1, hacc.receive_buf.2, store_of_none _ _ hnone]
      exact ⟨hnone, rfl⟩
    · rw [(receive_buf_of_not_accepts hacc).1, (receive_buf_of_not_accepts hacc).2]
      exact ⟨hnone, rfl⟩
  exact ⟨hstay.1, hstay.2.trans h.len_eq, fun hall => h.holds (allBuffered_note hall).1⟩

end Peer

structure HttpSchedule.Obeys (sched : HttpSchedule) (ok : Image → Prop) : Prop where
  attempts : ∀ a ∈ sched.attempts.toList, (∀ q ∈ a.arp, q.Ok ok) ∧ ∀ q ∈ a.answer, q.Ok ok
  beforeRequest : sched.beforeRequest.Ok ok
  requestArp : ∀ q ∈ sched.requestArp, q.Ok ok
  beforeInstall : sched.beforeInstall.Ok ok
  receive : ∀ q ∈ sched.receive, q.Ok ok
  beforeRemove : sched.beforeRemove.Ok ok
  beforeAbort : sched.beforeAbort.Ok ok
  abortArp : ∀ q ∈ sched.abortArp, q.Ok ok

/-- A reply of some bytes is the beginning of the stream. -/
def HttpReply.IsPrefix (r : HttpReply) (stream : List UInt8) : Prop :=
  0 ≤ r.ret → r.out.bytes 0 r.ret.toNat <+: stream

theorem HttpReply.isPrefix_of_neg {code : ℤ} {bytes : Image} {stream : List UInt8} (h : code < 0) :
    HttpReply.IsPrefix ⟨code, bytes⟩ stream :=
  fun hpos => absurd hpos (not_le.mpr h)

theorem toNat_toInt32 {n : ℕ} (hn : n < 2 ^ 32) (h : 0 ≤ toInt32 n) : (toInt32 n).toNat = n := by
  unfold toInt32 at h ⊢
  split_ifs at h ⊢ <;> omega

theorem bytes_isPrefix {f : Image} {l : List UInt8} {k : ℕ} (hk : k ≤ l.length)
    (h : ∀ i < k, f.byte i = l.getD i 0) : f.bytes 0 k <+: l := by
  have htake : f.bytes 0 k = l.take k := by
    refine List.ext_getElem (by simp [hk]) fun i h₁ h₂ => ?_
    have hi : i < k := by simpa using h₁
    simp [Image.bytes, h i hi, List.getD_eq_getElem?_getD,
      List.getElem?_eq_getElem (hi.trans_le hk)]
  rw [htake]
  exact List.take_prefix k l

section

variable {env : NetEnv} {sched : HttpSchedule} {p : Peer} {localPort : ℕ} {out : RecvBuffer}
  (hsched : sched.Obeys (p.MaySend localPort))
include hsched

theorem netTcpConnect_total :
    Total (fun s => s.recvBuf = none ∧ s.tcpNextLocalPort = localPort)
      (netTcpConnect env sched.ticks sched.attempts p.ip p.port)
      fun r s => s.recvBuf = none ∧
        (r = true → p.Opening localPort s.tcpView ∧ s.tcp.state = .established) := by
  refine get_then fun s hs => Total.ite (fun _ => Total.pure fun _ h => ⟨h.1, nofun⟩) fun _ => ?_
  refine Total.bind (Total.modify (Q := fun s => p.Opening localPort s.tcpView) ?_) fun _ => ?_
  · intro t ht
    exact ⟨⟨rfl, rfl, ht.2⟩, ht.1, nofun⟩
  · exact (connectLoop_total Peer.kept_opening hsched.attempts fun v => Peer.Opening.close).mono
      fun r t ht => ⟨ht.1.buf, fun hr => ⟨ht.1, ht.2 hr⟩⟩

theorem httpFinish_total :
    Total (fun s => p.Receiving localPort out.size s.tcpView) (httpFinish env sched out)
      fun r s => s.recvBuf = none ∧ (s.tcpView.AllBuffered → r.IsPrefix p.stream) := by
  refine get_bind fun s hs => ?_
  obtain ⟨b, hb, hsize, hle, hstream⟩ := hs.holds
  have hbuf : s.recvBuf = some b := hb
  have hlen : s.recvLen < 2 ^ 32 := lt_of_le_of_lt hle out.size_lt
  rw [hbuf]
  have hremoved : Total (· = s) (modify fun s => { s with recvBuf := none })
      fun _ s' => p.Closing b.bytes s.recvLen s'.tcpView := by
    refine Total.modify fun t ht => ?_
    subst ht
    refine ⟨rfl, rfl, fun hall => ?_⟩
    obtain ⟨n, hn, hcount, hbytes, -⟩ := hstream hall
    have hmin : t.recvLen = min n out.size := hcount
    exact ⟨by omega, hbytes⟩
  have hclosing : Kept (p.MaySend localPort) (p.Closing b.bytes s.recvLen) :=
    Peer.kept_closing _ _
  have habort : Total (fun t => p.Closing b.bytes s.recvLen t.tcpView)
      (netTcpAbort env sched.abortArp) fun _ t => p.Closing b.bytes s.recvLen t.tcpView :=
    netTcpAbort_total hclosing hsched.abortArp fun v hv => ⟨hv.buf, hv.len_eq, hv.holds⟩
  refine Total.bind hremoved fun _ => ?_
  refine Total.bind (netPoll_total hclosing hsched.beforeAbort) fun _ => get_then fun t _ => ?_
  have hreply : Total (fun t => p.Closing b.bytes s.recvLen t.tcpView) (do
      let t ← get
      if !decide (0 < s.recvLen) && !(decide (s.tcp.state = .done) && s.tcp.finReceived) then
        pure ⟨-4, b.bytes⟩
      else pure ⟨toInt32 t.recvLen, b.bytes⟩ : NetM HttpReply)
      fun r t => t.recvBuf = none ∧ (t.tcpView.AllBuffered → r.IsPrefix p.stream) := by
    refine get_then fun u hu => Total.ite (fun _ => ?_) fun _ => ?_
    · exact Total.pure fun t ht => ⟨ht.buf, fun _ => HttpReply.isPrefix_of_neg (by decide)⟩
    · refine Total.pure fun t ht => ⟨ht.buf, fun hall hpos => ?_⟩
      have hcount : u.recvLen = s.recvLen := hu.len_eq
      obtain ⟨hshort, hbytes⟩ := ht.holds hall
      dsimp only at hpos ⊢
      rw [hcount] at hpos ⊢
      rw [toNat_toInt32 hlen hpos]
      exact bytes_isPrefix hshort hbytes
  refine Total.ite (fun _ => Total.bind habort fun _ => hreply) fun _ => hreply

/-- The call returns without a buffer left behind, and with the beginning of the stream if every
payload that was accepted has found a buffer. -/
theorem netHttpGet_total (host path : List UInt8) (hlong : p.stream.length + 2 < 2 ^ 32) :
    Total (fun s => s.recvBuf = none ∧ s.tcpNextLocalPort = localPort)
      (netHttpGet env sched (some p.ip) p.port host path out)
      fun r s => s.recvBuf = none ∧ (s.tcpView.AllBuffered → r.IsPrefix p.stream) := by
  have hfail : ∀ {code : ℤ}, code < 0 → Total (fun s => s.recvBuf = none)
      (pure ⟨code, out.bytes⟩ : NetM HttpReply)
      fun r s => s.recvBuf = none ∧ (s.tcpView.AllBuffered → r.IsPrefix p.stream) :=
    fun hcode => Total.pure fun s hs => ⟨hs, fun _ => HttpReply.isPrefix_of_neg hcode⟩
  refine Total.ite (fun _ => (hfail (by decide)).conseq (fun s hs => hs.1) fun _ _ h => h)
    fun _ => ?_
  refine Total.bind (netTcpConnect_total hsched) fun connected => ?_
  cases connected with
  | false => exact (hfail (by decide)).conseq (fun s hs => hs.1) fun _ _ h => h
  | true =>
    refine conseq (P := fun s => p.Opening localPort s.tcpView ∧ s.tcp.state ≠ .synSent) ?_
      (fun s hs => ?_) fun _ _ h => h
    · refine Total.bind (netPoll_total Peer.kept_opened hsched.beforeRequest) fun _ => ?_
      refine Total.bind (clientSend_total Peer.kept_opened hsched.requestArp 0x18 _) fun sent => ?_
      cases sent with
      | false =>
        refine Total.bind ((netTcpAbort_total Peer.kept_opening hsched.abortArp
          fun v => Peer.Opening.close).conseq (fun s hs => hs.1) fun _ s hs => hs.buf)
          fun _ => hfail (by decide)
      | true =>
        refine Total.bind (netPoll_total Peer.kept_opened hsched.beforeInstall) fun _ => ?_
        refine Total.bind (Total.modify (Q := fun s => p.Opening localPort s.tcpView ∧
          s.tcp.state ≠ .synSent) fun s hs => ?_) fun _ => ?_
        · exact ⟨⟨⟨hs.1.talks.1, hs.1.talks.2, hs.1.talks.3⟩, hs.1.buf, hs.1.fresh⟩, hs.2⟩
        refine Total.bind (Total.modify (Q := fun s => p.Receiving localPort out.size s.tcpView)
          fun s hs => ?_) fun _ => ?_
        · refine ⟨hs.1.talks, hs.2, out, rfl, rfl, Nat.zero_le _, fun hall => ?_⟩
          exact ⟨0, Nat.zero_le _, (Nat.zero_min _).symm, fun i hi => absurd hi (Nat.not_lt_zero i),
            fun hest => hs.1.fresh hall hest⟩
        refine Total.bind (receiveLoop_total (Peer.kept_receiving hlong _) hsched.receive)
          fun _ => ?_
        refine Total.bind (netPoll_total (Peer.kept_receiving hlong _) hsched.beforeRemove)
          fun _ => ?_
        exact httpFinish_total hsched
    · obtain ⟨hopening, hest⟩ := hs.2 rfl
      exact ⟨hopening, by rw [hest]; decide⟩

end

/-- Whatever the peer sends and whenever it arrives, the call returns; it returns the beginning of
the stream and acknowledges nothing that it does not store, exactly if no payload is accepted while
no buffer is installed. -/
theorem netHttpGet_stream_iff (env : NetEnv) (sched : HttpSchedule) (p : Peer)
    (host path : List UInt8)
    (out : RecvBuffer) (s : NetState) (hidle : s.recvBuf = none)
    (hlong : p.stream.length + 2 < 2 ^ 32)
    (hsched : sched.Obeys (p.MaySend s.tcpNextLocalPort)) :
    ∃ r s', netHttpGet env sched (some p.ip) p.port host path out s = .ok (r, s') ∧
      s'.recvBuf = none ∧
      ((r.IsPrefix p.stream ∧ ∀ st ∈ s'.log, st.NoLoss) ↔ ∀ st ∈ s'.log, st.Buffered) := by
  have htotal : Total (fun t => t.recvBuf = none ∧ t.tcpNextLocalPort = s.tcpNextLocalPort)
      (netHttpGet env sched (some p.ip) p.port host path out) _ :=
    netHttpGet_total hsched host path hlong
  obtain ⟨r, s', hrun, hbuf, hbegin⟩ := htotal s ⟨hidle, rfl⟩
  refine ⟨r, s', hrun, hbuf, fun h st hst => st.noLoss_iff.mp (h.2 st hst), fun h => ?_⟩
  exact ⟨hbegin h, fun st hst => st.noLoss_iff.mpr (h st hst)⟩

def serverFrame (seq ack flags : ℕ) (payload : List UInt8) : Image :=
  .ofList ([2, 0, 0, 0, 0, 2, 2, 0, 0, 0, 0, 1, 8, 0] ++
    [0x45, 0] ++ leBytes 2 (htons (40 + payload.length)) ++
    [0, 0, 0, 0, 64, 6, 0, 0, 10, 0, 0, 1, 10, 0, 0, 2] ++
    [0, 80, 0xC0, 0] ++ leBytes 4 (htonl seq) ++ leBytes 4 (htonl ack) ++
    [0x50] ++ leBytes 1 flags ++ [0x20, 0, 0, 0, 0, 0] ++ payload)

def serverArpReply : Image :=
  .ofList ([2, 0, 0, 0, 0, 2, 2, 0, 0, 0, 0, 1, 8, 6] ++ [0, 1, 8, 0, 6, 4, 0, 2] ++
    [2, 0, 0, 0, 0, 1, 10, 0, 0, 1] ++ [2, 0, 0, 0, 0, 2, 10, 0, 0, 2])

def server : Peer := ⟨⟨#[10, 0, 0, 1], by decide⟩, 80, 9, [97, 98, 99, 100]⟩

def clientState : NetState := NetState.boot resolving.config false true

def replyBuffer : RecvBuffer := ⟨⟨16, fun _ => 0⟩, 16, le_rfl, by decide⟩

def synAck : Image := serverFrame 9 0xC0000001 0x12 []

def firstHalf : Image := serverFrame 10 0xC0000001 0x18 [97, 98]

def secondHalf : Image := serverFrame 12 0xC0000001 0x19 [99, 100]

def serverSchedule (opening receiving : Poll) : HttpSchedule where
  ticks := 0
  attempts := #v[⟨[[.packet serverArpReply]], [opening]⟩, ⟨[], []⟩, ⟨[], []⟩]
  beforeRequest := []
  requestArp := []
  beforeInstall := []
  receive := [receiving]
  beforeRemove := []
  beforeAbort := []
  abortArp := []

theorem maySend_of_segmentOf {p : Peer} {localPort : ℕ} {rx : Image} {conn : TcpConn}
    {seg : Segment}
    (h : segmentOf conn rx = some seg) (hseg : p.Sends seg) : p.MaySend localPort rx :=
  fun _ _ _ h' => segmentOf_eq h h' ▸ hseg

def serverConn : TcpConn :=
  ⟨.established, server.ip, 80, 49152, 0xC0000001, 10, false, false⟩

theorem synAck_ok : (PollEvent.packet synAck).Ok (server.MaySend 49152) := by
  have hseg : segmentOf serverConn synAck = some ⟨9, 0xC0000001, 0x12, []⟩ := by decide +kernel
  exact ⟨by decide, maySend_of_segmentOf hseg (.inr (.inl ⟨by decide, by decide⟩))⟩

theorem firstHalf_ok : (PollEvent.packet firstHalf).Ok (server.MaySend 49152) := by
  have hseg : segmentOf serverConn firstHalf = some ⟨10, 0xC0000001, 0x18, [97, 98]⟩ := by
    decide +kernel
  refine ⟨by decide, maySend_of_segmentOf hseg (.inr (.inr ⟨by decide, 0, by decide, ?_⟩))⟩
  exact ⟨by decide, by decide⟩

theorem secondHalf_ok : (PollEvent.packet secondHalf).Ok (server.MaySend 49152) := by
  have hseg : segmentOf serverConn secondHalf = some ⟨12, 0xC0000001, 0x19, [99, 100]⟩ := by
    decide +kernel
  refine ⟨by decide, maySend_of_segmentOf hseg (.inr (.inr ⟨by decide, 2, by decide, ?_⟩))⟩
  exact ⟨by decide, by decide⟩

theorem serverArpReply_ok : (PollEvent.packet serverArpReply).Ok (server.MaySend 49152) := by
  have hip : ¬IsIp serverArpReply := by decide +kernel
  refine ⟨by decide, fun conn seg _ hseg => ?_⟩
  rw [segmentOf, if_neg fun h => hip h.1] at hseg
  cases hseg

theorem serverSchedule_obeys {opening receiving : Poll} (ho : opening.Ok (server.MaySend 49152))
    (hr : receiving.Ok (server.MaySend 49152)) :
    (serverSchedule opening receiving).Obeys (server.MaySend 49152) := by
  have hnil : Poll.Ok (server.MaySend 49152) [] := by simp [Poll.Ok]
  have harp : Poll.Ok (server.MaySend 49152) [.packet serverArpReply] := by
    simpa [Poll.Ok] using serverArpReply_ok
  exact ⟨by simpa [serverSchedule] using ⟨harp, ho⟩, hnil, by simp [serverSchedule], hnil,
    by simpa [serverSchedule] using hr, hnil, hnil, by simp [serverSchedule]⟩

/-- The first half of the stream arrives in one poll with the SYN. It is acknowledged and dropped,
and the reply starts with the second half. -/
theorem netHttpGet_drops_first_half :
    (serverSchedule [.packet synAck, .packet firstHalf] [.packet secondHalf]).Obeys
        (server.MaySend 49152) ∧
      ∃ r s', netHttpGet .quiet
          (serverSchedule [.packet synAck, .packet firstHalf] [.packet secondHalf])
          (some server.ip) server.port [] [] replyBuffer clientState = .ok (r, s') ∧
        ¬(r.IsPrefix server.stream ∧ ∀ st ∈ s'.log, st.NoLoss) := by
  have hobeys : (serverSchedule [.packet synAck, .packet firstHalf] [.packet secondHalf]).Obeys
      (server.MaySend 49152) :=
    serverSchedule_obeys (by simpa [Poll.Ok] using ⟨synAck_ok, firstHalf_ok⟩)
      (by simpa [Poll.Ok] using secondHalf_ok)
  have htotal : Total (fun t => t.recvBuf = none ∧ t.tcpNextLocalPort = 49152)
      (netHttpGet .quiet (serverSchedule [.packet synAck, .packet firstHalf] [.packet secondHalf])
        (some server.ip) server.port [] [] replyBuffer) _ :=
    netHttpGet_total hobeys [] [] (by decide)
  have hreply : ((netHttpGet .quiet
      (serverSchedule [.packet synAck, .packet firstHalf] [.packet secondHalf])
      (some server.ip) server.port [] [] replyBuffer).result clientState).all
        (fun r => decide (r.ret = 2 ∧ r.out.bytes 0 2 = [99, 100])) = true := by
    decide +kernel
  obtain ⟨r, s', hrun, -, -⟩ := htotal clientState ⟨rfl, rfl⟩
  refine ⟨hobeys, r, s', hrun, fun h => ?_⟩
  rw [Checked.result, hrun] at hreply
  obtain ⟨hret, hbytes⟩ := of_decide_eq_true hreply
  have hbegin := h.1 (by rw [hret]; decide)
  rw [hret] at hbegin
  change r.out.bytes 0 2 <+: server.stream at hbegin
  rw [hbytes] at hbegin
  exact absurd hbegin (by decide)

/-- The same stream in order, behind the installation of the buffer. -/
theorem netHttpGet_server :
    ∃ r s', netHttpGet .quiet
        (serverSchedule [.packet synAck] [.packet firstHalf, .packet secondHalf])
        (some server.ip) server.port [] [] replyBuffer clientState = .ok (r, s') ∧
      s'.recvBuf = none ∧
      ((r.IsPrefix server.stream ∧ ∀ st ∈ s'.log, st.NoLoss) ↔ ∀ st ∈ s'.log, st.Buffered) :=
  netHttpGet_stream_iff .quiet _ server [] [] replyBuffer clientState rfl (by decide)
    (serverSchedule_obeys (by simpa [Poll.Ok] using synAck_ok)
      (by simpa [Poll.Ok] using ⟨firstHalf_ok, secondHalf_ok⟩))

end MicroK.Net
