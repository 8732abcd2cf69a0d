import MicroK.NetSafety

/-!
# What the peer may send

The segments of the peer carry parts of its byte stream under their sequence numbers and may arrive
in any order and any number of times. While the connection is being opened, nothing of the stream is
acknowledged unless a payload is accepted without a buffer; once the buffer is installed, it holds
the beginning of the stream up to what is acknowledged, as far as there is room.
-/

namespace MicroK.Net

open List Nat

namespace Step

variable (st : Step)

def view : TcpView := ⟨st.conn, st.buf, st.len, []⟩

def after : TcpView := st.view.receive st.seg

def accepted : ℕ :=
  if st.seg.has 0x04 = false ∧ st.conn.state = .established ∧ st.seg.seq = st.conn.remoteSeq then
    st.seg.payload.length
  else 0

/-- All bytes that are acknowledged are stored, or the buffer is full. -/
def NoLoss : Prop :=
  st.len + st.accepted ≤ st.after.len ∨ ∃ b, st.after.buf = some b ∧ b.size ≤ st.after.len

def Buffered : Prop := 0 < st.accepted → st.buf ≠ none

end Step

section

variable (v : TcpView) {b : RecvBuffer} (payload : List UInt8)

theorem TcpView.store_of_room (hb : v.buf = some b) (hroom : v.len < b.size) :
    ∃ b', (v.store payload).buf = some b' ∧ b'.size = b.size ∧
      (v.store payload).len = min (v.len + payload.length) b.size ∧
      ∀ i, b'.bytes.byte i = if v.len ≤ i ∧ i < min (v.len + payload.length) b.size then
        payload.getD (i - v.len) 0 else b.bytes.byte i := by
  have hlt := b.size_lt
  have hcopy : (if payload.length < b.size - v.len then payload.length else b.size - v.len) =
      min payload.length (b.size - v.len) := by
    split_ifs <;> omega
  unfold TcpView.store
  rw [hb]
  dsimp only
  by_cases hpayload : 0 < payload.length
  · rw [if_pos ⟨hpayload, hroom⟩, hcopy]
    refine ⟨_, rfl, rfl, ?_, fun i => ?_⟩
    · rw [u32_of_lt (by omega)]
      dsimp only
      omega
    · simp only [Image.put, length_take]
      have hcond : (v.len ≤ i ∧
        i < v.len + min (min payload.length (b.size - v.len)) payload.length)
          ↔ v.len ≤ i ∧ i < min (v.len + payload.length) b.size := by omega
      by_cases hi : v.len ≤ i ∧ i < min (v.len + payload.length) b.size
      · rw [if_pos hi, if_pos (hcond.mpr hi), getD_eq_getElem?_getD, getD_eq_getElem?_getD,
          getElem?_take_of_lt (by omega)]
      · rw [if_neg hi, if_neg (fun h => hi (hcond.mp h))]
  · rw [if_neg (fun h => hpayload h.1)]
    refine ⟨b, hb, rfl, by omega, fun i => ?_⟩
    rw [if_neg (by omega)]

theorem TcpView.store_of_full (hb : v.buf = some b) (hfull : b.size ≤ v.len) :
    v.store payload = v := by
  unfold TcpView.store
  rw [hb]
  exact if_neg (by omega)

theorem TcpView.store_of_some (hb : v.buf = some b) (hlen : v.len ≤ b.size) :
    ∃ b', (v.store payload).buf = some b' ∧ b'.size = b.size ∧
      (v.store payload).len ≤ b.size := by
  rcases lt_or_ge v.len b.size with hroom | hfull
  · obtain ⟨b', hb', hsize, hcount, -⟩ := v.store_of_room payload hb hroom
    exact ⟨b', hb', hsize, hcount.trans_le (min_le_right _ _)⟩
  · rw [v.store_of_full payload hb hfull]
    exact ⟨b, hb, rfl, hlen⟩

theorem TcpView.store_nil : v.store [] = v := by
  unfold TcpView.store
  cases v.buf with
  | none => rfl
  | some b => exact if_neg fun h => absurd h.1 (lt_irrefl 0)

theorem TcpView.store_of_none (hb : v.buf = none) : v.store payload = v := by
  unfold TcpView.store
  rw [hb]

end

section

variable {v : TcpView} {seg : Segment}

/-- The segment is the next one, and it carries something. -/
structure Accepts (v : TcpView) (seg : Segment) : Prop where
  noReset : seg.has 0x04 = false
  established : v.conn.state = .established
  expected : seg.seq = v.conn.remoteSeq
  carries : 0 < seg.payload.length ∨ seg.has 0x01 = true

theorem Accepts.receive_eq (h : Accepts v seg) :
    v.receive seg = if seg.has 0x01 then
      (((v.store seg.payload).update (·.advance seg.payload.length)).update (·.finSeen)).update
        (·.finish)
    else (v.store seg.payload).update (·.advance seg.payload.length) := by
  have hne : v.conn.state ≠ .synSent := by
    rw [h.established]
    decide
  have hcarries : ¬(seg.payload.length = 0 ∧ (!seg.has 0x01) = true) := by
    rintro ⟨hzero, hfin⟩
    rcases h.carries with hpos | hhas
    · omega
    · rw [hhas] at hfin
      cases hfin
  unfold TcpView.receive
  rw [if_neg (by rw [h.noReset]; decide), if_neg hne, if_neg (not_not.mpr h.established),
    if_neg (not_not.mpr h.expected), if_neg hcarries]

theorem Accepts.receive_buf (h : Accepts v seg) :
    (v.receive seg).buf = (v.store seg.payload).buf ∧
      (v.receive seg).len = (v.store seg.payload).len := by
  rw [h.receive_eq]
  split_ifs <;> exact ⟨rfl, rfl⟩

theorem Accepts.receive_conn (h : Accepts v seg) :
    (v.receive seg).conn.state ≠ .synSent ∧ ((v.receive seg).conn.state = .established →
      (v.receive seg).conn.remoteSeq = u32 (v.conn.remoteSeq + seg.payload.length)) := by
  rw [h.receive_eq]
  split_ifs
  · constructor <;> intro hstate <;> cases hstate
  · simp [TcpView.update, TcpConn.advance, TcpView.conn_store, h.established]

theorem receive_cases (v : TcpView) (seg : Segment) :
    v.receive seg = v ∨ v.receive seg = v.update (·.reset) ∨
      (v.conn.state = .synSent ∧ seg.has 0x04 = false ∧ seg.flags &&& 0x12 = 0x12 ∧
        v.receive seg = v.update (·.establish seg.seq)) ∨
      Accepts v seg := by
  unfold TcpView.receive
  split_ifs with hrst hsyn hack hest hseq hempty hfin
  · exact .inr (.inl rfl)
  · exact .inr (.inr (.inl ⟨hsyn, by simpa using hrst, hack.1, rfl⟩))
  · exact .inl rfl
  · exact .inl rfl
  · exact .inl rfl
  · exact .inl rfl
  all_goals
    refine .inr (.inr (.inr ⟨by simpa using hrst, not_not.mp hest, not_not.mp hseq, ?_⟩))
    rw [not_and_or] at hempty
    simpa [pos_iff_ne_zero] using hempty

theorem receive_buf_of_not_accepts (h : ¬Accepts v seg) :
    (v.receive seg).buf = v.buf ∧ (v.receive seg).len = v.len := by
  rcases receive_cases v seg with heq | heq | ⟨-, -, -, heq⟩ | hacc
  · rw [heq]
    exact ⟨rfl, rfl⟩
  · rw [heq]
    exact ⟨rfl, rfl⟩
  · rw [heq]
    exact ⟨rfl, rfl⟩
  · exact absurd hacc h

end

namespace Step

variable {st : Step}

theorem accepts_of_accepted (h : 0 < st.accepted) :
    Accepts st.view st.seg ∧ st.accepted = st.seg.payload.length := by
  unfold accepted at h ⊢
  split_ifs at h ⊢ with hnext
  · exact ⟨⟨hnext.1, hnext.2.1, hnext.2.2, .inl h⟩, rfl⟩
  · exact absurd h (lt_irrefl 0)

theorem after_len_of_not_accepted (h : ¬0 < st.accepted) : st.after.len = st.len := by
  by_cases hacc : Accepts st.view st.seg
  · have hnext : st.accepted = st.seg.payload.length :=
      if_pos ⟨hacc.noReset, hacc.established, hacc.expected⟩
    have hnil : st.seg.payload = [] := length_eq_zero_iff.mp (by omega)
    rw [after, hacc.receive_buf.2, hnil, TcpView.store_nil]
    rfl
  · rw [after, (receive_buf_of_not_accepts hacc).2]
    rfl

/-- A step loses nothing exactly when it finds a buffer for what it acknowledges. -/
theorem noLoss_iff (st : Step) : st.NoLoss ↔ st.Buffered := by
  unfold NoLoss Buffered
  by_cases hpos : 0 < st.accepted
  swap
  · exact ⟨fun _ h => absurd h hpos, fun _ => .inl (by rw [after_len_of_not_accepted hpos]; omega)⟩
  obtain ⟨hacc, hcount⟩ := accepts_of_accepted hpos
  obtain ⟨hbuf, hlen⟩ := hacc.receive_buf
  change st.after.buf = _ at hbuf
  cases hb : st.buf with
  | none =>
    have hnone : st.view.buf = none := hb
    rw [st.view.store_of_none _ hnone] at hbuf hlen
    have hstay : st.after.len = st.len := hlen
    constructor
    · rintro (hle | ⟨b, hsome, -⟩)
      · omega
      · rw [hbuf, hnone] at hsome
        cases hsome
    · intro h
      exact absurd rfl (h hpos)
  | some b =>
    have hsome : st.view.buf = some b := hb
    refine ⟨fun _ _ => by simp, fun _ => ?_⟩
    rcases lt_or_ge st.len b.size with hroom | hfull
    · obtain ⟨b', hb', hsize, hlen', -⟩ :=
        st.view.store_of_room st.seg.payload hsome hroom
      rw [hb'] at hbuf
      rw [hlen'] at hlen
      have hafter : st.after.len = min (st.len + st.seg.payload.length) b.size := hlen
      rcases le_total (st.len + st.seg.payload.length) b.size with hle | hge
      · exact .inl (by omega)
      · exact .inr ⟨b', hbuf, by omega⟩
    · rw [st.view.store_of_full _ hsome hfull] at hbuf hlen
      have hstay : st.after.len = st.len := hlen
      exact .inr ⟨b, hbuf.trans hsome, by omega⟩

end Step

/-- The other end of a connection, with the number of its SYN and what it sends after it. -/
structure Peer where
  ip : Ip
  port : ℕ
  isn : ℕ
  stream : List UInt8

namespace TcpView

variable (v : TcpView) (seg : Segment)

def note : TcpView := { v with log := v.log ++ [⟨v.conn, v.buf, v.len, seg⟩] }

def AllBuffered : Prop := ∀ st ∈ v.log, st.Buffered

@[simp] theorem log_store (payload : List UInt8) : (v.store payload).log = v.log := by
  unfold store
  split
  · rfl
  · split_ifs <;> rfl

@[simp] theorem log_receive : (v.receive seg).log = v.log := by
  rcases receive_cases v seg with heq | heq | ⟨-, -, -, heq⟩ | hacc
  · rw [heq]
  · rw [heq]
    rfl
  · rw [heq]
    rfl
  · rw [hacc.receive_eq]
    split_ifs <;> exact log_store v seg.payload

variable {v seg}

theorem allBuffered_note (h : ((v.note seg).receive seg).AllBuffered) :
    v.AllBuffered ∧ Step.Buffered ⟨v.conn, v.buf, v.len, seg⟩ := by
  rw [AllBuffered, log_receive] at h
  exact ⟨fun st hst => h st (mem_append_left _ hst),
    h _ (mem_append_right _ (mem_singleton_self _))⟩

end TcpView

namespace Peer

variable (p : Peer)

/-- A reset, the SYN, or a part of the stream. -/
def Sends (seg : Segment) : Prop :=
  seg.has 0x04 = true ∨ (seg.has 0x02 = true ∧ seg.seq = u32 p.isn) ∨
    (seg.has 0x02 = false ∧ ∃ o ≤ p.stream.length + 1,
      seg.seq = u32 (p.isn + 1 + o) ∧ seg.payload <+: p.stream.drop o)

structure Talks (localPort : ℕ) (conn : TcpConn) : Prop where
  remoteIp : conn.remoteIp = p.ip
  remotePort : conn.remotePort = p.port
  localPort : conn.localPort = localPort

variable {p} {localPort : ℕ} {v : TcpView} {seg : Segment}

theorem Talks.receive (h : p.Talks localPort v.conn) : p.Talks localPort (v.receive seg).conn := by
  rcases receive_cases v seg with heq | heq | ⟨-, -, -, heq⟩ | hacc
  · rwa [heq]
  · rw [heq]
    exact ⟨h.1, h.2, h.3⟩
  · rw [heq]
    exact ⟨h.1, h.2, h.3⟩
  · have hstore : p.Talks localPort (v.store seg.payload).conn := by rwa [TcpView.conn_store]
    rw [hacc.receive_eq]
    split_ifs <;> exact ⟨hstore.1, hstore.2, hstore.3⟩

theorem has_syn_of_and (h : seg.flags &&& 0x12 = 0x12) : seg.has 0x02 = true := by
  have hbit : seg.flags &&& 0x02 = 0x02 := by
    have hmask := congrArg (· &&& 0x02) h
    simpa [Nat.and_assoc] using hmask
  rw [Segment.has, hbit]
  rfl

theorem seq_inj (isn : ℕ) {a b : ℕ} (ha : a < 2 ^ 32) (hb : b < 2 ^ 32)
    (h : u32 (isn + a) = u32 (isn + b)) : a = b := by
  have hmod : isn + a ≡ isn + b [MOD 2 ^ 32] := h
  have hcancel := Nat.ModEq.add_left_cancel' isn hmod
  rwa [Nat.ModEq, mod_eq_of_lt ha, mod_eq_of_lt hb] at hcancel

variable (p localPort)

structure Opening (v : TcpView) : Prop where
  talks : p.Talks localPort v.conn
  buf : v.buf = none
  fresh : v.AllBuffered → v.conn.state = .established → v.conn.remoteSeq = u32 (p.isn + 1)

structure Receiving (size : ℕ) (v : TcpView) : Prop where
  talks : p.Talks localPort v.conn
  opened : v.conn.state ≠ .synSent
  holds : ∃ b, v.buf = some b ∧ b.size = size ∧ v.len ≤ size ∧
    (v.AllBuffered → ∃ n ≤ p.stream.length, v.len = min n size ∧
      (∀ i < v.len, b.bytes.byte i = p.stream.getD i 0) ∧
      (v.conn.state = .established → v.conn.remoteSeq = u32 (p.isn + 1 + n)))

variable {p localPort}

theorem Opening.receive (h : p.Opening localPort v) (hseg : p.Sends seg) :
    p.Opening localPort ((v.note seg).receive seg) := by
  have hbuf : (v.note seg).buf = none := h.buf
  refine ⟨(show p.Talks localPort (v.note seg).conn from h.talks).receive, ?_, fun hall hest => ?_⟩
  · by_cases hacc : Accepts (v.note seg) seg
    · rw [hacc.receive_buf.1, TcpView.store_of_none _ _ hbuf, hbuf]
    · rw [(receive_buf_of_not_accepts hacc).1, hbuf]
  · obtain ⟨hbefore, hstep⟩ := TcpView.allBuffered_note hall
    rcases receive_cases (v.note seg) seg with heq | heq | ⟨-, hrst, hack, heq⟩ | hacc
    · rw [heq] at hest ⊢
      exact h.fresh hbefore hest
    · rw [heq] at hest
      cases hest
    · have hsyn : seg.has 0x02 = true := has_syn_of_and hack
      rw [heq]
      rcases hseg with hreset | ⟨-, hseq⟩ | ⟨hnot, -⟩
      · rw [hrst] at hreset
        cases hreset
      · change u32 (seg.seq + 1) = _
        rw [hseq, u32, u32, u32, Nat.mod_add_mod]
      · rw [hsyn] at hnot
        cases hnot
    · rcases Nat.eq_zero_or_pos seg.payload.length with hzero | hpos
      · have hfin : seg.has 0x01 = true := hacc.carries.resolve_left (by omega)
        rw [hacc.receive_eq, if_pos hfin] at hest
        cases hest
      · have haccepted : Step.accepted ⟨v.conn, v.buf, v.len, seg⟩ = seg.payload.length :=
          if_pos ⟨hacc.noReset, hacc.established, hacc.expected⟩
        exact absurd h.buf (hstep (by omega))

theorem Sends.payload_prefix (hseg : p.Sends seg) (hlong : p.stream.length + 2 < 2 ^ 32) {n : ℕ}
    (hn : n ≤ p.stream.length) (hrst : seg.has 0x04 = false)
    (hseq : seg.seq = u32 (p.isn + 1 + n)) : seg.payload <+: p.stream.drop n := by
  rcases hseg with hreset | ⟨-, hsyn⟩ | ⟨-, o, ho, hpos, hpayload⟩
  · rw [hrst] at hreset
    cases hreset
  · have hzero : 0 = 1 + n := by
      apply seq_inj p.isn (by omega) (by omega)
      rw [add_zero, ← hsyn, hseq, add_assoc]
    omega
  · have hon : 1 + o = 1 + n := by
      apply seq_inj p.isn (by omega) (by omega)
      rw [← add_assoc, ← add_assoc, ← hpos, hseq]
    obtain rfl : o = n := by omega
    exact hpayload

theorem getD_of_prefix_drop {l payload : List UInt8} {n j : ℕ} (h : payload <+: l.drop n)
    (hj : j < payload.length) : payload.getD j 0 = l.getD (n + j) 0 := by
  obtain ⟨rest, hrest⟩ := h
  have hget : (l.drop n)[j]? = payload[j]? := by
    rw [← hrest, getElem?_append_left hj]
  rw [getD_eq_getElem?_getD, getD_eq_getElem?_getD, ← getElem?_drop, hget]

theorem Receiving.of_stored_nothing {size : ℕ} {v' : TcpView} (h : p.Receiving localPort size v)
    (htalks : p.Talks localPort v'.conn) (hbuf : v'.buf = v.buf) (hlen : v'.len = v.len)
    (hall : v'.AllBuffered → v.AllBuffered) (hconn : v'.conn = v.conn ∨ v'.conn.state = .done) :
    p.Receiving localPort size v' := by
  obtain ⟨b, hb, hsize, hle, hstream⟩ := h.holds
  refine ⟨htalks, ?_, b, hbuf.trans hb, hsize, hlen.trans_le hle, fun hbuffered => ?_⟩
  · rcases hconn with heq | hdone
    · rw [heq]
      exact h.opened
    · rw [hdone]
      decide
  · obtain ⟨n, hn, hcount, hbytes, hseq⟩ := hstream (hall hbuffered)
    refine ⟨n, hn, hlen.trans hcount, fun i hi => hbytes i (hlen ▸ hi), fun hest => ?_⟩
    rcases hconn with heq | hdone
    · rw [heq] at hest ⊢
      exact hseq hest
    · rw [hdone] at hest
      cases hest

theorem stored_of_prefix {b : RecvBuffer} {payload : List UInt8} {n : ℕ} (hb : v.buf = some b)
    (hlen : v.len = min n b.size) (hpayload : payload <+: p.stream.drop n)
    (hbytes : ∀ i < v.len, b.bytes.byte i = p.stream.getD i 0) :
    ∃ b', (v.store payload).buf = some b' ∧ b'.size = b.size ∧
      (v.store payload).len = min (n + payload.length) b.size ∧
      ∀ i < (v.store payload).len, b'.bytes.byte i = p.stream.getD i 0 := by
  rcases Nat.lt_or_ge v.len b.size with hroom | hfull
  · obtain ⟨b', hb', hsize, hcount, hbyte⟩ := v.store_of_room payload hb hroom
    have hn : v.len = n := by omega
    rw [hn] at hcount
    refine ⟨b', hb', hsize, hcount, fun i hi => ?_⟩
    rw [hbyte i]
    split_ifs with hnew
    · rw [getD_of_prefix_drop hpayload (by omega), hn, Nat.add_sub_cancel' (hn ▸ hnew.1)]
    · exact hbytes i (by omega)
  · rw [v.store_of_full payload hb hfull]
    exact ⟨b, hb, rfl, by omega, hbytes⟩

theorem Receiving.receive {size : ℕ} (h : p.Receiving localPort size v) (hseg : p.Sends seg)
    (hlong : p.stream.length + 2 < 2 ^ 32) :
    p.Receiving localPort size ((v.note seg).receive seg) := by
  have htalks : p.Talks localPort (v.note seg).conn := h.talks
  have hkeep : ((v.note seg).receive seg).AllBuffered → v.AllBuffered :=
    fun hall => (TcpView.allBuffered_note hall).1
  rcases receive_cases (v.note seg) seg with heq | heq | ⟨hsyn, -, -, -⟩ | hacc
  · exact h.of_stored_nothing htalks.receive (by rw [heq]; rfl) (by rw [heq]; rfl) hkeep
      (.inl (by rw [heq]; rfl))
  · exact h.of_stored_nothing htalks.receive (by rw [heq]; rfl) (by rw [heq]; rfl) hkeep
      (.inr (by rw [heq]; rfl))
  · exact absurd hsyn h.opened
  obtain ⟨b, hb, hsize, hle, hstream⟩ := h.holds
  obtain ⟨hbuf', hlen'⟩ := hacc.receive_buf
  obtain ⟨hopened, hseq'⟩ := hacc.receive_conn
  have hnb : (v.note seg).buf = some b := hb
  obtain ⟨b', hb', hsize', hle'⟩ := (v.note seg).store_of_some seg.payload hnb (hsize ▸ hle)
  refine ⟨htalks.receive, hopened, b', hbuf'.trans hb', hsize'.trans hsize,
    hlen'.trans_le (hsize ▸ hle'), fun hall => ?_⟩
  obtain ⟨n, hn, hcount, hbytes, hseq⟩ := hstream (hkeep hall)
  have hremote : v.conn.remoteSeq = u32 (p.isn + 1 + n) := hseq hacc.established
  have hpayload : seg.payload <+: p.stream.drop n :=
    hseg.payload_prefix hlong hn hacc.noReset (hacc.expected.trans hremote)
  have hshort : seg.payload.length ≤ p.stream.length - n := by
    simpa using hpayload.length_le
  obtain ⟨b'', hb'', -, hcount'', hbytes''⟩ :=
    stored_of_prefix (v := v.note seg) hnb (hsize ▸ hcount) hpayload hbytes
  obtain rfl : b' = b'' := Option.some.inj (hb'.symm.trans hb'')
  refine ⟨n + seg.payload.length, by omega, ?_, fun i hi => hbytes'' i (hlen' ▸ hi), fun hest => ?_⟩
  · rw [hlen', hcount'', hsize]
  · rw [hseq' hest]
    change u32 (v.conn.remoteSeq + _) = _
    rw [hremote, u32, u32, u32, mod_add_mod, add_assoc (p.isn + 1)]

end Peer

end MicroK.Net
