import MicroK.DnsReplies

/-!
# Replies to earlier queries

`net_dns_resolve` takes the address of whatever reply arrives with its number, which is the same in
every call.
-/

namespace MicroK.Net

open Checked Outcome Option

/-- A query by the number of the call that makes it and the name it asks for. -/
structure DnsQuery where
  call : ℕ
  host : List UInt8
  deriving DecidableEq

/-- What arrives at the port of the client, with the query that the configured server answers with
it, if it is such an answer. The code sees the bytes alone. -/
structure Datagram where
  rx : Image
  origin : Option DnsQuery
  size_le : rx.size ≤ 2048

def Datagram.deliver (s : NetState) (d : Datagram) : NetState :=
  after (dnsUdpHandler d.rx 0 d.rx.size) s

/-- The loop of polls, each with the datagrams that it handles, up to the deadline. -/
def dnsWait : List (List Datagram) → NetState → NetState
  | [], s => s
  | batch :: polls, s =>
    if s.dns.replyReceived then s else dnsWait polls (batch.foldl Datagram.deliver s)

def dnsTxid (s : NetState) : ℕ :=
  0xD000 ||| s.config.mac[4].toNat <<< 4 ||| s.config.mac[5].toNat

/-- `net_dns_resolve` of a name that has to be asked for. -/
def netDnsResolve (polls : List (List Datagram)) (s : NetState) : NetState × Option Ip :=
  let s := dnsWait polls { s with dns := ⟨false, dnsTxid s, s.dns.resolvedIp⟩ }
  (s, if s.dns.replyReceived then some s.dns.resolvedIp else none)

/-- The state before the call with a number, in a sequence of calls. -/
def dnsState (polls : ℕ → List (List Datagram)) (s : NetState) : ℕ → NetState
  | 0 => s
  | n + 1 => (netDnsResolve (polls n) (dnsState polls s n)).1

variable (polls : ℕ → List (List Datagram))

def dnsResult (s : NetState) (n : ℕ) : Option Ip :=
  (netDnsResolve (polls n) (dnsState polls s n)).2

/-- The address that the client takes from a datagram. -/
def Datagram.address (d : Datagram) (txid : ℕ) : Option Ip :=
  if IsReply d.rx 0 d.rx.size txid then
    firstAddress d.rx 0 d.rx.size (visitedIn d.rx 0 d.rx.size) else none

theorem deliver_eq (s : NetState) (d : Datagram) :
    d.deliver s = s.resolved (d.address s.dns.txid) := by
  rw [Datagram.deliver, after, dnsUdpHandler_eq (Nat.zero_add _).le d.size_le]
  rfl

/-- What has been received came from one of the datagrams. -/
structure FromDatagrams (ds : List Datagram) (s₀ s : NetState) : Prop where
  config : s.config = s₀.config
  txid : s.dns.txid = dnsTxid s₀
  taken : s.dns.replyReceived = true → ∃ d ∈ ds, d.address (dnsTxid s₀) = some s.dns.resolvedIp

variable {ds : List Datagram} {s₀ s : NetState}

theorem FromDatagrams.deliver {d : Datagram} (h : FromDatagrams ds s₀ s) (hd : d ∈ ds) :
    FromDatagrams ds s₀ (d.deliver s) := by
  rw [deliver_eq, h.txid]
  cases hfound : d.address (dnsTxid s₀) with
  | none => exact h
  | some ip => exact ⟨h.config, h.txid, fun _ => ⟨d, hd, hfound⟩⟩

theorem FromDatagrams.poll {batch : List Datagram} (h : FromDatagrams ds s₀ s) (hb : batch ⊆ ds) :
    FromDatagrams ds s₀ (batch.foldl Datagram.deliver s) := by
  induction batch generalizing s with
  | nil => exact h
  | cons d batch ih =>
    obtain ⟨hd, hrest⟩ := List.cons_subset.1 hb
    exact ih (h.deliver hd) hrest

theorem FromDatagrams.wait {polls : List (List Datagram)} (h : FromDatagrams ds s₀ s)
    (hp : polls.flatten ⊆ ds) : FromDatagrams ds s₀ (dnsWait polls s) := by
  induction polls generalizing s with
  | nil => exact h
  | cons batch polls ih =>
    obtain ⟨hbatch, hrest⟩ := List.append_subset.1 hp
    rw [dnsWait]
    split_ifs
    · exact h
    · exact ih (h.poll hbatch) hrest

theorem netDnsResolve_spec (polls : List (List Datagram)) (s : NetState) :
    FromDatagrams polls.flatten s (netDnsResolve polls s).1 :=
  FromDatagrams.wait ⟨rfl, rfl, fun h => absurd h Bool.false_ne_true⟩ fun _ => id

theorem dnsTxid_dnsState (s : NetState) (n : ℕ) :
    dnsTxid (dnsState polls s n) = dnsTxid s := by
  have hconfig : (dnsState polls s n).config = s.config := by
    induction n with
    | zero => rfl
    | succ n ih => exact (netDnsResolve_spec _ _).config.trans ih
  rw [dnsTxid, hconfig, dnsTxid]

/-- In every sequence of calls each address comes from an answer of the server to the query of the
same call, exactly when every datagram that can arrive during a call and is accepted is one. -/
theorem dnsResult_genuine_iff (s : NetState) (host : ℕ → List UInt8) (D : ℕ → Set Datagram) :
    (∀ polls : ℕ → List (List Datagram), (∀ n, ∀ d ∈ (polls n).flatten, d ∈ D n) →
      ∀ n ip, dnsResult polls s n = some ip → ∃ d ∈ (polls n).flatten,
        d.origin = some ⟨n, host n⟩ ∧ d.address (dnsTxid s) = some ip) ↔
      ∀ n, ∀ d ∈ D n, d.address (dnsTxid s) ≠ none → d.origin = some ⟨n, host n⟩ := by
  constructor
  · intro hall n d hd haddress
    obtain ⟨ip, hip⟩ := ne_none_iff_exists'.1 haddress
    let polls : ℕ → List (List Datagram) := fun k => if k = n then [[d]] else []
    have hpolls : polls n = [[d]] := if_pos rfl
    have hinside : ∀ k, ∀ e ∈ (polls k).flatten, e ∈ D k := by
      intro k e he
      by_cases hk : k = n
      · rw [hk, hpolls] at he
        obtain rfl : e = d := by simpa using he
        exact hk ▸ hd
      · simp [polls, hk] at he
    have hresult : dnsResult polls s n = some ip := by
      rw [dnsResult, hpolls]
      simp [netDnsResolve, dnsWait, dnsTxid_dnsState, List.foldl, deliver_eq, hip,
        NetState.resolved]
    obtain ⟨e, he, horigin, -⟩ := hall polls hinside n ip hresult
    rw [hpolls] at he
    obtain rfl : e = d := by simpa using he
    exact horigin
  · intro hgenuine polls hpolls n ip hresult
    have hspec := netDnsResolve_spec (polls n) (dnsState polls s n)
    change (if (netDnsResolve (polls n) (dnsState polls s n)).1.dns.replyReceived then _ else _) =
      some ip at hresult
    split_ifs at hresult with hreceived
    obtain ⟨d, hd, haddress⟩ := hspec.taken hreceived
    rw [dnsTxid_dnsState] at haddress
    have hip : d.address (dnsTxid s) = some ip := haddress.trans hresult
    exact ⟨d, hd, hgenuine n d (hpolls n d hd) (hip ▸ some_ne_none _), hip⟩

def lateAnswer : Datagram := ⟨replyOf 1 (0 :: addressRecord), some ⟨0, [0x61]⟩, by decide⟩

/-- The answer to the query of call 0 for `a` arrives once more during call 1, which asks for
`b`. -/
theorem lateAnswer_taken :
    dnsResult (fun _ => [[lateAnswer]]) freshClient 1 = some #v[6, 6, 6, 6] ∧
      lateAnswer.origin ≠ some ⟨1, [0x62]⟩ := by
  decide +kernel

end MicroK.Net
