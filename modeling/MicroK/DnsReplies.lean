import MicroK.NetHandlers

/-!
# Addresses in replies of a name server

`dns_udp_handler` walks over the records of a reply with a 16-bit position. A record that claims to
reach beyond 64 KiB sends the walk back into the packet, where it can meet bytes that are no record.
-/

namespace MicroK.Net

open Checked Outcome Option

structure DnsRecord where
  type : ℕ
  /-- Where the data starts, and how many bytes it has. -/
  pos : ℕ
  len : ℕ

section

variable (rx : Image) (payload len : ℕ)

def be16 (off : ℕ) : ℕ := 256 * (rx.byte off).toNat + (rx.byte (off + 1)).toNat

/-- The position behind a name. -/
def nameEnd : ℕ → ℕ → ℕ
  | 0, pos => pos
  | rounds + 1, pos =>
    let b := (rx.byte (payload + pos)).toNat
    if pos < len then
      if b = 0 then pos + 1 else if 0xC0 ≤ b then pos + 2 else nameEnd rounds (pos + (b + 1))
    else pos

def questionsEnd : ℕ → ℕ → ℕ
  | 0, pos => pos
  | left + 1, pos =>
    if pos < len then questionsEnd left (nameEnd rx payload len (len + 1) pos + 4) else pos

/-- The head of a record behind its name, when it lies in the packet. -/
def recordAt (pos : ℕ) : Option DnsRecord :=
  let head := nameEnd rx payload len (len + 1) pos
  if head + 10 ≤ len then
    some ⟨be16 rx (payload + head), head + 10, be16 rx (payload + head + 8)⟩
  else none

/-- The records one behind the other, up to the first that runs past the end. -/
def records : ℕ → ℕ → List DnsRecord
  | 0, _ => []
  | left + 1, pos =>
    match recordAt rx payload len pos with
    | none => []
    | some r => if r.pos + r.len ≤ len then r :: records left (r.pos + r.len) else []

/-- The record that runs past the end, if the records end so. -/
def overrun : ℕ → ℕ → Option DnsRecord
  | 0, _ => none
  | left + 1, pos =>
    match recordAt rx payload len pos with
    | none => none
    | some r => if r.pos + r.len ≤ len then overrun left (r.pos + r.len) else some r

/-- The records that a walk with a 16-bit position meets. -/
def visited : ℕ → ℕ → List DnsRecord
  | 0, _ => []
  | left + 1, pos =>
    match recordAt rx payload len pos with
    | none => []
    | some r => r :: visited left (u16 (r.pos + r.len))

def DnsRecord.IsAddress (r : DnsRecord) : Prop := r.type = 1 ∧ r.len = 4 ∧ r.pos + 4 ≤ len

instance (r : DnsRecord) : Decidable (r.IsAddress len) := inferInstanceAs (Decidable (_ ∧ _))

/-- The data of the first address. -/
def firstAddress (rs : List DnsRecord) : Option Ip :=
  (rs.find? fun r => r.IsAddress len).map fun r => rx.array 4 (payload + r.pos)

/-- A response without an error to the query with this number. -/
def IsReply (txid : ℕ) : Prop :=
  12 ≤ len ∧ be16 rx payload = txid ∧ be16 rx (payload + 2) &&& 0x8000 ≠ 0 ∧
    be16 rx (payload + 2) &&& 0x000F = 0

instance (txid : ℕ) : Decidable (IsReply rx payload len txid) := inferInstanceAs (Decidable (_ ∧ _))

def recordsOf : List DnsRecord :=
  records rx payload len (be16 rx (payload + 6))
    (questionsEnd rx payload len (be16 rx (payload + 4)) 12)

def visitedIn : List DnsRecord :=
  visited rx payload len (be16 rx (payload + 6))
    (questionsEnd rx payload len (be16 rx (payload + 4)) 12)

def overrunOf : Option DnsRecord :=
  overrun rx payload len (be16 rx (payload + 6))
    (questionsEnd rx payload len (be16 rx (payload + 4)) 12)

/-- An address stands in front of the record that runs past the end, or that record ends below
64 KiB. -/
def Straight : Prop :=
  (∃ r ∈ recordsOf rx payload len, r.IsAddress len) ∨
    ∀ r ∈ overrunOf rx payload len, r.pos + r.len < 2 ^ 16

def exactAddress (txid : ℕ) : Option Ip :=
  if IsReply rx payload len txid then firstAddress rx payload len (recordsOf rx payload len)
  else none

end

def NetState.resolved (s : NetState) : Option Ip → NetState
  | none => s
  | some ip => { s with dns := { s.dns with resolvedIp := ip, replyReceived := true } }

variable {rx : Image} {payload len : ℕ}

theorem readByte_eq {off : ℕ} (h : off < rx.size) : rx.readLe off 1 = .ok (rx.byte off).toNat := by
  rw [Image.readLe_eq h]
  simp [Image.bytes, leValue]

theorem readBe16_eq {off : ℕ} (h : off + 2 ≤ rx.size) : readBe16 rx off = .ok (be16 rx off) := by
  have hlow : (rx.byte (off + 1)).toNat < 2 ^ 8 := (rx.byte (off + 1)).toNat_lt
  rw [readBe16, readByte_eq (by omega), ok_bind, readByte_eq (by omega), ok_bind,
    ← Nat.shiftLeft_add_eq_or_of_lt hlow, Nat.shiftLeft_eq, Nat.mul_comm]
  rfl

theorem isPointer_iff {b : ℕ} (hb : b < 256) : b &&& 0xC0 = 0xC0 ↔ 0xC0 ≤ b := by
  revert b
  decide +kernel

theorem nameEnd_le (rounds : ℕ) {pos : ℕ} (hpos : pos ≤ len + 192) :
    nameEnd rx payload len rounds pos ≤ len + 192 := by
  induction rounds generalizing pos with
  | zero => exact hpos
  | succ rounds ih =>
    rw [nameEnd]
    split_ifs
    · omega
    · omega
    · exact ih (by omega)
    · exact hpos

theorem firstAddress_cons (r : DnsRecord) (rs : List DnsRecord) :
    firstAddress rx payload len (r :: rs) =
      if r.IsAddress len then some (rx.array 4 (payload + r.pos))
      else firstAddress rx payload len rs := by
  unfold firstAddress
  split_ifs with haddress
  · rw [List.find?_cons_of_pos (by simpa using haddress), map_some]
  · rw [List.find?_cons_of_neg (by simpa using haddress)]

section

variable (hend : payload + len ≤ rx.size) (hlen : len ≤ 2048)
include hend hlen

theorem dnsSkipName_eq {rounds pos : ℕ} (hrounds : len ≤ rounds + pos) :
    dnsSkipName rx payload len (rounds + 1) pos =
      .ok (nameEnd rx payload len (rounds + 1) pos) := by
  induction rounds generalizing pos with
  | zero =>
    rw [dnsSkipName, nameEnd, if_neg (by omega), if_neg (by omega)]
    rfl
  | succ rounds ih =>
    rw [dnsSkipName, nameEnd]
    by_cases hlt : pos < len
    · have hb := (rx.byte (payload + pos)).toNat_lt
      rw [if_pos hlt, if_pos hlt, readByte_eq (by omega), ok_bind]
      generalize (rx.byte (payload + pos)).toNat = b at hb
      simp only [isPointer_iff hb]
      split_ifs with hzero hpointer
      · exact congrArg Outcome.ok (u16_of_lt (by omega))
      · exact congrArg Outcome.ok (u16_of_lt (by omega))
      · rw [u16_of_lt (n := b + 1) (by omega), u16_of_lt (by omega)]
        exact ih (by omega)
    · rw [if_neg hlt, if_neg hlt]
      rfl

theorem dnsQuestions_eq (left pos : ℕ) :
    dnsQuestions rx payload len left pos = .ok (questionsEnd rx payload len left pos) := by
  induction left generalizing pos with
  | zero => rfl
  | succ left ih =>
    rw [dnsQuestions, questionsEnd]
    split_ifs with hlt
    · have hname := @nameEnd_le rx payload len (len + 1) pos (by omega)
      rw [dnsSkipName_eq hend hlen (by omega), ok_bind, u16_of_lt (by omega)]
      exact ih _
    · rfl

theorem dnsAnswers_eq (left pos : ℕ) :
    dnsAnswers rx payload len left pos =
      .ok (firstAddress rx payload len (visited rx payload len left pos)) := by
  induction left generalizing pos with
  | zero => rfl
  | succ left ih =>
    rw [dnsAnswers, visited, recordAt]
    by_cases hlt : pos < len
    · rw [if_pos hlt, dnsSkipName_eq hend hlen (by omega), ok_bind]
      generalize nameEnd rx payload len (len + 1) pos = head
      by_cases hhead : head + 10 ≤ len
      · rw [if_neg (by omega), if_pos hhead, readBe16_eq (by omega), ok_bind,
          u16_of_lt (n := head + 2) (by omega), u16_of_lt (n := head + 2 + 2) (by omega),
          u16_of_lt (n := head + 2 + 2 + 4) (by omega)]
        dsimp only
        rw [readBe16_eq (by omega), ok_bind, u16_of_lt (n := head + 2 + 2 + 4 + 2) (by omega),
          show payload + (head + 2 + 2 + 4) = payload + head + 8 by omega,
          show head + 2 + 2 + 4 + 2 = head + 10 from rfl, firstAddress_cons]
        by_cases haddress : DnsRecord.IsAddress len
            ⟨be16 rx (payload + head), head + 10, be16 rx (payload + head + 8)⟩
        · have hinside : head + 10 + 4 ≤ len := haddress.2.2
          rw [if_pos haddress, if_pos (show _ ∧ _ from haddress), Image.readArray_eq (by omega)]
          rfl
        · rw [if_neg haddress, if_neg (show ¬ (_ ∧ _) from haddress)]
          exact ih _
      · rw [if_pos (by omega), if_neg hhead]
        rfl
    · rw [if_neg hlt, nameEnd, if_neg hlt, if_neg (by omega)]
      rfl

/-- What the handler accepts in a reply to the query with this number. -/
theorem dnsUdpHandler_eq (s : NetState) :
    dnsUdpHandler rx payload len s = .ok ((), s.resolved
      (if IsReply rx payload len s.dns.txid then
        firstAddress rx payload len (visitedIn rx payload len) else none)) := by
  unfold dnsUdpHandler
  by_cases hshort : len < 12
  · rw [if_pos hshort, if_neg fun h => by have := h.1; omega]
    rfl
  · have hlong : 12 ≤ len := Nat.le_of_not_lt hshort
    rw [if_neg hshort, lift_bind_of_ok (readBe16_eq (by omega)),
      lift_bind_of_ok (readBe16_eq (by omega)), lift_bind_of_ok (readBe16_eq (by omega)),
      lift_bind_of_ok (readBe16_eq (by omega)), bind_of_ok (get_apply s)]
    split_ifs with hskip hreply hreply
    · have hnone : be16 rx (payload + 6) = 0 := by
        obtain ⟨-, hid, hresponse, hcode⟩ := hreply
        tauto
      rw [visitedIn, hnone]
      rfl
    · rfl
    · rw [lift_bind_of_ok (dnsQuestions_eq hend hlen _ _),
        lift_bind_of_ok (dnsAnswers_eq hend hlen _ _)]
      change _ = Outcome.ok ((),
        s.resolved (firstAddress rx payload len (visited rx payload len _ _)))
      cases firstAddress rx payload len (visited rx payload len (be16 rx (payload + 6))
        (questionsEnd rx payload len (be16 rx (payload + 4)) 12)) <;> rfl
    · exact absurd ⟨hlong, by tauto⟩ hreply

end

theorem records_visited (hlen : len ≤ 2048) (left pos : ℕ) :
    records rx payload len left pos <+: visited rx payload len left pos := by
  induction left generalizing pos with
  | zero => exact List.prefix_refl _
  | succ left ih =>
    rw [records, visited]
    cases recordAt rx payload len pos with
    | none => exact List.prefix_refl _
    | some r =>
      dsimp only
      split_ifs with hfits
      · rw [u16_of_lt (by omega)]
        exact List.prefix_cons_inj r |>.2 (ih _)
      · exact List.nil_prefix

theorem not_isAddress_of_overrun (hlen : len ≤ 2048) (left pos : ℕ)
    (hfits : ∀ r ∈ overrun rx payload len left pos, r.pos + r.len < 2 ^ 16)
    (hnone : ∀ r ∈ records rx payload len left pos, ¬ r.IsAddress len) :
    ∀ r ∈ visited rx payload len left pos, ¬ r.IsAddress len := by
  induction left generalizing pos with
  | zero => exact hnone
  | succ left ih =>
    rw [overrun] at hfits
    rw [records] at hnone
    rw [visited]
    cases hrecord : recordAt rx payload len pos with
    | none => simp
    | some r =>
      simp only [hrecord] at hfits hnone ⊢
      split_ifs at hfits hnone with hinside
      · obtain ⟨hr, hrest⟩ := List.forall_mem_cons.1 hnone
        rw [u16_of_lt (by omega)]
        exact List.forall_mem_cons.2 ⟨hr, ih _ hfits hrest⟩
      · have hr : ¬ r.IsAddress len := fun ⟨_, h4, hle⟩ => hinside (h4 ▸ hle)
        have hout : visited rx payload len left (r.pos + r.len) = [] := by
          cases left with
          | zero => rfl
          | succ left =>
            have hname : nameEnd rx payload len (len + 1) (r.pos + r.len) = r.pos + r.len := by
              rw [nameEnd, if_neg (by omega)]
            rw [visited, recordAt, hname, if_neg (by omega)]
        rw [u16_of_lt (hfits r rfl), hout]
        exact List.forall_mem_singleton.2 hr

theorem firstAddress_eq_none {rs : List DnsRecord} :
    firstAddress rx payload len rs = none ↔ ∀ r ∈ rs, ¬ r.IsAddress len := by
  simp [firstAddress]

theorem firstAddress_append (rs rest : List DnsRecord) :
    firstAddress rx payload len (rs ++ rest) =
      (firstAddress rx payload len rs).or (firstAddress rx payload len rest) := by
  unfold firstAddress
  rw [List.find?_append]
  cases rs.find? fun r => r.IsAddress len <;> rfl

/-- A longer walk finds the same address if the shorter one finds any. -/
theorem firstAddress_eq_iff {rs vs : List DnsRecord} (hshort : rs <+: vs) :
    firstAddress rx payload len vs = firstAddress rx payload len rs ↔
      (∃ r ∈ rs, r.IsAddress len) ∨ ∀ r ∈ vs, ¬ r.IsAddress len := by
  obtain ⟨rest, rfl⟩ := hshort
  rw [← @firstAddress_eq_none rx payload, firstAddress_append]
  cases hfound : firstAddress rx payload len rs with
  | none =>
    rw [none_or, or_iff_right]
    rintro ⟨r, hr, haddress⟩
    exact firstAddress_eq_none.1 hfound r hr haddress
  | some ip =>
    refine iff_of_true rfl (.inl ?_)
    by_contra hnone
    push Not at hnone
    rw [firstAddress_eq_none.2 hnone] at hfound
    cases hfound

theorem resolved_injective {s : NetState} (hs : s.dns.replyReceived = false) :
    Function.Injective s.resolved := by
  intro a b hab
  have hflag := congrArg (fun t => t.dns.replyReceived) hab
  cases a <;> cases b
  · rfl
  · exact absurd (hs.symm.trans hflag) Bool.false_ne_true
  · exact absurd (hs.symm.trans hflag.symm) Bool.false_ne_true
  · exact congrArg some (congrArg (fun t => t.dns.resolvedIp) hab)

def freshClient : NetState := .boot ⟨Vector.replicate 4 0, Vector.replicate 6 0, true⟩ false true

theorem dnsUdpHandler_eq_iff (hend : payload + len ≤ rx.size) (hlen : len ≤ 2048) (txid : ℕ) :
    (∀ s : NetState, s.dns.txid = txid → dnsUdpHandler rx payload len s =
      .ok ((), s.resolved (exactAddress rx payload len txid))) ↔
      (IsReply rx payload len txid → (∃ r ∈ recordsOf rx payload len, r.IsAddress len) ∨
        ∀ r ∈ visitedIn rx payload len, ¬ r.IsAddress len) := by
  by_cases hreply : IsReply rx payload len txid
  · have hshort : recordsOf rx payload len <+: visitedIn rx payload len := records_visited hlen _ _
    rw [imp_iff_right hreply, ← @firstAddress_eq_iff rx payload len _ _ hshort, exactAddress,
      if_pos hreply]
    constructor
    · intro hall
      have hrun := hall { freshClient with dns := ⟨false, txid, Vector.replicate 4 0⟩ } rfl
      rw [dnsUdpHandler_eq hend hlen, if_pos hreply] at hrun
      exact resolved_injective rfl (Prod.mk.inj (Outcome.ok.inj hrun)).2
    · intro heq s hs
      rw [dnsUdpHandler_eq hend hlen, hs, if_pos hreply]
      exact congrArg (fun found => Outcome.ok ((), s.resolved found)) heq
  · refine iff_of_true (fun s hs => ?_) fun h => absurd h hreply
    rw [dnsUdpHandler_eq hend hlen, hs, if_neg hreply, exactAddress, if_neg hreply]

/-- The handler accepts the first address among the records of the reply, or none, when an address
comes before the record that runs past the end or that record ends below 64 KiB; and otherwise
exactly when the walk that goes on inside the packet meets no address either. -/
theorem dnsUdpHandler_exact_iff (hend : payload + len ≤ rx.size) (hlen : len ≤ 2048) (txid : ℕ) :
    ((IsReply rx payload len txid → Straight rx payload len) →
      ∀ s : NetState, s.dns.txid = txid → dnsUdpHandler rx payload len s =
        .ok ((), s.resolved (exactAddress rx payload len txid))) ∧
    ((IsReply rx payload len txid ∧ ¬ Straight rx payload len) →
      ((∀ s : NetState, s.dns.txid = txid → dnsUdpHandler rx payload len s =
        .ok ((), s.resolved (exactAddress rx payload len txid))) ↔
      ∀ r ∈ visitedIn rx payload len, ¬ r.IsAddress len)) := by
  rw [dnsUdpHandler_eq_iff hend hlen txid]
  constructor
  · intro hstraight hreply
    by_cases hfound : ∃ r ∈ recordsOf rx payload len, r.IsAddress len
    · exact .inl hfound
    · refine .inr (not_isAddress_of_overrun hlen _ _ ((hstraight hreply).resolve_left hfound) ?_)
      intro r hr haddress
      exact hfound ⟨r, hr, haddress⟩
  · rintro ⟨hreply, hwraps⟩
    rw [imp_iff_right hreply, or_iff_right fun hfound => hwraps (.inl hfound)]

def replyOf (count : UInt8) (body : List UInt8) : Image :=
  .ofList ([0xD0, 0, 0x80, 0, 0, 0, 0, count, 0, 0, 0, 0] ++ body)

def addressRecord : List UInt8 := [0, 1, 0, 1, 0, 0, 0, 0, 0, 4, 6, 6, 6, 6]

theorem addressRecord_accepted :
    (replyOf 1 (0 :: addressRecord)).size = 27 ∧ ∀ s : NetState, s.dns.txid = 0xD000 →
      dnsUdpHandler (replyOf 1 (0 :: addressRecord)) 0 27 s =
        .ok ((), s.resolved (exactAddress (replyOf 1 (0 :: addressRecord)) 0 27 0xD000)) :=
  ⟨rfl, (dnsUdpHandler_exact_iff (by decide) (by decide) 0xD000).1 fun _ =>
    .inl (by decide +kernel)⟩

/-- A text record of 65535 bytes leads back to its own last byte, which is taken for the first half
of a pointer; behind it stands an address. -/
def jumpReply : Image :=
  replyOf 2 ([0, 0, 16, 0, 1, 0, 0, 0, 0, 0xFF, 0xFF, 0] ++ addressRecord)

theorem jumpReply_accepted :
    exactAddress jumpReply 0 38 0xD000 = none ∧ ∀ s : NetState, s.dns.txid = 0xD000 →
      dnsUdpHandler jumpReply 0 38 s = .ok ((), s.resolved (some #v[6, 6, 6, 6])) := by
  refine ⟨by decide +kernel, fun s hs => ?_⟩
  have hfound : firstAddress jumpReply 0 38 (visitedIn jumpReply 0 38) = some #v[6, 6, 6, 6] := by
    decide +kernel
  rw [dnsUdpHandler_eq (by decide) (by decide), hs, if_pos (by decide +kernel), hfound]

end MicroK.Net
