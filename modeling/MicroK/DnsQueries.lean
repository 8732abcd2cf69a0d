import MicroK.DnsResolution
import MicroK.NetConfigText

/-!
# Addresses and names in the argument of `net_dns_resolve`

An argument that `parse_ip4` reads is taken as an address. Its numbers wrap at 32 bits and it
ignores what follows the fourth one; `parse_ipv4` of the configuration does neither. Any other
argument is encoded as a name into a query of 512 bytes, by a loop that stops at a label it cannot
write and does not know the size of the query.
-/

namespace MicroK.NetConfig

open List Nat

open Net (Ip NetState asciiBytes)

variable (text : List UInt8)

def parseNumber : Option (UInt8 × List UInt8) :=
  let digits := text.takeWhile isDigit
  let val : UInt32 := digits.foldl (fun val c => val * 10 + (c.toUInt32 - 0x30)) 0
  if digits = [] ∨ 255 < val then none else some (val.toUInt8, text.dropWhile isDigit)

def parseIp4 : Option Ip := do
  let (a, text) ← parseNumber text
  let text ← skipDot text
  let (b, text) ← parseNumber text
  let text ← skipDot text
  let (c, text) ← parseNumber text
  let text ← skipDot text
  let (d, _) ← parseNumber text
  some ⟨#[a, b, c, d], by simp⟩

def number (digits : List UInt8) (n : ℕ) : ℕ :=
  digits.foldl (fun n c => n * 10 + (c.toNat - 0x30)) n

/-- A decimal number below 256, however many zeros it starts with. -/
structure IsOctet (ds : List UInt8) : Prop where
  ne_nil : ds ≠ []
  digits : ∀ c ∈ ds, isDigit c = true
  le : number ds 0 ≤ 255

/-- A number that is below 256 after it has wrapped. -/
structure IsWrapped (ds : List UInt8) : Prop where
  ne_nil : ds ≠ []
  digits : ∀ c ∈ ds, isDigit c = true
  le : number ds 0 % 2 ^ 32 ≤ 255

/-- Four numbers joined by dots, and anything behind that is not a digit. -/
def LooseQuad : Prop :=
  ∃ a b c d rest, (∀ ds ∈ [a, b, c, d], IsWrapped ds) ∧ (∀ c ∈ rest.head?, isDigit c = false) ∧
    text = [0x2E].intercalate [a, b, c, d] ++ rest

def DottedQuad : Prop :=
  ∃ a b c d, (∀ ds ∈ [a, b, c, d], IsOctet ds) ∧ text = [0x2E].intercalate [a, b, c, d]

theorem le_number (ds : List UInt8) (n : ℕ) : n ≤ number ds n := by
  induction ds generalizing n with
  | nil => exact le_rfl
  | cons c ds ih =>
    have h := ih (n * 10 + (c.toNat - 0x30))
    rw [number, foldl_cons, ← number]
    omega

theorem decimal_eq_some_iff {limit n m : ℕ} (ds : List UInt8) (hn : n ≤ limit) :
    decimal limit ds n = some m ↔ number ds n = m ∧ m ≤ limit := by
  induction ds generalizing n with
  | nil =>
    simp only [decimal, number, foldl_nil, Option.some.injEq]
    omega
  | cons c ds ih =>
    have hle := le_number ds (n * 10 + (c.toNat - 0x30))
    rw [decimal, number, foldl_cons, ← number]
    split_ifs with hlt
    · simp only [false_iff]
      omega
    · exact ih (Nat.le_of_not_lt hlt)

theorem number_modEq (ds : List UInt8) {n m : ℕ} (h : n ≡ m [MOD 2 ^ 32]) :
    number ds n ≡ number ds m [MOD 2 ^ 32] := by
  induction ds generalizing n m with
  | nil => exact h
  | cons c ds ih => exact ih ((h.mul_right 10).add_right _)

/-- The number of `parse_ip4` is that of the digits modulo `2 ^ 32`. -/
theorem toNat_foldl {ds : List UInt8} (hds : ∀ c ∈ ds, isDigit c = true) (val : UInt32) :
    (ds.foldl (fun (val : UInt32) c => val * 10 + (c.toUInt32 - 0x30)) val).toNat =
      number ds val.toNat % 2 ^ 32 := by
  induction ds generalizing val with
  | nil => exact (mod_eq_of_lt val.toNat_lt).symm
  | cons c ds ih =>
    have hc : isDigit c = true := hds c mem_cons_self
    have hstep : (val * 10 + (c.toUInt32 - 0x30)).toNat ≡ val.toNat * 10 + (c.toNat - 0x30)
        [MOD 2 ^ 32] := by
      simp only [isDigit, Bool.and_eq_true, decide_eq_true_eq, UInt8.le_iff_toNat_le] at hc
      have hsub : (c.toUInt32 - 0x30).toNat = c.toNat - 0x30 :=
        UInt32.toNat_sub_of_le _ _ (by simpa [UInt32.le_iff_toNat_le] using hc.1)
      rw [UInt32.toNat_add, UInt32.toNat_mul, hsub, ModEq, mod_mod, mod_add_mod]
      rfl
    rw [foldl_cons, ih fun c hc => hds c (mem_cons_of_mem _ hc)]
    exact number_modEq ds hstep

variable {text : List UInt8}

theorem parseNumber_append {ds rest : List UInt8} (h : IsWrapped ds)
    (hrest : ∀ c ∈ rest.head?, isDigit c = false) :
    parseNumber (ds ++ rest) = some (UInt8.ofNat (number ds 0 % 2 ^ 32), rest) := by
  obtain ⟨htake, hdrop⟩ := takeWhile_dropWhile_append h.digits hrest
  have hval := toNat_foldl h.digits 0
  rw [UInt32.toNat_zero] at hval
  have hfits : ¬ (ds = [] ∨ 255 < number ds 0 % 2 ^ 32) := by simpa [h.ne_nil] using h.le
  simp only [parseNumber, htake, hdrop, UInt32.lt_iff_toNat_lt, hval]
  rw [if_neg (by exact hfits), ← hval]
  rfl

theorem parseNumber_eq_some {text rest : List UInt8} {v : UInt8}
    (h : parseNumber text = some (v, rest)) :
    ∃ ds, IsWrapped ds ∧ text = ds ++ rest ∧ ∀ c ∈ rest.head?, isDigit c = false := by
  have hds : ∀ c ∈ text.takeWhile isDigit, isDigit c = true := fun c hc => mem_takeWhile_imp hc
  have hval := toNat_foldl hds 0
  simp only [parseNumber, UInt32.lt_iff_toNat_lt, hval] at h
  split_ifs at h with hbad
  rw [not_or, not_lt] at hbad
  rw [← (Prod.mk.inj (Option.some.inj h)).2]
  refine ⟨_, ⟨hbad.1, hds, hbad.2⟩, (takeWhile_append_dropWhile ..).symm, fun c hc => ?_⟩
  have hhead := head?_dropWhile_not isDigit text
  rwa [hc] at hhead

theorem parseOctet_eq_some {text rest : List UInt8} {v : UInt8}
    (h : parseOctet text = some (v, rest)) : ∃ ds, IsOctet ds ∧ text = ds ++ rest := by
  rw [parseOctet] at h
  split at h
  · cases h
  · rename_i n hn
    obtain ⟨rfl, hle⟩ := (decimal_eq_some_iff _ (zero_le _)).1 hn
    split_ifs at h with hne
    refine ⟨_, ⟨hne, fun c hc => mem_takeWhile_imp hc, hle⟩, ?_⟩
    rw [← (Prod.mk.inj (Option.some.inj h)).2, takeWhile_append_dropWhile]

theorem IsOctet.parseOctet {ds rest : List UInt8} (h : IsOctet ds)
    (hrest : ∀ c ∈ rest.head?, isDigit c = false) :
    parseOctet (ds ++ rest) = some (UInt8.ofNat (number ds 0), rest) :=
  parseOctet_append h.digits h.ne_nil ((decimal_eq_some_iff ds (zero_le _)).2 ⟨rfl, h.le⟩) hrest

theorem skipDot_eq_some {text rest : List UInt8} (h : skipDot text = some rest) :
    text = 0x2E :: rest := by
  unfold skipDot at h
  split at h <;> simp_all

theorem dottedQuad_of_parseIpv4 {ip : Ip} (h : parseIpv4 text = some ip) :
    DottedQuad text := by
  simp only [parseIpv4, Option.bind_eq_bind, Option.bind_eq_some_iff, Prod.exists] at h
  obtain ⟨_, _, h₁, _, hd₁, _, _, h₂, _, hd₂, _, _, h₃, _, hd₃, _, _, h₄, h⟩ := h
  split_ifs at h with hend
  obtain ⟨a, ha, rfl⟩ := parseOctet_eq_some h₁
  obtain ⟨b, hb, rfl⟩ := parseOctet_eq_some h₂
  obtain ⟨c, hc, rfl⟩ := parseOctet_eq_some h₃
  obtain ⟨d, hd, rfl⟩ := parseOctet_eq_some h₄
  refine ⟨a, b, c, d, by simp [ha, hb, hc, hd], ?_⟩
  rw [skipDot_eq_some hd₁, skipDot_eq_some hd₂, skipDot_eq_some hd₃, hend]
  simp [List.intercalate]

theorem IsOctet.mod_eq {ds : List UInt8} (h : IsOctet ds) :
    number ds 0 % 2 ^ 32 = number ds 0 := mod_eq_of_lt (h.le.trans_lt (by norm_num))

theorem IsOctet.wrapped {ds : List UInt8} (h : IsOctet ds) : IsWrapped ds :=
  ⟨h.ne_nil, h.digits, h.mod_eq.trans_le h.le⟩

theorem isDigit_dot (rest : List UInt8) : ∀ c ∈ (0x2E :: rest).head?, isDigit c = false := by
  simp [isDigit]

theorem looseQuad_of_parseIp4 {ip : Ip} (h : parseIp4 text = some ip) : LooseQuad text := by
  simp only [parseIp4, Option.bind_eq_bind, Option.bind_eq_some_iff, Prod.exists] at h
  obtain ⟨_, _, h₁, _, hd₁, _, _, h₂, _, hd₂, _, _, h₃, _, hd₃, _, rest, h₄, -⟩ := h
  obtain ⟨a, ha, rfl, -⟩ := parseNumber_eq_some h₁
  obtain ⟨b, hb, rfl, -⟩ := parseNumber_eq_some h₂
  obtain ⟨c, hc, rfl, -⟩ := parseNumber_eq_some h₃
  obtain ⟨d, hd, rfl, hrest⟩ := parseNumber_eq_some h₄
  refine ⟨a, b, c, d, rest, by simp [ha, hb, hc, hd], hrest, ?_⟩
  rw [skipDot_eq_some hd₁, skipDot_eq_some hd₂, skipDot_eq_some hd₃]
  simp [List.intercalate]

theorem LooseQuad.parsed (h : LooseQuad text) : ∃ ip, parseIp4 text = some ip := by
  rw [← Option.isSome_iff_exists]
  obtain ⟨a, b, c, d, rest, h, hrest, rfl⟩ := h
  simp only [forall_mem_cons] at h
  have ha := fun rest => parseNumber_append h.1 (isDigit_dot rest)
  have hb := fun rest => parseNumber_append h.2.1 (isDigit_dot rest)
  have hc := fun rest => parseNumber_append h.2.2.1 (isDigit_dot rest)
  have hd := parseNumber_append h.2.2.2.1 hrest
  simp [parseIp4, List.intercalate, skipDot, ha, hb, hc, hd]

theorem DottedQuad.parsed (h : DottedQuad text) :
    ∃ ip, parseIpv4 text = some ip ∧ parseIp4 text = some ip := by
  obtain ⟨a, b, c, d, h, rfl⟩ := h
  simp only [forall_mem_cons] at h
  have hread {ds : List UInt8} (hds : IsOctet ds) (rest : List UInt8)
      (hrest : ∀ c ∈ rest.head?, isDigit c = false) :
      parseOctet (ds ++ rest) = some (UInt8.ofNat (number ds 0), rest) ∧
        parseNumber (ds ++ rest) = some (UInt8.ofNat (number ds 0), rest) := by
    rw [hds.parseOctet hrest, parseNumber_append hds.wrapped hrest, hds.mod_eq]
    exact ⟨rfl, rfl⟩
  have ha := fun rest => hread h.1 _ (isDigit_dot rest)
  have hb := fun rest => hread h.2.1 _ (isDigit_dot rest)
  have hc := fun rest => hread h.2.2.1 _ (isDigit_dot rest)
  have hd := hread h.2.2.2.1 [] (by simp)
  rw [append_nil] at hd
  refine ⟨#v[.ofNat (number a 0), .ofNat (number b 0), .ofNat (number c 0),
    .ofNat (number d 0)], ?_⟩
  simp [parseIpv4, parseIp4, List.intercalate, skipDot, ha, hb, hc, hd]

/-- The readers agree on a text unless it is four numbers and a rest for `parse_ip4` without being a
dotted quad. -/
theorem parseIp4_eq_parseIpv4_iff (text : List UInt8) :
    parseIp4 text = parseIpv4 text ↔ (LooseQuad text → DottedQuad text) := by
  constructor
  · intro h hloose
    obtain ⟨ip, hip⟩ := hloose.parsed
    exact dottedQuad_of_parseIpv4 (h ▸ hip)
  · intro h
    cases hip : parseIp4 text with
    | some ip =>
      obtain ⟨ip', hv, hip'⟩ := (h (looseQuad_of_parseIp4 hip)).parsed
      rw [hv, ← hip', hip]
    | none =>
      cases hv : parseIpv4 text with
      | none => rfl
      | some ip =>
        obtain ⟨ip', -, hip'⟩ := (dottedQuad_of_parseIpv4 hv).parsed
        rw [hip] at hip'
        cases hip'

/-- Text behind the address, and a number that wraps to 1. -/
theorem parseIp4_accepts_more :
    parseIp4 (asciiBytes "1.2.3.4x") = some #v[1, 2, 3, 4] ∧
    parseIpv4 (asciiBytes "1.2.3.4x") = none ∧
    parseIp4 (asciiBytes "4294967297.2.3.4") = some #v[1, 2, 3, 4] ∧
    parseIpv4 (asciiBytes "4294967297.2.3.4") = none := by
  decide

/-- Bytes written behind those that the query has. -/
def dnsPut (buf bytes : List UInt8) : Outcome (List UInt8) :=
  if buf.length + bytes.length ≤ 512 then .ok (buf ++ bytes) else .fault

/-- Every round takes a byte of the name or more. -/
def dnsEncodeName : ℕ → List UInt8 → List UInt8 → Outcome (List UInt8)
  | rounds + 1, c :: name, buf =>
    let seg := (c :: name).takeWhile (· != 0x2E)
    let seglen := seg.length % 256
    if seglen = 0 ∨ 63 < seglen then dnsPut buf [0]
    else (dnsPut buf (UInt8.ofNat seglen :: seg.take seglen)).bind
      (dnsEncodeName rounds ((c :: name).dropWhile (· != 0x2E)).tail)
  | _, _, buf => dnsPut buf [0]

/-- The datagram that `net_dns_resolve` hands to `net_send_udp`, if it comes that far. -/
def dnsDatagram (s : NetState) (c : Config) (ringsReady : Bool) (hostname : List UInt8) :
    Outcome (List UInt8) :=
  let txid := Net.dnsTxid s
  if (parseIp4 hostname).isSome ∨ c.hasConfig = false ∨ ringsReady = false ∨ c.dns = zeroIp then
    .reject
  else (dnsEncodeName hostname.length hostname
      [UInt8.ofNat (txid / 256), UInt8.ofNat txid, 1, 0, 0, 1, 0, 0, 0, 0, 0, 0]).bind fun buf =>
    dnsPut buf [0, 1, 0, 1]

/-- The labels of a name in front of a message, and what follows the name. -/
def decodeName : ℕ → List UInt8 → Option (List (List UInt8) × List UInt8)
  | rounds + 1, b :: rest =>
    if b = 0 then some ([], rest)
    else if 63 < b.toNat ∨ rest.length < b.toNat then none
    else (decodeName rounds (rest.drop b.toNat)).map fun r => (rest.take b.toNat :: r.1, r.2)
  | _, _ => none

/-- The labels joined by dots are the host name, up to one dot at its end. -/
def IsLabels (hostname : List UInt8) (ls : List (List UInt8)) : Prop :=
  (∀ l ∈ ls, 0x2E ∉ l) ∧
    (hostname = [0x2E].intercalate ls ∨ hostname = [0x2E].intercalate ls ++ [0x2E])

/-- No query, or one in its buffer that asks for the name. -/
def AsksFor (query : Outcome (List UInt8)) (hostname : List UInt8) : Prop :=
  query = .reject ∨ ∃ q ls, query = .ok q ∧ q.length ≤ 512 ∧
    decodeName q.length (q.drop 12) = some (ls, [0, 1, 0, 1]) ∧ IsLabels hostname ls

def Short (ls : List (List UInt8)) : Prop := ∀ l ∈ ls, 0 < l.length ∧ l.length ≤ 63

def wire (ls : List (List UInt8)) : List UInt8 := ls.flatMap fun l => UInt8.ofNat l.length :: l

theorem wire_cons (l : List UInt8) (ls : List (List UInt8)) :
    wire (l :: ls) = UInt8.ofNat l.length :: (l ++ wire ls) := by
  simp [wire]

theorem IsLabels.cons {name l : List UInt8} {ls : List (List UInt8)} (h : IsLabels name (l :: ls)) :
    ∃ t, name = l ++ t ∧ (∀ c ∈ t.head?, c = 0x2E) ∧ IsLabels t.tail ls := by
  obtain ⟨hdot, h⟩ := h
  have hdot' := (forall_mem_cons.1 hdot).2
  cases ls with
  | nil =>
    rcases h with rfl | rfl
    · exact ⟨[], by simp [List.intercalate], by simp, hdot', .inl rfl⟩
    · exact ⟨[0x2E], by simp [List.intercalate], by simp, hdot', .inl rfl⟩
  | cons l' ls =>
    rcases h with rfl | rfl
    · exact ⟨0x2E :: [0x2E].intercalate (l' :: ls), by simp [List.intercalate], by simp, hdot',
        .inl rfl⟩
    · exact ⟨0x2E :: ([0x2E].intercalate (l' :: ls) ++ [0x2E]), by simp [List.intercalate], by simp,
        hdot', .inr rfl⟩

theorem dnsEncodeName_eq {ls : List (List UInt8)} (hshort : Short ls) {rounds : ℕ}
    {name buf : List UInt8} (hname : IsLabels name ls) (hrounds : name.length ≤ rounds)
    (hroom : buf.length + (wire ls).length + 1 ≤ 512) :
    dnsEncodeName rounds name buf = .ok (buf ++ wire ls ++ [0]) := by
  induction ls generalizing rounds name buf with
  | nil =>
    have hput : dnsPut buf [0] = .ok (buf ++ wire [] ++ [0]) := by
      rw [dnsPut, if_pos (by simpa [wire] using hroom)]
      simp [wire]
    rcases hname.2 with rfl | rfl
    · cases rounds <;> exact hput
    · cases rounds with
      | zero => cases hrounds
      | succ rounds => exact hput
  | cons l ls ih =>
    obtain ⟨hl, hls⟩ := forall_mem_cons.1 hshort
    obtain ⟨t, rfl, hhead, ht⟩ := hname.cons
    obtain ⟨htake, hdrop⟩ := @takeWhile_dropWhile_append (· != 0x2E) l t
      (fun c hc => bne_iff_ne.2 fun h => hname.1 l mem_cons_self (h ▸ hc))
      (fun c hc => by simp [hhead c hc])
    obtain ⟨c, l', rfl⟩ := exists_cons_of_length_pos hl.1
    obtain ⟨rounds, rfl⟩ : ∃ k, rounds = k + 1 := ⟨rounds - 1, by simp at hrounds; omega⟩
    have hlen : (c :: l').length % 256 = (c :: l').length := mod_eq_of_lt (by omega)
    rw [wire_cons, length_cons, length_append] at hroom
    rw [cons_append, dnsEncodeName, ← cons_append, htake, hdrop, hlen,
      if_neg (by omega), take_length, dnsPut, if_pos (by rw [length_cons]; omega)]
    have hrest := @ih hls rounds t.tail (buf ++ UInt8.ofNat (c :: l').length :: (c :: l')) ht
      (by simp at hrounds ⊢; omega) (by rw [length_append, length_cons]; omega)
    rw [wire_cons]
    simpa [Outcome.bind] using hrest

theorem decodeName_wire {ls : List (List UInt8)} (hshort : Short ls) {rounds : ℕ}
    (hrounds : ls.length < rounds) (rest : List UInt8) :
    decodeName rounds (wire ls ++ 0 :: rest) = some (ls, rest) := by
  induction ls generalizing rounds with
  | nil =>
    cases rounds with
    | zero => cases hrounds
    | succ rounds => rfl
  | cons l ls ih =>
    obtain ⟨hl, hshort⟩ := forall_mem_cons.1 hshort
    obtain ⟨rounds, rfl⟩ : ∃ k, rounds = k + 1 := ⟨rounds - 1, by omega⟩
    have hlen : (UInt8.ofNat l.length).toNat = l.length := by
      rw [UInt8.toNat_ofNat', mod_eq_of_lt (by omega)]
    have hne : UInt8.ofNat l.length ≠ 0 := fun h => by simp [h] at hlen; omega
    rw [wire_cons, cons_append, decodeName, if_neg hne, hlen]
    simp [ih hshort (lt_of_succ_lt_succ hrounds), not_lt.2 hl.2]

theorem short_of_decodeName {rounds : ℕ} {msg rest : List UInt8} {ls : List (List UInt8)}
    (h : decodeName rounds msg = some (ls, rest)) :
    Short ls ∧ msg.length = (wire ls).length + 1 + rest.length := by
  induction rounds generalizing msg ls with
  | zero => cases h
  | succ rounds ih =>
    cases msg with
    | nil => cases h
    | cons b msg =>
      rw [decodeName] at h
      split_ifs at h with hzero hbad
      · cases h
        exact ⟨nofun, by simp [wire]; omega⟩
      · obtain ⟨⟨ls', rest'⟩, hls, heq⟩ := Option.map_eq_some_iff.1 h
        simp only [Prod.mk.injEq] at heq
        obtain ⟨rfl, rfl⟩ := heq
        obtain ⟨hshort, hlen⟩ := ih hls
        have hpos : b.toNat ≠ 0 := fun h => hzero (UInt8.toNat_inj.1 h)
        have htake : (msg.take b.toNat).length = b.toNat := length_take_of_le (by omega)
        rw [length_drop] at hlen
        refine ⟨forall_mem_cons.2 ⟨by omega, hshort⟩, ?_⟩
        rw [wire_cons, length_cons, length_cons, length_append, htake]
        omega

theorem dnsPut_ne_reject (buf bytes : List UInt8) : dnsPut buf bytes ≠ .reject := by
  unfold dnsPut
  split_ifs <;> simp

theorem bind_ne_reject {x : Outcome (List UInt8)} {f : List UInt8 → Outcome (List UInt8)}
    (hx : x ≠ .reject) (hf : ∀ buf, f buf ≠ .reject) : x.bind f ≠ .reject := by
  cases x with
  | ok buf => exact hf buf
  | reject => exact absurd rfl hx
  | fault => simp [Outcome.bind]
  | endless => simp [Outcome.bind]

theorem dnsEncodeName_ne_reject (rounds : ℕ) (name buf : List UInt8) :
    dnsEncodeName rounds name buf ≠ .reject := by
  induction rounds generalizing name buf with
  | zero => exact dnsPut_ne_reject buf [0]
  | succ rounds ih =>
    cases name with
    | nil => exact dnsPut_ne_reject buf [0]
    | cons c name =>
      rw [dnsEncodeName]
      split_ifs
      · exact dnsPut_ne_reject buf [0]
      · exact bind_ne_reject (dnsPut_ne_reject buf _) fun buf => ih _ buf

theorem dnsDatagram_eq_reject_iff (s : NetState) (c : Config) (ringsReady : Bool)
    (hostname : List UInt8) : dnsDatagram s c ringsReady hostname = .reject ↔
      LooseQuad hostname ∨ c.hasConfig = false ∨ ringsReady = false ∨ c.dns = zeroIp := by
  have hloose : (parseIp4 hostname).isSome ↔ LooseQuad hostname := by
    rw [Option.isSome_iff_exists]
    exact ⟨fun ⟨ip, hip⟩ => looseQuad_of_parseIp4 hip, LooseQuad.parsed⟩
  rw [dnsDatagram, ← hloose]
  split_ifs with hreject
  · exact iff_of_true rfl hreject
  · exact iff_of_false (bind_ne_reject (dnsEncodeName_ne_reject _ _ _)
      fun buf => dnsPut_ne_reject buf _) hreject

/-- A host name that is no address and is asked for, with a configuration, the rings and a name
server, is asked for as it is exactly when its labels have 1 to 63 bytes and the query has room for
them. -/
theorem dnsDatagram_asksFor_iff (s : NetState) (c : Config) (ringsReady : Bool)
    (hostname : List UInt8) :
    AsksFor (dnsDatagram s c ringsReady hostname) hostname ↔
      (LooseQuad hostname ∨ c.hasConfig = false ∨ ringsReady = false ∨ c.dns = zeroIp) ∨
        ∃ ls, IsLabels hostname ls ∧ Short ls ∧ 12 + (wire ls).length + 5 ≤ 512 := by
  rw [← dnsDatagram_eq_reject_iff s]
  constructor
  · rintro (h | ⟨q, ls, -, hle, hdecode, hls⟩)
    · exact .inl h
    · obtain ⟨hshort, hlen⟩ := short_of_decodeName hdecode
      refine .inr ⟨ls, hls, hshort, ?_⟩
      simp only [length_drop, length_cons, length_nil] at hlen
      omega
  · rintro (h | ⟨ls, hls, hshort, hroom⟩)
    · exact .inl h
    · rw [dnsDatagram]
      split_ifs with hreject
      · exact .inl rfl
      · rw [dnsEncodeName_eq hshort hls le_rfl (by simp; omega), Outcome.bind, dnsPut,
          if_pos (by simp; omega)]
        refine .inr ⟨_, ls, rfl, by simp; omega, ?_, hls⟩
        rw [append_assoc, append_assoc]
        exact decodeName_wire hshort (by simp [wire]; omega) _

/-- The query for `a..b` asks for `a`. -/
theorem emptyLabel_dropped :
    ¬ AsksFor (dnsDatagram Net.freshClient { netInit with hasConfig := true, dns := #v[8, 8, 8, 8] }
      true (asciiBytes "a..b")) (asciiBytes "a..b") := by
  rintro (h | ⟨q, ls, h, -, hdecode, -, hls⟩)
  · exact absurd h (by decide)
  · obtain rfl : [0xD0, 0, 1, 0, 0, 1, 0, 0, 0, 0, 0, 0, 1, 0x61, 0, 0, 1, 0, 1] = q :=
      Outcome.ok.inj h
    obtain rfl : [[0x61]] = ls := congrArg Prod.fst (Option.some.inj hdecode)
    exact absurd hls (by decide)

end MicroK.NetConfig
