import Mathlib.Data.List.GetD
import MicroK.BlockHash
import MicroK.Wpa2Crypto
import MicroK.BlockDevice

/-!
# The hash and the keyed hash of the WPA2 code

A context holds the value of the whole blocks of what was hashed so far, and the bytes behind them.
This is kept by every call of `sha1_update`, so the way a message is split does not matter, and
`sha1_final` appends the padding of the standard. The keyed hash reads its key and its data before
it writes its result, so the result may lie over either.
-/

namespace MicroK.Fips180

structure Words where
  a : UInt32
  b : UInt32
  c : UInt32
  d : UInt32
  e : UInt32

def rotl (n : UInt32) (x : UInt32) : UInt32 := (x <<< n) ||| (x >>> (32 - n))

variable (x y z : UInt32)

def ch : UInt32 := (x &&& y) ^^^ (~~~x &&& z)

def parity : UInt32 := x ^^^ y ^^^ z

def maj : UInt32 := (x &&& y) ^^^ (x &&& z) ^^^ (y &&& z)

def logical (t : ℕ) : UInt32 → UInt32 → UInt32 → UInt32 :=
  if t ≤ 19 then ch else if t ≤ 39 then parity else if t ≤ 59 then maj else parity

def constant (t : ℕ) : UInt32 :=
  if t ≤ 19 then 0x5a827999 else if t ≤ 39 then 0x6ed9eba1 else if t ≤ 59 then 0x8f1bbcdc
  else 0xca62c1d6

def messageWord (block : List UInt8) (t : ℕ) : UInt32 :=
  ((block.getD (4 * t) 0).toUInt32 <<< 24) ||| ((block.getD (4 * t + 1) 0).toUInt32 <<< 16) |||
    ((block.getD (4 * t + 2) 0).toUInt32 <<< 8) ||| (block.getD (4 * t + 3) 0).toUInt32

def schedule (block : List UInt8) (t : ℕ) : UInt32 :=
  if t < 16 then messageWord block t
  else rotl 1 (schedule block (t - 3) ^^^ schedule block (t - 8) ^^^ schedule block (t - 14) ^^^
    schedule block (t - 16))
termination_by t

def round (block : List UInt8) (w : Words) (t : ℕ) : Words where
  a := rotl 5 w.a + logical t w.b w.c w.d + w.e + constant t + schedule block t
  b := w.a
  c := rotl 30 w.b
  d := w.c
  e := w.d

def rounds (block : List UInt8) (h : Words) : ℕ → Words
  | 0 => h
  | t + 1 => round block (rounds block h t) t

def compress (h : Words) (block : List UInt8) : Words :=
  let w := rounds block h 80
  ⟨h.a + w.a, h.b + w.b, h.c + w.c, h.d + w.d, h.e + w.e⟩

def initial : Words := ⟨0x67452301, 0xefcdab89, 0x98badcfe, 0x10325476, 0xc3d2e1f0⟩

/-- The smallest number of zero bytes that leaves room for the length at the end of a block. -/
def padZeros (n : ℕ) : ℕ := (119 - n % 64) % 64

def lengthBytes (n : ℕ) : List UInt8 :=
  (List.range 8).map fun i => UInt8.ofNat (8 * n / 256 ^ (7 - i))

def pad (msg : List UInt8) : List UInt8 :=
  msg ++ ([0x80] ++ List.replicate (padZeros msg.length) 0 ++ lengthBytes msg.length)

def bytes (x : UInt32) : List UInt8 :=
  [(x >>> 24).toUInt8, (x >>> 16).toUInt8, (x >>> 8).toUInt8, x.toUInt8]

def digest (h : Words) : List UInt8 := bytes h.a ++ bytes h.b ++ bytes h.c ++ bytes h.d ++ bytes h.e

def sha1 (msg : List UInt8) : List UInt8 :=
  digest (BlockHash.chain 64 compress initial (pad msg))

end MicroK.Fips180

namespace MicroK.Rfc2104

variable (hash : List UInt8 → List UInt8)

/-- A key longer than a block is hashed, and a shorter one is filled up with zeros. -/
def blockKey (size : ℕ) (key : List UInt8) : List UInt8 :=
  let k := if size < key.length then hash key else key
  k ++ List.replicate (size - k.length) 0

def hmac (size : ℕ) (key data : List UInt8) : List UInt8 :=
  let k := blockKey hash size key
  hash (k.map (· ^^^ 0x5C) ++ hash (k.map (· ^^^ 0x36) ++ data))

end MicroK.Rfc2104

namespace MicroK.Wpa2

open List

theorem rol32_eq (x n : UInt32) : rol32 x n = Fips180.rotl n x := rfl

theorem or_eq_ch (x y z : UInt32) : (x &&& y) ||| (~~~x &&& z) = Fips180.ch x y z := by
  refine UInt32.eq_of_toBitVec_eq (BitVec.eq_of_getLsbD_eq fun i hi => ?_)
  simp only [Fips180.ch, UInt32.toBitVec_or, UInt32.toBitVec_and, UInt32.toBitVec_not,
    UInt32.toBitVec_xor, BitVec.getLsbD_or, BitVec.getLsbD_and, BitVec.getLsbD_not,
    BitVec.getLsbD_xor]
  cases x.toBitVec.getLsbD i <;> simp

theorem or_eq_maj (x y z : UInt32) :
    (x &&& y) ||| (x &&& z) ||| (y &&& z) = Fips180.maj x y z := by
  refine UInt32.eq_of_toBitVec_eq (BitVec.eq_of_getLsbD_eq fun i hi => ?_)
  simp only [Fips180.maj, UInt32.toBitVec_or, UInt32.toBitVec_and, UInt32.toBitVec_xor,
    BitVec.getLsbD_or, BitVec.getLsbD_and, BitVec.getLsbD_xor]
  cases x.toBitVec.getLsbD i <;> cases y.toBitVec.getLsbD i <;> simp

variable (block : List UInt8)

theorem length_sha1Schedule (n : ℕ) : (sha1Schedule block n).length = 16 + n := by
  induction n with
  | zero => simp [sha1Schedule]
  | succ n ih => simp [sha1Schedule, ih, Nat.add_assoc]

theorem beWord_eq (t : ℕ) :
    beWord block (4 * t) = Fips180.messageWord block t := rfl

theorem sha1Schedule_getD {n t : ℕ} (ht : t < 16 + n) :
    (sha1Schedule block n).getD t 0 = Fips180.schedule block t := by
  induction n generalizing t with
  | zero =>
    rw [Fips180.schedule, if_pos (by omega), ← beWord_eq]
    simp [sha1Schedule, show t < 16 by omega]
  | succ n ih =>
    have hlen := length_sha1Schedule block n
    rcases Nat.lt_or_ge t (16 + n) with hold | hnew
    · rw [sha1Schedule, getD_append _ _ _ _ (by omega), ih hold]
    · obtain rfl : t = 16 + n := by omega
      rw [sha1Schedule, getD_append_right _ _ _ _ (by omega), hlen, Nat.sub_self,
        getD_cons_zero, Fips180.schedule, if_neg (by omega)]
      rw [ih (t := 16 + n - 3) (by omega), ih (t := 16 + n - 8) (by omega),
        ih (t := 16 + n - 14) (by omega), ih (t := 16 + n - 16) (by omega), rol32_eq]

def Sha1Words.toFips (s : Sha1Words) : Fips180.Words := ⟨s.a, s.b, s.c, s.d, s.e⟩

theorem sha1Round_eq (s : Sha1Words) (t : ℕ) :
    (sha1Round s t (Fips180.schedule block t)).toFips = Fips180.round block s.toFips t := by
  have h20 : t < 20 ↔ t ≤ 19 := by omega
  have h40 : t < 40 ↔ t ≤ 39 := by omega
  have h60 : t < 60 ↔ t ≤ 59 := by omega
  rw [sha1Round, Fips180.round, Fips180.logical, Fips180.constant]
  simp only [Sha1Words.toFips, rol32_eq, or_eq_ch, or_eq_maj, h20, h40, h60,
    Fips180.Words.mk.injEq, and_true]
  split_ifs <;> rfl

theorem sha1Rounds_eq (h : Sha1Words) {n : ℕ} (hn : n ≤ 80) :
    ((List.range n).foldl (fun s i => sha1Round s i ((sha1Schedule block 64).getD i 0)) h).toFips =
      Fips180.rounds block h.toFips n := by
  induction n with
  | zero => rfl
  | succ n ih =>
    rw [range_succ, foldl_append, foldl_cons, foldl_nil,
      sha1Schedule_getD block (by omega), sha1Round_eq, ih (by omega)]
    rfl

theorem sha1Transform_eq (h : Sha1Words) (block : List UInt8) :
    (sha1Transform h block).toFips = Fips180.compress h.toFips block := by
  rw [sha1Transform, Fips180.compress, ← sha1Rounds_eq block h le_rfl]
  rfl

open BlockHash

structure Sha1Context.Absorbed (ctx : Sha1Context) (msg : List UInt8) : Prop where
  words : ctx.h.toFips = chain 64 Fips180.compress Fips180.initial msg
  block : ctx.block = rest 64 msg

structure Sha1Context.Holds (ctx : Sha1Context) (msg : List UInt8) : Prop
    extends ctx.Absorbed msg where
  bytes : ctx.bytes = msg.length % 2 ^ 64

theorem sha1Init_holds : sha1Init.Holds [] := ⟨⟨rfl, rfl⟩, rfl⟩

section

variable {ctx : Sha1Context} {msg data : List UInt8}

theorem Sha1Context.Absorbed.keep (hctx : ctx.Absorbed msg) (data : List UInt8)
    (hshort : ctx.block.length + data.length < 64) :
    Absorbed { ctx with block := ctx.block ++ data } (msg ++ data) := by
  rw [hctx.block] at hshort
  exact ⟨hctx.words.trans (chain_append_of_lt hshort).symm,
    by rw [rest_append_of_lt hshort, ← hctx.block]⟩

theorem Sha1Context.Absorbed.transform (hctx : ctx.Absorbed msg) (data : List UInt8)
    (hfull : ctx.block.length + data.length = 64) :
    Absorbed { ctx with h := sha1Transform ctx.h (ctx.block ++ data), block := [] }
      (msg ++ data) := by
  rw [hctx.block] at hfull
  refine ⟨?_, (rest_append_of_eq hfull (by decide)).symm⟩
  rw [chain_append_of_eq hfull (by decide), ← hctx.words, ← hctx.block]
  exact sha1Transform_eq _ _

theorem Sha1Context.Absorbed.length_block_lt (hctx : ctx.Absorbed msg) : ctx.block.length < 64 := by
  rw [hctx.block, length_rest]
  exact Nat.mod_lt _ (by decide)

theorem sha1Absorb_absorbed {n : ℕ} (hn : data.length ≤ n) (hctx : ctx.Absorbed msg) :
    (sha1Absorb n ctx data).Absorbed (msg ++ data) ∧ (sha1Absorb n ctx data).bytes = ctx.bytes := by
  induction n generalizing ctx msg data with
  | zero =>
    obtain rfl : data = [] := length_eq_zero_iff.mp (by omega)
    rw [append_nil]
    exact ⟨hctx, rfl⟩
  | succ n ih =>
    rw [sha1Absorb]
    by_cases hdata : data = []
    · rw [if_pos hdata, hdata, append_nil]
      exact ⟨hctx, rfl⟩
    have hroom := hctx.length_block_lt
    rw [if_neg hdata]
    dsimp only
    generalize htake : min (64 - ctx.block.length) data.length = take
    have hlength : (data.take take).length = take := by rw [length_take]; omega
    have hleft : (data.drop take).length ≤ n := by rw [length_drop]; omega
    have hsplit : msg ++ data = msg ++ data.take take ++ data.drop take := by
      rw [append_assoc, take_append_drop]
    rw [hsplit, length_append, hlength]
    by_cases hfull : ctx.block.length + take = 64
    · rw [if_pos hfull]
      exact ih hleft (hctx.transform _ (by omega))
    · rw [if_neg hfull]
      exact ih hleft (hctx.keep _ (by omega))

theorem sha1Update_holds (hctx : ctx.Holds msg) (data : List UInt8) :
    (sha1Update ctx data).Holds (msg ++ data) := by
  have hstart : Sha1Context.Absorbed { ctx with bytes := (ctx.bytes + data.length) % 2 ^ 64 } msg :=
    ⟨hctx.words, hctx.block⟩
  obtain ⟨habsorbed, hbytes⟩ := sha1Absorb_absorbed le_rfl hstart
  refine ⟨habsorbed, hbytes.trans ?_⟩
  rw [hctx.bytes, length_append, Nat.mod_add_mod]

theorem sha1Update_foldl_holds (hctx : ctx.Holds msg) (chunks : List (List UInt8)) :
    (chunks.foldl sha1Update ctx).Holds (msg ++ chunks.flatten) := by
  induction chunks generalizing ctx msg with
  | nil => simpa using hctx
  | cons chunk chunks ih =>
    rw [flatten_cons, ← append_assoc]
    exact ih (sha1Update_holds hctx chunk)

end

section

variable {ctx : Sha1Context} {msg : List UInt8}

theorem padZeros_of_lt {n : ℕ} (h : n % 64 < 56) : Fips180.padZeros n = 55 - n % 64 := by
  rw [Fips180.padZeros]
  omega

theorem padZeros_of_ge {n : ℕ} (h : 56 ≤ n % 64) : Fips180.padZeros n = 63 - n % 64 + 56 := by
  rw [Fips180.padZeros]
  omega

@[simp] theorem length_lengthBytes (n : ℕ) : (Fips180.lengthBytes n).length = 8 := by
  simp [Fips180.lengthBytes]

theorem wordBytes_eq_sha1 {h : Sha1Words}
    (hh : h.toFips = chain 64 Fips180.compress Fips180.initial (Fips180.pad msg)) :
    wordBytes h.a ++ wordBytes h.b ++ wordBytes h.c ++ wordBytes h.d ++ wordBytes h.e =
      Fips180.sha1 msg := by
  rw [Fips180.sha1, ← hh]
  rfl

theorem sha1Final_eq (hctx : ctx.Holds msg) (hlength : msg.length < 2 ^ 61) :
    sha1Final ctx = Fips180.sha1 msg := by
  have hbits : ctx.bytes * 8 % 2 ^ 64 = 8 * msg.length := by
    rw [hctx.bytes]
    omega
  have hused : ctx.block.length = msg.length % 64 := by rw [hctx.block, length_rest]
  rw [sha1Final, hbits, ← Fips180.lengthBytes]
  dsimp only
  rw [length_append, length_singleton, hused]
  by_cases hlong : 56 < msg.length % 64 + 1
  · have hfirst := hctx.transform ([0x80] ++ List.replicate (64 - (msg.length % 64 + 1)) 0)
      (by simp; omega)
    have hsecond := hfirst.transform (List.replicate 56 0 ++ Fips180.lengthBytes msg.length)
      (by simp)
    have hpad : Fips180.pad msg =
      msg ++ ([0x80] ++ List.replicate (64 - (msg.length % 64 + 1)) 0) ++
        (List.replicate 56 0 ++ Fips180.lengthBytes msg.length) := by
      rw [Fips180.pad, padZeros_of_ge (by omega), replicate_add,
        show 64 - (msg.length % 64 + 1) = 63 - msg.length % 64 by omega]
      simp
    rw [if_pos hlong]
    apply wordBytes_eq_sha1 (h := sha1Transform _ _)
    rw [hpad, ← hsecond.words, append_assoc ctx.block]
    rfl
  · have hlast := hctx.transform ([0x80] ++ List.replicate (56 - (msg.length % 64 + 1)) 0 ++
      Fips180.lengthBytes msg.length) (by simp; omega)
    have hpad : Fips180.pad msg = msg ++ ([0x80] ++ List.replicate (56 - (msg.length % 64 + 1)) 0 ++
        Fips180.lengthBytes msg.length) := by
      rw [Fips180.pad, padZeros_of_lt (by omega),
        show 56 - (msg.length % 64 + 1) = 55 - msg.length % 64 by omega]
    rw [if_neg hlong]
    apply wordBytes_eq_sha1 (h := sha1Transform _ _)
    rw [hpad, ← hlast.words, length_append, length_singleton, hused]
    simp

theorem sha1_eq (data : List UInt8) (hlength : data.length < 2 ^ 61) :
    sha1 data = Fips180.sha1 data :=
  sha1Final_eq (sha1Update_holds sha1Init_holds data) hlength

end

theorem padKey_map (k : List UInt8) :
    (k.map (· ^^^ 0x36)).map (· ^^^ (0x36 ^^^ 0x5C)) = k.map (· ^^^ 0x5C) := by
  rw [map_map]
  refine map_congr_left fun x _ => ?_
  rw [Function.comp_apply, ← UInt8.xor_assoc, UInt8.xor_assoc x, UInt8.xor_self, UInt8.xor_zero]

@[simp] theorem length_fipsSha1 (msg : List UInt8) : (Fips180.sha1 msg).length = 20 := by
  simp [Fips180.sha1, Fips180.digest, Fips180.bytes]

theorem length_blockKey (key : List UInt8) :
    (Rfc2104.blockKey Fips180.sha1 64 key).length = 64 := by
  rw [Rfc2104.blockKey]
  split_ifs with hlong
  · simp
  · rw [length_append, length_replicate]
    omega

theorem hmacSha1_eq {key data : List UInt8} (hkey : key.length < 2 ^ 32)
    (hdata : data.length < 2 ^ 32) : hmacSha1 key data = Rfc2104.hmac Fips180.sha1 64 key data := by
  have hk : (let k := if 64 < key.length then sha1 key else key
      k ++ List.replicate (64 - k.length) 0) = Rfc2104.blockKey Fips180.sha1 64 key := by
    rw [sha1_eq key (by omega), Rfc2104.blockKey]
  have htwice : ∀ k text : List UInt8, k.length = 64 → text.length < 2 ^ 32 →
      sha1Final (sha1Update (sha1Update sha1Init k) text) = Fips180.sha1 (k ++ text) := by
    intro k text hk htext
    exact sha1Final_eq (sha1Update_holds (sha1Update_holds sha1Init_holds k) text)
      (by simp only [length_append]; omega)
  rw [hmacSha1]
  rw [hk, padKey_map, htwice _ data (by simp [length_blockKey]) hdata,
    htwice _ _ (by simp [length_blockKey]) (by simp)]
  rfl

end MicroK.Wpa2

namespace MicroK

variable (mem : Buf)

def Buf.bytes (pos n : ℕ) : List UInt8 := (List.range n).map fun i => mem (pos + i)

def Buf.store (pos : ℕ) (l : List UInt8) : Buf :=
  mem.copyAt pos l.length fun i => l.getD i 0

@[simp] theorem Buf.length_bytes (pos n : ℕ) : (mem.bytes pos n).length = n := by
  simp [Buf.bytes]

theorem Buf.bytes_store (pos : ℕ) (l : List UInt8) :
    (mem.store pos l).bytes pos l.length = l := by
  refine List.ext_getElem (by simp) fun i hi hi' => ?_
  simp only [Buf.bytes, List.getElem_map, List.getElem_range]
  rw [Buf.store, Buf.copyAt_of_mem (by omega) (by omega), Nat.add_sub_cancel_left,
    List.getD_eq_getElem _ _ hi']

end MicroK

namespace MicroK.Wpa2

/-- `wpa2_hmac_sha1` on memory: the key block, the inner digest and the contexts are on the stack,
and the caller's memory is read where the key and the data lie and written where the result goes. -/
def hmacSha1At (mem : Buf) (key : ℕ) (keyLength : UInt32) (data : ℕ) (dataLength : UInt32)
    (out : ℕ) : Buf :=
  let k := if 64 < keyLength then sha1 (mem.bytes key keyLength.toNat)
    else mem.bytes key keyLength.toNat
  let k := (k ++ List.replicate (64 - k.length) 0).map (· ^^^ 0x36)
  let inner := sha1Final (sha1Update (sha1Update sha1Init k) (mem.bytes data dataLength.toNat))
  let k := k.map (· ^^^ (0x36 ^^^ 0x5C))
  mem.store out (sha1Final (sha1Update (sha1Update sha1Init k) inner))

theorem hmacSha1At_eq (mem : Buf) (key : ℕ) (keyLength : UInt32) (data : ℕ) (dataLength : UInt32)
    (out : ℕ) : hmacSha1At mem key keyLength data dataLength out =
      mem.store out (hmacSha1 (mem.bytes key keyLength.toNat)
        (mem.bytes data dataLength.toNat)) := by
  have hlong : 64 < keyLength ↔ 64 < (mem.bytes key keyLength.toNat).length := by
    rw [Buf.length_bytes, UInt32.lt_iff_toNat_lt]
    rfl
  rw [hmacSha1At, hmacSha1]
  simp only [hlong]

/-- The hash of a message is that of FIPS 180 however the message is split, and the keyed hash is
that of RFC 2104 for every place of its key, its data and its result in memory. -/
theorem sha1_hmac_correct :
    (∀ (msg : List UInt8) (chunks : List (List UInt8)), msg.length < 2 ^ 29 →
      chunks.flatten = msg →
      sha1Final (chunks.foldl sha1Update sha1Init) = Fips180.sha1 msg) ∧
    ∀ (mem : Buf) (key : ℕ) (keyLength : UInt32) (data : ℕ) (dataLength : UInt32) (out : ℕ),
      (hmacSha1At mem key keyLength data dataLength out).bytes out 20 =
        Rfc2104.hmac Fips180.sha1 64 (mem.bytes key keyLength.toNat)
          (mem.bytes data dataLength.toNat) ∧
      ∀ j, j < out ∨ out + 20 ≤ j → hmacSha1At mem key keyLength data dataLength out j = mem j := by
  constructor
  · rintro msg chunks hlength rfl
    exact sha1Final_eq (sha1Update_foldl_holds sha1Init_holds chunks)
      (hlength.trans (by decide))
  · intro mem key keyLength data dataLength out
    have hkey := keyLength.toNat_lt
    have hdata := dataLength.toNat_lt
    rw [hmacSha1At_eq]
    generalize hdigest : hmacSha1 (mem.bytes key keyLength.toNat)
      (mem.bytes data dataLength.toNat) = digest
    have hlength : digest.length = 20 := by rw [← hdigest, length_hmacSha1]
    refine ⟨?_, fun j hj => Buf.copyAt_of_not_mem (by omega)⟩
    rw [← hlength, Buf.bytes_store, ← hdigest]
    exact hmacSha1_eq (by simpa using hkey) (by simpa using hdata)

theorem sha1_hmac_correct_abc :
    sha1Final ([[0x61], [], [0x62, 0x63]].foldl sha1Update sha1Init) =
      Fips180.sha1 [0x61, 0x62, 0x63] :=
  sha1_hmac_correct.1 [0x61, 0x62, 0x63] [[0x61], [], [0x62, 0x63]] (by decide) rfl

end MicroK.Wpa2
