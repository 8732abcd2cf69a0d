import Mathlib.Tactic

/-!
# Key derivation of the WPA2 code

SHA-1, HMAC-SHA1, the passphrase hash and the pairwise key expansion of `wpa2_crypto.c`, over lists
of bytes. A hash context holds the bytes of the block that is not yet full; what is left in the
rest of the block is never read before it is overwritten.
-/

namespace MicroK.Wpa2

def rol32 (value count : UInt32) : UInt32 := (value <<< count) ||| (value >>> (32 - count))

def beWord (b : List UInt8) (i : ℕ) : UInt32 :=
  ((b.getD i 0).toUInt32 <<< 24) ||| ((b.getD (i + 1) 0).toUInt32 <<< 16) |||
    ((b.getD (i + 2) 0).toUInt32 <<< 8) ||| (b.getD (i + 3) 0).toUInt32

def wordBytes (w : UInt32) : List UInt8 :=
  [(w >>> 24).toUInt8, (w >>> 16).toUInt8, (w >>> 8).toUInt8, w.toUInt8]

structure Sha1Words where
  a : UInt32
  b : UInt32
  c : UInt32
  d : UInt32
  e : UInt32
deriving DecidableEq, Repr

def sha1Schedule (block : List UInt8) : ℕ → List UInt32
  | 0 => (List.range 16).map fun i => beWord block (4 * i)
  | n + 1 =>
    let w := sha1Schedule block n
    let i := 16 + n
    w ++ [rol32 (w.getD (i - 3) 0 ^^^ w.getD (i - 8) 0 ^^^ w.getD (i - 14) 0 ^^^
      w.getD (i - 16) 0) 1]

def sha1Round (s : Sha1Words) (i : ℕ) (w : UInt32) : Sha1Words :=
  let f := if i < 20 then (s.b &&& s.c) ||| (~~~s.b &&& s.d)
    else if i < 40 then s.b ^^^ s.c ^^^ s.d
    else if i < 60 then (s.b &&& s.c) ||| (s.b &&& s.d) ||| (s.c &&& s.d)
    else s.b ^^^ s.c ^^^ s.d
  let k : UInt32 := if i < 20 then 0x5A827999 else if i < 40 then 0x6ED9EBA1
    else if i < 60 then 0x8F1BBCDC else 0xCA62C1D6
  { a := rol32 s.a 5 + f + s.e + k + w, b := s.a, c := rol32 s.b 30, d := s.c, e := s.d }

def sha1Transform (h : Sha1Words) (block : List UInt8) : Sha1Words :=
  let w := sha1Schedule block 64
  let s := (List.range 80).foldl (fun s i => sha1Round s i (w.getD i 0)) h
  { a := h.a + s.a, b := h.b + s.b, c := h.c + s.c, d := h.d + s.d, e := h.e + s.e }

structure Sha1Context where
  h : Sha1Words
  bytes : ℕ
  block : List UInt8
deriving DecidableEq, Repr

def sha1Init : Sha1Context where
  h := ⟨0x67452301, 0xEFCDAB89, 0x98BADCFE, 0x10325476, 0xC3D2E1F0⟩
  bytes := 0
  block := []

def sha1Absorb : ℕ → Sha1Context → List UInt8 → Sha1Context
  | 0, ctx, _ => ctx
  | n + 1, ctx, data =>
    if data = [] then ctx
    else
      let take := min (64 - ctx.block.length) data.length
      let block := ctx.block ++ data.take take
      if block.length = 64 then
        sha1Absorb n { ctx with h := sha1Transform ctx.h block, block := [] } (data.drop take)
      else sha1Absorb n { ctx with block := block } (data.drop take)

variable (ctx : Sha1Context)

def sha1Update (data : List UInt8) : Sha1Context :=
  sha1Absorb data.length { ctx with bytes := (ctx.bytes + data.length) % 2 ^ 64 } data

def sha1Final : List UInt8 :=
  let bits := ctx.bytes * 8 % 2 ^ 64
  let block := ctx.block ++ [0x80]
  let (h, block) := if 56 < block.length
    then (sha1Transform ctx.h (block ++ List.replicate (64 - block.length) 0), [])
    else (ctx.h, block)
  let length := (List.range 8).map fun i => UInt8.ofNat (bits / 256 ^ (7 - i))
  let h := sha1Transform h (block ++ List.replicate (56 - block.length) 0 ++ length)
  wordBytes h.a ++ wordBytes h.b ++ wordBytes h.c ++ wordBytes h.d ++ wordBytes h.e

def sha1 (data : List UInt8) : List UInt8 := sha1Final (sha1Update sha1Init data)

def hmacSha1 (key data : List UInt8) : List UInt8 :=
  let key := if 64 < key.length then sha1 key else key
  let k := (key ++ List.replicate (64 - key.length) 0).map (· ^^^ 0x36)
  let inner := sha1Final (sha1Update (sha1Update sha1Init k) data)
  let k := k.map (· ^^^ (0x36 ^^^ 0x5C))
  sha1Final (sha1Update (sha1Update sha1Init k) inner)

@[simp] theorem length_sha1Final : (sha1Final ctx).length = 20 := by
  simp [sha1Final, wordBytes]

@[simp] theorem length_hmacSha1 (key data : List UInt8) : (hmacSha1 key data).length = 20 :=
  length_sha1Final _

def pbkdf2Loop (pass : List UInt8) : ℕ → List UInt8 → List UInt8 → List UInt8
  | 0, _, out => out
  | n + 1, u, out =>
    let u := hmacSha1 pass u
    pbkdf2Loop pass n u (List.zipWith (· ^^^ ·) out u)

def pbkdf2Block (pass ssid : List UInt8) (block : UInt32) : List UInt8 :=
  let u := hmacSha1 pass (ssid ++ wordBytes block)
  pbkdf2Loop pass 4095 u u

/-- A missing passphrase counts as an empty one. -/
def derivePmk (passphrase ssid : List UInt8) : Option (List UInt8) :=
  if passphrase.length < 8 ∨ 63 < passphrase.length ∨ ssid.length = 0 ∨ 32 < ssid.length then none
  else some (pbkdf2Block passphrase ssid 1 ++ (pbkdf2Block passphrase ssid 2).take 12)

def byteLess : List UInt8 → List UInt8 → Bool
  | a :: as, b :: bs => if a < b then true else if b < a then false else byteLess as bs
  | _, _ => false

def ptkLabel : List UInt8 :=
  [0x50, 0x61, 0x69, 0x72, 0x77, 0x69, 0x73, 0x65, 0x20, 0x6B, 0x65, 0x79, 0x20, 0x65, 0x78, 0x70,
    0x61, 0x6E, 0x73, 0x69, 0x6F, 0x6E, 0]

def derivePtk (pmk aa spa anonce snonce : List UInt8) : List UInt8 :=
  let macs := if byteLess aa spa then aa ++ spa else spa ++ aa
  let nonces := if byteLess anonce snonce then anonce ++ snonce else snonce ++ anonce
  let digest := fun counter : UInt8 => hmacSha1 pmk (ptkLabel ++ macs ++ nonces ++ [counter])
  digest 0 ++ digest 1 ++ digest 2 ++ (digest 3).take 4

def constantTimeEqual (a b : List UInt8) : Bool :=
  (List.zipWith (· ^^^ ·) a b).foldl (· ||| ·) 0 == 0

theorem constantTimeEqual_self (a : List UInt8) : constantTimeEqual a a = true := by
  have hzero : List.zipWith (· ^^^ ·) a a = List.replicate a.length 0 := by simp
  have hfold : ∀ n : ℕ, (List.replicate n (0 : UInt8)).foldl (· ||| ·) 0 = 0 := by
    intro n
    induction n with
    | zero => rfl
    | succ n ih => simpa [List.replicate_succ] using ih
  rw [constantTimeEqual, hzero, hfold]
  rfl

example : sha1 [0x61, 0x62, 0x63] =
    [0xA9, 0x99, 0x3E, 0x36, 0x47, 0x06, 0x81, 0x6A, 0xBA, 0x3E, 0x25, 0x71, 0x78, 0x50, 0xC2, 0x6C,
      0x9C, 0xD0, 0xD8, 0x9D] := by decide +kernel

end MicroK.Wpa2
