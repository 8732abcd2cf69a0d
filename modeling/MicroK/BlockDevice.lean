import MicroK.MachineWords

/-!
# Block devices and the world a file system runs in

A buffer is a map from byte offsets to bytes. A driver delivers some first part of the bytes it
is asked for and leaves the rest of the buffer as it was; a device may come without a write
function. The outcomes of `kmalloc`, the contents of fresh memory and the abort key are inputs
from outside. `diskDevice` is the device that keeps every byte and delivers all of them.
-/

namespace MicroK

open Nat

abbrev Buf := ℕ → UInt8

variable (b : Buf)

def le16 (i : ℕ) : ℕ := (b i).toNat + 256 * (b (i + 1)).toNat

def le32 (i : ℕ) : ℕ := le16 b i + 65536 * le16 b (i + 2)

/-- `memcpy` of `n` bytes to offset `off`. -/
def Buf.copyAt (off n : ℕ) (src : Buf) : Buf :=
  fun j => if off ≤ j ∧ j < off + n then src (j - off) else b j

def Buf.setLe32 (off v : ℕ) : Buf :=
  b.copyAt off 4 (fun j => UInt8.ofNat (v / 256 ^ j))

def Buf.from (off : ℕ) : Buf := fun j => b (off + j)

theorem Buf.copyAt_of_mem {b src : Buf} {off n j : ℕ} (hlo : off ≤ j) (hhi : j < off + n) :
    b.copyAt off n src j = src (j - off) := if_pos ⟨hlo, hhi⟩

theorem Buf.copyAt_of_not_mem {b src : Buf} {off n j : ℕ} (hj : j < off ∨ off + n ≤ j) :
    b.copyAt off n src j = b j := if_neg (by omega)

theorem Buf.copyAt_patch (b temp src : Buf) {off n o k : ℕ} (hk : o + k ≤ n) :
    b.copyAt off n ((temp.copyAt 0 n (b.from off)).copyAt o k src) = b.copyAt (off + o) k src := by
  funext x
  by_cases hx : off ≤ x ∧ x < off + n
  · rw [Buf.copyAt_of_mem hx.1 hx.2]
    by_cases hs : off + o ≤ x ∧ x < off + o + k
    · rw [Buf.copyAt_of_mem (by omega) (by omega), Buf.copyAt_of_mem hs.1 hs.2]
      exact congrArg src (by omega)
    · rw [Buf.copyAt_of_not_mem (by omega), Buf.copyAt_of_mem (zero_le _) (by omega),
        Buf.copyAt_of_not_mem (by omega), Buf.from]
      exact congrArg b (by omega)
  · rw [Buf.copyAt_of_not_mem (by omega), Buf.copyAt_of_not_mem (by omega)]

theorem Buf.copyAt_copyAt (b b' src : Buf) (off n : ℕ) :
    b.copyAt off n (b'.copyAt 0 n src) = b.copyAt off n src := by
  funext x
  by_cases hx : off ≤ x ∧ x < off + n
  · rw [Buf.copyAt_of_mem hx.1 hx.2, Buf.copyAt_of_mem hx.1 hx.2,
      Buf.copyAt_of_mem (Nat.zero_le _) (by omega), Nat.sub_zero]
  · rw [Buf.copyAt_of_not_mem (by omega), Buf.copyAt_of_not_mem (by omega)]

theorem le16_congr {b b' : Buf} {i i' : ℕ} (h : ∀ j < 2, b (i + j) = b' (i' + j)) :
    le16 b i = le16 b' i' := by
  have h0 := h 0 (by norm_num)
  have h1 := h 1 (by norm_num)
  simp only [add_zero] at h0
  rw [le16, le16, h0, h1]

theorem le32_congr {b b' : Buf} {i i' : ℕ} (h : ∀ j < 4, b (i + j) = b' (i' + j)) :
    le32 b i = le32 b' i' := by
  have hlow := le16_congr (fun j hj => h j (by omega))
  have hhigh : le16 b (i + 2) = le16 b' (i' + 2) := by
    refine le16_congr (fun j hj => ?_)
    rw [add_assoc, add_assoc]
    exact h (2 + j) (by omega)
  rw [le32, le32, hlow, hhigh]

variable (b : Buf)

theorem le32_lt (i : ℕ) : le32 b i < 2 ^ 32 := by
  have h0 := (b i).toNat_lt
  have h1 := (b (i + 1)).toNat_lt
  have h2 := (b (i + 2)).toNat_lt
  have h3 := (b (i + 2 + 1)).toNat_lt
  unfold le32 le16
  omega

theorem le32_setLe32_self (off : ℕ) {v : ℕ} (hv : v < 2 ^ 32) : le32 (b.setLe32 off v) off = v := by
  have hbyte : ∀ j < 4, b.setLe32 off v (off + j) = UInt8.ofNat (v / 256 ^ j) := by
    intro j hj
    rw [Buf.setLe32, Buf.copyAt_of_mem (by omega) (by omega), Nat.add_sub_cancel_left]
  have h0 := hbyte 0 (by norm_num)
  simp only [Nat.add_zero] at h0
  simp only [le32, le16, Nat.add_assoc, h0, hbyte 1 (by norm_num), hbyte 2 (by norm_num),
    hbyte 3 (by norm_num), UInt8.toNat_ofNat']
  omega

theorem Buf.setLe32_setLe32 (off v v' : ℕ) :
    (b.setLe32 off v).setLe32 off v' = b.setLe32 off v' := by
  funext j
  unfold Buf.setLe32
  by_cases hj : off ≤ j ∧ j < off + 4
  · rw [Buf.copyAt_of_mem hj.1 hj.2, Buf.copyAt_of_mem hj.1 hj.2]
  · rw [Buf.copyAt_of_not_mem (by omega), Buf.copyAt_of_not_mem (by omega),
      Buf.copyAt_of_not_mem (by omega)]

theorem Buf.setLe32_self (off : ℕ) : b.setLe32 off (le32 b off) = b := by
  funext j
  unfold Buf.setLe32
  by_cases hj : off ≤ j ∧ j < off + 4
  · rw [Buf.copyAt_of_mem hj.1 hj.2]
    obtain ⟨i, hi, rfl⟩ : ∃ i < 4, j = off + i := ⟨j - off, by omega, by omega⟩
    rw [Nat.add_sub_cancel_left, ← UInt8.toNat_inj, UInt8.toNat_ofNat']
    have h0 := (b off).toNat_lt
    have h1 := (b (off + 1)).toNat_lt
    have h2 := (b (off + 2)).toNat_lt
    have h3 := (b (off + 2 + 1)).toNat_lt
    unfold le32 le16
    interval_cases i
    · simp only [Nat.add_zero]
      omega
    · omega
    · omega
    · rw [show off + 3 = off + 2 + 1 from rfl]
      omega
  · rw [Buf.copyAt_of_not_mem (by omega)]

theorem le32_setLe32_of_disjoint {off i : ℕ} (v : ℕ) (h : i + 4 ≤ off ∨ off + 4 ≤ i) :
    le32 (b.setLe32 off v) i = le32 b i := by
  refine le32_congr (fun j hj => ?_)
  rw [Buf.setLe32, Buf.copyAt_of_not_mem (by omega)]

/-- A driver. Reading at an offset delivers a number of bytes and the bytes themselves. -/
structure Device (σ : Type) where
  blockSize : ℕ
  read : Option (σ → ℕ → ℕ → (ℕ × Buf) × σ)
  write : Option (σ → ℕ → ℕ → Buf → σ)

structure World (σ : Type) where
  dev : σ
  allocs : ℕ
  polls : ℕ

/-- What comes from outside: the outcome of each `kmalloc`, the bytes of fresh heap and stack
memory, and whether the abort key is down at each poll. -/
structure Env (σ : Type) where
  kmallocOk : ℕ → Bool
  heapBytes : ℕ → Buf
  stackBytes : World σ → Buf
  abort : ℕ → Bool

/-- A computation that runs in a world. -/
def Io (σ α : Type) : Type := World σ → α × World σ

namespace Io

variable {σ α β : Type}

instance : Monad (Io σ) where
  pure a := fun w => (a, w)
  bind x f := fun w => f (x w).1 (x w).2

@[simp] theorem pure_apply (a : α) (w : World σ) : (pure a : Io σ α) w = (a, w) := rfl

@[simp] theorem bind_apply (x : Io σ α) (f : α → Io σ β) (w : World σ) :
    (x >>= f) w = f (x w).1 (x w).2 := rfl

@[simp] theorem ite_apply (p : Prop) [Decidable p] (x y : Io σ α) (w : World σ) :
    (if p then x else y) w = if p then x w else y w := by
  split_ifs <;> rfl

end Io

variable {σ : Type}

def kmallocBuf (env : Env σ) : Io σ (Option Buf) := fun w =>
  (if env.kmallocOk w.allocs then some (env.heapBytes w.allocs) else none,
    { w with allocs := w.allocs + 1 })

variable (w : World σ)

def World.bump (n : ℕ) : World σ := { w with allocs := w.allocs + n }

@[simp] theorem World.bump_dev (n : ℕ) : (w.bump n).dev = w.dev := rfl

@[simp] theorem World.bump_allocs (n : ℕ) : (w.bump n).allocs = w.allocs + n := rfl

theorem World.bump_bump (n k : ℕ) : (w.bump n).bump k = w.bump (n + k) := by
  simp only [World.bump, add_assoc]

variable {env : Env σ}

theorem kmallocBuf_of_ok {w : World σ} (hok : env.kmallocOk w.allocs = true) :
    kmallocBuf env w = (some (env.heapBytes w.allocs), w.bump 1) := by
  simp only [kmallocBuf, hok, if_true, World.bump]

theorem kmallocBuf_of_fail {w : World σ} (hfail : env.kmallocOk w.allocs = false) :
    kmallocBuf env w = (none, w.bump 1) := by
  simp only [kmallocBuf, hfail, Bool.false_eq_true, if_false, World.bump]

variable {α : Type}

/-- A lookup delivers `r`, or nothing because memory ran out on the way. -/
def Delivers (env : Env σ) (x : Io σ (Option α)) (w : World σ) (r : Option α) : Prop :=
  ∃ n, x w = (r, w.bump n) ∨ (x w = (none, w.bump n) ∧ ∃ j, env.kmallocOk j = false)

theorem Delivers.pure (env : Env σ) (w : World σ) (r : Option α) :
    Delivers env (Pure.pure r) w r := ⟨0, Or.inl rfl⟩

theorem Delivers.of_ok {x : Io σ (Option α)} {w : World σ} {r : Option α}
    (hx : Delivers env x w r) (hok : ∀ j, env.kmallocOk j = true) : ∃ n, x w = (r, w.bump n) := by
  obtain ⟨n, h | ⟨-, j, hj⟩⟩ := hx
  · exact ⟨n, h⟩
  · rw [hok j] at hj
    cases hj

theorem Delivers.exists_eq {x : Io σ (Option α)} {w : World σ}
    {r : Option α} (hx : Delivers env x w r) : ∃ r' n, x w = (r', w.bump n) := by
  obtain ⟨n, h | ⟨h, -⟩⟩ := hx
  · exact ⟨r, n, h⟩
  · exact ⟨none, n, h⟩

theorem Delivers.bind {α β : Type} {x : Io σ (Option α)} {y : Option α → Io σ (Option β)}
    {w : World σ} {r : Option α} {r' : Option β} (hx : Delivers env x w r)
    (hnone : ∀ w, y none w = (none, w)) (hy : ∀ n, Delivers env (y r) (w.bump n) r') :
    Delivers env (x >>= y) w r' := by
  obtain ⟨n, h | ⟨h, hfail⟩⟩ := hx
  · obtain ⟨n', h' | ⟨h', hfail⟩⟩ := hy n
    · exact ⟨n + n', .inl (by rw [Io.bind_apply, h, h', World.bump_bump])⟩
    · exact ⟨n + n', .inr ⟨by rw [Io.bind_apply, h, h', World.bump_bump], hfail⟩⟩
  · exact ⟨n, .inr ⟨by rw [Io.bind_apply, h, hnone], hfail⟩⟩

def stackBuf (env : Env σ) : Io σ Buf := fun w => (env.stackBytes w, w)

def sysAbortRequested (env : Env σ) : Io σ Bool := fun w =>
  (env.abort w.polls, { w with polls := w.polls + 1 })

/-- The buffer after the call, or nothing where the C function returns a negative number. -/
def vfsReadDevice (dev : Device σ) (offset size : ℕ) (buffer : Buf) : Io σ (Option Buf) := fun w =>
  match dev.read with
  | none => (none, w)
  | some read =>
    if dev.blockSize = 0 then (none, w)
    else
      let got := read w.dev offset size
      (some (buffer.copyAt 0 got.1.1 got.1.2), { w with dev := got.2 })

/-- Every caller in the file system drops the result. -/
def vfsWriteDevice (dev : Device σ) (offset size : ℕ) (buffer : Buf) : Io σ Unit := fun w =>
  match dev.write with
  | none => ((), w)
  | some write =>
    if dev.blockSize = 0 then ((), w) else ((), { w with dev := write w.dev offset size buffer })

/-- A device with 32-bit offsets that keeps what is written and delivers what is asked for. -/
def diskDevice (writable : Bool) : Device Buf where
  blockSize := 512
  read := some fun disk offset size => ((size, fun j => disk (u32 (offset + j))), disk)
  write :=
    if writable then
      some fun disk offset size buffer x =>
        if x < 2 ^ 32 ∧ sub32 x offset < size then buffer (sub32 x offset) else disk x
    else none

def World.write (w : World Buf) (writable : Bool) (disk : Buf) : World Buf :=
  { w with dev := if writable then disk else w.dev }

@[simp] theorem World.write_true (w : World Buf) (disk : Buf) :
    w.write true disk = { w with dev := disk } := rfl

@[simp] theorem World.write_false (w : World Buf) (disk : Buf) : w.write false disk = w := rfl

def Io.ReadOnly (x : Io σ α) : Prop := ∀ w, (x w).2.dev = w.dev

namespace Io.ReadOnly

variable {α β : Type}

theorem pure (a : α) : Io.ReadOnly (Pure.pure a : Io σ α) := fun _ => rfl

theorem bind {x : Io σ α} {f : α → Io σ β} (hx : Io.ReadOnly x) (hf : ∀ a, Io.ReadOnly (f a)) :
    Io.ReadOnly (x >>= f) := by
  intro w
  rw [Io.bind_apply, hf, hx]

theorem kmallocBuf (env : Env σ) : Io.ReadOnly (MicroK.kmallocBuf env) := fun _ => rfl

theorem vfsReadDevice (writable : Bool) (offset size : ℕ) (buffer : Buf) :
    Io.ReadOnly (MicroK.vfsReadDevice (diskDevice writable) offset size buffer) := fun _ => rfl

theorem vfsWriteDevice (offset size : ℕ) (buffer : Buf) :
    Io.ReadOnly (MicroK.vfsWriteDevice (diskDevice false) offset size buffer) := fun _ => rfl

end Io.ReadOnly

def Io.Reads (x : Io σ α) (Q : σ → α → Prop) : Prop :=
  ∀ w, (x w).2.dev = w.dev ∧ Q w.dev (x w).1

theorem Io.Reads.pure {Q : σ → α → Prop} {a : α} (ha : ∀ d, Q d a) :
    Io.Reads (Pure.pure a : Io σ α) Q := fun w => ⟨rfl, ha w.dev⟩

theorem Io.Reads.bind {α β : Type} {x : Io σ α} {f : α → Io σ β} {Q : σ → β → Prop}
    (hx : Io.ReadOnly x) (hf : ∀ a, Io.Reads (f a) Q) : Io.Reads (x >>= f) Q := by
  intro w
  have h := hf (x w).1 (x w).2
  rw [hx w] at h
  exact h

theorem Io.Reads.bind_of {α β : Type} {x : Io σ α} {f : α → Io σ β} {P : σ → α → Prop}
    {Q : σ → β → Prop} (hx : Io.Reads x P)
    (hf : ∀ a, Io.Reads (f a) fun d b => P d a → Q d b) : Io.Reads (x >>= f) Q := by
  intro w
  obtain ⟨hdev, hP⟩ := hx w
  obtain ⟨hdev', hQ⟩ := hf (x w).1 (x w).2
  rw [hdev] at hdev' hQ
  exact ⟨hdev', hQ hP⟩

section

variable {writable : Bool} {offset size : ℕ} {buffer : Buf} {w : World Buf}

theorem vfsReadDevice_disk (hend : offset + size ≤ 2 ^ 32) :
    vfsReadDevice (diskDevice writable) offset size buffer w =
      (some (buffer.copyAt 0 size (w.dev.from offset)), w) := by
  have hbuf : buffer.copyAt 0 size (fun j => w.dev (u32 (offset + j))) =
      buffer.copyAt 0 size (w.dev.from offset) := by
    funext j
    unfold Buf.copyAt Buf.from
    split_ifs with hj
    · change w.dev (u32 (offset + (j - 0))) = _
      rw [u32_of_lt (by omega)]
    · rfl
  simp only [vfsReadDevice, diskDevice, OfNat.ofNat_ne_zero, ↓reduceIte, hbuf]

theorem vfsWriteDevice_disk (hend : offset + size ≤ 2 ^ 32) :
    vfsWriteDevice (diskDevice writable) offset size buffer w =
      ((), w.write writable (w.dev.copyAt offset size buffer)) := by
  cases writable with
  | false => rfl
  | true =>
    have hbuf : (fun x => if x < 2 ^ 32 ∧ sub32 x offset < size then buffer (sub32 x offset)
        else w.dev x) = w.dev.copyAt offset size buffer := by
      funext x
      unfold Buf.copyAt
      by_cases hx : offset ≤ x ∧ x < offset + size
      · have hsub := sub32_of_le hx.1 (show x < 2 ^ 32 by omega)
        rw [if_pos ⟨by omega, by omega⟩, if_pos hx, hsub]
      · rw [if_neg hx, if_neg]
        rintro ⟨hlt, hin⟩
        unfold sub32 u32 at hin
        omega
    simp only [vfsWriteDevice, diskDevice, OfNat.ofNat_ne_zero, ↓reduceIte, World.write, hbuf]

end

end MicroK

/-!
## The ATA driver

What a failed command may have left behind the bytes that are counted is not modelled.
-/

namespace MicroK

open Nat

structure AtaDrive where
  sectors : ℕ
  bytes : Buf
  commandOk : ℕ → Bool

namespace AtaDrive

variable (drive : AtaDrive)

/-- The bytes of the next command with `done` of `size` bytes read: a run of up to 255 whole
sectors, or what the request needs of one sector. -/
def commandBytes (absolute left : ℕ) : ℕ :=
  if absolute % 512 = 0 ∧ 512 ≤ left then
    min (min (left / 512) (drive.sectors - absolute / 512)) 255 * 512
  else min (512 - absolute % 512) left

def blockReadLoop (offset size : ℕ) : ℕ → ℕ → Buf → ℕ → (ℕ × Buf) × ℕ
  | 0, done, out, commands => ((done, out), commands)
  | fuel + 1, done, out, commands =>
    if done < size then
      let absolute := u32 (offset + done)
      if drive.sectors ≤ absolute / 512 then ((done, out), commands)
      else if drive.commandOk commands then
        let n := drive.commandBytes absolute (size - done)
        blockReadLoop offset size fuel (done + n) (out.copyAt done n (drive.bytes.from absolute))
          (commands + 1)
      else ((done, out), commands + 1)
    else ((done, out), commands)

/-- `ata_block_read`, in a state that counts the commands. Every round gets at least one byte. -/
def blockRead (commands offset size : ℕ) : (ℕ × Buf) × ℕ :=
  drive.blockReadLoop offset size size 0 (fun _ => 0) commands

/-- The device for its readers, without `ata_block_write`. -/
def device : Device ℕ where
  blockSize := 512
  read := some drive.blockRead
  write := none

end AtaDrive

end MicroK
