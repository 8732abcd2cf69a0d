import MicroK.CheckedState
import MicroK.MachineWords

/-!
# The line editor of the shell

`shell_task` collects keys in a buffer of 64 bytes. A backspace leaves the bytes behind the position
as they are. A tab puts a zero there and replaces the last word by the first command or file name
that starts with it.
-/

namespace MicroK.Shell

open Outcome Image

/-- The length of the string at an offset; reading past the end of the buffer is a fault. -/
def strlen (buf : Image) (off : ℕ) : Outcome ℕ :=
  let n := (buf.bytes off (buf.size - off)).findIdx (· == 0)
  if off + n < buf.size then .ok n else .fault

def strncpy (src : List UInt8) (n : ℕ) : List UInt8 :=
  (src.takeWhile (· != 0)).take n ++ List.replicate (n - (src.takeWhile (· != 0)).length) 0

def upper (c : UInt8) : UInt8 := if 0x61 ≤ c ∧ c ≤ 0x7A then c - 32 else c

/-- Whether `shell_strncasecmp` returns zero. -/
def sameCi : ℕ → List UInt8 → List UInt8 → Bool
  | 0, _, _ => true
  | n + 1, s, t =>
    let c := upper (s.headD 0)
    if c ≠ upper (t.headD 0) then false else if c = 0 then true else sameCi n s.tail t.tail

def commands : List String :=
  ["help", "clear", "status", "mem", "mem test", "highmemtest", "highmemtest buf", "ls", "cat",
    "cd",
    "loadmodel", "llm", "usb", "usb msdtest", "usb msdwritetest", "http get"]

structure Line where
  buf : Image
  idx : ℕ

/-- The text from `base` on is replaced by a name. -/
def complete (buf : Image) (base : ℕ) (name : List UInt8) : Outcome Line := do
  let buf ← buf.store base (strncpy name (u32 (63 + 2 ^ 32 - base)))
  let buf ← buf.store 63 [0]
  let n ← strlen buf base
  pure ⟨buf, base + n⟩

/-- The names are what `syscall_fat_get_entry` gives for one index after the other. -/
def shellAutocomplete (names : List (List UInt8)) (line : Line) : Outcome Line := do
  let n ← strlen line.buf 0
  let text := line.buf.bytes 0 n
  let word := (text.reverse.takeWhile (· != 0x20)).reverse
  if 0x20 ∉ text then
    match (commands.map fun c => c.toUTF8.toList).find? fun c => sameCi n c text with
    | none => pure line
    | some c => complete line.buf 0 c
  else if word = [] then pure line
  else match (names.take 64).find? fun name => sameCi word.length name word with
    | none => pure line
    | some name => complete line.buf (n - word.length) name

structure Key where
  char : UInt8
  /-- The directory, if the key asks for a completion. -/
  names : List (List UInt8)

/-- One key; the line that is passed to `shell_handle_command`, if it is one. The line is cleared
after the command. -/
def shellKey (line : Line) (k : Key) : Outcome (Line × Option Line) :=
  if k.char = 0 then pure (line, none)
  else if k.char = 0x0A then do
    let buf ← line.buf.store line.idx [0]
    let cleared ← buf.store 0 (List.replicate 64 0)
    pure (⟨cleared, 0⟩, if 0 < line.idx then some ⟨buf, line.idx⟩ else none)
  else if k.char = 0x09 then do
    let buf ← line.buf.store line.idx [0]
    let line ← shellAutocomplete k.names ⟨buf, line.idx⟩
    pure (line, none)
  else if k.char = 0x08 then pure (⟨line.buf, line.idx - 1⟩, none)
  else if line.idx < 63 then do
    let buf ← line.buf.store line.idx [k.char]
    pure (⟨buf, line.idx + 1⟩, none)
  else pure (line, none)

/-- The line after some keys, and the lines that are passed on. -/
def shellTask : List Key → Line → Outcome (Line × List Line)
  | [], line => pure (line, [])
  | k :: keys, line => do
    let (line, command) ← shellKey line k
    let (line, commands) ← shellTask keys line
    pure (line, command.toList ++ commands)

structure Line.Valid (line : Line) : Prop where
  size_eq : line.buf.size = 64
  idx_le : line.idx ≤ 63
  byte_ne : ∀ i < line.idx, line.buf.byte i ≠ 0

structure Line.Terminated (line : Line) : Prop extends line.Valid where
  byte_eq : line.buf.byte line.idx = 0

theorem store_ends {buf : Image} {off : ℕ} {l : List UInt8} (h : off + l.length ≤ buf.size) :
    (buf.store off l).Ends fun g => g = buf.put off l :=
  ⟨_, if_pos h, rfl⟩

theorem strlen_ends {buf : Image} (hsize : buf.size = 64) {off i : ℕ} (hoff : off ≤ i) (hi : i < 64)
    (hzero : buf.byte i = 0) : (strlen buf off).Ends fun n => off + n ≤ i ∧
      ∀ j < off + n, off ≤ j → buf.byte j ≠ 0 := by
  have hnot {j : ℕ} (hj : j < (buf.bytes off (64 - off)).findIdx (· == 0)) :
      buf.byte (off + j) ≠ 0 := by
    simpa [Image.bytes] using List.not_of_lt_findIdx hj
  have hle : off + (buf.bytes off (64 - off)).findIdx (· == 0) ≤ i := by
    by_contra hlt
    refine @hnot (i - off) (by omega) ?_
    rwa [Nat.add_sub_cancel' hoff]
  rw [strlen, hsize]
  refine ⟨_, if_pos (by omega), hle, fun j hj hlow => ?_⟩
  have := @hnot (j - off) (by omega)
  rwa [Nat.add_sub_cancel' hlow] at this

theorem length_strncpy (src : List UInt8) (n : ℕ) : (strncpy src n).length = n := by
  simp [strncpy]
  omega

theorem complete_ends {buf : Image} (hsize : buf.size = 64) {base : ℕ} (hbase : base < 63)
    (hbyte : ∀ i < base, buf.byte i ≠ 0) (name : List UInt8) :
    (complete buf base name).Ends Line.Valid := by
  have hroom : u32 (63 + 2 ^ 32 - base) = 63 - base := by
    unfold u32
    omega
  rw [complete, hroom]
  refine ends_bind (store_ends (by rw [length_strncpy]; omega)) fun g hg => ?_
  refine ends_bind (store_ends (by rw [hg, size_put, hsize]; decide)) fun g' hg' => ?_
  have hsize' : g'.size = 64 := by rw [hg', size_put, hg, size_put, hsize]
  refine ends_bind (strlen_ends hsize' hbase.le (by decide) (by simp [hg', put])) fun n hn => ?_
  refine ends_pure ⟨hsize', hn.1, fun i hi => ?_⟩
  by_cases hlow : i < base
  · have hput : g'.byte i = buf.byte i := by
      simp only [hg', hg, put]
      rw [if_neg (by simp; omega), if_neg (by omega)]
    rw [hput]
    exact hbyte i hlow
  · exact hn.2 i hi (Nat.le_of_not_lt hlow)

theorem shellAutocomplete_ends {line : Line} (h : line.Terminated) (names : List (List UInt8)) :
    (shellAutocomplete names line).Ends Line.Valid := by
  have hend := h.idx_le
  refine ends_bind (strlen_ends h.size_eq (Nat.zero_le _) (by omega) h.byte_eq) fun n hn => ?_
  have hbyte : ∀ i < n, line.buf.byte i ≠ 0 := fun i hi => hn.2 i (by omega) (Nat.zero_le i)
  dsimp only
  refine ends_ite (fun _ => ?_) fun _ => ends_ite (fun _ => ends_pure h.toValid) fun hword => ?_
  · split
    · exact ends_pure h.toValid
    · exact complete_ends h.size_eq (by decide) (fun i hi => absurd hi i.not_lt_zero) _
  · split
    · exact ends_pure h.toValid
    · have hpos := List.length_pos_iff.2 hword
      have hle := (List.takeWhile_sublist (p := (· != 0x20))
        (l := (line.buf.bytes 0 n).reverse)).length_le
      rw [List.length_reverse] at hpos
      rw [List.length_reverse, length_bytes] at hle
      exact complete_ends h.size_eq (by rw [List.length_reverse]; omega)
        (fun i hi => hbyte i (by omega)) _

theorem shellKey_ends {line : Line} (h : line.Valid) (k : Key) : (shellKey line k).Ends fun r =>
    r.1.Valid ∧ ∀ l ∈ r.2, 0 < l.idx ∧ l.Terminated := by
  have hend := h.idx_le
  have hsize := h.size_eq
  have hput (c : UInt8) : (line.buf.put line.idx [c]).byte line.idx = c ∧
      ∀ i < line.idx, (line.buf.put line.idx [c]).byte i ≠ 0 := by
    refine ⟨by simp [put], fun i hi => ?_⟩
    simpa [put, Nat.not_le.2 hi] using h.byte_ne i hi
  have hstore (c : UInt8) := @store_ends line.buf line.idx [c] (by simp; omega)
  have hzero : (⟨line.buf.put line.idx [0], line.idx⟩ : Line).Terminated :=
    ⟨⟨hsize, hend, (hput 0).2⟩, (hput 0).1⟩
  refine ends_ite (fun _ => ends_pure ⟨h, nofun⟩) fun hchar => ends_ite (fun _ => ?_) fun _ =>
    ends_ite (fun _ => ?_) fun _ => ends_ite (fun _ => ?_) fun _ =>
      ends_ite (fun hlt => ?_) fun _ =>
      ends_pure ⟨h, nofun⟩
  · refine ends_bind (hstore 0) fun g hg => ?_
    refine ends_bind (store_ends (by simp [hg, hsize])) fun g' hg' => ?_
    refine ends_pure ⟨⟨by simp [hg', hg, hsize], Nat.zero_le _, nofun⟩, fun l hl => ?_⟩
    split_ifs at hl with hpos
    · obtain rfl := Option.some.inj hl
      exact ⟨hpos, hg ▸ hzero⟩
    · cases hl
  · refine ends_bind (hstore 0) fun g hg => ?_
    refine ends_bind (shellAutocomplete_ends (hg ▸ hzero) k.names) fun l hl => ?_
    exact ends_pure ⟨hl, nofun⟩
  · exact ends_pure ⟨⟨hsize, by simp; omega, fun i hi => h.byte_ne i (by simp at hi; omega)⟩, nofun⟩
  · refine ends_bind (hstore k.char) fun g hg => ends_pure ⟨⟨?_, hlt, fun i hi => ?_⟩, nofun⟩
    · rw [hg, size_put, hsize]
    · rw [hg]
      rcases Nat.lt_succ_iff_lt_or_eq.1 hi with hi | rfl
      · exact (hput _).2 i hi
      · rwa [(hput _).1]

/-- The editor stays in its buffer, and every command ends with a zero at its length. -/
theorem shellTask_safe (bytes : ℕ → UInt8) (keys : List Key) :
    (shellTask keys ⟨⟨64, bytes⟩, 0⟩).Ends fun r => r.1.idx ≤ 63 ∧
      ∀ l ∈ r.2, 0 < l.idx ∧ l.idx ≤ 63 ∧ l.buf.byte l.idx = 0 ∧ ∀ i < l.idx, l.buf.byte i ≠ 0 := by
  suffices h : ∀ line : Line, line.Valid → (shellTask keys line).Ends fun r =>
      r.1.Valid ∧ ∀ l ∈ r.2, 0 < l.idx ∧ l.Terminated by
    obtain ⟨r, hr, hvalid, hcommands⟩ := h ⟨⟨64, bytes⟩, 0⟩ ⟨rfl, Nat.zero_le _, nofun⟩
    refine ⟨r, hr, hvalid.idx_le, fun l hl => ?_⟩
    obtain ⟨hpos, hl⟩ := hcommands l hl
    exact ⟨hpos, hl.idx_le, hl.byte_eq, hl.byte_ne⟩
  induction keys with
  | nil => exact fun line h => ends_pure ⟨h, nofun⟩
  | cons k keys ih =>
    intro line h
    refine ends_bind (shellKey_ends h k) fun r hr => ?_
    refine ends_bind (ih r.1 hr.1) fun r' hr' => ends_pure ⟨hr'.1, fun l hl => ?_⟩
    rcases List.mem_append.1 hl with hl | hl
    · exact hr.2 l (Option.mem_toList.1 hl)
    · exact hr'.2 l hl

end MicroK.Shell
