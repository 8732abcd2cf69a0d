import MicroK.ModelModule
import MicroK.VmmTables

/-!
# The system call handler

`syscallHandler` is the switch over the call number, with the pointer checks of each case and the
uses of the caller's memory behind them. Returned values are left out. What decides how far a
function behind a call gets, other than the memory itself, is part of `Kernel`. A path, a prompt or
a name that it starts to read counts as a string, whichever part it ends up reading.
-/

namespace MicroK.UserAccess

open List

/-- A string is read in the memory in which it is handed over. A reader of the file at `addr` that
leaves the file may read anywhere. -/
inductive Use where
  | buffer (addr len : ℕ)
  | string (mem : ℕ → ℕ) (addr : ℕ)
  | file (addr len : ℕ) (outcome : Outcome Unit)

def InString (mem : ℕ → ℕ) (addr i : ℕ) : Prop := ∀ j < i, mem (u32 (addr + j)) ≠ 0

def Use.Touches : Use → ℕ → Prop
  | .buffer addr len, a => ∃ i < len, a = u32 (addr + i)
  | .string mem addr, a => ∃ i, InString mem addr i ∧ a = u32 (addr + i)
  | .file addr len outcome, a => outcome = .fault ∨ ∃ i < len, a = u32 (addr + i)

structure Call where
  accepted : List (ℕ × ℕ)
  uses : List Use

def Covers (ranges : List (ℕ × ℕ)) (a : ℕ) : Prop := ∃ r ∈ ranges, r.1 ≤ a ∧ a < r.1 + r.2

def Call.Contained (c : Call) : Prop := ∀ u ∈ c.uses, ∀ a, u.Touches a → Covers c.accepted a

/-- The bytes of a string after its first, with the terminator, lie in the ranges. -/
def TailIn (mem : ℕ → ℕ) (addr : ℕ) (ranges : List (ℕ × ℕ)) : Prop :=
  ∀ i, 0 < i → InString mem addr i → Covers ranges (u32 (addr + i))

/-- The strings that a call uses are covered after their first byte. -/
def Call.StringTails (c : Call) : Prop :=
  ∀ mem addr, .string mem addr ∈ c.uses → TailIn mem addr c.accepted

namespace Call

def done : Call := ⟨[], []⟩

def check (ok : ℕ → ℕ → Bool) (addr len : ℕ) (c : Call) : Call :=
  if ok addr len then { c with accepted := (addr, len) :: c.accepted } else done

def use (us : List Use) (c : Call) : Call := { c with uses := us ++ c.uses }

end Call

def Use.Fixed : Use → ℕ → Prop
  | .buffer addr len, a => ∃ i < len, a = u32 (addr + i)
  | .string _ addr, a => a = u32 addr
  | .file addr len outcome, a => outcome = .fault ∨ ∃ i < len, a = u32 (addr + i)

def Guarded (ranges : List (ℕ × ℕ)) (c : Call) : Prop :=
  ∀ u ∈ c.uses, ∀ a, u.Fixed a → Covers (ranges ++ c.accepted) a

variable (mem : ℕ → ℕ)

theorem inString_zero (addr : ℕ) : InString mem addr 0 :=
  fun j hj => absurd hj (Nat.not_lt_zero j)

theorem touches_string_head (addr : ℕ) : (Use.string mem addr).Touches (u32 addr) :=
  ⟨0, inString_zero mem addr, rfl⟩

variable {addr len a : ℕ} {ranges : List (ℕ × ℕ)} {ok : ℕ → ℕ → Bool} {c : Call} {u : Use}
  {us : List Use}

theorem inString_le {mem : ℕ → ℕ} {i n : ℕ} (h : InString mem addr i)
    (hn : mem (u32 (addr + n)) = 0) : i ≤ n := by
  by_contra hlt
  exact h n (by omega) hn

theorem contained_iff (c : Call) : c.Contained ↔ Guarded [] c ∧ c.StringTails := by
  constructor
  · intro h
    refine ⟨fun u hu a ha => ?_, fun mem addr hu i _ hi => h _ hu _ ⟨i, hi, rfl⟩⟩
    cases u with
    | buffer addr len => exact h _ hu a ha
    | string mem addr =>
      obtain rfl : a = u32 addr := ha
      exact h _ hu _ (touches_string_head mem addr)
    | file addr len outcome => exact h _ hu a ha
  · rintro ⟨hfixed, htails⟩ u hu a ha
    cases u with
    | buffer addr len => exact hfixed _ hu a ha
    | string mem addr =>
      obtain ⟨i, hi, rfl⟩ := ha
      rcases Nat.eq_zero_or_pos i with rfl | hpos
      · exact hfixed _ hu _ rfl
      · exact htails mem addr hu i hpos hi
    | file addr len outcome => exact hfixed _ hu a ha

theorem guarded_done (ranges : List (ℕ × ℕ)) : Guarded ranges Call.done := by
  intro u hu
  simp [Call.done] at hu

theorem guarded_check (h : ok addr len = true → Guarded ((addr, len) :: ranges) c) :
    Guarded ranges (Call.check ok addr len c) := by
  unfold Call.check
  split_ifs with hok
  · intro u hu a ha
    obtain ⟨r, hr, hra⟩ := h hok u hu a ha
    refine ⟨r, ?_, hra⟩
    simp only [cons_append, mem_cons, mem_append] at hr ⊢
    tauto
  · exact guarded_done ranges

/-- A use lies in one of the ranges, a string with its first byte. -/
def Use.Within (ranges : List (ℕ × ℕ)) (u : Use) : Prop :=
  ∃ r ∈ ranges, r.1 + r.2 ≤ 2 ^ 32 ∧
    match u with
    | .buffer addr len => r.1 ≤ addr ∧ addr + len ≤ r.1 + r.2
    | .string _ addr => r.1 ≤ addr ∧ addr < r.1 + r.2
    | .file addr len outcome => outcome ≠ .fault ∧ r.1 ≤ addr ∧ addr + len ≤ r.1 + r.2

theorem covers_of_within (h : u.Within ranges) (ha : u.Fixed a) : Covers ranges a := by
  obtain ⟨r, hr, htop, hu⟩ := h
  refine ⟨r, hr, ?_⟩
  cases u with
  | buffer addr len =>
    obtain ⟨i, hi, rfl⟩ := ha
    rw [u32_of_lt (by omega)]
    omega
  | string mem addr =>
    obtain rfl : a = u32 addr := ha
    rw [u32_of_lt (by omega)]
    exact hu
  | file addr len outcome =>
    obtain ⟨i, hi, rfl⟩ := ha.resolve_left hu.1
    rw [u32_of_lt (by omega)]
    omega

theorem guarded_use (hus : ∀ u ∈ us, u.Within ranges) (hc : Guarded ranges c) :
    Guarded ranges (Call.use us c) := by
  intro u hu a ha
  rcases mem_append.mp hu with hu | hu
  · obtain ⟨r, hr, hra⟩ := covers_of_within (hus u hu) ha
    exact ⟨r, mem_append_left _ hr, hra⟩
  · exact hc u hu a ha

theorem not_contained_of_touches (hu : u ∈ us) (ha : u.Touches a) :
    ¬ Call.Contained (Call.use us Call.done) := by
  intro h
  obtain ⟨r, hr, -⟩ := h u (mem_append_left _ hu) a ha
  simp [Call.use, Call.done] at hr

theorem tails_done : Call.done.StringTails := by
  intro mem addr hu
  simp [Call.done] at hu

theorem covers_cons (h : Covers ranges a) (r : ℕ × ℕ) : Covers (r :: ranges) a := by
  obtain ⟨q, hq, hqa⟩ := h
  exact ⟨q, .tail _ hq, hqa⟩

theorem tails_check (h : c.StringTails) (ok : ℕ → ℕ → Bool) (addr len : ℕ) :
    (Call.check ok addr len c).StringTails := by
  unfold Call.check
  split_ifs
  · exact fun mem p hu i hi hin => covers_cons (h mem p hu i hi hin) _
  · exact tails_done

theorem tails_check_of_inside
    (h : ok addr len = true → ∀ mem p, .string mem p ∈ c.uses → ∀ i, InString mem p i →
      addr ≤ u32 (p + i) ∧ u32 (p + i) < addr + len) :
    (Call.check ok addr len c).StringTails := by
  unfold Call.check
  split_ifs with hok
  · exact fun mem p hu i _ hin => ⟨_, mem_cons_self, h hok mem p hu i hin⟩
  · exact tails_done

theorem mem_uses_of_check (h : u ∈ (Call.check ok addr len c).uses) : u ∈ c.uses := by
  unfold Call.check at h
  split_ifs at h
  · exact h
  · simp [Call.done] at h

theorem tails_use_buffers (hus : ∀ u ∈ us, ∃ p n, u = .buffer p n) (h : c.StringTails) :
    (Call.use us c).StringTails := by
  intro mem p hu i hi hin
  rcases mem_append.mp hu with hu | hu
  · obtain ⟨q, n, hq⟩ := hus _ hu
    cases hq
  · exact h mem p hu i hi hin

/-- Only the empty string has its tail in a range of its first byte. -/
theorem tailIn_self_iff (mem : ℕ → ℕ) (haddr : addr < 2 ^ 32) :
    TailIn mem addr [(addr, 1)] ↔ mem addr = 0 := by
  constructor
  · intro h
    by_contra hne
    have hone : InString mem addr 1 := by
      intro j hj
      obtain rfl : j = 0 := by omega
      rwa [Nat.add_zero, u32_of_lt haddr]
    obtain ⟨r, hr, hle, hlt⟩ := h 1 one_pos hone
    obtain rfl : r = (addr, 1) := by simpa using hr
    unfold u32 at hle hlt
    omega
  · intro hzero i hi hin
    have hfirst := hin 0 hi
    rw [Nat.add_zero, u32_of_lt haddr] at hfirst
    exact absurd hzero hfirst

end MicroK.UserAccess

namespace MicroK.Syscall

open UserAccess List

structure InitrdNode where
  name : List ℕ
  length : ℕ

inductive LlmBackend where
  | none
  | mkrp
  | mknn
  | ggufParser
  | ggufGen
  | unknown
  deriving DecidableEq

structure Kernel where
  initrd : List InitrdNode
  fat32Mounted : Bool
  extMounted : Bool
  /-- The buffer that `cat` asks the heap for is there. -/
  catBuffer : Bool
  /-- The size of the file that the path of the call resolves to. -/
  file : Option ℕ
  /-- The bytes that a transfer moves before its chain ends or the device fails. -/
  transferred : ℕ
  /-- The length of the name of the directory entry asked for. -/
  entryName : Option ℕ
  regionCount : ℕ
  backend : LlmBackend
  tokenizer : Bool
  traceOn : Bool
  /-- The lengths of the words that generation produced. -/
  words : List ℕ
  /-- The length of the text that ends generation, or that a rule or a class gives. -/
  replyLen : Option ℕ
  /-- The user aborts the search for a tensor of a model. -/
  aliasAbort : ℕ → ℕ → ℕ → Bool
  layerAbort : ℕ → ℕ → ℕ → Bool
  /-- The bytes of a model's data that are copied to high memory. -/
  migrated : ℕ
  shmFound : Bool
  shmActive : ℕ → Bool
  nicReady : Bool
  ipOctets : ℕ
  dnsReply : Bool
  connected : Bool
  received : ℕ

/-- Equality of the string at `addr` with a name, as `strcmp` decides it. -/
def strEq (mem : ℕ → ℕ) (addr : ℕ) (name : List ℕ) : Bool :=
  (List.range (name.length + 1)).all fun i => mem (u32 (addr + i)) == name.getD i 0

def kprint (mem : ℕ → ℕ) (msg : ℕ) : List Use := [.string mem msg]

variable (k : Kernel)

def initrdFindNode (mem : ℕ → ℕ) (name : ℕ) : Option InitrdNode :=
  k.initrd.find? fun node => strEq mem name node.name

/-- System call 7 after its checks: at most 255 bytes of the file and a terminator. -/
def readFile (mem : ℕ → ℕ) (name buffer : ℕ) : List Use :=
  (if k.initrd.isEmpty then [] else [.string mem name]) ++
    match initrdFindNode k mem name with
    | none => []
    | some node => [.buffer buffer (min node.length 255), .buffer (buffer + min node.length 255) 1]

def copyResponse (response len : ℕ) : List Use := [.buffer response (min len 127 + 1)]

def copyCstrResponse (response : ℕ) (source : String) : List Use :=
  copyResponse response source.length

/-- Appends texts of the given lengths one after the other from position `pos`, each with its
terminator, in a buffer of `max` bytes. -/
def appendStrs (out max : ℕ) : ℕ → List ℕ → List Use
  | _, [] => []
  | pos, len :: lens =>
    let next := if pos + 1 < max then min (pos + len) (max - 1) else pos
    .buffer (out + pos) (next - pos + 1) :: appendStrs out max next lens

def llmTryGgufInference (mem : ℕ → ℕ) (prompt response : ℕ) : List Use :=
  if !k.tokenizer then copyCstrResponse response "LLM: GGUF tokenizer unavailable."
  else
    .string mem prompt :: appendStrs response 128 0 k.words ++
      match k.replyLen with
      | none => []
      | some len => copyResponse response len

def llmInference (mem : ℕ → ℕ) (prompt response : ℕ) : List Use :=
  match k.backend with
  | .none => copyCstrResponse response "LLM: no model loaded. Boot with a model module first."
  | .ggufGen => llmTryGgufInference k mem prompt response
  | .ggufParser =>
    (if k.traceOn && k.tokenizer then [.string mem prompt] else []) ++
      copyCstrResponse response
        "LLM: GGUF loaded, but generative inference is not implemented yet."
  | .mkrp | .mknn | .unknown => .string mem prompt :: copyResponse response (k.replyLen.getD 0)

def llmDumpLogits (mem : ℕ → ℕ) (prompt response : ℕ) : List Use :=
  match k.backend with
  | .ggufGen =>
    if !k.tokenizer then copyCstrResponse response "LLM: GGUF tokenizer unavailable."
    else .string mem prompt :: copyResponse response (k.replyLen.getD 0)
  | _ => copyResponse response (k.replyLen.getD 0)

def llmValidateMicrokModel (start size : ℕ) : List Use :=
  if size < Mklm.headerBytes then [] else [.buffer start Mklm.headerBytes]

def ggufMigrateDataToHighMem (start size dataOffset : ℕ) : List Use :=
  if size ≤ dataOffset then []
  else [.buffer (start + dataOffset) (min k.migrated (size - dataOffset))]

def moduleImage (mem : ℕ → ℕ) (start size : ℕ) : Image where
  size := size
  byte i := UInt8.ofNat (mem (u32 (start + i)))

def llmLoadModelModule (mem : ℕ → ℕ) (start stop name : ℕ) : List Use :=
  if stop ≤ start then []
  else
    let size := stop - start
    let image := moduleImage mem start size
    (if name ≠ 0 then [.string mem name] else []) ++ llmValidateMicrokModel start size ++
      .file start size (Gguf.readModule image start k.aliasAbort k.layerAbort) ::
        match Gguf.probe none start image with
        | .ok info => ggufMigrateDataToHighMem k start size info.dataOffset
        | _ => []

def llmLoadModelFile (mem : ℕ → ℕ) (name : ℕ) : List Use := [.string mem name]

/-- The functions that resolve a path of the FAT32 volume read it only when a volume is mounted. -/
def fat32Path (mem : ℕ → ℕ) (path : ℕ) : List Use :=
  if k.fat32Mounted then [.string mem path] else []

def fat32LsPath (mem : ℕ → ℕ) (path : ℕ) : List Use := fat32Path k mem path

def fat32CreateFile (mem : ℕ → ℕ) (filename : ℕ) : List Use := fat32Path k mem filename

def fat32DeleteFile (mem : ℕ → ℕ) (filename : ℕ) : List Use := fat32Path k mem filename

def fat32Mkdir (mem : ℕ → ℕ) (path : ℕ) : List Use := fat32Path k mem path

def fat32GetSize (mem : ℕ → ℕ) (filename : ℕ) : List Use := fat32Path k mem filename

def fat32PathIsDir (mem : ℕ → ℕ) (path : ℕ) : List Use := fat32Path k mem path

def fat32Cat (mem : ℕ → ℕ) (filename : ℕ) : List Use :=
  if k.catBuffer then fat32Path k mem filename else []

def extfsCat (mem : ℕ → ℕ) (filename : ℕ) : List Use :=
  if k.extMounted && k.catBuffer then [.string mem filename] else []

def fat32WriteFile (mem : ℕ → ℕ) (filename buffer size : ℕ) : List Use :=
  fat32Path k mem filename ++
    if k.fat32Mounted && k.file.isSome then [.buffer buffer (min k.transferred size)] else []

def fat32LoadFile (mem : ℕ → ℕ) (filename buffer bufferSize : ℕ) : List Use :=
  fat32Path k mem filename ++
    match k.file with
    | none => []
    | some size =>
      if !k.fat32Mounted || bufferSize < size then []
      else [.buffer buffer (min k.transferred size)]

/-- The name goes to a buffer that is taken to have 64 bytes. -/
def fat32GetEntryByIndex (mem : ℕ → ℕ) (path outName : ℕ) : List Use :=
  fat32Path k mem path ++
    match k.entryName with
    | none => []
    | some len => if k.fat32Mounted then [.buffer outName (min len 63 + 1)] else []

def kernelMetricsSize : ℕ := 24
def pmmStatsSize : ℕ := 104
def kheapStatsSize : ℕ := 24
def pmmMemoryRegionSize : ℕ := 12
def ipcShmMaxSegments : ℕ := 16

def pmmGetMemoryRegion (index out : ℕ) : List Use :=
  if out = 0 ∨ k.regionCount ≤ index then [] else [.buffer out pmmMemoryRegionSize]

def ipcShmCreate (size outId : ℕ) : List Use :=
  if size = 0 || !k.shmFound then [] else [.buffer outId 4]

def ipcShmAttach (id outAddr outSize : ℕ) : List Use :=
  if ipcShmMaxSegments ≤ id || !k.shmActive id then []
  else
    (if outAddr ≠ 0 then [.buffer outAddr 4] else []) ++
      if outSize ≠ 0 then [.buffer outSize 4] else []

def netConfigStatic (mem : ℕ → ℕ) (ip netmask gateway : ℕ) : List Use :=
  [.string mem ip, .string mem netmask, .string mem gateway]

def netPing (mem : ℕ → ℕ) (ip : ℕ) : List Use :=
  if k.nicReady then [.string mem ip] else []

/-- The octets that `parse_ip4` reads go to the result one by one, a reply replaces all four. -/
def netDnsResolve (mem : ℕ → ℕ) (hostname outIp : ℕ) : List Use :=
  [.string mem hostname, .buffer outIp (if k.dnsReply then 4 else min k.ipOctets 4)]

def netLlmServiceSetToken (mem : ℕ → ℕ) (token : ℕ) : List Use := [.string mem token]

def netRshSetToken (mem : ℕ → ℕ) (token : ℕ) : List Use := [.string mem token]

def netHttpGet (mem : ℕ → ℕ) (host path out outSize : ℕ) : List Use :=
  if outSize = 0 then []
  else
    .string mem host ::
      if k.connected then [.string mem path, .buffer out (min k.received outSize)] else []

open UserAccess UserAccess.Call Vmm

variable (s : Paging)

def uptrOk (ptr len : ℕ) : Bool := ptr ≠ 0 && userPtrOk s ptr len

def ustrOk (ptr : ℕ) (c : Call) : Call := check (uptrOk s) ptr 1 c

def loadWord (mem : ℕ → ℕ) (addr : ℕ) : ℕ :=
  u32 (mem (u32 addr) + mem (u32 (addr + 1)) * 2 ^ 8 + mem (u32 (addr + 2)) * 2 ^ 16 +
    mem (u32 (addr + 3)) * 2 ^ 24)

/-- A status text: `strncpy` fills the whole buffer, the last byte is the terminator. -/
def statusString (buf size : ℕ) : Call :=
  check (uptrOk s) buf size (use [.buffer buf (size - 1), .buffer (buf + (size - 1)) 1] done)

/-- The request of the HTTP call: host, path and port. -/
def httpHostSize : ℕ := 64
def httpPathSize : ℕ := 128
def httpRequestSize : ℕ := 194

/-- The request's two strings are terminated in place before they are read. -/
def httpTerminated (mem : ℕ → ℕ) (req : ℕ) : ℕ → ℕ :=
  Function.update (Function.update mem (req + (httpHostSize - 1)) 0)
    (req + (httpHostSize + httpPathSize - 1)) 0

def syscallHandler (mem : ℕ → ℕ) (syscallNum arg1 arg2 arg3 : ℕ) : Call :=
  match syscallNum with
  | 1 => ustrOk s arg1 (use (kprint mem arg1) done)
  | 3 => check (uptrOk s) arg1 kernelMetricsSize (use [.buffer arg1 kernelMetricsSize] done)
  | 4 => check (uptrOk s) arg1 1 (use [.buffer arg1 1] done)
  | 5 => ustrOk s arg1 (check (uptrOk s) arg2 128 (use (llmInference k mem arg1 arg2) done))
  | 7 => ustrOk s arg1 (check (uptrOk s) arg2 256 (use (readFile k mem arg1 arg2) done))
  | 10 => if arg1 ≠ 0 then use [.buffer arg1 pmmStatsSize] done else done
  | 11 => if arg1 ≠ 0 then use [.buffer arg1 kheapStatsSize] done else done
  | 12 => if arg1 ≠ 0 then use [.buffer arg1 4] done else done
  | 13 => if arg1 ≠ 0 then ustrOk s arg1 (use (fat32LsPath k mem arg1) done) else done
  | 14 => ustrOk s arg1 (use (fat32Cat k mem arg1) done)
  | 16 => ustrOk s arg1 (use (extfsCat k mem arg1) done)
  | 17 =>
    let load := use (llmLoadModelModule k mem arg1 (u32 (arg1 + arg2)) arg3) done
    check (uptrOk s) arg1 arg2
      (if u32 (arg1 + arg2) < arg1 then done else if arg3 = 0 then load else ustrOk s arg3 load)
  | 18 => statusString s arg1 256
  | 19 => statusString s arg1 256
  | 21 =>
    ustrOk s arg1 (check (uptrOk s) arg2 4
      (use (fat32CreateFile k mem arg1 ++ [.buffer arg2 4]) done))
  | 22 =>
    ustrOk s arg1 (check (uptrOk s) arg2 (if arg3 ≠ 0 then arg3 else 1)
      (use (fat32WriteFile k mem arg1 arg2 arg3) done))
  | 23 =>
    if arg1 ≠ 0 ∧ arg2 ≠ 0 then use (fat32DeleteFile k mem arg1 ++ [.buffer arg2 4]) done else done
  | 24 =>
    if arg1 ≠ 0 ∧ arg2 ≠ 0 then use (fat32Mkdir k mem arg1 ++ [.buffer arg2 4]) done else done
  | 25 => statusString s arg1 1024
  | 26 => check (uptrOk s) arg1 4 (use [.buffer arg1 4] done)
  | 27 =>
    let ip := loadWord mem arg1
    let netmask := loadWord mem (arg1 + 4)
    let gateway := loadWord mem (arg1 + 8)
    check (uptrOk s) arg1 12 (check (uptrOk s) arg2 4
      (use [.buffer arg1 4] (ustrOk s ip
        (use [.buffer (arg1 + 4) 4] (ustrOk s netmask
          (use [.buffer (arg1 + 8) 4] (ustrOk s gateway
            (use (netConfigStatic mem ip netmask gateway ++ [.buffer arg2 4]) done))))))))
  | 28 => check (uptrOk s) arg1 4 (use [.buffer arg1 4] done)
  | 29 =>
    check (uptrOk s) arg2 pmmMemoryRegionSize (check (uptrOk s) arg3 4
      (use (pmmGetMemoryRegion k arg1 arg2 ++ [.buffer arg3 4]) done))
  | 30 => statusString s arg1 768
  | 31 => if arg1 ≠ 0 then use (fat32GetSize k mem arg1) done else done
  | 32 => if arg1 ≠ 0 ∧ arg2 ≠ 0 then use (fat32LoadFile k mem arg1 arg2 arg3) done else done
  | 33 => if arg1 ≠ 0 ∧ arg3 ≠ 0 then use (fat32GetEntryByIndex k mem arg1 arg3) done else done
  | 35 => ustrOk s arg1 (use (llmLoadModelFile mem arg1) done)
  | 36 => ustrOk s arg1 (use (fat32PathIsDir k mem arg1) done)
  | 39 => statusString s arg1 512
  | 42 => statusString s arg1 256
  | 45 => ustrOk s arg1 (use (netPing k mem arg1) done)
  | 46 => ustrOk s arg1 (check (uptrOk s) arg2 4 (use (netDnsResolve k mem arg1 arg2) done))
  | 47 => ustrOk s arg1 (use (netLlmServiceSetToken mem arg1) done)
  | 50 => ustrOk s arg1 (use (netRshSetToken mem arg1) done)
  | 51 => statusString s arg1 192
  | 54 => check (uptrOk s) arg3 4 (use (ipcShmCreate k arg2 arg3) done)
  | 55 =>
    let attach := use (ipcShmAttach k arg1 arg2 arg3) done
    check (uptrOk s) arg2 4 (if arg3 = 0 then attach else check (uptrOk s) arg3 4 attach)
  | 59 => ustrOk s arg1 (check (uptrOk s) arg2 128 (use (llmDumpLogits k mem arg1 arg2) done))
  | 61 => statusString s arg1 512
  | 62 => statusString s arg1 512
  | 63 =>
    check (uptrOk s) arg1 httpRequestSize (check (uptrOk s) arg2 arg3
      (use [.buffer (arg1 + (httpHostSize - 1)) 1,
          .buffer (arg1 + (httpHostSize + httpPathSize - 1)) 1,
          .buffer (arg1 + (httpHostSize + httpPathSize)) 2]
        (use (netHttpGet k (httpTerminated mem arg1) arg1 (arg1 + httpHostSize) arg2 arg3) done)))
  | 66 => if arg1 < 16 then check (uptrOk s) arg2 64 (use [.buffer arg2 64] done) else done
  | _ => done

theorem uptrOk_bound {s : Paging} {ptr len : ℕ} (hptr : ptr < 2 ^ 32) (hlen : len < 2 ^ 32)
    (h : uptrOk s ptr len = true) : ptr + len ≤ 2 ^ 32 := by
  simp only [uptrOk, userPtrOk, Bool.and_eq_true, decide_eq_true_eq] at h
  obtain ⟨hne, h⟩ := h
  rw [if_neg hne] at h
  by_contra hover
  have hwrap : u32 (ptr + if len = 0 then 1 else len) < ptr := by
    unfold u32
    split_ifs <;> omega
  rw [if_pos hwrap] at h
  exact absurd h (by decide)

variable {ranges : List (ℕ × ℕ)}

theorem string_within (mem : ℕ → ℕ) {p : ℕ} (hp : p < 2 ^ 32)
    (h : (p, 1) ∈ ranges) : (Use.string mem p).Within ranges :=
  ⟨(p, 1), h, hp, le_rfl, Nat.lt_succ_self p⟩

theorem buffer_within {p len : ℕ} (hp : p + len ≤ 2 ^ 32)
    (h : (p, len) ∈ ranges) : (Use.buffer p len).Within ranges :=
  ⟨(p, len), h, hp, le_rfl, le_rfl⟩

theorem buffer_within_sub {p len q n : ℕ}
    (h : (Use.buffer p len).Within ranges) (hle : p ≤ q) (hend : q + n ≤ p + len) :
    (Use.buffer q n).Within ranges := by
  obtain ⟨r, hr, htop, hlow, hhigh⟩ := h
  exact ⟨r, hr, htop, hlow.trans hle, hend.trans hhigh⟩

section

variable {k : Kernel} {mem : ℕ → ℕ} {ranges : List (ℕ × ℕ)} {p q : ℕ}

theorem within_copyResponse (h : (Use.buffer q 128).Within ranges) (len : ℕ) :
    ∀ u ∈ copyResponse q len, u.Within ranges := by
  intro u hu
  obtain rfl : u = .buffer q (min len 127 + 1) := by simpa [copyResponse] using hu
  exact buffer_within_sub h le_rfl (by omega)

theorem within_appendStrs (h : (Use.buffer q 128).Within ranges) (lens : List ℕ) :
    ∀ pos < 128, ∀ u ∈ appendStrs q 128 pos lens, u.Within ranges := by
  induction lens with
  | nil => simp [appendStrs]
  | cons len lens ih =>
    intro pos hpos u hu
    have hnext : pos ≤ (if pos + 1 < 128 then min (pos + len) (128 - 1) else pos) ∧
        (if pos + 1 < 128 then min (pos + len) (128 - 1) else pos) < 128 := by
      split_ifs <;> omega
    rcases mem_cons.mp hu with rfl | hu
    · exact buffer_within_sub h (Nat.le_add_right q pos) (by omega)
    · exact ih _ hnext.2 u hu

variable (hp : (Use.string mem p).Within ranges)
include hp

theorem within_llmInference (hq : (Use.buffer q 128).Within ranges) :
    ∀ u ∈ llmInference k mem p q, u.Within ranges := by
  have hcopy := within_copyResponse hq
  intro u hu
  unfold llmInference at hu
  split at hu
  · exact hcopy _ u hu
  · unfold llmTryGgufInference at hu
    split_ifs at hu
    · exact hcopy _ u hu
    · rcases mem_append.mp hu with hu | hu
      · rcases mem_cons.mp hu with rfl | hu
        · exact hp
        · exact within_appendStrs hq _ 0 (by norm_num) u hu
      · split at hu
        · simp at hu
        · exact hcopy _ u hu
  · rcases mem_append.mp hu with hu | hu
    · split_ifs at hu
      · rwa [mem_singleton.mp hu]
      · simp at hu
    · exact hcopy _ u hu
  all_goals
    rcases mem_cons.mp hu with rfl | hu
    · exact hp
    · exact hcopy _ u hu

theorem within_llmDumpLogits (hq : (Use.buffer q 128).Within ranges) :
    ∀ u ∈ llmDumpLogits k mem p q, u.Within ranges := by
  have hcopy := within_copyResponse hq
  intro u hu
  unfold llmDumpLogits at hu
  split at hu
  · split_ifs at hu
    · exact hcopy _ u hu
    · rcases mem_cons.mp hu with rfl | hu
      · exact hp
      · exact hcopy _ u hu
  · exact hcopy _ u hu

theorem within_readFile (hq : (Use.buffer q 256).Within ranges) :
    ∀ u ∈ readFile k mem p q, u.Within ranges := by
  intro u hu
  rcases mem_append.mp hu with hu | hu
  · split_ifs at hu
    · simp at hu
    · rwa [mem_singleton.mp hu]
  · split at hu
    · simp at hu
    · rcases mem_pair.mp hu with rfl | rfl
      · exact buffer_within_sub hq le_rfl (by omega)
      · exact buffer_within_sub hq (Nat.le_add_right _ _) (by omega)

omit hp

theorem eq_string_of_mem_fat32Path {u : Use} (h : u ∈ fat32Path k mem p) : u = .string mem p := by
  unfold fat32Path at h
  split_ifs at h
  · simpa using h
  · simp at h

theorem within_fat32WriteFile {size : ℕ} (hp : (Use.string mem p).Within ranges)
    (hq : (Use.buffer q (if size ≠ 0 then size else 1)).Within ranges) :
    ∀ u ∈ fat32WriteFile k mem p q size, u.Within ranges := by
  intro u hu
  rcases mem_append.mp hu with hu | hu
  · rwa [eq_string_of_mem_fat32Path hu]
  · split_ifs at hu
    · obtain rfl := mem_singleton.mp hu
      exact buffer_within_sub hq le_rfl (by split_ifs <;> omega)
    · simp at hu

theorem within_ggufMigrateDataToHighMem {size dataOffset : ℕ}
    (hp : (Use.buffer p size).Within ranges) :
    ∀ u ∈ ggufMigrateDataToHighMem k p size dataOffset, u.Within ranges := by
  intro u hu
  unfold ggufMigrateDataToHighMem at hu
  split_ifs at hu
  · simp at hu
  · rw [mem_singleton.mp hu]
    exact buffer_within_sub hp (Nat.le_add_right _ _) (by omega)

theorem within_llmLoadModelModule {size name : ℕ} (hp : (Use.buffer p size).Within ranges)
    (hname : name ≠ 0 → (Use.string mem name).Within ranges) (hsize : size < 2 ^ 32) :
    ∀ u ∈ llmLoadModelModule k mem p (p + size) name, u.Within ranges := by
  intro u hu
  unfold llmLoadModelModule at hu
  by_cases hend : p + size ≤ p
  · simp [hend] at hu
  · simp only [if_neg hend, Nat.add_sub_cancel_left, mem_append, mem_cons] at hu
    rcases hu with (hu | hu) | rfl | hu
    · split_ifs at hu with hn
      · rw [mem_singleton.mp hu]
        exact hname hn
      · simp at hu
    · unfold llmValidateMicrokModel at hu
      split_ifs at hu
      · simp at hu
      · rw [mem_singleton.mp hu]
        exact buffer_within_sub hp le_rfl (by omega)
    · obtain ⟨r, hr, htop, hlow, hhigh⟩ := hp
      exact ⟨r, hr, htop, (Gguf.halts_readModule hsize p _ _).1, hlow, hhigh⟩
    · split at hu
      · exact within_ggufMigrateDataToHighMem hp u hu
      · simp at hu

end

end MicroK.Syscall
