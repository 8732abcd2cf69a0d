import MicroK.SyscallGuards

/-!
# The strings of the system calls

Of a string only the first byte is checked. Its rest lies in what the call has checked when the
string is empty, or when it runs on inside a buffer of the same call.
-/

namespace MicroK.UserAccess

open List

/-- The tails of the strings of a call lie in `ranges` and in what the call itself accepts. -/
def Call.TailsIn (ranges : List (ℕ × ℕ)) (c : Call) : Prop :=
  ∀ mem addr, .string mem addr ∈ c.uses → TailIn mem addr (ranges ++ c.accepted)

variable {ranges : List (ℕ × ℕ)} {ok : ℕ → ℕ → Bool} {addr len : ℕ} {c : Call} {us : List Use}

theorem tailsIn_done : Call.done.TailsIn ranges := by
  intro mem addr hu
  simp [Call.done] at hu

theorem tailsIn_check : (Call.check ok addr len c).TailsIn ranges ↔
    (ok addr len = true → c.TailsIn (ranges ++ [(addr, len)])) := by
  unfold Call.check
  split_ifs with hok
  · simp only [Call.TailsIn, append_assoc, singleton_append, hok, forall_const]
  · exact ⟨fun _ h => absurd h hok, fun _ => tailsIn_done⟩

theorem stringTails_check_iff : (Call.check ok addr len c).StringTails ↔
    (ok addr len = true → c.TailsIn [(addr, len)]) := by
  have h : (Call.check ok addr len c).TailsIn [] ↔
      (ok addr len = true → c.TailsIn ([] ++ [(addr, len)])) := tailsIn_check
  exact h

theorem tailsIn_use_done : (Call.use us Call.done).TailsIn ranges ↔
    ∀ mem addr, .string mem addr ∈ us → TailIn mem addr ranges := by
  simp only [Call.TailsIn, Call.use, Call.done, append_nil]

theorem tailsIn_use_buffer : (Call.use [.buffer addr len] c).TailsIn ranges ↔
    c.TailsIn ranges := by
  simp only [Call.TailsIn, Call.use, singleton_append, mem_cons, reduceCtorEq, false_or]

/-- The only string that is used is the one at `addr`, and it is used if `reads` holds. -/
def OnlyString (us : List Use) (mem : ℕ → ℕ) (addr : ℕ) (reads : Bool) : Prop :=
  ∀ m a, .string m a ∈ us ↔ reads = true ∧ m = mem ∧ a = addr

theorem OnlyString.tailsIn_iff {mem : ℕ → ℕ} {reads : Bool} (h : OnlyString us mem addr reads) :
    (Call.use us Call.done).TailsIn ranges ↔ (reads = true → TailIn mem addr ranges) := by
  rw [tailsIn_use_done]
  constructor
  · intro htails hreads
    exact htails mem addr ((h mem addr).mpr ⟨hreads, rfl, rfl⟩)
  · intro htail m a hu
    obtain ⟨hreads, rfl, rfl⟩ := (h m a).mp hu
    exact htail hreads

end MicroK.UserAccess

namespace MicroK.Syscall

open UserAccess UserAccess.Call Vmm List

def Kernel.readsPrompt (k : Kernel) : Bool :=
  match k.backend with
  | .none => false
  | .ggufGen => k.tokenizer
  | .ggufParser => k.traceOn && k.tokenizer
  | .mkrp | .mknn | .unknown => true

/-- The function behind a call gets to its string. -/
def Kernel.readsString (k : Kernel) : ℕ → Bool
  | 5 => k.readsPrompt
  | 7 => !k.initrd.isEmpty
  | 13 | 21 | 22 | 36 => k.fat32Mounted
  | 14 => k.catBuffer && k.fat32Mounted
  | 16 => k.extMounted && k.catBuffer
  | 45 => k.nicReady
  | 59 => k.backend = .ggufGen && k.tokenizer
  | _ => true

section

variable (s : Paging) (mem : ℕ → ℕ)

/-- An accepted string that the call has nothing else checked for is empty. -/
def EmptyString (p : ℕ) : Prop := uptrOk s p 1 = true → mem p = 0

/-- An accepted string is empty or runs on in the buffer that is accepted for the same call. -/
def StringBeside (p buf len : ℕ) : Prop :=
  uptrOk s p 1 = true → uptrOk s buf len = true → TailIn mem p [(p, 1), (buf, len)]

/-- The name of a model, next to the model. -/
def NameBeside (start size name : ℕ) : Prop :=
  uptrOk s start size = true → 0 < size → start + size < 2 ^ 32 → name ≠ 0 →
    uptrOk s name 1 = true → TailIn mem name [(start, size), (name, 1)]

/-- The three texts of a network configuration, next to the request, the result and each other. -/
def TextsBeside (request result : ℕ) : Prop :=
  let texts := [loadWord mem request, loadWord mem (request + 4), loadWord mem (request + 8)]
  let checked := (request, 12) :: (result, 4) :: texts.map fun p => (p, 1)
  (∀ r ∈ checked, uptrOk s r.1 r.2 = true) → ∀ p ∈ texts, TailIn mem p checked

variable (k : Kernel)

/-- What the string calls need of their arguments and the memory. -/
def StringsInside (num arg1 arg2 arg3 : ℕ) : Prop :=
  match num with
  | 1 | 13 | 14 | 16 | 35 | 36 | 45 | 47 | 50 => k.readsString num = true → EmptyString s mem arg1
  | 5 | 59 => k.readsString num = true → StringBeside s mem arg1 arg2 128
  | 7 => k.readsString num = true → StringBeside s mem arg1 arg2 256
  | 17 => NameBeside s mem arg1 arg2 arg3
  | 21 | 46 => k.readsString num = true → StringBeside s mem arg1 arg2 4
  | 22 =>
    k.readsString num = true → StringBeside s mem arg1 arg2 (if arg3 ≠ 0 then arg3 else 1)
  | 27 => TextsBeside s mem arg1 arg2
  | _ => True

end

variable {k : Kernel} {s : Paging} {mem : ℕ → ℕ} {us : List Use} {reads : Bool}
  {num p q len arg1 arg2 arg3 : ℕ}

theorem tails_alone_iff (hp : p < 2 ^ 32) (h : OnlyString us mem p reads) :
    (ustrOk s p (use us done)).StringTails ↔ (reads = true → EmptyString s mem p) := by
  have hiff : (ustrOk s p (use us done)).StringTails ↔
      (uptrOk s p 1 = true → reads = true → TailIn mem p [(p, 1)]) :=
    stringTails_check_iff.trans (forall_congr' fun _ => h.tailsIn_iff)
  rw [hiff, tailIn_self_iff mem hp]
  exact forall_comm

theorem tails_beside_iff (h : OnlyString us mem p reads) :
    (ustrOk s p (check (uptrOk s) q len (use us done))).StringTails ↔
      (reads = true → StringBeside s mem p q len) := by
  have hiff : (ustrOk s p (check (uptrOk s) q len (use us done))).StringTails ↔
      (uptrOk s p 1 = true → uptrOk s q len = true → reads = true →
        TailIn mem p [(p, 1), (q, len)]) :=
    stringTails_check_iff.trans (forall_congr' fun _ =>
      tailsIn_check.trans (forall_congr' fun _ => h.tailsIn_iff))
  rw [hiff]
  exact ⟨fun hall hr hp hq => hall hp hq hr, fun hall hp hq hr => hall hr hp hq⟩

theorem onlyString_singleton (mem : ℕ → ℕ) (p : ℕ) : OnlyString [.string mem p] mem p true := by
  intro m a
  simp

theorem onlyString_ite (h : OnlyString us mem p reads) (b : Bool) :
    OnlyString (if b then us else []) mem p (b && reads) := by
  intro m a
  cases b with
  | false => simp
  | true => simpa using h m a

theorem onlyString_append {vs : List Use} (h : OnlyString us mem p reads)
    (hvs : ∀ m a, .string m a ∉ vs) : OnlyString (us ++ vs) mem p reads := by
  intro m a
  rw [mem_append, or_iff_left (hvs m a)]
  exact h m a

theorem onlyString_fat32Path (k : Kernel) (mem : ℕ → ℕ) (p : ℕ) :
    OnlyString (fat32Path k mem p) mem p k.fat32Mounted := by
  have h := onlyString_ite (onlyString_singleton mem p) k.fat32Mounted
  rwa [Bool.and_true] at h

theorem string_notMem_copyResponse (m : ℕ → ℕ) (a response len : ℕ) :
    .string m a ∉ copyResponse response len := by
  simp [copyResponse]

theorem string_notMem_appendStrs (m : ℕ → ℕ) (a out max : ℕ) (lens : List ℕ) :
    ∀ pos, .string m a ∉ appendStrs out max pos lens := by
  induction lens with
  | nil => simp [appendStrs]
  | cons len lens ih =>
    intro pos
    simp only [appendStrs, mem_cons, reduceCtorEq, false_or]
    exact ih _

theorem onlyString_llmInference (k : Kernel) (mem : ℕ → ℕ) (p q : ℕ) :
    OnlyString (llmInference k mem p q) mem p k.readsPrompt := by
  have hcopy (len : ℕ) (m : ℕ → ℕ) (a : ℕ) := string_notMem_copyResponse m a q len
  intro m a
  unfold llmInference llmTryGgufInference Kernel.readsPrompt copyCstrResponse
  cases k.backend with
  | none => simpa using hcopy _ m a
  | ggufGen =>
    cases k.tokenizer with
    | false => simpa using hcopy _ m a
    | true => cases k.replyLen <;> simp [hcopy, string_notMem_appendStrs]
  | ggufParser =>
    cases k.traceOn && k.tokenizer with
    | false => simpa using hcopy _ m a
    | true => simp [hcopy]
  | mkrp => simp [hcopy]
  | mknn => simp [hcopy]
  | unknown => simp [hcopy]

theorem onlyString_llmDumpLogits (k : Kernel) (mem : ℕ → ℕ) (p q : ℕ) :
    OnlyString (llmDumpLogits k mem p q) mem p (k.backend = .ggufGen && k.tokenizer) := by
  have hcopy (len : ℕ) (m : ℕ → ℕ) (a : ℕ) := string_notMem_copyResponse m a q len
  intro m a
  unfold llmDumpLogits copyCstrResponse
  cases k.backend with
  | ggufGen =>
    cases k.tokenizer with
    | false => simpa using hcopy _ m a
    | true => simp [hcopy]
  | _ => simpa using hcopy _ m a

theorem onlyString_readFile (k : Kernel) (mem : ℕ → ℕ) (p q : ℕ) :
    OnlyString (readFile k mem p q) mem p (!k.initrd.isEmpty) := by
  refine onlyString_append ?_ fun m a => ?_
  · intro m a
    cases k.initrd.isEmpty <;> simp
  · cases initrdFindNode k mem p <;> simp

theorem onlyString_fat32WriteFile (k : Kernel) (mem : ℕ → ℕ) (p q size : ℕ) :
    OnlyString (fat32WriteFile k mem p q size) mem p k.fat32Mounted := by
  refine onlyString_append (onlyString_fat32Path k mem p) fun m a => ?_
  split_ifs <;> simp

theorem onlyString_loadModelModule (k : Kernel) (mem : ℕ → ℕ) {start stop : ℕ}
    (h : start < stop) (name : ℕ) :
    OnlyString (llmLoadModelModule k mem start stop name) mem name (name ≠ 0) := by
  unfold llmLoadModelModule
  rw [if_neg (by omega), append_assoc]
  refine onlyString_append ?_ fun m a => ?_
  · have hname := onlyString_ite (onlyString_singleton mem name) (name ≠ 0)
    simpa using hname
  · simp only [mem_append, mem_cons, reduceCtorEq, false_or, not_or]
    refine ⟨?_, ?_⟩
    · unfold llmValidateMicrokModel
      split_ifs <;> simp
    · split
      · unfold ggufMigrateDataToHighMem
        split_ifs <;> simp
      · simp

theorem tails_loadModel_iff (h1 : arg1 < 2 ^ 32) (h2 : arg2 < 2 ^ 32) :
    (syscallHandler k s mem 17 arg1 arg2 arg3).StringTails ↔ NameBeside s mem arg1 arg2 arg3 := by
  refine stringTails_check_iff.trans (forall_congr' fun hok => ?_)
  have hbound := uptrOk_bound h1 h2 hok
  have hne : arg1 ≠ 0 := by
    rintro rfl
    simp [uptrOk] at hok
  by_cases hwrap : u32 (arg1 + arg2) < arg1
  · rw [if_pos hwrap]
    unfold u32 at hwrap
    exact ⟨fun _ _ hlt => by omega, fun _ => tailsIn_done⟩
  rw [if_neg hwrap]
  have hstop : u32 (arg1 + arg2) = arg1 + arg2 := by
    unfold u32 at hwrap ⊢
    omega
  rw [hstop]
  rcases Nat.eq_zero_or_pos arg2 with rfl | hpos
  · have hempty : llmLoadModelModule k mem arg1 (arg1 + 0) arg3 = [] := if_pos le_rfl
    refine ⟨fun _ hlt => absurd hlt (lt_irrefl 0), fun _ => ?_⟩
    rw [hempty]
    split_ifs
    · exact tailsIn_done
    · exact tailsIn_check.mpr fun _ => tailsIn_done
  have hlt : arg1 + arg2 < 2 ^ 32 := by
    have := u32_lt (arg1 + arg2)
    omega
  have hstart : arg1 < arg1 + arg2 := Nat.lt_add_of_pos_right hpos
  have honly := onlyString_loadModelModule k mem hstart arg3
  by_cases hnull : arg3 = 0
  · rw [if_pos hnull, honly.tailsIn_iff]
    simp [hnull]
  · rw [if_neg hnull]
    refine (tailsIn_check.trans (forall_congr' fun _ => honly.tailsIn_iff)).trans ?_
    exact ⟨fun h _ _ _ hname => h hname (decide_eq_true hnull),
      fun h hname _ => h hpos hlt hnull hname⟩

theorem tails_configStatic_iff : (syscallHandler k s mem 27 arg1 arg2 arg3).StringTails ↔
    TextsBeside s mem arg1 arg2 := by
  refine stringTails_check_iff.trans ?_
  simp only [tailsIn_check, ustrOk, tailsIn_use_buffer, tailsIn_use_done, netConfigStatic,
    cons_append, nil_append, mem_cons, Use.string.injEq, reduceCtorEq, not_mem_nil, or_false,
    TextsBeside, map_cons, map_nil, forall_eq_or_imp, forall_eq, and_imp]
  constructor
  · intro h hok1 hok2 hip hmask hgate
    have htail := h hok1 hok2 hip hmask hgate mem
    exact ⟨htail _ (.inl ⟨rfl, rfl⟩), htail _ (.inr (.inl ⟨rfl, rfl⟩)),
      htail _ (.inr (.inr ⟨rfl, rfl⟩))⟩
  · rintro h hok1 hok2 hip hmask hgate m a hu
    obtain ⟨h1, h2, h3⟩ := h hok1 hok2 hip hmask hgate
    rcases hu with ⟨rfl, rfl⟩ | ⟨rfl, rfl⟩ | ⟨rfl, rfl⟩
    · exact h1
    · exact h2
    · exact h3

theorem tails_stringCalls_iff (h1 : arg1 < 2 ^ 32) (h2 : arg2 < 2 ^ 32)
    (hcall : num ∈ stringCalls) : (syscallHandler k s mem num arg1 arg2 arg3).StringTails ↔
      StringsInside s mem k num arg1 arg2 arg3 := by
  have hstring := onlyString_singleton mem arg1
  have hpath := onlyString_fat32Path k mem arg1
  simp only [stringCalls, mem_cons, not_mem_nil, or_false] at hcall
  rcases hcall with rfl | rfl | rfl | rfl | rfl | rfl | rfl | rfl | rfl | rfl | rfl | rfl | rfl |
    rfl | rfl | rfl | rfl
  · exact tails_alone_iff h1 hstring
  · exact tails_beside_iff (onlyString_llmInference k mem arg1 arg2)
  · exact tails_beside_iff (onlyString_readFile k mem arg1 arg2)
  · by_cases hnull : arg1 ≠ 0
    · rw [syscallHandler, if_pos hnull]
      exact tails_alone_iff h1 hpath
    · rw [syscallHandler, if_neg hnull]
      exact ⟨fun _ _ hok => by simp [uptrOk, not_not.mp hnull] at hok, fun _ => tails_done⟩
  · exact tails_alone_iff h1 (onlyString_ite hpath k.catBuffer)
  · have hread := onlyString_ite hstring (k.extMounted && k.catBuffer)
    rw [Bool.and_true] at hread
    exact tails_alone_iff h1 hread
  · exact tails_loadModel_iff h1 h2
  · exact tails_beside_iff (onlyString_append hpath (by simp))
  · exact tails_beside_iff (onlyString_fat32WriteFile k mem arg1 arg2 arg3)
  · exact tails_configStatic_iff
  · exact tails_alone_iff h1 hstring
  · exact tails_alone_iff h1 hpath
  · have hread := onlyString_ite hstring k.nicReady
    rw [Bool.and_true] at hread
    exact tails_alone_iff h1 hread
  · refine tails_beside_iff fun m a => ?_
    simp [netDnsResolve, Kernel.readsString]
  · exact tails_alone_iff h1 hstring
  · exact tails_alone_iff h1 hstring
  · exact tails_beside_iff (onlyString_llmDumpLogits k mem arg1 arg2)

theorem stringsInside_of_notMem (hcall : num ∉ stringCalls) :
    StringsInside s mem k num arg1 arg2 arg3 := by
  unfold StringsInside
  split
  any_goals
    refine absurd ?_ hcall
    decide
  trivial

/-- A call stays within the ranges that it had accepted exactly when it is not one of the calls that
test a pointer for null only, and its strings are empty or run on inside its buffers. -/
theorem handler_contained_iff (k : Kernel) (s : Paging) (mem : ℕ → ℕ) (num : ℕ) {arg1 arg2 arg3 : ℕ}
    (h1 : arg1 < 2 ^ 32) (h2 : arg2 < 2 ^ 32) (h3 : arg3 < 2 ^ 32) :
    (syscallHandler k s mem num arg1 arg2 arg3).Contained ↔
      ¬ Unchecked k num arg1 arg2 arg3 ∧ StringsInside s mem k num arg1 arg2 arg3 := by
  constructor
  · intro h
    refine ⟨fun hun => not_contained_of_unchecked hun h, ?_⟩
    by_cases hcall : num ∈ stringCalls
    · exact (tails_stringCalls_iff h1 h2 hcall).mp ((contained_iff _).mp h).2
    · exact stringsInside_of_notMem hcall
  · rintro ⟨hnum, hinside⟩
    refine (contained_iff _).mpr ⟨guarded_handler h1 h2 h3 hnum, ?_⟩
    by_cases hcall : num ∈ stringCalls
    · exact (tails_stringCalls_iff h1 h2 hcall).mpr hinside
    · exact tails_handler h1 hcall hnum

def bareKernel : Kernel where
  initrd := []
  fat32Mounted := false
  extMounted := false
  catBuffer := false
  file := none
  transferred := 0
  entryName := none
  regionCount := 0
  backend := .mknn
  tokenizer := false
  traceOn := false
  words := []
  replyLen := none
  aliasAbort := fun _ _ _ => false
  layerAbort := fun _ _ _ => false
  migrated := 0
  shmFound := false
  shmActive := fun _ => false
  nicReady := false
  ipOctets := 0
  dnsReply := false
  connected := false
  received := 0

def onePage : Paging where
  paeActive := false
  root := 1
  tables := fun f i =>
    if f = 1 ∧ i = 1 then 0x2007 else if f = 2 ∧ i = 0 then 0x400007 else 0
  pmm := Pmm.smallPmm

def promptMemory (a : ℕ) : ℕ := if a = 0x400000 ∨ a = 0x400001 then 104 else 0

/-- A prompt of two letters that stands in the buffer of its answer. -/
theorem handler_contained_prompt :
    userPtrOk onePage 0x400000 128 = true ∧ promptMemory 0x400000 ≠ 0 ∧
      (syscallHandler bareKernel onePage promptMemory 5 0x400000 0x400000 0).Contained := by
  refine ⟨by decide +kernel, by decide, ?_⟩
  refine (handler_contained_iff bareKernel onePage promptMemory 5 (by norm_num) (by norm_num)
    (by norm_num)).mpr ⟨fun h => h, fun _ _ _ i hi hin => ?_⟩
  have hend : i ≤ 2 := inString_le hin (by decide)
  refine ⟨(0x400000, 128), by simp, ?_⟩
  rw [u32_of_lt (by omega)]
  omega

/-- The statistics of the page allocator go to a kernel address, and a text whose last byte is the
last of the user's page is read on into a page that is not the user's. -/
theorem pointers_escape :
    ¬ (syscallHandler bareKernel onePage (fun _ => 0) 10 0x100000 0 0).Contained ∧
      userPtrOk onePage 0x400FFF 1 = true ∧ userPtrOk onePage 0x401000 1 = false ∧
      ¬ (syscallHandler bareKernel onePage (fun a => if a = 0x400FFF then 97 else 0)
        1 0x400FFF 0 0).Contained := by
  refine ⟨not_contained_of_unchecked (show (0x100000 : ℕ) ≠ 0 by decide),
    by decide +kernel, by decide +kernel, ?_⟩
  intro h
  have hok : uptrOk onePage 0x400FFF 1 = true := by decide +kernel
  have hempty := (tails_stringCalls_iff (by norm_num) (by norm_num) (by decide)).mp
    ((contained_iff _).mp h).2
  exact absurd (hempty rfl hok) (by decide)

end MicroK.Syscall
