import MicroK.Syscalls

/-!
# The checks of the system calls

Buffers are checked with the length that is used, strings with their first byte. This holds of every
call but the eight that only test a pointer for null.
-/

namespace MicroK.Syscall

open UserAccess UserAccess.Call Vmm List

/-- The calls that use a pointer which was tested for null only. -/
def Unchecked (k : Kernel) (syscallNum arg1 arg2 arg3 : ℕ) : Prop :=
  match syscallNum with
  | 10 | 11 | 12 => arg1 ≠ 0
  | 23 | 24 => arg1 ≠ 0 ∧ arg2 ≠ 0
  | 31 => arg1 ≠ 0 ∧ k.fat32Mounted = true
  | 32 => arg1 ≠ 0 ∧ arg2 ≠ 0 ∧ k.fat32Mounted = true
  | 33 => arg1 ≠ 0 ∧ arg3 ≠ 0 ∧ k.fat32Mounted = true
  | _ => False

def nullTestedCalls : List ℕ := [10, 11, 12, 23, 24, 31, 32, 33]

/-- The calls that take a string of unknown length. -/
def stringCalls : List ℕ := [1, 5, 7, 13, 14, 16, 17, 21, 22, 27, 35, 36, 45, 46, 47, 50, 59]

variable {num p len : ℕ} {us : List Use}

section

variable {k : Kernel} {s : Paging} {mem : ℕ → ℕ} {arg1 arg2 arg3 : ℕ}

theorem handler_eq_done (hmem : num ∈ nullTestedCalls) (hnum : ¬ Unchecked k num arg1 arg2 arg3) :
    syscallHandler k s mem num arg1 arg2 arg3 = done := by
  simp only [nullTestedCalls, mem_cons, not_mem_nil, or_false] at hmem
  rcases hmem with rfl | rfl | rfl | rfl | rfl | rfl | rfl | rfl
  · exact if_neg hnum
  · exact if_neg hnum
  · exact if_neg hnum
  · exact if_neg hnum
  · exact if_neg hnum
  all_goals
    simp only [Unchecked, ne_eq] at hnum
    simp only [syscallHandler, fat32GetSize, fat32LoadFile, fat32GetEntryByIndex, fat32Path]
    cases hk : k.fat32Mounted
    · cases k.file <;> cases k.entryName <;> simp [use, done]
    · simp only [hk, and_true] at hnum
      exact if_neg hnum

theorem not_contained_of_unchecked (hnum : Unchecked k num arg1 arg2 arg3) :
    ¬ (syscallHandler k s mem num arg1 arg2 arg3).Contained := by
  have hbuffer (p : ℕ) {len : ℕ} (hlen : 0 < len) : (Use.buffer p len).Touches (u32 p) :=
    ⟨0, hlen, rfl⟩
  unfold Unchecked at hnum
  split at hnum
  · rw [syscallHandler, if_pos hnum]
    exact not_contained_of_touches (mem_singleton_self _) (hbuffer arg1 (by decide))
  · rw [syscallHandler, if_pos hnum]
    exact not_contained_of_touches (mem_singleton_self _) (hbuffer arg1 (by decide))
  · rw [syscallHandler, if_pos hnum]
    exact not_contained_of_touches (mem_singleton_self _) (hbuffer arg1 (by decide))
  · rw [syscallHandler, if_pos hnum]
    exact not_contained_of_touches (mem_append_right _ (mem_singleton_self _))
      (hbuffer arg2 (by decide))
  · rw [syscallHandler, if_pos hnum]
    exact not_contained_of_touches (mem_append_right _ (mem_singleton_self _))
      (hbuffer arg2 (by decide))
  · rw [syscallHandler, if_pos hnum.1]
    exact not_contained_of_touches (by simp [fat32GetSize, fat32Path, hnum.2])
      (touches_string_head mem arg1)
  · rw [syscallHandler, if_pos ⟨hnum.1, hnum.2.1⟩]
    exact not_contained_of_touches (by simp [fat32LoadFile, fat32Path, hnum.2.2])
      (touches_string_head mem arg1)
  · rw [syscallHandler, if_pos ⟨hnum.1, hnum.2.1⟩]
    exact not_contained_of_touches (by simp [fat32GetEntryByIndex, fat32Path, hnum.2.2])
      (touches_string_head mem arg1)
  · exact hnum.elim

theorem guarded_buffer_call {ranges : List (ℕ × ℕ)} {c : Call} (hp : p < 2 ^ 32)
    (hlen : len < 2 ^ 32)
    (hus : (Use.buffer p len).Within ((p, len) :: ranges) → ∀ u ∈ us, u.Within ((p, len) :: ranges))
    (hc : Guarded ((p, len) :: ranges) c) : Guarded ranges (check (uptrOk s) p len (use us c)) := by
  apply guarded_check
  intro hok
  exact guarded_use (hus (buffer_within (uptrOk_bound hp hlen hok) mem_cons_self)) hc

theorem guarded_statusString {buf size : ℕ} (hbuf : buf < 2 ^ 32) (hpos : 0 < size)
    (hsize : size < 2 ^ 32) : Guarded [] (statusString s buf size) := by
  refine guarded_buffer_call hbuf hsize (fun hwithin u hu => ?_) (guarded_done _)
  rcases mem_pair.mp hu with rfl | rfl
  · exact buffer_within_sub hwithin le_rfl (by omega)
  · exact buffer_within_sub hwithin (Nat.le_add_right _ _) (by omega)

theorem guarded_store (hp : p < 2 ^ 32) (hlen : len < 2 ^ 32) :
    Guarded [] (check (uptrOk s) p len (use [.buffer p len] done)) := by
  refine guarded_buffer_call hp hlen (fun hwithin u hu => ?_) (guarded_done _)
  rwa [mem_singleton.mp hu]

theorem guarded_string_call (mem : ℕ → ℕ) (hp : p < 2 ^ 32) (hus : ∀ u ∈ us, u = .string mem p) :
    Guarded [] (ustrOk s p (use us done)) := by
  apply guarded_check
  intro _
  refine guarded_use (fun u hu => ?_) (guarded_done _)
  rw [hus u hu]
  exact string_within mem hp mem_cons_self

theorem guarded_string_buffer_call (mem : ℕ → ℕ) {q : ℕ} (hp : p < 2 ^ 32) (hq : q < 2 ^ 32)
    (hlen : len < 2 ^ 32)
    (hus : ∀ ranges, (Use.string mem p).Within ranges → (Use.buffer q len).Within ranges →
      ∀ u ∈ us, u.Within ranges) :
    Guarded [] (ustrOk s p (check (uptrOk s) q len (use us done))) := by
  apply guarded_check
  intro _
  refine guarded_buffer_call hq hlen (hus _ (string_within mem hp ?_)) (guarded_done _)
  exact .tail _ mem_cons_self

theorem guarded_loadModel (h1 : arg1 < 2 ^ 32) (h2 : arg2 < 2 ^ 32) (h3 : arg3 < 2 ^ 32) :
    Guarded [] (syscallHandler k s mem 17 arg1 arg2 arg3) := by
  apply guarded_check
  intro hok
  have hbound := uptrOk_bound h1 h2 hok
  have hmodel {ranges : List (ℕ × ℕ)} (h : (arg1, arg2) ∈ ranges)
      (hname : arg3 ≠ 0 → (Use.string mem arg3).Within ranges)
        (hstop : ¬ u32 (arg1 + arg2) < arg1) :
      Guarded ranges
        (use (llmLoadModelModule k mem arg1 (u32 (arg1 + arg2)) arg3) done) := by
    have hstop : u32 (arg1 + arg2) = arg1 + arg2 := by
      unfold u32 at hstop ⊢
      omega
    rw [hstop]
    exact guarded_use (within_llmLoadModelModule (buffer_within hbound h) hname h2) (guarded_done _)
  split_ifs with hwrap hnull
  · exact guarded_done _
  · exact hmodel mem_cons_self (fun hne => absurd hnull hne) hwrap
  · apply guarded_check
    intro _
    exact hmodel (.tail _ mem_cons_self)
      (fun _ => string_within mem h3 mem_cons_self) hwrap

theorem guarded_createFile (arg3 : ℕ) (h1 : arg1 < 2 ^ 32) (h2 : arg2 < 2 ^ 32) :
    Guarded [] (syscallHandler k s mem 21 arg1 arg2 arg3) := by
  refine guarded_string_buffer_call mem h1 h2 (by norm_num) fun ranges hp hq u hu => ?_
  rcases mem_append.mp hu with hu | hu
  · rwa [eq_string_of_mem_fat32Path hu]
  · rwa [mem_singleton.mp hu]

theorem guarded_configStatic (k : Kernel) (arg3 : ℕ) (h1 : arg1 < 2 ^ 32) (h2 : arg2 < 2 ^ 32) :
    Guarded [] (syscallHandler k s mem 27 arg1 arg2 arg3) := by
  apply guarded_check
  intro hok1
  apply guarded_check
  intro hok2
  have hb1 := uptrOk_bound h1 (by norm_num) hok1
  have hb2 := uptrOk_bound h2 (by norm_num) hok2
  have hargs (offset : ℕ) (ho : offset + 4 ≤ 12) {ranges : List (ℕ × ℕ)} (h : (arg1, 12) ∈ ranges) :
      ∀ u ∈ [Use.buffer (arg1 + offset) 4], u.Within ranges := by
    intro u hu
    rw [mem_singleton.mp hu]
    exact buffer_within_sub (buffer_within hb1 h) (Nat.le_add_right _ _) (by omega)
  refine guarded_use (hargs 0 (by norm_num) (by simp)) (guarded_check fun _ => ?_)
  refine guarded_use (hargs 4 (by norm_num) (by simp)) (guarded_check fun _ => ?_)
  refine guarded_use (hargs 8 (by norm_num) (by simp)) (guarded_check fun _ => ?_)
  refine guarded_use (fun u hu => ?_) (guarded_done _)
  simp only [netConfigStatic, cons_append, nil_append, mem_cons, not_mem_nil,
    or_false] at hu
  rcases hu with rfl | rfl | rfl | rfl
  · exact string_within mem (u32_lt _) (by simp)
  · exact string_within mem (u32_lt _) (by simp)
  · exact string_within mem (u32_lt _) (by simp)
  · exact buffer_within hb2 (by simp)

theorem guarded_memoryRegion (mem : ℕ → ℕ) (h2 : arg2 < 2 ^ 32) (h3 : arg3 < 2 ^ 32) :
    Guarded [] (syscallHandler k s mem 29 arg1 arg2 arg3) := by
  apply guarded_check
  intro hok2
  refine guarded_buffer_call h3 (by norm_num) (fun h u hu => ?_) (guarded_done _)
  rcases mem_append.mp hu with hu | hu
  · unfold pmmGetMemoryRegion at hu
    split_ifs at hu
    · simp at hu
    · rw [mem_singleton.mp hu]
      exact buffer_within (uptrOk_bound h2 (by decide) hok2) (by simp)
  · rwa [mem_singleton.mp hu]

theorem guarded_shmAttach (mem : ℕ → ℕ) (h2 : arg2 < 2 ^ 32) (h3 : arg3 < 2 ^ 32) :
    Guarded [] (syscallHandler k s mem 55 arg1 arg2 arg3) := by
  apply guarded_check
  intro hok2
  have hb2 := uptrOk_bound h2 (by norm_num) hok2
  have hattach {ranges : List (ℕ × ℕ)} (h : (arg2, 4) ∈ ranges)
      (hsize : arg3 ≠ 0 → (Use.buffer arg3 4).Within ranges) :
      Guarded ranges (use (ipcShmAttach k arg1 arg2 arg3) done) := by
    refine guarded_use (fun u hu => ?_) (guarded_done _)
    unfold ipcShmAttach at hu
    split_ifs at hu with _ haddr hne hne
    all_goals simp only [nil_append, append_nil, not_mem_nil,
      cons_append, mem_cons, or_false] at hu
    · rcases hu with rfl | rfl
      · exact buffer_within hb2 h
      · exact hsize hne
    · rw [hu]
      exact buffer_within hb2 h
    · rw [hu]
      exact hsize hne
  split_ifs with hnull
  · exact hattach mem_cons_self fun hne => absurd hnull hne
  · apply guarded_check
    intro hok3
    exact hattach (.tail _ mem_cons_self) fun _ =>
      buffer_within (uptrOk_bound h3 (by norm_num) hok3) mem_cons_self

theorem guarded_httpGet (h1 : arg1 < 2 ^ 32) (h2 : arg2 < 2 ^ 32) (h3 : arg3 < 2 ^ 32) :
    Guarded [] (syscallHandler k s mem 63 arg1 arg2 arg3) := by
  apply guarded_check
  intro hok1
  have hb1 := uptrOk_bound h1 (by decide) hok1
  apply guarded_check
  intro hok2
  have hreq : (Use.buffer arg1 httpRequestSize).Within
      [(arg2, arg3), (arg1, httpRequestSize)] := buffer_within hb1 (by simp)
  have hout : (Use.buffer arg2 arg3).Within [(arg2, arg3), (arg1, httpRequestSize)] :=
    buffer_within (uptrOk_bound h2 h3 hok2) (by simp)
  have hstring (m : ℕ → ℕ) {p : ℕ} (hle : arg1 ≤ p) (hlt : p < arg1 + httpRequestSize) :
      (Use.string m p).Within [(arg2, arg3), (arg1, httpRequestSize)] :=
    ⟨(arg1, httpRequestSize), by simp, hb1, hle, hlt⟩
  refine guarded_use (fun u hu => ?_) (guarded_use (fun u hu => ?_) (guarded_done _))
  · simp only [mem_cons, not_mem_nil, or_false] at hu
    rcases hu with rfl | rfl | rfl <;>
      exact buffer_within_sub hreq (Nat.le_add_right _ _)
        (by simp only [httpHostSize, httpPathSize, httpRequestSize]; omega)
  · unfold netHttpGet at hu
    split_ifs at hu
    · simp at hu
    · simp only [mem_cons, not_mem_nil, or_false] at hu
      rcases hu with rfl | rfl | rfl
      · exact hstring _ le_rfl (by simp [httpRequestSize])
      · exact hstring _ (Nat.le_add_right _ _) (by simp [httpHostSize, httpRequestSize])
      · exact buffer_within_sub hout le_rfl (by omega)
    · rw [mem_singleton.mp hu]
      exact hstring _ le_rfl (by simp [httpRequestSize])

theorem guarded_shmCreate (mem : ℕ → ℕ) (arg1 : ℕ) (h3 : arg3 < 2 ^ 32) :
    Guarded [] (syscallHandler k s mem 54 arg1 arg2 arg3) := by
  refine guarded_buffer_call h3 (by norm_num) (fun hwithin u hu => ?_) (guarded_done _)
  unfold ipcShmCreate at hu
  split_ifs at hu
  · simp at hu
  · rwa [mem_singleton.mp hu]

theorem guarded_optional_string_call {b : Bool} {us : List Use} (hp : p < 2 ^ 32)
    (hus : ∀ u ∈ us, u = .string mem p) :
    Guarded [] (ustrOk s p (use (if b then us else []) done)) := by
  refine guarded_string_call mem hp fun u hu => ?_
  split_ifs at hu
  · exact hus u hu
  · simp at hu

theorem guarded_stringCalls (h1 : arg1 < 2 ^ 32) (h2 : arg2 < 2 ^ 32) (h3 : arg3 < 2 ^ 32)
    (hcall : num ∈ stringCalls) : Guarded [] (syscallHandler k s mem num arg1 arg2 arg3) := by
  have hpath : ∀ u ∈ fat32Path k mem arg1, u = .string mem arg1 :=
    fun u => eq_string_of_mem_fat32Path
  have hstring : ∀ u ∈ [Use.string mem arg1], u = .string mem arg1 := fun u => mem_singleton.mp
  simp only [stringCalls, mem_cons, not_mem_nil, or_false] at hcall
  rcases hcall with rfl | rfl | rfl | rfl | rfl | rfl | rfl | rfl | rfl | rfl | rfl | rfl | rfl |
    rfl | rfl | rfl | rfl
  · exact guarded_string_call mem h1 hstring
  · exact guarded_string_buffer_call mem h1 h2 (by norm_num) fun _ => within_llmInference
  · exact guarded_string_buffer_call mem h1 h2 (by norm_num) fun _ => within_readFile
  · by_cases hnull : arg1 ≠ 0
    · rw [syscallHandler, if_pos hnull]
      exact guarded_string_call mem h1 hpath
    · rw [syscallHandler, if_neg hnull]
      exact guarded_done _
  · exact guarded_optional_string_call h1 hpath
  · exact guarded_optional_string_call h1 hstring
  · exact guarded_loadModel h1 h2 h3
  · exact guarded_createFile arg3 h1 h2
  · refine guarded_string_buffer_call mem h1 h2 ?_ fun _ => within_fat32WriteFile
    split_ifs <;> omega
  · exact guarded_configStatic k arg3 h1 h2
  · exact guarded_string_call mem h1 hstring
  · exact guarded_string_call mem h1 hpath
  · exact guarded_optional_string_call h1 hstring
  · refine guarded_string_buffer_call mem h1 h2 (by norm_num) fun ranges hp hq u hu => ?_
    rcases mem_pair.mp hu with rfl | rfl
    · exact hp
    · exact buffer_within_sub hq le_rfl (by split_ifs <;> omega)
  · exact guarded_string_call mem h1 hstring
  · exact guarded_string_call mem h1 hstring
  · exact guarded_string_buffer_call mem h1 h2 (by norm_num) fun _ => within_llmDumpLogits

/-- Whatever is checked for a call covers its buffers and the first bytes of its strings. -/
theorem guarded_handler (h1 : arg1 < 2 ^ 32) (h2 : arg2 < 2 ^ 32) (h3 : arg3 < 2 ^ 32)
    (hnum : ¬ Unchecked k num arg1 arg2 arg3) :
    Guarded [] (syscallHandler k s mem num arg1 arg2 arg3) := by
  by_cases hcall : num ∈ stringCalls
  · exact guarded_stringCalls h1 h2 h3 hcall
  by_cases hmem : num ∈ nullTestedCalls
  · rw [handler_eq_done hmem hnum]
    exact guarded_done _
  unfold syscallHandler
  split
  any_goals
    refine absurd ?_ hcall
    decide
  any_goals
    refine absurd ?_ hmem
    decide
  any_goals exact guarded_statusString h1 (by norm_num) (by norm_num)
  any_goals exact guarded_store h1 (by decide)
  · exact guarded_memoryRegion mem h2 h3
  · exact guarded_shmCreate mem arg1 h3
  · exact guarded_shmAttach mem h2 h3
  · exact guarded_httpGet h1 h2 h3
  · split_ifs
    · exact guarded_store h2 (by norm_num)
    · exact guarded_done _
  · exact guarded_done _

theorem tails_statusString (buf size : ℕ) : (statusString s buf size).StringTails := by
  refine tails_check (tails_use_buffers (fun u hu => ?_) tails_done) _ _ _
  rcases mem_pair.mp hu with rfl | rfl <;> exact ⟨_, _, rfl⟩

theorem tails_store (p len : ℕ) :
    (check (uptrOk s) p len (use [.buffer p len] done)).StringTails := by
  refine tails_check (tails_use_buffers (fun u hu => ?_) tails_done) _ _ _
  exact ⟨p, len, mem_singleton.mp hu⟩

theorem tails_httpGet (h1 : arg1 < 2 ^ 32) :
    (syscallHandler k s mem 63 arg1 arg2 arg3).StringTails := by
  refine tails_check_of_inside fun hok m p hu i hin => ?_
  have hbound := uptrOk_bound h1 (by decide) hok
  unfold httpRequestSize at hbound ⊢
  have hhost : httpTerminated mem arg1 (u32 (arg1 + 63)) = 0 := by
    rw [u32_of_lt (by omega)]
    simp [httpTerminated, httpHostSize, httpPathSize]
  have hpath : httpTerminated mem arg1 (u32 (arg1 + 64 + 127)) = 0 := by
    rw [u32_of_lt (by omega)]
    simp [httpTerminated, httpHostSize, httpPathSize]
  have hinside : arg1 ≤ p ∧ p + i < arg1 + 194 := by
    have hu := mem_uses_of_check hu
    simp only [use, done, netHttpGet, append_nil, mem_append, mem_cons,
      reduceCtorEq, not_mem_nil, or_self, false_or] at hu
    split_ifs at hu
    · simp at hu
    · simp only [mem_cons, Use.string.injEq, reduceCtorEq, not_mem_nil, or_false] at hu
      rcases hu with ⟨rfl, rfl⟩ | ⟨rfl, rfl⟩
      · have := inString_le hin hhost
        omega
      · have := inString_le hin hpath
        unfold httpHostSize
        omega
    · simp only [mem_singleton, Use.string.injEq] at hu
      obtain ⟨rfl, rfl⟩ := hu
      have := inString_le hin hhost
      omega
  rw [u32_of_lt (by omega)]
  omega

/-- Outside the calls with strings of unknown length nothing is read beyond what was checked. -/
theorem tails_handler {num : ℕ} (h1 : arg1 < 2 ^ 32) (hcall : num ∉ stringCalls)
    (hnum : ¬ Unchecked k num arg1 arg2 arg3) :
    (syscallHandler k s mem num arg1 arg2 arg3).StringTails := by
  by_cases hmem : num ∈ nullTestedCalls
  · rw [handler_eq_done hmem hnum]
    exact tails_done
  unfold syscallHandler
  split
  any_goals
    refine absurd ?_ hcall
    decide
  any_goals
    refine absurd ?_ hmem
    decide
  any_goals exact tails_statusString _ _
  any_goals exact tails_store _ _
  · refine tails_check (tails_check (tails_use_buffers (fun u hu => ?_) tails_done) _ _ _) _ _ _
    unfold pmmGetMemoryRegion at hu
    split_ifs at hu
    · exact ⟨_, _, mem_singleton.mp hu⟩
    · rcases mem_pair.mp hu with rfl | rfl <;> exact ⟨_, _, rfl⟩
  · refine tails_check (tails_use_buffers (fun u hu => ?_) tails_done) _ _ _
    unfold ipcShmCreate at hu
    split_ifs at hu
    · simp at hu
    · exact ⟨_, _, mem_singleton.mp hu⟩
  · have hattach : (use (ipcShmAttach k arg1 arg2 arg3) done).StringTails := by
      refine tails_use_buffers (fun u hu => ?_) tails_done
      unfold ipcShmAttach at hu
      split_ifs at hu
      · simp at hu
      · rcases mem_pair.mp hu with rfl | rfl <;> exact ⟨_, _, rfl⟩
      · exact ⟨_, _, mem_singleton.mp hu⟩
      · exact ⟨_, _, mem_singleton.mp hu⟩
      · simp at hu
    refine tails_check ?_ _ _ _
    split_ifs
    · exact hattach
    · exact tails_check hattach _ _ _
  · exact tails_httpGet h1
  · split_ifs
    · exact tails_store _ _
    · exact tails_done
  · exact tails_done

end

end MicroK.Syscall
