import MicroK.VmmRuns

/-!
# Pages within reach of user code

The identity map of `vmm_init` opens to user code the user section, the framebuffer and everything
from 16 MiB and the size of the bitmap on, whatever lies there. Every page that it maps is mapped
onto itself, so user code can write a page table only when the table lies in these ranges.
-/

namespace MicroK.Vmm

open Pmm TableTree List Nat

structure VideoInfo where
  flags : BitVec 32
  framebufferAddr : BitVec 64
  framebufferPitch : BitVec 32
  framebufferHeight : BitVec 32

def alignUpPage (value : ℕ) : ℕ := u32 (value + 4096 - 1) &&& 0xFFFFF000

def identityFlags (uStart uEnd bitmapSize i : ℕ) : ℕ :=
  if uStart ≤ i ∧ i < uEnd then 0x07
  else if i < bitmapSize + 0x1000000 then 0x03
  else 0x07

def identityCalls (memSize uStart uEnd bitmapSize : ℕ) : List (ℕ × ℕ) :=
  (List.range ((memSize + 0xFFF) / 0x1000)).map fun k =>
    (k * 0x1000, identityFlags uStart uEnd bitmapSize (k * 0x1000))

def framebufferCalls : Option VideoInfo → List (ℕ × ℕ)
  | none => []
  | some mbi =>
    if mbi.flags &&& 0x800#32 = 0#32 then []
    else
      let fbPhys := u32 mbi.framebufferAddr.toNat
      let fbSize := u32 (mbi.framebufferHeight.toNat * mbi.framebufferPitch.toNat)
      if fbPhys ≠ 0 ∧ fbSize > 0 ∧ fbSize < 128 * 1024 * 1024 then
        (List.range ((fbSize + 0xFFF) / 0x1000)).map fun k => (u32 (fbPhys + k * 0x1000), 0x07)
      else []

def mapCalls (s : Paging) (calls : List (ℕ × ℕ)) : Paging :=
  calls.foldl (fun s c => mapPageExt s c.1 c.1 c.2) s

inductive InitResult
  | noDirectory
  | endless
  | paged (s : Paging)

/-- What `vmm_init` is called with and the state it finds: the feature of the processor, the memory
size, the bounds of the user section, the boot information and the page allocator. -/
structure InitInput where
  cpuHasPae : Bool
  memSize : BitVec 32
  userStart : BitVec 32
  userEnd : BitVec 32
  mbi : Option VideoInfo
  mem : ℕ → ℕ → ℕ
  pmm : State

variable (x : InitInput)

namespace InitInput

def mappedSize : ℕ :=
  if x.memSize.toNat < 0x1000000 then 0x1000000 else x.memSize.toNat

def uStart : ℕ := alignDownPage x.userStart.toNat

def uEnd : ℕ := alignUpPage x.userEnd.toNat

/-- `pmm_get_bitmap_size`, which no allocation changes. -/
def bitmapSize : ℕ := bitmapWords x.pmm.maxBlocks * 4

end InitInput

def vmmInit : InitResult :=
  match startPaging x.cpuHasPae x.mem x.pmm with
  | none => .noDirectory
  | some s =>
    if 0xFFFFF000 < x.mappedSize then .endless
    else
      let s := mapCalls s (identityCalls x.mappedSize x.uStart x.uEnd x.bitmapSize)
      .paged (mapCalls s (framebufferCalls x.mbi))

/-- A call of `vmm_init`: only the framebuffer can start inside a page. -/
def ValidCall (c : ℕ × ℕ) : Prop :=
  c.1 < 2 ^ 32 ∧ (c.2 = 0x07 ∨ c.2 = 0x03 ∧ c.1 % pageSize = 0)

/-- Whatever is mapped is mapped onto itself, and open to user code where `user` says so. -/
structure MapsSelf (s : Paging) (user : ℕ → Prop) : Prop where
  inv : Inv s
  self : ∀ page < 2 ^ 20, PageMap.Present s.entry page →
    PageMap.physPage s.entry page = page ∧ (PageMap.User s.entry page ↔ user page)

theorem or_small_div (a : ℕ) {flags : ℕ} (hflags : flags < pageSize) :
    (a ||| flags) / pageSize = a / pageSize := by
  change (a ||| flags) / 2 ^ 12 = a / 2 ^ 12
  rw [or_div_two_pow, div_eq_of_lt (show flags < 2 ^ 12 from hflags), or_zero]

theorem or_seven_mod (a : ℕ) : (a ||| 7) % 8 = 7 := by
  rw [show 8 = 2 ^ 3 from rfl, or_mod_two_pow]
  have hall : ∀ b < 8, b ||| 7 = 7 := by decide
  exact hall _ (mod_lt a (by norm_num))

variable {c : ℕ × ℕ} {s : Paging}

theorem leafEntry_call (pae : Bool) (hc : ValidCall c) :
    leafEntry pae c.1 c.2 / pageSize = c.1 / pageSize ∧ leafEntry pae c.1 c.2 % 2 = 1 ∧
      (leafEntry pae c.1 c.2 / 4 % 2 = 1 ↔ c.2 = 7) := by
  obtain ⟨a, flags⟩ := c
  obtain ⟨ha, hflags⟩ := hc
  cases pae
  · change (a ||| flags) / pageSize = a / pageSize ∧ (a ||| flags) % 2 = 1 ∧
      ((a ||| flags) / 4 % 2 = 1 ↔ flags = 7)
    refine ⟨or_small_div a (by unfold pageSize; omega), ?_⟩
    rcases hflags with rfl | ⟨rfl, halign⟩
    · have hmod := or_seven_mod a
      omega
    · rw [or_flags halign (by decide)]
      unfold pageSize at halign
      omega
  · change paeMakeEntry a (flags &&& 0xFFF) / pageSize = a / pageSize ∧
      paeMakeEntry a (flags &&& 0xFFF) % 2 = 1 ∧
      (paeMakeEntry a (flags &&& 0xFFF) / 4 % 2 = 1 ↔ flags = 7)
    have hmake : paeMakeEntry a (flags &&& 0xFFF) = a / pageSize * pageSize + flags := by
      have haddr : a &&& paeAddrMask = a / pageSize * pageSize :=
        and_addrMask (ha.trans (by norm_num))
      rw [and_flagMask, mod_eq_of_lt (by unfold pageSize; omega), paeMakeEntry, haddr,
        or_flags (mul_mod_left _ _) (by unfold pageSize; omega)]
    rw [hmake]
    unfold pageSize
    omega

theorem mapCall_spec (h : Inv s) (hc : ValidCall c) :
    Inv (mapPageExt s c.1 c.1 c.2) ∧ Grows s (mapPageExt s c.1 c.1 c.2) ∧
      (∀ page < 2 ^ 20, page ≠ c.1 / pageSize →
        (mapPageExt s c.1 c.1 c.2).entry page = s.entry page) ∧
      ((mapPageExt s c.1 c.1 c.2).entry (c.1 / pageSize) = leafEntry s.paeActive c.1 c.2 ∨
        (mapPageExt s c.1 c.1 c.2).entry (c.1 / pageSize) = 0 ∧
          s.walk (path s.paeActive (c.1 / pageSize)) = none ∧ (s.getTable c.1 true).2 = none) := by
  obtain ⟨hkeep, htable⟩ := getTable_spec h c.1 true
  have hpage : c.1 / pageSize < 2 ^ 20 := by
    have hlt := hc.1
    unfold pageSize
    omega
  cases hget : s.getTable c.1 true with
  | mk s' found =>
    rw [hget] at hkeep htable
    have hpae : s'.paeActive = s.paeActive := hkeep.pae
    cases found with
    | none =>
      rw [mapPageExt_none hget]
      refine ⟨hkeep.inv, hkeep.toGrows, fun page _ _ => hkeep.entry page, .inr ?_⟩
      have hnone : s.walk (path s.paeActive (c.1 / pageSize)) = none := by
        cases hw : s.walk (path s.paeActive (c.1 / pageSize)) with
        | none => rfl
        | some t =>
          rw [getTable_of_walk hw] at hget
          cases hget
      exact ⟨(hkeep.entry _).trans (entry_of_walk_none hnone), hnone, rfl⟩
    | some t =>
      have hw : s'.walk (path s'.paeActive (c.1 / pageSize)) = some t := by
        rw [hpae]
        exact htable t rfl
      obtain ⟨hinv, hentry⟩ := setEntry_spec hkeep.inv hpage hw (leafEntry s.paeActive c.1 c.2)
      rw [hpae] at hinv hentry
      rw [mapPageExt_some hget]
      refine ⟨hinv, hkeep.toGrows.trans (setEntry_grows hkeep.inv hw _ _),
        fun page hlt hne => ?_, .inl ?_⟩
      · rw [hentry page hlt, if_neg hne]
        exact hkeep.entry page
      · rw [hentry _ hpage, if_pos rfl]

theorem mapsSelf_call {user : ℕ → Prop} (h : MapsSelf s user) (hc : ValidCall c) :
    MapsSelf (mapPageExt s c.1 c.1 c.2)
      (fun page => if page = c.1 / pageSize then c.2 = 7 else user page) := by
  obtain ⟨hinv, -, hother, hthis⟩ := mapCall_spec h.inv hc
  refine ⟨hinv, fun page hpage hpresent => ?_⟩
  unfold PageMap.Present PageMap.physPage PageMap.User at *
  by_cases hp : page = c.1 / pageSize
  · rw [if_pos hp]
    subst hp
    rcases hthis with hentry | ⟨hentry, -⟩
    · obtain ⟨hphys, -, huser⟩ := leafEntry_call s.paeActive hc
      rw [hentry]
      exact ⟨hphys, huser⟩
    · rw [hentry] at hpresent
      cases hpresent
  · rw [if_neg hp]
    rw [hother page hpage hp] at hpresent ⊢
    exact h.self page hpage hpresent

theorem mapCalls_concat (s : Paging) (calls : List (ℕ × ℕ)) (c : ℕ × ℕ) :
    mapCalls s (calls ++ [c]) = mapPageExt (mapCalls s calls) c.1 c.1 c.2 := by
  rw [mapCalls, foldl_append]
  rfl

theorem mapsSelf_calls {user : ℕ → Prop} (h : MapsSelf s user) (n : ℕ) (call : ℕ → ℕ × ℕ)
    (hcalls : ∀ k < n, ValidCall (call k))
    (hinj : ∀ j < n, ∀ k < n, (call j).1 / pageSize = (call k).1 / pageSize → j = k) :
    MapsSelf (mapCalls s ((List.range n).map call)) (fun page =>
      (∃ k < n, (call k).1 / pageSize = page ∧ (call k).2 = 7) ∨
        (∀ k < n, (call k).1 / pageSize ≠ page) ∧ user page) := by
  induction n with
  | zero =>
    refine ⟨h.inv, fun page hpage hpresent => ?_⟩
    obtain ⟨hphys, huser⟩ := h.self page hpage hpresent
    exact ⟨hphys, huser.trans (by simp)⟩
  | succ n ih =>
    have hprev := ih (fun k hk => hcalls k (by omega)) fun j hj k hk =>
      hinj j (by omega) k (by omega)
    rw [range_succ, map_append, map_singleton, mapCalls_concat]
    obtain ⟨hinv, hself⟩ := mapsSelf_call hprev (hcalls n (by omega))
    refine ⟨hinv, fun page hpage hpresent => ?_⟩
    obtain ⟨hphys, huser⟩ := hself page hpage hpresent
    refine ⟨hphys, huser.trans ?_⟩
    by_cases hp : page = (call n).1 / pageSize
    · rw [if_pos hp]
      subst hp
      constructor
      · intro hflags
        exact .inl ⟨n, by omega, rfl, hflags⟩
      · rintro (⟨k, hk, heq, hflags⟩ | ⟨hnone, -⟩)
        · rwa [← hinj k hk n (by omega) heq]
        · exact absurd rfl (hnone n (by omega))
    · rw [if_neg hp]
      constructor
      · rintro (⟨k, hk, heq, hflags⟩ | ⟨hnone, hu⟩)
        · exact .inl ⟨k, by omega, heq, hflags⟩
        · refine .inr ⟨fun k hk => ?_, hu⟩
          rcases Nat.lt_succ_iff_lt_or_eq.mp hk with hk | rfl
          · exact hnone k hk
          · exact fun heq => hp heq.symm
      · rintro (⟨k, hk, heq, hflags⟩ | ⟨hnone, hu⟩)
        · rcases Nat.lt_succ_iff_lt_or_eq.mp hk with hk | rfl
          · exact .inl ⟨k, hk, heq, hflags⟩
          · exact absurd heq.symm hp
        · exact .inr ⟨fun k hk => hnone k (by omega), hu⟩

def Paging.IsTable (s : Paging) (f : ℕ) : Prop :=
  ∃ p, p.length ≤ depth s.paeActive ∧ s.walk p = some f

/-- No table is the target of a present entry that is open to user code. -/
def TablesHidden (s : Paging) : Prop :=
  ∀ f, s.IsTable f → ¬ ∃ page < 2 ^ 20, PageMap.Present s.entry page ∧
    PageMap.User s.entry page ∧ PageMap.physPage s.entry page = f

/-- The pages that `vmm_init` opens to user code if it can map them. -/
def InitInput.UserPage (page : ℕ) : Prop :=
  (∃ c ∈ framebufferCalls x.mbi, c.1 / pageSize = page) ∨
    page * pageSize < x.mappedSize ∧
      (x.uStart ≤ page * pageSize ∧ page * pageSize < x.uEnd ∨
        x.bitmapSize + 0x1000000 ≤ page * pageSize)

variable {s : Paging} {memSize : ℕ} {mem : ℕ → ℕ → ℕ}

variable {uStart uEnd bitmapSize : ℕ}

theorem validCall_identity (hmem : memSize ≤ 0xFFFFF000) {k : ℕ}
    (hk : k < (memSize + 0xFFF) / 0x1000) :
    ValidCall (k * 0x1000, identityFlags uStart uEnd bitmapSize (k * 0x1000)) := by
  have halign : k * 0x1000 % pageSize = 0 := mul_mod_left _ _
  constructor
  · dsimp only
    omega
  · unfold identityFlags
    split_ifs
    · exact .inl rfl
    · exact .inr ⟨rfl, halign⟩
    · exact .inl rfl

theorem mapsSelf_identity (h : MapsSelf s fun _ => False) (hmem : memSize ≤ 0xFFFFF000)
    (uStart uEnd bitmapSize : ℕ) :
    MapsSelf (mapCalls s (identityCalls memSize uStart uEnd bitmapSize)) (fun page =>
      page * pageSize < memSize ∧ (uStart ≤ page * pageSize ∧ page * pageSize < uEnd ∨
        bitmapSize + 0x1000000 ≤ page * pageSize)) := by
  have hdiv : ∀ k : ℕ, k * 0x1000 / pageSize = k := fun k => Nat.mul_div_cancel k (by decide)
  obtain ⟨hinv, hself⟩ := mapsSelf_calls h ((memSize + 0xFFF) / 0x1000)
    (fun k => (k * 0x1000, identityFlags uStart uEnd bitmapSize (k * 0x1000)))
    (fun k hk => validCall_identity hmem hk)
    (fun j _ k _ heq => by simpa only [hdiv] using heq)
  refine ⟨hinv, fun page hpage hpresent => ?_⟩
  obtain ⟨hphys, huser⟩ := hself page hpage hpresent
  refine ⟨hphys, huser.trans ?_⟩
  have hflags : identityFlags uStart uEnd bitmapSize (page * 0x1000) = 7 ↔
      (uStart ≤ page * pageSize ∧ page * pageSize < uEnd ∨
        bitmapSize + 0x1000000 ≤ page * pageSize) := by
    unfold identityFlags
    change _ ↔ (uStart ≤ page * 0x1000 ∧ page * 0x1000 < uEnd ∨
      bitmapSize + 0x1000000 ≤ page * 0x1000)
    split_ifs with hsection hlow
    · simp [hsection]
    · simp only [Nat.reduceEqDiff, false_iff, not_or]
      exact ⟨hsection, by omega⟩
    · simp only [true_iff]
      exact .inr (by omega)
  have hsize : page < (memSize + 0xFFF) / 0x1000 ↔ page * pageSize < memSize := by
    unfold pageSize
    omega
  rw [← hflags, ← hsize]
  constructor
  · rintro (⟨k, hk, heq, hk7⟩ | ⟨-, hfalse⟩)
    · rw [hdiv] at heq
      subst heq
      exact ⟨hk, hk7⟩
    · exact hfalse.elim
  · rintro ⟨hlt, h7⟩
    exact .inl ⟨page, hlt, hdiv page, h7⟩

theorem framebufferCalls_spec {mbi : Option VideoInfo} {c : ℕ × ℕ}
    (hc : c ∈ framebufferCalls mbi) : c.1 < 2 ^ 32 ∧ c.2 = 7 := by
  unfold framebufferCalls at hc
  split at hc
  · cases hc
  · dsimp only at hc
    split_ifs at hc
    · cases hc
    · obtain ⟨k, _, rfl⟩ := mem_map.mp hc
      exact ⟨mod_lt _ (by norm_num), rfl⟩
    · cases hc

theorem mapsSelf_framebuffer {user : ℕ → Prop} (h : MapsSelf s user) (mbi : Option VideoInfo) :
    MapsSelf (mapCalls s (framebufferCalls mbi))
      (fun page => (∃ c ∈ framebufferCalls mbi, c.1 / pageSize = page) ∨ user page) := by
  have hseven : ∀ c ∈ framebufferCalls mbi, c.2 = 7 := fun c hc => (framebufferCalls_spec hc).2
  have hvalid : ∀ c ∈ framebufferCalls mbi, ValidCall c :=
    fun c hc => ⟨(framebufferCalls_spec hc).1, .inl (hseven c hc)⟩
  generalize framebufferCalls mbi = calls at hseven hvalid ⊢
  induction calls using List.reverseRecOn with
  | nil =>
    refine ⟨h.inv, fun page hpage hpresent => ?_⟩
    obtain ⟨hphys, huser⟩ := h.self page hpage hpresent
    exact ⟨hphys, huser.trans (by simp)⟩
  | append_singleton calls c ih =>
    have hprev := ih (fun d hd => hseven d (mem_append_left _ hd))
      (fun d hd => hvalid d (mem_append_left _ hd))
    obtain ⟨hinv, hself⟩ := mapsSelf_call hprev (hvalid c (by simp))
    rw [mapCalls_concat]
    refine ⟨hinv, fun page hpage hpresent => ?_⟩
    obtain ⟨hphys, huser⟩ := hself page hpage hpresent
    refine ⟨hphys, huser.trans ?_⟩
    rw [hseven c (by simp)]
    by_cases hp : page = c.1 / pageSize
    · rw [if_pos hp]
      exact iff_of_true rfl (.inl ⟨c, by simp, hp.symm⟩)
    · rw [if_neg hp]
      refine or_congr_left ⟨?_, ?_⟩
      · rintro ⟨d, hd, heq⟩
        exact ⟨d, mem_append_left _ hd, heq⟩
      · rintro ⟨d, hd, heq⟩
        rcases mem_append.mp hd with hd | hd
        · exact ⟨d, hd, heq⟩
        · rw [mem_singleton.mp hd] at heq
          exact absurd heq.symm hp

theorem identityCalls_valid (hmem : memSize ≤ 0xFFFFF000) {c : ℕ × ℕ}
    (hc : c ∈ identityCalls memSize uStart uEnd bitmapSize) : ValidCall c := by
  obtain ⟨k, hk, rfl⟩ := mem_map.mp hc
  exact validCall_identity hmem (mem_range.mp hk)

theorem vmmInit_cases {x : InitInput} (h : vmmInit x = .paged s) :
    ∃ s₀, startPaging x.cpuHasPae x.mem x.pmm = some s₀ ∧ x.mappedSize ≤ 0xFFFFF000 ∧
      s = mapCalls (mapCalls s₀ (identityCalls x.mappedSize x.uStart x.uEnd x.bitmapSize))
        (framebufferCalls x.mbi) := by
  unfold vmmInit at h
  split at h
  · cases h
  · next s₀ hs₀ =>
    split_ifs at h with hsize
    injection h with h
    exact ⟨s₀, hs₀, not_lt.mp hsize, h.symm⟩

/-- When `vmm_init` has returned, every page that is mapped is mapped onto itself, and the pages
that it opens are those of `UserPage`. -/
theorem vmmInit_spec {x : InitInput} (hpmm : WellCounted x.pmm) (h : vmmInit x = .paged s) :
    MapsSelf s x.UserPage := by
  obtain ⟨s₀, hs₀, hsize, rfl⟩ := vmmInit_cases h
  have href := refines_startPaging hpmm hs₀
  have hstart : MapsSelf s₀ fun _ => False := by
    refine ⟨href.inv, fun page hpage hpresent => ?_⟩
    unfold PageMap.Present at hpresent
    rw [href.entry page hpage] at hpresent
    cases hpresent
  exact mapsSelf_framebuffer (mapsSelf_identity hstart hsize _ _ _) x.mbi

end MicroK.Vmm
