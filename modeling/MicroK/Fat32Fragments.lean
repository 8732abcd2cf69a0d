import MicroK.Fat32Matching

/-!
# Long names on the disk

A long name of up to 255 code units is stored in fragments of thirteen units, the last fragment
first, in front of its short entry. Fed one after the other, the fragments give the name back, and
its UTF-8 form is what a lookup compares with.
-/

namespace MicroK.Fat32

open List Nat

def feedAll (es : List Buf) : LfnState := es.foldl lfnFeed .reset

theorem feedAll_concat (es : List Buf) (e : Buf) :
    feedAll (es ++ [e]) = lfnFeed (feedAll es) e := by
  rw [feedAll, foldl_append]
  rfl

/-- The order that the entry gives itself is one that a long name can have. -/
def Numbered (e : Buf) : Prop := ¬ ((e 0 &&& 0x1F).toNat = 0 ∨ 20 < (e 0 &&& 0x1F).toNat)

def Starts (e : Buf) : Prop := Numbered e ∧ e 0 &&& 0x40 ≠ 0

def Continues (e : Buf) : Prop := Numbered e ∧ e 0 &&& 0x40 = 0

theorem Continues.not_starts {e : Buf} (h : Continues e) : ¬ Starts e := fun hs => hs.2 h.2

/-- The entries end with a started sequence whose entries all carry the checksum. -/
def EndsWith (es : List Buf) (sum : UInt8) (s : Buf) (rest : List Buf) : Prop :=
  s :: rest <:+ es ∧ Starts s ∧ s 13 = sum ∧ ∀ e ∈ rest, Continues e ∧ e 13 = sum

section

variable (st : LfnState) {e : Buf}

theorem lfnFeed_of_not_numbered (h : ¬ Numbered e) : (lfnFeed st e).active = false := by
  rw [lfnFeed]
  rw [if_pos (not_not.1 h)]

theorem lfnFeed_of_starts (h : Starts e) : (lfnFeed st e).active = true ∧
    (lfnFeed st e).valid = true ∧ (lfnFeed st e).checksum = e 13 := by
  rw [lfnFeed]
  rw [if_neg h.1, if_pos h.2]
  exact ⟨rfl, rfl, rfl⟩

theorem lfnFeed_of_continues (h : Continues e) : (lfnFeed st e).active = st.active ∧
    (lfnFeed st e).checksum = st.checksum ∧
    (st.active = true → ((lfnFeed st e).valid = true ↔ st.valid = true ∧ e 13 = st.checksum)) := by
  rw [lfnFeed]
  rw [if_neg h.1, if_neg (not_not.2 h.2)]
  cases hactive : st.active with
  | false => simp [hactive]
  | true =>
    by_cases hsum : e 13 = st.checksum
    · simp [hsum, lfnStore, hactive]
    · simp [hsum, lfnStore]

end

variable {es : List Buf}

theorem endsWith_concat {e : Buf} {sum : UInt8} : (∃ s rest, EndsWith (es ++ [e]) sum s rest) ↔
      (Starts e ∧ e 13 = sum) ∨ (Continues e ∧ e 13 = sum ∧ ∃ s rest, EndsWith es sum s rest) := by
  constructor
  · rintro ⟨s, rest, hsuffix, hs, hsum, hrest⟩
    rcases suffix_concat_iff.1 hsuffix with hnil | ⟨t, ht, hsub⟩
    · cases hnil
    · cases t with
      | nil =>
        obtain ⟨rfl, -⟩ := List.cons.inj ht
        exact .inl ⟨hs, hsum⟩
      | cons s' t =>
        obtain ⟨rfl, rfl⟩ := List.cons.inj ht
        obtain ⟨hcont, hsum'⟩ := hrest e (by simp)
        exact .inr ⟨hcont, hsum', s, t, hsub, hs, hsum, fun d hd => hrest d (by simp [hd])⟩
  · rintro (⟨hs, hsum⟩ | ⟨hcont, hsum, s, rest, hsuffix, hs, hsum', hrest⟩)
    · exact ⟨e, [], suffix_append _ _, hs, hsum, by simp⟩
    · refine ⟨s, rest ++ [e], ?_, hs, hsum', fun d hd => ?_⟩
      · rw [← cons_append]
        exact suffix_concat_iff.2 (.inr ⟨_, rfl, hsuffix⟩)
      · rcases mem_append.1 hd with hd | hd
        · exact hrest d hd
        · rw [mem_singleton.1 hd]
          exact ⟨hcont, hsum⟩

theorem feedAll_accepts_iff (es : List Buf) (sum : UInt8) :
    ((feedAll es).active = true ∧ (feedAll es).valid = true ∧ (feedAll es).checksum = sum) ↔
      ∃ s rest, EndsWith es sum s rest := by
  induction es using List.reverseRecOn with
  | nil =>
    constructor
    · rintro ⟨hactive, -⟩
      cases hactive
    · rintro ⟨s, rest, hsuffix, -⟩
      cases suffix_nil.1 hsuffix
  | append_singleton es e ih =>
    rw [endsWith_concat, ← ih, feedAll_concat]
    by_cases hn : Numbered e
    · by_cases hbit : e 0 &&& 0x40 = 0
      · have hcont : Continues e := ⟨hn, hbit⟩
        obtain ⟨hactive, hsum, hvalid⟩ := lfnFeed_of_continues (feedAll es) hcont
        have hnot := hcont.not_starts
        rw [hactive, hsum]
        constructor
        · rintro ⟨h, hv, hk⟩
          obtain ⟨hv', he⟩ := (hvalid h).1 hv
          exact .inr ⟨hcont, he.trans hk, h, hv', hk⟩
        · rintro (⟨hs, -⟩ | ⟨-, he, h, hv, hk⟩)
          · exact absurd hs hnot
          · exact ⟨h, (hvalid h).2 ⟨hv, he.trans hk.symm⟩, hk⟩
      · have hs : Starts e := ⟨hn, hbit⟩
        obtain ⟨hactive, hvalid, hsum⟩ := lfnFeed_of_starts (feedAll es) hs
        rw [hactive, hvalid, hsum]
        constructor
        · rintro ⟨-, -, hk⟩
          exact .inl ⟨hs, hk⟩
        · rintro (⟨-, hk⟩ | ⟨hcont, -⟩)
          · exact ⟨rfl, rfl, hk⟩
          · exact absurd hs hcont.not_starts
    · rw [lfnFeed_of_not_numbered _ hn]
      constructor
      · rintro ⟨hfalse, -⟩
        cases hfalse
      · rintro (⟨hs, -⟩ | ⟨hcont, -⟩)
        · exact absurd hs.1 hn
        · exact absurd hcont.1 hn

theorem lfnValidate_iff (es : List Buf) (shortName : Buf) :
    lfnValidate (feedAll es) shortName = true ↔
      ∃ s rest, EndsWith es (lfnChecksum shortName) s rest := by
  rw [← feedAll_accepts_iff, lfnValidate]
  simp only [Bool.and_eq_true, beq_iff_eq, and_assoc]
  exact and_congr_right fun _ => and_congr_right fun _ => eq_comm

/-- The order bytes of a long name of `n` entries, from the first on the disk. -/
def countdown (n : ℕ) : List UInt8 :=
  UInt8.ofNat (n ||| 0x40) :: (List.range (n - 1)).map fun j => UInt8.ofNat (n - 1 - j)

/-- The last entries are all the entries of one long name, in order, none of them deleted. -/
def Complete (es : List Buf) (sum : UInt8) : Prop :=
  ∃ frags n, frags <:+ es ∧ 1 ≤ n ∧ n ≤ 20 ∧ frags.map (· 0) = countdown n ∧
    ∀ e ∈ frags, e 13 = sum

theorem starts_of_first {e : Buf} {n : ℕ} (h₁ : 1 ≤ n) (h₂ : n ≤ 20)
    (h : e 0 = UInt8.ofNat (n ||| 0x40)) : Starts e := by
  rw [Starts, Numbered, h]
  interval_cases n <;> decide

theorem continues_of_order {e : Buf} {n : ℕ} (h₁ : 1 ≤ n) (h₂ : n ≤ 20)
    (h : e 0 = UInt8.ofNat n) : Continues e := by
  rw [Continues, Numbered, h]
  interval_cases n <;> decide

theorem Complete.endsWith {sum : UInt8} (h : Complete es sum) :
    ∃ s rest n, EndsWith es sum s rest ∧ 1 ≤ n ∧ n ≤ 20 ∧ (s :: rest).map (· 0) = countdown n := by
  obtain ⟨frags, n, hsuffix, h₁, h₂, horders, hsum⟩ := h
  cases frags with
  | nil => cases horders
  | cons s rest =>
    obtain ⟨hfirst, hlater⟩ := List.cons.inj horders
    refine ⟨s, rest, n, ⟨hsuffix, starts_of_first h₁ h₂ hfirst, hsum s (by simp), fun e he => ?_⟩,
      h₁, h₂, horders⟩
    refine ⟨?_, hsum e (by simp [he])⟩
    have hmem : e 0 ∈ rest.map (· 0) := mem_map_of_mem he
    rw [hlater] at hmem
    obtain ⟨j, hj, he0⟩ := mem_map.1 hmem
    have hlt := mem_range.1 hj
    exact continues_of_order (by omega) (by omega) he0.symm

theorem EndsWith.unique {sum sum' : UInt8} {s s' : Buf} {rest rest' : List Buf}
    (h : EndsWith es sum s rest) (h' : EndsWith es sum' s' rest') : s :: rest = s' :: rest' := by
  have hone : ∀ {sum sum' s s' rest rest'}, EndsWith es sum s rest → EndsWith es sum' s' rest' →
      rest.length ≤ rest'.length → s :: rest = s' :: rest' := by
    intro sum sum' s s' rest rest' h h' hle
    have hsub : s :: rest <:+ s' :: rest' :=
      suffix_of_suffix_length_le h.1 h'.1 (by simpa using hle)
    rcases suffix_cons_iff.1 hsub with heq | hin
    · exact heq
    · exact absurd h.2.1 (h'.2.2.2 s (hin.subset (by simp))).1.not_starts
  rcases le_total rest.length rest'.length with hle | hle
  · exact hone h h' hle
  · exact (hone h' h hle).symm

/-- An accepted long name is complete exactly when the order bytes since the last start count down
to one. -/
theorem lfnValidate_complete_iff (es : List Buf) (shortName : Buf) :
    (lfnValidate (feedAll es) shortName = true → Complete es (lfnChecksum shortName)) ↔
      ∀ s rest, EndsWith es (lfnChecksum shortName) s rest →
        ∃ n, 1 ≤ n ∧ n ≤ 20 ∧ (s :: rest).map (· 0) = countdown n := by
  rw [lfnValidate_iff]
  constructor
  · intro h s rest hends
    obtain ⟨s', rest', n, hends', h₁, h₂, horders⟩ := (h ⟨s, rest, hends⟩).endsWith
    exact ⟨n, h₁, h₂, (hends.unique hends') ▸ horders⟩
  · rintro h ⟨s, rest, hends⟩
    obtain ⟨n, h₁, h₂, horders⟩ := h s rest hends
    refine ⟨s :: rest, n, hends.1, h₁, h₂, horders, fun e he => ?_⟩
    rcases mem_cons.1 he with rfl | he
    · exact hends.2.2.1
    · exact (hends.2.2.2 e he).2

/-- A long-name entry with a given order byte and the checksum zero. -/
def bareFragment (order : UInt8) : Buf := fun j =>
  if j = 0 then order else if j = 11 then 0x0F else 0

/-- The second entry of a long name alone, and a deleted entry alone, are accepted for the short
name of zero bytes, whose checksum is zero. -/
theorem incomplete_accepted :
    (lfnValidate (feedAll [bareFragment 0x42]) (fun _ => 0) = true ∧
      ¬ Complete [bareFragment 0x42] (lfnChecksum fun _ => 0)) ∧
    (lfnValidate (feedAll [bareFragment 0xE5]) (fun _ => 0) = true ∧
      ¬ Complete [bareFragment 0xE5] (lfnChecksum fun _ => 0)) := by
  have hnot : ∀ order : UInt8, order ≠ 0x41 →
      ¬ Complete [bareFragment order] (lfnChecksum fun _ => 0) := by
    rintro order hne ⟨frags, n, hsuffix, h₁, h₂, horders, -⟩
    have hlen := hsuffix.length_le
    have hcount := congrArg List.length horders
    simp only [countdown, length_map, length_cons, length_range,
      length_nil] at hlen hcount
    obtain rfl : n = 1 := by omega
    obtain rfl := hsuffix.eq_of_length (by simp; omega)
    have hfirst : order = 0x41 := (List.cons.inj horders).1
    exact hne hfirst
  exact ⟨⟨by decide, hnot _ (by decide)⟩, by decide, hnot _ (by decide)⟩

/-- A name of code units that are characters of their own. -/
structure LongName where
  units : List ℕ
  pos : 1 ≤ units.length
  le : units.length ≤ 255
  unit : ∀ u ∈ units, u ≠ 0 ∧ u < 0xFFFF ∧ (u < 0xD800 ∨ 0xDFFF < u)

namespace LongName

variable (n : LongName)

def fragments : ℕ := (n.units.length + 12) / 13

def utf8 : List UInt8 := n.units.flatMap fun u => String.utf8EncodeChar (Char.ofNat u)

/-- The unit at a place of the fragments: the name, a zero and the padding. -/
def unitAt (t : ℕ) : ℕ :=
  if t < n.units.length then n.units.getD t 0 else if t = n.units.length then 0 else 0xFFFF

/-- The entry is the fragment with number `k` of the name, for a short name with this checksum. -/
def IsFragment (sum : UInt8) (k : ℕ) (e : Buf) : Prop :=
  e 0 = UInt8.ofNat (if k = n.fragments then k ||| 0x40 else k) ∧ e 11 = 0x0F ∧ e 13 = sum ∧
    ∀ i < 13, lfnChar e i = n.unitAt (13 * (k - 1) + i)

def held (a t : ℕ) : ℕ := if a ≤ t ∧ t < n.units.length then n.units.getD t 0 else 0

theorem fragments_bounds : 1 ≤ n.fragments ∧ n.fragments ≤ 20 ∧
    n.units.length ≤ 13 * n.fragments := by
  have h₁ := n.pos
  have h₂ := n.le
  unfold fragments
  omega

theorem getD_unit {t : ℕ} (ht : t < n.units.length) : n.units.getD t 0 ≠ 0 ∧
    n.units.getD t 0 < 0xFFFF ∧ (n.units.getD t 0 < 0xD800 ∨ 0xDFFF < n.units.getD t 0) := by
  rw [getD_eq_getElem _ _ ht]
  exact n.unit _ (getElem_mem ht)

end LongName

theorem order_first {k : ℕ} (h₁ : 1 ≤ k) (h₂ : k ≤ 20) :
    (UInt8.ofNat (k ||| 0x40) &&& 0x1F).toNat = k ∧ UInt8.ofNat (k ||| 0x40) &&& 0x40 ≠ 0 := by
  interval_cases k <;> decide

theorem order_later {k : ℕ} (h₁ : 1 ≤ k) (h₂ : k ≤ 20) :
    (UInt8.ofNat k &&& 0x1F).toNat = k ∧ UInt8.ofNat k &&& 0x40 = 0 := by
  interval_cases k <;> decide

section

variable {n : LongName} {sum : UInt8} {st : LfnState} {e : Buf} {k : ℕ}

structure Assembled (n : LongName) (sum : UInt8) (a : ℕ) (st : LfnState) : Prop where
  active : st.active = true
  valid : st.valid = true
  checksum : st.checksum = sum
  units : st.units = n.held a

theorem lfnStore_held (h : ∀ i < 13, lfnChar e i = n.unitAt (13 * (k - 1) + i)) (hk : 1 ≤ k)
    (hunits : st.units = n.held (13 * k)) :
    (lfnStore st e ((k - 1) * 13)).units = n.held (13 * (k - 1)) := by
  have hle := n.le
  funext t
  simp only [lfnStore, lfnMaxUnits, hunits, LongName.held]
  by_cases hin : (k - 1) * 13 ≤ t ∧ t < (k - 1) * 13 + 13
  · have hchar : lfnChar e (t - (k - 1) * 13) = n.unitAt t := by
      rw [h _ (by omega)]
      congr 1
      omega
    rw [hchar, LongName.unitAt]
    by_cases ht : t < n.units.length
    · obtain ⟨hne, hlt, -⟩ := n.getD_unit ht
      simp only [if_pos ht]
      rw [if_pos (by omega), if_pos (by omega)]
    · simp only [if_neg ht]
      rw [if_neg (by split_ifs <;> omega), if_neg (by omega), if_neg (by omega)]
  · rw [if_neg (by omega)]
    by_cases ht : t < n.units.length
    · congr 1
      simp only [eq_iff_iff]
      omega
    · rw [if_neg (by omega), if_neg (by omega)]

theorem LongName.IsFragment.first (h : n.IsFragment sum n.fragments e) :
    Assembled n sum (13 * (n.fragments - 1)) (lfnFeed st e) := by
  obtain ⟨h₁, h₂, hlen⟩ := n.fragments_bounds
  obtain ⟨h0, -, hsum, hchars⟩ := h
  rw [if_pos rfl] at h0
  obtain ⟨horder, hbit⟩ := order_first h₁ h₂
  have hfeed : lfnFeed st e = lfnStore
      { LfnState.reset with active := true, valid := true, checksum := e 13 } e
      ((n.fragments - 1) * 13) := by
    simp only [lfnFeed, h0, horder]
    rw [if_neg (by omega), if_pos hbit]
  rw [hfeed]
  refine ⟨rfl, rfl, hsum, lfnStore_held hchars h₁ ?_⟩
  funext t
  simp only [LfnState.reset, LongName.held]
  rw [if_neg (by omega)]

variable (h : n.IsFragment sum k e)
include h

theorem LongName.IsFragment.order (hk : 1 ≤ k) (hlt : k < n.fragments) :
    (e 0 &&& 0x1F).toNat = k ∧ e 0 &&& 0x40 = 0 := by
  obtain ⟨h₁, h₂, -⟩ := n.fragments_bounds
  rw [h.1, if_neg (by omega)]
  exact order_later hk (by omega)

theorem LongName.IsFragment.next (hk : 1 ≤ k) (hlt : k < n.fragments)
    (hst : Assembled n sum (13 * k) st) : Assembled n sum (13 * (k - 1)) (lfnFeed st e) := by
  obtain ⟨h₁, h₂, -⟩ := n.fragments_bounds
  obtain ⟨horder, hbit⟩ := h.order hk hlt
  obtain ⟨-, -, hsum, hchars⟩ := h
  have hfeed : lfnFeed st e = lfnStore st e ((k - 1) * 13) := by
    simp only [lfnFeed, horder, hbit, hst.active, hsum, hst.checksum]
    rw [if_neg (by omega)]
    simp
  rw [hfeed]
  exact ⟨hst.active, hst.valid, hst.checksum, lfnStore_held hchars hk hst.units⟩

theorem LongName.IsFragment.idle (hk : 1 ≤ k) (hlt : k < n.fragments)
    (hst : st.active = false) : lfnFeed st e = st := by
  obtain ⟨h₁, h₂, -⟩ := n.fragments_bounds
  obtain ⟨horder, hbit⟩ := h.order hk hlt
  simp only [lfnFeed, horder, hbit, hst]
  rw [if_neg (by omega)]
  simp

theorem LongName.IsFragment.isLfn : entryIsLfn e = true := by
  rw [entryIsLfn, entryAttr, h.2.1]
  rfl

theorem LongName.IsFragment.head_ne_zero (hk : 1 ≤ k) (hle : k ≤ n.fragments) : e 0 ≠ 0 := by
  obtain ⟨h₁, h₂, -⟩ := n.fragments_bounds
  intro hzero
  by_cases hlast : k = n.fragments
  · have hbit := (order_first (k := k) hk (by omega)).2
    rw [h.1, if_pos hlast] at hzero
    rw [hzero] at hbit
    exact hbit rfl
  · have horder := (h.order hk (by omega)).1
    rw [hzero] at horder
    have : (0 &&& 0x1F : UInt8).toNat = 0 := rfl
    omega

omit h

theorem assembled_lfnBefore {entry : ℕ → Buf} {i : ℕ}
    (h : ∀ j < n.fragments, n.IsFragment sum (n.fragments - j) (entry (i + j))) {j : ℕ}
    (hj : j < n.fragments) :
    Assembled n sum (13 * (n.fragments - j - 1)) (lfnBefore entry (i + j + 1)) := by
  induction j with
  | zero =>
    have hfirst : n.IsFragment sum n.fragments (entry i) := h 0 hj
    rw [add_zero, lfnBefore, if_pos hfirst.isLfn]
    exact hfirst.first
  | succ j ih =>
    have hnext := h (j + 1) hj
    have hst := ih (by omega)
    rw [lfnBefore, if_pos hnext.isLfn]
    exact hnext.next (by omega) (by omega) hst

end

theorem or_high {x : ℕ} (h : x < 64) : 0x80 ||| x = x + 0x80 ∧ (x < 32 → 0xC0 ||| x = x + 0xC0) ∧
    (x < 16 → 0xE0 ||| x = x + 0xE0) := by
  interval_cases x <;> decide

theorem utf8EncodeChar_ofNat {u : ℕ} (hu : u < 0xFFFF) (hs : u < 0xD800 ∨ 0xDFFF < u) :
    String.utf8EncodeChar (Char.ofNat u) = utf8Unit u := by
  have hvalid : u.isValidChar := by
    rcases hs with h | h
    · exact .inl h
    · exact .inr ⟨h, by omega⟩
  have hval : (Char.ofNat u).val.toNat = u := by
    rw [Char.ofNat, dif_pos hvalid]
    rfl
  have hmask : ∀ v : ℕ, v &&& 0x3F = v % 64 := fun v => and_two_pow_sub_one_eq_mod v 6
  have hlow := (or_high (mod_lt u (by norm_num : 0 < 64))).1
  have hmid := (or_high (mod_lt (u / 64) (by norm_num : 0 < 64))).1
  rw [String.utf8EncodeChar, utf8Unit]
  simp only [hval, hmask, shiftRight_eq_div_pow]
  rcases lt_or_ge u 0x80 with h₁ | h₁
  · rw [if_pos (le_of_lt_succ h₁), if_pos h₁]
  have hone : ¬ u ≤ 127 := by omega
  rw [if_neg hone, if_neg (not_lt.2 h₁)]
  rcases lt_or_ge u 0x800 with h₂ | h₂
  · have htop := (or_high (by omega : u / 64 < 64)).2.1 (by omega)
    rw [if_pos (le_of_lt_succ h₂), if_pos h₂, hlow, mod_eq_of_lt (by omega : u / 64 < 32),
      ← htop]
  · have htwo : ¬ u ≤ 2047 := by omega
    have hthree : u ≤ 65535 := by omega
    have hlt : u / 4096 < 16 := by omega
    have htop := (or_high (by omega : u / 4096 < 64)).2.2 hlt
    rw [if_neg htwo, if_pos hthree, if_neg (not_lt.2 h₂), hlow, mod_eq_of_lt hlt, ← htop,
      ← hmid]

theorem length_utf8Unit_le (u : ℕ) : (utf8Unit u).length ≤ 3 := by
  rw [utf8Unit]
  split_ifs <;> simp

/-- The buffer of 768 bytes is large enough for every long name. -/
theorem lfnToUtf8Loop_held (n : LongName) {left i opos : ℕ} (hleft : n.units.length < i + left)
    (hi : i ≤ n.units.length) (hopos : opos ≤ 3 * i) :
    lfnToUtf8Loop (n.held 0) 768 left i opos = (n.units.drop i).flatMap utf8Unit := by
  have hle := n.le
  induction left generalizing i opos with
  | zero => omega
  | succ left ih =>
    rw [lfnToUtf8Loop]
    rcases lt_or_ge i n.units.length with hlt | hge
    · have hheld : n.held 0 i = n.units.getD i 0 := by rw [LongName.held, if_pos (by omega)]
      have hne := (n.getD_unit hlt).1
      have hunit := length_utf8Unit_le (n.units.getD i 0)
      rw [hheld, if_pos ⟨hne, by omega⟩, ih (by omega) hlt (by omega),
        drop_eq_getElem_cons hlt, flatMap_cons, getD_eq_getElem _ _ hlt]
    · have hheld : n.held 0 i = 0 := by rw [LongName.held, if_neg (by omega)]
      rw [hheld, if_neg (by simp), drop_of_length_le hge]
      rfl

theorem lfnToUtf8_held (n : LongName) : lfnToUtf8 (n.held 0) 768 = n.utf8 := by
  have hle := n.le
  rw [lfnToUtf8, lfnToUtf8Loop_held n (by rw [lfnMaxUnits]; omega) (by omega) (by omega),
    drop_zero, LongName.utf8]
  refine flatMap_congr fun u hu => ?_
  obtain ⟨-, hlt, hs⟩ := n.unit u hu
  exact (utf8EncodeChar_ofNat hlt hs).symm

theorem strEqualCi_refl (name : List UInt8) : strEqualCi name name = true := by
  induction name with
  | nil => rfl
  | cons c name ih => simp [strEqualCi, ih]

/-- The assembled name matches its UTF-8 form. -/
theorem Assembled.matches {n : LongName} {st : LfnState} {e : Buf} (target : Option Buf)
    (h : Assembled n (lfnChecksum e) 0 st) : entryMatches n.utf8 target st e = true := by
  have hlong : (lfnValidate st e && strEqualCi (lfnToUtf8 st.units 768) n.utf8) = true := by
    rw [lfnValidate, h.active, h.valid, h.checksum, h.units, lfnToUtf8_held, strEqualCi_refl]
    simp
  unfold entryMatches
  rw [hlong, Bool.true_or]

end MicroK.Fat32
