import MicroK.IwlReceive

/-!
# RSN elements

The body of an RSN element has a version, a group suite, a list of pairwise suites and a list of key
management suites, each list with its length in front. The driver takes a network for a WPA2-PSK
network with CCMP exactly if such a body says so.
-/

namespace MicroK.Iwl

open Outcome Image

abbrev Suite := Vector UInt8 4

def ccmpSuite : Suite := #v[0x00, 0x0F, 0xAC, 4]

def pskSuite : Suite := #v[0x00, 0x0F, 0xAC, 2]

/-- The contents of an RSN element. Further fields may follow the lists. -/
structure RsnBody where
  version : ℕ
  group : Suite
  pairwise : List Suite
  akm : List Suite
  rest : List UInt8
  pairwise_lt : pairwise.length < 65536
  akm_lt : akm.length < 65536

def suiteBytes (l : List Suite) : List UInt8 := l.flatMap Vector.toList

theorem length_suiteBytes (l : List Suite) : (suiteBytes l).length = 4 * l.length := by
  induction l with
  | nil => rfl
  | cons x l ih =>
    rw [suiteBytes, List.flatMap_cons, List.length_append, Vector.length_toList, List.length_cons]
    rw [suiteBytes] at ih
    omega

def RsnBody.encode (r : RsnBody) : List UInt8 :=
  leBytes 2 r.version ++ (r.group.toList ++ (leBytes 2 r.pairwise.length ++
    (suiteBytes r.pairwise ++ (leBytes 2 r.akm.length ++ (suiteBytes r.akm ++ r.rest)))))

def RsnBody.Wpa2PskCcmp (r : RsnBody) : Prop :=
  r.version = 1 ∧ ccmpSuite ∈ r.pairwise ∧ pskSuite ∈ r.akm

def suitesAt (buf : Image) : ℕ → ℕ → List Suite
  | 0, _ => []
  | n + 1, offset => buf.array 4 offset :: suitesAt buf n (offset + 4)

theorem length_suitesAt (buf : Image) (n offset : ℕ) : (suitesAt buf n offset).length = n := by
  induction n generalizing offset with
  | zero => rfl
  | succ n ih => rw [suitesAt, List.length_cons, ih]

theorem toList_array (buf : Image) (n offset : ℕ) :
    (buf.array n offset).toList = buf.bytes offset n := by
  refine List.ext_getElem (by simp) fun i h₁ h₂ => ?_
  simp [Image.array, Image.bytes]

theorem suiteBytes_suitesAt (buf : Image) (n offset : ℕ) :
    suiteBytes (suitesAt buf n offset) = buf.bytes offset (4 * n) := by
  induction n generalizing offset with
  | zero => rfl
  | succ n ih =>
    rw [suitesAt, suiteBytes, List.flatMap_cons, toList_array, Nat.mul_succ,
      Nat.add_comm (4 * n), bytes_add, ← ih, suiteBytes]

variable {buf : Image} {offset rsn length : ℕ}

theorem suitesAt_of_bytes {l : List Suite} (h : buf.bytes offset (4 * l.length) = suiteBytes l) :
    suitesAt buf l.length offset = l := by
  induction l generalizing offset with
  | nil => rfl
  | cons x l ih =>
    rw [List.length_cons, Nat.mul_succ, Nat.add_comm (4 * l.length), bytes_add, suiteBytes,
      List.flatMap_cons] at h
    obtain ⟨hx, hl⟩ := List.append_inj h (by simp)
    rw [List.length_cons, suitesAt, ih hl]
    congr 1
    rw [← Vector.toList_inj, toList_array, hx]

theorem hasSuite_eq {kind : UInt8} {n : ℕ} (h : offset + 4 * n ≤ buf.size) :
    hasSuite buf kind n offset =
      .ok (decide (#v[0x00, 0x0F, 0xAC, kind] ∈ suitesAt buf n offset)) := by
  induction n generalizing offset with
  | zero => rfl
  | succ n ih =>
    rw [hasSuite, readBytes_eq (by omega), ok_bind, ih (by omega), ok_bind, suitesAt]
    congr 1
    have hhead : (buf.bytes offset 4 == [0x00, 0x0F, 0xAC, kind]) =
        decide (#v[0x00, 0x0F, 0xAC, kind] = buf.array 4 offset) := by
      rw [Bool.eq_iff_iff, beq_iff_eq, decide_eq_true_iff, ← Vector.toList_inj, toList_array]
      exact eq_comm
    rw [hhead, Bool.eq_iff_iff]
    simp

def pairwiseCount (buf : Image) (rsn : ℕ) : ℕ := leValue (buf.bytes (rsn + 6) 2)

def akmCount (buf : Image) (rsn : ℕ) : ℕ :=
  leValue (buf.bytes (rsn + (8 + 4 * pairwiseCount buf rsn)) 2)

/-- What the driver asks of a body, check by check. -/
structure Accepted (buf : Image) (rsn length : ℕ) : Prop where
  version : leValue (buf.bytes rsn 2) = 1
  fits : 8 + 4 * pairwiseCount buf rsn + 2 + 4 * akmCount buf rsn ≤ length
  ccmp : ccmpSuite ∈ suitesAt buf (pairwiseCount buf rsn) (rsn + 8)
  psk : pskSuite ∈
    suitesAt buf (akmCount buf rsn) (rsn + (8 + 4 * pairwiseCount buf rsn) + 2)

theorem pos_of_mem_suitesAt {n : ℕ} {x : Suite} (h : x ∈ suitesAt buf n offset) : 0 < n := by
  rw [← length_suitesAt buf n offset]
  exact List.length_pos_of_mem h

theorem rsnIsWpa2PskCcmp_ok (h : rsn + length ≤ buf.size) :
    ∃ accepted, rsnIsWpa2PskCcmp buf rsn length = .ok accepted ∧
      (accepted = true ↔ Accepted buf rsn length) := by
  have hrefuse : ∀ {x : Outcome Bool}, x = .ok false → ¬ Accepted buf rsn length →
      ∃ accepted, x = .ok accepted ∧ (accepted = true ↔ Accepted buf rsn length) :=
    fun hx hno => ⟨false, hx, iff_of_false Bool.false_ne_true hno⟩
  have hpos : Accepted buf rsn length → 0 < pairwiseCount buf rsn ∧ 0 < akmCount buf rsn :=
    fun ha => ⟨pos_of_mem_suitesAt ha.ccmp, pos_of_mem_suitesAt ha.psk⟩
  unfold rsnIsWpa2PskCcmp
  by_cases hshort : length < 18
  · exact hrefuse (if_pos hshort) fun ha => by
      have := hpos ha
      have := ha.fits
      omega
  rw [if_neg hshort, readLe_eq (by omega), ok_bind]
  by_cases hversion : leValue (buf.bytes rsn 2) ≠ 1
  · exact hrefuse (if_pos hversion) fun ha => hversion ha.version
  rw [if_neg hversion, readLe_eq (by omega), ok_bind]
  change ∃ accepted, (if pairwiseCount buf rsn = 0 ∨ (length - 8) / 4 < pairwiseCount buf rsn then _
    else _) = _ ∧ _
  by_cases hpairwise : pairwiseCount buf rsn = 0 ∨ (length - 8) / 4 < pairwiseCount buf rsn
  · exact hrefuse (if_pos hpairwise) fun ha => by
      have := hpos ha
      have := ha.fits
      omega
  rw [if_neg hpairwise]
  change ∃ accepted, (hasSuite buf 4 (pairwiseCount buf rsn) (rsn + 8) >>= _) = _ ∧ _
  rw [hasSuite_eq (by omega), ok_bind]
  by_cases hakmAt : length < 8 + 4 * pairwiseCount buf rsn + 2
  · exact hrefuse (if_pos hakmAt) fun ha => by
      have := ha.fits
      omega
  change ∃ accepted, (if length < 8 + 4 * pairwiseCount buf rsn + 2 then _ else
    (buf.readLe (rsn + (8 + 4 * pairwiseCount buf rsn)) 2 >>= _)) = _ ∧ _
  rw [if_neg hakmAt, readLe_eq (by omega), ok_bind]
  change ∃ accepted, (if akmCount buf rsn = 0 ∨
    (length - (8 + 4 * pairwiseCount buf rsn + 2)) / 4 < akmCount buf rsn then _ else _) = _ ∧ _
  by_cases hakm : akmCount buf rsn = 0 ∨
      (length - (8 + 4 * pairwiseCount buf rsn + 2)) / 4 < akmCount buf rsn
  · exact hrefuse (if_pos hakm) fun ha => by
      have := hpos ha
      have := ha.fits
      omega
  rw [if_neg hakm]
  change ∃ accepted, (hasSuite buf 2 (akmCount buf rsn)
    (rsn + (8 + 4 * pairwiseCount buf rsn) + 2) >>= _) = _ ∧ _
  rw [hasSuite_eq (by omega), ok_bind]
  refine ⟨_, rfl, ?_⟩
  rw [Bool.and_eq_true, decide_eq_true_iff, decide_eq_true_iff]
  have hfits : 8 + 4 * pairwiseCount buf rsn + 2 + 4 * akmCount buf rsn ≤ length := by omega
  exact ⟨fun hsuites => ⟨not_not.mp hversion, hfits, hsuites.1, hsuites.2⟩,
    fun ha => ⟨ha.ccmp, ha.psk⟩⟩

def bodyAt (buf : Image) (rsn length : ℕ) : RsnBody where
  version := leValue (buf.bytes rsn 2)
  group := buf.array 4 (rsn + 2)
  pairwise := suitesAt buf (pairwiseCount buf rsn) (rsn + 8)
  akm := suitesAt buf (akmCount buf rsn) (rsn + (8 + 4 * pairwiseCount buf rsn) + 2)
  rest :=
    let n := 8 + 4 * pairwiseCount buf rsn + 2 + 4 * akmCount buf rsn
    buf.bytes (rsn + n) (length - n)
  pairwise_lt := by
    rw [length_suitesAt]
    exact Image.leValue_bytes_lt buf _ 2
  akm_lt := by
    rw [length_suitesAt]
    exact Image.leValue_bytes_lt buf _ 2

theorem leBytes_bytes (buf : Image) (off n : ℕ) :
    leBytes n (leValue (buf.bytes off n)) = buf.bytes off n := by
  have h := leBytes_leValue (buf.bytes off n)
  rwa [length_bytes] at h

theorem encode_bodyAt (h : 8 + 4 * pairwiseCount buf rsn + 2 + 4 * akmCount buf rsn ≤ length) :
    (bodyAt buf rsn length).encode = buf.bytes rsn length := by
  rw [RsnBody.encode, bodyAt]
  dsimp only
  rw [length_suitesAt, length_suitesAt, suiteBytes_suitesAt, suiteBytes_suitesAt, toList_array,
    leBytes_bytes, show leBytes 2 (pairwiseCount buf rsn) = _ from leBytes_bytes buf _ 2,
    show leBytes 2 (akmCount buf rsn) = _ from leBytes_bytes buf _ 2]
  generalize pairwiseCount buf rsn = p at *
  generalize akmCount buf rsn = a at *
  obtain ⟨m, rfl⟩ := Nat.exists_eq_add_of_le h
  have hlength : 8 + 4 * p + 2 + 4 * a + m = 2 + (4 + (2 + (4 * p + (2 + (4 * a + m))))) := by omega
  have hakm : rsn + 6 + 2 + 4 * p = rsn + (8 + 4 * p) := by omega
  have hrest : rsn + (8 + 4 * p) + 2 + 4 * a = rsn + (8 + 4 * p + 2 + 4 * a) := by omega
  rw [Nat.add_sub_cancel_left, hlength, bytes_add, bytes_add, bytes_add,
    bytes_add, bytes_add, bytes_add, show rsn + 2 + 4 = rsn + 6 from rfl, hakm,
    hrest]

theorem accepted_of_encode {r : RsnBody} (h : rsn + length ≤ buf.size)
    (hencode : r.encode = buf.bytes rsn length) (hr : r.Wpa2PskCcmp) : Accepted buf rsn length := by
  have hlength : r.encode.length = length := by rw [hencode, length_bytes]
  have hholds : buf.Holds rsn r.encode := ⟨by rw [hlength]; exact h, by rw [hlength, hencode]⟩
  rw [RsnBody.encode] at hholds
  simp only [holds_append, length_leBytes, Vector.length_toList, length_suiteBytes] at hholds
  obtain ⟨hversion, -, hpairwise, hpairs, hakm, hakms, -⟩ := hholds
  have hp : pairwiseCount buf rsn = r.pairwise.length := hpairwise.leValue r.pairwise_lt
  have ha : akmCount buf rsn = r.akm.length := by
    rw [akmCount, hp, ← Nat.add_assoc]
    exact hakm.leValue r.akm_lt
  have hpairs' := hpairs.2
  have hakms' := hakms.2
  rw [length_suiteBytes] at hpairs' hakms'
  refine ⟨?_, ?_, ?_, ?_⟩
  · rw [hversion.leValue (by rw [hr.1]; decide), hr.1]
  · rw [hp, ha, ← hlength, RsnBody.encode]
    simp only [List.length_append, length_leBytes, Vector.length_toList, length_suiteBytes]
    omega
  · rw [hp, suitesAt_of_bytes hpairs']
    exact hr.2.1
  · rw [ha, hp, ← Nat.add_assoc, suitesAt_of_bytes hakms']
    exact hr.2.2

/-- A body passes the checks exactly if it is the encoding of contents that say so. -/
theorem accepted_iff (h : rsn + length ≤ buf.size) :
    Accepted buf rsn length ↔
      ∃ r : RsnBody, r.encode = buf.bytes rsn length ∧ r.Wpa2PskCcmp := by
  constructor
  · exact fun ha => ⟨bodyAt buf rsn length, encode_bodyAt ha.fits, ha.version, ha.ccmp, ha.psk⟩
  · rintro ⟨r, hencode, hr⟩
    exact accepted_of_encode h hencode hr

end MicroK.Iwl
