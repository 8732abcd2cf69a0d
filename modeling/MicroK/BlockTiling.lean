import Mathlib.Data.List.Chain
import Mathlib.Tactic

/-!
# First-fit allocation over a tiling of an interval

A list of blocks, each with a header of `h` bytes in front of its payload, tiles an interval
when every block starts where its predecessor ends. `allocate` gives out the first free block
that is large enough and cuts off the rest when a header and `slack` bytes remain; `release`
frees the block at an address and merges it with its free neighbours. Both keep the tiling, and
both keep free blocks apart.
-/

namespace MicroK.BlockTiling

open List Nat

structure Block where
  addr : ℕ
  size : ℕ
  free : Bool
deriving DecidableEq, Repr

def Tiles (h : ℕ) : ℕ → ℕ → List Block → Prop
  | a, e, [] => a = e
  | a, e, b :: bs => b.addr = a ∧ Tiles h (a + h + b.size) e bs

def Apart (b c : Block) : Prop := b.free = true → c.free = false

def Separated (bs : List Block) : Prop := bs.IsChain Apart

def fits (n : ℕ) (b : Block) : Bool := b.free && decide (n ≤ b.size)

theorem fits_iff {n : ℕ} {b : Block} : fits n b = true ↔ b.free = true ∧ n ≤ b.size := by
  simp [fits]

def carve (h slack n : ℕ) (b : Block) (bs : List Block) : List Block :=
  if n + h + slack ≤ b.size then
    ⟨b.addr, n, false⟩ :: ⟨b.addr + h + n, b.size - n - h, true⟩ :: bs
  else { b with free := false } :: bs

def allocate (h slack n : ℕ) : List Block → List Block
  | [] => []
  | b :: bs => if fits n b then carve h slack n b bs else b :: allocate h slack n bs

def absorb (h : ℕ) (b : Block) : List Block → List Block
  | [] => [b]
  | c :: cs =>
    if b.free && c.free then absorb h { b with size := b.size + (h + c.size) } cs
    else b :: c :: cs

def release (h p : ℕ) : List Block → List Block
  | [] => []
  | [b] => if b.addr = p then [{ b with free := true }] else [b]
  | b :: c :: cs =>
    if b.addr = p then absorb h { b with free := true } (c :: cs)
    else if c.addr = p then absorb h b (absorb h { c with free := true } cs)
    else b :: release h p (c :: cs)

/-- What `release` does at the block, at the block before it, and elsewhere. -/
theorem release_rule {h p : ℕ} {P : List Block → List Block → Prop} (hnil : P [] [])
    (hhit : ∀ b cs, b.addr = p → P (b :: cs) (absorb h { b with free := true } cs))
    (hbefore : ∀ b c cs, b.addr ≠ p → c.addr = p →
      P (b :: c :: cs) (absorb h b (absorb h { c with free := true } cs)))
    (hskip : ∀ b cs, b.addr ≠ p → (∀ c ∈ cs.head?, c.addr ≠ p) → P cs (release h p cs) →
      P (b :: cs) (b :: release h p cs)) (bs : List Block) : P bs (release h p bs) := by
  induction bs using release.induct p with
  | case1 => exact hnil
  | case2 b hb =>
    rw [release, if_pos hb]
    exact hhit b [] hb
  | case3 b hb =>
    rw [release, if_neg hb]
    exact hskip b [] hb nofun hnil
  | case4 b c cs hb =>
    rw [release, if_pos hb]
    exact hhit b _ hb
  | case5 b c cs hb hc =>
    rw [release, if_neg hb, if_pos hc]
    exact hbefore b c cs hb hc
  | case6 b c cs hb hc ih =>
    rw [release, if_neg hb, if_neg hc]
    exact hskip b _ hb (by simpa using hc) ih

section

variable {h slack n p a e : ℕ} {b c : Block} {bs : List Block}

theorem Tiles.le (ht : Tiles h a e bs) : a ≤ e := by
  induction bs generalizing a with
  | nil => exact le_of_eq ht
  | cons b bs ih =>
    have := ih ht.2
    omega

theorem Tiles.mem_bounds (ht : Tiles h a e bs) (hb : b ∈ bs) :
    a ≤ b.addr ∧ b.addr + h + b.size ≤ e := by
  induction bs generalizing a with
  | nil => cases hb
  | cons d bs ih =>
    rcases mem_cons.1 hb with rfl | hb
    · exact ⟨ht.1.ge, ht.1 ▸ ht.2.le⟩
    · have := ih ht.2 hb
      omega

theorem Tiles.eq_or_disjoint (ht : Tiles h a e bs) (hb : b ∈ bs) (hc : c ∈ bs) :
    b = c ∨ b.addr + h + b.size ≤ c.addr ∨ c.addr + h + c.size ≤ b.addr := by
  induction bs generalizing a with
  | nil => cases hb
  | cons d bs ih =>
    have hd := ht.1
    rcases mem_cons.1 hb with rfl | hb' <;> rcases mem_cons.1 hc with rfl | hc'
    · exact .inl rfl
    · have := ht.2.mem_bounds hc'
      exact .inr (.inl (by omega))
    · have := ht.2.mem_bounds hb'
      exact .inr (.inr (by omega))
    · exact ih ht.2 hb' hc'

theorem Tiles.disjoint (ht : Tiles h a e bs) (hb : b ∈ bs) (hc : c ∈ bs) (hne : b.addr ≠ c.addr) :
    b.addr + h + b.size ≤ c.addr ∨ c.addr + h + c.size ≤ b.addr :=
  (ht.eq_or_disjoint hb hc).resolve_left fun heq => hne (congrArg Block.addr heq)

theorem Tiles.used_free_disjoint (ht : Tiles h a e bs) (hb : b ∈ bs) (hc : c ∈ bs)
    (hused : b.free = false) (hfree : c.free = true) :
    b.addr + h + b.size ≤ c.addr ∨ c.addr + h + c.size ≤ b.addr := by
  refine (ht.eq_or_disjoint hb hc).resolve_left fun heq => ?_
  rw [heq, hfree] at hused
  cases hused

theorem Tiles.find_le {q : Block → Bool} (ht : Tiles h a e bs) (hfind : bs.find? q = some b)
    (hc : c ∈ bs) (hq : q c = true) : b.addr ≤ c.addr := by
  induction bs generalizing a with
  | nil => cases hc
  | cons d bs ih =>
    have hd := ht.1
    cases hqd : q d with
    | true =>
      rw [find?_cons_of_pos hqd, Option.some.injEq] at hfind
      subst hfind
      rcases mem_cons.1 hc with rfl | hc
      · exact le_rfl
      · have := ht.2.mem_bounds hc
        omega
    | false =>
      rw [find?_cons_of_neg (by simp [hqd])] at hfind
      rcases mem_cons.1 hc with rfl | hc
      · rw [hqd] at hq
        cases hq
      · exact ih ht.2 hfind hc

theorem Tiles.sum_sizes (ht : Tiles h a e bs) : a + (bs.map (fun b => h + b.size)).sum = e := by
  induction bs generalizing a with
  | nil => exact ht
  | cons b bs ih =>
    have := ih ht.2
    simp only [map_cons, sum_cons]
    omega

theorem Tiles.length_le (ht : Tiles h a e bs) : a + h * bs.length ≤ e := by
  induction bs generalizing a with
  | nil => exact le_of_eq ht
  | cons b bs ih =>
    have := ih ht.2
    rw [length_cons, mul_succ]
    omega

theorem tiles_carve (ht : Tiles h a e (b :: bs)) : Tiles h a e (carve h slack n b bs) := by
  unfold carve
  split_ifs with hsplit
  · refine ⟨ht.1, by rw [ht.1], ?_⟩
    have hlen : a + h + n + h + (b.size - n - h) = a + h + b.size := by omega
    rw [hlen]
    exact ht.2
  · exact ht

theorem tiles_allocate (ht : Tiles h a e bs) : Tiles h a e (allocate h slack n bs) := by
  induction bs generalizing a with
  | nil => exact ht
  | cons b bs ih =>
    rw [allocate]
    split_ifs with hfit
    · exact tiles_carve ht
    · exact ⟨ht.1, ih ht.2⟩

theorem Tiles.merge {cs : List Block} (ht : Tiles h a e (b :: c :: cs)) :
    Tiles h a e ({ b with size := b.size + (h + c.size) } :: cs) := by
  have hlen : a + h + (b.size + (h + c.size)) = a + h + b.size + h + c.size := by omega
  refine ⟨ht.1, ?_⟩
  rw [hlen]
  exact ht.2.2

theorem tiles_absorb (ht : Tiles h a e (b :: bs)) : Tiles h a e (absorb h b bs) := by
  induction bs generalizing b with
  | nil => exact ht
  | cons c cs ih =>
    rw [absorb]
    split_ifs with hfree
    · exact ih ht.merge
    · exact ht

theorem length_absorb_le (h : ℕ) (b : Block) (bs : List Block) :
    (absorb h b bs).length ≤ bs.length + 1 := by
  induction bs generalizing b with
  | nil => exact le_rfl
  | cons c cs ih =>
    rw [absorb]
    split_ifs with hfree
    · exact (ih _).trans (le_succ _)
    · exact le_rfl

end

section

variable {d h slack n p : ℕ} {b : Block} {bs : List Block}

/-- Every payload is a whole number of units of `d` bytes. -/
def Granular (d : ℕ) (bs : List Block) : Prop := ∀ b ∈ bs, d ∣ b.size

theorem granular_cons : Granular d (b :: bs) ↔ d ∣ b.size ∧ Granular d bs := forall_mem_cons

theorem granular_allocate (hh : d ∣ h) (hn : d ∣ n) (hg : Granular d bs) :
    Granular d (allocate h slack n bs) := by
  induction bs with
  | nil => exact hg
  | cons b bs ih =>
    obtain ⟨hb, hbs⟩ := granular_cons.1 hg
    rw [allocate]
    split_ifs with hfit
    · unfold carve
      split_ifs with hsplit
      · have hrest : d ∣ b.size - n - h := dvd_sub (dvd_sub hb hn) hh
        exact granular_cons.2 ⟨hn, granular_cons.2 ⟨hrest, hbs⟩⟩
      · exact granular_cons.2 ⟨hb, hbs⟩
    · exact granular_cons.2 ⟨hb, ih hbs⟩

theorem granular_absorb (hh : d ∣ h) (hb : d ∣ b.size) (hg : Granular d bs) :
    Granular d (absorb h b bs) := by
  induction bs generalizing b with
  | nil => exact granular_cons.2 ⟨hb, hg⟩
  | cons c cs ih =>
    obtain ⟨hc, hcs⟩ := granular_cons.1 hg
    rw [absorb]
    split_ifs with hfree
    · exact ih (dvd_add hb (dvd_add hh hc)) hcs
    · exact granular_cons.2 ⟨hb, hg⟩

theorem granular_release (hh : d ∣ h) (hg : Granular d bs) : Granular d (release h p bs) := by
  refine release_rule (P := fun bs r => Granular d bs → Granular d r) id ?_ ?_ ?_ bs hg
  · intro b cs _ hg
    exact granular_absorb hh (granular_cons.1 hg).1 (granular_cons.1 hg).2
  · intro b c cs _ _ hg
    obtain ⟨hb, hg⟩ := granular_cons.1 hg
    exact granular_absorb hh hb (granular_absorb hh (granular_cons.1 hg).1 (granular_cons.1 hg).2)
  · intro b cs _ _ ih hg
    exact granular_cons.2 ⟨(granular_cons.1 hg).1, ih (granular_cons.1 hg).2⟩

theorem Tiles.dvd_addr {a e : ℕ} (hh : d ∣ h) (ha : d ∣ a) (hg : Granular d bs)
    (ht : Tiles h a e bs) (hb : b ∈ bs) : d ∣ b.addr := by
  induction bs generalizing a with
  | nil => cases hb
  | cons c cs ih =>
    obtain ⟨hc, hg⟩ := granular_cons.1 hg
    rcases mem_cons.1 hb with rfl | hb
    · exact ht.1 ▸ ha
    · exact ih (dvd_add (dvd_add ha hh) hc) hg ht.2 hb

end

section

variable {h slack n p : ℕ} {b c : Block} {bs : List Block}

theorem absorb_eq_cons (h : ℕ) (b : Block) (bs : List Block) :
    ∃ size rest, absorb h b bs = { b with size := size } :: rest := by
  induction bs generalizing b with
  | nil => exact ⟨b.size, [], rfl⟩
  | cons c cs ih =>
    rw [absorb]
    split_ifs with hfree
    · exact ih { b with size := b.size + (h + c.size) }
    · exact ⟨b.size, c :: cs, rfl⟩

theorem separated_absorb (hs : Separated bs) : Separated (absorb h b bs) := by
  induction bs generalizing b with
  | nil => exact isChain_singleton b
  | cons c cs ih =>
    rw [absorb]
    split_ifs with hfree
    · exact ih hs.tail
    · refine isChain_cons_cons.2 ⟨fun hb => ?_, hs⟩
      simpa [hb] using hfree

/-- Giving out the first fitting block leaves the block in front of the list as it was, or turns
it from free to used. -/
theorem separated_allocate (hs : Separated bs) : Separated (allocate h slack n bs) := by
  induction bs with
  | nil => exact hs
  | cons b bs ih =>
    rw [allocate]
    split_ifs with hfit
    · have hb : b.free = true := (fits_iff.1 hfit).1
      have hhead := (isChain_cons.1 hs).1
      unfold carve
      split_ifs with hsplit
      · refine isChain_cons_cons.2 ⟨nofun, isChain_cons.2 ⟨?_, hs.tail⟩⟩
        exact fun y hy _ => hhead y hy hb
      · exact isChain_cons.2 ⟨fun y _ => nofun, hs.tail⟩
    · refine isChain_cons.2 ⟨fun y hy hb => ?_, ih hs.tail⟩
      cases bs with
      | nil => cases hy
      | cons c cs =>
        have hc : c.free = false := (isChain_cons_cons.1 hs).1 hb
        have hno : fits n c = false := by simp [fits, hc]
        rw [allocate, hno] at hy
        simp only [Bool.false_eq_true, ↓reduceIte, head?_cons, Option.mem_some_iff] at hy
        rw [← hy, hc]

theorem release_eq_cons (h : ℕ) (bs : List Block) (hb : b.addr ≠ p) :
    ∃ size rest, release h p (b :: bs) = { b with size := size } :: rest := by
  cases bs with
  | nil => exact ⟨b.size, [], by rw [release, if_neg hb]⟩
  | cons c cs =>
    rw [release, if_neg hb]
    split_ifs with hc
    · exact absorb_eq_cons h b _
    · exact ⟨b.size, _, rfl⟩

theorem separated_release (hs : Separated bs) : Separated (release h p bs) := by
  refine release_rule (P := fun bs r => Separated bs → Separated r) id ?_ ?_ ?_ bs hs
  · intro b cs _ hs
    exact separated_absorb hs.tail
  · intro b c cs _ _ hs
    exact separated_absorb (separated_absorb hs.tail.tail)
  · intro b cs _ hhead ih hs
    refine isChain_cons.2 ⟨fun y hy => ?_, ih hs.tail⟩
    cases cs with
    | nil => cases hy
    | cons c cs =>
      obtain ⟨size, rest, he⟩ := release_eq_cons h cs (hhead c rfl)
      rw [he, head?_cons, Option.mem_some_iff] at hy
      subst hy
      exact (isChain_cons_cons.1 hs).1

end

section

variable {h slack n p : ℕ} {b c : Block} {bs : List Block}

theorem mem_allocate_of_used (hb : b ∈ bs) (hused : b.free = false) :
    b ∈ allocate h slack n bs := by
  induction bs with
  | nil => cases hb
  | cons c cs ih =>
    rw [allocate]
    rcases mem_cons.1 hb with rfl | hb
    · rw [if_neg (by simp [fits, hused])]
      exact mem_cons_self
    · split_ifs with hfit
      · unfold carve
        split_ifs with hsplit
        · exact .tail _ (.tail _ hb)
        · exact .tail _ hb
      · exact .tail _ (ih hb)

theorem mem_allocate_of_find (h slack : ℕ) (hfind : bs.find? (fits n) = some b) :
    ∃ c ∈ allocate h slack n bs, c.addr = b.addr ∧ c.free = false ∧ n ≤ c.size := by
  induction bs with
  | nil => cases hfind
  | cons d bs ih =>
    rw [allocate]
    split_ifs with hfit
    · rw [find?_cons_of_pos hfit, Option.some.injEq] at hfind
      subst hfind
      have hn : n ≤ d.size := (fits_iff.1 hfit).2
      unfold carve
      split_ifs with hsplit
      · exact ⟨_, mem_cons_self, rfl, rfl, le_rfl⟩
      · exact ⟨_, mem_cons_self, rfl, rfl, hn⟩
    · rw [find?_cons_of_neg hfit] at hfind
      obtain ⟨c, hc, hrest⟩ := ih hfind
      exact ⟨c, .tail _ hc, hrest⟩

theorem mem_absorb_of_used (hc : c ∈ b :: bs) (hused : c.free = false) : c ∈ absorb h b bs := by
  induction bs generalizing b with
  | nil => exact hc
  | cons d ds ih =>
    rw [absorb]
    split_ifs with hfree
    · obtain ⟨hb, hd⟩ := Bool.and_eq_true_iff.1 hfree
      apply ih
      rcases mem_cons.1 hc with rfl | hc
      · simp [hused] at hb
      · rcases mem_cons.1 hc with rfl | hc
        · simp [hused] at hd
        · exact .tail _ hc
    · exact hc

theorem mem_release_of_used (hc : c ∈ bs) (hused : c.free = false) (hp : c.addr ≠ p) :
    c ∈ release h p bs := by
  have hne : ∀ {b : Block} {cs}, b.addr = p → c ∈ b :: cs → c ∈ { b with free := true } :: cs := by
    intro b cs hb hc
    rcases mem_cons.1 hc with rfl | hc
    · exact absurd hb hp
    · exact .tail _ hc
  refine release_rule (P := fun bs r => c ∈ bs → c ∈ r) id ?_ ?_ ?_ bs hc
  · intro b cs hb hc
    exact mem_absorb_of_used (hne hb hc) hused
  · intro b d cs _ hd hc
    apply mem_absorb_of_used _ hused
    rcases mem_cons.1 hc with rfl | hc
    · exact mem_cons_self
    · exact .tail _ (mem_absorb_of_used (hne hd hc) hused)
  · intro b cs _ _ ih hc
    rcases mem_cons.1 hc with rfl | hc
    · exact mem_cons_self
    · exact .tail _ (ih hc)

end

section

variable {h p a e : ℕ} {b c : Block} {bs : List Block}

def CoveredFree (h : ℕ) (bs : List Block) (b : Block) : Prop :=
  ∃ c ∈ bs, c.free = true ∧ c.addr ≤ b.addr ∧ b.addr + h + b.size ≤ c.addr + h + c.size

theorem coveredFree_of_mem (hb : b ∈ bs) (hfree : b.free = true) : CoveredFree h bs b :=
  ⟨b, hb, hfree, le_rfl, le_rfl⟩

theorem CoveredFree.cons (hc : CoveredFree h bs c) (b : Block) : CoveredFree h (b :: bs) c := by
  obtain ⟨d, hd, hrest⟩ := hc
  exact ⟨d, mem_cons_of_mem b hd, hrest⟩

theorem CoveredFree.trans (hb : CoveredFree h bs b) (hle : b.addr ≤ c.addr)
    (hend : c.addr + h + c.size ≤ b.addr + h + b.size) : CoveredFree h bs c := by
  obtain ⟨d, hd, hfree, hdle, hdend⟩ := hb
  exact ⟨d, hd, hfree, hdle.trans hle, hend.trans hdend⟩

theorem coveredFree_absorb (ht : Tiles h a e (b :: bs)) (hc : c ∈ b :: bs)
    (hfree : c.free = true) : CoveredFree h (absorb h b bs) c := by
  induction bs generalizing b c with
  | nil => exact coveredFree_of_mem hc hfree
  | cons d ds ih =>
    rw [absorb]
    split_ifs with hboth
    · obtain ⟨hb, -⟩ := Bool.and_eq_true_iff.1 hboth
      have hba := ht.1
      have hda := ht.2.1
      have hm := ih ht.merge mem_cons_self hb
      rcases mem_cons.1 hc with rfl | hc
      · exact hm.trans le_rfl (by simp only; omega)
      · rcases mem_cons.1 hc with rfl | hc
        · exact hm.trans (by simp only; omega) (by simp only; omega)
        · exact ih ht.merge (.tail _ hc) hfree
    · exact coveredFree_of_mem hc hfree

theorem coveredFree_absorb_freed (ht : Tiles h a e (b :: bs)) (hh : 0 < h) (hc : c ∈ b :: bs)
    (hfree : c.free = true ∨ c.addr = b.addr) :
    CoveredFree h (absorb h { b with free := true } bs) c := by
  have htm : Tiles h a e ({ b with free := true } :: bs) := ht
  rcases mem_cons.1 hc with rfl | hc
  · exact coveredFree_absorb (c := { c with free := true }) htm mem_cons_self rfl
  · have hca := (ht.2.mem_bounds hc).1
    have hba := ht.1
    exact coveredFree_absorb htm (.tail _ hc) (hfree.resolve_right (by omega))

/-- What was free stays inside a free block, and so does what is released. -/
theorem coveredFree_release (hh : 0 < h) (ht : Tiles h a e bs) (hc : c ∈ bs)
    (hfree : c.free = true ∨ c.addr = p) : CoveredFree h (release h p bs) c := by
  refine release_rule (P := fun bs r => ∀ a, Tiles h a e bs → c ∈ bs → CoveredFree h r c)
    (fun _ _ hc => nomatch hc) ?_ ?_ ?_ bs a ht hc
  · intro b cs hb a ht hc
    exact coveredFree_absorb_freed ht hh hc (hb ▸ hfree)
  · intro b d cs hb hd a ht hc
    have htb : Tiles h a e (b :: absorb h { d with free := true } cs) := by
      exact ⟨ht.1, tiles_absorb (b := { d with free := true }) ht.2⟩
    rcases mem_cons.1 hc with rfl | hc
    · exact coveredFree_absorb htb mem_cons_self (hfree.resolve_right hb)
    · obtain ⟨x, hx, hxfree, hxle, hxend⟩ := coveredFree_absorb_freed ht.2 hh hc (hd ▸ hfree)
      exact (coveredFree_absorb htb (.tail _ hx) hxfree).trans hxle hxend
  · intro b cs hb _ ih a ht hc
    rcases mem_cons.1 hc with rfl | hc
    · exact coveredFree_of_mem mem_cons_self (hfree.resolve_right hb)
    · exact (ih _ ht.2 hc).cons b

end

section

variable {h slack n p a e : ℕ} {b c d : Block} {bs : List Block}

theorem absorb_of_separated (h : ℕ) (hs : Separated (b :: bs)) : absorb h b bs = b :: bs := by
  cases bs with
  | nil => rfl
  | cons c cs =>
    have hbc := (isChain_cons_cons.1 hs).1
    rw [absorb, if_neg]
    intro hfree
    obtain ⟨hb, hc⟩ := Bool.and_eq_true_iff.1 hfree
    rw [hbc hb] at hc
    cases hc

theorem release_hit (h : ℕ) (bs : List Block) (hb : b.addr = p) :
    release h p (b :: bs) = absorb h { b with free := true } bs := by
  cases bs with
  | nil => rw [release, if_pos hb, absorb]
  | cons c cs => rw [release, if_pos hb]

theorem release_skip (hb : b.addr ≠ p) (hs : Separated (b :: release h p bs)) :
    release h p (b :: bs) = b :: release h p bs := by
  cases bs with
  | nil => exact if_neg hb
  | cons c cs =>
    rw [release, if_neg hb]
    split_ifs with hc
    · rw [← release_hit h cs hc, absorb_of_separated h hs]
    · rfl

/-- Releasing what was just given out restores the list. -/
theorem release_allocate (hh : 0 < h) (ht : Tiles h a e bs) (hs : Separated bs)
    (hfind : bs.find? (fits n) = some b) : release h b.addr (allocate h slack n bs) = bs := by
  induction bs generalizing a with
  | nil => cases hfind
  | cons d bs ih =>
    rw [allocate]
    split_ifs with hfit
    · rw [find?_cons_of_pos hfit, Option.some.injEq] at hfind
      subst hfind
      obtain ⟨hfree, hle⟩ := fits_iff.1 hfit
      have hsame : ({ d with free := true } : Block) = d := by rw [← hfree]
      unfold carve
      split_ifs with hsplit
      · have hsize : n + (h + (d.size - n - h)) = d.size := by omega
        rw [release_hit (b := ⟨d.addr, n, false⟩) h _ rfl]
        simp only [absorb, Bool.and_self, if_true, hsize, hsame]
        exact absorb_of_separated h hs
      · rw [release_hit (b := { d with free := false }) h _ rfl, hsame]
        exact absorb_of_separated h hs
    · rw [find?_cons_of_neg hfit] at hfind
      have hlow := (ht.2.mem_bounds (mem_of_find?_eq_some hfind)).1
      have hda := ht.1
      have hrest := ih ht.2 hs.tail hfind
      rw [release_skip (by omega) (by rwa [hrest]), hrest]

theorem mem_of_used_allocate (hfind : bs.find? (fits n) = some b)
    (hc : c ∈ allocate h slack n bs) (hused : c.free = false) : c ∈ bs ∨ c.addr = b.addr := by
  induction bs with
  | nil => cases hfind
  | cons d bs ih =>
    rw [allocate] at hc
    split_ifs at hc with hfit
    · rw [find?_cons_of_pos hfit, Option.some.injEq] at hfind
      subst hfind
      unfold carve at hc
      split_ifs at hc with hsplit
      · rcases mem_cons.1 hc with rfl | hc
        · exact .inr rfl
        · rcases mem_cons.1 hc with rfl | hc
          · cases hused
          · exact .inl (.tail _ hc)
      · rcases mem_cons.1 hc with rfl | hc
        · exact .inr rfl
        · exact .inl (.tail _ hc)
    · rw [find?_cons_of_neg hfit] at hfind
      rcases mem_cons.1 hc with rfl | hc
      · exact .inl mem_cons_self
      · exact (ih hfind hc).imp_left (.tail _)

theorem mem_of_used_absorb (hc : c ∈ absorb h b bs) (hused : c.free = false) : c ∈ b :: bs := by
  induction bs generalizing b with
  | nil => exact hc
  | cons d ds ih =>
    rw [absorb] at hc
    split_ifs at hc with hfree
    · rcases mem_cons.1 (ih hc) with rfl | hc
      · rw [show b.free = false from hused] at hfree
        cases hfree
      · exact .tail _ (.tail _ hc)
    · exact hc

theorem mem_of_used_release (hc : c ∈ release h p bs) (hused : c.free = false) : c ∈ bs := by
  refine release_rule (P := fun bs r => c ∈ r → c ∈ bs) id ?_ ?_ ?_ bs hc
  · intro b cs _ hc
    rcases mem_cons.1 (mem_of_used_absorb hc hused) with rfl | hc
    · cases hused
    · exact .tail _ hc
  · intro b d cs _ _ hc
    rcases mem_cons.1 (mem_of_used_absorb hc hused) with rfl | hc
    · exact mem_cons_self
    · rcases mem_cons.1 (mem_of_used_absorb hc hused) with rfl | hc
      · cases hused
      · exact .tail _ (.tail _ hc)
  · intro b cs _ _ ih hc
    rcases mem_cons.1 hc with rfl | hc
    · exact mem_cons_self
    · exact .tail _ (ih hc)

/-- Free blocks that are apart are a single block. -/
theorem eq_singleton_of_free (hae : a < e) (ht : Tiles h a e bs) (hs : Separated bs)
    (hfree : ∀ b ∈ bs, b.free = true) : bs = [⟨a, e - a - h, true⟩] := by
  cases bs with
  | nil => exact absurd ht hae.ne
  | cons b bs =>
    have hb := hfree b mem_cons_self
    cases bs with
    | nil =>
      have hend : a + h + b.size = e := ht.2
      have hsize : b.size = e - a - h := by omega
      rw [← hsize, ← ht.1, ← hb]
    | cons c cs =>
      have hc := hfree c (.tail _ mem_cons_self)
      rw [(isChain_cons_cons.1 hs).1 hb] at hc
      cases hc

end

end MicroK.BlockTiling
