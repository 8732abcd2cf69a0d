import MicroK.VmmTables

/-!
# The abstract page map

What the virtual memory manager is for: a function from pages to entries, in which one page is
mapped or the flags of a range of mapped pages are changed. Each operation of the page tables, in
either format, does to the entries what the abstract operation does to the map.
-/

namespace MicroK.Vmm

open Pmm TableTree Option Nat

def Paging.walk (s : Paging) (p : List ℕ) : Option ℕ :=
  TableTree.walk (next s.paeActive) s.tables s.root p

def Paging.entry (s : Paging) (page : ℕ) : ℕ :=
  entryAt (next s.paeActive) s.tables s.root 0 (path s.paeActive page) (index s.paeActive page)

structure Inv (s : Paging) : Prop where
  counted : WellCounted s.pmm
  tree : Tree (next s.paeActive) s.tables s.root (depth s.paeActive) (InUse s.pmm)
  user : s.paeActive = false → ∀ i, s.tables s.root i &&& 1 ≠ 0 → s.tables s.root i &&& 4 ≠ 0

/-- Tables and pages in use are only added, and memory outside the tables stays as it is. -/
structure Grows (s s' : Paging) : Prop where
  pae : s'.paeActive = s.paeActive
  root : s'.root = s.root
  inUse : ∀ f, InUse s.pmm f → InUse s'.pmm f
  walk : ∀ {q f}, q.length ≤ depth s.paeActive → s.walk q = some f → s'.walk q = some f
  other : ∀ {f}, (∀ {q}, q.length ≤ depth s.paeActive → s'.walk q ≠ some f) →
    s'.tables f = s.tables f

theorem Grows.refl (s : Paging) : Grows s s :=
  ⟨rfl, rfl, fun _ hf => hf, fun _ hw => hw, fun _ => rfl⟩

theorem Grows.trans {s t u : Paging} (h : Grows s t) (h' : Grows t u) : Grows s u := by
  have hpae := h.pae
  refine ⟨h'.pae.trans hpae, h'.root.trans h.root, fun f hf => h'.inUse f (h.inUse f hf),
    fun hq hw => h'.walk (hpae ▸ hq) (h.walk hq hw), fun hout => ?_⟩
  rw [h'.other fun hq => hout (hpae ▸ hq),
    h.other fun hq hw => hout hq (h'.walk (hpae ▸ hq) hw)]

/-- What the functions that only add tables keep. -/
structure Keeps (s s' : Paging) : Prop extends Grows s s' where
  inv : Inv s'
  entry : ∀ page, s'.entry page = s.entry page

variable {s : Paging}

theorem Keeps.refl (h : Inv s) : Keeps s s := ⟨Grows.refl s, h, fun _ => rfl⟩

theorem Keeps.trans {s t u : Paging} (h : Keeps s t) (h' : Keeps t u) : Keeps s u :=
  ⟨h.toGrows.trans h'.toGrows, h'.inv, fun p => (h'.entry p).trans (h.entry p)⟩

theorem walk_snoc_of {p : List ℕ} {f : ℕ} (hw : s.walk p = some f) (i : ℕ) :
    s.walk (p ++ [i]) = next s.paeActive (s.tables f i) := by
  rw [Paging.walk, walk_snoc]
  change (s.walk p).bind _ = _
  rw [hw, bind_some]

/-- A blank table in the page `b`, hung into an absent entry of the table at the end of `p`. -/
def Paging.link (s : Paging) (f i b entry : ℕ) : Paging :=
  { s with
    pmm := (allocBlock s.pmm).1
    tables := TableTree.setEntry (Function.update s.tables b fun _ => 0) f i entry }

section

variable {s : Paging} (h : Inv s) {p : List ℕ} {f i b e : ℕ} (hp : p.length < depth s.paeActive)
  (hw : s.walk p = some f) (habsent : next s.paeActive (s.tables f i) = none)
  (haddr : (allocBlock s.pmm).2 = b * pageSize) (hfresh : ¬ InUse s.pmm b)
  (hinuse : InUse (allocBlock s.pmm).1 b) (hentry : next s.paeActive e = some b)
include h hp hw habsent hfresh hentry

theorem link_walk {q : List ℕ} (hq : q.length ≤ depth s.paeActive) :
    (s.link f i b e).walk q = if q = p ++ [i] then some b else s.walk q :=
  walk_link h.tree hp hw habsent hfresh (fun _ => next_zero _) hentry hq

theorem link_entry (page : ℕ) : (s.link f i b e).entry page = s.entry page :=
  entryAt_link h.tree hp hw habsent hfresh (fun _ => next_zero _) hentry 0 (fun _ => rfl)
    (path_length _ _)

theorem link_grows : Grows s (s.link f i b e) := by
  obtain ⟨-, hmono, -, -⟩ := allocBlock_table h.counted
  have hwalk := @link_walk s h p f i b e hp hw habsent hfresh hentry
  have hlen : (p ++ [i]).length ≤ depth s.paeActive := by
    rw [List.length_append]
    exact hp
  have hne : ¬ p = p ++ [i] := by
    intro heq
    have := congrArg List.length heq
    simp at this
  refine ⟨rfl, rfl, hmono, fun hq hwq => ?_, fun {g} hout => ?_⟩
  · rw [hwalk hq]
    split_ifs with hqp
    · rw [hqp, walk_snoc_of hw, habsent] at hwq
      cases hwq
    · exact hwq
  · have hgf : g ≠ f := by
      rintro rfl
      exact hout hp.le (by rw [hwalk hp.le, if_neg hne, hw])
    have hgb : g ≠ b := by
      rintro rfl
      exact hout hlen (by rw [hwalk hlen, if_pos rfl])
    funext j
    change TableTree.setEntry _ f i e g j = _
    rw [setEntry_of_ne_frame hgf, Function.update_of_ne hgb]

include haddr hinuse

theorem link_inv (huser : s.paeActive = false → e &&& 4 ≠ 0) : Inv (s.link f i b e) := by
  obtain ⟨hcounted, hmono, -, -⟩ := allocBlock_table h.counted
  have htree := tree_link h.tree hp hw habsent hfresh (fun _ => next_zero _) hentry
  refine ⟨hcounted, htree.mono ?_, fun hpae j hj => ?_⟩
  · rintro k (hk | rfl)
    · exact hmono k hk
    · exact hinuse
  · change s.paeActive = false at hpae
    have hnil : p = [] := by
      rw [hpae] at hp
      exact List.length_eq_zero_iff.mp (lt_one_iff.mp hp)
    obtain rfl : s.root = f := by
      rw [hnil] at hw
      exact Option.some.inj hw
    have hne : s.root ≠ b := fun hrb => hfresh (hrb ▸ h.tree.used hp.le hw)
    by_cases hji : j = i
    · subst hji
      simpa only [Paging.link, setEntry_self] using huser hpae
    · simp only [Paging.link, setEntry_of_ne_index hji, Function.update_of_ne hne] at hj ⊢
      exact h.user hpae j hj

end

theorem keeps_failed (h : Inv s) : Keeps s { s with pmm := (allocBlock s.pmm).1 } := by
  obtain ⟨hcounted, hmono, -, -⟩ := allocBlock_table h.counted
  exact ⟨⟨rfl, rfl, hmono, fun _ hw => hw, fun _ => rfl⟩,
    ⟨hcounted, h.tree.mono hmono, h.user⟩, fun _ => rfl⟩

/-- The table is there, or it is absent and not to be created, or there is no page for it, or it is
hung into the entry as a blank table. -/
theorem nextTable_cases (h : Inv s) (f i : ℕ) (makeEntry : ℕ → ℕ) (flags : ℕ)
    (hmake : ∀ b < 2 ^ 20, makeEntry (b * pageSize) = b * pageSize + flags)
    (hflags : flags < pageSize) (hodd : flags % 2 = 1)
    (huser : s.paeActive = false → flags / 4 % 2 = 1) (create : Bool) :
    (∃ t, next s.paeActive (s.tables f i) = some t ∧
      s.nextTable f i makeEntry create = (s, some t)) ∨
    next s.paeActive (s.tables f i) = none ∧
      (create = false ∧ s.nextTable f i makeEntry create = (s, none) ∨
        create = true ∧ ((allocBlock s.pmm).2 = 0 ∧
            s.nextTable f i makeEntry create = ({ s with pmm := (allocBlock s.pmm).1 }, none) ∨
          ∃ b e, (allocBlock s.pmm).2 ≠ 0 ∧ (allocBlock s.pmm).2 = b * pageSize ∧
            ¬ InUse s.pmm b ∧ InUse (allocBlock s.pmm).1 b ∧ next s.paeActive e = some b ∧
            (s.paeActive = false → e &&& 4 ≠ 0) ∧
            s.nextTable f i makeEntry create = (s.link f i b e, some b))) := by
  unfold Paging.nextTable
  by_cases hpresent : s.tables f i &&& 1 = 0
  · refine .inr ⟨if_pos hpresent, ?_⟩
    rw [if_pos hpresent]
    cases create
    · exact .inl ⟨rfl, rfl⟩
    refine .inr ⟨rfl, ?_⟩
    rw [if_neg (by decide)]
    by_cases hzero : (allocBlock s.pmm).2 = 0
    · exact .inl ⟨hzero, if_pos hzero⟩
    obtain ⟨b, hb, haddr, hfresh, hinuse⟩ := (allocBlock_table h.counted).2.2.2 hzero
    have hentry : next s.paeActive (makeEntry (b * pageSize)) = some b := by
      rw [hmake b hb]
      exact next_table hb hflags hodd
    have hread : entryFrame s.paeActive (makeEntry (b * pageSize)) = b := by
      rw [next] at hentry
      split_ifs at hentry with hz
      exact Option.some.inj hentry
    have hbit : s.paeActive = false → makeEntry (b * pageSize) &&& 4 ≠ 0 := by
      intro hpae
      have hset := huser hpae
      rw [ne_eq, and_four_eq_zero_iff, hmake b hb]
      unfold pageSize
      omega
    refine .inr ⟨b, _, hzero, haddr, hfresh, hinuse, hentry, hbit, ?_⟩
    have hframe : (allocBlock s.pmm).2 / pageSize = b := by
      rw [haddr, Nat.mul_div_cancel _ (by decide)]
    simp only [if_neg hzero, hframe]
    rw [haddr, setEntry_self, hread]
    rfl
  · refine .inl ⟨_, if_neg hpresent, ?_⟩
    rw [if_neg hpresent]

theorem nextTable_spec (h : Inv s) {p : List ℕ} {f : ℕ}
    (hp : p.length < depth s.paeActive) (hw : s.walk p = some f) (i : ℕ) (makeEntry : ℕ → ℕ)
    (flags : ℕ) (hmake : ∀ b < 2 ^ 20, makeEntry (b * pageSize) = b * pageSize + flags)
    (hflags : flags < pageSize) (hodd : flags % 2 = 1)
    (huser : s.paeActive = false → flags / 4 % 2 = 1) (create : Bool) :
    Keeps s (s.nextTable f i makeEntry create).1 ∧
      ∀ t, (s.nextTable f i makeEntry create).2 = some t →
        (s.nextTable f i makeEntry create).1.walk (p ++ [i]) = some t := by
  obtain ⟨t, hnext, heq⟩ | ⟨habsent, ⟨-, heq⟩ | ⟨-, ⟨hzero, heq⟩ |
      ⟨b, e, hzero, haddr, hfresh, hinuse, hentry, hbit, heq⟩⟩⟩ :=
    nextTable_cases h f i makeEntry flags hmake hflags hodd huser create
  · rw [heq]
    refine ⟨Keeps.refl h, fun _ ht => ?_⟩
    rw [walk_snoc_of hw, hnext]
    exact ht
  · rw [heq]
    exact ⟨Keeps.refl h, fun t ht => by cases ht⟩
  · rw [heq]
    exact ⟨keeps_failed h, fun t ht => by cases ht⟩
  · rw [heq]
    refine ⟨⟨link_grows h hp hw habsent hfresh hentry,
      link_inv h hp hw habsent haddr hfresh hinuse hentry hbit,
      link_entry h hp hw habsent hfresh hentry⟩, fun t ht => ?_⟩
    rw [link_walk h hp hw habsent hfresh hentry (by rw [List.length_append]; exact hp), if_pos rfl]
    exact ht

def Paging.getTable (s : Paging) (va : ℕ) (create : Bool) : Paging × Option ℕ :=
  if s.paeActive then s.paeGetTable va create else s.legacyTable va create

theorem or_user_block (b : ℕ) : b * pageSize ||| 0x07 = b * pageSize + 0x07 :=
  or_flags (mul_mod_left _ _) (by decide)

theorem paeMakeEntry_block {b flags : ℕ} (hb : b < 2 ^ 20) (hflags : flags < pageSize) :
    paeMakeEntry (b * pageSize) flags = b * pageSize + flags := by
  refine paeMakeEntry_eq ?_ (mul_mod_left _ _) hflags
  unfold pageSize
  omega

theorem getTable_spec (h : Inv s) (va : ℕ) (create : Bool) :
    Keeps s (s.getTable va create).1 ∧ ∀ t, (s.getTable va create).2 = some t →
      (s.getTable va create).1.walk (path s.paeActive (va / pageSize)) = some t := by
  unfold Paging.getTable
  cases hpae : s.paeActive
  · rw [if_neg Bool.false_ne_true, path_legacy]
    exact nextTable_spec h (p := []) (by rw [hpae]; decide) rfl _ _ 0x07
      (fun b _ => or_user_block b) (by decide) rfl (fun _ => rfl) create
  · rw [if_pos rfl, path_pae, Paging.paeGetTable]
    obtain ⟨hkeep, hdir⟩ := nextTable_spec h (p := []) (by rw [hpae]; decide) rfl
      (paePdptIndex va) (fun addr => paeMakeEntry addr paePresent) paePresent
      (fun b hb => paeMakeEntry_block hb (by decide)) (by decide) (by decide)
      (fun hlegacy => absurd (hpae.symm.trans hlegacy) (by decide)) create
    generalize s.nextTable s.root (paePdptIndex va) (fun addr => paeMakeEntry addr paePresent)
      create = r at hkeep hdir ⊢
    obtain ⟨s', found⟩ := r
    cases found with
    | none => exact ⟨hkeep, fun t ht => by cases ht⟩
    | some pd =>
      have hpae' : s'.paeActive = true := hkeep.pae.trans hpae
      obtain ⟨hkeep', htable⟩ := nextTable_spec hkeep.inv (p := [paePdptIndex va])
        (by rw [hpae']; exact one_lt_two) (hdir pd rfl) (paePdIndex va)
        (fun addr => paeMakeEntry addr (paePresent ||| paeWritable ||| paeUser))
        (paePresent ||| paeWritable ||| paeUser)
        (fun b hb => paeMakeEntry_block hb (by decide)) (by decide) (by decide)
        (fun hlegacy => absurd (hpae'.symm.trans hlegacy) (by decide)) create
      exact ⟨hkeep.trans hkeep', htable⟩

theorem nextTable_false (s : Paging) (f i : ℕ) (makeEntry : ℕ → ℕ) :
    s.nextTable f i makeEntry false = (s, next s.paeActive (s.tables f i)) := by
  unfold Paging.nextTable next
  by_cases hpresent : s.tables f i &&& 1 = 0
  · rw [if_pos hpresent, if_pos hpresent]
    exact if_pos (by decide)
  · rw [if_neg hpresent, if_neg hpresent]

theorem getTable_false (s : Paging) (va : ℕ) :
    s.getTable va false = (s, s.walk (path s.paeActive (va / pageSize))) := by
  unfold Paging.getTable
  cases hpae : s.paeActive
  · rw [if_neg Bool.false_ne_true, path_legacy, Paging.legacyTable, nextTable_false, hpae,
      Paging.walk, hpae, walk]
    cases next false (s.tables s.root (legacyPdIndex va)) <;> rfl
  · rw [if_pos rfl, path_pae, Paging.paeGetTable, nextTable_false, hpae, Paging.walk, hpae, walk]
    cases next true (s.tables s.root (paePdptIndex va)) with
    | none => rfl
    | some pd =>
      simp only [nextTable_false, bind_some, walk, hpae]
      cases next true (s.tables pd (paePdIndex va)) <;> rfl

theorem setEntry_spec (h : Inv s) {page t : ℕ} (hpage : page < 2 ^ 20)
    (hw : s.walk (path s.paeActive page) = some t) (e : ℕ) :
    Inv (s.setEntry t (index s.paeActive page) e) ∧
      ∀ q < 2 ^ 20, (s.setEntry t (index s.paeActive page) e).entry q =
        if q = page then e else s.entry q := by
  have hroot : t ≠ s.root := by
    rintro rfl
    have hnil : path s.paeActive page = [] :=
      h.tree.unique (path_length _ _).le (zero_le _) hw rfl
    have hlen := path_length s.paeActive page
    rw [hnil] at hlen
    cases hpae : s.paeActive <;> rw [hpae] at hlen <;> cases hlen
  refine ⟨⟨h.counted, tree_setEntry_leaf h.tree (path_length _ _) hw e, fun hpae i hi => ?_⟩, ?_⟩
  · simp only [Paging.setEntry, setEntry_of_ne_frame hroot.symm] at hi ⊢
    exact h.user hpae i hi
  · intro q hq
    have hleaf := entryAt_setEntry_leaf (i := index s.paeActive page) (j := index s.paeActive q)
      h.tree (path_length _ _) hw 0 e (path_length s.paeActive q)
    simp only [path_index_inj hpage hq] at hleaf
    exact hleaf

theorem setEntry_grows (h : Inv s) {page t : ℕ}
    (hw : s.walk (path s.paeActive page) = some t) (i e : ℕ) : Grows s (s.setEntry t i e) := by
  have hwalk : ∀ {q : List ℕ}, q.length ≤ depth s.paeActive →
      (s.setEntry t i e).walk q = s.walk q :=
        fun hq => walk_setEntry_leaf h.tree (path_length _ _) hw e hq
  refine ⟨rfl, rfl, fun _ hf => hf, fun hq hwq => ?_, fun {f} hout => ?_⟩
  · rwa [hwalk hq]
  · have hne : f ≠ t := by
      rintro rfl
      exact hout (path_length _ page).le (by rw [hwalk (path_length _ _).le, hw])
    funext j
    exact setEntry_of_ne_frame hne e

theorem nextTable_of_next {f i t : ℕ} (ht : next s.paeActive (s.tables f i) = some t)
    (makeEntry : ℕ → ℕ) (create : Bool) : s.nextTable f i makeEntry create = (s, some t) := by
  unfold next at ht
  unfold Paging.nextTable
  by_cases hpresent : s.tables f i &&& 1 = 0
  · rw [if_pos hpresent] at ht
    cases ht
  · rw [if_neg hpresent] at ht ⊢
    rw [ht]

theorem getTable_of_walk {va t : ℕ}
    (hw : s.walk (path s.paeActive (va / pageSize)) = some t) (create : Bool) :
    s.getTable va create = (s, some t) := by
  unfold Paging.getTable
  cases hpae : s.paeActive
  · rw [hpae, path_legacy, Paging.walk, walk, bind_eq_some_iff] at hw
    obtain ⟨g, hg, hnil⟩ := hw
    rw [if_neg Bool.false_ne_true, Paging.legacyTable, nextTable_of_next hg, Option.some.inj hnil]
  · rw [hpae, path_pae, Paging.walk, walk, bind_eq_some_iff] at hw
    obtain ⟨pd, hpd, hw⟩ := hw
    rw [walk, bind_eq_some_iff] at hw
    obtain ⟨g, hg, hnil⟩ := hw
    rw [if_pos rfl, Paging.paeGetTable, nextTable_of_next hpd]
    dsimp only
    rw [nextTable_of_next hg, Option.some.inj hnil]

/-- An entry is a physical page times the page size, plus twelve flag bits. -/
def PageMap : Type := ℕ → ℕ

variable (m : PageMap)

namespace PageMap

variable (page : ℕ)

def Present : Prop := m page % 2 = 1

def Writable : Prop := m page / 2 % 2 = 1

def User : Prop := m page / 4 % 2 = 1

def physPage : ℕ := m page / pageSize

instance (m : PageMap) (page : ℕ) : Decidable (m.Present page) :=
  inferInstanceAs (Decidable (_ = _))

def map (page physicalAddr flags : ℕ) : PageMap := fun q =>
  if q = page then physicalAddr + flags else m q

def reflag (page flags : ℕ) : PageMap :=
  m.map page (m.physPage page * pageSize) (flags % pageSize)

/-- Changes the flags of `page` and the `n` pages after it, up to the first that is not present. -/
def protectPages (flags : ℕ) : ℕ → PageMap → ℕ → PageMap × Bool
  | 0, m, page => if m.Present page then (m.reflag page flags, true) else (m, false)
  | n + 1, m, page =>
    if m.Present page then protectPages flags n (m.reflag page flags) (page + 1) else (m, false)

def protect (virtualAddr size flags : ℕ) : PageMap × Bool :=
  if virtualAddr = 0 ∨ size = 0 ∨ 2 ^ 32 ≤ virtualAddr + size then (m, false)
  else
    protectPages flags ((virtualAddr + size - 1) / pageSize - virtualAddr / pageSize) m
      (virtualAddr / pageSize)

/-- Every page of the range is present and open to user code; an empty range counts as one byte. -/
def UserRange (addr len : ℕ) : Prop :=
  addr ≠ 0 ∧ addr + max len 1 ≤ 2 ^ 32 - 1 ∧
    ∀ a, addr ≤ a → a < addr + max len 1 → m.Present (a / pageSize) ∧ m.User (a / pageSize)

end PageMap

/-- The entries of the tables are those of the map, and none points behind 4 GiB. -/
structure Refines (s : Paging) (m : PageMap) : Prop where
  inv : Inv s
  entry : ∀ page < 2 ^ 20, s.entry page = m page
  below : ∀ page < 2 ^ 20, m page < 2 ^ 32

variable {s s' : Paging} {page t flags va : ℕ} {m : PageMap}

theorem entry_of_walk (hw : s.walk (path s.paeActive page) = some t) :
    s.entry page = s.tables t (index s.paeActive page) := by
  change (s.walk _).elim _ _ = _
  rw [hw]
  rfl

theorem entry_of_walk_none (hw : s.walk (path s.paeActive page) = none) : s.entry page = 0 := by
  change (s.walk _).elim _ _ = _
  rw [hw]
  rfl

theorem Refines.keeps (h : Refines s m) (hkeep : Keeps s s') : Refines s' m :=
  ⟨hkeep.inv, fun page hpage => (hkeep.entry page).trans (h.entry page hpage), h.below⟩

theorem Refines.setEntry (h : Refines s m) (hpage : page < 2 ^ 20)
    (hw : s.walk (path s.paeActive page) = some t) {addr : ℕ} (hlt : addr + flags < 2 ^ 32) :
    Refines (s.setEntry t (index s.paeActive page) (addr + flags)) (m.map page addr flags) := by
  obtain ⟨hinv, hentry⟩ := setEntry_spec h.inv hpage hw (addr + flags)
  refine ⟨hinv, fun q hq => ?_, fun q hq => ?_⟩
  · rw [hentry q hq, PageMap.map]
    split_ifs with hqp
    · rfl
    · exact h.entry q hq
  · rw [PageMap.map]
    split_ifs with hqp
    · exact hlt
    · exact h.below q hq

def leafEntry (pae : Bool) (physicalAddr flags : ℕ) : ℕ :=
  if pae then paeMakeEntry physicalAddr (flags &&& 0xFFF) else physicalAddr ||| flags

theorem mapPageExt_some (hget : s.getTable va true = (s', some t)) (pa flags : ℕ) :
    mapPageExt s va pa flags =
      s'.setEntry t (index s.paeActive (va / pageSize)) (leafEntry s.paeActive pa flags) := by
  unfold Paging.getTable at hget
  unfold mapPageExt
  cases hpae : s.paeActive
  · rw [hpae, if_neg Bool.false_ne_true] at hget
    rw [if_neg Bool.false_ne_true, mapPageLegacy, hget, index_legacy]
    rfl
  · rw [hpae, if_pos rfl] at hget
    rw [if_pos rfl, mapPagePae, hget, index_pae]
    rfl

theorem mapPageExt_none (hget : s.getTable va true = (s', none)) (pa flags : ℕ) :
    mapPageExt s va pa flags = s' := by
  unfold Paging.getTable at hget
  unfold mapPageExt
  cases hpae : s.paeActive
  · rw [hpae, if_neg Bool.false_ne_true] at hget
    rw [if_neg Bool.false_ne_true, mapPageLegacy, hget]
  · rw [hpae, if_pos rfl] at hget
    rw [if_pos rfl, mapPagePae, hget]

theorem and_flagMask (flags : ℕ) : flags &&& 0xFFF = flags % pageSize := by
  rw [show 0xFFF = 2 ^ 12 - 1 from rfl, and_two_pow_sub_one_eq_mod]
  rfl

theorem leafEntry_eq (pae : Bool) {pa : ℕ} (hpa : pa < 2 ^ 32) (halign : pa % pageSize = 0)
    (hflags : flags < pageSize) : leafEntry pae pa flags = pa + flags := by
  cases pae
  · exact or_flags halign hflags
  · change paeMakeEntry pa (flags &&& 0xFFF) = _
    rw [and_flagMask, mod_eq_of_lt hflags,
      paeMakeEntry_eq (hpa.trans (by norm_num)) halign hflags]

theorem refines_mapPageExt (h : Refines s m) {pa : ℕ} (hva : va < 2 ^ 32) (hpa : pa < 2 ^ 32)
    (halign : pa % pageSize = 0) (hflags : flags < pageSize) (hok : (s.getTable va true).2 ≠ none) :
    Refines (mapPageExt s va pa flags) (m.map (va / pageSize) pa flags) ∧
      (mapPageExt s va pa flags).paeActive = s.paeActive := by
  obtain ⟨hkeep, htable⟩ := getTable_spec h.inv va true
  cases hget : s.getTable va true with
  | mk s' found =>
    rw [hget] at hkeep htable hok
    cases found with
    | none => exact absurd rfl hok
    | some t =>
      have hpage : va / pageSize < 2 ^ 20 := by
        unfold pageSize
        omega
      have hlt : pa + flags < 2 ^ 32 := by
        unfold pageSize at *
        omega
      have hpae : s'.paeActive = s.paeActive := hkeep.pae
      have hset := (h.keeps hkeep).setEntry hpage (hpae.symm ▸ htable t rfl) hlt
      rw [mapPageExt_some hget, leafEntry_eq _ hpa halign hflags, ← hpae]
      exact ⟨hset, rfl⟩

theorem legacyTable_false (hpae : s.paeActive = false) (va : ℕ) :
    (s.legacyTable va false).2 = s.walk (path s.paeActive (va / pageSize)) := by
  have hget := getTable_false s va
  rw [Paging.getTable, hpae, if_neg Bool.false_ne_true] at hget
  rw [hget, hpae]

theorem paeGetTable_false (hpae : s.paeActive = true) (va : ℕ) :
    (s.paeGetTable va false).2 = s.walk (path s.paeActive (va / pageSize)) := by
  have hget := getTable_false s va
  rw [Paging.getTable, hpae, if_pos rfl] at hget
  rw [hget, hpae]

theorem protectPage_eq (hlt : s.entry (va / pageSize) < 2 ^ 32) (flags : ℕ) :
    protectPage s va flags =
      (s.walk (path s.paeActive (va / pageSize))).bind fun t =>
        if s.entry (va / pageSize) % 2 = 0 then none
        else some (s.setEntry t (index s.paeActive (va / pageSize))
          (s.entry (va / pageSize) / pageSize * pageSize + flags % pageSize)) := by
  have hflags : flags % pageSize < pageSize := mod_lt _ (by decide)
  have halign : s.entry (va / pageSize) / pageSize * pageSize % pageSize = 0 := mul_mod_left _ _
  unfold protectPage
  cases hpae : s.paeActive
  · rw [if_neg Bool.false_ne_true, protectPageLegacy, legacyTable_false hpae, hpae]
    cases hw : s.walk (path false (va / pageSize)) with
    | none => rfl
    | some t =>
      have hentry : s.entry (va / pageSize) = _ := entry_of_walk (hpae.symm ▸ hw)
      rw [hpae, index_legacy] at hentry
      have hmask : s.entry (va / pageSize) &&& 0xFFFFF000 =
          s.entry (va / pageSize) / pageSize * pageSize := and_high_mask (k := 12) hlt (by norm_num)
      rw [bind_some, index_legacy]
      dsimp only
      rw [← hentry, and_one_is_mod, hmask, and_flagMask, or_flags halign hflags]
  · rw [if_pos rfl, protectPagePae, paeGetTable_false hpae, hpae]
    cases hw : s.walk (path true (va / pageSize)) with
    | none => rfl
    | some t =>
      have hentry : s.entry (va / pageSize) = _ := entry_of_walk (hpae.symm ▸ hw)
      rw [hpae, index_pae] at hentry
      have hmask : paeEntryAddr (s.entry (va / pageSize)) =
          s.entry (va / pageSize) / pageSize * pageSize := and_addrMask (hlt.trans (by norm_num))
      have hle : s.entry (va / pageSize) / pageSize * pageSize < 2 ^ 52 :=
        (div_mul_le_self _ _).trans_lt (hlt.trans (by norm_num))
      rw [bind_some, index_pae]
      dsimp only
      rw [← hentry, paePresent, and_one_is_mod, hmask, and_flagMask,
        paeMakeEntry_eq hle halign hflags]

theorem protectPage_spec (h : Refines s m) (hpage : page < 2 ^ 20) (flags : ℕ) :
    (m.Present page ∧ ∃ s', protectPage s (page * pageSize) flags = some s' ∧
        Refines s' (m.reflag page flags) ∧ s'.paeActive = s.paeActive) ∨
      (¬ m.Present page ∧ protectPage s (page * pageSize) flags = none) := by
  have hdiv : page * pageSize / pageSize = page := Nat.mul_div_cancel _ (by decide)
  have hentry := h.entry _ hpage
  have hbelow := h.below _ hpage
  rw [protectPage_eq (by rwa [hdiv, hentry]), hdiv, hentry]
  cases hw : s.walk (path s.paeActive page) with
  | none =>
    rw [entry_of_walk_none hw] at hentry
    refine .inr ⟨?_, rfl⟩
    rw [PageMap.Present, ← hentry]
    decide
  | some t =>
    by_cases hzero : m page % 2 = 0
    · refine .inr ⟨?_, if_pos hzero⟩
      rw [PageMap.Present, hzero]
      decide
    · refine .inl ⟨by unfold PageMap.Present; omega, _, if_neg hzero, ?_, rfl⟩
      apply h.setEntry hpage hw
      unfold pageSize at *
      omega

theorem refines_protectLoop {endPage : ℕ} (n : ℕ) (h : Refines s m)
    (hend : endPage = (page + n) * pageSize) (hlt : page + n < 2 ^ 20) :
    Refines (protectLoop flags endPage n s (page * pageSize)).1
        (m.protectPages flags n page).1 ∧
      (protectLoop flags endPage n s (page * pageSize)).2 = (m.protectPages flags n page).2 ∧
      (protectLoop flags endPage n s (page * pageSize)).1.paeActive = s.paeActive := by
  induction n generalizing s m page with
  | zero =>
    rw [add_zero] at hend hlt
    rcases protectPage_spec h hlt flags with ⟨hpresent, s', heq, href, hpae⟩ | ⟨habsent, heq⟩
    · rw [protectLoop, heq, PageMap.protectPages, if_pos hpresent]
      simp only [hend, if_true]
      exact ⟨href, trivial, hpae⟩
    · rw [protectLoop, heq, PageMap.protectPages, if_neg habsent]
      exact ⟨h, rfl, rfl⟩
  | succ n ih =>
    have hpage : page < 2 ^ 20 := by omega
    rcases protectPage_spec h hpage flags with ⟨hpresent, s', heq, href, hpae⟩ | ⟨habsent, heq⟩
    · have hne : page * pageSize ≠ endPage := by
        rw [hend]
        unfold pageSize
        omega
      have hnext : page * pageSize + 0x1000 = (page + 1) * pageSize := by
        unfold pageSize
        omega
      have hend' : endPage = (page + 1 + n) * pageSize := by
        rw [hend]
        congr 1
        omega
      obtain ⟨hmap, hres, hpae'⟩ := ih href hend' (by omega)
      rw [protectLoop, heq, PageMap.protectPages, if_pos hpresent]
      simp only [if_neg hne, hnext]
      exact ⟨hmap, hres, hpae'.trans hpae⟩
    · rw [protectLoop, heq, PageMap.protectPages, if_neg habsent]
      exact ⟨h, rfl, rfl⟩

theorem alignDownPage_eq {a : ℕ} (ha : a < 2 ^ 32) : alignDownPage a = a / pageSize * pageSize :=
  and_high_mask (k := 12) ha (by norm_num)

theorem refines_protectRange (h : Refines s m) {size : ℕ} (hva : va < 2 ^ 32)
    (hsize : size < 2 ^ 32) (flags : ℕ) :
    Refines (protectRange s va size flags).1 (m.protect va size flags).1 ∧
      (protectRange s va size flags).2 = (m.protect va size flags).2 ∧
      (protectRange s va size flags).1.paeActive = s.paeActive := by
  unfold protectRange PageMap.protect
  by_cases hzero : va = 0 ∨ size = 0
  · rw [if_pos hzero, if_pos (hzero.imp_right .inl)]
    exact ⟨h, rfl, rfl⟩
  · rw [if_neg hzero]
    by_cases hwrap : 2 ^ 32 ≤ va + size
    · have hlt : u32 (va + size) < va := by
        unfold u32
        omega
      rw [if_pos hlt, if_pos (.inr (.inr hwrap))]
      exact ⟨h, rfl, rfl⟩
    · have hfit : ¬ u32 (va + size) < va := by
        rw [u32_of_lt (by omega)]
        omega
      rw [if_neg hfit, if_neg (by tauto)]
      dsimp only
      rw [alignDownPage_eq hva, alignDownPage_eq (by omega : va + size - 1 < 2 ^ 32)]
      have hcount : ((va + size - 1) / pageSize * pageSize - va / pageSize * pageSize) / 0x1000 =
          (va + size - 1) / pageSize - va / pageSize := by
        unfold pageSize
        omega
      rw [hcount]
      apply refines_protectLoop _ h
      · congr 1
        have hle := Nat.div_le_div_right (c := pageSize) (by omega : va ≤ va + size - 1)
        omega
      · unfold pageSize
        omega

end MicroK.Vmm
