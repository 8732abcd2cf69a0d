import Mathlib.Data.List.DropRight
import MicroK.Fat32Runs

/-!
# Which entry a lookup returns

An entry has the name that the long-name entries in front of it spell, if they are valid, and its
short name written with a dot. A lookup also compares short names after a conversion of the wanted
name that drops blanks and all dots but the first, so it can return an entry with another name. It
never does for names that come back from the conversion unchanged but for the case of letters.
-/

namespace MicroK.Fat32

open List

def formatEntryName (e : Buf) : List UInt8 :=
  let name := ((List.range 8).map e).rdropWhile (· == 0x20)
  let ext := if e 8 ≠ 0x20 then 0x2E :: ([8, 9, 10].map e).rdropWhile (· == 0x20) else []
  (name ++ ext).takeWhile (· != 0)

/-- The state of the long name in front of a slot. -/
def lfnBefore (entry : ℕ → Buf) : ℕ → LfnState
  | 0 => .reset
  | i + 1 => if entryIsLfn (entry i) then lfnFeed (lfnBefore entry i) (entry i) else .reset

/-- The entry in a slot carries a name, as a valid long name or as its short name. -/
def NameIs (entry : ℕ → Buf) (i : ℕ) (name : List UInt8) : Prop :=
  (lfnValidate (lfnBefore entry i) (entry i) = true ∧
    strEqualCi (lfnToUtf8 (lfnBefore entry i).units 768) name = true) ∨
  strEqualCi (formatEntryName (entry i)) name = true

/-- Every entry in use with the converted name carries the name itself. -/
def Faithful (name : List UInt8) : Prop :=
  ∀ short, make83Name name = some short → short 0 ≠ 0x00 → short 0 ≠ 0xE5 →
    strEqualCi (formatEntryName short) name = true

/-- The entry sits in a slot of the directory at `c` and carries the name. -/
structure Holds (m : Mount) (disk : Buf) (c : ℕ) (name : List UInt8) (f : Found) : Prop where
  reached : ∃ k, f.cluster = nthCluster m disk c k
  lt : f.index < m.slots
  entry_eq : f.entry = slotAt m disk f.cluster f.index
  name_is : NameIs (slotAt m disk f.cluster) f.index name

theorem formatEntryName_congr {e e' : Buf} (h : ∀ j < 11, e j = e' j) :
    formatEntryName e = formatEntryName e' := by
  have hname : (List.range 8).map e = (List.range 8).map e' :=
    map_congr_left (fun j hj => h j (by have := mem_range.1 hj; omega))
  have hext : [8, 9, 10].map e = [8, 9, 10].map e' :=
    map_congr_left (fun j hj => h j (by
      simp only [mem_cons, not_mem_nil, or_false] at hj
      omega))
  simp only [formatEntryName, hname, hext, h 8 (by norm_num)]

theorem sameName_iff {e target : Buf} : sameName e target = true ↔ ∀ j < 11, e j = target j := by
  simp only [sameName, all_eq_true, mem_range, beq_iff_eq]

theorem lfnBefore_succ (entry : ℕ → Buf) (i : ℕ) : lfnBefore entry (i + 1) =
    if entryIsLfn (entry i) then lfnFeed (lfnBefore entry i) (entry i) else .reset := rfl

theorem scanEntries_matches {entry : ℕ → Buf} {name : List UInt8} {target : Option Buf}
    {left i k : ℕ} (h : scanEntries entry name target left i (lfnBefore entry i) = .found k) :
    entryMatches name target (lfnBefore entry k) (entry k) = true := by
  induction left generalizing i with
  | zero => cases h
  | succ left ih =>
    rw [scanEntries_succ, ← lfnBefore_succ] at h
    split_ifs at h with h0 hhit
    · cases h
      exact (Bool.and_eq_true_iff.1 hhit).2
    · exact ih h

theorem Faithful.nameIs {entry : ℕ → Buf} {i : ℕ} {name : List UInt8} (hname : Faithful name)
    (hmatch : entryMatches name (make83Name name) (lfnBefore entry i) (entry i) = true)
    (husable : entryIsUsable (entry i) = true) : NameIs entry i name := by
  rcases Bool.or_eq_true_iff.1 hmatch with hlong | hshort
  · exact .inl (Bool.and_eq_true_iff.1 hlong)
  · cases hcase : make83Name name with
    | none =>
      rw [hcase] at hshort
      cases hshort
    | some short =>
      rw [hcase] at hshort
      have hsame := sameName_iff.1 hshort
      unfold entryIsUsable at husable
      split_ifs at husable with h0 he5 hlfn hattr
      refine .inr ?_
      rw [formatEntryName_congr hsame]
      refine hname short hcase ?_ ?_
      · rw [← hsame 0 (by norm_num)]
        exact h0
      · rw [← hsame 0 (by norm_num)]
        exact he5

section

variable {writable : Bool} {env : Env Buf} {m : Mount} {name : List UInt8}

structure Matched (m : Mount) (disk : Buf) (c : ℕ) (name : List UInt8) (f : Found) : Prop where
  reached : ∃ k, f.cluster = nthCluster m disk c k
  lt : f.index < m.slots
  entry_eq : f.entry = slotAt m disk f.cluster f.index
  usable : entryIsUsable f.entry = true
  hit : entryMatches name (make83Name name) (lfnBefore (slotAt m disk f.cluster) f.index)
    f.entry = true

theorem Matched.holds {disk : Buf} {c : ℕ} {f : Found} (h : Matched m disk c name f)
    (hname : Faithful name) : Holds m disk c name f where
  reached := h.reached
  lt := h.lt
  entry_eq := h.entry_eq
  name_is := by
    have hhit := h.hit
    have husable := h.usable
    rw [h.entry_eq] at hhit husable
    exact hname.nameIs hhit husable

theorem searchFrom_matched {disk : Buf} {left c : ℕ} {f : Found}
    (h : searchFrom m disk name (make83Name name) left c = some f) : Matched m disk c name f := by
  induction left generalizing c with
  | zero => cases h
  | succ left ih =>
    rw [searchFrom] at h
    split_ifs at h with hvalid
    cases hcase : scanEntries (slotAt m disk c) name (make83Name name) m.slots 0 .reset with
    | endOfDir =>
      rw [hcase] at h
      cases h
    | found i =>
      obtain ⟨-, hlt, husable⟩ := scanEntries_found hcase
      rw [hcase] at h
      cases h
      exact ⟨⟨0, rfl⟩, by simpa using hlt, rfl, husable, scanEntries_matches hcase⟩
    | exhausted =>
      rw [hcase] at h
      obtain ⟨⟨k, hk⟩, hlt, hentry, husable, hhit⟩ := ih h
      exact ⟨⟨k + 1, by rw [hk, nthCluster_succ']⟩, hlt, hentry, husable, hhit⟩

theorem findEntryInDir_matched (c : ℕ) :
    Io.Reads (findEntryInDir (diskFs writable env m) c name)
      fun disk r => ∀ f, r = some f → Matched m disk c name f := by
  intro w
  rw [findEntryInDir_eq]
  refine ⟨rfl, fun f hf => ?_⟩
  split_ifs at hf
  exact searchFrom_matched hf

/-- The components that a path resolution looks up. -/
def pathComponents : ℕ → List UInt8 → List (List UInt8)
  | 0, _ => []
  | fuel + 1, path =>
    match nextPathComponent path 64 with
    | .next component rest => component :: pathComponents fuel rest
    | _ => []

/-- A path leads to an entry through entries that carry the names of its components. -/
inductive LeadsTo (m : Mount) (disk : Buf) : ℕ → List UInt8 → Found → Prop
  | last {c : ℕ} {path name rest : List UInt8} {f : Found}
      (hpath : nextPathComponent path 64 = .next name rest)
      (hrest : nextPathComponent rest 64 = .done) (hf : Holds m disk c name f) :
      LeadsTo m disk c path f
  | through {c : ℕ} {path name rest : List UInt8} {d f : Found}
      (hpath : nextPathComponent path 64 = .next name rest) (hd : Holds m disk c name d)
      (hdir : entryIsDir d.entry = true)
      (hf : LeadsTo m disk (entryCluster d.entry) rest f) : LeadsTo m disk c path f

theorem resolveLoop_leadsTo (fuel c : ℕ) {path : List UInt8}
    (hnames : ∀ name ∈ pathComponents fuel path, Faithful name) :
    Io.Reads (resolveLoop (diskFs writable env m) fuel path c)
      fun disk r => ∀ f, r = some f → LeadsTo m disk c path f := by
  induction fuel generalizing path c with
  | zero => exact Io.Reads.pure (fun _ => nofun)
  | succ fuel ih =>
    rw [pathComponents] at hnames
    rw [resolveLoop]
    cases hpath : nextPathComponent path 64 with
    | tooLong => exact Io.Reads.pure (fun _ => nofun)
    | done => exact Io.Reads.pure (fun _ => nofun)
    | next name rest =>
      rw [hpath] at hnames
      have hname : Faithful name := hnames name mem_cons_self
      refine Io.Reads.bind_of (findEntryInDir_matched c) (fun found => ?_)
      cases found with
      | none => exact Io.Reads.pure (fun _ _ => nofun)
      | some d =>
        have hholds : ∀ {disk : Buf}, (∀ f, some d = some f → Matched m disk c name f) →
            Holds m disk c name d := fun h => (h d rfl).holds hname
        cases hrest : nextPathComponent rest 64 with
        | tooLong => exact Io.Reads.pure (fun _ _ => nofun)
        | done =>
          refine Io.Reads.pure (fun disk hd f hf => ?_)
          cases hf
          exact .last hpath hrest (hholds hd)
        | next component tail =>
          simp only
          split_ifs with hdir
          · intro w
            obtain ⟨hdev, hleads⟩ := ih (entryCluster d.entry)
              (fun n hn => hnames n (.tail _ hn)) w
            exact ⟨hdev, fun hd f hf => .through hpath (hholds hd) hdir (hleads f hf)⟩
          · exact Io.Reads.pure (fun _ _ => nofun)

theorem resolvePath_leadsTo {path : List UInt8}
    (hnames : ∀ name ∈ pathComponents (path.length + 1) path, Faithful name) :
    Io.Reads (resolvePath (diskFs writable env m) path)
      fun disk r => ∀ f, r = some f → LeadsTo m disk m.rootCluster path f := by
  rw [resolvePath]
  split_ifs with hempty
  · exact Io.Reads.pure (fun _ => nofun)
  · exact resolveLoop_leadsTo _ _ hnames

end

def oneFile (short : Buf) : Buf :=
  Buf.copyAt (fun _ => 0) (33 * 512) 32 (newEntry short 0x20 3)

theorem slotAt_oneFile (short : Buf) {j : ℕ} (hj : j < 32) :
    slotAt smallMount (oneFile short) 2 0 j = newEntry short 0x20 3 j := by
  have hoffset : smallMount.clusterOffset 2 = 33 * 512 := by decide
  unfold slotAt entryOf oneFile
  rw [if_pos hj, hoffset]
  change Buf.copyAt _ (33 * 512) 32 _ (u32 (33 * 512 + (32 * 0 + j))) = _
  rw [u32_of_lt (by omega), Buf.copyAt_of_mem (by omega) (by omega)]
  exact congrArg _ (by omega)

theorem findEntryInDir_oneFile {name : List UInt8} {short : Buf}
    (hshort : make83Name name = some short) (hzero : short 0 ≠ 0x00) (hdeleted : short 0 ≠ 0xE5) :
    (findEntryInDir (diskFs false plainEnv smallMount) 2 name (bootWorld (oneFile short))).1 =
      some ⟨slotAt smallMount (oneFile short) 2 0, 2, 0⟩ := by
  have hhead : slotAt smallMount (oneFile short) 2 0 0 = short 0 :=
    slotAt_oneFile short (by norm_num)
  have hattr : entryAttr (slotAt smallMount (oneFile short) 2 0) = 0x20 := by
    rfl
  have husable : entryIsUsable (slotAt smallMount (oneFile short) 2 0) = true := by
    rw [entryIsUsable, hhead, if_neg hzero, if_neg hdeleted, entryIsLfn, hattr]
    rfl
  have hsame : sameName (slotAt smallMount (oneFile short) 2 0) short = true := by
    refine sameName_iff.2 (fun j hj => ?_)
    rw [slotAt_oneFile short (by omega)]
    exact if_pos hj
  have hscan : scanEntries (slotAt smallMount (oneFile short) 2) name
    (some short) smallMount.slots 0
      .reset = .found 0 := by
    rw [show smallMount.slots = 15 + 1 from rfl, scanEntries_succ, hhead, if_neg hzero, husable,
      entryMatches, hsame, Bool.or_true]
    rfl
  rw [findEntryInDir_eq, bootWorld_dev, searchFrom, hshort, hscan]
  rfl

/-- A lookup of the name returns entries of that name only, whatever the directory holds. -/
def ReturnsNamed (name : List UInt8) : Prop :=
  ∀ (writable : Bool) (env : Env Buf) (m : Mount) (c : ℕ) (w : World Buf) (f : Found),
    (findEntryInDir (diskFs writable env m) c name w).1 = some f → Holds m w.dev c name f

theorem Faithful.of_returnsNamed {name : List UInt8} (h : ReturnsNamed name) : Faithful name := by
  intro short hshort hzero hdeleted
  have hname := (h false plainEnv smallMount 2 _ _
    (findEntryInDir_oneFile hshort hzero hdeleted)).name_is
  have hformat : strEqualCi (formatEntryName (slotAt smallMount (oneFile short) 2 0)) name = true :=
    hname.resolve_left (fun hlong => absurd hlong.1 Bool.false_ne_true)
  have hbytes : ∀ j < 11, slotAt smallMount (oneFile short) 2 0 j = short j := by
    intro j hj
    rw [slotAt_oneFile short (by omega)]
    exact if_pos hj
  rwa [formatEntryName_congr hbytes] at hformat

/-- A lookup returns only entries of the wanted name exactly for the names that survive the
conversion, and a path of such names leads through entries of these names only. -/
theorem lookup_named_iff (name : List UInt8) :
    (ReturnsNamed name ↔ Faithful name) ∧
    ∀ (writable : Bool) (env : Env Buf) (m : Mount) (w : World Buf) (path : List UInt8) (f : Found),
      (∀ name ∈ pathComponents (path.length + 1) path, Faithful name) →
      (resolvePath (diskFs writable env m) path w).1 = some f →
      LeadsTo m w.dev m.rootCluster path f := by
  refine ⟨⟨Faithful.of_returnsNamed, fun hname => ?_⟩, ?_⟩
  · intro writable env m c w f hf
    exact ((findEntryInDir_matched c w).2 f hf).holds hname
  · intro writable env m w path f hnames hf
    exact (resolvePath_leadsTo hnames w).2 f hf

def shortAB : Buf := fun j => if j = 0 then 0x41 else if j = 1 then 0x42 else 0x20

/-- The file `AB` is returned, and deleted, under the name `A B`, which it does not have. -/
theorem other_name_deleted :
    (findEntryInDir (diskFs true plainEnv smallMount) 2 [0x41, 0x20, 0x42]
      (bootWorld (oneFile shortAB))).1.isSome = true ∧
    ¬ NameIs (slotAt smallMount (oneFile shortAB) 2) 0 [0x41, 0x20, 0x42] ∧
    (deleteFile (diskFs true plainEnv smallMount) [0x41, 0x20, 0x42]
      (bootWorld (oneFile shortAB))).1 = true ∧
    slotAt smallMount (deleteFile (diskFs true plainEnv smallMount) [0x41, 0x20, 0x42]
      (bootWorld (oneFile shortAB))).2.dev 2 0 0 = 0xE5 := by
  unfold NameIs
  decide +kernel

end MicroK.Fat32
