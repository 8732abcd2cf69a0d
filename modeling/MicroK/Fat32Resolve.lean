import MicroK.Fat32Lookup

/-!
# Path resolution in a consistent volume

The resolution of paths as functions of the view, and the proof that the driver computes them on
a disk whose volume is consistent. What a path resolves to is a live entry, and what resolves as
a directory is one of the directories of the volume.
-/

namespace MicroK.Fat32

/-- A change of a volume at the slot `i₀` of cluster `k₀`. A new directory starts out with no
entries besides `.` and `..`. -/
structure Update (m : Mount) (v v' : View) (k₀ i₀ : ℕ) : Prop where
  slot_eq : ∀ {k i}, DirCluster m v k → i < m.slots → (k, i) ≠ (k₀, i₀) → v'.slot k i = v.slot k i
  not_lfn : entryIsLfn (v'.slot k₀ i₀) = false
  root_next : ∀ {l c}, Chain m v m.rootCluster l → c ∈ l → v'.next c = v.next c
  other_next : ∀ {k i l c}, Live m v k i → (k, i) ≠ (k₀, i₀) →
    Chain m v (entryCluster (v.slot k i)) l → c ∈ l → v'.next c = v.next c
  new_chain : entryIsUsable (v'.slot k₀ i₀) = true →
    ∃ l, Chain m v' (entryCluster (v'.slot k₀ i₀)) l ∧
      (∀ {r}, Chain m v m.rootCluster r → ∀ c ∈ l, c ∉ r) ∧
      (∀ {k i r}, Live m v k i → (k, i) ≠ (k₀, i₀) →
        Chain m v (entryCluster (v.slot k i)) r → ∀ c ∈ l, c ∉ r) ∧
      (entryIsDir (v'.slot k₀ i₀) = true → ∀ k ∈ l, ∀ i < m.slots,
        entryIsUsable (v'.slot k i) = true → isDot v' k i = true)

variable {m : Mount} {v v' : View} {k₀ i₀ : ℕ}

theorem entryIsUsable_of_isDir {e : Buf} (h : entryIsDir e = true) : entryIsUsable e = true :=
  (Bool.and_eq_true_iff.1 h).1

theorem Update.isDot (hu : Update m v v' k₀ i₀) {k i : ℕ} (hk : DirCluster m v k)
    (hslots : 0 < m.slots) (hi : i < m.slots) (hne : (k, i) ≠ (k₀, i₀))
      (hdot : isDot v k i = true) :
    isDot v' k i = true := by
  simp only [Fat32.isDot, Bool.or_eq_true, Bool.and_eq_true, beq_iff_eq, Bool.not_eq_true']
    at hdot ⊢
  rcases hdot with ⟨rfl, hname⟩ | ⟨⟨rfl, hname⟩, hlfn⟩
  · rw [hu.slot_eq hk hi hne]
    exact .inl ⟨rfl, hname⟩
  · refine .inr ⟨⟨rfl, by rwa [hu.slot_eq hk hi hne]⟩, ?_⟩
    by_cases h0 : (k, 0) = (k₀, i₀)
    · cases h0
      exact hu.not_lfn
    · rwa [hu.slot_eq hk hslots h0]

variable (hmax : m.maxClusters < 2 ^ 25) (hslots : 0 < m.slots)
include hmax hslots

theorem Update.isDir_cases (hu : Update m v v' k₀ i₀) (hc : Consistent m v) {h : ℕ}
    (hdir : IsDir m v' h) :
    (IsDir m v h ∧ ∃ l, Chain m v h l ∧ Chain m v' h l) ∨
      (entryIsDir (v'.slot k₀ i₀) = true ∧ h = entryCluster (v'.slot k₀ i₀)) := by
  induction hdir with
  | root =>
    obtain ⟨l, hl⟩ := hc.root_chain
    exact .inl ⟨.root, l, hl, hl.congr (fun c hc => hu.root_next hl hc)⟩
  | @sub h k i l' _ hl' hk hi he hdot ih =>
    rcases ih with ⟨hdir, l, hl, hlv'⟩ | ⟨hnew, hhead⟩
    · rw [hl'.unique hmax hlv'] at hk
      have hkdir : DirCluster m v k := ⟨h, l, hdir, hl, hk⟩
      by_cases hloc : (k, i) = (k₀, i₀)
      · cases hloc
        exact .inr ⟨he, rfl⟩
      · have hslot := hu.slot_eq hkdir hi hloc
        have hdot' : Fat32.isDot v k i = false := by
          by_contra hd
          rw [hu.isDot hkdir hslots hi hloc (by simpa using hd)] at hdot
          cases hdot
        rw [hslot] at he ⊢
        have hlive : Live m v k i := ⟨hkdir, hi, entryIsUsable_of_isDir he, hdot'⟩
        obtain ⟨r, hr⟩ := hc.entry_chain hlive
        exact .inl ⟨.sub hdir hl hk hi he hdot', r, hr,
          hr.congr (fun c hc => hu.other_next hlive hloc hr hc)⟩
    · obtain ⟨l, hl, -, -, hempty⟩ := hu.new_chain (entryIsUsable_of_isDir hnew)
      rw [hhead] at hl'
      rw [hl'.unique hmax hl] at hk
      rw [hempty hnew k hk i hi (entryIsUsable_of_isDir he)] at hdot
      cases hdot

theorem Update.live_cases (hu : Update m v v' k₀ i₀) (hc : Consistent m v) {k i : ℕ}
    (hlive : Live m v' k i) :
    (Live m v k i ∧ (k, i) ≠ (k₀, i₀) ∧ v'.slot k i = v.slot k i) ∨
      ((k, i) = (k₀, i₀) ∧ entryIsUsable (v'.slot k₀ i₀) = true) := by
  obtain ⟨⟨h, l', hdir, hl', hk⟩, hi, husable, hdot⟩ := hlive
  rcases hu.isDir_cases hmax hslots hc hdir with ⟨hdir, l, hl, hlv'⟩ | ⟨hnew, hhead⟩
  · rw [hl'.unique hmax hlv'] at hk
    have hkdir : DirCluster m v k := ⟨h, l, hdir, hl, hk⟩
    by_cases hloc : (k, i) = (k₀, i₀)
    · cases hloc
      exact .inr ⟨rfl, husable⟩
    · have hslot := hu.slot_eq hkdir hi hloc
      refine .inl ⟨⟨hkdir, hi, hslot ▸ husable, ?_⟩, hloc, hslot⟩
      by_contra hd
      rw [hu.isDot hkdir hslots hi hloc (by simpa using hd)] at hdot
      cases hdot
  · obtain ⟨l, hl, -, -, hempty⟩ := hu.new_chain (entryIsUsable_of_isDir hnew)
    rw [hhead] at hl'
    rw [hl'.unique hmax hl] at hk
    rw [hempty hnew k hk i hi husable] at hdot
    cases hdot

theorem Consistent.update (hc : Consistent m v) (hu : Update m v v' k₀ i₀) : Consistent m v' := by
  obtain ⟨root, hroot⟩ := hc.root_chain
  have hroot' : Chain m v' m.rootCluster root := hroot.congr (fun c hc => hu.root_next hroot hc)
  have hold : ∀ {k i l}, Live m v k i → (k, i) ≠ (k₀, i₀) → v'.slot k i = v.slot k i →
      Chain m v' (entryCluster (v'.slot k i)) l → Chain m v (entryCluster (v.slot k i)) l := by
    intro k i l hlive hloc hslot hl
    obtain ⟨r, hr⟩ := hc.entry_chain hlive
    have hr' := hr.congr (fun c hc => hu.other_next hlive hloc hr hc)
    rw [hslot] at hl
    rwa [hl.unique hmax hr']
  refine ⟨⟨root, hroot'⟩, ?_, ?_, ?_⟩
  · intro k i hlive
    rcases hu.live_cases hmax hslots hc hlive with ⟨hlive, hloc, hslot⟩ | ⟨hloc, husable⟩
    · obtain ⟨r, hr⟩ := hc.entry_chain hlive
      rw [hslot]
      exact ⟨r, hr.congr (fun c hc => hu.other_next hlive hloc hr hc)⟩
    · cases hloc
      obtain ⟨l, hl, -⟩ := hu.new_chain husable
      exact ⟨l, hl⟩
  · intro k i l r hlive hl hr
    rw [hr.unique hmax hroot']
    rcases hu.live_cases hmax hslots hc hlive with ⟨hlive, hloc, hslot⟩ | ⟨hloc, husable⟩
    · exact hc.root_disjoint hlive (hold hlive hloc hslot hl) hroot
    · cases hloc
      obtain ⟨l₀, hl₀, hdisj, -⟩ := hu.new_chain husable
      rw [hl.unique hmax hl₀]
      exact hdisj hroot
  · intro k i k' i' l l' hlive hlive' hne hl hl'
    rcases hu.live_cases hmax hslots hc hlive with ⟨hlive, hloc, hslot⟩ | ⟨hloc, husable⟩
    · rcases hu.live_cases hmax hslots hc hlive' with ⟨hlive', hloc', hslot'⟩ | ⟨hloc', husable'⟩
      · exact hc.disjoint hlive hlive' hne (hold hlive hloc hslot hl) (hold hlive' hloc' hslot' hl')
      · obtain ⟨rfl, rfl⟩ := Prod.mk.inj hloc'
        obtain ⟨l₀, hl₀, -, hdisj, -⟩ := hu.new_chain husable'
        rw [hl'.unique hmax hl₀]
        intro c hc hc'
        exact hdisj hlive hloc (hold hlive hloc hslot hl) c hc' hc
    · cases hloc
      rcases hu.live_cases hmax hslots hc hlive' with ⟨hlive', hloc', hslot'⟩ | ⟨hloc', -⟩
      · obtain ⟨l₀, hl₀, -, hdisj, -⟩ := hu.new_chain husable
        rw [hl.unique hmax hl₀]
        exact hdisj hlive' hloc' (hold hlive' hloc' hslot' hl')
      · exact absurd hloc'.symm hne

end MicroK.Fat32

namespace MicroK.Fat32

open SuccessorChain

def walk (m : Mount) (v : View) : ℕ → ℕ → List ℕ
  | 0, _ => []
  | n + 1, c => if 2 ≤ c ∧ c < m.maxClusters then c :: walk m v n (v.next c) else []

variable (m : Mount)

def clustersOf (v : View) (h : ℕ) : List ℕ := walk m v (m.maxClusters + 1) h

def resolveIn (m : Mount) (v : View) : ℕ → List UInt8 → ℕ → Option Found
  | 0, _, _ => none
  | fuel + 1, path, c =>
    match nextPathComponent path 64 with
    | .tooLong => none
    | .done => none
    | .next component rest =>
      match findInClusters m v component (make83Name component) (clustersOf m v c) with
      | none => none
      | some f =>
        match nextPathComponent rest 64 with
        | .tooLong => none
        | .done => some f
        | .next _ _ =>
          if entryIsDir f.entry then resolveIn m v fuel rest (entryCluster f.entry) else none

def resolvePathIn (v : View) (path : List UInt8) : Option Found :=
  if path = [] then none else resolveIn m v (path.length + 1) path m.rootCluster

def resolveDirIn (v : View) (path : List UInt8) : Option ℕ :=
  if path = [] ∨ path = [0x2F] ∨ path = [0x5C] then some m.rootCluster
  else
    match resolvePathIn m v path with
    | none => none
    | some f => if entryIsDir f.entry then some (entryCluster f.entry) else none

def parentIn (v : View) (path : List UInt8) : Option ℕ :=
  match lastSlash path with
  | none => some m.rootCluster
  | some len =>
    if 128 ≤ len then none
    else if len = 0 then resolveDirIn m v [0x2F]
    else resolveDirIn m v (path.take len)

variable {m : Mount} {v : View}
variable {h : ℕ} {f : Found} {path : List UInt8}

theorem walk_eq_of_leads (hmax : m.maxClusters < 2 ^ 25) {l : List ℕ} {n : ℕ}
    (hl : Leads v.next (InRange m) EndOfChain h l) (hlen : l.length < n) : walk m v n h = l := by
  induction l generalizing h n with
  | nil =>
    cases n with
    | zero => cases hlen
    | succ n =>
      have hstop : 0x0FFFFFF8 ≤ h := hl
      rw [walk, if_neg (by omega)]
  | cons c cs ih =>
    cases n with
    | zero => cases hlen
    | succ n =>
      obtain ⟨rfl, hc, hcs⟩ := hl
      rw [walk, if_pos ⟨hc.1, hc.2⟩, ih hcs (Nat.lt_of_succ_lt_succ hlen)]

theorem Chain.clustersOf_eq (hg : Geometry m) {l : List ℕ} (hl : Chain m v h l) :
    clustersOf m v h = l := by
  have hlen := hl.length_le hg
  exact walk_eq_of_leads hg.max_lt hl.leads (by omega)

theorem Consistent.isDir_chain (hc : Consistent m v) (hdir : IsDir m v h) : ∃ l, Chain m v h l := by
  cases hdir with
  | root => exact hc.root_chain
  | sub hdir hl hk hi he hdot =>
    exact hc.entry_chain ⟨⟨_, _, hdir, hl, hk⟩, hi, entryIsUsable_of_isDir he, hdot⟩

theorem Consistent.live_of_find (hc : Consistent m v) (hg : Geometry m) {name : List UInt8}
    (hdir : IsDir m v h)
    (hf : findInClusters m v name (make83Name name) (clustersOf m v h) = some f) :
    Live m v f.cluster f.index ∧ f.entry = v.slot f.cluster f.index := by
  obtain ⟨l, hl⟩ := hc.isDir_chain hdir
  rw [hl.clustersOf_eq hg] at hf
  obtain ⟨hmem, hlt, he, hus, hdot⟩ := findInClusters_spec hg.slots_pos hf
  exact ⟨⟨⟨h, l, hdir, hl, hmem⟩, hlt, he ▸ hus, hdot⟩, he⟩

theorem Live.isDir_entry {k i : ℕ} (hlive : Live m v k i)
    (he : entryIsDir (v.slot k i) = true) : IsDir m v (entryCluster (v.slot k i)) := by
  obtain ⟨⟨h, l, hdir, hl, hk⟩, hi, -, hdot⟩ := hlive
  exact .sub hdir hl hk hi he hdot

theorem Consistent.live_of_resolveIn (hc : Consistent m v) (hg : Geometry m) {fuel : ℕ}
    (hdir : IsDir m v h) (hf : resolveIn m v fuel path h = some f) :
    Live m v f.cluster f.index ∧ f.entry = v.slot f.cluster f.index := by
  induction fuel generalizing path h with
  | zero => cases hf
  | succ fuel ih =>
    rw [resolveIn] at hf
    cases hcomp : nextPathComponent path 64 with
    | tooLong => simp [hcomp] at hf
    | done => simp [hcomp] at hf
    | next component rest =>
      simp only [hcomp] at hf
      cases hfind : findInClusters m v component (make83Name component) (clustersOf m v h) with
      | none => simp [hfind] at hf
      | some g =>
        obtain ⟨hlive, he⟩ := hc.live_of_find hg hdir hfind
        simp only [hfind] at hf
        cases hrest : nextPathComponent rest 64 with
        | tooLong => simp [hrest] at hf
        | done =>
          simp only [hrest, Option.some.injEq] at hf
          exact hf ▸ ⟨hlive, he⟩
        | next _ _ =>
          simp only [hrest] at hf
          split_ifs at hf with hd
          rw [he] at hd hf
          exact ih (hlive.isDir_entry hd) hf

theorem Consistent.live_of_resolvePathIn (hc : Consistent m v) (hg : Geometry m)
    (hf : resolvePathIn m v path = some f) :
    Live m v f.cluster f.index ∧ f.entry = v.slot f.cluster f.index := by
  unfold resolvePathIn at hf
  split_ifs at hf with hnil
  exact hc.live_of_resolveIn hg .root hf

theorem Consistent.isDir_of_resolveDirIn (hc : Consistent m v) (hg : Geometry m)
    (hh : resolveDirIn m v path = some h) : IsDir m v h := by
  unfold resolveDirIn at hh
  split_ifs at hh with hroot
  · cases hh
    exact .root
  · cases hf : resolvePathIn m v path with
    | none => simp [hf] at hh
    | some f =>
      obtain ⟨hlive, he⟩ := hc.live_of_resolvePathIn hg hf
      simp only [hf] at hh
      split_ifs at hh with hd
      cases hh
      rw [he] at hd ⊢
      exact hlive.isDir_entry hd

theorem Consistent.isDir_of_parentIn (hc : Consistent m v) (hg : Geometry m)
    (hh : parentIn m v path = some h) : IsDir m v h := by
  unfold parentIn at hh
  cases hs : lastSlash path with
  | none =>
    simp only [hs, Option.some.injEq] at hh
    exact hh ▸ .root
  | some len =>
    simp only [hs] at hh
    split_ifs at hh with hlong hzero
    · exact hc.isDir_of_resolveDirIn hg hh
    · exact hc.isDir_of_resolveDirIn hg hh

section

variable {writable : Bool} {env : Env Buf} {w : World Buf} (hg : Geometry m)
  (hc : Consistent m (viewOf m w.dev))
include hg hc

theorem resolveLoop_disk {fuel : ℕ} (hdir : IsDir m (viewOf m w.dev) h) :
    Delivers env (resolveLoop (diskFs writable env m) fuel path h) w
      (resolveIn m (viewOf m w.dev) fuel path h) := by
  induction fuel generalizing path h w with
  | zero => exact .pure env w none
  | succ fuel ih =>
    rw [resolveLoop, resolveIn]
    cases hcomp : nextPathComponent path 64 with
    | tooLong => exact .pure env w none
    | done => exact .pure env w none
    | next component rest =>
      obtain ⟨l, hl⟩ := hc.isDir_chain hdir
      refine (findEntryInDir_disk hg hl).bind (fun _ => rfl) (fun n => ?_)
      simp only [hl.clustersOf_eq hg]
      cases hfind : findInClusters m (viewOf m w.dev) component (make83Name component) l with
      | none => exact .pure env _ none
      | some f =>
        rw [← hl.clustersOf_eq hg] at hfind
        obtain ⟨hlive, he⟩ := hc.live_of_find hg hdir hfind
        cases hrest : nextPathComponent rest 64 with
        | tooLong => exact .pure env _ none
        | done => exact .pure env _ (some f)
        | next _ _ =>
          dsimp only
          split_ifs with hd
          · rw [he] at hd ⊢
            exact ih (w := w.bump n) hc (hlive.isDir_entry hd)
          · exact .pure env _ none

variable (path : List UInt8)

theorem resolvePath_disk :
    Delivers env (resolvePath (diskFs writable env m) path) w
      (resolvePathIn m (viewOf m w.dev) path) := by
  unfold resolvePath resolvePathIn
  split_ifs with hnil
  · exact .pure env w none
  · exact resolveLoop_disk hg hc .root

theorem resolveDirCluster_disk :
    Delivers env (resolveDirCluster (diskFs writable env m) path) w
      (resolveDirIn m (viewOf m w.dev) path) := by
  unfold resolveDirCluster resolveDirIn
  split_ifs with hroot
  · exact .pure env w _
  · refine (resolvePath_disk hg hc path).bind (fun _ => rfl) (fun n => ?_)
    cases resolvePathIn m (viewOf m w.dev) path with
    | none => exact .pure env _ none
    | some f =>
      dsimp only
      split_ifs
      · exact .pure env _ _
      · exact .pure env _ none

theorem parentCluster_disk :
    Delivers env (parentCluster (diskFs writable env m) path) w
      (parentIn m (viewOf m w.dev) path) := by
  unfold parentCluster parentIn
  cases lastSlash path with
  | none => exact .pure env w _
  | some len =>
    dsimp only
    split_ifs with hlong hzero
    · exact .pure env w none
    · exact resolveDirCluster_disk hg hc _
    · exact resolveDirCluster_disk hg hc _

end

end MicroK.Fat32
