import MicroK.ByteImage
import MicroK.MachineWords

/-!
# The firmware image of the wireless adapter

A firmware file is a header followed by records, each with a type, a length and a payload padded to
four bytes. `parseTlvFirmware` walks the records, files the sections of the runtime and of the init
image in two catalogues of 32 entries, and keeps the parameters the driver needs later. A rejected
file leaves the driver without firmware; what the parameters hold then is left out.
-/

namespace MicroK.Iwl

open Image

def fwMaxSize : ℕ := 2 * 1024 * 1024

def tlvHeaderSize : ℕ := 88

def tlvSize : ℕ := 8

def tlvUcodeMagic : ℕ := 0x0A4C5749

def maxFwSections : ℕ := 32

def maxCmdVersions : ℕ := 64

def cpu1Cpu2Separator : ℕ := 0xFFFFCCCC

def pagingSeparator : ℕ := 0xAAAABBBB

def fwPageSize : ℕ := 4096

structure FwSection where
  deviceOffset : ℕ
  dataOffset : ℕ
  length : ℕ
  separator : Bool
  deriving DecidableEq

/-- The sections of one image, with the totals kept beside them. -/
structure Catalogue where
  sections : List FwSection := []
  bytes : ℕ := 0
  largest : ℕ := 0
  separators : ℕ := 0
  deriving DecidableEq

/-- An array has a fixed number of entries; a write past them is a fault. -/
def writeEntry {α : Type} {n : ℕ} (v : Vector α n) (i : ℕ) (x : α) : Outcome (Vector α n) :=
  if h : i < n then .ok (v.set i x) else .fault

def Catalogue.store (c : Catalogue) (s : FwSection) : Outcome Catalogue :=
  if c.sections.length < maxFwSections then
    .ok (if s.separator then
      { c with sections := c.sections ++ [s], separators := c.separators + 1 }
    else
      { c with
        sections := c.sections ++ [s]
        bytes := c.bytes + s.length
        largest := max c.largest s.length })
  else .fault

def isSeparator (deviceOffset : ℕ) : Bool :=
  deviceOffset = cpu1Cpu2Separator ∨ deviceOffset = pagingSeparator

variable (data : Image)

def catalogFirmwareSection (c : Catalogue) (dataOffset tlvLength : ℕ) :
    Outcome Catalogue :=
  if tlvLength < 4 then .reject else do
    let deviceOffset ← data.readLe dataOffset 4
    let sectionLength := tlvLength - 4
    let separator := isSeparator deviceOffset
    if sectionLength = 0 ∧ separator = false then .ok c
    else if maxFwSections ≤ c.sections.length then .reject
    else if separator = false ∧ sub32 fwMaxSize sectionLength < c.bytes then .reject
    else c.store ⟨deviceOffset, dataOffset + 4, sectionLength, separator⟩

structure CmdVersion where
  command : UInt8
  group : UInt8
  commandVersion : UInt8
  notificationVersion : UInt8
  deriving DecidableEq

/-- What the driver keeps of a firmware file. Only the filled part of the table of command versions
is listed. -/
structure FwState where
  phyConfig : ℕ := 0
  validTxAnt : ℕ := 0
  validRxAnt : ℕ := 0
  calibFlowTrigger : Vector ℕ 2 := .replicate 2 0
  calibEventTrigger : Vector ℕ 2 := .replicate 2 0
  pagingMemSize : ℕ := 0
  maxScanChannels : ℕ := 0
  apiBits : Vector ℕ 4 := .replicate 4 0
  capabilityBits : Vector ℕ 4 := .replicate 4 0
  commandVersions : List CmdVersion := []
  commandVersions_le : commandVersions.length ≤ maxCmdVersions := by decide
  scanConfigVersion : UInt8 := 0
  scanRequestVersion : UInt8 := 0
  addStationVersion : UInt8 := 0
  phyContextVersion : UInt8 := 0
  firmwareVersion : ℕ := 0
  firmwareBuild : ℕ := 0
  tlvCount : ℕ := 0
  runtime : Catalogue := {}
  runtimeCatalogReady : Bool := false
  init : Catalogue := {}
  initCatalogReady : Bool := false
  firmwareDescription : Vector UInt8 65 := .replicate 65 0

inductive TlvType where
  | sec (runtime : Bool)
  | defCalib
  | phySku
  | apiChangesSet
  | enabledCapabilities
  | nScanChannels
  | paging
  | cmdVersions
  | other
  deriving DecidableEq

/-- The types the parser tells apart; a secure section is filed as a plain one. -/
def tlvType (type : ℕ) : TlvType :=
  if type = 19 ∨ type = 24 then .sec true
  else if type = 20 ∨ type = 25 then .sec false
  else if type = 23 then .phySku
  else if type = 22 then .defCalib
  else if type = 32 then .paging
  else if type = 31 then .nScanChannels
  else if type = 29 then .apiChangesSet
  else if type = 30 then .enabledCapabilities
  else if type = 48 then .cmdVersions
  else .other

structure Walk where
  count : ℕ := 0
  runtime : Catalogue := {}
  init : Catalogue := {}
  state : FwState

def cmdVersionsOf : List UInt8 → List CmdVersion
  | command :: group :: version :: notification :: rest =>
    ⟨command, group, version, notification⟩ :: cmdVersionsOf rest
  | _ => []

variable (st : FwState)

def FwState.storeVersions (l : List CmdVersion) : Outcome FwState :=
  if h : l.length ≤ maxCmdVersions then
    .ok { st with commandVersions := l, commandVersions_le := h }
  else .fault

/-- A parameter record with a payload of one 32-bit word. -/
def readWord (offset length : ℕ) : Outcome ℕ :=
  if length ≠ 4 then .reject else data.readLe offset 4

def parseParameter (offset length : ℕ) (st : FwState) : TlvType → Outcome FwState
  | .phySku => do
    let phyConfig ← readWord data offset length
    .ok { st with
      phyConfig
      validTxAnt := phyConfig / 2 ^ 16 % 16
      validRxAnt := phyConfig / 2 ^ 20 % 16 }
  | .defCalib =>
    if length ≠ 12 then .reject else do
      let ucodeType ← data.readLe offset 4
      if 1 < ucodeType then .reject else do
        let flow ← data.readLe (offset + 4) 4
        let calibFlowTrigger ← writeEntry st.calibFlowTrigger ucodeType flow
        let event ← data.readLe (offset + 8) 4
        let calibEventTrigger ← writeEntry st.calibEventTrigger ucodeType event
        .ok { st with calibFlowTrigger, calibEventTrigger }
  | .paging => do
    let pagingMemSize ← readWord data offset length
    if pagingMemSize = 0 ∨ pagingMemSize % fwPageSize ≠ 0 then .reject
    else .ok { st with pagingMemSize }
  | .nScanChannels => do
    let maxScanChannels ← readWord data offset length
    if maxScanChannels = 0 ∨ 63 < maxScanChannels then .reject
    else .ok { st with maxScanChannels }
  | .apiChangesSet =>
    if length ≠ 8 then .reject else do
      let index ← data.readLe offset 4
      let bits ← data.readLe (offset + 4) 4
      if 4 ≤ index then .reject else do
        let apiBits ← writeEntry st.apiBits index bits
        .ok { st with apiBits }
  | .enabledCapabilities =>
    if length ≠ 8 then .reject else do
      let index ← data.readLe offset 4
      let bits ← data.readLe (offset + 4) 4
      if 4 ≤ index then .reject else do
        let capabilityBits ← writeEntry st.capabilityBits index bits
        .ok { st with capabilityBits }
  | .cmdVersions =>
    if length % 4 ≠ 0 then .reject
    else if maxCmdVersions < length / 4 ∨ st.commandVersions ≠ [] then .reject else do
      let versions ← data.readBytes offset length
      st.storeVersions (cmdVersionsOf versions)
  | .sec _ | .other => .ok st

def parseRecord (offset type length : ℕ) (w : Walk) : Outcome Walk :=
  match tlvType type with
  | .sec true => do
    let runtime ← catalogFirmwareSection data w.runtime offset length
    .ok { w with runtime }
  | .sec false => do
    let init ← catalogFirmwareSection data w.init offset length
    .ok { w with init }
  | t => do
    let state ← parseParameter data offset length w.state t
    .ok { w with state }

def paddedLength (length : ℕ) : ℕ := u32 (length + 3) / 4 * 4

def parseRecords (data : Image) : ℕ → ℕ → Walk → Outcome (ℕ × Walk)
  | 0, _, _ => .endless
  | fuel + 1, offset, w =>
    if offset < data.size then
      if data.size - offset < tlvSize then .reject else do
        let type ← data.readLe offset 4
        let length ← data.readLe (offset + 4) 4
        if data.size - (offset + tlvSize) < length then .reject else do
          let w ← parseRecord data (offset + tlvSize) type length w
          let padded := paddedLength length
          if padded < length ∨ data.size - (offset + tlvSize) < padded then .reject
          else
            parseRecords data fuel (offset + tlvSize + padded) { w with count := w.count + 1 }
    else .ok (offset, w)

def describe (text : List UInt8) (i : ℕ) (v : Vector UInt8 65) : Outcome (Vector UInt8 65) :=
  match text with
  | [] => .ok v
  | c :: text =>
    if c = 0 then .ok v else do
      let v ← writeEntry v i (if 32 ≤ c ∧ c ≤ 126 then c else 63)
      describe text (i + 1) v

/-- The versions of the four commands the driver sends, the last entry of each winning. -/
def FwState.noteVersion (v : CmdVersion) : FwState :=
  if v.group ≠ 0x01 then st
  else if v.command = 0x0C then { st with scanConfigVersion := v.commandVersion }
  else if v.command = 0x0D then { st with scanRequestVersion := v.commandVersion }
  else if v.command = 0x18 then { st with addStationVersion := v.commandVersion }
  else if v.command = 0x08 then { st with phyContextVersion := v.commandVersion }
  else st

def finishFirmware (w : Walk) : Outcome FwState := do
  let firmwareVersion ← data.readLe 72 4
  let firmwareBuild ← data.readLe 76 4
  let text ← data.readBytes 8 64
  let description ← describe text 0 w.state.firmwareDescription
  let firmwareDescription ← writeEntry description 64 0
  let st := { w.state with
    firmwareVersion
    firmwareBuild
    tlvCount := w.count
    runtime := w.runtime
    runtimeCatalogReady := true
    init := w.init
    initCatalogReady := true
    firmwareDescription }
  let st := st.commandVersions.foldl FwState.noteVersion st
  if st.scanConfigVersion ≠ 2 ∨ st.scanRequestVersion ≠ 8 ∨ st.addStationVersion ≠ 10 ∨
      st.phyContextVersion ≠ 2 then .reject
  else if st.maxScanChannels = 0 then .ok { st with maxScanChannels := 40 }
  else .ok st

def parseTlvFirmware : Outcome FwState :=
  if data.size < tlvHeaderSize then .reject else do
    let leading ← data.readLe 0 4
    let magic ← data.readLe 4 4
    if leading ≠ 0 ∨ magic ≠ tlvUcodeMagic then .reject else do
      let (offset, w) ← parseRecords data (data.size + 1) tlvHeaderSize { state := st }
      if offset ≠ data.size ∨ w.count = 0 ∨ w.runtime.sections = [] ∨ w.init.sections = [] then
        .reject
      else finishFirmware data w

open Outcome

structure TlvRecord where
  offset : ℕ
  type : ℕ
  length : ℕ

def recordAt (offset : ℕ) : TlvRecord where
  offset
  type := leValue (data.bytes offset 4)
  length := leValue (data.bytes (offset + 4) 4)

def TlvRecord.next (r : TlvRecord) : ℕ := r.offset + tlvSize + (r.length + 3) / 4 * 4

theorem TlvRecord.le_next (r : TlvRecord) : r.offset ≤ r.next := by
  unfold TlvRecord.next
  omega

/-- Records that follow one another from one offset to another. -/
inductive Tiles (data : Image) : ℕ → List TlvRecord → ℕ → Prop
  | nil (offset : ℕ) : Tiles data offset [] offset
  | cons {offset stop : ℕ} {records : List TlvRecord}
    (rest : Tiles data (recordAt data offset).next records stop) :
    Tiles data offset (recordAt data offset :: records) stop

variable {records : List TlvRecord}

theorem Tiles.le {data : Image} {offset stop : ℕ}
    (h : Tiles data offset records stop) : offset ≤ stop := by
  induction h with
  | nil => exact le_rfl
  | @cons offset stop records rest ih =>
    have hnext : offset ≤ (recordAt data offset).next :=
      (recordAt data offset).le_next
    exact hnext.trans ih

def TlvRecord.section? (runtime : Bool) (r : TlvRecord) : Option FwSection :=
  if tlvType r.type = .sec runtime ∧ 4 ≤ r.length then
    let deviceOffset := leValue (data.bytes (r.offset + tlvSize) 4)
    if r.length = 4 ∧ isSeparator deviceOffset = false then none
    else some ⟨deviceOffset, r.offset + tlvSize + 4, r.length - 4, isSeparator deviceOffset⟩
  else none

def sectionsOf (runtime : Bool) (records : List TlvRecord) : List FwSection :=
  records.filterMap (TlvRecord.section? data runtime)

variable {r : TlvRecord} {length : ℕ}

theorem TlvRecord.section?_bounds {data : Image} {runtime : Bool} {s : FwSection}
    (h : r.section? data runtime = some s) :
    r.offset < s.dataOffset ∧ s.dataOffset + s.length ≤ r.next := by
  unfold TlvRecord.section? at h
  dsimp only at h
  split_ifs at h with htype hempty
  cases h
  simp only [TlvRecord.next, tlvSize]
  omega

/-- Sections lie between two offsets, each after the end of those before it. -/
def Laid (first stop : ℕ) (sections : List FwSection) : Prop :=
  (∀ s ∈ sections, first ≤ s.dataOffset ∧ s.dataOffset + s.length ≤ stop) ∧
    sections.Pairwise fun s t => s.dataOffset + s.length ≤ t.dataOffset

theorem Tiles.laid {data : Image} {offset stop : ℕ}
    (h : Tiles data offset records stop) (runtime : Bool) :
    Laid offset stop (sectionsOf data runtime records) := by
  induction h with
  | nil => exact ⟨nofun, List.Pairwise.nil⟩
  | @cons offset stop records rest ih =>
    obtain ⟨hin, hpairs⟩ := ih
    have hnext : offset ≤ (recordAt data offset).next :=
      (recordAt data offset).le_next
    have htail : ∀ s ∈ sectionsOf data runtime records,
        offset ≤ s.dataOffset ∧ s.dataOffset + s.length ≤ stop :=
      fun s hs => ⟨hnext.trans (hin s hs).1, (hin s hs).2⟩
    cases hs : (recordAt data offset).section? data runtime with
    | none =>
      rw [sectionsOf, List.filterMap_cons_none hs]
      exact ⟨htail, hpairs⟩
    | some s =>
      obtain ⟨hstart, hend⟩ := TlvRecord.section?_bounds hs
      rw [sectionsOf, List.filterMap_cons_some hs]
      refine ⟨List.forall_mem_cons.mpr ⟨⟨hstart.le, hend.trans rest.le⟩, htail⟩,
        List.Pairwise.cons (fun t ht => hend.trans (hin t ht).1) hpairs⟩

section

variable {data : Image} {offset : ℕ}

theorem sat_writeEntry {α : Type} {n i : ℕ} (v : Vector α n) (x : α) (h : i < n) :
    (writeEntry v i x).Sat fun _ => True := by
  rw [writeEntry, dif_pos h]
  trivial

theorem sat_catalogFirmwareSection (c : Catalogue) {runtime : Bool}
    (htype : tlvType r.type = .sec runtime) (hin : r.offset + tlvSize + r.length ≤ data.size) :
    (catalogFirmwareSection data c (r.offset + tlvSize) r.length).Sat fun c' =>
      c'.sections = c.sections ++ (r.section? data runtime).toList := by
  refine sat_guard fun hlen => ?_
  have hcarries : tlvType r.type = .sec runtime ∧ 4 ≤ r.length := ⟨htype, not_lt.mp hlen⟩
  rw [readLe_eq (by omega), ok_bind, TlvRecord.section?]
  simp only [if_pos hcarries]
  generalize leValue (data.bytes (r.offset + tlvSize) 4) = deviceOffset
  have hzero : r.length - 4 = 0 ↔ r.length = 4 := by omega
  simp only [hzero]
  by_cases hempty : r.length = 4 ∧ isSeparator deviceOffset = false
  · rw [if_pos hempty, if_pos hempty]
    simp [Sat]
  · rw [if_neg hempty, if_neg hempty]
    refine sat_guard fun hroom => sat_guard fun _ => ?_
    rw [Catalogue.store, if_pos (not_le.mp hroom)]
    cases isSeparator deviceOffset <;> simp [Sat]

theorem sat_readWord (hin : offset + length ≤ data.size) :
    (readWord data offset length).Sat fun _ => True :=
  sat_guard fun hlen => (sat_readLe (by omega)).mono fun _ _ => trivial

theorem length_cmdVersionsOf (l : List UInt8) : (cmdVersionsOf l).length = l.length / 4 := by
  fun_induction cmdVersionsOf l with
  | case1 command group version notification rest ih =>
    simp only [List.length_cons, ih]
    omega
  | case2 l h =>
    match l, h with
    | [], _ | [_], _ | [_, _], _ | [_, _, _], _ => simp
    | a :: b :: c :: d :: rest, h => exact absurd rfl (h a b c d rest)

theorem sat_parseParameter (st : FwState) (hin : offset + length ≤ data.size) (t : TlvType) :
    (parseParameter data offset length st t).Sat fun _ => True := by
  cases t with
  | sec runtime => trivial
  | other => trivial
  | phySku => exact sat_bind (sat_readWord hin) fun _ _ => trivial
  | paging => exact sat_bind (sat_readWord hin) fun _ _ => sat_guard fun _ => trivial
  | nScanChannels => exact sat_bind (sat_readWord hin) fun _ _ => sat_guard fun _ => trivial
  | defCalib =>
    refine sat_guard fun hlen => ?_
    refine sat_bind (sat_readLe (by omega)) fun ucodeType _ => sat_guard fun htype => ?_
    refine sat_bind (sat_readLe (by omega)) fun flow _ => ?_
    refine sat_bind (sat_writeEntry _ _ (by omega)) fun _ _ => ?_
    refine sat_bind (sat_readLe (by omega)) fun event _ => ?_
    exact sat_bind (sat_writeEntry _ _ (by omega)) fun _ _ => trivial
  | apiChangesSet =>
    refine sat_guard fun hlen => ?_
    refine sat_bind (sat_readLe (by omega)) fun index _ => ?_
    refine sat_bind (sat_readLe (by omega)) fun bits _ => sat_guard fun hindex => ?_
    exact sat_bind (sat_writeEntry _ _ (by omega)) fun _ _ => trivial
  | enabledCapabilities =>
    refine sat_guard fun hlen => ?_
    refine sat_bind (sat_readLe (by omega)) fun index _ => ?_
    refine sat_bind (sat_readLe (by omega)) fun bits _ => sat_guard fun hindex => ?_
    exact sat_bind (sat_writeEntry _ _ (by omega)) fun _ _ => trivial
  | cmdVersions =>
    refine sat_guard fun hlen => sat_guard fun hroom => ?_
    refine sat_bind (sat_readBytes hin) fun versions hversions => ?_
    have hcount := length_cmdVersionsOf versions
    rw [FwState.storeVersions, dif_pos (by omega)]
    trivial

theorem sat_parseRecord (w : Walk) (hin : r.offset + tlvSize + r.length ≤ data.size) :
    (parseRecord data (r.offset + tlvSize) r.type r.length w).Sat fun w' =>
      w'.count = w.count ∧
        w'.runtime.sections = w.runtime.sections ++ (r.section? data true).toList ∧
          w'.init.sections = w.init.sections ++ (r.section? data false).toList := by
  have hskip : ∀ runtime, tlvType r.type ≠ .sec runtime → r.section? data runtime = none :=
    fun runtime h => if_neg fun hc => h hc.1
  unfold parseRecord
  cases htype : tlvType r.type with
  | sec runtime =>
    cases runtime with
    | true =>
      refine sat_bind (sat_catalogFirmwareSection w.runtime htype hin) fun c hc => ⟨rfl, hc, ?_⟩
      simp [hskip false (by simp [htype])]
    | false =>
      refine sat_bind (sat_catalogFirmwareSection w.init htype hin) fun c hc => ⟨rfl, ?_, hc⟩
      simp [hskip true (by simp [htype])]
  | _ =>
    refine sat_bind (sat_parseParameter w.state hin _) fun st _ => ?_
    simp [Sat, hskip true (by simp [htype]), hskip false (by simp [htype])]

end

variable {data : Image}

theorem paddedLength_eq (h : length ≤ fwMaxSize) : paddedLength length = (length + 3) / 4 * 4 := by
  have hlt : length + 3 < 2 ^ 32 := by
    unfold fwMaxSize at h
    omega
  rw [paddedLength, u32_of_lt hlt]

/-- What a walk from `offset` on has done when it stops. -/
structure Walked (data : Image) (offset : ℕ) (w : Walk) (stop : ℕ × Walk)
    (records : List TlvRecord) : Prop where
  tiles : Tiles data offset records stop.1
  at_end : stop.1 = data.size
  count : stop.2.count = w.count + records.length
  runtime : stop.2.runtime.sections = w.runtime.sections ++ sectionsOf data true records
  init : stop.2.init.sections = w.init.sections ++ sectionsOf data false records

theorem sectionsOf_cons (runtime : Bool) (r : TlvRecord) (records : List TlvRecord) :
    sectionsOf data runtime (r :: records) =
      (r.section? data runtime).toList ++ sectionsOf data runtime records := by
  unfold sectionsOf
  cases h : r.section? data runtime with
  | none => rw [List.filterMap_cons_none h]; rfl
  | some s => rw [List.filterMap_cons_some h]; rfl

theorem sat_parseRecords (hsize : data.size ≤ fwMaxSize) (fuel offset : ℕ) (w : Walk)
    (hfuel : data.size < offset + fuel) (hoffset : offset ≤ data.size) :
    (parseRecords data fuel offset w).Sat fun stop =>
      ∃ records, Walked data offset w stop records := by
  induction fuel generalizing offset w with
  | zero => omega
  | succ fuel ih =>
    rw [parseRecords]
    by_cases hmore : offset < data.size
    swap
    · rw [if_neg hmore]
      exact ⟨[], .nil offset, by omega, rfl, by simp [sectionsOf], by simp [sectionsOf]⟩
    rw [if_pos hmore]
    refine sat_guard fun hroom => ?_
    have htlv : offset + 8 ≤ data.size := by
      unfold tlvSize at hroom
      omega
    rw [readLe_eq (by omega), ok_bind, readLe_eq (by omega), ok_bind]
    let r := recordAt data offset
    refine sat_guard fun hlength => ?_
    have hin : r.offset + tlvSize + r.length ≤ data.size := by
      change ¬ data.size - (offset + tlvSize) < r.length at hlength
      change offset + tlvSize + r.length ≤ data.size
      omega
    refine sat_bind (sat_parseRecord w hin) fun w' ⟨hcount, hruntime, hinit⟩ => ?_
    have hpadded : paddedLength r.length = (r.length + 3) / 4 * 4 := paddedLength_eq (by omega)
    refine sat_guard fun hpad => ?_
    change ¬ (paddedLength r.length < r.length ∨
      data.size - (offset + tlvSize) < paddedLength r.length) at hpad
    have hnext : offset + tlvSize + paddedLength r.length = r.next := by rw [hpadded]; rfl
    have hstep : offset + 8 ≤ r.next := by
      rw [← hnext, tlvSize]
      omega
    change Sat (parseRecords data fuel (offset + tlvSize + paddedLength r.length) _) _
    rw [hnext]
    apply (ih r.next _ (by omega) (by rw [← hnext]; unfold tlvSize at hpad ⊢; omega)).mono
    rintro stop ⟨records, h⟩
    refine ⟨r :: records, .cons h.tiles, h.at_end, ?_, ?_, ?_⟩
    · have hsum : stop.2.count = w'.count + 1 + records.length := h.count
      rw [hsum, hcount, List.length_cons]
      omega
    · rw [h.runtime, sectionsOf_cons, ← List.append_assoc, ← hruntime]
    · rw [h.init, sectionsOf_cons, ← List.append_assoc, ← hinit]

theorem sat_describe (text : List UInt8) (i : ℕ) (v : Vector UInt8 65)
    (h : i + text.length ≤ 64) : (describe text i v).Sat fun _ => True := by
  induction text generalizing i v with
  | nil => trivial
  | cons c text ih =>
    rw [List.length_cons] at h
    rw [describe]
    by_cases hc : c = 0
    · rw [if_pos hc]
      trivial
    · rw [if_neg hc]
      exact sat_bind (sat_writeEntry _ _ (by omega)) fun v' _ => ih (i + 1) v' (by omega)

theorem FwState.noteVersion_kept (v : CmdVersion) :
    (st.noteVersion v).runtime = st.runtime ∧ (st.noteVersion v).init = st.init ∧
      (st.noteVersion v).tlvCount = st.tlvCount := by
  unfold FwState.noteVersion
  split_ifs <;> exact ⟨rfl, rfl, rfl⟩

theorem FwState.foldl_noteVersion_kept (l : List CmdVersion) (st : FwState) :
    (l.foldl noteVersion st).runtime = st.runtime ∧ (l.foldl noteVersion st).init = st.init ∧
      (l.foldl noteVersion st).tlvCount = st.tlvCount := by
  induction l generalizing st with
  | nil => exact ⟨rfl, rfl, rfl⟩
  | cons v l ih =>
    obtain ⟨hruntime, hinit, hcount⟩ := ih (st.noteVersion v)
    obtain ⟨hruntime', hinit', hcount'⟩ := st.noteVersion_kept v
    exact ⟨hruntime.trans hruntime', hinit.trans hinit', hcount.trans hcount'⟩

theorem sat_finishFirmware (w : Walk) (h : tlvHeaderSize ≤ data.size) :
    (finishFirmware data w).Sat fun st =>
      st.runtime = w.runtime ∧ st.init = w.init ∧ st.tlvCount = w.count := by
  unfold tlvHeaderSize at h
  refine sat_bind (sat_readLe (by omega)) fun version _ => ?_
  refine sat_bind (sat_readLe (by omega)) fun build _ => ?_
  refine sat_bind (sat_readBytes (by omega)) fun text htext => ?_
  refine sat_bind (sat_describe text 0 _ (by omega)) fun description _ => ?_
  refine sat_bind (sat_writeEntry _ _ (by omega)) fun description _ => ?_
  refine sat_guard fun _ => ?_
  split_ifs
  · exact FwState.foldl_noteVersion_kept _ _
  · exact FwState.foldl_noteVersion_kept _ _

/-- Parsing a file of at most two megabytes ends and never leaves the file or a table. When the file
is accepted its records tile it from the header on, and the sections of either catalogue are those
of its records: they lie in the file, in file order and without overlap. -/
theorem parseTlvFirmware_tiles (data : Image) (st : FwState) (hsize : data.size ≤ fwMaxSize) :
    (parseTlvFirmware data st).Halts ∧
      ∀ st', parseTlvFirmware data st = .ok st' →
        ∃ records, Tiles data tlvHeaderSize records data.size ∧
          st'.tlvCount = records.length ∧
          st'.runtime.sections = sectionsOf data true records ∧
          st'.init.sections = sectionsOf data false records ∧
          Laid tlvHeaderSize data.size st'.runtime.sections ∧
          Laid tlvHeaderSize data.size st'.init.sections := by
  have hsat : (parseTlvFirmware data st).Sat fun st' =>
      ∃ records, Tiles data tlvHeaderSize records data.size ∧ st'.tlvCount = records.length ∧
        st'.runtime.sections = sectionsOf data true records ∧
        st'.init.sections = sectionsOf data false records := by
    refine sat_guard fun hheader => ?_
    have hle : tlvHeaderSize ≤ data.size := not_lt.mp hheader
    have hfields : 8 ≤ data.size := le_trans (by decide) hle
    refine sat_bind (sat_readLe (by omega)) fun leading _ => ?_
    refine sat_bind (sat_readLe (by omega)) fun magic _ => sat_guard fun _ => ?_
    refine sat_bind (sat_parseRecords hsize _ _ _ (by omega) hle) fun stop ⟨records, h⟩ => ?_
    refine sat_guard fun _ => (sat_finishFirmware stop.2 hle).mono fun st' hst' => ?_
    obtain ⟨hruntime, hinit, hcount⟩ := hst'
    refine ⟨records, h.at_end ▸ h.tiles, ?_, ?_, ?_⟩
    · rw [hcount, h.count, Nat.zero_add]
    · rw [hruntime, h.runtime, List.nil_append]
    · rw [hinit, h.init, List.nil_append]
  refine ⟨hsat.halts, fun st' hst' => ?_⟩
  obtain ⟨records, htiles, hcount, hruntime, hinit⟩ := hsat.of_eq_ok hst'
  exact ⟨records, htiles, hcount, hruntime, hinit, hruntime ▸ htiles.laid true,
    hinit ▸ htiles.laid false⟩

/-- A file with one section for each image and the four command versions the driver expects. -/
def smallFirmware : Image := .ofList <|
  leBytes 4 0 ++ leBytes 4 tlvUcodeMagic ++ List.replicate 64 0 ++ leBytes 4 46 ++ leBytes 4 1 ++
    leBytes 8 0 ++
  leBytes 4 19 ++ leBytes 4 5 ++ leBytes 4 0x404000 ++ [7, 0, 0, 0] ++
  leBytes 4 20 ++ leBytes 4 8 ++ leBytes 4 0x800000 ++ [1, 2, 3, 4] ++
  leBytes 4 48 ++ leBytes 4 16 ++ [0x0C, 1, 2, 0] ++ [0x0D, 1, 8, 0] ++ [0x18, 1, 10, 0] ++
    [0x08, 1, 2, 0]

theorem smallFirmware_accepted :
    ∃ st, parseTlvFirmware smallFirmware {} = .ok st ∧
      st.runtime.sections = [⟨0x404000, 100, 1, false⟩] ∧
      st.init.sections = [⟨0x800000, 116, 4, false⟩] := by
  have hrun : (parseTlvFirmware smallFirmware {} >>= fun st =>
      .ok (st.runtime.sections, st.init.sections)) =
      .ok ([⟨0x404000, 100, 1, false⟩], [⟨0x800000, 116, 4, false⟩]) := by decide +kernel
  obtain ⟨st, hst, hsections⟩ := bind_eq_ok.mp hrun
  obtain ⟨hruntime, hinit⟩ := Prod.mk.inj (Outcome.ok.inj hsections)
  exact ⟨st, hst, hruntime, hinit⟩

theorem smallFirmware_tiles :
    smallFirmware.size ≤ fwMaxSize ∧ (∃ st, parseTlvFirmware smallFirmware {} = .ok st) ∧
      ∀ st', parseTlvFirmware smallFirmware {} = .ok st' →
        ∃ records, Tiles smallFirmware tlvHeaderSize records smallFirmware.size ∧
          Laid tlvHeaderSize smallFirmware.size st'.runtime.sections := by
  have hsize : smallFirmware.size ≤ fwMaxSize := by decide +kernel
  obtain ⟨st, hst, -⟩ := smallFirmware_accepted
  refine ⟨hsize, ⟨st, hst⟩, fun st' hst' => ?_⟩
  obtain ⟨records, htiles, -, -, -, hlaid, -⟩ := (parseTlvFirmware_tiles _ _ hsize).2 st' hst'
  exact ⟨records, htiles, hlaid⟩

end MicroK.Iwl
