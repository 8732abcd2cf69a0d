import MicroK.TensorRequests
import MicroK.GgufRoundTrip

/-!
# Reads of the data section

Tensors and rows are read from the data section of the file, and so is the row of the
end-of-sequence token, whose number comes from the metadata.
-/

namespace MicroK.Gguf

open Outcome

structure Found (f : Image) (info : Info) (name : List UInt8) (abort : ℕ → Bool) (d : Descriptor)
    (t : Tensor) : Prop where
  descriptor : findDescriptor f name abort info.tensorCount 0 info.tensorInfoOffset = .ok d
  checked : checkDescriptor f info d = .ok t

/-- The row of a token in a quantised output tensor lies in the data section. -/
def LogitFits (f : Image) (info : Info) (d : Descriptor) (v : ℕ) : Prop :=
  ∀ block, blockOf d.type = some block → block.1 ≠ 1 →
    info.dataOffset + u32 (d.offset + v * u32 (info.arch.nEmbd / block.1 * block.2)) +
      u32 (info.arch.nEmbd / block.1 * block.2) ≤ f.size

structure ReadsFit (cache : Option ProbeCache) (start : ℕ) (f : Image) (info : Info) : Prop where
  tensors : ∀ name abort d t, Found f info name abort d t → LoadFits f info d ∧ RowsFit f info d
  eos : ∀ aborts name abort d t v, findTensorAlias cache start f aborts aliasOutput 0 = .ok name →
    Found f info name abort d t → eosTokenId cache start f = .ok v → LogitFits f info d v

structure ReadsInside (cache : Option ProbeCache) (start : ℕ) (f : Image) (info : Info) : Prop where
  load : ∀ heap name abort r,
    loadRequest heap cache start f name abort = .ok r → r.Inside f info
  row : ∀ scratch name abort rowIndex outCount r,
    rowRequest scratch cache start f name abort rowIndex outCount = .ok r → r.Inside f info
  eos : ∀ scratch aborts r, eosRequest scratch cache start f aborts = .ok r → r.Inside f info

section

variable {f : Image} {info : Info} {cache : Option ProbeCache} {start : ℕ} {t : Tensor}

theorem getTensor_eq_ok (hprobe : probe cache start f = .ok info) {name : List UInt8}
    {abort : ℕ → Bool} :
    getTensor cache start f name abort = .ok t ↔ ∃ d, Found f info name abort d t := by
  rw [getTensor, hprobe, ok_bind, bind_eq_ok]
  exact exists_congr fun d => ⟨fun h => ⟨h.1, h.2⟩, fun h => ⟨h.descriptor, h.checked⟩⟩

theorem u32_add_u32 (a b : ℕ) : u32 (u32 a + u32 b) = u32 (a + b) := (Nat.add_mod a b _).symm

theorem logitRequest_quantised {block : ℕ × ℕ} (hblock : blockOf t.type = some block)
    (hone : block.1 ≠ 1) (scratch : Bool) (aborts : ℕ → ℕ → Bool) (abort : ℕ → Bool) (nEmbd v : ℕ) :
    logitRequest scratch cache start f aborts abort t nEmbd v =
      if scratch then .ok ⟨u32 (t.offset + u32 (v * u32 (nEmbd / block.1 * block.2))),
        u32 (nEmbd / block.1 * block.2)⟩ else reject := by
  unfold logitRequest
  rcases blockOf_cases hblock with ⟨-, rfl⟩ | ⟨-, rfl⟩ | ⟨htype, rfl⟩ | ⟨htype, rfl⟩
  · exact absurd rfl hone
  · exact absurd rfl hone
  · rw [if_pos htype]
  · rw [if_neg (by rw [htype]; decide), if_pos htype]

theorem logitRequest_plain (hplain : ∀ block, blockOf t.type = some block → block.1 = 1)
    (scratch : Bool) (aborts : ℕ → ℕ → Bool) (abort : ℕ → Bool) (nEmbd v : ℕ) :
    logitRequest scratch cache start f aborts abort t nEmbd v = (do
      let name ← findTensorAlias cache start f aborts aliasOutput 0
      rowRequest scratch cache start f name abort v nEmbd) := by
  have hq4 : t.type ≠ GgmlType.q4_0.code := fun htype => by
    have := hplain (32, 18) (by rw [htype]; rfl)
    norm_num at this
  have hq6 : t.type ≠ GgmlType.q6_k.code := fun htype => by
    have := hplain (256, 210) (by rw [htype]; rfl)
    norm_num at this
  unfold logitRequest
  rw [if_neg hq4, if_neg hq6]

theorem eosRequest_eq_ok (hprobe : probe cache start f = .ok info) {scratch : Bool}
    {aborts : ℕ → ℕ → ℕ → Bool} {r : Request} :
    eosRequest scratch cache start f aborts = .ok r ↔ ∃ v name t,
      eosTokenId cache start f = .ok v ∧
        findTensorAlias cache start f (aborts 0) aliasOutput 0 = .ok name ∧
        getTensor cache start f name (aborts 1 0) = .ok t ∧
        logitRequest scratch cache start f (aborts 2) (aborts 3 0) t info.arch.nEmbd v = .ok r := by
  simp only [eosRequest, hprobe, ok_bind, bind_eq_ok]
  grind

theorem ReadsInside.readsFit (hsize : f.size < 2 ^ 32) (hdata : info.dataOffset ≤ f.size)
    (hprobe : probe cache start f = .ok info) (h : ReadsInside cache start f info) :
    ReadsFit cache start f info := by
  constructor
  · intro name abort d t hfound
    obtain ⟨hdims, hoffset⟩ := (sat_findDescriptor hsize _ _ _ _ _).of_eq_ok hfound.descriptor
    have hget := (getTensor_eq_ok hprobe).mpr ⟨d, hfound⟩
    exact ⟨(load_inside_iff hsize hdata hdims hoffset hfound.checked hget).mp
        fun heap r hr => h.load heap name abort r hr,
      (row_inside_iff hsize hdata hoffset hfound.checked hprobe hget).mp
        fun scratch i n r hr => h.row scratch name abort i n r hr⟩
  · intro aborts name abort d t v halias hfound heos block hblock hone
    have hget := (getTensor_eq_ok hprobe).mpr ⟨d, hfound⟩
    obtain ⟨ht, -, -⟩ := checkDescriptor_ok hfound.checked
    have htype : blockOf t.type = some block := by rwa [ht]
    have hinside := h.eos true (fun k => if k = 1 then fun _ => abort else aborts) _
      ((eosRequest_eq_ok hprobe).mpr
        ⟨v, name, t, heos, halias, hget, logitRequest_quantised htype hone _ _ _ _ _⟩)
    rwa [Request.Inside, ht, u32_add_u32] at hinside

theorem ReadsFit.readsInside (hsize : f.size < 2 ^ 32) (hdata : info.dataOffset ≤ f.size)
    (hprobe : probe cache start f = .ok info) (h : ReadsFit cache start f info) :
    ReadsInside cache start f info := by
  have hrow : ∀ scratch name abort rowIndex outCount r,
      rowRequest scratch cache start f name abort rowIndex outCount = .ok r → r.Inside f info := by
    intro scratch name abort i n r hr
    obtain ⟨t, hget, -⟩ := bind_eq_ok.mp hr
    obtain ⟨d, hfound⟩ := (getTensor_eq_ok hprobe).mp hget
    obtain ⟨-, hoffset⟩ := (sat_findDescriptor hsize _ _ _ _ _).of_eq_ok hfound.descriptor
    exact (row_inside_iff hsize hdata hoffset hfound.checked hprobe hget).mpr
      (h.tensors name abort d t hfound).2 scratch i n r hr
  refine ⟨fun heap name abort r hr => ?_, hrow, fun scratch aborts r hr => ?_⟩
  · obtain ⟨t, hget, -⟩ := bind_eq_ok.mp hr
    obtain ⟨d, hfound⟩ := (getTensor_eq_ok hprobe).mp hget
    obtain ⟨hdims, hoffset⟩ := (sat_findDescriptor hsize _ _ _ _ _).of_eq_ok hfound.descriptor
    exact (load_inside_iff hsize hdata hdims hoffset hfound.checked hget).mpr
      (h.tensors name abort d t hfound).1 heap r hr
  · obtain ⟨v, name, t, heos, halias, hget, hlogit⟩ := (eosRequest_eq_ok hprobe).mp hr
    obtain ⟨d, hfound⟩ := (getTensor_eq_ok hprobe).mp hget
    by_cases hplain : ∀ block, blockOf t.type = some block → block.1 = 1
    · rw [logitRequest_plain hplain] at hlogit
      obtain ⟨name', -, hread⟩ := bind_eq_ok.mp hlogit
      exact hrow _ _ _ _ _ _ hread
    · push Not at hplain
      obtain ⟨block, hblock, hone⟩ := hplain
      obtain ⟨ht, -, -⟩ := checkDescriptor_ok hfound.checked
      have hfit := h.eos (aborts 0) name (aborts 1 0) d t v halias hfound heos block
        (by rwa [ht] at hblock) hone
      rw [logitRequest_quantised hblock hone] at hlogit
      split_ifs at hlogit
      cases hlogit
      rwa [Request.Inside, ht, u32_add_u32]

end

/-- Every read of an accepted file stays in its data section exactly when its tensors have 32-bit
offsets and whole blocks, and the row of the end-of-sequence token is one of the file. -/
theorem reads_inside_iff {f : Image} {info : Info} {cache : Option ProbeCache} {start : ℕ}
    (hsize : f.size < 2 ^ 32) (hprobe : probeFile f = .ok info) (hcache : Coherent cache start f) :
    ReadsInside cache start f info ↔ ReadsFit cache start f info := by
  obtain ⟨stop, hprobed⟩ := (sat_probeFile hsize).of_eq_ok hprobe
  rw [← probe_eq_probeFile hcache] at hprobe
  exact ⟨ReadsInside.readsFit hsize hprobed.dataInside hprobe,
    ReadsFit.readsInside hsize hprobed.dataInside hprobe⟩

def wordEntry (key : String) (number : ℕ) (hlen : (keyBytes key).length ≤ 62)
    (hnul : 0 ∉ keyBytes key) (hnumber : number < 256 ^ 4) : Entry :=
  ⟨⟨keyBytes key, hlen, hnul⟩, .scalar .uint32 number, .scalar rfl hnumber⟩

def outputTensor : TensorEntry :=
  ⟨⟨keyBytes "output.weight", by decide +kernel, by decide +kernel⟩, [32, 1],
    GgmlType.q4_0.code, 0, by decide, by decide, by decide, by decide⟩

theorem embeddingKey_length : (keyBytes "llama.embedding_length").length ≤ 62 := by
  decide +kernel

theorem embeddingKey_nul : 0 ∉ keyBytes "llama.embedding_length" := by
  decide +kernel

def oneRowModel (eos : ℕ) (heos : eos < 256 ^ 4) : Image :=
  .ofList (encodeFile 3
    [wordEntry "llama.embedding_length" 32 embeddingKey_length embeddingKey_nul (by decide),
      wordEntry "tokenizer.ggml.eos_token_id" eos (by decide +kernel) (by decide +kernel) heos]
    [outputTensor] (List.replicate 18 0))

def oneRowInfo : Info :=
  ⟨3, 1, 2, 24, 105, 160, ⟨[], 0, 32, 0, 0, 0, 0, 0, defaultRopeFreqBase⟩⟩

theorem reads_inside_one_row :
    (∃ r, eosRequest true none 0 (oneRowModel 0 (by decide)) (fun _ _ _ => false) = .ok r) ∧
      ReadsInside none 0 (oneRowModel 0 (by decide)) oneRowInfo := by
  have hprobe : probeFile (oneRowModel 0 (by decide)) = .ok oneRowInfo := by decide +kernel
  have hread : readDescriptor (oneRowModel 0 (by decide)) 105 =
      .ok ⟨keyBytes "output.weight", [32, 1], GgmlType.q4_0.code, 0, 158⟩ := by decide +kernel
  have heos : eosTokenId none 0 (oneRowModel 0 (by decide)) = .ok 0 := by decide +kernel
  have hsize : (oneRowModel 0 (by decide)).size = 178 := by decide +kernel
  refine ⟨⟨⟨0, 18⟩, by decide +kernel⟩,
    (reads_inside_iff (by omega) hprobe fun info h => by cases h).mpr ?_⟩
  have hfound {name abort d t} (h : Found (oneRowModel 0 (by decide)) oneRowInfo name abort d t) :
      d = ⟨keyBytes "output.weight", [32, 1], GgmlType.q4_0.code, 0, 158⟩ := by
    have hd := h.descriptor
    change findDescriptor _ name abort 1 0 105 = _ at hd
    rw [findDescriptor, hread, ok_bind] at hd
    split_ifs at hd
    · exact (Outcome.ok.inj hd).symm
    · cases hd
  have hblock : blockOf GgmlType.q4_0.code = some (32, 18) := rfl
  refine ⟨fun name abort d t h => ?_, fun aborts name abort d t v _ h hv => ?_⟩
  · obtain rfl := hfound h
    refine ⟨fun count block _ hb _ _ => ?_, fun width rows block hdims hb hdvd _ => ?_⟩
    · obtain rfl := Option.some.inj (hblock.symm.trans hb)
      exact ⟨by norm_num, .inl (by decide)⟩
    · obtain rfl := Option.some.inj (hblock.symm.trans hb)
      obtain ⟨rfl, -⟩ : 32 = width ∧ [1] = [rows] := List.cons.inj hdims
      exact ⟨by norm_num, .inl (by norm_num)⟩
  · obtain rfl := hfound h
    obtain rfl : 0 = v := Outcome.ok.inj (heos.symm.trans hv)
    intro block hb _
    obtain rfl := Option.some.inj (hblock.symm.trans hb)
    rw [hsize]
    decide

/-- The row of a token that the output tensor does not have is read behind the end of the file, like
the block of a tensor whose rows are not whole blocks, and the rows of a tensor whose size of 2 to
the 64 and 4 bytes passes for 4 bytes. -/
theorem reads_outside :
    (∃ info r, probeFile (oneRowModel 1 (by decide)) = .ok info ∧
      eosRequest true none 0 (oneRowModel 1 (by decide)) (fun _ _ _ => false) = .ok r ∧
      ¬ r.Inside (oneRowModel 1 (by decide)) info) ∧
    (∃ info r, probeFile (oneTensor [16, 2] 2 0) = .ok info ∧
      loadRequest (fun _ => true) none 0 (oneTensor [16, 2] 2 0) [116] (fun _ => false) = .ok r ∧
      ¬ r.Inside (oneTensor [16, 2] 2 0) info) ∧
    ∃ info r,
      probeFile (oneTensor [2 ^ 31 + 2 ^ 16 + 1, 2 ^ 31 - 2 ^ 16 + 1] 0 0) = .ok info ∧
      rowRequest true none 0 (oneTensor [2 ^ 31 + 2 ^ 16 + 1, 2 ^ 31 - 2 ^ 16 + 1] 0 0) [116]
        (fun _ => false) 0 (2 ^ 31 + 2 ^ 16 + 1) = .ok r ∧
      ¬ r.Inside (oneTensor [2 ^ 31 + 2 ^ 16 + 1, 2 ^ 31 - 2 ^ 16 + 1] 0 0) info := by
  let plain : Info := ⟨3, 1, 0, 24, 24, 96, ⟨[], 0, 0, 0, 0, 0, 0, 0, defaultRopeFreqBase⟩⟩
  refine ⟨⟨oneRowInfo, ⟨18, 18⟩, ?_⟩, ⟨plain, ⟨0, 18⟩, ?_⟩, plain, ⟨0, 262148⟩, ?_⟩ <;>
    decide +kernel

end MicroK.Gguf
