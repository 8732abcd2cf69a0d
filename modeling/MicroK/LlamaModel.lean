import MicroK.GgufReads
import MicroK.ForwardShapes

/-!
# Loading a Llama model

The kernel takes a model for ready when the metadata of its architecture is not zero and its tensors
exist under their names. Loading it creates the norms as tensors and the weight matrices as views of
the file, and the first prompt creates the buffers of the pass.
-/

namespace MicroK.Gguf

open Outcome

/-- What happens while a model is loaded, by layer and tensor: abort requests, allocations, and
reads of the data section. -/
structure Loading where
  abort : ℕ → ℕ → ℕ → Bool
  heap : ℕ → ℕ → ℕ → Bool
  readOk : ℕ → ℕ → Bool

def decimal (n : ℕ) : List UInt8 :=
  if n < 10 then [UInt8.ofNat (48 + n)] else [UInt8.ofNat (48 + n / 10), UInt8.ofNat (48 + n % 10)]

def layerName (layer : ℕ) (suffix : String) : List UInt8 :=
  keyBytes "blk." ++ decimal layer ++ keyBytes "." ++ keyBytes suffix

def Arch.layers (arch : Arch) : ℕ := min arch.nLayer 32

def requiredSuffixes : List String :=
  ["attn_q.weight", "attn_k.weight", "attn_v.weight", "attn_output.weight", "attn_norm.weight",
    "ffn_gate.weight", "ffn_up.weight", "ffn_down.weight", "ffn_norm.weight"]

section

variable (cache : Option ProbeCache) (start : ℕ) (f : Image)

def layerReady (abort : ℕ → ℕ → Bool) (layer : ℕ) : List String → ℕ → Outcome Unit
  | [], _ => .ok ()
  | suffix :: suffixes, k => do
    let _ ← getTensor cache start f (layerName layer suffix) (abort k)
    layerReady abort layer suffixes (k + 1)

def layersReady (abort : ℕ → ℕ → ℕ → Bool) : ℕ → ℕ → Outcome Unit
  | 0, _ => .ok ()
  | n + 1, layer => do
    layerReady cache start f (abort layer) layer requiredSuffixes 0
    layersReady abort n (layer + 1)

/-- `llm_gguf_generation_ready`, where rejecting is not being ready. -/
def generationReady (info : Info) (aliasAbort : ℕ → ℕ → ℕ → Bool) (abort : ℕ → ℕ → ℕ → Bool) :
    Outcome Unit :=
  if info.arch.nVocab = 0 ∨ info.arch.nEmbd = 0 ∨ info.arch.nLayer = 0 ∨ info.arch.nHead = 0 then
    reject
  else do
    let _ ← findTensorAlias cache start f (aliasAbort 0) aliasTokenEmbd 0
    let _ ← findTensorAlias cache start f (aliasAbort 1) aliasOutputNorm 0
    let _ ← findTensorAlias cache start f (aliasAbort 2) aliasOutput 0
    layersReady cache start f abort info.arch.layers 0

def loadTensor (heap : ℕ → Bool) (readOk : Bool) (name : List UInt8) (abort : ℕ → Bool) :
    Outcome ℕ := do
  let t ← getTensor cache start f name abort
  let _ ← loadRequest heap cache start f name abort
  match createCount t.dims with
  | none => reject
  | some count => if readOk then .ok count else reject

def loadView (heap : Bool) (name : List UInt8) (abort : ℕ → Bool) : Outcome View := do
  let t ← getTensor cache start f name abort
  if heap then .ok ⟨t.dims, t.type⟩ else reject

def loadLayer (e : Loading) (layer : ℕ) : Outcome Layer := do
  let norm (k : ℕ) (suffix : String) := attempt (loadTensor cache start f (e.heap layer k)
    (e.readOk layer k) (layerName layer suffix) (e.abort layer k))
  let view (k : ℕ) (suffix : String) := attempt (loadView cache start f (e.heap layer k 0)
    (layerName layer suffix) (e.abort layer k))
  let attnNorm ← norm 0 "attn_norm.weight"
  let ffnNorm ← norm 1 "ffn_norm.weight"
  let ffnGate ← view 2 "ffn_gate.weight"
  let ffnUp ← view 3 "ffn_up.weight"
  let ffnDown ← view 4 "ffn_down.weight"
  let attnQ ← view 5 "attn_q.weight"
  let attnK ← view 6 "attn_k.weight"
  let attnV ← view 7 "attn_v.weight"
  let attnO ← view 8 "attn_output.weight"
  .ok ⟨attnNorm, attnQ, attnK, attnV, attnO, ffnNorm, ffnGate, ffnUp, ffnDown⟩

def loadLayers (e : Loading) : ℕ → ℕ → Outcome (List Layer)
  | 0, _ => .ok []
  | n + 1, layer => do
    let l ← loadLayer cache start f e layer
    let layers ← loadLayers e n (layer + 1)
    .ok (l :: layers)

structure Weights where
  outputNorm : ℕ
  layers : List Layer
  deriving DecidableEq

/-- `llm_load_llama_weights`. The final norm is numbered as a tensor of layer 32. -/
def loadWeights (info : Info) (aliasAbort : ℕ → ℕ → Bool) (e : Loading) : Outcome Weights := do
  let name ← findTensorAlias cache start f aliasAbort aliasOutputNorm 0
  let outputNorm ← loadTensor cache start f (e.heap 32 0) (e.readOk 32 0) name (e.abort 32 0)
  let layers ← loadLayers cache start f e info.arch.layers 0
  .ok ⟨outputNorm, layers⟩

end

def tensorCreate (heap : ℕ → Bool) (dims : List ℕ) : Option ℕ :=
  if heap 0 ∧ heap 1 then createCount dims else none

/-- The buffers of `llm_init_context` that the norms and products use, and the float vectors of
`llm_try_gguf_inference`. `heap k` are the allocations for the `k`-th tensor. -/
def initContext (heap : ℕ → ℕ → Bool) (nEmbd : ℕ) : Buffers where
  h := tensorCreate (heap 0) [1, nEmbd]
  q := tensorCreate (heap 1) [1, nEmbd]
  k := tensorCreate (heap 2) [1, nEmbd]
  v := tensorCreate (heap 3) [1, nEmbd]
  scratch := tensorCreate (heap 4) [1, nEmbd]
  ffnGate := tensorCreate (heap 5) [1, u32 (nEmbd * 4)]
  ffnUp := tensorCreate (heap 6) [1, u32 (nEmbd * 4)]
  hFloat := u32 (nEmbd * 4) / 4
  ffnGateFloat := u32 (u32 (nEmbd * 4) * 4) / 4

/-- A pass over the weights of a file stays in its buffers, whatever happens while the model is
loaded and during the pass, exactly when the shapes that were loaded fit the buffers. -/
theorem forward_indices_iff (cache : Option ProbeCache) (start : ℕ) (f : Image) (info : Info)
    (aliasAbort : ℕ → ℕ → Bool) (e : Loading) (heap : ℕ → ℕ → Bool) :
    (∀ w, loadWeights cache start f info aliasAbort e = .ok w → ∀ around,
      (forwardPass info.arch.nEmbd (initContext heap info.arch.nEmbd) (some w.outputNorm) around
        w.layers).InBounds) ↔
      ∀ w, loadWeights cache start f info aliasAbort e = .ok w →
        LayersFit info.arch.nEmbd (initContext heap info.arch.nEmbd) w.outputNorm w.layers := by
  refine forall_congr' fun w => ?_
  rw [inBounds_forwardPass_iff]

/-- A name that the reader can hold. -/
def NameOk (name : List UInt8) : Prop := name.length ≤ 62 ∧ 0 ∉ name

instance (name : List UInt8) : Decidable (NameOk name) := inferInstanceAs (Decidable (_ ∧ _))

def floatEntry (name : List UInt8) (h : NameOk name) (rows : ℕ) (hrows : rows < 2 ^ 32) :
    TensorEntry :=
  ⟨⟨name, h.1, h.2⟩, [1, rows], GgmlType.f32.code, 0, by simp, by simp, by simpa using hrows,
    by decide⟩

/-- The tensors of a model with one layer and an embedding length of 1, with a query matrix of
eight rows. -/
def wideTensors : List TensorEntry :=
  [floatEntry (layerName 0 "attn_q.weight") (by decide +kernel) 8 (by decide),
    floatEntry (layerName 0 "attn_k.weight") (by decide +kernel) 1 (by decide),
    floatEntry (layerName 0 "attn_v.weight") (by decide +kernel) 1 (by decide),
    floatEntry (layerName 0 "attn_output.weight") (by decide +kernel) 1 (by decide),
    floatEntry (layerName 0 "attn_norm.weight") (by decide +kernel) 1 (by decide),
    floatEntry (layerName 0 "ffn_gate.weight") (by decide +kernel) 1 (by decide),
    floatEntry (layerName 0 "ffn_up.weight") (by decide +kernel) 1 (by decide),
    floatEntry (layerName 0 "ffn_down.weight") (by decide +kernel) 1 (by decide),
    floatEntry (layerName 0 "ffn_norm.weight") (by decide +kernel) 1 (by decide),
    floatEntry (keyBytes "token_embd.weight") (by decide +kernel) 1 (by decide),
    floatEntry (keyBytes "output_norm.weight") (by decide +kernel) 1 (by decide),
    floatEntry (keyBytes "output.weight") (by decide +kernel) 1 (by decide)]

theorem one_lt_word : 1 < 256 ^ 4 := by norm_num

def wideWords : List Entry :=
  [wordEntry "llama.embedding_length" 1 embeddingKey_length embeddingKey_nul one_lt_word,
    wordEntry "llama.block_count" 1 (by decide +kernel) (by decide +kernel) one_lt_word,
    wordEntry "llama.attention.head_count" 1 (by decide +kernel) (by decide +kernel) one_lt_word,
    wordEntry "llama.vocab_size" 1 (by decide +kernel) (by decide +kernel) one_lt_word]

theorem wideTensors_plain :
    ∀ t ∈ wideTensors, t.type = 0 ∧ t.offset = 0 ∧ exactByteSize (1, 4) t.dims ≤ 32 := by
  decide +kernel

theorem wideFile_version : 3 = 2 ∨ 3 = 3 := .inr rfl

def wideFile : ModelFile where
  version := 3
  entries := wideWords
  tensors := wideTensors
  data := List.replicate 32 0
  version_ok := wideFile_version
  entries_le := by decide
  tensors_le := by decide
  keys_distinct := by decide +kernel
  names_distinct := by decide +kernel
  data_inside := by
    intro t ht
    obtain ⟨htype, hoffset, hsize⟩ := wideTensors_plain t ht
    refine ⟨by simp [hoffset], fun block hblock => ?_⟩
    rw [htype] at hblock
    obtain rfl : (1, 4) = block := Option.some.inj hblock
    rw [hoffset, List.length_replicate]
    omega
  size_lt := by decide +kernel

def calm : Loading := ⟨fun _ _ _ => false, fun _ _ _ => true, fun _ _ => true⟩

def wideLayer : Layer :=
  let v : Option View := some ⟨[1, 1], 0⟩
  ⟨some 1, some ⟨[1, 8], 0⟩, v, v, v, some 1, v, v, v⟩

/-- A model that is ready makes the query product write behind the end of its buffer. -/
theorem ready_model_escapes :
    ∃ info w, probeFile wideFile.image = .ok info ∧
      generationReady none 0 wideFile.image info (fun _ _ _ => false) (fun _ _ _ => false) =
        .ok () ∧
      loadWeights none 0 wideFile.image info (fun _ _ => false) calm = .ok w ∧
      ∃ a ∈ (forwardPass info.arch.nEmbd (initContext (fun _ _ => true) info.arch.nEmbd)
        (some w.outputNorm) (fun _ => undisturbed) w.layers).accesses, ¬ a.InBounds := by
  rw [show wideFile.image = _ from Image.ofList_eq _]
  refine ⟨wideFile.info ⟨[], 1, 1, 1, 1, 0, 0, 0, 0x461C4000⟩, ⟨1, [wideLayer]⟩, ?_, ?_, ?_,
    ⟨7, 1⟩, ?_, ?_⟩
  · decide +kernel
  · decide +kernel
  · decide +kernel
  · decide
  · unfold Access.InBounds
    decide

end MicroK.Gguf
