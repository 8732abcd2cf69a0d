import MicroK.MachineWords
import MicroK.SharedSections

/-!
# Text generation with a GGUF model

`llm_try_gguf_inference` works on one context that all its executions share: the position in the
sequence, the hidden state and the other tensors, the caches of keys and values, and the scratch
memory for the rows of the weights. What the tensor operations compute is left to the engine; here
is what a generation does to the context and where it opens an interrupt window, which is in every
call of `llm_generation_cancelled`.
-/

namespace MicroK.Llm

open Coroutine

/-- `tensors` stands for the tensors of `llm_ctx` and the row scratch. -/
structure Context (T : Type) where
  currentPos : ℕ
  tokenizer : Bool
  initialised : Bool
  weightsLoaded : Bool
  tensors : T

/-- What a generation learns from its surroundings: whether the user has asked to stop or a request
for memory has been granted, and the timer ticks so far. -/
structure Answer where
  flag : Bool
  ticks : ℕ

/-- The operations on the tensors `T`, with vectors of floats `F` and logits `L`. Where an operation
can fail it says so, with the tensors as it leaves them. -/
structure Engine (T F L : Type) where
  validGguf : Bool
  nLayer : ℕ
  nEmbd : ℕ
  nVocab : ℕ
  /-- The rows that the output tensor declares, when it has a second dimension. -/
  outputRows : Option ℕ
  bosToken : ℕ
  eosToken : ℕ
  encode : List UInt8 → List ℕ
  word : ℕ → List UInt8
  usable : List UInt8 → Bool
  /-- The texts of failures, as they are copied into the response. -/
  runtimeReason : List UInt8
  outputFailure : List UInt8
  initContext : T → T
  releaseWeights : T → T
  loadWeights : T → T
  embeddingRow : ℕ → T → T × Bool
  hasAttention : ℕ → Bool
  hasOutput : ℕ → Bool
  hasFeedForward : ℕ → Bool
  ffnFits : ℕ → Bool
  attnNorm : ℕ → T → T × Bool
  ffnNorm : ℕ → T → T × Bool
  outputNorm : T → T × Bool
  scratchFloat : T → F
  gateFloat : T → F
  hiddenFloat : T → F
  projectQ : ℕ → F → T → T
  projectK : ℕ → F → T → T
  projectV : ℕ → F → T → T
  projectO : ℕ → F → T → T
  projectGate : ℕ → F → T → T
  projectUp : ℕ → F → T → T
  projectDown : ℕ → F → T → T
  /-- The rotation by the position, the store into the caches and the mix of the cached values. -/
  attend : ℕ → ℕ → T → T
  activate : ℕ → T → T
  addResidual : T → T
  logit : ℕ → F → T → T × Option L
  lowest : L
  penalise : L → L
  exceeds : L → L → Bool

abbrev Generation (T α : Type) : Type := Coroutine (Context T) Answer α

variable {T F L : Type}

def onTensors {α : Type} (f : T → T × α) : Generation T α :=
  atomic fun c => ({ c with tensors := (f c.tensors).1 }, (f c.tensors).2)

def change (f : T → T) : Generation T Unit := onTensors fun t => (f t, ())

def look {α : Type} (f : T → α) : Generation T α := onTensors fun t => (t, f t)

def position : Generation T ℕ := atomic fun c => (c, c.currentPos)

def setPosition (f : ℕ → ℕ) : Generation T Unit :=
  atomic fun c => ({ c with currentPos := f c.currentPos }, ())

/-- `kmalloc`, the loaders and the search for a tensor, which succeed or not. -/
def granted : Generation T Bool := .ask fun a => .done a.flag

variable (e : Engine T F L)

def embedToken (token : ℕ) : Generation T Bool := do
  if ← granted then onTensors (e.embeddingRow token) else return false

def tokenLogit (v : ℕ) (x : F) : Generation T (Option L) := do
  if ← granted then onTensors (e.logit v x) else return none

def timerGetTicks : Generation T ℕ := .ask fun a => .done a.ticks

def timeoutTicks : ℕ := 3000

def timedOut (startTicks ticks : ℕ) : Bool := sub32 ticks startTicks > timeoutTicks

variable (startTicks : ℕ)

/-- `llm_generation_cancelled`: the interrupt window, and what can be seen after it. -/
def generationCancelled : Generation T Bool :=
  .window fun a => .done (a.flag || timedOut startTicks a.ticks)

def text (s : String) : List UInt8 := s.toUTF8.toList

def cancelResponse : Generation T (List UInt8) :=
  .ask fun a => .done <|
    if a.flag then text "LLM: Generation aborted by user."
    else if timedOut startTicks a.ticks then
      text ("LLM: GGUF generation timed out before producing a token. Try llm trace off, a " ++
        "shorter prompt, or a smaller model.")
    else text "LLM: GGUF generation stopped."

variable (startTicks layer : ℕ)

def attentionPass : Generation T Bool := do
  if !(← onTensors (e.attnNorm layer)) then return false
  let x ← look e.scratchFloat
  change (e.projectQ layer x)
  if ← generationCancelled startTicks then return false
  change (e.projectK layer x)
  if ← generationCancelled startTicks then return false
  change (e.projectV layer x)
  if ← generationCancelled startTicks then return false
  let pos ← position
  change (e.attend layer pos)
  let mixed ← look e.scratchFloat
  if e.hasOutput layer then
    change (e.projectO layer mixed)
    if ← generationCancelled startTicks then return false
    change e.addResidual
  return true

def feedForwardPass : Generation T Bool := do
  if !(← onTensors (e.ffnNorm layer)) then return false
  let x ← look e.scratchFloat
  change (e.projectGate layer x)
  if ← generationCancelled startTicks then return false
  change (e.projectUp layer x)
  if ← generationCancelled startTicks then return false
  if !e.ffnFits layer then return false
  change (e.activate layer)
  let gate ← look e.gateFloat
  change (e.projectDown layer gate)
  if ← generationCancelled startTicks then return false
  change e.addResidual
  return true

def layerPass : Generation T Bool := do
  if ← generationCancelled startTicks then return false
  if e.hasAttention layer then
    if !(← attentionPass e startTicks layer) then return false
  if e.hasFeedForward layer then
    if !(← feedForwardPass e startTicks layer) then return false
  return true

/-- The layers from number `layer` on, of which `n` are left. -/
def layersPass (e : Engine T F L) (startTicks : ℕ) : ℕ → ℕ → Generation T Bool
  | _, 0 => return true
  | layer, n + 1 => do
    if ← layerPass e startTicks layer then layersPass e startTicks (layer + 1) n else return false

def runLlamaForwardPass : Generation T Bool := do
  if ← layersPass e startTicks 0 (min e.nLayer 32) then onTensors e.outputNorm else return false

/-- The embedding of a token goes through the layers. The result is the response of a generation
that ends here. -/
def ingestToken (startTicks token : ℕ) : Generation T (Option (List UInt8)) := do
  if !(← embedToken e token) then return some e.runtimeReason
  if ← runLlamaForwardPass e startTicks then return none
  if ← generationCancelled startTicks then
    return some (← cancelResponse startTicks)
  return some (text "LLM: GGUF forward pass failed.")

def ingestPrompt (e : Engine T F L) (startTicks : ℕ) :
    List ℕ → Generation T (Option (List UInt8))
  | [] => return none
  | token :: tokens => do
    match ← ingestToken e startTicks token with
    | some response => return some response
    | none =>
      setPosition (· + 1)
      ingestPrompt e startTicks tokens

def vocabularyLimit : ℕ :=
  let limit := min 65536 e.nVocab
  match e.outputRows with
  | some rows => min limit rows
  | none => limit

/-- The penalty for a token that is among the last four. -/
def penalty (recent : List ℕ) (v : ℕ) (logit : L) : L :=
  (recent.take 4).foldl (fun l token => if v = token ∧ v ≠ 0 then e.penalise l else l) logit

/-- The scan of the vocabulary from token `v` on, of which `n` are left, with the best token so far
and its logit. A response ends the generation. -/
def scanVocabulary (e : Engine T F L) (startTicks : ℕ) (x : F) (recent : List ℕ) :
    ℕ → ℕ → Option ℕ → L → Generation T (List UInt8 ⊕ Option ℕ × L)
  | _, 0, best, top => return .inr (best, top)
  | v, n + 1, best, top => do
    if ← generationCancelled startTicks then
      return .inl (← cancelResponse startTicks)
    if !e.usable (e.word v) then scanVocabulary e startTicks x recent (v + 1) n best top
    else
      match ← tokenLogit e v x with
      | none => return .inl e.outputFailure
      | some logit =>
        let logit := penalty e recent v logit
        if e.exceeds logit top then scanVocabulary e startTicks x recent (v + 1) n (some v) logit
        else scanVocabulary e startTicks x recent (v + 1) n best top

def firstTextToken : ℕ := 3

def nextToken (recent : List ℕ) :
    Generation T (List UInt8 ⊕ Option ℕ) := do
  let x ← look e.hiddenFloat
  let limit := vocabularyLimit e
  match ← scanVocabulary e startTicks x recent firstTextToken (limit - firstTextToken) none
    e.lowest with
  | .inl response => return .inl response
  | .inr (none, _) => return .inr none
  | .inr (some best, top) =>
    let eosLogit ← tokenLogit e e.eosToken x
    if e.exceeds (eosLogit.getD e.lowest) top then return .inr none
    else return .inr (some best)

def appendStr (response word : List UInt8) : List UInt8 :=
  (response ++ word.takeWhile (· ≠ 0)).take 127

/-- The generation loop with room for `n` more tokens. `recent` are the generated tokens, the last
one first. The result is the response, and whether it is the text generated or a message. -/
def generateLoop (e : Engine T F L) (startTicks : ℕ) :
    ℕ → ℕ → List ℕ → List UInt8 → Generation T (List UInt8 ⊕ List UInt8 × ℕ)
  | 0, _, recent, response => return .inr (response, recent.length)
  | n + 1, lastToken, recent, response => do
    match ← ingestToken e startTicks lastToken with
    | some message => return .inl message
    | none =>
      match ← nextToken e startTicks recent with
      | .inl message => return .inl message
      | .inr none => return .inr (response, recent.length)
      | .inr (some best) =>
        if e.word best = [] then return .inr (response, recent.length)
        else
          let response := appendStr response (e.word best)
          if response.length + 1 ≥ 128 then return .inr (response, recent.length)
          else
            setPosition (· + 1)
            generateLoop e startTicks n best (best :: recent) response

def generationTokenLimit : ℕ :=
  if e.nLayer ≥ 8 ∨ e.nEmbd ≥ 512 then 16 else if e.nLayer ≥ 4 ∨ e.nEmbd ≥ 256 then 32 else 48

/-- The part of a generation that begins with the reset of the position. -/
def generate (tokens : List ℕ) : Generation T (List UInt8) := do
  let startTicks ← timerGetTicks
  setPosition fun _ => 0
  match ← ingestPrompt e startTicks (e.bosToken :: tokens.dropLast) with
  | some message => return message
  | none =>
    if !(← granted) then return text "LLM: output tensor alias not found."
    else if !(← granted) then return text "LLM: output tensor info not found."
    else
      match ← generateLoop e startTicks (generationTokenLimit e) (tokens.getLastD 0) [] [] with
      | .inl message => return message
      | .inr (response, count) =>
        if count = 0 then
          return text ("LLM: GGUF generative pass ran but produced no usable text tokens. Try a " ++
            "different prompt or check llm info.")
        else return response

def ensureTokenizer : Generation T Bool := do
  if ← atomic fun c => (c, c.tokenizer) then return true
  let created ← granted
  atomic fun c => ({ c with tokenizer := created }, ())
  return created

def ensureWeights : Generation T Bool := do
  if ← atomic fun c => (c, c.weightsLoaded) then return true
  change e.releaseWeights
  change e.loadWeights
  let loaded ← granted
  if loaded then atomic fun c => ({ c with weightsLoaded := true }, ())
  return loaded

/-- `llm_try_gguf_inference`. Without a response the caller's buffer is left as it is. -/
def llmTryGgufInference (prompt : List UInt8) :
    Generation T (Option (List UInt8)) := do
  if !e.validGguf then return none
  if !(← ensureTokenizer) then return some (text "LLM: GGUF tokenizer unavailable.")
  let tokens := e.encode prompt
  if tokens.isEmpty then return none
  if !(← atomic fun c => (c, c.initialised)) then
    atomic fun c =>
      ({ c with initialised := true, currentPos := 0, tensors := e.initContext c.tensors }, ())
  if !(← ensureWeights e) then
    if e.runtimeReason ≠ [] then return some e.runtimeReason
    else return some (text "LLM: GGUF weights could not be loaded for generation.")
  if !(← granted) then return some (text "LLM: Failed to allocate FPU buffer.")
  if !(← granted) then return some (text "LLM: Failed to allocate FPU buffer.")
  return some (← generate e tokens)

end MicroK.Llm
