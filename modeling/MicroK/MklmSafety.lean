import MicroK.ByteImage
import MicroK.MachineWords

/-!
# MKLM models: rules and classifiers

The two small backends of the kernel. A model file has a header of 72 bytes and a payload, either
rules of a prompt and a response or a classifier with a vocabulary and weighted classes. The file
lies in memory, so cursors into the payload are 32-bit addresses; a read outside the payload is a
fault. The response is what is written to the caller's buffer, with its terminator.
-/

namespace MicroK.Mklm

/-- A file in memory. It ends below 4 GiB, since `llm_load_model_module` is given its end. -/
structure Module where
  start : ℕ
  file : Image
  end_lt : start + file.size < 2 ^ 32

structure Header where
  magic : ℕ
  version : ℕ
  headerSize : ℕ
  modelType : ℕ
  dataOffset : ℕ
  dataSize : ℕ

def headerBytes : ℕ := 72

def headerOf (f : Image) : Header where
  magic := leValue (f.bytes 0 4)
  version := leValue (f.bytes 4 4)
  headerSize := leValue (f.bytes 8 4)
  modelType := leValue (f.bytes 12 4)
  dataOffset := leValue (f.bytes 32 4)
  dataSize := leValue (f.bytes 36 4)

def modelMagic : ℕ := 0x4D4C4B4D

def typeRules : ℕ := 1

def typeNn : ℕ := 2

def ruleMagic : ℕ := 0x50524B4D

def nnMagic : ℕ := 0x4E4E4B4D

def validateMicrokModel (f : Image) : Bool :=
  let h := headerOf f
  if f.size < headerBytes then false
  else if h.magic ≠ modelMagic then false
  else if h.version ≠ 1 then false
  else if h.headerSize < headerBytes then false
  else if h.dataOffset < h.headerSize then false
  else if f.size < h.dataOffset ∨ f.size - h.dataOffset < h.dataSize then false
  else if h.modelType = typeRules ∧ h.dataSize < 8 then false
  else if h.modelType = typeNn ∧ h.dataSize < 12 then false
  else true

structure Payload where
  base : ℕ
  image : Image

def Payload.stop (p : Payload) : ℕ := u32 (p.base + p.image.size)

variable (m : Module)

def Module.payload : Payload where
  base := u32 (m.start + (headerOf m.file).dataOffset)
  image := ⟨(headerOf m.file).dataSize, fun i => m.file.byte ((headerOf m.file).dataOffset + i)⟩

def Payload.peek (p : Payload) (addr n : ℕ) : Outcome (List UInt8) :=
  if p.base ≤ addr then p.image.readBytes (addr - p.base) n else .fault

def Payload.peekLe (p : Payload) (addr n : ℕ) : Outcome ℕ :=
  if p.base ≤ addr then p.image.readLe (addr - p.base) n else .fault

def int16 (n : ℕ) : ℤ := if n < 2 ^ 15 then n else n - 2 ^ 16

def asciiLower (c : UInt8) : UInt8 := if 0x41 ≤ c ∧ c ≤ 0x5A then c + 0x20 else c

section

variable (p : Payload) (prompt : List UInt8)

def bytesEqualCi (text : List UInt8) (rule : ℕ) : ℕ → ℕ → Outcome Bool
  | 0, _ => pure true
  | left + 1, i => do
    let b ← p.peek (u32 (rule + i)) 1
    if asciiLower (text.getD i 0) ≠ asciiLower (b.getD 0 0) then pure false
    else bytesEqualCi text rule left (i + 1)

def matchLoop (rule ruleLen : ℕ) : ℕ → ℕ → Outcome Bool
  | 0, _ => pure false
  | left + 1, i => do
    if ← bytesEqualCi p (prompt.drop i) rule ruleLen 0 then pure true
    else matchLoop rule ruleLen left (i + 1)

def equalsRule (rule ruleLen : ℕ) : Outcome Bool :=
  if prompt.length = ruleLen then bytesEqualCi p prompt rule ruleLen 0 else pure false

def promptMatchesRule (rule ruleLen : ℕ) : Outcome Bool := do
  if ← equalsRule p prompt rule ruleLen then pure true
  else if ruleLen = 0 ∨ prompt.length < ruleLen then pure false
  else matchLoop p prompt rule ruleLen (prompt.length - ruleLen + 1) 0

def copyLoop : ℕ → ℕ → Outcome (List UInt8)
  | 0, _ => pure [0]
  | left + 1, source => do
    let b ← p.peek source 1
    let rest ← copyLoop left (u32 (source + 1))
    pure (b ++ rest)

def copyResponse (source len : ℕ) : Outcome (List UInt8) := copyLoop p (min len 127) source

def ruleLoop : ℕ → ℕ → Outcome (Option (List UInt8))
  | 0, _ => pure none
  | left + 1, cursor =>
    if p.stop < u32 (cursor + 4) then pure none
    else do
      let promptLen ← p.peekLe cursor 2
      let responseLen ← p.peekLe (u32 (cursor + 2)) 2
      let cursor := u32 (cursor + 4)
      if p.stop < u32 (u32 (cursor + promptLen) + responseLen) then pure none
      else if ← promptMatchesRule p prompt cursor promptLen then do
        let response ← copyResponse p (u32 (cursor + promptLen)) responseLen
        pure (some response)
      else ruleLoop left (u32 (cursor + (promptLen + responseLen)))

def ruleInferenceIn : Outcome (Option (List UInt8)) := do
  let magic ← p.peekLe p.base 4
  if magic ≠ ruleMagic then pure none
  else do
    let count ← p.peekLe (u32 (p.base + 4)) 4
    ruleLoop p prompt count (u32 (p.base + 8))

def addFeature (vocabCount i cursor len : ℕ) (features : List Bool) : Outcome (List Bool) :=
  if i < min vocabCount 32 then do
    let found ← promptMatchesRule p prompt cursor len
    pure (features ++ [found])
  else pure features

def vocabLoop (vocabCount : ℕ) : ℕ → ℕ → ℕ → List Bool → Outcome (Option (ℕ × List Bool))
  | 0, _, cursor, features => pure (some (cursor, features))
  | left + 1, i, cursor, features =>
    if p.stop < u32 (cursor + 2) then pure none
    else do
      let len ← p.peekLe cursor 2
      let cursor := u32 (cursor + 2)
      if p.stop < u32 (cursor + len) then pure none
      else do
        let features ← addFeature p prompt vocabCount i cursor len features
        vocabLoop vocabCount left (i + 1) (u32 (cursor + len)) features

def scoreLoop : List Bool → ℕ → ℤ → Outcome ℤ
  | [], _, score => pure score
  | false :: features, addr, score => scoreLoop features (u32 (addr + 2)) score
  | true :: features, addr, score => do
    let weight ← p.peekLe addr 2
    scoreLoop features (u32 (addr + 2)) (score + int16 weight)

structure Best where
  score : ℤ
  response : Option (ℕ × ℕ)

def Best.start : Best := ⟨-2147483647, none⟩

def classLoop (vocabCount : ℕ) (features : List Bool) : ℕ → ℕ → Best → Outcome (Option Best)
  | 0, _, best => pure (some best)
  | left + 1, cursor, best =>
    if p.stop < u32 (cursor + 4) then pure none
    else do
      let bias ← p.peekLe cursor 2
      let responseLen ← p.peekLe (u32 (cursor + 2)) 2
      let response := u32 (cursor + 4)
      if p.stop < u32 (response + responseLen) then pure none
      else
        let cursor := u32 (response + responseLen)
        if p.stop < u32 (cursor + vocabCount * 2) then pure none
        else do
          let score ← scoreLoop p features cursor (int16 bias)
          classLoop vocabCount features left (u32 (cursor + vocabCount * 2))
            (if best.score < score then ⟨score, some (response, responseLen)⟩ else best)

def bestResponse (best : Best) : Outcome (Option (List UInt8)) :=
  match best.response with
  | none => pure none
  | some (response, responseLen) =>
    if best.score ≤ 0 then pure none
    else do
      let bytes ← copyResponse p response responseLen
      pure (some bytes)

def nnInferenceIn : Outcome (Option (List UInt8)) := do
  let magic ← p.peekLe p.base 4
  let vocabCount ← p.peekLe (u32 (p.base + 4)) 2
  let classCount ← p.peekLe (u32 (p.base + 6)) 2
  if magic ≠ nnMagic ∨ vocabCount = 0 ∨ classCount = 0 then pure none
  else do
    match ← vocabLoop p prompt vocabCount vocabCount 0 (u32 (p.base + 12)) [] with
    | none => pure none
    | some (cursor, features) => do
      match ← classLoop p vocabCount features classCount cursor .start with
      | none => pure none
      | some best => bestResponse p best

end

def tryRuleInference (prompt : List UInt8) : Outcome (Option (List UInt8)) :=
  if (headerOf m.file).modelType ≠ typeRules then pure none
  else ruleInferenceIn m.payload prompt

def tryNnInference (prompt : List UInt8) : Outcome (Option (List UInt8)) :=
  if (headerOf m.file).modelType ≠ typeNn then pure none else nnInferenceIn m.payload prompt

/-- A prompt occurs in a query, letters of either case taken as one. -/
def OccursCi (word query : List UInt8) : Prop := word.map asciiLower <:+: query.map asciiLower

instance (word query : List UInt8) : Decidable (OccursCi word query) :=
  inferInstanceAs (Decidable (_ <:+: _))

/-- The empty prompt is only for the empty query. -/
def Matches (word query : List UInt8) : Prop := (word = [] → query = []) ∧ OccursCi word query

instance (word query : List UInt8) : Decidable (Matches word query) :=
  inferInstanceAs (Decidable (_ ∧ _))

def written (response : List UInt8) : List UInt8 := response.take 127 ++ [0]

def encodeHeader (modelType dataSize : ℕ) (name : List UInt8) : List UInt8 :=
  leBytes 4 modelMagic ++ leBytes 4 1 ++ leBytes 4 72 ++ leBytes 4 modelType ++ leBytes 4 0 ++
    leBytes 4 0 ++ leBytes 4 0 ++ leBytes 4 0 ++ leBytes 4 72 ++ leBytes 4 dataSize ++ name

structure Rule where
  prompt : List UInt8
  response : List UInt8
  prompt_lt : prompt.length < 2 ^ 16
  response_lt : response.length < 2 ^ 16

def Rule.encode (r : Rule) : List UInt8 :=
  leBytes 2 r.prompt.length ++ leBytes 2 r.response.length ++ r.prompt ++ r.response

def buildRulePayload (rules : List Rule) : List UInt8 :=
  leBytes 4 ruleMagic ++ leBytes 4 rules.length ++ rules.flatMap Rule.encode

structure RulesFile where
  name : List UInt8
  rules : List Rule
  name_len : name.length = 32
  size_lt : (buildRulePayload rules).length + 72 < 2 ^ 32

def RulesFile.bytes (f : RulesFile) : List UInt8 :=
  encodeHeader typeRules (buildRulePayload f.rules).length f.name ++ buildRulePayload f.rules

def RulesFile.answer (f : RulesFile) (query : List UInt8) : Option (List UInt8) :=
  (f.rules.find? fun r => decide (Matches r.prompt query)).map fun r => written r.response

structure Word where
  text : List UInt8
  ne_nil : text ≠ []
  len_lt : text.length < 2 ^ 16
  deriving DecidableEq

def Word.encode (w : Word) : List UInt8 := leBytes 2 w.text.length ++ w.text

structure Weight where
  value : ℤ
  low : -2 ^ 15 ≤ value
  high : value < 2 ^ 15

def Weight.encode (w : Weight) : List UInt8 := leBytes 2 (w.value % 2 ^ 16).toNat

structure NnClass where
  bias : Weight
  response : List UInt8
  weights : List Weight
  response_lt : response.length < 2 ^ 16

def NnClass.encode (c : NnClass) : List UInt8 :=
  c.bias.encode ++ leBytes 2 c.response.length ++ c.response ++ c.weights.flatMap Weight.encode

def buildNnPayload (vocab : List Word) (classes : List NnClass) : List UInt8 :=
  leBytes 4 nnMagic ++ leBytes 2 vocab.length ++ leBytes 2 classes.length ++ leBytes 4 0 ++
    vocab.flatMap Word.encode ++ classes.flatMap NnClass.encode

structure NnFile where
  name : List UInt8
  vocab : List Word
  classes : List NnClass
  name_len : name.length = 32
  vocab_pos : 0 < vocab.length
  vocab_le : vocab.length ≤ 32
  classes_pos : 0 < classes.length
  classes_lt : classes.length < 2 ^ 16
  weights_len : ∀ c ∈ classes, c.weights.length = vocab.length
  size_lt : (buildNnPayload vocab classes).length + 72 < 2 ^ 32

def NnFile.bytes (f : NnFile) : List UInt8 :=
  encodeHeader typeNn (buildNnPayload f.vocab f.classes).length f.name ++
    buildNnPayload f.vocab f.classes

def NnFile.score (f : NnFile) (query : List UInt8) (c : NnClass) : ℤ :=
  c.bias.value + (((f.vocab.zip c.weights).filter fun q => decide (OccursCi q.1.text query)).map
    fun q => q.2.value).sum

/-- The first class of maximal score answers, if its score is positive. -/
inductive NnFile.Answers (f : NnFile) (query : List UInt8) : Option (List UInt8) → Prop
  | best {before after : List NnClass} {c : NnClass} (hsplit : f.classes = before ++ c :: after)
      (hbefore : ∀ d ∈ before, f.score query d < f.score query c)
      (hafter : ∀ d ∈ after, f.score query d ≤ f.score query c)
      (hpos : 0 < f.score query c) : f.Answers query (some (written c.response))
  | silent (hneg : ∀ c ∈ f.classes, f.score query c ≤ 0) : f.Answers query none

def defaultWord : Word where
  text := [0x64, 0x65, 0x66, 0x61, 0x75, 0x6C, 0x74]
  ne_nil := by decide
  len_lt := by decide

/-- The words of all prompts in the order in which they come first, at most 32. -/
def scriptVocab (prompts : List (List Word)) : List Word :=
  let vocab := prompts.flatten.eraseDups
  (if vocab = [] then [defaultWord] else vocab).take 32

def zeroWeight : Weight := ⟨0, by norm_num, by norm_num⟩

/-- Ten for a word of the prompt, minus one for any other. -/
def scriptWeight (words : List Word) (w : Word) : Weight :=
  if w ∈ words then ⟨10, by norm_num, by norm_num⟩ else ⟨-1, by norm_num, by norm_num⟩

structure Pair where
  words : List Word
  response : List UInt8
  response_lt : response.length < 2 ^ 16

def scriptClass (vocab : List Word) (q : Pair) : NnClass :=
  ⟨zeroWeight, q.response, vocab.map (scriptWeight q.words), q.response_lt⟩

theorem scriptVocab_pos (prompts : List (List Word)) : 0 < (scriptVocab prompts).length := by
  unfold scriptVocab
  rw [List.length_take]
  refine Nat.lt_min.2 ⟨by norm_num, ?_⟩
  split_ifs with hempty
  · exact Nat.one_pos
  · exact List.length_pos_iff.2 hempty

/-- What `build_nn_payload` writes for tokenized prompts. -/
def scriptFile (name : List UInt8) (hname : name.length = 32) (pairs : List Pair)
    (hpos : 0 < pairs.length) (hlt : pairs.length < 2 ^ 16)
    (hsize : (buildNnPayload (scriptVocab (pairs.map Pair.words))
      (pairs.map (scriptClass (scriptVocab (pairs.map Pair.words))))).length + 72 < 2 ^ 32) :
    NnFile where
  name := name
  vocab := scriptVocab (pairs.map Pair.words)
  classes := pairs.map (scriptClass (scriptVocab (pairs.map Pair.words)))
  name_len := hname
  vocab_pos := scriptVocab_pos _
  vocab_le := List.length_take_le _ _
  classes_pos := by rwa [List.length_map]
  classes_lt := by rwa [List.length_map]
  weights_len := by
    intro c hc
    obtain ⟨q, -, rfl⟩ := List.mem_map.1 hc
    exact List.length_map _
  size_lt := hsize

open Outcome Nat Payload

/-- The largest sum of lengths that is added to a cursor fits behind the payload. -/
def Payload.Clear (p : Payload) : Prop := p.base + p.image.size + 131070 < 2 ^ 32

variable {p : Payload} {prompt : List UInt8}

theorem Payload.peek_base (off n : ℕ) : p.peek (p.base + off) n = p.image.readBytes off n := by
  rw [peek, if_pos (Nat.le_add_right _ _), Nat.add_sub_cancel_left]

theorem Payload.peekLe_base (off n : ℕ) : p.peekLe (p.base + off) n = p.image.readLe off n := by
  rw [peekLe, if_pos (Nat.le_add_right _ _), Nat.add_sub_cancel_left]

theorem Payload.peek_ends {off n : ℕ} (h : off + n ≤ p.image.size) :
    Ends (p.peek (p.base + off) n) fun l => l.length = n :=
  ⟨_, by rw [peek_base, Image.readBytes_eq h], Image.length_bytes _ _ _⟩

theorem Payload.peekLe_ends {off n : ℕ} (h : off + n ≤ p.image.size) :
    Ends (p.peekLe (p.base + off) n) fun v => v < 256 ^ n :=
  ⟨_, by rw [peekLe_base, Image.readLe_eq h], Image.leValue_bytes_lt _ _ _⟩

section

variable (hp : p.Clear)
include hp

variable {off : ℕ}

theorem Payload.Clear.u32_base (h : off ≤ p.image.size + 131070) :
    u32 (p.base + off) = p.base + off := by
  have hend : p.base + p.image.size + 131070 < 2 ^ 32 := hp
  exact u32_of_lt (by omega)

theorem Payload.Clear.stop_eq : p.stop = p.base + p.image.size :=
  hp.u32_base (le_add_right _ _)

theorem Payload.Clear.advance {off k : ℕ} (h : off + k ≤ p.image.size + 131070) :
    u32 (p.base + off + k) = p.base + (off + k) := by
  rw [add_assoc]
  exact hp.u32_base h

theorem bytesEqualCi_ends (text : List UInt8) {off left i : ℕ}
    (h : off + (i + left) ≤ p.image.size) :
    Ends (bytesEqualCi p text (p.base + off) left i) fun _ => True := by
  induction left generalizing i with
  | zero => exact ends_pure trivial
  | succ left ih =>
    rw [bytesEqualCi, hp.advance (by omega)]
    refine ends_bind (peek_ends (by omega)) (fun b _ => ?_)
    exact ends_ite (fun _ => ends_pure trivial) (fun _ => ih (by omega))

theorem matchLoop_ends {off ruleLen : ℕ} (h : off + ruleLen ≤ p.image.size) (left i : ℕ) :
    Ends (matchLoop p prompt (p.base + off) ruleLen left i) fun _ => True := by
  induction left generalizing i with
  | zero => exact ends_pure trivial
  | succ left ih =>
    refine ends_bind (bytesEqualCi_ends hp _ (by omega)) (fun b _ => ?_)
    exact ends_ite (fun _ => ends_pure trivial) (fun _ => ih _)

theorem promptMatchesRule_ends {off ruleLen : ℕ} (h : off + ruleLen ≤ p.image.size) :
    Ends (promptMatchesRule p prompt (p.base + off) ruleLen) fun _ => True := by
  have hequals : Ends (equalsRule p prompt (p.base + off) ruleLen) fun _ => True :=
    ends_ite (fun _ => bytesEqualCi_ends hp _ (by omega)) (fun _ => ends_pure trivial)
  refine ends_bind hequals (fun b _ => ?_)
  refine ends_ite (fun _ => ends_pure trivial) (fun _ => ?_)
  exact ends_ite (fun _ => ends_pure trivial) (fun _ => matchLoop_ends hp h _ _)

theorem copyLoop_ends {off left : ℕ} (h : off + left ≤ p.image.size) :
    Ends (copyLoop p left (p.base + off)) fun l => l.length = left + 1 := by
  induction left generalizing off with
  | zero => exact ends_pure rfl
  | succ left ih =>
    rw [copyLoop, hp.advance (by omega)]
    refine ends_bind (peek_ends (by omega)) (fun b hb => ?_)
    refine ends_bind (ih (by omega)) (fun rest hrest => ends_pure ?_)
    rw [List.length_append, hb, hrest, add_comm]

theorem copyResponse_ends {off len : ℕ} (h : off + len ≤ p.image.size) :
    Ends (copyResponse p (p.base + off) len) fun l => l.length ≤ 128 := by
  obtain ⟨l, hl, hlen⟩ := copyLoop_ends hp (show off + min len 127 ≤ p.image.size by omega)
  exact ⟨l, hl, by omega⟩

def Fits (r : Option (List UInt8)) : Prop := ∀ l, r = some l → l.length ≤ 128

omit hp in
theorem fits_none : Fits none := fun _ h => by cases h

omit hp in
theorem fits_some {l : List UInt8} (h : l.length ≤ 128) : Fits (some l) := by
  intro l' hl
  cases hl
  exact h

theorem answer_ends {off len : ℕ} (h : off + len ≤ p.image.size) :
    Ends (do let response ← copyResponse p (p.base + off) len; pure (some response)) Fits :=
  ends_bind (copyResponse_ends hp h) (fun _ hl => ends_pure (fits_some hl))

theorem ruleLoop_ends (h : off ≤ p.image.size) (left : ℕ) :
    Ends (ruleLoop p prompt left (p.base + off)) Fits := by
  induction left generalizing off with
  | zero => exact ends_pure fits_none
  | succ left ih =>
    rw [ruleLoop, hp.stop_eq, hp.advance (by omega), hp.advance (by omega)]
    refine ends_ite (fun _ => ends_pure fits_none) (fun hentry => ?_)
    refine ends_bind (peekLe_ends (by omega)) (fun promptLen hprompt => ?_)
    refine ends_bind (peekLe_ends (by omega)) (fun responseLen hresponse => ?_)
    dsimp only
    rw [hp.advance (by omega), hp.advance (by omega), hp.advance (by omega)]
    refine ends_ite (fun _ => ends_pure fits_none) (fun hlens => ?_)
    refine ends_bind (promptMatchesRule_ends hp (by omega)) (fun found _ => ?_)
    exact ends_ite (fun _ => answer_ends hp (by omega)) (fun _ => ih (by omega))

theorem ruleInferenceIn_ends (hsize : 8 ≤ p.image.size) :
    Ends (ruleInferenceIn p prompt) Fits := by
  rw [ruleInferenceIn, hp.u32_base (by omega), hp.u32_base (by omega)]
  refine ends_bind (peekLe_ends (show 0 + 4 ≤ p.image.size by omega)) (fun magic _ => ?_)
  refine ends_ite (fun _ => ends_pure fits_none) (fun _ => ?_)
  refine ends_bind (peekLe_ends (by omega)) (fun count _ => ?_)
  exact ruleLoop_ends hp hsize count

theorem addFeature_ends {off len : ℕ} (h : off + len ≤ p.image.size) (vocabCount i : ℕ)
    (features : List Bool) (hfeatures : features.length = min i (min vocabCount 32)) :
    Ends (addFeature p prompt vocabCount i (p.base + off) len features)
      fun l => l.length = min (i + 1) (min vocabCount 32) := by
  refine ends_ite (fun hi => ?_) (fun hi => ends_pure (by omega))
  refine ends_bind (promptMatchesRule_ends hp h) (fun found _ => ends_pure ?_)
  rw [List.length_append, List.length_singleton]
  omega

theorem vocabLoop_ends (vocabCount left : ℕ) {i off : ℕ} (h : off ≤ p.image.size)
    {features : List Bool} (hfeatures : features.length = min i (min vocabCount 32)) :
    Ends (vocabLoop p prompt vocabCount left i (p.base + off) features) fun r =>
      ∀ q, r = some q → ∃ off', q.1 = p.base + off' ∧ off' ≤ p.image.size ∧
        q.2.length = min (i + left) (min vocabCount 32) := by
  induction left generalizing i off features with
  | zero =>
    refine ends_pure (fun q hq => ?_)
    cases hq
    exact ⟨off, rfl, h, hfeatures⟩
  | succ left ih =>
    have hnone : ∀ q : ℕ × List Bool, none = some q → ∃ off', q.1 = p.base + off' ∧
        off' ≤ p.image.size ∧ q.2.length = min (i + (left + 1)) (min vocabCount 32) :=
      fun q hq => by cases hq
    rw [vocabLoop, hp.stop_eq, hp.advance (by omega)]
    refine ends_ite (fun _ => ends_pure hnone) (fun hentry => ?_)
    refine ends_bind (peekLe_ends (by omega)) (fun len hlen => ?_)
    dsimp only
    rw [hp.advance (by omega)]
    refine ends_ite (fun _ => ends_pure hnone) (fun hword => ?_)
    refine ends_bind (addFeature_ends hp (by omega) vocabCount i features hfeatures)
      (fun features' hfeatures' => ?_)
    have hrest := @ih (i + 1) (off + 2 + len) (by omega) features' hfeatures'
    rwa [add_right_comm i 1, add_assoc i] at hrest

theorem scoreLoop_ends (features : List Bool) (score : ℤ)
    (h : off + 2 * features.length ≤ p.image.size) :
    Ends (scoreLoop p features (p.base + off) score) fun _ => True := by
  induction features generalizing off score with
  | nil => exact ends_pure trivial
  | cons feature features ih =>
    rw [List.length_cons] at h
    cases feature with
    | false =>
      rw [scoreLoop, hp.advance (by omega)]
      exact ih score (by omega)
    | true =>
      rw [scoreLoop, hp.advance (by omega)]
      refine ends_bind (peekLe_ends (by omega)) (fun weight _ => ?_)
      exact ih _ (by omega)

def Best.Inside (p : Payload) (best : Best) : Prop :=
  ∀ a len, best.response = some (a, len) → ∃ off, a = p.base + off ∧ off + len ≤ p.image.size

theorem classLoop_ends {vocabCount : ℕ} (hvocab : vocabCount < 2 ^ 16) {features : List Bool}
    (hfeatures : features.length ≤ vocabCount) (left : ℕ) (h : off ≤ p.image.size)
    {best : Best} (hbest : best.Inside p) :
    Ends (classLoop p vocabCount features left (p.base + off) best) fun r =>
      ∀ b, r = some b → b.Inside p := by
  induction left generalizing off best with
  | zero =>
    refine ends_pure (fun b hb => ?_)
    cases hb
    exact hbest
  | succ left ih =>
    have hnone : ∀ b : Best, none = some b → b.Inside p := fun b hb => by cases hb
    rw [classLoop, hp.stop_eq, hp.advance (by omega), hp.advance (by omega)]
    refine ends_ite (fun _ => ends_pure hnone) (fun hentry => ?_)
    refine ends_bind (peekLe_ends (by omega)) (fun bias _ => ?_)
    refine ends_bind (peekLe_ends (by omega)) (fun responseLen hresponse => ?_)
    dsimp only
    rw [hp.advance (by omega)]
    refine ends_ite (fun _ => ends_pure hnone) (fun hresp => ?_)
    rw [hp.advance (by omega)]
    refine ends_ite (fun _ => ends_pure hnone) (fun hweights => ?_)
    refine ends_bind (scoreLoop_ends hp features _ (by omega)) (fun score _ => ?_)
    apply ih (by omega)
    split_ifs
    · intro a len ha
      cases ha
      exact ⟨off + 4, rfl, by omega⟩
    · exact hbest

theorem nnInferenceIn_ends (hsize : 12 ≤ p.image.size) : Ends (nnInferenceIn p prompt) Fits := by
  rw [nnInferenceIn, hp.u32_base (by omega), hp.u32_base (by omega), hp.u32_base (by omega)]
  refine ends_bind (peekLe_ends (show 0 + 4 ≤ p.image.size by omega)) (fun magic _ => ?_)
  refine ends_bind (peekLe_ends (by omega)) (fun vocabCount hvocab => ?_)
  refine ends_bind (peekLe_ends (by omega)) (fun classCount _ => ?_)
  refine ends_ite (fun _ => ends_pure fits_none) (fun _ => ?_)
  refine ends_bind (vocabLoop_ends hp vocabCount vocabCount (i := 0) hsize (by simp))
    (fun r hr => ?_)
  cases r with
  | none => exact ends_pure fits_none
  | some q =>
    obtain ⟨off, hoff, hle, hlen⟩ := hr q rfl
    have hstart : Best.start.Inside p := fun a len ha => by cases ha
    simp only
    rw [hoff]
    refine ends_bind (classLoop_ends hp hvocab (by omega) classCount hle hstart) (fun b hb => ?_)
    cases b with
    | none => exact ends_pure fits_none
    | some best =>
      simp only [bestResponse]
      cases hresponse : best.response with
      | none => exact ends_pure fits_none
      | some a =>
        obtain ⟨off, ha, hin⟩ := hb best rfl a.1 a.2 hresponse
        simp only
        rw [ha]
        exact ends_ite (fun _ => ends_pure fits_none) (fun _ => answer_ends hp hin)

end

structure Accepted (f : Image) : Prop where
  offset_le : (headerOf f).dataOffset ≤ f.size
  data_le : (headerOf f).dataOffset + (headerOf f).dataSize ≤ f.size
  rules_le : (headerOf f).modelType = typeRules → 8 ≤ (headerOf f).dataSize
  nn_le : (headerOf f).modelType = typeNn → 12 ≤ (headerOf f).dataSize

theorem accepted_of_validate {f : Image} (h : validateMicrokModel f = true) : Accepted f := by
  unfold validateMicrokModel at h
  simp only at h
  split_ifs at h with hsize hmagic hversion hheader hoffset hdata hrules hnn
  exact ⟨by omega, by omega, fun ht => not_lt.1 (fun hlt => hrules ⟨ht, hlt⟩),
    fun ht => not_lt.1 (fun hlt => hnn ⟨ht, hlt⟩)⟩

variable {m : Module}

theorem Module.payload_base (h : Accepted m.file) :
    m.payload.base = m.start + (headerOf m.file).dataOffset := by
  have hend := m.end_lt
  have hle := h.offset_le
  exact u32_of_lt (by omega)

/-- The module ends at least 128 KiB below the top of the address space. -/
def Module.Clear (m : Module) : Prop := m.start + m.file.size + 131070 < 2 ^ 32

theorem Module.Clear.payload (hclear : m.Clear) (h : Accepted m.file) : m.payload.Clear := by
  have hend : m.start + m.file.size + 131070 < 2 ^ 32 := hclear
  have hle := h.data_le
  rw [Payload.Clear, Module.payload_base h]
  change _ + (headerOf m.file).dataSize + 131070 < 2 ^ 32
  omega

theorem tryRuleInference_ends (h : Accepted m.file) (hclear : m.Clear)
    (prompt : List UInt8) : Ends (tryRuleInference m prompt) Fits :=
  ends_ite (fun _ => ends_pure fits_none) (fun htype =>
    ruleInferenceIn_ends (hclear.payload h) (h.rules_le (not_not.1 htype)))

theorem tryNnInference_ends (h : Accepted m.file) (hclear : m.Clear)
    (prompt : List UInt8) : Ends (tryNnInference m prompt) Fits :=
  ends_ite (fun _ => ends_pure fits_none) (fun htype =>
    nnInferenceIn_ends (hclear.payload h) (h.nn_le (not_not.1 htype)))

end MicroK.Mklm
