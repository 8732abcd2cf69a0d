import MicroK.MklmSafety

/-!
# Inference over whole files

The loop over the classes of a file keeps the first class of maximal score. With the header in
front of the payload, this and the rule loop give the answers of whole files.
-/

namespace MicroK.Mklm

open List Image Outcome Nat

variable {p : Payload} {query : List UInt8}

/-- The payload does not reach the top of the address space. -/
def Payload.Placed (p : Payload) : Prop := p.base + p.image.size < 2 ^ 32

variable {off : ℕ}

section

variable (hp : p.Placed)
include hp

theorem Payload.Placed.u32_base (h : off ≤ p.image.size) : u32 (p.base + off) = p.base + off := by
  have hend : p.base + p.image.size < 2 ^ 32 := hp
  exact u32_of_lt (by omega)

theorem Payload.Placed.advance {k : ℕ} (h : off + k ≤ p.image.size) :
    u32 (p.base + off + k) = p.base + (off + k) := by
  rw [add_assoc]
  exact hp.u32_base h

theorem Payload.Placed.stop_eq : p.stop = p.base + p.image.size := u32_of_lt hp

theorem bytesEqualCi_holds (text : List UInt8) (rest : List UInt8) {i : ℕ}
    (hrest : p.image.Holds (off + i) rest) (hlen : i + rest.length ≤ text.length) :
    bytesEqualCi p text (p.base + off) rest.length i =
      .ok (decide (rest.map asciiLower <+: (text.drop i).map asciiLower)) := by
  induction rest generalizing i with
  | nil => simp [bytesEqualCi, pure]
  | cons b rest ih =>
    have hsplit : p.image.Holds (off + i) ([b] ++ rest) := hrest
    rw [holds_append] at hsplit
    obtain ⟨hhead, htail⟩ := hsplit
    have hend := hhead.1
    rw [length_cons] at hlen
    have hread : p.peek (p.base + (off + i)) 1 = .ok [b] := by
      exact (Payload.peek_base _ _).trans (hhead.readBytes (n := 1) le_rfl)
    have hdrop : text.drop i = text.getD i 0 :: text.drop (i + 1) := by
      rw [drop_eq_getElem_cons (by omega), getD_eq_getElem _ _ (by omega)]
    rw [length_cons, bytesEqualCi, hp.advance (by omega), hread, ok_bind, hdrop,
      map_cons, map_cons]
    simp only [getD_cons_zero, cons_prefix_cons]
    by_cases heq : asciiLower b = asciiLower (text.getD i 0)
    · rw [if_neg (not_not.2 heq.symm), ih htail (by omega)]
      simp only [heq, true_and]
    · rw [if_pos (fun h => heq h.symm)]
      simp only [heq, false_and, decide_false]
      rfl

theorem matchLoop_holds {rule : List UInt8} (hrule : p.image.Holds off rule) (left i : ℕ)
    (hlen : i + left + rule.length ≤ query.length + 1) :
    matchLoop p query (p.base + off) rule.length left i =
      .ok (decide (∃ j < left,
        rule.map asciiLower <+: (query.drop (i + j)).map asciiLower)) := by
  induction left generalizing i with
  | zero => simp [matchLoop, pure]
  | succ left ih =>
    have hequal := bytesEqualCi_holds hp (query.drop i) rule (i := 0) hrule
      (by rw [length_drop]; omega)
    rw [drop_zero] at hequal
    rw [matchLoop, hequal, ok_bind, ih (i + 1) (by omega)]
    simp only [decide_eq_true_eq]
    by_cases hhere : rule.map asciiLower <+: (query.drop i).map asciiLower
    · rw [if_pos hhere]
      exact congrArg Outcome.ok (decide_eq_true ⟨0, succ_pos left, hhere⟩).symm
    · rw [if_neg hhere]
      refine congrArg Outcome.ok (decide_eq_decide.2 ⟨?_, ?_⟩)
      · rintro ⟨j, hj, hpre⟩
        exact ⟨j + 1, succ_lt_succ hj, by rwa [add_right_comm] at hpre⟩
      · rintro ⟨j, hj, hpre⟩
        cases j with
        | zero => exact absurd hpre hhere
        | succ j => exact ⟨j, lt_of_succ_lt_succ hj, by rwa [add_right_comm]⟩

omit hp in
theorem occursCi_iff {word : List UInt8} (hlen : word.length ≤ query.length) :
    OccursCi word query ↔ ∃ j < query.length - word.length + 1,
      word.map asciiLower <+: (query.drop j).map asciiLower := by
  rw [OccursCi, infix_iff_prefix_suffix]
  constructor
  · rintro ⟨t, hpre, hsuf⟩
    have hle := hpre.length_le
    have hle' := hsuf.length_le
    rw [length_map] at hle hle'
    refine ⟨query.length - t.length, by omega, ?_⟩
    rw [suffix_iff_eq_drop, length_map] at hsuf
    rwa [map_drop, ← hsuf]
  · rintro ⟨j, -, hpre⟩
    refine ⟨_, hpre, ?_⟩
    rw [map_drop]
    exact drop_suffix _ _

theorem promptMatchesRule_holds {rule : List UInt8} (hrule : p.image.Holds off rule) :
    promptMatchesRule p query (p.base + off) rule.length = .ok (decide (Matches rule query)) := by
  have hequals : equalsRule p query (p.base + off) rule.length = .ok (decide
      (query.length = rule.length ∧ rule.map asciiLower <+: query.map asciiLower)) := by
    rw [equalsRule]
    split_ifs with hlen
    · rw [bytesEqualCi_holds hp query rule (i := 0) hrule (by omega), drop_zero]
      simp only [hlen, true_and]
    · simp only [hlen, false_and, decide_false]
      rfl
  rw [promptMatchesRule, hequals, ok_bind]
  simp only [decide_eq_true_eq]
  by_cases hwhole : query.length = rule.length ∧ rule.map asciiLower <+: query.map asciiLower
  · have hmatch : Matches rule query := by
      refine ⟨fun hnil => ?_, hwhole.2.isInfix⟩
      rw [hnil] at hwhole
      exact length_eq_zero_iff.1 hwhole.1
    rw [if_pos hwhole]
    exact congrArg Outcome.ok (decide_eq_true hmatch).symm
  · rw [if_neg hwhole]
    by_cases hshort : rule.length = 0 ∨ query.length < rule.length
    · have hmiss : ¬ Matches rule query := by
        rintro ⟨hnil, hoccurs⟩
        rcases hshort with hzero | hlt
        · have hempty := length_eq_zero_iff.1 hzero
          refine hwhole ⟨?_, ?_⟩
          · rw [hnil hempty, hempty]
          · rw [hempty]
            exact nil_prefix
        · have hle := hoccurs.length_le
          rw [length_map, length_map] at hle
          omega
      rw [if_pos hshort]
      exact congrArg Outcome.ok (decide_eq_false hmiss).symm
    · rw [if_neg hshort, matchLoop_holds hp hrule _ _ (by omega)]
      have hnil : rule = [] → query = [] := fun h => absurd (.inl (by rw [h]; rfl)) hshort
      refine congrArg Outcome.ok (decide_eq_decide.2 ?_)
      rw [Matches, occursCi_iff (by omega)]
      simp only [zero_add]
      exact ⟨fun h => ⟨hnil, h⟩, fun h => h.2⟩

theorem copyLoop_holds (left : ℕ) {l : List UInt8} (hl : p.image.Holds off l)
    (hle : left ≤ l.length) : copyLoop p left (p.base + off) = .ok (l.take left ++ [0]) := by
  induction left generalizing off l with
  | zero => rfl
  | succ left ih =>
    cases l with
    | nil => exact absurd hle (by simp)
    | cons b l =>
      have hsplit : p.image.Holds off ([b] ++ l) := hl
      rw [holds_append] at hsplit
      obtain ⟨hhead, htail⟩ := hsplit
      have hend := hhead.1
      rw [length_singleton] at hend htail
      have hread : p.peek (p.base + off) 1 = .ok [b] :=
        (Payload.peek_base _ _).trans (hhead.readBytes (n := 1) le_rfl)
      rw [copyLoop, hread, ok_bind, hp.advance hend,
        ih htail (le_of_succ_le_succ hle), ok_bind]
      rfl

theorem copyResponse_holds {response : List UInt8} (hr : p.image.Holds off response) :
    copyResponse p (p.base + off) response.length = .ok (written response) := by
  rw [copyResponse, copyLoop_holds hp _ hr (min_le_left _ _), written, min_comm,
    ← take_eq_take_min]

end

variable {p : Payload} {query : List UInt8}

theorem peekLe_holds {off n v : ℕ} (h : p.image.Holds off (leBytes n v)) (hv : v < 256 ^ n) :
    p.peekLe (p.base + off) n = .ok v := by
  rw [Payload.peekLe_base, h.readLe hv]

@[simp] theorem Rule.length_encode (r : Rule) :
    r.encode.length = 4 + r.prompt.length + r.response.length := by
  simp only [Rule.encode, length_append, length_leBytes]

variable {off : ℕ}

theorem Rule.holds_parts {r : Rule} (h : p.image.Holds off r.encode) :
    p.image.Holds off (leBytes 2 r.prompt.length) ∧
      p.image.Holds (off + 2) (leBytes 2 r.response.length) ∧ p.image.Holds (off + 4) r.prompt ∧
      p.image.Holds (off + 4 + r.prompt.length) r.response := by
  simp only [Rule.encode, holds_append, length_append, length_leBytes,
    ← add_assoc] at h
  exact ⟨h.1.1.1, h.1.1.2, h.1.2, h.2⟩

section

variable (hp : p.Placed)
include hp

theorem ruleLoop_holds (rules : List Rule) (h : p.image.Holds off (rules.flatMap Rule.encode)) :
    ruleLoop p query rules.length (p.base + off) =
      .ok ((rules.find? fun r => decide (Matches r.prompt query)).map
        fun r => written r.response) := by
  induction rules generalizing off with
  | nil => rfl
  | cons r rules ih =>
    rw [flatMap_cons, holds_append, Rule.length_encode] at h
    obtain ⟨hrule, hrules⟩ := h
    obtain ⟨hplen, hrlen, hprompt, hresponse⟩ := Rule.holds_parts hrule
    have hend := hresponse.1
    have hpl := r.prompt_lt
    have hrl := r.response_lt
    rw [length_cons, ruleLoop, hp.stop_eq, hp.advance (by omega), hp.advance (by omega),
      if_neg (by omega), peekLe_holds hplen (by omega), ok_bind,
      peekLe_holds hrlen (by omega), ok_bind]
    dsimp only
    rw [hp.advance (by omega), hp.advance (by omega), hp.advance (by omega), if_neg (by omega),
      promptMatchesRule_holds hp hprompt, ok_bind]
    by_cases hmatch : Matches r.prompt query
    · rw [if_pos (decide_eq_true hmatch), copyResponse_holds hp hresponse, ok_bind,
        find?_cons, decide_eq_true hmatch]
      rfl
    · rw [if_neg (by simpa using hmatch), find?_cons, decide_eq_false hmatch]
      apply ih
      rwa [show off + 4 + (r.prompt.length + r.response.length) =
        off + (4 + r.prompt.length + r.response.length) by omega]

theorem ruleInferenceIn_holds {rules : List Rule}
    (h : p.image.Holds 0 (buildRulePayload rules)) (hcount : rules.length < 2 ^ 32) :
    ruleInferenceIn p query = .ok ((rules.find? fun r => decide (Matches r.prompt query)).map
      fun r => written r.response) := by
  simp only [buildRulePayload, holds_append, length_append, length_leBytes,
    zero_add] at h
  obtain ⟨⟨hmagic, hlen⟩, hrules⟩ := h
  have hend := hrules.1
  have hread : p.peekLe p.base 4 = .ok ruleMagic := peekLe_holds hmagic (by decide)
  rw [ruleInferenceIn, hread, ok_bind, if_neg (by simp), hp.u32_base (by omega),
    peekLe_holds hlen (by omega), ok_bind, hp.u32_base (by omega)]
  exact ruleLoop_holds hp rules hrules

omit hp in
theorem Word.matches_iff (w : Word) : Matches w.text query ↔ OccursCi w.text query :=
  ⟨fun h => h.2, fun h => ⟨fun hnil => absurd hnil w.ne_nil, h⟩⟩

theorem vocabLoop_holds {vocabCount : ℕ} (hle : vocabCount ≤ 32) (words : List Word) {i off : ℕ}
    (hi : i + words.length = vocabCount) (features : List Bool)
    (h : p.image.Holds off (words.flatMap Word.encode)) :
    vocabLoop p query vocabCount words.length i (p.base + off) features =
      .ok (some (p.base + (off + (words.flatMap Word.encode).length),
        features ++ words.map fun w => decide (OccursCi w.text query))) := by
  induction words generalizing i off features with
  | nil =>
    rw [map_nil, append_nil]
    rfl
  | cons w words ih =>
    rw [length_cons] at hi
    rw [flatMap_cons, holds_append] at h
    obtain ⟨hword, hwords⟩ := h
    rw [Word.encode, holds_append, length_leBytes] at hword
    obtain ⟨hlen, htext⟩ := hword
    have hend := htext.1
    have hlt := w.len_lt
    have hfeature : addFeature p query vocabCount i (p.base + (off + 2)) w.text.length features =
        .ok (features ++ [decide (OccursCi w.text query)]) := by
      rw [addFeature, if_pos (by omega), promptMatchesRule_holds hp htext, ok_bind]
      simp only [w.matches_iff]
      rfl
    have hwordLen : w.encode.length = 2 + w.text.length := by
      rw [Word.encode, length_append, length_leBytes]
    rw [length_cons, vocabLoop, hp.stop_eq, hp.advance (by omega), if_neg (by omega),
      peekLe_holds hlen (by omega), ok_bind]
    dsimp only
    rw [hp.advance (by omega), if_neg (by omega), hfeature, ok_bind, add_assoc off,
      ← hwordLen, ih (by omega) _ hwords, flatMap_cons, length_append, map_cons,
      append_assoc, add_assoc off]
    rfl

omit hp in
theorem int16_encode (w : Weight) : int16 (w.value % 2 ^ 16).toNat = w.value := by
  have hlow := w.low
  have hhigh := w.high
  unfold int16
  split_ifs <;> omega

omit hp in
theorem peekLe_weight {w : Weight} (h : p.image.Holds off w.encode) :
    p.peekLe (p.base + off) 2 = .ok (w.value % 2 ^ 16).toNat :=
  peekLe_holds h (by omega)

omit hp in
@[simp] theorem Weight.length_encode (w : Weight) : w.encode.length = 2 := length_leBytes _ _

theorem scoreLoop_holds (words : List Word) (weights : List Weight)
    (hlen : weights.length = words.length) (score : ℤ)
    (h : p.image.Holds off (weights.flatMap Weight.encode)) :
    scoreLoop p (words.map fun w => decide (OccursCi w.text query)) (p.base + off) score =
      .ok (score + (((words.zip weights).filter fun q => decide (OccursCi q.1.text query)).map
        fun q => q.2.value).sum) := by
  induction words generalizing weights off score with
  | nil => simp [scoreLoop, pure]
  | cons w words ih =>
    cases weights with
    | nil => cases hlen
    | cons v weights =>
      rw [flatMap_cons, holds_append, Weight.length_encode] at h
      obtain ⟨hweight, hweights⟩ := h
      have hend := hweights.1
      have hrest := fun s => ih weights (Nat.succ.inj hlen) s hweights
      by_cases hoccurs : OccursCi w.text query
      · rw [map_cons, decide_eq_true hoccurs, scoreLoop, peekLe_weight hweight,
          ok_bind, hp.advance (by omega), hrest, int16_encode, zip_cons_cons,
          filter_cons_of_pos (by simpa using hoccurs), map_cons, sum_cons,
          Int.add_assoc]
      · rw [map_cons, decide_eq_false hoccurs, scoreLoop, hp.advance (by omega), hrest,
          zip_cons_cons, filter_cons_of_neg (by simpa using hoccurs)]

end

open Outcome

/-- The best of the classes seen so far, with the place of its response in the payload. -/
inductive BestOf (f : NnFile) (p : Payload) (query : List UInt8) : List NnClass → Best → Prop
  | start : BestOf f p query [] .start
  | best {before after : List NnClass} {c : NnClass} {off : ℕ}
      (hbefore : ∀ d ∈ before, f.score query d < f.score query c)
      (hafter : ∀ d ∈ after, f.score query d ≤ f.score query c)
      (hresponse : p.image.Holds off c.response) :
      BestOf f p query (before ++ c :: after)
        ⟨f.score query c, some (p.base + off, c.response.length)⟩

variable {f : NnFile} {p : Payload} {query : List UInt8}
variable {best : Best} {off modelType : ℕ} {name : List UInt8} {m : Module}

theorem BestOf.next {seen : List NnClass} (h : BestOf f p query seen best) {d : NnClass}
    (hlow : -2147483647 < f.score query d) (hd : p.image.Holds off d.response) :
    BestOf f p query (seen ++ [d]) (if best.score < f.score query d then
      ⟨f.score query d, some (p.base + off, d.response.length)⟩ else best) := by
  cases h with
  | start =>
    rw [if_pos (show Best.start.score < f.score query d from hlow)]
    exact @BestOf.best f p query [] [] d off (by simp) (by simp) hd
  | @best before after c off' hbefore hafter hresponse =>
    split_ifs with hlt
    · refine .best (fun e he => ?_) (by simp) hd
      rcases mem_append.1 he with he | he
      · exact (hbefore e he).trans hlt
      · rcases mem_cons.1 he with rfl | he
        · exact hlt
        · exact (hafter e he).trans_lt hlt
    · rw [append_assoc, cons_append]
      refine .best hbefore (fun e he => ?_) hresponse
      rcases mem_append.1 he with he | he
      · exact hafter e he
      · rw [mem_singleton.1 he]
        exact not_lt.1 hlt

theorem sum_weights_ge {α : Type} (l : List (α × Weight)) :
    -2 ^ 15 * (l.length : ℤ) ≤ (l.map fun q => q.2.value).sum := by
  induction l with
  | nil => simp
  | cons q l ih =>
    have hlow := q.2.low
    rw [map_cons, sum_cons, length_cons]
    omega

theorem NnFile.score_gt (f : NnFile) (query : List UInt8) (c : NnClass) :
    -2147483647 < f.score query c := by
  have hlow := c.bias.low
  have hsum := sum_weights_ge
    ((f.vocab.zip c.weights).filter fun q => decide (OccursCi q.1.text query))
  have hfilter := length_filter_le (fun q : Word × Weight =>
    decide (OccursCi q.1.text query)) (f.vocab.zip c.weights)
  have hzip : (f.vocab.zip c.weights).length ≤ f.vocab.length := by
    rw [length_zip]
    exact min_le_left _ _
  have hvocab := f.vocab_le
  rw [NnFile.score]
  omega

theorem NnClass.holds_parts {c : NnClass} (h : p.image.Holds off c.encode) :
    p.image.Holds off c.bias.encode ∧ p.image.Holds (off + 2) (leBytes 2 c.response.length) ∧
      p.image.Holds (off + 4) c.response ∧
      p.image.Holds (off + 4 + c.response.length) (c.weights.flatMap Weight.encode) := by
  simp only [NnClass.encode, holds_append, length_append, length_leBytes,
    Weight.length_encode, ← add_assoc] at h
  exact ⟨h.1.1.1, h.1.1.2, h.1.2, h.2⟩

theorem length_weights (weights : List Weight) :
    (weights.flatMap Weight.encode).length = weights.length * 2 := by
  induction weights with
  | nil => rfl
  | cons w weights ih =>
    rw [flatMap_cons, length_append, Weight.length_encode, ih, length_cons]
    omega

theorem NnClass.length_encode (c : NnClass) :
    c.encode.length = 4 + c.response.length + c.weights.length * 2 := by
  simp only [NnClass.encode, length_append, length_leBytes, Weight.length_encode,
    length_weights]

section

variable (hp : p.Placed)
include hp

theorem classLoop_holds (classes : List NnClass)
    (hweights : ∀ c ∈ classes, c.weights.length = f.vocab.length)
    (h : p.image.Holds off (classes.flatMap NnClass.encode)) {seen : List NnClass}
    (hbest : BestOf f p query seen best) :
    Ends (classLoop p f.vocab.length (f.vocab.map fun w => decide (OccursCi w.text query))
      classes.length (p.base + off) best) fun r =>
        ∃ b, r = some b ∧ BestOf f p query (seen ++ classes) b := by
  induction classes generalizing off seen best with
  | nil =>
    rw [append_nil]
    exact ends_pure ⟨best, rfl, hbest⟩
  | cons c classes ih =>
    have hlen := hweights c mem_cons_self
    rw [flatMap_cons, holds_append, NnClass.length_encode, hlen] at h
    obtain ⟨hclass, hclasses⟩ := h
    obtain ⟨hbias, hrlen, hresponse, hw⟩ := NnClass.holds_parts hclass
    have hend := hclasses.1
    have hrl := c.response_lt
    rw [length_cons, classLoop, hp.stop_eq, hp.advance (by omega), hp.advance (by omega),
      if_neg (by omega), peekLe_weight hbias, ok_bind, peekLe_holds hrlen (by omega), ok_bind]
    dsimp only
    rw [hp.advance (by omega), if_neg (by omega), hp.advance (by omega), if_neg (by omega),
      scoreLoop_holds hp f.vocab c.weights hlen _ hw, ok_bind, int16_encode]
    have hnext := hbest.next (f.score_gt query c) hresponse
    rw [show seen ++ c :: classes = seen ++ [c] ++ classes by simp]
    refine ih (fun d hd => hweights d (.tail _ hd)) ?_ hnext
    rwa [show off + 4 + c.response.length + f.vocab.length * 2 =
      off + (4 + c.response.length + f.vocab.length * 2) by omega]

theorem bestResponse_holds (h : BestOf f p query f.classes best) :
    Ends (bestResponse p best) (f.Answers query) := by
  generalize hclasses : f.classes = classes at h
  cases h with
  | start => exact absurd f.classes_pos (by rw [hclasses]; exact lt_irrefl 0)
  | @best before after c off hbefore hafter hresponse =>
    refine ends_ite (fun hneg => ends_pure (.silent (fun d hd => ?_))) (fun hpos => ?_)
    · rw [hclasses] at hd
      rcases mem_append.1 hd with hd | hd
      · exact (hbefore d hd).le.trans hneg
      · rcases mem_cons.1 hd with rfl | hd
        · exact hneg
        · exact (hafter d hd).trans hneg
    · rw [copyResponse_holds hp hresponse, ok_bind]
      exact ends_pure (.best hclasses hbefore hafter (not_le.1 hpos))

theorem nnInferenceIn_holds (f : NnFile)
    (h : p.image.Holds 0 (buildNnPayload f.vocab f.classes)) :
    Ends (nnInferenceIn p query) (f.Answers query) := by
  simp only [buildNnPayload, holds_append, length_append, length_leBytes,
    zero_add] at h
  obtain ⟨⟨⟨⟨⟨hmagic, hvocab⟩, hclass⟩, -⟩, hwords⟩, hclasses⟩ := h
  have hend := hwords.1
  have hle := f.vocab_le
  have hlt := f.classes_lt
  have hread : p.peekLe p.base 4 = .ok nnMagic := peekLe_holds hmagic (by decide)
  have hcounts : ¬ (nnMagic ≠ nnMagic ∨ f.vocab.length = 0 ∨ f.classes.length = 0) := by
    rintro (hne | hzero | hzero)
    · exact hne rfl
    · exact f.vocab_pos.ne' hzero
    · exact f.classes_pos.ne' hzero
  rw [nnInferenceIn, hread, ok_bind, hp.u32_base (by omega), peekLe_holds hvocab (by omega),
    ok_bind, hp.u32_base (by omega), peekLe_holds hclass (by omega), ok_bind, if_neg hcounts,
    hp.u32_base (by omega), vocabLoop_holds hp hle f.vocab (zero_add _) [] hwords, ok_bind]
  refine ends_bind (classLoop_holds hp f.classes f.weights_len hclasses .start) (fun r hr => ?_)
  obtain ⟨b, rfl, hb⟩ := hr
  exact bestResponse_holds hp hb

end

theorem length_encodeHeader (modelType dataSize : ℕ) (hname : name.length = 32) :
    (encodeHeader modelType dataSize name).length = 72 := by
  simp only [encodeHeader, length_append, length_leBytes, hname]

theorem headerOf_encode {g : Image} {dataSize : ℕ}
    (h : g.Holds 0 (encodeHeader modelType dataSize name)) (htype : modelType < 2 ^ 32)
    (hdata : dataSize < 2 ^ 32) : headerOf g = ⟨modelMagic, 1, 72, modelType, 72, dataSize⟩ := by
  simp only [encodeHeader, holds_append, length_append, length_leBytes,
    zero_add] at h
  obtain ⟨⟨⟨⟨⟨⟨⟨⟨⟨⟨hmagic, hversion⟩, hsize⟩, hmodel⟩, -⟩, -⟩, -⟩, -⟩, hoffset⟩, hlen⟩, -⟩ := h
  rw [headerOf, hmagic.leValue (by decide), hversion.leValue (by decide),
    hsize.leValue (by decide), hmodel.leValue (by omega),
    hoffset.leValue (by decide), hlen.leValue (by omega)]

theorem module_of_file {payload : List UInt8}
    (hfile : m.file = Image.ofList (encodeHeader modelType payload.length name ++ payload))
    (hname : name.length = 32) (htype : modelType < 2 ^ 32) (hsize : payload.length + 72 < 2 ^ 32) :
    headerOf m.file = ⟨modelMagic, 1, 72, modelType, 72, payload.length⟩ ∧
      m.payload.Placed ∧ m.payload.image.Holds 0 payload := by
  have hholds : m.file.Holds 0 (encodeHeader modelType payload.length name ++ payload) := by
    rw [hfile]
    exact holds_ofList _
  rw [holds_append, length_encodeHeader _ _ hname, zero_add] at hholds
  obtain ⟨hheader, hpayload⟩ := hholds
  have hhead := headerOf_encode hheader htype (by omega)
  have hend := m.end_lt
  have hle := hpayload.1
  have hoffset : (headerOf m.file).dataOffset = 72 := by rw [hhead]
  have hlen : (headerOf m.file).dataSize = payload.length := by rw [hhead]
  refine ⟨hhead, ?_, ?_⟩
  · change u32 (m.start + (headerOf m.file).dataOffset) + (headerOf m.file).dataSize < 2 ^ 32
    rw [hoffset, hlen, u32_of_lt (by omega)]
    omega
  · constructor
    · change 0 + payload.length ≤ (headerOf m.file).dataSize
      rw [hlen, zero_add]
    · conv_rhs => rw [← hpayload.2]
      refine map_congr_left (fun i _ => ?_)
      change m.file.byte ((headerOf m.file).dataOffset + (0 + i)) = _
      rw [hoffset, zero_add]

theorem validate_of_header {g : Image} {n : ℕ}
    (h : headerOf g = ⟨modelMagic, 1, 72, modelType, 72, n⟩) (hsize : 72 + n ≤ g.size)
    (hrules : modelType = typeRules → 8 ≤ n) (hnn : modelType = typeNn → 12 ≤ n) :
    validateMicrokModel g = true := by
  unfold validateMicrokModel
  simp only [h, headerBytes]
  rw [if_neg (by omega), if_neg (by simp), if_neg (by simp), if_neg (by omega), if_neg (by omega),
    if_neg (by omega), if_neg (fun hlt => absurd (hrules hlt.1) (by omega)),
    if_neg (fun hlt => absurd (hnn hlt.1) (by omega))]

theorem length_le_rules (rules : List Rule) :
    rules.length ≤ (rules.flatMap Rule.encode).length := by
  induction rules with
  | nil => exact le_rfl
  | cons r rules ih =>
    rw [flatMap_cons, length_append, Rule.length_encode, length_cons]
    omega

theorem RulesFile.answers (f : RulesFile) (hfile : m.file = Image.ofList f.bytes)
    (query : List UInt8) : validateMicrokModel m.file = true ∧
      tryRuleInference m query = .ok (f.answer query) ∧ tryNnInference m query = .ok none := by
  obtain ⟨hhead, hplaced, hholds⟩ :=
    module_of_file hfile f.name_len (show typeRules < 2 ^ 32 by decide) f.size_lt
  have hlen : (buildRulePayload f.rules).length =
      8 + (f.rules.flatMap Rule.encode).length := by
    simp only [buildRulePayload, length_append, length_leBytes]
  have hcount := length_le_rules f.rules
  have hsize := f.size_lt
  refine ⟨validate_of_header hhead ?_ (fun _ => by omega) (fun h => absurd h (by decide)), ?_, ?_⟩
  · rw [hfile]
    change _ ≤ f.bytes.length
    rw [RulesFile.bytes, length_append, length_encodeHeader _ _ f.name_len]
  · rw [tryRuleInference, hhead, if_neg (by simp),
      ruleInferenceIn_holds hplaced hholds (by omega)]
    rfl
  · rw [tryNnInference, hhead, if_pos (show typeRules ≠ typeNn by decide)]
    rfl

theorem NnFile.answers (f : NnFile) (hfile : m.file = Image.ofList f.bytes) (query : List UInt8) :
    validateMicrokModel m.file = true ∧
      Ends (tryNnInference m query) (f.Answers query) ∧ tryRuleInference m query = .ok none := by
  obtain ⟨hhead, hplaced, hholds⟩ :=
    module_of_file hfile f.name_len (show typeNn < 2 ^ 32 by decide) f.size_lt
  have hlen : 12 ≤ (buildNnPayload f.vocab f.classes).length := by
    simp only [buildNnPayload, length_append, length_leBytes]
    omega
  refine ⟨validate_of_header hhead ?_ (fun h => absurd h (by decide)) (fun _ => hlen), ?_, ?_⟩
  · rw [hfile]
    change _ ≤ f.bytes.length
    rw [NnFile.bytes, length_append, length_encodeHeader _ _ f.name_len]
  · rw [tryNnInference, hhead, if_neg (by simp)]
    exact nnInferenceIn_holds hplaced f hholds
  · rw [tryRuleInference, hhead, if_pos (show typeNn ≠ typeRules by decide)]
    rfl

/-- The classifiers that `make_mklm_model.py` builds are such files. -/
theorem scriptFile_answers (hname : name.length = 32) {pairs : List Pair} (hpos : 0 < pairs.length)
    (hlt : pairs.length < 2 ^ 16) (hsize)
    (hfile : m.file = Image.ofList (scriptFile name hname pairs hpos hlt hsize).bytes)
    (query : List UInt8) :
    Ends (tryNnInference m query) ((scriptFile name hname pairs hpos hlt hsize).Answers query) :=
  (NnFile.answers _ hfile query).2.1

/-- Over every accepted module that ends 128 KiB below the top of the address space, inference
reads inside the payload and writes at most 128 bytes; on the generator's files it gives the
answers of the rules and of the classes. -/
theorem inference_correct :
    (∀ m : Module, validateMicrokModel m.file = true → m.Clear → ∀ query,
      Ends (tryRuleInference m query) Fits ∧ Ends (tryNnInference m query) Fits) ∧
    (∀ (f : RulesFile) (m : Module), m.file = Image.ofList f.bytes → ∀ query,
      validateMicrokModel m.file = true ∧ tryRuleInference m query = .ok (f.answer query) ∧
        tryNnInference m query = .ok none) ∧
    (∀ (f : NnFile) (m : Module), m.file = Image.ofList f.bytes → ∀ query,
      validateMicrokModel m.file = true ∧ Ends (tryNnInference m query) (f.Answers query) ∧
        tryRuleInference m query = .ok none) := by
  refine ⟨fun m hvalid hclear query => ?_, fun f m hfile => f.answers hfile,
    fun f m hfile => f.answers hfile⟩
  have haccepted := accepted_of_validate hvalid
  exact ⟨tryRuleInference_ends haccepted hclear query, tryNnInference_ends haccepted hclear query⟩

/-- A rule without a prompt. -/
def emptyRule : RulesFile where
  name := List.replicate 32 0
  rules := [⟨[], [0x68, 0x69], by decide, by decide⟩]
  name_len := rfl
  size_lt := by decide

def emptyRuleModule : Module := ⟨0x2000000, Image.ofList emptyRule.bytes, by decide⟩

/-- A module at the very top of the address space with a rule whose response is too long. -/
def topModule : Module where
  start := 2 ^ 32 - 101
  file := Image.ofList (encodeHeader typeRules 28 (List.replicate 32 0) ++ (leBytes 4 ruleMagic ++
    leBytes 4 1 ++ leBytes 2 1 ++ leBytes 2 65535 ++ [0x61] ++ List.replicate 15 0))
  end_lt := by decide

/-- A rule without a prompt occurs in every query and does not answer; and where a sum of lengths
wraps, a response is read from outside the payload. -/
theorem empty_prompt_silent :
    ((∃ r ∈ emptyRule.rules, OccursCi r.prompt [0x78]) ∧
      tryRuleInference emptyRuleModule [0x78] = .ok none) ∧
    (validateMicrokModel topModule.file = true ∧
      tryRuleInference topModule [0x61] = .fault) := by
  decide +kernel

end MicroK.Mklm
