import MicroK.AccessTrace
import MicroK.GgufModel

/-!
# The forward pass over the layers of a Llama model

The buffers of a pass are sized by the embedding length of the metadata, the loops of its matrix
products by the dimensions of the weight tensors. A tensor is given by the number of its elements,
and `none` is a null pointer. The pass is modelled by the elements that the norms, the products and
the feed-forward step access; the attention between the products works on buffers alone.
-/

namespace MicroK.Gguf

open Traced List Traced

structure View where
  dims : List ℕ
  type : ℕ
  deriving DecidableEq

def View.nIn (w : View) : ℕ := w.dims.headD 0

/-- The width of the output; a vector counts as a square. -/
def View.nOut (w : View) : ℕ :=
  match w.dims with
  | _ :: n :: _ => n
  | _ => w.nIn

/-- The elements of the source vector that go into one element of the product. -/
def sourceIndices (type n : ℕ) : List ℕ :=
  if type = GgmlType.q4_0.code then
    (List.range (n / 32)).flatMap fun b => (List.range 16).flatMap fun i =>
      [b * 32 + i, b * 32 + (i + 16)]
  else if type = GgmlType.q6_k.code then
    (List.range (n / 256)).flatMap fun b => [0, 128].flatMap fun n2 =>
      (List.range 32).flatMap fun l =>
        [b * 256 + n2 + l, b * 256 + n2 + (l + 32), b * 256 + n2 + (l + 64),
          b * 256 + n2 + (l + 96)]
  else if type = GgmlType.f32.code ∨ type = GgmlType.f16.code then List.range n
  else []

variable (rowOk : ℕ → Bool) (dest src : Option ℕ) (weights : Option View) (len : ℕ)

/-- `llama_matmul_fpu`. `rowOk i` says whether row `i` of the weights could be read, and `len` is
the length of the source vector. -/
def matmul :
    Traced Unit :=
  match dest, src, weights with
  | some count, some _, some w =>
    touch ((List.range w.nOut).flatMap fun i =>
      (if rowOk i then (sourceIndices w.type w.nIn).map fun d => ⟨d, len⟩ else []) ++ [⟨i, count⟩])
  | _, _, _ => touch []

/-- `tensor_rmsnorm`: the squares of the input, then the product with the weights. -/
def rmsnorm (out input weight : Option ℕ) : Traced Unit :=
  match out, input, weight with
  | some outCount, some inCount, some weightCount =>
    if inCount ≠ outCount then stop
    else do
      touch ((List.range inCount).map fun i => ⟨i, inCount⟩)
      touch ((List.range inCount).flatMap fun i =>
        [⟨i, inCount⟩, ⟨i, weightCount⟩, ⟨i, outCount⟩])
  | _, _, _ => stop

/-- `tensor_add`, whose result is not tested. -/
def tensorAdd (out a b : Option ℕ) : Traced Unit :=
  match out, a, b with
  | some outCount, some aCount, some bCount =>
    if aCount ≠ bCount ∨ outCount ≠ aCount then touch []
    else touch ((List.range aCount).flatMap fun i => [⟨i, aCount⟩, ⟨i, bCount⟩, ⟨i, outCount⟩])
  | _, _, _ => touch []

def applyActivation (t : Option ℕ) : Traced Unit :=
  touch ((List.range (t.getD 0)).map fun i => ⟨i, t.getD 0⟩)

/-- A loop that copies the first elements of a tensor into a vector of floats. A null tensor has no
element. -/
def toFloat (n : ℕ) (t : Option ℕ) (len : ℕ) : Traced Unit :=
  touch ((List.range n).flatMap fun d => [⟨d, t.getD 0⟩, ⟨d, len⟩])

structure Layer where
  attnNorm : Option ℕ
  attnQ : Option View
  attnK : Option View
  attnV : Option View
  attnO : Option View
  ffnNorm : Option ℕ
  ffnGate : Option View
  ffnUp : Option View
  ffnDown : Option View
  deriving DecidableEq

/-- The buffers of a pass: the tensors of the context and the lengths of the two float vectors. -/
structure Buffers where
  h : Option ℕ
  q : Option ℕ
  k : Option ℕ
  v : Option ℕ
  scratch : Option ℕ
  ffnGate : Option ℕ
  ffnUp : Option ℕ
  hFloat : ℕ
  ffnGateFloat : ℕ

/-- What happens around a layer: whether the generation is cancelled at its polls, and which rows
can be read for its products. -/
structure Around where
  cancelled : ℕ → Bool
  rowOk : ℕ → ℕ → Bool

def poll (cancelled : Bool) : Traced Unit := if cancelled then stop else pure ()

variable (e : Around)

def attentionOutput (b : Buffers) : Option View → Traced Unit
  | none => pure ()
  | some o => do
    matmul (e.rowOk 3) b.v b.scratch (some o) b.hFloat
    poll (e.cancelled 4)
    tensorAdd b.h b.h b.v

variable (nEmbd : ℕ)

def attention (b : Buffers) (l : Layer) : Traced Unit := do
  rmsnorm b.scratch b.h l.attnNorm
  toFloat nEmbd b.scratch b.hFloat
  matmul (e.rowOk 0) b.q b.scratch l.attnQ b.hFloat
  poll (e.cancelled 1)
  matmul (e.rowOk 1) b.k b.scratch l.attnK b.hFloat
  poll (e.cancelled 2)
  matmul (e.rowOk 2) b.v b.scratch l.attnV b.hFloat
  poll (e.cancelled 3)
  toFloat nEmbd b.scratch b.hFloat
  attentionOutput e b l.attnO

def gateLoop (nFf : ℕ) (b : Buffers) : Traced Unit :=
  touch ((List.range nFf).flatMap fun d =>
    [⟨d, b.ffnGate.getD 0⟩, ⟨d, b.ffnUp.getD 0⟩, ⟨d, b.ffnGate.getD 0⟩])

/-- The feed-forward step from the activation on, for the width of the gate. -/
def intermediate (b : Buffers) (nFf : ℕ) (down : View) : Traced Unit := do
  applyActivation b.ffnGate
  gateLoop nFf b
  toFloat nFf b.ffnGate b.ffnGateFloat
  matmul (e.rowOk 6) b.v b.ffnGate (some down) b.ffnGateFloat
  poll (e.cancelled 7)
  tensorAdd b.h b.h b.v

def feedForward (b : Buffers) (norm : ℕ) (gate up down : View) :
    Traced Unit := do
  rmsnorm b.scratch b.h (some norm)
  toFloat nEmbd b.scratch b.hFloat
  matmul (e.rowOk 4) b.ffnGate b.scratch (some gate) b.hFloat
  poll (e.cancelled 5)
  matmul (e.rowOk 5) b.ffnUp b.scratch (some up) b.hFloat
  poll (e.cancelled 6)
  if gate.nOut > u32 (nEmbd * 4) then stop else intermediate e b gate.nOut down

def attentionPass (b : Buffers) (l : Layer) : Traced Unit :=
  if l.attnNorm.isSome ∧ l.attnQ.isSome then attention e nEmbd b l else pure ()

def feedForwardPass (b : Buffers) (l : Layer) : Traced Unit :=
  match l.ffnNorm, l.ffnGate, l.ffnUp, l.ffnDown with
  | some norm, some gate, some up, some down => feedForward e nEmbd b norm gate up down
  | _, _, _, _ => pure ()

def layerPass (b : Buffers) (l : Layer) : Traced Unit := do
  poll (e.cancelled 0)
  attentionPass e nEmbd b l
  feedForwardPass e nEmbd b l

/-- `run_llama_forward_pass` over the layers, where `around i` is what happens around layer `i`. -/
def forwardPass (nEmbd : ℕ) (b : Buffers) (outputNorm : Option ℕ) :
    (ℕ → Around) → List Layer → Traced Unit
  | _, [] => rmsnorm b.h b.h outputNorm
  | around, l :: layers => do
    layerPass (around 0) nEmbd b l
    forwardPass nEmbd b outputNorm (fun i => around (i + 1)) layers

def View.sourceWidth (w : View) : ℕ :=
  if w.type = GgmlType.q4_0.code then w.nIn / 32 * 32
  else if w.type = GgmlType.q6_k.code then w.nIn / 256 * 256
  else if w.type = GgmlType.f32.code ∨ w.type = GgmlType.f16.code then w.nIn
  else 0

theorem mem_sourceIndices (w : View) (j : ℕ) :
    j ∈ sourceIndices w.type w.nIn ↔ j < w.sourceWidth := by
  unfold sourceIndices View.sourceWidth
  split_ifs
  · simp only [mem_flatMap, mem_range, mem_cons, not_mem_nil, or_false]
    constructor
    · rintro ⟨b, hb, i, hi, h⟩
      omega
    · intro hj
      rcases Nat.lt_or_ge (j % 32) 16 with hlow | hhigh
      · exact ⟨j / 32, by omega, j % 32, by omega, .inl (by omega)⟩
      · exact ⟨j / 32, by omega, j % 32 - 16, by omega, .inr (by omega)⟩
  · simp only [mem_flatMap, mem_range, mem_cons, not_mem_nil, or_false]
    constructor
    · rintro ⟨b, hb, n2, hn2, l, hl, h⟩
      omega
    · intro hj
      refine ⟨j / 256, by omega, j % 256 / 128 * 128, by omega, j % 32, by omega, ?_⟩
      omega
  · exact mem_range
  · simp

def ProductFits : Prop :=
  ∀ count w, dest = some count → src.isSome → weights = some w →
    w.nOut ≤ count ∧ (0 < w.nOut → w.sourceWidth ≤ len)

theorem inBounds_matmul :
    (matmul (fun _ => true) dest src weights len).InBounds ↔ ProductFits dest src weights len := by
  cases dest with
  | none => simp [matmul, ProductFits, inBounds_touch]
  | some count =>
    cases src with
    | none => simp [matmul, ProductFits, inBounds_touch]
    | some n =>
      cases weights with
      | none => simp [matmul, ProductFits, inBounds_touch]
      | some w =>
        simp only [matmul, if_true, inBounds_touch, mem_flatMap, mem_range,
          mem_append, mem_map, mem_singleton, mem_sourceIndices]
        constructor
        · rintro h count' w' ⟨⟩ - ⟨⟩
          refine ⟨forall_lt_iff_le.mp fun i hi => h ⟨i, count⟩ ⟨i, hi, .inr rfl⟩, fun hpos => ?_⟩
          exact forall_lt_iff_le.mp fun d hd => h ⟨d, len⟩ ⟨0, hpos, .inl ⟨d, hd, rfl⟩⟩
        · rintro h a ⟨i, hi, ⟨d, hd, rfl⟩ | rfl⟩
          · exact hd.trans_le ((h count w rfl rfl rfl).2 (Nat.zero_lt_of_lt hi))
          · exact hi.trans_le (h count w rfl rfl rfl).1

@[simp] theorem result_matmul : (matmul rowOk dest src weights len).result = some () := by
  unfold matmul
  split <;> rfl

variable (out input weight : Option ℕ)

theorem inBounds_rmsnorm :
    (rmsnorm out input weight).InBounds ↔ ∀ n m, out = some n → input = some n → weight = some m →
      n ≤ m := by
  unfold rmsnorm
  split
  · next outCount inCount weightCount =>
    split_ifs with hne
    · simp only [inBounds_stop, true_iff]
      rintro n m ⟨⟩ ⟨⟩
      exact absurd rfl hne
    · obtain rfl := not_not.mp hne
      simp only [inBounds_bind, inBounds_touch, mem_map, mem_flatMap, mem_range,
        mem_cons, not_mem_nil, or_false]
      constructor
      · rintro ⟨-, h⟩ n m ⟨⟩ - ⟨⟩
        exact forall_lt_iff_le.mp fun i hi => h () rfl ⟨i, weightCount⟩ ⟨i, hi, .inr (.inl rfl)⟩
      · intro h
        have hle := h inCount weightCount rfl rfl rfl
        constructor
        · rintro a ⟨i, hi, rfl⟩
          exact hi
        · rintro - - a ⟨i, hi, rfl | rfl | rfl⟩
          · exact hi
          · exact hi.trans_le hle
          · exact hi
  · next hnull =>
    simp only [inBounds_stop, true_iff]
    rintro n m rfl rfl rfl
    exact (hnull n n m rfl rfl rfl).elim

theorem result_rmsnorm : (rmsnorm out input weight).result = some () ↔
      ∃ n, out = some n ∧ input = some n ∧ weight.isSome := by
  unfold rmsnorm
  split
  · next outCount inCount weightCount =>
    split_ifs with hne
    · simp only [result_stop, reduceCtorEq, false_iff]
      rintro ⟨n, ⟨⟩, ⟨⟩, -⟩
      exact hne rfl
    · obtain rfl := not_not.mp hne
      simp [result_bind]
  · next hnull =>
    simp only [result_stop, reduceCtorEq, false_iff]
    rintro ⟨n, rfl, rfl, hweight⟩
    obtain ⟨m, rfl⟩ := Option.isSome_iff_exists.mp hweight
    exact hnull n n m rfl rfl rfl

@[simp] theorem inBounds_tensorAdd (out a b : Option ℕ) : (tensorAdd out a b).InBounds := by
  unfold tensorAdd
  split
  · split_ifs with hne
    · simp [inBounds_touch]
    · push Not at hne
      obtain ⟨rfl, rfl⟩ := hne
      simp only [inBounds_touch, mem_flatMap, mem_range, mem_cons, not_mem_nil,
        or_false, or_self]
      rintro x ⟨i, hi, rfl⟩
      exact hi
  · simp [inBounds_touch]

@[simp] theorem inBounds_applyActivation (t : Option ℕ) : (applyActivation t).InBounds := by
  simp only [applyActivation, inBounds_touch, mem_map, mem_range]
  rintro a ⟨i, hi, rfl⟩
  exact hi

theorem inBounds_toFloat (n : ℕ) (t : Option ℕ) (len : ℕ) :
    (toFloat n t len).InBounds ↔ n ≤ t.getD 0 ∧ n ≤ len := by
  simp only [toFloat, inBounds_touch, mem_flatMap, mem_range, mem_cons,
    not_mem_nil, or_false]
  constructor
  · intro h
    exact ⟨forall_lt_iff_le.mp fun i hi => h ⟨i, t.getD 0⟩ ⟨i, hi, .inl rfl⟩,
      forall_lt_iff_le.mp fun i hi => h ⟨i, len⟩ ⟨i, hi, .inr rfl⟩⟩
  · rintro ⟨ht, hlen⟩ a ⟨i, hi, rfl | rfl⟩
    · exact hi.trans_le ht
    · exact hi.trans_le hlen

theorem inBounds_gateLoop (nFf : ℕ) (b : Buffers) :
    (gateLoop nFf b).InBounds ↔ nFf ≤ b.ffnGate.getD 0 ∧ nFf ≤ b.ffnUp.getD 0 := by
  simp only [gateLoop, inBounds_touch, mem_flatMap, mem_range, mem_cons,
    not_mem_nil, or_false]
  constructor
  · intro h
    exact ⟨forall_lt_iff_le.mp fun i hi => h ⟨i, b.ffnGate.getD 0⟩ ⟨i, hi, .inl rfl⟩,
      forall_lt_iff_le.mp fun i hi => h ⟨i, b.ffnUp.getD 0⟩ ⟨i, hi, .inr (.inl rfl)⟩⟩
  · rintro ⟨hgate, hup⟩ a ⟨i, hi, rfl | rfl | rfl⟩
    · exact hi.trans_le hgate
    · exact hi.trans_le hup
    · exact hi.trans_le hgate

def undisturbed : Around := ⟨fun _ => false, fun _ _ => true⟩

theorem poll_le (cancelled : Bool) : poll cancelled ≤ poll false := by
  cases cancelled with
  | false => exact le_refl _
  | true => exact stop_le _

theorem matmul_le :
    matmul rowOk dest src weights len ≤ matmul (fun _ => true) dest src weights len := by
  refine ⟨fun a ha => ?_, fun a _ => result_matmul _ _ _ _ _⟩
  unfold matmul at ha ⊢
  split at ha
  · simp only [touch, mem_flatMap, mem_append, if_true] at ha ⊢
    obtain ⟨i, hi, hread | hwrite⟩ := ha
    · refine ⟨i, hi, .inl ?_⟩
      split_ifs at hread with hok
      · exact hread
      · cases hread
    · exact ⟨i, hi, .inr hwrite⟩
  · exact ha

theorem attentionPass_le (b : Buffers) (l : Layer) :
    attentionPass e nEmbd b l ≤ attentionPass undisturbed nEmbd b l := by
  unfold attentionPass
  split_ifs
  · refine bind_le_bind (le_refl _) fun _ => bind_le_bind (le_refl _) fun _ => ?_
    refine bind_le_bind (matmul_le _ _ _ _ _) fun _ => bind_le_bind (poll_le _) fun _ => ?_
    refine bind_le_bind (matmul_le _ _ _ _ _) fun _ => bind_le_bind (poll_le _) fun _ => ?_
    refine bind_le_bind (matmul_le _ _ _ _ _) fun _ => bind_le_bind (poll_le _) fun _ => ?_
    refine bind_le_bind (le_refl _) fun _ => ?_
    cases l.attnO with
    | none => exact le_refl _
    | some o =>
      refine bind_le_bind (matmul_le _ _ _ _ _) fun _ => ?_
      exact bind_le_bind (poll_le _) fun _ => le_refl _
  · exact le_refl _

theorem feedForwardPass_le (b : Buffers) (l : Layer) :
    feedForwardPass e nEmbd b l ≤ feedForwardPass undisturbed nEmbd b l := by
  unfold feedForwardPass
  split
  · refine bind_le_bind (le_refl _) fun _ => bind_le_bind (le_refl _) fun _ => ?_
    refine bind_le_bind (matmul_le _ _ _ _ _) fun _ => bind_le_bind (poll_le _) fun _ => ?_
    refine bind_le_bind (matmul_le _ _ _ _ _) fun _ => bind_le_bind (poll_le _) fun _ => ?_
    split_ifs
    · exact le_refl _
    · refine bind_le_bind (le_refl _) fun _ => bind_le_bind (le_refl _) fun _ => ?_
      refine bind_le_bind (le_refl _) fun _ => bind_le_bind (matmul_le _ _ _ _ _) fun _ => ?_
      exact bind_le_bind (poll_le _) fun _ => le_refl _
  · exact le_refl _

theorem forwardPass_le (b : Buffers) (outputNorm : Option ℕ) (layers : List Layer) :
    ∀ around, forwardPass nEmbd b outputNorm around layers ≤
      forwardPass nEmbd b outputNorm (fun _ => undisturbed) layers := by
  induction layers with
  | nil => exact fun _ => le_refl _
  | cons l layers ih =>
    intro around
    refine bind_le_bind ?_ fun _ => ih _
    refine bind_le_bind (poll_le _) fun _ => ?_
    exact bind_le_bind (attentionPass_le _ _ _ _) fun _ => feedForwardPass_le _ _ _ _

end MicroK.Gguf
