import MicroK.ForwardPass

/-!
# The shapes that fit a forward pass

For each step of a pass, what its accesses require of the shapes of the weights, and whether the
pass goes on after it.
-/

namespace MicroK.Gguf

open Traced

@[simp] theorem inBounds_poll (cancelled : Bool) : (poll cancelled).InBounds := by
  cases cancelled <;> simp [poll]

@[simp] theorem result_toFloat (n : ℕ) (t : Option ℕ) (len : ℕ) :
    (toFloat n t len).result = some () := rfl

@[simp] theorem result_gateLoop (n : ℕ) (b : Buffers) : (gateLoop n b).result = some () := rfl

@[simp] theorem result_applyActivation (t : Option ℕ) : (applyActivation t).result = some () := rfl

@[simp] theorem result_tensorAdd (out a b : Option ℕ) : (tensorAdd out a b).result = some () := by
  unfold tensorAdd
  split
  · split_ifs <;> rfl
  · rfl

structure NormFits (nEmbd : ℕ) (b : Buffers) (n norm : ℕ) : Prop where
  weights : n ≤ norm
  state : nEmbd ≤ n
  floats : nEmbd ≤ b.hFloat

variable (nEmbd : ℕ) (b : Buffers)

def AttentionFits (l : Layer) : Prop :=
  ∀ n norm, b.scratch = some n → b.h = some n → l.attnNorm = some norm → l.attnQ.isSome →
    NormFits nEmbd b n norm ∧ ProductFits b.q b.scratch l.attnQ b.hFloat ∧
      ProductFits b.k b.scratch l.attnK b.hFloat ∧ ProductFits b.v b.scratch l.attnV b.hFloat ∧
      ProductFits b.v b.scratch l.attnO b.hFloat

variable (b : Buffers)

theorem inBounds_attentionOutput (o : Option View) :
    (attentionOutput undisturbed b o).InBounds ↔ ProductFits b.v b.scratch o b.hFloat := by
  cases o with
  | none => simp [attentionOutput, ProductFits]
  | some o =>
    rw [attentionOutput, inBounds_then (result_matmul _ _ _ _ _), inBounds_then rfl]
    simp [undisturbed, inBounds_matmul]

@[simp] theorem result_attentionOutput (o : Option View) :
    (attentionOutput undisturbed b o).result = some () := by
  cases o with
  | none => rfl
  | some o =>
    rw [attentionOutput, result_then (result_matmul _ _ _ _ _), result_then rfl, result_tensorAdd]

theorem inBounds_normalise {nEmbd n norm : ℕ} {b : Buffers} (hs : b.scratch = some n)
    (hh : b.h = some n) :
    (rmsnorm b.scratch b.h (some norm)).InBounds ∧ (toFloat nEmbd b.scratch b.hFloat).InBounds ↔
      NormFits nEmbd b n norm := by
  rw [inBounds_rmsnorm, inBounds_toFloat, hs, hh, Option.getD_some]
  constructor
  · exact fun h => ⟨h.1 n norm rfl rfl rfl, h.2.1, h.2.2⟩
  · rintro ⟨hle, hstate, hfloats⟩
    refine ⟨?_, hstate, hfloats⟩
    rintro _ _ ⟨⟩ - ⟨⟩
    exact hle

theorem result_normalise {n norm : ℕ} {b : Buffers} (hs : b.scratch = some n) (hh : b.h = some n) :
    (rmsnorm b.scratch b.h (some norm)).result = some () :=
  (result_rmsnorm _ _ _).mpr ⟨n, hs, hh, rfl⟩

variable {l : Layer}

theorem inBounds_attention {nEmbd n norm : ℕ} {b : Buffers} (hs : b.scratch = some n)
    (hh : b.h = some n) (hnorm : l.attnNorm = some norm) :
    (attention undisturbed nEmbd b l).InBounds ↔ NormFits nEmbd b n norm ∧
      ProductFits b.q b.scratch l.attnQ b.hFloat ∧ ProductFits b.k b.scratch l.attnK b.hFloat ∧
      ProductFits b.v b.scratch l.attnV b.hFloat ∧ ProductFits b.v b.scratch l.attnO b.hFloat := by
  rw [attention, hnorm, inBounds_then (result_normalise hs hh),
    inBounds_then (result_toFloat _ _ _),
    inBounds_then (result_matmul _ _ _ _ _), inBounds_then rfl,
    inBounds_then (result_matmul _ _ _ _ _), inBounds_then rfl,
    inBounds_then (result_matmul _ _ _ _ _), inBounds_then rfl,
      inBounds_then (result_toFloat _ _ _),
    inBounds_attentionOutput, ← inBounds_normalise hs hh]
  simp only [undisturbed, inBounds_matmul, inBounds_poll, true_and]
  tauto

theorem result_attention {nEmbd n norm : ℕ} {b : Buffers} (hs : b.scratch = some n)
    (hh : b.h = some n) (hnorm : l.attnNorm = some norm) :
    (attention undisturbed nEmbd b l).result = some () := by
  rw [attention, hnorm, result_then (result_normalise hs hh), result_then (result_toFloat _ _ _),
    result_then (result_matmul _ _ _ _ _), result_then rfl,
    result_then (result_matmul _ _ _ _ _), result_then rfl,
    result_then (result_matmul _ _ _ _ _), result_then rfl, result_then (result_toFloat _ _ _),
    result_attentionOutput]

def Stateful : Prop := ∃ n, b.scratch = some n ∧ b.h = some n

theorem stop_of_not_stateful {b : Buffers} (h : ¬ Stateful b) {norm : Option ℕ}
    {f : Unit → Traced Unit} :
    (rmsnorm b.scratch b.h norm >>= f).InBounds ∧
      (rmsnorm b.scratch b.h norm >>= f).result ≠ some () := by
  have hstop : (rmsnorm b.scratch b.h norm).result ≠ some () := fun hgo => by
    obtain ⟨n, hs, hh, -⟩ := (result_rmsnorm _ _ _).mp hgo
    exact h ⟨n, hs, hh⟩
  constructor
  · refine (inBounds_bind _ _).mpr ⟨(inBounds_rmsnorm _ _ _).mpr ?_, fun _ hgo => absurd hgo hstop⟩
    exact fun n m hs hh _ => absurd ⟨n, hs, hh⟩ h
  · rw [result_bind]
    cases hresult : (rmsnorm b.scratch b.h norm).result with
    | none => simp
    | some u => exact absurd hresult hstop

theorem inBounds_attentionPass (l : Layer) :
    (attentionPass undisturbed nEmbd b l).InBounds ↔ AttentionFits nEmbd b l := by
  unfold attentionPass
  split_ifs with hpresent
  · by_cases hstate : Stateful b
    · obtain ⟨n, hs, hh⟩ := hstate
      obtain ⟨norm, hnorm⟩ := Option.isSome_iff_exists.mp hpresent.1
      rw [inBounds_attention hs hh hnorm]
      constructor
      · intro h n' norm' hs' _ hnorm' _
        obtain rfl : n = n' := Option.some.inj (hs.symm.trans hs')
        obtain rfl : norm = norm' := Option.some.inj (hnorm.symm.trans hnorm')
        exact h
      · exact fun h => h n norm hs hh hnorm hpresent.2
    · exact iff_of_true (stop_of_not_stateful hstate).1 fun n _ hs hh => absurd ⟨n, hs, hh⟩ hstate
  · refine iff_of_true (inBounds_pure ()) fun n norm _ _ hnorm hq => ?_
    exact absurd ⟨by rw [hnorm]; rfl, hq⟩ hpresent

theorem result_attentionPass (l : Layer) :
    (attentionPass undisturbed nEmbd b l).result = some () ↔
      (l.attnNorm.isSome ∧ l.attnQ.isSome → Stateful b) := by
  unfold attentionPass
  split_ifs with hpresent
  · constructor
    · intro hgo _
      by_contra hstate
      exact (stop_of_not_stateful hstate).2 hgo
    · intro h
      obtain ⟨n, hs, hh⟩ := h hpresent
      obtain ⟨norm, hnorm⟩ := Option.isSome_iff_exists.mp hpresent.1
      exact result_attention hs hh hnorm
  · exact iff_of_true rfl fun h => absurd h hpresent

structure HasFeedForward (l : Layer) (norm : ℕ) (gate up down : View) : Prop where
  norm : l.ffnNorm = some norm
  gate : l.ffnGate = some gate
  up : l.ffnUp = some up
  down : l.ffnDown = some down

/-- The intermediate vector, of the width of the gate, fits its buffers. The width is compared with
the size of the buffers only after the two products that fill them. -/
structure IntermediateFits (b : Buffers) (nFf : ℕ) (down : View) : Prop where
  gate : nFf ≤ b.ffnGate.getD 0
  up : nFf ≤ b.ffnUp.getD 0
  floats : nFf ≤ b.ffnGateFloat
  product : ProductFits b.v b.ffnGate (some down) b.ffnGateFloat

theorem inBounds_intermediate (nFf : ℕ) (down : View) :
    (intermediate undisturbed b nFf down).InBounds ↔ IntermediateFits b nFf down := by
  rw [intermediate, inBounds_then (result_applyActivation _), inBounds_then (result_gateLoop _ _),
    inBounds_then (result_toFloat _ _ _), inBounds_then (result_matmul _ _ _ _ _),
    inBounds_then rfl, inBounds_gateLoop, inBounds_toFloat]
  simp only [undisturbed, inBounds_applyActivation, inBounds_matmul, inBounds_poll,
    inBounds_tensorAdd, true_and, and_true]
  exact ⟨fun h => ⟨h.1.1, h.1.2, h.2.1.2, h.2.2⟩, fun h => ⟨⟨h.1, h.2⟩, ⟨h.1, h.3⟩, h.4⟩⟩

@[simp] theorem result_intermediate (nFf : ℕ) (down : View) :
    (intermediate undisturbed b nFf down).result = some () := by
  rw [intermediate, result_then (result_applyActivation _), result_then (result_gateLoop _ _),
    result_then (result_toFloat _ _ _), result_then (result_matmul _ _ _ _ _), result_then rfl,
    result_tensorAdd]

def FeedForwardFits (l : Layer) : Prop :=
  ∀ n norm gate up down, b.scratch = some n → b.h = some n → HasFeedForward l norm gate up down →
    NormFits nEmbd b n norm ∧ ProductFits b.ffnGate b.scratch (some gate) b.hFloat ∧
      ProductFits b.ffnUp b.scratch (some up) b.hFloat ∧
      (gate.nOut ≤ u32 (nEmbd * 4) → IntermediateFits b gate.nOut down)

section

variable {nEmbd n norm : ℕ} {b : Buffers} {gate up down : View}

theorem inBounds_feedForward (hs : b.scratch = some n) (hh : b.h = some n) :
    (feedForward undisturbed nEmbd b norm gate up down).InBounds ↔
      NormFits nEmbd b n norm ∧ ProductFits b.ffnGate b.scratch (some gate) b.hFloat ∧
        ProductFits b.ffnUp b.scratch (some up) b.hFloat ∧
        (gate.nOut ≤ u32 (nEmbd * 4) → IntermediateFits b gate.nOut down) := by
  have hrest : (if gate.nOut > u32 (nEmbd * 4) then stop
      else intermediate undisturbed b gate.nOut down).InBounds ↔
      (gate.nOut ≤ u32 (nEmbd * 4) → IntermediateFits b gate.nOut down) := by
    split_ifs with hwide
    · exact iff_of_true inBounds_stop fun hle => absurd hle (not_le.mpr hwide)
    · rw [inBounds_intermediate]
      exact ⟨fun h _ => h, fun h => h (not_lt.mp hwide)⟩
  rw [feedForward, inBounds_then (result_normalise hs hh), inBounds_then (result_toFloat _ _ _),
    inBounds_then (result_matmul _ _ _ _ _), inBounds_then rfl,
    inBounds_then (result_matmul _ _ _ _ _), inBounds_then rfl, hrest, ← inBounds_normalise hs hh]
  simp only [undisturbed, inBounds_matmul, inBounds_poll, true_and]
  tauto

theorem result_feedForward (hs : b.scratch = some n) (hh : b.h = some n) :
    (feedForward undisturbed nEmbd b norm gate up down).result = some () ↔
      gate.nOut ≤ u32 (nEmbd * 4) := by
  rw [feedForward, result_then (result_normalise hs hh), result_then (result_toFloat _ _ _),
    result_then (result_matmul _ _ _ _ _), result_then rfl,
    result_then (result_matmul _ _ _ _ _), result_then rfl]
  split_ifs with hwide
  · exact iff_of_false (by simp) (not_le.mpr hwide)
  · exact iff_of_true (result_intermediate _ _ _) (not_lt.mp hwide)

end

theorem feedForwardPass_eq {e : Around} {nEmbd norm : ℕ} {b : Buffers}
    {gate up down : View} (h : HasFeedForward l norm gate up down) :
    feedForwardPass e nEmbd b l = feedForward e nEmbd b norm gate up down := by
  rw [feedForwardPass, h.norm, h.gate, h.up, h.down]

theorem feedForwardPass_eq_pure {e : Around} {nEmbd : ℕ} {b : Buffers}
    (h : ¬ ∃ norm gate up down, HasFeedForward l norm gate up down) :
    feedForwardPass e nEmbd b l = pure () := by
  unfold feedForwardPass
  split
  · next hnorm hgate hup hdown => exact absurd ⟨_, _, _, _, hnorm, hgate, hup, hdown⟩ h
  · rfl

theorem HasFeedForward.unique {norm norm' : ℕ} {gate up down gate' up' down' : View}
    (h : HasFeedForward l norm gate up down) (h' : HasFeedForward l norm' gate' up' down') :
    norm = norm' ∧ gate = gate' ∧ up = up' ∧ down = down' :=
  ⟨Option.some.inj (h.norm.symm.trans h'.norm), Option.some.inj (h.gate.symm.trans h'.gate),
    Option.some.inj (h.up.symm.trans h'.up), Option.some.inj (h.down.symm.trans h'.down)⟩

theorem inBounds_feedForwardPass (l : Layer) :
    (feedForwardPass undisturbed nEmbd b l).InBounds ↔ FeedForwardFits nEmbd b l := by
  by_cases hpresent : ∃ norm gate up down, HasFeedForward l norm gate up down
  · obtain ⟨norm, gate, up, down, hall⟩ := hpresent
    rw [feedForwardPass_eq hall]
    by_cases hstate : Stateful b
    · obtain ⟨n, hs, hh⟩ := hstate
      rw [inBounds_feedForward hs hh]
      constructor
      · intro h n' norm' gate' up' down' hs' _ hall'
        obtain rfl : n = n' := Option.some.inj (hs.symm.trans hs')
        obtain ⟨rfl, rfl, rfl, rfl⟩ := hall.unique hall'
        exact h
      · exact fun h => h n norm gate up down hs hh hall
    · exact iff_of_true (stop_of_not_stateful hstate).1
        fun n _ _ _ _ hs hh => absurd ⟨n, hs, hh⟩ hstate
  · rw [feedForwardPass_eq_pure hpresent]
    exact iff_of_true (inBounds_pure ()) fun n norm gate up down _ _ hall =>
      absurd ⟨norm, gate, up, down, hall⟩ hpresent

theorem result_feedForwardPass (l : Layer) :
    (feedForwardPass undisturbed nEmbd b l).result = some () ↔
      ∀ norm gate up down, HasFeedForward l norm gate up down →
        Stateful b ∧ gate.nOut ≤ u32 (nEmbd * 4) := by
  by_cases hpresent : ∃ norm gate up down, HasFeedForward l norm gate up down
  · obtain ⟨norm, gate, up, down, hall⟩ := hpresent
    rw [feedForwardPass_eq hall]
    by_cases hstate : Stateful b
    · obtain ⟨n, hs, hh⟩ := hstate
      rw [result_feedForward hs hh]
      constructor
      · intro h norm' gate' up' down' hall'
        obtain ⟨-, rfl, -, -⟩ := hall.unique hall'
        exact ⟨⟨n, hs, hh⟩, h⟩
      · exact fun h => (h norm gate up down hall).2
    · exact iff_of_false (stop_of_not_stateful hstate).2
        fun h => hstate (h norm gate up down hall).1
  · rw [feedForwardPass_eq_pure hpresent]
    exact iff_of_true rfl fun norm gate up down hall => absurd ⟨norm, gate, up, down, hall⟩ hpresent

def GoesOn (l : Layer) : Prop :=
  (l.attnNorm.isSome ∧ l.attnQ.isSome → Stateful b) ∧
    ∀ norm gate up down, HasFeedForward l norm gate up down →
      Stateful b ∧ gate.nOut ≤ u32 (nEmbd * 4)

/-- The weights of every layer that is reached, and the final norm, fit the buffers. -/
def LayersFit (nEmbd : ℕ) (b : Buffers) (outputNorm : ℕ) : List Layer → Prop
  | [] => ∀ n, b.h = some n → n ≤ outputNorm
  | l :: layers => AttentionFits nEmbd b l ∧ FeedForwardFits nEmbd b l ∧
      (GoesOn nEmbd b l → LayersFit nEmbd b outputNorm layers)

theorem inBounds_undisturbed (outputNorm : ℕ) (layers : List Layer) :
    (forwardPass nEmbd b (some outputNorm) (fun _ => undisturbed) layers).InBounds ↔
      LayersFit nEmbd b outputNorm layers := by
  induction layers with
  | nil =>
    rw [forwardPass, inBounds_rmsnorm, LayersFit]
    constructor
    · exact fun h n hh => h n outputNorm hh hh rfl
    · rintro h n _ hh - ⟨⟩
      exact h n hh
  | cons l layers ih =>
    rw [forwardPass, inBounds_seq, layerPass, inBounds_then rfl, result_then rfl, inBounds_seq,
      result_seq, inBounds_attentionPass, inBounds_feedForwardPass, result_attentionPass,
      result_feedForwardPass, ih, LayersFit, GoesOn]
    have hvacuous (hstop : ¬ (l.attnNorm.isSome ∧ l.attnQ.isSome → Stateful b)) :
        FeedForwardFits nEmbd b l := by
      intro n _ _ _ _ hs hh
      exact absurd (fun _ => ⟨n, hs, hh⟩) hstop
    constructor
    · rintro ⟨⟨-, hattention, hforward⟩, hrest⟩
      exact ⟨hattention, (em _).elim hforward hvacuous, hrest⟩
    · rintro ⟨hattention, hforward, hrest⟩
      exact ⟨⟨inBounds_poll _, hattention, fun _ => hforward⟩, hrest⟩

/-- A pass stays in its buffers, whatever happens around it, exactly when the layers fit. -/
theorem inBounds_forwardPass_iff (outputNorm : ℕ) (layers : List Layer) :
    (∀ around, (forwardPass nEmbd b (some outputNorm) around layers).InBounds) ↔
      LayersFit nEmbd b outputNorm layers := by
  rw [← inBounds_undisturbed]
  exact ⟨fun h => h _, fun h around => h.of_le (forwardPass_le _ _ _ _ around)⟩

end MicroK.Gguf
