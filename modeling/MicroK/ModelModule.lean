import MicroK.GgufLayout
import MicroK.LlamaModel
import MicroK.MklmSafety

/-!
# Readers of a model module

A module is a range of memory that is taken for a model file. It is looked at as an MKLM model and
as a GGUF model, and the data of a GGUF model is copied to high memory. No reader leaves the range,
whatever is in it.
-/

namespace MicroK.Gguf

open Outcome

variable {f : Image}

section

variable (hsize : f.size < 2 ^ 32) (cache : Option ProbeCache) (start : ℕ)
include hsize

theorem sat_findTensorAlias (aborts : ℕ → ℕ → Bool) (names : List String) (i : ℕ) :
    (findTensorAlias cache start f aborts names i).Sat fun _ => True := by
  induction names generalizing i with
  | nil => exact sat_reject
  | cons name names ih =>
    refine sat_bind (sat_attempt (sat_getTensor hsize cache start _ (aborts i))) fun found _ => ?_
    cases found with
    | none => exact ih (i + 1)
    | some t => exact sat_ok trivial

theorem sat_layerReady (abort : ℕ → ℕ → Bool) (layer : ℕ) (suffixes : List String) (k : ℕ) :
    (layerReady cache start f abort layer suffixes k).Sat fun _ => True := by
  induction suffixes generalizing k with
  | nil => exact sat_ok trivial
  | cons suffix suffixes ih =>
    exact sat_bind (sat_getTensor hsize cache start _ _) fun _ _ => ih (k + 1)

theorem sat_layersReady (abort : ℕ → ℕ → ℕ → Bool) (n layer : ℕ) :
    (layersReady cache start f abort n layer).Sat fun _ => True := by
  induction n generalizing layer with
  | zero => exact sat_ok trivial
  | succ n ih =>
    exact sat_bind (sat_layerReady hsize cache start _ layer _ 0) fun _ _ => ih (layer + 1)

theorem sat_generationReady (info : Info) (aliasAbort abort : ℕ → ℕ → ℕ → Bool) :
    (generationReady cache start f info aliasAbort abort).Sat fun _ => True :=
  sat_guard fun _ =>
    sat_bind (sat_findTensorAlias hsize cache start _ _ 0) fun _ _ =>
      sat_bind (sat_findTensorAlias hsize cache start _ _ 0) fun _ _ =>
        sat_bind (sat_findTensorAlias hsize cache start _ _ 0) fun _ _ =>
          sat_layersReady hsize cache start abort _ 0

end

/-- The probe of a module, with the cache emptied before and filled after it, and the search for
the tensors of a model that it accepts. -/
def readModule (f : Image) (start : ℕ) (aliasAbort abort : ℕ → ℕ → ℕ → Bool) : Outcome Unit := do
  let info ← probe none start f
  generationReady (some ⟨start, f.size, info⟩) start f info aliasAbort abort

theorem halts_readModule (hsize : f.size < 2 ^ 32) (start : ℕ)
    (aliasAbort abort : ℕ → ℕ → ℕ → Bool) : (readModule f start aliasAbort abort).Halts :=
  (sat_bind (sat_probe hsize none start) fun info _ =>
    sat_generationReady hsize _ start info aliasAbort abort).halts

end MicroK.Gguf
