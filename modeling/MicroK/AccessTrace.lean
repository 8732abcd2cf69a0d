import Mathlib.Tactic

/-!
# Computations that record their accesses

A computation over buffers is given by the accesses it makes and by its result; without a result it
has stopped early. `x ≤ y` says that `y` makes all accesses of `x` and goes on where `x` does: what
holds of the accesses of `y` holds of those of every computation below it.
-/

namespace MicroK

structure Access where
  index : ℕ
  count : ℕ
  deriving DecidableEq

def Access.InBounds (a : Access) : Prop := a.index < a.count

structure Traced (α : Type) where
  accesses : List Access
  result : Option α

namespace Traced

variable {α β : Type} (x : Traced α) (f : α → Traced β)

def bind : Traced β :=
  match x.result with
  | none => ⟨x.accesses, none⟩
  | some a => ⟨x.accesses ++ (f a).accesses, (f a).result⟩

instance : Monad Traced where
  pure a := ⟨[], some a⟩
  bind := Traced.bind

def stop : Traced α := ⟨[], none⟩

def touch (accesses : List Access) : Traced Unit := ⟨accesses, some ()⟩

def InBounds : Prop := ∀ a ∈ x.accesses, a.InBounds

@[simp] theorem inBounds_pure (a : α) : (pure a : Traced α).InBounds := by
  intro x hx
  cases hx

@[simp] theorem inBounds_stop : (stop : Traced α).InBounds := by
  intro x hx
  cases hx

@[simp] theorem result_pure (a : α) : (pure a : Traced α).result = some a := rfl

@[simp] theorem result_stop : (stop : Traced α).result = none := rfl

@[simp] theorem result_touch (l : List Access) : (touch l).result = some () := rfl

theorem result_bind :
    (x >>= f).result = x.result.bind fun a => (f a).result := by
  change (Traced.bind x f).result = _
  unfold Traced.bind
  cases x.result <;> rfl

theorem inBounds_bind :
    (x >>= f).InBounds ↔ x.InBounds ∧ ∀ a, x.result = some a → (f a).InBounds := by
  change (Traced.bind x f).InBounds ↔ _
  unfold InBounds Traced.bind
  cases x.result with
  | none => simp
  | some a => simp [or_imp, forall_and]

variable {f : Unit → Traced β} {x : Traced Unit}

theorem inBounds_then (hx : x.result = some ()) :
    (x >>= f).InBounds ↔ x.InBounds ∧ (f ()).InBounds := by
  rw [inBounds_bind, hx]
  exact and_congr_right fun _ => ⟨fun h => h () rfl, fun h _ _ => h⟩

theorem result_seq {b : β} :
    (x >>= f).result = some b ↔ x.result = some () ∧ (f ()).result = some b := by
  rw [result_bind, Option.bind_eq_some_iff]
  exact Unique.exists_iff

theorem inBounds_seq :
    (x >>= f).InBounds ↔ x.InBounds ∧ (x.result = some () → (f ()).InBounds) := by
  rw [inBounds_bind]
  exact and_congr_right fun _ => Unique.forall_iff

theorem result_then (hx : x.result = some ()) : (x >>= f).result = (f ()).result := by
  rw [result_bind, hx, Option.bind_some]

theorem inBounds_touch (l : List Access) : (touch l).InBounds ↔ ∀ a ∈ l, a.InBounds := Iff.rfl

instance : LE (Traced α) where
  le x y := x.accesses ⊆ y.accesses ∧ ∀ a, x.result = some a → y.result = some a

theorem le_refl (x : Traced α) : x ≤ x := ⟨List.Subset.refl _, fun _ h => h⟩

theorem stop_le (x : Traced α) : stop ≤ x := ⟨List.nil_subset _, fun _ h => by cases h⟩

theorem bind_le_bind {x y : Traced α} {f g : α → Traced β} (hxy : x ≤ y) (hfg : ∀ a, f a ≤ g a) :
    x >>= f ≤ y >>= g := by
  change Traced.bind x f ≤ Traced.bind y g
  obtain ⟨hsub, hres⟩ := hxy
  unfold Traced.bind
  cases hx : x.result with
  | none =>
    refine ⟨?_, fun _ h => by cases h⟩
    cases y.result with
    | none => exact hsub
    | some b => exact List.subset_append_of_subset_left _ hsub
  | some a =>
    rw [hres a hx]
    exact ⟨List.append_subset.mpr ⟨List.subset_append_of_subset_left _ hsub,
      List.subset_append_of_subset_right _ (hfg a).1⟩, (hfg a).2⟩

theorem InBounds.of_le {x y : Traced α} (h : y.InBounds) (hxy : x ≤ y) : x.InBounds :=
  fun a ha => h a (hxy.1 ha)

end Traced

end MicroK
