import MicroK.ByteImage

/-!
# Checked computations on a state

A computation takes a state to a result and a new state, or to one of the outcomes that must not
happen. `Total P x Q` says that `x` started where `P` holds ends with a result and a state in the
relation `Q`. Buffers that a computation writes to are byte images of a fixed size; a write outside
of one is a fault.
-/

namespace MicroK

def Checked (σ α : Type) : Type := σ → Outcome (α × σ)

namespace Checked

variable {σ α β : Type}

instance : Monad (Checked σ) where
  pure a := fun s => .ok (a, s)
  bind x f := fun s => (x s).bind fun r => f r.1 r.2

def get : Checked σ σ := fun s => .ok (s, s)

def modify (f : σ → σ) : Checked σ Unit := fun s => .ok ((), f s)

def lift (x : Outcome α) : Checked σ α := fun s => x.bind fun a => .ok (a, s)

def endless : Checked σ α := fun _ => .endless

@[simp] theorem pure_apply (a : α) (s : σ) : (pure a : Checked σ α) s = .ok (a, s) := rfl

@[simp] theorem get_apply (s : σ) : (get : Checked σ σ) s = .ok (s, s) := rfl

@[simp] theorem modify_apply (f : σ → σ) (s : σ) : modify f s = .ok ((), f s) := rfl

variable {x : Checked σ α} {a : α}

theorem bind_of_ok {f : α → Checked σ β} {s s' : σ}
    (hx : x s = .ok (a, s')) : (x >>= f) s = f a s' := by
  change (x s).bind _ = _
  rw [hx]
  rfl

theorem lift_bind_of_ok {y : Outcome α} (hy : y = .ok a) (f : α → Checked σ β) (s : σ) :
    (lift y >>= f) s = f a s := by
  rw [hy]
  rfl

/-! The result of a run and the state after it, for runs that end. -/

def result (x : Checked σ α) (s : σ) : Option α :=
  match x s with
  | .ok (a, _) => some a
  | _ => none

def after (x : Checked σ α) (s : σ) : σ :=
  match x s with
  | .ok (_, s') => s'
  | _ => s

theorem run_eq_ok {s : σ} (h : result x s = some a) : x s = .ok (a, after x s) := by
  unfold result at h
  unfold after
  cases hrun : x s with
  | ok r =>
    rw [hrun] at h
    rw [← Option.some.inj h]
  | fault => rw [hrun] at h; cases h
  | endless => rw [hrun] at h; cases h
  | reject => rw [hrun] at h; cases h

def Total (P : σ → Prop) (x : Checked σ α) (Q : α → σ → Prop) : Prop :=
  ∀ s, P s → ∃ a s', x s = .ok (a, s') ∧ Q a s'

namespace Total

variable {P P' : σ → Prop} {Q Q' : α → σ → Prop} {R : β → σ → Prop}

theorem conseq (h : Total P x Q) (hP : ∀ s, P' s → P s)
    (hQ : ∀ a s, Q a s → Q' a s) : Total P' x Q' := by
  intro s hs
  obtain ⟨a, s', hrun, hq⟩ := h s (hP s hs)
  exact ⟨a, s', hrun, hQ a s' hq⟩

theorem mono (h : Total P x Q) (hQ : ∀ a s, Q a s → Q' a s) : Total P x Q' :=
  h.conseq (fun _ => id) hQ

theorem pure (h : ∀ s, P s → Q a s) : Total P (Pure.pure a) Q :=
  fun s hs => ⟨a, s, rfl, h s hs⟩

theorem done : Total P (Pure.pure a) fun _ s => P s := pure fun _ => id

theorem bind {f : α → Checked σ β} (hx : Total P x Q)
    (hf : ∀ a, Total (Q a) (f a) R) : Total P (x >>= f) R := by
  intro s hs
  obtain ⟨a, s', hrun, hq⟩ := hx s hs
  rw [bind_of_ok hrun]
  exact hf a s' hq

theorem ite {p : Prop} [Decidable p] {x y : Checked σ α} (hx : p → Total P x Q)
    (hy : ¬p → Total P y Q) : Total P (if p then x else y) Q := by
  split_ifs with h
  · exact hx h
  · exact hy h

/-- An early return. -/
theorem guard {p : Prop} [Decidable p] {y : Checked σ α} (hy : ¬p → Total P y fun _ s => P s) :
    Total P (if p then Pure.pure a else y) fun _ s => P s := ite (fun _ => done) hy

theorem modify {f : σ → σ} {Q : σ → Prop} (h : ∀ s, P s → Q (f s)) :
    Total P (Checked.modify f) fun _ s => Q s :=
  fun s hs => ⟨(), f s, rfl, h s hs⟩

theorem lift {x : Outcome α} {F : α → Prop} (h : x.Ends F) :
    Total P (Checked.lift x) fun a s => F a ∧ P s := by
  intro s hs
  obtain ⟨a, rfl, ha⟩ := h
  exact ⟨a, s, rfl, ha, hs⟩

theorem lift_bind {x : Outcome α} {f : α → Checked σ β} (hx : x = .ok a)
    (h : Total P (f a) R) : Total P (Checked.lift x >>= f) R := by
  subst hx
  exact h

theorem of_fact {p : Prop} (h : p → Total P x Q) :
    Total (fun s => p ∧ P s) x Q := fun s hs => h hs.1 s hs.2

theorem lift_then {x : Outcome α} {F : α → Prop} {f : α → Checked σ β} (hx : x.Ends F)
    (hf : ∀ a, F a → Total P (f a) R) : Total P (Checked.lift x >>= f) R :=
  bind (lift hx) fun a => of_fact (hf a)

theorem of_eq {s : σ} (h : Total P x Q) (hs : P s) : Total (· = s) x Q :=
  h.conseq (fun _ he => he ▸ hs) fun _ _ => id

theorem get_bind {f : σ → Checked σ β} (h : ∀ s, P s → Total (· = s) (f s) R) :
    Total P (Checked.get >>= f) R := by
  intro s hs
  obtain ⟨b, s', hrun, hR⟩ := h s hs s rfl
  exact ⟨b, s', hrun, hR⟩

theorem get_then {f : σ → Checked σ β} (h : ∀ s, P s → Total P (f s) R) :
    Total P (Checked.get >>= f) R :=
  get_bind fun s hs => (h s hs).of_eq hs

theorem forM {γ : Type} {f : γ → Checked σ Unit} {l : List γ}
    (h : ∀ c ∈ l, Total P (f c) fun _ s => P s) : Total P (l.forM f) fun _ s => P s := by
  induction l with
  | nil => exact Total.done
  | cons c l ih =>
    exact Total.bind (h c List.mem_cons_self)
      fun _ => ih fun d hd => h d (List.mem_cons_of_mem c hd)

end Total

/-- A property of computations that a sequence has when its parts have it. `A` relates the states
before and after the changes that the property admits. -/
structure Rules (A : σ → σ → Prop) (J : (α : Type) → Checked σ α → Prop) : Prop where
  pure : ∀ {α : Type} (a : α), J α (Pure.pure a)
  bind : ∀ {α β : Type} {x : Checked σ α} {f : α → Checked σ β},
    J α x → (∀ a, J β (f a)) → J β (x >>= f)
  get_bind : ∀ {β : Type} {f : σ → Checked σ β}, (∀ s, J β (f s)) → J β (Checked.get >>= f)
  modify : ∀ {f : σ → σ}, (∀ s, A s (f s)) → J Unit (Checked.modify f)
  lift_bind : ∀ {α β : Type} {x : Outcome α} {F : α → Prop} {f : α → Checked σ β},
    x.Ends F → (∀ a, F a → J β (f a)) → J β (Checked.lift x >>= f)

namespace Rules

variable {A : σ → σ → Prop}

theorem total {P : σ → Prop} (h : ∀ s s', A s s' → P s → P s') :
    Rules A fun _ x => Total P x fun _ s => P s where
  pure _ := Total.done
  bind := Total.bind
  get_bind hf := Total.get_then fun s _ => hf s
  modify hf := Total.modify fun s hs => h s _ (hf s) hs
  lift_bind := Total.lift_then

/-- No part of a computation faults, whether it ends or not. -/
theorem safe : Rules A fun _ x => ∀ s, x s ≠ .fault where
  pure _ _ h := by cases h
  bind {_ _ x f} hx hf s := by
    change (x s).bind _ ≠ .fault
    cases hrun : x s with
    | fault => exact absurd hrun (hx s)
    | endless => exact fun h => by cases h
    | reject => exact fun h => by cases h
    | ok r => exact hf r.1 r.2
  get_bind hf s := hf s s
  modify _ _ h := by cases h
  lift_bind {_ _ _ _ f} hx hf s := by
    obtain ⟨a, rfl, ha⟩ := hx
    exact hf a ha s

variable {J : (α : Type) → Checked σ α → Prop}

theorem ite (_ : Rules A J) {p : Prop} [Decidable p] {x y : Checked σ α} (hx : p → J α x)
    (hy : ¬p → J α y) : J α (if p then x else y) := by
  split_ifs with h
  · exact hx h
  · exact hy h

variable (hJ : Rules A J)
include hJ

theorem guard {p : Prop} [Decidable p] {a : α} {y : Checked σ α} (hy : ¬p → J α y) :
    J α (if p then Pure.pure a else y) := hJ.ite (fun _ => hJ.pure a) hy

theorem modify_bind {f : σ → σ} {y : Checked σ α} (hf : ∀ s, A s (f s)) (hy : J α y) :
    J α (Checked.modify f >>= fun _ => y) := hJ.bind (hJ.modify hf) fun _ => hy

theorem bind_pure {x : Checked σ α} {b : α → β} (hx : J α x) :
    J β (x >>= fun a => Pure.pure (b a)) := hJ.bind hx fun a => hJ.pure (b a)

theorem forM {γ : Type} {f : γ → Checked σ Unit} {l : List γ} (h : ∀ c ∈ l, J Unit (f c)) :
    J Unit (l.forM f) := by
  induction l with
  | nil => exact hJ.pure ()
  | cons c l ih =>
    exact hJ.bind (h c List.mem_cons_self) fun _ => ih fun d hd => h d (List.mem_cons_of_mem c hd)

end Rules

end Checked

namespace Image

variable (f : Image)

def array (n off : ℕ) : Vector UInt8 n := Vector.ofFn fun i => f.byte (off + i)

def readArray (n off : ℕ) : Outcome (Vector UInt8 n) :=
  if off + n ≤ f.size then .ok (f.array n off) else .fault

def put (off : ℕ) (l : List UInt8) : Image where
  size := f.size
  byte i := if off ≤ i ∧ i < off + l.length then l.getD (i - off) 0 else f.byte i

def store (off : ℕ) (l : List UInt8) : Outcome Image :=
  if off + l.length ≤ f.size then .ok (f.put off l) else .fault

def storeAll : Image → List (ℕ × List UInt8) → Outcome Image
  | f, [] => .ok f
  | f, (off, l) :: parts => do
    let f ← f.store off l
    storeAll f parts

variable {f} {off n : ℕ}

variable (h : off + n ≤ f.size)
include h

theorem ends_readLe : (f.readLe off n).Ends fun v => v < 256 ^ n :=
  ⟨_, readLe_eq h, leValue_bytes_lt f off n⟩

theorem ends_readBytes : (f.readBytes off n).Ends fun l => l.length = n :=
  ⟨_, readBytes_eq h, length_bytes f off n⟩

theorem readArray_eq : f.readArray n off = .ok (f.array n off) := if_pos h

theorem ends_readArray : (f.readArray n off).Ends fun _ => True :=
  ⟨_, readArray_eq h, trivial⟩

omit h

@[simp] theorem size_put (f : Image) (off : ℕ) (l : List UInt8) : (f.put off l).size = f.size := rfl

theorem ends_store {l : List UInt8} (h : off + l.length ≤ f.size) :
    (f.store off l).Ends fun g => g.size = f.size :=
  ⟨_, if_pos h, size_put f off l⟩

theorem ends_storeAll {parts : List (ℕ × List UInt8)}
    (h : ∀ p ∈ parts, p.1 + p.2.length ≤ f.size) :
    (f.storeAll parts).Ends fun g => g.size = f.size := by
  induction parts generalizing f with
  | nil => exact Outcome.ends_pure rfl
  | cons p parts ih =>
    refine Outcome.ends_bind (ends_store (h p List.mem_cons_self)) fun g hg => ?_
    rw [← hg]
    exact ih fun q hq => hg ▸ h q (List.mem_cons_of_mem p hq)

end Image

end MicroK

namespace MicroK.Checked

variable {σ α β : Type}

def Ensures (P : σ → Prop) (x : Checked σ α) (Q : α → σ → Prop) : Prop :=
  ∀ s, P s → ∀ a s', x s = .ok (a, s') → Q a s'

def Keeps (R : σ → σ → Prop) (x : Checked σ α) : Prop := ∀ s a s', x s = .ok (a, s') → R s s'

variable {x : Checked σ α} {f : α → Checked σ β}

theorem bind_eq_ok {s s'' : σ} {b : β} :
    (x >>= f) s = .ok (b, s'') ↔ ∃ a s', x s = .ok (a, s') ∧ f a s' = .ok (b, s'') := by
  change (x s >>= fun r => f r.1 r.2) = .ok (b, s'') ↔ _
  rw [Outcome.bind_eq_ok]
  exact ⟨fun ⟨r, hx, hf⟩ => ⟨r.1, r.2, hx, hf⟩, fun ⟨a, s', hx, hf⟩ => ⟨(a, s'), hx, hf⟩⟩

theorem lift_eq_ok {x : Outcome α} {a : α} {s s' : σ} :
    (lift x : Checked σ α) s = .ok (a, s') ↔ x = .ok a ∧ s = s' := by
  constructor
  · intro h
    obtain ⟨b, hx, hb⟩ := Outcome.bind_eq_ok.mp (show (x >>= fun a => .ok (a, s)) = _ from h)
    cases hb
    exact ⟨hx, rfl⟩
  · rintro ⟨rfl, rfl⟩
    rfl

namespace Ensures

variable {P P' : σ → Prop} {Q Q' : α → σ → Prop} {S : β → σ → Prop}

theorem conseq (h : Ensures P x Q) (hP : ∀ s, P' s → P s)
    (hQ : ∀ a s, Q a s → Q' a s) : Ensures P' x Q' :=
  fun s hs a s' hrun => hQ a s' (h s (hP s hs) a s' hrun)

theorem mono (h : Ensures P x Q) (hQ : ∀ a s, Q a s → Q' a s) :
    Ensures P x Q' := h.conseq (fun _ => id) hQ

theorem pure {a : α} (h : ∀ s, P s → Q a s) : Ensures P (Pure.pure a) Q := by
  intro s hs b s' hrun
  cases hrun
  exact h _ hs

theorem bind (hx : Ensures P x Q) (hf : ∀ a, Ensures (Q a) (f a) S) : Ensures P (x >>= f) S := by
  intro s hs b s'' hrun
  obtain ⟨a, s', hxrun, hfrun⟩ := bind_eq_ok.mp hrun
  exact hf a s' (hx s hs a s' hxrun) b s'' hfrun

theorem done {a : α} : Ensures P (Pure.pure a) fun _ s => P s := pure fun _ => id

theorem of_eq {s : σ} (h : Ensures P x Q) (hs : P s) : Ensures (· = s) x Q :=
  h.conseq (fun _ he => he ▸ hs) fun _ _ => id

variable {p : Prop}

theorem ite [Decidable p] {x y : Checked σ α} (hx : p → Ensures P x Q)
    (hy : ¬p → Ensures P y Q) : Ensures P (if p then x else y) Q := by
  split_ifs with h
  · exact hx h
  · exact hy h

theorem dite [Decidable p] {x : p → Checked σ α} {y : ¬p → Checked σ α}
    (hx : ∀ h, Ensures P (x h) Q) (hy : ∀ h, Ensures P (y h) Q) :
    Ensures P (if h : p then x h else y h) Q := by
  by_cases h : p
  · rw [dif_pos h]
    exact hx h
  · rw [dif_neg h]
    exact hy h

theorem modify {f : σ → σ} {T : σ → Prop} (h : ∀ s, P s → T (f s)) :
    Ensures P (Checked.modify f) fun _ s => T s := by
  intro s hs a s' hrun
  cases hrun
  exact h s hs

theorem lift {x : Outcome α} : Ensures P (Checked.lift x) fun a s => x = .ok a ∧ P s := by
  intro s hs a s' hrun
  obtain ⟨hx, rfl⟩ := lift_eq_ok.mp hrun
  exact ⟨hx, hs⟩

theorem get_bind {f : σ → Checked σ β} (h : ∀ s, P s → Ensures (· = s) (f s) S) :
    Ensures P (Checked.get >>= f) S := by
  intro s hs b s' hrun
  obtain ⟨t, s₁, hget, hf⟩ := bind_eq_ok.mp hrun
  cases hget
  exact h s hs s rfl b s' hf

theorem get_then {f : σ → Checked σ β} (h : ∀ s, P s → Ensures P (f s) S) :
    Ensures P (Checked.get >>= f) S := get_bind fun s hs => (h s hs).of_eq hs

theorem of_fact (h : p → Ensures P x Q) :
    Ensures (fun s => p ∧ P s) x Q := fun s hs => h hs.1 s hs.2

theorem lift_then {x : Outcome α} (h : ∀ a, x = .ok a → Ensures P (f a) S) :
    Ensures P (Checked.lift x >>= f) S := bind lift fun a => of_fact (h a)

theorem modify_then {f : σ → σ} {T : σ → Prop} {g : Unit → Checked σ β} (hf : ∀ s, P s → T (f s))
    (hg : Ensures T (g ()) S) : Ensures P (Checked.modify f >>= g) S := bind (modify hf) fun _ => hg

end Ensures

theorem keeps_iff {R : σ → σ → Prop} : Keeps R x ↔ ∀ s₀, Ensures (· = s₀) x fun _ s => R s₀ s := by
  constructor
  · rintro h s₀ s rfl a s' hrun
    exact h s a s' hrun
  · exact fun h s a s' hrun => h s s rfl a s' hrun

namespace Keeps

variable {R R' : σ → σ → Prop}

theorem and (h : Keeps R x) (h' : Keeps R' x) : Keeps (fun s s' => R s s' ∧ R' s s') x :=
  fun s a s' hrun => ⟨h s a s' hrun, h' s a s' hrun⟩

theorem ensures {P : σ → Prop} {T : σ → Prop} (h : Keeps R x)
    (hT : ∀ s s', P s → R s s' → T s') : Ensures P x fun _ s => T s :=
  fun s hs a s' hrun => hT s s' hs (h s a s' hrun)

theorem pure (hrefl : ∀ s, R s s) (a : α) : Keeps R (Pure.pure a) := by
  intro s b s' hrun
  cases hrun
  exact hrefl _

theorem bind (htrans : ∀ s t u, R s t → R t u → R s u) (hx : Keeps R x) (hf : ∀ a, Keeps R (f a)) :
    Keeps R (x >>= f) := by
  intro s b s'' hrun
  obtain ⟨a, s', hxrun, hfrun⟩ := bind_eq_ok.mp hrun
  exact htrans s s' s'' (hx s a s' hxrun) (hf a s' b s'' hfrun)

theorem ite {p : Prop} [Decidable p] {x y : Checked σ α} (hx : p → Keeps R x)
    (hy : ¬p → Keeps R y) : Keeps R (if p then x else y) := by
  split_ifs with h
  · exact hx h
  · exact hy h

theorem dite {p : Prop} [Decidable p] {x : p → Checked σ α} {y : ¬p → Checked σ α}
    (hx : ∀ h, Keeps R (x h)) (hy : ∀ h, Keeps R (y h)) :
    Keeps R (if h : p then x h else y h) := by
  by_cases h : p
  · rw [dif_pos h]
    exact hx h
  · rw [dif_neg h]
    exact hy h

theorem modify {f : σ → σ} (h : ∀ s, R s (f s)) : Keeps R (Checked.modify f) := by
  intro s a s' hrun
  cases hrun
  exact h s

theorem endless : Keeps R (Checked.endless : Checked σ α) := fun _ _ _ hrun => nomatch hrun

theorem lift_bind {x : Outcome α} (h : ∀ a, x = .ok a → Keeps R (f a)) :
    Keeps R (Checked.lift x >>= f) := by
  intro s b s' hrun
  obtain ⟨a, t, hlift, hf⟩ := bind_eq_ok.mp hrun
  obtain ⟨hx, rfl⟩ := lift_eq_ok.mp hlift
  exact h a hx s b s' hf

theorem get_bind {f : σ → Checked σ β} (h : ∀ s, Keeps R (f s)) :
    Keeps R (Checked.get >>= f) := by
  intro s b s' hrun
  obtain ⟨t, s₁, hget, hf⟩ := bind_eq_ok.mp hrun
  cases hget
  exact h s s b s' hf

theorem forM (hrefl : ∀ s, R s s) (htrans : ∀ s t u, R s t → R t u → R s u) {γ : Type}
    {f : γ → Checked σ Unit} {l : List γ} (h : ∀ c ∈ l, Keeps R (f c)) : Keeps R (l.forM f) := by
  induction l with
  | nil => exact Keeps.pure hrefl ()
  | cons c l ih =>
    exact Keeps.bind htrans (h c List.mem_cons_self)
      fun _ => ih fun d hd => h d (List.mem_cons_of_mem c hd)

end Keeps

end MicroK.Checked
