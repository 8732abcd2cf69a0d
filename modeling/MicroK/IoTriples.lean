import MicroK.BlockDevice

/-!
# Pre- and postconditions for computations on a device

`Io.Triple P x Q` says that `x` started on a device where `P` holds ends with a result and a device
in the relation `Q`. A logged device keeps a list of the accesses that were made to it.
-/

namespace MicroK

namespace Io

variable {σ α β : Type}

def Triple (P : σ → Prop) (x : Io σ α) (Q : α → σ → Prop) : Prop :=
  ∀ w, P w.dev → Q (x w).1 (x w).2.dev

/-- The condition is kept. -/
abbrev Keeps (P : σ → Prop) (x : Io σ α) : Prop := Triple P x fun _ => P

namespace Triple

variable {P P' : σ → Prop} {Q Q' : α → σ → Prop} {R : β → σ → Prop} {x : Io σ α}

theorem conseq (h : Triple P x Q) (hP : ∀ s, P' s → P s)
    (hQ : ∀ a s, Q a s → Q' a s) : Triple P' x Q' :=
  fun w hw => hQ _ _ (h w (hP _ hw))

theorem mono (h : Triple P x Q) (hQ : ∀ a s, Q a s → Q' a s) : Triple P x Q' :=
  h.conseq (fun _ => id) hQ

theorem pure {a : α} (h : ∀ s, P s → Q a s) : Triple P (Pure.pure a) Q := fun _ hw => h _ hw

theorem done {a : α} : Keeps P (Pure.pure a) := pure fun _ => id

theorem none {F : α → Prop} :
    Triple P (Pure.pure Option.none) fun r s => (∀ a, r = some a → F a) ∧ P s :=
  pure fun _ hs => ⟨nofun, hs⟩

theorem bind {f : α → Io σ β} (hx : Triple P x Q)
    (hf : ∀ a, Triple (Q a) (f a) R) : Triple P (x >>= f) R :=
  fun w hw => hf _ _ (hx w hw)

theorem ite {p : Prop} [Decidable p] {x y : Io σ α} (hx : p → Triple P x Q)
    (hy : ¬p → Triple P y Q) : Triple P (if p then x else y) Q := by
  split_ifs with h
  · exact hx h
  · exact hy h

/-- An early return. -/
theorem guard {p : Prop} [Decidable p] {a : α} {y : Io σ α} (hy : ¬p → Keeps P y) :
    Keeps P (if p then Pure.pure a else y) := ite (fun _ => done) hy

theorem of_fact {p : Prop} (h : p → Triple P x Q) :
    Triple (fun s => p ∧ P s) x Q := fun w hw => h hw.1 w hw.2

theorem bind_fact {F : α → Prop} {f : α → Io σ β} (hx : Triple P x fun a s => F a ∧ P' s)
    (hf : ∀ a, F a → Triple P' (f a) R) : Triple P (x >>= f) R :=
  bind hx fun a => of_fact (hf a)

/-- A step that may give nothing. -/
theorem bind_opt {x : Io σ (Option α)} {F : α → Prop} {f : Option α → Io σ β}
    (hx : Triple P x fun r s => (∀ a, r = some a → F a) ∧ P' s) (hnone : Triple P' (f .none) R)
    (hsome : ∀ a, F a → Triple P' (f (some a)) R) : Triple P (x >>= f) R := by
  refine bind_fact hx fun r hr => ?_
  cases r with
  | none => exact hnone
  | some a => exact hsome a (hr a rfl)

variable (env : Env σ)

theorem keeps_opt {x : Io σ (Option α)} {f : Option α → Io σ β} (hx : Keeps P x)
    (hnone : Triple P (f .none) R) (hsome : ∀ a, Triple P (f (some a)) R) : Triple P (x >>= f) R :=
  bind_opt (F := fun _ => True) (hx.mono fun _ _ hs => ⟨fun _ _ => trivial, hs⟩) hnone
    fun a _ => hsome a

theorem kmallocBuf : Keeps P (MicroK.kmallocBuf env) := fun _ hw => hw

theorem stackBuf : Keeps P (MicroK.stackBuf env) := fun _ hw => hw

theorem sysAbortRequested : Keeps P (MicroK.sysAbortRequested env) := fun _ hw => hw

end Triple

end Io

structure DeviceAccess where
  write : Bool
  offset : ℕ
  size : ℕ
deriving DecidableEq, Repr

def Device.logged {σ : Type} (dev : Device σ) : Device (σ × List DeviceAccess) where
  blockSize := dev.blockSize
  read := dev.read.map fun read s offset size =>
    let got := read s.1 offset size
    (got.1, (got.2, s.2 ++ [⟨false, offset, size⟩]))
  write := dev.write.map fun write s offset size buffer =>
    (write s.1 offset size buffer, s.2 ++ [⟨true, offset, size⟩])

def AllLogged {σ : Type} (ok : DeviceAccess → Prop) (s : σ × List DeviceAccess) : Prop :=
  ∀ a ∈ s.2, ok a

theorem AllLogged.append {σ : Type} {ok : DeviceAccess → Prop} {d d' : σ} {log : List DeviceAccess}
    {a : DeviceAccess} (h : AllLogged ok (d, log)) (ha : ok a) : AllLogged ok (d', log ++ [a]) := by
  intro b hb
  rcases List.mem_append.mp hb with hb | hb
  · exact h b hb
  · rw [List.mem_singleton.mp hb]
    exact ha

section

variable {ok : DeviceAccess → Prop}

theorem vfsReadDevice_logged {offset size : ℕ} {buffer : Buf} {P : Buf → Prop}
    (hend : offset + size ≤ 2 ^ 32) (hok : ok ⟨false, offset, size⟩) :
    Io.Triple (fun s => AllLogged ok s ∧ P s.1)
      (vfsReadDevice (diskDevice true).logged offset size buffer)
      fun r s => (AllLogged ok s ∧ P s.1) ∧ r = some (buffer.copyAt 0 size (s.1.from offset)) := by
  rintro ⟨⟨d, log⟩, allocs, polls⟩ ⟨hlog, hP⟩
  have hplain : vfsReadDevice (diskDevice true) offset size buffer ⟨d, allocs, polls⟩ =
    (some (buffer.copyAt 0 size (d.from offset)), ⟨d, allocs, polls⟩) := vfsReadDevice_disk hend
  exact ⟨⟨hlog.append hok, hP⟩, congrArg Prod.fst hplain⟩

theorem vfsWriteDevice_logged {offset size : ℕ} {buffer : Buf} {P P' : Buf → Prop}
    (hend : offset + size ≤ 2 ^ 32) (hok : ok ⟨true, offset, size⟩)
    (hP : ∀ d, P d → P' (d.copyAt offset size buffer)) :
    Io.Triple (fun s => AllLogged ok s ∧ P s.1)
      (vfsWriteDevice (diskDevice true).logged offset size buffer)
      fun _ s => AllLogged ok s ∧ P' s.1 := by
  rintro ⟨⟨d, log⟩, allocs, polls⟩ ⟨hlog, hd⟩
  have hplain : vfsWriteDevice (diskDevice true) offset size buffer ⟨d, allocs, polls⟩ =
    ((), ⟨d.copyAt offset size buffer, allocs, polls⟩) := vfsWriteDevice_disk hend
  have hdisk : (vfsWriteDevice (diskDevice true) offset size buffer ⟨d, allocs, polls⟩).2.dev =
    d.copyAt offset size buffer := by rw [hplain]
  have hafter := hP d hd
  rw [← hdisk] at hafter
  exact ⟨hlog.append hok, hafter⟩

end

end MicroK
