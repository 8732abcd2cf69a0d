import MicroK.IwlWaits

/-!
# What a call can do

The rules for waits carried to the calls of the driver. Each structure lists what a relation between
states has to admit for one more layer of the driver to keep it: the work on a key frame, the
handshake code with its deferral check, polling, joining a network, and all calls.
-/

namespace MicroK.Iwl

open Checked Keeps

/-- A relation that the work on a key frame cannot upset: it admits any change of the key material
but the packet number. -/
structure KeyFree (R : Wifi → Wifi → Prop) : Prop extends Admissible R where
  verified : ∀ s ptk, R s (s.record (.verified ptk))
  installed : ∀ s temporalKey, R s (s.record (.installed temporalKey))
  keys : ∀ s w, w.txPacketNumber = s.wpa.txPacketNumber → R s { s with wpa := w }
  ready : ∀ s, R s { s with link := { s.link with securityReady := true } }

namespace KeyFree

variable {R : Wifi → Wifi → Prop} (hR : KeyFree R) {env : Env} {send : Sender}

include hR

theorem keeps_setWpa {f : Wpa2State → Wpa2State}
    (h : ∀ w, (f w).txPacketNumber = w.txPacketNumber) : Keeps R (setWpa f) :=
  Keeps.modify fun s => hR.keys s _ (h s.wpa)

theorem keeps_setWpaError (error : ℕ) : Keeps R (setWpaError error) :=
  hR.keeps_setWpa fun _ => rfl

theorem keeps_handleMessage1 (body : List UInt8) : Keeps R (handleMessage1 body) := by
  refine get_bind fun s => hR.keeps_bind (hR.keeps_setWpa fun _ => rfl) fun _ => ?_
  refine lift_bind fun message2 _ => hR.keeps_bind (hR.send message2) fun accepted => ?_
  exact Keeps.ite (fun _ => hR.keeps_setWpa fun _ => rfl) fun _ => hR.keeps_setWpaError 3

variable (hsend : ∀ c capacity, Keeps R (send c capacity))

include hsend

theorem keeps_installPairwiseCcmpKey : Keeps R (installPairwiseCcmpKey send) := by
  refine get_bind fun s => hR.keeps_bind (hsend _ _) fun response => ?_
  refine hR.keeps_bind (hR.keeps_setWpa fun _ => rfl) fun _ => hR.keeps_when fun _ => ?_
  exact hR.keeps_then (Keeps.modify fun t => hR.installed t _)

theorem keeps_unwrapAndInstallGtk (body : List UInt8) :
    Keeps R (unwrapAndInstallGtk send body) := by
  refine hR.keeps_guard fun _ => get_bind fun s => ?_
  split
  · split
    · exact hR.keeps_pure false
    · refine hR.keeps_bind (hsend _ _) fun response => hR.keeps_when fun _ => ?_
      exact hR.keeps_then (hR.keeps_setWpa fun _ => rfl)
  · exact hR.keeps_pure false

theorem keeps_finishHandshake (body : List UInt8) : Keeps R (finishHandshake send body) := by
  refine get_bind fun s => hR.keeps_bind (hR.keeps_when (fun _ => ?_)) fun enabled =>
    Keeps.ite (fun _ => ?_) fun _ => ?_
  · exact get_bind fun t => hR.keeps_then (hsend _ _)
  · refine get_bind fun t => lift_bind fun message4 _ => ?_
    refine hR.keeps_bind (hR.send message4) fun accepted => Keeps.ite (fun _ => ?_) fun _ => ?_
    · refine hR.keeps_bind (hR.keeps_setWpa fun _ => rfl) fun _ => ?_
      exact hR.keeps_then (Keeps.modify hR.ready)
    · exact hR.keeps_then (hR.keeps_setWpaError 8)
  · exact hR.keeps_then (hR.keeps_setWpaError 11)

theorem keeps_installKeys (body : List UInt8) : Keeps R (installKeys send body) := by
  refine hR.keeps_bind (hR.keeps_installPairwiseCcmpKey hsend) fun installed =>
    Keeps.ite (fun _ => ?_) fun _ => hR.keeps_then (hR.keeps_setWpaError 7)
  refine hR.keeps_bind (hR.keeps_when (fun _ => hR.keeps_unwrapAndInstallGtk hsend body))
    fun grouped =>
    Keeps.ite (fun _ => hR.keeps_finishHandshake hsend body)
      fun _ => hR.keeps_then (hR.keeps_setWpaError 9)

theorem keeps_handleMessage3 (body : List UInt8) : Keeps R (handleMessage3 send body) := by
  have hrefuse : ∀ error, Keeps R (do setWpaError error; pure Progress.unkeyed) :=
    fun error => hR.keeps_then (hR.keeps_setWpaError error)
  refine get_bind fun s => Keeps.ite (fun _ => hrefuse 13) fun _ => ?_
  refine Keeps.ite (fun _ => hrefuse 5) fun _ => Keeps.ite (fun _ => hrefuse 6) fun _ => ?_
  refine hR.keeps_bind (Keeps.modify fun t => hR.verified t _) fun _ => ?_
  exact hR.keeps_bind (hR.keeps_setWpa fun _ => rfl) fun _ => hR.keeps_installKeys hsend body

theorem keeps_handleKeyFrame (ethernet : List UInt8) : Keeps R (handleKeyFrame send ethernet) := by
  refine hR.keeps_guard fun _ => lift_bind fun body _ => ?_
  refine get_bind fun s => Keeps.ite
    (fun _ => hR.keeps_then (hR.keeps_setWpaError 12)) fun _ => ?_
  refine hR.keeps_guard fun _ => Keeps.ite
    (fun _ => hR.keeps_then (hR.keeps_handleMessage1 body)) fun _ => ?_
  exact hR.keeps_when (fun _ => hR.keeps_handleMessage3 hsend body)

end KeyFree

theorem handleWpa2Eapol_cases {send : Sender} {ethernet : List UInt8} {s s' : Wifi} {taken : Bool}
    (h : handleWpa2Eapol send ethernet s = .ok (taken, s')) :
    s' = s ∨
    ((s.commandWaitActive = true ∨ s.runtimePollProcessing = true) ∧
      deferFrame ethernet (s.record .offered) = .ok ((), s')) ∨
    (s.commandWaitActive = false ∧ s.runtimePollProcessing = false ∧ ∃ progress t,
      handleKeyFrame send ethernet ((s.record .offered).record .entered) = .ok (progress, t) ∧
        s' = t.record (.left progress)) := by
  obtain ⟨s₀, s₁, hget, h₁⟩ := bind_eq_ok.mp h
  cases hget
  split_ifs at h₁ with hinactive hflags
  · exact .inl (Prod.mk.inj (Outcome.ok.inj h₁)).2.symm
  · obtain ⟨_, s₁, hoffered, h₂⟩ := bind_eq_ok.mp h₁
    obtain ⟨_, s₂, hdefer, h₃⟩ := bind_eq_ok.mp h₂
    cases hoffered
    cases h₃
    exact .inr (.inl ⟨hflags, hdefer⟩)
  · obtain ⟨_, s₁, hoffered, h₂⟩ := bind_eq_ok.mp h₁
    obtain ⟨_, s₂, hentered, h₃⟩ := bind_eq_ok.mp h₂
    obtain ⟨progress, t, hwork, h₄⟩ := bind_eq_ok.mp h₃
    obtain ⟨_, s₃, hleft, h₅⟩ := bind_eq_ok.mp h₄
    cases hoffered
    cases hentered
    cases hleft
    cases h₅
    rw [not_or, Bool.not_eq_true, Bool.not_eq_true] at hflags
    exact .inr (.inr ⟨hflags.1, hflags.2, progress, t, hwork, rfl⟩)

theorem Admissible.keeps_deferFrame {R : Wifi → Wifi → Prop} (hR : Admissible R)
    (herror : ∀ s, R s { s with wpa := { s.wpa with error := 10 } }) (ethernet : List UInt8) :
    Keeps R (deferFrame ethernet) := by
  refine get_bind fun t => Keeps.ite (fun _ => ?_) fun _ => Keeps.modify herror
  exact lift_bind fun _ _ => hR.keeps_quiet fun _ => .of_eq rfl

/-- A relation that the handshake code as a whole cannot upset. -/
structure Indifferent (R : Wifi → Wifi → Prop) : Prop extends KeyFree R where
  offered : ∀ s, R s (s.record .offered)
  entered : ∀ s, R s (s.record .entered)
  left : ∀ s progress, R s (s.record (.left progress))

namespace Indifferent

variable {R : Wifi → Wifi → Prop} (hR : Indifferent R)

include hR

theorem keeps_handleWpa2Eapol {send : Sender} (hsend : ∀ c capacity, Keeps R (send c capacity))
    (ethernet : List UInt8) : Keeps R (handleWpa2Eapol send ethernet) := by
  refine get_bind fun s => hR.keeps_guard fun _ => ?_
  refine hR.keeps_bind (Keeps.modify hR.offered) fun _ => Keeps.ite (fun _ => ?_) fun _ => ?_
  · exact hR.keeps_then (hR.keeps_deferFrame (fun s => hR.keys s _ rfl) ethernet)
  · refine hR.keeps_bind (Keeps.modify hR.entered) fun _ => ?_
    refine hR.keeps_bind (hR.keeps_handleKeyFrame hsend ethernet) fun progress => ?_
    exact hR.keeps_then (Keeps.modify fun s => hR.left s progress)

theorem keeps_eapol (env : Env) (ethernet : List UInt8) : Keeps R (eapol env ethernet) :=
  hR.keeps_eapolAt (fun _ hsend => hR.keeps_handleWpa2Eapol hsend) env.fuel ethernet

end Indifferent

/-- A relation kept by the handshake code and by what a poll does. -/
structure Polling (env : Env) (R : Wifi → Wifi → Prop) : Prop extends Admissible R where
  eapol : ∀ ethernet, Keeps R (Iwl.eapol env ethernet)
  flags : ∀ s processing, R s { s with runtimePollProcessing := processing }

namespace Polling

variable {env : Env} {R : Wifi → Wifi → Prop} (hR : Polling env R)

include hR

theorem keeps_sendCommand (c : FwCommand) (capacity : Option ℕ) :
    Keeps R (sendCommand env c capacity) := hR.keeps_sendCommandSync hR.eapol c capacity

theorem keeps_pollCompletions (closed fuel : ℕ) : Keeps R (pollCompletions env closed fuel) := by
  induction fuel with
  | zero => exact Keeps.endless
  | succ fuel ih =>
    refine get_bind fun s => hR.keeps_guard fun _ => ?_
    refine Keeps.ite (fun _ => ?_) fun _ => ?_
    · refine hR.keeps_bind (hR.keeps_pollPackets hR.eapol _ _ _) fun _ => ?_
      refine get_bind fun t => hR.keeps_bind (hR.keeps_recycleRxBuffer _) fun _ => ?_
      refine Keeps.ite (fun _ => hR.keeps_bind hR.keeps_advanceReadIndex fun _ => ih) fun _ => ?_
      exact hR.keeps_then (hR.keeps_quiet fun _ => .of_eq rfl)
    · refine hR.keeps_bind (hR.keeps_quiet fun _ => .of_eq rfl) fun _ => ?_
      exact hR.keeps_bind hR.keeps_advanceReadIndex fun _ => ih

theorem keeps_handlePending : Keeps R (handlePending env) := by
  refine get_bind fun s => hR.keeps_when fun _ => ?_
  refine hR.keeps_bind (hR.keeps_quiet fun _ => .of_eq rfl) fun _ => ?_
  exact hR.keeps_bind (hR.eapol _) fun _ =>
    hR.keeps_quiet fun _ => .of_eq rfl

theorem keeps_poll : Keeps R (poll env) := by
  refine get_bind fun s => hR.keeps_guard fun _ => ?_
  refine hR.keeps_bind hR.keeps_readStatus fun closed => ?_
  refine hR.keeps_bind (Keeps.modify fun s => hR.flags s true) fun _ => ?_
  refine hR.keeps_bind (hR.keeps_pollCompletions closed _) fun finished => ?_
  refine hR.keeps_bind (Keeps.modify fun s => hR.flags s false) fun _ => ?_
  exact hR.keeps_when (fun _ => hR.keeps_handlePending)

theorem keeps_pollUntil (done : Wifi → Bool) (rounds : ℕ) :
    Keeps R (pollUntil env done rounds) := by
  induction rounds with
  | zero => exact hR.keeps_pure ()
  | succ rounds ih =>
    exact get_bind fun s => hR.keeps_guard fun _ => hR.keeps_bind hR.keeps_poll fun _ => ih

end Polling

/-- A relation that only depends on whether the link is up and whether it is secured, as far as the
link is concerned. -/
structure Preparing (env : Env) (R : Wifi → Wifi → Prop) : Prop extends Polling env R where
  context : ∀ s l, l.associated = s.link.associated → l.securityReady = s.link.securityReady →
    R s { s with link := l }

namespace Preparing

variable {env : Env} {R : Wifi → Wifi → Prop} (hR : Preparing env R)

include hR

theorem keeps_setLink {f : Link → Link} (hup : ∀ l, (f l).associated = l.associated)
    (hready : ∀ l, (f l).securityReady = l.securityReady) : Keeps R (setLink f) :=
  Keeps.modify fun s => hR.context s (f s.link) (hup s.link) (hready s.link)

theorem keeps_associationFails (error : ℕ) : Keeps R (associationFails error) :=
  hR.keeps_then (hR.keeps_setLink (fun _ => rfl) fun _ => rfl)

theorem keeps_prepareAssociation (networkIndex : ℕ) :
    Keeps R (prepareAssociation env networkIndex) := by
  refine hR.keeps_bind (hR.keeps_setLink (fun _ => rfl) fun _ => rfl)
    fun _ => get_bind fun s => ?_
  refine Keeps.dite (fun hindex => ?_) fun _ => hR.keeps_associationFails 1
  refine Keeps.ite (fun _ => hR.keeps_associationFails 1) fun _ => ?_
  refine Keeps.ite (fun _ => hR.keeps_associationFails 2) fun _ => ?_
  refine hR.keeps_bind (hR.keeps_sendCommand _ _) fun phy => ?_
  refine Keeps.ite (fun _ => hR.keeps_associationFails 3) fun _ => get_bind fun t => ?_
  refine hR.keeps_bind (hR.keeps_sendCommand _ _) fun mac => ?_
  refine Keeps.ite (fun _ => hR.keeps_associationFails 4) fun _ => ?_
  refine hR.keeps_bind (hR.keeps_sendCommand _ _) fun binding => ?_
  cases binding with
  | none => exact hR.keeps_associationFails 5
  | some status =>
    refine Keeps.ite (fun _ => hR.keeps_associationFails 5) fun _ => ?_
    exact hR.keeps_then (hR.keeps_setLink (fun _ => rfl) fun _ => rfl)

theorem keeps_finalizeFirmwareAssociation (index : Fin 16) :
    Keeps R (finalizeFirmwareAssociation env index) := by
  refine get_bind fun s => hR.keeps_bind (hR.keeps_sendCommand _ _) fun station => ?_
  refine hR.keeps_when fun _ => ?_
  refine hR.keeps_bind (hR.keeps_sendCommand _ _) fun queue => ?_
  refine hR.keeps_when (fun _ => get_bind fun t => ?_)
  refine hR.keeps_bind (hR.keeps_sendCommand _ _) fun mac => ?_
  refine hR.keeps_when fun _ => ?_
  exact hR.keeps_then (hR.keeps_setLink (fun _ => rfl) fun _ => rfl)

end Preparing

/-- A relation that does not depend on the link, and that admits the frames of an association. -/
structure Joining (env : Env) (R : Wifi → Wifi → Prop) : Prop extends Polling env R where
  link : ∀ s l, R s { s with link := l }
  joined : ∀ s rsn, R s (s.record (.joined rsn))
  authentication : ∀ network mac frame, authenticationFrame network mac = .ok frame →
    Keeps R (sendManagementFrame frame)
  association : ∀ network mac frame, associationRequest network mac = .ok frame →
    Keeps R (sendManagementFrame frame)

namespace Joining

variable {env : Env} {R : Wifi → Wifi → Prop} (hR : Joining env R)

include hR

theorem preparing : Preparing env R where
  toPolling := hR.toPolling
  context s l _ _ := hR.link s l

theorem keeps_setLink (f : Link → Link) : Keeps R (setLink f) :=
  Keeps.modify fun s => hR.link s (f s.link)

theorem keeps_associateOpen (networkIndex : ℕ) : Keeps R (associateOpen env networkIndex) := by
  refine hR.keeps_bind (hR.preparing.keeps_prepareAssociation networkIndex) fun prepared => ?_
  refine hR.keeps_when (fun _ => get_bind fun s => ?_)
  refine hR.keeps_bind (hR.keeps_setLink _) fun _ => lift_bind fun frame hframe => ?_
  refine hR.keeps_bind (hR.authentication _ _ _ hframe) fun sent => ?_
  refine hR.keeps_when fun _ => ?_
  refine hR.keeps_bind (hR.keeps_pollUntil _ _) fun _ => get_bind fun t => ?_
  refine Keeps.ite (fun _ => hR.preparing.keeps_associationFails 6) fun _ => ?_
  refine lift_bind fun frame hframe => ?_
  refine hR.keeps_bind (hR.association _ _ _ hframe) fun sent => ?_
  refine hR.keeps_when fun _ => ?_
  refine hR.keeps_bind (hR.keeps_pollUntil _ _) fun _ => get_bind fun u => ?_
  refine Keeps.ite (fun _ => hR.preparing.keeps_associationFails 7) fun _ => ?_
  refine hR.keeps_bind (hR.preparing.keeps_finalizeFirmwareAssociation _) fun finalized => ?_
  refine Keeps.ite (fun _ => get_bind fun v => ?_)
    fun _ => hR.preparing.keeps_associationFails 8
  refine hR.keeps_bind (hR.keeps_setLink _) fun _ => ?_
  exact hR.keeps_then (Keeps.modify fun s => hR.joined s _)

end Joining

/-- A relation that admits everything the calls of the driver do, where connection attempts are only
made in states with `P`. -/
structure Calling (env : Env) (P : Wifi → Prop) (R : Wifi → Wifi → Prop) : Prop
    extends Joining env R where
  associating : ∀ s, R s (s.record .associating)
  connecting : ∀ s w, P s → w.txPacketNumber = 0 → R s { s.record .connecting with wpa := w }
  progress : ∀ s w, w.txPacketNumber = s.wpa.txPacketNumber → R s { s with wpa := w }

/-- A call that is made in a state with `P`, if it is a connection attempt. -/
inductive CallWith (env : Env) (P : Wifi → Prop) : Wifi → Wifi → Prop
  | call {s s' : Wifi} {result : Bool} (c : Call) (hrun : c.run env s = .ok (result, s'))
    (hconnect : ∀ networkIndex passphrase, c = .connect networkIndex passphrase → P s) :
    CallWith env P s s'

namespace Calling

variable {env : Env} {P : Wifi → Prop} {R : Wifi → Wifi → Prop} (hR : Calling env P R)

include hR

theorem keeps_setWpa {f : Wpa2State → Wpa2State}
    (h : ∀ w, (f w).txPacketNumber = w.txPacketNumber) : Keeps R (setWpa f) :=
  Keeps.modify fun s => hR.progress s _ (h s.wpa)

theorem ensures_connectWpa2 (networkIndex : ℕ) (passphrase : List UInt8) {s₀ : Wifi}
    (hs : P s₀) :
    Ensures (· = s₀) (connectWpa2 env networkIndex passphrase) fun _ s => R s₀ s := by
  have hfails {f : Wpa2State → Wpa2State} (hf : ∀ w, (f w).txPacketNumber = w.txPacketNumber) :
      Keeps R (do setWpa f; pure false) := hR.keeps_then (hR.keeps_setWpa hf)
  have hnothing : Ensures (· = s₀) (pure false : Driver Bool) fun _ s => R s₀ s :=
    Ensures.pure fun t ht => ht ▸ hR.refl t
  apply Ensures.get_bind
  rintro s rfl
  refine Ensures.dite (fun _ => ?_) fun _ => hnothing
  refine Ensures.ite (fun _ => ?_) fun _ => hnothing
  refine Ensures.modify_then (T := fun t => t = s.record .connecting) (fun t ht => ht ▸ rfl) ?_
  refine Ensures.modify_then (T := R s) ?_ ?_
  · rintro t rfl
    exact hR.connecting s _ hs rfl
  refine hR.ensures_of_keeps ?_ s fun _ => id
  split
  · exact hfails fun _ => rfl
  · refine hR.keeps_bind (hR.keeps_setWpa fun _ => rfl) fun _ => ?_
    refine hR.keeps_bind (hR.keeps_associateOpen networkIndex) fun joined => ?_
    refine Keeps.ite (fun _ => ?_) fun _ => hfails fun _ => rfl
    refine hR.keeps_bind (hR.keeps_pollUntil _ _) fun _ => get_bind fun t => ?_
    exact hR.keeps_when (fun _ => hfails fun _ => rfl)

theorem of_call {s s' : Wifi} (hcall : CallWith env P s s') : R s s' := by
  obtain ⟨c, hrun, hconnect⟩ := hcall
  cases c with
  | poll =>
    have hpoll := hR.keeps_bind hR.keeps_poll fun _ => hR.keeps_pure true
    exact hpoll _ _ _ hrun
  | associate networkIndex =>
    have hassociate := hR.keeps_bind (Keeps.modify hR.associating)
      fun _ => hR.keeps_associateOpen networkIndex
    exact hassociate _ _ _ hrun
  | connect networkIndex passphrase =>
    have hs := hconnect networkIndex passphrase rfl
    exact hR.ensures_connectWpa2 networkIndex passphrase hs _ rfl _ _ hrun
  | send ethernet => exact hR.send ethernet _ _ _ hrun

theorem of_calls {s s' : Wifi} (hcalls : Relation.ReflTransGen (CallWith env P) s s') :
    R s s' := by
  induction hcalls with
  | refl => exact hR.refl s
  | tail _ hcall ih => exact hR.trans _ _ _ ih (hR.of_call hcall)

end Calling

end MicroK.Iwl
