import MicroK.IwlRuns
import MicroK.IwlAccessPoint

/-!
# Calls and the keys of a link

The calls of the driver keep the flags of a link in step with its keys, provided that a connection
attempt is only made while no link is up and that the network entry has its RSN element when the
link comes up: an attempt wipes the keys before it takes the old link down, and a link without an
RSN element is said to be secured at once.
-/

namespace MicroK.Iwl

open Checked List Keeps Ensures

/-- Whether the call that runs, or the last one, is a connection attempt with a passphrase. -/
def begunByConnect : List Event → Bool
  | [] => false
  | .connecting :: _ => true
  | .associating :: _ => false
  | _ :: t => begunByConnect t

/-- Whether the link was set up by such an attempt. -/
def setUpByConnect : List Event → Bool
  | [] => false
  | .joined _ :: t => begunByConnect t
  | _ :: t => setUpByConnect t

/-- The key under which message 3 of this link was verified last. -/
def verifiedKey : List Event → Option (List UInt8)
  | [] => none
  | .verified ptk :: _ => some ptk
  | .joined _ :: _ => none
  | _ :: t => verifiedKey t

def installedKey : List Event → Option (List UInt8)
  | [] => none
  | .installed temporalKey :: _ => some temporalKey
  | _ :: t => installedKey t

variable (s : Wifi)

def Verified : Prop := verifiedKey s.trace = some s.wpa.ptk

def Installed : Prop := installedKey s.trace = some s.wpa.temporalKey

/-- A secured link that a connection attempt has set up has its verified key installed. -/
def LinkKeyed : Prop :=
  s.link.associated = true → s.link.securityReady = true → setUpByConnect s.trace = true →
    s.wpa.stage ≠ 0 ∧ Verified s ∧ Installed s

/-- Events that say nothing of keys and of the origin of the link. -/
structure Event.Aside (e : Event) : Prop where
  begun : ∀ t, begunByConnect (e :: t) = begunByConnect t := by exact fun _ => rfl
  setUp : ∀ t, setUpByConnect (e :: t) = setUpByConnect t := by exact fun _ => rfl
  verified : ∀ t, verifiedKey (e :: t) = verifiedKey t := by exact fun _ => rfl
  installed : ∀ t, installedKey (e :: t) = installedKey t := by exact fun _ => rfl

/-- What frames can do: past stage 0 the pairwise key is never replaced, and verified and installed
keys are that key. -/
structure KeepsKeys (s s' : Wifi) : Prop where
  grows : s.trace <:+ s'.trace
  begun : begunByConnect s'.trace = begunByConnect s.trace
  setUp : setUpByConnect s'.trace = setUpByConnect s.trace
  associated : s'.link.associated = true → s.link.associated = true
  stage : s.wpa.stage ≠ 0 → s'.wpa.stage ≠ 0
  ptk : s.wpa.stage ≠ 0 → s'.wpa.ptk = s.wpa.ptk
  verified : s.wpa.stage ≠ 0 → Verified s → Verified s'
  installed : s.wpa.stage ≠ 0 → Installed s → Installed s'
  linkKeyed : LinkKeyed s → LinkKeyed s'

namespace KeepsKeys

variable (s : Wifi)

theorem refl : KeepsKeys s s :=
  ⟨suffix_refl _, rfl, rfl, id, id, fun _ => rfl, fun _ => id, fun _ => id, id⟩

theorem trans (s t u : Wifi) (h₁ : KeepsKeys s t) (h₂ : KeepsKeys t u) : KeepsKeys s u where
  grows := h₁.grows.trans h₂.grows
  begun := h₂.begun.trans h₁.begun
  setUp := h₂.setUp.trans h₁.setUp
  associated h := h₁.associated (h₂.associated h)
  stage h := h₂.stage (h₁.stage h)
  ptk h := (h₂.ptk (h₁.stage h)).trans (h₁.ptk h)
  verified h hv := h₂.verified (h₁.stage h) (h₁.verified h hv)
  installed h hi := h₂.installed (h₁.stage h) (h₁.installed h hi)
  linkKeyed h := h₂.linkKeyed (h₁.linkKeyed h)

theorem of_trace_eq {s s' : Wifi} (htrace : s'.trace = s.trace)
    (hstage : s'.wpa.stage = s.wpa.stage) (hptk : s'.wpa.ptk = s.wpa.ptk)
    (hlink : s'.link.associated = true →
      s.link.associated = true ∧ s'.link.securityReady = s.link.securityReady) :
    KeepsKeys s s' := by
  have hverified : Verified s' ↔ Verified s := by rw [Verified, Verified, htrace, hptk]
  have hinstalled : Installed s' ↔ Installed s := by
    rw [Installed, Installed, htrace, Wpa2State.temporalKey, Wpa2State.temporalKey, hptk]
  refine ⟨by rw [htrace], by rw [htrace], by rw [htrace], fun h => (hlink h).1,
    fun h => hstage ▸ h, fun _ => hptk, fun _ => hverified.mpr, fun _ => hinstalled.mpr, ?_⟩
  intro h hup hready hsetUp
  obtain ⟨hup', hsame⟩ := hlink hup
  obtain ⟨hst, hv, hi⟩ := h hup' (hsame ▸ hready) (htrace ▸ hsetUp)
  exact ⟨hstage ▸ hst, hverified.mpr hv, hinstalled.mpr hi⟩

theorem record {e : Event} (he : e.Aside) : KeepsKeys s (s.record e) := by
  have hverified : Verified (s.record e) ↔ Verified s := by
    rw [Verified, Verified, Wifi.record, he.verified]
  have hinstalled : Installed (s.record e) ↔ Installed s := by
    rw [Installed, Installed, Wifi.record, he.installed]
  refine ⟨suffix_cons _ _, he.begun _, he.setUp _, id, id, fun _ => rfl,
    fun _ => hverified.mpr, fun _ => hinstalled.mpr, fun h hup hready hsetUp => ?_⟩
  obtain ⟨hst, hv, hi⟩ := h hup hready ((he.setUp _).symm.trans hsetUp)
  exact ⟨hst, hverified.mpr hv, hinstalled.mpr hi⟩

theorem of_quiet (s s' : Wifi) (h : Quiet s s') : KeepsKeys s s' :=
  of_trace_eq h.trace (by rw [h.wpa]) (by rw [h.wpa])
    fun hup => ⟨h.link ▸ hup, by rw [h.link]⟩

theorem of_wpa (w : Wpa2State) (hstage : w.stage = s.wpa.stage)
    (hptk : w.ptk = s.wpa.ptk) : KeepsKeys s { s with wpa := w } :=
  of_trace_eq rfl hstage hptk fun hup => ⟨hup, rfl⟩

theorem of_link (l : Link) (h : l.associated = true →
      s.link.associated = true ∧ l.securityReady = s.link.securityReady) :
    KeepsKeys s { s with link := l } :=
  of_trace_eq rfl rfl rfl h

end KeepsKeys

theorem Event.Plain.aside {e : Event} (he : e.Plain) : e.Aside := by
  cases he <;> exact {}

variable (env : Env)

namespace KeepsKeys

theorem admissible : Admissible KeepsKeys where
  refl := refl
  trans := trans
  grows _ _ h := h.grows
  quiet := of_quiet
  plain s _ he := record s he.aside
  answer s l h := of_link s l fun hup => ⟨h.associated ▸ hup, h.securityReady⟩
  disconnect _ _ := lift_bind fun _ _ => Keeps.bind trans
    (Keeps.modify fun s => of_link s _ nofun) fun _ => Keeps.modify fun s => of_wpa s _ rfl rfl
  beacon := keeps_handleBeacon refl trans of_quiet
    (fun _ _ => of_trace_eq rfl rfl rfl fun hup => ⟨hup, rfl⟩)
    fun s _ _ => record s {}
  send := keeps_sendEthernet refl trans of_quiet
    (fun s _ _ _ => record s {})
    fun s _ => of_wpa s _ rfl rfl
  delivered s₀ s _ _ _ h _ _ _ :=
    trans s₀ s _ h (record s {})

theorem of_stage_zero {s s' : Wifi} (hstage : s.wpa.stage = 0) (htrace : s'.trace = s.trace)
    (hlink : s'.link = s.link) : KeepsKeys s s' := by
  have habsurd : ∀ {p : Prop}, s.wpa.stage ≠ 0 → p := fun h => absurd hstage h
  refine ⟨by rw [htrace], by rw [htrace], by rw [htrace], fun h => hlink ▸ h, habsurd, habsurd,
    habsurd, habsurd, fun h hup hready hsetUp => ?_⟩
  exact absurd hstage (h (hlink ▸ hup) (hlink ▸ hready) (htrace ▸ hsetUp)).1

theorem of_verified : KeepsKeys s (s.record (.verified s.wpa.ptk)) :=
  ⟨suffix_cons _ _, rfl, rfl, id, id, fun _ => rfl, fun _ _ => rfl, fun _ => id,
    fun h hup hready hsetUp => ⟨(h hup hready hsetUp).1, rfl, (h hup hready hsetUp).2.2⟩⟩

theorem of_installed : KeepsKeys s (s.record (.installed s.wpa.temporalKey)) :=
  ⟨suffix_cons _ _, rfl, rfl, id, id, fun _ => rfl, fun _ => id, fun _ _ => rfl,
    fun h hup hready hsetUp => ⟨(h hup hready hsetUp).1, (h hup hready hsetUp).2.1, rfl⟩⟩

theorem of_ready {s : Wifi} (hstage : s.wpa.stage ≠ 0) (hverified : Verified s)
    (hinstalled : Installed s) :
    KeepsKeys s { s with link := { s.link with securityReady := true } } :=
  ⟨suffix_refl _, rfl, rfl, id, id, fun _ => rfl, fun _ => id, fun _ => id,
    fun _ _ _ _ => ⟨hstage, hverified, hinstalled⟩⟩

theorem keeps_handleMessage1 (s₀ : Wifi) (hstage : s₀.wpa.stage = 0) (body : List UInt8) :
    Ensures (· = s₀) (handleMessage1 body) fun _ s => KeepsKeys s₀ s := by
  apply Ensures.get_bind
  rintro s rfl
  refine modify_then (T := fun t => KeepsKeys s t ∧ t.wpa.stage = 0) ?_ ?_
  · rintro t rfl
    exact ⟨of_stage_zero hstage rfl rfl, hstage⟩
  refine lift_then fun message2 _ => ?_
  have hstage' : Keeps (fun t u : Wifi => u.wpa.stage = t.wpa.stage) (sendEthernet message2) :=
    keeps_sendEthernet (R := fun t u : Wifi => u.wpa.stage = t.wpa.stage) (fun _ => rfl)
      (fun _ _ _ h₁ h₂ => h₂.trans h₁) (fun _ _ h => by rw [h.wpa]) (fun _ _ _ _ => rfl)
      (fun _ _ => rfl) message2
  have hsend := (admissible.send message2).and hstage'
  refine Ensures.bind (Q := fun _ t => KeepsKeys s t ∧ t.wpa.stage = 0)
    (hsend.ensures fun t u ht hu => ⟨trans s t u ht.1 hu.1, hu.2.trans ht.2⟩) fun accepted => ?_
  refine Ensures.ite (fun _ => Ensures.modify fun t ht => ?_)
    fun _ => Ensures.modify fun t ht => ?_
  · exact trans s t _ ht.1 (of_stage_zero ht.2 rfl rfl)
  · exact trans s t _ ht.1 (of_wpa t _ rfl rfl)

structure Reached (verified installed : Prop) (s₀ s : Wifi) : Prop where
  keys : KeepsKeys s₀ s
  stage : s.wpa.stage ≠ 0
  verified : verified → Verified s
  installed : installed → Installed s

section

variable {send : Sender} (hsend : ∀ c capacity, Keeps KeepsKeys (send c capacity))
  {v i : Prop} {s₀ : Wifi}

theorem Reached.trans {s t : Wifi} (h : Reached v i s₀ s) (hk : KeepsKeys s t) :
    Reached v i s₀ t :=
  ⟨KeepsKeys.trans s₀ s t h.keys hk, hk.stage h.stage,
    fun hv => hk.verified h.stage (h.verified hv), fun hi => hk.installed h.stage (h.installed hi)⟩

theorem Reached.ensures {α : Type} {x : Driver α} (hx : Keeps KeepsKeys x) :
    Ensures (Reached v i s₀) x fun _ s => Reached v i s₀ s :=
  hx.ensures fun _ _ hs hk => hs.trans hk

theorem keeps_setWpa {f : Wpa2State → Wpa2State} (hstage : ∀ w, (f w).stage = w.stage)
    (hptk : ∀ w, (f w).ptk = w.ptk) : Keeps KeepsKeys (setWpa f) :=
  Keeps.modify fun s => of_wpa s _ (hstage s.wpa) (hptk s.wpa)

theorem keeps_setWpaError (error : ℕ) : Keeps KeepsKeys (setWpaError error) :=
  keeps_setWpa (fun _ => rfl) fun _ => rfl

include hsend

theorem ensures_installPairwiseCcmpKey :
    Ensures (Reached v False s₀) (installPairwiseCcmpKey send)
      fun installed s => Reached v (installed = true) s₀ s := by
  refine get_bind fun s hs => ?_
  refine Ensures.bind (Q := fun _ t => Reached v False s₀ t ∧ t.wpa.ptk = s.wpa.ptk)
    ((hsend _ _).ensures ?_) fun response => ?_
  · rintro t u rfl hu
    exact ⟨hs.trans hu, hu.ptk hs.stage⟩
  refine modify_then (T := fun t => Reached v False s₀ t ∧ t.wpa.ptk = s.wpa.ptk)
    (fun t ht => ⟨ht.1.trans (of_wpa t _ rfl rfl), ht.2⟩) ?_
  refine Ensures.ite (fun _ => ?_) fun _ => Ensures.pure fun t ht =>
    ⟨ht.1.keys, ht.1.stage, ht.1.verified, nofun⟩
  refine Ensures.bind (Q := fun _ t => Reached v True s₀ t) (Ensures.modify fun t ht => ?_)
    fun _ => Ensures.pure fun t ht =>
      ⟨ht.keys, ht.stage, ht.verified, fun _ => ht.installed trivial⟩
  have hkey : s.wpa.temporalKey = t.wpa.temporalKey := by
    rw [Wpa2State.temporalKey, Wpa2State.temporalKey, ht.2]
  rw [hkey]
  have hreached := ht.1.trans (of_installed t)
  exact ⟨hreached.keys, hreached.stage, hreached.verified, fun _ => rfl⟩

variable (body : List UInt8)

theorem keeps_unwrapAndInstallGtk : Keeps KeepsKeys (unwrapAndInstallGtk send body) := by
  have hR := admissible
  refine hR.keeps_guard fun _ => get_bind fun s => ?_
  split
  · split
    · exact hR.keeps_pure false
    · refine hR.keeps_bind (hsend _ _) fun response => hR.keeps_when fun _ => ?_
      exact hR.keeps_then (keeps_setWpa (fun _ => rfl) fun _ => rfl)
  · exact hR.keeps_pure false

theorem ensures_finishHandshake :
    Ensures (Reached True True s₀) (finishHandshake send body) fun _ s => KeepsKeys s₀ s := by
  have hR := admissible
  have hfails : ∀ error, Ensures (Reached True True s₀)
      (do setWpaError error; pure Progress.keyed) fun _ s => KeepsKeys s₀ s := fun error =>
    (Reached.ensures (hR.keeps_then (keeps_setWpaError error))).mono
      fun _ _ ht => ht.keys
  refine get_then fun s hs => ?_
  have henable : Keeps KeepsKeys (if s.wpa.groupKeyReady then enableWpa2GroupReceive send
      else pure false) :=
    hR.keeps_when (fun _ => get_bind fun t => hR.keeps_then (hsend _ _))
  refine Ensures.bind (Reached.ensures henable) fun enabled => Ensures.ite (fun _ => ?_)
    fun _ => hfails 11
  refine get_then fun t ht => ?_
  refine lift_then fun message4 _ => ?_
  refine Ensures.bind (Reached.ensures (hR.send message4)) fun accepted =>
    Ensures.ite (fun _ => ?_) fun _ => hfails 8
  refine modify_then (T := Reached True True s₀) (fun u hu => ?_) ?_
  · refine hu.trans ⟨suffix_refl _, rfl, rfl, id, fun _ => Nat.succ_ne_zero 3, fun _ => rfl,
      fun _ => id, fun _ => id, fun h hup hready hsetUp => ?_⟩
    exact ⟨Nat.succ_ne_zero 3, (h hup hready hsetUp).2⟩
  · refine modify_then (T := KeepsKeys s₀) (fun u hu => ?_) done
    exact trans s₀ u _ hu.keys (of_ready hu.stage (hu.verified trivial) (hu.installed trivial))

theorem ensures_installKeys :
    Ensures (Reached True False s₀) (installKeys send body) fun _ s => KeepsKeys s₀ s := by
  have hR := admissible
  have hfails : ∀ {i : Prop} (error : ℕ) (p : Progress), Ensures (Reached True i s₀)
      (do setWpaError error; pure p) fun _ s => KeepsKeys s₀ s := fun error p =>
    (Reached.ensures (hR.keeps_then (keeps_setWpaError error))).mono
      fun _ _ ht => ht.keys
  refine Ensures.bind (ensures_installPairwiseCcmpKey hsend) fun installed => ?_
  refine Ensures.ite (fun hinstalled => ?_) fun _ => hfails 7 .unkeyed
  have hgrouped : Keeps KeepsKeys (if (readBe16 body 5).testBit 12 then
      unwrapAndInstallGtk send body else pure true) :=
    hR.keeps_when (fun _ => keeps_unwrapAndInstallGtk hsend body)
  refine Ensures.bind (Reached.ensures hgrouped) fun grouped => Ensures.ite (fun _ => ?_)
    fun _ => hfails 9 .keyed
  exact (ensures_finishHandshake hsend body).conseq
    (fun t ht => ⟨ht.keys, ht.stage, ht.verified, fun _ => ht.installed hinstalled⟩) fun _ _ => id

theorem ensures_handleMessage3 (hstage : s₀.wpa.stage ≠ 0) (body : List UInt8) :
    Ensures (· = s₀) (handleMessage3 send body) fun _ s => KeepsKeys s₀ s := by
  have hrefuse : ∀ error, Ensures (· = s₀) (do setWpaError error; pure Progress.unkeyed)
      fun _ s => KeepsKeys s₀ s := fun error =>
    keeps_iff.mp (admissible.keeps_then (keeps_setWpaError error)) s₀
  apply Ensures.get_bind
  rintro s rfl
  refine Ensures.ite (fun _ => hrefuse 13) fun _ => Ensures.ite (fun _ => hrefuse 5) fun _ => ?_
  refine Ensures.ite (fun _ => hrefuse 6) fun _ => ?_
  refine modify_then (T := Reached True False s) ?_ ?_
  · rintro t rfl
    exact ⟨of_verified t, hstage, fun _ => rfl, nofun⟩
  refine Ensures.bind (Reached.ensures (keeps_setWpa (fun _ => rfl) fun _ => rfl)) fun _ => ?_
  exact ensures_installKeys hsend body

theorem keeps_handleKeyFrame (ethernet : List UInt8) :
    Keeps KeepsKeys (handleKeyFrame send ethernet) := by
  have hR := admissible
  refine hR.keeps_guard fun _ => lift_bind fun body _ => ?_
  refine keeps_iff.mpr fun s₀ => get_bind ?_
  rintro s rfl
  have hkeeps : ∀ {x : Driver Progress}, Keeps KeepsKeys x →
      Ensures (· = s) x fun _ t => KeepsKeys s t := fun hx => keeps_iff.mp hx s
  refine Ensures.ite (fun _ => hkeeps (hR.keeps_then (keeps_setWpaError 12))) fun _ => ?_
  refine Ensures.ite (fun _ => hkeeps (hR.keeps_pure _)) fun _ => Ensures.ite (fun hone => ?_)
    fun _ => Ensures.ite (fun hthree => ?_) fun _ => hkeeps (hR.keeps_pure _)
  · exact Ensures.bind (keeps_handleMessage1 s hone.2.2 body) fun _ => done
  · have hstage : s.wpa.stage ≠ 0 := by
      rw [hthree.2.2.2]
      decide
    exact ensures_handleMessage3 hsend hstage body

theorem keeps_handleWpa2Eapol (ethernet : List UInt8) :
    Keeps KeepsKeys (handleWpa2Eapol send ethernet) := by
  have haside : ∀ e : Event, e = .offered ∨ e = .entered ∨ (∃ p, e = .left p) → e.Aside := by
    rintro e (rfl | rfl | ⟨p, rfl⟩) <;>
      exact {}
  intro s taken s' hrun
  have hoffered : KeepsKeys s (s.record .offered) := record s (haside _ (.inl rfl))
  rcases handleWpa2Eapol_cases hrun with rfl | ⟨-, hdefer⟩ | ⟨-, -, progress, t, hwork, rfl⟩
  · exact refl s'
  · exact trans _ _ _ hoffered
      (admissible.keeps_deferFrame (fun s => of_wpa s _ rfl rfl) ethernet _ _ _ hdefer)
  · have hentered := record (s.record .offered) (haside .entered (.inr (.inl rfl)))
    have hworked := keeps_handleKeyFrame hsend ethernet _ _ _ hwork
    exact trans _ _ _ (trans _ _ _ hoffered hentered)
      (trans _ _ _ hworked (record t (haside _ (.inr (.inr ⟨progress, rfl⟩)))))

end

theorem polling : Polling env KeepsKeys where
  toAdmissible := admissible
  eapol := admissible.keeps_eapolAt (fun _ hsend => keeps_handleWpa2Eapol hsend) env.fuel
  flags _ _ := of_trace_eq rfl rfl rfl fun hup => ⟨hup, rfl⟩

end KeepsKeys

open Checked Relation

namespace KeepsKeys

theorem preparing : Preparing env KeepsKeys where
  toPolling := polling env
  context s l hup hready := of_link s l fun h => ⟨hup ▸ h, hready⟩

theorem keeps_sendManagementFrame (frame : List UInt8) :
    Keeps KeepsKeys (sendManagementFrame frame) :=
  get_bind fun _ => keeps_sendWifiFrame trans of_quiet fun s =>
    record s {}

end KeepsKeys

/-- Joining a network keeps the link keyed, unless it is joined without an RSN element by a
connection attempt. -/
def JoinsKeyed (s s' : Wifi) : Prop :=
  ∃ l, s'.trace = l ++ s.trace ∧
    ((begunByConnect s.trace = true → .joined false ∉ l) → LinkKeyed s → LinkKeyed s')

variable {s s' : Wifi}

theorem JoinsKeyed.of_keepsKeys (h : KeepsKeys s s') : JoinsKeyed s s' := by
  obtain ⟨l, hl⟩ := h.grows
  exact ⟨l, hl.symm, fun _ => h.linkKeyed⟩

theorem JoinsKeyed.of_joined {s t : Wifi} (h : KeepsKeys s t) (l : Link) {rsn : Bool}
    (hready : l.securityReady = !rsn) :
    JoinsKeyed s ({ t with link := l }.record (.joined rsn)) := by
  obtain ⟨k, hk⟩ := h.grows
  refine ⟨.joined rsn :: k, congrArg (_ :: ·) hk.symm, fun hrsn _ hup hsecured hsetUp => ?_⟩
  change begunByConnect t.trace = true at hsetUp
  rw [h.begun] at hsetUp
  have hopen : rsn = false := by
    change l.securityReady = true at hsecured
    rw [hready] at hsecured
    exact Bool.not_eq_true' _ ▸ hsecured
  exact absurd (hopen ▸ mem_cons_self) (hrsn hsetUp)

theorem keeps_associateOpen_joinsKeyed (networkIndex : ℕ) :
    Keeps JoinsKeyed (associateOpen env networkIndex) := by
  have hR := KeepsKeys.preparing env
  refine keeps_iff.mpr fun s₀ => ?_
  have hkept : ∀ {α : Type} {x : Driver α}, Keeps KeepsKeys x →
      Ensures (KeepsKeys s₀) x fun _ s => KeepsKeys s₀ s :=
    fun hx => hR.ensures_of_keeps hx s₀ fun _ => id
  have hstop : ∀ {x : Driver Bool}, Keeps KeepsKeys x →
      Ensures (KeepsKeys s₀) x fun _ s => JoinsKeyed s₀ s :=
    fun hx => (hkept hx).mono fun _ _ => JoinsKeyed.of_keepsKeys
  refine conseq (P := KeepsKeys s₀) ?_ (fun t ht => ht ▸ KeepsKeys.refl s₀) fun _ _ => id
  refine Ensures.bind (hkept (hR.keeps_prepareAssociation networkIndex)) fun prepared => ?_
  refine Ensures.ite (fun _ => get_then fun s _ => ?_) fun _ => hstop (hR.keeps_pure false)
  refine Ensures.bind (hkept (Keeps.modify fun t => KeepsKeys.of_link t _ nofun)) fun _ => ?_
  refine lift_then fun frame _ => ?_
  refine Ensures.bind (hkept (KeepsKeys.keeps_sendManagementFrame frame)) fun sent => ?_
  refine Ensures.ite (fun _ => ?_) fun _ => hstop (hR.keeps_pure false)
  refine Ensures.bind (hkept (hR.keeps_pollUntil _ _)) fun _ => get_then fun t _ => ?_
  refine Ensures.ite (fun _ => hstop (hR.keeps_associationFails 6)) fun _ => ?_
  refine lift_then fun frame _ => ?_
  refine Ensures.bind (hkept (KeepsKeys.keeps_sendManagementFrame frame)) fun sent => ?_
  refine Ensures.ite (fun _ => ?_) fun _ => hstop (hR.keeps_pure false)
  refine Ensures.bind (hkept (hR.keeps_pollUntil _ _)) fun _ => get_then fun u _ => ?_
  refine Ensures.ite (fun _ => hstop (hR.keeps_associationFails 7)) fun _ => ?_
  refine Ensures.bind (hkept (hR.keeps_finalizeFirmwareAssociation _)) fun finalized => ?_
  refine Ensures.ite (fun _ => get_then fun v _ => ?_)
    fun _ => hstop (hR.keeps_associationFails 8)
  generalize (v.scan.results.get s.link.associationNetwork).rsn = rsn
  refine modify_then (T := fun w => ∃ t l, KeepsKeys s₀ t ∧ l.securityReady = !rsn ∧
    w = { t with link := l }) (fun t ht => ⟨t, _, ht, rfl, rfl⟩) ?_
  refine modify_then (T := JoinsKeyed s₀) ?_ done
  rintro w ⟨t, l, ht, hready, rfl⟩
  exact JoinsKeyed.of_joined ht l hready

/-- The link is keyed, as long as none has come up without an RSN element since a state. -/
def KeyedSince (s s' : Wifi) : Prop :=
  ∃ l, s'.trace = l ++ s.trace ∧ (.joined false ∉ l → LinkKeyed s')

theorem KeyedSince.trans {s t u : Wifi} (h : KeyedSince s t) (hk : KeepsKeys t u) :
    KeyedSince s u := by
  obtain ⟨l, hl, hkeyed⟩ := h
  obtain ⟨k, hk'⟩ := hk.grows
  refine ⟨k ++ l, by rw [← hk', hl, append_assoc], fun hrsn => hk.linkKeyed (hkeyed ?_)⟩
  exact fun hmem => hrsn (mem_append_right k hmem)

theorem ensures_connectWpa2_keyedSince (networkIndex : ℕ) (passphrase : List UInt8)
    {s₀ : Wifi} (hdown : s₀.link.associated = false) :
    Ensures (· = s₀) (connectWpa2 env networkIndex passphrase) fun _ s => KeyedSince s₀ s := by
  have hR := KeepsKeys.preparing env
  have hvacuous : ∀ {t : Wifi}, t.link.associated = false → LinkKeyed t :=
    fun ht hup => absurd (ht.symm.trans hup) Bool.false_ne_true
  have hkept : ∀ {x : Driver Bool}, Keeps KeepsKeys x →
      Ensures (KeyedSince s₀) x fun _ s => KeyedSince s₀ s :=
    fun hx => hx.ensures fun _ _ h hk => h.trans hk
  have hset : ∀ {f : Wpa2State → Wpa2State}, (∀ w, (f w).stage = w.stage) →
      (∀ w, (f w).ptk = w.ptk) → Keeps KeepsKeys (do setWpa f; pure false) := fun hstage hptk =>
    hR.keeps_then (KeepsKeys.keeps_setWpa hstage hptk)
  have hnothing : Ensures (· = s₀) (pure false : Driver Bool) fun _ s => KeyedSince s₀ s :=
    Ensures.pure fun t ht => ⟨[], by rw [ht]; rfl, fun _ => hvacuous (ht ▸ hdown)⟩
  apply Ensures.get_bind
  rintro s rfl
  refine Ensures.dite (fun _ => ?_) fun _ => hnothing
  refine Ensures.ite (fun _ => ?_) fun _ => hnothing
  let Begun : Wifi → Prop := fun t => t.trace = .connecting :: s.trace ∧ t.link.associated = false
  have hbegun : ∀ t, Begun t → KeyedSince s t :=
    fun t ht => ⟨[.connecting], ht.1, fun _ => hvacuous ht.2⟩
  refine modify_then (T := Begun) ?_ ?_
  · rintro t rfl
    exact ⟨rfl, hdown⟩
  refine modify_then (T := Begun) ?_ ?_
  · exact fun t ht => ht
  split
  · refine conseq (P := KeyedSince s) ?_ hbegun fun _ _ => id
    exact hkept (hset (fun _ => rfl) fun _ => rfl)
  · refine modify_then (T := Begun) ?_ ?_
    · exact fun t ht => ht
    refine Ensures.bind (Q := fun _ t => KeyedSince s t)
      ((keeps_associateOpen_joinsKeyed env networkIndex).ensures ?_) fun joined => ?_
    · rintro t u ht ⟨l, hl, hkeyed⟩
      refine ⟨l ++ [.connecting], by rw [hl, ht.1, append_assoc]; rfl, fun hrsn => ?_⟩
      exact hkeyed (fun _ hmem => hrsn (mem_append_left _ hmem)) (hvacuous ht.2)
    refine Ensures.ite (fun _ => ?_) fun _ => hkept (hset (fun _ => rfl) fun _ => rfl)
    refine hkept (hR.keeps_bind (hR.keeps_pollUntil _ _) fun _ => get_bind fun t => ?_)
    exact hR.keeps_when (fun _ => hset (fun _ => rfl) fun _ => rfl)

/-- A call that, if it is a connection attempt, is made while no link is up and joins only with an
RSN element. -/
inductive CarefulCall (env : Env) : Wifi → Wifi → Prop
  | call {s s' : Wifi} {result : Bool} (c : Call) (hrun : c.run env s = .ok (result, s'))
    (hconnect : ∀ networkIndex passphrase, c = .connect networkIndex passphrase →
      s.link.associated = false ∧ ∀ l, s'.trace = l ++ s.trace → .joined false ∉ l) :
    CarefulCall env s s'

theorem linkKeyed_carefulCall {env : Env} (h : LinkKeyed s)
    (hcall : CarefulCall env s s') : LinkKeyed s' := by
  have hR := KeepsKeys.preparing env
  obtain ⟨c, hrun, hconnect⟩ := hcall
  cases c with
  | poll =>
    have hpoll := hR.keeps_bind hR.keeps_poll fun _ => hR.keeps_pure true
    exact (hpoll _ _ _ hrun).linkKeyed h
  | send ethernet => exact (hR.send ethernet _ _ _ hrun).linkKeyed h
  | associate networkIndex =>
    obtain ⟨_, t, hnote, hassociate⟩ := bind_eq_ok.mp hrun
    cases hnote
    obtain ⟨l, -, hkeyed⟩ := keeps_associateOpen_joinsKeyed env networkIndex _ _ _ hassociate
    exact hkeyed nofun h
  | connect networkIndex passphrase =>
    obtain ⟨hdown, hrsn⟩ := hconnect networkIndex passphrase rfl
    obtain ⟨l, hl, hkeyed⟩ :=
      ensures_connectWpa2_keyedSince env networkIndex passphrase hdown _ rfl _ _ hrun
    exact hkeyed (hrsn l hl)

theorem linkKeyed_of_careful {env : Env} (h : LinkKeyed s)
    (hcalls : ReflTransGen (CarefulCall env) s s') : LinkKeyed s' := by
  induction hcalls with
  | refl => exact h
  | tail _ hcall ih => exact linkKeyed_carefulCall ih hcall

/-- After any careful calls, a secured link that a connection attempt has set up uses the key under
which its message 3 was verified, and that key is the one installed last. -/
theorem secured_link_keyed (env : Env) (s s' : Wifi) (hs : Configured s)
    (hcalls : ReflTransGen (CarefulCall env) s s') : LinkKeyed s' := by
  have hstart : LinkKeyed s := fun hup => by
    rw [hs.link] at hup
    exact absurd hup Bool.false_ne_true
  exact linkKeyed_of_careful hstart hcalls

/-- The link of an attempt comes up with its RSN element. It is not secured as long as the handshake
does not begin. -/
theorem secured_link_keyed_heard :
    heardJoined.timedOut.link.associated = true ∧ .joined true ∈ heardJoined.timedOut.trace ∧
      setUpByConnect heardJoined.timedOut.trace = true ∧ LinkKeyed heardJoined.timedOut := by
  have hfacts : heardScanned.link.associated = false ∧ heardJoined.link.associated = true ∧
      .joined true ∈ heardJoined.trace ∧ .joined false ∉ heardJoined.trace ∧
      setUpByConnect heardJoined.trace = true := by decide +kernel
  obtain ⟨hdown, hup, hjoined, hrsn, hsetUp⟩ := hfacts
  have hcareful := CarefulCall.call (.connect 0 silentPassphrase) heard_connect fun _ _ _ =>
    ⟨hdown, fun l hl hmem => hrsn (show .joined false ∈ heardJoined.timedOut.trace from
      hl ▸ mem_append_left _ hmem)⟩
  refine ⟨hup, hjoined, hsetUp, secured_link_keyed heard booted _ booted_configured ?_⟩
  exact .tail (.single (.call .poll heard_scanned.1 nofun)) hcareful

/-- A network that has lost its RSN element is said to be secured without any handshake. -/
theorem silent_link_unkeyed :
    Configured booted ∧ ∃ s', runCalls silent [.poll, .poll, .connect 0 silentPassphrase] booted =
      .ok ((), s') ∧ s'.link.associated = true ∧ s'.link.securityReady = true ∧
      setUpByConnect s'.trace = true ∧ verifiedKey s'.trace = none ∧
        installedKey s'.trace = none := by
  have hfacts : silentJoined.link.associated = true ∧ silentJoined.link.securityReady = true ∧
      setUpByConnect silentJoined.trace = true ∧ verifiedKey silentJoined.trace = none ∧
      installedKey silentJoined.trace = none := by decide +kernel
  refine ⟨booted_configured, silentTimedOut, silent_timedOut, ?_⟩
  exact hfacts

end MicroK.Iwl
