import MicroK.IwlLink

/-!
# What a wait can do

While the driver waits for the firmware it takes in frames, and a frame can make the handshake code
wait again. What holds across a wait is stated for a relation between states: it is enough that the
relation admits the single changes the receive path makes, and that the handshake code keeps it.
-/

namespace MicroK.Iwl

open Checked Keeps Ensures

def Wifi.record (s : Wifi) (e : Event) : Wifi := { s with trace := e :: s.trace }

/-- A change that concerns neither the link nor the handshake nor the scan table. -/
structure Quiet (s s' : Wifi) : Prop where
  link : s'.link = s.link
  wpa : s'.wpa = s.wpa
  scan : s'.scan = s.scan
  macAddress : s'.macAddress = s.macAddress
  processing : s'.runtimePollProcessing = s.runtimePollProcessing
  waiting : s.commandWaitActive = false → s'.commandWaitActive = false
  trace : s'.trace = s.trace

theorem Quiet.of_eq {s s' : Wifi} (h : (s'.link, s'.wpa, s'.scan, s'.macAddress,
    s'.runtimePollProcessing, s'.commandWaitActive, s'.trace) = (s.link, s.wpa, s.scan,
    s.macAddress, s.runtimePollProcessing, s.commandWaitActive, s.trace)) : Quiet s s' := by
  simp only [Prod.mk.injEq] at h
  obtain ⟨hlink, hwpa, hscan, hmac, hprocessing, hwaiting, htrace⟩ := h
  exact ⟨hlink, hwpa, hscan, hmac, hprocessing, hwaiting.trans, htrace⟩

/-- Events of the receive queue and of the command queue. -/
inductive Event.Plain : Event → Prop
  | command (c : FwCommand) : Plain (.command c)
  | notified (packet : List UInt8) : Plain (.notified packet)
  | recycled (id : ℕ) : Plain (.recycled id)
  | received (control : ℕ) : Plain (.received control)

structure AnswerOnly (l l' : Link) : Prop where
  contextReady : l'.associationContextReady = l.associationContextReady
  network : l'.associationNetwork = l.associationNetwork
  associated : l'.associated = l.associated
  securityReady : l'.securityReady = l.securityReady
  apStationReady : l'.apStationReady = l.apStationReady

def isData (control : ℕ) : Prop := control &&& 0x000C = 0x0008

def decrypted (status : ℕ) : Prop := status.testBit 6 = true ∧ status.testBit 11 = true

theorem ensures_sendWifiFrame {P Q : Wifi → Prop} {frame : List UInt8} {station : ℕ}
    (hsent : ∀ s, P s → Q (s.record (.sent station frame s.wpa.temporalKey)))
    (hquiet : ∀ s s', Quiet s s' → Q s → Q s') :
    Ensures P (sendWifiFrame frame station) fun _ s => Q s := by
  refine get_bind fun s hs => ?_
  refine modify_then (T := Q) ?_ ?_
  · rintro t rfl
    exact hsent t hs
  have hset : ∀ {f : Wifi → Wifi} (b : Bool), (∀ s, Quiet s (f s)) →
      Ensures (fun t => Q t) (do modify f; pure b) fun _ t => Q t := by
    intro f b hf
    have hmodify : Ensures (fun t => Q t) (modify f) fun _ t => Q t :=
      Ensures.modify fun t ht => hquiet _ _ (hf t) ht
    exact Ensures.bind hmodify fun _ => done
  split_ifs
  · exact hset false fun _ => .of_eq rfl
  · exact hset false fun _ => .of_eq rfl
  · exact hset true fun _ => .of_eq rfl

section

variable {R : Wifi → Wifi → Prop} (hrefl : ∀ s, R s s) (htrans : ∀ s t u, R s t → R t u → R s u)
  (hquiet : ∀ s s', Quiet s s' → R s s')

include htrans hquiet

theorem keeps_sendWifiFrame {frame : List UInt8} {station : ℕ}
    (hsent : ∀ s, R s (s.record (.sent station frame s.wpa.temporalKey))) :
    Keeps R (sendWifiFrame frame station) := by
  refine keeps_iff.mpr fun s₀ => ensures_sendWifiFrame (P := (· = s₀)) ?_ ?_
  · rintro s rfl
    exact hsent s
  · intro s s' hq h
    exact htrans s₀ s s' h (hquiet s s' hq)

include hrefl

theorem keeps_sendEthernet
    (hsent : ∀ s station frame key, R s (s.record (.sent station frame key)))
    (hnumber : ∀ s n, R s { s with wpa := { s.wpa with txPacketNumber := n } })
    (ethernet : List UInt8) : Keeps R (sendEthernet ethernet) := by
  have hcount : ∀ f : Wifi → Wifi, (∀ s, Quiet s (f s)) → Keeps R (modify f) := by
    intro f hf
    exact Keeps.modify fun s => hquiet s (f s) (hf s)
  refine get_bind fun s => ?_
  refine Keeps.ite (fun _ => Keeps.pure hrefl false) fun _ => ?_
  refine Keeps.bind htrans (Keeps.ite (fun _ => ?_) fun _ => Keeps.pure hrefl ()) fun _ => ?_
  · exact Keeps.modify fun t => hnumber t _
  refine get_bind fun t => ?_
  refine lift_bind fun frame _ => ?_
  have hframe : ∀ station, Keeps R (sendWifiFrame frame station) := by
    intro station
    exact keeps_sendWifiFrame htrans hquiet fun u => hsent u _ _ _
  refine Keeps.bind htrans (hframe _) fun accepted => ?_
  refine Keeps.ite (fun _ => ?_) fun _ => Keeps.pure hrefl false
  exact Keeps.bind htrans (hcount _ fun _ => .of_eq rfl) fun _ => Keeps.pure hrefl true

theorem keeps_handleBeacon (hscan : ∀ s t, R s { s with scan := t })
    (hfiled : ∀ s index rsn, R s (s.record (.filed index rsn))) (buf : Image)
    (frame frameLength : ℕ) (phy : RxPhy) :
    Keeps R (handleBeacon buf frame frameLength phy) := by
  refine Keeps.bind htrans (Keeps.modify fun s => hquiet _ _ (.of_eq rfl)) fun _ => ?_
  refine lift_bind fun bssid _ => ?_
  refine get_bind fun s => ?_
  cases s.scan.entryFor bssid with
  | none => exact Keeps.pure hrefl ()
  | some entry =>
    refine lift_bind fun capability _ => ?_
    refine lift_bind fun interval _ => ?_
    refine lift_bind fun r _ => ?_
    refine Keeps.bind htrans (Keeps.modify fun t => hscan t _) fun _ => ?_
    exact Keeps.modify fun t => hfiled t _ _

end

def Since (s₀ s : Wifi) (e : Event) : Prop := ∃ l, s.trace = l ++ s₀.trace ∧ e ∈ l

structure Admissible (R : Wifi → Wifi → Prop) : Prop where
  refl : ∀ s, R s s
  trans : ∀ s t u, R s t → R t u → R s u
  grows : ∀ s s', R s s' → s.trace <:+ s'.trace
  quiet : ∀ s s', Quiet s s' → R s s'
  plain : ∀ s e, e.Plain → R s (s.record e)
  answer : ∀ s l, AnswerOnly s.link l → R s { s with link := l }
  disconnect : ∀ buf frame, Keeps R (handleDisconnect buf frame)
  beacon : ∀ buf frame frameLength phy, Keeps R (handleBeacon buf frame frameLength phy)
  send : ∀ ethernet, Keeps R (sendEthernet ethernet)
  delivered : ∀ s₀ s control status ethernet, R s₀ s → Since s₀ s (.received control) →
    isData control → (protectedBit control = true → decrypted status) →
    R s₀ (s.record (.delivered control status ethernet))

variable {frame frameLength control status : ℕ}

theorem dataFrameContents_decrypted {buf : Image}
    {mac : Vector UInt8 6} {ready : Bool} {ethernet : List UInt8}
    (h : dataFrameContents buf frame frameLength control status mac ready = .ok (some ethernet))
    (hprotected : protectedBit control = true) : decrypted status := by
  obtain ⟨addr1, -, h⟩ := Outcome.bind_eq_ok.mp h
  dsimp only at h
  by_contra hdec
  have hrefuse : protectedBit control = true ∧
      ¬ (status.testBit 6 = true ∧ status.testBit 11 = true) := ⟨hprotected, hdec⟩
  split_ifs at h
  · cases h
  · cases h

namespace Admissible

variable {R : Wifi → Wifi → Prop} (hR : Admissible R) {env : Env}
  {eapol : List UInt8 → Driver Bool}

include hR

variable {α : Type}

theorem keeps_pure (a : α) : Keeps R (pure a) := Keeps.pure hR.refl a

theorem keeps_guard {p : Prop} [Decidable p] {a : α} {y : Driver α}
    (hy : ¬p → Keeps R y) : Keeps R (if p then pure a else y) :=
  Keeps.ite (fun _ => hR.keeps_pure a) hy

theorem keeps_bind {α β : Type} {x : Driver α} {f : α → Driver β} (hx : Keeps R x)
    (hf : ∀ a, Keeps R (f a)) : Keeps R (x >>= f) := Keeps.bind hR.trans hx hf

theorem keeps_quiet {f : Wifi → Wifi} (h : ∀ s, Quiet s (f s)) : Keeps R (modify f) :=
  Keeps.modify fun s => hR.quiet s (f s) (h s)

theorem keeps_then {α β : Type} {x : Driver α} {a : α → β} (hx : Keeps R x) :
    Keeps R (do let r ← x; pure (a r)) := hR.keeps_bind hx fun _ => hR.keeps_pure _

theorem keeps_when {p : Prop} [Decidable p] {a : α} {x : Driver α}
    (hx : p → Keeps R x) : Keeps R (if p then x else pure a) :=
  Keeps.ite hx fun _ => hR.keeps_pure a

theorem keeps_set {f : Wifi → Wifi} {a : α} (h : ∀ s, Quiet s (f s)) :
    Keeps R (do modify f; pure a) := hR.keeps_then (hR.keeps_quiet h)

theorem keeps_note {e : Event} (he : e.Plain) : Keeps R (note e) :=
  Keeps.modify fun s => hR.plain s e he

theorem since_trans {s₀ s s' : Wifi} {e : Event} (he : Since s₀ s e) (h : R s s') :
    Since s₀ s' e := by
  obtain ⟨l, hl, hmem⟩ := he
  obtain ⟨k, hk⟩ := hR.grows s s' h
  exact ⟨k ++ l, by rw [← hk, hl, List.append_assoc], List.mem_append_right k hmem⟩

theorem ensures_netHandlePacket (env : Env) {control status : ℕ} (ethernet : List UInt8)
    (hdata : isData control) (hdec : protectedBit control = true → decrypted status) (s₀ : Wifi) :
    Ensures (fun s => R s₀ s ∧ Since s₀ s (.received control))
      (netHandlePacket env control status ethernet) fun _ s => R s₀ s := by
  refine get_bind fun s hs => ?_
  refine modify_then (T := R s₀) ?_ ?_
  · rintro t rfl
    exact hR.delivered s₀ t control status ethernet hs.1 hs.2 hdata hdec
  refine modify_then (T := R s₀) (fun t ht => ?_) ?_
  · exact hR.trans _ _ _ ht (hR.quiet _ _ (.of_eq rfl))
  · have hreplies : Keeps R ((env.replies s.deliveries).forM fun reply => do
        let _ ← sendEthernet reply
        pure ()) := by
      refine forM hR.refl hR.trans ?_
      intro reply _
      exact hR.keeps_then (hR.send reply)
    exact hreplies.ensures fun t u ht hu => hR.trans _ _ _ ht hu

theorem ensures_of_keeps {x : Driver α} (hx : Keeps R x) (s₀ : Wifi)
    {P : Wifi → Prop} (hP : ∀ s, P s → R s₀ s) : Ensures P x fun _ s => R s₀ s :=
  hx.ensures fun s s' hs hs' => hR.trans s₀ s s' (hP s hs) hs'

theorem ensures_handleDataFrame (heapol : ∀ ethernet, Keeps R (eapol ethernet)) {buf : Image}
    (hdata : isData control) (s₀ : Wifi) :
    Ensures (fun s => R s₀ s ∧ Since s₀ s (.received control))
      (handleDataFrame env eapol buf frame frameLength control status) fun _ s => R s₀ s := by
  refine get_bind fun s hs => ?_
  refine lift_then fun contents hcontents => ?_
  have hstart : ∀ t, t = s → R s₀ t ∧ Since s₀ t (.received control) := fun t ht => ht ▸ hs
  cases contents with
  | none => exact Ensures.pure fun t ht => (hstart t ht).1
  | some ethernet =>
    have hdeliver := hR.ensures_netHandlePacket env ethernet hdata
      (dataFrameContents_decrypted hcontents) s₀
    have heapol' : Ensures (fun t => R s₀ t ∧ Since s₀ t (.received control)) (eapol ethernet)
        fun _ t => R s₀ t ∧ Since s₀ t (.received control) := by
      refine (heapol ethernet).ensures ?_
      intro t u ht hu
      exact ⟨hR.trans _ _ _ ht.1 hu, hR.since_trans ht.2 hu⟩
    refine modify_then (T := fun t => R s₀ t ∧ Since s₀ t (.received control)) ?_ ?_
    · intro t ht
      have hquiet : Quiet t { t with wifiRxPackets := u32 (t.wifiRxPackets + 1) } := .of_eq rfl
      exact ⟨hR.trans _ _ _ (hstart t ht).1 (hR.quiet _ _ hquiet), (hstart t ht).2⟩
    refine Ensures.ite (fun _ => ?_) fun _ => hdeliver
    refine Ensures.bind heapol' fun taken => ?_
    exact Ensures.ite (fun _ => Ensures.pure fun t ht => ht.1) fun _ => hdeliver

variable (buf : Image)

theorem keeps_handleAuthentication (frame : ℕ) : Keeps R (handleAuthentication buf frame) := by
  refine lift_bind fun transaction _ => ?_
  refine hR.keeps_when fun _ => ?_
  refine lift_bind fun status _ => ?_
  exact Keeps.modify fun s => hR.answer s _ ⟨rfl, rfl, rfl, rfl, rfl⟩

theorem keeps_handleAssociation (frame : ℕ) : Keeps R (handleAssociation buf frame) := by
  refine lift_bind fun status _ => ?_
  refine lift_bind fun aid _ => ?_
  exact Keeps.modify fun s => hR.answer s _ ⟨rfl, rfl, rfl, rfl, rfl⟩

variable (heapol : ∀ ethernet, Keeps R (eapol ethernet))
include heapol

theorem keeps_handleFrame (buf : Image) (frame frameLength status : ℕ) (phy : RxPhy) :
    Keeps R (handleFrame env eapol buf frame frameLength status phy) := by
  refine lift_bind fun control _ => keeps_iff.mpr fun s₀ => ?_
  refine modify_then (T := fun s => R s₀ s ∧ Since s₀ s (.received control)) ?_ ?_
  · rintro s rfl
    exact ⟨hR.plain s _ (.received control), [.received control], rfl, List.mem_cons_self⟩
  refine lift_then fun addr1 _ => ?_
  refine get_bind fun s hs => ?_
  have hkeeps : ∀ {x : Driver Unit}, Keeps R x → Ensures (· = s) x fun _ t => R s₀ t := by
    intro x hx
    exact hR.ensures_of_keeps hx s₀ fun t ht => ht ▸ hs.1
  refine Ensures.ite (fun _ => hkeeps (hR.disconnect buf frame)) fun _ => ?_
  refine Ensures.ite (fun hdata => ?_) fun _ => ?_
  · exact (hR.ensures_handleDataFrame heapol hdata s₀).of_eq hs
  refine Ensures.ite (fun _ => hkeeps (hR.keeps_handleAuthentication buf frame)) fun _ => ?_
  refine Ensures.ite (fun _ => hkeeps (hR.keeps_handleAssociation buf frame)) fun _ => ?_
  refine Ensures.ite (fun _ => hkeeps (hR.keeps_pure ())) fun _ => ?_
  exact hkeeps (hR.beacon buf frame frameLength phy)

theorem keeps_handleScanMpdu (buf : Image)
    (data dataLength : ℕ) : Keeps R (handleScanMpdu env eapol buf data dataLength) := by
  refine get_bind fun s => ?_
  cases s.lastRxPhy with
  | none => exact hR.keeps_pure ()
  | some phy =>
    refine hR.keeps_guard fun _ => ?_
    refine lift_bind fun frameLength _ => ?_
    refine hR.keeps_guard fun _ => ?_
    refine lift_bind fun status _ => ?_
    exact hR.keeps_guard fun _ => hR.keeps_handleFrame heapol buf _ frameLength status phy

theorem keeps_handleRuntimeNotification (buf : Image) (packet frameLength : ℕ) :
    Keeps R (handleRuntimeNotification env eapol buf packet frameLength) := by
  refine lift_bind fun bytes _ => ?_
  refine hR.keeps_bind (hR.keeps_note (.notified bytes)) fun _ => ?_
  refine lift_bind fun cmd _ => ?_
  refine lift_bind fun group _ => ?_
  refine lift_bind fun sequence _ => ?_
  refine Keeps.ite (fun _ => hR.keeps_set fun _ => .of_eq rfl) fun _ => ?_
  refine Keeps.ite (fun _ => ?_) fun _ => ?_
  · refine hR.keeps_guard fun _ => ?_
    refine lift_bind fun phyFlags _ => ?_
    refine lift_bind fun channel _ => ?_
    exact hR.keeps_set fun _ => .of_eq rfl
  refine Keeps.ite (fun _ => ?_) fun _ => ?_
  · exact hR.keeps_then (hR.keeps_handleScanMpdu heapol buf _ _)
  refine hR.keeps_when fun _ => ?_
  refine hR.keeps_guard fun _ => ?_
  refine lift_bind fun uid _ => ?_
  refine hR.keeps_guard fun _ => ?_
  refine lift_bind fun status _ => ?_
  exact hR.keeps_set fun _ => .of_eq rfl

omit heapol

theorem keeps_handleInitNotification (packet frameLength : ℕ) :
    Keeps R (handleInitNotification buf packet frameLength) := by
  refine lift_bind fun cmd _ => ?_
  refine lift_bind fun group _ => ?_
  refine hR.keeps_guard fun _ => ?_
  refine Keeps.ite (fun _ => hR.keeps_set fun _ => .of_eq rfl) fun _ => ?_
  refine hR.keeps_guard fun _ => ?_
  refine hR.keeps_guard fun _ => ?_
  refine lift_bind fun payload _ => ?_
  refine get_bind fun s => ?_
  refine hR.keeps_guard fun _ => ?_
  exact hR.keeps_set fun _ => .of_eq rfl

theorem keeps_readStatus : Keeps R (readStatus env) := by
  refine hR.keeps_bind (hR.keeps_quiet fun _ => .of_eq rfl) fun _ => ?_
  exact get_bind fun s => hR.keeps_pure _

theorem keeps_advanceReadIndex : Keeps R advanceReadIndex :=
  hR.keeps_quiet fun _ => .of_eq rfl

theorem keeps_recycleRxBuffer (index : ℕ) : Keeps R (recycleRxBuffer index) := by
  refine get_bind fun s => ?_
  refine hR.keeps_when fun _ => ?_
  refine hR.keeps_bind (hR.keeps_quiet fun _ => .of_eq rfl) fun _ => ?_
  exact hR.keeps_then (hR.keeps_note (.recycled _))

variable (heapol : ∀ ethernet, Keeps R (eapol ethernet))
include heapol

theorem keeps_pollPackets (id fuel offset : ℕ) :
    Keeps R (pollPackets env eapol id fuel offset) := by
  induction fuel generalizing offset with
  | zero => exact Keeps.endless
  | succ fuel ih =>
    refine hR.keeps_when fun _ => ?_
    refine get_bind fun s => ?_
    refine lift_bind fun packet _ => ?_
    cases packet with
    | invalid => exact hR.keeps_pure ()
    | malformed => exact hR.keeps_quiet fun _ => .of_eq rfl
    | packet frameLength =>
      refine hR.keeps_bind (hR.keeps_handleRuntimeNotification heapol _ _ _) fun accepted => ?_
      refine Keeps.ite (fun _ => ?_) fun _ => hR.keeps_quiet fun _ => .of_eq rfl
      refine hR.keeps_bind (hR.keeps_quiet fun _ => .of_eq rfl) fun _ => ?_
      refine Keeps.ite (fun _ => ?_) fun _ => ih _
      exact hR.keeps_quiet fun _ => .of_eq rfl

theorem keeps_inspectPackets (id opcode sequence : ℕ) (capacity : Option ℕ) (fuel offset : ℕ) :
    Keeps R (inspectPackets env eapol id opcode sequence capacity fuel offset) := by
  induction fuel generalizing offset with
  | zero => exact Keeps.endless
  | succ fuel ih =>
    refine hR.keeps_when fun _ => ?_
    refine get_bind fun s => ?_
    refine lift_bind fun packet _ => ?_
    cases packet with
    | invalid => exact hR.keeps_pure _
    | malformed => exact hR.keeps_pure _
    | packet frameLength =>
      refine hR.keeps_bind (hR.keeps_quiet fun _ => .of_eq rfl) fun _ => ?_
      refine hR.keeps_bind (hR.keeps_handleInitNotification _ _ _) fun accepted => ?_
      refine Keeps.ite (fun _ => hR.keeps_set fun _ => .of_eq rfl) fun _ => ?_
      refine hR.keeps_bind (hR.keeps_when fun _ => ?_) fun accepted => ?_
      · exact hR.keeps_handleRuntimeNotification heapol _ _ _
      refine Keeps.ite (fun _ => hR.keeps_set fun _ => .of_eq rfl) fun _ => ?_
      refine get_bind fun t => ?_
      refine lift_bind fun result _ => ?_
      cases result with
      | some result => exact hR.keeps_pure _
      | none => exact hR.keeps_guard fun _ => ih _

theorem keeps_inspectCommandResponse (index opcode sequence : ℕ) (capacity : Option ℕ) :
    Keeps R (inspectCommandResponse env eapol index opcode sequence capacity) := by
  refine get_bind fun s => ?_
  exact hR.keeps_when fun _ => hR.keeps_inspectPackets heapol _ _ _ _ _ _

omit heapol

theorem keeps_endWait (error : ℕ) : Keeps R (endWait error) :=
  hR.keeps_set fun _ => ⟨rfl, rfl, rfl, rfl, rfl, fun _ => rfl, rfl⟩

variable (heapol : ∀ ethernet, Keeps R (eapol ethernet))
include heapol

theorem keeps_drainCompletions (opcode sequence : ℕ) (capacity : Option ℕ) (closed fuel : ℕ) :
    Keeps R (drainCompletions env eapol opcode sequence capacity closed fuel) := by
  induction fuel with
  | zero => exact Keeps.endless
  | succ fuel ih =>
    refine get_bind fun s => ?_
    refine hR.keeps_guard fun _ => ?_
    refine hR.keeps_bind (hR.keeps_inspectCommandResponse heapol _ _ _ _) fun result => ?_
    refine get_bind fun t => ?_
    refine hR.keeps_bind (hR.keeps_recycleRxBuffer _) fun recycled => ?_
    refine Keeps.ite (fun _ => hR.keeps_then (hR.keeps_endWait 4)) fun _ => ?_
    refine hR.keeps_bind hR.keeps_advanceReadIndex fun _ => ?_
    cases result with
    | noResponse => exact ih
    | failed => exact hR.keeps_then (hR.keeps_endWait 2)
    | response payload =>
      exact hR.keeps_set fun _ => ⟨rfl, rfl, rfl, rfl, rfl, fun _ => rfl, rfl⟩

theorem keeps_awaitResponse (opcode sequence : ℕ) (capacity : Option ℕ) (rounds : ℕ) :
    Keeps R (awaitResponse env eapol opcode sequence capacity rounds) := by
  induction rounds with
  | zero => exact hR.keeps_endWait 1
  | succ rounds ih =>
    refine hR.keeps_bind hR.keeps_readStatus fun closed => ?_
    refine hR.keeps_bind (hR.keeps_drainCompletions heapol _ _ _ _ _) fun result => ?_
    cases result with
    | some r => exact hR.keeps_pure r
    | none => exact ih

theorem keeps_sendCommandSync (c : FwCommand)
    (capacity : Option ℕ) : Keeps R (sendCommandSync env eapol c capacity) := by
  refine get_bind fun s => ?_
  refine hR.keeps_guard fun _ => ?_
  refine hR.keeps_bind (hR.keeps_note (.command c)) fun _ => ?_
  refine hR.keeps_bind (hR.keeps_quiet fun _ => .of_eq rfl) fun _ => ?_
  exact hR.keeps_awaitResponse heapol _ _ _ _

omit heapol

/-- The handshake code at any nesting, once it is known to keep what its commands keep. -/
theorem keeps_eapolAt
    (hstep : ∀ send : Sender, (∀ c capacity, Keeps R (send c capacity)) →
      ∀ ethernet, Keeps R (handleWpa2Eapol send ethernet)) (n : ℕ) (ethernet : List UInt8) :
    Keeps R (eapolAt env n ethernet) := by
  induction n generalizing ethernet with
  | zero => exact Keeps.endless
  | succ n ih => exact hstep _ (fun c capacity => hR.keeps_sendCommandSync ih c capacity) ethernet

end Admissible

end MicroK.Iwl
