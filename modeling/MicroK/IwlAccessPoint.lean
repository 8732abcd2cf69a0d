import MicroK.IwlLink

/-!
# What the other side sends

The packets in which the firmware reports frames and answers commands, and the frames of an access
point. A connection attempt that the access point does not answer any more is given up after a fixed
number of polls.
-/

namespace MicroK.Iwl

open Checked Total Nat

def packet (cmd sequence : ℕ) (data : List UInt8) : List UInt8 :=
  leBytes 4 (4 + data.length) ++ [UInt8.ofNat cmd, 0] ++ leBytes 2 sequence ++ data

def padded (p : List UInt8) : List UInt8 :=
  p ++ List.replicate (consumedLength (p.length - 4) - p.length) 0

def completion (id : ℕ) (packets : List (List UInt8)) : Completion where
  descriptor := id
  contents i := (packets.flatMap padded ++ leBytes 4 rxFrameInvalid).getD i 0

def phyReport (channel : UInt8) : List UInt8 :=
  packet 0xC0 0 (List.replicate 22 0 ++ [channel] ++ List.replicate 45 0)

def frameReport (status : ℕ) (frame : List UInt8) : List UInt8 :=
  packet 0xC1 0 (leBytes 2 frame.length ++ [0, 0] ++ frame ++ leBytes 4 status)

def frameHeader (control : ℕ) (addr1 ap : List UInt8) : List UInt8 :=
  leBytes 2 control ++ [0, 0] ++ addr1 ++ ap ++ ap ++ [0, 0]

/-- The RSN element of a network with one pairwise suite, CCMP, and a passphrase. -/
def rsnElement : List UInt8 :=
  [48, 18, 1, 0, 0, 0x0F, 0xAC, 4, 1, 0, 0, 0x0F, 0xAC, 4, 1, 0, 0, 0x0F, 0xAC, 2]

def beacon (ap ssid elements : List UInt8) : List UInt8 :=
  frameHeader 0x0080 (List.replicate 6 0xFF) ap ++ List.replicate 8 0 ++ leBytes 2 100 ++
    leBytes 2 0x11 ++ [0, UInt8.ofNat ssid.length] ++ ssid ++ elements

def authenticationAnswer (mac ap : List UInt8) : List UInt8 :=
  frameHeader 0x00B0 mac ap ++ [0, 0, 2, 0, 0, 0]

def associationAnswer (mac ap : List UInt8) : List UInt8 :=
  frameHeader 0x0010 mac ap ++ [0x11, 0, 0, 0, 1, 0xC0]

/-- A data frame of the access point with an EAPOL body. -/
def eapolFrame (mac ap body : List UInt8) : List UInt8 :=
  frameHeader 0x0208 mac ap ++ [0xAA, 0xAA, 0x03, 0, 0, 0, 0x88, 0x8E] ++ body

/-- The first message of a handshake. -/
def message1 (replayCounter anonce : List UInt8) : List UInt8 :=
  [2, 3, 0, 95, 2, 0x00, 0x8A, 0, 16] ++ replayCounter ++ anonce ++ List.replicate 50 0

/-- Nothing is pending, and nothing arrives for some polls. -/
structure Idle (env : Env) (rounds : ℕ) (s : Wifi) : Prop where
  runtimeConfigured : s.runtimeConfigured = true
  rxHwProgrammed : s.rxHwProgrammed = true
  processing : s.runtimePollProcessing = false
  pending : s.pendingEapolLength = 0
  caughtUp : s.rx.readIndex = s.rx.closed % rxQueueSize
  arrivals : ∀ k < rounds, env.arrivals (s.ticks + k) = []

def Wifi.tick (s : Wifi) : Wifi := { s with ticks := s.ticks + 1 }

variable {env : Env} {s s₁ : Wifi}

theorem Idle.tick {rounds : ℕ} (h : Idle env (rounds + 1) s) : Idle env rounds s.tick := by
  refine ⟨h.runtimeConfigured, h.rxHwProgrammed, h.processing, h.pending, h.caughtUp, ?_⟩
  intro k hk
  have hnone := h.arrivals (k + 1) (by omega)
  rwa [add_comm k 1, ← add_assoc] at hnone

theorem Idle.total_poll {rounds : ℕ} (h : Idle env (rounds + 1) s) :
    Total (· = s) (poll env) fun _ t => t = s.tick := by
  have hnone : env.arrivals s.ticks = [] := h.arrivals 0 (succ_pos rounds)
  apply get_bind
  rintro t rfl
  refine Total.ite (fun hoff => ?_) fun _ => ?_
  · rw [h.runtimeConfigured, h.rxHwProgrammed] at hoff
    exact absurd hoff (by decide)
  refine Total.bind (Q := fun closed u => closed = t.rx.readIndex ∧ u = t.tick) ?_ fun closed => ?_
  · refine Total.bind (Q := fun _ u => u = t.tick) (Total.modify ?_) fun _ => get_bind ?_
    · rintro u rfl
      rw [hnone]
      rfl
    · rintro u rfl
      exact Total.pure fun v hv => ⟨h.caughtUp.symm, hv⟩
  apply of_fact
  rintro rfl
  refine Total.bind (Q := fun _ u => u = { t.tick with runtimePollProcessing := true })
    (Total.modify fun u hu => by rw [hu]) fun _ => ?_
  refine Total.bind (Q := fun finished u => finished = true ∧
    u = { t.tick with runtimePollProcessing := true }) ?_ fun finished => ?_
  · apply get_bind
    rintro u rfl
    exact Total.ite (fun _ => Total.pure fun v hv => ⟨rfl, hv⟩) fun hne => absurd rfl hne
  apply of_fact
  rintro rfl
  refine Total.bind (Q := fun _ u => u = t.tick) (Total.modify ?_) fun _ => ?_
  · rintro u rfl
    rw [Wifi.tick, ← h.processing]
  apply get_bind
  rintro u rfl
  refine Total.ite (fun hpending => absurd h.pending hpending.1) fun _ => ?_
  exact done

theorem Idle.total_pollUntil (done : Wifi → Bool) (hdone : ∀ s, done s.tick = done s) (rounds : ℕ)
    (h : Idle env rounds s) (hs : done s = false) :
    Total (· = s) (pollUntil env done rounds)
      fun _ t => t = { s with ticks := s.ticks + rounds } := by
  induction rounds generalizing s with
  | zero => exact Total.pure fun t ht => ht
  | succ rounds ih =>
    apply get_bind
    rintro t rfl
    refine Total.ite (fun hstop => absurd hstop (by rw [hs]; decide)) fun _ => ?_
    refine Total.bind h.total_poll fun _ => ?_
    refine (ih h.tick ((hdone t).trans hs)).mono fun _ u hu => ?_
    rw [hu, Wifi.tick, add_right_comm, add_assoc]

/-- The state in which a connection attempt begins to join the network. -/
def Wifi.attempt (s : Wifi) (pmk : List UInt8) : Wifi :=
  { s with
    trace := .connecting :: s.trace
    wpa :=
      { s.wpa with
        pmk, ptk := List.replicate 64 0, stage := 0, error := 0, micValid := false
        pairwiseKeyReady := false, groupKeyReady := false, txPacketNumber := 0
        handshakeActive := true } }

theorem total_connectWpa2 {networkIndex : ℕ} {passphrase pmk : List UInt8} {Q : Bool → Wifi → Prop}
    (hindex : networkIndex < s.scan.count)
    (hwpa2 : (s.scan.results.get ⟨networkIndex, hindex.trans_le s.scan.count_le⟩).wpa2PskCcmp =
      true)
    (hpmk : Wpa2.derivePmk passphrase
      ((s.scan.results.get ⟨networkIndex, hindex.trans_le s.scan.count_le⟩).ssid.toList.take
        (s.scan.results.get ⟨networkIndex, hindex.trans_le s.scan.count_le⟩).ssidLength) = some pmk)
    (hjoin : associateOpen env networkIndex (s.attempt pmk) = .ok (true, s₁))
    (hpolls : Total (· = s₁) (pollUntil env (fun s => 4 ≤ s.wpa.stage) handshakeRounds) fun _ t =>
      (4 ≤ t.wpa.stage → Q true t) ∧ (t.wpa.stage < 4 →
        Q false { t with wpa := { t.wpa with error :=
          if t.wpa.error = 0 then 4 else t.wpa.error } })) :
    ∃ connected s', connectWpa2 env networkIndex passphrase s = .ok (connected, s') ∧
      Q connected s' := by
  suffices h : Total (· = s) (connectWpa2 env networkIndex passphrase) Q from h s rfl
  apply get_bind
  rintro t rfl
  rw [dif_pos hindex, if_pos hwpa2]
  refine Total.bind (Q := fun _ u => u = { t with trace := .connecting :: t.trace })
    (Total.modify fun u hu => by rw [hu]) fun _ => ?_
  refine Total.bind (Q := fun _ u => ∃ w, u = { t with trace := .connecting :: t.trace, wpa := w } ∧
    { w with pmk := pmk, handshakeActive := true } = (t.attempt pmk).wpa) (Total.modify ?_)
    fun _ => ?_
  · rintro u rfl
    exact ⟨_, rfl, rfl⟩
  rw [hpmk]
  refine Total.bind (Q := fun _ u => u = t.attempt pmk) (Total.modify ?_) fun _ => ?_
  · rintro u ⟨w, rfl, hw⟩
    dsimp only
    rw [hw]
    rfl
  refine Total.bind (Q := fun joined u => joined = true ∧ u = s₁) ?_ fun joined => ?_
  · rintro u rfl
    exact ⟨true, s₁, hjoin, rfl, rfl⟩
  apply of_fact
  rintro rfl
  refine Total.bind hpolls fun _ => get_bind fun u hu => Total.ite (fun hstage => ?_)
    fun hstage => ?_
  · refine Total.bind (Q := fun _ v => Q false v) (Total.modify ?_) fun _ => Total.pure fun _ => id
    rintro v rfl
    exact hu.2 hstage
  · apply Total.pure
    rintro v rfl
    exact hu.1 (not_lt.mp hstage)

/-- The state after the polls of a handshake that has not begun. -/
def Wifi.timedOut (s : Wifi) : Wifi :=
  { s with
    ticks := s.ticks + handshakeRounds
    wpa := { s.wpa with error := if s.wpa.error = 0 then 4 else s.wpa.error } }

theorem connectWpa2_timesOut {networkIndex : ℕ} {passphrase pmk : List UInt8}
    (hindex : networkIndex < s.scan.count)
    (hwpa2 : (s.scan.results.get ⟨networkIndex, hindex.trans_le s.scan.count_le⟩).wpa2PskCcmp =
      true)
    (hpmk : Wpa2.derivePmk passphrase
      ((s.scan.results.get ⟨networkIndex, hindex.trans_le s.scan.count_le⟩).ssid.toList.take
        (s.scan.results.get ⟨networkIndex, hindex.trans_le s.scan.count_le⟩).ssidLength) = some pmk)
    (hjoin : associateOpen env networkIndex (s.attempt pmk) = .ok (true, s₁))
    (hstage : s₁.wpa.stage = 0) (hidle : Idle env handshakeRounds s₁) :
    connectWpa2 env networkIndex passphrase s = .ok (false, s₁.timedOut) := by
  have hpolls := hidle.total_pollUntil (fun s => 4 ≤ s.wpa.stage) (fun _ => rfl)
    handshakeRounds (decide_eq_false (by rw [hstage]; decide))
  suffices h : ∃ connected s', connectWpa2 env networkIndex passphrase s = .ok (connected, s') ∧
      connected = false ∧ s' = s₁.timedOut by
    obtain ⟨connected, s', hrun, rfl, rfl⟩ := h
    exact hrun
  refine total_connectWpa2 hindex hwpa2 hpmk hjoin (hpolls.mono ?_)
  rintro _ t rfl
  refine ⟨fun h => ?_, fun _ => ⟨rfl, rfl⟩⟩
  rw [hstage] at h
  omega

theorem runCalls_nil (env : Env) (s : Wifi) : runCalls env [] s = .ok ((), s) := rfl

theorem runCalls_cons {c : Call} {calls : List Call} {r : Bool} (h : c.run env s = .ok (r, s₁)) :
    runCalls env (c :: calls) s = runCalls env calls s₁ := by
  change ((do let _ ← c.run env; pure ()) >>= fun _ => runCalls env calls) s = _
  rw [bind_of_ok (bind_of_ok h)]

theorem runCalls_append {before calls : List Call} (h : runCalls env before s = .ok ((), s₁)) :
    runCalls env (before ++ calls) s = runCalls env calls s₁ := by
  induction before generalizing s with
  | nil =>
    cases h
    rfl
  | cons c before ih =>
    obtain ⟨_, t, hc, hrest⟩ := bind_eq_ok.mp h
    change ((do let _ ← c.run env; pure ()) >>= fun _ => runCalls env (before ++ calls)) s = _
    rw [bind_of_ok hc]
    exact ih hrest

def stationAddress : Vector UInt8 6 := ⟨#[2, 0, 0, 0, 0, 2], by decide⟩

def apAddress : List UInt8 := [2, 0, 0, 0, 0, 1]

def networkName : List UInt8 := [0x6E, 0x65, 0x74]

def booted : Wifi where
  macAddress := stationAddress
  runtimeConfigured := true
  rxHwProgrammed := true
  managementTxReady := true
  commandQueueActive := true

theorem booted_configured : Configured booted := ⟨rfl, rfl, rfl, rfl, rfl, rfl, rfl⟩

/-- The network is seen with its RSN element and then without. The firmware and the access point
answer until the link is up; much later the network is seen with its RSN element again. -/
def silentScript : List (List Completion) :=
  [[completion 1 [phyReport 1, frameReport 3 (beacon apAddress networkName rsnElement)]],
    [completion 2 [frameReport 3 (beacon apAddress networkName [])]],
    [completion 3 [packet 0x08 0 []]], [completion 4 [packet 0x28 1 []]],
    [completion 5 [packet 0x2B 2 [0, 0, 0, 0]]],
    [completion 6 [frameReport 3 (authenticationAnswer stationAddress.toList apAddress)]],
    [completion 7 [frameReport 3 (associationAnswer stationAddress.toList apAddress)]],
    [completion 8 [packet 0x18 3 [1, 0, 0, 0]]], [completion 9 [packet 0x1D 4 []]],
    [completion 10 [packet 0x28 5 []]]]

def silent : Env where
  arrivals n :=
    if n = 20000010 then [completion 11 [frameReport 3 (beacon apAddress networkName rsnElement)]]
    else silentScript.getD n []
  replies _ := []
  fuel := 2

def silentPassphrase : List UInt8 := List.replicate 8 0x61

def silentPmk : List UInt8 := (Wpa2.derivePmk silentPassphrase networkName).getD []

@[irreducible] def silentScanned : Wifi :=
  after (Call.poll.run silent) (after (Call.poll.run silent) booted)

@[irreducible] def silentJoined : Wifi :=
  after (associateOpen silent 0) (silentScanned.attempt silentPmk)

def silentTimedOut : Wifi := silentJoined.timedOut

theorem silentPmk_eq : Wpa2.derivePmk silentPassphrase networkName = some silentPmk := by
  have hsome : (Wpa2.derivePmk silentPassphrase networkName).isSome = true := by decide +kernel
  obtain ⟨pmk, hpmk⟩ := Option.isSome_iff_exists.mp hsome
  rw [silentPmk, hpmk]
  rfl

theorem silent_scanned :
    runCalls silent [.poll, .poll] booted = .ok ((), silentScanned) ∧
      0 < silentScanned.scan.count ∧
      (silentScanned.scan.results.get ⟨0, by decide⟩).wpa2PskCcmp = true ∧
      (silentScanned.scan.results.get ⟨0, by decide⟩).ssid.toList.take
        (silentScanned.scan.results.get ⟨0, by decide⟩).ssidLength = networkName := by
  have hpolls : result (Call.poll.run silent) booted = some true ∧
      result (Call.poll.run silent) (after (Call.poll.run silent) booted) = some true ∧
      0 < silentScanned.scan.count ∧
      (silentScanned.scan.results.get ⟨0, by decide⟩).wpa2PskCcmp = true ∧
      (silentScanned.scan.results.get ⟨0, by decide⟩).ssid.toList.take
        (silentScanned.scan.results.get ⟨0, by decide⟩).ssidLength = networkName := by
    decide +kernel
  obtain ⟨hfirst, hsecond, hfound⟩ := hpolls
  refine ⟨?_, hfound⟩
  rw [runCalls_cons (run_eq_ok hfirst), runCalls_cons (run_eq_ok hsecond), runCalls_nil,
    silentScanned]

theorem silent_joined :
    associateOpen silent 0 (silentScanned.attempt silentPmk) = .ok (true, silentJoined) ∧
      silentJoined.wpa.stage = 0 ∧ Idle silent handshakeRounds silentJoined := by
  have hfacts : result (associateOpen silent 0) (silentScanned.attempt silentPmk) = some true ∧
      silentJoined.wpa.stage = 0 ∧ silentJoined.ticks = 10 ∧
      silentJoined.runtimeConfigured = true ∧ silentJoined.rxHwProgrammed = true ∧
      silentJoined.runtimePollProcessing = false ∧ silentJoined.pendingEapolLength = 0 ∧
      silentJoined.rx.readIndex = silentJoined.rx.closed % rxQueueSize := by decide +kernel
  obtain ⟨hjoin, hstage, hticks, hconfigured, hprogrammed, hprocessing, hpending, hcaught⟩ := hfacts
  have hrun := run_eq_ok hjoin
  rw [← silentJoined] at hrun
  refine ⟨hrun, hstage, hconfigured, hprogrammed, hprocessing, hpending, hcaught, ?_⟩
  intro k hk
  have hrounds : handshakeRounds = 20000000 := rfl
  rw [hticks]
  change (if 10 + k = 20000010 then _ else silentScript.getD (10 + k) []) = []
  rw [if_neg (by omega)]
  exact List.getD_eq_default _ _ (le_add_right 10 k)

theorem silent_connect : (Call.connect 0 silentPassphrase).run silent silentScanned =
    .ok (false, silentTimedOut) := by
  obtain ⟨-, hindex, hwpa2, hssid⟩ := silent_scanned
  obtain ⟨hjoin, hstage, hidle⟩ := silent_joined
  exact connectWpa2_timesOut hindex hwpa2 (by rw [hssid, silentPmk_eq]) hjoin hstage hidle

theorem silent_timedOut :
    runCalls silent [.poll, .poll, .connect 0 silentPassphrase] booted =
      .ok ((), silentTimedOut) := by
  have hcalls : [Call.poll, Call.poll, Call.connect 0 silentPassphrase] =
      [Call.poll, Call.poll] ++ [Call.connect 0 silentPassphrase] := rfl
  rw [hcalls, runCalls_append silent_scanned.1, runCalls_cons silent_connect, runCalls_nil]

/-- The network keeps its RSN element. -/
def heard : Env where
  arrivals n := (silentScript.take 1 ++ silentScript.drop 2).getD n []
  replies _ := []
  fuel := 2

@[irreducible] def heardScanned : Wifi := after (Call.poll.run heard) booted

@[irreducible] def heardJoined : Wifi :=
  after (associateOpen heard 0) (heardScanned.attempt silentPmk)

theorem heard_scanned :
    Call.poll.run heard booted = .ok (true, heardScanned) ∧ 0 < heardScanned.scan.count ∧
      (heardScanned.scan.results.get ⟨0, by decide⟩).wpa2PskCcmp = true ∧
      (heardScanned.scan.results.get ⟨0, by decide⟩).ssid.toList.take
        (heardScanned.scan.results.get ⟨0, by decide⟩).ssidLength = networkName := by
  have hfacts : result (Call.poll.run heard) booted = some true ∧ 0 < heardScanned.scan.count ∧
      (heardScanned.scan.results.get ⟨0, by decide⟩).wpa2PskCcmp = true ∧
      (heardScanned.scan.results.get ⟨0, by decide⟩).ssid.toList.take
        (heardScanned.scan.results.get ⟨0, by decide⟩).ssidLength = networkName := by
    decide +kernel
  have hrun := run_eq_ok hfacts.1
  rw [← heardScanned] at hrun
  exact ⟨hrun, hfacts.2⟩

theorem heard_connect : (Call.connect 0 silentPassphrase).run heard heardScanned =
    .ok (false, heardJoined.timedOut) := by
  obtain ⟨-, hindex, hwpa2, hssid⟩ := heard_scanned
  have hfacts : result (associateOpen heard 0) (heardScanned.attempt silentPmk) = some true ∧
      heardJoined.wpa.stage = 0 ∧ heardJoined.ticks = 9 ∧
      heardJoined.runtimeConfigured = true ∧ heardJoined.rxHwProgrammed = true ∧
      heardJoined.runtimePollProcessing = false ∧ heardJoined.pendingEapolLength = 0 ∧
      heardJoined.rx.readIndex = heardJoined.rx.closed % rxQueueSize := by decide +kernel
  obtain ⟨hjoin, hstage, hticks, hconfigured, hprogrammed, hprocessing, hpending, hcaught⟩ := hfacts
  have hrun := run_eq_ok hjoin
  rw [← heardJoined] at hrun
  have hidle : Idle heard handshakeRounds heardJoined := by
    refine ⟨hconfigured, hprogrammed, hprocessing, hpending, hcaught, fun k _ => ?_⟩
    rw [hticks]
    exact List.getD_eq_default _ _ (le_add_right 9 k)
  exact connectWpa2_timesOut hindex hwpa2 (by rw [hssid, silentPmk_eq]) hrun hstage hidle

end MicroK.Iwl
