import MicroK.IwlAccessPoint
import MicroK.IwlRuns

/-!
# Packet numbers of protected frames

The packet number of a protected frame is one more than that of the protected frame before it, and
every connection attempt starts again from zero. While attempts are only made before the first
protected frame, the numbers are `1, 2, 3, …` and cannot repeat before the 48 bits they are sent in
run out. After an attempt nothing but the temporal key tells the frames from the earlier ones.
-/

namespace MicroK.Iwl

open Outcome

theorem storeAll_append (f : Image) (before after : List (ℕ × List UInt8)) :
    f.storeAll (before ++ after) = (f.storeAll before >>= fun g => g.storeAll after) := by
  induction before generalizing f with
  | nil => rfl
  | cons p before ih =>
    change (f.store p.1 p.2 >>= fun g => g.storeAll (before ++ after)) =
      ((f.store p.1 p.2 >>= fun g => g.storeAll before) >>= fun g => g.storeAll after)
    cases f.store p.1 p.2 with
    | ok g => exact ih g
    | fault => rfl
    | endless => rfl
    | reject => rfl

theorem store_eq_ok {f g : Image} {off : ℕ} {l : List UInt8} (h : f.store off l = .ok g) :
    g = f.put off l := by
  unfold Image.store at h
  split_ifs at h
  exact (Outcome.ok.inj h).symm

theorem storeAll_byte {f g : Image} {parts : List (ℕ × List UInt8)}
    (h : f.storeAll parts = .ok g) {i : ℕ}
    (hi : ∀ p ∈ parts, i < p.1 ∨ p.1 + p.2.length ≤ i) : g.byte i = f.byte i := by
  induction parts generalizing f with
  | nil => rw [Outcome.ok.inj h]
  | cons p parts ih =>
    obtain ⟨f', hstore, hrest⟩ := bind_eq_ok.mp h
    obtain rfl := store_eq_ok hstore
    obtain ⟨hp, hparts⟩ := List.forall_mem_cons.mp hi
    rw [ih hrest hparts, Image.put]
    exact if_neg (by omega)

variable {frame ethernet : List UInt8} {mac : Vector UInt8 6} {pn : ℕ} {network : ScanResult}

theorem assemble_segment {size length off : ℕ} {l : List UInt8}
    {before after : List (ℕ × List UInt8)}
    (h : assemble size length (before ++ (off, l) :: after) = .ok frame)
    (hafter : ∀ p ∈ after, off + l.length ≤ p.1 ∨ p.1 + p.2.length ≤ off)
    (hlength : off + l.length ≤ length) : (frame.drop off).take l.length = l := by
  obtain ⟨g, hg, hread⟩ := bind_eq_ok.mp h
  rw [storeAll_append] at hg
  obtain ⟨f, -, hg⟩ := bind_eq_ok.mp hg
  obtain ⟨f', hstore, hrest⟩ := bind_eq_ok.mp hg
  obtain rfl := store_eq_ok hstore
  obtain rfl : g.bytes 0 length = frame := by
    unfold Image.readBytes at hread
    split_ifs at hread
    exact Outcome.ok.inj hread
  refine List.ext_getElem (by simp; omega) fun k hk hkl => ?_
  have hbyte : g.byte (off + k) = (f.put off l).byte (off + k) :=
    storeAll_byte hrest fun p hp => by
      rcases hafter p hp with hle | hle <;> omega
  have hput : (f.put off l).byte (off + k) = l.getD k 0 := by
    rw [Image.put]
    dsimp only
    rw [if_pos (by omega), Nat.add_sub_cancel_left]
  simp [Image.bytes, hbyte, hput, hkl]

theorem leValue_leBytes_two {control : ℕ} (h : control < 65536) :
    leValue (leBytes 2 control) = control := leValue_leBytes (by omega)

theorem managementHeader_after (control : ℕ) (bssid mac : Vector UInt8 6)
    (rest : List (ℕ × List UInt8)) :
    managementHeader control bssid mac ++ rest =
      [(0, List.replicate 24 0)] ++ (0, leBytes 2 control) ::
        ((4, bssid.toList) :: (10, mac.toList) :: (16, bssid.toList) :: rest) := rfl

theorem frameControl_assemble {size length control : ℕ} {bssid : Vector UInt8 6}
    {rest : List (ℕ × List UInt8)} (hcontrol : control < 65536) (hlength : 2 ≤ length)
    (hrest : ∀ p ∈ rest, 2 ≤ p.1)
    (h : assemble size length (managementHeader control bssid mac ++ rest) = .ok frame) :
    frameControl frame = control := by
  rw [managementHeader_after] at h
  have hsegment := assemble_segment h ?_ (by simpa using hlength)
  · rw [List.drop_zero, length_leBytes] at hsegment
    rw [frameControl, hsegment, leValue_leBytes_two hcontrol]
  · simp only [length_leBytes, List.forall_mem_cons]
    exact ⟨by omega, by omega, by omega, fun p hp => .inl (hrest p hp)⟩

def packetNumber (frame : List UInt8) : ℕ :=
  let h := frame.drop 24
  leValue [h.getD 0 0, h.getD 1 0, h.getD 4 0, h.getD 5 0, h.getD 6 0, h.getD 7 0]

theorem packetNumber_of_header (h : (frame.drop 24).take 8 = ccmpHeader pn) :
    packetNumber frame = pn % 2 ^ 48 := by
  have hget : ∀ k < 8, (frame.drop 24).getD k 0 = (ccmpHeader pn).getD k 0 := by
    intro k hk
    rw [← h, List.getD_eq_getElem?_getD, List.getD_eq_getElem?_getD, List.getElem?_take_of_lt hk]
  simp only [packetNumber, hget, Nat.reduceLT]
  simp only [ccmpHeader, List.getD_cons_zero, List.getD_cons_succ, leValue, UInt8.toNat_ofNat']
  omega

theorem ethernetFrame_control {encrypted : Bool}
    (h : ethernetFrame network mac encrypted pn ethernet = .ok frame) :
    frameControl frame = if encrypted then 0x4108 else 0x0108 := by
  unfold ethernetFrame at h
  simp only [List.append_assoc] at h
  refine frameControl_assemble (by split_ifs <;> omega) (by omega) ?_ h
  simp only [List.forall_mem_append, List.forall_mem_cons]
  refine ⟨⟨by omega, nofun⟩, ?_, ⟨by split_ifs <;> omega, by split_ifs <;> omega, nofun⟩⟩
  split_ifs
  · exact List.forall_mem_cons.mpr ⟨by omega, nofun⟩
  · exact nofun

theorem ethernetFrame_protected {encrypted : Bool}
    (h : ethernetFrame network mac encrypted pn ethernet = .ok frame) :
    protectedBit (frameControl frame) = encrypted := by
  rw [ethernetFrame_control h]
  cases encrypted <;> rfl

theorem ethernetFrame_packetNumber (h : ethernetFrame network mac true pn ethernet = .ok frame)
    (hlength : 14 ≤ ethernet.length) : packetNumber frame = pn % 2 ^ 48 := by
  have hparts : assemble 1536 (ethernet.length + 18 + 8)
      ((managementHeader 0x4108 network.bssid mac ++ [(16, ethernet.take 6)]) ++
        (24, ccmpHeader pn) ::
        [(32, [0xAA, 0xAA, 0x03, 0, 0, 0, ethernet.getD 12 0, ethernet.getD 13 0]),
          (32 + 8, ethernet.drop 14)]) = .ok frame := by
    rw [← h, ethernetFrame]
    simp
  refine packetNumber_of_header (assemble_segment hparts ?_ ?_)
  · simp only [List.forall_mem_cons, ccmpHeader, List.length_cons, List.length_nil]
    exact ⟨.inl (by omega), .inl (by omega), nofun⟩
  · simp only [ccmpHeader, List.length_cons, List.length_nil]
    omega

theorem authenticationFrame_protected (h : authenticationFrame network mac = .ok frame) :
    protectedBit (frameControl frame) = false := by
  rw [frameControl_assemble (by omega) (by omega) ?_ h]
  · rfl
  · simp only [List.forall_mem_cons]
    exact ⟨by omega, by omega, by omega, nofun⟩

theorem associationRequest_protected (h : associationRequest network mac = .ok frame) :
    protectedBit (frameControl frame) = false := by
  have hparts : ∀ rest : List (ℕ × List UInt8), (∀ p ∈ rest, 2 ≤ p.1) →
      ∀ p ∈ [(24, leBytes 2 network.capability), (26, leBytes 2 10),
        (28, [0, UInt8.ofNat network.ssidLength]),
        (30, network.ssid.toList.take network.ssidLength), (30 + network.ssidLength, [1]),
        (30 + network.ssidLength + 1, supportedRates network.channel)] ++ rest, 2 ≤ p.1 := by
    intro rest hrest
    refine List.forall_mem_append.mpr ⟨?_, hrest⟩
    simp only [List.forall_mem_cons]
    exact ⟨by omega, by omega, by omega, by omega, by omega, by omega, nofun⟩
  unfold associationRequest at h
  dsimp only at h
  split_ifs at h
  · rw [List.append_assoc] at h
    rw [frameControl_assemble (by omega) (by omega) (hparts _ ?_) h]
    · rfl
    · exact List.forall_mem_cons.mpr ⟨by omega, nofun⟩
  · rw [frameControl_assemble (by omega) (by omega) ?_ h]
    · rfl
    · have := hparts [] nofun
      rwa [List.append_nil] at this

open Checked

/-- The temporal key and the packet number of a protected frame handed to the transmit queue. -/
def protectedPair : Event → Option (List UInt8 × ℕ)
  | .sent _ frame key =>
    if protectedBit (frameControl frame) then some (key, packetNumber frame) else none
  | _ => none

def usedPairs (t : List Event) : List (List UInt8 × ℕ) := t.filterMap protectedPair

variable {e : Event} {s s' : Wifi}

theorem usedPairs_cons_none (t : List Event) (h : protectedPair e = none) :
    usedPairs (e :: t) = usedPairs t := List.filterMap_cons_none h

theorem usedPairs_cons_some (t : List Event) {p : List UInt8 × ℕ} (h : protectedPair e = some p) :
    usedPairs (e :: t) = p :: usedPairs t := List.filterMap_cons_some h

/-- The counter says how many protected frames there have been, and they are numbered from 1 on; the
last one stands first. -/
structure Numbered (s : Wifi) : Prop where
  counter : s.wpa.txPacketNumber = (usedPairs s.trace).length % 2 ^ 64
  numbers : (usedPairs s.trace).map Prod.snd =
    (List.range (usedPairs s.trace).length).reverse.map fun i => (i + 1) % 2 ^ 48

theorem Numbered.of_eq (h : Numbered s) (hcounter : s'.wpa.txPacketNumber = s.wpa.txPacketNumber)
    (hpairs : usedPairs s'.trace = usedPairs s.trace) : Numbered s' :=
  ⟨by rw [hcounter, hpairs, h.counter], by rw [hpairs, h.numbers]⟩

theorem Numbered.sent (h : Numbered s) {station : ℕ} {frame key : List UInt8}
    (hcounter : s'.wpa.txPacketNumber = (s.wpa.txPacketNumber + 1) % 2 ^ 64)
    (htrace : s'.trace = .sent station frame key :: s.trace)
    (hprotected : protectedBit (frameControl frame) = true)
    (hnumber : packetNumber frame = s'.wpa.txPacketNumber % 2 ^ 48) : Numbered s' := by
  have hpair : protectedPair (.sent station frame key) = some (key, packetNumber frame) :=
    if_pos hprotected
  have hpairs : usedPairs s'.trace = (key, packetNumber frame) :: usedPairs s.trace := by
    rw [htrace, usedPairs_cons_some s.trace hpair]
  have hnext : s'.wpa.txPacketNumber = ((usedPairs s.trace).length + 1) % 2 ^ 64 := by
    rw [hcounter, h.counter]
    omega
  have hlast : packetNumber frame = ((usedPairs s.trace).length + 1) % 2 ^ 48 := by
    omega
  refine ⟨by rw [hpairs, hnext, List.length_cons], ?_⟩
  rw [hpairs, List.map_cons, h.numbers, List.length_cons, List.range_succ, List.reverse_append,
    hlast]
  rfl

/-- The packet numbers of frames that are fewer than `2 ^ 48` apart differ. -/
theorem Numbered.ne (h : Numbered s) {i j : ℕ} (hij : i < j) (hnear : j < i + 2 ^ 48)
    (hj : j < (usedPairs s.trace).length) : (usedPairs s.trace)[i]? ≠ (usedPairs s.trace)[j]? := by
  intro heq
  have hmap (k : ℕ) (hk : k < (usedPairs s.trace).length) :
      ((usedPairs s.trace)[k]?).map Prod.snd =
        some (((usedPairs s.trace).length - 1 - k + 1) % 2 ^ 48) := by
    rw [← List.getElem?_map, h.numbers, List.getElem?_map,
      List.getElem?_reverse (by simpa using hk),
      List.length_range, List.getElem?_range (by omega)]
    rfl
  have hnumber := congrArg (Option.map Prod.snd) heq
  rw [hmap i (by omega), hmap j hj, Option.some.injEq] at hnumber
  omega

/-- Between two states the counter goes on agreeing with what is sent. -/
def StaysNumbered (s s' : Wifi) : Prop := s.trace <:+ s'.trace ∧ (Numbered s → Numbered s')

namespace StaysNumbered

theorem refl (s : Wifi) : StaysNumbered s s := ⟨List.suffix_refl _, id⟩

theorem trans (s t u : Wifi) (h₁ : StaysNumbered s t) (h₂ : StaysNumbered t u) :
    StaysNumbered s u := ⟨h₁.1.trans h₂.1, fun h => h₂.2 (h₁.2 h)⟩

theorem of_trace_eq (htrace : s'.trace = s.trace)
    (hcounter : s'.wpa.txPacketNumber = s.wpa.txPacketNumber) : StaysNumbered s s' :=
  ⟨by rw [htrace], fun h => h.of_eq hcounter (by rw [htrace])⟩

theorem record (s : Wifi) (hpair : protectedPair e = none) : StaysNumbered s (s.record e) :=
  ⟨List.suffix_cons _ _, fun h => h.of_eq rfl (usedPairs_cons_none s.trace hpair)⟩

theorem of_quiet (s s' : Wifi) (h : Quiet s s') : StaysNumbered s s' :=
  of_trace_eq h.trace (by rw [h.wpa])

theorem keeps_sendWifiFrame {frame : List UInt8} {station : ℕ}
    (h : protectedBit (frameControl frame) = false) :
    Keeps StaysNumbered (sendWifiFrame frame station) :=
  Iwl.keeps_sendWifiFrame trans of_quiet fun s =>
    record s (if_neg (Bool.eq_false_iff.mp h))

/-- The packet number is taken and used in one go: in between the counter is ahead. -/
theorem keeps_send (ethernet : List UInt8) : Keeps StaysNumbered (sendEthernet ethernet) := by
  refine keeps_iff.mpr fun s₀ => Ensures.get_bind ?_
  rintro s rfl
  refine Ensures.ite (fun _ => Ensures.pure fun u hu => hu ▸ refl s) fun hok => ?_
  have hlength : 14 ≤ ethernet.length := by
    by_contra hshort
    exact hok (.inr (.inr (.inl (by omega))))
  have hrest : ∀ {P : Wifi → Prop} {frame : List UInt8},
      (∀ t, P t → StaysNumbered s (t.record (.sent 0 frame t.wpa.temporalKey))) →
      Ensures P (do
        let accepted ← sendWifiFrame frame 0
        if accepted then
          modify fun s => { s with wifiTxPackets := u32 (s.wifiTxPackets + 1) }
          pure true
        else pure false) fun _ u => StaysNumbered s u := by
    intro P frame hsent
    refine Ensures.bind (ensures_sendWifiFrame hsent fun t u hq h =>
      trans s t u h (of_quiet t u hq)) fun accepted => ?_
    refine Ensures.ite (fun _ => ?_) fun _ => Ensures.done
    refine Ensures.modify_then (T := StaysNumbered s) (fun t ht => ?_) Ensures.done
    exact trans s t _ ht (of_quiet _ _ (.of_eq rfl))
  cases hencrypted : s.link.securityReady && s.network.rsn with
  | false =>
    refine Ensures.bind (Ensures.pure (Q := fun _ t => t = s) fun _ => id) fun _ => ?_
    refine Ensures.get_bind fun t ht => Ensures.bind Ensures.lift fun frame => ?_
    refine Ensures.of_fact fun hframe => hrest fun u hu => ?_
    obtain rfl := hu.trans ht
    have hprotected := ethernetFrame_protected hframe
    exact record u (if_neg (Bool.eq_false_iff.mp hprotected))
  | true =>
    refine Ensures.modify_then (T := fun t => t.wpa.txPacketNumber =
      (s.wpa.txPacketNumber + 1) % 2 ^ 64 ∧ t.trace = s.trace) ?_ ?_
    · rintro t rfl
      exact ⟨rfl, rfl⟩
    refine Ensures.get_bind fun t ht => Ensures.bind Ensures.lift fun frame => ?_
    refine Ensures.of_fact fun hframe => hrest fun u hu => ?_
    obtain ⟨hcounter, htrace⟩ := ht
    obtain rfl := hu
    refine ⟨?_, fun h => h.sent hcounter (congrArg (_ :: ·) htrace)
      (ethernetFrame_protected hframe) (ethernetFrame_packetNumber hframe hlength)⟩
    rw [← htrace]
    exact List.suffix_cons _ _

theorem indifferent : Indifferent StaysNumbered where
  refl := refl
  trans := trans
  grows _ _ h := h.1
  quiet := of_quiet
  plain s e he := record s (by cases he <;> rfl)
  answer _ _ _ := of_trace_eq rfl rfl
  disconnect buf frame := Keeps.lift_bind fun _ _ => Keeps.bind trans
    (Keeps.modify fun _ => of_trace_eq rfl rfl) fun _ => Keeps.modify fun _ => of_trace_eq rfl rfl
  beacon := keeps_handleBeacon refl trans of_quiet (fun _ _ => of_trace_eq rfl rfl)
    fun s _ _ => record s rfl
  send := keeps_send
  delivered s₀ s control status ethernet h _ _ _ := trans s₀ s _ h (record s rfl)
  verified s _ := record s rfl
  installed s _ := record s rfl
  keys _ _ hcounter := of_trace_eq rfl hcounter
  ready _ := of_trace_eq rfl rfl
  offered s := record s rfl
  entered s := record s rfl
  left s _ := record s rfl

theorem calling (env : Env) : Calling env (fun s => s.wpa.txPacketNumber = 0) StaysNumbered where
  toAdmissible := indifferent.toAdmissible
  eapol := indifferent.keeps_eapol env
  flags _ _ := of_trace_eq rfl rfl
  link _ _ := of_trace_eq rfl rfl
  joined s _ := record s rfl
  authentication _ _ _ hframe := Keeps.get_bind fun _ =>
    keeps_sendWifiFrame (authenticationFrame_protected hframe)
  association _ _ _ hframe := Keeps.get_bind fun _ =>
    keeps_sendWifiFrame (associationRequest_protected hframe)
  associating s := record s rfl
  connecting s _ hzero hreset := ⟨List.suffix_cons _ _, fun h =>
    h.of_eq (hreset.trans hzero.symm) (usedPairs_cons_none s.trace rfl)⟩
  progress _ _ hcounter := of_trace_eq rfl hcounter

end StaysNumbered

theorem numbered_of_configured (h : Configured s) : Numbered s := by
  refine ⟨by rw [h.wpa, h.trace]; rfl, ?_⟩
  rw [h.trace]
  rfl

/-- While connection attempts are only made with the packet number still at zero, no two protected
frames fewer than `2 ^ 48` apart have the same temporal key and packet number. -/
theorem usedPairs_distinct (env : Env) (s s' : Wifi) (hs : Configured s)
    (hcalls : Relation.ReflTransGen (CallWith env fun s => s.wpa.txPacketNumber = 0) s s') {i j : ℕ}
    (hij : i < j) (hnear : j < i + 2 ^ 48) (hj : j < (usedPairs s'.trace).length) :
    (usedPairs s'.trace)[i]? ≠ (usedPairs s'.trace)[j]? := by
  have hnumbered : Numbered s' :=
    ((StaysNumbered.calling env).of_calls hcalls).2 (numbered_of_configured hs)
  exact hnumbered.ne hij hnear hj

def somePacket : List UInt8 := apAddress ++ stationAddress.toList ++ [0x08, 0x00]

/-- The calls that lose the RSN element, find it again and send a protected frame. -/
def silentCalls : List Call :=
  [.poll, .poll, .connect 0 silentPassphrase, .poll, .send somePacket]

@[irreducible] def silentSent : Wifi :=
  after (runCalls silent [.poll, .send somePacket]) silentTimedOut

theorem silent_sent : runCalls silent silentCalls booted = .ok ((), silentSent) := by
  have hrest : result (runCalls silent [.poll, .send somePacket]) silentTimedOut = some () := by
    decide +kernel
  have hrun : runCalls silent ([.poll, .poll, .connect 0 silentPassphrase] ++
    [.poll, .send somePacket]) booted = _ := runCalls_append silent_timedOut
  rw [silentSent]
  exact hrun.trans (run_eq_ok hrest)

theorem callWith_of_runCalls {env : Env} {P : Wifi → Prop} {calls : List Call} {s s' : Wifi}
    (hrun : runCalls env calls s = .ok ((), s'))
    (hcalls : ∀ c ∈ calls, ∀ networkIndex passphrase, c ≠ .connect networkIndex passphrase) :
    Relation.ReflTransGen (CallWith env P) s s' := by
  induction calls generalizing s with
  | nil =>
    cases hrun
    exact .refl
  | cons c calls ih =>
    obtain ⟨_, t, hc, hrest⟩ := Checked.bind_eq_ok.mp hrun
    obtain ⟨result, u, hcall, hpure⟩ := Checked.bind_eq_ok.mp hc
    cases hpure
    obtain ⟨hfirst, hlater⟩ := List.forall_mem_cons.mp hcalls
    exact .head (.call c hcall fun n p hcon => absurd hcon (hfirst n p)) (ih hrest hlater)

@[irreducible] def silentSentTwice : Wifi :=
  after (runCalls silent [.poll, .send somePacket, .send somePacket]) silentTimedOut

/-- Two frames after one attempt. -/
theorem silent_pairs_distinct :
    (usedPairs silentSentTwice.trace).length = 2 ∧
      (usedPairs silentSentTwice.trace)[0]? ≠ (usedPairs silentSentTwice.trace)[1]? := by
  have hsends : result (runCalls silent [.poll, .send somePacket, .send somePacket])
      silentTimedOut = some () ∧ silentScanned.wpa.txPacketNumber = 0 ∧
      (usedPairs silentSentTwice.trace).length = 2 := by decide +kernel
  obtain ⟨hrest, hzero, hlength⟩ := hsends
  have hrun := run_eq_ok hrest
  rw [← silentSentTwice] at hrun
  have hcalls : Relation.ReflTransGen (CallWith silent fun s => s.wpa.txPacketNumber = 0) booted
      silentSentTwice :=
    ((callWith_of_runCalls silent_scanned.1 (by simp)).tail
      (.call (.connect 0 silentPassphrase) silent_connect fun _ _ _ => hzero)).trans
      (callWith_of_runCalls hrun (by simp))
  refine ⟨hlength, usedPairs_distinct silent booted _ booted_configured hcalls Nat.one_pos
    (by norm_num) ?_⟩
  rw [hlength]
  norm_num

/-- A failed attempt with a passphrase that is too short keeps the link and starts the packet
numbers again, under the same key of zeros. -/
theorem silent_reuses_pair :
    Configured booted ∧ ∃ s', runCalls silent (silentCalls ++ [.connect 0 [], .send somePacket])
      booted = .ok ((), s') ∧ ¬ (usedPairs s'.trace).Nodup := by
  have hrest : result (runCalls silent [.connect 0 [], .send somePacket]) silentSent = some () ∧
      ¬ (usedPairs (after (runCalls silent [.connect 0 [], .send somePacket])
        silentSent).trace).Nodup := by decide +kernel
  exact ⟨booted_configured, _, (runCalls_append silent_sent).trans (run_eq_ok hrest.1), hrest.2⟩

end MicroK.Iwl
