import MicroK.IwlAccessPoint
import MicroK.IwlFrames
import MicroK.IwlRsn

/-!
# The walk over a receive buffer

Whatever a receive buffer holds, polling it ends, reads nothing outside of it and writes nothing
outside of the arrays of the driver. Each length field is checked against the one around it: packet,
frame, header, information element, suite lists. A frame for the handshake is put aside and parsed
after the walk.
-/

namespace MicroK.Iwl

open Image Outcome

open Checked

theorem ends_storeField {n : ℕ} (v : Vector UInt8 n) {off : ℕ} {l : List UInt8}
    (h : off + l.length ≤ n) : (storeField v off l).Ends fun _ => True :=
  ⟨_, if_pos h, trivial⟩

variable {buf : Image} {frame frameLength : ℕ}

theorem ends_informationElement {id length body : ℕ} (r : ScanResult)
    (h : body + length ≤ buf.size) :
    (informationElement buf id length body r).Ends fun _ => True := by
  unfold informationElement
  split_ifs with hssid hchannel hrsn hlength hdtim
  · refine ends_bind (ends_readBytes h) fun name hname => ?_
    refine ends_bind (ends_storeField _ (by omega)) fun ssid _ => ?_
    refine ends_bind (ends_storeField _ (by simp only [List.length_cons, List.length_nil]; omega))
      fun _ _ => ends_pure trivial
  · exact ends_bind (ends_readLe (by omega)) fun _ _ => ends_pure trivial
  · refine ends_bind (ends_storeField _ (by simp)) fun rsnIe _ => ?_
    refine ends_bind (ends_readBytes h) fun element helement => ?_
    refine ends_bind (ends_storeField _ (by omega)) fun rsnIe _ => ?_
    obtain ⟨accepted, haccepted, -⟩ := rsnIsWpa2PskCcmp_ok h
    rw [haccepted]
    exact ends_pure trivial
  · exact ends_pure trivial
  · exact ends_bind (ends_readLe (by omega)) fun _ _ => ends_pure trivial
  · exact ends_pure trivial

/-- The elements of a frame: each round takes at least two bytes of it. -/
theorem ends_informationElements (h : frame + frameLength ≤ buf.size) (fuel : ℕ) {offset : ℕ}
    (r : ScanResult) (hoffset : offset ≤ frameLength) (hfuel : frameLength < offset + fuel) :
    (informationElements buf frame frameLength fuel offset r).Ends fun _ => True := by
  induction fuel generalizing offset r with
  | zero => omega
  | succ fuel ih =>
    unfold informationElements
    split_ifs with hmore
    · refine ends_bind (ends_readLe (by omega)) fun id _ => ?_
      refine ends_bind (ends_readLe (by omega)) fun length _ => ?_
      dsimp only
      split_ifs with hlong
      · exact ends_pure trivial
      · exact ends_bind (ends_informationElement r (by omega))
          fun r _ => ih r (by omega) (by omega)
    · exact ends_pure trivial

theorem ends_dataFrameContents (control status : ℕ) (mac : Vector UInt8 6) (ready : Bool)
    (h : frame + frameLength ≤ buf.size) (hlength : 24 ≤ frameLength) :
    (dataFrameContents buf frame frameLength control status mac ready).Ends fun _ => True := by
  refine ends_bind (ends_readBytes (by omega)) fun addr1 haddr1 => ?_
  generalize (if protectedBit control = true then 8 else 0) = crypto
  generalize (if control.testBit 7 = true then 26 else 24) = header
  refine ends_guard trivial fun _ => ?_
  refine ends_guard trivial fun _ => ?_
  refine ends_guard trivial fun hshort => ?_
  refine ends_bind (ends_readBytes (by omega)) fun llc hllc => ?_
  refine ends_guard trivial fun _ => ?_
  refine ends_guard trivial fun hlong => ?_
  refine ends_bind (ends_readBytes (by omega)) fun addr3 haddr3 => ?_
  refine ends_bind (ends_readBytes (by omega)) fun payload hpayload => ?_
  refine ends_bind (fits_assemble_iff.mpr ⟨by omega, ?_⟩) fun _ _ => ends_pure trivial
  simp only [List.forall_mem_cons, List.length_drop]
  exact ⟨by omega, by omega, by omega, by omega, nofun⟩

theorem ends_deferred (ethernet : List UInt8) (v : Vector UInt8 384) (h : ethernet.length ≤ 384) :
    (storeField v 0 ethernet).Ends fun _ => True :=
  ends_storeField v (by omega)

/-- A change of neither the flag of the poll nor the length of the frame that is put aside. -/
def Undisturbed (s s' : Wifi) : Prop :=
  s'.runtimePollProcessing = s.runtimePollProcessing ∧
    s'.pendingEapolLength = s.pendingEapolLength

section

variable {J : (α : Type) → Driver α → Prop} (hJ : Rules Undisturbed J)
include hJ

theorem holds_note (e : Event) : J _ (note e) := hJ.modify fun _ => ⟨rfl, rfl⟩

theorem holds_sendWifiFrame (frame : List UInt8) (station : ℕ) :
    J _ (sendWifiFrame frame station) := by
  have hset {f : Wifi → Wifi} (b : Bool) (hf : ∀ s, Undisturbed s (f s)) :
      J _ (do modify f; pure b) := hJ.bind_pure (hJ.modify hf)
  refine hJ.get_bind fun s => ?_
  refine hJ.bind (holds_note hJ _) fun _ => ?_
  refine hJ.ite (fun _ => hset false fun _ => ⟨rfl, rfl⟩) fun _ => ?_
  exact hJ.ite (fun _ => hset false fun _ => ⟨rfl, rfl⟩) fun _ => hset true fun _ => ⟨rfl, rfl⟩

theorem holds_sendEthernet {ethernet : List UInt8} (h : ethernet.length ≤ 1510) :
    J _ (sendEthernet ethernet) := by
  refine hJ.get_bind fun s => hJ.guard fun hok => ?_
  have hmin : 14 ≤ ethernet.length := by
    by_contra hshort
    exact hok (.inr (.inr (.inl (by omega))))
  have hnumber : J _ (nextPacketNumber (s.link.securityReady && s.network.rsn)) :=
    hJ.ite (fun _ => hJ.modify fun _ => ⟨rfl, rfl⟩) fun _ => hJ.pure ()
  refine hJ.bind hnumber fun _ => hJ.get_bind fun t => ?_
  have hfits := (ethernetFrame_fits_iff s.network s.macAddress
    (s.link.securityReady && s.network.rsn) t.wpa.txPacketNumber hmin (by omega)).mpr fun _ => h
  refine hJ.lift_bind hfits fun frame _ => ?_
  refine hJ.bind (holds_sendWifiFrame hJ frame 0) fun accepted => ?_
  refine hJ.ite (fun _ => ?_) fun _ => hJ.pure false
  exact hJ.modify_bind (fun _ => ⟨rfl, rfl⟩) (hJ.pure true)

theorem holds_handleBeacon {buf : Image} {frame frameLength : ℕ} (phy : RxPhy)
    (h : frame + frameLength ≤ buf.size) (hlength : 36 ≤ frameLength) :
    J _ (handleBeacon buf frame frameLength phy) := by
  refine hJ.modify_bind (fun _ => ⟨rfl, rfl⟩) ?_
  refine hJ.lift_bind (ends_readArray (by omega)) fun bssid _ => ?_
  refine hJ.get_bind fun s => ?_
  cases s.scan.entryFor bssid with
  | none => exact hJ.pure ()
  | some entry =>
    refine hJ.lift_bind (ends_readLe (by omega)) fun _ _ => ?_
    refine hJ.lift_bind (ends_readLe (by omega)) fun _ _ => ?_
    have helements := fun r => ends_informationElements h frameLength r hlength (by omega)
    refine hJ.lift_bind (helements _) fun r _ => ?_
    exact hJ.modify_bind (fun _ => ⟨rfl, rfl⟩) (holds_note hJ _)

section

variable {env : Env} (hreplies : ∀ n, ∀ reply ∈ env.replies n, reply.length ≤ 1510)
include hreplies

theorem holds_netHandlePacket (control status : ℕ) (ethernet : List UInt8) :
    J _ (netHandlePacket env control status ethernet) := by
  refine hJ.get_bind fun s => ?_
  refine hJ.bind (holds_note hJ _) fun _ => ?_
  refine hJ.modify_bind (fun _ => ⟨rfl, rfl⟩) (hJ.forM fun reply hreply => ?_)
  exact hJ.bind_pure (holds_sendEthernet hJ (hreplies _ reply hreply))

variable {eapol : List UInt8 → Driver Bool} (heapol : ∀ ethernet, J _ (eapol ethernet))
include heapol

theorem holds_handleDataFrame (control status : ℕ) (h : frame + frameLength ≤ buf.size)
    (hlength : 24 ≤ frameLength) :
    J _ (handleDataFrame env eapol buf frame frameLength control status) := by
  refine hJ.get_bind fun s => ?_
  refine hJ.lift_bind (ends_dataFrameContents control status _ _ h hlength) fun contents _ => ?_
  have hdeliver := holds_netHandlePacket hJ hreplies control status
  cases contents with
  | none => exact hJ.pure ()
  | some ethernet =>
    refine hJ.modify_bind (fun _ => ⟨rfl, rfl⟩) (hJ.ite (fun _ => ?_) fun _ => hdeliver ethernet)
    refine hJ.bind (heapol ethernet) fun taken => ?_
    exact hJ.guard fun _ => hdeliver ethernet

theorem holds_handleFrame (status : ℕ) (phy : RxPhy) (h : frame + frameLength ≤ buf.size)
    (hlength : 24 ≤ frameLength) :
    J _ (handleFrame env eapol buf frame frameLength status phy) := by
  refine hJ.lift_bind (ends_readLe (by omega)) fun control _ => ?_
  refine hJ.bind (holds_note hJ _) fun _ => ?_
  refine hJ.lift_bind (ends_readBytes (by omega)) fun addr1 _ => ?_
  refine hJ.get_bind fun s => hJ.ite (fun hdisconnect => ?_) fun _ => ?_
  · refine hJ.lift_bind (ends_readLe (by omega)) fun reason _ => ?_
    exact hJ.modify_bind (fun _ => ⟨rfl, rfl⟩) (hJ.modify fun _ => ⟨rfl, rfl⟩)
  refine hJ.ite (fun _ => ?_) fun _ => hJ.ite (fun hauthentication => ?_) fun _ => ?_
  · exact holds_handleDataFrame hJ hreplies heapol control status h hlength
  · refine hJ.lift_bind (ends_readLe (by omega)) fun transaction _ => ?_
    refine hJ.ite (fun _ => ?_) fun _ => hJ.pure ()
    refine hJ.lift_bind (ends_readLe (by omega)) fun code _ => ?_
    exact hJ.modify fun _ => ⟨rfl, rfl⟩
  refine hJ.ite (fun hassociation => ?_) fun _ => hJ.guard fun hbeacon => ?_
  · refine hJ.lift_bind (ends_readLe (by omega)) fun code _ => ?_
    refine hJ.lift_bind (ends_readLe (by omega)) fun id _ => ?_
    exact hJ.modify fun _ => ⟨rfl, rfl⟩
  · exact holds_handleBeacon hJ phy h (by omega)

theorem holds_handleScanMpdu {data dataLength : ℕ} (h : data + dataLength ≤ buf.size) :
    J _ (handleScanMpdu env eapol buf data dataLength) := by
  refine hJ.get_bind fun s => ?_
  cases s.lastRxPhy with
  | none => exact hJ.pure ()
  | some phy =>
    refine hJ.guard fun hshort => ?_
    refine hJ.lift_bind (ends_readLe (by omega)) fun frameLength _ => hJ.guard fun hlength => ?_
    refine hJ.lift_bind (ends_readLe (by omega)) fun status _ => hJ.guard fun _ => ?_
    exact holds_handleFrame hJ hreplies heapol status phy (by omega) (by omega)

theorem holds_handleRuntimeNotification {packet : ℕ} (hmin : 4 ≤ frameLength)
    (h : packet + (frameLength + 4) ≤ buf.size) :
    J _ (handleRuntimeNotification env eapol buf packet frameLength) := by
  have hset {f : Wifi → Wifi} (hf : ∀ s, Undisturbed s (f s)) : J _ (do modify f; pure true) :=
    hJ.bind_pure (hJ.modify hf)
  refine hJ.lift_bind (ends_readBytes h) fun bytes _ => ?_
  refine hJ.bind (holds_note hJ _) fun _ => ?_
  refine hJ.lift_bind (ends_readLe (by omega)) fun cmd _ => ?_
  refine hJ.lift_bind (ends_readLe (by omega)) fun group _ => ?_
  refine hJ.lift_bind (ends_readLe (by omega)) fun sequence _ => ?_
  refine hJ.ite (fun _ => hset fun _ => ⟨rfl, rfl⟩) fun _ => hJ.ite (fun _ => ?_) fun _ => ?_
  · refine hJ.guard fun hphy => ?_
    have hsize : rxPhySize = 68 := rfl
    refine hJ.lift_bind (ends_readLe (by omega)) fun channel _ => ?_
    refine hJ.lift_bind (ends_readLe (by omega)) fun energy _ => ?_
    exact hset fun _ => ⟨rfl, rfl⟩
  refine hJ.ite (fun _ => ?_) fun _ => hJ.ite (fun _ => ?_) fun _ => hJ.pure true
  · exact hJ.bind_pure (holds_handleScanMpdu hJ hreplies heapol (by omega))
  · refine hJ.guard fun hscan => ?_
    refine hJ.lift_bind (ends_readLe (by omega)) fun uid _ => hJ.guard fun _ => ?_
    refine hJ.lift_bind (ends_readLe (by omega)) fun code _ => ?_
    exact hset fun _ => ⟨rfl, rfl⟩

omit hJ hreplies heapol in
theorem ends_packetAt {offset : ℕ} (buf : Image) (hsize : buf.size = rxBufferSize)
    (hle : offset + rxPacketSize ≤ rxBufferSize) :
    (packetAt buf offset).Ends fun p => ∀ frameLength, p = .packet frameLength →
      4 ≤ frameLength ∧ offset + (frameLength + 4) ≤ rxBufferSize := by
  have hheader : rxPacketSize = 8 := rfl
  have hword : offset + 4 ≤ buf.size := by omega
  refine ends_bind (ends_readLe hword) fun frameWord _ => ?_
  refine ends_guard (by simp) fun _ => ends_guard (by simp) fun hlength => ?_
  refine ends_pure fun frameLength heq => ?_
  obtain rfl := PacketAt.packet.inj heq
  omega

theorem holds_pollPackets (id fuel : ℕ) {offset : ℕ} (hoffset : offset ≤ rxBufferSize)
    (hmore : rxBufferSize < offset + 64 * fuel) :
    J _ (pollPackets env eapol id fuel offset) := by
  induction fuel generalizing offset with
  | zero => omega
  | succ fuel ih =>
    refine hJ.ite (fun hle => hJ.get_bind fun s => ?_) fun _ => hJ.pure ()
    refine hJ.lift_bind (ends_packetAt (s.rx.image id) rfl hle) fun packet hlength => ?_
    cases packet with
    | invalid => exact hJ.pure ()
    | malformed => exact hJ.modify fun _ => ⟨rfl, rfl⟩
    | packet frameLength =>
      obtain ⟨hmin, hfits⟩ := hlength frameLength rfl
      refine hJ.bind (holds_handleRuntimeNotification hJ hreplies heapol hmin hfits)
        fun accepted => hJ.ite (fun _ => ?_) fun _ => hJ.modify fun _ => ⟨rfl, rfl⟩
      refine hJ.modify_bind (fun _ => ⟨rfl, rfl⟩) ?_
      refine hJ.ite (fun _ => hJ.modify fun _ => ⟨rfl, rfl⟩) fun hconsumed => ?_
      have halign : 64 ≤ consumedLength frameLength := by
        change 64 ≤ (frameLength + 4 + (64 - 1)) / 64 * 64
        omega
      exact ih (by omega) (by omega)

end

theorem holds_setWpaError (error : ℕ) : J _ (setWpaError error) := hJ.modify fun _ => ⟨rfl, rfl⟩

theorem holds_handleMessage1 (body : List UInt8) : J _ (handleMessage1 body) := by
  refine hJ.get_bind fun s => ?_
  refine hJ.modify_bind (fun _ => ⟨rfl, rfl⟩) ?_
  refine hJ.lift_bind (ends_wpa2Message2 _ _ _ _ _ _) fun message2 hlength => ?_
  have hrsn := s.network.rsnIeLength_le
  refine hJ.bind (holds_sendEthernet hJ (by omega)) fun accepted => ?_
  exact hJ.ite (fun _ => hJ.modify fun _ => ⟨rfl, rfl⟩) fun _ => holds_setWpaError hJ 3

section

variable {send : Sender} (hsend : ∀ c capacity, J _ (send c capacity)) (body : List UInt8)
include hsend

theorem holds_finishHandshake : J _ (finishHandshake send body) := by
  have hfail (error : ℕ) (p : Progress) : J _ (do setWpaError error; pure p) :=
    hJ.bind_pure (holds_setWpaError hJ error)
  have henable : J _ (enableWpa2GroupReceive send) :=
    hJ.get_bind fun s => hJ.bind_pure (hsend _ _)
  refine hJ.get_bind fun s => ?_
  refine hJ.bind (hJ.ite (fun _ => henable) fun _ => hJ.pure false) fun enabled => ?_
  refine hJ.ite (fun _ => hJ.get_bind fun t => ?_) fun _ => hfail 11 .keyed
  refine hJ.lift_bind (ends_wpa2Message4 _ _ _ _) fun message4 hlength => ?_
  refine hJ.bind (holds_sendEthernet hJ (by omega)) fun accepted => ?_
  refine hJ.ite (fun _ => ?_) fun _ => hfail 8 .keyed
  refine hJ.modify_bind (fun _ => ⟨rfl, rfl⟩) ?_
  exact hJ.modify_bind (fun _ => ⟨rfl, rfl⟩) (hJ.pure Progress.complete)

theorem holds_unwrapAndInstallGtk : J _ (unwrapAndInstallGtk send body) := by
  refine hJ.guard fun _ => hJ.get_bind fun s => ?_
  split
  · split
    · exact hJ.pure false
    · refine hJ.bind (hsend _ _) fun response => hJ.ite (fun _ => ?_) fun _ => hJ.pure false
      exact hJ.modify_bind (fun _ => ⟨rfl, rfl⟩) (hJ.pure true)
  · exact hJ.pure false

theorem holds_installPairwiseCcmpKey : J _ (installPairwiseCcmpKey send) := by
  refine hJ.get_bind fun s => ?_
  refine hJ.bind (hsend _ _) fun response => ?_
  refine hJ.modify_bind (fun _ => ⟨rfl, rfl⟩) (hJ.ite (fun _ => ?_) fun _ => hJ.pure false)
  exact hJ.bind_pure (holds_note hJ _)

theorem holds_handleMessage3 : J _ (handleMessage3 send body) := by
  have hfail (error : ℕ) (p : Progress) : J _ (do setWpaError error; pure p) :=
    hJ.bind_pure (holds_setWpaError hJ error)
  refine hJ.get_bind fun s => hJ.ite (fun _ => hfail 13 .unkeyed) fun _ => ?_
  refine hJ.ite (fun _ => hfail 5 .unkeyed) fun _ => hJ.ite (fun _ => hfail 6 .unkeyed) fun _ => ?_
  refine hJ.bind (holds_note hJ _) fun _ => ?_
  refine hJ.modify_bind (fun _ => ⟨rfl, rfl⟩) ?_
  refine hJ.bind (holds_installPairwiseCcmpKey hJ hsend) fun installed => ?_
  refine hJ.ite (fun _ => ?_) fun _ => hfail 7 .unkeyed
  refine hJ.bind (hJ.ite (fun _ => holds_unwrapAndInstallGtk hJ hsend body) fun _ => hJ.pure true)
    fun grouped => ?_
  exact hJ.ite (fun _ => holds_finishHandshake hJ hsend body) fun _ => hfail 9 .keyed

/-- The length in a key frame is checked against the frame before the body is taken from it. -/
theorem holds_handleKeyFrame (ethernet : List UInt8) (hlength : 113 ≤ ethernet.length) :
    J _ (handleKeyFrame send ethernet) := by
  refine hJ.guard fun hheader => ?_
  have hbody : 14 + (4 + readBe16 ethernet 16) ≤ (ofList ethernet).size := by
    change _ ≤ ethernet.length
    omega
  refine hJ.lift_bind (ends_readBytes hbody) fun body _ => hJ.get_bind fun s => ?_
  refine hJ.ite (fun _ => hJ.bind_pure (holds_setWpaError hJ 12)) fun _ => hJ.guard fun _ => ?_
  refine hJ.ite (fun _ => hJ.bind_pure (holds_handleMessage1 hJ body)) fun _ => ?_
  exact hJ.ite (fun _ => holds_handleMessage3 hJ hsend body) fun _ => hJ.pure Progress.unkeyed

theorem holds_handleWpa2Eapol (ethernet : List UInt8) (hdefer : J _ (deferFrame ethernet)) :
    J _ (handleWpa2Eapol send ethernet) := by
  refine hJ.get_bind fun s => hJ.guard fun hactive => ?_
  refine hJ.bind (holds_note hJ _) fun _ => hJ.ite (fun _ => hJ.bind_pure hdefer) fun _ => ?_
  refine hJ.bind (holds_note hJ _) fun _ => ?_
  refine hJ.bind (holds_handleKeyFrame hJ hsend ethernet (by omega)) fun progress => ?_
  exact hJ.bind_pure (holds_note hJ _)

end

end

/-- During a poll, with a frame put aside that fits into its array. -/
def InWalk (s : Wifi) : Prop := s.runtimePollProcessing = true ∧ s.pendingEapolLength ≤ 384

theorem inWalk_rules : Rules Undisturbed fun _ x => Total InWalk x fun _ s => InWalk s :=
  Rules.total fun _ _ h hs => ⟨h.1.trans hs.1, h.2.le.trans hs.2⟩

theorem total_deferFrame (ethernet : List UInt8) :
    Total InWalk (deferFrame ethernet) fun _ s => InWalk s := by
  refine Total.get_then fun s _ => Total.ite (fun hle => ?_) fun _ =>
    holds_setWpaError inWalk_rules _
  refine Total.lift_then (ends_deferred ethernet _ hle) fun frame _ => ?_
  exact Total.modify fun t ht => ⟨ht.1, hle⟩

/-- During a poll a frame for the handshake code is put aside. -/
theorem total_eapol {env : Env} (hfuel : 0 < env.fuel) (ethernet : List UInt8) :
    Total InWalk (eapol env ethernet) fun _ s => InWalk s := by
  obtain ⟨n, hn⟩ := Nat.exists_eq_succ_of_ne_zero hfuel.ne'
  rw [eapol, hn]
  refine Total.get_bind fun s hs => Total.ite (fun _ => Total.pure fun t ht => ht ▸ hs) fun _ => ?_
  refine Total.bind (Q := fun _ t => InWalk t) (Total.modify ?_) fun _ => ?_
  · rintro t rfl
    exact hs
  · refine Total.ite (fun _ => ?_) fun hclear => absurd (.inr hs.1) hclear
    exact Total.bind (total_deferFrame ethernet) fun _ => Total.done

section

variable {env : Env} (hreplies : ∀ n, ∀ reply ∈ env.replies n, reply.length ≤ 1510)

/-- No part of a computation leaves a buffer or an array. -/
def Safe (α : Type) (x : Driver α) : Prop := ∀ s, x s ≠ .fault

theorem safe_rules : Rules Undisturbed Safe := Rules.safe

theorem safe_modify (f : Wifi → Wifi) : Safe _ (modify f) := fun s h => by cases h

theorem safe_endless {α : Type} : Safe α endless := fun s h => by cases h

theorem safe_deferFrame (ethernet : List UInt8) : Safe _ (deferFrame ethernet) := by
  refine safe_rules.get_bind fun s => safe_rules.ite (fun hle => ?_) fun _ => safe_modify _
  exact safe_rules.lift_bind (ends_deferred ethernet _ hle) fun frame _ => safe_modify _

theorem safe_handleInitNotification {packet : ℕ} (h : packet + (frameLength + 4) ≤ buf.size)
    (hmin : 4 ≤ frameLength) : Safe _ (handleInitNotification buf packet frameLength) := by
  refine safe_rules.lift_bind (ends_readLe (by omega)) fun cmd _ => ?_
  refine safe_rules.lift_bind (ends_readLe (by omega)) fun group _ => safe_rules.guard fun _ => ?_
  refine safe_rules.ite (fun _ => safe_rules.bind_pure (safe_modify _)) fun _ => ?_
  refine safe_rules.guard fun _ => safe_rules.guard fun hlong => ?_
  refine safe_rules.lift_bind (ends_readLe (by omega)) fun dataLength _ => ?_
  refine safe_rules.get_bind fun s => safe_rules.guard fun _ => ?_
  exact safe_rules.bind_pure (safe_modify _)

theorem ends_responseAt {packet opcode sequence : ℕ} (capacity : Option ℕ)
    (h : packet + (frameLength + 4) ≤ buf.size) (hmin : 4 ≤ frameLength) :
    (responseAt buf packet frameLength opcode sequence capacity).Ends fun _ => True := by
  refine ends_bind (ends_readLe (by omega)) fun cmd _ => ?_
  refine ends_bind (ends_readLe (by omega)) fun group _ => ?_
  refine ends_bind (ends_readLe (by omega)) fun seq _ => ends_ite (fun _ => ?_) fun _ => ?_
  · cases capacity with
    | none => exact ends_pure trivial
    | some room =>
      refine ends_guard trivial fun _ => ?_
      exact ends_bind (ends_readBytes (by omega)) fun payload _ => ends_pure trivial
  · exact ends_pure trivial

include hreplies

variable {eapol : List UInt8 → Driver Bool} (heapol : ∀ ethernet, Safe _ (eapol ethernet))
include heapol

theorem safe_inspectPackets (id opcode sequence : ℕ) (capacity : Option ℕ) (fuel offset : ℕ) :
    Safe _ (inspectPackets env eapol id opcode sequence capacity fuel offset) := by
  induction fuel generalizing offset with
  | zero => exact safe_endless
  | succ fuel ih =>
    refine safe_rules.ite (fun hle => safe_rules.get_bind fun s => ?_) fun _ => safe_rules.pure _
    refine safe_rules.lift_bind (ends_packetAt (s.rx.image id) rfl hle) fun packet hlength => ?_
    cases packet with
    | invalid => exact safe_rules.pure _
    | malformed => exact safe_rules.pure _
    | packet frameLength =>
      obtain ⟨hmin, hfits⟩ := hlength frameLength rfl
      refine safe_rules.bind (safe_modify _) fun _ => ?_
      refine safe_rules.bind (safe_handleInitNotification hfits hmin) fun accepted => ?_
      refine safe_rules.ite (fun _ => safe_rules.bind_pure (safe_modify _)) fun _ => ?_
      have hnotification : Safe _ (handleRuntimeNotification env eapol (s.rx.image id) offset
          frameLength) := holds_handleRuntimeNotification safe_rules hreplies heapol hmin hfits
      refine safe_rules.bind (safe_rules.ite (fun _ => hnotification) fun _ => safe_rules.pure _)
        fun accepted => ?_
      refine safe_rules.ite (fun _ => safe_rules.bind_pure (safe_modify _)) fun _ => ?_
      refine safe_rules.get_bind fun t => ?_
      refine safe_rules.lift_bind (ends_responseAt capacity hfits hmin) fun result _ => ?_
      cases result with
      | some result => exact safe_rules.pure _
      | none => exact safe_rules.guard fun _ => ih _

omit hreplies heapol in
theorem safe_recycleRxBuffer (index : ℕ) : Safe _ (recycleRxBuffer index) := by
  refine safe_rules.get_bind fun s => safe_rules.ite (fun _ => ?_) fun _ => safe_rules.pure _
  refine safe_rules.bind (safe_modify _) fun _ => ?_
  exact safe_rules.bind_pure (safe_modify _)

theorem safe_drainCompletions (opcode sequence : ℕ) (capacity : Option ℕ) (closed fuel : ℕ) :
    Safe _ (drainCompletions env eapol opcode sequence capacity closed fuel) := by
  induction fuel with
  | zero => exact safe_endless
  | succ fuel ih =>
    have hend (error : ℕ) : Safe _ (endWait error) := safe_rules.bind_pure (safe_modify _)
    refine safe_rules.get_bind fun s => safe_rules.guard fun _ => ?_
    have hinspect : Safe _ (inspectCommandResponse env eapol s.rx.readIndex opcode sequence
        capacity) :=
      safe_rules.get_bind fun t => safe_rules.ite
        (fun _ => safe_inspectPackets hreplies heapol _ _ _ _ _ _) fun _ => safe_rules.pure _
    refine safe_rules.bind hinspect fun result => safe_rules.get_bind fun t => ?_
    refine safe_rules.bind (safe_recycleRxBuffer _) fun recycled => ?_
    refine safe_rules.ite (fun _ => safe_rules.bind_pure (hend 4)) fun _ => ?_
    refine safe_rules.bind (safe_modify _) fun _ => ?_
    cases result with
    | noResponse => exact ih
    | failed => exact safe_rules.bind_pure (hend 2)
    | response payload => exact safe_rules.bind_pure (safe_modify _)

omit hreplies heapol in
theorem safe_readStatus : Safe _ (readStatus env) :=
  safe_rules.bind (safe_modify _) fun _ => safe_rules.get_bind fun _ => safe_rules.pure _

theorem safe_sendCommandSync (c : FwCommand) (capacity : Option ℕ) :
    Safe _ (sendCommandSync env eapol c capacity) := by
  have hawait (opcode sequence rounds : ℕ) :
      Safe _ (awaitResponse env eapol opcode sequence capacity rounds) := by
    induction rounds with
    | zero => exact safe_rules.bind_pure (safe_modify _)
    | succ rounds ih =>
      refine safe_rules.bind safe_readStatus fun closed => ?_
      refine safe_rules.bind (safe_drainCompletions hreplies heapol _ _ _ _ _) fun result => ?_
      cases result with
      | some r => exact safe_rules.pure r
      | none => exact ih
  refine safe_rules.get_bind fun s => safe_rules.guard fun _ => ?_
  refine safe_rules.bind (safe_modify _) fun _ => ?_
  exact safe_rules.bind (safe_modify _) fun _ => hawait _ _ _

omit heapol

theorem safe_eapolAt (n : ℕ) (ethernet : List UInt8) : Safe _ (eapolAt env n ethernet) := by
  induction n generalizing ethernet with
  | zero => exact safe_endless
  | succ n ih =>
    have hsend := safe_sendCommandSync hreplies ih
    exact holds_handleWpa2Eapol safe_rules hsend ethernet (safe_deferFrame ethernet)

theorem safe_pollCompletions (closed fuel : ℕ) : Safe _ (pollCompletions env closed fuel) := by
  induction fuel with
  | zero => exact safe_endless
  | succ fuel ih =>
    refine safe_rules.get_bind fun s => safe_rules.guard fun _ => ?_
    refine safe_rules.ite (fun _ => ?_) fun _ => ?_
    · have hwalk := holds_pollPackets safe_rules hreplies (safe_eapolAt hreplies env.fuel)
        (s.rx.virtualId s.rx.readIndex) rxBufferSize (Nat.zero_le _) (by decide)
      refine safe_rules.bind hwalk fun _ => safe_rules.get_bind fun t => ?_
      refine safe_rules.bind (safe_recycleRxBuffer _) fun recycled => ?_
      refine safe_rules.ite (fun _ => ?_) fun _ => safe_rules.bind_pure (safe_modify _)
      exact safe_rules.bind (safe_modify _) fun _ => ih
    · refine safe_rules.bind (safe_modify _) fun _ => ?_
      exact safe_rules.bind (safe_modify _) fun _ => ih

theorem safe_poll : Safe _ (poll env) := by
  refine safe_rules.get_bind fun s => safe_rules.guard fun _ => ?_
  refine safe_rules.bind safe_readStatus fun closed => ?_
  refine safe_rules.bind (safe_modify _) fun _ => ?_
  refine safe_rules.bind (safe_pollCompletions hreplies closed _) fun finished => ?_
  refine safe_rules.bind (safe_modify _) fun _ => ?_
  refine safe_rules.ite (fun _ => ?_) fun _ => safe_rules.pure ()
  refine safe_rules.get_bind fun t => safe_rules.ite (fun _ => ?_) fun _ => safe_rules.pure ()
  refine safe_rules.bind (safe_modify _) fun _ => ?_
  exact safe_rules.bind (safe_eapolAt hreplies _ _) fun _ => safe_modify _

end

/-- A command ends, whatever the state. -/
def Answered (send : Sender) : Prop := ∀ c capacity s, ∃ r, send c capacity s = .ok r

theorem ends_handleWpa2Eapol {send : Sender} (hsend : Answered send) (ethernet : List UInt8)
    (s : Wifi) : ∃ r, handleWpa2Eapol send ethernet s = .ok r := by
  have hrules : Rules Undisturbed fun _ x => Total (fun _ : Wifi => True) x fun _ _ => True :=
    Rules.total fun _ _ _ => id
  have hdefer : Total (fun _ : Wifi => True) (deferFrame ethernet) fun _ _ => True := by
    refine hrules.get_bind fun s => hrules.ite (fun hle => ?_) fun _ => Total.modify fun _ => id
    exact hrules.lift_bind (ends_deferred ethernet _ hle) fun _ _ => Total.modify fun _ => id
  have hcommand (c : FwCommand) (capacity : Option ℕ) :
      Total (fun _ : Wifi => True) (send c capacity) fun _ _ => True := by
    intro t _
    obtain ⟨r, hr⟩ := hsend c capacity t
    exact ⟨r.1, r.2, hr, trivial⟩
  obtain ⟨b, s', hrun, -⟩ := holds_handleWpa2Eapol hrules hcommand ethernet hdefer s trivial
  exact ⟨(b, s'), hrun⟩

/-- Whatever a receive buffer holds, the walk of a poll over it ends, and a frame that it puts aside
fits into its array. What comes after it, the handshake code with that frame, ends whatever the
frame, if the commands end that it sends. No part of a poll leaves the buffer or an array of the
driver; and an RSN body is taken for one of WPA2-PSK with CCMP exactly if it is the encoding of
one. -/
theorem poll_walk_safe (env : Env) (hfuel : 0 < env.fuel)
    (hreplies : ∀ n, ∀ reply ∈ env.replies n, reply.length ≤ 1510) :
    (∀ (s : Wifi) (id : ℕ), InWalk s →
      ∃ s', pollPackets env (eapol env) id rxBufferSize 0 s = .ok ((), s') ∧ InWalk s') ∧
    (∀ (send : Sender), Answered send → ∀ (ethernet : List UInt8) (s : Wifi),
      ∃ r, handleWpa2Eapol send ethernet s = .ok r) ∧
    (∀ s : Wifi, poll env s ≠ .fault) ∧
    ∀ (buf : Image) (rsn length : ℕ), rsn + length ≤ buf.size →
      ∃ accepted, rsnIsWpa2PskCcmp buf rsn length = .ok accepted ∧
        (accepted = true ↔
          ∃ r : RsnBody, r.encode = buf.bytes rsn length ∧ r.Wpa2PskCcmp) := by
  refine ⟨fun s id hs => ?_, fun send hsend => ends_handleWpa2Eapol hsend, safe_poll hreplies,
    fun buf rsn length h => ?_⟩
  · have hwalk := holds_pollPackets inWalk_rules hreplies (total_eapol hfuel) id rxBufferSize
      (Nat.zero_le _) (show rxBufferSize < 0 + 64 * rxBufferSize by decide)
    obtain ⟨_, s', hrun, hs'⟩ := hwalk s hs
    exact ⟨s', hrun, hs'⟩
  · obtain ⟨accepted, hrun, haccepted⟩ := rsnIsWpa2PskCcmp_ok h
    exact ⟨accepted, hrun, haccepted.trans (accepted_iff h)⟩

/-- A poll during a handshake, with a beacon and the first message of the handshake in the
buffer. -/
def pollStart : Wifi :=
  { booted with
    runtimePollProcessing := true
    wpa := { handshakeActive := true }
    rx := RxRing.complete {} (completion 1 [phyReport 1,
      frameReport 3 (beacon apAddress networkName rsnElement),
      frameReport 3 (eapolFrame stationAddress.toList apAddress
        (message1 (List.replicate 8 0) (List.replicate 32 1)))]) }

theorem poll_walk_safe_beacon :
    (∃ s', pollPackets silent (eapol silent) 1 rxBufferSize 0 pollStart = .ok ((), s') ∧
      InWalk s') ∧
    (after (pollPackets silent (eapol silent) 1 rxBufferSize 0) pollStart).scan.count = 1 ∧
    (after (pollPackets silent (eapol silent) 1 rxBufferSize 0) pollStart).pendingEapolLength =
      113 := by
  have hreplies : ∀ n, ∀ reply ∈ silent.replies n, reply.length ≤ 1510 := by
    intro n reply hreply
    simp [silent] at hreply
  refine ⟨(poll_walk_safe silent (by decide) hreplies).1 pollStart 1 ⟨rfl, by decide⟩, ?_, ?_⟩
  · decide +kernel
  · decide +kernel

end MicroK.Iwl
