import MicroK.IwlState

/-!
# Frames in their buffers

The frames that the driver builds are put together in arrays of fixed sizes. All of them fit except
for the longest data frames once they are encrypted.
-/

namespace MicroK.Iwl

open Outcome Image

variable {parts : List (ℕ × List UInt8)}

theorem storeAll_in_bounds {f g : Image}
    (h : f.storeAll parts = .ok g) : ∀ p ∈ parts, p.1 + p.2.length ≤ f.size := by
  induction parts generalizing f with
  | nil => exact nofun
  | cons p parts ih =>
    obtain ⟨f', hstore, hrest⟩ := bind_eq_ok.mp h
    have hp : p.1 + p.2.length ≤ f.size := by
      by_contra hout
      rw [Image.store, if_neg hout] at hstore
      cases hstore
    obtain rfl : f.put p.1 p.2 = f' := by
      rw [Image.store, if_pos hp] at hstore
      exact Outcome.ok.inj hstore
    have hrest' : ∀ q ∈ parts, q.1 + q.2.length ≤ (f.put p.1 p.2).size := ih hrest
    exact List.forall_mem_cons.mpr ⟨hp, hrest'⟩

def Fits (x : Outcome (List UInt8)) : Prop := x.Ends fun _ => True

theorem fits_of_ends {x : Outcome (List UInt8)} {P : List UInt8 → Prop} (h : x.Ends P) :
    Fits x := by
  obtain ⟨l, hl, -⟩ := h
  exact ⟨l, hl, trivial⟩

theorem fits_assemble_iff {size length : ℕ} : Fits (assemble size length parts) ↔
      length ≤ size ∧ ∀ p ∈ parts, p.1 + p.2.length ≤ size := by
  constructor
  · rintro ⟨l, hl, -⟩
    obtain ⟨f, hf, hread⟩ := bind_eq_ok.mp hl
    have hparts := storeAll_in_bounds hf
    obtain ⟨g, hg, hsize⟩ := ends_storeAll hparts
    obtain rfl : g = f := Outcome.ok.inj (hg.symm.trans hf)
    refine ⟨?_, hparts⟩
    by_contra hout
    have hsize' : g.size = size := hsize
    rw [Image.readBytes, if_neg (by omega)] at hread
    cases hread
  · rintro ⟨hlength, hparts⟩
    refine ends_bind (ends_storeAll hparts) fun g hg => ?_
    have hread : 0 + length ≤ g.size := by
      rw [hg, Nat.zero_add]
      exact hlength
    exact ⟨_, readBytes_eq hread, trivial⟩

theorem managementHeader_in_bounds {size : ℕ} (hsize : 24 ≤ size) (control : ℕ)
    (bssid mac : Vector UInt8 6) :
    ∀ p ∈ managementHeader control bssid mac, p.1 + p.2.length ≤ size := by
  simp only [managementHeader, List.forall_mem_cons, List.length_replicate, length_leBytes,
    Vector.length_toList]
  refine ⟨by omega, by omega, by omega, by omega, by omega, nofun⟩

variable (network : ScanResult) (mac : Vector UInt8 6)

theorem authenticationFrame_fits : Fits (authenticationFrame network mac) := by
  refine fits_assemble_iff.mpr ⟨by omega, List.forall_mem_append.mpr
    ⟨managementHeader_in_bounds (by omega) _ _ _, ?_⟩⟩
  simp

theorem length_supportedRates_le (channel : UInt8) : (supportedRates channel).length ≤ 9 := by
  unfold supportedRates
  split_ifs <;> simp

theorem associationRequest_fits : Fits (associationRequest network mac) := by
  have hssid := network.ssidLength_le
  have hrates := length_supportedRates_le network.channel
  have hparts : ∀ p ∈ managementHeader 0x0000 network.bssid mac ++
      [(24, leBytes 2 network.capability), (26, leBytes 2 10),
        (28, [0, UInt8.ofNat network.ssidLength]),
        (30, network.ssid.toList.take network.ssidLength), (30 + network.ssidLength, [1]),
        (30 + network.ssidLength + 1, supportedRates network.channel)],
      p.1 + p.2.length ≤ 160 := by
    refine List.forall_mem_append.mpr ⟨managementHeader_in_bounds (by omega) _ _ _, ?_⟩
    simp only [List.forall_mem_cons, length_leBytes, List.length_take, List.length_cons,
      List.length_nil]
    refine ⟨by omega, by omega, by omega, by omega, by omega, by omega, nofun⟩
  unfold associationRequest
  dsimp only
  split_ifs with hrsn
  · refine fits_assemble_iff.mpr ⟨hrsn.2, List.forall_mem_append.mpr ⟨hparts, ?_⟩⟩
    simp only [List.forall_mem_cons, List.length_take]
    exact ⟨by omega, nofun⟩
  · exact fits_assemble_iff.mpr ⟨by omega, hparts⟩

theorem ends_keyMessage {size bodyLength : ℕ} {network : ScanResult} {mac : Vector UInt8 6}
    {ptk : List UInt8} {body : List (ℕ × List UInt8)} (hbody : 99 ≤ bodyLength)
    (hsize : 14 + bodyLength ≤ size) (h : ∀ p ∈ body, p.1 + p.2.length ≤ size) :
    (keyMessage size bodyLength network mac ptk body).Ends fun l => l.length = 14 + bodyLength := by
  have hparts : ∀ p ∈ [(0, network.bssid.toList), (6, mac.toList), (12, [0x88, 0x8E])] ++ body,
      p.1 + p.2.length ≤ size := by
    refine List.forall_mem_append.mpr ⟨?_, h⟩
    simp only [List.forall_mem_cons, Vector.length_toList, List.length_cons, List.length_nil]
    exact ⟨by omega, by omega, by omega, nofun⟩
  refine ends_bind (ends_storeAll hparts) fun f hf => ?_
  have hfsize : f.size = size := hf
  refine ends_bind (ends_readBytes (by omega)) fun eapol _ => ?_
  have hmic : ((Wpa2.hmacSha1 (ptk.take 16) eapol).take 16).length ≤ 16 := by simp
  refine ends_bind (ends_store (by omega)) fun g hg => ?_
  exact ends_readBytes (by omega)

theorem ends_wpa2Message2 (ptk : List UInt8)
    (replayCounter : Vector UInt8 8) (snonce : Vector UInt8 32) (message1 : List UInt8) :
    (wpa2Message2 network mac ptk replayCounter snonce message1).Ends
      fun l => l.length = 14 + (99 + network.rsnIeLength) := by
  have hrsn := network.rsnIeLength_le
  apply ends_keyMessage (by omega) (by omega)
  simp only [List.forall_mem_cons, be16, List.length_cons, List.length_nil, List.length_take,
    Vector.length_toList]
  refine ⟨by omega, by omega, by omega, by omega, by omega, by omega, by omega, by omega, by omega,
    by omega, nofun⟩

theorem ends_wpa2Message4 (ptk message3 : List UInt8) :
    (wpa2Message4 network mac ptk message3).Ends fun l => l.length = 14 + 99 := by
  apply ends_keyMessage (by omega) (by omega)
  simp only [List.forall_mem_cons, be16, List.length_cons, List.length_nil, List.length_take]
  refine ⟨by omega, by omega, by omega, by omega, by omega, by omega, by omega, nofun⟩

theorem ethernetFrame_fits_iff (encrypted : Bool)
    (pn : ℕ) {ethernet : List UInt8} (hmin : 14 ≤ ethernet.length) (hmax : ethernet.length ≤ 1514) :
    Fits (ethernetFrame network mac encrypted pn ethernet) ↔
      (encrypted = true → ethernet.length ≤ 1510) := by
  have hheader := fun control =>
    managementHeader_in_bounds (by omega : 24 ≤ 1536) control network.bssid mac
  rw [ethernetFrame, fits_assemble_iff]
  cases encrypted with
  | false =>
    refine iff_of_true ⟨by simp only [Bool.false_eq_true, if_false]; omega, ?_⟩ nofun
    simp only [Bool.false_eq_true, if_false, List.append_nil]
    refine List.forall_mem_append.mpr ⟨List.forall_mem_append.mpr ⟨hheader _, ?_⟩, ?_⟩
    · simp only [List.forall_mem_cons, List.length_take]
      exact ⟨by omega, nofun⟩
    · simp only [List.forall_mem_cons, List.length_drop, List.length_cons, List.length_nil]
      exact ⟨by omega, by omega, nofun⟩
  | true =>
    simp only [if_true, forall_const]
    refine ⟨fun h => by omega, fun h => ⟨by omega, ?_⟩⟩
    refine List.forall_mem_append.mpr ⟨List.forall_mem_append.mpr
      ⟨List.forall_mem_append.mpr ⟨hheader _, ?_⟩, ?_⟩, ?_⟩
    · simp only [List.forall_mem_cons, List.length_take]
      exact ⟨by omega, nofun⟩
    · simp only [List.forall_mem_cons, ccmpHeader, List.length_cons, List.length_nil]
      exact ⟨by omega, nofun⟩
    · simp only [List.forall_mem_cons, List.length_drop, List.length_cons, List.length_nil]
      exact ⟨by omega, by omega, nofun⟩

/-- The frames of an association, of the handshake and of one packet to send stay inside their
buffers exactly when the packet is not an encrypted one of more than 1510 bytes. -/
theorem frames_fit_iff (network : ScanResult) (mac : Vector UInt8 6) (securityReady : Bool)
    (pn : ℕ) (ptk : List UInt8) (replayCounter : Vector UInt8 8) (snonce : Vector UInt8 32)
    (message : List UInt8) (ethernet : List UInt8) (hmin : 14 ≤ ethernet.length)
    (hmax : ethernet.length ≤ 1514) :
    (Fits (authenticationFrame network mac) ∧ Fits (associationRequest network mac) ∧
      Fits (wpa2Message2 network mac ptk replayCounter snonce message) ∧
      Fits (wpa2Message4 network mac ptk message) ∧
      Fits (ethernetFrame network mac (securityReady && network.rsn) pn ethernet)) ↔
    (securityReady = true → network.rsn = true → ethernet.length ≤ 1510) := by
  have hdata := ethernetFrame_fits_iff network mac (securityReady && network.rsn) pn hmin hmax
  rw [Bool.and_eq_true, and_imp] at hdata
  rw [hdata]
  exact ⟨fun h => h.2.2.2.2, fun h => ⟨authenticationFrame_fits network mac,
    associationRequest_fits network mac,
    fits_of_ends (ends_wpa2Message2 network mac ptk replayCounter snonce message),
    fits_of_ends (ends_wpa2Message4 network mac ptk message), h⟩⟩

theorem frames_fit_secured :
    Fits (ethernetFrame { rsn := true } (.replicate 6 0) true 1 (List.replicate 1510 0)) :=
  ((frames_fit_iff { rsn := true } (.replicate 6 0) true 1 [] (.replicate 8 0) (.replicate 32 0) []
    (List.replicate 1510 0) (by rw [List.length_replicate]; omega)
    (by rw [List.length_replicate]; omega)).mpr fun _ _ => List.length_replicate.le).2.2.2.2

/-- The longest packet the driver accepts does not fit once it is encrypted. -/
theorem longest_secured_leaves_buffer :
    14 ≤ (List.replicate 1514 (0 : UInt8)).length ∧
      (List.replicate 1514 (0 : UInt8)).length ≤ 1514 ∧
      ¬ Fits (ethernetFrame { rsn := true } (.replicate 6 0) true 1 (List.replicate 1514 0)) := by
  have hmin : 14 ≤ (List.replicate 1514 (0 : UInt8)).length := by
    rw [List.length_replicate]
    omega
  refine ⟨hmin, List.length_replicate.le, fun h => ?_⟩
  have hlength :=
    (ethernetFrame_fits_iff _ _ true 1 hmin List.length_replicate.le).mp h rfl
  rw [List.length_replicate] at hlength
  omega

end MicroK.Iwl
