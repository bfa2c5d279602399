import QuicVibe.Packet.RoundTrip
import QuicVibe.Packet.PacketNumber
/-!
# 1-RTT packets open to what was sealed

The short header carries the low bytes of the packet number only, and the full number is recovered as
the one nearest to the largest received number plus one.
-/

namespace QuicVibe

open Crypto

namespace Packet

/-! ## Recovering a packet number -/

/-- **The nearest candidate is the packet number sent** while it is within half a window of the
expected one. -/
theorem pnumDecode_of_near {pn largestPn : ℕ} (hpn : pn < 2 ^ 61)
    (hnear : |(largestPn : ℤ) - (pn - 1)| < 2 ^ 31) : pnumDecode (putBe 4 pn) largestPn = pn := by
  obtain ⟨hlo, hhi⟩ := abs_lt.1 hnear
  have hexp : u64 (largestPn + 1) = largestPn + 1 := u64_of_lt (by omega)
  have hwin : 256 ^ 4 = 2 ^ (4 * 8) := rfl
  simp only [pnumDecode, readBe_putBe, length_putBe, hexp, hwin]
  rw [nearest_of_lt (by omega) (by omega) (by omega)]
  split_ifs <;> omega

/-! ## Short-header packets -/

variable (aes : Block → Block → Block)

theorem onerttBuild_eq (keys : InitialKeys) (hp : Block → Block) (dcid : Bytes) (pn : ℕ)
    (payload : Bytes) (cap : ℕ) :
    onerttBuild aes keys hp dcid pn payload cap =
      if 5 + dcid.length + payload.length + gcmTag > cap then none
      else some (protectedPacket aes keys hp hpShortMask onerttByte0 dcid pn payload) := by
  have hlen : (buildShortHeader dcid pn).length = 5 + dcid.length := by
    simp [buildShortHeader]
    omega
  have hdrop : ∀ body : Bytes, (buildShortHeader dcid pn ++ body).drop (1 + dcid.length + 4) = body :=
    fun body => List.drop_left' (by rw [hlen]; omega)
  simp only [onerttBuild, hlen]
  split
  · rfl
  · rw [List.append_assoc, hdrop]
    simp [protectedPacket, sealedBody, buildShortHeader]

/-- A 1-RTT packet as a peer seals it: byte 0 `b`, the connection id, a packet number field of any
length byte 0 can announce, and the payload sealed under the full number `pn`. -/
def peerPacket (keys : InitialKeys) (hp : Block → Block) (b : UInt8) (dcid field : Bytes) (pn : ℕ)
    (payload : Bytes) : Bytes :=
  maskedPacket (hpMask hp) hpShortMask b dcid field
    (sealedBody aes keys (b :: (dcid ++ field)) pn payload)

section

variable (keys : InitialKeys) (hp : Block → Block) {b : UInt8} (dcid : Bytes) {field : Bytes}
  {pn largestPn : ℕ} (payload : Bytes) (hfield : pnLenOf b = field.length)
include hfield

theorem length_peerPacket :
    (peerPacket aes keys hp b dcid field pn payload).length =
      1 + dcid.length + field.length + (payload.length + 16) := by
  rw [peerPacket, length_maskedPacket _ _ _ _ (length_hpMask hp) (hfield ▸ pnLenOf_le b),
    length_sealedBody]

theorem onerttOpen_peerPacket_short (hlen : field.length + payload.length ≤ 4) :
    onerttOpen aes keys hp (peerPacket aes keys hp b dcid field pn payload) dcid.length
      largestPn = none := by
  simp only [onerttOpen, hspktUnprotect, length_peerPacket aes keys hp dcid payload hfield, gcmTag]
  exact if_pos (by omega)

/-- A longer packet opens when the receiver recovers the number it was sealed under. -/
theorem onerttOpen_peerPacket (hpn : pnumDecode field largestPn = pn)
    (hlen : 4 < field.length + payload.length) (hne : payload ≠ []) :
    onerttOpen aes keys hp (peerPacket aes keys hp b dcid field pn payload) dcid.length largestPn =
      some { pkt := b :: (dcid ++ field) ++ payload ++ (Gcm.gcmSeal (aes keys.key)
               (protectNonce keys.iv pn) (b :: (dcid ++ field)) payload).2.toList
             payload := payload } := by
  have hfour : field.length ≤ 4 := hfield ▸ pnLenOf_le b
  have hpos : 0 < payload.length := List.length_pos_iff.2 hne
  have hhdr : (b :: (dcid ++ field)).length = 1 + dcid.length + field.length := by
    simp
    omega
  have hlength : (peerPacket aes keys hp b dcid field pn payload).length = _ :=
    length_peerPacket aes keys hp dcid payload hfield
  have hopen := aeadOpen_seal aes keys (b :: (dcid ++ field)) payload pn
  set body := sealedBody aes keys (b :: (dcid ++ field)) pn payload with hbody
  have hbyte0 := getD_hpByte0_maskedPacket hpShortMask b dcid body (length_hpMask hp) hfour
  have hunmask := hpApply_maskedPacket hpShortMask b dcid body (length_hpMask hp) hfour
  rw [hpApply] at hunmask
  rw [hhdr] at hopen
  rw [peerPacket, ← hbody] at hlength ⊢
  have hbodyLen : body.length = payload.length + 16 := length_sealedBody _ _ _ _ _
  simp only [onerttOpen, hspktUnprotect, openPkt, hlength, hbyte0, hfield, hunmask,
    take_field_unmasked, hpn, gcmTag]
  rw [if_neg (by omega), List.length_append, hhdr, hbodyLen, if_neg (by omega),
    show 1 + dcid.length + field.length + (payload.length + 16) - (1 + dcid.length + field.length) -
      16 = payload.length by omega]
  exact hopen

end

theorem onerttOpen_protectedPacket (keys : InitialKeys) (hp : Block → Block) (dcid : Bytes)
    {pn largestPn : ℕ} {payload : Bytes} (hne : payload ≠ [])
    (hpn : pnumDecode (putBe 4 pn) largestPn = pn) :
    onerttOpen aes keys hp
      (protectedPacket aes keys hp hpShortMask onerttByte0 dcid pn payload) dcid.length largestPn =
        some (openedPacket aes keys onerttByte0 dcid pn payload) := by
  have hpos : 0 < payload.length := List.length_pos_iff.2 hne
  rw [protectedPacket_eq_masked]
  exact onerttOpen_peerPacket aes keys hp dcid payload (length_putBe 4 pn).symm hpn
    (by rw [length_putBe]; omega) hne

/-- **1-RTT packet round trip.** For any block function in place of AES, any connection id and any
non-empty payload: in a buffer with room, `quic_hspkt_onertt_build` produces a packet, and every
receiver whose largest received number is within half a window of the one before the packet's
opens it to the same payload. -/
theorem onerttOpen_onerttBuild (keys : InitialKeys) (hp : Block → Block) (dcid : Bytes)
    (pn largestPn : ℕ) (payload : Bytes) (cap : ℕ) (hne : payload ≠ []) (hpn : pn < 2 ^ 61)
    (hnear : |(largestPn : ℤ) - (pn - 1)| < 2 ^ 31)
    (hcap : 5 + dcid.length + payload.length + gcmTag ≤ cap) :
    ∃ out, onerttBuild aes keys hp dcid pn payload cap = some out ∧
      ∃ pkt, onerttOpen aes keys hp out dcid.length largestPn =
        some { pkt := pkt, payload := payload } := by
  refine ⟨_, ?_, _, onerttOpen_protectedPacket aes keys hp dcid hne (pnumDecode_of_near hpn hnear)⟩
  rw [onerttBuild_eq, if_neg (by omega)]

/-- Packet number 5000000000, five packets ahead of the receiver. -/
theorem onerttOpen_onerttBuild_ahead :
    let keys : InitialKeys := ⟨Vector.replicate 16 1, Vector.replicate 12 2, Vector.replicate 16 3⟩
    ∃ out, onerttBuild (fun _ b => b) keys id [0xaa, 0xbb] 5000000000 [6] 64 = some out ∧
      ∃ pkt, onerttOpen (fun _ b => b) keys id out 2 4999999994 =
        some { pkt := pkt, payload := [6] } :=
  onerttOpen_onerttBuild (fun _ b => b) _ id [0xaa, 0xbb] 5000000000 4999999994 [6] 64 (by decide)
    (by decide) (by norm_num) (by decide)

/-! ## The smallest packets -/

/-- **The smallest legal 1-RTT packets do not open.** For any block function in place of AES, any
connection id and a packet number field of the length byte 0 announces, sealed under the number the
receiver recovers from it: a packet whose packet number and payload have at least the four bytes the
sample needs opens to its payload exactly if they have five or more. -/
theorem onerttOpen_peerPacket_iff (keys : InitialKeys) (hp : Block → Block) (b : UInt8)
    (dcid field payload : Bytes) (largestPn : ℕ) (hfield : pnLenOf b = field.length)
    (hmin : 4 ≤ field.length + payload.length) :
    (∃ pkt, onerttOpen aes keys hp
        (peerPacket aes keys hp b dcid field (pnumDecode field largestPn) payload) dcid.length
        largestPn = some { pkt := pkt, payload := payload }) ↔
      field.length + payload.length ≠ 4 := by
  have hfour : field.length ≤ 4 := hfield ▸ pnLenOf_le b
  constructor
  · rintro ⟨pkt, hopen⟩ hlen
    rw [onerttOpen_peerPacket_short aes keys hp dcid payload hfield (Nat.le_of_eq hlen)] at hopen
    cases hopen
  · intro hlen
    have hne : payload ≠ [] := by
      rintro rfl
      rw [List.length_nil] at hlen hmin
      omega
    exact ⟨_, onerttOpen_peerPacket aes keys hp dcid payload hfield rfl (by omega) hne⟩

/-- A 1-byte packet number and two bytes more than the smallest payload. -/
theorem onerttOpen_peerPacket_iff_five :
    let keys : InitialKeys := ⟨Vector.replicate 16 1, Vector.replicate 12 2, Vector.replicate 16 3⟩
    (∃ pkt, onerttOpen (fun _ b => b) keys id (peerPacket (fun _ b => b) keys id 0x40 [0xaa] [7]
        (pnumDecode [7] 6) [1, 2, 3, 4, 5]) 1 6 =
          some { pkt := pkt, payload := [1, 2, 3, 4, 5] }) ↔
      [(7 : UInt8)].length + [(1 : UInt8), 2, 3, 4, 5].length ≠ 4 :=
  onerttOpen_peerPacket_iff (fun _ b => b) _ id 0x40 [0xaa] [7] [1, 2, 3, 4, 5] 6 (by decide)
    (by decide)

/-- A 1-byte packet number with a 3-byte payload is refused by the receiver that expects it. -/
theorem onerttOpen_peerPacket_four :
    let keys : InitialKeys := ⟨Vector.replicate 16 1, Vector.replicate 12 2, Vector.replicate 16 3⟩
    pnLenOf 0x40 = 1 ∧ pnumDecode [7] 6 = 7 ∧
      onerttOpen (fun _ b => b) keys id
        (peerPacket (fun _ b => b) keys id 0x40 [0xaa] [7] 7 [1, 2, 3]) 1 6 = none :=
  ⟨by decide, by decide,
    onerttOpen_peerPacket_short (fun _ b => b) _ id [0xaa] [1, 2, 3] (by decide) (by decide)⟩

end Packet

end QuicVibe
