import QuicVibe.Crypto.Gcm
import QuicVibe.Packet.Header
/-!
# Packet protection

The AEAD nonce and header protection (`protect.c`, `hp.c`), the long-header pipeline (`txpacket.c`,
`rxpacket.c` over `vpn_open.c`) with its Handshake form (`hspkt_build.c`, `hspkt_open.c`), and the
short-header 1-RTT packet (`onertt.c`, `unprotect.c`). Everything is over an arbitrary block function
`aes` and an arbitrary header-protection function `hp`. The code opens a packet in place; here opening
returns the buffer it leaves behind with the payload.
-/

namespace QuicVibe

namespace Packet

open Crypto

/-- `quic_initial_keys`: the keys of one direction of one encryption level. -/
structure InitialKeys where
  key : Block
  iv : Nonce
  hp : Block
  deriving DecidableEq

/-- `QUIC_GCM_TAG`. -/
def gcmTag : ℕ := 16

/-- `QUIC_HP_LONG_MASK` and `QUIC_HP_SHORT_MASK`: the protected bits of byte 0. -/
def hpLongMask : UInt8 := 0x0f
def hpShortMask : UInt8 := 0x1f

/-- `quic_protect_nonce`: the packet number xored into the low eight bytes of the IV. -/
def protectNonce (iv : Nonce) (pn : ℕ) : Nonce :=
  Vector.ofFn fun j : Fin 12 =>
    if j.val < 4 then iv[j] else iv[j] ^^^ UInt8.ofNat (pn >>> (8 * (11 - j.val)))

/-- `quic_hp_mask`: the first five bytes of the encrypted sample. -/
def hpMask (hp : Block → Block) (sample : Bytes) : Bytes :=
  (hp (Bytes.fit 16 sample)).toList.take 5

/-- Xor byte 0 under `bits`. -/
def hpByte0 (mask : Bytes) (bits : UInt8) (pkt : Bytes) : Bytes :=
  pkt.modifyHead (· ^^^ (mask.getD 0 0 &&& bits))

/-- `quic_hp_protect_pn`: xor the packet number bytes at `pnOff`. -/
def hpProtectPn (mask pkt : Bytes) (pnOff pnLen : ℕ) : Bytes :=
  pkt.take pnOff ++ xorBytes ((pkt.drop pnOff).take pnLen) (mask.drop 1) ++
    pkt.drop (pnOff + pnLen)

def hpApply (mask : Bytes) (bits : UInt8) (pkt : Bytes) (pnOff pnLen : ℕ) : Bytes :=
  hpProtectPn mask (hpByte0 mask bits pkt) pnOff pnLen

variable (aes : Block → Block → Block)

/-! ## Long header -/

/-- Header, ciphertext and tag, with the total length; fails when they do not fit. -/
def sealInto (keys : InitialKeys) (hdr : Bytes) (pn : ℕ) (payload : Bytes) (cap : ℕ) :
    Option (Bytes × ℕ) :=
  let need := hdr.length + payload.length + gcmTag
  if need > cap then none
  else
    let (ct, tag) := Gcm.gcmSeal (aes keys.key) (protectNonce keys.iv pn) hdr payload
    some (hdr ++ ct ++ tag.toList, need)

/-- The sample is 16 bytes at `pn_off + 4`. -/
def protectHeader (hp : Block → Block) (out : Bytes) (pnOff pnLen : ℕ) : Bytes :=
  hpApply (hpMask hp (out.drop (pnOff + 4))) hpLongMask out pnOff pnLen

/-- `quic_protect_seal`: the protected packet and the length the call reports. -/
def protectSeal (keys : InitialKeys) (hp : Block → Block) (hdr : Bytes) (pnOff pnLen pn : ℕ)
    (payload : Bytes) (cap : ℕ) : Option (Bytes × ℕ) := do
  let (out, total) ← sealInto aes keys hdr pn payload cap
  return (protectHeader hp out pnOff pnLen, total)

/-- `QUIC_TX_PN_LEN`. -/
def txPnLen : ℕ := 4

/-- `quic_tx_packet`: the packet and the length the call reports. -/
def txPacket (keys : InitialKeys) (hp : Block → Block) (byte0 : UInt8) (dcid scid : Bytes)
    (isInitial : Bool) (token : Bytes) (pn : ℕ) (frames : Bytes) (cap : ℕ) :
    Option (Bytes × ℕ) := do
  let hdr ← lhdrBuild byte0 1 dcid scid isInitial token frames.length pn txPnLen
    (64 + 2 * maxCidLen)
  protectSeal aes keys hp hdr (hdr.length - txPnLen) txPnLen pn frames cap

/-- The sample and the region the Length field covers lie inside the packet. -/
def regionOk (len pnOff length : ℕ) : Bool :=
  if pnOff + 4 + 16 > len then false else length ≥ 4 + gcmTag && length ≤ len - pnOff

/-- `pn_len` in the low two bits of byte 0. -/
def pnLenOf (byte0 : UInt8) : ℕ := (byte0 &&& 0x03).toNat + 1

/-- An opened packet: the buffer with header protection removed and the payload decrypted, and
the payload. -/
structure Opened where
  pkt : Bytes
  payload : Bytes

/-- `quic_gcm_open` in place over a packet whose header is its first `hdrLen` bytes. -/
def aeadOpen (keys : InitialKeys) (pkt : Bytes) (hdrLen ctLen pn : ℕ) : Option Opened := do
  let pt ← Gcm.gcmOpen (aes keys.key) (protectNonce keys.iv pn) (pkt.take hdrLen)
    ((pkt.drop hdrLen).take ctLen) (Bytes.fit 16 (pkt.drop (hdrLen + ctLen)))
  return { pkt := pkt.take hdrLen ++ pt ++ pkt.drop (hdrLen + ctLen), payload := pt }

/-- `quic_vpn_open`: unmask byte 0, then as many packet number bytes as it announces, and open
the payload under the packet number read from them. -/
def vpnOpen (keys : InitialKeys) (hp : Block → Block) (pkt : Bytes) (pnOff length : ℕ) :
    Option Opened :=
  if !regionOk pkt.length pnOff length then none
  else
    let mask := hpMask hp (pkt.drop (pnOff + 4))
    let pkt := hpByte0 mask hpLongMask pkt
    let pnLen := pnLenOf (pkt.getD 0 0)
    let pkt := hpProtectPn mask pkt pnOff pnLen
    let pn := readBe ((pkt.drop pnOff).take pnLen)
    aeadOpen aes keys pkt (pnOff + pnLen) (length - pnLen - gcmTag) pn

def rxPacket (keys : InitialKeys) (hp : Block → Block) (pkt : Bytes) (isInitial : Bool) :
    Option Opened := do
  let h ← lhdrParse pkt isInitial
  vpnOpen aes keys hp pkt h.pnOff h.length

/-- `QUIC_HSPKT_BYTE0`. -/
def hspktByte0 : UInt8 := 0xe3

/-- `quic_hspkt_build`: a Handshake packet. -/
def hspktBuild (keys : InitialKeys) (hp : Block → Block) (dcid scid : Bytes) (pn : ℕ)
    (payload : Bytes) (cap : ℕ) : Option Bytes := do
  let (out, total) ← txPacket aes keys hp hspktByte0 dcid scid false [] pn payload cap
  return out.take total

def hspktOpen (keys : InitialKeys) (hp : Block → Block) (pkt : Bytes) : Option Opened := do
  let h ← lhdrParse pkt false
  vpnOpen aes keys hp pkt h.pnOff h.length

/-! ## Short header -/

/-- `QUIC_ONERTT_BYTE0`. -/
def onerttByte0 : UInt8 := 0x43

/-- Byte 0, the connection id and a 4-byte packet number. -/
def buildShortHeader (dcid : Bytes) (pn : ℕ) : Bytes := onerttByte0 :: dcid ++ putBe 4 pn

def onerttBuild (keys : InitialKeys) (hp : Block → Block) (dcid : Bytes) (pn : ℕ) (payload : Bytes)
    (cap : ℕ) : Option Bytes :=
  let hdr := buildShortHeader dcid pn
  let pnOff := 1 + dcid.length
  let need := hdr.length + payload.length + gcmTag
  if need > cap then none
  else
    let (ct, tag) := Gcm.gcmSeal (aes keys.key) (protectNonce keys.iv pn) hdr payload
    let out := hdr ++ ct ++ tag.toList
    some (hpApply (hpMask hp (out.drop (pnOff + 4))) hpShortMask out pnOff 4)

/-- `open_pkt`: byte 0 is unmasked already. -/
def openPkt (keys : InitialKeys) (pkt : Bytes) (pnOff : ℕ) (mask : Bytes) (largestPn : ℕ) :
    Option Opened :=
  let pnLen := pnLenOf (pkt.getD 0 0)
  let hdrLen := pnOff + pnLen
  let pkt := hpProtectPn mask pkt pnOff pnLen
  if pkt.length ≤ hdrLen + gcmTag then none
  else aeadOpen aes keys pkt hdrLen (pkt.length - hdrLen - gcmTag)
    (pnumDecode ((pkt.drop pnOff).take pnLen) largestPn)

/-- `quic_hspkt_unprotect`; `hdrLen` is the header length of a 4-byte packet number. -/
def hspktUnprotect (keys : InitialKeys) (hp : Block → Block) (pkt : Bytes) (hdrLen pnOff : ℕ)
    (bits : UInt8) (largestPn : ℕ) : Option Opened :=
  if pkt.length ≤ hdrLen + gcmTag then none
  else
    let mask := hpMask hp (pkt.drop (pnOff + 4))
    openPkt aes keys (hpByte0 mask bits pkt) pnOff mask largestPn

def onerttOpen (keys : InitialKeys) (hp : Block → Block) (pkt : Bytes) (dcidLen largestPn : ℕ) :
    Option Opened :=
  hspktUnprotect aes keys hp pkt (5 + dcidLen) (1 + dcidLen) hpShortMask largestPn

end Packet

end QuicVibe
