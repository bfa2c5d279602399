import QuicVibe.Crypto.Sha256
import QuicVibe.Packet.Protect
import QuicVibe.Common.Run

/-!
# Secrets and packet protection keys

The TLS 1.3 secrets (`schedule.c`, `master.c`, `appkeys.c`, `finished.c`), the Initial keys derived
from a connection id (`initial.c`), and the order-driven schedule the server and the client hold
(`keyschedule.c`), which hands out the keys of a stage only once the stage has been reached. Below
that the per-level key sets (`keyset.c`), the two-generation store of a key update with its phase bit
(`twogen.c`, `phasebit.c`, `derive.c`), and the calls on it (`connrunner/keyupdate.c`).
-/

namespace QuicVibe

namespace Keys

open Crypto Packet

/-- `quic_hkdf_expand_label` as the key schedule calls it, without looking at the result code: the
labels, contexts and lengths in use never fail (`hkdfExpandLabel_eq_some`). -/
def expandLabel (secret : Digest) (label : String) (ctx : Bytes) (len : ℕ) : Vector UInt8 len :=
  (hkdfExpandLabel secret (ascii label) ctx len).getD (Vector.replicate len 0)

theorem hkdfExpandLabel_eq_some (secret : Digest) {label : String} {ctx : Bytes} {len : ℕ}
    (hlabel : (ascii label).length ≤ 64) (hctx : ctx.length ≤ 64) (hlen : len ≤ 255 * 32) :
    hkdfExpandLabel secret (ascii label) ctx len = some (expandLabel secret label ctx len) := by
  have hinfo : (buildLabel (ascii label) ctx len).length ≤ 256 := by
    have hpre : "tls13 ".toUTF8.toList.length = 6 := congrArg List.length (ascii_eq "tls13 ")
    simp only [buildLabel, List.length_append, List.length_cons, List.length_nil, hpre]
    omega
  have h : ∃ v, hkdfExpandLabel secret (ascii label) ctx len = some v := by
    rw [hkdfExpandLabel, if_neg (by omega), hkdfExpand, if_pos ⟨hlen, hinfo⟩]
    exact ⟨_, rfl⟩
  obtain ⟨v, hv⟩ := h
  rw [expandLabel, hv, Option.getD_some]

/-! ## Derivations -/

def deriveSecret (secret : Digest) (label : String) (messages : Bytes) : Digest :=
  expandLabel secret label (sha256 messages).toList 32

/-- The key, IV and header-protection key of a traffic secret (`protection_keys`, `derive_keys`). -/
def protectionKeys (ts : Digest) : InitialKeys where
  key := expandLabel ts "quic key" [] 16
  iv := expandLabel ts "quic iv" [] 12
  hp := expandLabel ts "quic hp" [] 16

def handshakeSecret (ecdhe : Vector UInt8 32) : Digest :=
  let zero : Bytes := List.replicate 32 0
  let early := hkdfExtract zero zero
  hkdfExtract (deriveSecret early "derived" []).toList ecdhe.toList

def masterSecret (hsSecret : Digest) : Digest :=
  hkdfExtract (deriveSecret hsSecret "derived" []).toList (List.replicate 32 0)

def handshakeKeys (hsSecret : Digest) (transcript : Bytes) (isServer : Bool) : InitialKeys :=
  protectionKeys
    (deriveSecret hsSecret (if isServer then "s hs traffic" else "c hs traffic") transcript)

def appKeys (master : Digest) (transcript : Bytes) (isServer : Bool) : InitialKeys :=
  protectionKeys
    (deriveSecret master (if isServer then "s ap traffic" else "c ap traffic") transcript)

/-- `INITIAL_SALT`. -/
def initialSalt : Bytes :=
  [0x38, 0x76, 0x2c, 0xf7, 0xf5, 0x59, 0x34, 0xb3, 0x4d, 0x17,
   0x9a, 0xe6, 0xa4, 0xc8, 0x0c, 0xad, 0xcc, 0xbb, 0x7f, 0x0a]

/-- `quic_initial_derive`: the Initial keys of one side, from a connection id on the wire. -/
def initialDerive (dcid : Bytes) (isServer : Bool) : InitialKeys :=
  let initialSecret := hkdfExtract initialSalt dcid
  protectionKeys
    (expandLabel initialSecret (if isServer then "server in" else "client in") [] 32)

def finishedVerifyData (baseKey transcriptHash : Digest) : Digest :=
  hmacSha256 (expandLabel baseKey "finished" [] 32).toList transcriptHash.toList

/-- `quic_tls_finished_check`: a comparison without an early exit. -/
def finishedCheck (baseKey transcriptHash received : Digest) : Bool :=
  ctDiff (finishedVerifyData baseKey transcriptHash) received == 0

theorem finishedCheck_iff {baseKey transcriptHash received : Digest} :
    finishedCheck baseKey transcriptHash received = true ↔
      received = finishedVerifyData baseKey transcriptHash := by
  rw [finishedCheck, beq_iff_eq, ctDiff_eq_zero_iff, eq_comm]

/-! ## The staged schedule -/

/-- Whose packet protection keys, and of which stage (`QUIC_KS_*`). -/
inductive KsWhich
  | clientHs
  | serverHs
  | clientAp
  | serverAp
  deriving DecidableEq, Repr

structure Keysched where
  stage : ℕ
  master : Digest
  keys : KsWhich → InitialKeys

namespace Keysched

/-- `quic_keysched_init` resets the stage only. -/
def init (st : Keysched) : Keysched := { st with stage := 0 }

def advanceHandshake (st : Keysched) (ecdhe transcript : Bytes) : Option Keysched :=
  if st.stage = 0 ∧ ecdhe.length = 32 then
    let hs := handshakeSecret (Bytes.fit 32 ecdhe)
    some {
      stage := 1
      master := masterSecret hs
      keys := fun
        | .clientHs => handshakeKeys hs transcript false
        | .serverHs => handshakeKeys hs transcript true
        | which => st.keys which }
  else none

def advanceMaster (st : Keysched) (transcript : Bytes) : Option Keysched :=
  if st.stage ≠ 1 then none
  else some {
    st with
    stage := 2
    keys := fun
      | .clientAp => appKeys st.master transcript false
      | .serverAp => appKeys st.master transcript true
      | which => st.keys which }

/-- The keys of a stage are available once it has been reached. -/
def available (stage : ℕ) : KsWhich → Bool
  | .clientHs | .serverHs => stage ≥ 1
  | .clientAp | .serverAp => stage ≥ 2

def get (st : Keysched) (which : KsWhich) : Option InitialKeys :=
  if available st.stage which then some (st.keys which) else none

theorem get_of_stage (st : Keysched) (which : KsWhich) (h : st.stage = 2) :
    st.get which = some (st.keys which) := by
  cases which <;> simp [get, available, h]

end Keysched

/-! ## Key sets -/

/-- `QUIC_LEVEL_*`. -/
inductive Level
  | initial
  | handshake
  | onertt
  deriving DecidableEq, Repr

/-- `quic_keyset`. The level is an enumeration here, so the range checks of the code always
pass. -/
structure Keyset where
  keys : Level → InitialKeys
  installed : Level → Bool

namespace Keyset

/-- `quic_keyset_init` clears the flags only. -/
def init (state : Keyset) : Keyset := { state with installed := fun _ => false }

def install (state : Keyset) (level : Level) (keys : InitialKeys) : Keyset where
  keys := Function.update state.keys level keys
  installed := Function.update state.installed level true

def discard (state : Keyset) (level : Level) : Keyset :=
  { state with installed := Function.update state.installed level false }

def forLevel (state : Keyset) (level : Level) : Option InitialKeys :=
  if state.installed level then some (state.keys level) else none

variable {state : Keyset} {level l : Level}

@[simp] theorem installed_install_of_ne (h : l ≠ level) (keys : InitialKeys) :
    (state.install level keys).installed l = state.installed l :=
  Function.update_of_ne h _ _

@[simp] theorem installed_discard_of_ne (h : l ≠ level) :
    (state.discard level).installed l = state.installed l :=
  Function.update_of_ne h _ _

@[simp] theorem forLevel_install (state : Keyset) (level : Level) (keys : InitialKeys) :
    (state.install level keys).forLevel level = some keys := by
  simp [forLevel, install]

end Keyset

/-! ## The phase bit -/

def keyphaseBit (generation : ℕ) : UInt8 := UInt8.ofNat (generation &&& 1)

def keyphaseGet (byte0 : UInt8) : UInt8 := (byte0 >>> 2) &&& 1

/-- `quic_keyphase_set`; the mask `QUIC_KEYPHASE_MASK` is `0x04`. -/
def keyphaseSet (byte0 phase : UInt8) : UInt8 := (byte0 &&& ~~~(0x04 : UInt8)) ||| ((phase &&& 1) <<< 2)

/-! ## Two generations -/

/-- `quic_kuswitch_state`. -/
structure Kuswitch where
  cur : InitialKeys
  old : InitialKeys
  generation : ℕ
  haveOld : Bool

namespace Kuswitch

/-- `quic_kuswitch_init` leaves the old keys as they are. -/
def init (state : Kuswitch) (gen0 : InitialKeys) : Kuswitch :=
  { state with cur := gen0, generation := 0, haveOld := false }

def rotate (state : Kuswitch) (next : InitialKeys) : Kuswitch where
  cur := next
  old := state.cur
  generation := u64 (state.generation + 1)
  haveOld := true

def keyForPhase (state : Kuswitch) (recvPhaseBit : UInt8) : Option InitialKeys :=
  if recvPhaseBit = keyphaseBit state.generation then some state.cur
  else if state.haveOld then some state.old else none

def discardOld (state : Kuswitch) : Kuswitch := { state with haveOld := false }

end Kuswitch

def kuNextSecret (cur : Digest) : Digest := expandLabel cur "quic ku" [] 32

/-- `quic_kuswitch_next_keys`: key and IV of `nextKeys` are overwritten, its header-protection key
is left as the caller passed it. -/
def kuswitchNextKeys (currentSecret : Digest) (nextKeys : InitialKeys) : InitialKeys × Digest :=
  let nextSecret := kuNextSecret currentSecret
  ({ nextKeys with
      key := expandLabel nextSecret "quic key" [] 16
      iv := expandLabel nextSecret "quic iv" [] 12 }, nextSecret)

/-! ## The connection -/

/-- The part of `quic_connrunner` the key update reads and writes. -/
structure ConnRunner where
  keys : Keyset
  handshakeConfirmed : Bool
  ku : Kuswitch
  kuSecret : Digest
  kuPhase : UInt8
  kuCompletedAt : ℕ
  kuSentInPhase : ℕ
  kuUnacked : Bool

/-- A zero-initialised `quic_initial_keys`. -/
def zeroKeys : InitialKeys :=
  ⟨Vector.replicate 16 0, Vector.replicate 12 0, Vector.replicate 16 0⟩

/-- The clock value `(u64)-1` stands for "no update completed". -/
def unset : ℕ := 2 ^ 64 - 1

/-- The current 1-RTT keys, or zeros. -/
def curKeys (r : ConnRunner) : InitialKeys := (r.keys.forLevel .onertt).getD zeroKeys

def keyupdateInit (r : ConnRunner) : ConnRunner :=
  { r with
    ku := r.ku.init (curKeys r)
    kuSecret := Vector.replicate 32 0
    kuPhase := 0
    kuCompletedAt := unset
    kuSentInPhase := 0
    kuUnacked := false }

/-- `retention_elapsed`: three PTOs after `mark`. -/
def retentionElapsed (now mark pto : ℕ) : Bool := now ≥ u64 (mark + u64 (3 * pto))

def shouldInitiate (sent threshold : ℕ) (confirmed : Bool) : Bool := confirmed && sent ≥ threshold

def reinitFloorOk (r : ConnRunner) (now pto : ℕ) : Bool :=
  if r.kuCompletedAt = unset then true else retentionElapsed now r.kuCompletedAt pto

def mayInitiate (r : ConnRunner) (now threshold pto : ℕ) : Bool :=
  shouldInitiate r.kuSentInPhase threshold r.handshakeConfirmed && !r.kuUnacked &&
    reinitFloorOk r now pto

def doInitiate (r : ConnRunner) : ConnRunner :=
  let (next, nextSecret) := kuswitchNextKeys r.kuSecret zeroKeys
  let ku := r.ku.rotate next
  { r with
    ku := ku
    kuSecret := nextSecret
    keys := r.keys.install .onertt next
    kuPhase := keyphaseSet r.kuPhase (keyphaseBit ku.generation)
    kuUnacked := true
    kuCompletedAt := unset
    kuSentInPhase := 0 }

/-- `quic_connrunner_maybe_initiate_ku`: whether an update was initiated, and the state after. -/
def maybeInitiateKu (r : ConnRunner) (now threshold pto : ℕ) : Bool × ConnRunner :=
  if mayInitiate r now threshold pto then (true, doInitiate r) else (false, r)

def mayDiscard (r : ConnRunner) (now pto : ℕ) : Bool :=
  r.ku.haveOld && r.kuCompletedAt ≠ unset && retentionElapsed now r.kuCompletedAt pto

def maybeDiscardKu (r : ConnRunner) (now pto : ℕ) : ConnRunner :=
  if mayDiscard r now pto then { r with ku := r.ku.discardOld } else r

def kuCompleted (r : ConnRunner) (now : ℕ) : ConnRunner :=
  if !r.kuUnacked then r else { r with kuCompletedAt := now, kuUnacked := false }

/-- Which read key a packet is opened with. -/
inductive ReadKey
  | held
  | next
  deriving DecidableEq, Repr

/-- `select_next`: only from generation 0 and only after confirmation. -/
def selectNext (r : ConnRunner) (recvBit curBit : UInt8) : Bool :=
  r.ku.generation == 0 && (r.handshakeConfirmed && recvBit != curBit)

/-- `quic_connrunner_recv_keygen`; no key means the packet is dropped. -/
def recvKeygen (r : ConnRunner) (byte0 : UInt8) : Option ReadKey :=
  let recvBit := keyphaseGet byte0
  if selectNext r recvBit (keyphaseBit r.ku.generation) then some .next
  else (r.ku.keyForPhase recvBit).map fun _ => .held

end Keys

end QuicVibe
