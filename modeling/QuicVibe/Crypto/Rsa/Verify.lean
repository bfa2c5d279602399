import QuicVibe.Common.Primality
import QuicVibe.Crypto.Rsa.Bignum
/-!
# RSA signatures

`quic_rsa_pkcs1_verify` (RFC 8017 8.2.2 and 9.2). The verifier builds the whole block it expects and
compares all of it with the power of the signature.
-/

namespace QuicVibe

namespace Crypto

namespace Rsa

open Words

/-- `QUIC_BN_LIMBS`. -/
def BN_LIMBS : ℕ := 64

/-- `RSA_DI_LEN`. -/
def RSA_DI_LEN : ℕ := 19

def rsaDiSha256 : Bytes :=
  [0x30, 0x31, 0x30, 0x0d, 0x06, 0x09, 0x60, 0x86, 0x48, 0x01,
   0x65, 0x03, 0x04, 0x02, 0x01, 0x05, 0x00, 0x04, 0x20]

def rsaDiSha384 : Bytes :=
  [0x30, 0x41, 0x30, 0x0d, 0x06, 0x09, 0x60, 0x86, 0x48, 0x01,
   0x65, 0x03, 0x04, 0x02, 0x02, 0x05, 0x00, 0x04, 0x30]

def rsaDiSha512 : Bytes :=
  [0x30, 0x51, 0x30, 0x0d, 0x06, 0x09, 0x60, 0x86, 0x48, 0x01,
   0x65, 0x03, 0x04, 0x02, 0x03, 0x05, 0x00, 0x04, 0x40]

def rsaDi : List (ℕ × Bytes) := [(32, rsaDiSha256), (48, rsaDiSha384), (64, rsaDiSha512)]

def diPrefix (hashLen : ℕ) : Option Bytes := (rsaDi.find? fun d => d.1 == hashLen).map Prod.snd

/-- `put_digestinfo`: the bytes it writes. -/
def putDigestinfo (h : Bytes) : Bytes := (diPrefix h.length).getD [] ++ h

def emsaPkcs1 (emLen : ℕ) (h : Bytes) : Option Bytes :=
  let fixed := 3 + RSA_DI_LEN + h.length
  if emLen < fixed + 8 then none
  else
    let psEnd := emLen - fixed + 2
    some ([0x00, 0x01] ++ List.replicate (psEnd - 2) 0xff ++ [0x00] ++ putDigestinfo h)

def rsaF4Val (e : Bytes) : Bool := e.getD 0 0 == 0x01 && e.getD 1 0 == 0x00 && e.getD 2 0 == 0x01

def rsaEIsF4 (e : Bytes) : Bool := e.length == 3 && rsaF4Val e

def ctEqual (a b : Bytes) (len : ℕ) : Bool :=
  forUp (fun d i => d ||| (a.getD i 0 ^^^ b.getD i 0)) (0 : UInt8) len == 0

def rsaEF4 : Bn BN_LIMBS := bnZero.setIfInBounds 0 65537

def nLenBad (nLen hashLen : ℕ) : Bool :=
  if nLen > BN_LIMBS * 8 then true else decide (nLen < 11 + RSA_DI_LEN + hashLen)

def sizesBad (nLen sigLen hashLen : ℕ) : Bool :=
  if (diPrefix hashLen).isNone then true
  else if nLenBad nLen hashLen then true
  else decide (sigLen ≠ nLen)

def rsaInputsOk (nLen : ℕ) (e : Bytes) (sigLen hashLen : ℕ) : Bool :=
  if sizesBad nLen sigLen hashLen then false else rsaEIsF4 e

def rsaCheck (bnS bnN : Bn BN_LIMBS) (nLen : ℕ) (h : Bytes) : Bool :=
  let m := bnModexp bnS rsaEF4 bnN
  let got := bnToBe m nLen
  match emsaPkcs1 nLen h with
  | none => false
  | some want => ctEqual got want nLen

def rsaPkcs1Verify (n e sig msgHash : Bytes) : Bool :=
  if !rsaInputsOk n.length e sig.length msgHash.length then false
  else
    let bnN : Bn BN_LIMBS := bnFromBe n
    let bnS : Bn BN_LIMBS := bnFromBe sig
    if bnCmp bnS bnN ≥ 0 then false else rsaCheck bnS bnN n.length msgHash

/-! ## The block -/

/-- The encoded message of RFC 8017 9.2 for SHA-256: `00 01 FF … FF 00` and the digest info. -/
def emsaBlock (emLen : ℕ) (hash : Bytes) : Bytes :=
  let t := rsaDiSha256 ++ hash
  [0x00, 0x01] ++ List.replicate (emLen - t.length - 3) 0xff ++ [0x00] ++ t

theorem emsaPkcs1_eq {emLen : ℕ} {hash : Bytes} (hlen : 62 ≤ emLen) (hhash : hash.length = 32) :
    emsaPkcs1 emLen hash = some (emsaBlock emLen hash) := by
  have hdi : diPrefix 32 = some rsaDiSha256 := rfl
  have htlen : (rsaDiSha256 ++ hash).length = 51 := by
    rw [List.length_append, hhash]
    rfl
  have hps : emLen - (3 + 19 + 32) + 2 - 2 = emLen - 51 - 3 := by omega
  rw [emsaPkcs1, emsaBlock, hhash, RSA_DI_LEN, if_neg (by omega), putDigestinfo, hhash, hdi]
  simp only [Option.getD_some, htlen, hps]

theorem length_emsaBlock {emLen : ℕ} {hash : Bytes} (hlen : 62 ≤ emLen) (hhash : hash.length = 32) :
    (emsaBlock emLen hash).length = emLen := by
  simp only [emsaBlock, List.length_append, List.length_replicate, List.length_cons,
    List.length_nil, hhash, rsaDiSha256]
  omega

theorem ctEqual_iff {a b : Bytes} {len : ℕ} (ha : a.length = len) (hb : b.length = len) :
    ctEqual a b len = true ↔ a = b := by
  have hfold : ∀ k, forUp (fun d i => d ||| (a.getD i 0 ^^^ b.getD i 0)) (0 : UInt8) k = 0 ↔
      ∀ i < k, a.getD i 0 = b.getD i 0 := by
    intro k
    induction k with
    | zero => simp
    | succ k ih => rw [forUp_succ, UInt8.or_eq_zero_iff, ih, UInt8.xor_eq_zero_iff,
        Nat.forall_lt_succ_right]
  rw [ctEqual, beq_iff_eq, hfold]
  refine ⟨fun h => List.ext_getElem (by omega) fun i h₁ h₂ => ?_, fun h i _ => by rw [h]⟩
  have hi := h i (by omega)
  rwa [List.getD_eq_getElem _ _ h₁, List.getD_eq_getElem _ _ h₂] at hi

/-! ## The inputs -/

theorem rsaEIsF4_iff {e : Bytes} : rsaEIsF4 e = true ↔ e = [0x01, 0x00, 0x01] := by
  rw [rsaEIsF4, rsaF4Val]
  constructor
  · intro h
    match e with
    | [a, b, c] => simpa [and_assoc] using h
    | [] | [_] | [_, _] | _ :: _ :: _ :: _ :: _ => simp at h
  · rintro rfl
    rfl

theorem rsaInputsOk_iff {nLen sigLen : ℕ} {e : Bytes} (hn : 62 ≤ nLen ∧ nLen ≤ 512) :
    rsaInputsOk nLen e sigLen 32 = true ↔ e = [0x01, 0x00, 0x01] ∧ sigLen = nLen := by
  have hdi : (diPrefix 32).isNone = false := rfl
  have hbad : nLenBad nLen 32 = false := by
    rw [nLenBad, BN_LIMBS, RSA_DI_LEN, if_neg (by omega), decide_eq_false_iff_not]
    omega
  rw [rsaInputsOk, sizesBad, hdi, hbad]
  by_cases hlen : sigLen = nLen
  · simp [hlen, rsaEIsF4_iff]
  · simp [hlen]

theorem val_rsaEF4 : val rsaEF4 = 65537 := by
  have hset := val_set (bnZero : Bn BN_LIMBS) (j := 0) (by decide) 65537
  have hlimb : limb (bnZero : Bn BN_LIMBS) 0 = 0 := by decide
  rw [val_bnZero, hlimb, pow_zero, Nat.mul_one, Nat.mul_one, Nat.zero_add, Nat.add_zero] at hset
  exact hset

/-- **Acceptance** of a signature. -/
theorem rsaPkcs1Verify_iff {n e sig hash : Bytes} (hn : 62 ≤ n.length ∧ n.length ≤ 512)
    (hhash : hash.length = 32) :
    rsaPkcs1Verify n e sig hash = true ↔
      e = [0x01, 0x00, 0x01] ∧ sig.length = n.length ∧ readBe sig < readBe n ∧
        putBe n.length (readBe sig ^ 65537 % readBe n) = emsaBlock n.length hash := by
  rw [rsaPkcs1Verify, hhash]
  by_cases hok : rsaInputsOk n.length e sig.length 32 = true
  · obtain ⟨he, hlen⟩ := (rsaInputsOk_iff hn).1 hok
    have hbits : 8 * BN_LIMBS = 512 := rfl
    have hvn : val (bnFromBe n : Bn BN_LIMBS) = readBe n := val_bnFromBe (by omega)
    have hvs : val (bnFromBe sig : Bn BN_LIMBS) = readBe sig := val_bnFromBe (by omega)
    rw [hok, Bool.not_true, if_neg (by decide)]
    simp only [ge_iff_le, bnCmp_nonneg_iff, hvn, hvs]
    by_cases hlt : readBe sig < readBe n
    · have hpow : val (bnModexp (bnFromBe sig : Bn BN_LIMBS) rsaEF4 (bnFromBe n)) = _ :=
        val_bnModexp (by omega) (Or.inr (by rw [val_rsaEF4]; decide))
      rw [hvn, hvs, val_rsaEF4] at hpow
      rw [if_neg (by omega), rsaCheck, emsaPkcs1_eq hn.1 hhash]
      dsimp only
      rw [bnToBe_eq, hpow, ctEqual_iff (length_putBe _ _) (length_emsaBlock hn.1 hhash)]
      exact ⟨fun h => ⟨he, hlen, hlt, h⟩, fun h => h.2.2.2⟩
    · rw [if_pos (by omega)]
      exact ⟨fun h => absurd h (by decide), fun h => absurd h.2.2.1 hlt⟩
  · rw [Bool.not_eq_true] at hok
    rw [hok, Bool.not_false, if_pos rfl]
    refine ⟨fun h => absurd h (by decide), fun h => ?_⟩
    rw [(rsaInputsOk_iff hn).2 ⟨h.1, h.2.1⟩] at hok
    cases hok

/-- **The verifier is exact, and the power is the power** for every base below the modulus, except
for the modulus `1` with the exponent `0`. -/
theorem rsa_verify_exact :
    (∀ n e sig hash : Bytes, 62 ≤ n.length ∧ n.length ≤ 512 → hash.length = 32 →
      (rsaPkcs1Verify n e sig hash = true ↔
        e = [0x01, 0x00, 0x01] ∧ sig.length = n.length ∧ readBe sig < readBe n ∧
          putBe n.length (readBe sig ^ 65537 % readBe n) = emsaBlock n.length hash)) ∧
    ∀ base exp mod : Bn BN_LIMBS, val base < val mod → val mod ≠ 1 ∨ val exp ≠ 0 →
      val (bnModexp base exp mod) = val base ^ val exp % val mod :=
  ⟨fun _ _ _ _ hn hhash => rsaPkcs1Verify_iff hn hhash,
    fun _ _ _ hlt hcase => val_bnModexp (Nat.zero_lt_of_lt hlt) hcase⟩

/-- A modulus of 62 bytes. -/
def sampleModulus : ℕ :=
  0xc49c3685156b89c80c4de9367ed92aa3300b2b711343220d672b15ad9a9d0a57af35b9b8163510b8fe223c11654988534206fc4a447ec49872c67c081bb7

/-- A signature of the hash `0` for it. -/
def sampleSignature : ℕ :=
  0x9c18668ca14c3e3a51da2f9e3c539133e74df94aef8e3cfcb5799d6208ee63919b5e4b0bd9981232292c6554db426ec9100b7dcf74ad69e40d8d12932ff9

/-- A signature that is accepted, and a power. -/
theorem rsa_verify_exact_sample :
    rsaPkcs1Verify (putBe 62 sampleModulus) [0x01, 0x00, 0x01] (putBe 62 sampleSignature)
        (List.replicate 32 0) = true ∧
      val (bnModexp bnZero rsaEF4 bnOne : Bn BN_LIMBS) = 0 := by
  constructor
  · rw [rsa_verify_exact.1 _ _ _ _ (by rw [length_putBe]; decide) rfl, length_putBe, length_putBe,
      readBe_putBe, readBe_putBe, Nat.mod_eq_of_lt (by decide),
      Nat.mod_eq_of_lt (by decide),
      ← Primality.powMod_eq sampleModulus (show 65537 < 2 ^ 17 by decide)]
    refine ⟨rfl, rfl, by decide, by decide⟩
  · have hone : val (bnOne : Bn BN_LIMBS) = 1 := val_bnOne (by decide)
    rw [rsa_verify_exact.2 bnZero rsaEF4 bnOne (by rw [val_bnZero, hone]; decide)
      (Or.inr (by rw [val_rsaEF4]; decide)), hone, Nat.mod_one]

/-- The power of `0` to the exponent `0` modulo `1` comes out as `1`. -/
theorem bnModexp_one_zero :
    val (bnZero : Bn BN_LIMBS) < val (bnOne : Bn BN_LIMBS) ∧
      val (bnModexp bnZero bnZero bnOne : Bn BN_LIMBS) ≠
        val (bnZero : Bn BN_LIMBS) ^ val (bnZero : Bn BN_LIMBS) % val (bnOne : Bn BN_LIMBS) := by
  have hone : val (bnOne : Bn BN_LIMBS) = 1 := val_bnOne (by decide)
  have hbits : bnBits (bnZero : Bn BN_LIMBS) = 0 := by decide
  rw [bnModexp, hbits, forDown_zero, hone, val_bnZero]
  decide

end Rsa

end Crypto

end QuicVibe
