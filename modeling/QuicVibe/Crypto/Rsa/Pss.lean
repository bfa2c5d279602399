import QuicVibe.Crypto.Rsa.Verify
import QuicVibe.Crypto.Sha256
/-!
# RSA-PSS signatures

`quic_rsa_pss_verify` (RFC 8017 8.1.2 and 9.1.2, with SHA-256, MGF1 and a salt of 32 octets). The
power of the signature is written into an encoded message of `emLen` octets, which may be one octet
less than the modulus has; the standard rejects a power that does not fit, the code cuts its top
octet off (`quic_bn_to_be`).
-/

namespace QuicVibe

namespace Crypto

namespace Rsa

open Words

/-! ## The mask -/

def mgf1Block (seed : Bytes) (counter : ℕ) : Digest :=
  Sha256.final (Sha256.update (Sha256.update Sha256.init seed) (putBe 4 counter))

/-- The loop of `quic_mgf1_sha256`, with what is left of the mask. Every round writes at least one
octet. -/
def mgf1From (seed : Bytes) : ℕ → ℕ → ℕ → Bytes
  | 0, _, _ => []
  | fuel + 1, counter, left =>
    if left = 0 then []
    else
      let n := min left 32
      (mgf1Block seed counter).toList.take n ++ mgf1From seed fuel (u32 (counter + 1)) (left - n)

def mgf1Sha256 (seed : Bytes) (maskLen : ℕ) : Bytes := mgf1From seed maskLen 0 maskLen

/-! ## The encoded message -/

/-- `PSS_SALT_LEN` and `PSS_MAX_EM`. -/
def PSS_SALT_LEN : ℕ := 32
def PSS_MAX_EM : ℕ := 512

def pssTopZeroBits (emLen emBits : ℕ) : ℕ := 8 * emLen - emBits

def pssDbLen (emLen hashLen : ℕ) : ℕ := emLen - hashLen - 1

def pssTopBitsClear (top : UInt8) (zeroBits : ℕ) : Bool :=
  top.toNat &&& (0xff <<< (8 - zeroBits)) == 0

def pssUnmaskDb (db h : Bytes) (zeroBits : ℕ) : Bytes :=
  (xorBytes db (mgf1Sha256 h db.length)).modifyHead (· &&& UInt8.ofNat (0xff >>> zeroBits))

def pssPaddingOk (db : Bytes) (saltLen : ℕ) : Bool :=
  let one := db.length - saltLen - 1
  (db.take one).all (· == 0x00) && db.getD one 0 == 0x01

def pssHprimeEq (mhash salt h : Bytes) : Bool :=
  let hp := Sha256.final (Sha256.update (Sha256.update
    (Sha256.update Sha256.init (List.replicate 8 0)) (mhash.take 32)) salt)
  ctEqual hp.toList h 32

def pssSizesBad (emLen hashLen : ℕ) : Bool :=
  if hashLen ≠ 32 ∨ emLen > PSS_MAX_EM then true else decide (emLen < hashLen + PSS_SALT_LEN + 2)

def pssPrefixBad (em : Bytes) (hashLen emBits : ℕ) : Bool :=
  if pssSizesBad em.length hashLen then true
  else if em.getD (em.length - 1) 0 ≠ 0xbc then true
  else !pssTopBitsClear (em.getD 0 0) (pssTopZeroBits em.length emBits)

/-- `pss_recover_db`: the block without its mask, and the hash behind it. -/
def pssRecoverDb (em : Bytes) (dbLen zeroBits : ℕ) : Bytes × Bytes :=
  let h := (em.drop dbLen).take 32
  (pssUnmaskDb (em.take dbLen) h zeroBits, h)

def pssDbConsistent (em : Bytes) (dbLen zeroBits : ℕ) (mhash : Bytes) : Bool :=
  let (db, h) := pssRecoverDb em dbLen zeroBits
  if !pssPaddingOk db PSS_SALT_LEN then false
  else pssHprimeEq mhash (db.drop (dbLen - PSS_SALT_LEN)) h

def emsaPssVerify (em : Bytes) (emBits : ℕ) (mhash : Bytes) : Bool :=
  if pssPrefixBad em mhash.length emBits then false
  else
    let dbLen := pssDbLen em.length mhash.length
    pssDbConsistent em dbLen (pssTopZeroBits em.length emBits) mhash

/-! ## The signature -/

/-- The loop of `rsa_byte_bits`: an octet that is not zero is shifted until its top bit is set. -/
def rsaByteBitsFrom : ℕ → UInt8 → ℕ
  | 0, _ => 0
  | n + 1, b => if b &&& 0x80 = 0 then rsaByteBitsFrom n (b <<< 1) else n + 1

def rsaByteBits (b : UInt8) : ℕ := rsaByteBitsFrom 8 b

def rsaFirstNonzero (n : Bytes) : ℕ := (n.takeWhile (· == 0)).length

def rsaModbits (n : Bytes) : ℕ :=
  let i := rsaFirstNonzero n
  if i = n.length then 0 else (n.length - i - 1) * 8 + rsaByteBits (n.getD i 0)

def pssEF4 : Bn BN_LIMBS := bnZero.setIfInBounds 0 65537

def rsaSizesBad (nLen sigLen hashLen : ℕ) : Bool :=
  if nLen > BN_LIMBS * 8 ∨ hashLen ≠ 32 then true else decide (sigLen ≠ nLen)

def pssInputsOk (nLen : ℕ) (e : Bytes) (sigLen hashLen : ℕ) : Bool :=
  if rsaSizesBad nLen sigLen hashLen then false else rsaEIsF4 e

def rsaRecoverEm (n sig : Bytes) (emLen : ℕ) : Option Bytes :=
  let bnN : Bn BN_LIMBS := bnFromBe n
  let bnS : Bn BN_LIMBS := bnFromBe sig
  if bnCmp bnS bnN ≥ 0 then none
  else
    let m := bnModexp bnS pssEF4 bnN
    some (bnToBe m emLen)

def rsaEmBits (n : Bytes) : ℕ :=
  let modBits := rsaModbits n
  if modBits ≠ 0 then modBits - 1 else 0

def rsaPssVerify (n e sig mhash : Bytes) : Bool :=
  if !pssInputsOk n.length e sig.length mhash.length then false
  else
    let emBits := rsaEmBits n
    let emLen := (emBits + 7) / 8
    match rsaRecoverEm n sig emLen with
    | none => false
    | some em => emsaPssVerify em emBits mhash

/-! ## The standard -/

namespace Rfc8017

/-- MGF1 (B.2.1). -/
def mgf1 (seed : Bytes) (len : ℕ) : Bytes :=
  ((List.range ((len + 31) / 32)).flatMap fun c => (sha256 (seed ++ putBe 4 c)).toList).take len

/-- The leftmost `z` bits of the leftmost octet set to zero. -/
def clearTop (z : ℕ) (bs : Bytes) : Bytes :=
  bs.modifyHead fun b => UInt8.ofNat (b.toNat % 2 ^ (8 - z))

/-- EMSA-PSS-VERIFY (9.1.2): the encoded message is a masked block, a hash and the trailer, and
unmasking the block gives zeros, a one and the salt that went into the hash. -/
def Consistent (mHash em : Bytes) (emBits : ℕ) : Prop :=
  32 + 32 + 2 ≤ em.length ∧
    ∃ maskedDB h salt : Bytes, em = maskedDB ++ (h ++ [0xbc]) ∧ h.length = 32 ∧ salt.length = 32 ∧
      (∀ i < 8 * em.length - emBits, (maskedDB.getD 0 0).toNat.testBit (7 - i) = false) ∧
      clearTop (8 * em.length - emBits) (xorBytes maskedDB (mgf1 h maskedDB.length)) =
        List.replicate (em.length - 32 - 32 - 2) 0 ++ (0x01 :: salt) ∧
      (sha256 (List.replicate 8 0 ++ (mHash ++ salt))).toList = h

/-- The octets of a modulus, and of an encoded message for it. -/
def modLen (n : ℕ) : ℕ := (n.size + 7) / 8
def emLen (n : ℕ) : ℕ := (n.size - 1 + 7) / 8

/-- RSASSA-PSS-VERIFY (8.1.2) with the exponent 65537: the power of the signature has `emLen` octets
and they are consistent. -/
def Accepts (n : ℕ) (sig mHash : Bytes) : Prop :=
  sig.length = modLen n ∧ readBe sig < n ∧ readBe sig ^ 65537 % n < 256 ^ emLen n ∧
    Consistent mHash (putBe (emLen n) (readBe sig ^ 65537 % n)) (n.size - 1)

end Rfc8017

/-! ## The mask is the standard's -/

variable (seed n : Bytes)

theorem mgf1Block_eq (counter : ℕ) :
    mgf1Block seed counter = sha256 (seed ++ putBe 4 counter) := final_update_update seed _

theorem mgf1From_eq {fuel counter left : ℕ} (hfuel : left ≤ fuel)
    (hcounter : counter + left < 2 ^ 32) :
    mgf1From seed fuel counter left =
      ((List.range' counter ((left + 31) / 32)).flatMap
        fun c => (sha256 (seed ++ putBe 4 c)).toList).take left := by
  induction fuel generalizing counter left with
  | zero =>
    obtain rfl := Nat.le_zero.1 hfuel
    rfl
  | succ fuel ih =>
    rw [mgf1From]
    by_cases hleft : left = 0
    · rw [if_pos hleft, hleft, List.take_zero]
    · have hblock : (sha256 (seed ++ putBe 4 counter)).toList.length = 32 := Vector.length_toList
      have hnext : u32 (counter + 1) = counter + 1 := Nat.mod_eq_of_lt (by omega)
      have hcount : (left + 31) / 32 = (left - 32 + 31) / 32 + 1 := by omega
      have hrest : left - min left 32 = left - 32 := by omega
      have htake : (sha256 (seed ++ putBe 4 counter)).toList.take (min left 32) =
          (sha256 (seed ++ putBe 4 counter)).toList.take left := by
        rw [← List.take_take, List.take_of_length_le (Nat.le_of_eq hblock)]
      rw [if_neg hleft]
      dsimp only
      rw [hnext, hrest, ih (by omega) (by omega), mgf1Block_eq, hcount, List.range'_succ,
        List.flatMap_cons, List.take_append, hblock, htake]

/-- **MGF1.** -/
theorem mgf1Sha256_eq {len : ℕ} (h : len < 2 ^ 32) :
    mgf1Sha256 seed len = Rfc8017.mgf1 seed len := by
  rw [mgf1Sha256, mgf1From_eq seed (Nat.le_refl _) (by omega), Rfc8017.mgf1, List.range_eq_range']

/-! ## The encoded message is checked as the standard says -/

variable {z emBits : ℕ} {db mhash h e : Bytes} {b : UInt8}

theorem pssTopBitsClear_iff (top : UInt8) (hz : z ≤ 8) :
    pssTopBitsClear top z = true ↔ ∀ i < z, top.toNat.testBit (7 - i) = false := by
  have hlt : top.toNat < 2 ^ 8 := top.toNat_lt
  have hbit : ∀ j, (top.toNat &&& 0xff <<< (8 - z)).testBit j =
      (top.toNat.testBit j && (decide (8 - z ≤ j) && decide (j - (8 - z) < 8))) := by
    intro j
    rw [Nat.testBit_and, Nat.testBit_shiftLeft, show 0xff = 2 ^ 8 - 1 from rfl,
      Nat.testBit_two_pow_sub_one]
  rw [pssTopBitsClear, beq_iff_eq]
  constructor
  · intro h i hi
    have hj := hbit (7 - i)
    rw [h, Nat.zero_testBit, decide_eq_true (by omega : 8 - z ≤ 7 - i),
      decide_eq_true (by omega : 7 - i - (8 - z) < 8), Bool.and_true, Bool.and_true] at hj
    exact hj.symm
  · intro h
    refine Nat.eq_of_testBit_eq fun j => ?_
    rw [hbit, Nat.zero_testBit]
    by_cases hj : 8 - z ≤ j ∧ j < 8
    · have := h (7 - j) (by omega)
      rw [show 7 - (7 - j) = j by omega] at this
      rw [this, Bool.false_and]
    · by_cases hlow : 8 - z ≤ j
      · have hpow : 2 ^ 8 ≤ 2 ^ j := Nat.pow_le_pow_right (by decide) (by omega)
        rw [Nat.testBit_lt_two_pow (Nat.lt_of_lt_of_le hlt hpow), Bool.false_and]
      · rw [decide_eq_false hlow, Bool.false_and, Bool.and_false]

theorem and_shiftRight (b : UInt8) (hz : z < 8) :
    b &&& UInt8.ofNat (0xff >>> z) = UInt8.ofNat (b.toNat % 2 ^ (8 - z)) := by
  have hmask : ∀ z < 8, 0xff >>> z = 2 ^ (8 - z) - 1 := by decide
  have hsmall : 2 ^ (8 - z) ≤ 2 ^ 8 := Nat.pow_le_pow_right (by decide) (by omega)
  have hpos : 0 < 2 ^ (8 - z) := Nat.pow_pos (by decide)
  have hmod : b.toNat % 2 ^ (8 - z) < 2 ^ (8 - z) := Nat.mod_lt _ hpos
  apply UInt8.toNat_inj.1
  rw [UInt8.toNat_and, UInt8.toNat_ofNat', UInt8.toNat_ofNat', hmask z hz,
    Nat.mod_eq_of_lt (by omega : 2 ^ (8 - z) - 1 < 2 ^ 8), Nat.and_two_pow_sub_one_eq_mod,
    Nat.mod_eq_of_lt (Nat.lt_of_lt_of_le hmod hsmall)]

/-- **Unmasking.** -/
theorem pssUnmaskDb_eq (hdb : db.length < 2 ^ 32) (h : Bytes) (hz : z < 8) :
    pssUnmaskDb db h z = Rfc8017.clearTop z (xorBytes db (Rfc8017.mgf1 h db.length)) := by
  rw [pssUnmaskDb, mgf1Sha256_eq h hdb, Rfc8017.clearTop]
  simp only [and_shiftRight _ hz]

/-- **The padding** in front of a salt. -/
theorem pssPaddingOk_iff (h : 33 ≤ db.length) :
    pssPaddingOk db 32 = true ↔
      db = List.replicate (db.length - 33) 0 ++ (0x01 :: db.drop (db.length - 32)) := by
  have hone : db.length - 32 - 1 = db.length - 33 := by omega
  have hsplit : db = db.take (db.length - 33) ++ (db.getD (db.length - 33) 0 ::
      db.drop (db.length - 32)) := by
    rw [List.getD_eq_getElem _ _ (by omega), show db.length - 32 = db.length - 33 + 1 by omega,
      ← List.drop_eq_getElem_cons, List.take_append_drop]
  rw [pssPaddingOk, hone, Bool.and_eq_true, List.all_eq_true, beq_iff_eq]
  constructor
  · rintro ⟨hzeros, hlast⟩
    have htake : db.take (db.length - 33) = List.replicate (db.length - 33) 0 := by
      rw [List.eq_replicate_iff]
      exact ⟨by rw [List.length_take]; omega, fun b hb => by simpa using hzeros b hb⟩
    rw [htake, hlast] at hsplit
    exact hsplit
  · intro hdb
    have hlen : (List.replicate (db.length - 33) (0 : UInt8)).length = db.length - 33 :=
      List.length_replicate
    constructor
    · intro b hb
      have htake := congrArg (List.take (db.length - 33)) hdb
      rw [List.take_left' hlen] at htake
      rw [htake] at hb
      simpa using (List.mem_replicate.1 hb).2
    · have hget := congrArg (List.getD · (db.length - 33) 0) hdb
      rwa [List.getD_append_right _ _ _ _ (Nat.le_of_eq hlen), hlen, Nat.sub_self,
        List.getD_cons_zero] at hget

theorem length_mgf1 (len : ℕ) : (Rfc8017.mgf1 seed len).length = len := by
  have hblocks : ∀ n, ((List.range n).flatMap fun c =>
      (sha256 (seed ++ putBe 4 c)).toList).length = 32 * n := by
    intro n
    induction n with
    | zero => rfl
    | succ n ih =>
      rw [List.range_succ, List.flatMap_append, List.length_append, ih, List.flatMap_singleton,
        Vector.length_toList, Nat.mul_succ]
  rw [Rfc8017.mgf1, List.length_take, hblocks]
  omega

theorem length_clearTop (z : ℕ) (bs : Bytes) : (Rfc8017.clearTop z bs).length = bs.length :=
  List.length_modifyHead

/-- **The second hash.** -/
theorem pssHprimeEq_iff (hhash : mhash.length = 32) (hh : h.length = 32) (salt : Bytes) :
    pssHprimeEq mhash salt h = true ↔
      (sha256 (List.replicate 8 0 ++ (mhash ++ salt))).toList = h := by
  rw [pssHprimeEq, List.take_of_length_le (Nat.le_of_eq hhash),
    Sha256.update_update Sha256.length_buf_init, final_update_update, List.append_assoc,
    ctEqual_iff Vector.length_toList hh]

theorem pssSizesBad_eq (emLen : ℕ) :
    pssSizesBad emLen 32 = decide (emLen < 66 ∨ 512 < emLen) := by
  rw [pssSizesBad, PSS_MAX_EM, PSS_SALT_LEN]
  by_cases h : 512 < emLen
  · rw [if_pos (Or.inr h), decide_eq_true (Or.inr h)]
  · rw [if_neg (by omega)]
    exact decide_eq_decide.2 (by omega)

/-- **The checks on the parts of an encoded message.** -/
theorem emsaPssVerify_parts {t : UInt8} (hdb : 33 ≤ db.length ∧ db.length ≤ 479)
    (hh : h.length = 32) (hhash : mhash.length = 32) (hemBits : 8 * (db.length + 33) - emBits = z)
    (hz : z < 8) :
    emsaPssVerify (db ++ (h ++ [t])) emBits mhash = true ↔
      t = 0xbc ∧ (∀ i < z, (db.getD 0 0).toNat.testBit (7 - i) = false) ∧
        ∃ salt : Bytes, salt.length = 32 ∧
          Rfc8017.clearTop z (xorBytes db (Rfc8017.mgf1 h db.length)) =
            List.replicate (db.length - 33) 0 ++ (0x01 :: salt) ∧
          (sha256 (List.replicate 8 0 ++ (mhash ++ salt))).toList = h := by
  have hlen : (db ++ (h ++ [t])).length = db.length + 33 := by
    rw [List.length_append, List.length_append, hh, List.length_singleton]
  have hlast : (db ++ (h ++ [t])).getD (db.length + 32) 0 = t := by
    have hfront : (db ++ h).length = db.length + 32 := by rw [List.length_append, hh]
    rw [← List.append_assoc, List.getD_append_right _ _ _ _ (Nat.le_of_eq hfront), hfront,
      Nat.sub_self, List.getD_cons_zero]
  have hfirst : (db ++ (h ++ [t])).getD 0 0 = db.getD 0 0 := List.getD_append _ _ _ _ (by omega)
  have hunmask : (Rfc8017.clearTop z (xorBytes db (Rfc8017.mgf1 h db.length))).length =
      db.length := by
    rw [length_clearTop, length_xorBytes, length_mgf1, Nat.min_self]
  have hsizes : pssSizesBad (db.length + 33) 32 = false := by
    rw [pssSizesBad_eq, decide_eq_false_iff_not]
    omega
  rw [emsaPssVerify, pssPrefixBad, hlen, hhash, hsizes, pssTopZeroBits, hemBits,
    show db.length + 33 - 1 = db.length + 32 by omega, hlast, hfirst,
    pssDbLen, show db.length + 33 - 32 - 1 = db.length by omega]
  simp only [pssDbConsistent, pssRecoverDb, List.take_left, List.drop_left, List.take_left' hh, PSS_SALT_LEN,
    pssUnmaskDb_eq (show db.length < 2 ^ 32 by omega) h hz]
  generalize Rfc8017.clearTop z (xorBytes db (Rfc8017.mgf1 h db.length)) = dbu at hunmask ⊢
  have hpadding : pssPaddingOk dbu 32 = true ↔ _ := pssPaddingOk_iff (by omega)
  rw [hunmask] at hpadding
  have hchecks : (if (if false = true then true
      else if t ≠ 0xbc then true else !pssTopBitsClear (db.getD 0 0) z) = true then false
      else if (!pssPaddingOk dbu 32) = true then false
      else pssHprimeEq mhash (dbu.drop (db.length - 32)) h) = true ↔
        t = 0xbc ∧ pssTopBitsClear (db.getD 0 0) z = true ∧ pssPaddingOk dbu 32 = true ∧
          pssHprimeEq mhash (dbu.drop (db.length - 32)) h = true := by
    by_cases ht : t = 0xbc
    · simp [ht]
    · simp [ht]
  rw [hchecks, pssTopBitsClear_iff _ (Nat.le_of_lt hz), hpadding, pssHprimeEq_iff hhash hh]
  constructor
  · rintro ⟨ht, htop, hpad, hprime⟩
    exact ⟨ht, htop, dbu.drop (db.length - 32), by rw [List.length_drop]; omega, hpad, hprime⟩
  · rintro ⟨ht, htop, salt, hsalt, hpad, hprime⟩
    have hdrop : dbu.drop (db.length - 32) = salt := by
      rw [hpad, ← List.singleton_append, ← List.append_assoc]
      refine List.drop_left' ?_
      rw [List.length_append, List.length_replicate, List.length_singleton]
      omega
    exact ⟨ht, htop, by rw [hdrop]; exact hpad, by rw [hdrop]; exact hprime⟩

/-- **EMSA-PSS-VERIFY.** -/
theorem emsaPssVerify_iff {em : Bytes} (hem : em.length ≤ 512) (hz : 8 * em.length - emBits < 8)
    (hhash : mhash.length = 32) :
    emsaPssVerify em emBits mhash = true ↔ Rfc8017.Consistent mhash em emBits := by
  by_cases hshort : em.length < 66
  · have hbad : pssPrefixBad em 32 emBits = true := by
      rw [pssPrefixBad, pssSizesBad_eq, decide_eq_true (Or.inl hshort), if_pos rfl]
    rw [emsaPssVerify, hhash, hbad, if_pos rfl]
    exact ⟨fun h => absurd h (by decide), fun h => absurd h.1 (by omega)⟩
  · obtain ⟨db, h, t, rfl, hh⟩ : ∃ (db h : Bytes) (t : UInt8), em = db ++ (h ++ [t]) ∧
        h.length = 32 := by
      refine ⟨em.take (em.length - 33), (em.drop (em.length - 33)).take 32,
        em.getD (em.length - 1) 0, ?_, by rw [List.length_take, List.length_drop]; omega⟩
      have hlast : (em.drop (em.length - 33)).drop 32 = [em.getD (em.length - 1) 0] := by
        rw [List.drop_drop, show em.length - 33 + 32 = em.length - 1 by omega,
          List.drop_length_sub_one (List.ne_nil_of_length_pos (by omega)), List.getLast_eq_getElem,
          List.getD_eq_getElem]
      rw [← hlast, List.take_append_drop, List.take_append_drop]
    have hlen : (db ++ (h ++ [t])).length = db.length + 33 := by
      rw [List.length_append, List.length_append, hh, List.length_singleton]
    rw [hlen] at hem hz hshort
    rw [emsaPssVerify_parts (by omega) hh hhash rfl hz, Rfc8017.Consistent, hlen,
      show db.length + 33 - 32 - 32 - 2 = db.length - 33 by omega]
    constructor
    · rintro ⟨rfl, htop, salt, hsalt, hpad, hprime⟩
      exact ⟨by omega, db, h, salt, rfl, hh, hsalt, htop, hpad, hprime⟩
    · rintro ⟨-, db', h', salt, heq, hh', hsalt, htop, hpad, hprime⟩
      obtain ⟨hrest, hlast⟩ := List.append_inj' heq (by
        rw [List.length_append, List.length_append, hh, hh', List.length_singleton,
          List.length_singleton])
      obtain ⟨rfl, ht⟩ := List.append_inj hlast (hh.trans hh'.symm)
      subst hrest
      exact ⟨List.head_eq_of_cons_eq ht, htop, salt, hsalt, hpad, hprime⟩

/-! ## The bit length of the modulus -/

theorem and_top_eq_zero_iff (b : UInt8) : b &&& 0x80 = 0 ↔ b.toNat < 128 := by
  have hlt := b.toNat_lt
  rw [← UInt8.toNat_inj, UInt8.toNat_and, show (0x80 : UInt8).toNat = 2 ^ 7 from rfl,
    Nat.and_two_pow, Nat.testBit_eq_decide_div_mod_eq, UInt8.toNat_zero]
  by_cases h : b.toNat < 128
  · rw [Nat.div_eq_of_lt h]
    exact iff_of_true rfl h
  · rw [show b.toNat / 2 ^ 7 = 1 by omega]
    exact iff_of_false (by decide) h

theorem rsaByteBitsFrom_eq {n c : ℕ} (hn : n ≤ 8) (hb : b.toNat = c * 2 ^ (8 - n)) (hc : 0 < c) :
    rsaByteBitsFrom n b = c.size := by
  have hlt : b.toNat < 2 ^ 8 := b.toNat_lt
  induction n generalizing b with
  | zero => omega
  | succ n ih =>
    have hshift : 2 ^ (8 - n) = 2 ^ (8 - (n + 1)) * 2 := by rw [← Nat.pow_succ]; congr 1; omega
    rw [rsaByteBitsFrom]
    by_cases htop : b &&& 0x80 = 0
    · have hsmall := (and_top_eq_zero_iff b).1 htop
      have hdouble : (b <<< 1).toNat = b.toNat * 2 := by
        rw [UInt8.toNat_shiftLeft, show (1 : UInt8).toNat % 8 = 1 from rfl, Nat.shiftLeft_eq,
          Nat.pow_one, Nat.mod_eq_of_lt (by omega)]
      rw [if_pos htop]
      refine ih (by omega) ?_ (by omega)
      rw [hdouble, hb, hshift, Nat.mul_assoc]
    · have hlarge : 2 ^ 7 ≤ b.toNat := by
        rw [and_top_eq_zero_iff] at htop
        omega
      have hpos : 0 < 2 ^ (8 - (n + 1)) := Nat.pow_pos (by decide)
      have hlow : 2 ^ n * 2 ^ (8 - (n + 1)) = 2 ^ 7 := by rw [← Nat.pow_add]; congr 1; omega
      have hhigh : 2 ^ (n + 1) * 2 ^ (8 - (n + 1)) = 2 ^ 8 := by rw [← Nat.pow_add]; congr 1; omega
      rw [if_neg htop]
      refine Nat.le_antisymm (Nat.lt_size.2 ?_) (Nat.size_le.2 ?_)
      · exact Nat.le_of_mul_le_mul_right (by rw [hlow, ← hb]; exact hlarge) hpos
      · exact Nat.lt_of_mul_lt_mul_right (a := 2 ^ (8 - (n + 1))) (by rw [hhigh, ← hb]; exact hlt)

theorem rsaByteBits_eq (hb : b ≠ 0) : rsaByteBits b = b.toNat.size :=
  rsaByteBitsFrom_eq (Nat.le_refl 8) (by rw [Nat.sub_self, Nat.pow_zero, Nat.mul_one])
    (Nat.pos_of_ne_zero fun h => hb (UInt8.toNat_inj.1 h))

theorem size_mul_add {b k r : ℕ} (hb : 0 < b) (hr : r < 256 ^ k) :
    (b * 256 ^ k + r).size = k * 8 + b.size := by
  have hpow : 256 ^ k = 2 ^ (k * 8) := by rw [Nat.mul_comm, Nat.pow_mul]
  have hsize : 0 < b.size := Nat.size_pos.2 hb
  have hlow : 2 ^ (b.size - 1) ≤ b := Nat.lt_size.1 (by omega)
  have hhigh : b < 2 ^ b.size := Nat.lt_size_self b
  rw [hpow] at hr ⊢
  refine Nat.le_antisymm (Nat.size_le.2 ?_) ?_
  · calc b * 2 ^ (k * 8) + r < (b + 1) * 2 ^ (k * 8) := by rw [Nat.succ_mul]; omega
      _ ≤ 2 ^ b.size * 2 ^ (k * 8) := Nat.mul_le_mul_right _ hhigh
      _ = 2 ^ (k * 8 + b.size) := by rw [Nat.pow_add, Nat.mul_comm]
  · have hstep : k * 8 + (b.size - 1) < (b * 2 ^ (k * 8) + r).size := by
      rw [Nat.lt_size]
      calc 2 ^ (k * 8 + (b.size - 1)) = 2 ^ (b.size - 1) * 2 ^ (k * 8) := by
            rw [Nat.pow_add, Nat.mul_comm]
        _ ≤ b * 2 ^ (k * 8) := Nat.mul_le_mul_right _ hlow
        _ ≤ b * 2 ^ (k * 8) + r := Nat.le_add_right _ _
    omega

/-- **The bit length** of the modulus, leading zero octets or not. -/
theorem rsaModbits_eq : rsaModbits n = (readBe n).size := by
  induction n with
  | nil => rfl
  | cons b n ih =>
    rw [readBe_cons]
    by_cases hb : b = 0
    · subst hb
      have hfirst : rsaFirstNonzero (0 :: n) = rsaFirstNonzero n + 1 := rfl
      rw [UInt8.toNat_zero, Nat.zero_mul, Nat.zero_add, ← ih, rsaModbits, rsaModbits, hfirst,
        List.length_cons, List.getD_cons_succ, Nat.add_sub_add_right]
      simp only [Nat.add_right_cancel_iff]
    · have hfirst : rsaFirstNonzero (b :: n) = 0 := by
        rw [rsaFirstNonzero, List.takeWhile_cons_of_neg (by simpa using hb), List.length_nil]
      have hpos : 0 < b.toNat := Nat.pos_of_ne_zero fun h => hb (UInt8.toNat_inj.1 h)
      rw [size_mul_add hpos (readBe_lt n), ← rsaByteBits_eq hb, rsaModbits, hfirst, if_neg nofun,
        List.length_cons, List.getD_cons_zero]
      rfl

theorem rsaEmBits_eq : rsaEmBits n = (readBe n).size - 1 := by
  rw [rsaEmBits, rsaModbits_eq]
  split
  · rfl
  · omega

theorem size_readBe_le : (readBe n).size ≤ 8 * n.length := by
  rw [Nat.size_le, Nat.pow_mul]
  exact readBe_lt n

/-! ## The verifier -/

theorem pssInputsOk_iff {nLen sigLen : ℕ} :
    pssInputsOk nLen e sigLen 32 = true ↔
      nLen ≤ 512 ∧ sigLen = nLen ∧ e = [0x01, 0x00, 0x01] := by
  rw [pssInputsOk, rsaSizesBad, BN_LIMBS]
  by_cases hn : nLen ≤ 512
  · by_cases hlen : sigLen = nLen
    · simp [hn, hlen, rsaEIsF4_iff]
    · simp [hn, hlen]
  · simp [hn]

/-- **What the code accepts**: the low octets of the power are a consistent encoded message. -/
theorem rsaPssVerify_iff {n sig : Bytes} (hhash : mhash.length = 32) :
    rsaPssVerify n e sig mhash = true ↔
      n.length ≤ 512 ∧ sig.length = n.length ∧ e = [0x01, 0x00, 0x01] ∧ readBe sig < readBe n ∧
        Rfc8017.Consistent mhash
          (putBe (Rfc8017.emLen (readBe n)) (readBe sig ^ 65537 % readBe n))
          ((readBe n).size - 1) := by
  rw [rsaPssVerify, hhash]
  by_cases hok : pssInputsOk n.length e sig.length 32 = true
  · obtain ⟨hn, hlen, he⟩ := pssInputsOk_iff.1 hok
    have hbits : 8 * BN_LIMBS = 512 := rfl
    have hvn : val (bnFromBe n : Bn BN_LIMBS) = readBe n := val_bnFromBe (by omega)
    have hvs : val (bnFromBe sig : Bn BN_LIMBS) = readBe sig := val_bnFromBe (by omega)
    rw [hok, Bool.not_true, if_neg (by decide)]
    simp only [rsaRecoverEm, ge_iff_le, bnCmp_nonneg_iff, hvn, hvs, rsaEmBits_eq]
    by_cases hlt : readBe sig < readBe n
    · have hpow : val (bnModexp (bnFromBe sig : Bn BN_LIMBS) pssEF4 (bnFromBe n)) = _ :=
        val_bnModexp (by omega) (Or.inr (by rw [show val pssEF4 = _ from val_rsaEF4]; decide))
      rw [hvn, hvs, show val pssEF4 = _ from val_rsaEF4] at hpow
      have hsize := size_readBe_le n
      have hpos : 0 < (readBe n).size := Nat.size_pos.2 (by omega)
      rw [if_neg (by omega)]
      dsimp only
      rw [bnToBe_eq, hpow, emsaPssVerify_iff (by rw [length_putBe]; omega)
        (by rw [length_putBe]; omega) hhash]
      exact ⟨fun h => ⟨hn, hlen, he, hlt, h⟩, fun h => h.2.2.2.2⟩
    · rw [if_pos (by omega)]
      exact ⟨fun h => absurd h Bool.false_ne_true, fun h => absurd h.2.2.2.1 hlt⟩
  · rw [Bool.not_eq_true] at hok
    rw [hok, Bool.not_false, if_pos rfl]
    refine ⟨fun h => absurd h (by decide), fun h => ?_⟩
    rw [pssInputsOk_iff.2 ⟨h.1, h.2.1, h.2.2.1⟩] at hok
    cases hok

theorem modLen_eq_emLen {n : ℕ} (h : n.size % 8 ≠ 1) : Rfc8017.modLen n = Rfc8017.emLen n := by
  rw [Rfc8017.modLen, Rfc8017.emLen]
  omega

theorem lt_pow_emLen {n x : ℕ} (h : n.size % 8 ≠ 1) (hx : x < n) : x < 256 ^ Rfc8017.emLen n := by
  have hsize : n.size ≤ 8 * Rfc8017.modLen n := by
    rw [Rfc8017.modLen]
    omega
  calc x < n := hx
    _ < 2 ^ n.size := Nat.lt_size_self n
    _ ≤ 2 ^ (8 * Rfc8017.modLen n) := Nat.pow_le_pow_right (by decide) hsize
    _ = 256 ^ Rfc8017.emLen n := by rw [Nat.pow_mul, modLen_eq_emLen h]

/-- **Where the code is the standard.** Only a signature below the modulus whose power ends in a
consistent encoded message can tell them apart. The code accepts it if it is as long as the modulus
was given and that fits its numbers; the standard, if it is as long as the modulus is and, for a
modulus with one bit in its first octet, the power has nothing in front of the encoded message. -/
theorem rsa_pss_exact_iff (n sig : Bytes) (mhash : Digest) :
    (rsaPssVerify n [0x01, 0x00, 0x01] sig mhash.toList = true ↔
        Rfc8017.Accepts (readBe n) sig mhash.toList) ↔
      (readBe sig < readBe n →
        Rfc8017.Consistent mhash.toList
          (putBe (Rfc8017.emLen (readBe n)) (readBe sig ^ 65537 % readBe n))
          ((readBe n).size - 1) →
        (n.length ≤ 512 ∧ sig.length = n.length ↔
          sig.length = Rfc8017.modLen (readBe n) ∧
            ((readBe n).size % 8 = 1 →
              readBe sig ^ 65537 % readBe n < 256 ^ Rfc8017.emLen (readBe n)))) := by
  rw [rsaPssVerify_iff Vector.length_toList, Rfc8017.Accepts]
  have hfits : readBe sig < readBe n →
      (((readBe n).size % 8 = 1 →
          readBe sig ^ 65537 % readBe n < 256 ^ Rfc8017.emLen (readBe n)) ↔
        readBe sig ^ 65537 % readBe n < 256 ^ Rfc8017.emLen (readBe n)) := by
    intro hlt
    refine ⟨fun h => ?_, fun h _ => h⟩
    by_cases hsize : (readBe n).size % 8 = 1
    · exact h hsize
    · exact lt_pow_emLen hsize (Nat.mod_lt _ (by omega))
  constructor
  · intro h hlt hcons
    rw [hfits hlt]
    exact ⟨fun hcode => (h.1 ⟨hcode.1, hcode.2, rfl, hlt, hcons⟩).imp id fun hrest => hrest.2.1,
      fun hrfc => ((h.2 ⟨hrfc.1, hlt, hrfc.2, hcons⟩).imp id And.left)⟩
  · intro h
    constructor
    · rintro ⟨hlen, hsig, -, hlt, hcons⟩
      have hrfc := (h hlt hcons).1 ⟨hlen, hsig⟩
      exact ⟨hrfc.1, hlt, (hfits hlt).1 hrfc.2, hcons⟩
    · rintro ⟨hsig, hlt, hfit, hcons⟩
      have hcode := (h hlt hcons).2 ⟨hsig, fun _ => hfit⟩
      exact ⟨hcode.1, hcode.2, rfl, hlt, hcons⟩

/-- A modulus of 529 bits: 67 octets, and 66 for the encoded message. -/
def pssModulus : ℕ :=
  0x1ffffffffffffffffac25cfec560de32cb483c236b535afb21c060fd7ac47e83204adbb134db5a99d243628e76c5838fdb5b161e252b73af900ab193b19de024b38eb

/-- A signature for it. -/
def pssSignature : ℕ :=
  0x1be84a07dc65a245aa8e5f183bd0d6fe89c44a4ba9d01baa41ae0f0a8d1ab443e4044b927947219f9bcb1696ed85393ff250d9688a64626b4d60e24ab2f471cacce71

/-- The masked block and the hash of the encoded message of the hash `0` with the salt `0`. -/
def pssMaskedDb : Bytes :=
  putBe 33 0xf412ee0018fd19d519d51f3a817cbf8abc8732586fa8faf13bed5c0b610b975b1f
def pssHash : Bytes :=
  putBe 32 0x834a709ba2534ebe3ee1397fd4f7bd288b2acc1d20a08d6c862dcd99b6f04400

theorem size_pssModulus : pssModulus.size = 529 :=
  Nat.le_antisymm (Nat.size_le.2 (by decide +kernel)) (Nat.lt_size.2 (by decide +kernel))

theorem le_pssSignature_pow : 256 ^ 66 ≤ pssSignature ^ 65537 % pssModulus := by
  rw [← Primality.powMod_eq pssModulus (show 65537 < 2 ^ 17 by decide)]
  decide

theorem putBe_pssSignature_pow :
    putBe 66 (pssSignature ^ 65537 % pssModulus) = pssMaskedDb ++ (pssHash ++ [0xbc]) := by
  rw [← Primality.powMod_eq pssModulus (show 65537 < 2 ^ 17 by decide)]
  decide

theorem consistent_pssMessage :
    Rfc8017.Consistent (List.replicate 32 0) (pssMaskedDb ++ (pssHash ++ [0xbc])) 528 := by
  have hmask : Rfc8017.mgf1 pssHash 33 = (Sha256.hashBytes (pssHash ++ putBe 4 0) ++
      Sha256.hashBytes (pssHash ++ putBe 4 1)).take 33 := by
    rw [← toList_sha256, ← toList_sha256]
    rfl
  refine ⟨by decide, pssMaskedDb, pssHash, List.replicate 32 0, rfl, by decide, by decide,
    fun i hi => absurd hi (by decide +revert), ?_, ?_⟩
  · rw [show pssMaskedDb.length = 33 by decide, hmask]
    decide +kernel
  · rw [toList_sha256]
    decide +kernel

/-- **A power that is too long is cut.** The code accepts a signature whose power does not fit the
encoded message. -/
theorem rsaPssVerify_cuts_power :
    rsaPssVerify (putBe 67 pssModulus) [0x01, 0x00, 0x01] (putBe 67 pssSignature)
        (List.replicate 32 0) = true ∧
      ¬ Rfc8017.Accepts (readBe (putBe 67 pssModulus)) (putBe 67 pssSignature)
        (List.replicate 32 0) := by
  have hn : readBe (putBe 67 pssModulus) = pssModulus := by
    rw [readBe_putBe, Nat.mod_eq_of_lt (by decide)]
  have hs : readBe (putBe 67 pssSignature) = pssSignature := by
    rw [readBe_putBe, Nat.mod_eq_of_lt (by decide)]
  have hlen : Rfc8017.emLen pssModulus = 66 := by rw [Rfc8017.emLen, size_pssModulus]
  constructor
  · rw [rsaPssVerify_iff List.length_replicate, hn, hs, hlen, putBe_pssSignature_pow,
      size_pssModulus, length_putBe, length_putBe]
    exact ⟨by decide, rfl, rfl, by decide, consistent_pssMessage⟩
  · rintro ⟨-, -, hfit, -⟩
    rw [hn, hs, hlen] at hfit
    exact absurd le_pssSignature_pow (Nat.not_le.2 hfit)

end Rsa

end Crypto

end QuicVibe
