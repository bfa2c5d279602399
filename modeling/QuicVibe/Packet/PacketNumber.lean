import QuicVibe.Packet.Header
/-!
# Packet numbers on the wire

A packet carries the low bytes of its number, as many as the sender takes to be enough
(`quic_pnum_len`), and the receiver completes them to the number nearest to the one it expects
(`quic_pnum_decode`). Where the algorithm of RFC 9000 A.3 stays below `2 ^ 62`, the code tests for an
overflow of its 64-bit word.
-/

namespace QuicVibe

namespace Packet

/-! ## The length -/

/-- The loop of `quic_pnum_len`, with the number of bytes still to try. -/
def pnumLenFrom (need : ℕ) : ℕ → ℕ → ℕ
  | 0, b => b
  | n + 1, b => if need ≥ 2 ^ (8 * b) then pnumLenFrom need n (b + 1) else b

/-- `quic_pnum_len`: the fewest bytes, from one to four, that cover twice the distance to the largest
acknowledged number. -/
def pnumLen (fullPn largestAcked : ℕ) : ℕ := pnumLenFrom (u64 (sub64 fullPn largestAcked * 2)) 3 1

variable {n pn expected win largest : ℕ} {buf : Bytes}

theorem pnumLenFrom_covers {need b : ℕ} (h : need < 2 ^ (8 * (b + n))) :
    need < 2 ^ (8 * pnumLenFrom need n b) := by
  induction n generalizing b with
  | zero => exact h
  | succ n ih =>
    rw [pnumLenFrom]
    split
    · exact ih (by rwa [Nat.add_assoc, Nat.add_comm 1])
    · omega

theorem pnumLenFrom_mem (need n b : ℕ) :
    b ≤ pnumLenFrom need n b ∧ pnumLenFrom need n b ≤ b + n := by
  induction n generalizing b with
  | zero => exact ⟨Nat.le_refl _, Nat.le_refl _⟩
  | succ n ih =>
    rw [pnumLenFrom]
    split
    · have := ih (b + 1)
      omega
    · omega

theorem pnumLen_mem (fullPn largestAcked : ℕ) :
    1 ≤ pnumLen fullPn largestAcked ∧ pnumLen fullPn largestAcked ≤ 4 :=
  pnumLenFrom_mem _ 3 1

theorem pnumLen_covers {la : ℕ} (hla : la < pn) (hpn : pn < 2 ^ 64) (hnear : pn - la < 2 ^ 31) :
    2 * (pn - la) < 2 ^ (8 * pnumLen pn la) := by
  have hneed : u64 (sub64 pn la * 2) = 2 * (pn - la) := by
    rw [sub64_of_le hla.le hpn, u64_of_lt (by omega), Nat.mul_comm]
  rw [pnumLen, hneed]
  exact pnumLenFrom_covers (by omega)

/-! ## The nearest candidate -/

theorem nearest_of_lt {candidate : ℕ} (hwin : 0 < win) (hc : candidate + win < 2 ^ 64)
    (he : expected + win < 2 ^ 64) :
    nearest candidate expected win =
      if candidate + win / 2 ≤ expected then candidate + win
      else if candidate > expected + win / 2 ∧ candidate ≥ win then candidate - win
      else candidate := by
  have h₁ : u64 (candidate + win / 2) = candidate + win / 2 := u64_of_lt (by omega)
  have h₂ : u64 (candidate + win) = candidate + win := u64_of_lt hc
  have h₃ : u64 (expected + win / 2) = expected + win / 2 := u64_of_lt (by omega)
  simp only [nearest, belowWindow, aboveWindow, h₁, h₂, h₃, Bool.and_eq_true, decide_eq_true_eq]
  by_cases hbelow : candidate + win / 2 ≤ expected
  · rw [if_pos ⟨hbelow, by omega⟩, if_pos hbelow]
  · rw [if_neg fun h => hbelow h.1, if_neg hbelow]
    by_cases habove : candidate > expected + win / 2 ∧ candidate ≥ win
    · rw [if_pos habove, if_pos habove, sub64_of_le habove.2 (by omega)]
    · rw [if_neg habove, if_neg habove]

theorem window_cases (h₁ : 1 ≤ n) (h₄ : n ≤ 4) :
    2 ^ (n * 8) = 2 ^ 8 ∨ 2 ^ (n * 8) = 2 ^ 16 ∨ 2 ^ (n * 8) = 2 ^ 24 ∨ 2 ^ (n * 8) = 2 ^ 32 := by
  obtain rfl | rfl | rfl | rfl : n = 1 ∨ n = 2 ∨ n = 3 ∨ n = 4 := by omega
  · exact .inl rfl
  · exact .inr (.inl rfl)
  · exact .inr (.inr (.inl rfl))
  · exact .inr (.inr (.inr rfl))

/-- **The number within half a window of the expected one** is the nearest candidate: below by less
than half a window, above by at most half. -/
theorem nearest_eq (heven : win / 2 * 2 = win) (hwin : 0 < win) (hsmall : win ≤ 2 ^ 32)
    (hspace : pn < 2 ^ 63) (hbelow : expected < pn + win / 2) (habove : pn ≤ expected + win / 2) :
    nearest (expected / win * win + pn % win) expected win = pn := by
  have he := Nat.div_add_mod' expected win
  have hp := Nat.div_add_mod' pn win
  have hemod := Nat.mod_lt expected hwin
  have hpmod := Nat.mod_lt pn hwin
  rw [nearest_of_lt hwin (by omega) (by omega)]
  -- the windows of the two numbers are the same or neighbours
  obtain hq | hq | hq : expected / win = pn / win ∨ expected / win + 1 = pn / win ∨
      expected / win = pn / win + 1 := by
    have h₁ : expected / win < pn / win + 2 := by
      rw [Nat.div_lt_iff_lt_mul hwin, Nat.add_mul]
      omega
    have h₂ : pn / win < expected / win + 2 := by
      rw [Nat.div_lt_iff_lt_mul hwin, Nat.add_mul]
      omega
    omega
  · rw [hq, if_neg (by omega), if_neg (by omega)]
    exact hp
  · have hnext : pn / win * win = expected / win * win + win := by
      rw [← hq, Nat.add_mul, Nat.one_mul]
    rw [if_pos (by omega)]
    omega
  · have hnext : expected / win * win = pn / win * win + win := by
      rw [hq, Nat.add_mul, Nat.one_mul]
    rw [if_neg (by omega), if_pos ⟨by omega, by omega⟩]
    omega

/-- **Truncation round trip.** A number sent in the length the sender chooses is recovered by every
receiver that is at least as far as the acknowledgements and less than half a window ahead. -/
theorem pnumDecode_pnumEncode {pn la largest : ℕ} (hspace : pn < 2 ^ 63) (hla : la < pn)
    (hnear : pn - la < 2 ^ 31) (hreceived : la ≤ largest)
    (hahead : largest < pn + 2 ^ (8 * pnumLen pn la) / 2 - 1) :
    pnumDecode (pnumEncode pn (pnumLen pn la)) largest = pn := by
  have hcovers := pnumLen_covers hla (by omega) hnear
  obtain ⟨h₁, h₄⟩ := pnumLen_mem pn la
  rw [Nat.mul_comm 8] at hcovers hahead
  have hbytes : 256 ^ pnumLen pn la = 2 ^ (pnumLen pn la * 8) := by
    rw [Nat.mul_comm, Nat.pow_mul]
  have hwin := window_cases h₁ h₄
  simp only [pnumDecode, pnumEncode, length_putBe, readBe_putBe, hbytes]
  generalize 2 ^ (pnumLen pn la * 8) = win at hwin hcovers hahead
  have hexpected : u64 (largest + 1) = largest + 1 := u64_of_lt (by omega)
  rw [hexpected]
  exact nearest_eq (by omega) (by omega) (by omega) hspace (by omega) (by omega)

/-- Packet 300 with nothing acknowledged takes two bytes, and a receiver that has packet 299
recovers it. -/
theorem pnumDecode_pnumEncode_300 :
    pnumLen 300 0 = 2 ∧ pnumDecode (pnumEncode 300 (pnumLen 300 0)) 299 = 300 :=
  ⟨by decide, pnumDecode_pnumEncode (by decide) (by decide) (by decide) (by decide) (by decide)⟩

/-! ## RFC 9000 A.3 -/

/-- `DecodePacketNumber` of RFC 9000 A.3, on integers. -/
def rfcDecodePacketNumber (largestPn truncatedPn pnNbits : ℕ) : ℤ :=
  let expectedPn : ℤ := largestPn + 1
  let pnWin : ℤ := 2 ^ pnNbits
  let pnHwin : ℤ := pnWin / 2
  let candidatePn : ℤ := expectedPn / pnWin * pnWin + truncatedPn
  if candidatePn ≤ expectedPn - pnHwin ∧ candidatePn < 2 ^ 62 - pnWin then candidatePn + pnWin
  else if candidatePn > expectedPn + pnHwin ∧ candidatePn ≥ pnWin then candidatePn - pnWin
  else candidatePn

/-- What the recovered number has to be: the A.3 result, with the truncated bits, in the packet
number space, and no farther from the expected number than any other such number. -/
structure Recovers (buf : Bytes) (largest pn : ℕ) : Prop where
  rfc : (pn : ℤ) = rfcDecodePacketNumber largest (readBe buf) (buf.length * 8)
  bits : pn % 2 ^ (buf.length * 8) = readBe buf
  space : pn < 2 ^ 62
  closest : ∀ n < 2 ^ 62, n % 2 ^ (buf.length * 8) = readBe buf →
    Nat.dist pn (largest + 1) ≤ Nat.dist n (largest + 1)

theorem pnumDecode_eq (h₁ : 1 ≤ buf.length) (h₄ : buf.length ≤ 4) (hspace : largest < 2 ^ 62)
    (htrunc : readBe buf < 2 ^ (buf.length * 8)) :
    pnumDecode buf largest =
      let win := 2 ^ (buf.length * 8)
      let candidate := (largest + 1) / win * win + readBe buf
      if candidate + win / 2 ≤ largest + 1 then candidate + win
      else if candidate > largest + 1 + win / 2 ∧ candidate ≥ win then candidate - win
      else candidate := by
  have hexpected : u64 (largest + 1) = largest + 1 := u64_of_lt (by omega)
  have hwin := window_cases h₁ h₄
  simp only [pnumDecode, hexpected]
  generalize 2 ^ (buf.length * 8) = win at hwin htrunc
  have hdiv := Nat.div_mul_le_self (largest + 1) win
  exact nearest_of_lt (by omega) (by omega) (by omega)

/-- The recovered number has the truncated bits, and no number with these bits is closer to the
expected one, be it in the packet number space or not. -/
theorem pnumDecode_closest (h₁ : 1 ≤ buf.length) (h₄ : buf.length ≤ 4) (hspace : largest < 2 ^ 62)
    (htrunc : readBe buf < 2 ^ (buf.length * 8)) :
    pnumDecode buf largest % 2 ^ (buf.length * 8) = readBe buf ∧
      ∀ n, n % 2 ^ (buf.length * 8) = readBe buf →
        Nat.dist (pnumDecode buf largest) (largest + 1) ≤ Nat.dist n (largest + 1) := by
  rw [pnumDecode_eq h₁ h₄ hspace htrunc]
  have hwin := window_cases h₁ h₄
  generalize 2 ^ (buf.length * 8) = win at hwin htrunc
  generalize readBe buf = t at htrunc
  unfold Nat.dist
  dsimp only
  rcases hwin with rfl | rfl | rfl | rfl
  all_goals
    refine ⟨?_, fun n hn => ?_⟩
    · split_ifs <;> omega
    · split_ifs <;> omega

theorem pnumDecode_eq_rfc_iff (h₁ : 1 ≤ buf.length) (h₄ : buf.length ≤ 4)
    (hspace : largest < 2 ^ 62) (htrunc : readBe buf < 2 ^ (buf.length * 8)) :
    ((pnumDecode buf largest : ℤ) =
        rfcDecodePacketNumber largest (readBe buf) (buf.length * 8) ∧ pnumDecode buf largest < 2 ^ 62) ↔
      largest + 1 + 2 ^ (buf.length * 8) / 2 < 2 ^ 62 + readBe buf := by
  rw [pnumDecode_eq h₁ h₄ hspace htrunc]
  have hwin := window_cases h₁ h₄
  have hcast : (2 : ℤ) ^ (buf.length * 8) = ((2 ^ (buf.length * 8) : ℕ) : ℤ) := by push_cast; rfl
  simp only [rfcDecodePacketNumber, hcast]
  generalize 2 ^ (buf.length * 8) = win at hwin htrunc
  generalize readBe buf = t at htrunc
  rcases hwin with rfl | rfl | rfl | rfl <;> split_ifs <;> omega

/-- **Recovery is that of RFC 9000 A.3** exactly while the nearest candidate lies in the packet
number space. -/
theorem pnumDecode_nearest_iff (buf : Bytes) (largest : ℕ) (h₁ : 1 ≤ buf.length)
    (h₄ : buf.length ≤ 4) (hspace : largest < 2 ^ 62) :
    Recovers buf largest (pnumDecode buf largest) ↔
      largest + 1 + 2 ^ (buf.length * 8) / 2 < 2 ^ 62 + readBe buf := by
  have htrunc : readBe buf < 2 ^ (buf.length * 8) := by
    rw [Nat.mul_comm, Nat.pow_mul]
    exact readBe_lt buf
  obtain ⟨hbits, hclosest⟩ := pnumDecode_closest h₁ h₄ hspace htrunc
  rw [← pnumDecode_eq_rfc_iff h₁ h₄ hspace htrunc]
  constructor
  · intro h
    exact ⟨h.rfc, h.space⟩
  · rintro ⟨hrfc, hlt⟩
    exact ⟨hrfc, hbits, hlt, fun n _ => hclosest n⟩

/-- The number expected after 299, from its low byte. -/
theorem pnumDecode_nearest_iff_299 :
    Recovers [0x2c] 299 (pnumDecode [0x2c] 299) :=
  (pnumDecode_nearest_iff [0x2c] 299 (by decide) (by decide) (by decide)).2 (by decide)

/-- Behind the packet `2 ^ 62 - 2` the low byte 0 is completed to `2 ^ 62`, which is no packet
number; A.3 gives `2 ^ 62 - 256`. -/
theorem pnumDecode_beyond_space :
    pnumDecode [0x00] (2 ^ 62 - 2) = 2 ^ 62 ∧
      rfcDecodePacketNumber (2 ^ 62 - 2) (readBe [0x00]) 8 = 2 ^ 62 - 256 := by
  decide

end Packet

end QuicVibe
