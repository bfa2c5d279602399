import QuicVibe.Common.Assembly
import QuicVibe.Frame.Walk
import QuicVibe.Stream.Reassemble
/-!
# The CRYPTO stream from one end to the other

`quic_crypto_stream_emit` (`crypto_tx.c`) cuts a TLS message into CRYPTO frames of bounded size;
`quic_crecv_collect` (`collect.c`) puts the frames of a payload back to their offsets. `Packs` says
what the two have in common: every frame holds a piece of the message at its offset, and together
they cover it.
-/

namespace QuicVibe

open Packet Run Assembly

namespace Frame

/-- CRYPTO frames that carry the message `S`: every frame has a piece of it, and no byte is
missing. -/
structure Packs (S : Bytes) (fs : List CryptoFrame) : Prop where
  within : ∀ f ∈ fs, f.offset + f.data.length ≤ S.length
  agrees : ∀ f ∈ fs, f.data <+: S.drop f.offset
  covers : ∀ i < S.length, Stream.Covered (fs.map fun f => (f.offset, f.data)) i

/-! ## The emitter -/

/-- The frames of `quic_crypto_stream_emit`, before they are written. -/
def cryptoChunks (maxFrame : ℕ) : ℕ → Bytes → ℕ → List CryptoFrame
  | 0, _, _ => []
  | fuel + 1, tls, offset =>
    if tls.isEmpty then []
    else { offset := offset, data := tls.take maxFrame } ::
      cryptoChunks maxFrame fuel (tls.drop maxFrame) (offset + (tls.take maxFrame).length)

/-- The frames a message is cut into. -/
def cryptoFrames (S : Bytes) (maxFrame : ℕ) : List CryptoFrame := cryptoChunks maxFrame S.length S 0

variable {maxFrame cap : ℕ} {S : Bytes}

/-- The frames of what is left of a message cover it, and each holds its piece. -/
theorem cryptoChunks_spec {fuel : ℕ} (offset : ℕ) {tls : Bytes} (hmax : 0 < maxFrame)
    (hfuel : tls.length ≤ fuel) :
    (∀ f ∈ cryptoChunks maxFrame fuel tls offset, offset ≤ f.offset ∧
        f.offset + f.data.length ≤ offset + tls.length ∧ f.data <+: tls.drop (f.offset - offset)) ∧
      ∀ i < tls.length, Stream.Covered
        ((cryptoChunks maxFrame fuel tls offset).map fun f => (f.offset, f.data)) (offset + i) := by
  induction fuel generalizing tls offset with
  | zero =>
    obtain rfl := List.length_eq_zero_iff.1 (Nat.le_zero.1 hfuel)
    exact ⟨by simp [cryptoChunks], by simp⟩
  | succ fuel ih =>
    rw [cryptoChunks]
    split
    · rename_i hempty
      obtain rfl := List.isEmpty_iff.1 hempty
      exact ⟨by simp, by simp⟩
    · rename_i hne
      have hpos : 0 < tls.length := List.length_pos_iff.2 (by simpa using hne)
      have hchunk : (tls.take maxFrame).length = min maxFrame tls.length := List.length_take
      have hfuel' : (tls.drop maxFrame).length ≤ fuel := by
        rw [List.length_drop]
        omega
      obtain ⟨hpieces, hcov⟩ := ih (offset + (tls.take maxFrame).length) hfuel'
      rw [List.length_drop] at hpieces hcov
      refine ⟨?_, fun i hi => ?_⟩
      · intro f hf
        rcases List.mem_cons.1 hf with rfl | hf
        · exact ⟨Nat.le_refl _, by dsimp only; omega, by simpa using List.take_prefix _ _⟩
        · obtain ⟨h₁, h₂, h₃⟩ := hpieces f hf
          refine ⟨by omega, by omega, ?_⟩
          by_cases hlong : maxFrame ≤ tls.length
          · rw [List.drop_drop, hchunk, Nat.min_eq_left hlong] at h₃
            rwa [show maxFrame + (f.offset - (offset + maxFrame)) = f.offset - offset by omega] at h₃
          · rw [List.drop_eq_nil_of_le (show tls.length ≤ maxFrame by omega), List.drop_nil] at h₃
            exact h₃.trans List.nil_prefix
      · by_cases hfirst : i < min maxFrame tls.length
        · exact ⟨_, List.mem_cons_self .., by dsimp only; omega, by dsimp only; omega⟩
        · obtain ⟨p, hp, hlo, hhi⟩ := hcov (i - min maxFrame tls.length) (by omega)
          rw [hchunk] at hlo hhi
          exact ⟨p, List.mem_cons_of_mem _ hp, by omega, by omega⟩

/-- **The emitter packs** the message it is given. -/
theorem packs_cryptoFrames (S : Bytes) (hmax : 0 < maxFrame) :
    Packs S (cryptoFrames S maxFrame) := by
  obtain ⟨hpieces, hcov⟩ := cryptoChunks_spec 0 hmax (Nat.le_refl S.length)
  simp only [Nat.zero_add, Nat.sub_zero] at hpieces hcov
  exact ⟨fun f hf => (hpieces f hf).2.1, fun f hf => (hpieces f hf).2.2, hcov⟩

/-- The loop writes the frames one behind the other, and fails only for want of room. -/
theorem emitCrypto_eq {fuel offset : ℕ} {tls written : Bytes} (hmax : 0 < maxFrame)
    (hfuel : tls.length ≤ fuel) (hoff : offset + tls.length ≤ varintMax)
    (hwritten : written.length ≤ cap) :
    emitCrypto maxFrame cap fuel tls offset written =
      if written.length + ((cryptoChunks maxFrame fuel tls offset).flatMap cryptoBytes).length ≤ cap
      then some (written ++ (cryptoChunks maxFrame fuel tls offset).flatMap cryptoBytes)
      else none := by
  induction fuel generalizing tls offset written with
  | zero =>
    obtain rfl := List.length_eq_zero_iff.1 (Nat.le_zero.1 hfuel)
    simp [emitCrypto, cryptoChunks, hwritten]
  | succ fuel ih =>
    rw [emitCrypto, cryptoChunks]
    cases hempty : tls.isEmpty with
    | true => simp [hwritten]
    | false =>
      have hchunk : (tls.take maxFrame).length = min maxFrame tls.length := List.length_take
      have hpos : 0 < tls.length := List.length_pos_iff.2 (by simpa using hempty)
      have hput := (hasWire_crypto (f := ⟨offset, tls.take maxFrame⟩)
        (by dsimp only; omega) (by dsimp only; omega)).1 (cap - written.length)
      simp only [Bool.false_eq_true, if_false, hput, List.flatMap_cons, List.length_append,
        Option.bind_eq_bind]
      by_cases hroom : (cryptoBytes ⟨offset, tls.take maxFrame⟩).length ≤ cap - written.length
      · rw [if_pos hroom, Option.bind_some, ih (by rw [List.length_drop]; omega)
          (by rw [List.length_drop]; omega) (by rw [List.length_append]; omega), List.length_append]
        simp only [List.append_assoc, Nat.add_assoc]
      · rw [if_neg hroom, Option.bind_none, if_neg (by omega)]

/-- **What `quic_crypto_stream_emit` writes** at the front of a stream. -/
theorem cryptoStreamEmit_eq (cap : ℕ) (hlen : S.length ≤ varintMax) (hmax : 0 < maxFrame) :
    cryptoStreamEmit S 0 maxFrame cap =
      if ((cryptoFrames S maxFrame).flatMap cryptoBytes).length ≤ cap
      then some ((cryptoFrames S maxFrame).flatMap cryptoBytes) else none := by
  rw [cryptoStreamEmit, if_neg (by omega), emitCrypto_eq hmax (Nat.le_refl _) (by omega)
    (Nat.zero_le _), List.length_nil, Nat.zero_add, List.nil_append, cryptoFrames]

theorem packs_of_emit {frames : Bytes} (hlen : S.length ≤ varintMax)
    (h : cryptoStreamEmit S 0 maxFrame cap = some frames) :
    ∃ fs : List CryptoFrame, frames = fs.flatMap cryptoBytes ∧ Packs S fs := by
  have hmax : 0 < maxFrame := by
    rw [cryptoStreamEmit] at h
    split at h
    · cases h
    · omega
  rw [cryptoStreamEmit_eq cap hlen hmax] at h
  split at h
  · exact ⟨_, (Option.some.inj h).symm, packs_cryptoFrames S hmax⟩
  · cases h

theorem cryptoFrames_self (hne : S ≠ []) :
    cryptoFrames S S.length = [{ offset := 0, data := S }] := by
  obtain ⟨n, hn⟩ := Nat.exists_eq_succ_of_ne_zero (mt List.length_eq_zero_iff.1 hne)
  have hempty : S.isEmpty = false := by simpa using hne
  have hlast : ∀ fuel offset, cryptoChunks S.length fuel [] offset = [] := by
    intro fuel offset
    cases fuel <;> rfl
  rw [cryptoFrames]
  nth_rewrite 2 [hn]
  rw [cryptoChunks, hempty, if_neg Bool.false_ne_true, List.take_length, List.drop_length, hlast]

/-- The emitter with room for the whole message in one frame, which an empty message does not
have. -/
theorem cryptoStreamEmit_self {out : Bytes} (h : cryptoStreamEmit S 0 S.length cap = some out) :
    S ≠ [] ∧ S.length ≤ varintMax ∧ out = cryptoBytes { offset := 0, data := S } ∧
      out.length ≤ cap := by
  have hne : S ≠ [] := by
    rintro rfl
    cases h
  have hpos : 0 < S.length := List.length_pos_iff.2 hne
  have hlen : S.length ≤ varintMax := by
    obtain ⟨n, hn⟩ := Nat.exists_eq_succ_of_ne_zero (Nat.pos_iff_ne_zero.1 hpos)
    have hempty : S.isEmpty = false := by simpa using hne
    rw [cryptoStreamEmit, if_neg (by omega)] at h
    nth_rewrite 2 [hn] at h
    rw [emitCrypto, hempty, if_neg Bool.false_ne_true] at h
    obtain ⟨wire, hput, -⟩ := Option.bind_eq_some_iff.1 h
    obtain ⟨head, hhead, -⟩ := Option.bind_eq_some_iff.1 hput
    exact le_varintMax_of_putVarints hhead _ (by simp)
  rw [cryptoStreamEmit_eq cap hlen hpos, cryptoFrames_self hne, List.flatMap_singleton] at h
  split at h
  · obtain rfl := Option.some.inj h
    exact ⟨hne, hlen, rfl, ‹_›⟩
  · cases h

/-! ## The receiver -/

namespace Crecv

/-- The buffer holds the pieces of the message `S` that the frames `fs` brought, and the prefix handed
out so far is among them. -/
structure Gathers (S : Bytes) (s : Crecv) (fs : List CryptoFrame) : Prop where
  assembled : Assembled S s.buf s.filled (fs.map fun f => (f.offset, f.data))
  upto_le : s.receivedTo ≤ crecvBuf
  upto : ∀ i (_ : i < crecvBuf), i < s.receivedTo → s.filled[i] = true

theorem advanceOver_eq (flags : List Bool) (d : ℕ) : advanceOver flags d = scan flags d := by
  induction flags generalizing d with
  | nil => rfl
  | cons b rest ih =>
    cases b with
    | false => rfl
    | true => exact ih (d + 1)

variable {S : Bytes} {s : Crecv} {fs : List CryptoFrame}

theorem gathers_init (S : Bytes) (s : Crecv) : s.init.Gathers S [] where
  assembled := Assembled.start S s.buf
  upto_le := Nat.zero_le _
  upto i _ h := absurd h (Nat.not_lt_zero i)

theorem Gathers.place (h : s.Gathers S fs) {f : CryptoFrame} (hcap : S.length ≤ crecvBuf)
    (hin : f.offset + f.data.length ≤ S.length) (hpiece : f.data <+: S.drop f.offset) :
    ∃ s', s.place f = (true, s') ∧ s'.Gathers S (fs ++ [f]) := by
  refine ⟨_, if_neg (by omega), ?_, h.upto_le, fun i hi hlt => ?_⟩
  · rw [List.map_append]
    exact h.assembled.write (by omega) hpiece
  · exact (mark_writeAt_iff _ _ _ hi).2 (Or.inl (h.upto i hi hlt))

theorem Gathers.advance (h : s.Gathers S fs) : s.advancePrefix.Gathers S fs := by
  obtain ⟨-, hle, hmarks, -⟩ := scan_vector_spec s.filled h.upto_le
  refine ⟨h.assembled, ?_, fun i hi hlt => ?_⟩
  · simp only [advancePrefix, advanceOver_eq]
    exact hle
  · simp only [advancePrefix, advanceOver_eq] at hlt ⊢
    by_cases hold : i < s.receivedTo
    · exact h.upto i hi hold
    · exact hmarks i hi (by omega) hlt

/-- **The prefix is the message** once every byte of it has been placed. -/
theorem Gathers.message_advance (h : s.Gathers S fs) (hcap : S.length ≤ crecvBuf)
    (hcov : ∀ i < S.length, Stream.Covered (fs.map fun f => (f.offset, f.data)) i) :
    s.advancePrefix.message = S := by
  obtain ⟨hge, hle, hmarks, hstop⟩ := scan_vector_spec s.filled h.upto_le
  have hadv := h.advance
  set t := s.advancePrefix with ht
  have hupto : t.receivedTo = scan (s.filled.toList.drop s.receivedTo) s.receivedTo :=
    advanceOver_eq _ _
  rw [← hupto] at hstop
  -- the scan ends neither before the end of the message nor behind it
  have hend : t.receivedTo = S.length := by
    rcases Nat.lt_trichotomy t.receivedTo S.length with hlt | heq | hgt
    · have hset := (hadv.assembled.mark_iff t.receivedTo (by omega)).2 (hcov _ hlt)
      have hnot : t.filled[t.receivedTo] = false := hstop (by omega)
      rw [hnot] at hset
      cases hset
    · exact heq
    · have hlast := hadv.assembled.lt_length (i := S.length) (by have := hadv.upto_le; omega)
        (hadv.upto _ (by have := hadv.upto_le; omega) hgt)
      omega
  have htake := hadv.assembled.take_drop (a := 0) (k := S.length) (by omega)
    fun i hi _ hlt => hadv.upto i hi (by omega)
  rw [message, hend]
  simpa using htake

/-! ## Payloads -/

theorem collectFrames_skip (s : Crecv) {ws : List Walked} (h : ∀ w ∈ ws, w.type ≠ frameCrypto) :
    s.collectFrames ws = (true, s.advancePrefix) := by
  induction ws with
  | nil => rfl
  | cons w ws ih =>
    rw [collectFrames, onFrame, if_pos (h w List.mem_cons_self)]
    exact ih fun v hv => h v (List.mem_cons_of_mem _ hv)

theorem collectFrames_crypto (s : Crecv) {f : CryptoFrame} (hoff : f.offset ≤ varintMax)
    (hlen : f.data.length ≤ varintMax) (rest : Bytes) :
    s.collectFrames (walk (cryptoBytes f ++ rest)) =
      match s.place f with
      | (false, s) => (false, s)
      | (true, s) => s.collectFrames (walk rest) := by
  have hget := (hasWire_crypto hoff hlen).2 rest
  rw [walk_crypto_append hoff hlen rest, collectFrames, onFrame, if_neg (by simp)]
  cases hplace : s.place f with
  | mk ok s' => cases ok <;> simp only [hget, hplace]

/-- **A payload** of pieces of a message, with frames of other types behind them, is collected. -/
theorem Gathers.collect (h : s.Gathers S fs) (hcap : S.length ≤ crecvBuf) {gs : List CryptoFrame}
    (hin : ∀ f ∈ gs, f.offset + f.data.length ≤ S.length)
    (hpiece : ∀ f ∈ gs, f.data <+: S.drop f.offset) (rest : Bytes)
    (hrest : ∀ w ∈ walk rest, w.type ≠ frameCrypto) :
    ∃ t : Crecv, s.collect (gs.flatMap cryptoBytes ++ rest) = (true, t.advancePrefix) ∧
      t.Gathers S (fs ++ gs) := by
  induction gs generalizing s fs with
  | nil => exact ⟨s, s.collectFrames_skip hrest, by rwa [List.append_nil]⟩
  | cons f gs ih =>
    have hmax : varintMax = 4611686018427387903 := rfl
    have hbuf : crecvBuf = 2048 := rfl
    have hf := hin f List.mem_cons_self
    obtain ⟨s', hplace, hs'⟩ := h.place hcap hf (hpiece f List.mem_cons_self)
    obtain ⟨t, hcollect, ht⟩ := ih hs' (fun g hg => hin g (List.mem_cons_of_mem _ hg))
      fun g hg => hpiece g (List.mem_cons_of_mem _ hg)
    refine ⟨t, ?_, by rwa [List.append_assoc] at ht⟩
    rw [List.flatMap_cons, List.append_assoc, Crecv.collect,
      s.collectFrames_crypto (by omega) (by omega), hplace]
    exact hcollect

theorem advancePrefix_init (s : Crecv) : s.init.advancePrefix = s.init := by
  have h : advanceOver (Vector.replicate crecvBuf false).toList 0 = 0 := by
    rw [advanceOver_eq]
    rfl
  simp only [advancePrefix, init, List.drop_zero, h]

/-- **Payloads in a row**: after each of them the prefix is as long as the pieces allow. -/
theorem gathers_run (s : Crecv) {fs : List CryptoFrame} (hcap : S.length ≤ crecvBuf)
    (hpack : Packs S fs) (groups : List (List CryptoFrame))
    (hgroups : ∀ g ∈ groups, ∀ f ∈ g, f ∈ fs) :
    ∃ t : Crecv, t.Gathers S groups.flatten ∧
      run (fun s payload => (collect s payload).2) s.init
        (groups.map (·.flatMap cryptoBytes)) = t.advancePrefix := by
  induction groups using List.reverseRecOn with
  | nil => exact ⟨s.init, gathers_init S s, (advancePrefix_init s).symm⟩
  | append_singleton groups g ih =>
    obtain ⟨t, ht, hrun⟩ := ih fun g' hg' => hgroups g' (List.mem_append_left _ hg')
    have hg : ∀ f ∈ g, f ∈ fs := hgroups g (List.mem_append_right _ (List.mem_singleton.2 rfl))
    obtain ⟨u, hcollect, hu⟩ := ht.advance.collect hcap (fun f hf => hpack.within f (hg f hf))
      (fun f hf => hpack.agrees f (hg f hf)) [] (by simp)
    rw [List.append_nil] at hcollect
    refine ⟨u, by simpa using hu, ?_⟩
    rw [List.map_append, List.map_singleton, run_snoc, hrun, hcollect]

/-- **CRYPTO stream split and reassembly.** For a message of at most 2048 bytes and every maximum
frame size: the emitter writes the frames of `cryptoFrames` if they fit; and if these frames, and no
others, are delivered in any order, grouped into payloads in any way and with any duplication, then
the contiguous prefix of a fresh receive buffer is the message. -/
theorem crypto_split_reassembly (S : Bytes) (maxFrame : ℕ) (hS : S.length ≤ 2048)
    (hmax : 1 ≤ maxFrame) :
    (∀ cap, cryptoStreamEmit S 0 maxFrame cap =
      if ((cryptoFrames S maxFrame).flatMap cryptoBytes).length ≤ cap
      then some ((cryptoFrames S maxFrame).flatMap cryptoBytes) else none) ∧
    ∀ (s : Crecv) (groups : List (List CryptoFrame)),
      (∀ f, f ∈ groups.flatten ↔ f ∈ cryptoFrames S maxFrame) →
      (run (fun s payload => (collect s payload).2) s.init
        (groups.map (·.flatMap cryptoBytes))).message = S := by
  have hvar : varintMax = 4611686018427387903 := rfl
  have hpack := packs_cryptoFrames S hmax
  refine ⟨fun cap => cryptoStreamEmit_eq cap (by omega) hmax, fun s groups hsame => ?_⟩
  obtain ⟨t, ht, hrun⟩ := s.gathers_run hS hpack groups fun g hg f hf =>
    (hsame f).1 (List.mem_flatten.2 ⟨g, hg, hf⟩)
  rw [hrun]
  refine ht.message_advance hS fun i hi => ?_
  obtain ⟨p, hp, hlo, hhi⟩ := hpack.covers i hi
  obtain ⟨f, hf, rfl⟩ := List.mem_map.1 hp
  exact ⟨_, List.mem_map.2 ⟨f, (hsame f).2 hf, rfl⟩, hlo, hhi⟩

/-- Five bytes in frames of two, delivered from the last frame on in two payloads. -/
theorem crypto_split_reassembly_five :
    let s : Crecv := ⟨Vector.replicate _ 0, Vector.replicate _ false, 0⟩
    cryptoStreamEmit [1, 2, 3, 4, 5] 0 2 64 =
        some [6, 0, 2, 1, 2, 6, 2, 2, 3, 4, 6, 4, 1, 5] ∧
      (run (fun s payload => (collect s payload).2) s.init
        [[6, 4, 1, 5], [6, 2, 2, 3, 4, 6, 0, 2, 1, 2]]).message = [1, 2, 3, 4, 5] := by
  intro s
  have h := crypto_split_reassembly [1, 2, 3, 4, 5] 2 (by decide) (by decide)
  have hframes : cryptoFrames [1, 2, 3, 4, 5] 2 = [⟨0, [1, 2]⟩, ⟨2, [3, 4]⟩, ⟨4, [5]⟩] := by decide
  rw [hframes] at h
  refine ⟨(h.1 64).trans (by decide), ?_⟩
  exact h.2 s [[⟨4, [5]⟩], [⟨2, [3, 4]⟩, ⟨0, [1, 2]⟩]] (by
    intro f
    simp only [List.flatten_cons, List.flatten_nil, List.mem_append, List.mem_cons,
      List.not_mem_nil]
    tauto)

end Crecv

end Frame

end QuicVibe
