import QuicVibe.Loop.Replies
/-!
# Where the bytes of a request come from

The loop keeps one accumulator for all request streams (`gather_one`). A STREAM frame writes its data
at its offset and raises the high-water mark; the decoder runs as soon as a FIN has been seen
(`drive_complete`), on everything below the mark. The log of the frames since the accumulator was
last emptied is kept next to the connection here.
-/

namespace QuicVibe

namespace Loop

open Crypto Packet Keys Http3 Tls
open QuicVibe.Frame

/-- The request decoder on the bytes of a stream. -/
def decodeStream (data : Bytes) : Option Request := do
  let wrap ← putStream 2080 { streamId := 0, offset := 0, data := data, fin := true }
  recvGet wrap 512

/-! ## What the frames leave in the accumulator -/

/-- The offset behind the data of a frame. -/
def stop (f : StreamFrame) : ℕ := f.offset + f.data.length

/-- The frames are those of one stream of `n` bytes, which they cover, and it fits the buffer. -/
structure Whole (log : List StreamFrame) (n : ℕ) : Prop where
  stream : ∃ s, ∀ f ∈ log, f.streamId = s
  inside : ∀ f ∈ log, stop f ≤ n
  closed : ∀ f ∈ log, f.fin = true → stop f = n
  covered : ∀ i < n, ∃ f ∈ log, f.offset ≤ i ∧ i < stop f
  fits : n ≤ reqCap

/-- The bytes are those the frames of one stream brought: from offset 0 to the one its FIN closes,
each as some frame of the stream carries it, and the stream has no others. -/
def Received (log : List StreamFrame) (data : Bytes) : Prop :=
  ∃ f ∈ log, f.fin = true ∧ data.length = stop f ∧ data.length ≤ reqCap ∧
    (∀ i < data.length, ∃ g ∈ log, g.streamId = f.streamId ∧ g.offset ≤ i ∧ i < stop g ∧
      data[i]? = g.data[i - g.offset]?) ∧
    ∀ g ∈ log, g.streamId = f.streamId → stop g ≤ data.length

/-- The accumulator holds what the frames left in it since it was empty. -/
def Assembles (log : List StreamFrame) (acc : Reqacc) : Prop :=
  ∃ empty : Reqacc, empty.len = 0 ∧ empty.fin = false ∧
    acc = { log.foldl Reqacc.gatherOne empty with done := acc.done }

theorem gatherOne_of_fits (acc : Reqacc) {f : StreamFrame} (hoff : f.offset < reqCap)
    (hstop : stop f ≤ reqCap) :
    acc.gatherOne f = { acc with
      buf := Buf.writeAt acc.buf f.offset f.data
      len := max acc.len (stop f)
      fin := acc.fin || f.fin } := by
  rw [stop] at hstop
  have hhi : (if f.offset + f.data.length < reqCap then f.offset + f.data.length else reqCap) =
      f.offset + f.data.length := by
    split <;> omega
  have hlen : (if f.offset + f.data.length > acc.len then f.offset + f.data.length else acc.len) =
      max acc.len (stop f) := by
    rw [stop]
    split <;> omega
  simp only [Reqacc.gatherOne, hhi, hlen]
  rw [if_neg (by omega), if_neg (by omega)]

theorem gatherOne_done (acc : Reqacc) (d : Bool) (f : StreamFrame) :
    Reqacc.gatherOne { acc with done := d } f = { acc.gatherOne f with done := d } := by
  simp only [Reqacc.gatherOne]
  split <;> rfl

theorem foldl_gatherOne_done (frames : List StreamFrame) (acc : Reqacc) (d : Bool) :
    frames.foldl Reqacc.gatherOne { acc with done := d } =
      { frames.foldl Reqacc.gatherOne acc with done := d } := by
  induction frames generalizing acc with
  | nil => rfl
  | cons f frames ih => rw [List.foldl_cons, List.foldl_cons, gatherOne_done, ih]

variable {acc : Reqacc} {log : List StreamFrame} {n : ℕ}

theorem assembles_nil (hlen : acc.len = 0) (hfin : acc.fin = false) :
    Assembles [] acc := ⟨acc, hlen, hfin, rfl⟩

theorem Assembles.empty {acc : Reqacc} (h : Assembles [] acc) : acc.len = 0 ∧ acc.fin = false := by
  obtain ⟨empty, hlen, hfin, hacc⟩ := h
  rw [hacc]
  exact ⟨hlen, hfin⟩

theorem Assembles.append (h : Assembles log acc) (frames : List StreamFrame) (d : Bool) :
    Assembles (log ++ frames) { frames.foldl Reqacc.gatherOne acc with done := d } := by
  obtain ⟨empty, hlen, hfin, hacc⟩ := h
  refine ⟨empty, hlen, hfin, ?_⟩
  rw [hacc, foldl_gatherOne_done, List.foldl_append]

/-- What frames within a stream of `n` bytes leave: the mark is at their end, a FIN comes from one of
them, and each byte they cover is as one of them carries it. -/
structure Holds (n : ℕ) (log : List StreamFrame) (acc : Reqacc) : Prop where
  below : acc.len ≤ n
  mark : ∀ f ∈ log, f.offset < reqCap → stop f ≤ acc.len
  fin : acc.fin = true → ∃ f ∈ log, f.fin = true ∧ f.offset < reqCap
  bytes : ∀ i (hi : i < reqCap), (∃ f ∈ log, f.offset ≤ i ∧ i < stop f) →
    ∃ g ∈ log, g.offset ≤ i ∧ i < stop g ∧ some acc.buf[i] = g.data[i - g.offset]?

/-- **One more frame.** -/
theorem Holds.gatherOne (h : Holds n log acc) (hfits : n ≤ reqCap) {f : StreamFrame}
    (hf : stop f ≤ n) : Holds n (log ++ [f]) (acc.gatherOne f) := by
  have hmem : ∀ g ∈ log ++ [f], g ∈ log ∨ g = f := by simp
  by_cases hoff : f.offset ≥ reqCap
  · -- nothing of the frame is kept, and it covers no byte of the buffer
    rw [Reqacc.gatherOne, if_pos hoff]
    refine ⟨h.below, ?_, fun hfin => ?_, ?_⟩
    · intro g hg hlt
      rcases hmem g hg with hg | rfl
      · exact h.mark g hg hlt
      · omega
    · obtain ⟨g, hg, hgf⟩ := h.fin hfin
      exact ⟨g, List.mem_append_left _ hg, hgf⟩
    · rintro i hi ⟨g, hg, hgi⟩
      rcases hmem g hg with hg | rfl
      · obtain ⟨g', hg', hbyte⟩ := h.bytes i hi ⟨g, hg, hgi⟩
        exact ⟨g', List.mem_append_left _ hg', hbyte⟩
      · omega
  · rw [gatherOne_of_fits acc (by omega) (hf.trans hfits)]
    refine ⟨max_le h.below hf, ?_, ?_, ?_⟩
    · intro g hg hlt
      rcases hmem g hg with hg | rfl
      · exact (h.mark g hg hlt).trans (le_max_left _ _)
      · exact le_max_right _ _
    · intro hfin
      rcases Bool.or_eq_true_iff.1 hfin with hfin | hfin
      · obtain ⟨g, hg, hgf⟩ := h.fin hfin
        exact ⟨g, List.mem_append_left _ hg, hgf⟩
      · exact ⟨f, by simp, hfin, by omega⟩
    · rintro i hi ⟨g, hg, hgi⟩
      by_cases hin : f.offset ≤ i ∧ i < stop f
      · have hlt : i - f.offset < f.data.length := by
          have := hin.2
          rw [stop] at this
          omega
        refine ⟨f, by simp, hin.1, hin.2, ?_⟩
        rw [Buf.getElem_writeAt_of_mem hi hin.1 hlt, List.getElem?_eq_getElem hlt]
      · rw [Buf.getElem_writeAt_of_not_mem hi hin]
        rcases hmem g hg with hg | rfl
        · obtain ⟨g', hg', hbyte⟩ := h.bytes i hi ⟨g, hg, hgi⟩
          exact ⟨g', List.mem_append_left _ hg', hbyte⟩
        · exact absurd hgi hin

theorem holds_foldl (hfits : n ≤ reqCap) (hinside : ∀ f ∈ log, stop f ≤ n) {empty : Reqacc}
    (hlen : empty.len = 0) (hfin : empty.fin = false) :
    Holds n log (log.foldl Reqacc.gatherOne empty) := by
  induction log using List.reverseRecOn with
  | nil => exact ⟨by simp [hlen], by simp, by simp [hfin], by simp⟩
  | append_singleton log f ih =>
    rw [List.foldl_append, List.foldl_cons, List.foldl_nil]
    exact (ih fun g hg => hinside g (List.mem_append_left _ hg)).gatherOne hfits
      (hinside f (by simp))

/-- **A whole stream is decoded as it was received.** -/
theorem Assembles.received (h : Assembles log acc) (hfin : acc.fin = true) (hwhole : Whole log n) :
    Received log acc.bytes := by
  obtain ⟨empty, hlen, hno, hacc⟩ := h
  have hholds := holds_foldl hwhole.fits hwhole.inside hlen hno
  have hbuf : acc.buf = (log.foldl Reqacc.gatherOne empty).buf := by rw [hacc]
  have hacclen : acc.len = (log.foldl Reqacc.gatherOne empty).len := by rw [hacc]
  have haccfin : acc.fin = (log.foldl Reqacc.gatherOne empty).fin := by rw [hacc]
  obtain ⟨f, hf, hffin, hoff⟩ := hholds.fin (haccfin ▸ hfin)
  have hstop := hwhole.closed f hf hffin
  -- the mark is where the FIN is
  have hmark : acc.len = n := by
    have := hholds.mark f hf hoff
    have := hholds.below
    omega
  have hfits := hwhole.fits
  have hdata : acc.bytes.length = n := by
    simp only [Reqacc.bytes, List.length_take, Vector.length_toList]
    omega
  obtain ⟨s, hs⟩ := hwhole.stream
  refine ⟨f, hf, hffin, by omega, by omega, fun i hi => ?_, fun g hg _ => ?_⟩
  · rw [hdata] at hi
    obtain ⟨g, hg, hlo, hhi, hbyte⟩ := hholds.bytes i (by omega) (hwhole.covered i hi)
    refine ⟨g, hg, (hs g hg).trans (hs f hf).symm, hlo, hhi, ?_⟩
    rw [← hbyte, ← hbuf, Reqacc.bytes, List.getElem?_take_of_lt (by omega),
      List.getElem?_eq_getElem (by simp; omega), Vector.getElem_toList]
  · rw [hdata]
    exact hwhole.inside g hg

namespace ServerConn

variable {Ctx : Type} (aes : Block → Block → Block)

/-! ## One packet -/

/-- The request frames a packet brings, if it opens. -/
def framesOf (p : (ServerConn Ctx × Option Request) × Bytes) : List StreamFrame :=
  match p.1.1.opens aes p.2 with
  | none => []
  | some (_, opened) => requestFrames opened.payload

/-- The accumulator behind the frames of a packet. -/
def gathered (p : (ServerConn Ctx × Option Request) × Bytes) : Reqacc :=
  (framesOf aes p).foldl Reqacc.gatherOne p.1.1.loop.reqacc

theorem gathered_done (p : (ServerConn Ctx × Option Request) × Bytes) :
    (gathered aes p).done = p.1.1.loop.reqacc.done := by
  have h := congrArg Reqacc.done
    (foldl_gatherOne_done (framesOf aes p) p.1.1.loop.reqacc p.1.1.loop.reqacc.done)
  exact h

/-- The bytes the request decoder is run on by a packet, if it is run. -/
def decodes (p : (ServerConn Ctx × Option Request) × Bytes) : Option Bytes :=
  if (framesOf aes p).isEmpty then none
  else if (gathered aes p).requestComplete then some (gathered aes p).bytes else none

theorem driveComplete_spec (c : ServerConn Ctx) :
    c.driveComplete.1 = decodeStream c.loop.reqacc.bytes ∧
      c.driveComplete.2.loop.reqacc = { c.loop.reqacc with done := true } ∧
      c.driveComplete.2.loop.h3.settingsSent = c.loop.h3.settingsSent ∧
      (decodeStream c.loop.reqacc.bytes ≠ none → c.driveComplete.2.loop.h3.requestSeen = true) ∧
      c.driveComplete.2.server = c.server := by
  simp only [driveComplete, decodeStream]
  cases putStream 2080 { streamId := 0, offset := 0, data := c.loop.reqacc.bytes, fin := true } with
  | none => simp
  | some wrap =>
    simp only [H3srv.onRequest, Option.bind_eq_bind, Option.bind_some]
    cases recvGet wrap 512 <;> simp

/-- **A packet and the requests**: the decoder runs on the bytes `decodes` has for it, and leaves its
mark in the accumulator. -/
theorem stepOne_requests (p : (ServerConn Ctx × Option Request) × Bytes) :
    (stepOne aes p.1 p.2).2 = ((decodes aes p).bind decodeStream).or p.1.2 ∧
    (stepOne aes p.1 p.2).1.loop.reqacc =
      { gathered aes p with done := p.1.1.loop.reqacc.done || (decodes aes p).isSome } := by
  have hdone := gathered_done aes p
  rw [gathered, framesOf] at hdone
  rw [stepOne_eq, decodes, gathered, framesOf]
  cases hopen : p.1.1.opens aes p.2 with
  | none => simp
  | some lo =>
    obtain ⟨level, opened⟩ := lo
    rw [hopen] at hdone
    dsimp only at hdone ⊢
    rw [dispatch]
    by_cases hframes : (requestFrames opened.payload).isEmpty = true
    · rw [if_pos hframes, if_pos hframes]
      have hnil : requestFrames opened.payload = [] := List.isEmpty_iff.1 hframes
      simp [dispatchNonRequest_loop, noteRx_reqacc, hnil]
    · rw [if_neg hframes, if_neg hframes, reassembleAndDrive, noteRx_reqacc, Reqacc.gatherRequest]
      generalize (requestFrames opened.payload).foldl Reqacc.gatherOne p.1.1.loop.reqacc = acc
        at hdone ⊢
      by_cases hcomplete : acc.requestComplete = true
      · dsimp only
        rw [if_pos hcomplete, if_pos hcomplete]
        obtain ⟨hreq, hacc, -⟩ := driveComplete_spec { p.1.1.noteRx level opened.pkt with
          loop := { (p.1.1.noteRx level opened.pkt).loop with reqacc := acc } }
        exact ⟨congrArg (·.or p.1.2) hreq, by rw [hacc]; simp⟩
      · dsimp only
        rw [if_neg hcomplete, if_neg hcomplete]
        simp [← hdone]

/-! ## Datagrams -/

/-- The frames a list of packets brings. -/
def framesOfAll (ps : List ((ServerConn Ctx × Option Request) × Bytes)) : List StreamFrame :=
  ps.flatMap (framesOf aes)

theorem framesOfAll_snoc (ps : List ((ServerConn Ctx × Option Request) × Bytes))
    (p : (ServerConn Ctx × Option Request) × Bytes) :
    framesOfAll aes (ps ++ [p]) = framesOfAll aes ps ++ framesOf aes p := by
  rw [framesOfAll, List.flatMap_append, List.flatMap_singleton]
  rfl

/-- **A packet** leaves its frames in the accumulator. -/
theorem assembles_stepOne (log : List StreamFrame)
    (past : List ((ServerConn Ctx × Option Request) × Bytes)) (st : ServerConn Ctx × Option Request)
    (pkt : Bytes) (h : Assembles (log ++ framesOfAll aes past) st.1.loop.reqacc) :
    Assembles (log ++ framesOfAll aes (past ++ [(st, pkt)])) (stepOne aes st pkt).1.loop.reqacc := by
  rw [(stepOne_requests aes (st, pkt)).2, framesOfAll_snoc, ← List.append_assoc]
  exact h.append _ _

variable {p : (ServerConn Ctx × Option Request) × Bytes}

theorem assembles_of_packetSteps {c : ServerConn Ctx} {log : List StreamFrame}
    (h : Assembles log c.loop.reqacc) {dgram : Bytes}
    {pre post : List ((ServerConn Ctx × Option Request) × Bytes)}
    (hsteps : c.packetSteps aes dgram = pre ++ p :: post) :
    Assembles (log ++ framesOfAll aes pre) p.1.1.loop.reqacc :=
  Run.history_of_steps_eq
    (P := fun past st => Assembles (log ++ framesOfAll aes past) st.1.loop.reqacc)
    (assembles_stepOne aes log) (by simpa [framesOfAll] using h) hsteps

theorem decodes_eq_some {d : Bytes} (h : decodes aes p = some d) :
    framesOf aes p ≠ [] ∧ (gathered aes p).fin = true ∧
      (gathered aes p).done = false ∧ d = (gathered aes p).bytes := by
  obtain ⟨hne, h⟩ := Option.ite_none_left_eq_some.1 h
  obtain ⟨hcomplete, h⟩ := Option.ite_none_right_eq_some.1 h
  simp only [Reqacc.requestComplete, Bool.and_eq_true, Bool.not_eq_true'] at hcomplete
  exact ⟨by simpa using hne, hcomplete.1, hcomplete.2, (Option.some.inj h).symm⟩

/-- The connection with the log of the request frames since the accumulator was last emptied. -/
def track (s : ServerConn Ctx × List StreamFrame) (o : LoopOp) :
    ServerConn Ctx × List StreamFrame :=
  (s.1.next aes o, match (s.1.stepPackets aes o.1).2 with
    | none => s.2 ++ framesOfAll aes (s.1.packetSteps aes o.1)
    | some _ => [])

/-- **A step** leaves its frames in the accumulator, or an empty one. -/
theorem assembles_track {s : ServerConn Ctx × List StreamFrame} (h : Assembles s.2 s.1.loop.reqacc)
    (o : LoopOp) : Assembles (track aes s o).2 (track aes s o).1.loop.reqacc := by
  have hpackets : Assembles (s.2 ++ framesOfAll aes (s.1.packetSteps aes o.1))
      (s.1.stepPackets aes o.1).1.loop.reqacc :=
    Run.steps_history (P := fun past st => Assembles (s.2 ++ framesOfAll aes past) st.1.loop.reqacc)
      (assembles_stepOne aes s.2) (by simpa [framesOfAll] using h) _
  obtain ⟨hs, calls, one, htx⟩ :=
    (s.1.stepPackets aes o.1).1.replies_produce aes (s.1.stepPackets aes o.1).2 o.2
  simp only [track, next_eq]
  generalize hreq : (s.1.stepPackets aes o.1).2 = req at htx ⊢
  cases req with
  | none =>
    rw [rearmReqacc, htx.reqacc]
    exact hpackets
  | some r => exact assembles_nil rfl rfl

theorem assembles_run {c₀ : ServerConn Ctx} (hready : Ready c₀.loop.reqacc) {ops : List LoopOp}
    {e : (ServerConn Ctx × List StreamFrame) × LoopOp}
    (he : e ∈ Run.steps (track aes) (c₀, []) ops) : Assembles e.1.2 e.1.1.loop.reqacc := by
  obtain ⟨past, -, hpast⟩ := Run.mem_steps_iff.1 he
  rw [hpast]
  exact Run.run_invariant
    (P := fun s : ServerConn Ctx × List StreamFrame => Assembles s.2 s.1.loop.reqacc) past
    (assembles_nil hready.1 hready.2.1) fun _ o _ h => assembles_track aes h o

/-! ### A stream in one frame -/

/-- The frame that brings a whole stream at once. -/
def wholeFrame (s : ℕ) (data : Bytes) : StreamFrame :=
  { streamId := s, offset := 0, data := data, fin := true }

theorem whole_wholeFrame {s : ℕ} {data : Bytes} (hlen : data.length ≤ reqCap) :
    Whole [wholeFrame s data] data.length where
  stream := ⟨s, by simp [wholeFrame]⟩
  inside := by simp [wholeFrame, stop]
  closed := by simp [wholeFrame, stop]
  covered := fun i hi => ⟨wholeFrame s data, by simp, Nat.zero_le _,
    by simpa [wholeFrame, stop] using hi⟩
  fits := hlen

theorem decodes_of_wholeFrame (hready : Ready p.1.1.loop.reqacc) {s : ℕ} {data : Bytes}
    (hframes : framesOf aes p = [wholeFrame s data]) (hlen : data.length ≤ reqCap) :
    decodes aes p = some data := by
  obtain ⟨hzero, -, hdone⟩ := hready
  have hcap : 0 < reqCap := by decide
  have hgather : gathered aes p = { p.1.1.loop.reqacc with
      buf := Buf.writeAt p.1.1.loop.reqacc.buf 0 data, len := data.length, fin := true } := by
    rw [gathered, hframes, List.foldl_cons, List.foldl_nil,
      gatherOne_of_fits _ hcap (by simpa [wholeFrame, stop] using hlen), hzero]
    simp [wholeFrame, stop]
  have hbytes : (gathered aes p).bytes = data := by
    rw [hgather, Reqacc.bytes, Buf.toList_writeAt_zero _ hlen, List.take_left]
  rw [decodes, hframes, hbytes, hgather]
  simp [Reqacc.requestComplete, hdone]

end ServerConn

/-! ### In the session -/

namespace Session

open ServerConn

theorem packetSteps_onertt (payload : Bytes) :
    confirmed.packetSteps aes128 (onertt payload) = [((confirmed, none), onertt payload)] := by
  rw [packetSteps, split_onertt]
  rfl

theorem framesOf_onertt {payload : Bytes} (hne : payload ≠ []) :
    framesOf aes128 ((confirmed, none), onertt payload) = requestFrames payload := by
  rw [framesOf, opens_onertt payload hne]
  rfl

/-- The GET request of the session, on a stream of its own. -/
def getData : Bytes := [0x01, 0x05, 0x00, 0x00, 0xd1, 0xc1, 0xd7]

def getOn (s : UInt8) : Bytes := [0x0b, s, 0x07] ++ getData

theorem decodeStream_getData : decodeStream getData = some getRequest := by decide +kernel

theorem requestFrames_getOn_zero : requestFrames (getOn 0) = [wholeFrame 0 getData] := by
  decide

/-- A FIN at offset 5 and no data. -/
def gap : Bytes := [0x0f, 0x00, 0x05, 0x00]

def gapFrame : StreamFrame := { streamId := 0, offset := 5, data := [], fin := true }

theorem requestFrames_gap : requestFrames gap = [gapFrame] := by decide

end Session

namespace ServerConn

variable {Ctx : Type} (aes : Block → Block → Block)

/-! ## Decoding what was received -/

/-- The log behind a packet of a datagram. -/
def logAt (log : List StreamFrame) (pre : List ((ServerConn Ctx × Option Request) × Bytes))
    (p : (ServerConn Ctx × Option Request) × Bytes) : List StreamFrame :=
  log ++ (framesOfAll aes pre ++ framesOf aes p)

theorem received_of_decodes {c : ServerConn Ctx} {log : List StreamFrame}
    (h : Assembles log c.loop.reqacc) {dgram : Bytes}
    {pre post : List ((ServerConn Ctx × Option Request) × Bytes)}
    {p : (ServerConn Ctx × Option Request) × Bytes}
    (hsteps : c.packetSteps aes dgram = pre ++ p :: post) {d : Bytes} (hd : decodes aes p = some d)
    {n : ℕ} (hwhole : Whole (logAt aes log pre p) n) : Received (logAt aes log pre p) d := by
  obtain ⟨-, hfin, -, rfl⟩ := decodes_eq_some aes hd
  have hacc : Assembles (logAt aes log pre p) (gathered aes p) := by
    have := (assembles_of_packetSteps aes h hsteps).append (framesOf aes p) (gathered aes p).done
    rw [List.append_assoc] at this
    exact this
  exact hacc.received hfin hwhole

theorem logAt_nil (p : (ServerConn Ctx × Option Request) × Bytes) :
    logAt aes [] [] p = framesOf aes p := by
  rw [logAt, framesOfAll]
  rfl

/-- **A request is decoded from the bytes that were received**, in every run from an empty
accumulator, whenever the decoder runs on a whole stream: the frames since the accumulator was last
emptied are those of one stream, cover it up to the offset its FIN closes, and fit the buffer. -/
theorem decoded_bytes_received {c₀ : ServerConn Ctx} (hready : Ready c₀.loop.reqacc)
    (ops : List LoopOp) :
    ∀ e ∈ Run.steps (track aes) (c₀, []) ops, ∀ pre p post,
      e.1.1.packetSteps aes e.2.1 = pre ++ p :: post → ∀ d, decodes aes p = some d →
      (∃ n, Whole (logAt aes e.1.2 pre p) n) → Received (logAt aes e.1.2 pre p) d := by
  rintro e he pre p post hsteps d hd ⟨n, hwhole⟩
  exact received_of_decodes aes (assembles_run aes hready he) hsteps hd hwhole

/-- The session in which a GET arrives in one frame. -/
theorem decoded_bytes_received_session :
    Ready Session.confirmed.loop.reqacc ∧
    Received [wholeFrame 0 Session.getData] Session.getData := by
  have key : ∀ (c : ServerConn Unit) (dgram : Bytes), Ready c.loop.reqacc →
      c.packetSteps aes128 dgram = [((c, none), dgram)] →
      framesOf aes128 ((c, none), dgram) = [wholeFrame 0 Session.getData] →
      Received [wholeFrame 0 Session.getData] Session.getData := by
    intro c dgram hready hsteps hframes
    have hlen : Session.getData.length ≤ reqCap := by decide
    have h := decoded_bytes_received aes128 hready [(dgram, 1500)] ((c, []), (dgram, 1500)) (by simp)
      [] ((c, none), dgram) [] hsteps Session.getData
      (decodes_of_wholeFrame aes128 hready hframes hlen)
    rw [logAt_nil, hframes] at h
    exact h ⟨_, whole_wholeFrame hlen⟩
  have hne : Session.getOn 0 ≠ [] := by decide
  refine ⟨Session.confirmed_eq.1.ready, key _ _ Session.confirmed_eq.1.ready
    (Session.packetSteps_onertt (Session.getOn 0)) ?_⟩
  rw [Session.framesOf_onertt hne, Session.requestFrames_getOn_zero]

/-- **Bytes that were not received are decoded.** A FIN at offset 5, without any data before it, has
the decoder run on the five bytes that happen to lie in the buffer. -/
theorem gap_decoded : ∃ d,
    Session.confirmed.packetSteps aes128 (Session.onertt Session.gap) =
      [((Session.confirmed, none), Session.onertt Session.gap)] ∧
    framesOf aes128 ((Session.confirmed, none), Session.onertt Session.gap) =
      [{ streamId := 0, offset := 5, data := [], fin := true }] ∧
    decodes aes128 ((Session.confirmed, none), Session.onertt Session.gap) = some d ∧
    d.length = 5 ∧
    ¬ Received (logAt aes128 [] [] ((Session.confirmed, none), Session.onertt Session.gap)) d := by
  have key : ∀ (c : ServerConn Unit) (pkt : Bytes), Ready c.loop.reqacc →
      framesOf aes128 ((c, none), pkt) = [Session.gapFrame] →
      ∃ d, decodes aes128 ((c, none), pkt) = some d ∧ d.length = 5 := by
    rintro c pkt ⟨hzero, -, hdone⟩ hframes
    have hgather : gathered aes128 ((c, none), pkt) =
        { c.loop.reqacc with len := 5, fin := true } := by
      rw [gathered, hframes, List.foldl_cons, List.foldl_nil,
        gatherOne_of_fits _ (by decide) (by decide), hzero]
      simp [Session.gapFrame, stop]
    refine ⟨(gathered aes128 ((c, none), pkt)).bytes, ?_, ?_⟩
    · rw [decodes, hframes, hgather]
      simp [Reqacc.requestComplete, hdone]
    · rw [hgather]
      simp only [Reqacc.bytes, List.length_take, Vector.length_toList]
      decide
  have hframes : framesOf aes128 ((Session.confirmed, none), Session.onertt Session.gap) =
      [Session.gapFrame] := by
    rw [Session.framesOf_onertt (by decide), Session.requestFrames_gap]
  obtain ⟨d, hd, hlen⟩ := key _ _ Session.confirmed_eq.1.ready hframes
  refine ⟨d, Session.packetSteps_onertt _, hframes, hd, hlen, ?_⟩
  rw [logAt_nil, hframes]
  rintro ⟨f, -, -, -, -, hbytes, -⟩
  -- no frame covers the first byte
  obtain ⟨g, hg, -, hlo, -⟩ := hbytes 0 (by omega)
  rw [List.mem_singleton.1 hg] at hlo
  exact absurd hlo (by decide)

end ServerConn

end Loop

end QuicVibe
