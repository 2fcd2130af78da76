import J2kNative.ClassicSchedule
import J2kNative.ClassicPayload
import J2kNative.ClassicBlockRuns

/-!
# Round trip of classic blocks

A decoder that runs over the segments of an encoder arrives at its coefficients. Along the passes the
encoder stands in a segment whose decisions it has handed to a coder, behind segments that a decoder
has got through. The plan of the payload is kept, so that no block is refused for its size.
-/
namespace J2kNative.ClassicEncoder
open SymbolChannels RecordedRuns CountedLoops MqStates MqEncoder MqInterval MqDecoder MqRoundTrip
  PayloadPlan Fallible
open ClassicDecoder (Job Moment BitPlaneDecodeContext CodeBlockSegment decodeSegment)

/-! ## Passes of a segment -/

section
variable {b : CodeBlock} {maxCodingPasses : ℕ} {strict : Bool} {numBitplanes : ℕ}

/-- The passes of a segment. -/
def CodeBlock.encodeTurns (b : CodeBlock) (useArithmetic : Bool) (numBitplanes start stop : ℕ) :
    Send Arrays Decision Unit :=
  (List.range' start (stop - start)).forM (b.encodeTurn useArithmetic numBitplanes)

theorem arithmeticPasses_agree {ch : Channel Decision Moment ArithmeticDecoder (Buffer Context)}
    (hch : Carries ch false ClassicDecoder.readBitArithmetic) (hb : b.Small)
    (hbits : numBitplanes ≤ 63) {start stop : ℕ} (hstart : start ≤ stop)
    (hstop : stop ≤ 1 + 3 * (numBitplanes - 1)) :
    Agree ch (Before b (b.job numBitplanes maxCodingPasses strict) numBitplanes start)
      (b.encodeTurns true numBitplanes start stop)
      (ClassicDecoder.handleArithmeticCodingPassesWithNeighbors
        (b.job numBitplanes maxCodingPasses strict) false start stop)
      fun _ _ => Before b (b.job numBitplanes maxCodingPasses strict) numBitplanes stop := by
  have hpasses : Agree ch (Before b (b.job numBitplanes maxCodingPasses strict) numBitplanes start)
      (b.encodeTurns true numBitplanes start stop)
      (ClassicDecoder.handleArithmeticCodingPassesWithNeighbors
        (b.job numBitplanes maxCodingPasses strict) false start stop)
      fun _ _ => Before b (b.job numBitplanes maxCodingPasses strict) numBitplanes
        (start + (stop - start)) :=
    Agree.forRange' fun i _ hi => codingPass_agree hch hb hbits (by omega) (fun _ => rfl)
      fun p hp _ => cleanupPass_agree hch hb hp
  rwa [Nat.add_sub_cancel' hstart] at hpasses

theorem rawPasses_agree {ch : Channel Decision Moment BitStuffing.BitReader (Buffer Context)}
    (hch : Carries ch true (ClassicDecoder.readBitBypass strict)) (hb : b.Small)
    (hbits : numBitplanes ≤ 63) {start stop : ℕ} (hstart : start ≤ stop)
    (hstop : stop ≤ 1 + 3 * (numBitplanes - 1))
    (hraw : ∀ codingPass, start ≤ codingPass → codingPass < stop → codingPass % 3 ≠ 0) :
    Agree ch (Before b (b.job numBitplanes maxCodingPasses strict) numBitplanes start)
      (b.encodeTurns false numBitplanes start stop)
      (ClassicDecoder.handleBypassCodingPasses (b.job numBitplanes maxCodingPasses strict) start stop)
      fun _ _ => Before b (b.job numBitplanes maxCodingPasses strict) numBitplanes stop := by
  have hpasses : Agree ch (Before b (b.job numBitplanes maxCodingPasses strict) numBitplanes start)
      (b.encodeTurns false numBitplanes start stop)
      (ClassicDecoder.handleBypassCodingPasses (b.job numBitplanes maxCodingPasses strict) start stop)
      fun _ _ => Before b (b.job numBitplanes maxCodingPasses strict) numBitplanes
        (start + (stop - start)) :=
    Agree.forRange' fun i hi hi' => codingPass_agree hch hb hbits (by omega)
      (fun hzero => absurd hzero (hraw i hi (by omega)))
      fun p hp hzero => absurd hzero (hraw i hi (by omega))
  rwa [Nat.add_sub_cancel' hstart] at hpasses

/-- The bytes that a coder makes of the decisions of a segment, and the contexts behind it. -/
def codeSegment (useArithmetic : Bool) (contexts : Buffer Context) (ds : List Decision) :
    List ℕ × Buffer Context :=
  if useArithmetic then
    ((ds.foldl takeSymbol (.new,contexts)).1.finish,(ds.foldl takeSymbol (.new,contexts)).2)
  else ((ds.foldl takeRaw (.empty,contexts)).1.finish,(ds.foldl takeRaw (.empty,contexts)).2)

/-- The decoder stands where the encoder stands, with the same contexts. -/
structure Meets (b : CodeBlock) (job : Job) (numBitplanes codingPass : ℕ) (a : Arrays)
    (contexts : Buffer Context) (m : Moment) : Prop where
  before : Before b job numBitplanes codingPass a m
  contexts_eq : m.ctx.contexts = contexts
  valid : ∀ label, (contexts label).Valid

theorem takeRaw_valid {contexts : Buffer Context} (h : ∀ label, (contexts label).Valid)
    (w : BitStuffing.BitWriter) (ds : List Decision) :
    ∀ label, ((ds.foldl takeRaw (w,contexts)).2 label).Valid := by
  induction ds generalizing w contexts with
  | nil => exact h
  | cons d ds ih =>
      cases d with
      | symbol label bit => exact ih h w
      | raw bit => exact ih h (w.writeBit bit)
      | resetContexts => exact ih resetContexts_valid w

theorem withSource_run {δ δ' α : Type} {d : δ} {m : Rec Moment δ α} {r : Run Moment δ'} {o : α}
    {r' : Run Moment δ} (h : m ⟨r.state,d,r.trace⟩ = (some o,r')) :
    withSource d m r = (some o,⟨r'.state,r.source,r'.trace⟩) := by
  unfold withSource
  rw [h]

theorem forM_concat_run {β δ : Type} {f : β → Rec Moment δ Unit} {l : List β} {x : β}
    {r r' r'' : Run Moment δ} (hl : l.forM f r = (some (),r')) (hx : f x r' = (some (),r'')) :
    (l ++ [x]).forM f r = (some (),r'') := by
  induction l generalizing r with
  | nil =>
      obtain rfl : r = r' := (Prod.mk.inj hl).2
      rw [List.nil_append,RecordedRuns.forM_cons,RecordedRuns.bind_run,hx]
      rfl
  | cons y l ih =>
      rw [List.cons_append,RecordedRuns.forM_cons,RecordedRuns.bind_run]
      rw [RecordedRuns.forM_cons,RecordedRuns.bind_run] at hl
      cases hy : f y r with
      | mk o r₁ =>
          rw [hy] at hl
          cases o with
          | none => cases hl
          | some value => exact ih hl

theorem decodeSegment_arithmetic {job : Job} {data : List ℕ} {start stop : ℕ}
    (hstop : stop ≤ job.maxCodingPasses) : decodeSegment job ⟨data,start,stop,true⟩ =
      withSource (.new data)
        (ClassicDecoder.handleArithmeticCodingPassesWithNeighbors job false start stop) := by
  unfold decodeSegment
  dsimp only
  rw [if_pos rfl,Nat.min_eq_left hstop,ClassicDecoder.handleArithmetic_path]

theorem decodeSegment_raw {job : Job} {data : List ℕ} {start stop : ℕ}
    (hstop : stop ≤ job.maxCodingPasses) : decodeSegment job ⟨data,start,stop,false⟩ =
      withSource (⟨data,0⟩ : BitStuffing.BitReader)
        (ClassicDecoder.handleBypassCodingPasses job start stop) := by
  unfold decodeSegment
  dsimp only
  rw [if_neg Bool.false_ne_true,Nat.min_eq_left hstop]

/-- Run lemma of a segment: the decoder goes through all of its passes. -/
theorem decodeSegment_meets (hb : b.Small) (hbits : numBitplanes ≤ 63) {start stop : ℕ}
    (hstart : start ≤ stop) (hstop : stop ≤ 1 + 3 * (numBitplanes - 1)) {useArithmetic : Bool}
    (hraw : useArithmetic = false →
      ∀ codingPass, start ≤ codingPass → codingPass < stop → codingPass % 3 ≠ 0)
    {a : Arrays} {contexts : Buffer Context} {r : Run Moment Unit}
    (h : Meets b (b.job numBitplanes (1 + 3 * (numBitplanes - 1)) strict) numBitplanes start a contexts
      r.state) :
    let sent := b.encodeTurns useArithmetic numBitplanes start stop a
    let coded := codeSegment useArithmetic contexts sent.symbols
    ∃ r', decodeSegment (b.job numBitplanes (1 + 3 * (numBitplanes - 1)) strict)
        ⟨coded.1,start,stop,useArithmetic⟩ r = (some (),r') ∧
      Meets b (b.job numBitplanes (1 + 3 * (numBitplanes - 1)) strict) numBitplanes stop sent.state
        coded.2 r'.state := by
  cases useArithmetic with
  | true =>
      have hgoing : Going (.new,contexts) := ⟨coding_new,h.valid⟩
      have hfin := hgoing.takeSymbols (b.encodeTurns true numBitplanes start stop a).symbols
      have hheld := arithmetic_start h.valid (b.encodeTurns true numBitplanes start stop a).symbols
      obtain ⟨⟨⟩,r',hrun,hheld',hbefore⟩ := arithmeticPasses_agree (carries_arithmetic hfin.coding) hb
        hbits hstart hstop a
        ⟨r.state,.new (codeSegment true contexts
          (b.encodeTurns true numBitplanes start stop a).symbols).1,r.trace⟩ h.before [] (by
          rw [List.append_nil]
          exact h.contexts_eq ▸ hheld)
      refine ⟨⟨r'.state,r.source,r'.trace⟩,?_,hbefore,arithmetic_end hheld',hfin.valid⟩
      rw [decodeSegment_arithmetic hstop]
      exact withSource_run hrun
  | false =>
      have hheld := raw_start contexts (b.encodeTurns false numBitplanes start stop a).symbols
      have hch : Carries (rawChannel ((b.encodeTurns false numBitplanes start stop a).symbols.foldl
          takeRaw (.empty,contexts))) true (ClassicDecoder.readBitBypass strict) := carries_raw strict
      obtain ⟨⟨⟩,r',hrun,hheld',hbefore⟩ := rawPasses_agree hch hb hbits hstart hstop
        (hraw rfl) a ⟨r.state,⟨(codeSegment false contexts
          (b.encodeTurns false numBitplanes start stop a).symbols).1,0⟩,r.trace⟩ h.before [] (by
          rw [List.append_nil]
          exact h.contexts_eq ▸ hheld)
      refine ⟨⟨r'.state,r.source,r'.trace⟩,?_,hbefore,raw_end hheld',takeRaw_valid h.valid _ _⟩
      rw [decodeSegment_raw hstop]
      exact withSource_run hrun

end

/-! ## Segments that are closed -/

/-- The segment that a record points to. -/
def sliceSegment (data : List ℕ) (segment : EncodedSegment) : CodeBlockSegment :=
  ⟨(data.drop segment.dataOffset).take segment.dataLength,segment.startCodingPass,
    segment.endCodingPass,segment.useArithmetic⟩

/-- Segments from one pass to another without a gap. -/
def Contiguous : ℕ → List CodeBlockSegment → ℕ → Prop
  | start, [], stop => start = stop
  | start, segment :: segments, stop =>
      segment.startCodingPass = start ∧ start ≤ segment.endCodingPass ∧
        Contiguous segment.endCodingPass segments stop

theorem Contiguous.snoc {segments : List CodeBlockSegment} {start stop : ℕ}
    (h : Contiguous start segments stop) {segment : CodeBlockSegment}
    (hstart : segment.startCodingPass = stop) (hle : stop ≤ segment.endCodingPass) :
    Contiguous start (segments ++ [segment]) segment.endCodingPass := by
  induction segments generalizing start with
  | nil =>
      obtain rfl : start = stop := h
      exact ⟨hstart,hle,rfl⟩
  | cons first segments ih => exact ⟨h.1,h.2.1,ih h.2.2⟩

theorem decodeCodeBlockSegments_eq {job : Job} {segments : List CodeBlockSegment} {start stop : ℕ}
    (h : Contiguous start segments stop) :
    ClassicDecoder.decodeCodeBlockSegments job segments start stop =
      segments.forM (decodeSegment job) := by
  induction segments generalizing start with
  | nil =>
      obtain rfl : start = stop := h
      exact if_neg (not_not.mpr rfl)
  | cons segment segments ih =>
      obtain ⟨hstart,hle,hrest⟩ := h
      unfold ClassicDecoder.decodeCodeBlockSegments
      rw [if_neg (by rw [hstart]; omega),ih hrest]
      rfl

/-- The costs of all passes before one. -/
def CodeBlock.spent (b : CodeBlock) (codingPass : ℕ) : ℕ :=
  ((List.range codingPass).map b.turnCost).sum

theorem CodeBlock.spent_add (b : CodeBlock) {start stop : ℕ} (h : start ≤ stop) :
    b.spent start + ((List.range' start (stop - start)).map b.turnCost).sum = b.spent stop := by
  have hrange : List.range stop = List.range start ++ List.range' start (stop - start) := by
    rw [List.range_eq_range',List.range_eq_range']
    have happend := List.range'_append_1 (s := 0) (m := start) (n := stop - start)
    rw [Nat.zero_add,Nat.add_sub_cancel' h] at happend
    exact happend.symm
  unfold CodeBlock.spent
  rw [hrange,List.map_append,List.sum_append]

/-- The segments that an encoder has closed, with a decoder that has gone through them where the
magnitudes leave room for their signs. -/
structure Behind (b : CodeBlock) (numBitplanes : ℕ) (data : List ℕ) (segments : List EncodedSegment)
    (codingPass : ℕ) (a : Arrays) (contexts : Buffer Context) : Prop where
  inside : ∀ segment ∈ segments, segment.dataOffset + segment.dataLength ≤ data.length
  contiguous : Contiguous 0 (segments.map (sliceSegment data)) codingPass
  modes : ∀ segment ∈ segments, segment.useArithmetic =
    ClassicSegments.passUsesArithmetic b.cutStyle segment.startCodingPass
  shared : ∀ segment ∈ segments, segment.startCodingPass < segment.endCodingPass ∧
    ∀ p, segment.startCodingPass ≤ p → p < segment.endCodingPass →
      ClassicSegments.segmentIndex b.cutStyle p =
        ClassicSegments.segmentIndex b.cutStyle segment.startCodingPass
  joined : data = segments.flatMap fun segment => (sliceSegment data segment).data
  valid : ∀ label, (contexts label).Valid
  decoded : b.Small → numBitplanes ≤ 63 → ∀ strict, ∃ r, (segments.map (sliceSegment data)).forM
      (decodeSegment (b.job numBitplanes (1 + 3 * (numBitplanes - 1)) strict))
      ClassicDecoder.startOfRun = (some (),r) ∧
    Meets b (b.job numBitplanes (1 + 3 * (numBitplanes - 1)) strict) numBitplanes codingPass a contexts
      r.state
  bytes : 14 * data.length ≤ 15 * b.spent codingPass + 28 * segments.length
  count : segments.length ≤ codingPass

section
variable {b : CodeBlock} {numBitplanes : ℕ} {data : List ℕ}
  {segments : List EncodedSegment} {start stop : ℕ} {a : Arrays} {contexts : Buffer Context}

theorem sliceSegment_append (suffix : List ℕ) {segment : EncodedSegment}
    (h : segment.dataOffset + segment.dataLength ≤ data.length) :
    sliceSegment (data ++ suffix) segment = sliceSegment data segment := by
  unfold sliceSegment
  rw [List.drop_append_of_le_length (by omega),List.take_append_of_le_length]
  rw [List.length_drop]
  omega

theorem encodeTurns_costs (b : CodeBlock) (useArithmetic : Bool) (numBitplanes : ℕ)
    (h : start ≤ stop) (a : Arrays) :
    b.spent start + 2 * (b.encodeTurns useArithmetic numBitplanes start stop a).symbols.countP
      Decision.isBit ≤ b.spent stop := by
  rw [← b.spent_add h,← sum_cost]
  exact Nat.add_le_add_left (Costs.forM (fun _ _ => b.encodeTurn_costs useArithmetic numBitplanes _) a) _

theorem slices_append (h : ∀ segment ∈ segments, segment.dataOffset + segment.dataLength ≤ data.length)
    (suffix : List ℕ) :
    segments.map (sliceSegment (data ++ suffix)) = segments.map (sliceSegment data) :=
  List.map_congr_left fun segment hmem => sliceSegment_append suffix (h segment hmem)

theorem sliceSegment_last (data suffix : List ℕ) (start stop : ℕ) (useArithmetic : Bool) :
    sliceSegment (data ++ suffix) ⟨data.length,suffix.length,start,stop,useArithmetic⟩ =
      ⟨suffix,start,stop,useArithmetic⟩ := by
  unfold sliceSegment
  rw [List.drop_left,List.take_length]

theorem codeSegment_valid (useArithmetic : Bool) (h : ∀ label, (contexts label).Valid)
    (ds : List Decision) : ∀ label, ((codeSegment useArithmetic contexts ds).2 label).Valid := by
  cases useArithmetic with
  | true => exact (Going.takeSymbols ⟨coding_new,h⟩ ds).valid
  | false => exact takeRaw_valid h .empty ds

/-- Step lemma: a segment is closed. -/
theorem Behind.push (h : Behind b numBitplanes data segments start a contexts)
    (hstart : start < stop) (hstop : stop ≤ 1 + 3 * (numBitplanes - 1))
    {useArithmetic : Bool}
    (hmode : useArithmetic = ClassicSegments.passUsesArithmetic b.cutStyle start)
    (hraw : useArithmetic = false →
      ∀ codingPass, start ≤ codingPass → codingPass < stop → codingPass % 3 ≠ 0)
    (hsame : ∀ p, start ≤ p → p < stop →
      ClassicSegments.segmentIndex b.cutStyle p = ClassicSegments.segmentIndex b.cutStyle start) :
    let sent := b.encodeTurns useArithmetic numBitplanes start stop a
    let coded := codeSegment useArithmetic contexts sent.symbols
    14 * coded.1.length ≤ 30 * sent.symbols.countP Decision.isBit + 28 →
    Behind b numBitplanes (data ++ coded.1)
      (segments ++ [⟨data.length,coded.1.length,start,stop,useArithmetic⟩]) stop sent.state
      coded.2 := by
  intro sent coded hbytes
  have hcosts : b.spent start + 2 * sent.symbols.countP Decision.isBit ≤ b.spent stop :=
    encodeTurns_costs b useArithmetic numBitplanes hstart.le a
  have hslices : (segments ++
      [(⟨data.length,coded.1.length,start,stop,useArithmetic⟩ : EncodedSegment)]).map
        (sliceSegment (data ++ coded.1)) =
          segments.map (sliceSegment data) ++ [⟨coded.1,start,stop,useArithmetic⟩] := by
    rw [List.map_append,slices_append h.inside,List.map_singleton,sliceSegment_last]
  have hcontiguous : Contiguous 0
      (segments.map (sliceSegment data) ++ [⟨coded.1,start,stop,useArithmetic⟩]) stop :=
    h.contiguous.snoc rfl hstart.le
  have hjoined : (segments.flatMap fun segment => (sliceSegment (data ++ coded.1) segment).data) =
      data := by
    refine .trans (List.flatMap_congr fun segment hmem => ?_) h.joined.symm
    rw [sliceSegment_append _ (h.inside segment hmem)]
  refine ⟨fun segment hmem => ?_,?_,fun segment hmem => ?_,fun segment hmem => ?_,?_,
    codeSegment_valid _ h.valid _,fun hb hbits strict => ?_,?_,?_⟩
  · rw [List.length_append]
    rcases List.mem_append.mp hmem with hmem | hmem
    · exact (h.inside segment hmem).trans (Nat.le_add_right _ _)
    · rw [List.mem_singleton.mp hmem]
  · rw [hslices]
    exact hcontiguous
  · rcases List.mem_append.mp hmem with hmem | hmem
    · exact h.modes segment hmem
    · rw [List.mem_singleton.mp hmem]
      exact hmode
  · rcases List.mem_append.mp hmem with hmem | hmem
    · exact h.shared segment hmem
    · rw [List.mem_singleton.mp hmem]
      exact ⟨hstart,hsame⟩
  · rw [List.flatMap_append,hjoined,List.flatMap_singleton,sliceSegment_last]
  · obtain ⟨r,hrun,hmeets⟩ := h.decoded hb hbits strict
    obtain ⟨r',hrun',hmeets'⟩ := decodeSegment_meets hb hbits hstart.le hstop hraw hmeets
    refine ⟨r',?_,hmeets'⟩
    rw [hslices]
    exact forM_concat_run hrun hrun'
  · rw [List.length_append,List.length_append,List.length_singleton]
    have := h.bytes
    omega
  · rw [List.length_append,List.length_singleton]
    have := h.count
    omega

end

end J2kNative.ClassicEncoder
