import J2kNative.HtContributions
import Mathlib.Data.List.Chain
import Mathlib.Data.List.Basic

/-!
# Segments of classic contributions

The coding passes of a block are cut by its termination style into codeword segments and
by the layers into contributions, anywhere. The parser numbers the segments of every
contribution, the decoder puts the contributions together again, and the encoder ends
its segments on its own account.
-/
namespace J2kNative.ClassicSegments
open BitStuffing Fallible HtContributions

structure CodeBlockStyle where
  selectiveArithmeticCodingBypass : Bool
  terminationOnEachPass : Bool
  deriving DecidableEq, Repr

/-! ## Parser -/

def segmentIdxForBypass (passIdx : ℕ) : ℕ :=
  if passIdx < 10 then 0
  else 1 + 2 * ((passIdx - 10) / 3) + if (passIdx - 10) % 3 = 2 then 1 else 0

def segmentIdx (style : CodeBlockStyle) (cb : CodeBlock) (passIdx : ℕ) : ℕ :=
  if style.terminationOnEachPass then passIdx
  else if style.selectiveArithmeticCodingBypass then segmentIdxForBypass passIdx
  else cb.nonEmptyLayerCount

structure ParseState where
  reader : BitReader
  firstLength : Option ℕ
  lastSegment : ℕ
  passesInSegment : ℕ
  segments : List Segment

/-- The closure `push_segment`; memory that cannot be had is left out. -/
def pushSegment (lBlock : ℕ) (s : ParseState) : Except String ParseState :=
  match s.firstLength with
  | some length => .ok { s with
      firstLength := none
      segments := s.segments ++ [⟨s.lastSegment,s.passesInSegment,length⟩] }
  | none => do
      let (length,reader) ← readSegmentLength s.reader lBlock s.passesInSegment
      .ok { s with
        reader
        segments := s.segments ++ [⟨s.lastSegment,s.passesInSegment,length⟩] }

/-- One turn of the loop over the coding passes. -/
def placePass (index : ℕ → ℕ) (lBlock : ℕ) (s : ParseState) (codingPass : ℕ) :
    Except String ParseState :=
  if index codingPass = s.lastSegment then .ok { s with passesInSegment := s.passesInSegment + 1 }
  else do
    let s ← pushSegment lBlock s
    .ok { s with
      lastSegment := index codingPass
      passesInSegment := 1 }

def finishSegment (lBlock : ℕ) (s : ParseState) : Except String ParseState :=
  if s.passesInSegment ≠ 0 then pushSegment lBlock s else .ok s

def parseContributionLengths (r : BitReader) (addedCodingPasses : ℕ) (firstLength : Option ℕ)
    (cb : CodeBlock) (style : CodeBlockStyle) :
    Except String (CodeBlock × List Segment × BitReader) :=
  let previousPasses := cb.numberOfCodingPasses
  let cumulativePasses := previousPasses + addedCodingPasses
  if cumulativePasses > 255 then .error "classic cumulative coding-pass count overflows"
  else if cumulativePasses > maxCodingPasses then
    .error "classic cumulative coding-pass count exceeds the supported maximum"
  else do
    let index := segmentIdx style cb
    let s ← (List.range' previousPasses addedCodingPasses).foldlM (placePass index cb.lBlock)
      ⟨r,firstLength,index previousPasses,0,[]⟩
    let s ← finishSegment cb.lBlock s
    if s.firstLength.isSome then
      .error "classic contribution did not consume its prefetched length"
    else .ok ({ cb with numberOfCodingPasses := cumulativePasses },s.segments,s.reader)

/-- What a layer with data brings: where its lengths are read, behind the number of passes and
the L-block, which were read before. -/
structure Contribution where
  reader : BitReader
  addedCodingPasses : ℕ
  lBlock : ℕ
  deriving DecidableEq, Repr

/-- What `resolve_segments` does for one layer. -/
def parseLayer (style : CodeBlockStyle) (s : CodeBlock × List Segment) (c : Contribution) :
    Except String (CodeBlock × List Segment) := do
  let (cb,segments,_) ← parseContributionLengths c.reader c.addedCodingPasses none
    { s.1 with lBlock := c.lBlock } style
  if cb.nonEmptyLayerCount + 1 > 255 then .error "classic non-empty layer count overflows"
  else .ok ({ cb with
    coding := some .classic
    nonEmptyLayerCount := cb.nonEmptyLayerCount + 1 },s.2 ++ segments)

def freshBlock : CodeBlock := ⟨0,0,0,none,none,none,3,0⟩

def parseLayers (style : CodeBlockStyle) (layers : List Contribution) :
    Except String (CodeBlock × List Segment) :=
  layers.foldlM (parseLayer style) (freshBlock,[])

/-! ## Decoder -/

structure BoundaryState where
  lastSegmentIdx : ℕ
  codingPasses : ℕ
  segmentCodingPasses : List ℕ
  deriving DecidableEq, Repr

/-- A segment with another index than the last must have the next. -/
def openSegment (s : BoundaryState) (idx : ℕ) : Option BoundaryState :=
  if idx ≠ s.lastSegmentIdx then
    if s.lastSegmentIdx + 1 ≠ idx then none
    else some { s with
      lastSegmentIdx := s.lastSegmentIdx + 1
      segmentCodingPasses := s.segmentCodingPasses ++ [s.codingPasses] }
  else some s

/-- One turn of the first loop of `decode_inner`, without the bytes. -/
def joinSegment (s : BoundaryState) (segment : Segment) : Option BoundaryState := do
  let s ← openSegment s segment.idx
  if s.codingPasses + segment.codingPasses > 255 then none
  else some { s with codingPasses := s.codingPasses + segment.codingPasses }

def passBoundaries (segments : List Segment) (numberOfCodingPasses : ℕ) : Option (List ℕ) := do
  let s ← segments.foldlM joinSegment ⟨0,0,[0]⟩
  if s.codingPasses ≠ numberOfCodingPasses then none
  else some (s.segmentCodingPasses ++ [s.codingPasses])

/-- A run of passes under one coder, from one pass up to another. -/
structure CodedRun where
  startCodingPass : ℕ
  endCodingPass : ℕ
  useArithmetic : Bool
  deriving DecidableEq, Repr

/-- From every boundary to the next. -/
def runsBetween (useArithmetic : ℕ → Bool) : List ℕ → List CodedRun
  | start :: stop :: boundaries =>
      ⟨start,stop,useArithmetic start⟩ :: runsBetween useArithmetic (stop :: boundaries)
  | _ => []

/-- The decoder of a segment, told from its first pass. -/
def decoderUsesArithmetic (style : CodeBlockStyle) (startCodingPass : ℕ) : Bool :=
  if style.selectiveArithmeticCodingBypass then
    if startCodingPass ≤ 9 then true else startCodingPass % 3 = 0
  else true

/-- The runs that `decode_inner` decodes, each cut off at the passes that are asked for. -/
def decodedRuns (style : CodeBlockStyle) (maxPasses numberOfCodingPasses : ℕ)
    (segments : List Segment) : Option (List CodedRun) := do
  let boundaries ← passBoundaries segments numberOfCodingPasses
  let runs := if ¬style.selectiveArithmeticCodingBypass ∧ ¬style.terminationOnEachPass then
      [⟨0,numberOfCodingPasses,true⟩]
    else runsBetween (decoderUsesArithmetic style) boundaries
  some (runs.map fun run => { run with endCodingPass := min run.endCodingPass maxPasses })

/-! ## Encoder -/

def segmentIndex (style : CodeBlockStyle) (codingPass : ℕ) : ℕ :=
  if style.terminationOnEachPass then codingPass
  else if style.selectiveArithmeticCodingBypass then segmentIdxForBypass codingPass
  else 0

def passUsesArithmetic (style : CodeBlockStyle) (codingPass : ℕ) : Bool :=
  !style.selectiveArithmeticCodingBypass || codingPass ≤ 9 || codingPass % 3 = 0

structure EncoderState where
  currentSegmentIdx : Option ℕ
  currentSegmentStartPass : ℕ
  currentUseArithmetic : Bool
  segments : List CodedRun
  deriving DecidableEq, Repr

def EncoderState.finishCurrentSegment (s : EncoderState) (endCodingPass : ℕ) : List CodedRun :=
  s.segments ++ [⟨s.currentSegmentStartPass,endCodingPass,s.currentUseArithmetic⟩]

def beginSegmentForPass (style : CodeBlockStyle) (s : EncoderState) (codingPass : ℕ) :
    EncoderState :=
  if s.currentSegmentIdx = some (segmentIndex style codingPass) then s
  else ⟨some (segmentIndex style codingPass),codingPass,passUsesArithmetic style codingPass,
    if s.currentSegmentIdx.isSome then s.finishCurrentSegment codingPass else s.segments⟩

/-- The segments that `try_encode_segmented_code_block` records. -/
def encodedSegments (style : CodeBlockStyle) (totalPasses : ℕ) : List CodedRun :=
  if ¬style.terminationOnEachPass ∧ ¬style.selectiveArithmeticCodingBypass then
    if totalPasses = 0 then [] else [⟨0,totalPasses,true⟩]
  else
    let s := (List.range totalPasses).foldl (beginSegmentForPass style) ⟨none,0,true,[]⟩
    if s.currentSegmentIdx.isSome then s.finishCurrentSegment totalPasses else s.segments

/-! ## Stairs -/

/-- From pass to pass the index stays or rises by one. -/
structure Stairs (g : ℕ → ℕ) : Prop where
  zero : g 0 = 0
  step : ∀ p, g (p + 1) = g p ∨ g (p + 1) = g p + 1

theorem stairs_segmentIdxForBypass : Stairs segmentIdxForBypass := by
  refine ⟨rfl,fun p => ?_⟩
  unfold segmentIdxForBypass
  split_ifs <;> omega

theorem stairs_segmentIndex (style : CodeBlockStyle) : Stairs (segmentIndex style) := by
  refine ⟨?_,fun p => ?_⟩
  · unfold segmentIndex
    split_ifs <;> rfl
  · unfold segmentIndex
    split_ifs
    · exact .inr rfl
    · exact stairs_segmentIdxForBypass.step p
    · exact .inl rfl

/-- The layer of a pass, where the layers bring these numbers of passes. -/
def layerIndex : List ℕ → ℕ → ℕ
  | [], _ => 0
  | n :: cuts, p => if p < n then 0 else layerIndex cuts (p - n) + 1

theorem stairs_layerIndex {cuts : List ℕ} (h : ∀ n ∈ cuts, 0 < n) : Stairs (layerIndex cuts) := by
  induction cuts with
  | nil => exact ⟨rfl,fun _ => .inl rfl⟩
  | cons n cuts ih =>
      have hn := h n List.mem_cons_self
      have htail := ih fun m hm => h m (List.mem_cons_of_mem _ hm)
      refine ⟨if_pos hn,fun p => ?_⟩
      unfold layerIndex
      rcases Nat.lt_trichotomy (p + 1) n with hlt | heq | hgt
      · rw [if_pos hlt,if_pos (by omega)]
        exact .inl rfl
      · rw [if_neg (by omega),if_pos (by omega),heq,Nat.sub_self,htail.zero]
        exact .inr rfl
      · rw [if_neg (by omega),if_neg (by omega),Nat.sub_add_comm (by omega)]
        rcases htail.step (p - n) with h' | h' <;> omega

/-- The index that the parser gives a pass. -/
def parserIndex (style : CodeBlockStyle) (cuts : List ℕ) : ℕ → ℕ :=
  if style.terminationOnEachPass ∨ style.selectiveArithmeticCodingBypass then segmentIndex style
  else layerIndex cuts

theorem stairs_parserIndex (style : CodeBlockStyle) {cuts : List ℕ} (h : ∀ n ∈ cuts, 0 < n) :
    Stairs (parserIndex style cuts) := by
  unfold parserIndex
  split_ifs
  · exact stairs_segmentIndex style
  · exact stairs_layerIndex h

/-- The passes at which the index changes, and the first. -/
def changes (g : ℕ → ℕ) (n : ℕ) : List ℕ :=
  (List.range n).filter fun p => p = 0 ∨ g p ≠ g (p - 1)

theorem changes_succ (g : ℕ → ℕ) (n : ℕ) : changes g (n + 1) =
    changes g n ++ if n = 0 ∨ g n ≠ g (n - 1) then [n] else [] := by
  unfold changes
  rw [List.range_succ,List.filter_append]
  congr 1
  by_cases h : n = 0 ∨ g n ≠ g (n - 1) <;> simp [h]

/-- Within a run of one index nothing changes. -/
theorem changes_run {g : ℕ → ℕ} {p m : ℕ} (h : ∀ q < m + 1, g (p + q) = g p) :
    changes g (p + (m + 1)) = changes g (p + 1) := by
  induction m with
  | zero => rfl
  | succ m ih =>
      have hlast := h (m + 1) (by omega)
      have hbefore := h m (by omega)
      have hsub : p + (m + 1) - 1 = p + m := rfl
      rw [← Nat.add_assoc,changes_succ,ih fun q hq => h q (by omega),if_neg,List.append_nil]
      rw [hsub,hlast,hbefore]
      simp

/-! ## The encoder's runs -/

theorem runsBetween_snoc (useArithmetic : ℕ → Bool) (l : List ℕ) (start stop : ℕ) :
    runsBetween useArithmetic (l ++ [start] ++ [stop]) =
      runsBetween useArithmetic (l ++ [start]) ++ [⟨start,stop,useArithmetic start⟩] := by
  induction l with
  | nil => rfl
  | cons a l ih =>
      cases l with
      | nil => rfl
      | cons b l => exact congrArg (_ :: ·) ih

/-- After the first passes the encoder stands in the segment of the last. -/
theorem beginSegments (style : CodeBlockStyle) (n : ℕ) :
    ∃ l start, changes (segmentIndex style) (n + 1) = l ++ [start] ∧
      (List.range (n + 1)).foldl (beginSegmentForPass style) ⟨none,0,true,[]⟩ =
        ⟨some (segmentIndex style n),start,passUsesArithmetic style start,
          runsBetween (passUsesArithmetic style) (l ++ [start])⟩ := by
  induction n with
  | zero => exact ⟨[],0,rfl,rfl⟩
  | succ n ih =>
      obtain ⟨l,start,hchanges,hs⟩ := ih
      rw [changes_succ,hchanges,List.range_succ,List.foldl_append,hs,List.foldl_cons,List.foldl_nil]
      unfold beginSegmentForPass
      dsimp only
      by_cases hsame : segmentIndex style n = segmentIndex style (n + 1)
      · rw [if_pos (congrArg some hsame),if_neg (by simp [hsame]),List.append_nil]
        exact ⟨l,start,rfl,by rw [hsame]⟩
      · rw [if_neg (fun h => hsame (Option.some.inj h)),
          if_pos (.inr fun h => hsame (by simpa using h.symm))]
        refine ⟨l ++ [start],n + 1,rfl,?_⟩
        rw [runsBetween_snoc]
        rfl

theorem encodedSegments_eq {style : CodeBlockStyle} {total : ℕ} (hpos : 0 < total)
    (h : style.terminationOnEachPass ∨ style.selectiveArithmeticCodingBypass) :
    encodedSegments style total = runsBetween (passUsesArithmetic style)
      (changes (segmentIndex style) total ++ [total]) := by
  obtain ⟨n,rfl⟩ := Nat.exists_eq_succ_of_ne_zero hpos.ne'
  obtain ⟨l,start,hchanges,hs⟩ := beginSegments style n
  unfold encodedSegments
  rw [if_neg (by tauto)]
  dsimp only
  rw [Nat.succ_eq_add_one,hs,hchanges,runsBetween_snoc]
  rfl

/-! ## The decoder's boundaries -/

/-- The index of every pass that the segments cover. -/
def expand (segments : List Segment) : List ℕ :=
  segments.flatMap fun segment => List.replicate segment.codingPasses segment.idx

/-- The first of the segments covers the first of the passes. -/
theorem expand_cons {g : ℕ → ℕ} {segment : Segment} {segments : List Segment} {p n : ℕ}
    (hpos : 0 < segment.codingPasses)
    (hexpand : expand (segment :: segments) = (List.range' p n).map g) :
    ∃ m k, segment.codingPasses = m + 1 ∧ n = (m + 1) + k ∧
      (∀ q < m + 1, g (p + q) = segment.idx) ∧
      expand segments = (List.range' (p + (m + 1)) k).map g := by
  obtain ⟨m,hm⟩ := Nat.exists_eq_succ_of_ne_zero hpos.ne'
  have hlength := congrArg List.length hexpand
  simp only [expand,List.flatMap_cons,List.length_append,List.length_replicate,List.length_map,
    List.length_range'] at hlength
  obtain ⟨k,rfl⟩ : ∃ k, n = (m + 1) + k := ⟨n - (m + 1),by omega⟩
  rw [← List.range'_append_1,List.map_append] at hexpand
  obtain ⟨hhead,htail⟩ := List.append_inj
    (show List.replicate segment.codingPasses segment.idx ++ expand segments = _ from hexpand)
    (by simp [hm])
  refine ⟨m,k,hm,rfl,fun q hq => ?_,htail⟩
  have hpass := congrArg (·[q]?) hhead
  simp only [hm,List.getElem?_replicate,if_pos hq,List.getElem?_map,List.getElem?_range' hq,
    Option.map_some] at hpass
  rw [Nat.one_mul] at hpass
  exact (Option.some.inj hpass).symm

section
variable {g : ℕ → ℕ} (hg : Stairs g)
include hg

theorem Stairs.openSegment (p : ℕ) :
    openSegment ⟨g (p - 1),p,changes g (max p 1)⟩ (g p) = some ⟨g p,p,changes g (p + 1)⟩ := by
  unfold ClassicSegments.openSegment
  rcases Nat.eq_zero_or_pos p with rfl | hpos
  · rw [if_neg (not_not.mpr rfl)]
    rfl
  · have hmax : max p 1 = p := by omega
    rw [hmax,changes_succ]
    by_cases hkeep : g p = g (p - 1)
    · rw [if_neg (not_not.mpr hkeep),if_neg (by omega),List.append_nil,hkeep]
    · have hrise : g p = g (p - 1) + 1 := by
        have := hg.step (p - 1)
        rw [Nat.sub_add_cancel hpos] at this
        exact this.resolve_left hkeep
      rw [if_pos hkeep,if_neg (not_not.mpr hrise.symm),if_pos (.inr hkeep),hrise]

theorem Stairs.joinSegment {p m length : ℕ} (hsame : ∀ q < m + 1, g (p + q) = g p)
    (hle : p + (m + 1) ≤ 255) :
    joinSegment ⟨g (p - 1),p,changes g (max p 1)⟩ ⟨g p,m + 1,length⟩ =
      some ⟨g (p + (m + 1) - 1),p + (m + 1),changes g (max (p + (m + 1)) 1)⟩ := by
  have hlast : g (p + (m + 1) - 1) = g p := hsame m (by omega)
  have hmax : max (p + (m + 1)) 1 = p + (m + 1) := by omega
  rw [hlast,hmax,changes_run hsame]
  unfold ClassicSegments.joinSegment
  rw [hg.openSegment]
  simp only [Option.bind_eq_bind,Option.bind_some]
  rw [if_neg (by omega)]

/-- Run lemma: segments that cover the passes with the indices of stairs are all joined. -/
theorem Stairs.joinSegments {segments : List Segment} {p n : ℕ}
    (hpos : ∀ segment ∈ segments, 0 < segment.codingPasses)
    (hexpand : expand segments = (List.range' p n).map g) (hle : p + n ≤ 255) :
    segments.foldlM ClassicSegments.joinSegment ⟨g (p - 1),p,changes g (max p 1)⟩ =
      some ⟨g (p + n - 1),p + n,changes g (max (p + n) 1)⟩ := by
  induction segments generalizing p n with
  | nil =>
      have hlength := congrArg List.length hexpand
      rw [List.length_map,List.length_range'] at hlength
      subst hlength
      rfl
  | cons segment segments ih =>
      obtain ⟨m,k,hm,rfl,hidx,htail⟩ := expand_cons (hpos segment List.mem_cons_self) hexpand
      obtain ⟨idx,passes,length⟩ := segment
      dsimp only at hm hidx
      subst hm
      have hidx0 : g p = idx := hidx 0 (by omega)
      subst hidx0
      rw [List.foldlM_cons,hg.joinSegment hidx (by omega)]
      simp only [Option.bind_eq_bind,Option.bind_some]
      rw [ih (fun segment hsegment => hpos segment (List.mem_cons_of_mem _ hsegment)) htail (by omega),
        Nat.add_assoc]

theorem Stairs.passBoundaries {segments : List Segment} {total : ℕ}
    (hpos : ∀ segment ∈ segments, 0 < segment.codingPasses)
    (hexpand : expand segments = (List.range total).map g) (hle : total ≤ 255) :
    passBoundaries segments total = some (changes g (max total 1) ++ [total]) := by
  rw [List.range_eq_range'] at hexpand
  have hjoin := hg.joinSegments hpos hexpand (by omega)
  have hstart : (⟨g (0 - 1),0,changes g (max 0 1)⟩ : BoundaryState) = ⟨0,0,[0]⟩ := by
    rw [Nat.zero_sub,hg.zero]
    rfl
  rw [hstart,Nat.zero_add] at hjoin
  unfold ClassicSegments.passBoundaries
  rw [hjoin]
  simp

end

/-! ## The parser's segments -/

/-- What the parser says of data that give no length. -/
def readErrors : List String :=
  ["code-block segment-length field width overflows","code-block segment-length field is too wide",
    "code-block segment length is truncated"]

/-- A computation that fails on unreadable lengths alone, and otherwise yields this. -/
def Reads {α : Type} (x : Except String α) (P : α → Prop) : Prop :=
  match x with
  | .ok a => P a
  | .error e => e ∈ readErrors

theorem Reads.bind {α β : Type} {x : Except String α} {f : α → Except String β} {P : α → Prop}
    {Q : β → Prop} (h : Reads x P) (hf : ∀ a, P a → Reads (f a) Q) : Reads (x >>= f) Q := by
  cases x with
  | error e => exact h
  | ok a => exact hf a h

theorem Reads.imp {α : Type} {x : Except String α} {P Q : α → Prop} (h : Reads x P)
    (hPQ : ∀ a, P a → Q a) : Reads x Q := by
  cases x with
  | error e => exact h
  | ok a => exact hPQ a h

theorem reads_readSegmentLength (r : BitReader) (lBlock codingPasses : ℕ) :
    Reads (readSegmentLength r lBlock codingPasses) fun _ => True := by
  unfold readSegmentLength orError
  dsimp only
  split_ifs
  · exact List.mem_cons_self
  · exact List.mem_cons_of_mem _ List.mem_cons_self
  · cases r.readBitsWithStuffing (lBlock + codingPasses.log2) with
    | none => exact List.mem_cons_of_mem _ (List.mem_cons_of_mem _ List.mem_cons_self)
    | some _ => exact trivial

theorem expand_append (xs ys : List Segment) : expand (xs ++ ys) = expand xs ++ expand ys :=
  List.flatMap_append

/-- The first passes of the contribution are in its segments, the last of which is still open. -/
structure Placed (index : ℕ → ℕ) (previous k : ℕ) (s : ParseState) : Prop where
  covers : expand s.segments ++ List.replicate s.passesInSegment s.lastSegment =
    (List.range' previous k).map index
  pos : ∀ segment ∈ s.segments, 0 < segment.codingPasses
  prefetched : s.firstLength = none
  opened : (k = 0 → s.lastSegment = index previous) ∧ (0 < k → 0 < s.passesInSegment)

section
variable {index : ℕ → ℕ} {lBlock previous k : ℕ} {s : ParseState}

theorem reads_pushSegment (h : Placed index previous k s) (hpos : 0 < s.passesInSegment) :
    Reads (pushSegment lBlock s) fun s' => s'.firstLength = none ∧
      expand s'.segments = (List.range' previous k).map index ∧
      ∀ segment ∈ s'.segments, 0 < segment.codingPasses := by
  unfold pushSegment
  rw [h.prefetched]
  refine (reads_readSegmentLength s.reader lBlock s.passesInSegment).bind fun read _ => ?_
  refine ⟨rfl,?_,fun segment hsegment => ?_⟩
  · rw [← h.covers,expand_append]
    simp [expand]
  · rcases List.mem_append.mp hsegment with hsegment | hsegment
    · exact h.pos segment hsegment
    · rw [List.mem_singleton.mp hsegment]
      exact hpos

/-- Step lemma: the next pass. -/
theorem Placed.placePass (h : Placed index previous k s) :
    Reads (placePass index lBlock s (previous + k)) (Placed index previous (k + 1)) := by
  have hnext : (List.range' previous (k + 1)).map index =
      (List.range' previous k).map index ++ [index (previous + k)] := by
    rw [List.range'_1_concat,List.map_append]
    rfl
  unfold ClassicSegments.placePass
  split_ifs with hsame
  · refine ⟨?_,h.pos,h.prefetched,nofun,fun _ => Nat.succ_pos _⟩
    rw [hnext,← h.covers,hsame]
    simp only [List.replicate_succ',List.append_assoc]
  · have hk : 0 < k := Nat.pos_of_ne_zero fun hzero => hsame (by rw [hzero,h.opened.1 hzero]; rfl)
    refine (reads_pushSegment h (h.opened.2 hk)).bind fun s' hs' => ?_
    refine ⟨?_,hs'.2.2,hs'.1,nofun,fun _ => Nat.one_pos⟩
    rw [hnext,← hs'.2.1]
    rfl

/-- Run lemma: all passes of the contribution. -/
theorem Placed.placePasses (h : Placed index previous k s) (n : ℕ) :
    Reads ((List.range' (previous + k) n).foldlM (ClassicSegments.placePass index lBlock) s)
      (Placed index previous (k + n)) := by
  induction n generalizing k s with
  | zero => exact h
  | succ n ih =>
      rw [List.range'_succ,List.foldlM_cons]
      refine h.placePass.bind fun s' hs' => ?_
      rw [Nat.add_assoc,← Nat.add_comm 1 n,← Nat.add_assoc k]
      exact ih hs'

end

variable {style : CodeBlockStyle}

theorem reads_parseContributionLengths (r : BitReader) {added : ℕ} {cb : CodeBlock}
    (hmax : cb.numberOfCodingPasses + added ≤ maxCodingPasses) :
    Reads (parseContributionLengths r added none cb style) fun result =>
      result.1 = { cb with numberOfCodingPasses := cb.numberOfCodingPasses + added } ∧
        expand result.2.1 = (List.range' cb.numberOfCodingPasses added).map (segmentIdx style cb) ∧
        ∀ segment ∈ result.2.1, 0 < segment.codingPasses := by
  have h187 : maxCodingPasses = 187 := rfl
  have hstart : Placed (segmentIdx style cb) cb.numberOfCodingPasses 0
      ⟨r,none,segmentIdx style cb cb.numberOfCodingPasses,0,[]⟩ :=
    ⟨rfl,nofun,rfl,fun _ => rfl,nofun⟩
  unfold parseContributionLengths
  dsimp only
  rw [if_neg (by omega),if_neg (by omega)]
  refine (hstart.placePasses added).bind fun s hs => ?_
  rw [Nat.zero_add] at hs
  have hlast : Reads (finishSegment cb.lBlock s) fun s' =>
      s'.firstLength = none ∧ expand s'.segments =
        (List.range' cb.numberOfCodingPasses added).map (segmentIdx style cb) ∧
      ∀ segment ∈ s'.segments, 0 < segment.codingPasses := by
    unfold finishSegment
    split_ifs with hopen
    · exact reads_pushSegment hs (Nat.pos_of_ne_zero hopen)
    · refine ⟨hs.prefetched,?_,hs.pos⟩
      rw [← hs.covers,not_not.mp hopen]
      simp
  refine hlast.bind fun s' hs' => ?_
  rw [hs'.1,if_neg (by decide)]
  exact ⟨rfl,hs'.2⟩

/-- The indices of the passes behind the first `previous`, of which `count` layers told. -/
def indexFrom (style : CodeBlockStyle) (count previous : ℕ) (cuts : List ℕ) (p : ℕ) : ℕ :=
  if style.terminationOnEachPass ∨ style.selectiveArithmeticCodingBypass then segmentIndex style p
  else count + layerIndex cuts (p - previous)

theorem indexFrom_head {cb : CodeBlock} {n : ℕ} {cuts : List ℕ} {p : ℕ}
    (hfrom : cb.numberOfCodingPasses ≤ p) (hp : p < cb.numberOfCodingPasses + n) : segmentIdx style cb p =
      indexFrom style cb.nonEmptyLayerCount cb.numberOfCodingPasses (n :: cuts) p := by
  unfold segmentIdx indexFrom segmentIndex layerIndex
  cases style.terminationOnEachPass <;> cases style.selectiveArithmeticCodingBypass <;> simp
  omega

theorem indexFrom_tail {count previous n : ℕ} {cuts : List ℕ} {p : ℕ} (hp : previous + n ≤ p) :
    indexFrom style (count + 1) (previous + n) cuts p =
      indexFrom style count previous (n :: cuts) p := by
  unfold indexFrom
  split_ifs
  · rfl
  · rw [layerIndex,if_neg (by omega),Nat.sub_sub]
    omega

/-- Run lemma: the layers together give every pass its index. -/
theorem reads_parseLayers {layers : List Contribution} {cb : CodeBlock} {segments : List Segment}
    (hpos : ∀ c ∈ layers, 0 < c.addedCodingPasses)
    (hcount : cb.nonEmptyLayerCount ≤ cb.numberOfCodingPasses)
    (hmax : cb.numberOfCodingPasses + (layers.map (·.addedCodingPasses)).sum ≤ maxCodingPasses)
    (hsegments : ∀ segment ∈ segments, 0 < segment.codingPasses) :
    Reads (layers.foldlM (parseLayer style) (cb,segments)) fun result =>
      expand result.2 = expand segments ++
          (List.range' cb.numberOfCodingPasses (layers.map (·.addedCodingPasses)).sum).map
            (indexFrom style cb.nonEmptyLayerCount cb.numberOfCodingPasses
              (layers.map (·.addedCodingPasses))) ∧
        (∀ segment ∈ result.2, 0 < segment.codingPasses) ∧
        result.1.numberOfCodingPasses =
          cb.numberOfCodingPasses + (layers.map (·.addedCodingPasses)).sum := by
  induction layers generalizing cb segments with
  | nil => exact ⟨(List.append_nil _).symm,hsegments,rfl⟩
  | cons c layers ih =>
      have h187 : maxCodingPasses = 187 := rfl
      have hc := hpos c List.mem_cons_self
      rw [List.map_cons,List.sum_cons] at hmax
      have hfirst := @reads_parseContributionLengths style c.reader c.addedCodingPasses
        { cb with lBlock := c.lBlock }
        (by dsimp only; omega)
      rw [List.foldlM_cons]
      have hlayer : Reads (parseLayer style (cb,segments) c) fun result =>
          result.1.numberOfCodingPasses = cb.numberOfCodingPasses + c.addedCodingPasses ∧
            result.1.nonEmptyLayerCount = cb.nonEmptyLayerCount + 1 ∧
            expand result.2 = expand segments ++
              (List.range' cb.numberOfCodingPasses c.addedCodingPasses).map (segmentIdx style cb) ∧
            ∀ segment ∈ result.2, 0 < segment.codingPasses := by
        unfold parseLayer
        refine hfirst.bind fun result hresult => ?_
        obtain ⟨cb',pushed,r'⟩ := result
        obtain ⟨hcb',hexpand,hpushed⟩ := hresult
        dsimp only at hcb' hexpand hpushed ⊢
        subst hcb'
        rw [if_neg (by dsimp only; omega)]
        refine ⟨rfl,rfl,?_,fun segment hsegment => ?_⟩
        · rw [expand_append,hexpand]
          rfl
        · rcases List.mem_append.mp hsegment with hsegment | hsegment
          · exact hsegments segment hsegment
          · exact hpushed segment hsegment
      refine hlayer.bind fun next hnext => ?_
      obtain ⟨cb',segments'⟩ := next
      obtain ⟨hnumber,hlayers,hexpand,hpos'⟩ := hnext
      dsimp only at hnumber hlayers hexpand hpos'
      refine (ih (fun c hc => hpos c (List.mem_cons_of_mem _ hc)) (by omega) (by omega) hpos').imp
        fun result hresult => ⟨?_,hresult.2.1,by rw [hresult.2.2,hnumber,List.map_cons,
          List.sum_cons,Nat.add_assoc]⟩
      rw [hresult.1,hexpand,hnumber,hlayers,List.map_cons,List.sum_cons,List.append_assoc,
        ← List.range'_append_1,List.map_append]
      congr 2
      · exact List.map_congr_left fun p hp => indexFrom_head (List.mem_range'_1.mp hp).1
          (List.mem_range'_1.mp hp).2
      · exact List.map_congr_left fun p hp => indexFrom_tail (List.mem_range'_1.mp hp).1

/-! ## The partition -/

/-- Segments whose expansion climbs stairs have indices that are contiguous from zero. -/
theorem isChain_of_expand {g : ℕ → ℕ} (hg : Stairs g) {segments : List Segment} {p n : ℕ}
    (hpos : ∀ segment ∈ segments, 0 < segment.codingPasses)
    (hexpand : expand segments = (List.range' p n).map g) :
    (g (p - 1) :: segments.map (·.idx)).IsChain fun a b => b = a ∨ b = a + 1 := by
  induction segments generalizing p n with
  | nil => exact .singleton _
  | cons segment segments ih =>
      obtain ⟨m,k,hm,rfl,hidx,htail⟩ := expand_cons (hpos segment List.mem_cons_self) hexpand
      have hrest := ih (fun segment hsegment => hpos segment (List.mem_cons_of_mem _ hsegment)) htail
      have hlast : g (p + (m + 1) - 1) = segment.idx := hidx m (by omega)
      rw [hlast] at hrest
      refine List.isChain_cons_cons.mpr ⟨?_,hrest⟩
      dsimp only
      have hfirst : g p = segment.idx := hidx 0 (by omega)
      rw [← hfirst]
      rcases Nat.eq_zero_or_pos p with rfl | hp
      · exact .inl rfl
      · have := hg.step (p - 1)
        rwa [Nat.sub_add_cancel hp] at this

/-- The passes of one index, counted over the segments and over the passes. -/
theorem passes_of_index (segments : List Segment) (k : ℕ) :
    ((segments.filter fun segment => segment.idx = k).map (·.codingPasses)).sum =
      (expand segments).count k := by
  induction segments with
  | nil => rfl
  | cons segment segments ih =>
      have hcount : (expand (segment :: segments)).count k =
          (List.replicate segment.codingPasses segment.idx).count k + (expand segments).count k :=
        List.count_append
      rw [hcount,List.count_replicate,← ih]
      by_cases h : segment.idx = k <;> simp [h]

theorem decoderUsesArithmetic_eq (style : CodeBlockStyle) :
    decoderUsesArithmetic style = passUsesArithmetic style := by
  funext p
  unfold decoderUsesArithmetic passUsesArithmetic
  cases style.selectiveArithmeticCodingBypass
  · rfl
  · by_cases h : p ≤ 9 <;> simp [h]

theorem decodedRuns_eq {segments : List Segment} {cuts : List ℕ} {total : ℕ}
    (hcuts : ∀ n ∈ cuts, 0 < n) (htotal : 0 < total) (hmax : total ≤ 255)
    (hpos : ∀ segment ∈ segments, 0 < segment.codingPasses)
    (hexpand : expand segments = (List.range total).map (parserIndex style cuts)) (maxPasses : ℕ) :
    decodedRuns style maxPasses total segments = some ((encodedSegments style total).map fun run =>
      { run with endCodingPass := min run.endCodingPass maxPasses }) := by
  have hboundaries := (stairs_parserIndex style hcuts).passBoundaries hpos hexpand hmax
  unfold decodedRuns
  rw [hboundaries]
  simp only [Option.bind_eq_bind,Option.bind_some]
  by_cases hnormal : ¬style.selectiveArithmeticCodingBypass ∧ ¬style.terminationOnEachPass
  · rw [if_pos hnormal]
    unfold encodedSegments
    rw [if_pos ⟨hnormal.2,hnormal.1⟩,if_neg htotal.ne']
  · have hstyle : style.terminationOnEachPass ∨ style.selectiveArithmeticCodingBypass := by tauto
    rw [if_neg hnormal,encodedSegments_eq htotal hstyle,decoderUsesArithmetic_eq,
      Nat.max_eq_left (by omega)]
    unfold parserIndex
    rw [if_pos hstyle]

/-- However the layers cut the passes of a block and whatever their data: unless a length cannot
be read, every pass is in a segment of its index, the indices are contiguous from zero, and the
decoder accepts the segments and decodes the runs that the encoder ended. With bypass or
termination on each pass the index of a pass is the one of its style; without, it is the layer of
the pass, and the one run of the encoder is decoded across all layers. -/
theorem classic_segments {layers : List Contribution}
    (hpos : ∀ c ∈ layers, 0 < c.addedCodingPasses)
    (hmax : (layers.map (·.addedCodingPasses)).sum ≤ maxCodingPasses) :
    Reads (parseLayers style layers) fun result =>
      expand result.2 = (List.range result.1.numberOfCodingPasses).map
          (parserIndex style (layers.map (·.addedCodingPasses))) ∧
        result.1.numberOfCodingPasses = (layers.map (·.addedCodingPasses)).sum ∧
        (0 :: result.2.map (·.idx)).IsChain (fun a b => b = a ∨ b = a + 1) ∧
        (∀ k, ((result.2.filter fun segment => segment.idx = k).map (·.codingPasses)).sum =
          ((List.range result.1.numberOfCodingPasses).map
            (parserIndex style (layers.map (·.addedCodingPasses)))).count k) ∧
        (layers ≠ [] → ∀ maxPasses, decodedRuns style maxPasses result.1.numberOfCodingPasses
          result.2 = some ((encodedSegments style result.1.numberOfCodingPasses).map fun run =>
            { run with endCodingPass := min run.endCodingPass maxPasses })) := by
  have h187 : maxCodingPasses = 187 := rfl
  have hcuts : ∀ n ∈ layers.map (·.addedCodingPasses), 0 < n := by
    intro n hn
    obtain ⟨c,hc,rfl⟩ := List.mem_map.mp hn
    exact hpos c hc
  have hstairs := stairs_parserIndex style hcuts
  refine (@reads_parseLayers style _ freshBlock [] hpos le_rfl
    (by rw [show freshBlock.numberOfCodingPasses = 0 from rfl]; omega) nofun).imp fun result h => ?_
  obtain ⟨hexpand,hsegments,hnumber⟩ := h
  have hzero : freshBlock.numberOfCodingPasses = 0 := rfl
  have hindex : indexFrom style freshBlock.nonEmptyLayerCount 0
      (layers.map (·.addedCodingPasses)) = parserIndex style (layers.map (·.addedCodingPasses)) := by
    funext p
    unfold indexFrom parserIndex
    split_ifs
    · rfl
    · exact Nat.zero_add _
  rw [hzero,hindex,show expand [] = [] from rfl,List.nil_append] at hexpand
  rw [hzero,Nat.zero_add] at hnumber
  have hrange : expand result.2 = (List.range result.1.numberOfCodingPasses).map
      (parserIndex style (layers.map (·.addedCodingPasses))) := by
    rw [hnumber,List.range_eq_range',hexpand]
  refine ⟨hrange,hnumber,?_,fun k => ?_,fun hne maxPasses => ?_⟩
  · have hchain := isChain_of_expand hstairs hsegments hexpand
    rwa [Nat.zero_sub,hstairs.zero] at hchain
  · rw [passes_of_index,hrange]
  · have htotal : 0 < result.1.numberOfCodingPasses := by
      rw [hnumber]
      obtain ⟨c,rest,rfl⟩ := List.exists_cons_of_ne_nil hne
      rw [List.map_cons,List.sum_cons]
      have := hpos c List.mem_cons_self
      omega
    exact decodedRuns_eq hcuts htotal (by omega) hsegments hrange maxPasses

/-- Two passes of one layer are one segment, of two layers they are two. -/
theorem classic_segments_of_layers : ¬∀ (style : CodeBlockStyle) (layers layers' : List Contribution)
    (result result' : CodeBlock × List Segment),
    (layers.map (·.addedCodingPasses)).sum = (layers'.map (·.addedCodingPasses)).sum →
    parseLayers style layers = .ok result → parseLayers style layers' = .ok result' →
    ∀ k, ((result.2.filter fun segment => segment.idx = k).map (·.codingPasses)).sum =
      ((result'.2.filter fun segment => segment.idx = k).map (·.codingPasses)).sum := by
  intro h
  have hone : parseLayers ⟨false,false⟩ [⟨⟨[0x50],0⟩,2,3⟩] =
      .ok (⟨0,2,0,none,none,some .classic,3,1⟩,[⟨0,2,5⟩]) := by decide
  have htwo : parseLayers ⟨false,false⟩ [⟨⟨[0x40],0⟩,1,3⟩,⟨⟨[0x60],0⟩,1,3⟩] =
      .ok (⟨0,2,0,none,none,some .classic,3,2⟩,[⟨0,1,2⟩,⟨1,1,3⟩]) := by decide
  have hsum : ([⟨⟨[0x50],0⟩,2,3⟩].map Contribution.addedCodingPasses).sum =
      ([⟨⟨[0x40],0⟩,1,3⟩,⟨⟨[0x60],0⟩,1,3⟩].map Contribution.addedCodingPasses).sum := rfl
  exact absurd (h _ _ _ _ _ hsum hone htwo 0) (by decide)

/-- Ten passes with bypass, the eleventh in their layer, and two more in the next. -/
theorem classic_segments_bypass : ∃ result,
    parseLayers ⟨true,false⟩ [⟨⟨[0x10,0x50],0⟩,11,3⟩,⟨⟨[0x50,0x00],0⟩,2,3⟩] = .ok result ∧
      expand result.2 = [0,0,0,0,0,0,0,0,0,0,1,1,2] := by
  have h := @classic_segments ⟨true,false⟩
    [⟨⟨[0x10,0x50],0⟩,11,3⟩,⟨⟨[0x50,0x00],0⟩,2,3⟩] (by decide) (by decide)
  obtain ⟨result,hresult⟩ : ∃ result, parseLayers ⟨true,false⟩
      [⟨⟨[0x10,0x50],0⟩,11,3⟩,⟨⟨[0x50,0x00],0⟩,2,3⟩] = .ok result := ⟨_,rfl⟩
  rw [hresult] at h
  obtain ⟨hexpand,hnumber,-⟩ := h
  refine ⟨result,hresult,?_⟩
  rw [hexpand,hnumber]
  decide

end J2kNative.ClassicSegments
