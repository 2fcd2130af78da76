import J2kNative.PacketParsing
import J2kNative.PacketAssembly
import J2kNative.PacketHeaderBounds
import J2kNative.HtRoundTrip

/-!
# Contributions of classic blocks

What a contribution brings to its block is told without bits: its passes are cut into runs of one
segment index, and every run takes its part of the data. A contribution that tells one length for
every run is read back from the fields that were formed of it.
-/
namespace J2kNative.PacketParsing
open BitStuffing Fallible HtContributions HtRoundTrip ClassicSegments PacketAssembly
open BitStuffing.BitReader (Presents presents_append)
open PacketHeaders (CodeBlockPacketData)

/-! ## Runs of segment indices -/

/-- A run in front of others, with which it is one where they begin with its index. -/
def pushRun (run : ℕ × ℕ) : List (ℕ × ℕ) → List (ℕ × ℕ)
  | [] => [run]
  | next :: runs => if run.1 = next.1 then (run.1,run.2 + next.2) :: runs else run :: next :: runs

/-- The passes from `start` on, as runs of one index and a number of passes. -/
def segmentRuns (index : ℕ → ℕ) (start : ℕ) : ℕ → List (ℕ × ℕ)
  | 0 => []
  | n + 1 => pushRun (index start,1) (segmentRuns index (start + 1) n)

section
variable {index : ℕ → ℕ} {start n : ℕ}

theorem pushRun_same (idx j k : ℕ) (runs : List (ℕ × ℕ)) :
    pushRun (idx,j) (pushRun (idx,k) runs) = pushRun (idx,j + k) runs := by
  cases runs with
  | nil => simp [pushRun]
  | cons next runs =>
      by_cases h : idx = next.1
      · simp [pushRun,h,Nat.add_assoc]
      · simp [pushRun,h]

theorem pushRun_other {run next : ℕ × ℕ} (h : run.1 ≠ next.1) (runs : List (ℕ × ℕ)) :
    pushRun run (pushRun next runs) = run :: pushRun next runs := by
  cases runs with
  | nil => simp [pushRun,h]
  | cons other runs =>
      by_cases hsame : next.1 = other.1
      · have hother : run.1 ≠ other.1 := fun heq => h (heq.trans hsame.symm)
        simp [pushRun,hsame,hother]
      · simp [pushRun,hsame,h]

theorem sum_pushRun (run : ℕ × ℕ) (runs : List (ℕ × ℕ)) :
    ((pushRun run runs).map Prod.snd).sum = run.2 + (runs.map Prod.snd).sum := by
  cases runs with
  | nil => simp [pushRun]
  | cons next runs =>
      simp only [pushRun]
      split_ifs
      · simp [Nat.add_assoc]
      · simp

theorem sum_segmentRuns : ((segmentRuns index start n).map Prod.snd).sum = n := by
  induction n generalizing start with
  | zero => rfl
  | succ n ih =>
      rw [segmentRuns,sum_pushRun,ih]
      exact Nat.add_comm 1 n

theorem pushRun_pos {run : ℕ × ℕ} {runs : List (ℕ × ℕ)} (hrun : 0 < run.2)
    (hruns : ∀ r ∈ runs, 0 < r.2) : ∀ r ∈ pushRun run runs, 0 < r.2 := by
  cases runs with
  | nil => simpa [pushRun] using hrun
  | cons next runs =>
      have hnext := hruns next List.mem_cons_self
      have hrest := fun r hr => hruns r (List.mem_cons_of_mem _ hr)
      simp only [pushRun]
      split_ifs
      · simp only [List.forall_mem_cons]
        exact ⟨by omega,hrest⟩
      · simp only [List.forall_mem_cons]
        exact ⟨hrun,hnext,hrest⟩

theorem segmentRuns_pos : ∀ r ∈ segmentRuns index start n, 0 < r.2 := by
  induction n generalizing start with
  | zero => simp [segmentRuns]
  | succ n ih => exact pushRun_pos Nat.one_pos ih

/-- As many runs as passes are runs of one pass. -/
theorem run_one {runs : List (ℕ × ℕ)} (hpos : ∀ r ∈ runs, 0 < r.2)
    (hlength : runs.length = (runs.map Prod.snd).sum) : ∀ r ∈ runs, r.2 = 1 := by
  induction runs with
  | nil => simp
  | cons run runs ih =>
      obtain ⟨hrun,hruns⟩ := List.forall_mem_cons.mp hpos
      have hle : runs.length ≤ (runs.map Prod.snd).sum := by
        have hone : ∀ k ∈ runs.map Prod.snd, 1 ≤ k := by
          intro k hk
          obtain ⟨r,hr,rfl⟩ := List.mem_map.mp hk
          exact hruns r hr
        simpa using List.card_nsmul_le_sum _ _ hone
      rw [List.map_cons,List.sum_cons,List.length_cons] at hlength
      have htail := ih hruns (by omega)
      simp only [List.forall_mem_cons]
      exact ⟨by omega,htail⟩

/-! ## Lengths -/

/-- The bits of the lengths of all runs. -/
def lengthBits (lBlock : ℕ) (runs : List (ℕ × ℕ)) (lengths : List ℕ) : List Bool :=
  (List.zipWith (fun run length => fieldBits length (lBlock + run.2.log2)) runs lengths).flatten

/-- The lengths of all runs are within their fields. -/
def LengthsFit (lBlock : ℕ) (runs : List (ℕ × ℕ)) (lengths : List ℕ) : Prop :=
  List.Forall₂ (fun run length => length < 2 ^ 32 ∧
    valueFitsInBits length (lBlock + run.2.log2) ∧ lBlock + run.2.log2 ≤ 255) runs lengths

def segmentsOfRuns (runs : List (ℕ × ℕ)) (lengths : List ℕ) : List Segment :=
  List.zipWith (fun run length => ⟨run.1,run.2,length⟩) runs lengths

variable {r r' : BitStuffing.BitReader} {lBlock : ℕ}

theorem pushSegment_reads {s : ParseState} {length : ℕ} {bits : List Bool}
    (hnone : s.firstLength = none) (hlength : length < 2 ^ 32)
    (hfits : valueFitsInBits length (lBlock + s.passesInSegment.log2))
    (hwidth : lBlock + s.passesInSegment.log2 ≤ 255)
    (h : Presents s.reader (fieldBits length (lBlock + s.passesInSegment.log2) ++ bits) r') :
    ∃ r₁, Presents r₁ bits r' ∧ pushSegment lBlock s = .ok { s with
      reader := r₁
      segments := s.segments ++ [⟨s.lastSegment,s.passesInSegment,length⟩] } := by
  obtain ⟨r₁,hfirst,hrest⟩ := presents_append.mp h
  refine ⟨r₁,hrest,?_⟩
  unfold pushSegment
  rw [hnone]
  dsimp only
  rw [readSegmentLength_spec hfirst hlength hfits hwidth]
  rfl

/-- Run lemma: from inside a run on, the lengths of its and of all later segments are read. -/
theorem placePasses_reads {s : ParseState} {lengths : List ℕ} (hnone : s.firstLength = none)
    (hpos : 0 < s.passesInSegment)
    (hfit : LengthsFit lBlock (pushRun (s.lastSegment,s.passesInSegment) (segmentRuns index start n))
      lengths)
    (h : Presents s.reader (lengthBits lBlock (pushRun (s.lastSegment,s.passesInSegment)
      (segmentRuns index start n)) lengths) r') :
    ∃ s', ((List.range' start n).foldlM (placePass index lBlock) s >>= finishSegment lBlock) =
        .ok s' ∧ s'.reader = r' ∧ s'.firstLength = none ∧
      s'.segments = s.segments ++ segmentsOfRuns
        (pushRun (s.lastSegment,s.passesInSegment) (segmentRuns index start n)) lengths := by
  induction n generalizing s start lengths with
  | zero =>
      simp only [segmentRuns,pushRun] at hfit h ⊢
      obtain ⟨length,lengths,⟨hlength,hfits,hwidth⟩,hnil,rfl⟩ :=
        List.forall₂_cons_left_iff.mp hfit
      cases List.forall₂_nil_left_iff.mp hnil
      obtain ⟨r₁,hrest,hpush⟩ := pushSegment_reads hnone hlength hfits hwidth h
      cases hrest
      have hfinish : finishSegment lBlock s = pushSegment lBlock s := if_pos hpos.ne'
      rw [List.range'_zero,List.foldlM_nil]
      exact ⟨_,hfinish.trans hpush,rfl,hnone,rfl⟩
  | succ n ih =>
      rw [List.range'_succ,List.foldlM_cons]
      unfold placePass
      rw [segmentRuns] at hfit h ⊢
      by_cases hsame : index start = s.lastSegment
      · rw [if_pos hsame,ok_bind]
        rw [hsame,pushRun_same] at hfit h ⊢
        exact ih hnone (Nat.succ_pos _) hfit h
      · rw [if_neg hsame]
        rw [pushRun_other (Ne.symm hsame)] at hfit h ⊢
        obtain ⟨length,lengths,⟨hlength,hfits,hwidth⟩,hrest,rfl⟩ :=
          List.forall₂_cons_left_iff.mp hfit
        obtain ⟨r₁,hp,hpush⟩ := pushSegment_reads hnone hlength hfits hwidth h
        obtain ⟨s',hrun,hreader,hfirst,hsegments⟩ := ih
          (s := ⟨r₁,s.firstLength,index start,1,s.segments ++ [⟨s.lastSegment,s.passesInSegment,length⟩]⟩)
          hnone Nat.one_pos hrest hp
        refine ⟨s',?_,hreader,hfirst,?_⟩
        · rw [hpush,ok_bind]
          exact hrun
        · rw [hsegments,List.append_assoc]
          rfl

/-- The lengths of a contribution are read where every run has one. -/
theorem parseContributionLengths_reads (style : CodeBlockStyle) (cb : CodeBlock) {lengths : List ℕ}
    (hpos : 0 < n) (hmax : cb.numberOfCodingPasses + n ≤ maxCodingPasses)
    (hfit : LengthsFit cb.lBlock
      (segmentRuns (segmentIdx style cb) cb.numberOfCodingPasses n) lengths)
    (h : Presents r (lengthBits cb.lBlock
      (segmentRuns (segmentIdx style cb) cb.numberOfCodingPasses n) lengths) r') :
    parseContributionLengths r n none cb style =
      .ok ({ cb with numberOfCodingPasses := cb.numberOfCodingPasses + n },
        segmentsOfRuns (segmentRuns (segmentIdx style cb) cb.numberOfCodingPasses n) lengths,r') := by
  obtain ⟨n,rfl⟩ := Nat.exists_eq_add_of_le' hpos
  have h187 : maxCodingPasses = 187 := rfl
  rw [segmentRuns] at hfit h ⊢
  obtain ⟨s',hrun,hreader,hfirst,hsegments⟩ := placePasses_reads
    (s := ⟨r,none,segmentIdx style cb cb.numberOfCodingPasses,1,[]⟩) rfl Nat.one_pos hfit h
  unfold parseContributionLengths
  dsimp only
  rw [if_neg (by omega),if_neg (by omega),List.range'_succ,List.foldlM_cons]
  have hfirstPass : placePass (segmentIdx style cb) cb.lBlock
      ⟨r,none,segmentIdx style cb cb.numberOfCodingPasses,0,[]⟩ cb.numberOfCodingPasses =
      .ok ⟨r,none,segmentIdx style cb cb.numberOfCodingPasses,1,[]⟩ := if_pos rfl
  obtain ⟨s₁,hs₁,hs'⟩ := bind_eq_ok.mp hrun
  rw [hfirstPass,ok_bind,hs₁,ok_bind,hs',ok_bind,hfirst]
  simp only [Option.isSome_none,Bool.false_eq_true,if_false]
  rw [hsegments,hreader]
  rfl

end

/-! ## Fields of a contribution -/

/-- The number of passes has the same bits in both kinds of contributions. -/
theorem encodeNumCodingPasses_bits {numPasses : ℕ} {fields : List HeaderField}
    (h : PacketHeaders.encodeNumCodingPasses numPasses = .ok fields) :
    ∃ passes, encodeNumHtCodingPasses numPasses = .ok passes ∧
      bitsOfFields passes = bitsOfFields fields := by
  unfold PacketHeaders.encodeNumCodingPasses at h
  unfold encodeNumHtCodingPasses
  split_ifs at h with h1 h2 h3 h4 h5 h6 h7
  all_goals cases h
  · exact ⟨_,if_pos h1,rfl⟩
  · exact ⟨_,(if_neg h1).trans (if_pos h2),rfl⟩
  · subst h3
    exact ⟨_,rfl,by decide⟩
  · subst h4
    exact ⟨_,rfl,by decide⟩
  · subst h5
    exact ⟨_,rfl,by decide⟩
  · rw [if_neg h1,if_neg h2,if_neg (by omega),if_pos h6]
    have hprefix : fieldBits 0b11 2 ++ fieldBits 0b11 2 = fieldBits 0b1111 4 := by decide
    exact ⟨_,rfl,by simp [← hprefix]⟩
  · rw [if_neg h1,if_neg h2,if_neg (by omega),if_neg h6,if_pos h7]
    have hprefix : fieldBits 0b11 2 ++ fieldBits 0b11 2 ++ fieldBits 31 5 =
        fieldBits 0b111111111 9 := by decide
    exact ⟨_,rfl,by simp [← hprefix]⟩

/-- The lengths that the header tells of a contribution. -/
def toldLengths (b : CodeBlockPacketData) : List ℕ :=
  if b.classicSegmentLengths = [] then [b.dataLen] else b.classicSegmentLengths

section
variable {b : CodeBlockPacketData} {lBlock lBlock' : ℕ} {fields : List HeaderField} {runs : List (ℕ × ℕ)}

/-- What the reader makes of the lengths of a contribution whose runs are these. -/
structure Told (b : CodeBlockPacketData) (runs : List (ℕ × ℕ)) (lBlock lBlock' : ℕ)
    (bits : List Bool) : Prop where
  raise : ∃ k, lBlock' = lBlock + k ∧
    bits = List.replicate k true ++ [false] ++ lengthBits lBlock' runs (toldLengths b)
  fit : LengthsFit lBlock' runs (toldLengths b)
  sum : (toldLengths b).sum = b.dataLen

theorem told_single {idx : ℕ} (hpasses : 0 < b.numCodingPasses) (hlength : b.dataLen < 2 ^ 32)
    (hnil : b.classicSegmentLengths = [])
    (h : PacketHeaders.encodeLength b.dataLen lBlock
      (PacketHeaders.bitsForLength lBlock b.numCodingPasses) = .ok (fields,lBlock')) :
    Told b [(idx,b.numCodingPasses)] lBlock lBlock' (bitsOfFields fields) := by
  obtain ⟨⟨grown,raised,raisedBits⟩,hgrow,h⟩ := bind_eq_ok.mp h
  obtain ⟨width,hwidth,h⟩ := bind_eq_ok.mp h
  cases h
  obtain ⟨k,-,rfl,rfl,hraised,hfits,-⟩ := growLBlock_spec hgrow
  obtain ⟨rfl,hle⟩ := fieldWidth_ok hwidth
  have hone : PacketHeaders.bitsForLength lBlock b.numCodingPasses =
      lBlock + b.numCodingPasses.log2 := by
    unfold PacketHeaders.bitsForLength
    split_ifs with hsingle
    · rw [show b.numCodingPasses = 1 by omega]
      rfl
    · rfl
  have hwide : width = lBlock + k + b.numCodingPasses.log2 := by omega
  subst hwide
  have htold : toldLengths b = [b.dataLen] := if_pos hnil
  constructor
  · refine ⟨k,rfl,?_⟩
    rw [htold]
    simp [lengthBits]
  · rw [htold]
    exact .cons ⟨hlength,hfits,hle⟩ .nil
  · rw [htold]
    exact List.sum_singleton

theorem lengthBits_ones {lengths : List ℕ} (hone : ∀ r ∈ runs, r.2 = 1)
    (hlength : runs.length = lengths.length) :
    lengthBits lBlock runs lengths = bitsOfFields (lengths.map fun length => (length,lBlock)) := by
  induction runs generalizing lengths with
  | nil =>
      cases lengths with
      | nil => rfl
      | cons length lengths => cases hlength
  | cons run runs ih =>
      cases lengths with
      | nil => cases hlength
      | cons length lengths =>
          obtain ⟨hrun,hruns⟩ := List.forall_mem_cons.mp hone
          have htail := ih hruns (Nat.succ.inj hlength)
          have hlog : Nat.log2 1 = 0 := rfl
          unfold lengthBits at htail ⊢
          simp [hrun,hlog,htail]

theorem lengthsFit_ones {lengths : List ℕ} (hone : ∀ r ∈ runs, r.2 = 1)
    (hlength : runs.length = lengths.length) (hle : lBlock ≤ 255)
    (hlengths : ∀ length ∈ lengths, length < 2 ^ 32 ∧ valueFitsInBits length lBlock) :
    LengthsFit lBlock runs lengths := by
  induction runs generalizing lengths with
  | nil =>
      cases lengths with
      | nil => exact .nil
      | cons length lengths => cases hlength
  | cons run runs ih =>
      cases lengths with
      | nil => cases hlength
      | cons length lengths =>
          obtain ⟨hrun,hruns⟩ := List.forall_mem_cons.mp hone
          obtain ⟨hhead,htail⟩ := List.forall_mem_cons.mp hlengths
          have hlog : Nat.log2 1 = 0 := rfl
          refine .cons ?_ (ih hruns (Nat.succ.inj hlength) htail)
          rw [hrun,hlog,Nat.add_zero]
          exact ⟨hhead.1,hhead.2,hle⟩

theorem told_segments (hone : ∀ r ∈ runs, r.2 = 1)
    (hlength : runs.length = b.classicSegmentLengths.length) (hne : b.classicSegmentLengths ≠ [])
    (hover : b.classicSegmentLengths.sum < 2 ^ 32) (hsum : b.classicSegmentLengths.sum = b.dataLen)
    (h : PacketHeaders.encodeSegmentLengths b.classicSegmentLengths lBlock = .ok (fields,lBlock')) :
    Told b runs lBlock lBlock' (bitsOfFields fields) := by
  obtain ⟨⟨grown,raised,raisedBits⟩,hgrow,h⟩ := bind_eq_ok.mp h
  obtain ⟨width,hwidth,h⟩ := bind_eq_ok.mp h
  cases h
  obtain ⟨k,-,rfl,rfl,-,hfits,-⟩ := growLBlock_spec hgrow
  obtain ⟨rfl,hle⟩ := fieldWidth_ok hwidth
  have htold : toldLengths b = b.classicSegmentLengths := if_neg hne
  have hsingle : PacketHeaders.bitsForLength (lBlock + k) 1 = lBlock + k := rfl
  rw [hsingle] at hle ⊢
  constructor
  · refine ⟨k,rfl,?_⟩
    rw [htold,lengthBits_ones hone hlength]
    simp
  · rw [htold]
    refine lengthsFit_ones hone hlength hle fun length hmem => ?_
    have hle := List.single_le_sum (by simp) length hmem
    rw [List.all_eq_true] at hfits
    exact ⟨by omega,hsingle ▸ hfits length hmem⟩
  · rwa [htold]

theorem told_of_encode (hpasses : 0 < b.numCodingPasses) (hlength : b.dataLen < 2 ^ 32)
    (hclassic : b.blockCodingMode = .classic) (hpos : ∀ r ∈ runs, 0 < r.2)
    (hsum : (runs.map Prod.snd).sum = b.numCodingPasses) (hcount : runs.length = b.segmentCount)
    (h : PacketHeaders.encodeClassicSegmentLengthsWithLblock b lBlock = .ok (fields,lBlock')) :
    Told b runs lBlock lBlock' (bitsOfFields fields) := by
  have hcount' : b.segmentCount = max b.classicSegmentLengths.length 1 := by
    unfold CodeBlockPacketData.segmentCount
    rw [hclassic]
  unfold PacketHeaders.encodeClassicSegmentLengthsWithLblock at h
  split_ifs at h with hwide hnil hpairs hover hmismatch
  · rw [hcount',hnil] at hcount
    obtain ⟨run,rfl⟩ := List.length_eq_one_iff.mp hcount
    have hrun : run = (run.1,b.numCodingPasses) := by
      rw [← hsum]
      simp
    rw [hrun]
    exact told_single hpasses hlength hnil h
  · have hne : 0 < b.classicSegmentLengths.length := List.length_pos_iff.mpr hnil
    have hlengths : runs.length = b.classicSegmentLengths.length := by omega
    exact told_segments (run_one hpos (by omega)) hlengths hnil (by omega) (by omega) h

end

/-! ## What a contribution brings -/

/-- A block without the means by which it is read. -/
structure BlockContents where
  included : Bool
  missingBitPlanes : ℕ
  numberOfCodingPasses : ℕ
  nonEmptyLayerCount : ℕ
  layers : List (Option (List (Segment × List ℕ)))
  deriving DecidableEq, Repr

def StoredBlock.contents (b : StoredBlock) : BlockContents :=
  ⟨b.hasBeenIncluded,b.block.missingBitPlanes,b.block.numberOfCodingPasses,
    b.block.nonEmptyLayerCount,b.layers⟩

/-- The segment index of a pass that comes behind so many layers with data. -/
def passIndex (style : CodeBlockStyle) (nonEmptyLayerCount passIdx : ℕ) : ℕ :=
  if style.terminationOnEachPass then passIdx
  else if style.selectiveArithmeticCodingBypass then segmentIdxForBypass passIdx
  else nonEmptyLayerCount

/-- Data in pieces of these lengths. -/
def cutData : List ℕ → List ℕ → List (List ℕ)
  | [], _ => []
  | length :: lengths, data => data.take length :: cutData lengths (data.drop length)

namespace BlockContents
variable (style : CodeBlockStyle) (c : BlockContents) (b : CodeBlockView)

def runs : List (ℕ × ℕ) :=
  segmentRuns (passIndex style c.nonEmptyLayerCount) c.numberOfCodingPasses b.numCodingPasses

/-- The segments of the contribution, with their bytes. -/
def segments : List (Segment × List ℕ) :=
  (segmentsOfRuns (c.runs style b) (toldLengths b.packetData)).zip
    (cutData (toldLengths b.packetData) b.data)

/-- The contribution is one of a classic block, within what is stored of a block, and tells a
length for every run of its passes. -/
def Admits : Prop :=
  b.blockCodingMode = .classic ∧ c.numberOfCodingPasses + b.numCodingPasses ≤ maxCodingPasses ∧
    (c.included = false → b.numZeroBitplanes ≤ 255) ∧ c.nonEmptyLayerCount < 255 ∧
    (c.runs style b).length = b.packetData.segmentCount

instance : Decidable (c.Admits style b) := inferInstanceAs (Decidable (_ ∧ _))

/-- The block behind a packet of a layer that has not come yet. -/
def receive (layer : ℕ) : Option BlockContents :=
  if c.layers[layer]? ≠ some none then none
  else if b.numCodingPasses = 0 then some c
  else if c.Admits style b then
    some ⟨true,if c.included then c.missingBitPlanes else b.numZeroBitplanes,
      c.numberOfCodingPasses + b.numCodingPasses,c.nonEmptyLayerCount + 1,
      c.layers.set layer (some (c.segments style b))⟩
  else none

end BlockContents

/-! ## Bytes of a contribution -/

/-- From wherever they stand in the data, these bytes are taken and make one thing the other. -/
def Takes {α : Type} (f : α → BitStuffing.BitReader → Except String (α × BitStuffing.BitReader))
    (a : α) (data : List ℕ)
    (a' : α) : Prop :=
  ∀ pre post, f a ⟨pre ++ data ++ post,8 * pre.length⟩ =
    .ok (a',⟨pre ++ data ++ post,8 * (pre ++ data).length⟩)

section
variable {α : Type} {f : α → BitStuffing.BitReader → Except String (α × BitStuffing.BitReader)}
variable {a a' : α}
variable {l l' : List α} {data rest : List ℕ}

theorem Takes.nil : Takes (threadM f) [] [] [] := by
  intro pre post
  simp [threadM]

theorem Takes.cons (ha : Takes f a data a') (hl : Takes (threadM f) l rest l') :
    Takes (threadM f) (a :: l) (data ++ rest) (a' :: l') := by
  intro pre post
  have hfirst := ha pre (rest ++ post)
  have hrest := hl (pre ++ data) post
  simp only [List.append_assoc] at hfirst hrest ⊢
  unfold threadM
  rw [hfirst,ok_bind]
  dsimp only
  rw [hrest]
  rfl

theorem takes_readSegment {segment : Segment} {old : List ℕ} (h : data.length = segment.dataLength) :
    Takes readSegment (segment,old) data (segment,data) := by
  intro pre post
  have hbyte : 8 * pre.length / 8 = pre.length := Nat.mul_div_cancel_left _ (by decide)
  have hread : readBytes ⟨pre ++ data ++ post,8 * pre.length⟩ segment.dataLength =
      some (data,⟨pre ++ data ++ post,8 * (pre ++ data).length⟩) := by
    unfold readBytes
    dsimp only
    rw [hbyte,if_pos (by simp; omega),← h,List.append_assoc,List.drop_left,List.take_left]
    simp
    omega
  unfold readSegment
  dsimp only
  rw [hread]
  rfl

/-- All segments take the data between them. -/
theorem takes_segments {runs : List (ℕ × ℕ)} {lengths : List ℕ} (hruns : runs.length = lengths.length)
    (hsum : lengths.sum = data.length) :
    Takes (threadM readSegment) ((segmentsOfRuns runs lengths).map fun segment => (segment,[])) data
      ((segmentsOfRuns runs lengths).zip (cutData lengths data)) := by
  induction lengths generalizing runs data with
  | nil =>
      have hdata : data = [] := List.length_eq_zero_iff.mp hsum.symm
      have hnil : runs = [] := List.length_eq_zero_iff.mp hruns
      rw [hdata,hnil]
      exact .nil
  | cons length lengths ih =>
      cases runs with
      | nil => cases hruns
      | cons run runs =>
          rw [List.sum_cons] at hsum
          have htake : (data.take length).length = length := by
            rw [List.length_take]
            omega
          have htail := @ih (data.drop length) runs (Nat.succ.inj hruns) (by
            rw [List.length_drop]
            omega)
          have hhead : Takes readSegment (⟨run.1,run.2,length⟩,[]) (data.take length)
              (⟨run.1,run.2,length⟩,data.take length) := takes_readSegment htake
          have hall := hhead.cons htail
          rwa [List.take_append_drop] at hall

theorem takes_readBlock {b : StoredBlock} {layer : ℕ} {segments segments' : List (Segment × List ℕ)}
    (hlayer : b.layers[layer]? = some (some segments))
    (h : Takes (threadM readSegment) segments data segments') :
    Takes (readBlock layer) b data { b with layers := b.layers.set layer (some segments') } := by
  intro pre post
  unfold readBlock
  rw [hlayer]
  dsimp only
  rw [h pre post]
  rfl

/-- A block that has nothing in the layer takes nothing. -/
theorem takes_nothing {b : StoredBlock} {layer : ℕ} (hlayer : b.layers[layer]? = some none) :
    Takes (readBlock layer) b [] b := by
  intro pre post
  unfold readBlock
  rw [hlayer]
  simp

end

/-! ## Reading a contribution -/

/-- The block behind a contribution with these segments. -/
def StoredBlock.contributed (b : StoredBlock) (numCodingPasses lBlock layer : ℕ)
    (segments : List (Segment × List ℕ)) : StoredBlock :=
  { b with
    block := { b.block with
      lBlock
      numberOfCodingPasses := b.block.numberOfCodingPasses + numCodingPasses
      coding := some .classic
      nonEmptyLayerCount := b.block.nonEmptyLayerCount + 1 }
    layers := b.layers.set layer (some segments) }

section
variable {style : CodeBlockStyle} {layer : ℕ} {b : StoredBlock} {view : CodeBlockView}
variable {fields : List HeaderField} {lBlock' : ℕ} {r r' : BitStuffing.BitReader}

/-- The contribution of an included block is read from its fields, and then takes its data. -/
theorem resolveContribution_reads (hadmits : b.contents.Admits style view)
    (hlayer : b.layers[layer]? = some none)
    (hfields : PacketHeaders.contributionFields view.packetData b.block.lBlock = .ok (fields,lBlock'))
    (hp : Presents r (bitsOfFields fields) r') :
    ∃ b', resolveContribution style layer b r = .ok (b',r') ∧
      Takes (readBlock layer) b' view.data
        (b.contributed view.numCodingPasses lBlock' layer (b.contents.segments style view)) := by
  obtain ⟨hclassic,hmax,-,hcount,hruns⟩ := hadmits
  have hlength : layer < b.layers.length := (List.getElem?_eq_some_iff.mp hlayer).1
  unfold PacketHeaders.contributionFields at hfields
  split_ifs at hfields with hlong
  have hmode : view.packetData.blockCodingMode = .classic := hclassic
  rw [hmode] at hfields
  obtain ⟨passes,hpasses,hfields⟩ := bind_eq_ok.mp hfields
  obtain ⟨⟨lengths,lBlock⟩,hlengths,hfields⟩ := bind_eq_ok.mp hfields
  cases hfields
  obtain ⟨htPasses,hhtPasses,hbits⟩ :=
    @encodeNumCodingPasses_bits view.numCodingPasses passes hpasses
  have hpos : 0 < view.numCodingPasses := (numPasses_bounds hhtPasses).1
  have hsum : ((b.contents.runs style view).map Prod.snd).sum = view.numCodingPasses :=
    sum_segmentRuns
  have htold : Told view.packetData (b.contents.runs style view) b.block.lBlock lBlock'
      (bitsOfFields lengths) :=
    told_of_encode hpos (by omega) hmode segmentRuns_pos hsum hruns hlengths
  obtain ⟨k,rfl,hraise⟩ := htold.raise
  rw [bitsOfFields_append,← hbits,hraise] at hp
  obtain ⟨r₁,hp₁,hp⟩ := presents_append.mp hp
  obtain ⟨r₂,hp₂,hp₃⟩ := presents_append.mp hp
  have hparse := parseContributionLengths_reads style
    { b.block with lBlock := b.block.lBlock + k } hpos hmax htold.fit hp₃
  have hwidth : b.block.lBlock + k ≤ 255 := by
    obtain ⟨run,rest,heq⟩ : ∃ run rest, b.contents.runs style view = run :: rest := by
      apply List.exists_cons_of_ne_nil
      intro hnil
      rw [hnil] at hsum
      exact hpos.ne hsum
    have hfit := htold.fit
    rw [heq] at hfit
    obtain ⟨length,_,⟨_,_,hwide⟩,_⟩ := List.forall₂_cons_left_iff.mp hfit
    omega
  have hlayers : b.block.nonEmptyLayerCount < 255 := hcount
  have hresolve : resolveContribution style layer b r = .ok (b.contributed view.numCodingPasses
      (b.block.lBlock + k) layer ((segmentsOfRuns (b.contents.runs style view)
        (toldLengths view.packetData)).map fun segment => (segment,[])),r') := by
    unfold resolveContribution
    rw [if_neg (by omega),decodeNumCodingPasses_spec hhtPasses hp₁]
    simp only [orError,ok_bind]
    rw [readLblockIncrement_spec hp₂]
    simp only [ok_bind]
    rw [if_neg (by omega),hparse]
    simp only [ok_bind]
    rw [if_neg (by omega)]
    rfl
  refine ⟨_,hresolve,?_⟩
  have hsegments := takes_segments
    htold.fit.length_eq htold.sum
  have hblock := takes_readBlock (b := b.contributed view.numCodingPasses (b.block.lBlock + k) layer
    ((segmentsOfRuns (b.contents.runs style view)
      (toldLengths view.packetData)).map fun segment => (segment,[])))
    (List.getElem?_set_self hlength) hsegments
  simp only [StoredBlock.contributed,List.set_set] at hblock
  exact hblock

end

end J2kNative.PacketParsing
