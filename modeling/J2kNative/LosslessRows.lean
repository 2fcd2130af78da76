import J2kNative.CountedLoops
import J2kNative.LosslessRestart
import J2kNative.Lockstep
import J2kNative.ScanFinish

/-!
# Lossless decoding row by row

The loops that deliver a lossless image row by row, against the loops that fill a
whole buffer. The streaming loops keep two rows and swap them; they read one sample
of every component at each pixel, whatever the sampling of the scan is. Rows are
lists of samples; the byte order, the stride and a sink that fails are left out, and
the colour conversion is any function of a pixel.
-/
namespace J2kNative.LosslessRows

open ScanFinish Fallible

inductive LosslessLayout where
  | gray
  | s444
  | sampled (sampling : LosslessColorSampling)
  deriving DecidableEq, Repr

/-- A lossless image that the decoder accepts. -/
structure LosslessImage where
  sample : LosslessSample
  predictor : ℕ
  width : ℕ
  height : ℕ
  layout : LosslessLayout
  order : ScanOrder
  restartInterval : Option ℕ
  convert : ℤ → ℤ → ℤ → List ℤ
  sample_mem : sample = .u8 ∨ sample = .u16
  predictor_mem : 1 ≤ predictor ∧ predictor ≤ 7
  width_pos : 0 < width
  height_pos : 0 < height
  even_width : ∀ sampling, layout = .sampled sampling → width % 2 = 0
  even_height : layout = .sampled .s420 → height % 2 = 0

/-! ## Into a buffer -/

/-- Linear interpolation of a row of half the width. -/
def upsampleH2v1SampleAt (row : ℕ → ℤ) (len outputX : ℕ) : ℤ :=
  if len = 1 then row 0
  else if outputX = 0 then row 0
  else if outputX = len*2-1 then row (len-1)
  else if outputX % 2 = 0 then (3*row (outputX/2)+row (outputX/2-1)+2)/4
  else (3*row (outputX/2)+row (outputX/2+1)+2)/4

def upsampleH2v2RowsAt (curr near : ℕ → ℤ) (len outputWidth outputX : ℕ) : ℤ :=
  let colsum := fun index => 3*curr index+near index
  if len = 1 then (4*colsum 0+8)/16
  else if outputX = 0 then (colsum 0*4+8)/16
  else if outputX = outputWidth-1 then (colsum (outputX/2)*4+7)/16
  else if outputX % 2 = 0 then (colsum (outputX/2)*3+colsum (outputX/2-1)+8)/16
  else (colsum (outputX/2)*3+colsum (outputX/2+1)+7)/16

def upsampleH2v2At (plane : ℕ → ℕ → ℤ) (chromaWidth chromaHeight outputWidth outputX outputY : ℕ) :
    ℤ :=
  let chromaY := outputY/2
  let nearY := if outputY % 2 = 0 then chromaY-1 else min (chromaY+1) (chromaHeight-1)
  upsampleH2v2RowsAt (fun x => plane x chromaY) (fun x => plane x nearY) chromaWidth outputWidth
    outputX

namespace LosslessImage
variable (image : LosslessImage)

def upsample (sampling : LosslessColorSampling) (plane : ℕ → ℕ → ℤ) (x y : ℕ) : ℤ :=
  match sampling with
  | .s422 => upsampleH2v1SampleAt (fun x => plane x y) ((image.width+1)/2) x
  | .s420 => upsampleH2v2At plane ((image.width+1)/2) ((image.height+1)/2) image.width x y

/-- The samples of a pixel in the buffer. -/
def bufferPixel (s : Samples) (x y : ℕ) : List ℤ :=
  match image.layout with
  | .gray => [s 0 x y]
  | .s444 => image.convert (s 0 x y) (s 1 x y) (s 2 x y)
  | .sampled sampling =>
    image.convert (s 0 x y) (image.upsample sampling (s 1) x y) (image.upsample sampling (s 2) x y)

def bufferRow (s : Samples) (y : ℕ) : List ℤ :=
  (List.range image.width).flatMap fun x => image.bufferPixel s x y

/-- The loop that fills the buffer. -/
def bufferScan (tables : ℕ → HuffmanTable) : LosslessScan :=
  match image.layout with
  | .gray => losslessGray image.sample image.predictor image.width image.height
      image.restartInterval (tables 0)
  | .s444 => losslessColorComponents image.sample image.predictor image.width image.height
      image.restartInterval image.order tables
  | .sampled sampling => losslessColorSampled image.sample image.predictor image.width image.height
      sampling image.restartInterval image.order tables

def decodeInto (tables : ℕ → HuffmanTable) (bytes : List ℕ) :
    Except JpegError (List (List ℤ) × List Warning) := do
  let scan := image.bufferScan tables
  let (state,r) ← scan.units.foldlM scan.decodeUnit (scan.tracker,fun _ _ _ => 0)
    (BitReader.new bytes)
  let (warnings,_) ← finishScan true r
  .ok ((List.range image.height).map (image.bufferRow state.2),warnings)

end LosslessImage

/-! ## Row by row -/

/-- The two rows of the streaming decoder, by component and column. -/
structure RowBuffers where
  curr : ℕ → ℕ → ℤ
  prev : ℕ → ℕ → ℤ

namespace RowBuffers

def write (rows : RowBuffers) (component x : ℕ) (v : ℤ) : RowBuffers :=
  { rows with curr := fun c i => if c = component ∧ i = x then v else rows.curr c i }

def swap (rows : RowBuffers) : RowBuffers := ⟨rows.prev,rows.curr⟩

def predict (rows : RowBuffers) (predictor : ℕ) (bias : ℤ) (x y component : ℕ) : ℤ :=
  losslessPredict predictor bias x y fun sx sy =>
    if sy = y then rows.curr component sx else rows.prev component sx

end RowBuffers

/-- The streaming decoder before a row. -/
structure RowStream where
  tracker : LosslessRestartTracker
  rows : RowBuffers
  delivered : List (List ℤ)

namespace LosslessImage
variable (image : LosslessImage) (tables : ℕ → HuffmanTable)

/-- The loop that streams: a unit is a pixel. -/
def rowScan : LosslessScan :=
  match image.layout with
  | .gray => losslessGray image.sample image.predictor image.width image.height
      image.restartInterval (tables 0)
  | _ => losslessColorComponents image.sample image.predictor image.width image.height
      image.restartInterval image.order tables

def decodeRowSample (x y : ℕ) (restartFirst : Bool) (rows : RowBuffers)
    (c : ResolvedLosslessComponent) : Read RowBuffers := do
  let predicted := if restartFirst then image.sample.restartPredictor
    else rows.predict image.predictor image.sample.restartPredictor x y c.outputIndex
  let diff ← c.dcTable.decodeFastDc
  let sample ← image.sample.fromI32 (predicted+diff)
  pure (rows.write c.outputIndex x sample)

def decodeRowPixel (y : ℕ) (state : LosslessRestartTracker × RowBuffers) (x : ℕ) :
    Read (LosslessRestartTracker × RowBuffers) := do
  let t ← state.1.restarted (y*image.width+x)
  let rows ← (image.rowScan tables).components.foldlM (image.decodeRowSample x y t.isFirst) state.2
  pure (t.finishUnit,rows)

def rowPixel (row : ℕ → ℕ → ℤ) (x : ℕ) : List ℤ :=
  match image.layout with
  | .gray => [row 0 x]
  | _ => image.convert (row 0 x) (row 1 x) (row 2 x)

/-- A row as the sink gets it: eight bit gray as three equal samples a pixel. -/
def sinkRow (row : List ℤ) : List ℤ :=
  if image.layout = .gray ∧ image.sample = .u8 then row.flatMap fun s => [s,s,s] else row

def decodeRow (stream : RowStream) (y : ℕ) : Read RowStream := do
  let state ← (List.range image.width).foldlM (image.decodeRowPixel tables y)
    (stream.tracker,stream.rows)
  let row := (List.range image.width).flatMap (image.rowPixel state.2.curr)
  pure ⟨state.1,state.2.swap,stream.delivered ++ [image.sinkRow row]⟩

/-- The stream before its first row, with what the scratch rows held. -/
def openStream (scratch : RowBuffers) : RowStream := ⟨(image.rowScan tables).tracker,scratch,[]⟩

def decodeRows (scratch : RowBuffers) (bytes : List ℕ) :
    Except JpegError (List (List ℤ) × List Warning) := do
  let (stream,r) ← (List.range image.height).foldlM (image.decodeRow tables)
    (image.openStream tables scratch) (BitReader.new bytes)
  let (warnings,_) ← finishScan true r
  .ok (stream.delivered,warnings)

/-! ## Where an error is -/

/-- The streaming decoder after `y` rows and `x` pixels of the next: the rows delivered, the
restarts and the reader. -/
def rowsUpTo (scratch : RowBuffers) (bytes : List ℕ) (y x : ℕ) :
    Except JpegError (List (List ℤ) × LosslessRestartTracker × BitReader) := do
  let (stream,r) ← (List.range y).foldlM (image.decodeRow tables) (image.openStream tables scratch)
    (BitReader.new bytes)
  let (state,r) ← (List.range x).foldlM (image.decodeRowPixel tables y)
    (stream.tracker,stream.rows) r
  .ok (stream.delivered,state.1,r)

/-- The other decoder after as many units, with the rows that its buffer then holds. -/
def intoUpTo (bytes : List ℕ) (y x : ℕ) :
    Except JpegError (List (List ℤ) × LosslessRestartTracker × BitReader) := do
  let scan := image.bufferScan tables
  let (state,r) ← (scan.units.take (y*image.width+x)).foldlM scan.decodeUnit
    (scan.tracker,fun _ _ _ => 0) (BitReader.new bytes)
  .ok ((List.range y).map fun y => image.sinkRow (image.bufferRow state.2 y),state.1,r)

/-- Tables that the parser accepts. -/
def Accepted (tables : ℕ → HuffmanTable) : Prop :=
  ∀ i, ∃ raw, HuffmanTable.fromRaw raw .dc = .ok (tables i)

/-- Both decoders deliver the same rows with the same warnings, or fail with the same error at
the same pixel. -/
structure StreamsAlike (image : LosslessImage) : Prop where
  result : ∀ tables, Accepted tables → ∀ scratch bytes, image.decodeRows tables scratch bytes =
    (image.decodeInto tables bytes).map fun p => (p.1.map image.sinkRow,p.2)
  place : ∀ tables, Accepted tables → ∀ scratch bytes y x, y < image.height → x ≤ image.width →
    image.rowsUpTo tables scratch bytes y x = image.intoUpTo tables bytes y x

/-! ## One pixel -/

/-- The components of the image in the order of its scan. -/
def outputs : List ℕ := if image.layout = .gray then [0] else image.order.outputIndices

variable {image tables}

theorem rowScan_components : (image.rowScan tables).components =
    image.outputs.map fun i => ⟨1,1,i,image.width,image.height,tables i⟩ := by
  unfold rowScan outputs
  cases image.layout <;> rfl

theorem rowScan_eq : (image.rowScan tables).sample = image.sample ∧
    (image.rowScan tables).predictor = image.predictor ∧
    (image.rowScan tables).unitsPerRow = image.width ∧
    (image.rowScan tables).unitRows = image.height := by
  unfold rowScan
  cases image.layout <;> exact ⟨rfl,rfl,rfl,rfl⟩

theorem bufferScan_eq (hlayout : ∀ sampling, image.layout ≠ .sampled sampling) :
    image.bufferScan tables = image.rowScan tables := by
  unfold bufferScan rowScan
  cases hcase : image.layout with
  | gray => rfl
  | s444 => rfl
  | sampled sampling => exact absurd hcase (hlayout sampling)

/-- Rows of the buffer, as the sink would get them. -/
def bufferRows (image : LosslessImage) (s : Samples) (y : ℕ) : List (List ℤ) :=
  (List.range y).map fun j => image.sinkRow (image.bufferRow s j)

/-- The buffer and the two rows agree inside the pixel `(x, y)`, after the components `done`. -/
structure InRow (image : LosslessImage) (y x : ℕ) (done : List ℕ) (s : Samples)
    (rows : RowBuffers) : Prop where
  above : 0 < y → ∀ c ∈ image.outputs, ∀ i, i < image.width → rows.prev c i = s c i (y-1)
  left : ∀ c ∈ image.outputs, ∀ i, i < x ∨ i = x ∧ c ∈ done → rows.curr c i = s c i y

theorem InRow.predict_eq {y x o : ℕ} {done : List ℕ} {s : Samples} {rows : RowBuffers}
    (h : image.InRow y x done s rows) (ho : o ∈ image.outputs) (hx : x < image.width)
    (predictor : ℕ) (bias : ℤ) :
    rows.predict predictor bias x y o = losslessPredict predictor bias x y (s o) := by
  have habove : ∀ i, i < image.width → 0 < y →
      (if y-1 = y then rows.curr o i else rows.prev o i) = s o i (y-1) := fun i hi hy => by
    rw [if_neg (by omega)]
    exact h.above hy o ho i hi
  apply losslessPredict_congr
  · intro hpos
    rw [if_pos rfl]
    exact h.left o ho (x-1) (Or.inl (by omega))
  · exact habove x hx
  · intro _ hy
    exact habove (x-1) (by omega) hy

theorem InRow.write {y x : ℕ} {done : List ℕ} {s : Samples} {rows : RowBuffers}
    (h : image.InRow y x done s rows) (o : ℕ) (v : ℤ) :
    image.InRow y x (done ++ [o]) (s.set o x y v) (rows.write o x v) := by
  constructor
  · intro hy c hc i hi
    have hrow : y-1 ≠ y := by omega
    rw [Samples.set,if_neg fun heq => hrow heq.2.2]
    exact h.above hy c hc i hi
  · intro c hc i hi
    show (if c = o ∧ i = x then v else rows.curr c i) = _
    by_cases hcell : c = o ∧ i = x
    · rw [if_pos hcell,Samples.set,if_pos ⟨hcell.1,hcell.2,rfl⟩]
    · rw [if_neg hcell,Samples.set,if_neg fun heq => hcell ⟨heq.1,heq.2.1⟩]
      apply h.left c hc i
      rcases hi with hi | ⟨hi,hmem⟩
      · exact Or.inl hi
      · rcases List.mem_append.mp hmem with hmem | hmem
        · exact Or.inr ⟨hi,hmem⟩
        · exact absurd ⟨List.mem_singleton.mp hmem,hi⟩ hcell

theorem InRow.next {y x : ℕ} {s : Samples} {rows : RowBuffers}
    (h : image.InRow y x image.outputs s rows) : image.InRow y (x+1) [] s rows := by
  refine ⟨h.above,fun c hc i hi => ?_⟩
  rcases hi with hi | ⟨-,hmem⟩
  · rcases Nat.lt_succ_iff_lt_or_eq.mp hi with hi | hi
    · exact h.left c hc i (Or.inl hi)
    · exact h.left c hc i (Or.inr ⟨hi,hc⟩)
  · exact absurd hmem List.not_mem_nil

/-- A row that is complete becomes the row above. -/
theorem InRow.swap {y : ℕ} {s : Samples} {rows : RowBuffers}
    (h : image.InRow y image.width [] s rows) : image.InRow (y+1) 0 [] s rows.swap := by
  constructor
  · intro _ c hc i hi
    exact h.left c hc i (Or.inl hi)
  · intro c _ i hi
    rcases hi with hi | ⟨-,hmem⟩
    · exact absurd hi (Nat.not_lt_zero i)
    · exact absurd hmem List.not_mem_nil

/-- A sample of a row leaves the rows before it. -/
theorem bufferRows_set (hlayout : ∀ sampling, image.layout ≠ .sampled sampling) (s : Samples)
    (c x y : ℕ) (v : ℤ) : image.bufferRows (s.set c x y v) y = image.bufferRows s y := by
  refine List.map_congr_left fun j hj => congrArg _ ?_
  have hne : j ≠ y := Nat.ne_of_lt (List.mem_range.mp hj)
  have hset : ∀ o i, s.set c x y v o i j = s o i j := fun o i => by
    rw [Samples.set,if_neg fun heq => hne heq.2.2]
  unfold bufferRow
  refine congrArg (fun f => List.flatMap f (List.range image.width)) (funext fun i => ?_)
  unfold bufferPixel
  cases hcase : image.layout with
  | gray => exact congrArg (fun v => [v]) (hset 0 i)
  | s444 => simp only [hset]
  | sampled sampling => exact absurd hcase (hlayout sampling)

/-- A MCU of one sample per component has that sample of each. -/
theorem decodeMcuComponent_pixel (scan : LosslessScan) {x y W H : ℕ} (hx : x < W) (hy : y < H)
    (first : Bool) (s : Samples) (i : ℕ) (table : HuffmanTable) :
    scan.decodeMcuComponent x y first s ⟨1,1,i,W,H,table⟩ =
      scan.decodePlaneSample ⟨1,1,i,W,H,table⟩ x y first s := by
  have hin : ¬(W ≤ x ∨ H ≤ y) := by omega
  simp [LosslessScan.decodeMcuComponent,List.range_succ,hin]

/-- What both decoders have in a pixel after the components `done`. -/
def AtComponent (image : LosslessImage) (y x : ℕ) (delivered : List (List ℤ)) (done : List ℕ)
    (s : Samples) (rows : RowBuffers) : Prop :=
  image.InRow y x done s rows ∧ image.bufferRows s y = delivered

theorem decodeSample_lockstep (hlayout : ∀ sampling, image.layout ≠ .sampled sampling)
    {x y o : ℕ} {delivered : List (List ℤ)} {done : List ℕ} (ho : o ∈ image.outputs)
    (hx : x < image.width) (first : Bool) {s : Samples} {rows : RowBuffers}
    (h : image.AtComponent y x delivered done s rows) (c : ResolvedLosslessComponent)
    (hc : c.outputIndex = o) :
    Lockstep (image.AtComponent y x delivered (done ++ [o]))
      ((image.rowScan tables).decodePlaneSample c x y first s)
      (image.decodeRowSample x y first rows c) := by
  unfold LosslessScan.decodePlaneSample decodeRowSample
  simp only [rowScan_eq.1,rowScan_eq.2.1,hc,h.1.predict_eq ho hx]
  refine Lockstep.bind (Lockstep.refl _) fun diff diff' heq => ?_
  subst heq
  refine Lockstep.bind (Lockstep.refl _) fun sample sample' heq => ?_
  subst heq
  exact Lockstep.pure ⟨h.1.write o sample,(bufferRows_set hlayout s o x y sample).trans h.2⟩

/-- What both decoders have before a pixel. -/
def AtPixel (image : LosslessImage) (y : ℕ) (delivered : List (List ℤ)) (x : ℕ)
    (state : LosslessRestartTracker × Samples) (stream : LosslessRestartTracker × RowBuffers) :
    Prop :=
  state.1 = stream.1 ∧ image.AtComponent y x delivered [] state.2 stream.2

theorem decodePixel_lockstep (hlayout : ∀ sampling, image.layout ≠ .sampled sampling) {x y : ℕ}
    {delivered : List (List ℤ)} (hx : x < image.width) (hy : y < image.height)
    {state : LosslessRestartTracker × Samples} {stream : LosslessRestartTracker × RowBuffers}
    (h : image.AtPixel y delivered x state stream) :
    Lockstep (image.AtPixel y delivered (x+1)) ((image.rowScan tables).decodeUnit state (x,y))
      (image.decodeRowPixel tables y stream x) := by
  unfold LosslessScan.decodeUnit decodeRowPixel LosslessScan.decodeMcu
  rw [h.1,rowScan_eq.2.2.1,rowScan_components]
  refine Lockstep.bind (Lockstep.refl _) fun t t' heq => ?_
  subst heq
  rw [List.foldlM_map,List.foldlM_map]
  refine Lockstep.bind (@Lockstep.foldlM _ _ _ _ _ (image.AtComponent y x delivered) _ _
    image.outputs (fun done o ho s rows hat => ?_) [] _ _ h.2) fun s rows hat => ?_
  · rw [decodeMcuComponent_pixel _ hx hy]
    exact decodeSample_lockstep hlayout ho hx t.isFirst hat _ rfl
  · exact Lockstep.pure ⟨rfl,hat.1.next,hat.2⟩

/-! ## Rows and images -/

/-- What both decoders have before a row. -/
structure AtRow (image : LosslessImage) (y : ℕ) (state : LosslessRestartTracker × Samples)
    (stream : RowStream) : Prop where
  tracker_eq : state.1 = stream.tracker
  inRow : image.InRow y 0 [] state.2 stream.rows
  delivered_eq : image.bufferRows state.2 y = stream.delivered

theorem decodePixels_lockstep (hlayout : ∀ sampling, image.layout ≠ .sampled sampling) {x y : ℕ}
    (hx : x ≤ image.width) (hy : y < image.height) {state : LosslessRestartTracker × Samples}
    {stream : RowStream} (h : image.AtRow y state stream) :
    Lockstep (image.AtPixel y stream.delivered x)
      ((List.range x).foldlM (fun state x => (image.rowScan tables).decodeUnit state (x,y)) state)
      ((List.range x).foldlM (image.decodeRowPixel tables y) (stream.tracker,stream.rows)) :=
  Lockstep.foldlM_range x
    (fun _ hi _ _ hat => decodePixel_lockstep hlayout (Nat.lt_of_lt_of_le hi hx) hy hat)
    ⟨h.tracker_eq,h.inRow,h.delivered_eq⟩

theorem rowPixel_eq (hlayout : ∀ sampling, image.layout ≠ .sampled sampling) {y x : ℕ}
    {s : Samples} {rows : RowBuffers} (h : image.InRow y image.width [] s rows)
    (hx : x < image.width) : image.rowPixel rows.curr x = image.bufferPixel s x y := by
  have hleft : ∀ c ∈ image.outputs, rows.curr c x = s c x y :=
    fun c hc => h.left c hc x (Or.inl hx)
  unfold outputs at hleft
  unfold rowPixel bufferPixel
  cases hcase : image.layout with
  | gray =>
      rw [if_pos hcase] at hleft
      exact congrArg (fun v => [v]) (hleft 0 (List.mem_singleton_self 0))
  | s444 =>
      rw [if_neg (by rw [hcase]; exact nofun)] at hleft
      show image.convert _ _ _ = image.convert _ _ _
      have hcolor : ∀ c, c < 3 → rows.curr c x = s c x y := fun c hc =>
        hleft c (image.order.mem_outputIndices.mpr hc)
      rw [hcolor 0 (by decide),hcolor 1 (by decide),hcolor 2 (by decide)]
  | sampled sampling => exact absurd hcase (hlayout sampling)

theorem decodeRow_lockstep (hlayout : ∀ sampling, image.layout ≠ .sampled sampling) {y : ℕ}
    (hy : y < image.height) {state : LosslessRestartTracker × Samples} {stream : RowStream}
    (h : image.AtRow y state stream) :
    Lockstep (image.AtRow (y+1))
      ((List.range image.width).foldlM
        (fun state x => (image.rowScan tables).decodeUnit state (x,y)) state)
      (image.decodeRow tables stream y) := by
  unfold decodeRow
  rw [← bind_pure (List.foldlM _ state (List.range image.width))]
  refine Lockstep.bind (decodePixels_lockstep hlayout le_rfl hy h) fun state stream' hat => ?_
  apply Lockstep.pure
  have hrow : (List.range image.width).flatMap (image.rowPixel stream'.2.curr) =
      image.bufferRow state.2 y :=
    List.flatMap_congr fun x hx => rowPixel_eq hlayout hat.2.1 (List.mem_range.mp hx)
  refine ⟨hat.1,hat.2.1.swap,?_⟩
  rw [bufferRows,List.range_succ,List.map_append,hrow]
  exact congrArg (· ++ [image.sinkRow (image.bufferRow state.2 y)]) hat.2.2

theorem decodeRows_lockstep (hlayout : ∀ sampling, image.layout ≠ .sampled sampling)
    (scratch : RowBuffers) {y : ℕ} (hy : y ≤ image.height) :
    Lockstep (image.AtRow y)
      ((List.range y).foldlM (fun state y => (List.range image.width).foldlM
        (fun state x => (image.rowScan tables).decodeUnit state (x,y)) state)
        ((image.rowScan tables).tracker,fun _ _ _ => 0))
      ((List.range y).foldlM (image.decodeRow tables) (image.openStream tables scratch)) := by
  refine Lockstep.foldlM_range y
    (fun i hi _ _ hat => decodeRow_lockstep hlayout (Nat.lt_of_lt_of_le hi hy) hat) ?_
  refine ⟨rfl,⟨fun hlt => absurd hlt (Nat.lt_irrefl 0),fun c _ i hi => ?_⟩,rfl⟩
  rcases hi with hi | ⟨-,hmem⟩
  · exact absurd hi (Nat.not_lt_zero i)
  · exact absurd hmem List.not_mem_nil

/-! ## When the decoders agree -/

/-- The units before a pixel are those of the rows above and those to its left. -/
theorem foldlM_take_units (scan : LosslessScan) {σ : Type} {m : Type → Type} [Monad m]
    [LawfulMonad m] (f : σ → ℕ × ℕ → m σ) {y x : ℕ} (hx : x ≤ scan.unitsPerRow)
    (hle : y*scan.unitsPerRow+x ≤ scan.unitRows*scan.unitsPerRow) (a : σ) :
    (scan.units.take (y*scan.unitsPerRow+x)).foldlM f a =
      ((List.range y).foldlM (fun a y => (List.range scan.unitsPerRow).foldlM
        (fun a x => f a (x,y)) a) a) >>= fun a => (List.range x).foldlM (fun a x => f a (x,y)) a := by
  rw [LosslessRestart.units_eq,← List.map_take,List.take_range,Nat.min_eq_left hle,List.foldlM_map,
    List.range_add,List.foldlM_append,← CountedLoops.foldlM_range_mul y scan.unitsPerRow
      (fun y x a => f a (x,y))]
  refine congrArg _ (funext fun a => ?_)
  rw [List.foldlM_map]
  refine CountedLoops.foldlM_congr (fun i hi a => ?_) a
  have hlt := Nat.lt_of_lt_of_le (List.mem_range.mp hi) hx
  rw [CountedLoops.cell_div y hlt,CountedLoops.cell_mod y hlt]

theorem foldlM_units (scan : LosslessScan) {σ : Type} {m : Type → Type} [Monad m] [LawfulMonad m]
    (f : σ → ℕ × ℕ → m σ) (a : σ) :
    scan.units.foldlM f a = (List.range scan.unitRows).foldlM (fun a y =>
      (List.range scan.unitsPerRow).foldlM (fun a x => f a (x,y)) a) a := by
  have htake := foldlM_take_units scan f (Nat.zero_le _) (le_refl _) a (y := scan.unitRows)
  rw [List.take_of_length_le (by rw [LosslessRestart.units_eq]; simp)] at htake
  rw [htake]
  exact bind_pure _

theorem result_eq (hlayout : ∀ sampling, image.layout ≠ .sampled sampling) (scratch : RowBuffers)
    (bytes : List ℕ) : image.decodeRows tables scratch bytes =
      (image.decodeInto tables bytes).map fun p => (p.1.map image.sinkRow,p.2) := by
  unfold decodeRows decodeInto
  dsimp only
  rw [bufferScan_eq hlayout,foldlM_units,rowScan_eq.2.2.1,rowScan_eq.2.2.2]
  rcases decodeRows_lockstep hlayout scratch le_rfl (BitReader.new bytes) with
    ⟨state,stream,r,hm,hm',hat⟩ | ⟨e,hm,hm'⟩
  · rw [hm,hm',ok_bind,ok_bind]
    cases hfinish : finishScan true r with
    | error e => rfl
    | ok p =>
        show Except.ok (stream.delivered,p.1) = Except.ok (List.map _ (List.map _ _),p.1)
        rw [← hat.delivered_eq,bufferRows,List.map_map]
        rfl
  · rw [hm,hm']
    rfl

theorem place_eq (hlayout : ∀ sampling, image.layout ≠ .sampled sampling) (scratch : RowBuffers)
    (bytes : List ℕ) {y x : ℕ} (hy : y < image.height) (hx : x ≤ image.width) :
    image.rowsUpTo tables scratch bytes y x = image.intoUpTo tables bytes y x := by
  have hle : y*image.width+x ≤ image.height*image.width := calc
    y*image.width+x ≤ (y+1)*image.width := by rw [Nat.succ_mul]; exact Nat.add_le_add_left hx _
    _ ≤ image.height*image.width := Nat.mul_le_mul_right _ hy
  have htake := fun a => foldlM_take_units (image.rowScan tables)
    (image.rowScan tables).decodeUnit (y := y) (x := x) (by rw [rowScan_eq.2.2.1]; exact hx)
    (by rw [rowScan_eq.2.2.1,rowScan_eq.2.2.2]; exact hle) a
  rw [rowScan_eq.2.2.1] at htake
  unfold rowsUpTo intoUpTo
  dsimp only
  rw [bufferScan_eq hlayout,htake]
  rcases decodeRows_lockstep hlayout scratch (Nat.le_of_lt hy) (BitReader.new bytes) with
    ⟨state,stream,r,hm,hm',hat⟩ | ⟨e,hm,hm'⟩
  · rw [run_bind_ok hm,hm',ok_bind]
    rcases decodePixels_lockstep hlayout hx hy hat r with
      ⟨state',stream',r',hm,hm',hat'⟩ | ⟨e,hm,hm'⟩
    · rw [hm,hm',ok_bind,ok_bind,← hat'.1,← hat'.2.2]
      rfl
    · rw [hm,hm']
      rfl
  · rw [run_bind_error hm,hm']
    rfl

/-! ## Subsampled chroma -/

section
variable {scan : LosslessScan} {c : ResolvedLosslessComponent} {x y : ℕ} {first : Bool}
  {s : Samples} {r r' : BitReader}

theorem decodePlaneSample_error {e : JpegError} (h : c.dcTable.decodeFastDc r = .error e) :
    scan.decodePlaneSample c x y first s r = .error e := by
  unfold LosslessScan.decodePlaneSample
  exact run_bind_error h

theorem fromI32_bias {P : LosslessSample} (hP : P = .u8 ∨ P = .u16) :
    P.fromI32 (P.restartPredictor+0) r = .ok (P.restartPredictor,r) := by
  rcases hP with rfl | rfl <;> rfl

/-- A difference 0 at the first pixel of an image gives the bias. -/
theorem decodePlaneSample_first (hP : scan.sample = .u8 ∨ scan.sample = .u16)
    (h : c.dcTable.decodeFastDc r = .ok (0,r')) :
    scan.decodePlaneSample c 0 0 first s r =
      .ok (s.set c.outputIndex 0 0 scan.sample.restartPredictor,r') := by
  unfold LosslessScan.decodePlaneSample
  have hpredicted : (if first then scan.sample.restartPredictor
      else losslessPredict scan.predictor scan.sample.restartPredictor 0 0 (s c.outputIndex)) =
      scan.sample.restartPredictor := by
    cases first <;> rfl
  rw [hpredicted,run_bind_ok h]
  exact run_bind_ok (fromI32_bias hP)

/-- The second sample of a component comes right after its first one in the MCU. -/
theorem decodeMcuComponent_error {e : JpegError} (hP : scan.sample = .u8 ∨ scan.sample = .u16)
    (hh : c.h = 2) (hv : 0 < c.v) (hwidth : 2 ≤ c.planeWidth) (hheight : 0 < c.planeHeight)
    (hfirst : c.dcTable.decodeFastDc r = .ok (0,r')) (hsecond : c.dcTable.decodeFastDc r' = .error e) :
    scan.decodeMcuComponent 0 0 first s c r = .error e := by
  have hin : ∀ i, i < 2 → ¬(c.planeWidth ≤ 0+i ∨ c.planeHeight ≤ 0) := by
    intro i hi
    omega
  unfold LosslessScan.decodeMcuComponent
  apply run_foldlM_range_error hv
  have htwo : List.range c.h = [0,1] := by rw [hh]; rfl
  rw [htwo,List.foldlM_cons]
  dsimp only
  rw [Nat.zero_mul,Nat.zero_mul,Nat.add_zero,if_neg (hin 0 Nat.two_pos)]
  refine (run_bind_ok (decodePlaneSample_first hP hfirst)).trans ?_
  rw [List.foldlM_cons]
  apply run_bind_error
  exact (congrFun (if_neg (hin 1 Nat.one_lt_two)) _).trans (decodePlaneSample_error hsecond)

theorem foldlM_units_error {state : LosslessRestartTracker × Samples} {e : JpegError}
    (hwidth : 0 < scan.unitsPerRow) (hheight : 0 < scan.unitRows)
    (h : scan.decodeUnit state (0,0) r = .error e) :
    scan.units.foldlM scan.decodeUnit state r = .error e := by
  rw [foldlM_units]
  have hrow : (List.range scan.unitsPerRow).foldlM (fun state x => scan.decodeUnit state (x,0))
      state r = .error e := run_foldlM_range_error hwidth h
  exact run_foldlM_range_error hheight hrow

/-- No restart is due before the first unit. -/
theorem restarted_first (restartInterval : Option ℕ) (total unitIndex : ℕ) (r : BitReader) :
    (LosslessRestartTracker.new restartInterval total).restarted unitIndex r =
      .ok (.new restartInterval total,r) := by
  have hdue : ¬(0 < restartInterval.getD 0 ∧ 0 = restartInterval.getD 0) := by omega
  exact congrFun (if_neg hdue) r

end

/-- The reader after as many codes of the difference 0. -/
def AfterZeros (table : HuffmanTable) : ℕ → BitReader → BitReader → Prop
  | 0,r,r' => r = r'
  | n+1,r,r' => ∃ t, table.decodeFastDc r = .ok (0,t) ∧ AfterZeros table n t r'

/-- Components of one sample in the first MCU, of difference 0. -/
theorem decodeMcuComponents_zeros {scan : LosslessScan} {table : HuffmanTable} {first : Bool}
    {s : Samples} (hP : scan.sample = .u8 ∨ scan.sample = .u16)
    (l : List ResolvedLosslessComponent) (hl : ∀ c ∈ l, c.h = 1 ∧ c.v = 1 ∧ 0 < c.planeWidth ∧
      0 < c.planeHeight ∧ c.dcTable = table) {r r' : BitReader}
    (hzeros : AfterZeros table l.length r r') :
    ∃ s', l.foldlM (scan.decodeMcuComponent 0 0 first) s r = .ok (s',r') := by
  induction l generalizing s r with
  | nil =>
      obtain rfl := hzeros
      exact ⟨s,rfl⟩
  | cons c l ih =>
      obtain ⟨t,hzero,hzeros⟩ := hzeros
      obtain ⟨h,v,o,W,H,table'⟩ := c
      obtain ⟨rfl,rfl,hwidth,hheight,rfl⟩ := hl _ List.mem_cons_self
      obtain ⟨s',hs'⟩ := ih (fun c hc => hl c (List.mem_cons_of_mem _ hc)) hzeros
      refine ⟨s',?_⟩
      rw [List.foldlM_cons,decodeMcuComponent_pixel scan hwidth hheight]
      exact (run_bind_ok (decodePlaneSample_first hP hzero)).trans hs'

theorem decodeRowSample_first {c : ResolvedLosslessComponent} {first : Bool} {rows : RowBuffers}
    {r r' : BitReader} (h : c.dcTable.decodeFastDc r = .ok (0,r')) :
    image.decodeRowSample 0 0 first rows c r =
      .ok (rows.write c.outputIndex 0 image.sample.restartPredictor,r') := by
  unfold decodeRowSample
  have hpredicted : (if first then image.sample.restartPredictor
      else rows.predict image.predictor image.sample.restartPredictor 0 0 c.outputIndex) =
      image.sample.restartPredictor := by
    cases first <;> rfl
  rw [hpredicted,run_bind_ok h]
  exact run_bind_ok (fromI32_bias image.sample_mem)

/-- Components of the first pixel, of difference 0. -/
theorem decodeRowSamples_zeros {table : HuffmanTable} {first : Bool} {rows : RowBuffers}
    (l : List ResolvedLosslessComponent) (hl : ∀ c ∈ l, c.dcTable = table) {r r' : BitReader}
    (hzeros : AfterZeros table l.length r r') :
    ∃ rows', l.foldlM (image.decodeRowSample 0 0 first) rows r = .ok (rows',r') := by
  induction l generalizing rows r with
  | nil =>
      obtain rfl := hzeros
      exact ⟨rows,rfl⟩
  | cons c l ih =>
      obtain ⟨t,hzero,hzeros⟩ := hzeros
      obtain ⟨rows',hrows'⟩ := ih (fun c hc => hl c (List.mem_cons_of_mem _ hc)) hzeros
      refine ⟨rows',?_⟩
      rw [List.foldlM_cons]
      exact (run_bind_ok (decodeRowSample_first (by rw [hl c List.mem_cons_self]; exact hzero))).trans
        hrows'

/-- The components before the luma in the scan, and those after it. -/
structure SplitsAt (order : ScanOrder) (before after : List ℕ) : Prop where
  eq : order.outputIndices = before ++ 0::after
  before_ne : ∀ i ∈ before, i ≠ 0
  after_ne : ∀ i ∈ after, i ≠ 0
  length_eq : before.length+after.length = 2

theorem exists_splitsAt (order : ScanOrder) : ∃ before after, SplitsAt order before after := by
  obtain ⟨before,after,heq⟩ := List.append_of_mem (order.mem_outputIndices.mpr (Nat.succ_pos 2))
  have hnodup : order.outputIndices.Nodup := order.perm.nodup_iff.mpr List.nodup_range
  have hlength := order.perm.length_eq
  rw [heq] at hnodup hlength
  obtain ⟨-,hafter,hdisjoint⟩ := List.nodup_append.mp hnodup
  refine ⟨before,after,heq,fun i hi hzero => ?_,fun i hi hzero => ?_,?_⟩
  · exact hdisjoint i hi 0 List.mem_cons_self hzero
  · exact (List.nodup_cons.mp hafter).1 (hzero ▸ hi)
  · simp only [List.length_append,List.length_cons,List.length_range] at hlength
    omega

/-- The tables of the components: one for the luma and one for the others. -/
def tablesOf (luma chroma : HuffmanTable) (i : ℕ) : HuffmanTable := if i = 0 then luma else chroma

/-- An image with subsampled chroma has two columns. -/
theorem two_le_width (image : LosslessImage) {sampling : LosslessColorSampling}
    (hlayout : image.layout = .sampled sampling) : 2 ≤ image.width := by
  have heven := image.even_width sampling hlayout
  have hpos := image.width_pos
  omega

section
variable {sampling : LosslessColorSampling} {luma chroma : HuffmanTable} {before after : List ℕ}
  {bytes : List ℕ} {r₀ r r' : BitReader} {e invalid : JpegError}

/-- Where the second difference of the luma is not a category, the first MCU fails there. -/
theorem decodeUnit_sampled {scan : LosslessScan} {predictor width height : ℕ}
    {restartInterval : Option ℕ} {order : ScanOrder} {P : LosslessSample} (hP : P = .u8 ∨ P = .u16)
    (hscan : scan = losslessColorSampled P predictor width height sampling restartInterval order
      (tablesOf luma chroma))
    (hwidth : 2 ≤ width) (hheight : 0 < height) (hsplits : SplitsAt order before after)
    (hbefore : AfterZeros chroma before.length r₀ r) (hfirst : luma.decodeFastDc r = .ok (0,r'))
    (hsecond : luma.decodeFastDc r' = .error e) (s : Samples) :
    scan.decodeUnit (scan.tracker,s) (0,0) r₀ = .error e := by
  have hcomponents : scan.components = before.map (sampledComponent width height sampling
      (tablesOf luma chroma)) ++ (⟨2,sampling.v,0,width,height,luma⟩::after.map
        (sampledComponent width height sampling (tablesOf luma chroma))) := by
    rw [hscan]
    exact (congrArg _ hsplits.eq).trans List.map_append
  have hsample : scan.sample = .u8 ∨ scan.sample = .u16 := by
    rw [hscan]
    exact hP
  have hrows : 0 < (height+sampling.v-1)/sampling.v :=
    Nat.div_pos (by have := sampling.v_pos; omega) sampling.v_pos
  unfold LosslessScan.decodeUnit LosslessScan.tracker
  refine (run_bind_ok (restarted_first scan.restartInterval _ _ _)).trans (run_bind_error ?_)
  unfold LosslessScan.decodeMcu
  rw [hcomponents,List.foldlM_append]
  have hone : ∀ c ∈ before.map (sampledComponent width height sampling (tablesOf luma chroma)),
      c.h = 1 ∧ c.v = 1 ∧ 0 < c.planeWidth ∧ 0 < c.planeHeight ∧ c.dcTable = chroma := by
    intro c hc
    obtain ⟨i,hi,rfl⟩ := List.mem_map.mp hc
    rw [sampledComponent,if_neg (hsplits.before_ne i hi)]
    exact ⟨rfl,rfl,by dsimp only; omega,hrows,if_neg (hsplits.before_ne i hi)⟩
  obtain ⟨s',hs'⟩ := decodeMcuComponents_zeros hsample _ hone
    (by rw [List.length_map]; exact hbefore)
  refine (run_bind_ok hs').trans ?_
  rw [List.foldlM_cons]
  apply run_bind_error
  exact decodeMcuComponent_error hsample rfl sampling.v_pos hwidth hheight hfirst hsecond

theorem decodeInto_sampled (hlayout : image.layout = .sampled sampling)
    (hsplits : SplitsAt image.order before after)
    (hbefore : AfterZeros chroma before.length (BitReader.new bytes) r)
    (hfirst : luma.decodeFastDc r = .ok (0,r')) (hsecond : luma.decodeFastDc r' = .error e) :
    image.decodeInto (tablesOf luma chroma) bytes = .error e := by
  have hwidth : 2 ≤ image.width := image.two_le_width hlayout
  have hscan : image.bufferScan (tablesOf luma chroma) = losslessColorSampled image.sample
      image.predictor image.width image.height sampling image.restartInterval image.order
      (tablesOf luma chroma) := by
    unfold bufferScan
    rw [hlayout]
  have hunit := decodeUnit_sampled image.sample_mem hscan hwidth image.height_pos hsplits hbefore
    hfirst hsecond fun _ _ _ => 0
  have hloop := foldlM_units_error ?_ ?_ hunit
  · unfold decodeInto
    dsimp only
    rw [hloop]
    rfl
  · rw [hscan]
    show 0 < (image.width+1)/2
    omega
  · rw [hscan]
    exact Nat.div_pos (by have := image.height_pos; have := sampling.v_pos; omega) sampling.v_pos

/-- A component of a scan whose units are pixels. -/
def pixelComponent (image : LosslessImage) (luma chroma : HuffmanTable) (i : ℕ) :
    ResolvedLosslessComponent := ⟨1,1,i,image.width,image.height,tablesOf luma chroma i⟩

theorem rowScan_sampled (hlayout : image.layout = .sampled sampling)
    (hsplits : SplitsAt image.order before after) :
    (image.rowScan (tablesOf luma chroma)).components =
      before.map (image.pixelComponent luma chroma) ++ (image.pixelComponent luma chroma 0::
        after.map (image.pixelComponent luma chroma)) ∧
    ∃ total, (image.rowScan (tablesOf luma chroma)).tracker = .new image.restartInterval total := by
  constructor
  · rw [rowScan_components,outputs,if_neg (by rw [hlayout]; exact nofun),hsplits.eq]
    exact List.map_append
  · unfold rowScan
    rw [hlayout]
    exact ⟨_,rfl⟩

/-- The components of the first pixel up to the luma. -/
theorem decodeRowSamples_luma (hbefore_ne : ∀ i ∈ before, i ≠ 0)
    (hbefore : AfterZeros chroma before.length r₀ r) (hfirst : luma.decodeFastDc r = .ok (0,r'))
    (first : Bool) (rows : RowBuffers) (l : List ResolvedLosslessComponent) :
    ∃ rows', (before.map (image.pixelComponent luma chroma) ++
        (image.pixelComponent luma chroma 0::l)).foldlM (image.decodeRowSample 0 0 first) rows r₀ =
      l.foldlM (image.decodeRowSample 0 0 first) rows' r' := by
  have hchroma : ∀ c ∈ before.map (image.pixelComponent luma chroma), c.dcTable = chroma := by
    intro c hc
    obtain ⟨i,hi,rfl⟩ := List.mem_map.mp hc
    exact if_neg (hbefore_ne i hi)
  obtain ⟨rows',hrows⟩ := @decodeRowSamples_zeros image chroma first rows _ hchroma _ _
    (by rw [List.length_map]; exact hbefore)
  refine ⟨rows'.write 0 0 image.sample.restartPredictor,?_⟩
  rw [List.foldlM_append]
  refine (run_bind_ok hrows).trans ?_
  rw [List.foldlM_cons]
  exact run_bind_ok (@decodeRowSample_first image _ first rows' r r' hfirst)

/-- A pixel whose first component has no code fails, also where a restart is due. -/
theorem decodeRowPixel_error {c : ResolvedLosslessComponent} {l : List ResolvedLosslessComponent}
    {tables : ℕ → HuffmanTable} (hcomponents : (image.rowScan tables).components = c::l)
    (herror : c.dcTable.decodeFastDc r = .error e) (he : e ≠ invalid)
    (hrestart : ∀ expectedRst mcuAt mcuTotal, ∃ e', e' ≠ invalid ∧
      consumeLosslessRestart mcuAt mcuTotal expectedRst r = .error e')
    (t : LosslessRestartTracker) (rows : RowBuffers) (x y : ℕ) :
    ∃ e', e' ≠ invalid ∧ image.decodeRowPixel tables y (t,rows) x r = .error e' := by
  unfold decodeRowPixel LosslessRestartTracker.restarted
  rw [hcomponents]
  dsimp only
  split_ifs
  · obtain ⟨e',he',hfail⟩ := hrestart t.expectedRst (y*image.width+x) t.totalUnits
    exact ⟨e',he',run_bind_error (run_bind_error hfail)⟩
  · refine ⟨e,he,?_⟩
    refine (run_bind_ok (show (pure t : Read _) r = .ok (t,r) from rfl)).trans (run_bind_error ?_)
    rw [List.foldlM_cons]
    exact run_bind_error (run_bind_error herror)

/-- The pixel loop fails where another component, or the next pixel, comes after the luma. -/
theorem decodeRows_sampled (hlayout : image.layout = .sampled sampling) (scratch : RowBuffers)
    (hsplits : SplitsAt image.order before after)
    (hbefore : AfterZeros chroma before.length (BitReader.new bytes) r)
    (hfirst : luma.decodeFastDc r = .ok (0,r')) (hsecond : chroma.decodeFastDc r' = .error e)
    (he : e ≠ invalid) (hrestart : ∀ expectedRst mcuAt mcuTotal, ∃ e', e' ≠ invalid ∧
      consumeLosslessRestart mcuAt mcuTotal expectedRst r' = .error e') :
    ∃ e', e' ≠ invalid ∧
      image.decodeRows (tablesOf luma chroma) scratch bytes = .error e' := by
  obtain ⟨hcomponents,total,htracker⟩ := @rowScan_sampled image sampling luma chroma before after
    hlayout hsplits
  have hopen : image.openStream (tablesOf luma chroma) scratch =
      ⟨.new image.restartInterval total,scratch,[]⟩ := by
    rw [openStream,htracker]
  obtain ⟨rows,hrows⟩ := @decodeRowSamples_luma image luma chroma before (BitReader.new bytes) r r'
    hsplits.before_ne hbefore hfirst (LosslessRestartTracker.new image.restartInterval total).isFirst
    scratch (after.map (image.pixelComponent luma chroma))
  have hpixels : ∃ e', e' ≠ invalid ∧ (List.range image.width).foldlM
      (image.decodeRowPixel (tablesOf luma chroma) 0)
      (LosslessRestartTracker.new image.restartInterval total,scratch) (BitReader.new bytes) =
        .error e' := by
    have hunit := restarted_first image.restartInterval total (0*image.width+0)
      (BitReader.new bytes)
    cases hafter : after with
    | cons i rest =>
        refine ⟨e,he,run_foldlM_range_error image.width_pos ?_⟩
        unfold decodeRowPixel
        rw [hcomponents]
        refine (run_bind_ok hunit).trans (run_bind_error (hrows.trans ?_))
        rw [hafter,List.map_cons,List.foldlM_cons]
        have htable : (image.pixelComponent luma chroma i).dcTable = chroma :=
          if_neg (hsplits.after_ne i (hafter ▸ List.mem_cons_self))
        exact run_bind_error (run_bind_error (by rw [htable]; exact hsecond))
    | nil =>
        -- the next pixel starts with the first component of the scan
        obtain ⟨b,rest,hb⟩ : ∃ b rest, before = b::rest :=
          List.exists_cons_of_length_pos (by have := hsplits.length_eq; simp [hafter] at this; omega)
        have hpixel : image.decodeRowPixel (tablesOf luma chroma) 0
            (LosslessRestartTracker.new image.restartInterval total,scratch) 0
            (BitReader.new bytes) =
              .ok (((LosslessRestartTracker.new image.restartInterval total).finishUnit,rows),r') := by
          unfold decodeRowPixel
          rw [hcomponents]
          refine (run_bind_ok hunit).trans ?_
          refine (run_bind_ok (hrows.trans ?_)).trans rfl
          rw [hafter]
          rfl
        have htable : (image.pixelComponent luma chroma b).dcTable = chroma :=
          if_neg (hsplits.before_ne b (hb ▸ List.mem_cons_self))
        rw [hb,List.map_cons,List.cons_append] at hcomponents
        obtain ⟨e',he',hfail⟩ := decodeRowPixel_error hcomponents (by rw [htable]; exact hsecond) he
          hrestart (LosslessRestartTracker.new image.restartInterval total).finishUnit rows 1 0
        exact ⟨e',he',run_foldlM_range_error_second (image.two_le_width hlayout) hpixel hfail⟩
  obtain ⟨e',he',hfail⟩ := hpixels
  have hrow : image.decodeRow (tablesOf luma chroma) (image.openStream (tablesOf luma chroma)
      scratch) 0 (BitReader.new bytes) = .error e' := by
    rw [hopen]
    exact run_bind_error hfail
  unfold decodeRows
  exact ⟨e',he',congrArg (Except.bind · _) (run_foldlM_range_error image.height_pos hrow)⟩

end

end LosslessImage

open LosslessImage

/-- One code, of the difference 0. -/
def zeroOnly : RawHuffmanTable where
  bits := [1,0,0,0,0,0,0,0,0,0,0,0,0,0,0,0]
  values := [0]
  bits_length := rfl
  values_lt := by decide

/-- The codes 0 and 10, of the categories 0 and 16. -/
def zeroOrSixteen : RawHuffmanTable where
  bits := [1,1,0,0,0,0,0,0,0,0,0,0,0,0,0,0]
  values := [0,16]
  bits_length := rfl
  values_lt := by decide

/-- Up to two differences 0 of chroma, one of luma, and the bits 10: category 16 in the one table,
no code in the other, and no restart. -/
theorem exists_tables (n : ℕ) (hn : n ≤ 2) : ∃ luma chroma bytes r r',
    HuffmanTable.fromRaw zeroOrSixteen .dc = .ok luma ∧
    HuffmanTable.fromRaw zeroOnly .dc = .ok chroma ∧
    AfterZeros chroma n (BitReader.new bytes) r ∧ luma.decodeFastDc r = .ok (0,r') ∧
    luma.decodeFastDc r' = .error (huffmanFailure .invalidSymbol) ∧
    chroma.decodeFastDc r' = .error (huffmanFailure .codeOverflow) ∧
    ∀ expectedRst mcuAt mcuTotal, consumeLosslessRestart mcuAt mcuTotal expectedRst r' =
      .error (.unexpectedEoi mcuAt mcuTotal) := by
  obtain rfl | rfl | rfl : n = 0 ∨ n = 1 ∨ n = 2 := by omega
  · exact ⟨_,_,[0x40,0,0],_,_,rfl,rfl,rfl,rfl,rfl,rfl,fun _ _ _ => rfl⟩
  · exact ⟨_,_,[0x20,0,0],_,_,rfl,rfl,⟨_,rfl,rfl⟩,rfl,rfl,rfl,fun _ _ _ => rfl⟩
  · exact ⟨_,_,[0x10,0,0],_,_,rfl,rfl,⟨_,rfl,_,rfl,rfl⟩,rfl,rfl,rfl,fun _ _ _ => rfl⟩

theorem not_streamsAlike_sampled {image : LosslessImage} {sampling : LosslessColorSampling}
    (hlayout : image.layout = .sampled sampling) : ¬image.StreamsAlike := by
  intro halike
  obtain ⟨before,after,hsplits⟩ := exists_splitsAt image.order
  obtain ⟨luma,chroma,bytes,r,r',hluma,hchroma,hbefore,hfirst,hinvalid,hoverflow,hrestart⟩ :=
    exists_tables before.length (by have := hsplits.length_eq; omega)
  have hresult := halike.result (tablesOf luma chroma) (fun i => ?_)
    ⟨fun _ _ => 0,fun _ _ => 0⟩ bytes
  · obtain ⟨e,he,hrows⟩ := decodeRows_sampled hlayout ⟨fun _ _ => 0,fun _ _ => 0⟩ hsplits hbefore
      hfirst hoverflow (show _ ≠ huffmanFailure .invalidSymbol by decide)
      fun expectedRst mcuAt mcuTotal =>
        ⟨.unexpectedEoi mcuAt mcuTotal,nofun,hrestart expectedRst mcuAt mcuTotal⟩
    rw [hrows,decodeInto_sampled hlayout hsplits hbefore hfirst hinvalid] at hresult
    exact he (Except.error.inj hresult)
  · by_cases hi : i = 0
    · exact ⟨zeroOrSixteen,hluma.trans (congrArg _ (if_pos hi).symm)⟩
    · exact ⟨zeroOnly,hchroma.trans (congrArg _ (if_neg hi).symm)⟩

/-- The rows that are streamed are those of the buffer, with the same errors and warnings, if and
only if the chroma of the image is not subsampled. -/
theorem streamsAlike_iff (image : LosslessImage) :
    image.StreamsAlike ↔ ∀ sampling, image.layout ≠ .sampled sampling := by
  constructor
  · intro halike sampling hlayout
    exact not_streamsAlike_sampled hlayout halike
  · intro hlayout
    exact ⟨fun _ _ scratch bytes => result_eq hlayout scratch bytes,
      fun _ _ scratch bytes _ _ hy hx => place_eq hlayout scratch bytes hy hx⟩

/-- Two pixels with a chroma sample each of two components. -/
def twoPixels : LosslessImage where
  sample := .u8
  predictor := 1
  width := 2
  height := 1
  layout := .sampled .s422
  order := .frame
  restartInterval := none
  convert := fun c0 c1 c2 => [c0,c1,c2]
  sample_mem := Or.inl rfl
  predictor_mem := by decide
  width_pos := Nat.two_pos
  height_pos := Nat.one_pos
  even_width := fun _ _ => rfl
  even_height := nofun

/-- Four differences 0 and the end of the image: the buffer is filled, and the stream runs out of
codes in the second pixel. -/
theorem sampled_rows_fail : ∃ table, HuffmanTable.fromRaw zeroOnly .dc = .ok table ∧
    twoPixels.decodeInto (fun _ => table) [0x0F,0xFF,0xD9] =
      .ok ([[128,128,128,128,128,128]],[]) ∧
    twoPixels.decodeRows (fun _ => table) ⟨fun _ _ => 0,fun _ _ => 0⟩ [0x0F,0xFF,0xD9] =
      .error (huffmanFailure .codeOverflow) ∧
    ¬twoPixels.StreamsAlike := by
  obtain ⟨table,haccepted,hinto,hrows⟩ : ∃ table,
      HuffmanTable.fromRaw zeroOnly .dc = .ok table ∧
      twoPixels.decodeInto (fun _ => table) [0x0F,0xFF,0xD9] =
        .ok ([[128,128,128,128,128,128]],[]) ∧
      twoPixels.decodeRows (fun _ => table) ⟨fun _ _ => 0,fun _ _ => 0⟩ [0x0F,0xFF,0xD9] =
        .error (huffmanFailure .codeOverflow) := ⟨_,rfl,rfl,rfl⟩
  refine ⟨table,haccepted,hinto,hrows,fun halike => ?_⟩
  have hresult := halike.result (fun _ => table) (fun _ => ⟨zeroOnly,haccepted⟩)
    ⟨fun _ _ => 0,fun _ _ => 0⟩ [0x0F,0xFF,0xD9]
  rw [hinto,hrows] at hresult
  exact nomatch hresult

end J2kNative.LosslessRows
