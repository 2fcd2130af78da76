import J2kNative.KeptState
import J2kNative.PacketProgression
import J2kNative.TilePartParsing

/-!
# Memory of the tiles' marker data

A budget counts the bytes of what the tiles own, with an image's bytes below them and a cap
above. A tile-part is parsed in a transaction, whose temporary vectors are counted too and
taken off when it ends, however it ends. The allocator may give more than it is asked for.

The reader of bytes is that of `TilePartParsing`; a marker's vector is reserved for its length.
Fields of tiles and components that own nothing are left out, but for those that the parser
of a tile-part reads.
-/
namespace J2kNative.TileMetadata
open KeptState TileTree MarkerSegments PacketMarkers ParameterPrecedence TilePartParsing
open PacketProgression (defaultMaxDecodeBytes)

/-! ## Vectors -/

def usizeMax : ℕ := 2 ^ 64-1

/-- What an allocation may not exceed. -/
def isizeMax : ℕ := 2 ^ 63-1

/-- A vector and the number of elements it has room for. -/
structure RustVec (α : Type) where
  items : List α
  capacity : ℕ

namespace RustVec
variable {α : Type}

def empty : RustVec α := ⟨[],0⟩

/-- Appends elements; the vector grows where it has no room for them. -/
def extend (v : RustVec α) (items : List α) : RustVec α :=
  ⟨v.items ++ items,max v.capacity (v.items.length+items.length)⟩

end RustVec

/-- `try_reserve_exact`: the capacity that a vector has after it, none where it fails. Its
answers may differ from call to call. -/
structure Allocator where
  grow : (call size capacity target : ℕ) → Option ℕ
  room : ∀ {call size capacity target c}, grow call size capacity target = some c → target ≤ c
  fits : ∀ {call size capacity target c}, grow call size capacity target = some c →
    size*c ≤ isizeMax

/-- Gives what it is asked for and no more. -/
def Allocator.Exact (A : Allocator) : Prop :=
  ∀ {call size capacity target c}, A.grow call size capacity target = some c → c = target

inductive MetadataError where
  | parse (error : TileParseError)
  | imageTooLarge
  | hostAllocationFailed
  | tooManyChannels
  | invalidComponentMetadata
  deriving DecidableEq, Repr

def checkedVectorBytes (size len : ℕ) : Except MetadataError ℕ :=
  if size*len ≤ usizeMax then .ok (size*len) else .error .imageTooLarge

def checkedAddMetadataBytes (total additional : ℕ) : Except MetadataError ℕ :=
  if total+additional ≤ usizeMax then .ok (total+additional) else .error .imageTooLarge

def checkedReplacementBytes (total old replacement : ℕ) : Except MetadataError ℕ :=
  if old ≤ total then checkedAddMetadataBytes (total-old) replacement else .error .imageTooLarge

def validateMetadataByteCap (bytes cap : ℕ) : Except MetadataError Unit :=
  if bytes > cap then .error .imageTooLarge else .ok ()

def validateTransientPeak (liveBytes replacementBytes cap : ℕ) : Except MetadataError Unit := do
  let peak ← checkedAddMetadataBytes liveBytes replacementBytes
  validateMetadataByteCap peak cap

/-- `try_reserve_decode_elements` -/
def tryReserveDecodeElements {α : Type} (A : Allocator) (call size : ℕ) (v : RustVec α)
    (target : ℕ) : Except MetadataError Unit × RustVec α :=
  if target*size > defaultMaxDecodeBytes then (.error .imageTooLarge,v)
  else if target > v.capacity then
    match A.grow call size v.capacity target with
    | none => (.error .hostAllocationFailed,v)
    | some capacity => (.ok (),⟨v.items,capacity⟩)
  else (.ok (),v)

/-! ## The budget -/

structure TileMetadataBudget where
  retainedImageBytes : ℕ
  retainedBytes : ℕ
  cap : ℕ
  accountingValid : Bool
  deriving DecidableEq, Repr

namespace TileMetadataBudget

def withCap (retainedImageBytes cap : ℕ) : Except MetadataError TileMetadataBudget := do
  validateMetadataByteCap retainedImageBytes cap
  .ok ⟨retainedImageBytes,retainedImageBytes,cap,true⟩

def remainingBytes (b : TileMetadataBudget) : ℕ := b.cap-b.retainedBytes

/-- `try_reserve_retained`. The vector keeps what it was given also where that is refused. -/
def tryReserveRetained {α : Type} (A : Allocator) (call size : ℕ) (b : TileMetadataBudget)
    (v : RustVec α) (target : ℕ) :
    Except MetadataError Unit × TileMetadataBudget × RustVec α :=
  if b.accountingValid = false then (.error .imageTooLarge,b,v)
  else if target ≤ v.capacity then (.ok (),b,v)
  else match checkedVectorBytes size v.capacity,(do
      let plannedBytes ← checkedVectorBytes size target
      validateTransientPeak b.retainedBytes plannedBytes b.cap) with
    | .error e,_ => (.error e,b,v)
    | .ok _,.error e => (.error e,b,v)
    | .ok oldBytes,.ok () =>
      let (result,v') := tryReserveDecodeElements A call size v target
      match checkedVectorBytes size v'.capacity with
      | .error e => (.error e,b,v')
      | .ok actualBytes => match checkedReplacementBytes b.retainedBytes oldBytes actualBytes with
        | .error e => (.error e,b,v')
        | .ok retainedBytes =>
          ((do
            result
            validateTransientPeak b.retainedBytes actualBytes b.cap),
            { b with retainedBytes },v')

/-- `account_existing_capacity` -/
def accountExistingCapacity (b : TileMetadataBudget) (size capacity : ℕ) :
    Except MetadataError (ℕ × TileMetadataBudget) :=
  if b.accountingValid = false then .error .imageTooLarge
  else do
    let bytes ← checkedVectorBytes size capacity
    let retainedBytes ← checkedAddMetadataBytes b.retainedBytes bytes
    validateMetadataByteCap retainedBytes b.cap
    .ok (bytes,{ b with retainedBytes })

/-- `Drop` of a transaction. -/
def dropTransaction (b : TileMetadataBudget) (temporaryBytes : ℕ) : TileMetadataBudget :=
  if temporaryBytes = 0 then b
  else if temporaryBytes ≤ b.retainedBytes then
    { b with retainedBytes := b.retainedBytes-temporaryBytes }
  else { b with accountingValid := false }

end TileMetadataBudget

/-! ## Owners -/

/-- The sizes in memory of the elements, which the layout of the platform decides. -/
structure ElementSizes where
  tile : ℕ
  componentInfo : ℕ
  tilePart : ℕ
  bitReader : ℕ
  progressionChange : ℕ
  packetLengthMarker : ℕ
  pptMarker : ℕ

/-- The size of a pair of precinct exponents. -/
def precinctExponentBytes : ℕ := 2

def stepSizeBytes : ℕ := 4

/-- The size of a packet length. -/
def packetLengthBytes : ℕ := 4

structure ComponentOwner where
  numResolutionLevels : ℕ
  precinctExponents : RustVec (ℕ × ℕ)
  stepSizes : RustVec StepSize
  roiShift : ℕ

inductive TilePartOwner where
  | merged (data : List ℕ) (packetLengths : RustVec ℕ)
  | separated (headers : RustVec (List ℕ)) (body : List ℕ) (packetLengths : RustVec ℕ)

structure TileOwner where
  componentInfos : RustVec ComponentOwner
  progressionChanges : RustVec ProgressionChange
  tileParts : RustVec TilePartOwner

def TileOwner.new : TileOwner := ⟨.empty,.empty,.empty⟩

section
variable (z : ElementSizes)

def ComponentOwner.bytes (c : ComponentOwner) : ℕ :=
  precinctExponentBytes*c.precinctExponents.capacity+stepSizeBytes*c.stepSizes.capacity

def TilePartOwner.bytes : TilePartOwner → ℕ
  | .merged _ packetLengths => packetLengthBytes*packetLengths.capacity
  | .separated headers _ packetLengths =>
      z.bitReader*headers.capacity+packetLengthBytes*packetLengths.capacity

def TileOwner.bytes (t : TileOwner) : ℕ :=
  z.componentInfo*t.componentInfos.capacity+(t.componentInfos.items.map ComponentOwner.bytes).sum+
    z.progressionChange*t.progressionChanges.capacity+z.tilePart*t.tileParts.capacity+
    (t.tileParts.items.map (TilePartOwner.bytes z)).sum

/-- What the tiles own. -/
def tileOwnerBytes (tiles : RustVec TileOwner) : ℕ :=
  z.tile*tiles.capacity+(tiles.items.map (TileOwner.bytes z)).sum

/-- `tile_owner_allocation_bytes`, whose sums all stay below the last of them. -/
def tileOwnerAllocationBytes (tiles : RustVec TileOwner) : Except MetadataError ℕ :=
  if tileOwnerBytes z tiles ≤ usizeMax then .ok (tileOwnerBytes z tiles)
  else .error .imageTooLarge

def TileMetadataBudget.validateOwnerGraph (b : TileMetadataBudget) (tiles : RustVec TileOwner) :
    Except MetadataError Unit :=
  if b.accountingValid = false then .error .imageTooLarge
  else do
    let bytes ← tileOwnerAllocationBytes z tiles
    let actual ← checkedAddMetadataBytes b.retainedImageBytes bytes
    validateMetadataByteCap actual b.cap
    if actual ≠ b.retainedBytes then .error .imageTooLarge else .ok ()

end

/-! ## Transactions -/

/-- A transaction on the tile whose tile-part is parsed. -/
structure Transaction where
  reader : List ℕ
  budget : TileMetadataBudget
  temporaryBytes : ℕ
  tile : TileOwner
  ppmPacketIdx : ℕ
  allocations : ℕ

abbrev Marker (α : Type) := Run Transaction MetadataError α

/-- A vector of a tile, with the size of its elements. -/
structure TilePlace (α : Type) where
  size : ℕ
  get : TileOwner → RustVec α
  put : RustVec α → TileOwner → TileOwner

def Transaction.setTile (f : TileOwner → TileOwner) (s : Transaction) : Transaction :=
  { s with tile := f s.tile }

/-- What reads the bytes before the reader. -/
def read {α : Type} (p : Parse α) : Marker α := fun s => match p s.reader with
  | .error e => (.error (.parse e),s)
  | .ok (a,rest) => (.ok a,{ s with reader := rest })

def setPlace {α : Type} (p : TilePlace α) (f : RustVec α → RustVec α) : Marker Unit :=
  Run.update (·.setTile fun t => p.put (f (p.get t)) t)

section
variable {α : Type} (A : Allocator)

/-- The vector into which a marker is parsed, before the transaction knows of it. -/
def parsedVec (size : ℕ) (items : List α) : Marker (RustVec α) := fun s =>
  let (result,v) := tryReserveDecodeElements A s.allocations size (.empty : RustVec α) items.length
  (result.map fun _ => v.extend items,{ s with allocations := s.allocations+1 })

def reserveRetained (p : TilePlace α) (target : ℕ) : Marker Unit := fun s =>
  let (result,budget,v) := s.budget.tryReserveRetained A s.allocations p.size (p.get s.tile) target
  (result,{ s with budget, tile := p.put v s.tile, allocations := s.allocations+1 })

def reserveTemporary (size : ℕ) (v : RustVec α) (target : ℕ) : Marker (RustVec α) := fun s =>
  match checkedVectorBytes size v.capacity with
  | .error e => (.error e,s)
  | .ok oldBytes =>
    let (result,budget,v') := s.budget.tryReserveRetained A s.allocations size v target
    let s := { s with budget, allocations := s.allocations+1 }
    match (do
        let actualBytes ← checkedVectorBytes size v'.capacity
        checkedReplacementBytes s.temporaryBytes oldBytes actualBytes) with
    | .error e => (.error e,s)
    | .ok temporaryBytes => (result.map fun _ => v',{ s with temporaryBytes })

def trackTemporaryVec (size : ℕ) (v : RustVec α) : Marker Unit := fun s =>
  match s.budget.accountExistingCapacity size v.capacity with
  | .error e => (.error e,s)
  | .ok (bytes,budget) =>
    let s := { s with budget }
    match checkedAddMetadataBytes s.temporaryBytes bytes with
    | .error e => (.error e,s)
    | .ok temporaryBytes => (.ok (),{ s with temporaryBytes })

def tryCopyTemporary (size : ℕ) (source : List α) : Marker (RustVec α) := do
  let destination ← reserveTemporary A size .empty source.length
  pure (destination.extend source)

/-- `checked_release` of bytes from the temporary ones and from all. -/
def checkedRelease (s : Transaction) (temporary retained : ℕ) :
    Except MetadataError Transaction :=
  if temporary ≤ s.temporaryBytes then
    if retained ≤ s.budget.retainedBytes then
      .ok { s with
        temporaryBytes := s.temporaryBytes-temporary
        budget := { s.budget with retainedBytes := s.budget.retainedBytes-retained } }
    else .error .imageTooLarge
  else .error .imageTooLarge

/-- `replace_owner`: the replacement is temporary no more, what it replaces is freed. -/
def replaceOwner (p : TilePlace α) (replacement : RustVec α) : Marker Unit := fun s =>
  match (do
      let oldBytes ← checkedVectorBytes p.size (p.get s.tile).capacity
      let replacementBytes ← checkedVectorBytes p.size replacement.capacity
      checkedRelease s replacementBytes oldBytes) with
  | .error e => (.error e,s)
  | .ok s => (.ok (),s.setTile (p.put replacement))

def releaseTemporaryCapacity (size capacity : ℕ) : Marker Unit := fun s =>
  match (do
      let bytes ← checkedVectorBytes size capacity
      checkedRelease s bytes bytes) with
  | .error e => (.error e,s)
  | .ok s => (.ok (),s)

def retainTemporaryVec (size : ℕ) (v : RustVec α) : Marker Unit := fun s =>
  match (do
      let bytes ← checkedVectorBytes size v.capacity
      checkedRelease s bytes 0) with
  | .error e => (.error e,s)
  | .ok s => (.ok (),s)

def appendTemporary (p : TilePlace α) (source : RustVec α) : Marker Unit := do
  let s ← Run.state
  reserveRetained A p ((p.get s.tile).items.length+source.items.length)
  releaseTemporaryCapacity p.size source.capacity
  setPlace p (·.extend source.items)

end

/-! ## Places -/

def TileOwner.setComponent (i : ℕ) (f : ComponentOwner → ComponentOwner) (t : TileOwner) :
    TileOwner :=
  { t with componentInfos := { t.componentInfos with items := t.componentInfos.items.modify i f } }

def TileOwner.component? (i : ℕ) (t : TileOwner) : Option ComponentOwner :=
  t.componentInfos.items[i]?

def componentPlace (z : ElementSizes) : TilePlace ComponentOwner :=
  ⟨z.componentInfo,TileOwner.componentInfos,fun v t => { t with componentInfos := v }⟩

def precinctPlace (i : ℕ) : TilePlace (ℕ × ℕ) :=
  ⟨precinctExponentBytes,fun t => (t.component? i).elim .empty ComponentOwner.precinctExponents,
    fun v => TileOwner.setComponent i fun c => { c with precinctExponents := v }⟩

def stepPlace (i : ℕ) : TilePlace StepSize :=
  ⟨stepSizeBytes,fun t => (t.component? i).elim .empty ComponentOwner.stepSizes,
    fun v => TileOwner.setComponent i fun c => { c with stepSizes := v }⟩

def changesPlace (z : ElementSizes) : TilePlace ProgressionChange :=
  ⟨z.progressionChange,TileOwner.progressionChanges,fun v t => { t with progressionChanges := v }⟩

def partsPlace (z : ElementSizes) : TilePlace TilePartOwner :=
  ⟨z.tilePart,TileOwner.tileParts,fun v t => { t with tileParts := v }⟩

/-! ## Inheritance -/

/-- What a tile's component takes over from the main header. -/
structure InheritedComponent where
  numResolutionLevels : ℕ
  precinctExponents : List (ℕ × ℕ)
  stepSizes : List StepSize
  roiShift : ℕ

structure Header where
  main : MainHeader
  componentInfos : List InheritedComponent
  progressionChanges : List ProgressionChange

section
variable (A : Allocator) (z : ElementSizes)

/-- Reserves for elements of the main header and copies them. -/
def inheritElements {α : Type} (p : TilePlace α) (source : List α) : Marker Unit := do
  reserveRetained A p source.length
  setPlace p (·.extend source)

def inheritComponents : List InheritedComponent → Marker Unit
  | [] => pure ()
  | source :: sources => do
    setPlace (componentPlace z)
      (·.extend [⟨source.numResolutionLevels,.empty,.empty,source.roiShift⟩])
    let s ← Run.state
    let last := s.tile.componentInfos.items.length-1
    inheritElements A (precinctPlace last) source.precinctExponents
    inheritElements A (stepPlace last) source.stepSizes
    inheritComponents sources

def inheritTileMetadata (header : Header) : Marker Unit := do
  reserveRetained A (componentPlace z) header.componentInfos.length
  inheritComponents A z header.componentInfos
  inheritElements A (changesPlace z) header.progressionChanges

/-- `minimum_inherited_tile_bytes` of the lengths that all tiles inherit. -/
def minimumInheritedTileBytes (header : Header) : Except MetadataError ℕ :=
  let nested := z.componentInfo*header.componentInfos.length+
    (header.componentInfos.map fun c => precinctExponentBytes*c.precinctExponents.length+
      stepSizeBytes*c.stepSizes.length).sum+
    z.progressionChange*header.progressionChanges.length
  let total := z.tile*header.main.numTiles+nested*header.main.numTiles
  if total ≤ usizeMax then .ok total else .error .imageTooLarge

/-- `for_image` -/
def TileMetadataBudget.forImage (header : Header) (retainedImageBytes : ℕ) :
    Except MetadataError TileMetadataBudget := do
  let plannedTileBytes ← minimumInheritedTileBytes z header
  let plannedLiveBytes ← checkedAddMetadataBytes retainedImageBytes plannedTileBytes
  validateMetadataByteCap plannedLiveBytes defaultMaxDecodeBytes
  TileMetadataBudget.withCap retainedImageBytes defaultMaxDecodeBytes

end

/-! ## Markers of a tile-part -/

/-- The temporary vectors of the marker loop. -/
structure Locals where
  packetLengthMarkers : RustVec (Sequenced (RustVec ℕ))
  packetLengthsPresent : Bool
  pptHeaders : RustVec (Sequenced (List ℕ))

section
variable (A : Allocator) (z : ElementSizes)

/-- Replaces a vector in each of the `count` components from `first` on: by copies, and by the
source itself in the last. -/
def replaceEach {α : Type} (place : ℕ → TilePlace α) (size : ℕ)
    (update : ℕ → TileOwner → TileOwner) (source : RustVec α) : (first count : ℕ) → Marker Unit
  | _,0 => pure ()
  | first,count+1 => do
    let replacement ← if count = 0 then pure source else tryCopyTemporary A size source.items
    replaceOwner (place first) replacement
    Run.update (·.setTile (update first))
    replaceEach place size update source (first+1) count

def setLevels (numResolutionLevels i : ℕ) : TileOwner → TileOwner :=
  TileOwner.setComponent i fun c => { c with numResolutionLevels }

/-- COD and QCD: a vector for every component. -/
def replaceAll {α : Type} (place : ℕ → TilePlace α) (size : ℕ)
    (update : ℕ → TileOwner → TileOwner) (items : List α) : Marker Unit := do
  let source ← parsedVec A size items
  trackTemporaryVec size source
  let s ← Run.state
  let componentCount := s.tile.componentInfos.items.length
  if componentCount = 0 then Run.fail .invalidComponentMetadata
  else replaceEach A place size update source 0 componentCount

/-- COC and QCC: a vector for one component. -/
def replaceOne {α : Type} (place : ℕ → TilePlace α) (size : ℕ)
    (update : ℕ → TileOwner → TileOwner) (componentIndex : ℕ) (items : List α) : Marker Unit := do
  let source ← parsedVec A size items
  trackTemporaryVec size source
  let s ← Run.state
  if componentIndex < s.tile.componentInfos.items.length then do
    replaceOwner (place componentIndex) source
    Run.update (·.setTile (update componentIndex))
  else Run.fail .invalidComponentMetadata

/-- A marker segment after its marker. -/
def tilePartMarker (header : MainHeader) (numComponents code : ℕ) (l : Locals) :
    Marker Locals :=
  if code = markers.COD then do
    let cod ← read codMarker
    let parameters := cod.componentParameters.parameters.geometry
    replaceAll A precinctPlace precinctExponentBytes (setLevels parameters.numResolutionLevels)
      parameters.precinctExponents
    pure l
  else if code = markers.COC then do
    let (componentIndex,coc) ← read (cocMarker numComponents)
    let parameters := coc.parameters.geometry
    replaceOne A precinctPlace precinctExponentBytes (setLevels parameters.numResolutionLevels)
      componentIndex parameters.precinctExponents
    pure l
  else if code = markers.QCD then do
    let qcd ← read qcdMarker
    replaceAll A stepPlace stepSizeBytes (fun _ t => t) qcd.stepSizes
    pure l
  else if code = markers.QCC then do
    let (componentIndex,qcc) ← read (qccMarker numComponents)
    replaceOne A stepPlace stepSizeBytes (fun _ t => t) componentIndex qcc.stepSizes
    pure l
  else if code = markers.POC then do
    let s ← Run.state
    let changes ← read (pocMarker numComponents (s.budget.remainingBytes/2))
    let source ← parsedVec A z.progressionChange changes
    trackTemporaryVec z.progressionChange source
    appendTemporary A (changesPlace z) source
    pure l
  else if code = markers.RGN then do
    let (componentIndex,style,shift) ← read (rgnMarker numComponents)
    if style ≠ 0 then Run.fail (.parse (.unsupportedFeature "explicit ROI coding"))
    else do
      let s ← Run.state
      if componentIndex < s.tile.componentInfos.items.length then do
        Run.update (·.setTile (TileOwner.setComponent componentIndex fun c =>
          { c with roiShift := shift }))
        pure l
      else Run.fail .invalidComponentMetadata
  else if code = PacketMarkers.markers.PPT then
    if header.ppmPackets ≠ [] then Run.fail (.parse (.segment .ppmPptConflict))
    else do
      let pptHeaders ← reserveTemporary A z.pptMarker l.pptHeaders (l.pptHeaders.items.length+1)
      let ppt ← read (segment pptMarker)
      pure { l with pptHeaders := pptHeaders.extend [ppt] }
  else if code = PacketMarkers.markers.PLT then do
    let packetLengthMarkers ← reserveTemporary A z.packetLengthMarker l.packetLengthMarkers
      (l.packetLengthMarkers.items.length+1)
    let s ← Run.state
    let plt ← read (segment (pltMarker s.budget.remainingBytes))
    let packetLengths ← parsedVec A packetLengthBytes plt.payload
    trackTemporaryVec packetLengthBytes packetLengths
    pure { l with
      packetLengthMarkers := packetLengthMarkers.extend [⟨plt.sequenceIdx,packetLengths⟩]
      packetLengthsPresent := true }
  else if code = PacketMarkers.markers.COM then do
    let _ ← read (orFail markerSegmentPayload (.parseFailure "COM"))
    pure l
  else if isReserved code then pure l
  else Run.fail (.parse (.segment .unsupportedMarker))

/-- The marker loop. A turn reads two bytes or more, so the length of the data is fuel enough. -/
def markerLoop (header : MainHeader) (numComponents : ℕ) :
    ℕ → Locals → Marker (Locals × HeaderEnd)
  | 0,_ => Run.fail (.parse (.segment .invalidMarker))
  | fuel+1,l => do
    let s ← Run.state
    match readMarker s.reader with
    | none => pure (l,.noMarker)
    | some (code,rest) =>
      if code = PacketMarkers.markers.SOD then do
        Run.update fun s => { s with reader := rest }
        pure (l,.sod)
      else if code = PacketMarkers.markers.EOC then pure (l,.eoc)
      else do
        Run.update fun s => { s with reader := rest }
        let l ← tilePartMarker A z header numComponents code l
        markerLoop header numComponents fuel l

/-! ## The end of a tile-part -/

/-- The packet lengths that the tile-part keeps: its own, or those of the main header where one
tile-part holds the only tile. -/
def packetLengthOwner (header : MainHeader) (sot : TilePartHeader) (l : Locals) :
    Marker (RustVec ℕ) :=
  if l.packetLengthsPresent = false ∧ header.plmPacketLengths ≠ [] ∧ header.numTiles = 1 ∧
      sot.tilePartIndex = 0 ∧ sot.numTileParts = 1 then
    tryCopyTemporary A packetLengthBytes header.plmPacketLengths
  else do
    let lengths := (sortSegments l.packetLengthMarkers.items).flatMap (·.payload.items)
    let packetLengths ← reserveTemporary A packetLengthBytes .empty
      (l.packetLengthMarkers.items.map (·.payload.items.length)).sum
    pure (packetLengths.extend lengths)

def retainTilePartMetadata : TilePartOwner → Marker Unit
  | .merged _ packetLengths => retainTemporaryVec packetLengthBytes packetLengths
  | .separated headers _ packetLengths => do
    retainTemporaryVec z.bitReader headers
    retainTemporaryVec packetLengthBytes packetLengths

/-- The packet data behind the markers. -/
def takeTilePart (header : MainHeader) (sot : TilePartHeader) (remainingBytes : ℕ) (l : Locals) :
    Marker Unit := do
  let s ← Run.state
  let lengthsCapacity := (l.packetLengthMarkers.items.map (·.payload.capacity)).sum
  let ppmHeaderCount ← Run.except
    ((ppmHeaderCount header.ppmPackets s.ppmPacketIdx).mapError (.parse ∘ .segment))
  let headers ← reserveTemporary A z.bitReader .empty (l.pptHeaders.items.length+ppmHeaderCount)
  let headers := headers.extend ((sortSegments l.pptHeaders.items).map (·.payload))
  let packetLengths ← packetLengthOwner A header sot l
  if header.ppmPackets.length < s.ppmPacketIdx+ppmHeaderCount then
    Run.fail (.parse .invalidTile)
  else do
    let headers := headers.extend
      (((header.ppmPackets.drop s.ppmPacketIdx).take ppmHeaderCount).map PpmPacket.data)
    Run.update fun t => { t with ppmPacketIdx := s.ppmPacketIdx+ppmHeaderCount }
    releaseTemporaryCapacity z.packetLengthMarker l.packetLengthMarkers.capacity
    releaseTemporaryCapacity packetLengthBytes lengthsCapacity
    releaseTemporaryCapacity z.pptMarker l.pptHeaders.capacity
    let data ← read (orFail (readBytes remainingBytes) .invalidTile)
    let tilePart := if headers.items.isEmpty then TilePartOwner.merged data packetLengths
      else .separated headers data packetLengths
    let t ← Run.state
    reserveRetained A (partsPlace z) (t.tile.tileParts.items.length+1)
    retainTilePartMetadata z tilePart
    setPlace (partsPlace z) (·.extend [tilePart])

/-- The tile-part behind its SOT segment of `length` bytes and its markers. -/
def tilePartBody (header : MainHeader) (sot : TilePartHeader) (dataLen : ℕ) : Marker Unit := do
  let start ← Run.state
  let numComponents := start.tile.componentInfos.items.length
  if 2 ^ 16 ≤ numComponents then Run.fail .tooManyChannels
  else do
    let (l,headerEnd) ← markerLoop A z header numComponents (start.reader.length+1)
      ⟨.empty,false,.empty⟩
    let s ← Run.state
    let consumed := start.reader.length-s.reader.length
    if headerEnd = .noMarker then
      if header.strict then Run.fail (.parse (.segment .invalidMarker)) else pure ()
    else if s.tile.componentInfos.items.any
        (·.numResolutionLevels ≤ header.skippedResolutionLevels) then
      Run.fail (.parse (.unsupportedFeature
        "tile coding style has fewer levels than the requested reduction"))
    else if dataLen < consumed then
      if header.strict then Run.fail (.parse .invalidTile) else pure ()
    else takeTilePart A z header sot (dataLen-consumed) l

end

/-! ## All tiles -/

structure Memory where
  reader : List ℕ
  budget : TileMetadataBudget
  tiles : RustVec TileOwner
  ppmPacketIdx : ℕ
  allocations : ℕ

abbrev Tiles (α : Type) := Run Memory MetadataError α

/-- A transaction on a tile. When it ends, its temporary vectors are taken off the budget. -/
def onTile (idx : ℕ) (x : Marker Unit) : Tiles Unit := fun m =>
  match m.tiles.items[idx]? with
  | none => (.error (.parse .invalidIndex),m)
  | some tile =>
    let (result,s) := x ⟨m.reader,m.budget,0,tile,m.ppmPacketIdx,m.allocations⟩
    (result,⟨s.reader,s.budget.dropTransaction s.temporaryBytes,
      { m.tiles with items := m.tiles.items.set idx s.tile },s.ppmPacketIdx,s.allocations⟩)

section
variable (A : Allocator) (z : ElementSizes)

def reserveTiles (target : ℕ) : Tiles Unit := fun m =>
  let (result,budget,tiles) :=
    m.budget.tryReserveRetained A m.allocations z.tile m.tiles target
  (result,{ m with budget, tiles, allocations := m.allocations+1 })

def inheritTiles (header : Header) : ℕ → Tiles Unit
  | 0 => pure ()
  | count+1 => do
    Run.update fun m => { m with tiles := m.tiles.extend [TileOwner.new] }
    let m ← Run.state
    onTile (m.tiles.items.length-1) (inheritTileMetadata A z header)
    inheritTiles header count

/-- The SOT segment and the number of bytes behind it. -/
def readSot (numTiles : ℕ) (data : List ℕ) :
    Except TileParseError ((TilePartHeader × ℕ) × List ℕ) :=
  match readMarker data with
  | none => .error (.segment .invalidMarker)
  | some (code,data) =>
    if code ≠ PacketMarkers.markers.SOT then .error (.expected "SOT")
    else match sotMarker data with
      | none => .error (.parseFailure "SOT")
      | some (sot,data) =>
        if numTiles ≤ sot.tileIndex then .error .invalidIndex
        else (dataLen sot data).map fun len => ((sot,len),data)

/-- `parse_tile_part` -/
def parseTilePart (header : MainHeader) : Tiles Unit := fun m =>
  match readSot header.numTiles m.reader with
  | .error e => (.error (.parse e),m)
  | .ok ((sot,dataLen),rest) =>
    onTile sot.tileIndex (tilePartBody A z header sot dataLen) { m with reader := rest }

/-- Tile-parts as long as one starts; each takes twelve bytes or more. -/
def parseTileParts (header : MainHeader) : ℕ → Tiles Unit
  | 0 => Run.fail (.parse .invalidTile)
  | fuel+1 => do
    parseTilePart A z header
    let m ← Run.state
    if atSot m.reader then parseTileParts header fuel else pure ()

/-- `parse` up to the last check of the budget. -/
def parseTiles (header : Header) : Tiles Unit := do
  reserveTiles A z header.main.numTiles
  inheritTiles A z header header.main.numTiles
  let m ← Run.state
  parseTileParts A z header.main (m.reader.length+1)
  let m ← Run.state
  if header.main.strict ∧ m.ppmPacketIdx ≠ header.main.ppmPackets.length then
    Run.fail (.parse .invalidTile)
  else if header.main.strict then
    match readMarker m.reader with
    | none => Run.fail (.parse (.segment .invalidMarker))
    | some (code,_) =>
      if code = PacketMarkers.markers.EOC then pure () else Run.fail (.parse (.expected "EOC"))
  else pure ()

/-- `parse` -/
def parse (header : Header) : Tiles Unit := do
  parseTiles A z header
  let m ← Run.state
  Run.except (m.budget.validateOwnerGraph z m.tiles)

end

end J2kNative.TileMetadata
