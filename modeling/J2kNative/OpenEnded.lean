import Mathlib.Logic.Relation
import J2kNative.TilePartLocality

/-!
# A last tile-part without a length

A Psot of 0 says that the tile-part goes on to the end of the codestream. The code takes all
the bytes that are left as its data, the end of codestream marker among them, so that its
check for this marker finds nothing.
-/
namespace J2kNative.OpenEnded
open Fallible PacketMarkers MarkerSegments ParameterPrecedence TilePartParsing

/-- A tile-part is read and another one follows. -/
def Step (header : MainHeader) (before after : ParseState × List ℕ) : Prop :=
  parseTilePart header before.1 before.2 = .ok after ∧ atSot after.2 = true

/-- The loop over the tile-parts comes from one place to another. -/
abbrev Reaches (header : MainHeader) := Relation.ReflTransGen (Step header)

section
variable {header : MainHeader} {a b : ParseState × List ℕ}

theorem reaches_stable (h : Reaches header a b) :
    ∃ used, a.2 = used++b.2 ∧ ∀ rest, atSot rest = true →
      atSot (used++rest) = true ∧ Reaches header (a.1,used++rest) (b.1,rest) := by
  induction h using Relation.ReflTransGen.head_induction_on with
  | refl => exact ⟨[],rfl,fun _ hrest => ⟨hrest,.refl⟩⟩
  | head hstep _ ih =>
      obtain ⟨used,hdata,hused⟩ := parseTilePart_stable hstep.1 hstep.2
      obtain ⟨used',hdata',hused'⟩ := ih
      refine ⟨0xFF :: 0x90 :: (used++used'),by rw [hdata,hdata']; simp,fun rest hrest => ⟨rfl,?_⟩⟩
      have hnext := hused' rest hrest
      have hfirst := hused _ hnext.1
      rw [← List.append_assoc] at hfirst
      exact .head ⟨hfirst,hnext.1⟩ hnext.2

/-- The loop goes on from a place that it reaches, with fuel enough. -/
theorem parseTileParts_of_reaches (h : Reaches header a b) :
    ∀ fuel, a.2.length < fuel → ∃ fuel', b.2.length < fuel' ∧
      parseTileParts header fuel a.1 a.2 = parseTileParts header fuel' b.1 b.2 := by
  induction h using Relation.ReflTransGen.head_induction_on with
  | refl => exact fun fuel hfuel => ⟨fuel,hfuel,rfl⟩
  | @head a c hstep _ ih =>
      intro fuel hfuel
      obtain ⟨fuel,rfl⟩ := Nat.exists_eq_succ_of_ne_zero (Nat.ne_of_gt (Nat.zero_lt_of_lt hfuel))
      obtain ⟨used,hdata,_⟩ := parseTilePart_stable hstep.1 hstep.2
      have hshorter : c.2.length < fuel := by
        rw [hdata,List.length_cons,List.length_cons,List.length_append] at hfuel
        omega
      obtain ⟨fuel',hfuel',hrun⟩ := ih fuel hshorter
      refine ⟨fuel',hfuel',?_⟩
      rw [← hrun,parseTileParts,hstep.1,ok_bind]
      dsimp only
      rw [if_pos hstep.2]

end

/-! ## The last tile-part -/

theorem wordOfBytes (n : ℕ) : n/2^24*2^24+n/2^16%2^8*2^16+n/2^8%2^8*2^8+n%2^8 = n := by
  simp only [Nat.reducePow]
  omega

/-- What a last tile-part has besides its length, and whether EOC comes behind it. Its length
fits in the 32 bits of Psot. -/
structure LastTilePart where
  tileIndex : ℕ
  tilePartIndex : ℕ
  numTileParts : ℕ
  body : List ℕ
  ended : Bool
  fits : 12+body.length < 2^32

/-- Each component has more levels than are skipped. -/
def EnoughLevels (header : MainHeader) (scan : HeaderScan) : Prop :=
  (scan.tile.style.componentInfos.any fun info => decide
    (info.codingStyle.parameters.geometry.numResolutionLevels ≤ header.skippedResolutionLevels))
      = false

namespace LastTilePart

def tail (l : LastTilePart) : List ℕ := if l.ended then [0xFF,0xD9] else []

/-- The SOT segment with some Psot, after its marker. -/
def sotSegment (l : LastTilePart) (psot : ℕ) : List ℕ :=
  [0,10,l.tileIndex/2^8,l.tileIndex%2^8,psot/2^24,psot/2^16%2^8,psot/2^8%2^8,psot%2^8,
    l.tilePartIndex,l.numTileParts]

def bytes (l : LastTilePart) (psot : ℕ) : List ℕ :=
  0xFF :: 0x90 :: (l.sotSegment psot++(l.body++l.tail))

def length (l : LastTilePart) : ℕ := 12+l.body.length

def sot (l : LastTilePart) (psot : ℕ) : TilePartHeader :=
  ⟨l.tileIndex,psot,l.tilePartIndex,l.numTileParts⟩

variable (l : LastTilePart) (header : MainHeader) (s : ParseState)

/-- The header as the marker loop reads it. -/
def scanned : Except TileParseError ((HeaderScan × HeaderEnd) × List ℕ) :=
  if header.numTiles ≤ l.tileIndex then .error .invalidIndex
  else match s.tiles[l.tileIndex]? with
    | none => .error .invalidIndex
    | some tile => headerLoop header ((l.body++l.tail).length+1) ⟨tile,[],[]⟩ (l.body++l.tail)

def consumed (rest : List ℕ) : ℕ := (l.body++l.tail).length-rest.length

theorem atSot_bytes (psot : ℕ) : atSot (l.bytes psot) = true := rfl

theorem sotMarker_sotSegment (psot : ℕ) (data : List ℕ) :
    sotMarker (l.sotSegment psot++data) = some (l.sot psot,data) := by
  have htile : l.tileIndex/2^8*2^8+l.tileIndex%2^8 = l.tileIndex := Nat.div_add_mod' ..
  rw [sotSegment]
  simp only [List.cons_append,List.nil_append,sotMarker]
  rw [htile,wordOfBytes]
  rfl

/-- The tile-part with some Psot, from which the data length comes. -/
theorem parseTilePart_bytes {psot len : ℕ} (h : dataLen (l.sot psot) (l.body++l.tail) = .ok len) :
    parseTilePart header s (l.bytes psot) = (do
      let ((scan,headerEnd),rest) ← l.scanned header s
      finishTilePart header s (l.sot psot) len (l.consumed rest) scan headerEnd rest) := by
  rw [bytes,parseTilePart_of_sot (l.sotMarker_sotSegment psot _)]
  unfold tilePartBody scanned
  by_cases hindex : header.numTiles ≤ l.tileIndex
  · have hindex' : header.numTiles ≤ (l.sot psot).tileIndex := hindex
    rw [if_pos hindex,if_pos hindex']
    rfl
  · have hindex' : ¬ header.numTiles ≤ (l.sot psot).tileIndex := hindex
    rw [if_neg hindex,if_neg hindex',h,ok_bind]
    dsimp only [sot]
    cases s.tiles[l.tileIndex]? <;> rfl

/-- The last tile-part when its data have `len` bytes. -/
def read (len : ℕ) : Except TileParseError (ParseState × List ℕ) := do
  let ((scan,headerEnd),rest) ← l.scanned header s
  finishTilePart header s (l.sot 0) len (l.consumed rest) scan headerEnd rest

theorem tail_suffix {rest : List ℕ} (h : rest <:+ l.tail) : atSot rest = false := by
  unfold tail at h
  split_ifs at h
  · rw [List.suffix_cons_iff,List.suffix_cons_iff,List.suffix_nil] at h
    rcases h with rfl | rfl | rfl <;> rfl
  · rw [List.suffix_nil.mp h]
    rfl

variable {l} {header} {s}

theorem scanned_eq_ok {r : (HeaderScan × HeaderEnd) × List ℕ} (h : l.scanned header s = .ok r) :
    l.tileIndex < s.tiles.length ∧ ∃ fuel tile,
      headerLoop header fuel ⟨tile,[],[]⟩ (l.body++l.tail) = .ok r := by
  unfold scanned at h
  split_ifs at h
  split at h
  · cases h
  next tile htile => exact ⟨(List.getElem?_eq_some_iff.mp htile).1,_,tile,h⟩

/-- A header that ends with SOD or before EOC is some first bytes. -/
theorem scanned_append {scan : HeaderScan} {headerEnd : HeaderEnd} {rest : List ℕ}
    (h : l.scanned header s = .ok ((scan,headerEnd),rest)) (hend : headerEnd ≠ .noMarker) :
    ∃ used, l.body++l.tail = used++rest ∧ l.consumed rest = used.length := by
  obtain ⟨_,fuel,tile,hloop⟩ := scanned_eq_ok h
  obtain ⟨used,hused,_⟩ := headerLoop_stable hloop hend
  refine ⟨used,hused,?_⟩
  rw [consumed,hused,List.length_append,Nat.add_sub_cancel]

/-- No tile-part comes after the last one. -/
theorem read_last {len : ℕ} {s' : ParseState} {rest : List ℕ}
    (hlen : l.body.length ≤ len) (h : l.read header s len = .ok (s',rest)) : atSot rest = false := by
  obtain ⟨⟨⟨scan,headerEnd⟩,after⟩,hscan,h⟩ := bind_eq_ok.mp h
  dsimp only at h
  by_cases hend : headerEnd = .noMarker
  · obtain ⟨_,fuel,tile,hloop⟩ := scanned_eq_ok hscan
    subst hend
    have hmarker := headerLoop_noMarker hloop
    unfold finishTilePart at h
    rw [if_pos rfl] at h
    split_ifs at h
    cases h
    rw [atSot,hmarker]
  · obtain ⟨used,hused,hconsumed⟩ := scanned_append hscan hend
    have hlengths := congrArg List.length hused
    rw [List.length_append,List.length_append] at hlengths
    have hsuffix : rest <:+ after ∧ rest.length ≤ l.tail.length := by
      unfold finishTilePart at h
      rw [if_neg hend,hconsumed] at h
      split_ifs at h with _ hshort
      · cases h
        exact ⟨List.suffix_refl _,by omega⟩
      · obtain ⟨data,rfl,hdata,_⟩ := takeTilePart_stable h
        rw [List.length_append] at hlengths
        exact ⟨List.suffix_append _ _,by omega⟩
    refine tail_suffix l (List.suffix_of_suffix_length_le (hsuffix.1.trans ?_)
      (List.suffix_append l.body l.tail) hsuffix.2)
    rw [hused]
    exact List.suffix_append _ _

/-- The header of the last tile-part, after which `rest` is left, is of a tile-part that is read
with its length: in strict mode it ends within the tile-part and the packed packet headers end
with this tile-part; in lenient mode it goes beyond the tile-part or finds its packed packet
headers. -/
def Complete (l : LastTilePart) (header : MainHeader) (s : ParseState) (scan : HeaderScan)
    (rest : List ℕ) : Prop :=
  if header.strict then
    l.consumed rest ≤ l.body.length ∧ ∃ headers, tilePartHeaders scan.pptHeaders header.ppmPackets
      s.ppmPacketIdx = .ok (headers,header.ppmPackets.length)
  else
    l.body.length < l.consumed rest ∨ ∃ r, tilePartHeaders scan.pptHeaders header.ppmPackets
      s.ppmPacketIdx = .ok r

/-- The tile is there, its header ends with SOD or before EOC with levels enough, and it is
complete. -/
def Readable (l : LastTilePart) (header : MainHeader) (s : ParseState) : Prop :=
  ∃ scan headerEnd rest, l.scanned header s = .ok ((scan,headerEnd),rest) ∧
    headerEnd ≠ .noMarker ∧ EnoughLevels header scan ∧ l.Complete header s scan rest

end LastTilePart

/-! ## Whole codestreams -/

section
variable {header : MainHeader} {s₀ s : ParseState} {before : List ℕ} {l : LastTilePart}

/-- A parse is decided at the last tile-part. -/
theorem parse_of_reaches {psot len : ℕ}
    (h : Reaches header (s₀,before++l.bytes psot) (s,l.bytes psot))
    (hlen : dataLen (l.sot psot) (l.body++l.tail) = .ok len) (hbody : l.body.length ≤ len) :
    parse header s₀ (before++l.bytes psot) = (do
      let (s',rest) ← l.read header s len
      finish header s' rest) := by
  obtain ⟨fuel,hfuel,hrun⟩ := parseTileParts_of_reaches h _ (Nat.lt_succ_self _)
  obtain ⟨fuel,rfl⟩ := Nat.exists_eq_succ_of_ne_zero (Nat.ne_of_gt (Nat.zero_lt_of_lt hfuel))
  have hlast : parseTilePart header s (l.bytes psot) = l.read header s len :=
    l.parseTilePart_bytes header s hlen
  have hparts : parseTileParts header (fuel+1) s (l.bytes psot) = l.read header s len := by
    rw [parseTileParts,hlast]
    cases hread : l.read header s len with
    | error e => rfl
    | ok r =>
        rw [ok_bind]
        dsimp only
        rw [if_neg (by rw [LastTilePart.read_last hbody hread]; exact Bool.false_ne_true)]
        rfl
  rw [parse,hrun]
  dsimp only
  rw [hparts]

/-- What a parse gives: the tiles with their packet data, or nothing. -/
def outcome (r : Except TileParseError ParseState) : Option (List TileState) :=
  r.toOption.map ParseState.tiles

/-- The parse from the last tile-part on. -/
def fromLast (header : MainHeader) (s : ParseState) (l : LastTilePart) (len : ℕ) :
    Except TileParseError ParseState := do
  let (s',rest) ← l.read header s len
  finish header s' rest

/-- The state with a tile-part of some packet data. -/
def withData (header : MainHeader) (s : ParseState) (l : LastTilePart) (scan : HeaderScan)
    (headers : List (List ℕ)) (data : List ℕ) (ppmPacketIdx : ℕ) : ParseState :=
  ⟨s.tiles.set l.tileIndex { scan.tile with tileParts := scan.tile.tileParts ++
    [⟨headers,data,packetLengthMetadata header (l.sot 0) scan⟩] },ppmPacketIdx⟩

theorem takeTilePart_append {scan : HeaderScan} {headers : List (List ℕ)} {idx : ℕ}
    (h : tilePartHeaders scan.pptHeaders header.ppmPackets s.ppmPacketIdx = .ok (headers,idx))
    (data rest : List ℕ) :
    takeTilePart header s (l.sot 0) scan data.length (data++rest) =
      .ok (withData header s l scan headers data idx,rest) := by
  rw [takeTilePart,h]
  dsimp only
  rw [readBytes,if_pos (by rw [List.length_append]; omega),List.take_left,List.drop_left]
  rfl

theorem takeTilePart_error {scan : HeaderScan} {e : DecodeError}
    (h : tilePartHeaders scan.pptHeaders header.ppmPackets s.ppmPacketIdx = .error e)
    (remaining : ℕ) (data : List ℕ) :
    takeTilePart header s (l.sot 0) scan remaining data = .error (.segment e) := by
  rw [takeTilePart,h]

theorem outcome_finish_nil : outcome (finish header s []) =
    if header.strict then none else some s.tiles := by
  unfold finish
  cases header.strict
  · simp [outcome,Except.toOption]
  · by_cases hidx : s.ppmPacketIdx = header.ppmPackets.length <;>
      simp [outcome,Except.toOption,hidx,readMarker]

theorem outcome_finish_eoc : outcome (finish header s [0xFF,0xD9]) =
    if header.strict ∧ s.ppmPacketIdx ≠ header.ppmPackets.length then none else some s.tiles := by
  unfold finish
  cases header.strict
  · simp [outcome,Except.toOption]
  · by_cases hidx : s.ppmPacketIdx = header.ppmPackets.length <;>
      simp [outcome,Except.toOption,hidx,readMarker]

/-- A tile with other packet data, or with another tile-part, is another one. -/
theorem tiles_withData_ne {scan : HeaderScan} {headers : List (List ℕ)} {data : List ℕ} {idx : ℕ}
    {tile : TileState} (hindex : l.tileIndex < s.tiles.length)
    (h : tile.tileParts ≠ scan.tile.tileParts ++
      [⟨headers,data,packetLengthMetadata header (l.sot 0) scan⟩]) :
    (withData header s l scan headers data idx).tiles ≠ s.tiles.set l.tileIndex tile := by
  intro heq
  have htile := congrArg (fun tiles => (tiles[l.tileIndex]?).map TileState.tileParts) heq
  simp only [withData,List.getElem?_set_self hindex,Option.map_some,Option.some.injEq] at htile
  exact h htile.symm

/-- A readable header, with levels enough, is followed by the packet data, if it is not too
long. -/
theorem read_of_scanned {scan : HeaderScan} {headerEnd : HeaderEnd} {rest : List ℕ}
    (hscan : l.scanned header s = .ok ((scan,headerEnd),rest)) (hend : headerEnd ≠ .noMarker)
    (hlevels : EnoughLevels header scan) (len : ℕ) :
    l.read header s len =
      if len < l.consumed rest then
        if header.strict then .error .invalidTile
        else .ok (s.setTile l.tileIndex scan.tile,rest)
      else takeTilePart header s (l.sot 0) scan (len-l.consumed rest) rest := by
  rw [LastTilePart.read,hscan,ok_bind]
  dsimp only
  rw [finishTilePart,if_neg hend,if_neg (Bool.eq_false_iff.mp hlevels)]
  rfl

/-- Without a length, all bytes that are left are packet data. -/
theorem fromLast_open {scan : HeaderScan} {headerEnd : HeaderEnd} {rest : List ℕ}
    (hscan : l.scanned header s = .ok ((scan,headerEnd),rest)) (hend : headerEnd ≠ .noMarker)
    (hlevels : EnoughLevels header scan) :
    outcome (fromLast header s l (l.body++l.tail).length) =
      match tilePartHeaders scan.pptHeaders header.ppmPackets s.ppmPacketIdx with
      | .error _ => none
      | .ok (headers,idx) => if header.strict then none
        else some (withData header s l scan headers rest idx).tiles := by
  obtain ⟨used,hused,hconsumed⟩ := LastTilePart.scanned_append hscan hend
  have hlength : (l.body++l.tail).length-l.consumed rest = rest.length := by
    rw [hconsumed,hused,List.length_append,Nat.add_sub_cancel_left]
  have hlong : ¬(l.body++l.tail).length < l.consumed rest := by
    rw [hconsumed,hused,List.length_append]
    omega
  rw [fromLast,read_of_scanned hscan hend hlevels,if_neg hlong,hlength]
  cases hheaders : tilePartHeaders scan.pptHeaders header.ppmPackets s.ppmPacketIdx with
  | error e =>
      rw [takeTilePart_error hheaders]
      rfl
  | ok r =>
      obtain ⟨headers,idx⟩ := r
      have htake := takeTilePart_append hheaders rest [] (l := l)
      rw [List.append_nil] at htake
      rw [htake,ok_bind]
      exact outcome_finish_nil

/-- With a length that the header goes beyond, there are no packet data. -/
theorem fromLast_long {scan : HeaderScan} {headerEnd : HeaderEnd} {rest : List ℕ}
    (hscan : l.scanned header s = .ok ((scan,headerEnd),rest)) (hend : headerEnd ≠ .noMarker)
    (hlevels : EnoughLevels header scan) (hlong : l.body.length < l.consumed rest) :
    outcome (fromLast header s l l.body.length) =
      if header.strict then none else some (s.setTile l.tileIndex scan.tile).tiles := by
  rw [fromLast,read_of_scanned hscan hend hlevels,if_pos hlong]
  cases hstrict : header.strict with
  | true => rfl
  | false =>
      rw [if_neg Bool.false_ne_true,ok_bind]
      dsimp only
      rw [finish,hstrict,if_neg (by simp),if_neg Bool.false_ne_true]
      rfl

/-- With its length, a tile-part that its header is within leaves EOC to the last check. -/
theorem fromLast_within {scan : HeaderScan} {headerEnd : HeaderEnd} {rest : List ℕ}
    (htail : l.tail = [0xFF,0xD9])
    (hscan : l.scanned header s = .ok ((scan,headerEnd),rest)) (hend : headerEnd ≠ .noMarker)
    (hlevels : EnoughLevels header scan) (hwithin : l.consumed rest ≤ l.body.length) :
    ∃ data, rest = data++l.tail ∧ outcome (fromLast header s l l.body.length) =
      match tilePartHeaders scan.pptHeaders header.ppmPackets s.ppmPacketIdx with
      | .error _ => none
      | .ok (headers,idx) => if header.strict ∧ idx ≠ header.ppmPackets.length then none
        else some (withData header s l scan headers data idx).tiles := by
  obtain ⟨used,hused,hconsumed⟩ := LastTilePart.scanned_append hscan hend
  obtain ⟨data,hdata⟩ : used <+: l.body :=
    List.prefix_of_prefix_length_le ⟨rest,hused.symm⟩ (List.prefix_append _ _) (by omega)
  rw [← hdata,List.append_assoc] at hused
  have hrest : rest = data++l.tail := (List.append_cancel_left hused).symm
  have hlength : l.body.length-l.consumed rest = data.length := by
    rw [hconsumed,← hdata,List.length_append,Nat.add_sub_cancel_left]
  refine ⟨data,hrest,?_⟩
  rw [fromLast,read_of_scanned hscan hend hlevels,if_neg (Nat.not_lt.mpr hwithin),hlength,hrest]
  cases hheaders : tilePartHeaders scan.pptHeaders header.ppmPackets s.ppmPacketIdx with
  | error e =>
      rw [takeTilePart_error hheaders]
      rfl
  | ok r =>
      obtain ⟨headers,idx⟩ := r
      rw [takeTilePart_append hheaders data l.tail,ok_bind]
      dsimp only
      rw [htail]
      exact outcome_finish_eoc

/-- Behind a readable header the two lengths give the same just when the tile-part is not
complete. -/
theorem behindHeader_iff {scan : HeaderScan} {headerEnd : HeaderEnd} {rest : List ℕ}
    (htail : l.tail = [0xFF,0xD9])
    (hscan : l.scanned header s = .ok ((scan,headerEnd),rest)) (hend : headerEnd ≠ .noMarker)
    (hlevels : EnoughLevels header scan) :
    outcome (fromLast header s l (l.body++l.tail).length) =
      outcome (fromLast header s l l.body.length) ↔ ¬l.Complete header s scan rest := by
  have hindex := (LastTilePart.scanned_eq_ok hscan).1
  rw [fromLast_open hscan hend hlevels,LastTilePart.Complete]
  rcases Nat.lt_or_ge l.body.length (l.consumed rest) with hlong | hwithin
  · rw [fromLast_long hscan hend hlevels hlong]
    cases header.strict with
    | true =>
        refine iff_of_true ?_ fun h => absurd h.1 (Nat.not_le.mpr hlong)
        cases tilePartHeaders scan.pptHeaders header.ppmPackets s.ppmPacketIdx <;> rfl
    | false =>
        refine iff_of_false (fun h => ?_) fun h => h (.inl hlong)
        cases hheaders : tilePartHeaders scan.pptHeaders header.ppmPackets s.ppmPacketIdx with
        | error e =>
            rw [hheaders] at h
            cases h
        | ok r =>
            rw [hheaders] at h
            refine tiles_withData_ne hindex (fun heq => ?_) (Option.some.inj h)
            have hlength := congrArg List.length heq
            rw [List.length_append] at hlength
            simp at hlength
  · obtain ⟨data,hrest,hclosed⟩ := fromLast_within htail hscan hend hlevels hwithin
    rw [hclosed]
    cases hheaders : tilePartHeaders scan.pptHeaders header.ppmPackets s.ppmPacketIdx with
    | error e =>
        refine iff_of_true rfl fun h => ?_
        split_ifs at h
        · obtain ⟨_,_,h⟩ := h
          cases h
        · rcases h with h | ⟨_,h⟩
          · exact absurd hwithin (Nat.not_le.mpr h)
          · cases h
    | ok r =>
      obtain ⟨headers,idx⟩ := r
      dsimp only
      cases header.strict with
      | true =>
          by_cases hidx : idx = header.ppmPackets.length
          · subst hidx
            simp [hwithin]
          · simp [hidx]
      | false =>
          refine iff_of_false (fun h => ?_) fun h => h (.inr ⟨_,rfl⟩)
          refine tiles_withData_ne hindex (fun heq => ?_) (Option.some.inj h)
          have hparts := congrArg TilePart.data (List.singleton_inj.mp (List.append_cancel_left heq))
          dsimp only at hparts
          rw [hrest,htail] at hparts
          have hlength := congrArg List.length hparts
          simp at hlength

/-- With EOC behind it, the last tile-part without a length is read otherwise than the one with
its length just when the latter is readable. -/
theorem fromLast_iff (hended : l.ended = true) :
    outcome (fromLast header s l (l.body++l.tail).length) =
      outcome (fromLast header s l l.body.length) ↔ ¬l.Readable header s := by
  have htail : l.tail = [0xFF,0xD9] := by rw [LastTilePart.tail,if_pos hended]
  cases hscan : l.scanned header s with
  | error e =>
      have hread (len : ℕ) : fromLast header s l len = .error e := by
        rw [fromLast,LastTilePart.read,hscan]
        rfl
      rw [hread,hread]
      refine iff_of_true rfl ?_
      rintro ⟨_,_,_,h,-⟩
      rw [hscan] at h
      cases h
  | ok r =>
    obtain ⟨⟨scan,headerEnd⟩,rest⟩ := r
    have hread (len : ℕ) : l.read header s len = finishTilePart header s (l.sot 0) len
        (l.consumed rest) scan headerEnd rest := by
      rw [LastTilePart.read,hscan]
      rfl
    by_cases hend : headerEnd = .noMarker
    · have hsame (len : ℕ) : fromLast header s l len = fromLast header s l 0 := by
        rw [fromLast,fromLast,hread,hread,finishTilePart,finishTilePart,if_pos hend,if_pos hend]
      rw [hsame,hsame l.body.length]
      refine iff_of_true rfl ?_
      rintro ⟨_,_,_,h,hne,-⟩
      rw [hscan] at h
      cases h
      exact hne hend
    · cases hlevels : scan.tile.style.componentInfos.any fun info => decide
          (info.codingStyle.parameters.geometry.numResolutionLevels ≤
            header.skippedResolutionLevels) with
      | true =>
          have hsame (len : ℕ) : fromLast header s l len = fromLast header s l 0 := by
            rw [fromLast,fromLast,hread,hread,finishTilePart,finishTilePart,if_neg hend,
              if_neg hend,if_pos hlevels,if_pos hlevels]
          rw [hsame,hsame l.body.length]
          refine iff_of_true rfl ?_
          rintro ⟨_,_,_,h,-,hfalse,-⟩
          rw [hscan] at h
          cases h
          exact Bool.eq_false_iff.mp hfalse hlevels
      | false =>
          have hreadable : l.Readable header s ↔ l.Complete header s scan rest := by
            constructor
            · rintro ⟨_,_,_,h,_,_,hcomplete⟩
              rw [hscan] at h
              cases h
              exact hcomplete
            · exact fun hcomplete => ⟨scan,headerEnd,rest,hscan,hend,hlevels,hcomplete⟩
          rw [hreadable]
          exact behindHeader_iff htail hscan hend hlevels

/-- The last tile-part without a length and with it give the same just when no EOC comes behind
it or it is not readable. -/
theorem open_ended_iff (header : MainHeader) (s₀ s : ParseState) (before : List ℕ)
    (l : LastTilePart) (h : Reaches header (s₀,before++l.bytes 0) (s,l.bytes 0)) :
    outcome (parse header s₀ (before++l.bytes 0)) =
      outcome (parse header s₀ (before++l.bytes l.length)) ↔
    l.ended = false ∨ ¬l.Readable header s := by
  obtain ⟨used,hused,hreaches⟩ := reaches_stable h
  obtain rfl : before = used := List.append_cancel_right hused
  have hclosed := (hreaches _ (l.atSot_bytes l.length)).2
  have hlength : dataLen (l.sot l.length) (l.body++l.tail) = .ok l.body.length := by
    have hsot : (l.sot l.length).tilePartLength = 12+l.body.length := rfl
    rw [dataLen,if_neg (by omega),if_neg (by omega),hsot,Nat.add_sub_cancel_left]
  rw [parse_of_reaches h (rfl) (by rw [List.length_append]; omega),
    parse_of_reaches hclosed hlength le_rfl]
  cases hended : l.ended with
  | true => exact (fromLast_iff hended).trans (by simp)
  | false =>
      have htail : l.tail = [] := by rw [LastTilePart.tail,hended,if_neg Bool.false_ne_true]
      rw [htail,List.append_nil]
      exact iff_of_true rfl (.inl rfl)

end

/-- One tile with one component. -/
def plainHeader (strict : Bool) : MainHeader := ⟨strict,1,1,0,[],[],0⟩

def plainTile (tileParts : List TilePart) : TileState :=
  ⟨⟨.layerResolutionComponentPosition,1,false,[⟨plainStyle 0,plainQuantization⟩]⟩,[],[0],tileParts⟩

/-- SOD and a byte of packet data, in the second of two tile-parts, before EOC. -/
def plainLast : LastTilePart := ⟨0,1,2,[0xFF,0x93,7],true,by decide⟩

/-- The first tile-part, of fifteen bytes. -/
def plainFirst : List ℕ := [0xFF,0x90,0,10,0,0,0,0,0,15,0,2,0xFF,0x93,5]

def plainStart : ParseState := ⟨[plainTile []],0⟩

/-- In strict mode the codestream is rejected without the last length; in lenient mode EOC is
among the packet data. -/
theorem eoc_taken_as_data :
    outcome (parse (plainHeader true) plainStart (plainFirst++plainLast.bytes 0)) = none ∧
    outcome (parse (plainHeader true) plainStart (plainFirst++plainLast.bytes 15)) =
      some [plainTile [⟨[],[5],none⟩,⟨[],[7],none⟩]] ∧
    outcome (parse (plainHeader false) plainStart (plainFirst++plainLast.bytes 0)) =
      some [plainTile [⟨[],[5],none⟩,⟨[],[7,0xFF,0xD9],none⟩]] ∧
    outcome (parse (plainHeader false) plainStart (plainFirst++plainLast.bytes 15)) =
      some [plainTile [⟨[],[5],none⟩,⟨[],[7],none⟩]] := by
  refine ⟨?_,?_,?_,?_⟩ <;> rfl

/-- The two agree without EOC. -/
theorem open_ended_without_eoc :
    let l : LastTilePart := { plainLast with ended := false }
    outcome (parse (plainHeader false) plainStart (plainFirst++l.bytes 0)) =
      outcome (parse (plainHeader false) plainStart (plainFirst++l.bytes l.length)) := by
  intro l
  have hreaches : Reaches (plainHeader false) (plainStart,plainFirst++l.bytes 0)
      (⟨[plainTile [⟨[],[5],none⟩]],0⟩,l.bytes 0) := .single ⟨rfl,rfl⟩
  exact (open_ended_iff (plainHeader false) plainStart _ plainFirst l hreaches).mpr (.inl rfl)

end J2kNative.OpenEnded
