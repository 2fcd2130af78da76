import J2kNative.JpegSegments

/-!
# Scanners over entropy data

Five scanners pass over the bytes of a scan: the refill of the bit reader, the search
for the marker after the entropy data, the validation of checkpoints, the event cursor
of fast packets and the search for a restart marker. The reader and the two searches
agree on every string, the others on strings without fill bytes, up to what they
support. Offsets that do not fit their types and limits on allocated bytes are left out.
-/
namespace J2kNative.EntropyScanners

open BitReader JpegSegmentIter

def isRst (code : ℕ) : Prop := 0xD0 ≤ code ∧ code ≤ 0xD7

instance (code : ℕ) : Decidable (isRst code) := inferInstanceAs (Decidable (_ ∧ _))

/-! ## The scanners -/

/-- What the refills of a reader find that drops its data bytes and goes on after restart
markers: those with the positions after them, and the first other marker. -/
def scanReader : ℕ → BitReader → List (ℕ × ℕ) × Option (ℕ × ℕ)
  | 0,_ => ([],none)
  | turns+1,r =>
    let refilled := r.resetAtRestart.refillOneByte
    if refilled.1 then scanReader turns refilled.2
    else match refilled.2.takeMarker with
      | none => ([],none)
      | some (code,s) =>
        if isRst code then ((s.pos,code)::(scanReader turns s).1,(scanReader turns s).2)
        else ([],some (s.pos-2,code))

/-- The position after EOI, if there is one. -/
def validateScanBytes (scanBytes : List ℕ) (allowRestartMarkers : Bool) (markerOffsetBase : ℕ)
    (index : ℕ) : Except JpegError (Option ℕ) :=
  if _h : index < scanBytes.length then
    if byteAt scanBytes index ≠ 0xFF then
      validateScanBytes scanBytes allowRestartMarkers markerOffsetBase (index+1)
    else if scanBytes.length ≤ index+1 then .ok none
    else
      let found := byteAt scanBytes (index+1)
      if found = 0 ∨ isRst found ∧ allowRestartMarkers then
        validateScanBytes scanBytes allowRestartMarkers markerOffsetBase (index+2)
      else if found = 0xD9 then .ok (some (index+2))
      else .error (.unexpectedMarker (markerOffsetBase+index) .eoi found)
  else .ok none
termination_by scanBytes.length-index

inductive FastPacketError where
  | decode (error : JpegError)
  | truncatedEntropy
  | entropyMarkerUnsupported (marker : ℕ)
  deriving DecidableEq, Repr

inductive EntropyEvent where
  | byte (b : ℕ)
  | restart
  | eoi
  deriving DecidableEq, Repr

structure EntropyEventCursor where
  bytes : List ℕ
  pos : ℕ
  restartMarkersEnabled : Bool
  expectedRst : ℕ
  allowMissingEoi : Bool
  finished : Bool
  deriving DecidableEq, Repr

namespace EntropyEventCursor

def new (bytes : List ℕ) (restartInterval : Option ℕ) (allowMissingEoi : Bool) :
    EntropyEventCursor :=
  ⟨bytes,0,restartInterval.getD 0 ≠ 0,0xD0,allowMissingEoi,false⟩

def nextEvent (c : EntropyEventCursor) :
    Except FastPacketError (Option EntropyEvent × EntropyEventCursor) :=
  if c.finished then .ok (none,c)
  else if c.bytes.length ≤ c.pos then
    if c.allowMissingEoi then .ok (some .eoi,{ c with finished := true })
    else .error (.decode (.missingMarker .eoi))
  else if byteAt c.bytes c.pos ≠ 0xFF then
    .ok (some (.byte (byteAt c.bytes c.pos)),{ c with pos := c.pos+1 })
  else if c.bytes.length ≤ c.pos+1 then
    if c.allowMissingEoi then .ok (some .eoi,{ c with finished := true })
    else .error .truncatedEntropy
  else
    let marker := byteAt c.bytes (c.pos+1)
    if marker = 0 then .ok (some (.byte 0xFF),{ c with pos := c.pos+2 })
    else if marker = 0xD9 then .ok (some .eoi,{ c with pos := c.pos+2, finished := true })
    else if isRst marker ∧ c.restartMarkersEnabled then
      if marker ≠ c.expectedRst then .error (.entropyMarkerUnsupported marker)
      else .ok (some .restart,{ c with
        pos := c.pos+2
        expectedRst := if c.expectedRst = 0xD7 then 0xD0 else c.expectedRst+1 })
    else .error (.entropyMarkerUnsupported marker)

/-- The entropy bytes, and after how many of them restarts come; every event passes a byte,
so one turn for each byte and the end is enough. -/
def extractEntropySegments : ℕ → EntropyEventCursor → List ℕ → List ℕ →
    Except FastPacketError (List ℕ × List ℕ)
  | 0,_,_,_ => .error (.decode (.internalInvariant "entropy event stream ended without EOI"))
  | turns+1,c,entropyBytes,restartOffsets => do
    let event ← c.nextEvent
    match event.1 with
    | some (.byte b) => extractEntropySegments turns event.2 (entropyBytes ++ [b]) restartOffsets
    | some .restart =>
      extractEntropySegments turns event.2 entropyBytes (restartOffsets ++ [entropyBytes.length])
    | some .eoi => .ok (entropyBytes,restartOffsets)
    | none => .error (.decode (.internalInvariant "entropy event stream ended without EOI"))

end EntropyEventCursor

structure RestartSeek where
  scanOffset : ℕ
  mcuIndex : ℕ
  expectedRst : ℕ
  deriving DecidableEq, Repr

/-- The search for the restart marker with the given ordinal, `seen` of which were passed. -/
def seekRestart (scanBytes : List ℕ) (markerOrdinal seen pos : ℕ) : Option ℕ :=
  if _h : pos+1 < scanBytes.length then
    if byteAt scanBytes pos ≠ 0xFF then seekRestart scanBytes markerOrdinal seen (pos+1)
    else
      let markerPos := afterFill scanBytes (pos+1)
      if scanBytes.length ≤ markerPos then none
      else
        let marker := byteAt scanBytes markerPos
        if marker = 0 then seekRestart scanBytes markerOrdinal seen (markerPos+1)
        else if isRst marker then
          if seen = markerOrdinal then some (markerPos+1)
          else seekRestart scanBytes markerOrdinal (seen+1) (markerPos+1)
        else none
  else none
termination_by scanBytes.length-pos
decreasing_by
  · omega
  · unfold afterFill
    omega
  · unfold afterFill
    omega

def restartSeekForMcu (scanBytes : List ℕ) (restart targetMcu : ℕ) : Option RestartSeek :=
  if restart = 0 then none
  else
    let restartIndex := targetMcu/restart
    if restartIndex = 0 then none
    else (seekRestart scanBytes (restartIndex-1) 0 0).map fun scanOffset =>
      ⟨scanOffset,restartIndex*restart,restartIndex &&& 7⟩

/-! ## What there is to find -/

/-- A byte of entropy data, or a restart marker with the position after it. -/
inductive Item where
  | byte (b : ℕ)
  | restart (after code : ℕ)
  deriving DecidableEq, Repr

/-- The items from a position on, the first marker that is no restart marker, and whether the
string ends in a run of `0xFF` that nothing terminates. -/
inductive Scans (bytes : List ℕ) : ℕ → List Item → Option (ℕ × ℕ) → Bool → Prop
  | ended {pos : ℕ} : bytes.length ≤ pos → Scans bytes pos [] none false
  | cut {pos : ℕ} : pos < bytes.length → byteAt bytes pos = 0xFF →
      bytes.length ≤ afterFill bytes (pos+1) → Scans bytes pos [] none true
  | plain {pos : ℕ} {items : List Item} {terminal : Option (ℕ × ℕ)} {cut : Bool} :
      pos < bytes.length → byteAt bytes pos ≠ 0xFF → Scans bytes (pos+1) items terminal cut →
      Scans bytes pos (.byte (byteAt bytes pos)::items) terminal cut
  | stuffed {pos : ℕ} {items : List Item} {terminal : Option (ℕ × ℕ)} {cut : Bool} :
      byteAt bytes pos = 0xFF → afterFill bytes (pos+1) < bytes.length →
      byteAt bytes (afterFill bytes (pos+1)) = 0 →
      Scans bytes (afterFill bytes (pos+1)+1) items terminal cut →
      Scans bytes pos (.byte 0xFF::items) terminal cut
  | restart {pos : ℕ} {items : List Item} {terminal : Option (ℕ × ℕ)} {cut : Bool} :
      byteAt bytes pos = 0xFF → afterFill bytes (pos+1) < bytes.length →
      isRst (byteAt bytes (afterFill bytes (pos+1))) →
      Scans bytes (afterFill bytes (pos+1)+1) items terminal cut →
      Scans bytes pos (.restart (afterFill bytes (pos+1)+1)
        (byteAt bytes (afterFill bytes (pos+1)))::items) terminal cut
  | terminal {pos : ℕ} : byteAt bytes pos = 0xFF → afterFill bytes (pos+1) < bytes.length →
      byteAt bytes (afterFill bytes (pos+1)) ≠ 0 →
      ¬isRst (byteAt bytes (afterFill bytes (pos+1))) →
      Scans bytes pos [] (some (afterFill bytes (pos+1)-1,
        byteAt bytes (afterFill bytes (pos+1)))) false

def restarts : List Item → List (ℕ × ℕ)
  | [] => []
  | .byte _::items => restarts items
  | .restart after code::items => (after,code)::restarts items

def entropyOf : List Item → List ℕ
  | [] => []
  | .byte b::items => b::entropyOf items
  | .restart _ _::items => entropyOf items

/-- After how many bytes of entropy data the restarts come. -/
def offsetsOf (count : ℕ) : List Item → List ℕ
  | [] => []
  | .byte _::items => offsetsOf (count+1) items
  | .restart _ _::items => count::offsetsOf count items

/-- Up to the first marker that is no restart marker, no `0xFF` comes right after another. -/
def NoFill : List ℕ → Prop
  | [] => True
  | [_] => True
  | b::c::l =>
    if b = 0xFF then c ≠ 0xFF ∧ (c = 0 ∨ isRst c → NoFill l)
    else NoFill (c::l)

/-- Every string has items. -/
theorem exists_scans (bytes : List ℕ) (pos : ℕ) :
    ∃ items terminal cut, Scans bytes pos items terminal cut := by
  induction hn : bytes.length-pos using Nat.strong_induction_on generalizing pos with
  | _ n ih =>
      by_cases hpos : pos < bytes.length
      · by_cases hff : byteAt bytes pos = 0xFF
        · have hge := afterFill_ge bytes (pos+1)
          by_cases hcode : afterFill bytes (pos+1) < bytes.length
          · obtain ⟨items,terminal,cut,hrest⟩ :=
              ih _ (by omega) (afterFill bytes (pos+1)+1) rfl
            by_cases hzero : byteAt bytes (afterFill bytes (pos+1)) = 0
            · exact ⟨_,_,_,.stuffed hff hcode hzero hrest⟩
            · by_cases hrst : isRst (byteAt bytes (afterFill bytes (pos+1)))
              · exact ⟨_,_,_,.restart hff hcode hrst hrest⟩
              · exact ⟨_,_,_,.terminal hff hcode hzero hrst⟩
          · exact ⟨_,_,_,.cut hpos hff (Nat.le_of_not_lt hcode)⟩
        · obtain ⟨items,terminal,cut,hrest⟩ := ih _ (by omega) (pos+1) rfl
          exact ⟨_,_,_,.plain hpos hff hrest⟩
      · exact ⟨_,_,_,.ended (by omega)⟩

/-! ## What each scanner finds -/

section Findings
variable {bytes : List ℕ} {pos : ℕ} {items : List Item} {terminal : Option (ℕ × ℕ)} {cut : Bool}

theorem afterFill_self (hpos : pos < bytes.length) (hff : byteAt bytes pos ≠ 0xFF) :
    afterFill bytes pos = pos := by
  rw [afterFill,drop_cons hpos,fillLength,if_neg hff,Nat.add_zero]

theorem fillLength_le (l : List ℕ) : fillLength l ≤ l.length := by
  induction l with
  | nil => exact le_rfl
  | cons b l ih =>
      rw [fillLength,List.length_cons]
      split_ifs <;> omega

theorem afterFill_le (hpos : pos ≤ bytes.length) : afterFill bytes pos ≤ bytes.length := by
  have := fillLength_le (bytes.drop pos)
  rw [List.length_drop] at this
  unfold afterFill
  omega

theorem not_ff_of_isRst {code : ℕ} (h : isRst code) : code ≠ 0xFF ∧ code ≠ 0 ∧ code ≠ 0xD9 := by
  have := h.1
  have := h.2
  omega

theorem findIdx_ff (hpos : pos < bytes.length) (hff : byteAt bytes pos = 0xFF) :
    (bytes.drop pos).findIdx? (· == 0xFF) = some 0 := by
  rw [List.drop_eq_getElem_cons hpos,List.findIdx?_cons]
  rw [byteAt,List.getD_eq_getElem _ _ hpos] at hff
  rw [hff]
  rfl

theorem nextMarkerAfterEntropy_plain (hpos : pos < bytes.length) (hff : byteAt bytes pos ≠ 0xFF) :
    nextMarkerAfterEntropy bytes pos = nextMarkerAfterEntropy bytes (pos+1) := by
  have hfind : (bytes.drop pos).findIdx? (· == 0xFF) =
      ((bytes.drop (pos+1)).findIdx? (· == 0xFF)).map (·+1) := by
    rw [byteAt,List.getD_eq_getElem _ _ hpos] at hff
    rw [List.drop_eq_getElem_cons hpos,List.findIdx?_cons,beq_eq_false_iff_ne.mpr hff]
    rfl
  conv_lhs => rw [nextMarkerAfterEntropy,dif_pos hpos,hfind]
  conv_rhs => rw [nextMarkerAfterEntropy]
  by_cases hnext : pos+1 < bytes.length
  · rw [dif_pos hnext]
    cases (bytes.drop (pos+1)).findIdx? (· == 0xFF) with
    | none => rfl
    | some rel =>
        rw [Option.map_some]
        dsimp only
        rw [show pos+(rel+1)+1 = pos+1+rel+1 by omega]
  · rw [dif_neg hnext,List.drop_eq_nil_of_le (by omega)]
    rfl

/-- At `0xFF`, the search looks at the first byte after the fill bytes. -/
theorem nextMarkerAfterEntropy_ff (hpos : pos < bytes.length) (hff : byteAt bytes pos = 0xFF) :
    nextMarkerAfterEntropy bytes pos =
      if bytes.length ≤ afterFill bytes (pos+1) then
        .error (.truncated (afterFill bytes (pos+1)) 1)
      else if byteAt bytes (afterFill bytes (pos+1)) = 0 ∨
          isRst (byteAt bytes (afterFill bytes (pos+1))) then
        nextMarkerAfterEntropy bytes (afterFill bytes (pos+1)+1)
      else .ok (some (afterFill bytes (pos+1)-1,byteAt bytes (afterFill bytes (pos+1)))) := by
  rw [nextMarkerAfterEntropy,dif_pos hpos,findIdx_ff hpos hff]
  rfl

theorem nextMarkerAfterEntropy_unfilled (hpos : pos+1 < bytes.length)
    (hff : byteAt bytes pos = 0xFF) (hcode : byteAt bytes (pos+1) ≠ 0xFF) :
    nextMarkerAfterEntropy bytes pos =
      if byteAt bytes (pos+1) = 0 ∨ isRst (byteAt bytes (pos+1)) then
        nextMarkerAfterEntropy bytes (pos+2)
      else .ok (some (pos,byteAt bytes (pos+1))) := by
  rw [nextMarkerAfterEntropy_ff (by omega) hff,afterFill_self hpos hcode,if_neg (by omega),
    Nat.add_sub_cancel]

/-- The search for the terminal marker refuses nothing but a run of `0xFF` at the end. -/
theorem Scans.nextMarker (h : Scans bytes pos items terminal cut) :
    nextMarkerAfterEntropy bytes pos =
      if cut then .error (.truncated bytes.length 1) else .ok terminal := by
  induction h with
  | ended hpos =>
      rw [nextMarkerAfterEntropy,dif_neg (by omega)]
      rfl
  | cut hpos hff hcode =>
      rw [nextMarkerAfterEntropy_ff hpos hff,if_pos hcode,if_pos rfl,
        Nat.le_antisymm (afterFill_le hpos) hcode]
  | plain hpos hff _ ih => rw [nextMarkerAfterEntropy_plain hpos hff,ih]
  | @stuffed pos _ _ _ hff hcode hzero _ ih =>
      have hge := afterFill_ge bytes (pos+1)
      rw [nextMarkerAfterEntropy_ff (by omega) hff,if_neg (by omega),if_pos (Or.inl hzero),ih]
  | @restart pos _ _ _ hff hcode hrst _ ih =>
      have hge := afterFill_ge bytes (pos+1)
      rw [nextMarkerAfterEntropy_ff (by omega) hff,if_neg (by omega),if_pos (Or.inr hrst),ih]
  | @terminal pos hff hcode hzero hrst =>
      have hge := afterFill_ge bytes (pos+1)
      rw [nextMarkerAfterEntropy_ff (by omega) hff,if_neg (by omega),
        if_neg (not_or.mpr ⟨hzero,hrst⟩)]
      rfl

theorem seekRestart_ff {ordinal seen : ℕ} (hpos : pos < bytes.length)
    (hff : byteAt bytes pos = 0xFF) : seekRestart bytes ordinal seen pos =
      if bytes.length ≤ afterFill bytes (pos+1) then none
      else if byteAt bytes (afterFill bytes (pos+1)) = 0 then
        seekRestart bytes ordinal seen (afterFill bytes (pos+1)+1)
      else if isRst (byteAt bytes (afterFill bytes (pos+1))) then
        if seen = ordinal then some (afterFill bytes (pos+1)+1)
        else seekRestart bytes ordinal (seen+1) (afterFill bytes (pos+1)+1)
      else none := by
  by_cases hnext : pos+1 < bytes.length
  · rw [seekRestart,dif_pos hnext,if_neg (not_not.mpr hff)]
  · have hge := afterFill_ge bytes (pos+1)
    rw [seekRestart,dif_neg hnext,if_pos (by omega)]

/-- The search for a restart marker finds the one with its ordinal. -/
theorem Scans.seek (h : Scans bytes pos items terminal cut) {ordinal seen : ℕ}
    (hseen : seen ≤ ordinal) :
    seekRestart bytes ordinal seen pos = ((restarts items)[ordinal-seen]?).map Prod.fst := by
  induction h generalizing seen with
  | ended hpos =>
      rw [seekRestart,dif_neg (by omega)]
      rfl
  | cut hpos hff hcode =>
      rw [seekRestart_ff hpos hff,if_pos hcode]
      rfl
  | @plain pos items terminal cut hpos hff _ ih =>
      have ih := ih hseen
      rw [seekRestart]
      by_cases hnext : pos+1 < bytes.length
      · rw [dif_pos hnext,if_pos hff]
        exact ih
      · rw [dif_neg hnext]
        rw [seekRestart,dif_neg (by omega)] at ih
        exact ih
  | @stuffed pos _ _ _ hff hcode hzero _ ih =>
      have hge := afterFill_ge bytes (pos+1)
      rw [seekRestart_ff (by omega) hff,if_neg (by omega),if_pos hzero]
      exact ih hseen
  | @restart pos _ _ _ hff hcode hrst _ ih =>
      have hge := afterFill_ge bytes (pos+1)
      rw [seekRestart_ff (by omega) hff,if_neg (by omega),if_neg (not_ff_of_isRst hrst).2.1,
        if_pos hrst,restarts]
      by_cases heq : seen = ordinal
      · rw [if_pos heq,heq,Nat.sub_self]
        rfl
      · rw [if_neg heq,ih (by omega),show ordinal-seen = ordinal-(seen+1)+1 by omega]
        rfl
  | @terminal pos hff hcode hzero hrst =>
      have hge := afterFill_ge bytes (pos+1)
      rw [seekRestart_ff (by omega) hff,if_neg (by omega),if_neg hzero,if_neg hrst]
      rfl

/-! ### Strings without fill bytes -/

/-- Where there are no fill bytes, a code comes right after its `0xFF`. -/
theorem NoFill.ff (h : NoFill (bytes.drop pos)) (hff : byteAt bytes pos = 0xFF)
    (hpos : pos+1 < bytes.length) : afterFill bytes (pos+1) = pos+1 ∧
      (byteAt bytes (pos+1) = 0 ∨ isRst (byteAt bytes (pos+1)) → NoFill (bytes.drop (pos+2))) := by
  rw [drop_cons (by omega),drop_cons hpos,NoFill,if_pos hff] at h
  exact ⟨afterFill_self hpos h.1,h.2⟩

theorem NoFill.plain (h : NoFill (bytes.drop pos)) (hff : byteAt bytes pos ≠ 0xFF)
    (hpos : pos < bytes.length) : NoFill (bytes.drop (pos+1)) := by
  by_cases hnext : pos+1 < bytes.length
  · rw [drop_cons hpos,drop_cons hnext,NoFill,if_neg hff] at h
    rwa [drop_cons hnext]
  · rw [List.drop_eq_nil_of_le (by omega)]
    trivial

theorem NoFill.not_cut (h : NoFill (bytes.drop pos)) (hff : byteAt bytes pos = 0xFF)
    (hcode : bytes.length ≤ afterFill bytes (pos+1)) : bytes.length ≤ pos+1 := by
  by_contra hpos
  have := (h.ff hff (by omega)).1
  omega

/-- The validation supports EOI or the end of the string, and restart markers if allowed. -/
def Supported (allowed : Prop) (items : List Item) (terminal : Option (ℕ × ℕ)) : Prop :=
  (restarts items = [] ∨ allowed) ∧ ∀ found ∈ terminal, found.2 = 0xD9

theorem validateScanBytes_ff {allow : Bool} {base : ℕ} (hpos : pos+1 < bytes.length)
    (hff : byteAt bytes pos = 0xFF) : validateScanBytes bytes allow base pos =
      if byteAt bytes (pos+1) = 0 ∨ isRst (byteAt bytes (pos+1)) ∧ allow then
        validateScanBytes bytes allow base (pos+2)
      else if byteAt bytes (pos+1) = 0xD9 then .ok (some (pos+2))
      else .error (.unexpectedMarker (base+pos) .eoi (byteAt bytes (pos+1))) := by
  rw [validateScanBytes,dif_pos (by omega),if_neg (not_not.mpr hff),if_neg (by omega)]

/-- The validation accepts what it supports, with the same end, and nothing else. -/
theorem Scans.validate (h : Scans bytes pos items terminal cut) (hfill : NoFill (bytes.drop pos))
    (allow : Bool) (base : ℕ) :
    (Supported (allow = true) items terminal →
      validateScanBytes bytes allow base pos = .ok (terminal.map fun found => found.1+2)) ∧
    (¬Supported (allow = true) items terminal →
      ∃ e, validateScanBytes bytes allow base pos = .error e) := by
  induction h with
  | ended hpos =>
      refine ⟨fun _ => ?_,fun h => absurd ⟨Or.inl rfl,nofun⟩ h⟩
      rw [validateScanBytes,dif_neg (by omega)]
      rfl
  | cut hpos hff hcode =>
      refine ⟨fun _ => ?_,fun h => absurd ⟨Or.inl rfl,nofun⟩ h⟩
      rw [validateScanBytes,dif_pos hpos,if_neg (not_not.mpr hff),
        if_pos (hfill.not_cut hff hcode)]
      rfl
  | plain hpos hff _ ih =>
      rw [validateScanBytes,dif_pos hpos,if_pos hff]
      exact ih (hfill.plain hff hpos)
  | @stuffed pos _ _ _ hff hcode hzero _ ih =>
      have hge := afterFill_ge bytes (pos+1)
      obtain ⟨hself,hrest⟩ := hfill.ff hff (by omega)
      rw [hself] at hzero ih
      rw [validateScanBytes_ff (by omega) hff,if_pos (Or.inl hzero)]
      exact ih (hrest (Or.inl hzero))
  | @restart pos _ _ _ hff hcode hrst _ ih =>
      have hge := afterFill_ge bytes (pos+1)
      obtain ⟨hself,hrest⟩ := hfill.ff hff (by omega)
      rw [hself] at hrst ih ⊢
      have ih := ih (hrest (Or.inr hrst))
      rw [validateScanBytes_ff (by omega) hff]
      by_cases hallow : allow = true
      · rw [if_pos (Or.inr ⟨hrst,hallow⟩)]
        refine ⟨fun h => ih.1 ⟨Or.inr hallow,h.2⟩,fun h => ih.2 fun hs => h ⟨Or.inr hallow,hs.2⟩⟩
      · have hcode := not_ff_of_isRst hrst
        rw [if_neg (not_or.mpr ⟨hcode.2.1,fun h => hallow h.2⟩),if_neg hcode.2.2]
        refine ⟨fun h => ?_,fun _ => ⟨_,rfl⟩⟩
        rcases h.1 with h | h
        · exact nomatch h
        · exact absurd h hallow
  | @terminal pos hff hcode hzero hrst =>
      have hge := afterFill_ge bytes (pos+1)
      obtain ⟨hself,-⟩ := hfill.ff hff (by omega)
      rw [hself] at hzero hrst ⊢
      rw [validateScanBytes_ff (by omega) hff,if_neg (not_or.mpr ⟨hzero,fun h => hrst h.1⟩)]
      by_cases heoi : byteAt bytes (pos+1) = 0xD9
      · rw [if_pos heoi]
        refine ⟨fun _ => rfl,fun h => absurd ⟨Or.inl rfl,?_⟩ h⟩
        rintro _ ⟨⟩
        exact heoi
      · rw [if_neg heoi]
        exact ⟨fun h => absurd (h.2 _ rfl) heoi,fun _ => ⟨_,rfl⟩⟩

/-! ### The refill of the reader -/

section Reader
variable {r : BitReader}

theorem refillOneByte_end (hpos : r.bytes.length ≤ r.pos) : r.refillOneByte = (false,r) :=
  if_pos (Or.inr hpos)

theorem refillOneByte_plain (hmarker : r.marker = none) (hpos : r.pos < r.bytes.length)
    (hff : byteAt r.bytes r.pos ≠ 0xFF) :
    r.refillOneByte = (true,{ r.pushByte (byteAt r.bytes r.pos) with pos := r.pos+1 }) := by
  unfold refillOneByte
  dsimp only
  rw [if_neg (by rw [hmarker]; simpa using hpos),if_neg hff]

theorem refillOneByte_ff (hmarker : r.marker = none) (hpos : r.pos < r.bytes.length)
    (hff : byteAt r.bytes r.pos = 0xFF) : r.refillOneByte =
      if r.bytes.length ≤ afterFill r.bytes (r.pos+1) then (false,r)
      else if byteAt r.bytes (afterFill r.bytes (r.pos+1)) = 0 then
        (true,{ r.pushByte 0xFF with pos := afterFill r.bytes (r.pos+1)+1 })
      else (false,{ r with
        pos := afterFill r.bytes (r.pos+1)-1
        marker := some (byteAt r.bytes (afterFill r.bytes (r.pos+1)))
        markerEnd := afterFill r.bytes (r.pos+1)+1 }) := by
  unfold refillOneByte
  dsimp only
  rw [if_neg (by rw [hmarker]; simpa using hpos),if_pos hff]

/-- The refills of a reader find the restart markers and the first other one. -/
theorem Scans.reader (h : Scans bytes pos items terminal cut) {turns : ℕ}
    (hbytes : r.bytes = bytes) (hpos : r.pos = pos) (hmarker : r.marker = none)
    (hturns : bytes.length-pos < turns) : scanReader turns r = (restarts items,terminal) := by
  obtain ⟨turns,rfl⟩ := Nat.exists_eq_succ_of_ne_zero (Nat.ne_of_gt (Nat.zero_lt_of_lt hturns))
  induction h generalizing turns r with
  | ended hlength =>
      subst hbytes hpos
      rw [scanReader,refillOneByte_end (r := r.resetAtRestart) hlength]
      show (match r.resetAtRestart.takeMarker with
        | none => ([],none)
        | some (code,s) => _) = _
      rw [takeMarker,show r.resetAtRestart.marker = none from hmarker]
      rfl
  | cut hlt hff hcode =>
      subst hbytes hpos
      have hrefill := (refillOneByte_ff (r := r.resetAtRestart) hmarker hlt hff).trans
        (if_pos hcode)
      rw [scanReader,hrefill]
      show (match r.resetAtRestart.takeMarker with
        | none => ([],none)
        | some (code,s) => _) = _
      rw [takeMarker,show r.resetAtRestart.marker = none from hmarker]
      rfl
  | plain hlt hff _ ih =>
      subst hbytes hpos
      obtain ⟨turns,rfl⟩ := Nat.exists_eq_succ_of_ne_zero (show turns ≠ 0 by omega)
      rw [scanReader,refillOneByte_plain (r := r.resetAtRestart) hmarker hlt hff]
      dsimp only
      rw [if_pos rfl]
      exact ih (by rfl) (by rfl) (by exact hmarker) turns (by omega)
  | stuffed hff hcode hzero _ ih =>
      subst hbytes hpos
      have hge := afterFill_ge r.bytes (r.pos+1)
      obtain ⟨turns,rfl⟩ := Nat.exists_eq_succ_of_ne_zero (show turns ≠ 0 by omega)
      have hrefill := ((refillOneByte_ff (r := r.resetAtRestart) hmarker
        (show r.pos < r.bytes.length by omega) hff).trans (if_neg (Nat.not_le.mpr hcode))).trans
        (if_pos hzero)
      rw [scanReader,hrefill]
      dsimp only
      rw [if_pos rfl]
      exact ih (by rfl) (by rfl) (by exact hmarker) turns (by omega)
  | restart hff hcode hrst _ ih =>
      subst hbytes hpos
      have hge := afterFill_ge r.bytes (r.pos+1)
      obtain ⟨turns,rfl⟩ := Nat.exists_eq_succ_of_ne_zero (show turns ≠ 0 by omega)
      have hrefill := ((refillOneByte_ff (r := r.resetAtRestart) hmarker
        (show r.pos < r.bytes.length by omega) hff).trans (if_neg (Nat.not_le.mpr hcode))).trans
        (if_neg (not_ff_of_isRst hrst).2.1)
      rw [scanReader,hrefill]
      dsimp only [takeMarker,Option.map_some]
      rw [if_neg Bool.false_ne_true]
      refine (if_pos ?_).trans ?_
      · exact hrst
      · rw [ih (by rfl) (by rfl) (by rfl) turns (by omega)]
        rfl
  | terminal hff hcode hzero hrst =>
      subst hbytes hpos
      have hge := afterFill_ge r.bytes (r.pos+1)
      have hrefill := ((refillOneByte_ff (r := r.resetAtRestart) hmarker
        (show r.pos < r.bytes.length by omega) hff).trans (if_neg (Nat.not_le.mpr hcode))).trans
        (if_neg hzero)
      rw [scanReader,hrefill]
      dsimp only [takeMarker,Option.map_some]
      rw [if_neg Bool.false_ne_true]
      refine (if_neg ?_).trans ?_
      · exact hrst
      · rfl

end Reader

/-! ### The event cursor -/

section Cursor
open EntropyEventCursor
variable {enabled allow : Bool} {expected turns : ℕ} {data offsets : List ℕ}

/-- Restart markers count up from the expected one. -/
def InOrder : ℕ → List (ℕ × ℕ) → Prop
  | _,[] => True
  | expected,(_,code)::l => code = expected ∧ InOrder (if expected = 0xD7 then 0xD0 else expected+1) l

/-- The cursor supports EOI, the end of the string if allowed, and restart markers in order if
they are enabled. -/
def CursorSupports (enabled allow : Prop) (expected : ℕ) (items : List Item)
    (terminal : Option (ℕ × ℕ)) : Prop :=
  (restarts items = [] ∨ enabled) ∧ InOrder expected (restarts items) ∧
    (terminal = none → allow) ∧ ∀ found ∈ terminal, found.2 = 0xD9

theorem extract_plain (hpos : pos < bytes.length) (hff : byteAt bytes pos ≠ 0xFF) :
    extractEntropySegments (turns+1) ⟨bytes,pos,enabled,expected,allow,false⟩ data offsets =
      extractEntropySegments turns ⟨bytes,pos+1,enabled,expected,allow,false⟩
        (data ++ [byteAt bytes pos]) offsets := by
  have hevent : nextEvent ⟨bytes,pos,enabled,expected,allow,false⟩ =
      .ok (some (.byte (byteAt bytes pos)),⟨bytes,pos+1,enabled,expected,allow,false⟩) :=
    (if_neg Bool.false_ne_true).trans ((if_neg (by dsimp only; omega)).trans (if_pos hff))
  rw [extractEntropySegments,hevent]
  rfl

theorem extract_end (hpos : bytes.length ≤ pos) :
    extractEntropySegments (turns+1) ⟨bytes,pos,enabled,expected,allow,false⟩ data offsets =
      if allow then .ok (data,offsets) else .error (.decode (.missingMarker .eoi)) := by
  have hevent : nextEvent ⟨bytes,pos,enabled,expected,allow,false⟩ =
      if allow then .ok (some .eoi,⟨bytes,pos,enabled,expected,allow,true⟩)
      else .error (.decode (.missingMarker .eoi)) :=
    (if_neg Bool.false_ne_true).trans (if_pos hpos)
  rw [extractEntropySegments,hevent]
  cases allow <;> rfl

/-- An `0xFF` as the last byte ends the string. -/
theorem extract_cut (hpos : pos+1 = bytes.length) (hff : byteAt bytes pos = 0xFF) :
    extractEntropySegments (turns+1) ⟨bytes,pos,enabled,expected,allow,false⟩ data offsets =
      if allow then .ok (data,offsets) else .error .truncatedEntropy := by
  have hevent : nextEvent ⟨bytes,pos,enabled,expected,allow,false⟩ =
      if allow then .ok (some .eoi,⟨bytes,pos,enabled,expected,allow,true⟩)
      else .error .truncatedEntropy :=
    (if_neg Bool.false_ne_true).trans ((if_neg (by dsimp only; omega)).trans
      ((if_neg (not_not.mpr hff)).trans (if_pos (Nat.le_of_eq hpos.symm))))
  rw [extractEntropySegments,hevent]
  cases allow <;> rfl

/-- What the cursor does with a marker or a stuffed byte. -/
theorem extract_ff (hpos : pos+1 < bytes.length) (hff : byteAt bytes pos = 0xFF) :
    extractEntropySegments (turns+1) ⟨bytes,pos,enabled,expected,allow,false⟩ data offsets =
      if byteAt bytes (pos+1) = 0 then
        extractEntropySegments turns ⟨bytes,pos+2,enabled,expected,allow,false⟩ (data ++ [0xFF])
          offsets
      else if byteAt bytes (pos+1) = 0xD9 then .ok (data,offsets)
      else if isRst (byteAt bytes (pos+1)) ∧ enabled then
        if byteAt bytes (pos+1) ≠ expected then
          .error (.entropyMarkerUnsupported (byteAt bytes (pos+1)))
        else extractEntropySegments turns ⟨bytes,pos+2,enabled,
          if expected = 0xD7 then 0xD0 else expected+1,allow,false⟩ data (offsets ++ [data.length])
      else .error (.entropyMarkerUnsupported (byteAt bytes (pos+1))) := by
  rw [extractEntropySegments,nextEvent]
  dsimp only
  rw [if_neg Bool.false_ne_true,if_neg (by omega),if_neg (not_not.mpr hff),if_neg (by omega)]
  split_ifs <;> rfl

/-- The cursor accepts what it supports, with the entropy bytes and the places of the restart
markers among them, and nothing else. -/
theorem Scans.cursor (h : Scans bytes pos items terminal cut) (hfill : NoFill (bytes.drop pos))
    (hturns : bytes.length-pos < turns) :
    (CursorSupports (enabled = true) (allow = true) expected items terminal →
      extractEntropySegments turns ⟨bytes,pos,enabled,expected,allow,false⟩ data offsets =
        .ok (data ++ entropyOf items,offsets ++ offsetsOf data.length items)) ∧
    (¬CursorSupports (enabled = true) (allow = true) expected items terminal →
      ∃ e, extractEntropySegments turns ⟨bytes,pos,enabled,expected,allow,false⟩ data offsets =
        .error e) := by
  obtain ⟨turns,rfl⟩ := Nat.exists_eq_succ_of_ne_zero (Nat.ne_of_gt (Nat.zero_lt_of_lt hturns))
  induction h generalizing turns data offsets expected with
  | ended hpos =>
      rw [extract_end hpos]
      by_cases hallow : allow = true
      · rw [if_pos hallow]
        refine ⟨fun _ => ?_,fun h => absurd ⟨Or.inl rfl,trivial,fun _ => hallow,nofun⟩ h⟩
        rw [entropyOf,offsetsOf,List.append_nil,List.append_nil]
      · rw [if_neg hallow]
        exact ⟨fun h => absurd (h.2.2.1 rfl) hallow,fun _ => ⟨_,rfl⟩⟩
  | cut hpos hff hcode =>
      rw [extract_cut (Nat.le_antisymm hpos (hfill.not_cut hff hcode)) hff]
      by_cases hallow : allow = true
      · rw [if_pos hallow]
        refine ⟨fun _ => ?_,fun h => absurd ⟨Or.inl rfl,trivial,fun _ => hallow,nofun⟩ h⟩
        rw [entropyOf,offsetsOf,List.append_nil,List.append_nil]
      · rw [if_neg hallow]
        exact ⟨fun h => absurd (h.2.2.1 rfl) hallow,fun _ => ⟨_,rfl⟩⟩
  | @plain pos items terminal cut hpos hff _ ih =>
      rw [extract_plain hpos hff]
      obtain ⟨turns,rfl⟩ := Nat.exists_eq_succ_of_ne_zero (show turns ≠ 0 by omega)
      have ih := @ih expected (data ++ [byteAt bytes pos]) offsets (hfill.plain hff hpos) turns
        (by omega)
      rw [List.length_append,List.append_assoc] at ih
      exact ih
  | @stuffed pos _ _ _ hff hcode hzero _ ih =>
      have hge := afterFill_ge bytes (pos+1)
      obtain ⟨hself,hrest⟩ := hfill.ff hff (by omega)
      rw [hself] at hzero ih
      rw [extract_ff (by omega) hff,if_pos hzero]
      obtain ⟨turns,rfl⟩ := Nat.exists_eq_succ_of_ne_zero (show turns ≠ 0 by omega)
      have ih := @ih expected (data ++ [0xFF]) offsets (hrest (Or.inl hzero)) turns (by omega)
      rw [List.length_append,List.append_assoc] at ih
      exact ih
  | @restart pos items terminal cut hff hcode hrst _ ih =>
      have hge := afterFill_ge bytes (pos+1)
      obtain ⟨hself,hrest⟩ := hfill.ff hff (by omega)
      rw [hself] at hrst ih ⊢
      have hplace := hrest (Or.inr hrst)
      have hmarker := not_ff_of_isRst hrst
      rw [extract_ff (by omega) hff,if_neg hmarker.2.1,if_neg hmarker.2.2]
      obtain ⟨turns,rfl⟩ := Nat.exists_eq_succ_of_ne_zero (show turns ≠ 0 by omega)
      by_cases henabled : enabled = true
      · rw [if_pos ⟨hrst,henabled⟩]
        by_cases hexpected : byteAt bytes (pos+1) = expected
        · rw [if_neg (not_not.mpr hexpected)]
          have ih := @ih (if expected = 0xD7 then 0xD0 else expected+1) data
            (offsets ++ [data.length]) hplace turns (by omega)
          refine ⟨fun h => ?_,fun h => ih.2 fun hs => h ?_⟩
          · rw [ih.1 ⟨Or.inr henabled,h.2.1.2,h.2.2⟩,List.append_assoc]
            rfl
          · exact ⟨Or.inr henabled,⟨hexpected,hs.2.1⟩,hs.2.2⟩
        · rw [if_pos hexpected]
          exact ⟨fun h => absurd h.2.1.1 hexpected,fun _ => ⟨_,rfl⟩⟩
      · rw [if_neg fun h => henabled h.2]
        refine ⟨fun h => ?_,fun _ => ⟨_,rfl⟩⟩
        rcases h.1 with h | h
        · exact nomatch h
        · exact absurd h henabled
  | @terminal pos hff hcode hzero hrst =>
      have hge := afterFill_ge bytes (pos+1)
      obtain ⟨hself,-⟩ := hfill.ff hff (by omega)
      rw [hself] at hzero hrst ⊢
      rw [extract_ff (by omega) hff,if_neg hzero]
      by_cases heoi : byteAt bytes (pos+1) = 0xD9
      · rw [if_pos heoi]
        refine ⟨fun _ => ?_,fun h => absurd ⟨Or.inl rfl,trivial,nofun,?_⟩ h⟩
        · rw [entropyOf,offsetsOf,List.append_nil,List.append_nil]
        · rintro _ ⟨⟩
          exact heoi
      · rw [if_neg heoi,if_neg fun h => hrst h.1]
        exact ⟨fun h => absurd (h.2.2.2 _ rfl) heoi,fun _ => ⟨_,rfl⟩⟩

end Cursor
end Findings

/-- On every string, fill bytes included, the reader and the two searches find the same restart
markers at the same places and the same first other marker; only a run of `0xFF` at the end,
which the search for the terminal marker reports as truncated, separates them. On a string
without fill bytes, the validation and the cursor find the same and accept what they support. -/
theorem scanners_agree (bytes : List ℕ) : ∃ items terminal cut,
    Scans bytes 0 items terminal cut ∧
    scanReader (bytes.length+1) (BitReader.new bytes) = (restarts items,terminal) ∧
    nextMarkerAfterEntropy bytes 0 =
      (if cut then .error (.truncated bytes.length 1) else .ok terminal) ∧
    (∀ restart targetMcu, 0 < targetMcu/restart → restartSeekForMcu bytes restart targetMcu =
      ((restarts items)[targetMcu/restart-1]?).map fun found =>
        ⟨found.1,targetMcu/restart*restart,targetMcu/restart &&& 7⟩) ∧
    (NoFill bytes → (∀ allow base,
      (Supported (allow = true) items terminal → validateScanBytes bytes allow base 0 =
        .ok (terminal.map fun found => found.1+2)) ∧
      (¬Supported (allow = true) items terminal →
        ∃ e, validateScanBytes bytes allow base 0 = .error e)) ∧
    (∀ restartInterval allowMissingEoi,
      (CursorSupports (restartInterval.getD 0 ≠ 0) (allowMissingEoi = true) 0xD0 items terminal →
        (EntropyEventCursor.new bytes restartInterval allowMissingEoi).extractEntropySegments
          (bytes.length+1) [] [] = .ok (entropyOf items,offsetsOf 0 items)) ∧
      (¬CursorSupports (restartInterval.getD 0 ≠ 0) (allowMissingEoi = true) 0xD0 items terminal →
        ∃ e, (EntropyEventCursor.new bytes restartInterval allowMissingEoi).extractEntropySegments
          (bytes.length+1) [] [] = .error e))) := by
  obtain ⟨items,terminal,cut,hscans⟩ := exists_scans bytes 0
  refine ⟨items,terminal,cut,hscans,?_,hscans.nextMarker,?_,fun hfill => ⟨hscans.validate hfill,?_⟩⟩
  · exact hscans.reader rfl rfl rfl (by omega)
  · intro restart targetMcu hindex
    have hrestart : restart ≠ 0 := by
      rintro rfl
      rw [Nat.div_zero] at hindex
      exact absurd hindex (lt_irrefl 0)
    unfold restartSeekForMcu
    dsimp only
    rw [if_neg hrestart,if_neg (Nat.pos_iff_ne_zero.mp hindex),
      hscans.seek (Nat.zero_le _),Nat.sub_zero,Option.map_map]
    rfl
  · intro restartInterval allowMissingEoi
    have hcursor := @Scans.cursor bytes 0 items terminal cut (decide (restartInterval.getD 0 ≠ 0))
      allowMissingEoi 0xD0 (bytes.length+1) [] [] hscans hfill (by omega)
    rw [decide_eq_true_iff] at hcursor
    exact hcursor

/-- The start of another header after the scan: the reader and the search for the terminal marker
find it, and the validation and the cursor reject it, also where they allow all they can. -/
theorem header_after_scan_rejected : scanReader 3 (BitReader.new [0xFF,0xDA]) =
      ([],some (0,0xDA)) ∧
    nextMarkerAfterEntropy [0xFF,0xDA] 0 = .ok (some (0,0xDA)) ∧
    validateScanBytes [0xFF,0xDA] true 0 0 = .error (.unexpectedMarker 0 .eoi 0xDA) ∧
    (EntropyEventCursor.new [0xFF,0xDA] (some 1) true).extractEntropySegments 3 [] [] =
      .error (.entropyMarkerUnsupported 0xDA) := by
  refine ⟨by rfl,?_,?_,by rfl⟩
  · rw [nextMarkerAfterEntropy]
    rfl
  · rw [validateScanBytes]
    rfl

end J2kNative.EntropyScanners
