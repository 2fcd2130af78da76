import J2kNative.Fallible
import J2kNative.TilePartParsing

/-!
# Tile-parts are read alike whatever follows

A parser that succeeds takes some bytes of its input and does not look at what comes
after them. The marker segments are of that kind, and the header of a tile-part is where
it ends with SOD.
-/
namespace J2kNative.TilePartParsing
open Fallible TileTree PacketMarkers MarkerSegments ParameterPrecedence

/-- A success depends on the bytes that are taken only. -/
def Stable {α : Type} (p : Parse α) : Prop :=
  ∀ data a rest, p data = .ok (a,rest) →
    ∃ used, data = used++rest ∧ ∀ rest', p (used++rest') = .ok (a,rest')

section
variable {α β : Type}

theorem Stable.pure (a : α) : Stable (Pure.pure a : Parse α) := by
  intro data b rest h
  cases h
  exact ⟨[],rfl,fun _ => rfl⟩

theorem Stable.fail (e : TileParseError) : Stable (fail e : Parse α) := nofun

theorem Stable.bind {p : Parse α} {f : α → Parse β} (hp : Stable p) (hf : ∀ a, Stable (f a)) :
    Stable (p >>= f) := by
  intro data b rest h
  cases hfirst : p data with
  | error e =>
      rw [run_bind_error hfirst] at h
      cases h
  | ok r =>
      obtain ⟨a,middle⟩ := r
      rw [run_bind_ok hfirst] at h
      obtain ⟨used,rfl,hused⟩ := hp data a middle hfirst
      obtain ⟨used',rfl,hused'⟩ := hf a middle b rest h
      refine ⟨used++used',(List.append_assoc ..).symm,fun rest' => ?_⟩
      rw [List.append_assoc,run_bind_ok (hused _)]
      exact hused' rest'

theorem Stable.check (ok : Prop) [Decidable ok] (e : TileParseError) :
    Stable (TilePartParsing.check ok e) := by
  unfold TilePartParsing.check
  split
  · exact Stable.pure ()
  · exact Stable.fail e

/-- What a reader finds, it finds whatever follows. -/
theorem stable_orFail {read : List ℕ → Option (α × List ℕ)} {e : TileParseError}
    (h : ∀ data a rest, read data = some (a,rest) →
      ∃ used, data = used++rest ∧ ∀ rest', read (used++rest') = some (a,rest')) :
    Stable (orFail read e) := by
  intro data a rest hread
  unfold orFail at hread ⊢
  split at hread
  · cases hread
  next r hr =>
    cases hread
    obtain ⟨used,hdata,hused⟩ := h data a rest hr
    exact ⟨used,hdata,fun rest' => by rw [hused]⟩

theorem readByte_stable (data : List ℕ) (a : ℕ) (rest : List ℕ)
    (h : readByte data = some (a,rest)) :
    ∃ used, data = used++rest ∧ ∀ rest', readByte (used++rest') = some (a,rest') := by
  cases data with
  | nil => cases h
  | cons b data =>
      cases h
      exact ⟨[a],rfl,fun _ => rfl⟩

theorem readU16_stable (data : List ℕ) (a : ℕ) (rest : List ℕ)
    (h : readU16 data = some (a,rest)) :
    ∃ used, data = used++rest ∧ ∀ rest', readU16 (used++rest') = some (a,rest') := by
  match data, h with
  | b₀ :: b₁ :: _, rfl => exact ⟨[b₀,b₁],rfl,fun _ => rfl⟩

theorem readBytes_stable (len : ℕ) (data a rest : List ℕ) (h : readBytes len data = some (a,rest)) :
    ∃ used, data = used++rest ∧ ∀ rest', readBytes len (used++rest') = some (a,rest') := by
  unfold readBytes at h
  split_ifs at h with hlen
  cases h
  refine ⟨data.take len,(List.take_append_drop len data).symm,fun rest' => ?_⟩
  have htake : (data.take len).length = len := List.length_take_of_le hlen
  rw [readBytes,if_pos (by rw [List.length_append]; omega),List.take_left' htake,
    List.drop_left' htake]

theorem markerSegmentPayload_stable (data a rest : List ℕ)
    (h : markerSegmentPayload data = some (a,rest)) :
    ∃ used, data = used++rest ∧ ∀ rest', markerSegmentPayload (used++rest') = some (a,rest') := by
  match data, h with
  | b₀ :: b₁ :: data, h =>
    have hread : (if b₀*2^8+b₁ < 2 then none else readBytes (b₀*2^8+b₁-2) data) =
        some (a,rest) := h
    split_ifs at hread with hlen
    obtain ⟨used,rfl,hused⟩ := readBytes_stable _ _ _ _ hread
    refine ⟨b₀ :: b₁ :: used,rfl,fun rest' => ?_⟩
    show (if b₀*2^8+b₁ < 2 then none else readBytes (b₀*2^8+b₁-2) (used++rest')) = _
    rw [if_neg hlen]
    exact hused rest'

theorem stable_byte (marker : String) : Stable (byte marker) := stable_orFail readByte_stable

theorem stable_u16 (marker : String) : Stable (u16 marker) := stable_orFail readU16_stable

theorem stable_readMany {read : Parse α} (h : Stable read) (n : ℕ) : Stable (readMany read n) := by
  induction n with
  | zero => exact Stable.pure []
  | succ n ih => exact h.bind fun _ => ih.bind fun _ => Stable.pure _

theorem sequencedSegment_stable {marker : String} {data rest : List ℕ} {a : Sequenced (List ℕ)}
    (h : sequencedSegment marker data = .ok (a,rest)) :
    ∃ used, data = used++rest ∧ ∀ rest', sequencedSegment marker (used++rest') = .ok (a,rest') := by
  unfold sequencedSegment at h
  split at h
  next sequenceIdx payload rest' hpayload =>
    cases h
    obtain ⟨used,hdata,hused⟩ := markerSegmentPayload_stable _ _ _ hpayload
    refine ⟨used,hdata,fun rest' => ?_⟩
    rw [sequencedSegment,hused]
  · cases h

theorem stable_ppt : Stable (segment pptMarker) := by
  intro data a rest h
  unfold segment at h ⊢
  cases hppt : pptMarker data with
  | error e =>
      rw [hppt] at h
      cases h
  | ok r =>
      rw [hppt] at h
      cases h
      obtain ⟨used,hdata,hused⟩ := sequencedSegment_stable hppt
      exact ⟨used,hdata,fun rest' => by rw [pptMarker,hused]; rfl⟩

theorem stable_plt (maxOwnedBytes : ℕ) : Stable (segment (pltMarker maxOwnedBytes)) := by
  intro data a rest h
  unfold segment at h ⊢
  cases hplt : pltMarker maxOwnedBytes data with
  | error e =>
      rw [hplt] at h
      cases h
  | ok r =>
      rw [hplt] at h
      cases h
      unfold pltMarker at hplt
      obtain ⟨⟨found,after⟩,hfound,hplt⟩ := bind_eq_ok.mp hplt
      obtain ⟨lengths,hlengths,hplt⟩ := bind_eq_ok.mp hplt
      cases hplt
      obtain ⟨used,hdata,hused⟩ := sequencedSegment_stable hfound
      refine ⟨used,hdata,fun rest' => ?_⟩
      rw [pltMarker,hused,ok_bind]
      dsimp only
      rw [hlengths]
      rfl

/-! ## The marker segments -/

theorem stable_progressionOrder (marker : String) (value : ℕ) :
    Stable (progressionOrderFromU8 marker value) := by
  unfold progressionOrderFromU8
  split <;> first | exact Stable.pure _ | exact Stable.fail _

theorem stable_waveletTransform (marker : String) (value : ℕ) :
    Stable (waveletTransformFromU8 marker value) := by
  unfold waveletTransformFromU8
  split <;> first | exact Stable.pure _ | exact Stable.fail _

theorem stable_quantizationStyle (marker : String) (value : ℕ) :
    Stable (quantizationStyleFromU8 marker value) := by
  unfold quantizationStyleFromU8
  split <;> first | exact Stable.pure _ | exact Stable.fail _

theorem stable_codeBlockExponent (marker : String) : Stable (codeBlockExponent marker) :=
  (stable_byte marker).bind fun _ => (Stable.check _ _).bind fun _ => Stable.pure _

theorem stable_codingStyleParameters (flags : ℕ) (marker : String) :
    Stable (codingStyleParameters flags marker) := by
  refine (stable_byte marker).bind fun levels => (Stable.check _ _).bind fun _ =>
    (stable_codeBlockExponent marker).bind fun _ => (stable_codeBlockExponent marker).bind fun _ =>
    (stable_byte marker).bind fun _ => (stable_byte marker).bind fun _ =>
    (stable_waveletTransform marker _).bind fun _ => ?_
  dsimp only
  split
  · exact (stable_readMany ((stable_byte marker).bind fun _ => Stable.pure _) _).bind
      fun _ => Stable.pure _
  · exact (Stable.pure _).bind fun _ => Stable.pure _

theorem stable_codMarker : Stable codMarker :=
  (stable_u16 _).bind fun _ => (stable_byte _).bind fun _ => (stable_byte _).bind fun _ =>
    (stable_progressionOrder _ _).bind fun _ => (stable_u16 _).bind fun _ =>
    (Stable.check _ _).bind fun _ => (stable_byte _).bind fun _ =>
    (stable_codingStyleParameters _ _).bind fun _ => Stable.pure _

theorem stable_readComponentIndex (csiz : ℕ) (marker : String) :
    Stable (readComponentIndex csiz marker) := by
  unfold readComponentIndex
  split
  · exact stable_byte marker
  · exact stable_u16 marker

theorem stable_cocMarker (csiz : ℕ) : Stable (cocMarker csiz) :=
  (stable_u16 _).bind fun _ => (stable_readComponentIndex csiz _).bind fun _ =>
    (stable_byte _).bind fun _ => (stable_codingStyleParameters _ _).bind fun _ => Stable.pure _

theorem stable_quantizationParameters (length before : ℕ) (marker : String) :
    Stable (quantizationParameters length before marker) := by
  refine (stable_byte marker).bind fun _ => (stable_quantizationStyle marker _).bind fun style =>
    (Stable.check _ _).bind fun _ => ?_
  have hbyte : Stable (stepSizeByte marker) := (stable_byte marker).bind fun _ => Stable.pure _
  have hword : Stable (stepSizeWord marker) := (stable_u16 marker).bind fun _ => Stable.pure _
  cases style with
  | noQuantization => exact (stable_readMany hbyte _).bind fun _ => Stable.pure _
  | scalarDerived => exact (stable_readMany hword _).bind fun _ => Stable.pure _
  | scalarExpounded => exact (stable_readMany hword _).bind fun _ => Stable.pure _

theorem stable_qcdMarker : Stable qcdMarker :=
  (stable_u16 _).bind fun _ => stable_quantizationParameters _ _ _

theorem stable_qccMarker (csiz : ℕ) : Stable (qccMarker csiz) :=
  (stable_u16 _).bind fun _ => (stable_readComponentIndex csiz _).bind fun _ =>
    (stable_quantizationParameters _ _ _).bind fun _ => Stable.pure _

theorem stable_progressionChange (csiz : ℕ) : Stable (progressionChange csiz) :=
  (stable_byte _).bind fun _ => (stable_readComponentIndex csiz _).bind fun _ =>
    (stable_u16 _).bind fun _ => (stable_byte _).bind fun _ =>
    (stable_readComponentIndex csiz _).bind fun _ => (stable_byte _).bind fun _ =>
    (stable_progressionOrder _ _).bind fun _ => (Stable.check _ _).bind fun _ => Stable.pure _

theorem stable_pocMarker (csiz maxOwnedBytes : ℕ) : Stable (pocMarker csiz maxOwnedBytes) :=
  (stable_u16 _).bind fun _ => (Stable.check _ _).bind fun _ => (Stable.check _ _).bind fun _ =>
    (Stable.check _ _).bind fun _ => stable_readMany (stable_progressionChange csiz) _

theorem stable_rgnMarker (csiz : ℕ) : Stable (rgnMarker csiz) :=
  (stable_u16 _).bind fun _ => (Stable.check _ _).bind fun _ =>
    (stable_readComponentIndex csiz _).bind fun _ => (Stable.check _ _).bind fun _ =>
    (stable_byte _).bind fun _ => (stable_byte _).bind fun _ => Stable.pure _

theorem stable_applyStyle (scan : HeaderScan) (marker : HeaderMarker) :
    Stable (applyStyle scan marker) := by
  unfold applyStyle
  split
  · exact Stable.fail _
  · exact Stable.pure _

theorem stable_headerMarker (header : MainHeader) (code : ℕ) (scan : HeaderScan) :
    Stable (headerMarker header code scan) := by
  unfold headerMarker
  split_ifs
  · exact stable_codMarker.bind fun _ => stable_applyStyle _ _
  · exact (stable_cocMarker _).bind fun _ => stable_applyStyle _ _
  · exact stable_qcdMarker.bind fun _ => stable_applyStyle _ _
  · exact (stable_qccMarker _).bind fun _ => stable_applyStyle _ _
  · exact (stable_pocMarker _ _).bind fun _ => Stable.pure _
  · exact (stable_rgnMarker _).bind fun _ => (Stable.check _ _).bind fun _ =>
      (Stable.check _ _).bind fun _ => Stable.pure _
  · exact (Stable.check _ _).bind fun _ => stable_ppt.bind fun _ => Stable.pure _
  · exact (stable_plt _).bind fun _ => Stable.pure _
  · exact (stable_orFail markerSegmentPayload_stable).bind fun _ => Stable.pure _
  · exact Stable.pure _
  · exact Stable.fail _

end

/-! ## Headers and tile-parts -/

theorem readMarker_eq_some {data rest : List ℕ} {code : ℕ} :
    readMarker data = some (code,rest) ↔ data = 0xFF :: code :: rest := by
  constructor
  · intro h
    unfold readMarker at h
    split at h
    · cases h
      rfl
    · cases h
  · rintro rfl
    rfl

section
variable {header : MainHeader} {scan scan' : HeaderScan} {headerEnd : HeaderEnd} {data rest : List ℕ}

/-- A header that ends with SOD, or before EOC, is read alike before anything, or before EOC. -/
theorem headerLoop_stable {fuel : ℕ}
    (h : headerLoop header fuel scan data = .ok ((scan',headerEnd),rest))
    (hend : headerEnd ≠ .noMarker) :
    ∃ used, data = used++rest ∧ (headerEnd = .eoc → ∃ r, rest = 0xFF :: 0xD9 :: r) ∧
      ∀ fuel', used.length < fuel' → ∀ rest', (headerEnd = .eoc → ∃ r, rest' = 0xFF :: 0xD9 :: r) →
        headerLoop header fuel' scan (used++rest') = .ok ((scan',headerEnd),rest') := by
  induction fuel generalizing scan data with
  | zero => cases h
  | succ fuel ih =>
      unfold headerLoop at h
      split at h
      · cases h
        exact absurd rfl hend
      next code after hmarker =>
        obtain rfl := readMarker_eq_some.mp hmarker
        split_ifs at h with hsod heoc
        · cases h
          refine ⟨[0xFF,code],rfl,nofun,fun fuel' hfuel rest' _ => ?_⟩
          obtain ⟨fuel',rfl⟩ := Nat.exists_eq_add_of_lt hfuel
          exact if_pos hsod
        · cases h
          refine ⟨[],rfl,fun _ => ⟨after,by rw [heoc]⟩,fun fuel' hfuel rest' hrest' => ?_⟩
          obtain ⟨fuel',rfl⟩ := Nat.exists_eq_add_of_lt hfuel
          obtain ⟨r,rfl⟩ := hrest' rfl
          rfl
        · cases hsegment : headerMarker header code scan after with
          | error e =>
              rw [run_bind_error hsegment] at h
              cases h
          | ok p =>
              obtain ⟨scan₁,middle⟩ := p
              rw [run_bind_ok hsegment] at h
              obtain ⟨used₁,rfl,hused₁⟩ := stable_headerMarker header code scan _ _ _ hsegment
              obtain ⟨used₂,rfl,heoc',hused₂⟩ := ih h
              refine ⟨0xFF :: code :: (used₁++used₂),by simp,heoc',fun fuel' hfuel rest' hrest' => ?_⟩
              rw [List.length_cons,List.length_cons,List.length_append] at hfuel
              obtain ⟨fuel',rfl⟩ := Nat.exists_eq_succ_of_ne_zero (Nat.ne_of_gt (Nat.zero_lt_of_lt hfuel))
              rw [List.cons_append,List.cons_append,List.append_assoc]
              show (if code = _ then _ else if code = _ then _ else _) = _
              rw [if_neg hsod,if_neg heoc,run_bind_ok (hused₁ _)]
              exact hused₂ fuel' (by omega) rest' hrest'

/-- Where the loop finds no marker there is none. -/
theorem headerLoop_noMarker {fuel : ℕ}
    (h : headerLoop header fuel scan data = .ok ((scan',.noMarker),rest)) :
    readMarker rest = none := by
  induction fuel generalizing scan data with
  | zero => cases h
  | succ fuel ih =>
      unfold headerLoop at h
      split at h
      next hmarker =>
        cases h
        exact hmarker
      next code after hmarker =>
        split_ifs at h with hsod heoc
        · cases h
        · cases h
        · cases hsegment : headerMarker header code scan after with
          | error e =>
              rw [run_bind_error hsegment] at h
              cases h
          | ok p =>
              rw [run_bind_ok hsegment] at h
              exact ih h

theorem atSot_iff : atSot data = true ↔ ∃ r, data = 0xFF :: 0x90 :: r := by
  unfold atSot
  constructor
  · intro h
    split at h
    next code r hmarker =>
      obtain rfl := readMarker_eq_some.mp hmarker
      exact ⟨r,by rw [of_decide_eq_true h]⟩
    · cases h
  · rintro ⟨r,rfl⟩
    rfl

theorem sotMarker_stable {sot : TilePartHeader} (h : sotMarker data = some (sot,rest)) :
    ∃ used, data = used++rest ∧ ∀ rest', sotMarker (used++rest') = some (sot,rest') := by
  unfold sotMarker at h
  split at h
  next i₀ i₁ p₀ p₁ p₂ p₃ tilePartIndex numTileParts r =>
    cases h
    exact ⟨[0,10,i₀,i₁,p₀,p₁,p₂,p₃,tilePartIndex,numTileParts],rfl,fun _ => rfl⟩
  · cases h

variable {s s' : ParseState} {sot : TilePartHeader}

theorem dataLen_of_ne_zero {len : ℕ} (h : dataLen sot data = .ok len) (hne : sot.tilePartLength ≠ 0)
    (data' : List ℕ) : dataLen sot data' = .ok len := by
  unfold dataLen at h ⊢
  rw [if_neg hne] at h ⊢
  exact h

theorem dataLen_of_zero {len : ℕ} (h : dataLen sot data = .ok len) (hzero : sot.tilePartLength = 0) :
    len = data.length := by
  unfold dataLen at h
  rw [if_pos hzero] at h
  exact (Except.ok.inj h).symm

/-- The packet data of a tile-part are taken whatever follows. -/
theorem takeTilePart_stable {remaining : ℕ}
    (h : takeTilePart header s sot scan remaining data = .ok (s',rest)) :
    ∃ body, data = body++rest ∧ body.length = remaining ∧
      ∀ rest', takeTilePart header s sot scan remaining (body++rest') = .ok (s',rest') := by
  unfold takeTilePart at h
  split at h
  · cases h
  next headers ppmPacketIdx hheaders =>
    split at h
    · cases h
    next body after hbody =>
      cases h
      obtain ⟨used,rfl,hused⟩ := readBytes_stable _ _ _ _ hbody
      have hself := hused rest
      rw [readBytes] at hself
      split_ifs at hself with hlen
      have htake : (used++rest).take remaining = body := congrArg Prod.fst (Option.some.inj hself)
      have hdrop : (used++rest).drop remaining = rest := congrArg Prod.snd (Option.some.inj hself)
      have hbytes : used++rest = body++rest := by
        rw [← List.take_append_drop remaining (used++rest),htake,hdrop]
      obtain rfl : used = body := List.append_cancel_right hbytes
      refine ⟨used,rfl,?_,fun rest' => ?_⟩
      · rw [← htake,List.length_take_of_le hlen]
      · rw [takeTilePart,hheaders]
        dsimp only
        rw [hused]

/-- A tile-part before another one is read alike whatever the other one is. It has a length, and
its header ends with SOD or some packet data follow its header. -/
theorem tilePartBody_stable (h : tilePartBody header s sot data = .ok (s',rest))
    (hrest : atSot rest = true) :
    ∃ used, data = used++rest ∧
      ∀ rest', atSot rest' = true → tilePartBody header s sot (used++rest') = .ok (s',rest') := by
  obtain ⟨r,rfl⟩ := atSot_iff.mp hrest
  unfold tilePartBody at h
  split_ifs at h with hindex
  obtain ⟨len,hlen,h⟩ := bind_eq_ok.mp h
  split at h
  · cases h
  next tile htile =>
    obtain ⟨⟨⟨scan,headerEnd⟩,after⟩,hloop,h⟩ := bind_eq_ok.mp h
    dsimp only at h
    have hend : headerEnd ≠ .noMarker := by
      rintro rfl
      unfold finishTilePart at h
      rw [if_pos rfl] at h
      split_ifs at h
      cases h
      exact absurd (headerLoop_noMarker hloop) (by simp [readMarker])
    obtain ⟨used,rfl,heoc,hused⟩ := headerLoop_stable hloop hend
    have hconsumed (rest' : List ℕ) : (used++rest').length-rest'.length = used.length := by simp
    -- the whole tile-part, once its header and what follows it are known
    have hbody {body : List ℕ} (hsame : ∀ rest', atSot rest' = true →
          finishTilePart header s sot len used.length scan headerEnd (body++rest') =
            .ok (s',rest'))
        (heoc' : ∀ rest', atSot rest' = true → headerEnd = .eoc →
          ∃ r, body++rest' = 0xFF :: 0xD9 :: r)
        (hlen' : ∀ data', dataLen sot data' = .ok len) :
        ∀ rest', atSot rest' = true →
          tilePartBody header s sot ((used++body)++rest') = .ok (s',rest') := by
      intro rest' hrest'
      rw [List.append_assoc,tilePartBody,if_neg hindex]
      refine bind_eq_ok.mpr ⟨len,hlen' _,?_⟩
      rw [htile]
      refine bind_eq_ok.mpr ⟨((scan,headerEnd),body++rest'),
        hused _ (by rw [List.length_append]; omega) _ (heoc' rest' hrest'),?_⟩
      dsimp only
      rw [hconsumed]
      exact hsame rest' hrest'
    rw [hconsumed] at h
    unfold finishTilePart at h
    rw [if_neg hend] at h
    split_ifs at h with hlevels hshort hstrict
    · -- the header is longer than the tile-part
      cases h
      have hne : sot.tilePartLength ≠ 0 := fun hzero => by
        rw [dataLen_of_zero hlen hzero,List.length_append] at hshort
        omega
      have hsod : headerEnd ≠ .eoc := fun he => by
        obtain ⟨r',hr'⟩ := heoc he
        simp at hr'
      refine ⟨used,rfl,fun rest' hrest' => ?_⟩
      have hall := @hbody [] (fun rest' _ => by
        rw [finishTilePart,if_neg hend,if_neg hlevels,if_pos hshort,if_neg hstrict]
        rfl) (fun _ _ he => absurd he hsod) (dataLen_of_ne_zero hlen hne) rest' hrest'
      rw [List.append_nil] at hall
      exact hall
    · obtain ⟨body,rfl,hbodylen,htake⟩ := takeTilePart_stable h
      have hne : sot.tilePartLength ≠ 0 := fun hzero => by
        rw [dataLen_of_zero hlen hzero] at hbodylen
        simp at hbodylen
      refine ⟨used++body,(List.append_assoc ..).symm,hbody (fun rest' _ => ?_) (fun rest' _ he => ?_)
        (dataLen_of_ne_zero hlen hne)⟩
      · rw [finishTilePart,if_neg hend,if_neg hlevels,if_neg hshort]
        exact htake rest'
      · obtain ⟨r',hr'⟩ := heoc he
        -- EOC lies within the packet data, as the next tile-part starts with SOT
        match body, hr' with
        | [], hr' => simp at hr'
        | [_], hr' => simp at hr'
        | b₀ :: b₁ :: body, hr' =>
          simp only [List.cons_append,List.cons.injEq] at hr'
          exact ⟨body++rest',by rw [hr'.1,hr'.2.1]; rfl⟩

theorem parseTilePart_of_sot {sot : TilePartHeader} {body : List ℕ}
    (h : sotMarker data = some (sot,body)) :
    parseTilePart header s (0xFF :: 0x90 :: data) = tilePartBody header s sot body := by
  have hmarker : readMarker (0xFF :: 0x90 :: data) = some (PacketMarkers.markers.SOT,data) := rfl
  unfold parseTilePart
  rw [hmarker]
  dsimp only
  rw [if_neg (not_not.mpr rfl),h]

/-- A tile-part starts with SOT. -/
theorem parseTilePart_stable (h : parseTilePart header s data = .ok (s',rest))
    (hrest : atSot rest = true) :
    ∃ used, data = 0xFF :: 0x90 :: (used++rest) ∧ ∀ rest', atSot rest' = true →
      parseTilePart header s (0xFF :: 0x90 :: (used++rest')) = .ok (s',rest') := by
  unfold parseTilePart at h
  split at h
  · cases h
  next code after hmarker =>
    obtain rfl := readMarker_eq_some.mp hmarker
    split_ifs at h with hsot
    obtain rfl : code = PacketMarkers.markers.SOT := not_not.mp hsot
    split at h
    · cases h
    next sot body hheader =>
      obtain ⟨used,rfl,hused⟩ := sotMarker_stable hheader
      obtain ⟨used',rfl,hused'⟩ := tilePartBody_stable h hrest
      refine ⟨used++used',by simp,fun rest' hrest' => ?_⟩
      rw [List.append_assoc,parseTilePart_of_sot (hused _)]
      exact hused' rest' hrest'

end

end J2kNative.TilePartParsing
