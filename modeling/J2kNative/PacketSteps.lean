import J2kNative.PacketReading

/-!
# Steps over packets

A packet as it was put together is parsed wherever it stands in a tile part: behind its markers and
its header the body is taken, and the precincts of its place hold what the packet means.
-/
namespace J2kNative.PacketParsing
open BitStuffing Fallible TagTrees HtContributions HtRoundTrip ClassicSegments PacketAssembly
open BitStuffing.BitReader (Presents presents_append)
open PacketHeaderWriter (align align_placeAfter markerFree_written header_iff writeFields_eq)
open PacketHeaders (PacketSubbandState SameLayout formBlocks formSubbands formHeaderFields
  writeHeader finishHeader)

/-! ## The precincts of a packet -/

/-- The contributions of the coming packets to their first sub-band. -/
def firstSubbands (coming : List (ℕ × ResolutionView)) : List (ℕ × SubbandView) :=
  coming.filterMap fun c => c.2.head?.map fun subband => (c.1,subband)

def laterSubbands (coming : List (ℕ × ResolutionView)) : List (ℕ × ResolutionView) :=
  coming.map fun c => (c.1,c.2.tail)

/-- Writer and reader agree on all precincts of a place. -/
def Agrees : List (ℕ × ResolutionView) → List PacketSubbandState → List Precinct → Prop
  | _, [], [] => True
  | coming, e :: states, p :: precincts =>
      (∃ f g bound, PrecinctAgrees (firstSubbands coming) e p f g bound) ∧
        Agrees (laterSubbands coming) states precincts
  | _, _, _ => False

/-- The bytes of a packet's body. -/
def packetData (packet : ResolutionView) : List ℕ :=
  packet.flatMap fun subband => subband.codeBlocks.flatMap bodyOf

section
variable {style : CodeBlockStyle} {layer : ℕ} {packet : ResolutionView}
variable {coming : List (ℕ × ResolutionView)} {states states' : List PacketSubbandState}
variable {precincts : List Precinct} {contents : List (List BlockContents)}
variable {fields : List HeaderField} {r r' : BitStuffing.BitReader} {bodyLen bodyLen' : ℕ}

theorem mem_firstSubbands {c : ℕ × SubbandView} (h : c ∈ firstSubbands coming) :
    ∃ c' ∈ coming, c'.1 = c.1 := by
  obtain ⟨c',hc',heq⟩ := List.mem_filterMap.mp h
  obtain ⟨subband,-,rfl⟩ := Option.map_eq_some_iff.mp heq
  exact ⟨c',hc',rfl⟩

theorem laterSubbands_later (hlater : ∀ c ∈ coming, layer < c.1) :
    ∀ c ∈ laterSubbands coming, layer < c.1 := by
  intro c hc
  obtain ⟨c',hc',rfl⟩ := List.mem_map.mp hc
  exact hlater c' hc'

/-- Run lemma: the precincts of a packet. -/
theorem formSubbands_reads (hagree : Agrees ((layer,packet) :: coming) states precincts)
    (hlayer : layer < (2 ^ 32 - 1) / 2) (hlater : ∀ c ∈ coming, layer < c.1)
    (hlayout : ∀ subband ∈ (packet.map (·.packetData)).zip states, SameLayout subband)
    (hreceive : receivePacket style layer packet (precincts.map (·.contents)) = some contents)
    (hform : formSubbands layer ((packet.map (·.packetData)).zip states) bodyLen =
      .ok (fields,states',bodyLen'))
    (hp : Presents r (bitsOfFields fields) r') :
    ∃ precincts', threadM (resolveSegments style layer) precincts r = .ok (precincts',r') ∧
      ∃ precincts'', Takes (threadM (readPrecinct layer)) precincts' (packetData packet) precincts'' ∧
        Agrees coming states' precincts'' ∧ precincts''.map (·.contents) = contents := by
  induction packet generalizing coming states precincts contents fields bodyLen states' r with
  | nil =>
      cases precincts with
      | cons p precincts => simp [receivePacket] at hreceive
      | nil =>
          cases states with
          | cons e states => cases hagree
          | nil =>
              cases hform
              cases hreceive
              cases hp
              exact ⟨[],rfl,[],.nil,trivial,rfl⟩
  | cons subband packet ih =>
      cases precincts with
      | nil => simp [receivePacket] at hreceive
      | cons p precincts =>
          cases states with
          | nil => cases hagree
          | cons e states =>
              obtain ⟨⟨f,g,bound,hprecinct⟩,hagree⟩ := hagree
              simp only [List.map_cons,receivePacket,Option.bind_eq_bind,Option.bind_eq_some_iff]
                at hreceive
              obtain ⟨c,hc,cs,hcs,hreceive⟩ := hreceive
              cases hreceive
              simp only [List.map_cons,List.zip_cons_cons,List.forall_mem_cons] at hlayout
              obtain ⟨hsame,hlayout⟩ := hlayout
              simp only [List.map_cons,List.zip_cons_cons,formSubbands] at hform
              obtain ⟨⟨fields₁,inclusion,zero,blocks,bodyLen₁⟩,hblocks,hform⟩ := bind_eq_ok.mp hform
              obtain ⟨⟨fields₂,states₂,bodyLen₂⟩,hrest,hform⟩ := bind_eq_ok.mp hform
              cases hform
              rw [bitsOfFields_append] at hp
              obtain ⟨r₁,hp₁,hp₂⟩ := presents_append.mp hp
              have hlength : e.codeBlocks.length = subband.codeBlocks.length := by
                have := hsame.2.2
                simpa [SubbandView.packetData] using this.symm
              obtain ⟨p',hresolve,p'',htakes,hprecinct',hcontents⟩ :=
                formPrecinct_reads hprecinct hlayer (fun c hc => by
                  obtain ⟨c',hc',heq⟩ := mem_firstSubbands hc
                  exact heq ▸ hlater c' hc') hlength hc hblocks hp₁
              obtain ⟨precincts',hthread,precincts'',htakes',hagree',hcontents'⟩ :=
                ih hagree (laterSubbands_later hlater) hlayout hcs hrest hp₂
              refine ⟨p' :: precincts',?_,p'' :: precincts'',htakes.cons htakes',
                ⟨⟨f,g,layer + 1,hprecinct'⟩,hagree'⟩,?_⟩
              · unfold threadM
                rw [hresolve,ok_bind]
                dsimp only
                rw [hthread]
                rfl
              · rw [List.map_cons,hcontents,hcontents']

/-- A packet without data leaves all precincts as they are. -/
theorem Agrees.idle (hagree : Agrees ((layer,packet) :: coming) states precincts)
    (hlayout : ∀ subband ∈ (packet.map (·.packetData)).zip states, SameLayout subband)
    (hviews : ∀ subband ∈ packet, ∀ view ∈ subband.codeBlocks, view.numCodingPasses = 0)
    (hreceive : receivePacket style layer packet (precincts.map (·.contents)) = some contents) :
    Agrees coming states precincts ∧ precincts.map (·.contents) = contents := by
  induction packet generalizing coming states precincts contents with
  | nil =>
      cases precincts with
      | cons p precincts => simp [receivePacket] at hreceive
      | nil =>
          cases states with
          | cons e states => cases hagree
          | nil => exact ⟨trivial,Option.some.inj hreceive⟩
  | cons subband packet ih =>
      cases precincts with
      | nil => simp [receivePacket] at hreceive
      | cons p precincts =>
          cases states with
          | nil => cases hagree
          | cons e states =>
              obtain ⟨⟨f,g,bound,hprecinct⟩,hagree⟩ := hagree
              simp only [List.map_cons,receivePacket,Option.bind_eq_bind,Option.bind_eq_some_iff]
                at hreceive
              obtain ⟨c,hc,cs,hcs,hreceive⟩ := hreceive
              cases hreceive
              simp only [List.map_cons,List.zip_cons_cons,List.forall_mem_cons] at hlayout
              obtain ⟨hsame,hlayout⟩ := hlayout
              obtain ⟨hsubband,hviews⟩ := List.forall_mem_cons.mp hviews
              have hlength : e.codeBlocks.length = subband.codeBlocks.length := by
                have := hsame.2.2
                simpa [SubbandView.packetData] using this.symm
              obtain ⟨hagree',hcontents⟩ := ih hagree hlayout hviews hcs
              refine ⟨⟨⟨f,g,bound,hprecinct.idle hlength hsubband⟩,hagree'⟩,?_⟩
              rw [List.map_cons,hcontents,Precinct.contents,receiveBlocks_idle hsubband hc]

theorem packetData_idle
    (hviews : ∀ subband ∈ packet, ∀ view ∈ subband.codeBlocks, view.numCodingPasses = 0) :
    packetData packet = [] := by
  simp only [packetData,List.flatMap_eq_nil_iff]
  intro subband hsubband view hview
  rw [bodyOf,if_neg (by have := hviews subband hsubband view hview; omega)]

/-- The body is appended block by block. -/
theorem packetBody_eq (packet : ResolutionView) : packetBody packet = packetData packet := by
  have hblocks : ∀ (views : List CodeBlockView) (data : List ℕ),
      (views.map fun b => (⟨b.numCodingPasses,b.data⟩ : PacketBody.EncodedCodeBlock)).foldl
        (fun data codeBlock =>
          if codeBlock.numCodingPasses > 0 then data ++ codeBlock.data else data) data =
      data ++ views.flatMap bodyOf := by
    intro views
    induction views with
    | nil => simp
    | cons view views ih =>
        intro data
        rw [List.map_cons,List.foldl_cons,ih,List.flatMap_cons,← List.append_assoc]
        congr 1
        by_cases h : view.numCodingPasses > 0 <;> simp [bodyOf,h]
  have hall : ∀ data, PacketBody.appendPacketBody data (packet.map fun subband =>
      subband.codeBlocks.map fun b => ⟨b.numCodingPasses,b.data⟩) = data ++ packetData packet := by
    unfold PacketBody.appendPacketBody packetData
    induction packet with
    | nil => simp
    | cons subband packet ih =>
        intro data
        rw [List.map_cons,List.foldl_cons,hblocks,ih,List.flatMap_cons,List.append_assoc]
  exact hall []

end

/-! ## Places in a tile part -/

section
variable {data pre post : List ℕ} {p p' : ℕ} {bits : List Bool}

theorem getElem?_within {i : ℕ} {byte : ℕ} (h : data[i]? = some byte) :
    (pre ++ data ++ post)[pre.length + i]? = some byte := by
  have hi := (List.getElem?_eq_some_iff.mp h).1
  rw [List.append_assoc,List.getElem?_append_right (Nat.le_add_right _ _),Nat.add_sub_cancel_left,
    List.getElem?_append_left hi,h]

theorem readBit_within {bit : Bool} {r' : BitStuffing.BitReader}
    (h : BitStuffing.BitReader.readBit ⟨data,p⟩ = some (bit,r')) :
    BitStuffing.BitReader.readBit ⟨pre ++ data ++ post,8 * pre.length + p⟩ =
      some (bit,⟨pre ++ data ++ post,8 * pre.length + r'.curPos⟩) ∧ r'.data = data := by
  obtain ⟨byte,hbyte,heq⟩ := Option.map_eq_some_iff.mp h
  cases heq
  have hplace : (8 * pre.length + p) / 8 = pre.length + p / 8 := by omega
  have hrest : (8 * pre.length + p) % 8 = p % 8 := by omega
  unfold BitStuffing.BitReader.readBit
  dsimp only at hbyte ⊢
  rw [hplace,hrest,getElem?_within hbyte]
  exact ⟨rfl,rfl⟩

theorem readStuffedBit_within {bit : Bool} {r' : BitStuffing.BitReader}
    (h : BitStuffing.BitReader.readStuffedBit ⟨data,p⟩ = some (bit,r')) :
    BitStuffing.BitReader.readStuffedBit ⟨pre ++ data ++ post,8 * pre.length + p⟩ =
      some (bit,⟨pre ++ data ++ post,8 * pre.length + r'.curPos⟩) ∧ r'.data = data := by
  unfold BitStuffing.BitReader.readStuffedBit at h ⊢
  dsimp only [Option.bind_eq_bind] at h ⊢
  obtain ⟨⟨bit',r₁⟩,hbit,h⟩ := Option.bind_eq_some_iff.mp h
  obtain ⟨hread,hdata⟩ := readBit_within hbit
  have hbyte : data[p / 8]? ≠ none := by
    intro hnone
    simp [BitStuffing.BitReader.readBit,hnone] at hbit
  obtain ⟨byte,hbyte⟩ := Option.ne_none_iff_exists'.mp hbyte
  have hneeds : BitStuffing.BitReader.needsToReadStuffBit ⟨pre ++ data ++ post,8 * pre.length + p⟩ =
      BitStuffing.BitReader.needsToReadStuffBit ⟨data,p⟩ := by
    have hplace : (8 * pre.length + p) / 8 = pre.length + p / 8 := by omega
    have hrest : (8 * pre.length + p) % 8 = p % 8 := by omega
    unfold BitStuffing.BitReader.needsToReadStuffBit
    dsimp only
    rw [hplace,hrest,getElem?_within hbyte,hbyte]
  rw [hread,hneeds]
  simp only [Option.bind_some]
  split_ifs at h ⊢ with hstuff
  · obtain ⟨r₂,hr₂,h⟩ := Option.bind_eq_some_iff.mp h
    cases h
    obtain ⟨⟨stuffBit,r₃⟩,hr₃,hzero⟩ := Option.bind_eq_some_iff.mp hr₂
    dsimp only at hzero
    cases stuffBit with
    | true => simp at hzero
    | false =>
        cases hzero
        cases r₁ with
        | mk data₁ p₁ =>
            cases hdata
            obtain ⟨hread₃,hdata₃⟩ := readBit_within hr₃
            unfold BitStuffing.BitReader.readStuffBit
            dsimp only [Option.bind_eq_bind]
            rw [hread₃]
            exact ⟨rfl,hdata₃⟩
  · cases h
    exact ⟨rfl,hdata⟩

/-- Bits that are presented of some data are presented wherever the data stand. -/
theorem presents_within (h : Presents ⟨data,p⟩ bits ⟨data,p'⟩) (pre post : List ℕ) :
    Presents ⟨pre ++ data ++ post,8 * pre.length + p⟩ bits
      ⟨pre ++ data ++ post,8 * pre.length + p'⟩ := by
  induction bits generalizing p with
  | nil =>
      cases h
      exact rfl
  | cons bit bits ih =>
      obtain ⟨⟨data₁,p₁⟩,hbit,hrest⟩ := h
      obtain ⟨hread,hdata⟩ := readStuffedBit_within hbit
      cases hdata
      exact ⟨_,hread,ih hrest⟩

theorem align_within {length : ℕ} (h : align ⟨data,p⟩ = ⟨data,8 * length⟩) (pre post : List ℕ) :
    align ⟨pre ++ data ++ post,8 * pre.length + p⟩ =
      ⟨pre ++ data ++ post,8 * (pre.length + length)⟩ := by
  unfold align at h ⊢
  dsimp only at h ⊢
  split_ifs at h ⊢ <;> simp only [BitStuffing.BitReader.mk.injEq,true_and] at h ⊢ <;> omega

end

/-! ## Markers -/

section
variable {info : ComponentInfo} {pre post : List ℕ}

theorem readByte_at (byte : ℕ) (pre post : List ℕ) :
    readByte ⟨pre ++ byte :: post,8 * pre.length⟩ =
      some (byte,⟨pre ++ byte :: post,8 * (pre.length + 1)⟩) := by
  have hplace : 8 * pre.length / 8 = pre.length := Nat.mul_div_cancel_left _ (by decide)
  unfold readByte
  dsimp only
  rw [hplace,List.getElem?_append_right le_rfl,Nat.sub_self]
  rfl

theorem readMarker_at (marker : ℕ) (pre post : List ℕ) :
    readMarker ⟨pre ++ 0xFF :: marker :: post,8 * pre.length⟩ =
      some (marker,⟨pre ++ 0xFF :: marker :: post,8 * (pre.length + 2)⟩) := by
  have hsecond := readByte_at marker (pre ++ [0xFF]) post
  simp only [List.append_assoc,List.singleton_append,List.length_append,List.length_singleton]
    at hsecond
  unfold readMarker
  rw [readByte_at]
  simp [hsecond,Nat.add_assoc]

/-- No header begins like a marker. -/
theorem peekMarker_header (pre post : List ℕ) {header : List ℕ}
    (hmarker : PacketHeaderWriter.MarkerFree header)
    (hlast : header.getLast? ≠ some 0xFF) (hne : header ≠ []) :
    peekMarker ⟨pre ++ header ++ post,8 * pre.length⟩ ≠ some 0x91 := by
  obtain ⟨first,rest,rfl⟩ := List.exists_cons_of_ne_nil hne
  have hfirst := readByte_at first pre (rest ++ post)
  unfold peekMarker readMarker
  rw [List.append_assoc,List.cons_append,hfirst]
  by_cases hff : first = 0xFF
  · subst hff
    cases rest with
    | nil => simp at hlast
    | cons second rest =>
        have hlow : second < 0x80 := (List.isChain_cons_cons.mp hmarker).1 rfl
        have hsecond := readByte_at second (pre ++ [0xFF]) (rest ++ post)
        simp only [List.append_assoc,List.singleton_append,List.length_append,List.length_singleton]
          at hsecond
        simp [hsecond]
        omega
  · simp [hff]

theorem skipSop_written (pre post : List ℕ) (sequence : ℕ) (hsop : info.mayUseSopMarkers = true) :
    skipSop info ⟨pre ++ sop sequence ++ post,8 * pre.length⟩ =
      .ok ⟨pre ++ sop sequence ++ post,8 * (pre ++ sop sequence).length⟩ := by
  have hmarker := readMarker_at 0x91 pre (0x00 :: 0x04 :: sequence % 65536 / 2 ^ 8 ::
    sequence % 65536 % 2 ^ 8 :: post)
  have hdata : pre ++ sop sequence ++ post = pre ++ 0xFF :: 0x91 :: 0x00 :: 0x04 ::
      sequence % 65536 / 2 ^ 8 :: sequence % 65536 % 2 ^ 8 :: post := by
    simp [sop]
  have hlength : (pre ++ sop sequence).length = pre.length + 6 := by
    simp [sop]
  have hplace : 8 * (pre.length + 2) / 8 = pre.length + 2 := Nat.mul_div_cancel_left _ (by decide)
  rw [hdata,hlength]
  unfold skipSop peekMarker
  rw [hmarker]
  simp only [hsop,Option.map_some,and_self,if_true,orError,ok_bind]
  unfold readBytes
  dsimp only
  rw [hplace,if_pos (by simp; omega)]
  simp only [ok_bind,Except.ok.injEq,BitStuffing.BitReader.mk.injEq,true_and]
  omega

/-- The bytes of the end of a header. -/
def ephBytes (writeEph : Bool) : List ℕ := if writeEph then [0xFF,0x92] else []

theorem readEph_written (pre post : List ℕ) (writeEph : Bool) (heph : info.usesEphMarker = writeEph) :
    readEph info ⟨pre ++ ephBytes writeEph ++ post,8 * pre.length⟩ =
      .ok ⟨pre ++ ephBytes writeEph ++ post,8 * (pre ++ ephBytes writeEph).length⟩ := by
  cases writeEph with
  | false => simp [readEph,heph,ephBytes]
  | true =>
      have hmarker := readMarker_at 0x92 pre post
      have hdata : pre ++ ephBytes true ++ post = pre ++ 0xFF :: 0x92 :: post := by
        simp [ephBytes]
      have hlength : (pre ++ ephBytes true).length = pre.length + 2 := by
        simp [ephBytes]
      rw [hdata,hlength]
      simp [readEph,heph,hmarker,orError]

end

/-- A written header: the bits of its fields and the marker of its end. -/
theorem writeHeader_eq {capacity : ℕ} {writeEph : Bool} {header : PacketHeaders.HeaderFields}
    {bytes : List ℕ} (h : writeHeader capacity writeEph header = .ok bytes) :
    bytes = written (bitsOfFields header.fields) ++ ephBytes writeEph := by
  obtain ⟨-,hlast,-⟩ := markerFree_written (bitsOfFields header.fields)
  obtain ⟨w,hw,h⟩ := bind_eq_ok.mp h
  obtain ⟨out,hout,h⟩ := bind_eq_ok.mp h
  rw [writeFields_eq] at hw
  obtain ⟨-,rfl⟩ := header_iff.mp (bind_eq_ok.mpr ⟨w,hw,hout⟩)
  unfold finishHeader at h
  rw [if_neg hlast,ok_bind] at h
  cases writeEph with
  | false =>
      cases h
      simp [ephBytes]
  | true =>
      obtain ⟨first,hfirst,hsecond⟩ := bind_eq_ok.mp h
      unfold PacketHeaders.budgetedPush at hfirst hsecond
      split_ifs at hfirst hsecond
      cases hfirst
      cases hsecond
      simp [ephBytes]

/-! ## One packet -/

section
variable {layer : ℕ} {packet : ResolutionView} {coming : List (ℕ × ResolutionView)}
variable {states : List PacketSubbandState} {contents : List (List BlockContents)}
variable {header : PacketHeaders.HeaderFields} {capacity : ℕ} {writeEph : Bool}

/-- What a formed header says of the packet. -/
theorem formHeaderFields_cases
    (h : formHeaderFields (packet.map (·.packetData)) states layer writeEph = .ok header) :
    (∀ subband ∈ (packet.map (·.packetData)).zip states, SameLayout subband) ∧
      ((∃ fields bodyLen, header.fields = (1,1) :: fields ∧
          formSubbands layer ((packet.map (·.packetData)).zip states) 0 =
            .ok (fields,header.state,bodyLen)) ∨
        (header.fields = [(0,1)] ∧ header.state = states ∧
          ∀ subband ∈ packet, ∀ view ∈ subband.codeBlocks, view.numCodingPasses = 0)) := by
  obtain ⟨_,hlayout,h⟩ := bind_eq_ok.mp h
  obtain ⟨planned,-,h⟩ := bind_eq_ok.mp h
  refine ⟨(PacketHeaders.validateStateLayout_ok hlayout).2,?_⟩
  by_cases hany : PacketHeaders.anyData (packet.map (·.packetData)) = true
  · rw [if_pos hany] at h
    obtain ⟨⟨fields,state,bodyLen⟩,hform,h⟩ := bind_eq_ok.mp h
    cases h
    exact .inl ⟨fields,bodyLen,rfl,hform⟩
  · rw [if_neg hany] at h
    cases h
    refine .inr ⟨rfl,rfl,fun subband hsubband view hview => ?_⟩
    by_contra hpasses
    apply hany
    simp only [PacketHeaders.anyData,List.any_eq_true,List.mem_map]
    refine ⟨_,⟨subband,hsubband,rfl⟩,view.packetData,List.mem_map_of_mem hview,?_⟩
    exact decide_eq_true (Nat.pos_of_ne_zero hpasses)

theorem formHeaderFields_ne_nil
    (h : formHeaderFields (packet.map (·.packetData)) states layer writeEph = .ok header) :
    bitsOfFields header.fields ≠ [] := by
  rcases (formHeaderFields_cases h).2 with ⟨fields,-,hfields,-⟩ | ⟨hfields,-⟩
  · rw [hfields]
    exact List.cons_ne_nil _ _
  · rw [hfields]
    exact List.cons_ne_nil _ _

theorem written_ne_nil {bits : List Bool} (h : bits ≠ []) : written bits ≠ [] := by
  intro hnil
  have hle := (presents_written [] bits []).length_le h
  simp only [List.nil_append,List.append_nil,hnil,List.length_nil,Nat.mul_zero,Nat.le_zero] at hle
  exact h (List.length_eq_zero_iff.mp (Nat.eq_zero_of_add_eq_zero_left hle))

variable {infos : List ComponentInfo} {info : ComponentInfo} {p : ProgressionData}
variable {storage : Storage} {lengths lengths' : Option (List ℕ)} {options : PacketMarkerOptions}
variable {bytes pre post : List ℕ} {sequence : ℕ}

/-- Step lemma: one packet, anywhere in a tile part. -/
theorem parsePacket_reads (hagree : Agrees ((layer,packet) :: coming) states (storage p.place))
    (hlayer : layer < (2 ^ 32 - 1) / 2) (hlater : ∀ c ∈ coming, layer < c.1)
    (hform : formHeaderFields (packet.map (·.packetData)) states layer options.writeEph = .ok header)
    (hwrite : writeHeader capacity options.writeEph header = .ok bytes)
    (hinline : options.separatePacketHeaders = false)
    (hinfo : infos[p.component]? = some info)
    (hsop : options.writeSop = true → info.mayUseSopMarkers = true)
    (heph : info.usesEphMarker = options.writeEph) (hp : p.layerNum = layer)
    (hreceive : receivePacket info.codeBlockStyle layer packet
      ((storage p.place).map (·.contents)) = some contents)
    (hlengths : validatePacketLength lengths (packetBytes options sequence bytes packet).length =
      some lengths') :
    ∃ precincts', parsePacket infos p
        ⟨⟨pre ++ packetBytes options sequence bytes packet ++ post,8 * pre.length⟩,lengths,storage⟩ =
      .ok ⟨⟨pre ++ packetBytes options sequence bytes packet ++ post,
          8 * (pre ++ packetBytes options sequence bytes packet).length⟩,lengths',
        Function.update storage p.place precincts'⟩ ∧
      Agrees coming header.state precincts' ∧ precincts'.map (·.contents) = contents := by
  have hbytes := writeHeader_eq hwrite
  obtain ⟨hlayout,hcases⟩ := formHeaderFields_cases hform
  obtain ⟨hmarker,hlast,-⟩ := markerFree_written (bitsOfFields header.fields)
  subst hp
  -- the parts of the packet, one behind the other
  obtain ⟨front,hfront⟩ : ∃ front, front = if options.writeSop then sop sequence else [] := ⟨_,rfl⟩
  obtain ⟨head,hhead⟩ : ∃ head, head = written (bitsOfFields header.fields) := ⟨_,rfl⟩
  have hpiece : packetBytes options sequence bytes packet =
      front ++ head ++ ephBytes options.writeEph ++ packetData packet := by
    simp [packetBytes,hinline,hbytes,packetBody_eq,hfront,hhead]
  rw [hpiece] at hlengths ⊢
  have hne : head ≠ [] := hhead ▸ written_ne_nil (formHeaderFields_ne_nil hform)
  obtain ⟨data,hdata⟩ : ∃ data, data =
      pre ++ (front ++ head ++ ephBytes options.writeEph ++ packetData packet) ++ post := ⟨_,rfl⟩
  rw [← hdata]
  have hskip : skipSop info ⟨data,8 * pre.length⟩ = .ok ⟨data,8 * (pre ++ front).length⟩ := by
    rw [hdata]
    cases hwriteSop : options.writeSop with
    | true =>
        rw [hwriteSop,if_pos rfl] at hfront
        have hskip := skipSop_written pre
          (head ++ ephBytes options.writeEph ++ packetData packet ++ post) sequence (hsop hwriteSop)
        rw [hfront]
        simpa [List.append_assoc] using hskip
    | false =>
        rw [hwriteSop] at hfront
        have hpeek := peekMarker_header pre (ephBytes options.writeEph ++ packetData packet ++ post)
          (hhead ▸ hmarker) (hhead ▸ hlast) hne
        rw [hfront]
        unfold skipSop
        rw [if_neg]
        · simp
        · simpa [List.append_assoc] using fun _ => hpeek
  have hheader : Presents ⟨data,8 * (pre ++ front).length⟩ (bitsOfFields header.fields)
      ⟨data,8 * (pre ++ front).length + placeAfter (bitsOfFields header.fields)⟩ := by
    have hwritten := presents_written [] (bitsOfFields header.fields) []
    simp only [List.nil_append,List.append_nil,← hhead] at hwritten
    have hshifted := presents_within hwritten (pre ++ front)
      (ephBytes options.writeEph ++ packetData packet ++ post)
    have hplace : placeAfter [] = 0 := rfl
    rw [hplace] at hshifted
    rw [hdata]
    simpa [List.append_assoc] using hshifted
  have halign : align ⟨data,8 * (pre ++ front).length + placeAfter (bitsOfFields header.fields)⟩ =
      ⟨data,8 * (pre ++ front ++ head).length⟩ := by
    have hend := align_placeAfter (bitsOfFields header.fields)
    rw [← hhead] at hend
    have hshifted := align_within hend (pre ++ front)
      (ephBytes options.writeEph ++ packetData packet ++ post)
    rw [hdata]
    simpa [List.append_assoc,Nat.add_assoc] using hshifted
  generalize 8 * (pre ++ front).length + placeAfter (bitsOfFields header.fields) = place
    at hheader halign
  have hend : readEph info ⟨data,8 * (pre ++ front ++ head).length⟩ =
      .ok ⟨data,8 * (pre ++ front ++ head ++ ephBytes options.writeEph).length⟩ := by
    have hread := readEph_written (pre ++ front ++ head) (packetData packet ++ post)
      options.writeEph heph
    rw [hdata]
    simpa [List.append_assoc] using hread
  have hlength : 8 * (pre ++ front ++ head ++ ephBytes options.writeEph ++ packetData packet).length / 8 -
      8 * pre.length / 8 =
      (front ++ head ++ ephBytes options.writeEph ++ packetData packet).length := by
    simp only [Nat.mul_div_cancel_left _ (show 0 < 8 by decide),List.length_append]
    omega
  have hplace : pre ++ (front ++ head ++ ephBytes options.writeEph ++ packetData packet) =
      pre ++ front ++ head ++ ephBytes options.writeEph ++ packetData packet := by
    simp [List.append_assoc]
  rw [hplace]
  rcases hcases with ⟨fields,bodyLen,hfields,hsubbands⟩ | ⟨hfields,hstate,hviews⟩
  · rw [hfields,bitsOfFields_cons] at hheader
    obtain ⟨r₁,hflag,hheader⟩ := presents_append.mp hheader
    have hread := readBits_field hflag (by decide) (by decide)
    obtain ⟨precincts',hresolve,precincts'',htakes,hagree',hcontents⟩ :=
      formSubbands_reads hagree hlayer hlater hlayout hreceive hsubbands hheader
    have hbody := htakes (pre ++ front ++ head ++ ephBytes options.writeEph) post
    have hsame : pre ++ front ++ head ++ ephBytes options.writeEph ++ packetData packet ++ post =
        data := by
      rw [hdata,hplace]
    rw [hsame] at hbody
    refine ⟨precincts'',?_,hagree',hcontents⟩
    unfold parsePacket
    rw [hinfo]
    dsimp only
    rw [hskip,ok_bind,hread]
    simp only [orError,ok_bind,Nat.one_ne_zero,if_false]
    rw [hresolve]
    simp only [ok_bind]
    rw [halign,hend]
    simp only [ok_bind]
    rw [hbody]
    simp only [ok_bind]
    rw [hlength,hlengths]
    rfl
  · obtain ⟨hagree',hcontents⟩ := hagree.idle hlayout hviews hreceive
    have hbody := packetData_idle hviews
    rw [hfields,bitsOfFields_cons,bitsOfFields_nil,List.append_nil] at hheader
    have hread := readBits_field hheader (by decide) (by decide)
    rw [hstate]
    refine ⟨storage p.place,?_,hagree',hcontents⟩
    unfold parsePacket
    rw [hinfo]
    dsimp only
    rw [hskip,ok_bind,hread]
    simp only [orError,ok_bind,if_true]
    rw [halign,hend]
    simp only [ok_bind]
    rw [hbody,List.append_nil,List.append_nil] at hlength
    rw [hbody,List.append_nil] at hlengths ⊢
    rw [hlength,hlengths]
    rfl

end

end J2kNative.PacketParsing
