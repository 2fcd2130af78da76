import J2kNative.PacketSteps

/-!
# Runs of packets

The packets of a tile are parsed one behind the other, over one tile part or over several. Between
two packets writer and reader agree on all places that still have packets to come.
-/
namespace J2kNative.PacketParsing
open BitStuffing Fallible TagTrees HtContributions ClassicSegments PacketAssembly
open PacketHeaders (PacketSubbandState formHeaderFields writeHeader)
open PacketPlan (PacketDescriptor)

/-! ## What a run of packets means -/

def progressionData (d : PacketDescriptor) : ProgressionData :=
  ⟨d.layer,d.resolution,d.component,d.precinct⟩

abbrev Contents := PacketPlace → List (List BlockContents)

def Storage.contents (storage : Storage) : Contents := fun place => (storage place).map (·.contents)

def receiveDescriptor (infos : List ComponentInfo) (packets : List ResolutionView) (c : Contents)
    (d : PacketDescriptor) : Option Contents := do
  let info ← infos[d.component]?
  let packet ← packets[d.packetIndex]?
  let contents ← receivePacket info.codeBlockStyle d.layer packet (c (progressionData d).place)
  some (Function.update c (progressionData d).place contents)

/-- What is held behind all packets, if every one of them can be taken. -/
def receivePackets (infos : List ComponentInfo) (packets : List ResolutionView)
    (descriptors : List PacketDescriptor) (c : Contents) : Option Contents :=
  descriptors.foldlM (receiveDescriptor infos packets) c

/-! ## The packets that were put together -/

/-- The headers and the bytes of packets from a sequence number on, with the states before the
first. -/
inductive Laid (packets : List ResolutionView) (options : PacketMarkerOptions) :
    ℕ → List PacketDescriptor → List (List PacketSubbandState) → List (List ℕ) → List (List ℕ) → Prop
  | nil (i : ℕ) (states : List (List PacketSubbandState)) : Laid packets options i [] states [] []
  | cons {i : ℕ} {d : PacketDescriptor} {descriptors : List PacketDescriptor}
      {states : List (List PacketSubbandState)} {headers pieces : List (List ℕ)}
      {packet : ResolutionView} {state : List PacketSubbandState}
      {header : PacketHeaders.HeaderFields} {capacity : ℕ} {bytes : List ℕ}
      (hpacket : packets[d.packetIndex]? = some packet) (hstate : states[d.stateIndex]? = some state)
      (hform : formHeaderFields (packet.map (·.packetData)) state d.layer options.writeEph = .ok header)
      (hwrite : writeHeader capacity options.writeEph header = .ok bytes)
      (hrest : Laid packets options (i + 1) descriptors (states.set d.stateIndex header.state) headers
        pieces) :
      Laid packets options i (d :: descriptors) states (bytes :: headers)
        (packetBytes options i bytes packet :: pieces)

section
variable {reserve : ℕ → ℕ} {packets : List ResolutionView} {options : PacketMarkerOptions}
variable {descriptors : List PacketDescriptor} {states : List (List PacketSubbandState)}
variable {headers pieces : List (List ℕ)} {i : ℕ}

theorem laid_of_plan {s plan : PacketAssemblyPlan}
    (h : descriptors.foldlM (planPacket reserve packets options) s = .ok plan) (i : ℕ) :
    ∃ headers pieces, plan.headers = s.headers ++ headers ∧
      plan.packetLengths.length = s.packetLengths.length + descriptors.length ∧
      Laid packets options i descriptors s.states headers pieces := by
  induction descriptors generalizing s i with
  | nil =>
      cases h
      exact ⟨[],[],by simp,rfl,.nil i _⟩
  | cons d descriptors ih =>
      rw [List.foldlM_cons] at h
      obtain ⟨s₁,hstep,h⟩ := bind_eq_ok.mp h
      unfold planPacket at hstep
      cases hpacket : packets[d.packetIndex]? with
      | none => simp [hpacket] at hstep
      | some packet =>
          cases hstate : s.states[d.stateIndex]? with
          | none => simp [hpacket,hstate] at hstep
          | some state =>
              rw [hpacket,hstate] at hstep
              obtain ⟨header,hform,hstep⟩ := bind_eq_ok.mp hstep
              obtain ⟨bytes,hwrite,hstep⟩ := bind_eq_ok.mp hstep
              obtain ⟨tilePacketLen,-,hstep⟩ := bind_eq_ok.mp hstep
              obtain ⟨signalled,-,hstep⟩ := bind_eq_ok.mp hstep
              obtain ⟨_,-,hstep⟩ := bind_eq_ok.mp hstep
              obtain ⟨tileLen,-,hstep⟩ := bind_eq_ok.mp hstep
              cases hstep
              obtain ⟨headers,pieces,hheaders,hlengths,hlaid⟩ := ih h (i + 1)
              refine ⟨bytes :: headers,_,?_,?_,.cons hpacket hstate hform hwrite hlaid⟩
              · rw [hheaders,List.append_assoc]
                rfl
              · rw [hlengths]
                simp only [List.length_append,List.length_cons,List.length_nil]
                omega

theorem Laid.assembled {plan : PacketAssemblyPlan} {before : List (List ℕ)} {data data' : List ℕ}
    (hlaid : Laid packets options i descriptors states headers pieces)
    (hheaders : plan.headers = before ++ headers) (hbefore : before.length = i)
    (h : (descriptors.zipIdx i).foldlM (assemblePacket packets plan options) data = .ok data') :
    data' = data ++ pieces.flatten ∧
      ∀ (k : ℕ) piece, pieces[k]? = some piece → plan.packetLengths[i + k]? = some piece.length := by
  induction hlaid generalizing before data with
  | nil i states =>
      cases h
      simp
  | @cons i d descriptors states headers pieces packet state header capacity bytes hpacket hstate hform
      hwrite hrest ih =>
      rw [List.zipIdx_cons,List.foldlM_cons] at h
      obtain ⟨data₁,hstep,h⟩ := bind_eq_ok.mp h
      unfold assemblePacket at hstep
      have hheader : plan.headers[i]? = some bytes := by
        rw [hheaders,List.getElem?_append_right (by omega),hbefore,Nat.sub_self]
        rfl
      dsimp only at hstep
      rw [hheader,hpacket] at hstep
      obtain ⟨_,hlength,hstep⟩ := bind_eq_ok.mp hstep
      have hlength := not_not.mp (refuse_eq_ok.mp hlength)
      cases hstep
      have hheaders' : plan.headers = (before ++ [bytes]) ++ headers := by
        rw [hheaders,List.append_assoc]
        rfl
      obtain ⟨hdata,hlengths⟩ := ih hheaders' (by simp [hbefore]) h
      refine ⟨?_,fun k piece hpiece => ?_⟩
      · rw [hdata,List.flatten_cons,List.append_assoc]
      · cases k with
        | zero =>
            cases hpiece
            exact hlength
        | succ k =>
            rw [← Nat.add_assoc,Nat.add_right_comm]
            exact hlengths k piece hpiece

theorem Laid.length_eq (hlaid : Laid packets options i descriptors states headers pieces) :
    pieces.length = descriptors.length := by
  induction hlaid with
  | nil => rfl
  | cons _ _ _ _ _ ih => exact congrArg (· + 1) ih

/-- A tile that was formed: its packets and their lengths. -/
theorem formTracked_laid {tile : PacketizedTileData}
    (h : formTracked reserve packets descriptors options = .ok tile) :
    ∃ states headers pieces, buildPacketStates packets descriptors = .ok states ∧
      Laid packets options 0 descriptors states headers pieces ∧ tile.data = pieces.flatten ∧
      tile.packetLengths = pieces.map List.length := by
  obtain ⟨states,hstates,h⟩ := bind_eq_ok.mp h
  obtain ⟨plan,hplan,h⟩ := bind_eq_ok.mp h
  obtain ⟨data,hdata,h⟩ := bind_eq_ok.mp h
  cases h
  obtain ⟨headers,pieces,hheaders,hcount,hlaid⟩ := laid_of_plan hplan 0
  obtain ⟨data',hassembled,hdata⟩ := bind_eq_ok.mp hdata
  obtain ⟨_,-,hdata⟩ := bind_eq_ok.mp hdata
  cases hdata
  obtain ⟨hflatten,hlengths⟩ := hlaid.assembled hheaders rfl hassembled
  refine ⟨states,headers,pieces,hstates,hlaid,hflatten,?_⟩
  have hlength : plan.packetLengths.length = pieces.length := by
    rw [hcount,hlaid.length_eq]
    exact Nat.zero_add _
  apply List.ext_getElem?
  intro k
  rw [List.getElem?_map]
  by_cases hk : k < pieces.length
  · rw [List.getElem?_eq_getElem hk,Option.map_some]
    have := hlengths k _ (List.getElem?_eq_getElem hk)
    rwa [Nat.zero_add] at this
  · rw [List.getElem?_eq_none (by dsimp only; omega),List.getElem?_eq_none (by omega)]
    rfl

end

/-! ## The run -/

/-- The packets to come for a state, each with its layer. -/
def comingTo (packets : List ResolutionView) (stateIndex : ℕ) (descriptors : List PacketDescriptor) :
    List (ℕ × ResolutionView) :=
  (descriptors.filter fun d => d.stateIndex = stateIndex).filterMap fun d =>
    packets[d.packetIndex]?.map fun packet => (d.layer,packet)

/-- Writer and reader agree on the places of the coming packets. -/
def RunAgrees (packets : List ResolutionView) (descriptors : List PacketDescriptor)
    (states : List (List PacketSubbandState)) (storage : Storage) : Prop :=
  ∀ d ∈ descriptors, ∀ e, states[d.stateIndex]? = some e →
    Agrees (comingTo packets d.stateIndex descriptors) e (storage (progressionData d).place)

/-- The descriptors come layer after layer at every place, and the components of the
decoder tell of the markers that are written. -/
structure Ordered (infos : List ComponentInfo) (options : PacketMarkerOptions)
    (descriptors : List PacketDescriptor) : Prop where
  layers : descriptors.Pairwise fun d d' => d.stateIndex = d'.stateIndex → d.layer < d'.layer
  bytes : ∀ d ∈ descriptors, d.layer < 256
  places : ∀ d ∈ descriptors, ∀ d' ∈ descriptors,
    d.stateIndex = d'.stateIndex ↔ (progressionData d).place = (progressionData d').place
  markers : ∀ d ∈ descriptors, ∀ info, infos[d.component]? = some info →
    (options.writeSop = true → info.mayUseSopMarkers = true) ∧ info.usesEphMarker = options.writeEph

section
variable {packets : List ResolutionView} {options : PacketMarkerOptions} {infos : List ComponentInfo}
variable {d : PacketDescriptor} {descriptors : List PacketDescriptor}
variable {states : List (List PacketSubbandState)} {storage : Storage} {packet : ResolutionView}

theorem Ordered.tail (h : Ordered infos options (d :: descriptors)) :
    Ordered infos options descriptors :=
  ⟨(List.pairwise_cons.mp h.layers).2,fun d' hd' => h.bytes d' (List.mem_cons_of_mem _ hd'),
    fun d₁ h₁ d₂ h₂ => h.places d₁ (List.mem_cons_of_mem _ h₁) d₂ (List.mem_cons_of_mem _ h₂),
    fun d' hd' => h.markers d' (List.mem_cons_of_mem _ hd')⟩

theorem comingTo_self (hpacket : packets[d.packetIndex]? = some packet) :
    comingTo packets d.stateIndex (d :: descriptors) =
      (d.layer,packet) :: comingTo packets d.stateIndex descriptors := by
  simp [comingTo,hpacket]

theorem comingTo_other {stateIndex : ℕ} (h : d.stateIndex ≠ stateIndex) :
    comingTo packets stateIndex (d :: descriptors) = comingTo packets stateIndex descriptors := by
  simp [comingTo,h]

theorem mem_comingTo {stateIndex : ℕ} {c : ℕ × ResolutionView}
    (h : c ∈ comingTo packets stateIndex descriptors) :
    ∃ d ∈ descriptors, d.stateIndex = stateIndex ∧ d.layer = c.1 ∧
      packets[d.packetIndex]? = some c.2 := by
  obtain ⟨d,hd,heq⟩ := List.mem_filterMap.mp h
  obtain ⟨packet,hpacket,rfl⟩ := Option.map_eq_some_iff.mp heq
  obtain ⟨hd,hstate⟩ := List.mem_filter.mp hd
  exact ⟨d,hd,of_decide_eq_true hstate,rfl,hpacket⟩

/-- Step lemma: behind a packet the agreement holds of those that are left. -/
theorem RunAgrees.step (hagree : RunAgrees packets (d :: descriptors) states storage)
    (hordered : Ordered infos options (d :: descriptors)) {state : List PacketSubbandState}
    {precincts : List Precinct}
    (hnew : Agrees (comingTo packets d.stateIndex descriptors) state precincts) :
    RunAgrees packets descriptors (states.set d.stateIndex state)
      (Function.update storage (progressionData d).place precincts) := by
  intro d' hd' e he
  have hplaces := hordered.places d List.mem_cons_self d' (List.mem_cons_of_mem _ hd')
  by_cases hsame : d.stateIndex = d'.stateIndex
  · rw [← hsame] at he ⊢
    rw [← hplaces.mp hsame,Function.update_self]
    rw [List.getElem?_set] at he
    simp only [if_true] at he
    split_ifs at he
    cases he
    exact hnew
  · have hother : (progressionData d').place ≠ (progressionData d).place := fun heq =>
      hsame (hplaces.mpr heq.symm)
    rw [Function.update_of_ne hother]
    rw [List.getElem?_set_ne hsame] at he
    have hold := hagree d' (List.mem_cons_of_mem _ hd') e he
    rwa [comingTo_other hsame] at hold

/-- The reader behind its data is done with the part. -/
theorem parseInner_end {progression : List ProgressionData} {data : List ℕ}
    {lengths : Option (List ℕ)} (hlengths : lengths.getD [] = []) (storage : Storage) :
    parseInner infos progression ⟨⟨data,8 * data.length⟩,lengths,storage⟩ =
      .ok (progression,storage) := by
  have hend : atEnd ⟨data,8 * data.length⟩ = true := by
    simp [atEnd]
  cases progression with
  | nil =>
      unfold parseInner
      rw [if_pos hend]
      exact if_pos hlengths
  | cons p progression =>
      unfold parseInner
      rw [if_pos hend]
      exact if_pos hlengths

theorem packetBytes_pos (sequence : ℕ) {state : List PacketSubbandState} {capacity layer : ℕ}
    {header : PacketHeaders.HeaderFields} {bytes : List ℕ}
    (hinline : options.separatePacketHeaders = false)
    (hform : formHeaderFields (packet.map (·.packetData)) state layer options.writeEph = .ok header)
    (hwrite : writeHeader capacity options.writeEph header = .ok bytes) :
    0 < (packetBytes options sequence bytes packet).length := by
  have hne := written_ne_nil (formHeaderFields_ne_nil hform)
  have hpos := List.length_pos_iff.mpr hne
  rw [packetBytes,writeHeader_eq hwrite,hinline]
  simp only [Bool.false_eq_true,if_false,List.length_append]
  omega

/-- Run lemma: the packets of a tile part, behind which the others are as before. -/
theorem Laid.parsed {i : ℕ} {headers pieces later : List (List ℕ)}
    {laterDescriptors : List PacketDescriptor} {c c' : Contents}
    (hlaid : Laid packets options i (descriptors ++ laterDescriptors) states headers (pieces ++ later))
    (hcount : pieces.length = descriptors.length) (hinline : options.separatePacketHeaders = false)
    (hordered : Ordered infos options (descriptors ++ laterDescriptors))
    (hagree : RunAgrees packets (descriptors ++ laterDescriptors) states storage)
    (hcontents : storage.contents = c)
    (hreceive : receivePackets infos packets descriptors c = some c') (keepLengths : Bool)
    (pre : List ℕ) (rest : List ProgressionData) :
    ∃ states' storage' headers', parseInner infos (descriptors.map progressionData ++ rest)
        ⟨⟨pre ++ pieces.flatten,8 * pre.length⟩,
          if keepLengths then some (pieces.map List.length) else none,storage⟩ =
        .ok (rest,storage') ∧
      Laid packets options (i + descriptors.length) laterDescriptors states' headers' later ∧
      Ordered infos options laterDescriptors ∧ RunAgrees packets laterDescriptors states' storage' ∧
      storage'.contents = c' := by
  induction descriptors generalizing i states headers pieces storage c pre with
  | nil =>
      cases List.length_eq_zero_iff.mp hcount
      cases hreceive
      refine ⟨states,storage,headers,?_,hlaid,hordered,hagree,hcontents⟩
      have hlengths : (if keepLengths then some ([] : List ℕ) else none).getD [] = [] := by
        cases keepLengths <;> rfl
      have hend : parseInner infos rest ⟨⟨pre,8 * pre.length⟩,_,storage⟩ = _ :=
        parseInner_end hlengths storage
      simpa using hend
  | cons d descriptors ih =>
      cases pieces with
      | nil => cases hcount
      | cons piece pieces =>
          cases hlaid with
          | @cons _ _ _ _ headers _ packet state header capacity bytes hpacket hstate hform hwrite
            hrest =>
              obtain ⟨c₁,hfirst,hreceive⟩ := Option.bind_eq_some_iff.mp hreceive
              unfold receiveDescriptor at hfirst
              obtain ⟨info,hinfo,hfirst⟩ := Option.bind_eq_some_iff.mp hfirst
              obtain ⟨packet',hpacket',hfirst⟩ := Option.bind_eq_some_iff.mp hfirst
              rw [hpacket] at hpacket'
              cases hpacket'
              obtain ⟨contents,hcontentsOf,hfirst⟩ := Option.bind_eq_some_iff.mp hfirst
              cases hfirst
              subst hcontents
              have hagreed := hagree d List.mem_cons_self state hstate
              rw [List.cons_append,comingTo_self hpacket] at hagreed
              have hbyte := hordered.bytes d List.mem_cons_self
              obtain ⟨hsop,heph⟩ := hordered.markers d List.mem_cons_self info hinfo
              have hlater : ∀ c ∈ comingTo packets d.stateIndex (descriptors ++ laterDescriptors),
                  d.layer < c.1 := by
                intro c hc
                obtain ⟨d',hd',hsame,hlayer,-⟩ := mem_comingTo hc
                rw [← hlayer]
                exact (List.pairwise_cons.mp hordered.layers).1 d' hd' hsame.symm
              have hlengths : validatePacketLength
                  (if keepLengths then some ((packetBytes options i bytes packet :: pieces).map
                    List.length) else none) (packetBytes options i bytes packet).length =
                  some (if keepLengths then some (pieces.map List.length) else none) := by
                cases keepLengths with
                | true => simp [validatePacketLength]
                | false => rfl
              obtain ⟨precincts',hparse,hagree',hcontents'⟩ :=
                parsePacket_reads (p := progressionData d)
                  hagreed (by omega) hlater hform hwrite hinline hinfo hsop heph rfl hcontentsOf
                  hlengths
              have hstorage : Storage.contents
                  (Function.update storage (progressionData d).place precincts') =
                  Function.update storage.contents (progressionData d).place contents := by
                funext place
                by_cases hplace : place = (progressionData d).place
                · rw [hplace,Function.update_self,← hcontents']
                  simp [Storage.contents]
                · rw [Function.update_of_ne hplace]
                  simp [Storage.contents,Function.update_of_ne hplace]
              obtain ⟨states',storage',headers',hrun,hlaid',hordered',hrunAgrees',hcontents''⟩ :=
                ih hrest (Nat.succ.inj hcount) hordered.tail (hagree.step hordered hagree') hstorage
                  hreceive (pre ++ packetBytes options i bytes packet)
              refine ⟨states',storage',headers',?_,?_,hordered',hrunAgrees',hcontents''⟩
              · have hopen : atEnd ⟨pre ++ (packetBytes options i bytes packet :: pieces).flatten,
                    8 * pre.length⟩ = false := by
                  have := packetBytes_pos i hinline hform hwrite
                  simp only [atEnd,List.length_append,List.flatten_cons,decide_eq_false_iff_not]
                  omega
                rw [List.map_cons,List.cons_append]
                unfold parseInner
                rw [hopen,if_neg Bool.false_ne_true]
                rw [List.flatten_cons,← List.append_assoc,hparse,ok_bind]
                exact hrun
              · rwa [List.length_cons,Nat.add_comm descriptors.length 1,← Nat.add_assoc]

end

end J2kNative.PacketParsing
