import Mathlib.Data.List.Nodup
import J2kNative.Fallible
import J2kNative.TableNormalization

/-!
# The tables of an assembled stream

Reading the assembled stream up to the tile body finds each table of the shared stream once
and leaves the same bytes for each of them.
-/
namespace J2kNative.TableNormalization
open JpegSegmentIter BitReader Fallible

/-! ## Definitions -/

/-- Bytes that read as one definition, whatever follows them and wherever they stand. -/
def IsDefinition (marker : ℕ) (key : TableKey) (bytes : List ℕ) : Prop :=
  bytes ≠ [] ∧ ∀ payloadOffset payloadLen rest, ∃ offset,
    definitionAt marker payloadOffset payloadLen (bytes++rest) = .ok ⟨key,offset,bytes⟩

section
variable {rest rest' : List ℕ} {payloadOffset payloadLen marker n : ℕ} {d : TableDefinition}

theorem take_take_append {k : ℕ} (hk : k ≤ n) (hn : n ≤ rest.length) :
    (rest.take n++rest').take k = rest.take k := by
  rw [List.take_append_of_le_length (by rw [List.length_take]; omega),List.take_take,
    min_eq_left hk]

theorem byteAt_take_append (hn : n ≤ rest.length) (hpos : 0 < n) :
    byteAt (rest.take n++rest') 0 = byteAt rest 0 := by
  cases rest with
  | nil => exact absurd hn (by simp; omega)
  | cons b rest =>
      cases n with
      | zero => exact absurd hpos (lt_irrefl 0)
      | succ n => rfl

theorem dqtDefinition_local (h : dqtDefinition payloadOffset payloadLen rest = .ok d) :
    ∃ n, 0 < n ∧ n ≤ rest.length ∧ d.bytes = rest.take n ∧ ∀ payloadOffset' payloadLen' rest',
      ∃ offset, dqtDefinition payloadOffset' payloadLen' (d.bytes++rest') =
        .ok ⟨d.key,offset,d.bytes⟩ := by
  unfold dqtDefinition at h
  dsimp only at h
  split_ifs at h with hid hprecision hlen
  cases h
  refine ⟨_,by omega,Nat.not_lt.mp hlen,rfl,fun payloadOffset' payloadLen' rest' => ?_⟩
  have hlen' := Nat.not_lt.mp hlen
  have hbyte := @byteAt_take_append rest rest' _ hlen' (by omega)
  unfold dqtDefinition
  dsimp only
  rw [hbyte,if_neg hid,if_neg hprecision,if_neg (by rw [List.length_append,List.length_take]; omega),
    take_take_append le_rfl hlen']
  exact ⟨_,rfl⟩

theorem dhtDefinition_local (h : dhtDefinition payloadOffset payloadLen rest = .ok d) :
    ∃ n, 0 < n ∧ n ≤ rest.length ∧ d.bytes = rest.take n ∧ ∀ payloadOffset' payloadLen' rest',
      ∃ offset, dhtDefinition payloadOffset' payloadLen' (d.bytes++rest') =
        .ok ⟨d.key,offset,d.bytes⟩ := by
  unfold dhtDefinition at h
  dsimp only at h
  split_ifs at h with hshort hid hcount hlen
  all_goals
    cases h
    refine ⟨_,by omega,Nat.not_lt.mp hlen,rfl,fun payloadOffset' payloadLen' rest' => ?_⟩
    have hlen' := Nat.not_lt.mp hlen
    have hbyte := @byteAt_take_append rest rest' _ hlen' (by omega)
    have hhead : (rest.take (17+((rest.take 17).drop 1).foldl (·+·) 0)++rest').take 17 = rest.take 17 :=
      take_take_append (by omega) hlen'
    unfold dhtDefinition
    dsimp only
    rw [hbyte,hhead,if_neg (by rw [List.length_append,List.length_take]; omega),if_neg hid,
      if_neg hcount,if_neg (by rw [List.length_append,List.length_take]; omega),
      take_take_append le_rfl hlen']
    first | exact ⟨_,rfl⟩ | simp_all

/-- A definition that is found is one wherever it stands. -/
theorem definitionAt_spec (h : definitionAt marker payloadOffset payloadLen rest = .ok d) :
    (∃ after, rest = d.bytes++after) ∧ IsDefinition marker d.key d.bytes := by
  have hlocal : ∃ n, 0 < n ∧ n ≤ rest.length ∧ d.bytes = rest.take n ∧
      ∀ payloadOffset' payloadLen' rest', ∃ offset,
        definitionAt marker payloadOffset' payloadLen' (d.bytes++rest') =
          .ok ⟨d.key,offset,d.bytes⟩ := by
    unfold definitionAt at h ⊢
    split_ifs at h ⊢
    · exact dqtDefinition_local h
    · exact dhtDefinition_local h
  obtain ⟨n,hpos,hn,hbytes,hall⟩ := hlocal
  refine ⟨⟨rest.drop n,by rw [hbytes,List.take_append_drop]⟩,fun hnil => ?_,hall⟩
  have hlength := congrArg List.length hbytes
  rw [hnil,List.length_take] at hlength
  simp only [List.length_nil] at hlength
  omega

end

/-- What a definition says of which table. -/
def TableDefinition.content (d : TableDefinition) : TableKey × List ℕ := (d.key,d.bytes)

section
variable {σ : Type} {visit : σ → TableDefinition → Except TableError σ} {s s' : σ}
  {marker payloadOffset payloadLen : ℕ}

/-- A loop that succeeds has visited definitions that make up its payload. -/
theorem definitionLoop_eq_ok {fuel : ℕ} {rest : List ℕ} (hfuel : rest.length ≤ fuel)
    (h : definitionLoop (definitionAt marker payloadOffset payloadLen) visit fuel rest s = .ok s') :
    ∃ ds : List TableDefinition, rest = (ds.map TableDefinition.bytes).flatten ∧
      (∀ d ∈ ds, IsDefinition marker d.key d.bytes) ∧ ds.foldlM visit s = .ok s' := by
  induction fuel generalizing rest s with
  | zero =>
      cases h
      exact ⟨[],List.eq_nil_of_length_eq_zero (Nat.le_zero.mp hfuel),nofun,rfl⟩
  | succ fuel ih =>
      unfold definitionLoop at h
      split_ifs at h with hnil
      · cases h
        exact ⟨[],hnil,nofun,rfl⟩
      · obtain ⟨d,hd,h⟩ := bind_eq_ok.mp h
        obtain ⟨s₁,hs₁,h⟩ := bind_eq_ok.mp h
        obtain ⟨⟨after,rfl⟩,hdefinition⟩ := definitionAt_spec hd
        rw [List.drop_left] at h
        have hpos := List.length_pos_of_ne_nil hdefinition.1
        rw [List.length_append] at hfuel
        obtain ⟨ds,hafter,hall,hfold⟩ := ih (by omega) h
        refine ⟨d :: ds,by rw [hafter]; rfl,?_,?_⟩
        · rintro d' (_ | ⟨_,hmem⟩)
          · exact hdefinition
          · exact hall d' hmem
        · exact bind_eq_ok.mpr ⟨s₁,hs₁,hfold⟩

/-- A payload made up of definitions is visited so. -/
theorem definitionLoop_flatten {contents : List (TableKey × List ℕ)}
    (h : ∀ c ∈ contents, IsDefinition marker c.1 c.2) {fuel : ℕ}
    (hfuel : (contents.map Prod.snd).flatten.length ≤ fuel) :
    ∃ ds : List TableDefinition, ds.map TableDefinition.content = contents ∧
      ∀ s : σ, definitionLoop (definitionAt marker payloadOffset payloadLen) visit fuel
        (contents.map Prod.snd).flatten s = ds.foldlM visit s := by
  induction contents generalizing fuel with
  | nil =>
      refine ⟨[],rfl,fun s => ?_⟩
      cases fuel <;> rfl
  | cons c contents ih =>
      obtain ⟨hne,hdefinition⟩ := h c List.mem_cons_self
      have hpos := List.length_pos_of_ne_nil hne
      rw [List.map_cons,List.flatten_cons,List.length_append] at hfuel
      obtain ⟨fuel,rfl⟩ := Nat.exists_eq_add_of_lt (show 0 < fuel by omega)
      rw [Nat.zero_add] at hfuel ⊢
      obtain ⟨ds,hcontents,hfold⟩ := ih (fun c' hc' => h c' (List.mem_cons_of_mem _ hc'))
        (show _ ≤ fuel by omega)
      obtain ⟨offset,hfound⟩ := hdefinition payloadOffset payloadLen (contents.map Prod.snd).flatten
      refine ⟨⟨c.1,offset,c.2⟩ :: ds,by rw [List.map_cons,hcontents]; rfl,fun s => ?_⟩
      rw [List.map_cons,List.flatten_cons,definitionLoop,
        if_neg (by rw [List.append_eq_nil_iff]; exact fun hnil => hne hnil.1),hfound,ok_bind,
        List.foldlM_cons]
      refine bind_congr fun s₁ => ?_
      rw [List.drop_left]
      exact hfold s₁

end

/-! ## Slots -/

/-- Each definition replaces the table of its slot. -/
def setAll (slots : Slots) (contents : List (TableKey × List ℕ)) : Slots :=
  contents.foldl (fun slots c => Function.update slots c.1 (some c.2)) slots

theorem setAll_append (slots : Slots) (contents contents' : List (TableKey × List ℕ)) :
    setAll slots (contents++contents') = setAll (setAll slots contents) contents' :=
  List.foldl_append

/-- A walk over definitions that keeps those of new tables. -/
structure Walk (slots slots' : Slots) (contents kept : List (TableKey × List ℕ)) : Prop where
  seen : slots' = setAll slots contents
  left : slots' = setAll slots kept
  fresh : ∀ c ∈ kept, slots c.1 = none
  nodup : (kept.map Prod.fst).Nodup
  stable : ∀ key bytes, slots key = some bytes → slots' key = some bytes
  agree : ∀ c ∈ contents, slots' c.1 = some c.2
  sub : ∀ c ∈ kept, c ∈ contents

theorem Walk.refl (slots : Slots) : Walk slots slots [] [] :=
  ⟨rfl,rfl,nofun,.nil,fun _ _ h => h,nofun,nofun⟩

theorem Walk.trans {slots slots₁ slots₂ : Slots} {contents contents' kept kept' : List (TableKey × List ℕ)}
    (h : Walk slots slots₁ contents kept) (h' : Walk slots₁ slots₂ contents' kept') :
    Walk slots slots₂ (contents++contents') (kept++kept') where
  seen := by rw [setAll_append,← h.seen,h'.seen]
  left := by rw [setAll_append,← h.left,h'.left]
  fresh := by
    intro c hc
    rcases List.mem_append.mp hc with hc | hc
    · exact h.fresh c hc
    · cases hslot : slots c.1 with
      | none => rfl
      | some bytes =>
          have hsome := h.stable _ _ hslot
          rw [h'.fresh c hc] at hsome
          cases hsome
  nodup := by
    rw [List.map_append]
    refine h.nodup.append h'.nodup fun key hkey hkey' => ?_
    obtain ⟨c,hc,rfl⟩ := List.mem_map.mp hkey
    obtain ⟨c',hc',hsame⟩ := List.mem_map.mp hkey'
    have hsome := h.agree c (h.sub c hc)
    rw [← hsame,h'.fresh c' hc'] at hsome
    cases hsome
  stable := fun key bytes hsome => h'.stable key bytes (h.stable key bytes hsome)
  agree := by
    intro c hc
    rcases List.mem_append.mp hc with hc | hc
    · exact h'.stable _ _ (h.agree c hc)
    · exact h'.agree c hc
  sub := by
    intro c hc
    rcases List.mem_append.mp hc with hc | hc
    · exact List.mem_append_left _ (h.sub c hc)
    · exact List.mem_append_right _ (h'.sub c hc)

/-- A definition that a table has already. -/
theorem walk_duplicate {slots : Slots} {c : TableKey × List ℕ} (h : slots c.1 = some c.2) :
    Walk slots slots [c] [] := by
  refine ⟨(Function.update_eq_self_iff.mpr h.symm).symm,rfl,nofun,.nil,fun _ _ h => h,?_,nofun⟩
  intro c' hc'
  rw [List.mem_singleton.mp hc']
  exact h

/-- The definition of a new table. -/
theorem walk_new {slots : Slots} {c : TableKey × List ℕ} (h : slots c.1 = none) :
    Walk slots (Function.update slots c.1 (some c.2)) [c] [c] := by
  refine ⟨rfl,rfl,?_,List.nodup_singleton _,?_,?_,fun _ h => h⟩
  · intro c' hc'
    rw [List.mem_singleton.mp hc']
    exact h
  · intro key bytes hsome
    by_cases hkey : key = c.1
    · rw [hkey,h] at hsome
      cases hsome
    · rwa [Function.update_of_ne hkey]
  · intro c' hc'
    rw [List.mem_singleton.mp hc']
    exact Function.update_self ..

theorem Filter.observe_cases {f f' : Filter} {d : TableDefinition}
    (h : f.observe .allowIdentical d = .ok f') :
    f.slots d.key = some d.bytes ∧ f' = { f with filteredDuplicate := true } ∨
    f.slots d.key = none ∧ f' = ⟨Function.update f.slots d.key (some d.bytes),
      f.definitions++[d.bytes],f.payloadLen+d.bytes.length,f.filteredDuplicate⟩ := by
  unfold Filter.observe at h
  split at h
  next existing hsome =>
    split_ifs at h with hne hpolicy
    · cases h
      rw [not_not] at hne
      exact .inl ⟨hne ▸ hsome,rfl⟩
    · exact absurd rfl hpolicy
  next hnone =>
    unfold Filter.keep at h
    split_ifs at h with hpolicy hcapacity
    · cases h
      exact .inr ⟨hnone,rfl⟩
    · exact absurd rfl hpolicy

/-- What the filter has kept of the definitions that it has seen. -/
theorem filter_foldlM {ds : List TableDefinition} {f f' : Filter}
    (h : ds.foldlM (Filter.observe .allowIdentical) f = .ok f') :
    ∃ kept, Walk f.slots f'.slots (ds.map TableDefinition.content) kept ∧
      f'.definitions = f.definitions++kept.map Prod.snd ∧
      f'.payloadLen = f.payloadLen+(kept.map Prod.snd).flatten.length ∧
      (f'.filteredDuplicate = false →
        f.filteredDuplicate = false ∧ kept = ds.map TableDefinition.content) := by
  induction ds generalizing f with
  | nil =>
      cases h
      exact ⟨[],.refl _,(List.append_nil _).symm,rfl,fun h => ⟨h,rfl⟩⟩
  | cons d ds ih =>
      obtain ⟨f₁,hfirst,h⟩ := bind_eq_ok.mp h
      obtain ⟨kept,hwalk,hdefinitions,hlen,hall⟩ := ih h
      rcases Filter.observe_cases hfirst with ⟨hslot,rfl⟩ | ⟨hslot,rfl⟩
      · exact ⟨kept,(walk_duplicate (c := d.content) hslot).trans hwalk,hdefinitions,hlen,
          fun hfalse => absurd (hall hfalse).1 Bool.noConfusion⟩
      · refine ⟨d.content :: kept,(walk_new (c := d.content) hslot).trans hwalk,?_,?_,
          fun hfalse => ⟨(hall hfalse).1,by rw [(hall hfalse).2]; rfl⟩⟩
        · rw [hdefinitions]
          exact List.append_assoc ..
        · rw [hlen,List.map_cons,List.flatten_cons,List.length_append]
          exact Nat.add_assoc ..

/-! ## Definitions in segments -/

/-- The definitions in segments with some markers and payloads. -/
inductive Defines : List (ℕ × List ℕ) → List (TableKey × List ℕ) → Prop
  | nil : Defines [] []
  | other {marker : ℕ} {payload : List ℕ} {l : List (ℕ × List ℕ)}
      {contents : List (TableKey × List ℕ)} : isTable marker = false → Defines l contents →
      Defines ((marker,payload) :: l) contents
  | table {marker : ℕ} {l : List (ℕ × List ℕ)} {own contents : List (TableKey × List ℕ)} :
      isTable marker = true → (own.map Prod.snd).flatten ≠ [] →
      (∀ c ∈ own, IsDefinition marker c.1 c.2) → Defines l contents →
      Defines ((marker,(own.map Prod.snd).flatten) :: l) (own++contents)

theorem Defines.append {l l' : List (ℕ × List ℕ)} {contents contents' : List (TableKey × List ℕ)}
    (h : Defines l contents) (h' : Defines l' contents') :
    Defines (l++l') (contents++contents') := by
  induction h with
  | nil => exact h'
  | other hmarker _ ih => exact .other hmarker ih
  | table hmarker hne hall _ ih =>
      rw [List.append_assoc]
      exact .table hmarker hne hall ih

/-- Only the table segments count. -/
theorem defines_filter {l : List (ℕ × List ℕ)} {contents : List (TableKey × List ℕ)} :
    Defines l contents ↔ Defines (l.filter fun piece => isTable piece.1) contents := by
  constructor
  · intro h
    induction h with
    | nil => exact .nil
    | other hmarker _ ih => rwa [List.filter_cons_of_neg (by simp [hmarker])]
    | table hmarker hne hall _ ih =>
        rw [List.filter_cons_of_pos (by simp [hmarker])]
        exact .table hmarker hne hall ih
  · intro h
    induction l generalizing contents with
    | nil => exact h
    | cons piece l ih =>
        obtain ⟨marker,payload⟩ := piece
        cases hmarker : isTable marker with
        | false =>
            rw [List.filter_cons_of_neg (by simp [hmarker])] at h
            exact .other hmarker (ih h)
        | true =>
            rw [List.filter_cons_of_pos (by simp [hmarker])] at h
            cases h with
            | other hfalse _ =>
                rw [hmarker] at hfalse
                cases hfalse
            | table _ hne hall hrest => exact .table hmarker hne hall (ih hrest)

/-- The definitions of a segment, as a reader finds them. -/
def tableDefinitions (segment : JpegSegment) : Except TableError (List TableDefinition) :=
  if isTable segment.marker then
    forEachTableDefinition segment.marker segment.payload segment.payloadOffset
      (fun ds d => .ok (ds++[d])) []
  else .ok []

def definitionsOf : List JpegSegment → Except TableError (List TableDefinition)
  | [] => .ok []
  | segment :: segments => do
    let ds ← tableDefinitions segment
    let rest ← definitionsOf segments
    .ok (ds++rest)

theorem foldlM_collect (acc ds : List TableDefinition) :
    ds.foldlM (fun ds d => (.ok (ds++[d]) : Except TableError _)) acc = .ok (acc++ds) := by
  induction ds generalizing acc with
  | nil => rw [List.append_nil]; rfl
  | cons d ds ih =>
      rw [List.foldlM_cons,ok_bind,ih,List.append_assoc]
      rfl

/-- A reader finds the definitions. -/
theorem definitionsOf_of_defines {segments : List JpegSegment}
    {contents : List (TableKey × List ℕ)}
    (h : Defines (segments.map fun segment => (segment.marker,segment.payload)) contents) :
    ∃ ds, definitionsOf segments = .ok ds ∧ ds.map TableDefinition.content = contents := by
  induction segments generalizing contents with
  | nil =>
      cases h
      exact ⟨[],rfl,rfl⟩
  | cons segment segments ih =>
      obtain ⟨marker,markerOffset,payloadOffset,payload⟩ := segment
      cases h with
      | other hmarker hrest =>
          obtain ⟨ds,hds,hcontents⟩ := ih hrest
          refine ⟨ds,?_,hcontents⟩
          rw [definitionsOf,tableDefinitions,if_neg (by simp [hmarker]),ok_bind,hds]
          rfl
      | @table _ _ own contents hmarker hne hall hrest =>
          obtain ⟨ds,hds,hcontents⟩ := ih hrest
          obtain ⟨own',hown,hloop⟩ := @definitionLoop_flatten _
            (fun ds d => (.ok (ds++[d]) : Except TableError _)) marker payloadOffset
            (own.map Prod.snd).flatten.length own hall _ le_rfl
          refine ⟨own'++ds,?_,by rw [List.map_append,hown,hcontents]⟩
          rw [definitionsOf,tableDefinitions,if_pos hmarker,forEachTableDefinition,if_neg hne,
            hloop,foldlM_collect,List.nil_append,ok_bind,hds]
          rfl

/-! ## Segments -/

/-- The bytes of a normalized segment. -/
def NormalizedSegment.bytes : NormalizedSegment → List ℕ
  | borrowed bytes => bytes
  | filteredTable marker definitions payloadLen =>
    [0xFF,marker,(payloadLen+2)/2^8,(payloadLen+2)%2^8]++definitions.flatten

theorem appendTo_eq_ok {output output' : List ℕ} {n : NormalizedSegment}
    (h : n.appendTo output = .ok output') : output' = output++n.bytes := by
  cases n with
  | borrowed bytes =>
      cases h
      rfl
  | filteredTable marker definitions payloadLen =>
      simp only [NormalizedSegment.appendTo] at h
      split_ifs at h
      cases h
      rfl

/-- What the normalization of segments does: the definitions that it sees, those that it keeps,
and the pieces that it leaves. -/
structure Normalizes (slots slots' : Slots) (segments : List (ℕ × List ℕ))
    (normalized : List NormalizedSegment) (contents kept : List (TableKey × List ℕ))
    (pieces : List (ℕ × List ℕ × List ℕ)) : Prop where
  walk : Walk slots slots' contents kept
  defines : Defines segments contents
  keeps : Defines (pieces.map fun piece => (piece.1,piece.2.1)) kept
  isPiece : ∀ piece ∈ pieces, IsPiece piece.1 piece.2.1 piece.2.2
  bytes : normalized.map NormalizedSegment.bytes = pieces.map fun piece => piece.2.2
  byteLen : normalized.map NormalizedSegment.byteLen =
    normalized.map fun n => n.bytes.length

theorem Normalizes.trans {slots slots₁ slots₂ : Slots} {segments segments' : List (ℕ × List ℕ)}
    {normalized normalized' : List NormalizedSegment}
    {contents contents' kept kept' : List (TableKey × List ℕ)}
    {pieces pieces' : List (ℕ × List ℕ × List ℕ)}
    (h : Normalizes slots slots₁ segments normalized contents kept pieces)
    (h' : Normalizes slots₁ slots₂ segments' normalized' contents' kept' pieces') :
    Normalizes slots slots₂ (segments++segments') (normalized++normalized')
      (contents++contents') (kept++kept') (pieces++pieces') where
  walk := h.walk.trans h'.walk
  defines := h.defines.append h'.defines
  keeps := by
    rw [List.map_append]
    exact h.keeps.append h'.keeps
  isPiece := by
    intro piece hpiece
    rcases List.mem_append.mp hpiece with hpiece | hpiece
    · exact h.isPiece piece hpiece
    · exact h'.isPiece piece hpiece
  bytes := by rw [List.map_append,List.map_append,h.bytes,h'.bytes]
  byteLen := by rw [List.map_append,List.map_append,h.byteLen,h'.byteLen]

theorem defines_other {marker : ℕ} {payload : List ℕ} (h : isTable marker = false) :
    Defines [(marker,payload)] [] := .other h .nil

theorem isTable_iff {marker : ℕ} : isTable marker = true ↔ marker = 0xDB ∨ marker = 0xC4 := by
  simp [isTable]

/-- Two bytes of a length, of a table segment. -/
theorem isPiece_table {marker : ℕ} {payload : List ℕ} (h : isTable marker = true) :
    IsPiece marker payload
      ([0xFF,marker,(payload.length+2)/2^8,(payload.length+2)%2^8]++payload) := by
  have hmarker := isTable_iff.mp h
  exact .segment (by omega) (by omega) (by omega) (by omega) (by omega)

theorem normalizeTableSegment_spec {slots slots' : Slots} {segment : JpegSegment}
    {bytes : List ℕ} {n : Option NormalizedSegment} (htable : isTable segment.marker = true)
    (hpiece : IsPiece segment.marker segment.payload bytes)
    (h : normalizeTableSegment .allowIdentical slots segment bytes = .ok (slots',n)) :
    ∃ contents kept pieces, Normalizes slots slots' [(segment.marker,segment.payload)] n.toList
      contents kept pieces := by
  obtain ⟨f,hf,h⟩ := bind_eq_ok.mp h
  unfold forEachTableDefinition at hf
  split_ifs at hf with hempty
  obtain ⟨ds,hpayload,hall,hfold⟩ := definitionLoop_eq_ok le_rfl hf
  obtain ⟨kept,hwalk,hdefinitions,hlen,hunfiltered⟩ := filter_foldlM hfold
  have hcontents : (ds.map TableDefinition.content).map Prod.snd = ds.map TableDefinition.bytes := by
    rw [List.map_map]
    rfl
  have hdefinition : ∀ c ∈ ds.map TableDefinition.content, IsDefinition segment.marker c.1 c.2 := by
    intro c hc
    obtain ⟨d,hd,rfl⟩ := List.mem_map.mp hc
    exact hall d hd
  rw [← hcontents] at hpayload
  have hdefines : Defines [(segment.marker,segment.payload)]
      (ds.map TableDefinition.content) := by
    have hown := Defines.table htable (hpayload ▸ hempty) hdefinition .nil
    rwa [← hpayload,List.append_nil] at hown
  by_cases hborrowed : f.filteredDuplicate = false
  · rw [if_pos (.inr hborrowed)] at h
    obtain ⟨-,rfl⟩ := hunfiltered hborrowed
    cases h
    refine ⟨_,_,[(segment.marker,segment.payload,bytes)],hwalk,hdefines,hdefines,?_,rfl,rfl⟩
    intro piece hmem
    rw [List.mem_singleton.mp hmem]
    exact hpiece
  rw [if_neg (by simp [hborrowed])] at h
  by_cases hnone : f.definitions = []
  · rw [if_pos hnone] at h
    cases h
    rw [hdefinitions,List.nil_append,List.map_eq_nil_iff] at hnone
    subst hnone
    exact ⟨_,[],[],hwalk,hdefines,.nil,nofun,rfl,rfl⟩
  · rw [if_neg hnone] at h
    cases h
    rw [List.nil_append] at hdefinitions
    rw [Nat.zero_add] at hlen
    have hne : (kept.map Prod.snd).flatten ≠ [] := by
      rw [hdefinitions] at hnone
      cases kept with
      | nil => exact absurd rfl hnone
      | cons c kept =>
          have hc := hdefinition c (hwalk.sub c List.mem_cons_self)
          rw [List.map_cons,List.flatten_cons]
          exact fun hnil => hc.1 (List.append_eq_nil_iff.mp hnil).1
    have hkeeps := Defines.table htable hne
      (fun c hc => hdefinition c (hwalk.sub c hc)) .nil
    rw [List.append_nil] at hkeeps
    refine ⟨_,kept,[(segment.marker,(kept.map Prod.snd).flatten,
      [0xFF,segment.marker,((kept.map Prod.snd).flatten.length+2)/2^8,
        ((kept.map Prod.snd).flatten.length+2)%2^8]++(kept.map Prod.snd).flatten)],
      hwalk,hdefines,hkeeps,?_,?_,?_⟩
    · intro piece hmem
      rw [List.mem_singleton.mp hmem]
      exact isPiece_table htable
    · rw [hdefinitions,hlen]
      rfl
    · rw [hdefinitions,hlen]
      refine congrArg (fun len => [len]) ?_
      show _ = ([_,_,_,_]++(kept.map Prod.snd).flatten).length
      rw [List.length_append]
      exact Nat.add_comm ..

theorem normalizeSegment_spec {input : List ℕ} {slots slots' : Slots} {segment : JpegSegment}
    {n : Option NormalizedSegment} (hregular : Regular input segment)
    (h : normalizeSegment .allowIdentical input slots segment = .ok (slots',n)) :
    ∃ contents kept pieces, Normalizes slots slots' [(segment.marker,segment.payload)] n.toList
      contents kept pieces := by
  unfold normalizeSegment at h
  split_ifs at h with himage htable hdropped
  · cases h
    have hother : isTable segment.marker = false := by
      rcases himage with hmarker | hmarker <;> rw [hmarker] <;> rfl
    exact ⟨[],[],[],.refl _,defines_other hother,.nil,nofun,rfl,rfl⟩
  · refine normalizeTableSegment_spec (isTable_iff.mpr htable) ?_ h
    rcases hregular with hmarker | hmarker | hpiece
    · exact absurd (.inl hmarker) himage
    · exact absurd (.inr hmarker) himage
    · exact hpiece
  · cases h
    have hother : isTable segment.marker = false := by
      rcases hdropped with hmarker | hmarker <;> rw [hmarker] <;> rfl
    exact ⟨[],[],[],.refl _,defines_other hother,.nil,nofun,rfl,rfl⟩
  · cases h
    have hother : isTable segment.marker = false :=
      Bool.eq_false_iff.mpr fun htrue => htable (isTable_iff.mp htrue)
    refine ⟨[],[],[(segment.marker,segment.payload,segmentBytes input segment)],.refl _,
      defines_other hother,defines_other hother,?_,rfl,rfl⟩
    intro piece hmem
    rw [List.mem_singleton.mp hmem]
    rcases hregular with hmarker | hmarker | hpiece
    · exact absurd (.inl hmarker) himage
    · exact absurd (.inr hmarker) himage
    · exact hpiece

/-! ## The walk over the shared stream -/

/-- Collects the normalized segments. -/
def collect (ns : List NormalizedSegment) (n : NormalizedSegment) :
    Except TableError (List NormalizedSegment) := .ok (ns++[n])

theorem visitSome_eq_ok {σ : Type} {visit : σ → NormalizedSegment → Except TableError σ}
    {s s' : σ} {n : Option NormalizedSegment} :
    visitSome visit s n = .ok s' ↔ n.toList.foldlM visit s = .ok s' := by
  cases n with
  | none => rfl
  | some n =>
      show visit s n = .ok s' ↔ (visit s n >>= fun s => .ok s) = .ok s'
      cases visit s n <;> rfl

/-- A walk that succeeds has read segments to the end, and visits what is left of them. -/
theorem normalizedLoop_eq_ok {σ : Type} {visit : σ → NormalizedSegment → Except TableError σ}
    {input : List ℕ} {fuel : ℕ} {it : JpegSegmentIter} {slots : Slots} {sawSoi : Bool}
    {parsedThrough : ℕ} {s s' : σ} (hlive : Live input it)
    (h : normalizedLoop .allowIdentical visit fuel it slots sawSoi parsedThrough s = .ok s') :
    ∃ segments it' slots' ns contents kept pieces, Reads it segments it' ∧
      (∀ segment after, it'.next ≠ (some (.ok segment),after)) ∧
      Normalizes slots slots' (segments.map fun segment => (segment.marker,segment.payload)) ns
        contents kept pieces ∧
      ns.foldlM visit s = .ok s' ∧ ∀ acc, normalizedLoop .allowIdentical collect fuel it slots
        sawSoi parsedThrough acc = .ok (acc++ns) := by
  induction fuel generalizing it slots sawSoi parsedThrough s with
  | zero => cases h
  | succ fuel ih =>
      have hempty {slots : Slots} : Normalizes slots slots [] [] [] [] [] :=
        ⟨.refl _,.nil,.nil,nofun,rfl,rfl⟩
      unfold normalizedLoop at h
      split at h
      next after hnext =>
        cases h
        refine ⟨[],it,slots,[],[],[],[],.nil it,?_,hempty,rfl,fun acc => ?_⟩
        · intro segment after' hnext'
          rw [hnext] at hnext'
          cases hnext'
        · rw [normalizedLoop,hnext,List.append_nil]
      next error after hnext =>
        split_ifs at h with haccepted
        cases h
        refine ⟨[],it,slots,[],[],[],[],.nil it,?_,hempty,rfl,fun acc => ?_⟩
        · intro segment after' hnext'
          rw [hnext] at hnext'
          cases hnext'
        · rw [normalizedLoop,hnext]
          dsimp only
          rw [if_pos haccepted,List.append_nil]
      next segment after hnext =>
        obtain ⟨rfl,hlive',hregular⟩ := next_live hlive hnext
        obtain ⟨⟨slots₁,n⟩,hsegment,h⟩ := bind_eq_ok.mp h
        obtain ⟨s₁,hvisit,h⟩ := bind_eq_ok.mp h
        obtain ⟨contents₁,kept₁,pieces₁,hfirst⟩ := normalizeSegment_spec hregular hsegment
        obtain ⟨segments,it',slots',ns,contents,kept,pieces,hreads,hend,hrest,hfold,hcollect⟩ :=
          ih hlive' h
        refine ⟨segment :: segments,it',slots',n.toList++ns,_,_,_,.cons hnext hreads,hend,
          hfirst.trans hrest,?_,fun acc => ?_⟩
        · rw [List.foldlM_append,visitSome_eq_ok.mp hvisit]
          exact hfold
        · rw [normalizedLoop,hnext]
          dsimp only
          rw [hsegment,ok_bind]
          dsimp only
          have hkeep : visitSome collect acc n = .ok (acc++n.toList) := by
            cases n with
            | none => exact congrArg Except.ok (List.append_nil acc).symm
            | some n => rfl
          rw [hkeep,ok_bind,hcollect,List.append_assoc]

/-- The length of the input is fuel enough. -/
theorem normalizedLoop_fuel {σ : Type} {policy : DuplicateTablePolicy}
    {visit : σ → NormalizedSegment → Except TableError σ} {input : List ℕ} {fuel : ℕ}
    {it : JpegSegmentIter} {slots : Slots} {sawSoi : Bool} {parsedThrough : ℕ} {s : σ}
    (h : AtMost input fuel it) (more : ℕ) :
    normalizedLoop policy visit (fuel+more) it slots sawSoi parsedThrough s =
      normalizedLoop policy visit fuel it slots sawSoi parsedThrough s := by
  induction fuel generalizing it slots sawSoi parsedThrough s with
  | zero => exact absurd h not_atMost_zero
  | succ fuel ih =>
      rw [Nat.succ_add,normalizedLoop,normalizedLoop]
      split
      · rfl
      · rfl
      next segment after hnext =>
        have hafter := next_atMost h hnext
        refine bind_congr fun r => ?_
        exact bind_congr fun s₁ => ih hafter

theorem forEachNormalizedSegment_fuel {σ : Type} (input : List ℕ) (policy : DuplicateTablePolicy)
    (visit : σ → NormalizedSegment → Except TableError σ) (s : σ) (more : ℕ) :
    forEachNormalizedSegment input policy visit s =
      normalizedLoop policy visit (input.length+2+more) (iterSegments input) (fun _ => none) false
        0 s :=
  (normalizedLoop_fuel (.inl ⟨rfl,le_rfl⟩) more).symm

theorem foldlM_appendTo {ns : List NormalizedSegment} {out out' : List ℕ}
    (h : ns.foldlM NormalizedSegment.appendTo out = .ok out') :
    out' = out++(ns.map NormalizedSegment.bytes).flatten := by
  induction ns generalizing out with
  | nil =>
      cases h
      exact (List.append_nil _).symm
  | cons n ns ih =>
      obtain ⟨out₁,hfirst,h⟩ := bind_eq_ok.mp h
      rw [ih h,appendTo_eq_ok hfirst,List.append_assoc]
      rfl

theorem checkedAdd_eq_ok {total additional sum : ℕ}
    (h : checkedAddAllocationBytes total additional = .ok sum) : sum = total+additional := by
  unfold checkedAddAllocationBytes at h
  split_ifs at h
  exact (Except.ok.inj h).symm

theorem foldlM_byteLen {ns : List NormalizedSegment} {total total' : ℕ}
    (h : ns.foldlM (fun tableBytes n => checkedAddAllocationBytes tableBytes n.byteLen) total =
      .ok total') : total' = total+(ns.map NormalizedSegment.byteLen).sum := by
  induction ns generalizing total with
  | nil =>
      cases h
      rfl
  | cons n ns ih =>
      obtain ⟨total₁,hfirst,h⟩ := bind_eq_ok.mp h
      rw [ih h,checkedAdd_eq_ok hfirst,List.map_cons,List.sum_cons,Nat.add_assoc]

theorem live_iterSegments (input : List ℕ) : Live input (iterSegments input) := .inl rfl

/-- The planned length is the length of what is put together. -/
theorem assembled_length {tables body out : List ℕ} {len : ℕ}
    (hlen : abbreviatedOutputLen tables body.length .allowIdentical = .ok len)
    (hout : forEachNormalizedSegment tables .allowIdentical NormalizedSegment.appendTo
      [0xFF,0xD8] = .ok out) : (out++body++[0xFF,0xD9]).length = len := by
  obtain ⟨tableBytes,hplanned,hlen⟩ := bind_eq_ok.mp hlen
  obtain ⟨len₁,hlen₁,hlen⟩ := bind_eq_ok.mp hlen
  obtain ⟨len₂,hlen₂,hlen⟩ := bind_eq_ok.mp hlen
  obtain ⟨_,_,_,ns,_,_,_,_,_,hnormalizes,hfold,hcollect⟩ :=
    normalizedLoop_eq_ok (live_iterSegments tables) hplanned
  obtain ⟨_,_,_,ns',_,_,_,_,_,_,hfold',hcollect'⟩ :=
    normalizedLoop_eq_ok (live_iterSegments tables) hout
  -- both walks leave the same segments
  have hsame := (hcollect []).symm.trans (hcollect' [])
  rw [List.nil_append,List.nil_append,Except.ok.injEq] at hsame
  subst hsame
  rw [checkedAdd_eq_ok hlen,checkedAdd_eq_ok hlen₂,checkedAdd_eq_ok hlen₁,foldlM_byteLen hfold,
    hnormalizes.byteLen,foldlM_appendTo hfold',List.length_append,List.length_append,
    List.length_append,List.length_flatten,List.map_map]
  simp only [List.length_cons,List.length_nil,Function.comp_def]
  omega

/-! ## The assembled stream -/

/-- The tables after some definitions. -/
def slotsOf (ds : List TableDefinition) : Slots :=
  setAll (fun _ => none) (ds.map TableDefinition.content)

/-- Reading a stream to its end finds these definitions. -/
def ReadsAll (input : List ℕ) (ds : List TableDefinition) : Prop :=
  ∃ segments it, Reads (iterSegments input) segments it ∧
    (∀ segment after, it.next ≠ (some (.ok segment),after)) ∧ definitionsOf segments = .ok ds

/-- Reading a stream up to a place finds these definitions. -/
def ReadsUpTo (input : List ℕ) (limit : ℕ) (ds : List TableDefinition) : Prop :=
  ∃ segments it, Reads (iterSegments input) segments it ∧
    (∀ segment ∈ segments, segmentEnd segment ≤ limit) ∧
    (∀ segment after, it.next = (some (.ok segment),after) → limit ≤ segment.markerOffset) ∧
    definitionsOf segments = .ok ds

/-- Pieces behind the start of an image are read up to their end. -/
theorem readsUpTo_pieces {pieces : List (ℕ × List ℕ × List ℕ)}
    {contents : List (TableKey × List ℕ)} {rest : List ℕ}
    (hpieces : ∀ piece ∈ pieces, IsPiece piece.1 piece.2.1 piece.2.2)
    (hdefines : Defines (pieces.map fun piece => (piece.1,piece.2.1)) contents) :
    ∃ ds, ds.map TableDefinition.content = contents ∧
      ReadsUpTo ([0xFF,0xD8]++(pieces.map fun piece => piece.2.2).flatten++rest)
        (2+((pieces.map fun piece => piece.2.2).flatten).length) ds := by
  have hsoi (after : List ℕ) : (iterSegments (0xFF :: 0xD8 :: after)).next =
      (some (.ok ⟨0xD8,0,2,[]⟩),atMarker (0xFF :: 0xD8 :: after) 2) := by
    show yielded (readSoi ⟨0xFF :: 0xD8 :: after,0,true,false,false⟩) = _
    rw [readSoi,if_neg (by simp),if_neg (by simp [byteAt])]
    rfl
  have hstart := hsoi ((pieces.map fun piece => piece.2.2).flatten++rest)
  obtain ⟨segments,it,hreads,hstands,hends,hfilter⟩ := @reads_pieces
    ([0xFF,0xD8]++(pieces.map fun piece => piece.2.2).flatten++rest) 2 rest pieces hpieces
    (atMarker _ 2) rfl (.inl rfl)
  rw [defines_filter,← hfilter,← defines_filter] at hdefines
  obtain ⟨ds,hds,hcontents⟩ := definitionsOf_of_defines hdefines
  refine ⟨ds,hcontents,⟨0xD8,0,2,[]⟩ :: segments,it,.cons hstart hreads,?_,?_,?_⟩
  · rintro segment (_ | ⟨_,hmem⟩)
    · exact Nat.le_add_right 2 _
    · exact hends segment hmem
  · exact fun segment after hnext => (next_ok hstands hnext).1
  · rw [definitionsOf,hds]
    rfl

/-- The tables of the shared stream, its tile body and its length in the assembled stream. -/
structure Preserves (tables body out : List ℕ) (original assembled : List TableDefinition)
    (tableBytes : List ℕ) : Prop where
  bytes : out = [0xFF,0xD8]++tableBytes++body++[0xFF,0xD9]
  planned : abbreviatedOutputLen tables body.length .allowIdentical = .ok out.length
  reads : ReadsAll tables original
  readsBack : ReadsUpTo out (2+tableBytes.length) assembled
  slots : slotsOf assembled = slotsOf original
  once : (assembled.map TableDefinition.key).Nodup
  noConflict : ∀ d ∈ original, ∀ d' ∈ original, d.key = d'.key → d.bytes = d'.bytes

theorem assembledStream_spec {tables tile out : List ℕ}
    (h : assembledStream .allowIdentical tables tile = .ok out) :
    ∃ body original assembled tableBytes, normalizedAbbreviatedTileBody tile = .ok body ∧
      Preserves tables body out original assembled tableBytes := by
  obtain ⟨body,hbody,h⟩ := bind_eq_ok.mp h
  obtain ⟨len,hlen,h⟩ := bind_eq_ok.mp h
  obtain ⟨front,hfront,h⟩ := bind_eq_ok.mp h
  dsimp only at h
  rw [if_pos (assembled_length hlen hfront)] at h
  obtain rfl := Except.ok.inj h
  have hlength := assembled_length hlen hfront
  obtain ⟨segments,it,slots,ns,contents,kept,pieces,hreads,hend,hnormalizes,hfold,-⟩ :=
    normalizedLoop_eq_ok (live_iterSegments tables) hfront
  obtain rfl := foldlM_appendTo hfold
  obtain ⟨original,horiginal,rfl⟩ := definitionsOf_of_defines hnormalizes.defines
  obtain ⟨assembled,rfl,hassembled⟩ := @readsUpTo_pieces _ _ (body++[0xFF,0xD9])
    hnormalizes.isPiece hnormalizes.keeps
  rw [← hnormalizes.bytes] at hassembled
  refine ⟨body,original,assembled,(ns.map NormalizedSegment.bytes).flatten,hbody,?_,?_,
    ⟨segments,it,hreads,hend,horiginal⟩,?_,?_,?_,?_⟩
  · rfl
  · rw [hlength]
    exact hlen
  · rw [List.append_assoc]
    exact hassembled
  · exact hnormalizes.walk.left.symm.trans hnormalizes.walk.seen
  · have hnodup := hnormalizes.walk.nodup
    rwa [List.map_map] at hnodup
  · intro d hd d' hd' hkey
    have hslot := hnormalizes.walk.agree _ (List.mem_map_of_mem hd)
    have hslot' := hnormalizes.walk.agree _ (List.mem_map_of_mem hd')
    have hkey' : d.content.1 = d'.content.1 := hkey
    rw [hkey',hslot'] at hslot
    exact (Option.some.inj hslot).symm

end J2kNative.TableNormalization
