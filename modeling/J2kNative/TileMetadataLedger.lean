import J2kNative.TileMetadata

/-!
# The budget counts what the tiles own

Every operation on a transaction keeps the budget at the image's bytes, those that all tiles
own and the temporary ones, where it fails too. So do the markers of a tile-part and a run of
tile-parts. The cap is kept by all that succeeds, and by all where the allocator is exact.
-/
namespace J2kNative.TileMetadata
open KeptState TileTree MarkerSegments PacketMarkers ParameterPrecedence TilePartParsing
open PacketProgression (defaultMaxDecodeBytes)

/-! ## Reserving -/

theorem checkedVectorBytes_eq {size len : ℕ} (h : size*len ≤ usizeMax) :
    checkedVectorBytes size len = .ok (size*len) := if_pos h

theorem validateTransientPeak_ok {live bytes cap : ℕ} {u : Unit}
    (h : validateTransientPeak live bytes cap = .ok u) : live+bytes ≤ cap := by
  unfold validateTransientPeak checkedAddMetadataBytes validateMetadataByteCap at h
  split_ifs at h with hadd
  · by_contra hcap
    simp only [bind,Except.bind] at h
    rw [if_pos (Nat.lt_of_not_le hcap)] at h
    cases h
  · cases h

theorem validateTransientPeak_over {live bytes cap : ℕ} (h : cap < live+bytes) :
    validateTransientPeak live bytes cap = .error .imageTooLarge := by
  unfold validateTransientPeak checkedAddMetadataBytes validateMetadataByteCap
  split_ifs with hadd
  · rw [Fallible.ok_bind,if_pos h]
  · rfl

theorem checkedReplacementBytes_eq {total old replacement : ℕ} (hold : old ≤ total)
    (h : total-old+replacement ≤ usizeMax) :
    checkedReplacementBytes total old replacement = .ok (total-old+replacement) := by
  unfold checkedReplacementBytes checkedAddMetadataBytes
  rw [if_pos hold,if_pos h]

theorem defaultMax_lt : defaultMaxDecodeBytes ≤ isizeMax := by decide

theorem isizeMax_add : isizeMax+isizeMax ≤ usizeMax := by decide

section
variable {α : Type} {A : Allocator} {call size target : ℕ} {b : TileMetadataBudget} {v : RustVec α}

/-- What a reservation does to the vector. -/
theorem tryReserveDecodeElements_spec (A : Allocator) (call : ℕ) (hv : size*v.capacity ≤ isizeMax)
    (htarget : v.capacity < target) :
    (tryReserveDecodeElements A call size v target).2.items = v.items ∧
      size*(tryReserveDecodeElements A call size v target).2.capacity ≤ isizeMax ∧
      ((tryReserveDecodeElements A call size v target).1 = .ok () →
        target ≤ (tryReserveDecodeElements A call size v target).2.capacity) ∧
      ((tryReserveDecodeElements A call size v target).1 ≠ .ok () →
        (tryReserveDecodeElements A call size v target).2 = v) ∧
      (A.Exact → (tryReserveDecodeElements A call size v target).2.capacity ≤ target) := by
  unfold tryReserveDecodeElements
  by_cases hmax : target*size > defaultMaxDecodeBytes
  · rw [if_pos hmax]
    exact ⟨rfl,hv,(fun h => nomatch h),fun _ => rfl,fun _ => htarget.le⟩
  · rw [if_neg hmax,if_pos htarget]
    cases hgrow : A.grow call size v.capacity target with
    | none => exact ⟨rfl,hv,(fun h => nomatch h),fun _ => rfl,fun _ => htarget.le⟩
    | some capacity =>
        exact ⟨rfl,A.fits hgrow,fun _ => A.room hgrow,fun h => absurd rfl h,
          fun hexact => (hexact hgrow).le⟩

/-- What a reservation leaves behind: the budget counts the vector as before. -/
structure Reserved (A : Allocator) (size target : ℕ) (b b' : TileMetadataBudget)
    (v v' : RustVec α) (result : Except MetadataError Unit) : Prop where
  budget : b' = { b with retainedBytes := b'.retainedBytes }
  items : v'.items = v.items
  bytes : b'.retainedBytes+size*v.capacity = b.retainedBytes+size*v'.capacity
  fits : size*v'.capacity ≤ isizeMax
  room : result = .ok () → target ≤ v'.capacity ∧ b'.retainedBytes ≤ b.cap
  kept : target ≤ v.capacity → v' = v
  exact : A.Exact → b'.retainedBytes ≤ b.cap
  refused : b.cap < b'.retainedBytes → result = .error .imageTooLarge

theorem tryReserveRetained_spec (A : Allocator) (call target : ℕ) (hvalid : b.accountingValid = true)
    (hcap : b.cap = defaultMaxDecodeBytes) (hle : b.retainedBytes ≤ b.cap)
    (hv : size*v.capacity ≤ b.retainedBytes) :
    Reserved A size target b (b.tryReserveRetained A call size v target).2.1 v
      (b.tryReserveRetained A call size v target).2.2
      (b.tryReserveRetained A call size v target).1 := by
  have hmax := defaultMax_lt
  have hadd := isizeMax_add
  have hvfits : size*v.capacity ≤ isizeMax := by omega
  have hunchanged (e : MetadataError) :
      Reserved A size target b b v v (.error e : Except MetadataError Unit) :=
    ⟨rfl,rfl,rfl,hvfits,(fun h => nomatch h),fun _ => rfl,fun _ => hle,
      fun h => absurd hle (Nat.not_le_of_lt h)⟩
  unfold TileMetadataBudget.tryReserveRetained
  rw [if_neg (by simp [hvalid]),checkedVectorBytes_eq (by omega)]
  by_cases htarget : target ≤ v.capacity
  · rw [if_pos htarget]
    exact ⟨rfl,rfl,rfl,hvfits,fun _ => ⟨htarget,hle⟩,fun _ => rfl,fun _ => hle,
      fun h => absurd hle (Nat.not_le_of_lt h)⟩
  rw [if_neg htarget]
  cases hplanned : (do
      let plannedBytes ← checkedVectorBytes size target
      validateTransientPeak b.retainedBytes plannedBytes b.cap) with
  | error e => exact hunchanged e
  | ok u =>
      obtain ⟨hitems,hfits,hroom,hkept,hexact⟩ := tryReserveDecodeElements_spec A call
        hvfits (Nat.lt_of_not_le htarget)
      obtain ⟨planned,hp,hpeak⟩ := Fallible.bind_eq_ok.mp hplanned
      have hp : size*target = planned := by
        unfold checkedVectorBytes at hp
        split_ifs at hp
        exact Except.ok.inj hp
      have hpeak := validateTransientPeak_ok hpeak
      generalize tryReserveDecodeElements A call size v target = o at *
      obtain ⟨result,v'⟩ := o
      dsimp only at *
      rw [checkedVectorBytes_eq (by omega)]
      dsimp only
      rw [checkedReplacementBytes_eq hv (by omega)]
      refine ⟨rfl,hitems,by dsimp only; omega,hfits,fun h => ?_,fun h => absurd h htarget,
        fun hA => ?_,fun hover => ?_⟩
      · obtain ⟨_,hresult,hactual⟩ := Fallible.bind_eq_ok.mp h
        have hactual := validateTransientPeak_ok hactual
        exact ⟨hroom hresult,by dsimp only; omega⟩
      · have := Nat.mul_le_mul_left size (hexact hA)
        dsimp only
        omega
      · dsimp only at hover
        have hgrown : v' ≠ v := by
          rintro rfl
          omega
        have hresult : result = .ok () := not_not.mp fun h => hgrown (hkept h)
        rw [hresult,Fallible.ok_bind]
        exact validateTransientPeak_over (by omega)

end

/-! ## The ledger of a transaction -/

/-- The bytes of the image, and those of the other tiles. -/
structure Frame where
  image : ℕ
  others : ℕ

/-- The budget counts what is owned, within the transaction and without. -/
structure Ledger (z : ElementSizes) (f : Frame) (s : Transaction) : Prop where
  valid : s.budget.accountingValid = true
  image : s.budget.retainedImageBytes = f.image
  cap : s.budget.cap = defaultMaxDecodeBytes
  retained : s.budget.retainedBytes = f.image+f.others+s.tile.bytes z+s.temporaryBytes

/-- So it does where `temporary` bytes are temporary, and there is room below the cap. -/
structure Tracked (z : ElementSizes) (f : Frame) (temporary : ℕ) (s : Transaction) : Prop
    extends Ledger z f s where
  temporaryBytes : s.temporaryBytes = temporary
  capped : s.budget.retainedBytes ≤ defaultMaxDecodeBytes

theorem Tracked.setTile {z : ElementSizes} {f : Frame} {t : ℕ} {s : Transaction}
    (h : Tracked z f t s) {g : TileOwner → TileOwner}
    (hbytes : (g s.tile).bytes z = s.tile.bytes z) : Tracked z f t (s.setTile g) :=
  ⟨⟨h.valid,h.image,h.cap,by
      change _ = _+(g s.tile).bytes z+_
      rw [hbytes]
      exact h.retained⟩,h.temporaryBytes,h.capped⟩

/-- What is left of it where an operation fails. -/
structure Failed (A : Allocator) (z : ElementSizes) (f : Frame) (e : MetadataError)
    (s : Transaction) : Prop extends Ledger z f s where
  capped : A.Exact → s.budget.retainedBytes ≤ defaultMaxDecodeBytes
  refused : defaultMaxDecodeBytes < s.budget.retainedBytes → e = .imageTooLarge

theorem Tracked.failed {A : Allocator} {z : ElementSizes} {f : Frame} {t : ℕ} {s : Transaction}
    (h : Tracked z f t s) (e : MetadataError) : Failed A z f e s :=
  ⟨h.toLedger,fun _ => h.capped,fun hover => absurd h.capped (Nat.not_le_of_lt hover)⟩

/-- The same, of a tile with a property. -/
def At (z : ElementSizes) (f : Frame) (I : TileOwner → Prop) (temporary : ℕ) (s : Transaction) :
    Prop :=
  Tracked z f temporary s ∧ I s.tile

/-- A place whose vector the tile owns, where it has the property. -/
structure TilePlace.LawfulOn {α : Type} (z : ElementSizes) (p : TilePlace α)
    (I : TileOwner → Prop) : Prop where
  get_put : ∀ t, I t → ∀ v, p.get (p.put v t) = v
  bytes : ∀ t, I t → ∀ v, v.items = (p.get t).items →
    (p.put v t).bytes z+p.size*(p.get t).capacity = t.bytes z+p.size*v.capacity
  keeps : ∀ t, I t → ∀ v, v.items = (p.get t).items → I (p.put v t)

/-- A place whose elements own nothing. -/
structure TilePlace.FlatOn {α : Type} (z : ElementSizes) (p : TilePlace α)
    (I : TileOwner → Prop) : Prop where
  get_put : ∀ t, I t → ∀ v, p.get (p.put v t) = v
  bytes : ∀ t, I t → ∀ v,
    (p.put v t).bytes z+p.size*(p.get t).capacity = t.bytes z+p.size*v.capacity
  keeps : ∀ t, I t → ∀ v, I (p.put v t)

section
variable {α : Type} {A : Allocator} {z : ElementSizes} {f : Frame} {I : TileOwner → Prop}
  {p : TilePlace α} {t : ℕ}

theorem TilePlace.FlatOn.lawful (h : p.FlatOn z I) : p.LawfulOn z I :=
  ⟨h.get_put,fun t ht v _ => h.bytes t ht v,fun t ht v _ => h.keeps t ht v⟩

theorem TilePlace.LawfulOn.le (h : p.LawfulOn z I) {tile : TileOwner} (hI : I tile) :
    p.size*(p.get tile).capacity ≤ tile.bytes z := by
  have := h.bytes tile hI ⟨(p.get tile).items,0⟩ rfl
  rw [Nat.mul_zero] at this
  omega

theorem extend_capacity {v : RustVec α} {items : List α}
    (h : v.items.length+items.length ≤ v.capacity) : (v.extend items).capacity = v.capacity :=
  max_eq_left h

/-- A vector reserved for two lists keeps its room, and has none where both are empty. -/
theorem extend_reserved {v : RustVec α} {first second : List α} (hitems : v.items = [])
    (hroom : first.length+second.length ≤ v.capacity)
    (hnone : first.length+second.length = 0 → v.capacity = 0) :
    ((v.extend first).extend second).capacity = v.capacity ∧
      (((v.extend first).extend second).items.length = 0 →
        ((v.extend first).extend second).capacity = 0) := by
  have hlength : (v.extend first).items.length = first.length := by
    unfold RustVec.extend
    rw [hitems,List.nil_append]
  have hfirst : (v.extend first).capacity = v.capacity :=
    extend_capacity (by rw [hitems,List.length_nil]; omega)
  have hsecond : ((v.extend first).extend second).capacity = v.capacity := by
    rw [extend_capacity (by rw [hlength,hfirst]; exact hroom),hfirst]
  refine ⟨hsecond,fun hzero => ?_⟩
  change ((v.extend first).items ++ second).length = 0 at hzero
  rw [List.length_append,hlength] at hzero
  rw [hsecond,hnone hzero]

/-- A vector of the tile gets room. -/
theorem reserveRetained_triple (h : p.LawfulOn z I) (k target : ℕ) :
    Triple (fun s => At z f I t s ∧ (p.get s.tile).items.length = k)
      (reserveRetained A p target)
      (fun _ s => At z f I t s ∧ (p.get s.tile).items.length = k ∧
        target ≤ (p.get s.tile).capacity) (Failed A z f) := by
  rintro s ⟨⟨hs,hI⟩,hk⟩
  have hle := h.le hI
  have hspec := tryReserveRetained_spec A s.allocations target
    hs.valid hs.cap (by rw [hs.cap]; exact hs.capped)
    (show p.size*(p.get s.tile).capacity ≤ s.budget.retainedBytes by rw [hs.retained]; omega)
  unfold reserveRetained
  generalize s.budget.tryReserveRetained A s.allocations p.size (p.get s.tile) target = o at *
  obtain ⟨result,b,v⟩ := o
  dsimp only at hspec ⊢
  have hbytes := h.bytes s.tile hI v hspec.items
  have hmoved := hspec.bytes
  have hretained := hs.retained
  have hledger : Ledger z f { s with
      budget := b, tile := p.put v s.tile, allocations := s.allocations+1 } := by
    refine ⟨?_,?_,?_,by dsimp only; omega⟩
    · rw [hspec.budget]
      exact hs.valid
    · rw [hspec.budget]
      exact hs.image
    · rw [hspec.budget]
      exact hs.cap
  cases result with
  | error e =>
      exact ⟨hledger,fun hA => (hspec.exact hA).trans_eq hs.cap,fun hover =>
        Except.error.inj (hspec.refused (hs.cap.trans_lt hover))⟩
  | ok u =>
      obtain ⟨hroom,hcap⟩ := hspec.room rfl
      refine ⟨⟨⟨hledger,hs.temporaryBytes,hcap.trans_eq hs.cap⟩,h.keeps s.tile hI v hspec.items⟩,
        ?_,?_⟩
      · dsimp only
        rw [h.get_put s.tile hI,hspec.items,hk]
      · dsimp only
        rwa [h.get_put s.tile hI]

/-- Elements are appended where there is room for them. -/
theorem extend_triple (h : p.FlatOn z I) (items : List α) {E : MetadataError → Transaction → Prop} :
    Triple (fun s => At z f I t s ∧
        (p.get s.tile).items.length+items.length ≤ (p.get s.tile).capacity)
      (setPlace p (·.extend items)) (fun _ => At z f I t) E := by
  refine Triple.update fun s hs => ?_
  obtain ⟨⟨hs,hI⟩,hroom⟩ := hs
  have hbytes := h.bytes s.tile hI ((p.get s.tile).extend items)
  rw [extend_capacity hroom] at hbytes
  exact ⟨hs.setTile (Nat.add_right_cancel hbytes),h.keeps s.tile hI _⟩

/-- A temporary vector gets room. -/
theorem reserveTemporary_triple (size : ℕ) (v : RustVec α) (target : ℕ)
    (hv : size*v.capacity ≤ t) :
    Triple (At z f I t) (reserveTemporary A size v target)
      (fun v' s => At z f I (t-size*v.capacity+size*v'.capacity) s ∧ v'.items = v.items ∧
        target ≤ v'.capacity ∧ (target ≤ v.capacity → v' = v)) (Failed A z f) := by
  rintro s ⟨hs,hI⟩
  have hadd := isizeMax_add
  have hmax := defaultMax_lt
  have hcapped := hs.capped
  have hretained := hs.retained
  have htemporary := hs.temporaryBytes
  have hspec := tryReserveRetained_spec A s.allocations target
    hs.valid hs.cap (by rw [hs.cap]; exact hs.capped)
    (show size*v.capacity ≤ s.budget.retainedBytes by omega)
  unfold reserveTemporary
  rw [checkedVectorBytes_eq (by omega)]
  dsimp only
  generalize s.budget.tryReserveRetained A s.allocations size v target = o at *
  obtain ⟨result,b,v'⟩ := o
  dsimp only at hspec ⊢
  have hfits := hspec.fits
  have hmoved := hspec.bytes
  rw [checkedVectorBytes_eq (by omega)]
  simp only [Fallible.ok_bind]
  rw [checkedReplacementBytes_eq (by omega) (by omega)]
  have hledger : Ledger z f { s with
      budget := b, allocations := s.allocations+1
      temporaryBytes := s.temporaryBytes-size*v.capacity+size*v'.capacity } := by
    refine ⟨?_,?_,?_,by dsimp only; omega⟩
    · rw [hspec.budget]
      exact hs.valid
    · rw [hspec.budget]
      exact hs.image
    · rw [hspec.budget]
      exact hs.cap
  cases result with
  | error e =>
      exact ⟨hledger,fun hA => (hspec.exact hA).trans_eq hs.cap,fun hover =>
        Except.error.inj (hspec.refused (hs.cap.trans_lt hover))⟩
  | ok u =>
      obtain ⟨hroom,hcap⟩ := hspec.room rfl
      exact ⟨⟨⟨hledger,by dsimp only; rw [htemporary],hcap.trans_eq hs.cap⟩,hI⟩,hspec.items,hroom,
        hspec.kept⟩

/-- A marker's vector is counted, or it is refused and freed. -/
theorem trackTemporary_triple (size : ℕ) (v : RustVec α) :
    Triple (At z f I t) (trackTemporaryVec size v)
      (fun _ => At z f I (t+size*v.capacity)) (Failed A z f) := by
  rintro s ⟨hs,hI⟩
  have hadd := isizeMax_add
  have hmax := defaultMax_lt
  have hretained := hs.retained
  have htemporary := hs.temporaryBytes
  unfold trackTemporaryVec TileMetadataBudget.accountExistingCapacity
  rw [if_neg (by simp [hs.valid])]
  unfold checkedVectorBytes checkedAddMetadataBytes validateMetadataByteCap
  by_cases hfits : size*v.capacity ≤ usizeMax
  · by_cases hsum : s.budget.retainedBytes+size*v.capacity ≤ usizeMax
    · by_cases hcap : s.budget.retainedBytes+size*v.capacity > s.budget.cap
      · simp only [if_pos hfits,if_pos hsum,if_pos hcap,bind,Except.bind]
        exact hs.failed _
      · simp only [if_pos hfits,if_pos hsum,if_neg hcap,bind,Except.bind]
        rw [if_pos (by omega)]
        refine ⟨⟨⟨hs.valid,hs.image,hs.cap,by dsimp only; omega⟩,by dsimp only; omega,?_⟩,hI⟩
        exact (Nat.le_of_not_lt hcap).trans_eq hs.cap
    · simp only [if_pos hfits,if_neg hsum,bind,Except.bind]
      exact hs.failed _
  · simp only [if_neg hfits,bind,Except.bind]
    exact hs.failed _

theorem checkedRelease_eq {s : Transaction} {temporary retained : ℕ}
    (h : temporary ≤ s.temporaryBytes) (h' : retained ≤ s.budget.retainedBytes) :
    checkedRelease s temporary retained = .ok { s with
      temporaryBytes := s.temporaryBytes-temporary
      budget := { s.budget with retainedBytes := s.budget.retainedBytes-retained } } := by
  unfold checkedRelease
  rw [if_pos h,if_pos h']

theorem releaseTemporary_triple (size capacity : ℕ) (h : size*capacity ≤ t) :
    Triple (At z f I t) (releaseTemporaryCapacity size capacity)
      (fun _ => At z f I (t-size*capacity)) (Failed A z f) := by
  rintro s ⟨hs,hI⟩
  have hadd := isizeMax_add
  have hmax := defaultMax_lt
  have hretained := hs.retained
  have htemporary := hs.temporaryBytes
  have hcapped := hs.capped
  unfold releaseTemporaryCapacity
  rw [checkedVectorBytes_eq (by omega),Fallible.ok_bind,
    checkedRelease_eq (by omega) (by omega)]
  exact ⟨⟨⟨hs.valid,hs.image,hs.cap,by dsimp only; omega⟩,by dsimp only; omega,
    by dsimp only; omega⟩,hI⟩

/-- A temporary vector takes the place of a vector of the tile, which is freed. -/
theorem replaceOwner_triple (h : p.FlatOn z I) (replacement : RustVec α)
    (ht : p.size*replacement.capacity ≤ t) :
    Triple (At z f I t) (replaceOwner p replacement)
      (fun _ => At z f I (t-p.size*replacement.capacity)) (Failed A z f) := by
  rintro s ⟨hs,hI⟩
  have hadd := isizeMax_add
  have hmax := defaultMax_lt
  have hretained := hs.retained
  have htemporary := hs.temporaryBytes
  have hcapped := hs.capped
  have hle := h.lawful.le hI
  have hbytes := h.bytes s.tile hI replacement
  unfold replaceOwner
  rw [checkedVectorBytes_eq (by omega),Fallible.ok_bind,checkedVectorBytes_eq (by omega),
    Fallible.ok_bind,checkedRelease_eq (by omega) (by omega)]
  refine ⟨⟨⟨hs.valid,hs.image,hs.cap,?_⟩,?_,?_⟩,h.keeps s.tile hI _⟩
  · change s.budget.retainedBytes-_ = _+_+(p.put replacement s.tile).bytes z+(s.temporaryBytes-_)
    omega
  · change s.temporaryBytes-_ = _
    omega
  · change s.budget.retainedBytes-_ ≤ _
    omega

theorem parsedVec_triple (size : ℕ) (items : List α) :
    Triple (At z f I t) (parsedVec A size items) (fun _ => At z f I t) (Failed A z f) := by
  rintro s ⟨hs,hI⟩
  have hmoved : Tracked z f t { s with allocations := s.allocations+1 } :=
    ⟨⟨hs.valid,hs.image,hs.cap,hs.retained⟩,hs.temporaryBytes,hs.capped⟩
  unfold parsedVec
  generalize tryReserveDecodeElements A s.allocations size (.empty : RustVec α) items.length = o
  obtain ⟨e | u,v⟩ := o
  · exact hmoved.failed _
  · exact ⟨hmoved,hI⟩

theorem read_triple {β : Type} (parser : Parse β) :
    Triple (At z f I t) (read parser) (fun _ => At z f I t) (Failed A z f) := by
  rintro s ⟨hs,hI⟩
  unfold read
  cases parser s.reader with
  | error e => exact hs.failed _
  | ok r => exact ⟨⟨⟨hs.valid,hs.image,hs.cap,hs.retained⟩,hs.temporaryBytes,hs.capped⟩,hI⟩

theorem fail_triple {β : Type} {Q : β → Transaction → Prop} (e : MetadataError) :
    Triple (At z f I t) (Run.fail e) Q (Failed A z f) :=
  Triple.fail fun _ hs => hs.1.failed e

theorem tryCopyTemporary_triple (size : ℕ) (source : List α) :
    Triple (At z f I t) (tryCopyTemporary A size source)
      (fun v => At z f I (t+size*v.capacity)) (Failed A z f) := by
  unfold tryCopyTemporary
  refine (reserveTemporary_triple size .empty source.length (Nat.zero_le _)).bind fun v => ?_
  refine Triple.pure fun s hs => ?_
  obtain ⟨hs,hitems,hroom,-⟩ := hs
  rw [extend_capacity (by rw [hitems]; exact (Nat.zero_add _).trans_le hroom)]
  exact hs

/-- A temporary vector is moved to the end of a vector of the tile. -/
theorem appendTemporary_triple (h : p.FlatOn z I) (source : RustVec α)
    (ht : p.size*source.capacity ≤ t) :
    Triple (At z f I t) (appendTemporary A p source)
      (fun _ => At z f I (t-p.size*source.capacity)) (Failed A z f) := by
  unfold appendTemporary
  refine Triple.state fun start hstart => ?_
  refine ((reserveRetained_triple h.lawful (p.get start.tile).items.length _).pre
    fun s hs => ⟨hs ▸ hstart,by rw [hs]⟩).bind fun _ => ?_
  refine ((releaseTemporary_triple (I := fun tile => I tile ∧
      (p.get tile).items.length+source.items.length ≤ (p.get tile).capacity) p.size
      source.capacity ht).pre fun s hs => ?_).bind fun _ => ?_
  · obtain ⟨⟨hs,hI⟩,hlength,hroom⟩ := hs
    exact ⟨hs,hI,hlength ▸ hroom⟩
  · exact (extend_triple h source.items).pre fun s hs => ⟨⟨hs.1,hs.2.1⟩,hs.2.2⟩

end

/-! ## Places -/

theorem sum_modify {α : Type} (g : α → ℕ) (h : α → α) (l : List α) {i : ℕ} (hi : i < l.length) :
    ((l.modify i h).map g).sum+g (l.get ⟨i,hi⟩) = (l.map g).sum+g (h (l.get ⟨i,hi⟩)) := by
  induction l generalizing i with
  | nil => exact absurd hi (Nat.not_lt_zero i)
  | cons a l ih =>
      cases i with
      | zero =>
          rw [List.modify_zero_cons,List.map_cons,List.map_cons,List.sum_cons,List.sum_cons]
          change g (h a)+_+g a = g a+_+g (h a)
          omega
      | succ i =>
          have := ih (Nat.lt_of_succ_lt_succ hi)
          simp only [List.modify_succ_cons,List.map_cons,List.sum_cons,List.get_cons_succ]
          omega

/-- A tile of `n` components, with room for `r`. -/
def Shape (n r : ℕ) (t : TileOwner) : Prop :=
  t.componentInfos.items.length = n ∧ r ≤ t.componentInfos.capacity

section
variable {z : ElementSizes} {n r i : ℕ}

theorem setComponent_shape {t : TileOwner} (h : Shape n r t) (g : ComponentOwner → ComponentOwner) :
    Shape n r (t.setComponent i g) := by
  refine ⟨?_,h.2⟩
  unfold TileOwner.setComponent
  rw [← h.1]
  exact List.length_modify g t.componentInfos.items i

theorem setComponent_bytes {t : TileOwner} (hi : i < t.componentInfos.items.length)
    (g : ComponentOwner → ComponentOwner) :
    (t.setComponent i g).bytes z+(t.componentInfos.items.get ⟨i,hi⟩).bytes =
      t.bytes z+(g (t.componentInfos.items.get ⟨i,hi⟩)).bytes := by
  have := sum_modify ComponentOwner.bytes g t.componentInfos.items hi
  unfold TileOwner.bytes TileOwner.setComponent
  dsimp only
  omega

theorem component?_eq {t : TileOwner} (hi : i < t.componentInfos.items.length) :
    t.component? i = some (t.componentInfos.items.get ⟨i,hi⟩) :=
  List.getElem?_eq_getElem hi

theorem component?_setComponent {t : TileOwner} (hi : i < t.componentInfos.items.length)
    (g : ComponentOwner → ComponentOwner) :
    (t.setComponent i g).component? i = some (g (t.componentInfos.items.get ⟨i,hi⟩)) := by
  unfold TileOwner.component? TileOwner.setComponent
  dsimp only
  rw [List.getElem?_modify_eq,List.getElem?_eq_getElem hi]
  rfl

theorem precinctPlace_flat (hi : i < n) : (precinctPlace i).FlatOn z (Shape n r) := by
  refine ⟨fun t ht v => ?_,fun t ht v => ?_,fun t ht v => setComponent_shape ht _⟩
  · unfold precinctPlace
    dsimp only
    rw [component?_setComponent (ht.1 ▸ hi)]
    rfl
  · have := setComponent_bytes (z := z) (ht.1 ▸ hi) (t := t) fun c =>
      { c with precinctExponents := v }
    unfold precinctPlace
    dsimp only
    rw [component?_eq (ht.1 ▸ hi)]
    unfold ComponentOwner.bytes at this
    dsimp only [Option.elim] at this ⊢
    omega

theorem stepPlace_flat (hi : i < n) : (stepPlace i).FlatOn z (Shape n r) := by
  refine ⟨fun t ht v => ?_,fun t ht v => ?_,fun t ht v => setComponent_shape ht _⟩
  · unfold stepPlace
    dsimp only
    rw [component?_setComponent (ht.1 ▸ hi)]
    rfl
  · have := setComponent_bytes (z := z) (ht.1 ▸ hi) (t := t) fun c => { c with stepSizes := v }
    unfold stepPlace
    dsimp only
    rw [component?_eq (ht.1 ▸ hi)]
    unfold ComponentOwner.bytes at this
    dsimp only [Option.elim] at this ⊢
    omega

theorem changesPlace_flat : (changesPlace z).FlatOn z (Shape n r) := by
  refine ⟨fun t _ v => rfl,fun t _ v => ?_,fun t ht v => ht⟩
  unfold changesPlace TileOwner.bytes
  dsimp only
  omega

theorem partsPlace_lawful : (partsPlace z).LawfulOn z (Shape n r) := by
  refine ⟨fun t _ v => rfl,fun t _ v hv => ?_,fun t ht v _ => ht⟩
  unfold partsPlace at hv ⊢
  unfold TileOwner.bytes
  dsimp only at hv ⊢
  rw [hv]
  omega

theorem componentPlace_lawful :
    (componentPlace z).LawfulOn z fun t => t.componentInfos.items.length = n := by
  refine ⟨fun t _ v => rfl,fun t _ v hv => ?_,fun t ht v hv => ?_⟩
  · unfold componentPlace at hv ⊢
    unfold TileOwner.bytes
    dsimp only at hv ⊢
    rw [hv]
    omega
  · exact (congrArg List.length hv).trans ht

theorem setLevels_bytes (numResolutionLevels : ℕ) {t : TileOwner}
    (hi : i < t.componentInfos.items.length) :
    (setLevels numResolutionLevels i t).bytes z = t.bytes z :=
  Nat.add_right_cancel (setComponent_bytes (z := z) hi _)

end

/-! ## Markers -/

section
variable {α : Type} {A : Allocator} {z : ElementSizes} {f : Frame} {n r t : ℕ}
  {place : ℕ → TilePlace α} {size : ℕ} {update : ℕ → TileOwner → TileOwner}

/-- A vector in each of `n` components, and an update of what owns nothing. -/
structure Family (z : ElementSizes) (n r : ℕ) (place : ℕ → TilePlace α) (size : ℕ)
    (update : ℕ → TileOwner → TileOwner) : Prop where
  flat : ∀ i < n, (place i).FlatOn z (Shape n r)
  size : ∀ i, (place i).size = size
  update_bytes : ∀ i < n, ∀ t, Shape n r t → (update i t).bytes z = t.bytes z
  update_shape : ∀ i t, Shape n r t → Shape n r (update i t)

theorem precinct_family (numResolutionLevels : ℕ) :
    Family z n r precinctPlace precinctExponentBytes (setLevels numResolutionLevels) :=
  ⟨fun _ hi => precinctPlace_flat hi,fun _ => rfl,
    fun _ hi _ ht => setLevels_bytes _ (ht.1 ▸ hi),fun _ _ ht => setComponent_shape ht _⟩

theorem step_family : Family z n r stepPlace stepSizeBytes (fun _ t => t) :=
  ⟨fun _ hi => stepPlace_flat hi,fun _ => rfl,fun _ _ _ _ => rfl,fun _ _ ht => ht⟩

theorem replace_triple (h : Family z n r place size update) {i : ℕ} (hi : i < n)
    (replacement : RustVec α) :
    Triple (At z f (Shape n r) (t+size*replacement.capacity)) (replaceOwner (place i) replacement)
      (fun _ => At z f (Shape n r) t) (Failed A z f) := by
  have hreplace := replaceOwner_triple (A := A) (f := f) (t := t+size*replacement.capacity)
    (h.flat i hi) replacement (by rw [h.size]; exact Nat.le_add_left _ _)
  rwa [h.size,Nat.add_sub_cancel] at hreplace

theorem update_triple (h : Family z n r place size update) {i : ℕ} (hi : i < n) :
    Triple (At z f (Shape n r) t) (Run.update (·.setTile (update i)) : Marker Unit)
      (fun _ => At z f (Shape n r) t) (Failed A z f) :=
  Triple.update fun s hs =>
    ⟨hs.1.setTile (h.update_bytes i hi s.tile hs.2),h.update_shape i s.tile hs.2⟩

/-- Copies are counted when they are made and owned when they are put in place; the source goes
into the last component. -/
theorem replaceEach_triple (h : Family z n r place size update) (source : RustVec α)
    (first count : ℕ) (hcount : first+(count+1) = n) :
    Triple (At z f (Shape n r) (t+size*source.capacity))
      (replaceEach A place size update source first (count+1))
      (fun _ => At z f (Shape n r) t) (Failed A z f) := by
  induction count generalizing first with
  | zero =>
      unfold replaceEach
      rw [if_pos rfl]
      refine (Triple.pure (Q := fun v : RustVec α => At z f (Shape n r) (t+size*v.capacity))
        fun _ hs => hs).bind fun v => ?_
      refine (replace_triple h (by omega) v).bind fun _ => ?_
      refine (update_triple h (by omega)).bind fun _ => ?_
      exact Triple.pure fun _ hs => hs
  | succ count ih =>
      unfold replaceEach
      rw [if_neg (Nat.succ_ne_zero count)]
      refine (tryCopyTemporary_triple size source.items).bind fun v => ?_
      refine (replace_triple h (by omega) v).bind fun _ => ?_
      refine (update_triple h (by omega)).bind fun _ => ?_
      exact ih (first+1) (by omega)

theorem replaceAll_triple (h : Family z n r place size update) (items : List α) :
    Triple (At z f (Shape n r) t) (replaceAll A place size update items)
      (fun _ => At z f (Shape n r) t) (Failed A z f) := by
  unfold replaceAll
  refine (parsedVec_triple size items).bind fun source => ?_
  refine (trackTemporary_triple size source).bind fun _ => ?_
  refine Triple.state fun s hs => ?_
  have hn : s.tile.componentInfos.items.length = n := hs.2.1
  dsimp only
  rw [hn]
  refine Triple.ite (fun _ => ?_) fun hne => ?_
  · exact (fail_triple _).pre fun _ h => h ▸ hs
  · obtain ⟨count,rfl⟩ := Nat.exists_eq_succ_of_ne_zero hne
    exact (replaceEach_triple h source 0 count (Nat.zero_add _)).pre fun _ h => h ▸ hs

theorem replaceOne_triple (h : Family z n r place size update) (componentIndex : ℕ)
    (items : List α) :
    Triple (At z f (Shape n r) t) (replaceOne A place size update componentIndex items)
      (fun _ => At z f (Shape n r) t) (Failed A z f) := by
  unfold replaceOne
  refine (parsedVec_triple size items).bind fun source => ?_
  refine (trackTemporary_triple size source).bind fun _ => ?_
  refine Triple.state fun s hs => ?_
  have hn : s.tile.componentInfos.items.length = n := hs.2.1
  rw [hn]
  refine Triple.ite (fun hi => ?_) fun _ => ?_
  · refine Triple.pre ?_ fun _ h => h ▸ hs
    exact (replace_triple h hi source).bind fun _ => update_triple h hi
  · exact (fail_triple _).pre fun _ h => h ▸ hs

/-- The bytes of the temporary vectors of the marker loop. -/
def Locals.bytes (z : ElementSizes) (l : Locals) : ℕ :=
  z.packetLengthMarker*l.packetLengthMarkers.capacity+
    packetLengthBytes*(l.packetLengthMarkers.items.map (·.payload.capacity)).sum+
    z.pptMarker*l.pptHeaders.capacity

theorem rgn_bytes {tile : TileOwner} (i shift : ℕ) (hi : i < tile.componentInfos.items.length) :
    (tile.setComponent i fun c => { c with roiShift := shift }).bytes z = tile.bytes z :=
  Nat.add_right_cancel (setComponent_bytes (z := z) hi _)

/-- What one marker of a tile-part does. -/
theorem tilePartMarker_triple (header : MainHeader) (numComponents code : ℕ) (l : Locals) :
    Triple (At z f (Shape n r) (l.bytes z)) (tilePartMarker A z header numComponents code l)
      (fun l' => At z f (Shape n r) (l'.bytes z)) (Failed A z f) := by
  have hdone : Triple (At z f (Shape n r) (l.bytes z)) (pure l : Marker Locals)
      (fun l' => At z f (Shape n r) (l'.bytes z)) (Failed A z f) := Triple.pure fun _ hs => hs
  unfold tilePartMarker
  refine Triple.ite (fun _ => ?_) fun _ => Triple.ite (fun _ => ?_) fun _ =>
    Triple.ite (fun _ => ?_) fun _ => Triple.ite (fun _ => ?_) fun _ =>
    Triple.ite (fun _ => ?_) fun _ => Triple.ite (fun _ => ?_) fun _ =>
    Triple.ite (fun _ => ?_) fun _ => Triple.ite (fun _ => ?_) fun _ =>
    Triple.ite (fun _ => ?_) fun _ => Triple.ite (fun _ => hdone) fun _ => fail_triple _
  · -- COD
    exact (read_triple codMarker).bind fun cod =>
      (replaceAll_triple (precinct_family _) _).bind fun _ => hdone
  · -- COC
    exact (read_triple (cocMarker numComponents)).bind fun coc =>
      (replaceOne_triple (precinct_family _) _ _).bind fun _ => hdone
  · -- QCD
    exact (read_triple qcdMarker).bind fun qcd =>
      (replaceAll_triple step_family _).bind fun _ => hdone
  · -- QCC
    exact (read_triple (qccMarker numComponents)).bind fun qcc =>
      (replaceOne_triple step_family _ _).bind fun _ => hdone
  · -- POC
    refine Triple.state fun s hs => Triple.pre ?_ fun _ h => h ▸ hs
    refine (read_triple _).bind fun changes => (parsedVec_triple _ changes).bind fun source =>
      (trackTemporary_triple _ source).bind fun _ => ?_
    have happend := appendTemporary_triple (A := A) (f := f)
      (t := l.bytes z+z.progressionChange*source.capacity)
      (changesPlace_flat (z := z) (n := n) (r := r)) source (Nat.le_add_left _ _)
    exact (happend.post fun _ s hs => by
      rwa [show (changesPlace z).size = z.progressionChange from rfl,Nat.add_sub_cancel] at hs).bind
      fun _ => hdone
  · -- RGN
    refine (read_triple _).bind fun rgn => ?_
    refine Triple.ite (fun _ => fail_triple _) fun _ => ?_
    refine Triple.state fun s hs => Triple.ite (fun hi => ?_) fun _ =>
      (fail_triple _).pre fun _ h => h ▸ hs
    refine (Triple.update fun s' h => ?_).bind fun _ => hdone
    subst h
    exact ⟨hs.1.setTile (rgn_bytes _ _ hi),setComponent_shape hs.2 _⟩
  · -- PPT
    refine Triple.ite (fun _ => fail_triple _) fun _ => ?_
    refine (reserveTemporary_triple z.pptMarker l.pptHeaders _ (Nat.le_add_left _ _)).bind
      fun pptHeaders => Triple.known fun hv => (read_triple _).bind fun ppt =>
        Triple.pure fun s hs => ?_
    obtain ⟨hitems,hroom,-⟩ := hv
    have hcapacity := extend_capacity (v := pptHeaders)
      (show _+[ppt].length ≤ _ by rw [hitems]; exact hroom)
    unfold Locals.bytes at hs ⊢
    rw [Nat.add_sub_cancel] at hs
    dsimp only
    rwa [hcapacity]
  · -- PLT
    refine (reserveTemporary_triple z.packetLengthMarker l.packetLengthMarkers _ (by
      unfold Locals.bytes; omega)).bind fun markers => Triple.known fun hv => ?_
    obtain ⟨hitems,hroom,-⟩ := hv
    refine Triple.state fun s hs => Triple.pre ?_ fun _ h => h ▸ hs
    refine (read_triple _).bind fun plt => (parsedVec_triple _ _).bind fun packetLengths =>
      (trackTemporary_triple _ packetLengths).bind fun _ => Triple.pure fun s hs => ?_
    have hcapacity := extend_capacity (v := markers)
      (show _+[(⟨plt.sequenceIdx,packetLengths⟩ : Sequenced _)].length ≤ _ by
        rw [hitems]; exact hroom)
    have hbytes : l.bytes z-z.packetLengthMarker*l.packetLengthMarkers.capacity+
        z.packetLengthMarker*markers.capacity+packetLengthBytes*packetLengths.capacity =
        Locals.bytes z { l with
          packetLengthMarkers := markers.extend [⟨plt.sequenceIdx,packetLengths⟩]
          packetLengthsPresent := true } := by
      unfold Locals.bytes
      dsimp only
      rw [hcapacity]
      unfold RustVec.extend
      dsimp only
      rw [hitems,List.map_append,List.sum_append,List.map_singleton,List.sum_singleton,Nat.mul_add]
      dsimp only
      omega
    rwa [hbytes] at hs
  · -- COM
    exact (read_triple _).bind fun _ => hdone

theorem reader_triple {I : TileOwner → Prop} (rest : List ℕ) :
    Triple (At z f I t) (Run.update fun s => { s with reader := rest } : Marker Unit)
      (fun _ => At z f I t) (Failed A z f) :=
  Triple.update fun _ hs =>
    ⟨⟨⟨hs.1.valid,hs.1.image,hs.1.cap,hs.1.retained⟩,hs.1.temporaryBytes,hs.1.capped⟩,hs.2⟩

/-- Any run of markers. -/
theorem markerLoop_triple (header : MainHeader) (numComponents fuel : ℕ) (l : Locals) :
    Triple (At z f (Shape n r) (l.bytes z)) (markerLoop A z header numComponents fuel l)
      (fun o => At z f (Shape n r) (o.1.bytes z)) (Failed A z f) := by
  induction fuel generalizing l with
  | zero => exact fail_triple _
  | succ fuel ih =>
      unfold markerLoop
      refine Triple.state fun s hs => Triple.pre ?_ fun _ h => h ▸ hs
      cases readMarker s.reader with
      | none => exact Triple.pure fun _ hs => hs
      | some marker =>
          refine Triple.ite (fun _ => ?_) fun _ => Triple.ite (fun _ => Triple.pure fun _ hs => hs)
            fun _ => ?_
          · exact (reader_triple _).bind fun _ => Triple.pure fun _ hs => hs
          · exact (reader_triple _).bind fun _ => (tilePartMarker_triple _ _ _ _).bind fun l => ih l

/-! ## Packet data -/

theorem packetLengthOwner_triple (header : MainHeader) (sot : TilePartHeader) (l : Locals) :
    Triple (At z f (Shape n r) t) (packetLengthOwner A header sot l)
      (fun v => At z f (Shape n r) (t+packetLengthBytes*v.capacity)) (Failed A z f) := by
  unfold packetLengthOwner
  refine Triple.ite (fun _ => tryCopyTemporary_triple _ _) fun _ => ?_
  refine (reserveTemporary_triple packetLengthBytes .empty _ (Nat.zero_le _)).bind fun v =>
    Triple.known fun hv => Triple.pure fun s hs => ?_
  obtain ⟨hitems,hroom,-⟩ := hv
  have hlength : ((sortSegments l.packetLengthMarkers.items).flatMap (·.payload.items)).length =
      (l.packetLengthMarkers.items.map (·.payload.items.length)).sum := by
    rw [List.length_flatMap]
    exact ((List.perm_insertionSort _ _).map _).sum_nat
  rw [extend_capacity (by rw [hitems,hlength]; exact (Nat.zero_add _).trans_le hroom)]
  exact hs

theorem retainTemporaryVec_eq {size : ℕ} {v : RustVec α} {s : Transaction}
    (h : size*v.capacity ≤ s.temporaryBytes) (hmax : s.temporaryBytes ≤ defaultMaxDecodeBytes) :
    retainTemporaryVec size v s =
      (.ok (),{ s with temporaryBytes := s.temporaryBytes-size*v.capacity }) := by
  have hadd := isizeMax_add
  have hlt := defaultMax_lt
  unfold retainTemporaryVec
  rw [checkedVectorBytes_eq (by omega),Fallible.ok_bind,checkedRelease_eq h (Nat.zero_le _)]
  rfl

/-- A tile-part's vectors are temporary until they are the tile's. -/
theorem keepTilePart_triple (part : TilePartOwner) :
    Triple (fun s => At z f (Shape n r) (part.bytes z) s ∧
        s.tile.tileParts.items.length+1 ≤ s.tile.tileParts.capacity)
      (do
        retainTilePartMetadata z part
        setPlace (partsPlace z) (·.extend [part]))
      (fun _ => At z f (Shape n r) 0) (Failed A z f) := by
  rintro s ⟨⟨hs,hI⟩,hroom⟩
  have hretained := hs.retained
  have htemporary := hs.temporaryBytes
  have hcapped := hs.capped
  have hretain : retainTilePartMetadata z part s = (.ok (),{ s with temporaryBytes := 0 }) := by
    cases part with
    | merged data packetLengths =>
        change s.temporaryBytes = packetLengthBytes*packetLengths.capacity at htemporary
        change retainTemporaryVec packetLengthBytes packetLengths s = _
        rw [retainTemporaryVec_eq (by omega) (by omega),htemporary,Nat.sub_self]
    | separated headers body packetLengths =>
        change s.temporaryBytes = z.bitReader*headers.capacity+
          packetLengthBytes*packetLengths.capacity at htemporary
        change andThen _ (retainTemporaryVec z.bitReader headers s) = _
        rw [retainTemporaryVec_eq (by omega) (by omega)]
        change retainTemporaryVec packetLengthBytes packetLengths _ = _
        rw [retainTemporaryVec_eq (by dsimp only; omega) (by dsimp only; omega)]
        dsimp only
        rw [htemporary,Nat.add_sub_cancel_left,Nat.sub_self]
  change Ends _ _ (andThen _ (retainTilePartMetadata z part s))
  rw [hretain]
  have hbytes : ((partsPlace z).put (s.tile.tileParts.extend [part]) s.tile).bytes z =
      s.tile.bytes z+part.bytes z := by
    unfold partsPlace TileOwner.bytes
    dsimp only
    rw [extend_capacity (show _+[part].length ≤ _ from hroom)]
    unfold RustVec.extend
    dsimp only
    rw [List.map_append,List.sum_append,List.map_singleton,List.sum_singleton]
    omega
  refine ⟨⟨⟨hs.valid,hs.image,hs.cap,?_⟩,rfl,hcapped⟩,hI⟩
  change s.budget.retainedBytes =
    _+((partsPlace z).put (s.tile.tileParts.extend [part]) s.tile).bytes z+0
  omega

/-- The part that the parser makes of the data and the vectors. -/
def tilePartOf (headers : RustVec (List ℕ)) (data : List ℕ) (packetLengths : RustVec ℕ) :
    TilePartOwner :=
  if headers.items.isEmpty then .merged data packetLengths
  else .separated headers data packetLengths

theorem tilePartOf_bytes {headers : RustVec (List ℕ)} (data : List ℕ) (packetLengths : RustVec ℕ)
    (h : headers.items.length = 0 → headers.capacity = 0) :
    (tilePartOf headers data packetLengths).bytes z =
      z.bitReader*headers.capacity+packetLengthBytes*packetLengths.capacity := by
  unfold tilePartOf
  split_ifs with hempty
  · have hlength : headers.items.length = 0 := by
      rw [List.isEmpty_iff.mp hempty,List.length_nil]
    rw [h hlength,Nat.mul_zero,Nat.zero_add]
    rfl
  · rfl

theorem takeTilePart_triple (header : MainHeader) (sot : TilePartHeader) (remainingBytes : ℕ)
    (l : Locals) :
    Triple (At z f (Shape n r) (l.bytes z)) (takeTilePart A z header sot remainingBytes l)
      (fun _ => At z f (Shape n r) 0) (Failed A z f) := by
  unfold takeTilePart
  refine Triple.state fun start hstart => Triple.pre ?_ fun _ h => h ▸ hstart
  refine (Triple.except (Q := fun _ => At z f (Shape n r) (l.bytes z)) (fun _ _ _ hs => hs)
    fun e _ hs => hs.1.failed e).bind fun count => ?_
  refine (reserveTemporary_triple z.bitReader .empty _ (Nat.zero_le _)).bind fun v =>
    Triple.known fun hv => ?_
  obtain ⟨hitems,hroom,hkept⟩ := hv
  have hitems : v.items = [] := hitems
  refine (packetLengthOwner_triple header sot l).bind fun packetLengths => ?_
  refine Triple.ite (fun _ => fail_triple _) fun hcount => ?_
  have hempty : z.bitReader*(RustVec.empty : RustVec (List ℕ)).capacity = 0 := Nat.mul_zero _
  have hppt : ((sortSegments l.pptHeaders.items).map (·.payload)).length =
      l.pptHeaders.items.length := by
    rw [List.length_map]
    exact (List.perm_insertionSort _ _).length_eq
  have hppm : (((header.ppmPackets.drop start.ppmPacketIdx).take count).map
      PpmPacket.data).length = count := by
    rw [List.length_map,List.length_take,List.length_drop]
    omega
  generalize ((sortSegments l.pptHeaders.items).map (·.payload)) = ppt at hppt ⊢
  generalize ((header.ppmPackets.drop start.ppmPacketIdx).take count).map PpmPacket.data = ppm
    at hppm ⊢
  -- the reader vector has the room of all headers, and none where there are none
  obtain ⟨hsecond,hnone⟩ := extend_reserved hitems
    (show ppt.length+ppm.length ≤ v.capacity by rw [hppt,hppm]; exact hroom)
    (fun hzero => by rw [hkept (by omega)]; rfl)
  generalize (v.extend ppt).extend ppm = headers at hsecond hnone ⊢
  refine (Triple.update fun s hs => ?_).bind (Q := fun _ => At z f (Shape n r)
    (l.bytes z-z.bitReader*(RustVec.empty : RustVec (List ℕ)).capacity+z.bitReader*v.capacity+
      packetLengthBytes*packetLengths.capacity)) fun _ => ?_
  · exact ⟨⟨⟨hs.1.valid,hs.1.image,hs.1.cap,hs.1.retained⟩,hs.1.temporaryBytes,hs.1.capped⟩,hs.2⟩
  refine (releaseTemporary_triple _ _ (by unfold Locals.bytes; omega)).bind fun _ =>
    (releaseTemporary_triple _ _ (by unfold Locals.bytes; omega)).bind fun _ =>
    (releaseTemporary_triple _ _ (by unfold Locals.bytes; omega)).bind fun _ => ?_
  refine (read_triple _).bind fun data => Triple.state fun t ht => ?_
  have hbytes := tilePartOf_bytes (z := z) data packetLengths hnone
  refine ((reserveRetained_triple partsPlace_lawful t.tile.tileParts.items.length _).pre
    fun s hs => ⟨hs ▸ ht,by rw [hs]; rfl⟩).bind fun _ => ?_
  refine (keepTilePart_triple (tilePartOf headers data packetLengths)).pre fun s hs => ?_
  obtain ⟨hs,hlength,hroom⟩ := hs
  refine ⟨?_,hlength ▸ hroom⟩
  rw [hbytes,hsecond]
  unfold Locals.bytes at hs
  rwa [hempty,show ∀ a b c d e : ℕ, a+b+c-0+d+e-a-b-c = d+e from fun _ _ _ _ _ => by omega] at hs

theorem At.tracked {I : TileOwner → Prop} {s : Transaction} (h : At z f I t s) :
    ∃ t, Tracked z f t s := ⟨t,h.1⟩

/-- A tile-part behind its SOT segment; where it ends early its temporary vectors are left to the
transaction. -/
theorem tilePartBody_triple (header : MainHeader) (sot : TilePartHeader) (dataLen : ℕ) :
    Triple (At z f (Shape n r) 0) (tilePartBody A z header sot dataLen)
      (fun _ s => ∃ t, Tracked z f t s) (Failed A z f) := by
  unfold tilePartBody
  refine Triple.state fun start hstart => Triple.pre ?_ fun _ h => h ▸ hstart
  refine Triple.ite (fun _ => fail_triple _) fun _ => ?_
  refine ((markerLoop_triple (n := n) (r := r) header _ _ ⟨.empty,false,.empty⟩).pre
    fun s hs => ?_).bind fun o => ?_
  · exact hs
  refine Triple.state fun s hs => Triple.pre ?_ fun _ h => h ▸ hs
  refine Triple.ite (fun _ => Triple.ite (fun _ => fail_triple _) fun _ =>
    Triple.pure fun _ hs => hs.tracked) fun _ => ?_
  refine Triple.ite (fun _ => fail_triple _) fun _ => ?_
  refine Triple.ite (fun _ => Triple.ite (fun _ => fail_triple _) fun _ =>
    Triple.pure fun _ hs => hs.tracked) fun _ => ?_
  exact (takeTilePart_triple header sot _ _).post fun _ _ hs => hs.tracked

end

/-! ## Inheritance -/

section
variable {α : Type} {A : Allocator} {z : ElementSizes} {f : Frame} {n r t : ℕ}
  {I J : TileOwner → Prop} {p : TilePlace α}

theorem TilePlace.FlatOn.and (h : p.FlatOn z I) (hJ : ∀ t v, J t → J (p.put v t)) :
    p.FlatOn z fun t => I t ∧ J t :=
  ⟨fun t ht => h.get_put t ht.1,fun t ht => h.bytes t ht.1,
    fun t ht v => ⟨h.keeps t ht.1 v,hJ t v ht.2⟩⟩

theorem TilePlace.LawfulOn.and (h : p.LawfulOn z I) (hJ : ∀ t v, J t → J (p.put v t)) :
    p.LawfulOn z fun t => I t ∧ J t :=
  ⟨fun t ht => h.get_put t ht.1,fun t ht => h.bytes t ht.1,
    fun t ht v hv => ⟨h.keeps t ht.1 v hv,hJ t v ht.2⟩⟩

/-- An empty vector of the tile takes over elements. -/
theorem inheritElements_triple (h : p.FlatOn z I) (source : List α) :
    Triple (fun s => At z f I t s ∧ (p.get s.tile).items.length = 0) (inheritElements A p source)
      (fun _ => At z f I t) (Failed A z f) := by
  unfold inheritElements
  refine (reserveRetained_triple h.lawful 0 source.length).bind fun _ => ?_
  refine (extend_triple h source).pre fun s hs => ⟨hs.1,?_⟩
  rw [hs.2.1,Nat.zero_add]
  exact hs.2.2

/-- A tile that has not inherited progression changes. -/
def NoChanges (t : TileOwner) : Prop := t.progressionChanges.items.length = 0

/-- A component whose step sizes are empty. -/
def NoSteps (i : ℕ) (t : TileOwner) : Prop := ((stepPlace i).get t).items.length = 0

theorem noSteps_precincts {i : ℕ} (tile : TileOwner) (v : RustVec (ℕ × ℕ)) (h : NoSteps i tile) :
    NoSteps i ((precinctPlace i).put v tile) := by
  unfold NoSteps stepPlace precinctPlace at *
  unfold TileOwner.component? TileOwner.setComponent at *
  dsimp only at *
  rw [List.getElem?_modify_eq]
  cases hc : tile.componentInfos.items[i]? with
  | none => rfl
  | some c =>
      rw [hc] at h
      exact h

/-- The next component of a tile, which owns nothing yet. -/
theorem pushComponent_triple (numResolutionLevels roiShift : ℕ) (hroom : n+1 ≤ r) :
    Triple (At z f (fun tile => Shape n r tile ∧ NoChanges tile) t)
      (setPlace (componentPlace z) (·.extend [⟨numResolutionLevels,.empty,.empty,roiShift⟩]))
      (fun _ s => At z f (fun tile => (Shape (n+1) r tile ∧ NoChanges tile) ∧ NoSteps n tile) t s ∧
        ((precinctPlace n).get s.tile).items.length = 0) (Failed A z f) := by
  refine Triple.update fun s hs => ?_
  obtain ⟨hs,⟨hn,hr⟩,hchanges⟩ := hs
  have hcapacity := extend_capacity (v := s.tile.componentInfos)
    (show _+[(⟨numResolutionLevels,.empty,.empty,roiShift⟩ : ComponentOwner)].length ≤ _ by
      rw [hn]; exact hroom.trans hr)
  have hlast : (s.tile.componentInfos.extend
      [⟨numResolutionLevels,.empty,.empty,roiShift⟩]).items[n]? =
      some ⟨numResolutionLevels,.empty,.empty,roiShift⟩ := by
    unfold RustVec.extend
    dsimp only
    rw [List.getElem?_append_right hn.le,hn,Nat.sub_self]
    rfl
  refine ⟨⟨hs.setTile ?_,⟨⟨?_,?_⟩,hchanges⟩,?_⟩,?_⟩
  · unfold componentPlace TileOwner.bytes
    dsimp only
    rw [hcapacity]
    unfold RustVec.extend
    dsimp only
    rw [List.map_append,List.sum_append,List.map_singleton,List.sum_singleton]
    unfold ComponentOwner.bytes RustVec.empty
    dsimp only
    omega
  · change (s.tile.componentInfos.items ++ _).length = _
    rw [List.length_append,hn]
    rfl
  · exact hr.trans_eq hcapacity.symm
  · change ((Option.elim _ _ _ : RustVec StepSize)).items.length = 0
    unfold TileOwner.component?
    change (Option.elim ((s.tile.componentInfos.extend _).items[n]?) _ _ :
      RustVec StepSize).items.length = 0
    rw [hlast]
    rfl
  · change (Option.elim ((s.tile.componentInfos.extend _).items[n]?) _ _ :
      RustVec (ℕ × ℕ)).items.length = 0
    rw [hlast]
    rfl

theorem inheritComponents_triple (sources : List InheritedComponent)
    (hroom : n+sources.length ≤ r) :
    Triple (At z f (fun tile => Shape n r tile ∧ NoChanges tile) t) (inheritComponents A z sources)
      (fun _ => At z f (fun tile => Shape (n+sources.length) r tile ∧ NoChanges tile) t)
      (Failed A z f) := by
  induction sources generalizing n with
  | nil => exact Triple.pure fun _ hs => hs
  | cons source sources ih =>
      rw [List.length_cons] at hroom ⊢
      unfold inheritComponents
      refine (pushComponent_triple _ _ (by omega)).bind fun _ => Triple.state fun s hs => ?_
      have hlast : s.tile.componentInfos.items.length-1 = n := by
        rw [hs.1.2.1.1.1,Nat.add_sub_cancel]
      rw [hlast]
      have hprecincts : (precinctPlace n).FlatOn z
          fun tile => (Shape (n+1) r tile ∧ NoChanges tile) ∧ NoSteps n tile :=
        ((precinctPlace_flat (Nat.lt_succ_self n)).and fun _ _ h => h).and noSteps_precincts
      have hsteps : (stepPlace n).FlatOn z fun tile => Shape (n+1) r tile ∧ NoChanges tile :=
        (stepPlace_flat (Nat.lt_succ_self n)).and fun _ _ h => h
      refine ((inheritElements_triple hprecincts _).pre fun _ h => h ▸ hs).bind fun _ => ?_
      refine ((inheritElements_triple hsteps _).pre fun s hs =>
        ⟨⟨hs.1,hs.2.1⟩,hs.2.2⟩).bind fun _ => ?_
      have := ih (n := n+1) (by omega)
      rwa [show n+1+sources.length = n+(sources.length+1) by omega] at this

theorem inheritTileMetadata_triple (header : Header) :
    Triple (At z f (· = TileOwner.new) 0) (inheritTileMetadata A z header)
      (fun _ s => ∃ t, Tracked z f t s) (Failed A z f) := by
  have hcomponents : (componentPlace z).LawfulOn z
      fun tile => tile.componentInfos.items.length = 0 ∧ NoChanges tile :=
    componentPlace_lawful.and fun _ _ h => h
  have hchanges : (changesPlace z).FlatOn z
      (Shape (0+header.componentInfos.length) header.componentInfos.length) := changesPlace_flat
  unfold inheritTileMetadata
  refine ((reserveRetained_triple (t := 0) hcomponents 0 header.componentInfos.length).pre
    fun s hs => ?_).bind fun _ => ?_
  · obtain ⟨hs,htile⟩ := hs
    rw [htile]
    exact ⟨⟨hs,htile ▸ ⟨rfl,rfl⟩⟩,rfl⟩
  refine ((inheritComponents_triple (n := 0) (r := header.componentInfos.length) _
    (Nat.zero_add _).le).pre fun s hs => ⟨hs.1.1,⟨hs.1.2.1,hs.2.2⟩,hs.1.2.2⟩).bind fun _ => ?_
  exact (inheritElements_triple (t := 0) hchanges _).conseq
    (fun s hs => ⟨⟨hs.1,hs.2.1⟩,hs.2.2⟩) fun _ _ hs => hs.tracked

end

/-! ## All tiles -/

/-- The budget counts what the tiles own. -/
structure Counted (z : ElementSizes) (image : ℕ) (m : Memory) : Prop where
  valid : m.budget.accountingValid = true
  baseline : m.budget.retainedImageBytes = image
  cap : m.budget.cap = defaultMaxDecodeBytes
  retained : m.budget.retainedBytes = image+tileOwnerBytes z m.tiles

/-- Where the parser goes on. -/
structure Parsing (z : ElementSizes) (image : ℕ) (m : Memory) : Prop extends Counted z image m where
  capped : m.budget.retainedBytes ≤ defaultMaxDecodeBytes

/-- Where the parser has failed. -/
structure Stopped (A : Allocator) (z : ElementSizes) (image : ℕ) (e : MetadataError)
    (m : Memory) : Prop extends Counted z image m where
  capped : A.Exact → m.budget.retainedBytes ≤ defaultMaxDecodeBytes
  refused : defaultMaxDecodeBytes < m.budget.retainedBytes → e = .imageTooLarge

section
variable {A : Allocator} {z : ElementSizes} {image : ℕ} {f : Frame} {m : Memory}

theorem Parsing.stopped (h : Parsing z image m) (e : MetadataError) : Stopped A z image e m :=
  ⟨h.toCounted,fun _ => h.capped,fun hover => absurd h.capped (Nat.not_le_of_lt hover)⟩

/-- What the end of a transaction leaves in the budget. -/
theorem Ledger.drop_eq {s : Transaction} (h : Ledger z f s) :
    s.budget.dropTransaction s.temporaryBytes =
      { s.budget with retainedBytes := f.image+f.others+s.tile.bytes z } := by
  have hretained := h.retained
  unfold TileMetadataBudget.dropTransaction
  split_ifs with hzero hle
  · rw [hzero,Nat.add_zero] at hretained
    rw [← hretained]
  · rw [show s.budget.retainedBytes-s.temporaryBytes = f.image+f.others+s.tile.bytes z by omega]
  · omega

/-- The bytes of the tiles when one of them is changed. -/
theorem setTile_bytes {tiles : RustVec TileOwner} {idx : ℕ} (hidx : idx < tiles.items.length)
    (tile : TileOwner) :
    tileOwnerBytes z { tiles with items := tiles.items.set idx tile }+
        (tiles.items.get ⟨idx,hidx⟩).bytes z =
      tileOwnerBytes z tiles+tile.bytes z := by
  have := sum_modify (TileOwner.bytes z) (fun _ => tile) tiles.items hidx
  unfold tileOwnerBytes
  dsimp only
  rw [List.set_eq_modify]
  omega

/-- A transaction on a tile, or its inheritance. -/
theorem onTile_ends {idx : ℕ} {tile : TileOwner} {x : Marker Unit} (h : Parsing z image m)
    (htile : m.tiles.items[idx]? = some tile)
    (hx : ∀ f : Frame, Triple (At z f (· = tile) 0) x (fun _ s => ∃ t, Tracked z f t s)
      (Failed A z f)) :
    Ends (fun _ m' => Parsing z image m' ∧ m'.tiles.items.length = m.tiles.items.length ∧
      m'.tiles.capacity = m.tiles.capacity) (Stopped A z image) (onTile idx x m) := by
  obtain ⟨hidx,rfl⟩ := List.getElem?_eq_some_iff.mp htile
  have hset := fun tile => setTile_bytes (z := z) hidx tile
  have hself := hset (m.tiles.items.get ⟨idx,hidx⟩)
  have hretained := h.retained
  have hle : (m.tiles.items.get ⟨idx,hidx⟩).bytes z ≤ tileOwnerBytes z m.tiles := by
    have := hset TileOwner.new
    have hnew : TileOwner.new.bytes z = 0 := by simp [TileOwner.bytes,TileOwner.new,RustVec.empty]
    omega
  unfold onTile
  rw [htile]
  dsimp only
  have hrun := hx ⟨image,tileOwnerBytes z m.tiles-(m.tiles.items.get ⟨idx,hidx⟩).bytes z⟩
    ⟨m.reader,m.budget,0,m.tiles.items[idx],m.ppmPacketIdx,m.allocations⟩
    ⟨⟨⟨h.valid,h.baseline,h.cap,by
      change m.budget.retainedBytes = _+_+(m.tiles.items.get ⟨idx,hidx⟩).bytes z+0
      dsimp only
      omega⟩,rfl,h.capped⟩,rfl⟩
  generalize x ⟨m.reader,m.budget,0,m.tiles.items[idx],m.ppmPacketIdx,m.allocations⟩ = o at hrun ⊢
  obtain ⟨result,s⟩ := o
  have hcounted (hs : Ledger z ⟨image,tileOwnerBytes z m.tiles-
      (m.tiles.items.get ⟨idx,hidx⟩).bytes z⟩ s) : Counted z image ⟨s.reader,
        s.budget.dropTransaction s.temporaryBytes,
        { m.tiles with items := m.tiles.items.set idx s.tile },s.ppmPacketIdx,s.allocations⟩ ∧
        (s.budget.dropTransaction s.temporaryBytes).retainedBytes ≤ s.budget.retainedBytes := by
    have hs' := hs.retained
    have := hset s.tile
    rw [hs.drop_eq]
    refine ⟨⟨hs.valid,hs.image,hs.cap,?_⟩,?_⟩
    · dsimp only
      omega
    · dsimp only at hs' ⊢
      omega
  cases result with
  | error e =>
      have hrun : Failed A z _ e s := hrun
      obtain ⟨hc,hdrop⟩ := hcounted hrun.toLedger
      exact ⟨hc,fun hA => hdrop.trans (hrun.capped hA),fun hover => hrun.refused (hover.trans_le hdrop)⟩
  | ok u =>
      obtain ⟨t,hrun⟩ := (hrun : ∃ t, Tracked z _ t s)
      obtain ⟨hc,hdrop⟩ := hcounted hrun.toLedger
      exact ⟨⟨hc,hdrop.trans hrun.capped⟩,List.length_set,rfl⟩

theorem reserveTiles_triple (target k : ℕ) :
    Triple (fun m => Parsing z image m ∧ m.tiles.items.length = k) (reserveTiles A z target)
      (fun _ m => Parsing z image m ∧ m.tiles.items.length = k ∧ target ≤ m.tiles.capacity)
      (Stopped A z image) := by
  rintro m ⟨h,hk⟩
  have hretained := h.retained
  have hspec := tryReserveRetained_spec A m.allocations target
    h.valid h.cap (by rw [h.cap]; exact h.capped)
    (show z.tile*m.tiles.capacity ≤ m.budget.retainedBytes by
      rw [hretained]; unfold tileOwnerBytes; omega)
  unfold reserveTiles
  generalize m.budget.tryReserveRetained A m.allocations z.tile m.tiles target = o at *
  obtain ⟨result,b,v⟩ := o
  dsimp only at hspec ⊢
  have hmoved := hspec.bytes
  have hcounted : Counted z image { m with
      budget := b, tiles := v, allocations := m.allocations+1 } := by
    refine ⟨?_,?_,?_,?_⟩
    · rw [hspec.budget]
      exact h.valid
    · rw [hspec.budget]
      exact h.baseline
    · rw [hspec.budget]
      exact h.cap
    · unfold tileOwnerBytes at hretained ⊢
      dsimp only
      rw [hspec.items]
      omega
  cases result with
  | error e =>
      exact ⟨hcounted,fun hA => (hspec.exact hA).trans_eq h.cap,fun hover =>
        Except.error.inj (hspec.refused (h.cap.trans_lt hover))⟩
  | ok u =>
      obtain ⟨hroom,hcap⟩ := hspec.room rfl
      exact ⟨⟨hcounted,hcap.trans_eq h.cap⟩,(congrArg List.length hspec.items).trans hk,hroom⟩

theorem inheritTiles_triple (header : Header) (count k : ℕ) :
    Triple (fun m => Parsing z image m ∧ m.tiles.items.length = k ∧ k+count ≤ m.tiles.capacity)
      (inheritTiles A z header count) (fun _ => Parsing z image) (Stopped A z image) := by
  induction count generalizing k with
  | zero => exact Triple.pure fun _ hm => hm.1
  | succ count ih =>
      unfold inheritTiles
      refine (Triple.update fun m hm => ?_).bind (Q := fun _ m => (Parsing z image m ∧
        m.tiles.items.length = k+1 ∧ k+1+count ≤ m.tiles.capacity) ∧
        m.tiles.items[k]? = some TileOwner.new) fun _ => ?_
      · obtain ⟨h,hk,hroom⟩ := hm
        have hcapacity := extend_capacity (v := m.tiles)
          (show _+[TileOwner.new].length ≤ _ by rw [hk,List.length_singleton]; omega)
        have hnew : TileOwner.new.bytes z = 0 := by
          simp [TileOwner.bytes,TileOwner.new,RustVec.empty]
        refine ⟨⟨⟨⟨h.valid,h.baseline,h.cap,?_⟩,h.capped⟩,?_,?_⟩,?_⟩
        · change m.budget.retainedBytes = image+tileOwnerBytes z (m.tiles.extend [TileOwner.new])
          unfold tileOwnerBytes
          rw [hcapacity,h.retained]
          change _ = image+(_+((m.tiles.items ++ [TileOwner.new]).map (TileOwner.bytes z)).sum)
          rw [List.map_append,List.sum_append,List.map_singleton,List.sum_singleton,hnew]
          rfl
        · change (m.tiles.items ++ [TileOwner.new]).length = _
          rw [List.length_append,hk]
          rfl
        · exact (show k+1+count ≤ _ by omega).trans_eq hcapacity.symm
        · change (m.tiles.items ++ [TileOwner.new])[k]? = _
          rw [List.getElem?_append_right hk.le,hk,Nat.sub_self]
          rfl
      refine Triple.state fun m hm => ?_
      obtain ⟨⟨h,hk,hroom⟩,hlast⟩ := hm
      rw [hk,Nat.add_sub_cancel]
      have hrun : Triple (· = m) (onTile k (inheritTileMetadata A z header))
          (fun _ m' => Parsing z image m' ∧ m'.tiles.items.length = m.tiles.items.length ∧
            m'.tiles.capacity = m.tiles.capacity) (Stopped A z image) := by
        rintro m' rfl
        exact onTile_ends h hlast fun f => inheritTileMetadata_triple header
      refine hrun.bind fun _ => (ih (k+1)).pre fun m' hm' => ?_
      exact ⟨hm'.1,hm'.2.1.trans hk,hroom.trans_eq hm'.2.2.symm⟩

theorem parseTilePart_triple (header : MainHeader) :
    Triple (Parsing z image) (parseTilePart A z header) (fun _ => Parsing z image)
      (Stopped A z image) := by
  intro m h
  unfold parseTilePart
  cases readSot header.numTiles m.reader with
  | error e => exact h.stopped _
  | ok o =>
      obtain ⟨⟨sot,dataLen⟩,rest⟩ := o
      dsimp only
      have h' : Parsing z image { m with reader := rest } :=
        ⟨⟨h.valid,h.baseline,h.cap,h.retained⟩,h.capped⟩
      cases htile : m.tiles.items[sot.tileIndex]? with
      | none =>
          unfold onTile
          have hnone : ({ m with reader := rest } : Memory).tiles.items[sot.tileIndex]? = none := htile
          rw [hnone]
          exact h'.stopped _
      | some tile =>
          refine (onTile_ends h' htile fun f => ?_).mono fun _ _ hm => hm.1
          refine (tilePartBody_triple (n := tile.componentInfos.items.length)
            (r := tile.componentInfos.capacity) header sot dataLen).pre fun s hs => ⟨hs.1,?_⟩
          rw [hs.2]
          exact ⟨rfl,le_rfl⟩

/-- Any run of tile-parts. -/
theorem parseTileParts_triple (header : MainHeader) (fuel : ℕ) :
    Triple (Parsing z image) (parseTileParts A z header fuel) (fun _ => Parsing z image)
      (Stopped A z image) := by
  induction fuel with
  | zero => exact Triple.fail fun _ h => h.stopped _
  | succ fuel ih =>
      unfold parseTileParts
      refine (parseTilePart_triple header).bind fun _ => Triple.state fun m hm => ?_
      refine Triple.ite (fun _ => ih.pre fun _ h => h ▸ hm) fun _ => ?_
      exact Triple.pure fun _ h => h ▸ hm

theorem parseTiles_triple (header : Header) :
    Triple (fun m => Parsing z image m ∧ m.tiles.items.length = 0) (parseTiles A z header)
      (fun _ => Parsing z image) (Stopped A z image) := by
  have hstop {m : Memory} (hm : Parsing z image m) (e : MetadataError) :
      Triple (· = m) (Run.fail e : Tiles Unit) (fun _ => Parsing z image) (Stopped A z image) :=
    Triple.fail fun _ h => h ▸ hm.stopped e
  have hdone {m : Memory} (hm : Parsing z image m) :
      Triple (· = m) (pure () : Tiles Unit) (fun _ => Parsing z image) (Stopped A z image) :=
    Triple.pure fun _ h => h ▸ hm
  unfold parseTiles
  refine (reserveTiles_triple header.main.numTiles 0).bind fun _ => ?_
  refine ((inheritTiles_triple header header.main.numTiles 0).pre fun m hm =>
    ⟨hm.1,hm.2.1,(Nat.zero_add _).trans_le hm.2.2⟩).bind fun _ => ?_
  refine Triple.state fun m hm => ?_
  refine ((parseTileParts_triple header.main _).pre fun _ h => h ▸ hm).bind fun _ => ?_
  refine Triple.state fun m hm => Triple.ite (fun _ => hstop hm _) fun _ =>
    Triple.ite (fun _ => ?_) fun _ => hdone hm
  cases readMarker m.reader with
  | none => exact hstop hm _
  | some marker => exact Triple.ite (fun _ => hdone hm) fun _ => hstop hm _

/-- The check of the owners finds no mismatch. -/
theorem validateOwnerGraph_eq (h : Parsing z image m) :
    m.budget.validateOwnerGraph z m.tiles = .ok () := by
  have hadd := isizeMax_add
  have hmax := defaultMax_lt
  have hretained := h.retained
  have hcapped := h.capped
  have hcap := h.cap
  have hbaseline := h.baseline
  unfold TileMetadataBudget.validateOwnerGraph tileOwnerAllocationBytes
  rw [if_neg (by simp [h.valid]),if_pos (by omega),Fallible.ok_bind]
  unfold checkedAddMetadataBytes validateMetadataByteCap
  rw [if_pos (by omega),Fallible.ok_bind,if_neg (by omega),Fallible.ok_bind,if_neg (by omega)]

/-! ## The parser -/

theorem forImage_parsing {header : Header} {budget : TileMetadataBudget}
    (h : TileMetadataBudget.forImage z header image = .ok budget) (data : List ℕ) :
    Parsing z image ⟨data,budget,.empty,0,0⟩ := by
  unfold TileMetadataBudget.forImage at h
  obtain ⟨_,-,h⟩ := Fallible.bind_eq_ok.mp h
  obtain ⟨_,-,h⟩ := Fallible.bind_eq_ok.mp h
  obtain ⟨_,-,h⟩ := Fallible.bind_eq_ok.mp h
  unfold TileMetadataBudget.withCap validateMetadataByteCap at h
  obtain ⟨_,hcap,h⟩ := Fallible.bind_eq_ok.mp h
  split_ifs at hcap with hle
  rw [← Except.ok.inj h]
  exact ⟨⟨rfl,rfl,rfl,rfl⟩,Nat.le_of_not_lt hle⟩

/-- In every run over every bytes, whether it fails or not, the budget counts the image's bytes
and those that the tiles own. It is within the cap where the run succeeds, and always where the
allocator is exact; where it is not, the run has failed for the size of the image. The last check
changes no outcome. -/
theorem tile_metadata_counted (A : Allocator) {header : Header} {budget : TileMetadataBudget}
    (h : TileMetadataBudget.forImage z header image = .ok budget) (data : List ℕ) :
    Counted z image (parseTiles A z header ⟨data,budget,.empty,0,0⟩).2 ∧
      ((parseTiles A z header ⟨data,budget,.empty,0,0⟩).1 = .ok () ∨ A.Exact →
        (parseTiles A z header ⟨data,budget,.empty,0,0⟩).2.budget.retainedBytes ≤
          defaultMaxDecodeBytes) ∧
      (defaultMaxDecodeBytes <
          (parseTiles A z header ⟨data,budget,.empty,0,0⟩).2.budget.retainedBytes →
        (parseTiles A z header ⟨data,budget,.empty,0,0⟩).1 = .error .imageTooLarge) ∧
      parse A z header ⟨data,budget,.empty,0,0⟩ =
        parseTiles A z header ⟨data,budget,.empty,0,0⟩ := by
  have hends := parseTiles_triple (A := A) header _ ⟨forImage_parsing h data,rfl⟩
  have hparse : parse A z header ⟨data,budget,.empty,0,0⟩ = andThen (fun _ => do
      let m ← Run.state
      Run.except (m.budget.validateOwnerGraph z m.tiles))
      (parseTiles A z header ⟨data,budget,.empty,0,0⟩) := rfl
  rw [hparse]
  generalize parseTiles A z header ⟨data,budget,.empty,0,0⟩ = o at hends ⊢
  obtain ⟨e | u,m⟩ := o
  · exact ⟨hends.toCounted,fun hor => hends.capped (hor.resolve_left (fun h => nomatch h)),
      fun hover => congrArg _ (hends.refused hover),rfl⟩
  · refine ⟨hends.toCounted,fun _ => hends.capped,
      fun hover => absurd hends.capped (Nat.not_le_of_lt hover),?_⟩
    change (m.budget.validateOwnerGraph z m.tiles,m) = _
    rw [validateOwnerGraph_eq hends]

/-- Gives what it is asked for, below the bound of an allocation. -/
def exactAllocator : Allocator where
  grow _ size _ target := if size*target ≤ isizeMax then some target else none
  room h := (Option.some.inj (Option.ite_none_right_eq_some.mp h).2).le
  fits h := by
    obtain ⟨hle,heq⟩ := Option.ite_none_right_eq_some.mp h
    rwa [← Option.some.inj heq]

def smallSizes : ElementSizes := ⟨100,40,30,20,8,30,20⟩

/-- One tile of one component without decomposition. -/
def smallHeader : Header := ⟨⟨false,1,1,0,[],[],0⟩,[⟨1,[(15,15)],[⟨0,8⟩],0⟩],[]⟩

/-- A tile-part with a PLT marker of one packet length. -/
theorem tile_metadata_counted_small :
    Counted smallSizes 1000 (parseTiles exactAllocator smallSizes smallHeader
      ⟨[0xFF,0x90,0,10,0,0,0,0,0,0,0,1,0xFF,0x58,0,4,0,2,0xFF,0x93,7,8],
        ⟨1000,1000,defaultMaxDecodeBytes,true⟩,.empty,0,0⟩).2 :=
  (tile_metadata_counted exactAllocator rfl _).1

/-- Gives room for one element more than it is asked for. -/
def generousAllocator : Allocator where
  grow _ size _ target := if size*(target+1) ≤ isizeMax then some (target+1) else none
  room h := by
    obtain ⟨-,heq⟩ := Option.ite_none_right_eq_some.mp h
    exact (Nat.le_succ _).trans_eq (Option.some.inj heq)
  fits h := by
    obtain ⟨hle,heq⟩ := Option.ite_none_right_eq_some.mp h
    rwa [← Option.some.inj heq]

/-- With an image that leaves room for the one tile, the vector of tiles takes the count past the
cap. -/
theorem generous_allocator_exceeds :
    TileMetadataBudget.forImage smallSizes smallHeader (defaultMaxDecodeBytes-146) =
        .ok ⟨defaultMaxDecodeBytes-146,defaultMaxDecodeBytes-146,defaultMaxDecodeBytes,true⟩ ∧
      defaultMaxDecodeBytes < (parseTiles generousAllocator smallSizes smallHeader ⟨[],
        ⟨defaultMaxDecodeBytes-146,defaultMaxDecodeBytes-146,defaultMaxDecodeBytes,true⟩,
        .empty,0,0⟩).2.budget.retainedBytes := by
  decide

end

end J2kNative.TileMetadata
