import J2kNative.RestartChunks

/-!
# What the restart chunks ask of the host

The serial writer asks for one buffer. The chunks ask for their records, a buffer for each and
one for the joined bytes, all of them live at once. Each run succeeds where it is given these
within the limit and its bytes fit.
-/
namespace J2kNative.EntropyInput
open Emission

variable {input : EntropyInput} {mcusPerRow totalMcus restartInterval : ℕ}

theorem checkedEncodeHostLiveBytes_eq_ok {capacities : List ℕ} {bytes : ℕ} :
    checkedEncodeHostLiveBytes capacities = .ok bytes ↔
      capacities.sum ≤ maxHostAllocationBytes ∧ capacities.sum = bytes := by
  have hmax : maxHostAllocationBytes < 2^64 := by decide
  unfold checkedEncodeHostLiveBytes
  split_ifs with hword hcap
  · exact ⟨nofun,fun h => by omega⟩
  · exact ⟨nofun,fun h => by omega⟩
  · rw [Except.ok.injEq]
    exact ⟨fun h => ⟨by omega,h⟩,And.right⟩

/-- A buffer is had when the allocator gives what it is asked for, no more. -/
theorem tryWithCapacity_eq_ok {host : EncodeHost} {number maxLen given : ℕ} :
    CappedBytes.tryWithCapacity host number maxLen = .ok given ↔
      host.reserve number maxLen = some maxLen ∧ given = maxLen := by
  unfold CappedBytes.tryWithCapacity
  cases hreserve : host.reserve number maxLen with
  | none => exact ⟨nofun,fun h => nomatch h.1⟩
  | some capacity =>
      have hle := host.le_reserve hreserve
      dsimp only
      rw [Option.some.injEq]
      split_ifs with hmore
      · exact ⟨nofun,fun h => by omega⟩
      · rw [Except.ok.injEq]
        exact ⟨fun h => by omega,fun h => by omega⟩

theorem jobRecordBytes_eq_ok {host : EncodeHost} {count bytes : ℕ} :
    jobRecordBytes host count = .ok bytes ↔
      count*host.jobBytes < 2^64 ∧ count*host.jobBytes = bytes := by
  unfold jobRecordBytes
  split_ifs with hword
  · exact ⟨nofun,fun h => by omega⟩
  · rw [Except.ok.injEq]
    exact ⟨fun h => ⟨by omega,h⟩,And.right⟩

/-- The host has what one writer asks for. -/
structure HoldsWriter (host : EncodeHost) (entropyCapacity : ℕ) : Prop where
  live : host.externalLiveBytes+entropyCapacity ≤ maxHostAllocationBytes
  writer : host.reserve 0 entropyCapacity = some entropyCapacity

/-- The host has what chunks of the given capacities ask for, all of it at once. -/
structure HoldsChunks (host : EncodeHost) (capacities : List ℕ)
    (entropyCapacity : ℕ) : Prop where
  live : ∃ records, host.reserve 0 capacities.length = some records ∧
    host.externalLiveBytes+entropyCapacity+records*host.jobBytes+capacities.sum ≤
      maxHostAllocationBytes
  chunks : ∀ chunkIndex capacity, capacities[chunkIndex]? = some capacity →
    host.reserve (chunkIndex+1) capacity = some capacity
  output : host.reserve (capacities.length+1) entropyCapacity = some entropyCapacity

theorem encodeEntropyRestartChunk_eq_ok {host : EncodeHost} {first last maxBytes : ℕ}
    {out : List ℕ} :
    encodeEntropyRestartChunk host input mcusPerRow totalMcus restartInterval first last maxBytes =
        .ok out ↔
      HoldsWriter host maxBytes ∧
        restartChunkBytes input mcusPerRow totalMcus restartInterval first last maxBytes =
          .ok out := by
  unfold encodeEntropyRestartChunk
  constructor
  · intro h
    obtain ⟨_,hlive,h⟩ := Fallible.bind_eq_ok.mp h
    obtain ⟨given,hgiven,h⟩ := Fallible.bind_eq_ok.mp h
    obtain ⟨_,-,h⟩ := Fallible.bind_eq_ok.mp h
    have hlive := (checkedEncodeHostLiveBytes_eq_ok.mp hlive).1
    simp only [List.sum_cons,List.sum_nil] at hlive
    exact ⟨⟨by omega,(tryWithCapacity_eq_ok.mp hgiven).1⟩,h⟩
  · intro ⟨hholds,h⟩
    have hlive : checkedEncodeHostLiveBytes [host.externalLiveBytes,maxBytes] =
        .ok (host.externalLiveBytes+maxBytes) := by
      refine checkedEncodeHostLiveBytes_eq_ok.mpr ?_
      have := hholds.live
      simp only [List.sum_cons,List.sum_nil]
      omega
    have hgiven := tryWithCapacity_eq_ok.mpr ⟨hholds.writer,rfl⟩
    exact Fallible.bind_eq_ok.mpr ⟨_,hlive,Fallible.bind_eq_ok.mpr ⟨_,hgiven,
      Fallible.bind_eq_ok.mpr ⟨_,hlive,h⟩⟩⟩

section
variable {host : EncodeHost} {capacity : ℕ → ℕ} {outputCapacity metadataBytes k : ℕ}

theorem prepareRestartJob_eq_ok {chunkLiveBytes chunkIndex live : ℕ} :
    prepareRestartJob host capacity outputCapacity metadataBytes chunkLiveBytes chunkIndex =
        .ok live ↔
      host.reserve (chunkIndex+1) (capacity chunkIndex) = some (capacity chunkIndex) ∧
        host.externalLiveBytes+outputCapacity+metadataBytes+live ≤ maxHostAllocationBytes ∧
        live = chunkLiveBytes+capacity chunkIndex := by
  have hmax : maxHostAllocationBytes < 2^64 := by decide
  unfold prepareRestartJob checkedRestartChunkPreallocationLiveBytes
  constructor
  · intro h
    obtain ⟨_,-,h⟩ := Fallible.bind_eq_ok.mp h
    obtain ⟨given,hgiven,h⟩ := Fallible.bind_eq_ok.mp h
    obtain ⟨hreserve,rfl⟩ := tryWithCapacity_eq_ok.mp hgiven
    split_ifs at h
    obtain ⟨_,hlive,h⟩ := Fallible.bind_eq_ok.mp h
    have hlive := (checkedEncodeHostLiveBytes_eq_ok.mp hlive).1
    simp only [List.sum_cons,List.sum_nil] at hlive
    cases h
    exact ⟨hreserve,by omega,rfl⟩
  · intro ⟨hreserve,hlive,hsum⟩
    have hbefore : checkedEncodeHostLiveBytes [host.externalLiveBytes,outputCapacity,metadataBytes,
        chunkLiveBytes,capacity chunkIndex] = .ok _ :=
      checkedEncodeHostLiveBytes_eq_ok.mpr
        ⟨by simp only [List.sum_cons,List.sum_nil]; omega,rfl⟩
    have hafter : checkedEncodeHostLiveBytes [host.externalLiveBytes,outputCapacity,metadataBytes,
        chunkLiveBytes+capacity chunkIndex,0] = .ok _ :=
      checkedEncodeHostLiveBytes_eq_ok.mpr
        ⟨by simp only [List.sum_cons,List.sum_nil]; omega,rfl⟩
    rw [hbefore,Fallible.ok_bind,tryWithCapacity_eq_ok.mpr ⟨hreserve,rfl⟩,Fallible.ok_bind,
      if_neg (by omega),hafter,Fallible.ok_bind,hsum]

/-- All writers are had when each is had and the last of them is within the limit. -/
theorem prepareRestartJob_foldlM_eq_ok {live : ℕ} :
    (List.range k).foldlM (prepareRestartJob host capacity outputCapacity metadataBytes) 0 =
        .ok live ↔
      (∀ j < k, host.reserve (j+1) (capacity j) = some (capacity j)) ∧
        (0 < k → host.externalLiveBytes+outputCapacity+metadataBytes+live ≤
          maxHostAllocationBytes) ∧ live = ((List.range k).map capacity).sum := by
  induction k generalizing live with
  | zero =>
      rw [List.range_zero,List.foldlM_nil]
      constructor
      · intro h
        cases h
        exact ⟨nofun,nofun,rfl⟩
      · intro h
        rw [h.2.2]
        rfl
  | succ k ih =>
      rw [List.range_succ,List.foldlM_append,Fallible.bind_eq_ok,List.map_append,List.sum_append,
        List.map_singleton,List.sum_singleton]
      simp only [List.foldlM_cons,List.foldlM_nil]
      constructor
      · intro ⟨before,hbefore,h⟩
        obtain ⟨hchunks,-,rfl⟩ := ih.mp hbefore
        obtain ⟨_,hlast,h⟩ := Fallible.bind_eq_ok.mp h
        cases h
        obtain ⟨hreserve,hlive,hsum⟩ := prepareRestartJob_eq_ok.mp hlast
        refine ⟨fun j hj => ?_,fun _ => hlive,hsum⟩
        rcases Nat.lt_succ_iff_lt_or_eq.mp hj with hj | rfl
        · exact hchunks j hj
        · exact hreserve
      · intro ⟨hchunks,hlive,hsum⟩
        have hlive := hlive (Nat.succ_pos k)
        refine ⟨_,ih.mpr ⟨fun j hj => hchunks j (by omega),fun _ => by omega,rfl⟩,?_⟩
        rw [prepareRestartJob_eq_ok.mpr ⟨hchunks k (Nat.lt_succ_self k),hlive,hsum⟩]
        rfl

theorem prepareRestartJobs_eq_ok (hk : 0 < k) {prepared : ℕ × ℕ} :
    prepareRestartJobs host capacity outputCapacity k = .ok prepared ↔
      ∃ records, host.reserve 0 k = some records ∧
        host.externalLiveBytes+outputCapacity+records*host.jobBytes+
          ((List.range k).map capacity).sum ≤ maxHostAllocationBytes ∧
        (∀ j < k, host.reserve (j+1) (capacity j) = some (capacity j)) ∧
        prepared = (records*host.jobBytes,((List.range k).map capacity).sum) := by
  have hmax : maxHostAllocationBytes < 2^64 := by decide
  unfold prepareRestartJobs
  cases hrecords : host.reserve 0 k with
  | none => exact ⟨nofun,fun ⟨_,h,_⟩ => nomatch h⟩
  | some records =>
      dsimp only
      constructor
      · intro h
        obtain ⟨_,hbytes,h⟩ := Fallible.bind_eq_ok.mp h
        obtain ⟨live,hfold,h⟩ := Fallible.bind_eq_ok.mp h
        obtain ⟨-,rfl⟩ := jobRecordBytes_eq_ok.mp hbytes
        obtain ⟨hchunks,hlive,rfl⟩ := prepareRestartJob_foldlM_eq_ok.mp hfold
        cases h
        exact ⟨records,rfl,hlive hk,hchunks,rfl⟩
      · intro ⟨_,hsome,hlive,hchunks,hprepared⟩
        cases hsome
        have hbytes := jobRecordBytes_eq_ok.mpr
          ⟨(show records*host.jobBytes < 2^64 by omega),rfl⟩
        have hfold := prepareRestartJob_foldlM_eq_ok.mpr ⟨hchunks,fun _ => hlive,rfl⟩
        rw [hbytes,Fallible.ok_bind,hfold,Fallible.ok_bind,hprepared]

/-- The sum of the planned capacities, checked at every step. -/
theorem checkedSum_eq_ok {bytes : ℕ}
    (hle : ((List.range k).map capacity).sum ≤ maxHostAllocationBytes) :
    (List.range k).foldlM (fun bytes chunkIndex =>
        checkedEncodeHostLiveBytes [bytes,capacity chunkIndex]) 0 = .ok bytes ↔
      bytes = ((List.range k).map capacity).sum := by
  induction k generalizing bytes with
  | zero =>
      rw [List.range_zero,List.foldlM_nil]
      exact ⟨fun h => (Except.ok.inj h).symm,fun h => h ▸ rfl⟩
  | succ k ih =>
      rw [List.range_succ,List.map_append,List.sum_append,List.map_singleton,
        List.sum_singleton] at hle ⊢
      rw [List.foldlM_append,(@ih _ (by omega)).mpr rfl,Fallible.ok_bind,List.foldlM_cons,
        checkedEncodeHostLiveBytes_eq_ok.mpr
          ⟨by simp only [List.sum_cons,List.sum_nil]; omega,rfl⟩]
      simp only [List.sum_cons,List.sum_nil,Nat.add_zero]
      exact ⟨fun h => (Except.ok.inj h).symm,fun h => h ▸ rfl⟩

end

/-- The planned capacities of all chunks. -/
def chunkCapacities (totalMcus restartInterval segmentCount chunkCount : ℕ)
    (sampling : JpegBaselineSampling) : List ℕ :=
  (List.range chunkCount).map
    (chunkCapacity totalMcus restartInterval segmentCount chunkCount sampling)

theorem length_chunkCapacities {n k : ℕ} {sampling : JpegBaselineSampling} :
    (chunkCapacities totalMcus restartInterval n k sampling).length = k := by
  rw [chunkCapacities,List.length_map,List.length_range]

/-- A plan is for all chunks and for the joined bytes. -/
theorem restartEntropyWorkspacePlan_fields {host : EncodeHost} {sampling : JpegBaselineSampling}
    {entropyCapacity : ℕ} {plan : RestartEntropyWorkspacePlan} (hinterval : 0 < restartInterval)
    (h : restartEntropyWorkspacePlan host totalMcus sampling restartInterval entropyCapacity =
      .ok plan) :
    plan.chunkCount =
        parallelEntropyChunkCount (TileGeometry.divCeil totalMcus restartInterval) ∧
      plan.outputCapacity = entropyCapacity := by
  unfold restartEntropyWorkspacePlan at h
  rw [if_neg (by omega)] at h
  obtain ⟨_,-,h⟩ := Fallible.bind_eq_ok.mp h
  obtain ⟨_,-,h⟩ := Fallible.bind_eq_ok.mp h
  obtain ⟨_,-,h⟩ := Fallible.bind_eq_ok.mp h
  cases h
  exact ⟨rfl,rfl⟩

/-- Within the limit there is a plan. -/
theorem restartEntropyWorkspacePlan_ok {host : EncodeHost} {sampling : JpegBaselineSampling}
    {entropyCapacity n k : ℕ} (hinterval : 0 < restartInterval)
    (hn : TileGeometry.divCeil totalMcus restartInterval = n)
    (hk : parallelEntropyChunkCount n = k)
    (hlive : entropyCapacity+k*host.jobBytes+
      (chunkCapacities totalMcus restartInterval n k sampling).sum ≤ maxHostAllocationBytes) :
    restartEntropyWorkspacePlan host totalMcus sampling restartInterval entropyCapacity =
      .ok ⟨k,(chunkCapacities totalMcus restartInterval n k sampling).sum,k*host.jobBytes,
        entropyCapacity⟩ := by
  have hmax : maxHostAllocationBytes < 2^64 := by decide
  unfold chunkCapacities at hlive ⊢
  unfold restartEntropyWorkspacePlan
  rw [if_neg (by omega),hn]
  dsimp only
  rw [hk,jobRecordBytes_eq_ok.mpr ⟨(show k*host.jobBytes < 2^64 by omega),rfl⟩,Fallible.ok_bind,
    (checkedSum_eq_ok (by omega)).mpr rfl,Fallible.ok_bind]
  refine Fallible.bind_eq_ok.mpr ⟨_,checkedEncodeHostLiveBytes_eq_ok.mpr ⟨?_,rfl⟩,rfl⟩
  simp only [List.sum_cons,List.sum_nil]
  omega

/-- The chunks succeed where the host has what they ask for and their bytes fit. -/
theorem encodeEntropyRestartSegments_eq_ok {host : EncodeHost} {entropyCapacity : ℕ}
    (hinterval : 0 < restartInterval) (hlayout : input.entropyMcuLayout = .ok (mcusPerRow,totalMcus))
    (htotal : 0 < totalMcus) {out : List ℕ} :
    let n := TileGeometry.divCeil totalMcus restartInterval
    let k := parallelEntropyChunkCount n
    encodeEntropyRestartSegments host input restartInterval entropyCapacity = .ok out ↔
      checkedFrameCapacity entropyCapacity = .ok () ∧
        HoldsChunks host (chunkCapacities totalMcus restartInterval n k input.sampling)
          entropyCapacity ∧
        joinRestartJobs input mcusPerRow totalMcus restartInterval n k entropyCapacity =
          .ok out := by
  intro n k
  have hk : 0 < k := by
    show 0 < min (max n 1) 64
    omega
  unfold encodeEntropyRestartSegments
  rw [if_neg (by omega),hlayout,Fallible.ok_bind]
  dsimp only
  rw [if_neg (by omega)]
  constructor
  · intro h
    obtain ⟨_,hframe,h⟩ := Fallible.bind_eq_ok.mp h
    obtain ⟨plan,hplan,h⟩ := Fallible.bind_eq_ok.mp h
    obtain ⟨_,-,h⟩ := Fallible.bind_eq_ok.mp h
    obtain ⟨_,-,h⟩ := Fallible.bind_eq_ok.mp h
    obtain ⟨prepared,hprepared,h⟩ := Fallible.bind_eq_ok.mp h
    obtain ⟨_,hgiven,h⟩ := Fallible.bind_eq_ok.mp h
    obtain ⟨_,-,h⟩ := Fallible.bind_eq_ok.mp h
    obtain ⟨hcount,houtput⟩ := restartEntropyWorkspacePlan_fields hinterval hplan
    rw [hcount,houtput] at hprepared
    rw [hcount] at hgiven h
    obtain ⟨records,hrecords,hlive,hchunks,-⟩ := (prepareRestartJobs_eq_ok hk).mp hprepared
    refine ⟨hframe,⟨⟨records,?_,hlive⟩,fun j capacity hj => ?_,?_⟩,h⟩
    · rw [length_chunkCapacities]
      exact hrecords
    · have hlt := (List.getElem?_eq_some_iff.mp hj).1
      rw [length_chunkCapacities] at hlt
      rw [chunkCapacities,List.getElem?_map,List.getElem?_range hlt] at hj
      cases hj
      exact hchunks j hlt
    · rw [length_chunkCapacities]
      exact (tryWithCapacity_eq_ok.mp hgiven).1
  · intro ⟨hframe,hholds,h⟩
    obtain ⟨records,hrecords,hlive⟩ := hholds.live
    have houtput := hholds.output
    rw [length_chunkCapacities] at hrecords houtput
    have hrecordsLe := Nat.mul_le_mul_right host.jobBytes (host.le_reserve hrecords)
    have hchunks (j : ℕ) (hj : j < k) : host.reserve (j+1)
        (chunkCapacity totalMcus restartInterval n k input.sampling j) =
          some (chunkCapacity totalMcus restartInterval n k input.sampling j) := by
      refine hholds.chunks j _ ?_
      rw [chunkCapacities,List.getElem?_map,List.getElem?_range hj]
      rfl
    have hplan := @restartEntropyWorkspacePlan_ok totalMcus restartInterval host input.sampling
      entropyCapacity n k hinterval rfl rfl (by omega)
    have hworkspace := checkedEncodeHostLiveBytes_eq_ok.mpr
      ⟨(show [entropyCapacity,(chunkCapacities totalMcus restartInterval n k input.sampling).sum,
        k*host.jobBytes].sum ≤ _ by simp only [List.sum_cons,List.sum_nil]; omega),rfl⟩
    have hprepared := (prepareRestartJobs_eq_ok hk).mpr ⟨records,hrecords,hlive,hchunks,rfl⟩
    have hgiven := tryWithCapacity_eq_ok.mpr ⟨houtput,rfl⟩
    simp only [List.sum_cons,List.sum_nil] at hworkspace
    rw [hframe,Fallible.ok_bind,hplan,Fallible.ok_bind]
    refine Fallible.bind_eq_ok.mpr ⟨_,hworkspace,?_⟩
    refine Fallible.bind_eq_ok.mpr ⟨_,checkedEncodeHostLiveBytes_eq_ok.mpr ⟨?_,rfl⟩,?_⟩
    · simp only [List.sum_cons,List.sum_nil]
      omega
    refine Fallible.bind_eq_ok.mpr ⟨_,hprepared,Fallible.bind_eq_ok.mpr ⟨_,hgiven,?_⟩⟩
    refine Fallible.bind_eq_ok.mpr ⟨_,checkedEncodeHostLiveBytes_eq_ok.mpr ⟨?_,rfl⟩,h⟩
    unfold chunkCapacities at hlive
    simp only [List.sum_cons,List.sum_nil]
    omega

end J2kNative.EntropyInput
