import J2kNative.Fallible
import J2kNative.JpegErrors
import Mathlib.Data.List.Range

/-!
# The scan script of a progressive frame

Every scan header is checked by itself and against the table of approximation
positions: for each component and each zigzag coefficient the position `al` of
the last scan that coded it. An initial scan must be the first for all it
selects, a refinement must continue one bit below the previous scan. Offsets
serve the errors only.
-/
namespace J2kNative

open Fallible

structure ScanComponent where
  id : ℕ
  dcTable : ℕ
  acTable : ℕ
  deriving DecidableEq, Repr

structure ParsedScan where
  components : List ScanComponent
  ss : ℕ
  se : ℕ
  ah : ℕ
  al : ℕ
  deriving DecidableEq, Repr

/-- The frame header: component identifiers with their sampling factors, and the size. -/
structure ParsedSof where
  componentIds : List ℕ
  sampling : List (ℕ × ℕ)
  width : ℕ
  height : ℕ
  deriving DecidableEq, Repr

def validateKnownUniqueComponents (sof : ParsedSof) (scan : ParsedScan) (offset : ℕ) :
    Except JpegError Unit :=
  (List.range scan.components.length).forM fun index =>
    match scan.components[index]? with
    | none => .ok ()
    | some component =>
      if !sof.componentIds.contains component.id then
        .error (.unknownScanComponent (offset+1+index*2) component.id)
      else if (scan.components.take index).any fun seen => seen.id == component.id then
        .error (.duplicateScanComponent (offset+1+index*2) component.id)
      else .ok ()

def validateProgressiveScanComponents (sof : ParsedSof) (scan : ParsedScan) (offset : ℕ) :
    Except JpegError Unit :=
  if scan.components = [] ∨ scan.se < scan.ss ∨ 63 < scan.se ∨ 13 < scan.ah ∨ 13 < scan.al ∨
      (scan.ah ≠ 0 ∧ scan.ah ≠ scan.al+1) ∨ (scan.ss = 0 ∧ scan.se ≠ 0) ∨
      (0 < scan.ss ∧ scan.components.length ≠ 1) then
    .error (.invalidScanParameters offset scan.ss scan.se scan.ah scan.al)
  else validateKnownUniqueComponents sof scan offset

def uninitialized : ℕ := 255

def findComponentIndex (componentIds : List ℕ) (id : ℕ) : Option ℕ :=
  componentIds.findIdx? (· == id)

structure ProgressiveScriptState where
  componentIds : List ℕ
  approximation : ℕ → ℕ → ℕ

namespace ProgressiveScriptState

def new (sof : ParsedSof) : ProgressiveScriptState :=
  ⟨sof.componentIds,fun _ _ => uninitialized⟩

def componentIndex (state : ProgressiveScriptState) (component markerOffset : ℕ) :
    Except JpegError ℕ :=
  match findComponentIndex state.componentIds component with
  | some index => .ok index
  | none => .error (.unknownScanComponent markerOffset component)

end ProgressiveScriptState

/-- The zigzag positions `ss..=se` of a scan. -/
def ParsedScan.coefficients (scan : ParsedScan) : List ℕ :=
  List.range' scan.ss (scan.se+1-scan.ss)

@[simp] theorem ParsedScan.mem_coefficients {scan : ParsedScan} {k : ℕ} :
    k ∈ scan.coefficients ↔ scan.ss ≤ k ∧ k ≤ scan.se := by
  rw [ParsedScan.coefficients,List.mem_range'_1]
  omega

def validateTransition (markerOffset component coefficient previous : ℕ) (scan : ParsedScan) :
    Except JpegError Unit :=
  let failing : Option ProgressiveScanStateError :=
    if scan.ah = 0 then
      if previous ≠ uninitialized then some (.duplicateInitial previous scan.al) else none
    else if previous = uninitialized then some (.refinementBeforeInitial scan.ah scan.al)
    else if previous ≠ scan.ah then some (.refinementMismatch previous scan.ah scan.al) else none
  match failing with
  | some state =>
      .error (.invalidProgressiveScanState markerOffset 0xDA component coefficient state)
  | none => .ok ()

/-- An accepted transition: first an initial scan, later a refinement of the previous one. -/
theorem validateTransition_ok {markerOffset component coefficient previous : ℕ}
    {scan : ParsedScan} (h : validateTransition markerOffset component coefficient previous scan
      = .ok ()) :
    (scan.ah = 0 ∧ previous = uninitialized) ∨
      (scan.ah ≠ 0 ∧ previous ≠ uninitialized ∧ previous = scan.ah) := by
  unfold validateTransition at h
  by_cases ha : scan.ah = 0
  · by_cases hp : previous = uninitialized
    · exact .inl ⟨ha,hp⟩
    · simp [ha,hp] at h
  · by_cases hp : previous = uninitialized
    · simp [ha,hp] at h
    · by_cases hq : previous = scan.ah
      · exact .inr ⟨ha,hp,hq⟩
      · simp [ha,hp,hq] at h

namespace ProgressiveScriptState

def forEachSelected (state : ProgressiveScriptState) (markerOffset : ℕ) (scan : ParsedScan)
    (visit : ℕ → ℕ → ℕ → Except JpegError Unit) : Except JpegError Unit :=
  scan.components.forM fun component => do
    let index ← state.componentIndex component.id markerOffset
    scan.coefficients.forM fun coefficient =>
      visit component.id coefficient (state.approximation index coefficient)

/-- The positions of one component's coefficients set to `al`. -/
def assign (state : ProgressiveScriptState) (index al : ℕ) (coefficients : List ℕ) :
    ProgressiveScriptState :=
  coefficients.foldl (fun state coefficient =>
    { state with approximation := fun c k =>
        if c = index ∧ k = coefficient then al else state.approximation c k }) state

def forEachSelectedMut (state : ProgressiveScriptState) (markerOffset : ℕ) (scan : ParsedScan)
    (al : ℕ) : Except JpegError ProgressiveScriptState :=
  scan.components.foldlM (fun state component => do
    let index ← state.componentIndex component.id markerOffset
    .ok (state.assign index al scan.coefficients)) state

def recordScan (state : ProgressiveScriptState) (markerOffset : ℕ) (scan : ParsedScan) :
    Except JpegError ProgressiveScriptState := do
  state.forEachSelected markerOffset scan fun component coefficient previous =>
    validateTransition markerOffset component coefficient previous scan
  state.forEachSelectedMut markerOffset scan scan.al

def finishTerminal (state : ProgressiveScriptState) (markerOffset : ℕ) : Except JpegError Unit :=
  (List.range state.componentIds.length).forM fun index =>
    if state.approximation index 0 = uninitialized then
      .error (.invalidProgressiveScanState markerOffset 0xD9 (state.componentIds.getD index 0) 0
        .missingInitialDc)
    else .ok ()

end ProgressiveScriptState

/-- One scan header: its own checks, then the transition table. -/
def acceptScan (sof : ParsedSof) (state : ProgressiveScriptState) (entry : ℕ × ParsedScan) :
    Except JpegError ProgressiveScriptState := do
  validateProgressiveScanComponents sof entry.2 (entry.1+4)
  state.recordScan entry.1 entry.2

/-- The scans of a frame in order, each with the offset of its marker, up to the terminal. -/
def collectProgressiveScans (sof : ParsedSof) (scans : List (ℕ × ParsedScan))
    (terminalOffset : ℕ) : Except JpegError Unit := do
  let state ← scans.foldlM (acceptScan sof) (ProgressiveScriptState.new sof)
  state.finishTerminal terminalOffset

/-- What the checks on a single scan header leave. -/
structure ParsedScan.Valid (scan : ParsedScan) (componentIds : List ℕ) : Prop where
  se_le : scan.se ≤ 63
  al_le : scan.al ≤ 13
  continues : scan.ah = 0 ∨ scan.ah = scan.al+1
  dc : scan.ss = 0 → scan.se = 0
  known : ∀ component ∈ scan.components, component.id ∈ componentIds
  unique : (scan.components.map ScanComponent.id).Nodup
  nonempty : scan.components ≠ []
  single : 0 < scan.ss → scan.components.length = 1

theorem forM_eq_ok {ε α : Type} {f : α → Except ε PUnit} {l : List α} :
    l.forM f = .ok ⟨⟩ ↔ ∀ a ∈ l, f a = .ok ⟨⟩ := by
  induction l with
  | nil => simp [List.forM_nil,pure,Except.pure]
  | cons a l ih =>
      show (f a >>= fun _ => l.forM f) = _ ↔ _
      rw [bind_eq_ok,List.forall_mem_cons,← ih]
      constructor
      · rintro ⟨_,ha,hl⟩
        exact ⟨ha,hl⟩
      · rintro ⟨ha,hl⟩
        exact ⟨⟨⟩,ha,hl⟩

theorem validateKnownUniqueComponents_ok {sof : ParsedSof} {scan : ParsedScan} {offset : ℕ}
    (h : validateKnownUniqueComponents sof scan offset = .ok ()) :
    (∀ component ∈ scan.components, component.id ∈ sof.componentIds) ∧
      (scan.components.map ScanComponent.id).Nodup := by
  have hstep (index : ℕ) (hi : index < scan.components.length) :
      scan.components[index].id ∈ sof.componentIds ∧
        ∀ j (hj : j < index), scan.components[j].id ≠ scan.components[index].id := by
    have h := forM_eq_ok.mp h index (List.mem_range.mpr hi)
    rw [List.getElem?_eq_getElem hi] at h
    dsimp only at h
    split_ifs at h with hknown hseen
    refine ⟨by simpa using hknown,fun j hj heq => hseen ?_⟩
    rw [List.any_eq_true]
    refine ⟨scan.components[j],?_,by simpa using heq⟩
    rw [List.mem_take_iff_getElem]
    exact ⟨j,by omega,rfl⟩
  constructor
  · intro component hc
    obtain ⟨i,hi,rfl⟩ := List.getElem_of_mem hc
    exact (hstep i hi).1
  · rw [List.Nodup,List.pairwise_iff_getElem]
    intro i j hi hj hij
    rw [List.getElem_map,List.getElem_map]
    exact (hstep j (by simpa using hj)).2 i hij

theorem validateProgressiveScanComponents_ok {sof : ParsedSof} {scan : ParsedScan} {offset : ℕ}
    (h : validateProgressiveScanComponents sof scan offset = .ok ()) :
    scan.Valid sof.componentIds := by
  unfold validateProgressiveScanComponents at h
  split_ifs at h with hc
  obtain ⟨hknown,hunique⟩ := validateKnownUniqueComponents_ok h
  push Not at hc
  obtain ⟨hne,-,hse,-,hal,hah,hdc,hone⟩ := hc
  exact ⟨by omega,by omega,or_iff_not_imp_left.mpr hah,hdc,hknown,hunique,hne,hone⟩

namespace ProgressiveScriptState

theorem componentIndex_ok {state : ProgressiveScriptState} {component markerOffset index : ℕ}
    (h : state.componentIndex component markerOffset = .ok index) :
    findComponentIndex state.componentIds component = some index := by
  unfold componentIndex at h
  split at h
  · next hi =>
      cases h
      exact hi
  · cases h

theorem assign_spec (state : ProgressiveScriptState) (index al : ℕ) (coefficients : List ℕ) :
    (state.assign index al coefficients).componentIds = state.componentIds ∧
      ∀ c k, (state.assign index al coefficients).approximation c k =
        if c = index ∧ k ∈ coefficients then al else state.approximation c k := by
  induction coefficients generalizing state with
  | nil => simp [assign]
  | cons coefficient coefficients ih =>
      have h := ih { state with approximation := fun c k =>
        if c = index ∧ k = coefficient then al else state.approximation c k }
      refine ⟨h.1,fun c k => (h.2 c k).trans ?_⟩
      by_cases hc : c = index <;> by_cases hk : k = coefficient <;> simp [hc,hk]

theorem forEachSelectedMut_ok {state state' : ProgressiveScriptState} {markerOffset al : ℕ}
    {scan : ParsedScan} (h : state.forEachSelectedMut markerOffset scan al = .ok state') :
    state'.componentIds = state.componentIds ∧
      ∀ c k, state'.approximation c k =
        if (∃ component ∈ scan.components,
            findComponentIndex state.componentIds component.id = some c) ∧
          scan.ss ≤ k ∧ k ≤ scan.se then al else state.approximation c k := by
  unfold forEachSelectedMut at h
  generalize scan.components = components at h ⊢
  induction components generalizing state with
  | nil =>
      cases h
      simp
  | cons component components ih =>
      rw [List.foldlM_cons] at h
      obtain ⟨middle,hm,h⟩ := bind_eq_ok.mp h
      obtain ⟨index,hi,hm⟩ := bind_eq_ok.mp hm
      cases hm
      have hspec := assign_spec state index al scan.coefficients
      obtain ⟨hids,happ⟩ := ih h
      rw [hspec.1] at hids happ
      refine ⟨hids,fun c k => ?_⟩
      have hi := componentIndex_ok hi
      rw [happ c k,hspec.2 c k]
      simp only [ParsedScan.mem_coefficients,List.exists_mem_cons_iff,hi,Option.some.injEq,
        show index = c ↔ c = index from eq_comm]
      by_cases hk : scan.ss ≤ k ∧ k ≤ scan.se <;> by_cases hc : c = index <;> simp [hk,hc]

/-- A recorded scan: every selected coefficient made an accepted transition, and its
position is now that of the scan. -/
theorem recordScan_ok {state state' : ProgressiveScriptState} {markerOffset : ℕ}
    {scan : ParsedScan} (h : state.recordScan markerOffset scan = .ok state') :
    state'.componentIds = state.componentIds ∧
      (∀ component ∈ scan.components, ∀ c,
        findComponentIndex state.componentIds component.id = some c →
        ∀ k, scan.ss ≤ k → k ≤ scan.se →
          (scan.ah = 0 ∧ state.approximation c k = uninitialized) ∨
            (scan.ah ≠ 0 ∧ state.approximation c k ≠ uninitialized ∧
              state.approximation c k = scan.ah)) ∧
      ∀ c k, state'.approximation c k =
        if (∃ component ∈ scan.components,
            findComponentIndex state.componentIds component.id = some c) ∧
          scan.ss ≤ k ∧ k ≤ scan.se then scan.al else state.approximation c k := by
  obtain ⟨_,hcheck,h⟩ := bind_eq_ok.mp h
  obtain ⟨hids,happ⟩ := forEachSelectedMut_ok h
  refine ⟨hids,?_,happ⟩
  intro component hc c hindex k hss hse
  obtain ⟨index,hi,hvisit⟩ := bind_eq_ok.mp (forM_eq_ok.mp hcheck component hc)
  rw [componentIndex_ok hi] at hindex
  cases hindex
  exact validateTransition_ok
    (forM_eq_ok.mp hvisit k (ParsedScan.mem_coefficients.mpr ⟨hss,hse⟩))

end ProgressiveScriptState
end J2kNative
