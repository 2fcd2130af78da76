import Mathlib.Algebra.Group.Nat.Defs
import Mathlib.Data.List.Basic
import Mathlib.Data.Nat.Notation

/-!
# The entropy bit writer of the JPEG encoder

Bits enter a byte from the left; a full byte is stuffed when it is `0xFF`. The
byte store is limited: what would exceed the limit is an error. An `Emission`
says which bytes a writing step adds, by the pending bits it starts from, without
the limit; `Realizes` says that a step adds just these, or fails where they do
not fit. The store is reserved for the whole limit at its creation, so that no step reserves.
-/
namespace J2kNative

inductive JpegEncodeError where
  | memoryCapExceeded (requested cap : ℕ)
  | hostAllocationFailed (bytes : ℕ)
  | missingHuffmanCode (symbol : ℕ)
  | invalidRestartInterval
  | internalInvariant (reason : String)
  deriving DecidableEq, Repr

/-- The capped bytes with the pending bits: `used` of them, the low bits of `current`. -/
structure BitWriter where
  bytes : List ℕ
  maxLen : ℕ
  current : ℕ
  used : ℕ
  deriving DecidableEq, Repr

abbrev Write (α : Type) := StateT BitWriter (Except JpegEncodeError) α

namespace BitWriter

def withMaxBytes (maxBytes : ℕ) : BitWriter := ⟨[],maxBytes,0,0⟩

/-- `CappedBytes::push`. -/
def push (byte : ℕ) : Write Unit := fun w =>
  if w.maxLen < w.bytes.length+1 then .error (.memoryCapExceeded (w.bytes.length+1) w.maxLen)
  else .ok ((),{ w with bytes := w.bytes ++ [byte] })

def pushByte (byte : ℕ) : Write Unit := do
  push byte
  if byte = 0xFF then push 0 else pure ()

def setPending (current used : ℕ) : Write Unit := fun w =>
  .ok ((),{ w with current := current, used := used })

def writeBit (bit : ℕ) : Write Unit := do
  let w ← get
  let current := w.current*2 % 256+bit
  if w.used+1 = 8 then do
    setPending current 8
    pushByte current
    setPending 0 0
  else setPending current (w.used+1)

/-- The low `len` bits of `code`, the highest first. -/
def writeBits (code len : ℕ) : Write Unit :=
  (List.range len).reverse.forM fun bitIdx => writeBit (code/2^bitIdx % 2)

def alignWithOnes : Write Unit := do
  let w ← get
  if w.used = 0 then pure ()
  else do
    let remaining := 8-w.used
    let current := w.current*2^remaining % 256+(2^remaining-1)
    setPending current w.used
    pushByte current
    setPending 0 0

def writeRestartMarker (marker : ℕ) : Write Unit := do
  alignWithOnes
  push 0xFF
  push marker

def intoBytes (w : BitWriter) : Except JpegEncodeError (List ℕ) := do
  let (_,w) ← alignWithOnes w
  .ok w.bytes

end BitWriter

/-- The bytes a step adds and the pending bits it leaves, from the pending bits it finds. -/
def Emission : Type := ℕ → ℕ → List ℕ × ℕ × ℕ

namespace Emission

def apply (e : Emission) (w : BitWriter) : BitWriter :=
  { w with
    bytes := w.bytes ++ (e w.current w.used).1
    current := (e w.current w.used).2.1
    used := (e w.current w.used).2.2 }

def nothing : Emission := fun current used => ([],current,used)

def andThen (e f : Emission) : Emission := fun current used =>
  let first := e current used
  let second := f first.2.1 first.2.2
  (first.1 ++ second.1,second.2)

instance : Inhabited Emission := ⟨nothing⟩

/-- Bytes past the pending bits. -/
def raw (bytes : List ℕ) : Emission := fun current used => (bytes,current,used)

def stuffed (byte : ℕ) : List ℕ := if byte = 0xFF then [0xFF,0] else [byte]

def bit (bit : ℕ) : Emission := fun current used =>
  if used+1 = 8 then (stuffed (current*2 % 256+bit),0,0)
  else ([],current*2 % 256+bit,used+1)

def bits (l : List ℕ) : Emission := l.foldr (fun b e => andThen (bit b) e) nothing

def align : Emission := fun current used =>
  if used = 0 then ([],current,used)
  else (stuffed (current*2^(8-used) % 256+(2^(8-used)-1)),0,0)

theorem apply_andThen (e f : Emission) (w : BitWriter) :
    (e.andThen f).apply w = f.apply (e.apply w) := by
  simp [apply,andThen]

theorem length_apply_le (e f : Emission) (w : BitWriter) :
    (e.apply w).bytes.length ≤ ((e.andThen f).apply w).bytes.length := by
  rw [apply_andThen]
  simp [apply]

@[simp] theorem apply_maxLen (e : Emission) (w : BitWriter) : (e.apply w).maxLen = w.maxLen := rfl

theorem andThen_assoc (e f g : Emission) :
    (e.andThen f).andThen g = e.andThen (f.andThen g) := by
  funext current used
  simp [andThen]

@[simp] theorem nothing_andThen (e : Emission) : nothing.andThen e = e := by
  funext current used
  simp [andThen,nothing]

@[simp] theorem andThen_nothing (e : Emission) : e.andThen nothing = e := by
  funext current used
  simp [andThen,nothing]

theorem bits_append (l l' : List ℕ) : bits (l ++ l') = (bits l).andThen (bits l') := by
  induction l with
  | nil => simp [bits]
  | cons b l ih =>
      show (bit b).andThen (bits (l ++ l')) = ((bit b).andThen (bits l)).andThen (bits l')
      rw [ih,andThen_assoc]

end Emission

/-- At the writer `w` the step yields a value with an emission, or fails where the emission
passes the limit; with no emission it fails. -/
def YieldsAt {α : Type} (m : Write α) (w : BitWriter) : Option (α × Emission) → Prop
  | none => ∃ error, m w = .error error
  | some (a,e) => ((e.apply w).bytes.length ≤ w.maxLen → m w = .ok (a,e.apply w)) ∧
      (w.maxLen < (e.apply w).bytes.length → ∃ error, m w = .error error)

def Realizes {α : Type} (m : Write α) (r : Option (α × Emission)) : Prop :=
  ∀ w : BitWriter, w.bytes.length ≤ w.maxLen → YieldsAt m w r

section
open Emission
variable {α β : Type}

theorem realizes_pure (a : α) : Realizes (pure a : Write α) (some (a,nothing)) := by
  intro w hw
  refine ⟨fun _ => ?_,fun h => ?_⟩
  · show Except.ok (a,w) = Except.ok (a,nothing.apply w)
    simp [Emission.apply,nothing]
  · simp [Emission.apply,nothing] at h
    omega

theorem bind_ok {m : Write α} {f : α → Write β} {w w' : BitWriter} {a : α}
    (h : m w = .ok (a,w')) : (m >>= f) w = f a w' := by
  show (m w >>= fun p => f p.1 p.2) = _
  rw [h]
  rfl

theorem bind_error {m : Write α} {f : α → Write β} {w : BitWriter} {error : JpegEncodeError}
    (h : m w = .error error) : (m >>= f) w = .error error := by
  show (m w >>= fun p => f p.1 p.2) = _
  rw [h]
  rfl

/-- Steps in sequence emit one after the other. -/
theorem Realizes.bind {m : Write α} {f : α → Write β} {a : α} {b : β} {e e' : Emission}
    (hm : Realizes m (some (a,e))) (hf : Realizes (f a) (some (b,e'))) :
    Realizes (m >>= f) (some (b,e.andThen e')) := by
  intro w hw
  have hle := length_apply_le e e' w
  have h := hm w hw
  dsimp only [YieldsAt] at h ⊢
  rw [apply_andThen] at hle ⊢
  by_cases hfit : (e.apply w).bytes.length ≤ w.maxLen
  · have h' := hf (e.apply w) hfit
    rw [bind_ok (h.1 hfit)]
    exact h'
  · obtain ⟨error,herror⟩ := h.2 (by omega)
    exact ⟨fun h => absurd h (by omega),fun _ => ⟨error,bind_error herror⟩⟩

theorem Realizes.seq {m : Write Unit} {n : Write β} {b : β} {e e' : Emission}
    (hm : Realizes m (some ((),e))) (hn : Realizes n (some (b,e'))) :
    Realizes (m >>= fun _ => n) (some (b,e.andThen e')) := hm.bind hn

/-- A step that fails everywhere ends what comes before it. -/
theorem Realizes.bind_none {m : Write α} {f : α → Write β} {a : α} {e : Emission}
    (hm : Realizes m (some (a,e))) (hf : Realizes (f a) none) : Realizes (m >>= f) none := by
  intro w hw
  have h := hm w hw
  by_cases hfit : (e.apply w).bytes.length ≤ w.maxLen
  · obtain ⟨error,herror⟩ := hf (e.apply w) hfit
    exact ⟨error,(bind_ok (h.1 hfit)).trans herror⟩
  · obtain ⟨error,herror⟩ := h.2 (by omega)
    exact ⟨error,bind_error herror⟩

theorem Realizes.none_bind {m : Write α} {f : α → Write β} (hm : Realizes m none) :
    Realizes (m >>= f) none := by
  intro w hw
  obtain ⟨error,herror⟩ := hm w hw
  exact ⟨error,bind_error herror⟩

theorem realizes_setPending (current used : ℕ) :
    Realizes (BitWriter.setPending current used)
      (some ((),fun _ _ => ([],current,used))) := by
  intro w hw
  refine ⟨fun _ => ?_,fun h => ?_⟩
  · simp [BitWriter.setPending,Emission.apply]
  · simp [Emission.apply] at h
    omega

theorem realizes_push (byte : ℕ) : Realizes (BitWriter.push byte) (some ((),raw [byte])) := by
  intro w hw
  simp only [YieldsAt,BitWriter.push,Emission.apply,raw,List.length_append,List.length_singleton]
  refine ⟨fun h => ?_,fun h => ?_⟩
  · rw [if_neg (by omega)]
  · rw [if_pos (by omega)]
    exact ⟨_,rfl⟩

theorem realizes_pushByte (byte : ℕ) :
    Realizes (BitWriter.pushByte byte) (some ((),raw (stuffed byte))) := by
  unfold BitWriter.pushByte stuffed
  by_cases h : byte = 0xFF
  · rw [if_pos h,h]
    exact (realizes_push 0xFF).seq (realizes_push 0)
  · rw [if_neg h,if_neg h]
    have hpush := (realizes_push byte).seq (realizes_pure ())
    rwa [andThen_nothing] at hpush

/-- A step that looks at the writer first. -/
theorem realizes_get {f : BitWriter → Write α} {r : Option (α × Emission)}
    (h : ∀ w, w.bytes.length ≤ w.maxLen → YieldsAt (f w) w r) : Realizes (get >>= f) r := by
  intro w hw
  cases r with
  | none => exact h w hw
  | some p => exact h w hw

theorem realizes_writeBit (bit : ℕ) :
    Realizes (BitWriter.writeBit bit) (some ((),Emission.bit bit)) := by
  refine realizes_get fun w hw => ?_
  by_cases hfull : w.used+1 = 8
  · have hstep := ((realizes_setPending (w.current*2 % 256+bit) 8).seq
      ((realizes_pushByte (w.current*2 % 256+bit)).seq (realizes_setPending 0 0))) w hw
    simpa [YieldsAt,Emission.apply,andThen,raw,Emission.bit,hfull] using hstep
  · have hstep := realizes_setPending (w.current*2 % 256+bit) (w.used+1) w hw
    simpa [YieldsAt,Emission.apply,Emission.bit,hfull] using hstep

theorem realizes_align : Realizes BitWriter.alignWithOnes (some ((),Emission.align)) := by
  refine realizes_get fun w hw => ?_
  by_cases hempty : w.used = 0
  · have hstep := realizes_pure () w hw
    simpa [YieldsAt,Emission.apply,Emission.align,nothing,hempty] using hstep
  · have hstep := ((realizes_setPending
      (w.current*2^(8-w.used) % 256+(2^(8-w.used)-1)) w.used).seq
      ((realizes_pushByte (w.current*2^(8-w.used) % 256+(2^(8-w.used)-1))).seq
        (realizes_setPending 0 0))) w hw
    simpa [YieldsAt,Emission.apply,andThen,raw,Emission.align,hempty] using hstep

theorem realizes_restartMarker (marker : ℕ) :
    Realizes (BitWriter.writeRestartMarker marker)
      (some ((),Emission.align.andThen (raw [0xFF,marker]))) := by
  exact realizes_align.seq ((realizes_push 0xFF).seq (realizes_push marker))

theorem realizes_forM {γ : Type} {f : γ → Write Unit} {e : γ → Emission} {l : List γ}
    (h : ∀ c ∈ l, Realizes (f c) (some ((),e c))) :
    Realizes (l.forM f) (some ((),l.foldr (fun c rest => (e c).andThen rest) nothing)) := by
  induction l with
  | nil => exact realizes_pure ()
  | cons c l ih =>
      exact (h c (by simp)).seq (ih fun c hc => h c (List.mem_cons_of_mem _ hc))

/-- A loop fails everywhere when one of its steps does. -/
theorem realizes_forM_none {γ : Type} {f : γ → Write Unit} {r : γ → Option (Unit × Emission)}
    (h : ∀ c, Realizes (f c) (r c)) {l : List γ} {c : γ} (hc : c ∈ l) (hr : r c = none) :
    Realizes (l.forM f) none := by
  induction l with
  | nil => cases hc
  | cons d l ih =>
      have hd := h d
      cases hrd : r d with
      | none =>
          rw [hrd] at hd
          exact hd.none_bind
      | some p =>
          rw [hrd] at hd
          rcases List.mem_cons.mp hc with rfl | hc
          · rw [hr] at hrd
            cases hrd
          · exact Realizes.bind_none (f := fun _ => l.forM f) hd (ih hc)

/-- The bits of a code, the highest first. -/
def codeBits (code len : ℕ) : List ℕ := (List.range len).reverse.map fun i => code/2^i % 2

theorem length_codeBits (code len : ℕ) : (codeBits code len).length = len := by
  simp [codeBits]

theorem realizes_writeBits (code len : ℕ) :
    Realizes (BitWriter.writeBits code len) (some ((),Emission.bits (codeBits code len))) := by
  have h := realizes_forM fun i (_ : i ∈ (List.range len).reverse) =>
    realizes_writeBit (code/2^i % 2)
  unfold codeBits Emission.bits
  rwa [List.foldr_map]

/-- The bytes of a finished writer. -/
theorem intoBytes_ok {w : BitWriter} (hw : w.bytes.length ≤ w.maxLen) :
    ((Emission.align.apply w).bytes.length ≤ w.maxLen →
        w.intoBytes = .ok (Emission.align.apply w).bytes) ∧
      (w.maxLen < (Emission.align.apply w).bytes.length → ∃ error, w.intoBytes = .error error) := by
  have h := realizes_align w hw
  refine ⟨fun hfit => ?_,fun hfit => ?_⟩
  · unfold BitWriter.intoBytes
    rw [h.1 hfit]
    rfl
  · obtain ⟨error,herror⟩ := h.2 hfit
    refine ⟨error,?_⟩
    unfold BitWriter.intoBytes
    rw [herror]
    rfl

end
end J2kNative
