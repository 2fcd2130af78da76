import J2kNative.HuffmanPaths

/-!
# Padding that is decoded

The reader puts ones after the last real bits. They make no codes of their own, as
long as no code and no magnitude of the table ends in them.
-/
namespace J2kNative.NeverSilent

open BitReader BitSerial HuffmanPaths

variable {raw : RawHuffmanTable} {role : HuffmanTableRole} {codes : List ℕ} {table : HuffmanTable}
  {p symbol code len n : ℕ} {r : BitReader} {u w m : List ℕ}

/-- Where the real bits do not suffice, nothing is returned. -/
def Refuses {α β : Type} (path : Read α) (r : BitReader) (real : Except Failure β) : Prop :=
  real = .error .outOfBits → ∃ e, path r = .error e

/-- No reading step of a table returns what does not lie in the real bits. -/
structure NeverSilent (raw : RawHuffmanTable) (role : HuffmanTableRole) (table : HuffmanTable)
    (r : BitReader) (u : List ℕ) : Prop where
  readBits : ∀ n, Refuses (BitReader.readBits n) r (receive n u)
  decode : Refuses table.decode r (BitSerial.decode raw (huffmanCodes raw) u)
  decodeFastDc : role = .dc → Refuses table.decodeFastDc r (difference raw (huffmanCodes raw) u)
  decodeFastAc : role = .ac → Refuses table.decodeFastAc r (acStep raw (huffmanCodes raw) u)
  skipFastAc : role = .ac → Refuses table.skipFastAc r (acStep raw (huffmanCodes raw) u)

/-- The bits of magnitude that a symbol asks for. -/
def magnitudeSize : HuffmanTableRole → ℕ → ℕ
  | .dc,symbol => symbol
  | .ac,symbol => symbol % 16

/-- No ones are left over from earlier padding, and the real bits with ones after them start with
no code that ends in the ones, or whose magnitude does so within the bits that are looked at. -/
def Clean (raw : RawHuffmanTable) (role : HuffmanTableRole) (r : BitReader) (u : List ℕ) : Prop :=
  r.syntheticBits = 0 ∧ ∀ symbol rest len,
    decode raw (huffmanCodes raw) (u ++ List.replicate 16 1) = .ok (symbol,rest) →
    (u ++ List.replicate 16 1).length-rest.length = len → Fills (lookahead len) r u →
    len ≤ u.length ∧
      (u.length < len+magnitudeSize role symbol → lookahead len < len+magnitudeSize role symbol)

theorem readBits_refused (hr : Reads r u) (hsynthetic : r.syntheticBits = 0) (n : ℕ) :
    Refuses (BitReader.readBits n) r (receive n u) := by
  intro hreal
  unfold receive at hreal
  split_ifs at hreal with hle
  exact ⟨_,run_bind_error (ensureBits_short hr (by omega))⟩

/-- Ones in the reservoir are read as any bit. -/
theorem readBits_silent (hr : Reads r u) (h : ∀ n, Refuses (BitReader.readBits n) r (receive n u)) :
    r.syntheticBits = 0 := by
  by_contra hsynthetic
  have hbits : u.length+r.syntheticBits = r.bits := by
    have hnil : r.ahead = [] := by
      obtain ⟨-,-,-,-,hahead⟩ := hr
      exact hahead (Nat.pos_of_ne_zero hsynthetic)
    exact hr.length_le hnil
  obtain ⟨e,hrun⟩ := h (u.length+1) (if_neg (by omega))
  unfold BitReader.readBits at hrun
  rw [run_bind_ok (ensureBits_held (by omega : u.length+1 ≤ r.bits))] at hrun
  cases hrun

theorem decodeFastDc_short (hbuilt : BuiltFrom raw .dc codes table)
    (h : CodeAt raw codes p symbol code len) (hr : Reads r u)
    (hahead : Ahead u (codeBits code len)) (hf : ¬Fills (lookahead len) r u) :
    table.decodeFastDc r = .error tableExhausted := by
  by_cases h12 : Fills fastBits r u
  · obtain ⟨q,hq⟩ := exists_looked (by decide : fastBits ≤ 57) hr h12
    have hlong : ¬len ≤ fastBits := fun hle => hf (by rw [lookahead,if_pos hle]; exact h12)
    have hfast := fast_ahead hbuilt h hq.reads hahead hq.bits
    rw [if_neg hlong] at hfast
    refine (run_bind_ok hq.run).trans ?_
    show (if table.packed (q.peekBits fastBits) ≠ 0 then _ else _ : Read ℤ) q = _
    rw [hbuilt.packed_eq,hfast]
    exact run_bind_error (decode_short hbuilt h hq.reads hahead (mt (hq.fills _).mp hf))
  · exact run_bind_error (ensureBitsPadded_error (by decide) hr h12)

theorem fastAcWith_short {finish : ℕ → Read ℕ} (hbuilt : BuiltFrom raw .ac codes table)
    (h : CodeAt raw codes p symbol code len) (hr : Reads r u)
    (hahead : Ahead u (codeBits code len)) (hf : ¬Fills (lookahead len) r u) :
    fastAcWith table finish r = .error tableExhausted := by
  by_cases h12 : Fills fastBits r u
  · obtain ⟨q,hq⟩ := exists_looked (by decide : fastBits ≤ 57) hr h12
    have hlong : ¬len ≤ fastBits := fun hle => hf (by rw [lookahead,if_pos hle]; exact h12)
    have hfast := fast_ahead hbuilt h hq.reads hahead hq.bits
    rw [if_neg hlong] at hfast
    refine (run_bind_ok hq.run).trans ?_
    show (if table.packed (q.peekBits fastBits) ≠ 0 then _ else _ : Read ℕ) q = _
    rw [hbuilt.packed_eq,hfast]
    refine run_bind_error ?_
    unfold HuffmanTable.decodeUnpacked
    rw [hfast]
    exact decode_short hbuilt h hq.reads hahead (mt (hq.fills _).mp hf)
  · exact run_bind_error (ensureBitsPadded_error (by decide) hr h12)

/-- A path that finishes an open AC symbol asks for the bits of its magnitude. -/
structure Asks (finish : ℕ → Read ℕ) : Prop where
  short : ∀ symbol r u, Reads r u → u.length+r.syntheticBits < symbol % 16 →
    ∃ e, finish symbol r = .error e
  held : ∀ symbol r, symbol % 16 ≤ r.bits → ∃ packed r', finish symbol r = .ok (packed,r')

theorem receiveExtend_short {ssss : ℕ} (hr : Reads r u) (hshort : u.length+r.syntheticBits < ssss) :
    receiveExtend ssss r = .error tableExhausted := by
  unfold receiveExtend
  rw [if_neg (by omega)]
  exact run_bind_error (ensureBits_short hr hshort)

theorem receiveExtend_held {ssss : ℕ} (hbits : ssss ≤ r.bits) :
    ∃ v r', receiveExtend ssss r = .ok (v,r') := by
  unfold receiveExtend
  split_ifs
  · exact ⟨0,r,rfl⟩
  · exact ⟨_,_,run_bind_ok (ensureBits_held hbits)⟩

theorem asks_decode : Asks finishDecode where
  short := fun symbol r u hr hshort => by
    unfold finishDecode
    rw [low_eq,if_neg (by omega)]
    exact ⟨_,run_bind_error (receiveExtend_short hr hshort)⟩
  held := fun symbol r hbits => by
    unfold finishDecode
    rw [low_eq]
    split_ifs
    · exact ⟨_,r,rfl⟩
    · exact ⟨_,r,rfl⟩
    · obtain ⟨v,r',hrun⟩ := receiveExtend_held hbits
      exact ⟨_,r',run_bind_ok hrun⟩

theorem asks_skip : Asks finishSkip where
  short := fun symbol r u hr hshort => by
    unfold finishSkip
    rw [low_eq,if_neg (by omega)]
    exact ⟨_,run_bind_error (ensureBits_short hr hshort)⟩
  held := fun symbol r hbits => by
    unfold finishSkip
    rw [low_eq]
    split_ifs
    · exact ⟨_,r,rfl⟩
    · exact ⟨_,r,rfl⟩
    · exact ⟨_,_,run_bind_ok (ensureBits_held hbits)⟩

/-! ### Nothing silent on a clean reader -/

section
variable (hclean : Clean raw role r u) (hr : Reads r u)
  (hbuilt : BuiltFrom raw role (huffmanCodes raw) table)
include hclean hr hbuilt

theorem decode_refused : Refuses table.decode r (decode raw (huffmanCodes raw) u) := by
  intro hreal
  rcases view_cases hbuilt hr.le_one with
    ⟨p,symbol,code,len,hnext,⟨rest,hview,hlen⟩,hdecode⟩ | ⟨hno,-⟩
  · have hlong : ¬len ≤ u.length := fun hle => by
      rw [if_pos hle,hreal] at hdecode
      cases hdecode
    by_cases hf : Fills (lookahead len) r u
    · exact absurd (hclean.2 symbol rest len hview hlen hf).1 hlong
    · exact ⟨_,decode_short hbuilt hnext.codeAt hr hnext.ahead hf⟩
  · exact decode_noCode hbuilt hno hr

end

/-- What the real bits are short of: the code, or its magnitude. -/
theorem short_of_receive {s : ℕ} {β : Type} {f : ℤ × List ℕ → Except Failure β}
    (h : receive s w >>= f = .error .outOfBits) (hf : ∀ p, f p ≠ .error .outOfBits) :
    w.length < s := by
  unfold receive at h
  split_ifs at h with hle
  · exact absurd h (hf _)
  · omega

theorem decodeFastDc_refused (hclean : Clean raw .dc r u) (hr : Reads r u)
    (hbuilt : BuiltFrom raw .dc (huffmanCodes raw) table) :
    Refuses table.decodeFastDc r (difference raw (huffmanCodes raw) u) := by
  intro hreal
  rcases view_cases hbuilt hr.le_one with
    ⟨p,symbol,code,len,hnext,⟨rest,hview,hlen⟩,hdecode⟩ | ⟨hno,-⟩
  · by_cases hf : Fills (lookahead len) r u
    · obtain ⟨hle,hmagnitude⟩ := hclean.2 symbol rest len hview hlen hf
      rw [if_pos hle] at hdecode
      unfold difference at hreal
      rw [hdecode] at hreal
      have hshort : (u.drop len).length < symbol := by
        have hreceive : receive symbol (u.drop len) = .error .outOfBits := hreal
        unfold receive at hreceive
        split_ifs at hreceive with hle
        exact Nat.lt_of_not_le hle
      have hlook : lookahead len < len+symbol := hmagnitude (by
        rw [List.length_drop] at hshort
        show u.length < len+symbol
        omega)
      obtain ⟨q,hrun,htook⟩ := decodeFastDc_open hbuilt hnext.codeAt hr hnext.ahead hf (fun hopen => by
        have := fastBits_le_lookahead len
        omega)
      by_cases hlarge : 15 < symbol
      · rw [if_pos hlarge] at hrun
        exact ⟨_,hrun⟩
      · rw [if_neg hlarge] at hrun
        have hshown := htook.shown
        rw [hclean.1,List.length_drop] at hshown
        rw [List.length_drop] at hshort
        refine ⟨_,hrun.trans (receiveExtend_short htook.reads ?_)⟩
        rw [List.length_drop]
        omega
    · exact ⟨_,decodeFastDc_short hbuilt hnext.codeAt hr hnext.ahead hf⟩
  · exact decodeFastDc_noCode hbuilt hno hr

theorem fastAcWith_refused {finish : ℕ → Read ℕ} (hasks : Asks finish) (hclean : Clean raw .ac r u)
    (hr : Reads r u) (hbuilt : BuiltFrom raw .ac (huffmanCodes raw) table) :
    Refuses (fastAcWith table finish) r (acStep raw (huffmanCodes raw) u) := by
  intro hreal
  rcases view_cases hbuilt hr.le_one with
    ⟨p,symbol,code,len,hnext,⟨rest,hview,hlen⟩,hdecode⟩ | ⟨hno,-⟩
  · by_cases hf : Fills (lookahead len) r u
    · obtain ⟨hle,hmagnitude⟩ := hclean.2 symbol rest len hview hlen hf
      rw [if_pos hle] at hdecode
      unfold acStep at hreal
      rw [hdecode] at hreal
      have hreal : (if symbol % 16 = 0 then .ok (if symbol/16 = 15 then .zrl else .eob,u.drop len)
          else receive (symbol % 16) (u.drop len) >>= fun p => .ok (.value (symbol/16) p.1,p.2) :
          Except Failure (AcStep × List ℕ)) = .error .outOfBits := hreal
      split_ifs at hreal with hzero
      have hshort : (u.drop len).length < symbol % 16 := short_of_receive hreal nofun
      rw [List.length_drop] at hshort
      have hlook : lookahead len < len+symbol % 16 := hmagnitude (by
        show u.length < len+symbol % 16
        omega)
      have hopen : len ≤ fastBits → ∀ idx, packedEntry .ac idx symbol len = 0 := fun _ idx => by
        have := fastBits_le_lookahead len
        rw [packedEntry_ac idx symbol len (Nat.ne_of_gt hnext.codeAt.len_pos.1) hnext.symbol_lt,
          if_neg hzero,if_pos (by omega)]
      obtain ⟨q,hrun,htook⟩ := @fastAcWith_open raw (huffmanCodes raw) table p symbol code len
        r u finish hbuilt hnext.codeAt hopen hr hnext.ahead hf
      have hshown := htook.shown
      rw [hclean.1,List.length_drop] at hshown
      obtain ⟨e,hrefused⟩ := hasks.short symbol q _ htook.reads (by
        rw [List.length_drop]
        omega)
      exact ⟨e,hrun.trans hrefused⟩
    · exact ⟨_,fastAcWith_short hbuilt hnext.codeAt hr hnext.ahead hf⟩
  · exact fastAcWith_noCode hbuilt hno hr

/-! ### What is returned from the ones -/

/-- The magnitude bits in the real bits and the ones after them. -/
theorem exists_magnitude (hahead : Ahead u (codeBits code len)) {s : ℕ} (hfits : len+s ≤ 16) :
    ∃ m, m.length = s ∧ Ahead u (codeBits code len ++ m) := by
  have hview := view_length u
  refine ⟨((u ++ List.replicate 16 1).drop len).take s,?_,?_⟩
  · rw [List.length_take,List.length_drop]
    omega
  · have hsplit : (u ++ List.replicate 16 1).take (len+s) =
        codeBits code len ++ ((u ++ List.replicate 16 1).drop len).take s := by
      rw [List.take_add,← hahead,length_codeBits]
    rw [Ahead,← hsplit,List.length_take,min_eq_left (hfits.trans hview)]

theorem decodeFastDc_silent (hr : Reads r u) (hbuilt : BuiltFrom raw .dc codes table)
    (h : CodeAt raw codes p symbol code len) (hahead : Ahead u (codeBits code len))
    (hf : Fills (lookahead len) r u) (hfits : len+symbol ≤ lookahead len) :
    ∃ v r', table.decodeFastDc r = .ok (v,r') := by
  have hpos := h.len_pos.1
  have hlook : lookahead len ≤ 16 := by
    unfold lookahead fastBits
    split_ifs <;> omega
  obtain ⟨m,hm,hbits⟩ := exists_magnitude hahead (hfits.trans hlook)
  have hle : ∀ b ∈ m, b ≤ 1 := fun b hb => by
    have hmem : b ∈ codeBits code len ++ m := List.mem_append_right _ hb
    rw [← hbits] at hmem
    exact view_le hr b (List.mem_of_mem_take hmem)
  by_cases hpacked : len+symbol ≤ fastBits
  · have hlength : (codeBits code len ++ m).length = len+m.length := by
      rw [List.length_append,length_codeBits]
    have hsize : m.length ≤ 15 := by
      unfold fastBits at hpacked
      omega
    have hbounds := magnitudeOf_bounds hle hsize
    obtain ⟨r',hrun,-⟩ := @decodeFastDc_packed r u (codeBits code len ++ m) table (magnitudeOf m)
      (by omega) (by omega) (fun idx hidx => by
        rw [hlength] at hidx
        obtain ⟨hentry,hmagnitude⟩ := packed_ahead hbuilt h hle (by omega) hidx
        rw [hentry,hlength]
        unfold packedEntry
        dsimp only
        rw [if_neg (Nat.ne_of_gt hpos),if_pos ⟨by omega,hpacked⟩,← hm,hmagnitude])
      (by omega) hr hbits (hf.mono (fastBits_le_lookahead len))
    exact ⟨_,r',hrun⟩
  · obtain ⟨q,hrun,htook⟩ := decodeFastDc_open hbuilt h hr hahead hf fun hopen => hpacked hopen.2
    rw [if_neg (by omega)] at hrun
    obtain ⟨v,r',hreceive⟩ := @receiveExtend_held q symbol (by
      have := htook.bits
      omega)
    exact ⟨v,r',hrun.trans hreceive⟩

theorem fastAcWith_silent {finish : ℕ → Read ℕ} (hasks : Asks finish) (hr : Reads r u)
    (hbuilt : BuiltFrom raw .ac codes table) (h : CodeAt raw codes p symbol code len)
    (hsymbol : symbol < 256) (hahead : Ahead u (codeBits code len))
    (hf : Fills (lookahead len) r u) (hpos : 0 < symbol % 16)
    (hfits : len+symbol % 16 ≤ lookahead len) :
    ∃ packed r', fastAcWith table finish r = .ok (packed,r') := by
  have hlenpos := h.len_pos.1
  have hlook : lookahead len ≤ 16 := by
    unfold lookahead fastBits
    split_ifs <;> omega
  obtain ⟨m,hm,hbits⟩ := exists_magnitude hahead (hfits.trans hlook)
  have hle : ∀ b ∈ m, b ≤ 1 := fun b hb => by
    have hmem : b ∈ codeBits code len ++ m := List.mem_append_right _ hb
    rw [← hbits] at hmem
    exact view_le hr b (List.mem_of_mem_take hmem)
  have hentry : ∀ idx, packedEntry .ac idx symbol len =
      if fastBits < len+m.length then 0
      else packAcValue (len+m.length) (symbol/16) (packedMagnitude idx len m.length) :=
    fun idx => by
      rw [packedEntry_ac idx symbol len (Nat.ne_of_gt hlenpos) hsymbol,if_neg (by omega),hm]
  by_cases hpacked : len+symbol % 16 ≤ fastBits
  · have hlength : (codeBits code len ++ m).length = len+m.length := by
      rw [List.length_append,length_codeBits]
    have hbounds := magnitudeOf_bounds hle (by omega)
    have hlt : len+m.length < 16 := by
      unfold fastBits at hpacked
      omega
    obtain ⟨-,hlow,hne⟩ := @stepOf_packAcValue (len+m.length) (symbol/16) hlt (by omega)
      (magnitudeOf m) (by omega)
    obtain ⟨r',hrun,-⟩ := @fastAcWith_packed table r u (codeBits code len ++ m) finish _
      (by omega) (fun idx hidx => by
        rw [hlength] at hidx
        obtain ⟨hahead,hmagnitude⟩ := packed_ahead hbuilt h hle (by omega) hidx
        rw [hahead,hentry,if_neg (by omega),hmagnitude])
      (by rw [hlength]; exact ⟨hlow,hne⟩) hr hbits (hf.mono (fastBits_le_lookahead len))
    exact ⟨_,r',hrun⟩
  · obtain ⟨q,hrun,htook⟩ := @fastAcWith_open raw codes table p symbol code len r u finish hbuilt h
      (fun _ idx => (hentry idx).trans (if_pos (by omega))) hr hahead hf
    obtain ⟨packed,r',hfinish⟩ := hasks.held symbol q (by
      have := htook.bits
      omega)
    exact ⟨packed,r',hrun.trans hfinish⟩

/-- Two codes of nine bits, eight zeros and a zero or a one. -/
def nineBits : RawHuffmanTable where
  bits := [0,0,0,0,0,0,0,0,2,0,0,0,0,0,0,0]
  values := [0,1]
  bits_length := rfl
  values_lt := by decide

end J2kNative.NeverSilent
