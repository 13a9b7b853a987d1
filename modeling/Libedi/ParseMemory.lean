import Libedi.Lib.BoundedOutput
import Libedi.Scanner
import Libedi.StringPool

/-!
# The memory that the parser writes to

`edi_parser_parse` once more, with the arrays and the copies that `Parse` leaves
out.  The loops here do the same as the ones there (`ediParserParseMemory_snd`)
and also give the list of their accesses.

* `segalloc` and `elalloc` count the slots of an array.  They are counters of their
  own, so `Slots` holds them together with what `realloc` was really asked for.
* The arrays of a composite have no counter.  They are asked for anew with each
  value, from `nvalues`.
* A value is a piece of the string pool, which `memcpyescape` and the NUL behind it
  are stored into.

`ediParserParse_inBounds` says that all of the accesses are inside of what was asked
for.
-/

namespace Libedi

open BoundedOutput

/-! ## Accesses -/

/-- `SEG_BLOCKSIZE`. -/
def segBlocksize : Nat := 8

/-- `ELEMENT_BLOCKSIZE`. -/
def elementBlocksize : Nat := 8

/-- An array that grows: the counter of its slots, and the slots that `realloc` was
last asked for. -/
structure Slots where
  alloc : Nat
  requested : Nat
  deriving DecidableEq, Repr

/-- `if(n + 1 > alloc)`: `realloc` is asked for `block` slots more, and the counter
grows by `step`. -/
def Slots.grow (a : Slots) (n block step : Nat) : Slots :=
  if n + 1 > a.alloc then ⟨a.alloc + step, a.alloc + block⟩ else a

/-- What `edi_parser_parse` does with its memory. -/
inductive Access where
  /-- `edi__stringpool_get(p, minsize)` in front of the loops. -/
  | pool (minsize : Nat)
  /-- `p->segments[slot]` is cleared. -/
  | segment (slot : Nat) (array : Slots)
  /-- `seg->elements[slot]` is cleared. -/
  | element (slot : Nat) (array : Slots)
  /-- `values[slot]` and `valuelens[slot]` are stored, in arrays of `slots`. -/
  | composite (slot slots : Nat)
  /-- The element is not there, or its `nvalues` is read while it is simple. -/
  | stray
  /-- A value of `len` bytes, in a buffer of `requested` bytes. -/
  | value (requested : Nat) (buf : Buffer UInt8) (len : Nat)

/-- An access is inside of the memory that was asked for, and a value ends at its
first NUL. -/
def Access.InBounds : Access → Prop
  | pool _ => True
  | segment slot array | element slot array =>
    slot < array.alloc ∧ array.alloc = array.requested
  | composite slot slots => slot < slots
  | stray => False
  | value requested buf len =>
    (∀ k ∈ buf.stores, k < requested) ∧ len < requested ∧ buf.mem len = 0 ∧
      ∀ k < len, buf.mem k ≠ 0

/-! ## Values -/

/-- `memcpyescape`, as the stores that it makes. -/
def memcpyescapeLoop (p : EdiParser) :
    Bool → Bytes → Writer UInt8 → Writer UInt8
  | _, [], w => w
  | true, c :: src, w => memcpyescapeLoop p false src (w.put c)
  | false, c :: src, w =>
    if p.isEscape c then memcpyescapeLoop p true src w
    else memcpyescapeLoop p false src (w.put c)

/-- `len = memcpyescape(value, ts, ..); value[len] = 0;` -/
def copyValue (p : EdiParser) (mem : Nat → UInt8) (raw : Bytes) :
    Buffer UInt8 × Nat :=
  let w := memcpyescapeLoop p false raw ⟨⟨mem, []⟩, 0⟩
  ((w.terminate 0).buf, w.pos)

/-- The accesses for the value `raw`, which needs `message - ts + 1` bytes. -/
def valueAccess (p : EdiParser) (mem : Nat → UInt8) (raw : Bytes) : Access :=
  let r := copyValue p mem raw
  .value (raw.length + 1) r.1 r.2

/-- The accesses that store a value in its element.  `nvalues` of a new element is
`0`, because all of the element was cleared. -/
def storeAccesses (p : EdiParser) (el : Option EdiElement) (next : Int) :
    List Access :=
  let stores (nvalues : Nat) : List Access :=
    [.composite nvalues (nvalues + 2), .composite (nvalues + 1) (nvalues + 2)]
  match el with
  | none => [.stray]
  | some (.composite vs) => stores vs.length
  | some .untyped => if next == p.sepSub then stores 0 else []
  | some (.simple _) => if next == p.sepSub then [.stray] else []

/-! ## The loops -/

/-- The array of elements behind the `if(newel)` block. -/
def openSlots (st : SegState) (a : Slots) : Slots :=
  if st.newel then a.grow st.elements.length elementBlocksize 8 else a

/-- The accesses of the `if(newel)` block. -/
def openAccesses (st : SegState) (a : Slots) : List Access :=
  if st.newel then [.element st.elements.length (openSlots st a)] else []

/-- The accesses of one round of the element loop. -/
def roundAccesses (p : EdiParser) (mem : Nat → UInt8) (st : SegState)
    (a : Slots) (raw : Bytes) (next : Int) : List Access :=
  openAccesses st a ++
    valueAccess p mem raw :: storeAccesses p st.openElement.el next

/-- The loop over the values of a segment.  `junk` is what is in the memory of the
value that starts at a place of the message. -/
def elementLoopMemory (p : EdiParser) (junk : Bytes → Nat → UInt8) (a : Slots)
    (st : SegState) (m : Bytes) : List Access × (SegState × Bytes) :=
  match m with
  | [] => ([], st, [])
  | c :: cs =>
    if p.isSeg c then ([], st, c :: cs)
    else
      match _h : scanValue p st.first false (c :: cs) with
      | (raw, []) =>
        (roundAccesses p (junk (c :: cs)) st a raw 0,
          storeValue p st.openElement (.ofBytes (memcpyescape p false raw)) 0,
          [])
      | (raw, d :: ds) =>
        let stored := storeValue p st.openElement
          (.ofBytes (memcpyescape p false raw)) (charVal d)
        let accesses := roundAccesses p (junk (c :: cs)) st a raw (charVal d)
        if p.isSeg d then (accesses, stored, d :: ds)
        else
          Prod.map (accesses ++ ·) id
            (elementLoopMemory p junk (openSlots st a)
              { stored with newel := p.opens d } ds)
termination_by m.length
decreasing_by exact scanValue_rest_lt _h

theorem elementLoopMemory_snd (p : EdiParser) (junk : Bytes → Nat → UInt8)
    (a : Slots) (st : SegState) (m : Bytes) :
    (elementLoopMemory p junk a st m).2 = elementLoop p st m := by
  fun_induction elementLoopMemory p junk a st m with
  | case1 => simp [elementLoop]
  | case2 a st c cs hseg => simp [elementLoop, hseg]
  | case3 a st c cs hseg raw hscan =>
    rw [elementLoop_last (eq_false_of_ne_true hseg) hscan]
  | case4 a st c cs hseg raw d ds hscan stored accesses hd =>
    rw [elementLoop_stop (eq_false_of_ne_true hseg) hscan hd]
  | case5 a st c cs hseg raw d ds hscan stored accesses hd ih =>
    rw [elementLoop_next (eq_false_of_ne_true hseg) hscan
      (eq_false_of_ne_true hd)]
    exact ih

/-- The loop over the segments, of which there are `nsegments`. -/
def segmentLoopMemory (p : EdiParser) (junk : Bytes → Nat → UInt8)
    (total nsegments : Nat) (a : Slots) (m : Bytes) :
    List Access × (List EdiSegment × EdiErr) :=
  match _h : m.dropWhile isNewline with
  | [] => ([], [], .none)
  | c :: cs =>
    let a := a.grow nsegments segBlocksize segBlocksize
    let offset := total - (c :: cs).length
    let opened := Access.segment nsegments a
    match _h' : elementLoopMemory p junk ⟨0, 0⟩ SegState.start (c :: cs) with
    | (accesses, st, []) =>
      (opened :: accesses, [⟨st.elements, st.tag, offset⟩], .unterminated)
    | (accesses, st, _ :: rest) =>
      Prod.map (opened :: accesses ++ ·)
        (Prod.map (⟨st.elements, st.tag, offset⟩ :: ·) id)
        (segmentLoopMemory p junk total (nsegments + 1) a rest)
termination_by m.length
decreasing_by
  have hdrop := dropWhile_length_le isNewline m
  have hlen := elementLoop_snd_length_le p SegState.start (c :: cs)
  have hsnd := elementLoopMemory_snd p junk ⟨0, 0⟩ SegState.start (c :: cs)
  rw [_h] at hdrop
  rw [_h'] at hsnd
  rw [← hsnd] at hlen
  simp only [List.length_cons] at hdrop hlen ⊢
  omega

/-- The part of `edi_parser_parse` behind the detection. -/
def parseBodyMemory (p : EdiParser) (junk : Bytes → Nat → UInt8)
    (total : Nat) (m : Bytes) : List Access × (EdiParser × EdiInterchange) :=
  if m.isEmpty then ([], { p with error := .empty }, ⟨[]⟩)
  else
    let r := segmentLoopMemory p junk total 0 ⟨0, 0⟩ m
    (.pool (m.length + 1) :: r.1, { p with error := r.2.2 }, ⟨r.2.1⟩)

/-- `edi_parser_parse`, with its accesses. -/
def ediParserParseMemory (lib : EdiLib) (junk : Bytes → Nat → UInt8)
    (oparser : EdiParser) (message : CString) :
    List Access × (EdiParser × Option EdiInterchange) :=
  if oparser.detect = 1 then
    match (ediDetect lib.detectparams message).found with
    | none => ([], oparser, none)
    | some (params, skip) =>
      if params.version ≠ 0 then
        let r := parseBodyMemory (ediParserInit (some params)) junk
          message.strlen (message.bytes.drop skip)
        (r.1, oparser, some r.2.2)
      else
        let r := parseBodyMemory oparser junk message.strlen
          (message.bytes.drop skip)
        (r.1, r.2.1, some r.2.2)
  else
    let r := parseBodyMemory oparser junk message.strlen message.bytes
    (r.1, r.2.1, some r.2.2)

/-! ## The same parser -/

theorem segmentLoopMemory_snd (p : EdiParser) (junk : Bytes → Nat → UInt8)
    (total nsegments : Nat) (a : Slots) (m : Bytes) :
    (segmentLoopMemory p junk total nsegments a m).2
      = segmentLoop p total m := by
  fun_induction segmentLoopMemory p junk total nsegments a m with
  | case1 nsegments a m h => rw [segmentLoop_nil h]
  | case2 nsegments a m c cs h b offset opened accesses st hloop =>
    have hsnd := elementLoopMemory_snd p junk ⟨0, 0⟩ SegState.start (c :: cs)
    rw [hloop] at hsnd
    rw [segmentLoop_open h (by simp) hsnd.symm]
  | case3 nsegments a m c cs h b offset opened accesses st d rest hloop ih =>
    have hsnd := elementLoopMemory_snd p junk ⟨0, 0⟩ SegState.start (c :: cs)
    rw [hloop] at hsnd
    rw [segmentLoop_closed h (by simp) hsnd.symm, ← ih]
    rfl

theorem parseBodyMemory_snd (p : EdiParser) (junk : Bytes → Nat → UInt8)
    (total : Nat) (m : Bytes) :
    (parseBodyMemory p junk total m).2 = parseBody p total m := by
  unfold parseBodyMemory parseBody
  split
  · rfl
  · simp only [segmentLoopMemory_snd]

/-- With its accesses left out this is the parser of `Parse`. -/
theorem ediParserParseMemory_snd (lib : EdiLib) (junk : Bytes → Nat → UInt8)
    (oparser : EdiParser) (message : CString) :
    (ediParserParseMemory lib junk oparser message).2
      = ediParserParse lib oparser message := by
  unfold ediParserParseMemory ediParserParse
  split
  · cases (ediDetect lib.detectparams message).found with
    | none => rfl
    | some found =>
      obtain ⟨params, skip⟩ := found
      dsimp only
      split <;> simp only [parseBodyMemory_snd]
  · simp only [parseBodyMemory_snd]

/-! ## Values are inside -/

theorem memcpyescapeLoop_at (p : EdiParser) {limit : Nat} {w : Writer UInt8}
    {t : Bytes} (h : At limit w t) (e : Bool) {src : Bytes}
    (hroom : t.length + src.length ≤ limit) :
    At limit (memcpyescapeLoop p e src w) (t ++ memcpyescape p e src) := by
  fun_induction memcpyescapeLoop p e src w generalizing t with
  | case1 e w => simpa [memcpyescape] using h
  | case2 c src w ih =>
    have hpos := h.pos
    rw [List.length_cons] at hroom
    rw [memcpyescape, List.append_cons]
    exact ih (h.put (by omega) c) (by simp; omega)
  | case3 c src w hc ih =>
    rw [List.length_cons] at hroom
    rw [memcpyescape, if_pos hc]
    exact ih h (by omega)
  | case4 c src w hc ih =>
    have hpos := h.pos
    rw [List.length_cons] at hroom
    rw [memcpyescape, if_neg hc, List.append_cons]
    exact ih (h.put (by omega) c) (by simp; omega)

theorem memcpyescape_length_le (p : EdiParser) (e : Bool) (src : Bytes) :
    (memcpyescape p e src).length ≤ src.length := by
  fun_induction memcpyescape p e src with
  | case1 => simp
  | case2 c src ih => simpa using ih
  | case3 c src hc ih => exact Nat.le_succ_of_le ih
  | case4 c src hc ih => simpa using ih

theorem not_mem_memcpyescape (p : EdiParser) {raw : Bytes} (h : 0 ∉ raw) :
    0 ∉ memcpyescape p false raw := by
  rw [memcpyescape_eq_unescape]
  exact fun hmem => h (EscapedText.mem_of_mem_unescape hmem)

/-- What is copied for a value is the value of the parser, with a NUL behind it. -/
theorem copyValue_at (p : EdiParser) (mem : Nat → UInt8) (raw : Bytes) :
    ∃ w, At (raw.length + 1) w (memcpyescape p false raw) ∧
      copyValue p mem raw = ((w.terminate 0).buf, w.pos) := by
  have hstart := At.start (raw.length + 1) mem
  have hroom : ([] : Bytes).length + raw.length ≤ raw.length + 1 := by simp
  have hat := memcpyescapeLoop_at p hstart false hroom
  rw [List.nil_append] at hat
  exact ⟨_, hat, rfl⟩

theorem valueAccess_inBounds (p : EdiParser) (mem : Nat → UInt8) {raw : Bytes}
    (hraw : 0 ∉ raw) : (valueAccess p mem raw).InBounds := by
  obtain ⟨w, hat, hcopy⟩ := copyValue_at p mem raw
  have hlen := memcpyescape_length_le p false raw
  have hpos := hat.pos
  have hnul := hat.terminate 0
  simp only [valueAccess, hcopy, Access.InBounds]
  refine ⟨hnul.stores_lt (by omega), by omega, by simp [Writer.terminate], ?_⟩
  intro k hk hzero
  rw [hpos] at hk
  have hkth := hnul.holds k hk
  rw [hzero] at hkth
  exact not_mem_memcpyescape p hraw (List.mem_of_getElem? hkth)

/-! ## Arrays are inside -/

/-- The counter is what `realloc` was asked for, and `n` slots are in use. -/
structure Slots.Holds (a : Slots) (n : Nat) : Prop where
  counted : a.alloc = a.requested
  le : n ≤ a.alloc

theorem Slots.holds_zero : Slots.Holds ⟨0, 0⟩ 0 := ⟨rfl, Nat.le_refl 0⟩

/-- An array that grows in steps of its blocks has room for one slot more. -/
theorem Slots.Holds.grow {a : Slots} {n : Nat} (h : a.Holds n) {block : Nat}
    (hblock : 0 < block) : (a.grow n block block).Holds (n + 1) := by
  have hcounted := h.counted
  have hle := h.le
  unfold Slots.grow
  split
  · exact ⟨by simp [hcounted], by simp only; omega⟩
  · exact ⟨hcounted, by omega⟩

/-- In front of a value of the same element, that element is a composite. -/
def SegState.Steady (st : SegState) : Prop :=
  st.newel = true ∨ ∃ vs, st.el = some (.composite vs)

namespace SegState

theorem steady_start : start.Steady := Or.inl rfl

/-- A value goes into a new element or into a composite. -/
theorem Steady.el_openElement {st : SegState} (h : st.Steady) :
    st.openElement.el = some .untyped ∨
      ∃ vs, st.openElement.el = some (.composite vs) := by
  by_cases hnew : st.newel = true
  · rw [openElement_of_newel hnew]
    exact Or.inl rfl
  · rw [openElement_of_not_newel (by simpa using hnew)]
    exact Or.inr (h.resolve_left hnew)

/-- The next value goes into the same element only behind a sub-element
separator. -/
theorem Steady.next {st : SegState} (h : st.Steady) {p : EdiParser} {d : UInt8}
    (hstop : p.stops st.first d = true) (hd : p.isSeg d = false) (v : EdiValue) :
    Steady { storeValue p st.openElement v (charVal d) with
      newel := p.opens d } := by
  by_cases hopens : p.opens d = true
  · exact Or.inl hopens
  · have hsub : (charVal d == p.sepSub) = true := by
      simp only [EdiParser.opens, Bool.or_eq_true, not_or] at hopens
      simpa [EdiParser.stops, hd, hopens, EdiParser.isSub] using hstop
    refine Or.inr ?_
    rcases h.el_openElement with hel | ⟨vs, hel⟩
    · exact ⟨[v], by simp [storeValue_el, hel, hsub, EdiElement.store]⟩
    · exact ⟨vs ++ [v], by simp [storeValue_el, hel, EdiElement.store]⟩

end SegState

/-- The array of elements holds the new element as well. -/
theorem openSlots_holds {st : SegState} {a : Slots}
    (ha : a.Holds st.elements.length) :
    (openSlots st a).Holds st.openElement.elements.length := by
  by_cases hnew : st.newel = true
  · rw [openSlots, if_pos hnew, SegState.openElement_of_newel hnew]
    -- The counter grows by a literal that is the block size.
    have hgrow := ha.grow (show 0 < elementBlocksize by decide)
    rw [show elementBlocksize = 8 from rfl] at hgrow ⊢
    simpa [SegState.elements, Nat.add_assoc] using hgrow
  · rw [openSlots, if_neg hnew,
      SegState.openElement_of_not_newel (by simpa using hnew)]
    exact ha

/-- Storing a value adds no element. -/
theorem storeValue_elements_length (p : EdiParser) (st : SegState)
    (v : EdiValue) (next : Int) (newel : Bool) :
    (SegState.elements
        { storeValue p st v next with newel := newel }).length
      = st.elements.length := by
  simp only [SegState.elements, storeValue_before, storeValue_el,
    List.length_append]
  cases st.el <;> rfl

theorem openAccesses_inBounds {st : SegState} {a : Slots}
    (ha : a.Holds st.elements.length) :
    ∀ x ∈ openAccesses st a, x.InBounds := by
  have hopen := openSlots_holds ha
  unfold openAccesses
  split
  · next hnew =>
    have hle := hopen.le
    rw [SegState.openElement_of_newel hnew] at hle
    simp only [SegState.elements, List.length_append, Option.toList_some,
      List.length_singleton] at hle
    intro x hx
    obtain rfl := List.mem_singleton.1 hx
    exact ⟨by simp only [SegState.elements, List.length_append]; omega,
      hopen.counted⟩
  · simp

theorem storeAccesses_inBounds {st : SegState} (h : st.Steady) (p : EdiParser)
    (next : Int) :
    ∀ x ∈ storeAccesses p st.openElement.el next, x.InBounds := by
  have hstores : ∀ n, ∀ x ∈ [Access.composite n (n + 2),
      .composite (n + 1) (n + 2)], x.InBounds := by
    intro n x hx
    simp only [List.mem_cons, List.not_mem_nil, or_false] at hx
    rcases hx with rfl | rfl <;> simp [Access.InBounds]
  rcases h.el_openElement with hel | ⟨vs, hel⟩
  · rw [hel, storeAccesses]
    split
    · exact hstores 0
    · simp
  · rw [hel, storeAccesses]
    exact hstores vs.length

/-- One round of the element loop. -/
theorem roundAccesses_inBounds {st : SegState} (h : st.Steady) {a : Slots}
    (ha : a.Holds st.elements.length) {p : EdiParser} {mem : Nat → UInt8}
    {raw : Bytes} (hraw : 0 ∉ raw) (next : Int) :
    ∀ x ∈ roundAccesses p mem st a raw next, x.InBounds := by
  intro x hx
  rcases List.mem_append.1 hx with hx | hx
  · exact openAccesses_inBounds ha x hx
  · rcases List.mem_cons.1 hx with rfl | hx
    · exact valueAccess_inBounds p mem hraw
    · exact storeAccesses_inBounds h p next x hx

/-! ## The whole parse -/

/-- What a scan cuts off and what it leaves is in the message. -/
theorem scanValue_not_mem {p : EdiParser} {first : Bool} {b : UInt8}
    {m raw rest : Bytes} (hscan : scanValue p first false m = (raw, rest))
    (hm : b ∉ m) : b ∉ raw ∧ b ∉ rest := by
  rw [← scanValue_concat hscan, List.mem_append, not_or] at hm
  exact hm

theorem elementLoopMemory_inBounds (p : EdiParser)
    (junk : Bytes → Nat → UInt8) {a : Slots} {st : SegState} {m : Bytes}
    (h : st.Steady) (ha : a.Holds st.elements.length) (hm : 0 ∉ m) :
    (∀ x ∈ (elementLoopMemory p junk a st m).1, x.InBounds) ∧
      0 ∉ (elementLoopMemory p junk a st m).2.2 := by
  fun_induction elementLoopMemory p junk a st m with
  | case1 => simp
  | case2 a st c cs hseg => exact ⟨by simp, hm⟩
  | case3 a st c cs hseg raw hscan =>
    obtain ⟨hraw, -⟩ := scanValue_not_mem hscan hm
    exact ⟨roundAccesses_inBounds h ha hraw 0, List.not_mem_nil⟩
  | case4 a st c cs hseg raw d ds hscan stored accesses hd =>
    obtain ⟨hraw, hrest⟩ := scanValue_not_mem hscan hm
    exact ⟨roundAccesses_inBounds h ha hraw (charVal d), hrest⟩
  | case5 a st c cs hseg raw d ds hscan stored accesses hd ih =>
    obtain ⟨hraw, hrest⟩ := scanValue_not_mem hscan hm
    rw [List.mem_cons, not_or] at hrest
    have hsteady := h.next (scanValue_stops hscan) (eq_false_of_ne_true hd)
      (.ofBytes (memcpyescape p false raw))
    have hholds := openSlots_holds ha
    rw [← storeValue_elements_length p st.openElement
      (.ofBytes (memcpyescape p false raw)) (charVal d) (p.opens d)] at hholds
    obtain ⟨hbounds, hnul⟩ := ih hsteady hholds hrest.2
    refine ⟨?_, hnul⟩
    intro x hx
    rcases List.mem_append.1 hx with hx | hx
    · exact roundAccesses_inBounds h ha hraw (charVal d) x hx
    · exact hbounds x hx

theorem segmentLoopMemory_inBounds (p : EdiParser)
    (junk : Bytes → Nat → UInt8) (total : Nat) {nsegments : Nat} {a : Slots}
    {m : Bytes} (ha : a.Holds nsegments) (hm : 0 ∉ m) :
    ∀ x ∈ (segmentLoopMemory p junk total nsegments a m).1, x.InBounds := by
  have hopened : ∀ {n : Nat} {b : Slots}, (b.Holds (n + 1)) →
      (Access.segment n b).InBounds :=
    fun h => ⟨h.le, h.counted⟩
  have hskip : ∀ {l l' : Bytes}, l.dropWhile isNewline = l' → 0 ∉ l → 0 ∉ l' :=
    fun hl hnul hmem =>
      hnul ((List.dropWhile_sublist isNewline).subset (hl ▸ hmem))
  fun_induction segmentLoopMemory p junk total nsegments a m with
  | case1 nsegments a m h => simp
  | case2 nsegments a m c cs h b offset opened accesses st hloop =>
    have hgrow := ha.grow (show 0 < segBlocksize by decide)
    have hloop' := elementLoopMemory_inBounds p junk SegState.steady_start
      Slots.holds_zero (hskip h hm)
    rw [hloop] at hloop'
    exact List.forall_mem_cons.2 ⟨hopened hgrow, hloop'.1⟩
  | case3 nsegments a m c cs h b offset opened accesses st d rest hloop ih =>
    have hgrow := ha.grow (show 0 < segBlocksize by decide)
    have hloop' := elementLoopMemory_inBounds p junk SegState.steady_start
      Slots.holds_zero (hskip h hm)
    rw [hloop] at hloop'
    obtain ⟨hbounds, hrest⟩ := hloop'
    rw [List.mem_cons, not_or] at hrest
    intro x hx
    rcases List.mem_append.1 hx with hx | hx
    · rcases List.mem_cons.1 hx with rfl | hx
      · exact hopened hgrow
      · exact hbounds x hx
    · exact ih hgrow hrest.2 x hx

theorem parseBodyMemory_inBounds (p : EdiParser) (junk : Bytes → Nat → UInt8)
    (total : Nat) {m : Bytes} (hm : 0 ∉ m) :
    ∀ x ∈ (parseBodyMemory p junk total m).1, x.InBounds := by
  unfold parseBodyMemory
  split
  · simp
  · exact List.forall_mem_cons.2
      ⟨trivial, segmentLoopMemory_inBounds p junk total Slots.holds_zero hm⟩

/-- `edi_parser_parse` stays inside of the memory that it has asked for, and every
value ends at its first NUL. -/
theorem ediParserParse_inBounds (lib : EdiLib) (junk : Bytes → Nat → UInt8)
    (oparser : EdiParser) (message : CString) :
    (ediParserParseMemory lib junk oparser message).2
        = ediParserParse lib oparser message ∧
      ∀ x ∈ (ediParserParseMemory lib junk oparser message).1, x.InBounds := by
  refine ⟨ediParserParseMemory_snd lib junk oparser message, ?_⟩
  have hskip : ∀ skip, 0 ∉ message.bytes.drop skip :=
    fun skip hmem => message.nulFree (List.mem_of_mem_drop hmem)
  unfold ediParserParseMemory
  split
  · cases (ediDetect lib.detectparams message).found with
    | none => simp
    | some found =>
      obtain ⟨params, skip⟩ := found
      dsimp only
      split <;> exact parseBodyMemory_inBounds _ junk _ (hskip skip)
  · exact parseBodyMemory_inBounds _ junk _ message.nulFree

end Libedi
