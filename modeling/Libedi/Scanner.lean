import Libedi.Parse

/-!
# The raw pieces of a message

The element loop does two things at once: it cuts the message into raw values,
and it stores each value in an element.  This module takes the two apart.

* `rawPieces` and `rawSegments` are the cuts.  They depend on the text and on
  the separators only, and they know nothing of elements.
* `recordPiece` is the storing, one piece at a time, and `assemble` is the list
  of elements that it builds.

`elementLoop_eq` and `segmentLoop_eq` put the two together again.  They hold for
all separators, also for those that collide with each other, because a detected
dialect may bring any separators along.
-/

namespace Libedi

/-- A value as it stands in the message, with the byte that ends it, `none` at
the end of the message. -/
structure RawPiece where
  raw : Bytes
  stop : Option UInt8
  deriving DecidableEq, Repr

namespace RawPiece

variable (p : EdiParser)

/-- The value that the parser stores for a piece. -/
def value (x : RawPiece) : EdiValue := .ofBytes (memcpyescape p false x.raw)

/-- A sub-element separator follows. -/
def endsAtSub (x : RawPiece) : Bool := x.stop.elim (0 == p.sepSub) p.isSub

/-- The next piece belongs to another element. -/
def endsElement (x : RawPiece) : Bool :=
  x.stop.elim false fun d => !p.isSeg d && p.opens d

/-- Another piece of the same segment may follow. -/
def Continues (x : RawPiece) : Prop :=
  ∃ d, x.stop = some d ∧ p.isSeg d = false ∧ (p.isSub d = true ∨ p.opens d = true)

variable {p}

/-- The next piece belongs to the same element only behind a sub-element
separator. -/
theorem Continues.endsAtSub {x : RawPiece} (h : x.Continues p)
    (hends : x.endsElement p = false) : x.endsAtSub p = true := by
  obtain ⟨d, hd, hseg, hsub | hopens⟩ := h
  · simpa [RawPiece.endsAtSub, hd] using hsub
  · simp [RawPiece.endsElement, hd, hseg, hopens] at hends

theorem continues_tail {x : RawPiece} {xs : List RawPiece}
    (h : ∀ y ∈ (x :: xs).dropLast, y.Continues p) :
    ∀ y ∈ xs.dropLast, y.Continues p := by
  cases xs with
  | nil => simp
  | cons z zs => exact fun y hy => h y (List.mem_cons_of_mem x hy)

end RawPiece

/-- The raw pieces of one segment, and the rest of the message, which starts
with the segment separator or is empty. -/
def rawPieces (p : EdiParser) (first : Bool) (m : Bytes) :
    List RawPiece × Bytes :=
  match m with
  | [] => ([], [])
  | c :: cs =>
    if p.isSeg c then ([], c :: cs)
    else
      match _h : scanValue p first false (c :: cs) with
      | (raw, []) => ([⟨raw, none⟩], [])
      | (raw, d :: ds) =>
        if p.isSeg d then ([⟨raw, some d⟩], d :: ds)
        else
          Prod.map (⟨raw, some d⟩ :: ·) id (rawPieces p (first && !p.opens d) ds)
termination_by m.length
decreasing_by exact scanValue_rest_lt _h

theorem rawPieces_last {p : EdiParser} {first : Bool} {c : UInt8}
    {cs raw : Bytes} (hseg : p.isSeg c = false)
    (hscan : scanValue p first false (c :: cs) = (raw, [])) :
    rawPieces p first (c :: cs) = ([⟨raw, none⟩], []) := by
  rw [rawPieces, if_neg (by simp [hseg])]
  split <;> simp_all

theorem rawPieces_stop {p : EdiParser} {first : Bool} {c d : UInt8}
    {cs raw ds : Bytes} (hseg : p.isSeg c = false)
    (hscan : scanValue p first false (c :: cs) = (raw, d :: ds))
    (hd : p.isSeg d = true) :
    rawPieces p first (c :: cs) = ([⟨raw, some d⟩], d :: ds) := by
  rw [rawPieces, if_neg (by simp [hseg])]
  split <;> simp_all

theorem rawPieces_next {p : EdiParser} {first : Bool} {c d : UInt8}
    {cs raw ds : Bytes} (hseg : p.isSeg c = false)
    (hscan : scanValue p first false (c :: cs) = (raw, d :: ds))
    (hd : p.isSeg d = false) :
    rawPieces p first (c :: cs)
      = Prod.map (⟨raw, some d⟩ :: ·) id
          (rawPieces p (first && !p.opens d) ds) := by
  rw [rawPieces, if_neg (by simp [hseg])]
  split <;> simp_all

theorem rawPieces_snd_length_le (p : EdiParser) (first : Bool) (m : Bytes) :
    (rawPieces p first m).2.length ≤ m.length := by
  fun_induction rawPieces p first m with
  | case1 => simp
  | case2 => simp
  | case3 => simp
  | case4 first c cs _ raw d ds h hseg => exact scanValue_rest_lt h
  | case5 first c cs _ raw d ds h hseg ih =>
    exact Nat.le_trans ih (Nat.le_of_lt (scanValue_rest_lt h))

/-- A segment of the message: where it starts, its pieces, and whether the
segment separator closes it. -/
structure RawSegment where
  offset : Nat
  pieces : List RawPiece
  closed : Bool
  deriving DecidableEq, Repr

/-- The segments of a message. -/
def rawSegments (p : EdiParser) (total : Nat) (m : Bytes) : List RawSegment :=
  match _h : m.dropWhile isNewline with
  | [] => []
  | c :: cs =>
    let offset := total - (c :: cs).length
    match _h' : rawPieces p true (c :: cs) with
    | (pieces, []) => [⟨offset, pieces, false⟩]
    | (pieces, _ :: rest) =>
      ⟨offset, pieces, true⟩ :: rawSegments p total rest
termination_by m.length
decreasing_by
  have hdrop := dropWhile_length_le isNewline m
  have hlen := rawPieces_snd_length_le p true (c :: cs)
  rw [_h] at hdrop
  rw [_h'] at hlen
  simp only [List.length_cons] at hdrop hlen ⊢
  omega

theorem rawSegments_nil {p : EdiParser} {total : Nat} {m : Bytes}
    (h : m.dropWhile isNewline = []) : rawSegments p total m = [] := by
  rw [rawSegments]
  split <;> simp_all

theorem rawSegments_open {p : EdiParser} {total : Nat} {m l : Bytes}
    {pieces : List RawPiece} (h : m.dropWhile isNewline = l) (hne : l ≠ [])
    (hpieces : rawPieces p true l = (pieces, [])) :
    rawSegments p total m = [⟨total - l.length, pieces, false⟩] := by
  rw [rawSegments]
  split
  · simp_all
  · split <;> simp_all

theorem rawSegments_closed {p : EdiParser} {total : Nat} {m l rest : Bytes}
    {pieces : List RawPiece} {d : UInt8} (h : m.dropWhile isNewline = l)
    (hne : l ≠ []) (hpieces : rawPieces p true l = (pieces, d :: rest)) :
    rawSegments p total m
      = ⟨total - l.length, pieces, true⟩ :: rawSegments p total rest := by
  rw [rawSegments]
  split
  · simp_all
  · split <;> simp_all

/-- The last segment is not closed by the segment separator. -/
def endsOpen (segs : List RawSegment) : Bool :=
  segs.getLast?.elim false fun s => !s.closed

/-! ## Storing the pieces -/

/-- One round of the element loop, behind the scan. -/
def recordPiece (p : EdiParser) (st : SegState) (x : RawPiece) : SegState :=
  { storeValue p st.openElement (x.value p) (x.stop.elim 0 charVal) with
    newel := x.endsElement p }

/-- The segment that the parser makes of a raw segment. -/
def segmentOf (p : EdiParser) (s : RawSegment) : EdiSegment :=
  let st := s.pieces.foldl (recordPiece p) SegState.start
  ⟨st.elements, st.tag, s.offset⟩

/-- The variables of the element loop point at an element, or are about to. -/
def SegState.Ready (st : SegState) : Prop :=
  st.newel = true ∨ st.el.isSome = true

namespace SegState

theorem ready_start : start.Ready := Or.inl rfl

theorem first_start : start.first = true := rfl

theorem openElement_of_newel {st : SegState} (h : st.newel = true) :
    st.openElement = ⟨st.elements, some .untyped, st.tag, false⟩ := by
  rw [openElement, if_pos h]

theorem openElement_of_not_newel {st : SegState} (h : st.newel = false) :
    st.openElement = st := by
  rw [openElement, if_neg (by simp [h])]

theorem newel_openElement (st : SegState) : st.openElement.newel = false := by
  unfold openElement
  cases h : st.newel <;> simp [h]

theorem Ready.el_openElement {st : SegState} (h : st.Ready) :
    st.openElement.el.isSome = true := by
  unfold openElement
  rcases h with h | h
  · simp [h]
  · cases st.newel <;> simp [h]

end SegState

@[simp] theorem storeValue_newel (p : EdiParser) (st : SegState) (v : EdiValue)
    (next : Int) : (storeValue p st v next).newel = st.newel := by
  unfold storeValue
  cases st.el <;> rfl

@[simp] theorem storeValue_before (p : EdiParser) (st : SegState)
    (v : EdiValue) (next : Int) :
    (storeValue p st v next).before = st.before := by
  unfold storeValue
  cases st.el <;> rfl

theorem storeValue_el (p : EdiParser) (st : SegState) (v : EdiValue)
    (next : Int) : (storeValue p st v next).el
      = st.el.map (·.store v (next == p.sepSub)) := by
  unfold storeValue
  cases h : st.el <;> simp [h]

/-- In front of the end of a segment the flag `newel` stays as
`openElement` has left it. -/
theorem storeValue_openElement_newel (p : EdiParser) (st : SegState)
    (v : EdiValue) (next : Int) :
    (⟨(storeValue p st.openElement v next).before,
        (storeValue p st.openElement v next).el,
        (storeValue p st.openElement v next).tag, false⟩ : SegState)
      = storeValue p st.openElement v next := by
  rw [← st.newel_openElement, ← storeValue_newel p st.openElement v next]

theorem recordPiece_el_isSome {st : SegState} (h : st.Ready) (p : EdiParser)
    (x : RawPiece) : (recordPiece p st x).el.isSome = true := by
  simp [recordPiece, storeValue_el, h.el_openElement]

theorem recordPiece_ready {st : SegState} (h : st.Ready) (p : EdiParser)
    (x : RawPiece) : (recordPiece p st x).Ready :=
  Or.inr (recordPiece_el_isSome h p x)

/-- The next value goes into the first element as long as no piece has ended
it. -/
theorem recordPiece_first {st : SegState} (h : st.Ready) (p : EdiParser)
    (x : RawPiece) :
    (recordPiece p st x).first = (st.first && !x.endsElement p) := by
  have hel := recordPiece_el_isSome h p x
  cases hx : x.endsElement p with
  | true =>
    have hnew : (recordPiece p st x).newel = true := hx
    simp only [SegState.first, SegState.openElement, hnew, SegState.elements]
    cases he : (recordPiece p st x).el with
    | none => simp [he] at hel
    | some el => simp
  | false =>
    have hnew : (recordPiece p st x).newel = false := hx
    simp only [SegState.first, SegState.openElement, hnew]
    simp [recordPiece, SegState.openElement]

theorem RawPiece.endsElement_next {p : EdiParser} {raw : Bytes} {d : UInt8}
    (hd : p.isSeg d = false) :
    (⟨raw, some d⟩ : RawPiece).endsElement p = p.opens d := by
  simp [RawPiece.endsElement, hd]

/-- A round of the element loop behind which the loop goes on. -/
theorem recordPiece_next (p : EdiParser) (st : SegState) (raw : Bytes)
    {d : UInt8} (hd : p.isSeg d = false) :
    recordPiece p st ⟨raw, some d⟩
      = { storeValue p st.openElement (.ofBytes (memcpyescape p false raw))
            (charVal d) with
          newel := p.opens d } := by
  rw [← RawPiece.endsElement_next hd]
  rfl

/-- The element loop cuts the segment into pieces and stores them one by
one. -/
theorem elementLoop_eq (p : EdiParser) {st : SegState} (h : st.Ready)
    (m : Bytes) :
    elementLoop p st m
      = ((rawPieces p st.first m).1.foldl (recordPiece p) st,
          (rawPieces p st.first m).2) := by
  fun_induction elementLoop p st m with
  | case1 => simp [rawPieces]
  | case2 st c cs hseg => simp [rawPieces, hseg]
  | case3 st c cs hseg raw hscan =>
    rw [rawPieces_last (eq_false_of_ne_true hseg) hscan]
    exact Prod.ext (storeValue_openElement_newel p st _ _).symm rfl
  | case4 st c cs hseg raw d ds hscan stored hd =>
    have hends : (⟨raw, some d⟩ : RawPiece).endsElement p = false := by
      simp [RawPiece.endsElement, hd]
    rw [rawPieces_stop (eq_false_of_ne_true hseg) hscan hd]
    refine Prod.ext ?_ rfl
    simp only [List.foldl_cons, List.foldl_nil, recordPiece, hends]
    exact (storeValue_openElement_newel p st _ _).symm
  | case5 st c cs hseg raw d ds hscan stored hd ih =>
    have hrec : recordPiece p st ⟨raw, some d⟩
        = { stored with newel := p.opens d } :=
      recordPiece_next p st raw (eq_false_of_ne_true hd)
    have hready := recordPiece_ready h p ⟨raw, some d⟩
    have hfirst := recordPiece_first h p ⟨raw, some d⟩
    rw [hrec] at hready hfirst
    rw [ih hready, hfirst, RawPiece.endsElement_next (eq_false_of_ne_true hd),
      rawPieces_next (eq_false_of_ne_true hseg) hscan (eq_false_of_ne_true hd)]
    simp [hrec]

/-- The segment loop makes a segment of each raw segment, and reports
`EDI_ERR_UNTERMINATED` if the last one is open. -/
theorem segmentLoop_eq (p : EdiParser) (total : Nat) (m : Bytes) :
    segmentLoop p total m
      = ((rawSegments p total m).map (segmentOf p),
          if endsOpen (rawSegments p total m) then .unterminated else .none) := by
  fun_induction rawSegments p total m with
  | case1 m h => simp [segmentLoop_nil h, endsOpen]
  | case2 m c cs h offset pieces hpieces =>
    have hloop := elementLoop_eq p SegState.ready_start (c :: cs)
    rw [SegState.first_start, hpieces] at hloop
    rw [segmentLoop_open h (by simp) hloop]
    rfl
  | case3 m c cs h offset pieces d rest hpieces ih =>
    have hloop := elementLoop_eq p SegState.ready_start (c :: cs)
    rw [SegState.first_start, hpieces] at hloop
    rw [segmentLoop_closed h (by simp) hloop, ih]
    cases hrest : rawSegments p total rest with
    | nil => rfl
    | cons s segs =>
      simp only [Prod.map, endsOpen, List.getLast?_cons_cons, List.map_cons,
        id]
      rfl

/-! ## The elements of a segment -/

/-- The elements that the pieces of a segment make.  `cur` is the element that
is being filled. -/
def assemble (p : EdiParser) (cur : Option EdiElement) :
    List RawPiece → List EdiElement
  | [] => cur.toList
  | x :: xs =>
    let el := (cur.getD .untyped).store (x.value p) (x.endsAtSub p)
    if x.endsElement p then el :: assemble p none xs else assemble p (some el) xs

theorem next_eq_sepSub (p : EdiParser) (x : RawPiece) :
    (x.stop.elim 0 charVal == p.sepSub) = x.endsAtSub p := by
  unfold RawPiece.endsAtSub EdiParser.isSub
  cases x.stop <;> rfl

theorem foldl_recordPiece_elements (p : EdiParser) (xs : List RawPiece)
    {st : SegState} (h : st.Ready) :
    (xs.foldl (recordPiece p) st).elements
      = if st.newel then st.elements ++ assemble p none xs
        else st.before ++ assemble p st.el xs := by
  induction xs generalizing st with
  | nil => simp [assemble, SegState.elements]
  | cons x xs ih =>
    rw [List.foldl_cons, ih (recordPiece_ready h p x)]
    have hel : (recordPiece p st x).el
        = st.openElement.el.map (·.store (x.value p) (x.endsAtSub p)) := by
      simp only [recordPiece, storeValue_el, next_eq_sepSub]
    have hbefore : (recordPiece p st x).before = st.openElement.before := by
      simp [recordPiece]
    have hnew : (recordPiece p st x).newel = x.endsElement p := rfl
    simp only [SegState.elements, hel, hbefore, hnew, assemble]
    rcases h with h | h
    · cases hx : x.endsElement p <;>
        simp [SegState.openElement, h, SegState.elements]
    · obtain ⟨el, he⟩ := Option.isSome_iff_exists.1 h
      cases hx : x.endsElement p <;> cases hn : st.newel <;>
        simp [SegState.openElement, hn, he, SegState.elements]

/-- The elements of a segment are put together from its pieces. -/
theorem segmentOf_elements (p : EdiParser) (s : RawSegment) :
    (segmentOf p s).elements = assemble p none s.pieces := by
  have h := foldl_recordPiece_elements p s.pieces SegState.ready_start
  simpa [segmentOf, SegState.start, SegState.elements] using h

/-- No value is lost or added when the elements are put together. -/
theorem assemble_values {p : EdiParser} {xs : List RawPiece}
    (h : ∀ x ∈ xs.dropLast, x.Continues p) (vs : List EdiValue) :
    (assemble p (if vs = [] then none else some (.composite vs)) xs).flatMap
        (·.values) = vs ++ xs.map (·.value p) := by
  induction xs generalizing vs with
  | nil =>
    by_cases hvs : vs = [] <;> simp [assemble, hvs, EdiElement.values]
  | cons x xs ih =>
    have hel : ((if vs = [] then none else some (.composite vs)).getD
        EdiElement.untyped |>.store (x.value p) (x.endsAtSub p)).values
          = vs ++ [x.value p] := by
      by_cases hvs : vs = [] <;>
        cases hx : x.endsAtSub p <;>
        simp [hvs, EdiElement.store, EdiElement.values]
    cases hends : x.endsElement p with
    | true =>
      have hih := ih (RawPiece.continues_tail h) []
      rw [if_pos rfl] at hih
      rw [assemble, if_pos hends, List.flatMap_cons, hel, hih]
      simp
    | false =>
      rw [assemble, if_neg (by simp [hends])]
      cases xs with
      | nil => simp [assemble, hel]
      | cons y ys =>
        have hsub := (h x (by simp)).endsAtSub hends
        have hstore : ((if vs = [] then none else some (.composite vs)).getD
            EdiElement.untyped).store (x.value p) (x.endsAtSub p)
              = .composite (vs ++ [x.value p]) := by
          by_cases hvs : vs = [] <;> simp [hvs, hsub, EdiElement.store]
        have hih := ih (RawPiece.continues_tail h) (vs ++ [x.value p])
        rw [if_neg (by simp)] at hih
        rw [hstore, hih]
        simp

/-! ## The tag of a segment -/

/-- The tag is not written any more: the next value goes into a later element,
or behind another value of a composite. -/
def SegState.TagSet (st : SegState) : Prop :=
  st.el.isSome = true ∧ (st.newel = false → st.before = [] →
    ∃ vs, vs ≠ [] ∧ st.el = some (.composite vs))

theorem recordPiece_tag {st : SegState} (h : st.TagSet) (p : EdiParser)
    (x : RawPiece) : (recordPiece p st x).tag = st.tag := by
  obtain ⟨hsome, hcomp⟩ := h
  obtain ⟨el, he⟩ := Option.isSome_iff_exists.1 hsome
  simp only [recordPiece]
  cases hn : st.newel with
  | true =>
    rw [SegState.openElement_of_newel hn]
    simp [storeValue, SegState.elements, he]
  | false =>
    rw [SegState.openElement_of_not_newel hn, storeValue]
    by_cases hb : st.before = []
    · obtain ⟨vs, hvs, hel⟩ := hcomp hn hb
      have hlen : vs.length ≠ 0 := fun h => hvs (List.eq_nil_of_length_eq_zero h)
      simp [hel, hb, EdiElement.store, EdiElement.values, hlen]
    · simp [he, hb]

/-- Behind a piece that another one may follow, the tag is not written any
more. -/
theorem recordPiece_tagSet {st : SegState} (h : st.Ready) {p : EdiParser}
    {x : RawPiece} (hx : x.Continues p) : (recordPiece p st x).TagSet := by
  refine ⟨recordPiece_el_isSome h p x, fun hn _ => ?_⟩
  have hsub := hx.endsAtSub hn
  obtain ⟨el, he⟩ := Option.isSome_iff_exists.1 h.el_openElement
  simp only [recordPiece, storeValue_el, next_eq_sepSub, hsub, he]
  cases el with
  | untyped => exact ⟨[x.value p], by simp, rfl⟩
  | simple v => exact ⟨[x.value p], by simp, rfl⟩
  | composite vs => exact ⟨vs ++ [x.value p], by simp, rfl⟩

theorem foldl_recordPiece_tag {p : EdiParser} {xs : List RawPiece}
    (hxs : ∀ x ∈ xs.dropLast, x.Continues p) {st : SegState} (h : st.TagSet) :
    (xs.foldl (recordPiece p) st).tag = st.tag := by
  induction xs generalizing st with
  | nil => rfl
  | cons x xs ih =>
    rw [List.foldl_cons]
    cases xs with
    | nil => exact recordPiece_tag h p x
    | cons y ys =>
      have hx : x.Continues p := hxs x (by simp)
      have hready : st.Ready := Or.inr h.1
      rw [ih (RawPiece.continues_tail hxs)
        (recordPiece_tagSet hready hx), recordPiece_tag h]

/-- The tag is the first value of the segment. -/
theorem segmentOf_tag {p : EdiParser} {s : RawSegment}
    (h : ∀ x ∈ s.pieces.dropLast, x.Continues p) :
    (segmentOf p s).tag = s.pieces.head?.map fun x => (x.value p).value := by
  obtain ⟨offset, xs, closed⟩ := s
  simp only [segmentOf]
  cases xs with
  | nil => rfl
  | cons x xs =>
    have htag : (recordPiece p SegState.start x).tag
        = some (x.value p).value := by
      simp only [recordPiece]
      rw [SegState.openElement_of_newel rfl]
      simp only [storeValue, EdiElement.store]
      split <;> rfl
    rw [List.foldl_cons]
    cases xs with
    | nil => exact htag
    | cons y ys =>
      have hx : x.Continues p := h x (by simp)
      rw [foldl_recordPiece_tag (RawPiece.continues_tail h)
        (recordPiece_tagSet SegState.ready_start hx)]
      exact htag

/-- Every piece but the last is followed by another one. -/
theorem rawPieces_continues (p : EdiParser) (first : Bool) (m : Bytes) :
    ∀ x ∈ (rawPieces p first m).1.dropLast, x.Continues p := by
  fun_induction rawPieces p first m with
  | case1 => simp
  | case2 => simp
  | case3 => simp
  | case4 => simp
  | case5 first c cs hc raw d ds h hseg ih =>
    have hstop := scanValue_stops h
    have hx : (⟨raw, some d⟩ : RawPiece).Continues p := by
      refine ⟨d, rfl, by simpa using hseg, ?_⟩
      simp only [EdiParser.stops, EdiParser.opens, hseg] at hstop ⊢
      grind
    intro x hmem
    cases hrest : (rawPieces p (first && !p.opens d) ds).1 with
    | nil => simp [hrest] at hmem
    | cons y ys =>
      rw [hrest] at ih
      simp only [Prod.map_fst, hrest, List.dropLast_cons_cons, List.mem_cons]
        at hmem
      rcases hmem with rfl | hmem
      · exact hx
      · exact ih x hmem

/-! ## Where the pieces come from -/

/-- The text of a piece: its raw value and the separator behind it, but for the
segment separator, which belongs to no piece. -/
def RawPiece.text (p : EdiParser) (x : RawPiece) : Bytes :=
  x.raw ++ (x.stop.filter fun d => !p.isSeg d).toList

/-- The pieces are cut out of the message, and nothing is left out. -/
theorem rawPieces_text (p : EdiParser) (first : Bool) (m : Bytes) :
    (rawPieces p first m).1.flatMap (·.text p) ++ (rawPieces p first m).2
      = m := by
  fun_induction rawPieces p first m with
  | case1 => rfl
  | case2 => rfl
  | case3 first c cs hc raw h =>
    have happ := scanValue_concat h
    simpa [RawPiece.text] using happ
  | case4 first c cs hc raw d ds h hd =>
    have happ := scanValue_concat h
    simpa [RawPiece.text, Option.filter_some, hd] using happ
  | case5 first c cs hc raw d ds h hd ih =>
    have happ := scanValue_concat h
    simp only [Prod.map_fst, Prod.map_snd, List.flatMap_cons, id,
      List.append_assoc, ih]
    simpa [RawPiece.text, Option.filter_some, hd] using happ

/-- Each segment is cut out of the message behind its newlines. -/
theorem rawSegments_origin (p : EdiParser) (total : Nat) (m : Bytes) :
    ∀ s ∈ rawSegments p total m, ∃ l, l ⊆ m ∧
      (∀ c ∈ l.head?, isNewline c = false) ∧
      s.pieces = (rawPieces p true l).1 := by
  have hskip : ∀ {m : Bytes} {c : UInt8} {cs : Bytes},
      m.dropWhile isNewline = c :: cs →
      c :: cs ⊆ m ∧ ∀ d ∈ (c :: cs).head?, isNewline d = false := by
    intro m c cs h
    constructor
    · rw [← h]
      exact List.dropWhile_subset _
    · intro d hd
      obtain rfl : c = d := by simpa using hd
      have hne : m.dropWhile isNewline ≠ [] := by simp [h]
      have hhead := List.head_dropWhile_not isNewline hne
      simpa [h] using hhead
  fun_induction rawSegments p total m with
  | case1 => simp
  | case2 m c cs h offset pieces hpieces =>
    obtain ⟨hsub, hhead⟩ := hskip h
    intro s hs
    obtain rfl := List.mem_singleton.1 hs
    exact ⟨c :: cs, hsub, hhead, by rw [hpieces]⟩
  | case3 m c cs h offset pieces d rest hpieces ih =>
    obtain ⟨hsub, hhead⟩ := hskip h
    intro s hs
    rcases List.mem_cons.1 hs with rfl | hs
    · exact ⟨c :: cs, hsub, hhead, by rw [hpieces]⟩
    · obtain ⟨l, hl, hnl, hps⟩ := ih s hs
      have htext := rawPieces_text p true (c :: cs)
      rw [hpieces] at htext
      refine ⟨l, fun x hx => hsub ?_, hnl, hps⟩
      rw [← htext]
      exact List.mem_append_right _ (List.mem_cons_of_mem d (hl hx))

theorem rawSegments_continues (p : EdiParser) (total : Nat) (m : Bytes) :
    ∀ s ∈ rawSegments p total m, ∀ x ∈ s.pieces.dropLast, x.Continues p := by
  intro s hs
  obtain ⟨l, -, -, hpieces⟩ := rawSegments_origin p total m s hs
  rw [hpieces]
  exact rawPieces_continues p true l

end Libedi
