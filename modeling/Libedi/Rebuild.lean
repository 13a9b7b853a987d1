import Libedi.RoundTrip

/-!
# Parsing, building and parsing again

A message of UN/EDIFACT is parsed, built without a header, and parsed once
more.  `rebuild_iff` says for which messages nothing gets lost on the way.

The condition is one on the raw pieces of the message, segment by segment.

* `RawSegment.endsVoid`: the last piece that the parser records is empty, so
  the builder ends the segment with a separator, behind which the parser
  records nothing the second time.
* `RawSegment.startsEscapedNewline`: an escape has saved a newline at the start
  of the segment, and the builder does not escape it again.
* `hasLone`: an element is a single component with a sub-element separator
  behind it.  It comes back as a simple element, with the same value.
-/

namespace Libedi

open BoundedOutput EscapedText

/-! ## Conditions on a message -/

/-- Nothing is left of the piece: it has no byte, or only an escape. -/
def RawPiece.isVoid (p : EdiParser) (x : RawPiece) : Bool :=
  match x.raw with
  | [] => true
  | [c] => p.isEscape c
  | _ => false

/-- The piece starts with a newline behind an escape. -/
def RawPiece.startsEscapedNewline (p : EdiParser) (x : RawPiece) : Bool :=
  match x.raw with
  | c :: d :: _ => p.isEscape c && isNewline d
  | _ => false

/-- The last recorded piece of the segment is void. -/
def RawSegment.endsVoid (p : EdiParser) (s : RawSegment) : Bool :=
  s.pieces.getLast?.elim false (·.isVoid p)

/-- The first value of the segment starts with an escaped newline. -/
def RawSegment.startsEscapedNewline (p : EdiParser) (s : RawSegment) : Bool :=
  s.pieces.head?.elim false (·.startsEscapedNewline p)

/-- Some element is one piece with a sub-element separator behind it.  `fresh`
says that the first piece starts an element. -/
def hasLone (p : EdiParser) (fresh : Bool) : List RawPiece → Bool
  | [] => false
  | x :: xs =>
    (fresh && x.endsAtSub p && (xs.isEmpty || x.endsElement p)) ||
      hasLone p (x.endsElement p) xs

/-! ## What the pieces say about the values -/

theorem RawPiece.value_isEmpty (p : EdiParser) (x : RawPiece) :
    (x.value p).value.isEmpty = x.isVoid p := by
  obtain ⟨raw, stop⟩ := x
  rcases raw with - | ⟨c, - | ⟨d, raw⟩⟩
  · rfl
  · cases hc : p.isEscape c <;>
      simp [RawPiece.value, RawPiece.isVoid, EdiValue.ofBytes, memcpyescape, hc]
  · cases hc : p.isEscape c <;>
      simp [RawPiece.value, RawPiece.isVoid, EdiValue.ofBytes, memcpyescape, hc]

theorem RawPiece.value_startsNewline {p : EdiParser} {x : RawPiece}
    (h : ∀ c ∈ x.raw.head?, isNewline c = false) :
    (x.value p).value.head?.elim false isNewline
      = x.startsEscapedNewline p := by
  obtain ⟨raw, stop⟩ := x
  rcases raw with - | ⟨c, - | ⟨d, raw⟩⟩
  · rfl
  · have hnl := h c rfl
    cases hc : p.isEscape c <;>
      simp [RawPiece.value, RawPiece.startsEscapedNewline, EdiValue.ofBytes,
        memcpyescape, hc, hnl]
  · have hnl := h c rfl
    cases hc : p.isEscape c <;>
      simp [RawPiece.value, RawPiece.startsEscapedNewline, EdiValue.ofBytes,
        memcpyescape, hc, hnl]

section Segment

variable {p : EdiParser} {s : RawSegment}

theorem segmentOf_values (h : ∀ x ∈ s.pieces.dropLast, x.Continues p) :
    segmentValues (segmentOf p s).elements = s.pieces.map (·.value p) := by
  rw [segmentOf_elements]
  exact assemble_values h []

theorem segmentOf_tag_values (h : ∀ x ∈ s.pieces.dropLast, x.Continues p) :
    (segmentOf p s).tag
      = (segmentValues (segmentOf p s).elements).head?.map (·.value) := by
  rw [segmentOf_tag h, segmentOf_values h, List.head?_map, Option.map_map]
  rfl

theorem endsEmpty_segmentOf (h : ∀ x ∈ s.pieces.dropLast, x.Continues p) :
    endsEmpty (segmentValues (segmentOf p s).elements) = s.endsVoid p := by
  rw [segmentOf_values h, endsEmpty, RawSegment.endsVoid, List.getLast?_map]
  cases s.pieces.getLast? with
  | none => rfl
  | some x => exact x.value_isEmpty p

theorem startsNewline_segmentOf (h : ∀ x ∈ s.pieces.dropLast, x.Continues p)
    (hnl : ∀ x ∈ s.pieces.head?, ∀ c ∈ x.raw.head?, isNewline c = false) :
    startsNewline (segmentValues (segmentOf p s).elements)
      = s.startsEscapedNewline p := by
  rw [segmentOf_values h, startsNewline, RawSegment.startsEscapedNewline,
    List.head?_map]
  cases hx : s.pieces.head? with
  | none => rfl
  | some x => exact RawPiece.value_startsNewline (hnl x hx)

/-- Behind a value that a sub-element separator follows, the element is not
lone any more as soon as another value comes. -/
theorem any_isLone_assemble {xs : List RawPiece}
    (h : ∀ x ∈ xs.dropLast, x.Continues p) {cur : Option EdiElement}
    (hcur : cur = none ∨
      ∃ v vs, cur = some (.composite (v :: vs)) ∧ xs ≠ []) :
    (assemble p cur xs).any (·.isLone) = hasLone p cur.isNone xs := by
  induction xs generalizing cur with
  | nil =>
    rcases hcur with rfl | ⟨v, vs, rfl, hne⟩
    · rfl
    · exact absurd rfl hne
  | cons x xs ih =>
    have htail := RawPiece.continues_tail h
    have hlone : ((cur.getD .untyped).store (x.value p) (x.endsAtSub p)).isLone
        = (cur.isNone && x.endsAtSub p) := by
      rcases hcur with rfl | ⟨v, vs, rfl, -⟩
      · cases hsub : x.endsAtSub p <;> simp [EdiElement.store, EdiElement.isLone]
      · cases vs <;> simp [EdiElement.store, EdiElement.isLone]
    rw [assemble, hasLone]
    cases hends : x.endsElement p with
    | true =>
      have hrest := ih htail (Or.inl rfl)
      simp only [if_true, List.any_cons, hlone, hrest, Option.isNone_none,
        Bool.or_true, Bool.and_true]
    | false =>
      rw [if_neg (by simp)]
      cases xs with
      | nil => simp [assemble, hlone, hasLone]
      | cons y ys =>
        have hsub := (h x (by simp)).endsAtSub hends
        have hstore : ∃ v vs, some ((cur.getD .untyped).store (x.value p)
            (x.endsAtSub p)) = some (.composite (v :: vs)) := by
          rcases hcur with rfl | ⟨v, vs, rfl, -⟩
          · exact ⟨x.value p, [], by simp [EdiElement.store, hsub]⟩
          · exact ⟨v, vs ++ [x.value p], by simp [EdiElement.store]⟩
        obtain ⟨v, vs, hstore⟩ := hstore
        have hrest := ih htail (Or.inr ⟨v, vs, hstore, by simp⟩)
        rw [hrest]
        simp

theorem any_isLone_segmentOf (h : ∀ x ∈ s.pieces.dropLast, x.Continues p) :
    (segmentOf p s).elements.any (·.isLone) = hasLone p true s.pieces := by
  rw [segmentOf_elements]
  exact any_isLone_assemble h (Or.inl rfl)

theorem assemble_values_ne_nil (xs : List RawPiece) {cur : Option EdiElement}
    (hcur : ∀ el ∈ cur, el.values ≠ []) :
    ∀ e ∈ assemble p cur xs, e.values ≠ [] := by
  have hstore : ∀ (el : EdiElement) (v : EdiValue) (sub : Bool),
      (el.store v sub).values ≠ [] := by
    intro el v sub
    cases el <;> cases sub <;> simp [EdiElement.store, EdiElement.values]
  induction xs generalizing cur with
  | nil =>
    intro e he
    exact hcur e (by simpa [assemble] using he)
  | cons x xs ih =>
    intro e he
    rw [assemble] at he
    split at he
    · rcases List.mem_cons.1 he with rfl | he
      · exact hstore _ _ _
      · exact ih (by simp) e he
    · refine ih ?_ e he
      intro el hel
      obtain rfl := Option.mem_some_iff.1 hel
      exact hstore _ _ _

end Segment

/-- What the parser makes of a message is made of strings. -/
theorem filled_segmentOf {p : EdiParser} {total : Nat} {m : Bytes}
    (hfree : (0 : UInt8) ∉ m) {s : RawSegment}
    (hs : s ∈ rawSegments p total m) :
    ∀ e ∈ (segmentOf p s).elements, e.Filled := by
  intro e he
  constructor
  · rw [segmentOf_elements] at he
    exact assemble_values_ne_nil s.pieces (by simp) e he
  · intro v hv
    have hmem : v ∈ segmentValues (segmentOf p s).elements :=
      List.mem_flatMap.2 ⟨e, he, hv⟩
    rw [segmentOf_values (rawSegments_continues p total m s hs)] at hmem
    obtain ⟨x, hx, rfl⟩ := List.mem_map.1 hmem
    refine ⟨fun hzero => hfree ?_, rfl⟩
    obtain ⟨l, hl, -, hpieces⟩ := rawSegments_origin p total m s hs
    have hraw : (0 : UInt8) ∈ x.raw := by
      rw [RawPiece.value, EdiValue.ofBytes_value, memcpyescape_eq_unescape]
        at hzero
      exact mem_of_mem_unescape hzero
    refine hl ?_
    rw [← rawPieces_text p true l, ← hpieces]
    refine List.mem_append_left _ (List.mem_flatMap.2 ⟨x, hx, ?_⟩)
    exact List.mem_append_left _ hraw

/-! ## What is read back of one segment -/

theorem startsNewline_eq_false_of_trimStart {vs : List EdiValue}
    (h : vs.modifyHead EdiValue.trimStart = vs) : startsNewline vs = false := by
  cases vs with
  | nil => rfl
  | cons v vs =>
    rw [List.modifyHead_cons, List.cons.injEq] at h
    have hdrop : v.value.dropWhile isNewline = v.value :=
      congrArg EdiValue.value h.1
    show v.value.head?.elim false isNewline = false
    cases hv : v.value with
    | nil => rfl
    | cons c cs =>
      by_contra hc
      have hpos : isNewline c = true := by simpa using hc
      rw [hv, List.dropWhile_cons_of_pos hpos] at hdrop
      have hlen := congrArg List.length hdrop
      have hle := dropWhile_length_le isNewline cs
      rw [List.length_cons] at hlen
      omega

theorem map_eq_self_iff {α : Type*} {f : α → α} {l : List α} :
    l.map f = l ↔ ∀ a ∈ l, f a = a := by
  have hid : l.map f = l.map id ↔ ∀ a ∈ l, f a = id a := List.map_inj_left
  rw [List.map_id] at hid
  exact hid

namespace Separators.Fits

variable {s : Separators} {params : EdiParams} (h : s.Fits params)
include h

/-- The values of a segment come back if the last one is not empty and the
first one does not start with a newline, and only then. -/
theorem same_values_iff {es : List EdiElement} (hes : ∀ e ∈ es, e.Filled) :
    (Grammar.elements s (elementsText params (trimStart es))).map (·.values)
        = es.map (·.values)
      ↔ endsEmpty (segmentValues es) = false ∧
        startsNewline (segmentValues es) = false := by
  constructor
  · intro hsame
    have hvalues := h.read_values (filled_trimStart hes)
    have hflat : segmentValues (Grammar.elements s
        (elementsText params (trimStart es))) = segmentValues es := by
      rw [segmentValues, segmentValues, List.flatMap_def, List.flatMap_def,
        hsame]
    rw [hflat, segmentValues_trimStart hes] at hvalues
    -- dropping a value would make the list shorter
    have hlast : endsEmpty ((segmentValues es).modifyHead EdiValue.trimStart)
        = false := by
      by_contra hne
      rw [if_pos (by simpa using hne)] at hvalues
      have hlen := congrArg List.length hvalues
      rw [List.length_dropLast, List.length_modifyHead] at hlen
      have hnil : segmentValues es = [] :=
        List.eq_nil_of_length_eq_zero (by omega)
      simp [hnil, endsEmpty] at hne
    rw [hlast, if_neg Bool.false_ne_true] at hvalues
    rw [← hvalues] at hlast
    exact ⟨hlast, startsNewline_eq_false_of_trimStart hvalues.symm⟩
  · rintro ⟨hlast, hfirst⟩
    rw [trimStart_eq_self hes hfirst, h.read_elements hes hlast, List.map_map]
    refine List.map_congr_left fun e _ => ?_
    exact EdiElement.values_ofValues e.values

/-- The elements come back with their kinds if, besides, none of them is a
composite of one value. -/
theorem same_elements_iff {es : List EdiElement} (hes : ∀ e ∈ es, e.Filled) :
    Grammar.elements s (elementsText params (trimStart es)) = es
      ↔ (endsEmpty (segmentValues es) = false ∧
          startsNewline (segmentValues es) = false) ∧
        es.any (·.isLone) = false := by
  have hread : endsEmpty (segmentValues es) = false ∧
      startsNewline (segmentValues es) = false →
      Grammar.elements s (elementsText params (trimStart es))
        = es.map fun e => EdiElement.ofValues e.values := by
    rintro ⟨hlast, hfirst⟩
    rw [trimStart_eq_self hes hfirst, h.read_elements hes hlast]
  have hlone : (es.map fun e => EdiElement.ofValues e.values) = es
      ↔ es.any (·.isLone) = false := by
    rw [map_eq_self_iff, List.any_eq_false]
    refine forall₂_congr fun e he => ?_
    rw [(hes e he).ofValues_values, Bool.not_eq_true]
  constructor
  · intro hsame
    have hvalues := (h.same_values_iff hes).1 (by rw [hsame])
    rw [hread hvalues] at hsame
    exact ⟨hvalues, hlone.1 hsame⟩
  · rintro ⟨hvalues, hany⟩
    rw [hread hvalues]
    exact hlone.2 hany

end Separators.Fits

/-! ## The whole message -/

/-- `text` is what the builder writes for an interchange with `params` `NULL`,
in every buffer that is larger than the text. -/
def BuiltAs (pun : List EdiValue → EdiValue) (i : EdiInterchange)
    (text : Bytes) : Prop :=
  ∀ (mem : Nat → UInt8) (buflen : UInt64), text.length < buflen.toNat →
    ∃ (buf : Buffer UInt8) (m : CString),
      ediInterchangeBuild pun i none mem buflen = some (buf, m.strlen) ∧
        m.get = buf.mem ∧ m.bytes = text

theorem builtAs_segmentsText (pun : List EdiValue → EdiValue)
    {i : EdiInterchange}
    (hfilled : ∀ x ∈ i.segments, ∀ e ∈ x.elements, e.Filled) :
    BuiltAs pun i (segmentsText ediDefaultParams i.segments) := by
  intro mem buflen hlen
  have hspeaks : edifactSeparators.Speaks
      ((none : Option EdiParams).getD ediDefaultParams) (ascii "UNB") :=
    edifactSeparators_speaks
  exact hspeaks.build pun hfilled mem hlen

/-- The same segments with the same values, element by element. -/
def SameValues (i j : EdiInterchange) : Prop :=
  j.segments.map (fun x => x.elements.map (·.values))
    = i.segments.map fun x => x.elements.map (·.values)

/-- The same segments with the same elements. -/
def SameElements (i j : EdiInterchange) : Prop :=
  j.segments.map (·.elements) = i.segments.map (·.elements)

/-- A message is written as it was read: no segment ends in a void piece or
starts with an escaped newline. -/
def KeepsValues (lib : EdiLib) (message : CString) : Prop :=
  ∀ s ∈ (messageSegments lib message).2,
    s.endsVoid (messageSegments lib message).1 = false ∧
      s.startsEscapedNewline (messageSegments lib message).1 = false

/-- No element of the message is a lone component. -/
def KeepsKinds (lib : EdiLib) (message : CString) : Prop :=
  ∀ s ∈ (messageSegments lib message).2,
    hasLone (messageSegments lib message).1 true s.pieces = false

theorem SameElements.sameValues {i j : EdiInterchange}
    (h : SameElements i j) : SameValues i j := by
  have hmap := congrArg (List.map (List.map EdiElement.values)) h
  rw [List.map_map, List.map_map] at hmap
  exact hmap

/-- Only the values count for the text. -/
theorem SameValues.segmentsText_eq {i j : EdiInterchange}
    (h : SameValues i j) (params : EdiParams) :
    segmentsText params j.segments = segmentsText params i.segments := by
  obtain ⟨ss⟩ := i
  obtain ⟨ss'⟩ := j
  simp only [SameValues] at h ⊢
  induction ss' generalizing ss with
  | nil =>
    rw [List.map_nil, eq_comm, List.map_eq_nil_iff] at h
    rw [h]
  | cons x' ss' ih =>
    cases ss with
    | nil => simp at h
    | cons x ss =>
      rw [List.map_cons, List.map_cons, List.cons.injEq] at h
      rw [segmentsText_cons, segmentsText_cons,
        elementsText_congr params h.1, ih ss h.2]

/-- The segments of a parsed message, from its raw segments. -/
theorem segments_of_parse {lib : EdiLib} {oparser : EdiParser}
    (hdetect : oparser.detect = 1) {message : CString} {i : EdiInterchange}
    (hparse : (ediParserParse lib oparser message).2 = some i) :
    ∃ p total m, (0 : UInt8) ∉ m ∧
      messageSegments lib message = (p, rawSegments p total m) ∧
      i.segments = (rawSegments p total m).map (segmentOf p) := by
  cases hfound : (ediDetect lib.detectparams message).found with
  | none =>
    rw [ediParserParse, if_pos hdetect, hfound] at hparse
    simp at hparse
  | some r =>
    obtain ⟨params, skip⟩ := r
    rw [ediParserParse_detected hdetect hfound] at hparse
    refine ⟨ediParserInit (some params), message.strlen,
      message.bytes.drop skip, ?_, ?_, ?_⟩
    · exact fun hmem => message.nulFree (List.drop_subset _ _ hmem)
    · rw [messageSegments, hfound]
    · rw [← Option.some.inj hparse, segmentLoop_eq]

theorem filled_of_parse {lib : EdiLib} {oparser : EdiParser}
    (hdetect : oparser.detect = 1) {message : CString} {i : EdiInterchange}
    (hparse : (ediParserParse lib oparser message).2 = some i) :
    ∀ x ∈ i.segments, ∀ e ∈ x.elements, e.Filled := by
  obtain ⟨p, total, m, hfree, -, hi⟩ := segments_of_parse hdetect hparse
  rw [hi, List.forall_mem_map]
  exact fun s hs => filled_segmentOf hfree hs

/-- A text starts with the tag of its first segment. -/
theorem tag_start_segmentsText {x : EdiSegment}
    (hfilled : ∀ e ∈ x.elements, e.Filled)
    (htag : (segmentValues x.elements).head?.map (·.value)
      = some (ascii "UNB")) (ss : List EdiSegment) :
    ascii "UNB" <+: segmentsText ediDefaultParams (x :: ss) := by
  cases hx : x.elements with
  | nil => simp [hx, segmentValues] at htag
  | cons e es =>
    obtain ⟨v, vs, hvs⟩ := List.exists_cons_of_ne_nil
      (hfilled e (by simp [hx])).values_ne_nil
    have hvalue : v.value = ascii "UNB" := by
      simpa [hx, segmentValues, hvs] using htag
    rw [← hvalue]
    refine prefix_segmentsText hvs ?_ hx ss
    rw [hvalue]
    exact edifactSeparators_speaks.plain

section Interchange

variable {p : EdiParser} {total : Nat} {m : Bytes} {i j : EdiInterchange}
  (hi : i.segments = (rawSegments p total m).map (segmentOf p))
  (hj : j.segments.map (·.elements) = i.segments.map fun x =>
    Grammar.elements edifactSeparators
      (elementsText ediDefaultParams (trimStart x.elements)))
  (hfilled : ∀ x ∈ i.segments, ∀ e ∈ x.elements, e.Filled)

include hi in
/-- The conditions on the values of a segment are conditions on its pieces. -/
theorem forall_segments_iff {P : RawSegment → Prop} {Q : EdiSegment → Prop}
    (h : ∀ s ∈ rawSegments p total m, Q (segmentOf p s) ↔ P s) :
    (∀ x ∈ i.segments, Q x) ↔ ∀ s ∈ rawSegments p total m, P s := by
  rw [hi, List.forall_mem_map]
  exact forall₂_congr h

theorem segment_values_iff (s : RawSegment) (hs : s ∈ rawSegments p total m) :
    (endsEmpty (segmentValues (segmentOf p s).elements) = false ∧
        startsNewline (segmentValues (segmentOf p s).elements) = false)
      ↔ s.endsVoid p = false ∧ s.startsEscapedNewline p = false := by
  have hcont := rawSegments_continues p total m s hs
  obtain ⟨l, -, hnl, hpieces⟩ := rawSegments_origin p total m s hs
  rw [endsEmpty_segmentOf hcont, startsNewline_segmentOf hcont]
  intro x hx c hc
  refine hnl c ?_
  -- the first piece starts where the segment does
  have htext := rawPieces_text p true l
  obtain ⟨xs, hxs⟩ : ∃ xs, s.pieces = x :: xs := List.head?_eq_some_iff.1 hx
  rw [← hpieces, hxs, List.flatMap_cons, RawPiece.text] at htext
  obtain ⟨raw, hraw⟩ : ∃ raw, x.raw = c :: raw := List.head?_eq_some_iff.1 hc
  rw [← htext, hraw]
  rfl

include hj hfilled in
theorem sameValues_iff : SameValues i j ↔ ∀ x ∈ i.segments,
    endsEmpty (segmentValues x.elements) = false ∧
      startsNewline (segmentValues x.elements) = false := by
  have hmap := congrArg (List.map (List.map EdiElement.values)) hj
  rw [List.map_map, List.map_map] at hmap
  have hvalues : SameValues i j ↔ i.segments.map (fun x =>
      (Grammar.elements edifactSeparators (elementsText ediDefaultParams
        (trimStart x.elements))).map (·.values))
      = i.segments.map fun x => x.elements.map (·.values) := by
    rw [SameValues]
    exact Eq.congr_left hmap
  rw [hvalues, List.map_inj_left]
  exact forall₂_congr fun x hx =>
    edifactSeparators_fits.same_values_iff (hfilled x hx)

include hj hfilled in
theorem sameElements_iff : SameElements i j ↔ ∀ x ∈ i.segments,
    (endsEmpty (segmentValues x.elements) = false ∧
      startsNewline (segmentValues x.elements) = false) ∧
      x.elements.any (·.isLone) = false := by
  rw [SameElements, hj, List.map_inj_left]
  exact forall₂_congr fun x hx =>
    edifactSeparators_fits.same_elements_iff (hfilled x hx)

end Interchange

/-- A message of UN/EDIFACT is rebuilt and read again without a loss exactly if
no segment of it ends in a void piece or starts with an escaped newline, and
the kinds of its elements are kept exactly if, besides, no element is a lone
component. -/
theorem rebuild_iff {lib : EdiLib} (hlib : lib.HasPresets)
    {oparser : EdiParser} (hdetect : oparser.detect = 1)
    (pun : List EdiValue → EdiValue) {message : CString} {i : EdiInterchange}
    (hparse : (ediParserParse lib oparser message).2 = some i)
    (htag : i.segments.head?.bind (·.tag) = some (ascii "UNB")) :
    ∃ text, BuiltAs pun i text ∧ ∀ m : CString, m.bytes = text →
      ∃ j, (ediParserParse lib oparser m).2 = some j ∧
        ((SameValues i j ∧ BuiltAs pun j text) ↔ KeepsValues lib message) ∧
        ((SameElements i j ∧ BuiltAs pun j text)
          ↔ KeepsValues lib message ∧ KeepsKinds lib message) := by
  obtain ⟨p, total, body, -, hmessage, hi⟩ :=
    segments_of_parse hdetect hparse
  have hfilled := filled_of_parse hdetect hparse
  refine ⟨_, builtAs_segmentsText pun hfilled, fun m hm => ?_⟩
  have hstart : ascii "UNB" <+: m.bytes := by
    rw [hm]
    cases hss : i.segments with
    | nil => simp [hss] at htag
    | cons x ss =>
      have hx : x ∈ i.segments := by simp [hss]
      refine tag_start_segmentsText (hfilled x hx) ?_ ss
      rw [hi] at hx
      obtain ⟨s, hs, rfl⟩ := List.mem_map.1 hx
      rw [← segmentOf_tag_values (rawSegments_continues p total body s hs)]
      simpa [hss] using htag
  obtain ⟨d, hd, -, hparser⟩ := edifactSeparators_speaks.detected m hstart
  obtain ⟨j, hparse', hj, -⟩ := edifactSeparators_fits.parse_segmentsText
    ediDefaultParams_newline hfilled hdetect
    ((ediDetect_preset hlib m).trans hd) hparser hm
  have hvalues : SameValues i j ↔ KeepsValues lib message := by
    rw [sameValues_iff hj hfilled, KeepsValues, hmessage,
      forall_segments_iff hi segment_values_iff]
  have hkinds : SameElements i j
      ↔ KeepsValues lib message ∧ KeepsKinds lib message := by
    rw [sameElements_iff hj hfilled, KeepsValues, KeepsKinds, hmessage,
      ← forall₂_and, ← forall_segments_iff hi]
    intro s hs
    rw [segment_values_iff s hs,
      any_isLone_segmentOf (rawSegments_continues p total body s hs)]
  have hbuilt (hsame : SameValues i j) : BuiltAs pun j
      (segmentsText ediDefaultParams i.segments) := by
    rw [← hsame.segmentsText_eq]
    exact builtAs_segmentsText pun
      (filled_of_parse hdetect (congrArg Prod.snd hparse'))
  refine ⟨j, by rw [hparse'], ?_, ?_⟩
  · rw [← hvalues]
    exact ⟨And.left, fun hsame => ⟨hsame, hbuilt hsame⟩⟩
  · rw [← hkinds]
    exact ⟨And.left, fun hsame => ⟨hsame, hbuilt hsame.sameValues⟩⟩

/-- Two separators in front of the end of a segment. -/
def emptyElementMessage : CString := .ofBytes (ascii "UNB++'") (by decide)

/-- The second element of `UNB++'` is recorded and written, but not read
again. -/
theorem rebuild_drops_element :
    ∃ i m j,
      (ediParserParse (ediInit EdiLib.start)
        (ediParserCreate EdiLib.start none).2 emptyElementMessage).2 = some i ∧
      i.segments.head?.bind (·.tag) = some (ascii "UNB") ∧
      BuiltAs (fun _ => .ofBytes []) i (CString.bytes m) ∧
      (ediParserParse (ediInit EdiLib.start)
        (ediParserCreate EdiLib.start none).2 m).2 = some j ∧
      ¬ SameValues i j ∧ BuiltAs (fun _ => .ofBytes []) j (ascii "UNB'") ∧
      m.bytes ≠ ascii "UNB'" := by
  have hread : (ediParserParse (ediInit EdiLib.start)
      (ediParserCreate EdiLib.start none).2 emptyElementMessage).2
      = some ⟨[⟨[.simple (.ofBytes (ascii "UNB")), .simple (.ofBytes [])],
        some (ascii "UNB"), 0⟩]⟩ := by
    decide +kernel
  have hagain : (ediParserParse (ediInit EdiLib.start)
      (ediParserCreate EdiLib.start none).2
      (.ofBytes (ascii "UNB+'") (by decide))).2
      = some ⟨[⟨[.simple (.ofBytes (ascii "UNB"))],
        some (ascii "UNB"), 0⟩]⟩ := by
    decide +kernel
  have hbuilt := builtAs_segmentsText (fun _ => .ofBytes [])
    (filled_of_parse rfl hread)
  have hbuiltAgain := builtAs_segmentsText (fun _ => .ofBytes [])
    (filled_of_parse rfl hagain)
  have htext : segmentsText ediDefaultParams
      [⟨[.simple (.ofBytes (ascii "UNB")), .simple (.ofBytes [])],
        some (ascii "UNB"), 0⟩] = ascii "UNB+'" := by
    decide +kernel
  have htextAgain : segmentsText ediDefaultParams
      [⟨[.simple (.ofBytes (ascii "UNB"))], some (ascii "UNB"), 0⟩]
      = ascii "UNB'" := by
    decide +kernel
  rw [htext] at hbuilt
  rw [htextAgain] at hbuiltAgain
  refine ⟨_, _, _, hread, ?_, hbuilt, hagain, ?_, hbuiltAgain, ?_⟩
  · simp only [List.head?_cons, Option.bind_some]
  · rw [SameValues]
    decide
  · decide +kernel

/-- A message with a value behind every separator. -/
def fullMessage : CString :=
  .ofBytes (ascii "UNB+a:b'UNT+?+'") (by decide)

theorem rebuild_iff_sample :
    ∃ i, (ediParserParse (ediInit EdiLib.start)
        (ediParserCreate EdiLib.start none).2 fullMessage).2 = some i ∧
      ∃ text, BuiltAs (fun _ => .ofBytes []) i text ∧ ∀ m : CString,
        m.bytes = text → ∃ j, (ediParserParse (ediInit EdiLib.start)
          (ediParserCreate EdiLib.start none).2 m).2 = some j ∧
        SameElements i j ∧ BuiltAs (fun _ => .ofBytes []) j text := by
  have hread : (ediParserParse (ediInit EdiLib.start)
      (ediParserCreate EdiLib.start none).2 fullMessage).2
      = some ⟨[⟨[.simple (.ofBytes (ascii "UNB")),
          .composite [.ofBytes (ascii "a"), .ofBytes (ascii "b")]],
          some (ascii "UNB"), 0⟩,
        ⟨[.simple (.ofBytes (ascii "UNT")), .simple (.ofBytes (ascii "+"))],
          some (ascii "UNT"), 8⟩]⟩ := by
    decide +kernel
  obtain ⟨text, hbuilt, hagain⟩ := rebuild_iff ediInit_hasPresets rfl
    (fun _ => .ofBytes []) hread rfl
  refine ⟨_, hread, text, hbuilt, fun m hm => ?_⟩
  obtain ⟨j, hj, -, hkinds⟩ := hagain m hm
  refine ⟨j, hj, hkinds.2 ⟨?_, ?_⟩⟩
  · rw [KeepsValues]
    decide +kernel
  · rw [KeepsKinds]
    decide +kernel

end Libedi
