import Mathlib.Data.List.Chain
import Libedi.RoundTrip

/-!
# Re-encoding a message of X12

A message of X12 declares its separators in its first segment, and the last
field of that segment is the sub-element separator itself.  The parser takes
this field for a composite that holds one empty value.  The builder writes the
composite as nothing, steps back over the separator in front of it, and writes
all of its own separators (`%_%E%s%S`).

`parse_build_x12` says that the two tricks cancel.  A parsed message that is
built with the preset of X12 is the message with its separators replaced, byte
by byte.  There is no escape in X12, so a field goes through unchanged.

* `elementsText_elements` is the text of a segment that does not end in a
  separator, `elementsText_elements_sub` is the text of one that ends in a
  sub-element separator.
* `segmentsText_segments` runs through the segments behind the first one.
-/

namespace Libedi

open BoundedOutput EscapedText

/-! ## The separators of a message -/

/-- A letter or a digit. -/
def isAlnum (c : UInt8) : Bool :=
  ('0'.toUInt8 ≤ c && c ≤ '9'.toUInt8) || ('A'.toUInt8 ≤ c && c ≤ 'Z'.toUInt8)
    || ('a'.toUInt8 ≤ c && c ≤ 'z'.toUInt8)

/-- Separators that an `ISA` segment may declare. -/
structure X12Separators where
  element : UInt8
  subelement : UInt8
  segment : UInt8
  distinct : [element, subelement, segment].Nodup
  bytes : ∀ c ∈ [element, subelement, segment],
    c ≠ 0 ∧ c.toNat < 128 ∧ isNewline c = false ∧ isAlnum c = false

namespace X12Separators

variable (x : X12Separators)

theorem element_bytes : x.element ≠ 0 ∧ x.element.toNat < 128 ∧
    isNewline x.element = false ∧ isAlnum x.element = false :=
  x.bytes _ (by simp)

theorem subelement_bytes : x.subelement ≠ 0 ∧ x.subelement.toNat < 128 ∧
    isNewline x.subelement = false ∧ isAlnum x.subelement = false :=
  x.bytes _ (by simp)

theorem segment_bytes : x.segment ≠ 0 ∧ x.segment.toNat < 128 ∧
    isNewline x.segment = false ∧ isAlnum x.segment = false :=
  x.bytes _ (by simp)

theorem element_ne_subelement : x.element ≠ x.subelement := by
  have h := x.distinct
  simp only [List.nodup_cons, List.mem_cons, List.not_mem_nil, not_or] at h
  exact h.1.1

theorem element_ne_segment : x.element ≠ x.segment := by
  have h := x.distinct
  simp only [List.nodup_cons, List.mem_cons, List.not_mem_nil, not_or] at h
  exact h.1.2.1

theorem subelement_ne_segment : x.subelement ≠ x.segment := by
  have h := x.distinct
  simp only [List.nodup_cons, List.mem_cons, List.not_mem_nil, not_or] at h
  exact h.2.1.1

/-- The tag separator is the element separator, and there is no escape. -/
def separators : Separators where
  seg := x.segment
  data := x.element
  tag := x.element
  sub := x.subelement
  escape := 0
  seg_pos := x.segment_bytes.1
  data_pos := x.element_bytes.1
  tag_pos := x.element_bytes.1
  sub_pos := x.subelement_bytes.1
  seg_lt := x.segment_bytes.2.1
  data_lt := x.element_bytes.2.1
  tag_lt := x.element_bytes.2.1
  sub_lt := x.subelement_bytes.2.1
  escape_lt := by decide
  seg_ne_sub := x.subelement_ne_segment.symm
  seg_ne_data := x.element_ne_segment.symm
  seg_ne_tag := x.element_ne_segment.symm
  sub_ne_data := x.element_ne_subelement.symm
  sub_ne_tag := x.element_ne_subelement.symm
  escape_ne_seg := x.segment_bytes.1.symm
  escape_ne_sub := x.subelement_bytes.1.symm
  escape_ne_data := x.element_bytes.1.symm
  escape_ne_tag := x.element_bytes.1.symm

/-- No byte is an escape. -/
theorem isEscape (c : UInt8) : x.separators.isEscape c = false := rfl

/-- A byte of a message in other separators. -/
def recode (params : EdiParams) (c : UInt8) : UInt8 :=
  if c == x.element then params.elementSeparator
  else if c == x.subelement then params.subelementSeparator
  else if c == x.segment then params.segmentSeparator
  else c

@[simp] theorem recode_element (params : EdiParams) :
    x.recode params x.element = params.elementSeparator := by
  simp [recode]

@[simp] theorem recode_subelement (params : EdiParams) :
    x.recode params x.subelement = params.subelementSeparator := by
  simp [recode, x.element_ne_subelement.symm]

@[simp] theorem recode_segment (params : EdiParams) :
    x.recode params x.segment = params.segmentSeparator := by
  simp [recode, x.element_ne_segment.symm, x.subelement_ne_segment.symm]

end X12Separators

/-- A message of X12 in its own separators.  The segments are not empty, do not
start with a newline, and behind the first one they do not end in an element
separator or in a sub-element separator. -/
structure X12Message (x : X12Separators) (m : CString) : Prop where
  start : ascii "ISA" <+: m.bytes
  tag : m.bytes[3]? = some x.element
  element : m.bytes[6]? = some x.element
  last : m.bytes[103]? = some x.element
  sub : m.bytes[104]? = some x.subelement
  seg : m.bytes[105]? = some x.segment
  header : x.segment ∉ m.bytes.take 105
  closed : m.bytes.getLast? = some x.segment
  starts : m.bytes.IsChain fun a b =>
    a = x.segment → b ≠ x.segment ∧ isNewline b = false
  ends : (m.bytes.drop 106).IsChain fun a b =>
    b = x.segment → a ≠ x.element ∧ a ≠ x.subelement

/-! ## Parameters without an escape -/

/-- The builder escapes nothing, and the tag separator is the element
separator. -/
structure EdiParams.Plain (params : EdiParams) : Prop where
  escape : params.escape = 0
  tag : params.tagSeparator = params.elementSeparator

theorem ediX12Params_plain : ediX12Params.Plain := ⟨rfl, rfl⟩

namespace EdiParams.Plain

variable {params : EdiParams} (h : params.Plain)
include h

theorem escapeBytes_eq (v : Bytes) : escapeBytes params v = v := by
  refine escape_eq_self fun c _ => ?_
  unfold isSpecial
  rw [h.escape]
  exact Bool.and_false _

theorem elementText_eq (e : EdiElement) : elementText params e
    = [params.subelementSeparator].intercalate (e.values.map (·.value)) := by
  unfold elementText
  congr 1
  exact List.map_congr_left fun v _ => h.escapeBytes_eq v.value

end EdiParams.Plain

/-! ## The text of a segment -/

section Segment

variable (x : X12Separators) {params : EdiParams} (h : params.Plain)

/-- The elements of a segment are cut at the element separator, also the
first one. -/
theorem elementTexts_eq_split (raw : Bytes) :
    Grammar.elementTexts x.separators raw
      = split x.separators.isEscape (· == x.element) false raw := by
  unfold Grammar.elementTexts
  rcases hscan : scan x.separators.isEscape (· == x.separators.tag) false raw
    with ⟨e, - | ⟨d, es⟩⟩
  · obtain rfl := scan_eq_end hscan
    exact (split_of_scan_snd_eq_nil (congrArg Prod.snd hscan)).symm
  · obtain ⟨hunb, hstop, hesc, happ⟩ := scan_eq_stop hscan
    rw [← happ]
    exact (split_append_sep hunb hstop hesc es).symm

include h

/-- The text of an element is that of its components, whether it is a composite
or not. -/
theorem elementText_values {e : EdiElement} {cs : List Bytes}
    (he : e.values = cs.map (Grammar.value x.separators)) :
    elementText params e = [params.subelementSeparator].intercalate cs := by
  rw [h.elementText_eq, he, List.map_map]
  congr 1
  have hid : ∀ c ∈ cs, ((·.value) ∘ Grammar.value x.separators) c = id c :=
    fun c _ => unescape_eq_self x.isEscape c
  rw [List.map_congr_left hid, List.map_id]

theorem elementText_element (cs : List Bytes) :
    elementText params (Grammar.element x.separators cs)
      = [params.subelementSeparator].intercalate cs := by
  refine elementText_values x h ?_
  rcases cs with - | ⟨c, - | ⟨c', cs⟩⟩ <;> rfl

omit h in
/-- All the components of a text, joined again. -/
theorem intercalate_components {raw : Bytes} (hraw : x.segment ∉ raw) :
    [params.elementSeparator].intercalate
      ((Grammar.elementTexts x.separators raw).map fun e =>
        [params.subelementSeparator].intercalate
          (Grammar.components x.separators e))
      = raw.map (x.recode params) := by
  have hinner : ∀ e, [params.subelementSeparator].intercalate
      (Grammar.components x.separators e)
      = e.map fun b => if b == x.subelement then params.subelementSeparator
        else b := by
    intro e
    have hjoin := intercalate_map_split x.isEscape x.subelement
      params.subelementSeparator id e
    rw [List.map_id_fun, List.map_id] at hjoin
    exact hjoin
  rw [List.map_congr_left fun e _ => hinner e, elementTexts_eq_split,
    intercalate_map_split x.isEscape]
  refine List.map_congr_left fun b hb => ?_
  have hseg : (b == x.segment) = false := by
    rw [beq_eq_false_iff_ne]
    rintro rfl
    exact hraw hb
  simp only [X12Separators.recode, hseg, Bool.false_eq_true, if_false]

/-- A segment that does not end in a separator is written with all of its
bytes. -/
theorem elementsText_elements {raw : Bytes} {b : UInt8}
    (hraw : x.segment ∉ raw ++ [b]) (hb : b ≠ x.element ∧ b ≠ x.subelement) :
    elementsText params (Grammar.elements x.separators (raw ++ [b]))
      = (raw ++ [b]).map (x.recode params) := by
  obtain ⟨es, e, -, hes⟩ :=
    exists_split_append x.isEscape (· == x.element) raw
  obtain ⟨cs, c, -, hcs⟩ :=
    exists_split_append x.isEscape (· == x.subelement) e
  have htexts : Grammar.elementTexts x.separators (raw ++ [b])
      = es ++ [e ++ [b]] := by
    rw [elementTexts_eq_split, hes]
    simp [split, x.isEscape, hb.1]
  have hlast : Grammar.components x.separators (e ++ [b])
      = cs ++ [c ++ [b]] := by
    refine (hcs [b]).trans ?_
    simp [split, x.isEscape, hb.2]
  have hread : Grammar.elements x.separators (raw ++ [b])
      = (Grammar.elementTexts x.separators (raw ++ [b])).map fun e =>
        Grammar.element x.separators (Grammar.components x.separators e) := by
    rw [Grammar.elements, htexts, Grammar.readElements, List.map_append,
      List.map_singleton, hlast, List.dropLast_concat, List.getLast?_concat,
      Option.elim_some, Grammar.lastElement_append (by simp), List.map_append,
      List.map_singleton, hlast, List.map_map]
    rfl
  rw [hread, elementsText_eq_intercalate h.tag, List.map_map,
    ← intercalate_components x hraw]
  congr 1
  exact List.map_congr_left fun e _ => elementText_element x h _

/-- A sub-element separator at the end of a segment is not written. -/
theorem elementsText_elements_sub {raw : Bytes} (hraw : x.segment ∉ raw) :
    elementsText params (Grammar.elements x.separators (raw ++ [x.subelement]))
      = raw.map (x.recode params) := by
  obtain ⟨es, e, hraw', hes⟩ :=
    exists_split_append x.isEscape (· == x.element) raw
  obtain ⟨cs, c, he, hcs⟩ :=
    exists_split_append x.isEscape (· == x.subelement) e
  have htexts : Grammar.elementTexts x.separators (raw ++ [x.subelement])
      = es ++ [e ++ [x.subelement]] := by
    rw [elementTexts_eq_split, hes]
    simp [split, x.isEscape, x.element_ne_subelement.symm]
  have hcomponents : Grammar.components x.separators e = cs ++ [c] := he
  have hlast : Grammar.components x.separators (e ++ [x.subelement])
      = cs ++ [c] ++ [[]] := by
    refine (hcs [x.subelement]).trans ?_
    simp [split, x.isEscape]
  have hread : Grammar.elements x.separators (raw ++ [x.subelement])
      = es.map (fun e => Grammar.element x.separators
          (Grammar.components x.separators e))
        ++ [.composite ((cs ++ [c]).map (Grammar.value x.separators))] := by
    rw [Grammar.elements, htexts, Grammar.readElements, List.map_append,
      List.map_singleton, hlast, List.dropLast_concat, List.getLast?_concat,
      Option.elim_some, Grammar.lastElement_append_nil, Grammar.openComposite,
      if_neg (by simp), List.map_map]
    rfl
  have htext : elementText params (.composite
      ((cs ++ [c]).map (Grammar.value x.separators)))
      = [params.subelementSeparator].intercalate
        (Grammar.components x.separators e) := by
    rw [hcomponents]
    exact elementText_values x h rfl
  rw [hread, elementsText_eq_intercalate h.tag, List.map_append,
    List.map_singleton, htext, List.map_map, ← intercalate_components x hraw,
    elementTexts_eq_split, hraw', List.map_append, List.map_singleton]
  congr 2
  exact List.map_congr_left fun e _ => elementText_element x h _

end Segment

/-! ## The segments -/

section Segments

variable (x : X12Separators)

/-- The first segment of a text ends at the first segment separator. -/
theorem segmentText_append {l : Bytes} (hl : x.segment ∉ l) (rest : Bytes) :
    Grammar.segmentText x.separators (l ++ x.segment :: rest)
      = (l, x.segment :: rest) := by
  have hunb : Unbroken x.separators.isEscape (· == x.segment) false l := by
    refine unbroken_of_forall x.isEscape fun c hc => ?_
    rw [beq_eq_false_iff_ne]
    rintro rfl
    exact hl hc
  exact scan_append_stop hunb (beq_self_eq_true _) (x.isEscape _) rest

theorem segments_append {total : Nat} {l : Bytes} (hl : x.segment ∉ l)
    (hne : l ≠ []) (hnl : ∀ c ∈ l.head?, isNewline c = false) (rest : Bytes) :
    Grammar.segments x.separators total (l ++ x.segment :: rest)
      = Grammar.segment x.separators
          (total - (l ++ x.segment :: rest).length) l
        :: Grammar.segments x.separators total rest := by
  have hdrop : (l ++ x.segment :: rest).dropWhile isNewline
      = l ++ x.segment :: rest := by
    obtain ⟨c, cs, rfl⟩ := List.exists_cons_of_ne_nil hne
    have hc : isNewline c = false := hnl c rfl
    rw [List.cons_append, List.dropWhile_cons_of_neg (by simp [hc])]
  exact Grammar.segments_closed x.separators hdrop (by simp)
    (segmentText_append x hl rest)

/-- The text behind the first segment: what `X12Message` says about it, and
about the byte in front of it. -/
structure X12Tail (w : Bytes) : Prop where
  closed : ∀ c ∈ w.getLast?, c = x.segment
  starts : (x.segment :: w).IsChain fun a b =>
    a = x.segment → b ≠ x.segment ∧ isNewline b = false
  ends : w.IsChain fun a b =>
    b = x.segment → a ≠ x.element ∧ a ≠ x.subelement

variable {x}

/-- The tail is empty, or one more segment and a tail. -/
theorem X12Tail.cases {w : Bytes} (h : X12Tail x w) :
    w = [] ∨ ∃ l b rest, w = l ++ [b] ++ x.segment :: rest ∧
      x.segment ∉ l ++ [b] ∧ b ≠ x.element ∧ b ≠ x.subelement ∧
      (∀ c ∈ (l ++ [b]).head?, isNewline c = false) ∧ X12Tail x rest := by
  by_cases hw : w = []
  · exact Or.inl hw
  refine Or.inr ?_
  have hmem : x.segment ∈ w := by
    rw [← h.closed _ (List.getLast?_eq_some_getLast hw)]
    exact List.getLast_mem hw
  obtain ⟨l, rest, rfl, hl⟩ := List.eq_append_cons_of_mem hmem
  have hhead := (List.isChain_cons.1 h.starts).1
  have hne : l ≠ [] := by
    rintro rfl
    exact (hhead x.segment (by simp) rfl).1 rfl
  have hends := List.isChain_append.1 h.ends
  have hstarts := List.isChain_append.1 (List.isChain_cons.1 h.starts).2
  obtain ⟨l, b, rfl⟩ := (List.eq_nil_or_concat' l).resolve_left hne
  have hb := hends.2.2 b (by simp) x.segment (by simp) rfl
  refine ⟨l, b, rest, rfl, hl, hb.1, hb.2, ?_, ?_, hstarts.2.1, ?_⟩
  · intro c hc
    refine (hhead c ?_ rfl).2
    rw [List.head?_append_of_ne_nil _ hne]
    exact hc
  · intro c hc
    refine h.closed c ?_
    cases rest with
    | nil => simp at hc
    | cons d ds => simpa using hc
  · exact (List.isChain_cons.1 hends.2.1).2

/-- Behind the first segment the builder writes the message in its own
separators. -/
theorem segmentsText_segments {params : EdiParams} (h : params.Plain)
    (total : Nat) {w : Bytes} (hw : X12Tail x w) :
    segmentsText params (Grammar.segments x.separators total w)
      = w.map (x.recode params) := by
  induction hlen : w.length using Nat.strongRecOn generalizing w with
  | _ n ih =>
    rcases hw.cases with rfl | ⟨l, b, rest, rfl, hseg, hne, hne', hnl, hrest⟩
    · rw [Grammar.segments_nil _ rfl]
      rfl
    · have hrestText := ih rest.length (by simp at hlen; omega) hrest rfl
      rw [segments_append x hseg (by simp) hnl, segmentsText_cons, hrestText]
      have htext : elementsText params (Grammar.elements x.separators (l ++ [b]))
          = (l ++ [b]).map (x.recode params) :=
        elementsText_elements x h hseg ⟨hne, hne'⟩
      show elementsText params (Grammar.elements x.separators (l ++ [b]))
        ++ params.segmentSeparator :: rest.map (x.recode params) = _
      rw [htext, ← x.recode_segment params, ← List.map_cons, ← List.map_append]

end Segments

/-! ## The header segment -/

theorem drop_of_getElem? {l : Bytes} {n : Nat} {c : UInt8}
    (h : l[n]? = some c) : l.drop n = c :: l.drop (n + 1) := by
  obtain ⟨hn, rfl⟩ := List.getElem?_eq_some_iff.1 h
  exact List.drop_eq_getElem_cons hn

/-- The first segment: its tag, the fields, and the sub-element separator as
the last field. -/
def X12Separators.header (x : X12Separators) (fields : Bytes) : Bytes :=
  (ascii "ISA" ++ x.element :: fields ++ [x.element]) ++ [x.subelement]

/-- A message is its header segment and a tail. -/
theorem X12Message.exists_fields {x : X12Separators} {m : CString}
    (h : X12Message x m) : ∃ fields rest,
      m.bytes = x.header fields ++ x.segment :: rest ∧
      x.segment ∉ x.header fields ∧ X12Tail x rest := by
  have hisa : m.bytes.take 3 = ascii "ISA" :=
    (List.prefix_iff_eq_take.1 h.start).symm
  have hdrop3 : m.bytes.drop 3 = x.element :: m.bytes.drop 4 :=
    drop_of_getElem? h.tag
  have hdrop103 : m.bytes.drop 103 = x.element :: x.subelement :: x.segment ::
      m.bytes.drop 106 := by
    rw [drop_of_getElem? h.last, drop_of_getElem? h.sub, drop_of_getElem? h.seg]
  have hfields : m.bytes.drop 4 = (m.bytes.drop 4).take 99 ++
      m.bytes.drop 103 := by
    have hsplit := List.take_append_drop 99 (m.bytes.drop 4)
    rw [List.drop_drop] at hsplit
    exact hsplit.symm
  have hbytes : m.bytes = x.header ((m.bytes.drop 4).take 99) ++
      x.segment :: m.bytes.drop 106 := by
    calc m.bytes = m.bytes.take 3 ++ m.bytes.drop 3 :=
          (List.take_append_drop 3 _).symm
      _ = ascii "ISA" ++ x.element :: ((m.bytes.drop 4).take 99 ++
            x.element :: x.subelement :: x.segment :: m.bytes.drop 106) := by
          rw [hisa, hdrop3, ← hdrop103, ← hfields]
      _ = _ := by simp [X12Separators.header]
  have hlen : (x.header ((m.bytes.drop 4).take 99)).length = 105 := by
    have hseg := (List.getElem?_eq_some_iff.1 h.seg).1
    have hthree : (ascii "ISA").length = 3 := by decide
    simp only [X12Separators.header, List.length_append, List.length_cons,
      List.length_take, List.length_drop, List.length_nil, hthree]
    omega
  refine ⟨(m.bytes.drop 4).take 99, m.bytes.drop 106, hbytes, ?_, ?_, ?_, ?_⟩
  · rw [← List.take_left' hlen, ← hbytes]
    exact h.header
  · intro c hc
    have hlast := h.closed
    rw [hbytes, List.getLast?_append] at hlast
    rw [List.getLast?_cons, hc] at hlast
    simpa using hlast
  · have hstarts := h.starts
    rw [hbytes] at hstarts
    exact (List.isChain_append.1 hstarts).2.1
  · exact h.ends

theorem ediX12Params_trailerOk : TrailerOk ediX12Params := by
  intro trailer htrailer
  obtain rfl := Option.mem_some_iff.1 htrailer
  have hbytes : ascii "%_%E%s%S" = [37, 95, 37, 69, 37, 115, 37, 83] := by
    decide +kernel
  rw [hbytes]
  decide +kernel

/-- Every separator of the preset is a byte of a string. -/
theorem recode_ne_zero (x : X12Separators) {c : UInt8} (hc : c ≠ 0) :
    x.recode ediX12Params c ≠ 0 := by
  unfold X12Separators.recode
  split
  · decide
  split
  · decide
  split
  · decide
  · exact hc

theorem formatOps_x12 : formatOps ediX12Params (ascii "%_%E%s%S")
    = [.back, .put ediX12Params.elementSeparator,
      .put ediX12Params.subelementSeparator,
      .put ediX12Params.segmentSeparator] := by
  simp +decide [formatOps, directive, ascii]

/-- What the builder writes for an `ISA` segment, of which the separator in
front of the last field is taken back. -/
theorem interchangeOps_x12 (pun : List EdiValue → EdiValue)
    {i : EdiInterchange} {y : EdiSegment} {ss : List EdiSegment}
    (hi : i.segments = y :: ss) {es : List EdiElement}
    (hy : y.elements = .simple (.ofBytes (ascii "ISA")) :: es) :
    interchangeOps pun ediX12Params i
      = puts (elementsText ediX12Params y.elements) ++
        (formatOps ediX12Params (ascii "%_%E%s%S") ++
          puts (segmentsText ediX12Params ss)) := by
  have hheader : headerOf ediX12Params
      = some (ascii "ISA", ascii "%_%E%s%S") := rfl
  have hflag : isHeader (ascii "ISA") (.ofBytes (ascii "ISA")) = true := by
    decide
  have hfirst : elementOps pun ediX12Params
      (some (ascii "ISA", ascii "%_%E%s%S"))
      (.simple (.ofBytes (ascii "ISA")))
      = [] ++ puts (elementText ediX12Params
          (.simple (.ofBytes (ascii "ISA")))) := by
    rw [elementOps, valueOps, headerOps]
    simp only [hflag, if_true]
    simp [elementText, EdiElement.values]
  have hseg : segmentIsHeader pun (some (ascii "ISA", ascii "%_%E%s%S")) y
      = true := by
    rw [segmentIsHeader, hy]
    exact hflag
  rw [interchangeOps, hheader, hi, segmentsOps, segmentsOps_none, hseg, hy,
    elementsOps_cons pun ediX12Params _ _ es hfirst, trailerOps, if_pos rfl]
  rfl

theorem CString.get_of_getElem? {m : CString} {k : Nat} {c : UInt8}
    (h : m.bytes[k]? = some c) : m.get k = c := by
  have hlt : k < m.strlen := (List.getElem?_eq_some_iff.1 h).1
  rw [CString.get_of_lt hlt, List.getD_eq_getElem?_getD, h, Option.getD_some]

/-- The `ISA` detector reads the separators of the message. -/
theorem X12Message.detected {x : X12Separators} {m : CString}
    (h : X12Message x m) :
    presetDetection m = some (⟨ediVersion, x.segment, x.element, x.subelement,
      x.element, 0, none, none, none, none⟩, 0) := by
  rw [presetDetection_isa h.start, ← CString.get_of_getElem? h.seg,
    ← CString.get_of_getElem? h.element, ← CString.get_of_getElem? h.sub]
  have htag : m.get 3 = m.get 6 := by
    rw [CString.get_of_getElem? h.tag, CString.get_of_getElem? h.element]
  unfold detectedParams detectedByte isaDetector
  simp [htag, ediX12Params]

/-- The first element of the header segment is its tag. -/
theorem elements_isa (x : X12Separators) (raw : Bytes) : ∃ es,
    Grammar.elements x.separators (ascii "ISA" ++ x.element :: raw)
      = .simple (.ofBytes (ascii "ISA")) :: es := by
  have halnum : ∀ c ∈ ascii "ISA", isAlnum c = true :=
    forall_mem_of_all (by decide)
  have hother {d : UInt8} (hd : isAlnum d = false) :
      Unbroken x.separators.isEscape (· == d) false (ascii "ISA") := by
    refine unbroken_of_forall x.isEscape fun c hc => ?_
    rw [beq_eq_false_iff_ne]
    rintro rfl
    simp [halnum c hc] at hd
  have htexts : Grammar.elementTexts x.separators
      (ascii "ISA" ++ x.element :: raw)
      = ascii "ISA" :: split x.separators.isEscape (· == x.element) false raw := by
    rw [elementTexts_eq_split]
    exact split_append_sep (hother x.element_bytes.2.2.2)
      (beq_self_eq_true _) (x.isEscape _) raw
  have htag : Grammar.components x.separators (ascii "ISA") = [ascii "ISA"] :=
    split_of_scan_snd_eq_nil
      (congrArg Prod.snd (hother x.subelement_bytes.2.2.2).scan_eq)
  rw [Grammar.elements, htexts, List.map_cons, htag,
    Grammar.readElements_cons (by simp [split_ne_nil]), Grammar.element,
    Grammar.value, unescape_eq_self x.isEscape]
  exact ⟨_, rfl⟩

/-- The message is read as the header segment and the segments behind it. -/
theorem segmentLoop_header (x : X12Separators) {fields : Bytes}
    (hseg : x.segment ∉ x.header fields) (total : Nat) (rest : Bytes) :
    ∃ offset, (segmentLoop x.separators.parser total
        (x.header fields ++ x.segment :: rest)).1
      = Grammar.segment x.separators offset (x.header fields)
        :: Grammar.segments x.separators total rest := by
  have hnl : ∀ c ∈ (x.header fields).head?, isNewline c = false := by
    have hisa : (ascii "ISA").head? = some 73 := by decide
    simp [X12Separators.header, hisa, isNewline]
  rw [segmentLoop_eq, map_segmentOf_rawSegments,
    segments_append x hseg (by simp [X12Separators.header]) hnl]
  exact ⟨_, rfl⟩

/-- The last field is read as an element that is written as nothing. -/
theorem elementsText_header (x : X12Separators) {fields : Bytes}
    (hseg : x.segment ∉ x.header fields) :
    elementsText ediX12Params (Grammar.elements x.separators (x.header fields))
      = (ascii "ISA" ++ x.element :: fields).map (x.recode ediX12Params) ++
        [ediX12Params.elementSeparator] := by
  have hfree : x.segment ∉ ascii "ISA" ++ x.element :: fields ++ [x.element] :=
    fun hmem => hseg (List.mem_append_left _ hmem)
  rw [X12Separators.header, elementsText_elements_sub x ediX12Params_plain hfree,
    List.map_append, List.map_singleton, x.recode_element]

/-- The trailer takes back the separator in front of the last field, and writes
it again. -/
theorem run_x12 (t r : Bytes) :
    run (puts (t ++ [ediX12Params.elementSeparator]) ++
        (formatOps ediX12Params (ascii "%_%E%s%S") ++ puts r)) []
      = t ++ [ediX12Params.elementSeparator] ++
        [ediX12Params.subelementSeparator] ++
        ediX12Params.segmentSeparator :: r := by
  rw [formatOps_x12, run_append, run_puts, run_append, run_puts]
  simp [Op.apply]

theorem peak_x12 (t r : Bytes) :
    peak (puts (t ++ [ediX12Params.elementSeparator]) ++
        (formatOps ediX12Params (ascii "%_%E%s%S") ++ puts r)) 0
      = t.length + 3 + r.length := by
  rw [formatOps_x12, peak_puts_append]
  simp only [List.cons_append, List.nil_append, peak, peak_puts,
    List.length_append, List.length_singleton]
  omega

/-- A message of X12 that is built with the preset of X12 is the message in the
separators of the preset. -/
theorem parse_build_x12 {lib : EdiLib} (hlib : lib.HasPresets)
    {oparser : EdiParser} (hdetect : oparser.detect = 1)
    (pun : List EdiValue → EdiValue) {x : X12Separators} {m : CString}
    (hm : X12Message x m) :
    ∃ (d : EdiParams) (i : EdiInterchange),
      (ediDetect lib.detectparams m).found = some (d, 0) ∧
      d.segmentSeparator = x.segment ∧ d.elementSeparator = x.element ∧
      d.subelementSeparator = x.subelement ∧ d.tagSeparator = x.element ∧
      d.escape = 0 ∧
      ediParserParse lib oparser m = (oparser, some i) ∧
      ∀ (mem : Nat → UInt8) (buflen : UInt64), m.strlen < buflen.toNat →
        ∃ (buf : Buffer UInt8) (r : CString),
          ediInterchangeBuild pun i (some ediX12Params) mem buflen
            = some (buf, r.strlen) ∧
          r.get = buf.mem ∧ r.bytes = m.bytes.map (x.recode ediX12Params) := by
  obtain ⟨fields, rest, hbytes, hseg, htail⟩ := hm.exists_fields
  have hfound := (ediDetect_preset hlib m).trans hm.detected
  have hparse := ediParserParse_detected hdetect hfound
  refine ⟨_, _, hfound, rfl, rfl, rfl, rfl, rfl, hparse, ?_⟩
  intro mem buflen hlen
  obtain ⟨offset, hsegments⟩ := segmentLoop_header x hseg m.strlen rest
  rw [← hbytes] at hsegments
  obtain ⟨es, hes⟩ :=
    elements_isa x (fields ++ [x.element] ++ [x.subelement])
  have helements : Grammar.elements x.separators (x.header fields)
      = .simple (.ofBytes (ascii "ISA")) :: es := by
    rw [← hes]
    simp [X12Separators.header]
  have hops : interchangeOps pun ediX12Params
      ⟨(segmentLoop x.separators.parser m.strlen (m.bytes.drop 0)).1⟩
      = puts ((ascii "ISA" ++ x.element :: fields).map (x.recode ediX12Params) ++
          [ediX12Params.elementSeparator]) ++
        (formatOps ediX12Params (ascii "%_%E%s%S") ++
          puts (rest.map (x.recode ediX12Params))) := by
    rw [← elementsText_header x hseg,
      ← segmentsText_segments ediX12Params_plain m.strlen htail]
    exact interchangeOps_x12 pun (i := ⟨_⟩) hsegments helements
  have htext : m.bytes.map (x.recode ediX12Params)
      = (ascii "ISA" ++ x.element :: fields).map (x.recode ediX12Params) ++
        [ediX12Params.elementSeparator] ++ [ediX12Params.subelementSeparator] ++
        ediX12Params.segmentSeparator :: rest.map (x.recode ediX12Params) := by
    rw [hbytes]
    simp [X12Separators.header]
  have hstrlen : m.strlen = (m.bytes.map (x.recode ediX12Params)).length :=
    (List.length_map _).symm
  refine ediInterchangeBuild_text pun _ (some ediX12Params) mem buflen
    ediX12Params_trailerOk ?_ ?_ ?_
  · rw [htext, ← run_x12, ← hops]
    rfl
  · rw [hstrlen, htext] at hlen
    show peak (interchangeOps pun ediX12Params
      ⟨(segmentLoop x.separators.parser m.strlen (m.bytes.drop 0)).1⟩) 0 < _
    rw [hops, peak_x12]
    simp only [List.length_append, List.length_cons, List.length_nil] at hlen ⊢
    omega
  · intro hzero
    obtain ⟨c, hc, hrecode⟩ := List.mem_map.1 hzero
    refine recode_ne_zero x ?_ hrecode
    rintro rfl
    exact m.nulFree hc

/-- Separators that are not those of the preset. -/
def sampleX12Separators : X12Separators where
  element := '*'.toUInt8
  subelement := '^'.toUInt8
  segment := '!'.toUInt8
  distinct := by decide
  bytes := forall_mem_of_all (by decide)

/-- A message with blanks in its header and a `:` in a field. -/
def sampleX12Message : CString :=
  .ofBytes (ascii "ISA*00*" ++ List.replicate 96 ' '.toUInt8 ++
    ascii "*^!GS*A^B**C:D!IEA*1!") (by decide +kernel)

theorem sampleX12Message_x12 :
    X12Message sampleX12Separators sampleX12Message where
  start := by decide +kernel
  tag := by decide +kernel
  element := by decide +kernel
  last := by decide +kernel
  sub := by decide +kernel
  seg := by decide +kernel
  header := by decide +kernel
  closed := by decide +kernel
  starts := by decide +kernel
  ends := by decide +kernel

theorem parse_build_x12_sample :
    ∃ (d : EdiParams) (i : EdiInterchange),
      (ediDetect (ediInit EdiLib.start).detectparams sampleX12Message).found
        = some (d, 0) ∧
      d.segmentSeparator = '!'.toUInt8 ∧ d.elementSeparator = '*'.toUInt8 ∧
      d.subelementSeparator = '^'.toUInt8 ∧ d.tagSeparator = '*'.toUInt8 ∧
      d.escape = 0 ∧
      ediParserParse (ediInit EdiLib.start)
          (ediParserCreate EdiLib.start none).2 sampleX12Message
        = ((ediParserCreate EdiLib.start none).2, some i) ∧
      ∀ (mem : Nat → UInt8) (buflen : UInt64),
        sampleX12Message.strlen < buflen.toNat →
        ∃ (buf : Buffer UInt8) (r : CString),
          ediInterchangeBuild (fun _ => .ofBytes []) i (some ediX12Params)
            mem buflen = some (buf, r.strlen) ∧
          r.get = buf.mem ∧
          r.bytes = sampleX12Message.bytes.map
            (sampleX12Separators.recode ediX12Params) :=
  parse_build_x12 ediInit_hasPresets rfl _ sampleX12Message_x12

end Libedi
