import Libedi.Scanner

/-!
# The grammar of the parser

`Separators` is a choice of separators under which the grammar of a message has
no ambiguity.  The functions in the namespace `Grammar` say what such a message
means.  They cut the text top-down: into segments, a segment into elements, an
element into components.  Each cut is a cut of escaped text
(`EscapedText.scan`, `EscapedText.split`), and no flag or cursor is shared
between them.

`segmentLoop_eq_grammar` is the result: the segment loop of the parser, which
goes through the message once and finds the end of a component, of an element
and of a segment with one scan, reads the same interchange.  The key step is
`assemble_rawPieces`: the cuts of the parser, grouped by the separators that end
them, are the nested cuts of the grammar.
-/

namespace Libedi

open EscapedText

/-- Separators and an escape that can be told apart.  An escape of `0` is
none.  The tag separator may be the data separator. -/
structure Separators where
  seg : UInt8
  data : UInt8
  tag : UInt8
  sub : UInt8
  escape : UInt8
  seg_pos : seg ≠ 0
  data_pos : data ≠ 0
  tag_pos : tag ≠ 0
  sub_pos : sub ≠ 0
  seg_lt : seg.toNat < 128
  data_lt : data.toNat < 128
  tag_lt : tag.toNat < 128
  sub_lt : sub.toNat < 128
  escape_lt : escape.toNat < 128
  seg_ne_sub : seg ≠ sub
  seg_ne_data : seg ≠ data
  seg_ne_tag : seg ≠ tag
  sub_ne_data : sub ≠ data
  sub_ne_tag : sub ≠ tag
  escape_ne_seg : escape ≠ seg
  escape_ne_sub : escape ≠ sub
  escape_ne_data : escape ≠ data
  escape_ne_tag : escape ≠ tag

namespace Separators

variable (s : Separators)

/-- The parser that holds these separators. -/
def parser : EdiParser where
  error := .none
  sepSeg := s.seg.toNat
  sepData := s.data.toNat
  sepSub := s.sub.toNat
  sepTag := s.tag.toNat
  escape := s.escape.toNat
  detect := 1

/-- The escape symbols: none if the escape is `0`. -/
def isEscape (c : UInt8) : Bool := s.escape != 0 && c == s.escape

theorem charVal_beq {x : UInt8} (h : x.toNat < 128) (c : UInt8) :
    (charVal c == (x.toNat : Int)) = (c == x) := by
  have hiff := charVal_eq_iff c x
  grind

@[simp] theorem parser_isEscape (c : UInt8) :
    s.parser.isEscape c = s.isEscape c := by
  have hzero : (((s.escape.toNat : Nat) : Int) != 0) = (s.escape != 0) := by
    rw [Bool.eq_iff_iff]
    simp [← UInt8.toNat_inj]
  simp only [EdiParser.isEscape, isEscape, parser, charVal_beq s.escape_lt,
    hzero]

@[simp] theorem parser_isSeg (c : UInt8) : s.parser.isSeg c = (c == s.seg) :=
  charVal_beq s.seg_lt c

@[simp] theorem parser_isSub (c : UInt8) : s.parser.isSub c = (c == s.sub) :=
  charVal_beq s.sub_lt c

@[simp] theorem parser_isData (c : UInt8) :
    s.parser.isData c = (c == s.data) :=
  charVal_beq s.data_lt c

@[simp] theorem parser_isTag (c : UInt8) : s.parser.isTag c = (c == s.tag) :=
  charVal_beq s.tag_lt c

@[simp] theorem parser_opens (c : UInt8) :
    s.parser.opens c = (c == s.data || c == s.tag) := by
  simp [EdiParser.opens]

theorem isEscape_eq_false {c : UInt8} (h : s.escape ≠ c) :
    s.isEscape c = false := by
  have hne : ¬c = s.escape := fun he => h he.symm
  simp [isEscape, hne]

@[simp] theorem isEscape_seg : s.isEscape s.seg = false :=
  s.isEscape_eq_false s.escape_ne_seg

@[simp] theorem isEscape_sub : s.isEscape s.sub = false :=
  s.isEscape_eq_false s.escape_ne_sub

@[simp] theorem isEscape_data : s.isEscape s.data = false :=
  s.isEscape_eq_false s.escape_ne_data

@[simp] theorem isEscape_tag : s.isEscape s.tag = false :=
  s.isEscape_eq_false s.escape_ne_tag

/-- The separator that ends the first element, or a later one. -/
def elementSep (first : Bool) : UInt8 := if first then s.tag else s.data

theorem sub_ne_elementSep (first : Bool) : s.sub ≠ s.elementSep first := by
  cases first
  · exact s.sub_ne_data
  · exact s.sub_ne_tag

theorem seg_ne_elementSep (first : Bool) : s.seg ≠ s.elementSep first := by
  cases first
  · exact s.seg_ne_data
  · exact s.seg_ne_tag

@[simp] theorem isEscape_elementSep (first : Bool) :
    s.isEscape (s.elementSep first) = false := by
  cases first
  · exact s.isEscape_data
  · exact s.isEscape_tag

theorem zero_ne_sepSub : (0 == s.parser.sepSub) = false := by
  have hne := s.sub_pos
  rw [ne_eq, ← UInt8.toNat_inj, UInt8.toNat_zero] at hne
  simp only [parser, beq_eq_false_iff_ne, ne_eq]
  omega

theorem opens_elementSep (first : Bool) :
    s.parser.opens (s.elementSep first) = true := by
  cases first <;> simp [elementSep]

theorem opens_sub : s.parser.opens s.sub = false := by
  simp [s.sub_ne_data, s.sub_ne_tag]

/-- The scan of a value ends at a sub-element separator, at the separator of its
element, or at the segment separator. -/
theorem stops_iff (first : Bool) (c : UInt8) :
    s.parser.stops first c = true
      ↔ c = s.sub ∨ c = s.elementSep first ∨ c = s.seg := by
  cases first <;> simp [EdiParser.stops, elementSep, or_assoc]

end Separators

namespace Grammar

variable (s : Separators)

/-- The value of a component: its text without the escapes. -/
def value (raw : Bytes) : EdiValue :=
  .ofBytes (unescape s.isEscape false raw)

/-- The text of a segment, up to the unescaped segment separator, and the rest
of the message from that separator on. -/
def segmentText (m : Bytes) : Bytes × Bytes :=
  scan s.isEscape (· == s.seg) false m

/-- The texts of the elements of a segment.  The first one ends at the tag
separator, the others at the data separators. -/
def elementTexts (raw : Bytes) : List Bytes :=
  match scan s.isEscape (· == s.tag) false raw with
  | (e, []) => [e]
  | (e, _ :: es) => e :: split s.isEscape (· == s.data) false es

/-- The texts of the components of an element. -/
def components (e : Bytes) : List Bytes :=
  split s.isEscape (· == s.sub) false e

/-- The element with these components: a composite iff the text of the element
holds a sub-element separator, that is, iff there is more than one of them. -/
def element (cs : List Bytes) : EdiElement :=
  match cs with
  | [c] => .simple (value s c)
  | cs => .composite (cs.map (value s))

/-- The last element of a segment.  A last component without a byte is not
recorded, and an element that consists of it alone is not there. -/
def lastElement (cs : List Bytes) : List EdiElement :=
  if cs.getLast? = some [] then
    if cs.length = 1 then [] else [.composite (cs.dropLast.map (value s))]
  else [element s cs]

/-- The elements of a segment, from the components of each. -/
def readElements (es : List (List Bytes)) : List EdiElement :=
  es.dropLast.map (element s) ++ es.getLast?.elim [] (lastElement s)

/-- The elements of a segment. -/
def elements (raw : Bytes) : List EdiElement :=
  readElements s ((elementTexts s raw).map (components s))

/-- The segment with this text.  Its tag is its first value. -/
def segment (offset : Nat) (raw : Bytes) : EdiSegment where
  elements := elements s raw
  tag := ((elements s raw).flatMap (·.values)).head?.map (·.value)
  offset := offset

/-- The segments of a message.  Newlines in front of a segment are skipped. -/
def segments (total : Nat) (m : Bytes) : List EdiSegment :=
  match _h : m.dropWhile isNewline with
  | [] => []
  | c :: cs =>
    let offset := total - (c :: cs).length
    match _h' : segmentText s (c :: cs) with
    | (raw, []) => [segment s offset raw]
    | (raw, _ :: rest) => segment s offset raw :: segments total rest
termination_by m.length
decreasing_by
  have hdrop := dropWhile_length_le isNewline m
  have hlen := scan_snd_length_le s.isEscape (· == s.seg) false (c :: cs)
  unfold segmentText at _h'
  rw [_h] at hdrop
  rw [_h'] at hlen
  simp only [List.length_cons] at hdrop hlen ⊢
  omega

theorem segments_nil {total : Nat} {m : Bytes}
    (h : m.dropWhile isNewline = []) : segments s total m = [] := by
  rw [segments]
  split <;> simp_all

theorem segments_closed {total : Nat} {m l raw rest : Bytes} {d : UInt8}
    (h : m.dropWhile isNewline = l) (hne : l ≠ [])
    (htext : segmentText s l = (raw, d :: rest)) :
    segments s total m
      = segment s (total - l.length) raw :: segments s total rest := by
  rw [segments]
  split
  · simp_all
  · split <;> simp_all

/-! ## Cutting off one component -/

/-- The components of the elements of a text.  `first` says that the text
starts in the first element of its segment. -/
def nested (first : Bool) (raw : Bytes) : List (List Bytes) :=
  if first then (elementTexts s raw).map (components s)
  else (split s.isEscape (· == s.data) false raw).map (components s)

theorem elementTexts_ne_nil (raw : Bytes) : elementTexts s raw ≠ [] := by
  unfold elementTexts
  split <;> simp

theorem nested_ne_nil (first : Bool) (raw : Bytes) :
    nested s first raw ≠ [] := by
  cases first <;> simp [nested, split_ne_nil, elementTexts_ne_nil]

variable {s}

section Unbroken

variable {first : Bool} {e : Bytes}
  (h : EscapedText.Unbroken s.isEscape (s.parser.stops first) false e)
include h

/-- A component holds no separator of its own context. -/
theorem unbroken_eq {x : UInt8} (hx : s.parser.stops first x = true) :
    EscapedText.Unbroken s.isEscape (· == x) false e :=
  h.mono fun c hc => by
    obtain rfl : c = x := by simpa using hc
    exact hx

theorem scan_component :
    (scan s.isEscape (s.parser.stops first) false e).2 = [] := by
  rw [h.scan_eq]

theorem unbroken_sub : EscapedText.Unbroken s.isEscape (· == s.sub) false e :=
  unbroken_eq h ((s.stops_iff first s.sub).2 (Or.inl rfl))

theorem unbroken_elementSep :
    EscapedText.Unbroken s.isEscape (· == s.elementSep first) false e :=
  unbroken_eq h ((s.stops_iff first _).2 (Or.inr (Or.inl rfl)))

theorem unbroken_seg : EscapedText.Unbroken s.isEscape (· == s.seg) false e :=
  unbroken_eq h ((s.stops_iff first s.seg).2 (Or.inr (Or.inr rfl)))

/-- A sub-element separator cuts off one component. -/
theorem components_append_sub (r : Bytes) :
    components s (e ++ s.sub :: r) = e :: components s r :=
  split_append_sep (unbroken_sub h) (by simp) (by simp) r

theorem components_unbroken : components s e = [e] :=
  split_of_scan_snd_eq_nil (congrArg Prod.snd (unbroken_sub h).scan_eq)

/-- The separator of its element cuts off an element of one component. -/
theorem nested_append_elementSep (r : Bytes) :
    nested s first (e ++ s.elementSep first :: r) = [e] :: nested s false r := by
  have hsep := unbroken_elementSep h
  cases first with
  | false =>
    have hsplit := split_append_sep hsep (c := s.data)
      (by simp [Separators.elementSep]) (by simp) r
    simp only [Separators.elementSep, Bool.false_eq_true, if_false] at hsplit
    simp [nested, Separators.elementSep, hsplit, components_unbroken h]
  | true =>
    have hscan := scan_append_stop hsep (c := s.tag)
      (by simp [Separators.elementSep]) (by simp) r
    simp only [Separators.elementSep, if_true] at hscan
    simp [nested, elementTexts, Separators.elementSep, hscan,
      components_unbroken h]

/-- A sub-element separator cuts off the first component of the first
element. -/
theorem nested_append_sub (r : Bytes) :
    nested s first (e ++ s.sub :: r) = (nested s first r).modifyHead (e :: ·) := by
  have hsep := unbroken_elementSep h
  have hne := s.sub_ne_elementSep first
  cases first with
  | false =>
    have hsplit := split_append_other hsep (by simpa using hne) (by simp) r
    simp only [Separators.elementSep, Bool.false_eq_true, if_false] at hsplit
    simp only [nested, hsplit, Bool.false_eq_true, if_false]
    cases hr : split s.isEscape (· == s.data) false r with
    | nil => exact absurd hr (split_ne_nil false r)
    | cons e' es => simp [components_append_sub h]
  | true =>
    have hscan := scan_append_other hsep (by simpa using hne) (by simp) r
    simp only [Separators.elementSep, if_true] at hscan
    simp only [nested, elementTexts, hscan, if_true]
    rcases hr : scan s.isEscape (· == s.tag) false r with ⟨e', _ | ⟨d, es⟩⟩ <;>
      simp [components_append_sub h]

end Unbroken

/-- A text in which the scan of a value meets no stop is one component. -/
theorem nested_of_scan {first : Bool} {raw : Bytes}
    (h : (scan s.isEscape (s.parser.stops first) false raw).2 = []) :
    nested s first raw = [[raw]] := by
  have hsub : components s raw = [raw] :=
    split_of_scan_snd_eq_nil (congrArg Prod.snd
      (scan_snd_eq_nil_mono h fun c hc =>
        (s.stops_iff first c).2 (Or.inl (by simpa using hc))))
  have hsep : scan s.isEscape (· == s.elementSep first) false raw = (raw, []) :=
    scan_snd_eq_nil_mono h fun c hc =>
      (s.stops_iff first c).2 (Or.inr (Or.inl (by simpa using hc)))
  cases first with
  | false =>
    have hsplit := split_of_scan_snd_eq_nil (congrArg Prod.snd hsep)
    simp only [Separators.elementSep, Bool.false_eq_true, if_false] at hsplit
    simp [nested, hsplit, hsub]
  | true =>
    simp only [Separators.elementSep, if_true] at hsep
    simp [nested, elementTexts, hsep, hsub]

/-! ## The parser reads the grammar -/

theorem value_eq (x : RawPiece) : x.value s.parser = value s x.raw := by
  have hesc : s.parser.isEscape = s.isEscape := funext s.parser_isEscape
  rw [RawPiece.value, memcpyescape_eq_unescape, hesc, value]

/-- One more element in front of the last one. -/
theorem readElements_cons {cs : List Bytes} {es : List (List Bytes)}
    (hes : es ≠ []) :
    readElements s (cs :: es) = element s cs :: readElements s es := by
  obtain ⟨e, es, rfl⟩ := List.exists_cons_of_ne_nil hes
  simp [readElements]

/-- The element that is being filled, from the texts of its components. -/
def openComposite (s : Separators) (acc : List Bytes) : Option EdiElement :=
  if acc = [] then none else some (.composite (acc.map (value s)))

theorem store_openComposite (acc : List Bytes) (raw : Bytes) :
    ((openComposite s acc).getD .untyped).store (value s raw) false
      = element s (acc ++ [raw]) := by
  rcases acc with _ | ⟨a, _ | ⟨b, bs⟩⟩ <;>
    simp [openComposite, EdiElement.store, element]

theorem store_openComposite_sub (acc : List Bytes) (raw : Bytes) :
    some (((openComposite s acc).getD .untyped).store (value s raw) true)
      = openComposite s (acc ++ [raw]) := by
  rcases acc with _ | ⟨a, as⟩ <;> simp [openComposite, EdiElement.store]

/-- A last component without a byte is not recorded. -/
theorem lastElement_append_nil (acc : List Bytes) :
    lastElement s (acc ++ [[]]) = (openComposite s acc).toList := by
  rcases acc with _ | ⟨a, as⟩
  · simp [lastElement, openComposite]
  · rw [lastElement, if_pos List.getLast?_concat, List.dropLast_concat]
    simp [openComposite]

theorem lastElement_append {raw : Bytes} (h : raw ≠ []) (acc : List Bytes) :
    lastElement s (acc ++ [raw]) = [element s (acc ++ [raw])] := by
  rw [lastElement, List.getLast?_concat, if_neg (by simpa using h)]

theorem modifyHead_nil_append (es : List (List Bytes)) :
    es.modifyHead ([] ++ ·) = es := by
  cases es <;> simp

/-- The end of a segment, behind a piece with at least one byte. -/
theorem assemble_last {x : RawPiece} (hraw : x.raw ≠ [])
    (hsub : x.endsAtSub s.parser = false)
    (hends : x.endsElement s.parser = false) (acc : List Bytes) :
    assemble s.parser (openComposite s acc) [x]
      = readElements s ([[x.raw]].modifyHead (acc ++ ·)) := by
  simp [assemble, hsub, hends, value_eq, store_openComposite, readElements,
    lastElement_append hraw]

/-- A piece at a sub-element separator opens its element further. -/
theorem assemble_sub (acc : List Bytes) (raw : Bytes) (ps : List RawPiece) :
    assemble s.parser (openComposite s acc) (⟨raw, some s.sub⟩ :: ps)
      = assemble s.parser (openComposite s (acc ++ [raw])) ps := by
  have hends : (⟨raw, some s.sub⟩ : RawPiece).endsElement s.parser = false := by
    simp [RawPiece.endsElement, s.sub_ne_data, s.sub_ne_tag]
  have hsub : (⟨raw, some s.sub⟩ : RawPiece).endsAtSub s.parser = true := by
    simp [RawPiece.endsAtSub]
  rw [assemble, hends, hsub, if_neg (by simp), value_eq,
    store_openComposite_sub]

/-- A piece at the separator of its element closes the element. -/
theorem assemble_elementSep (first : Bool) (acc : List Bytes) (raw : Bytes)
    (ps : List RawPiece) :
    assemble s.parser (openComposite s acc)
        (⟨raw, some (s.elementSep first)⟩ :: ps)
      = element s (acc ++ [raw]) :: assemble s.parser none ps := by
  have hends : (⟨raw, some (s.elementSep first)⟩ : RawPiece).endsElement
      s.parser = true := by
    simp only [RawPiece.endsElement, Option.elim, s.opens_elementSep first,
      Bool.and_true]
    simpa using (s.seg_ne_elementSep first).symm
  have hsub : (⟨raw, some (s.elementSep first)⟩ : RawPiece).endsAtSub
      s.parser = false := by
    simpa [RawPiece.endsAtSub] using (s.sub_ne_elementSep first).symm
  rw [assemble, hends, hsub, if_pos rfl, value_eq, store_openComposite]

/-- A text without a component left: the open element is closed as it is. -/
theorem toList_openComposite (first : Bool) (acc : List Bytes) :
    (openComposite s acc).toList
      = readElements s ((nested s first []).modifyHead (acc ++ ·)) := by
  rw [nested_of_scan (by simp)]
  simp [readElements, lastElement_append_nil]

/-- The pieces that the parser cuts off are the components of the grammar, and
grouped by their stops they make the same elements.  `acc` holds the components
of the element that the text starts in. -/
theorem assemble_rawPieces (first : Bool) (m : Bytes) (acc : List Bytes) :
    assemble s.parser (openComposite s acc) (rawPieces s.parser first m).1
        = readElements s
            ((nested s first (segmentText s m).1).modifyHead (acc ++ ·)) ∧
      (rawPieces s.parser first m).2 = (segmentText s m).2 := by
  have hesc : s.parser.isEscape = s.isEscape := funext s.parser_isEscape
  fun_induction rawPieces s.parser first m generalizing acc with
  | case1 first =>
    exact ⟨toList_openComposite first acc, by simp [segmentText]⟩
  | case2 first c cs hc =>
    have hseg : segmentText s (c :: cs) = ([], c :: cs) := by
      obtain rfl : c = s.seg := by simpa using hc
      simp [segmentText, scan]
    rw [hseg]
    exact ⟨toList_openComposite first acc, rfl⟩
  | case3 first c cs hc raw h =>
    -- the message ends: the rest of it is one component
    rw [scanValue_eq_scan, hesc] at h
    have hraw := scan_eq_end h
    have hend := congrArg Prod.snd h
    have htext : segmentText s (c :: cs) = (raw, []) := by
      rw [hraw]
      exact scan_snd_eq_nil_mono hend fun c hc =>
        (s.stops_iff first c).2 (Or.inr (Or.inr (by simpa using hc)))
    rw [← hraw] at hend
    rw [htext, nested_of_scan hend]
    exact ⟨assemble_last (x := ⟨raw, none⟩) (by simp [hraw]) s.zero_ne_sepSub rfl
      acc, rfl⟩
  | case4 first c cs hc raw d ds h hd =>
    -- the segment separator ends the last component
    rw [scanValue_eq_scan, hesc] at h
    obtain ⟨hunb, -, -, happ⟩ := scan_eq_stop h
    obtain rfl : d = s.seg := by simpa using hd
    have hraw : raw ≠ [] := by
      rintro rfl
      obtain ⟨rfl, -⟩ : s.seg = c ∧ ds = cs := by simpa using happ
      exact hc hd
    have htext : segmentText s (c :: cs) = (raw, s.seg :: ds) := by
      rw [← happ]
      exact scan_append_stop (unbroken_seg hunb) (by simp) (by simp) ds
    rw [htext, nested_of_scan (scan_component hunb)]
    refine ⟨assemble_last hraw ?_ ?_ acc, rfl⟩
    · simpa [RawPiece.endsAtSub] using s.seg_ne_sub
    · simp [RawPiece.endsElement]
  | case5 first c cs hc raw d ds h hd ih =>
    -- another component follows, of this element or of the next one
    rw [scanValue_eq_scan, hesc] at h
    obtain ⟨hunb, hstop, hdesc, happ⟩ := scan_eq_stop h
    have hdseg : (d == s.seg) = false := by simpa using hd
    have htext : segmentText s (c :: cs)
        = (raw ++ d :: (segmentText s ds).1, (segmentText s ds).2) := by
      rw [← happ]
      exact scan_append_other (unbroken_seg hunb) hdseg hdesc ds
    rw [htext]
    simp only [Prod.map_fst, Prod.map_snd, id]
    rcases (s.stops_iff first d).1 hstop with rfl | rfl | rfl
    · rw [s.opens_sub, Bool.not_false, Bool.and_true] at ih ⊢
      obtain ⟨hel, hrest⟩ := ih (acc ++ [raw])
      refine ⟨?_, hrest⟩
      rw [assemble_sub, nested_append_sub hunb, hel]
      simp [Function.comp_def]
    · rw [s.opens_elementSep first, Bool.not_true, Bool.and_false] at ih ⊢
      obtain ⟨hel, hrest⟩ := ih []
      refine ⟨?_, hrest⟩
      rw [assemble_elementSep, nested_append_elementSep hunb,
        List.modifyHead_cons, readElements_cons (nested_ne_nil s false _)]
      rw [modifyHead_nil_append] at hel
      exact congrArg (element s (acc ++ [raw]) :: ·) hel
    · simp at hd

end Grammar

namespace Grammar

variable {s : Separators}

/-- The segment that the parser makes of its pieces is that of the grammar. -/
theorem segmentOf_eq_segment {l raw rest : Bytes} {pieces : List RawPiece}
    (htext : segmentText s l = (raw, rest))
    (hpieces : (rawPieces s.parser true l).1 = pieces) (offset : Nat)
    (closed : Bool) :
    segmentOf s.parser ⟨offset, pieces, closed⟩ = segment s offset raw := by
  have hcont := rawPieces_continues s.parser true l
  have hel := (assemble_rawPieces (s := s) true l []).1
  rw [hpieces] at hcont hel
  rw [htext, modifyHead_nil_append] at hel
  have helements : assemble s.parser none pieces = elements s raw := hel
  have hvalues := assemble_values hcont []
  rw [if_pos rfl, helements, List.nil_append] at hvalues
  refine EdiSegment.ext ?_ ?_ rfl
  · rw [segmentOf_elements]
    exact helements
  · rw [segmentOf_tag hcont]
    simp [segment, hvalues, List.head?_map, Function.comp_def]

end Grammar

/-- The segments that the parser makes of its raw segments are those of the
grammar. -/
theorem map_segmentOf_rawSegments (s : Separators) (total : Nat) (m : Bytes) :
    (rawSegments s.parser total m).map (segmentOf s.parser)
      = Grammar.segments s total m := by
  fun_induction Grammar.segments s total m with
  | case1 m h => rw [rawSegments_nil h, List.map_nil]
  | case2 m c cs h offset raw htext =>
    have hrest := (Grammar.assemble_rawPieces (s := s) true (c :: cs) []).2
    rw [htext] at hrest
    rw [rawSegments_open h (by simp) (Prod.ext rfl hrest)]
    simp [Grammar.segmentOf_eq_segment htext rfl, offset]
  | case3 m c cs h offset raw d rest htext ih =>
    have hrest := (Grammar.assemble_rawPieces (s := s) true (c :: cs) []).2
    rw [htext] at hrest
    rw [rawSegments_closed h (by simp) (Prod.ext rfl hrest), ← ih]
    simp [Grammar.segmentOf_eq_segment htext rfl, offset]

/-- The parser reads the grammar.  The segments that the segment loop makes of
a message, with their offsets and tags, their elements, the kinds of these and
their values, are those of the grammar. -/
theorem segmentLoop_eq_grammar (s : Separators) (total : Nat) (m : Bytes) :
    (segmentLoop s.parser total m).1 = Grammar.segments s total m := by
  rw [segmentLoop_eq]
  exact map_segmentOf_rawSegments s total m

end Libedi
