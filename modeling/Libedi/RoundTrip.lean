import Libedi.ReadBack

/-!
# Building and parsing

A text that the builder has written is read back by the parser, which finds the
dialect on its own.  `EdiInterchange.Readable` is what this takes of an
interchange.  It has nothing to say about the bytes of the values, which may be
separators or escapes.

* `parse_build_headless`: dialects without a header, whose messages are found
  by their first tag.
* `parse_build_una`: any separators at all, which the `UNA` header declares.
-/

namespace Libedi

open BoundedOutput EscapedText

/-! ## Readable interchanges -/

/-- The first value starts with a newline. -/
def startsNewline (vs : List EdiValue) : Bool :=
  vs.head?.elim false fun v => v.value.head?.elim false isNewline

/-- An interchange that survives being written. -/
structure EdiInterchange.Readable (i : EdiInterchange) : Prop where
  typed : ∀ x ∈ i.segments, EdiElement.untyped ∉ x.elements
  strings : ∀ x ∈ i.segments, ∀ v ∈ segmentValues x.elements, v.IsString
  /-- A composite has at least two values. -/
  composites : ∀ x ∈ i.segments, ∀ vs, .composite vs ∈ x.elements →
    2 ≤ vs.length
  last : ∀ x ∈ i.segments, endsEmpty (segmentValues x.elements) = false
  first : ∀ x ∈ i.segments, startsNewline (segmentValues x.elements) = false

namespace EdiInterchange.Readable

variable {i : EdiInterchange} (h : i.Readable)
include h

theorem filled : ∀ x ∈ i.segments, ∀ e ∈ x.elements, e.Filled := by
  intro x hx e he
  constructor
  · cases e with
    | untyped => exact absurd he (h.typed x hx)
    | simple v => simp [EdiElement.values]
    | composite vs =>
      have hlen := h.composites x hx vs he
      intro hnil
      have hvs : vs = [] := hnil
      simp [hvs] at hlen
  · intro v hv
    exact h.strings x hx v (List.mem_flatMap.2 ⟨e, he, hv⟩)

theorem not_lone : ∀ x ∈ i.segments, ∀ e ∈ x.elements, e.isLone = false := by
  intro x hx e he
  rcases e with - | v | ⟨- | ⟨v, - | ⟨w, vs⟩⟩⟩
  · rfl
  · rfl
  · rfl
  · have hlen := h.composites x hx [v] he
    simp at hlen
  · rfl

end EdiInterchange.Readable

theorem EdiValue.IsString.trimStart_eq {v : EdiValue} (h : v.IsString)
    (hnl : v.value.head?.elim false isNewline = false) : v.trimStart = v := by
  have hdrop : v.value.dropWhile isNewline = v.value := by
    cases hv : v.value with
    | nil => rfl
    | cons c cs =>
      have hc : isNewline c = false := by simpa [hv] using hnl
      rw [List.dropWhile_cons_of_neg (by simp [hc])]
  rw [EdiValue.trimStart, hdrop, h.ofBytes_value]

/-- There is nothing to trim in front of a segment that does not start with a
newline. -/
theorem trimStart_eq_self {es : List EdiElement} (hfilled : ∀ e ∈ es, e.Filled)
    (hnl : startsNewline (segmentValues es) = false) : trimStart es = es := by
  cases es with
  | nil => rfl
  | cons e es =>
    have he := hfilled e List.mem_cons_self
    have hstring := he.isString
    rcases e with - | v | ⟨- | ⟨v, vs⟩⟩
    · rfl
    · have htrim := (hstring v (by simp [EdiElement.values])).trimStart_eq hnl
      simp [trimStart, EdiElement.trimStart, htrim]
    · rfl
    · have htrim := (hstring v (by simp [EdiElement.values])).trimStart_eq hnl
      simp [trimStart, EdiElement.trimStart, htrim]

/-- All that is read back of a readable interchange. -/
theorem EdiInterchange.Readable.read {i : EdiInterchange} (h : i.Readable)
    {s : Separators} {params : EdiParams} (hfit : s.Fits params) :
    i.segments.map (fun x =>
        Grammar.elements s (elementsText params (trimStart x.elements)))
      = i.segments.map (·.elements) := by
  refine List.map_congr_left fun x hx => ?_
  have hfilled := h.filled x hx
  rw [trimStart_eq_self hfilled (h.first x hx),
    hfit.read_elements hfilled (h.last x hx)]
  refine (List.map_congr_left fun e he => ?_).trans (List.map_id _)
  exact ((hfilled e he).ofValues_values).2 (h.not_lone x hx e he)

/-- The tags of segments follow from their elements. -/
theorem map_elements_tag {ss ss' : List EdiSegment}
    (htags : ∀ x ∈ ss, x.tag = (segmentValues x.elements).head?.map (·.value))
    (h : ss.map (·.elements) = ss'.map (·.elements)) :
    ss.map (fun x => (x.elements, x.tag))
      = ss'.map fun x =>
        (x.elements, (segmentValues x.elements).head?.map (·.value)) := by
  have htag : ss.map (fun x => (x.elements, x.tag))
      = (ss.map (·.elements)).map fun es =>
        (es, (segmentValues es).head?.map (·.value)) := by
    rw [List.map_map]
    exact List.map_congr_left fun x hx => by rw [htags x hx]; rfl
  rw [htag, h, List.map_map]
  rfl

/-! ## Texts are strings -/

theorem mem_intercalate {c d : UInt8} {ps : List Bytes}
    (h : c ∈ [d].intercalate ps) : c = d ∨ ∃ p ∈ ps, c ∈ p := by
  cases ps with
  | nil => simp at h
  | cons p ps =>
    rw [intercalate_cons_eq, List.mem_append, List.mem_flatMap] at h
    rcases h with h | ⟨q, hq, h⟩
    · exact Or.inr ⟨p, List.mem_cons_self, h⟩
    · rcases List.mem_cons.1 h with rfl | h
      · exact Or.inl rfl
      · exact Or.inr ⟨q, List.mem_cons_of_mem p hq, h⟩

namespace Separators.Fits

variable {s : Separators} {params : EdiParams} (h : s.Fits params)
include h

theorem elementText_nulFree {e : EdiElement} (he : e.Filled) :
    (0 : UInt8) ∉ elementText params e := by
  intro hmem
  rw [elementText, h.sub] at hmem
  rcases mem_intercalate hmem with hzero | ⟨p, hp, hmem⟩
  · exact s.sub_pos hzero.symm
  · obtain ⟨v, hv, rfl⟩ := List.mem_map.1 hp
    rcases mem_escape hmem with hzero | hmem
    · rw [h.escape] at hzero
      exact h.escape_ne hzero.symm
    · exact (he.isString v hv).1 hmem

theorem elementsText_nulFree {es : List EdiElement} (hes : ∀ e ∈ es, e.Filled) :
    (0 : UInt8) ∉ elementsText params es := by
  rcases es with - | ⟨e, - | ⟨e', es⟩⟩
  · exact List.not_mem_nil
  · exact h.elementText_nulFree (hes e List.mem_cons_self)
  · intro hmem
    rw [elementsText, h.tag, h.data, List.mem_append, List.mem_cons] at hmem
    rcases hmem with hmem | hzero | hmem
    · exact h.elementText_nulFree (hes e List.mem_cons_self) hmem
    · exact s.tag_pos hzero.symm
    · rcases mem_intercalate hmem with hzero | ⟨p, hp, hmem⟩
      · exact s.data_pos hzero.symm
      · obtain ⟨f, hf, rfl⟩ := List.mem_map.1 hp
        exact h.elementText_nulFree (hes f (List.mem_cons_of_mem e hf)) hmem

theorem segmentsText_nulFree {ss : List EdiSegment}
    (hss : ∀ x ∈ ss, ∀ e ∈ x.elements, e.Filled) :
    (0 : UInt8) ∉ segmentsText params ss := by
  intro hmem
  obtain ⟨x, hx, hmem⟩ := List.mem_flatMap.1 hmem
  rw [h.seg, List.mem_append, List.mem_singleton] at hmem
  rcases hmem with hmem | hzero
  · exact h.elementsText_nulFree (hss x hx) hmem
  · exact s.seg_pos hzero.symm

end Separators.Fits

/-! ## Dialects without a header -/

/-- The separators of UN/EDIFACT. -/
def edifactSeparators : Separators where
  seg := '\''.toUInt8
  data := '+'.toUInt8
  tag := '+'.toUInt8
  sub := ':'.toUInt8
  escape := '?'.toUInt8
  seg_pos := by decide
  data_pos := by decide
  tag_pos := by decide
  sub_pos := by decide
  seg_lt := by decide
  data_lt := by decide
  tag_lt := by decide
  sub_lt := by decide
  escape_lt := by decide
  seg_ne_sub := by decide
  seg_ne_data := by decide
  seg_ne_tag := by decide
  sub_ne_data := by decide
  sub_ne_tag := by decide
  escape_ne_seg := by decide
  escape_ne_sub := by decide
  escape_ne_data := by decide
  escape_ne_tag := by decide

/-- The separators of TRADACOMS. -/
def tradacomsSeparators : Separators :=
  { edifactSeparators with
    tag := '='.toUInt8
    tag_pos := by decide
    tag_lt := by decide
    seg_ne_tag := by decide
    sub_ne_tag := by decide
    escape_ne_tag := by decide }

theorem edifactSeparators_fits : edifactSeparators.Fits ediDefaultParams :=
  ⟨rfl, rfl, rfl, rfl, rfl, by decide⟩

theorem tradacomsSeparators_fits :
    tradacomsSeparators.Fits ediTradacomsParams :=
  ⟨rfl, rfl, rfl, rfl, rfl, by decide⟩

theorem ediDefaultParams_newline (c : UInt8)
    (h : isSpecial ediDefaultParams c = true) : isNewline c = false := by
  rcases (edifactSeparators_fits.isSpecial_iff c).1 h with
    rfl | rfl | rfl | rfl | rfl <;> decide

theorem ediTradacomsParams_newline (c : UInt8)
    (h : isSpecial ediTradacomsParams c = true) : isNewline c = false := by
  rcases (tradacomsSeparators_fits.isSpecial_iff c).1 h with
    rfl | rfl | rfl | rfl | rfl <;> decide

/-- A text starts with its first value, if nothing in it needs an escape. -/
theorem prefix_segmentsText {params : EdiParams} {e : EdiElement}
    {v : EdiValue} {vs : List EdiValue} (hvs : e.values = v :: vs)
    (hplain : ∀ c ∈ v.value, isSpecial params c = false) {x : EdiSegment}
    {es : List EdiElement} (hx : x.elements = e :: es) (ss : List EdiSegment) :
    v.value <+: segmentsText params (x :: ss) := by
  obtain ⟨tail, -, htext, -⟩ := elementsText_cons params hvs es
  rw [escapeBytes, escape_eq_self hplain] at htext
  rw [segmentsText_cons, hx, htext, List.append_assoc]
  exact List.prefix_append _ _

/-- A dialect without a header: the builder writes with the separators `s`, and
the parser uses them for the messages that start with `tag`. -/
structure Separators.Speaks (s : Separators) (params : EdiParams)
    (tag : Bytes) : Prop where
  fits : s.Fits params
  newline : ∀ c, isSpecial params c = true → isNewline c = false
  plain : ∀ c ∈ tag, isSpecial params c = false
  noHeader : headerOf params = none
  trailer : TrailerOk params
  detected : ∀ m : CString, tag <+: m.bytes → ∃ d,
    presetDetection m = some (d, 0) ∧ d.version ≠ 0 ∧
      ediParserInit (some d) = s.parser

theorem edifactSeparators_speaks :
    edifactSeparators.Speaks ediDefaultParams (ascii "UNB") where
  fits := edifactSeparators_fits
  newline := ediDefaultParams_newline
  plain := forall_mem_of_all (by decide)
  noHeader := rfl
  trailer := by decide
  detected := by
    intro m hunb
    exact ⟨_, presetDetection_unb hunb, detectedParams_version m _ _, rfl⟩

theorem tradacomsSeparators_speaks :
    tradacomsSeparators.Speaks ediTradacomsParams (ascii "STX") where
  fits := tradacomsSeparators_fits
  newline := ediTradacomsParams_newline
  plain := forall_mem_of_all (by decide)
  noHeader := rfl
  trailer := by decide
  detected := by
    intro m hstx
    exact ⟨_, presetDetection_stx hstx, detectedParams_version m _ _, rfl⟩

/-- Without a header the builder writes the plain text. -/
theorem Separators.Speaks.build {s : Separators} {params : Option EdiParams}
    {tag : Bytes} (h : s.Speaks (params.getD ediDefaultParams) tag)
    (pun : List EdiValue → EdiValue) {i : EdiInterchange}
    (hfilled : ∀ x ∈ i.segments, ∀ e ∈ x.elements, e.Filled)
    (mem : Nat → UInt8) {buflen : UInt64}
    (hlen : (segmentsText (params.getD ediDefaultParams) i.segments).length
      < buflen.toNat) :
    ∃ (buf : Buffer UInt8) (m : CString),
      ediInterchangeBuild pun i params mem buflen = some (buf, m.strlen) ∧
      m.get = buf.mem ∧
      m.bytes = segmentsText (params.getD ediDefaultParams) i.segments := by
  have hops : interchangeOps pun (params.getD ediDefaultParams) i
      = puts (segmentsText (params.getD ediDefaultParams) i.segments) := by
    rw [interchangeOps, h.noHeader, segmentsOps_none]
  exact ediInterchangeBuild_text pun i params mem buflen h.trailer
    (by rw [hops, run_puts, List.nil_append])
    (by rw [hops, peak_puts]; omega) (h.fits.segmentsText_nulFree hfilled)

/-- The parser reads what is left of the plain text. -/
theorem Separators.Speaks.parse_build {s : Separators}
    {params : Option EdiParams} {tag : Bytes}
    (h : s.Speaks (params.getD ediDefaultParams) tag) {lib : EdiLib}
    (hlib : lib.HasPresets) {oparser : EdiParser} (hdetect : oparser.detect = 1)
    (pun : List EdiValue → EdiValue) {i : EdiInterchange}
    (hfilled : ∀ x ∈ i.segments, ∀ e ∈ x.elements, e.Filled)
    (htag : tag <+: segmentsText (params.getD ediDefaultParams) i.segments)
    (mem : Nat → UInt8) {buflen : UInt64}
    (hlen : (segmentsText (params.getD ediDefaultParams) i.segments).length
      < buflen.toNat) :
    ∃ (buf : Buffer UInt8) (m : CString) (j : EdiInterchange),
      ediInterchangeBuild pun i params mem buflen = some (buf, m.strlen) ∧
      m.get = buf.mem ∧
      m.bytes = segmentsText (params.getD ediDefaultParams) i.segments ∧
      ediParserParse lib oparser m = (oparser, some j) ∧
      j.segments.map (·.elements) = i.segments.map (fun x =>
        Grammar.elements s (elementsText (params.getD ediDefaultParams)
          (trimStart x.elements))) ∧
      ∀ x ∈ j.segments,
        x.tag = (segmentValues x.elements).head?.map (·.value) := by
  obtain ⟨buf, m, hbuild, hget, hbytes⟩ := h.build pun hfilled mem hlen
  obtain ⟨d, hd, -, hparser⟩ := h.detected m (hbytes ▸ htag)
  obtain ⟨j, hparse, helements, htags⟩ := h.fits.parse_segmentsText h.newline
    hfilled hdetect ((ediDetect_preset hlib m).trans hd) hparser hbytes
  exact ⟨buf, m, j, hbuild, hget, hbytes, hparse, helements, htags⟩

/-- What the builder is given for a dialect without a header, and the first tag
of its messages. -/
inductive Headless : Option EdiParams → Bytes → Prop where
  | edifact : Headless none (ascii "UNB")
  | tradacoms : Headless (some ediTradacomsParams) (ascii "STX")

theorem Headless.speaks {params : Option EdiParams} {tag : Bytes}
    (h : Headless params tag) :
    ∃ s : Separators, s.Speaks (params.getD ediDefaultParams) tag := by
  cases h with
  | edifact => exact ⟨_, edifactSeparators_speaks⟩
  | tradacoms => exact ⟨_, tradacomsSeparators_speaks⟩

/-- What the builder writes without a header is read back by the parser. -/
theorem parse_build_headless {lib : EdiLib} (hlib : lib.HasPresets)
    {oparser : EdiParser} (hdetect : oparser.detect = 1)
    (pun : List EdiValue → EdiValue) {i : EdiInterchange} (hi : i.Readable)
    {params : Option EdiParams} {tag : Bytes} (hdialect : Headless params tag)
    {x : EdiSegment} {ss : List EdiSegment} {es : List EdiElement}
    (hsegments : i.segments = x :: ss)
    (helements : x.elements = .simple (.ofBytes tag) :: es)
    (mem : Nat → UInt8) {buflen : UInt64}
    (hlen : (segmentsText (params.getD ediDefaultParams) i.segments).length
      < buflen.toNat) :
    ∃ (buf : Buffer UInt8) (m : CString) (j : EdiInterchange),
      ediInterchangeBuild pun i params mem buflen = some (buf, m.strlen) ∧
      m.get = buf.mem ∧
      m.bytes = segmentsText (params.getD ediDefaultParams) i.segments ∧
      ediParserParse lib oparser m = (oparser, some j) ∧
      j.segments.map (fun x => (x.elements, x.tag))
        = i.segments.map fun x =>
          (x.elements, (segmentValues x.elements).head?.map (·.value)) := by
  obtain ⟨s, hspeaks⟩ := hdialect.speaks
  have hstart : tag
      <+: segmentsText (params.getD ediDefaultParams) i.segments := by
    rw [hsegments]
    exact prefix_segmentsText rfl hspeaks.plain helements ss
  obtain ⟨buf, m, j, hbuild, hget, hbytes, hparse, hread, htags⟩ :=
    hspeaks.parse_build hlib hdetect pun hi.filled hstart mem hlen
  refine ⟨buf, m, j, hbuild, hget, hbytes, hparse, ?_⟩
  exact map_elements_tag htags (hread.trans (hi.read hspeaks.fits))

/-- A header segment with separators and escapes in its values. -/
def sampleInterchange : EdiInterchange :=
  ⟨[⟨[.simple (.ofBytes (ascii "UNB")),
      .composite [.ofBytes (ascii "O'NEIL?"), .ofBytes []],
      .simple (.ofBytes (ascii "+:"))], none, 0⟩]⟩

theorem sampleInterchange_readable : sampleInterchange.Readable where
  typed := by decide
  strings := by
    simp only [sampleInterchange, List.forall_mem_singleton, EdiValue.IsString]
    decide
  composites := by
    simp only [sampleInterchange, List.forall_mem_singleton]
    intro vs hvs
    simp only [List.mem_cons, List.not_mem_nil, or_false, reduceCtorEq,
      false_or, EdiElement.composite.injEq] at hvs
    subst hvs
    decide
  last := by decide
  first := by decide

theorem parse_build_headless_sample :
    ∃ (buf : Buffer UInt8) (m : CString) (j : EdiInterchange),
      ediInterchangeBuild (fun _ => .ofBytes []) sampleInterchange none
        (fun _ => 0) 100 = some (buf, m.strlen) ∧
      m.get = buf.mem ∧
      m.bytes = segmentsText ediDefaultParams sampleInterchange.segments ∧
      ediParserParse (ediInit EdiLib.start)
          (ediParserCreate EdiLib.start none).2 m
        = ((ediParserCreate EdiLib.start none).2, some j) ∧
      j.segments.map (fun x => (x.elements, x.tag))
        = sampleInterchange.segments.map fun x =>
          (x.elements, (segmentValues x.elements).head?.map (·.value)) :=
  parse_build_headless ediInit_hasPresets rfl _ sampleInterchange_readable
    .edifact rfl rfl _ (by decide +kernel)

/-! ## Any separators -/

/-- Parameters that declare their separators in a `UNA` header. -/
structure UnaParams (p : EdiParams) : Prop where
  version : 0x0103 ≤ p.version
  ssName : p.ssName = some (ascii "UNA")
  ssTrailer : p.ssTrailer = some (ascii "%s%E.%R %S")
  tag : p.tagSeparator = p.elementSeparator
  distinct : [p.segmentSeparator, p.elementSeparator, p.subelementSeparator,
    p.escape].Nodup
  bytes : ∀ c ∈ [p.segmentSeparator, p.elementSeparator,
    p.subelementSeparator, p.escape],
      c ≠ 0 ∧ c.toNat < 128 ∧ isNewline c = false ∧ c ∉ ascii "UNA"

namespace UnaParams

variable {p : EdiParams} (h : UnaParams p)
include h

theorem segment_bytes : p.segmentSeparator ≠ 0 ∧ p.segmentSeparator.toNat < 128 ∧
    isNewline p.segmentSeparator = false ∧ p.segmentSeparator ∉ ascii "UNA" :=
  h.bytes _ (by simp)

theorem element_bytes : p.elementSeparator ≠ 0 ∧ p.elementSeparator.toNat < 128 ∧
    isNewline p.elementSeparator = false ∧ p.elementSeparator ∉ ascii "UNA" :=
  h.bytes _ (by simp)

theorem subelement_bytes : p.subelementSeparator ≠ 0 ∧
    p.subelementSeparator.toNat < 128 ∧
    isNewline p.subelementSeparator = false ∧
    p.subelementSeparator ∉ ascii "UNA" :=
  h.bytes _ (by simp)

theorem escape_bytes : p.escape ≠ 0 ∧ p.escape.toNat < 128 ∧
    isNewline p.escape = false ∧ p.escape ∉ ascii "UNA" :=
  h.bytes _ (by simp)

/-- The separators that the parameters hold. -/
def separators : Separators where
  seg := p.segmentSeparator
  data := p.elementSeparator
  tag := p.elementSeparator
  sub := p.subelementSeparator
  escape := p.escape
  seg_pos := h.segment_bytes.1
  data_pos := h.element_bytes.1
  tag_pos := h.element_bytes.1
  sub_pos := h.subelement_bytes.1
  seg_lt := h.segment_bytes.2.1
  data_lt := h.element_bytes.2.1
  tag_lt := h.element_bytes.2.1
  sub_lt := h.subelement_bytes.2.1
  escape_lt := h.escape_bytes.2.1
  seg_ne_sub := by have hd := h.distinct; grind
  seg_ne_data := by have hd := h.distinct; grind
  seg_ne_tag := by have hd := h.distinct; grind
  sub_ne_data := by have hd := h.distinct; grind
  sub_ne_tag := by have hd := h.distinct; grind
  escape_ne_seg := by have hd := h.distinct; grind
  escape_ne_sub := by have hd := h.distinct; grind
  escape_ne_data := by have hd := h.distinct; grind
  escape_ne_tag := by have hd := h.distinct; grind

theorem fits : h.separators.Fits p :=
  ⟨rfl, rfl, rfl, h.tag, rfl, h.escape_bytes.1⟩

/-- Each special byte is one of the four that the parameters hold. -/
theorem isSpecial_mem {c : UInt8} (hc : isSpecial p c = true) :
    c ∈ [p.segmentSeparator, p.elementSeparator, p.subelementSeparator,
      p.escape] := by
  rcases (h.fits.isSpecial_iff c).1 hc with rfl | rfl | rfl | rfl | rfl <;>
    simp [separators]

theorem newline (c : UInt8) (hc : isSpecial p c = true) : isNewline c = false :=
  (h.bytes c (h.isSpecial_mem hc)).2.2.1

theorem plain : ∀ c ∈ ascii "UNA", isSpecial p c = false := by
  intro c hc
  by_contra hne
  exact (h.bytes c (h.isSpecial_mem (by simpa using hne))).2.2.2 hc

theorem headerOf_eq : headerOf p = some (ascii "UNA", ascii "%s%E.%R %S") := by
  rw [headerOf, if_pos h.version, h.ssName, h.ssTrailer]

theorem trailerOk : TrailerOk p := by
  have hbytes : ascii "%s%E.%R %S"
      = [0x25, 0x73, 0x25, 0x45, 0x2E, 0x25, 0x52, 0x20, 0x25, 0x53] := by
    decide +kernel
  intro trailer ht
  rw [h.ssTrailer, Option.mem_some_iff, hbytes] at ht
  subst ht
  decide +kernel

end UnaParams

/-- The nine bytes of the header. -/
def unaHeader (p : EdiParams) : Bytes :=
  ascii "UNA" ++ [p.subelementSeparator, p.elementSeparator, '.'.toUInt8,
    p.escape, ' '.toUInt8, p.segmentSeparator]

theorem formatOps_una (p : EdiParams) :
    formatOps p (ascii "%s%E.%R %S")
      = puts [p.subelementSeparator, p.elementSeparator, '.'.toUInt8,
          p.escape, ' '.toUInt8, p.segmentSeparator] := by
  simp +decide [formatOps, directive, ascii]

/-- A value is taken for the header name only if it is the header name. -/
theorem isHeader_eq_false {hdrname : Bytes} {v : EdiValue} (hv : v.IsString)
    (hne : v.value ≠ hdrname) : isHeader hdrname v = false := by
  by_contra hheader
  have hand : hdrname.length = v.valuelen ∧
      hdrname.take v.valuelen = v.value.take v.valuelen := by
    simpa [isHeader, strncmpEq] using hheader
  obtain ⟨hlen, htake⟩ := hand
  rw [← hlen, List.take_length, hlen, hv.2, List.take_length] at htake
  exact hne htake.symm

/-- The header goes in front of the text. -/
theorem UnaParams.interchangeOps_eq {p : EdiParams} (h : UnaParams p)
    (pun : List EdiValue → EdiValue) {i : EdiInterchange} {x : EdiSegment}
    {ss : List EdiSegment} {v : EdiValue} {es : List EdiElement}
    (hsegments : i.segments = x :: ss) (helements : x.elements = .simple v :: es)
    (hv : v.IsString) (hne : v.value ≠ ascii "UNA") :
    interchangeOps pun p i = puts (unaHeader p ++ segmentsText p i.segments) := by
  have hheader := isHeader_eq_false hv hne
  have hops : headerOps p (some (ascii "UNA", ascii "%s%E.%R %S")) v
      = puts (unaHeader p) := by
    rw [headerOps, hheader, if_neg Bool.false_ne_true, formatOps_una,
      escapeBytes, escape_eq_self h.plain, unaHeader, puts_append]
  have hfirst : elementOps pun p (some (ascii "UNA", ascii "%s%E.%R %S"))
      (.simple v) = puts (unaHeader p) ++ puts (elementText p (.simple v)) := by
    rw [elementOps, valueOps, hops]
    simp [elementText, EdiElement.values]
  have hflag : segmentIsHeader pun
      (some (ascii "UNA", ascii "%s%E.%R %S")) x = false := by
    rw [segmentIsHeader, helements]
    exact hheader
  rw [interchangeOps, h.headerOf_eq, hsegments, segmentsOps, hflag,
    segmentsOps_none, helements, elementsOps_cons pun p _ _ es hfirst,
    segmentsText_cons, helements, puts_append, puts_append, puts_cons,
    List.append_assoc]
  rfl

/-- The header declares the separators that follow it. -/
theorem UnaParams.detected {p : EdiParams} (h : UnaParams p) {m : CString}
    {text : Bytes} (hbytes : m.bytes = unaHeader p ++ text) :
    ∃ d, presetDetection m = some (d, 9) ∧
      (∀ f ∈ separatorFields, f d = f p) ∧
      ediParserInit (some d) = h.separators.parser := by
  have hlen : m.strlen = 9 + text.length := by
    show m.bytes.length = _
    rw [hbytes, List.length_append]
    rfl
  have hget : ∀ k, k < 9 → m.get k = (unaHeader p).getD k 0 := by
    intro k hk
    rw [CString.get_of_lt (by omega), hbytes]
    rw [List.getD_eq_getElem?_getD, List.getElem?_append_left hk,
      ← List.getD_eq_getElem?_getD]
  have huna : ascii "UNA" <+: m.bytes := by
    rw [hbytes, unaHeader, List.append_assoc]
    exact List.prefix_append _ _
  have hseg : m.get 8 = p.segmentSeparator := hget 8 (by omega)
  have helement : m.get 4 = p.elementSeparator := hget 4 (by omega)
  have hsub : m.get 3 = p.subelementSeparator := hget 3 (by omega)
  have hescape : m.get 6 = p.escape := hget 6 (by omega)
  have hd : detectedParams m ediEdifactParams unaDetector
      = ⟨ediVersion, p.segmentSeparator, p.elementSeparator,
          p.subelementSeparator, p.elementSeparator, p.escape,
          none, none, none, none⟩ := by
    rw [← hseg, ← helement, ← hsub, ← hescape]
    rfl
  refine ⟨_, presetDetection_una huna (by omega), ?_, ?_⟩
  · intro f hf
    rw [hd]
    simp only [separatorFields, List.mem_cons, List.not_mem_nil, or_false]
      at hf
    rcases hf with rfl | rfl | rfl | rfl | rfl
    · rfl
    · rfl
    · rfl
    · exact h.tag.symm
    · rfl
  · rw [hd]
    rfl

theorem UnaParams.header_nulFree {p : EdiParams} (h : UnaParams p) :
    (0 : UInt8) ∉ unaHeader p := by
  have hseg := h.segment_bytes.1
  have helement := h.element_bytes.1
  have hsub := h.subelement_bytes.1
  have hescape := h.escape_bytes.1
  have huna : (0 : UInt8) ∉ ascii "UNA" := by decide
  have hdot : (0 : UInt8) ≠ '.'.toUInt8 := by decide
  have hspace : (0 : UInt8) ≠ ' '.toUInt8 := by decide
  simp [unaHeader, huna, hdot, hspace, hseg.symm, helement.symm, hsub.symm,
    hescape.symm]

/-- The choice of the separators never changes what is read back. -/
theorem parse_build_una {lib : EdiLib} (hlib : lib.HasPresets)
    {oparser : EdiParser} (hdetect : oparser.detect = 1)
    (pun : List EdiValue → EdiValue) {i : EdiInterchange} (hi : i.Readable)
    {p : EdiParams} (hp : UnaParams p) {x : EdiSegment} {ss : List EdiSegment}
    {v : EdiValue} {es : List EdiElement} (hsegments : i.segments = x :: ss)
    (helements : x.elements = .simple v :: es) (hne : v.value ≠ ascii "UNA")
    (mem : Nat → UInt8) {buflen : UInt64}
    (hlen : (unaHeader p ++ segmentsText p i.segments).length
      < buflen.toNat) :
    ∃ (buf : Buffer UInt8) (m : CString) (d : EdiParams) (j : EdiInterchange),
      ediInterchangeBuild pun i (some p) mem buflen = some (buf, m.strlen) ∧
      m.get = buf.mem ∧
      m.bytes = unaHeader p ++ segmentsText p i.segments ∧
      (ediDetect lib.detectparams m).found = some (d, 9) ∧
      (∀ f ∈ separatorFields, f d = f p) ∧
      ediParserParse lib oparser m = (oparser, some j) ∧
      j.segments.map (fun x => (x.elements, x.tag))
        = i.segments.map fun x =>
          (x.elements, (segmentValues x.elements).head?.map (·.value)) := by
  have hv : v.IsString := by
    refine hi.strings x (by simp [hsegments]) v ?_
    simp [segmentValues, helements, EdiElement.values]
  have hops := hp.interchangeOps_eq pun hsegments helements hv hne
  have hfree : (0 : UInt8) ∉ unaHeader p ++ segmentsText p i.segments := by
    intro hmem
    rcases List.mem_append.1 hmem with hmem | hmem
    · exact hp.header_nulFree hmem
    · exact hp.fits.segmentsText_nulFree hi.filled hmem
  obtain ⟨buf, m, hbuild, hget, hbytes⟩ := ediInterchangeBuild_text pun i
    (some p) mem buflen hp.trailerOk
    (by rw [Option.getD_some, hops, run_puts, List.nil_append])
    (by rw [Option.getD_some, hops, peak_puts]; omega) hfree
  obtain ⟨d, hd, hfields, hparser⟩ := hp.detected hbytes
  have hfound := (ediDetect_preset hlib m).trans hd
  have hskip : m.bytes.drop 9 = segmentsText p i.segments := by
    rw [hbytes]
    exact List.drop_left' rfl
  obtain ⟨j, hparse, hread, htags⟩ := hp.fits.parse_segmentsText hp.newline
    hi.filled hdetect hfound hparser hskip
  refine ⟨buf, m, d, j, hbuild, hget, hbytes, hfound, hfields, hparse, ?_⟩
  exact map_elements_tag htags (hread.trans (hi.read hp.fits))

/-- Separators of one's own choice. -/
def sampleParams : EdiParams :=
  { ediEdifactParams with
    segmentSeparator := '~'.toUInt8
    elementSeparator := '|'.toUInt8
    subelementSeparator := '^'.toUInt8
    tagSeparator := '|'.toUInt8
    escape := '!'.toUInt8 }

theorem sampleParams_una : UnaParams sampleParams where
  version := by decide
  ssName := rfl
  ssTrailer := rfl
  tag := rfl
  distinct := by decide
  bytes := forall_mem_of_all (by decide)

theorem parse_build_una_sample :
    ∃ (buf : Buffer UInt8) (m : CString) (d : EdiParams) (j : EdiInterchange),
      ediInterchangeBuild (fun _ => .ofBytes []) sampleInterchange
        (some sampleParams) (fun _ => 0) 100 = some (buf, m.strlen) ∧
      m.get = buf.mem ∧
      m.bytes = unaHeader sampleParams ++
        segmentsText sampleParams sampleInterchange.segments ∧
      (ediDetect (ediInit EdiLib.start).detectparams m).found = some (d, 9) ∧
      (∀ f ∈ separatorFields, f d = f sampleParams) ∧
      ediParserParse (ediInit EdiLib.start)
          (ediParserCreate EdiLib.start none).2 m
        = ((ediParserCreate EdiLib.start none).2, some j) ∧
      j.segments.map (fun x => (x.elements, x.tag))
        = sampleInterchange.segments.map fun x =>
          (x.elements, (segmentValues x.elements).head?.map (·.value)) :=
  parse_build_una ediInit_hasPresets rfl _ sampleInterchange_readable
    sampleParams_una rfl rfl (by decide) _ (by decide +kernel)

end Libedi
