import Libedi.Conforming
import Libedi.ConvertText
import Libedi.Exceptions
import Libedi.OutputDocument
import Libedi.RoundTrip

/-!
# From an interchange to a document

An interchange in memory is written by the builder, converted by `edi2xml_conv2`
and read by a reader of XML.  What the reader finds are the values of the
interchange, each under the title of its place in the directory
(`edi2xmlConv2_built`).
-/

namespace Libedi

open Tags (OneRoot)
open BoundedOutput XmlReader

/-! ## Conforming interchanges -/

/-- The segment has a structure in the directory, and its data elements fit. -/
inductive ConformingSegment (all : EdistructAll) (x : EdiSegment) : Prop where
  | intro (v : EdiValue) (es : List EdiElement) (s : EdistructSegment)
      (helements : x.elements = .simple v :: es)
      (hs : findEdistructSegment all v.value = some (some s))
      (hconforms : ConformingElements all s.children es)

/-- What a conforming segment hands over: its values, position by position. -/
def segmentCalls (all : EdistructAll) (x : EdiSegment) : List (Bytes × Bytes) :=
  match x.elements with
  | .simple v :: es =>
    match findEdistructSegment all v.value with
    | some (some s) =>
      (s.children.zip es).flatMap fun x => callsFor all x.1 x.2
    | _ => []
  | _ => []

/-- A segment as the parser makes it. -/
def EdiSegment.parsed (x : EdiSegment) : EdiSegment :=
  ⟨x.elements, (segmentValues x.elements).head?.map (·.value), 0⟩

section Conforming

variable (opts : Edi2xmlConfig) {all : EdistructAll}

theorem parsed_tag {x : EdiSegment} {v : EdiValue} {es : List EdiElement}
    (helements : x.elements = .simple v :: es) :
    x.parsed.tag = some v.value := by
  simp [EdiSegment.parsed, helements, segmentValues, EdiElement.values]

/-- The offset is not looked at. -/
theorem convSegments_congr {segs segs' : List EdiSegment}
    (h : segs.map (fun x => (x.elements, x.tag))
      = segs'.map fun x => (x.elements, x.tag)) :
    convSegments opts all segs = convSegments opts all segs' := by
  have hpairs : ∀ l : List EdiSegment, convSegments opts all l
      = (l.map fun x => (x.elements, x.tag)).flatMap fun p =>
        convSegment opts all ⟨p.1, p.2, 0⟩ := by
    intro l
    rw [List.flatMap_map]
    rfl
  rw [hpairs, hpairs, h]

/-- A conforming segment hands over its values, position by position. -/
theorem handed_convSegment_conforming (h : ChildrenKnown all) {x : EdiSegment}
    (hx : ConformingSegment all x) :
    handed (convSegment opts all x.parsed) = segmentCalls all x := by
  obtain ⟨v, es, s, helements, hs, hconforms⟩ := hx
  have htag := parsed_tag helements
  have hknown := h.codesKnown (BinarySearch.find_sound hs).1
  have hdata : dataElements v.value x.parsed.elements = es := by
    rw [show x.parsed.elements = x.elements from rfl, helements, dataElements,
      if_pos rfl]
  obtain ⟨-, hchildren, hnil, -⟩ :=
    childrenToXml_rendered opts hknown.element hknown.composite hconforms
  have hextra : extraData opts v.value
      (childrenToXml opts all s.children es).2 = [] := by
    rw [hnil]
    rfl
  have hhanded : handed (segmentToXml opts all x.parsed)
      = (s.children.zip es).flatMap fun x => callsFor all x.1 x.2 := by
    rw [segmentToXml_known opts htag hs (by simp [EdiSegment.parsed, helements]),
      hdata, hextra]
    simp [hchildren]
  have hheader : handed (if v.value = ascii "UNH" then
      parseMessageHeader opts x.parsed else []) = [] := by
    split_ifs
    · exact handed_parseMessageHeader opts x.parsed
    · rfl
  simp only [convSegment, htag, handed_append, handed_outIf, hheader,
    List.nil_append, List.append_nil]
  rw [hhanded, segmentCalls, helements]
  simp only [hs]

theorem handed_convSegments_conforming (h : ChildrenKnown all)
    {xs : List EdiSegment} (hxs : ∀ x ∈ xs, ConformingSegment all x) :
    handed (convSegments opts all (xs.map EdiSegment.parsed))
      = xs.flatMap (segmentCalls all) := by
  induction xs with
  | nil => rfl
  | cons x xs ih =>
    rw [List.forall_mem_cons] at hxs
    rw [List.map_cons, convSegments, List.flatMap_cons, handed_append,
      handed_convSegment_conforming opts h hxs.1, List.flatMap_cons]
    exact congrArg _ (ih hxs.2)

end Conforming

/-! ## Converting without a charset -/

section Run

variable {σ : Type} {lib : Iconv σ} {heap : Realloc} {opts : Edi2xmlConfig}
  {all : EdistructAll}

/-- `edi2xml_conv2` without an encoding comes back exactly if its steps can be done,
with the text of the document if there is one. -/
theorem edi2xmlConv2_off {g : Globals σ} {ediText : CString}
    {ichg : EdiInterchange}
    (hparse : (ediParserParse (ediInit g.edi)
      (ediParserCreate g.edi none).2 ediText).2 = some ichg) :
    ((∃ g' r, g.edi2xmlConv2 lib heap opts all ediText none = .returns g' r) ↔
      Carried opts (.buffer []) (convSegments opts all ichg.segments)) ∧
    ∀ g' r, g.edi2xmlConv2 lib heap opts all ediText none = .returns g' r →
      ((written (convSegments opts all ichg.segments)).flatMap Xml.render ≠ [] →
        ∃ texts, r = some texts ∧ texts.flatten
          = (written (convSegments opts all ichg.segments)).flatMap
            Xml.render) := by
  have hconv2 : g.edi2xmlConv2 lib heap opts all ediText none
      = (g.outputInit.edi2xmlConv lib heap opts all ediText).bind fun g rc =>
        g.outputShutdown.takeBuffer rc := rfl
  have hreturns : Returns opts g.outputInit ediText
      (messageOutcome lib heap opts all .off (.buffer []) g.edi ediText) _ :=
    returns_edi2xmlConv lib heap opts all g.outputInit ediText
  obtain ⟨offset, houtcome⟩ := @segmentsOutcome_off σ lib heap opts all
    (.buffer []) 0 ichg.segments
  rw [messageOutcome, hparse, Option.map_some, houtcome, emitOutcome] at hreturns
  rw [hconv2]
  cases hemit : emitSteps opts (.buffer [])
      (convSegments opts all ichg.segments) with
  | none =>
    rw [hemit] at hreturns
    obtain ⟨c, hc, -⟩ := hreturns
    rw [hc]
    refine ⟨iff_of_false ?_ fun hcarried => ?_, fun g' r h => by cases h⟩
    · rintro ⟨g', r, h⟩
      cases h
    · have hsome := emitSteps_eq_some_iff.2 ⟨hcarried, rfl⟩
      rw [hemit] at hsome
      cases hsome
  | some out =>
    obtain ⟨hcarried, rfl⟩ := emitSteps_eq_some_iff.1 hemit
    rw [hemit] at hreturns
    obtain ⟨conv, hc, hconv⟩ := hreturns
    obtain rfl : conv = .off := hconv fun cd => by simp [Globals.outputInit]
    rw [hc]
    refine ⟨iff_of_true ⟨_, _, rfl⟩ hcarried, fun g' r h hne => ?_⟩
    obtain ⟨-, rfl⟩ := Exit.returns.inj h
    have htexts := flatten_outputs (convSegments opts all ichg.segments)
    cases hmore : (outputs (convSegments opts all ichg.segments)).map
        OutputCall.text with
    | nil =>
      rw [hmore] at htexts
      exact absurd htexts.symm hne
    | cons text more =>
      rw [hmore] at htexts
      exact ⟨text :: more, rfl, htexts⟩

end Run

/-! ## There and back -/

section Built

variable {all : EdistructAll}

/-- What is handed over at a child is in the table of data elements. -/
theorem callsFor_known (h : ChildrenKnown all) {s : EdistructSegment}
    (hs : s ∈ all.segs) {child : EdistructChild} (hchild : child ∈ s.children)
    (e : EdiElement) {c : Bytes × Bytes} (hc : c ∈ callsFor all child e) :
    ∃ el, findEdistructElement all c.1 = some (some el) := by
  unfold callsFor at hc
  split_ifs at hc with hkind
  · obtain ⟨x, hx, rfl⟩ := List.mem_map.1 hc
    obtain ⟨comp, hcomp⟩ := h.composite s hs child hchild hkind
    have hmem := (List.of_mem_zip (List.mem_of_mem_filter hx)).1
    rw [componentsOf, hcomp] at hmem
    exact h.components comp (BinarySearch.find_sound hcomp).1 x.1 hmem
  · obtain ⟨v, -, rfl⟩ := List.mem_map.1 hc
    exact h.element s hs child hchild (by simpa using hkind)

/-- A value that is known is shown, unless values are translated. -/
theorem flatMap_shownAs_values {opts : Edi2xmlConfig}
    (htranslate : opts.translateCodedValues = false)
    {calls : List (Bytes × Bytes)}
    (h : ∀ c ∈ calls, ∃ e, findEdistructElement all c.1 = some (some e)) :
    (calls.flatMap (shownAs opts all)).map Prod.snd = calls.map Prod.snd := by
  induction calls with
  | nil => rfl
  | cons c calls ih =>
    rw [List.forall_mem_cons] at h
    obtain ⟨e, he⟩ := h.1
    have hshown : shownAs opts all c = [(ascii "E:" ++ e.title2, c.2)] := by
      simp [shownAs, he, htranslate]
    rw [List.flatMap_cons, hshown, List.map_append, ih h.2]
    rfl

/-- What a conforming segment hands over is in the table of data elements. -/
theorem segmentCalls_known (h : ChildrenKnown all) {x : EdiSegment}
    {c : Bytes × Bytes} (hc : c ∈ segmentCalls all x) :
    ∃ el, findEdistructElement all c.1 = some (some el) := by
  unfold segmentCalls at hc
  split at hc
  · split at hc
    · next s hs =>
      obtain ⟨p, hp, hc⟩ := List.mem_flatMap.1 hc
      exact callsFor_known h (BinarySearch.find_sound hs).1
        (List.of_mem_zip hp).1 p.2 hc
    · exact absurd hc List.not_mem_nil
  · exact absurd hc List.not_mem_nil

/-- What a segment is for the converter, if it conforms and is in ASCII. -/
theorem ConformingSegment.xmlData {opts : Edi2xmlConfig} (hxml : XmlTables all)
    {x : EdiSegment} (hx : ConformingSegment all x)
    (hbytes : ValueBytes x.elements) :
    XmlData opts x.parsed ∧ x.parsed.tag ≠ none := by
  obtain ⟨v, es, s, helements, hs, -⟩ := hx
  have htag := parsed_tag helements
  obtain ⟨hmem, heq⟩ := BinarySearch.find_sound hs
  refine ⟨⟨?_, hbytes, ?_⟩, by simp [htag]⟩
  · show x.elements ≠ []
    simp [helements]
  · intro _ tag ht
    rw [htag] at ht
    obtain rfl := Option.some.inj ht
    rw [strcmp_eq_iff.1 heq]
    exact (hxml.segs s hmem).name

/-- There is something in a document. -/
theorem ne_nil_of_read {doc : Bytes} {events : List XmlTree.XmlEvent}
    (h : XmlReader.read doc = some events) : doc ≠ [] := by
  rintro rfl
  have hnone : XmlReader.read [] = none := by decide
  rw [hnone] at h
  cases h

/-- `output` has room for each text of the document of an interchange, or formats it
without arguments, and no error is to be written as a comment. -/
def Printable (opts : Edi2xmlConfig) (all : EdistructAll) (i : EdiInterchange) :
    Prop :=
  (opts.commentsErrors = true →
    errors (convSegments opts all (i.segments.map EdiSegment.parsed)) = []) ∧
  OutputsFit 0 (outputs (convSegments opts all (i.segments.map EdiSegment.parsed)))

instance (opts : Edi2xmlConfig) (all : EdistructAll) (i : EdiInterchange) :
    Decidable (Printable opts all i) :=
  inferInstanceAs (Decidable (_ ∧ _))

/-- An interchange that can be written, converted and read: it starts with `UNB`,
conforms to the directory, and its tags make one element. -/
structure Convertible (all : EdistructAll) (i : EdiInterchange) : Prop where
  readable : i.Readable
  first : ∃ x ss es, i.segments = x :: ss ∧
    x.elements = .simple (.ofBytes (ascii "UNB")) :: es
  conforms : ∀ x ∈ i.segments, ConformingSegment all x
  bytes : ∀ x ∈ i.segments, ValueBytes x.elements
  root : OneRoot (i.segments.flatMap fun x => segmentOutline all x.parsed)
  fine : ∀ c ∈ i.segments.flatMap (segmentCalls all), FineText c.2

section Convertible

variable {i : EdiInterchange} (hi : Convertible all i)

include hi

/-- The segments, as the parser makes them, can be converted. -/
theorem Convertible.xmlData (opts : Edi2xmlConfig) (hxml : XmlTables all) :
    ∀ seg ∈ i.segments.map EdiSegment.parsed,
      XmlData opts seg ∧ seg.tag ≠ none :=
  List.forall_mem_map.2 fun x hx =>
    (hi.conforms x hx).xmlData hxml (hi.bytes x hx)

/-- All that is shown is fine. -/
theorem Convertible.shown (opts : Edi2xmlConfig) :
    ∀ x ∈ (i.segments.flatMap (segmentCalls all)).flatMap (shownAs opts all),
      FineText x.2 := by
  intro x hx
  obtain ⟨c, hc, hx⟩ := List.mem_flatMap.1 hx
  have heq : x.2 = c.2 := by
    unfold shownAs at hx
    split at hx
    · split_ifs at hx
      · exact absurd hx List.not_mem_nil
      · rw [List.mem_singleton.1 hx]
    · exact absurd hx List.not_mem_nil
  rw [heq]
  exact hi.fine c hc

/-- The text of the interchange is read by the parser. -/
theorem Convertible.parsed {lib : EdiLib} (hlib : lib.HasPresets)
    {oparser : EdiParser} (hdetect : oparser.detect = 1) {m : CString}
    (hm : m.bytes = segmentsText ediDefaultParams i.segments) :
    ∃ j, ediParserParse lib oparser m = (oparser, some j) ∧
      ∀ opts, convSegments opts all j.segments
        = convSegments opts all (i.segments.map EdiSegment.parsed) := by
  have hspeaks := edifactSeparators_speaks
  have hstart : ascii "UNB" <+: segmentsText ediDefaultParams i.segments := by
    obtain ⟨x, ss, es, hsegments, helements⟩ := hi.first
    rw [hsegments]
    exact prefix_segmentsText rfl hspeaks.plain helements ss
  obtain ⟨d, hd, -, hparser⟩ := hspeaks.detected m (hm ▸ hstart)
  obtain ⟨j, hparse, helements, htags⟩ := hspeaks.fits.parse_segmentsText
    hspeaks.newline hi.readable.filled hdetect ((ediDetect_preset hlib m).trans hd)
    hparser hm
  have hread := map_elements_tag htags
    (helements.trans (hi.readable.read hspeaks.fits))
  refine ⟨j, hparse, fun opts => ?_⟩
  refine convSegments_congr opts (hread.trans ?_)
  rw [List.map_map]
  rfl

/-- The text of the interchange is converted exactly if `output` can do it, and then
the document is read. -/
theorem Convertible.converted {σ : Type} (lib : Iconv σ) (heap : Realloc)
    (opts : Edi2xmlConfig) (hloaded : LoadedTables all) (hxml : XmlTables all)
    (g : Globals σ) (hlib : (ediInit g.edi).HasPresets) {m : CString}
    (hm : m.bytes = segmentsText ediDefaultParams i.segments) :
    ((∃ g' r, g.edi2xmlConv2 lib heap opts all m none = .returns g' r) ↔
      Printable opts all i) ∧
    ∀ g' r, g.edi2xmlConv2 lib heap opts all m none = .returns g' r →
      ∃ (texts : List Bytes) (events : List XmlTree.XmlEvent),
        r = some texts ∧ XmlReader.read texts.flatten = some events ∧
        (leaves events).filter (fun x => isElementName x.1)
          = (i.segments.flatMap (segmentCalls all)).flatMap
            (shownAs opts all) := by
  have hknown := hloaded.childrenKnown
  obtain ⟨j, hparse, hsame⟩ := hi.parsed hlib
    (show (ediParserCreate g.edi none).2.detect = 1 from rfl) hm
  have hdata := hi.xmlData opts hxml
  have hhanded := handed_convSegments_conforming opts hknown hi.conforms
  obtain ⟨hiff, hleaves⟩ :=
    (writesOutlined_convSegments opts hxml hdata).read
  rw [hhanded, List.flatMap_map] at hiff
  rw [hhanded] at hleaves
  obtain ⟨events, hevents⟩ :=
    Option.isSome_iff_exists.1 (hiff.2 ⟨hi.root, hi.shown opts⟩)
  have hsteps : NoFault (convSegments opts all
      (i.segments.map EdiSegment.parsed)) :=
    noFault_convSegments opts hloaded.filled hknown.toCompositesKnown
      fun seg hseg => ⟨(hdata seg hseg).2, (hdata seg hseg).1.elements⟩
  obtain ⟨hends, htexts⟩ := @edi2xmlConv2_off σ lib heap opts all g m j
    (by rw [hparse])
  rw [hsame] at hends htexts
  refine ⟨hends.trans ⟨fun h => ⟨h.noError, h.takes⟩,
    fun h => ⟨hsteps, h.1, h.2⟩⟩, fun g' r hconv => ?_⟩
  obtain ⟨texts, hr, hflat⟩ := htexts g' r hconv (ne_nil_of_read hevents)
  exact ⟨texts, events, hr, hflat ▸ hevents, hleaves events hevents⟩

end Convertible

end Built

/-! ## A small directory -/

/-- The segments of `UNB` and `UNZ`, beside those of the small directory. -/
def documentTables : EdistructAll :=
  { sampleTables with
    segs := sampleTables.segs ++
      [⟨ascii "UNB", ascii "Header", ascii "Header", ascii "h",
        [⟨'M'.toUInt8, ascii "1004"⟩]⟩,
      ⟨ascii "UNZ", ascii "Trailer", ascii "Trailer", ascii "t",
        [⟨'C'.toUInt8, ascii "1004"⟩]⟩] }

theorem documentTables_xml : XmlTables documentTables where
  segs := by
    refine List.forall_mem_append.2 ⟨sampleTables_xml.segs, ?_⟩
    refine List.forall_mem_cons.2 ⟨⟨forall_mem_of_all (by decide),
      commentText_of_all (by decide), List.forall_mem_singleton.2
        (commentText_of_all (by decide))⟩, ?_⟩
    exact List.forall_mem_singleton.2 ⟨forall_mem_of_all (by decide),
      commentText_of_all (by decide), List.forall_mem_singleton.2
        (commentText_of_all (by decide))⟩
  comps := sampleTables_xml.comps
  elems := sampleTables_xml.elems
  codes := sampleTables_xml.codes

theorem documentTables_loaded : LoadedTables documentTables where
  filled := by constructor <;> simp [documentTables, sampleTables]
  segs := by
    simp only [documentTables, sampleTables, SortedBy, List.cons_append,
      List.nil_append, List.pairwise_cons, List.mem_cons, List.not_mem_nil,
      or_false, forall_eq_or_imp, forall_eq, false_implies, implies_true,
      and_true, List.Pairwise.nil]
    decide +kernel
  comps := sampleTables_loaded.comps
  elems := sampleTables_loaded.elems
  composite := by
    intro s hs child hchild hkind
    rcases List.mem_append.1 hs with hs | hs
    · exact sampleTables_loaded.composite s hs child hchild hkind
    · have hcode : child.code = ascii "1004" := by
        simp only [List.mem_cons, List.not_mem_nil, or_false] at hs
        rcases hs with rfl | rfl <;> rw [List.mem_singleton.1 hchild]
      rw [EdistructChild.isComposite, hcode] at hkind
      exact absurd hkind (by decide)
  element := by
    intro s hs child hchild hkind
    rcases List.mem_append.1 hs with hs | hs
    · exact sampleTables_loaded.element s hs child hchild hkind
    · have hcode : child.code = ascii "1004" := by
        simp only [List.mem_cons, List.not_mem_nil, or_false] at hs
        rcases hs with rfl | rfl <;> rw [List.mem_singleton.1 hchild]
      rw [hcode]
      exact ⟨_, List.mem_cons_self, rfl⟩
  components := sampleTables_loaded.components
  nonempty := sampleTables_loaded.nonempty

/-- `UNB+a<b'BGM+7+x:1'UNZ+9'`. -/
def documentInterchange : EdiInterchange :=
  ⟨[⟨[.simple (.ofBytes (ascii "UNB")), .simple (.ofBytes (ascii "a<b"))],
      none, 0⟩,
    ⟨[.simple (.ofBytes (ascii "BGM")), .simple (.ofBytes (ascii "7")),
      .composite [.ofBytes (ascii "x"), .ofBytes (ascii "1")]], none, 0⟩,
    ⟨[.simple (.ofBytes (ascii "UNZ")), .simple (.ofBytes (ascii "9"))],
      none, 0⟩]⟩

theorem documentInterchange_readable : documentInterchange.Readable where
  typed := by decide
  strings := by
    simp only [documentInterchange, List.forall_mem_cons, EdiValue.IsString]
    decide
  composites := by
    simp [documentInterchange]
  last := by decide
  first := by decide

/-- The segments of the directory are found in it. -/
theorem documentTables_find {s : EdistructSegment}
    (hs : s ∈ documentTables.segs) :
    findEdistructSegment documentTables s.name = some (some s) :=
  find_present documentTables_loaded.segs hs

theorem documentInterchange_conforming :
    ∀ x ∈ documentInterchange.segments, ConformingSegment documentTables x := by
  have hcomposite : findEdistructComposite documentTables (ascii "C106")
      = some (some _) :=
    @find_present _ EdistructSegment.name _ (List.pairwise_singleton _ _) _
      List.mem_cons_self
  simp only [documentInterchange, List.forall_mem_cons, List.not_mem_nil,
    false_implies, implies_true, and_true]
  refine ⟨.intro _ _ _ rfl (documentTables_find (List.mem_cons_of_mem _
      List.mem_cons_self)) ⟨by decide, ?_, by simp⟩,
    .intro _ _ _ rfl (documentTables_find List.mem_cons_self)
      ⟨by decide, ?_, by simp⟩,
    .intro _ _ _ rfl (documentTables_find (List.mem_cons_of_mem _
      (List.mem_cons_of_mem _ List.mem_cons_self))) ⟨by decide, ?_, by simp⟩⟩
  · exact List.forall_mem_singleton.2 (.simple (by decide) _)
  · exact List.forall_mem_cons.2 ⟨.simple (by decide) _,
      List.forall_mem_singleton.2 (.composite (by decide) hcomposite
        (by decide))⟩
  · exact List.forall_mem_singleton.2 (.simple (by decide) _)

theorem documentInterchange_convertible :
    Convertible documentTables documentInterchange where
  readable := documentInterchange_readable
  first := ⟨_, _, _, rfl, rfl⟩
  conforms := documentInterchange_conforming
  bytes := forall_mem_of_all (by decide +kernel)
  root := by decide +kernel
  fine := forall_mem_of_all (by decide +kernel)

end Libedi
