import Libedi.ConvertSteps
import Libedi.ParseErrors
import Libedi.Rebuild

/-!
# Converting a text

`edi2xml_conv` of `libedixml/conv.c`, without a conversion of charsets.  The
text is parsed by a parser that was made without parameters, and the segments
are converted one by one.

An empty segment has no tag, and `edi2xml_conv` compares the tag of every segment
with the service tags.  `edi2xmlConv_noFault_iff` says that this is all that can go
wrong in the converter itself with complete tables.
-/

namespace Libedi

/-- `edi2xml_conv`: the steps of the loop, `none` if the text is not parsed and
`-1` is returned at once. -/
def edi2xmlConv (opts : Edi2xmlConfig) (all : EdistructAll) (lib : EdiLib)
    (ediText : CString) : Option (List Step) :=
  let (lib, p) := ediParserCreate lib none
  (ediParserParse lib p ediText).2.map fun ichg =>
    convSegments opts all ichg.segments

/-- Tables that are complete: not empty, in the order of their keys, with an
entry for each code of a child, and with a child for each composite. -/
structure LoadedTables (all : EdistructAll) : Prop where
  filled : FilledTables all
  segs : SortedBy EdistructSegment.name all.segs
  comps : SortedBy EdistructSegment.name all.comps
  elems : SortedBy EdistructElement.name all.elems
  composite : ∀ s ∈ all.segs, ∀ child ∈ s.children, child.isComposite = true →
    ∃ c ∈ all.comps, c.name = child.code
  element : ∀ s ∈ all.segs, ∀ child ∈ s.children, child.isComposite = false →
    ∃ e ∈ all.elems, e.name = child.code
  components : ∀ c ∈ all.comps, ∀ child ∈ c.children,
    ∃ e ∈ all.elems, e.name = child.code
  nonempty : ∀ c ∈ all.comps, c.children ≠ []

/-- What is in a sorted table is found there. -/
theorem LoadedTables.childrenKnown {all : EdistructAll} (h : LoadedTables all) :
    ChildrenKnown all where
  composite := by
    intro s hs child hchild hkind
    obtain ⟨c, hc, hname⟩ := h.composite s hs child hchild hkind
    rw [← hname]
    exact ⟨c, find_present h.comps hc⟩
  element := by
    intro s hs child hchild hkind
    obtain ⟨e, he, hname⟩ := h.element s hs child hchild hkind
    rw [← hname]
    exact ⟨e, find_present h.elems he⟩
  components := by
    intro c hc child hchild
    obtain ⟨e, he, hname⟩ := h.components c hc child hchild
    rw [← hname]
    exact ⟨e, find_present h.elems he⟩
  nonempty := h.nonempty

/-- A raw segment is empty exactly if its segment has no tag, and then there are
no elements either. -/
theorem segmentOf_tag_eq_none {p : EdiParser} {s : RawSegment}
    (h : ∀ x ∈ s.pieces.dropLast, x.Continues p) :
    (segmentOf p s).tag = none ↔ s.pieces = [] := by
  rw [segmentOf_tag h, Option.map_eq_none_iff, List.head?_eq_none_iff]

theorem segmentOf_elements_ne_nil {p : EdiParser} {s : RawSegment}
    (h : ∀ x ∈ s.pieces.dropLast, x.Continues p) (hne : s.pieces ≠ []) :
    (segmentOf p s).elements ≠ [] := by
  intro hnil
  have hvalues := assemble_values h []
  rw [if_pos rfl, ← segmentOf_elements, hnil] at hvalues
  exact hne (List.map_eq_nil_iff.1 hvalues.symm)

/-- With complete tables no null pointer is passed as a tag, and nothing is read
behind the elements of a segment, exactly if the text has no empty segment. -/
theorem edi2xmlConv_noFault_iff (opts : Edi2xmlConfig) {all : EdistructAll}
    (h : LoadedTables all) (lib : EdiLib) (ediText : CString) :
    (∀ steps, edi2xmlConv opts all lib ediText = some steps → NoFault steps) ↔
      ∀ s ∈ (messageSegments (ediInit lib) ediText).2, s.pieces ≠ [] := by
  have hconv : edi2xmlConv opts all lib ediText
      = (ediParserParse (ediInit lib) (ediParserCreate lib none).2 ediText).2.map
        fun ichg => convSegments opts all ichg.segments := rfl
  rw [hconv]
  cases hparse : (ediParserParse (ediInit lib) (ediParserCreate lib none).2
      ediText).2 with
  | none =>
    cases hfound : (ediDetect (ediInit lib).detectparams ediText).found with
    | none => simp [messageSegments, hfound]
    | some r =>
      rw [ediParserParse_detected (ediParserCreate_fields lib none).1 hfound]
        at hparse
      simp at hparse
  | some ichg =>
    obtain ⟨p, total, m, -, hmessage, hsegments⟩ := segments_of_parse rfl hparse
    have hcontinues := rawSegments_continues p total m
    rw [hmessage, Option.map_some, hsegments]
    constructor
    · intro hsafe s hs hnil
      have htag := (segmentOf_tag_eq_none (hcontinues s hs)).2 hnil
      refine hsafe _ rfl .nullTag ?_
      refine List.mem_flatMap.2 ⟨segmentOf p s, List.mem_map_of_mem hs, ?_⟩
      simp [convSegment, htag]
    · rintro hpieces steps hsteps
      obtain rfl := Option.some.inj hsteps
      refine noFault_convSegments opts h.filled
        h.childrenKnown.toCompositesKnown ?_
      rw [List.forall_mem_map]
      intro s hs
      have hne := hpieces s hs
      exact ⟨fun htag => hne ((segmentOf_tag_eq_none (hcontinues s hs)).1 htag),
        segmentOf_elements_ne_nil (hcontinues s hs) hne⟩

theorem sampleTables_loaded : LoadedTables sampleTables where
  filled := sampleTables_filled
  segs := List.pairwise_singleton _ _
  comps := List.pairwise_singleton _ _
  elems := List.pairwise_pair.2 (by decide +kernel)
  composite := by
    intro s hs child hchild hkind
    obtain ⟨c, hc⟩ := sampleTables_known.composite s hs child hchild hkind
    obtain ⟨hmem, heq⟩ := BinarySearch.find_sound hc
    exact ⟨c, hmem, (strcmp_eq_iff.1 heq).symm⟩
  element := by
    intro s hs child hchild hkind
    obtain ⟨e, he⟩ := sampleTables_known.element s hs child hchild hkind
    obtain ⟨hmem, heq⟩ := BinarySearch.find_sound he
    exact ⟨e, hmem, (strcmp_eq_iff.1 heq).symm⟩
  components := by
    intro c hc child hchild
    obtain ⟨e, he⟩ := sampleTables_known.components c hc child hchild
    obtain ⟨hmem, heq⟩ := BinarySearch.find_sound he
    exact ⟨e, hmem, (strcmp_eq_iff.1 heq).symm⟩
  nonempty := sampleTables_known.nonempty

end Libedi
