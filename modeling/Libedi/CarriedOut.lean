import Libedi.Balanced
import Libedi.ConvertText
import Libedi.Exceptions

/-!
# Conversions that come to their end

A conversion without a charset comes to its end if the converter does not go astray,
no error is written as a comment, and `output` has room for each text, or formats it
without arguments.  `edi2xmlConv_returns_iff` says this of a text, with complete
tables, and `convLoop_nested_iff` of an interchange with nested service segments,
whose output has nested tags then.
-/

namespace Libedi

open Tags

section Ends

variable {σ : Type} (lib : Iconv σ) (heap : Realloc) (opts : Edi2xmlConfig)
  {all : EdistructAll} {g : Globals σ}

/-- The loop of `edi2xml_conv` writes nested tags, for an interchange with nested
service tags, exactly if its steps can be done.  With tables that have entries, a
composite with children for each composite child, and an element in each segment,
they can be if no error is written as a comment and each call of `output` works. -/
theorem convLoop_nested_iff (hoff : g.conv = .off) (hgone : g.outbuf ≠ .gone)
    {segs : List EdiSegment} (htags : ∀ seg ∈ segs, seg.tag ≠ none)
    (hservice : Nested (serviceTags segs)) :
    ((∃ k more xs, g.convLoop lib heap opts all segs = .returns k () ∧
        k.outbuf.texts = g.outbuf.texts ++ more ∧
        more.flatten = xs.flatMap Xml.render ∧
        xs = written (convSegments opts all segs) ∧ Nested (xmlTags xs)) ↔
      Carried opts g.outbuf (convSegments opts all segs)) ∧
    (FilledTables all → CompositesKnown all →
      (∀ seg ∈ segs, seg.elements ≠ []) →
      (Carried opts g.outbuf (convSegments opts all segs) ↔
        (opts.commentsErrors = true → errors (convSegments opts all segs) = []) ∧
          g.outbuf.Takes (outputs (convSegments opts all segs)))) := by
  obtain ⟨hends, hwrites⟩ := convLoop_off lib heap opts all hoff segs
  refine ⟨⟨?_, ?_⟩, fun hfilled hknown helements => ?_⟩
  · rintro ⟨k, more, xs, hrun, -⟩
    exact hends.1 ⟨k, hrun⟩
  · intro hcarried
    obtain ⟨k, hrun⟩ := hends.2 hcarried
    refine ⟨k, _, _, hrun, ?_, flatten_outputs _, rfl,
      nested_written opts all htags hservice⟩
    rw [hwrites k hrun, Outbuf.texts_append hgone]
  · have hnoFault : NoFault (convSegments opts all segs) :=
      noFault_convSegments opts hfilled hknown fun seg hseg =>
        ⟨htags seg hseg, helements seg hseg⟩
    exact ⟨fun hc => ⟨hc.noError, hc.takes⟩, fun hc => ⟨hnoFault, hc.1, hc.2⟩⟩

end Ends

/-! ## Conversions that do not -/

/-- How a function went astray. -/
def Exit.crash {σ α : Type} : Exit σ α → Option Crash
  | .crashed c => some c
  | _ => none

/-- Two terminators in a row. -/
def emptySegmentText : CString := .ofBytes (ascii "UNB+1''") (by decide)

/-- A value that does not fit the first 1024 bytes of a buffer. -/
def longValue : EdiValue := .ofBytes (List.replicate 1024 'x'.toUInt8)

/-- `UNB+1'BGM+` with the long value. -/
def longValueText : CString :=
  .ofBytes (ascii "UNB+1'BGM+" ++ longValue.value ++ ascii "'") (by decide +kernel)

/-- The variables behind `output_init`. -/
def initGlobals : Globals Unit := (Globals.start Unit EdiLib.start).outputInit

/-- An interchange with these elements in its second segment. -/
def bgmSegments (elements : List EdiElement) : List EdiSegment :=
  [⟨[.simple (.ofBytes (ascii "UNB"))], some (ascii "UNB"), 0⟩,
    ⟨.simple (.ofBytes (ascii "BGM")) :: elements, some (ascii "BGM"), 4⟩,
    ⟨[.simple (.ofBytes (ascii "UNZ"))], some (ascii "UNZ"), 12⟩]

/-- The closing tag of an element with a long value is not written. -/
theorem convLoop_longValue_fails :
    (∀ seg ∈ bgmSegments [.simple longValue], seg.tag ≠ none ∧
      seg.elements ≠ []) ∧
    Nested (serviceTags (bgmSegments [.simple longValue])) ∧
    FilledTables sampleTables ∧ CompositesKnown sampleTables ∧
    (initGlobals.convLoop asciiIconv sampleHeap plainConfig sampleTables
      (bgmSegments [.simple longValue])).crash = some .format := by
  refine ⟨?_, by decide +kernel, sampleTables_filled,
    sampleTables_known.toCompositesKnown, by decide +kernel⟩
  simp [bgmSegments]

/-- A message in an interchange, with segments that are not in the tables. -/
theorem convLoop_nested_unb :
    ∃ k more xs, initGlobals.convLoop asciiIconv sampleHeap
        ⟨true, true, true, false, true, true⟩ sampleTables
        (bgmSegments [.simple (.ofBytes (ascii "a<b"))]) = .returns k () ∧
      k.outbuf.texts = initGlobals.outbuf.texts ++ more ∧
      more.flatten = xs.flatMap Xml.render ∧
      xs = written (convSegments ⟨true, true, true, false, true, true⟩ sampleTables
        (bgmSegments [.simple (.ofBytes (ascii "a<b"))])) ∧
      Nested (xmlTags xs) := by
  have hcarried : (emitSteps ⟨true, true, true, false, true, true⟩ (.buffer [])
      (convSegments ⟨true, true, true, false, true, true⟩ sampleTables
        (bgmSegments [.simple (.ofBytes (ascii "a<b"))]))).isSome = true := by
    decide +kernel
  obtain ⟨out, hout⟩ := Option.isSome_iff_exists.1 hcarried
  exact (convLoop_nested_iff asciiIconv sampleHeap _ rfl
    (by simp [initGlobals, Globals.outputInit]) (by simp [bgmSegments])
    (by decide +kernel)).1.2
    (emitSteps_eq_some_iff.1 hout).1

end Libedi
