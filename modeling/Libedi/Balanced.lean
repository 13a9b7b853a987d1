import Libedi.ConvertSteps
import Libedi.Lib.Tags

/-!
# Balanced output

The tags in the steps of `edi2xml_conv` are nested if the service segments of the
interchange are.  Each segment has a nested sequence, whatever its elements
and the tables are, and a service segment one more tag before or behind it
(`run_convSegment`).
-/

namespace Libedi

open Tags

/-! ## Tags -/

/-- The tags of the output.  An empty element opens and closes itself. -/
def xmlTags (xs : List Xml) : List (Tag Bytes) :=
  xs.flatMap fun
    | .openTag name _ => [.opening name]
    | .closeTag name => [.closing name]
    | .emptyTag name => [.opening name, .closing name]
    | _ => []

/-- What the service segments open and close. -/
inductive Service where
  | interchange
  | group
  | message
  deriving DecidableEq, Repr

/-- The element of the output. -/
def Service.xmlName : Service → Bytes
  | interchange => ascii "X:interchange"
  | group => ascii "X:group"
  | message => ascii "X:message"

/-- What a tag opens or closes: `UNB` and `UNZ`, `UNG` and `UNE`, `UNH` and
`UNT`. -/
def serviceTag (tag : Bytes) : List (Tag Service) :=
  if tag = ascii "UNB" then [.opening .interchange]
  else if tag = ascii "UNG" then [.opening .group]
  else if tag = ascii "UNH" then [.opening .message]
  else if tag = ascii "UNZ" then [.closing .interchange]
  else if tag = ascii "UNE" then [.closing .group]
  else if tag = ascii "UNT" then [.closing .message]
  else []

/-- The service tags of an interchange. -/
def serviceTags (segs : List EdiSegment) : List (Tag Service) :=
  segs.flatMap fun seg => seg.tag.elim [] serviceTag

@[simp] theorem xmlTags_nil : xmlTags [] = [] := rfl

@[simp] theorem xmlTags_append (xs ys : List Xml) :
    xmlTags (xs ++ ys) = xmlTags xs ++ xmlTags ys :=
  List.flatMap_append

@[simp] theorem xmlTags_comment (parts : List Part) (xs : List Xml) :
    xmlTags (.comment parts :: xs) = xmlTags xs := rfl

@[simp] theorem xmlTags_chars (parts : List Part) (xs : List Xml) :
    xmlTags (.chars parts :: xs) = xmlTags xs := rfl

@[simp] theorem xmlTags_newline (xs : List Xml) :
    xmlTags (newline :: xs) = xmlTags xs := rfl

@[simp] theorem xmlTags_openTag (name attrs : Bytes) (xs : List Xml) :
    xmlTags (.openTag name attrs :: xs) = .opening name :: xmlTags xs := rfl

@[simp] theorem xmlTags_closeTag (name : Bytes) (xs : List Xml) :
    xmlTags (.closeTag name :: xs) = .closing name :: xmlTags xs := rfl

variable (opts : Edi2xmlConfig) (all : EdistructAll)

/-! ## Segments -/

theorem nested_outIf_comment (c : Prop) [Decidable c] (parts : List Part)
    (xs : List Xml) (hxs : Nested (xmlTags xs)) :
    Nested (xmlTags (written (outIf c (.comment parts :: xs)))) := by
  rw [written_outIf]
  split
  · exact hxs
  · exact nested_nil

theorem nested_error (msg : Bytes) :
    Nested (xmlTags (written (error opts msg))) :=
  nested_outIf_comment _ _ [newline] nested_nil

/-- The text of a coded value, and what is written before it. -/
theorem nested_codedToXml (name val : Bytes) :
    Nested (xmlTags (written (codedToXml opts all name val).1)) ∧
      ∀ xs, (codedToXml opts all name val).2 = some xs →
        Nested (xmlTags xs) := by
  unfold codedToXml
  split
  · exact ⟨nested_nil, by simp⟩
  · exact ⟨nested_nil, by simp⟩
  · refine ⟨nested_outIf_comment _ _ [] nested_nil, ?_⟩
    intro xs hxs
    by_cases htranslate : opts.translateCodedValues = true
    · rw [if_pos htranslate, Option.some.injEq] at hxs
      subst hxs
      split
      · exact nested_nil.wrap _
      · exact nested_nil.wrap _
    · simp [htranslate] at hxs

theorem nested_elementToXml (name val : Bytes) :
    Nested (xmlTags (written (elementToXml opts all name val))) := by
  unfold elementToXml
  rw [written_element, written_append, xmlTags_append]
  refine (nested_outIf_comment _ _ [newline] nested_nil).append ?_
  split
  · exact nested_nil
  · exact nested_error opts _
  · next e he =>
    have hcoded := nested_codedToXml opts all name val
    generalize hr : (if e.isCoded = true then codedToXml opts all name val
      else ([], none)) = r
    have hbefore : Nested (xmlTags (written r.1)) := by
      rw [← hr]
      split
      · exact hcoded.1
      · exact nested_nil
    have htext : Nested (xmlTags (r.2.getD [.chars [.escaped val]])) := by
      cases hxs : r.2 with
      | none => exact nested_nil
      | some xs =>
        rw [← hr] at hxs
        split at hxs
        · exact hcoded.2 xs hxs
        · simp at hxs
    have hwrap := (hbefore.append htext).wrap (ascii "E:" ++ e.title2)
    simpa using hwrap

theorem nested_elementMissingXml (name : Bytes) :
    Nested (xmlTags (written (elementMissingXml opts all name))) := by
  unfold elementMissingXml
  split
  · split <;> exact nested_nil
  · exact nested_nil

theorem nested_componentsToXml (cs : List EdistructChild)
    (vs : List EdiValue) :
    Nested (xmlTags (written (componentsToXml opts all cs vs))) := by
  fun_induction componentsToXml opts all cs vs with
  | case1 vs => exact nested_nil
  | case2 c cs ih =>
    rw [written_append, xmlTags_append]
    exact (nested_elementMissingXml opts all c.code).append ih
  | case3 c cs v vs ih =>
    rw [written_append, xmlTags_append]
    refine Nested.append ?_ ih
    split
    · exact nested_elementToXml opts all c.code v.value
    · exact nested_elementMissingXml opts all c.code

theorem nested_compositeToXml (code : Bytes)
    (cstruct : Option EdistructComposite) (vs : List EdiValue) :
    Nested (xmlTags (written (compositeToXml opts all code cstruct vs))) := by
  unfold compositeToXml
  rw [written_append, xmlTags_append]
  refine (nested_outIf_comment _ _ [] nested_nil).append ?_
  cases cstruct with
  | none => exact nested_nil
  | some c =>
    have hwrap := (nested_componentsToXml opts all c.children vs).wrap
      (ascii "C:" ++ c.title2)
    simpa using hwrap

theorem nested_childrenToXml (cs : List EdistructChild)
    (es : List EdiElement) :
    Nested (xmlTags (written (childrenToXml opts all cs es).1)) := by
  fun_induction childrenToXml opts all cs es with
  | case1 es => exact nested_nil
  | case2 => exact nested_nil
  | case3 child children _ _ _ ih => exact ih
  | case4 => exact nested_error opts _
  | case5 => exact nested_nil
  | case6 child children _ e es _ _ _ r ih =>
    rw [written_append, xmlTags_append]
    exact (nested_elementMissingXml opts all child.code).append ih
  | case7 => exact nested_error opts _
  | case8 child children cstruct e es _ values _ r ih =>
    rw [written_append, xmlTags_append]
    exact (nested_compositeToXml opts all child.code cstruct values).append ih
  | case9 child children cstruct e es _ v _ r ih =>
    rw [written_append, xmlTags_append]
    exact (nested_elementToXml opts all child.code v.value).append ih

theorem nested_extraData (tag : Bytes) (es : List EdiElement) :
    Nested (xmlTags (written (extraData opts tag es))) := by
  unfold extraData
  split
  · exact nested_nil
  · exact nested_error opts _

theorem nested_segmentToXml (seg : EdiSegment) :
    Nested (xmlTags (written (segmentToXml opts all seg))) := by
  unfold segmentToXml
  split
  · exact nested_nil
  · next tag htag =>
    split
    · exact nested_nil
    · exact nested_error opts _
    · next s hs =>
      split
      · exact nested_nil
      · have hchildren := nested_childrenToXml opts all s.children
          (dataElements tag seg.elements)
        have hextra := nested_extraData opts tag (childrenToXml opts all
          s.children (dataElements tag seg.elements)).2
        have hwrap := (hchildren.append hextra).wrap (ascii "S:" ++ s.title2)
        rw [written_append, xmlTags_append]
        refine (nested_outIf_comment _ _ [newline] nested_nil).append ?_
        simpa using hwrap

theorem nested_parseMessageHeader (seg : EdiSegment) :
    Nested (xmlTags (written (parseMessageHeader opts seg))) := by
  unfold parseMessageHeader
  split
  · exact nested_nil
  · exact nested_error opts _

/-! ## Interchanges -/

theorem serviceNames_distinct :
    [ascii "UNB", ascii "UNG", ascii "UNH", ascii "UNZ", ascii "UNE",
      ascii "UNT"].Pairwise (· ≠ ·) := by
  decide +kernel

/-- The tags of a segment amount to those of its service tag. -/
theorem run_convSegment {seg : EdiSegment} {tag : Bytes}
    (htag : seg.tag = some tag) (stack : List Bytes) :
    run stack (xmlTags (written (convSegment opts all seg)))
      = run stack ((serviceTag tag).map (Tag.map Service.xmlName)) := by
  have hseg := (nested_segmentToXml opts all seg).run_eq
  have hheader := (nested_parseMessageHeader opts seg).run_eq
  have hdistinct := serviceNames_distinct
  simp only [List.pairwise_cons, List.mem_cons, List.not_mem_nil, or_false,
    forall_eq_or_imp, forall_eq, ne_eq] at hdistinct
  obtain ⟨⟨hBG, hBH, hBZ, hBE, hBT⟩, ⟨hGH, hGZ, hGE, hGT⟩, ⟨hHZ, hHE, hHT⟩,
    ⟨hZE, hZT⟩, hET, -⟩ := hdistinct
  simp only [convSegment, htag, written_append, xmlTags_append, written_outIf,
    run_append]
  by_cases hB : tag = ascii "UNB"
  · subst hB
    simp [serviceTag, hBG, hBH, hBZ, hBE, hBT, hseg, run, Tag.map,
      Service.xmlName]
  by_cases hG : tag = ascii "UNG"
  · subst hG
    simp [serviceTag, hB, hGH, hGZ, hGE, hGT, hseg, run, Tag.map,
      Service.xmlName]
  by_cases hH : tag = ascii "UNH"
  · subst hH
    simp [serviceTag, hB, hG, hHZ, hHE, hHT, hseg, hheader, run, Tag.map,
      Service.xmlName]
  by_cases hZ : tag = ascii "UNZ"
  · subst hZ
    simp [serviceTag, hB, hG, hH, hZE, hZT, hseg, run, Tag.map,
      Service.xmlName]
  by_cases hE : tag = ascii "UNE"
  · subst hE
    simp [serviceTag, hB, hG, hH, hZ, hET, hseg, run, Tag.map,
      Service.xmlName]
  by_cases hT : tag = ascii "UNT"
  · subst hT
    simp [serviceTag, hB, hG, hH, hZ, hE, hseg, run, Tag.map,
      Service.xmlName]
  · simp [serviceTag, hB, hG, hH, hZ, hE, hT, hseg, run]

theorem written_convSegments (segs : List EdiSegment) :
    xmlTags (written (convSegments opts all segs))
      = segs.flatMap fun seg => xmlTags (written (convSegment opts all seg)) := by
  induction segs with
  | nil => rfl
  | cons seg segs ih =>
    rw [convSegments, List.flatMap_cons, written_append, xmlTags_append,
      List.flatMap_cons, ← ih]
    rfl

/-- The tags of the output are nested if the service tags are. -/
theorem nested_written {segs : List EdiSegment}
    (htags : ∀ seg ∈ segs, seg.tag ≠ none)
    (hservice : Nested (serviceTags segs)) :
    Nested (xmlTags (written (convSegments opts all segs))) := by
  have hturn : ∀ seg ∈ segs, ∀ stack,
      run stack (xmlTags (written (convSegment opts all seg)))
        = run stack ((seg.tag.elim [] serviceTag).map
          (Tag.map Service.xmlName)) := by
    intro seg hseg stack
    obtain ⟨tag, htag⟩ := Option.ne_none_iff_exists'.1 (htags seg hseg)
    rw [htag]
    exact run_convSegment opts all htag stack
  have hmap := run_map Service.xmlName hservice
  rw [Nested, written_convSegments, run_flatMap_congr hturn]
  rw [serviceTags, List.map_flatMap] at hmap
  exact hmap

end Libedi
