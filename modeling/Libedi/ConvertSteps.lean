import Libedi.Convert

/-!
# What the functions of the converter do

For each function of `libedixml/conv.c`: which data elements it hands over, what
it reports, and that it does not go astray, with tables that are complete.

* `FilledTables` is enough for the functions that only look for data elements
  and codes.
* `ChildrenKnown` says that the children lead to entries of the tables.
-/

namespace Libedi

variable (opts : Edi2xmlConfig) (all : EdistructAll)

/-! ## Reporting, coded values, data elements -/

@[simp] theorem handed_err (msg : Bytes) : handed (error opts msg) = [] := by
  simp [error]

@[simp] theorem errors_err (msg : Bytes) :
    errors (error opts msg) = [msg] := by
  simp [error]

@[simp] theorem noFault_err (msg : Bytes) : NoFault (error opts msg) := by
  simp [error]

@[simp] theorem handed_codedToXml (name val : Bytes) :
    handed (codedToXml opts all name val).1 = [] := by
  unfold codedToXml
  split <;> simp

@[simp] theorem errors_codedToXml (name val : Bytes) :
    errors (codedToXml opts all name val).1 = [] := by
  unfold codedToXml
  split <;> simp

@[simp] theorem handed_elementToXml (name val : Bytes) :
    handed (elementToXml opts all name val) = [(name, val)] := by
  unfold elementToXml
  rw [handed_element, handed_append, handed_outIf, List.nil_append,
    List.cons.injEq]
  refine ⟨rfl, ?_⟩
  split
  · rfl
  · exact handed_err opts _
  · simp only [handed_out, handed_append, handed_nil, List.append_nil]
    split
    · exact handed_codedToXml opts all name val
    · rfl

/-- A data element that is in the table is converted without a report. -/
theorem errors_elementToXml {name : Bytes} {e : EdistructElement}
    (he : findEdistructElement all name = some (some e)) (val : Bytes) :
    errors (elementToXml opts all name val) = [] := by
  unfold elementToXml
  rw [errors_element, errors_append, errors_outIf, List.nil_append, he]
  simp only [errors_out, errors_append, errors_nil, List.append_nil]
  split
  · exact errors_codedToXml opts all name val
  · rfl

@[simp] theorem handed_elementMissingXml (name : Bytes) :
    handed (elementMissingXml opts all name) = [] := by
  unfold elementMissingXml
  split
  · split <;> rfl
  · rfl

@[simp] theorem errors_elementMissingXml (name : Bytes) :
    errors (elementMissingXml opts all name) = [] := by
  unfold elementMissingXml
  split
  · split <;> rfl
  · rfl

/-! ## Composites -/

/-- The data elements of a composite that are handed over: those that are not
empty and stand at a child. -/
theorem handed_componentsToXml (cs : List EdistructChild)
    (vs : List EdiValue) :
    handed (componentsToXml opts all cs vs)
      = ((cs.zip vs).filter fun x => x.2.valuelen ≠ 0).map
        fun x => (x.1.code, x.2.value) := by
  fun_induction componentsToXml opts all cs vs with
  | case1 vs => simp
  | case2 c cs ih => simp [ih]
  | case3 c cs v vs ih =>
    rw [handed_append, ih, List.zip_cons_cons]
    by_cases hv : v.valuelen = 0 <;> simp [hv]

/-- The children of a composite are all in the table of data elements. -/
def ComponentsKnown (c : EdistructComposite) : Prop :=
  ∀ child ∈ c.children, ∃ e,
    findEdistructElement all child.code = some (some e)

theorem errors_componentsToXml {cs : List EdistructChild}
    (hcs : ∀ child ∈ cs, ∃ e,
      findEdistructElement all child.code = some (some e))
    (vs : List EdiValue) : errors (componentsToXml opts all cs vs) = [] := by
  fun_induction componentsToXml opts all cs vs with
  | case1 vs => rfl
  | case2 c cs ih =>
    rw [errors_append, errors_elementMissingXml, List.nil_append]
    exact ih (List.forall_mem_of_forall_mem_cons hcs)
  | case3 c cs v vs ih =>
    obtain ⟨e, he⟩ := hcs c List.mem_cons_self
    rw [errors_append, ih (List.forall_mem_of_forall_mem_cons hcs)]
    by_cases hv : v.valuelen = 0
    · simp [hv]
    · simp [hv, errors_elementToXml opts all he]

@[simp] theorem handed_compositeToXml (code : Bytes) (c : EdistructComposite)
    (vs : List EdiValue) :
    handed (compositeToXml opts all code (some c) vs)
      = handed (componentsToXml opts all c.children vs) := by
  simp [compositeToXml]

theorem errors_compositeToXml (code : Bytes) {c : EdistructComposite}
    (hc : ComponentsKnown all c) (vs : List EdiValue) :
    errors (compositeToXml opts all code (some c) vs) = [] := by
  simp [compositeToXml, errors_componentsToXml opts all hc vs]

/-! ## Complete tables -/

/-- The codes of composite children are in the table, and composites have
children. -/
structure CompositesKnown : Prop where
  composite : ∀ s ∈ all.segs, ∀ child ∈ s.children, child.isComposite = true →
    ∃ c, findEdistructComposite all child.code = some (some c)
  nonempty : ∀ c ∈ all.comps, c.children ≠ []

/-- The codes of all children are in the tables. -/
structure ChildrenKnown : Prop extends CompositesKnown all where
  element : ∀ s ∈ all.segs, ∀ child ∈ s.children, child.isComposite = false →
    ∃ e, findEdistructElement all child.code = some (some e)
  components : ∀ c ∈ all.comps, ComponentsKnown all c

/-- A small directory. -/
def sampleTables : EdistructAll where
  segs := [⟨ascii "BGM", ascii "Begin", ascii "Begin", ascii "a",
    [⟨'C'.toUInt8, ascii "1004"⟩, ⟨'C'.toUInt8, ascii "C106"⟩]⟩]
  elems := [⟨ascii "1004", ascii "Number", ascii "Number", ascii "b",
      ascii "an35", false⟩,
    ⟨ascii "1056", ascii "Version", ascii "Version", ascii "c", ascii "an9",
      true⟩]
  comps := [⟨ascii "C106", ascii "Id", ascii "Id", ascii "d",
    [⟨'C'.toUInt8, ascii "1004"⟩, ⟨'C'.toUInt8, ascii "1056"⟩]⟩]
  codes := [⟨ascii "1056", [⟨ascii "1", ascii "First", ascii "First",
    ascii "e"⟩]⟩]

theorem sampleTables_filled : FilledTables sampleTables := by
  constructor <;> simp [sampleTables]

theorem sampleTables_element : ∀ code ∈ [ascii "1004", ascii "1056"],
    ∃ e, findEdistructElement sampleTables code = some (some e) := by
  have hsome : ∀ code ∈ [ascii "1004", ascii "1056"],
      ((findEdistructElement sampleTables code).bind id).isSome = true :=
    forall_mem_of_all (by decide +kernel)
  intro code hcode
  obtain ⟨e, he⟩ := Option.isSome_iff_exists.1 (hsome code hcode)
  obtain ⟨r, hr, rfl⟩ := Option.bind_eq_some_iff.1 he
  exact ⟨e, hr⟩

theorem sampleTables_known : ChildrenKnown sampleTables where
  composite := by
    intro s hs child hchild hkind
    obtain rfl := List.mem_singleton.1 hs
    have hcode : child = ⟨'C'.toUInt8, ascii "C106"⟩ := by
      rcases List.mem_cons.1 hchild with rfl | hlast
      · exact absurd hkind (by decide +kernel)
      · exact List.mem_singleton.1 hlast
    subst hcode
    exact ⟨_, @find_present _ EdistructSegment.name _
      (List.pairwise_singleton _ _) _ List.mem_cons_self⟩
  element := by
    intro s hs child hchild hkind
    obtain rfl := List.mem_singleton.1 hs
    refine sampleTables_element child.code ?_
    rcases List.mem_cons.1 hchild with rfl | hlast
    · simp
    · obtain rfl := List.mem_singleton.1 hlast
      exact absurd hkind (by decide +kernel)
  components := by
    intro c hc child hchild
    obtain rfl := List.mem_singleton.1 hc
    refine sampleTables_element child.code ?_
    simp only [List.mem_cons, List.not_mem_nil, or_false] at hchild
    rcases hchild with rfl | rfl <;> simp
  nonempty := by
    intro c hc
    obtain rfl := List.mem_singleton.1 hc
    simp

section NoFault

variable {all}
variable (h : FilledTables all)

include h

theorem noFault_codedToXml (name val : Bytes) :
    NoFault (codedToXml opts all name val).1 := by
  have hread := (h.safeLookups.coded name val).1
  unfold codedToXml
  split
  · next hnone => simp [hnone] at hread
  · exact noFault_nil
  · exact noFault_outIf _ _

theorem noFault_elementToXml (name val : Bytes) :
    NoFault (elementToXml opts all name val) := by
  have hread := (h.safeLookups.element name).1
  unfold elementToXml
  rw [noFault_element, noFault_append]
  refine ⟨noFault_outIf _ _, ?_⟩
  split
  · next hnone => simp [hnone] at hread
  · exact noFault_err opts _
  · simp only [noFault_out, noFault_append, noFault_nil, and_true]
    split
    · exact noFault_codedToXml opts h name val
    · exact noFault_nil

theorem noFault_elementMissingXml (name : Bytes) :
    NoFault (elementMissingXml opts all name) := by
  have hread := (h.safeLookups.element name).1
  unfold elementMissingXml
  split
  · split
    · next hnone => simp [hnone] at hread
    · simp
    · simp
  · exact noFault_nil

theorem noFault_componentsToXml (cs : List EdistructChild)
    (vs : List EdiValue) : NoFault (componentsToXml opts all cs vs) := by
  fun_induction componentsToXml opts all cs vs with
  | case1 vs => exact noFault_nil
  | case2 c cs ih =>
    exact (noFault_append _ _).2 ⟨noFault_elementMissingXml opts h c.code, ih⟩
  | case3 c cs v vs ih =>
    refine (noFault_append _ _).2 ⟨?_, ih⟩
    split
    · exact noFault_elementToXml opts h c.code v.value
    · exact noFault_elementMissingXml opts h c.code

theorem noFault_compositeToXml (code : Bytes) (c : EdistructComposite)
    (vs : List EdiValue) :
    NoFault (compositeToXml opts all code (some c) vs) := by
  simp [compositeToXml, noFault_componentsToXml opts h]

end NoFault

/-! ## Children of a segment -/

/-- What a child of a segment is: a data element, or a composite of the table
with its components. -/
inductive ChildKnown (child : EdistructChild) :
    Option (Option EdistructComposite) → Prop where
  | simple (hkind : child.isComposite = false) : ChildKnown child (some none)
  | composite (c : EdistructComposite) (hkind : child.isComposite = true)
      (hc : c ∈ all.comps) (hne : c.children ≠ []) :
      ChildKnown child (some (some c))

theorem CompositesKnown.child {all : EdistructAll} (h : CompositesKnown all)
    {s : EdistructSegment} (hs : s ∈ all.segs) :
    ∀ child ∈ s.children, ChildKnown all child (childStruct all child) := by
  intro child hchild
  rw [childStruct]
  cases hkind : child.isComposite with
  | false => exact .simple hkind
  | true =>
    obtain ⟨c, hc⟩ := h.composite s hs child hchild hkind
    have hmem := (BinarySearch.find_sound hc).1
    rw [if_pos rfl, hc]
    exact .composite c hkind hmem (h.nonempty c hmem)

/-- How a data element fits a child, with the structure that is looked up for
it. -/
def fitOf (child : EdistructChild) (e : EdiElement) : Fit :=
  match childStruct all child with
  | none => .fault .table
  | some cstruct => elementFit child cstruct e

/-- The values of a data element that is taken for a composite. -/
def EdiElement.componentValues : EdiElement → List EdiValue
  | .composite vs => vs
  | e => [e.simpleValue]

/-- A turn of the loop over the children, for a child that is known. -/
inductive ChildStep (child : EdistructChild) (cs : List EdistructChild)
    (e : EdiElement) (es : List EdiElement) : Prop where
  /-- A simple data element is converted. -/
  | simple (v : EdiValue) (hkind : child.isComposite = false)
      (hfit : fitOf all child e = .simple v) (hv : e = .simple v)
      (hstep : childrenToXml opts all (child :: cs) (e :: es)
        = (elementToXml opts all child.code v.value ++
            (childrenToXml opts all cs es).1,
          (childrenToXml opts all cs es).2))
  /-- A composite is converted. -/
  | composite (c : EdistructComposite)
      (hfit : fitOf all child e = .composite e.componentValues)
      (hstruct : childStruct all child = some (some c)) (hc : c ∈ all.comps)
      (hstep : childrenToXml opts all (child :: cs) (e :: es)
        = (compositeToXml opts all child.code (some c) e.componentValues ++
            (childrenToXml opts all cs es).1,
          (childrenToXml opts all cs es).2))
  /-- A data element of another kind is left out. -/
  | skipped (hfit : fitOf all child e = .mismatch)
      (hoptional : child.isOptional = true)
      (hstep : childrenToXml opts all (child :: cs) (e :: es)
        = (elementMissingXml opts all child.code ++
            (childrenToXml opts all cs es).1,
          (childrenToXml opts all cs es).2))
  /-- A data element of another kind ends the loop. -/
  | stopped (hfit : fitOf all child e = .mismatch)
      (hoptional : child.isOptional = false)
      (hstep : childrenToXml opts all (child :: cs) (e :: es)
        = (error opts (ascii "mandatory element " ++ child.code ++
            ascii " is missing"), e :: es))

theorem childrenToXml_mismatch {child : EdistructChild} {e : EdiElement}
    (hfit : fitOf all child e = .mismatch) (cs : List EdistructChild)
    (es : List EdiElement) : ChildStep opts all child cs e es := by
  have hsome : ∃ cstruct, childStruct all child = some cstruct ∧
      elementFit child cstruct e = .mismatch := by
    unfold fitOf at hfit
    split at hfit
    · simp at hfit
    · next cstruct hcstruct => exact ⟨cstruct, hcstruct, hfit⟩
  obtain ⟨cstruct, hcstruct, helement⟩ := hsome
  cases hoptional : child.isOptional with
  | true =>
    exact .skipped hfit hoptional
      (by simp [childrenToXml, hcstruct, helement, hoptional])
  | false =>
    exact .stopped hfit hoptional
      (by simp [childrenToXml, hcstruct, helement, hoptional])

theorem childrenToXml_step {child : EdistructChild}
    (hchild : ChildKnown all child (childStruct all child))
    (cs : List EdistructChild) (e : EdiElement) (es : List EdiElement) :
    ChildStep opts all child cs e es := by
  generalize hcstruct : childStruct all child = cstruct at hchild
  cases hchild with
  | simple hkind =>
    cases e with
    | untyped =>
      exact childrenToXml_mismatch opts all
        (by simp [fitOf, hcstruct, elementFit, hkind]) cs es
    | simple v =>
      have hfit : elementFit child none (.simple v) = .simple v := by
        simp [elementFit, hkind]
      exact .simple v hkind (by rw [fitOf, hcstruct]; exact hfit) rfl
        (by simp [childrenToXml, hcstruct, hfit])
    | composite vs =>
      exact childrenToXml_mismatch opts all
        (by simp [fitOf, hcstruct, elementFit, hkind]) cs es
  | composite c hkind hc hne =>
    have hcomposite : elementFit child (some c) e
        = .composite e.componentValues → ChildStep opts all child cs e es := by
      intro hfit
      exact .composite c (by rw [fitOf, hcstruct]; exact hfit) hcstruct hc
        (by simp [childrenToXml, hcstruct, hfit])
    cases hchildren : c.children with
    | nil => exact absurd hchildren hne
    | cons x xs =>
      have htrunc := canBeTruncated.eq_def c
      rw [hchildren] at htrunc
      cases e with
      | composite vs => exact hcomposite (by
          simp [elementFit, hkind, EdiElement.componentValues])
      | untyped =>
        cases hall : xs.all (·.status != 'M'.toUInt8) with
        | true => exact hcomposite (by
            simp [elementFit, hkind, htrunc, hall, EdiElement.componentValues])
        | false =>
          exact childrenToXml_mismatch opts all
            (by simp [fitOf, hcstruct, elementFit, hkind, htrunc, hall]) cs es
      | simple v =>
        cases hall : xs.all (·.status != 'M'.toUInt8) with
        | true => exact hcomposite (by
            simp [elementFit, hkind, htrunc, hall, EdiElement.componentValues])
        | false =>
          exact childrenToXml_mismatch opts all
            (by simp [fitOf, hcstruct, elementFit, hkind, htrunc, hall]) cs es

/-- Without data elements the loop goes on to the first mandatory child. -/
theorem childrenToXml_nil {child : EdistructChild}
    (hchild : ChildKnown all child (childStruct all child))
    (cs : List EdistructChild) :
    childrenToXml opts all (child :: cs) [] =
      if child.isOptional then childrenToXml opts all cs []
      else (error opts (ascii "mandatory element " ++ child.code ++
        ascii " is missing"), []) := by
  have hsome : ∃ cstruct, childStruct all child = some cstruct := by
    generalize childStruct all child = cstruct at hchild
    cases hchild with
    | simple => exact ⟨_, rfl⟩
    | composite c => exact ⟨_, rfl⟩
  obtain ⟨cstruct, hcstruct⟩ := hsome
  simp only [childrenToXml, hcstruct]

/-! ## Segments -/

theorem noFault_childrenToXml {all : EdistructAll} (h : FilledTables all)
    {cs : List EdistructChild}
    (hcs : ∀ child ∈ cs, ChildKnown all child (childStruct all child))
    (es : List EdiElement) : NoFault (childrenToXml opts all cs es).1 := by
  induction cs generalizing es with
  | nil => exact noFault_nil
  | cons child cs ih =>
    have hchild := hcs child List.mem_cons_self
    have hrest := ih (List.forall_mem_of_forall_mem_cons hcs)
    cases es with
    | nil =>
      rw [childrenToXml_nil opts all hchild]
      split
      · exact hrest []
      · exact noFault_err opts _
    | cons e es =>
      cases childrenToXml_step opts all hchild cs e es with
      | simple v hkind hfit hv hstep =>
        rw [hstep, noFault_append]
        exact ⟨noFault_elementToXml opts h _ _, hrest es⟩
      | composite c hfit hstruct hc hstep =>
        rw [hstep, noFault_append]
        exact ⟨noFault_compositeToXml opts h _ _ _, hrest es⟩
      | skipped hfit hoptional hstep =>
        rw [hstep, noFault_append]
        exact ⟨noFault_elementMissingXml opts h _, hrest es⟩
      | stopped hfit hoptional hstep =>
        rw [hstep]
        exact noFault_err opts _

@[simp] theorem noFault_extraData (tag : Bytes) (es : List EdiElement) :
    NoFault (extraData opts tag es) := by
  unfold extraData
  split <;> simp

/-- What a segment is converted to, if its tag is known. -/
theorem segmentToXml_known {all : EdistructAll} {seg : EdiSegment}
    {tag : Bytes} {s : EdistructSegment} (htag : seg.tag = some tag)
    (hs : findEdistructSegment all tag = some (some s))
    (helements : seg.elements ≠ []) :
    segmentToXml opts all seg
      = outIf opts.commentsSegmentNames [.comment [.plain s.name], newline] ++
        .out [.openTag (ascii "S:" ++ s.title2) [], newline] ::
        ((childrenToXml opts all s.children
            (dataElements tag seg.elements)).1 ++
          extraData opts tag (childrenToXml opts all s.children
            (dataElements tag seg.elements)).2 ++
          [.out [.closeTag (ascii "S:" ++ s.title2), newline]]) := by
  simp [segmentToXml, htag, hs, helements]

/-- With complete tables a segment is converted to its end, if it has a tag and
an element. -/
theorem noFault_segmentToXml {all : EdistructAll} (h : FilledTables all)
    (hknown : CompositesKnown all) {seg : EdiSegment} (htag : seg.tag ≠ none)
    (helements : seg.elements ≠ []) :
    NoFault (segmentToXml opts all seg) := by
  obtain ⟨tag, htag⟩ := Option.ne_none_iff_exists'.1 htag
  have hread := (h.safeLookups.segment tag).1
  simp only [segmentToXml, htag, helements, if_false]
  split
  · next hnone => simp [hnone] at hread
  · exact noFault_err opts _
  · next s hs =>
    have hmem := (BinarySearch.find_sound hs).1
    simp [noFault_childrenToXml opts h (hknown.child hmem)]

theorem noFault_convSegment {all : EdistructAll} (h : FilledTables all)
    (hknown : CompositesKnown all) {seg : EdiSegment} (htag : seg.tag ≠ none)
    (helements : seg.elements ≠ []) :
    NoFault (convSegment opts all seg) := by
  have hseg := noFault_segmentToXml opts h hknown htag helements
  obtain ⟨tag, htag⟩ := Option.ne_none_iff_exists'.1 htag
  have hheader : NoFault (if tag = ascii "UNH" then
      parseMessageHeader opts seg else []) := by
    split
    · unfold parseMessageHeader
      split <;> simp
    · exact noFault_nil
  simp [convSegment, htag, hseg, hheader]

theorem noFault_convSegments {all : EdistructAll} (h : FilledTables all)
    (hknown : CompositesKnown all) {segs : List EdiSegment}
    (hsegs : ∀ seg ∈ segs, seg.tag ≠ none ∧ seg.elements ≠ []) :
    NoFault (convSegments opts all segs) := by
  intro f hf
  obtain ⟨seg, hseg, hf⟩ := List.mem_flatMap.1 hf
  exact noFault_convSegment opts h hknown (hsegs seg hseg).1 (hsegs seg hseg).2
    f hf

end Libedi
