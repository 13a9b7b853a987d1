import Libedi.ConvertSteps
import Libedi.ReadBack

/-!
# Segments that fit their structure

`Conforms` says which data elements fit a child of a segment, clause by clause.
A segment whose data elements fit is rendered position by position and without a
report (`segmentToXml_conforming`): the data element behind the tag goes with
the first child, and so on, whichever of the branches of `segment_to_xml` is
taken for it.

A composite may be written with or without its trailing empty components.  The
parser makes elements of different kinds of the two, and
`segmentToXml_trailing_empty` says when the converter does the same with them.
-/

namespace Libedi

variable (opts : Edi2xmlConfig) (all : EdistructAll)

/-! ## Data elements that fit -/

/-- The data element fits the child. -/
inductive Conforms (child : EdistructChild) : EdiElement → Prop where
  | simple (hkind : child.isComposite = false) (v : EdiValue) :
      Conforms child (.simple v)
  | composite (hkind : child.isComposite = true) {c : EdistructComposite}
      (hc : findEdistructComposite all child.code = some (some c))
      {vs : List EdiValue} (hlen : vs.length ≤ c.children.length) :
      Conforms child (.composite vs)
  /-- A simple element stands for a composite of one value. -/
  | truncated (hkind : child.isComposite = true) {c : EdistructComposite}
      (hc : findEdistructComposite all child.code = some (some c))
      (hlen : 1 ≤ c.children.length)
      (hoptional : ∀ x ∈ c.children.tail, x.status ≠ 'M'.toUInt8)
      (v : EdiValue) : Conforms child (.simple v)

/-- The data elements fit the children, and the children without a data element
are optional. -/
structure ConformingElements (cs : List EdistructChild)
    (es : List EdiElement) : Prop where
  fits : es.length ≤ cs.length
  conforms : ∀ x ∈ cs.zip es, Conforms all x.1 x.2
  optional : ∀ child ∈ cs.drop es.length, child.isOptional = true

/-- The codes of the children, and of their components, are in the tables. -/
structure CodesKnown (s : EdistructSegment) : Prop where
  element : ∀ child ∈ s.children, child.isComposite = false →
    ∃ e, findEdistructElement all child.code = some (some e)
  composite : ∀ child ∈ s.children, child.isComposite = true →
    ∃ c, findEdistructComposite all child.code = some (some c) ∧
      ComponentsKnown all c

/-- The components of a composite child. -/
def componentsOf (child : EdistructChild) : List EdistructChild :=
  ((findEdistructComposite all child.code).bind id).elim [] (·.children)

/-- What is handed over for a data element at a child: the value of a simple
one, and the values of a composite that are not empty, each with the code of its
component. -/
def callsFor (child : EdistructChild) (e : EdiElement) :
    List (Bytes × Bytes) :=
  if child.isComposite then
    (((componentsOf all child).zip e.values).filter fun x =>
      x.2.valuelen ≠ 0).map fun x => (x.1.code, x.2.value)
  else e.values.map fun v => (child.code, v.value)

/-! ## One data element -/

/-- A data element that fits is converted at its child, and the loop goes on
with the next child and the next data element. -/
inductive ConvertedAt (child : EdistructChild) (cs : List EdistructChild)
    (e : EdiElement) (es : List EdiElement) : Prop where
  | simple (v : EdiValue) (hkind : child.isComposite = false)
      (he : e = .simple v)
      (hstep : childrenToXml opts all (child :: cs) (e :: es)
        = (elementToXml opts all child.code v.value ++
            (childrenToXml opts all cs es).1,
          (childrenToXml opts all cs es).2))
  | composite (c : EdistructComposite) (hkind : child.isComposite = true)
      (hc : findEdistructComposite all child.code = some (some c))
      (hstep : childrenToXml opts all (child :: cs) (e :: es)
        = (compositeToXml opts all child.code (some c) e.values ++
            (childrenToXml opts all cs es).1,
          (childrenToXml opts all cs es).2))

variable {all}

theorem canBeTruncated_of_optional {c : EdistructComposite}
    (hlen : 1 ≤ c.children.length)
    (h : ∀ x ∈ c.children.tail, x.status ≠ 'M'.toUInt8) :
    canBeTruncated c = some true := by
  unfold canBeTruncated
  split
  · next hnil => simp [hnil] at hlen
  · next x xs hcons =>
    rw [hcons, List.tail_cons] at h
    have hall : xs.all (·.status != 'M'.toUInt8) = true := by simpa using h
    rw [hall]

theorem childStruct_composite {child : EdistructChild}
    (hkind : child.isComposite = true) :
    childStruct all child = findEdistructComposite all child.code :=
  if_pos hkind

theorem childrenToXml_composite {child : EdistructChild}
    {c : EdistructComposite} {e : EdiElement} {vs : List EdiValue}
    (hkind : child.isComposite = true)
    (hc : findEdistructComposite all child.code = some (some c))
    (hfit : elementFit child (some c) e = .composite vs)
    (cs : List EdistructChild) (es : List EdiElement) :
    childrenToXml opts all (child :: cs) (e :: es)
      = (compositeToXml opts all child.code (some c) vs ++
          (childrenToXml opts all cs es).1,
        (childrenToXml opts all cs es).2) := by
  simp only [childrenToXml, childStruct_composite hkind, hc, hfit]

theorem Conforms.converted {child : EdistructChild} {e : EdiElement}
    (h : Conforms all child e) (cs : List EdistructChild)
    (es : List EdiElement) : ConvertedAt opts all child cs e es := by
  cases h with
  | simple hkind v =>
    refine .simple v hkind rfl ?_
    simp [childrenToXml, childStruct, hkind, elementFit]
  | @composite hkind c hc vs hlen =>
    refine .composite c hkind hc ?_
    exact childrenToXml_composite opts hkind hc
      (by simp [elementFit, hkind, EdiElement.values]) cs es
  | @truncated hkind c hc hlen hoptional v =>
    have htrunc := canBeTruncated_of_optional hlen hoptional
    refine .composite c hkind hc ?_
    exact childrenToXml_composite opts hkind hc
      (by simp [elementFit, hkind, htrunc, EdiElement.simpleValue,
        EdiElement.values]) cs es

/-- A child that is left over is skipped. -/
theorem childrenToXml_optional {child : EdistructChild}
    (hoptional : child.isOptional = true)
    (hcomposite : child.isComposite = true →
      ∃ c, findEdistructComposite all child.code = some (some c))
    (cs : List EdistructChild) :
    childrenToXml opts all (child :: cs) [] = childrenToXml opts all cs [] := by
  cases hkind : child.isComposite with
  | false => simp [childrenToXml, childStruct, hkind, hoptional]
  | true =>
    obtain ⟨c, hc⟩ := hcomposite hkind
    simp [childrenToXml, childStruct, hkind, hoptional, hc]

/-! ## All data elements of a segment -/

/-- What the loop over the children does with data elements that fit. -/
structure Rendered (cs : List EdistructChild) (es : List EdiElement) :
    Prop where
  errors_eq : errors (childrenToXml opts all cs es).1 = []
  handed_eq : handed (childrenToXml opts all cs es).1
    = (cs.zip es).flatMap fun x => callsFor all x.1 x.2
  rest_eq : (childrenToXml opts all cs es).2 = []
  noFault : FilledTables all → NoFault (childrenToXml opts all cs es).1

/-- A turn that renders what the child is given keeps the whole rendered. -/
theorem Rendered.cons {child : EdistructChild} {cs : List EdistructChild}
    {e : EdiElement} {es : List EdiElement} {turn : List Step}
    (h : @Rendered opts all cs es)
    (hstep : childrenToXml opts all (child :: cs) (e :: es)
      = (turn ++ (childrenToXml opts all cs es).1,
          (childrenToXml opts all cs es).2))
    (herrors : errors turn = []) (hhanded : handed turn = callsFor all child e)
    (hfault : FilledTables all → NoFault turn) :
    @Rendered opts all (child :: cs) (e :: es) where
  errors_eq := by rw [hstep, errors_append, herrors, h.errors_eq, List.nil_append]
  handed_eq := by
    rw [hstep, handed_append, hhanded, h.handed_eq, List.zip_cons_cons,
      List.flatMap_cons]
  rest_eq := by rw [hstep, h.rest_eq]
  noFault hfilled := by
    rw [hstep, noFault_append]
    exact ⟨hfault hfilled, h.noFault hfilled⟩

theorem conformingElements_cons {child : EdistructChild}
    {cs : List EdistructChild} {e : EdiElement} {es : List EdiElement}
    (h : ConformingElements all (child :: cs) (e :: es)) :
    Conforms all child e ∧ ConformingElements all cs es := by
  obtain ⟨hfits, hconforms, hoptional⟩ := h
  rw [List.zip_cons_cons, List.forall_mem_cons] at hconforms
  exact ⟨hconforms.1, Nat.le_of_succ_le_succ hfits, hconforms.2, hoptional⟩

theorem conformingElements_nil {child : EdistructChild}
    {cs : List EdistructChild} (h : ConformingElements all (child :: cs) []) :
    child.isOptional = true ∧ ConformingElements all cs [] := by
  have hoptional := h.optional
  rw [List.length_nil, List.drop_zero, List.forall_mem_cons] at hoptional
  exact ⟨hoptional.1, Nat.zero_le _, by simp, hoptional.2⟩

theorem childrenToXml_rendered {cs : List EdistructChild}
    (helement : ∀ child ∈ cs, child.isComposite = false →
      ∃ e, findEdistructElement all child.code = some (some e))
    (hcomposite : ∀ child ∈ cs, child.isComposite = true →
      ∃ c, findEdistructComposite all child.code = some (some c) ∧
        ComponentsKnown all c)
    {es : List EdiElement} (h : ConformingElements all cs es) :
    @Rendered opts all cs es := by
  induction cs generalizing es with
  | nil =>
    obtain rfl := List.length_eq_zero_iff.1 (Nat.le_zero.1 h.fits)
    exact ⟨rfl, rfl, rfl, fun _ => noFault_nil⟩
  | cons child cs ih =>
    have hrest : ∀ {es : List EdiElement}, ConformingElements all cs es →
        @Rendered opts all cs es :=
      ih (List.forall_mem_of_forall_mem_cons helement)
        (List.forall_mem_of_forall_mem_cons hcomposite)
    cases es with
    | nil =>
      obtain ⟨hoptional, htail⟩ := conformingElements_nil h
      have hskip := childrenToXml_optional opts hoptional
        (fun hkind => by
          obtain ⟨c, hc, -⟩ := hcomposite child List.mem_cons_self hkind
          exact ⟨c, hc⟩) cs
      obtain ⟨herrors, hhanded, hnil, hfault⟩ := hrest htail
      rw [List.zip_nil_right] at hhanded
      refine ⟨by rw [hskip, herrors], ?_, by rw [hskip, hnil], ?_⟩
      · rw [hskip, hhanded, List.zip_nil_right]
      · rw [hskip]
        exact hfault
    | cons e es =>
      obtain ⟨hconforms, htail⟩ := conformingElements_cons h
      cases hconforms.converted opts cs es with
      | simple v hkind he hstep =>
        subst he
        obtain ⟨x, hx⟩ := helement child List.mem_cons_self hkind
        refine (hrest htail).cons opts hstep (errors_elementToXml opts all hx _) ?_
          fun hfilled => noFault_elementToXml opts hfilled _ _
        rw [handed_elementToXml]
        simp [callsFor, hkind, EdiElement.values]
      | composite c hkind hc hstep =>
        obtain ⟨c', hc', hknown⟩ := hcomposite child List.mem_cons_self hkind
        obtain rfl : c = c' := by simpa [hc] using hc'
        refine (hrest htail).cons opts hstep
          (errors_compositeToXml opts all _ hknown _) ?_
          fun hfilled => noFault_compositeToXml opts hfilled _ _ _
        rw [handed_compositeToXml, handed_componentsToXml, callsFor, if_pos hkind,
          componentsOf, hc]
        rfl

/-- A segment whose data elements fit is rendered without a report, position by
position: nothing else is handed to `element_to_xml`, and all of it in order. -/
theorem segmentToXml_conforming {s : EdistructSegment} {tag : Bytes}
    (hs : findEdistructSegment all tag = some (some s))
    (hknown : CodesKnown all s) {seg : EdiSegment} (htag : seg.tag = some tag)
    {v : EdiValue} {es : List EdiElement}
    (helements : seg.elements = .simple v :: es) (hv : v.value = tag)
    (hconforms : ConformingElements all s.children es) :
    errors (segmentToXml opts all seg) = [] ∧
      handed (segmentToXml opts all seg)
        = (s.children.zip es).flatMap (fun x => callsFor all x.1 x.2) ∧
      (FilledTables all → NoFault (segmentToXml opts all seg)) := by
  have hdata : dataElements tag seg.elements = es := by
    rw [helements, dataElements, if_pos hv]
  obtain ⟨herrors, hhanded, hnil, hfault⟩ :=
    childrenToXml_rendered opts hknown.element hknown.composite hconforms
  have hextra : extraData opts tag (childrenToXml opts all s.children es).2
      = [] := by
    rw [hnil]
    rfl
  rw [segmentToXml_known opts htag hs (by simp [helements]), hdata, hextra]
  refine ⟨?_, ?_, fun hfilled => ?_⟩
  · simp [herrors]
  · simp [hhanded]
  · simp [hfault hfilled]

theorem ChildrenKnown.codesKnown (h : ChildrenKnown all) {s : EdistructSegment}
    (hs : s ∈ all.segs) : CodesKnown all s where
  element := h.element s hs
  composite := by
    intro child hchild hkind
    obtain ⟨c, hc⟩ := h.composite s hs child hchild hkind
    exact ⟨c, hc, h.components c (BinarySearch.find_sound hc).1⟩

/-- `BGM+a+b:1`. -/
def conformingSegment : EdiSegment :=
  ⟨[.simple (.ofBytes (ascii "BGM")), .simple (.ofBytes (ascii "a")),
      .composite [.ofBytes (ascii "b"), .ofBytes (ascii "1")]],
    some (ascii "BGM"), 0⟩

theorem segmentToXml_conforming_sample :
    errors (segmentToXml ⟨true, true, true, true, true, true⟩ sampleTables
        conformingSegment) = [] ∧
      handed (segmentToXml ⟨true, true, true, true, true, true⟩ sampleTables
        conformingSegment)
        = [(ascii "1004", ascii "a"), (ascii "1004", ascii "b"),
          (ascii "1056", ascii "1")] := by
  have hs : findEdistructSegment sampleTables (ascii "BGM") = some (some _) :=
    @find_present _ EdistructSegment.name _ (List.pairwise_singleton _ _) _
      List.mem_cons_self
  have hcomposite : findEdistructComposite sampleTables (ascii "C106")
      = some (some _) :=
    @find_present _ EdistructSegment.name _ (List.pairwise_singleton _ _) _
      List.mem_cons_self
  have hknown := sampleTables_known.codesKnown (BinarySearch.find_sound hs).1
  have htag : conformingSegment.tag = some (ascii "BGM") := rfl
  obtain ⟨herrors, hhanded, -⟩ := segmentToXml_conforming
    ⟨true, true, true, true, true, true⟩ hs hknown htag rfl rfl
    ⟨by decide, by
      intro x hx
      rcases List.mem_cons.1 hx with rfl | hx
      · exact .simple (by decide +kernel) _
      · obtain rfl := List.mem_singleton.1 hx
        exact .composite (by decide +kernel) hcomposite (by decide),
      by simp⟩
  refine ⟨herrors, hhanded.trans ?_⟩
  decide +kernel

/-! ## Trailing empty components -/

/-- A data element may be replaced by another one that the converter treats in
the same way. -/
theorem childrenToXml_replace {child : EdistructChild}
    {cs' : List EdistructChild} {e e' : EdiElement} {post : List EdiElement}
    (h : childrenToXml opts all (child :: cs') (e :: post)
      = childrenToXml opts all (child :: cs') (e' :: post))
    (cs : List EdistructChild) {pre : List EdiElement}
    (hpre : pre.length = cs.length) :
    (childrenToXml opts all (cs ++ child :: cs') (pre ++ e :: post)).1
        = (childrenToXml opts all (cs ++ child :: cs') (pre ++ e' :: post)).1 ∧
      (childrenToXml opts all (cs ++ child :: cs') (pre ++ e :: post)).2.length
        = (childrenToXml opts all (cs ++ child :: cs')
            (pre ++ e' :: post)).2.length := by
  induction cs generalizing pre with
  | nil =>
    obtain rfl := List.length_eq_zero_iff.1 hpre
    simp [h]
  | cons c cs ih =>
    cases pre with
    | nil => simp at hpre
    | cons x pre =>
      obtain ⟨hsteps, hlen⟩ := ih (Nat.succ_inj.1 hpre)
      simp only [List.cons_append, childrenToXml]
      cases hstruct : childStruct all c with
      | none => simp
      | some cstruct =>
        cases hfit : elementFit c cstruct x with
        | fault f => simp [hfit]
        | simple v => simp [hfit, hsteps, hlen]
        | composite vs => simp [hfit, hsteps, hlen]
        | mismatch =>
          cases hoptional : c.isOptional <;> simp [hfit, hsteps, hlen]

/-- Behind the values the components get nothing, or an empty value. -/
theorem componentsToXml_append_empty (cs : List EdistructChild)
    (vs : List EdiValue) {ws : List EdiValue}
    (hws : ∀ w ∈ ws, w.valuelen = 0) :
    componentsToXml opts all cs (vs ++ ws)
      = componentsToXml opts all cs vs := by
  induction cs generalizing vs ws with
  | nil => simp [componentsToXml]
  | cons c cs ih =>
    cases vs with
    | cons v vs =>
      rw [List.cons_append, componentsToXml, componentsToXml, ih vs hws]
    | nil =>
      cases ws with
      | nil => rfl
      | cons w ws =>
        rw [List.forall_mem_cons] at hws
        have hrest := ih [] hws.2
        rw [List.nil_append] at hrest ⊢
        rw [componentsToXml, componentsToXml, hrest, if_neg (by simp [hws.1])]

theorem compositeToXml_append_empty (code : Bytes)
    (cstruct : Option EdistructComposite) (vs : List EdiValue)
    {ws : List EdiValue} (hws : ∀ w ∈ ws, w.valuelen = 0) :
    compositeToXml opts all code cstruct (vs ++ ws)
      = compositeToXml opts all code cstruct vs := by
  cases cstruct with
  | none => rfl
  | some c =>
    simp only [compositeToXml, componentsToXml_append_empty opts c.children vs
      hws]

/-- An element with these values.  A value alone is simple, as the parser makes it
of `b`, or a composite, as it makes it of `b:` at the end of a segment. -/
def EdiElement.Spells (e : EdiElement) (vs : List EdiValue) : Prop :=
  e = .ofValues vs ∨ e = .composite vs

/-- An element of two or more values is a composite. -/
theorem EdiElement.Spells.composite {e : EdiElement} {vs : List EdiValue}
    (h : e.Spells vs) (hlen : 2 ≤ vs.length) : e = .composite vs := by
  rcases h with rfl | rfl
  · rcases vs with - | ⟨v, - | ⟨w, vs⟩⟩
    · simp at hlen
    · simp at hlen
    · rfl
  · rfl

/-- The values of a composite get to the components, and so does a simple value
that can stand for one. -/
theorem elementFit_spells {child : EdistructChild}
    (hkind : child.isComposite = true) {c : EdistructComposite}
    {vs : List EdiValue} (hvs : vs ≠ []) {e : EdiElement} (he : e.Spells vs)
    (h : e = .composite vs ∨ canBeTruncated c = some true) :
    elementFit child (some c) e = .composite vs := by
  rcases h with rfl | htrunc
  · simp [elementFit, hkind]
  · rcases he with rfl | rfl
    · rcases vs with - | ⟨v, - | ⟨w, vs⟩⟩
      · exact absurd rfl hvs
      · simp [EdiElement.ofValues, elementFit, hkind, htrunc,
          EdiElement.simpleValue]
      · simp [EdiElement.ofValues, elementFit, hkind]
    · simp [elementFit, hkind]

/-- Trailing empty components do not matter, if the shorter spelling is a composite
or all components but the first are optional.  The same is written, handed over
and reported. -/
theorem segmentToXml_trailing_empty {tag : Bytes} {s : EdistructSegment}
    (hs : findEdistructSegment all tag = some (some s))
    {cs cs' : List EdistructChild} {child : EdistructChild}
    (hchildren : s.children = cs ++ child :: cs')
    (hkind : child.isComposite = true) {c : EdistructComposite}
    (hc : findEdistructComposite all child.code = some (some c))
    {vs ws : List EdiValue} (hvs : vs ≠ []) (hne : ws ≠ [])
    (hws : ∀ w ∈ ws, w.valuelen = 0)
    (hlen : (vs ++ ws).length ≤ c.children.length)
    {seg seg' : EdiSegment} (htag : seg.tag = some tag)
    (htag' : seg'.tag = some tag) {pre post : List EdiElement}
    (hpre : pre.length = cs.length) {e e' : EdiElement} (he : e.Spells vs)
    (he' : e'.Spells (vs ++ ws))
    (hseg : dataElements tag seg.elements = pre ++ e :: post)
    (hseg' : dataElements tag seg'.elements = pre ++ e' :: post)
    (htruncated : e = .composite vs ∨
      ∀ x ∈ c.children.tail, x.status ≠ 'M'.toUInt8) :
    segmentToXml opts all seg = segmentToXml opts all seg' := by
  have hwslen := List.length_pos_iff.2 hne
  have hvslen := List.length_pos_iff.2 hvs
  have hlen' : 2 ≤ (vs ++ ws).length := by
    rw [List.length_append]
    omega
  have hfit := elementFit_spells hkind hvs he
    (htruncated.imp_right (canBeTruncated_of_optional (by omega)))
  have hfit' := elementFit_spells (c := c) hkind (by simp [hvs]) he'
    (Or.inl (he'.composite hlen'))
  have hstep : childrenToXml opts all (child :: cs') (e :: post)
      = childrenToXml opts all (child :: cs') (e' :: post) := by
    rw [childrenToXml_composite opts hkind hc hfit,
      childrenToXml_composite opts hkind hc hfit',
      compositeToXml_append_empty opts child.code (some c) vs hws]
  obtain ⟨hsteps, hrest⟩ := childrenToXml_replace opts hstep cs hpre
  have hnil : ∀ {seg : EdiSegment} {e : EdiElement},
      dataElements tag seg.elements = pre ++ e :: post → seg.elements ≠ [] := by
    intro seg e h hempty
    rw [hempty] at h
    simp [dataElements] at h
  rw [segmentToXml_known opts htag hs (hnil hseg),
    segmentToXml_known opts htag' hs (hnil hseg'), hseg, hseg', hchildren,
    hsteps]
  have hextra : ∀ {es es' : List EdiElement}, es.length = es'.length →
      extraData opts tag es = extraData opts tag es' := by
    intro es es' h
    have hempty : es = [] ↔ es' = [] := by
      rw [← List.length_eq_zero_iff, h, List.length_eq_zero_iff]
    simp only [extraData, hempty, h]
  rw [hextra hrest]

/-- The components of a composite with a second component of this status. -/
def idComposite (status : UInt8) : EdistructComposite :=
  ⟨ascii "C106", ascii "Id", ascii "Id", ascii "d",
    [⟨'C'.toUInt8, ascii "1004"⟩, ⟨status, ascii "1056"⟩]⟩

/-- A segment that starts with this composite. -/
def idSegment : EdistructSegment :=
  ⟨ascii "BGM", ascii "Begin", ascii "Begin", ascii "a",
    [⟨'M'.toUInt8, ascii "C106"⟩, ⟨'C'.toUInt8, ascii "1004"⟩]⟩

def idTables (status : UInt8) : EdistructAll :=
  { sampleTables with segs := [idSegment], comps := [idComposite status] }

/-- A segment with `C106` and the value `a` of `1004`. -/
def bgmSegment (e : EdiElement) : EdiSegment :=
  ⟨[.simple (.ofBytes (ascii "BGM")), e, .simple (.ofBytes (ascii "a"))],
    some (ascii "BGM"), 0⟩

/-- The value `b` alone. -/
def loneValue : List EdiValue := [.ofBytes (ascii "b")]

theorem find_idSegment (status : UInt8) :
    findEdistructSegment (idTables status) (ascii "BGM")
      = some (some idSegment) :=
  @find_present _ EdistructSegment.name _ (List.pairwise_singleton _ _) _
    List.mem_cons_self

theorem find_idComposite (status : UInt8) :
    findEdistructComposite (idTables status) (ascii "C106")
      = some (some (idComposite status)) :=
  @find_present _ EdistructSegment.name _ (List.pairwise_singleton _ _) _
    List.mem_cons_self

/-- The values `b`, and `b` with an empty one behind it: as a composite where the
second component is mandatory, and as a simple element where it is optional. -/
theorem segmentToXml_trailing_empty_composite :
    segmentToXml ⟨true, true, true, true, true, true⟩ (idTables 'M'.toUInt8)
        (bgmSegment (.composite loneValue))
      = segmentToXml ⟨true, true, true, true, true, true⟩
        (idTables 'M'.toUInt8)
        (bgmSegment (.composite (loneValue ++ [.ofBytes []]))) ∧
    segmentToXml ⟨true, true, true, true, true, true⟩ (idTables 'C'.toUInt8)
        (bgmSegment (.ofValues loneValue))
      = segmentToXml ⟨true, true, true, true, true, true⟩
        (idTables 'C'.toUInt8)
        (bgmSegment (.composite (loneValue ++ [.ofBytes []]))) := by
  have hempty : ∀ w ∈ [EdiValue.ofBytes []], w.valuelen = 0 := by simp +decide
  have hdata : ∀ e : EdiElement, dataElements (ascii "BGM")
      (bgmSegment e).elements = [] ++ e :: [.simple (.ofBytes (ascii "a"))] := by
    intro e
    rw [bgmSegment, dataElements, if_pos (by decide +kernel), List.nil_append]
  constructor
  · exact segmentToXml_trailing_empty ⟨true, true, true, true, true, true⟩
      (find_idSegment _) (List.nil_append _).symm (by decide +kernel)
      (find_idComposite _) (List.cons_ne_nil _ _) (by simp) hempty (by decide)
      rfl rfl rfl (Or.inr rfl) (Or.inr rfl) (hdata _) (hdata _) (Or.inl rfl)
  · exact segmentToXml_trailing_empty ⟨true, true, true, true, true, true⟩
      (find_idSegment _) (List.nil_append _).symm (by decide +kernel)
      (find_idComposite _) (List.cons_ne_nil _ _) (by simp) hempty (by decide)
      rfl rfl rfl (Or.inl rfl) (Or.inr rfl) (hdata _) (hdata _)
      (Or.inr (by decide +kernel))

/-- `BGM+b+a'` and `BGM+b:+a'`, where it is mandatory: the simple element is
taken for a missing composite, and the composite with an empty component is
rendered. -/
theorem segmentToXml_trailing_empty_differs :
    errors (segmentToXml ⟨true, true, true, true, true, true⟩
        (idTables 'M'.toUInt8) (bgmSegment (.ofValues loneValue)))
      = [ascii "mandatory element C106 is missing",
        ascii "extra data (2 elements) at segment BGM tail"] ∧
    errors (segmentToXml ⟨true, true, true, true, true, true⟩
        (idTables 'M'.toUInt8)
        (bgmSegment (.composite (loneValue ++ [.ofBytes []])))) = [] ∧
    written (segmentToXml ⟨true, true, true, true, true, true⟩
        (idTables 'M'.toUInt8) (bgmSegment (.ofValues loneValue)))
      ≠ written (segmentToXml ⟨true, true, true, true, true, true⟩
        (idTables 'M'.toUInt8)
        (bgmSegment (.composite (loneValue ++ [.ofBytes []])))) := by
  refine ⟨by decide +kernel, by decide +kernel, by decide +kernel⟩

end Libedi
