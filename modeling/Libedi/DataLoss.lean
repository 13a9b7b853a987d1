import Libedi.ConvertSteps
import Libedi.ReadBack
import Mathlib.Data.List.Perm.Subperm

/-!
# Which data the converter drops

`segment_to_xml` goes through the children of the segment's structure, and takes
one data element for each.  A data element of the wrong kind at an optional
child is left out without a report, and so are the values of a composite behind
its last component.  Both lose what is in them, unless an error is reported for
the segment at some other place (`segmentToXml_keeps_iff`).
-/

namespace Libedi

variable (opts : Edi2xmlConfig) (all : EdistructAll)

/-! ## What is reported and what is left out -/

/-- The values that are not empty. -/
def nonEmpty (vs : List EdiValue) : List EdiValue :=
  vs.filter fun v => v.valuelen ≠ 0

/-- The number of components of a composite child. -/
def componentCount (child : EdistructChild) : Nat :=
  ((childStruct all child).bind id).elim 0 fun c => c.children.length

/-- The values of a data element that are not handed over at a child. -/
def leftOut (child : EdistructChild) (e : EdiElement) : List EdiValue :=
  match fitOf all child e with
  | .mismatch => e.values
  | .composite vs => vs.drop (componentCount all child)
  | _ => []

/-- No error is reported for the data elements `es` at the children `cs`. -/
structure Unreported (cs : List EdistructChild) (es : List EdiElement) :
    Prop where
  fits : es.length ≤ cs.length
  optional : ∀ child ∈ cs.drop es.length, child.isOptional = true
  kinds : ∀ x ∈ cs.zip es, fitOf all x.1 x.2 = .mismatch →
    x.1.isOptional = true

theorem unreported_cons {child : EdistructChild} {cs : List EdistructChild}
    {e : EdiElement} {es : List EdiElement} :
    Unreported all (child :: cs) (e :: es) ↔
      (fitOf all child e = .mismatch → child.isOptional = true) ∧
        Unreported all cs es := by
  constructor
  · rintro ⟨hfits, hoptional, hkinds⟩
    rw [List.zip_cons_cons, List.forall_mem_cons] at hkinds
    exact ⟨hkinds.1, Nat.le_of_succ_le_succ hfits, hoptional, hkinds.2⟩
  · rintro ⟨hkind, hfits, hoptional, hkinds⟩
    refine ⟨Nat.succ_le_succ hfits, hoptional, ?_⟩
    rw [List.zip_cons_cons, List.forall_mem_cons]
    exact ⟨hkind, hkinds⟩

variable {all}

/-- An error is reported for a child, or there are data elements left. -/
theorem childrenToXml_unreported {cs : List EdistructChild}
    (hcs : ∀ child ∈ cs, ChildKnown all child (childStruct all child))
    (helements : ∀ child ∈ cs, child.isComposite = false →
      ∃ e, findEdistructElement all child.code = some (some e))
    (hcomponents : ∀ c ∈ all.comps, ComponentsKnown all c)
    (es : List EdiElement) :
    errors (childrenToXml opts all cs es).1 = [] ∧
      (childrenToXml opts all cs es).2 = [] ↔ Unreported all cs es := by
  induction cs generalizing es with
  | nil =>
    rw [childrenToXml, errors_nil, and_iff_right rfl]
    constructor
    · rintro rfl
      exact ⟨Nat.le_refl 0, by simp, by simp⟩
    · intro h
      exact List.length_eq_zero_iff.1 (Nat.le_zero.1 h.fits)
  | cons child cs ih =>
    have hchild := hcs child List.mem_cons_self
    have hrest := ih (List.forall_mem_of_forall_mem_cons hcs)
      (List.forall_mem_of_forall_mem_cons helements)
    cases es with
    | nil =>
      rw [childrenToXml_nil opts all hchild]
      have hnil : Unreported all (child :: cs) [] ↔
          child.isOptional = true ∧ Unreported all cs [] := by
        constructor
        · rintro ⟨-, hoptional, -⟩
          rw [List.length_nil, List.drop_zero, List.forall_mem_cons]
            at hoptional
          exact ⟨hoptional.1, Nat.zero_le _, hoptional.2, by simp⟩
        · rintro ⟨hfirst, -, hoptional, -⟩
          exact ⟨Nat.zero_le _, List.forall_mem_cons.2 ⟨hfirst, hoptional⟩,
            by simp⟩
      rw [hnil]
      split
      · next hoptional => rw [hrest, hoptional, eq_self, true_and]
      · next hmandatory => simp [hmandatory]
    | cons e es =>
      rw [unreported_cons]
      cases childrenToXml_step opts all hchild cs e es with
      | simple v hkind hfit hv hstep =>
        obtain ⟨x, hx⟩ := helements child List.mem_cons_self hkind
        rw [hstep, errors_append, errors_elementToXml opts all hx,
          List.nil_append, hrest, hfit]
        simp
      | composite c hfit hstruct hc hstep =>
        rw [hstep, errors_append,
          errors_compositeToXml opts all _ (hcomponents c hc), List.nil_append, hrest, hfit]
        simp
      | skipped hfit hoptional hstep =>
        rw [hstep, errors_append, errors_elementMissingXml, List.nil_append,
          hrest, hoptional]
        simp
      | stopped hfit hoptional hstep =>
        rw [hstep]
        simp [hfit, hoptional]

/-! ## What is handed over -/

/-- The strings of the values that are not empty. -/
def dataBytes (vs : List EdiValue) : List Bytes :=
  (nonEmpty vs).map EdiValue.value

/-- The strings that are not empty among those that `element_to_xml` gets. -/
def handedBytes (steps : List Step) : List Bytes :=
  ((handed steps).map Prod.snd).filter (· ≠ [])

@[simp] theorem dataBytes_append (vs ws : List EdiValue) :
    dataBytes (vs ++ ws) = dataBytes vs ++ dataBytes ws := by
  simp [dataBytes, nonEmpty]

@[simp] theorem handedBytes_append (ss ts : List Step) :
    handedBytes (ss ++ ts) = handedBytes ss ++ handedBytes ts := by
  simp [handedBytes]

theorem handedBytes_of_handed_nil {steps : List Step} (h : handed steps = []) :
    handedBytes steps = [] := by
  simp [handedBytes, h]

/-- Both tests for an empty string say the same. -/
theorem EdiValue.IsString.value_eq_nil_iff {v : EdiValue} (h : v.IsString) :
    v.value = [] ↔ v.valuelen = 0 := by
  rw [h.2, List.length_eq_zero_iff]

theorem handedBytes_elementToXml {v : EdiValue} (hv : v.IsString)
    (code : Bytes) :
    handedBytes (elementToXml opts all code v.value) = dataBytes [v] := by
  by_cases hlen : v.valuelen = 0
  · simp [handedBytes, dataBytes, nonEmpty, hlen, hv.value_eq_nil_iff.2 hlen]
  · have hne : v.value ≠ [] := fun hnil => hlen (hv.value_eq_nil_iff.1 hnil)
    simp [handedBytes, dataBytes, nonEmpty, hlen, hne]

theorem handedBytes_componentsToXml (cs : List EdistructChild)
    {vs : List EdiValue} (hvs : ∀ v ∈ vs, v.IsString) :
    handedBytes (componentsToXml opts all cs vs)
      = dataBytes (vs.take cs.length) := by
  induction cs generalizing vs with
  | nil => simp [componentsToXml, handedBytes, dataBytes, nonEmpty]
  | cons c cs ih =>
    cases vs with
    | nil =>
      rw [componentsToXml, handedBytes_append, ih hvs, handedBytes_of_handed_nil
        (handed_elementMissingXml opts all c.code)]
      simp
    | cons v vs =>
      rw [List.forall_mem_cons] at hvs
      have hturn : handedBytes (if v.valuelen ≠ 0 then
          elementToXml opts all c.code v.value
          else elementMissingXml opts all c.code) = dataBytes [v] := by
        split
        · exact handedBytes_elementToXml opts hvs.1 c.code
        · next hlen =>
          rw [handedBytes_of_handed_nil
            (handed_elementMissingXml opts all c.code)]
          simp [dataBytes, nonEmpty, not_not.1 hlen]
      rw [componentsToXml, handedBytes_append, hturn, ih hvs.2,
        List.length_cons, List.take_succ_cons, ← dataBytes_append]
      rfl

/-- The values of a data element, also if it is taken for a composite. -/
theorem dataBytes_componentValues (e : EdiElement) :
    dataBytes e.componentValues = dataBytes e.values := by
  cases e <;>
    simp [EdiElement.componentValues, EdiElement.values, EdiElement.simpleValue,
      dataBytes, nonEmpty]

theorem isString_componentValues {e : EdiElement}
    (h : ∀ v ∈ e.values, v.IsString) : ∀ v ∈ e.componentValues, v.IsString := by
  cases e with
  | untyped => simp [EdiElement.componentValues, EdiElement.simpleValue,
      EdiValue.IsString]
  | simple v => exact h
  | composite vs => exact h

/-- Of the data elements at the children the values are handed over or left out,
as long as the loop is not ended by an error. -/
theorem handedBytes_childrenToXml {cs : List EdistructChild}
    (hcs : ∀ child ∈ cs, ChildKnown all child (childStruct all child))
    {es : List EdiElement} (hes : ∀ e ∈ es, ∀ v ∈ e.values, v.IsString)
    (h : Unreported all cs es) :
    (handedBytes (childrenToXml opts all cs es).1 ++
      (cs.zip es).flatMap fun x => dataBytes (leftOut all x.1 x.2)).Perm
      (dataBytes (es.flatMap EdiElement.values)) := by
  induction cs generalizing es with
  | nil =>
    obtain rfl := List.length_eq_zero_iff.1 (Nat.le_zero.1 h.fits)
    exact List.Perm.refl _
  | cons child cs ih =>
    have hchild := hcs child List.mem_cons_self
    cases es with
    | nil =>
      have hnil := childrenToXml_nil opts all hchild cs
      rw [if_pos (h.optional child List.mem_cons_self)] at hnil
      rw [hnil]
      simpa using ih (List.forall_mem_of_forall_mem_cons hcs) hes
        ⟨Nat.zero_le _, fun c hc => h.optional c (List.mem_cons_of_mem _ hc),
          by simp⟩
    | cons e es =>
      rw [List.forall_mem_cons] at hes
      obtain ⟨hkind, hun⟩ := (unreported_cons all).1 h
      have hrest := ih (List.forall_mem_of_forall_mem_cons hcs) hes.2 hun
      have hturn : ∃ ss, (childrenToXml opts all (child :: cs) (e :: es)).1
          = ss ++ (childrenToXml opts all cs es).1 ∧
          handedBytes ss ++ dataBytes (leftOut all child e)
            = dataBytes e.values := by
        cases childrenToXml_step opts all hchild cs e es with
        | simple v hkind hfit hv hstep =>
          subst hv
          refine ⟨_, by rw [hstep], ?_⟩
          rw [handedBytes_elementToXml opts (hes.1 v List.mem_cons_self),
            leftOut, hfit]
          exact List.append_nil _
        | composite c hfit hstruct hc hstep =>
          refine ⟨_, by rw [hstep], ?_⟩
          have hcount : componentCount all child = c.children.length := by
            simp [componentCount, hstruct]
          rw [handedBytes, handed_compositeToXml, ← handedBytes,
            handedBytes_componentsToXml opts _ (isString_componentValues hes.1),
            leftOut, hfit, hcount, ← dataBytes_append, List.take_append_drop,
            dataBytes_componentValues]
        | skipped hfit hoptional hstep =>
          refine ⟨_, by rw [hstep], ?_⟩
          rw [handedBytes_of_handed_nil (handed_elementMissingXml opts all _),
            leftOut, hfit]
          rfl
        | stopped hfit hoptional hstep =>
          simp [hkind hfit] at hoptional
      obtain ⟨ss, hss, hvalues⟩ := hturn
      rw [hss, handedBytes_append, List.zip_cons_cons, List.flatMap_cons,
        List.flatMap_cons, dataBytes_append, ← hvalues, List.append_assoc,
        List.append_assoc]
      refine List.Perm.append_left _ ?_
      exact (List.perm_append_comm_assoc _ _ _).trans
        (List.Perm.append_left _ hrest)

/-! ## Segments -/

/-- Every value of the data elements that is not empty is handed to
`element_to_xml`, as often as it is there, or an error is reported. -/
def KeepsData (seg : EdiSegment) (tag : Bytes) : Prop :=
  errors (segmentToXml opts all seg) ≠ [] ∨
    (dataBytes ((dataElements tag seg.elements).flatMap
      EdiElement.values)).Subperm
      ((handed (segmentToXml opts all seg)).map Prod.snd)

theorem mem_dataElements {tag : Bytes} {es : List EdiElement} {e : EdiElement}
    (h : e ∈ dataElements tag es) : e ∈ es := by
  unfold dataElements at h
  split at h
  · split at h
    · exact List.mem_cons_of_mem _ h
    · exact h
  · exact h

/-- The values that are handed over are those for the children. -/
theorem handed_segmentToXml {seg : EdiSegment} {tag : Bytes} {s : EdistructSegment}
    (htag : seg.tag = some tag)
    (hs : findEdistructSegment all tag = some (some s))
    (helements : seg.elements ≠ []) :
    handed (segmentToXml opts all seg)
      = handed (childrenToXml opts all s.children
          (dataElements tag seg.elements)).1 := by
  rw [segmentToXml_known opts htag hs helements]
  simp only [handed_append, handed_outIf, handed_out, List.nil_append]
  unfold extraData
  split <;> simp

theorem errors_segmentToXml_eq_nil_iff (hknown : ChildrenKnown all)
    {seg : EdiSegment} {tag : Bytes} {s : EdistructSegment}
    (htag : seg.tag = some tag)
    (hs : findEdistructSegment all tag = some (some s))
    (helements : seg.elements ≠ []) :
    errors (segmentToXml opts all seg) = [] ↔
      Unreported all s.children (dataElements tag seg.elements) := by
  have hmem := (BinarySearch.find_sound hs).1
  rw [← childrenToXml_unreported opts (hknown.child hmem)
    (hknown.element s hmem) hknown.components,
    segmentToXml_known opts htag hs helements]
  simp only [errors_append, errors_outIf, errors_out, List.nil_append,
    List.append_eq_nil_iff]
  unfold extraData
  split <;> simp_all

/-- The strings of values that are not empty are not empty. -/
theorem filter_dataBytes {vs : List EdiValue} (h : ∀ v ∈ vs, v.IsString) :
    (dataBytes vs).filter (· ≠ []) = dataBytes vs := by
  rw [List.filter_eq_self]
  intro b hb
  obtain ⟨v, hv, rfl⟩ := List.mem_map.1 hb
  obtain ⟨hmem, hne⟩ := List.mem_filter.1 hv
  simpa [(h v hmem).value_eq_nil_iff] using hne

theorem flatMap_leftOut_eq_nil_iff {xs : List (EdistructChild × EdiElement)} :
    (xs.flatMap fun x => dataBytes (leftOut all x.1 x.2)) = [] ↔
      ∀ x ∈ xs, ∀ v ∈ leftOut all x.1 x.2, v.valuelen = 0 := by
  simp [List.flatMap_eq_nil_iff, dataBytes, nonEmpty, List.filter_eq_nil_iff]

/-- A segment loses nothing exactly if an error is due for it, or what is left
out at its children is empty.  An error is due if there are more data elements
than children, if a child behind the last data element is mandatory, or if one
at a data element of another kind is. -/
theorem segmentToXml_keeps_iff (hfilled : FilledTables all)
    (hknown : ChildrenKnown all) {seg : EdiSegment} {tag : Bytes}
    {s : EdistructSegment} (htag : seg.tag = some tag)
    (hs : findEdistructSegment all tag = some (some s))
    (helements : seg.elements ≠ [])
    (hstrings : ∀ e ∈ seg.elements, ∀ v ∈ e.values, v.IsString) :
    NoFault (segmentToXml opts all seg) ∧
      (@KeepsData opts all seg tag ↔
        ¬ Unreported all s.children (dataElements tag seg.elements) ∨
        ∀ x ∈ s.children.zip (dataElements tag seg.elements),
          ∀ v ∈ leftOut all x.1 x.2, v.valuelen = 0) := by
  refine ⟨noFault_segmentToXml opts hfilled hknown.toCompositesKnown
    (by simp [htag]) helements, ?_⟩
  have hcs := hknown.child (BinarySearch.find_sound hs).1
  have hhanded := handed_segmentToXml opts htag hs helements
  have herrors := errors_segmentToXml_eq_nil_iff opts hknown htag hs helements
  rw [KeepsData, hhanded, ne_eq, herrors]
  have hesStrings : ∀ e ∈ dataElements tag seg.elements, ∀ v ∈ e.values,
      v.IsString := fun e he => hstrings e (mem_dataElements he)
  generalize dataElements tag seg.elements = es at hesStrings
  by_cases hun : Unreported all s.children es
  · simp only [hun, not_true, false_or]
    have hperm := handedBytes_childrenToXml opts hcs hesStrings hun
    have hdata : (dataBytes (es.flatMap EdiElement.values)).filter (· ≠ [])
        = dataBytes (es.flatMap EdiElement.values) := by
      apply filter_dataBytes
      intro v hv
      obtain ⟨e, he, hve⟩ := List.mem_flatMap.1 hv
      exact hesStrings e he v hve
    rw [← flatMap_leftOut_eq_nil_iff]
    constructor
    · intro hsub
      have hle := (hsub.filter (· ≠ [])).length_le
      rw [hdata, ← hperm.length_eq, List.length_append] at hle
      refine List.length_eq_zero_iff.1 ?_
      have hhandedBytes : (((handed (childrenToXml opts all s.children es).1).map
          Prod.snd).filter (· ≠ [])).length
          = (handedBytes (childrenToXml opts all s.children es).1).length := rfl
      omega
    · intro hnil
      rw [hnil, List.append_nil] at hperm
      exact hperm.symm.subperm.trans List.filter_sublist.subperm
  · simp only [hun, not_false_eq_true, true_or]

/-- `BGM+a:b'`: a composite where the directory has a simple data element. -/
def compositeSegment : EdiSegment :=
  ⟨[.simple (.ofBytes (ascii "BGM")),
    .composite [.ofBytes (ascii "a"), .ofBytes (ascii "b")]],
    some (ascii "BGM"), 0⟩

/-- The two values are left out, and nothing is reported. -/
theorem segmentToXml_drops_composite :
    errors (segmentToXml ⟨true, true, true, true, true, true⟩ sampleTables
      compositeSegment) = [] ∧
    handed (segmentToXml ⟨true, true, true, true, true, true⟩ sampleTables
      compositeSegment) = [] ∧
    ¬ @KeepsData ⟨true, true, true, true, true, true⟩ sampleTables
      compositeSegment (ascii "BGM") := by
  have herrors : errors (segmentToXml ⟨true, true, true, true, true, true⟩
      sampleTables compositeSegment) = [] := by
    decide +kernel
  have hhanded : handed (segmentToXml ⟨true, true, true, true, true, true⟩
      sampleTables compositeSegment) = [] := by
    decide +kernel
  refine ⟨herrors, hhanded, ?_⟩
  rw [KeepsData, herrors, hhanded]
  rintro (hne | hsub)
  · exact hne rfl
  have hle := hsub.length_le
  have hlen : (dataBytes ((dataElements (ascii "BGM")
      compositeSegment.elements).flatMap EdiElement.values)).length = 2 := by
    decide +kernel
  rw [hlen, List.map_nil, List.length_nil] at hle
  omega

/-- `BGM+a'`: all is handed over. -/
theorem segmentToXml_keeps_simple :
    @KeepsData ⟨false, false, false, false, false, false⟩ sampleTables
      ⟨[.simple (.ofBytes (ascii "BGM")), .simple (.ofBytes (ascii "a"))],
        some (ascii "BGM"), 0⟩ (ascii "BGM") :=
  (segmentToXml_keeps_iff _ sampleTables_filled sampleTables_known rfl
    (@find_present _ EdistructSegment.name _ (List.pairwise_singleton _ _) _
      List.mem_cons_self) (by simp)
    (by
      have hbytes : ∀ v ∈ [ascii "BGM", ascii "a"],
          (EdiValue.ofBytes v).IsString :=
        forall_mem_of_all (by decide +kernel)
      simpa [EdiElement.values] using hbytes)).2.2
    (Or.inr (by decide +kernel))

end Libedi
