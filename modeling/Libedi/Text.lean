import Libedi.Output

/-!
# The text of an interchange

`segmentsText` is what the builder writes for segments in front of which it puts
no header: escaped values, and a separator between any two of them.  The script
of such segments is a plain copy of this text (`segmentsOps_none`), so its peak
is the length of the text.

`ediInterchangeBuild_text` is what the other modules use of the builder.  In a
buffer that is larger than the peak of the script, it leaves the text that the
script makes, as a string.
-/

namespace Libedi

open BoundedOutput

/-! ## Texts -/

/-- The text of an element: its values, with the sub-element separator between
them. -/
def elementText (params : EdiParams) (e : EdiElement) : Bytes :=
  [params.subelementSeparator].intercalate
    (e.values.map fun v => escapeBytes params v.value)

/-- The text of a segment: the tag separator goes behind the first element, the
element separator behind the others. -/
def elementsText (params : EdiParams) : List EdiElement → Bytes
  | [] => []
  | [e] => elementText params e
  | e :: e' :: es =>
    elementText params e ++ params.tagSeparator ::
      [params.elementSeparator].intercalate
        ((e' :: es).map (elementText params))

/-- The text of some segments, each with the segment separator behind it. -/
def segmentsText (params : EdiParams) (ss : List EdiSegment) : Bytes :=
  ss.flatMap fun s => elementsText params s.elements ++ [params.segmentSeparator]

/-- With one separator for both. -/
theorem elementsText_eq_intercalate {params : EdiParams}
    (h : params.tagSeparator = params.elementSeparator)
    (es : List EdiElement) :
    elementsText params es
      = [params.elementSeparator].intercalate (es.map (elementText params)) := by
  rcases es with - | ⟨e, - | ⟨e', es⟩⟩
  · rfl
  · simp [elementsText]
  · rw [elementsText, h, List.map_cons, List.map_cons, List.map_cons,
      List.intercalate_cons_cons, List.append_assoc]
    rfl

theorem segmentsText_cons (params : EdiParams) (s : EdiSegment)
    (ss : List EdiSegment) :
    segmentsText params (s :: ss) = elementsText params s.elements ++
      params.segmentSeparator :: segmentsText params ss := by
  simp [segmentsText]

/-- Only the values count for the text. -/
theorem elementsText_congr (params : EdiParams) {es es' : List EdiElement}
    (h : es.map (·.values) = es'.map (·.values)) :
    elementsText params es = elementsText params es' := by
  have htext : ∀ es : List EdiElement, es.map (elementText params)
      = (es.map (·.values)).map fun vs =>
        [params.subelementSeparator].intercalate
          (vs.map fun v => escapeBytes params v.value) := by
    intro es
    rw [List.map_map]
    rfl
  have hmap : es.map (elementText params) = es'.map (elementText params) := by
    rw [htext, htext, h]
  rcases es with - | ⟨e, - | ⟨f, es⟩⟩ <;>
    rcases es' with - | ⟨e', - | ⟨f', es'⟩⟩ <;>
    simp_all [elementsText]

/-! ## Scripts without a header -/

section Scripts

variable (pun : List EdiValue → EdiValue) (params : EdiParams)

theorem puts_intercalate_cons {α : Type*} (rest : List α) (f : α → Bytes)
    (a : Bytes) (c : UInt8) :
    puts a ++ (separatorOps rest c ++ puts ([c].intercalate (rest.map f)))
      = puts ([c].intercalate (a :: rest.map f)) := by
  cases rest with
  | nil => simp [separatorOps]
  | cons b rest =>
    rw [List.map_cons, List.intercalate_cons_cons, List.append_assoc,
      puts_append, puts_append]
    rfl

theorem compositeOps_none (check : EdiValue) (vs : List EdiValue) :
    compositeOps params none check vs
      = puts ([params.subelementSeparator].intercalate
          (vs.map fun v => escapeBytes params v.value)) := by
  induction vs with
  | nil => rfl
  | cons v vs ih =>
    rw [compositeOps, ih]
    exact puts_intercalate_cons vs _ _ _

theorem elementOps_none (e : EdiElement) :
    elementOps pun params none e = puts (elementText params e) := by
  cases e with
  | untyped => rfl
  | simple v => simp [elementOps, valueOps, headerOps, elementText,
      EdiElement.values]
  | composite vs => exact compositeOps_none params (pun vs) vs

theorem elementsOps_false (hdr : Option (Bytes × Bytes))
    (es : List EdiElement) :
    elementsOps pun params hdr false es
      = puts ([params.elementSeparator].intercalate
          (es.map (elementText params))) := by
  induction es with
  | nil => rfl
  | cons e es ih =>
    rw [elementsOps, ih, if_neg Bool.false_ne_true, if_neg Bool.false_ne_true,
      elementOps_none]
    exact puts_intercalate_cons es _ _ _

/-- The first element may have a header in front of it. -/
theorem elementsOps_cons (hdr : Option (Bytes × Bytes)) (e : EdiElement)
    (es : List EdiElement) {header : List (Op UInt8)}
    (h : elementOps pun params hdr e = header ++ puts (elementText params e)) :
    elementsOps pun params hdr true (e :: es)
      = header ++ puts (elementsText params (e :: es)) := by
  rw [elementsOps, elementsOps_false, if_pos rfl, if_pos rfl, h,
    List.append_assoc]
  cases es with
  | nil => simp [separatorOps, elementsText]
  | cons e' es =>
    rw [elementsText, puts_append, puts_cons]
    rfl

theorem elementsOps_none (es : List EdiElement) :
    elementsOps pun params none true es = puts (elementsText params es) := by
  cases es with
  | nil => rfl
  | cons e es =>
    have h := elementOps_none pun params e
    rw [← List.nil_append (puts (elementText params e))] at h
    exact elementsOps_cons pun params none e es h

theorem segmentsOps_none (ss : List EdiSegment) :
    segmentsOps pun params none ss = puts (segmentsText params ss) := by
  induction ss with
  | nil => rfl
  | cons s ss ih =>
    have hheader : segmentIsHeader pun none s = false := by
      unfold segmentIsHeader
      cases s.elements.head? <;> simp
    rw [segmentsOps, ih, elementsOps_none, hheader, trailerOps,
      if_neg Bool.false_ne_true, segmentsText_cons, puts_append, puts_cons]
    rfl

end Scripts

/-! ## The string in the buffer -/

/-- The builder leaves the text of its script, as a string, and returns its
length. -/
theorem ediInterchangeBuild_text (pun : List EdiValue → EdiValue)
    (msg : EdiInterchange) (params : Option EdiParams) (mem : Nat → UInt8)
    (buflen : UInt64) (h : TrailerOk (params.getD ediDefaultParams))
    {text : Bytes}
    (hrun : run (interchangeOps pun (params.getD ediDefaultParams) msg) []
      = text)
    (hpeak : peak (interchangeOps pun (params.getD ediDefaultParams) msg) 0
      < buflen.toNat)
    (hfree : (0 : UInt8) ∉ text) :
    ∃ (buf : Buffer UInt8) (m : CString),
      ediInterchangeBuild pun msg params mem buflen = some (buf, m.strlen) ∧
        m.get = buf.mem ∧ m.bytes = text := by
  obtain ⟨buf, n, hbuild, hat, -, hnul⟩ :=
    ediInterchangeBuild_at pun msg params mem buflen h.headerOf
  rw [runTo_eq_run hpeak, hrun] at hat
  have hn : n = text.length := hat.pos
  refine ⟨buf, ⟨text, hfree, buf.mem⟩, ?_, ?_, rfl⟩
  · rw [hbuild, hn]
    rfl
  · funext k
    rcases Nat.lt_trichotomy k text.length with hk | rfl | hk
    · rw [CString.get_of_lt hk, List.getD_eq_getElem?_getD, hat.holds k hk,
        Option.getD_some]
    · rw [← hn, hnul, hn]
      exact CString.get_strlen _
    · rw [CString.get_of_gt hk]

end Libedi
