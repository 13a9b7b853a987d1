import Libedi.Dialects
import Libedi.Text

/-!
# Reading a text back

What the grammar of the parser makes of a text that the builder has written
with the same separators.  There are three groups.

* An escaped value is one component (`components_elementText`), so an element
  and a segment are cut where they were joined (`elementTexts_elementsText`,
  `segmentText_elementsText`).
* The two things that do get lost.  An empty last value is not recorded, and
  newlines in front of a segment are skipped, because the builder does not
  escape them (`dropWhile_elementsText`).
* `segments_segmentsText`, for all segments of a text.
-/

namespace Libedi

open EscapedText

/-! ## Elements that are made of strings -/

/-- The length of the value is that of its string. -/
def EdiValue.IsString (v : EdiValue) : Prop :=
  (0 : UInt8) ∉ v.value ∧ v.valuelen = v.value.length

instance (v : EdiValue) : Decidable v.IsString :=
  inferInstanceAs (Decidable (_ ∧ _))

theorem EdiValue.IsString.ofBytes_value {v : EdiValue} (h : v.IsString) :
    EdiValue.ofBytes v.value = v := by
  rw [EdiValue.ofBytes, ← h.2]

/-- An element with at least one value, all of them strings. -/
structure EdiElement.Filled (e : EdiElement) : Prop where
  values_ne_nil : e.values ≠ []
  isString : ∀ v ∈ e.values, v.IsString

/-- The element that holds these values and is not a composite of one value. -/
def EdiElement.ofValues : List EdiValue → EdiElement
  | [v] => .simple v
  | vs => .composite vs

@[simp] theorem EdiElement.values_ofValues (vs : List EdiValue) :
    (EdiElement.ofValues vs).values = vs := by
  rcases vs with - | ⟨v, - | ⟨w, vs⟩⟩ <;> rfl

/-- The builder writes this element like its only value. -/
def EdiElement.isLone : EdiElement → Bool
  | .composite [_] => true
  | _ => false

theorem EdiElement.Filled.ofValues_values {e : EdiElement} (h : e.Filled) :
    EdiElement.ofValues e.values = e ↔ e.isLone = false := by
  have hne := h.values_ne_nil
  rcases e with - | v | ⟨- | ⟨v, - | ⟨w, vs⟩⟩⟩ <;>
    simp_all [EdiElement.values, EdiElement.ofValues, EdiElement.isLone]

/-! ## Escaped values -/

/-- The parameters hold these separators, with an escape. -/
structure Separators.Fits (s : Separators) (params : EdiParams) : Prop where
  seg : params.segmentSeparator = s.seg
  data : params.elementSeparator = s.data
  sub : params.subelementSeparator = s.sub
  tag : params.tagSeparator = s.tag
  escape : params.escape = s.escape
  escape_ne : s.escape ≠ 0

namespace Separators.Fits

variable {s : Separators} {params : EdiParams} (h : s.Fits params)
include h

theorem isSpecial_iff (c : UInt8) : isSpecial params c = true ↔
    c = s.seg ∨ c = s.data ∨ c = s.sub ∨ c = s.tag ∨ c = s.escape := by
  have hne := h.escape_ne
  simp [isSpecial, h.seg, h.data, h.sub, h.tag, h.escape, charVal_eq_iff,
    s.seg_lt, s.data_lt, s.sub_lt, s.tag_lt, s.escape_lt, hne, or_assoc]

theorem isEscape_iff (c : UInt8) : s.isEscape c = true ↔ c = s.escape := by
  have hne := h.escape_ne
  simp [isEscape, hne]

/-- An escaped value holds no separator. -/
theorem unbroken {x : UInt8} (hx : isSpecial params x = true) (v : Bytes) :
    Unbroken s.isEscape (· == x) false (escapeBytes params v) := by
  rw [escapeBytes]
  refine unbroken_escape ?_ ?_ ?_ v
  · rw [h.isEscape_iff, h.escape]
  · intro c hc
    rw [h.isSpecial_iff, (h.isEscape_iff c).1 hc]
    simp
  · intro c hc
    obtain rfl : c = x := by simpa using hc
    exact hx

theorem value_escapeBytes (v : Bytes) :
    Grammar.value s (escapeBytes params v) = .ofBytes v := by
  rw [Grammar.value, escapeBytes, unescape_escape]
  · rw [h.isEscape_iff, h.escape]
  · intro c hc
    rw [h.isSpecial_iff, (h.isEscape_iff c).1 hc]
    simp

theorem isSpecial_sub : isSpecial params s.sub = true := by
  simp [h.isSpecial_iff]

theorem isSpecial_seg : isSpecial params s.seg = true := by
  simp [h.isSpecial_iff]

theorem isSpecial_elementSep (first : Bool) :
    isSpecial params (s.elementSep first) = true := by
  cases first <;> simp [h.isSpecial_iff, elementSep]

/-- The text of an element holds no separator but that of its components. -/
theorem unbroken_elementText {x : UInt8} (hx : isSpecial params x = true)
    (hsub : s.sub ≠ x) (e : EdiElement) :
    Unbroken s.isEscape (· == x) false (elementText params e) := by
  rw [elementText, h.sub]
  refine unbroken_intercalate (by simpa using hsub) s.isEscape_sub ?_
  intro p hp
  obtain ⟨v, -, rfl⟩ := List.mem_map.1 hp
  exact h.unbroken hx v.value

theorem components_elementText {e : EdiElement} (he : e.values ≠ []) :
    Grammar.components s (elementText params e)
      = e.values.map fun v => escapeBytes params v.value := by
  rw [Grammar.components, elementText, h.sub]
  refine split_intercalate (by simpa using he) (by simp) s.isEscape_sub ?_
  intro p hp
  obtain ⟨v, -, rfl⟩ := List.mem_map.1 hp
  exact h.unbroken h.isSpecial_sub v.value

theorem elementTexts_elementsText {es : List EdiElement} (hes : es ≠ []) :
    Grammar.elementTexts s (elementsText params es)
      = es.map (elementText params) := by
  have htag := h.unbroken_elementText (h.isSpecial_elementSep true)
    (s.sub_ne_elementSep true)
  have hdata := h.unbroken_elementText (h.isSpecial_elementSep false)
    (s.sub_ne_elementSep false)
  rcases es with - | ⟨e, - | ⟨e', es⟩⟩
  · exact absurd rfl hes
  · have hscan := (htag e).scan_eq
    simp only [elementsText, Grammar.elementTexts]
    rw [show s.tag = s.elementSep true from rfl, hscan]
    rfl
  · have hscan := scan_append_stop (htag e) (c := s.elementSep true) (by simp)
      (s.isEscape_elementSep true)
      ([s.data].intercalate ((e' :: es).map (elementText params)))
    have hpieces : ∀ p ∈ (e' :: es).map (elementText params),
        Unbroken s.isEscape (· == s.data) false p := by
      intro p hp
      obtain ⟨f, -, rfl⟩ := List.mem_map.1 hp
      exact hdata f
    have hsplit := split_intercalate (c := s.data) (by simp) (by simp)
      s.isEscape_data hpieces
    simp only [elementsText, Grammar.elementTexts, h.tag, h.data]
    rw [show s.tag = s.elementSep true from rfl, hscan]
    simp only [hsplit]
    rfl

theorem unbroken_elementsText (es : List EdiElement) :
    Unbroken s.isEscape (· == s.seg) false (elementsText params es) := by
  have hel := h.unbroken_elementText h.isSpecial_seg s.seg_ne_sub.symm
  rcases es with - | ⟨e, - | ⟨e', es⟩⟩
  · rfl
  · exact hel e
  · have hrest : Unbroken s.isEscape (· == s.seg) false
        ([s.data].intercalate ((e' :: es).map (elementText params))) := by
      refine unbroken_intercalate (by simpa using s.seg_ne_data.symm)
        s.isEscape_data ?_
      intro p hp
      obtain ⟨f, -, rfl⟩ := List.mem_map.1 hp
      exact hel f
    rw [elementsText, h.tag, h.data]
    exact (hel e).append
      (hrest.cons (by simpa using s.seg_ne_tag.symm) s.isEscape_tag)

theorem segmentText_elementsText (es : List EdiElement) (rest : Bytes) :
    Grammar.segmentText s (elementsText params es ++ s.seg :: rest)
      = (elementsText params es, s.seg :: rest) :=
  scan_append_stop (h.unbroken_elementsText es) (by simp) s.isEscape_seg rest

/-- The components of a segment are its escaped values. -/
theorem elements_elementsText {es : List EdiElement} (hes : es ≠ [])
    (hfilled : ∀ e ∈ es, e.Filled) :
    Grammar.elements s (elementsText params es)
      = Grammar.readElements s
          (es.map fun e => e.values.map fun v => escapeBytes params v.value) := by
  rw [Grammar.elements, h.elementTexts_elementsText hes, List.map_map]
  congr 1
  refine List.map_congr_left fun e he => ?_
  exact h.components_elementText (hfilled e he).values_ne_nil

theorem element_values {e : EdiElement} (he : e.Filled) :
    Grammar.element s (e.values.map fun v => escapeBytes params v.value)
      = EdiElement.ofValues e.values := by
  have hvalue : ∀ v ∈ e.values,
      Grammar.value s (escapeBytes params v.value) = v := fun v hv => by
    rw [h.value_escapeBytes, (he.isString v hv).ofBytes_value]
  have hmap : (e.values.map fun v => escapeBytes params v.value).map
      (Grammar.value s) = e.values := by
    rw [List.map_map]
    exact (List.map_congr_left hvalue).trans (List.map_id _)
  rcases hvs : e.values with - | ⟨v, - | ⟨w, vs⟩⟩
  · exact absurd hvs he.values_ne_nil
  · have hv := hvalue v (by simp [hvs])
    simp [Grammar.element, EdiElement.ofValues, hv]
  · rw [hvs] at hmap
    simp only [List.map_cons] at hmap ⊢
    simp only [Grammar.element, List.map_cons, EdiElement.ofValues, hmap]

end Separators.Fits

/-! ## What gets lost -/

/-- The values of a segment, in order. -/
def segmentValues (es : List EdiElement) : List EdiValue :=
  es.flatMap (·.values)

/-- The last value is empty. -/
def endsEmpty (vs : List EdiValue) : Bool :=
  vs.getLast?.elim false (·.value.isEmpty)

theorem segmentValues_concat (es : List EdiElement) (e : EdiElement) :
    segmentValues (es ++ [e]) = segmentValues es ++ e.values := by
  simp [segmentValues]

theorem endsEmpty_append {ws : List EdiValue} (hws : ws ≠ [])
    (vs : List EdiValue) : endsEmpty (vs ++ ws) = endsEmpty ws := by
  rw [endsEmpty, List.getLast?_append_of_ne_nil vs hws, endsEmpty]

/-- The components of the last element end in an empty one if its values do. -/
theorem getLast?_components (params : EdiParams) (vs : List EdiValue) :
    ((vs.map fun v => escapeBytes params v.value).getLast? = some [])
      ↔ endsEmpty vs = true := by
  rw [endsEmpty, List.getLast?_map]
  cases vs.getLast? <;> simp [escapeBytes, escape_eq_nil]

namespace Separators.Fits

variable {s : Separators} {params : EdiParams} (h : s.Fits params)
include h

theorem lastElement_eq {e : EdiElement} (he : e.Filled)
    (hlast : endsEmpty e.values = false) :
    Grammar.lastElement s (e.values.map fun v => escapeBytes params v.value)
      = [EdiElement.ofValues e.values] := by
  rw [Grammar.lastElement, if_neg, h.element_values he]
  rw [getLast?_components, hlast]
  simp

/-- An empty last value is not read back. -/
theorem lastElement_values {e : EdiElement} (he : e.Filled)
    (hlast : endsEmpty e.values = true) :
    segmentValues (Grammar.lastElement s
        (e.values.map fun v => escapeBytes params v.value))
      = e.values.dropLast := by
  rw [Grammar.lastElement, if_pos ((getLast?_components params e.values).2 hlast)]
  split
  · next hone =>
    obtain ⟨v, hv⟩ : ∃ v, e.values = [v] :=
      List.length_eq_one_iff.1 (by simpa using hone)
    simp [hv, segmentValues]
  · have hvalue : ∀ v ∈ e.values.dropLast,
        Grammar.value s (escapeBytes params v.value) = v := fun v hv => by
      have hstring := he.isString v (List.dropLast_subset _ hv)
      rw [h.value_escapeBytes, hstring.ofBytes_value]
    have hmap := (List.map_congr_left hvalue).trans (List.map_id _)
    rw [← List.map_dropLast, List.map_map]
    exact (List.append_nil _).trans hmap

/-- A segment that ends in a non-empty value is read back, but for the
composites of one value. -/
theorem read_elements {es : List EdiElement} (hfilled : ∀ e ∈ es, e.Filled)
    (hlast : endsEmpty (segmentValues es) = false) :
    Grammar.elements s (elementsText params es)
      = es.map fun e => EdiElement.ofValues e.values := by
  rcases List.eq_nil_or_concat es with rfl | ⟨init, e, rfl⟩
  · rfl
  · rw [List.concat_eq_append] at hfilled hlast ⊢
    have he := hfilled e (by simp)
    rw [segmentValues_concat, endsEmpty_append he.values_ne_nil] at hlast
    have hinit : (init.map fun e =>
        e.values.map fun v => escapeBytes params v.value).map
          (Grammar.element s)
        = init.map fun e => EdiElement.ofValues e.values := by
      rw [List.map_map]
      exact List.map_congr_left fun f hf =>
        h.element_values (hfilled f (by simp [hf]))
    rw [h.elements_elementsText (by simp) hfilled, Grammar.readElements]
    simp only [List.map_append, List.map_cons, List.map_nil,
      List.dropLast_concat, List.getLast?_concat, Option.elim, hinit,
      h.lastElement_eq he hlast]

/-- The values that are read back: an empty last one is missing. -/
theorem read_values {es : List EdiElement} (hfilled : ∀ e ∈ es, e.Filled) :
    segmentValues (Grammar.elements s (elementsText params es))
      = if endsEmpty (segmentValues es) then (segmentValues es).dropLast
        else segmentValues es := by
  split
  · next hlast =>
    rcases List.eq_nil_or_concat es with rfl | ⟨init, e, rfl⟩
    · simp [segmentValues, endsEmpty] at hlast
    · rw [List.concat_eq_append] at hfilled hlast ⊢
      have he := hfilled e (by simp)
      rw [segmentValues_concat, endsEmpty_append he.values_ne_nil] at hlast
      have hinit : segmentValues ((init.map fun e =>
          e.values.map fun v => escapeBytes params v.value).map
            (Grammar.element s)) = segmentValues init := by
        rw [List.map_map, segmentValues, segmentValues, List.flatMap_map]
        refine List.flatMap_congr fun f hf => ?_
        have hf := h.element_values (hfilled f (by simp [hf]))
        simp [hf]
      rw [h.elements_elementsText (by simp) hfilled, Grammar.readElements]
      simp only [List.map_append, List.map_cons, List.map_nil,
        List.dropLast_concat, List.getLast?_concat, Option.elim]
      rw [segmentValues_concat, List.dropLast_append_of_ne_nil he.values_ne_nil,
        ← h.lastElement_values he hlast, ← hinit]
      simp [segmentValues]
  · next hlast =>
    rw [h.read_elements hfilled (by simpa using hlast)]
    simp [segmentValues, List.flatMap_map]

end Separators.Fits

/-! ## Newlines in front of a segment -/

/-- The value without its leading newlines. -/
def EdiValue.trimStart (v : EdiValue) : EdiValue :=
  .ofBytes (v.value.dropWhile isNewline)

/-- The element with the first value trimmed. -/
def EdiElement.trimStart : EdiElement → EdiElement
  | .untyped => .untyped
  | .simple v => .simple v.trimStart
  | .composite vs => .composite (vs.modifyHead EdiValue.trimStart)

/-- The elements of a segment with the first value trimmed. -/
def trimStart (es : List EdiElement) : List EdiElement :=
  es.modifyHead EdiElement.trimStart

theorem EdiElement.values_trimStart (e : EdiElement) :
    e.trimStart.values = e.values.modifyHead EdiValue.trimStart := by
  cases e <;> rfl

theorem EdiElement.Filled.trimStart {e : EdiElement} (h : e.Filled) :
    e.trimStart.Filled := by
  obtain ⟨v, vs, hvs⟩ := List.exists_cons_of_ne_nil h.values_ne_nil
  have hv := h.isString
  constructor
  · simp [EdiElement.values_trimStart, hvs]
  · intro w hw
    rw [EdiElement.values_trimStart, hvs, List.modifyHead_cons,
      List.mem_cons] at hw
    rcases hw with rfl | hw
    · refine ⟨fun hmem => (hv v (by simp [hvs])).1 ?_, rfl⟩
      exact List.dropWhile_subset _ hmem
    · exact hv w (by simp [hvs, hw])

theorem filled_trimStart {es : List EdiElement} (h : ∀ e ∈ es, e.Filled) :
    ∀ e ∈ trimStart es, e.Filled := by
  cases es with
  | nil => exact h
  | cons f es =>
    intro e he
    rcases List.mem_cons.1 he with rfl | he
    · exact (h f List.mem_cons_self).trimStart
    · exact h e (List.mem_cons_of_mem f he)

theorem segmentValues_trimStart {es : List EdiElement}
    (h : ∀ e ∈ es, e.Filled) :
    segmentValues (trimStart es)
      = (segmentValues es).modifyHead EdiValue.trimStart := by
  cases es with
  | nil => rfl
  | cons e es =>
    obtain ⟨v, vs, hvs⟩ :=
      List.exists_cons_of_ne_nil (h e List.mem_cons_self).values_ne_nil
    simp [trimStart, segmentValues, EdiElement.values_trimStart, hvs]

theorem intercalate_cons_eq (c : UInt8) (a : Bytes) (l : List Bytes) :
    [c].intercalate (a :: l) = a ++ l.flatMap (c :: ·) := by
  induction l generalizing a with
  | nil => simp
  | cons b l ih =>
    rw [List.intercalate_cons_cons, ih, List.flatMap_cons]
    simp

/-- The text of a segment is its first value with a rest that does not depend
on it. -/
theorem elementsText_cons (params : EdiParams) {e : EdiElement}
    {v : EdiValue} {vs : List EdiValue} (hvs : e.values = v :: vs)
    (es : List EdiElement) :
    ∃ tail, (∀ c ∈ tail.head?,
        c = params.subelementSeparator ∨ c = params.tagSeparator) ∧
      elementsText params (e :: es) = escapeBytes params v.value ++ tail ∧
      elementsText params (e.trimStart :: es)
        = escapeBytes params v.trimStart.value ++ tail := by
  have htext : ∀ e v, e.values = v :: vs →
      elementText params e = escapeBytes params v.value ++
        (vs.map fun v => escapeBytes params v.value).flatMap
          (params.subelementSeparator :: ·) := by
    intro e v hvs
    rw [elementText, hvs, List.map_cons, intercalate_cons_eq]
  have htrim : e.trimStart.values = v.trimStart :: vs := by
    rw [EdiElement.values_trimStart, hvs, List.modifyHead_cons]
  cases es with
  | nil =>
    refine ⟨_, ?_, htext e v hvs, htext _ _ htrim⟩
    cases vs <;> simp
  | cons e' es =>
    refine ⟨(vs.map fun v => escapeBytes params v.value).flatMap
        (params.subelementSeparator :: ·) ++ params.tagSeparator ::
          [params.elementSeparator].intercalate
            ((e' :: es).map (elementText params)), ?_, ?_, ?_⟩
    · cases vs <;> simp
    · rw [elementsText, htext e v hvs, List.append_assoc]
    · rw [elementsText, htext _ _ htrim, List.append_assoc]

namespace Separators.Fits

variable {s : Separators} {params : EdiParams} (h : s.Fits params)
  (hnl : ∀ c, isSpecial params c = true → isNewline c = false)
include h hnl

/-- Newlines are not escaped, so they are skipped up to the first byte of the
value that is none, or to the separator behind it. -/
theorem dropWhile_escapeBytes (v : Bytes) {tail : Bytes}
    (htail : ∀ c ∈ tail.head?, isNewline c = false) :
    (escapeBytes params v ++ tail).dropWhile isNewline
      = escapeBytes params (v.dropWhile isNewline) ++ tail := by
  induction v with
  | nil =>
    cases tail with
    | nil => rfl
    | cons c tail =>
      have hc := htail c rfl
      simp [escapeBytes, hc]
  | cons c v ih =>
    by_cases hc : isNewline c = true
    · have hspecial : isSpecial params c = false := by
        by_contra hne
        have hno := hnl c (by simpa using hne)
        simp [hc] at hno
      rw [escapeBytes, escape_cons_of_not_special hspecial, List.cons_append,
        List.dropWhile_cons_of_pos hc, List.dropWhile_cons_of_pos hc]
      exact ih
    · rw [List.dropWhile_cons_of_neg hc, escapeBytes, escape_cons]
      have hescape : isNewline params.escape = false := by
        refine hnl _ ?_
        rw [h.isSpecial_iff, h.escape]
        simp
      split
      · simp [hescape]
      · simp [hc]

/-- The newlines at the start of the first value are skipped. -/
theorem dropWhile_elementsText {es : List EdiElement}
    (hfilled : ∀ e ∈ es, e.Filled) (rest : Bytes) :
    (elementsText params es ++ s.seg :: rest).dropWhile isNewline
      = elementsText params (trimStart es) ++ s.seg :: rest := by
  have hseg := hnl s.seg h.isSpecial_seg
  have hsub := hnl s.sub h.isSpecial_sub
  have htag := hnl s.tag (h.isSpecial_elementSep true)
  cases es with
  | nil => simp [elementsText, trimStart, hseg]
  | cons e es =>
    obtain ⟨v, vs, hvs⟩ :=
      List.exists_cons_of_ne_nil (hfilled e List.mem_cons_self).values_ne_nil
    obtain ⟨tail, hhead, htext, htrim⟩ := elementsText_cons params hvs es
    rw [trimStart, List.modifyHead_cons, htext, htrim, List.append_assoc,
      List.append_assoc, h.dropWhile_escapeBytes hnl]
    · rfl
    · intro c hc
      cases tail with
      | nil =>
        obtain rfl : s.seg = c := by simpa using hc
        exact hseg
      | cons d tail =>
        obtain rfl : d = c := by simpa using hc
        rcases hhead d rfl with rfl | rfl
        · rw [h.sub]
          exact hsub
        · rw [h.tag]
          exact htag

/-- The segments of a text are those that it was written from, but for what
gets lost. -/
theorem segments_segmentsText {ss : List EdiSegment}
    (hfilled : ∀ x ∈ ss, ∀ e ∈ x.elements, e.Filled) (total : Nat) :
    (Grammar.segments s total (segmentsText params ss)).map (·.elements)
      = ss.map fun x =>
        Grammar.elements s (elementsText params (trimStart x.elements)) := by
  induction ss with
  | nil => rw [segmentsText, List.flatMap_nil, Grammar.segments_nil s rfl]; rfl
  | cons x ss ih =>
    have htext := segmentsText_cons params x ss
    rw [h.seg] at htext
    have hx := hfilled x List.mem_cons_self
    have hskip := h.dropWhile_elementsText hnl hx (segmentsText params ss)
    rw [htext, Grammar.segments_closed s hskip (by simp)
      (h.segmentText_elementsText _ _), List.map_cons, List.map_cons,
      ih fun y hy => hfilled y (List.mem_cons_of_mem x hy)]
    rfl

end Separators.Fits

/-- The tag of a segment is its first value. -/
theorem Grammar.segments_tag (s : Separators) (total : Nat) (m : Bytes) :
    ∀ x ∈ Grammar.segments s total m,
      x.tag = (segmentValues x.elements).head?.map (·.value) := by
  fun_induction Grammar.segments s total m with
  | case1 => simp
  | case2 m c cs h offset raw htext =>
    intro x hx
    obtain rfl := List.mem_singleton.1 hx
    rfl
  | case3 m c cs h offset raw d rest htext ih =>
    intro x hx
    rcases List.mem_cons.1 hx with rfl | hx
    · rfl
    · exact ih x hx

/-- A detected message whose text is that of some segments is parsed into these
segments, but for what gets lost. -/
theorem Separators.Fits.parse_segmentsText {s : Separators}
    {params : EdiParams} (h : s.Fits params)
    (hnl : ∀ c, isSpecial params c = true → isNewline c = false)
    {ss : List EdiSegment} (hfilled : ∀ x ∈ ss, ∀ e ∈ x.elements, e.Filled)
    {lib : EdiLib} {oparser : EdiParser} (hdetect : oparser.detect = 1)
    {m : CString} {detected : EdiParams} {skip : Nat}
    (hfound : (ediDetect lib.detectparams m).found = some (detected, skip))
    (hparser : ediParserInit (some detected) = s.parser)
    (htext : m.bytes.drop skip = segmentsText params ss) :
    ∃ j, ediParserParse lib oparser m = (oparser, some j) ∧
      j.segments.map (·.elements) = ss.map (fun x =>
        Grammar.elements s (elementsText params (trimStart x.elements))) ∧
      ∀ x ∈ j.segments,
        x.tag = (segmentValues x.elements).head?.map (·.value) := by
  refine ⟨_, ediParserParse_detected hdetect hfound, ?_, ?_⟩
  · rw [hparser, htext, segmentLoop_eq, map_segmentOf_rawSegments]
    exact h.segments_segmentsText hnl hfilled m.strlen
  · rw [hparser, segmentLoop_eq, map_segmentOf_rawSegments]
    exact Grammar.segments_tag s m.strlen (m.bytes.drop skip)

end Libedi
