import Libedi.LoaderElements

/-!
# Texts in pieces

`expat` may deliver a text in several pieces.  The handlers take each piece for
the whole text: a string is the last piece, and each piece is a child.

Here the tables that are loaded are compared with those that the document has
whatever the pieces are (`segmentTable .whole`, which is the same for two ways to
deliver it by `segmentTable_whole_inOne`).  They are equal exactly if the texts
that count arrive in one piece (`load_whole_iff`).
-/

namespace Libedi

open XmlTree

/-! ## Strings -/

/-- The last text for each of these strings is in one piece. -/
def FieldsInOne (fields : List TextField) (basepath : Bytes) (e : Element) :
    Prop :=
  ∀ f ∈ fields, ∀ d ∈ (e.textsAt (basepath ++ f.path) basepath).getLast?,
    d.pieces.length = 1

instance (fields : List TextField) (basepath : Bytes) (e : Element) :
    Decidable (FieldsInOne fields basepath e) :=
  List.decidableBAll _ _

theorem entryFields_whole_iff (fields : List TextField) (basepath : Bytes)
    (fresh : Fields) (e : Element) :
    entryFields fields .pieces basepath fresh e
        = entryFields fields .whole basepath fresh e ↔
      FieldsInOne fields basepath e := by
  rw [funext_iff, FieldsInOne]
  apply forall_congr'
  intro f
  unfold entryFields
  by_cases hf : f ∈ fields
  · rw [if_pos hf, if_pos hf]
    cases (e.textsAt (basepath ++ f.path) basepath).getLast? with
    | none => simp
    | some d =>
      simpa [hf, Reading.pieces, Reading.whole] using d.last_eq_whole_iff
  · simp [hf]

/-! ## Children -/

/-- All children of an entry are in its last element of children, and each one has
one text, in one piece. -/
def KidsInOne (basepath : Bytes) (e : Element) : Prop :=
  let kids := e.inner.elementsAt (basepath ++ ascii "/children") basepath
  (∀ k ∈ kids.dropLast, kidElements basepath k = []) ∧
    ∀ k ∈ kids.getLast?, ∀ child ∈ kidElements basepath k,
      (child.textsAt (basepath ++ ascii "/children/child")
        (basepath ++ ascii "/children/child")).map (·.pieces.length) = [1]

instance (basepath : Bytes) (e : Element) : Decidable (KidsInOne basepath e) :=
  inferInstanceAs (Decidable (_ ∧ _))

/-- A child is an element and not an attribute. -/
theorem attrPath_ne_child (basepath q : Bytes) (name : Name) :
    attrPath q name.bytes ≠ basepath ++ ascii "/children/child" := by
  intro heq
  have hattr : attrPath q name.bytes
      = childPath q ('@'.toUInt8 :: name.bytes) := rfl
  have hchild : basepath ++ ascii "/children/child"
      = childPath (basepath ++ ascii "/children") (ascii "child") := by
    simp [childPath, ascii]
  have hslash : '/'.toUInt8 ∉ '@'.toUInt8 :: name.bytes := by
    rw [List.mem_cons, not_or]
    exact ⟨by decide, name.noSlash⟩
  rw [hattr, hchild] at heq
  have hname := childPath_injective hslash (by decide) heq
  exact absurd (List.head_eq_of_cons_eq hname) (by decide)

/-- The texts of the children are in their elements. -/
theorem kidTexts_eq_flatMap (basepath : Bytes) (e : Element) :
    kidTexts basepath e = (kidElements basepath e).flatMap
      (Element.textsAt (basepath ++ ascii "/children/child")
        (basepath ++ ascii "/children/child")) := by
  have hpath : basepath ++ ascii "/children"
      ≠ basepath ++ ascii "/children/child" := by
    rw [Ne, List.append_cancel_left_eq]
    decide
  rw [kidTexts, Element.textsAt, attrTexts_eq_nil (attrPath_ne_child basepath),
    List.nil_append,
    Content.textsAt_eq_flatMap (attrPath_ne_child basepath) _ hpath, kidElements]

theorem kids_whole_iff (basepath : Bytes) (e : Element) :
    Reading.pieces.kids basepath
        (e.inner.elementsAt (basepath ++ ascii "/children") basepath)
        = Reading.whole.kids basepath
          (e.inner.elementsAt (basepath ++ ascii "/children") basepath) ↔
      KidsInOne basepath e := by
  unfold KidsInOne
  dsimp only [Reading.pieces, Reading.whole]
  rcases List.eq_nil_or_concat
    (e.inner.elementsAt (basepath ++ ascii "/children") basepath)
    with hnone | ⟨before, last, hkids⟩
  · simp [hnone]
  · have hpieces : ∀ child ∈ kidElements basepath last,
        ∀ d ∈ child.textsAt (basepath ++ ascii "/children/child")
          (basepath ++ ascii "/children/child"), ∀ p ∈ d.pieces, p ≠ [] := by
      intro child hchild d hd
      have hmem : d ∈ kidTexts basepath last := by
        rw [kidTexts_eq_flatMap]
        exact List.mem_flatMap.2 ⟨child, hchild, hd⟩
      rw [kidTexts, Element.textsAt,
        attrTexts_eq_nil (attrPath_ne_child basepath), List.nil_append] at hmem
      exact last.inner.piece_nonempty (attrPath_ne_child basepath) _ d hmem
    have hiff := @pieces_eq_joined_append_iff _ _
      (before.flatMap (kidElements basepath)) _ hpieces
    rw [List.flatMap_eq_nil_iff] at hiff
    rw [hkids, List.concat_eq_append, List.getLast?_concat, List.dropLast_concat,
      List.flatMap_append, List.flatMap_singleton]
    dsimp only
    have hkid : kidText basepath = fun child => joined (child.textsAt
        (basepath ++ ascii "/children/child")
        (basepath ++ ascii "/children/child")) := rfl
    rw [kidTexts_eq_flatMap, List.flatMap_assoc, hkid]
    simpa [List.map_eq_singleton_iff] using hiff

/-! ## Entries -/

theorem segmentEntry_whole_iff (basepath : Bytes) (k : Nat) (e : Element) :
    segmentEntry .pieces basepath k e = segmentEntry .whole basepath k e ↔
      FieldsInOne segmentFields basepath e ∧ KidsInOne basepath e := by
  unfold segmentEntry
  dsimp only
  rw [SegmentSlot.mk.injEq, entryFields_whole_iff, ← kids_whole_iff]
  apply and_congr_right
  intro _
  cases hkids : (e.inner.elementsAt (basepath ++ ascii "/children")
      basepath).getLast? with
  | none =>
    rw [List.getLast?_eq_none_iff] at hkids
    simp [hkids, Reading.pieces, Reading.whole]
  | some last =>
    dsimp only
    rw [Children.block.injEq]
    exact List.map_inj_right fun a b h => Field.text.inj h

/-- The last piece for the flag starts as the text does. -/
def FlagInOne (e : Element) : Prop :=
  ∀ d ∈ (e.textsAt isCodedPath elementsPath).getLast?,
    (d.last.head? = some '1'.toUInt8 ↔ d.whole.head? = some '1'.toUInt8)

theorem elementEntry_whole_iff (k : Nat) (e : Element) :
    elementEntry .pieces k e = elementEntry .whole k e ↔
      FieldsInOne elementFields elementsPath e ∧ FlagInOne e := by
  unfold elementEntry FlagInOne
  dsimp only
  rw [ElementSlot.mk.injEq, entryFields_whole_iff]
  apply and_congr_right
  intro _
  cases (e.textsAt isCodedPath elementsPath).getLast? with
  | none => simp
  | some d =>
    simp only [Option.mem_def, Option.some.injEq, forall_eq']
    exact decide_eq_decide

theorem codedEntry_whole_iff (e : Element) :
    codedEntry .pieces e = codedEntry .whole e ↔
      FieldsInOne segmentFields codesValuePath e :=
  entryFields_whole_iff segmentFields codesValuePath _ e

/-- The code of a coded element is in one piece. -/
def CodeInOne (e : Element) : Prop :=
  ∀ d ∈ (e.textsAt (codesPath ++ ascii "/@code") codesPath).getLast?,
    d.pieces.length = 1

theorem codesEntry_whole_iff (e : Element) :
    codesEntry .pieces e = codesEntry .whole e ↔
      CodeInOne e ∧ ∀ v ∈ e.inner.elementsAt codesValuePath codesPath,
        FieldsInOne segmentFields codesValuePath v := by
  unfold codesEntry CodeInOne
  rw [LoadedCodes.mk.injEq, Option.some.injEq, List.map_inj_left]
  simp only [codedEntry_whole_iff]
  apply and_congr_left
  intro _
  cases (e.textsAt (codesPath ++ ascii "/@code") codesPath).getLast? with
  | none => simp
  | some d => simpa [Reading.pieces, Reading.whole] using d.last_eq_whole_iff

/-! ## Tables -/

/-- All texts of the segments that count are in one piece. -/
def SegmentsInOne (basepath : Bytes) (c : Content) : Prop :=
  ∀ e ∈ c.elementsAt basepath [],
    FieldsInOne segmentFields basepath e ∧ KidsInOne basepath e

instance (basepath : Bytes) (c : Content) :
    Decidable (SegmentsInOne basepath c) :=
  List.decidableBAll _ _

/-- All texts of the elements that count are in one piece. -/
def ElementsInOne (c : Content) : Prop :=
  ∀ e ∈ c.elementsAt elementsPath [],
    FieldsInOne elementFields elementsPath e ∧ FlagInOne e

/-- All texts of the codes that count are in one piece. -/
def CodesInOne (c : Content) : Prop :=
  ∀ e ∈ c.elementsAt codesPath [],
    CodeInOne e ∧ ∀ v ∈ e.inner.elementsAt codesValuePath codesPath,
      FieldsInOne segmentFields codesValuePath v

theorem segmentTable_whole_iff (basepath : Bytes) (c : Content) :
    segmentTable .pieces basepath c = segmentTable .whole basepath c ↔
      SegmentsInOne basepath c :=
  mapIdx_eq_iff_forall (segmentEntry_whole_iff basepath) _

theorem elementTable_whole_iff (c : Content) :
    elementTable .pieces c = elementTable .whole c ↔ ElementsInOne c :=
  mapIdx_eq_iff_forall elementEntry_whole_iff _

theorem codesTable_whole_iff (c : Content) :
    codesTable .pieces c = codesTable .whole c ↔ CodesInOne c := by
  rw [codesTable, codesTable, List.map_inj_left]
  simp only [codesEntry_whole_iff]
  rfl

/-! ## Two ways to deliver a document -/

theorem entryFields_whole_inOne (fields : List TextField) (basepath : Bytes)
    (fresh : Fields) (e : Element) :
    entryFields fields .whole basepath fresh e.inOne
      = entryFields fields .whole basepath fresh e := by
  funext f
  unfold entryFields
  rw [Element.inOne_textsAt, List.getLast?_map]
  cases (e.textsAt (basepath ++ f.path) basepath).getLast? with
  | none => rfl
  | some d => simp [Reading.whole]

theorem kids_whole_inOne (basepath : Bytes) (es : List Element) :
    Reading.whole.kids basepath (es.map Element.inOne)
      = Reading.whole.kids basepath es := by
  have hkids : ∀ e : Element, kidElements basepath e.inOne
      = (kidElements basepath e).map Element.inOne :=
    fun e => e.inner.inOne_elementsAt _ _
  have htext : ∀ e : Element, kidText basepath e.inOne = kidText basepath e := by
    intro e
    rw [kidText, Element.inOne_textsAt, joined_inOne, kidText]
  dsimp only [Reading.whole]
  simp only [List.flatMap_map, hkids, List.map_flatMap, List.map_map]
  simp only [Function.comp_def, htext]

theorem segmentTable_whole_inOne (basepath : Bytes) (c : Content) :
    segmentTable .whole basepath c.inOne = segmentTable .whole basepath c := by
  have hentry : ∀ k (e : Element), segmentEntry .whole basepath k e.inOne
      = segmentEntry .whole basepath k e := by
    intro k e
    have hkids : e.inOne.inner.elementsAt (basepath ++ ascii "/children") basepath
        = (e.inner.elementsAt (basepath ++ ascii "/children") basepath).map
          Element.inOne := e.inner.inOne_elementsAt _ _
    unfold segmentEntry
    dsimp only
    rw [entryFields_whole_inOne, hkids, kids_whole_inOne, List.getLast?_map]
    cases (e.inner.elementsAt (basepath ++ ascii "/children")
      basepath).getLast? <;> rfl
  rw [segmentTable, segmentTable, Content.inOne_elementsAt]
  refine List.ext_getElem (by simp) fun i hi hi' => ?_
  simp [hentry]

theorem elementTable_whole_inOne (c : Content) :
    elementTable .whole c.inOne = elementTable .whole c := by
  have hentry : ∀ k (e : Element), elementEntry .whole k e.inOne
      = elementEntry .whole k e := by
    intro k e
    unfold elementEntry
    dsimp only
    rw [entryFields_whole_inOne, Element.inOne_textsAt, List.getLast?_map]
    cases (e.textsAt isCodedPath elementsPath).getLast? with
    | none => rfl
    | some d =>
      have hvalue : Reading.whole.value d.inOne = Reading.whole.value d :=
        d.inOne_whole
      rw [Option.map_some]
      dsimp only
      rw [hvalue]
  rw [elementTable, elementTable, Content.inOne_elementsAt]
  refine List.ext_getElem (by simp) fun i hi hi' => ?_
  simp [hentry]

theorem codesTable_whole_inOne (c : Content) :
    codesTable .whole c.inOne = codesTable .whole c := by
  have hentry : ∀ e : Element, codesEntry .whole e.inOne
      = codesEntry .whole e := by
    intro e
    have hvalues : e.inOne.inner.elementsAt codesValuePath codesPath
        = (e.inner.elementsAt codesValuePath codesPath).map Element.inOne :=
      e.inner.inOne_elementsAt _ _
    have hvalue : ∀ v : Element, codedEntry .whole v.inOne
        = codedEntry .whole v := entryFields_whole_inOne _ _ _
    unfold codesEntry
    rw [Element.inOne_textsAt, List.getLast?_map, hvalues, List.map_map]
    simp only [Function.comp_def, hvalue]
    cases (e.textsAt (codesPath ++ ascii "/@code") codesPath).getLast? with
    | none => rfl
    | some d => simp [Reading.whole]
  rw [codesTable, codesTable, Content.inOne_elementsAt, List.map_map]
  exact List.map_congr_left fun e _ => hentry e

/-- Two ways to deliver a document are loaded in the same way, and as the document
is, exactly if all texts that count arrive in one piece in both. -/
theorem load_whole_iff {c c' : Content} (hsame : c.inOne = c'.inOne) :
    (∀ {basepath table table'}, basepath ≠ [] →
      loadSegments basepath (contentEvents c) = some table →
      loadSegments basepath (contentEvents c') = some table' →
      (table = table' ∧ table = segmentTable .whole basepath c.inOne ↔
        SegmentsInOne basepath c ∧ SegmentsInOne basepath c')) ∧
    (∀ {table table'}, loadElements (contentEvents c) = some table →
      loadElements (contentEvents c') = some table' →
      (table = table' ∧ table = elementTable .whole c.inOne ↔
        ElementsInOne c ∧ ElementsInOne c')) ∧
    (∀ {table table'}, loadCodes (contentEvents c) = some table →
      loadCodes (contentEvents c') = some table' →
      (table = table' ∧ table = codesTable .whole c.inOne ↔
        CodesInOne c ∧ CodesInOne c')) := by
  have hboth : ∀ {α : Type} (a a' w : α), a = a' ∧ a = w ↔ a = w ∧ a' = w := by
    intro α a a' w
    constructor
    · rintro ⟨rfl, rfl⟩
      exact ⟨rfl, rfl⟩
    · rintro ⟨rfl, rfl⟩
      exact ⟨rfl, rfl⟩
  refine ⟨fun hbase h h' => ?_, fun h h' => ?_, fun h h' => ?_⟩
  · rw [loadSegments_contentEvents hbase] at h h'
    obtain ⟨_, -, rfl⟩ := Option.map_eq_some_iff.1 h
    obtain ⟨_, -, rfl⟩ := Option.map_eq_some_iff.1 h'
    rw [hboth, ← segmentTable_whole_iff, ← segmentTable_whole_iff,
      ← segmentTable_whole_inOne _ c', ← hsame, segmentTable_whole_inOne]
  · rw [loadElements_contentEvents] at h h'
    obtain ⟨_, -, rfl⟩ := Option.map_eq_some_iff.1 h
    obtain ⟨_, -, rfl⟩ := Option.map_eq_some_iff.1 h'
    rw [hboth, ← elementTable_whole_iff, ← elementTable_whole_iff,
      ← elementTable_whole_inOne c', ← hsame, elementTable_whole_inOne]
  · rw [loadCodes_contentEvents] at h h'
    obtain ⟨_, -, rfl⟩ := Option.map_eq_some_iff.1 h
    obtain ⟨_, -, rfl⟩ := Option.map_eq_some_iff.1 h'
    rw [hboth, ← codesTable_whole_iff, ← codesTable_whole_iff,
      ← codesTable_whole_inOne c', ← hsame, codesTable_whole_inOne]

/-- A file with one segment, in which these texts are delivered in some way. -/
def sampleSegments (space title child : TextNode) : Content :=
  .element segmentsName []
    (.text space (.element segmentName [(codeName, ascii "BGM")]
      (.element title1Name [] (.text title .nil)
        (.element childrenName []
          (.element childName [] (.text child .nil) .nil) .nil))
      .nil)) .nil

/-- The path of a segment. -/
def segmentsPath : Bytes := ascii "/segments/segment"

/-- The space in front of a segment may come in pieces. -/
theorem load_whole_space :
    let c := sampleSegments ⟨[ascii "  "], by decide, by decide⟩
      ⟨[ascii "title"], by decide, by decide⟩ ⟨[ascii "C002"], by decide, by decide⟩
    let c' := sampleSegments ⟨[ascii " ", ascii " "], by decide, by decide⟩
      ⟨[ascii "title"], by decide, by decide⟩ ⟨[ascii "C002"], by decide, by decide⟩
    ∃ table, loadSegments segmentsPath (contentEvents c) = some table ∧
      loadSegments segmentsPath (contentEvents c') = some table ∧
      table = segmentTable .whole segmentsPath c.inOne := by
  intro c c'
  have hload : ∀ d ∈ [c, c'], ∃ table,
      loadSegments segmentsPath (contentEvents d) = some table := by
    intro d hd
    rw [← Option.isSome_iff_exists]
    revert d
    decide +kernel
  obtain ⟨table, htable⟩ := hload c (by simp)
  obtain ⟨table', htable'⟩ := hload c' (by simp)
  obtain ⟨heq, hwhole⟩ := ((@load_whole_iff c c' rfl).1 (by decide)
    htable htable').2 (by decide +kernel)
  exact ⟨table, htable, heq ▸ htable', hwhole⟩

/-- A title and a child that are delivered in pieces. -/
theorem load_pieces :
    let c := sampleSegments ⟨[ascii " "], by decide, by decide⟩
      ⟨[ascii "a ", ascii "&", ascii " b"], by decide, by decide⟩
      ⟨[ascii "C0", ascii "02"], by decide, by decide⟩
    let c' := sampleSegments ⟨[ascii " "], by decide, by decide⟩
      ⟨[ascii "a & b"], by decide, by decide⟩ ⟨[ascii "C002"], by decide, by decide⟩
    let shown (table : List SegmentSlot) :=
      table.map fun slot => (slot.fields .title, slot.children)
    c.inOne = c'.inOne ∧
    loadSegments segmentsPath (contentEvents c)
      ≠ loadSegments segmentsPath (contentEvents c') ∧
    (loadSegments segmentsPath (contentEvents c)).map shown
      = some [(.text (ascii " b"), .block [.text (ascii "C0"), .text (ascii "02")])] ∧
    (loadSegments segmentsPath (contentEvents c')).map shown
      = some [(.text (ascii "a & b"), .block [.text (ascii "C002")])] := by
  intro c c' shown
  have hpieces : (loadSegments segmentsPath (contentEvents c)).map shown
      = some [(.text (ascii " b"),
        .block [.text (ascii "C0"), .text (ascii "02")])] := by
    decide +kernel
  have hone : (loadSegments segmentsPath (contentEvents c')).map shown
      = some [(.text (ascii "a & b"), .block [.text (ascii "C002")])] := by
    decide +kernel
  refine ⟨rfl, fun heq => ?_, hpieces, hone⟩
  rw [heq, hone] at hpieces
  exact absurd hpieces (by decide)

end Libedi
