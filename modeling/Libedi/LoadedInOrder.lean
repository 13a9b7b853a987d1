import Libedi.Chunks
import Libedi.HeldMemory
import Libedi.SpecTables

/-!
# All entries in their order

Documents in which each text arrives in one piece: every entry of such a document
gets one slot, in the order of the document, with its texts, its children and its
values (`load_in_order`).  The counts do not matter, although the arrays grow by
blocks of 25, 10 and 8 slots.

The array of the slots and that of the children of an entry are filled at the same
time.  `SegmentsInOrder` and `CodesInOrder` are the states between two entries;
`SegmentsParseHelper.foldlM_entry` and `CodesParseHelper.foldlM_entry` say what
the calls for an entry do to them.
-/

namespace Libedi

open XmlTree

/-! ## Documents of the directories -/

/-- The names of elements and attributes in the documents. -/
def tableNames : List Bytes :=
  [segmentsName, segmentName, compositesName, compositeName, elementsName,
    elementName, codedValuesName, codedElementName, valueName, childrenName,
    childName, title1Name, title2Name, functionName, formatName, isCodedName,
    codeName, countName].map Name.bytes

/-- The elements and attributes have these names only, and are nested at most so
deep. -/
def OfNames : Nat → Content → Prop
  | _, .nil => True
  | depth, .text _ rest => OfNames depth rest
  | 0, .element _ _ _ _ => False
  | depth + 1, .element name attrs inner rest =>
    name.bytes ∈ tableNames ∧ (∀ a ∈ attrs, a.1.bytes ∈ tableNames) ∧
      OfNames depth inner ∧ OfNames (depth + 1) rest

theorem length_of_mem_tableNames :
    ∀ name ∈ tableNames, name.length ≤ 13 :=
  forall_mem_of_all (by decide)

theorem OfNames.fits {depth : Nat} {c : Content} (h : OfNames depth c) :
    Fits (14 * depth + 15) c := by
  induction c generalizing depth with
  | nil => trivial
  | text t rest ih =>
    cases depth <;> exact ih h
  | element name attrs inner rest ihinner ihrest =>
    cases depth with
    | zero => exact h.elim
    | succ depth =>
      obtain ⟨hname, hattrs, hinner, hrest⟩ := h
      have hlength := length_of_mem_tableNames _ hname
      refine ⟨by omega, fun a ha => ?_, (ihinner hinner).mono (by omega),
        ihrest hrest⟩
      have hattr := length_of_mem_tableNames _ (hattrs a ha)
      omega

/-- The paths of a document fit into their buffer. -/
theorem OfNames.handlerCalls {c : Content} (h : OfNames 4 c) :
    handlerCalls [] (contentEvents c) = some (c.calls []) :=
  handlerCalls_tableNode h.fits (by decide)

instance decidableOfNames : ∀ (depth : Nat) (c : Content),
    Decidable (OfNames depth c)
  | _, .nil => .isTrue trivial
  | 0, .text _ rest => decidableOfNames 0 rest
  | depth + 1, .text _ rest => decidableOfNames (depth + 1) rest
  | 0, .element _ _ _ _ => .isFalse id
  | depth + 1, .element _ _ inner rest =>
    @instDecidableAnd _ _ inferInstance (@instDecidableAnd _ _
      (List.decidableBAll _ _) (@instDecidableAnd _ _
        (decidableOfNames depth inner) (decidableOfNames (depth + 1) rest)))

/-- There is one text at a path, in one piece. -/
def OneText (target path : Bytes) (e : Element) : Prop :=
  (e.textsAt target path).map (·.pieces.length) = [1]

instance (target path : Bytes) (e : Element) : Decidable (OneText target path e) :=
  inferInstanceAs (Decidable (_ = _))

theorem OneText.eq {target path : Bytes} {e : Element}
    (h : OneText target path e) :
    ∃ d, e.textsAt target path = [d] ∧ d.last = joined (e.textsAt target path) := by
  obtain ⟨d, hd, hone⟩ := List.map_eq_singleton_iff.1 h
  refine ⟨d, hd, ?_⟩
  rw [d.last_eq_whole_iff.2 hone, hd, joined, List.flatMap_singleton]

/-- The text of a string of an entry. -/
def fieldText (basepath : Bytes) (e : Element) (f : TextField) : Bytes :=
  joined (e.textsAt (basepath ++ f.path) basepath)

/-- An entry has one text for each of its strings. -/
def FieldsShape (fields : List TextField) (basepath : Bytes) (e : Element) :
    Prop :=
  ∀ f ∈ fields, OneText (basepath ++ f.path) basepath e

instance (fields : List TextField) (basepath : Bytes) (e : Element) :
    Decidable (FieldsShape fields basepath e) :=
  List.decidableBAll _ _

/-- The strings are the texts of the entry. -/
def FieldsAre (fields : List TextField) (basepath : Bytes) (e : Element)
    (slot : Fields) : Prop :=
  ∀ f ∈ fields, slot f = .text (fieldText basepath e f)

theorem FieldsShape.fieldsAre {fields : List TextField} {basepath : Bytes}
    {e : Element} (h : FieldsShape fields basepath e) (fresh : Fields) :
    FieldsAre fields basepath e (entryFields fields .pieces basepath fresh e) := by
  intro f hf
  obtain ⟨d, hd, hlast⟩ := (h f hf).eq
  rw [entryFields, if_pos hf, hd, List.getLast?_singleton]
  exact congrArg Field.text hlast

/-! ## Segments and composites -/

/-- An entry has its texts and one element of children, and each child has one
text. -/
def SegmentShape (basepath : Bytes) (e : Element) : Prop :=
  let kids := e.inner.elementsAt (basepath ++ ascii "/children") basepath
  FieldsShape segmentFields basepath e ∧ kids.length = 1 ∧
    ∀ k ∈ kids, ∀ child ∈ kidElements basepath k,
      OneText (basepath ++ ascii "/children/child")
        (basepath ++ ascii "/children/child") child

instance (basepath : Bytes) (e : Element) : Decidable (SegmentShape basepath e) :=
  @instDecidableAnd _ _ inferInstance (@instDecidableAnd _ _ inferInstance
    (@List.decidableBAll _ _ (fun _ => List.decidableBAll _ _) _))

/-- The texts of the children of an entry. -/
def childTexts (basepath : Bytes) (e : Element) : List Bytes :=
  Reading.whole.kids basepath
    (e.inner.elementsAt (basepath ++ ascii "/children") basepath)

/-- The slot has the texts of the entry, and its children up to a null pointer. -/
structure SegmentOf (basepath : Bytes) (e : Element) (slot : SegmentSlot) :
    Prop where
  fields : FieldsAre segmentFields basepath e slot.fields
  children : slot.children.EndsAt ((childTexts basepath e).map .text)

/-- A document of segments or composites. -/
structure SegmentsDocument (basepath : Bytes) (c : Content) : Prop where
  names : OfNames 4 c
  entries : ∀ e ∈ c.elementsAt basepath [], SegmentShape basepath e

theorem SegmentShape.kidsInOne {basepath : Bytes} {e : Element}
    (h : SegmentShape basepath e) : KidsInOne basepath e := by
  obtain ⟨-, hone, hchildren⟩ := h
  obtain ⟨kids, hkids⟩ := List.length_eq_one_iff.1 hone
  unfold KidsInOne
  rw [hkids] at hchildren ⊢
  refine ⟨fun _ hk => absurd hk List.not_mem_nil, fun k hk child hchild => ?_⟩
  exact hchildren k (List.mem_of_getLast? hk) child hchild

theorem SegmentShape.segmentOf {basepath : Bytes} {fresh slot : SegmentSlot}
    {e : Element} (h : SegmentShape basepath e)
    (hfrom : slot.From basepath fresh e) : SegmentOf basepath e slot where
  fields := hfrom.fields ▸ h.1.fieldsAre fresh.fields
  children := by
    have hpieces := (kids_whole_iff basepath e).2 h.kidsInOne
    have hends := hfrom.children
    obtain ⟨kids, hkids⟩ := List.length_eq_one_iff.1 h.2.1
    rw [childTexts, ← hpieces]
    rw [hkids] at hends ⊢
    exact hends

/-- The state between two entries. -/
structure SegmentsInOrder (basepath : Bytes) (p : SegmentsParseHelper)
    (es : List Element) : Prop where
  grown : Grown 25 10 .zero .stale p.segs p.index
  children : p.children = []
  chldIndex : p.chldIndex = 0
  index : p.index = es.length
  slots : List.Forall₂ (fun e slot => ∃ fresh, SegmentSlot.From slot basepath fresh e)
    es (p.segs.take p.index)

theorem SegmentsInOrder.entry {basepath : Bytes} {p : SegmentsParseHelper}
    {es : List Element} (h : SegmentsInOrder basepath p es) (e : Element) :
    ∃ last, (e.calls basepath).foldlM (SegmentsParseHelper.call basepath) p
        = some last ∧ SegmentsInOrder basepath last (es ++ [e]) := by
  obtain ⟨segs, slot, hrun, hgrown, htake, hfrom⟩ :=
    p.foldlM_entry h.grown h.children h.chldIndex basepath e
  refine ⟨_, hrun, hgrown, rfl, rfl, ?_, ?_⟩
  · show p.index + 1 = _
    rw [h.index, List.length_append, List.length_singleton]
  · show List.Forall₂ _ _ (segs.take (p.index + 1))
    rw [htake]
    exact List.rel_append h.slots (.cons ⟨_, hfrom⟩ .nil)

/-- The states of the handlers for a file. -/
def segmentsRun (basepath : Bytes) (events : List XmlEvent) :
    Option SegmentsParseHelper :=
  (handlerCalls [] events).bind fun calls =>
    calls.foldlM (SegmentsParseHelper.call basepath) ⟨[], 0, [], 0⟩

/-- The table is that of the last state. -/
theorem loadSegments_eq_run (basepath : Bytes) (events : List XmlEvent) :
    loadSegments basepath events = (segmentsRun basepath events).map fun self =>
      (self.segs.take self.index).map fun slot =>
        { slot with children := slot.children.upToNull } := by
  unfold loadSegments segmentsRun
  rw [Option.map_bind]
  rfl

/-! ## Writes to the children -/

/-- A string that is stored in the block of children is stored inside of it. -/
theorem pushChild_getElem? {block : List Field} {i : Nat} (h : i ≤ block.length)
    (f : Field) : (pushChild block i f)[i]? = some f := by
  have hpush := pushChild_spec h f
  have hlast : ((pushChild block i f).take (i + 1))[i]? = some f := by
    rw [hpush.2, List.getElem?_append_right (List.length_take_le i block),
      List.length_take_of_le h, Nat.sub_self]
    rfl
  rwa [List.getElem?_take_of_lt (Nat.lt_succ_self i)] at hlast

section Bounds

variable {basepath : Bytes} {self last : SegmentsParseHelper}

theorem storeChild_bound {f : Field} (h : self.chldIndex ≤ self.children.length)
    (hstore : self.storeChild f = some last) :
    last.chldIndex ≤ last.children.length := by
  unfold SegmentsParseHelper.storeChild at hstore
  obtain ⟨segs, -, rfl⟩ := Option.map_eq_some_iff.1 hstore
  exact (pushChild_spec h f).1

/-- The index of the next child stays in the block. -/
theorem call_bound {call : Call} (h : self.chldIndex ≤ self.children.length)
    (hcall : self.call basepath call = some last) :
    last.chldIndex ≤ last.children.length := by
  cases call with
  | start xpath =>
    obtain rfl := Option.some.inj hcall
    unfold SegmentsParseHelper.tstart
    split_ifs <;> exact h
  | stop xpath =>
    unfold SegmentsParseHelper.call SegmentsParseHelper.tend at hcall
    dsimp only at hcall
    split_ifs at hcall
    · obtain rfl := Option.some.inj hcall
      exact h
    · obtain ⟨p, -, rfl⟩ := Option.map_eq_some_iff.1 hcall
      exact Nat.le_refl 0
    · obtain rfl := Option.some.inj hcall
      exact h
  | data xpath s =>
    unfold SegmentsParseHelper.call SegmentsParseHelper.cdata at hcall
    dsimp only at hcall
    split at hcall
    · obtain rfl := Option.some.inj hcall
      exact h
    · split at hcall
      · obtain ⟨segs, -, rfl⟩ := Option.map_eq_some_iff.1 hcall
        exact h
      · split_ifs at hcall
        · exact storeChild_bound h hcall
        · obtain rfl := Option.some.inj hcall
          exact h

theorem calls_bound {calls : List Call}
    (h : self.chldIndex ≤ self.children.length)
    (hcalls : calls.foldlM (SegmentsParseHelper.call basepath) self = some last) :
    last.chldIndex ≤ last.children.length := by
  induction calls generalizing self with
  | nil =>
    obtain rfl := Option.some.inj hcalls
    exact h
  | cons call calls ih =>
    rw [List.foldlM_cons] at hcalls
    obtain ⟨p, hp, hcalls⟩ := Option.bind_eq_some_iff.1 hcalls
    exact ih (call_bound h hp) hcalls

end Bounds

/-! ## Elements -/

/-- An entry has its texts and one for its flag. -/
def ElementShape (e : Element) : Prop :=
  FieldsShape elementFields elementsPath e ∧ OneText isCodedPath elementsPath e

instance (e : Element) : Decidable (ElementShape e) :=
  inferInstanceAs (Decidable (_ ∧ _))

/-- The slot has the texts of the entry, and its flag. -/
structure ElementOf (e : Element) (slot : ElementSlot) : Prop where
  fields : FieldsAre elementFields elementsPath e slot.fields
  isCoded : slot.isCoded = some (decide
    ((joined (e.textsAt isCodedPath elementsPath)).head? = some '1'.toUInt8))

/-- A document of elements. -/
structure ElementsDocument (c : Content) : Prop where
  names : OfNames 4 c
  entries : ∀ e ∈ c.elementsAt elementsPath [], ElementShape e

theorem ElementShape.elementOf {e : Element} (h : ElementShape e) (k : Nat) :
    ElementOf e (elementEntry .pieces k e) where
  fields := h.1.fieldsAre _
  isCoded := by
    obtain ⟨d, hd, hlast⟩ := h.2.eq
    simp only [elementEntry]
    rw [← hlast, hd, List.getLast?_singleton]
    rfl

theorem ElementsDocument.load {c : Content} (h : ElementsDocument c) :
    ∃ table, loadElements (contentEvents c) = some table ∧
      List.Forall₂ ElementOf (c.elementsAt elementsPath []) table := by
  refine ⟨elementTable .pieces c, ?_, ?_⟩
  · rw [loadElements_contentEvents, h.names.handlerCalls]
    rfl
  · refine forall₂_mapIdx fun k e hk => ?_
    exact (h.entries e (List.mem_of_getElem? hk)).elementOf k

/-! ## Codes -/

/-- An entry has its code, and each value its texts. -/
def CodesShape (e : Element) : Prop :=
  OneText (codesPath ++ ascii "/@code") codesPath e ∧
    ∀ v ∈ e.inner.elementsAt codesValuePath codesPath,
      FieldsShape segmentFields codesValuePath v

instance (e : Element) : Decidable (CodesShape e) :=
  @instDecidableAnd _ _ inferInstance (List.decidableBAll _ _)

/-- The slot has the code of the entry, and `vals` and `nvals` are its values. -/
structure CodedElementOf (e : Element) (slot : CodedElementsSlot) : Prop where
  el : slot.el
    = .text (joined (e.textsAt (codesPath ++ ascii "/@code") codesPath))
  vals : ∃ cc n, slot.vals = .block cc ∧ slot.nvals = some n ∧ n ≤ cc.length ∧
    List.Forall₂ (FieldsAre segmentFields codesValuePath)
      (e.inner.elementsAt codesValuePath codesPath) (cc.take n)

/-- A document of codes. -/
structure CodesDocument (c : Content) : Prop where
  names : OfNames 4 c
  entries : ∀ e ∈ c.elementsAt codesPath [], CodesShape e

theorem CodesShape.codedElementOf {e : Element} {slot : CodedElementsSlot}
    (h : CodesShape e) (hfrom : slot.From e) : CodedElementOf e slot where
  el := by
    obtain ⟨d, hd, hlast⟩ := h.1.eq
    rw [hfrom.el, ← hlast, hd]
    rfl
  vals := by
    obtain ⟨v, hvals, hnvals, hvalues⟩ := hfrom.vals
    refine ⟨v.cc, v.ccIndex, hvals, hnvals, hvalues.grown.index_le, ?_⟩
    rw [hvalues.done, List.forall₂_map_right_iff, List.forall₂_same]
    exact fun w hw => (h.2 w hw).fieldsAre _

/-- The state between two entries. -/
structure CodesInOrder (p : CodesParseHelper) (es : List Element) : Prop where
  grown : Grown 10 0 .stale .stale p.cv p.cvIndex
  cc : p.cc = []
  ccIndex : p.ccIndex = 0
  index : p.cvIndex = es.length
  slots : List.Forall₂ (fun e slot => CodedElementsSlot.From slot e) es
    (p.cv.take p.cvIndex)

theorem CodesInOrder.entry {p : CodesParseHelper} {es : List Element}
    (h : CodesInOrder p es) (e : Element) :
    ∃ last, (e.calls codesPath).foldlM CodesParseHelper.call p = some last ∧
      CodesInOrder last (es ++ [e]) := by
  obtain ⟨cv, slot, hrun, hgrown, htake, hfrom⟩ :=
    p.foldlM_entry h.grown h.cc h.ccIndex e
  refine ⟨_, hrun, hgrown, rfl, rfl, ?_, ?_⟩
  · show p.cvIndex + 1 = _
    rw [h.index, List.length_append, List.length_singleton]
  · show List.Forall₂ _ _ (cv.take (p.cvIndex + 1))
    rw [htake]
    exact List.rel_append h.slots (.cons hfrom .nil)

/-- The states of the handlers for a file. -/
def codesRun (events : List XmlEvent) : Option CodesParseHelper :=
  (handlerCalls [] events).bind fun calls =>
    calls.foldlM CodesParseHelper.call ⟨[], 0, [], 0⟩

theorem loadCodes_eq_run (events : List XmlEvent) :
    loadCodes events = (codesRun events).map fun self =>
      (self.cv.take self.cvIndex).map CodedElementsSlot.loaded := by
  unfold loadCodes codesRun
  rw [Option.map_bind]
  rfl

/-! ## Runs -/

theorem SegmentsDocument.run {basepath : Bytes} {c : Content}
    (hbase : basepath ≠ []) (h : SegmentsDocument basepath c) :
    ∃ self, segmentsRun basepath (contentEvents c) = some self ∧
      self.index = (c.elementsAt basepath []).length ∧
      List.Forall₂ (SegmentOf basepath) (c.elementsAt basepath [])
        (self.segs.take self.index) := by
  have hcalls := h.names.handlerCalls
  have hstart : SegmentsInOrder basepath ⟨[], 0, [], 0⟩ [] :=
    ⟨grown_nil, rfl, rfl, rfl, .nil⟩
  obtain ⟨self, hrun, horder⟩ := @run_contentEvents _ _ _ _ hbase
    (fun p _ hp => p.call_irrelevant basepath hp) _ _ hstart (fun _ e => e)
    (fun _ _ e hp => hp.entry e) _ _ hcalls
  rw [mapIdx_const, List.map_id'] at horder
  refine ⟨self, ?_, horder.index, ?_⟩
  · rw [segmentsRun, hcalls]
    exact hrun
  · have hslots := horder.slots
    rw [List.forall₂_iff_get] at hslots ⊢
    refine ⟨hslots.1, fun k hk hk' => ?_⟩
    obtain ⟨fresh, hfrom⟩ := hslots.2 k hk hk'
    exact (h.entries _ (List.get_mem _ _)).segmentOf hfrom

theorem CodesDocument.run {c : Content} (h : CodesDocument c) :
    ∃ self, codesRun (contentEvents c) = some self ∧
      self.cvIndex = (c.elementsAt codesPath []).length ∧
      List.Forall₂ CodedElementOf (c.elementsAt codesPath [])
        (self.cv.take self.cvIndex) := by
  have hcalls := h.names.handlerCalls
  have hstart : CodesInOrder ⟨[], 0, [], 0⟩ [] :=
    ⟨grown_nil, rfl, rfl, rfl, .nil⟩
  obtain ⟨self, hrun, horder⟩ := @run_contentEvents _ _ _ codesPath (by decide)
    (fun p _ hp => p.call_irrelevant hp) _ _ hstart (fun _ e => e)
    (fun _ _ e hp => hp.entry e) _ _ hcalls
  rw [mapIdx_const, List.map_id'] at horder
  refine ⟨self, ?_, horder.index, ?_⟩
  · rw [codesRun, hcalls]
    exact hrun
  · have hslots := horder.slots
    rw [List.forall₂_iff_get] at hslots ⊢
    refine ⟨hslots.1, fun k hk hk' => ?_⟩
    exact (h.entries _ (List.get_mem _ _)).codedElementOf (hslots.2 k hk hk')

/-- In all states that the handlers get to, the next string of a child is stored
inside the block of children. -/
def ChildrenInside (basepath : Bytes) (calls : List Call) : Prop :=
  ∀ before, before <+: calls → ∃ state,
    before.foldlM (SegmentsParseHelper.call basepath) ⟨[], 0, [], 0⟩
      = some state ∧
    ∀ f, (pushChild state.children state.chldIndex f)[state.chldIndex]? = some f

theorem childrenInside_of_run {basepath : Bytes} {calls : List Call}
    {self : SegmentsParseHelper}
    (hrun : calls.foldlM (SegmentsParseHelper.call basepath) ⟨[], 0, [], 0⟩
      = some self) :
    ChildrenInside basepath calls := by
  rintro before ⟨behind, rfl⟩
  rw [List.foldlM_append] at hrun
  obtain ⟨state, hstate, -⟩ := Option.bind_eq_some_iff.1 hrun
  have hstart : (0 : Nat) ≤ ([] : List Field).length := Nat.le_refl 0
  exact ⟨state, hstate,
    pushChild_getElem? (@calls_bound _ ⟨[], 0, [], 0⟩ _ _ hstart hstate)⟩

/-- One slot for each entry, in the order of the document, with all that the entry
has.  A write to any other slot than that of a child goes through `writeSlot`,
which ends the run if the slot is not there. -/
theorem load_in_order :
    (∀ {basepath : Bytes} {c : Content}, basepath ≠ [] →
      SegmentsDocument basepath c → ∃ calls self,
        handlerCalls [] (contentEvents c) = some calls ∧
        segmentsRun basepath (contentEvents c) = some self ∧
        self.index = (c.elementsAt basepath []).length ∧
        List.Forall₂ (SegmentOf basepath) (c.elementsAt basepath [])
          (self.segs.take self.index) ∧
        loadSegments basepath (contentEvents c)
          = some ((self.segs.take self.index).map fun slot =>
            { slot with children := slot.children.upToNull }) ∧
        ChildrenInside basepath calls) ∧
    (∀ {c : Content}, ElementsDocument c → ∃ table,
      loadElements (contentEvents c) = some table ∧
      List.Forall₂ ElementOf (c.elementsAt elementsPath []) table) ∧
    (∀ {c : Content}, CodesDocument c → ∃ self,
      codesRun (contentEvents c) = some self ∧
      self.cvIndex = (c.elementsAt codesPath []).length ∧
      List.Forall₂ CodedElementOf (c.elementsAt codesPath [])
        (self.cv.take self.cvIndex) ∧
      loadCodes (contentEvents c) = some
        ((self.cv.take self.cvIndex).map CodedElementsSlot.loaded)) := by
  refine ⟨fun hbase h => ?_, fun h => h.load, fun h => ?_⟩
  · obtain ⟨self, hrun, hindex, hslots⟩ := h.run hbase
    have hcalls := h.names.handlerCalls
    refine ⟨_, self, hcalls, hrun, hindex, hslots, ?_, ?_⟩
    · rw [loadSegments_eq_run, hrun]
      rfl
    · rw [segmentsRun, hcalls] at hrun
      exact childrenInside_of_run hrun
  · obtain ⟨self, hrun, hindex, hslots⟩ := h.run
    refine ⟨self, hrun, hindex, hslots, ?_⟩
    rw [loadCodes_eq_run, hrun]
    rfl

/-- A file with one segment of two children. -/
def sampleSegment : Content :=
  .element segmentsName []
    (.element segmentName [(codeName, ascii "BGM")]
      (sampleText title1Name (sampleText title2Name (sampleText functionName
        (.element childrenName []
          (sampleText childName (sampleText childName .nil)) .nil)))) .nil) .nil

/-- A file with one element. -/
def sampleElement : Content :=
  .element elementsName []
    (.element elementName [(codeName, ascii "1004")]
      (sampleText title1Name (sampleText title2Name (sampleText functionName
        (sampleText formatName (sampleText isCodedName .nil))))) .nil) .nil

theorem load_in_order_sample :
    let codes := sampleCodes (sampleText title1Name
      (sampleText title2Name (sampleText functionName .nil)))
    (∃ self, segmentsRun segmentsPath (contentEvents sampleSegment) = some self ∧
      List.Forall₂ (SegmentOf segmentsPath)
        (sampleSegment.elementsAt segmentsPath []) (self.segs.take self.index)) ∧
    (∃ table, loadElements (contentEvents sampleElement) = some table ∧
      List.Forall₂ ElementOf (sampleElement.elementsAt elementsPath []) table) ∧
    ∃ self, codesRun (contentEvents codes) = some self ∧
      List.Forall₂ CodedElementOf (codes.elementsAt codesPath [])
        (self.cv.take self.cvIndex) := by
  intro codes
  have hcodes : CodesDocument codes :=
    ⟨by decide +kernel, forall_mem_of_all (by decide +kernel)⟩
  refine ⟨?_, ?_, ?_⟩
  · obtain ⟨_, self, -, hrun, -, hslots, -⟩ :=
      @load_in_order.1 segmentsPath sampleSegment (by decide)
        ⟨by decide +kernel, forall_mem_of_all (by decide +kernel)⟩
    exact ⟨self, hrun, hslots⟩
  · exact @load_in_order.2.1 sampleElement
      ⟨by decide +kernel, forall_mem_of_all (by decide +kernel)⟩
  · obtain ⟨self, hrun, -, hslots, -⟩ := load_in_order.2.2 hcodes
    exact ⟨self, hrun, hslots⟩

end Libedi
