import Libedi.Generated
import Libedi.LoaderElements

/-!
# The generated tables, loaded again

What the loader makes of the documents of the generator.  A string is there if its
text is not empty; otherwise the slot keeps what it held before.
-/

namespace Libedi

open XmlTree XmlReader

/-! ## Trees -/

/-- The texts that a string makes. -/
def textsOf (x : Bytes) : List Delivered := if x = [] then [] else [.single x]

theorem textContent_textsAt (target path x : Bytes) :
    (textContent x).textsAt target path
      = if path = target then textsOf x else [] := by
  unfold textContent textsOf
  by_cases hx : x = []
  · simp [hx, Content.textsAt]
  · rw [dif_neg hx, if_neg hx, Content.textsAt, Content.textsAt, List.append_nil]
    rfl

theorem textContent_elementsAt (base path x : Bytes) :
    (textContent x).elementsAt base path = [] := by
  unfold textContent
  split_ifs <;> rfl

theorem leaf_textsAt (target path : Bytes) (n : Name) (x : Bytes) :
    (leaf n x).textsAt target path
      = if childPath path n.bytes = target then textsOf x else [] := by
  rw [leaf, Content.textsAt, textContent_textsAt]
  simp [attrTexts, Content.textsAt]

theorem leaf_elementsAt (base path : Bytes) (n : Name) (x : Bytes) :
    (leaf n x).elementsAt base path
      = if childPath path n.bytes = base then [⟨[], textContent x⟩] else [] := by
  rw [leaf, Content.elementsAt, textContent_elementsAt]
  rfl

theorem contentList_textsAt (target path : Bytes) (cs : List Content) :
    (contentList cs).textsAt target path
      = cs.flatMap (Content.textsAt target path) := by
  induction cs with
  | nil => rfl
  | cons c cs ih =>
    rw [contentList, Content.append_textsAt, ih, List.flatMap_cons]

theorem contentList_elementsAt (base path : Bytes) (cs : List Content) :
    (contentList cs).elementsAt base path
      = cs.flatMap (Content.elementsAt base path) := by
  induction cs with
  | nil => rfl
  | cons c cs ih =>
    rw [contentList, Content.append_elementsAt, ih, List.flatMap_cons]

theorem Fits.contentList {room : Nat} {cs : List Content}
    (h : ∀ c ∈ cs, Fits room c) : Fits room (contentList cs) := by
  induction cs with
  | nil => trivial
  | cons c cs ih =>
    rw [List.forall_mem_cons] at h
    exact h.1.append (ih h.2)

theorem fits_textContent (room : Nat) (x : Bytes) : Fits room (textContent x) := by
  unfold textContent
  split_ifs <;> trivial

theorem fits_leaf {room : Nat} {n : Name} (h : n.bytes.length < room) (x : Bytes) :
    Fits room (leaf n x) :=
  ⟨by omega, fun _ ha => absurd ha List.not_mem_nil, fits_textContent _ x, trivial⟩

section Entries

variable {keys : List (Bytes × Bytes) → List (Bytes × Bytes)}
  (hkeys : KeysOrder keys)

/-- The entries of a table. -/
theorem tableNode_elementsAt (tableName name : Name) {ι : Type*} (l : List ι)
    (attrs : ι → List (Bytes × Bytes)) (nodes : ι → List Content) :
    (tableNode keys tableName
        (l.map fun i => entryNode keys name (attrs i) (nodes i))).elementsAt
        (childPath (childPath [] tableName.bytes) name.bytes) []
      = l.map fun i => ⟨namedAttrs (keys (attrs i)), contentList (nodes i)⟩ := by
  have hroot : childPath [] tableName.bytes
      ≠ childPath (childPath [] tableName.bytes) name.bytes := by
    intro heq
    have hlen := congrArg List.length heq
    simp [childPath] at hlen
  have hentry : ∀ i, (Content.append (entryNode keys name (attrs i) (nodes i))
      (textContent (ascii "\n"))).elementsAt
        (childPath (childPath [] tableName.bytes) name.bytes)
        (childPath [] tableName.bytes)
      = [⟨namedAttrs (keys (attrs i)), contentList (nodes i)⟩] := by
    intro i
    rw [Content.append_elementsAt, textContent_elementsAt, entryNode,
      Content.elementsAt, if_pos rfl]
    rfl
  rw [tableNode, Content.elementsAt, if_neg hroot, contentList_elementsAt, List.flatMap_map, List.flatMap_map]
  simp only [hentry, Content.elementsAt, List.append_nil]
  rw [← List.map_eq_flatMap]

theorem namedAttrs_mem {attrs : List (Bytes × Bytes)} {a : Name × Bytes}
    (h : a ∈ namedAttrs attrs) : (a.1.bytes, a.2) ∈ attrs := by
  obtain ⟨b, hb, hnamed⟩ := List.mem_filterMap.1 h
  unfold namedAttr at hnamed
  split_ifs at hnamed
  obtain rfl := Option.some.inj hnamed
  exact hb

include hkeys

/-- An entry whose paths fit. -/
theorem fits_entryNode {n : Name} {attrs : List (Bytes × Bytes)}
    {nodes : List Content} {room : Nat} (hattrs : ∀ a ∈ attrs, a.1.length ≤ 5)
    (hnodes : ∀ c ∈ nodes, Fits room c) (hroom : 8 ≤ room) :
    Fits (1 + n.bytes.length + room) (entryNode keys n attrs nodes) := by
  refine ⟨by omega, fun a ha => ?_, ?_, trivial⟩
  · have hle := hattrs _ ((hkeys attrs).mem_iff.1 (namedAttrs_mem ha))
    dsimp only at hle
    omega
  · rw [Nat.add_sub_cancel_left]
    exact .contentList hnodes

theorem fits_tableNode {tableName : Name} {entries : List Content} {room : Nat}
    (h : ∀ c ∈ entries, Fits room c) (hroom : 8 ≤ room) :
    Fits (1 + tableName.bytes.length + room) (tableNode keys tableName entries) := by
  refine fits_entryNode hkeys ?_ ?_ hroom
  · rw [List.forall_mem_singleton]
    exact (by decide : countName.bytes.length ≤ 5)
  · rw [List.forall_mem_map]
    exact fun c hc => (h c hc).append (fits_textContent room _)

omit hkeys

theorem fits_phraseNodes {room : Nat} (hroom : 32 ≤ room)
    (title title2 function : Bytes) {behind : List Content}
    (h : ∀ c ∈ behind, Fits room c) :
    ∀ c ∈ phraseNodes title title2 function behind, Fits room c := by
  have hleaf : ∀ (n : Name) (x : Bytes), n.bytes.length < 32 →
      Fits room (leaf n x) := fun n x hn => fits_leaf (by omega) x
  rw [phraseNodes, List.forall_mem_cons, List.forall_mem_cons,
    List.forall_mem_cons]
  exact ⟨hleaf _ _ (by decide), hleaf _ _ (by decide), hleaf _ _ (by decide), h⟩

theorem handlerCalls_tableNode {c : Content} {room : Nat} (h : Fits room c)
    (hroom : room < xpathMax) :
    handlerCalls [] (contentEvents c) = some (c.calls []) := by
  have hcalls := @handlerCalls_of_fits c [] room [] h (by simpa using hroom)
  rw [List.append_nil] at hcalls
  rw [hcalls]
  simp [handlerCalls]

end Entries

/-! ## Strings -/

/-- A string that is there. -/
def Field.string : Field → Option Bytes
  | .text s => some s
  | _ => none

/-- A string that is there if its text is not empty. -/
def stringOf (x : Bytes) : Option Bytes := if x = [] then none else some x

theorem stringOf_eq_some {x : Bytes} (h : x ≠ []) : stringOf x = some x := if_neg h

theorem entryFields_string {fields : List TextField} {basepath : Bytes}
    {fresh : Fields} {e : Element} {f : TextField} {x : Bytes} (hf : f ∈ fields)
    (hfresh : (fresh f).string = none)
    (htexts : e.textsAt (basepath ++ f.path) basepath = textsOf x) :
    (entryFields fields .pieces basepath fresh e f).string = stringOf x := by
  rw [entryFields, if_pos hf, htexts, textsOf, stringOf]
  split_ifs
  · exact hfresh
  · rfl

section Texts

variable {keys : List (Bytes × Bytes) → List (Bytes × Bytes)}
  (hkeys : KeysOrder keys) (basepath : Bytes)

theorem leaf_textsAt_base (t : Bytes) (n : Name) (x : Bytes) :
    (leaf n x).textsAt (basepath ++ t) basepath
      = if '/'.toUInt8 :: n.bytes = t then textsOf x else [] := by
  rw [leaf_textsAt, childPath]
  simp only [List.append_cancel_left_eq]

theorem Key.textsOf (k : Key) : Libedi.textsOf k.bytes = [.single k.bytes] :=
  if_neg k.nonempty

include hkeys in
theorem entry_textsAt (t : Bytes) (k : Key) (nodes : List Content) :
    Element.textsAt (basepath ++ t) basepath
        ⟨namedAttrs (keys [(codeName.bytes, k.bytes)]), contentList nodes⟩
      = (if ascii "/@code" = t then textsOf k.bytes else []) ++
        nodes.flatMap (Content.textsAt (basepath ++ t) basepath) := by
  have hattrs : namedAttrs (keys [(codeName.bytes, k.bytes)])
      = [(codeName, k.bytes)] := by
    rw [keys_singleton hkeys]
    rfl
  have hpath : attrPath basepath codeName.bytes = basepath ++ ascii "/@code" := rfl
  rw [Element.textsAt, contentList_textsAt, hattrs, attrTexts, k.textsOf]
  by_cases ht : ascii "/@code" = t
  · simp [hpath, ht]
  · simp [hpath, ht]

/-- The strings of an entry with titles and a function. -/
def phraseValue (name title title2 function : Bytes) : TextField → Bytes
  | .name => name
  | .title => title
  | .title2 => title2
  | .function => function
  | .format => []

include hkeys in
/-- The texts for the strings of an entry. -/
theorem phrase_textsAt (k : Key) (title title2 function : Bytes)
    {behind : List Content} {f : TextField} (hf : f ∈ segmentFields)
    (hbehind : behind.flatMap (Content.textsAt (basepath ++ f.path) basepath)
      = []) :
    Element.textsAt (basepath ++ f.path) basepath
        ⟨namedAttrs (keys [(codeName.bytes, k.bytes)]),
          contentList (phraseNodes title title2 function behind)⟩
      = textsOf (phraseValue k.bytes title title2 function f) := by
  rw [entry_textsAt hkeys, phraseNodes, List.flatMap_cons, List.flatMap_cons,
    List.flatMap_cons, hbehind, leaf_textsAt_base, leaf_textsAt_base,
    leaf_textsAt_base]
  cases f with
  | format => exact absurd hf (by decide)
  | name => simp +decide [phraseValue]
  | title => simp +decide [phraseValue]
  | title2 => simp +decide [phraseValue]
  | function => simp +decide [phraseValue]

end Texts

theorem freshSlot_string {α : Type*} {zero stale : α} (fields : α → Fields)
    (hzero : ∀ f, (fields zero f).string = none)
    (hstale : ∀ f, (fields stale f).string = none) (alloc cleared k : Nat)
    (f : TextField) :
    (fields (freshSlot alloc cleared zero stale k) f).string = none := by
  unfold freshSlot
  split_ifs
  · exact hzero f
  · exact hstale f

/-! ## Segments and composites -/

/-- A child, by its string. -/
def Field.child : Field → Option EdistructChild
  | .text (status :: code) => some ⟨status, code⟩
  | _ => none

/-- The children, if they are there. -/
def Children.entries : Children → Option (List EdistructChild)
  | .block slots => slots.mapM Field.child
  | _ => none

/-- The entry in a slot, if all of it is there. -/
def SegmentSlot.entry (slot : SegmentSlot) : Option EdistructSegment :=
  (slot.fields .name).string.bind fun name =>
    (slot.fields .title).string.bind fun title =>
      (slot.fields .title2).string.bind fun title2 =>
        (slot.fields .function).string.bind fun function =>
          slot.children.entries.map fun children =>
            ⟨name, title, title2, function, children⟩

/-- A child of the source. -/
def specChild (k : Key) : EdistructChild :=
  ⟨k.bytes.head k.nonempty, k.bytes.tail⟩

/-- The entry of a segment of the source. -/
def specSegment (e : Key × SpecSegment) : EdistructSegment :=
  ⟨e.1.bytes, e.2.title.bytes, makeTitle2 e.2.title.bytes, e.2.function.bytes,
    e.2.elements.map specChild⟩

theorem child_text (k : Key) : Field.child (.text k.bytes) = some (specChild k) := by
  obtain ⟨bytes, hne, _⟩ := k
  cases bytes with
  | nil => exact absurd rfl hne
  | cons status code => rfl

theorem mapM_child (ks : List Key) :
    (ks.map fun k => Field.text k.bytes).mapM Field.child
      = some (ks.map specChild) := by
  induction ks with
  | nil => rfl
  | cons k ks ih =>
    rw [List.map_cons, List.mapM_cons, child_text, ih]
    rfl

section Segments

variable {keys : List (Bytes × Bytes) → List (Bytes × Bytes)}
  (hkeys : KeysOrder keys)

/-- The element of an entry. -/
def segmentElement (keys : List (Bytes × Bytes) → List (Bytes × Bytes))
    (e : Key × SpecSegment) : Element :=
  ⟨namedAttrs (keys [(codeName.bytes, e.1.bytes)]),
    contentList (phraseNodes e.2.title.bytes (makeTitle2 e.2.title.bytes)
      e.2.function.bytes [.element childrenName []
        (contentList (e.2.elements.map fun c => leaf childName c.bytes)) .nil])⟩

theorem childPath_children (basepath : Bytes) :
    childPath basepath childrenName.bytes = basepath ++ ascii "/children" := rfl

theorem childPath_child (basepath : Bytes) :
    childPath (basepath ++ ascii "/children") childName.bytes
      = basepath ++ ascii "/children/child" := by
  simp [childPath, ascii, childName]

/-- The texts of the children. -/
theorem children_textsAt (basepath t : Bytes) (ks : List Key) :
    (contentList (ks.map fun c => leaf childName c.bytes)).textsAt
        (basepath ++ t) (basepath ++ ascii "/children")
      = if ascii "/children/child" = t then ks.map fun k => .single k.bytes
        else [] := by
  rw [contentList_textsAt, List.flatMap_map]
  simp only [leaf_textsAt, childPath_child, List.append_cancel_left_eq, Key.textsOf]
  split_ifs
  · rw [← List.map_eq_flatMap]
  · simp

include hkeys

theorem segmentElement_textsAt (basepath : Bytes) (e : Key × SpecSegment)
    {f : TextField} (hf : f ∈ segmentFields) :
    (segmentElement keys e).textsAt (basepath ++ f.path) basepath
      = textsOf (phraseValue e.1.bytes e.2.title.bytes
        (makeTitle2 e.2.title.bytes) e.2.function.bytes f) := by
  refine phrase_textsAt hkeys basepath e.1 _ _ _ hf ?_
  have hpath : ascii "/children/child" ≠ f.path := by
    cases f <;> decide
  rw [List.flatMap_singleton, Content.textsAt, childPath_children, children_textsAt,
    if_neg hpath]
  simp [attrTexts, Content.textsAt]

omit hkeys in
theorem segmentElement_kids (basepath : Bytes) (e : Key × SpecSegment) :
    ∃ kids : Element,
      (segmentElement keys e).inner.elementsAt (basepath ++ ascii "/children")
        basepath = [kids] ∧
      kidTexts basepath kids = e.2.elements.map fun k => .single k.bytes := by
  refine ⟨⟨[], contentList (e.2.elements.map fun c => leaf childName c.bytes)⟩,
    ?_, ?_⟩
  · have hleaf : ∀ (n : Name) (x : Bytes), '/'.toUInt8 :: n.bytes ≠ ascii "/children" →
        (leaf n x).elementsAt (basepath ++ ascii "/children") basepath = [] := by
      intro n x hne
      rw [leaf_elementsAt, childPath, if_neg]
      rwa [List.append_cancel_left_eq]
    rw [segmentElement, contentList_elementsAt, phraseNodes, List.flatMap_cons,
      List.flatMap_cons, List.flatMap_cons, List.flatMap_singleton,
      hleaf _ _ (by decide), hleaf _ _ (by decide), hleaf _ _ (by decide),
      Content.elementsAt, childPath_children, if_pos rfl]
    rfl
  · rw [kidTexts, Element.textsAt, children_textsAt, if_pos rfl]
    rfl

/-- The slot of an entry is filled if the title in words is not empty. -/
theorem segmentEntry_entry (basepath : Bytes) (k : Nat) (e : Key × SpecSegment) :
    (segmentEntry .pieces basepath k (segmentElement keys e)).entry
      = (stringOf (makeTitle2 e.2.title.bytes)).map fun _ => specSegment e := by
  have hfresh := @freshSlot_string _ SegmentSlot.zero SegmentSlot.stale
    SegmentSlot.fields (fun _ => rfl) (fun _ => rfl) 25 10 k
  have hstring : ∀ f ∈ segmentFields,
      ((segmentEntry .pieces basepath k (segmentElement keys e)).fields f).string
        = stringOf (phraseValue e.1.bytes e.2.title.bytes
          (makeTitle2 e.2.title.bytes) e.2.function.bytes f) :=
    fun f hf => entryFields_string hf (hfresh f)
      (segmentElement_textsAt hkeys basepath e hf)
  have hchildren :
      (segmentEntry .pieces basepath k (segmentElement keys e)).children.entries
        = some (e.2.elements.map specChild) := by
    obtain ⟨kids, hkids, htexts⟩ := @segmentElement_kids keys basepath e
    unfold segmentEntry
    dsimp only [Reading.pieces]
    rw [hkids]
    have hpieces : (e.2.elements.map fun k => Delivered.single k.bytes).flatMap
        (·.pieces) = e.2.elements.map Key.bytes := by
      rw [List.flatMap_map, List.map_eq_flatMap]
      rfl
    dsimp only [List.getLast?_singleton]
    rw [htexts, hpieces, Children.entries, List.map_map]
    exact mapM_child e.2.elements
  rw [SegmentSlot.entry, hstring _ (by decide), hstring _ (by decide),
    hstring _ (by decide), hstring _ (by decide), hchildren]
  dsimp only [phraseValue]
  rw [stringOf_eq_some e.1.nonempty, stringOf_eq_some e.2.title.nonempty,
    stringOf_eq_some e.2.function.nonempty]
  unfold stringOf
  split_ifs <;> rfl

omit hkeys

/-- The path of an entry. -/
def NamePart.path (p : NamePart) : Bytes :=
  childPath (childPath [] p.tableName.bytes) p.name.bytes

theorem segments_elementsAt (p : NamePart) (l : List (Key × SpecSegment)) :
    (tableNode keys p.tableName (l.map (segmentNode keys p))).elementsAt p.path []
      = l.map (segmentElement keys) :=
  tableNode_elementsAt p.tableName p.name l _ _

include hkeys

/-- A file of segments or composites that is loaded. -/
theorem loadSegments_tableNode (p : NamePart) (l : List (Key × SpecSegment)) :
    loadSegments p.path (contentEvents
        (tableNode keys p.tableName (l.map (segmentNode keys p))))
      = some ((l.map (segmentElement keys)).mapIdx
        (segmentEntry .pieces p.path)) := by
  have hbase : p.path ≠ [] := by
    cases p <;> decide
  have hentry : ∀ e : Key × SpecSegment,
      Fits (1 + p.name.bytes.length + 64) (segmentNode keys p e) := by
    intro e
    refine fits_entryNode hkeys ?_ (fits_phraseNodes (by decide) _ _ _ ?_)
      (by decide)
    · rw [List.forall_mem_singleton]
      exact (by decide : codeName.bytes.length ≤ 5)
    · rw [List.forall_mem_singleton]
      refine ⟨by decide, fun _ ha => absurd ha List.not_mem_nil,
        .contentList ?_, trivial⟩
      rw [List.forall_mem_map]
      exact fun k _ => fits_leaf (by decide) k.bytes
  have hfits := @fits_tableNode keys hkeys p.tableName _ _
    (List.forall_mem_map.2 fun e (_ : e ∈ l) => hentry e) (by omega)
  have hroom : 1 + p.tableName.bytes.length + (1 + p.name.bytes.length + 64)
      < xpathMax := by
    cases p <;> decide
  rw [loadSegments_contentEvents hbase, handlerCalls_tableNode hfits hroom,
    segmentTable, segments_elementsAt]
  rfl

end Segments

/-! ## Elements -/

/-- The entry in a slot, if all of it is there. -/
def ElementSlot.entry (slot : ElementSlot) : Option EdistructElement :=
  (slot.fields .name).string.bind fun name =>
    (slot.fields .title).string.bind fun title =>
      (slot.fields .title2).string.bind fun title2 =>
        (slot.fields .function).string.bind fun function =>
          (slot.fields .format).string.bind fun format =>
            slot.isCoded.map fun isCoded =>
              ⟨name, title, title2, function, format, isCoded⟩

/-- The entry of an element of the source. -/
def specElement (codes : CodedMap) (e : Key × SpecElement) : EdistructElement :=
  ⟨e.1.bytes, e.2.title.bytes, makeTitle2 e.2.title.bytes, e.2.function.bytes,
    e.2.format, codes.has e.1⟩

/-- The element of an entry. -/
def elementElement (keys : List (Bytes × Bytes) → List (Bytes × Bytes))
    (codes : CodedMap) (e : Key × SpecElement) : Element :=
  ⟨namedAttrs (keys [(codeName.bytes, e.1.bytes)]),
    contentList (phraseNodes e.2.title.bytes (makeTitle2 e.2.title.bytes)
      e.2.function.bytes [leaf formatName e.2.format,
        leaf isCodedName (if codes.has e.1 then ascii "1" else ascii "0")])⟩

section Elements

variable {keys : List (Bytes × Bytes) → List (Bytes × Bytes)}
  (hkeys : KeysOrder keys) (codes : CodedMap)

include hkeys

theorem elementElement_textsAt (e : Key × SpecElement) {f : TextField}
    (hf : f ∈ segmentFields) :
    (elementElement keys codes e).textsAt (elementsPath ++ f.path) elementsPath
      = textsOf (phraseValue e.1.bytes e.2.title.bytes
        (makeTitle2 e.2.title.bytes) e.2.function.bytes f) := by
  refine phrase_textsAt hkeys elementsPath e.1 _ _ _ hf ?_
  rw [List.flatMap_cons, List.flatMap_singleton, leaf_textsAt_base,
    leaf_textsAt_base, if_neg, if_neg, List.append_nil]
  · cases f with
    | format => exact absurd hf (by decide)
    | _ => decide
  · cases f with
    | format => exact absurd hf (by decide)
    | _ => decide

/-- The texts for the format and the flag. -/
theorem elementElement_behind (e : Key × SpecElement) :
    (elementElement keys codes e).textsAt (elementsPath ++ TextField.format.path)
        elementsPath = textsOf e.2.format ∧
      (elementElement keys codes e).textsAt isCodedPath elementsPath
        = [.single (if codes.has e.1 then ascii "1" else ascii "0")] := by
  have hflag : textsOf (if codes.has e.1 then ascii "1" else ascii "0")
      = [.single (if codes.has e.1 then ascii "1" else ascii "0")] := by
    refine if_neg ?_
    split_ifs <;> decide
  constructor
  · rw [elementElement, entry_textsAt hkeys, phraseNodes]
    simp only [List.flatMap_cons, List.flatMap_nil, leaf_textsAt_base]
    simp +decide
  · rw [elementElement, isCodedPath, entry_textsAt hkeys, phraseNodes]
    simp only [List.flatMap_cons, List.flatMap_nil, leaf_textsAt_base, hflag]
    simp +decide

/-- The slot of an entry is filled if the title in words and the format are not
empty. -/
theorem elementEntry_entry (k : Nat) (e : Key × SpecElement) :
    (elementEntry .pieces k (elementElement keys codes e)).entry
      = (stringOf (makeTitle2 e.2.title.bytes)).bind fun _ =>
        (stringOf e.2.format).map fun _ => specElement codes e := by
  have hfresh := @freshSlot_string _ ElementSlot.zero ElementSlot.stale
    ElementSlot.fields (fun _ => rfl) (fun _ => rfl) 25 10 k
  obtain ⟨hformat, hflag⟩ := elementElement_behind hkeys codes e
  have hstring : ∀ f ∈ segmentFields,
      ((elementEntry .pieces k (elementElement keys codes e)).fields f).string
        = stringOf (phraseValue e.1.bytes e.2.title.bytes
          (makeTitle2 e.2.title.bytes) e.2.function.bytes f) := by
    intro f hf
    have hmem : f ∈ elementFields := by
      revert hf
      cases f <;> decide
    exact entryFields_string hmem (hfresh f)
      (elementElement_textsAt hkeys codes e hf)
  have hstring' : ((elementEntry .pieces k
      (elementElement keys codes e)).fields .format).string
      = stringOf e.2.format := by
    have hmem : TextField.format ∈ elementFields := by decide
    exact entryFields_string hmem (hfresh .format) hformat
  have hcoded : (elementEntry .pieces k (elementElement keys codes e)).isCoded
      = some (codes.has e.1) := by
    unfold elementEntry
    dsimp only
    rw [hflag]
    cases codes.has e.1 <;> rfl
  rw [ElementSlot.entry, hstring _ (by decide), hstring _ (by decide),
    hstring _ (by decide), hstring _ (by decide), hstring', hcoded]
  dsimp only [phraseValue]
  rw [stringOf_eq_some e.1.nonempty, stringOf_eq_some e.2.title.nonempty,
    stringOf_eq_some e.2.function.nonempty]
  unfold stringOf
  split_ifs <;> rfl

/-- A file of elements that is loaded. -/
theorem loadElements_tableNode (l : List (Key × SpecElement)) :
    loadElements (contentEvents
        (tableNode keys elementsName (l.map (elementNode keys codes))))
      = some ((l.map (elementElement keys codes)).mapIdx
        (elementEntry .pieces)) := by
  have hentry : ∀ e : Key × SpecElement,
      Fits (1 + elementName.bytes.length + 64) (elementNode keys codes e) := by
    intro e
    refine fits_entryNode hkeys ?_ (fits_phraseNodes (by decide) _ _ _ ?_)
      (by decide)
    · rw [List.forall_mem_singleton]
      exact (by decide : codeName.bytes.length ≤ 5)
    · rw [List.forall_mem_cons, List.forall_mem_singleton]
      exact ⟨fits_leaf (by decide) _, fits_leaf (by decide) _⟩
  have hfits := @fits_tableNode keys hkeys elementsName _ _
    (List.forall_mem_map.2 fun e (_ : e ∈ l) => hentry e) (by decide)
  have hat : (tableNode keys elementsName
      (l.map (elementNode keys codes))).elementsAt elementsPath []
      = l.map (elementElement keys codes) :=
    tableNode_elementsAt elementsName elementName l _ _
  rw [loadElements_contentEvents, handlerCalls_tableNode hfits (by decide),
    elementTable, hat]
  rfl

end Elements

/-! ## Codes -/

/-- A value, if all of it is there. -/
def Fields.coded (fields : Fields) : Option EdistructCoded :=
  (fields .name).string.bind fun name =>
    (fields .title).string.bind fun title =>
      (fields .title2).string.bind fun title2 =>
        (fields .function).string.map fun function =>
          ⟨name, title, title2, function⟩

/-- A coded element, if all of it is there. -/
def LoadedCodes.entry (codes : LoadedCodes) : Option EdistructCodedElements :=
  codes.el.string.bind fun el =>
    codes.vals.bind fun vals => (vals.mapM Fields.coded).map fun vals => ⟨el, vals⟩

/-- The entry of a value of the source. -/
def specCode (v : Key × SpecCode) : EdistructCoded :=
  ⟨v.1.bytes, v.2.title.bytes, makeTitle2 v.2.title.bytes, v.2.function.bytes⟩

/-- The entry of a coded element of the source. -/
def specCodedElement (e : Key × Hash SpecCode) : EdistructCodedElements :=
  ⟨e.1.bytes, e.2.sorted.map specCode⟩

/-- The element of a value. -/
def codeElement (keys : List (Bytes × Bytes) → List (Bytes × Bytes))
    (v : Key × SpecCode) : Element :=
  ⟨namedAttrs (keys [(codeName.bytes, v.1.bytes)]),
    contentList (phraseNodes (specEscapeXml v.2.title.bytes)
      (makeTitle2 v.2.title.bytes) v.2.function.bytes [])⟩

/-- The element of a coded element. -/
def codedElementElement (keys : List (Bytes × Bytes) → List (Bytes × Bytes))
    (e : Key × Hash SpecCode) : Element :=
  ⟨namedAttrs (keys [(codeName.bytes, e.1.bytes),
      (countName.bytes, decimal e.2.sorted.length)]),
    contentList (e.2.sorted.map (codeNode keys))⟩

/-- The value that is loaded. -/
def loadedCode (v : Key × SpecCode) : EdistructCoded :=
  ⟨v.1.bytes, specEscapeXml v.2.title.bytes, makeTitle2 v.2.title.bytes,
    v.2.function.bytes⟩

section Codes

variable {keys : List (Bytes × Bytes) → List (Bytes × Bytes)}
  (hkeys : KeysOrder keys)

include hkeys

/-- The slot of a value is filled if the title in words is not empty. -/
theorem codedEntry_coded (v : Key × SpecCode) :
    (codedEntry .pieces (codeElement keys v)).coded
      = (stringOf (makeTitle2 v.2.title.bytes)).map fun _ => loadedCode v := by
  have hstring : ∀ f ∈ segmentFields,
      (codedEntry .pieces (codeElement keys v) f).string
        = stringOf (phraseValue v.1.bytes (specEscapeXml v.2.title.bytes)
          (makeTitle2 v.2.title.bytes) v.2.function.bytes f) :=
    fun f hf => entryFields_string hf rfl
      (phrase_textsAt hkeys codesValuePath v.1 _ _ _ hf rfl)
  rw [Fields.coded, hstring _ (by decide), hstring _ (by decide),
    hstring _ (by decide), hstring _ (by decide)]
  dsimp only [phraseValue]
  rw [stringOf_eq_some v.1.nonempty,
    stringOf_eq_some (specEscapeXml_ne_nil v.2.title.nonempty),
    stringOf_eq_some v.2.function.nonempty]
  unfold stringOf
  split_ifs <;> rfl

omit hkeys in
theorem codedElement_values (l : List (Key × SpecCode)) :
    (contentList (l.map (codeNode keys))).elementsAt codesValuePath codesPath
      = l.map (codeElement keys) := by
  have hpath : childPath codesPath valueName.bytes = codesValuePath := by decide
  have hvalue : ∀ v, (codeNode keys v).elementsAt codesValuePath codesPath
      = [codeElement keys v] := by
    intro v
    rw [codeNode, entryNode, Content.elementsAt, hpath, if_pos rfl]
    rfl
  rw [contentList_elementsAt, List.flatMap_map]
  simp only [hvalue]
  rw [← List.map_eq_flatMap]

/-- The code of a coded element, whatever the order of its attributes is. -/
theorem codedElement_code (e : Key × Hash SpecCode) :
    (codedElementElement keys e).textsAt (codesPath ++ ascii "/@code") codesPath
      = [.single e.1.bytes] := by
  have hvalue : ∀ v, (codeNode keys v).textsAt (codesPath ++ ascii "/@code")
      codesPath = [] := by
    intro v
    have hpath : childPath codesPath valueName.bytes = codesValuePath := by decide
    have hattrs : namedAttrs (keys [(codeName.bytes, v.1.bytes)])
        = [(codeName, v.1.bytes)] := by
      rw [keys_singleton hkeys]
      rfl
    have hattr : attrPath codesValuePath codeName.bytes
        ≠ codesPath ++ ascii "/@code" := by
      decide
    have hleaf : ∀ (n : Name) (x : Bytes),
        childPath codesValuePath n.bytes ≠ codesPath ++ ascii "/@code" →
        (leaf n x).textsAt (codesPath ++ ascii "/@code") codesValuePath = [] :=
      fun n x hne => by rw [leaf_textsAt, if_neg hne]
    rw [codeNode, entryNode, Content.textsAt, hpath, hattrs, contentList_textsAt,
      phraseNodes, List.flatMap_cons, List.flatMap_cons, List.flatMap_cons,
      hleaf _ _ (by decide), hleaf _ _ (by decide), hleaf _ _ (by decide)]
    simp [attrTexts, hattr, Content.textsAt]
  have hattrs : attrTexts (codesPath ++ ascii "/@code") codesPath
      (namedAttrs (keys [(codeName.bytes, e.1.bytes),
        (countName.bytes, decimal e.2.sorted.length)])) = [.single e.1.bytes] := by
    have hperm := (((hkeys [(codeName.bytes, e.1.bytes),
      (countName.bytes, decimal e.2.sorted.length)]).filterMap namedAttr).filter
        (fun a => attrPath codesPath a.1.bytes = codesPath ++ ascii "/@code")).map
        (fun a => Delivered.single a.2)
    exact List.perm_singleton.1 hperm
  rw [codedElementElement, Element.textsAt, hattrs, contentList_textsAt,
    List.flatMap_map]
  simp [hvalue]

/-- The slot of a coded element is filled if those of its values are. -/
theorem codesEntry_entry (e : Key × Hash SpecCode) :
    (codesEntry .pieces (codedElementElement keys e)).entry
      = (e.2.sorted.mapM fun v => (stringOf (makeTitle2 v.2.title.bytes)).map
          fun _ => loadedCode v).map fun vals => ⟨e.1.bytes, vals⟩ := by
  have hmap : ∀ l : List (Key × SpecCode),
      ((l.map (codeElement keys)).map (codedEntry .pieces)).mapM Fields.coded
        = l.mapM fun v => (stringOf (makeTitle2 v.2.title.bytes)).map
          fun _ => loadedCode v := by
    intro l
    induction l with
    | nil => rfl
    | cons v l ih =>
      rw [List.map_cons, List.map_cons, List.mapM_cons, ih, List.mapM_cons,
        codedEntry_coded hkeys]
  rw [LoadedCodes.entry, codesEntry, codedElement_code hkeys]
  dsimp only [List.getLast?_singleton]
  rw [codedElementElement, codedElement_values, Field.string,
    Option.bind_some, Option.bind_some, hmap]
  rfl

/-- A file of codes that is loaded. -/
theorem loadCodes_tableNode (l : List (Key × Hash SpecCode)) :
    loadCodes (contentEvents
        (tableNode keys codedValuesName (l.map (codedElementNode keys))))
      = some ((l.map (codedElementElement keys)).map (codesEntry .pieces)) := by
  have hcode : ∀ v : Key × SpecCode,
      Fits (1 + valueName.bytes.length + 64) (codeNode keys v) := by
    intro v
    refine fits_entryNode hkeys ?_ (fits_phraseNodes (by decide) _ _ _
      (List.forall_mem_nil _)) (by decide)
    rw [List.forall_mem_singleton]
    exact (by decide : codeName.bytes.length ≤ 5)
  have hentry : ∀ e : Key × Hash SpecCode,
      Fits (1 + codedElementName.bytes.length +
        (1 + valueName.bytes.length + 64)) (codedElementNode keys e) := by
    intro e
    refine fits_entryNode hkeys ?_
      (List.forall_mem_map.2 fun v _ => hcode v) (by decide)
    rw [List.forall_mem_cons, List.forall_mem_singleton]
    exact ⟨(by decide : codeName.bytes.length ≤ 5),
      (by decide : countName.bytes.length ≤ 5)⟩
  have hfits := @fits_tableNode keys hkeys codedValuesName _ _
    (List.forall_mem_map.2 fun e (_ : e ∈ l) => hentry e) (by decide)
  have hat : (tableNode keys codedValuesName
      (l.map (codedElementNode keys))).elementsAt codesPath []
      = l.map (codedElementElement keys) :=
    tableNode_elementsAt codedValuesName codedElementName l _ _
  rw [loadCodes_contentEvents, handlerCalls_tableNode hfits (by decide),
    codesTable, hat]
  rfl

end Codes

end Libedi
