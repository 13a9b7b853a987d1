import Mathlib.Algebra.Order.BigOperators.Group.List
import Mathlib.Algebra.Order.Group.Nat
import Libedi.Lib.StillMarkup
import Libedi.SpecTables

/-!
# Strings that are printed without an escape

The generator prints functions and formats as they are.  If a file is loaded into the
tables of the source all the same, each of these strings is a text (`IsText`).

What the loader stores in these fields costs no more than what was read
(`loadSegments_cost`, `loadElements_cost`), and what was read costs no more than what
was printed.
-/

namespace Libedi

open XmlTree XmlReader

/-! ## The loader -/

/-- The names of the elements that are printed without an escape. -/
def isUnescaped (name : Bytes) : Bool :=
  functionName.bytes <:+ name ∨ formatName.bytes <:+ name

/-- The path of such an element, and of no attribute. -/
def unescapedPath (path : Bytes) : Bool :=
  '@'.toUInt8 ∉ path ∧ (ascii "/function" <:+ path ∨ ascii "/format" <:+ path)

theorem suffix_of_childPath {n name path : Bytes} (hn : '/'.toUInt8 ∉ n)
    (h : '/'.toUInt8 :: n <:+ childPath path name) : n <:+ name := by
  have hname : '/'.toUInt8 :: name <:+ childPath path name :=
    ⟨path, rfl⟩
  rcases List.suffix_or_suffix_of_suffix h hname with hsuffix | hsuffix
  · exact (List.suffix_cons_iff.1 hsuffix).elim
      (fun heq => (List.cons.inj heq).2 ▸ List.suffix_rfl)
      fun hrest => (List.suffix_cons _ _).trans hrest
  · rcases List.suffix_cons_iff.1 hsuffix with heq | hrest
    · exact (List.cons.inj heq).2 ▸ List.suffix_rfl
    · exact absurd (hrest.subset List.mem_cons_self) hn

/-- Only such an element has such a path. -/
theorem isUnescaped_of_path {path name : Bytes}
    (h : unescapedPath (childPath path name) = true) : isUnescaped name = true := by
  obtain ⟨-, hsuffix⟩ := of_decide_eq_true h
  exact decide_eq_true (hsuffix.imp
    (suffix_of_childPath functionName.noSlash) (suffix_of_childPath formatName.noSlash))

/-- What the text of a call costs, if it is for one of these strings. -/
def callCost : Call → Nat
  | .data path s => if unescapedPath path then textCost s else 0
  | _ => 0

theorem callCost_attr (path : Bytes) (a : Bytes × Bytes) :
    callCost (attrCall path a) = 0 := by
  have hat : '@'.toUInt8 ∈ attrPath path a.1 :=
    List.mem_append_right _ (List.mem_cons_of_mem _ List.mem_cons_self)
  exact if_neg fun h => (of_decide_eq_true h).1 hat

theorem sum_callCost_attrs (path : Bytes) (attrs : List (Bytes × Bytes)) :
    ((attrs.map (attrCall path)).map callCost).sum = 0 := by
  induction attrs with
  | nil => rfl
  | cons a attrs ih =>
    rw [List.map_cons, List.map_cons, List.sum_cons, callCost_attr, ih]

/-- The calls of the handlers cost no more than what was read. -/
theorem handlerCalls_cost {path : Bytes} {events : List XmlEvent}
    {calls : List Call} {free : Bool} (h : handlerCalls path events = some calls)
    (hfree : free = true → unescapedPath path = false) :
    (calls.map callCost).sum ≤ rawCost isUnescaped free events := by
  induction events generalizing path calls free with
  | nil =>
    obtain rfl := Option.some.inj h
    exact Nat.le_refl _
  | cons e events ih =>
    obtain ⟨⟨next, first⟩, hfirst, h⟩ := Option.bind_eq_some_iff.1 h
    obtain ⟨rest, hrest, rfl⟩ := Option.map_eq_some_iff.1 h
    rw [List.map_append, List.sum_append]
    cases e with
    | start name attrs =>
      obtain ⟨-, heq⟩ := startElement_eq_some_iff.1 hfirst
      obtain ⟨rfl, rfl⟩ := Prod.mk.inj heq
      have hattrs := sum_callCost_attrs (childPath path name) attrs
      have hle := @ih _ rest (!isUnescaped name) hrest fun hname =>
        Bool.eq_false_iff.2 fun hpath => by
          rw [isUnescaped_of_path hpath] at hname
          cases hname
      rw [List.map_cons, List.sum_cons, hattrs, rawCost]
      exact (Nat.zero_add _).trans_le hle
    | stop name =>
      have hfirst : endElement path name = some (next, first) := hfirst
      unfold endElement at hfirst
      split_ifs at hfirst
      obtain ⟨rfl, rfl⟩ := Prod.mk.inj (Option.some.inj hfirst)
      have hle := @ih _ rest false hrest fun hname => absurd hname Bool.false_ne_true
      rw [rawCost]
      exact (Nat.zero_add _).trans_le hle
    | chars s =>
      obtain ⟨rfl, rfl⟩ := Prod.mk.inj (Option.some.inj hfirst)
      have hle := @ih _ rest false hrest fun hname => absurd hname Bool.false_ne_true
      have hcall : callCost (.data path s) ≤ if free then 0 else textCost s := by
        rw [callCost]
        cases free with
        | true =>
          rw [hfree rfl]
          exact Nat.le_refl _
        | false =>
          rw [if_neg Bool.false_ne_true]
          split_ifs <;> omega
      rw [rawCost, List.map_singleton, List.sum_singleton]
      omega

/-! ## What is stored -/

/-- What a string costs. -/
def Field.cost : Field → Nat
  | .text s => textCost s
  | _ => 0

/-- What the strings of a slot cost that are printed without an escape. -/
def Fields.cost (fields : Fields) : Nat :=
  (fields .function).cost + (fields .format).cost

theorem Fields.cost_update_le (fields : Fields) (f : TextField) (s : Bytes) :
    Fields.cost (Function.update fields f (.text s)) ≤ fields.cost +
      if f = .function ∨ f = .format then textCost s else 0 := by
  cases f <;> simp +decide [Fields.cost, Function.update, Field.cost]; omega

section Slots

variable {α : Type*} {cost : α → Nat}

theorem sum_map_modify_le {f : α → α} {n : Nat} (h : ∀ a, cost (f a) ≤ cost a + n)
    (l : List α) (i : Nat) :
    ((l.modify i f).map cost).sum ≤ (l.map cost).sum + n := by
  induction l generalizing i with
  | nil => simp
  | cons a l ih =>
    cases i with
    | zero =>
      have ha := h a
      simp only [List.modify_zero_cons, List.map_cons, List.sum_cons]
      omega
    | succ i =>
      have hrest := ih i
      simp only [List.modify_succ_cons, List.map_cons, List.sum_cons]
      omega

theorem writeSlot_cost {slots slots' : List α} {i n : Nat} {f : α → α}
    (hslots : writeSlot slots i f = some slots') (h : ∀ a, cost (f a) ≤ cost a + n) :
    (slots'.map cost).sum ≤ (slots.map cost).sum + n := by
  unfold writeSlot at hslots
  split_ifs at hslots
  obtain rfl := Option.some.inj hslots
  exact sum_map_modify_le h slots i

theorem growBlock_cost {alloc cleared : Nat} {zero stale : α} (hzero : cost zero = 0)
    (hstale : cost stale = 0) (slots : List α) :
    ((growBlock alloc cleared zero stale slots).map cost).sum
      = (slots.map cost).sum := by
  simp [growBlock, hzero, hstale]

/-- Calls that each add no more than they cost. -/
theorem foldlM_cost {P : Type*} {step : P → Call → Option P} {total : P → Nat}
    (hstep : ∀ {p q : P} {c : Call}, step p c = some q →
      total q ≤ total p + callCost c) :
    ∀ (calls : List Call) {p q : P}, calls.foldlM step p = some q →
      total q ≤ total p + (calls.map callCost).sum
  | [], p, q, h => by
    obtain rfl := Option.some.inj h
    exact Nat.le_refl _
  | c :: calls, p, q, h => by
    rw [List.foldlM_cons] at h
    obtain ⟨m, hm, h⟩ := Option.bind_eq_some_iff.1 h
    have hfirst := hstep hm
    have hrest := foldlM_cost hstep calls h
    rw [List.map_cons, List.sum_cons]
    omega

end Slots

/-- What a slot costs. -/
def SegmentSlot.cost (slot : SegmentSlot) : Nat := slot.fields.cost

/-- What a slot costs. -/
def ElementSlot.cost (slot : ElementSlot) : Nat := slot.fields.cost

/-- A string that is written costs no more than the call for it. -/
theorem Fields.cost_update_le_call {basepath : Bytes} (hbase : '@'.toUInt8 ∉ basepath)
    (fields : Fields) (f : TextField) (s : Bytes) :
    Fields.cost (Function.update fields f (.text s))
      ≤ fields.cost + callCost (.data (basepath ++ f.path) s) := by
  refine (fields.cost_update_le f s).trans (Nat.add_le_add_left ?_ _)
  split_ifs with hf
  · have hpath : unescapedPath (basepath ++ f.path) = true := by
      have hat : '@'.toUInt8 ∉ f.path := by
        rcases hf with rfl | rfl <;> decide
      refine decide_eq_true ⟨fun hmem => (List.mem_append.1 hmem).elim hbase hat, ?_⟩
      rcases hf with rfl | rfl
      · exact Or.inl (List.suffix_append _ _)
      · exact Or.inr (List.suffix_append _ _)
    rw [callCost, if_pos hpath]
  · exact Nat.zero_le _

/-- A call of a handler of segments. -/
theorem SegmentsParseHelper.call_cost {basepath : Bytes}
    (hbase : '@'.toUInt8 ∉ basepath) {self next : SegmentsParseHelper} {c : Call}
    (h : self.call basepath c = some next) :
    (next.segs.map SegmentSlot.cost).sum
      ≤ (self.segs.map SegmentSlot.cost).sum + callCost c := by
  have hchild : ∀ {self next : SegmentsParseHelper} {f : Field},
      self.storeChild f = some next →
      (next.segs.map SegmentSlot.cost).sum
        ≤ (self.segs.map SegmentSlot.cost).sum := by
    intro self next f hstore
    obtain ⟨segs, hsegs, rfl⟩ := Option.map_eq_some_iff.1 hstore
    exact @writeSlot_cost _ SegmentSlot.cost _ _ _ 0 _ hsegs fun _ => Nat.le_refl _
  cases c with
  | start xpath =>
    obtain rfl := Option.some.inj h
    unfold tstart
    split_ifs
    · exact Nat.le_of_eq (@growBlock_cost _ SegmentSlot.cost _ _ _ _ rfl rfl _)
    · exact Nat.le_add_right _ _
  | stop xpath =>
    rw [call, tend] at h
    split_ifs at h
    · obtain rfl := Option.some.inj h
      exact Nat.le_add_right _ _
    · obtain ⟨stored, hstored, rfl⟩ := Option.map_eq_some_iff.1 h
      exact (hchild hstored).trans (Nat.le_add_right _ _)
    · obtain rfl := Option.some.inj h
      exact Nat.le_add_right _ _
  | data xpath s =>
    rw [call, cdata] at h
    split at h
    · obtain rfl := Option.some.inj h
      exact Nat.le_add_right _ _
    · rename_i p hp
      split at h
      · rename_i f hf
        obtain ⟨segs, hsegs, rfl⟩ := Option.map_eq_some_iff.1 h
        have hpath : xpath = basepath ++ f.path := by
          unfold behindPath at hp
          split_ifs at hp with hprefix
          obtain ⟨rest, rfl⟩ := hprefix
          rw [List.drop_left] at hp
          have hfound : f.path = p := by simpa using List.find?_some hf
          rw [Option.some.inj hp, hfound]
        rw [hpath]
        exact writeSlot_cost hsegs fun slot =>
          slot.fields.cost_update_le_call hbase f s
      · split_ifs at h
        · exact (hchild h).trans (Nat.le_add_right _ _)
        · obtain rfl := Option.some.inj h
          exact Nat.le_add_right _ _

/-- A call of a handler of elements. -/
theorem ElementsParseHelper.call_cost {self next : ElementsParseHelper} {c : Call}
    (h : self.call c = some next) :
    (next.elems.map ElementSlot.cost).sum
      ≤ (self.elems.map ElementSlot.cost).sum + callCost c := by
  have hbase : '@'.toUInt8 ∉ elementsPath := by decide
  cases c with
  | start xpath =>
    obtain rfl := Option.some.inj h
    unfold tstart
    split_ifs
    · exact Nat.le_of_eq (@growBlock_cost _ ElementSlot.cost _ _ _ _ rfl rfl _)
    · exact Nat.le_add_right _ _
  | stop xpath =>
    obtain rfl := Option.some.inj h
    unfold tend
    split_ifs
    · exact Nat.le_add_right _ _
    · exact Nat.le_add_right _ _
  | data xpath s =>
    rw [call, cdata] at h
    split at h
    · rename_i f hf
      obtain ⟨elems, helems, rfl⟩ := Option.map_eq_some_iff.1 h
      have hfound : elementsPath ++ f.path = xpath := by
        simpa using List.find?_some hf
      rw [← hfound]
      exact writeSlot_cost helems fun slot =>
        slot.fields.cost_update_le_call hbase f s
    · split_ifs at h
      · obtain ⟨elems, helems, rfl⟩ := Option.map_eq_some_iff.1 h
        exact (@writeSlot_cost _ ElementSlot.cost _ _ _ 0 _ helems
          fun _ => Nat.le_refl _).trans (Nat.le_add_right _ _)
      · obtain rfl := Option.some.inj h
        exact Nat.le_add_right _ _

theorem sum_map_take_le {α : Type*} (cost : α → Nat) (l : List α) (n : Nat) :
    ((l.take n).map cost).sum ≤ (l.map cost).sum := by
  conv_rhs => rw [← List.take_append_drop n l, List.map_append, List.sum_append]
  exact Nat.le_add_right _ _

/-- What is loaded costs no more than what was read. -/
theorem loadSegments_cost {basepath : Bytes} (hbase : '@'.toUInt8 ∉ basepath)
    {events : List XmlEvent} {table : List SegmentSlot}
    (h : loadSegments basepath events = some table) :
    (table.map SegmentSlot.cost).sum ≤ rawCost isUnescaped false events := by
  obtain ⟨calls, hcalls, h⟩ := Option.bind_eq_some_iff.1 h
  obtain ⟨last, hlast, rfl⟩ := Option.map_eq_some_iff.1 h
  have hread := @handlerCalls_cost _ _ _ false hcalls fun hfree =>
    absurd hfree Bool.false_ne_true
  have hstored : (last.segs.map SegmentSlot.cost).sum
      ≤ 0 + (calls.map callCost).sum :=
    foldlM_cost (SegmentsParseHelper.call_cost hbase) calls hlast
  have htake := sum_map_take_le SegmentSlot.cost last.segs last.index
  rw [List.map_map]
  exact htake.trans (by omega)

/-- What is loaded costs no more than what was read. -/
theorem loadElements_cost {events : List XmlEvent} {table : List ElementSlot}
    (h : loadElements events = some table) :
    (table.map ElementSlot.cost).sum ≤ rawCost isUnescaped false events := by
  obtain ⟨calls, hcalls, h⟩ := Option.bind_eq_some_iff.1 h
  obtain ⟨last, hlast, rfl⟩ := Option.map_eq_some_iff.1 h
  have hread := @handlerCalls_cost _ _ _ false hcalls fun hfree =>
    absurd hfree Bool.false_ne_true
  have hstored : (last.elems.map ElementSlot.cost).sum
      ≤ 0 + (calls.map callCost).sum :=
    foldlM_cost ElementsParseHelper.call_cost calls hlast
  have htake := sum_map_take_le ElementSlot.cost last.elems last.index
  exact htake.trans (by omega)

/-! ## What is printed -/

theorem spelled_specEscapeXml (text : Bytes) : Spelled (specEscapeXml text) := by
  rw [specEscapeXml_eq]
  refine spelled_escaped (fun c _ => standsFor_specEscapeXml c) fun hmem => ?_
  obtain ⟨c, -, hmem⟩ := List.mem_flatMap.1 hmem
  by_cases hamp : c = '&'.toUInt8
  · rw [hamp] at hmem
    exact absurd hmem (by decide)
  by_cases hlt : c = '<'.toUInt8
  · rw [hlt] at hmem
    exact absurd hmem (by decide)
  by_cases hgt : c = '>'.toUInt8
  · rw [hgt] at hmem
    exact absurd hmem (by decide)
  by_cases hquote : c = '"'.toUInt8
  · rw [hquote] at hmem
    exact absurd hmem (by decide)
  · rw [specEscapeXml_plain hamp hlt hgt hquote] at hmem
    exact hgt (List.mem_singleton.1 hmem).symm

theorem not_mem_of_words {text : Bytes} (h : ∀ c ∈ text, isWord c = true) :
    '>'.toUInt8 ∉ text :=
  fun hmem => (isWord_not_markup (h _ hmem)).2.2.2.1 rfl

theorem spelled_words {text : Bytes} (h : ∀ c ∈ text, isWord c = true) :
    Spelled text :=
  spelled_chars (isText_of_words h).noMarkup (not_mem_of_words h)

section Printed

variable {keys : List (Bytes × Bytes) → List (Bytes × Bytes)}
  (hkeys : KeysOrder keys)

include hkeys

theorem mkElement_leaf (n x : Bytes) :
    mkElement keys n [] [x] = startTag n [] ++ x ++ endTag n := by
  rw [mkElement_eq, if_neg (List.cons_ne_nil _ _), keys_nil hkeys,
    List.flatten_singleton]

theorem mkElement_value (n : Bytes) (a : Bytes × Bytes) {bodies : List Bytes}
    (h : bodies ≠ []) :
    mkElement keys n [a] bodies = startTag n [a] ++ bodies.flatten ++ endTag n := by
  rw [mkElement_eq, if_neg h, keys_singleton hkeys]

/-- An element with a text that is escaped, or needs no escape. -/
theorem still_leaf {n text : Bytes} (hn : IsName n) (hraw : isUnescaped n = false)
    (hstart : shut true (startTag n []) = true) (hend : shut true (endTag n) = true)
    (h : Spelled text) : Still isUnescaped (mkElement keys n [] [text]) := by
  rw [mkElement_leaf hkeys]
  exact .leaf hn hraw hstart hend h

/-- The children of an entry. -/
theorem still_children (ks : List Key) :
    Still isUnescaped (mkElement keys (ascii "children") []
      (ks.map fun c => mkElement keys (ascii "child") [] [c.bytes])) := by
  have hchild : ∀ c ∈ ks, Still isUnescaped
      (mkElement keys (ascii "child") [] [c.bytes]) := fun c _ =>
    still_leaf hkeys (by decide) (by decide) (by decide) (by decide)
      (spelled_words c.words)
  rw [mkElement_eq, keys_nil hkeys]
  split_ifs
  · exact .emptyTag (by decide) printable_nil (by decide)
  · rw [← List.flatMap_def]
    exact ((Still.startTag (by decide) printable_nil (by decide)).append
      (.flatMap hchild)).append (.endTag (by decide) (by decide))

/-- What is in front of the function of an entry. -/
def beforeFunction (keys : List (Bytes × Bytes) → List (Bytes × Bytes)) (n : Name)
    (k : Key) (title : Bytes) : Bytes :=
  startTag n.bytes [(codeName.bytes, k.bytes)] ++
    (mkElement keys (ascii "title1") [] [specEscapeXml title] ++
      (mkElement keys (ascii "title2") [] [makeTitle2 title] ++
        startTag functionName.bytes []))

theorem still_beforeFunction {n : Name} (hn : IsName n.bytes) (k : Key)
    (title : Bytes) : Still isUnescaped (beforeFunction keys n k title) :=
  (Still.startTag_value hn (printable_code k) (not_mem_of_words k.words)).append
    ((still_leaf hkeys (by decide) (by decide) (by decide) (by decide)
      (spelled_specEscapeXml title)).append
      ((still_leaf hkeys (by decide) (by decide) (by decide) (by decide)
        (spelled_words (makeTitle2_words title))).append
        (.startTag (by decide) printable_nil (by decide))))

/-- The line of a segment or composite. -/
def segmentLine (p : NamePart) (e : Key × SpecSegment) : Line isUnescaped where
  before := beforeFunction keys p.name e.1 e.2.title.bytes
  inside := e.2.function.bytes
  behind := endTag functionName.bytes ++
    (mkElement keys (ascii "children") []
      (e.2.elements.map fun c => mkElement keys (ascii "child") [] [c.bytes]) ++
      (endTag p.name.bytes ++ ['\n'.toUInt8]))
  cost := weight e.2.function.bytes
  before_still := still_beforeFunction hkeys (by cases p <;> decide) _ _
  inside_costs := costs_text _
  behind_still := (Still.endTag (by decide) (by decide)).append
    ((still_children hkeys _).append ((Still.endTag (by cases p <;> decide)
      (by cases p <;> decide)).append still_newline))
  behind_tag := rfl
  behind_line := by simp

theorem segmentLine_text (p : NamePart) (e : Key × SpecSegment) :
    (segmentLine hkeys p e).text = xmlSegment keys p.name.bytes e ++ ascii "\n" := by
  have hcode : ascii "code" = codeName.bytes := rfl
  have hfunction : ascii "function" = functionName.bytes := rfl
  unfold xmlSegment
  dsimp only
  rw [hcode, mkElement_value hkeys _ _ (List.cons_ne_nil _ _), hfunction,
    mkElement_leaf hkeys functionName.bytes]
  simp [Line.text, segmentLine, beforeFunction, ascii]

/-- The line of an element. -/
def elementLine (codes : CodedMap) (e : Key × SpecElement) : Line isUnescaped where
  before := beforeFunction keys elementName e.1 e.2.title.bytes
  inside := e.2.function.bytes ++
    ((endTag functionName.bytes ++ startTag formatName.bytes []) ++ e.2.format)
  behind := endTag formatName.bytes ++
    (mkElement keys (ascii "is_coded") []
      [if codes.has e.1 then ascii "1" else ascii "0"] ++
      (endTag elementName.bytes ++ ['\n'.toUInt8]))
  cost := weight e.2.function.bytes + (0 + weight e.2.format)
  before_still := still_beforeFunction hkeys (by decide) _ _
  inside_costs := by
    have hbetween : Still isUnescaped
        (endTag functionName.bytes ++ startTag formatName.bytes []) :=
      (Still.endTag (by decide) (by decide)).append
        (.startTag (by decide) printable_nil (by decide))
    exact (costs_text _).append ((hbetween.costs rfl (Or.inl (by decide))).append
      (costs_text _))
  behind_still := by
    have hflag : ∀ c ∈ (if codes.has e.1 then ascii "1" else ascii "0"),
        isWord c = true := by
      split_ifs <;> exact forall_mem_of_all (by decide)
    exact (Still.endTag (by decide) (by decide)).append
      ((still_leaf hkeys (by decide) (by decide) (by decide) (by decide)
        (spelled_words hflag)).append ((Still.endTag (by decide)
          (by decide)).append still_newline))
  behind_tag := rfl
  behind_line := by simp

theorem elementLine_text (codes : CodedMap) (e : Key × SpecElement) :
    (elementLine hkeys codes e).text
      = xmlElement keys (ascii "element") codes e ++ ascii "\n" := by
  have hname : ascii "element" = elementName.bytes := rfl
  have hcode : ascii "code" = codeName.bytes := rfl
  have hfunction : ascii "function" = functionName.bytes := rfl
  have hformat : ascii "format" = formatName.bytes := rfl
  unfold xmlElement
  dsimp only
  rw [hname, hcode, mkElement_value hkeys _ _ (List.cons_ne_nil _ _), hfunction,
    mkElement_leaf hkeys functionName.bytes, hformat,
    mkElement_leaf hkeys formatName.bytes]
  simp [Line.text, elementLine, beforeFunction, ascii]

/-- A file that is read costs no more than its lines. -/
theorem read_table_cost {ι : Type*} {n : Name} (hn : IsName n.bytes)
    (hend : shut true (endTag n.bytes) = true) {l : List ι} (hl : l ≠ [])
    {text : ι → Bytes} {line : ι → Line isUnescaped}
    (htext : ∀ i, (line i).text = text i ++ ascii "\n") {events : List XmlEvent}
    (h : read (mkElement keys n.bytes [(ascii "count", decimal l.length)]
      (l.map fun i => text i ++ ascii "\n")) = some events) :
    rawCost isUnescaped false events ≤ (l.map fun i => (line i).cost).sum := by
  have hcount : ascii "count" = countName.bytes := rfl
  have hlines : (l.map fun i => text i ++ ascii "\n").flatten
      = (l.map line).flatMap Line.text := by
    simp only [List.flatMap_map, htext, ← List.flatMap_def]
  rw [hcount, mkElement_value hkeys _ _ (mt List.map_eq_nil_iff.1 hl), hlines,
    List.append_assoc] at h
  have hcost := read_lines (Still.startTag_value hn (printable_count l.length)
    (not_mem_of_words (decimal_words l.length))) (.endTag hn hend) h
  rwa [List.map_map] at hcost

end Printed

/-! ## Agreement -/

theorem textCost_eq_of_printed {s : Bytes} (h : Printed s) :
    textCost s = weight s + if IsText s then 0 else 1 :=
  if_neg fun hmem => absurd (h _ hmem) (by decide)

theorem isText_of_textCost_le {s : Bytes} (h : Printed s)
    (hle : textCost s ≤ weight s) : IsText s := by
  rw [textCost_eq_of_printed h] at hle
  by_contra hnot
  rw [if_neg hnot] at hle
  omega

/-- If a sum is not above one whose terms are not above its own, no term is above
the other one. -/
theorem le_of_sum_map_le {ι : Type*} {f g : ι → Nat} {l : List ι}
    (hle : ∀ i ∈ l, f i ≤ g i) (h : (l.map g).sum ≤ (l.map f).sum) :
    ∀ i ∈ l, g i ≤ f i := by
  induction l with
  | nil => exact List.forall_mem_nil _
  | cons i l ih =>
    rw [List.forall_mem_cons] at hle ⊢
    rw [List.map_cons, List.map_cons, List.sum_cons, List.sum_cons] at h
    have hrest : (l.map f).sum ≤ (l.map g).sum := List.sum_le_sum hle.2
    exact ⟨by omega, ih hle.2 (by omega)⟩

/-- The entries of a table cost no more than its slots. -/
theorem sum_map_le_of_entries {α β ι : Type*} {entry : α → Option β} {spec : ι → β}
    {f : ι → Nat} {g : α → Nat} (hle : ∀ a i, entry a = some (spec i) → f i ≤ g a)
    {table : List α} {l : List ι}
    (h : table.map entry = (l.map spec).map some) :
    (l.map f).sum ≤ (table.map g).sum := by
  induction l generalizing table with
  | nil => exact Nat.zero_le _
  | cons i l ih =>
    cases table with
    | nil => cases h
    | cons a table =>
      rw [List.map_cons, List.map_cons, List.map_cons] at h
      obtain ⟨ha, hrest⟩ := List.cons.inj h
      exact Nat.add_le_add (hle a i ha) (ih hrest)

theorem Field.eq_text_of_string {f : Field} {s : Bytes} (h : f.string = some s) :
    f = .text s := by
  cases f with
  | stale | null => cases h
  | text x => rw [Option.some.inj h]

theorem SegmentSlot.textCost_le_cost {slot : SegmentSlot} {e : Key × SpecSegment}
    (h : slot.entry = some (specSegment e)) :
    textCost e.2.function.bytes ≤ slot.cost := by
  obtain ⟨name, -, h⟩ := Option.bind_eq_some_iff.1 h
  obtain ⟨title, -, h⟩ := Option.bind_eq_some_iff.1 h
  obtain ⟨title2, -, h⟩ := Option.bind_eq_some_iff.1 h
  obtain ⟨function, hfunction, h⟩ := Option.bind_eq_some_iff.1 h
  obtain ⟨children, -, h⟩ := Option.map_eq_some_iff.1 h
  have heq : function = e.2.function.bytes := congrArg EdistructSegment.function h
  rw [SegmentSlot.cost, Fields.cost, Field.eq_text_of_string hfunction, heq]
  exact Nat.le_add_right _ _

theorem ElementSlot.textCost_le_cost {codes : CodedMap} {slot : ElementSlot}
    {e : Key × SpecElement} (h : slot.entry = some (specElement codes e)) :
    textCost e.2.function.bytes + textCost e.2.format ≤ slot.cost := by
  obtain ⟨name, -, h⟩ := Option.bind_eq_some_iff.1 h
  obtain ⟨title, -, h⟩ := Option.bind_eq_some_iff.1 h
  obtain ⟨title2, -, h⟩ := Option.bind_eq_some_iff.1 h
  obtain ⟨function, hfunction, h⟩ := Option.bind_eq_some_iff.1 h
  obtain ⟨format, hformat, h⟩ := Option.bind_eq_some_iff.1 h
  obtain ⟨isCoded, -, h⟩ := Option.map_eq_some_iff.1 h
  have hfeq : function = e.2.function.bytes := congrArg EdistructElement.function h
  have heq : format = e.2.format := congrArg EdistructElement.format h
  rw [ElementSlot.cost, Fields.cost, Field.eq_text_of_string hfunction,
    Field.eq_text_of_string hformat, hfeq, heq]
  exact Nat.le_refl _

section Loaded

variable {keys : List (Bytes × Bytes) → List (Bytes × Bytes)}
  (hkeys : KeysOrder keys)

include hkeys

/-- If segments or composites are loaded as they were, their functions are texts. -/
theorem isText_of_loadSegments (p : NamePart) {s : Hash SpecSegment}
    {events : List XmlEvent} {table : List SegmentSlot}
    (hread : read (makeXmlDefsSegments keys s p.name.bytes) = some events)
    (hload : loadSegments p.path events = some table)
    (hentries : table.map SegmentSlot.entry = (s.sorted.map specSegment).map some) :
    ∀ e ∈ s.sorted, IsText e.2.function.bytes := by
  intro e he
  have hbase : '@'.toUInt8 ∉ p.path := by cases p <;> decide
  have hstored := loadSegments_cost hbase hload
  have hloaded := sum_map_le_of_entries
    (fun _ _ => SegmentSlot.textCost_le_cost) hentries
  unfold makeXmlDefsSegments at hread
  dsimp only at hread
  rw [List.length_map, ← p.tableName_bytes] at hread
  have hprinted := read_table_cost hkeys (by cases p <;> decide)
    (by cases p <;> decide) (List.ne_nil_of_mem he) (segmentLine_text hkeys p) hread
  refine isText_of_textCost_le e.2.function.printed (le_of_sum_map_le (l := s.sorted)
    (f := fun e => weight e.2.function.bytes)
    (g := fun e => textCost e.2.function.bytes) ?_
    (hloaded.trans (hstored.trans hprinted)) e he)
  intro e he
  rw [textCost_eq_of_printed e.2.function.printed]
  exact Nat.le_add_right _ _

/-- If elements are loaded as they were, their functions and formats are texts. -/
theorem isText_of_loadElements (codes : CodedMap) {s : Hash SpecElement}
    {events : List XmlEvent} {table : List ElementSlot}
    (hread : read (makeXmlDefsElements keys s (ascii "element") codes) = some events)
    (hload : loadElements events = some table)
    (hentries : table.map ElementSlot.entry
      = (s.sorted.map (specElement codes)).map some) :
    ∀ e ∈ s.sorted, IsText e.2.function.bytes ∧ IsText e.2.format := by
  have hcost : ∀ e : Key × SpecElement,
      weight e.2.function.bytes ≤ textCost e.2.function.bytes ∧
        weight e.2.format ≤ textCost e.2.format := by
    intro e
    rw [textCost_eq_of_printed e.2.function.printed, textCost_eq_of_printed e.2.printed]
    exact ⟨Nat.le_add_right _ _, Nat.le_add_right _ _⟩
  intro e he
  have hstored := loadElements_cost hload
  have hloaded := sum_map_le_of_entries
    (fun _ _ => ElementSlot.textCost_le_cost) hentries
  have hname : ascii "element" ++ ascii "s" = elementsName.bytes := rfl
  unfold makeXmlDefsElements at hread
  dsimp only at hread
  rw [List.length_map, hname] at hread
  have hprinted := read_table_cost hkeys (by decide) (by decide)
    (List.ne_nil_of_mem he) (elementLine_text hkeys codes) hread
  have hle := le_of_sum_map_le (l := s.sorted)
    (f := fun e => weight e.2.function.bytes + (0 + weight e.2.format))
    (g := fun e => textCost e.2.function.bytes + textCost e.2.format)
    (fun e _ => by have := hcost e; omega) (hloaded.trans (hstored.trans hprinted))
    e he
  obtain ⟨hfunction, hformat⟩ := hcost e
  exact ⟨isText_of_textCost_le e.2.function.printed (by omega),
    isText_of_textCost_le e.2.printed (by omega)⟩

end Loaded

end Libedi
