import Libedi.StringPool
import Libedi.Rebuild

/-!
# Building an interchange by hand

`edi_segment_create`, `edi_element_create` and `edi_element_add` of
`libedi/build.c`, with the memory that they work on.

* The strings lie in the pools of the interchange.
* The segments lie in one array, which `realloc` may move to another address
  each time a segment is added.
* Each element points back at its segment.  This pointer is not adjusted when
  the array moves, so it may lead to where the array was before.

`givenSegments` is what a caller asks for.  What is there afterwards has the
same shape, but the strings are allocated and never copied, so every one of them
reads as the empty string (`ediCalls_view`).  `ediCalls_stores_iff` says for
which calls the two are the same.
-/

namespace Libedi

open BoundedOutput

/-! ## The memory -/

/-- An `edi_segment_t *`: an entry of the array of segments that was at the
address `base`. -/
structure SegmentPtr where
  base : Nat
  index : Nat
  deriving DecidableEq, Repr

/-- The data of an `edi_element_t`, by its type.  An element without a type has
other fields as well, which `memset(elp, 0, sizeof(elp))` leaves as they are.
`BuilderFields` is about who reads them. -/
inductive ElementData where
  | untyped
  | simple (value : StringPtr) (valuelen : Nat)
  | composite (values : List (StringPtr × Nat))
  deriving DecidableEq, Repr

/-- `edi_element_t`. -/
structure HeapElement where
  segment : SegmentPtr
  data : ElementData
  deriving DecidableEq, Repr

/-- `edi_segment_t`.  Its `interchange` is the one that it is in. -/
structure HeapSegment where
  elements : List HeapElement
  tag : Option StringPtr
  deriving DecidableEq, Repr

/-- `edi_interchange_t`, with the address of its array of segments. -/
structure HeapInterchange where
  base : Nat
  segments : List HeapSegment
  pools : List Pool
  deriving DecidableEq, Repr

/-- `edi_interchange_create`. -/
def ediInterchangeCreate : HeapInterchange := ⟨0, [], []⟩

/-- The data of an element behind `edi_element_add`. -/
def ElementData.add (d : ElementData) (value : StringPtr) (valuelen : Nat) :
    ElementData :=
  match d with
  | .untyped => .simple value valuelen
  | .simple v vl => .composite [(v, vl), (value, valuelen)]
  | .composite vs => .composite (vs ++ [(value, valuelen)])

/-- `seg->tag = value` for the segment `k`. -/
def HeapInterchange.setTag (i : HeapInterchange) (k : Nat) (value : StringPtr) :
    HeapInterchange :=
  { i with segments := i.segments.modify k fun s => { s with tag := some value } }

/-- `edi_element_add` for the element `j` of the segment `k`.  It is `none` if
there is no such element, and if the pointer back to the segment leads to an
array that is not there any more. -/
def ediElementAdd (i : HeapInterchange) (k j : Nat) (value : Bytes) :
    Option HeapInterchange := do
  let seg ← i.segments[k]?
  let el ← seg.elements[j]?
  if el.segment.base = i.base then
    let r := ediStringpoolAlloc i.pools value.length
    let i := { i with
      pools := r.1
      segments := i.segments.modify k fun s => { s with
        elements := s.elements.modify j fun e =>
          { e with data := e.data.add r.2 value.length } } }
    -- `elp->simple.segment->elements == elp`
    if el.data = .untyped ∧ el.segment.index = k ∧ j = 0 then
      return i.setTag k r.2
    else return i
  else none

/-- `edi_element_create` for the segment `k`. -/
def ediElementCreate (i : HeapInterchange) (k : Nat) (value : Option Bytes) :
    Option HeapInterchange := do
  let seg ← i.segments[k]?
  let j := seg.elements.length
  let i := { i with
    segments := i.segments.modify k fun s => { s with
      elements := s.elements ++ [⟨⟨i.base, k⟩, .untyped⟩] } }
  match value with
  | none => return i
  | some value =>
    let i ← ediElementAdd i k j value
    let seg ← i.segments[k]?
    match j, seg.elements[j]?.map HeapElement.data with
    | 0, some (.simple v _) => return i.setTag k v
    | _, _ => return i

/-- `edi_segment_create`.  `base` is the address that `realloc` returns. -/
def ediSegmentCreate (i : HeapInterchange) (base : Nat) (tag : Option Bytes) :
    Option HeapInterchange :=
  let i := { i with base := base, segments := i.segments ++ [⟨[], none⟩] }
  match tag with
  | none => some i
  | some tag => ediElementCreate i (i.segments.length - 1) (some tag)

/-! ## Runs of calls -/

/-- A call of the building functions.  A segment and an element are given by
their indices, `realloc` returns `base`. -/
inductive BuildCall where
  | segmentCreate (base : Nat) (tag : Bytes)
  | elementCreate (k : Nat) (value : Bytes)
  | elementAdd (k j : Nat) (value : Bytes)
  deriving DecidableEq, Repr

/-- The string that is passed in. -/
def BuildCall.given : BuildCall → Bytes
  | segmentCreate _ tag => tag
  | elementCreate _ value => value
  | elementAdd _ _ value => value

/-- A call. -/
def ediCall (i : HeapInterchange) : BuildCall → Option HeapInterchange
  | .segmentCreate base tag => ediSegmentCreate i base (some tag)
  | .elementCreate k value => ediElementCreate i k (some value)
  | .elementAdd k j value => ediElementAdd i k j value

/-- A run of calls, `none` if one of them goes astray. -/
def ediCalls (i : HeapInterchange) (calls : List BuildCall) :
    Option HeapInterchange :=
  calls.foldlM ediCall i

/-! ## What is there, and what was given -/

/-- What a reader finds in an element. -/
def ElementData.view (pools : List Pool) : ElementData → EdiElement
  | .untyped => .untyped
  | .simple v vl => .simple ⟨readString pools v, vl⟩
  | .composite vs => .composite (vs.map fun v => ⟨readString pools v.1, v.2⟩)

/-- What a reader finds in a segment. -/
def HeapSegment.view (pools : List Pool) (s : HeapSegment) : EdiSegment where
  elements := s.elements.map (·.data.view pools)
  tag := s.tag.map (readString pools)
  offset := 0

/-- What a reader finds in an interchange. -/
def HeapInterchange.view (i : HeapInterchange) : EdiInterchange :=
  ⟨i.segments.map (·.view i.pools)⟩

/-- One more value of an element. -/
def EdiElement.add (e : EdiElement) (v : EdiValue) : EdiElement :=
  match e with
  | .untyped => .simple v
  | .simple w => .composite [w, v]
  | .composite vs => .composite (vs ++ [v])

/-- A call on segments that are given by their values.  `val` is the value that
a string is stored as. -/
def segmentsCall (val : Bytes → EdiValue) (ss : List EdiSegment) :
    BuildCall → Option (List EdiSegment)
  | .segmentCreate _ tag =>
    some (ss ++ [⟨[.simple (val tag)], some (val tag).value, 0⟩])
  | .elementCreate k value =>
    if k < ss.length then
      some (ss.modify k fun s =>
        { s with elements := s.elements ++ [.simple (val value)] })
    else none
  | .elementAdd k j value => do
    let s ← ss[k]?
    if j < s.elements.length then
      return ss.modify k fun s =>
        { s with elements := s.elements.modify j (·.add (val value)) }
    else none

/-- The segments that a caller asks for, `none` if a call is for a segment or an
element that is not there. -/
def givenSegments (calls : List BuildCall) : Option (List EdiSegment) :=
  calls.foldlM (segmentsCall .ofBytes) []

/-- The address of the array of segments, and the addresses that it had when the
elements were created, segment by segment. -/
structure Births where
  base : Nat
  born : List (List Nat)
  deriving DecidableEq, Repr

/-- The addresses behind a call.  A value may only be added to an element if the
array of segments is where it was when the element was created. -/
def Births.call (b : Births) : BuildCall → Option Births
  | .segmentCreate base _ => some ⟨base, b.born ++ [[base]]⟩
  | .elementCreate k _ =>
    if k < b.born.length then
      some { b with born := b.born.modify k (· ++ [b.base]) }
    else none
  | .elementAdd k j _ => do
    let born ← b.born[k]?
    let base ← born[j]?
    if base = b.base then return b else none

/-- Values are only added to elements whose array of segments has not been moved
since they were created. -/
def NotMoved (calls : List BuildCall) : Prop :=
  (calls.foldlM Births.call ⟨0, []⟩).isSome = true

/-! ## One entry of a list -/

theorem modify_eq_set_of_getElem? {α : Type*} {l : List α} {k : Nat} {a : α}
    (h : l[k]? = some a) (f : α → α) : l.modify k f = l.set k (f a) := by
  obtain ⟨hk, rfl⟩ := List.getElem?_eq_some_iff.1 h
  rw [List.modify_eq_take_cons_drop hk, List.set_eq_take_append_cons_drop,
    if_pos hk]

theorem set_of_getElem? {α : Type*} {l : List α} {k : Nat} {a : α}
    (h : l[k]? = some a) : l.set k a = l := by
  obtain ⟨hk, rfl⟩ := List.getElem?_eq_some_iff.1 h
  exact List.set_getElem_self hk

/-- A condition on all entries, of which one is replaced. -/
theorem forall_mem_set_iff {α : Type*} {l : List α} {k : Nat} {a b : α}
    (h : l[k]? = some a) {Q : α → Prop} {R : Prop} (hQ : Q b ↔ Q a ∧ R) :
    (∀ x ∈ l.set k b, Q x) ↔ (∀ x ∈ l, Q x) ∧ R := by
  induction l generalizing k with
  | nil => simp at h
  | cons x l ih =>
    cases k with
    | zero =>
      obtain rfl : x = a := by simpa using h
      rw [List.set_cons_zero, List.forall_mem_cons, List.forall_mem_cons, hQ]
      exact and_right_comm
    | succ k =>
      have hl := ih (k := k) (by simpa using h)
      rw [List.set_cons_succ, List.forall_mem_cons, List.forall_mem_cons, hl,
        and_assoc]

/-! ## The calls, one by one -/

section Calls

variable {i : HeapInterchange} {k : Nat} {s : HeapSegment}

theorem setTag_eq (hs : i.segments[k]? = some s) (q : StringPtr) :
    i.setTag k q
      = { i with segments := i.segments.set k { s with tag := some q } } := by
  unfold HeapInterchange.setTag
  rw [modify_eq_set_of_getElem? hs]

/-- A value that is added to an element: it is the tag, if it is the first one of the
first element. -/
theorem ediElementAdd_some (hs : i.segments[k]? = some s) {j : Nat}
    {el : HeapElement} (hel : s.elements[j]? = some el)
    (hbase : el.segment.base = i.base) (value : Bytes) :
    ediElementAdd i k j value = some
      { i with
        pools := (ediStringpoolAlloc i.pools value.length).1
        segments := i.segments.set k {
          elements := s.elements.set j { el with
            data := el.data.add (ediStringpoolAlloc i.pools value.length).2
              value.length }
          tag := if el.data = .untyped ∧ el.segment.index = k ∧ j = 0 then
              some (ediStringpoolAlloc i.pools value.length).2
            else s.tag } } := by
  obtain ⟨hk, -⟩ := List.getElem?_eq_some_iff.1 hs
  unfold ediElementAdd
  simp only [hs, hel, Option.bind_eq_bind, Option.bind_some, hbase, if_true,
    modify_eq_set_of_getElem? hs, modify_eq_set_of_getElem? hel]
  by_cases htag : el.data = .untyped ∧ el.segment.index = k ∧ j = 0
  · rw [if_pos htag, if_pos htag, setTag_eq (List.getElem?_set_self hk),
      List.set_set]
    rfl
  · rw [if_neg htag, if_neg htag]
    rfl

/-- A value that is added to an element with a type. -/
theorem ediElementAdd_eq (hs : i.segments[k]? = some s) {j : Nat}
    {el : HeapElement} (hel : s.elements[j]? = some el)
    (hbase : el.segment.base = i.base) (htyped : el.data ≠ .untyped)
    (value : Bytes) :
    ediElementAdd i k j value = some
      { i with
        pools := (ediStringpoolAlloc i.pools value.length).1
        segments := i.segments.set k { s with
          elements := s.elements.set j { el with
            data := el.data.add (ediStringpoolAlloc i.pools value.length).2
              value.length } } } := by
  rw [ediElementAdd_some hs hel hbase]
  simp only [htyped, false_and, if_false]

/-- A dangling pointer back to the segment. -/
theorem ediElementAdd_eq_none (hs : i.segments[k]? = some s) {j : Nat}
    {el : HeapElement} (hel : s.elements[j]? = some el)
    (hbase : el.segment.base ≠ i.base) (value : Bytes) :
    ediElementAdd i k j value = none := by
  unfold ediElementAdd
  simp only [hs, hel, Option.bind_eq_bind, Option.bind_some, hbase, if_false]

/-- The first value of an element, which is the tag in the first element. -/
theorem ediElementAdd_untyped (hs : i.segments[k]? = some s) {j : Nat}
    (hel : s.elements[j]? = some ⟨⟨i.base, k⟩, .untyped⟩) (value : Bytes) :
    ediElementAdd i k j value = some
      { i with
        pools := (ediStringpoolAlloc i.pools value.length).1
        segments := i.segments.set k {
          elements := s.elements.set j ⟨⟨i.base, k⟩, .simple
            (ediStringpoolAlloc i.pools value.length).2 value.length⟩
          tag := if j = 0 then
              some (ediStringpoolAlloc i.pools value.length).2
            else s.tag } } := by
  rw [ediElementAdd_some hs hel rfl]
  simp only [true_and]
  rfl

/-- A new element, and the tag if it is the first one. -/
theorem ediElementCreate_eq (hs : i.segments[k]? = some s) (value : Bytes) :
    ediElementCreate i k (some value) = some
      { i with
        pools := (ediStringpoolAlloc i.pools value.length).1
        segments := i.segments.set k {
          elements := s.elements ++ [⟨⟨i.base, k⟩, .simple
            (ediStringpoolAlloc i.pools value.length).2 value.length⟩]
          tag := if s.elements = [] then
              some (ediStringpoolAlloc i.pools value.length).2
            else s.tag } } := by
  obtain ⟨hk, -⟩ := List.getElem?_eq_some_iff.1 hs
  have hs' : (i.segments.set k { s with
      elements := s.elements ++ [⟨⟨i.base, k⟩, .untyped⟩] })[k]?
      = some { s with elements := s.elements ++ [⟨⟨i.base, k⟩, .untyped⟩] } :=
    List.getElem?_set_self hk
  have hadd := ediElementAdd_untyped (i := ⟨i.base, i.segments.set k { s with
      elements := s.elements ++ [⟨⟨i.base, k⟩, .untyped⟩] }, i.pools⟩) hs'
    (j := s.elements.length) (by simp) value
  unfold ediElementCreate
  simp only [hs, Option.bind_eq_bind, Option.bind_some,
    modify_eq_set_of_getElem? hs, hadd, List.set_set,
    List.getElem?_set_self hk]
  cases hels : s.elements with
  | nil =>
    have htag := setTag_eq (i := ⟨i.base, i.segments.set k ⟨[⟨⟨i.base, k⟩,
      .simple (ediStringpoolAlloc i.pools value.length).2 value.length⟩],
      some (ediStringpoolAlloc i.pools value.length).2⟩,
      (ediStringpoolAlloc i.pools value.length).1⟩) (List.getElem?_set_self hk)
      (ediStringpoolAlloc i.pools value.length).2
    simp [htag]
  | cons e es => simp

/-- A new segment with its tag. -/
theorem ediSegmentCreate_eq (i : HeapInterchange) (base : Nat) (tag : Bytes) :
    ediSegmentCreate i base (some tag) = some
      { base := base
        pools := (ediStringpoolAlloc i.pools tag.length).1
        segments := i.segments ++ [⟨[⟨⟨base, i.segments.length⟩, .simple
          (ediStringpoolAlloc i.pools tag.length).2 tag.length⟩],
          some (ediStringpoolAlloc i.pools tag.length).2⟩] } := by
  have hnew : (i.segments ++ [(⟨[], none⟩ : HeapSegment)])[i.segments.length]?
      = some ⟨[], none⟩ := by
    simp
  have hcreate := ediElementCreate_eq
    (i := ⟨base, i.segments ++ [⟨[], none⟩], i.pools⟩) hnew tag
  unfold ediSegmentCreate
  simp only [List.length_append, List.length_singleton, Nat.add_sub_cancel,
    hcreate]
  simp

end Calls

/-! ## What a reader finds -/

/-- Of a value only the length. -/
def EdiValue.erase (v : EdiValue) : EdiValue := ⟨[], v.valuelen⟩

/-- The same element with empty strings in it. -/
def EdiElement.erase : EdiElement → EdiElement
  | .untyped => .untyped
  | .simple v => .simple v.erase
  | .composite vs => .composite (vs.map EdiValue.erase)

/-- The same segment with empty strings in it. -/
def EdiSegment.erase (s : EdiSegment) : EdiSegment where
  elements := s.elements.map EdiElement.erase
  tag := s.tag.map fun _ => []
  offset := s.offset

theorem EdiElement.erase_add (e : EdiElement) (v : EdiValue) :
    (e.add v).erase = e.erase.add v.erase := by
  cases e <;> simp [EdiElement.add, EdiElement.erase]

theorem EdiElement.erase_add_eq_iff (e : EdiElement) (v : EdiValue) :
    (e.add v).erase = e.add v ↔ e.erase = e ∧ v.erase = v := by
  cases e <;> simp [EdiElement.add, EdiElement.erase]

/-- The strings of an element, each with its stored length. -/
def ElementData.strings : ElementData → List (StringPtr × Nat)
  | .untyped => []
  | .simple v vl => [(v, vl)]
  | .composite vs => vs

theorem ElementData.strings_add (d : ElementData) (q : StringPtr) (n : Nat) :
    (d.add q n).strings = d.strings ++ [(q, n)] := by
  cases d <;> rfl

theorem ElementData.add_ne_untyped (d : ElementData) (q : StringPtr) (n : Nat) :
    d.add q n ≠ .untyped := by
  cases d <;> simp [ElementData.add]

theorem ElementData.view_add (pools : List Pool) (d : ElementData)
    (q : StringPtr) (n : Nat) : (d.add q n).view pools
      = (d.view pools).add ⟨readString pools q, n⟩ := by
  cases d <;> simp [ElementData.add, ElementData.view, EdiElement.add]

/-- What the building functions keep true of a segment. -/
structure HeapSegment.Ok (pools : List Pool) (s : HeapSegment) : Prop where
  nonempty : s.elements ≠ []
  typed : ∀ e ∈ s.elements, e.data ≠ .untyped
  allocated : ∀ e ∈ s.elements, ∀ x ∈ e.data.strings,
    Allocated pools x.2 x.1
  tag : ∀ q ∈ s.tag, Allocated pools 0 q

/-- What the building functions keep true of an interchange. -/
structure HeapInterchange.Ok (i : HeapInterchange) : Prop where
  cleared : Cleared i.pools
  segments : ∀ s ∈ i.segments, s.Ok i.pools

theorem HeapSegment.Ok.alloc {pools : List Pool} {s : HeapSegment}
    (h : s.Ok pools) (n : Nat) : s.Ok (ediStringpoolAlloc pools n).1 where
  nonempty := h.nonempty
  typed := h.typed
  allocated := fun e he x hx => (h.allocated e he x hx).alloc n
  tag := fun q hq => (h.tag q hq).alloc n

/-- A segment with one more element. -/
theorem HeapSegment.Ok.append {pools : List Pool} {s : HeapSegment}
    (h : s.Ok pools) {q : StringPtr} {n : Nat} (hq : Allocated pools n q)
    (back : SegmentPtr) :
    HeapSegment.Ok pools
      { s with elements := s.elements ++ [⟨back, .simple q n⟩] } where
  nonempty := by simp
  typed := by simpa [or_imp, forall_and] using h.typed
  allocated := by
    intro e he
    rcases List.mem_append.1 he with he | he
    · exact h.allocated e he
    · obtain rfl := List.mem_singleton.1 he
      simpa [ElementData.strings] using hq
  tag := h.tag

/-- A segment with one more value in one of its elements. -/
theorem HeapSegment.Ok.add {pools : List Pool} {s : HeapSegment}
    (h : s.Ok pools) {q : StringPtr} {n : Nat} (hq : Allocated pools n q)
    {j : Nat} (hj : j < s.elements.length) :
    HeapSegment.Ok pools { s with
      elements := s.elements.set j
        { s.elements[j] with data := s.elements[j].data.add q n } } where
  nonempty := by simpa using h.nonempty
  typed := by
    intro e he
    rcases List.mem_or_eq_of_mem_set he with he | rfl
    · exact h.typed e he
    · exact ElementData.add_ne_untyped _ _ _
  allocated := by
    intro e he x hx
    rcases List.mem_or_eq_of_mem_set he with he | rfl
    · exact h.allocated e he x hx
    · rw [ElementData.strings_add] at hx
      rcases List.mem_append.1 hx with hx | hx
      · exact h.allocated _ (List.getElem_mem hj) x hx
      · obtain rfl := List.mem_singleton.1 hx
        exact hq
  tag := h.tag

theorem HeapInterchange.ok_create : ediInterchangeCreate.Ok where
  cleared := fun _ hp => absurd hp List.not_mem_nil
  segments := fun _ hs => absurd hs List.not_mem_nil

/-- In cleared pools all strings are empty, wherever they are. -/
theorem ElementData.view_of_cleared {pools : List Pool} (h : Cleared pools)
    (d : ElementData) : d.view pools = d.view [] := by
  cases d <;> simp [ElementData.view, h.readString]

theorem HeapSegment.view_of_cleared {pools : List Pool} (h : Cleared pools)
    (s : HeapSegment) : s.view pools = s.view [] := by
  unfold HeapSegment.view
  simp only [fun d => ElementData.view_of_cleared h d, funext h.readString,
    funext readString_nil]

theorem HeapInterchange.Ok.view_segments {i : HeapInterchange} (h : i.Ok) :
    i.view.segments = i.segments.map (·.view []) := by
  unfold HeapInterchange.view
  exact List.map_congr_left fun s _ => s.view_of_cleared h.cleared

/-! ## One call -/

/-- A string of the given length, of which nothing was copied. -/
def blankValue (v : Bytes) : EdiValue := ⟨[], v.length⟩

/-- The addresses of an interchange. -/
def HeapInterchange.births (i : HeapInterchange) : Births :=
  ⟨i.base, i.segments.map fun s => s.elements.map (·.segment.base)⟩

/-- A segment whose elements were created at the same addresses. -/
theorem births_set {i : HeapInterchange} {k : Nat} {s s' : HeapSegment}
    (hs : i.segments[k]? = some s) (h : s'.elements.map (·.segment.base)
      = s.elements.map (·.segment.base)) (pools : List Pool) :
    (HeapInterchange.mk i.base (i.segments.set k s') pools).births
      = i.births := by
  unfold HeapInterchange.births
  rw [List.map_set, h]
  exact congrArg _ (set_of_getElem? (by rw [List.getElem?_map, hs]; rfl))

/-- What a call does: it goes as asked for, but for the strings, or it runs into
a dangling pointer. -/
inductive CallSpec (i : HeapInterchange) (c : BuildCall) (ss : List EdiSegment) :
    Prop where
  | done (i' : HeapInterchange) (hcall : ediCall i c = some i') (hok : i'.Ok)
      (hview : i'.view.segments = ss)
      (hbirths : i.births.call c = some i'.births)
  | dangling (hcall : ediCall i c = none) (hbirths : i.births.call c = none)

section Step

variable {i : HeapInterchange} (h : i.Ok)
include h

/-- A segment is stored behind an allocation. -/
theorem HeapInterchange.Ok.set (n base k : Nat) {t : HeapSegment}
    (ht : t.Ok (ediStringpoolAlloc i.pools n).1) :
    (HeapInterchange.mk base (i.segments.set k t)
      (ediStringpoolAlloc i.pools n).1).Ok where
  cleared := h.cleared.alloc n
  segments := by
    intro s hs
    rcases List.mem_or_eq_of_mem_set hs with hs | rfl
    · exact (h.segments s hs).alloc n
    · exact ht

theorem HeapInterchange.Ok.append (n base : Nat) {t : HeapSegment}
    (ht : t.Ok (ediStringpoolAlloc i.pools n).1) :
    (HeapInterchange.mk base (i.segments ++ [t])
      (ediStringpoolAlloc i.pools n).1).Ok where
  cleared := h.cleared.alloc n
  segments := by
    intro s hs
    rcases List.mem_append.1 hs with hs | hs
    · exact (h.segments s hs).alloc n
    · obtain rfl := List.mem_singleton.1 hs
      exact ht

theorem segmentCreate_spec {base : Nat} {tag : Bytes} {ss : List EdiSegment}
    (hss : segmentsCall blankValue i.view.segments (.segmentCreate base tag)
      = some ss) : CallSpec i (.segmentCreate base tag) ss := by
  have hptr := allocated_alloc i.pools tag.length
  have hok := h.append tag.length base (t := ⟨[⟨⟨base, i.segments.length⟩,
    .simple (ediStringpoolAlloc i.pools tag.length).2 tag.length⟩],
    some (ediStringpoolAlloc i.pools tag.length).2⟩) {
      nonempty := by simp
      typed := by simp
      allocated := by simpa [ElementData.strings] using hptr
      tag := by simpa using hptr.mono (Nat.zero_le _) }
  refine .done _ (ediSegmentCreate_eq i base tag) hok ?_ ?_
  · rw [hok.view_segments, List.map_append]
    rw [segmentsCall, h.view_segments, Option.some.injEq] at hss
    rw [← hss]
    simp [HeapSegment.view, ElementData.view, blankValue]
  · simp [Births.call, HeapInterchange.births]

theorem elementCreate_spec {k : Nat} {value : Bytes} {ss : List EdiSegment}
    (hss : segmentsCall blankValue i.view.segments (.elementCreate k value)
      = some ss) : CallSpec i (.elementCreate k value) ss := by
  have hptr := allocated_alloc i.pools value.length
  rw [segmentsCall, h.view_segments, List.length_map] at hss
  by_cases hk : k < i.segments.length
  · rw [if_pos hk, Option.some.injEq] at hss
    have hs : i.segments[k]? = some i.segments[k] := List.getElem?_eq_getElem hk
    have hview : (i.segments.map (·.view []))[k]? = some (i.segments[k].view [])
      := by rw [List.getElem?_map, hs, Option.map_some]
    have hsok := (h.segments _ (List.getElem_mem hk)).alloc value.length
    have hok := h.set value.length i.base k (hsok.append hptr ⟨i.base, k⟩)
    have hcall := ediElementCreate_eq hs value
    rw [if_neg hsok.nonempty] at hcall
    refine .done _ hcall hok ?_ ?_
    · rw [hok.view_segments, List.map_set, ← hss,
        modify_eq_set_of_getElem? hview]
      simp [HeapSegment.view, ElementData.view, blankValue]
    · have hborn : (i.segments.map fun s => s.elements.map (·.segment.base))[k]?
          = some (i.segments[k].elements.map (·.segment.base)) := by
        rw [List.getElem?_map, hs, Option.map_some]
      simp only [Births.call, HeapInterchange.births, List.length_map, if_pos hk,
        List.map_set, modify_eq_set_of_getElem? hborn]
      simp
  · simp [hk] at hss

theorem elementAdd_spec {k j : Nat} {value : Bytes} {ss : List EdiSegment}
    (hss : segmentsCall blankValue i.view.segments (.elementAdd k j value)
      = some ss) : CallSpec i (.elementAdd k j value) ss := by
  have hptr := allocated_alloc i.pools value.length
  rw [segmentsCall, h.view_segments, List.getElem?_map] at hss
  cases hs : i.segments[k]? with
  | none => simp [hs] at hss
  | some s =>
    rw [hs, Option.map_some] at hss
    simp only [Option.bind_eq_bind, Option.bind_some] at hss
    have hview : (i.segments.map (·.view []))[k]? = some (s.view []) := by
      rw [List.getElem?_map, hs, Option.map_some]
    have hborn : i.births.born[k]? = some (s.elements.map (·.segment.base)) := by
      rw [HeapInterchange.births, List.getElem?_map, hs, Option.map_some]
    by_cases hj : j < s.elements.length
    · have hel : s.elements[j]? = some s.elements[j] :=
        List.getElem?_eq_getElem hj
      have hbirths : i.births.call (.elementAdd k j value)
          = if s.elements[j].segment.base = i.base then some i.births
            else none := by
        simp only [Births.call, hborn, Option.bind_eq_bind, Option.bind_some,
          List.getElem?_map, hel, Option.map_some]
        rfl
      by_cases hbase : s.elements[j].segment.base = i.base
      · have hsok := (h.segments s (List.mem_of_getElem? hs)).alloc value.length
        have htyped := hsok.typed _ (List.getElem_mem hj)
        have hok := h.set value.length i.base k (hsok.add hptr hj)
        rw [if_pos hbase] at hbirths
        refine .done _ (ediElementAdd_eq hs hel hbase htyped value) hok ?_ ?_
        · have hviewel : (s.view []).elements[j]?
              = some (s.elements[j].data.view []) := by
            simp [HeapSegment.view, hj]
          rw [if_pos (by simpa [HeapSegment.view] using hj)] at hss
          rw [hok.view_segments, List.map_set, ← Option.some.inj hss,
            modify_eq_set_of_getElem? hview, modify_eq_set_of_getElem? hviewel]
          simp [HeapSegment.view, ElementData.view_add, blankValue]
        · rw [hbirths, births_set hs]
          rw [List.map_set]
          exact set_of_getElem? (by simp [hel])
      · rw [if_neg hbase] at hbirths
        exact .dangling (ediElementAdd_eq_none hs hel hbase value) hbirths
    · simp [HeapSegment.view, hj] at hss

theorem ediCall_spec {c : BuildCall} {ss : List EdiSegment}
    (hss : segmentsCall blankValue i.view.segments c = some ss) :
    CallSpec i c ss := by
  cases c with
  | segmentCreate base tag => exact segmentCreate_spec h hss
  | elementCreate k value => exact elementCreate_spec h hss
  | elementAdd k j value => exact elementAdd_spec h hss

end Step

/-! ## A run of calls -/

/-- With nothing but the lengths of the strings the calls do the same. -/
theorem segmentsCall_erase (ss : List EdiSegment) (c : BuildCall) :
    segmentsCall blankValue (ss.map EdiSegment.erase) c
      = (segmentsCall .ofBytes ss c).map (List.map EdiSegment.erase) := by
  cases c with
  | segmentCreate base tag =>
    simp [segmentsCall, EdiSegment.erase, EdiElement.erase, EdiValue.erase,
      blankValue, EdiValue.ofBytes]
  | elementCreate k value =>
    simp only [segmentsCall, List.length_map]
    by_cases hk : k < ss.length
    · have hs : ss[k]? = some ss[k] := List.getElem?_eq_getElem hk
      have hs' : (ss.map EdiSegment.erase)[k]? = some ss[k].erase := by
        rw [List.getElem?_map, hs, Option.map_some]
      rw [if_pos hk, if_pos hk, modify_eq_set_of_getElem? hs,
        modify_eq_set_of_getElem? hs', Option.map_some, List.map_set]
      simp [EdiSegment.erase, EdiElement.erase, EdiValue.erase, blankValue,
        EdiValue.ofBytes]
    · rw [if_neg hk, if_neg hk, Option.map_none]
  | elementAdd k j value =>
    simp only [segmentsCall, List.getElem?_map]
    cases hs : ss[k]? with
    | none => simp
    | some s =>
      have hs' : (ss.map EdiSegment.erase)[k]? = some s.erase := by
        rw [List.getElem?_map, hs, Option.map_some]
      have hlen : s.erase.elements.length = s.elements.length := by
        simp [EdiSegment.erase]
      simp only [Option.map_some, Option.bind_eq_bind, Option.bind_some, hlen]
      by_cases hj : j < s.elements.length
      · have hel : s.elements[j]? = some s.elements[j] :=
          List.getElem?_eq_getElem hj
        have hel' : s.erase.elements[j]? = some s.elements[j].erase := by
          simp [EdiSegment.erase, hj]
        rw [if_pos hj, if_pos hj, modify_eq_set_of_getElem? hs,
          modify_eq_set_of_getElem? hs', modify_eq_set_of_getElem? hel,
          modify_eq_set_of_getElem? hel']
        simp [EdiSegment.erase, EdiElement.erase_add, EdiValue.erase,
          blankValue, EdiValue.ofBytes]
      · rw [if_neg hj, if_neg hj, Option.map_none]

theorem foldlM_segmentsCall_erase (calls : List BuildCall)
    (ss : List EdiSegment) :
    calls.foldlM (segmentsCall blankValue) (ss.map EdiSegment.erase)
      = (calls.foldlM (segmentsCall .ofBytes) ss).map
        (List.map EdiSegment.erase) := by
  induction calls generalizing ss with
  | nil => rfl
  | cons c calls ih =>
    simp only [List.foldlM_cons, Option.bind_eq_bind, segmentsCall_erase]
    cases segmentsCall .ofBytes ss c with
    | none => rfl
    | some ss' => exact ih ss'

/-- A run goes as asked for, but for the strings, or it runs into a dangling
pointer. -/
theorem ediCalls_spec {i : HeapInterchange} (h : i.Ok) {calls : List BuildCall}
    {ss : List EdiSegment}
    (hss : calls.foldlM (segmentsCall blankValue) i.view.segments = some ss) :
    (∃ i', ediCalls i calls = some i' ∧ i'.Ok ∧ i'.view.segments = ss ∧
      (calls.foldlM Births.call i.births).isSome = true) ∨
    (ediCalls i calls = none ∧ calls.foldlM Births.call i.births = none) := by
  induction calls generalizing i with
  | nil =>
    have hview : i.view.segments = ss := Option.some.inj hss
    exact Or.inl ⟨i, rfl, h, hview, rfl⟩
  | cons c calls ih =>
    rw [List.foldlM_cons, Option.bind_eq_bind, Option.bind_eq_some_iff] at hss
    obtain ⟨ss', hc, hrest⟩ := hss
    simp only [ediCalls, List.foldlM_cons, Option.bind_eq_bind]
    cases ediCall_spec h hc with
    | done i' hcall hok hview hbirths =>
      rw [hcall, hbirths]
      exact ih hok (by rw [hview]; exact hrest)
    | dangling hcall hbirths =>
      rw [hcall, hbirths]
      exact Or.inr ⟨rfl, rfl⟩

/-- What is there after the calls: the segments, elements, kinds and lengths
that were asked for, with empty strings. -/
theorem ediCalls_view {calls : List BuildCall} {ss : List EdiSegment}
    (hss : givenSegments calls = some ss) :
    (∃ i, ediCalls ediInterchangeCreate calls = some i ∧ i.Ok ∧
      i.view.segments = ss.map EdiSegment.erase ∧ NotMoved calls) ∨
    (ediCalls ediInterchangeCreate calls = none ∧ ¬ NotMoved calls) := by
  have hblank := foldlM_segmentsCall_erase calls []
  rw [← givenSegments, hss] at hblank
  rcases ediCalls_spec HeapInterchange.ok_create hblank with hdone | ⟨hnone, hb⟩
  · exact Or.inl hdone
  · refine Or.inr ⟨hnone, fun hmoved => ?_⟩
    have hnot : calls.foldlM Births.call ⟨0, []⟩ = none := hb
    rw [NotMoved, hnot] at hmoved
    exact Bool.noConfusion hmoved

/-! ## Which strings are kept -/

theorem EdiValue.erase_ofBytes (v : Bytes) :
    (EdiValue.ofBytes v).erase = .ofBytes v ↔ v = [] := by
  simp [EdiValue.erase, EdiValue.ofBytes, eq_comm]

/-- What a call makes of the segments: one more of them, or one of them with one
more element or one more value. -/
theorem segmentsCall_cases {val : Bytes → EdiValue} {ss ss' : List EdiSegment}
    {c : BuildCall} (h : segmentsCall val ss c = some ss') :
    ss' = ss ++ [⟨[.simple (val c.given)], some (val c.given).value, 0⟩] ∨
    ∃ k s es, ss[k]? = some s ∧ ss' = ss.set k { s with elements := es } ∧
      (es = s.elements ++ [.simple (val c.given)] ∨
        ∃ j e, s.elements[j]? = some e ∧
          es = s.elements.set j (e.add (val c.given))) := by
  cases c with
  | segmentCreate base tag => exact Or.inl (Option.some.inj h).symm
  | elementCreate k value =>
    rw [segmentsCall] at h
    split at h
    · next hk =>
      have hs : ss[k]? = some ss[k] := List.getElem?_eq_getElem hk
      rw [modify_eq_set_of_getElem? hs, Option.some.injEq] at h
      exact Or.inr ⟨k, _, _, hs, h.symm, Or.inl rfl⟩
    · simp at h
  | elementAdd k j value =>
    rw [segmentsCall, Option.bind_eq_bind, Option.bind_eq_some_iff] at h
    obtain ⟨s, hs, h⟩ := h
    split at h
    · next hj =>
      have hel : s.elements[j]? = some s.elements[j] :=
        List.getElem?_eq_getElem hj
      rw [modify_eq_set_of_getElem? hs, modify_eq_set_of_getElem? hel] at h
      exact Or.inr ⟨k, s, _, hs, (Option.some.inj h).symm,
        Or.inr ⟨j, _, hel, rfl⟩⟩
    · simp at h

theorem EdiSegment.erase_eq_iff (s : EdiSegment) : s.erase = s ↔
    (∀ e ∈ s.elements, e.erase = e) ∧ ∀ t ∈ s.tag, t = [] := by
  obtain ⟨es, tag, offset⟩ := s
  rw [EdiSegment.erase, EdiSegment.mk.injEq, map_eq_self_iff]
  cases tag <;> simp [eq_comm]

theorem segmentsCall_erase_eq_iff {ss ss' : List EdiSegment} {c : BuildCall}
    (h : segmentsCall .ofBytes ss c = some ss') :
    (∀ s ∈ ss', s.erase = s) ↔ (∀ s ∈ ss, s.erase = s) ∧ c.given = [] := by
  have hsimple : (EdiElement.simple (.ofBytes c.given)).erase
      = .simple (.ofBytes c.given) ↔ c.given = [] := by
    rw [EdiElement.erase, EdiElement.simple.injEq]
    exact EdiValue.erase_ofBytes c.given
  rcases segmentsCall_cases h with rfl | ⟨k, s, es, hs, rfl, hes⟩
  · rw [List.forall_mem_append, List.forall_mem_singleton,
      EdiSegment.erase_eq_iff]
    simp [hsimple]
  · refine forall_mem_set_iff hs ?_
    rw [EdiSegment.erase_eq_iff, EdiSegment.erase_eq_iff, and_right_comm]
    refine and_congr_left fun _ => ?_
    rcases hes with rfl | ⟨j, e, hel, rfl⟩
    · rw [List.forall_mem_append, List.forall_mem_singleton, hsimple]
    · refine forall_mem_set_iff hel ?_
      rw [EdiElement.erase_add_eq_iff, EdiValue.erase_ofBytes]

/-- A run stores what it was given exactly if it was given empty strings. -/
theorem erase_eq_iff {calls : List BuildCall} {ss ss' : List EdiSegment}
    (h : calls.foldlM (segmentsCall .ofBytes) ss = some ss') :
    (∀ s ∈ ss', s.erase = s) ↔
      (∀ s ∈ ss, s.erase = s) ∧ ∀ c ∈ calls, c.given = [] := by
  induction calls generalizing ss with
  | nil =>
    obtain rfl : ss = ss' := Option.some.inj h
    simp
  | cons c calls ih =>
    rw [List.foldlM_cons, Option.bind_eq_bind, Option.bind_eq_some_iff] at h
    obtain ⟨ss₁, hc, hrest⟩ := h
    rw [ih hrest, segmentsCall_erase_eq_iff hc, List.forall_mem_cons, and_assoc]

theorem EdiElement.Filled.add {e : EdiElement} {v : EdiValue} (h : e.Filled)
    (hv : v.IsString) : (e.add v).Filled := by
  have hvalues : (e.add v).values = e.values ++ [v] := by
    cases e <;> rfl
  constructor
  · simp [hvalues]
  · intro w hw
    rw [hvalues] at hw
    rcases List.mem_append.1 hw with hw | hw
    · exact h.isString w hw
    · obtain rfl := List.mem_singleton.1 hw
      exact hv

theorem segmentsCall_filled {ss ss' : List EdiSegment} {c : BuildCall}
    (h : segmentsCall .ofBytes ss c = some ss') (hc : (0 : UInt8) ∉ c.given)
    (hss : ∀ s ∈ ss, ∀ e ∈ s.elements, e.Filled) :
    ∀ s ∈ ss', ∀ e ∈ s.elements, e.Filled := by
  have hgiven : (EdiValue.ofBytes c.given).IsString := ⟨hc, rfl⟩
  have hnew : (EdiElement.simple (.ofBytes c.given)).Filled :=
    ⟨by simp [EdiElement.values], by simpa [EdiElement.values] using hgiven⟩
  intro s' hs' e he
  rcases segmentsCall_cases h with rfl | ⟨k, s, es, hs, rfl, hes⟩
  · rcases List.mem_append.1 hs' with hs' | hs'
    · exact hss s' hs' e he
    · obtain rfl := List.mem_singleton.1 hs'
      obtain rfl := List.mem_singleton.1 he
      exact hnew
  · have hold := hss s (List.mem_of_getElem? hs)
    rcases List.mem_or_eq_of_mem_set hs' with hs' | rfl
    · exact hss s' hs' e he
    · rcases hes with rfl | ⟨j, e', hel, rfl⟩
      · rcases List.mem_append.1 he with he | he
        · exact hold e he
        · obtain rfl := List.mem_singleton.1 he
          exact hnew
      · rcases List.mem_or_eq_of_mem_set he with he | rfl
        · exact hold e he
        · exact (hold e' (List.mem_of_getElem? hel)).add hgiven

theorem filled_given {calls : List BuildCall}
    (hcalls : ∀ c ∈ calls, (0 : UInt8) ∉ c.given) {ss ss' : List EdiSegment}
    (h : calls.foldlM (segmentsCall .ofBytes) ss = some ss')
    (hss : ∀ s ∈ ss, ∀ e ∈ s.elements, e.Filled) :
    ∀ s ∈ ss', ∀ e ∈ s.elements, e.Filled := by
  induction calls generalizing ss with
  | nil =>
    obtain rfl : ss = ss' := Option.some.inj h
    exact hss
  | cons c calls ih =>
    rw [List.foldlM_cons, Option.bind_eq_bind, Option.bind_eq_some_iff] at h
    obtain ⟨ss₁, hc, hrest⟩ := h
    rw [List.forall_mem_cons] at hcalls
    exact ih hcalls.2 hrest (segmentsCall_filled hc hcalls.1 hss)

/-- The strings of a segment. -/
def HeapSegment.strings (s : HeapSegment) : List StringPtr :=
  s.tag.toList ++ s.elements.flatMap fun e => e.data.strings.map Prod.fst

theorem HeapInterchange.Ok.terminated {i : HeapInterchange} (h : i.Ok) :
    ∀ s ∈ i.segments, ∀ q ∈ s.strings, Terminated i.pools q := by
  intro s hs q hq
  have hok := h.segments s hs
  rcases List.mem_append.1 hq with hq | hq
  · exact h.cleared.terminated (hok.tag q (by simpa using hq))
  · obtain ⟨e, he, hq⟩ := List.mem_flatMap.1 hq
    obtain ⟨x, hx, rfl⟩ := List.mem_map.1 hq
    exact h.cleared.terminated (hok.allocated e he x hx)

/-- The calls succeed, every string of the interchange ends in its pool, a
reader finds the segments that were asked for, and the builder writes their
text. -/
def StoresGiven (pun : List EdiValue → EdiValue) (calls : List BuildCall)
    (ss : List EdiSegment) : Prop :=
  ∃ i, ediCalls ediInterchangeCreate calls = some i ∧
    (∀ s ∈ i.segments, ∀ q ∈ s.strings, Terminated i.pools q) ∧
    i.view.segments = ss ∧
    BuiltAs pun i.view (segmentsText ediDefaultParams ss)

/-- The building functions store what they are given exactly if all they are
given is empty strings, and no value is added to an element after the array of
segments has moved. -/
theorem ediCalls_stores_iff (pun : List EdiValue → EdiValue)
    {calls : List BuildCall} {ss : List EdiSegment}
    (hss : givenSegments calls = some ss) :
    StoresGiven pun calls ss
      ↔ (∀ c ∈ calls, c.given = []) ∧ NotMoved calls := by
  have herase := erase_eq_iff hss
  rw [← map_eq_self_iff] at herase
  simp only [List.not_mem_nil, false_imp_iff, implies_true, true_and] at herase
  rcases ediCalls_view hss with ⟨i, hcalls, hok, hview, hmoved⟩ | ⟨hnone, hnot⟩
  · constructor
    · rintro ⟨i', hcalls', -, hview', -⟩
      obtain rfl : i = i' := by simpa [hcalls] using hcalls'
      exact ⟨herase.1 (hview.symm.trans hview'), hmoved⟩
    · rintro ⟨hempty, -⟩
      have hsame : i.view.segments = ss := hview.trans (herase.2 hempty)
      refine ⟨i, hcalls, hok.terminated, hsame, ?_⟩
      rw [← hsame]
      refine builtAs_segmentsText pun ?_
      rw [hsame]
      refine filled_given (fun c hc => ?_) hss (by simp)
      rw [hempty c hc]
      exact List.not_mem_nil
  · constructor
    · rintro ⟨i, hcalls, -⟩
      simp [hnone] at hcalls
    · exact fun hand => absurd hand.2 hnot

/-- The tag of a new segment has the length of `A` and no `A` in it. -/
theorem ediSegmentCreate_loses_tag :
    givenSegments [.segmentCreate 0 (ascii "A")]
      = some [⟨[.simple (.ofBytes (ascii "A"))], some (ascii "A"), 0⟩] ∧
    (∃ i, ediCalls ediInterchangeCreate [.segmentCreate 0 (ascii "A")] = some i ∧
      i.view.segments = [⟨[.simple ⟨[], 1⟩], some [], 0⟩]) ∧
    ¬ StoresGiven (fun _ => .ofBytes []) [.segmentCreate 0 (ascii "A")]
      [⟨[.simple (.ofBytes (ascii "A"))], some (ascii "A"), 0⟩] := by
  have hview : (ediCalls ediInterchangeCreate
      [.segmentCreate 0 (ascii "A")]).map (·.view.segments)
      = some [⟨[.simple ⟨[], 1⟩], some [], 0⟩] := by
    decide +kernel
  obtain ⟨i, hcalls, hi⟩ := Option.map_eq_some_iff.1 hview
  refine ⟨by decide +kernel, ⟨i, hcalls, hi⟩, ?_⟩
  rintro ⟨i', hcalls', -, hi', -⟩
  obtain rfl : i = i' := by simpa [hcalls] using hcalls'
  rw [hi] at hi'
  exact absurd hi' (by decide +kernel)

/-- Empty strings in an array that stays where it is. -/
theorem ediCalls_stores_empty :
    StoresGiven (fun _ => .ofBytes [])
      [.segmentCreate 0 [], .elementCreate 0 [], .elementAdd 0 1 []]
      [⟨[.simple (.ofBytes []), .composite [.ofBytes [], .ofBytes []]],
        some [], 0⟩] :=
  (ediCalls_stores_iff _ (by decide +kernel)).2
    ⟨by decide, by rw [NotMoved]; decide⟩

end Libedi
