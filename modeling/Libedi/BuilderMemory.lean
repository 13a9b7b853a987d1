import Libedi.PoolArrays
import Libedi.BuilderFields

/-!
# Building while allocations fail

The building functions of `libedi/build.c` once more, with the arrays that they grow
with `realloc` and with allocations that may fail.  `BuilderApi` has lists where the
code has an array and a counter, and the counter is increased last.  So a call that
fails in the middle leaves arrays behind that are longer than their counters say.

* `MemInterchange` is the memory, and `MemInterchange.Stores` relates it to the
  interchange of `BuilderApi` that it holds.
* `apiCallMemory` is a call, for one pattern of allocations.  Its result is `none`
  where it goes astray: through a pointer to a segment that has been moved, or
  behind a pool that there is not.
* `stringRequest` says when a call gets as far as its string.  All of the failures
  in front of that are harmless (`apiCallMemory_cases`).

`apiCallMemory_atomic_iff` puts this together: when a call either does all that it
should or nothing that can be seen.
-/

namespace Libedi

open SlotArray

/-! ## The memory -/

/-- The data of an `edi_element_t`, with the two arrays of a composite. -/
inductive MemData where
  | untyped
  | simple (value : StringPtr) (valuelen : Nat)
  | composite (values : List (Option StringPtr)) (valuelens : List (Option Nat))
      (nvalues : Nat)
  deriving DecidableEq, Repr

/-- `edi_element_t`. -/
structure MemElement where
  segment : SegmentPtr
  data : MemData
  deriving DecidableEq, Repr

/-- `edi_segment_t`. -/
structure MemSegment where
  elements : List (Option MemElement)
  nelements : Nat
  tag : Option StringPtr
  deriving DecidableEq, Repr

/-- `edi_interchange_t`, with the address of its array of segments. -/
structure MemInterchange where
  base : Nat
  segments : List (Option MemSegment)
  nsegments : Nat
  pools : PoolArrays
  deriving DecidableEq, Repr

/-- `edi_interchange_create`. -/
def MemInterchange.create : MemInterchange := ⟨0, [], 0, .empty⟩

/-- Another segment in a slot. -/
def MemInterchange.setSegment (m : MemInterchange) (k : Nat) (s : MemSegment) :
    MemInterchange :=
  { m with segments := m.segments.set k (some s) }

/-- `edi__stringpool_alloc(elp->simple.segment->interchange, ..)`. -/
def MemInterchange.allocString (m : MemInterchange) (back : SegmentPtr)
    (length : Nat) (ok : Allocs) : Option (MemInterchange × StringPtr) :=
  if back.base = m.base then do
    let r ← m.pools.stringpoolAlloc length ok
    return ({ m with pools := r.1 }, r.2)
  else none

/-- `edi_element_add` for the slot `j` of the segment in the slot `k`: the memory, and
whether it returns `0`. -/
def ediElementAddMemory (m : MemInterchange) (k j : Nat) (value : Bytes)
    (ok : Allocs) : Option (MemInterchange × Bool) := do
  let s ← slot m.segments k
  let el ← slot s.elements j
  let put (data : MemData) : MemSegment :=
    { s with elements := s.elements.set j (some { el with data := data }) }
  match el.data with
  | .untyped =>
    let (m, v) ← m.allocString el.segment value.length ok
    let s := put (.simple v value.length)
    -- `elp->simple.segment->elements == elp`
    let s := if el.segment.index = k ∧ j = 0 then { s with tag := some v } else s
    return (m.setSegment k s, true)
  | .simple v vl =>
    if ok 0 && ok 1 then
      let (m, v') ← m.allocString el.segment value.length (ok.behind 2)
      let data := MemData.composite [some v, some v'] [some vl, some value.length] 2
      return (m.setSegment k (put data), true)
    else return (m, false)
  | .composite vp lp nvalues =>
    if ok 0 then
      let vp := resize vp (nvalues + 1)
      if ok 1 then
        let lp := resize lp (nvalues + 1)
        let (m, v) ← m.allocString el.segment value.length (ok.behind 2)
        let data := MemData.composite (vp.set nvalues (some v))
          (lp.set nvalues (some value.length)) (nvalues + 1)
        return (m.setSegment k (put data), true)
      else return (m.setSegment k (put (.composite vp lp nvalues)), false)
    else return (m, false)

/-- `edi_element_create` for the segment in the slot `k`. -/
def ediElementCreateMemory (m : MemInterchange) (k : Nat)
    (value : Option Bytes) (ok : Allocs) : Option (MemInterchange × Bool) := do
  let s ← slot m.segments k
  if ok 0 then
    let j := s.nelements
    let s := { s with
      elements := (resize s.elements (j + 1)).set j
        (some ⟨⟨m.base, k⟩, .untyped⟩) }
    let m := m.setSegment k s
    match value with
    | none => return (m.setSegment k { s with nelements := j + 1 }, true)
    | some value =>
      let (m, done) ← ediElementAddMemory m k j value (ok.behind 1)
      if done then
        let s ← slot m.segments k
        -- `elp == seg->elements`
        let s := match j, (slot s.elements j).map MemElement.data with
          | 0, some (.simple v _) => { s with tag := some v }
          | _, _ => s
        return (m.setSegment k { s with nelements := j + 1 }, true)
      else return (m, false)
  else return (m, false)

/-- `edi_segment_create`.  `base` is the address that `realloc` returns. -/
def ediSegmentCreateMemory (m : MemInterchange) (base : Nat)
    (tag : Option Bytes) (ok : Allocs) : Option (MemInterchange × Bool) :=
  if ok 0 then
    let k := m.nsegments
    let m := { m with
      base := base
      segments := (resize m.segments (k + 1)).set k (some ⟨[], 0, none⟩) }
    match tag with
    | none => some ({ m with nsegments := k + 1 }, true)
    | some tag => do
      let (m, done) ← ediElementCreateMemory m k (some tag) (ok.behind 1)
      if done then return ({ m with nsegments := k + 1 }, true)
      else return (m, false)
  else some (m, false)

/-- A call. -/
def apiCallMemory (m : MemInterchange) (ok : Allocs) :
    ApiCall → Option (MemInterchange × Bool)
  | .segmentCreate base tag => ediSegmentCreateMemory m base tag ok
  | .elementCreate k value => ediElementCreateMemory m k value ok
  | .elementAdd k j value => ediElementAddMemory m k j value ok

/-! ## The interchange in the memory -/

/-- An element holds this data. -/
inductive MemData.Stores : MemData → ElementData → Prop where
  | untyped : Stores .untyped .untyped
  | simple (v : StringPtr) (vl : Nat) : Stores (.simple v vl) (.simple v vl)
  | composite {vp : List (Option StringPtr)} {lp : List (Option Nat)}
      {vs : List (StringPtr × Nat)} (values : Holds (fun v x => v = x.1) vp vs)
      (valuelens : Holds (fun l x => l = x.2) lp vs) :
      Stores (.composite vp lp vs.length) (.composite vs)

/-- The same segment and the same data. -/
structure MemElement.Stores (e : MemElement) (h : HeapElement) : Prop where
  segment : e.segment = h.segment
  data : e.data.Stores h.data

/-- A segment holds these elements, and maybe more slots. -/
structure MemSegment.Stores (s : MemSegment) (h : HeapSegment) : Prop where
  nelements : s.nelements = h.elements.length
  elements : Holds MemElement.Stores s.elements h.elements
  tag : s.tag = h.tag

/-- The memory holds this interchange, and maybe more slots.  Its pools are as they
should be. -/
structure MemInterchange.Stores (m : MemInterchange) (i : HeapInterchange) :
    Prop where
  base : m.base = i.base
  nsegments : m.nsegments = i.segments.length
  segments : Holds MemSegment.Stores m.segments i.segments
  pools : m.pools.Stores i.pools
  sized : PoolArrays.Sized i.pools

/-- What a call needs for its string. -/
structure StringRequest where
  /-- The segment is where the element points to. -/
  inPlace : Bool
  length : Nat
  /-- The allocations that are left for it. -/
  ok : Allocs

/-- The string that a call comes to, `none` if it fails before, or needs none. -/
def stringRequest (i : HeapInterchange) (ok : Allocs) :
    ApiCall → Option StringRequest
  | .segmentCreate _ tag =>
    if ok 0 && ok 1 then tag.map fun t => ⟨true, t.length, ok.behind 2⟩ else none
  | .elementCreate _ value =>
    if ok 0 then value.map fun v => ⟨true, v.length, ok.behind 1⟩ else none
  | .elementAdd k j value => do
    let s ← i.segments[k]?
    let el ← s.elements[j]?
    let inPlace := decide (el.segment.base = i.base)
    match el.data with
    | .untyped => some ⟨inPlace, value.length, ok⟩
    | .simple _ _ | .composite _ =>
      if ok 0 && ok 1 then some ⟨inPlace, value.length, ok.behind 2⟩ else none

/-- A call is for a segment or an element that is there, with a string that is in
the memory. -/
def HeapInterchange.Valid (i : HeapInterchange) : ApiCall → Prop
  | .segmentCreate _ tag => ∀ t ∈ tag, t.length < 2 ^ 64
  | .elementCreate k value =>
    k < i.segments.length ∧ ∀ v ∈ value, v.length < 2 ^ 64
  | .elementAdd k j value =>
    (∃ s, i.segments[k]? = some s ∧ j < s.elements.length) ∧
      value.length < 2 ^ 64

/-- A call on the interchange `i` does all that it should, or it fails and the memory
still holds the same, but for the address of the segments. -/
def Atomic (m : MemInterchange) (i : HeapInterchange) (c : ApiCall)
    (ok : Allocs) : Prop :=
  ∃ m' done, apiCallMemory m ok c = some (m', done) ∧
    if done then ∃ i', apiCall i c = some i' ∧ m'.Stores i'
    else m'.Stores { i with base := m'.base }

/-- The string of a call can be had: its element points to where the segment is, its
length is added without wrapping, and the newest pool has room or there is memory
for another one. -/
def Provided (i : HeapInterchange) (c : ApiCall) (ok : Allocs) : Prop :=
  ∀ r ∈ stringRequest i ok c, r.inPlace = true ∧
    PoolArrays.Fit i.pools r.length ∧
    (PoolArrays.HasRoom i.pools r.length ∨
      r.ok 0 = true ∧ r.ok 1 = true ∧ r.ok 2 = true ∧ r.ok 3 = true)

/-- The interchanges that are built by calls, whether these fail or not. -/
inductive Built : MemInterchange → Prop where
  | create : Built .create
  | call {m m' : MemInterchange} {i : HeapInterchange} {c : ApiCall}
      {ok : Allocs} {done : Bool} (hm : Built m) (hi : m.Stores i)
      (hc : i.Valid c) (hcall : apiCallMemory m ok c = some (m', done)) : Built m'

/-! ## The calls on the memory -/

theorem Allocs.behind_behind (ok : Allocs) (n n' : Nat) :
    (ok.behind n).behind n' = ok.behind (n + n') := by
  funext c
  simp [Allocs.behind, Nat.add_assoc]

section Memory

variable {m : MemInterchange} {k : Nat} {s : MemSegment}
  (hs : slot m.segments k = some s)
include hs

theorem MemInterchange.slot_setSegment (s' : MemSegment) :
    slot (m.setSegment k s').segments k = some s' :=
  slot_set_of_slot hs

/-- The first value of an element. -/
theorem ediElementAddMemory_untyped {j : Nat} {el : MemElement}
    (hel : slot s.elements j = some el) (hd : el.data = .untyped)
    (hbase : el.segment.base = m.base) (value : Bytes) (ok : Allocs) :
    ediElementAddMemory m k j value ok
      = (m.pools.stringpoolAlloc value.length ok).map fun x =>
        ({ m with
          pools := x.1
          segments := m.segments.set k (some { s with
            elements := s.elements.set j
              (some { el with data := .simple x.2 value.length })
            tag := if el.segment.index = k ∧ j = 0 then some x.2
              else s.tag }) }, true) := by
  unfold ediElementAddMemory
  simp only [hs, hel, hd, MemInterchange.allocString, hbase, if_true,
    Option.bind_eq_bind, Option.bind_some]
  cases m.pools.stringpoolAlloc value.length ok with
  | none => rfl
  | some x =>
    by_cases htag : el.segment.index = k ∧ j = 0
    · simp [htag, MemInterchange.setSegment]
    · simp [htag, MemInterchange.setSegment]

/-- The second value of an element. -/
theorem ediElementAddMemory_simple {j : Nat} {el : MemElement}
    (hel : slot s.elements j = some el) {v : StringPtr} {vl : Nat}
    (hd : el.data = .simple v vl) (hbase : el.segment.base = m.base)
    (value : Bytes) {ok : Allocs} (h0 : ok 0 = true) (h1 : ok 1 = true) :
    ediElementAddMemory m k j value ok
      = (m.pools.stringpoolAlloc value.length (ok.behind 2)).map fun x =>
        ({ m with
          pools := x.1
          segments := m.segments.set k (some { s with
            elements := s.elements.set j (some { el with
              data := .composite [some v, some x.2]
                [some vl, some value.length] 2 }) }) }, true) := by
  unfold ediElementAddMemory
  simp only [hs, hel, hd, MemInterchange.allocString, hbase, if_true, h0, h1,
    Bool.and_self, Option.bind_eq_bind, Option.bind_some]
  cases m.pools.stringpoolAlloc value.length (ok.behind 2) <;> rfl

/-- One more value of a composite. -/
theorem ediElementAddMemory_composite {j : Nat} {el : MemElement}
    (hel : slot s.elements j = some el) {vp : List (Option StringPtr)}
    {lp : List (Option Nat)} {n : Nat} (hd : el.data = .composite vp lp n)
    (hbase : el.segment.base = m.base) (value : Bytes) {ok : Allocs}
    (h0 : ok 0 = true) (h1 : ok 1 = true) :
    ediElementAddMemory m k j value ok
      = (m.pools.stringpoolAlloc value.length (ok.behind 2)).map fun x =>
        ({ m with
          pools := x.1
          segments := m.segments.set k (some { s with
            elements := s.elements.set j (some { el with
              data := .composite ((resize vp (n + 1)).set n (some x.2))
                ((resize lp (n + 1)).set n (some value.length))
                (n + 1) }) }) }, true) := by
  unfold ediElementAddMemory
  simp only [hs, hel, hd, MemInterchange.allocString, hbase, if_true, h0, h1,
    Option.bind_eq_bind, Option.bind_some]
  cases m.pools.stringpoolAlloc value.length (ok.behind 2) <;> rfl

/-- The pointer to the segment leads to where it was before. -/
theorem ediElementAddMemory_astray {j : Nat} {el : MemElement}
    (hel : slot s.elements j = some el) (hbase : el.segment.base ≠ m.base)
    (value : Bytes) {ok : Allocs}
    (hok : el.data = .untyped ∨ ok 0 = true ∧ ok 1 = true) :
    ediElementAddMemory m k j value ok = none := by
  unfold ediElementAddMemory
  simp only [hs, hel, MemInterchange.allocString, hbase, if_false,
    Option.bind_eq_bind, Option.bind_some, Option.bind_none]
  cases hd : el.data with
  | untyped => rfl
  | simple v vl =>
    obtain ⟨h0, h1⟩ := hok.resolve_left (by simp [hd])
    simp [h0, h1]
  | composite vp lp n =>
    obtain ⟨h0, h1⟩ := hok.resolve_left (by simp [hd])
    simp [h0, h1]

/-- No memory for the slots of an element. -/
theorem ediElementCreateMemory_failed {ok : Allocs} (hok : ok 0 = false)
    (value : Option Bytes) :
    ediElementCreateMemory m k value ok = some (m, false) := by
  simp [ediElementCreateMemory, hs, hok]

/-- A new element with its value. -/
theorem ediElementCreateMemory_some {ok : Allocs} (hok : ok 0 = true)
    (value : Bytes) :
    ediElementCreateMemory m k (some value) ok
      = (m.pools.stringpoolAlloc value.length (ok.behind 1)).map fun x =>
        ({ m with
          pools := x.1
          segments := m.segments.set k (some
            { elements := (resize s.elements (s.nelements + 1)).set s.nelements
                (some ⟨⟨m.base, k⟩, .simple x.2 value.length⟩)
              nelements := s.nelements + 1
              tag := if s.nelements = 0 then some x.2 else s.tag }) },
          true) := by
  have hlen : s.nelements < (resize s.elements (s.nelements + 1)).length := by
    simp
  have hk := lt_length_of_slot hs
  have hel := slot_set_self (a := MemElement.mk ⟨m.base, k⟩ .untyped) hlen
  have hadd := ediElementAddMemory_untyped
    (m.slot_setSegment hs { s with
      elements := (resize s.elements (s.nelements + 1)).set s.nelements
        (some ⟨⟨m.base, k⟩, .untyped⟩) }) hel rfl rfl value (ok.behind 1)
  unfold ediElementCreateMemory
  simp only [hs, hok, if_true, Option.bind_eq_bind, Option.bind_some]
  simp only [MemInterchange.setSegment] at hadd ⊢
  rw [hadd]
  cases m.pools.stringpoolAlloc value.length (ok.behind 1) with
  | none => rfl
  | some x =>
    simp only [Option.map_some, Option.bind_some, if_true, List.set_set,
      slot_set_self hk]
    cases s.nelements with
    | zero => simp [slot]
    | succ n => simp

end Memory

/-! ## What the memory holds -/

theorem MemInterchange.stores_create :
    MemInterchange.create.Stores ediInterchangeCreate where
  base := rfl
  nsegments := rfl
  segments := Holds.nil _ _
  pools := PoolArrays.stores_empty
  sized := PoolArrays.sized_nil

namespace MemInterchange.Stores

variable {m : MemInterchange} {i : HeapInterchange} (h : m.Stores i)
include h

theorem self : m.Stores { i with base := m.base } := by
  rw [h.base]
  exact h

/-- Another segment, and other pools. -/
theorem put {a : PoolArrays} {pools : List Pool} (ha : a.Stores pools)
    (hsized : PoolArrays.Sized pools)
    {s : MemSegment} {s' : HeapSegment} (hs : s.Stores s') (k : Nat) :
    MemInterchange.Stores
      { m with pools := a, segments := m.segments.set k (some s) }
      { i with pools := pools, segments := i.segments.set k s' } where
  base := h.base
  nsegments := by simpa using h.nsegments
  segments := h.segments.set hs k
  pools := ha
  sized := hsized

/-- A segment that holds what it held. -/
theorem same {k : Nat} {s : MemSegment} {s' : HeapSegment}
    (hk : i.segments[k]? = some s') (hs : s.Stores s') :
    (m.setSegment k s).Stores i := by
  have hput := h.put h.pools h.sized hs k
  rw [set_of_getElem? hk] at hput
  exact hput

/-- One more segment, and other pools. -/
theorem push {a : PoolArrays} {pools : List Pool} (ha : a.Stores pools)
    (hsized : PoolArrays.Sized pools)
    {s : MemSegment} {s' : HeapSegment} (hs : s.Stores s') (base : Nat) :
    MemInterchange.Stores
      { base := base
        segments := (resize m.segments (m.nsegments + 1)).set m.nsegments (some s)
        nsegments := m.nsegments + 1
        pools := a }
      ⟨base, i.segments ++ [s'], pools⟩ where
  base := rfl
  nsegments := by simpa using h.nsegments
  segments := by
    have hpush := h.segments.resize_push hs
    rwa [← h.nsegments] at hpush
  pools := ha
  sized := hsized

/-- A slot for one more segment, which is not counted. -/
theorem spare (s : Option MemSegment) (base : Nat) :
    MemInterchange.Stores
      { m with
        base := base
        segments := (resize m.segments (m.nsegments + 1)).set m.nsegments s }
      { i with base := base } where
  base := rfl
  nsegments := h.nsegments
  segments := by
    have hspare := (h.segments.resize (Nat.le_succ _)).set_behind
      (Nat.le_refl _) s
    rwa [← h.nsegments] at hspare
  pools := h.pools
  sized := h.sized

end MemInterchange.Stores

namespace MemSegment.Stores

variable {s : MemSegment} {s' : HeapSegment} (h : s.Stores s')
include h

/-- One more element. -/
theorem push {e : MemElement} {e' : HeapElement} (he : e.Stores e')
    {t t' : Option StringPtr} (ht : t = t') :
    MemSegment.Stores
      ⟨(resize s.elements (s.nelements + 1)).set s.nelements (some e),
        s.nelements + 1, t⟩
      ⟨s'.elements ++ [e'], t'⟩ where
  nelements := by simpa using h.nelements
  elements := by
    have hpush := h.elements.resize_push he
    rwa [← h.nelements] at hpush
  tag := ht

/-- Another element in the place of one. -/
theorem set {e : MemElement} {e' : HeapElement} (he : e.Stores e')
    {t t' : Option StringPtr} (ht : t = t') (j : Nat) :
    MemSegment.Stores ⟨s.elements.set j (some e), s.nelements, t⟩
      ⟨s'.elements.set j e', t'⟩ where
  nelements := by simpa using h.nelements
  elements := h.elements.set he j
  tag := ht

end MemSegment.Stores

/-- A composite with one more value. -/
theorem MemData.stores_push {vp : List (Option StringPtr)}
    {lp : List (Option Nat)} {vs : List (StringPtr × Nat)}
    (hv : Holds (fun v x => v = x.1) vp vs)
    (hl : Holds (fun l x => l = x.2) lp vs) (v : StringPtr) (n : Nat) :
    MemData.Stores
      (.composite ((resize vp (vs.length + 1)).set vs.length (some v))
        ((resize lp (vs.length + 1)).set vs.length (some n)) (vs.length + 1))
      (.composite (vs ++ [(v, n)])) := by
  have hdata := MemData.Stores.composite
    (hv.resize_push (a := v) (x := (v, n)) rfl)
    (hl.resize_push (a := n) (x := (v, n)) rfl)
  simpa using hdata

/-- A composite whose arrays have more room. -/
theorem MemData.stores_resize {vp : List (Option StringPtr)}
    {lp : List (Option Nat)} {vs : List (StringPtr × Nat)}
    (hv : Holds (fun v x => v = x.1) vp vs)
    (hl : Holds (fun l x => l = x.2) lp vs) {n : Nat} (hn : vs.length ≤ n) :
    MemData.Stores (.composite (resize vp n) lp vs.length) (.composite vs) :=
  .composite (hv.resize hn) hl

/-- Two values of an element that had one. -/
theorem MemData.stores_pair (v v' : StringPtr) (n n' : Nat) :
    MemData.Stores (.composite [some v, some v'] [some n, some n'] 2)
      (.composite [(v, n), (v', n')]) := by
  have hdata := MemData.Stores.composite
    (Holds.of_map Prod.fst (fun _ => rfl) [(v, n), (v', n')])
    (Holds.of_map Prod.snd (fun _ => rfl) [(v, n), (v', n')])
  simpa using hdata

/-! ## What a call can do -/

/-- All that a call can do: it fails in front of its string, it needs none, it goes
astray with the pointer to its segment, or it comes down to the allocation of its
string.  Then `finish` is the memory and `given` the interchange behind it. -/
inductive CallCases (m : MemInterchange) (i : HeapInterchange) (c : ApiCall)
    (ok : Allocs) : Prop where
  | failed (m' : MemInterchange) (hrequest : stringRequest i ok c = none)
      (hcall : apiCallMemory m ok c = some (m', false))
      (hstores : m'.Stores { i with base := m'.base })
  | done (m' : MemInterchange) (i' : HeapInterchange)
      (hrequest : stringRequest i ok c = none)
      (hcall : apiCallMemory m ok c = some (m', true))
      (hapi : apiCall i c = some i') (hstores : m'.Stores i')
  | astray (r : StringRequest) (hrequest : stringRequest i ok c = some r)
      (hplace : r.inPlace = false) (hcall : apiCallMemory m ok c = none)
  | string (r : StringRequest) (hrequest : stringRequest i ok c = some r)
      (hplace : r.inPlace = true) (hlength : r.length < 2 ^ 64)
      (finish : PoolArrays → StringPtr → MemInterchange)
      (given : List Pool → StringPtr → HeapInterchange)
      (hcall : apiCallMemory m ok c
        = (m.pools.stringpoolAlloc r.length r.ok).map fun x =>
          (finish x.1 x.2, true))
      (hapi : apiCall i c = some (given (ediStringpoolAlloc i.pools r.length).1
        (ediStringpoolAlloc i.pools r.length).2))
      (hpools : ∀ pools v, (given pools v).pools = pools)
      (hfinish : ∀ a v, (finish a v).pools = a)
      (hstores : ∀ a pools v, PoolArrays.Stores a pools →
        PoolArrays.Sized pools → (finish a v).Stores (given pools v))

theorem stringRequest_elementAdd {i : HeapInterchange} {k j : Nat}
    {s : HeapSegment} {el : HeapElement} (hs : i.segments[k]? = some s)
    (hel : s.elements[j]? = some el) (value : Bytes) (ok : Allocs) :
    stringRequest i ok (.elementAdd k j value)
      = match el.data with
        | .untyped =>
          some ⟨decide (el.segment.base = i.base), value.length, ok⟩
        | .simple _ _ | .composite _ =>
          if ok 0 && ok 1 then
            some ⟨decide (el.segment.base = i.base), value.length, ok.behind 2⟩
          else none := by
  simp only [stringRequest, hs, hel, Option.bind_eq_bind, Option.bind_some]

section Cases

variable {m : MemInterchange} {i : HeapInterchange} (h : m.Stores i)
include h

theorem segmentCreate_cases {base : Nat} {tag : Option Bytes}
    (hvalid : i.Valid (.segmentCreate base tag)) (ok : Allocs) :
    CallCases m i (.segmentCreate base tag) ok := by
  have hcall : apiCallMemory m ok (.segmentCreate base tag)
      = ediSegmentCreateMemory m base tag ok := rfl
  rw [ediSegmentCreateMemory] at hcall
  have hempty : MemSegment.Stores ⟨[], 0, none⟩ ⟨[], none⟩ :=
    ⟨rfl, Holds.nil _ _, rfl⟩
  by_cases h0 : ok 0 = true
  · rw [if_pos h0] at hcall
    cases tag with
    | none =>
      refine .done _ _ (by simp [stringRequest]) hcall rfl ?_
      exact h.push h.pools h.sized hempty base
    | some tag =>
      have hlen : m.nsegments < (resize m.segments (m.nsegments + 1)).length := by
        simp
      have hslot := slot_set_self (a := MemSegment.mk [] 0 none) hlen
      by_cases h1 : ok 1 = true
      · have h1' : ok.behind 1 0 = true := h1
        have hcreate := ediElementCreateMemory_some (m := { m with
            base := base
            segments := (resize m.segments (m.nsegments + 1)).set m.nsegments
              (some ⟨[], 0, none⟩) }) hslot h1' tag
        rw [Allocs.behind_behind] at hcreate
        refine .string ⟨true, tag.length, ok.behind 2⟩
          (by simp [stringRequest, h0, h1]) rfl (hvalid tag rfl)
          (fun a v => {
            base := base
            segments := (resize m.segments (m.nsegments + 1)).set m.nsegments
              (some ⟨[some ⟨⟨base, m.nsegments⟩, .simple v tag.length⟩], 1,
                some v⟩)
            nsegments := m.nsegments + 1
            pools := a })
          (fun pools v => {
            base := base
            segments := i.segments ++ [HeapSegment.mk
              [⟨⟨base, i.segments.length⟩, .simple v tag.length⟩] (some v)]
            pools := pools }) ?_
          (ediSegmentCreate_eq i base tag) (fun _ _ => rfl) (fun _ _ => rfl) ?_
        · rw [hcall]
          simp only [hcreate, Option.bind_eq_bind]
          cases m.pools.stringpoolAlloc tag.length (ok.behind (1 + 1)) with
          | none => rfl
          | some x => simp [resize, List.set_set]
        · intro a pools v ha hsized
          rw [h.nsegments]
          have helement : MemElement.Stores
              ⟨⟨base, i.segments.length⟩, .simple v tag.length⟩
              ⟨⟨base, i.segments.length⟩, .simple v tag.length⟩ :=
            ⟨rfl, .simple v tag.length⟩
          have hpush := h.push ha hsized
            (hempty.push helement (t := some v) rfl) base
          rw [h.nsegments] at hpush
          exact hpush
      · have h1' : ok.behind 1 0 = false := eq_false_of_ne_true h1
        have hcreate := ediElementCreateMemory_failed (m := { m with
            base := base
            segments := (resize m.segments (m.nsegments + 1)).set m.nsegments
              (some ⟨[], 0, none⟩) }) hslot h1' (some tag)
        refine .failed _ (by simp [stringRequest, h1]) ?_
          (h.spare (some ⟨[], 0, none⟩) base)
        rw [hcall]
        simp only [hcreate]
        rfl
  · rw [if_neg h0] at hcall
    exact .failed m (by simp [stringRequest, h0]) hcall h.self

theorem elementCreate_cases {k : Nat} {value : Option Bytes}
    (hvalid : i.Valid (.elementCreate k value)) (ok : Allocs) :
    CallCases m i (.elementCreate k value) ok := by
  obtain ⟨hk, hlength⟩ := hvalid
  have hs' : i.segments[k]? = some i.segments[k] := List.getElem?_eq_getElem hk
  obtain ⟨s, hs, hstores⟩ := h.segments.slot_eq hs'
  have hcall : apiCallMemory m ok (.elementCreate k value)
      = ediElementCreateMemory m k value ok := rfl
  by_cases h0 : ok 0 = true
  · cases value with
    | none =>
      have huntyped : MemElement.Stores ⟨⟨m.base, k⟩, .untyped⟩
          ⟨⟨i.base, k⟩, .untyped⟩ := ⟨by rw [h.base], .untyped⟩
      refine .done _ _ (by simp [stringRequest]) ?_ (ediElementCreate_null hs')
        (h.put h.pools h.sized (hstores.push huntyped hstores.tag) k)
      rw [hcall]
      simp [ediElementCreateMemory, hs, h0, MemInterchange.setSegment]
    | some value =>
      refine .string ⟨true, value.length, ok.behind 1⟩
        (by simp [stringRequest, h0]) rfl (hlength value rfl)
        (fun a v => { m with
          pools := a
          segments := m.segments.set k (some
            ⟨(resize s.elements (s.nelements + 1)).set s.nelements
                (some ⟨⟨m.base, k⟩, .simple v value.length⟩),
              s.nelements + 1,
              if s.nelements = 0 then some v else s.tag⟩) })
        (fun pools v => { i with
          pools := pools
          segments := i.segments.set k (HeapSegment.mk
            (i.segments[k].elements ++ [⟨⟨i.base, k⟩, .simple v value.length⟩])
            (if i.segments[k].elements = [] then some v
              else i.segments[k].tag)) })
        (hcall.trans (ediElementCreateMemory_some hs h0 value))
        (ediElementCreate_eq hs' value) (fun _ _ => rfl) (fun _ _ => rfl) ?_
      intro a pools v ha hsized
      have helement : MemElement.Stores
          ⟨⟨m.base, k⟩, .simple v value.length⟩
          ⟨⟨i.base, k⟩, .simple v value.length⟩ :=
        ⟨by rw [h.base], .simple v value.length⟩
      refine h.put ha hsized (hstores.push helement ?_) k
      rw [hstores.nelements, hstores.tag]
      simp only [List.length_eq_zero_iff]
  · refine .failed m (by simp [stringRequest, h0]) ?_ h.self
    rw [hcall]
    exact ediElementCreateMemory_failed hs (eq_false_of_ne_true h0) value

/-- `edi_element_add` down to its string, with the data and the tag of each of the
three kinds of elements. -/
theorem elementAdd_string {k j : Nat} {value : Bytes} (ok : Allocs)
    {s : MemSegment} {s' : HeapSegment} {el : MemElement} {el' : HeapElement}
    (hlength : value.length < 2 ^ 64) (hs' : i.segments[k]? = some s')
    (hs : slot m.segments k = some s) (hstores : s.Stores s')
    (hel' : s'.elements[j]? = some el') (hel : slot s.elements j = some el)
    (hback : el.segment = el'.segment)
    (left : Allocs) (data : StringPtr → MemData)
    (tag : StringPtr → Option StringPtr)
    (hrequest : stringRequest i ok (.elementAdd k j value)
      = some ⟨decide (el'.segment.base = i.base), value.length, left⟩)
    (hreached : el.data = .untyped ∨ ok 0 = true ∧ ok 1 = true)
    (hplaced : el.segment.base = m.base → ediElementAddMemory m k j value ok
      = (m.pools.stringpoolAlloc value.length left).map fun x =>
        ({ m with
          pools := x.1
          segments := m.segments.set k (some
            ⟨s.elements.set j (some ⟨el.segment, data x.2⟩), s.nelements,
              tag x.2⟩) }, true))
    (hdatas : ∀ v, (data v).Stores (el'.data.add v value.length))
    (htags : ∀ v, tag v = if el'.data = .untyped ∧ el'.segment.index = k ∧ j = 0
      then some v else s'.tag) :
    CallCases m i (.elementAdd k j value) ok := by
  by_cases hplace : el'.segment.base = i.base
  · have hbase : el.segment.base = m.base := by
      rw [hback, h.base]
      exact hplace
    refine .string _ hrequest (by simpa using hplace) hlength
      (fun a v => { m with
        pools := a
        segments := m.segments.set k (some
          ⟨s.elements.set j (some ⟨el.segment, data v⟩), s.nelements,
            tag v⟩) })
      (fun pools v => { i with
        pools := pools
        segments := i.segments.set k (HeapSegment.mk
          (s'.elements.set j ⟨el'.segment, el'.data.add v value.length⟩)
          (if el'.data = .untyped ∧ el'.segment.index = k ∧ j = 0 then some v
            else s'.tag)) })
      (hplaced hbase) (ediElementAdd_some hs' hel' hplace value)
      (fun _ _ => rfl) (fun _ _ => rfl) ?_
    intro a pools v ha hsized
    have helement : MemElement.Stores ⟨el.segment, data v⟩
        ⟨el'.segment, el'.data.add v value.length⟩ :=
      ⟨hback, hdatas v⟩
    exact h.put ha hsized (hstores.set helement (htags v) j) k
  · have hbase : el.segment.base ≠ m.base := by
      rw [hback, h.base]
      exact hplace
    exact .astray _ hrequest (by simpa using hplace)
      (ediElementAddMemory_astray hs hel hbase value hreached)

theorem elementAdd_cases {k j : Nat} {value : Bytes}
    (hvalid : i.Valid (.elementAdd k j value)) (ok : Allocs) :
    CallCases m i (.elementAdd k j value) ok := by
  obtain ⟨⟨s', hs', hj⟩, hlength⟩ := hvalid
  have hel' : s'.elements[j]? = some s'.elements[j] :=
    List.getElem?_eq_getElem hj
  obtain ⟨s, hs, hstores⟩ := h.segments.slot_eq hs'
  obtain ⟨el, hel, helstores⟩ := hstores.elements.slot_eq hel'
  have hcall : apiCallMemory m ok (.elementAdd k j value)
      = ediElementAddMemory m k j value ok := rfl
  have hback := helstores.segment
  have hdata := helstores.data
  have hrequest := stringRequest_elementAdd hs' hel' value ok
  have hstring :=
    elementAdd_string h ok hlength hs' hs hstores hel' hel hback
  generalize hd' : s'.elements[j].data = d' at hdata hstring hrequest
  generalize hd : el.data = d at hdata
  cases hdata with
  | untyped =>
    refine hstring ok (fun v => .simple v value.length)
      (fun v => if el.segment.index = k ∧ j = 0 then some v else s.tag)
      hrequest (Or.inl hd)
      (fun hbase => ediElementAddMemory_untyped hs hel hd hbase value ok)
      (fun v => .simple v value.length) ?_
    intro v
    rw [hback, hstores.tag]
    simp
  | simple v vl =>
    by_cases hok : ok 0 = true ∧ ok 1 = true
    · refine hstring (ok.behind 2)
        (fun v' => .composite [some v, some v'] [some vl, some value.length] 2)
        (fun _ => s.tag) (hrequest.trans (by simp [hok])) (Or.inr hok)
        (fun hbase => ediElementAddMemory_simple hs hel hd hbase value hok.1
          hok.2)
        (fun v' => MemData.stores_pair v v' vl value.length) ?_
      intro v'
      simpa using hstores.tag
    · have hnot : (ok 0 && ok 1) = false := by simpa using hok
      refine .failed m (hrequest.trans (by simp [hnot])) ?_ h.self
      rw [hcall]
      simp [ediElementAddMemory, hs, hel, hd, hnot]
  | @composite vp lp vs hv hl =>
    by_cases hok : ok 0 = true ∧ ok 1 = true
    · refine hstring (ok.behind 2) _ (fun _ => s.tag)
        (hrequest.trans (by simp [hok])) (Or.inr hok)
        (fun hbase => ediElementAddMemory_composite hs hel hd hbase value hok.1
          hok.2)
        (fun v => MemData.stores_push hv hl v value.length) ?_
      intro v
      simpa using hstores.tag
    · have hnot : (ok 0 && ok 1) = false := by simpa using hok
      by_cases h0 : ok 0 = true
      · have h1 : ok 1 = false := by simpa [h0] using hnot
        have helement : MemElement.Stores
            ⟨el.segment, .composite (resize vp (vs.length + 1)) lp vs.length⟩
            s'.elements[j] :=
          ⟨hback, by
            rw [hd']
            exact MemData.stores_resize hv hl (Nat.le_succ _)⟩
        have hsame := hstores.set helement hstores.tag j
        rw [set_of_getElem? hel'] at hsame
        refine .failed _ (hrequest.trans (by simp [hnot])) ?_
          (h.same hs' hsame).self
        rw [hcall]
        simp [ediElementAddMemory, hs, hel, hd, h0, h1]
      · refine .failed m (hrequest.trans (by simp [hnot])) ?_ h.self
        rw [hcall]
        simp [ediElementAddMemory, hs, hel, hd, h0]

end Cases

theorem apiCallMemory_cases {m : MemInterchange} {i : HeapInterchange}
    (h : m.Stores i) {c : ApiCall} (hvalid : i.Valid c) (ok : Allocs) :
    CallCases m i c ok := by
  cases c with
  | segmentCreate base tag => exact segmentCreate_cases h hvalid ok
  | elementCreate k value => exact elementCreate_cases h hvalid ok
  | elementAdd k j value => exact elementAdd_cases h hvalid ok

/-! ## Runs of calls that may fail -/

/-- Whatever fails, the memory holds an interchange. -/
theorem Built.stores {m : MemInterchange} (h : Built m) :
    ∃ i, m.Stores i := by
  cases h with
  | create => exact ⟨_, MemInterchange.stores_create⟩
  | call hm hi hc hcall =>
    cases apiCallMemory_cases hi hc _ with
    | failed m' _ hcall' hstores =>
      rw [hcall', Option.some.injEq, Prod.mk.injEq] at hcall
      exact ⟨_, hcall.1 ▸ hstores⟩
    | done m' i' _ hcall' _ hstores =>
      rw [hcall', Option.some.injEq, Prod.mk.injEq] at hcall
      exact ⟨_, hcall.1 ▸ hstores⟩
    | astray r _ _ hcall' =>
      rw [hcall'] at hcall
      cases hcall
    | string r _ _ hlength finish given hcall' _ _ _ hstores =>
      rw [hcall', Option.map_eq_some_iff] at hcall
      obtain ⟨x, hx, hm'⟩ := hcall
      rw [Prod.mk.injEq] at hm'
      cases hi.pools.allocCases hi.sized hlength r.ok with
      | done a' halloc hpools _ hsized _ _ =>
        obtain rfl := Option.some.inj (halloc.symm.trans hx)
        exact ⟨_, hm'.1 ▸ hstores _ _ _ hpools hsized⟩
      | wrapped init p a' _ _ halloc hpools _ hsized =>
        obtain rfl := Option.some.inj (halloc.symm.trans hx)
        exact ⟨_, hm'.1 ▸ hstores _ _ _ hpools hsized⟩
      | astray _ _ halloc =>
        rw [halloc] at hx
        cases hx

/-- A length that wraps would have needed another pool. -/
theorem ediStringpoolAlloc_length_of_wraps {init : List Pool} {p : Pool} {n : Nat}
    (hsized : PoolArrays.Sized (init ++ [p])) (hwraps : 2 ^ 64 ≤ p.fill + n) :
    (ediStringpoolAlloc (init ++ [p]) n).1.length = init.length + 2 := by
  obtain ⟨init', p', hpools, -, hroom, -, hold⟩ :=
    ediStringpoolAlloc_spec (init ++ [p]) n
  rcases hold with hold | ⟨hold, -⟩
  · obtain ⟨rfl, hp⟩ := List.append_inj' hold rfl
    obtain rfl : p = p' := List.head_eq_of_cons_eq hp
    have hsmall := (PoolArrays.sized_concat.1 hsized).2.2
    omega
  · rw [hpools, ← hold]
    simp

/-- A call does all that it should or nothing, exactly if its string can be had. -/
theorem atomic_iff {m : MemInterchange} {i : HeapInterchange} (h : m.Stores i)
    {c : ApiCall} (hvalid : i.Valid c) (ok : Allocs) :
    Atomic m i c ok ↔ Provided i c ok := by
  cases apiCallMemory_cases h hvalid ok with
  | failed m' hrequest hcall hstores =>
    refine iff_of_true ⟨m', false, hcall, by simpa using hstores⟩ ?_
    simp [Provided, hrequest]
  | done m' i' hrequest hcall hapi hstores =>
    refine iff_of_true ⟨m', true, hcall, ?_⟩ ?_
    · simpa using ⟨i', hapi, hstores⟩
    · simp [Provided, hrequest]
  | astray r hrequest hplace hcall =>
    refine iff_of_false ?_ ?_
    · rintro ⟨m', done, hdone, -⟩
      rw [hcall] at hdone
      cases hdone
    · intro hprovided
      have htrue := (hprovided r hrequest).1
      rw [hplace] at htrue
      cases htrue
  | string r hrequest hplace hlength finish given hcall hapi hpools hfinish
      hstores =>
    have hprovided : Provided i c ok ↔ PoolArrays.Fit i.pools r.length ∧
        (PoolArrays.HasRoom i.pools r.length ∨ r.ok 0 = true ∧ r.ok 1 = true ∧
          r.ok 2 = true ∧ r.ok 3 = true) := by
      simp [Provided, hrequest, hplace]
    rw [hprovided]
    cases h.pools.allocCases h.sized hlength r.ok with
    | done a' halloc hstored _ hsized hfit hroom =>
      have hdone : apiCallMemory m ok c = some (finish a'
          (ediStringpoolAlloc i.pools r.length).2, true) := by
        rw [hcall, halloc]
        rfl
      refine iff_of_true ⟨_, true, hdone, ?_⟩ ⟨hfit, hroom⟩
      rw [if_pos rfl]
      exact ⟨_, hapi, hstores _ _ _ hstored hsized⟩
    | wrapped init p a' hinit hwraps halloc hstored _ hsized =>
      refine iff_of_false ?_ ?_
      · rintro ⟨m', done, hdone, hresult⟩
        rw [hcall, halloc, Option.map_some, Option.some.injEq,
          Prod.mk.injEq] at hdone
        obtain ⟨rfl, rfl⟩ := hdone
        rw [if_pos rfl] at hresult
        obtain ⟨i', hi', hresult⟩ := hresult
        obtain rfl := Option.some.inj (hapi.symm.trans hi')
        have hlen := hresult.pools.npools
        have hold := h.sized
        rw [hinit] at hold
        rw [hfinish, hpools, hinit,
          ediStringpoolAlloc_length_of_wraps hold hwraps, hstored.npools] at hlen
        simp at hlen
      · rintro ⟨hfit, -⟩
        have hlt := hfit p (by simp [hinit])
        omega
    | astray hroom hok halloc =>
      refine iff_of_false ?_ fun hboth => hboth.2.elim hroom hok
      rintro ⟨m', done, hdone, -⟩
      rw [hcall, halloc] at hdone
      cases hdone

/-- In every interchange that is built, by calls that may fail as they like, another
call is atomic exactly if its string can be had. -/
theorem apiCallMemory_atomic_iff {m : MemInterchange} (h : Built m) :
    (∃ i, m.Stores i) ∧ ∀ i, m.Stores i → ∀ c, i.Valid c → ∀ ok,
      (Atomic m i c ok ↔ Provided i c ok) :=
  ⟨h.stores, fun _ hi _ hc ok => atomic_iff hi hc ok⟩

/-- The call for a segment `A`. -/
def segmentACall : ApiCall := .segmentCreate 4096 (some (ascii "A"))

/-- The interchange with that segment. -/
def segmentABuilt : HeapInterchange :=
  (apiCall ediInterchangeCreate segmentACall).getD ediInterchangeCreate

/-- The array of segments can be had and the array of elements cannot.  Where there is
a segment, another value makes its element a composite, and the second of the two
arrays for it cannot be had. -/
theorem apiCallMemory_atomic_failed :
    Atomic .create ediInterchangeCreate segmentACall (fun c => decide (c = 0)) ∧
    ∃ m, apiCallMemory .create .all segmentACall = some (m, true) ∧
      m.Stores segmentABuilt ∧ segmentABuilt.segments.length = 1 ∧
      Atomic m segmentABuilt (.elementAdd 0 0 (ascii "b"))
        (fun c => decide (c = 0)) := by
  have hvalid : ediInterchangeCreate.Valid segmentACall := by
    intro t ht
    obtain rfl := Option.some.inj ht
    decide
  obtain ⟨-, hatomic⟩ := apiCallMemory_atomic_iff Built.create
  have hcreate := hatomic _ MemInterchange.stores_create _ hvalid
  refine ⟨(hcreate _).2 ?_, ?_⟩
  · intro r hr
    simp [segmentACall, stringRequest] at hr
  · have hprovided : Provided ediInterchangeCreate segmentACall .all := by
      intro r hr
      obtain rfl := Option.some.inj hr
      refine ⟨rfl, ?_, Or.inr ⟨rfl, rfl, rfl, rfl⟩⟩
      exact fun p hp => absurd hp (Option.not_mem_none p)
    obtain ⟨m, done, hcall, hdone⟩ := (hcreate _).2 hprovided
    have htrue : (apiCallMemory .create .all segmentACall).map Prod.snd
        = some true := by decide +kernel
    rw [hcall, Option.map_some, Option.some.injEq] at htrue
    obtain rfl : done = true := htrue
    rw [if_pos rfl] at hdone
    obtain ⟨i, hi, hstores⟩ := hdone
    obtain rfl : segmentABuilt = i := by rw [segmentABuilt, hi, Option.getD_some]
    have hbuilt := Built.create.call MemInterchange.stores_create hvalid hcall
    refine ⟨m, hcall, hstores, by decide +kernel,
      ((apiCallMemory_atomic_iff hbuilt).2 _ hstores _ ?_ _).2 ?_⟩
    · exact ⟨⟨_, List.getElem?_eq_getElem (by decide +kernel), by decide +kernel⟩,
        by decide⟩
    · have hnone : stringRequest segmentABuilt (fun c => decide (c = 0))
          (.elementAdd 0 0 (ascii "b")) = none := rfl
      intro r hr
      rw [hnone] at hr
      cases hr

/-- Both arrays can be had, but nothing for the first pool. -/
theorem apiCallMemory_not_atomic :
    MemInterchange.create.Stores ediInterchangeCreate ∧
      ¬ Atomic .create ediInterchangeCreate
        (.segmentCreate 0 (some (ascii "A"))) (fun c => decide (c < 2)) := by
  refine ⟨MemInterchange.stores_create, ?_⟩
  rintro ⟨m', done, hcall, -⟩
  have hnone : apiCallMemory .create (fun c => decide (c < 2))
      (.segmentCreate 0 (some (ascii "A"))) = none := by decide +kernel
  rw [hnone] at hcall
  cases hcall

end Libedi
