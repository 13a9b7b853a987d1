import Libedi.BuilderApi

/-!
# The fields of an element

`edi_element_t` is a union.  `edi_element_create` clears its type only, because
`memset` is given the size of a pointer, and without a value it stores nothing
else.  The two functions that read the elements test the type differently:
`edi_interchange_build` takes whatever is not simple for a composite, and
`edi_interchange_destroy` whatever is not composite for simple.

Here are the fields that the two of them read, element by element.  Whether such a
field was stored before can be asked in two ways: for the member of the union
itself (`FieldRead.ByMember`), or for the memory that it lies in, which may have
been stored as another member (`FieldRead.ByWord`).  `apiCalls_reads_iff` answers
both.
-/

namespace Libedi

/-! ## Calls without a value -/

/-- A call of the building functions, which may be given `NULL` for the tag or for
the value. -/
inductive ApiCall where
  | segmentCreate (base : Nat) (tag : Option Bytes)
  | elementCreate (k : Nat) (value : Option Bytes)
  | elementAdd (k j : Nat) (value : Bytes)
  deriving DecidableEq, Repr

/-- A call. -/
def apiCall (i : HeapInterchange) : ApiCall → Option HeapInterchange
  | .segmentCreate base tag => ediSegmentCreate i base tag
  | .elementCreate k value => ediElementCreate i k value
  | .elementAdd k j value => ediElementAdd i k j value

/-- A run of calls, `none` if one of them goes astray. -/
def apiCalls (i : HeapInterchange) (calls : List ApiCall) :
    Option HeapInterchange :=
  calls.foldlM apiCall i

/-- The number of values that each element was given, behind a call. -/
def countsCall (counts : List (List Nat)) : ApiCall → List (List Nat)
  | .segmentCreate _ tag => counts ++ [if tag.isSome then [1] else []]
  | .elementCreate k value =>
    counts.modify k (· ++ [if value.isSome then 1 else 0])
  | .elementAdd k j _ => counts.modify k (·.modify j (· + 1))

/-- The number of values that the elements were given, segment by segment. -/
def givenCounts (calls : List ApiCall) : List (List Nat) :=
  calls.foldl countsCall []

/-! ## Fields and reads -/

/-- The fields of `edi_element_t`, without the type and the segment. -/
inductive ElementField where
  | value
  | valuelen
  | values
  | valuelens
  | nvalues
  deriving DecidableEq, Repr

/-- The word of the union that a field lies in. -/
def ElementField.word : ElementField → Nat
  | value | values => 0
  | valuelen | valuelens => 1
  | nvalues => 2

/-- The fields that were stored in an element. -/
def ElementData.fields : ElementData → List ElementField
  | .untyped => []
  | .simple _ _ => [.value, .valuelen]
  | .composite _ => [.values, .valuelens, .nvalues]

/-- A field of an element is read. -/
structure FieldRead where
  data : ElementData
  field : ElementField
  deriving DecidableEq, Repr

/-- This member of the union was stored. -/
def FieldRead.ByMember (r : FieldRead) : Prop := r.field ∈ r.data.fields

/-- Its memory was stored, maybe as another member. -/
def FieldRead.ByWord (r : FieldRead) : Prop :=
  ∃ f ∈ r.data.fields, f.word = r.field.word

/-! ## What is read -/

/-- `edi_interchange_destroy` reads of an element. -/
def destroyReads : ElementData → List ElementField
  | .composite vs =>
    vs.flatMap (fun _ => [.nvalues, .values]) ++ [.nvalues, .values, .valuelens]
  | _ => [.value]

/-- `edi_interchange_destroy`. -/
def ediInterchangeDestroyReads (i : HeapInterchange) : List FieldRead :=
  i.segments.flatMap fun s => s.elements.flatMap fun e =>
    (destroyReads e.data).map (⟨e.data, ·⟩)

section Build

variable (pun : List EdiValue → EdiValue) (params : EdiParams) (buflen : Nat)

/-- `buildValue`: the check for a header and then the value, whose fields are
`own`. -/
def buildValueReads (hdr : Option (Bytes × Bytes)) (check : EdiValue)
    (own : List ElementField) (st : BuildState) : List ElementField :=
  match hdr with
  | none => own
  | some (hdrname, hdrtrail) =>
    .valuelen ::
      (if hdrname.length == check.valuelen then [.value, .valuelen] else []) ++
      if isHeader hdrname check then own
      else
        let st := st.escaped buflen hdrname params
        if buflen ≤ st.w.pos then []
        else
          match st.hdrtrailer buflen hdrtrail params with
          | none => []
          | some st => if buflen ≤ st.w.pos then [] else own

/-- `buildComposite`, with the test of its loop. -/
def buildCompositeReads (hdr : Option (Bytes × Bytes)) (check : EdiValue)
    (st : BuildState) : List EdiValue → List ElementField
  | [] => [.nvalues]
  | v :: vs =>
    .nvalues :: buildValueReads params buflen hdr check [.values, .valuelens] st ++
      match buildValue params buflen hdr check v.value st with
      | none => []
      | some st =>
        if buflen ≤ st.w.pos then []
        else
          .nvalues ::
            let st := if vs.isEmpty then st
              else st.separator params.subelementSeparator
            if buflen ≤ st.w.pos then []
            else buildCompositeReads none check st vs

/-- `buildElement`. -/
def buildElementReads (hdr : Option (Bytes × Bytes)) (st : BuildState) :
    EdiElement → List ElementField
  | .simple v => buildValueReads params buflen hdr v [.value, .valuelen] st
  | .composite vs => buildCompositeReads params buflen hdr (pun vs) st vs
  | .untyped => buildCompositeReads params buflen hdr (pun []) st []

/-- `buildElements`. -/
def buildElementsReads (pools : List Pool) (hdr : Option (Bytes × Bytes))
    (first : Bool) (st : BuildState) : List ElementData → List FieldRead
  | [] => []
  | d :: ds =>
    let hdr' := if first then hdr else none
    (buildElementReads pun params buflen hdr' st (d.view pools)).map (⟨d, ·⟩) ++
      match buildElement pun params buflen hdr' st (d.view pools) with
      | none => []
      | some st =>
        if buflen ≤ st.w.pos then []
        else
          let st := if ds.isEmpty then st
            else st.separator
              (if first then params.tagSeparator else params.elementSeparator)
          if buflen ≤ st.w.pos then []
          else buildElementsReads pools hdr false st ds

/-- `buildSegments`. -/
def buildSegmentsReads (pools : List Pool) (hdr : Option (Bytes × Bytes))
    (first : Bool) (st : BuildState) : List HeapSegment → List FieldRead
  | [] => []
  | s :: ss =>
    let hdr' := if first then hdr else none
    buildElementsReads pun params buflen pools hdr' true st
        (s.elements.map (·.data)) ++
      match buildElements pun params buflen hdr' true st
        (s.view pools).elements with
      | none => []
      | some st =>
        if buflen ≤ st.w.pos then []
        else
          match buildTrailer params buflen hdr st with
          | none => []
          | some st =>
            if buflen ≤ st.w.pos then []
            else
              buildSegmentsReads pools hdr false
                { st with dohdrtrailer := false } ss

end Build

/-- `edi_interchange_build`. -/
def ediInterchangeBuildReads (pun : List EdiValue → EdiValue)
    (i : HeapInterchange) (params : Option EdiParams) (mem : Nat → UInt8)
    (buflen : UInt64) : List FieldRead :=
  let params := params.getD ediDefaultParams
  buildSegmentsReads pun params buflen.toNat i.pools (headerOf params) true
    ⟨⟨⟨mem, []⟩, 0⟩, false⟩ i.segments

/-- All reads of the two functions are good ones, for any parameters and any
buffer. -/
def WellRead (P : FieldRead → Prop) (i : HeapInterchange) : Prop :=
  (∀ r ∈ ediInterchangeDestroyReads i, P r) ∧
    ∀ pun params mem buflen,
      ∀ r ∈ ediInterchangeBuildReads pun i params mem buflen, P r

/-! ## Calls and counts -/

/-- What adding a value does to the segments. -/
theorem ediElementAdd_cases {i i' : HeapInterchange} {k j : Nat} {value : Bytes}
    (h : ediElementAdd i k j value = some i') :
    ∃ s el t, i.segments[k]? = some s ∧ s.elements[j]? = some el ∧
      i'.segments = i.segments.set k ⟨s.elements.set j { el with
        data := el.data.add (ediStringpoolAlloc i.pools value.length).2
          value.length }, t⟩ := by
  have hfind := h
  simp only [ediElementAdd, Option.bind_eq_bind, Option.bind_eq_some_iff]
    at hfind
  obtain ⟨s, hs, el, hel, hfind⟩ := hfind
  by_cases hbase : el.segment.base = i.base
  · rw [ediElementAdd_some hs hel hbase, Option.some.injEq] at h
    subst h
    exact ⟨s, el, _, hs, hel, rfl⟩
  · simp [hbase] at hfind

/-- A new element without a value. -/
theorem ediElementCreate_null {i : HeapInterchange} {k : Nat} {s : HeapSegment}
    (hs : i.segments[k]? = some s) :
    ediElementCreate i k none = some { i with
      segments := i.segments.set k { s with
        elements := s.elements ++ [⟨⟨i.base, k⟩, .untyped⟩] } } := by
  unfold ediElementCreate
  simp only [hs, Option.bind_eq_bind, Option.bind_some,
    modify_eq_set_of_getElem? hs]
  rfl

/-- What a call does to the segments: there is one more of them, with no more than
one element, or one of them has one more element or one more value. -/
theorem apiCall_cases {i i' : HeapInterchange} {c : ApiCall}
    (h : apiCall i c = some i') :
    (∃ base tag es t, c = .segmentCreate base tag ∧
      i'.segments = i.segments ++ [⟨es, t⟩] ∧
      (tag = none ∧ es = [] ∨ ∃ v q n back, tag = some v ∧
        es = [⟨back, .simple q n⟩])) ∨
    (∃ k value s t back d, c = .elementCreate k value ∧
      i.segments[k]? = some s ∧
      i'.segments = i.segments.set k ⟨s.elements ++ [⟨back, d⟩], t⟩ ∧
      (value = none ∧ d = .untyped ∨
        ∃ v q n, value = some v ∧ d = .simple q n)) ∨
    (∃ k j value s t el q n, c = .elementAdd k j value ∧
      i.segments[k]? = some s ∧ s.elements[j]? = some el ∧
      i'.segments = i.segments.set k
        ⟨s.elements.set j { el with data := el.data.add q n }, t⟩) := by
  cases c with
  | segmentCreate base tag =>
    refine Or.inl ⟨base, tag, ?_⟩
    cases tag with
    | none =>
      obtain rfl := Option.some.inj h
      exact ⟨[], none, rfl, rfl, Or.inl ⟨rfl, rfl⟩⟩
    | some v =>
      rw [apiCall, ediSegmentCreate_eq, Option.some.injEq] at h
      subst h
      exact ⟨_, _, rfl, rfl, Or.inr ⟨v, _, _, _, rfl, rfl⟩⟩
  | elementCreate k value =>
    have hs : ∃ s, i.segments[k]? = some s := by
      rw [apiCall, ediElementCreate, Option.bind_eq_bind,
        Option.bind_eq_some_iff] at h
      exact h.imp fun _ hs => hs.1
    obtain ⟨s, hs⟩ := hs
    refine Or.inr (Or.inl ⟨k, value, s, ?_⟩)
    cases value with
    | none =>
      rw [apiCall, ediElementCreate_null hs, Option.some.injEq] at h
      subst h
      exact ⟨_, _, _, rfl, hs, rfl, Or.inl ⟨rfl, rfl⟩⟩
    | some v =>
      rw [apiCall, ediElementCreate_eq hs, Option.some.injEq] at h
      subst h
      exact ⟨_, _, _, rfl, hs, rfl, Or.inr ⟨v, _, _, rfl, rfl⟩⟩
  | elementAdd k j value =>
    obtain ⟨s, el, t, hs, hel, hsegments⟩ := ediElementAdd_cases h
    exact Or.inr (Or.inr ⟨k, j, value, s, t, el, _, _, rfl, hs, hel,
      hsegments⟩)

/-- The number of strings of each element. -/
def HeapInterchange.counts (i : HeapInterchange) : List (List Nat) :=
  i.segments.map fun s => s.elements.map fun e => e.data.strings.length

theorem apiCall_counts {i i' : HeapInterchange} {c : ApiCall}
    (h : apiCall i c = some i') : i'.counts = countsCall i.counts c := by
  rcases apiCall_cases h with
    ⟨base, tag, es, t, rfl, hsegments, hes⟩ |
      ⟨k, value, s, t, back, d, rfl, hs, hsegments, hd⟩ |
        ⟨k, j, value, s, t, el, q, n, rfl, hs, hel, hsegments⟩
  · rcases hes with ⟨rfl, rfl⟩ | ⟨v, q, n, back, rfl, rfl⟩ <;>
      simp [HeapInterchange.counts, countsCall, hsegments, ElementData.strings]
  · have hcounts : i.counts[k]?
        = some (s.elements.map fun e => e.data.strings.length) := by
      simp [HeapInterchange.counts, hs]
    rw [countsCall, modify_eq_set_of_getElem? hcounts, HeapInterchange.counts,
      hsegments, List.map_set]
    rcases hd with ⟨rfl, rfl⟩ | ⟨v, q, n, rfl, rfl⟩ <;>
      simp [HeapInterchange.counts, ElementData.strings]
  · have hcounts : i.counts[k]?
        = some (s.elements.map fun e => e.data.strings.length) := by
      simp [HeapInterchange.counts, hs]
    have hcount : (s.elements.map fun e => e.data.strings.length)[j]?
        = some el.data.strings.length := by
      simp [hel]
    rw [countsCall, modify_eq_set_of_getElem? hcounts,
      modify_eq_set_of_getElem? hcount, HeapInterchange.counts, hsegments,
      List.map_set, List.map_set, ElementData.strings_add]
    simp [HeapInterchange.counts]

/-- A composite has at least two values. -/
def HeapInterchange.Plural (i : HeapInterchange) : Prop :=
  ∀ s ∈ i.segments, ∀ e ∈ s.elements, ∀ vs,
    e.data = .composite vs → 2 ≤ vs.length

theorem apiCall_plural {i i' : HeapInterchange} {c : ApiCall}
    (hplural : i.Plural) (h : apiCall i c = some i') : i'.Plural := by
  rcases apiCall_cases h with
    ⟨base, tag, es, t, rfl, hsegments, hes⟩ |
      ⟨k, value, s, t, back, d, rfl, hs, hsegments, hd⟩ |
        ⟨k, j, value, s, t, el, q, n, rfl, hs, hel, hsegments⟩
  · rw [HeapInterchange.Plural, hsegments, List.forall_mem_append,
      List.forall_mem_singleton]
    refine ⟨hplural, ?_⟩
    rcases hes with ⟨-, rfl⟩ | ⟨v, q, n, back, -, rfl⟩ <;> simp
  · rw [HeapInterchange.Plural, hsegments]
    intro s' hs'
    rcases List.mem_or_eq_of_mem_set hs' with hs' | rfl
    · exact hplural s' hs'
    · rw [List.forall_mem_append, List.forall_mem_singleton]
      refine ⟨hplural s (List.mem_of_getElem? hs), ?_⟩
      rcases hd with ⟨-, rfl⟩ | ⟨v, q, n, -, rfl⟩ <;> simp
  · rw [HeapInterchange.Plural, hsegments]
    intro s' hs'
    rcases List.mem_or_eq_of_mem_set hs' with hs' | rfl
    · exact hplural s' hs'
    · have hold := hplural s (List.mem_of_getElem? hs)
      intro e he
      rcases List.mem_or_eq_of_mem_set he with he | rfl
      · exact hold e he
      · intro vs hvs
        have hel' := hold el (List.mem_of_getElem? hel)
        cases hdata : el.data with
        | untyped => simp [hdata, ElementData.add] at hvs
        | simple v l =>
          obtain rfl : [(v, l), (q, n)] = vs := by
            simpa [hdata, ElementData.add] using hvs
          simp
        | composite ws =>
          obtain rfl : ws ++ [(q, n)] = vs := by
            simpa [hdata, ElementData.add] using hvs
          have hle := hel' ws hdata
          simp
          omega

/-- The elements after a run of calls have as many strings as they were given. -/
theorem apiCalls_counts {i i' : HeapInterchange} {calls : List ApiCall}
    (hplural : i.Plural) (h : apiCalls i calls = some i') :
    i'.counts = calls.foldl countsCall i.counts ∧ i'.Plural := by
  induction calls generalizing i with
  | nil =>
    obtain rfl := Option.some.inj h
    exact ⟨rfl, hplural⟩
  | cons c calls ih =>
    rw [apiCalls, List.foldlM_cons, Option.bind_eq_bind,
      Option.bind_eq_some_iff] at h
    obtain ⟨i₁, hcall, hrest⟩ := h
    rw [List.foldl_cons, ← apiCall_counts hcall]
    exact ih (apiCall_plural hplural hcall) hrest

/-! ## Which fields are read -/

section Reads

variable {pun : List EdiValue → EdiValue} {params : EdiParams} {buflen : Nat}
  {hdr : Option (Bytes × Bytes)} {f : ElementField}

/-- Behind the test for the end of the buffer. -/
theorem mem_of_mem_ite {α : Type*} {c : Prop} [Decidable c] {l : List α} {x : α}
    (h : x ∈ if c then [] else l) : x ∈ l := by
  split at h
  · simp at h
  · exact h

/-- A value is read by its own fields, and the check for a header reads those of a
simple element. -/
theorem mem_buildValueReads {check : EdiValue} {own : List ElementField}
    {st : BuildState}
    (h : f ∈ buildValueReads params buflen hdr check own st) :
    f ∈ own ∨ hdr.isSome = true ∧ (f = .value ∨ f = .valuelen) := by
  cases hdr with
  | none => exact Or.inl h
  | some header =>
    obtain ⟨hdrname, hdrtrail⟩ := header
    simp only [buildValueReads, List.cons_append, List.mem_cons,
      List.mem_append] at h
    rcases h with rfl | h | h
    · exact Or.inr ⟨rfl, Or.inr rfl⟩
    · split at h
      · exact Or.inr ⟨rfl, by simpa using h⟩
      · simp at h
    · refine Or.inl ?_
      split at h
      · exact h
      · have hroom := mem_of_mem_ite h
        split at hroom
        · simp at hroom
        · exact mem_of_mem_ite hroom

theorem mem_buildCompositeReads {check : EdiValue} {st : BuildState}
    {vs : List EdiValue}
    (h : f ∈ buildCompositeReads params buflen hdr check st vs) :
    f ∈ [ElementField.values, .valuelens, .nvalues] ∨
      hdr.isSome = true ∧ (f = .value ∨ f = .valuelen) := by
  induction vs generalizing hdr st with
  | nil =>
    obtain rfl : f = .nvalues := by simpa [buildCompositeReads] using h
    exact Or.inl (by simp)
  | cons v vs ih =>
    simp only [buildCompositeReads, List.cons_append, List.mem_cons,
      List.mem_append] at h
    rcases h with rfl | h | h
    · exact Or.inl (by simp)
    · refine (mem_buildValueReads h).imp_left fun hown => ?_
      simp only [List.mem_cons, List.not_mem_nil, or_false] at hown ⊢
      exact hown.elim Or.inl fun hlen => Or.inr (Or.inl hlen)
    · refine Or.inl ?_
      split at h
      · simp at h
      · rcases List.mem_cons.1 (mem_of_mem_ite h) with rfl | h
        · simp
        · exact (ih (mem_of_mem_ite h)).resolve_right fun hno => by simp at hno

/-- An element with a type is read by its own fields, but for the check of the
header in a composite. -/
theorem mem_buildElementReads {pools : List Pool} {d : ElementData}
    (htyped : d ≠ .untyped) {st : BuildState}
    (h : f ∈ buildElementReads pun params buflen hdr st (d.view pools)) :
    f ∈ d.fields ∨ hdr.isSome = true ∧ (∃ vs, d = .composite vs) ∧
      (f = .value ∨ f = .valuelen) := by
  cases d with
  | untyped => exact absurd rfl htyped
  | simple v l =>
    refine Or.inl ((mem_buildValueReads h).elim id fun hcheck => ?_)
    simpa [ElementData.fields] using hcheck.2
  | composite vs =>
    exact (mem_buildCompositeReads h).imp id fun hcheck =>
      ⟨hcheck.1, ⟨vs, rfl⟩, hcheck.2⟩

/-- A read that finds another member of the union: in the first element, which is a
composite. -/
def HeaderRead (ds : List ElementData) (r : FieldRead) : Prop :=
  ds.head? = some r.data ∧ (∃ vs, r.data = .composite vs) ∧
    (r.field = .value ∨ r.field = .valuelen)

theorem mem_buildElementsReads {pools : List Pool} {ds : List ElementData}
    (htyped : ∀ d ∈ ds, d ≠ .untyped) {first : Bool} {st : BuildState}
    {r : FieldRead}
    (h : r ∈ buildElementsReads pun params buflen pools hdr first st ds) :
    r.ByMember ∨ hdr.isSome = true ∧ first = true ∧ HeaderRead ds r := by
  induction ds generalizing first st with
  | nil => simp [buildElementsReads] at h
  | cons d ds ih =>
    obtain ⟨hd, hds⟩ := List.forall_mem_cons.1 htyped
    rcases List.mem_append.1 h with h | h
    · obtain ⟨f, hf, rfl⟩ := List.mem_map.1 h
      refine (mem_buildElementReads hd hf).imp id ?_
      rintro ⟨hhdr, hcomposite, hfield⟩
      cases first with
      | false => simp at hhdr
      | true => exact ⟨hhdr, rfl, rfl, hcomposite, hfield⟩
    · refine Or.inl ?_
      split at h
      · simp at h
      · have hrest := mem_of_mem_ite (mem_of_mem_ite h)
        exact (ih hds hrest).resolve_right fun hno => by simp at hno

theorem mem_buildSegmentsReads {pools : List Pool} {ss : List HeapSegment}
    (htyped : ∀ s ∈ ss, ∀ e ∈ s.elements, e.data ≠ .untyped) {first : Bool}
    {st : BuildState} {r : FieldRead}
    (h : r ∈ buildSegmentsReads pun params buflen pools hdr first st ss) :
    r.ByMember ∨ hdr.isSome = true ∧ first = true ∧
      ∃ s ∈ ss.head?, HeaderRead (s.elements.map (·.data)) r := by
  induction ss generalizing first st with
  | nil => simp [buildSegmentsReads] at h
  | cons s ss ih =>
    obtain ⟨hs, hss⟩ := List.forall_mem_cons.1 htyped
    rcases List.mem_append.1 h with h | h
    · have hdata : ∀ d ∈ s.elements.map (·.data), d ≠ .untyped := by
        simpa using hs
      refine (mem_buildElementsReads hdata h).imp id ?_
      rintro ⟨hhdr, -, hread⟩
      cases first with
      | false => simp at hhdr
      | true => exact ⟨hhdr, rfl, s, rfl, hread⟩
    · refine Or.inl ?_
      split at h
      · simp at h
      · have hroom := mem_of_mem_ite h
        split at hroom
        · simp at hroom
        · have hrest := mem_of_mem_ite hroom
          exact (ih hss hrest).resolve_right fun hno => by simp at hno

end Reads

/-! ## Counts and fields -/

/-- Every element was given a value. -/
def Filled (counts : List (List Nat)) : Prop := ∀ ns ∈ counts, ∀ n ∈ ns, n ≠ 0

/-- The first element of the first segment was given no more than one. -/
def FirstOnce (counts : List (List Nat)) : Prop :=
  ∀ ns ∈ counts.head?, ∀ n ∈ ns.head?, n ≤ 1

section Counts

variable {i : HeapInterchange} (h : i.Plural)
include h

theorem HeapInterchange.Plural.filled_iff : Filled i.counts ↔
    ∀ s ∈ i.segments, ∀ e ∈ s.elements, e.data ≠ .untyped := by
  simp only [Filled, HeapInterchange.counts, List.forall_mem_map]
  refine forall₂_congr fun s hs => forall₂_congr fun e he => not_congr ?_
  cases hd : e.data with
  | untyped => simp [ElementData.strings]
  | simple v l => simp [ElementData.strings]
  | composite vs =>
    have hle := h s hs e he vs hd
    simp [ElementData.strings]
    rintro rfl
    simp at hle

theorem HeapInterchange.Plural.firstOnce_iff : FirstOnce i.counts ↔
    ∀ s ∈ i.segments.head?, ∀ e ∈ s.elements.head?,
      ∀ vs, e.data ≠ .composite vs := by
  simp only [FirstOnce, HeapInterchange.counts, List.head?_map,
    Option.mem_def, Option.map_eq_some_iff, forall_exists_index, and_imp,
    forall_apply_eq_imp_iff₂]
  refine forall₂_congr fun s hs => forall₂_congr fun e he => ?_
  cases hd : e.data with
  | untyped => simp [ElementData.strings]
  | simple v l => simp [ElementData.strings]
  | composite vs =>
    have hle := h s (List.mem_of_head? hs) e (List.mem_of_head? he) vs hd
    simp only [ElementData.strings]
    exact iff_of_false (by omega) fun hno => hno vs rfl

end Counts

/-! ## The two readings -/

theorem FieldRead.ByMember.byWord {r : FieldRead} (h : r.ByMember) : r.ByWord :=
  ⟨r.field, h, rfl⟩

/-- The check of the header finds the memory of the composite. -/
theorem HeaderRead.byWord {ds : List ElementData} {r : FieldRead}
    (h : HeaderRead ds r) : r.ByWord := by
  obtain ⟨-, ⟨vs, hvs⟩, hfield⟩ := h
  rw [FieldRead.ByWord, hvs]
  rcases hfield with hf | hf
  · exact ⟨.values, by simp [ElementData.fields], by rw [hf]; rfl⟩
  · exact ⟨.valuelens, by simp [ElementData.fields], by rw [hf]; rfl⟩

theorem WellRead.mono {P Q : FieldRead → Prop} {i : HeapInterchange}
    (h : WellRead P i) (hPQ : ∀ r, P r → Q r) : WellRead Q i :=
  ⟨fun r hr => hPQ r (h.1 r hr),
    fun pun params mem buflen r hr => hPQ r (h.2 pun params mem buflen r hr)⟩

section Readings

variable {i : HeapInterchange}

/-- `edi_interchange_destroy` reads the fields that the type says. -/
theorem ediInterchangeDestroyReads_byMember
    (htyped : ∀ s ∈ i.segments, ∀ e ∈ s.elements, e.data ≠ .untyped) :
    ∀ r ∈ ediInterchangeDestroyReads i, r.ByMember := by
  intro r hr
  obtain ⟨s, hs, hr⟩ := List.mem_flatMap.1 hr
  obtain ⟨e, he, hr⟩ := List.mem_flatMap.1 hr
  obtain ⟨f, hf, rfl⟩ := List.mem_map.1 hr
  have hd := htyped s hs e he
  rw [FieldRead.ByMember]
  generalize e.data = d at hf hd ⊢
  cases d with
  | untyped => exact absurd rfl hd
  | simple v l =>
    obtain rfl : f = .value := by simpa [destroyReads] using hf
    simp [ElementData.fields]
  | composite vs =>
    simp only [destroyReads, List.mem_append, List.mem_flatMap, List.mem_cons,
      List.not_mem_nil, or_false] at hf
    rcases hf with ⟨_, -, rfl | rfl⟩ | rfl | rfl | rfl <;>
      simp [ElementData.fields]

/-- An element without a type has no field that could be read. -/
theorem WellRead.typed (h : WellRead FieldRead.ByWord i) :
    ∀ s ∈ i.segments, ∀ e ∈ s.elements, e.data ≠ .untyped := by
  intro s hs e he hd
  have hread : (⟨.untyped, .value⟩ : FieldRead)
      ∈ ediInterchangeDestroyReads i := by
    refine List.mem_flatMap.2 ⟨s, hs, List.mem_flatMap.2 ⟨e, he, ?_⟩⟩
    rw [hd]
    simp [destroyReads]
  obtain ⟨f, hf, -⟩ := h.1 _ hread
  simp [ElementData.fields] at hf

theorem wellRead_byWord_iff : WellRead FieldRead.ByWord i ↔
    ∀ s ∈ i.segments, ∀ e ∈ s.elements, e.data ≠ .untyped := by
  refine ⟨WellRead.typed, fun htyped => ⟨fun r hr => ?_, ?_⟩⟩
  · exact (ediInterchangeDestroyReads_byMember htyped r hr).byWord
  · intro pun params mem buflen r hr
    rcases mem_buildSegmentsReads htyped hr with hr | ⟨-, -, s, -, hr⟩
    · exact hr.byWord
    · exact hr.byWord

/-- The check of the header reads the length of a simple element. -/
theorem headerRead_mem {pun : List EdiValue → EdiValue} {params : EdiParams}
    {header : Bytes × Bytes} (hheader : headerOf params = some header)
    {s : HeapSegment} {ss : List HeapSegment} {e : HeapElement}
    {es : List HeapElement} {vs : List (StringPtr × Nat)}
    (hsegments : i.segments = s :: ss) (helements : s.elements = e :: es)
    (hdata : e.data = .composite vs) (hvs : vs ≠ []) (mem : Nat → UInt8)
    (buflen : UInt64) :
    ⟨.composite vs, .valuelen⟩
      ∈ ediInterchangeBuildReads pun i (some params) mem buflen := by
  obtain ⟨v, vs, rfl⟩ := List.exists_cons_of_ne_nil hvs
  rw [ediInterchangeBuildReads, hsegments, buildSegmentsReads]
  refine List.mem_append_left _ ?_
  rw [helements, List.map_cons, buildElementsReads, hdata]
  refine List.mem_append_left _ (List.mem_map.2 ⟨.valuelen, ?_, rfl⟩)
  rw [ElementData.view, List.map_cons, buildElementReads, buildCompositeReads]
  refine List.mem_append_left _ (List.mem_cons_of_mem _ ?_)
  simp [hheader, buildValueReads]

theorem wellRead_byMember_iff (hplural : i.Plural) :
    WellRead FieldRead.ByMember i ↔
      (∀ s ∈ i.segments, ∀ e ∈ s.elements, e.data ≠ .untyped) ∧
        ∀ s ∈ i.segments.head?, ∀ e ∈ s.elements.head?,
          ∀ vs, e.data ≠ .composite vs := by
  constructor
  · intro h
    refine ⟨(h.mono fun r hr => hr.byWord).typed, ?_⟩
    intro s hs e he vs hdata
    obtain ⟨ss, hsegments⟩ := List.head?_eq_some_iff.1 hs
    obtain ⟨es, helements⟩ := List.head?_eq_some_iff.1 he
    have hle := hplural s (List.mem_of_head? hs) e (List.mem_of_head? he) vs hdata
    have hvs : vs ≠ [] := by
      rintro rfl
      simp at hle
    have hread := h.2 (fun _ => ⟨[], 0⟩) (some ediX12Params) (fun _ => 0) 0 _
      (headerRead_mem rfl hsegments helements hdata hvs _ _)
    simp [FieldRead.ByMember, ElementData.fields] at hread
  · rintro ⟨htyped, hfirst⟩
    refine ⟨ediInterchangeDestroyReads_byMember htyped, ?_⟩
    intro pun params mem buflen r hr
    refine (mem_buildSegmentsReads htyped hr).resolve_right ?_
    rintro ⟨-, -, s, hs, hhead, ⟨vs, hvs⟩, -⟩
    rw [List.head?_map, Option.map_eq_some_iff] at hhead
    obtain ⟨e, he, hdata⟩ := hhead
    exact hfirst s hs e he vs (hdata.trans hvs)

end Readings

/-- After a run of calls the two functions read nothing but what was stored, exactly
if every element was given a value, and, for the members of the union, the first
element of the first segment was given no second one. -/
theorem apiCalls_reads_iff {calls : List ApiCall} {i : HeapInterchange}
    (h : apiCalls ediInterchangeCreate calls = some i) :
    (WellRead FieldRead.ByMember i ↔
      Filled (givenCounts calls) ∧ FirstOnce (givenCounts calls)) ∧
    (WellRead FieldRead.ByWord i ↔ Filled (givenCounts calls)) := by
  have hcreate : ediInterchangeCreate.Plural :=
    fun _ hs => absurd hs List.not_mem_nil
  obtain ⟨hcounts, hplural⟩ := apiCalls_counts hcreate h
  have hgiven : givenCounts calls = i.counts := hcounts.symm
  rw [hgiven, hplural.filled_iff, hplural.firstOnce_iff]
  exact ⟨wellRead_byMember_iff hplural, wellRead_byWord_iff⟩

/-- A segment with a tag and a composite. -/
theorem apiCalls_reads_composite :
    ∃ i, apiCalls ediInterchangeCreate
        [.segmentCreate 0 (some (ascii "A")), .elementCreate 0 none,
          .elementAdd 0 1 (ascii "b"), .elementAdd 0 1 (ascii "c")] = some i ∧
      WellRead FieldRead.ByMember i ∧ WellRead FieldRead.ByWord i := by
  have hdone : (apiCalls ediInterchangeCreate
      [.segmentCreate 0 (some (ascii "A")), .elementCreate 0 none,
        .elementAdd 0 1 (ascii "b"), .elementAdd 0 1 (ascii "c")]).isSome
          = true := by decide +kernel
  obtain ⟨i, hi⟩ := Option.isSome_iff_exists.1 hdone
  obtain ⟨hmember, hword⟩ := apiCalls_reads_iff hi
  have hcounts : givenCounts
      [.segmentCreate 0 (some (ascii "A")), .elementCreate 0 none,
        .elementAdd 0 1 (ascii "b"), .elementAdd 0 1 (ascii "c")]
          = [[1, 2]] := by decide
  rw [hcounts] at hmember hword
  exact ⟨i, hi, hmember.2 ⟨by simp [Filled], by simp [FirstOnce]⟩,
    hword.2 (by simp [Filled])⟩

/-- A new element without a value in a new segment. -/
theorem apiCalls_reads_null :
    ∃ i, apiCalls ediInterchangeCreate
        [.segmentCreate 0 (some (ascii "A")), .elementCreate 0 none] = some i ∧
      ¬ WellRead FieldRead.ByMember i ∧ ¬ WellRead FieldRead.ByWord i := by
  have hnull : (apiCalls ediInterchangeCreate
      [.segmentCreate 0 (some (ascii "A")), .elementCreate 0 none]).map
        (fun i => i.segments.all fun s => s.elements.all fun e =>
          decide (e.data ≠ .untyped)) = some false := by decide +kernel
  obtain ⟨i, hi, hfalse⟩ := Option.map_eq_some_iff.1 hnull
  have hword : ¬ WellRead FieldRead.ByWord i := by
    intro h
    have htyped := h.typed
    have htrue : (i.segments.all fun s => s.elements.all fun e =>
        decide (e.data ≠ .untyped)) = true := by
      simpa [List.all_eq_true] using htyped
    rw [hfalse] at htrue
    cases htrue
  exact ⟨i, hi, fun h => hword (h.mono fun r hr => hr.byWord), hword⟩

end Libedi
