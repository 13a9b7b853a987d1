import Libedi.BuilderApi

/-!
# Who frees a string

`edi__stringpool_free` of `libedi/stringpool.c` and `edi_interchange_destroy` of
`libedi/build.c`.

A string is kept from `free` if its address is behind the start of a pool and
before the fill mark.  A string of length zero starts at the fill mark.  So it
is kept only if a later string has moved the mark on.  Until then the pointer,
which leads into a pool, is given to `free`.

The addresses of the pools are any that `calloc` may return (`Placed`).
-/

namespace Libedi

/-! ## Freeing -/

/-- The address of a string, where the pool `c` is at the address `base c`. -/
def StringPtr.address (base : Nat → Nat) (q : StringPtr) : Nat :=
  base q.pool + q.offset

/-- `edi__stringpool_free`: what it gives to `free`. -/
def ediStringpoolFree (base : Nat → Nat) (pools : List Pool) (p : Nat) :
    Option Nat :=
  if (List.range pools.length).any fun c =>
      decide (base c ≤ p) &&
        decide (p < base c + (pools[c]?.map Pool.fill).getD 0) then
    none
  else some p

/-- What `edi_interchange_destroy` gives to `edi__stringpool_free` for an
element.  An element without a type has in its field `value` what was in the
memory before. -/
def ElementData.addresses (base : Nat → Nat) (stale : Nat) :
    ElementData → List Nat
  | .composite vs => vs.map fun v => v.1.address base
  | .simple v _ => [v.address base]
  | .untyped => [stale]

/-- `edi_interchange_destroy`: the values that `free` is called with.  The arrays
and the pools, which are freed as well, are not among them. -/
def ediInterchangeDestroy (base : Nat → Nat) (stale : Nat)
    (i : HeapInterchange) : List Nat :=
  i.segments.flatMap fun s => s.elements.flatMap fun e =>
    (e.data.addresses base stale).filterMap (ediStringpoolFree base i.pools)

/-- Pools are different blocks of memory. -/
def Placed (base : Nat → Nat) (pools : List Pool) : Prop :=
  ∀ c d p q, pools[c]? = some p → pools[d]? = some q → c ≠ d →
    base c + p.mem.length ≤ base d ∨ base d + q.mem.length ≤ base c

/-- A string before the fill mark of its pool. -/
def Covered (pools : List Pool) (q : StringPtr) : Prop :=
  ∃ p, pools[q.pool]? = some p ∧ q.offset < p.fill

/-- No pool is filled beyond its end. -/
def Bounded (pools : List Pool) : Prop := ∀ p ∈ pools, p.fill ≤ p.mem.length

theorem ediStringpoolFree_eq_none {base : Nat → Nat} {pools : List Pool}
    {p : Nat} : ediStringpoolFree base pools p = none ↔
      ∃ c r, pools[c]? = some r ∧ base c ≤ p ∧ p < base c + r.fill := by
  have hany : (List.range pools.length).any (fun c =>
      decide (base c ≤ p) &&
        decide (p < base c + (pools[c]?.map Pool.fill).getD 0)) = true ↔
      ∃ c r, pools[c]? = some r ∧ base c ≤ p ∧ p < base c + r.fill := by
    simp only [List.any_eq_true, List.mem_range, Bool.and_eq_true,
      decide_eq_true_eq]
    constructor
    · rintro ⟨c, hc, hle, hlt⟩
      have hr : pools[c]? = some pools[c] := List.getElem?_eq_getElem hc
      rw [hr] at hlt
      exact ⟨c, pools[c], hr, hle, hlt⟩
    · rintro ⟨c, r, hr, hle, hlt⟩
      refine ⟨c, (List.getElem?_eq_some_iff.1 hr).1, hle, ?_⟩
      rw [hr]
      exact hlt
  rw [← hany, ediStringpoolFree]
  split <;> simp_all

/-- The test for the address of a string is the test for its place in its own
pool. -/
theorem ediStringpoolFree_address {base : Nat → Nat} {pools : List Pool}
    (hplaced : Placed base pools) (hbounded : Bounded pools) {q : StringPtr}
    (hq : Allocated pools 0 q) :
    ediStringpoolFree base pools (q.address base) = none ↔
      Covered pools q := by
  obtain ⟨p, hp, -, hlt⟩ := hq
  rw [ediStringpoolFree_eq_none, StringPtr.address]
  constructor
  · rintro ⟨c, r, hr, hle, hfill⟩
    have hroom := hbounded r (List.mem_of_getElem? hr)
    by_cases hc : c = q.pool
    · subst hc
      exact ⟨r, hr, by omega⟩
    · have hapart := hplaced c q.pool r p hr hp hc
      omega
  · rintro ⟨r, hr, hfill⟩
    exact ⟨q.pool, r, hr, by omega, by omega⟩

/-! ## Runs of allocations -/

/-- The bytes behind the fill mark of the pool in use. -/
def room (pools : List Pool) : Nat :=
  pools.getLast?.elim 0 fun p => p.mem.length - p.fill

/-- The same after `n` more bytes, in this pool or in a new one. -/
def roomAfter (room n : Nat) : Nat :=
  if n < room then room - n else max n stringpoolBlocksize - n

/-- Calls of `edi__stringpool_alloc`. -/
def ediStringpoolAllocs (pools : List Pool) :
    List Nat → List Pool × List StringPtr
  | [] => (pools, [])
  | n :: ns =>
    let r := ediStringpoolAlloc pools n
    let rs := ediStringpoolAllocs r.1 ns
    (rs.1, r.2 :: rs.2)

/-- After each length zero there is another length, and the first one of those
fits into the pool that is in use then. -/
def ZerosCovered (room : Nat) : List Nat → Prop
  | [] => True
  | n :: ns =>
    (n = 0 → ∃ m ∈ ns.find? (0 < ·), m < roomAfter room n) ∧
      ZerosCovered (roomAfter room n) ns

@[simp] theorem room_concat (init : List Pool) (p : Pool) :
    room (init ++ [p]) = p.mem.length - p.fill := by
  simp [room]

theorem newPool_mem_length (n : Nat) :
    (newPool n).mem.length = max n stringpoolBlocksize := by
  unfold newPool
  rw [List.length_replicate]
  split <;> omega

/-- What `edi__stringpool_alloc` does, by the room there is. -/
theorem ediStringpoolAlloc_room {pools : List Pool} (h : Bounded pools)
    (n : Nat) :
    ∃ init p, (ediStringpoolAlloc pools n).1
        = init ++ [{ p with fill := p.fill + n }] ∧
      (ediStringpoolAlloc pools n).2 = ⟨init.length, p.fill⟩ ∧
      p.fill + n ≤ p.mem.length ∧
      p.mem.length - (p.fill + n) = roomAfter (room pools) n ∧
      (n < room pools ∧ pools = init ++ [p] ∨
        room pools ≤ n ∧ pools = init ∧ p = newPool n) := by
  rcases ediStringpoolGet_cases pools n with
    ⟨init, p, rfl, hroom, hget⟩ | ⟨hfull, hget⟩
  · obtain ⟨hpools, hptr⟩ := ediStringpoolAlloc_of_get hget
    have hlt : n < room (init ++ [p]) := by
      rw [room_concat]
      omega
    refine ⟨init, p, hpools, hptr, by omega, ?_, Or.inl ⟨hlt, rfl⟩⟩
    rw [roomAfter, if_pos hlt, room_concat]
    omega
  · obtain ⟨hpools, hptr⟩ := ediStringpoolAlloc_of_get hget
    have hle : room pools ≤ n := by
      unfold room
      cases hlast : pools.getLast? with
      | none => exact Nat.zero_le n
      | some p =>
        have hp := hfull p hlast
        rw [Option.elim_some]
        omega
    have hlen := newPool_mem_length n
    have hfill : (newPool n).fill = 0 := rfl
    refine ⟨pools, newPool n, hpools, hptr, by omega, ?_,
      Or.inr ⟨hle, rfl, rfl⟩⟩
    rw [roomAfter, if_neg (Nat.not_lt.2 hle)]
    omega

theorem Bounded.alloc {pools : List Pool} (h : Bounded pools) (n : Nat) :
    Bounded (ediStringpoolAlloc pools n).1 := by
  obtain ⟨init, p, hpools, -, hroom, -, hold⟩ := ediStringpoolAlloc_room h n
  have hinit : ∀ q ∈ init, q.fill ≤ q.mem.length := by
    intro q hq
    rcases hold with ⟨-, rfl⟩ | ⟨-, rfl, -⟩
    · exact h q (List.mem_append_left _ hq)
    · exact h q hq
  rw [hpools]
  intro q hq
  rcases List.mem_append.1 hq with hq | hq
  · exact hinit q hq
  · obtain rfl := List.mem_singleton.1 hq
    exact hroom

theorem room_alloc {pools : List Pool} (h : Bounded pools) (n : Nat) :
    room (ediStringpoolAlloc pools n).1 = roomAfter (room pools) n := by
  obtain ⟨init, p, hpools, -, -, hroom, -⟩ := ediStringpoolAlloc_room h n
  rw [hpools, room_concat]
  exact hroom

/-- A fill mark never moves back. -/
theorem Covered.alloc {pools : List Pool} {q : StringPtr} (hq : Covered pools q)
    (n : Nat) : Covered (ediStringpoolAlloc pools n).1 q := by
  obtain ⟨r, hr, hlt⟩ := hq
  obtain ⟨init, p, hpools, -, -, -, hold⟩ := ediStringpoolAlloc_spec pools n
  have hk := (List.getElem?_eq_some_iff.1 hr).1
  rw [hpools]
  rcases hold with rfl | ⟨rfl, rfl⟩
  · by_cases hlast : q.pool < init.length
    · rw [List.getElem?_append_left hlast] at hr
      exact ⟨r, by rw [List.getElem?_append_left hlast, hr], hlt⟩
    · have hpool : q.pool = init.length := by
        rw [List.length_append, List.length_singleton] at hk
        omega
      obtain rfl : p = r := by simpa [hpool] using hr
      exact ⟨{ p with fill := p.fill + n }, by simp [hpool], by
        show q.offset < p.fill + n
        omega⟩
  · exact ⟨r, by rw [List.getElem?_append_left hk, hr], hlt⟩

theorem Covered.allocs {pools : List Pool} {q : StringPtr} (ns : List Nat)
    (hq : Covered pools q) : Covered (ediStringpoolAllocs pools ns).1 q := by
  induction ns generalizing pools with
  | nil => exact hq
  | cons n ns ih => exact ih (hq.alloc n)

/-- A string that is not empty has moved the mark itself. -/
theorem covered_mark (init : List Pool) (p : Pool) {n : Nat} (hn : 0 < n) :
    Covered (init ++ [{ p with fill := p.fill + n }])
      ⟨init.length, p.fill⟩ := by
  refine ⟨{ p with fill := p.fill + n }, by simp, ?_⟩
  show p.fill < p.fill + n
  omega

/-- A pool behind which there is another one stays as it is. -/
theorem allocs_getElem?_of_lt {pools : List Pool} {k : Nat}
    (hk : k + 1 < pools.length) (ns : List Nat) :
    (ediStringpoolAllocs pools ns).1[k]? = pools[k]? := by
  induction ns generalizing pools with
  | nil => rfl
  | cons n ns ih =>
    obtain ⟨init, p, hpools, -, -, -, hold⟩ := ediStringpoolAlloc_spec pools n
    have hinit : k < init.length ∧ pools[k]? = init[k]? := by
      rcases hold with rfl | ⟨rfl, -⟩
      · have hlt : k < init.length := by simpa using hk
        exact ⟨hlt, List.getElem?_append_left hlt⟩
      · exact ⟨by omega, rfl⟩
    have hlen : k + 1 < (ediStringpoolAlloc pools n).1.length := by
      rw [hpools, List.length_append, List.length_singleton]
      omega
    rw [ediStringpoolAllocs, ih hlen, hpools,
      List.getElem?_append_left hinit.1, hinit.2]

/-- A string at the fill mark is covered by the next string that is not empty,
if that one comes into the same pool. -/
theorem covered_allocs_iff {init : List Pool} {p : Pool}
    (h : Bounded (init ++ [p])) (ns : List Nat) :
    Covered (ediStringpoolAllocs (init ++ [p]) ns).1 ⟨init.length, p.fill⟩ ↔
      ∃ m ∈ ns.find? (0 < ·), m < room (init ++ [p]) := by
  have hnot : ∀ {pools : List Pool}, pools[init.length]? = some p →
      ¬ Covered pools ⟨init.length, p.fill⟩ := by
    rintro pools hget ⟨r, hr, hlt⟩
    obtain rfl : p = r := Option.some.inj (hget.symm.trans hr)
    exact Nat.lt_irrefl _ hlt
  have hlast : (init ++ [p])[init.length]? = some p := by simp
  induction ns with
  | nil => simpa [ediStringpoolAllocs] using hnot hlast
  | cons n ns ih =>
    obtain ⟨init', p', hpools, -, -, -, ⟨hlt, hold⟩ | ⟨hle, rfl, rfl⟩⟩ :=
      ediStringpoolAlloc_room h n
    · obtain ⟨rfl, hp⟩ := List.append_inj' hold rfl
      obtain rfl : p = p' := List.head_eq_of_cons_eq hp
      rw [ediStringpoolAllocs, hpools]
      by_cases hn : 0 < n
      · rw [List.find?_cons_of_pos (by simpa using hn)]
        exact iff_of_true ((covered_mark init p hn).allocs ns) ⟨n, rfl, hlt⟩
      · obtain rfl : n = 0 := by omega
        simpa using ih
    · have hnew : (ediStringpoolAllocs (init ++ [p]) (n :: ns)).1[init.length]?
          = some p := by
        rw [ediStringpoolAllocs, allocs_getElem?_of_lt (by simp [hpools]),
          hpools, List.getElem?_append_left (by simp), hlast]
      refine iff_of_false (hnot hnew) ?_
      rintro ⟨m, hm, hroom⟩
      by_cases hn : 0 < n
      · rw [List.find?_cons_of_pos (by simpa using hn)] at hm
        obtain rfl : n = m := by simpa using hm
        omega
      · omega

/-- All strings of a run are covered in the end, exactly if those of length zero
are followed by one that moves the mark. -/
theorem covered_allocs {pools : List Pool} (h : Bounded pools) (ns : List Nat) :
    (∀ q ∈ (ediStringpoolAllocs pools ns).2,
      Covered (ediStringpoolAllocs pools ns).1 q) ↔
      ZerosCovered (room pools) ns := by
  induction ns generalizing pools with
  | nil => simp [ediStringpoolAllocs, ZerosCovered]
  | cons n ns ih =>
    obtain ⟨init, p, hpools, hptr, -, -, -⟩ := ediStringpoolAlloc_room h n
    have hbounded := h.alloc n
    rw [ediStringpoolAllocs, ZerosCovered, List.forall_mem_cons,
      ih hbounded, room_alloc h]
    refine and_congr_left fun _ => ?_
    rw [← room_alloc h]
    rw [hpools] at hbounded ⊢
    rw [hptr]
    by_cases hn : n = 0
    · subst hn
      simpa using covered_allocs_iff hbounded ns
    · have hpos : 0 < n := Nat.pos_of_ne_zero hn
      simp [(covered_mark init p hpos).allocs ns, hn]

/-! ## The strings of an interchange -/

/-- The values of an interchange, in the order of `edi_interchange_destroy`. -/
def HeapInterchange.values (i : HeapInterchange) : List StringPtr :=
  i.segments.flatMap fun s => s.elements.flatMap fun e =>
    e.data.strings.map Prod.fst

theorem ediInterchangeDestroy_eq_nil {i : HeapInterchange} (h : i.Ok)
    (base : Nat → Nat) (stale : Nat) :
    ediInterchangeDestroy base stale i = [] ↔ ∀ q ∈ i.values,
      ediStringpoolFree base i.pools (q.address base) = none := by
  have haddr : ∀ s ∈ i.segments, ∀ e ∈ s.elements,
      e.data.addresses base stale
        = e.data.strings.map fun v => v.1.address base := by
    intro s hs e he
    have htyped := (h.segments s hs).typed e he
    cases hd : e.data with
    | untyped => exact absurd hd htyped
    | simple v vl => rfl
    | composite vs => rfl
  simp only [ediInterchangeDestroy, HeapInterchange.values,
    List.flatMap_eq_nil_iff, List.filterMap_eq_nil_iff, List.mem_flatMap,
    forall_exists_index, and_imp]
  constructor
  · intro hnil q s hs e he hq
    obtain ⟨v, hv, rfl⟩ := List.mem_map.1 hq
    refine hnil s hs e he _ ?_
    rw [haddr s hs e he]
    exact List.mem_map.2 ⟨v, hv, rfl⟩
  · intro hnone s hs e he a ha
    rw [haddr s hs e he] at ha
    obtain ⟨v, hv, rfl⟩ := List.mem_map.1 ha
    exact hnone v.1 s hs e he (List.mem_map.2 ⟨v, hv, rfl⟩)

/-- A call that succeeds was for a segment and an element that are there. -/
theorem segmentsCall_of_ediCall {i i' : HeapInterchange} {c : BuildCall}
    (hc : ediCall i c = some i') :
    ∃ ss, segmentsCall blankValue i.view.segments c = some ss := by
  cases c with
  | segmentCreate base tag => exact ⟨_, rfl⟩
  | elementCreate k value =>
    rw [ediCall, ediElementCreate, Option.bind_eq_bind,
      Option.bind_eq_some_iff] at hc
    obtain ⟨s, hs, -⟩ := hc
    have hk := (List.getElem?_eq_some_iff.1 hs).1
    exact ⟨_, if_pos (by simpa [HeapInterchange.view] using hk)⟩
  | elementAdd k j value =>
    simp only [ediCall, ediElementAdd, Option.bind_eq_bind,
      Option.bind_eq_some_iff] at hc
    obtain ⟨s, hs, el, hel, -⟩ := hc
    have hj := (List.getElem?_eq_some_iff.1 hel).1
    have hview : i.view.segments[k]? = some (s.view i.pools) := by
      rw [HeapInterchange.view, List.getElem?_map, hs, Option.map_some]
    simp only [segmentsCall, hview, Option.bind_eq_bind, Option.bind_some]
    exact ⟨_, if_pos (by simpa [HeapSegment.view] using hj)⟩

theorem forall_mem_values {i : HeapInterchange} {P : StringPtr → Prop} :
    (∀ q ∈ i.values, P q) ↔ ∀ s ∈ i.segments, ∀ e ∈ s.elements,
      ∀ v ∈ e.data.strings, P v.1 := by
  simp only [HeapInterchange.values, List.forall_mem_flatMap,
    List.forall_mem_map]

/-- A call allocates one string, which becomes one more value. -/
theorem ediCall_values {i i' : HeapInterchange} (h : i.Ok) {c : BuildCall}
    (hc : ediCall i c = some i') :
    i'.Ok ∧ i'.pools = (ediStringpoolAlloc i.pools c.given.length).1 ∧
      ∀ P : StringPtr → Prop, (∀ q ∈ i'.values, P q) ↔
        (∀ q ∈ i.values, P q) ∧
          P (ediStringpoolAlloc i.pools c.given.length).2 := by
  obtain ⟨ss, hss⟩ := segmentsCall_of_ediCall hc
  have hok : i'.Ok := by
    cases ediCall_spec h hss with
    | done i'' hcall hok _ _ =>
      obtain rfl : i'' = i' := by simpa [hcall] using hc
      exact hok
    | dangling hcall _ => simp [hcall] at hc
  refine ⟨hok, ?_⟩
  simp only [forall_mem_values]
  cases c with
  | segmentCreate base tag =>
    rw [ediCall, ediSegmentCreate_eq, Option.some.injEq] at hc
    subst hc
    refine ⟨rfl, fun P => ?_⟩
    simp only [List.forall_mem_append, List.forall_mem_singleton,
      ElementData.strings, BuildCall.given]
  | elementCreate k value =>
    have hs : ∃ s, i.segments[k]? = some s := by
      rw [ediCall, ediElementCreate, Option.bind_eq_bind,
        Option.bind_eq_some_iff] at hc
      exact hc.imp fun _ hs => hs.1
    obtain ⟨s, hs⟩ := hs
    rw [ediCall, ediElementCreate_eq hs, Option.some.injEq] at hc
    subst hc
    refine ⟨rfl, fun P => forall_mem_set_iff hs ?_⟩
    simp only [List.forall_mem_append, List.forall_mem_singleton,
      ElementData.strings, BuildCall.given]
  | elementAdd k j value =>
    have hat : ∃ s el, i.segments[k]? = some s ∧ s.elements[j]? = some el ∧
        el.segment.base = i.base := by
      simp only [ediCall, ediElementAdd, Option.bind_eq_bind,
        Option.bind_eq_some_iff] at hc
      obtain ⟨s, hs, el, hel, hc⟩ := hc
      split at hc
      · next hbase => exact ⟨s, el, hs, hel, hbase⟩
      · simp at hc
    obtain ⟨s, el, hs, hel, hbase⟩ := hat
    have htyped := (h.segments s (List.mem_of_getElem? hs)).typed el
      (List.mem_of_getElem? hel)
    rw [ediCall, ediElementAdd_eq hs hel hbase htyped, Option.some.injEq] at hc
    subst hc
    refine ⟨rfl, fun P => forall_mem_set_iff hs (forall_mem_set_iff hel ?_)⟩
    rw [ElementData.strings_add, List.forall_mem_append,
      List.forall_mem_singleton]
    rfl

/-- The values after a run of calls are the strings that it has allocated. -/
theorem ediCalls_values {i i' : HeapInterchange} (h : i.Ok)
    {calls : List BuildCall} (hc : ediCalls i calls = some i') :
    i'.Ok ∧
      i'.pools = (ediStringpoolAllocs i.pools
        (calls.map fun c => c.given.length)).1 ∧
      ∀ P : StringPtr → Prop, (∀ q ∈ i'.values, P q) ↔
        (∀ q ∈ i.values, P q) ∧
          ∀ q ∈ (ediStringpoolAllocs i.pools
            (calls.map fun c => c.given.length)).2, P q := by
  induction calls generalizing i with
  | nil =>
    obtain rfl : i = i' := Option.some.inj hc
    exact ⟨h, rfl, fun P => by simp [ediStringpoolAllocs]⟩
  | cons c calls ih =>
    rw [ediCalls, List.foldlM_cons, Option.bind_eq_bind,
      Option.bind_eq_some_iff] at hc
    obtain ⟨i₁, hcall, hrest⟩ := hc
    obtain ⟨hok₁, hpools₁, hvalues₁⟩ := ediCall_values h hcall
    obtain ⟨hok, hpools, hvalues⟩ := ih hok₁ hrest
    rw [hpools₁] at hpools hvalues
    refine ⟨hok, hpools, fun P => ?_⟩
    rw [hvalues, hvalues₁, List.map_cons, ediStringpoolAllocs,
      List.forall_mem_cons, and_assoc]

theorem allocated_allocs {pools : List Pool} (h : Bounded pools)
    (ns : List Nat) :
    Bounded (ediStringpoolAllocs pools ns).1 ∧
      (∀ q, Allocated pools 0 q →
        Allocated (ediStringpoolAllocs pools ns).1 0 q) ∧
      ∀ q ∈ (ediStringpoolAllocs pools ns).2,
        Allocated (ediStringpoolAllocs pools ns).1 0 q := by
  induction ns generalizing pools with
  | nil => exact ⟨h, fun _ hq => hq, by simp [ediStringpoolAllocs]⟩
  | cons n ns ih =>
    obtain ⟨hbounded, hold, hnew⟩ := ih (h.alloc n)
    rw [ediStringpoolAllocs]
    refine ⟨hbounded, fun q hq => hold q (hq.alloc n),
      List.forall_mem_cons.2 ⟨?_, hnew⟩⟩
    exact hold _ ((allocated_alloc pools n).mono (Nat.zero_le n))

/-- Pools that are all put at multiples of a size that none of them exceeds. -/
theorem placed_mul {pools : List Pool} {size : Nat}
    (h : ∀ p ∈ pools, p.mem.length ≤ size) : Placed (fun c => size * c) pools := by
  intro c d p q hp hq hne
  have hsize : ∀ {a b : Nat} {r : Pool}, pools[a]? = some r → a < b →
      size * a + r.mem.length ≤ size * b := by
    intro a b r hr hlt
    calc size * a + r.mem.length
      _ ≤ size * a + size := by
        have hle := h r (List.mem_of_getElem? hr)
        omega
      _ = size * (a + 1) := (Nat.mul_succ size a).symm
      _ ≤ size * b := Nat.mul_le_mul_left size hlt
  rcases Nat.lt_or_gt_of_ne hne with hlt | hlt
  · exact Or.inl (hsize hp hlt)
  · exact Or.inr (hsize hq hlt)

/-- With the list of pools: the strings that `ns` bytes were asked for are
recognised as lying in a pool, and so `edi_interchange_destroy` frees no value of an
interchange that was built with them, exactly if each length zero is followed by a
string that is not empty in the same pool. -/
theorem ediStringpoolAllocs_keeps_iff {ns : List Nat} {base : Nat → Nat}
    (hplaced : Placed base (ediStringpoolAllocs [] ns).1) :
    ((∀ q ∈ (ediStringpoolAllocs [] ns).2,
        ediStringpoolFree base (ediStringpoolAllocs [] ns).1 (q.address base)
          = none) ↔ ZerosCovered 0 ns) ∧
      ∀ (calls : List BuildCall) (i : HeapInterchange) (stale : Nat),
        ediCalls ediInterchangeCreate calls = some i →
        calls.map (fun c => c.given.length) = ns →
        (ediInterchangeDestroy base stale i = [] ↔ ZerosCovered 0 ns) := by
  have hempty : Bounded [] := fun _ hp => absurd hp List.not_mem_nil
  obtain ⟨hbounded, -, hptrs⟩ := allocated_allocs hempty ns
  have hkeeps : (∀ q ∈ (ediStringpoolAllocs [] ns).2,
      ediStringpoolFree base (ediStringpoolAllocs [] ns).1 (q.address base)
        = none) ↔ ZerosCovered 0 ns := by
    rw [← show room [] = 0 from rfl, ← covered_allocs hempty]
    exact forall₂_congr fun q hq =>
      ediStringpoolFree_address hplaced hbounded (hptrs q hq)
  refine ⟨hkeeps, ?_⟩
  rintro calls i stale hcalls rfl
  obtain ⟨hok, hpools, hvalues⟩ :=
    ediCalls_values HeapInterchange.ok_create hcalls
  rw [ediInterchangeDestroy_eq_nil hok, hvalues, hpools]
  refine (and_iff_right ?_).trans hkeeps
  exact fun _ hq => absurd hq List.not_mem_nil

end Libedi
