import Libedi.Lib.SlotArray
import Libedi.PoolOwnership

/-!
# The arrays behind the string pools

`libedi/stringpool.c` keeps its pools in three arrays, `stringpool`, `sp` and
`poolsize`, which are made longer one after the other.  `StringPool` has a list of
pools instead, and takes sizes as natural numbers.  Here

* each allocation may fail: `ok c` says whether the allocation number `c` of a call
  succeeds;
* a sum of sizes wraps as a `size_t` does.

`PoolArrays.Stores` is the relation between the two.  `stringpoolAlloc_cases` says
all that an allocation can do.  The sum in the test for room may wrap, and then a
string that does not fit is put into the pool all the same: `stringpool_calls_iff`.
-/

namespace Libedi

open SlotArray

/-- Which of the allocations of a call succeed. -/
def Allocs := Nat → Bool

/-- All of them. -/
def Allocs.all : Allocs := fun _ => true

/-- The allocations behind the first `n`. -/
def Allocs.behind (ok : Allocs) (n : Nat) : Allocs := fun c => ok (n + c)

/-- `edi_interchange_private_t`.  A block of memory has the number of blocks in front
of it as its address. -/
structure PoolArrays where
  stringpool : List (Option Nat)
  sp : List (Option StringPtr)
  poolsize : List (Option Nat)
  npools : Nat
  deriving DecidableEq, Repr

namespace PoolArrays

/-- `edi_interchange_create` clears it. -/
def empty : PoolArrays := ⟨[], [], [], 0⟩

/-- The part of `edi__stringpool_get` that creates a pool: its index, `none` for
`-1`. -/
def create (a : PoolArrays) (minsize : Nat) (ok : Allocs) :
    PoolArrays × Option Nat :=
  if ok 0 then
    let a := { a with stringpool := resize a.stringpool (a.npools + 1) }
    if ok 1 then
      let a := { a with sp := resize a.sp (a.npools + 1) }
      if ok 2 then
        let a := { a with poolsize := resize a.poolsize (a.npools + 1) }
        if ok 3 then
          ({ stringpool := a.stringpool.set a.npools (some a.npools)
             sp := a.sp.set a.npools (some ⟨a.npools, 0⟩)
             poolsize := a.poolsize.set a.npools
               (some (newPool minsize).mem.length)
             npools := a.npools + 1 }, some a.npools)
        else (a, none)
      else (a, none)
    else (a, none)
  else (a, none)

/-- `edi__stringpool_get`.  The result is `none` if a slot is read that nothing was
stored in. -/
def stringpoolGet (a : PoolArrays) (minsize : Nat) (ok : Allocs) :
    Option (PoolArrays × Option Nat) :=
  if a.npools = 0 then some (a.create minsize ok)
  else do
    let _ ← slot a.stringpool (a.npools - 1)
    let sp ← slot a.sp (a.npools - 1)
    let poolsize ← slot a.poolsize (a.npools - 1)
    -- `(sp - p) + minsize` is a `size_t`.
    if sizeAdd sp.offset minsize < poolsize then
      return (a, some (a.npools - 1))
    else return a.create minsize ok

/-- `edi__stringpool_alloc`.  It does not look at the `-1` of `edi__stringpool_get`,
which as a `size_t` is no index of `sp`.  Then the result is `none`. -/
def stringpoolAlloc (a : PoolArrays) (length : Nat) (ok : Allocs) :
    Option (PoolArrays × StringPtr) := do
  let (a, n) ← a.stringpoolGet length ok
  let n ← n
  let sp ← slot a.sp n
  return ({ a with
    sp := a.sp.set n (some { sp with offset := sizeAdd sp.offset length }) }, sp)

/-! ## The pools in the arrays -/

/-- The fill marks of pools, as pointers. -/
def marks (pools : List Pool) : List StringPtr :=
  pools.mapIdx fun c p => ⟨c, p.fill⟩

/-- The arrays hold these pools, and maybe more slots. -/
structure Stores (a : PoolArrays) (pools : List Pool) : Prop where
  npools : a.npools = pools.length
  stringpool : Holds Eq a.stringpool (List.range pools.length)
  sp : Holds Eq a.sp (marks pools)
  poolsize : Holds Eq a.poolsize (pools.map (·.mem.length))

/-- The arrays have no more slots than there are pools. -/
structure Exact (a : PoolArrays) : Prop where
  stringpool : a.stringpool.length = a.npools
  sp : a.sp.length = a.npools
  poolsize : a.poolsize.length = a.npools

@[simp] theorem marks_length (pools : List Pool) :
    (marks pools).length = pools.length := by
  simp [marks]

@[simp] theorem marks_concat (init : List Pool) (p : Pool) :
    marks (init ++ [p]) = marks init ++ [⟨init.length, p.fill⟩] := by
  simp [marks]

theorem stores_empty : empty.Stores [] where
  npools := rfl
  stringpool := Holds.nil _ _
  sp := Holds.nil _ _
  poolsize := Holds.nil _ _

variable {a : PoolArrays} {pools init : List Pool} {p : Pool}

theorem Stores.slot_stringpool (h : a.Stores pools) {c : Nat}
    (hc : c < pools.length) : slot a.stringpool c = some c := by
  obtain ⟨b, hb, rfl⟩ := h.stringpool.slot_eq
    (show (List.range pools.length)[c]? = some c by simp [hc])
  exact hb

theorem Stores.slot_sp (h : a.Stores pools) {c : Nat}
    (hc : pools[c]? = some p) : slot a.sp c = some ⟨c, p.fill⟩ := by
  obtain ⟨b, hb, rfl⟩ := h.sp.slot_eq
    (show (marks pools)[c]? = some ⟨c, p.fill⟩ by simp [marks, hc])
  exact hb

theorem Stores.slot_poolsize (h : a.Stores pools) {c : Nat}
    (hc : pools[c]? = some p) : slot a.poolsize c = some p.mem.length := by
  obtain ⟨b, hb, rfl⟩ := h.poolsize.slot_eq
    (show (pools.map (·.mem.length))[c]? = some p.mem.length by simp [hc])
  exact hb

/-! ## Creating a pool -/

/-- With four allocations there is a new pool behind the others. -/
theorem Stores.create (h : a.Stores pools) (minsize : Nat) {ok : Allocs}
    (hok : ok 0 = true ∧ ok 1 = true ∧ ok 2 = true ∧ ok 3 = true) :
    ∃ a', a.create minsize ok = (a', some pools.length) ∧
      a'.Stores (pools ++ [newPool minsize]) ∧ a'.Exact := by
  obtain ⟨h0, h1, h2, h3⟩ := hok
  have hmark : (⟨pools.length, 0⟩ : StringPtr)
      = ⟨pools.length, (newPool minsize).fill⟩ := rfl
  have hstringpool := h.stringpool.resize_push (a := pools.length) rfl
  have hsp := h.sp.resize_push hmark
  have hsize := h.poolsize.resize_push (a := (newPool minsize).mem.length) rfl
  rw [List.length_range] at hstringpool
  rw [marks_length] at hsp
  rw [List.length_map] at hsize
  have hcreate : a.create minsize ok
      = ({ stringpool := (resize a.stringpool (pools.length + 1)).set
              pools.length (some pools.length)
           sp := (resize a.sp (pools.length + 1)).set pools.length
              (some ⟨pools.length, 0⟩)
           poolsize := (resize a.poolsize (pools.length + 1)).set pools.length
              (some (newPool minsize).mem.length)
           npools := pools.length + 1 }, some pools.length) := by
    simp only [PoolArrays.create, h0, h1, h2, h3, if_true, h.npools]
  refine ⟨_, hcreate, ?_, by constructor <;> simp⟩
  constructor
  · simp
  · simpa [List.range_succ] using hstringpool
  · simpa using hsp
  · simpa using hsize

/-- Without one of them there is none. -/
theorem create_fails (a : PoolArrays) (minsize : Nat) {ok : Allocs}
    (hok : ¬ (ok 0 = true ∧ ok 1 = true ∧ ok 2 = true ∧ ok 3 = true)) :
    (a.create minsize ok).2 = none := by
  unfold PoolArrays.create
  split_ifs with h0 h1 h2 h3
  · exact absurd ⟨h0, h1, h2, h3⟩ hok
  · rfl
  · rfl
  · rfl
  · rfl

/-! ## One allocation -/

/-- The newest pool passes the test for room. -/
def HasRoom (pools : List Pool) (n : Nat) : Prop :=
  ∃ p ∈ pools.getLast?, sizeAdd p.fill n < p.mem.length

theorem stringpoolGet_room (h : a.Stores (init ++ [p])) {n : Nat}
    (hroom : sizeAdd p.fill n < p.mem.length) (ok : Allocs) :
    a.stringpoolGet n ok = some (a, some init.length) := by
  have hnpools : a.npools = init.length + 1 := by simpa using h.npools
  have hp : (init ++ [p])[init.length]? = some p := by simp
  simp [stringpoolGet, hnpools, h.slot_stringpool (c := init.length) (by simp),
    h.slot_sp hp, h.slot_poolsize hp, hroom]

theorem stringpoolGet_full (h : a.Stores pools) {n : Nat}
    (hfull : ¬ HasRoom pools n) (ok : Allocs) :
    a.stringpoolGet n ok = some (a.create n ok) := by
  rcases List.eq_nil_or_concat' pools with rfl | ⟨init, p, rfl⟩
  · have hnpools : a.npools = 0 := h.npools
    rw [stringpoolGet, if_pos hnpools]
  · have hnpools : a.npools = init.length + 1 := by simpa using h.npools
    have hp : (init ++ [p])[init.length]? = some p := by simp
    have hroom : ¬ sizeAdd p.fill n < p.mem.length :=
      fun hlt => hfull ⟨p, by simp, hlt⟩
    simp [stringpoolGet, hnpools,
      h.slot_stringpool (c := init.length) (by simp), h.slot_sp hp,
      h.slot_poolsize hp, hroom]

/-- The mark of the newest pool is moved. -/
theorem Stores.move (h : a.Stores (init ++ [p])) (fill : Nat) :
    PoolArrays.Stores { a with
        sp := a.sp.set init.length (some ⟨init.length, fill⟩) }
      (init ++ [{ p with fill := fill }]) where
  npools := by simpa using h.npools
  stringpool := by simpa using h.stringpool
  sp := by
    have hset := h.sp.set
      (show (⟨init.length, fill⟩ : StringPtr) = ⟨init.length, fill⟩ from rfl)
      init.length
    have hlen : (marks init).length ≤ init.length := by simp
    rw [marks_concat, List.set_append_right _ _ hlen] at hset
    simpa using hset
  poolsize := by simpa using h.poolsize

/-- What an allocation can do: it is made in the newest pool, or in a new one, or it
goes astray because there is no new one. -/
theorem stringpoolAlloc_cases (h : a.Stores pools) (n : Nat) (ok : Allocs) :
    (∃ init p a', pools = init ++ [p] ∧ sizeAdd p.fill n < p.mem.length ∧
      a.stringpoolAlloc n ok = some (a', ⟨init.length, p.fill⟩) ∧
      a'.Stores (init ++ [{ p with fill := sizeAdd p.fill n }]) ∧
      (a.Exact → a'.Exact)) ∨
    (¬ HasRoom pools n ∧
      (ok 0 = true ∧ ok 1 = true ∧ ok 2 = true ∧ ok 3 = true) ∧
      ∃ a', a.stringpoolAlloc n ok = some (a', ⟨pools.length, 0⟩) ∧
        a'.Stores (pools ++ [{ newPool n with fill := sizeAdd 0 n }]) ∧
        a'.Exact) ∨
    (¬ HasRoom pools n ∧
      ¬ (ok 0 = true ∧ ok 1 = true ∧ ok 2 = true ∧ ok 3 = true) ∧
      a.stringpoolAlloc n ok = none) := by
  by_cases hroom : HasRoom pools n
  · obtain ⟨p, hp, hlt⟩ := hroom
    obtain ⟨init, rfl⟩ := List.getLast?_eq_some_iff.1 hp
    have hget := stringpoolGet_room h hlt ok
    have hsp := h.slot_sp (show (init ++ [p])[init.length]? = some p by simp)
    refine Or.inl ⟨init, p, _, rfl, hlt, ?_, h.move _, ?_⟩
    · rw [stringpoolAlloc, hget]
      simp only [Option.bind_eq_bind, Option.bind_some, hsp]
      rfl
    · exact fun hexact => ⟨hexact.stringpool, by simpa using hexact.sp,
        hexact.poolsize⟩
  · have hget := stringpoolGet_full h hroom ok
    by_cases hok : ok 0 = true ∧ ok 1 = true ∧ ok 2 = true ∧ ok 3 = true
    · obtain ⟨a', hcreate, hstores, hexact⟩ := h.create n hok
      have hsp := hstores.slot_sp
        (show (pools ++ [newPool n])[pools.length]? = some (newPool n) by simp)
      refine Or.inr (Or.inl ⟨hroom, hok, _, ?_, hstores.move _, ?_⟩)
      · rw [stringpoolAlloc, hget, hcreate]
        simp only [Option.bind_eq_bind, Option.bind_some, hsp]
        rfl
      · exact ⟨hexact.stringpool, by simpa using hexact.sp, hexact.poolsize⟩
    · refine Or.inr (Or.inr ⟨hroom, hok, ?_⟩)
      rw [stringpoolAlloc, hget]
      simp only [Option.bind_eq_bind, Option.bind_some, create_fails a n hok,
        Option.bind_none]

/-- No pool is filled beyond its end, and none has more bytes than there are
addresses. -/
structure Sized (pools : List Pool) : Prop where
  bounded : Bounded pools
  small : ∀ p ∈ pools, p.mem.length < 2 ^ 64

/-- The sum of the newest mark and of the length is a `size_t`. -/
def Fit (pools : List Pool) (n : Nat) : Prop :=
  ∀ p ∈ pools.getLast?, p.fill + n < 2 ^ 64

theorem sized_nil : Sized [] where
  bounded := fun _ hp => absurd hp List.not_mem_nil
  small := fun _ hp => absurd hp List.not_mem_nil

/-- One pool more, or another mark in the last one. -/
theorem sized_concat : Sized (init ++ [p]) ↔
    Sized init ∧ p.fill ≤ p.mem.length ∧ p.mem.length < 2 ^ 64 := by
  constructor
  · rintro ⟨hbounded, hsmall⟩
    rw [Bounded, List.forall_mem_append, List.forall_mem_singleton] at hbounded
    rw [List.forall_mem_append, List.forall_mem_singleton] at hsmall
    exact ⟨⟨hbounded.1, hsmall.1⟩, hbounded.2, hsmall.2⟩
  · rintro ⟨⟨hbounded, hsmall⟩, hfill, hp⟩
    constructor
    · rw [Bounded, List.forall_mem_append, List.forall_mem_singleton]
      exact ⟨hbounded, hfill⟩
    · rw [List.forall_mem_append, List.forall_mem_singleton]
      exact ⟨hsmall, hp⟩

theorem newPool_lt {n : Nat} (hn : n < 2 ^ 64) :
    (newPool n).mem.length < 2 ^ 64 := by
  have hlen := newPool_mem_length n
  have hblock : stringpoolBlocksize = 512 := rfl
  omega

/-- A sum that wraps is below the mark, so it passes the test for room. -/
theorem fit_of_not_hasRoom (h : Sized pools) {n : Nat} (hn : n < 2 ^ 64)
    (hroom : ¬ HasRoom pools n) : Fit pools n := by
  intro p hp
  have hmem := List.mem_of_getLast? hp
  have hle := h.bounded p hmem
  have hsmall := h.small p hmem
  have hfull : ¬ sizeAdd p.fill n < p.mem.length :=
    fun hlt => hroom ⟨p, hp, hlt⟩
  unfold sizeAdd at hfull
  omega

/-- All that an allocation can do to arrays in which all is well. -/
inductive AllocCases (a : PoolArrays) (pools : List Pool) (n : Nat)
    (ok : Allocs) : Prop where
  | done (a' : PoolArrays) (halloc : a.stringpoolAlloc n ok
        = some (a', (ediStringpoolAlloc pools n).2))
      (hstores : a'.Stores (ediStringpoolAlloc pools n).1)
      (hexact : a.Exact → a'.Exact) (hsized : Sized (ediStringpoolAlloc pools n).1)
      (hfit : Fit pools n)
      (hroom : HasRoom pools n ∨
        ok 0 = true ∧ ok 1 = true ∧ ok 2 = true ∧ ok 3 = true)
  | wrapped (init : List Pool) (p : Pool) (a' : PoolArrays)
      (hpools : pools = init ++ [p]) (hwraps : 2 ^ 64 ≤ p.fill + n)
      (halloc : a.stringpoolAlloc n ok = some (a', ⟨init.length, p.fill⟩))
      (hstores : a'.Stores (init ++ [{ p with fill := sizeAdd p.fill n }]))
      (hexact : a.Exact → a'.Exact)
      (hsized : Sized (init ++ [{ p with fill := sizeAdd p.fill n }]))
  | astray (hroom : ¬ HasRoom pools n)
      (hok : ¬ (ok 0 = true ∧ ok 1 = true ∧ ok 2 = true ∧ ok 3 = true))
      (halloc : a.stringpoolAlloc n ok = none)

theorem Stores.allocCases (h : a.Stores pools) (hsized : Sized pools) {n : Nat}
    (hn : n < 2 ^ 64) (ok : Allocs) : AllocCases a pools n ok := by
  rcases stringpoolAlloc_cases h n ok with
    ⟨init, p, a', rfl, hlt, halloc, hstores, hexact⟩ |
      ⟨hroom, hok, a', halloc, hstores, hexact⟩ | ⟨hroom, hok, halloc⟩
  · obtain ⟨hinit, hp, hpsmall⟩ := sized_concat.1 hsized
    have hlast : (init ++ [p]).getLast? = some p := by simp
    have hnew := (sized_concat (p := { p with fill := sizeAdd p.fill n })).2
      ⟨hinit, Nat.le_of_lt hlt, hpsmall⟩
    by_cases hsum : p.fill + n < 2 ^ 64
    · have hadd : sizeAdd p.fill n = p.fill + n := Nat.mod_eq_of_lt hsum
      have hroom : HasRoom (init ++ [p]) n := ⟨p, hlast, hlt⟩
      rw [hadd] at hlt hstores hnew
      have hget : ediStringpoolGet (init ++ [p]) n
          = (init ++ [p], init.length) := by
        simp [ediStringpoolGet, hlt]
      obtain ⟨hpools, hptr⟩ := ediStringpoolAlloc_of_get hget
      refine .done a' ?_ ?_ hexact ?_ ?_ (Or.inl hroom)
      · rw [hptr]
        exact halloc
      · rw [hpools]
        exact hstores
      · rw [hpools]
        exact hnew
      · intro q hq
        obtain rfl : p = q := Option.some.inj (hlast.symm.trans hq)
        exact hsum
    · exact .wrapped init p a' rfl (Nat.le_of_not_lt hsum) halloc hstores hexact
        hnew
  · have hfit := fit_of_not_hasRoom hsized hn hroom
    have hadd : sizeAdd 0 n = (newPool n).fill + n := by
      have hfill : (newPool n).fill = 0 := rfl
      unfold sizeAdd
      omega
    have hfull : ∀ p ∈ pools.getLast?, ¬ p.fill + n < p.mem.length := by
      intro p hp hlt
      refine hroom ⟨p, hp, ?_⟩
      rw [sizeAdd, Nat.mod_eq_of_lt (hfit p hp)]
      exact hlt
    have hget : ediStringpoolGet pools n
        = (pools ++ [newPool n], pools.length) := by
      unfold ediStringpoolGet
      cases hlast : pools.getLast? with
      | none => rfl
      | some p => simp [hfull p hlast]
    obtain ⟨hpools, hptr⟩ := ediStringpoolAlloc_of_get hget
    have hlen := newPool_length n
    rw [hadd] at hstores
    refine .done a' ?_ ?_ (fun _ => hexact) ?_ hfit (Or.inr hok)
    · rw [hptr]
      exact halloc
    · rw [hpools]
      exact hstores
    · rw [hpools]
      exact sized_concat.2 ⟨hsized, by simpa [newPool] using hlen.1,
        newPool_lt hn⟩
  · exact .astray hroom hok halloc

end PoolArrays

/-! ## Runs of calls -/

/-- A call of `edi__stringpool_get` or `edi__stringpool_alloc`. -/
inductive PoolCall where
  | get (minsize : UInt64)
  | alloc (length : UInt64)
  deriving DecidableEq, Repr

/-- The bytes that an allocation has returned. -/
structure Region where
  start : StringPtr
  length : Nat
  deriving DecidableEq, Repr

/-- No byte belongs to both. -/
def Region.Apart (x y : Region) : Prop :=
  x.start.pool = y.start.pool →
    x.start.offset + x.length ≤ y.start.offset ∨
      y.start.offset + y.length ≤ x.start.offset

namespace PoolArrays

/-- A call, while the memory lasts. -/
def call (a : PoolArrays) : PoolCall → Option (PoolArrays × List Region)
  | .get minsize => do
    let r ← a.stringpoolGet minsize.toNat .all
    return (r.1, [])
  | .alloc length => do
    let r ← a.stringpoolAlloc length.toNat .all
    return (r.1, [⟨r.2, length.toNat⟩])

/-- A run of calls, with all that it has allocated. -/
def calls (a : PoolArrays) : List PoolCall → Option (PoolArrays × List Region)
  | [] => some (a, [])
  | c :: cs => do
    let r ← a.call c
    let rs ← r.1.calls cs
    return (rs.1, r.2 ++ rs.2)

/-- The three arrays agree with `npools`, and each fill mark is in its pool. -/
structure Agrees (a : PoolArrays) : Prop where
  exact : a.Exact
  pool : ∀ c < a.npools, ∃ fill size, slot a.stringpool c = some c ∧
    slot a.sp c = some ⟨c, fill⟩ ∧ slot a.poolsize c = some size ∧ fill ≤ size

/-- The regions are inside of their pools, and no two of them share a byte. -/
structure Separate (a : PoolArrays) (regions : List Region) : Prop where
  inside : ∀ x ∈ regions, ∃ size, slot a.poolsize x.start.pool = some size ∧
    x.start.offset + x.length ≤ size
  apart : regions.Pairwise Region.Apart

/-- The sum of the mark of the newest pool and of the length is a `size_t`. -/
def Fits (a : PoolArrays) : PoolCall → Prop
  | .get _ => True
  | .alloc length =>
    ∀ q ∈ slot a.sp (a.npools - 1), q.offset + length.toNat < 2 ^ 64

/-- No sum wraps in a run. -/
def Unwrapped (a : PoolArrays) : List PoolCall → Prop
  | [] => True
  | c :: cs => a.Fits c ∧ ∀ r ∈ a.call c, r.1.Unwrapped cs

/-! ## What a call keeps -/

/-- What holds of the arrays while the memory lasts. -/
structure Sound (a : PoolArrays) (pools : List Pool) : Prop where
  stores : a.Stores pools
  exact : a.Exact
  sized : Sized pools

/-- Pools keep their sizes, and their marks only move on. -/
def Grown (pools pools' : List Pool) : Prop :=
  ∀ (c : Nat) (p : Pool), pools[c]? = some p →
    ∃ p' : Pool, pools'[c]? = some p' ∧
      p'.mem.length = p.mem.length ∧ p.fill ≤ p'.fill

/-- A region starts behind the mark of its pool, if the pool was there. -/
def Behind (pools : List Pool) (x : Region) : Prop :=
  ∀ p : Pool, pools[x.start.pool]? = some p → p.fill ≤ x.start.offset

/-- A region ends in front of the mark of its pool. -/
def Taken (pools : List Pool) (x : Region) : Prop :=
  ∃ p : Pool, pools[x.start.pool]? = some p ∧
    x.start.offset + x.length ≤ p.fill

theorem sound_empty : empty.Sound [] where
  stores := stores_empty
  exact := ⟨rfl, rfl, rfl⟩
  sized := sized_nil

theorem Grown.refl (pools : List Pool) : Grown pools pools :=
  fun _ p hp => ⟨p, hp, rfl, Nat.le_refl _⟩

theorem Grown.trans {pools pools' pools'' : List Pool} (h : Grown pools pools')
    (h' : Grown pools' pools'') : Grown pools pools'' := by
  intro c p hp
  obtain ⟨p', hp', hlen', hfill'⟩ := h c p hp
  obtain ⟨p'', hp'', hlen'', hfill''⟩ := h' c p' hp'
  exact ⟨p'', hp'', hlen''.trans hlen', Nat.le_trans hfill' hfill''⟩

theorem grown_append (pools : List Pool) (p : Pool) :
    Grown pools (pools ++ [p]) := by
  intro c q hq
  have hc := (List.getElem?_eq_some_iff.1 hq).1
  exact ⟨q, by rw [List.getElem?_append_left hc, hq], rfl, Nat.le_refl _⟩

theorem grown_mark (init : List Pool) (p : Pool) (n : Nat) :
    Grown (init ++ [p]) (init ++ [{ p with fill := p.fill + n }]) := by
  intro c q hq
  have hc := (List.getElem?_eq_some_iff.1 hq).1
  by_cases hlast : c < init.length
  · rw [List.getElem?_append_left hlast] at hq
    exact ⟨q, by rw [List.getElem?_append_left hlast, hq], rfl, Nat.le_refl _⟩
  · have hlen : c = init.length := by
      rw [List.length_append, List.length_singleton] at hc
      omega
    subst hlen
    obtain rfl : p = q := by simpa using hq
    exact ⟨{ p with fill := p.fill + n }, by simp, rfl, Nat.le_add_right _ _⟩

theorem Behind.of_grown {pools pools' : List Pool} (h : Grown pools pools')
    {x : Region} (hx : Behind pools' x) : Behind pools x := by
  intro p hp
  obtain ⟨p', hp', -, hfill⟩ := h _ p hp
  exact Nat.le_trans hfill (hx p' hp')

theorem Taken.grown {pools pools' : List Pool} {x : Region}
    (hx : Taken pools x) (h : Grown pools pools') : Taken pools' x := by
  obtain ⟨p, hp, hle⟩ := hx
  obtain ⟨p', hp', -, hfill⟩ := h _ p hp
  exact ⟨p', hp', Nat.le_trans hle hfill⟩

/-- What was taken is apart from what comes behind it. -/
theorem Taken.apart {pools : List Pool} {x y : Region} (hx : Taken pools x)
    (hy : Behind pools y) : x.Apart y := by
  obtain ⟨p, hp, hle⟩ := hx
  exact fun heq => Or.inl (Nat.le_trans hle (hy p (heq ▸ hp)))

variable {a : PoolArrays} {pools : List Pool}

theorem Sound.agrees (h : a.Sound pools) : a.Agrees where
  exact := h.exact
  pool := by
    intro c hc
    rw [h.stores.npools] at hc
    have hp : pools[c]? = some pools[c] := List.getElem?_eq_getElem hc
    exact ⟨pools[c].fill, pools[c].mem.length, h.stores.slot_stringpool hc,
      h.stores.slot_sp hp, h.stores.slot_poolsize hp,
      h.sized.bounded _ (List.getElem_mem hc)⟩

theorem Sound.fits_alloc (h : a.Sound pools) (n : UInt64) :
    a.Fits (.alloc n) ↔ Fit pools n.toNat := by
  rcases List.eq_nil_or_concat' pools with rfl | ⟨init, p, rfl⟩
  · have hnone : slot a.sp (a.npools - 1) = none := by
      have hlen := h.exact.sp
      rw [h.stores.npools, List.length_nil] at hlen
      rw [slot, List.length_eq_zero_iff.1 hlen]
      rfl
    simp [Fits, Fit, hnone]
  · have hnpools : a.npools = init.length + 1 := by
      simpa using h.stores.npools
    have hsp := h.stores.slot_sp
      (show (init ++ [p])[init.length]? = some p by simp)
    simp [Fits, Fit, hnpools, hsp]

/-- No pool has more bytes than there are addresses. -/
theorem Sound.poolsize_lt (h : a.Sound pools) {c size : Nat}
    (hsize : slot a.poolsize c = some size) : size < 2 ^ 64 := by
  have hc := lt_length_of_slot hsize
  rw [h.exact.poolsize, h.stores.npools] at hc
  rw [h.stores.slot_poolsize (List.getElem?_eq_getElem hc),
    Option.some.injEq] at hsize
  rw [← hsize]
  exact h.sized.small _ (List.getElem_mem hc)

/-- What a call does.  If it fits it takes what is free, and otherwise it returns
more than there are addresses. -/
structure CallDone (a : PoolArrays) (pools : List Pool) (c : PoolCall)
    (a' : PoolArrays) (regions : List Region) (pools' : List Pool) : Prop where
  call : a.call c = some (a', regions)
  sound : a'.Sound pools'
  grown : a.Fits c → Grown pools pools'
  apart : a.Fits c → regions.Pairwise Region.Apart
  behind : a.Fits c → ∀ x ∈ regions, Behind pools x
  taken : a.Fits c → ∀ x ∈ regions, Taken pools' x
  wrapped : ¬ a.Fits c → ∃ x ∈ regions, 2 ^ 64 ≤ x.start.offset + x.length

theorem Sound.get (h : a.Sound pools) (n : UInt64) :
    ∃ a' pools', CallDone a pools (.get n) a' [] pools' := by
  have hempty : ∀ {a' pools'}, a.call (.get n) = some (a', []) →
      a'.Sound pools' → Grown pools pools' →
      CallDone a pools (.get n) a' [] pools' :=
    fun hcall hsound hgrown => {
      call := hcall
      sound := hsound
      grown := fun _ => hgrown
      apart := fun _ => List.Pairwise.nil
      behind := fun _ _ hx => absurd hx List.not_mem_nil
      taken := fun _ _ hx => absurd hx List.not_mem_nil
      wrapped := fun hfits => absurd trivial hfits }
  by_cases hroom : HasRoom pools n.toNat
  · obtain ⟨p, hp, hlt⟩ := hroom
    obtain ⟨init, rfl⟩ := List.getLast?_eq_some_iff.1 hp
    refine ⟨a, _, hempty ?_ h (Grown.refl _)⟩
    rw [PoolArrays.call, stringpoolGet_room h.stores hlt]
    rfl
  · have hall : Allocs.all 0 = true ∧ Allocs.all 1 = true ∧
        Allocs.all 2 = true ∧ Allocs.all 3 = true := ⟨rfl, rfl, rfl, rfl⟩
    obtain ⟨a', hcreate, hstores, hexact⟩ := h.stores.create n.toNat hall
    have hsized := sized_concat.2
      ⟨h.sized, Nat.zero_le _, newPool_lt n.toNat_lt⟩
    refine ⟨a', _, hempty ?_ ⟨hstores, hexact, hsized⟩ (grown_append pools _)⟩
    rw [PoolArrays.call, stringpoolGet_full h.stores hroom, Option.bind_eq_bind,
      Option.bind_some, hcreate]
    rfl

/-- The region of an allocation starts at the old mark and ends at the new one. -/
theorem ediStringpoolAlloc_region (pools : List Pool) (n : Nat) :
    Grown pools (ediStringpoolAlloc pools n).1 ∧
      Behind pools ⟨(ediStringpoolAlloc pools n).2, n⟩ ∧
      Taken (ediStringpoolAlloc pools n).1
        ⟨(ediStringpoolAlloc pools n).2, n⟩ := by
  obtain ⟨init, p, hpools, hptr, -, -, hold⟩ := ediStringpoolAlloc_spec pools n
  rw [hpools, hptr]
  refine ⟨?_, ?_, { p with fill := p.fill + n }, by simp, Nat.le_refl _⟩
  · rcases hold with rfl | ⟨rfl, -⟩
    · exact grown_mark init p n
    · exact grown_append pools _
  · intro q hq
    rcases hold with rfl | ⟨rfl, -⟩
    · obtain rfl : p = q := by simpa using hq
      exact Nat.le_refl _
    · rw [List.getElem?_eq_none (Nat.le_refl _)] at hq
      cases hq

theorem Sound.alloc (h : a.Sound pools) (n : UInt64) :
    ∃ a' x pools', CallDone a pools (.alloc n) a' [x] pools' := by
  have hfits := h.fits_alloc n
  cases h.stores.allocCases h.sized n.toNat_lt .all with
  | done a' halloc hstores hexact hsized hfit _ =>
    obtain ⟨hgrown, hbehind, htaken⟩ :=
      ediStringpoolAlloc_region pools n.toNat
    refine ⟨a', _, _, {
      call := by
        rw [PoolArrays.call, halloc]
        rfl
      sound := ⟨hstores, hexact h.exact, hsized⟩
      grown := fun _ => hgrown
      apart := fun _ => List.pairwise_singleton _ _
      behind := fun _ => List.forall_mem_singleton.2 hbehind
      taken := fun _ => List.forall_mem_singleton.2 htaken
      wrapped := fun hnot => absurd (hfits.2 hfit) hnot }⟩
  | wrapped init p a' hpools hwraps halloc hstores hexact hsized =>
    have hnot : ¬ a.Fits (.alloc n) := by
      rw [hfits]
      intro hfit
      have hlt := hfit p (by simp [hpools])
      omega
    refine ⟨a', ⟨⟨init.length, p.fill⟩, n.toNat⟩, _, {
      call := by
        rw [PoolArrays.call, halloc]
        rfl
      sound := ⟨hstores, hexact h.exact, hsized⟩
      grown := fun hf => absurd hf hnot
      apart := fun hf => absurd hf hnot
      behind := fun hf => absurd hf hnot
      taken := fun hf => absurd hf hnot
      wrapped := fun _ => ⟨_, List.mem_singleton_self _, hwraps⟩ }⟩
  | astray _ hok _ => exact absurd ⟨rfl, rfl, rfl, rfl⟩ hok

theorem Sound.call (h : a.Sound pools) (c : PoolCall) :
    ∃ a' regions pools', CallDone a pools c a' regions pools' := by
  cases c with
  | get n =>
    obtain ⟨a', pools', hdone⟩ := h.get n
    exact ⟨a', [], pools', hdone⟩
  | alloc n =>
    obtain ⟨a', x, pools', hdone⟩ := h.alloc n
    exact ⟨a', [x], pools', hdone⟩

/-! ## What a run keeps -/

/-- The regions of a run without a wrapped sum. -/
theorem Sound.calls_unwrapped (h : a.Sound pools) {cs : List PoolCall}
    (hcs : a.Unwrapped cs) :
    ∃ a' regions pools', a.calls cs = some (a', regions) ∧
      a'.Sound pools' ∧ Grown pools pools' ∧
      (∀ x ∈ regions, Behind pools x ∧ Taken pools' x) ∧
      regions.Pairwise Region.Apart := by
  induction cs generalizing a pools with
  | nil =>
    exact ⟨a, [], pools, rfl, h, Grown.refl pools, by simp, List.Pairwise.nil⟩
  | cons c cs ih =>
    obtain ⟨hfits, hrest⟩ := hcs
    obtain ⟨a₁, xs, pools₁, hdone⟩ := h.call c
    obtain ⟨a₂, ys, pools₂, hcalls, hsound, hgrown, hys, hapart⟩ :=
      ih hdone.sound (hrest _ hdone.call)
    have hgrown₁ := hdone.grown hfits
    refine ⟨a₂, xs ++ ys, pools₂, ?_, hsound, hgrown₁.trans hgrown, ?_, ?_⟩
    · rw [PoolArrays.calls, hdone.call, Option.bind_eq_bind, Option.bind_some,
        hcalls]
      rfl
    · intro x hx
      rcases List.mem_append.1 hx with hx | hx
      · exact ⟨hdone.behind hfits x hx, (hdone.taken hfits x hx).grown hgrown⟩
      · exact ⟨(hys x hx).1.of_grown hgrown₁, (hys x hx).2⟩
    · refine List.pairwise_append.2 ⟨hdone.apart hfits, hapart, ?_⟩
      exact fun x hx y hy => (hdone.taken hfits x hx).apart (hys y hy).1

/-- A run keeps the arrays sound in any case, and a sum that wraps shows in one of
its regions. -/
theorem Sound.calls (h : a.Sound pools) (cs : List PoolCall) :
    ∃ a' regions pools', a.calls cs = some (a', regions) ∧
      a'.Sound pools' ∧
      (¬ a.Unwrapped cs →
        ∃ x ∈ regions, 2 ^ 64 ≤ x.start.offset + x.length) := by
  induction cs generalizing a pools with
  | nil => exact ⟨a, [], pools, rfl, h, fun hnot => absurd trivial hnot⟩
  | cons c cs ih =>
    obtain ⟨a₁, xs, pools₁, hdone⟩ := h.call c
    obtain ⟨a₂, ys, pools₂, hcalls, hsound, hwrapped⟩ := ih hdone.sound
    refine ⟨a₂, xs ++ ys, pools₂, ?_, hsound, fun hnot => ?_⟩
    · rw [PoolArrays.calls, hdone.call, Option.bind_eq_bind, Option.bind_some,
        hcalls]
      rfl
    · by_cases hfits : a.Fits c
      · have hrest : ¬ a₁.Unwrapped cs := by
          intro hcs
          refine hnot ⟨hfits, fun r hr => ?_⟩
          obtain rfl := Option.some.inj (hdone.call.symm.trans hr)
          exact hcs
        obtain ⟨x, hx, hle⟩ := hwrapped hrest
        exact ⟨x, List.mem_append_right xs hx, hle⟩
      · obtain ⟨x, hx, hle⟩ := hdone.wrapped hfits
        exact ⟨x, List.mem_append_left ys hx, hle⟩

end PoolArrays

open PoolArrays in
/-- In every run of calls the regions are inside of their pools and apart, and the
arrays agree, exactly if no sum of a mark and a length wraps. -/
theorem stringpool_calls_iff (cs : List PoolCall) :
    (∃ a regions, PoolArrays.empty.calls cs = some (a, regions) ∧
      a.Agrees ∧ Separate a regions) ↔ PoolArrays.empty.Unwrapped cs := by
  constructor
  · rintro ⟨a, regions, hcalls, -, hseparate⟩
    obtain ⟨a', regions', pools, hcalls', hsound, hwrapped⟩ :=
      sound_empty.calls cs
    obtain ⟨rfl, rfl⟩ : a = a' ∧ regions = regions' := by
      simpa [hcalls'] using hcalls.symm
    by_contra hnot
    obtain ⟨x, hx, hle⟩ := hwrapped hnot
    obtain ⟨size, hsize, hin⟩ := hseparate.inside x hx
    have hsmall := hsound.poolsize_lt hsize
    omega
  · intro hcs
    obtain ⟨a, regions, pools, hcalls, hsound, -, htaken, hapart⟩ :=
      sound_empty.calls_unwrapped hcs
    refine ⟨a, regions, hcalls, hsound.agrees, ?_, hapart⟩
    intro x hx
    obtain ⟨p, hp, hle⟩ := (htaken x hx).2
    have hfill := hsound.sized.bounded p (List.mem_of_getElem? hp)
    exact ⟨p.mem.length, hsound.stores.slot_poolsize hp, by omega⟩

/-- Ten bytes, and then almost as many as there are addresses: the sum is `5`. -/
theorem stringpool_calls_wrapped :
    ¬ ∃ a regions, PoolArrays.empty.calls [.alloc 10, .alloc (0 - 5)]
        = some (a, regions) ∧ a.Agrees ∧ PoolArrays.Separate a regions := by
  rintro ⟨a, regions, hcalls, -, hseparate⟩
  have hsizes : (PoolArrays.empty.calls [.alloc 10, .alloc (0 - 5)]).map
      (fun r => slot r.1.poolsize 0) = some (some 512) := by decide +kernel
  have hregions : (PoolArrays.empty.calls [.alloc 10, .alloc (0 - 5)]).map
      Prod.snd = some [⟨⟨0, 0⟩, 10⟩, ⟨⟨0, 10⟩, 18446744073709551611⟩] := by
    decide +kernel
  rw [hcalls, Option.map_some, Option.some.injEq] at hsizes hregions
  have hmem : (⟨⟨0, 10⟩, 18446744073709551611⟩ : Region) ∈ regions := by
    rw [show regions = _ from hregions]
    exact List.mem_cons_of_mem _ (List.mem_singleton_self _)
  obtain ⟨size, hsize, hin⟩ := hseparate.inside _ hmem
  rw [show slot a.poolsize 0 = some 512 from hsizes, Option.some.injEq] at hsize
  subst hsize
  exact absurd hin (by decide)

end Libedi
