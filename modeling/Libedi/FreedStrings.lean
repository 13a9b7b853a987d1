import Libedi.PoolArrays

/-!
# Which strings are freed

`edi__stringpool_free` of `libedi/stringpool.c`, with the arrays of `PoolArrays` and
their sums of a `size_t`.

A string is kept from `free` if it starts before the mark that its pool has in the
end.  That mark is computed from the lengths alone (`lastMark`): the strings of the
same pool behind it have moved it on, or back, where a sum has wrapped.  So
`StringsCovered` says of the lengths of a run that all its strings are kept.
`StringsCovered` is `ZerosCovered` where no sum wraps, and then the arrays do what
the list of pools does.
-/

namespace Libedi

open SlotArray

/-- The pool that `n` bytes are cut from, if the newest pool has this size and this
mark: its size, and its mark in front of them. -/
def cutFrom (newest : Nat × Nat) (n : Nat) : Nat × Nat :=
  if sizeAdd newest.2 n < newest.1 then newest
  else ((newPool n).mem.length, 0)

/-- The mark of the newest pool after more strings.  It is moved as long as they come
into this pool. -/
def lastMark (newest : Nat × Nat) : List Nat → Nat
  | [] => newest.2
  | n :: ns =>
    if sizeAdd newest.2 n < newest.1 then
      lastMark (newest.1, sizeAdd newest.2 n) ns
    else newest.2

/-- Each of the strings starts before the mark that its pool has in the end. -/
def StringsCovered (newest : Nat × Nat) : List Nat → Prop
  | [] => True
  | n :: ns =>
    let cut := cutFrom newest n
    let rest := (cut.1, sizeAdd cut.2 n)
    cut.2 < lastMark rest ns ∧ StringsCovered rest ns

namespace PoolArrays

/-- `edi__stringpool_free`: what it gives to `free`, where the block `c` is at the
address `base c`.  The result is `none` if a slot is read that nothing was stored
in. -/
def stringpoolFree (base : Nat → Nat) (a : PoolArrays) (p : Nat) :
    Option (Option Nat) := do
  let found ← (List.range a.npools).anyM fun c => do
    let block ← slot a.stringpool c
    let sp ← slot a.sp c
    return decide (base block ≤ p) && decide (p < sp.address base)
  return if found then none else some p

/-- Pools are different blocks of memory. -/
def Placed (base : Nat → Nat) (a : PoolArrays) : Prop :=
  ∀ c d m n, slot a.poolsize c = some m → slot a.poolsize d = some n → c ≠ d →
    base c + m ≤ base d ∨ base d + n ≤ base c

end PoolArrays

/-! ## The test of an address -/

/-- A loop that is left at the first hit, and whose tests all have a result. -/
theorem anyM_eq_some {α : Type*} {f : α → Option Bool} {g : α → Bool}
    {l : List α} (h : ∀ x ∈ l, f x = some (g x)) :
    l.anyM f = some (l.any g) := by
  induction l with
  | nil => rfl
  | cons x l ih =>
    rw [List.forall_mem_cons] at h
    rw [List.anyM, h.1, Option.bind_eq_bind, Option.bind_some, ih h.2,
      List.any_cons]
    cases g x <;> rfl

/-- The arrays give to `free` what the list of pools does. -/
theorem PoolArrays.Stores.stringpoolFree {a : PoolArrays} {pools : List Pool}
    (h : a.Stores pools) (base : Nat → Nat) (p : Nat) :
    a.stringpoolFree base p = some (ediStringpoolFree base pools p) := by
  have htest : ∀ c ∈ List.range a.npools, (do
      let block ← slot a.stringpool c
      let sp ← slot a.sp c
      return decide (base block ≤ p) && decide (p < sp.address base))
      = some (decide (base c ≤ p) &&
        decide (p < base c + (pools[c]?.map Pool.fill).getD 0)) := by
    intro c hc
    rw [List.mem_range, h.npools] at hc
    have hp : pools[c]? = some pools[c] := List.getElem?_eq_getElem hc
    rw [h.slot_stringpool hc, h.slot_sp hp, hp]
    rfl
  rw [PoolArrays.stringpoolFree, anyM_eq_some htest, h.npools]
  rfl

/-- A string before the mark of its pool is kept, wherever the pools are. -/
theorem Covered.ediStringpoolFree {pools : List Pool} {q : StringPtr}
    (h : Covered pools q) (base : Nat → Nat) :
    ediStringpoolFree base pools (q.address base) = none := by
  obtain ⟨p, hp, hlt⟩ := h
  rw [ediStringpoolFree_eq_none, StringPtr.address]
  exact ⟨q.pool, p, hp, by omega, by omega⟩

/-- The pools at multiples of a size that is above all of theirs: there an address at
the end of a pool is in no other one. -/
theorem covered_of_ediStringpoolFree {pools : List Pool} {size : Nat}
    (hsize : ∀ p ∈ pools, p.mem.length < size) (hbounded : Bounded pools)
    {q : StringPtr} {p : Pool} (hp : pools[q.pool]? = some p)
    (hle : q.offset ≤ p.mem.length)
    (h : Libedi.ediStringpoolFree (fun c => size * c) pools
      (q.address fun c => size * c) = none) :
    Covered pools q := by
  rw [ediStringpoolFree_eq_none, StringPtr.address] at h
  obtain ⟨c, r, hr, hstart, hend⟩ := h
  have hpsize := hsize p (List.mem_of_getElem? hp)
  have hrsize := hsize r (List.mem_of_getElem? hr)
  have hrfill := hbounded r (List.mem_of_getElem? hr)
  -- The two addresses are in the same multiple of the size.
  have hbelow : size * c < size * (q.pool + 1) := by
    rw [Nat.mul_succ]
    omega
  have habove : size * q.pool < size * (c + 1) := by
    rw [Nat.mul_succ]
    omega
  have hc := Nat.lt_of_mul_lt_mul_left hbelow
  have hq := Nat.lt_of_mul_lt_mul_left habove
  obtain rfl : c = q.pool := by omega
  exact ⟨r, hr, by omega⟩

/-! ## A run of allocations -/

/-- The size and the mark of the newest pool. -/
def newest (pools : List Pool) : Nat × Nat :=
  pools.getLast?.elim (0, 0) fun p => (p.mem.length, p.fill)

@[simp] theorem newest_concat (init : List Pool) (p : Pool) :
    newest (init ++ [p]) = (p.mem.length, p.fill) := by
  simp [newest]

namespace PoolArrays

variable {a : PoolArrays} {pools : List Pool}

theorem hasRoom_iff {n : Nat} : HasRoom pools n ↔
    sizeAdd (newest pools).2 n < (newest pools).1 := by
  rcases List.eq_nil_or_concat' pools with rfl | ⟨init, p, rfl⟩
  · simp [HasRoom, newest]
  · simp [HasRoom]

/-- What an allocation does while the memory lasts: it moves the mark of the newest
pool, or of a new one. -/
theorem Sound.stringpoolAlloc (h : a.Sound pools) (n : UInt64) :
    ∃ a' init p,
      a.stringpoolAlloc n.toNat .all = some (a', ⟨init.length, p.fill⟩) ∧
      a'.Sound (init ++ [{ p with fill := sizeAdd p.fill n.toNat }]) ∧
      (p.mem.length, p.fill) = cutFrom (newest pools) n.toNat ∧
      p.fill ≤ p.mem.length ∧
      (HasRoom pools n.toNat ∧ pools = init ++ [p] ∨
        ¬ HasRoom pools n.toNat ∧ pools = init) := by
  rcases stringpoolAlloc_cases h.stores n.toNat .all with
    ⟨init, p, a', rfl, hlt, halloc, hstores, hexact⟩ |
      ⟨hroom, -, a', halloc, hstores, hexact⟩ | ⟨-, hok, -⟩
  · obtain ⟨hinit, hfill, hsmall⟩ := sized_concat.1 h.sized
    have hroom : HasRoom (init ++ [p]) n.toNat := ⟨p, by simp, hlt⟩
    refine ⟨a', init, p, halloc, ⟨hstores, hexact h.exact, ?_⟩, ?_, hfill,
      Or.inl ⟨hroom, rfl⟩⟩
    · exact sized_concat.2 ⟨hinit, Nat.le_of_lt hlt, hsmall⟩
    · rw [cutFrom, if_pos (hasRoom_iff.1 hroom), newest_concat]
  · have hlen := newPool_length n.toNat
    have hadd : sizeAdd 0 n.toNat = n.toNat := by
      have hn := n.toNat_lt
      unfold sizeAdd
      omega
    refine ⟨a', pools, newPool n.toNat, halloc, ⟨hstores, hexact, ?_⟩, ?_,
      Nat.zero_le _, Or.inr ⟨hroom, rfl⟩⟩
    · refine sized_concat.2 ⟨h.sized, ?_, newPool_lt n.toNat_lt⟩
      show sizeAdd 0 n.toNat ≤ (newPool n.toNat).mem.length
      omega
    · rw [cutFrom, if_neg (mt hasRoom_iff.2 hroom)]
      rfl
  · exact absurd ⟨rfl, rfl, rfl, rfl⟩ hok

/-- The pools behind a run: the older ones are as they were, and the mark of the
newest one is where the strings have moved it. -/
structure After (pools : List Pool) (ns : List Nat) (pools' : List Pool) :
    Prop where
  older : ∀ c, c + 1 < pools.length → pools'[c]? = pools[c]?
  last : ∀ init p, pools = init ++ [p] →
    pools'[init.length]?
      = some { p with fill := lastMark (p.mem.length, p.fill) ns }

theorem After.nil (pools : List Pool) : After pools [] pools where
  older := fun _ _ => rfl
  last := by
    rintro init p rfl
    simp [lastMark]

theorem After.cons {init : List Pool} {p : Pool} {n : Nat} {ns : List Nat}
    {pools' : List Pool}
    (hold : HasRoom pools n ∧ pools = init ++ [p] ∨
      ¬ HasRoom pools n ∧ pools = init)
    (h : After (init ++ [{ p with fill := sizeAdd p.fill n }]) ns pools') :
    After pools (n :: ns) pools' := by
  constructor
  · intro c hc
    rcases hold with ⟨-, rfl⟩ | ⟨-, rfl⟩
    · have hlt : c < init.length := by simpa using hc
      rw [h.older c (by simpa using hc), List.getElem?_append_left hlt,
        List.getElem?_append_left hlt]
    · rw [h.older c (by simp; omega), List.getElem?_append_left (by omega)]
  · intro init' p' hpools
    rcases hold with ⟨hroom, rfl⟩ | ⟨hroom, rfl⟩
    · obtain ⟨rfl, hp⟩ := List.append_inj' hpools rfl
      obtain rfl : p = p' := List.head_eq_of_cons_eq hp
      rw [h.last init _ rfl, lastMark,
        if_pos (by simpa using hasRoom_iff.1 hroom)]
    · subst hpools
      rw [h.older _ (by simp), List.getElem?_append_left (by simp), lastMark,
        if_neg (by simpa using mt hasRoom_iff.2 hroom)]
      simp

theorem calls_cons {a₁ a₂ : PoolArrays} {c : PoolCall} {cs : List PoolCall}
    {xs ys : List Region} (hcall : a.call c = some (a₁, xs))
    (hcalls : a₁.calls cs = some (a₂, ys)) :
    a.calls (c :: cs) = some (a₂, xs ++ ys) := by
  rw [PoolArrays.calls, hcall, Option.bind_eq_bind, Option.bind_some, hcalls]
  rfl

/-- The strings of a run are in their pools, and they are all covered exactly if
their lengths say so. -/
theorem Sound.calls_alloc (h : a.Sound pools) (ns : List UInt64) :
    ∃ a' regions pools', a.calls (ns.map .alloc) = some (a', regions) ∧
      a'.Sound pools' ∧ After pools (ns.map UInt64.toNat) pools' ∧
      (∀ x ∈ regions, ∃ p, pools'[x.start.pool]? = some p ∧
        x.start.offset ≤ p.mem.length) ∧
      ((∀ x ∈ regions, Covered pools' x.start) ↔
        StringsCovered (newest pools) (ns.map UInt64.toNat)) := by
  induction ns generalizing a pools with
  | nil =>
    exact ⟨a, [], pools, rfl, h, After.nil pools, by simp,
      by simp [StringsCovered]⟩
  | cons n ns ih =>
    obtain ⟨a₁, init, p, halloc, hsound₁, hcut, hfill, hold⟩ :=
      h.stringpoolAlloc n
    obtain ⟨a', xs, pools', hcalls, hsound, hafter, hxs, hcovered⟩ := ih hsound₁
    have hlast := hafter.last init _ rfl
    have hcall : a.call (.alloc n)
        = some (a₁, [⟨⟨init.length, p.fill⟩, n.toNat⟩]) := by
      rw [PoolArrays.call, halloc]
      rfl
    refine ⟨a', _ :: xs, pools', calls_cons hcall hcalls, hsound,
      hafter.cons hold, List.forall_mem_cons.2 ⟨⟨_, hlast, hfill⟩, hxs⟩, ?_⟩
    rw [List.forall_mem_cons, hcovered, List.map_cons, StringsCovered, ← hcut,
      newest_concat]
    refine and_congr_left fun _ => ?_
    constructor
    · rintro ⟨r, hr, hlt⟩
      obtain rfl := Option.some.inj (hlast.symm.trans hr)
      exact hlt
    · exact fun hlt => ⟨_, hlast, hlt⟩

/-- Without a sum that wraps the strings are those of the list of pools. -/
theorem Sound.calls_alloc_unwrapped (h : a.Sound pools) {ns : List UInt64}
    (hns : a.Unwrapped (ns.map .alloc)) :
    ∃ a' regions, a.calls (ns.map .alloc) = some (a', regions) ∧
      a'.Sound (ediStringpoolAllocs pools (ns.map UInt64.toNat)).1 ∧
      regions.map Region.start
        = (ediStringpoolAllocs pools (ns.map UInt64.toNat)).2 := by
  induction ns generalizing a pools with
  | nil => exact ⟨a, [], rfl, h, rfl⟩
  | cons n ns ih =>
    obtain ⟨hfits, hrest⟩ := hns
    cases h.stores.allocCases h.sized n.toNat_lt .all with
    | done a₁ halloc hstores hexact hsized hfit _ =>
      have hcall : a.call (.alloc n) = some (a₁,
          [⟨(ediStringpoolAlloc pools n.toNat).2, n.toNat⟩]) := by
        rw [PoolArrays.call, halloc]
        rfl
      obtain ⟨a', xs, hcalls, hsound, hxs⟩ :=
        ih ⟨hstores, hexact h.exact, hsized⟩ (hrest _ hcall)
      refine ⟨a', _ :: xs, calls_cons hcall hcalls, hsound, ?_⟩
      rw [List.map_cons, hxs]
      rfl
    | wrapped init p a₁ hpools hwraps _ _ _ _ =>
      have hfit := (h.fits_alloc n).1 hfits p (by simp [hpools])
      omega
    | astray _ hok _ => exact absurd ⟨rfl, rfl, rfl, rfl⟩ hok

/-- The places of the pools of the list. -/
theorem Stores.placed {base : Nat → Nat} (h : a.Stores pools)
    (hplaced : a.Placed base) : Libedi.Placed base pools := by
  intro c d p q hp hq hne
  exact hplaced c d _ _ (h.slot_poolsize hp) (h.slot_poolsize hq) hne

/-- Pools that are all put at multiples of a size that none of them exceeds. -/
theorem Sound.placed_mul (h : a.Sound pools) {size : Nat}
    (hsize : ∀ p ∈ pools, p.mem.length ≤ size) :
    a.Placed fun c => size * c := by
  have hpool : ∀ {c m : Nat}, slot a.poolsize c = some m →
      ∃ p, pools[c]? = some p ∧ p.mem.length = m := by
    intro c m hm
    have hc := lt_length_of_slot hm
    rw [h.exact.poolsize, h.stores.npools] at hc
    have hp : pools[c]? = some pools[c] := List.getElem?_eq_getElem hc
    exact ⟨pools[c], hp,
      Option.some.inj ((h.stores.slot_poolsize hp).symm.trans hm)⟩
  intro c d m n hm hn hne
  obtain ⟨p, hp, rfl⟩ := hpool hm
  obtain ⟨q, hq, rfl⟩ := hpool hn
  exact Libedi.placed_mul hsize c d p q hp hq hne

end PoolArrays

/-! ## The strings that are kept -/

open PoolArrays in
/-- The strings of a run of allocations are recognised as lying in a pool, wherever
the pools are, exactly if their lengths say so.  Where no sum wraps this is so at
each place of the pools if each length zero is followed by a string that is not empty
in the same pool, and only then, and `edi_interchange_destroy` frees no value of an
interchange that was built with them under the same condition. -/
theorem ediStringpoolFree_keeps_iff (ns : List UInt64) :
    ∃ a regions, PoolArrays.empty.calls (ns.map .alloc) = some (a, regions) ∧
      ((∀ base, a.Placed base → ∀ x ∈ regions,
          a.stringpoolFree base (x.start.address base) = some none) ↔
        StringsCovered (0, 0) (ns.map UInt64.toNat)) ∧
      (PoolArrays.empty.Unwrapped (ns.map .alloc) →
        ∀ base, a.Placed base →
          ((∀ x ∈ regions,
              a.stringpoolFree base (x.start.address base) = some none) ↔
            ZerosCovered 0 (ns.map UInt64.toNat)) ∧
          ∀ (calls : List BuildCall) (i : HeapInterchange) (stale : Nat),
            ediCalls ediInterchangeCreate calls = some i →
            calls.map (fun c => c.given.length) = ns.map UInt64.toNat →
            (ediInterchangeDestroy base stale i = [] ↔
              ZerosCovered 0 (ns.map UInt64.toNat))) := by
  obtain ⟨a, regions, pools, hcalls, hsound, -, hinside, hcovered⟩ :=
    sound_empty.calls_alloc ns
  have hfree : ∀ (base : Nat → Nat) (p : Nat), a.stringpoolFree base p = some none
      ↔ ediStringpoolFree base pools p = none := by
    intro base p
    rw [hsound.stores.stringpoolFree, Option.some.injEq]
  refine ⟨a, regions, hcalls, ?_, ?_⟩
  · rw [← show newest [] = (0, 0) from rfl, ← hcovered]
    constructor
    · intro hkept x hx
      obtain ⟨p, hp, hle⟩ := hinside x hx
      obtain ⟨size, hsize⟩ : ∃ size, ∀ p ∈ pools, p.mem.length < size :=
        ⟨2 ^ 64, hsound.sized.small⟩
      have hplaced := hsound.placed_mul fun p hp => Nat.le_of_lt (hsize p hp)
      exact covered_of_ediStringpoolFree hsize hsound.sized.bounded hp hle
        ((hfree _ _).1 (hkept _ hplaced x hx))
    · intro hall base _ x hx
      exact (hfree _ _).2 ((hall x hx).ediStringpoolFree base)
  · intro hunwrapped base hplaced
    obtain ⟨a', regions', hcalls', hsound', hptrs⟩ :=
      sound_empty.calls_alloc_unwrapped hunwrapped
    obtain ⟨rfl, rfl⟩ : a = a' ∧ regions = regions' := by
      simpa [hcalls'] using hcalls.symm
    have hlist := ediStringpoolAllocs_keeps_iff (hsound'.stores.placed hplaced)
    have hkept : (∀ x ∈ regions,
        a.stringpoolFree base (x.start.address base) = some none) ↔
        ZerosCovered 0 (ns.map UInt64.toNat) := by
      rw [← hlist.1, ← hptrs, List.forall_mem_map]
      refine forall₂_congr fun x _ => ?_
      rw [hsound'.stores.stringpoolFree, Option.some.injEq]
    exact ⟨hkept, hlist.2⟩

/-- An empty string that is the only one is the start of a pool. -/
theorem ediStringpoolFree_frees_pool :
    (PoolArrays.empty.calls [.alloc 0]).map Prod.snd = some [⟨⟨0, 0⟩, 0⟩] ∧
    (∀ r ∈ PoolArrays.empty.calls [.alloc 0], r.1.Placed fun _ => 4096) ∧
    (PoolArrays.empty.calls [.alloc 0]).map
      (fun r => r.1.stringpoolFree (fun _ => 4096) 4096)
      = some (some (some 4096)) ∧
    (ediCalls ediInterchangeCreate [.segmentCreate 0 []]).map
      (ediInterchangeDestroy (fun _ => 4096) 0) = some [4096] := by
  refine ⟨by decide +kernel, ?_, by decide +kernel, by decide +kernel⟩
  intro r hr c d m n hm hn hne
  have hsize : (PoolArrays.empty.calls [.alloc 0]).map (fun r => r.1.poolsize)
      = some [some 512] := by decide +kernel
  rw [Option.mem_def.1 hr, Option.map_some, Option.some.injEq] at hsize
  rw [show r.1.poolsize = [some 512] from hsize] at hm hn
  have hc := lt_length_of_slot hm
  have hd := lt_length_of_slot hn
  simp only [List.length_singleton] at hc hd
  omega

/-- An empty string at the start of the second pool, with another one behind. -/
theorem ediStringpoolFree_keeps_empty :
    ∃ a regions, PoolArrays.empty.calls ([600, 0, 2].map .alloc)
        = some (a, regions) ∧
      ∀ base, a.Placed base → ∀ x ∈ regions,
        a.stringpoolFree base (x.start.address base) = some none := by
  obtain ⟨a, regions, hcalls, hkept, -⟩ :=
    ediStringpoolFree_keeps_iff [600, 0, 2]
  refine ⟨a, regions, hcalls, hkept.2 ?_⟩
  simp [StringsCovered, cutFrom, lastMark, sizeAdd, newPool_mem_length,
    stringpoolBlocksize]

/-- The sum of the second length wraps, and the mark is moved back in front of the
string. -/
example : ¬ StringsCovered (0, 0) [10, 2 ^ 64 - 5] := by
  simp [StringsCovered, cutFrom, lastMark, sizeAdd, newPool_mem_length,
    stringpoolBlocksize]

end Libedi
