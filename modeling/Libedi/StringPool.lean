import Libedi.Data

/-!
# String pools

`libedi/stringpool.c`.  The strings of an interchange are cut off from pools:
blocks of memory with a fill mark, of which only the latest is used.  A pool is
cleared when it is created, and nothing here stores into it.

A pointer into a pool is the index of the pool and an offset.  The sum of a mark and
a length is a natural number here, and a `size_t` in the source.  The two are the
same below `2 ^ 64`.  `PoolArrays` has the sums that wrap, and `FreedStrings` proves
that without them its arrays hand out the strings of this list.

`ediStringpoolAlloc_spec` is all that the callers need to know: the new pointer
leads to the bytes that were asked for, and the old pointers keep leading to
theirs.
-/

namespace Libedi

/-- `STRINGPOOL_BLOCKSIZE`. -/
def stringpoolBlocksize : Nat := 512

/-- One of the pools of an interchange: `stringpool[n]` with its `poolsize[n]`
bytes, and the distance of `sp[n]` from it. -/
structure Pool where
  mem : Bytes
  fill : Nat
  deriving DecidableEq, Repr

/-- A `char *` into a pool. -/
structure StringPtr where
  pool : Nat
  offset : Nat
  deriving DecidableEq, Repr

/-- A new pool: `calloc` clears it. -/
def newPool (minsize : Nat) : Pool where
  mem := List.replicate
    (if stringpoolBlocksize < minsize then minsize else stringpoolBlocksize) 0
  fill := 0

/-- `edi__stringpool_get`: the pools, and the index of the one to use. -/
def ediStringpoolGet (pools : List Pool) (minsize : Nat) : List Pool × Nat :=
  match pools.getLast? with
  | none => (pools ++ [newPool minsize], pools.length)
  | some p =>
    if p.fill + minsize < p.mem.length then (pools, pools.length - 1)
    else (pools ++ [newPool minsize], pools.length)

/-- `edi__stringpool_alloc`. -/
def ediStringpoolAlloc (pools : List Pool) (length : Nat) :
    List Pool × StringPtr :=
  let r := ediStringpoolGet pools length
  (r.1.modify r.2 fun p => { p with fill := p.fill + length },
    ⟨r.2, (r.1[r.2]?.map Pool.fill).getD 0⟩)

/-- The string that starts at a pointer.  It ends at a NUL of the pool, see
`Terminated`. -/
def readString (pools : List Pool) (q : StringPtr) : Bytes :=
  ((pools[q.pool]?.elim [] (·.mem)).drop q.offset).takeWhile (· != 0)

@[simp] theorem readString_nil (q : StringPtr) : readString [] q = [] := by
  simp [readString]

/-- A NUL comes before the end of the pool. -/
def Terminated (pools : List Pool) (q : StringPtr) : Prop :=
  ∃ p, pools[q.pool]? = some p ∧ 0 ∈ p.mem.drop q.offset

/-- The pools still hold what `calloc` has left in them. -/
def Cleared (pools : List Pool) : Prop := ∀ p ∈ pools, ∀ b ∈ p.mem, b = 0

/-- The `n` bytes at a pointer belong to its pool, and so does the first of
them when `n` is `0`. -/
def Allocated (pools : List Pool) (n : Nat) (q : StringPtr) : Prop :=
  ∃ p, pools[q.pool]? = some p ∧ q.offset + n ≤ p.mem.length ∧
    q.offset < p.mem.length

/-- The last pool has room, or there is a new one. -/
theorem ediStringpoolGet_cases (pools : List Pool) (minsize : Nat) :
    (∃ init p, pools = init ++ [p] ∧ p.fill + minsize < p.mem.length ∧
      ediStringpoolGet pools minsize = (pools, init.length)) ∨
    (∀ p ∈ pools.getLast?, p.mem.length ≤ p.fill + minsize) ∧
      ediStringpoolGet pools minsize
        = (pools ++ [newPool minsize], pools.length) := by
  unfold ediStringpoolGet
  rcases List.eq_nil_or_concat' pools with rfl | ⟨init, p, rfl⟩
  · exact Or.inr ⟨by simp, rfl⟩
  · rw [List.getLast?_concat]
    by_cases hroom : p.fill + minsize < p.mem.length
    · refine Or.inl ⟨init, p, rfl, hroom, ?_⟩
      simp [hroom]
    · refine Or.inr ⟨?_, by simp [hroom]⟩
      simpa using hroom

/-- An allocation in the pool that `edi__stringpool_get` has found. -/
theorem ediStringpoolAlloc_of_get {pools init : List Pool} {p : Pool} {n : Nat}
    (hget : ediStringpoolGet pools n = (init ++ [p], init.length)) :
    (ediStringpoolAlloc pools n).1 = init ++ [{ p with fill := p.fill + n }] ∧
      (ediStringpoolAlloc pools n).2 = ⟨init.length, p.fill⟩ := by
  simp only [ediStringpoolAlloc, hget]
  refine ⟨?_, by simp⟩
  rw [List.modify_eq_take_cons_drop (by simp)]
  simp

theorem newPool_length (minsize : Nat) :
    minsize ≤ (newPool minsize).mem.length ∧
      0 < (newPool minsize).mem.length := by
  unfold newPool stringpoolBlocksize
  rw [List.length_replicate]
  split <;> omega

theorem newPool_cleared (minsize : Nat) : ∀ b ∈ (newPool minsize).mem, b = 0 :=
  fun _ hb => List.eq_of_mem_replicate hb

/-- An allocation makes room behind the fill mark of the last pool or of a new
one, and does not touch the memory. -/
theorem ediStringpoolAlloc_spec (pools : List Pool) (n : Nat) :
    ∃ init p, (ediStringpoolAlloc pools n).1
        = init ++ [{ p with fill := p.fill + n }] ∧
      (ediStringpoolAlloc pools n).2 = ⟨init.length, p.fill⟩ ∧
      p.fill + n ≤ p.mem.length ∧ p.fill < p.mem.length ∧
      (pools = init ++ [p] ∨ pools = init ∧ p = newPool n) := by
  rcases ediStringpoolGet_cases pools n with
    ⟨init, p, rfl, hroom, hget⟩ | ⟨-, hget⟩
  · obtain ⟨hpools, hptr⟩ := ediStringpoolAlloc_of_get hget
    exact ⟨init, p, hpools, hptr, by omega, by omega, Or.inl rfl⟩
  · obtain ⟨hpools, hptr⟩ := ediStringpoolAlloc_of_get hget
    have hlen := newPool_length n
    have hfill : (newPool n).fill = 0 := rfl
    exact ⟨pools, newPool n, hpools, hptr, by omega, by omega,
      Or.inr ⟨rfl, rfl⟩⟩

theorem Cleared.alloc {pools : List Pool} (h : Cleared pools) (n : Nat) :
    Cleared (ediStringpoolAlloc pools n).1 := by
  obtain ⟨init, p, hpools, -, -, -, hold⟩ := ediStringpoolAlloc_spec pools n
  rw [hpools]
  intro q hq b hb
  rcases hold with rfl | ⟨rfl, rfl⟩
  · rcases List.mem_append.1 hq with hq | hq
    · exact h q (List.mem_append_left _ hq) b hb
    · obtain rfl := List.mem_singleton.1 hq
      exact h p (by simp) b hb
  · rcases List.mem_append.1 hq with hq | hq
    · exact h q hq b hb
    · obtain rfl := List.mem_singleton.1 hq
      exact newPool_cleared n b hb

theorem allocated_alloc (pools : List Pool) (n : Nat) :
    Allocated (ediStringpoolAlloc pools n).1 n
      (ediStringpoolAlloc pools n).2 := by
  obtain ⟨init, p, hpools, hptr, hroom, hlt, -⟩ :=
    ediStringpoolAlloc_spec pools n
  rw [hpools, hptr]
  exact ⟨{ p with fill := p.fill + n }, by simp, hroom, hlt⟩

theorem Allocated.mono {pools : List Pool} {m n : Nat} {q : StringPtr}
    (h : Allocated pools n q) (hle : m ≤ n) : Allocated pools m q := by
  obtain ⟨p, hp, hroom, hlt⟩ := h
  exact ⟨p, hp, by omega, hlt⟩

theorem Allocated.alloc {pools : List Pool} {m : Nat} {q : StringPtr}
    (h : Allocated pools m q) (n : Nat) :
    Allocated (ediStringpoolAlloc pools n).1 m q := by
  obtain ⟨r, hr, hroom, hlt⟩ := h
  obtain ⟨init, p, hpools, -, -, -, hold⟩ := ediStringpoolAlloc_spec pools n
  have hq := (List.getElem?_eq_some_iff.1 hr).1
  rw [hpools]
  rcases hold with rfl | ⟨rfl, rfl⟩
  · by_cases hlast : q.pool < init.length
    · rw [List.getElem?_append_left hlast] at hr
      exact ⟨r, by rw [List.getElem?_append_left hlast, hr], hroom, hlt⟩
    · have hpool : q.pool = init.length := by
        rw [List.length_append, List.length_singleton] at hq
        omega
      obtain rfl : p = r := by simpa [hpool] using hr
      exact ⟨{ p with fill := p.fill + n }, by simp [hpool], hroom, hlt⟩
  · exact ⟨r, by rw [List.getElem?_append_left hq, hr], hroom, hlt⟩

/-- Whatever starts in a pool that was never stored into is the empty string. -/
theorem Cleared.readString {pools : List Pool} (h : Cleared pools)
    (q : StringPtr) : readString pools q = [] := by
  unfold Libedi.readString
  cases hq : pools[q.pool]? with
  | none => simp
  | some p =>
    have hmem := h p (List.mem_of_getElem? hq)
    rw [Option.elim_some]
    cases hdrop : p.mem.drop q.offset with
    | nil => rfl
    | cons b bs =>
      have hb : b ∈ p.mem.drop q.offset := by simp [hdrop]
      rw [hmem b (List.mem_of_mem_drop hb)]
      rfl

theorem Cleared.terminated {pools : List Pool} (h : Cleared pools) {n : Nat}
    {q : StringPtr} (hq : Allocated pools n q) : Terminated pools q := by
  obtain ⟨p, hp, -, hlt⟩ := hq
  refine ⟨p, hp, ?_⟩
  have hzero := h p (List.mem_of_getElem? hp) p.mem[q.offset]
    (List.getElem_mem hlt)
  rw [List.drop_eq_getElem_cons hlt, hzero]
  exact List.mem_cons_self

end Libedi
