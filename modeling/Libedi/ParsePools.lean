import Mathlib.Algebra.GroupWithZero.Nat
import Libedi.ParseMemory
import Libedi.PoolOwnership

/-!
# The pool of a parse

The comment in `libedi/parse.c` says that the values of a message need no more room
than the message itself, so one pool is made for all of them.  Each value asks for
its own bytes and one more, and there is one byte behind each value as well: a
separator, or the NUL of the message.  So what is asked for is the length of the
message and its NUL, less the bytes that belong to no value (`spareBytes`).

This sum always fits into the pool.  But the test of `edi__stringpool_get` is a
strict one.  `ediParserParse_onePool_iff` says when that makes a second pool.
-/

namespace Libedi

/-! ## The pools -/

/-- The bytes that the values of a parse ask for, one after the other. -/
def requests (accesses : List Access) : List Nat :=
  accesses.filterMap fun
    | .value requested _ _ => some requested
    | _ => none

/-- The string pools behind an access. -/
def Access.pools (pools : List Pool) : Access → List Pool
  | .pool minsize => (ediStringpoolGet pools minsize).1
  | .value requested _ _ => (ediStringpoolAlloc pools requested).1
  | _ => pools

/-- The string pools behind a parse. -/
def poolsOf (accesses : List Access) : List Pool :=
  accesses.foldl Access.pools []

/-- The values of a parse ask for no more than its first pool has, and there is no
second one. -/
def OnePool (accesses : List Access) : Prop :=
  (∀ pool ∈ (poolsOf accesses).head?,
      (requests accesses).sum ≤ pool.mem.length) ∧
    (poolsOf accesses).length ≤ 1

/-- The parser that runs on a message, and the text that is left for it. -/
def runsOn (lib : EdiLib) (oparser : EdiParser) (message : CString) :
    Option (EdiParser × Bytes) :=
  if oparser.detect = 1 then
    (ediDetect lib.detectparams message).found.map fun (params, skip) =>
      (if params.version ≠ 0 then ediParserInit (some params) else oparser,
        message.bytes.drop skip)
  else some (oparser, message.bytes)

/-! ## Bytes that belong to no value -/

/-- A place in a message. -/
inductive Spot where
  /-- In front of a segment. -/
  | segment
  /-- In front of a value. -/
  | value (first : Bool)
  /-- In a value or at its end, with the flag `e`. -/
  | inside (first pending : Bool)
  deriving DecidableEq, Repr

/-- The place behind a byte of a value, or behind the byte that ends it. -/
def Spot.behind (p : EdiParser) (first : Bool) (c : UInt8) : Spot :=
  if p.isEscape c then .inside first true
  else if p.stops first c then
    if p.isSeg c then .segment else .value (first && !p.opens c)
  else .inside first false

/-- The place behind a byte, and whether the byte belongs to no value: a newline in
front of a segment, or a segment separator where no value is. -/
def Spot.step (p : EdiParser) (c : UInt8) : Spot → Nat × Spot
  | segment =>
    if isNewline c || p.isSeg c then (1, segment) else (0, behind p true c)
  | value first => if p.isSeg c then (1, segment) else (0, behind p first c)
  | inside first true => (0, inside first false)
  | inside first false => (0, behind p first c)

/-- The number of bytes that belong to no value.  The NUL at the end is one of them,
if the text does not end in a value. -/
def spareBytes (p : EdiParser) : Spot → Bytes → Nat
  | .inside _ _, [] => 0
  | .segment, [] | .value _, [] => 1
  | spot, c :: m => (spot.step p c).1 + spareBytes p (spot.step p c).2 m

/-- The place behind the byte that ends a value. -/
theorem Spot.behind_stop {p : EdiParser} {first : Bool} {c : UInt8}
    (hesc : p.isEscape c = false) (hstop : p.stops first c = true) :
    Spot.behind p first c
      = if p.isSeg c then .segment else .value (first && !p.opens c) := by
  simp [behind, hesc, hstop]

/-- A scan goes over bytes of its value, and over the one that ends it. -/
theorem spareBytes_scanValue (p : EdiParser) (first e : Bool) (m : Bytes) :
    spareBytes p (.inside first e) m
      = match (scanValue p first e m).2 with
        | [] => 0
        | d :: ds =>
          spareBytes p
            (if p.isSeg d then .segment else .value (first && !p.opens d)) ds := by
  fun_induction scanValue p first e m with
  | case1 e => simp [spareBytes]
  | case2 c cs ih =>
    rw [spareBytes, Spot.step, Nat.zero_add, ih]
    rfl
  | case3 c cs hc ih =>
    rw [spareBytes, Spot.step, Nat.zero_add, Spot.behind, if_pos hc, ih]
    rfl
  | case4 c cs hc hstop =>
    rw [spareBytes, Spot.step, Nat.zero_add,
      Spot.behind_stop (eq_false_of_ne_true hc) hstop]
  | case5 c cs hc hstop ih =>
    rw [spareBytes, Spot.step, Nat.zero_add, Spot.behind, if_neg hc,
      if_neg hstop, ih]
    rfl

/-- In front of a value that is there. -/
theorem spareBytes_value {p : EdiParser} {first : Bool} {c : UInt8}
    (hseg : p.isSeg c = false) (cs : Bytes) :
    spareBytes p (.value first) (c :: cs)
      = spareBytes p (.inside first false) (c :: cs) := by
  simp [spareBytes, Spot.step, hseg]

/-- Newlines in front of a segment. -/
theorem spareBytes_dropWhile (p : EdiParser) (m : Bytes) :
    spareBytes p .segment m + (m.dropWhile isNewline).length
      = m.length + spareBytes p (.value true) (m.dropWhile isNewline) := by
  induction m with
  | nil => rfl
  | cons c m ih =>
    by_cases hc : isNewline c = true
    · rw [List.dropWhile_cons_of_pos hc, spareBytes, Spot.step, hc]
      simp only [Bool.true_or, if_true, List.length_cons]
      omega
    · rw [List.dropWhile_cons_of_neg hc]
      simp [spareBytes, Spot.step, hc, Nat.add_comm]

/-! ## What the values ask for -/

theorem requests_append (xs ys : List Access) :
    requests (xs ++ ys) = requests xs ++ requests ys :=
  List.filterMap_append

/-- One round of the element loop asks for one value. -/
theorem requests_round (p : EdiParser) (mem : Nat → UInt8) (st : SegState)
    (a : Slots) (raw : Bytes) (next : Int) :
    requests (roundAccesses p mem st a raw next) = [raw.length + 1] := by
  have hopen : requests (openAccesses st a) = [] := by
    unfold openAccesses
    split <;> rfl
  have hstore : requests (storeAccesses p st.openElement.el next) = [] := by
    unfold storeAccesses
    rcases st.openElement.el with - | - | - | vs
    · rfl
    · dsimp only
      split <;> rfl
    · dsimp only
      split <;> rfl
    · rfl
  have hvalue : ∀ xs, requests (valueAccess p mem raw :: xs)
      = (raw.length + 1) :: requests xs := fun _ => rfl
  rw [roundAccesses, requests_append, hopen, List.nil_append, hvalue, hstore]

theorem scanValue_length {p : EdiParser} {first : Bool} {m raw rest : Bytes}
    (hscan : scanValue p first false m = (raw, rest)) :
    raw.length + rest.length = m.length := by
  rw [← scanValue_concat hscan, List.length_append]

/-- What the values of a segment ask for, with the bytes that belong to none of
them and with what is left. -/
theorem elementLoopMemory_requests (p : EdiParser)
    (junk : Bytes → Nat → UInt8) (a : Slots) {st : SegState} (h : st.Ready)
    (m : Bytes) :
    (requests (elementLoopMemory p junk a st m).1).sum
        + spareBytes p (.value st.first) m
        + (elementLoopMemory p junk a st m).2.2.length
      = m.length + match (elementLoopMemory p junk a st m).2.2 with
        | [] => 1
        | _ :: rest => 1 + spareBytes p .segment rest := by
  fun_induction elementLoopMemory p junk a st m with
  | case1 => rfl
  | case2 a st c cs hseg =>
    simp only [requests, List.filterMap_nil, List.sum_nil, spareBytes, Spot.step,
      if_pos hseg, List.length_cons]
    omega
  | case3 a st c cs hseg raw hscan =>
    have hspare := spareBytes_scanValue p st.first false (c :: cs)
    rw [hscan] at hspare
    have hlen := scanValue_length hscan
    rw [requests_round, spareBytes_value (eq_false_of_ne_true hseg), hspare]
    simp only [List.sum_singleton, List.length_nil] at hlen ⊢
    omega
  | case4 a st c cs hseg raw d ds hscan stored accesses hd =>
    have hspare := spareBytes_scanValue p st.first false (c :: cs)
    rw [hscan] at hspare
    have hlen := scanValue_length hscan
    simp only [if_pos hd] at hspare
    rw [requests_round, spareBytes_value (eq_false_of_ne_true hseg), hspare]
    simp only [List.sum_singleton, List.length_cons] at hlen ⊢
    omega
  | case5 a st c cs hseg raw d ds hscan stored accesses hd ih =>
    have hspare := spareBytes_scanValue p st.first false (c :: cs)
    rw [hscan] at hspare
    have hlen := scanValue_length hscan
    have hrec : recordPiece p st ⟨raw, some d⟩
        = { stored with newel := p.opens d } :=
      recordPiece_next p st raw (eq_false_of_ne_true hd)
    have hready := recordPiece_ready h p ⟨raw, some d⟩
    have hfirst := recordPiece_first h p ⟨raw, some d⟩
    rw [hrec] at hready hfirst
    have hrest := ih hready
    rw [hfirst, RawPiece.endsElement_next (eq_false_of_ne_true hd)] at hrest
    simp only [Prod.map_fst, Prod.map_snd, id]
    simp only [if_neg hd] at hspare
    rw [requests_append, requests_round,
      spareBytes_value (eq_false_of_ne_true hseg), hspare]
    simp only [List.length_cons, List.sum_append, List.sum_singleton]
      at hlen ⊢
    omega

theorem segmentLoopMemory_requests (p : EdiParser)
    (junk : Bytes → Nat → UInt8) (total nsegments : Nat) (a : Slots)
    (m : Bytes) :
    (requests (segmentLoopMemory p junk total nsegments a m).1).sum
      + spareBytes p .segment m = m.length + 1 := by
  fun_induction segmentLoopMemory p junk total nsegments a m with
  | case1 nsegments a m h =>
    have hspare := spareBytes_dropWhile p m
    rw [h] at hspare
    simpa [requests, spareBytes] using hspare
  | case2 nsegments a m c cs h b offset opened accesses st hloop =>
    have hspare := spareBytes_dropWhile p m
    have hsum := elementLoopMemory_requests p junk ⟨0, 0⟩
      SegState.ready_start (c :: cs)
    rw [hloop, SegState.first_start] at hsum
    rw [h] at hspare
    simp only [List.length_nil] at hsum
    have hopened : requests (opened :: accesses) = requests accesses := rfl
    rw [hopened]
    omega
  | case3 nsegments a m c cs h b offset opened accesses st d rest hloop ih =>
    have hspare := spareBytes_dropWhile p m
    have hsum := elementLoopMemory_requests p junk ⟨0, 0⟩
      SegState.ready_start (c :: cs)
    rw [hloop, SegState.first_start] at hsum
    rw [h] at hspare
    simp only [List.length_cons] at hsum hspare
    have hopened : requests (opened :: accesses) = requests accesses := rfl
    simp only [Prod.map_fst]
    rw [List.cons_append, ← List.cons_append, requests_append, hopened,
      List.sum_append]
    omega

/-! ## The pools of a parse -/

/-- The loops leave the pool in front of them to their caller. -/
theorem pool_not_mem_elementLoopMemory (p : EdiParser)
    (junk : Bytes → Nat → UInt8) (a : Slots) (st : SegState) (m : Bytes)
    (minsize : Nat) :
    .pool minsize ∉ (elementLoopMemory p junk a st m).1 := by
  have hround : ∀ a st mem raw next,
      .pool minsize ∉ roundAccesses p mem st a raw next := by
    intro a st mem raw next
    simp only [roundAccesses, List.mem_append, List.mem_cons, not_or]
    refine ⟨?_, by simp [valueAccess], ?_⟩
    · unfold openAccesses
      split <;> simp
    · unfold storeAccesses
      rcases st.openElement.el with - | - | - | vs <;> dsimp only <;>
        (try split) <;> simp
  fun_induction elementLoopMemory p junk a st m with
  | case1 => simp
  | case2 => simp
  | case3 => exact hround _ _ _ _ _
  | case4 => exact hround _ _ _ _ _
  | case5 a st c cs hseg raw d ds hscan stored accesses hd ih =>
    exact fun h => (List.mem_append.1 h).elim (hround _ _ _ _ _) ih

theorem pool_not_mem_segmentLoopMemory (p : EdiParser)
    (junk : Bytes → Nat → UInt8) (total nsegments : Nat) (a : Slots)
    (m : Bytes) (minsize : Nat) :
    .pool minsize ∉ (segmentLoopMemory p junk total nsegments a m).1 := by
  have hloop : ∀ {l : Bytes} {accesses : List Access} {r : SegState × Bytes},
      elementLoopMemory p junk ⟨0, 0⟩ SegState.start l = (accesses, r) →
      .pool minsize ∉ accesses := by
    intro l accesses r h
    have hmem := pool_not_mem_elementLoopMemory p junk ⟨0, 0⟩ SegState.start l
      minsize
    rwa [h] at hmem
  fun_induction segmentLoopMemory p junk total nsegments a m with
  | case1 nsegments a m h => simp
  | case2 nsegments a m c cs h b offset opened accesses st hst =>
    simpa [opened] using hloop hst
  | case3 nsegments a m c cs h b offset opened accesses st d rest hst ih =>
    simpa [opened] using ⟨hloop hst, ih⟩

/-- The accesses of the loops allocate what their values ask for. -/
theorem foldl_pools {xs : List Access} (h : ∀ minsize, .pool minsize ∉ xs)
    (pools : List Pool) :
    xs.foldl Access.pools pools
      = (ediStringpoolAllocs pools (requests xs)).1 := by
  induction xs generalizing pools with
  | nil => rfl
  | cons x xs ih =>
    have hxs := ih fun minsize hmem => h minsize (List.mem_cons_of_mem x hmem)
    rw [List.foldl_cons, hxs]
    cases x with
    | pool minsize => exact absurd List.mem_cons_self (h minsize)
    | value requested buf len => rfl
    | segment => rfl
    | element => rfl
    | composite => rfl
    | stray => rfl

/-- Pools are only added, and the first one keeps its size. -/
theorem allocs_head (init : List Pool) (p : Pool) (ns : List Nat) :
    ∃ q rest, (ediStringpoolAllocs (p :: init) ns).1 = q :: rest ∧
      q.mem.length = p.mem.length ∧ init.length ≤ rest.length := by
  induction ns generalizing init p with
  | nil => exact ⟨p, init, rfl, rfl, Nat.le_refl _⟩
  | cons n ns ih =>
    obtain ⟨last, q, hpools, -, -, -, hold⟩ :=
      ediStringpoolAlloc_spec (p :: init) n
    obtain ⟨p', init', halloc, hlen, hle⟩ : ∃ p' init',
        (ediStringpoolAlloc (p :: init) n).1 = p' :: init' ∧
          p'.mem.length = p.mem.length ∧ init.length ≤ init'.length := by
      rw [hpools]
      cases last with
      | nil =>
        obtain ⟨rfl, rfl⟩ : p = q ∧ init = [] := by
          rcases hold with hold | ⟨hold, -⟩
          · simpa using hold
          · simp at hold
        exact ⟨_, [], rfl, rfl, Nat.le_refl _⟩
      | cons r last =>
        refine ⟨r, _, rfl, ?_⟩
        rcases hold with hold | ⟨hold, -⟩
        · obtain ⟨rfl, rfl⟩ : p = r ∧ init = last ++ [q] := by simpa using hold
          simp
        · obtain ⟨rfl, rfl⟩ : p = r ∧ init = last := by simpa using hold
          simp
    obtain ⟨q', rest, hrest, hqlen, hrestlen⟩ := ih init' p'
    rw [ediStringpoolAllocs, halloc]
    exact ⟨q', rest, hrest, hqlen.trans hlen, Nat.le_trans hle hrestlen⟩

/-- One pool is enough exactly if something is left of it. -/
theorem allocs_length_le_iff {p : Pool} (hp : p.fill < p.mem.length)
    (ns : List Nat) :
    (ediStringpoolAllocs [p] ns).1.length ≤ 1 ↔
      p.fill + ns.sum < p.mem.length := by
  induction ns generalizing p with
  | nil => simpa [ediStringpoolAllocs] using hp
  | cons n ns ih =>
    rw [ediStringpoolAllocs, List.sum_cons]
    rcases ediStringpoolGet_cases [p] n with
      ⟨init, q, hinit, hroom, hget⟩ | ⟨hfull, hget⟩
    · obtain ⟨rfl, rfl⟩ : init = [] ∧ p = q := by
        cases init with
        | nil => exact ⟨rfl, by simpa using hinit⟩
        | cons r init => simp at hinit
      have hget' : ediStringpoolGet [p] n = ([] ++ [p], ([] : List Pool).length) :=
        hget
      obtain ⟨hpools, -⟩ := ediStringpoolAlloc_of_get hget'
      rw [hpools, List.nil_append, ih hroom]
      simp only [Nat.add_assoc]
    · obtain ⟨hpools, -⟩ := ediStringpoolAlloc_of_get hget
      obtain ⟨q, rest, hrest, -, hle⟩ := allocs_head
        [{ newPool n with fill := (newPool n).fill + n }] p ns
      have hge := hfull p (by simp)
      rw [hpools, List.singleton_append, hrest]
      simp only [List.length_cons, List.length_nil] at hle ⊢
      omega

theorem parseBodyMemory_onePool_iff (p : EdiParser)
    (junk : Bytes → Nat → UInt8) (total : Nat) (m : Bytes) :
    OnePool (parseBodyMemory p junk total m).1 ↔
      m.length < 511 ∨ 0 < spareBytes p .segment m := by
  unfold parseBodyMemory
  split
  · next hempty =>
    rw [List.isEmpty_iff] at hempty
    subst hempty
    simp [OnePool, poolsOf, requests]
  · have hsum := segmentLoopMemory_requests p junk total 0 ⟨0, 0⟩ m
    have hmem := pool_not_mem_segmentLoopMemory p junk total 0 ⟨0, 0⟩ m
    dsimp only
    generalize (segmentLoopMemory p junk total 0 ⟨0, 0⟩ m).1 = xs at hsum hmem ⊢
    have hpools : poolsOf (.pool (m.length + 1) :: xs)
        = (ediStringpoolAllocs [newPool (m.length + 1)] (requests xs)).1 := by
      rw [poolsOf, List.foldl_cons, foldl_pools hmem]
      rfl
    have hrequests : requests (.pool (m.length + 1) :: xs) = requests xs := rfl
    have hsize := newPool_mem_length (m.length + 1)
    have hblock : stringpoolBlocksize = 512 := rfl
    have hroom : (newPool (m.length + 1)).fill
        < (newPool (m.length + 1)).mem.length :=
      (newPool_length (m.length + 1)).2
    have hfill : (newPool (m.length + 1)).fill = 0 := rfl
    obtain ⟨q, rest, hq, hqlen, -⟩ :=
      allocs_head [] (newPool (m.length + 1)) (requests xs)
    have hone := allocs_length_le_iff hroom (requests xs)
    rw [OnePool, hpools, hrequests, hone, hq]
    have hhead : ∀ pool ∈ (q :: rest).head?,
        (requests xs).sum ≤ pool.mem.length := by
      intro pool hpool
      obtain rfl : q = pool := by simpa using hpool
      omega
    rw [and_iff_right hhead]
    omega

/-- The pools of a parse, by what it runs on. -/
theorem onePool_of_runsOn {lib : EdiLib} {oparser p : EdiParser}
    {message : CString} {m : Bytes} (h : runsOn lib oparser message = some (p, m))
    (junk : Bytes → Nat → UInt8) :
    OnePool (ediParserParseMemory lib junk oparser message).1 ↔
      m.length < 511 ∨ 0 < spareBytes p .segment m := by
  unfold runsOn at h
  unfold ediParserParseMemory
  split_ifs at h ⊢ with hdetect
  · cases hfound : (ediDetect lib.detectparams message).found with
    | none =>
      rw [hfound] at h
      cases h
    | some found =>
      obtain ⟨params, skip⟩ := found
      rw [hfound, Option.map_some, Option.some.injEq, Prod.mk.injEq] at h
      obtain ⟨rfl, rfl⟩ := h
      dsimp only
      split_ifs <;> exact parseBodyMemory_onePool_iff _ junk _ _
  · obtain ⟨rfl, rfl⟩ := Prod.mk.inj (Option.some.inj h)
    exact parseBodyMemory_onePool_iff _ junk _ _

/-- A message of no dialect needs no pool. -/
theorem onePool_of_runsOn_none {lib : EdiLib} {oparser : EdiParser}
    {message : CString} (h : runsOn lib oparser message = none)
    (junk : Bytes → Nat → UInt8) :
    OnePool (ediParserParseMemory lib junk oparser message).1 := by
  unfold runsOn at h
  unfold ediParserParseMemory
  split_ifs at h ⊢
  rw [Option.map_eq_none_iff.1 h]
  simp [OnePool, poolsOf, requests]

/-- All values of a message come from the pool that is made for it, exactly if the
message has fewer than 511 bytes, or one of its bytes or its NUL belongs to no
value. -/
theorem ediParserParse_onePool_iff (lib : EdiLib)
    (junk : Bytes → Nat → UInt8) (oparser : EdiParser) (message : CString) :
    OnePool (ediParserParseMemory lib junk oparser message).1 ↔
      ∀ p m, runsOn lib oparser message = some (p, m) →
        m.length < 511 ∨ 0 < spareBytes p .segment m := by
  constructor
  · exact fun hone p m hruns => (onePool_of_runsOn hruns junk).1 hone
  · intro h
    cases hruns : runsOn lib oparser message with
    | none => exact onePool_of_runsOn_none hruns junk
    | some r => exact (onePool_of_runsOn hruns junk).2 (h r.1 r.2 hruns)

/-- The parser of `edi_parser_create`, without parameters. -/
def createdParser : EdiParser := (ediParserCreate EdiLib.start none).2

/-- A message of 511 letters, the first three of which are a dialect. -/
def lettersMessage : CString where
  bytes := ascii "UNB" ++ List.replicate 508 'A'.toUInt8
  nulFree := by decide +kernel
  beyond := fun _ => 0

/-- The only value of 511 letters needs 512 bytes, which are all of the pool. -/
theorem ediParserParse_two_pools :
    ¬ OnePool (ediParserParseMemory (ediInit EdiLib.start) (fun _ _ => 0)
      createdParser lettersMessage).1 := by
  have hruns : runsOn (ediInit EdiLib.start) createdParser lettersMessage
      = some (ediParserInit (some ediEdifactParams), lettersMessage.bytes) := by
    decide +kernel
  have hspare : spareBytes (ediParserInit (some ediEdifactParams)) .segment
      lettersMessage.bytes = 0 := by
    decide +kernel
  have hlen : lettersMessage.bytes.length = 511 := by decide +kernel
  rw [onePool_of_runsOn hruns, hspare, hlen]
  decide

end Libedi
