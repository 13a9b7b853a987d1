import Libedi.Lib.Blocks
import Libedi.ParsePools

/-!
# Parsing while allocations fail

`edi_parser_parse` of `libedi/parse.c` once more, with the blocks of memory that it
asks for and with its paths to `EDI_ERR_SYSTEM`, and `edi_interchange_destroy` of
`libedi/build.c`, which gives the blocks back.

* `ediParserParseBlocks` is the parser.  Its data are those of `Parse`, with the
  blocks of the arrays and with the place of each value in the pools.
* An interchange that breaks off is a part of the one that `Parse` gives
  (`EdiSegment.Part`).
* Only the string pools are used without a test.  The parser goes astray where there
  is no pool for a value, and nowhere else.

`ediParserParse_destroyed` is the result: in every case in which the parser returns,
`edi_interchange_destroy` frees all that it has allocated, each block once.
-/

namespace Libedi

open Blocks

/-! ## String pools -/

/-- `edi_interchange_private_t`: the blocks of its arrays, the blocks of the pools,
and what the pools hold. -/
structure PoolBlocks where
  stringpool : Option Nat
  sp : Option Nat
  poolsize : Option Nat
  chars : List Nat
  pools : List Pool

namespace PoolBlocks

/-- `calloc` clears it. -/
def empty : PoolBlocks := ⟨none, none, none, [], []⟩

/-- The part of `edi__stringpool_get` that creates a pool: its index, `none` for
`-1`. -/
def create (a : PoolBlocks) (minsize : Nat) : Mem (PoolBlocks × Option Nat) := do
  let some pp ← realloc a.stringpool | return (a, none)
  let a := { a with stringpool := some pp }
  let some pp ← realloc a.sp | return (a, none)
  let a := { a with sp := some pp }
  let some lp ← realloc a.poolsize | return (a, none)
  let a := { a with poolsize := some lp }
  let some sp ← malloc | return (a, none)
  return ({ a with
    chars := a.chars ++ [sp]
    pools := a.pools ++ [newPool minsize] }, some a.pools.length)

/-- `edi__stringpool_get`. -/
def get (a : PoolBlocks) (minsize : Nat) : Mem (PoolBlocks × Option Nat) :=
  match a.pools.getLast? with
  | none => a.create minsize
  | some p =>
    if p.fill + minsize < p.mem.length then
      return (a, some (a.pools.length - 1))
    else a.create minsize

/-- `edi__stringpool_alloc`.  The `-1` of `edi__stringpool_get` is used as an
index. -/
def alloc (a : PoolBlocks) (length : Nat) : Mem (PoolBlocks × StringPtr) := do
  match ← a.get length with
  | (_, none) => fault .stray
  | (a, some n) =>
    return ({ a with
        pools := a.pools.modify n fun p => { p with fill := p.fill + length } },
      ⟨n, (a.pools[n]?.map Pool.fill).getD 0⟩)

/-- `edi__stringpool_destroy`. -/
def destroy (a : PoolBlocks) : Mem Unit := do
  a.chars.forM fun b => free (some b)
  free a.stringpool
  free a.sp
  free a.poolsize

/-- `edi__stringpool_free`, where the pool `c` is at the address `base c`.  What it
gives to `free` is a block only if it is the start of a pool. -/
def freeString (base : Nat → Nat) (a : PoolBlocks) (q : StringPtr) : Mem Unit :=
  match ediStringpoolFree base a.pools (q.address base) with
  | none => pure ()
  | some _ => if q.offset = 0 then free a.chars[q.pool]? else fault .free

end PoolBlocks

/-! ## Elements -/

/-- `edi_element_t`, with the blocks of the arrays of a composite. -/
inductive ElementBlocks where
  | untyped
  | simple (q : StringPtr) (v : EdiValue)
  | composite (values valuelens : Option Nat) (vs : List (StringPtr × EdiValue))

namespace ElementBlocks

/-- The element that it holds. -/
def element : ElementBlocks → EdiElement
  | .untyped => .untyped
  | .simple _ v => .simple v
  | .composite _ _ vs => .composite (vs.map Prod.snd)

/-- The places of its values. -/
def strings : ElementBlocks → List StringPtr
  | .untyped => []
  | .simple q _ => [q]
  | .composite _ _ vs => vs.map Prod.fst

/-- The two arrays of a composite with one value more, and whether there was memory
for them. -/
def push (vp lp : Option Nat) (vs : List (StringPtr × EdiValue))
    (x : StringPtr × EdiValue) : Mem (ElementBlocks × Bool) := do
  match ← realloc vp with
  | none => return (.composite vp lp vs, false)
  | some vp =>
    match ← realloc lp with
    | none => return (.composite (some vp) lp vs, false)
    | some lp => return (.composite (some vp) (some lp) (vs ++ [x]), true)

/-- A value goes into its element.  In a simple element the pointer `values` is the
one of the value. -/
def store (x : StringPtr × EdiValue) (sub : Bool) :
    ElementBlocks → Mem (ElementBlocks × Bool)
  | .composite vp lp vs => push vp lp vs x
  | .untyped => if sub then push none none [] x else return (.simple x.1 x.2, true)
  | .simple _ _ => if sub then fault .free else return (.simple x.1 x.2, true)

/-- What `edi_interchange_destroy` does for an element.  The pointer `value` of an
element without a type is null. -/
def destroy (base : Nat → Nat) (a : PoolBlocks) : ElementBlocks → Mem Unit
  | .untyped => free none
  | .simple q _ => a.freeString base q
  | .composite vp lp vs => do
    vs.forM fun x => a.freeString base x.1
    free vp
    free lp

end ElementBlocks

/-- The variables of the element loop. -/
structure SegBlocks where
  elements : Option Nat
  elalloc : Nat
  before : List ElementBlocks
  el : Option ElementBlocks
  tag : Option Bytes
  newel : Bool

namespace SegBlocks

/-- The variables in front of the element loop. -/
def start : SegBlocks := ⟨none, 0, [], none, none, true⟩

/-- The elements of the segment. -/
def items (st : SegBlocks) : List ElementBlocks := st.before ++ st.el.toList

/-- The variables without the blocks. -/
def state (st : SegBlocks) : SegState where
  before := st.before.map ElementBlocks.element
  el := st.el.map ElementBlocks.element
  tag := st.tag
  newel := st.newel

/-- A zeroed element behind the others. -/
def opened (st : SegBlocks) (elements : Option Nat) (elalloc : Nat) : SegBlocks :=
  { st with
    elements := elements
    elalloc := elalloc
    before := st.items
    el := some .untyped
    newel := false }

/-- The `if(newel)` block, `none` if there is no memory. -/
def openElement (st : SegBlocks) : Mem (Option SegBlocks) :=
  if st.newel then
    if st.items.length + 1 > st.elalloc then do
      match ← realloc st.elements with
      | none => return none
      | some elp => return some (st.opened (some elp) (st.elalloc + 8))
    else return some (st.opened st.elements st.elalloc)
  else return some st

/-- A round of the element loop, and whether there was memory for it. -/
def round (p : EdiParser) (a : PoolBlocks) (st : SegBlocks) (raw : Bytes)
    (next : Int) : Mem (PoolBlocks × SegBlocks × Bool) := do
  match ← st.openElement with
  | none => return (a, st, false)
  | some st =>
    let (a, q) ← a.alloc (raw.length + 1)
    let v := EdiValue.ofBytes (memcpyescape p false raw)
    match st.el with
    | none => fault .stray
    | some el =>
      let (el, done) ← el.store (q, v) (next == p.sepSub)
      let tag :=
        if done && st.before.isEmpty && el.strings.length == 1 then some v.value
        else st.tag
      return (a, { st with el := some el, tag := tag }, done)

end SegBlocks

/-- What is left of a message. -/
abbrev Rest (m : Bytes) := { r : Bytes // r.length ≤ m.length }

/-- The loop over the values of a segment.  Without memory `message` is null, and
nothing is left. -/
def elementLoopBlocks (p : EdiParser) (a : PoolBlocks) (st : SegBlocks)
    (m : Bytes) : Mem (PoolBlocks × SegBlocks × Option (Rest m)) :=
  match m with
  | [] => return (a, st, some ⟨[], Nat.le_refl _⟩)
  | c :: cs =>
    if p.isSeg c then return (a, st, some ⟨c :: cs, Nat.le_refl _⟩)
    else
      match _h : scanValue p st.state.first false (c :: cs) with
      | (raw, []) => do
        let (a, st, done) ← st.round p a raw 0
        return (a, st, if done then some ⟨[], Nat.zero_le _⟩ else none)
      | (raw, d :: ds) => do
        let (a, st, done) ← st.round p a raw (charVal d)
        if done then
          if p.isSeg d then
            return (a, st, some ⟨d :: ds, scanValue_rest_lt _h⟩)
          else do
            let (a, st, rest) ←
              elementLoopBlocks p a { st with newel := p.opens d } ds
            return (a, st, rest.map fun r =>
              ⟨r.1, Nat.le_trans r.2 (Nat.le_of_lt (scanValue_rest_lt _h))⟩)
        else return (a, st, none)
termination_by m.length
decreasing_by exact scanValue_rest_lt _h

/-! ## Interchanges -/

/-- `edi_segment_t`. -/
structure SegmentBlocks where
  elements : Option Nat
  items : List ElementBlocks
  tag : Option Bytes
  offset : Nat

/-- `edi_interchange_t` and its private part. -/
structure InterchangeBlocks where
  self : Nat
  priv : Nat
  segments : Option Nat
  items : List SegmentBlocks
  pool : PoolBlocks

/-- The segment that it holds. -/
def SegmentBlocks.segment (s : SegmentBlocks) : EdiSegment :=
  ⟨s.items.map ElementBlocks.element, s.tag, s.offset⟩

namespace InterchangeBlocks

/-- The interchange that it holds. -/
def interchange (i : InterchangeBlocks) : EdiInterchange :=
  ⟨i.items.map SegmentBlocks.segment⟩

/-- `edi_interchange_create`, `none` for `NULL`. -/
def create : Mem (Option InterchangeBlocks) := do
  match ← malloc with
  | none => return none
  | some self =>
    match ← malloc with
    | none =>
      free (some self)
      return none
    | some priv => return some ⟨self, priv, none, [], .empty⟩

/-- The array of the segments has a slot for one more, `none` if there is no memory.
`segalloc` counts its slots. -/
def grow (i : InterchangeBlocks) (segalloc : Nat) :
    Mem (Option (InterchangeBlocks × Nat)) :=
  if i.items.length + 1 > segalloc then do
    match ← realloc i.segments with
    | none => return none
    | some segp =>
      return some ({ i with segments := some segp }, segalloc + segBlocksize)
  else return some (i, segalloc)

/-- The segment behind the others, with the pools as they are behind its loop. -/
def push (i : InterchangeBlocks) (a : PoolBlocks) (st : SegBlocks)
    (offset : Nat) : InterchangeBlocks :=
  { i with
    items := i.items ++ [⟨st.elements, st.items, st.tag, offset⟩]
    pool := a }

/-- `edi_interchange_destroy`, where the pools are at the addresses `base`. -/
def destroy (base : Nat → Nat) (i : InterchangeBlocks) : Mem Unit := do
  i.items.forM fun s => do
    s.items.forM fun el => el.destroy base i.pool
    free s.elements
  free i.segments
  i.pool.destroy
  free (some i.priv)
  free (some i.self)

end InterchangeBlocks

/-- The loop over the segments. -/
def segmentLoopBlocks (p : EdiParser) (total segalloc : Nat)
    (i : InterchangeBlocks) (m : Bytes) : Mem (InterchangeBlocks × EdiErr) :=
  match _h : m.dropWhile isNewline with
  | [] => return (i, .none)
  | c :: cs => do
    match ← i.grow segalloc with
    | none => return (i, .system)
    | some (i, segalloc) =>
      let offset := total - (c :: cs).length
      match ← elementLoopBlocks p i.pool SegBlocks.start (c :: cs) with
      | (a, st, none) => return (i.push a st offset, .system)
      | (a, st, some ⟨[], _⟩) => return (i.push a st offset, .unterminated)
      | (a, st, some ⟨_ :: rest, _⟩) =>
        segmentLoopBlocks p total segalloc (i.push a st offset) rest
termination_by m.length
decreasing_by
  rename_i hrest
  have hdrop := dropWhile_length_le isNewline m
  rw [_h] at hdrop
  simp only [List.length_cons] at hdrop hrest ⊢
  omega

/-- The part of `edi_parser_parse` behind the detection. -/
def parseBodyBlocks (p : EdiParser) (total : Nat) (m : Bytes) :
    Mem (EdiParser × Option InterchangeBlocks) := do
  match ← InterchangeBlocks.create with
  | none => return ({ p with error := .system }, none)
  | some i =>
    if m.isEmpty then return ({ p with error := .empty }, some i)
    else
      -- The result is not looked at.
      let (a, _) ← i.pool.get (m.length + 1)
      let (i, e) ← segmentLoopBlocks p total 0 { i with pool := a } m
      return ({ p with error := e }, some i)

/-- `edi_parser_parse`, and the caller's parser afterwards. -/
def ediParserParseBlocks (lib : EdiLib) (oparser : EdiParser)
    (message : CString) : Mem (EdiParser × Option InterchangeBlocks) :=
  if oparser.detect = 1 then
    match (ediDetect lib.detectparams message).found with
    | none => return (oparser, none)
    | some (params, skip) =>
      if params.version ≠ 0 then do
        let r ← parseBodyBlocks (ediParserInit (some params)) message.strlen
          (message.bytes.drop skip)
        return (oparser, r.2)
      else parseBodyBlocks oparser message.strlen (message.bytes.drop skip)
  else parseBodyBlocks oparser message.strlen message.bytes

/-! ## Lists that break off -/

/-- A list that breaks off.  Of the item at which it does there may be a part. -/
def BreaksOff {α : Type*} (part : α → α → Prop) (xs ys : List α) : Prop :=
  xs <+: ys ∨ ∃ init x y rest, xs = init ++ [x] ∧ ys = init ++ y :: rest ∧ part x y

theorem BreaksOff.cons {α : Type*} {part : α → α → Prop} {xs ys : List α}
    (h : BreaksOff part xs ys) (x : α) : BreaksOff part (x :: xs) (x :: ys) := by
  rcases h with h | ⟨init, a, b, rest, rfl, rfl, hpart⟩
  · exact Or.inl (List.cons_prefix_cons.2 ⟨rfl, h⟩)
  · exact Or.inr ⟨x :: init, a, b, rest, rfl, rfl, hpart⟩

/-- A composite that breaks off. -/
def EdiElement.Part (e e' : EdiElement) : Prop :=
  ∃ vs ws, e = .composite vs ∧ e' = .composite (vs ++ ws)

/-- The variables of a segment that breaks off. -/
structure SegState.Part (st st' : SegState) : Prop where
  tag : st.tag = none ∨ st.tag = st'.tag
  elements : BreaksOff EdiElement.Part st.elements st'.elements

/-- A segment that breaks off. -/
structure EdiSegment.Part (s s' : EdiSegment) : Prop where
  offset : s.offset = s'.offset
  tag : s.tag = none ∨ s.tag = s'.tag
  elements : BreaksOff EdiElement.Part s.elements s'.elements

/-! ## What is owned -/

/-- The blocks of the pools and of their arrays. -/
def PoolBlocks.own (a : PoolBlocks) : Multiset Nat :=
  (a.chars.map fun b => blocks (some b)).sum +
    (blocks a.stringpool + (blocks a.sp + blocks a.poolsize))

/-- The arrays of an element. -/
def ElementBlocks.own : ElementBlocks → Multiset Nat
  | .composite vp lp _ => blocks vp + blocks lp
  | _ => 0

/-- The array of the elements and those of the composites. -/
def SegBlocks.own (st : SegBlocks) : Multiset Nat :=
  (st.items.map ElementBlocks.own).sum + blocks st.elements

/-- The same for a segment that is done. -/
def SegmentBlocks.own (s : SegmentBlocks) : Multiset Nat :=
  (s.items.map ElementBlocks.own).sum + blocks s.elements

/-- All blocks of an interchange. -/
def InterchangeBlocks.own (i : InterchangeBlocks) : Multiset Nat :=
  (i.items.map SegmentBlocks.own).sum + (blocks i.segments +
    (i.pool.own + (blocks (some i.priv) + blocks (some i.self))))

/-- Each pool has its block, and none is filled beyond its end. -/
structure PoolBlocks.Ok (a : PoolBlocks) : Prop where
  chars : a.chars.length = a.pools.length
  bounded : Bounded a.pools

/-- A string is kept from `free`. -/
def PoolHeld (pools : List Pool) (q : StringPtr) : Prop :=
  Allocated pools 0 q ∧ Covered pools q

/-- The strings of all elements are kept from `free`. -/
def AllHeld (pools : List Pool) (items : List ElementBlocks) : Prop :=
  ∀ el ∈ items, ∀ q ∈ el.strings, PoolHeld pools q

/-- What an interchange needs to be destroyed. -/
structure InterchangeBlocks.Ok (i : InterchangeBlocks) : Prop where
  pool : i.pool.Ok
  held : ∀ s ∈ i.items, AllHeld i.pool.pools s.items

/-- The parser goes astray for want of a pool.  It does not do so under the
condition `c`. -/
def Astray (R c : Prop) (e : Blocks.Fault) : Prop :=
  e = .stray ∧ R ∧ ¬ c

theorem PoolHeld.alloc {pools : List Pool} {q : StringPtr} (h : PoolHeld pools q)
    (n : Nat) : PoolHeld (ediStringpoolAlloc pools n).1 q :=
  ⟨h.1.alloc n, h.2.alloc n⟩

/-- The values of the parser have a NUL, so each of them moves the mark. -/
theorem held_alloc (pools : List Pool) (n : Nat) :
    PoolHeld (ediStringpoolAlloc pools (n + 1)).1
      (ediStringpoolAlloc pools (n + 1)).2 := by
  obtain ⟨init, p, hpools, hptr, -, -, -⟩ := ediStringpoolAlloc_spec pools (n + 1)
  refine ⟨(allocated_alloc pools (n + 1)).mono (Nat.zero_le _), ?_⟩
  rw [hpools, hptr]
  exact covered_mark init p (Nat.succ_pos n)

/-- The last element has taken the string `x`, or it has been left as it was. -/
theorem AllHeld.concat {pools : List Pool} {before : List ElementBlocks}
    {el el' : ElementBlocks} {x : StringPtr} (hbefore : AllHeld pools before)
    (hel : ∀ q ∈ el.strings, PoolHeld pools q) (hx : PoolHeld pools x)
    (hstore : el'.strings = el.strings ++ [x] ∨ el'.strings = el.strings) :
    AllHeld pools (before ++ [el']) := by
  intro e he q hq
  rcases List.mem_append.1 he with he | he
  · exact hbefore e he q hq
  · rw [List.mem_singleton.1 he] at hq
    rcases hstore with hstore | hstore
    · rw [hstore] at hq
      rcases List.mem_append.1 hq with hq | hq
      · exact hel q hq
      · rw [List.mem_singleton.1 hq]
        exact hx
    · rw [hstore] at hq
      exact hel q hq

section Specs

variable {ok : Nat → Bool} {R c : Prop}

/-! ## Specifications of the pools -/

namespace PoolBlocks

variable {a : PoolBlocks}

/-- `edi__stringpool_get` gives the index `n` into these pools, or `-1`. -/
def Gives (R : Prop) (a : PoolBlocks) (pools : List Pool) (n : Nat)
    (r : PoolBlocks × Option Nat) (own : Multiset Nat) : Prop :=
  own = r.1.own ∧ r.1.Ok ∧ (r.2 = some n ∧ r.1.pools = pools ∨
    r.2 = none ∧ r.1.pools = a.pools ∧ R)

theorem create_spec (h : a.Ok) (minsize : Nat) {E : Blocks.Fault → Prop} :
    Spec ok R a.own (a.create minsize)
      (Gives R a (a.pools ++ [newPool minsize]) a.pools.length) E := by
  have hfail : ∀ x y z own, own = PoolBlocks.own ⟨x, y, z, a.chars, a.pools⟩ →
      R → Spec ok R own (pure (⟨x, y, z, a.chars, a.pools⟩, none))
        (Gives R a (a.pools ++ [newPool minsize]) a.pools.length) E :=
    fun x y z own hown hrefused => Spec.pure
      ⟨hown, ⟨h.chars, h.bounded⟩, Or.inr ⟨rfl, rfl, hrefused⟩⟩
  have hown : a.own = blocks a.stringpool + (blocks a.sp + (blocks a.poolsize +
      (a.chars.map fun b => blocks (some b)).sum)) := by
    unfold own
    ac_rfl
  refine Spec.of_own hown (Spec.bind_realloc (fun x => ?_)
    (hfail _ _ _ _ hown.symm))
  rw [add_left_comm]
  refine Spec.bind_realloc (fun y => ?_)
    (hfail (some x) _ _ _ (by simp only [own]; ac_rfl))
  have hcomm : ∀ u v w z : Multiset Nat, u + (v + (w + z)) = w + (u + (v + z)) := by
    intro u v w z
    ac_rfl
  rw [hcomm]
  refine Spec.bind_realloc (fun z => ?_)
    (hfail (some x) (some y) _ _ (by simp only [own]; ac_rfl))
  refine Spec.bind_malloc (fun b => ?_)
    (hfail (some x) (some y) (some z) _ (by simp only [own]; ac_rfl))
  refine Spec.pure ⟨?_, ⟨?_, ?_⟩, Or.inl ⟨rfl, rfl⟩⟩
  · simp only [own, List.map_append, List.sum_append, List.map_cons, List.map_nil,
      List.sum_cons, List.sum_nil, add_zero]
    ac_rfl
  · simp [h.chars]
  · intro p hp
    rcases List.mem_append.1 hp with hp | hp
    · exact h.bounded p hp
    · obtain rfl := List.mem_singleton.1 hp
      exact Nat.zero_le _

/-- The newest pool has room for `n` bytes. -/
def Enough (pools : List Pool) (n : Nat) : Prop :=
  ∃ p ∈ pools.getLast?, p.fill + n < p.mem.length

theorem get_spec (h : a.Ok) (minsize : Nat) {E : Blocks.Fault → Prop} :
    Spec ok R a.own (a.get minsize) (fun r own =>
      Gives R a (ediStringpoolGet a.pools minsize).1
        (ediStringpoolGet a.pools minsize).2 r own ∧
      (r.2 = none → ¬ Enough a.pools minsize)) E := by
  have hcreate : ¬ Enough a.pools minsize →
      Spec ok R a.own (a.create minsize) (fun r own =>
        Gives R a (a.pools ++ [newPool minsize]) a.pools.length r own ∧
        (r.2 = none → ¬ Enough a.pools minsize)) E :=
    fun hfull => (create_spec h minsize).mono fun r own hgives =>
      ⟨hgives, fun _ => hfull⟩
  unfold get ediStringpoolGet
  cases hlast : a.pools.getLast? with
  | none => exact hcreate fun ⟨p, hp, _⟩ => by simp [hlast] at hp
  | some p =>
    dsimp only
    split
    · exact Spec.pure ⟨⟨rfl, h, Or.inl ⟨rfl, rfl⟩⟩, fun h => by cases h⟩
    · next hfull =>
      refine hcreate fun ⟨q, hq, hlt⟩ => hfull ?_
      obtain rfl : p = q := Option.some.inj (hlast.symm.trans hq)
      exact hlt

theorem alloc_spec (h : a.Ok) {n : Nat} (hc : c → Enough a.pools n) :
    Spec ok R a.own (a.alloc n) (fun r own' => own' = r.1.own ∧ r.1.Ok ∧
        r.1.pools = (ediStringpoolAlloc a.pools n).1 ∧
        r.2 = (ediStringpoolAlloc a.pools n).2) (Astray R c) := by
  refine Spec.bind (get_spec h n) fun r own' hgives => ?_
  obtain ⟨b, k⟩ := r
  obtain ⟨⟨rfl, hok, hcase⟩, hfull⟩ := hgives
  rcases hcase with ⟨rfl, hpools⟩ | ⟨rfl, -, hrefused⟩
  · dsimp only at hok hpools
    have hbounded := h.bounded.alloc n
    refine Spec.pure ⟨rfl, ⟨?_, ?_⟩, ?_, ?_⟩
    · rw [List.length_modify]
      exact hok.chars
    · rw [hpools]
      exact hbounded
    · rw [hpools]
      rfl
    · rw [hpools]
      rfl
  · exact Spec.fault ⟨rfl, hrefused, fun hcond => hfull rfl (hc hcond)⟩

end PoolBlocks

/-! ## Specifications of the element loop -/

/-- The newest pool is large enough for the values of a message, from a place on. -/
def Roomy (pools : List Pool) (p : EdiParser) (spot : Spot) (m : Bytes) : Prop :=
  ∃ q ∈ pools.getLast?, q.fill + m.length + 1 < q.mem.length + spareBytes p spot m

theorem Roomy.stop {pools : List Pool} {p : EdiParser} {first : Bool} {d : UInt8}
    {ds : Bytes} (h : Roomy pools p (.value first) (d :: ds))
    (hd : p.isSeg d = true) : Roomy pools p .segment ds := by
  obtain ⟨q, hq, hlt⟩ := h
  simp only [spareBytes, Spot.step, if_pos hd, List.length_cons] at hlt
  exact ⟨q, hq, by omega⟩

theorem spareBytes_le (p : EdiParser) (spot : Spot) (m : Bytes) :
    spareBytes p spot m ≤ m.length + 1 := by
  induction m generalizing spot with
  | nil => cases spot <;> simp [spareBytes]
  | cons b cs ih =>
    have hstep : (spot.step p b).1 ≤ 1 := by
      rcases spot with - | first | ⟨first, - | -⟩ <;> simp only [Spot.step] <;>
        (try split) <;> simp
    have hcs := ih (spot.step p b).2
    have hspare : spareBytes p spot (b :: cs)
        = (spot.step p b).1 + spareBytes p (spot.step p b).2 cs := by
      cases spot <;> rfl
    rw [hspare, List.length_cons]
    omega

/-- Newlines are no part of a value. -/
theorem Roomy.segment {pools : List Pool} {p : EdiParser} {m l : Bytes}
    (h : Roomy pools p .segment m) (hl : m.dropWhile isNewline = l) :
    Roomy pools p (.value true) l := by
  obtain ⟨q, hq, hlt⟩ := h
  have hspare := spareBytes_dropWhile p m
  rw [hl] at hspare
  exact ⟨q, hq, by omega⟩

/-- There is room for the value that is scanned. -/
theorem Roomy.enough {pools : List Pool} {p : EdiParser} {first : Bool} {b : UInt8}
    {cs raw rest : Bytes} (h : Roomy pools p (.value first) (b :: cs))
    (hseg : ¬ p.isSeg b = true)
    (hscan : scanValue p first false (b :: cs) = (raw, rest)) :
    PoolBlocks.Enough pools (raw.length + 1) := by
  obtain ⟨q, hq, hlt⟩ := h
  have hspare := spareBytes_scanValue p first false (b :: cs)
  have hlen := scanValue_length hscan
  rw [spareBytes_value (eq_false_of_ne_true hseg), hspare, hscan] at hlt
  refine ⟨q, hq, ?_⟩
  cases rest with
  | nil =>
    simp only [List.length_nil] at hlen hlt
    omega
  | cons d ds =>
    have hle := spareBytes_le p
      (if p.isSeg d then .segment else .value (first && !p.opens d)) ds
    simp only [List.length_cons] at hlen hlt
    omega

/-- The value takes as many bytes as it has in the message. -/
theorem Roomy.next {pools : List Pool} {p : EdiParser} {first : Bool} {b d : UInt8}
    {cs raw ds : Bytes} (h : Roomy pools p (.value first) (b :: cs))
    (hseg : ¬ p.isSeg b = true)
    (hscan : scanValue p first false (b :: cs) = (raw, d :: ds)) :
    Roomy (ediStringpoolAlloc pools (raw.length + 1)).1 p
      (if p.isSeg d then .segment else .value (first && !p.opens d)) ds := by
  obtain ⟨q, hq, hroom⟩ := h.enough hseg hscan
  obtain ⟨q', hq', hlt⟩ := h
  obtain rfl : q' = q := Option.some.inj (hq'.symm.trans hq)
  have hspare := spareBytes_scanValue p first false (b :: cs)
  have hlen := scanValue_length hscan
  rw [spareBytes_value (eq_false_of_ne_true hseg), hspare, hscan] at hlt
  obtain ⟨init, rfl⟩ := List.getLast?_eq_some_iff.1 hq
  have hget : ediStringpoolGet (init ++ [q']) (raw.length + 1)
      = (init ++ [q'], init.length) := by
    simp [ediStringpoolGet, hroom]
  obtain ⟨hpools, -⟩ := ediStringpoolAlloc_of_get hget
  rw [hpools]
  refine ⟨_, List.getLast?_concat, ?_⟩
  simp only [List.length_cons] at hlen hlt ⊢
  omega

theorem ElementBlocks.strings_length (el : ElementBlocks) :
    el.strings.length = el.element.values.length := by
  cases el <;> simp [strings, element, EdiElement.values]

theorem SegState.tag_openElement (st : SegState) :
    st.openElement.tag = st.tag := by
  unfold openElement
  split <;> rfl

/-- The arrays of a composite get longer, or it keeps its values. -/
theorem ElementBlocks.push_spec (vp lp : Option Nat)
    (vs : List (StringPtr × EdiValue)) (x : StringPtr × EdiValue)
    {E : Blocks.Fault → Prop} :
    Spec ok R (blocks vp + blocks lp) (push vp lp vs x) (fun r own' =>
      own' = r.1.own ∧ ∃ vp' lp', r = (.composite vp' lp' (vs ++ [x]), true) ∨
        r = (.composite vp' lp' vs, false) ∧ R) E := by
  refine Spec.bind_realloc (fun b => ?_) fun hrefused =>
    Spec.pure ⟨rfl, vp, lp, Or.inr ⟨rfl, hrefused⟩⟩
  rw [add_comm]
  refine Spec.bind_realloc (fun b' => ?_) fun hrefused =>
    Spec.pure ⟨add_comm _ _, some b, lp, Or.inr ⟨rfl, hrefused⟩⟩
  exact Spec.pure ⟨add_comm _ _, some b, some b', Or.inl rfl⟩

/-- A value is stored, or the element is a composite without it. -/
theorem ElementBlocks.store_spec {el : ElementBlocks}
    (hel : el.element = .untyped ∨ ∃ vs, el.element = .composite vs)
    (x : StringPtr × EdiValue) (sub : Bool) {E : Blocks.Fault → Prop} :
    Spec ok R el.own (el.store x sub) (fun r own' => own' = r.1.own ∧
      if r.2 then r.1.element = el.element.store x.2 sub ∧
        r.1.strings = el.strings ++ [x.1]
      else R ∧ r.1.strings = el.strings ∧ ∃ vs,
        r.1.element = .composite vs ∧
          el.element.store x.2 sub = .composite (vs ++ [x.2])) E := by
  cases el with
  | untyped =>
    cases sub with
    | false => exact Spec.pure ⟨rfl, rfl, rfl⟩
    | true =>
      refine (push_spec none none [] x).mono fun r own' hpush => ?_
      obtain ⟨hown, vp, lp, rfl | ⟨rfl, hrefused⟩⟩ := hpush
      · exact ⟨hown, rfl, rfl⟩
      · exact ⟨hown, hrefused, rfl, [], rfl, rfl⟩
  | simple q v =>
    rcases hel with hel | ⟨vs, hel⟩
    · cases hel
    · cases hel
  | composite vp lp vs =>
    refine (push_spec vp lp vs x).mono fun r own' hpush => ?_
    obtain ⟨hown, vp, lp, rfl | ⟨rfl, hrefused⟩⟩ := hpush
    · refine ⟨hown, ?_, by simp [strings]⟩
      simp [element, EdiElement.store]
    · exact ⟨hown, hrefused, rfl, _, rfl, rfl⟩

namespace SegBlocks

variable {st : SegBlocks}

@[simp] theorem state_elements (st : SegBlocks) :
    st.state.elements = st.items.map ElementBlocks.element := by
  unfold SegState.elements items
  rw [List.map_append]
  cases h : st.el with
  | none => simp [state, h]
  | some el => simp [state, h]

theorem own_opened (st : SegBlocks) (elements : Option Nat) (elalloc : Nat) :
    (st.opened elements elalloc).own
      = (st.items.map ElementBlocks.own).sum + blocks elements := by
  simp [own, opened, items, ElementBlocks.own]

theorem state_opened (hnew : st.newel = true) (elements : Option Nat)
    (elalloc : Nat) :
    (st.opened elements elalloc).state = st.state.openElement := by
  rw [@SegState.openElement_of_newel st.state hnew, state_elements]
  rfl

theorem openElement_spec {E : Blocks.Fault → Prop} :
    Spec ok R st.own st.openElement (fun r own' => match r with
      | none => own' = st.own ∧ st.newel = true ∧ R
      | some st' => own' = st'.own ∧ st'.state = st.state.openElement ∧
        ∀ el ∈ st'.items, el ∈ st.items ∨ el = .untyped) E := by
  have hitems : ∀ elements elalloc,
      ∀ el ∈ (st.opened elements elalloc).items, el ∈ st.items ∨ el = .untyped := by
    intro elements elalloc el hel
    simpa [opened, items, or_assoc] using hel
  unfold openElement
  split
  · next hnew =>
    split
    · have hown : st.own
          = blocks st.elements + (st.items.map ElementBlocks.own).sum :=
        add_comm _ _
      refine Spec.of_own hown (Spec.bind_realloc (fun b => ?_) fun hrefused =>
        Spec.pure ⟨hown.symm, hnew, hrefused⟩)
      refine Spec.pure ⟨?_, state_opened hnew _ _, hitems _ _⟩
      rw [own_opened]
      exact add_comm _ _
    · exact Spec.pure ⟨(own_opened st _ _).symm, state_opened hnew _ _,
        hitems _ _⟩
  · next hnew =>
    refine Spec.pure ⟨rfl, ?_, fun el hel => Or.inl hel⟩
    exact (SegState.openElement_of_not_newel (eq_false_of_ne_true hnew)).symm

/-- The segment `st'` is `st` as it is left without memory for a value, which would
have been stored as in `stored`. -/
structure Stopped (st st' : SegBlocks) (stored : SegState) : Prop where
  tag : st'.tag = st.tag
  items : st.newel = true ∧ st'.state.elements = st.state.elements ∨
    ∃ vs v, st'.state.elements = st.state.openElement.before ++ [.composite vs] ∧
      stored.before = st.state.openElement.before ∧
      stored.el = some (.composite (vs ++ [v]))

theorem own_some {el : ElementBlocks} (hel : st.el = some el) :
    st.own = el.own +
      ((st.before.map ElementBlocks.own).sum + blocks st.elements) := by
  simp only [own, items, hel, Option.toList_some, List.map_append, List.sum_append,
    List.map_cons, List.map_nil, List.sum_cons, List.sum_nil, add_zero]
  ac_rfl

/-- A value goes into a new element or into a composite. -/
theorem exists_el {st' : SegBlocks} (hst : st.state.Steady)
    (hstate : st'.state = st.state.openElement) :
    ∃ el, st'.el = some el ∧
      (el.element = .untyped ∨ ∃ vs, el.element = .composite vs) := by
  have hopen := hst.el_openElement
  rw [← hstate] at hopen
  obtain ⟨el, hel⟩ : ∃ el, st'.el = some el := by
    cases hel : st'.el with
    | none => simp [state, hel] at hopen
    | some el => exact ⟨el, rfl⟩
  refine ⟨el, hel, ?_⟩
  simpa [state, hel] using hopen

theorem own_start : start.own = 0 := rfl

theorem round_spec {a : PoolBlocks} (ha : a.Ok) (hst : st.state.Steady)
    (hheld : AllHeld a.pools st.items) (p : EdiParser) (raw : Bytes) (next : Int)
    (hc : c → PoolBlocks.Enough a.pools (raw.length + 1)) :
    Spec ok R (a.own + st.own) (st.round p a raw next) (fun r own' =>
      own' = r.1.own + r.2.1.own ∧ r.1.Ok ∧ AllHeld r.1.pools r.2.1.items ∧
        (∀ q, PoolHeld a.pools q → PoolHeld r.1.pools q) ∧
      if r.2.2 then r.1.pools = (ediStringpoolAlloc a.pools (raw.length + 1)).1 ∧
        r.2.1.state = storeValue p st.state.openElement
          (.ofBytes (memcpyescape p false raw)) next
      else R ∧ Stopped st r.2.1 (storeValue p st.state.openElement
        (.ofBytes (memcpyescape p false raw)) next)) (Astray R c) := by
  rw [add_comm]
  refine Spec.bind_frame openElement_spec fun opened own' hopened => ?_
  cases opened with
  | none =>
    obtain ⟨rfl, hnew, hrefused⟩ := hopened
    exact Spec.pure ⟨add_comm _ _, ha, hheld, fun _ hq => hq, hrefused, rfl,
      Or.inl ⟨hnew, rfl⟩⟩
  | some st' =>
    obtain ⟨rfl, hstate, hitems⟩ := hopened
    rw [add_comm]
    refine Spec.bind_frame (PoolBlocks.alloc_spec ha hc) fun r own' halloc => ?_
    obtain ⟨b, q⟩ := r
    obtain ⟨rfl, hb, hpools, rfl⟩ := halloc
    have hkeeps : ∀ q, PoolHeld a.pools q → PoolHeld b.pools q := by
      intro q hq
      rw [hpools]
      exact hq.alloc _
    have hprev : AllHeld b.pools st'.items := by
      intro el hel q hq
      rcases hitems el hel with hel | rfl
      · exact hkeeps q (hheld el hel q hq)
      · cases hq
    obtain ⟨el, hel, helement⟩ := exists_el hst hstate
    have hown : b.own + st'.own = el.own + (b.own +
        ((st'.before.map ElementBlocks.own).sum + blocks st'.elements)) := by
      rw [own_some hel]
      ac_rfl
    simp only [hel]
    refine Spec.of_own hown (Spec.bind_frame (ElementBlocks.store_spec helement _ _)
      fun r own' hstore => ?_)
    obtain ⟨el', done⟩ := r
    obtain ⟨rfl, hcase⟩ := hstore
    dsimp only at hcase
    have helst : el ∈ st'.items := by simp [items, hel]
    have hnew := held_alloc a.pools raw.length
    rw [← hpools] at hnew
    have hall : AllHeld b.pools (st'.before ++ [el']) := by
      refine AllHeld.concat (fun e he => hprev e (List.mem_append_left _ he))
        (hprev el helst) hnew ?_
      split at hcase
      · exact Or.inl hcase.2
      · exact Or.inr hcase.2.1
    have hbefore : st'.before.map ElementBlocks.element
        = st.state.openElement.before := congrArg SegState.before hstate
    refine Spec.pure ⟨?_, hb, hall, hkeeps, ?_⟩
    · rw [@own_some { st' with el := some el', tag := _ } el' rfl]
      ac_rfl
    · cases done with
      | true =>
        obtain ⟨hstored, -⟩ := hcase
        refine ⟨hpools, ?_⟩
        rw [← hstate]
        simp [state, storeValue, hel, hstored, ElementBlocks.strings_length]
      | false =>
        obtain ⟨hrefused, -, vs, hvs, hstored⟩ := hcase
        refine ⟨hrefused, ?_, Or.inr ⟨vs, .ofBytes (memcpyescape p false raw), ?_,
          storeValue_before _ _ _ _, ?_⟩⟩
        · exact (congrArg SegState.tag hstate).trans (SegState.tag_openElement _)
        · simp [items, hvs, hbefore]
        · rw [storeValue_el, ← hstate]
          simpa [state, hel] using hstored

end SegBlocks

/-! ## The element loop -/

section Loop

variable {p : EdiParser} {a : PoolBlocks} {st : SegBlocks} {b d : UInt8}
  {cs raw ds : Bytes}

theorem elementLoopBlocks_last (hseg : ¬ p.isSeg b = true)
    (hscan : scanValue p st.state.first false (b :: cs) = (raw, [])) :
    elementLoopBlocks p a st (b :: cs) = do
      let (a, st, done) ← st.round p a raw 0
      return (a, st, if done then some ⟨[], Nat.zero_le _⟩ else none) := by
  rw [elementLoopBlocks, if_neg hseg]
  split
  · next raw' h =>
    obtain rfl : raw' = raw := congrArg Prod.fst (h.symm.trans hscan)
    rfl
  · next h => cases h.symm.trans hscan

theorem elementLoopBlocks_next (hseg : ¬ p.isSeg b = true)
    (hscan : scanValue p st.state.first false (b :: cs) = (raw, d :: ds)) :
    elementLoopBlocks p a st (b :: cs) = do
      let (a, st, done) ← st.round p a raw (charVal d)
      if done then
        if p.isSeg d then
          return (a, st, some ⟨d :: ds, scanValue_rest_lt hscan⟩)
        else do
          let (a, st, rest) ←
            elementLoopBlocks p a { st with newel := p.opens d } ds
          return (a, st, rest.map fun r =>
            ⟨r.1, Nat.le_trans r.2 (Nat.le_of_lt (scanValue_rest_lt hscan))⟩)
      else return (a, st, none) := by
  rw [elementLoopBlocks, if_neg hseg]
  split
  · next h => cases h.symm.trans hscan
  · next raw' d' ds' h =>
    cases h.symm.trans hscan
    rfl

end Loop

/-- Behind a scan that does not end the segment there may be another value. -/
theorem continues_of_scanValue {p : EdiParser} {first : Bool} {m raw ds : Bytes}
    {d : UInt8} (hscan : scanValue p first false m = (raw, d :: ds))
    (hd : p.isSeg d = false) : (⟨raw, some d⟩ : RawPiece).Continues p := by
  have hstop := scanValue_stops hscan
  refine ⟨d, rfl, hd, ?_⟩
  simp only [EdiParser.stops, EdiParser.opens, hd] at hstop ⊢
  grind

/-- A composite is only added to. -/
theorem assemble_composite (p : EdiParser) (vs : List EdiValue)
    (xs : List RawPiece) :
    ∃ ws rest, assemble p (some (.composite vs)) xs
      = .composite (vs ++ ws) :: rest := by
  induction xs generalizing vs with
  | nil => exact ⟨[], [], by simp [assemble]⟩
  | cons x xs ih =>
    rw [assemble]
    dsimp only [Option.getD_some, EdiElement.store]
    split
    · exact ⟨[x.value p], _, rfl⟩
    · obtain ⟨ws, rest, hrest⟩ := ih (vs ++ [x.value p])
      exact ⟨x.value p :: ws, rest, by simpa using hrest⟩

/-- Behind an element that is done there are only others. -/
theorem elementLoop_newel (p : EdiParser) {st : SegState} (h : st.newel = true)
    (m : Bytes) :
    ∃ rest, (elementLoop p st m).1.elements = st.elements ++ rest := by
  rw [elementLoop_eq p (Or.inl h), foldl_recordPiece_elements p _ (Or.inl h),
    if_pos h]
  exact ⟨_, rfl⟩

theorem elementLoop_composite (p : EdiParser) {st : SegState}
    {vs : List EdiValue} (h : st.el = some (.composite vs)) (m : Bytes) :
    ∃ ws rest, (elementLoop p st m).1.elements
      = st.before ++ .composite (vs ++ ws) :: rest := by
  have hready : st.Ready := Or.inr (by simp [h])
  by_cases hnew : st.newel = true
  · obtain ⟨rest, hrest⟩ := elementLoop_newel p hnew m
    rw [hrest, SegState.elements, h]
    exact ⟨[], rest, by simp⟩
  · rw [elementLoop_eq p hready, foldl_recordPiece_elements p _ hready, if_neg hnew,
      h]
    obtain ⟨ws, rest, hrest⟩ :=
      assemble_composite p vs (rawPieces p st.first m).1
    exact ⟨ws, rest, by rw [hrest]⟩

theorem elementLoop_tag (p : EdiParser) {st : SegState} (h : st.TagSet)
    (m : Bytes) : (elementLoop p st m).1.tag = st.tag := by
  rw [elementLoop_eq p (Or.inr h.1)]
  exact foldl_recordPiece_tag (rawPieces_continues p st.first m) h

/-- The segment breaks off, if the one that is done is made of what would have been
stored. -/
theorem SegBlocks.Stopped.part {st st' : SegBlocks} {stored final : SegState}
    (h : st.Stopped st' stored) (htag : st.tag = none ∨ st.tag = final.tag)
    (hnew : st.newel = true → ∃ rest, final.elements = st.state.elements ++ rest)
    (hel : ∀ vs v, stored.el = some (.composite (vs ++ [v])) →
      ∃ ws rest, final.elements = stored.before ++ .composite (vs ++ ws) :: rest) :
    st'.state.Part final := by
  refine ⟨?_, ?_⟩
  · show st'.tag = none ∨ st'.tag = final.tag
    rw [h.tag]
    exact htag
  · rcases h.items with ⟨hnewel, helements⟩ | ⟨vs, v, helements, hbefore, hstored⟩
    · obtain ⟨rest, hrest⟩ := hnew hnewel
      exact Or.inl ⟨rest, by rw [helements, hrest]⟩
    · obtain ⟨ws, rest, hrest⟩ := hel vs v hstored
      refine Or.inr ⟨_, _, _, rest, helements, ?_, vs, ws, rfl, rfl⟩
      rw [hrest, hbefore]

/-- The segment breaks off in its last round. -/
theorem SegBlocks.Stopped.part_last {p : EdiParser} {st st' : SegBlocks} {b : UInt8}
    {cs raw : Bytes} (hseg : p.isSeg b = false)
    (hscan : scanValue p st.state.first false (b :: cs) = (raw, []))
    (htag : st.tag = none ∨ st.state.TagSet)
    (h : st.Stopped st' (storeValue p st.state.openElement
      (.ofBytes (memcpyescape p false raw)) 0)) :
    st'.state.Part (elementLoop p st.state (b :: cs)).1 := by
  refine h.part (htag.imp_right fun h => (elementLoop_tag p h _).symm)
    (fun hnew => elementLoop_newel p hnew _) fun vs v hel => ⟨[v], [], ?_⟩
  rw [elementLoop_last hseg hscan, SegState.elements, hel]
  rfl

/-- The segment breaks off in another round. -/
theorem SegBlocks.Stopped.part_next {p : EdiParser} {st st' : SegBlocks} {b d : UInt8}
    {cs raw ds : Bytes} (hseg : p.isSeg b = false)
    (hscan : scanValue p st.state.first false (b :: cs) = (raw, d :: ds))
    (htag : st.tag = none ∨ st.state.TagSet)
    (h : st.Stopped st' (storeValue p st.state.openElement
      (.ofBytes (memcpyescape p false raw)) (charVal d))) :
    st'.state.Part (elementLoop p st.state (b :: cs)).1 := by
  refine h.part (htag.imp_right fun h => (elementLoop_tag p h _).symm)
    (fun hnew => elementLoop_newel p hnew _) fun vs v hel => ?_
  by_cases hd : p.isSeg d = true
  · rw [elementLoop_stop hseg hscan hd]
    exact ⟨[v], [], by rw [SegState.elements, hel]; rfl⟩
  · rw [elementLoop_next hseg hscan (eq_false_of_ne_true hd)]
    obtain ⟨ws, rest, hrest⟩ := @elementLoop_composite p
      { storeValue p st.state.openElement _ (charVal d) with
        newel := p.opens d } (vs ++ [v]) hel ds
    exact ⟨v :: ws, rest, by simpa using hrest⟩

/-- The variables behind a round that does not end the segment. -/
structure SegBlocks.Entered (p : EdiParser) (st st' : SegBlocks) (raw : Bytes)
    (d : UInt8) : Prop where
  state : st'.state = recordPiece p st.state ⟨raw, some d⟩
  steady : st'.state.Steady
  tagSet : st'.state.TagSet
  first : st'.state.first = (st.state.first && !p.opens d)

theorem SegBlocks.entered {p : EdiParser} {st st' : SegBlocks} {m raw ds : Bytes}
    {d : UInt8} (hst : st.state.Steady)
    (hscan : scanValue p st.state.first false m = (raw, d :: ds))
    (hd : p.isSeg d = false)
    (hstate : st'.state = storeValue p st.state.openElement
      (.ofBytes (memcpyescape p false raw)) (charVal d)) :
    Entered p st { st' with newel := p.opens d } raw d := by
  have hready : st.state.Ready := by
    refine hst.imp_right fun hel => ?_
    obtain ⟨vs, hvs⟩ := hel
    simp [hvs]
  have hnext : SegBlocks.state { st' with newel := p.opens d }
      = recordPiece p st.state ⟨raw, some d⟩ := by
    rw [recordPiece_next p st.state raw hd, ← hstate]
    rfl
  have hsteady := hst.next (scanValue_stops hscan) hd
    (.ofBytes (memcpyescape p false raw))
  have hfirst := recordPiece_first hready p ⟨raw, some d⟩
  rw [← recordPiece_next p st.state raw hd, ← hnext] at hsteady
  rw [← hnext, RawPiece.endsElement_next hd] at hfirst
  refine ⟨hnext, hsteady, ?_, hfirst⟩
  rw [hnext]
  exact recordPiece_tagSet hready (continues_of_scanValue hscan hd)

/-- How the element loop ends, where `loop` is what it comes to with all the
memory: with the same segment, or with a part of it. -/
def LoopEnds (R c : Prop) (p : EdiParser) (pools : List Pool) {m : Bytes}
    (loop : SegState × Bytes) (r : PoolBlocks × SegBlocks × Option (Rest m))
    (own : Multiset Nat) : Prop :=
  own = r.1.own + r.2.1.own ∧ r.1.Ok ∧ AllHeld r.1.pools r.2.1.items ∧
    (∀ q, PoolHeld pools q → PoolHeld r.1.pools q) ∧
  match r.2.2 with
  | some rest => (r.2.1.state, rest.1) = loop ∧
    (c → ∀ d ds, rest.1 = d :: ds → Roomy r.1.pools p .segment ds)
  | none => R ∧ r.2.1.state.Part loop.1

section Rounds

variable {p : EdiParser} {a : PoolBlocks} {st : SegBlocks} {b d : UInt8}
  {cs raw ds : Bytes} (ha : a.Ok) (hst : st.state.Steady)
  (htag : st.tag = none ∨ st.state.TagSet) (hheld : AllHeld a.pools st.items)
  (hseg : p.isSeg b = false)

include ha hst htag hheld hseg

/-- The message ends behind the value. -/
theorem elementLoopBlocks_ends_last
    (hscan : scanValue p st.state.first false (b :: cs) = (raw, []))
    (hc : c → Roomy a.pools p (.value st.state.first) (b :: cs)) :
    Spec ok R (a.own + st.own) (elementLoopBlocks p a st (b :: cs))
      (LoopEnds R c p a.pools (elementLoop p st.state (b :: cs)))
      (Astray R c) := by
  rw [elementLoopBlocks_last (by simp [hseg]) hscan]
  refine Spec.bind (SegBlocks.round_spec ha hst hheld p raw 0
    fun hcond => (hc hcond).enough (by simp [hseg]) hscan) fun r own' hround => ?_
  obtain ⟨a', st', done⟩ := r
  obtain ⟨rfl, ha', hheld', hkeeps, hcase⟩ := hround
  refine Spec.pure ⟨rfl, ha', hheld', hkeeps, ?_⟩
  cases done with
  | true =>
    rw [elementLoop_last hseg hscan]
    exact ⟨Prod.ext hcase.2 rfl, fun _ d ds h => by cases h⟩
  | false => exact ⟨hcase.1, hcase.2.part_last hseg hscan htag⟩

/-- There is something behind the value. -/
theorem elementLoopBlocks_ends_next
    (hscan : scanValue p st.state.first false (b :: cs) = (raw, d :: ds))
    (hc : c → Roomy a.pools p (.value st.state.first) (b :: cs))
    (hrest : ∀ (a' : PoolBlocks) (st' st'' : SegBlocks),
      st'' = { st' with newel := p.opens d } → a'.Ok →
      SegBlocks.Entered p st st'' raw d → AllHeld a'.pools st''.items →
      (c → Roomy a'.pools p (.value st''.state.first) ds) →
      Spec ok R (a'.own + st''.own) (elementLoopBlocks p a' st'' ds)
        (LoopEnds R c p a'.pools (elementLoop p st''.state ds)) (Astray R c)) :
    Spec ok R (a.own + st.own) (elementLoopBlocks p a st (b :: cs))
      (LoopEnds R c p a.pools (elementLoop p st.state (b :: cs)))
      (Astray R c) := by
  have hopen : ¬ p.isSeg b = true := by simp [hseg]
  rw [elementLoopBlocks_next hopen hscan]
  refine Spec.bind (SegBlocks.round_spec ha hst hheld p raw (charVal d)
    fun hcond => (hc hcond).enough hopen hscan) fun r own' hround => ?_
  obtain ⟨a', st', done⟩ := r
  obtain ⟨rfl, ha', hheld', hkeeps, hcase⟩ := hround
  have hroomy := fun hcond => (hc hcond).next hopen hscan
  cases done with
  | false => exact Spec.pure ⟨rfl, ha', hheld', hkeeps, hcase.1,
      hcase.2.part_next hseg hscan htag⟩
  | true =>
    obtain ⟨hpools, hstate⟩ := hcase
    dsimp only at hpools hstate ⊢
    rw [if_pos rfl]
    cases hd : p.isSeg d with
    | true =>
      rw [if_pos rfl, elementLoop_stop hseg hscan hd]
      refine Spec.pure ⟨rfl, ha', hheld', hkeeps, Prod.ext hstate rfl, ?_⟩
      rintro hcond d' ds' ⟨rfl, rfl⟩
      have hnext := hroomy hcond
      rw [if_pos hd] at hnext
      rw [hpools]
      exact hnext
    | false =>
      have hentered := SegBlocks.entered hst hscan hd hstate
      rw [if_neg Bool.false_ne_true, elementLoop_next hseg hscan hd,
        ← recordPiece_next p st.state raw hd, ← hentered.state]
      refine Spec.bind (hrest a' st' _ rfl ha' hentered hheld' fun hcond => ?_)
        fun r own' hends => ?_
      · have hroom := hroomy hcond
        rw [if_neg (by simp [hd])] at hroom
        rw [hentered.first, hpools]
        exact hroom
      · obtain ⟨hown, hok, hall, hkeeps', hcase⟩ := hends
        refine Spec.pure ⟨hown, hok, hall, fun q hq => hkeeps' q (hkeeps q hq), ?_⟩
        rcases hrest : r.2.2 with - | rest
        · rw [hrest] at hcase
          exact hcase
        · rw [hrest] at hcase
          exact hcase

end Rounds

theorem elementLoopBlocks_spec (p : EdiParser) {a : PoolBlocks} {st : SegBlocks}
    (ha : a.Ok) (hst : st.state.Steady)
    (htag : st.tag = none ∨ st.state.TagSet) (hheld : AllHeld a.pools st.items)
    (m : Bytes) (hc : c → Roomy a.pools p (.value st.state.first) m) :
    Spec ok R (a.own + st.own) (elementLoopBlocks p a st m)
      (LoopEnds R c p a.pools (elementLoop p st.state m)) (Astray R c) := by
  induction a, st, m using elementLoopBlocks.induct (p := p) with
  | case1 a st =>
    rw [elementLoopBlocks, elementLoop]
    exact Spec.pure ⟨rfl, ha, hheld, fun _ hq => hq, rfl,
      fun _ d ds h => by cases h⟩
  | case2 a st b cs hseg =>
    rw [elementLoopBlocks, if_pos hseg, elementLoop, if_pos hseg]
    refine Spec.pure ⟨rfl, ha, hheld, fun _ hq => hq, rfl, ?_⟩
    rintro hcond d ds ⟨rfl, rfl⟩
    exact (hc hcond).stop hseg
  | case3 a st b cs hseg raw hscan =>
    exact elementLoopBlocks_ends_last ha hst htag hheld (eq_false_of_ne_true hseg)
      hscan hc
  | case4 a st b cs hseg raw d ds hscan ih =>
    refine elementLoopBlocks_ends_next ha hst htag hheld (eq_false_of_ne_true hseg)
      hscan hc fun a' st' st'' heq ha' hentered hheld' hroomy => ?_
    subst heq
    exact ih a' st' ha' hentered.steady (Or.inr hentered.tagSet) hheld' hroomy

/-! ## The segment loop -/

theorem segmentLoopBlocks_nil {p : EdiParser} {total segalloc : Nat}
    {i : InterchangeBlocks} {m : Bytes} (h : m.dropWhile isNewline = []) :
    segmentLoopBlocks p total segalloc i m = pure (i, .none) := by
  rw [segmentLoopBlocks]
  split
  · rfl
  · next h' => cases h'.symm.trans h

theorem segmentLoopBlocks_cons {p : EdiParser} {total segalloc : Nat}
    {i : InterchangeBlocks} {m : Bytes} {b : UInt8} {cs : Bytes}
    (h : m.dropWhile isNewline = b :: cs) :
    segmentLoopBlocks p total segalloc i m = (do
      match ← i.grow segalloc with
      | none => return (i, .system)
      | some (i, segalloc) =>
        let offset := total - (b :: cs).length
        match ← elementLoopBlocks p i.pool SegBlocks.start (b :: cs) with
        | (a, st, none) => return (i.push a st offset, .system)
        | (a, st, some ⟨[], _⟩) => return (i.push a st offset, .unterminated)
        | (a, st, some ⟨_ :: rest, _⟩) =>
          segmentLoopBlocks p total segalloc (i.push a st offset) rest) := by
  rw [segmentLoopBlocks]
  split
  · next h' => cases h'.symm.trans h
  · next h' =>
    cases h'.symm.trans h
    rfl

/-- The first segment of a parse. -/
theorem segmentLoop_fst (p : EdiParser) (total : Nat) {m l : Bytes} {b : UInt8}
    (h : m.dropWhile isNewline = b :: l) :
    ∃ tail, (segmentLoop p total m).1
      = ⟨(elementLoop p SegState.start (b :: l)).1.elements,
          (elementLoop p SegState.start (b :: l)).1.tag,
          total - (b :: l).length⟩ :: tail := by
  rcases hloop : elementLoop p SegState.start (b :: l) with ⟨st, - | ⟨d, rest⟩⟩
  · exact ⟨[], by rw [segmentLoop_open h (by simp) hloop]⟩
  · exact ⟨_, by rw [segmentLoop_closed h (by simp) hloop]; rfl⟩

namespace InterchangeBlocks

variable {i : InterchangeBlocks}

/-- The blocks of an interchange, those of its pools in front. -/
theorem own_pool (i : InterchangeBlocks) : i.own = i.pool.own +
    ((i.items.map SegmentBlocks.own).sum +
      (blocks i.segments + (blocks (some i.priv) + blocks (some i.self)))) := by
  unfold own
  ac_rfl

theorem own_push (i : InterchangeBlocks) (a : PoolBlocks) (st : SegBlocks)
    (offset : Nat) : (i.push a st offset).own = a.own + st.own +
      ((i.items.map SegmentBlocks.own).sum +
        (blocks i.segments + (blocks (some i.priv) + blocks (some i.self)))) := by
  simp only [own, push, List.map_append, List.sum_append, List.map_cons,
    List.map_nil, List.sum_cons, List.sum_nil, add_zero, SegmentBlocks.own,
    SegBlocks.own]
  ac_rfl

theorem push_segments (i : InterchangeBlocks) (a : PoolBlocks) (st : SegBlocks)
    (offset : Nat) : (i.push a st offset).interchange.segments
      = i.interchange.segments ++ [⟨st.state.elements, st.state.tag, offset⟩] := by
  rw [SegBlocks.state_elements]
  simp only [interchange, push, List.map_append]
  rfl

/-- One segment more, where the pools have only grown. -/
theorem Ok.push (h : i.Ok) (segments : Option Nat) {a : PoolBlocks} (ha : a.Ok)
    {st : SegBlocks} (hheld : AllHeld a.pools st.items)
    (hkeeps : ∀ q, PoolHeld i.pool.pools q → PoolHeld a.pools q) (offset : Nat) :
    (InterchangeBlocks.push { i with segments := segments } a st offset).Ok := by
  refine ⟨ha, fun s hs => ?_⟩
  rcases List.mem_append.1 hs with hs | hs
  · exact fun el hel q hq => hkeeps q (h.held s hs el hel q hq)
  · rw [List.mem_singleton.1 hs]
    exact hheld

theorem grow_spec (segalloc : Nat) {E : Blocks.Fault → Prop} :
    Spec ok R i.own (i.grow segalloc) (fun r own' => match r with
      | none => own' = i.own ∧ R
      | some (i', _) => own' = i'.own ∧
        ∃ segments, i' = { i with segments := segments }) E := by
  have hown : ∀ segments, blocks segments + ((i.items.map SegmentBlocks.own).sum +
      (i.pool.own + (blocks (some i.priv) + blocks (some i.self))))
        = own { i with segments := segments } := by
    intro segments
    simp only [own]
    ac_rfl
  unfold grow
  split
  · refine Spec.of_own (hown _).symm (Spec.bind_realloc (fun b => ?_)
      fun hrefused => Spec.pure ⟨hown _, hrefused⟩)
    exact Spec.pure ⟨hown _, some b, rfl⟩
  · exact Spec.pure ⟨rfl, i.segments, rfl⟩

end InterchangeBlocks

theorem segmentLoopBlocks_spec (p : EdiParser) (total segalloc : Nat)
    {i : InterchangeBlocks} (hi : i.Ok) (m : Bytes)
    (hc : c → Roomy i.pool.pools p .segment m) :
    Spec ok R i.own (segmentLoopBlocks p total segalloc i m) (fun r own' =>
      own' = r.1.own ∧ r.1.Ok ∧ ∃ new,
        r.1.interchange.segments = i.interchange.segments ++ new ∧
        (segmentLoop p total m = (new, r.2) ∨
          r.2 = .system ∧ R ∧
            BreaksOff EdiSegment.Part new (segmentLoop p total m).1))
      (Astray R c) := by
  induction segalloc, i, m using segmentLoopBlocks.induct total with
  | case1 segalloc i m h =>
    rw [segmentLoopBlocks_nil h]
    exact Spec.pure ⟨rfl, hi, [], by simp, Or.inl (segmentLoop_nil h)⟩
  | case2 segalloc i m b cs h ih =>
    rw [segmentLoopBlocks_cons h]
    refine Spec.bind (InterchangeBlocks.grow_spec segalloc) fun r own' hgrow => ?_
    cases r with
    | none =>
      obtain ⟨rfl, hrefused⟩ := hgrow
      exact Spec.pure ⟨rfl, hi, [], by simp,
        Or.inr ⟨rfl, hrefused, Or.inl ⟨_, rfl⟩⟩⟩
    | some r =>
      obtain ⟨i', segalloc'⟩ := r
      obtain ⟨rfl, segments, rfl⟩ := hgrow
      have hown : InterchangeBlocks.own { i with segments := segments }
          = i.pool.own + SegBlocks.start.own +
            ((i.items.map SegmentBlocks.own).sum +
              (blocks segments + (blocks (some i.priv) + blocks (some i.self)))) := by
        rw [InterchangeBlocks.own_pool, SegBlocks.own_start, add_zero]
      have hsteady : SegBlocks.start.state.Steady := SegState.steady_start
      refine Spec.of_own hown (Spec.bind_frame
        (elementLoopBlocks_spec p hi.pool hsteady (Or.inl rfl)
          (fun el hel => by cases hel) (b :: cs)
          fun hcond => (hc hcond).segment h) fun r own' hloop => ?_)
      obtain ⟨a, st, rest⟩ := r
      obtain ⟨rfl, ha, hheld, hkeeps, hcase⟩ := hloop
      have hpush := InterchangeBlocks.own_push { i with segments := segments } a st
        (total - (b :: cs).length)
      have hok := hi.push segments ha hheld hkeeps (total - (b :: cs).length)
      have hsegments := InterchangeBlocks.push_segments
        { i with segments := segments } a st (total - (b :: cs).length)
      rcases rest with - | ⟨- | ⟨d, rest⟩, hle⟩
      · obtain ⟨hrefused, hpart⟩ := hcase
        obtain ⟨tail, htail⟩ := segmentLoop_fst p total h
        refine Spec.pure ⟨hpush.symm, hok, _, hsegments, Or.inr ⟨rfl, hrefused, ?_⟩⟩
        rw [htail]
        exact Or.inr ⟨[], _, _, tail, rfl, rfl, rfl, hpart.tag, hpart.elements⟩
      · obtain ⟨hloop, -⟩ := hcase
        refine Spec.pure ⟨hpush.symm, hok, _, hsegments, Or.inl ?_⟩
        exact segmentLoop_open h (by simp) hloop.symm
      · obtain ⟨hloop, hroomy⟩ := hcase
        have hplain : segmentLoop p total m = _ :=
          segmentLoop_closed h (by simp) hloop.symm
        refine Spec.of_own hpush.symm ((ih _ segalloc' a st d rest hle hok
          fun hcond => hroomy hcond d rest rfl).mono fun r own' hrest => ?_)
        obtain ⟨hown, hok, new, hnew, hcase⟩ := hrest
        rw [hsegments, List.append_assoc, List.singleton_append] at hnew
        refine ⟨hown, hok, _, hnew, ?_⟩
        rw [hplain]
        rcases hcase with hcase | ⟨hsystem, hrefused, hcase⟩
        · rw [hcase]
          exact Or.inl rfl
        · exact Or.inr ⟨hsystem, hrefused, hcase.cons _⟩

/-! ## Destroying -/

section Destroy

variable {base : Nat → Nat} {a : PoolBlocks} {E : Blocks.Fault → Prop}

theorem PoolBlocks.freeString_spec (ha : a.Ok) (hplaced : Placed base a.pools)
    {q : StringPtr} (hq : PoolHeld a.pools q) :
    Spec ok R 0 (a.freeString base q) (fun _ own' => own' = 0) E := by
  have hkept := (ediStringpoolFree_address hplaced ha.bounded hq.1).2 hq.2
  rw [freeString, hkept]
  exact Spec.pure rfl

theorem PoolBlocks.destroy_spec (a : PoolBlocks) :
    Spec ok R a.own a.destroy (fun _ own' => own' = 0) E := by
  refine Spec.bind (Spec.forM (fun b _ => Spec.free_last (some b)) _)
    fun _ own' hown => ?_
  rw [hown]
  exact Spec.bind_free (Spec.bind_free (Spec.free_last a.poolsize))

theorem ElementBlocks.destroy_spec (ha : a.Ok) (hplaced : Placed base a.pools)
    {el : ElementBlocks} (hel : ∀ q ∈ el.strings, PoolHeld a.pools q) :
    Spec ok R el.own (el.destroy base a) (fun _ own' => own' = 0) E := by
  cases el with
  | untyped => exact Spec.pure rfl
  | simple q v =>
    exact PoolBlocks.freeString_spec ha hplaced (hel q (by simp [strings]))
  | composite vp lp vs =>
    have hfree : ∀ x ∈ vs, Spec ok R 0 (a.freeString base x.1)
        (fun _ own' => own' = 0) E :=
      fun x hx => PoolBlocks.freeString_spec ha hplaced
        (hel x.1 (List.mem_map_of_mem hx))
    have hsum : (vs.map fun _ => (0 : Multiset Nat)).sum = 0 := by simp
    refine Spec.of_own (by rw [hsum, zero_add]; rfl)
      (Spec.bind (Spec.forM hfree (blocks vp + blocks lp)) fun _ own' hown => ?_)
    rw [hown]
    exact Spec.bind_free (Spec.free_last lp)

/-- `edi_interchange_destroy` frees all blocks of an interchange. -/
theorem InterchangeBlocks.destroy_spec {i : InterchangeBlocks} (hi : i.Ok)
    (hplaced : Placed base i.pool.pools) :
    Spec ok R i.own (i.destroy base) (fun _ own' => own' = 0) E := by
  have hsegment : ∀ s ∈ i.items, Spec ok R s.own (do
      s.items.forM fun el => el.destroy base i.pool
      free s.elements) (fun _ own' => own' = 0) E := by
    intro s hs
    refine Spec.bind (Spec.forM (fun el hel =>
      ElementBlocks.destroy_spec hi.pool hplaced (hi.held s hs el hel)) _)
      fun _ own' hown => ?_
    rw [hown]
    exact Spec.free_last s.elements
  refine Spec.bind (Spec.forM hsegment _) fun _ own' hown => ?_
  rw [hown]
  refine Spec.bind_free (Spec.bind_frame (PoolBlocks.destroy_spec i.pool)
    fun _ own' hown => ?_)
  rw [hown, zero_add]
  exact Spec.bind_free (Spec.free_last (some i.self))

end Destroy

/-! ## The parser -/

theorem InterchangeBlocks.create_spec {E : Blocks.Fault → Prop} :
    Spec ok R 0 create (fun r own' => match r with
      | none => own' = 0 ∧ R
      | some i => own' = i.own ∧ i.items = [] ∧ i.pool = .empty) E := by
  refine Spec.bind_malloc (fun self => ?_) fun hrefused =>
    Spec.pure ⟨rfl, hrefused⟩
  refine Spec.bind_malloc (fun priv => ?_) fun hrefused => ?_
  · refine Spec.pure ⟨?_, rfl, rfl⟩
    simp [own, PoolBlocks.own, PoolBlocks.empty]
  · exact Spec.bind_free (Spec.pure ⟨rfl, hrefused⟩)

/-- The requests for the first pool of a parse are granted.  They come behind the
two of `edi_interchange_create`. -/
def FirstPool (ok : Nat → Bool) (h : Heap) : Prop :=
  ∀ k < 4, ok (h.requests + 2 + k) = true

theorem InterchangeBlocks.create_requests {h h' : Heap} {i : InterchangeBlocks}
    (hrun : create.run ok h = (.ok (some i), h')) :
    h'.requests = h.requests + 2 := by
  unfold create at hrun
  cases h0 : ok h.requests with
  | false =>
    rw [run_bind (run_malloc_refused h0)] at hrun
    cases hrun
  | true =>
    rw [run_bind (run_malloc_granted h0)] at hrun
    dsimp only at hrun
    cases h1 : ok (h.requests + 1) with
    | false =>
      have hmem : h.requests ∈ h.grant.refuse.live := Multiset.mem_cons_self _ _
      rw [run_bind (run_malloc_refused h1)] at hrun
      dsimp only at hrun
      rw [run_bind (run_free hmem)] at hrun
      cases hrun
    | true =>
      rw [run_bind (run_malloc_granted h1)] at hrun
      cases hrun
      rfl

theorem PoolBlocks.get_granted (minsize : Nat) {h : Heap}
    (hok : ∀ k < 4, ok (h.requests + k) = true) :
    ∃ a h', (PoolBlocks.empty.get minsize).run ok h = (.ok (a, some 0), h') := by
  have h0 := hok 0 (by decide)
  have h1 := hok 1 (by decide)
  have h2 := hok 2 (by decide)
  have h3 := hok 3 (by decide)
  show ∃ a h', (PoolBlocks.empty.create minsize).run ok h = (.ok (a, some 0), h')
  unfold create
  rw [run_bind (run_realloc_granted (show empty.stringpool = none from rfl) h0)]
  dsimp only
  rw [run_bind (run_realloc_granted (show empty.sp = none from rfl) h1)]
  dsimp only
  rw [run_bind (run_realloc_granted (show empty.poolsize = none from rfl) h2)]
  dsimp only
  rw [run_bind (run_malloc_granted h3)]
  exact ⟨_, _, rfl⟩

/-- How the part behind the detection ends, by what it gives with all memory.  `R`
is what is known if one of its requests is refused. -/
inductive Ends (ok : Nat → Bool) (R : Prop) (p : EdiParser) (m : Bytes) (h : Heap)
    (plain : EdiParser × EdiInterchange) :
    Except Blocks.Fault (EdiParser × Option InterchangeBlocks) × Heap → Prop
  | astray {e : Blocks.Fault} {h' : Heap} (hastray : Astray R
      (FirstPool ok h ∧ (m.length < 511 ∨ 0 < spareBytes p .segment m)) e) :
      Ends ok R p m h plain (.error e, h')
  | null {h' : Heap} (hlive : h'.live = h.live) (hrefused : R) :
      Ends ok R p m h plain (.ok ({ p with error := .system }, none), h')
  | broken {i : InterchangeBlocks} {h' : Heap} (hlive : h'.live = i.own + h.live)
      (hok : i.Ok) (hrefused : R)
      (hpart : BreaksOff EdiSegment.Part i.interchange.segments plain.2.segments) :
      Ends ok R p m h plain (.ok ({ p with error := .system }, some i), h')
  | done {i : InterchangeBlocks} {h' : Heap} (hlive : h'.live = i.own + h.live)
      (hok : i.Ok) (hplain : i.interchange = plain.2) :
      Ends ok R p m h plain (.ok (plain.1, some i), h')

/-- The pool for a message is large enough, unless the message has 511 bytes and all
of them belong to values. -/
theorem roomy_newPool {p : EdiParser} {m : Bytes}
    (h : m.length < 511 ∨ 0 < spareBytes p .segment m) :
    Roomy [newPool (m.length + 1)] p .segment m := by
  have hsize := newPool_mem_length (m.length + 1)
  have hblock : stringpoolBlocksize = 512 := rfl
  refine ⟨newPool (m.length + 1), rfl, ?_⟩
  show 0 + m.length + 1 < _
  omega

/-- If the requests for it are granted, the first pool is large enough. -/
theorem FirstPool.roomy {h h₁ h₂ : Heap} {i : InterchangeBlocks} {a : PoolBlocks}
    {k : Option Nat} {p : EdiParser} {m : Bytes} (hfirst : FirstPool ok h)
    (hcreate : InterchangeBlocks.create.run ok h = (.ok (some i), h₁))
    (hpool : i.pool = .empty)
    (hget : (i.pool.get (m.length + 1)).run ok h₁ = (.ok (a, k), h₂))
    (hpools : k = some 0 → a.pools = [newPool (m.length + 1)])
    (hspare : m.length < 511 ∨ 0 < spareBytes p .segment m) :
    Roomy a.pools p .segment m := by
  have hgranted : ∀ j < 4, ok (h₁.requests + j) = true := by
    rw [InterchangeBlocks.create_requests hcreate]
    exact hfirst
  obtain ⟨a', h', hrun⟩ := PoolBlocks.get_granted (m.length + 1) hgranted
  rw [← hpool, hget] at hrun
  cases hrun
  rw [hpools rfl]
  exact roomy_newPool hspare

/-- How the loop over the segments ends, behind the first pool. -/
theorem segmentLoopBlocks_ends (p : EdiParser) (total : Nat) {m : Bytes}
    {h h' : Heap} {i : InterchangeBlocks} (hi : i.Ok) (hitems : i.items = [])
    (hlive : h'.live = i.own + h.live)
    (hroomy : FirstPool ok h ∧ (m.length < 511 ∨ 0 < spareBytes p .segment m) →
      Roomy i.pool.pools p .segment m)
    (hR : Refused ok h' ((segmentLoopBlocks p total 0 i m).run ok h').2 → R) :
    Ends ok R p m h
      ({ p with error := (segmentLoop p total m).2 }, ⟨(segmentLoop p total m).1⟩)
      ((do
        let (i, e) ← segmentLoopBlocks p total 0 i m
        return ({ p with error := e }, some i)).run ok h') := by
  have hloop := @segmentLoopBlocks_spec ok R _ p total 0 i hi m hroomy
  obtain ⟨⟨i', e⟩, h₂, own, hrun, hlive', hown, hok, new, hnew, hcase⟩ |
    ⟨e, h₂, hrun, hastray⟩ := hloop.cases hlive hR
  · rw [run_bind hrun]
    obtain rfl : own = i'.own := hown
    have hsegments : i'.interchange.segments = new := by
      rw [hnew]
      simp [InterchangeBlocks.interchange, hitems]
    rcases hcase with hcase | ⟨hsystem, hrefused, hpart⟩
    · rw [hcase]
      exact .done hlive' hok (congrArg EdiInterchange.mk hsegments)
    · obtain rfl : e = .system := hsystem
      refine .broken hlive' hok hrefused ?_
      rw [hsegments]
      exact hpart
  · rw [run_bind_error hrun]
    exact .astray hastray

theorem parseBodyBlocks_ends (p : EdiParser) (total : Nat) (m : Bytes) (h : Heap)
    (hR : Refused ok h ((parseBodyBlocks p total m).run ok h).2 → R) :
    Ends ok R p m h (parseBody p total m)
      ((parseBodyBlocks p total m).run ok h) := by
  unfold parseBodyBlocks at hR ⊢
  unfold parseBody
  have hcreate : Spec ok R 0 InterchangeBlocks.create _ fun _ => False :=
    InterchangeBlocks.create_spec
  obtain ⟨r, h₁, own, hrun, hlive, hcase⟩ :=
    hcreate.runs (zero_add h.live).symm fun hr => hR (hr.bind _)
  replace hR := fun hr => hR (Refused.behind hrun hr)
  rw [run_bind hrun]
  cases r with
  | none =>
    obtain ⟨rfl, hrefused⟩ := hcase
    rw [zero_add] at hlive
    exact .null hlive hrefused
  | some i =>
    obtain ⟨rfl, hitems, hpool⟩ := hcase
    have hok : ∀ a : PoolBlocks, a.Ok →
        InterchangeBlocks.Ok { i with pool := a } := by
      refine fun a ha => ⟨ha, fun s hs => ?_⟩
      rw [hitems] at hs
      cases hs
    have hempty : i.pool.Ok := by
      rw [hpool]
      exact ⟨rfl, fun q hq => by cases hq⟩
    dsimp only at hR ⊢
    split at hR
    · next hnone =>
      rw [if_pos hnone, if_pos hnone]
      refine .done hlive (hok i.pool hempty) ?_
      simp [InterchangeBlocks.interchange, hitems]
    · next hsome =>
      rw [if_neg hsome, if_neg hsome]
      have hget : Spec ok R i.pool.own (i.pool.get (m.length + 1)) _
          fun _ => False := PoolBlocks.get_spec hempty (m.length + 1)
      rw [i.own_pool, add_assoc] at hlive
      obtain ⟨⟨a, k⟩, h₂, own, hrun₂, hlive₂, hgives, -⟩ :=
        hget.runs hlive fun hr => hR (hr.bind _)
      replace hR := fun hr => hR (Refused.behind hrun₂ hr)
      obtain ⟨rfl, ha, hcase⟩ := hgives
      have hpools : k = some 0 → a.pools = [newPool (m.length + 1)] := by
        rintro rfl
        rcases hcase with ⟨-, hpools⟩ | ⟨hnone, -⟩
        · rw [hpools, hpool]
          rfl
        · cases hnone
      rw [run_bind hrun₂]
      rw [← add_assoc, ← InterchangeBlocks.own_pool { i with pool := a }] at hlive₂
      exact segmentLoopBlocks_ends p total (hok a ha) hitems hlive₂
        (fun hroomy => hroomy.1.roomy hrun hpool hrun₂ hpools hroomy.2)
        fun hr => hR (hr.bind _)

/-- What `edi_interchange_destroy` leaves. -/
theorem InterchangeBlocks.Ok.destroyed {i : InterchangeBlocks} (hi : i.Ok)
    {live : Multiset Nat} {h : Heap} (hlive : h.live = i.own + live)
    {base : Nat → Nat} (hplaced : Placed base i.pool.pools) :
    ∃ h', (i.destroy base).run ok h = (.ok (), h') ∧ h'.live = live := by
  have hdestroy : Spec ok True i.own (i.destroy base) _ fun _ => False :=
    destroy_spec hi hplaced
  obtain ⟨⟨⟩, h', own, hrun, hlive', rfl⟩ := hdestroy.runs hlive fun _ => trivial
  exact ⟨h', hrun, hlive'.trans (zero_add live)⟩

end Specs

/-- The message is in no known dialect. -/
theorem parse_of_runsOn_none {lib : EdiLib} {oparser : EdiParser}
    {message : CString} (hruns : runsOn lib oparser message = none) :
    ediParserParseBlocks lib oparser message = pure (oparser, none) ∧
      ediParserParse lib oparser message = (oparser, none) := by
  unfold runsOn at hruns
  split at hruns
  · next hdetect =>
    rw [Option.map_eq_none_iff] at hruns
    unfold ediParserParseBlocks ediParserParse
    rw [if_pos hdetect, if_pos hdetect, hruns]
    exact ⟨rfl, rfl⟩
  · cases hruns

/-- Behind the detection both parsers are the parts of `edi_parser_parse` there.
The caller's parser afterwards is the one that has run, or the one from before. -/
theorem parse_of_runsOn {lib : EdiLib} {oparser p : EdiParser} {message : CString}
    {m : Bytes} (hruns : runsOn lib oparser message = some (p, m))
    (ok : Nat → Bool) (h : Heap) :
    ∃ keep : EdiParser → EdiParser, (oparser.detect ≠ 1 → keep = id) ∧
      ediParserParse lib oparser message
        = (keep (parseBody p message.strlen m).1,
            some (parseBody p message.strlen m).2) ∧
      (ediParserParseBlocks lib oparser message).run ok h
        = ((parseBodyBlocks p message.strlen m).run ok h).map
            (Except.map fun r => (keep r.1, r.2)) id := by
  have hid : ∀ r : Except Blocks.Fault (EdiParser × Option InterchangeBlocks) × Heap,
      r = r.map (Except.map fun r => (id r.1, r.2)) id := by
    rintro ⟨- | r, h⟩ <;> rfl
  unfold runsOn at hruns
  unfold ediParserParseBlocks ediParserParse
  split at hruns
  · next hdetect =>
    rw [Option.map_eq_some_iff] at hruns
    obtain ⟨⟨params, skip⟩, hfound, heq⟩ := hruns
    obtain ⟨rfl, rfl⟩ := Prod.mk.inj heq
    rw [if_pos hdetect, if_pos hdetect, hfound]
    dsimp only
    split
    · refine ⟨fun _ => oparser, fun h => absurd hdetect h, rfl, ?_⟩
      rcases hrun : (parseBodyBlocks (ediParserInit (some params)) message.strlen
        (message.bytes.drop skip)).run ok h with ⟨e | r, h'⟩
      · exact run_bind_error hrun _
      · exact run_bind hrun _
    · exact ⟨id, fun _ => rfl, rfl, hid _⟩
  · next hdetect =>
    obtain ⟨rfl, rfl⟩ := Prod.mk.inj (Option.some.inj hruns)
    rw [if_neg hdetect, if_neg hdetect]
    exact ⟨id, fun _ => rfl, rfl, hid _⟩

/-- The parser returns, unless there is no pool for a value.  It returns what it
returns with all memory, or a part of it if a request was refused, and then all that
it has allocated is freed by `edi_interchange_destroy`, each block once. -/
theorem ediParserParse_destroyed (lib : EdiLib) (oparser : EdiParser)
    (message : CString) (ok : Nat → Bool) (h : Heap) :
    match (ediParserParseBlocks lib oparser message).run ok h with
    | (.error e, h') => e = .stray ∧ Refused ok h h' ∧ ¬ (FirstPool ok h ∧
        ∀ p m, runsOn lib oparser message = some (p, m) →
          m.length < 511 ∨ 0 < spareBytes p .segment m)
    | (.ok (oparser', none), h') => h'.live = h.live ∧
        (ediParserParse lib oparser message = (oparser', none) ∨
          Refused ok h h' ∧ (oparser.detect ≠ 1 → oparser'.error = .system))
    | (.ok (oparser', some i), h') =>
        (ediParserParse lib oparser message = (oparser', some i.interchange) ∨
          Refused ok h h' ∧ (oparser.detect ≠ 1 → oparser'.error = .system) ∧
            ∃ plain, (ediParserParse lib oparser message).2 = some plain ∧
              BreaksOff EdiSegment.Part i.interchange.segments plain.segments) ∧
        ∀ base, Placed base i.pool.pools →
          ∃ h'', (i.destroy base).run ok h' = (.ok (), h'') ∧ h''.live = h.live := by
  cases hruns : runsOn lib oparser message with
  | none =>
    obtain ⟨hblocks, hparse⟩ := parse_of_runsOn_none hruns
    rw [hblocks, hparse]
    exact ⟨rfl, Or.inl rfl⟩
  | some r =>
    obtain ⟨p, m⟩ := r
    obtain ⟨keep, hkeep, hparse, hblocks⟩ := parse_of_runsOn hruns ok h
    have hends := @parseBodyBlocks_ends ok _ p message.strlen m h id
    rw [hblocks, hparse]
    generalize (parseBodyBlocks p message.strlen m).run ok h = r at hends ⊢
    cases hends with
    | astray hastray =>
      obtain ⟨he, hrefused, hnot⟩ := hastray
      exact ⟨he, hrefused, fun hall => hnot ⟨hall.1, hall.2 p m rfl⟩⟩
    | null hlive hrefused =>
      exact ⟨hlive, Or.inr ⟨hrefused, fun hdetect => by rw [hkeep hdetect]; rfl⟩⟩
    | broken hlive hok hrefused hpart =>
      have hsystem : oparser.detect ≠ 1 →
          (keep { p with error := .system }).error = .system := by
        intro hdetect
        rw [hkeep hdetect]
        rfl
      exact ⟨Or.inr ⟨hrefused, hsystem, _, rfl, hpart⟩,
        fun base hplaced => hok.destroyed hlive hplaced⟩
    | done hlive hok hplain =>
      rw [← hplain]
      exact ⟨Or.inl rfl, fun base hplaced => hok.destroyed hlive hplaced⟩

/-- What a caller sees of a parse: the error and the interchange. -/
def seen : Except Blocks.Fault (EdiParser × Option InterchangeBlocks) × Heap →
    Option (EdiErr × Option EdiInterchange)
  | (.ok (p, i), _) => some (p.error, i.map (·.interchange))
  | (.error _, _) => none

/-- `UNB+a:b'`. -/
def compositeMessage : CString where
  bytes := ascii "UNB+a:b'"
  nulFree := by decide
  beyond := fun _ => 0

/-- `UNB+a:b'` with its second component lost. -/
def brokenInterchange : EdiInterchange where
  segments := [⟨[.simple (.ofBytes (ascii "UNB")),
    .composite [.ofBytes (ascii "a")]], some (ascii "UNB"), 0⟩]

/-- The request for the second length of a composite is refused.  The parser detects,
so the error stays in its own one. -/
theorem ediParserParse_destroyed_broken :
    ∃ p i h, (ediParserParseBlocks (ediInit EdiLib.start) createdParser
        compositeMessage).run (fun n => n != 11) Heap.start = (.ok (p, some i), h) ∧
      p.error = .none ∧ i.interchange = brokenInterchange ∧
      ∀ base, Placed base i.pool.pools → ∃ h',
        (i.destroy base).run (fun n => n != 11) h = (.ok (), h') ∧ h'.live = 0 := by
  have hseen : seen ((ediParserParseBlocks (ediInit EdiLib.start) createdParser
      compositeMessage).run (fun n => n != 11) Heap.start)
        = some (.none, some brokenInterchange) := by
    decide +kernel
  have hmain := ediParserParse_destroyed (ediInit EdiLib.start) createdParser
    compositeMessage (fun n => n != 11) Heap.start
  rcases hrun : (ediParserParseBlocks (ediInit EdiLib.start) createdParser
    compositeMessage).run (fun n => n != 11) Heap.start with ⟨e | ⟨p, - | i⟩, h⟩
  · rw [hrun] at hseen
    cases hseen
  · rw [hrun] at hseen
    cases (Prod.mk.inj (Option.some.inj hseen)).2
  · rw [hrun] at hseen hmain
    obtain ⟨herror, hi⟩ := Prod.mk.inj (Option.some.inj hseen)
    exact ⟨p, i, h, rfl, herror, Option.some.inj hi, hmain.2⟩

-- No request for a pool is granted, and the parser goes astray at the first value.
example : seen ((ediParserParseBlocks (ediInit EdiLib.start) createdParser
    compositeMessage).run (fun n => n != 2 && n != 5) Heap.start) = none := by
  decide +kernel

end Libedi
