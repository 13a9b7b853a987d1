import Mathlib.Algebra.BigOperators.Group.Multiset.Basic

/-!
# Blocks of memory

Programs that get blocks of memory and give them back, as `malloc`, `realloc` and
`free` do, where each request may be refused.

* `Heap` has the blocks that are in use, and `Mem` is a program over it.  The
  pattern of the requests that are granted is given from outside.  A program goes
  wrong (`Fault`) if it gives back what is not in use, or touches memory that is not
  there.
* `Spec` is what a program does to the blocks that it owns.  The other blocks in use
  are none of its business: they are still there afterwards, and no others.

The rules `Spec.bind`, `Spec.frame` and `Spec.forM`, with one rule for each of the
three functions, are what a proof about a program needs.
-/

namespace Blocks

/-! ## Programs -/

/-- The blocks in use.  A block has the number of the request that it came from, so
that a block is never the same as an older one. -/
structure Heap where
  live : Multiset Nat
  requests : Nat
  nodup : live.Nodup
  older : ∀ b ∈ live, b < requests

/-- Nothing is in use, and nothing was requested. -/
def Heap.start : Heap := ⟨0, 0, Multiset.nodup_zero, by simp⟩

/-- How a program goes wrong. -/
inductive Fault where
  /-- It gives back a block that is not in use. -/
  | free
  /-- It reads or stores where there is nothing. -/
  | stray
  deriving DecidableEq, Repr

/-- A program.  It runs with the requests `ok` granted, and it never takes back a
request. -/
structure Mem (α : Type) where
  run : (Nat → Bool) → Heap → Except Fault α × Heap
  later : ∀ ok h, h.requests ≤ (run ok h).2.requests

instance : Monad Mem where
  pure a := ⟨fun _ h => (.ok a, h), fun _ _ => Nat.le_refl _⟩
  bind m f := {
    run := fun ok h =>
      match m.run ok h with
      | (.ok a, h) => (f a).run ok h
      | (.error e, h) => (.error e, h)
    later := by
      intro ok h
      have hfirst := m.later ok h
      split
      · next a h' hrun =>
        rw [hrun] at hfirst
        exact hfirst.trans ((f a).later ok h')
      · next e h' hrun =>
        rw [hrun] at hfirst
        exact hfirst }

/-- A program that goes wrong. -/
def fault {α : Type} (e : Fault) : Mem α :=
  ⟨fun _ h => (.error e, h), fun _ _ => Nat.le_refl _⟩

/-- A request is granted. -/
def Heap.grant (h : Heap) : Heap where
  live := h.requests ::ₘ h.live
  requests := h.requests + 1
  nodup := Multiset.nodup_cons.2
    ⟨fun hmem => Nat.lt_irrefl _ (h.older _ hmem), h.nodup⟩
  older := by
    intro b hb
    rcases Multiset.mem_cons.1 hb with rfl | hb
    · exact Nat.lt_succ_self _
    · exact Nat.lt_succ_of_lt (h.older b hb)

/-- A request is refused. -/
def Heap.refuse (h : Heap) : Heap where
  live := h.live
  requests := h.requests + 1
  nodup := h.nodup
  older := fun b hb => Nat.lt_succ_of_lt (h.older b hb)

/-- A block is given back. -/
def Heap.release (h : Heap) (b : Nat) : Heap where
  live := h.live.erase b
  requests := h.requests
  nodup := h.nodup.erase b
  older := fun c hc => h.older c (Multiset.mem_of_mem_erase hc)

/-- `malloc`: a block, or a null pointer. -/
def malloc : Mem (Option Nat) where
  run ok h :=
    if ok h.requests then (.ok (some h.requests), h.grant)
    else (.ok none, h.refuse)
  later := by
    intro ok h
    split <;> exact Nat.le_succ _

/-- `free`.  A null pointer is ignored. -/
def free : Option Nat → Mem Unit
  | none => pure ()
  | some b => {
    run := fun _ h =>
      if b ∈ h.live then (.ok (), h.release b) else (.error .free, h)
    later := by
      intro ok h
      split <;> exact Nat.le_refl _ }

/-- `realloc`.  The block that it returns is another one, and the old one is gone,
unless the request is refused. -/
def realloc (p : Option Nat) : Mem (Option Nat) := do
  match ← malloc with
  | none => return none
  | some b =>
    free p
    return some b

/-! ## Single runs -/

section Runs

variable {α β : Type} {ok : Nat → Bool} {h h' h'' : Heap}

theorem run_bind {m : Mem α} {a : α} (hm : m.run ok h = (.ok a, h'))
    (f : α → Mem β) : (m >>= f).run ok h = (f a).run ok h' := by
  show (match m.run ok h with
    | (.ok a, h) => (f a).run ok h
    | (.error e, h) => (.error e, h)) = _
  rw [hm]

theorem run_bind_error {m : Mem α} {e : Fault} (hm : m.run ok h = (.error e, h'))
    (f : α → Mem β) : (m >>= f).run ok h = (.error e, h') := by
  show (match m.run ok h with
    | (.ok a, h) => (f a).run ok h
    | (.error e, h) => (.error e, h)) = _
  rw [hm]

theorem run_malloc_granted (hok : ok h.requests = true) :
    malloc.run ok h = (.ok (some h.requests), h.grant) :=
  if_pos hok

theorem run_malloc_refused (hok : ok h.requests = false) :
    malloc.run ok h = (.ok none, h.refuse) :=
  if_neg (by simp [hok])

theorem run_free {b : Nat} (hb : b ∈ h.live) :
    (free (some b)).run ok h = (.ok (), h.release b) :=
  if_pos hb

/-- A new array. -/
theorem run_realloc_granted {p : Option Nat} (hp : p = none)
    (hok : ok h.requests = true) :
    (realloc p).run ok h = (.ok (some h.requests), h.grant) := by
  rw [hp]
  exact run_bind (run_malloc_granted hok) _

/-- A request between the two heaps was refused. -/
def Refused (ok : Nat → Bool) (h h' : Heap) : Prop :=
  ∃ n, h.requests ≤ n ∧ n < h'.requests ∧ ok n = false

theorem Refused.later (hr : Refused ok h h') (hle : h'.requests ≤ h''.requests) :
    Refused ok h h'' := by
  obtain ⟨n, hfrom, hto, hok⟩ := hr
  exact ⟨n, hfrom, Nat.lt_of_lt_of_le hto hle, hok⟩

theorem Refused.earlier (hr : Refused ok h' h'') (hle : h.requests ≤ h'.requests) :
    Refused ok h h'' := by
  obtain ⟨n, hfrom, hto, hok⟩ := hr
  exact ⟨n, Nat.le_trans hle hfrom, hto, hok⟩

/-- What the first program was refused, the whole was refused. -/
theorem Refused.bind {m : Mem α} (f : α → Mem β)
    (hr : Refused ok h (m.run ok h).2) : Refused ok h ((m >>= f).run ok h).2 := by
  rcases hrun : m.run ok h with ⟨e | a, h'⟩
  · rw [hrun] at hr
    rw [run_bind_error hrun]
    exact hr
  · rw [hrun] at hr
    rw [run_bind hrun]
    exact hr.later ((f a).later ok h')

/-- The same for the second program. -/
theorem Refused.behind {m : Mem α} {a : α} {f : α → Mem β}
    (hm : m.run ok h = (.ok a, h')) (hr : Refused ok h' ((f a).run ok h').2) :
    Refused ok h ((m >>= f).run ok h).2 := by
  have hlater := m.later ok h
  rw [hm] at hlater
  rw [run_bind hm]
  exact hr.earlier hlater

end Runs

/-! ## What a program owns -/

/-- The block that a pointer leads to. -/
def blocks (p : Option Nat) : Multiset Nat := p.elim 0 fun b => {b}

@[simp] theorem blocks_none : blocks none = 0 := rfl

@[simp] theorem blocks_some (b : Nat) : blocks (some b) = {b} := rfl

/-- With the blocks `own` in hand the program ends with a value and blocks as in
`Q`, or it goes wrong as in `E`.  Whatever else is in use stays in use.  `R` is what
is known if one of its requests is refused. -/
def Spec {α : Type} (ok : Nat → Bool) (R : Prop) (own : Multiset Nat) (m : Mem α)
    (Q : α → Multiset Nat → Prop) (E : Fault → Prop) : Prop :=
  ∀ (frame : Multiset Nat) (h : Heap), h.live = own + frame →
    (Refused ok h (m.run ok h).2 → R) →
    match m.run ok h with
    | (.ok a, h') => ∃ own', h'.live = own' + frame ∧ Q a own'
    | (.error e, _) => E e

namespace Spec

variable {α β : Type} {ok : Nat → Bool} {R : Prop} {own own' : Multiset Nat}
  {m : Mem α} {Q Q' : α → Multiset Nat → Prop} {E : Fault → Prop}

/-- How a single run ends. -/
theorem cases (hm : Spec ok R own m Q E) {frame : Multiset Nat} {h : Heap}
    (hlive : h.live = own + frame) (hR : Refused ok h (m.run ok h).2 → R) :
    (∃ a h' own', m.run ok h = (.ok a, h') ∧ h'.live = own' + frame ∧ Q a own') ∨
      ∃ e h', m.run ok h = (.error e, h') ∧ E e := by
  have hrun := hm frame h hlive hR
  split at hrun
  · next a h' hrun' =>
    obtain ⟨own', hlive', hown⟩ := hrun
    exact Or.inl ⟨a, h', own', hrun', hlive', hown⟩
  · next e h' hrun' => exact Or.inr ⟨e, h', hrun', hrun⟩

/-- A program that does not go wrong. -/
theorem runs (hm : Spec ok R own m Q fun _ => False) {frame : Multiset Nat}
    {h : Heap} (hlive : h.live = own + frame)
    (hR : Refused ok h (m.run ok h).2 → R) :
    ∃ a h' own', m.run ok h = (.ok a, h') ∧ h'.live = own' + frame ∧ Q a own' := by
  rcases hm.cases hlive hR with hrun | ⟨e, h', -, hfalse⟩
  · exact hrun
  · exact hfalse.elim

theorem pure {a : α} (h : Q a own) : Spec ok R own (Pure.pure a) Q E :=
  fun _ _ hlive _ => ⟨own, hlive, h⟩

theorem fault {e : Fault} (h : E e) :
    Spec ok R own (Blocks.fault e : Mem α) Q E :=
  fun _ _ _ _ => h

/-- One program behind the other. -/
theorem bind {f : α → Mem β} {P : β → Multiset Nat → Prop}
    (hm : Spec ok R own m Q E)
    (hf : ∀ a own', Q a own' → Spec ok R own' (f a) P E) :
    Spec ok R own (m >>= f) P E := by
  intro frame h hlive hR
  have hfirst := hm frame h hlive fun hr => hR (hr.bind f)
  rcases hrun : m.run ok h with ⟨e | a, h'⟩
  · rw [hrun] at hfirst
    rw [run_bind_error hrun]
    exact hfirst
  · rw [hrun] at hfirst
    obtain ⟨own', hlive', hQ⟩ := hfirst
    rw [run_bind hrun]
    exact hf a own' hQ frame h' hlive' fun hr => hR (hr.behind hrun)

theorem of_own (hown : own = own') (hm : Spec ok R own' m Q E) :
    Spec ok R own m Q E := by
  rw [hown]
  exact hm

theorem mono (hm : Spec ok R own m Q E) (hQ : ∀ a own', Q a own' → Q' a own') :
    Spec ok R own m Q' E := by
  intro frame h hlive hR
  have hrun := hm frame h hlive hR
  split at hrun
  · obtain ⟨own', hlive', hown⟩ := hrun
    exact ⟨own', hlive', hQ _ _ hown⟩
  · exact hrun

/-- A program leaves alone what it does not own. -/
theorem frame (hm : Spec ok R own m Q E) (kept : Multiset Nat) :
    Spec ok R (own + kept) m
      (fun a own' => ∃ rest, own' = rest + kept ∧ Q a rest) E := by
  intro frame h hlive hR
  have hrun := hm (kept + frame) h (by rw [hlive, add_assoc]) hR
  split at hrun
  · obtain ⟨own', hlive', hown⟩ := hrun
    exact ⟨own' + kept, by rw [hlive', add_assoc], own', rfl, hown⟩
  · exact hrun

theorem malloc : Spec ok R own Blocks.malloc
    (fun p own' => own' = blocks p + own ∧ (p = none → R)) E := by
  intro frame h hlive hR
  cases hok : ok h.requests with
  | true =>
    rw [run_malloc_granted hok]
    refine ⟨_, ?_, rfl, fun h => by cases h⟩
    show h.requests ::ₘ h.live = {h.requests} + own + frame
    rw [hlive, ← Multiset.singleton_add, add_assoc]
  | false =>
    rw [run_malloc_refused hok] at hR ⊢
    have hrefused : R := hR ⟨h.requests, Nat.le_refl _, Nat.lt_succ_self _, hok⟩
    refine ⟨_, ?_, rfl, fun _ => hrefused⟩
    show h.live = 0 + own + frame
    rw [hlive, zero_add]

theorem free (p : Option Nat) : Spec ok R (blocks p + own) (Blocks.free p)
    (fun _ own' => own' = own) E := by
  cases p with
  | none => exact pure (zero_add own)
  | some b =>
    intro frame h hlive _
    have hlive' : h.live = b ::ₘ (own + frame) := by
      rw [hlive, blocks_some, add_assoc, Multiset.singleton_add]
    have hmem : b ∈ h.live := by
      rw [hlive']
      exact Multiset.mem_cons_self b _
    rw [run_free hmem]
    refine ⟨own, ?_, rfl⟩
    show h.live.erase b = own + frame
    rw [hlive', Multiset.erase_cons_head]

/-- The last block. -/
theorem free_last (p : Option Nat) :
    Spec ok R (blocks p) (Blocks.free p) (fun _ own' => own' = 0) E :=
  of_own (add_zero _).symm (free p)

theorem realloc (p : Option Nat) : Spec ok R (blocks p + own) (Blocks.realloc p)
    (fun q own' => own' = blocks (q <|> p) + own ∧ (q = none → R)) E := by
  refine bind malloc fun q _ hq => ?_
  obtain ⟨rfl, hrefused⟩ := hq
  cases q with
  | none => exact pure ⟨zero_add _, hrefused⟩
  | some b =>
    have hcomm : blocks (some b) + (blocks p + own)
        = blocks p + (blocks (some b) + own) := add_left_comm _ _ _
    rw [hcomm]
    exact bind (free p) fun _ own' hown => pure ⟨hown, fun h => by cases h⟩

/-- A program that keeps out of the way of what the next one needs. -/
theorem bind_frame {f : α → Mem β} {P : β → Multiset Nat → Prop}
    {kept : Multiset Nat} (hm : Spec ok R own m Q E)
    (hf : ∀ a own', Q a own' → Spec ok R (own' + kept) (f a) P E) :
    Spec ok R (own + kept) (m >>= f) P E := by
  refine bind (hm.frame kept) fun a _ hown => ?_
  obtain ⟨own', rfl, hQ⟩ := hown
  exact hf a own' hQ

theorem bind_malloc {f : Option Nat → Mem β} {P : β → Multiset Nat → Prop}
    (hsome : ∀ b, Spec ok R (blocks (some b) + own) (f (some b)) P E)
    (hnone : R → Spec ok R own (f none) P E) :
    Spec ok R own (Blocks.malloc >>= f) P E := by
  refine bind malloc fun p own' hown => ?_
  obtain ⟨rfl, hrefused⟩ := hown
  cases p with
  | none =>
    rw [blocks_none, zero_add]
    exact hnone (hrefused rfl)
  | some b => exact hsome b

theorem bind_free {f : Unit → Mem β} {P : β → Multiset Nat → Prop}
    {p : Option Nat} (hf : Spec ok R own (f ()) P E) :
    Spec ok R (blocks p + own) (Blocks.free p >>= f) P E := by
  refine bind (free p) fun _ own' hown => ?_
  rw [hown]
  exact hf

theorem bind_realloc {f : Option Nat → Mem β} {P : β → Multiset Nat → Prop}
    {p : Option Nat}
    (hsome : ∀ b, Spec ok R (blocks (some b) + own) (f (some b)) P E)
    (hnone : R → Spec ok R (blocks p + own) (f none) P E) :
    Spec ok R (blocks p + own) (Blocks.realloc p >>= f) P E := by
  refine bind (realloc p) fun q own' hown => ?_
  obtain ⟨rfl, hrefused⟩ := hown
  cases q with
  | none => exact hnone (hrefused rfl)
  | some b => exact hsome b

/-- A loop that uses up what it has for each item. -/
theorem forM {l : List α} {f : α → Mem PUnit} {own : α → Multiset Nat}
    (hf : ∀ a ∈ l, Spec ok R (own a) (f a) (fun _ own' => own' = 0) E)
    (rest : Multiset Nat) :
    Spec ok R ((l.map own).sum + rest) (l.forM f)
      (fun _ own' => own' = rest) E := by
  induction l with
  | nil => exact pure (zero_add rest)
  | cons a l ih =>
    rw [List.map_cons, List.sum_cons, add_assoc]
    refine bind ((hf a List.mem_cons_self).frame _) fun _ own' hown => ?_
    obtain ⟨_, rfl, rfl⟩ := hown
    rw [zero_add]
    exact ih fun b hb => hf b (List.mem_cons_of_mem a hb)

end Spec

end Blocks
