import Mathlib.Data.List.Basic
import Mathlib.Data.Fintype.Basic
import Mathlib.Data.Fintype.Defs
import Mathlib.Logic.Function.Basic
import Mathlib.Logic.Relation

/-!
# Calls of many threads, under a lock

Threads make calls on shared data.  A call uses the data in one section, between
taking a lock and giving it back.  Before that it asks, under a second lock, whether
the data is set up, and if it is not, sets it up.

* `Prog` is a program that uses the data step by step.
* `Step` is one step of one thread, in any order of the threads.
* `serial` says that the calls give what they give one after the other, in the order
  in which they took the lock, and `progress` that no thread is stuck.

The log of a state, in which that order is written down, is looked at by no step.
-/

namespace Monitor

/-! ## Programs -/

/-- A program on data `D`, with a lock. -/
inductive Prog (D R : Type*) where
  | ret (r : R)
  | lock (k : Prog D R)
  | unlock (k : Prog D R)
  | read (k : D → Prog D R)
  | write (f : D → D) (k : Prog D R)

namespace Prog

variable {D R S ι : Type*}

/-- What a program does on its own: the data behind it, and its result. -/
def run : Prog D R → D → D × R
  | ret r, d => (d, r)
  | lock k, d => k.run d
  | unlock k, d => k.run d
  | read k, d => (k d).run d
  | write f k, d => k.run (f d)

/-- One program behind the other. -/
def bind (q : R → Prog D S) : Prog D R → Prog D S
  | ret r => q r
  | lock k => lock (k.bind q)
  | unlock k => unlock (k.bind q)
  | read k => read fun d => (k d).bind q
  | write f k => write f (k.bind q)

/-- The lock is held where this is left to do. -/
def held : Prog D R → Bool
  | ret _ | lock _ => false
  | unlock _ | read _ | write _ _ => true

def isLock : Prog D R → Bool
  | lock _ => true
  | _ => false

/-- The data is used between taking the lock and giving it back. -/
def Sections : Prog D R → Prop
  | ret _ => True
  | lock k => k.held = true ∧ k.Sections
  | unlock k => k.held = false ∧ k.Sections
  | read k => ∀ d, (k d).held = true ∧ (k d).Sections
  | write _ k => k.held = true ∧ k.Sections

/-- The rest of a section, behind which there is nothing. -/
def LastSection : Prog D R → Prop
  | ret _ | lock _ => False
  | unlock k => ∃ r, k = ret r
  | read k => ∀ d, (k d).LastSection
  | write _ k => k.LastSection

/-- A program with one section, or with none. -/
def OneSection : Prog D R → Prop
  | ret _ => True
  | lock k => k.LastSection
  | _ => False

/-- A step of the thread `t`: the owner of the lock, the data and the rest. -/
def step (t : ι) (l : Option ι) (d : D) : Prog D R →
    Option (Option ι × D × Prog D R)
  | ret _ => none
  | lock k => if l.isNone then some (some t, d, k) else none
  | unlock k => some (none, d, k)
  | read k => some (l, d, k d)
  | write f k => some (l, f d, k)

theorem run_bind (q : R → Prog D S) (p : Prog D R) (d : D) :
    (p.bind q).run d = (q (p.run d).2).run (p.run d).1 := by
  induction p generalizing d with
  | ret r => rfl
  | lock k ih => exact ih d
  | unlock k ih => exact ih d
  | read k ih => exact ih d d
  | write f k ih => exact ih (f d)

theorem held_bind {q : R → Prog D S} {p : Prog D R}
    (hq : ∀ r, (q r).held = false) : (p.bind q).held = p.held := by
  cases p with
  | ret r => exact hq r
  | _ => rfl

theorem Sections.bind {q : R → Prog D S} {p : Prog D R} (hp : p.Sections)
    (hq : ∀ r, (q r).held = false ∧ (q r).Sections) : (p.bind q).Sections := by
  have hheld := fun p' => @held_bind D R S q p' fun r => (hq r).1
  induction p with
  | ret r => exact (hq r).2
  | lock k ih => exact ⟨(hheld k).trans hp.1, ih hp.2⟩
  | unlock k ih => exact ⟨(hheld k).trans hp.1, ih hp.2⟩
  | read k ih => exact fun d => ⟨(hheld (k d)).trans (hp d).1, ih d (hp d).2⟩
  | write f k ih => exact ⟨(hheld k).trans hp.1, ih hp.2⟩

theorem LastSection.held {p : Prog D R} (h : p.LastSection) : p.held = true := by
  cases p with
  | ret r => exact h.elim
  | lock k => exact h.elim
  | _ => rfl

theorem LastSection.sections {p : Prog D R} (h : p.LastSection) :
    p.Sections := by
  induction p with
  | ret r => trivial
  | lock k => exact h.elim
  | unlock k =>
    obtain ⟨r, rfl⟩ := h
    exact ⟨rfl, trivial⟩
  | read k ih => exact fun d => ⟨(h d).held, ih d (h d)⟩
  | write f k ih => exact ⟨LastSection.held h, ih h⟩

theorem OneSection.sections {p : Prog D R} (h : p.OneSection) :
    p.Sections ∧ p.held = false := by
  cases p with
  | ret r => exact ⟨trivial, rfl⟩
  | lock k => exact ⟨⟨LastSection.held h, LastSection.sections h⟩, rfl⟩
  | unlock k => exact h.elim
  | read k => exact h.elim
  | write f k => exact h.elim

theorem not_isLock_of_held {p : Prog D R} (h : p.held = true) :
    p.isLock = false := by
  cases p with
  | lock k => cases h
  | _ => rfl

/-- A step leads to the same end. -/
theorem run_step {t : ι} {l l' : Option ι} {d d' : D} {p p' : Prog D R}
    (h : p.step t l d = some (l', d', p')) : p'.run d' = p.run d := by
  cases p with
  | ret r => cases h
  | lock k =>
    rw [step] at h
    split_ifs at h
    cases h
    rfl
  | unlock k => cases h; rfl
  | read k => cases h; rfl
  | write f k => cases h; rfl

/-- What a step does with the lock: it is taken, given back or kept. -/
theorem step_lock {t : ι} {l l' : Option ι} {d d' : D} {p p' : Prog D R}
    (hp : p.Sections) (h : p.step t l d = some (l', d', p')) :
    p'.Sections ∧
      ((p.isLock = true ∧ l = none ∧ l' = some t ∧ d' = d ∧ p'.held = true) ∨
        (p.held = true ∧ l' = none ∧ d' = d ∧ p'.held = false) ∨
        (p.held = true ∧ l' = l ∧ p'.held = true)) := by
  cases p with
  | ret r => cases h
  | lock k =>
    rw [step] at h
    split_ifs at h with hl
    cases h
    exact ⟨hp.2, .inl ⟨rfl, Option.isNone_iff_eq_none.1 hl, rfl, rfl, hp.1⟩⟩
  | unlock k =>
    cases h
    exact ⟨hp.2, .inr (.inl ⟨rfl, rfl, rfl, hp.1⟩)⟩
  | read k =>
    cases h
    exact ⟨(hp _).2, .inr (.inr ⟨rfl, rfl, (hp _).1⟩)⟩
  | write f k =>
    cases h
    exact ⟨hp.2, .inr (.inr ⟨rfl, rfl, hp.1⟩)⟩

/-- A step of a program with one section leads into the section, or on in it. -/
theorem step_lastSection {t : ι} {l l' : Option ι} {d d' : D} {p p' : Prog D R}
    (hp : p.OneSection ∨ p.LastSection)
    (h : p.step t l d = some (l', d', p')) :
    p'.LastSection ∨ ∃ r, p' = ret r := by
  cases p with
  | ret r => cases h
  | lock k =>
    rw [step] at h
    split_ifs at h
    cases h
    exact .inl (hp.resolve_right id)
  | unlock k =>
    cases h
    exact .inr (hp.resolve_left id)
  | read k =>
    cases h
    exact .inl (hp.resolve_left id _)
  | write f k =>
    cases h
    exact .inl (hp.resolve_left id)

/-- Only a program that has returned, or waits for the lock, has no step. -/
theorem step_isSome (t : ι) {l : Option ι} (d : D) {p : Prog D R}
    (hret : ∀ r, p ≠ ret r) (hlock : p.isLock = true → l = none) :
    ∃ next, p.step t l d = some next := by
  cases p with
  | ret r => exact absurd rfl (hret r)
  | lock k => exact ⟨_, if_pos (by rw [hlock rfl]; rfl)⟩
  | unlock k => exact ⟨_, rfl⟩
  | read k => exact ⟨_, rfl⟩
  | write f k => exact ⟨_, rfl⟩

end Prog

/-! ## Threads -/

/-- The program that sets the data up, and the calls.  A direct call does not ask
whether the data is set up. -/
structure System (C D R : Type*) where
  setup : Prog D Unit
  direct : C → Bool
  body : C → Prog D R

/-- Each call uses the data in one section. -/
structure System.Proper {C D R : Type*} (M : System C D R) : Prop where
  setup : M.setup.Sections ∧ M.setup.held = false
  body : ∀ c, (M.body c).OneSection

/-- Where a thread is. -/
inductive Phase (C D R : Type*) where
  | idle
  /-- Before taking the second lock. -/
  | wait (c : C)
  /-- Before looking at the flag. -/
  | test (c : C)
  | setup (c : C) (p : Prog D Unit)
  /-- Before setting the flag. -/
  | mark (c : C)
  /-- Before giving the second lock back. -/
  | leave (c : C)
  | body (c : C) (p : Prog D R)

/-- The shared data with its lock, the flag with the second lock, and the threads:
where they are, the calls to come, and the calls that have returned. -/
structure State (ι C D R : Type*) where
  flag : Bool
  data : D
  initLock : Option ι
  lock : Option ι
  phase : ι → Phase C D R
  todo : ι → List C
  returned : ι → List (C × R)
  log : List (ι × C)

/-- Nothing is set up and no call is made. -/
def State.start {ι C D R : Type*} (d : D) (calls : ι → List C) :
    State ι C D R where
  flag := false
  data := d
  initLock := none
  lock := none
  phase _ := .idle
  todo := calls
  returned _ := []
  log := []

section Steps

variable {ι C D R : Type*} [DecidableEq ι] (M : System C D R)

/-- A thread goes on to another place. -/
def State.move (s : State ι C D R) (t : ι) (ph : Phase C D R) : State ι C D R :=
  { s with phase := Function.update s.phase t ph }

/-- A thread comes to the body of its call, which is written down at once if the
body does not take the lock. -/
def State.enter (s : State ι C D R) (t : ι) (c : C) : State ι C D R :=
  { s.move t (.body c (M.body c)) with
    log := s.log ++ if (M.body c).isLock then [] else [(t, c)] }

/-- One step of one thread. -/
inductive Step (s : State ι C D R) : State ι C D R → Prop
  | call (t c cs) (hphase : s.phase t = .idle) (htodo : s.todo t = c :: cs)
      (hdirect : M.direct c = false) :
      Step s { s.move t (.wait c) with todo := Function.update s.todo t cs }
  /-- A direct call is made when some call has returned. -/
  | direct (t c cs) (hphase : s.phase t = .idle) (htodo : s.todo t = c :: cs)
      (hdirect : M.direct c = true) (hopen : ∃ u, s.returned u ≠ []) :
      Step s { s.enter M t c with todo := Function.update s.todo t cs }
  | take (t c) (hphase : s.phase t = .wait c) (hlock : s.initLock = none) :
      Step s { s.move t (.test c) with initLock := some t }
  | skip (t c) (hphase : s.phase t = .test c) (hflag : s.flag = true) :
      Step s (s.move t (.mark c))
  | start (t c) (hphase : s.phase t = .test c) (hflag : s.flag = false) :
      Step s (s.move t (.setup c M.setup))
  | setup (t c p l d p') (hphase : s.phase t = .setup c p)
      (hstep : p.step t s.lock s.data = some (l, d, p')) :
      Step s { s.move t (.setup c p') with lock := l, data := d }
  | finish (t c r) (hphase : s.phase t = .setup c (.ret r)) :
      Step s (s.move t (.mark c))
  | mark (t c) (hphase : s.phase t = .mark c) :
      Step s { s.move t (.leave c) with flag := true }
  | give (t c) (hphase : s.phase t = .leave c) :
      Step s { s.enter M t c with initLock := none }
  | body (t c p l d p') (hphase : s.phase t = .body c p)
      (hstep : p.step t s.lock s.data = some (l, d, p')) :
      Step s { s.move t (.body c p') with
        lock := l
        data := d
        log := s.log ++ if p.isLock then [(t, c)] else [] }
  | returns (t c r) (hphase : s.phase t = .body c (.ret r)) :
      Step s { s.move t .idle with
        returned := Function.update s.returned t (s.returned t ++ [(c, r)]) }

/-- The states that a run can come to. -/
inductive Reachable (d : D) (calls : ι → List C) : State ι C D R → Prop
  | start : Reachable d calls (.start d calls)
  | step {s s'} (h : Reachable d calls s) (hstep : Step M s s') :
      Reachable d calls s'

end Steps

/-! ## Schedules -/

section Schedules

variable {ι C D R : Type*} [DecidableEq ι] [Fintype ι] (M : System C D R)

/-- The next step of a thread, if it has one. -/
def act (s : State ι C D R) (t : ι) : Option (State ι C D R) :=
  match s.phase t with
  | .idle =>
    match s.todo t with
    | [] => none
    | c :: cs =>
      if M.direct c then
        if ∃ u, (s.returned u).isEmpty = false then
          some { s.enter M t c with todo := Function.update s.todo t cs }
        else none
      else some { s.move t (.wait c) with todo := Function.update s.todo t cs }
  | .wait c =>
    if s.initLock.isNone then some { s.move t (.test c) with initLock := some t }
    else none
  | .test c => some (s.move t (if s.flag then .mark c else .setup c M.setup))
  | .setup c (.ret _) => some (s.move t (.mark c))
  | .setup c p => (p.step t s.lock s.data).map fun x =>
      { s.move t (.setup c x.2.2) with lock := x.1, data := x.2.1 }
  | .mark c => some { s.move t (.leave c) with flag := true }
  | .leave c => some { s.enter M t c with initLock := none }
  | .body c (.ret r) => some { s.move t .idle with
      returned := Function.update s.returned t (s.returned t ++ [(c, r)]) }
  | .body c p => (p.step t s.lock s.data).map fun x =>
      { s.move t (.body c x.2.2) with
        lock := x.1
        data := x.2.1
        log := s.log ++ if p.isLock then [(t, c)] else [] }

/-- A run in which the threads of a list are asked for a step in turn. -/
def exec (s : State ι C D R) (ts : List ι) : State ι C D R :=
  ts.foldl (fun s t => (act M s t).getD s) s

variable {M}

theorem act_step {s s' : State ι C D R} {t : ι} (h : act M s t = some s') :
    Step M s s' := by
  unfold act at h
  split at h
  · next hphase =>
    split at h
    · cases h
    · next c cs htodo =>
      split_ifs at h with hdirect hopen
      · cases h
        refine .direct t c cs hphase htodo hdirect ?_
        obtain ⟨u, hu⟩ := hopen
        exact ⟨u, fun hnil => by rw [hnil] at hu; cases hu⟩
      · cases h
        exact .call t c cs hphase htodo (Bool.eq_false_iff.2 hdirect)
  · next c hphase =>
    split_ifs at h with hlock
    cases h
    exact .take t c hphase (Option.isNone_iff_eq_none.1 hlock)
  · next c hphase =>
    cases h
    cases hflag : s.flag with
    | true => exact .skip t c hphase hflag
    | false => exact .start t c hphase hflag
  · next c r hphase =>
    cases h
    exact .finish t c r hphase
  · next c p _ hphase =>
    obtain ⟨⟨l, d, p'⟩, hstep, rfl⟩ := Option.map_eq_some_iff.1 h
    exact .setup t c p l d p' hphase hstep
  · next c hphase =>
    cases h
    exact .mark t c hphase
  · next c hphase =>
    cases h
    exact .give t c hphase
  · next c r hphase =>
    cases h
    exact .returns t c r hphase
  · next c p _ hphase =>
    obtain ⟨⟨l, d, p'⟩, hstep, rfl⟩ := Option.map_eq_some_iff.1 h
    exact .body t c p l d p' hphase hstep

theorem Reachable.exec {d : D} {calls : ι → List C} {s : State ι C D R}
    (h : Reachable M d calls s) (ts : List ι) :
    Reachable M d calls (exec M s ts) := by
  induction ts generalizing s with
  | nil => exact h
  | cons t ts ih =>
    refine ih ?_
    show Reachable M d calls ((act M s t).getD s)
    cases hact : act M s t with
    | none => exact h
    | some s' => exact h.step (act_step hact)

end Schedules

/-! ## One after the other -/

section Serial

variable {ι C D R : Type*}

/-- The data behind some calls. -/
def System.after (M : System C D R) (d : D) : List (ι × C) → D
  | [] => d
  | (_, c) :: l => M.after ((M.body c).run d).1 l

/-- The calls with their results. -/
def System.answers (M : System C D R) (d : D) : List (ι × C) → List (ι × C × R)
  | [] => []
  | (t, c) :: l =>
    (t, c, ((M.body c).run d).2) :: M.answers ((M.body c).run d).1 l

/-- What one thread is answered. -/
def answersOf [DecidableEq ι] (t : ι) (l : List (ι × C × R)) : List (C × R) :=
  (l.filter fun x => x.1 = t).map (·.2)

variable {M : System C D R}

theorem System.after_append (d : D) (l l' : List (ι × C)) :
    M.after d (l ++ l') = M.after (M.after d l) l' := by
  induction l generalizing d with
  | nil => rfl
  | cons x l ih => exact ih _

theorem System.answers_append (d : D) (l l' : List (ι × C)) :
    M.answers d (l ++ l') = M.answers d l ++ M.answers (M.after d l) l' := by
  induction l generalizing d with
  | nil => rfl
  | cons x l ih => exact congrArg (List.cons _) (ih _)

theorem System.mem_answers (d : D) {l : List (ι × C)} {x : ι × C} (hx : x ∈ l) :
    ∃ r, (x.1, x.2, r) ∈ M.answers d l := by
  induction l generalizing d with
  | nil => cases hx
  | cons y l ih =>
    rcases List.mem_cons.1 hx with rfl | hx
    · exact ⟨_, List.mem_cons_self⟩
    · obtain ⟨r, hr⟩ := ih _ hx
      exact ⟨r, List.mem_cons_of_mem _ hr⟩

/-- A body without the lock does not change the data. -/
theorem System.Proper.after_enter (hM : M.Proper) (x : D) (l : List (ι × C))
    (t : ι) (c : C) :
    M.after x (l ++ if (M.body c).isLock then [] else [(t, c)])
      = M.after x l := by
  have hbody := hM.body c
  cases hc : M.body c with
  | ret r =>
    rw [System.after_append]
    show ((M.body c).run (M.after x l)).1 = _
    rw [hc]
    rfl
  | lock k =>
    have hnil : (if (Prog.lock k).isLock then [] else [(t, c)]) = [] := if_pos rfl
    rw [hnil, List.append_nil]
  | unlock k => rw [hc] at hbody; exact hbody.elim
  | read k => rw [hc] at hbody; exact hbody.elim
  | write f k => rw [hc] at hbody; exact hbody.elim

variable [DecidableEq ι]

theorem answersOf_snoc_self (t : ι) (l : List (ι × C × R)) (x : C × R) :
    answersOf t (l ++ [(t, x)]) = answersOf t l ++ [x] := by
  simp [answersOf]

theorem answersOf_snoc_other {t u : ι} (h : u ≠ t) (l : List (ι × C × R))
    (x : C × R) : answersOf u (l ++ [(t, x)]) = answersOf u l := by
  simp [answersOf, h.symm]

end Serial

/-! ## What a place says -/

section Places

variable {ι C D R : Type*}

namespace Phase

/-- The thread has the second lock. -/
def holdsInit : Phase C D R → Bool
  | test _ | setup _ _ | mark _ | leave _ => true
  | _ => false

/-- The thread has the lock. -/
def inside : Phase C D R → Bool
  | setup _ p => p.held
  | body _ p => p.held
  | _ => false

/-- The thread has set the flag. -/
def late : Phase C D R → Bool
  | leave _ | body _ _ => true
  | _ => false

def isSetup : Phase C D R → Bool
  | setup _ _ => true
  | _ => false

/-- The call that is made. -/
def call : Phase C D R → List C
  | idle => []
  | wait c | test c | setup c _ | mark c | leave c | body c _ => [c]

/-- The call with its result, if it is written down and has not returned. -/
def pending (d : D) : Phase C D R → List (C × R)
  | body c p => if p.isLock then [] else [(c, (p.run d).2)]
  | _ => []

/-- The data when it is set up, if this thread does it. -/
def outcome (M : System C D R) (d : D) : Phase C D R → D
  | setup _ p => (p.run d).1
  | mark _ => d
  | _ => (M.setup.run d).1

/-- The data behind the section of the thread. -/
def final (d : D) : Phase C D R → D
  | body _ p => (p.run d).1
  | _ => d

/-- What is left to do comes from the program of the call. -/
def Shaped (M : System C D R) : Phase C D R → Prop
  | setup _ p => p.Sections
  | body c p => p = M.body c ∨ p.LastSection ∨ ∃ r, p = .ret r
  | _ => True

/-- The result of a thread without the lock does not depend on the data. -/
theorem pending_congr {ph : Phase C D R} (h : ph.inside = false) (d d' : D) :
    ph.pending d = ph.pending d' := by
  cases ph with
  | body c p =>
    cases p with
    | ret r => rfl
    | lock k => rfl
    | unlock k => cases h
    | read k => cases h
    | write f k => cases h
  | _ => rfl

theorem pending_of_not_late {ph : Phase C D R} (h : ph.late = false) (d : D) :
    ph.pending d = [] := by
  cases ph with
  | body c p => cases h
  | _ => rfl

end Phase

/-- The owner of a lock is the thread that is at one of these places. -/
def Owns (l : Option ι) (f : Phase C D R → Bool) (phase : ι → Phase C D R) :
    Prop :=
  ∀ t, l = some t ↔ f (phase t) = true

variable [DecidableEq ι] {l : Option ι} {f : Phase C D R → Bool}
  {phase : ι → Phase C D R} {t : ι} {ph : Phase C D R}

theorem forall_update {P : ι → Phase C D R → Prop} (ht : P t ph)
    (h : ∀ u, u ≠ t → P u (phase u)) (u : ι) :
    P u (Function.update phase t ph u) := by
  by_cases hu : u = t
  · subst hu
    rwa [Function.update_self]
  · rw [Function.update_of_ne hu]
    exact h u hu

theorem Owns.keep (h : Owns l f phase) (hph : f ph = f (phase t)) :
    Owns l f (Function.update phase t ph) :=
  forall_update (P := fun u ph => l = some u ↔ f ph = true)
    (by rw [hph]; exact h t) fun u _ => h u

theorem Owns.take (h : Owns none f phase) (hph : f ph = true) :
    Owns (some t) f (Function.update phase t ph) := by
  refine forall_update (P := fun u ph => some t = some u ↔ f ph = true)
    ⟨fun _ => hph, fun _ => rfl⟩ fun u hu => ?_
  exact ⟨fun heq => absurd (Option.some.inj heq).symm hu,
    fun hown => absurd ((h u).2 hown) (by simp)⟩

theorem Owns.give (h : Owns l f phase) (ht : f (phase t) = true)
    (hph : f ph = false) : Owns none f (Function.update phase t ph) := by
  refine forall_update (P := fun u ph => none = some u ↔ f ph = true)
    ⟨fun heq => by simp at heq, fun hown => by simp [hph] at hown⟩
    fun u hu => ⟨fun heq => by simp at heq, fun hown => ?_⟩
  have heq := ((h t).2 ht).symm.trans ((h u).2 hown)
  exact absurd (Option.some.inj heq).symm hu

end Places

/-! ## The invariant -/

section Invariant

variable {ι C D R : Type*}

/-- As long as the flag is not set, no call has used the data, and the data will be
set up as if nothing had happened. -/
structure Early (M : System C D R) (d : D) (s : State ι C D R) : Prop where
  log : s.log = []
  late : ∀ t, (s.phase t).late = false
  free : s.initLock = none → (M.setup.run s.data).1 = (M.setup.run d).1
  taken : ∀ t, s.initLock = some t →
    (s.phase t).outcome M s.data = (M.setup.run d).1

/-- Behind the flag nobody sets the data up, and with the section that is open at an
end the data is what the log makes of it. -/
structure Late (M : System C D R) (d : D) (s : State ι C D R) : Prop where
  setup : ∀ t, (s.phase t).isSetup = false
  free : s.lock = none → s.data = M.after (M.setup.run d).1 s.log
  taken : ∀ t, s.lock = some t →
    (s.phase t).final s.data = M.after (M.setup.run d).1 s.log

/-- What holds in every state of a run. -/
structure Inv [DecidableEq ι] (M : System C D R) (d : D) (calls : ι → List C)
    (s : State ι C D R) : Prop where
  initLock : Owns s.initLock Phase.holdsInit s.phase
  lock : Owns s.lock Phase.inside s.phase
  shaped : ∀ t, (s.phase t).Shaped M
  calls : ∀ t, (s.returned t).map Prod.fst ++ (s.phase t).call ++ s.todo t
    = calls t
  answers : ∀ t, answersOf t (M.answers (M.setup.run d).1 s.log)
    = s.returned t ++ (s.phase t).pending s.data
  early : s.flag = false → Early M d s
  late : s.flag = true → Late M d s

variable [DecidableEq ι] {M : System C D R} {d : D} {calls : ι → List C}
  {s : State ι C D R}

theorem inv_start : Inv M d calls (.start d calls) where
  initLock t := by simp [State.start, Phase.holdsInit]
  lock t := by simp [State.start, Phase.inside]
  shaped _ := trivial
  calls _ := rfl
  answers _ := rfl
  early _ := ⟨rfl, fun _ => rfl, fun _ => rfl, fun t ht => by simp [State.start] at ht⟩
  late h := by simp [State.start] at h

theorem Early.move (h : Early M d s) {t : ι} {q : Phase C D R}
    (hlate : q.late = false)
    (hsame : s.initLock = some t →
      q.outcome M s.data = (s.phase t).outcome M s.data) :
    Early M d (s.move t q) where
  log := h.log
  late := forall_update (P := fun _ ph => ph.late = false) hlate
    fun u _ => h.late u
  free := h.free
  taken := forall_update
    (P := fun u ph => s.initLock = some u → ph.outcome M s.data = _)
    (fun ht => (hsame ht).trans (h.taken t ht)) fun u _ => h.taken u

theorem Late.move (h : Late M d s) {t : ι} {q : Phase C D R}
    (hsetup : q.isSetup = false)
    (hsame : s.lock = some t → q.final s.data = (s.phase t).final s.data) :
    Late M d (s.move t q) where
  setup := forall_update (P := fun _ ph => ph.isSetup = false) hsetup
    fun u _ => h.setup u
  free := h.free
  taken := forall_update
    (P := fun u ph => s.lock = some u → ph.final s.data = _)
    (fun ht => (hsame ht).trans (h.taken t ht)) fun u _ => h.taken u

namespace Inv

variable (h : Inv M d calls s) {t : ι} {c : C}

include h

/-- A thread without the lock is not its owner. -/
theorem not_owner (hinside : (s.phase t).inside = false) : s.lock ≠ some t := by
  intro ht
  have hown := (h.lock t).1 ht
  rw [hinside] at hown
  cases hown

theorem flag_of_late (hlate : (s.phase t).late = true) : s.flag = true := by
  cases hflag : s.flag with
  | true => rfl
  | false =>
    have hnot := (h.early hflag).late t
    rw [hlate] at hnot
    cases hnot

section Move

variable {ph : Phase C D R}

theorem shaped_move (hshaped : ph.Shaped M) (u : ι) :
    (Function.update s.phase t ph u).Shaped M :=
  forall_update (P := fun _ ph => ph.Shaped M) hshaped (fun u _ => h.shaped u) u

theorem calls_move (hcall : ph.call = (s.phase t).call) (u : ι) :
    (s.returned u).map Prod.fst ++ (Function.update s.phase t ph u).call
      ++ s.todo u = calls u :=
  forall_update (P := fun u ph => (s.returned u).map Prod.fst ++ ph.call
    ++ s.todo u = calls u) (by rw [hcall]; exact h.calls t)
    (fun u _ => h.calls u) u

theorem answers_move (hpending : ph.pending s.data = (s.phase t).pending s.data)
    (u : ι) : answersOf u (M.answers (M.setup.run d).1 s.log)
      = s.returned u ++ (Function.update s.phase t ph u).pending s.data :=
  forall_update (P := fun u ph => answersOf u (M.answers (M.setup.run d).1 s.log)
    = s.returned u ++ ph.pending s.data) (by rw [hpending]; exact h.answers t)
    (fun u _ => h.answers u) u

/-- A move that is seen by no other thread. -/
theorem move (hinit : ph.holdsInit = (s.phase t).holdsInit)
    (hinside : ph.inside = (s.phase t).inside) (hshaped : ph.Shaped M)
    (hcall : ph.call = (s.phase t).call)
    (hpending : ph.pending s.data = (s.phase t).pending s.data)
    (hearly : s.flag = false → Early M d (s.move t ph))
    (hlate : s.flag = true → Late M d (s.move t ph)) :
    Inv M d calls (s.move t ph) :=
  ⟨h.initLock.keep hinit, h.lock.keep hinside, h.shaped_move hshaped,
    h.calls_move hcall, h.answers_move hpending, hearly, hlate⟩

end Move

/-! ### The steps without the lock -/

theorem call {cs : List C} (hphase : s.phase t = .idle)
    (htodo : s.todo t = c :: cs) :
    Inv M d calls
      { s.move t (.wait c) with todo := Function.update s.todo t cs } := by
  refine ⟨h.initLock.keep (by rw [hphase]; rfl), h.lock.keep (by rw [hphase]; rfl),
    h.shaped_move trivial, fun u => ?_, h.answers_move (by rw [hphase]; rfl),
    fun hflag => ?_, fun hflag => ?_⟩
  · have hcalls := h.calls u
    by_cases hu : u = t
    · subst hu
      rw [hphase, htodo] at hcalls
      simpa [State.move, Phase.call] using hcalls
    · simpa [State.move, hu] using hcalls
  · obtain ⟨hlog, hbefore, hfree, htaken⟩ := (h.early hflag).move (t := t)
      (q := .wait c) rfl (fun _ => by rw [hphase]; rfl)
    exact ⟨hlog, hbefore, hfree, htaken⟩
  · obtain ⟨hsetup, hfree, htaken⟩ := (h.late hflag).move (t := t)
      (q := .wait c) rfl (fun _ => by rw [hphase]; rfl)
    exact ⟨hsetup, hfree, htaken⟩

theorem take (hphase : s.phase t = .wait c) (hlock : s.initLock = none) :
    Inv M d calls { s.move t (.test c) with initLock := some t } := by
  have hinit := h.initLock
  rw [hlock] at hinit
  refine ⟨hinit.take rfl, h.lock.keep (by rw [hphase]; rfl),
    h.shaped_move trivial, h.calls_move (by rw [hphase]; rfl),
    h.answers_move (by rw [hphase]; rfl), fun hflag => ?_, fun hflag => ?_⟩
  · have hearly := h.early hflag
    have hfree := hearly.free hlock
    refine ⟨hearly.log, forall_update (P := fun _ ph => ph.late = false) rfl
      fun u _ => hearly.late u, fun hnone => by simp at hnone, fun u hu => ?_⟩
    obtain rfl := Option.some.inj hu
    show (Function.update s.phase t (.test c) t).outcome M s.data = _
    rw [Function.update_self]
    exact hfree
  · obtain ⟨hsetup, hfree, htaken⟩ := (h.late hflag).move (t := t)
      (q := .test c) rfl (fun _ => by rw [hphase]; rfl)
    exact ⟨hsetup, hfree, htaken⟩

theorem skip (hphase : s.phase t = .test c) (hflag : s.flag = true) :
    Inv M d calls (s.move t (.mark c)) := by
  refine h.move (by rw [hphase]; rfl) (by rw [hphase]; rfl) trivial
    (by rw [hphase]; rfl) (by rw [hphase]; rfl) (fun hnot => ?_) fun _ => ?_
  · rw [hflag] at hnot
    cases hnot
  · exact (h.late hflag).move rfl fun _ => by rw [hphase]; rfl

theorem start (hM : M.Proper) (hphase : s.phase t = .test c)
    (hflag : s.flag = false) : Inv M d calls (s.move t (.setup c M.setup)) := by
  refine h.move (by rw [hphase]; rfl) ?_ hM.setup.1 (by rw [hphase]; rfl)
    (by rw [hphase]; rfl) (fun _ => ?_) fun hset => ?_
  · rw [hphase]
    exact hM.setup.2
  · exact (h.early hflag).move rfl fun _ => by rw [hphase]; rfl
  · rw [hflag] at hset
    cases hset

theorem finish {r : Unit} (hphase : s.phase t = .setup c (.ret r)) :
    Inv M d calls (s.move t (.mark c)) := by
  refine h.move (by rw [hphase]; rfl) (by rw [hphase]; rfl) trivial
    (by rw [hphase]; rfl) (by rw [hphase]; rfl) (fun hflag => ?_) fun hflag => ?_
  · exact (h.early hflag).move rfl fun _ => by rw [hphase]; rfl
  · have hnot := (h.late hflag).setup t
    rw [hphase] at hnot
    cases hnot

/-- The flag is set when the data is. -/
theorem mark (hphase : s.phase t = .mark c) :
    Inv M d calls { s.move t (.leave c) with flag := true } := by
  refine ⟨h.initLock.keep (by rw [hphase]; rfl), h.lock.keep (by rw [hphase]; rfl),
    h.shaped_move trivial, h.calls_move (by rw [hphase]; rfl),
    h.answers_move (by rw [hphase]; rfl), (fun hnot => by cases hnot),
    fun _ => ?_⟩
  cases hflag : s.flag with
  | true =>
    obtain ⟨hsetup, hfree, htaken⟩ := (h.late hflag).move (t := t)
      (q := .leave c) rfl (fun _ => by rw [hphase]; rfl)
    exact ⟨hsetup, hfree, htaken⟩
  | false =>
    have hearly := h.early hflag
    have hinit : s.initLock = some t := (h.initLock t).2 (by rw [hphase]; rfl)
    have hdata : s.data = M.after (M.setup.run d).1 s.log := by
      have htaken := hearly.taken t hinit
      rw [hphase] at htaken
      rw [hearly.log]
      exact htaken
    -- Who sets the data up has the second lock, and that is this thread.
    have hsetup : ∀ u, (s.phase u).isSetup = false := by
      intro u
      cases hu : s.phase u with
      | setup c' p =>
        have hown := (h.initLock u).2 (by rw [hu]; rfl)
        obtain rfl := Option.some.inj (hinit.symm.trans hown)
        rw [hphase] at hu
        cases hu
      | _ => rfl
    refine ⟨forall_update (P := fun _ ph => ph.isSetup = false) rfl
      fun u _ => hsetup u, fun _ => hdata, fun u hu => ?_⟩
    have hinside := (h.lock u).1 hu
    have hlate := hearly.late u
    have hnot := hsetup u
    cases hphaseu : s.phase u with
    | setup c' p => rw [hphaseu] at hnot; cases hnot
    | body c' p => rw [hphaseu] at hlate; cases hlate
    | _ => rw [hphaseu] at hinside; cases hinside

/-! ### The steps with the lock -/

/-- The owner of the lock after a step of a program. -/
theorem owns_step {p p' : Prog D R'} {l : Option ι} {d' : D} {q : Phase C D R}
    (hp : p.Sections) (hinside : (s.phase t).inside = p.held)
    (hinside' : q.inside = p'.held)
    (hstep : p.step t s.lock s.data = some (l, d', p')) :
    Owns l Phase.inside (Function.update s.phase t q) := by
  obtain ⟨-, ⟨-, hnone, rfl, -, hheld⟩ | ⟨hheld, rfl, -, hfree⟩ |
    ⟨hheld, rfl, hheld'⟩⟩ := Prog.step_lock hp hstep
  · have hlock := h.lock
    rw [hnone] at hlock
    exact hlock.take (hinside'.trans hheld)
  · exact h.lock.give (hinside.trans hheld) (hinside'.trans hfree)
  · exact h.lock.keep (by rw [hinside, hinside', hheld, hheld'])

theorem setup {p p' : Prog D Unit} {l : Option ι} {d' : D}
    (hphase : s.phase t = .setup c p)
    (hstep : p.step t s.lock s.data = some (l, d', p')) :
    Inv M d calls { s.move t (.setup c p') with lock := l, data := d' } := by
  have hp : p.Sections := by
    have hshaped := h.shaped t
    rw [hphase] at hshaped
    exact hshaped
  have hinit : s.initLock = some t := (h.initLock t).2 (by rw [hphase]; rfl)
  refine ⟨h.initLock.keep (by rw [hphase]; rfl),
    h.owns_step hp (by rw [hphase]; rfl) rfl hstep,
    h.shaped_move (Prog.step_lock hp hstep).1, h.calls_move (by rw [hphase]; rfl),
    ?_, fun hflag => ?_, fun hflag => ?_⟩
  · have hflag : s.flag = false := by
      cases hflag : s.flag with
      | false => rfl
      | true =>
        have hnot := (h.late hflag).setup t
        rw [hphase] at hnot
        cases hnot
    refine forall_update
      (P := fun u ph => answersOf u (M.answers (M.setup.run d).1 s.log)
        = s.returned u ++ ph.pending d') ?_ fun u _ => ?_
    · have hanswers := h.answers t
      rw [hphase] at hanswers
      exact hanswers
    · have hlate := (h.early hflag).late u
      rw [h.answers u, Phase.pending_of_not_late hlate,
        Phase.pending_of_not_late hlate]
  · have hearly := h.early hflag
    refine ⟨hearly.log, forall_update (P := fun _ ph => ph.late = false) rfl
      fun u _ => hearly.late u, fun hnone => ?_, fun u hu => ?_⟩
    · have hnot : (none : Option ι) = some t := hnone.symm.trans hinit
      cases hnot
    · obtain rfl : t = u := Option.some.inj (hinit.symm.trans hu)
      have htaken := hearly.taken t hinit
      rw [hphase] at htaken
      show (Function.update s.phase t (.setup c p') t).outcome M d' = _
      rw [Function.update_self]
      exact (congrArg Prod.fst (Prog.run_step hstep)).trans htaken
  · have hnot := (h.late hflag).setup t
    rw [hphase] at hnot
    cases hnot

theorem answers_enter (hM : M.Proper)
    (hpending : (s.phase t).pending s.data = []) (u : ι) :
    answersOf u (M.answers (M.setup.run d).1 (s.enter M t c).log)
      = s.returned u ++ ((s.enter M t c).phase u).pending s.data := by
  refine forall_update (P := fun u ph =>
    answersOf u (M.answers (M.setup.run d).1 (s.enter M t c).log)
      = s.returned u ++ ph.pending s.data) ?_ (fun u hu => ?_) u
  · have hanswers := h.answers t
    rw [hpending, List.append_nil] at hanswers
    have hbody := hM.body c
    cases hc : M.body c with
    | ret r =>
      have hlog : (s.enter M t c).log = s.log ++ [(t, c)] := by
        simp [State.enter, hc, Prog.isLock]
      rw [hlog, System.answers_append]
      simp only [System.answers, hc, Prog.run]
      rw [answersOf_snoc_self, hanswers]
      rfl
    | lock k =>
      have hlog : (s.enter M t c).log = s.log := by
        simp [State.enter, hc, Prog.isLock]
      rw [hlog, hanswers]
      simp [Phase.pending, Prog.isLock]
    | unlock k => rw [hc] at hbody; exact hbody.elim
    | read k => rw [hc] at hbody; exact hbody.elim
    | write f k => rw [hc] at hbody; exact hbody.elim
  · rw [← h.answers u, State.enter]
    dsimp only
    split_ifs
    · rw [List.append_nil]
    · rw [System.answers_append]
      exact answersOf_snoc_other hu _ _

theorem late_enter (hM : M.Proper) (hflag : s.flag = true)
    (hinside : (s.phase t).inside = false) : Late M d (s.enter M t c) := by
  obtain ⟨hsetup, hfree, htaken⟩ := (h.late hflag).move (t := t)
    (q := .body c (M.body c)) rfl (fun ht => absurd ht (h.not_owner hinside))
  refine ⟨hsetup, fun hnone => ?_, fun u hu => ?_⟩
  · exact (hfree hnone).trans (hM.after_enter _ _ t c).symm
  · exact (htaken u hu).trans (hM.after_enter _ _ t c).symm

theorem give (hM : M.Proper) (hphase : s.phase t = .leave c) :
    Inv M d calls { s.enter M t c with initLock := none } := by
  have hflag := h.flag_of_late (by rw [hphase]; rfl : (s.phase t).late = true)
  have hinside : (s.phase t).inside = false := by rw [hphase]; rfl
  refine ⟨h.initLock.give (by rw [hphase]; rfl) rfl,
    h.lock.keep ((hM.body c).sections.2.trans hinside.symm),
    h.shaped_move (.inl rfl), h.calls_move (by rw [hphase]; rfl),
    h.answers_enter hM (by rw [hphase]; rfl), fun hnot => ?_, fun _ => ?_⟩
  · exact absurd (hflag.symm.trans hnot) (by simp)
  · obtain ⟨hsetup, hfree, htaken⟩ := h.late_enter (c := c) hM hflag hinside
    exact ⟨hsetup, hfree, htaken⟩

theorem direct (hM : M.Proper) {cs : List C} (hphase : s.phase t = .idle)
    (htodo : s.todo t = c :: cs) (hopen : ∃ u, s.returned u ≠ []) :
    Inv M d calls
      { s.enter M t c with todo := Function.update s.todo t cs } := by
  have hinside : (s.phase t).inside = false := by rw [hphase]; rfl
  have hflag : s.flag = true := by
    cases hflag : s.flag with
    | true => rfl
    | false =>
      obtain ⟨u, hu⟩ := hopen
      have hanswers := h.answers u
      rw [(h.early hflag).log] at hanswers
      exact absurd (List.append_eq_nil_iff.1 hanswers.symm).1 hu
  refine ⟨h.initLock.keep (by rw [hphase]; rfl),
    h.lock.keep ((hM.body c).sections.2.trans hinside.symm),
    h.shaped_move (.inl rfl), fun u => ?_,
    h.answers_enter hM (by rw [hphase]; rfl), fun hnot => ?_, fun _ => ?_⟩
  · have hcalls := h.calls u
    by_cases hu : u = t
    · subst hu
      rw [hphase, htodo] at hcalls
      simpa [State.enter, State.move, Phase.call] using hcalls
    · simpa [State.enter, State.move, hu] using hcalls
  · exact absurd (hflag.symm.trans hnot) (by simp)
  · obtain ⟨hsetup, hfree, htaken⟩ := h.late_enter (c := c) hM hflag hinside
    exact ⟨hsetup, hfree, htaken⟩

theorem returns {r : R} (hphase : s.phase t = .body c (.ret r)) :
    Inv M d calls { s.move t .idle with
      returned := Function.update s.returned t (s.returned t ++ [(c, r)]) } := by
  have hinside : (s.phase t).inside = false := by rw [hphase]; rfl
  have hflag := h.flag_of_late (by rw [hphase]; rfl : (s.phase t).late = true)
  refine ⟨h.initLock.keep (by rw [hphase]; rfl), h.lock.keep hinside.symm,
    h.shaped_move trivial, fun u => ?_, fun u => ?_, fun hnot => ?_, fun _ => ?_⟩
  · have hcalls := h.calls u
    by_cases hu : u = t
    · subst hu
      rw [hphase] at hcalls
      simpa [State.move, Phase.call] using hcalls
    · simpa [State.move, hu] using hcalls
  · have hanswers := h.answers u
    by_cases hu : u = t
    · subst hu
      rw [hphase] at hanswers
      simpa [State.move, Phase.pending, Prog.isLock, Prog.run] using hanswers
    · simpa [State.move, hu] using hanswers
  · exact absurd (hflag.symm.trans hnot) (by simp)
  · obtain ⟨hsetup, hfree, htaken⟩ := (h.late hflag).move (t := t)
      (q := .idle) rfl (fun ht => absurd ht (h.not_owner hinside))
    exact ⟨hsetup, hfree, htaken⟩

section Body

variable {p p' : Prog D R} {l : Option ι} {d' : D}

/-- A body that goes on has a section, and before the lock nothing of it is done. -/
theorem body_shape (hM : M.Proper) (hphase : s.phase t = .body c p)
    (hstep : p.step t s.lock s.data = some (l, d', p')) :
    (p.OneSection ∨ p.LastSection) ∧ (p.isLock = true → p = M.body c) := by
  have hshaped := h.shaped t
  rw [hphase] at hshaped
  rcases hshaped with rfl | hlast | ⟨r, rfl⟩
  · exact ⟨.inl (hM.body c), fun _ => rfl⟩
  · refine ⟨.inr hlast, fun hlock => ?_⟩
    rw [Prog.not_isLock_of_held hlast.held] at hlock
    cases hlock
  · cases hstep

theorem answers_body (hM : M.Proper) (hphase : s.phase t = .body c p)
    (hstep : p.step t s.lock s.data = some (l, d', p')) (u : ι) :
    answersOf u (M.answers (M.setup.run d).1
        (s.log ++ if p.isLock then [(t, c)] else []))
      = s.returned u ++ (Function.update s.phase t (.body c p') u).pending d' := by
  obtain ⟨hp, hstart⟩ := h.body_shape hM hphase hstep
  have hsections : p.Sections := hp.elim (fun h => h.sections.1) (·.sections)
  have hflag := h.flag_of_late (by rw [hphase]; rfl : (s.phase t).late = true)
  have hafter : p'.isLock = false := by
    rcases Prog.step_lastSection hp hstep with hlast | ⟨r, rfl⟩
    · exact Prog.not_isLock_of_held hlast.held
    · rfl
  have hresult := congrArg Prod.snd (Prog.run_step hstep)
  have hanswers := h.answers t
  rw [hphase] at hanswers
  refine forall_update (P := fun u ph => answersOf u (M.answers
    (M.setup.run d).1 (s.log ++ if p.isLock then [(t, c)] else []))
      = s.returned u ++ ph.pending d') ?_ (fun u hu => ?_) u
  · rw [Phase.pending, if_neg (show ¬ p'.isLock = true by simp [hafter]), hresult]
    cases hlock : p.isLock with
    | true =>
      obtain ⟨-, ⟨-, hnone, -⟩ | ⟨hheld, -⟩ | ⟨hheld, -⟩⟩ :=
        Prog.step_lock hsections hstep
      · have hdata := (h.late hflag).free hnone
        rw [Phase.pending, if_pos hlock, List.append_nil] at hanswers
        rw [if_pos rfl, System.answers_append]
        simp only [System.answers]
        rw [answersOf_snoc_self, hanswers, ← hdata, hstart hlock]
      · rw [Prog.not_isLock_of_held hheld] at hlock
        cases hlock
      · rw [Prog.not_isLock_of_held hheld] at hlock
        cases hlock
    | false =>
      rw [Phase.pending, if_neg (by simp [hlock])] at hanswers
      rw [if_neg (by simp), List.append_nil, hanswers]
  · have hsame : (s.phase u).pending s.data = (s.phase u).pending d' := by
      obtain ⟨-, ⟨-, -, -, rfl, -⟩ | ⟨-, -, rfl, -⟩ | ⟨hheld, -⟩⟩ :=
        Prog.step_lock hsections hstep
      · rfl
      · rfl
      · refine Phase.pending_congr ?_ _ _
        cases hinside : (s.phase u).inside with
        | false => rfl
        | true =>
          have hown := (h.lock u).2 hinside
          rw [(h.lock t).2 (by rw [hphase]; exact hheld)] at hown
          exact absurd (Option.some.inj hown).symm hu
    rw [← hsame, ← h.answers u]
    split_ifs
    · rw [System.answers_append]
      exact answersOf_snoc_other hu _ _
    · rw [List.append_nil]

theorem late_body (hM : M.Proper) (hphase : s.phase t = .body c p)
    (hstep : p.step t s.lock s.data = some (l, d', p')) :
    Late M d { s.move t (.body c p') with
      lock := l
      data := d'
      log := s.log ++ if p.isLock then [(t, c)] else [] } := by
  obtain ⟨hp, hstart⟩ := h.body_shape hM hphase hstep
  have hsections : p.Sections := hp.elim (fun h => h.sections.1) (·.sections)
  have hflag := h.flag_of_late (by rw [hphase]; rfl : (s.phase t).late = true)
  have hlate := h.late hflag
  have hrun := congrArg Prod.fst (Prog.run_step hstep)
  -- The data behind the section of the thread is what the log says now.
  have hend : (p'.run d').1 = M.after (M.setup.run d).1
      (s.log ++ if p.isLock then [(t, c)] else []) := by
    rw [hrun]
    cases hlock : p.isLock with
    | true =>
      obtain ⟨-, ⟨-, hnone, -⟩ | ⟨hheld, -⟩ | ⟨hheld, -⟩⟩ :=
        Prog.step_lock hsections hstep
      · rw [if_pos rfl, System.after_append, ← hlate.free hnone, hstart hlock]
        rfl
      · rw [Prog.not_isLock_of_held hheld] at hlock
        cases hlock
      · rw [Prog.not_isLock_of_held hheld] at hlock
        cases hlock
    | false =>
      have hheld : p.held = true := by
        obtain ⟨-, ⟨hlock', -⟩ | ⟨hheld, -⟩ | ⟨hheld, -⟩⟩ :=
          Prog.step_lock hsections hstep
        · rw [hlock] at hlock'
          cases hlock'
        · exact hheld
        · exact hheld
      have htaken := hlate.taken t ((h.lock t).2 (by rw [hphase]; exact hheld))
      rw [hphase] at htaken
      rw [if_neg (by simp), List.append_nil]
      exact htaken
  have howns := h.owns_step (q := .body c p') hsections (by rw [hphase]; rfl)
    rfl hstep
  refine ⟨forall_update (P := fun _ ph => ph.isSetup = false) rfl
    fun u _ => hlate.setup u, fun hnone => ?_, ?_⟩
  · have hret : ∃ r, p' = .ret r := by
      refine (Prog.step_lastSection hp hstep).resolve_left fun hlast => ?_
      have hown := (howns t).2 (by rw [Function.update_self]; exact hlast.held)
      exact absurd (hnone.symm.trans hown) (by simp)
    obtain ⟨r, rfl⟩ := hret
    exact hend
  · refine forall_update (P := fun u ph => l = some u → ph.final d' = _)
      (fun _ => hend) fun u hu hown => ?_
    -- No other thread has the lock behind a step with it.
    have hinside := (howns u).1 hown
    rw [Function.update_of_ne hu] at hinside
    have hown' := (h.lock u).2 hinside
    obtain ⟨-, ⟨-, hnone, -⟩ | ⟨hheld, -⟩ | ⟨hheld, -⟩⟩ :=
      Prog.step_lock hsections hstep
    · exact absurd (hnone.symm.trans hown') (by simp)
    · rw [(h.lock t).2 (by rw [hphase]; exact hheld)] at hown'
      exact absurd (Option.some.inj hown').symm hu
    · rw [(h.lock t).2 (by rw [hphase]; exact hheld)] at hown'
      exact absurd (Option.some.inj hown').symm hu

theorem body (hM : M.Proper) (hphase : s.phase t = .body c p)
    (hstep : p.step t s.lock s.data = some (l, d', p')) :
    Inv M d calls { s.move t (.body c p') with
      lock := l
      data := d'
      log := s.log ++ if p.isLock then [(t, c)] else [] } := by
  obtain ⟨hp, -⟩ := h.body_shape hM hphase hstep
  have hsections : p.Sections := hp.elim (fun h => h.sections.1) (·.sections)
  have hflag := h.flag_of_late (by rw [hphase]; rfl : (s.phase t).late = true)
  refine ⟨h.initLock.keep (by rw [hphase]; rfl),
    h.owns_step hsections (by rw [hphase]; rfl) rfl hstep,
    h.shaped_move (.inr (Prog.step_lastSection hp hstep)),
    h.calls_move (by rw [hphase]; rfl), h.answers_body hM hphase hstep,
    fun hnot => ?_, fun _ => h.late_body hM hphase hstep⟩
  exact absurd (hflag.symm.trans hnot) (by simp)

end Body

/-- Each step keeps the invariant. -/
theorem step (hM : M.Proper) {s' : State ι C D R} (hstep : Step M s s') :
    Inv M d calls s' := by
  cases hstep with
  | call t c cs hphase htodo _ => exact h.call hphase htodo
  | direct t c cs hphase htodo _ hopen => exact h.direct hM hphase htodo hopen
  | take t c hphase hlock => exact h.take hphase hlock
  | skip t c hphase hflag => exact h.skip hphase hflag
  | start t c hphase hflag => exact h.start hM hphase hflag
  | setup t c p l d p' hphase hstep => exact h.setup hphase hstep
  | finish t c r hphase => exact h.finish hphase
  | mark t c hphase => exact h.mark hphase
  | give t c hphase => exact h.give hM hphase
  | body t c p l d p' hphase hstep => exact h.body hM hphase hstep
  | returns t c r hphase => exact h.returns hphase

end Inv

theorem Reachable.inv (hM : M.Proper) (h : Reachable M d calls s) :
    Inv M d calls s := by
  induction h with
  | start => exact inv_start
  | step _ hstep ih => exact ih.step hM hstep

/-! ## What every run is like -/

/-- What the calls have returned is what they give one after the other, in the order
of the log, on data that is set up.  When no call is made any more, this is all that
has happened. -/
structure Serial (M : System C D R) (d : D) (calls : ι → List C)
    (s : State ι C D R) : Prop where
  returned : ∀ t, s.returned t
    <+: answersOf t (M.answers (M.setup.run d).1 s.log)
  made : ∀ x ∈ s.log, x.2 ∈ calls x.1
  inOrder : ∀ t, (s.returned t).map Prod.fst <+: calls t
  quiet : (∀ t, s.phase t = .idle) →
    (∀ t, s.returned t = answersOf t (M.answers (M.setup.run d).1 s.log)) ∧
      (s.log ≠ [] → s.data = M.after (M.setup.run d).1 s.log)

/-- What is written down was called for. -/
theorem Inv.made (h : Inv M d calls s) {x : ι × C} (hx : x ∈ s.log) :
    x.2 ∈ calls x.1 := by
  obtain ⟨r, hr⟩ := System.mem_answers (M := M) (M.setup.run d).1 hx
  have hmem : (x.2, r) ∈ answersOf x.1 (M.answers (M.setup.run d).1 s.log) :=
    List.mem_map.2 ⟨_, List.mem_filter.2 ⟨hr, decide_eq_true rfl⟩, rfl⟩
  rw [h.answers, List.mem_append] at hmem
  rw [← h.calls, List.mem_append, List.mem_append]
  rcases hmem with hmem | hmem
  · exact .inl (.inl (List.mem_map_of_mem hmem))
  · refine .inl (.inr ?_)
    cases hphase : s.phase x.1 with
    | body c p =>
      rw [hphase, Phase.pending] at hmem
      split_ifs at hmem
      · cases hmem
      · obtain ⟨rfl, -⟩ := Prod.mk.inj (List.mem_singleton.1 hmem)
        exact List.mem_singleton.2 rfl
    | _ =>
      rw [hphase] at hmem
      cases hmem

theorem Reachable.serial (hM : M.Proper) (h : Reachable M d calls s) :
    Serial M d calls s := by
  have hinv := h.inv hM
  refine ⟨fun t => ⟨_, (hinv.answers t).symm⟩, fun _ => hinv.made, fun t => ?_,
    fun hidle => ⟨?_, ?_⟩⟩
  · rw [← hinv.calls t, List.append_assoc]
    exact List.prefix_append _ _
  · intro t
    have hanswers := hinv.answers t
    rw [hidle t] at hanswers
    exact (hanswers.trans (List.append_nil _)).symm
  · intro hlog
    have hflag : s.flag = true := by
      cases hflag : s.flag with
      | true => rfl
      | false => exact absurd (hinv.early hflag).log hlog
    refine (hinv.late hflag).free ?_
    cases hlock : s.lock with
    | none => rfl
    | some t =>
      have hinside := (hinv.lock t).1 hlock
      rw [hidle t] at hinside
      cases hinside

/-- A program that is going on in a thread has a step, if the lock is free or the
thread has it. -/
theorem Inv.prog_step (h : Inv M d calls s) {t : ι} {p : Prog D R'}
    (hinside : (s.phase t).inside = p.held) (hret : ∀ r, p ≠ .ret r)
    (hlock : s.lock = none ∨ s.lock = some t) :
    ∃ next, p.step t s.lock s.data = some next := by
  refine Prog.step_isSome t s.data hret fun hisLock => hlock.resolve_right ?_
  intro hown
  have hheld := (h.lock t).1 hown
  rw [hinside] at hheld
  rw [Prog.not_isLock_of_held hheld] at hisLock
  cases hisLock

/-- A thread with the lock, or with the second one if the lock is free, has a
step. -/
theorem Inv.owner_step (h : Inv M d calls s) {t : ι}
    (hlock : s.lock = none ∨ s.lock = some t)
    (hown : (s.phase t).holdsInit = true ∨ (s.phase t).inside = true) :
    ∃ s', Step M s s' := by
  cases hphase : s.phase t with
  | idle => simp [hphase, Phase.holdsInit, Phase.inside] at hown
  | wait c => simp [hphase, Phase.holdsInit, Phase.inside] at hown
  | test c =>
    cases hflag : s.flag with
    | true => exact ⟨_, .skip t c hphase hflag⟩
    | false => exact ⟨_, .start t c hphase hflag⟩
  | setup c p =>
    by_cases hret : ∃ r, p = .ret r
    · obtain ⟨r, rfl⟩ := hret
      exact ⟨_, .finish t c r hphase⟩
    · obtain ⟨⟨l, d', p'⟩, hstep⟩ := h.prog_step (p := p) (by rw [hphase]; rfl)
        (fun r hr => hret ⟨r, hr⟩) hlock
      exact ⟨_, .setup t c p l d' p' hphase hstep⟩
  | mark c => exact ⟨_, .mark t c hphase⟩
  | leave c => exact ⟨_, .give t c hphase⟩
  | body c p =>
    by_cases hret : ∃ r, p = .ret r
    · obtain ⟨r, rfl⟩ := hret
      exact ⟨_, .returns t c r hphase⟩
    · obtain ⟨⟨l, d', p'⟩, hstep⟩ := h.prog_step (p := p) (by rw [hphase]; rfl)
        (fun r hr => hret ⟨r, hr⟩) hlock
      exact ⟨_, .body t c p l d' p' hphase hstep⟩

/-- As long as a call is made, some thread can go on. -/
theorem Reachable.progress (hM : M.Proper) (h : Reachable M d calls s) {t : ι}
    (ht : s.phase t ≠ .idle) : ∃ s', Step M s s' := by
  have hinv := h.inv hM
  cases hlock : s.lock with
  | some u => exact hinv.owner_step (.inr hlock) (.inr ((hinv.lock u).1 hlock))
  | none =>
    cases hinit : s.initLock with
    | some u =>
      exact hinv.owner_step (t := u) (.inl hlock) (.inl ((hinv.initLock u).1 hinit))
    | none =>
      cases hphase : s.phase t with
      | idle => exact absurd hphase ht
      | wait c => exact ⟨_, .take t c hphase hinit⟩
      | body c p =>
        by_cases hret : ∃ r, p = .ret r
        · obtain ⟨r, rfl⟩ := hret
          exact ⟨_, .returns t c r hphase⟩
        · obtain ⟨⟨l, d', p'⟩, hstep⟩ := hinv.prog_step (p := p)
            (by rw [hphase]; rfl) (fun r hr => hret ⟨r, hr⟩) (.inl hlock)
          exact ⟨_, .body t c p l d' p' hphase hstep⟩
      | _ =>
        exact hinv.owner_step (t := t) (.inl hlock) (.inl (by rw [hphase]; rfl))

/-- What is in the log stays there, and what comes later stands behind it. -/
theorem log_grows {s' : State ι C D R} (h : Relation.ReflTransGen (Step M) s s') :
    s.log <+: s'.log := by
  induction h with
  | refl => exact List.prefix_refl _
  | tail _ hstep ih =>
    refine ih.trans ?_
    cases hstep with
    | direct => exact List.prefix_append _ _
    | give => exact List.prefix_append _ _
    | body => exact List.prefix_append _ _
    | _ => exact List.prefix_refl _

end Invariant

end Monitor
