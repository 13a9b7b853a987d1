import Libedi.LoaderTables
import Mathlib.Data.List.Forall2

/-!
# What is loaded of elements and codes

The tables that `load_elements` and `load_codes` make of a document, in the terms
of `segmentTable`.  An element has a flag besides its strings, of which the first
byte of the last text counts.  A coded element has a table of values, which is
made in the same way inside of its entry.
-/

namespace Libedi

open XmlTree

/-! ## Elements -/

/-- The path of the flag. -/
def isCodedPath : Bytes := elementsPath ++ ascii "/is_coded"

/-- The slot of an element, by an entry of a document. -/
def elementEntry (r : Reading) (k : Nat) (e : Element) : ElementSlot :=
  let fresh := freshSlot 25 10 ElementSlot.zero .stale k
  { fields := entryFields elementFields r elementsPath fresh.fields e
    isCoded :=
      match (e.textsAt isCodedPath elementsPath).getLast? with
      | none => fresh.isCoded
      | some d => some ((r.value d).head? = some '1'.toUInt8) }

/-- The table of a file of elements. -/
def elementTable (r : Reading) (c : Content) : List ElementSlot :=
  (c.elementsAt elementsPath []).mapIdx (elementEntry r)

/-- What a call does to the flag. -/
def flagCall (flag : Option Bool) : Call → Option Bool
  | .data xpath s =>
    if xpath = isCodedPath then some (s.head? = some '1'.toUInt8) else flag
  | _ => flag

/-- The last text for the flag counts. -/
theorem foldl_flagCall : ∀ (calls : List Call) (flag : Option Bool),
    calls.foldl flagCall flag =
      match (piecesAt isCodedPath calls).getLast? with
      | none => flag
      | some s => some (s.head? = some '1'.toUInt8)
  | [], _ => rfl
  | call :: calls, flag => by
    rw [List.foldl_cons, foldl_flagCall calls]
    cases call with
    | start xpath => rfl
    | stop xpath => rfl
    | data xpath s =>
      rw [piecesAt_data, flagCall]
      split_ifs with hpath
      · rw [List.getLast?_cons]
        cases (piecesAt isCodedPath calls).getLast? <;> rfl
      · rfl

/-- What the calls inside an entry make of its flag. -/
theorem foldl_flagCall_element (flag : Option Bool) (e : Element) :
    (e.inside elementsPath).foldl flagCall flag =
      match (e.textsAt isCodedPath elementsPath).getLast? with
      | none => flag
      | some d => some (d.last.head? = some '1'.toUInt8) := by
  rw [foldl_flagCall, Element.inside_pieces, getLast?_pieces]
  cases (e.textsAt isCodedPath elementsPath).getLast? <;> rfl

namespace ElementsParseHelper

/-- No string of an element is found where its flag is. -/
theorem find_isCoded :
    elementFields.find? (elementsPath ++ ·.path = isCodedPath) = none := by
  decide

theorem call_irrelevant (p : ElementsParseHelper) {call : Call}
    (h : ¬ Relevant elementsPath call) : p.call call = some p := by
  cases call with
  | start xpath =>
    have hne : xpath ≠ elementsPath := fun heq => h (Or.inl heq)
    rw [ElementsParseHelper.call, tstart, if_neg fun hpath => hne hpath.1]
  | stop xpath =>
    have hne : xpath ≠ elementsPath := fun heq => h (Or.inl heq)
    rw [ElementsParseHelper.call, tend, if_neg hne]
  | data xpath s =>
    have hflag : xpath ≠ isCodedPath := by
      rintro rfl
      exact h (below_append elementsPath (by decide))
    rw [ElementsParseHelper.call, cdata]
    split
    · next f hf =>
      have hpath : elementsPath ++ f.path = xpath := by
        simpa using List.find?_some hf
      exact absurd (hpath ▸ f.path_below elementsPath) h
    · exact if_neg hflag

/-- The state with this slot for the entry. -/
def withSlot (p : ElementsParseHelper) (slot : ElementSlot) :
    ElementsParseHelper :=
  { p with elems := p.elems.set p.index slot }

/-- A call inside an entry works on its slot. -/
theorem call_withSlot {p : ElementsParseHelper}
    (hindex : p.index < p.elems.length) (slot : ElementSlot) {call : Call}
    (h : Below elementsPath call.path ∨ ∃ s, call = .data elementsPath s) :
    (p.withSlot slot).call call
      = some (p.withSlot ⟨fieldCall elementFields elementsPath slot.fields call,
          flagCall slot.isCoded call⟩) := by
  cases call with
  | start xpath =>
    have hne : xpath ≠ elementsPath := start_ne h
    rw [ElementsParseHelper.call, tstart, if_neg fun hpath => hne hpath.1]
    rfl
  | stop xpath =>
    have hne : xpath ≠ elementsPath := stop_ne h
    rw [ElementsParseHelper.call, tend, if_neg hne]
    rfl
  | data xpath s =>
    rw [ElementsParseHelper.call, cdata, fieldCall, flagCall, withSlot]
    by_cases hflag : xpath = isCodedPath
    · subst hflag
      rw [find_isCoded, writeSlot_set hindex, if_pos rfl]
      exact if_pos rfl
    · rw [if_neg hflag, writeSlot_set hindex]
      cases elementFields.find? (elementsPath ++ ·.path = xpath) with
      | none => exact if_neg hflag
      | some f =>
        dsimp only
        rw [writeSlot_set hindex]
        rfl

theorem foldlM_withSlot {p : ElementsParseHelper}
    (hindex : p.index < p.elems.length) :
    ∀ (calls : List Call) (slot : ElementSlot),
      (∀ call ∈ calls, Below elementsPath call.path ∨
        ∃ s, call = .data elementsPath s) →
      calls.foldlM ElementsParseHelper.call (p.withSlot slot)
        = some (p.withSlot
          ⟨calls.foldl (fieldCall elementFields elementsPath) slot.fields,
            calls.foldl flagCall slot.isCoded⟩)
  | [], _, _ => rfl
  | call :: calls, slot, h => by
    rw [List.forall_mem_cons] at h
    rw [List.foldlM_cons, call_withSlot hindex slot h.1]
    exact foldlM_withSlot hindex calls _ h.2

end ElementsParseHelper

/-- The state between two entries, with the table so far. -/
structure ElementsLoaded (p : ElementsParseHelper) (done : List ElementSlot) :
    Prop where
  grown : Grown 25 10 .zero .stale p.elems p.index
  index : p.index = done.length
  done : p.elems.take p.index = done

/-- An entry adds its slot to the table. -/
theorem ElementsLoaded.entry {p : ElementsParseHelper}
    {done : List ElementSlot} (h : ElementsLoaded p done) (e : Element) :
    ∃ last, (e.calls elementsPath).foldlM ElementsParseHelper.call p
        = some last ∧
      ElementsLoaded last (done ++ [elementEntry .pieces done.length e]) := by
  have hslots : (p.tstart elementsPath).elems
      = if p.index = p.elems.length then growBlock 25 10 .zero .stale p.elems
        else p.elems := by
    unfold ElementsParseHelper.tstart
    simp only [true_and]
    split_ifs <;> rfl
  have hindex : (p.tstart elementsPath).index = done.length := by
    rw [← h.index]
    unfold ElementsParseHelper.tstart
    split_ifs <;> rfl
  obtain ⟨hgrown, hslot, htake⟩ :=
    h.grown.ensure (by decide) (by decide) hslots
  rw [h.index] at hgrown hslot htake
  rw [Element.foldlM_calls, ElementsParseHelper.call, Option.bind_some]
  generalize p.tstart elementsPath = q at hindex hgrown hslot htake ⊢
  obtain ⟨hroom, hfresh⟩ := List.getElem?_eq_some_iff.1 hslot
  have hself : q.withSlot (freshSlot 25 10 .zero .stale done.length) = q := by
    rw [← hfresh, ElementsParseHelper.withSlot]
    obtain ⟨elems, index⟩ := q
    obtain rfl : index = done.length := hindex
    show (⟨elems.set done.length elems[done.length], _⟩ : ElementsParseHelper) = _
    rw [List.set_getElem_self]
  have hinside := ElementsParseHelper.foldlM_withSlot (hindex ▸ hroom) _
    (freshSlot 25 10 ElementSlot.zero .stale done.length)
    (e.inside_below elementsPath)
  rw [hself, foldl_fieldCall_element, foldl_flagCall_element] at hinside
  have hstop : (q.withSlot (elementEntry .pieces done.length e)).call
      (.stop elementsPath)
      = some ⟨q.elems.set q.index (elementEntry .pieces done.length e),
          q.index + 1⟩ := congrArg some (if_pos rfl)
  refine ⟨_, (congrArg (Option.bind · _) hinside).trans hstop, ?_, ?_, ?_⟩
  · show Grown 25 10 _ _ (q.elems.set q.index _) (q.index + 1)
    rw [hindex]
    exact hgrown.set hroom _
  · show q.index + 1 = _
    rw [hindex, List.length_append, List.length_singleton]
  · show (q.elems.set q.index _).take (q.index + 1) = _
    rw [hindex, take_set_succ hroom, htake, ← h.index, h.done]

/-- What `load_elements` makes of a document, if it is loaded. -/
theorem loadElements_contentEvents (c : Content) :
    loadElements (contentEvents c)
      = (handlerCalls [] (contentEvents c)).map fun _ =>
        elementTable .pieces c :=
  load_contentEvents (by decide) (fun p _ h => p.call_irrelevant h)
    ElementsLoaded ⟨grown_nil, rfl, rfl⟩
    (fun _ _ e h => h.entry e) (fun _ _ h => h.done) c

/-! ## Codes -/

/-- The strings of a value, by its element. -/
def codedEntry (r : Reading) (e : Element) : Fields :=
  entryFields segmentFields r codesValuePath (fun _ => .stale) e

/-- The slot of a coded element, by an entry of a document. -/
def codesEntry (r : Reading) (e : Element) : LoadedCodes where
  el :=
    match (e.textsAt (codesPath ++ ascii "/@code") codesPath).getLast? with
    | none => .stale
    | some d => .text (r.value d)
  vals := some ((e.inner.elementsAt codesValuePath codesPath).map (codedEntry r))

/-- The table of a file of codes. -/
def codesTable (r : Reading) (c : Content) : List LoadedCodes :=
  (c.elementsAt codesPath []).map (codesEntry r)

/-- The array of the values. -/
structure Values where
  cc : List Fields
  ccIndex : Nat

/-- What a call does to the values. -/
def Values.call (v : Values) : Call → Option Values
  | .start xpath =>
    some <| if xpath = codesValuePath ∧ v.ccIndex = v.cc.length then
      { v with cc := growBlock 10 0 (fun _ => .stale) (fun _ => .stale) v.cc }
    else v
  | .stop xpath =>
    some <| if xpath = codesValuePath then { v with ccIndex := v.ccIndex + 1 }
    else v
  | .data xpath s =>
    match segmentFields.find? (codesValuePath ++ ·.path = xpath) with
    | some f => (writeSlot v.cc v.ccIndex fun fields =>
        Function.update fields f (.text s)).map fun cc => { v with cc := cc }
    | none => some v

/-- What a call does to the code of the element. -/
def elCall (el : Field) : Call → Field
  | .data xpath s => if xpath = codesPath ++ ascii "/@code" then .text s else el
  | _ => el

theorem foldl_elCall : ∀ (calls : List Call) (el : Field),
    calls.foldl elCall el =
      match (piecesAt (codesPath ++ ascii "/@code") calls).getLast? with
      | none => el
      | some s => .text s
  | [], _ => rfl
  | call :: calls, el => by
    rw [List.foldl_cons, foldl_elCall calls]
    cases call with
    | start xpath => rfl
    | stop xpath => rfl
    | data xpath s =>
      rw [piecesAt_data, elCall]
      split_ifs with hpath
      · rw [List.getLast?_cons]
        cases (piecesAt (codesPath ++ ascii "/@code") calls).getLast? <;> rfl
      · rfl

namespace Values

theorem call_irrelevant (v : Values) {call : Call}
    (h : ¬ Relevant codesValuePath call) : v.call call = some v := by
  cases call with
  | start xpath =>
    have hne : xpath ≠ codesValuePath := fun heq => h (Or.inl heq)
    rw [Values.call, if_neg fun hpath => hne hpath.1]
  | stop xpath =>
    have hne : xpath ≠ codesValuePath := fun heq => h (Or.inl heq)
    rw [Values.call, if_neg hne]
  | data xpath s =>
    rw [Values.call]
    split
    · next f hf =>
      have hpath : codesValuePath ++ f.path = xpath := by
        simpa using List.find?_some hf
      exact absurd (hpath ▸ f.path_below codesValuePath) h
    · rfl

/-- A call inside a value works on its slot. -/
theorem call_set {v : Values} (hindex : v.ccIndex < v.cc.length)
    (fields : Fields) {call : Call}
    (h : Below codesValuePath call.path ∨ ∃ s, call = .data codesValuePath s) :
    Values.call ⟨v.cc.set v.ccIndex fields, v.ccIndex⟩ call
      = some ⟨v.cc.set v.ccIndex
          (fieldCall segmentFields codesValuePath fields call), v.ccIndex⟩ := by
  cases call with
  | start xpath =>
    have hne : xpath ≠ codesValuePath := start_ne h
    rw [Values.call, if_neg fun hpath => hne hpath.1]
    rfl
  | stop xpath =>
    have hne : xpath ≠ codesValuePath := stop_ne h
    rw [Values.call, if_neg hne]
    rfl
  | data xpath s =>
    rw [Values.call, fieldCall]
    cases segmentFields.find? (codesValuePath ++ ·.path = xpath) with
    | none => rfl
    | some f =>
      dsimp only
      rw [writeSlot_set hindex]
      rfl

theorem foldlM_set {v : Values} (hindex : v.ccIndex < v.cc.length) :
    ∀ (calls : List Call) (fields : Fields),
      (∀ call ∈ calls, Below codesValuePath call.path ∨
        ∃ s, call = .data codesValuePath s) →
      calls.foldlM Values.call ⟨v.cc.set v.ccIndex fields, v.ccIndex⟩
        = some ⟨v.cc.set v.ccIndex
            (calls.foldl (fieldCall segmentFields codesValuePath) fields),
            v.ccIndex⟩
  | [], _, _ => rfl
  | call :: calls, fields, h => by
    rw [List.forall_mem_cons] at h
    rw [List.foldlM_cons, call_set hindex fields h.1]
    exact foldlM_set hindex calls _ h.2

end Values

/-- The values so far. -/
structure ValuesLoaded (v : Values) (done : List Fields) : Prop where
  grown : Grown 10 0 (fun _ => .stale) (fun _ => .stale) v.cc v.ccIndex
  index : v.ccIndex = done.length
  done : v.cc.take v.ccIndex = done

/-- A value adds its slot. -/
theorem ValuesLoaded.entry {v : Values} {done : List Fields}
    (h : ValuesLoaded v done) (e : Element) :
    ∃ last, (e.calls codesValuePath).foldlM Values.call v = some last ∧
      ValuesLoaded last (done ++ [codedEntry .pieces e]) := by
  have hstart : v.call (.start codesValuePath)
      = some ⟨if v.ccIndex = v.cc.length
          then growBlock 10 0 (fun _ => .stale) (fun _ => .stale) v.cc
          else v.cc, done.length⟩ := by
    rw [Values.call, ← h.index]
    simp only [true_and]
    split_ifs <;> rfl
  obtain ⟨hgrown, hslot, htake⟩ :=
    h.grown.ensure (by decide) (by decide) rfl
  rw [Element.foldlM_calls, hstart, Option.bind_some]
  rw [h.index] at hgrown hslot htake ⊢
  generalize (if done.length = v.cc.length
    then growBlock 10 0 (fun _ => Field.stale) (fun _ => .stale) v.cc
    else v.cc) = cc at hgrown hslot htake ⊢
  obtain ⟨hroom, hfresh⟩ := List.getElem?_eq_some_iff.1 hslot
  have hinside := Values.foldlM_set (v := ⟨cc, done.length⟩) hroom _
    (fun _ => .stale) (e.inside_below codesValuePath)
  have hself : cc.set done.length (fun _ => Field.stale) = cc := by
    have hstale : (fun _ => Field.stale) = cc[done.length] := by
      rw [hfresh]
      exact (ite_self _).symm
    rw [hstale, List.set_getElem_self]
  dsimp only at hinside
  rw [hself, foldl_fieldCall_element] at hinside
  have hstop : Values.call ⟨cc.set done.length (codedEntry .pieces e),
      done.length⟩ (.stop codesValuePath)
      = some ⟨cc.set done.length (codedEntry .pieces e), done.length + 1⟩ :=
    congrArg some (if_pos rfl)
  refine ⟨_, (congrArg (Option.bind · _) hinside).trans hstop, ?_, ?_, ?_⟩
  · exact hgrown.set hroom _
  · show done.length + 1 = _
    rw [List.length_append, List.length_singleton]
  · show (cc.set done.length _).take (done.length + 1) = _
    rw [take_set_succ hroom, htake, ← h.index, h.done]

theorem mapIdx_const {α β : Type*} (f : α → β) (l : List α) :
    l.mapIdx (fun _ a => f a) = l.map f := by
  induction l with
  | nil => rfl
  | cons a l ih => rw [List.mapIdx_cons, ih, List.map_cons]

theorem mapIdx_eq_iff_forall {α β : Type*} {f g : Nat → α → β} {P : α → Prop}
    (h : ∀ k a, f k a = g k a ↔ P a) (l : List α) :
    l.mapIdx f = l.mapIdx g ↔ ∀ a ∈ l, P a := by
  simp only [List.mapIdx_eq_mapIdx_iff, h, List.forall_mem_iff_getElem]

theorem forall_mem_mapIdx_iff {α β : Type*} {f : Nat → α → β} {l : List α}
    {P : β → Prop} :
    (∀ b ∈ l.mapIdx f, P b) ↔ ∀ k a, l[k]? = some a → P (f k a) := by
  constructor
  · intro h k a hk
    obtain ⟨hlt, rfl⟩ := List.getElem?_eq_some_iff.1 hk
    exact h _ (List.mem_mapIdx.2 ⟨k, hlt, rfl⟩)
  · intro h b hb
    obtain ⟨k, hlt, rfl⟩ := List.mem_mapIdx.1 hb
    exact h k _ (List.getElem?_eq_getElem hlt)

theorem forall₂_mapIdx {α β : Type*} {R : α → β → Prop} {f : Nat → α → β}
    {l : List α} (h : ∀ k a, l[k]? = some a → R a (f k a)) :
    List.Forall₂ R l (l.mapIdx f) := by
  induction l generalizing f with
  | nil => exact .nil
  | cons a l ih =>
    rw [List.mapIdx_cons]
    exact .cons (h 0 a rfl) (ih fun k b hb => h (k + 1) b hb)

/-- The values of an entry, from an empty array on. -/
theorem foldlM_values (e : Element) :
    ∃ v, (e.inside codesPath).foldlM Values.call ⟨[], 0⟩ = some v ∧
      ValuesLoaded v ((e.inner.elementsAt codesValuePath codesPath).map
        (codedEntry .pieces)) := by
  have habove : ¬ (codesPath = codesValuePath ∨
      Below codesValuePath codesPath) := by
    decide
  have hignore : ∀ (v : Values) (call : Call),
      ¬ Relevant codesValuePath call → v.call call = some v :=
    fun v call h => v.call_irrelevant h
  have hstart : ∀ v : Values, v.call (.start codesPath) = some v :=
    fun v => hignore v _ habove
  have hstop : ∀ v : Values, v.call (.stop codesPath) = some v :=
    fun v => hignore v _ habove
  have hwhole : (e.calls codesPath).foldlM Values.call ⟨[], 0⟩
      = (e.inside codesPath).foldlM Values.call ⟨[], 0⟩ := by
    rw [Element.foldlM_calls, hstart, Option.bind_some, funext hstop,
      Option.bind_fun_some]
  rw [← hwhole, foldlM_element hignore habove, foldlM_calls hignore _ _ habove]
  have hentry : ∀ v done e, ValuesLoaded v done → ∃ last,
      (e.calls codesValuePath).foldlM Values.call v = some last ∧
        ValuesLoaded last (done ++ [codedEntry .pieces e]) :=
    fun v done e h => h.entry e
  have hempty : ValuesLoaded ⟨[], 0⟩ [] := ⟨grown_nil, rfl, rfl⟩
  obtain ⟨v, hv, hloaded⟩ := @foldlM_entries _ _ ValuesLoaded _
    (fun _ e => codedEntry .pieces e) hentry
    (e.inner.elementsAt codesValuePath codesPath) _ _ hempty
  refine ⟨v, hv, ?_⟩
  rwa [List.nil_append, mapIdx_const] at hloaded

namespace CodesParseHelper

/-- The state with this slot for the entry, and these values. -/
def withValues (p : CodesParseHelper) (slot : CodedElementsSlot) (v : Values) :
    CodesParseHelper :=
  ⟨p.cv.set p.cvIndex slot, p.cvIndex, v.cc, v.ccIndex⟩

theorem call_irrelevant (p : CodesParseHelper) {call : Call}
    (h : ¬ Relevant codesPath call) : p.call call = some p := by
  have hvalue : Below codesPath codesValuePath := by decide
  cases call with
  | start xpath =>
    have hne : xpath ≠ codesPath := fun heq => h (Or.inl heq)
    have hne' : xpath ≠ codesValuePath := fun heq => h (Or.inr (heq ▸ hvalue))
    rw [CodesParseHelper.call, tstart, if_neg hne,
      if_neg fun hpath => hne' hpath.1]
  | stop xpath =>
    have hne : xpath ≠ codesPath := fun heq => h (Or.inl heq)
    have hne' : xpath ≠ codesValuePath := fun heq => h (Or.inr (heq ▸ hvalue))
    rw [CodesParseHelper.call, tend, if_neg hne, if_neg hne']
  | data xpath s =>
    have hcode : xpath ≠ codesPath ++ ascii "/@code" := by
      rintro rfl
      exact h (below_append codesPath (by decide))
    have htake : xpath.take 33 ≠ codesValuePath := by
      intro heq
      have hprefix := List.take_prefix 33 xpath
      rw [heq] at hprefix
      exact h (List.IsPrefix.trans hvalue hprefix)
    rw [CodesParseHelper.call, cdata, if_neg hcode, if_neg htake]

/-- The strings of a value are looked for behind its path. -/
theorem find_value (xpath : Bytes) :
    segmentFields.find? (codesValuePath ++ ·.path = xpath)
      = if xpath.take 33 = codesValuePath
        then segmentFields.find? (·.path = xpath.drop 33) else none := by
  have hlength : codesValuePath.length = 33 := by decide
  split_ifs with htake
  · have hsplit : xpath = codesValuePath ++ xpath.drop 33 := by
      rw [← htake, List.take_append_drop]
    have hpaths : ∀ f : TextField, codesValuePath ++ f.path = xpath ↔
        f.path = xpath.drop 33 := by
      intro f
      rw [hsplit, List.append_cancel_left_eq, ← hlength, List.drop_left]
    simp only [hpaths]
  · rw [List.find?_eq_none]
    intro f _ hf
    rw [decide_eq_true_eq] at hf
    rw [← hf, ← hlength, List.take_left] at htake
    exact htake rfl

/-- A call inside an entry works on its slot and on the values. -/
theorem call_withValues {p : CodesParseHelper}
    (hindex : p.cvIndex < p.cv.length) (slot : CodedElementsSlot)
    {v w : Values} {call : Call}
    (h : Below codesPath call.path ∨ ∃ s, call = .data codesPath s)
    (hcall : v.call call = some w) :
    ∃ last, (p.withValues slot v).call call = some (p.withValues last w) ∧
      last.el = elCall slot.el call := by
  cases call with
  | start xpath =>
    have hne : xpath ≠ codesPath := start_ne h
    rw [Values.call, Option.some.injEq] at hcall
    subst hcall
    rw [CodesParseHelper.call, tstart, if_neg hne, withValues]
    dsimp only
    by_cases hgrow : xpath = codesValuePath ∧ v.ccIndex = v.cc.length
    · rw [if_pos hgrow, if_pos hgrow, writeSlot_set hindex]
      exact ⟨_, rfl, rfl⟩
    · rw [if_neg hgrow, if_neg hgrow]
      exact ⟨slot, rfl, rfl⟩
  | stop xpath =>
    have hne : xpath ≠ codesPath := stop_ne h
    rw [Values.call, Option.some.injEq] at hcall
    subst hcall
    refine ⟨slot, ?_, rfl⟩
    rw [CodesParseHelper.call, tend, if_neg hne]
    split_ifs <;> rfl
  | data xpath s =>
    rw [Values.call, find_value] at hcall
    rw [CodesParseHelper.call, cdata, elCall, withValues]
    by_cases hcode : xpath = codesPath ++ ascii "/@code"
    · subst hcode
      have htake : (codesPath ++ ascii "/@code").take 33 ≠ codesValuePath := by
        decide
      have hfind : segmentFields.find?
          (·.path = (codesPath ++ ascii "/@code").drop 33) = none := by
        decide
      rw [if_neg htake] at hcall
      obtain rfl := Option.some.inj hcall
      rw [if_pos rfl, if_pos rfl, writeSlot_set hindex, Option.map_some,
        Option.bind_some, valueCdata, hfind]
      exact ⟨_, rfl, rfl⟩
    · rw [if_neg hcode, if_neg hcode]
      split_ifs at hcall ⊢ with htake
      · refine ⟨slot, ?_, rfl⟩
        rw [valueCdata]
        cases hfind : segmentFields.find? (·.path = xpath.drop 33) with
        | none =>
          rw [hfind] at hcall
          obtain rfl := Option.some.inj hcall
          rfl
        | some f =>
          rw [hfind] at hcall
          obtain ⟨cc, hcc, rfl⟩ := Option.map_eq_some_iff.1 hcall
          dsimp only
          rw [hcc]
          rfl
      · obtain rfl := Option.some.inj hcall
        exact ⟨slot, rfl, rfl⟩

theorem foldlM_withValues {p : CodesParseHelper}
    (hindex : p.cvIndex < p.cv.length) :
    ∀ (calls : List Call) (slot : CodedElementsSlot) {v w : Values},
      (∀ call ∈ calls, Below codesPath call.path ∨
        ∃ s, call = .data codesPath s) →
      calls.foldlM Values.call v = some w →
      ∃ last, calls.foldlM CodesParseHelper.call (p.withValues slot v)
          = some (p.withValues last w) ∧
        last.el = calls.foldl elCall slot.el
  | [], slot, v, w, _, hrun => by
    obtain rfl := Option.some.inj hrun
    exact ⟨slot, rfl, rfl⟩
  | call :: calls, slot, v, w, h, hrun => by
    rw [List.forall_mem_cons] at h
    rw [List.foldlM_cons] at hrun
    obtain ⟨u, hu, hrest⟩ := Option.bind_eq_some_iff.1 hrun
    obtain ⟨next, hnext, hel⟩ := call_withValues hindex slot h.1 hu
    obtain ⟨last, hlast, hlastel⟩ := foldlM_withValues hindex calls next h.2 hrest
    refine ⟨last, ?_, ?_⟩
    · rw [List.foldlM_cons, hnext]
      exact hlast
    · rw [hlastel, hel, List.foldl_cons]

end CodesParseHelper

/-- What an entry makes of a slot: the last piece for the code, and the array of
its values with their count. -/
structure CodedElementsSlot.From (slot : CodedElementsSlot) (e : Element) :
    Prop where
  el : slot.el =
    match (e.textsAt (codesPath ++ ascii "/@code") codesPath).getLast? with
    | none => .stale
    | some d => .text d.last
  vals : ∃ v : Values, slot.vals = .block v.cc ∧ slot.nvals = some v.ccIndex ∧
    ValuesLoaded v ((e.inner.elementsAt codesValuePath codesPath).map
      (codedEntry .pieces))

theorem CodedElementsSlot.From.loaded {slot : CodedElementsSlot} {e : Element}
    (h : slot.From e) : slot.loaded = codesEntry .pieces e := by
  obtain ⟨v, hvals, hnvals, hvalues⟩ := h.vals
  rw [CodedElementsSlot.loaded, codesEntry, hvals, hnvals, h.el]
  dsimp only
  rw [hvalues.done]
  rfl

/-- The calls for an entry fill the next slot. -/
theorem CodesParseHelper.foldlM_entry {p : CodesParseHelper}
    (hgrown : Grown 10 0 .stale .stale p.cv p.cvIndex) (hcc : p.cc = [])
    (hccIndex : p.ccIndex = 0) (e : Element) :
    ∃ cv slot, (e.calls codesPath).foldlM CodesParseHelper.call p
        = some ⟨cv, p.cvIndex + 1, [], 0⟩ ∧
      Grown 10 0 .stale .stale cv (p.cvIndex + 1) ∧
      cv.take (p.cvIndex + 1) = p.cv.take p.cvIndex ++ [slot] ∧
      CodedElementsSlot.From slot e := by
  have hstart : p.call (.start codesPath)
      = some ⟨if p.cvIndex = p.cv.length then growBlock 10 0 .stale .stale p.cv
          else p.cv, p.cvIndex, [], 0⟩ := by
    rw [CodesParseHelper.call, CodesParseHelper.tstart, if_pos rfl, ← hcc,
      ← hccIndex]
    split_ifs <;> rfl
  obtain ⟨hgrown, hslot, htake⟩ := hgrown.ensure (by decide) (by decide) rfl
  rw [Element.foldlM_calls, hstart, Option.bind_some]
  generalize (if p.cvIndex = p.cv.length then growBlock 10 0 .stale .stale p.cv
    else p.cv) = cv at hgrown hslot htake ⊢
  obtain ⟨hroom, hfresh⟩ := List.getElem?_eq_some_iff.1 hslot
  obtain ⟨v, hv, hvalues⟩ := foldlM_values e
  obtain ⟨slot, hinside, hel⟩ := CodesParseHelper.foldlM_withValues
    (p := ⟨cv, p.cvIndex, [], 0⟩) hroom _ .stale (e.inside_below codesPath) hv
  have hself : CodesParseHelper.withValues ⟨cv, p.cvIndex, [], 0⟩ .stale
      ⟨[], 0⟩ = ⟨cv, p.cvIndex, [], 0⟩ := by
    have hstale : CodedElementsSlot.stale = cv[p.cvIndex] := by
      rw [hfresh]
      exact (ite_self _).symm
    rw [CodesParseHelper.withValues, hstale]
    dsimp only
    rw [List.set_getElem_self]
  rw [hself] at hinside
  have hstop : (CodesParseHelper.withValues ⟨cv, p.cvIndex, [], 0⟩ slot v).call
      (.stop codesPath) = some ⟨cv.set p.cvIndex
        ⟨slot.el, .block v.cc, some v.ccIndex⟩, p.cvIndex + 1, [], 0⟩ := by
    rw [CodesParseHelper.call, CodesParseHelper.tend, if_pos rfl,
      CodesParseHelper.withValues, writeSlot_set hroom]
    rfl
  refine ⟨_, ⟨slot.el, .block v.cc, some v.ccIndex⟩,
    (congrArg (Option.bind · _) hinside).trans hstop, hgrown.set hroom _, ?_, ?_,
    v, rfl, rfl, hvalues⟩
  · rw [take_set_succ hroom, htake]
  · dsimp only
    rw [hel, foldl_elCall, Element.inside_pieces, getLast?_pieces]
    cases (e.textsAt (codesPath ++ ascii "/@code") codesPath).getLast? <;> rfl

/-- The state between two entries, with the table so far. -/
structure CodesLoaded (p : CodesParseHelper) (done : List LoadedCodes) :
    Prop where
  grown : Grown 10 0 .stale .stale p.cv p.cvIndex
  cc : p.cc = []
  ccIndex : p.ccIndex = 0
  index : p.cvIndex = done.length
  done : (p.cv.take p.cvIndex).map CodedElementsSlot.loaded = done

/-- An entry adds its slot to the table. -/
theorem CodesLoaded.entry {p : CodesParseHelper} {done : List LoadedCodes}
    (h : CodesLoaded p done) (e : Element) :
    ∃ last, (e.calls codesPath).foldlM CodesParseHelper.call p = some last ∧
      CodesLoaded last (done ++ [codesEntry .pieces e]) := by
  obtain ⟨cv, slot, hrun, hgrown, htake, hfrom⟩ :=
    p.foldlM_entry h.grown h.cc h.ccIndex e
  refine ⟨_, hrun, hgrown, rfl, rfl, ?_, ?_⟩
  · show p.cvIndex + 1 = _
    rw [h.index, List.length_append, List.length_singleton]
  · show List.map _ (cv.take (p.cvIndex + 1)) = _
    rw [htake, List.map_append, h.done, List.map_singleton, hfrom.loaded]

/-- What `load_codes` makes of a document, if it is loaded. -/
theorem loadCodes_contentEvents (c : Content) :
    loadCodes (contentEvents c)
      = (handlerCalls [] (contentEvents c)).map fun _ =>
        codesTable .pieces c := by
  simp only [codesTable, ← mapIdx_const]
  exact load_contentEvents (by decide) (fun p _ h => p.call_irrelevant h)
    CodesLoaded ⟨grown_nil, rfl, rfl, rfl, rfl⟩
    (fun _ _ e h => h.entry e) (fun _ _ h => h.done) c

end Libedi
