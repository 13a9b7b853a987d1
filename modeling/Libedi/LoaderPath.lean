import Libedi.Lib.OpenElements
import Libedi.LoaderTables

/-!
# The path of the loader

`startElement` and `endElement` of `struct_loader.c` keep the path of the open
elements in one string.  The bound of `strncat` is the size of the whole buffer,
so nothing ends a path that gets too long.

`Mirrors` says that the path is that of the open elements behind each event.
This is so exactly for the documents whose paths fit into the buffer
(`PathsFit`).
-/

namespace Libedi

open XmlTree

/-- The path behind some events. -/
def pathAfter (path : Bytes) (events : List XmlEvent) : Option Bytes :=
  events.foldlM (fun path e => (eventCalls path e).map Prod.fst) path

/-- With the path of the open elements in front of an event, the path behind it is
that of the elements which are open then.  The path of an attribute goes on with
`/@` and its name.  All paths are shorter than the buffer. -/
def EventMirrors (stack : List Bytes) (e : XmlEvent) : Prop :=
  ∃ stack' calls, openElements stack [e] = some stack' ∧
    eventCalls (pathOf stack) e = some (pathOf stack', calls) ∧
    (pathOf stack').length < xpathMax ∧
    ∀ name attrs, e = .start name attrs →
      calls = .start (pathOf stack') :: attrs.map (attrCall (pathOf stack')) ∧
      ∀ a ∈ attrs, (attrPath (pathOf stack') a.1).length < xpathMax

/-- The path is that of the open elements in front of each event and behind it. -/
def MirrorsFrom (stack : List Bytes) (events : List XmlEvent) : Prop :=
  ∀ before e after, events = before ++ e :: after →
    ∃ stack', openElements stack before = some stack' ∧
      pathAfter (pathOf stack) before = some (pathOf stack') ∧
      EventMirrors stack' e

/-- The path mirrors the open elements of a document. -/
structure Mirrors (events : List XmlEvent) : Prop where
  each : MirrorsFrom [] events
  /-- The end of an element restores the path in front of its start. -/
  restored : ∀ before name attrs inside name' after,
    events = before ++ .start name attrs :: (inside ++ .stop name' :: after) →
    WellFormed inside →
    ∃ path, pathAfter [] before = some path ∧
      pathAfter [] (before ++ .start name attrs :: (inside ++ [.stop name']))
        = some path

/-- The path of an element and those of its attributes fit into their buffers. -/
def StartFits (stack : List Bytes) (attrs : List (Bytes × Bytes)) : Prop :=
  pathLength stack < xpathMax ∧
    ∀ a ∈ attrs, pathLength stack + 2 + a.1.length < xpathMax

/-- So it is for all elements that start inside of some open ones. -/
def PathsFit (stack : List Bytes) : List XmlEvent → Prop
  | [] => True
  | .start name attrs :: events =>
    StartFits (name :: stack) attrs ∧ PathsFit (name :: stack) events
  | .stop _ :: events => PathsFit stack.tail events
  | .chars _ :: events => PathsFit stack events

instance (stack : List Bytes) (attrs : List (Bytes × Bytes)) :
    Decidable (StartFits stack attrs) :=
  inferInstanceAs (Decidable (_ ∧ _))

instance decidablePathsFit : (stack : List Bytes) → (events : List XmlEvent) →
    Decidable (PathsFit stack events)
  | _, [] => isTrue trivial
  | stack, .start name _ :: events =>
    have := decidablePathsFit (name :: stack) events
    inferInstanceAs (Decidable (_ ∧ _))
  | stack, .stop _ :: events => decidablePathsFit stack.tail events
  | stack, .chars _ :: events => decidablePathsFit stack events

/-! ## An event -/

section Event

variable {stack stack' : List Bytes} {name : Bytes} {e : XmlEvent}
  {events : List XmlEvent}

theorem eventMirrors_start_iff {attrs : List (Bytes × Bytes)} :
    EventMirrors stack (.start name attrs) ↔ StartFits (name :: stack) attrs := by
  have hlength : pathLength (name :: stack)
      = (pathOf stack).length + 1 + name.length := by
    rw [pathLength, length_pathOf]
  have hopen : openElements stack [.start name attrs] = some (name :: stack) := rfl
  rw [StartFits, hlength]
  constructor
  · rintro ⟨stack', calls, -, hcalls, -, -⟩
    exact (startElement_eq_some_iff.1 hcalls).1
  · intro hfits
    refine ⟨name :: stack, _, hopen,
      startElement_eq_some_iff.2 ⟨hfits, by rw [pathOf_cons]⟩, ?_, ?_⟩
    · rw [length_pathOf, hlength]
      exact hfits.1
    · rintro name' attrs' ⟨⟩
      refine ⟨by rw [pathOf_cons], fun a ha => ?_⟩
      rw [length_attrPath, length_pathOf, hlength]
      exact hfits.2 a ha

theorem eventMirrors_stop (hroom : pathLength stack < xpathMax) :
    EventMirrors (name :: stack) (.stop name) := by
  refine ⟨stack, [.stop (pathOf (name :: stack))],
    openElements_stop_eq_some_iff.2 rfl, ?_, ?_, nofun⟩
  · rw [pathOf_cons]
    exact endElement_childPath (pathOf stack) name
  · rwa [length_pathOf]

theorem eventMirrors_chars (hroom : pathLength stack < xpathMax) (s : Bytes) :
    EventMirrors stack (.chars s) := by
  refine ⟨stack, [.data (pathOf stack) s], rfl, rfl, ?_, nofun⟩
  rwa [length_pathOf]

theorem EventMirrors.pathAfter_cons (h : EventMirrors stack e)
    (hopen : openElements stack [e] = some stack') (events : List XmlEvent) :
    pathAfter (pathOf stack) (e :: events) = pathAfter (pathOf stack') events := by
  obtain ⟨stack'', calls, hopen', hcalls, -⟩ := h
  obtain rfl : stack' = stack'' := Option.some.inj (hopen.symm.trans hopen')
  rw [pathAfter, List.foldlM_cons, hcalls]
  rfl

/-! ## A document -/

theorem mirrorsFrom_nil : MirrorsFrom stack [] := by
  intro before e after hevents
  simp at hevents

theorem mirrorsFrom_cons (h : openElements stack [e] = some stack') :
    MirrorsFrom stack (e :: events) ↔
      EventMirrors stack e ∧ MirrorsFrom stack' events := by
  have hopen : ∀ before,
      openElements stack (e :: before) = openElements stack' before := by
    intro before
    rw [openElements_cons, h, Option.bind_some]
  constructor
  · intro hall
    obtain ⟨stack₀, hstack₀, -, hfirst⟩ := hall [] e events rfl
    obtain rfl : stack = stack₀ := Option.some.inj hstack₀
    refine ⟨hfirst, fun before e' after hevents => ?_⟩
    have hlater := hall (e :: before) e' after (congrArg (e :: ·) hevents)
    rwa [hopen, hfirst.pathAfter_cons h] at hlater
  · rintro ⟨hfirst, hrest⟩ before e' after hevents
    cases before with
    | nil =>
      obtain ⟨rfl, -⟩ := List.cons.inj hevents
      exact ⟨stack, rfl, rfl, hfirst⟩
    | cons e₀ before =>
      obtain ⟨rfl, htail⟩ := List.cons.inj hevents
      rw [hopen, hfirst.pathAfter_cons h]
      exact hrest before e' after htail

/-- The path is that of the open elements exactly as long as the paths fit. -/
theorem mirrorsFrom_iff (hopen : openElements stack events = some stack')
    (hroom : pathLength stack < xpathMax) :
    MirrorsFrom stack events ↔ PathsFit stack events := by
  induction events generalizing stack with
  | nil => exact iff_of_true mirrorsFrom_nil trivial
  | cons e events ih =>
    rw [openElements_cons] at hopen
    obtain ⟨behind, hbehind, hrest⟩ := Option.bind_eq_some_iff.1 hopen
    rw [mirrorsFrom_cons hbehind]
    cases e with
    | start name attrs =>
      obtain rfl : name :: stack = behind := Option.some.inj hbehind
      rw [eventMirrors_start_iff, PathsFit]
      exact and_congr_right fun hfits => ih hrest hfits.1
    | stop name =>
      obtain rfl := openElements_stop_eq_some_iff.1 hbehind
      have hshort : pathLength behind < xpathMax := by
        rw [pathLength] at hroom
        omega
      rw [and_iff_right (eventMirrors_stop hshort)]
      exact ih hrest hshort
    | chars s =>
      obtain rfl : stack = behind := Option.some.inj hbehind
      rw [and_iff_right (eventMirrors_chars hroom s)]
      exact ih hrest hroom

theorem MirrorsFrom.left {after : List XmlEvent}
    (h : MirrorsFrom stack (events ++ after)) : MirrorsFrom stack events := by
  intro before e behind hevents
  apply h before e (behind ++ after)
  rw [hevents, List.append_assoc, List.cons_append]

/-- Behind all events the path is that of the elements that are still open. -/
theorem MirrorsFrom.pathAfter_eq (h : MirrorsFrom stack events)
    (hopen : openElements stack events = some stack') :
    pathAfter (pathOf stack) events = some (pathOf stack') := by
  induction events generalizing stack with
  | nil =>
    obtain rfl : stack = stack' := Option.some.inj hopen
    rfl
  | cons e events ih =>
    rw [openElements_cons] at hopen
    obtain ⟨behind, hbehind, hrest⟩ := Option.bind_eq_some_iff.1 hopen
    obtain ⟨hfirst, hlater⟩ := (mirrorsFrom_cons hbehind).1 h
    rw [hfirst.pathAfter_cons hbehind]
    exact ih hlater hrest

/-- The cut of `endElement` needs nothing else. -/
theorem mirrors_iff_mirrorsFrom (hopen : openElements [] events = some stack') :
    Mirrors events ↔ MirrorsFrom [] events := by
  refine ⟨Mirrors.each, fun heach => ⟨heach, ?_⟩⟩
  intro before name attrs inside name' after hevents hinside
  have hclosed : events
      = (before ++ .start name attrs :: (inside ++ [.stop name'])) ++ after := by
    rw [hevents]
    simp
  rw [hclosed] at heach hopen
  rw [openElements_append] at hopen
  obtain ⟨behind, hbehind, -⟩ := Option.bind_eq_some_iff.1 hopen
  have hpath := heach.left.pathAfter_eq hbehind
  rw [openElements_append] at hbehind
  obtain ⟨front, hfront, hstop⟩ := Option.bind_eq_some_iff.1 hbehind
  obtain rfl := hinside.openElements_element hstop
  exact ⟨pathOf behind, heach.left.left.pathAfter_eq hfront, hpath⟩

/-- The path of a well-formed document mirrors its open elements exactly if the
paths of its elements and attributes fit into the buffers. -/
theorem mirrors_iff_pathsFit (h : WellFormed events) :
    Mirrors events ↔ PathsFit [] events :=
  (mirrors_iff_mirrorsFrom h).trans (mirrorsFrom_iff h (by decide))

/-- A child with an attribute. -/
theorem mirrors_child :
    PathsFit [] [.start (ascii "a") [], .start (ascii "b") [(ascii "c", [])],
      .chars (ascii "d"), .stop (ascii "b"), .stop (ascii "a")] ∧
    Mirrors [.start (ascii "a") [], .start (ascii "b") [(ascii "c", [])],
      .chars (ascii "d"), .stop (ascii "b"), .stop (ascii "a")] :=
  ⟨by decide, (mirrors_iff_pathsFit (by decide)).2 (by decide)⟩

theorem wellFormed_element (name : Bytes) :
    WellFormed [.start name [], .stop name] :=
  openElements_stop_eq_some_iff.2 rfl

/-- A name of 511 bytes: the NUL of its path is stored behind the buffer. -/
theorem not_mirrors_511 :
    WellFormed [.start (List.replicate 511 'a'.toUInt8) [],
      .stop (List.replicate 511 'a'.toUInt8)] ∧
    ¬ Mirrors [.start (List.replicate 511 'a'.toUInt8) [],
      .stop (List.replicate 511 'a'.toUInt8)] := by
  have hformed := wellFormed_element (List.replicate 511 'a'.toUInt8)
  refine ⟨hformed, fun hmirrors => ?_⟩
  have hfits := (mirrorsFrom_iff hformed (by decide)).1 hmirrors.each
  have hlength : pathLength [List.replicate 511 'a'.toUInt8] = xpathMax := by
    rw [pathLength, List.length_replicate]
    rfl
  exact absurd hfits.1.1 (Nat.not_lt.2 (Nat.le_of_eq hlength.symm))

/-- The paths of a document fit if they fit as those of its content. -/
theorem PathsFit.contentEvents {c : Content} {room : Nat} (hc : Fits room c)
    (hroom : pathLength stack + room < xpathMax) (h : PathsFit stack events) :
    PathsFit stack (contentEvents c ++ events) := by
  induction c generalizing stack room events with
  | nil => exact h
  | text t rest ih =>
    rw [XmlTree.contentEvents, List.append_assoc]
    have hrest := ih hc hroom h
    induction t.pieces with
    | nil => exact hrest
    | cons piece pieces ihpieces => exact ihpieces
  | element name attrs inner rest ihinner ihrest =>
    obtain ⟨hname, hattrs, hinner, hrest⟩ := hc
    have hlength : pathLength (name.bytes :: stack)
        = pathLength stack + 1 + name.bytes.length := rfl
    rw [XmlTree.contentEvents, List.cons_append, List.append_assoc,
      List.cons_append]
    refine ⟨⟨by omega, ?_⟩, ?_⟩
    · rw [List.forall_mem_map]
      intro a ha
      have hle := hattrs a ha
      show pathLength (name.bytes :: stack) + 2 + a.1.bytes.length < xpathMax
      omega
    · exact ihinner hinner (by omega) (ihrest hrest hroom h)

/-- The documents whose tables are loaded have the paths of their elements. -/
theorem mirrors_contentEvents {c : Content} {room : Nat} (hc : Fits room c)
    (hroom : room < xpathMax) : Mirrors (contentEvents c) := by
  have hformed := openElements_contentEvents c []
  have hshort : pathLength [] + room < xpathMax := by
    rwa [pathLength, Nat.zero_add]
  have hfits : PathsFit [] (contentEvents c ++ []) :=
    PathsFit.contentEvents hc hshort trivial
  rw [List.append_nil] at hfits
  rw [mirrors_iff_mirrorsFrom hformed, mirrorsFrom_iff hformed (by decide)]
  exact hfits

end Event

end Libedi
