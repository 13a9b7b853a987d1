import Libedi.Lib.Tags
import Libedi.Lib.XmlTree

/-!
# The open elements

The names of the elements that are open behind some events, the innermost first,
and the path that they make.  Names may be any strings.
-/

namespace XmlTree

open Tags

/-- The tag of an event, if it is the start or the end of an element. -/
def XmlEvent.tags : XmlEvent → List (Tag (List UInt8))
  | start name _ => [.opening name]
  | stop name => [.closing name]
  | chars _ => []

/-- The open elements behind some events, `none` if one of them is the end of an
element that is not the innermost one. -/
def openElements (stack : List (List UInt8)) (events : List XmlEvent) :
    Option (List (List UInt8)) :=
  run stack (events.flatMap XmlEvent.tags)

/-- Each end is that of the innermost element, and no element stays open. -/
def WellFormed (events : List XmlEvent) : Prop := openElements [] events = some []

instance (events : List XmlEvent) : Decidable (WellFormed events) :=
  inferInstanceAs (Decidable (_ = _))

/-- A slash and the name of each open element, from the outermost one on. -/
def pathOf (stack : List (List UInt8)) : List UInt8 :=
  stack.reverse.flatMap ('/'.toUInt8 :: ·)

/-- Its length. -/
def pathLength : List (List UInt8) → Nat
  | [] => 0
  | name :: stack => pathLength stack + 1 + name.length

variable {stack stack' : List (List UInt8)} {e : XmlEvent}
  {events before after : List XmlEvent}

theorem pathOf_cons (name : List UInt8) (stack : List (List UInt8)) :
    pathOf (name :: stack) = childPath (pathOf stack) name := by
  rw [pathOf, List.reverse_cons, List.flatMap_append, List.flatMap_singleton]
  rfl

theorem length_pathOf (stack : List (List UInt8)) :
    (pathOf stack).length = pathLength stack := by
  induction stack with
  | nil => rfl
  | cons name stack ih => rw [pathOf_cons, length_childPath, ih, pathLength]

theorem openElements_append (stack : List (List UInt8))
    (before after : List XmlEvent) :
    openElements stack (before ++ after)
      = (openElements stack before).bind (openElements · after) := by
  rw [openElements, List.flatMap_append, run_append]
  rfl

theorem openElements_cons (stack : List (List UInt8)) (e : XmlEvent)
    (events : List XmlEvent) :
    openElements stack (e :: events)
      = (openElements stack [e]).bind (openElements · events) :=
  openElements_append stack [e] events

/-- The only end that there can be is that of the innermost element. -/
theorem openElements_stop_eq_some_iff {name : List UInt8} :
    openElements stack [.stop name] = some stack' ↔ stack = name :: stack' := by
  cases stack with
  | nil => simp [openElements, XmlEvent.tags, run]
  | cons top stack =>
    by_cases htop : top = name <;>
      simp [openElements, XmlEvent.tags, run, htop]

/-- What is between the start and the end of an element is well formed, and
leaves the elements open that were open in front of it. -/
theorem WellFormed.openElements_element (h : WellFormed events)
    {name name' : List UInt8} {attrs : List (List UInt8 × List UInt8)}
    (hstop : openElements stack (.start name attrs :: (events ++ [.stop name']))
      = some stack') : stack' = stack := by
  have hinside : openElements (name :: stack) events = some (name :: stack) :=
    Nested.run_eq h (name :: stack)
  have hstart : openElements stack [.start name attrs] = some (name :: stack) := rfl
  rw [openElements_cons, hstart, Option.bind_some, openElements_append, hinside,
    Option.bind_some, openElements_stop_eq_some_iff] at hstop
  exact (List.cons.inj hstop).2.symm

theorem openElements_chars (stack : List (List UInt8))
    (pieces : List (List UInt8)) :
    openElements stack (pieces.map .chars) = some stack := by
  induction pieces with
  | nil => rfl
  | cons piece pieces ih => exact ih

/-- The events of a document are well formed. -/
theorem openElements_contentEvents (c : Content) (stack : List (List UInt8)) :
    openElements stack (contentEvents c) = some stack := by
  induction c generalizing stack with
  | nil => rfl
  | text t rest ih =>
    rw [contentEvents, openElements_append, openElements_chars, Option.bind_some,
      ih]
  | element name attrs inner rest ihinner ihrest =>
    rw [contentEvents, openElements_cons]
    show (openElements (name.bytes :: stack) _) = _
    rw [openElements_append, ihinner, Option.bind_some, openElements_cons,
      openElements_stop_eq_some_iff.2 rfl, Option.bind_some, ihrest]

end XmlTree
