import Mathlib.Data.List.Basic

/-!
# Documents and handlers

The content of an XML document as a tree, and the calls of handlers that a
reader makes of it: one for each start and end of an element and one for each
piece of character data, all with the path of the element (`Content.calls`).

There are four groups of results.

* A handler that only looks at an element of one path and at what is inside of it
  can be run on these elements alone (`foldlM_calls`).
* The pieces of text at one path are those of the text nodes there
  (`calls_pieces`).
* The last piece of a text is the whole text exactly if it is the only one
  (`Delivered.last_eq_whole_iff`), and the pieces of some elements are a string
  for each of them exactly if each is one piece (`pieces_eq_joined_iff`).
* The document is the same for two ways to deliver it if they are the same with
  each text in one piece (`Content.inOne`).

The inside of an element is given as a list from its first node on, so that the
tree is an inductive type without lists of itself.
-/

namespace XmlTree

/-! ## Documents -/

/-- A name of an element or an attribute. -/
structure Name where
  bytes : List UInt8
  noSlash : '/'.toUInt8 ∉ bytes

/-- A text node, in the pieces in which it is delivered. -/
structure TextNode where
  pieces : List (List UInt8)
  nonempty : pieces ≠ []
  piece_nonempty : ∀ p ∈ pieces, p ≠ []

/-- What is in an element, from a node on. -/
inductive Content where
  | nil
  | text (t : TextNode) (rest : Content)
  | element (name : Name) (attrs : List (Name × List UInt8))
      (inner rest : Content)

/-- An element, its name apart. -/
structure Element where
  attrs : List (Name × List UInt8)
  inner : Content

/-- A string in the pieces in which it is delivered: an attribute in one, and a
text node in pieces that are not empty. -/
structure Delivered where
  pieces : List (List UInt8)
  nonempty : pieces ≠ []
  proper : pieces.length = 1 ∨ ∀ p ∈ pieces, p ≠ []

/-- The whole string. -/
def Delivered.whole (d : Delivered) : List UInt8 := d.pieces.flatten

def TextNode.delivered (t : TextNode) : Delivered :=
  ⟨t.pieces, t.nonempty, Or.inr t.piece_nonempty⟩

/-- An attribute. -/
def Delivered.single (value : List UInt8) : Delivered :=
  ⟨[value], by simp, Or.inl rfl⟩

/-! ## Events -/

/-- An event of a reader, before it keeps track of the path. -/
inductive XmlEvent where
  | start (name : List UInt8) (attrs : List (List UInt8 × List UInt8))
  | stop (name : List UInt8)
  | chars (s : List UInt8)
  deriving DecidableEq, Repr

/-- The events for the inside of an element. -/
def contentEvents : Content → List XmlEvent
  | .nil => []
  | .text t rest => t.pieces.map .chars ++ contentEvents rest
  | .element name attrs inner rest =>
    .start name.bytes (attrs.map fun a => (a.1.bytes, a.2)) ::
      (contentEvents inner ++ .stop name.bytes :: contentEvents rest)

/-- One content behind the other. -/
def Content.append : Content → Content → Content
  | nil, d => d
  | text t rest, d => text t (rest.append d)
  | element name attrs inner rest, d => element name attrs inner (rest.append d)

theorem contentEvents_append (c d : Content) :
    contentEvents (c.append d) = contentEvents c ++ contentEvents d := by
  induction c with
  | nil => rfl
  | text t rest ih => rw [Content.append, contentEvents, ih, contentEvents,
      List.append_assoc]
  | element name attrs inner rest _ ih =>
    rw [Content.append, contentEvents, ih, contentEvents]
    simp

/-! ## Calls -/

/-- A call of a handler. -/
inductive Call where
  | start (path : List UInt8)
  | stop (path : List UInt8)
  | data (path s : List UInt8)
  deriving DecidableEq, Repr

/-- The path of an element in another one. -/
def childPath (path name : List UInt8) : List UInt8 :=
  path ++ '/'.toUInt8 :: name

/-- The path of an attribute. -/
def attrPath (path name : List UInt8) : List UInt8 :=
  path ++ '/'.toUInt8 :: '@'.toUInt8 :: name

/-- The call for an attribute, by its name and its value. -/
def attrCall (path : List UInt8) (a : List UInt8 × List UInt8) : Call :=
  .data (attrPath path a.1) a.2

/-- The calls for attributes. -/
def attrCalls (path : List UInt8) (attrs : List (Name × List UInt8)) :
    List Call :=
  attrs.map fun a => .data (attrPath path a.1.bytes) a.2

theorem length_childPath (path name : List UInt8) :
    (childPath path name).length = path.length + 1 + name.length := by
  rw [childPath, List.length_append, List.length_cons]
  omega

theorem length_attrPath (path name : List UInt8) :
    (attrPath path name).length = path.length + 2 + name.length := by
  rw [attrPath, List.length_append, List.length_cons, List.length_cons]
  omega

theorem attrCalls_eq_map (path : List UInt8) (attrs : List (Name × List UInt8)) :
    attrCalls path attrs
      = (attrs.map fun a => (a.1.bytes, a.2)).map (attrCall path) := by
  rw [List.map_map]
  rfl

/-- The calls for the inside of an element. -/
def Content.calls (path : List UInt8) : Content → List Call
  | nil => []
  | text t rest => t.pieces.map (.data path) ++ rest.calls path
  | element name attrs inner rest =>
    let q := childPath path name.bytes
    .start q :: (attrCalls q attrs ++ inner.calls q ++ .stop q :: rest.calls path)

/-- The calls between the start and the end of an element. -/
def Element.inside (path : List UInt8) (e : Element) : List Call :=
  attrCalls path e.attrs ++ e.inner.calls path

/-- The calls for an element. -/
def Element.calls (path : List UInt8) (e : Element) : List Call :=
  .start path :: (e.inside path ++ [.stop path])

theorem Content.calls_element (path : List UInt8) (name : Name)
    (attrs : List (Name × List UInt8)) (inner rest : Content) :
    (Content.element name attrs inner rest).calls path
      = Element.calls (childPath path name.bytes) ⟨attrs, inner⟩ ++
        rest.calls path := by
  simp [Content.calls, Element.calls, Element.inside]

/-! ## Elements of one path -/

/-- The path is below another one. -/
def Below (base path : List UInt8) : Prop := base ++ ['/'.toUInt8] <+: path

instance (base path : List UInt8) : Decidable (Below base path) :=
  inferInstanceAs (Decidable (_ <+: _))

theorem Below.ne {base path : List UInt8} (h : Below base path) :
    path ≠ base := by
  rintro rfl
  have hle := h.length_le
  rw [List.length_append, List.length_singleton] at hle
  omega

theorem below_childPath_iff {base path name : List UInt8}
    (h : '/'.toUInt8 ∉ name) :
    Below base (childPath path name) ↔ path = base ∨ Below base path := by
  constructor
  · rintro ⟨behind, hbehind⟩
    rw [childPath, List.append_assoc, List.append_eq_append_iff] at hbehind
    rcases hbehind with ⟨as, rfl, hsplit⟩ | ⟨as, rfl, hsplit⟩
    · cases as with
      | nil => exact Or.inl (List.append_nil base)
      | cons a as =>
        obtain rfl := List.head_eq_of_cons_eq hsplit
        exact Or.inr ⟨as, by simp⟩
    · cases as with
      | nil => exact Or.inl (List.append_nil path).symm
      | cons a as =>
        have hname := List.tail_eq_of_cons_eq hsplit
        exact absurd (by rw [hname]; simp) h
  · rintro (rfl | ⟨behind, rfl⟩)
    · exact ⟨name, by simp [childPath]⟩
    · exact ⟨behind ++ '/'.toUInt8 :: name, by simp [childPath]⟩

/-- The name is what is behind the last slash. -/
theorem childPath_injective {p q a b : List UInt8} (ha : '/'.toUInt8 ∉ a)
    (hb : '/'.toUInt8 ∉ b) (h : childPath p a = childPath q b) : a = b := by
  rw [childPath, childPath, List.append_eq_append_iff] at h
  rcases h with ⟨as, rfl, hsplit⟩ | ⟨as, rfl, hsplit⟩
  · cases as with
    | nil => exact List.tail_eq_of_cons_eq hsplit
    | cons c as =>
      rw [List.tail_eq_of_cons_eq hsplit] at ha
      exact absurd (by simp) ha
  · cases as with
    | nil => exact (List.tail_eq_of_cons_eq hsplit).symm
    | cons c as =>
      rw [List.tail_eq_of_cons_eq hsplit] at hb
      exact absurd (by simp) hb

/-- The calls that are about an element of this path. -/
def Relevant (base : List UInt8) : Call → Prop
  | .start path | .stop path => path = base ∨ Below base path
  | .data path _ => Below base path

/-- The elements of a path. -/
def Content.elementsAt (base path : List UInt8) : Content → List Element
  | nil => []
  | text _ rest => rest.elementsAt base path
  | element name attrs inner rest =>
    let q := childPath path name.bytes
    if q = base then ⟨attrs, inner⟩ :: rest.elementsAt base path
    else inner.elementsAt base q ++ rest.elementsAt base path

section Fold

variable {S : Type*} {step : S → Call → Option S} {base : List UInt8}

/-- Calls that are ignored. -/
theorem foldlM_irrelevant
    (hignore : ∀ s call, ¬ Relevant base call → step s call = some s) (s : S) :
    ∀ calls : List Call, (∀ call ∈ calls, ¬ Relevant base call) →
      calls.foldlM step s = some s
  | [], _ => rfl
  | call :: calls, h => by
    rw [List.forall_mem_cons] at h
    rw [List.foldlM_cons, hignore s call h.1]
    exact foldlM_irrelevant hignore s calls h.2

/-- A run over an element. -/
theorem Element.foldlM_calls (e : Element) (q : List UInt8) (s : S) :
    (e.calls q).foldlM step s = (step s (.start q)).bind fun s =>
      ((e.inside q).foldlM step s).bind fun s => step s (.stop q) := by
  rw [Element.calls, List.foldlM_cons]
  refine congrArg _ (funext fun s => ?_)
  rw [List.foldlM_append]
  refine congrArg _ (funext fun s => ?_)
  rw [List.foldlM_cons]
  exact Option.bind_fun_some _

/-- An element of another path is no more than its inside. -/
theorem foldlM_element
    (hignore : ∀ s call, ¬ Relevant base call → step s call = some s)
    {q : List UInt8} (hq : ¬ (q = base ∨ Below base q)) (e : Element) (s : S) :
    (e.calls q).foldlM step s = (e.inner.calls q).foldlM step s := by
  have hstart : step s (.start q) = some s := hignore s _ hq
  have hstop : ∀ s, step s (.stop q) = some s := fun s => hignore s _ hq
  have hattrs : (attrCalls q e.attrs).foldlM step s = some s := by
    refine foldlM_irrelevant hignore s _ ?_
    rw [attrCalls, List.forall_mem_map]
    intro a _
    have hslash : '/'.toUInt8 ∉ '@'.toUInt8 :: a.1.bytes := by
      rw [List.mem_cons, not_or]
      exact ⟨by decide, a.1.noSlash⟩
    show ¬ Below base (childPath _ _)
    rw [below_childPath_iff hslash]
    exact hq
  simp [Element.calls, Element.inside, hstart, hstop, hattrs]

/-- A handler that only looks at elements of one path runs on them alone. -/
theorem foldlM_calls
    (hignore : ∀ s call, ¬ Relevant base call → step s call = some s)
    (c : Content) (path : List UInt8) (hpath : ¬ (path = base ∨ Below base path))
    (s : S) :
    (c.calls path).foldlM step s
      = (c.elementsAt base path).foldlM
        (fun s e => (e.calls base).foldlM step s) s := by
  induction c generalizing path s with
  | nil => rfl
  | text t rest ih =>
    have hpieces : (t.pieces.map (Call.data path)).foldlM step s = some s := by
      refine foldlM_irrelevant hignore s _ ?_
      rw [List.forall_mem_map]
      exact fun _ _ hbelow => hpath (Or.inr hbelow)
    rw [Content.calls, List.foldlM_append, hpieces]
    exact ih path hpath s
  | element name attrs inner rest ihinner ihrest =>
    have hrest : ∀ s, (rest.calls path).foldlM step s
        = (rest.elementsAt base path).foldlM
          (fun s e => (e.calls base).foldlM step s) s := ihrest path hpath
    rw [Content.calls_element, Content.elementsAt, List.foldlM_append]
    by_cases hq : childPath path name.bytes = base
    · rw [if_pos hq, hq, List.foldlM_cons]
      exact congrArg _ (funext hrest)
    · have hbelow : ¬ Below base (childPath path name.bytes) := by
        rw [below_childPath_iff name.noSlash]
        exact hpath
      rw [if_neg hq, List.foldlM_append,
        foldlM_element hignore (not_or.2 ⟨hq, hbelow⟩),
        ihinner _ (not_or.2 ⟨hq, hbelow⟩)]
      exact congrArg _ (funext hrest)

end Fold

/-! ## Texts of one path -/

/-- The path that a call is about. -/
def Call.path : Call → List UInt8
  | .start path | .stop path | .data path _ => path

theorem below_childPath (path name : List UInt8) :
    Below path (childPath path name) :=
  ⟨name, by simp [childPath]⟩

theorem Below.trans {a b c : List UInt8} (hab : Below a b) (hbc : Below b c) :
    Below a c :=
  List.IsPrefix.trans hab ((List.prefix_append _ _).trans hbc)

theorem attrCalls_below (path : List UInt8) (attrs : List (Name × List UInt8)) :
    ∀ call ∈ attrCalls path attrs, Below path call.path := by
  rw [attrCalls, List.forall_mem_map]
  exact fun a _ => below_childPath path ('@'.toUInt8 :: a.1.bytes)

/-- What is called inside an element is below it, but for its own text. -/
theorem Content.calls_below (c : Content) (path : List UInt8) :
    ∀ call ∈ c.calls path,
      Below path call.path ∨ ∃ s, call = .data path s := by
  induction c generalizing path with
  | nil => exact fun _ hcall => absurd hcall List.not_mem_nil
  | text t rest ih =>
    rw [Content.calls, List.forall_mem_append, List.forall_mem_map]
    exact ⟨fun s _ => Or.inr ⟨s, rfl⟩, ih path⟩
  | element name attrs inner rest ihinner ihrest =>
    have hq := below_childPath path name.bytes
    rw [Content.calls, List.forall_mem_cons, List.forall_mem_append,
      List.forall_mem_append, List.forall_mem_cons]
    refine ⟨Or.inl hq, ⟨fun call hcall => ?_, fun call hcall => ?_⟩,
      Or.inl hq, ihrest path⟩
    · exact Or.inl (hq.trans (attrCalls_below _ attrs call hcall))
    · rcases ihinner _ call hcall with hbelow | ⟨s, rfl⟩
      · exact Or.inl (hq.trans hbelow)
      · exact Or.inl hq

theorem Element.inside_below (e : Element) (path : List UInt8) :
    ∀ call ∈ e.inside path, Below path call.path ∨ ∃ s, call = .data path s := by
  rw [Element.inside, List.forall_mem_append]
  exact ⟨fun call hcall => Or.inl (attrCalls_below path e.attrs call hcall),
    e.inner.calls_below path⟩

/-- An element that starts or stops inside of another one is not that one. -/
theorem start_ne {base path : List UInt8}
    (h : Below base (Call.start path).path ∨
      ∃ s, Call.start path = .data base s) : path ≠ base := by
  rcases h with hbelow | ⟨s, hs⟩
  · exact hbelow.ne
  · cases hs

theorem stop_ne {base path : List UInt8}
    (h : Below base (Call.stop path).path ∨ ∃ s, Call.stop path = .data base s) :
    path ≠ base := by
  rcases h with hbelow | ⟨s, hs⟩
  · exact hbelow.ne
  · cases hs

/-- The attributes of this path. -/
def attrTexts (target path : List UInt8) (attrs : List (Name × List UInt8)) :
    List Delivered :=
  (attrs.filter fun a => attrPath path a.1.bytes = target).map fun a =>
    .single a.2

/-- The texts of this path. -/
def Content.textsAt (target path : List UInt8) : Content → List Delivered
  | nil => []
  | text t rest =>
    (if path = target then [t.delivered] else []) ++ rest.textsAt target path
  | element name attrs inner rest =>
    let q := childPath path name.bytes
    attrTexts target q attrs ++ inner.textsAt target q ++
      rest.textsAt target path

/-- The texts of this path in an element. -/
def Element.textsAt (target path : List UInt8) (e : Element) : List Delivered :=
  attrTexts target path e.attrs ++ e.inner.textsAt target path

theorem attrTexts_eq_nil {target : List UInt8}
    (htarget : ∀ q (name : Name), attrPath q name.bytes ≠ target)
    (path : List UInt8) (attrs : List (Name × List UInt8)) :
    attrTexts target path attrs = [] := by
  rw [attrTexts, List.map_eq_nil_iff, List.filter_eq_nil_iff]
  intro a _
  simpa using htarget path a.1

/-- The texts of a path are those of its elements, if it is not that of an
attribute. -/
theorem Content.textsAt_eq_flatMap {target : List UInt8}
    (htarget : ∀ q (name : Name), attrPath q name.bytes ≠ target) (c : Content)
    {path : List UInt8} (hpath : path ≠ target) :
    c.textsAt target path
      = (c.elementsAt target path).flatMap (Element.textsAt target target) := by
  induction c generalizing path with
  | nil => rfl
  | text t rest ih =>
    rw [Content.textsAt, if_neg hpath, List.nil_append, ih hpath,
      Content.elementsAt]
  | element name attrs inner rest ihinner ihrest =>
    rw [Content.textsAt, Content.elementsAt, ihrest hpath]
    by_cases hq : childPath path name.bytes = target
    · rw [if_pos hq, hq, List.flatMap_cons, Element.textsAt]
    · rw [if_neg hq, List.flatMap_append, attrTexts_eq_nil htarget,
        List.nil_append, ihinner hq]

/-- The texts of a path that is not that of an attribute have no empty pieces. -/
theorem Content.piece_nonempty {target : List UInt8}
    (htarget : ∀ q (name : Name), attrPath q name.bytes ≠ target) (c : Content)
    (path : List UInt8) :
    ∀ d ∈ c.textsAt target path, ∀ p ∈ d.pieces, p ≠ [] := by
  induction c generalizing path with
  | nil => exact fun _ hd => absurd hd List.not_mem_nil
  | text t rest ih =>
    rw [Content.textsAt, List.forall_mem_append]
    refine ⟨fun d hd => ?_, ih path⟩
    split_ifs at hd
    · rw [List.mem_singleton.1 hd]
      exact t.piece_nonempty
    · exact absurd hd List.not_mem_nil
  | element name attrs inner rest ihinner ihrest =>
    rw [Content.textsAt, attrTexts_eq_nil htarget, List.nil_append,
      List.forall_mem_append]
    exact ⟨ihinner _, ihrest path⟩

theorem Content.append_elementsAt (base path : List UInt8) (c d : Content) :
    (c.append d).elementsAt base path
      = c.elementsAt base path ++ d.elementsAt base path := by
  induction c with
  | nil => rfl
  | text t rest ih => exact ih
  | element name attrs inner rest _ ih =>
    rw [Content.append, Content.elementsAt, ih, Content.elementsAt]
    split_ifs
    · rfl
    · rw [List.append_assoc]

theorem Content.append_textsAt (target path : List UInt8) (c d : Content) :
    (c.append d).textsAt target path
      = c.textsAt target path ++ d.textsAt target path := by
  induction c with
  | nil => rfl
  | text t rest ih =>
    rw [Content.append, Content.textsAt, ih, Content.textsAt, List.append_assoc]
  | element name attrs inner rest _ ih =>
    rw [Content.append, Content.textsAt, ih, Content.textsAt]
    exact (List.append_assoc _ _ _).symm

/-- The pieces of text for this path. -/
def piecesAt (target : List UInt8) (calls : List Call) : List (List UInt8) :=
  calls.filterMap fun
    | .data path s => if path = target then some s else none
    | _ => none

theorem piecesAt_append (target : List UInt8) (before behind : List Call) :
    piecesAt target (before ++ behind)
      = piecesAt target before ++ piecesAt target behind :=
  List.filterMap_append

@[simp] theorem piecesAt_start (target path : List UInt8) (calls : List Call) :
    piecesAt target (.start path :: calls) = piecesAt target calls := rfl

@[simp] theorem piecesAt_stop (target path : List UInt8) (calls : List Call) :
    piecesAt target (.stop path :: calls) = piecesAt target calls := rfl

theorem piecesAt_data (target path s : List UInt8) (calls : List Call) :
    piecesAt target (.data path s :: calls)
      = if path = target then s :: piecesAt target calls
        else piecesAt target calls := by
  by_cases hpath : path = target
  · simp [piecesAt, hpath]
  · simp [piecesAt, hpath]

theorem attrCalls_pieces (target path : List UInt8)
    (attrs : List (Name × List UInt8)) :
    piecesAt target (attrCalls path attrs)
      = (attrTexts target path attrs).flatMap (·.pieces) := by
  induction attrs with
  | nil => rfl
  | cons a attrs ih =>
    unfold piecesAt attrCalls attrTexts at ih ⊢
    rw [List.map_cons, List.filterMap_cons, ih, List.filter_cons]
    by_cases hpath : attrPath path a.1.bytes = target
    · simp [hpath, Delivered.single]
    · simp [hpath]

theorem Content.calls_pieces (target : List UInt8) (c : Content)
    (path : List UInt8) :
    piecesAt target (c.calls path)
      = (c.textsAt target path).flatMap (·.pieces) := by
  induction c generalizing path with
  | nil => rfl
  | text t rest ih =>
    rw [Content.calls, piecesAt_append, ih, Content.textsAt,
      List.flatMap_append]
    refine congrArg (· ++ _) ?_
    by_cases hpath : path = target
    · simp [piecesAt, hpath, TextNode.delivered]
    · simp [piecesAt, hpath]
  | element name attrs inner rest ihinner ihrest =>
    rw [Content.calls, piecesAt_start, piecesAt_append, piecesAt_append,
      piecesAt_stop, attrCalls_pieces, ihinner, ihrest, Content.textsAt,
      List.flatMap_append, List.flatMap_append]

theorem Element.inside_pieces (target path : List UInt8) (e : Element) :
    piecesAt target (e.inside path)
      = (e.textsAt target path).flatMap (·.pieces) := by
  rw [Element.inside, piecesAt_append, attrCalls_pieces, Content.calls_pieces,
    Element.textsAt, List.flatMap_append]

/-! ## Texts in one piece -/

/-- The last piece of a string. -/
def Delivered.last (d : Delivered) : List UInt8 := d.pieces.getLast d.nonempty

theorem Delivered.pieces_of_length {d : Delivered} (h : d.pieces.length = 1) :
    d.pieces = [d.whole] := by
  obtain ⟨p, hp⟩ := List.length_eq_one_iff.1 h
  simp [Delivered.whole, hp]

/-- The last piece is the whole string only if there is no other one. -/
theorem Delivered.last_eq_whole_iff (d : Delivered) :
    d.last = d.whole ↔ d.pieces.length = 1 := by
  constructor
  · intro heq
    rcases d.proper with hone | hpieces
    · exact hone
    have hsplit := List.dropLast_append_getLast d.nonempty
    have hwhole : d.whole = d.pieces.dropLast.flatten ++ d.last := by
      rw [Delivered.whole, Delivered.last]
      nth_rewrite 1 [← hsplit]
      rw [List.flatten_append, List.flatten_singleton]
    rw [hwhole, eq_comm, List.append_left_eq_self, List.flatten_eq_nil_iff]
      at heq
    have hnil : d.pieces.dropLast = [] := by
      rw [List.eq_nil_iff_forall_not_mem]
      intro p hp
      exact hpieces p (List.dropLast_subset _ hp) (heq p hp)
    rw [← hsplit, hnil]
    rfl
  · intro hone
    rw [Delivered.last]
    simp [Delivered.pieces_of_length hone]

theorem getLast?_pieces (ds : List Delivered) :
    (ds.flatMap (·.pieces)).getLast? = ds.getLast?.map Delivered.last := by
  rcases List.eq_nil_or_concat ds with rfl | ⟨ds, d, rfl⟩
  · rfl
  · rw [List.concat_eq_append, List.flatMap_append, List.getLast?_append,
      List.flatMap_singleton, List.getLast?_eq_getLast_of_ne_nil d.nonempty]
    simp [Delivered.last]

/-- The text of some text nodes, one behind the other. -/
def joined (ds : List Delivered) : List UInt8 := ds.flatMap Delivered.whole

theorem joined_eq_flatten (ds : List Delivered) :
    joined ds = (ds.flatMap (·.pieces)).flatten := by
  induction ds with
  | nil => rfl
  | cons d ds ih =>
    rw [List.flatMap_cons, List.flatten_append, ← ih]
    rfl

/-- The pieces are one if there is one string in one piece. -/
theorem eq_singleton_of_pieces {ds : List Delivered} {p : List UInt8}
    (h : ds.flatMap (·.pieces) = [p]) :
    ∃ d, ds = [d] ∧ d.pieces.length = 1 := by
  cases ds with
  | nil => exact absurd h (List.cons_ne_nil p []).symm
  | cons d ds =>
    rw [List.flatMap_cons, List.append_eq_singleton_iff] at h
    rcases h with ⟨hd, -⟩ | ⟨hd, hds⟩
    · exact absurd hd d.nonempty
    · rw [List.flatMap_eq_nil_iff] at hds
      have hnil : ds = [] := by
        rw [List.eq_nil_iff_forall_not_mem]
        exact fun d' hd' => d'.nonempty (hds d' hd')
      exact ⟨d, by rw [hnil], by rw [hd, List.length_singleton]⟩

section Joined

variable {ι : Type*} {texts : ι → List Delivered}

/-- Each element makes one string of its pieces exactly if it has one piece. -/
theorem pieces_eq_joined_iff : ∀ {es : List ι},
    (∀ e ∈ es, ∀ d ∈ texts e, ∀ p ∈ d.pieces, p ≠ []) →
    (es.flatMap (fun e => (texts e).flatMap (·.pieces))
        = es.map (fun e => joined (texts e)) ↔
      ∀ e ∈ es, ∃ d, texts e = [d] ∧ d.pieces.length = 1)
  | [], _ => by simp
  | e :: es, hpieces => by
    rw [List.forall_mem_cons] at hpieces
    obtain ⟨he, hes⟩ := hpieces
    rw [List.flatMap_cons, List.map_cons, List.forall_mem_cons,
      ← pieces_eq_joined_iff hes]
    constructor
    · intro heq
      cases hfirst : (texts e).flatMap (·.pieces) with
      | nil =>
        -- the first piece of another element is not empty
        rw [joined_eq_flatten, hfirst, List.nil_append] at heq
        have hmem : [] ∈ es.flatMap fun e => (texts e).flatMap (·.pieces) := by
          rw [heq]
          exact List.mem_cons_self
        obtain ⟨e', he', hmem⟩ := List.mem_flatMap.1 hmem
        obtain ⟨d, hd, hp⟩ := List.mem_flatMap.1 hmem
        exact absurd rfl (hes e' he' d hd _ hp)
      | cons p ps =>
        rw [joined_eq_flatten, hfirst, List.flatten_cons] at heq
        have hp := List.head_eq_of_cons_eq heq
        have hnil : ps = [] := by
          rw [List.eq_nil_iff_forall_not_mem]
          intro q hq
          have hmem : q ∈ (texts e).flatMap (·.pieces) := by
            rw [hfirst]
            exact List.mem_cons_of_mem p hq
          obtain ⟨d, hd, hq'⟩ := List.mem_flatMap.1 hmem
          exact he d hd q hq'
            (List.flatten_eq_nil_iff.1 (List.self_eq_append_right.1 hp) q hq)
        rw [hnil] at hfirst heq
        exact ⟨eq_singleton_of_pieces hfirst, List.tail_eq_of_cons_eq heq⟩
    · rintro ⟨⟨d, hd, hone⟩, hrest⟩
      rw [hrest, hd, List.flatMap_singleton, Delivered.pieces_of_length hone]
      simp [joined]

/-- No element can be left out, and the others have one piece each. -/
theorem pieces_eq_joined_append_iff {lost es : List ι}
    (hpieces : ∀ e ∈ es, ∀ d ∈ texts e, ∀ p ∈ d.pieces, p ≠ []) :
    es.flatMap (fun e => (texts e).flatMap (·.pieces))
        = (lost ++ es).map (fun e => joined (texts e)) ↔
      lost = [] ∧ ∀ e ∈ es, ∃ d, texts e = [d] ∧ d.pieces.length = 1 := by
  rw [← pieces_eq_joined_iff hpieces]
  constructor
  · intro heq
    have hbytes := congrArg List.flatten heq
    have hall : (es.flatMap fun e => (texts e).flatMap (·.pieces)).flatten
        = (es.map fun e => joined (texts e)).flatten := by
      clear heq hbytes hpieces
      induction es with
      | nil => rfl
      | cons e es ih =>
        rw [List.flatMap_cons, List.flatten_append, ih, List.map_cons,
          List.flatten_cons, joined_eq_flatten]
    rw [hall, List.map_append, List.flatten_append, List.self_eq_append_left,
      List.flatten_eq_nil_iff] at hbytes
    have hnil : lost = [] := by
      rw [List.eq_nil_iff_forall_not_mem]
      intro e he
      -- an element that is left out would have to be an empty piece
      have hmem : joined (texts e) ∈ lost.map fun e => joined (texts e) :=
        List.mem_map_of_mem he
      have hpiece : joined (texts e) ∈
          es.flatMap fun e => (texts e).flatMap (·.pieces) := by
        rw [heq, List.map_append]
        exact List.mem_append_left _ hmem
      obtain ⟨e', he', hpiece⟩ := List.mem_flatMap.1 hpiece
      obtain ⟨d, hd, hp⟩ := List.mem_flatMap.1 hpiece
      exact hpieces e' he' d hd _ hp (hbytes _ hmem)
    rw [hnil] at heq
    exact ⟨hnil, heq⟩
  · rintro ⟨rfl, heq⟩
    exact heq

end Joined

/-! ## The document -/

/-- A string in one piece. -/
def Delivered.inOne (d : Delivered) : Delivered := .single d.whole

@[simp] theorem Delivered.inOne_whole (d : Delivered) :
    d.inOne.whole = d.whole := by
  simp [Delivered.inOne, Delivered.single, Delivered.whole]

@[simp] theorem Delivered.inOne_single (value : List UInt8) :
    (Delivered.single value).inOne = .single value := by
  simp [Delivered.inOne, Delivered.single, Delivered.whole]

/-- A text node in one piece. -/
def TextNode.inOne (t : TextNode) : TextNode where
  pieces := [t.pieces.flatten]
  nonempty := List.cons_ne_nil _ _
  piece_nonempty := by
    obtain ⟨p, ps, hps⟩ := List.exists_cons_of_ne_nil t.nonempty
    have hp := t.piece_nonempty p (by rw [hps]; exact List.mem_cons_self)
    simp [hps, hp]

theorem TextNode.inOne_delivered (t : TextNode) :
    t.inOne.delivered = t.delivered.inOne := rfl

/-- The document with each text node in one piece.  Two ways to deliver a document
are those with the same one. -/
def Content.inOne : Content → Content
  | nil => nil
  | text t rest => text t.inOne rest.inOne
  | element name attrs inner rest => element name attrs inner.inOne rest.inOne

def Element.inOne (e : Element) : Element := ⟨e.attrs, e.inner.inOne⟩

theorem Content.inOne_elementsAt (base : List UInt8) (c : Content)
    (path : List UInt8) :
    c.inOne.elementsAt base path = (c.elementsAt base path).map Element.inOne := by
  induction c generalizing path with
  | nil => rfl
  | text t rest ih => exact ih path
  | element name attrs inner rest ihinner ihrest =>
    rw [Content.inOne, Content.elementsAt, Content.elementsAt, ihinner, ihrest]
    split_ifs
    · rfl
    · rw [List.map_append]

theorem attrTexts_inOne (target path : List UInt8)
    (attrs : List (Name × List UInt8)) :
    (attrTexts target path attrs).map Delivered.inOne
      = attrTexts target path attrs := by
  simp [attrTexts]

theorem Content.inOne_textsAt (target : List UInt8) (c : Content)
    (path : List UInt8) :
    c.inOne.textsAt target path
      = (c.textsAt target path).map Delivered.inOne := by
  induction c generalizing path with
  | nil => rfl
  | text t rest ih =>
    rw [Content.inOne, Content.textsAt, Content.textsAt, ih, List.map_append,
      TextNode.inOne_delivered]
    split_ifs <;> rfl
  | element name attrs inner rest ihinner ihrest =>
    rw [Content.inOne, Content.textsAt, Content.textsAt, ihinner, ihrest,
      List.map_append, List.map_append, attrTexts_inOne]

theorem Element.inOne_textsAt (target path : List UInt8) (e : Element) :
    e.inOne.textsAt target path = (e.textsAt target path).map Delivered.inOne := by
  rw [Element.textsAt, Element.textsAt, List.map_append, attrTexts_inOne]
  exact congrArg _ (e.inner.inOne_textsAt target path)

theorem joined_inOne (ds : List Delivered) :
    joined (ds.map Delivered.inOne) = joined ds := by
  simp [joined, List.flatMap_map]

end XmlTree
