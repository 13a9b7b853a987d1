import Libedi.StructLoader

/-!
# What is loaded

The tables that `struct_loader.c` makes of a document, entry by entry.

The handlers see a path and a piece of text at a time.  `segmentTable` says what
they make of it in terms of the elements of the document: a slot for each entry,
for each string of the slot the last text that is there for it, and for the
children the texts in the last `children` element.  Both are given by a
`Reading`: how a text that was delivered in pieces is taken.

* `handlerCalls_contentEvents`: the path is that of the element.
* `loadSegments_contentEvents`, `loadElements_contentEvents`,
  `loadCodes_contentEvents`: what is loaded.
-/

namespace Libedi

open XmlTree

/-! ## The path -/

theorem pathCat_eq_some_iff {path s r : Bytes} :
    pathCat path s = some r ↔
      path.length + s.length < xpathMax ∧ path ++ s = r := by
  have hlength : (path ++ s.take xpathMax).length < xpathMax ↔
      path.length + s.length < xpathMax := by
    rw [List.length_append, List.length_take]
    omega
  unfold pathCat
  dsimp only
  by_cases hlt : path.length + s.length < xpathMax
  · have htake : s.take xpathMax = s := List.take_of_length_le (by omega)
    rw [if_pos (hlength.2 hlt), htake, Option.some_inj, and_iff_right hlt]
  · rw [if_neg (mt hlength.1 hlt)]
    simp [hlt]

/-- Two calls of `strncat` in a row. -/
theorem bind_pathCat_eq_some_iff {α : Type*} {path s name : Bytes}
    {f : Bytes → Option α} {r : α} :
    ((pathCat path s).bind fun p => (pathCat p name).bind f) = some r ↔
      path.length + s.length + name.length < xpathMax ∧
        f (path ++ s ++ name) = some r := by
  constructor
  · intro h
    obtain ⟨p, hp, h⟩ := Option.bind_eq_some_iff.1 h
    obtain ⟨q, hq, h⟩ := Option.bind_eq_some_iff.1 h
    obtain ⟨-, rfl⟩ := pathCat_eq_some_iff.1 hp
    obtain ⟨hroom, rfl⟩ := pathCat_eq_some_iff.1 hq
    rw [List.length_append] at hroom
    exact ⟨hroom, h⟩
  · rintro ⟨hroom, h⟩
    have hs : pathCat path s = some (path ++ s) :=
      pathCat_eq_some_iff.2 ⟨by omega, rfl⟩
    have hname : pathCat (path ++ s) name = some (path ++ s ++ name) :=
      pathCat_eq_some_iff.2 ⟨by rwa [List.length_append], rfl⟩
    rw [hs, Option.bind_some, hname, Option.bind_some, h]

/-- An attribute has the path of its element, `/@` and its name. -/
theorem attrsCalls_eq_some_iff {path : Bytes} {attrs : List (Bytes × Bytes)} :
    ∀ {calls : List Call}, attrsCalls path attrs = some calls ↔
      (∀ a ∈ attrs, path.length + 2 + a.1.length < xpathMax) ∧
        attrs.map (attrCall path) = calls := by
  induction attrs with
  | nil => simp [attrsCalls]
  | cons a attrs ih =>
    intro calls
    have hat : (ascii "/@").length = 2 := by decide
    have hpath : path ++ ascii "/@" ++ a.1 = attrPath path a.1 := by
      simp [attrPath, ascii]
    rw [attrsCalls, bind_pathCat_eq_some_iff, hat, hpath, Option.map_eq_some_iff,
      List.forall_mem_cons, List.map_cons]
    constructor
    · rintro ⟨hroom, more, hmore, rfl⟩
      obtain ⟨hattrs, rfl⟩ := ih.1 hmore
      exact ⟨⟨hroom, hattrs⟩, rfl⟩
    · rintro ⟨⟨hroom, hattrs⟩, rfl⟩
      exact ⟨hroom, _, ih.2 ⟨hattrs, rfl⟩, rfl⟩

/-- The start of an element prolongs the path by `/` and its name. -/
theorem startElement_eq_some_iff {path name : Bytes}
    {attrs : List (Bytes × Bytes)} {r : Bytes × List Call} :
    startElement path name attrs = some r ↔
      (path.length + 1 + name.length < xpathMax ∧
        ∀ a ∈ attrs, path.length + 1 + name.length + 2 + a.1.length < xpathMax) ∧
      (childPath path name, .start (childPath path name) ::
        attrs.map (attrCall (childPath path name))) = r := by
  have hslash : (ascii "/").length = 1 := by decide
  have hpath : path ++ ascii "/" ++ name = childPath path name := by
    simp [childPath, ascii]
  rw [startElement, bind_pathCat_eq_some_iff, hslash, hpath, Option.map_eq_some_iff,
    ← length_childPath]
  constructor
  · rintro ⟨hroom, calls, hcalls, rfl⟩
    obtain ⟨hattrs, rfl⟩ := attrsCalls_eq_some_iff.1 hcalls
    exact ⟨⟨hroom, hattrs⟩, rfl⟩
  · rintro ⟨⟨hroom, hattrs⟩, rfl⟩
    exact ⟨hroom, _, attrsCalls_eq_some_iff.2 ⟨hattrs, rfl⟩, rfl⟩

/-- The end of an element cuts the path back to what it was. -/
theorem endElement_childPath (path name : Bytes) :
    endElement (childPath path name) name
      = some (path, [.stop (childPath path name)]) := by
  have hlength := length_childPath path name
  have hcut : path.length + 1 + name.length - name.length - 1 = path.length := by
    omega
  rw [endElement, if_pos (by omega), hlength, hcut, childPath, List.take_left]

theorem handlerCalls_chars (path : Bytes) (pieces : List Bytes)
    (events : List XmlEvent) :
    handlerCalls path (pieces.map .chars ++ events)
      = (handlerCalls path events).map (pieces.map (.data path) ++ ·) := by
  induction pieces with
  | nil => simp
  | cons p pieces ih =>
    rw [List.map_cons, List.cons_append, handlerCalls, eventCalls,
      Option.bind_some, characterData, ih, Option.map_map]
    rfl

/-- The calls of the handlers are made with the path of the element. -/
theorem handlerCalls_contentEvents (c : Content) :
    ∀ {path : Bytes} {events : List XmlEvent} {calls : List Call},
      handlerCalls path (contentEvents c ++ events) = some calls →
      ∃ behind, handlerCalls path events = some behind ∧
        calls = c.calls path ++ behind := by
  induction c with
  | nil =>
    intro path events calls h
    exact ⟨calls, h, rfl⟩
  | text t rest ih =>
    intro path events calls h
    rw [contentEvents, List.append_assoc, handlerCalls_chars] at h
    obtain ⟨more, hmore, rfl⟩ := Option.map_eq_some_iff.1 h
    obtain ⟨behind, hbehind, rfl⟩ := ih hmore
    exact ⟨behind, hbehind, by rw [Content.calls, List.append_assoc]⟩
  | element name attrs inner rest ihinner ihrest =>
    intro path events calls h
    rw [contentEvents, List.cons_append, handlerCalls] at h
    obtain ⟨r, hr, h⟩ := Option.bind_eq_some_iff.1 h
    obtain ⟨more, hmore, rfl⟩ := Option.map_eq_some_iff.1 h
    obtain ⟨-, rfl⟩ := startElement_eq_some_iff.1 hr
    rw [← attrCalls_eq_map]
    dsimp only at hmore
    rw [List.append_assoc] at hmore
    obtain ⟨stop, hstop, rfl⟩ := ihinner hmore
    rw [List.cons_append, handlerCalls, eventCalls, endElement_childPath,
      Option.bind_some] at hstop
    obtain ⟨after, hafter, rfl⟩ := Option.map_eq_some_iff.1 hstop
    obtain ⟨behind, hbehind, rfl⟩ := ihrest hafter
    exact ⟨behind, hbehind, by simp [Content.calls]⟩

/-- The paths in the content are at most `room` bytes longer than that of the
element that it is in. -/
def Fits (room : Nat) : Content → Prop
  | .nil => True
  | .text _ rest => Fits room rest
  | .element name attrs inner rest =>
    1 + name.bytes.length ≤ room ∧
      (∀ a ∈ attrs, 3 + name.bytes.length + a.1.bytes.length ≤ room) ∧
      Fits (room - (1 + name.bytes.length)) inner ∧ Fits room rest

theorem Fits.append {room : Nat} {c d : Content} (hc : Fits room c)
    (hd : Fits room d) : Fits room (c.append d) := by
  induction c with
  | nil => exact hd
  | text t rest ih => exact ih hc
  | element name attrs inner rest _ ih =>
    obtain ⟨hname, hattrs, hinner, hrest⟩ := hc
    exact ⟨hname, hattrs, hinner, ih hrest⟩

theorem Fits.mono {room more : Nat} {c : Content} (h : Fits room c)
    (hle : room ≤ more) : Fits more c := by
  induction c generalizing room more with
  | nil => trivial
  | text t rest ih => exact ih h hle
  | element name attrs inner rest ihinner ihrest =>
    obtain ⟨hname, hattrs, hinner, hrest⟩ := h
    exact ⟨by omega, fun a ha => Nat.le_trans (hattrs a ha) hle,
      ihinner hinner (by omega), ihrest hrest hle⟩

/-- A document whose paths fit into the buffer is read to its end. -/
theorem handlerCalls_of_fits (c : Content) :
    ∀ {path : Bytes} {room : Nat} (events : List XmlEvent), Fits room c →
      path.length + room < xpathMax →
      handlerCalls path (contentEvents c ++ events)
        = (handlerCalls path events).map (c.calls path ++ ·) := by
  induction c with
  | nil =>
    intro path room events _ _
    simp [contentEvents, Content.calls]
  | text t rest ih =>
    intro path room events hfits hroom
    rw [contentEvents, List.append_assoc, handlerCalls_chars, ih events hfits hroom,
      Option.map_map]
    simp [Content.calls, Function.comp_def]
  | element name attrs inner rest ihinner ihrest =>
    intro path room events hfits hroom
    obtain ⟨hname, hattrs, hinner, hrest⟩ := hfits
    have hlength := length_childPath path name.bytes
    have hinside : (childPath path name.bytes).length +
        (room - (1 + name.bytes.length)) < xpathMax := by omega
    have hattrs' : ∀ a ∈ attrs.map fun a => (a.1.bytes, a.2),
        path.length + 1 + name.bytes.length + 2 + a.1.length < xpathMax := by
      rw [List.forall_mem_map]
      intro a ha
      have hle := hattrs a ha
      show path.length + 1 + name.bytes.length + 2 + a.1.bytes.length < xpathMax
      omega
    rw [contentEvents, List.cons_append, handlerCalls, eventCalls,
      startElement_eq_some_iff.2 ⟨⟨by omega, hattrs'⟩, rfl⟩, ← attrCalls_eq_map]
    rw [Option.bind_some, List.append_assoc, List.cons_append,
      ihinner _ hinner hinside, handlerCalls, eventCalls, endElement_childPath,
      Option.bind_some, ihrest events hrest hroom, Option.map_map, Option.map_map,
      Option.map_map]
    simp [Content.calls, Function.comp_def]

/-! ## Arrays -/

/-- A slot that nothing was written to, by its place in its block. -/
def freshSlot {α : Type*} (alloc cleared : Nat) (zero stale : α) (k : Nat) : α :=
  if k % alloc < cleared then zero else stale

section Grown

variable {α : Type*} {alloc cleared : Nat} {zero stale : α}

/-- Whole blocks, with nothing written from `index` on. -/
structure Grown (alloc cleared : Nat) (zero stale : α) (slots : List α)
    (index : Nat) : Prop where
  blocks : alloc ∣ slots.length
  index_le : index ≤ slots.length
  fresh : ∀ k s, index ≤ k → slots[k]? = some s →
    s = freshSlot alloc cleared zero stale k

theorem grown_nil : Grown alloc cleared zero stale [] 0 where
  blocks := Nat.dvd_zero alloc
  index_le := Nat.le_refl 0
  fresh := by simp

theorem length_growBlock (h : cleared ≤ alloc) (slots : List α) :
    (growBlock alloc cleared zero stale slots).length = slots.length + alloc := by
  rw [growBlock, List.length_append, List.length_append, List.length_replicate,
    List.length_replicate]
  omega

/-- A new block behind a full array. -/
theorem Grown.grow {slots : List α} (hcleared : cleared ≤ alloc)
    (h : Grown alloc cleared zero stale slots slots.length) :
    Grown alloc cleared zero stale (growBlock alloc cleared zero stale slots)
      slots.length where
  blocks := by
    rw [length_growBlock hcleared]
    exact Nat.dvd_add h.blocks (Nat.dvd_refl alloc)
  index_le := by
    rw [length_growBlock hcleared]
    exact Nat.le_add_right _ _
  fresh := by
    intro k s hk hs
    obtain ⟨j, rfl⟩ := Nat.exists_eq_add_of_le hk
    obtain ⟨m, hm⟩ := h.blocks
    rw [growBlock, List.getElem?_append_right hk, Nat.add_sub_cancel_left,
      List.getElem?_append, List.length_replicate] at hs
    have hmod : ∀ hj : j < alloc, (slots.length + j) % alloc = j := by
      intro hj
      rw [hm, Nat.mul_add_mod, Nat.mod_eq_of_lt hj]
    unfold freshSlot
    split_ifs at hs with hj
    · rw [List.getElem?_replicate, if_pos hj, Option.some.injEq] at hs
      rw [hmod (by omega), if_pos hj, hs]
    · rw [List.getElem?_replicate] at hs
      split_ifs at hs with hj'
      rw [hmod (by omega), if_neg hj, Option.some.inj hs]

/-- The slot at `index` is there, after a new block if need be. -/
theorem Grown.ensure {slots grown : List α} {index : Nat}
    (h : Grown alloc cleared zero stale slots index) (hcleared : cleared ≤ alloc)
    (halloc : 0 < alloc)
    (hslots : grown = if index = slots.length
      then growBlock alloc cleared zero stale slots else slots) :
    Grown alloc cleared zero stale grown index ∧
      grown[index]? = some (freshSlot alloc cleared zero stale index) ∧
      grown.take index = slots.take index := by
  have hle := h.index_le
  have hgrown : Grown alloc cleared zero stale grown index ∧
      index < grown.length ∧ grown.take index = slots.take index := by
    rw [hslots]
    split_ifs with hfull
    · subst hfull
      refine ⟨h.grow hcleared, ?_, ?_⟩
      · rw [length_growBlock hcleared]
        omega
      · rw [growBlock, List.take_append_of_le_length (Nat.le_refl _)]
    · exact ⟨h, by omega, rfl⟩
  obtain ⟨hgrown, hroom, htake⟩ := hgrown
  refine ⟨hgrown, ?_, htake⟩
  rw [List.getElem?_eq_getElem hroom, Option.some.injEq]
  exact hgrown.fresh _ _ (Nat.le_refl index) (List.getElem?_eq_getElem hroom)

/-- A slot that is filled. -/
theorem Grown.set {slots : List α} {index : Nat}
    (h : Grown alloc cleared zero stale slots index)
    (hindex : index < slots.length) (a : α) :
    Grown alloc cleared zero stale (slots.set index a) (index + 1) where
  blocks := by
    rw [List.length_set]
    exact h.blocks
  index_le := by
    rw [List.length_set]
    exact hindex
  fresh := by
    intro k s hk hs
    rw [List.getElem?_set_ne (by omega)] at hs
    exact h.fresh k s (by omega) hs

theorem take_set_succ {slots : List α} {index : Nat}
    (hindex : index < slots.length) (a : α) :
    (slots.set index a).take (index + 1) = slots.take index ++ [a] := by
  rw [List.take_add_one, List.take_set_of_le (Nat.le_refl index),
    List.getElem?_set_self hindex]
  rfl

/-- A write to a slot that was written before. -/
theorem writeSlot_set {slots : List α} {i : Nat} (h : i < slots.length) (a : α)
    (f : α → α) : writeSlot (slots.set i a) i f = some (slots.set i (f a)) := by
  rw [writeSlot, List.length_set, if_pos h, Option.some.injEq]
  refine List.ext_getElem (by simp) fun j _ _ => ?_
  rw [List.getElem_modify, List.getElem_set, List.getElem_set]
  split_ifs <;> rfl

/-- Entries that each add a slot to the table. -/
theorem foldlM_entries {P : Type*} {loaded : P → List α → Prop}
    {step : P → Element → Option P} {entry : Nat → Element → α}
    (hstep : ∀ p done e, loaded p done →
      ∃ q, step p e = some q ∧ loaded q (done ++ [entry done.length e])) :
    ∀ (es : List Element) {p : P} {done : List α}, loaded p done →
      ∃ q, es.foldlM step p = some q ∧
        loaded q (done ++ es.mapIdx fun k e => entry (done.length + k) e)
  | [], p, done, h => ⟨p, rfl, by simpa using h⟩
  | e :: es, p, done, h => by
    obtain ⟨q, hq, hloaded⟩ := hstep p done e h
    obtain ⟨last, hlast, hdone⟩ := foldlM_entries hstep es hloaded
    refine ⟨last, ?_, ?_⟩
    · rw [List.foldlM_cons, hq]
      exact hlast
    · have hplace : ∀ k, (done ++ [entry done.length e]).length + k
          = done.length + (k + 1) := by
        intro k
        rw [List.length_append, List.length_singleton]
        omega
      rw [List.mapIdx_cons]
      simpa only [hplace, List.append_assoc, List.singleton_append,
        Nat.add_zero] using hdone

end Grown

/-- A file starts above its entries. -/
theorem root_above {basepath : Bytes} (h : basepath ≠ []) :
    ¬ (([] : Bytes) = basepath ∨ Below basepath []) := by
  rintro (heq | hbelow)
  · exact h heq.symm
  · simp [Below] at hbelow

section Load

variable {P α : Type*} {step : P → Call → Option P} {base : Bytes}
  (hbase : base ≠ [])
  (hignore : ∀ p call, ¬ Relevant base call → step p call = some p)
  (loaded : P → List α → Prop) {start : P} (hstart : loaded start [])
  {entry : Nat → Element → α}
  (hentry : ∀ p done e, loaded p done → ∃ last,
    (e.calls base).foldlM step p = some last ∧
      loaded last (done ++ [entry done.length e]))

include hbase hignore hstart hentry

/-- A run of handlers that add a slot to the table for each entry. -/
theorem run_contentEvents {c : Content} {calls : List Call}
    (hcalls : handlerCalls [] (contentEvents c) = some calls) :
    ∃ last, calls.foldlM step start = some last ∧
      loaded last ((c.elementsAt base []).mapIdx entry) := by
  rw [← List.append_nil (contentEvents c)] at hcalls
  obtain ⟨behind, hbehind, rfl⟩ := handlerCalls_contentEvents c hcalls
  obtain rfl := Option.some.inj hbehind
  obtain ⟨last, hlast, hloaded⟩ :=
    foldlM_entries hentry (c.elementsAt base []) hstart
  rw [List.append_nil, foldlM_calls hignore c [] (root_above hbase)]
  refine ⟨last, hlast, ?_⟩
  simpa only [List.nil_append, List.length_nil, Nat.zero_add] using hloaded

/-- The table of such a run. -/
theorem load_contentEvents {table : P → List α}
    (htable : ∀ p done, loaded p done → table p = done) (c : Content) :
    ((handlerCalls [] (contentEvents c)).bind fun calls =>
        (calls.foldlM step start).map table)
      = (handlerCalls [] (contentEvents c)).map fun _ =>
        (c.elementsAt base []).mapIdx entry := by
  cases hcalls : handlerCalls [] (contentEvents c) with
  | none => rfl
  | some calls =>
    obtain ⟨last, hlast, hloaded⟩ :=
      run_contentEvents hbase hignore loaded hstart hentry hcalls
    rw [Option.bind_some, Option.map_some, hlast, Option.map_some,
      htable _ _ hloaded]

end Load

/-! ## Strings -/

theorem TextField.path_injective {f g : TextField} (h : f.path = g.path) :
    f = g := by
  revert h
  cases f <;> cases g <;> decide

/-- The texts of the children in an element of children. -/
def kidTexts (basepath : Bytes) (e : Element) : List Delivered :=
  e.textsAt (basepath ++ ascii "/children/child") (basepath ++ ascii "/children")

/-- The children in an element of children. -/
def kidElements (basepath : Bytes) (e : Element) : List Element :=
  e.inner.elementsAt (basepath ++ ascii "/children/child")
    (basepath ++ ascii "/children")

/-- The text of a child. -/
def kidText (basepath : Bytes) (e : Element) : Bytes :=
  joined (e.textsAt (basepath ++ ascii "/children/child")
    (basepath ++ ascii "/children/child"))

/-- How the texts of a document are taken: the one of a string, and those of the
children in the elements of children of an entry. -/
structure Reading where
  value : Delivered → Bytes
  kids : Bytes → List Element → List Bytes

/-- By the pieces in which they are delivered: the last one of a text, and those in
the last element of children. -/
def Reading.pieces : Reading where
  value := Delivered.last
  kids basepath es :=
    match es.getLast? with
    | none => []
    | some e => (kidTexts basepath e).flatMap (·.pieces)

/-- As they are, with one string for each child. -/
def Reading.whole : Reading where
  value := Delivered.whole
  kids basepath es :=
    (es.flatMap (kidElements basepath)).map (kidText basepath)

/-- The strings of an entry: the last text for each of them. -/
def entryFields (fields : List TextField) (r : Reading) (basepath : Bytes)
    (fresh : Fields) (e : Element) : Fields := fun f =>
  if f ∈ fields then
    match (e.textsAt (basepath ++ f.path) basepath).getLast? with
    | none => fresh f
    | some d => .text (r.value d)
  else fresh f

/-- What a call does to the strings of the slot. -/
def fieldCall (fields : List TextField) (basepath : Bytes) (slot : Fields) :
    Call → Fields
  | .data xpath s =>
    match fields.find? (basepath ++ ·.path = xpath) with
    | some f => Function.update slot f (.text s)
    | none => slot
  | _ => slot

theorem fieldCall_data (fields : List TextField) (basepath : Bytes)
    (slot : Fields) (xpath s : Bytes) (f : TextField) :
    fieldCall fields basepath slot (.data xpath s) f
      = if f ∈ fields ∧ basepath ++ f.path = xpath then .text s else slot f := by
  rw [fieldCall]
  cases hfind : fields.find? (basepath ++ ·.path = xpath) with
  | none =>
    rw [List.find?_eq_none] at hfind
    rw [if_neg]
    rintro ⟨hmem, hpath⟩
    exact hfind f hmem (by simp [hpath])
  | some g =>
    have hg : basepath ++ g.path = xpath := by simpa using List.find?_some hfind
    dsimp only
    by_cases hf : f = g
    · subst hf
      rw [Function.update_self, if_pos ⟨List.mem_of_find?_eq_some hfind, hg⟩]
    · rw [Function.update_of_ne hf, if_neg]
      rintro ⟨-, hpath⟩
      rw [← hg, List.append_cancel_left_eq] at hpath
      exact hf (TextField.path_injective hpath)

/-- The last text for a string is kept. -/
theorem foldl_fieldCall (fields : List TextField) (basepath : Bytes)
    (f : TextField) : ∀ (calls : List Call) (slot : Fields),
      calls.foldl (fieldCall fields basepath) slot f
        = if f ∈ fields then
            match (piecesAt (basepath ++ f.path) calls).getLast? with
            | none => slot f
            | some s => .text s
          else slot f
  | [], slot => by simp [piecesAt]
  | call :: calls, slot => by
    have hsplit : piecesAt (basepath ++ f.path) (call :: calls)
        = piecesAt (basepath ++ f.path) [call]
          ++ piecesAt (basepath ++ f.path) calls := piecesAt_append _ [call] calls
    rw [List.foldl_cons, foldl_fieldCall fields basepath f calls, hsplit,
      List.getLast?_append]
    by_cases hf : f ∈ fields
    · rw [if_pos hf, if_pos hf]
      cases (piecesAt (basepath ++ f.path) calls).getLast? with
      | some s => rfl
      | none =>
        rw [Option.none_or]
        cases call with
        | start xpath => rfl
        | stop xpath => rfl
        | data xpath s =>
          rw [fieldCall_data]
          by_cases hpath : basepath ++ f.path = xpath
          · simp [hpath, hf, piecesAt]
          · simp [hpath, Ne.symm hpath, piecesAt]
    · rw [if_neg hf, if_neg hf]
      cases call with
      | start xpath => rfl
      | stop xpath => rfl
      | data xpath s => rw [fieldCall_data, if_neg fun h => hf h.1]

/-- What the calls inside an entry make of the strings of its slot. -/
theorem foldl_fieldCall_element (fields : List TextField) (basepath : Bytes)
    (slot : Fields) (e : Element) :
    (e.inside basepath).foldl (fieldCall fields basepath) slot
      = entryFields fields .pieces basepath slot e := by
  funext f
  rw [foldl_fieldCall, Element.inside_pieces, getLast?_pieces, entryFields]
  split_ifs with hf
  · cases (e.textsAt (basepath ++ f.path) basepath).getLast? <;> rfl
  · rfl

/-! ## Children -/

/-- The children of the slot and the block that they are put into. -/
structure Kids where
  slot : Children
  block : List Field
  index : Nat

/-- A string in the block of children. -/
def Kids.push (k : Kids) (f : Field) : Kids :=
  let block := pushChild k.block k.index f
  ⟨.block block, block, k.index + 1⟩

/-- What a call does to the children. -/
def kidCall (basepath : Bytes) (k : Kids) : Call → Kids
  | .data xpath s =>
    if xpath = basepath ++ ascii "/children/child" then k.push (.text s) else k
  | .stop xpath =>
    if xpath = basepath ++ ascii "/children" then
      ⟨(k.push .null).slot, [], 0⟩
    else k
  | .start _ => k

theorem pushChild_spec {block : List Field} {i : Nat} (h : i ≤ block.length)
    (f : Field) :
    i + 1 ≤ (pushChild block i f).length ∧
      (pushChild block i f).take (i + 1) = block.take i ++ [f] := by
  unfold pushChild
  split_ifs with hfull
  · have hlength : (growBlock 8 0 Field.stale .stale block).length
        = block.length + 8 := length_growBlock (Nat.zero_le 8) block
    have hroom : i < (growBlock 8 0 Field.stale .stale block).length := by omega
    rw [List.length_set]
    refine ⟨hroom, ?_⟩
    rw [take_set_succ hroom, growBlock, List.take_append_of_le_length h]
  · have hroom : i < block.length := by omega
    rw [List.length_set]
    exact ⟨hroom, take_set_succ hroom f⟩

/-- Some strings in the block, one behind the other. -/
theorem foldl_push_spec : ∀ (fs : List Field) (k : Kids),
    k.index ≤ k.block.length →
    (fs.foldl Kids.push k).index = k.index + fs.length ∧
      (fs.foldl Kids.push k).index ≤ (fs.foldl Kids.push k).block.length ∧
      (fs.foldl Kids.push k).block.take (fs.foldl Kids.push k).index
        = k.block.take k.index ++ fs
  | [], k, h => ⟨rfl, h, by simp⟩
  | f :: fs, k, h => by
    have hpush := pushChild_spec h f
    obtain ⟨hindex, hle, htake⟩ := foldl_push_spec fs (k.push f) hpush.1
    have hkindex : (k.push f).index = k.index + 1 := rfl
    have hkblock : (k.push f).block.take (k.push f).index
        = k.block.take k.index ++ [f] := hpush.2
    refine ⟨?_, hle, ?_⟩
    · rw [List.foldl_cons, hindex, hkindex, List.length_cons]
      omega
    · rw [List.foldl_cons, htake, hkblock, List.append_assoc,
        List.singleton_append]

theorem takeWhile_null {fs : List Field} (hfs : Field.null ∉ fs)
    (rest : List Field) :
    (fs ++ [Field.null] ++ rest).takeWhile (· ≠ .null) = fs := by
  have hall : ∀ f ∈ fs, decide (f ≠ .null) = true := by
    intro f hf
    rw [decide_eq_true_eq]
    rintro rfl
    exact hfs hf
  rw [List.append_assoc, List.takeWhile_append_of_pos hall]
  simp

/-- The block starts with these strings and a null pointer behind them. -/
def Children.EndsAt (c : Children) (fs : List Field) : Prop :=
  ∃ slots, c = .block slots ∧ slots.take (fs.length + 1) = fs ++ [.null]

theorem Children.EndsAt.upToNull {c : Children} {fs : List Field}
    (h : c.EndsAt fs) (hfs : Field.null ∉ fs) : c.upToNull = .block fs := by
  obtain ⟨slots, rfl, htake⟩ := h
  have hsplit := List.take_append_drop (fs.length + 1) slots
  rw [htake] at hsplit
  show Children.block (slots.takeWhile (· ≠ .null)) = _
  rw [← hsplit]
  exact congrArg _ (takeWhile_null hfs _)

theorem push_null_endsAt (fs : List Field) (c : Children) :
    ((fs.foldl Kids.push ⟨c, [], 0⟩).push .null).slot.EndsAt fs := by
  obtain ⟨hindex, hle, htake⟩ := foldl_push_spec fs ⟨c, [], 0⟩ (Nat.le_refl 0)
  generalize fs.foldl Kids.push ⟨c, [], 0⟩ = k at hindex hle htake ⊢
  have hnull := (pushChild_spec hle .null).2
  have hlength : k.index = fs.length := hindex.trans (Nat.zero_add _)
  rw [htake, hlength] at hnull
  refine ⟨_, rfl, ?_⟩
  rw [hlength]
  exact hnull

section Paths

variable (basepath : Bytes)

theorem children_below : Below basepath (basepath ++ ascii "/children") :=
  ⟨ascii "children", by simp [ascii]⟩

theorem not_children_above : ¬ (basepath = basepath ++ ascii "/children" ∨
    Below (basepath ++ ascii "/children") basepath) := by
  have hlength : (ascii "/children").length = 9 := by decide
  rintro (heq | hbelow)
  · have hle := congrArg List.length heq
    rw [List.length_append] at hle
    omega
  · have hle := hbelow.length_le
    rw [List.length_append, List.length_append] at hle
    omega

theorem kidCall_irrelevant (k : Kids) (call : Call)
    (h : ¬ Relevant (basepath ++ ascii "/children") call) :
    kidCall basepath k call = k := by
  cases call with
  | start xpath => rfl
  | stop xpath => exact if_neg fun heq => h (Or.inl heq)
  | data xpath s =>
    refine if_neg fun heq => h ?_
    rw [heq]
    exact ⟨ascii "child", by simp [ascii]⟩

end Paths

/-- The calls inside an element with children. -/
theorem foldl_kidCall_inside (basepath : Bytes) :
    ∀ (calls : List Call) (k : Kids),
      (∀ call ∈ calls, Below (basepath ++ ascii "/children") call.path ∨
        ∃ s, call = .data (basepath ++ ascii "/children") s) →
      calls.foldl (kidCall basepath) k
        = ((piecesAt (basepath ++ ascii "/children/child") calls).map
            Field.text).foldl Kids.push k
  | [], _, _ => rfl
  | call :: calls, k, h => by
    rw [List.forall_mem_cons] at h
    rw [List.foldl_cons, foldl_kidCall_inside basepath calls _ h.2]
    cases call with
    | start xpath => rfl
    | stop xpath =>
      have hstop : xpath ≠ basepath ++ ascii "/children" := stop_ne h.1
      rw [kidCall, if_neg hstop]
      rfl
    | data xpath s =>
      rw [kidCall, piecesAt_data]
      split_ifs <;> rfl

/-- The calls for an element of children. -/
theorem foldl_kidCall_children (basepath : Bytes) (c : Children) (e : Element) :
    ∃ slot, (e.calls (basepath ++ ascii "/children")).foldl (kidCall basepath)
        ⟨c, [], 0⟩ = ⟨slot, [], 0⟩ ∧
      slot.EndsAt (((kidTexts basepath e).flatMap (·.pieces)).map .text) := by
  have hinside := foldl_kidCall_inside basepath _ ⟨c, [], 0⟩
    (e.inside_below (basepath ++ ascii "/children"))
  rw [Element.inside_pieces] at hinside
  rw [Element.calls, List.foldl_cons, List.foldl_append]
  have hstart : kidCall basepath ⟨c, [], 0⟩
      (.start (basepath ++ ascii "/children")) = ⟨c, [], 0⟩ := rfl
  rw [hstart, hinside, List.foldl_cons, kidCall, if_pos rfl]
  exact ⟨_, rfl, push_null_endsAt _ c⟩

/-- What the calls inside an entry make of its children: those of the last element
of children. -/
theorem foldl_kidCall_element (basepath : Bytes) (c : Children) (e : Element) :
    ∃ slot, (e.inside basepath).foldl (kidCall basepath) ⟨c, [], 0⟩
        = ⟨slot, [], 0⟩ ∧
      match (e.inner.elementsAt (basepath ++ ascii "/children")
          basepath).getLast? with
      | none => slot = c
      | some kids =>
        slot.EndsAt (((kidTexts basepath kids).flatMap (·.pieces)).map .text) := by
  have hignore : ∀ (k : Kids) (call : Call),
      ¬ Relevant (basepath ++ ascii "/children") call →
      some (kidCall basepath k call) = some k :=
    fun k call h => congrArg some (kidCall_irrelevant basepath k call h)
  have hwhole : (e.calls basepath).foldl (kidCall basepath) ⟨c, [], 0⟩
      = (e.inside basepath).foldl (kidCall basepath) ⟨c, [], 0⟩ := by
    have hstop : basepath ≠ basepath ++ ascii "/children" :=
      fun heq => not_children_above basepath (Or.inl heq)
    rw [Element.calls, List.foldl_cons, List.foldl_append, List.foldl_cons,
      kidCall, kidCall, if_neg hstop]
    rfl
  have hfold : some ((e.calls basepath).foldl (kidCall basepath) ⟨c, [], 0⟩)
      = (e.inner.elementsAt (basepath ++ ascii "/children") basepath).foldlM
        (fun k e => some ((e.calls (basepath ++ ascii "/children")).foldl
          (kidCall basepath) k)) ⟨c, [], 0⟩ := by
    have hpure : ∀ (calls : List Call) (k : Kids),
        some (calls.foldl (kidCall basepath) k)
          = calls.foldlM (fun k call => some (kidCall basepath k call)) k :=
      fun calls k => (List.foldlM_pure (m := Option)).symm
    rw [hpure, foldlM_element hignore (not_children_above basepath),
      foldlM_calls hignore _ _ (not_children_above basepath)]
    simp only [hpure]
  rw [hwhole] at hfold
  clear hwhole
  generalize e.inner.elementsAt (basepath ++ ascii "/children") basepath = es
    at hfold ⊢
  generalize (e.inside basepath).foldl (kidCall basepath) ⟨c, [], 0⟩ = k
    at hfold ⊢
  induction es generalizing c with
  | nil =>
    obtain rfl := Option.some.inj hfold
    exact ⟨c, rfl, rfl⟩
  | cons kids es ih =>
    obtain ⟨slot, hslot, htexts⟩ := foldl_kidCall_children basepath c kids
    rw [List.foldlM_cons, hslot] at hfold
    obtain ⟨last, rfl, hlast⟩ := ih slot hfold
    refine ⟨last, rfl, ?_⟩
    rw [List.getLast?_cons]
    cases hes : es.getLast? with
    | none =>
      rw [hes] at hlast
      rw [hlast]
      exact htexts
    | some kids =>
      rw [hes] at hlast
      exact hlast

/-! ## Segments and composites -/

theorem behindPath_eq_some_iff {basepath xpath p : Bytes} :
    behindPath basepath xpath = some p ↔ xpath = basepath ++ p := by
  unfold behindPath
  constructor
  · intro h
    split_ifs at h with hprefix
    obtain ⟨t, rfl⟩ := hprefix
    rw [List.drop_left, Option.some.injEq] at h
    rw [h]
  · rintro rfl
    rw [if_pos (List.prefix_append _ _), List.drop_left]

/-- A path that starts with a slash, behind that of the entry. -/
theorem below_append (basepath : Bytes) {p : Bytes}
    (h : p.head? = some '/'.toUInt8) : Below basepath (basepath ++ p) := by
  obtain ⟨rest, rfl⟩ := List.head?_eq_some_iff.1 h
  exact ⟨rest, by simp⟩

theorem TextField.path_below (basepath : Bytes) (f : TextField) :
    Below basepath (basepath ++ f.path) := by
  refine below_append basepath ?_
  cases f <;> decide

/-- The slot of a segment or composite, by an entry of a document. -/
def segmentEntry (r : Reading) (basepath : Bytes) (k : Nat) (e : Element) :
    SegmentSlot :=
  let fresh := freshSlot 25 10 SegmentSlot.zero .stale k
  let kids := e.inner.elementsAt (basepath ++ ascii "/children") basepath
  { fields := entryFields segmentFields r basepath fresh.fields e
    children :=
      match kids.getLast? with
      | none => fresh.children
      | some _ => .block ((r.kids basepath kids).map .text) }

/-- The table of a file of segments or composites. -/
def segmentTable (r : Reading) (basepath : Bytes) (c : Content) :
    List SegmentSlot :=
  (c.elementsAt basepath []).mapIdx (segmentEntry r basepath)

namespace SegmentsParseHelper

variable (basepath : Bytes) (self : SegmentsParseHelper)

theorem call_irrelevant {call : Call} (h : ¬ Relevant basepath call) :
    self.call basepath call = some self := by
  cases call with
  | start xpath =>
    have hne : xpath ≠ basepath := fun heq => h (Or.inl heq)
    rw [SegmentsParseHelper.call, tstart, if_neg fun hpath => hne hpath.1]
  | stop xpath =>
    have hne : xpath ≠ basepath := fun heq => h (Or.inl heq)
    rw [SegmentsParseHelper.call, tend, if_neg hne, if_neg]
    intro hchildren
    rw [behindPath_eq_some_iff.1 hchildren] at h
    exact h (Or.inr (children_below basepath))
  | data xpath s =>
    rw [SegmentsParseHelper.call, cdata]
    split
    · rfl
    · next p hp =>
      obtain rfl := behindPath_eq_some_iff.1 hp
      split
      · next f hf =>
        have hpath : f.path = p := by simpa using List.find?_some hf
        exact absurd (hpath ▸ f.path_below basepath) h
      · rw [if_neg]
        rintro rfl
        exact h (below_append basepath (by decide))

/-- The state with these strings and children in the slot of the entry. -/
def withSlot (fields : Fields) (k : Kids) : SegmentsParseHelper where
  segs := self.segs.set self.index ⟨fields, k.slot⟩
  index := self.index
  children := k.block
  chldIndex := k.index

theorem withSlot_self {slot : SegmentSlot}
    (h : self.segs[self.index]? = some slot) :
    self.withSlot slot.fields ⟨slot.children, self.children, self.chldIndex⟩
      = self := by
  obtain ⟨segs, index, children, chldIndex⟩ := self
  obtain ⟨hindex, rfl⟩ := List.getElem?_eq_some_iff.1 h
  show (⟨segs.set index segs[index], index, children, chldIndex⟩ :
    SegmentsParseHelper) = _
  rw [List.set_getElem_self]

variable {self} (hindex : self.index < self.segs.length)

include hindex

theorem storeChild_withSlot (fields : Fields) (k : Kids) (f : Field) :
    (self.withSlot fields k).storeChild f
      = some (self.withSlot fields (k.push f)) := by
  rw [storeChild, withSlot, writeSlot_set hindex]
  rfl

/-- A call inside an entry works on its slot. -/
theorem call_withSlot (fields : Fields) (k : Kids) {call : Call}
    (h : Below basepath call.path ∨ ∃ s, call = .data basepath s) :
    (self.withSlot fields k).call basepath call
      = some (self.withSlot (fieldCall segmentFields basepath fields call)
          (kidCall basepath k call)) := by
  cases call with
  | start xpath =>
    have hne : xpath ≠ basepath := start_ne h
    rw [SegmentsParseHelper.call, tstart, if_neg fun hpath => hne hpath.1]
    rfl
  | stop xpath =>
    have hne : xpath ≠ basepath := stop_ne h
    rw [SegmentsParseHelper.call, tend, if_neg hne, kidCall,
      storeChild_withSlot hindex]
    by_cases hchildren : xpath = basepath ++ ascii "/children"
    · rw [if_pos (behindPath_eq_some_iff.2 hchildren), if_pos hchildren]
      rfl
    · rw [if_neg fun heq => hchildren (behindPath_eq_some_iff.1 heq),
        if_neg hchildren]
      rfl
  | data xpath s =>
    rw [SegmentsParseHelper.call, cdata, fieldCall, kidCall]
    cases hbehind : behindPath basepath xpath with
    | none =>
      have hno : ∀ p, xpath ≠ basepath ++ p := by
        intro p hp
        rw [← behindPath_eq_some_iff, hbehind] at hp
        cases hp
      have hfind : segmentFields.find? (basepath ++ ·.path = xpath) = none := by
        rw [List.find?_eq_none]
        exact fun f _ => by simpa using (hno f.path).symm
      rw [hfind, if_neg (hno _)]
    | some p =>
      obtain rfl := behindPath_eq_some_iff.1 hbehind
      have hfind : segmentFields.find? (basepath ++ ·.path = basepath ++ p)
          = segmentFields.find? (·.path = p) := by
        simp only [List.append_cancel_left_eq]
      rw [hfind]
      dsimp only
      cases hf : segmentFields.find? (·.path = p) with
      | none =>
        rw [storeChild_withSlot hindex]
        by_cases hchild : p = ascii "/children/child"
        · rw [hchild, if_pos rfl, if_pos rfl]
        · rw [if_neg hchild, if_neg]
          rwa [List.append_cancel_left_eq]
      | some f =>
        have hpath : f.path = p := by simpa using List.find?_some hf
        have hchild : p ≠ ascii "/children/child" := by
          rw [← hpath]
          cases f <;> decide
        rw [if_neg fun heq => hchild (List.append_cancel_left heq)]
        dsimp only
        rw [withSlot, writeSlot_set hindex]
        rfl

theorem foldlM_withSlot : ∀ (calls : List Call) (fields : Fields) (k : Kids),
    (∀ call ∈ calls, Below basepath call.path ∨ ∃ s, call = .data basepath s) →
    calls.foldlM (SegmentsParseHelper.call basepath) (self.withSlot fields k)
      = some (self.withSlot (calls.foldl (fieldCall segmentFields basepath) fields)
          (calls.foldl (kidCall basepath) k))
  | [], _, _, _ => rfl
  | call :: calls, fields, k, h => by
    rw [List.forall_mem_cons] at h
    rw [List.foldlM_cons, call_withSlot basepath hindex fields k h.1]
    exact foldlM_withSlot calls _ _ h.2

omit hindex

/-- The slot of an entry is there when its element starts. -/
theorem tstart_spec (hgrown : Grown 25 10 .zero .stale self.segs self.index) :
    ∃ segs, self.tstart basepath basepath = { self with segs := segs } ∧
      Grown 25 10 .zero .stale segs self.index ∧
      segs[self.index]? = some (freshSlot 25 10 .zero .stale self.index) ∧
      segs.take self.index = self.segs.take self.index := by
  refine ⟨_, ?_, hgrown.ensure (by decide) (by decide) rfl⟩
  unfold tstart
  simp only [true_and]
  split_ifs <;> rfl

end SegmentsParseHelper

/-- What an entry makes of a slot: the last piece for each string, and the pieces
in the last element of children. -/
structure SegmentSlot.From (slot : SegmentSlot) (basepath : Bytes)
    (fresh : SegmentSlot) (e : Element) : Prop where
  fields : slot.fields
    = entryFields segmentFields .pieces basepath fresh.fields e
  children :
    match (e.inner.elementsAt (basepath ++ ascii "/children")
        basepath).getLast? with
    | none => slot.children = fresh.children
    | some kids => slot.children.EndsAt
      (((kidTexts basepath kids).flatMap (·.pieces)).map .text)

theorem SegmentSlot.From.upToNull {slot : SegmentSlot} {basepath : Bytes}
    {k : Nat} {e : Element}
    (h : slot.From basepath (freshSlot 25 10 .zero .stale k) e) :
    { slot with children := slot.children.upToNull }
      = segmentEntry .pieces basepath k e := by
  have hchildren := h.children
  rw [segmentEntry, SegmentSlot.mk.injEq]
  refine ⟨h.fields, ?_⟩
  dsimp only [Reading.pieces]
  cases hkids : (e.inner.elementsAt (basepath ++ ascii "/children")
      basepath).getLast? with
  | none =>
    rw [hkids] at hchildren
    rw [hchildren]
    unfold freshSlot
    split_ifs <;> rfl
  | some kids =>
    rw [hkids] at hchildren
    exact hchildren.upToNull (by simp)

/-- The calls for an entry fill the next slot. -/
theorem SegmentsParseHelper.foldlM_entry {p : SegmentsParseHelper}
    (hgrown : Grown 25 10 .zero .stale p.segs p.index)
    (hchildren : p.children = []) (hchldIndex : p.chldIndex = 0)
    (basepath : Bytes) (e : Element) :
    ∃ segs slot, (e.calls basepath).foldlM (SegmentsParseHelper.call basepath) p
        = some ⟨segs, p.index + 1, [], 0⟩ ∧
      Grown 25 10 .zero .stale segs (p.index + 1) ∧
      segs.take (p.index + 1) = p.segs.take p.index ++ [slot] ∧
      slot.From basepath (freshSlot 25 10 .zero .stale p.index) e := by
  obtain ⟨segs, hstart, hgrown, hslot, htake⟩ := p.tstart_spec basepath hgrown
  rw [Element.foldlM_calls, SegmentsParseHelper.call, Option.bind_some, hstart,
    hchildren, hchldIndex]
  have hroom : p.index < segs.length := (List.getElem?_eq_some_iff.1 hslot).1
  have hself := withSlot_self ⟨segs, p.index, [], 0⟩ hslot
  have hinside := @foldlM_withSlot basepath ⟨segs, p.index, [], 0⟩ hroom _
    (freshSlot 25 10 SegmentSlot.zero .stale p.index).fields
    ⟨(freshSlot 25 10 SegmentSlot.zero .stale p.index).children, [], 0⟩
    (e.inside_below basepath)
  obtain ⟨children, hkids, hends⟩ := foldl_kidCall_element basepath
    (freshSlot 25 10 SegmentSlot.zero .stale p.index).children e
  rw [hself, hkids, foldl_fieldCall_element] at hinside
  generalize hfields : entryFields segmentFields .pieces basepath
    (freshSlot 25 10 SegmentSlot.zero .stale p.index).fields e = fields
    at hinside
  have hstop : (withSlot ⟨segs, p.index, [], 0⟩ fields ⟨children, [], 0⟩).call
      basepath (.stop basepath)
      = some ⟨segs.set p.index ⟨fields, children⟩, p.index + 1, [], 0⟩ :=
    if_pos rfl
  refine ⟨_, ⟨fields, children⟩, (congrArg (Option.bind · _) hinside).trans hstop,
    hgrown.set hroom _, ?_, hfields.symm, hends⟩
  rw [take_set_succ hroom, htake]

/-- The state between two entries, with the table so far. -/
structure SegmentsLoaded (p : SegmentsParseHelper) (done : List SegmentSlot) :
    Prop where
  grown : Grown 25 10 .zero .stale p.segs p.index
  children : p.children = []
  chldIndex : p.chldIndex = 0
  index : p.index = done.length
  done : (p.segs.take p.index).map (fun slot =>
    { slot with children := slot.children.upToNull }) = done

/-- An entry adds its slot to the table. -/
theorem SegmentsLoaded.entry {p : SegmentsParseHelper}
    {done : List SegmentSlot} (h : SegmentsLoaded p done) (basepath : Bytes)
    (e : Element) :
    ∃ last, (e.calls basepath).foldlM (SegmentsParseHelper.call basepath) p
        = some last ∧
      SegmentsLoaded last
        (done ++ [segmentEntry .pieces basepath done.length e]) := by
  obtain ⟨segs, slot, hrun, hgrown, htake, hfrom⟩ :=
    p.foldlM_entry h.grown h.children h.chldIndex basepath e
  refine ⟨_, hrun, hgrown, rfl, rfl, ?_, ?_⟩
  · show p.index + 1 = _
    rw [h.index, List.length_append, List.length_singleton]
  · show List.map _ (segs.take (p.index + 1)) = _
    rw [htake, List.map_append, h.done, List.map_singleton, hfrom.upToNull,
      h.index]

/-- What `load_segments` makes of a document, if it is loaded. -/
theorem loadSegments_contentEvents {basepath : Bytes} (hbase : basepath ≠ [])
    (c : Content) :
    loadSegments basepath (contentEvents c)
      = (handlerCalls [] (contentEvents c)).map fun _ =>
        segmentTable .pieces basepath c :=
  load_contentEvents hbase (fun p _ h => p.call_irrelevant basepath h)
    SegmentsLoaded ⟨grown_nil, rfl, rfl, rfl, rfl⟩
    (fun _ _ e h => h.entry basepath e) (fun _ _ h => h.done) c

end Libedi
