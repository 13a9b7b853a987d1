import Mathlib.Data.List.TakeWhile
import Libedi.Lib.Markup
import Libedi.Lib.XmlTree

/-!
# A reader of documents

The second half of reading a document: from the markup of a text (`Markup.scan`)
to the events of its elements and text nodes, or nothing if the document is not
well formed.  Each text node is delivered in one piece.

Documents are in ASCII and have no document type.  The insides of comments and
processing instructions are not looked at.

A content is printed by tags and text, and `Nodes` says that it is read back.
The rules for it follow the structure of what is printed.
-/

namespace XmlReader

open Markup (Event)
open XmlTree

/-! ## Tags -/

def isSpace (c : UInt8) : Bool :=
  c = ' '.toUInt8 ∨ c = '\t'.toUInt8 ∨ c = '\n'.toUInt8

/-- A byte that a name may start with. -/
def isNameStart (c : UInt8) : Bool :=
  ('a'.toUInt8 ≤ c ∧ c ≤ 'z'.toUInt8) ∨ ('A'.toUInt8 ≤ c ∧ c ≤ 'Z'.toUInt8) ∨
    c = '_'.toUInt8 ∨ c = ':'.toUInt8

def isDigit (c : UInt8) : Bool := '0'.toUInt8 ≤ c ∧ c ≤ '9'.toUInt8

/-- A byte that may be in a name. -/
def isNameByte (c : UInt8) : Bool :=
  isNameStart c ∨ isDigit c ∨ c = '-'.toUInt8 ∨ c = '.'.toUInt8

/-- The number that some digits stand for. -/
def digitsValue (base : Nat) (digit : UInt8 → Option Nat) (ds : List UInt8) :
    Option Nat :=
  if ds = [] then none
  else ds.foldlM (fun n c => (digit c).map (base * n + ·)) 0

def decimalDigit (c : UInt8) : Option Nat :=
  if isDigit c then some (c.toNat - '0'.toNat) else none

def hexDigit (c : UInt8) : Option Nat :=
  if isDigit c then some (c.toNat - '0'.toNat)
  else if 'a'.toUInt8 ≤ c ∧ c ≤ 'f'.toUInt8 then some (c.toNat - 'a'.toNat + 10)
  else if 'A'.toUInt8 ≤ c ∧ c ≤ 'F'.toUInt8 then some (c.toNat - 'A'.toNat + 10)
  else none

/-- A character by its number. -/
def characterBytes (n : Nat) : Option (List UInt8) :=
  if n = 9 ∨ n = 10 ∨ n = 13 ∨ (0x20 ≤ n ∧ n ≤ 0xD7FF) ∨
      (0xE000 ≤ n ∧ n ≤ 0xFFFD) ∨ (0x10000 ≤ n ∧ n ≤ 0x10FFFF) then
    some (String.utf8EncodeChar (Char.ofNat n))
  else none

/-- What a reference stands for. -/
def decodeReference (name : List UInt8) : Option (List UInt8) :=
  if name = ['l', 't'].map Char.toUInt8 then some ['<'.toUInt8]
  else if name = ['g', 't'].map Char.toUInt8 then some ['>'.toUInt8]
  else if name = ['a', 'm', 'p'].map Char.toUInt8 then some ['&'.toUInt8]
  else if name = ['q', 'u', 'o', 't'].map Char.toUInt8 then some ['"'.toUInt8]
  else if name = ['a', 'p', 'o', 's'].map Char.toUInt8 then some ['\''.toUInt8]
  else match name with
    | hash :: x :: ds =>
      if hash ≠ '#'.toUInt8 then none
      else if x = 'x'.toUInt8 then
        (digitsValue 16 hexDigit ds).bind characterBytes
      else (digitsValue 10 decimalDigit (x :: ds)).bind characterBytes
    | _ => none

/-- A piece of the value of an attribute. -/
def decodeValueEvent : Event → Option (List UInt8)
  | .char c => some [if isSpace c then ' '.toUInt8 else c]
  | .reference name => decodeReference name
  | _ => none

/-- The value of an attribute. -/
def decodeValue (raw : List UInt8) : Option (List UInt8) :=
  (Markup.scan raw).bind fun es =>
    (es.mapM decodeValueEvent).map List.flatten

/-- The inside of a tag. -/
inductive Tag where
  | opening (name : List UInt8) (attrs : List (List UInt8 × List UInt8))
      (empty : Bool)
  | closing (name : List UInt8)
  deriving DecidableEq, Repr

/-- Where in an opening tag the reader is. -/
inductive TagPlace where
  | name
  | space
  | key (read : List UInt8)
  | keyEnd (key : List UInt8)
  | equals (key : List UInt8)
  | value (key : List UInt8) (quote : UInt8) (read : List UInt8)
  | valueEnd
  | slash
  deriving DecidableEq, Repr

/-- What was read of an opening tag. -/
structure TagState where
  name : List UInt8
  attrs : List (List UInt8 × List UInt8)
  place : TagPlace
  deriving DecidableEq, Repr

/-- A byte of an opening tag. -/
def tagStep : TagState → UInt8 → Option TagState
  | ⟨name, attrs, .name⟩, c =>
    if isNameByte c then some ⟨name ++ [c], attrs, .name⟩
    else if isSpace c then some ⟨name, attrs, .space⟩
    else if c = '/'.toUInt8 then some ⟨name, attrs, .slash⟩
    else none
  | ⟨name, attrs, .space⟩, c =>
    if isSpace c then some ⟨name, attrs, .space⟩
    else if c = '/'.toUInt8 then some ⟨name, attrs, .slash⟩
    else if isNameStart c then some ⟨name, attrs, .key [c]⟩
    else none
  | ⟨name, attrs, .key read⟩, c =>
    if isNameByte c then some ⟨name, attrs, .key (read ++ [c])⟩
    else if c = '='.toUInt8 then some ⟨name, attrs, .equals read⟩
    else if isSpace c then some ⟨name, attrs, .keyEnd read⟩
    else none
  | ⟨name, attrs, .keyEnd key⟩, c =>
    if isSpace c then some ⟨name, attrs, .keyEnd key⟩
    else if c = '='.toUInt8 then some ⟨name, attrs, .equals key⟩
    else none
  | ⟨name, attrs, .equals key⟩, c =>
    if isSpace c then some ⟨name, attrs, .equals key⟩
    else if c = '"'.toUInt8 ∨ c = '\''.toUInt8 then
      some ⟨name, attrs, .value key c []⟩
    else none
  | ⟨name, attrs, .value key quote read⟩, c =>
    if c = quote then
      if key ∈ attrs.map Prod.fst then none
      else (decodeValue read).map fun value =>
        ⟨name, attrs ++ [(key, value)], .valueEnd⟩
    else some ⟨name, attrs, .value key quote (read ++ [c])⟩
  | ⟨name, attrs, .valueEnd⟩, c =>
    if isSpace c then some ⟨name, attrs, .space⟩
    else if c = '/'.toUInt8 then some ⟨name, attrs, .slash⟩
    else none
  | ⟨_, _, .slash⟩, _ => none

/-- The end of an opening tag. -/
def tagEnd (t : TagState) : Option Tag :=
  match t.place with
  | .name | .space | .valueEnd => some (.opening t.name t.attrs false)
  | .slash => some (.opening t.name t.attrs true)
  | _ => none

/-- A tag, by what is between `<` and `>`. -/
def parseTag : List UInt8 → Option Tag
  | [] => none
  | c :: body =>
    if c = '/'.toUInt8 then
      let name := body.takeWhile isNameByte
      if (name.head?.any isNameStart ∧ (body.dropWhile isNameByte).all isSpace)
      then some (.closing name) else none
    else if isNameStart c then (body.foldlM tagStep ⟨[c], [], .name⟩).bind tagEnd
    else none

/-! ## Documents -/

/-- The elements that are open, innermost first, and the text since the last
markup.  `brackets` counts the brackets that were read right before, and `root`
tells whether there was an element. -/
structure State where
  stack : List (List UInt8)
  text : List UInt8
  brackets : Nat
  root : Bool
  deriving DecidableEq, Repr

/-- A text node, if there is text. -/
def flush (text : List UInt8) : List XmlEvent :=
  if text = [] then [] else [.chars text]

/-- The state behind some markup. -/
def State.marked (s : State) : State := { s with text := [], brackets := 0 }

/-- A piece of the document: the state behind it, and the events that it
completes. -/
def step (s : State) : Event → Option (State × List XmlEvent)
  | .char c =>
    if s.stack = [] then if isSpace c then some (s, []) else none
    else if c = '>'.toUInt8 ∧ 2 ≤ s.brackets then none
    else some ({ s with
      text := s.text ++ [c]
      brackets := if c = ']'.toUInt8 then s.brackets + 1 else 0 }, [])
  | .reference name =>
    if s.stack = [] then none
    else (decodeReference name).map fun bs =>
      ({ s with text := s.text ++ bs, brackets := 0 }, [])
  | .tag body =>
    match parseTag body with
    | none => none
    | some (.opening name attrs empty) =>
      if s.stack = [] ∧ s.root then none
      else if empty then
        some (⟨s.stack, [], 0, true⟩,
          flush s.text ++ [.start name attrs, .stop name])
      else some (⟨name :: s.stack, [], 0, true⟩,
        flush s.text ++ [.start name attrs])
    | some (.closing name) =>
      match s.stack with
      | [] => none
      | top :: stack =>
        if top = name then
          some (⟨stack, [], 0, s.root⟩, flush s.text ++ [.stop name])
        else none
  | .comment _ | .instruction _ => some (s.marked, flush s.text)
  | .cdata body =>
    if s.stack = [] then none
    else some (s.marked, flush s.text ++ flush body)

/-- A document: the state behind it, and its events. -/
def run (s : State) : List Event → Option (State × List XmlEvent)
  | [] => some (s, [])
  | e :: es => (step s e).bind fun r => (run r.1 es).map fun t =>
    (t.1, r.2 ++ t.2)

/-- Bytes that documents are made of. -/
def isXmlByte (c : UInt8) : Bool :=
  c = '\t'.toUInt8 ∨ c = '\n'.toUInt8 ∨ (0x20 ≤ c ∧ c ≤ 0x7E)

/-- The events of a document, `none` if it is not well formed. -/
def read (document : List UInt8) : Option (List XmlEvent) :=
  if document.all isXmlByte then
    (Markup.scan document).bind fun es => (run ⟨[], [], 0, false⟩ es).bind fun r =>
      if r.1.stack = [] ∧ r.1.root then some r.2 else none
  else none

/-- From the state `s` the text leads to `s'` with these events. -/
def Reads (s : State) (text : List UInt8) (s' : State) (out : List XmlEvent) :
    Prop :=
  ∃ es, Markup.Reads .text text .text es ∧ run s es = some (s', out)

theorem run_append {s s' : State} {es fs : List Event} {out : List XmlEvent}
    (h : run s es = some (s', out)) :
    run s (es ++ fs) = (run s' fs).map fun t => (t.1, out ++ t.2) := by
  induction es generalizing s out with
  | nil =>
    obtain ⟨rfl, rfl⟩ := Prod.mk.inj (Option.some.inj h)
    simp
  | cons e es ih =>
    rw [run] at h
    obtain ⟨r, hr, h⟩ := Option.bind_eq_some_iff.1 h
    obtain ⟨t, ht, heq⟩ := Option.map_eq_some_iff.1 h
    obtain ⟨rfl, rfl⟩ := Prod.mk.inj heq
    have hrest : run r.1 (es ++ fs)
        = (run t.1 fs).map fun u => (u.1, t.2 ++ u.2) := ih ht
    rw [List.cons_append, run, hr, Option.bind_some, hrest, Option.map_map]
    simp [Function.comp_def]

theorem run_singleton (s : State) (e : Event) : run s [e] = step s e := by
  rw [run]
  cases step s e with
  | none => rfl
  | some r => simp [run]

theorem Reads.nil (s : State) : Reads s [] s [] := ⟨[], .nil _, rfl⟩

/-- One text behind the other. -/
theorem Reads.append {s s' s'' : State} {as bs : List UInt8}
    {out out' : List XmlEvent} (ha : Reads s as s' out)
    (hb : Reads s' bs s'' out') : Reads s (as ++ bs) s'' (out ++ out') := by
  obtain ⟨es, hes, hrun⟩ := ha
  obtain ⟨fs, hfs, hrun'⟩ := hb
  refine ⟨es ++ fs, hes.append hfs, ?_⟩
  rw [run_append hrun, hrun']
  rfl

/-- A text that is one piece of markup. -/
theorem Reads.single {s s' : State} {text : List UInt8} {e : Event}
    {out : List XmlEvent} (htext : Markup.Reads .text text .text [e])
    (hstep : step s e = some (s', out)) : Reads s text s' out := by
  refine ⟨[e], htext, ?_⟩
  rw [run, hstep, Option.bind_some, run, Option.map_some, List.append_nil]

/-! ## Printed tags -/

/-- A name of an element or an attribute. -/
def IsName (name : List UInt8) : Prop :=
  name.head?.any isNameStart = true ∧ name.all isNameByte = true

instance (name : List UInt8) : Decidable (IsName name) :=
  inferInstanceAs (Decidable (_ ∧ _))

/-- The first byte of a name, and the others. -/
theorem IsName.exists_cons {name : List UInt8} (h : IsName name) :
    ∃ c rest, name = c :: rest ∧ isNameStart c = true ∧
      rest.all isNameByte = true := by
  obtain ⟨hstart, hall⟩ := h
  cases name with
  | nil => exact absurd hstart (by simp)
  | cons c rest =>
    rw [List.all_cons, Bool.and_eq_true] at hall
    exact ⟨c, rest, rfl, by simpa using hstart, hall.2⟩

/-- A value of an attribute that stands for itself. -/
def IsValue (value : List UInt8) : Prop :=
  ∀ c ∈ value, c ≠ '<'.toUInt8 ∧ c ≠ '&'.toUInt8 ∧ c ≠ '"'.toUInt8 ∧
    c ≠ '\t'.toUInt8 ∧ c ≠ '\n'.toUInt8

instance (value : List UInt8) : Decidable (IsValue value) :=
  List.decidableBAll _ _

/-- An attribute in a tag. -/
def attrText (a : List UInt8 × List UInt8) : List UInt8 :=
  ' '.toUInt8 :: (a.1 ++ '='.toUInt8 :: '"'.toUInt8 :: (a.2 ++ ['"'.toUInt8]))

/-- The name and the attributes in a tag. -/
def tagText (name : List UInt8) (attrs : List (List UInt8 × List UInt8)) :
    List UInt8 :=
  name ++ attrs.flatMap attrText

/-- Attributes that can be printed. -/
structure Printable (attrs : List (List UInt8 × List UInt8)) : Prop where
  keys : ∀ a ∈ attrs, IsName a.1
  values : ∀ a ∈ attrs, IsValue a.2
  nodup : (attrs.map Prod.fst).Nodup

theorem tagByte_of_isNameByte {c : UInt8} (h : isNameByte c = true) :
    Markup.TagByte c := by
  refine ⟨?_, ?_, ?_, ?_⟩ <;>
  · rintro rfl
    exact absurd h (by decide)

theorem tagStart_of_isNameStart {c : UInt8} (h : isNameStart c = true) :
    Markup.TagStart c := by
  refine ⟨?_, ?_, ?_, ?_, ?_, ?_⟩ <;>
  · rintro rfl
    exact absurd h (by decide)

theorem decodeValue_of_isValue {value : List UInt8} (h : IsValue value) :
    decodeValue value = some value := by
  have hscan : Markup.scan value = some (value.map .char) :=
    Markup.scan_eq_some_iff.2
      (Markup.reads_chars fun c hc => ⟨(h c hc).1, (h c hc).2.1⟩)
  rw [decodeValue, hscan, Option.bind_some]
  induction value with
  | nil => rfl
  | cons c value ih =>
    rw [IsValue, List.forall_mem_cons] at h
    obtain ⟨⟨-, -, -, htab, hline⟩, hvalue⟩ := h
    have hc : decodeValueEvent (.char c) = some [c] := by
      rw [decodeValueEvent, Option.some.injEq]
      split_ifs with hspace
      · have heq : c = ' '.toUInt8 := by simpa [isSpace, htab, hline] using hspace
        rw [heq]
      · rfl
    have hrest := ih hvalue (Markup.scan_eq_some_iff.2
      (Markup.reads_chars fun c hc => ⟨(hvalue c hc).1, (hvalue c hc).2.1⟩))
    obtain ⟨ds, hds, hflat⟩ := Option.map_eq_some_iff.1 hrest
    rw [List.map_cons, List.mapM_cons, hc, hds]
    exact congrArg (fun bs => some (c :: bs)) hflat

theorem foldlM_cons_of_eq {S α : Type*} {f : S → α → Option S} {s t : S}
    {a : α} (h : f s a = some t) (as : List α) :
    (a :: as).foldlM f s = as.foldlM f t := by
  rw [List.foldlM_cons, h]
  rfl

theorem foldlM_append_of_eq {S α : Type*} {f : S → α → Option S} {s t : S}
    {as : List α} (h : as.foldlM f s = some t) (bs : List α) :
    (as ++ bs).foldlM f s = bs.foldlM f t := by
  rw [List.foldlM_append, h]
  rfl

section Tags

variable {name : List UInt8} {attrs : List (List UInt8 × List UInt8)}

theorem foldlM_tagStep_name {bs : List UInt8} (h : bs.all isNameByte = true) :
    ∀ read, bs.foldlM tagStep ⟨read, attrs, .name⟩
      = some ⟨read ++ bs, attrs, .name⟩ := by
  induction bs with
  | nil => simp
  | cons c bs ih =>
    intro read
    rw [List.all_cons, Bool.and_eq_true] at h
    rw [foldlM_cons_of_eq (if_pos h.1), ih h.2, List.append_assoc,
      List.singleton_append]

theorem foldlM_tagStep_key {bs : List UInt8} (h : bs.all isNameByte = true) :
    ∀ read, bs.foldlM tagStep ⟨name, attrs, .key read⟩
      = some ⟨name, attrs, .key (read ++ bs)⟩ := by
  induction bs with
  | nil => simp
  | cons c bs ih =>
    intro read
    rw [List.all_cons, Bool.and_eq_true] at h
    rw [foldlM_cons_of_eq (if_pos h.1), ih h.2, List.append_assoc,
      List.singleton_append]

theorem foldlM_tagStep_value {key : List UInt8} {quote : UInt8}
    {bs : List UInt8} (h : ∀ c ∈ bs, c ≠ quote) :
    ∀ read, bs.foldlM tagStep ⟨name, attrs, .value key quote read⟩
      = some ⟨name, attrs, .value key quote (read ++ bs)⟩ := by
  induction bs with
  | nil => simp
  | cons c bs ih =>
    intro read
    rw [List.forall_mem_cons] at h
    rw [foldlM_cons_of_eq (if_neg h.1), ih h.2, List.append_assoc,
      List.singleton_append]

theorem isSpace_of_isNameStart {c : UInt8} (h : isNameStart c = true) :
    isSpace c = false := by
  rw [Bool.eq_false_iff]
  intro hspace
  have hall : c = ' '.toUInt8 ∨ c = '\t'.toUInt8 ∨ c = '\n'.toUInt8 := by
    simpa [isSpace] using hspace
  rcases hall with rfl | rfl | rfl <;> exact absurd h (by decide)

theorem ne_slash_of_isNameStart {c : UInt8} (h : isNameStart c = true) :
    c ≠ '/'.toUInt8 := by
  rintro rfl
  exact absurd h (by decide)

/-- An attribute behind the name or another attribute. -/
theorem foldlM_tagStep_attr {a : List UInt8 × List UInt8} {place : TagPlace}
    (hplace : place = .name ∨ place = .valueEnd) (hkey : IsName a.1)
    (hvalue : IsValue a.2) (hnew : a.1 ∉ attrs.map Prod.fst) :
    (attrText a).foldlM tagStep ⟨name, attrs, place⟩
      = some ⟨name, attrs ++ [a], .valueEnd⟩ := by
  obtain ⟨_, value⟩ := a
  obtain ⟨k, key, rfl, hk, hall⟩ := hkey.exists_cons
  have hspace : tagStep ⟨name, attrs, place⟩ ' '.toUInt8
      = some ⟨name, attrs, .space⟩ := by
    rcases hplace with rfl | rfl <;> rfl
  have hfirst : tagStep ⟨name, attrs, .space⟩ k
      = some ⟨name, attrs, .key [k]⟩ := by
    rw [tagStep, isSpace_of_isNameStart hk, if_neg Bool.false_ne_true,
      if_neg (ne_slash_of_isNameStart hk), if_pos hk]
  have hequals : ∀ read, tagStep ⟨name, attrs, .key read⟩ '='.toUInt8
      = some ⟨name, attrs, .equals read⟩ := fun read => rfl
  have hquote : ∀ read, tagStep ⟨name, attrs, .equals read⟩ '"'.toUInt8
      = some ⟨name, attrs, .value read '"'.toUInt8 []⟩ := fun read => rfl
  have hend : tagStep ⟨name, attrs, .value (k :: key) '"'.toUInt8 value⟩
      '"'.toUInt8 = some ⟨name, attrs ++ [(k :: key, value)], .valueEnd⟩ := by
    rw [tagStep, if_pos rfl, if_neg hnew, decodeValue_of_isValue hvalue]
    rfl
  rw [attrText, foldlM_cons_of_eq hspace]
  dsimp only
  rw [List.cons_append, foldlM_cons_of_eq hfirst,
    foldlM_append_of_eq (foldlM_tagStep_key hall [k]),
    foldlM_cons_of_eq (hequals _), foldlM_cons_of_eq (hquote _),
    foldlM_append_of_eq (foldlM_tagStep_value
      (fun c hc => (hvalue c hc).2.2.1) [])]
  exact foldlM_cons_of_eq hend []

theorem foldlM_tagStep_attrs {place : TagPlace}
    (hplace : place = .name ∨ place = .valueEnd)
    {as : List (List UInt8 × List UInt8)} (h : Printable (attrs ++ as)) :
    ∃ last, (last = .name ∨ last = .valueEnd) ∧
      (as.flatMap attrText).foldlM tagStep ⟨name, attrs, place⟩
        = some ⟨name, attrs ++ as, last⟩ := by
  induction as generalizing attrs place with
  | nil => exact ⟨place, hplace, by simp⟩
  | cons a as ih =>
    have hmem : a ∈ attrs ++ a :: as := by simp
    have hnew : a.1 ∉ attrs.map Prod.fst := by
      have hnodup := h.nodup
      rw [List.map_append, List.map_cons] at hnodup
      intro hin
      exact (List.nodup_append.1 hnodup).2.2 _ hin _ List.mem_cons_self rfl
    have ha : (attrText a).foldlM tagStep ⟨name, attrs, place⟩
        = some ⟨name, attrs ++ [a], .valueEnd⟩ :=
      foldlM_tagStep_attr hplace (h.keys a hmem) (h.values a hmem) hnew
    obtain ⟨last, hlast, hrun⟩ := @ih (attrs ++ [a]) .valueEnd (Or.inr rfl)
      (by simpa using h)
    refine ⟨last, hlast, ?_⟩
    rw [List.flatMap_cons, foldlM_append_of_eq ha, hrun, List.append_assoc,
      List.singleton_append]

/-- The name and the attributes of a printed tag. -/
theorem foldlM_tagStep_tagText {c : UInt8} {name : List UInt8}
    (hname : name.all isNameByte = true) (h : Printable attrs) :
    ∃ last, (last = .name ∨ last = .valueEnd) ∧
      (tagText name attrs).foldlM tagStep ⟨[c], [], .name⟩
        = some ⟨c :: name, attrs, last⟩ := by
  obtain ⟨last, hlast, hrun⟩ :=
    @foldlM_tagStep_attrs (c :: name) [] .name (Or.inl rfl) attrs h
  refine ⟨last, hlast, ?_⟩
  rw [tagText, foldlM_append_of_eq (foldlM_tagStep_name hname [c])]
  exact hrun

/-- A tag that starts with a name is not a closing one. -/
theorem parseTag_cons {c : UInt8} (hc : isNameStart c = true)
    (body : List UInt8) :
    parseTag (c :: body)
      = (body.foldlM tagStep ⟨[c], [], .name⟩).bind tagEnd := by
  rw [parseTag, if_neg (ne_slash_of_isNameStart hc), if_pos hc]

theorem parseTag_opening (hname : IsName name) (h : Printable attrs) :
    parseTag (tagText name attrs) = some (.opening name attrs false) := by
  obtain ⟨c, name, rfl, hc, hall⟩ := hname.exists_cons
  obtain ⟨last, hlast, hrun⟩ := @foldlM_tagStep_tagText _ c _ hall h
  have htext : tagText (c :: name) attrs = c :: tagText name attrs := rfl
  rw [htext, parseTag_cons hc, hrun, Option.bind_some]
  rcases hlast with rfl | rfl <;> rfl

theorem parseTag_empty (hname : IsName name) (h : Printable attrs) :
    parseTag (tagText name attrs ++ [' '.toUInt8, '/'.toUInt8])
      = some (.opening name attrs true) := by
  obtain ⟨c, name, rfl, hc, hall⟩ := hname.exists_cons
  obtain ⟨last, hlast, hrun⟩ := @foldlM_tagStep_tagText _ c _ hall h
  have htext : tagText (c :: name) attrs ++ [' '.toUInt8, '/'.toUInt8]
      = c :: (tagText name attrs ++ [' '.toUInt8, '/'.toUInt8]) := rfl
  rw [htext, parseTag_cons hc, foldlM_append_of_eq hrun]
  rcases hlast with rfl | rfl <;> rfl

theorem parseTag_closing (hname : IsName name) :
    parseTag ('/'.toUInt8 :: name) = some (.closing name) := by
  obtain ⟨hstart, hall⟩ := hname
  have hbytes := List.all_eq_true.1 hall
  have htake : name.takeWhile isNameByte = name :=
    List.takeWhile_eq_self_iff.2 hbytes
  have hdrop : name.dropWhile isNameByte = [] :=
    List.dropWhile_eq_nil_iff.2 hbytes
  rw [parseTag, if_pos rfl]
  dsimp only
  rw [htake, hdrop, if_pos ⟨hstart, rfl⟩]

end Tags

/-- A start tag. -/
def startTag (name : List UInt8) (attrs : List (List UInt8 × List UInt8)) :
    List UInt8 :=
  '<'.toUInt8 :: (tagText name attrs ++ ['>'.toUInt8])

/-- The tag of an element without content. -/
def emptyTag (name : List UInt8) (attrs : List (List UInt8 × List UInt8)) :
    List UInt8 :=
  '<'.toUInt8 :: (tagText name attrs ++
    [' '.toUInt8, '/'.toUInt8, '>'.toUInt8])

/-- An end tag. -/
def endTag (name : List UInt8) : List UInt8 :=
  '<'.toUInt8 :: '/'.toUInt8 :: (name ++ ['>'.toUInt8])

section ScanTags

variable {name : List UInt8} {attrs : List (List UInt8 × List UInt8)}

theorem scan_attrText {a : List UInt8 × List UInt8} (hkey : IsName a.1)
    (hvalue : IsValue a.2) (read : List UInt8) :
    Markup.Reads (.tag read none) (attrText a) (.tag (read ++ attrText a) none)
      [] := by
  obtain ⟨key, value⟩ := a
  have hbefore : ∀ c ∈ ' '.toUInt8 :: (key ++ ['='.toUInt8]),
      Markup.TagByte c := by
    rw [List.forall_mem_cons, List.forall_mem_append, List.forall_mem_singleton]
    exact ⟨by decide, fun c hc =>
      tagByte_of_isNameByte (List.all_eq_true.1 hkey.2 c hc), by decide⟩
  have hopen : ∀ body, Markup.Reads (.tag body none) ['"'.toUInt8]
      (.tag (body ++ ['"'.toUInt8]) (some '"'.toUInt8)) [] :=
    fun body => rfl
  have hclose : ∀ body, Markup.Reads (.tag body (some '"'.toUInt8))
      ['"'.toUInt8] (.tag (body ++ ['"'.toUInt8]) none) [] :=
    fun body => rfl
  have hall := (Markup.reads_tag read hbefore).append ((hopen _).append
    ((Markup.reads_quoted _ fun c hc => ⟨(hvalue c hc).1,
      (hvalue c hc).2.2.1⟩).append (hclose _)))
  simpa [attrText] using hall

theorem scan_attrTexts (h : ∀ a ∈ attrs, IsName a.1 ∧ IsValue a.2) :
    ∀ read, Markup.Reads (.tag read none) (attrs.flatMap attrText)
      (.tag (read ++ attrs.flatMap attrText) none) [] := by
  induction attrs with
  | nil => exact fun read => by simpa using Markup.Reads.nil _
  | cons a attrs ih =>
    intro read
    rw [List.forall_mem_cons] at h
    have hall := (scan_attrText h.1.1 h.1.2 read).append
      (ih h.2 (read ++ attrText a))
    simpa using hall

/-- The beginning of a printed tag. -/
theorem scan_tagText (hname : IsName name) (h : Printable attrs) :
    Markup.Reads .text ('<'.toUInt8 :: tagText name attrs)
      (.tag (tagText name attrs) none) [] := by
  obtain ⟨c, name, rfl, hc, hall⟩ := hname.exists_cons
  have hbytes : ∀ b ∈ name, Markup.TagByte b := fun b hb =>
    tagByte_of_isNameByte (List.all_eq_true.1 hall b hb)
  have htag := (Markup.reads_tagStart (tagStart_of_isNameStart hc)).append
    ((Markup.reads_tag [c] hbytes).append
      (scan_attrTexts (fun a ha => ⟨h.keys a ha, h.values a ha⟩) _))
  simpa [tagText] using htag

/-- A tag may open where the document is not over. -/
theorem not_over {s : State} (hs : s.stack ≠ [] ∨ s.root = false) :
    ¬ (s.stack = [] ∧ s.root = true) := by
  rintro ⟨hstack, hroot⟩
  rcases hs with hs | hs
  · exact hs hstack
  · rw [hroot] at hs
    cases hs

theorem reads_startTag (hname : IsName name) (h : Printable attrs) {s : State}
    (hs : s.stack ≠ [] ∨ s.root = false) :
    Reads s (startTag name attrs) ⟨name :: s.stack, [], 0, true⟩
      (flush s.text ++ [.start name attrs]) := by
  refine Reads.single ((scan_tagText hname h).append (Markup.reads_tagEnd _)) ?_
  simp only [step, parseTag_opening hname h]
  rw [if_neg (not_over hs), if_neg Bool.false_ne_true]

theorem reads_emptyTag (hname : IsName name) (h : Printable attrs) {s : State}
    (hs : s.stack ≠ [] ∨ s.root = false) :
    Reads s (emptyTag name attrs) ⟨s.stack, [], 0, true⟩
      (flush s.text ++ [.start name attrs, .stop name]) := by
  have hslash : ∀ c ∈ [' '.toUInt8, '/'.toUInt8], Markup.TagByte c :=
    List.forall_mem_cons.2 ⟨by decide, List.forall_mem_singleton.2 (by decide)⟩
  have hscan := (scan_tagText hname h).append
    ((Markup.reads_tag _ hslash).append (Markup.reads_tagEnd _))
  have htext : emptyTag name attrs = '<'.toUInt8 :: tagText name attrs ++
      ([' '.toUInt8, '/'.toUInt8] ++ ['>'.toUInt8]) := rfl
  rw [← htext] at hscan
  refine Reads.single hscan ?_
  simp only [step, parseTag_empty hname h]
  rw [if_neg (not_over hs), if_pos trivial]

theorem reads_endTag (hname : IsName name) (stack : List (List UInt8))
    (text : List UInt8) (brackets : Nat) (root : Bool) :
    Reads ⟨name :: stack, text, brackets, root⟩ (endTag name)
      ⟨stack, [], 0, root⟩ (flush text ++ [.stop name]) := by
  have hbytes : ∀ b ∈ name, Markup.TagByte b := fun b hb =>
    tagByte_of_isNameByte (List.all_eq_true.1 hname.2 b hb)
  refine Reads.single (Markup.reads_tagText (by decide) hbytes) ?_
  simp only [step, parseTag_closing hname]
  rw [if_pos trivial]

end ScanTags

/-! ## Printed text -/

/-- Bytes that stand for a character: itself, or a reference to it. -/
def StandsFor (c : UInt8) (bs : List UInt8) : Prop :=
  (bs = [c] ∧ c ≠ '<'.toUInt8 ∧ c ≠ '&'.toUInt8 ∧ c ≠ '>'.toUInt8) ∨
    ∃ name, bs = '&'.toUInt8 :: (name ++ [';'.toUInt8]) ∧
      (∀ b ∈ name, b ≠ ';'.toUInt8 ∧ b ≠ '<'.toUInt8 ∧ b ≠ '&'.toUInt8) ∧
      decodeReference name = some [c]

theorem scan_referenceName {name : List UInt8}
    (h : ∀ b ∈ name, b ≠ ';'.toUInt8 ∧ b ≠ '<'.toUInt8 ∧ b ≠ '&'.toUInt8) :
    ∀ read, Markup.Reads (.reference read) name (.reference (read ++ name)) [] := by
  induction name with
  | nil => exact fun read => by simpa using Markup.Reads.nil _
  | cons b name ih =>
    intro read
    rw [List.forall_mem_cons] at h
    obtain ⟨⟨hend, hlt, hamp⟩, hname⟩ := h
    have hb : Markup.step (.reference read) b
        = some (.reference (read ++ [b]), []) := by
      simp [Markup.step, hend, hlt, hamp]
    refine Markup.Reads.cons_nil hb ?_
    simpa using ih hname (read ++ [b])

theorem scan_reference {name : List UInt8}
    (h : ∀ b ∈ name, b ≠ ';'.toUInt8 ∧ b ≠ '<'.toUInt8 ∧ b ≠ '&'.toUInt8) :
    Markup.Reads .text ('&'.toUInt8 :: (name ++ [';'.toUInt8])) .text
      [.reference name] := by
  have hstart : Markup.Reads .text ['&'.toUInt8] (.reference []) [] := by decide
  have hend : Markup.Reads (.reference name) [';'.toUInt8] .text
      [.reference name] := rfl
  exact hstart.append ((scan_referenceName h []).append hend)

/-- A byte of text. -/
theorem reads_char {c : UInt8} (hmarkup : c ≠ '<'.toUInt8 ∧ c ≠ '&'.toUInt8)
    {stack : List (List UInt8)} (hstack : stack ≠ []) {brackets : Nat}
    (hgt : ¬ (c = '>'.toUInt8 ∧ 2 ≤ brackets)) (before : List UInt8)
    (root : Bool) :
    Reads ⟨stack, before, brackets, root⟩ [c]
      ⟨stack, before ++ [c], if c = ']'.toUInt8 then brackets + 1 else 0, root⟩
      [] := by
  have hscan : Markup.Reads .text [c] .text [.char c] :=
    Markup.reads_chars (by simpa using hmarkup)
  refine Reads.single hscan ?_
  rw [step, if_neg hstack, if_neg hgt]

/-- A text that is printed byte by byte. -/
theorem reads_escaped {escape : UInt8 → List UInt8} {text : List UInt8}
    (h : ∀ c ∈ text, StandsFor c (escape c)) {stack : List (List UInt8)}
    (hstack : stack ≠ []) (root : Bool) :
    ∀ before brackets, ∃ last,
      Reads ⟨stack, before, brackets, root⟩ (text.flatMap escape)
        ⟨stack, before ++ text, last, root⟩ [] := by
  induction text with
  | nil => exact fun before brackets => ⟨brackets, by simpa using Reads.nil _⟩
  | cons c text ih =>
    intro before brackets
    rw [List.forall_mem_cons] at h
    have hc : ∃ last, Reads ⟨stack, before, brackets, root⟩ (escape c)
        ⟨stack, before ++ [c], last, root⟩ [] := by
      rcases h.1 with ⟨heq, hlt, hamp, hgt⟩ | ⟨name, heq, hname, hdecode⟩
      · rw [heq]
        exact ⟨_, reads_char ⟨hlt, hamp⟩ hstack (fun hand => hgt hand.1) _ _⟩
      · rw [heq]
        refine ⟨0, Reads.single (scan_reference hname) ?_⟩
        rw [step, if_neg hstack, hdecode]
        rfl
    obtain ⟨middle, hc⟩ := hc
    obtain ⟨last, hlast⟩ := ih h.2 (before ++ [c]) middle
    refine ⟨last, ?_⟩
    rw [List.flatMap_cons]
    simpa using hc.append hlast

/-- What may not be in a text. -/
def cdataEnd : List UInt8 := [']', ']', '>'].map Char.toUInt8

/-- A text that stands for itself. -/
structure IsText (text : List UInt8) : Prop where
  noMarkup : ∀ c ∈ text, c ≠ '<'.toUInt8 ∧ c ≠ '&'.toUInt8
  noEnd : ¬ cdataEnd <:+: text

theorem reads_chars_of_isText {text : List UInt8}
    (h : ∀ c ∈ text, c ≠ '<'.toUInt8 ∧ c ≠ '&'.toUInt8)
    {stack : List (List UInt8)} (hstack : stack ≠ []) (root : Bool) :
    ∀ before brackets,
      ¬ cdataEnd <:+: List.replicate brackets ']'.toUInt8 ++ text →
      ∃ last, Reads ⟨stack, before, brackets, root⟩ text
        ⟨stack, before ++ text, last, root⟩ [] := by
  induction text with
  | nil => exact fun before brackets _ => ⟨brackets, by simpa using Reads.nil _⟩
  | cons c text ih =>
    intro before brackets hend
    rw [List.forall_mem_cons] at h
    have hgt : ¬ (c = '>'.toUInt8 ∧ 2 ≤ brackets) := by
      rintro ⟨rfl, hle⟩
      obtain ⟨n, rfl⟩ := Nat.exists_eq_add_of_le' hle
      refine hend ⟨List.replicate n ']'.toUInt8, text, ?_⟩
      rw [List.replicate_add]
      simp [cdataEnd, List.replicate_succ]
    have hc := reads_char h.1 hstack hgt before root
    have hrest : ¬ cdataEnd <:+: List.replicate
        (if c = ']'.toUInt8 then brackets + 1 else 0) ']'.toUInt8 ++ text := by
      intro hinfix
      apply hend
      split_ifs at hinfix with hbracket
      · simpa [List.replicate_succ', hbracket] using hinfix
      · exact hinfix.trans ((List.suffix_cons c text).isInfix.trans
          (List.suffix_append _ _).isInfix)
    obtain ⟨last, hlast⟩ := ih h.2 (before ++ [c]) _ hrest
    refine ⟨last, ?_⟩
    simpa using hc.append hlast

theorem reads_isText {text : List UInt8} (h : IsText text)
    {stack : List (List UInt8)} (hstack : stack ≠ []) (root : Bool) :
    ∃ last, Reads ⟨stack, [], 0, root⟩ text ⟨stack, text, last, root⟩ [] :=
  reads_chars_of_isText h.noMarkup hstack root [] 0 (by simpa using h.noEnd)

/-! ## Printed documents -/

/-- The text is an element. -/
def IsElement (text : List UInt8) (c : Content) : Prop :=
  ∀ s : State, s.stack ≠ [] ∨ s.root = false →
    Reads s text ⟨s.stack, [], 0, true⟩ (flush s.text ++ contentEvents c)

/-- The text is a content that starts with markup. -/
def Nodes (text : List UInt8) (c : Content) : Prop :=
  ∀ stack before brackets, stack ≠ [] → ∃ behind last out,
    Reads ⟨stack, before, brackets, true⟩ text ⟨stack, behind, last, true⟩ out ∧
      out ++ flush behind = flush before ++ contentEvents c

/-- The text is the inside of an element. -/
def Inside (text : List UInt8) (c : Content) : Prop :=
  ∀ stack, stack ≠ [] → ∃ behind last out,
    Reads ⟨stack, [], 0, true⟩ text ⟨stack, behind, last, true⟩ out ∧
      out ++ flush behind = contentEvents c

/-- A text node in one piece. -/
def textNode (text : List UInt8) (h : text ≠ []) : TextNode :=
  ⟨[text], List.cons_ne_nil _ _, by simpa using h⟩

/-- The content that a text makes. -/
def textContent (text : List UInt8) : Content :=
  if h : text = [] then .nil else .text (textNode text h) .nil

theorem contentEvents_textContent (text : List UInt8) :
    contentEvents (textContent text) = flush text := by
  unfold textContent flush
  split_ifs <;> rfl

theorem IsName.noSlash {name : List UInt8} (h : IsName name) :
    '/'.toUInt8 ∉ name :=
  fun hmem => absurd (List.all_eq_true.1 h.2 _ hmem) (by decide)

/-- Attributes, as they are printed. -/
def attrPairs (attrs : List (Name × List UInt8)) :
    List (List UInt8 × List UInt8) :=
  attrs.map fun a => (a.1.bytes, a.2)

theorem Inside.textContent {text printed : List UInt8}
    (h : ∀ stack, stack ≠ [] → ∃ last,
      Reads ⟨stack, [], 0, true⟩ printed ⟨stack, text, last, true⟩ []) :
    Inside printed (XmlReader.textContent text) := by
  intro stack hstack
  obtain ⟨last, hreads⟩ := h stack hstack
  exact ⟨text, last, [], hreads, (contentEvents_textContent text).symm⟩

theorem Inside.escaped {escape : UInt8 → List UInt8} {text : List UInt8}
    (h : ∀ c ∈ text, StandsFor c (escape c)) :
    Inside (text.flatMap escape) (XmlReader.textContent text) :=
  .textContent fun _ hstack => reads_escaped h hstack true [] 0

theorem Inside.isText {text : List UInt8} (h : IsText text) :
    Inside text (XmlReader.textContent text) :=
  .textContent fun _ hstack => reads_isText h hstack true

theorem Nodes.inside {text : List UInt8} {c : Content} (h : Nodes text c) :
    Inside text c :=
  fun stack hstack => h stack [] 0 hstack

theorem Nodes.nil : Nodes [] .nil :=
  fun stack before brackets _ =>
    ⟨before, brackets, [], .nil _, by simp [contentEvents]⟩

theorem Nodes.append {as bs : List UInt8} {c d : Content} (ha : Nodes as c)
    (hb : Nodes bs d) : Nodes (as ++ bs) (c.append d) := by
  intro stack before brackets hstack
  obtain ⟨middle, m, out, hout, hc⟩ := ha stack before brackets hstack
  obtain ⟨behind, last, out', hout', hd⟩ := hb stack middle m hstack
  refine ⟨behind, last, out ++ out', hout.append hout', ?_⟩
  rw [List.append_assoc, hd, ← List.append_assoc, hc, contentEvents_append,
    List.append_assoc]

/-- An element between two tags. -/
theorem Inside.element {name : Name} {attrs : List (Name × List UInt8)}
    {text : List UInt8} {c : Content} (hname : IsName name.bytes)
    (hattrs : Printable (attrPairs attrs)) (h : Inside text c) :
    IsElement (startTag name.bytes (attrPairs attrs) ++ text ++
      endTag name.bytes) (.element name attrs c .nil) := by
  intro s hs
  obtain ⟨behind, last, out, hreads, hevents⟩ :=
    h (name.bytes :: s.stack) (List.cons_ne_nil _ _)
  have hall := ((reads_startTag hname hattrs hs).append hreads).append
    (reads_endTag hname s.stack behind last true)
  have hout : flush s.text ++ [.start name.bytes (attrPairs attrs)] ++ out ++
      (flush behind ++ [.stop name.bytes])
      = flush s.text ++ contentEvents (.element name attrs c .nil) := by
    rw [contentEvents, ← hevents]
    simp [attrPairs, contentEvents]
  rwa [hout] at hall

/-- An element without content. -/
theorem isElement_empty {name : Name} {attrs : List (Name × List UInt8)}
    (hname : IsName name.bytes) (hattrs : Printable (attrPairs attrs)) :
    IsElement (emptyTag name.bytes (attrPairs attrs))
      (.element name attrs .nil .nil) :=
  fun _ hs => reads_emptyTag hname hattrs hs

theorem IsElement.nodes {text : List UInt8} {c : Content}
    (h : IsElement text c) : Nodes text c :=
  fun stack before brackets hstack =>
    ⟨[], 0, _, h ⟨stack, before, brackets, true⟩ (Or.inl hstack), by
      simp [flush]⟩

/-- An element and some text behind it. -/
theorem IsElement.nodes_text {text behind : List UInt8} {c : Content}
    (h : IsElement text c) (hbehind : IsText behind) :
    Nodes (text ++ behind) (c.append (textContent behind)) := by
  intro stack before brackets hstack
  obtain ⟨last, hlast⟩ := reads_isText hbehind hstack true
  refine ⟨behind, last, _, (h ⟨stack, before, brackets, true⟩
    (Or.inl hstack)).append hlast, ?_⟩
  rw [contentEvents_append, contentEvents_textContent]
  simp

/-- A document that is one element. -/
theorem IsElement.read_eq {text : List UInt8} {c : Content}
    (h : IsElement text c) (hbytes : text.all isXmlByte = true) :
    read text = some (contentEvents c) := by
  obtain ⟨es, hes, hrun⟩ := h ⟨[], [], 0, false⟩ (Or.inr rfl)
  rw [read, if_pos hbytes, Markup.scan_eq_some_iff.2 hes, Option.bind_some, hrun]
  rfl

end XmlReader
