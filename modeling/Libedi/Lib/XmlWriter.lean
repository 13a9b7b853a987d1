import Libedi.Lib.Tags
import Libedi.Lib.XmlReader

/-!
# Writing documents

A document that is written item by item: tags, comments and pieces of text.  The
reader does with the printed items what `itemStep` does with the items
(`read_printed`), so that nothing has to be said about bytes behind this.

`Inner` and `Outlined` are grammars of what a program may write.  The inside of
an element is nested by itself, and around the elements there are tags that a
program opens at one place and closes at another one.  `read_outlined` says when
a document of this kind is well formed, and what is in its leaves then.
-/

namespace XmlReader

open Markup (Event)
open XmlTree

/-! ## Items -/

/-- An item of a document. -/
inductive Item where
  | opening (name : List UInt8) (attrs : List (List UInt8 × List UInt8))
  | closing (name : List UInt8)
  | empty (name : List UInt8)
  | comment
  | text (t : List UInt8)
  deriving DecidableEq, Repr

/-- A character of a text. -/
def textStep (s : State) (c : UInt8) : Option State :=
  if s.stack = [] then if isSpace c then some s else none
  else if c = '>'.toUInt8 ∧ 2 ≤ s.brackets then none
  else some { s with
    text := s.text ++ [c]
    brackets := if c = ']'.toUInt8 then s.brackets + 1 else 0 }

/-- An item: the state behind it, and the events that it completes. -/
def itemStep (s : State) : Item → Option (State × List XmlEvent)
  | .opening name attrs =>
    if s.stack = [] ∧ s.root then none
    else some (⟨name :: s.stack, [], 0, true⟩,
      flush s.text ++ [.start name attrs])
  | .closing name =>
    match s.stack with
    | [] => none
    | top :: stack =>
      if top = name then
        some (⟨stack, [], 0, s.root⟩, flush s.text ++ [.stop name])
      else none
  | .empty name =>
    if s.stack = [] ∧ s.root then none
    else some (⟨s.stack, [], 0, true⟩,
      flush s.text ++ [.start name [], .stop name])
  | .comment => some (s.marked, flush s.text)
  | .text t => (t.foldlM textStep s).map fun s => (s, [])

/-- Items: the state behind them, and their events. -/
def itemsRun (s : State) : List Item → Option (State × List XmlEvent)
  | [] => some (s, [])
  | i :: is => (itemStep s i).bind fun r => (itemsRun r.1 is).map fun t =>
    (t.1, r.2 ++ t.2)

theorem itemsRun_append (s : State) (is js : List Item) :
    itemsRun s (is ++ js) = (itemsRun s is).bind fun r =>
      (itemsRun r.1 js).map fun t => (t.1, r.2 ++ t.2) := by
  induction is generalizing s with
  | nil => simp [itemsRun]
  | cons i is ih =>
    rw [List.cons_append, itemsRun, itemsRun, Option.bind_assoc]
    congr 1
    funext r
    rw [ih, Option.bind_map, Option.map_bind]
    congr 1
    funext t
    simp [Function.comp_def]

/-- What is behind an item that is read. -/
theorem itemsRun_cons_of_eq {s s' : State} {i : Item} {out : List XmlEvent}
    (h : itemStep s i = some (s', out)) (is : List Item) :
    itemsRun s (i :: is) = (itemsRun s' is).map fun t => (t.1, out ++ t.2) := by
  rw [itemsRun, h, Option.bind_some]

theorem itemsRun_singleton (s : State) (i : Item) :
    itemsRun s [i] = itemStep s i := by
  cases h : itemStep s i with
  | none => rw [itemsRun, h, Option.bind_none]
  | some r =>
    rw [itemsRun_cons_of_eq h]
    simp [itemsRun]

/-! ## Printed items -/

/-- The bytes are read as the item. -/
def Prints (printed : List UInt8) (i : Item) : Prop :=
  ∃ es, Markup.Reads .text printed .text es ∧ ∀ s, run s es = itemStep s i

theorem run_append_eq (s : State) (es fs : List Event) :
    run s (es ++ fs) = (run s es).bind fun r =>
      (run r.1 fs).map fun t => (t.1, r.2 ++ t.2) := by
  induction es generalizing s with
  | nil => simp [run]
  | cons e es ih =>
    rw [List.cons_append, run, run, Option.bind_assoc]
    congr 1
    funext r
    rw [ih, Option.bind_map, Option.map_bind]
    congr 1
    funext t
    simp [Function.comp_def]

/-- Bytes that are one piece of markup. -/
theorem prints_of_step {printed : List UInt8} {e : Event} {i : Item}
    (hscan : Markup.Reads .text printed .text [e])
    (hstep : ∀ s, step s e = itemStep s i) : Prints printed i :=
  ⟨[e], hscan, fun s => by rw [run_singleton, hstep]⟩

section Tags

variable {name : List UInt8}

theorem prints_startTag (hname : IsName name)
    {attrs : List (List UInt8 × List UInt8)} (h : Printable attrs) :
    Prints (startTag name attrs) (.opening name attrs) := by
  refine prints_of_step
    ((scan_tagText hname h).append (Markup.reads_tagEnd _)) fun s => ?_
  simp [step, itemStep, parseTag_opening hname h]

theorem prints_emptyTag (hname : IsName name) :
    Prints (emptyTag name []) (.empty name) := by
  have hnone : Printable [] := ⟨by simp, by simp, List.nodup_nil⟩
  have hslash : ∀ c ∈ [' '.toUInt8, '/'.toUInt8], Markup.TagByte c :=
    List.forall_mem_cons.2 ⟨by decide, List.forall_mem_singleton.2 (by decide)⟩
  have hscan := (scan_tagText hname hnone).append
    ((Markup.reads_tag _ hslash).append (Markup.reads_tagEnd _))
  have htext : emptyTag name [] = '<'.toUInt8 :: tagText name [] ++
      ([' '.toUInt8, '/'.toUInt8] ++ ['>'.toUInt8]) := rfl
  rw [← htext] at hscan
  refine prints_of_step hscan fun s => ?_
  simp [step, itemStep, parseTag_empty hname hnone]

theorem prints_endTag (hname : IsName name) :
    Prints (endTag name) (.closing name) := by
  have hbytes : ∀ b ∈ name, Markup.TagByte b := fun b hb =>
    tagByte_of_isNameByte (List.all_eq_true.1 hname.2 b hb)
  refine prints_of_step (Markup.reads_tagText (by decide) hbytes) fun s => ?_
  obtain ⟨_ | ⟨top, stack⟩, text, brackets, root⟩ := s <;>
    simp [step, itemStep, parseTag_closing hname]

end Tags

theorem prints_comment {body : List UInt8} (h : ¬ Markup.doubleDash <:+: body)
    (hlast : body.getLast? ≠ some '-'.toUInt8) :
    Prints (Markup.commentText body) .comment :=
  prints_of_step (Markup.reads_commentText h hlast) fun _ => rfl

/-- A character of a text, by itself or as a reference. -/
inductive PrintsChar (c : UInt8) : List UInt8 → Prop where
  | self (h : c ≠ '<'.toUInt8 ∧ c ≠ '&'.toUInt8) : PrintsChar c [c]
  | reference (h : c = '<'.toUInt8 ∨ c = '&'.toUInt8) (name : List UInt8)
      (hname : ∀ b ∈ name,
        b ≠ ';'.toUInt8 ∧ b ≠ '<'.toUInt8 ∧ b ≠ '&'.toUInt8)
      (hdecode : decodeReference name = some [c]) :
      PrintsChar c ('&'.toUInt8 :: (name ++ [';'.toUInt8]))

/-- A character is read in one step. -/
theorem PrintsChar.reads {c : UInt8} {printed : List UInt8}
    (h : PrintsChar c printed) :
    ∃ e, Markup.Reads .text printed .text [e] ∧
      ∀ s, step s e = (textStep s c).map fun s => (s, []) := by
  cases h with
  | self h =>
    refine ⟨.char c, Markup.reads_chars (by simpa using h), fun s => ?_⟩
    rw [step, textStep]
    split_ifs <;> rfl
  | reference hmarkup name hname hdecode =>
    refine ⟨.reference name, scan_reference hname, fun s => ?_⟩
    have hc : isSpace c = false ∧ c ≠ '>'.toUInt8 ∧ c ≠ ']'.toUInt8 := by
      rcases hmarkup with rfl | rfl <;> decide
    obtain ⟨hspace, hgt, hbracket⟩ := hc
    rw [step, textStep, hdecode]
    by_cases hstack : s.stack = [] <;> simp [hstack, hspace, hgt, hbracket]

theorem prints_text {escape : UInt8 → List UInt8} {text : List UInt8}
    (h : ∀ c ∈ text, PrintsChar c (escape c)) :
    Prints (text.flatMap escape) (.text text) := by
  induction text with
  | nil => exact ⟨[], .nil _, fun s => rfl⟩
  | cons c text ih =>
    rw [List.forall_mem_cons] at h
    obtain ⟨e, hscan, hstep⟩ := h.1.reads
    obtain ⟨es, hes, hrun⟩ := ih h.2
    refine ⟨e :: es, hscan.append hes, fun s => ?_⟩
    rw [run, hstep, itemStep, List.foldlM_cons]
    cases hc : textStep s c with
    | none => rfl
    | some t =>
      rw [Option.map_some, Option.bind_some, hrun, itemStep]
      simp [Function.comp_def]

/-- A document, by its items. -/
theorem read_printed {ι : Type*} {l : List ι} {printed : ι → List UInt8}
    {item : ι → Item} (h : ∀ x ∈ l, Prints (printed x) (item x))
    (hbytes : ∀ x ∈ l, (printed x).all isXmlByte = true) :
    read (l.flatMap printed)
      = (itemsRun ⟨[], [], 0, false⟩ (l.map item)).bind fun r =>
        if r.1.stack = [] ∧ r.1.root then some r.2 else none := by
  have hall : (l.flatMap printed).all isXmlByte = true := by
    rw [List.all_flatMap, List.all_eq_true]
    exact hbytes
  have hread : ∃ es, Markup.Reads .text (l.flatMap printed) .text es ∧
      ∀ s, run s es = itemsRun s (l.map item) := by
    clear hall hbytes
    induction l with
    | nil => exact ⟨[], .nil _, fun s => rfl⟩
    | cons x l ih =>
      rw [List.forall_mem_cons] at h
      obtain ⟨es, hes, hstep⟩ := h.1
      obtain ⟨fs, hfs, hrun⟩ := ih h.2
      refine ⟨es ++ fs, hes.append hfs, fun s => ?_⟩
      rw [run_append_eq, hstep, List.map_cons, itemsRun]
      simp only [hrun]
  obtain ⟨es, hes, hrun⟩ := hread
  rw [read, if_pos hall, Markup.scan_eq_some_iff.2 hes, Option.bind_some, hrun]

/-! ## Texts -/

/-- The text can be in an element as it is. -/
def FineText (t : List UInt8) : Prop := ¬ cdataEnd <:+: t

instance (t : List UInt8) : Decidable (FineText t) :=
  inferInstanceAs (Decidable (¬ _))

/-- Brackets in front of another character are not the beginning of the end. -/
theorem cdataEnd_infix_of_brackets {c : UInt8} (hc : c ≠ ']'.toUInt8)
    {t : List UInt8} {brackets : Nat}
    (hgt : ¬ (c = '>'.toUInt8 ∧ 2 ≤ brackets))
    (h : cdataEnd <:+: List.replicate brackets ']'.toUInt8 ++ c :: t) :
    cdataEnd <:+: t := by
  induction brackets with
  | zero =>
    rw [List.replicate_zero, List.nil_append, List.infix_cons_iff] at h
    rcases h with hstart | ht
    · exact absurd (List.cons_prefix_cons.1 hstart).1.symm hc
    · exact ht
  | succ n ih =>
    rw [List.replicate_succ, List.cons_append, List.infix_cons_iff] at h
    rcases h with hstart | hrest
    · have hsecond := (List.cons_prefix_cons.1 hstart).2
      obtain - | - | n := n
      · exact absurd (List.cons_prefix_cons.1 hsecond).1.symm hc
      · have hthird := (List.cons_prefix_cons.1 hsecond).2
        exact absurd ⟨(List.cons_prefix_cons.1 hthird).1.symm, le_rfl⟩ hgt
      · have hthird := (List.cons_prefix_cons.1 hsecond).2
        exact absurd (List.cons_prefix_cons.1 hthird).1 (by decide)
    · exact ih (fun hand => hgt ⟨hand.1, Nat.le_succ_of_le hand.2⟩) hrest

/-- A text behind some brackets is read exactly if they are not the beginning of
the end. -/
theorem foldlM_textStep_isSome_iff {t : List UInt8} {s : State}
    (hstack : s.stack ≠ []) :
    (t.foldlM textStep s).isSome = true ↔
      ¬ cdataEnd <:+: List.replicate s.brackets ']'.toUInt8 ++ t := by
  induction t generalizing s with
  | nil =>
    rw [List.append_nil]
    refine ⟨fun _ h => ?_, fun _ => rfl⟩
    have hgt := h.subset (show '>'.toUInt8 ∈ cdataEnd by decide)
    exact absurd (List.eq_of_mem_replicate hgt) (by decide)
  | cons c t ih =>
    rw [List.foldlM_cons, textStep, if_neg hstack]
    split_ifs with hgt hc
    · obtain ⟨rfl, hle⟩ := hgt
      obtain ⟨n, hn⟩ := Nat.exists_eq_add_of_le' hle
      refine ⟨fun h => absurd h (by simp), fun h => absurd ?_ h⟩
      refine ⟨List.replicate n ']'.toUInt8, t, ?_⟩
      rw [hn, List.replicate_add]
      simp [cdataEnd, List.replicate_succ]
    · subst hc
      have hrest := @ih { s with
        text := s.text ++ [']'.toUInt8], brackets := s.brackets + 1 } hstack
      rw [List.replicate_succ', List.append_assoc, List.singleton_append]
        at hrest
      exact hrest
    · have hrest := @ih { s with text := s.text ++ [c], brackets := 0 } hstack
      rw [List.replicate_zero, List.nil_append] at hrest
      refine Iff.trans hrest (not_congr ⟨fun h => ?_,
        cdataEnd_infix_of_brackets hc hgt⟩)
      exact h.trans ((List.suffix_cons c t).isInfix.trans
        (List.suffix_append _ _).isInfix)

/-- What a text leaves of the state. -/
theorem foldlM_textStep_eq {t : List UInt8} {s s' : State}
    (hstack : s.stack ≠ []) (h : t.foldlM textStep s = some s') :
    s'.stack = s.stack ∧ s'.root = s.root ∧ s'.text = s.text ++ t := by
  induction t generalizing s with
  | nil =>
    obtain rfl := Option.some.inj h
    simp
  | cons c t ih =>
    rw [List.foldlM_cons, textStep, if_neg hstack] at h
    split_ifs at h with hgt
    · simp at h
    · obtain ⟨hs, hroot, htext⟩ := @ih { s with
        text := s.text ++ [c], brackets := s.brackets + 1 } hstack h
      exact ⟨hs, hroot, by simpa using htext⟩
    · obtain ⟨hs, hroot, htext⟩ := @ih { s with
        text := s.text ++ [c], brackets := 0 } hstack h
      exact ⟨hs, hroot, by simpa using htext⟩

/-- Spaces may stand anywhere.  Outside of the elements they are not kept. -/
theorem foldlM_textStep_spaces {t : List UInt8}
    (h : ∀ c ∈ t, isSpace c = true) (s : State) :
    ∃ s', t.foldlM textStep s = some s' ∧ s'.stack = s.stack ∧
      s'.root = s.root ∧
      s'.text = if s.stack = [] then s.text else s.text ++ t := by
  by_cases hstack : s.stack = []
  · refine ⟨s, ?_, rfl, rfl, by rw [if_pos hstack]⟩
    induction t with
    | nil => rfl
    | cons c t ih =>
      rw [List.forall_mem_cons] at h
      rw [List.foldlM_cons, textStep, if_pos hstack, if_pos h.1]
      exact ih h.2
  · have hgt : '>'.toUInt8 ∉ t := fun hmem =>
      absurd (h _ hmem) (by decide)
    have hsome := (@foldlM_textStep_isSome_iff t s hstack).2 (by
      intro hend
      have hmem := hend.subset (show '>'.toUInt8 ∈ cdataEnd by decide)
      rcases List.mem_append.1 hmem with hbrackets | ht
      · exact absurd (List.eq_of_mem_replicate hbrackets) (by decide)
      · exact hgt ht)
    obtain ⟨s', hs'⟩ := Option.isSome_iff_exists.1 hsome
    obtain ⟨hs, hroot, htext⟩ := foldlM_textStep_eq hstack hs'
    exact ⟨s', hs', hs, hroot, by rw [htext, if_neg hstack]⟩

/-! ## Leaves -/

/-- The name of an element, and the text in it. -/
abbrev Leaf := List UInt8 × List UInt8

/-- More text of a leaf. -/
def Leaf.add (t : List UInt8) (l : Leaf) : Leaf := (l.1, l.2 ++ t)

@[simp] theorem Leaf.add_nil (l : Leaf) : l.add [] = l := by
  simp [Leaf.add]

@[simp] theorem Leaf.add_add (l : Leaf) (t u : List UInt8) :
    (l.add t).add u = l.add (t ++ u) := by
  simp [Leaf.add]

/-- An event: the element that may be a leaf, and the leaf that is complete. -/
def leafStep (cur : Option Leaf) : XmlEvent → Option Leaf × List Leaf
  | .start name _ => (some (name, []), [])
  | .stop _ => (none, cur.toList)
  | .chars t => (cur.map (Leaf.add t), [])

def leafRun (cur : Option Leaf) : List XmlEvent → Option Leaf × List Leaf
  | [] => (cur, [])
  | e :: es =>
    let r := leafStep cur e
    let t := leafRun r.1 es
    (t.1, r.2 ++ t.2)

/-- The elements without an element in them. -/
def leaves (events : List XmlEvent) : List Leaf := (leafRun none events).2

theorem leafRun_append (cur : Option Leaf) (es fs : List XmlEvent) :
    leafRun cur (es ++ fs) = ((leafRun (leafRun cur es).1 fs).1,
      (leafRun cur es).2 ++ (leafRun (leafRun cur es).1 fs).2) := by
  induction es generalizing cur with
  | nil => rfl
  | cons e es ih => simp [leafRun, ih]

theorem leafRun_flush (cur : Option Leaf) (t : List UInt8) :
    leafRun cur (flush t) = (cur.map (Leaf.add t), []) := by
  unfold flush
  split_ifs with ht
  · subst ht
    cases cur <;> simp [leafRun]
  · rfl

/-- An item: the element that may be a leaf, and the leaf that is complete. -/
def itemLeafStep (cur : Option Leaf) : Item → Option Leaf × List Leaf
  | .opening name _ => (some (name, []), [])
  | .closing _ => (none, cur.toList)
  | .empty name => (none, [(name, [])])
  | .comment => (cur, [])
  | .text t => (cur.map (Leaf.add t), [])

def itemLeaves (cur : Option Leaf) : List Item → Option Leaf × List Leaf
  | [] => (cur, [])
  | i :: is =>
    let r := itemLeafStep cur i
    let t := itemLeaves r.1 is
    (t.1, r.2 ++ t.2)

theorem itemLeaves_append (cur : Option Leaf) (is js : List Item) :
    itemLeaves cur (is ++ js) = ((itemLeaves (itemLeaves cur is).1 js).1,
      (itemLeaves cur is).2 ++ (itemLeaves (itemLeaves cur is).1 js).2) := by
  induction is generalizing cur with
  | nil => rfl
  | cons i is ih => simp [itemLeaves, ih]

/-- The leaf of the items is the leaf of the events with the text that is not
flushed. -/
structure LeafMatches (s : State) (event item : Option Leaf) : Prop where
  outside : s.stack = [] → event = none
  item_eq : item = event.map (Leaf.add s.text)

/-- The events of an item complete the leaf that the item completes. -/
theorem LeafMatches.step {s s' : State} {i : Item} {out : List XmlEvent}
    {event item : Option Leaf} (h : LeafMatches s event item)
    (hstep : itemStep s i = some (s', out)) :
    (leafRun event out).2 = (itemLeafStep item i).2 ∧
      LeafMatches s' (leafRun event out).1 (itemLeafStep item i).1 := by
  obtain ⟨houtside, rfl⟩ := h
  cases i with
  | opening name attrs =>
    rw [itemStep] at hstep
    split_ifs at hstep
    obtain ⟨rfl, rfl⟩ := Prod.mk.inj (Option.some.inj hstep)
    rw [leafRun_append, leafRun_flush]
    exact ⟨rfl, by simp, by simp [leafRun, leafStep, itemLeafStep]⟩
  | closing name =>
    rw [itemStep] at hstep
    split at hstep
    · simp at hstep
    · split_ifs at hstep
      obtain ⟨rfl, rfl⟩ := Prod.mk.inj (Option.some.inj hstep)
      rw [leafRun_append, leafRun_flush]
      refine ⟨?_, fun _ => rfl, rfl⟩
      simp [leafRun, leafStep, itemLeafStep]
  | empty name =>
    rw [itemStep] at hstep
    split_ifs at hstep
    obtain ⟨rfl, rfl⟩ := Prod.mk.inj (Option.some.inj hstep)
    rw [leafRun_append, leafRun_flush]
    exact ⟨rfl, fun _ => rfl, rfl⟩
  | comment =>
    obtain ⟨rfl, rfl⟩ := Prod.mk.inj (Option.some.inj hstep)
    rw [leafRun_flush]
    refine ⟨rfl, fun hs => ?_, ?_⟩
    · rw [houtside hs]
      rfl
    · simp [itemLeafStep, State.marked, Option.map_map, Function.comp_def]
  | text t =>
    obtain ⟨s'', hs'', heq⟩ := Option.map_eq_some_iff.1 hstep
    obtain ⟨rfl, rfl⟩ := Prod.mk.inj heq
    by_cases hstack : s.stack = []
    · obtain rfl := houtside hstack
      exact ⟨rfl, fun _ => rfl, rfl⟩
    · obtain ⟨hs, -, htext⟩ := foldlM_textStep_eq hstack hs''
      refine ⟨rfl, fun hnil => absurd (hs ▸ hnil) hstack, ?_⟩
      simp [itemLeafStep, leafRun, htext, Option.map_map, Function.comp_def]

theorem LeafMatches.run {s s' : State} {is : List Item} {out : List XmlEvent}
    {event item : Option Leaf} (h : LeafMatches s event item)
    (hrun : itemsRun s is = some (s', out)) :
    (leafRun event out).2 = (itemLeaves item is).2 ∧
      LeafMatches s' (leafRun event out).1 (itemLeaves item is).1 := by
  induction is generalizing s event item out with
  | nil =>
    obtain ⟨rfl, rfl⟩ := Prod.mk.inj (Option.some.inj hrun)
    exact ⟨rfl, h⟩
  | cons i is ih =>
    rw [itemsRun] at hrun
    obtain ⟨r, hr, hrun⟩ := Option.bind_eq_some_iff.1 hrun
    obtain ⟨t, ht, heq⟩ := Option.map_eq_some_iff.1 hrun
    obtain ⟨rfl, rfl⟩ := Prod.mk.inj heq
    obtain ⟨hleaf, hmatches⟩ := h.step hr
    obtain ⟨hrest, hlast⟩ := ih hmatches ht
    rw [leafRun_append]
    refine ⟨?_, hlast⟩
    rw [hleaf, hrest]
    rfl

/-! ## The inside of an element -/

/-- There is an element among the items. -/
def HasElement (is : List Item) : Prop :=
  ∃ name, .closing name ∈ is ∨ .empty name ∈ is

/-- What may stand in an element, and the leaves of it whose names are selected.
A text is a leaf of its own, or it is white space. -/
inductive Inner (sel : List UInt8 → Bool) : List Item → List Leaf → Prop where
  | nil : Inner sel [] []
  | append {is js : List Item} {ls ms : List Leaf} (his : Inner sel is ls)
      (hjs : Inner sel js ms) : Inner sel (is ++ js) (ls ++ ms)
  | comment : Inner sel [.comment] []
  | spaces {t : List UInt8} (h : ∀ c ∈ t, isSpace c = true) :
      Inner sel [.text t] []
  | empty {name : List UInt8} (h : sel name = false) :
      Inner sel [.empty name] []
  | leaf (name : List UInt8) (attrs : List (List UInt8 × List UInt8))
      (comments : Nat) {t : List UInt8} (h : sel name = true ∨ FineText t) :
      Inner sel (.opening name attrs :: (List.replicate comments .comment ++
        [.text t, .closing name])) (if sel name then [(name, t)] else [])
  | element (name : List UInt8) (attrs : List (List UInt8 × List UInt8))
      {is : List Item} {ls : List Leaf} (his : Inner sel is ls)
      (h : sel name = false ∨ HasElement is) :
      Inner sel (.opening name attrs :: (is ++ [.closing name])) ls

section Inner

variable {sel : List UInt8 → Bool} {is : List Item} {ls : List Leaf}

/-- The state in an element that is open. -/
structure Open (s : State) : Prop where
  stack : s.stack ≠ []
  root : s.root = true

/-- The items are read, and the same elements are open behind them. -/
def Passes (s : State) (is : List Item) : Prop :=
  ∃ s' out, itemsRun s is = some (s', out) ∧ s'.stack = s.stack ∧
    s'.root = true

theorem itemsRun_comments (comments : Nat) {s : State} (hs : s.brackets = 0) :
    ∃ s' out, itemsRun s (List.replicate comments .comment)
      = some (s', out) ∧ s'.stack = s.stack ∧ s'.root = s.root ∧
        s'.brackets = 0 := by
  induction comments generalizing s with
  | zero => exact ⟨s, [], rfl, rfl, rfl, hs⟩
  | succ n ih =>
    obtain ⟨s', out, hrun, hstack, hroot, hbrackets⟩ := @ih s.marked rfl
    refine ⟨s', flush s.text ++ out, ?_, hstack, hroot, hbrackets⟩
    have hcomment : itemStep s .comment = some (s.marked, flush s.text) := rfl
    rw [List.replicate_succ, itemsRun_cons_of_eq hcomment, hrun,
      Option.map_some]

/-- The end of an element. -/
theorem itemStep_closing {s : State} {name : List UInt8}
    {stack : List (List UInt8)} (hs : s.stack = name :: stack) :
    itemStep s (.closing name)
      = some (⟨stack, [], 0, s.root⟩, flush s.text ++ [.stop name]) := by
  rw [itemStep, hs]
  simp

/-- An element is read if its inside is. -/
theorem itemsRun_element {s : State} (name : List UInt8)
    (attrs : List (List UInt8 × List UInt8)) (is : List Item)
    (hover : ¬ (s.stack = [] ∧ s.root = true)) :
    (Passes ⟨name :: s.stack, [], 0, true⟩ is →
      Passes s (.opening name attrs :: (is ++ [.closing name]))) ∧
    (itemsRun ⟨name :: s.stack, [], 0, true⟩ is = none →
      itemsRun s (.opening name attrs :: (is ++ [.closing name])) = none) := by
  have hopening : itemStep s (.opening name attrs)
      = some (⟨name :: s.stack, [], 0, true⟩,
        flush s.text ++ [.start name attrs]) := by
    rw [itemStep, if_neg hover]
  constructor
  · rintro ⟨s', out, hrun, hstack, hroot⟩
    have hall : itemsRun s (.opening name attrs :: (is ++ [.closing name]))
        = some (⟨s.stack, [], 0, s'.root⟩, flush s.text ++ [.start name attrs] ++
          (out ++ (flush s'.text ++ [.stop name]))) := by
      rw [itemsRun_cons_of_eq hopening, itemsRun_append, hrun, Option.bind_some,
        itemsRun_singleton, itemStep_closing hstack]
      rfl
    exact ⟨_, _, hall, rfl, hroot⟩
  · intro hnone
    rw [itemsRun_cons_of_eq hopening, itemsRun_append, hnone]
    rfl

/-- A text behind some comments. -/
theorem itemsRun_leaf (comments : Nat) {t : List UInt8} {s : State}
    (hs : Open s) (hbrackets : s.brackets = 0) :
    (FineText t →
      Passes s (List.replicate comments .comment ++ [.text t])) ∧
    (¬ FineText t →
      itemsRun s (List.replicate comments .comment ++ [.text t]) = none) := by
  obtain ⟨s', out, hrun, hstack, hroot, hzero⟩ :=
    itemsRun_comments comments hbrackets
  have hiff := @foldlM_textStep_isSome_iff t s' (hstack ▸ hs.stack)
  rw [hzero, List.replicate_zero, List.nil_append] at hiff
  rw [itemsRun_append, hrun, Option.bind_some, itemsRun_singleton, itemStep]
  constructor
  · intro hfine
    obtain ⟨s'', hs''⟩ := Option.isSome_iff_exists.1 (hiff.2 hfine)
    obtain ⟨hsame, hroot', -⟩ := foldlM_textStep_eq (hstack ▸ hs.stack) hs''
    refine ⟨s'', out ++ [], ?_, hsame.trans hstack,
      hroot'.trans (hroot.trans hs.root)⟩
    rw [itemsRun_append, hrun, Option.bind_some, itemsRun_singleton, itemStep,
      hs'']
    rfl
  · intro hfine
    have hnone : t.foldlM textStep s' = none :=
      Option.not_isSome_iff_eq_none.1 fun h => hfine (hiff.1 h)
    rw [hnone]
    rfl

/-- The inside of an element is read exactly if each selected leaf is fine. -/
theorem Inner.run (h : Inner sel is ls) {s : State} (hs : Open s) :
    ((∀ l ∈ ls, FineText l.2) → Passes s is) ∧
      (¬ (∀ l ∈ ls, FineText l.2) → itemsRun s is = none) := by
  induction h generalizing s with
  | nil => exact ⟨fun _ => ⟨s, [], rfl, rfl, hs.root⟩, fun h => absurd h (by simp)⟩
  | @append is js ls ms _ _ ihis ihjs =>
    rw [List.forall_mem_append, itemsRun_append]
    by_cases hls : ∀ l ∈ ls, FineText l.2
    · obtain ⟨s', out, hrun, hstack, hroot⟩ := (ihis hs).1 hls
      have hs' : Open s' := ⟨hstack ▸ hs.stack, hroot⟩
      refine ⟨fun hall => ?_, fun hnot => ?_⟩
      · obtain ⟨s'', out', hrun', hstack', hroot'⟩ := (ihjs hs').1 hall.2
        refine ⟨s'', out ++ out', ?_, hstack'.trans hstack, hroot'⟩
        rw [itemsRun_append, hrun, Option.bind_some, hrun', Option.map_some]
      · rw [hrun, Option.bind_some, (ihjs hs').2 fun hms => hnot ⟨hls, hms⟩]
        rfl
    · refine ⟨fun hall => absurd hall.1 hls, fun _ => ?_⟩
      rw [(ihis hs).2 hls]
      rfl
  | comment =>
    exact ⟨fun _ => ⟨s.marked, _, itemsRun_singleton _ _, rfl, hs.root⟩,
      fun h => absurd h (by simp)⟩
  | @spaces t ht =>
    refine ⟨fun _ => ?_, fun h => absurd h (by simp)⟩
    obtain ⟨s', hs', hstack, hroot, -⟩ := foldlM_textStep_spaces ht s
    refine ⟨s', [], ?_, hstack, hroot.trans hs.root⟩
    rw [itemsRun_singleton, itemStep, hs', Option.map_some]
  | @empty name hname =>
    have hall : itemsRun s [.empty name] = some (⟨s.stack, [], 0, true⟩,
        flush s.text ++ [.start name [], .stop name]) := by
      rw [itemsRun_singleton, itemStep, if_neg fun hand => hs.stack hand.1]
    exact ⟨fun _ => ⟨_, _, hall, rfl, rfl⟩, fun h => absurd h (by simp)⟩
  | @leaf name attrs comments t ht =>
    have hiff : (∀ l ∈ (if sel name then [(name, t)] else []), FineText l.2) ↔
        FineText t := by
      split_ifs with hsel
      · exact List.forall_mem_singleton
      · exact ⟨fun _ => ht.resolve_left hsel, fun _ => by simp⟩
    have hopen : Open ⟨name :: s.stack, [], 0, true⟩ :=
      ⟨List.cons_ne_nil _ _, rfl⟩
    obtain ⟨hpasses, hnone⟩ := @itemsRun_element s name attrs
      (List.replicate comments .comment ++ [.text t])
      fun hand => hs.stack hand.1
    obtain ⟨hleaf, hbad⟩ := @itemsRun_leaf comments t _ hopen rfl
    rw [List.append_assoc] at hpasses hnone
    rw [hiff]
    exact ⟨fun hfine => hpasses (hleaf hfine), fun hfine => hnone (hbad hfine)⟩
  | element name attrs _ _ ih =>
    obtain ⟨hpasses, hnone⟩ := @itemsRun_element s name attrs _
      fun hand => hs.stack hand.1
    have hopen : Open ⟨name :: s.stack, [], 0, true⟩ :=
      ⟨List.cons_ne_nil _ _, rfl⟩
    exact ⟨fun hls => hpasses ((ih hopen).1 hls),
      fun hls => hnone ((ih hopen).2 hls)⟩

/-! ## Selected leaves -/

/-- No leaf with a selected name has begun. -/
def Unselected (sel : List UInt8 → Bool) (cur : Option Leaf) : Prop :=
  ∀ l ∈ cur, sel l.1 = false

theorem Unselected.toList_filter {cur : Option Leaf} (h : Unselected sel cur) :
    cur.toList.filter (fun l => sel l.1) = [] := by
  cases cur with
  | none => rfl
  | some l => simp [h l rfl]

theorem unselected_none : Unselected sel none := fun _ hl => by simp at hl

theorem unselected_some {l : Leaf} (h : sel l.1 = false) :
    Unselected sel (some l) := by
  rintro m hm
  obtain rfl := Option.some.inj hm
  exact h

theorem Unselected.add {cur : Option Leaf} (h : Unselected sel cur)
    (t : List UInt8) : Unselected sel (cur.map (Leaf.add t)) := by
  cases cur with
  | none => exact unselected_none
  | some l => exact unselected_some (h l rfl)

theorem itemLeaves_comments (cur : Option Leaf) (comments : Nat) :
    itemLeaves cur (List.replicate comments .comment) = (cur, []) := by
  induction comments with
  | zero => rfl
  | succ n ih =>
    rw [List.replicate_succ, itemLeaves]
    exact ih

/-- A text behind some comments. -/
theorem itemLeaves_leaf (cur : Option Leaf) (name : List UInt8)
    (attrs : List (List UInt8 × List UInt8)) (comments : Nat) (t : List UInt8) :
    itemLeaves cur (.opening name attrs :: (List.replicate comments .comment ++
      [.text t, .closing name])) = (none, [(name, t)]) := by
  rw [itemLeaves]
  simp only [itemLeafStep, itemLeaves_append, itemLeaves_comments, itemLeaves]
  simp [Leaf.add]

/-- No leaf is left over where none has begun. -/
theorem Inner.leaf_none (h : Inner sel is ls) : (itemLeaves none is).1 = none := by
  induction h with
  | append _ _ ihis ihjs => rw [itemLeaves_append, ihis, ihjs]
  | leaf name attrs comments _ => rw [itemLeaves_leaf]
  | element name attrs _ _ ih =>
    rw [itemLeaves, itemLeaves_append]
    rfl
  | _ => rfl

/-- Behind an element no leaf is left over. -/
theorem Inner.leaf_of_hasElement (h : Inner sel is ls) (hhas : HasElement is)
    (cur : Option Leaf) : (itemLeaves cur is).1 = none := by
  induction h generalizing cur with
  | nil => simp [HasElement] at hhas
  | @append is js _ _ his hjs ihis ihjs =>
    rw [itemLeaves_append]
    by_cases hlast : HasElement js
    · exact ihjs hlast _
    · have hfirst : HasElement is := by
        obtain ⟨name, hmem⟩ := hhas
        simp only [List.mem_append] at hmem
        refine ⟨name, ?_⟩
        by_contra hno
        exact hlast ⟨name, by tauto⟩
      rw [ihis hfirst cur]
      exact hjs.leaf_none
  | comment => simp [HasElement] at hhas
  | spaces => simp [HasElement] at hhas
  | empty => rfl
  | leaf name attrs comments _ => rw [itemLeaves_leaf]
  | element name attrs _ _ _ =>
    rw [itemLeaves, itemLeaves_append]
    rfl

/-- What begun before is not completed in an element. -/
theorem Inner.leaves_none (h : Inner sel is ls) (cur : Option Leaf) :
    (itemLeaves cur is).2 = (itemLeaves none is).2 := by
  induction h generalizing cur with
  | append _ _ ihis ihjs =>
    rw [itemLeaves_append, itemLeaves_append]
    dsimp only
    rw [ihis cur, ihjs (itemLeaves cur _).1, ihjs (itemLeaves none _).1]
  | leaf name attrs comments _ => rw [itemLeaves_leaf, itemLeaves_leaf]
  | _ => rfl

/-- The selected leaves of the items are those that the grammar names. -/
theorem Inner.leaves_eq (h : Inner sel is ls) {cur : Option Leaf}
    (hcur : Unselected sel cur) :
    (itemLeaves cur is).2.filter (fun l => sel l.1) = ls ∧
      Unselected sel (itemLeaves cur is).1 := by
  induction h generalizing cur with
  | nil => exact ⟨rfl, hcur⟩
  | append _ _ ihis ihjs =>
    obtain ⟨his, hmid⟩ := ihis hcur
    obtain ⟨hjs, hlast⟩ := ihjs hmid
    rw [itemLeaves_append]
    exact ⟨by rw [List.filter_append, his, hjs], hlast⟩
  | comment => exact ⟨rfl, hcur⟩
  | @spaces t _ => exact ⟨rfl, hcur.add t⟩
  | @empty name hname =>
    refine ⟨?_, unselected_none⟩
    simp [itemLeaves, itemLeafStep, hname]
  | leaf name attrs comments _ =>
    rw [itemLeaves_leaf]
    refine ⟨?_, unselected_none⟩
    split_ifs with hsel <;> simp [hsel]
  | @element name attrs is ls his hsel ih =>
    have hinner := (ih unselected_none).1
    have hend : Unselected sel (itemLeaves (some (name, [])) is).1 := by
      rcases hsel with hname | hhas
      · exact (ih (unselected_some (l := (name, [])) hname)).2
      · rw [his.leaf_of_hasElement hhas]
        exact unselected_none
    rw [itemLeaves, itemLeaves_append]
    refine ⟨?_, unselected_none⟩
    simp only [itemLeafStep, itemLeaves, List.nil_append, List.append_nil]
    rw [List.filter_append, his.leaves_none, hinner, hend.toList_filter,
      List.append_nil]

end Inner

/-! ## Documents -/

/-- Elements with tags around them that are written at different places: the tags
outside of the elements, and the selected leaves. -/
inductive Outlined (sel : List UInt8 → Bool) :
    List Item → List (Tags.Tag (List UInt8)) → List Leaf → Prop where
  | nil : Outlined sel [] [] []
  | append {is js : List Item} {ts us : List (Tags.Tag (List UInt8))}
      {ls ms : List Leaf} (his : Outlined sel is ts ls)
      (hjs : Outlined sel js us ms) :
      Outlined sel (is ++ js) (ts ++ us) (ls ++ ms)
  | comment : Outlined sel [.comment] [] []
  | spaces {t : List UInt8} (h : ∀ c ∈ t, isSpace c = true) :
      Outlined sel [.text t] [] []
  | opening {name : List UInt8} (h : sel name = false)
      (attrs : List (List UInt8 × List UInt8)) :
      Outlined sel [.opening name attrs] [.opening name] []
  | closing (name : List UInt8) :
      Outlined sel [.closing name] [.closing name] []
  | element {name : List UInt8} (h : sel name = false)
      (attrs : List (List UInt8 × List UInt8)) {is : List Item}
      {ls : List Leaf} (his : Inner sel is ls) :
      Outlined sel (.opening name attrs :: (is ++ [.closing name]))
        [.opening name, .closing name] ls

section Outlined

variable {sel : List UInt8 → Bool} {is : List Item}
  {ts : List (Tags.Tag (List UInt8))} {ls : List Leaf}

/-- The open elements, and whether there was one. -/
def State.place (s : State) : List (List UInt8) × Bool := (s.stack, s.root)

theorem itemStep_opening_place (s : State) (name : List UInt8)
    (attrs : List (List UInt8 × List UInt8)) :
    (itemStep s (.opening name attrs)).map (fun r => r.1.place)
      = Tags.rootRun s.stack s.root [.opening name] := by
  rw [itemStep, Tags.rootRun]
  split_ifs <;> rfl

theorem itemStep_closing_place (s : State) (name : List UInt8) :
    (itemStep s (.closing name)).map (fun r => r.1.place)
      = Tags.rootRun s.stack s.root [.closing name] := by
  obtain ⟨_ | ⟨top, stack⟩, text, brackets, root⟩ := s
  · rfl
  · simp only [itemStep, Tags.rootRun]
    split_ifs <;> rfl

/-- The items are read as far as their tags allow, if the leaves are fine. -/
theorem Outlined.run (h : Outlined sel is ts ls) {s : State}
    (hs : s.stack ≠ [] → s.root = true) :
    ((∀ l ∈ ls, FineText l.2) → (itemsRun s is).map (fun r => r.1.place)
        = Tags.rootRun s.stack s.root ts) ∧
      (¬ (∀ l ∈ ls, FineText l.2) → itemsRun s is = none) := by
  have hnil : ∀ {p : Prop}, ¬ (∀ l ∈ ([] : List Leaf), FineText l.2) → p :=
    fun h => absurd (by simp) h
  induction h generalizing s with
  | nil => exact ⟨fun _ => rfl, hnil⟩
  | @append is js ts us ls ms _ _ ihis ihjs =>
    rw [List.forall_mem_append, itemsRun_append, Tags.rootRun_append]
    by_cases hls : ∀ l ∈ ls, FineText l.2
    · have hfirst := (ihis hs).1 hls
      cases hrun : itemsRun s is with
      | none =>
        rw [hrun] at hfirst
        rw [← hfirst]
        exact ⟨fun _ => rfl, fun _ => rfl⟩
      | some r =>
        rw [hrun, Option.map_some] at hfirst
        have hr : r.1.stack ≠ [] → r.1.root = true :=
          Tags.rootRun_root hfirst.symm hs
        rw [← hfirst, Option.bind_some, Option.bind_some]
        refine ⟨fun hall => ?_, fun hnot => ?_⟩
        · rw [Option.map_map]
          exact (ihjs hr).1 hall.2
        · rw [(ihjs hr).2 fun hms => hnot ⟨hls, hms⟩]
          rfl
    · refine ⟨fun hall => absurd hall.1 hls, fun _ => ?_⟩
      rw [(ihis hs).2 hls]
      rfl
  | comment => exact ⟨fun _ => rfl, hnil⟩
  | @spaces t ht =>
    refine ⟨fun _ => ?_, hnil⟩
    obtain ⟨s', hs', hstack, hroot, -⟩ := foldlM_textStep_spaces ht s
    rw [itemsRun_singleton, itemStep, hs', Tags.rootRun, Option.map_some,
      Option.map_some, State.place, hstack, hroot]
  | opening hname attrs =>
    refine ⟨fun _ => ?_, hnil⟩
    rw [itemsRun_singleton, itemStep_opening_place]
  | closing name =>
    refine ⟨fun _ => ?_, hnil⟩
    rw [itemsRun_singleton, itemStep_closing_place]
  | @element name hname attrs is ls his =>
    have hopen : Open ⟨name :: s.stack, [], 0, true⟩ :=
      ⟨List.cons_ne_nil _ _, rfl⟩
    by_cases hover : s.stack = [] ∧ s.root = true
    · have hnone : itemsRun s (.opening name attrs :: (is ++ [.closing name]))
          = none := by
        rw [itemsRun, itemStep, if_pos hover, Option.bind_none]
      rw [hnone, Tags.rootRun, if_pos hover]
      exact ⟨fun _ => rfl, fun _ => rfl⟩
    · obtain ⟨hpasses, hnone⟩ := itemsRun_element name attrs is hover
      refine ⟨fun hls => ?_, fun hls => hnone ((his.run hopen).2 hls)⟩
      obtain ⟨s', out, hrun, hstack, hroot⟩ := hpasses ((his.run hopen).1 hls)
      rw [hrun, Option.map_some, Tags.rootRun, if_neg hover, State.place, hstack,
        hroot]
      simp [Tags.rootRun]

/-- The selected leaves of the items are those of the outline. -/
theorem Outlined.leaves_eq (h : Outlined sel is ts ls) {cur : Option Leaf}
    (hcur : Unselected sel cur) :
    (itemLeaves cur is).2.filter (fun l => sel l.1) = ls ∧
      Unselected sel (itemLeaves cur is).1 := by
  induction h generalizing cur with
  | nil => exact ⟨rfl, hcur⟩
  | append _ _ ihis ihjs =>
    obtain ⟨his, hmid⟩ := ihis hcur
    obtain ⟨hjs, hlast⟩ := ihjs hmid
    rw [itemLeaves_append]
    exact ⟨by rw [List.filter_append, his, hjs], hlast⟩
  | comment => exact ⟨rfl, hcur⟩
  | @spaces t _ => exact ⟨rfl, hcur.add t⟩
  | @opening name hname attrs =>
    exact ⟨rfl, unselected_some (l := (name, [])) hname⟩
  | closing name =>
    refine ⟨?_, unselected_none⟩
    rw [← hcur.toList_filter]
    simp [itemLeaves, itemLeafStep]
  | @element name hname attrs is ls his =>
    exact (Inner.element name attrs his (Or.inl hname)).leaves_eq hcur

/-- A document that is written like this is well formed exactly if its outline is
one element and the selected leaves are fine.  The leaves are read back then. -/
theorem read_outlined {ι : Type*} {l : List ι} {printed : ι → List UInt8}
    {item : ι → Item} (hprints : ∀ x ∈ l, Prints (printed x) (item x))
    (hbytes : ∀ x ∈ l, (printed x).all isXmlByte = true)
    (h : Outlined sel (l.map item) ts ls) :
    ((read (l.flatMap printed)).isSome = true ↔
      Tags.OneRoot ts ∧ ∀ x ∈ ls, FineText x.2) ∧
    ∀ events, read (l.flatMap printed) = some events →
      (leaves events).filter (fun x => sel x.1) = ls := by
  have hrun := h.run (s := ⟨[], [], 0, false⟩) fun hstack => absurd rfl hstack
  rw [read_printed hprints hbytes, ← Tags.rootRun_eq_iff]
  cases hitems : itemsRun ⟨[], [], 0, false⟩ (l.map item) with
  | none =>
    rw [hitems] at hrun
    refine ⟨⟨fun hsome => by simp at hsome, fun hand => ?_⟩,
      fun events hevents => by simp at hevents⟩
    rw [← hrun.1 hand.2] at hand
    simp at hand
  | some r =>
    obtain ⟨s, out⟩ := r
    rw [hitems] at hrun
    have hfine : ∀ x ∈ ls, FineText x.2 := by
      by_contra hnot
      simpa using hrun.2 hnot
    have hplace := hrun.1 hfine
    rw [Option.bind_some]
    refine ⟨?_, ?_⟩
    · rw [← hplace, and_iff_left hfine]
      by_cases hend : s.stack = [] ∧ s.root = true
      · simp [State.place, hend]
      · simp [State.place, hend]
    · intro events hevents
      split_ifs at hevents
      obtain rfl := Option.some.inj hevents
      have hmatches : LeafMatches ⟨[], [], 0, false⟩ none none :=
        ⟨fun _ => rfl, rfl⟩
      rw [leaves, (hmatches.run hitems).1]
      exact (h.leaves_eq unselected_none).1

end Outlined

/-- A newline may be behind a document. -/
theorem read_newline {document : List UInt8} {events : List XmlEvent}
    (h : read document = some events) :
    read (document ++ ['\n'.toUInt8]) = some events := by
  unfold read at h ⊢
  split_ifs at h with hbytes
  have hbytes' : (document ++ ['\n'.toUInt8]).all isXmlByte = true := by
    rw [List.all_append, hbytes]
    decide
  obtain ⟨es, hscan, h⟩ := Option.bind_eq_some_iff.1 h
  obtain ⟨⟨s, out⟩, hrun, h⟩ := Option.bind_eq_some_iff.1 h
  split_ifs at h with hend
  obtain rfl := Option.some.inj h
  have hscan' : Markup.scan (document ++ ['\n'.toUInt8])
      = some (es ++ [.char '\n'.toUInt8]) := by
    rw [Markup.scan_eq_some_iff] at hscan ⊢
    exact hscan.append (Markup.reads_chars (List.forall_mem_singleton.2 (by decide)))
  have hstep : step s (.char '\n'.toUInt8) = some (s, []) := by
    rw [step, if_pos hend.1]
    exact if_pos (by decide)
  rw [if_pos hbytes', hscan', Option.bind_some, run_append hrun]
  simpa [run, hstep] using hend

end XmlReader
