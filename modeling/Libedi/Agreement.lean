import Libedi.Unescaped

/-!
# The generator and the loader

Whether the tables of `struct_loader.c` are those that `conv_specs.pl` printed.

There are three ways in which they are not.  A function or a format is printed
without an escape, the title of a coded value is escaped twice, and an empty title
in words makes an element without text, of which the loader is not told.  A function
that is no text spoils its table whatever the others are like
(`isText_of_loadSegments`).
-/

namespace Libedi

open XmlTree XmlReader

/-! ## Agreement -/

/-- The table that is searched. -/
def NamePart.table (all : EdistructAll) : NamePart → List EdistructSegment
  | segment => all.segs
  | composite => all.comps

/-- The search. -/
def NamePart.find (all : EdistructAll) (name : Bytes) :
    NamePart → Option (Option EdistructSegment)
  | segment => findEdistructSegment all name
  | composite => findEdistructComposite all name

section Agree

variable (keys : List (Bytes × Bytes) → List (Bytes × Bytes))

/-- The file of segments or composites is well formed and is loaded into a table
whose keys increase, with the entries of the source, each of which is found. -/
def SegmentsAgree (p : NamePart) (s : Hash SpecSegment) : Prop :=
  ∃ events table, read (makeXmlDefsSegments keys s p.name.bytes) = some events ∧
    loadSegments p.path events = some table ∧
    ∃ entries, table.map SegmentSlot.entry = entries.map some ∧
      entries.Perm (s.entries.map specSegment) ∧
      SortedBy EdistructSegment.name entries ∧
      ∀ all, p.table all = entries → ∀ e ∈ s.entries,
        p.find all e.1.bytes = some (some (specSegment e))

/-- The file of elements is well formed and is loaded in the same way. -/
def ElementsAgree (s : Hash SpecElement) (codes : CodedMap) : Prop :=
  ∃ events table,
    read (makeXmlDefsElements keys s (ascii "element") codes) = some events ∧
    loadElements events = some table ∧
    ∃ entries, table.map ElementSlot.entry = entries.map some ∧
      entries.Perm (s.entries.map (specElement codes)) ∧
      SortedBy EdistructElement.name entries ∧
      ∀ all, all.elems = entries → ∀ e ∈ s.entries,
        findEdistructElement all e.1.bytes = some (some (specElement codes e))

/-- The file of codes is well formed and is loaded in the same way. -/
def CodesAgree (z : CodedMap) : Prop :=
  ∃ events table, read (makeXmlDefsCoded keys z) = some events ∧
    loadCodes events = some table ∧
    ∃ entries, table.map LoadedCodes.entry = entries.map some ∧
      entries.Perm (z.entries.map specCodedElement) ∧
      SortedBy EdistructCodedElements.el entries ∧
      (∀ e ∈ entries, SortedBy EdistructCoded.name e.vals) ∧
      ∀ all, all.codes = entries → ∀ e ∈ z.entries, ∀ v ∈ e.2.entries,
        findCodedValue all e.1.bytes v.1.bytes = some (some (specCode v))

end Agree

/-! ## Tables -/

theorem Hash.mem_sorted {α : Type*} (h : Hash α) {e : Key × α} :
    e ∈ h.sorted ↔ e ∈ h.entries := h.sorted_perm.mem_iff

section Sorted

variable {α β : Type*} (h : Hash α) (entry : Key × α → β) {key : β → Bytes}
  (hkey : ∀ e, key (entry e) = e.1.bytes)

include hkey

/-- The entries of a hash in order, by some key of theirs. -/
theorem Hash.sorted_map : SortedBy key (h.sorted.map entry) := by
  rw [SortedBy, List.pairwise_map]
  simp only [hkey]
  exact h.sorted_keys

/-- Each entry of a hash is found. -/
theorem Hash.find_sorted {e : Key × α} (he : e ∈ h.entries) :
    BinarySearch.find (fun b => strcmp e.1.bytes (key b)) (h.sorted.map entry)
      = some (some (entry e)) := by
  rw [← hkey e]
  exact find_present (h.sorted_map entry hkey)
    (List.mem_map_of_mem (h.mem_sorted.2 he))

/-- A table with the entries of a hash in some order has them in the order of
their keys. -/
theorem Hash.sorted_unique {entries : List β}
    (hperm : entries.Perm (h.entries.map entry)) (hsorted : SortedBy key entries) :
    entries = h.sorted.map entry := by
  have hall : entries.Perm (h.sorted.map entry) :=
    hperm.trans (h.sorted_perm.map entry).symm
  refine hall.eq_of_pairwise ?_ hsorted (h.sorted_map entry hkey)
  intro a b _ _ hab hba
  rw [strcmp_swap, hab] at hba
  cases hba

/-- A file that is read and loaded agrees with a hash if the loaded table is the
table of its entries, and what else is asked holds of that one. -/
theorem Hash.agrees_iff {γ δ : Type*} {file : Option γ}
    {load : γ → Option (List δ)} {slot : δ → Option β} {rest : List β → Prop}
    {events : γ} {table : List δ} (hread : file = some events)
    (hload : load events = some table) (hrest : rest (h.sorted.map entry)) :
    (∃ events table, file = some events ∧ load events = some table ∧
      ∃ entries, table.map slot = entries.map some ∧
        entries.Perm (h.entries.map entry) ∧ SortedBy key entries ∧
        rest entries) ↔
      table.map slot = (h.sorted.map entry).map some := by
  constructor
  · rintro ⟨events', table', hevents, htable, entries, hentries, hperm, hsorted, -⟩
    rw [hread] at hevents
    obtain rfl := Option.some.inj hevents
    rw [hload] at htable
    obtain rfl := Option.some.inj htable
    rwa [h.sorted_unique entry hkey hperm hsorted] at hentries
  · intro hentries
    exact ⟨events, table, hread, hload, _, hentries, h.sorted_perm.map entry,
      h.sorted_map entry hkey, hrest⟩

end Sorted

/-- Entries in slots, one by one. -/
theorem mapIdx_eq_map_some_iff {α β : Type*} {f : Nat → α → Option β}
    {g : α → β} {P : α → Prop} (hf : ∀ k a, f k a = some (g a) ↔ P a)
    (l : List α) :
    l.mapIdx f = (l.map g).map some ↔ ∀ a ∈ l, P a := by
  rw [List.map_map, ← mapIdx_const]
  exact mapIdx_eq_iff_forall hf l

theorem map_mapIdx_map {α β γ δ : Type*} (f : α → β) (g : Nat → β → γ) (h : γ → δ)
    (l : List α) :
    ((l.map f).mapIdx g).map h = l.mapIdx fun k a => h (g k (f a)) :=
  List.ext_getElem (by simp) fun i _ _ => by simp

theorem map_stringOf_iff {α : Type*} (x : Bytes) (a : α) :
    ((stringOf x).map fun _ => a) = some a ↔ x ≠ [] := by
  unfold stringOf
  split_ifs with hx <;> simp [hx]

section Iff

variable {keys : List (Bytes × Bytes) → List (Bytes × Bytes)}
  (hkeys : KeysOrder keys)

include hkeys

/-- Functions that are texts agree if no title in words is empty. -/
theorem segmentsAgree_iff_of_isText (p : NamePart) {s : Hash SpecSegment}
    (h : ∀ e ∈ s.entries, IsText e.2.function.bytes) :
    SegmentsAgree keys p s ↔
      ∀ e ∈ s.entries, makeTitle2 e.2.title.bytes ≠ [] := by
  have hread := read_makeXmlDefsSegments hkeys p (s := s)
    fun e he => h e (s.mem_sorted.1 he)
  have hload := loadSegments_tableNode hkeys p s.sorted
  have htable : ((s.sorted.map (segmentElement keys)).mapIdx
        (segmentEntry .pieces p.path)).map SegmentSlot.entry
        = (s.sorted.map specSegment).map some ↔
      ∀ e ∈ s.entries, makeTitle2 e.2.title.bytes ≠ [] := by
    rw [map_mapIdx_map, mapIdx_eq_map_some_iff
      (P := fun e => makeTitle2 e.2.title.bytes ≠ [])]
    · exact forall_congr' fun e => by rw [s.mem_sorted]
    · intro k e
      rw [segmentEntry_entry hkeys, map_stringOf_iff]
  rw [← htable]
  have hkey : ∀ e, EdistructSegment.name (specSegment e) = e.1.bytes :=
    fun _ => rfl
  refine s.agrees_iff specSegment hkey hread hload fun all hall e he => ?_
  have hfind := s.find_sorted _ hkey he
  rw [← hall] at hfind
  cases p with
  | segment => exact hfind
  | composite => exact hfind

/-- Functions and formats that are texts agree if no title in words and no format
is empty. -/
theorem elementsAgree_iff_of_isText (codes : CodedMap) {s : Hash SpecElement}
    (h : ∀ e ∈ s.entries, IsText e.2.function.bytes ∧ IsText e.2.format) :
    ElementsAgree keys s codes ↔
      ∀ e ∈ s.entries, makeTitle2 e.2.title.bytes ≠ [] ∧ e.2.format ≠ [] := by
  have hread := read_makeXmlDefsElements hkeys codes (s := s)
    fun e he => h e (s.mem_sorted.1 he)
  have hload := loadElements_tableNode hkeys codes s.sorted
  have htable : ((s.sorted.map (elementElement keys codes)).mapIdx
        (elementEntry .pieces)).map ElementSlot.entry
        = (s.sorted.map (specElement codes)).map some ↔
      ∀ e ∈ s.entries, makeTitle2 e.2.title.bytes ≠ [] ∧ e.2.format ≠ [] := by
    rw [map_mapIdx_map, mapIdx_eq_map_some_iff
      (P := fun e => makeTitle2 e.2.title.bytes ≠ [] ∧ e.2.format ≠ [])]
    · exact forall_congr' fun e => by rw [s.mem_sorted]
    · intro k e
      rw [elementEntry_entry hkeys]
      unfold stringOf
      split_ifs <;> simp [*]
  rw [← htable]
  have hkey : ∀ e, EdistructElement.name (specElement codes e) = e.1.bytes :=
    fun _ => rfl
  refine s.agrees_iff (specElement codes) hkey hread hload fun all hall e he => ?_
  have hfind := s.find_sorted _ hkey he
  rw [← hall] at hfind
  exact hfind

theorem SegmentsAgree.isText {p : NamePart} {s : Hash SpecSegment}
    (h : SegmentsAgree keys p s) : ∀ e ∈ s.entries, IsText e.2.function.bytes := by
  obtain ⟨events, table, hread, hload, entries, hentries, hperm, hsorted, -⟩ := h
  rw [s.sorted_unique specSegment (fun _ => rfl) hperm hsorted] at hentries
  exact fun e he =>
    isText_of_loadSegments hkeys p hread hload hentries e (s.mem_sorted.2 he)

theorem ElementsAgree.isText {codes : CodedMap} {s : Hash SpecElement}
    (h : ElementsAgree keys s codes) :
    ∀ e ∈ s.entries, IsText e.2.function.bytes ∧ IsText e.2.format := by
  obtain ⟨events, table, hread, hload, entries, hentries, hperm, hsorted, -⟩ := h
  rw [s.sorted_unique (specElement codes) (fun _ => rfl) hperm hsorted] at hentries
  exact fun e he =>
    isText_of_loadElements hkeys codes hread hload hentries e (s.mem_sorted.2 he)

/-- Segments and composites agree if their functions are texts and no title in words
is empty. -/
theorem segmentsAgree_iff (p : NamePart) (s : Hash SpecSegment) :
    SegmentsAgree keys p s ↔ ∀ e ∈ s.entries,
      IsText e.2.function.bytes ∧ makeTitle2 e.2.title.bytes ≠ [] := by
  constructor
  · intro hagree
    have htext := hagree.isText hkeys
    have htitle := (segmentsAgree_iff_of_isText hkeys p htext).1 hagree
    exact fun e he => ⟨htext e he, htitle e he⟩
  · intro h
    exact (segmentsAgree_iff_of_isText hkeys p fun e he => (h e he).1).2
      fun e he => (h e he).2

/-- Elements agree if their functions and formats are texts, and no title in words and
no format is empty. -/
theorem elementsAgree_iff (codes : CodedMap) (s : Hash SpecElement) :
    ElementsAgree keys s codes ↔ ∀ e ∈ s.entries,
      (IsText e.2.function.bytes ∧ IsText e.2.format) ∧
        makeTitle2 e.2.title.bytes ≠ [] ∧ e.2.format ≠ [] := by
  constructor
  · intro hagree
    have htext := hagree.isText hkeys
    have htitle := (elementsAgree_iff_of_isText hkeys codes htext).1 hagree
    exact fun e he => ⟨htext e he, htitle e he⟩
  · intro h
    exact (elementsAgree_iff_of_isText hkeys codes fun e he => (h e he).1).2
      fun e he => (h e he).2

omit hkeys in
/-- The values of a coded element, all of them as in the source. -/
theorem mapM_loadedCode_iff (l : List (Key × SpecCode)) :
    (l.mapM fun v => (stringOf (makeTitle2 v.2.title.bytes)).map
        fun _ => loadedCode v) = some (l.map specCode) ↔
      ∀ v ∈ l, specEscapeXml v.2.title.bytes = v.2.title.bytes ∧
        makeTitle2 v.2.title.bytes ≠ [] := by
  induction l with
  | nil => simp
  | cons v l ih =>
    rw [List.mapM_cons, List.forall_mem_cons, List.map_cons]
    have hcode : loadedCode v = specCode v ↔
        specEscapeXml v.2.title.bytes = v.2.title.bytes := by
      simp [loadedCode, specCode]
    constructor
    · intro hall
      obtain ⟨w, hw, hall⟩ := Option.bind_eq_some_iff.1 hall
      obtain ⟨ws, hws, hall⟩ := Option.bind_eq_some_iff.1 hall
      obtain ⟨rfl, rfl⟩ := List.cons.inj (Option.some.inj hall)
      obtain ⟨x, hx, heq⟩ := Option.map_eq_some_iff.1 hw
      have hne : makeTitle2 v.2.title.bytes ≠ [] := by
        intro hnil
        rw [hnil] at hx
        cases hx
      exact ⟨⟨hcode.1 heq, hne⟩, ih.1 hws⟩
    · rintro ⟨⟨htitle, hne⟩, hl⟩
      rw [stringOf_eq_some hne, ih.2 hl, hcode.2 htitle]
      rfl

/-- The codes agree if their titles have no special characters and no title in
words is empty. -/
theorem codesAgree_iff (z : CodedMap) :
    CodesAgree keys z ↔ ∀ e ∈ z.entries, ∀ v ∈ e.2.entries,
      specEscapeXml v.2.title.bytes = v.2.title.bytes ∧
        makeTitle2 v.2.title.bytes ≠ [] := by
  have hread := read_makeXmlDefsCoded hkeys z
  have hload := loadCodes_tableNode hkeys z.sorted
  have htable : ((z.sorted.map (codedElementElement keys)).map
        (codesEntry .pieces)).map LoadedCodes.entry
        = (z.sorted.map specCodedElement).map some ↔
      ∀ e ∈ z.entries, ∀ v ∈ e.2.entries,
        specEscapeXml v.2.title.bytes = v.2.title.bytes ∧
          makeTitle2 v.2.title.bytes ≠ [] := by
    rw [List.map_map, List.map_map, List.map_map, List.map_inj_left]
    refine forall_congr' fun e => ?_
    rw [z.mem_sorted]
    refine imp_congr_right fun _ => ?_
    have hentry : ((LoadedCodes.entry ∘ codesEntry .pieces) ∘
        codedElementElement keys) e
        = (e.2.sorted.mapM fun v => (stringOf (makeTitle2 v.2.title.bytes)).map
          fun _ => loadedCode v).map fun vals => ⟨e.1.bytes, vals⟩ :=
      codesEntry_entry hkeys e
    have hspec : (some ∘ specCodedElement) e
        = (some (e.2.sorted.map specCode)).map fun vals => ⟨e.1.bytes, vals⟩ := rfl
    have hinj : Function.Injective
        fun vals : List EdistructCoded => EdistructCodedElements.mk e.1.bytes vals :=
      fun a b hab => congrArg EdistructCodedElements.vals hab
    rw [hentry, hspec, (Option.map_injective hinj).eq_iff, mapM_loadedCode_iff]
    exact forall_congr' fun v => by rw [e.2.mem_sorted]
  rw [← htable]
  have hkey : ∀ e, EdistructCodedElements.el (specCodedElement e) = e.1.bytes :=
    fun _ => rfl
  have hvalue : ∀ v, EdistructCoded.name (specCode v) = v.1.bytes := fun _ => rfl
  refine z.agrees_iff specCodedElement hkey hread hload ⟨?_, ?_⟩
  · rw [List.forall_mem_map]
    exact fun e _ => e.2.sorted_map _ hvalue
  · intro all hall e he v hv
    rw [findCodedValue, hall, z.find_sorted _ hkey he]
    exact e.2.find_sorted _ hvalue hv

/-- The tables agree if every function and format is a text, no format and no title
in words is empty, and the titles of the coded values have no special characters. -/
theorem makeXmlDefs_agree_iff :
    (∀ p (s : Hash SpecSegment), SegmentsAgree keys p s ↔ ∀ e ∈ s.entries,
      IsText e.2.function.bytes ∧ makeTitle2 e.2.title.bytes ≠ []) ∧
    (∀ codes (s : Hash SpecElement), ElementsAgree keys s codes ↔ ∀ e ∈ s.entries,
      (IsText e.2.function.bytes ∧ IsText e.2.format) ∧
        makeTitle2 e.2.title.bytes ≠ [] ∧ e.2.format ≠ []) ∧
    ∀ z, CodesAgree keys z ↔ ∀ e ∈ z.entries, ∀ v ∈ e.2.entries,
      specEscapeXml v.2.title.bytes = v.2.title.bytes ∧
        makeTitle2 v.2.title.bytes ≠ [] :=
  ⟨segmentsAgree_iff hkeys, elementsAgree_iff hkeys, codesAgree_iff hkeys⟩

end Iff

/-! ## A table of one entry -/

/-- A table of one entry. -/
def Hash.single {α : Type*} (key : Key) (a : α) : Hash α := ⟨[(key, a)], by simp⟩

/-- A key. -/
def sampleKey : Key := ⟨ascii "BGM", by decide, by decide⟩

/-- A title without special characters. -/
def plainPhrase : Phrase := ⟨ascii "Beginning of message", by decide, by decide⟩

/-- A title with an ampersand. -/
def ampersandPhrase : Phrase := ⟨ascii "R&D", by decide, by decide⟩

/-- The keys in the order in which they are given. -/
theorem keysOrder_id : KeysOrder id := fun _ => List.Perm.refl _

theorem makeXmlDefs_agree_plain :
    SegmentsAgree id .segment
        (.single sampleKey ⟨plainPhrase, plainPhrase, [sampleKey]⟩) ∧
      CodesAgree id (.single sampleKey (.single sampleKey
        ⟨plainPhrase, ampersandPhrase⟩)) := by
  obtain ⟨hsegments, -, hcodes⟩ := makeXmlDefs_agree_iff keysOrder_id
  have hescape : specEscapeXml plainPhrase.bytes = plainPhrase.bytes := by decide
  have htitle2 : makeTitle2 plainPhrase.bytes ≠ [] := by decide +kernel
  have htext : IsText plainPhrase.bytes :=
    ⟨forall_mem_of_all (by decide), by decide +kernel⟩
  exact ⟨(hsegments .segment _).2 (List.forall_mem_singleton.2 ⟨htext, htitle2⟩),
    (hcodes _).2 (List.forall_mem_singleton.2 (List.forall_mem_singleton.2
      ⟨hescape, htitle2⟩))⟩

/-- A function with an ampersand is not well formed, and a title with one is
escaped twice. -/
theorem not_agree_ampersand :
    ¬ SegmentsAgree id .segment
        (.single sampleKey ⟨plainPhrase, ampersandPhrase, []⟩) ∧
      ¬ CodesAgree id (.single sampleKey (.single sampleKey
        ⟨ampersandPhrase, plainPhrase⟩)) := by
  constructor
  · rintro ⟨events, table, hread, -⟩
    have hnone : read (makeXmlDefsSegments id (.single sampleKey
        ⟨plainPhrase, ampersandPhrase, []⟩) NamePart.segment.name.bytes)
        = none := by decide +kernel
    rw [hnone] at hread
    cases hread
  · intro hagree
    have hall := (codesAgree_iff keysOrder_id _).1 hagree
    have htitle := (hall _ List.mem_cons_self _ List.mem_cons_self).1
    exact absurd htitle (by decide)

end Libedi
