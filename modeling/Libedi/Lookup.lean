import Libedi.Data
import Libedi.Lib.BinarySearch

/-!
# The tables of the directory, and how they are searched

`include/libedistruct.h`, `libedistruct/lookup.c`, and
`edistruct_load_xml_files` of `libedistruct/struct_loader.c`.

A table set describes the segments, composites, data elements and codes of a
directory.  All tables are searched by their keys, with a loop that reads a slot
before it asks whether the window is empty.  So a search reads outside its table
exactly if the table is empty.

The strings of an entry are all there.  What a file leaves out of an entry is
dealt with where the files are read.
-/

namespace Libedi

/-! ## Tables -/

/-- A string of `children`: its first character, which is `M` or `C` for a
mandatory or a conditional child, and the code behind it. -/
structure EdistructChild where
  status : UInt8
  code : Bytes
  deriving DecidableEq, Repr

/-- `edistruct_segment_t`. -/
structure EdistructSegment where
  name : Bytes
  title : Bytes
  title2 : Bytes
  function : Bytes
  children : List EdistructChild
  deriving DecidableEq, Repr

/-- `edistruct_composite_t`, the exact copy of a segment. -/
abbrev EdistructComposite := EdistructSegment

/-- `edistruct_element_t`. -/
structure EdistructElement where
  name : Bytes
  title : Bytes
  title2 : Bytes
  function : Bytes
  format : Bytes
  isCoded : Bool
  deriving DecidableEq, Repr

/-- `edistruct_coded_t`. -/
structure EdistructCoded where
  name : Bytes
  title : Bytes
  title2 : Bytes
  function : Bytes
  deriving DecidableEq, Repr

/-- `struct edistruct_coded_elements`. -/
structure EdistructCodedElements where
  el : Bytes
  vals : List EdistructCoded
  deriving DecidableEq, Repr

/-- `edistruct_all_t`. -/
structure EdistructAll where
  segs : List EdistructSegment
  elems : List EdistructElement
  comps : List EdistructComposite
  codes : List EdistructCodedElements
  deriving DecidableEq, Repr

/-! ## Lookups -/

/-- `strcmp`, by unsigned bytes. -/
def strcmp (a b : Bytes) : Ordering := compare a b

/-- `find_edistruct_segment`.  The result is `none` if a slot outside of the
table is read. -/
def findEdistructSegment (all : EdistructAll) (name : Bytes) :
    Option (Option EdistructSegment) :=
  BinarySearch.find (fun e => strcmp name e.name) all.segs

/-- `find_edistruct_element`. -/
def findEdistructElement (all : EdistructAll) (name : Bytes) :
    Option (Option EdistructElement) :=
  BinarySearch.find (fun e => strcmp name e.name) all.elems

/-- `find_edistruct_composite`. -/
def findEdistructComposite (all : EdistructAll) (name : Bytes) :
    Option (Option EdistructComposite) :=
  BinarySearch.find (fun e => strcmp name e.name) all.comps

/-- `find_actual_value`. -/
def findActualValue (tab : EdistructCodedElements) (name : Bytes) :
    Option (Option EdistructCoded) :=
  BinarySearch.find (fun e => strcmp name e.name) tab.vals

/-- `find_coded_value`. -/
def findCodedValue (all : EdistructAll) (elem name : Bytes) :
    Option (Option EdistructCoded) :=
  match BinarySearch.find (fun e => strcmp elem e.el) all.codes with
  | none => none
  | some none => some none
  | some (some tab) => findActualValue tab name

/-- The keys of a table increase. -/
def SortedBy {α : Type*} (key : α → Bytes) (tab : List α) : Prop :=
  tab.Pairwise fun a b => strcmp (key a) (key b) = .lt

theorem strcmp_eq_iff {a b : Bytes} : strcmp a b = .eq ↔ a = b :=
  Std.compare_eq_iff_eq

theorem strcmp_swap (a b : Bytes) : strcmp b a = (strcmp a b).swap :=
  Std.OrientedOrd.eq_swap

/-- A table whose keys increase is in order for every key. -/
theorem SortedBy.ordered {α : Type*} {key : α → Bytes} {tab : List α}
    (h : SortedBy key tab) (name : Bytes) :
    BinarySearch.Ordered (fun e => strcmp name (key e)) tab := by
  refine List.Pairwise.imp (fun {a b} hlt => ⟨fun ha => ?_, fun hb => ?_⟩) h
  · rw [strcmp_eq_iff.1 ha]
    exact hlt
  · show strcmp name (key a) = .gt
    rw [strcmp_eq_iff.1 hb, strcmp_swap, hlt]
    rfl

section Search

variable {α : Type*} {key : α → Bytes} {tab : List α}

/-- A search in a table, none of whose keys is the one that is looked for. -/
theorem find_absent (htab : tab ≠ []) {name : Bytes}
    (habsent : ∀ e ∈ tab, key e ≠ name) :
    BinarySearch.find (fun e => strcmp name (key e)) tab = some none := by
  obtain ⟨r, hr⟩ := Option.isSome_iff_exists.1
    (@BinarySearch.find_isSome _ (fun e => strcmp name (key e)) _ htab)
  cases r with
  | none => exact hr
  | some e =>
    obtain ⟨he, heq⟩ := BinarySearch.find_sound hr
    exact absurd (strcmp_eq_iff.1 heq).symm (habsent e he)

theorem find_present (h : SortedBy key tab) {e : α} (he : e ∈ tab) :
    BinarySearch.find (fun e' => strcmp (key e) (key e')) tab
      = some (some e) :=
  BinarySearch.find_complete (h.ordered (key e)) he (strcmp_eq_iff.2 rfl)

end Search

theorem findCodedValue_sound {all : EdistructAll} {elem name : Bytes}
    {z : EdistructCoded} (h : findCodedValue all elem name = some (some z)) :
    ∃ tab ∈ all.codes, tab.el = elem ∧ z ∈ tab.vals ∧ z.name = name := by
  unfold findCodedValue at h
  split at h
  · simp at h
  · simp at h
  · next tab htab =>
    obtain ⟨hmem, hel⟩ := BinarySearch.find_sound htab
    obtain ⟨hz, hname⟩ := BinarySearch.find_sound h
    exact ⟨tab, hmem, (strcmp_eq_iff.1 hel).symm, hz,
      (strcmp_eq_iff.1 hname).symm⟩

/-! ## What a lookup finds -/

/-- A lookup of `name` ends with the entry of this key, or with `NULL` if there is
none.  Its loop on words, in a table that a memory can hold, does the same and
compares `name` with slots of the table only. -/
structure LooksUp {α : Type*} (key : α → Bytes) (tab : List α) (name : Bytes)
    (r : Option (Option α)) : Prop where
  found : ∃ e, r = some e ∧ ∀ a, e = some a ↔ a ∈ tab ∧ key a = name
  loop : tab.length < 2 ^ 63 → ∃ slots i,
    BinarySearch.loop (fun k => tab[k]?.map fun e => strcmp name (key e))
      tab.length 0 (UInt64.ofNat tab.length) = some (slots, i) ∧
    (∀ k ∈ slots, k < tab.length) ∧ r = some (i.bind (tab[·]?))

section LooksUp

variable {α : Type*} {key : α → Bytes} {tab : List α}

/-- Two entries of a sorted table are not of the same key. -/
theorem SortedBy.eq_of_key_eq (h : SortedBy key tab) {a b : α} (ha : a ∈ tab)
    (hb : b ∈ tab) (hkey : key a = key b) : a = b := by
  have hfind := find_present h ha
  rw [hkey, find_present h hb, Option.some.injEq, Option.some.injEq] at hfind
  exact hfind.symm

theorem find_looksUp (htab : tab ≠ []) (h : SortedBy key tab) (name : Bytes) :
    LooksUp key tab name
      (BinarySearch.find (fun e => strcmp name (key e)) tab) where
  found := by
    obtain ⟨r, hr⟩ := Option.isSome_iff_exists.1
      (@BinarySearch.find_isSome _ (fun e => strcmp name (key e)) _ htab)
    refine ⟨r, hr, fun a => ⟨?_, ?_⟩⟩
    · rintro rfl
      obtain ⟨ha, heq⟩ := BinarySearch.find_sound hr
      exact ⟨ha, (strcmp_eq_iff.1 heq).symm⟩
    · rintro ⟨ha, rfl⟩
      rw [find_present h ha, Option.some.injEq] at hr
      exact hr.symm
  loop := by
    intro hlen
    have hpos := List.length_pos_iff.2 htab
    have hnat : (UInt64.ofNat tab.length).toNat = tab.length := by
      rw [UInt64.toNat_ofNat']
      omega
    have hwindow : 0 < UInt64.ofNat tab.length := by
      rw [UInt64.lt_iff_toNat_lt, hnat]
      exact hpos
    have hread : ∀ k, (0 : UInt64).toNat ≤ k →
        k < (UInt64.ofNat tab.length).toNat →
        (tab[k]?.map fun e => strcmp name (key e)).isSome = true := by
      intro k _ hk
      rw [hnat] at hk
      simp [hk]
    have hturns : (UInt64.ofNat tab.length).toNat - (0 : UInt64).toNat
        ≤ tab.length := by omega
    obtain ⟨slots, r, hloop, hsearch, hslots⟩ :=
      BinarySearch.loop_eq_search hwindow (by omega) hread hturns
    rw [hnat] at hsearch hslots
    refine ⟨slots, r, hloop, fun k hk => (hslots k hk).2, ?_⟩
    rw [BinarySearch.find]
    exact congrArg (Option.map (·.bind (tab[·]?))) hsearch

end LooksUp

/-- The lookups in tables that are sorted and not empty find what is there, and
nothing else. -/
theorem lookups_find (all : EdistructAll) :
    (∀ name, all.segs ≠ [] → SortedBy EdistructSegment.name all.segs →
      LooksUp EdistructSegment.name all.segs name
        (findEdistructSegment all name)) ∧
    (∀ name, all.elems ≠ [] → SortedBy EdistructElement.name all.elems →
      LooksUp EdistructElement.name all.elems name
        (findEdistructElement all name)) ∧
    (∀ name, all.comps ≠ [] → SortedBy EdistructSegment.name all.comps →
      LooksUp EdistructSegment.name all.comps name
        (findEdistructComposite all name)) ∧
    (∀ (tab : EdistructCodedElements) (name : Bytes), tab.vals ≠ [] →
      SortedBy EdistructCoded.name tab.vals →
      LooksUp EdistructCoded.name tab.vals name (findActualValue tab name)) ∧
    (∀ elem name, all.codes ≠ [] →
      SortedBy EdistructCodedElements.el all.codes →
      (∀ e ∈ all.codes, e.vals ≠ [] ∧ SortedBy EdistructCoded.name e.vals) →
      LooksUp EdistructCodedElements.el all.codes elem
        (BinarySearch.find (fun e => strcmp elem e.el) all.codes) ∧
      ∃ r, findCodedValue all elem name = some r ∧
        ∀ v, r = some v ↔ ∃ tab ∈ all.codes, tab.el = elem ∧ v ∈ tab.vals ∧
          v.name = name) := by
  refine ⟨fun name hne h => find_looksUp hne h name,
    fun name hne h => find_looksUp hne h name,
    fun name hne h => find_looksUp hne h name,
    fun tab name hne h => find_looksUp hne h name, ?_⟩
  intro elem name hne h hvals
  have hlook := find_looksUp hne h elem
  refine ⟨hlook, ?_⟩
  obtain ⟨r, hr, hiff⟩ := hlook.found
  unfold findCodedValue
  rw [hr]
  cases r with
  | none =>
    refine ⟨none, rfl, fun v => ⟨by simp, ?_⟩⟩
    rintro ⟨tab, htab, hel, -⟩
    exact absurd ((hiff tab).2 ⟨htab, hel⟩) (by simp)
  | some tab =>
    obtain ⟨htab, hel⟩ := (hiff tab).1 rfl
    obtain ⟨v, hv, hval⟩ :=
      (find_looksUp (hvals tab htab).1 (hvals tab htab).2 name).found
    refine ⟨v, hv, fun w => (hval w).trans ⟨?_, ?_⟩⟩
    · rintro ⟨hw, hname⟩
      exact ⟨tab, htab, hel, hw, hname⟩
    · rintro ⟨tab', htab', hel', hw, hname⟩
      obtain rfl := h.eq_of_key_eq htab' htab (hel'.trans hel.symm)
      exact ⟨hw, hname⟩

/-- One entry in each table, the last of which has two values. -/
theorem lookups_find_sample :
    findEdistructSegment
        ⟨[⟨ascii "BGM", [], [], [], []⟩, ⟨ascii "UNH", [], [], [], []⟩], [], [],
          []⟩ (ascii "UNH")
      = some (some ⟨ascii "UNH", [], [], [], []⟩) ∧
    ∃ r, findCodedValue
        ⟨[], [], [], [⟨ascii "1001", [⟨ascii "380", [], [], []⟩,
          ⟨ascii "381", [], [], []⟩]⟩]⟩ (ascii "1001") (ascii "381") = some r ∧
      r = some ⟨ascii "381", [], [], []⟩ := by
  constructor
  · obtain ⟨e, he, hiff⟩ := ((lookups_find
      ⟨[⟨ascii "BGM", [], [], [], []⟩, ⟨ascii "UNH", [], [], [], []⟩], [], [],
        []⟩).1 (ascii "UNH") (by simp) (by rw [SortedBy]; decide)).found
    rw [he, (hiff ⟨ascii "UNH", [], [], [], []⟩).2 ⟨by simp, rfl⟩]
  · obtain ⟨-, r, hr, hiff⟩ := (lookups_find
      ⟨[], [], [], [⟨ascii "1001", [⟨ascii "380", [], [], []⟩,
        ⟨ascii "381", [], [], []⟩]⟩]⟩).2.2.2.2 (ascii "1001") (ascii "381")
      (by simp) (by rw [SortedBy]; decide)
      (List.forall_mem_singleton.2 ⟨by simp, by rw [SortedBy]; decide⟩)
    exact ⟨r, hr, (hiff _).2 ⟨_, List.mem_singleton.2 rfl, rfl, by simp, rfl⟩⟩

/-! ## Loading the files -/

/-- Why a file is not loaded. -/
inductive ParseXmlError where
  | notOpened
  | notParsed
  deriving DecidableEq, Repr

/-- What `parse_xml_file` returns then. -/
def ParseXmlError.code : ParseXmlError → Int
  | notOpened => -1
  | notParsed => 1

/-- What the four files yield. -/
structure FileLoads where
  segs : Except ParseXmlError (List EdistructSegment)
  comps : Except ParseXmlError (List EdistructComposite)
  elems : Except ParseXmlError (List EdistructElement)
  codes : Except ParseXmlError (List EdistructCodedElements)

/-- The return value of a load, and the table afterwards, which is set only if
the file was loaded. -/
def loadTable {α : Type*} (old : List α) :
    Except ParseXmlError (List α) → Int × List α
  | .error e => (e.code, old)
  | .ok tab => (0, tab)

/-- `edistruct_load_xml_files`: the return value, and `loaded_structs`.  The
variable `r` is set by each of the loads. -/
def edistructLoadXmlFiles (loadedStructs : EdistructAll) (files : FileLoads) :
    Int × EdistructAll :=
  let (_, segs) := loadTable loadedStructs.segs files.segs
  let (_, comps) := loadTable loadedStructs.comps files.comps
  let (_, elems) := loadTable loadedStructs.elems files.elems
  let (r, codes) := loadTable loadedStructs.codes files.codes
  (r, ⟨segs, elems, comps, codes⟩)

/-- All searches stay inside their tables, and find nothing if there is
nothing. -/
structure SafeLookups (all : EdistructAll) : Prop where
  segment : ∀ name, (findEdistructSegment all name).isSome = true ∧
    ((∀ e ∈ all.segs, e.name ≠ name) →
      findEdistructSegment all name = some none)
  composite : ∀ name, (findEdistructComposite all name).isSome = true ∧
    ((∀ e ∈ all.comps, e.name ≠ name) →
      findEdistructComposite all name = some none)
  element : ∀ name, (findEdistructElement all name).isSome = true ∧
    ((∀ e ∈ all.elems, e.name ≠ name) →
      findEdistructElement all name = some none)
  coded : ∀ elem name, (findCodedValue all elem name).isSome = true ∧
    ((∀ e ∈ all.codes, e.el = elem → ∀ v ∈ e.vals, v.name ≠ name) →
      findCodedValue all elem name = some none)

/-- No table is empty, and no coded element is without values. -/
structure FilledTables (all : EdistructAll) : Prop where
  segs : all.segs ≠ []
  comps : all.comps ≠ []
  elems : all.elems ≠ []
  codes : all.codes ≠ []
  vals : ∀ e ∈ all.codes, e.vals ≠ []

theorem FilledTables.safeLookups {all : EdistructAll} (h : FilledTables all) :
    SafeLookups all where
  segment name := ⟨BinarySearch.find_isSome h.segs, find_absent h.segs⟩
  composite name := ⟨BinarySearch.find_isSome h.comps, find_absent h.comps⟩
  element name := ⟨BinarySearch.find_isSome h.elems, find_absent h.elems⟩
  coded elem name := by
    unfold findCodedValue
    obtain ⟨r, hr⟩ := Option.isSome_iff_exists.1 (@BinarySearch.find_isSome _
      (fun e : EdistructCodedElements => strcmp elem e.el) _ h.codes)
    rw [hr]
    cases r with
    | none => exact ⟨rfl, fun _ => rfl⟩
    | some tab =>
      obtain ⟨htab, heq⟩ := BinarySearch.find_sound hr
      have hvals := h.vals tab htab
      refine ⟨BinarySearch.find_isSome hvals, fun habsent => ?_⟩
      exact find_absent hvals (habsent tab htab (strcmp_eq_iff.1 heq).symm)

/-- A search in an empty table reads its slot `0`. -/
theorem SafeLookups.filledTables {all : EdistructAll} (h : SafeLookups all)
    (hsorted : SortedBy EdistructCodedElements.el all.codes) :
    FilledTables all := by
  constructor
  · intro hnil
    have hread := (h.segment []).1
    rw [findEdistructSegment, hnil, BinarySearch.find_nil] at hread
    exact Bool.noConfusion hread
  · intro hnil
    have hread := (h.composite []).1
    rw [findEdistructComposite, hnil, BinarySearch.find_nil] at hread
    exact Bool.noConfusion hread
  · intro hnil
    have hread := (h.element []).1
    rw [findEdistructElement, hnil, BinarySearch.find_nil] at hread
    exact Bool.noConfusion hread
  · intro hnil
    have hread := (h.coded [] []).1
    rw [findCodedValue, hnil, BinarySearch.find_nil] at hread
    exact Bool.noConfusion hread
  · intro e he hnil
    have hread := (h.coded e.el []).1
    rw [findCodedValue, find_present hsorted he] at hread
    simp only [findActualValue, hnil, BinarySearch.find_nil] at hread
    exact Bool.noConfusion hread

/-- What a load leaves in its table. -/
def tableAfter {α : Type*} (old : List α)
    (load : Except ParseXmlError (List α)) : List α :=
  load.toOption.getD old

theorem loadTable_eq {α : Type*} (old : List α)
    (load : Except ParseXmlError (List α)) :
    (loadTable old load).2 = tableAfter old load ∧
      ((loadTable old load).1 = 0 ↔ load.isOk = true) := by
  cases load with
  | error e =>
    refine ⟨rfl, ?_⟩
    cases e <;> simp [loadTable, ParseXmlError.code, Except.isOk, Except.toBool]
  | ok tab => exact ⟨rfl, by simp [loadTable, Except.isOk, Except.toBool]⟩

/-- The return value tells of the codes only.  If it is zero, the lookups are
safe exactly if no file that was loaded is without entries, none is missing that
was not loaded before, and no coded element is without values. -/
theorem edistructLoadXmlFiles_safe_iff (loadedStructs : EdistructAll)
    {files : FileLoads} (hsorted : ∀ codes, files.codes = .ok codes →
      SortedBy EdistructCodedElements.el codes) :
    ((edistructLoadXmlFiles loadedStructs files).1 = 0 →
        SafeLookups (edistructLoadXmlFiles loadedStructs files).2) ↔
      (∃ e, files.codes = .error e) ∨
        tableAfter loadedStructs.segs files.segs ≠ [] ∧
        tableAfter loadedStructs.comps files.comps ≠ [] ∧
        tableAfter loadedStructs.elems files.elems ≠ [] ∧
        ∃ codes, files.codes = .ok codes ∧ codes ≠ [] ∧
          ∀ e ∈ codes, e.vals ≠ [] := by
  have hcode : (edistructLoadXmlFiles loadedStructs files).1 = 0 ↔
      files.codes.isOk = true :=
    (loadTable_eq loadedStructs.codes files.codes).2
  have hall : (edistructLoadXmlFiles loadedStructs files).2
      = ⟨tableAfter loadedStructs.segs files.segs,
        tableAfter loadedStructs.elems files.elems,
        tableAfter loadedStructs.comps files.comps,
        tableAfter loadedStructs.codes files.codes⟩ := by
    simp only [edistructLoadXmlFiles, (loadTable_eq _ _).1]
  rw [hcode, hall]
  cases hcodes : files.codes with
  | error e => simp [Except.isOk, Except.toBool]
  | ok codes =>
    have htab : tableAfter loadedStructs.codes (.ok codes) = codes := rfl
    rw [htab]
    constructor
    · intro hsafe
      have hfilled := (hsafe rfl).filledTables (hsorted codes hcodes)
      exact Or.inr ⟨hfilled.segs, hfilled.comps, hfilled.elems, codes, rfl,
        hfilled.codes, hfilled.vals⟩
    · rintro (⟨e, he⟩ | ⟨hsegs, hcomps, helems, codes', heq, hne, hvals⟩) -
      · simp at he
      · obtain rfl : codes = codes' := by simpa using heq
        exact (FilledTables.mk hsegs hcomps helems hne hvals).safeLookups

/-- Only `segs.xml` is missing, and the return value is zero all the same. -/
theorem edistructLoadXmlFiles_unsafe :
    edistructLoadXmlFiles ⟨[], [], [], []⟩
      ⟨.error .notOpened, .ok [⟨ascii "C1", [], [], [], [⟨77, ascii "E1"⟩]⟩],
        .ok [⟨ascii "E1", [], [], [], [], true⟩],
        .ok [⟨ascii "E1", [⟨ascii "V", [], [], []⟩]⟩]⟩
      = (0, ⟨[], [⟨ascii "E1", [], [], [], [], true⟩],
        [⟨ascii "C1", [], [], [], [⟨77, ascii "E1"⟩]⟩],
        [⟨ascii "E1", [⟨ascii "V", [], [], []⟩]⟩]⟩) ∧
    findEdistructSegment
      ⟨[], [⟨ascii "E1", [], [], [], [], true⟩],
        [⟨ascii "C1", [], [], [], [⟨77, ascii "E1"⟩]⟩],
        [⟨ascii "E1", [⟨ascii "V", [], [], []⟩]⟩]⟩ (ascii "UNB") = none :=
  ⟨rfl, BinarySearch.find_nil⟩

/-- Four files with an entry each. -/
theorem edistructLoadXmlFiles_safe :
    SafeLookups (edistructLoadXmlFiles ⟨[], [], [], []⟩
      ⟨.ok [⟨ascii "S1", [], [], [], [⟨77, ascii "C1"⟩]⟩],
        .ok [⟨ascii "C1", [], [], [], [⟨77, ascii "E1"⟩]⟩],
        .ok [⟨ascii "E1", [], [], [], [], true⟩],
        .ok [⟨ascii "E1", [⟨ascii "V", [], [], []⟩]⟩]⟩).2 :=
  (edistructLoadXmlFiles_safe_iff ⟨[], [], [], []⟩ (by
    intro codes hcodes
    obtain rfl := Except.ok.inj hcodes
    exact List.pairwise_singleton _ _)).2
    (Or.inr ⟨by simp [tableAfter, Except.toOption],
      by simp [tableAfter, Except.toOption],
      by simp [tableAfter, Except.toOption], _, rfl, by simp, by simp⟩) rfl

end Libedi
