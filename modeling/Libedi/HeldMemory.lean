import Libedi.LoaderElements

/-!
# What the memory held before

The slots that the loader gets from `realloc` are cleared in part only: the first
10 of 25 for segments, composites and elements, and none for codes.  A field
that no text is delivered for keeps what the memory held.

`Held` and `HeldCodes` are what the memory of a slot held, and a table is read
with it in place of what was not written (`readSegments`, `readElements`,
`readCodes`).  The tables do not depend on it exactly if each entry is in the
cleared part of its block or has a text for each of its fields
(`load_held_iff`).
-/

namespace Libedi

open XmlTree

/-! ## Slots as they are read -/

/-- What the memory of a slot held. -/
structure Held where
  string : TextField → Option Bytes
  children : Option (List (Option Bytes))
  child : Nat → Option Bytes
  isCoded : Int

/-- Null pointers and zeros. -/
def Held.zero : Held := ⟨fun _ => none, none, fun _ => none, 0⟩

/-- A string, or a null pointer. -/
def Field.read (held : Option Bytes) : Field → Option Bytes
  | stale => held
  | null => none
  | text s => some s

/-- The strings in the order of their fields. -/
def Fields.read (fields : List TextField) (held : TextField → Option Bytes)
    (slot : Fields) : List (Option Bytes) :=
  fields.map fun f => (slot f).read (held f)

/-- The children, or a null pointer. -/
def Children.read (held : Held) : Children → Option (List (Option Bytes))
  | stale => held.children
  | null => none
  | block slots => some (slots.mapIdx fun j f => f.read (held.child j))

/-- `is_coded`. -/
def readFlag (held : Int) : Option Bool → Int
  | none => held
  | some b => if b then 1 else 0

/-- A slot of a segment or composite. -/
def SegmentSlot.read (held : Held) (slot : SegmentSlot) :
    List (Option Bytes) × Option (List (Option Bytes)) :=
  (slot.fields.read segmentFields held.string, slot.children.read held)

/-- A slot of an element. -/
def ElementSlot.read (held : Held) (slot : ElementSlot) :
    List (Option Bytes) × Int :=
  (slot.fields.read elementFields held.string, readFlag held.isCoded slot.isCoded)

/-- What the memory of the slot of a coded element and of its values held. -/
structure HeldCodes where
  el : Option Bytes
  vals : Option (List (List (Option Bytes)))
  string : Nat → TextField → Option Bytes

/-- A coded element with its values. -/
def LoadedCodes.read (held : HeldCodes) (codes : LoadedCodes) :
    Option Bytes × Option (List (List (Option Bytes))) :=
  (codes.el.read held.el,
    match codes.vals with
    | none => held.vals
    | some vals => some <| vals.mapIdx fun j v =>
        Fields.read segmentFields (held.string j) v)

/-- The tables, with what the memory of each slot held. -/
def readSegments (held : Nat → Held) (table : List SegmentSlot) :=
  table.mapIdx fun k slot => slot.read (held k)

def readElements (held : Nat → Held) (table : List ElementSlot) :=
  table.mapIdx fun k slot => slot.read (held k)

def readCodes (held : Nat → HeldCodes) (table : List LoadedCodes) :=
  table.mapIdx fun k codes => codes.read (held k)

/-! ## Two readings -/

/-- A table that is read in one way only. -/
theorem mapIdx_read_iff {H S R : Type*} (read : H → S → R) (table : List S) :
    (∀ held held' : Nat → H, table.mapIdx (fun k s => read (held k) s)
        = table.mapIdx (fun k s => read (held' k) s)) ↔
      ∀ s ∈ table, ∀ h h', read h s = read h' s := by
  constructor
  · intro hsame s hs h h'
    obtain ⟨k, hk, rfl⟩ := List.getElem_of_mem hs
    exact (List.mapIdx_eq_mapIdx_iff.1 (hsame (fun _ => h) fun _ => h')) k hk
  · intro hsame held held'
    rw [List.mapIdx_eq_mapIdx_iff]
    exact fun k hk => hsame _ (List.getElem_mem hk) _ _

theorem Field.read_iff (f : Field) :
    (∀ h h', f.read h = f.read h') ↔ f ≠ .stale := by
  cases f with
  | stale =>
    refine iff_of_false (fun hsame => ?_) fun hne => hne rfl
    exact absurd (hsame none (some [])) nofun
  | null => exact iff_of_true (fun _ _ => rfl) nofun
  | text s => exact iff_of_true (fun _ _ => rfl) nofun

theorem Fields.read_iff (fields : List TextField) (slot : Fields) :
    (∀ h h', slot.read fields h = slot.read fields h') ↔
      ∀ f ∈ fields, slot f ≠ .stale := by
  simp only [Fields.read, List.map_inj_left, ← Field.read_iff]
  constructor
  · exact fun hsame f hf h h' => hsame (fun _ => h) (fun _ => h') f hf
  · exact fun hsame h h' f hf => hsame f hf _ _

/-- Nothing of the children is left as it was. -/
def Children.Written : Children → Prop
  | stale => False
  | null => True
  | block slots => Field.stale ∉ slots

theorem SegmentSlot.read_iff (slot : SegmentSlot) :
    (∀ h h', slot.read h = slot.read h') ↔
      (∀ f ∈ segmentFields, slot.fields f ≠ .stale) ∧ slot.children.Written := by
  rw [← Fields.read_iff]
  constructor
  · intro hsame
    refine ⟨fun h h' => ?_, ?_⟩
    · exact (Prod.mk.inj (hsame { Held.zero with string := h }
        { Held.zero with string := h' })).1
    · have hchildren : ∀ h h', slot.children.read h = slot.children.read h' :=
        fun h h' => (Prod.mk.inj (hsame h h')).2
      cases hslot : slot.children with
      | stale =>
        rw [hslot] at hchildren
        exact absurd (hchildren .zero { Held.zero with children := some [] })
          nofun
      | null => trivial
      | block slots =>
        intro hstale
        rw [hslot] at hchildren
        obtain ⟨j, hj, hjs⟩ := List.getElem_of_mem hstale
        have hread := Option.some.inj
          (hchildren .zero { Held.zero with child := fun _ => some [] })
        have hfield := (List.mapIdx_eq_mapIdx_iff.1 hread) j hj
        rw [hjs] at hfield
        exact absurd hfield nofun
  · rintro ⟨hfields, hchildren⟩ h h'
    refine Prod.ext (hfields _ _) ?_
    show slot.children.read h = slot.children.read h'
    cases hslot : slot.children with
    | stale =>
      rw [hslot] at hchildren
      exact hchildren.elim
    | null => rfl
    | block slots =>
      rw [hslot] at hchildren
      refine congrArg some (List.mapIdx_eq_mapIdx_iff.2 fun j hj => ?_)
      have hne : slots[j] ≠ .stale := fun heq => hchildren (heq ▸ List.getElem_mem hj)
      exact (Field.read_iff _).2 hne _ _

theorem ElementSlot.read_iff (slot : ElementSlot) :
    (∀ h h', slot.read h = slot.read h') ↔
      (∀ f ∈ elementFields, slot.fields f ≠ .stale) ∧ slot.isCoded ≠ none := by
  rw [← Fields.read_iff]
  constructor
  · intro hsame
    refine ⟨fun h h' => ?_, fun hnone => ?_⟩
    · exact (Prod.mk.inj (hsame { Held.zero with string := h }
        { Held.zero with string := h' })).1
    · have hflag := (Prod.mk.inj
        (hsame .zero { Held.zero with isCoded := 1 })).2
      rw [hnone] at hflag
      exact absurd hflag (by decide)
  · rintro ⟨hfields, hflag⟩ h h'
    refine Prod.ext (hfields _ _) ?_
    show readFlag h.isCoded slot.isCoded = readFlag h'.isCoded slot.isCoded
    obtain ⟨b, hb⟩ := Option.ne_none_iff_exists'.1 hflag
    rw [hb]
    rfl

theorem LoadedCodes.read_iff {codes : LoadedCodes} {vals : List Fields}
    (hvals : codes.vals = some vals) :
    (∀ h h', codes.read h = codes.read h') ↔
      codes.el ≠ .stale ∧ ∀ v ∈ vals, ∀ f ∈ segmentFields, v f ≠ .stale := by
  have hread : ∀ h, codes.read h = (codes.el.read h.el,
      some (vals.mapIdx fun j v => Fields.read segmentFields (h.string j) v)) := by
    intro h
    rw [LoadedCodes.read, hvals]
  simp only [hread, ← Field.read_iff, Prod.mk.injEq, Option.some.injEq]
  have hvalues : (∀ v ∈ vals, ∀ f ∈ segmentFields,
      ∀ h h', (v f).read h = (v f).read h') ↔
      ∀ v ∈ vals, ∀ h h', Fields.read segmentFields h v
        = Fields.read segmentFields h' v := by
    simp only [Field.read_iff, Fields.read_iff]
  rw [hvalues, ← mapIdx_read_iff (fun h v => Fields.read segmentFields h v)]
  constructor
  · intro hsame
    exact ⟨fun h h' => (hsame ⟨h, none, fun _ _ => none⟩
        ⟨h', none, fun _ _ => none⟩).1,
      fun h h' => (hsame ⟨none, none, h⟩ ⟨none, none, h'⟩).2⟩
  · rintro ⟨hel, hall⟩ h h'
    exact ⟨hel _ _, hall _ _⟩

/-! ## Entries -/

/-- There is a text for each of the strings. -/
def FieldsWritten (fields : List TextField) (basepath : Bytes) (e : Element) :
    Prop :=
  ∀ f ∈ fields, e.textsAt (basepath ++ f.path) basepath ≠ []

instance (fields : List TextField) (basepath : Bytes) (e : Element) :
    Decidable (FieldsWritten fields basepath e) :=
  List.decidableBAll _ _

/-- Each string of the slot is a text of the entry, or a null pointer. -/
def FieldsOf (fields : List TextField) (basepath : Bytes) (e : Element)
    (slot : Fields) : Prop :=
  ∀ f ∈ fields, slot f = .null ∨
    ∃ d ∈ e.textsAt (basepath ++ f.path) basepath, slot f = .text d.last

section Fields

variable {fields : List TextField} {basepath : Bytes} {fresh : Fields}
  {e : Element}

/-- A string that is cleared or written is not stale, and the other way round. -/
theorem entryFields_ne_stale_iff :
    (∀ f ∈ fields, entryFields fields .pieces basepath fresh e f ≠ .stale) ↔
      ∀ f ∈ fields, fresh f ≠ .stale ∨
        e.textsAt (basepath ++ f.path) basepath ≠ [] := by
  refine forall₂_congr fun f hf => ?_
  rw [entryFields, if_pos hf]
  cases htexts : (e.textsAt (basepath ++ f.path) basepath).getLast? with
  | none =>
    rw [List.getLast?_eq_none_iff] at htexts
    simp [htexts]
  | some d =>
    have hne := List.ne_nil_of_mem (List.mem_of_getLast? htexts)
    simp [hne]

theorem entryFields_of (hfresh : ∀ f, fresh f = .null ∨ fresh f = .stale)
    (h : ∀ f ∈ fields, entryFields fields .pieces basepath fresh e f ≠ .stale) :
    FieldsOf fields basepath e (entryFields fields .pieces basepath fresh e) := by
  intro f hf
  have hne := h f hf
  rw [entryFields, if_pos hf] at hne ⊢
  cases htexts : (e.textsAt (basepath ++ f.path) basepath).getLast? with
  | none =>
    rw [htexts] at hne
    exact Or.inl ((hfresh f).resolve_right hne)
  | some d => exact Or.inr ⟨d, List.mem_of_getLast? htexts, rfl⟩

end Fields

/-- The slot is in the part of its block that is cleared. -/
def SlotCleared (k : Nat) : Prop := k % 25 < 10

/-- Nothing of the entry is left as it was. -/
def SegmentWritten (basepath : Bytes) (k : Nat) (e : Element) : Prop :=
  SlotCleared k ∨ FieldsWritten segmentFields basepath e ∧
    e.inner.elementsAt (basepath ++ ascii "/children") basepath ≠ []

def ElementWritten (k : Nat) (e : Element) : Prop :=
  SlotCleared k ∨ FieldsWritten elementFields elementsPath e ∧
    e.textsAt isCodedPath elementsPath ≠ []

def CodesWritten (e : Element) : Prop :=
  e.textsAt (codesPath ++ ascii "/@code") codesPath ≠ [] ∧
    ∀ v ∈ e.inner.elementsAt codesValuePath codesPath,
      FieldsWritten segmentFields codesValuePath v

instance (e : Element) : Decidable (CodesWritten e) :=
  @instDecidableAnd _ _ inferInstance (List.decidableBAll _ _)

theorem segmentEntry_written_iff (basepath : Bytes) (k : Nat) (e : Element) :
    let slot := segmentEntry .pieces basepath k e
    (∀ f ∈ segmentFields, slot.fields f ≠ .stale) ∧ slot.children.Written ↔
      SegmentWritten basepath k e := by
  intro slot
  show (∀ f ∈ segmentFields, entryFields segmentFields .pieces basepath
    (freshSlot 25 10 SegmentSlot.zero .stale k).fields e f ≠ .stale) ∧ _ ↔ _
  have hchildren : slot.children.Written ↔ SlotCleared k ∨
      e.inner.elementsAt (basepath ++ ascii "/children") basepath ≠ [] := by
    simp only [slot, segmentEntry]
    cases hkids : (e.inner.elementsAt (basepath ++ ascii "/children")
        basepath).getLast? with
    | none =>
      rw [List.getLast?_eq_none_iff] at hkids
      unfold freshSlot SlotCleared
      split_ifs with hk <;> simp [hkids, hk, Children.Written, SegmentSlot.zero,
        SegmentSlot.stale]
    | some d =>
      have hne := List.ne_nil_of_mem (List.mem_of_getLast? hkids)
      simp [hne, Children.Written]
  rw [hchildren, entryFields_ne_stale_iff]
  unfold SegmentWritten freshSlot
  by_cases hk : SlotCleared k
  · have hk' : k % 25 < 10 := hk
    simp [hk, hk', SegmentSlot.zero]
  · have hk' : ¬ k % 25 < 10 := hk
    simp [hk, hk', SegmentSlot.stale, FieldsWritten]

theorem elementEntry_written_iff (k : Nat) (e : Element) :
    let slot := elementEntry .pieces k e
    (∀ f ∈ elementFields, slot.fields f ≠ .stale) ∧ slot.isCoded ≠ none ↔
      ElementWritten k e := by
  intro slot
  show (∀ f ∈ elementFields, entryFields elementFields .pieces elementsPath
    (freshSlot 25 10 ElementSlot.zero .stale k).fields e f ≠ .stale) ∧ _ ↔ _
  have hflag : slot.isCoded ≠ none ↔ SlotCleared k ∨
      e.textsAt isCodedPath elementsPath ≠ [] := by
    simp only [slot, elementEntry]
    cases htexts : (e.textsAt isCodedPath elementsPath).getLast? with
    | none =>
      rw [List.getLast?_eq_none_iff] at htexts
      unfold freshSlot SlotCleared
      split_ifs with hk <;> simp [htexts, hk, ElementSlot.zero, ElementSlot.stale]
    | some d =>
      have hne := List.ne_nil_of_mem (List.mem_of_getLast? htexts)
      simp [hne]
  rw [hflag, entryFields_ne_stale_iff]
  unfold ElementWritten freshSlot
  by_cases hk : SlotCleared k
  · have hk' : k % 25 < 10 := hk
    simp [hk, hk', ElementSlot.zero]
  · have hk' : ¬ k % 25 < 10 := hk
    simp [hk, hk', ElementSlot.stale, FieldsWritten]

theorem codesEntry_written_iff (e : Element) :
    (∀ h h', (codesEntry .pieces e).read h = (codesEntry .pieces e).read h') ↔
      CodesWritten e := by
  rw [LoadedCodes.read_iff rfl, List.forall_mem_map]
  have hel : (codesEntry .pieces e).el ≠ .stale ↔
      e.textsAt (codesPath ++ ascii "/@code") codesPath ≠ [] := by
    simp only [codesEntry]
    cases htexts : (e.textsAt (codesPath ++ ascii "/@code")
        codesPath).getLast? with
    | none =>
      rw [List.getLast?_eq_none_iff] at htexts
      simp [htexts]
    | some d =>
      have hne := List.ne_nil_of_mem (List.mem_of_getLast? htexts)
      simp [hne]
  rw [hel, CodesWritten]
  refine and_congr_right fun _ => forall₂_congr fun v _ => ?_
  rw [codedEntry, entryFields_ne_stale_iff]
  simp [FieldsWritten]

/-! ## Tables -/

/-- Nothing of the entries of segments or composites is left as it was. -/
def SegmentsWritten (basepath : Bytes) (c : Content) : Prop :=
  ∀ k e, (c.elementsAt basepath [])[k]? = some e → SegmentWritten basepath k e

def ElementsWritten (c : Content) : Prop :=
  ∀ k e, (c.elementsAt elementsPath [])[k]? = some e → ElementWritten k e

def CodedWritten (c : Content) : Prop :=
  ∀ e ∈ c.elementsAt codesPath [], CodesWritten e

instance (c : Content) : Decidable (CodedWritten c) :=
  List.decidableBAll _ _

theorem readSegments_iff (basepath : Bytes) (c : Content) :
    (∀ held held', readSegments held (segmentTable .pieces basepath c)
        = readSegments held' (segmentTable .pieces basepath c)) ↔
      SegmentsWritten basepath c := by
  unfold readSegments
  rw [mapIdx_read_iff SegmentSlot.read, segmentTable, forall_mem_mapIdx_iff]
  refine forall₂_congr fun k e => imp_congr_right fun _ => ?_
  rw [SegmentSlot.read_iff]
  exact segmentEntry_written_iff basepath k e

theorem readElements_iff (c : Content) :
    (∀ held held', readElements held (elementTable .pieces c)
        = readElements held' (elementTable .pieces c)) ↔ ElementsWritten c := by
  unfold readElements
  rw [mapIdx_read_iff ElementSlot.read, elementTable, forall_mem_mapIdx_iff]
  refine forall₂_congr fun k e => imp_congr_right fun _ => ?_
  rw [ElementSlot.read_iff]
  exact elementEntry_written_iff k e

theorem readCodes_iff (c : Content) :
    (∀ held held', readCodes held (codesTable .pieces c)
        = readCodes held' (codesTable .pieces c)) ↔ CodedWritten c := by
  unfold readCodes
  rw [mapIdx_read_iff LoadedCodes.read, codesTable, List.forall_mem_map]
  exact forall₂_congr fun e _ => codesEntry_written_iff e

/-- The strings of the table are texts of the entries. -/
theorem SegmentsWritten.fieldsOf {basepath : Bytes} {c : Content}
    (h : SegmentsWritten basepath c) :
    List.Forall₂ (fun e slot => FieldsOf segmentFields basepath e slot.fields)
      (c.elementsAt basepath []) (segmentTable .pieces basepath c) := by
  refine forall₂_mapIdx fun k e hk => ?_
  refine entryFields_of (fun f => ?_)
    ((segmentEntry_written_iff basepath k e).2 (h k e hk)).1
  unfold freshSlot
  split_ifs
  · exact Or.inl rfl
  · exact Or.inr rfl

theorem ElementsWritten.fieldsOf {c : Content} (h : ElementsWritten c) :
    List.Forall₂ (fun e slot => FieldsOf elementFields elementsPath e slot.fields)
      (c.elementsAt elementsPath []) (elementTable .pieces c) := by
  refine forall₂_mapIdx fun k e hk => ?_
  refine entryFields_of (fun f => ?_)
    ((elementEntry_written_iff k e).2 (h k e hk)).1
  unfold freshSlot
  split_ifs
  · exact Or.inl rfl
  · exact Or.inr rfl

/-- The coded element is that of the entry. -/
structure CodesOf (e : Element) (codes : LoadedCodes) : Prop where
  el : ∃ d ∈ e.textsAt (codesPath ++ ascii "/@code") codesPath,
    codes.el = .text d.last
  vals : ∃ vals, codes.vals = some vals ∧
    List.Forall₂ (FieldsOf segmentFields codesValuePath)
      (e.inner.elementsAt codesValuePath codesPath) vals

theorem CodedWritten.codesOf {c : Content} (h : CodedWritten c) :
    List.Forall₂ CodesOf (c.elementsAt codesPath []) (codesTable .pieces c) := by
  rw [codesTable, List.forall₂_map_right_iff, List.forall₂_same]
  intro e he
  obtain ⟨hcode, hvalues⟩ := h e he
  constructor
  · obtain ⟨d, hd⟩ := Option.ne_none_iff_exists'.1
      (mt List.getLast?_eq_none_iff.1 hcode)
    refine ⟨d, List.mem_of_getLast? hd, ?_⟩
    simp only [codesEntry, hd]
    rfl
  · refine ⟨_, rfl, ?_⟩
    rw [List.forall₂_map_right_iff, List.forall₂_same]
    intro v hv
    refine entryFields_of (fun _ => Or.inr rfl) ?_
    rw [entryFields_ne_stale_iff]
    exact fun f hf => Or.inr (hvalues v hv f hf)

/-- The tables that are loaded are the same for all contents of the memory, and
have the texts of their entries or null pointers, exactly if nothing of an entry
is left as it was. -/
theorem load_held_iff (c : Content) :
    (∀ {basepath table}, basepath ≠ [] →
      loadSegments basepath (contentEvents c) = some table →
      ((∀ held held', readSegments held table = readSegments held' table) ∧
        List.Forall₂
          (fun e slot => FieldsOf segmentFields basepath e slot.fields)
          (c.elementsAt basepath []) table ↔ SegmentsWritten basepath c)) ∧
    (∀ {table}, loadElements (contentEvents c) = some table →
      ((∀ held held', readElements held table = readElements held' table) ∧
        List.Forall₂
          (fun e slot => FieldsOf elementFields elementsPath e slot.fields)
          (c.elementsAt elementsPath []) table ↔ ElementsWritten c)) ∧
    (∀ {table}, loadCodes (contentEvents c) = some table →
      ((∀ held held', readCodes held table = readCodes held' table) ∧
        List.Forall₂ CodesOf (c.elementsAt codesPath []) table ↔
          CodedWritten c)) := by
  refine ⟨fun hbase h => ?_, fun h => ?_, fun h => ?_⟩
  · rw [loadSegments_contentEvents hbase] at h
    obtain ⟨_, -, rfl⟩ := Option.map_eq_some_iff.1 h
    rw [readSegments_iff]
    exact ⟨fun hboth => hboth.1, fun hwritten => ⟨hwritten, hwritten.fieldsOf⟩⟩
  · rw [loadElements_contentEvents] at h
    obtain ⟨_, -, rfl⟩ := Option.map_eq_some_iff.1 h
    rw [readElements_iff]
    exact ⟨fun hboth => hboth.1, fun hwritten => ⟨hwritten, hwritten.fieldsOf⟩⟩
  · rw [loadCodes_contentEvents] at h
    obtain ⟨_, -, rfl⟩ := Option.map_eq_some_iff.1 h
    rw [readCodes_iff]
    exact ⟨fun hboth => hboth.1, fun hwritten => ⟨hwritten, hwritten.codesOf⟩⟩

/-- A file with one coded element of one value, which has these texts. -/
def sampleCodes (texts : Content) : Content :=
  .element codedValuesName []
    (.element codedElementName [(codeName, ascii "1001")]
      (.element valueName [(codeName, ascii "380")] texts .nil) .nil) .nil

/-- An element with a text. -/
def sampleText (name : Name) (rest : Content) : Content :=
  .element name [] (.text ⟨[ascii "Invoice"], by decide, by decide⟩ .nil) rest

/-- A file with one segment that has nothing but its code. -/
def bareSegment : Content :=
  .element segmentsName []
    (.element segmentName [(codeName, ascii "BGM")] .nil .nil) .nil

/-- The first segment is cleared, and a value is read as it is with all its
texts. -/
theorem load_held_written :
    let codes := sampleCodes (sampleText title1Name
      (sampleText title2Name (sampleText functionName .nil)))
    (∃ table, loadSegments (ascii "/segments/segment")
        (contentEvents bareSegment) = some table ∧
      ∀ held held', readSegments held table = readSegments held' table) ∧
    ∃ table, loadCodes (contentEvents codes) = some table ∧
      ∀ held held', readCodes held table = readCodes held' table := by
  intro codes
  constructor
  · have hload : (loadSegments (ascii "/segments/segment")
        (contentEvents bareSegment)).isSome = true := by
      decide +kernel
    obtain ⟨table, htable⟩ := Option.isSome_iff_exists.1 hload
    refine ⟨table, htable, (((load_held_iff bareSegment).1 (by decide)
      htable).2 fun k e hk => Or.inl ?_).1⟩
    have hlt := (List.getElem?_eq_some_iff.1 hk).1
    have hone : (bareSegment.elementsAt (ascii "/segments/segment") []).length
        = 1 := by
      decide +kernel
    unfold SlotCleared
    omega
  · have hload : (loadCodes (contentEvents codes)).isSome = true := by
      decide +kernel
    obtain ⟨table, htable⟩ := Option.isSome_iff_exists.1 hload
    exact ⟨table, htable, (((load_held_iff codes).2.2 htable).2
      (by decide +kernel)).1⟩

/-- A value without its texts is read as what the memory held. -/
theorem load_held_codes :
    ∃ table, loadCodes (contentEvents (sampleCodes .nil)) = some table ∧
      ¬ ∀ held held', readCodes held table = readCodes held' table := by
  have hload : (loadCodes (contentEvents (sampleCodes .nil))).isSome = true := by
    decide +kernel
  obtain ⟨table, htable⟩ := Option.isSome_iff_exists.1 hload
  refine ⟨table, htable, ?_⟩
  rw [loadCodes_contentEvents] at htable
  obtain ⟨_, -, rfl⟩ := Option.map_eq_some_iff.1 htable
  rw [readCodes_iff]
  decide +kernel

end Libedi
