import Mathlib.Data.List.DropRight
import Mathlib.Data.List.Sort
import Libedi.Lookup

/-!
# The generator of the directories

The functions of `libedistruct/conv_specs.pl` that print the tables as XML:
`make_xml_defs_segments`, `make_xml_defs_elements`, `make_xml_defs_coded`, with
`mk_element`, `escape_xml` and `make_title2`.

A hash is a list of its entries in some order, in which no key is there twice.
`sort keys` puts them in order.  The attributes of an element are a hash too, and
are printed in the order in which its keys come: `keys` stands for that.

Keys are letters and digits, and the other strings are printable ASCII.
-/

namespace Libedi

/-! ## The source -/

/-- A letter or digit of a key. -/
def isKeyByte (c : UInt8) : Bool :=
  ('0'.toUInt8 ≤ c ∧ c ≤ '9'.toUInt8) ∨ ('A'.toUInt8 ≤ c ∧ c ≤ 'Z'.toUInt8) ∨
    ('a'.toUInt8 ≤ c ∧ c ≤ 'z'.toUInt8)

/-- The key of an entry. -/
structure Key where
  bytes : Bytes
  nonempty : bytes ≠ []
  keyBytes : bytes.all isKeyByte = true
  deriving DecidableEq

/-- A string of printable ASCII. -/
def Printed (s : Bytes) : Prop := ∀ c ∈ s, 0x20 ≤ c ∧ c ≤ 0x7E

instance (s : Bytes) : Decidable (Printed s) :=
  List.decidableBAll _ _

/-- A title or a function. -/
structure Phrase where
  bytes : Bytes
  nonempty : bytes ≠ []
  printed : Printed bytes

/-- A segment or a composite.  A child is its status and its code in one word. -/
structure SpecSegment where
  title : Phrase
  function : Phrase
  elements : List Key

/-- An element. -/
structure SpecElement where
  title : Phrase
  function : Phrase
  format : Bytes
  printed : Printed format

/-- A coded value. -/
structure SpecCode where
  title : Phrase
  function : Phrase

/-- A hash, by its entries. -/
structure Hash (α : Type*) where
  entries : List (Key × α)
  nodup : (entries.map Prod.fst).Nodup

/-- The entries in the order of `sort keys`. -/
def Hash.sorted {α : Type*} (h : Hash α) : List (Key × α) :=
  h.entries.mergeSort fun a b => (strcmp a.1.bytes b.1.bytes).isLE

/-- Whether there is an entry of this key. -/
def Hash.has {α : Type*} (h : Hash α) (key : Key) : Bool :=
  h.entries.any fun e => e.1 = key

/-- The values of the coded elements. -/
abbrev CodedMap := Hash (Hash SpecCode)

/-! ## Titles -/

/-- `lc`. -/
def lc (s : Bytes) : Bytes :=
  s.map fun c => if 'A'.toUInt8 ≤ c ∧ c ≤ 'Z'.toUInt8 then c + 32 else c

/-- `\w`. -/
def isWord (c : UInt8) : Bool := isKeyByte c ∨ c = '_'.toUInt8

/-- `\s`. -/
def isBlank (c : UInt8) : Bool :=
  c = ' '.toUInt8 ∨ ('\t'.toUInt8 ≤ c ∧ c ≤ '\r'.toUInt8)

/-- `,\s+coded\W*$` matches here. -/
def codedHere (s : Bytes) : Bool :=
  match s with
  | [] => false
  | c :: s =>
    let behind := s.dropWhile isBlank
    c = ','.toUInt8 ∧ behind ≠ s ∧ ascii "coded" <+: behind ∧
      (behind.drop 5).all (!isWord ·)

/-- `s/,\s+coded\W*$//`, at the first place where it matches. -/
def cutCoded : Bytes → Bytes
  | [] => []
  | c :: s => if codedHere (c :: s) then [] else c :: cutCoded s

/-- `s/\W+/_/`, everywhere. -/
def joinWords : Bytes → Bytes
  | [] => []
  | c :: s =>
    if isWord c then c :: joinWords s
    else if s.head?.any (!isWord ·) then joinWords s
    else '_'.toUInt8 :: joinWords s

/-- `make_title2`. -/
def makeTitle2 (title1 : Bytes) : Bytes :=
  let title2 := lc title1
  let title2 := title2.filter (· ≠ '\''.toUInt8)
  let title2 := title2.dropWhile (!isWord ·)
  let title2 := title2.rdropWhile (!isWord ·)
  let title2 := cutCoded title2
  joinWords title2

/-! ## XML -/

/-- A substitution of all places of a character. -/
def substitute (c : UInt8) (r : Bytes) (s : Bytes) : Bytes :=
  s.flatMap fun b => if b = c then r else [b]

/-- `escape_xml` of the generator. -/
def specEscapeXml (s : Bytes) : Bytes :=
  let s := substitute '&'.toUInt8 (ascii "&amp;") s
  let s := substitute '<'.toUInt8 (ascii "&lt;") s
  let s := substitute '>'.toUInt8 (ascii "&gt;") s
  substitute '"'.toUInt8 (ascii "&quot;") s

/-- A number in decimal digits. -/
def decimal (n : Nat) : Bytes := ascii (toString n)

section Elements

variable (keys : List (Bytes × Bytes) → List (Bytes × Bytes))

/-- `mk_element`. -/
def mkElement (n : Bytes) (attrs : List (Bytes × Bytes)) (bodies : List Bytes) :
    Bytes :=
  let r := ascii "<" ++ n
  let r := r ++ (keys attrs).flatMap fun a =>
    ascii " " ++ a.1 ++ ascii "=\"" ++ a.2 ++ ascii "\""
  if bodies ≠ [] then r ++ ascii ">" ++ bodies.flatten ++ ascii "</" ++ n ++ ascii ">"
  else r ++ ascii " />"

/-- An entry of `make_xml_defs_segments`. -/
def xmlSegment (namepart : Bytes) (e : Key × SpecSegment) : Bytes :=
  let title1 := e.2.title.bytes
  let title2 := makeTitle2 title1
  let title1 := specEscapeXml title1
  let children := e.2.elements.map fun c => mkElement keys (ascii "child") [] [c.bytes]
  mkElement keys namepart [(ascii "code", e.1.bytes)]
    [mkElement keys (ascii "title1") [] [title1],
      mkElement keys (ascii "title2") [] [title2],
      mkElement keys (ascii "function") [] [e.2.function.bytes],
      mkElement keys (ascii "children") [] children]

/-- `make_xml_defs_segments`. -/
def makeXmlDefsSegments (s : Hash SpecSegment) (namepart : Bytes) : Bytes :=
  let a := s.sorted.map fun e => xmlSegment keys namepart e ++ ascii "\n"
  mkElement keys (namepart ++ ascii "s") [(ascii "count", decimal a.length)] a

/-- An entry of `make_xml_defs_elements`. -/
def xmlElement (namepart : Bytes) (codes : CodedMap) (e : Key × SpecElement) :
    Bytes :=
  let title1 := e.2.title.bytes
  let title2 := makeTitle2 title1
  let title1 := specEscapeXml title1
  let isCoded := if codes.has e.1 then ascii "1" else ascii "0"
  mkElement keys namepart [(ascii "code", e.1.bytes)]
    [mkElement keys (ascii "title1") [] [title1],
      mkElement keys (ascii "title2") [] [title2],
      mkElement keys (ascii "function") [] [e.2.function.bytes],
      mkElement keys (ascii "format") [] [e.2.format],
      mkElement keys (ascii "is_coded") [] [isCoded]]

/-- `make_xml_defs_elements`. -/
def makeXmlDefsElements (s : Hash SpecElement) (namepart : Bytes)
    (codes : CodedMap) : Bytes :=
  let a := s.sorted.map fun e => xmlElement keys namepart codes e ++ ascii "\n"
  mkElement keys (namepart ++ ascii "s") [(ascii "count", decimal a.length)] a

/-- A value of `make_xml_defs_coded`.  Its title is escaped twice. -/
def xmlCode (e : Key × SpecCode) : Bytes :=
  let title1 := e.2.title.bytes
  let title2 := makeTitle2 title1
  let title1 := specEscapeXml title1
  let function := specEscapeXml e.2.function.bytes
  let title1 := specEscapeXml title1
  mkElement keys (ascii "value") [(ascii "code", e.1.bytes)]
    [mkElement keys (ascii "title1") [] [title1],
      mkElement keys (ascii "title2") [] [title2],
      mkElement keys (ascii "function") [] [function]]

/-- An entry of `make_xml_defs_coded`. -/
def xmlCodedElement (e : Key × Hash SpecCode) : Bytes :=
  let b := e.2.sorted.map (xmlCode keys)
  mkElement keys (ascii "coded_element")
    [(ascii "code", e.1.bytes), (ascii "count", decimal b.length)] b

/-- `make_xml_defs_coded`. -/
def makeXmlDefsCoded (z : CodedMap) : Bytes :=
  let a := z.sorted.map fun e => xmlCodedElement keys e ++ ascii "\n"
  mkElement keys (ascii "coded_values") [(ascii "count", decimal a.length)] a

end Elements

/-! ## What the parts are like -/

theorem specEscapeXml_eq (s : Bytes) :
    specEscapeXml s = s.flatMap fun c => specEscapeXml [c] := by
  simp only [specEscapeXml, substitute, List.flatMap_assoc,
    List.flatMap_singleton]

theorem specEscapeXml_plain {c : UInt8} (hamp : c ≠ '&'.toUInt8)
    (hlt : c ≠ '<'.toUInt8) (hgt : c ≠ '>'.toUInt8) (hquote : c ≠ '"'.toUInt8) :
    specEscapeXml [c] = [c] := by
  simp [specEscapeXml, substitute, hamp, hlt, hgt, hquote]

/-- A character is either plain or becomes longer. -/
theorem specEscapeXml_cases (c : UInt8) :
    (c ≠ '&'.toUInt8 ∧ c ≠ '<'.toUInt8 ∧ c ≠ '>'.toUInt8 ∧ c ≠ '"'.toUInt8) ∨
      1 < (specEscapeXml [c]).length := by
  by_cases hamp : c = '&'.toUInt8
  · exact Or.inr (by rw [hamp]; decide)
  by_cases hlt : c = '<'.toUInt8
  · exact Or.inr (by rw [hlt]; decide)
  by_cases hgt : c = '>'.toUInt8
  · exact Or.inr (by rw [hgt]; decide)
  by_cases hquote : c = '"'.toUInt8
  · exact Or.inr (by rw [hquote]; decide)
  · exact Or.inl ⟨hamp, hlt, hgt, hquote⟩

theorem specEscapeXml_cons (c : UInt8) (s : Bytes) :
    specEscapeXml (c :: s) = specEscapeXml [c] ++ specEscapeXml s := by
  rw [specEscapeXml_eq, List.flatMap_cons, ← specEscapeXml_eq]

theorem length_le_specEscapeXml (s : Bytes) :
    s.length ≤ (specEscapeXml s).length := by
  induction s with
  | nil => exact Nat.le_refl 0
  | cons c s ih =>
    rw [specEscapeXml_cons, List.length_append, List.length_cons]
    rcases specEscapeXml_cases c with ⟨hamp, hlt, hgt, hquote⟩ | hlong
    · rw [specEscapeXml_plain hamp hlt hgt hquote, List.length_singleton]
      omega
    · omega

theorem specEscapeXml_ne_nil {s : Bytes} (h : s ≠ []) : specEscapeXml s ≠ [] := by
  intro hnil
  have hle := length_le_specEscapeXml s
  rw [hnil] at hle
  exact h (List.length_eq_zero_iff.1 (Nat.le_zero.1 hle))

/-- A string without special characters is not changed, and no other one stays as
it is. -/
theorem specEscapeXml_eq_self_iff (s : Bytes) :
    specEscapeXml s = s ↔ ∀ c ∈ s, c ≠ '&'.toUInt8 ∧ c ≠ '<'.toUInt8 ∧
      c ≠ '>'.toUInt8 ∧ c ≠ '"'.toUInt8 := by
  induction s with
  | nil => simp [specEscapeXml, substitute]
  | cons c s ih =>
    rw [specEscapeXml_cons, List.forall_mem_cons]
    rcases specEscapeXml_cases c with hplain | hlong
    · rw [specEscapeXml_plain hplain.1 hplain.2.1 hplain.2.2.1 hplain.2.2.2,
        List.singleton_append, List.cons.injEq]
      exact ⟨fun heq => ⟨hplain, ih.1 heq.2⟩, fun hall => ⟨rfl, ih.2 hall.2⟩⟩
    · constructor
      · intro heq
        have hlen := congrArg List.length heq
        rw [List.length_append, List.length_cons] at hlen
        have hle := length_le_specEscapeXml s
        omega
      · rintro ⟨⟨hamp, hlt, hgt, hquote⟩, -⟩
        rw [specEscapeXml_plain hamp hlt hgt hquote] at hlong
        exact absurd hlong (by simp)

example : specEscapeXml (ascii "a<b & c") = ascii "a&lt;b &amp; c" := by
  decide

theorem joinWords_words (s : Bytes) : ∀ c ∈ joinWords s, isWord c = true := by
  induction s with
  | nil => exact fun _ hc => absurd hc List.not_mem_nil
  | cons c s ih =>
    rw [joinWords]
    split_ifs with hword hnext
    · exact List.forall_mem_cons.2 ⟨hword, ih⟩
    · exact ih
    · exact List.forall_mem_cons.2 ⟨by decide, ih⟩

/-- A title in words has only letters, digits and underscores. -/
theorem makeTitle2_words (title1 : Bytes) :
    ∀ c ∈ makeTitle2 title1, isWord c = true :=
  joinWords_words _

theorem decimal_digits (n : Nat) : ∀ c ∈ decimal n, isKeyByte c = true := by
  intro c hc
  have hrepr : decimal n = ascii (Nat.repr n) := rfl
  rw [hrepr, ascii, Nat.repr, String.toList_ofList] at hc
  obtain ⟨d, hd, rfl⟩ := List.mem_map.1 hc
  have hdigit := Nat.isDigit_of_mem_toDigits (by decide) (by decide) hd
  have hrange : 48 ≤ d.val.toNat ∧ d.val.toNat ≤ 57 := by
    simpa [Char.isDigit, UInt32.le_iff_toNat_le] using hdigit
  have hbyte : d.toUInt8.toNat = d.val.toNat := by
    show d.val.toNat % 256 = d.val.toNat
    omega
  have hlow : '0'.toUInt8 ≤ d.toUInt8 := by
    rw [UInt8.le_iff_toNat_le, hbyte]
    exact hrange.1
  have hhigh : d.toUInt8 ≤ '9'.toUInt8 := by
    rw [UInt8.le_iff_toNat_le, hbyte]
    exact hrange.2
  simp [isKeyByte, hlow, hhigh]

section Sorted

variable {α : Type*} (h : Hash α)

theorem Hash.sorted_perm : h.sorted.Perm h.entries := List.mergeSort_perm _ _

/-- The entries in order have increasing keys. -/
theorem Hash.sorted_keys : SortedBy (fun e : Key × α => e.1.bytes) h.sorted := by
  have hle : h.sorted.Pairwise fun a b =>
      (strcmp a.1.bytes b.1.bytes).isLE = true := by
    refine List.pairwise_mergeSort (fun a b c hab hbc => ?_) (fun a b => ?_) _
    · exact Std.TransOrd.isLE_trans hab hbc
    · rw [strcmp_swap a.1.bytes b.1.bytes]
      cases strcmp a.1.bytes b.1.bytes <;> rfl
  have hnodup : h.sorted.Pairwise fun a b => a.1 ≠ b.1 :=
    (List.pairwise_map.1 (h.sorted_perm.map Prod.fst |>.nodup_iff.2 h.nodup))
  refine List.Pairwise.imp₂ (fun a b hle hne => ?_) hle hnodup
  cases hcmp : strcmp a.1.bytes b.1.bytes with
  | lt => rfl
  | gt =>
    rw [hcmp] at hle
    cases hle
  | eq =>
    have hkey : a.1 = b.1 := by
      obtain ⟨⟨ka, _, _⟩, _⟩ := a
      obtain ⟨⟨kb, _, _⟩, _⟩ := b
      obtain rfl : ka = kb := strcmp_eq_iff.1 hcmp
      rfl
    exact absurd hkey hne

end Sorted

end Libedi
