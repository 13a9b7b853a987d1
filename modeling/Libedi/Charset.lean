import Libedi.CharConv

/-!
# Charsets of single bytes

`do_conv` with an `iconv` for a charset of single bytes.

The first block of `do_conv` has two bytes for each character.  As long as that
is enough the conversion is right.  Where it is not, the pointer into the block
is set wrong after the block has grown: `dstpos` is added to the old pointer and
not to the new block.  So with a `realloc` that moves the block, the next
character is stored into memory that is gone.
-/

namespace Libedi

/-- A charset of single bytes: the UTF-8 of each of its characters. -/
structure Charset where
  utf8 : UInt8 → Bytes
  length_pos : ∀ c, 0 < (utf8 c).length
  length_le : ∀ c, (utf8 c).length ≤ 4
  zero_notMem : ∀ c, c ≠ 0 → 0 ∉ utf8 c

namespace Charset

variable (cs : Charset)

/-- The converted string. -/
def convert (src : Bytes) : Bytes := src.flatMap cs.utf8

/-- How many characters there is space for. -/
def fits : Bytes → Nat → Nat
  | [], _ => 0
  | c :: src, dstleft =>
    if (cs.utf8 c).length ≤ dstleft then
      fits src (dstleft - (cs.utf8 c).length) + 1
    else 0

theorem length_convert_cons (c : UInt8) (src : Bytes) :
    (cs.convert (c :: src)).length
      = (cs.utf8 c).length + (cs.convert src).length := by
  rw [convert, List.flatMap_cons, List.length_append]
  rfl

theorem fits_eq_length_iff (src : Bytes) (dstleft : Nat) :
    cs.fits src dstleft = src.length ↔ (cs.convert src).length ≤ dstleft := by
  fun_induction cs.fits src dstleft with
  | case1 dstleft => simp [convert]
  | case2 c src dstleft hfits ih =>
    rw [length_convert_cons, List.length_cons, Nat.succ_inj, ih]
    omega
  | case3 c src dstleft hfits =>
    rw [length_convert_cons, List.length_cons]
    omega

/-- There is always a first character in four bytes. -/
theorem fits_pos {src : Bytes} {dstleft : Nat} (hsrc : src ≠ [])
    (hleft : 4 ≤ dstleft) : 0 < cs.fits src dstleft := by
  cases src with
  | nil => exact absurd rfl hsrc
  | cons c src =>
    have hc : (cs.utf8 c).length ≤ dstleft :=
      Nat.le_trans (cs.length_le c) hleft
    rw [fits, if_pos hc]
    exact Nat.succ_pos _

/-- `iconv` from the charset: as many characters as there is space for, and
`E2BIG` if some are left. -/
def iconv : Iconv Unit where
  iconvOpen _ := some ()
  iconv cd src dstleft :=
    let n := cs.fits src dstleft
    { cd := cd
      read := n
      stored := cs.convert (src.take n)
      ending := if n = src.length then .done else .e2big }
  done_reads cd src dstleft h := by
    by_cases hall : cs.fits src dstleft = src.length
    · exact Nat.le_of_eq hall.symm
    · simp [hall] at h

theorem iconv_done {src : Bytes} {dstleft : Nat}
    (h : (cs.convert src).length ≤ dstleft) :
    cs.iconv.iconv () src dstleft
      = ⟨(), src.length, cs.convert src, .done⟩ := by
  have hall := (cs.fits_eq_length_iff src dstleft).mpr h
  simp only [iconv, hall, List.take_length, if_true]

theorem iconv_e2big {src : Bytes} {dstleft : Nat}
    (h : dstleft < (cs.convert src).length) :
    (cs.iconv.iconv () src dstleft).ending = .e2big ∧
      cs.fits src dstleft < src.length := by
  have hnot : cs.fits src dstleft ≠ src.length := by
    rw [Ne, fits_eq_length_iff]
    omega
  have hle : cs.fits src dstleft ≤ src.length := by
    clear h hnot
    fun_induction cs.fits src dstleft with
    | case1 => exact Nat.le_refl 0
    | case2 c src dstleft hfits ih => exact Nat.succ_le_succ ih
    | case3 => exact Nat.zero_le _
  exact ⟨if_neg hnot, by omega⟩

theorem zero_notMem_convert {src : Bytes} (hsrc : 0 ∉ src) :
    0 ∉ cs.convert src := by
  intro h
  obtain ⟨c, hc, hzero⟩ := List.mem_flatMap.mp h
  exact cs.zero_notMem c (fun he => hsrc (he ▸ hc)) hzero

end Charset

/-! ## The first block -/

/-- What is stored at the start of a block is its string, once it has a
terminator. -/
theorem ConvBuf.finish_store {b : ConvBuf} {s : Bytes} (hdst : b.dst = some 0)
    (hroom : s.length < b.room) (hs : 0 ∉ s) :
    ∃ b', b.store s = some b' ∧ b'.finish = some s := by
  have hle : 0 + s.length ≤ b.room := by omega
  refine ⟨_, by rw [ConvBuf.store, hdst]; exact if_pos hle, ?_⟩
  have hlt : 0 + s.length < b.room := by omega
  have hbytes : (List.range (0 + s.length)).map
      (fun i => if 0 ≤ i then (s[i - 0]?).getD (b.bytes i) else b.bytes i)
      = s := by
    refine List.ext_getElem (by simp) fun i _ hi => ?_
    simp [List.getElem?_eq_getElem hi]
  have hkeep : s.takeWhile (· ≠ 0) = s := by
    have hall : ∀ c ∈ s, (c ≠ 0 : Bool) = true := by
      intro c hc
      have hne : c ≠ 0 := fun he => hs (he ▸ hc)
      exact decide_eq_true hne
    have happend : (s ++ []).takeWhile (· ≠ 0) = s ++ [].takeWhile (· ≠ 0) :=
      List.takeWhile_append_of_pos hall
    simpa using happend
  simp only [ConvBuf.finish, if_pos hlt, hbytes, hkeep]

section Loop

variable (cs : Charset) (heap : Realloc) {src : Bytes}

theorem doConv_fits (hsrc : 0 ∉ src)
    (hfits : (cs.convert src).length ≤ 2 * src.length)
    (hlimit : 2 * src.length < 64 * 1024 * 1024) :
    doConv cs.iconv heap () src = .text () (cs.convert src) := by
  obtain ⟨b, hstore, hfinish⟩ := ConvBuf.finish_store
    (b := ⟨2 * src.length + 1, heap.stale, some 0, 2 * src.length⟩)
    rfl (Nat.lt_succ_of_le hfits) (cs.zero_notMem_convert hsrc)
  rw [doConv, doConvLoop, if_pos hlimit]
  simp only [cs.iconv_done hfits, hstore, hfinish]

/-- With the pointer lost, the next character is stored astray. -/
theorem doConvLoop_lost {dstlen : Nat} {b : ConvBuf} (hsrc : src ≠ [])
    (hdst : b.dst = none) (hleft : 4 ≤ b.dstleft) :
    ∃ c, doConvLoop cs.iconv heap () src dstlen b = .crash c := by
  unfold doConvLoop
  split
  · have hpos := cs.fits_pos hsrc hleft
    have hstored : cs.convert (src.take (cs.fits src b.dstleft)) ≠ [] := by
      obtain ⟨c, rest, rfl⟩ := List.exists_cons_of_ne_nil hsrc
      obtain ⟨n, hn⟩ : ∃ n, cs.fits (c :: rest) b.dstleft = n + 1 :=
        ⟨cs.fits (c :: rest) b.dstleft - 1, by omega⟩
      rw [hn, List.take_succ_cons]
      intro hnil
      have hlength := congrArg List.length hnil
      rw [cs.length_convert_cons] at hlength
      have hc := cs.length_pos c
      simp only [List.length_nil] at hlength
      omega
    have hstray : b.store (cs.iconv.iconv () src b.dstleft).stored = none := by
      rw [ConvBuf.store, hdst]
      exact if_neg hstored
    exact ⟨.stray, by simp only [hstray]⟩
  · exact ⟨.assertion, rfl⟩

/-- Once the first block is too small and is moved, the conversion is lost. -/
theorem doConv_moved
    (hmoves : heap.moves (2 * src.length + 1) (2 * src.length + 100) = true)
    (hlong : 2 * src.length < (cs.convert src).length) :
    ∃ c, doConv cs.iconv heap () src = .crash c := by
  obtain ⟨hending, hread⟩ := cs.iconv_e2big hlong
  unfold doConv doConvLoop
  split
  · simp only []
    split
    · exact ⟨.stray, rfl⟩
    · next b hb =>
      have hroom : b.room = 2 * src.length + 1 := by
        simp only [ConvBuf.store] at hb
        split at hb
        · cases hb
          rfl
        · cases hb
      simp only [hending]
      refine doConvLoop_lost cs heap ?_ ?_ ?_
      · intro hnil
        have hlength := congrArg List.length hnil
        simp only [List.length_drop, List.length_nil, Charset.iconv] at hlength
        omega
      · rw [ConvBuf.grow, hroom, hmoves]
        rfl
      · simp only [ConvBuf.grow]
        omega
  · exact ⟨.assertion, rfl⟩

end Loop

/-- The whole string is converted, whatever `realloc` does, exactly if there is
space for it in the first block and the first block is below the limit. -/
theorem doConv_converts_iff (cs : Charset) {src : Bytes} (hsrc : 0 ∉ src) :
    (∀ heap, doConv cs.iconv heap () src = .text () (cs.convert src)) ↔
      (cs.convert src).length ≤ 2 * src.length ∧
        2 * src.length < 64 * 1024 * 1024 := by
  constructor
  · intro h
    have hheap := h ⟨fun _ _ => true, fun _ => 0⟩
    constructor
    · by_contra hlong
      obtain ⟨c, hc⟩ := doConv_moved cs ⟨fun _ _ => true, fun _ => 0⟩ rfl
        (Nat.lt_of_not_le hlong)
      rw [hc] at hheap
      cases hheap
    · by_contra hlimit
      rw [doConv, doConvLoop, if_neg hlimit] at hheap
      cases hheap
  · rintro ⟨hfits, hlimit⟩ heap
    exact doConv_fits cs heap hsrc hfits hlimit

/-! ## A western charset -/

/-- The UTF-8 of a byte of the western charset: the euro sign at 128, and
otherwise the characters of Latin-1. -/
def westernUtf8 (c : UInt8) : Bytes :=
  if c < 0x80 then [c]
  else if c = 0x80 then [0xE2, 0x82, 0xAC]
  else if c < 0xC0 then [0xC2, c]
  else [0xC3, c - 0x40]

theorem length_westernUtf8 (c : UInt8) :
    0 < (westernUtf8 c).length ∧ (westernUtf8 c).length ≤ 4 := by
  unfold westernUtf8
  split
  · simp
  · split
    · simp
    · split <;> simp

theorem zero_notMem_westernUtf8 {c : UInt8} (h : c ≠ 0) :
    0 ∉ westernUtf8 c := by
  unfold westernUtf8
  split
  · simpa using h.symm
  · split
    · decide
    · split
      · simpa using h.symm
      · next hge =>
        have hsub : 0 ≠ c - 0x40 := by
          intro he
          have hc : c - 0x40 + 0x40 = 0 + 0x40 := congrArg (· + 0x40) he.symm
          rw [UInt8.sub_add_cancel] at hc
          exact hge (hc ▸ by decide)
        simpa using hsub

def western : Charset where
  utf8 := westernUtf8
  length_pos c := (length_westernUtf8 c).1
  length_le c := (length_westernUtf8 c).2
  zero_notMem _ h := zero_notMem_westernUtf8 h

/-- Two bytes for each letter are enough. -/
theorem doConv_converts_letters :
    (0 : UInt8) ∉ ([0x41, 0xE9] : Bytes) ∧ ∀ heap : Realloc,
      doConv western.iconv heap () [0x41, 0xE9]
        = .text () [0x41, 0xC3, 0xA9] :=
  ⟨by decide, (@doConv_converts_iff western [0x41, 0xE9] (by decide)).mpr
    ⟨by decide, by decide⟩⟩

/-- They are not for three euro signs. -/
theorem doConv_euros_fails :
    ¬ ∀ heap : Realloc, doConv western.iconv heap () [0x80, 0x80, 0x80]
      = .text () (western.convert [0x80, 0x80, 0x80]) := by
  intro h
  have hheap := h ⟨fun _ _ => true, fun _ => 0⟩
  obtain ⟨c, hc⟩ := @doConv_moved western ⟨fun _ _ => true, fun _ => 0⟩
    [0x80, 0x80, 0x80] rfl (by decide)
  rw [hc] at hheap
  cases hheap

end Libedi
