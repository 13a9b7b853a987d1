import Libedi.Output

/-!
# The format of a header trailer

The comment in `include/libedi.h` lists the directives of `ss_trailer`.
`expandFormat` is what they say: each directive changes the text that is there, one
after the other.  `addhdrtrailer_follows_iff` compares `addhdrtrailer` with it.  The
two agree but for a `%` at the end of the format that has nothing behind it, where
the function steps over the NUL.
-/

namespace Libedi

open BoundedOutput

/-! ## The directives -/

/-- The text behind a directive `%c`. -/
def applyDirective (params : EdiParams) (text : Bytes) (c : UInt8) : Bytes :=
  if c = '_'.toUInt8 then text.dropLast
  else match directive params c with
    | some b => text ++ [b]
    | none => text ++ ['%'.toUInt8, c]

/-- The text behind a format.  A `%` with nothing behind it stands for itself. -/
def expandFormat (params : EdiParams) (text : Bytes) : Bytes → Bytes
  | [] => text
  | c :: format =>
    if c = '%'.toUInt8 then
      match format with
      | [] => text ++ [c]
      | d :: format => expandFormat params (applyDirective params text d) format
    else expandFormat params (text ++ [c]) format

/-- The bytes in front of a position of the buffer. -/
def bytesBefore (mem : Nat → UInt8) (pos : Nat) : Bytes :=
  (List.range pos).map mem

/-- `addhdrtrailer` at `pos` ends inside of its format and of the buffer.  The bytes
in front of the new position are the old ones with the format applied to them, and
the count leads to that position. -/
def FollowsFormat (params : EdiParams) (mem : Nat → UInt8) (pos : Nat)
    (buflen : UInt64) (format : Bytes) : Prop :=
  ∃ buf n, addhdrtrailer ⟨⟨mem, []⟩, pos⟩ buflen.toNat format params
      = some (buf, n) ∧
    bytesBefore buf.mem (sizeAdd pos n)
      = expandFormat params (bytesBefore mem pos) format ∧
    ∀ k ∈ buf.stores, k < buflen.toNat

/-! ## What the function does -/

/-- The script of the format makes the text that the directives say. -/
theorem run_formatOps (params : EdiParams) (text format : Bytes) :
    run (formatOps params format) text = expandFormat params text format := by
  fun_induction expandFormat params text format with
  | case1 text => rw [formatOps, run_nil]
  | case2 text => simp [formatOps, Op.apply]
  | case3 text d format ih =>
    rw [← ih, applyDirective, formatOps, if_pos rfl]
    split_ifs with hd
    · rfl
    · cases directive params d with
      | some b => rfl
      | none => simp [Op.apply]
  | case4 text c format hc ih =>
    rw [formatOps_cons_of_ne hc, ← ih]
    rfl

/-- With enough room a `%` at the end leads over the NUL. -/
theorem addhdrtrailerLoop_lone {params : EdiParams} {limit : Nat}
    {w : Writer UInt8} {format : Bytes} (hlone : endsInLonePercent format = true)
    (hroom : peak (formatOps params format) w.pos < limit) :
    addhdrtrailerLoop params limit w format = none := by
  fun_induction addhdrtrailerLoop params limit w format with
  | case1 w => simp [endsInLonePercent] at hlone
  | case2 w c format hle =>
    have hpeak := le_peak (formatOps params (c :: format)) w.pos
    omega
  | case3 w hlt w' hle =>
    have hpos : w'.pos = w.pos + 1 := rfl
    rw [formatOps, if_pos rfl, peak, peak] at hroom
    omega
  | case4 w hlt w' hlt' => rfl
  | case5 w hlt format ih =>
    have hrest : endsInLonePercent format = true := by
      simpa [endsInLonePercent] using hlone
    rw [formatOps, if_pos rfl, if_pos rfl, peak, Nat.max_lt] at hroom
    rw [back_of_pos] at ih ⊢
    exact ih hrest hroom.2
  | case6 w hlt d format hd b hb ih =>
    have hrest : endsInLonePercent format = true := by
      simpa [endsInLonePercent] using hlone
    rw [formatOps, if_pos rfl, if_neg hd, hb, peak] at hroom
    exact ih hrest hroom
  | case7 w hlt d format hd hnone w' =>
    rename_i hle
    have hpos : w'.pos = w.pos + 1 := rfl
    rw [formatOps, if_pos rfl, if_neg hd, hnone, peak, peak] at hroom
    have hpeak := le_peak (formatOps params format) (w.pos + 1 + 1)
    omega
  | case8 w hlt d format hd hnone w' hle =>
    rename_i ih
    have hrest : endsInLonePercent format = true := by
      simpa [endsInLonePercent] using hlone
    rw [formatOps, if_pos rfl, if_neg hd, hnone, peak, peak] at hroom
    exact ih hrest hroom
  | case9 w c format hlt hc ih =>
    rw [endsInLonePercent_cons_of_ne hc] at hlone
    rw [formatOps_cons_of_ne hc, peak] at hroom
    exact ih hlone hroom

theorem bytesBefore_length (mem : Nat → UInt8) (pos : Nat) :
    (bytesBefore mem pos).length = pos := by
  simp [bytesBefore]

/-- A position in front of which nothing was stored yet. -/
theorem at_bytesBefore (mem : Nat → UInt8) {pos limit : Nat} (h : pos ≤ limit) :
    At limit ⟨⟨mem, []⟩, pos⟩ (bytesBefore mem pos) where
  pos := (bytesBefore_length mem pos).symm
  le := by rwa [bytesBefore_length]
  holds := by
    intro i hi
    rw [bytesBefore_length] at hi
    simp [bytesBefore, hi]
  stores := fun k hk => absurd hk List.not_mem_nil

/-- The text that a writer stands behind. -/
theorem bytesBefore_of_at {limit : Nat} {w : Writer UInt8} {t : Bytes}
    (h : At limit w t) : bytesBefore w.buf.mem w.pos = t := by
  refine List.ext_getElem? fun i => ?_
  by_cases hi : i < t.length
  · rw [h.holds i hi]
    simp [bytesBefore, h.pos, hi]
  · rw [List.getElem?_eq_none (Nat.le_of_not_lt hi), List.getElem?_eq_none]
    rw [bytesBefore_length, h.pos]
    exact Nat.le_of_not_lt hi

/-- With enough room `addhdrtrailer` follows its format exactly if no `%` at the end
of the format is without a character behind it. -/
theorem addhdrtrailer_follows_iff (params : EdiParams) (mem : Nat → UInt8)
    {pos : Nat} {buflen : UInt64} {format : Bytes}
    (hroom : peak (formatOps params format) pos < buflen.toNat) :
    FollowsFormat params mem pos buflen format ↔
      endsInLonePercent format = false := by
  have hpos : pos ≤ buflen.toNat :=
    Nat.le_of_lt (Nat.lt_of_le_of_lt (le_peak _ pos) hroom)
  have hat := at_bytesBefore mem hpos
  constructor
  · rintro ⟨buf, n, hresult, -⟩
    by_contra hlone
    rw [Bool.not_eq_false] at hlone
    rw [addhdrtrailer, addhdrtrailerLoop_lone hlone hroom] at hresult
    cases hresult
  · intro hformat
    obtain ⟨w', hloop, hat'⟩ := addhdrtrailerLoop_at params hat hformat
    rw [runTo_eq_run (by rwa [bytesBefore_length]), run_formatOps] at hat'
    have hcursor : sizeAdd pos (sizeSub (w'.terminate 0).pos pos)
        = (w'.terminate 0).pos :=
      caller_cursor buflen.toNat_lt hat (hat'.terminate 0)
    refine ⟨(w'.terminate 0).buf, sizeSub (w'.terminate 0).pos pos, ?_, ?_, ?_⟩
    · rw [addhdrtrailer, hloop]
      rfl
    · rw [hcursor]
      exact bytesBefore_of_at (hat'.terminate 0)
    · refine (hat'.terminate 0).stores_lt ?_
      rw [← run_formatOps, ← runTo_eq_run (by rwa [bytesBefore_length]),
        runTo_length_lt_iff, bytesBefore_length]
      exact hroom

/-- The trailer of X12 behind four bytes: one of them is taken back. -/
theorem addhdrtrailer_follows_x12 :
    FollowsFormat ediX12Params (fun _ => 'A'.toUInt8) 4 100 (ascii "%_%E%s%S") := by
  have hroom : peak (formatOps ediX12Params (ascii "%_%E%s%S")) 4
      < (100 : UInt64).toNat := by decide +kernel
  have hformat : endsInLonePercent (ascii "%_%E%s%S") = false := by decide +kernel
  exact (addhdrtrailer_follows_iff ediX12Params _ hroom).2 hformat

/-- Behind a `%` at the end the function steps over the NUL. -/
theorem addhdrtrailer_follows_lone :
    ¬ FollowsFormat ediX12Params (fun _ => 'A'.toUInt8) 4 100 (ascii "%") := by
  rintro ⟨buf, n, hresult, -⟩
  have hnone : (addhdrtrailer ⟨⟨fun _ => 'A'.toUInt8, []⟩, 4⟩
      (100 : UInt64).toNat (ascii "%") ediX12Params).isNone = true := by decide
  rw [hresult] at hnone
  cases hnone

end Libedi
