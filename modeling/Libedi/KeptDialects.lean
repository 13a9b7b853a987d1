import Libedi.Registry
import Libedi.Dialects

/-!
# What registrations do to the detection

`edi_params_register` cannot add a detector, but it can take some away.  A record
whose name is registered again is cleared, its detectors included, and the
dialect of these detectors is not found any more.

`registerCalls_detectors` says which detectors are left after a run of
registrations, and `registerCalls_keeps_iff` for which messages this makes a
difference.
-/

namespace Libedi

/-- A run of `edi_params_register`, with names that may be `NULL`. -/
def registerCalls (lib : EdiLib) (calls : List (Option Bytes × EdiParams)) :
    EdiLib :=
  calls.foldl (fun lib c => (ediParamsRegister lib c.1 c.2).1) lib

/-- What one record finds in a message. -/
def EdiRegparams.detect (message : CString) (rp : EdiRegparams) :
    Option (EdiParams × Nat) :=
  (tryDetectors message rp.params rp.detectors).found

/-- The preset that a message is written in. -/
def dialectOf (message : CString) : Option EdiRegparams :=
  presetRecords.find? fun rp => (rp.detect message).isSome

/-- A run of registrations behind `edi__init` does not change whether a message is
detected and how many bytes are skipped, and not the separators either if the
name of its dialect was not registered. -/
def KeepsDetection (calls : List (Option Bytes × EdiParams))
    (message : CString) : Prop :=
  let lib := ediInit EdiLib.start
  let before := (ediDetect lib.detectparams message).found
  let after := (ediDetect (registerCalls lib calls).detectparams message).found
  (after.isSome = true ↔ before.isSome = true) ∧
    after.map Prod.snd = before.map Prod.snd ∧
    ((∀ rp ∈ dialectOf message, ∀ c ∈ calls, c.1 ≠ some rp.name) →
      after = before)

/-! ## The records that detect -/

def EdiRegparams.hasDetectors (rp : EdiRegparams) : Bool :=
  !rp.detectors.isEmpty

theorem tryParams_found (message : CString) (rps : List EdiRegparams) :
    (tryParams message rps).found
      = rps.findSome? (EdiRegparams.detect message) := by
  induction rps with
  | nil => rfl
  | cons rp rps ih =>
    rw [tryParams, List.findSome?_cons, EdiRegparams.detect]
    cases hfound : (tryDetectors message rp.params rp.detectors).found with
    | none => exact ih
    | some x => exact hfound

/-- Records without detectors do not count. -/
theorem findSome?_detect_filter (message : CString) (rps : List EdiRegparams) :
    (rps.filter EdiRegparams.hasDetectors).findSome?
        (EdiRegparams.detect message)
      = rps.findSome? (EdiRegparams.detect message) := by
  induction rps with
  | nil => rfl
  | cons rp rps ih =>
    cases hds : rp.detectors with
    | nil =>
      have hno : rp.hasDetectors = false := by
        simp [EdiRegparams.hasDetectors, hds]
      have hnone : rp.detect message = none := by
        rw [EdiRegparams.detect, hds]
        rfl
      rw [List.filter_cons_of_neg (by simp [hno]), List.findSome?_cons, hnone,
        ih]
    | cons d ds =>
      have hyes : rp.hasDetectors = true := by
        simp [EdiRegparams.hasDetectors, hds]
      rw [List.filter_cons_of_pos hyes, List.findSome?_cons, List.findSome?_cons,
        ih]

/-- A registration takes the detectors of the record with its name away. -/
theorem register_filter {rps : List EdiRegparams} (h : DistinctNames rps)
    (hnamed : ∀ rp ∈ rps, rp.hasDetectors = true → rp.name ≠ [])
    (name : Option Bytes) (params : EdiParams) :
    (ediDetectRegisterParams rps name params).1.filter EdiRegparams.hasDetectors
      = (rps.filter EdiRegparams.hasDetectors).filter fun rp =>
        name.map (·.take 31) ≠ some rp.name := by
  rcases ediDetectRegisterParams_cases rps name params with
    ⟨hno, hrps'⟩ | ⟨l, rp, l', rfl, hne, hname, hl, hrps'⟩
  · have hall : ∀ rp ∈ rps.filter EdiRegparams.hasDetectors,
        name.map (·.take 31) ≠ some rp.name := by
      intro rp hrp
      obtain ⟨hrp, hdetects⟩ := List.mem_filter.1 hrp
      exact (hno rp hrp).resolve_left (hnamed rp hrp hdetects)
    rw [hrps', List.filter_append]
    refine (List.append_nil _).trans (List.filter_eq_self.2 fun rp hrp => ?_).symm
    exact decide_eq_true (hall rp hrp)
  · have hother : ∀ {k : List EdiRegparams}, (∀ x ∈ k, x.hasDetectors = true →
        x.name ≠ rp.name) → (k.filter EdiRegparams.hasDetectors).filter
          (fun rp => name.map (·.take 31) ≠ some rp.name)
          = k.filter EdiRegparams.hasDetectors := by
      intro k hk
      refine List.filter_eq_self.2 fun x hx => ?_
      obtain ⟨hx, hdetects⟩ := List.mem_filter.1 hx
      rw [hname, decide_eq_true_eq, ne_eq, Option.some.injEq]
      exact fun heq => hk x hx hdetects heq.symm
    have hl' : ∀ x ∈ l', x.hasDetectors = true → x.name ≠ rp.name := by
      intro x hx _ heq
      have hrest := (List.pairwise_append.1 h).2.1
      exact ((List.pairwise_cons.1 hrest).1 x hx).elim hne fun h => h heq.symm
    have hcleared : (ediDetectRpInit rp params).hasDetectors = false := rfl
    rw [hrps', List.filter_append, List.filter_append, List.filter_append,
      List.filter_cons_of_neg (by simp [hcleared]),
      hother fun x hx _ => hl x hx]
    congr 1
    rw [← hother hl']
    cases hdetects : rp.hasDetectors with
    | false => rw [List.filter_cons_of_neg (by simp [hdetects])]
    | true =>
      rw [List.filter_cons_of_pos hdetects,
        List.filter_cons_of_neg (by simp [hname])]

/-- No call is for this name. -/
def NotRegistered (calls : List (Option Bytes × EdiParams))
    (rp : EdiRegparams) : Prop :=
  ∀ c ∈ calls, c.1 ≠ some rp.name

instance (calls : List (Option Bytes × EdiParams)) (rp : EdiRegparams) :
    Decidable (NotRegistered calls rp) :=
  List.decidableBAll _ _

/-- What is known of the library behind some calls. -/
structure Registered (calls : List (Option Bytes × EdiParams)) (lib : EdiLib) :
    Prop where
  initialised : lib.initComplete = true
  distinct : DistinctNames lib.detectparams
  detectors : lib.detectparams.filter EdiRegparams.hasDetectors
    = presetRecords.filter (NotRegistered calls ·)

theorem registered_init : Registered [] (ediInit EdiLib.start) := by
  rw [ediInit_start]
  refine ⟨rfl, ?_, ?_⟩
  · unfold DistinctNames
    decide
  · have hall : ∀ rp ∈ presetRecords, NotRegistered [] rp :=
      fun rp _ c hc => absurd hc List.not_mem_nil
    rw [List.filter_eq_self.2 fun rp hrp => decide_eq_true (hall rp hrp)]
    rfl

/-- The names of the presets are kept as they are. -/
theorem presetRecords_name {rp : EdiRegparams} (h : rp ∈ presetRecords) :
    rp.name ≠ [] ∧ rp.name.length < 31 := by
  have hall : ∀ rp ∈ presetRecords, rp.name ≠ [] ∧ rp.name.length < 31 := by
    decide
  exact hall rp h

/-- What `strncpy` leaves out does not matter for a name that is shorter. -/
theorem map_take_eq_iff {name : Option Bytes} {n : Bytes} (h : n.length < 31) :
    name.map (·.take 31) = some n ↔ name = some n := by
  cases name with
  | none => simp
  | some m =>
    rw [Option.map_some, Option.some.injEq, Option.some.injEq]
    constructor
    · rintro rfl
      rw [List.length_take] at h
      exact (List.take_of_length_le (by omega)).symm
    · rintro rfl
      exact List.take_of_length_le (by omega)

theorem Registered.register {calls : List (Option Bytes × EdiParams)}
    {lib : EdiLib} (h : Registered calls lib) (c : Option Bytes × EdiParams) :
    Registered (calls ++ [c]) (ediParamsRegister lib c.1 c.2).1 := by
  have hpreset : ∀ rp ∈ lib.detectparams, rp.hasDetectors = true →
      rp ∈ presetRecords := by
    intro rp hrp hdetects
    have hmem := List.mem_filter.2 ⟨hrp, hdetects⟩
    rw [h.detectors] at hmem
    exact List.mem_of_mem_filter hmem
  rw [ediParamsRegister, ediInit_of_complete h.initialised]
  refine ⟨h.initialised, h.distinct.register c.1 c.2, ?_⟩
  show (ediDetectRegisterParams lib.detectparams c.1 c.2).1.filter _ = _
  rw [register_filter h.distinct
    (fun rp hrp hd => (presetRecords_name (hpreset rp hrp hd)).1), h.detectors,
    List.filter_filter]
  refine List.filter_congr fun rp hrp => ?_
  have hname := (presetRecords_name hrp).2
  simp only [NotRegistered, List.forall_mem_append, List.forall_mem_singleton,
    ne_eq, map_take_eq_iff hname]
  rw [Bool.decide_and, Bool.and_comm]

theorem Registered.calls {calls : List (Option Bytes × EdiParams)} {lib : EdiLib}
    (h : Registered calls lib) (more : List (Option Bytes × EdiParams)) :
    Registered (calls ++ more) (registerCalls lib more) := by
  induction more generalizing calls lib with
  | nil => simpa [registerCalls] using h
  | cons c more ih =>
    have hrest := ih (h.register c)
    rw [List.append_assoc] at hrest
    exact hrest

/-- The detectors that are left are those of the presets whose names no call was
for. -/
theorem registerCalls_detectors (calls : List (Option Bytes × EdiParams)) :
    (registerCalls (ediInit EdiLib.start) calls).detectparams.filter
        EdiRegparams.hasDetectors
      = presetRecords.filter (NotRegistered calls ·) :=
  (registered_init.calls calls).detectors

/-! ## One dialect for each message -/

/-- A record that finds something has a detector whose string starts the
message. -/
theorem exists_start_of_detect {rp : EdiRegparams} {message : CString}
    (h : (rp.detect message).isSome = true) :
    ∃ d ∈ rp.detectors, ∃ s, d.detectstr = some s ∧ s <+: message.bytes := by
  rw [EdiRegparams.detect] at h
  cases tryDetectors_search message rp.params rp.detectors with
  | miss hfound => simp [hfound] at h
  | hit c hc hmatches =>
    obtain ⟨d, hd, rfl⟩ := List.mem_map.1 hc
    obtain ⟨s, hs, -, -, -, hstart⟩ := hmatches
    exact ⟨d, hd, s, hs, hstart⟩

/-- No message is in two dialects. -/
theorem eq_of_detect {rp rp' : EdiRegparams} {message : CString}
    (hrp : rp ∈ presetRecords) (hrp' : rp' ∈ presetRecords)
    (h : (rp.detect message).isSome = true)
    (h' : (rp'.detect message).isSome = true) : rp = rp' := by
  obtain ⟨d, hd, s, hs, hstart⟩ := exists_start_of_detect h
  obtain ⟨d', hd', s', hs', hstart'⟩ := exists_start_of_detect h'
  have hlen : ∀ rp ∈ presetRecords, ∀ d ∈ rp.detectors,
      d.detectstr.map List.length = some 3 := by decide
  have hown : ∀ rp ∈ presetRecords, ∀ rp' ∈ presetRecords,
      ∀ d ∈ rp.detectors, ∀ d' ∈ rp'.detectors,
        d.detectstr = d'.detectstr → rp = rp' := by decide
  have hthree := hlen rp hrp d hd
  have hthree' := hlen rp' hrp' d' hd'
  rw [hs, Option.map_some, Option.some.injEq] at hthree
  rw [hs', Option.map_some, Option.some.injEq] at hthree'
  have heq : s = s' := by
    by_contra hne
    exact not_start hstart s' hne (hthree.trans hthree'.symm) hstart'
  exact hown rp hrp rp' hrp' d hd d' hd' (by rw [hs, hs', heq])

/-- The only one that finds something is found. -/
theorem findSome?_eq_of_unique {α β : Type*} {f : α → Option β} {l : List α}
    {a : α} (ha : a ∈ l) (hone : ∀ b ∈ l, (f b).isSome = true → b = a) :
    l.findSome? f = f a := by
  induction l with
  | nil => exact absurd ha List.not_mem_nil
  | cons b l ih =>
    rw [List.forall_mem_cons] at hone
    rw [List.findSome?_cons]
    cases hb : f b with
    | some x => rw [← hone.1 (by simp [hb]), hb]
    | none =>
      rcases List.mem_cons.1 ha with rfl | ha
      · rw [hb, List.findSome?_eq_none_iff]
        intro c hc
        by_contra hne
        have hca := hone.2 c hc (Option.isSome_iff_ne_none.2 hne)
        rw [hca] at hne
        exact hne hb
      · exact ih ha hone.2

/-- Registrations leave the detection of a message as it was exactly if none of
them is for the name of its dialect. -/
theorem registerCalls_keeps_iff (calls : List (Option Bytes × EdiParams))
    (message : CString) :
    KeepsDetection calls message ↔
      ∀ rp ∈ dialectOf message, ∀ c ∈ calls, c.1 ≠ some rp.name := by
  have hbefore : (ediDetect (ediInit EdiLib.start).detectparams message).found
      = presetRecords.findSome? (EdiRegparams.detect message) := by
    rw [ediInit_start]
    exact tryParams_found message presetRecords
  have hafter : (ediDetect (registerCalls (ediInit EdiLib.start)
        calls).detectparams message).found
      = (presetRecords.filter (NotRegistered calls ·)).findSome?
        (EdiRegparams.detect message) := by
    rw [← registerCalls_detectors, findSome?_detect_filter]
    exact tryParams_found message _
  simp only [KeepsDetection, hbefore, hafter]
  cases hdialect : dialectOf message with
  | none =>
    have hnone : ∀ rp ∈ presetRecords, rp.detect message = none := by
      simpa [dialectOf] using hdialect
    have hleft : ∀ rp ∈ presetRecords.filter (NotRegistered calls ·),
        rp.detect message = none :=
      fun rp hrp => hnone rp (List.mem_of_mem_filter hrp)
    rw [List.findSome?_eq_none_iff.2 hnone, List.findSome?_eq_none_iff.2 hleft]
    simp
  | some rp =>
    have hrp := List.mem_of_find?_eq_some hdialect
    have hfind : presetRecords.find? (fun rp => (rp.detect message).isSome)
        = some rp := hdialect
    have hsome : (rp.detect message).isSome = true := by
      simpa using List.find?_some hfind
    have hone : ∀ rp' ∈ presetRecords,
        (rp'.detect message).isSome = true → rp' = rp :=
      fun rp' hrp' hsome' => eq_of_detect hrp' hrp hsome' hsome
    rw [findSome?_eq_of_unique hrp hone]
    by_cases hcalls : NotRegistered calls rp
    · have hleft : rp ∈ presetRecords.filter (NotRegistered calls ·) :=
        List.mem_filter.2 ⟨hrp, decide_eq_true hcalls⟩
      rw [findSome?_eq_of_unique hleft fun rp' hrp' =>
        hone rp' (List.mem_of_mem_filter hrp')]
      refine iff_of_true ⟨Iff.rfl, rfl, fun _ => rfl⟩ ?_
      simpa [NotRegistered] using hcalls
    · have hgone : (presetRecords.filter (NotRegistered calls ·)).findSome?
          (EdiRegparams.detect message) = none := by
        rw [List.findSome?_eq_none_iff]
        intro rp' hrp'
        obtain ⟨hmem, hnot⟩ := List.mem_filter.1 hrp'
        by_contra hne
        obtain rfl := hone rp' hmem (Option.isSome_iff_ne_none.2 hne)
        exact hcalls (of_decide_eq_true hnot)
      refine iff_of_false ?_ fun hall => hcalls (hall rp rfl)
      rintro ⟨hiff, -, -⟩
      rw [hgone] at hiff
      exact Bool.false_ne_true (hiff.2 hsome)

/-- A message of UN/EDIFACT with a long value. -/
def longMessage : CString :=
  .ofBytes (ascii "UNB+" ++ List.replicate 104 'A'.toUInt8 ++ ascii "'")
    (by decide +kernel)

/-- The preset of UN/EDIFACT is registered again, as it is. -/
theorem registerCalls_forgets_dialect :
    106 ≤ longMessage.strlen ∧
      ¬ KeepsDetection [(some (ascii "UN/EDIFACT"), ediEdifactParams)]
        longMessage := by
  refine ⟨by decide +kernel, ?_⟩
  rintro ⟨hiff, -, -⟩
  have hbefore : (ediDetect (ediInit EdiLib.start).detectparams
      longMessage).found.isSome = true := by decide +kernel
  have hafter : (ediDetect (registerCalls (ediInit EdiLib.start)
      [(some (ascii "UN/EDIFACT"), ediEdifactParams)]).detectparams
        longMessage).found.isSome = false := by decide +kernel
  rw [hafter] at hiff
  exact Bool.false_ne_true (hiff.2 hbefore)

end Libedi
