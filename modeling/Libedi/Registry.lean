import Libedi.Lib.LastWrite
import Libedi.Detect

/-!
# The registry as a map

Registering a name for the first time appends a record.  Registering it again
reuses the record that is there, and `edi__detect_rp_init` clears that record
with a `memset`, its name included.  So the second registration does not
replace the parameters of a name, it makes the name unknown, and the third one
appends a new record.

`lookupParams_register` says this in terms of maps: a registration toggles its
name.  `ediDetectGetParams_eq_iff` is what a run of registrations comes to.
-/

namespace Libedi

open LastWrite

/-- The parameters under a name, in the array of records. -/
def lookupParams (rps : List EdiRegparams) (name : Bytes) : Option EdiParams :=
  (rps.find? (hasName name)).map (·.params)

/-- No two records have the same name. -/
def DistinctNames (rps : List EdiRegparams) : Prop :=
  rps.Pairwise fun a b => a.name = [] ∨ a.name ≠ b.name

/-- A name that a record has room for, and parameters of the current version. -/
structure ValidCall (c : Bytes × EdiParams) : Prop where
  name_pos : 0 < c.1.length
  name_le : c.1.length ≤ 31
  version : c.2.version = ediVersion

/-- The parameters that the library starts with. -/
def presetParams (name : Bytes) : Option EdiParams :=
  if name = ascii "UN/EDIFACT" then some ediEdifactParams
  else if name = ascii "TRADACOMS" then some ediTradacomsParams
  else if name = ascii "ANSI X12" then some ediX12Params
  else none

/-- A run of `edi_params_register`. -/
def registerAll (lib : EdiLib) (calls : List (Bytes × EdiParams)) : EdiLib :=
  calls.foldl (fun lib c => (ediParamsRegister lib (some c.1) c.2).1) lib

/-! ## One registration -/

theorem hasName_iff {name : Bytes} (h : name ≠ []) (rp : EdiRegparams) :
    hasName name rp = true ↔ rp.name = name := by
  unfold hasName
  constructor
  · intro hn
    simp only [Bool.and_eq_true, beq_iff_eq] at hn
    exact hn.2
  · rintro rfl
    simp [h]

@[simp] theorem hasName_of_name_nil (name : Bytes) {rp : EdiRegparams}
    (h : rp.name = []) : hasName name rp = false := by
  simp [hasName, h]

/-- Parameters of the current version are copied as they are. -/
theorem ediDetectRpInit_eq (dest : EdiRegparams) {params : EdiParams}
    (h : params.version = ediVersion) :
    ediDetectRpInit dest params = ⟨[], params, 2, []⟩ := by
  obtain ⟨version, seg, data, sub, tag, esc, root, containers, name, trailer⟩ :=
    params
  obtain rfl : version = ediVersion := h
  simp [ediDetectRpInit, ediDetectParamsCopy, ediVersion, zeroParams]

/-- The first element that a search finds, modified. -/
theorem exists_modify_findIdx? {α : Type*} {f : α → Bool} {l : List α} {k : Nat}
    (h : l.findIdx? f = some k) (g : α → α) :
    ∃ a x b, l = a ++ x :: b ∧ f x = true ∧ (∀ y ∈ a, f y = false) ∧
      l.modify k g = a ++ g x :: b := by
  obtain ⟨hk, hx, hbefore⟩ := List.findIdx?_eq_some_iff_getElem.1 h
  refine ⟨l.take k, l[k], l.drop (k + 1), ?_, hx, ?_, ?_⟩
  · rw [← List.drop_eq_getElem_cons hk, List.take_append_drop]
  · intro y hy
    obtain ⟨j, hj, rfl⟩ := List.mem_take_iff_getElem.1 hy
    simpa using hbefore j (by omega)
  · exact List.modify_eq_take_cons_drop hk

/-- A registration appends a record, or clears the one that has the name.  31
bytes of the name count. -/
theorem ediDetectRegisterParams_cases (rps : List EdiRegparams)
    (name : Option Bytes) (params : EdiParams) :
    ((∀ rp ∈ rps, rp.name = [] ∨ name.map (·.take 31) ≠ some rp.name) ∧
      (ediDetectRegisterParams rps name params).1
        = rps ++ [{ ediDetectRpInit zeroRegparams params with
          name := (name.map (·.take 31)).getD [] }]) ∨
    ∃ l rp l', rps = l ++ rp :: l' ∧ rp.name ≠ [] ∧
      name.map (·.take 31) = some rp.name ∧ (∀ x ∈ l, x.name ≠ rp.name) ∧
      (ediDetectRegisterParams rps name params).1
        = l ++ ediDetectRpInit rp params :: l' := by
  unfold ediDetectRegisterParams
  cases name.map (·.take 31) with
  | none =>
    exact Or.inl ⟨fun rp _ => Or.inr (Option.some_ne_none _).symm, rfl⟩
  | some tbuf =>
    have hother {rp : EdiRegparams} (hno : hasName tbuf rp = false) :
        rp.name = [] ∨ rp.name ≠ tbuf := by
      rw [or_iff_not_imp_left]
      rintro hne rfl
      rw [(hasName_iff hne rp).2 rfl] at hno
      cases hno
    cases hfind : rps.findIdx? (hasName tbuf) with
    | none =>
      simp only [hfind]
      refine Or.inl ⟨fun rp hrp => ?_, rfl⟩
      refine (hother (List.findIdx?_eq_none_iff.1 hfind rp hrp)).imp_right ?_
      exact fun hne heq => hne (Option.some.inj heq).symm
    | some k =>
      obtain ⟨l, rp, l', hrps, hrp, hl, hmodify⟩ := exists_modify_findIdx? hfind
        fun rp => ediDetectRpInit (ediDetectRpCleanup rp) params
      have hrp' : rp.name ≠ [] ∧ rp.name = tbuf := by
        simpa [hasName] using hrp
      simp only [hfind]
      refine Or.inr ⟨l, rp, l', hrps, hrp'.1, by rw [hrp'.2], fun x hx => ?_,
        hmodify⟩
      rw [hrp'.2]
      refine (hother (hl x hx)).elim (fun hnil heq => hrp'.1 ?_) id
      rw [hrp'.2, ← heq, hnil]

theorem DistinctNames.register {rps : List EdiRegparams}
    (h : DistinctNames rps) (name : Option Bytes) (params : EdiParams) :
    DistinctNames (ediDetectRegisterParams rps name params).1 := by
  unfold DistinctNames at h ⊢
  rcases ediDetectRegisterParams_cases rps name params with
    ⟨hno, hrps'⟩ | ⟨l, rp, l', rfl, -, -, -, hrps'⟩
  · rw [hrps', List.pairwise_append]
    refine ⟨h, List.pairwise_singleton _ _, fun a ha b hb => ?_⟩
    obtain rfl := List.mem_singleton.1 hb
    rw [or_iff_not_imp_left]
    intro hnil heq
    cases name with
    | none => exact hnil heq
    | some n => exact (hno a ha).elim hnil fun hne => hne (congrArg some heq.symm)
  · rw [List.pairwise_append, List.pairwise_cons] at h
    obtain ⟨hl, ⟨-, hl'⟩, hcross⟩ := h
    rw [hrps', List.pairwise_append, List.pairwise_cons]
    refine ⟨hl, ⟨fun b _ => Or.inl rfl, hl'⟩, fun a ha b hb => ?_⟩
    by_cases hname : a.name = []
    · exact Or.inl hname
    · rcases List.mem_cons.1 hb with rfl | hb
      · exact Or.inr hname
      · exact hcross a ha b (List.mem_cons_of_mem rp hb)

/-- A registration under a name that a record has room for. -/
theorem ediDetectRegisterParams_valid (rps : List EdiRegparams)
    {c : Bytes × EdiParams} (hc : ValidCall c) :
    ((∀ rp ∈ rps, rp.name ≠ c.1) ∧
      (ediDetectRegisterParams rps (some c.1) c.2).1
        = rps ++ [⟨c.1, c.2, 2, []⟩]) ∨
    ∃ l rp l', rps = l ++ rp :: l' ∧ rp.name = c.1 ∧
      (∀ x ∈ l, x.name ≠ c.1) ∧
      (ediDetectRegisterParams rps (some c.1) c.2).1
        = l ++ ⟨[], c.2, 2, []⟩ :: l' := by
  have hne : c.1 ≠ [] := List.ne_nil_of_length_pos hc.name_pos
  have htake : c.1.take 31 = c.1 := List.take_of_length_le hc.name_le
  have hcases := ediDetectRegisterParams_cases rps (some c.1) c.2
  simp only [Option.map_some, htake, Option.getD_some,
    ediDetectRpInit_eq _ hc.version] at hcases
  rcases hcases with ⟨hno, hrps'⟩ | ⟨l, rp, l', hrps, -, hrp, hl, hrps'⟩
  · refine Or.inl ⟨fun rp hrp heq => ?_, hrps'⟩
    rcases hno rp hrp with hnil | hne'
    · exact hne (heq.symm.trans hnil)
    · exact hne' (congrArg some heq.symm)
  · have heq := Option.some.inj hrp
    rw [← heq] at hl
    exact Or.inr ⟨l, rp, l', hrps, heq.symm, hl, hrps'⟩

/-- The registry forgets a name that is registered again. -/
theorem lookupParams_register {rps : List EdiRegparams} (h : DistinctNames rps)
    {c : Bytes × EdiParams} (hc : ValidCall c) :
    lookupParams (ediDetectRegisterParams rps (some c.1) c.2).1
      = toggle (lookupParams rps) c.1 c.2 := by
  have hne : c.1 ≠ [] := List.ne_nil_of_length_pos hc.name_pos
  have hnone {l : List EdiRegparams} (hl : ∀ x ∈ l, x.name ≠ c.1) :
      l.find? (hasName c.1) = none := by
    refine List.find?_eq_none.2 fun x hx hname => hl x hx ?_
    exact (hasName_iff hne x).1 hname
  have hother {r : EdiRegparams} (hname : r.name = c.1) {n : Bytes}
      (hn : n ≠ c.1) : hasName n r = false := by
    simp [hasName, hname, Ne.symm hn]
  funext n
  unfold lookupParams
  rcases ediDetectRegisterParams_valid rps hc with
    ⟨hno, hrps'⟩ | ⟨l, rp, l', rfl, hrp, hl, hrps'⟩
  · rw [hrps', List.find?_append]
    by_cases hn : n = c.1
    · subst hn
      have hnew : hasName c.1 ⟨c.1, c.2, 2, []⟩ = true :=
        (hasName_iff hne _).2 rfl
      rw [toggle_self, hnone hno]
      simp [hnew]
    · rw [toggle_of_ne _ hn]
      simp [hother (r := ⟨c.1, c.2, 2, []⟩) rfl hn]
  · rw [hrps', List.find?_append, List.find?_cons_of_neg (by simp)]
    by_cases hn : n = c.1
    · subst hn
      have hl' : ∀ x ∈ l', x.name ≠ c.1 := by
        intro x hx
        have hrest := (List.pairwise_append.1 h).2.1
        rcases (List.pairwise_cons.1 hrest).1 x hx with hnil | hne'
        · exact absurd (hrp.symm.trans hnil) hne
        · exact fun hname => hne' (hrp.trans hname.symm)
      have hfound : (l ++ rp :: l').find? (hasName c.1) = some rp := by
        rw [List.find?_append, hnone hl, Option.none_or,
          List.find?_cons_of_pos ((hasName_iff hne rp).2 hrp)]
      rw [toggle_self, hfound, hnone hl, hnone hl']
      simp
    · rw [toggle_of_ne _ hn, List.find?_append,
        List.find?_cons_of_neg (by simp [hother hrp hn])]

/-! ## A run of registrations -/

theorem registerAll_concat (lib : EdiLib) (calls : List (Bytes × EdiParams))
    (c : Bytes × EdiParams) : registerAll lib (calls ++ [c])
      = (ediParamsRegister (registerAll lib calls) (some c.1) c.2).1 :=
  List.foldl_concat ..

/-- The registry of a library that `edi__init` has filled, as a map. -/
structure Refines (lib : EdiLib) (m : Bytes → Option EdiParams) : Prop where
  initialised : lib.initComplete = true
  distinct : DistinctNames lib.detectparams
  lookup : lookupParams lib.detectparams = m

theorem lookupParams_presetRecord {n : Bytes} (h : n ≠ [])
    (params : EdiParams) (detectors : List EdiDetector)
    (rps : List EdiRegparams) (name : Bytes) :
    lookupParams (presetRecord n params detectors :: rps) name
      = if name = n then some params else lookupParams rps name := by
  unfold lookupParams
  by_cases hname : name = n
  · subst hname
    rw [List.find?_cons_of_pos ((hasName_iff h _).2 rfl), if_pos rfl]
    rfl
  · have hno : hasName name (presetRecord n params detectors) = false := by
      simp [hasName, presetRecord, Ne.symm hname]
    rw [List.find?_cons_of_neg (by simp [hno]), if_neg hname]

theorem refines_init : Refines (ediInit EdiLib.start) presetParams := by
  rw [ediInit_start]
  refine ⟨rfl, ?_, ?_⟩
  · unfold DistinctNames
    decide
  · funext name
    show lookupParams presetRecords name = presetParams name
    rw [presetRecords, lookupParams_presetRecord (by decide),
      lookupParams_presetRecord (by decide),
      lookupParams_presetRecord (by decide)]
    rfl

theorem Refines.register {lib : EdiLib} {m : Bytes → Option EdiParams}
    (h : Refines lib m) {c : Bytes × EdiParams} (hc : ValidCall c) :
    Refines (ediParamsRegister lib (some c.1) c.2).1 (toggle m c.1 c.2) := by
  rw [ediParamsRegister, ediInit_of_complete h.initialised]
  refine ⟨h.initialised, h.distinct.register _ _, ?_⟩
  rw [← h.lookup]
  exact lookupParams_register h.distinct hc

theorem Refines.registerAll {lib : EdiLib} {m : Bytes → Option EdiParams}
    (h : Refines lib m) {calls : List (Bytes × EdiParams)}
    (hcalls : ∀ c ∈ calls, ValidCall c) :
    Refines (registerAll lib calls) (toggles m calls) := by
  induction calls generalizing lib m with
  | nil => exact h
  | cons c calls ih =>
    have hc := h.register (hcalls c List.mem_cons_self)
    exact ih hc fun d hd => hcalls d (List.mem_cons_of_mem c hd)

theorem Refines.ediDetectGetParams {lib : EdiLib}
    {m : Bytes → Option EdiParams} (h : Refines lib m) (name : Bytes) :
    (ediDetectGetParams lib name).2 = m name := by
  rw [← h.lookup, Libedi.ediDetectGetParams, ediDetectGet,
    ediInit_of_complete h.initialised]
  rfl

/-- A name stands for the parameters of its last registration exactly if it was
never registered, or an odd number of times, the registration of the presets
included.  A call for one name never changes what another name stands for. -/
theorem ediDetectGetParams_eq_iff {calls : List (Bytes × EdiParams)}
    (hcalls : ∀ c ∈ calls, ValidCall c) (name : Bytes) :
    ((ediDetectGetParams (registerAll (ediInit EdiLib.start) calls) name).2
        = writes presetParams calls name
      ↔ count presetParams calls name = 0 ∨
        count presetParams calls name % 2 = 1) ∧
    ∀ c, ValidCall c → c.1 ≠ name →
      (ediDetectGetParams
          (registerAll (ediInit EdiLib.start) (calls ++ [c])) name).2
        = (ediDetectGetParams
          (registerAll (ediInit EdiLib.start) calls) name).2 := by
  have hrun := refines_init.registerAll hcalls
  refine ⟨?_, fun c hc hne => ?_⟩
  · rw [hrun.ediDetectGetParams]
    exact toggles_eq_writes_iff presetParams calls name
  · have hnext := hrun.register hc
    rw [registerAll_concat, hnext.ediDetectGetParams, hrun.ediDetectGetParams]
    exact toggle_of_ne _ (Ne.symm hne) _

/-- The preset of UN/EDIFACT is registered again, as it is. -/
theorem ediDetectGetParams_forgets :
    ¬ (ediDetectGetParams (registerAll (ediInit EdiLib.start)
        [(ascii "UN/EDIFACT", ediEdifactParams)]) (ascii "UN/EDIFACT")).2
      = some ediEdifactParams := by
  decide +kernel

/-- A name of one's own that is registered once. -/
theorem ediDetectGetParams_once :
    (ediDetectGetParams (registerAll (ediInit EdiLib.start)
        [(ascii "MINE", ediX12Params)]) (ascii "MINE")).2
      = writes presetParams [(ascii "MINE", ediX12Params)] (ascii "MINE") :=
  (ediDetectGetParams_eq_iff
    (List.forall_mem_singleton.2 ⟨by decide, by decide, rfl⟩) _).1.2
    (Or.inr (by decide +kernel))

end Libedi
