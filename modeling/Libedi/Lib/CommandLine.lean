import Mathlib.Data.List.Basic

/-!
# Command lines

The options of a command line.  An argument that starts with a mark holds letters.
A letter is a flag, or it takes a value, which is what is left of its argument or,
if nothing is, the next argument.  The options end in front of the first argument
without letters, or behind two marks.

`read` finds the options of any command line, and `Spelling` says how some options
may be written.  The two are the same for options that are known and have what they
need (`read_iff`).
-/

namespace CommandLine

variable {α : Type} [DecidableEq α]

/-- What a letter is for. -/
inductive Kind where
  | flag
  | value
  deriving DecidableEq, Repr

/-- The mark, and the letters that there are. -/
structure Rules (α : Type) where
  mark : α
  kind : α → Option Kind

/-- An option as it was found. -/
inductive Item (α : Type) where
  | flag (c : α)
  | value (c : α) (arg : List α)
  | unknown (c : α)
  /-- The value is not there. -/
  | lacking (c : α)
  deriving DecidableEq, Repr

/-- The option is what it should be. -/
def Item.Known : Item α → Prop
  | .flag _ | .value _ _ => True
  | .unknown _ | .lacking _ => False

/-- The option is one of the rules, with a value if it takes one. -/
def Item.Valid (r : Rules α) : Item α → Prop
  | .flag c => r.kind c = some .flag
  | .value c _ => r.kind c = some .value
  | .unknown _ | .lacking _ => False

omit [DecidableEq α] in
theorem Item.Valid.known {r : Rules α} {i : Item α} (h : i.Valid r) : i.Known := by
  cases i with
  | flag | value => trivial
  | unknown | lacking => exact h

/-- The options of a command line that starts with some letters, and the arguments
behind them. -/
def read (r : Rules α) :
    List α → List (List α) → List (Item α) × List (List α)
  | [], [] => ([], [])
  | [], a :: args =>
    match a with
    | m :: c :: cs =>
      if m ≠ r.mark then ([], a :: args)
      else if c = r.mark ∧ cs = [] then ([], args)
      else read r (c :: cs) args
    | _ => ([], a :: args)
  | c :: cs, args =>
    match r.kind c with
    | none => Prod.map (.unknown c :: ·) id (read r cs args)
    | some .flag => Prod.map (.flag c :: ·) id (read r cs args)
    | some .value =>
      if cs ≠ [] then Prod.map (.value c cs :: ·) id (read r [] args)
      else match args with
        | [] => ([.lacking c], [])
        | arg :: args => Prod.map (.value c arg :: ·) id (read r [] args)
termination_by letters args => (args.length, letters.length)

/-- No letters start here. -/
def Rules.Stops (r : Rules α) : List (List α) → Prop
  | (m :: _ :: _) :: _ => m ≠ r.mark
  | _ => True

/-- All letters are flags. -/
def Rules.Flags (r : Rules α) (fs : List α) : Prop :=
  ∀ c ∈ fs, r.kind c = some .flag

/-- The options `items` are written as `line`, with the arguments `rest` behind
them. -/
inductive Spelling (r : Rules α) :
    List (Item α) → List (List α) → List (List α) → Prop where
  | stop {rest : List (List α)} (h : r.Stops rest) : Spelling r [] rest rest
  | marks (rest : List (List α)) : Spelling r [] ([r.mark, r.mark] :: rest) rest
  | flags {fs : List α} {items : List (Item α)} {line rest : List (List α)}
      (hne : fs ≠ []) (hfs : r.Flags fs) (h : Spelling r items line rest) :
      Spelling r (fs.map .flag ++ items) ((r.mark :: fs) :: line) rest
  | attached {fs arg : List α} {c : α} {items : List (Item α)}
      {line rest : List (List α)} (hfs : r.Flags fs)
      (hc : r.kind c = some .value) (harg : arg ≠ [])
      (h : Spelling r items line rest) :
      Spelling r (fs.map .flag ++ .value c arg :: items)
        ((r.mark :: (fs ++ c :: arg)) :: line) rest
  | apart {fs : List α} {c : α} {items : List (Item α)}
      {line rest : List (List α)} (hfs : r.Flags fs)
      (hc : r.kind c = some .value) (arg : List α)
      (h : Spelling r items line rest) :
      Spelling r (fs.map .flag ++ .value c arg :: items)
        ((r.mark :: (fs ++ [c])) :: arg :: line) rest

/-! ## Letters -/

variable {r : Rules α}

theorem read_unknown {c : α} (hc : r.kind c = none) (cs : List α)
    (args : List (List α)) :
    read r (c :: cs) args = Prod.map (.unknown c :: ·) id (read r cs args) := by
  rw [read.eq_def]
  simp only [hc]

theorem read_flag {c : α} (hc : r.kind c = some .flag) (cs : List α)
    (args : List (List α)) :
    read r (c :: cs) args = Prod.map (.flag c :: ·) id (read r cs args) := by
  rw [read.eq_def]
  simp only [hc]

theorem read_attached {c : α} (hc : r.kind c = some .value) {arg : List α}
    (harg : arg ≠ []) (args : List (List α)) :
    read r (c :: arg) args = Prod.map (.value c arg :: ·) id (read r [] args) := by
  rw [read.eq_def]
  simp only [hc, if_pos harg]

theorem read_apart {c : α} (hc : r.kind c = some .value) (arg : List α)
    (args : List (List α)) :
    read r [c] (arg :: args)
      = Prod.map (.value c arg :: ·) id (read r [] args) := by
  rw [read, hc]
  exact if_neg fun h => h rfl

theorem read_lacking {c : α} (hc : r.kind c = some .value) :
    read r [c] [] = ([.lacking c], []) := by
  rw [read, hc]
  exact if_neg fun h => h rfl

/-- An argument with letters. -/
theorem read_letters {c : α} {cs : List α} (h : ¬ (c = r.mark ∧ cs = []))
    (args : List (List α)) :
    read r [] ((r.mark :: c :: cs) :: args) = read r (c :: cs) args := by
  rw [read, if_neg fun hmark => hmark rfl, if_neg h]

theorem read_marks (args : List (List α)) :
    read r [] ([r.mark, r.mark] :: args) = ([], args) := by
  rw [read, if_neg fun hmark => hmark rfl, if_pos ⟨rfl, rfl⟩]

theorem read_stops {args : List (List α)} (h : r.Stops args) :
    read r [] args = ([], args) := by
  match args with
  | [] => rw [read]
  | [] :: args => simp [read]
  | [m] :: args => simp [read]
  | (m :: c :: cs) :: args =>
    rw [read]
    exact if_pos h

theorem read_flags {fs : List α} (hfs : r.Flags fs) (cs : List α)
    (args : List (List α)) :
    read r (fs ++ cs) args = Prod.map (fs.map .flag ++ ·) id (read r cs args) := by
  induction fs with
  | nil => rfl
  | cons c fs ih =>
    have hfs' := List.forall_mem_cons.1 hfs
    rw [List.cons_append, read_flag hfs'.1, ih hfs'.2]
    rfl

/-! ## Spellings -/

/-- An argument with letters, of which one is no mark. -/
theorem read_mark (hmark : r.kind r.mark = none) {cs : List α} {c : α}
    (hc : c ∈ cs) (hkind : r.kind c ≠ none) (args : List (List α)) :
    read r [] ((r.mark :: cs) :: args) = read r cs args := by
  cases cs with
  | nil => cases hc
  | cons d cs =>
    refine read_letters ?_ args
    rintro ⟨rfl, rfl⟩
    obtain rfl := List.mem_singleton.1 hc
    exact hkind hmark

theorem Spelling.read (hmark : r.kind r.mark = none) {items : List (Item α)}
    {line rest : List (List α)} (h : Spelling r items line rest) :
    read r [] line = (items, rest) := by
  induction h with
  | stop h => exact read_stops h
  | marks rest => exact read_marks rest
  | @flags fs items line rest hne hfs h ih =>
    obtain ⟨c, hc⟩ := List.exists_mem_of_ne_nil fs hne
    rw [read_mark hmark hc (by simp [hfs c hc]), ← List.append_nil fs,
      read_flags hfs, ih, List.append_nil]
    rfl
  | @attached fs arg c items line rest hfs hc harg h ih =>
    rw [read_mark hmark (List.mem_append_right fs List.mem_cons_self) (by simp [hc]),
      read_flags hfs, read_attached hc harg, ih]
    rfl
  | @apart fs c items line rest hfs hc arg h ih =>
    rw [read_mark hmark (List.mem_append_right fs List.mem_cons_self) (by simp [hc]),
      read_flags hfs, read_apart hc, ih]
    rfl

/-- How some letters are spelled behind a mark, when `fs` were read already. -/
theorem spelling_letters {args : List (List α)}
    (hargs : ∀ (line : List (List α)) (items : List (Item α))
      (rest : List (List α)), line.length ≤ args.length →
      CommandLine.read r [] line = (items, rest) → (∀ i ∈ items, i.Known) →
      Spelling r items line rest)
    (fs cs : List α) (hfs : r.Flags fs) (hne : fs ++ cs ≠ [])
    {items : List (Item α)} {rest : List (List α)}
    (hread : CommandLine.read r cs args = (items, rest))
    (hknown : ∀ i ∈ items, i.Known) :
    Spelling r (fs.map .flag ++ items) ((r.mark :: (fs ++ cs)) :: args) rest := by
  induction cs generalizing fs items with
  | nil =>
    rw [List.append_nil] at hne ⊢
    exact .flags hne hfs (hargs _ _ _ (Nat.le_refl _) hread hknown)
  | cons c cs ih =>
    cases hc : r.kind c with
    | none =>
      rw [read_unknown hc] at hread
      obtain ⟨rfl, -⟩ := Prod.mk.inj hread
      exact (hknown _ List.mem_cons_self).elim
    | some kind =>
      cases kind with
      | flag =>
        rw [read_flag hc] at hread
        obtain ⟨rfl, rfl⟩ := Prod.mk.inj hread
        rw [List.forall_mem_cons] at hknown
        have hfs' : r.Flags (fs ++ [c]) := List.forall_mem_append.2
          ⟨hfs, List.forall_mem_singleton.2 hc⟩
        have hrest := ih (fs ++ [c]) hfs' (by simp) rfl hknown.2
        rw [List.map_append, List.append_assoc, List.append_assoc] at hrest
        exact hrest
      | value =>
        by_cases hcs : cs = []
        · subst hcs
          cases args with
          | nil =>
            rw [read_lacking hc] at hread
            obtain ⟨rfl, -⟩ := Prod.mk.inj hread
            exact (hknown _ List.mem_cons_self).elim
          | cons arg args =>
            rw [read_apart hc] at hread
            obtain ⟨rfl, rfl⟩ := Prod.mk.inj hread
            exact .apart hfs hc arg (hargs _ _ _ (Nat.le_succ _) rfl
              (List.forall_mem_cons.1 hknown).2)
        · rw [read_attached hc hcs] at hread
          obtain ⟨rfl, rfl⟩ := Prod.mk.inj hread
          exact .attached hfs hc hcs (hargs _ _ _ (Nat.le_refl _) rfl
            (List.forall_mem_cons.1 hknown).2)

theorem spelling_of_read {line : List (List α)} {items : List (Item α)}
    {rest : List (List α)} (hread : CommandLine.read r [] line = (items, rest))
    (hknown : ∀ i ∈ items, i.Known) : Spelling r items line rest := by
  induction hn : line.length using Nat.strongRecOn
    generalizing line items rest with
  | ind n ih =>
    have hshort : r.Stops line → Spelling r items line rest := by
      intro hstops
      rw [read_stops hstops] at hread
      obtain ⟨rfl, rfl⟩ := Prod.mk.inj hread
      exact .stop hstops
    match line with
    | [] => exact hshort trivial
    | [] :: args => exact hshort trivial
    | [m] :: args => exact hshort trivial
    | (m :: c :: cs) :: args =>
      by_cases hm : m = r.mark
      · subst hm
        by_cases hmarks : c = r.mark ∧ cs = []
        · obtain ⟨rfl, rfl⟩ := hmarks
          rw [read_marks] at hread
          obtain ⟨rfl, rfl⟩ := Prod.mk.inj hread
          exact .marks args
        · rw [read_letters hmarks] at hread
          refine spelling_letters (fun line' items' rest' hle hread' hknown' => ?_)
            [] (c :: cs) (fun _ h => nomatch h) (by simp) hread hknown
          exact ih line'.length (by rw [← hn, List.length_cons]; omega) hread'
            hknown' rfl
      · exact hshort hm

omit [DecidableEq α] in
theorem Spelling.valid {items : List (Item α)} {line rest : List (List α)}
    (h : Spelling r items line rest) : ∀ i ∈ items, i.Valid r := by
  have hflags : ∀ {fs : List α}, r.Flags fs →
      ∀ i ∈ fs.map Item.flag, i.Valid r := fun hfs =>
    List.forall_mem_map.2 hfs
  induction h with
  | stop | marks => exact fun _ hi => nomatch hi
  | flags hne hfs h ih => exact List.forall_mem_append.2 ⟨hflags hfs, ih⟩
  | attached hfs hc harg h ih =>
    exact List.forall_mem_append.2 ⟨hflags hfs, List.forall_mem_cons.2 ⟨hc, ih⟩⟩
  | apart hfs hc arg h ih =>
    exact List.forall_mem_append.2 ⟨hflags hfs, List.forall_mem_cons.2 ⟨hc, ih⟩⟩

/-- The options that are read are known exactly if the command line is a spelling of
them. -/
theorem read_iff (hmark : r.kind r.mark = none) {line : List (List α)}
    {items : List (Item α)} {rest : List (List α)} :
    CommandLine.read r [] line = (items, rest) ∧ (∀ i ∈ items, i.Known) ↔
      Spelling r items line rest := by
  constructor
  · rintro ⟨hread, hknown⟩
    exact spelling_of_read hread hknown
  · intro h
    exact ⟨h.read hmark, fun i hi => (h.valid i hi).known⟩

/-- The option has a value. -/
def Item.HasValue : Item α → Bool
  | .value _ _ => true
  | _ => false

/-- There are not more values than arguments. -/
theorem countP_hasValue_le (letters : List α) (args : List (List α)) :
    (CommandLine.read r letters args).1.countP Item.HasValue
      ≤ args.length + if letters = [] then 0 else 1 := by
  fun_induction CommandLine.read r letters args <;>
    simp_all [Item.HasValue, List.countP_cons] <;> grind

/-- Whatever is read, an option that is known is one of the rules. -/
theorem valid_of_read (letters : List α) (args : List (List α)) :
    ∀ i ∈ (CommandLine.read r letters args).1, i.Known → i.Valid r := by
  fun_induction CommandLine.read r letters args <;> simp_all [Item.Known, Item.Valid]

end CommandLine
