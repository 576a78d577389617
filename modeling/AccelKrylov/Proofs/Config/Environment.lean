import AccelKrylov.Solver
import AccelKrylov.Proofs.Argument.Built
import AccelKrylov.Proofs.Text.Numeral

/-! Settings from named texts. The three texts that hold numbers have to denote numbers in their ranges; the
first one that does not is reported, and nothing else is. Settings that are read say what the texts say, pass
their own check and make a solver. -/

namespace AccelKrylov.Settings

variable {processors : Word} {lookUp : String → Option String} {s : Settings} {e : Error}
  {name raw : String}

/-! ### Single texts -/

/-- A text denotes a signed number of 64 bits. -/
def IsFlag (raw : String) : Prop := ∃ n, Text.DenotesInteger raw n ∧ -2 ^ 63 ≤ n ∧ n < 2 ^ 63

/-- A text denotes a positive number of 64 bits. -/
def IsCount (raw : String) : Prop := ∃ n, Text.DenotesNatural raw n ∧ 1 ≤ n ∧ n < 2 ^ 64

/-- A number that a text denotes is taken if it fits, and is a fault otherwise. -/
theorem take_cases {α β : Type} {number : Option α} {Denotes Fits : α → Prop} [DecidablePred Fits]
    {value : α → β} {fault : Error} {result : Except Error β}
    (hnumber : ∀ n, number = some n ↔ Denotes n) (hnone : number = none → result = .error fault)
    (hsome : ∀ n, number = some n → result = if Fits n then .ok (value n) else .error fault) :
    (∃ n, (Denotes n ∧ Fits n) ∧ result = .ok (value n)) ∨
      (¬∃ n, Denotes n ∧ Fits n) ∧ result = .error fault := by
  cases number with
  | none =>
    refine .inr ⟨?_, hnone rfl⟩
    rintro ⟨n, hn, -⟩
    cases (hnumber n).mpr hn
  | some n =>
    rw [hsome n rfl]
    by_cases hfits : Fits n
    · exact .inl ⟨n, ⟨(hnumber n).mp rfl, hfits⟩, if_pos hfits⟩
    · refine .inr ⟨?_, if_neg hfits⟩
      rintro ⟨m, hm, hm'⟩
      rw [← hnumber, Option.some.injEq] at hm
      exact hfits (hm ▸ hm')

theorem readFlag_cases (raw : String) :
    (∃ n, (Text.DenotesInteger raw n ∧ -2 ^ 63 ≤ n ∧ n < 2 ^ 63) ∧
        readFlag raw = .ok (decide (n ≠ 0))) ∨
      ¬IsFlag raw ∧ readFlag raw = .error (readFlag.fault raw) := by
  have hfits (n : Int) :
      Int64.minValue.toInt ≤ n ∧ n ≤ Int64.maxValue.toInt ↔ -2 ^ 63 ≤ n ∧ n < 2 ^ 63 :=
    and_congr_right' Int.lt_add_one_iff.symm
  refine take_cases (fun n => Text.integer?_trim_eq_some_iff) (fun h => ?_) fun n h => ?_
  · rw [readFlag, h]
  · simp only [readFlag, h, hfits]

theorem readCount_cases (name raw : String) :
    (∃ n, (Text.DenotesNatural raw n ∧ 1 ≤ n ∧ n < 2 ^ 64) ∧
        readCount name raw = .ok (UInt64.ofNat n)) ∨
      ¬IsCount raw ∧ readCount name raw = .error (readCount.fault name raw) := by
  refine take_cases (fun n => Text.natural?_trim_eq_some_iff) (fun h => ?_) fun n h => ?_
  · rw [readCount, h]
  · rw [readCount, h]
    rfl

/-! ### Texts that may be missing -/

/-- A variable is set to a text that is not allowed. -/
def Unreadable (lookUp : String → Option String) (name : String) (Allowed : String → Prop) : Prop :=
  ∃ raw, lookUp name = some raw ∧ ¬Allowed raw

/-- A count is the one that a text denotes, and the standard one without a text. -/
inductive Counts (standard : Word) : Option String → Word → Prop
  | unset : Counts standard none standard
  | set {raw : String} {w : Word} (h : Text.DenotesNatural raw w.toNat) : Counts standard (some raw) w

/-- The first variable that cannot be read, what is said about its text, and the text. -/
inductive FirstUnreadable (lookUp : String → Option String) : (name complaint raw : String) → Prop
  | offload {raw : String} (set : lookUp offloadVariable = some raw) (bad : ¬IsFlag raw) :
      FirstUnreadable lookUp offloadVariable " must be an integer, got " raw
  | threads {raw : String} (offload : ¬Unreadable lookUp offloadVariable IsFlag)
      (set : lookUp threadsVariable = some raw) (bad : ¬IsCount raw) :
      FirstUnreadable lookUp threadsVariable " must be a positive integer, got " raw
  | chunkRows {raw : String} (offload : ¬Unreadable lookUp offloadVariable IsFlag)
      (threads : ¬Unreadable lookUp threadsVariable IsCount)
      (set : lookUp chunkRowsVariable = some raw) (bad : ¬IsCount raw) :
      FirstUnreadable lookUp chunkRowsVariable " must be a positive integer, got " raw

section
variable {Allowed : String → Prop}

theorem not_unreadable (h : lookUp name = none) : ¬Unreadable lookUp name Allowed := by
  rintro ⟨raw, hraw, -⟩
  rw [h] at hraw
  cases hraw

theorem unreadable_iff (h : lookUp name = some raw) : Unreadable lookUp name Allowed ↔ ¬Allowed raw := by
  unfold Unreadable
  simp only [h, Option.some.injEq, exists_eq_left']

end

theorem readOr_flag_cases (lookUp : String → Option String) :
    (∃ b, readOr false readFlag (lookUp offloadVariable) = .ok b ∧
        ¬Unreadable lookUp offloadVariable IsFlag ∧
        (b = true ↔
          ∃ raw n, lookUp offloadVariable = some raw ∧ Text.DenotesInteger raw n ∧ n ≠ 0)) ∨
      ∃ raw, lookUp offloadVariable = some raw ∧ ¬IsFlag raw ∧
        readOr false readFlag (lookUp offloadVariable) = .error (readFlag.fault raw) := by
  cases hset : lookUp offloadVariable with
  | none =>
    refine .inl ⟨false, rfl, not_unreadable hset, nofun, ?_⟩
    rintro ⟨raw, n, hraw, -⟩
    cases hraw
  | some raw =>
    rcases readFlag_cases raw with ⟨n, ⟨hn, hbounds⟩, hread⟩ | ⟨hbad, hread⟩
    · refine .inl ⟨decide (n ≠ 0), hread, fun h => (unreadable_iff hset).mp h ⟨n, hn, hbounds⟩, ?_⟩
      rw [decide_eq_true_eq]
      constructor
      · exact fun hne => ⟨raw, n, rfl, hn, hne⟩
      · rintro ⟨raw', m, hraw, hm, hne⟩
        rw [Option.some.injEq] at hraw
        rwa [hn.unique (hraw ▸ hm)]
    · exact .inr ⟨raw, rfl, hbad, hread⟩

theorem readOr_count_cases (standard : Word) (lookUp : String → Option String) (name : String) :
    (∃ w, readOr standard (readCount name) (lookUp name) = .ok w ∧ ¬Unreadable lookUp name IsCount ∧
        Counts standard (lookUp name) w ∧ (standard ≠ 0 → w ≠ 0)) ∨
      ∃ raw, lookUp name = some raw ∧ ¬IsCount raw ∧
        readOr standard (readCount name) (lookUp name) = .error (readCount.fault name raw) := by
  cases hset : lookUp name with
  | none => exact .inl ⟨standard, rfl, not_unreadable hset, .unset, id⟩
  | some raw =>
    rcases readCount_cases name raw with ⟨n, ⟨hn, hlow, hhigh⟩, hread⟩ | ⟨hbad, hread⟩
    · have hvalue : (UInt64.ofNat n).toNat = n := UInt64.toNat_ofNat_of_lt' hhigh
      refine .inl ⟨UInt64.ofNat n, hread, fun h => (unreadable_iff hset).mp h ⟨n, hn, hlow, hhigh⟩,
        .set ?_, fun _ => ?_⟩
      · rwa [hvalue]
      · rw [← Word.toNat_pos_iff, hvalue]
        exact hlow
    · exact .inr ⟨raw, rfl, hbad, hread⟩

theorem FirstUnreadable.unreadable {complaint : String}
    (h : FirstUnreadable lookUp name complaint raw) : Unreadable lookUp offloadVariable IsFlag ∨
      Unreadable lookUp threadsVariable IsCount ∨ Unreadable lookUp chunkRowsVariable IsCount := by
  cases h with
  | offload set bad => exact .inl ⟨raw, set, bad⟩
  | threads _ set bad => exact .inr (.inl ⟨raw, set, bad⟩)
  | chunkRows _ _ set bad => exact .inr (.inr ⟨raw, set, bad⟩)

/-! ### All settings -/

/-- Settings say what the variables say. -/
structure Reflects (processors : Word) (lookUp : String → Option String) (s : Settings) : Prop where
  offload : s.offload = true ↔
    ∃ raw n, lookUp offloadVariable = some raw ∧ Text.DenotesInteger raw n ∧ n ≠ 0
  firmwareDirectory (directory : String) : s.firmwareDirectory = some directory ↔
    lookUp firmwareVariable = some directory ∧ directory ≠ ""
  devicePath (path : String) : lookUp deviceVariable = some path → path ≠ "" → s.devicePath = path
  devicePath_standard : (∀ path, lookUp deviceVariable = some path → path = "") →
    s.devicePath = "/dev/solver_accel"
  workers : Counts processors (lookUp threadsVariable) s.pool.workers
  chunkRows : Counts 64 (lookUp chunkRowsVariable) s.pool.chunkRows
  interruptSignal : s.interruptSignal = 2

/-- A path that is given and not empty. -/
theorem filter_eq_some_iff {text : Option String} {path : String} :
    (text.filter fun d => !d.isEmpty) = some path ↔ text = some path ∧ path ≠ "" := by
  rw [Option.filter_eq_some_iff, Bool.not_eq_true', String.isEmpty_eq_false_iff]

theorem filter_eq_none {text : Option String} (h : ∀ path, text = some path → path = "") :
    (text.filter fun d => !d.isEmpty) = none := by
  rw [Option.filter_eq_none_iff]
  intro path hpath
  rw [h path hpath]
  exact Bool.false_ne_true

/-- Settings are read, or the first variable that cannot be read is reported. -/
theorem ofLookup_cases (processors : Word) (lookUp : String → Option String) :
    (∃ s, ofLookup processors lookUp = .ok s ∧ ¬Unreadable lookUp offloadVariable IsFlag ∧
        ¬Unreadable lookUp threadsVariable IsCount ∧ ¬Unreadable lookUp chunkRowsVariable IsCount ∧
        Reflects processors lookUp s ∧ (processors ≠ 0 → s.validate = .ok ())) ∨
      ∃ name complaint raw, FirstUnreadable lookUp name complaint raw ∧
        ofLookup processors lookUp =
          .error (.invalidConfiguration (name ++ complaint ++ Text.quote raw)) := by
  unfold ofLookup
  rcases readOr_flag_cases lookUp with ⟨b, hb, hoffload, hflag⟩ | ⟨raw, hset, hbad, hfault⟩
  case inr => exact .inr ⟨_, _, raw, .offload hset hbad, bind_eq_error.mpr (.inl hfault)⟩
  rcases readOr_count_cases processors lookUp threadsVariable with
    ⟨w, hw, hthreads, hworkers, hpos⟩ | ⟨raw, hset, hbad, hfault⟩
  case inr =>
    exact .inr ⟨_, _, raw, .threads hoffload hset hbad,
      bind_eq_error.mpr (.inr ⟨b, hb, bind_eq_error.mpr (.inl hfault)⟩)⟩
  rcases readOr_count_cases 64 lookUp chunkRowsVariable with
    ⟨c, hc, hchunks, hrows, hone⟩ | ⟨raw, hset, hbad, hfault⟩
  case inr =>
    exact .inr ⟨_, _, raw, .chunkRows hoffload hthreads hset hbad, bind_eq_error.mpr
      (.inr ⟨b, hb, bind_eq_error.mpr (.inr ⟨w, hw, bind_eq_error.mpr (.inl hfault)⟩)⟩)⟩
  refine .inl ⟨_, bind_eq_ok.mpr ⟨b, hb, bind_eq_ok.mpr ⟨w, hw, bind_eq_ok.mpr ⟨c, hc, rfl⟩⟩⟩,
    hoffload, hthreads, hchunks, ⟨hflag, ?_, ?_, ?_, hworkers, hrows, rfl⟩, ?_⟩
  · exact fun directory => filter_eq_some_iff
  · intro path hset hne
    exact congrArg (Option.getD · _) (filter_eq_some_iff.mpr ⟨hset, hne⟩)
  · intro hempty
    exact congrArg (Option.getD · _) (filter_eq_none hempty)
  · intro hprocessors
    exact bind_eq_ok.mpr ⟨(), ensure_eq_ok.mpr (hpos hprocessors), ensure_eq_ok.mpr (hone (by decide))⟩

/-- Valid settings make a solver. -/
theorem withTransport_of_valid {σ : Type} {transport : Transport σ} (h : s.validate = .ok ()) :
    ∃ solver, Solver.withTransport s transport = .ok solver ∧ solver.settings = s := by
  obtain ⟨_, hworkers, -⟩ := bind_eq_ok.mp h
  have hstart : Pool.start s.pool.workers = .ok (.ofWorkers s.pool.workers.toNat : Pool RowRange) :=
    bind_eq_ok.mpr ⟨(), ensure_eq_ok.mpr (ensure_eq_ok.mp hworkers), rfl⟩
  refine ⟨⟨s, .ofWorkers s.pool.workers.toNat, transport⟩, ?_, rfl⟩
  exact bind_eq_ok.mpr ⟨(), mapError_eq_ok.mpr h, bind_eq_ok.mpr ⟨_, mapError_eq_ok.mpr hstart, rfl⟩⟩

/-- Reading settings fails exactly where a number cannot be read, with the first such variable named.
Settings that are read say what the variables say, are valid and make a solver. -/
theorem ofLookup_exact (hprocessors : processors ≠ 0) (lookUp : String → Option String) :
    ((∃ e, ofLookup processors lookUp = .error e) ↔ Unreadable lookUp offloadVariable IsFlag ∨
      Unreadable lookUp threadsVariable IsCount ∨ Unreadable lookUp chunkRowsVariable IsCount) ∧
    (∀ e, ofLookup processors lookUp = .error e →
      ∃ name complaint raw, FirstUnreadable lookUp name complaint raw ∧
        e = .invalidConfiguration (name ++ complaint ++ Text.quote raw)) ∧
    ∀ s, ofLookup processors lookUp = .ok s →
      Reflects processors lookUp s ∧ s.validate = .ok () ∧
      ∀ (σ : Type) (transport : Transport σ),
        ∃ solver, Solver.withTransport s transport = .ok solver ∧ solver.settings = s := by
  rcases ofLookup_cases processors lookUp with
    ⟨s, hs, hoffload, hthreads, hchunks, hreflects, hvalid⟩ | ⟨name, complaint, raw, hfirst, he⟩
  · refine ⟨⟨?_, ?_⟩, ?_, ?_⟩
    · rintro ⟨e, he⟩
      rw [hs] at he
      cases he
    · rintro (h | h | h)
      · exact absurd h hoffload
      · exact absurd h hthreads
      · exact absurd h hchunks
    · intro e he
      rw [hs] at he
      cases he
    · intro s' hs'
      obtain rfl := Except.ok.inj (hs.symm.trans hs')
      exact ⟨hreflects, hvalid hprocessors,
        fun σ transport => withTransport_of_valid (hvalid hprocessors)⟩
  · refine ⟨⟨fun _ => hfirst.unreadable, fun _ => ⟨_, he⟩⟩, ?_, ?_⟩
    · intro e he'
      exact ⟨name, complaint, raw, hfirst, Except.error.inj (he'.symm.trans he)⟩
    · intro s hs
      rw [he] at hs
      cases hs

/-- A signed zero between blanks, a count with a sign and a zero in front, an empty path. -/
def signedTexts (name : String) : Option String :=
  if name = offloadVariable then some " -00\n"
  else if name = threadsVariable then some "+03"
  else if name = deviceVariable then some ""
  else none

theorem ofLookup_exact_signed : (4 : Word) ≠ 0 ∧
    ofLookup 4 signedTexts = .ok ⟨false, none, "/dev/solver_accel", 2, ⟨3, 64⟩⟩ ∧
    Counts 4 (some "+03") 3 ∧
    (Settings.mk false none "/dev/solver_accel" 2 ⟨3, 64⟩).validate = .ok () := by
  have hread : ofLookup 4 signedTexts = .ok ⟨false, none, "/dev/solver_accel", 2, ⟨3, 64⟩⟩ := by
    decide
  obtain ⟨-, -, hok⟩ := ofLookup_exact (by decide : (4 : Word) ≠ 0) signedTexts
  obtain ⟨hreflects, hvalid, -⟩ := hok _ hread
  exact ⟨by decide, hread, hreflects.workers, hvalid⟩

end AccelKrylov.Settings
