import AccelKrylov.Error
import AccelKrylov.Signal.Sequence

/-! What guards do to the dispositions of a process. The signals of a process that has a guard are those that
it found, but for the guard's own; dropping the guard gives back exactly what it found, and an attempt that
fails changes nothing. -/

namespace AccelKrylov

namespace Signals

variable {s s' : Signals} {signal : Int32} {stopPath : Option String} {g : Guard}

/-! ### Installing -/

theorem isSignal_of_isCatchable (h : isCatchable signal = true) : isSignal signal = true := by
  unfold isCatchable at h
  rw [Bool.and_eq_true, Bool.and_eq_true] at h
  exact h.1.1

theorem filter_hasNul_eq_none_iff :
    stopPath.filter Path.hasNul = none ↔ ∀ path ∈ stopPath, Path.hasNul path = false := by
  rw [Option.filter_eq_none_iff]
  exact forall₂_congr fun path _ => (Bool.not_eq_true _).to_iff

/-- What a guard needs, and what it makes of the signals. -/
theorem install_eq_ok_iff : s.install signal stopPath = .ok (g, s') ↔
    (∀ path ∈ stopPath, Path.hasNul path = false) ∧ isCatchable signal = true ∧ s.slot = none ∧
      g = ⟨signal, ⟨stopPath, s.table.disposition signal⟩⟩ ∧
      s' = ⟨⟨fun n => if n = signal then .guarded else s.table.disposition n⟩, some g.slot⟩ := by
  rw [← filter_hasNul_eq_none_iff]
  unfold install SignalTable.query SignalTable.set
  cases hpath : stopPath.filter Path.hasNul with
  | some path => exact ⟨fun h => (by cases h), fun h => (by cases h.1)⟩
  | none =>
    by_cases hs : isSignal signal = true
    · by_cases hslot : s.slot = none
      · by_cases hc : isCatchable signal = true
        · simp only [hs, hslot, hc, if_true, ensure]
          refine ⟨fun h => ?_, ?_⟩
          · obtain ⟨rfl, rfl⟩ := Prod.mk.inj (Except.ok.inj h)
            exact ⟨trivial, trivial, trivial, rfl, rfl⟩
          · rintro ⟨-, -, -, rfl, rfl⟩
            rfl
        · simp only [hs, hslot, hc, if_true, ensure]
          exact ⟨fun h => (by cases h), fun h => (by cases h.2.1)⟩
      · simp only [hs, hslot, if_true, if_false, ensure]
        exact ⟨fun h => (by cases h), fun h => (by cases h.2.2.1)⟩
    · simp only [hs]
      exact ⟨fun h => (by cases h), fun h => absurd (isSignal_of_isCatchable h.2.1) hs⟩

/-- A place that is empty is not the reason why a guard is refused. -/
theorem install_ne_busy (h : s.slot = none) (signal : Int32) (stopPath : Option String) :
    s.install signal stopPath ≠ .error .busy := by
  intro hbusy
  unfold install at hbusy
  cases hpath : stopPath.filter Path.hasNul with
  | some path =>
    rw [hpath] at hbusy
    cases hbusy
  | none =>
    rw [hpath] at hbusy
    cases hquery : s.table.query signal with
    | error cause =>
      rw [hquery] at hbusy
      cases hbusy
    | ok previous =>
      rw [hquery, h] at hbusy
      cases hset : s.table.set signal .guarded with
      | error cause =>
        rw [hset] at hbusy
        cases hbusy
      | ok table =>
        rw [hset] at hbusy
        cases hbusy

/-- Installing call by call comes to the same, and leaves everything as it was if it fails. -/
theorem attempt_eq (s : Signals) (signal : Int32) (stopPath : Option String) :
    s.attempt signal stopPath = match s.install signal stopPath with
      | .ok (guard, s') => (.ok guard, s')
      | .error fault => (.error fault, s) := by
  obtain ⟨table, slot⟩ := s
  unfold attempt install set
  cases stopPath.filter Path.hasNul with
  | some path => rfl
  | none =>
    cases table.query signal with
    | error cause => rfl
    | ok previous =>
      cases slot with
      | some slot => rfl
      | none =>
        simp only [publish_vacant]
        cases table.set signal .guarded with
        | error cause => rfl
        | ok guarded => rfl

/-! ### With a guard and without -/

/-- The signals of a process that found the dispositions `initial` and has the given guard since, or none. -/
inductive Watched (initial : SignalTable) : Option Guard → Signals → Prop
  | unguarded : Watched initial none ⟨initial, none⟩
  | guarded {g : Guard} (catchable : isCatchable g.signal = true)
    (previous : g.slot.previous = initial.disposition g.signal) :
    Watched initial (some g)
      ⟨⟨fun n => if n = g.signal then .guarded else initial.disposition n⟩, some g.slot⟩

variable {initial : SignalTable}

namespace Watched

theorem install (w : Watched initial none s) (h : s.install signal stopPath = .ok (g, s')) :
    Watched initial (some g) s' := by
  cases w with
  | unguarded =>
    obtain ⟨-, hcatchable, -, rfl, rfl⟩ := install_eq_ok_iff.mp h
    exact .guarded hcatchable rfl

/-- A guard leaves nothing behind: the disposition of its signal is the only one that it has changed. -/
theorem drop (w : Watched initial (some g) s) : s.drop g = ⟨initial, none⟩ := by
  cases w with
  | guarded catchable previous =>
    unfold Signals.drop SignalTable.set
    simp only [catchable, if_true]
    congr 2
    funext n
    split
    next hn => rw [hn, previous]
    · rfl

theorem eq_of_none (w : Watched initial none s) : s = ⟨initial, none⟩ := by
  cases w
  rfl

theorem slot_eq {held : Option Guard} (w : Watched initial held s) : s.slot = held.map Guard.slot := by
  cases w <;> rfl

/-- The signal of a guard stops the device and then goes where it went before. -/
theorem deliver (w : Watched initial (some g) s) (opens : String → Bool) :
    s.deliver opens g.signal = (g.slot.stopPath.filter opens).toList.map SignalEffect.stop ++
      (initial.disposition g.signal).chained g.signal := by
  cases w with
  | guarded catchable previous =>
    unfold Signals.deliver
    simp only [if_true]
    rw [GuardSlot.effects, previous]
    cases g.slot.stopPath.filter opens <;> rfl

end Watched

end Signals

/-! ### One action after the other -/

namespace Guarding

open Signals

variable {initial : SignalTable} {s s' : Guarding} {signal : Int32} {stopPath : Option String}

/-- A process has one guard at most, and its signals are as that guard makes them. -/
def Orderly (initial : SignalTable) (s : Guarding) : Prop :=
  ∃ held : Option Guard, s.held = held.toList ∧ Watched initial held s.signals

/-- An installation that cannot be made changes nothing. -/
theorem install_of_error {fault : GuardError} (h : s.signals.install signal stopPath = .error fault) :
    s.install signal stopPath = (.error fault, s) := by
  unfold install
  rw [attempt_eq, h]

theorem install_of_ok {g : Guard} {signals : Signals}
    (h : s.signals.install signal stopPath = .ok (g, signals)) :
    s.install signal stopPath = (.ok g, { s with signals, held := s.held ++ [g] }) := by
  unfold install
  rw [attempt_eq, h]

namespace Orderly

theorem start (initial : SignalTable) : Orderly initial (.start initial) := ⟨none, rfl, .unguarded⟩

theorem install (o : Orderly initial s) (signal : Int32) (stopPath : Option String) :
    Orderly initial (s.install signal stopPath).2 := by
  obtain ⟨held, hheld, hwatched⟩ := o
  cases h : s.signals.install signal stopPath with
  | error fault =>
    rw [install_of_error h]
    exact ⟨held, hheld, hwatched⟩
  | ok made =>
    have hslot := (install_eq_ok_iff.mp h).2.2.1
    rw [hwatched.slot_eq, Option.map_eq_none_iff] at hslot
    subst hslot
    rw [install_of_ok h, hheld]
    exact ⟨some made.1, rfl, hwatched.install h⟩

theorem drop {position : Nat} (o : Orderly initial s) (h : s.drop position = some s') :
    Orderly initial s' := by
  obtain ⟨held, hheld, hwatched⟩ := o
  obtain ⟨g, hg, rfl⟩ := Option.map_eq_some_iff.mp h
  rw [hheld] at hg
  cases held with
  | none => cases hg
  | some other =>
    cases position with
    | succ position => cases hg
    | zero =>
      obtain rfl := Option.some.inj hg
      refine ⟨none, ?_, ?_⟩
      · rw [hheld]
        rfl
      · rw [hwatched.drop]
        exact .unguarded

theorem step {action : GuardAction} (o : Orderly initial s) (h : s.step action = some s') :
    Orderly initial s' := by
  cases action with
  | install signal stopPath =>
    obtain rfl := Option.some.inj h
    exact o.install signal stopPath
  | drop position => exact o.drop h
  | deliver signal opens =>
    obtain rfl := Option.some.inj h
    exact o

theorem replay {actions : List GuardAction} (o : Orderly initial s)
    (h : s.replay actions = some s') : Orderly initial s' := by
  induction actions generalizing s with
  | nil =>
    obtain rfl := Option.some.inj h
    exact o
  | cons action actions ih =>
    obtain ⟨next, hnext, hrest⟩ := Option.bind_eq_some_iff.mp h
    exact ih (o.step hnext) hrest

theorem held_eq_nil_iff (o : Orderly initial s) : s.held = [] ↔ s.signals.slot = none := by
  obtain ⟨held, hheld, hwatched⟩ := o
  rw [hheld, hwatched.slot_eq, Option.map_eq_none_iff]
  cases held <;> simp

theorem length_held (o : Orderly initial s) : s.held.length ≤ 1 := by
  obtain ⟨held, hheld, -⟩ := o
  rw [hheld]
  cases held <;> simp

/-- Without a guard everything is as it was found. -/
theorem restored (o : Orderly initial s) (h : s.held = []) : s.signals = ⟨initial, none⟩ := by
  obtain ⟨held, hheld, hwatched⟩ := o
  rw [hheld, Option.toList_eq_nil_iff] at h
  subst h
  exact hwatched.eq_of_none

theorem refused (o : Orderly initial s)
    (h : s.held ≠ [] ∨ (∃ path ∈ stopPath, Path.hasNul path = true) ∨
      isSignal signal = false ∨ isCatchable signal = false) :
    ∃ fault, s.install signal stopPath = (.error fault, s) := by
  cases hinstall : s.signals.install signal stopPath with
  | error fault => exact ⟨fault, install_of_error hinstall⟩
  | ok made =>
    obtain ⟨hpath, hcatchable, hslot, -⟩ := install_eq_ok_iff.mp hinstall
    rcases h with hheld | ⟨path, hmem, hnul⟩ | hsignal | hcatch
    · exact absurd (o.held_eq_nil_iff.mpr hslot) hheld
    · rw [hpath path hmem] at hnul
      cases hnul
    · rw [isSignal_of_isCatchable hcatchable] at hsignal
      cases hsignal
    · rw [hcatchable] at hcatch
      cases hcatch

theorem installed (o : Orderly initial s) (hheld : s.held = [])
    (hpath : ∀ path ∈ stopPath, Path.hasNul path = false) (hcatchable : isCatchable signal = true) :
    ∃ g signals, s.install signal stopPath = (.ok g, { s with signals, held := [g] }) ∧
      g.signal = signal ∧ g.slot.stopPath = stopPath := by
  have hslot := o.held_eq_nil_iff.mp hheld
  have hmade := install_of_ok (install_eq_ok_iff.mpr ⟨hpath, hcatchable, hslot, rfl, rfl⟩)
  rw [hheld, List.nil_append] at hmade
  exact ⟨_, _, hmade, rfl, rfl⟩

theorem delivered {g : Guard} (o : Orderly initial s) (hg : g ∈ s.held) (opens : String → Bool) :
    s.deliver g.signal opens = { s with
      effects := s.effects ++ ((g.slot.stopPath.filter opens).toList.map SignalEffect.stop ++
        (initial.disposition g.signal).chained g.signal) } := by
  obtain ⟨held, hheld, hwatched⟩ := o
  rw [hheld, Option.mem_toList] at hg
  subst hg
  unfold deliver
  rw [hwatched.deliver]

end Orderly

/-- Whatever dispositions a process begins with, and however it installs guards, drops them and is sent
signals, each to its end before the next: it has one guard at most. Installing fails if there is a guard, the
path cannot be passed on or the signal cannot be asked for or set, and then changes nothing; otherwise it
succeeds. While there is a guard, its signal stops the device once, if the path opens, and then calls what it
called before. Without a guard the dispositions are those of the beginning, and the place is empty. -/
theorem guards_restore (initial : SignalTable) {actions : List GuardAction} {s : Guarding}
    (h : (start initial).replay actions = some s) :
    s.held.length ≤ 1 ∧
    (∀ signal stopPath, s.held ≠ [] ∨ (∃ path ∈ stopPath, Path.hasNul path = true) ∨
        isSignal signal = false ∨ isCatchable signal = false →
      ∃ fault, s.install signal stopPath = (.error fault, s) ∧
        Error.ofGuard fault = .interruptHandler fault.message) ∧
    (∀ signal stopPath, s.held = [] → (∀ path ∈ stopPath, Path.hasNul path = false) →
        isCatchable signal = true →
      ∃ g signals, s.install signal stopPath = (.ok g, { s with signals, held := [g] }) ∧
        g.signal = signal ∧ g.slot.stopPath = stopPath) ∧
    (∀ g ∈ s.held, ∀ opens, ∃ chained,
      s.deliver g.signal opens = { s with
        effects := s.effects ++
          ((g.slot.stopPath.filter opens).toList.map SignalEffect.stop ++ chained) } ∧
      (∀ handler, initial.disposition g.signal = .call handler →
        chained = [.call handler g.signal]) ∧
      (initial.disposition g.signal = .standard ∨ initial.disposition g.signal = .ignored →
        chained = [])) ∧
    (s.held = [] → s.signals.table = initial ∧ s.signals.slot = none) := by
  have o : Orderly initial s := (Orderly.start initial).replay h
  refine ⟨o.length_held, fun signal stopPath hrefused => ?_, fun signal stopPath => o.installed,
    fun g hg opens => ⟨_, o.delivered hg opens, fun handler hcall => ?_, fun hnone => ?_⟩,
    fun hheld => ?_⟩
  · obtain ⟨fault, hfault⟩ := o.refused hrefused
    exact ⟨fault, hfault, rfl⟩
  · rw [hcall]
    rfl
  · rcases hnone with hnone | hnone <;> rw [hnone] <;> rfl
  · rw [o.restored hheld]
    exact ⟨rfl, rfl⟩

/-- A process that calls a handler for one signal and ignores the others. -/
def oneHandler : SignalTable := ⟨fun n => if n = 12 then .call ⟨7, true⟩ else .ignored⟩

/-- A first guard is refused for a signal that cannot be caught, a second one while there is another, and
the handler that the guard in between has found is called behind the stop. -/
theorem guards_restore_handler :
    let found : Guard := ⟨12, ⟨some "accelerator", .call ⟨7, true⟩⟩⟩
    ∃ s, (start oneHandler).replay [.install 9 none, .install 12 (some "accelerator")] = some s ∧
      s.held = [found] ∧ (∃ fault, s.install 10 none = (.error fault, s)) ∧
      (s.deliver 12 fun path => path == "accelerator").effects =
        [.stop "accelerator", .call ⟨7, true⟩ 12] ∧
      ∃ s', s.drop 0 = some s' ∧ s'.held = [] ∧ s'.signals.table = oneHandler := by
  intro found
  let actions : List GuardAction := [.install 9 none, .install 12 (some "accelerator")]
  obtain ⟨s, hs⟩ : ∃ s, (start oneHandler).replay actions = some s := ⟨_, rfl⟩
  have hheld : s.held = [found] := by
    obtain rfl := Option.some.inj hs
    decide
  have hdrop : ∃ s', s.drop 0 = some s' ∧ s'.held = [] := by
    obtain rfl := Option.some.inj hs
    exact ⟨_, rfl, rfl⟩
  have heffects : s.effects = [] := by
    obtain rfl := Option.some.inj hs
    rfl
  obtain ⟨-, hrefused, -, hdelivered, -⟩ := guards_restore oneHandler hs
  obtain ⟨fault, hfault, -⟩ := hrefused 10 none (.inl (by rw [hheld]; exact List.cons_ne_nil _ _))
  obtain ⟨chained, hdeliver, hcalled, -⟩ :=
    hdelivered found (by rw [hheld]; exact List.mem_singleton_self _) fun path => path == "accelerator"
  obtain ⟨s', hs', hheld'⟩ := hdrop
  have hrun : (start oneHandler).replay (actions ++ [.drop 0]) = some s' := by
    unfold replay at hs ⊢
    rw [List.foldlM_append, hs]
    exact congrArg (· >>= pure) hs'
  obtain ⟨-, -, -, -, hrestored⟩ := guards_restore oneHandler hrun
  refine ⟨s, hs, hheld, ⟨fault, hfault⟩, ?_, s', hs', hheld', (hrestored hheld').1⟩
  have hchained : chained = [.call ⟨7, true⟩ 12] := hcalled ⟨7, true⟩ rfl
  change (s.deliver found.signal _).effects = _
  rw [hdeliver, hchained, heffects]
  rfl

end Guarding

end AccelKrylov
