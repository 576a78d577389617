import AccelKrylov.Signal.Reclaim

/-! Which slots handlers work with. A handler that has found a slot is counted, and the wait of a guard that is
dropped does not end while one is, so that a slot is not freed behind such a wait as long as a handler holds
it. The slot of a guard that could not be installed is freed without a wait, and a late handler can hold it. -/

namespace AccelKrylov

namespace Reclamation

variable {r r' : Reclamation} {i s n : Nat} {o : Ownership}

/-! ### Owners -/

/-- The step of an owner moves that owner and no other one. -/
theorem owners_own {step : OwnerStep} {t : Nat} (hbefore : r.owners[s]? = some step.before)
    (ho : r.owners[t]? = some o) :
    (r.own s step).owners[t]? = some o ∨
      t = s ∧ o = step.before ∧ (r.own s step).owners[t]? = some step.after := by
  by_cases hts : s = t
  · subst hts
    obtain ⟨hlt, -⟩ := List.getElem?_eq_some_iff.mp ho
    exact .inr ⟨rfl, Option.some.inj (ho.symm.trans hbefore), List.getElem?_set_self hlt⟩
  · exact .inl ((List.getElem?_set_ne hts).trans ho)

/-- One of the first `n` slots had its handler set. -/
def SetBy (r : Reclamation) (n : Nat) : Prop :=
  ∃ s < n, ∃ o, r.owners[s]? = some o ∧ o.wasSet = true

namespace SetBy

theorem mono {m : Nat} (h : r.SetBy n) (hle : n ≤ m) : r.SetBy m := by
  obtain ⟨s, hs, hset⟩ := h
  exact ⟨s, Nat.lt_of_lt_of_le hs hle, hset⟩

theorem congr (h : r.SetBy n) (howners : ∀ (s : Nat) o, r.owners[s]? = some o → r'.owners[s]? = some o) :
    r'.SetBy n := by
  obtain ⟨s, hs, o, ho, hset⟩ := h
  exact ⟨s, hs, o, howners s o ho, hset⟩

theorem own {step : OwnerStep} (h : r.SetBy n) (hbefore : r.owners[s]? = some step.before) :
    (r.own s step).SetBy n := by
  obtain ⟨t, ht, o, ho, hset⟩ := h
  obtain hsame | ⟨-, rfl, hmoved⟩ := owners_own hbefore ho
  · exact ⟨t, ht, o, hsame, hset⟩
  · refine ⟨t, ht, step.after, hmoved, ?_⟩
    cases step with
    | restore | clear | observe | free => rfl
    | install | refuse | withdraw | discard => cases hset

end SetBy

/-! ### Handlers -/

section
variable {invocations : List Invocation} {invocation next : Invocation} {j : Nat}

theorem holding_of_append (h : (invocations ++ [.delivered])[j]? = some (.holding s)) :
    invocations[j]? = some (.holding s) := by
  by_cases hj : j < invocations.length
  · rwa [List.getElem?_append_left hj] at h
  · rw [List.getElem?_append_right (by omega)] at h
    have hmem := List.mem_singleton.mp (List.mem_of_getElem? h)
    cases hmem

theorem holding_of_set (h : (invocations.set i next)[j]? = some (.holding s)) :
    invocations[j]? = some (.holding s) ∨ next = .holding s := by
  rw [List.getElem?_set] at h
  split at h
  · split at h
    · exact .inr (Option.some.inj h)
    · cases h
  · exact .inl h

/-- What one invocation adds to the count by moving on. -/
theorem countP_set_isCounted (h : invocations[i]? = some invocation) (next : Invocation) :
    (invocations.set i next).countP Invocation.isCounted + invocation.isCounted.toNat =
      invocations.countP Invocation.isCounted + next.isCounted.toNat := by
  obtain ⟨hi, rfl⟩ := List.getElem?_eq_some_iff.mp h
  have hpos : invocations[i].isCounted = true → 0 < invocations.countP Invocation.isCounted :=
    fun hcounted => List.countP_pos_iff.mpr ⟨_, List.getElem_mem hi, hcounted⟩
  rw [List.countP_set hi]
  cases hold : invocations[i].isCounted <;> cases hnew : next.isCounted <;> grind

end

/-! ### What holds in every interleaving -/

structure Sound (r : Reclamation) : Prop where
  /-- The slot in place is the last one made. -/
  placed : ∀ s ∈ r.active, s + 1 = r.owners.length ∧
    ∃ o, r.owners[s]? = some o ∧ o.isPlaced = true
  counted : r.running = r.invocations.countP Invocation.isCounted
  /-- The wait for a slot that is held has not come to its end. -/
  held : ∀ i s : Nat, r.invocations[i]? = some (.holding s) →
    ∃ o, r.owners[s]? = some o ∧ o ≠ .quiet ∧ o ≠ .freed
  /-- Signals arrive when there has been a handler. -/
  delivered : r.invocations ≠ [] → r.SetBy r.owners.length
  earlier : ∀ i s : Nat, r.invocations[i]? = some (.holding s) → r.SetBy (s + 1)

namespace Sound

theorem initial : Sound {} := ⟨nofun, rfl, nofun, fun h => absurd rfl h, nofun⟩

theorem publish (hr : Sound r) (h : r.step .publish = some r') : Sound r' := by
  obtain ⟨-, hr'⟩ := Option.ite_none_right_eq_some.mp h
  obtain rfl := Option.some.inj hr'
  have hkeep (s : Nat) (o : Ownership) (ho : r.owners[s]? = some o) :
      (r.owners ++ [.published])[s]? = some o := by
    rw [List.getElem?_append_left (List.getElem?_eq_some_iff.mp ho).1]
    exact ho
  have hlength : (r.owners ++ [Ownership.published]).length = r.owners.length + 1 :=
    List.length_append
  refine ⟨fun s hs => ?_, hr.counted, fun i s hi => ?_, fun hne => ?_, fun i s hi => ?_⟩
  · obtain rfl := Option.some.inj hs
    exact ⟨hlength.symm, .published, List.getElem?_concat_length, rfl⟩
  · obtain ⟨o, ho, hlive⟩ := hr.held i s hi
    exact ⟨o, hkeep s o ho, hlive⟩
  · exact ((hr.delivered hne).congr hkeep).mono (hlength ▸ Nat.le_succ _)
  · exact (hr.earlier i s hi).congr hkeep

/-- Where no handler is counted, none holds a slot. -/
theorem not_holding (hr : Sound r) (hrunning : r.running = 0) :
    r.invocations[i]? ≠ some (.holding s) := by
  intro hi
  have hnone := List.countP_eq_zero.mp (hr.counted.symm.trans hrunning)
  exact hnone _ (List.mem_of_getElem? hi) rfl

theorem own {step : OwnerStep} (hr : Sound r) (h : r.step (.own s step) = some r') : Sound r' := by
  obtain ⟨hbefore, hrunning, rfl⟩ := of_step_own h
  have hlength : (r.own s step).owners.length = r.owners.length := List.length_set
  refine ⟨fun t ht => ?_, hr.counted, fun i t hi => ?_, fun hne => ?_, fun i t hi => ?_⟩
  · rw [hlength]
    unfold Reclamation.own at ht
    cases hempties : step.empties with
    | true =>
      simp only [hempties, if_true] at ht
      cases ht
    | false =>
      simp only [hempties, Bool.false_eq_true, if_false] at ht
      obtain ⟨hlast, o, ho, hplaced⟩ := hr.placed t ht
      refine ⟨hlast, ?_⟩
      obtain hsame | ⟨-, rfl, hmoved⟩ := owners_own hbefore ho
      · exact ⟨o, hsame, hplaced⟩
      · refine ⟨_, hmoved, ?_⟩
        cases step with
        | install | restore | refuse => rfl
        | clear | withdraw => cases hempties
        | observe | free | discard => cases hplaced
  · obtain ⟨o, ho, hquiet, hfreed⟩ := hr.held i t hi
    obtain hsame | ⟨-, rfl, hmoved⟩ := owners_own hbefore ho
    · exact ⟨o, hsame, hquiet, hfreed⟩
    · refine ⟨_, hmoved, ?_⟩
      cases step with
      | observe => exact absurd hi (hr.not_holding (hrunning rfl))
      | free => exact absurd rfl hquiet
      | install | restore | clear | refuse | withdraw | discard => exact ⟨nofun, nofun⟩
  · rw [hlength]
    exact (hr.delivered hne).own hbefore
  · exact (hr.earlier i t hi).own hbefore

theorem deliver (hr : Sound r) (h : r.step .deliver = some r') : Sound r' := by
  obtain ⟨hset, hr'⟩ := Option.ite_none_right_eq_some.mp h
  obtain rfl := Option.some.inj hr'
  refine ⟨hr.placed, ?_, fun i s hi => ?_, fun _ => ?_, fun i s hi => ?_⟩
  · rw [List.countP_append, List.countP_singleton]
    exact hr.counted
  · exact hr.held i s (holding_of_append hi)
  · obtain ⟨s, hlt, hs⟩ := List.getElem_of_mem hset
    exact ⟨s, hlt, .installed, List.getElem?_eq_some_iff.mpr ⟨hlt, hs⟩, rfl⟩
  · exact hr.earlier i s (holding_of_append hi)

theorem count (hr : Sound r) (h : r.step (.count i) = some r') : Sound r' := by
  obtain ⟨hi, hr'⟩ := Option.ite_none_right_eq_some.mp h
  obtain rfl := Option.some.inj hr'
  have hold {j s : Nat} (hj : (r.invocations.set i .counted)[j]? = some (.holding s)) :
      r.invocations[j]? = some (.holding s) :=
    (holding_of_set hj).resolve_right nofun
  refine ⟨hr.placed, ?_, fun j s hj => hr.held j s (hold hj), fun _ => ?_,
    fun j s hj => hr.earlier j s (hold hj)⟩
  · exact (congrArg (· + 1) hr.counted).trans (countP_set_isCounted hi .counted).symm
  · exact hr.delivered (List.ne_nil_of_mem (List.mem_of_getElem? hi))

/-- A handler finds the slot in place, whose owner has not taken it back. -/
theorem load (hr : Sound r) (h : r.step (.load i) = some r') : Sound r' := by
  obtain ⟨hi, hr'⟩ := Option.ite_none_right_eq_some.mp h
  obtain rfl := Option.some.inj hr'
  have hne : r.invocations ≠ [] := List.ne_nil_of_mem (List.mem_of_getElem? hi)
  have hfound {j s : Nat} (hj : (r.invocations.set i
      ((r.active.map Invocation.holding).getD .idle))[j]? = some (.holding s)) :
      r.invocations[j]? = some (.holding s) ∨ s ∈ r.active := by
    refine (holding_of_set hj).imp_right fun hs => ?_
    cases hactive : r.active with
    | none => rw [hactive] at hs; cases hs
    | some t => rw [hactive] at hs; exact congrArg some (Invocation.holding.inj hs)
  refine ⟨hr.placed, ?_, fun j s hj => ?_, fun _ => hr.delivered hne, fun j s hj => ?_⟩
  · have hnext : ((r.active.map Invocation.holding).getD .idle).isCounted = true := by
      cases r.active <;> rfl
    have hcount := countP_set_isCounted hi ((r.active.map Invocation.holding).getD .idle)
    rw [hnext] at hcount
    exact hr.counted.trans (Nat.add_right_cancel hcount).symm
  · rcases hfound hj with hold | hs
    · exact hr.held j s hold
    · obtain ⟨-, o, ho, hplaced⟩ := hr.placed s hs
      refine ⟨o, ho, ?_, ?_⟩ <;> rintro rfl <;> cases hplaced
  · rcases hfound hj with hold | hs
    · exact hr.earlier j s hold
    · obtain ⟨hlast, -⟩ := hr.placed s hs
      rw [hlast]
      exact hr.delivered hne

theorem uncount (hr : Sound r) (h : r.step (.uncount i) = some r') : Sound r' := by
  obtain ⟨invocation, hi, hcounted, rfl⟩ := of_step_uncount h
  have hold {j s : Nat} (hj : (r.invocations.set i .finished)[j]? = some (.holding s)) :
      r.invocations[j]? = some (.holding s) :=
    (holding_of_set hj).resolve_right nofun
  refine ⟨hr.placed, ?_, fun j s hj => hr.held j s (hold hj), fun _ => ?_,
    fun j s hj => hr.earlier j s (hold hj)⟩
  · have hcount := countP_set_isCounted hi .finished
    rw [hcounted, ← hr.counted] at hcount
    exact Nat.sub_eq_of_eq_add hcount.symm
  · exact hr.delivered (List.ne_nil_of_mem (List.mem_of_getElem? hi))

theorem step {action : ReclamationAction} (hr : Sound r) (h : r.step action = some r') : Sound r' := by
  cases action with
  | publish => exact hr.publish h
  | own s step => exact hr.own h
  | deliver => exact hr.deliver h
  | count i => exact hr.count h
  | load i => exact hr.load h
  | uncount i => exact hr.uncount h

theorem replay {actions : List ReclamationAction} (hr : Sound r) (h : r.replay actions = some r') :
    Sound r' := by
  induction actions generalizing r with
  | nil =>
    obtain rfl := Option.some.inj h
    exact hr
  | cons action actions ih =>
    obtain ⟨next, hnext, hrest⟩ := Option.bind_eq_some_iff.mp h
    exact ih (hr.step hnext) hrest

end Sound

/-- In every interleaving, a handler that holds a slot holds one that was not freed, unless it is the slot of
a guard whose handler the system has refused, and some guard before it was installed. -/
theorem held_slots (h : r.Reachable) (hi : r.invocations[i]? = some (.holding s)) :
    ∃ o, r.owners[s]? = some o ∧ (o.isFreed = true → o = .discarded ∧ r.SetBy s) := by
  obtain ⟨actions, hactions⟩ := h
  have hr : Sound r := Sound.initial.replay hactions
  obtain ⟨o, ho, -, hfreed⟩ := hr.held i s hi
  refine ⟨o, ho, fun hisFreed => ?_⟩
  have hdiscarded : o = .discarded := by
    cases o with
    | freed => exact absurd rfl hfreed
    | discarded => rfl
    | _ => cases hisFreed
  obtain ⟨t, ht, o', ho', hset⟩ := hr.earlier i s hi
  have hne : t ≠ s := by
    rintro rfl
    obtain rfl := Option.some.inj (ho'.symm.trans ho)
    rw [hdiscarded] at hset
    cases hset
  exact ⟨hdiscarded, t, by omega, o', ho', hset⟩

/-- A handler works with the slot of a guard that is being dropped, which waits for it. -/
theorem held_slots_waiting :
    let r : Reclamation := ⟨[.cleared], [.holding 0], none, 1⟩
    r.Reachable ∧ r.invocations[0]? = some (.holding 0) ∧ r.step (.own 0 .observe) = none ∧
      ∃ o, r.owners[0]? = some o ∧ (o.isFreed = true → o = .discarded ∧ r.SetBy 0) := by
  intro r
  have hr : r.Reachable := ⟨[.publish, .own 0 .install, .deliver, .count 0, .load 0, .own 0 .restore,
    .own 0 .clear], by decide⟩
  exact ⟨hr, rfl, by decide, held_slots hr (i := 0) rfl⟩

/-- A handler that was delivered to a first guard comes too late for it and finds the slot of a second one,
which is freed when its handler is refused. -/
theorem held_slot_discarded :
    ∃ r : Reclamation, r.Reachable ∧ r.invocations[0]? = some (.holding 1) ∧
      ∃ o, r.owners[1]? = some o ∧ o.isFreed = true :=
  ⟨⟨[.freed, .discarded], [.holding 1], none, 1⟩,
    ⟨[.publish, .own 0 .install, .deliver, .own 0 .restore, .own 0 .clear, .own 0 .observe, .own 0 .free,
      .publish, .count 0, .load 0, .own 1 .refuse, .own 1 .withdraw, .own 1 .discard], by decide⟩,
    rfl, .discarded, rfl, rfl⟩

end Reclamation

end AccelKrylov
