import AccelKrylov.Pool.Settle
import AccelKrylov.Proofs.Pool.Accounts

/-! The life of a pool: it is open, then it drains, then it is over. While it drains there is one portion of
poison in the queue for each worker that is left, behind all tasks; so every worker can go on until it takes
its own, and none is left without. -/

namespace AccelKrylov

variable {ρ : Type}

theorem Worker.hasExited_iff {worker : Worker ρ} : worker.hasExited = true ↔ worker = .exited := by
  cases worker <;> simp [hasExited]

namespace Pool

variable {n : Nat} {p p' : Pool ρ} {a : PoolAction ρ} {w : Nat} {before after : Worker ρ}

/-! ### The three parts of a life -/

/-- How many workers have ended. -/
def exits (p : Pool ρ) : Nat := p.workers.countP Worker.hasExited

theorem exits_move (h : p.workers[w]? = some before) (hbefore : before.hasExited = false) :
    (p.move w after).exits = p.exits + after.hasExited.toNat := by
  obtain ⟨hw, rfl⟩ := List.getElem?_eq_some_iff.mp h
  unfold exits move
  rw [List.countP_set hw, hbefore]
  cases after.hasExited <;> simp

theorem exits_lt (h : p.workers[w]? = some before) (hbefore : before ≠ .exited) :
    p.exits < p.workers.length := by
  refine Nat.lt_of_le_of_ne List.countP_le_length fun hall => hbefore ?_
  exact Worker.hasExited_iff.mp (List.countP_eq_length.mp hall before (List.mem_of_getElem? h))

theorem exits_eq_length (h : ∀ worker ∈ p.workers, worker = .exited) : p.exits = p.workers.length :=
  List.countP_eq_length.mpr fun worker hworker => Worker.hasExited_iff.mpr (h worker hworker)

/-- What can be said of a pool of `n` workers at any time. -/
inductive Lifecycle (n : Nat) (p : Pool ρ) : Prop where
  | isOpen (waiting : List (Task ρ)) (closing : p.closing = false) (workers : p.workers.length = n)
    (queue : p.queue = waiting.map .work) (exits : p.exits = 0)
  /-- Every worker that is left will find its own poison, once no task is left. -/
  | draining (waiting : List (Task ρ)) {left : Nat} (closing : p.closing = true)
    (workers : p.workers.length = n) (positive : 0 < n) (announced : p.announced = [])
    (queue : p.queue = waiting.map .work ++ List.replicate left .poison) (exits : p.exits + left = n)
    (order : waiting = [] ∨ p.exits = 0)
  | ended (closing : p.closing = true) (workers : p.workers = []) (announced : p.announced = [])
    (queue : p.queue = [])

namespace Lifecycle

theorem ofWorkers (n : Nat) : Lifecycle n (ofWorkers n : Pool ρ) := by
  refine .isOpen [] rfl List.length_replicate rfl ?_
  rw [exits, Pool.ofWorkers, List.countP_replicate]
  rfl

/-- Only what concerns the queue and the ends of workers matters. -/
theorem keep (hl : Lifecycle n p) (closing : p'.closing = p.closing) (queue : p'.queue = p.queue)
    (announced : p'.announced = p.announced ∨ p.closing = false)
    (length : p'.workers.length = p.workers.length) (exits : p'.exits = p.exits) : Lifecycle n p' := by
  cases hl with
  | isOpen waiting hclosing hworkers hqueue hexits =>
    exact .isOpen waiting (closing.trans hclosing) (length.trans hworkers) (queue.trans hqueue)
      (exits.trans hexits)
  | draining waiting hclosing hworkers hpositive hannounced hqueue hexits horder =>
    have hsame := announced.resolve_right (by rw [hclosing]; exact Bool.noConfusion)
    refine .draining waiting (closing.trans hclosing) (length.trans hworkers) hpositive
      (hsame.trans hannounced) (queue.trans hqueue) ?_ ?_
    · rw [exits]
      exact hexits
    · rw [exits]
      exact horder
  | ended hclosing hworkers hannounced hqueue =>
    have hsame := announced.resolve_right (by rw [hclosing]; exact Bool.noConfusion)
    refine .ended (closing.trans hclosing) ?_ (hsame.trans hannounced) (queue.trans hqueue)
    rw [← List.length_eq_zero_iff, length, hworkers]
    rfl

/-- A worker that has not ended and does not end moves on. -/
theorem move (hl : Lifecycle n p) (h : p.workers[w]? = some before) (hbefore : before.hasExited = false)
    (hafter : after.hasExited = false) (closing : p'.closing = p.closing) (queue : p'.queue = p.queue)
    (announced : p'.announced = p.announced) (workers : p'.workers = (p.move w after).workers) :
    Lifecycle n p' := by
  refine hl.keep closing queue (.inl announced) ?_ ?_
  · rw [workers]
    exact List.length_set
  · change p'.workers.countP _ = _
    rw [workers]
    change (p.move w after).exits = _
    rw [exits_move h hbefore, hafter]
    rfl

theorem push {i : Nat} (hl : Lifecycle n p) (h : p.step (.push i) = some p') : Lifecycle n p' := by
  obtain ⟨task, htask, rfl⟩ := of_step_push h
  cases hl with
  | isOpen waiting hclosing hworkers hqueue hexits =>
    refine .isOpen (waiting ++ [task]) hclosing hworkers ?_ hexits
    rw [List.map_append, ← hqueue]
    rfl
  | draining _ _ _ _ hannounced | ended _ _ hannounced =>
    rw [hannounced] at htask
    cases htask

theorem pop (hl : Lifecycle n p) (h : p.step (.pop w) = some p') : Lifecycle n p' := by
  obtain ⟨hw, ⟨task, queue, hq, rfl⟩ | ⟨queue, hq, rfl⟩⟩ := of_step_pop h
  · have hlength : (p.workers.set w (.taken task)).length = p.workers.length := List.length_set
    have hexits : (p.move w (.taken task)).exits = p.exits := exits_move hw rfl
    cases hl with
    | isOpen waiting hclosing hworkers hqueue hnone =>
      obtain ⟨_, rest, rfl, -, rfl⟩ := List.map_eq_cons_iff.mp (hqueue.symm.trans hq)
      exact .isOpen rest hclosing (hlength.trans hworkers) rfl (hexits.trans hnone)
    | @draining waiting left hclosing hworkers hpositive hannounced hqueue hleft horder =>
      cases waiting with
      | nil =>
        -- there is nothing but poison
        have hmem : Job.work task ∈ List.replicate left Job.poison := by
          rw [← List.nil_append (List.replicate left _), ← List.map_nil, ← hqueue, hq]
          exact List.mem_cons_self
        cases List.eq_of_mem_replicate hmem
      | cons first rest =>
        obtain ⟨-, rfl⟩ := List.cons.inj (hq.symm.trans hqueue)
        refine .draining rest hclosing (hlength.trans hworkers) hpositive hannounced rfl ?_ (.inr ?_)
        · exact (congrArg (· + left) hexits).trans hleft
        · exact hexits.trans (horder.resolve_left nofun)
    | ended _ hworkers =>
      rw [hworkers] at hw
      cases hw
  · have hlength : (p.workers.set w .exited).length = p.workers.length := List.length_set
    have hexits : (p.move w .exited).exits = p.exits + 1 := exits_move hw rfl
    cases hl with
    | isOpen waiting hclosing hworkers hqueue hnone =>
      obtain ⟨_, _, _, hpoison, _⟩ := List.map_eq_cons_iff.mp (hqueue.symm.trans hq)
      cases hpoison
    | @draining waiting left hclosing hworkers hpositive hannounced hqueue hleft horder =>
      cases waiting with
      | nil =>
        cases left with
        | zero => cases hq.symm.trans hqueue
        | succ left =>
          obtain ⟨-, rfl⟩ := List.cons.inj (hq.symm.trans hqueue)
          refine .draining [] hclosing (hlength.trans hworkers) hpositive hannounced rfl
            ?_ (.inl rfl)
          refine (congrArg (· + left) hexits).trans ?_
          omega
      | cons first rest => cases (List.cons.inj (hq.symm.trans hqueue)).1
    | ended _ hworkers =>
      rw [hworkers] at hw
      cases hw

theorem close (hl : Lifecycle n p) (h : p.step .close = some p') : Lifecycle n p' := by
  have hne : p.workers ≠ [] := by
    intro hnone
    simp [Pool.step, hnone] at h
  obtain ⟨hclosing, hannounced, rfl⟩ := of_step_close h
  cases hl with
  | isOpen waiting _ hworkers hqueue hexits =>
    refine .draining waiting rfl hworkers ?_ hannounced (congrArg (· ++ _) hqueue) ?_ (.inr hexits)
    · rw [← hworkers]
      exact List.length_pos_iff.mpr hne
    · change p.exits + p.workers.length = n
      rw [hexits, hworkers, Nat.zero_add]
  | draining _ hdrains | ended hdrains =>
    rw [hclosing] at hdrains
    cases hdrains

/-- Workers that have all ended have left nothing in the queue. -/
theorem queue_of_exited (hl : Lifecycle n p) (hn : 0 < n) (h : ∀ worker ∈ p.workers, worker = .exited) :
    p.closing = true ∧ p.announced = [] ∧ p.queue = [] := by
  have hall := exits_eq_length h
  cases hl with
  | isOpen _ _ hworkers _ hexits => omega
  | @draining waiting left hclosing hworkers _ hannounced hqueue hexits horder =>
    have hleft : left = 0 := by omega
    have hwaiting : waiting = [] := horder.resolve_right (by omega)
    rw [hleft, hwaiting] at hqueue
    exact ⟨hclosing, hannounced, hqueue⟩
  | ended hclosing _ hannounced hqueue => exact ⟨hclosing, hannounced, hqueue⟩

theorem join (hl : Lifecycle n p) (h : p.step .join = some p') : Lifecycle n p' := by
  obtain ⟨hclosing, hexited, rfl⟩ := of_step_join h
  cases hl with
  | isOpen _ hopen =>
    rw [hclosing] at hopen
    cases hopen
  | draining waiting hdrains hworkers hpositive hannounced hqueue hexits horder =>
    have hl : Lifecycle n p := .draining waiting hdrains hworkers hpositive hannounced hqueue hexits horder
    exact .ended hdrains rfl hannounced (hl.queue_of_exited hpositive hexited).2.2
  | ended hdrains _ hannounced hqueue => exact .ended hdrains rfl hannounced hqueue

theorem step (hl : Lifecycle n p) (h : p.step a = some p') : Lifecycle n p' := by
  cases a with
  | number =>
    obtain rfl := Option.some.inj h
    exact hl.keep rfl rfl (.inl rfl) rfl rfl
  | announce task =>
    obtain ⟨-, hclosing, rfl⟩ := of_step_announce h
    exact hl.keep rfl rfl (.inr hclosing) rfl rfl
  | push i => exact hl.push h
  | pop w => exact hl.pop h
  | run w crashes =>
    obtain ⟨task, hw, rfl⟩ := of_step_run h
    exact hl.move hw rfl (by cases crashes <;> rfl) rfl rfl rfl rfl
  | noteCrash w =>
    obtain ⟨task, hw, rfl⟩ := of_step_noteCrash h
    exact hl.move hw rfl rfl rfl rfl rfl rfl
  | complete w =>
    obtain ⟨task, hw, rfl⟩ := of_step_complete h
    exact hl.move hw rfl rfl rfl rfl rfl rfl
  | retire w =>
    obtain ⟨task, hw, rfl⟩ := of_step_retire h
    exact hl.move hw rfl rfl rfl rfl rfl rfl
  | close => exact hl.close h
  | join => exact hl.join h

theorem replay {actions : List (PoolAction ρ)} (hl : Lifecycle n p) (h : p.replay actions = some p') :
    Lifecycle n p' := by
  induction actions generalizing p with
  | nil =>
    obtain rfl := Option.some.inj h
    exact hl
  | cons a actions ih =>
    obtain ⟨next, hnext, hrest⟩ := Option.bind_eq_some_iff.mp h
    exact ih (hl.step hnext) hrest

/-- Poison comes to the front of the queue when there are no more tasks behind it. -/
theorem no_tasks_behind_poison (hl : Lifecycle n p) (h : p.queue.head? = some .poison) :
    p.announced = [] ∧ tasks p.queue = [] := by
  cases hl with
  | isOpen waiting _ _ hqueue =>
    rw [hqueue] at h
    cases waiting <;> cases h
  | @draining waiting left _ _ _ hannounced hqueue =>
    cases waiting with
    | nil =>
      rw [hqueue]
      exact ⟨hannounced, Balanced.tasks_poison left⟩
    | cons first rest =>
      rw [hqueue] at h
      cases h
  | ended _ _ _ hqueue =>
    rw [hqueue] at h
    cases h

/-- While a pool drains, a worker without a task finds something in the queue. -/
theorem queue_ne_nil (hl : Lifecycle n p) (hclosing : p.closing = true)
    (hw : p.workers[w]? = some .polling) : p.queue ≠ [] := by
  cases hl with
  | isOpen _ hopen =>
    rw [hclosing] at hopen
    cases hopen
  | @draining waiting left _ hworkers _ _ hqueue hexits =>
    have hlt := exits_lt hw nofun
    rw [hqueue, ne_eq, List.append_eq_nil_iff, List.replicate_eq_nil_iff]
    omega
  | ended _ hworkers =>
    rw [hworkers] at hw
    cases hw

end Lifecycle

/-! ### Going on -/

/-- What a worker is to do next is possible. -/
theorem step_of_next {b : Behaviour ρ} (hw : p.workers[w]? = some before)
    (h : before.next? b p.queue w = some a) : a.worker? = some w ∧ ∃ p', p.step a = some p' := by
  cases before with
  | polling =>
    rw [Worker.next?] at h
    split at h
    · cases h
    next hqueue =>
      obtain rfl := Option.some.inj h
      refine ⟨rfl, ?_⟩
      cases hq : p.queue with
      | nil => simp [hq] at hqueue
      | cons job queue => cases job <;> simp [step, hw, hq]
  | taken task =>
    rw [Worker.next?] at h
    split at h
    · obtain rfl := Option.some.inj h
      simp [step, hw, PoolAction.worker?]
    · cases h
  | crashed task | returned task | completed task =>
    obtain rfl := Option.some.inj h
    simp [step, hw, PoolAction.worker?]
  | exited => cases h

theorem next_of_ready {b : Behaviour ρ} {queue : List (Job ρ)} (hready : ∀ r, b.ready r = true)
    (hne : before ≠ .exited) (hqueue : before = .polling → queue ≠ []) :
    ∃ a, before.next? b queue w = some a := by
  cases before with
  | polling => simp [Worker.next?, hqueue rfl]
  | taken task => simp [Worker.next?, hready]
  | crashed task | returned task | completed task => exact ⟨_, rfl⟩
  | exited => exact absurd rfl hne

/-- While a pool drains, no worker is held up before it has ended. -/
theorem Lifecycle.can_go_on (hl : Lifecycle n p) (hclosing : p.closing = true)
    (hw : p.workers[w]? = some before) (hne : before ≠ .exited) :
    ∃ a p', a.worker? = some w ∧ p.step a = some p' := by
  have hqueue (hpolling : before = .polling) : p.queue ≠ [] :=
    hl.queue_ne_nil hclosing (hpolling ▸ hw)
  obtain ⟨a, ha⟩ := next_of_ready (b := .calm) (w := w) (fun _ => rfl) hne hqueue
  obtain ⟨hworker, p', hstep⟩ := step_of_next hw ha
  exact ⟨a, p', hworker, hstep⟩

theorem total_set (workers : List (Worker ρ)) (after : Worker ρ) (h : workers[w]? = some before) :
    ((workers.set w after).map Worker.remaining).foldr (· + ·) 0 + before.remaining =
      (workers.map Worker.remaining).foldr (· + ·) 0 + after.remaining := by
  induction workers generalizing w with
  | nil => cases h
  | cons worker workers ih =>
    cases w with
    | zero =>
      obtain rfl := Option.some.inj h
      simp only [List.set_cons_zero, List.map_cons, List.foldr_cons]
      omega
    | succ w =>
      have := ih h
      simp only [List.set_cons_succ, List.map_cons, List.foldr_cons]
      omega

/-- Whatever a worker does brings it nearer to the end of the work. -/
theorem remaining_lt (h : p.step a = some p') (ha : a.worker? = some w) : p'.remaining < p.remaining := by
  unfold remaining
  cases a with
  | number | announce _ | push _ | close | join => cases ha
  | pop v =>
    obtain rfl := Option.some.inj ha
    obtain ⟨hw, ⟨task, queue, hq, rfl⟩ | ⟨queue, hq, rfl⟩⟩ := of_step_pop h
    · have := total_set p.workers (.taken task) hw
      simp only [move, Worker.remaining, hq, List.length_cons] at this ⊢
      omega
    · have := total_set p.workers .exited hw
      simp only [move, Worker.remaining, hq, List.length_cons] at this ⊢
      omega
  | run v crashes =>
    obtain rfl := Option.some.inj ha
    obtain ⟨task, hw, rfl⟩ := of_step_run h
    have := total_set p.workers (if crashes then .crashed task else .returned task) hw
    cases crashes <;> simp [move, Worker.remaining] at this ⊢ <;> omega
  | noteCrash v =>
    obtain rfl := Option.some.inj ha
    obtain ⟨task, hw, rfl⟩ := of_step_noteCrash h
    have := total_set p.workers (.returned task) hw
    simp only [move, Worker.remaining] at this ⊢
    omega
  | complete v =>
    obtain rfl := Option.some.inj ha
    obtain ⟨task, hw, rfl⟩ := of_step_complete h
    have := total_set p.workers (.completed task) hw
    simp only [move, Worker.remaining] at this ⊢
    omega
  | retire v =>
    obtain rfl := Option.some.inj ha
    obtain ⟨task, hw, rfl⟩ := of_step_retire h
    have := total_set p.workers .polling hw
    simp only [move, Worker.remaining] at this ⊢
    omega

theorem Lifecycle.announced_of_closing (hl : Lifecycle n p) (hclosing : p.closing = true) :
    p.announced = [] := by
  cases hl with
  | isOpen _ hopen =>
    rw [hclosing] at hopen
    cases hopen
  | draining _ _ _ _ hannounced | ended _ _ hannounced => exact hannounced

/-- Nothing adds to the work of a pool that drains. -/
theorem Lifecycle.remaining_le (hl : Lifecycle n p) (hclosing : p.closing = true)
    (h : p.step a = some p') : p'.closing = true ∧ p'.remaining ≤ p.remaining := by
  have own {w : Nat} (ha : a.worker? = some w) : p'.remaining ≤ p.remaining :=
    Nat.le_of_lt (remaining_lt h ha)
  cases a with
  | number =>
    obtain rfl := Option.some.inj h
    exact ⟨hclosing, Nat.le_refl _⟩
  | announce task =>
    have hopen := (of_step_announce h).2.1
    rw [hclosing] at hopen
    cases hopen
  | push i =>
    obtain ⟨task, htask, -⟩ := of_step_push h
    rw [hl.announced_of_closing hclosing] at htask
    cases htask
  | pop w =>
    refine ⟨?_, own rfl⟩
    obtain ⟨-, ⟨task, queue, -, rfl⟩ | ⟨queue, -, rfl⟩⟩ := of_step_pop h
    · exact hclosing
    · exact hclosing
  | run w crashes =>
    refine ⟨?_, own rfl⟩
    obtain ⟨task, -, rfl⟩ := of_step_run h
    exact hclosing
  | noteCrash w =>
    refine ⟨?_, own rfl⟩
    obtain ⟨task, -, rfl⟩ := of_step_noteCrash h
    exact hclosing
  | complete w =>
    refine ⟨?_, own rfl⟩
    obtain ⟨task, -, rfl⟩ := of_step_complete h
    exact hclosing
  | retire w =>
    refine ⟨?_, own rfl⟩
    obtain ⟨task, -, rfl⟩ := of_step_retire h
    exact hclosing
  | close =>
    have hopen := (of_step_close h).1
    rw [hclosing] at hopen
    cases hopen
  | join =>
    obtain ⟨-, -, rfl⟩ := of_step_join h
    exact ⟨hclosing, Nat.le_add_right ..⟩

/-- A pool that drains does so to its end, and its workers act no more often than there is work. -/
theorem Lifecycle.replay_remaining {later : List (PoolAction ρ)} (hl : Lifecycle n p)
    (hclosing : p.closing = true) (h : p.replay later = some p') :
    p'.closing = true ∧ (later.filter (·.worker?.isSome)).length + p'.remaining ≤ p.remaining := by
  induction later generalizing p with
  | nil =>
    obtain rfl := Option.some.inj h
    exact ⟨hclosing, by simp⟩
  | cons a later ih =>
    obtain ⟨next, hnext, hrest⟩ := Option.bind_eq_some_iff.mp h
    obtain ⟨hstill, hle⟩ := hl.remaining_le hclosing hnext
    obtain ⟨hend, hlater⟩ := ih (hl.step hnext) hstill hrest
    refine ⟨hend, ?_⟩
    cases ha : a.worker? with
    | none =>
      rw [List.filter_cons, ha]
      exact Nat.le_trans hlater hle
    | some w =>
      have hlt := remaining_lt hnext ha
      rw [List.filter_cons, ha]
      change (_ + 1) + p'.remaining ≤ p.remaining
      omega

/-! ### Portions of poison -/

/-- With this action worker `w` takes poison from the queue. -/
def takesPoison (p : Pool ρ) (w : Nat) : PoolAction ρ → Bool
  | .pop v => v == w && (p.queue.head?.map Job.isPoison).getD false
  | _ => false

theorem head_of_takesPoison (h : p.takesPoison w a = true) : p.queue.head? = some .poison := by
  cases a with
  | pop v =>
    rw [takesPoison, Bool.and_eq_true] at h
    cases hq : p.queue.head? with
    | none => simp [hq] at h
    | some job =>
      cases job with
      | work task => simp [hq, Job.isPoison] at h
      | poison => rfl
  | _ => cases h

/-- How many portions of poison worker `w` takes in the course of some actions. -/
def poisonTaken (w : Nat) : Pool ρ → List (PoolAction ρ) → Nat
  | _, [] => 0
  | p, a :: actions => (p.takesPoison w a).toNat + match p.step a with
    | some p' => poisonTaken w p' actions
    | none => 0

/-- Worker `w` has ended, or has been given up after that. -/
def lacks (p : Pool ρ) (w : Nat) : Bool := (p.workers[w]?.map Worker.hasExited).getD true

theorem lacks_move {v : Nat} (h : p.workers[v]? = some before) :
    (p.move v after).lacks w = if v = w then after.hasExited else p.lacks w := by
  obtain ⟨hv, -⟩ := List.getElem?_eq_some_iff.mp h
  unfold lacks move
  split
  next heq =>
    subst heq
    rw [List.getElem?_set_self hv]
    rfl
  next hne => rw [List.getElem?_set_ne hne]

theorem lacks_move_keep {v : Nat} (h : p.workers[v]? = some before)
    (hsame : after.hasExited = before.hasExited) : (p.move v after).lacks w = p.lacks w := by
  rw [lacks_move h]
  split
  next heq =>
    subst heq
    rw [lacks, h, hsame]
    rfl
  · rfl

theorem lacks_of_exited (h : ∀ worker ∈ p.workers, worker = .exited) : p.lacks w = true := by
  unfold lacks
  cases hw : p.workers[w]? with
  | none => rfl
  | some worker =>
    rw [h worker (List.mem_of_getElem? hw)]
    rfl

/-- A worker ends with the poison that it takes. -/
theorem lacks_step (h : p.step a = some p') :
    (p.takesPoison w a).toNat + (p.lacks w).toNat = (p'.lacks w).toNat := by
  have keep {p' : Pool ρ} (ha : p.takesPoison w a = false) (hsame : p'.lacks w = p.lacks w) :
      (p.takesPoison w a).toNat + (p.lacks w).toNat = (p'.lacks w).toNat := by
    rw [ha, hsame]
    exact Nat.zero_add _
  cases a with
  | number =>
    obtain rfl := Option.some.inj h
    exact keep rfl rfl
  | announce task =>
    obtain ⟨-, -, rfl⟩ := of_step_announce h
    exact keep rfl rfl
  | push i =>
    obtain ⟨task, -, rfl⟩ := of_step_push h
    exact keep rfl rfl
  | pop v =>
    obtain ⟨hv, ⟨task, queue, hq, rfl⟩ | ⟨queue, hq, rfl⟩⟩ := of_step_pop h
    · refine keep ?_ (lacks_move_keep hv rfl)
      simp [takesPoison, hq, Job.isPoison]
    · have htakes : p.takesPoison w (.pop v) = (v == w) := by simp [takesPoison, hq, Job.isPoison]
      change _ = ((p.move v .exited).lacks w).toNat
      rw [htakes, lacks_move hv]
      by_cases heq : v = w
      · subst heq
        simp [lacks, hv, Worker.hasExited]
      · simp [heq]
  | run v crashes =>
    obtain ⟨task, hv, rfl⟩ := of_step_run h
    exact keep rfl (lacks_move_keep hv (by cases crashes <;> rfl))
  | noteCrash v =>
    obtain ⟨task, hv, rfl⟩ := of_step_noteCrash h
    exact keep rfl (lacks_move_keep hv rfl)
  | complete v =>
    obtain ⟨task, hv, rfl⟩ := of_step_complete h
    exact keep rfl (lacks_move_keep hv rfl)
  | retire v =>
    obtain ⟨task, hv, rfl⟩ := of_step_retire h
    exact keep rfl (lacks_move_keep hv rfl)
  | close =>
    obtain ⟨-, -, rfl⟩ := of_step_close h
    exact keep rfl rfl
  | join =>
    obtain ⟨-, hexited, rfl⟩ := of_step_join h
    exact keep rfl (lacks_of_exited hexited).symm

theorem lacks_replay {actions : List (PoolAction ρ)} (h : p.replay actions = some p') :
    poisonTaken w p actions + (p.lacks w).toNat = (p'.lacks w).toNat := by
  induction actions generalizing p with
  | nil =>
    obtain rfl := Option.some.inj h
    exact Nat.zero_add _
  | cons a actions ih =>
    obtain ⟨next, hnext, hrest⟩ := Option.bind_eq_some_iff.mp h
    have hone := lacks_step (w := w) hnext
    have hmore := ih hrest
    rw [poisonTaken, hnext]
    dsimp only
    omega

/-- A worker takes one portion of poison, and none before it ends. -/
theorem poisonTaken_eq {actions : List (PoolAction ρ)} (hw : w < n)
    (h : (Pool.ofWorkers n).replay actions = some p) :
    poisonTaken w (Pool.ofWorkers n) actions = (p.lacks w).toNat := by
  have hstart : (Pool.ofWorkers n : Pool ρ).lacks w = false := by
    simp [lacks, Pool.ofWorkers, hw, Worker.hasExited]
  have hall := lacks_replay (w := w) h
  rwa [hstart] at hall

end Pool

end AccelKrylov
