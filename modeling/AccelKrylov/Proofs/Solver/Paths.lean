import AccelKrylov.Proofs.Solver.Turns

/-! The steps on which a solve comes to its solution, whatever arithmetic it is carried out in. -/

namespace AccelKrylov

variable {σ α : Type} [Zero α] [Add α] [Mul α] [Div α] [Neg α] [Numeric α]

/-- Where some steps lead from a vector. Steps are given by their lengths and directions. -/
def Vec.travel (x : Array α) (path : List (α × Array α)) : Array α :=
  path.foldl (fun x step => addScaled step.1 step.2 x) x

/-- The residual of a solution is the length of a vector, and has been compared with a threshold. -/
def Solution.Accepted (threshold : α) (s : Solution α) : Prop :=
  (∃ r, s.residual = Vec.norm r) ∧ Numeric.le s.residual threshold = true

/-- A solution is where some steps lead from the zero vector, one in each iteration. There are none only for a
right-hand side without length, and at the end of the last one the residual has been accepted. -/
structure Solution.FoundBy (b : Array α) (tolerance : α) (path : List (α × Array α)) (s : Solution α) :
    Prop where
  x : s.x = Vec.travel (Vec.zeros b.size) path
  sizes : ∀ step ∈ path, step.2.size = b.size
  iterations : s.iterations.toNat = path.length
  unmoved : path = [] ↔ Numeric.same (Vec.norm b) 0 = true
  zero : path = [] → s = .zero b.size
  accepted : path ≠ [] → s.Accepted (tolerance * Vec.norm b)

/-- A solution is where some steps lead from a vector `x`, one in each iteration behind those that are done. Their
directions have `n` entries. -/
structure Solution.EndOf (x : Array α) (n done : Nat) (threshold : α) (steps : List (α × Array α))
    (s : Solution α) : Prop where
  x : s.x = Vec.travel x steps
  sizes : ∀ step ∈ steps, step.2.size = n
  iterations : s.iterations.toNat = done + steps.length
  moved : steps ≠ []
  accepted : s.Accepted threshold

namespace Solution

omit [Div α] [Neg α]

variable {b x : Array α} {tolerance threshold : α} {n done : Nat} {step : α × Array α}
  {steps : List (α × Array α)} {s : Solution α}

theorem foundBy_nil (tolerance : α) (hb : Numeric.same (Vec.norm b) 0 = true) :
    (zero b.size).FoundBy b tolerance [] :=
  ⟨rfl, nofun, rfl, by simp [hb], fun _ => rfl, nofun⟩

theorem EndOf.cons (h : s.EndOf (Vec.travel x [step]) n (done + 1) threshold steps) (hstep : step.2.size = n) :
    s.EndOf x n done threshold (step :: steps) where
  x := h.x
  sizes := List.forall_mem_cons.mpr ⟨hstep, h.sizes⟩
  iterations := by rw [h.iterations, List.length_cons, Nat.add_right_comm, Nat.add_assoc]
  moved := nofun
  accepted := h.accepted

theorem EndOf.foundBy (h : s.EndOf (Vec.zeros b.size) b.size 0 (tolerance * Vec.norm b) steps)
    (hb : ¬Numeric.same (Vec.norm b) 0 = true) : s.FoundBy b tolerance steps where
  x := h.x
  sizes := h.sizes
  iterations := by rw [h.iterations, Nat.zero_add]
  unmoved := by simp [h.moved, hb]
  zero hsteps := absurd hsteps h.moved
  accepted _ := h.accepted

end Solution

/-! ### Turns -/

namespace Turn

variable {S : Type}

/-- The steps of a run, one for each turn that leads to another one or to a solution. A turn takes a step if its
products have results. -/
def steps (turn : Turn σ S α) (step : S → σ → Option (α × Array α)) (limit : Word) :
    (left : Nat) → S → σ → List (α × Array α)
  | 0, _, _ => []
  | left + 1, s, w => match turn (limit - UInt64.ofNat left) s w with
    | (.done (.ok _), _) => (step s w).toList
    | (.done (.error _), _) => []
    | (.next s', w') => (step s w).toList ++ steps turn step limit left s' w'

/-- The steps of a solve. -/
def path (turn : Turn σ S α) (step : S → σ → Option (α × Array α)) (limit : Word) (first : S) (b : Array α)
    (w : σ) : List (α × Array α) :=
  if Numeric.same (Vec.norm b) 0 then [] else turn.steps step limit limit.toNat first w

/-- What a turn comes to in a state: it fails, or the step that it takes leads from the iterate there to a solution
that speaks of the turn and has been accepted, or to the next iterate. -/
inductive Traveled (position : S → Array α) (n : Nat) (keeps : S → Prop) (threshold : α) (iteration : Word)
    (s : S) (step : Option (α × Array α)) : Iteration S α → Prop
  | failed (e : SolveError α) : Traveled position n keeps threshold iteration s step (.done (.error e))
  | solved {taken : α × Array α} {x : Array α} {residual : α} (takes : step = some taken)
      (size : taken.2.size = n) (leads : x = Vec.travel (position s) [taken])
      (accepted : Solution.Accepted threshold ⟨x, iteration, residual⟩) :
      Traveled position n keeps threshold iteration s step (.done (.ok ⟨x, iteration, residual⟩))
  | next {taken : α × Array α} {s' : S} (takes : step = some taken) (size : taken.2.size = n)
      (leads : position s' = Vec.travel (position s) [taken]) (kept : keeps s') :
      Traveled position n keeps threshold iteration s step (.next s')

/-- Turns that travel from every state that they come to. -/
def Travels (turn : Turn σ S α) (step : S → σ → Option (α × Array α)) (position : S → Array α) (n : Nat)
    (keeps : S → Prop) (threshold : α) : Prop :=
  ∀ iteration s w, keeps s →
    Traveled position n keeps threshold iteration s (step s w) (turn iteration s w).1

variable {turn : Turn σ S α} {step : S → σ → Option (α × Array α)} {position : S → Array α} {n : Nat}
  {keeps : S → Prop} {threshold : α} {exhausted : S → SolveResult α} {solution : Solution α}

omit [Div α] [Neg α]

/-- A run that finds a solution has gone there by its steps. -/
theorem Travels.endOf_iterate (hturn : turn.Travels step position n keeps threshold)
    (hexhausted : ∀ s, ∃ e, exhausted s = .error e) {limit : Word} {done left : Nat}
    (hleft : done + left = limit.toNat) {s : S} (hs : keeps s) {w : σ}
    (h : (turn.iterate exhausted limit left s w).1 = .ok solution) :
    solution.EndOf (position s) n done threshold (turn.steps step limit left s w) := by
  induction left generalizing done s w with
  | zero =>
    obtain ⟨e, he⟩ := hexhausted s
    rw [iterate, he] at h
    cases h
  | succ left ih =>
    have htraveled := hturn (limit - UInt64.ofNat left) s w hs
    rw [iterate] at h
    rw [steps]
    generalize turn (limit - UInt64.ofNat left) s w = r at h htraveled
    obtain ⟨outcome, w'⟩ := r
    cases htraveled with
    | failed => cases h
    | solved takes size leads accepted =>
      obtain rfl := Except.ok.inj h
      dsimp only
      rw [takes]
      exact ⟨leads, by simpa using size, toNat_iteration hleft, nofun, accepted⟩
    | next takes size leads kept =>
      have hend := ih (show done + 1 + left = limit.toNat by omega) kept h
      rw [leads] at hend
      dsimp only
      rw [takes]
      exact hend.cons size

theorem Travels.foundBy_path {b : Array α} {tolerance : α}
    (hturn : turn.Travels step position b.size keeps (tolerance * Vec.norm b))
    (hexhausted : ∀ s, ∃ e, exhausted s = .error e) {limit : Word} {first : S} (hfirst : keeps first)
    (hposition : position first = Vec.zeros b.size) {w : σ}
    (h : (turn.solve exhausted limit first b w).1 = .ok solution) :
    solution.FoundBy b tolerance (turn.path step limit first b w) := by
  rw [solve] at h
  rw [path]
  split at h
  next hb =>
    obtain rfl := Except.ok.inj h
    rw [if_pos hb]
    exact Solution.foundBy_nil tolerance hb
  next hb =>
    have hend := hturn.endOf_iterate hexhausted (Nat.zero_add _) hfirst h
    rw [hposition] at hend
    rw [if_neg hb]
    exact hend.foundBy hb

end Turn

/-! ### Both methods -/

namespace ConjugateGradient

/-- The step of a turn, if its product has a result. -/
def step (op : Operator σ α) (s : State α) (w : σ) : Option (α × Array α) :=
  match op.apply s.p w with
  | (.error _, _) => none
  | (.ok ap, _) => some (s.step ap)

/-- The steps of a solve. -/
def path (op : Operator σ α) (b : Array α) (tolerance : α) (limit : Word) (w : σ) : List (α × Array α) :=
  (turn op (tolerance * Vec.norm b)).path (step op) limit (.initial b) b w

theorem travels (op : Operator σ α) (n : Nat) (threshold : α) :
    (turn op threshold).Travels (step op) State.x n (fun s => s.p.size = n) threshold := by
  intro iteration s w hs
  obtain ⟨⟨outcome, w'⟩, hturn⟩ : ∃ r, turn op threshold iteration s w = r := ⟨_, rfl⟩
  rw [hturn]
  obtain ⟨e, -, rfl⟩ | ⟨ap, hproduct, hadvance⟩ := cases_of_turn hturn
  · exact .failed e
  have htakes : step op s w = some (s.step ap) := by rw [step, hproduct]
  obtain ⟨quantity, rfl⟩ | ⟨x, hx, ⟨r, hsmall, rfl⟩ | ⟨s', rfl, hsize, rfl⟩⟩ :=
    State.cases_of_advance hadvance
  · exact .failed _
  · exact .solved htakes hs hx ⟨⟨r, rfl⟩, hsmall⟩
  · exact .next htakes hs hx (hsize.trans hs)

theorem foundBy_path {op : Operator σ α} {b : Array α} {tolerance : α} {limit : Word} {w : σ}
    {solution : Solution α} (h : (solve op b tolerance limit w).1 = .ok solution) :
    solution.FoundBy b tolerance (path op b tolerance limit w) :=
  (travels op b.size _).foundBy_path (fun _ => ⟨_, rfl⟩) rfl rfl h

end ConjugateGradient

namespace BiconjugateGradient

/-- The step of a turn, if the product that it depends on has a result. -/
def step (op : Operator σ α) (s : State α) (w : σ) : Option (α × Array α) :=
  match op.apply s.p w with
  | (.error _, _) => none
  | (.ok q, _) => some (s.step q)

/-- The steps of a solve. -/
def path (op : Operator σ α) (b : Array α) (tolerance : α) (limit : Word) (w : σ) : List (α × Array α) :=
  (turn op (tolerance * Vec.norm b)).path (step op) limit (.initial b) b w

theorem travels (op : Operator σ α) (n : Nat) (threshold : α) :
    (turn op threshold).Travels (step op) State.x n (fun s => s.p.size = n) threshold := by
  intro iteration s w hs
  obtain ⟨⟨outcome, w'⟩, hturn⟩ : ∃ r, turn op threshold iteration s w = r := ⟨_, rfl⟩
  rw [hturn]
  obtain ⟨e, -, rfl⟩ | ⟨q, w₁, hproduct, ⟨e, -, rfl⟩ | ⟨qShadow, -, hadvance⟩⟩ := cases_of_turn hturn
  · exact .failed e
  · exact .failed e
  have htakes : step op s w = some (s.step q) := by rw [step, hproduct]
  obtain ⟨quantity, rfl⟩ | ⟨x, hx, ⟨r, hsmall, rfl⟩ | ⟨s', rfl, hsizes, rfl⟩⟩ :=
    State.cases_of_advance hadvance
  · exact .failed _
  · exact .solved htakes hs hx ⟨⟨r, rfl⟩, hsmall⟩
  · exact .next htakes hs hx (hsizes.1.trans hs)

theorem foundBy_path {op : Operator σ α} {b : Array α} {tolerance : α} {limit : Word} {w : σ}
    {solution : Solution α} (h : (solve op b tolerance limit w).1 = .ok solution) :
    solution.FoundBy b tolerance (path op b tolerance limit w) :=
  (travels op b.size _).foundBy_path (fun _ => ⟨_, rfl⟩) rfl rfl h

end BiconjugateGradient

end AccelKrylov
