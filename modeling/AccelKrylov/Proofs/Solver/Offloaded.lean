import AccelKrylov.Proofs.Argument.Built
import AccelKrylov.Proofs.Session.Memory
import AccelKrylov.Proofs.Solver.Status

/-! Solves on the device. Firmware is sent six records; whatever becomes of the session, the solve reports
it as it is, and a solution is byte for byte what the device has left in the caller's memory. -/

namespace AccelKrylov

variable {σ : Type}

/-! ### Numbers in memory -/

theorem Double.listBytes_eq (values : List Double) :
    listBytes values = (values.map bits).flatMap Word.bytes := by
  rw [List.flatMap_map]
  rfl

theorem Double.length_listBytes (values : List Double) : (listBytes values).length = 8 * values.length := by
  rw [listBytes_eq, Word.length_flatMap_bytes, List.length_map]

theorem Double.listBytes_listOfBytes {n : Nat} {bytes : List UInt8} (h : bytes.length = 8 * n) :
    listBytes (listOfBytes bytes) = bytes := by
  rw [listBytes_eq, listOfBytes, List.map_map]
  exact (congrArg (List.flatMap Word.bytes) (List.map_id _)).trans (Word.flatMap_bytes_listOfBytes n bytes h)

theorem Double.bytes_ofBytes {bytes : List UInt8} (h : bytes.length = 8) : (ofBytes bytes).bytes = bytes :=
  Word.bytes_ofBytes bytes h

theorem Double.listBytes_zeros (n : Nat) :
    listBytes (Vec.zeros n).toList = List.replicate (8 * n) 0 := by
  have hzero : bytes 0 = List.replicate 8 0 := rfl
  rw [Vec.zeros, Array.toList_replicate, listBytes, List.flatMap_replicate, hzero,
    List.flatten_replicate_replicate, Nat.mul_comm]

namespace Offloaded

/-! ### The arguments of a solve -/

/-- What firmware is told about the arguments of a solve for a number of unknowns. -/
def descriptors (h : Host) (a : Matrix Double) (n : Nat) : List Descriptor :=
  [⟨h.argumentAddress controlPosition, 32, 64, .input⟩,
    ⟨h.argumentAddress matrixPosition, UInt64.ofNat a.encodedSize, 64, .input⟩,
    ⟨h.argumentAddress rightHandSidePosition, UInt64.ofNat (8 * n), 8, .input⟩,
    ⟨h.argumentAddress solutionPosition, UInt64.ofNat (8 * n), 8, .both⟩,
    ⟨h.argumentAddress statusPosition, 8, 64, .output⟩,
    ⟨h.argumentAddress residualPosition, 8, 64, .output⟩]

/-- The arguments of a solve before firmware runs. -/
structure Laid (h : Host) (a : Matrix Double) (n : Nat) (l : ArgumentList) : Prop where
  descriptors : l.descriptors = descriptors h a n
  solution : l.borrowedAt solutionPosition = some (List.replicate (8 * n) 0)
  status : l.borrowedAt statusPosition = some (List.replicate 8 0)
  residual : l.borrowedAt residualPosition = some (List.replicate 8 0)

theorem laid_of_arguments {h : Host} {algorithm : Algorithm} {a : Matrix Double} {b : Array Double}
    {l : ArgumentList} (harguments : arguments h algorithm a b = .ok l) : Laid h a b.size l := by
  obtain ⟨⟨l', position⟩, hmatrix, hrest⟩ := bind_eq_ok.mp harguments
  obtain ⟨flat, hflat, hl'⟩ := bind_eq_ok.mp hmatrix
  obtain ⟨rfl, rfl⟩ := Prod.mk.inj (Except.ok.inj hl')
  obtain rfl := Except.ok.inj hrest
  have hb : (Double.listBytes b.toList).length = 8 * b.size := Double.length_listBytes b.toList
  have hx := Double.listBytes_zeros b.size
  have hsize := Addition.size_of_ofMatrix hflat
  have halign := Addition.align_of_ofMatrix hflat
  refine ⟨?_, ?_, rfl, rfl⟩
  · change [_, Descriptor.mk _ (UInt64.ofNat flat.block.size) flat.block.align _,
      ⟨_, UInt64.ofNat (Double.listBytes b.toList).length, 8, _⟩,
      ⟨_, UInt64.ofNat (Double.listBytes (Vec.zeros b.size).toList).length, 8, _⟩, _, _] = _
    rw [hsize, halign, hb, hx, List.length_replicate]
    rfl
  · exact congrArg some hx

/-! ### What becomes of a solve -/

section
variable (algorithm : Algorithm) (t : Transport σ) (h : Host) (settings : Settings) (a : Matrix Double)
  (b : Array Double) (machine : Machine σ)

/-- The session of a solve. -/
def call (l : ArgumentList) : Call σ :=
  ⟨t, h, { settings }, algorithm.method.firmware, l, machine⟩

/-- A session that a solve has come to: the system is one, there was memory for its arguments, and only their
six records have been sent. -/
structure Ran (r : Run σ) (outcome : Outcome) : Prop where
  square : a.isSquare = true
  size : a.rows.toNat = b.size
  run : ∃ l, arguments h algorithm a b = .ok l ∧ l.descriptors = descriptors h a b.size ∧
    (call algorithm t h settings machine l).run = (r, outcome)
  set : ∀ x ∈ r.exchanges, x.command.kind = .setArguments →
    x.command = .setArguments (.ofList (descriptors h a b.size))
  device : r.device = t.after machine.device r.commands

/-- What the device has left of the bytes behind an argument, which were zero. -/
def left (r : Run σ) (position length : Nat) : List UInt8 :=
  leftOf (t.writes machine.device r.commands) position (List.replicate length 0)

/-- The ways in which a solve goes: what is reported, and what the machine has come to. -/
inductive Course : Option (SolveResult Double) → Machine σ → Prop
  /-- Nothing is sent, and the machine stays as it is. -/
  | refused {text : String} (dimensions : ¬(a.isSquare = true ∧ a.rows.toNat = b.size))
    (fault : validateSystem a b = .error (.dimension text)) :
    Course (some (.error (.dimension text))) machine
  | noMemory {fault : AllocationError} (square : a.isSquare = true) (size : a.rows.toNat = b.size)
    (arguments : arguments h algorithm a b = .error fault) :
    Course (some (.error (.offload (.ofAllocation fault)))) machine
  | failed {r : Run σ} {fault : Error} (ran : Ran algorithm t h settings a b machine r (.failed fault)) :
    Course (some (.error (.offload fault))) r.toMachine
  | waiting {r : Run σ} (ran : Ran algorithm t h settings a b machine r .waiting) :
    Course none r.toMachine
  | rejected {r : Run σ} {returned : List Descriptor} {status : Word}
    (ran : Ran algorithm t h settings a b machine r (.returned returned))
    (status_left : status.bytes = left t machine r statusPosition 8) (negative : status.toInt64 < 0) :
    Course (some (.error (.firmware status.toInt64))) r.toMachine
  | solved {r : Run σ} {returned : List Descriptor} {solution : Solution Double}
    (ran : Ran algorithm t h settings a b machine r (.returned returned))
    (status_left : solution.iterations.bytes = left t machine r statusPosition 8)
    (nonneg : ¬solution.iterations.toInt64 < 0)
    (x_left : Double.listBytes solution.x.toList = left t machine r solutionPosition (8 * b.size))
    (residual_left : solution.residual.bytes = left t machine r residualPosition 8) :
    Course (some (.ok solution)) r.toMachine

end

section
variable {algorithm : Algorithm} {t : Transport σ} {h : Host} {settings : Settings} {a : Matrix Double}
  {b : Array Double} {machine : Machine σ}

/-- The session of a solve sends the records of its arguments. -/
theorem ran_of_run (hsystem : a.isSquare = true ∧ a.rows.toNat = b.size) {l : ArgumentList}
    (harguments : arguments h algorithm a b = .ok l) {r : Run σ} {outcome : Outcome}
    (hrun : (call algorithm t h settings machine l).run = (r, outcome)) :
    Ran algorithm t h settings a b machine r outcome := by
  have hlaid := (laid_of_arguments harguments).descriptors
  have hheard := (call algorithm t h settings machine l).heard
  rw [hrun] at hheard
  refine ⟨hsystem.1, hsystem.2, ⟨l, harguments, hlaid, hrun⟩, fun x hx hset => ?_, hheard.device⟩
  rw [hheard.set x hx hset, ← hlaid]
  rfl

/-- What is read after a session is what the device has left. -/
theorem course_of_returned {r : Run σ} {returned : List Descriptor} {l : ArgumentList}
    (ran : Ran algorithm t h settings a b machine r (.returned returned)) (hlaid : Laid h a b.size l)
    (hheard : r.arguments = l.pokeAll (t.writes machine.device r.commands)) :
    Course algorithm t h settings a b machine (some (readSolution r.arguments)) r.toMachine := by
  have hmemory {position length : Nat} (hl : l.borrowedAt position = some (List.replicate length 0)) :
      (r.arguments.borrowedAt position).getD [] = left t machine r position length := by
    rw [hheard, ArgumentList.borrowedAt_pokeAll, hl]
    rfl
  have hlength (position length : Nat) : (left t machine r position length).length = length := by
    simp [left]
  unfold readSolution
  simp only [hmemory hlaid.solution, hmemory hlaid.status, hmemory hlaid.residual]
  have hstatus : (Word.ofBytes (left t machine r statusPosition 8)).bytes =
      left t machine r statusPosition 8 :=
    Word.bytes_ofBytes _ (hlength _ _)
  split
  next hnegative => exact .rejected ran hstatus hnegative
  next hnonneg =>
    exact .solved ran hstatus hnonneg (Double.listBytes_listOfBytes (hlength _ _))
      (Double.bytes_ofBytes (hlength _ _))

/-- Every solve on the device goes one of these ways. -/
theorem course_of_solve (algorithm : Algorithm) (t : Transport σ) (h : Host) (settings : Settings)
    (a : Matrix Double) (b : Array Double) (machine : Machine σ) :
    Course algorithm t h settings a b machine (solve algorithm t h settings a b machine).1
      (solve algorithm t h settings a b machine).2 := by
  unfold solve
  cases hvalid : validateSystem a b with
  | error e =>
    obtain ⟨text, rfl⟩ := status_of_validateSystem hvalid
    refine .refused (fun hsystem => ?_) hvalid
    rw [validateSystem_eq_ok_iff.mpr hsystem] at hvalid
    cases hvalid
  | ok =>
    have hsystem := validateSystem_eq_ok_iff.mp hvalid
    cases harguments : arguments h algorithm a b with
    | error fault => exact .noMemory hsystem.1 hsystem.2 harguments
    | ok l =>
      cases hrun : (call algorithm t h settings machine l).run with
      | mk r outcome =>
        have hheard := (call algorithm t h settings machine l).heard
        rw [hrun] at hheard
        have ran := ran_of_run hsystem harguments hrun
        change Session.run { settings } t h algorithm.method.firmware l machine = _ at hrun
        dsimp only
        rw [hrun]
        cases outcome with
        | failed fault => exact .failed ran
        | waiting => exact .waiting ran
        | returned returned => exact course_of_returned ran (laid_of_arguments harguments) hheard.arguments

theorem Course.signed {result : SolveResult Double} {machine' : Machine σ}
    (hc : Course algorithm t h settings a b machine (some result) machine')
    (ht : t.FailsNegatively machine.device)
    (hsystem : ∀ cause, machine.eventRefused = some cause → cause.Numbered) : result.Signed := by
  cases hc with
  | refused => exact (by decide : Error.invalidInputStatus < 0)
  | noMemory => exact Error.status_ofAllocation _
  | failed ran =>
    obtain ⟨l, -, -, hrun⟩ := ran.run
    exact (call algorithm t h settings machine l).status_of_failed ht hsystem (congrArg Prod.snd hrun)
  | rejected ran status_left negative => exact SolveError.status_firmware negative
  | solved ran status_left nonneg =>
    rw [Word.toInt64_neg_iff, Nat.not_le] at nonneg
    exact nonneg

end

end Offloaded

/-! ### Solves of any kind -/

/-- A solve on the device goes one of the ways of the table, and a local solve always comes to a result. Where
failures of the device and of the system have negative statuses, the number that a caller gets for a result
is that of its iterations if there is a solution, and negative otherwise. -/
theorem Solver.solve_reports (s : Solver σ) (h : Host) (arrival : Arrival) (algorithm : Algorithm)
    (a : Matrix Double) (b : Array Double) (machine : Machine σ) :
    (s.settings.offload = true → Offloaded.Course algorithm s.transport h s.settings a b machine
      (s.solve h arrival algorithm a b machine).1 (s.solve h arrival algorithm a b machine).2.2) ∧
    (s.settings.offload = true ∨ ∃ result, (s.solve h arrival algorithm a b machine).1 = some result) ∧
    (s.transport.FailsNegatively machine.device →
      (∀ cause, machine.eventRefused = some cause → cause.Numbered) →
      algorithm.maxIterations.toNat < 2 ^ 63 →
      ∀ result, (s.solve h arrival algorithm a b machine).1 = some result →
        (0 ≤ result.statusOf ↔ ∃ solution, result = .ok solution) ∧
        ∀ solution, result = .ok solution → result.statusOf.toInt = solution.iterations.toNat) := by
  have hcourse := Offloaded.course_of_solve algorithm s.transport h s.settings a b machine
  unfold solve
  refine ⟨fun hoffload => ?_, ?_, fun ht hsystem hlimit result hresult => ?_⟩
  · rw [if_pos hoffload]
    exact hcourse
  · split
    next hoffload => exact .inl hoffload
    next => exact .inr ⟨_, rfl⟩
  · have hsigned : result.Signed := by
      split at hresult
      next =>
        change (Offloaded.solve algorithm s.transport h s.settings a b machine).1 = some result at hresult
        rw [hresult] at hcourse
        exact hcourse.signed ht hsystem
      next =>
        obtain rfl := Option.some.inj hresult
        exact algorithm.solveLocally_signed hlimit _ a b s.pool
    refine ⟨hsigned.statusOf_nonneg_iff, ?_⟩
    rintro solution rfl
    exact hsigned.toInt_statusOf

/-! ### A solve of one unknown -/

namespace OneUnknown

/-- Twice the unknown is six. -/
def matrix : Matrix Double where
  rows := 1
  cols := 1
  base := 0
  kind := .real
  representation := .general
  storage := .dense 1 #[⟨0x4000000000000000⟩]
  fits := by cbv

def rightHandSide : Array Double := #[⟨0x4018000000000000⟩]

/-- The unknown is three, after one iteration. -/
def solution : Solution Double := ⟨#[⟨0x4008000000000000⟩], 1, 0⟩

/-- A device that leaves the solution and its iterations, and nothing of the residual. -/
def machine : Machine ScriptedDevice where
  device := {
    script := {
      failure := fun kind => if kind = .stopFirmware then some (-5) else none
      memoryWrites := [⟨Offloaded.solutionPosition, 0, Double.listBytes solution.x.toList⟩,
        ⟨Offloaded.statusPosition, 0, solution.iterations.bytes⟩] } }

/-- A host on which every path leads to a file. -/
def host : Host :=
  ⟨⟨fun _ => .ok (.file 64)⟩, 7, 3, 4096, fun position => UInt64.ofNat (8192 + 64 * position)⟩

def algorithm : Algorithm := .standard .conjugateGradient

def solver : Solver ScriptedDevice :=
  ⟨{ Settings.standard 1 with offload := true, firmwareDirectory := some "/firmware" }, .ofWorkers 1,
    ScriptedDevice.transport none⟩

def solved : Option (SolveResult Double) × Solver ScriptedDevice × Machine ScriptedDevice :=
  solver.solve host .inTurn algorithm matrix rightHandSide machine

theorem failsNegatively : solver.transport.FailsNegatively machine.device := by
  refine ScriptedDevice.failsNegatively (fun kind status h => ?_) none
  change (if kind = .stopFirmware then some (-5) else none) = some status at h
  split at h
  · obtain rfl := Option.some.inj h
    decide
  · cases h

theorem solved_eq : solved.1 = some (.ok solution) := by
  have hrun : solved.1.bind Except.toOption = some solution := by decide +kernel
  obtain ⟨result, hresult, hsolution⟩ := Option.bind_eq_some_iff.mp hrun
  cases result with
  | ok found =>
    obtain rfl := Option.some.inj hsolution
    exact hresult
  | error e => cases hsolution

end OneUnknown

theorem solve_reports_oneUnknown :
    OneUnknown.solver.settings.offload = true ∧
    OneUnknown.solver.transport.FailsNegatively OneUnknown.machine.device ∧
    OneUnknown.machine.eventRefused = none ∧ OneUnknown.algorithm.maxIterations.toNat < 2 ^ 63 ∧
    Offloaded.Course OneUnknown.algorithm OneUnknown.solver.transport OneUnknown.host
      OneUnknown.solver.settings OneUnknown.matrix OneUnknown.rightHandSide OneUnknown.machine
      (some (.ok OneUnknown.solution)) OneUnknown.solved.2.2 ∧
    (SolveResult.statusOf (.ok OneUnknown.solution)).toInt = 1 := by
  have hoffload : OneUnknown.solver.settings.offload = true := rfl
  have hlimit : OneUnknown.algorithm.maxIterations.toNat < 2 ^ 63 := by decide
  obtain ⟨hcourse, -, hstatus⟩ := Solver.solve_reports OneUnknown.solver OneUnknown.host .inTurn
    OneUnknown.algorithm OneUnknown.matrix OneUnknown.rightHandSide OneUnknown.machine
  have hreported := hstatus OneUnknown.failsNegatively nofun hlimit _ OneUnknown.solved_eq
  refine ⟨hoffload, OneUnknown.failsNegatively, rfl, hlimit, ?_, hreported.2 OneUnknown.solution rfl⟩
  rw [← OneUnknown.solved_eq]
  exact hcourse hoffload

end AccelKrylov
