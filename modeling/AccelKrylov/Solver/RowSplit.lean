import AccelKrylov.Solver.Operator
import AccelKrylov.Matrix.Product
import AccelKrylov.Pool.Settle

/-! Products of a matrix with a vector, split into jobs of some rows each. Every job computes its rows'
part; the parts are put together in the order in which they arrive, which is for the workers to
decide. -/

namespace AccelKrylov

/-- The ranges of at most `chunkRows` rows that make up a number of rows, in order. For fewer than `2 ^ 63` rows the
end of every range is a word before the least is taken; vectors with more entries do not fit in a memory. -/
def chunks (rows chunkRows : Word) : List RowRange :=
  (List.range (Word.ceilDiv rows chunkRows).toNat).map fun i =>
    let start := UInt64.ofNat i * chunkRows
    ⟨start, min (start + chunkRows) rows⟩

/-! ### Arrival -/

/-- In which order the results of jobs arrive that are submitted together. Batches of jobs are told
apart by the number of their first job. -/
structure Arrival where
  order : (batch : Word) → (jobs : Nat) → List Nat
  perm : ∀ batch jobs, (order batch jobs).Perm (List.range jobs)
  /-- How many actions the workers go on for before the caller, who has its results, does. -/
  lead : (batch : Word) → Nat

/-- Results arrive in the order of the jobs, as they do when one worker runs them, and the caller goes on at
once. -/
def Arrival.inTurn : Arrival := ⟨fun _ jobs => List.range jobs, fun _ _ => .refl _, fun _ => 0⟩

/-- How local work is split, and how its results arrive. -/
structure RowSplit where
  chunkRows : Word
  arrival : Arrival
  chunkRows_ne_zero : chunkRows ≠ 0

namespace RowSplit

/-- Splits into chunks of a number of rows, or of one row if that number is zero. -/
def ofRows (chunkRows : Word) (arrival : Arrival) : RowSplit :=
  if h : chunkRows = 0 then ⟨1, arrival, by decide⟩ else ⟨chunkRows, arrival, h⟩

/-! ### Jobs -/

/-- Queues a job for every range, up to the first one that is refused. -/
def spawnAll : List RowRange → Pool RowRange → Except PoolError Unit × Pool RowRange
  | [], pool => (.ok (), pool)
  | range :: ranges, pool => match pool.spawn range with
    | (pool, .ok _) => spawnAll ranges pool
    | (pool, .error e) => (.error e, pool)

variable {α : Type}

/-- The parts of some ranges in the order in which they arrive; a part that is an error ends it all. -/
def collect (s : RowSplit) (batch : Word) (ranges : List RowRange)
    (part : RowRange → Except ProductError (Array α)) :
    Except ProductError (List (RowRange × Array α)) :=
  ((s.arrival.order batch ranges.length).filterMap fun i => ranges[i]?).mapM fun range =>
    (part range).map fun y => (range, y)

/-- The pool when as many jobs have been run as results are waited for. Those jobs need not have been counted by
then, and others need not have been run. -/
def afterResults (s : RowSplit) (batch : Word) (results : Nat) (pool : Pool RowRange) : Pool RowRange :=
  (pool.settleUntil .calm (fun p => p.unrun + results ≤ pool.unrun) pool.remaining).settleWithin .calm
    (s.arrival.lead batch)

/-- Lets a pool compute the parts of all rows. The last result ends that, and so does the first one that is an
error. -/
def run (s : RowSplit) (rows : Word) (part : RowRange → Except ProductError (Array α))
    (assemble : List (RowRange × Array α) → Array α) (pool : Pool RowRange) :
    Except (SolveError α) (Array α) × Pool RowRange :=
  let ranges := chunks rows s.chunkRows
  let (queued, after) := spawnAll ranges pool
  match queued with
  | .error e => (.error (.offload (.ofPool e)), s.afterResults pool.nextId 0 after)
  | .ok () => match s.collect pool.nextId ranges part with
    | .ok parts => (.ok (assemble parts), s.afterResults pool.nextId ranges.length after)
    | .error e => (.error (.offload (.ofProduct e)), s.afterResults pool.nextId 1 after)

/-! ### Products -/

/-- The vector `y` with a part in the place of the entries from `start` on. -/
def place (y : Array α) (start : Word) (part : Array α) : Array α :=
  part.size.fold (fun i h y => y.setIfInBounds (start.toNat + i) part[i]) y

variable [Zero α] [One α] [Add α] [Mul α]

/-- The product `A x`: the parts of the rows, one behind the other. -/
def product (s : RowSplit) (a : Matrix α) (x : Array α) :
    Pool RowRange → Except (SolveError α) (Array α) × Pool RowRange :=
  s.run a.rows (fun range => a.productRows range x) fun parts =>
    parts.foldl (fun y (range, part) => place y range.start part) (Vec.zeros a.rows.toNat)

/-- The product of the transposed matrix with `x`: the sum of what the rows contribute. -/
def transposeProduct (s : RowSplit) (a : Matrix α) (x : Array α) :
    Pool RowRange → Except (SolveError α) (Array α) × Pool RowRange :=
  s.run a.rows (fun range => a.transposeProductRows range x) fun parts =>
    parts.foldl (fun y (_, part) => Vec.addScaled 1 part y) (Vec.zeros a.cols.toNat)

/-- A matrix whose products a pool computes. -/
def operator (s : RowSplit) (a : Matrix α) : Operator (Pool RowRange) α :=
  ⟨s.product a, s.transposeProduct a⟩

end RowSplit

end AccelKrylov
