import FlatGraph.Container.ClaimSet
import FlatGraph.Search.Breadth

/-! # Breadth-first search by a team of workers

The search goes level by level. The positions of a level are split among workers; each worker reads
the edges of its own positions in order and claims their targets from a shared set. The next level
is what the workers won, worker by worker.

Which worker moves next is open: a schedule lists, level by level, the workers in the order in which
they move, and the workers finish in turn when the list is used up. So every way in which the claims
of a level can interleave is the effect of some schedule. How many threads there are for the workers
is up to the system that starts them.

* `Adjacency.parallelBreadthFirst` answers what `Adjacency.breadthFirst` answers. -/

namespace FlatGraph

/-! ### Workers -/

/-- A worker: the targets it has still to claim, in order, and those it has won. -/
structure Worker where
  pending : List Nat
  won : Array Nat := #[]

/-- The workers of a level and the set they claim from. -/
structure Team where
  seen : ClaimSet
  workers : List Worker

namespace Worker

/-- One step of a worker: it claims its next target. -/
def step (seen : ClaimSet) : Worker → ClaimSet × Worker
  | ⟨[], won⟩ => (seen, ⟨[], won⟩)
  | ⟨target :: rest, won⟩ =>
    match seen.testAndSet target with
    | (true, seen) => (seen, ⟨rest, won.push target⟩)
    | (false, seen) => (seen, ⟨rest, won⟩)

/-- Claims all targets that are pending. -/
def finish : (pending : List Nat) → ClaimSet → (won : Array Nat) → ClaimSet × Array Nat
  | [], seen, won => (seen, won)
  | target :: rest, seen, won =>
    match seen.testAndSet target with
    | (true, seen) => finish rest seen (won.push target)
    | (false, seen) => finish rest seen won

end Worker

namespace Team

/-- The worker at index `i` moves; nothing happens if there is none. -/
def move (t : Team) (i : Nat) : Team :=
  match t.workers[i]? with
  | none => t
  | some worker =>
    match worker.step t.seen with
    | (seen, worker) => ⟨seen, t.workers.set i worker⟩

/-- The workers finish in turn. Answers the set and what each of them won. -/
def finish : ClaimSet → List Worker → ClaimSet × List (Array Nat)
  | seen, [] => (seen, [])
  | seen, worker :: rest =>
    match Worker.finish worker.pending seen worker.won with
    | (seen, won) =>
      match finish seen rest with
      | (seen, others) => (seen, won :: others)

/-- The workers move as the schedule says and then finish in turn. Answers the set and all that was
won, worker by worker. -/
def run (t : Team) (schedule : List Nat) : ClaimSet × List Nat :=
  let moved := schedule.foldl move t
  match finish moved.seen moved.workers with
  | (seen, won) => (seen, won.flatMap Array.toList)

/-! ### What is still to be claimed -/

/-- The number of targets that some workers have won. -/
def wonCount (workers : List Worker) : Nat := total (fun w => w.won.size) workers

theorem absent_finish_worker (pending : List Nat) (seen : ClaimSet) (won : Array Nat) :
    (Worker.finish pending seen won).1.absent + (Worker.finish pending seen won).2.size =
      seen.absent + won.size := by
  induction pending generalizing seen won with
  | nil => rfl
  | cons target rest ih =>
    have ha := seen.absent_testAndSet target
    unfold Worker.finish
    cases hm : seen.testAndSet target with
    | mk fresh claimed =>
      rw [hm] at ha
      cases fresh with
      | false => simp only at ha ⊢; rw [ih]; simp at ha; omega
      | true => simp only [if_true] at ha ⊢; rw [ih, Array.size_push]; omega

theorem absent_finish (seen : ClaimSet) (workers : List Worker) :
    (finish seen workers).1.absent + ((finish seen workers).2.flatMap Array.toList).length =
      seen.absent + wonCount workers := by
  induction workers generalizing seen with
  | nil => rfl
  | cons worker rest ih =>
    have hw := absent_finish_worker worker.pending seen worker.won
    have hr := ih (Worker.finish worker.pending seen worker.won).1
    simp only [finish, List.flatMap_cons, List.length_append, Array.length_toList, wonCount,
      total_cons] at hr ⊢
    omega

theorem absent_step (seen : ClaimSet) (worker : Worker) :
    (worker.step seen).1.absent + (worker.step seen).2.won.size =
      seen.absent + worker.won.size := by
  obtain ⟨pending, won⟩ := worker
  cases pending with
  | nil => rfl
  | cons target rest =>
    have ha := seen.absent_testAndSet target
    unfold Worker.step
    cases hm : seen.testAndSet target with
    | mk fresh claimed =>
      rw [hm] at ha
      cases fresh with
      | false => simp only [hm] at ha ⊢; simp at ha; omega
      | true => simp only [hm, if_true] at ha ⊢; rw [Array.size_push]; omega

theorem wonCount_set {workers : List Worker} {i : Nat} {worker : Worker}
    (h : workers[i]? = some worker) (moved : Worker) :
    wonCount (workers.set i moved) + worker.won.size = wonCount workers + moved.won.size := by
  induction workers generalizing i with
  | nil => simp at h
  | cons head rest ih =>
    cases i with
    | zero => cases h; simp only [wonCount, List.set_cons_zero, total_cons]; omega
    | succ i =>
      have := ih (by simpa using h)
      simp only [wonCount, List.set_cons_succ, total_cons] at this ⊢
      omega

theorem absent_move (t : Team) (i : Nat) :
    (t.move i).seen.absent + wonCount (t.move i).workers = t.seen.absent + wonCount t.workers := by
  unfold move
  split
  · rfl
  · next worker h =>
    have hs := absent_step t.seen worker
    have hw := wonCount_set h (worker.step t.seen).2
    simp only
    omega

theorem absent_foldl_move (t : Team) (schedule : List Nat) :
    (schedule.foldl move t).seen.absent + wonCount (schedule.foldl move t).workers =
      t.seen.absent + wonCount t.workers := by
  induction schedule generalizing t with
  | nil => rfl
  | cons i rest ih => rw [List.foldl_cons, ih, absent_move]

theorem absent_run (t : Team) (schedule : List Nat) :
    (t.run schedule).1.absent + (t.run schedule).2.length = t.seen.absent + wonCount t.workers := by
  rw [← absent_foldl_move t schedule]
  exact absent_finish _ _

end Team

/-! ### Levels -/

/-- How a search by a team is run: by how many workers, from which size of a level on, and whether
it is called off. -/
structure TeamOptions where
  workers : Nat
  pool : Option Nat := none
  minFrontier : Nat := 1024
  recordDistances : Bool := true
  cancelled : Option Bool := none

/-- What the system answers when a pool for some workers is started: the number of its threads, or
why it is not started. -/
abbrev Starter := Nat → Except String Nat

/-- Every pool is started, with a thread for each worker. -/
def Starter.full : Starter := .ok

/-- The threads of the pool at hand, or else of one that is started for the workers asked for. -/
def TeamOptions.threads (o : TeamOptions) (starter : Starter) : Except Fault Nat :=
  match o.pool with
  | some threads => .ok threads
  | none =>
    if o.workers = 0 then .error (.invalidArgument .noWorkers)
    else (starter o.workers).mapError (.io s!"failed to start {o.workers} BFS workers")

/-- The number of workers: one for each thread of the pool, and one if it has none. -/
def TeamOptions.size? (o : TeamOptions) (starter : Starter) : Except Fault Nat :=
  (o.threads starter).map fun threads => max threads 1

/-- The list cut into pieces of `size` entries, and at least one, the last of which may be
shorter. -/
def pieces (size : Nat) (positions : List Nat) : List (List Nat) :=
  match positions with
  | [] => []
  | first :: rest => (first :: rest.take (size - 1)) :: pieces size (rest.drop (size - 1))
termination_by positions.length
decreasing_by rw [List.length_cons, List.length_drop]; omega

/-- The size of the pieces into which a level is split, one for each worker at most. -/
def chunkSize (workers : Nat) (level : List Nat) : Nat := (level.length + workers - 1) / workers

/-- The shares of the workers in a level. A small level is not split. -/
def shares (workers minFrontier : Nat) (level : List Nat) : List (List Nat) :=
  if workers = 1 ∨ level.length < minFrontier then [level]
  else pieces (chunkSize workers level) level

/-- The team for a level whose shares are known. -/
def Team.start (a : Adjacency) (seen : ClaimSet) (shares : List (List Nat)) : Team :=
  ⟨seen, shares.map fun share => { pending := share.flatMap a.out }⟩

theorem Team.wonCount_start (a : Adjacency) (seen : ClaimSet) (shares : List (List Nat)) :
    wonCount (Team.start a seen shares).workers = 0 := by
  simp only [wonCount, Team.start]
  induction shares with
  | nil => rfl
  | cons share rest ih => simpa using ih

/-- Which worker moves next, for each level. -/
abbrev Schedule := Nat → List Nat

/-- The workers of each level run one after the other. -/
def Schedule.inTurn : Schedule := fun _ => []

/-- The state of a search by levels: `frontier` is the level at distance `level`. -/
structure LevelState where
  seen : ClaimSet
  frontier : List Nat
  distances : Option (Array Nat)
  level : Nat
  metrics : Metrics

namespace LevelState

/-- Gives the positions of the next level their distance. -/
def record (distances : Option (Array Nat)) (positions : List Nat) (distance : Nat) :
    Option (Array Nat) :=
  distances.map fun d => positions.foldl (fun d p => d.setIfInBounds p distance) d

/-- One level, split into the given shares. -/
def advance (a : Adjacency) (shares : List (List Nat)) (schedule : List Nat) (s : LevelState) :
    LevelState :=
  match (Team.start a s.seen shares).run schedule with
  | (seen, next) =>
    { seen
      frontier := next
      distances := record s.distances next (s.level + 1)
      level := s.level + 1
      metrics :=
        { nodes := s.metrics.nodes + s.frontier.length
          edges := s.metrics.edges + a.edgesOut s.frontier
          levels := s.metrics.levels + 1 } }

/-- The positions still to be expanded, now or after their discovery. -/
def potential (s : LevelState) : Nat := s.seen.absent + s.frontier.length

theorem potential_advance (a : Adjacency) (shares : List (List Nat)) (schedule : List Nat)
    (s : LevelState) : (s.advance a shares schedule).potential = s.seen.absent := by
  have h := Team.absent_run (Team.start a s.seen shares) schedule
  rw [Team.wonCount_start] at h
  exact h

/-- Expands levels until one is empty. The search may be called off at each level. -/
def run (a : Adjacency) (workers minFrontier : Nat) (cancelled : Bool) (schedule : Schedule)
    (s : LevelState) : Except Fault LevelState :=
  if hf : s.frontier = [] then .ok s
  else if cancelled then .error .cancelled
  else
    let t := s.advance a (shares workers minFrontier s.frontier) (schedule s.level)
    have : t.potential < s.potential := by
      rw [potential_advance]
      have : s.frontier.length ≠ 0 := by simpa using hf
      simp only [potential]
      omega
    run a workers minFrontier cancelled schedule t
termination_by s.potential

/-- The state before the first level: the start is claimed and alone at distance zero. -/
def start (count position : Nat) (recordDistances : Bool) : LevelState where
  seen := ((ClaimSet.empty count).testAndSet position).2
  frontier := [position]
  distances := if recordDistances then
    some ((Array.replicate count unreached).setIfInBounds position 0) else none
  level := 0
  metrics := {}

end LevelState

/-- **Breadth-first search by a team** from a position along the edges. The start is checked before
the workers, and these are started before the search may be called off. -/
def Adjacency.parallelBreadthFirst (a : Adjacency) (position : Nat) (o : TeamOptions)
    (starter : Starter) (schedule : Schedule) : Except Fault Reach := do
  a.check position
  let workers ← o.size? starter
  let start := LevelState.start a.count position o.recordDistances
  let s ← LevelState.run a workers o.minFrontier (o.cancelled == some true) schedule start
  let seen := s.seen.toBitSet
  return {
    reached := seen.countOnes
    seen
    distances := s.distances
    metrics := s.metrics }

end FlatGraph
