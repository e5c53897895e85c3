import ChronoScope.Oracle.History
import ChronoScope.Search

/-!
# The linearizability checker

A search over the events of one key, sorted by invocation. Everything before the
frontier is placed, and a mask says which of the next operations are placed
ahead of it. The frames of the explicit stack hold a cursor over the candidate
moves; a configuration that was entered before is passed over.

The two loops count down: the inner one from the cursors a frame has left, the
outer one from the configurations the limit still allows. Apart from what it
records for its report, the outer loop is a depth-first search
(`loop_eq_linearizable_iff`).
-/

namespace ChronoScope.Oracle

/-- The sequential specification: one register. -/
structure Model where
  value : Value
  deriving DecidableEq

namespace Model

def new : Model := { value := none }

/-- Apply an operation, if what was observed is consistent with applying it here. -/
def step (model : Model) (event : Event) : Option Model :=
  match event.op, event.ret with
  | .read _, .value observed => if observed = model.value then some model else none
  | .write _ value, .ok => some { value := some value }
  | .delete _, .ok => some { value := none }
  | .cas _ expect value, .ok => if expect = model.value then some { value := value } else none
  | .cas _ expect _, .casFailed => if expect = model.value then none else some model
  | .read _, .unknown => some model
  | .write _ value, .unknown => some { value := some value }
  | .delete _, .unknown => some { value := none }
  | .cas _ expect value, .unknown =>
    if expect = model.value then some { value := value } else some model
  | _, _ => none

end Model

structure Violation where
  culprit : Event
  linearized : List Event
  modelValue : Value
  concurrent : List Event
  deriving DecidableEq

inductive Verdict where
  | linearizable
  | notLinearizable (violation : Violation)
  | inconclusive (explored maxConcurrency : ℕ)
  deriving DecidableEq

def Verdict.isLinearizable (verdict : Verdict) : Bool := decide (verdict = .linearizable)

def Verdict.isViolation : Verdict → Bool
  | notLinearizable _ => true
  | _ => false

structure Limits where
  /-- Configurations to explore per key before giving up. -/
  maxStates : ℕ

def Limits.default : Limits := { maxStates := 2000000 }

/-- How far ahead of the frontier an operation may be linearized. -/
def ahead : ℕ := 63

structure Frame where
  model : Model
  frontier : ℕ
  /-- Bit `k` says that operation `frontier + 1 + k` is placed. -/
  mask : ℕ
  /-- Twice the offset of the next candidate, plus one if its effect is to be left out. -/
  cursor : ℕ
  chose : Option ℕ
  deriving DecidableEq

/-- The number of low bits that are set, of 64. -/
def trailingOnes (mask : ℕ) : ℕ := ((List.range 64).takeWhile fun bit => mask.testBit bit).length

/-- Frontier and mask after placing the operation at an offset from the frontier. -/
def place (frontier mask offset : ℕ) : ℕ × ℕ :=
  if offset = 0 then
    let run := trailingOnes mask
    (frontier + 1 + run, if run + 1 ≥ 64 then 0 else mask >>> (run + 1))
  else (frontier, mask ||| 1 <<< (offset - 1))

/-- What one turn of the inner loop comes to. -/
inductive Turn where
  /-- No further candidate; one may have been cut off by the window. -/
  | halt (boundedOut : Bool)
  | pass
  | move (index : ℕ) (model : Model) (frontier mask : ℕ)
  deriving DecidableEq

def turn (events : List Event) (frame : Frame) : Turn :=
  let horizon := ((events[frame.frontier]?).map Event.returned).getD 0
  let offset := frame.cursor / 2
  let skipEffect := frame.cursor % 2 = 1
  let index := frame.frontier + offset
  match events[index]? with
  | none => .halt false
  | some event =>
    if offset > ahead then .halt (decide (event.invoked ≤ horizon))
    else if offset > 0 ∧ frame.mask.testBit (offset - 1) = true then .pass
    else if event.invoked > horizon then .halt false
    else if skipEffect ∧ event.isUnknown = false then .pass
    else
      match if skipEffect then some frame.model else frame.model.step event with
      | none => .pass
      | some model =>
        let placed := place frame.frontier frame.mask offset
        .move index model placed.1 placed.2

/-- What the search remembers of a configuration it entered. -/
abbrev Config := Value × ℕ × ℕ

/-- What the inner loop leaves: the frame, whether the window cut something off, and the move. -/
structure Scan where
  frame : Frame
  boundedOut : Bool
  move : Option (ℕ × Model × ℕ × ℕ)

/-- The inner loop, for as many turns as there are cursors left. -/
def scan (events : List Event) (visited : List Config) : ℕ → Frame → Scan
  | 0, frame => { frame := frame, boundedOut := false, move := none }
  | turns + 1, frame =>
    let next := { frame with cursor := frame.cursor + 1 }
    match turn events frame with
    | .halt boundedOut => { frame := next, boundedOut := boundedOut, move := none }
    | .pass => scan events visited turns next
    | .move index model frontier mask =>
      if (model.value, frontier, mask) ∈ visited then scan events visited turns next
      else { frame := next, boundedOut := false, move := some (index, model, frontier, mask) }

/-- The cursors of a frame run up to here. -/
def cursorEnd : ℕ := 2 * (ahead + 2)

structure Progress where
  visited : List Config
  explored : ℕ
  boundedOut : Bool
  bestDepth : ℕ
  bestTrace : List ℕ
  bestModel : Model
  /-- The frame on top comes first. -/
  stack : List Frame

/-- The verdict when the stack is empty. -/
def conclude (events : List Event) (first : Event) (maxConcurrency : ℕ) (progress : Progress) :
    Verdict :=
  if progress.boundedOut then .inconclusive progress.explored maxConcurrency
  else
    let culprit := events.getD (min progress.bestDepth (events.length - 1)) first
    .notLinearizable {
      culprit := culprit
      linearized := progress.bestTrace.filterMap fun index => events[index]?
      modelValue := progress.bestModel.value
      concurrent := events.filter fun event =>
        event.concurrentWith culprit && decide (event ≠ culprit) }

/-- Push the configuration a move leads to. -/
def enter (progress : Progress) (frame : Frame) (rest : List Frame)
    (move : ℕ × Model × ℕ × ℕ) : Progress :=
  let (index, model, frontier, mask) := move
  let deeper := decide (frontier > progress.bestDepth)
  let entered : Frame := ⟨model, frontier, mask, 0, some index⟩
  { progress with
    visited := (model.value, frontier, mask) :: progress.visited
    bestDepth := if deeper then frontier else progress.bestDepth
    bestTrace := if deeper then (frame :: rest).reverse.filterMap Frame.chose ++ [index]
      else progress.bestTrace
    bestModel := if deeper then model else progress.bestModel
    stack := entered :: frame :: rest }

/-- The outer loop, for as many configurations as the limit still allows. -/
def loop (events : List Event) (first : Event) (maxConcurrency : ℕ) : ℕ → Progress → Verdict
  | budget, progress =>
    match progress.stack with
    | [] => conclude events first maxConcurrency progress
    | frame :: rest =>
      match budget with
      | 0 => .inconclusive (progress.explored + 1) maxConcurrency
      | budget + 1 =>
        if frame.frontier = events.length then .linearizable
        else
          let scanned := scan events progress.visited (cursorEnd - frame.cursor) frame
          let progress := { progress with
            explored := progress.explored + 1
            boundedOut := progress.boundedOut || scanned.boundedOut }
          match scanned.move with
          | some move => loop events first maxConcurrency budget
              (enter progress scanned.frame rest move)
          | none => loop events first maxConcurrency budget { progress with stack := rest }

def startFrame : Frame :=
  { model := .new, frontier := 0, mask := 0, cursor := 0, chose := none }

def start : Progress where
  visited := []
  explored := 0
  boundedOut := false
  bestDepth := 0
  bestTrace := []
  bestModel := .new
  stack := [startFrame]

/-- Wing and Gong over the operations of a single key. -/
def checkOneKey (history : History) (limits : Limits) : Verdict :=
  match history.sorted.events with
  | [] => .linearizable
  | first :: rest => loop (first :: rest) first history.maxConcurrency limits.maxStates start

/-- Check keys one after the other, up to the first that is not linearizable. -/
def checkKeys (limits : Limits) : List (Key × History) → Verdict
  | [] => .linearizable
  | (_, sub) :: rest =>
    match checkOneKey sub limits with
    | .linearizable => checkKeys limits rest
    | other => other

def check (history : History) (limits : Limits) : Verdict := checkKeys limits history.byKey.toList

section Dfs

variable (events : List Event)

/-- The configurations a frame has still to try, in order. -/
def movesFrom : ℕ → Frame → List Config
  | 0, _ => []
  | turns + 1, frame =>
    let next := { frame with cursor := frame.cursor + 1 }
    match turn events frame with
    | .halt _ => []
    | .pass => movesFrom turns next
    | .move _ model frontier mask => (model.value, frontier, mask) :: movesFrom turns next

def Frame.config (frame : Frame) : Config := (frame.model.value, frame.frontier, frame.mask)

def Config.frame (config : Config) (chose : Option ℕ) : Frame :=
  { model := { value := config.1 }, frontier := config.2.1, mask := config.2.2, cursor := 0,
    chose := chose }

def moves (config : Config) : List Config := movesFrom events cursorEnd (Config.frame config none)

def isDone (config : Config) : Bool := decide (config.2.1 = events.length)

/-- A frame of the checker as a frame of the search. -/
def Frame.pending (frame : Frame) : Config × List Config :=
  (frame.config, movesFrom events (cursorEnd - frame.cursor) frame)

theorem movesFrom_chose (turns : ℕ) (frame : Frame) (chose : Option ℕ) :
    movesFrom events turns { frame with chose := chose } = movesFrom events turns frame := by
  induction turns generalizing frame with
  | zero => rfl
  | succ turns ih =>
    have sameTurn : turn events { frame with chose := chose } = turn events frame := rfl
    have rest := ih { frame with cursor := frame.cursor + 1 }
    simp only [movesFrom, sameTurn]
    split
    · rfl
    · exact rest
    · rw [List.cons.injEq]
      exact ⟨rfl, rest⟩

theorem pending_entered (index : ℕ) (model : Model) (frontier mask : ℕ) :
    Frame.pending events ⟨model, frontier, mask, 0, some index⟩ =
      ((model.value, frontier, mask), moves events (model.value, frontier, mask)) := by
  rw [moves, Frame.pending]
  exact congrArg _ (movesFrom_chose events cursorEnd _ none).symm

theorem scan_spec (visited : List Config) (turns : ℕ) (frame : Frame)
    (left : turns = cursorEnd - frame.cursor) :
    let scanned := scan events visited turns frame
    match Search.firstFresh visited (movesFrom events turns frame) with
    | none => scanned.move = none
    | some (next, rest) => ∃ index model frontier mask,
        scanned.move = some (index, model, frontier, mask) ∧
          next = (model.value, frontier, mask) ∧
          scanned.frame.pending events = (frame.config, rest) := by
  induction turns generalizing frame with
  | zero => rfl
  | succ turns ih =>
    have left' : turns = cursorEnd - (frame.cursor + 1) := by omega
    have rest := ih { frame with cursor := frame.cursor + 1 } left'
    simp only [movesFrom, scan]
    cases taken : turn events frame with
    | halt boundedOut => rfl
    | pass => exact rest
    | move index model frontier mask =>
      simp only [Search.firstFresh]
      split_ifs with seen
      · exact rest
      · refine ⟨index, model, frontier, mask, rfl, rfl, ?_⟩
        rw [left']
        rfl

theorem loop_eq_linearizable_iff (first : Event) (maxConcurrency budget : ℕ)
    (progress : Progress) :
    loop events first maxConcurrency budget progress = .linearizable ↔
      Search.dfs (moves events) (isDone events) budget progress.visited
        (progress.stack.map (Frame.pending events)) = .found := by
  induction budget generalizing progress with
  | zero =>
    unfold loop
    cases progress.stack with
    | nil =>
      simp only [conclude, List.map_nil, Search.dfs]
      split_ifs <;> simp
    | cons frame rest => simp [Search.dfs]
  | succ budget ih =>
    unfold loop
    cases stackIs : progress.stack with
    | nil =>
      simp only [conclude, List.map_nil, Search.dfs]
      split_ifs <;> simp
    | cons frame rest =>
      have scanned := scan_spec events progress.visited _ frame rfl
      simp only [List.map_cons, Frame.pending, Search.dfs, isDone, Frame.config,
        decide_eq_true_eq]
      by_cases done : frame.frontier = events.length
      · simp [done]
      · rw [if_neg done, if_neg done]
        cases fresh : Search.firstFresh progress.visited
            (movesFrom events (cursorEnd - frame.cursor) frame) with
        | none =>
          rw [fresh] at scanned
          rw [scanned]
          exact ih _
        | some taken =>
          rcases taken with ⟨next, rest'⟩
          rw [fresh] at scanned
          rcases scanned with ⟨index, model, frontier, mask, moved, rfl, pending⟩
          rw [moved]
          refine (ih _).trans ?_
          simp only [enter, List.map_cons, pending_entered, pending, Frame.config]

end Dfs

end ChronoScope.Oracle
