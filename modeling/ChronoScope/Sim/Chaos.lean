import ChronoScope.Sim.State
import Mathlib.Algebra.Order.Ring.Int

/-!
# The fault injector

At every tick it is drawn whether the servers are partitioned, whether one of them
is paused, whether the wall clock of one is stepped and whether one crashes. What
has to be undone is scheduled: a partition heals, a paused node resumes, a crashed
node restarts.

A crash is a power loss: every operation that is pending on one of the node's files
is drawn a fate. Whatever is drawn, what the files become is what `Disk.PowerLoss`
says they may become (`powerLoss_files`).
-/

namespace ChronoScope.Sim.Kernel

open List

variable {P : Parts} (rt : Runtime P)

def below (kernel : Kernel P) (bound : ℕ) : ℕ × Kernel P :=
  let (value, rng) := rt.below kernel.rng bound
  (value, { kernel with rng := rng })

def range (kernel : Kernel P) (lo hi : ℕ) : ℕ × Kernel P :=
  if hi ≤ lo then (lo, kernel)
  else
    let (value, kernel) := kernel.below rt (hi - lo)
    (lo + value, kernel)

def ppm (kernel : Kernel P) (rate : ℕ) : Bool × Kernel P :=
  if rate = 0 then (false, kernel)
  else if rate ≥ 1000000 then (true, kernel)
  else
    let (value, kernel) := kernel.below rt 1000000
    (decide (value < rate), kernel)

def pickIndex (kernel : Kernel P) (len : ℕ) : Option ℕ × Kernel P :=
  if len = 0 then (none, kernel)
  else
    let (index, kernel) := kernel.below rt len
    (some index, kernel)

def swap (items : List NodeId) (i j : ℕ) : List NodeId :=
  (items.set i (items.getD j 0)).set j (items.getD i 0)

/-- Shuffle the elements up to an index. -/
def shuffleUpTo : ℕ → List NodeId → Kernel P → List NodeId × Kernel P
  | 0, items, kernel => (items, kernel)
  | i + 1, items, kernel =>
    let (j, kernel) := kernel.below rt (i + 2)
    shuffleUpTo i (swap items (i + 1) j) kernel

def shuffle (kernel : Kernel P) (items : List NodeId) : List NodeId × Kernel P :=
  shuffleUpTo rt (items.length - 1) items kernel

/-- The bounds of the bucket a number falls into. -/
def bucket : ℕ → List (ℕ × ℕ × ℕ) → Option (ℕ × ℕ)
  | _, [] => none
  | r, (weight, bounds) :: rest => if r < weight then some bounds else bucket (r - weight) rest

def sample (kernel : Kernel P) (dist : LatencyDist) : ℕ × Kernel P :=
  let total := (dist.buckets.map Prod.fst).sum
  if total = 0 then ((dist.buckets.headD (0, 0, 0)).2.1, kernel)
  else
    let (r, kernel) := kernel.below rt total
    let (lo, hi) := (bucket r dist.buckets).getD (dist.buckets.getLastD (0, 0, 0)).2
    kernel.range rt lo hi

/-- What becomes of a pending operation of a file. -/
def drawFate (disk : DiskPolicy) (node : NodeId) (file : ℕ) (kernel : Kernel P) :
    PendingOp → Fate × Kernel P
  | .truncate len =>
    let (lost, kernel) := kernel.ppm rt disk.lostWritePpm
    if lost then (.lost, kernel.record rt (.lostWrite node file len 0)) else (.kept, kernel)
  | .write offset data =>
    let (lost, kernel) := kernel.ppm rt disk.lostWritePpm
    if lost then
      let kernel := { kernel with
        stats := { kernel.stats with lostWrites := kernel.stats.lostWrites + 1 } }
      (.lost, kernel.record rt (.lostWrite node file offset data.length))
    else
      let (torn, kernel) := kernel.ppm rt disk.tornWritePpm
      if torn && decide (data.length > 0) then
        let sector := max disk.sectorSize 1
        let sectors := (offset + data.length - 1) / sector - offset / sector + 1
        let (keepSectors, kernel) := kernel.below rt sectors
        let kernel := { kernel with
          stats := { kernel.stats with tornWrites := kernel.stats.tornWrites + 1 } }
        let kept := keepBytes sector offset data.length keepSectors
        (.torn keepSectors, kernel.record rt (.tornWrite node file offset kept data.length))
      else (.kept, kernel)

def landPending (disk : DiskPolicy) (node : NodeId) (file : ℕ) :
    List PendingOp → List UInt8 → Kernel P → List UInt8 × Kernel P
  | [], durable, kernel => (durable, kernel)
  | op :: rest, durable, kernel =>
    let (fate, kernel) := kernel.drawFate rt disk node file op
    landPending disk node file rest (op.land (max disk.sectorSize 1) durable fate) kernel

/-- The pending operations of a node's files meet their fates, one file after the other. -/
def loseFiles (disk : DiskPolicy) (node : NodeId) :
    List (String × FileState) → Disk String → Kernel P → Disk String × Kernel P
  | [], files, kernel => (files, kernel)
  | (name, file) :: rest, files, kernel =>
    let (image, kernel) :=
      landPending rt disk node (rt.fileId name) file.pending file.durable kernel
    loseFiles disk node rest (files.insert name (.rebooted image)) kernel

/-- Apply power loss to every write on a node that is not covered by an `fsync`. -/
def powerLoss (kernel : Kernel P) (id : NodeId) : Kernel P :=
  match kernel.nodes.get id with
  | none => kernel
  | some node =>
    let (files, kernel) := loseFiles rt kernel.policy.disk id node.files.toList node.files kernel
    { kernel with nodes := kernel.nodes.insert id { node with files := files } }

def crashInLock (kernel : Kernel P) (id : NodeId) : Kernel P :=
  match kernel.nodes.get id with
  | none => kernel
  | some node =>
    if !node.up then kernel
    else
      let crashed := { node with up := false, paused := false, mailbox := [], recvWaiters := [] }
      let kernel := { kernel with
        nodes := kernel.nodes.insert id crashed
        stats := { kernel.stats with crashes := kernel.stats.crashes + 1 } }
      let kernel := kernel.record rt (.crash id)
      let doomed := (kernel.tasks.toList.filter fun task => task.2.node = id).map Prod.fst
      let kernel := { kernel with
        tasks := doomed.foldl BTreeMap.remove kernel.tasks
        ready := kernel.ready.filter fun task => !doomed.contains task }
      kernel.powerLoss rt id

def servers (kernel : Kernel P) : List NodeId :=
  (kernel.nodes.toList.filter fun node => node.2.role = .server).map Prod.fst

def blockLink (kernel : Kernel P) (link : NodeId × NodeId) : Kernel P :=
  { kernel with blocked :=
      kernel.blocked.insert (toLex link) ((kernel.blocked.get (toLex link)).getD 0 + 1) }

/-- The links that are cut between two nodes. -/
def linksBetween (oneWay : Bool) (pair : NodeId × NodeId) : List (NodeId × NodeId) :=
  if oneWay then [pair] else [pair, pair.swap]

def cutPair (oneWay : Bool) (kernel : Kernel P) (pair : NodeId × NodeId) : Kernel P :=
  ((linksBetween oneWay pair).foldl blockLink kernel).record rt
    (.partition pair.1 pair.2 oneWay)

/-- Cut two groups of nodes off each other for a while. -/
def cutGroups (groupA groupB : List NodeId) (oneWay : Bool) (kernel : Kernel P) : Kernel P :=
  let pairs := groupA.product groupB
  let kernel := pairs.foldl (cutPair rt oneWay) kernel
  let kernel := { kernel with
    stats := { kernel.stats with partitions := kernel.stats.partitions + 1 } }
  let (dur, kernel) := kernel.sample rt kernel.policy.chaos.partitionDuration
  kernel.schedule rt dur (.heal (pairs.flatMap (linksBetween oneWay)))

/-- A part of the servers is drawn and cut off the others. -/
def partitionServers (servers : List NodeId) (kernel : Kernel P) : Kernel P :=
  let (shuffled, kernel) := kernel.shuffle rt servers
  let (cut, kernel) := kernel.range rt 1 shuffled.length
  let (oneWay, kernel) := kernel.ppm rt kernel.policy.chaos.asymmetricPpm
  cutGroups rt (shuffled.take cut) (shuffled.drop cut) oneWay kernel

def pauseServer (servers : List NodeId) (kernel : Kernel P) : Kernel P :=
  let candidates := servers.filter fun id =>
    (kernel.nodes.get id).any fun node => node.up && !node.paused
  match kernel.pickIndex rt candidates.length with
  | (none, kernel) => kernel
  | (some index, kernel) =>
    let id := candidates.getD index 0
    let (dur, kernel) := kernel.sample rt kernel.policy.chaos.pauseDuration
    let kernel := { kernel with
      nodes := kernel.nodes.modify id fun node => { node with paused := true }
      stats := { kernel.stats with pauses := kernel.stats.pauses + 1 } }
    let kernel := kernel.record rt (.pause id (min (kernel.now + dur) (2 ^ 64 - 1)))
    kernel.schedule rt dur (.resume id)

def stepClock (servers : List NodeId) (kernel : Kernel P) : Kernel P :=
  let maxStep := kernel.policy.clock.maxStep
  if maxStep > 0 then
    match kernel.pickIndex rt servers.length with
    | (none, kernel) => kernel
    | (some index, kernel) =>
      let id := servers.getD index 0
      let (drawn, kernel) := kernel.range rt 0 (2 * maxStep + 1)
      let delta : ℤ := drawn - maxStep
      let kernel := { kernel with
        nodes := kernel.nodes.modify id fun node =>
          { node with skew := max (-2 ^ 63) (min (node.skew + delta) (2 ^ 63 - 1)) } }
      kernel.record rt (.clockStep id delta)
  else kernel

def crashServer (servers : List NodeId) (kernel : Kernel P) : Kernel P :=
  let alive := servers.filter fun id => (kernel.nodes.get id).any NodeState.up
  if alive.length > kernel.policy.chaos.minAlive then
    match kernel.pickIndex rt alive.length with
    | (none, kernel) => kernel
    | (some index, kernel) =>
      let id := alive.getD index 0
      let kernel := kernel.crashInLock rt id
      let (delay, kernel) := kernel.sample rt kernel.policy.chaos.restartDelay
      kernel.schedule rt delay (.restart id)
  else kernel

/-- A fault that happens so often in a million seconds. -/
def strike (ratePerSec : ℕ) (fault : Kernel P → Kernel P) (kernel : Kernel P) : Kernel P :=
  let rate := min (ratePerSec * kernel.policy.chaosTick / 1000000000) 1000000
  let (strikes, kernel) := kernel.ppm rt rate
  if strikes then fault kernel else kernel

/-- Draw the faults of a tick. The result is the delay until the next one. -/
def chaosTick (kernel : Kernel P) : ℕ × Kernel P :=
  let tick := kernel.policy.chaosTick
  if !kernel.chaosOn then (tick, kernel)
  else
    let chaos := kernel.policy.chaos
    let clock := kernel.policy.clock
    let servers := kernel.servers
    if servers.length < 2 then (tick, kernel)
    else
      let kernel := strike rt chaos.partitionPpmPerSec (partitionServers rt servers) kernel
      let kernel := strike rt chaos.pausePpmPerSec (pauseServer rt servers) kernel
      let kernel := strike rt clock.stepPpmPerSec (stepClock rt servers) kernel
      let kernel := strike rt chaos.crashPpmPerSec (crashServer rt servers) kernel
      (tick, kernel)

/-- Draws and records leave everything else as it is. -/
def Noted (kernel after : Kernel P) : Prop :=
  ∃ rng stats trace, after = { kernel with rng := rng, stats := stats, trace := trace }

namespace Noted

variable {kernel middle after : Kernel P}

theorem refl (kernel : Kernel P) : Noted kernel kernel := ⟨_, _, _, rfl⟩

theorem trans (first : Noted kernel middle) (second : Noted middle after) :
    Noted kernel after := by
  rcases first with ⟨_, _, _, rfl⟩
  rcases second with ⟨rng, stats, trace, rfl⟩
  exact ⟨rng, stats, trace, rfl⟩

theorem below (kernel : Kernel P) (bound : ℕ) : Noted kernel (kernel.below rt bound).2 :=
  ⟨_, _, _, rfl⟩

theorem range (kernel : Kernel P) (lo hi : ℕ) : Noted kernel (kernel.range rt lo hi).2 := by
  unfold Kernel.range
  split_ifs
  · exact .refl kernel
  · exact .below rt kernel _

theorem ppm (kernel : Kernel P) (rate : ℕ) : Noted kernel (kernel.ppm rt rate).2 := by
  unfold Kernel.ppm
  split_ifs
  · exact .refl kernel
  · exact .refl kernel
  · exact .below rt kernel _

theorem pickIndex (kernel : Kernel P) (len : ℕ) : Noted kernel (kernel.pickIndex rt len).2 := by
  unfold Kernel.pickIndex
  split_ifs
  · exact .refl kernel
  · exact .below rt kernel _

theorem shuffleUpTo (i : ℕ) (items : List NodeId) (kernel : Kernel P) :
    Noted kernel (Kernel.shuffleUpTo rt i items kernel).2 := by
  induction i generalizing items kernel with
  | zero => exact .refl kernel
  | succ i ih => exact (below rt kernel _).trans (ih _ _)

theorem sample (kernel : Kernel P) (dist : LatencyDist) :
    Noted kernel (kernel.sample rt dist).2 := by
  unfold Kernel.sample
  dsimp only
  split_ifs
  · exact .refl kernel
  · exact (below rt kernel _).trans (.range rt _ _ _)

end Noted

section PowerLoss

variable {rt} {disk : DiskPolicy} {node : NodeId} {file : ℕ} {kernel : Kernel P}

theorem drawFate_noted (kernel : Kernel P) (op : PendingOp) :
    Noted kernel (kernel.drawFate rt disk node file op).2 := by
  have drawn := Noted.ppm rt kernel disk.lostWritePpm
  cases op with
  | truncate len =>
    unfold drawFate
    dsimp only
    split_ifs
    · exact drawn.trans ⟨_, _, _, rfl⟩
    · exact drawn
  | write offset data =>
    have tears := drawn.trans (.ppm rt _ disk.tornWritePpm)
    unfold drawFate
    dsimp only
    split_ifs
    · exact drawn.trans ⟨_, _, _, rfl⟩
    · exact tears.trans ⟨_, _, _, rfl⟩
    · exact tears

theorem landPending_noted (ops : List PendingOp) (durable : List UInt8) (kernel : Kernel P) :
    Noted kernel (landPending rt disk node file ops durable kernel).2 := by
  induction ops generalizing durable kernel with
  | nil => exact .refl kernel
  | cons op rest ih => exact (drawFate_noted kernel op).trans (ih _ _)

theorem loseFiles_noted (bindings : List (String × FileState)) (files : Disk String)
    (kernel : Kernel P) : Noted kernel (loseFiles rt disk node bindings files kernel).2 := by
  induction bindings generalizing files kernel with
  | nil => exact .refl kernel
  | cons binding rest ih => exact (landPending_noted _ _ kernel).trans (ih _ _)

variable (below_lt : ∀ rng bound, 0 < bound → (rt.below rng bound).1 < bound)

include below_lt

theorem drawFate_possible (kernel : Kernel P) (op : PendingOp) :
    (kernel.drawFate rt disk node file op).1.Possible (max disk.sectorSize 1) op := by
  cases op with
  | truncate len =>
    unfold drawFate
    dsimp only
    split_ifs <;> trivial
  | write offset data =>
    unfold drawFate
    dsimp only
    split_ifs with lost torn
    · trivial
    · rw [Bool.and_eq_true, decide_eq_true_iff] at torn
      exact ⟨torn.2, below_lt _ _ (Nat.succ_pos _)⟩
    · trivial

theorem landPending_lands (ops : List PendingOp) (durable : List UInt8) (kernel : Kernel P) :
    Lands (max disk.sectorSize 1) ops durable
      (landPending rt disk node file ops durable kernel).1 := by
  induction ops generalizing durable kernel with
  | nil => exact .done durable
  | cons op rest ih => exact .next _ (drawFate_possible below_lt kernel op) (ih _ _)

theorem loseFiles_lands {bindings : List (String × FileState)}
    (distinct : (bindings.map Prod.fst).Nodup) (files : Disk String) (kernel : Kernel P) :
    (∀ name ∉ bindings.map Prod.fst,
      (loseFiles rt disk node bindings files kernel).1.get name = files.get name) ∧
      ∀ binding ∈ bindings, ∃ image,
        Lands (max disk.sectorSize 1) binding.2.pending binding.2.durable image ∧
          (loseFiles rt disk node bindings files kernel).1.get binding.1 =
            some (.rebooted image) := by
  induction bindings generalizing files kernel with
  | nil => simp [loseFiles]
  | cons binding rest ih =>
    rcases binding with ⟨name, file⟩
    rw [map_cons, nodup_cons] at distinct
    rcases ih distinct.2 _ _ with ⟨kept, lost⟩
    refine ⟨?_, ?_⟩
    · intro other notIn
      rw [map_cons, mem_cons, not_or] at notIn
      exact (kept other notIn.2).trans (by rw [BTreeMap.get_insert, if_neg notIn.1])
    · intro binding isIn
      rcases mem_cons.1 isIn with rfl | isIn
      · refine ⟨(landPending rt disk node (rt.fileId name) file.pending file.durable kernel).1,
          landPending_lands below_lt .., ?_⟩
        exact (kept name distinct.1).trans (by rw [BTreeMap.get_insert, if_pos rfl])
      · exact lost binding isIn

/-- The files of a node that loses power become what power loss may leave of them, and nothing else
changes about the nodes. -/
theorem powerLoss_files {state : NodeState} (found : kernel.nodes.get node = some state) :
    ∃ files, Disk.PowerLoss kernel.policy.disk.sectorSize state.files files ∧
      (kernel.powerLoss rt node).nodes =
        kernel.nodes.insert node { state with files := files } := by
  have distinct : (state.files.toList.map Prod.fst).Nodup := state.files.keys_sorted.imp ne_of_lt
  rcases loseFiles_lands below_lt distinct state.files kernel with ⟨kept, lost⟩
  have noted : Noted kernel
      (loseFiles rt kernel.policy.disk node state.files.toList state.files kernel).2 :=
    loseFiles_noted ..
  refine ⟨(loseFiles rt kernel.policy.disk node state.files.toList state.files kernel).1, ?_, ?_⟩
  · intro name
    cases known : state.files.get name with
    | none =>
      have notIn : name ∉ state.files.keys := by
        simp [BTreeMap.mem_keys, known]
      exact (kept name notIn).trans known
    | some file => exact lost (name, file) (BTreeMap.mem_toList.2 known)
  · rcases noted with ⟨rng, stats, trace, same⟩
    simp only [powerLoss, found, same]

end PowerLoss

end ChronoScope.Sim.Kernel
