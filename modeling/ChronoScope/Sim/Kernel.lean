import ChronoScope.Sim.Chaos

/-!
# The simulation kernel

One thread, one clock, one source of randomness. As long as a task is runnable,
one of them is drawn and polled; otherwise virtual time jumps to the next timer,
which is fired. The run ends at the horizon, or when nothing is left to do, or
when something stops it.

What a poll does to the kernel is up to the task, and likewise for booting a node.
All that is assumed of them is that they are functions of the state they find
(`Runtime`). Where a run is cut then makes no difference: running to one horizon
and on to a later one is the same as running to the later one at once
(`runUntil_split`). A cut falls between two timers, when no task is runnable. All
it leaves behind is the time, which the next timer or the next horizon overwrites,
and a ready set that has been cleaned up, which it would have been anyway.
-/

namespace ChronoScope.Sim

inductive Outcome where
  | quiesced
  | horizonReached
  | stopped
  | livelock (polls : ℕ)
  | panicked (node : NodeId) (message : String)
  deriving DecidableEq

/-- The run came to its end by itself. -/
def Outcome.Undisturbed (outcome : Outcome) : Prop :=
  outcome = .horizonReached ∨ outcome = .quiesced

namespace Kernel

variable {P : Parts} (rt : Runtime P)

def markReady (kernel : Kernel P) (id : TaskId) : Kernel P :=
  { kernel with ready := kernel.ready.insert id }

/-- A task is runnable if it exists and its node is up and not frozen. -/
def isRunnable (kernel : Kernel P) (id : TaskId) : Bool :=
  match kernel.tasks.get id with
  | none => false
  | some slot =>
    match kernel.nodes.get slot.node with
    | none => false
    | some node => node.up && !node.paused

def runnable (kernel : Kernel P) : List TaskId := kernel.ready.toList.filter kernel.isRunnable

/-- Pick the next task to poll. If there is none, entries for tasks that no longer exist are
removed. -/
def pickRunnable (kernel : Kernel P) : Option TaskId × Kernel P :=
  match kernel.runnable with
  | [] => (none, { kernel with
      ready := kernel.ready.filter fun id => (kernel.tasks.get id).isSome })
  | first :: others =>
    let (index, rng) := rt.below kernel.rng (others.length + 1)
    let id := (first :: others).getD index first
    (some id, { kernel with rng := rng, ready := kernel.ready.filter fun other => other != id })

def pollTask (kernel : Kernel P) (id : TaskId) : Kernel P :=
  match kernel.tasks.get id with
  | none => kernel
  | some slot =>
    match slot.fut with
    | none => kernel
    | some fut =>
      let kernel := { kernel with
        tasks := kernel.tasks.insert id { slot with fut := none }
        current := some id
        stats := { kernel.stats with polls := kernel.stats.polls + 1 } }
      let kernel := kernel.record rt (.poll slot.node id)
      let (polled, kernel) := rt.poll id fut kernel
      let kernel := { kernel with current := none }
      match polled with
      | .ready =>
        { kernel with tasks := kernel.tasks.remove id }.record rt (.taskDone slot.node id)
      | .pending fut =>
        { kernel with tasks := kernel.tasks.modify id fun slot =>
          { slot with fut := some fut } }
      | .panicked message =>
        { kernel with
          tasks := kernel.tasks.remove id
          panicMsg := some (slot.node, message) }

/-- Take timers of one instant from the heap, at most so many. -/
def popTied (due : ℕ) : ℕ → P.Heap → List Timer × P.Heap
  | 0, heap => ([], heap)
  | bound + 1, heap =>
    match rt.peek heap with
    | none => ([], heap)
    | some first =>
      if first.due = due then
        match rt.pop heap with
        | none => ([], heap)
        | some (timer, heap) =>
          let (others, heap) := popTied due bound heap
          (timer :: others, heap)
      else ([], heap)

/-- Remove an element; the last one takes its place. -/
def swapRemove {α : Type} (items : List α) (index : ℕ) : List α :=
  match items.getLast? with
  | none => []
  | some last => (items.set index last).dropLast

/-- Pop the next timer, advancing virtual time to meet it. Among timers of one instant it is drawn
at random. -/
def nextTimer (kernel : Kernel P) (horizon : ℕ) : Option Timer × Kernel P :=
  match rt.peek kernel.timers with
  | none => (none, kernel)
  | some next =>
    if next.due > horizon then (none, { kernel with now := horizon })
    else
      match popTied rt next.due 64 kernel.timers with
      | ([], heap) => (none, { kernel with timers := heap })
      | (first :: others, heap) =>
        let (index, rng) := if others.isEmpty then (0, kernel.rng)
          else rt.below kernel.rng (others.length + 1)
        let chosen := (first :: others).getD index first
        (some chosen, { kernel with
          rng := rng
          timers := (swapRemove (first :: others) index).foldl rt.push heap
          now := next.due })

/-- Bring a node up and run its entry point, unless it is up already. -/
def bootNode (kernel : Kernel P) (id : NodeId) : Kernel P :=
  match kernel.nodes.get id with
  | none => kernel
  | some node =>
    if node.up then kernel
    else
      let booted := { node with up := true, paused := false, boots := node.boots + 1 }
      let kernel := { kernel with nodes := kernel.nodes.insert id booted }
      let kernel := if node.boots = 0 then kernel.record rt (.boot id)
        else
          let kernel := kernel.record rt (.restart id)
          { kernel with stats := { kernel.stats with restarts := kernel.stats.restarts + 1 } }
      rt.boot id kernel

def dropNodeDown (kernel : Kernel P) (sender receiver : NodeId) (msg : ℕ) : Kernel P :=
  { kernel with
    stats := { kernel.stats with msgsDropped := kernel.stats.msgsDropped + 1 } }.record rt
      (.droppedNodeDown sender receiver msg)

def deliver (kernel : Kernel P) (sender receiver : NodeId) (msg : ℕ) (payload : List UInt8) :
    Kernel P :=
  match kernel.nodes.get receiver with
  | none => kernel.dropNodeDown rt sender receiver msg
  | some node =>
    if !node.up then kernel.dropNodeDown rt sender receiver msg
    else
      let kernel := { kernel with
        stats := { kernel.stats with msgsDelivered := kernel.stats.msgsDelivered + 1 } }
      let kernel := kernel.record rt (.deliver sender receiver msg payload.length)
      let envelope : Envelope :=
        { sender := sender, receiver := receiver, payload := payload, msgId := msg }
      let woken := { node with mailbox := node.mailbox ++ [envelope], recvWaiters := [] }
      let kernel := { kernel with nodes := kernel.nodes.insert receiver woken }
      node.recvWaiters.foldl markReady kernel

/-- Take one partition off a link; the link heals with the last one. -/
def healLink (kernel : Kernel P) (link : NodeId × NodeId) : Kernel P :=
  match kernel.blocked.get (toLex link) with
  | none => kernel
  | some count =>
    if count - 1 = 0 then
      { kernel with blocked := kernel.blocked.remove (toLex link) }.record rt
        (.heal link.1 link.2)
    else { kernel with blocked := kernel.blocked.insert (toLex link) (count - 1) }

def fireSlot (kernel : Kernel P) (slot : ℕ) : Kernel P :=
  match kernel.slots.get slot with
  | none => kernel
  | some state =>
    let kernel := { kernel with
      slots := kernel.slots.insert slot { fired := true, waker := none } }
    match state.waker with
    | none => kernel
    | some task => kernel.markReady task

def resume (kernel : Kernel P) (id : NodeId) : Kernel P :=
  match kernel.nodes.get id with
  | none => kernel
  | some node =>
    if node.paused then
      { kernel with nodes := kernel.nodes.insert id { node with paused := false } }.record rt
        (.resume id)
    else kernel

def fire (kernel : Kernel P) (timer : Timer) : Kernel P :=
  let kernel := { kernel with seq := timer.seq }
  match timer.action with
  | .fire slot => kernel.fireSlot slot
  | .deliver sender receiver msg payload => kernel.deliver rt sender receiver msg payload
  | .chaosTick =>
    let (delay, kernel) := kernel.chaosTick rt
    kernel.schedule rt delay .chaosTick
  | .restart node => kernel.bootNode rt node
  | .heal links => links.foldl (healLink rt) kernel
  | .resume node => kernel.resume rt node

def livelockBudget : ℕ := 2000000

/-- Up to so many iterations of the loop, with so many polls since time last moved. -/
def loop (horizon : ℕ) : ℕ → ℕ → Kernel P → Option (Outcome × Kernel P)
  | 0, _, _ => none
  | fuel + 1, polls, kernel =>
    if kernel.stop then some (.stopped, kernel)
    else
      match kernel.panicMsg with
      | some (node, message) => some (.panicked node message, { kernel with panicMsg := none })
      | none =>
        match kernel.pickRunnable rt with
        | (some id, kernel) =>
          let kernel := kernel.pollTask rt id
          if polls + 1 > livelockBudget then some (.livelock (polls + 1), kernel)
          else loop horizon fuel (polls + 1) kernel
        | (none, kernel) =>
          match kernel.nextTimer rt horizon with
          | (some timer, kernel) => loop horizon fuel 0 (kernel.fire rt timer)
          | (none, kernel) =>
            some (if kernel.now ≥ horizon then .horizonReached else .quiesced, kernel)

/-- Run until the horizon, or until something ends the run, if that takes at most so many
iterations. -/
def runUntil (horizon fuel : ℕ) (kernel : Kernel P) : Option (Outcome × Kernel P) :=
  loop rt horizon fuel 0 kernel

variable {rt}

variable {after kernel : Kernel P} {next : Timer}

theorem popTied_of_peek {heap : P.Heap} (peeks : rt.peek heap = some next)
    (bound : ℕ) :
    ∃ others rest, popTied rt next.due (bound + 1) heap = (next :: others, rest) := by
  rcases rt.pop_of_peek _ _ peeks with ⟨rest, pops⟩
  simp [popTied, peeks, pops]

theorem nextTimer_of_due
    (peeks : rt.peek kernel.timers = some next) :
    ∃ timer rng timers, ∀ horizon time, next.due ≤ horizon →
      { kernel with now := time }.nextTimer rt horizon =
        (some timer, { kernel with rng := rng, timers := timers, now := next.due }) := by
  rcases popTied_of_peek peeks 63 with ⟨others, rest, pops⟩
  let draw := if others.isEmpty then (0, kernel.rng) else rt.below kernel.rng (others.length + 1)
  refine ⟨(next :: others).getD draw.1 next, draw.2,
    (swapRemove (next :: others) draw.1).foldl rt.push rest, fun horizon time due => ?_⟩
  simp only [nextTimer, peeks, if_neg (Nat.not_lt.mpr due), pops, draw]

theorem nextTimer_now (peeks : rt.peek kernel.timers = some next)
    (horizon time : ℕ) :
    { kernel with now := time }.nextTimer rt horizon = kernel.nextTimer rt horizon := by
  by_cases due : next.due ≤ horizon
  · rcases nextTimer_of_due peeks with ⟨timer, rng, timers, fires⟩
    exact (fires horizon time due).trans (fires horizon kernel.now due).symm
  · simp only [nextTimer, peeks, if_pos (Nat.not_le.mp due)]

theorem pickRunnable_again
    (idle : kernel.pickRunnable rt = (none, after)) (time : ℕ) :
    { after with now := time }.pickRunnable rt = (none, { after with now := time }) := by
  unfold pickRunnable at idle
  cases runs : kernel.runnable with
  | cons first others =>
    rw [runs] at idle
    cases idle
  | nil =>
    rw [runs] at idle
    cases idle
    have stillNone : runnable { kernel with
        ready := kernel.ready.filter fun id => (kernel.tasks.get id).isSome, now := time } =
          [] := by
      have fewer : runnable { kernel with
          ready := kernel.ready.filter fun id => (kernel.tasks.get id).isSome, now := time } =
            kernel.runnable.filter fun id => (kernel.tasks.get id).isSome := by
        simp only [runnable, BTreeSet.filter, List.filter_filter]
        congr 1
        funext id
        exact Bool.and_comm _ _
      rw [fewer, runs, List.filter_nil]
    unfold pickRunnable
    rw [stillNone]
    simp

theorem loop_idle (going : kernel.stop = false)
    (calm : kernel.panicMsg = none) (idle : kernel.pickRunnable rt = (none, after))
    (horizon fuel polls : ℕ) :
    loop rt horizon (fuel + 1) polls kernel =
      match after.nextTimer rt horizon with
      | (some timer, kernel) => loop rt horizon fuel 0 (kernel.fire rt timer)
      | (none, kernel) =>
        some (if kernel.now ≥ horizon then .horizonReached else .quiesced, kernel) := by
  rw [loop]
  simp [going, calm, idle]

theorem loop_busy {id : TaskId} (going : kernel.stop = false)
    (calm : kernel.panicMsg = none) (picks : kernel.pickRunnable rt = (some id, after))
    (horizon fuel polls : ℕ) :
    loop rt horizon (fuel + 1) polls kernel =
      if polls + 1 > livelockBudget then some (.livelock (polls + 1), after.pollTask rt id)
      else loop rt horizon fuel (polls + 1) (after.pollTask rt id) := by
  rw [loop]
  simp [going, calm, picks]

variable {horizon : ℕ}

theorem loop_resume (going : kernel.stop = false) (calm : kernel.panicMsg = none)
    (idle : kernel.pickRunnable rt = (none, after))
    (later : ∀ next, rt.peek after.timers = some next → horizon < next.due)
    (target fuel polls : ℕ) :
    ∃ first middle, first.Undisturbed ∧
      loop rt horizon 1 polls kernel = some (first, middle) ∧
      loop rt target (fuel + 1) 0 middle = loop rt target (fuel + 1) polls kernel := by
  have kept : after.stop = false ∧ after.panicMsg = none := by
    unfold pickRunnable at idle
    split at idle <;> cases idle
    exact ⟨going, calm⟩
  cases peeks : rt.peek after.timers with
  | none =>
    have stuck (horizon : ℕ) : after.nextTimer rt horizon = (none, after) := by
      rw [nextTimer, peeks]
    refine ⟨_, after, ?_, by rw [loop_idle going calm idle, stuck], ?_⟩
    · unfold Outcome.Undisturbed
      split_ifs <;> simp
    · rw [loop_idle going calm idle, loop_idle kept.1 kept.2 (pickRunnable_again idle after.now)]
  | some next =>
    have waits : after.nextTimer rt horizon = (none, { after with now := horizon }) := by
      rw [nextTimer, peeks]
      simp only [if_pos (later next peeks)]
    refine ⟨.horizonReached, { after with now := horizon }, Or.inl rfl, ?_, ?_⟩
    · rw [loop_idle going calm idle, waits]
      simp
    · have stillGoing : ({ after with now := horizon } : Kernel P).stop = false := kept.1
      rw [loop_idle going calm idle,
        loop_idle stillGoing kept.2 (pickRunnable_again idle horizon),
        nextTimer_now peeks]

/-- Every run that comes to its end by itself can be cut at any horizon before. -/
theorem loop_split {target : ℕ} (order : horizon ≤ target) {fuel polls : ℕ} {final : Kernel P}
    {outcome : Outcome} (whole : loop rt target fuel polls kernel = some (outcome, final))
    (undisturbed : outcome.Undisturbed) :
    ∃ before behind first middle, first.Undisturbed ∧
      loop rt horizon before polls kernel = some (first, middle) ∧
      loop rt target behind 0 middle = some (outcome, final) := by
  induction fuel generalizing polls kernel with
  | zero => cases whole
  | succ fuel ih =>
    cases going : kernel.stop with
    | true =>
      simp only [loop, going, if_true] at whole
      cases whole
      rcases undisturbed with impossible | impossible <;> cases impossible
    | false =>
    cases calm : kernel.panicMsg with
    | some message =>
      simp only [loop, going, calm] at whole
      cases whole
      rcases undisturbed with impossible | impossible <;> cases impossible
    | none =>
    rcases picks : kernel.pickRunnable rt with ⟨_ | id, after⟩
    · -- Nothing to poll: the run goes on with a timer, which may be due before the cut or not.
      by_cases due : ∃ next, rt.peek after.timers = some next ∧ next.due ≤ horizon
      · rcases due with ⟨next, peeks, due⟩
        rcases nextTimer_of_due peeks with ⟨timer, rng, timers, fires⟩
        rw [loop_idle going calm picks, fires target after.now (due.trans order)] at whole
        rcases ih whole with ⟨before, behind, first, middle, calmFirst, ran, continued⟩
        refine ⟨before + 1, behind, first, middle, calmFirst, ?_, continued⟩
        rw [loop_idle going calm picks, fires horizon after.now due]
        exact ran
      · have later : ∀ next, rt.peek after.timers = some next → horizon < next.due := by
          intro next peeks
          by_contra early
          exact due ⟨next, peeks, Nat.not_lt.mp early⟩
        rcases loop_resume going calm picks later target fuel polls with
          ⟨first, middle, calmFirst, ran, continued⟩
        exact ⟨1, fuel + 1, first, middle, calmFirst, ran, continued.trans whole⟩
    · rw [loop_busy going calm picks] at whole
      split_ifs at whole with busy
      · cases whole
        rcases undisturbed with impossible | impossible <;> cases impossible
      · rcases ih whole with ⟨before, behind, first, middle, calmFirst, ran, continued⟩
        refine ⟨before + 1, behind, first, middle, calmFirst, ?_, continued⟩
        rw [loop_busy going calm picks, if_neg busy]
        exact ran

theorem loop_mono {fuel enough polls : ℕ} {ended : Outcome × Kernel P}
    (ran : loop rt horizon enough polls kernel = some ended) (more : enough ≤ fuel) :
    loop rt horizon fuel polls kernel = some ended := by
  induction enough generalizing fuel polls kernel with
  | zero => cases ran
  | succ enough ih =>
    obtain ⟨fuel, rfl⟩ := Nat.exists_eq_add_of_le' (Nat.one_le_of_lt more)
    cases going : kernel.stop with
    | true => simpa [loop, going] using ran
    | false =>
    cases calm : kernel.panicMsg with
    | some message => simpa [loop, going, calm] using ran
    | none =>
    rcases picks : kernel.pickRunnable rt with ⟨_ | id, after⟩
    · rw [loop_idle going calm picks] at ran ⊢
      rcases fires : after.nextTimer rt horizon with ⟨_ | timer, fired⟩
      · rw [fires] at ran
        exact ran
      · rw [fires] at ran
        exact ih ran (by omega)
    · rw [loop_busy going calm picks] at ran ⊢
      split_ifs at ran ⊢
      · exact ran
      · exact ih ran (by omega)

/-- What polling and firing keep holds when the loop comes to its end, which is the last state, or
what is left when there is nothing to poll and nothing due. -/
theorem loop_keeps {motive : Kernel P → Prop} {fuel polls : ℕ} {outcome : Outcome}
    (ran : loop rt horizon fuel polls kernel = some (outcome, after))
    (poll : ∀ {kernel picked id}, motive kernel → kernel.pickRunnable rt = (some id, picked) →
      motive (picked.pollTask rt id))
    (fire : ∀ {kernel picked popped timer}, motive kernel →
      kernel.pickRunnable rt = (none, picked) →
      picked.nextTimer rt horizon = (some timer, popped) → motive (popped.fire rt timer))
    (start : motive kernel) :
    ∃ last, motive last ∧
      (¬outcome.Undisturbed ∧ (after = last ∨ after = { last with panicMsg := none }) ∨
        ∃ picked, last.pickRunnable rt = (none, picked) ∧
          picked.nextTimer rt horizon = (none, after)) := by
  induction fuel generalizing polls kernel with
  | zero => cases ran
  | succ fuel ih =>
    cases going : kernel.stop with
    | true =>
      simp only [loop, going, if_true] at ran
      cases ran
      exact ⟨_, start, Or.inl ⟨by simp [Outcome.Undisturbed], Or.inl rfl⟩⟩
    | false =>
    cases calm : kernel.panicMsg with
    | some report =>
      simp only [loop, going, calm] at ran
      cases ran
      exact ⟨_, start, Or.inl ⟨by simp [Outcome.Undisturbed], Or.inr (by rw [going])⟩⟩
    | none =>
    rcases picks : kernel.pickRunnable rt with ⟨_ | id, picked⟩
    · rw [loop_idle going calm picks] at ran
      rcases takes : picked.nextTimer rt horizon with ⟨_ | timer, popped⟩
      · rw [takes] at ran
        cases ran
        exact ⟨_, start, Or.inr ⟨picked, picks, takes⟩⟩
      · rw [takes] at ran
        exact ih ran (fire start picks takes)
    · rw [loop_busy going calm picks] at ran
      split_ifs at ran
      · cases ran
        exact ⟨_, poll start picks, Or.inl ⟨by simp [Outcome.Undisturbed], Or.inl rfl⟩⟩
      · exact ih ran (poll start picks)

/-- A run to a horizon that comes to its end by itself can be cut at any earlier horizon: running
to the cut and on from there takes the kernel to the same state. -/
theorem runUntil_split (rt : Runtime P) (kernel : Kernel P) {horizon target : ℕ}
    (order : horizon ≤ target) {fuel : ℕ} {outcome : Outcome} {final : Kernel P}
    (whole : kernel.runUntil rt target fuel = some (outcome, final))
    (undisturbed : outcome.Undisturbed) :
    ∃ enough first middle, ∀ fuel ≥ enough,
      kernel.runUntil rt horizon fuel = some (first, middle) ∧
        middle.runUntil rt target fuel = some (outcome, final) := by
  rcases loop_split order whole undisturbed with
    ⟨before, behind, first, middle, _, ran, continued⟩
  refine ⟨max before behind, first, middle, fun fuel more => ?_⟩
  exact ⟨loop_mono ran (by omega), loop_mono continued (by omega)⟩

/-! A kernel with nothing but a task that is done at once and the ticks of the fault injector. -/

abbrev clockwork : Parts where
  Future := Unit
  Rng := ℕ
  Recorder := List (ℕ × ℕ × Event)
  Heap := List Timer
  Rest := Unit

def ticking : Runtime clockwork where
  below rng bound := (rng % bound, rng + 1)
  record trace now seq event := trace ++ [(now, seq, event)]
  peek heap := heap.head?
  pop
    | [] => none
    | timer :: rest => some (timer, rest)
  push heap timer :=
    heap.takeWhile (fun other => other.due ≤ timer.due) ++
      timer :: heap.dropWhile fun other => other.due ≤ timer.due
  pop_of_peek heap timer peeks := by
    cases heap with
    | nil => cases peeks
    | cons first rest =>
      cases peeks
      exact ⟨rest, rfl⟩
  poll _ _ kernel := (.ready, kernel)
  boot _ kernel := kernel
  fileId _ := 0

def wound : Kernel clockwork where
  now := 0
  seq := 1
  timers := [{ due := 3, seq := 1, action := .chaosTick }]
  tasks := .insert ∅ 1 { node := 0, fut := some () }
  ready := .ofList [1, 7]
  current := none
  rng := 0
  trace := []
  nodes := .insert ∅ 0
    { role := .server, up := true, paused := false, mailbox := [], recvWaiters := [], files := ∅,
      skew := 0, boots := 1 }
  blocked := ∅
  slots := ∅
  stats :=
    { polls := 0, msgsDelivered := 0, msgsDropped := 0, tornWrites := 0, lostWrites := 0,
      crashes := 0, restarts := 0, partitions := 0, pauses := 0, events := 0 }
  policy :=
    { disk := { sectorSize := 4096, tornWritePpm := 0, lostWritePpm := 0 }
      clock := { stepPpmPerSec := 0, maxStep := 0 }
      chaos :=
        { partitionPpmPerSec := 0, partitionDuration := ⟨[(1, 0, 1)]⟩, asymmetricPpm := 0,
          crashPpmPerSec := 0, restartDelay := ⟨[(1, 0, 1)]⟩, pausePpmPerSec := 0,
          pauseDuration := ⟨[(1, 0, 1)]⟩, minAlive := 0 }
      chaosTick := 10 }
  chaosOn := true
  stop := false
  panicMsg := none
  rest := ()

/-- Cut between two ticks, the run to time 20 is the same. -/
theorem wound_split :
    ∃ final, wound.runUntil ticking 20 5 = some (.horizonReached, final) ∧
      ∃ enough first middle, ∀ fuel ≥ enough,
        wound.runUntil ticking 5 fuel = some (first, middle) ∧
          middle.runUntil ticking 20 fuel = some (.horizonReached, final) := by
  obtain ⟨final, whole⟩ : ∃ final, wound.runUntil ticking 20 5 = some (.horizonReached, final) :=
    ⟨_, rfl⟩
  exact ⟨final, whole, runUntil_split ticking wound (by decide) whole (Or.inl rfl)⟩

end Kernel

end ChronoScope.Sim
