import Mathlib.Algebra.Order.Group.Multiset
import Mathlib.Data.List.MinMax
import ChronoScope.Sim.Kernel

/-!
# Timers

Whatever tasks do, what happens to the clock, the counter and the heap of timers
is that actions are scheduled and timers are fired. Every timer is fired at most
once, at the instant it was scheduled for, and time does not run backwards. The
numbers of timers are another matter: to fire one sets the counter back to its
number, and from there on numbers are given out that pending timers may have.
-/

namespace ChronoScope.Sim

open List

variable {P : Parts} (rt : Runtime P)

/-- What scheduling and firing are about. -/
structure Clock (P : Parts) where
  now : ℕ
  seq : ℕ
  timers : P.Heap

def Kernel.clock (kernel : Kernel P) : Clock P := ⟨kernel.now, kernel.seq, kernel.timers⟩

namespace Clock

def timer (clock : Clock P) (delay : ℕ) (action : Action) : Timer where
  due := min (clock.now + delay) (2 ^ 64 - 1)
  seq := clock.seq + 1
  action := action

def schedule (clock : Clock P) (delay : ℕ) (action : Action) : Clock P :=
  { clock with
    seq := clock.seq + 1
    timers := rt.push clock.timers (clock.timer delay action) }

/-- Actions are scheduled one after the other, each on a condition; these are the timers. -/
inductive Schedules (meets : Clock P → ℕ → Prop) : Clock P → Clock P → List Timer → Prop where
  | none (clock : Clock P) : Schedules meets clock clock []
  | next {clock after : Clock P} {delay : ℕ} {action : Action} {timers : List Timer}
      (met : meets clock delay)
      (rest : Schedules meets (clock.schedule rt delay action) after timers) :
      Schedules meets clock after (clock.timer delay action :: timers)

def Scheduled (clock after : Clock P) : Prop :=
  ∃ timers, Schedules rt (fun _ _ => True) clock after timers

end Clock

open Clock (Schedules Scheduled)

/-- What is assumed of the heap, the generator and the tasks: the heap yields its least timer, and
tasks reach the clock by scheduling only. -/
structure Discipline where
  contents : P.Heap → Multiset Timer
  contents_push : ∀ heap timer, contents (rt.push heap timer) = timer ::ₘ contents heap
  contents_pop : ∀ heap timer rest, rt.pop heap = some (timer, rest) →
    contents heap = timer ::ₘ contents rest
  least : ∀ heap timer, rt.peek heap = some timer → ∀ other ∈ contents heap,
    toLex (timer.due, timer.seq) ≤ toLex (other.due, other.seq)
  empty : ∀ heap, rt.peek heap = none → contents heap = 0
  below_lt : ∀ rng bound, 0 < bound → (rt.below rng bound).1 < bound
  poll : ∀ id fut (kernel : Kernel P),
    Scheduled rt kernel.clock (rt.poll id fut kernel).2.clock
  boot : ∀ node (kernel : Kernel P), Scheduled rt kernel.clock (rt.boot node kernel).clock

namespace Kernel

/-- Any number of turns of the loop and of other calls: what was scheduled, and what was fired and
when. -/
inductive Run (meets : Clock P → ℕ → Prop) :
    Kernel P → Kernel P → Multiset Timer → List (ℕ × Timer) → Prop where
  | refl (kernel : Kernel P) : Run meets kernel kernel 0 []
  /-- A task is polled, or something is called from outside. -/
  | call {start kernel after : Kernel P} {scheduled : Multiset Timer} {fired : List (ℕ × Timer)}
      {timers : List Timer} (run : Run meets start kernel scheduled fired)
      (calls : Schedules rt meets kernel.clock after.clock timers) :
      Run meets start after (scheduled + timers) fired
  | fire {start kernel popped : Kernel P} {scheduled : Multiset Timer}
      {fired : List (ℕ × Timer)} {horizon : ℕ} {timer : Timer} {timers : List Timer}
      (run : Run meets start kernel scheduled fired) (ahead : kernel.now ≤ horizon)
      (bound : horizon < 2 ^ 64) (pops : kernel.nextTimer rt horizon = (some timer, popped))
      (calls : Schedules rt meets { popped.clock with seq := timer.seq }
        (popped.fire rt timer).clock timers) :
      Run meets start (popped.fire rt timer) (scheduled + timers) (fired ++ [(popped.now, timer)])
  | rest {start kernel rested : Kernel P} {scheduled : Multiset Timer} {fired : List (ℕ × Timer)}
      {horizon : ℕ} (run : Run meets start kernel scheduled fired) (ahead : kernel.now ≤ horizon)
      (bound : horizon < 2 ^ 64) (waits : kernel.nextTimer rt horizon = (none, rested)) :
      Run meets start rested scheduled fired

end Kernel

variable {rt} {meets : Clock P → ℕ → Prop}

variable {timers : List Timer} {clock : Clock P}

theorem Clock.Schedules.trans {after last : Clock P} {more : List Timer}
    (first : Schedules rt meets clock after timers) (second : Schedules rt meets after last more) :
    Schedules rt meets clock last (timers ++ more) := by
  induction first with
  | none => exact second
  | next met _ ih => exact .next met (ih second)

theorem Clock.Scheduled.trans {after last : Clock P} (first : Scheduled rt clock after)
    (second : Scheduled rt after last) : Scheduled rt clock last := by
  rcases first with ⟨_, first⟩
  rcases second with ⟨_, second⟩
  exact ⟨_, first.trans second⟩

namespace Discipline

variable (discipline : Discipline rt)

theorem schedules {after : Clock P} (calls : Schedules rt meets clock after timers)
    (bound : clock.now < 2 ^ 64) :
    after.now = clock.now ∧
      discipline.contents after.timers = timers + discipline.contents clock.timers ∧
      ∀ timer ∈ timers, clock.now ≤ timer.due := by
  induction calls with
  | none => simp
  | @next clock _ delay _ timers met _ ih =>
    rcases ih bound with ⟨sameNow, contents, later⟩
    refine ⟨sameNow, ?_, ?_⟩
    · rw [contents, Clock.schedule, discipline.contents_push, Multiset.add_cons,
        ← Multiset.cons_coe, Multiset.cons_add]
    · rintro timer (_ | ⟨_, old⟩)
      · simp only [Clock.timer]
        omega
      · exact later timer old

theorem contents_foldl (items : List Timer) (heap : P.Heap) :
    discipline.contents (items.foldl rt.push heap) = items + discipline.contents heap := by
  induction items generalizing heap with
  | nil => simp
  | cons timer items ih =>
    rw [foldl_cons, ih, discipline.contents_push, Multiset.add_cons, ← Multiset.cons_coe,
      Multiset.cons_add]

theorem contents_popTied (due count : ℕ) (heap : P.Heap) :
    discipline.contents heap =
        (Kernel.popTied rt due count heap).1 +
          discipline.contents (Kernel.popTied rt due count heap).2 ∧
      ∀ timer ∈ (Kernel.popTied rt due count heap).1, timer.due = due := by
  induction count generalizing heap with
  | zero => simp [Kernel.popTied]
  | succ count ih =>
    rw [Kernel.popTied]
    cases peeks : rt.peek heap with
    | none => simp
    | some first =>
      rcases rt.pop_of_peek _ _ peeks with ⟨rest, pops⟩
      simp only
      split_ifs with tied
      · rcases ih rest with ⟨contents, all⟩
        simp only [pops]
        refine ⟨?_, by simpa [tied] using all⟩
        rw [discipline.contents_pop _ _ _ pops, ← Multiset.cons_coe, Multiset.cons_add,
          ← contents]
      · simp

end Discipline

theorem Kernel.swapRemove_perm {items : List Timer} {index : ℕ} (default : Timer)
    (inRange : index < items.length) :
    items.Perm (items.getD index default :: swapRemove items index) := by
  rcases eq_nil_or_concat' items with rfl | ⟨front, last, rfl⟩
  · simp at inRange
  simp only [swapRemove, getLast?_concat]
  simp only [length_append, length_singleton] at inRange
  rcases Nat.lt_succ_iff_lt_or_eq.mp inRange with inFront | rfl
  · rcases exists_of_set inFront with ⟨left, right, split, _, changed⟩
    rw [set_append_left _ _ inFront, dropLast_concat, changed,
      getD_eq_getElem?_getD, getElem?_append_left inFront,
      getElem?_eq_getElem inFront, Option.getD_some]
    generalize front[index] = removed at split
    rw [split]
    refine (perm_append_singleton last _).trans ((perm_middle.cons last).trans ?_)
    exact (List.Perm.swap ..).trans (perm_middle.symm.cons removed)
  · simp [perm_append_singleton]

namespace Discipline

variable (discipline : Discipline rt) {kernel after : Kernel P} {horizon : ℕ}

theorem due_le {heap : P.Heap} {next other : Timer} (peeks : rt.peek heap = some next)
    (pending : other ∈ discipline.contents heap) : next.due ≤ other.due := by
  rcases Prod.Lex.toLex_le_toLex.mp (discipline.least _ _ peeks other pending) with less | same
  · exact less.le
  · exact same.1.le

theorem nextTimer_some {timer : Timer} (pops : kernel.nextTimer rt horizon = (some timer, after)) :
    after.now = timer.due ∧ timer.due ≤ horizon ∧
      discipline.contents kernel.timers = timer ::ₘ discipline.contents after.timers ∧
      ∀ other ∈ discipline.contents kernel.timers, timer.due ≤ other.due := by
  rw [Kernel.nextTimer] at pops
  cases peeks : rt.peek kernel.timers with
  | none => simp [peeks] at pops
  | some next =>
    by_cases later : next.due > horizon
    · simp [peeks, later] at pops
    rcases discipline.contents_popTied next.due 64 kernel.timers with ⟨contents, tied⟩
    rcases Kernel.popTied_of_peek peeks 63 with ⟨others, heap, popped⟩
    rw [popped] at contents tied
    simp only [peeks, popped, if_neg later, Prod.mk.injEq, Option.some.injEq] at pops
    set draw := if others.isEmpty then (0, kernel.rng)
      else rt.below kernel.rng (others.length + 1) with drawIs
    have inRange : draw.1 < (next :: others).length := by
      rw [drawIs]
      split_ifs
      · simp
      · exact discipline.below_lt _ _ (Nat.succ_pos _)
    have perm := Kernel.swapRemove_perm next inRange
    rcases pops with ⟨rfl, rfl⟩
    have sameDue := tied _ (perm.mem_iff.mpr mem_cons_self)
    refine ⟨sameDue.symm, sameDue.trans_le (Nat.not_lt.mp later), ?_, ?_⟩
    · rw [contents, Multiset.coe_eq_coe.mpr perm, ← Multiset.cons_coe, Multiset.cons_add,
        discipline.contents_foldl]
    · intro other pending
      exact sameDue.trans_le (discipline.due_le peeks pending)

theorem nextTimer_none (waits : kernel.nextTimer rt horizon = (none, after)) :
    after.timers = kernel.timers ∧
      (discipline.contents kernel.timers = 0 ∧ after.now = kernel.now ∨
        after.now = horizon ∧
          ∀ other ∈ discipline.contents kernel.timers, horizon < other.due) := by
  rw [Kernel.nextTimer] at waits
  cases peeks : rt.peek kernel.timers with
  | none =>
    simp only [peeks, Prod.mk.injEq, true_and] at waits
    subst waits
    exact ⟨rfl, Or.inl ⟨discipline.empty _ peeks, rfl⟩⟩
  | some next =>
    by_cases later : next.due > horizon
    · simp only [peeks, if_pos later, Prod.mk.injEq, true_and] at waits
      subst waits
      refine ⟨rfl, Or.inr ⟨rfl, ?_⟩⟩
      intro other pending
      exact later.trans_le (discipline.due_le peeks pending)
    · rcases Kernel.popTied_of_peek peeks 63 with ⟨others, heap, popped⟩
      simp [peeks, popped, if_neg later] at waits

end Discipline

namespace Kernel

variable (kernel : Kernel P)

theorem foldl_clock {α : Type} {change : Kernel P → α → Kernel P}
    (keeps : ∀ kernel item, (change kernel item).clock = kernel.clock) (items : List α) :
    (items.foldl change kernel).clock = kernel.clock := by
  induction items generalizing kernel with
  | nil => rfl
  | cons item items ih => exact (ih _).trans (keeps kernel item)

theorem markReady_clock (id : TaskId) : (kernel.markReady id).clock = kernel.clock := rfl

theorem deliver_clock (sender receiver : NodeId) (msg : ℕ) (payload : List UInt8) :
    (kernel.deliver rt sender receiver msg payload).clock = kernel.clock := by
  unfold deliver
  split
  · rfl
  · split_ifs
    · rfl
    · exact foldl_clock _ markReady_clock _

theorem healLink_clock (link : NodeId × NodeId) :
    (kernel.healLink rt link).clock = kernel.clock := by
  unfold healLink
  split
  · rfl
  · split_ifs <;> rfl

theorem pickRunnable_clock : (kernel.pickRunnable rt).2.clock = kernel.clock := by
  unfold pickRunnable
  split <;> rfl

theorem Noted.clock_eq {kernel after : Kernel P} (noted : Noted kernel after) :
    after.clock = kernel.clock := by
  rcases noted with ⟨_, _, _, rfl⟩
  rfl

theorem pickIndex_clock {kernel picked : Kernel P} {len : ℕ} {choice : Option ℕ}
    (picks : kernel.pickIndex rt len = (choice, picked)) : picked.clock = kernel.clock := by
  have same := (Noted.pickIndex rt kernel len).clock_eq
  rwa [picks] at same

theorem crashInLock_clock (node : NodeId) :
    (kernel.crashInLock rt node).clock = kernel.clock := by
  unfold crashInLock
  split
  · rfl
  · split_ifs
    · rfl
    · unfold powerLoss
      dsimp only
      split
      · rfl
      · exact (loseFiles_noted _ _ _).clock_eq

theorem blockLink_clock (link : NodeId × NodeId) :
    (kernel.blockLink link).clock = kernel.clock := rfl

theorem cutPair_clock (oneWay : Bool) (pair : NodeId × NodeId) :
    (cutPair rt oneWay kernel pair).clock = kernel.clock :=
  foldl_clock _ blockLink_clock _

theorem schedule_schedules (same : kernel.clock = clock) (delay : ℕ) (action : Action) :
    Scheduled rt clock (kernel.schedule rt delay action).clock := by
  subst same
  exact ⟨_, .next trivial (.none _)⟩

theorem cutGroups_schedules (groupA groupB : List NodeId) (oneWay : Bool) :
    Scheduled rt kernel.clock (cutGroups rt groupA groupB oneWay kernel).clock := by
  have cuts : ((groupA.product groupB).foldl (cutPair rt oneWay) kernel).clock = kernel.clock :=
    foldl_clock kernel (cutPair_clock · oneWay) _
  unfold cutGroups
  dsimp only
  generalize (groupA.product groupB).foldl (cutPair rt oneWay) kernel = apart at cuts ⊢
  refine schedule_schedules _ ((Noted.sample rt _ _).clock_eq.trans ?_) _ _
  exact cuts

theorem partitionServers_schedules (servers : List NodeId) :
    Scheduled rt kernel.clock (partitionServers rt servers kernel).clock := by
  unfold partitionServers
  dsimp only
  rw [← (((Noted.shuffleUpTo rt _ _ _).trans (.range rt _ _ _)).trans (.ppm rt _ _)).clock_eq]
  exact cutGroups_schedules _ _ _ _

theorem pauseServer_schedules (servers : List NodeId) :
    Scheduled rt kernel.clock (pauseServer rt servers kernel).clock := by
  unfold pauseServer
  dsimp only
  generalize servers.filter _ = candidates
  rcases picks : kernel.pickIndex rt candidates.length with ⟨_ | index, picked⟩
  · exact ⟨[], pickIndex_clock picks ▸ .none _⟩
  · refine schedule_schedules _ ((Noted.sample rt picked _).clock_eq.trans ?_) _ _
    exact pickIndex_clock picks

theorem stepClock_clock (servers : List NodeId) :
    (stepClock rt servers kernel).clock = kernel.clock := by
  unfold stepClock
  dsimp only
  split_ifs
  · rcases picks : kernel.pickIndex rt servers.length with ⟨_ | index, picked⟩
    · exact pickIndex_clock picks
    · exact (Noted.range rt picked _ _).clock_eq.trans (pickIndex_clock picks)
  · rfl

theorem crashServer_schedules (servers : List NodeId) :
    Scheduled rt kernel.clock (crashServer rt servers kernel).clock := by
  unfold crashServer
  dsimp only
  generalize servers.filter _ = alive
  split_ifs
  · rcases picks : kernel.pickIndex rt alive.length with ⟨_ | index, picked⟩
    · exact ⟨[], pickIndex_clock picks ▸ .none _⟩
    · refine schedule_schedules _ ((Noted.sample rt _ _).clock_eq.trans ?_) _ _
      exact (crashInLock_clock picked _).trans (pickIndex_clock picks)
  · exact ⟨[], .none _⟩

theorem strike_schedules {fault : Kernel P → Kernel P}
    (schedules : ∀ kernel, Scheduled rt kernel.clock (fault kernel).clock) (ratePerSec : ℕ) :
    Scheduled rt kernel.clock (strike rt ratePerSec fault kernel).clock := by
  have same := (Noted.ppm rt kernel
    (min (ratePerSec * kernel.policy.chaosTick / 1000000000) 1000000)).clock_eq
  unfold strike
  dsimp only
  split_ifs
  · exact same ▸ schedules _
  · exact ⟨[], same ▸ .none _⟩

/-- The fault injector reaches the clock by scheduling only. -/
theorem chaosTick_schedules : Scheduled rt kernel.clock (kernel.chaosTick rt).2.clock := by
  unfold chaosTick
  dsimp only
  split_ifs
  · exact ⟨[], .none _⟩
  · exact ⟨[], .none _⟩
  · refine Scheduled.trans ?_ (strike_schedules _ (crashServer_schedules · kernel.servers) _)
    refine Scheduled.trans ?_ (strike_schedules _ (fun kernel => ?_) _)
    · refine Scheduled.trans ?_ (strike_schedules _ (pauseServer_schedules · kernel.servers) _)
      exact strike_schedules _ (partitionServers_schedules · kernel.servers) _
    · exact ⟨[], (stepClock_clock kernel _).symm ▸ .none _⟩

variable (discipline : Discipline rt)

include discipline

theorem bootNode_schedules (same : kernel.clock = clock) (node : NodeId) :
    Scheduled rt clock (kernel.bootNode rt node).clock := by
  have boots : ∀ booted : Kernel P, booted.clock = clock →
      Scheduled rt clock (rt.boot node booted).clock := by
    rintro booted rfl
    exact discipline.boot node booted
  unfold bootNode
  split
  · exact ⟨[], same ▸ .none _⟩
  · dsimp only
    split_ifs
    · exact ⟨[], same ▸ .none _⟩
    · exact boots _ same
    · exact boots _ same

theorem fire_schedules (timer : Timer) :
    Scheduled rt { kernel.clock with seq := timer.seq } (kernel.fire rt timer).clock := by
  unfold fire
  dsimp only
  split
  · unfold fireSlot
    split
    · exact ⟨[], .none _⟩
    · dsimp only
      split <;> exact ⟨[], .none _⟩
  · rw [deliver_clock]
    exact ⟨[], .none _⟩
  · rcases chaosTick_schedules { kernel with seq := timer.seq } with ⟨timers, calls⟩
    exact ⟨_, calls.trans (.next trivial (.none _))⟩
  · exact bootNode_schedules { kernel with seq := timer.seq } discipline rfl _
  · rw [foldl_clock _ healLink_clock]
    exact ⟨[], .none _⟩
  · unfold resume
    split
    · exact ⟨[], .none _⟩
    · split_ifs <;> exact ⟨[], .none _⟩

theorem pollTask_schedules (id : TaskId) :
    Scheduled rt kernel.clock (kernel.pollTask rt id).clock := by
  unfold pollTask
  split
  · exact ⟨[], .none _⟩
  · split
    · exact ⟨[], .none _⟩
    · next slot _ _ fut _ =>
        rcases discipline.poll id fut (record rt { kernel with
          tasks := kernel.tasks.insert id { slot with fut := none }
          current := some id
          stats := { kernel.stats with polls := kernel.stats.polls + 1 } }
            (.poll slot.node id)) with
          ⟨timers, calls⟩
        refine ⟨timers, ?_⟩
        dsimp only
        split <;> exact calls

end Kernel

namespace Kernel

variable {discipline : Discipline rt} {start kernel after : Kernel P} {scheduled : Multiset Timer}
  {fired : List (ℕ × Timer)} {horizon : ℕ}

/-- What a run amounts to: what was pending and what was scheduled has been fired or is pending, and
it has been fired in time. -/
structure Account (discipline : Discipline rt) (start kernel : Kernel P)
    (scheduled : Multiset Timer) (fired : List (ℕ × Timer)) : Prop where
  bound : kernel.now < 2 ^ 64
  forward : start.now ≤ kernel.now
  pending : ∀ timer ∈ discipline.contents kernel.timers, kernel.now ≤ timer.due
  once : discipline.contents start.timers + scheduled =
    (fired.map Prod.snd : List Timer) + discipline.contents kernel.timers
  onTime : ∀ firing ∈ fired, firing.1 = firing.2.due
  past : ∀ firing ∈ fired, firing.2.due ≤ kernel.now
  inOrder : fired.Pairwise fun early late => early.2.due ≤ late.2.due

namespace Account

variable (before : Account discipline start kernel scheduled fired)

include before

theorem call (sameNow : after.now = kernel.now)
    (contents : discipline.contents after.timers = timers + discipline.contents kernel.timers)
    (later : ∀ timer ∈ timers, kernel.now ≤ timer.due) :
    Account discipline start after (scheduled + timers) fired := by
  refine ⟨sameNow ▸ before.bound, sameNow ▸ before.forward, ?_, ?_, before.onTime,
    sameNow ▸ before.past, before.inOrder⟩
  · intro timer isPending
    rw [contents, Multiset.mem_add] at isPending
    rw [sameNow]
    rcases isPending with new | old
    · exact later timer new
    · exact before.pending timer old
  · rw [contents, ← add_assoc, before.once, add_right_comm, add_assoc]

theorem fire {timer : Timer} (advanced : kernel.now ≤ timer.due) (bound : timer.due < 2 ^ 64)
    (nowDue : after.now = timer.due)
    (popped : discipline.contents kernel.timers = timer ::ₘ discipline.contents after.timers)
    (least : ∀ other ∈ discipline.contents kernel.timers, timer.due ≤ other.due) :
    Account discipline start after scheduled (fired ++ [(after.now, timer)]) := by
  refine ⟨nowDue ▸ bound, nowDue ▸ before.forward.trans advanced, ?_, ?_, ?_, ?_, ?_⟩
  · intro other isPending
    exact nowDue ▸ least other (popped ▸ Multiset.mem_cons_of_mem isPending)
  · rw [before.once, popped, map_append, ← Multiset.coe_add, add_assoc]
    simp
  · intro firing isFired
    rcases mem_append.1 isFired with old | new
    · exact before.onTime firing old
    · simp [mem_singleton.1 new, nowDue]
  · intro firing isFired
    rcases mem_append.1 isFired with old | new
    · exact (before.past firing old).trans (nowDue ▸ advanced)
    · simp [mem_singleton.1 new, nowDue]
  · refine pairwise_append.2 ⟨before.inOrder, pairwise_singleton .., ?_⟩
    intro early isEarly late isLate
    rw [mem_singleton.1 isLate]
    exact (before.past early isEarly).trans advanced

theorem rest (ahead : kernel.now ≤ horizon) (bound : horizon < 2 ^ 64)
    (sameTimers : after.timers = kernel.timers)
    (idle : discipline.contents kernel.timers = 0 ∧ after.now = kernel.now ∨
      after.now = horizon ∧ ∀ other ∈ discipline.contents kernel.timers, horizon < other.due) :
    Account discipline start after scheduled fired := by
  have forward : kernel.now ≤ after.now := by
    omega
  refine ⟨by have := before.bound; omega, before.forward.trans forward, ?_, ?_, before.onTime,
    fun firing isFired => (before.past firing isFired).trans forward, before.inOrder⟩
  · intro timer isPending
    rw [sameTimers] at isPending
    rcases idle with ⟨none, _⟩ | ⟨nowHorizon, beyond⟩
    · simp [none] at isPending
    · exact nowHorizon ▸ (beyond timer isPending).le
  · rw [sameTimers]
    exact before.once

end Account

theorem Run.account (run : Run rt meets start kernel scheduled fired) (bound : start.now < 2 ^ 64)
    (pending : ∀ timer ∈ discipline.contents start.timers, start.now ≤ timer.due) :
    Account discipline start kernel scheduled fired := by
  induction run with
  | refl => exact ⟨bound, le_rfl, pending, by simp, by simp, by simp, .nil⟩
  | @call kernel after scheduled fired timers _ calls before =>
    rcases discipline.schedules calls before.bound with ⟨sameNow, contents, later⟩
    exact before.call sameNow contents later
  | @fire kernel popped scheduled fired horizon timer timers _ ahead below pops calls before =>
    rcases discipline.nextTimer_some pops with ⟨nowDue, inTime, popped, least⟩
    have advanced : kernel.now ≤ timer.due := before.pending timer (popped ▸ by simp)
    have fires := before.fire advanced (inTime.trans_lt below) nowDue popped least
    rcases discipline.schedules calls fires.bound with ⟨sameNow, contents, later⟩
    exact fires.call sameNow contents later
  | @rest kernel rested scheduled fired horizon _ ahead below waits before =>
    rcases discipline.nextTimer_none waits with ⟨sameTimers, idle⟩
    exact before.rest ahead below sameTimers idle

theorem Run.still (run : Run rt meets start kernel scheduled fired)
    (same : after.clock = kernel.clock) : Run rt meets start after scheduled fired := by
  have calls : Schedules rt meets kernel.clock after.clock [] := same ▸ .none _
  simpa using run.call calls

/-- The loop only takes steps of a run, and when it ends by itself nothing that was due is left. -/
theorem loop_run {fuel polls : ℕ} {outcome : Outcome}
    (ran : loop rt horizon fuel polls kernel = some (outcome, after)) (ahead : kernel.now ≤ horizon)
    (below : horizon < 2 ^ 64) (run : Run rt (fun _ _ => True) start kernel scheduled fired)
    (discipline : Discipline rt) :
    (∃ scheduled fired, Run rt (fun _ _ => True) start after scheduled fired) ∧
      (outcome.Undisturbed → ∀ timer ∈ discipline.contents after.timers, horizon < timer.due) := by
  have sameClock {kernel picked : Kernel P} {choice : Option TaskId}
      (picks : kernel.pickRunnable rt = (choice, picked)) : picked.clock = kernel.clock := by
    have same : (kernel.pickRunnable rt).2.clock = kernel.clock := pickRunnable_clock kernel
    rwa [picks] at same
  have sameNow {kernel picked : Kernel P} {choice : Option TaskId}
      (picks : kernel.pickRunnable rt = (choice, picked)) : picked.now = kernel.now :=
    congrArg Clock.now (sameClock picks)
  have ends := loop_keeps (motive := fun kernel => kernel.now ≤ horizon ∧
    ∃ scheduled fired, Run rt (fun _ _ => True) start kernel scheduled fired) ran
  specialize ends ?polls ?fires ⟨ahead, _, _, run⟩
  case polls =>
    rintro kernel picked id ⟨ahead, _, _, run⟩ picks
    rcases picked.pollTask_schedules discipline id with ⟨timers, calls⟩
    have pickedAhead := (sameNow picks).trans_le ahead
    exact ⟨(discipline.schedules calls (pickedAhead.trans_lt below)).1.trans_le pickedAhead,
      _, _, (run.still (sameClock picks)).call calls⟩
  case fires =>
    rintro kernel picked popped timer ⟨ahead, _, _, run⟩ picks takes
    rcases popped.fire_schedules discipline timer with ⟨timers, calls⟩
    rcases discipline.nextTimer_some takes with ⟨nowDue, inTime, -⟩
    have poppedAhead : popped.now ≤ horizon := nowDue.trans_le inTime
    exact ⟨(discipline.schedules calls (poppedAhead.trans_lt below)).1.trans_le poppedAhead,
      _, _, (run.still (sameClock picks)).fire ((sameNow picks).trans_le ahead) below takes calls⟩
  rcases ends with
    ⟨last, ⟨lastAhead, _, _, reached⟩, ⟨disturbed, rfl | rfl⟩ | ⟨picked, picks, waits⟩⟩
  · exact ⟨⟨_, _, reached⟩, fun undisturbed => (disturbed undisturbed).elim⟩
  · exact ⟨⟨_, _, reached.still rfl⟩, fun undisturbed => (disturbed undisturbed).elim⟩
  · refine ⟨⟨_, _, (reached.still (sameClock picks)).rest
      ((sameNow picks).trans_le lastAhead) below waits⟩, ?_⟩
    rintro - timer isPending
    rcases discipline.nextTimer_none waits with ⟨sameTimers, ⟨none, _⟩ | ⟨_, beyond⟩⟩
    · simp [sameTimers, none] at isPending
    · exact beyond timer (sameTimers ▸ isPending)

/-! A heap that is a list, and on it a run in which a tick of the fault injector takes the number of
a pending timer. -/

deriving instance DecidableEq for Action, Timer

def key (timer : Timer) : ℕ ×ₗ ℕ := toLex (timer.due, timer.seq)

def ranked : Runtime clockwork :=
  { ticking with
    peek heap := heap.argmin key
    pop heap := (heap.argmin key).map fun timer => (timer, heap.erase timer)
    push heap timer := timer :: heap
    pop_of_peek heap timer peeks := ⟨heap.erase timer, by rw [peeks]; rfl⟩ }

def rankedDiscipline : Discipline ranked where
  contents heap := (heap : List Timer)
  contents_push _ _ := rfl
  contents_pop heap timer rest pops := by
    rcases Option.map_eq_some_iff.1 pops with ⟨least, isLeast, same⟩
    cases same
    exact Multiset.coe_eq_coe.2 (perm_cons_erase (argmin_mem isLeast))
  least _ _ peeks _ isOther := by
    apply le_of_mem_argmin (f := key) isOther peeks
  empty heap peeks := by
    cases argmin_eq_none.1 peeks
    rfl
  below_lt rng _ positive := Nat.mod_lt rng positive
  poll _ _ kernel := ⟨[], .none _⟩
  boot _ kernel := ⟨[], .none _⟩

def idle : Kernel clockwork :=
  { wound with seq := 0, timers := [], tasks := ∅, ready := ∅ }

def tick (due seq : ℕ) : Timer := ⟨due, seq, .chaosTick⟩

def wake (due seq : ℕ) : Timer := ⟨due, seq, .resume 0⟩

/-- A tick and a wake-up are scheduled, and the tick is fired. -/
def ticked (due : ℕ) : Kernel clockwork :=
  ({ (idle.schedule ranked 10 .chaosTick).schedule ranked due (.resume 0) with
    timers := [wake due 2], now := 10 } : Kernel clockwork).fire ranked (tick 10 1)

theorem ticked_run : Run ranked (fun _ _ => True) idle (ticked 20)
    {tick 10 1, wake 20 2, tick 20 2} [(10, tick 10 1)] := by
  have scheduled : Run ranked (fun _ _ => True) idle
      ((idle.schedule ranked 10 .chaosTick).schedule ranked 20 (.resume 0)) _ _ :=
    (Run.refl idle).call (.next trivial (.next trivial (.none _)))
  exact scheduled.fire (by decide : 0 ≤ 10) (by decide) rfl (.next trivial (.none _))

/-- No timer that is due when the next one will be has a number that the counter has not reached. -/
def Ahead (discipline : Discipline rt) (clock : Clock P) (delay : ℕ) : Prop :=
  ∀ timer ∈ discipline.contents clock.timers,
    timer.due = min (clock.now + delay) (2 ^ 64 - 1) → timer.seq ≤ clock.seq

instance (discipline : Discipline rt) (clock : Clock P) (delay : ℕ) :
    Decidable (Ahead discipline clock delay) :=
  inferInstanceAs (Decidable (∀ timer ∈ discipline.contents clock.timers, _))

theorem schedules_distinct {behind : Clock P}
    (calls : Schedules rt (Ahead discipline) clock behind timers)
    (distinct : ((discipline.contents clock.timers).map key).Nodup) :
    ((discipline.contents behind.timers).map key).Nodup := by
  induction calls with
  | none => exact distinct
  | @next clock _ delay action _ met _ ih =>
    refine ih ?_
    rw [Clock.schedule, discipline.contents_push, Multiset.map_cons, Multiset.nodup_cons]
    refine ⟨?_, distinct⟩
    intro taken
    rcases Multiset.mem_map.1 taken with ⟨timer, isPending, same⟩
    have sameKey : timer.due = _ ∧ timer.seq = _ := Prod.ext_iff.1 (toLex.injective same)
    have reached := met timer isPending sameKey.1
    simp only [Clock.timer] at sameKey
    omega

/-- From a fresh heap, pending timers are told apart by their time and number as long as whatever is
scheduled finds no number ahead of the counter at its instant. -/
theorem keys_distinct (discipline : Discipline rt) (fresh : discipline.contents start.timers = 0)
    (run : Run rt (Ahead discipline) start kernel scheduled fired) :
    ((discipline.contents kernel.timers).map key).Nodup := by
  induction run with
  | refl => simp [fresh]
  | call _ calls ih => exact schedules_distinct calls ih
  | fire _ _ _ pops calls ih =>
    rw [(discipline.nextTimer_some pops).2.2.1, Multiset.map_cons, Multiset.nodup_cons] at ih
    exact schedules_distinct calls ih.2
  | rest _ _ _ waits ih =>
    rw [(discipline.nextTimer_none waits).1]
    exact ih

/-- The tick takes the number of the wake-up, but at another instant. -/
theorem ticked_distinct :
    rankedDiscipline.contents (ticked 25).timers = {tick 20 2, wake 25 2} ∧
      ((rankedDiscipline.contents (ticked 25).timers).map key).Nodup := by
  have scheduled : Run ranked (Ahead rankedDiscipline) idle
      ((idle.schedule ranked 10 .chaosTick).schedule ranked 25 (.resume 0)) _ _ :=
    (Run.refl idle).call (.next (by decide) (.next (by decide) (.none _)))
  refine ⟨rfl, keys_distinct rankedDiscipline rfl (scheduled.fire (by decide : 0 ≤ 10) (by decide)
    rfl (.next ?_ (.none _)))⟩
  decide

/-- Firing the tick set the counter back to 1. -/
theorem tick_takes_number :
    (∃ scheduled fired, Run ranked (fun _ _ => True) idle (ticked 20) scheduled fired) ∧
      rankedDiscipline.contents idle.timers = 0 ∧
      rankedDiscipline.contents (ticked 20).timers = {tick 20 2, wake 20 2} ∧
      ¬((rankedDiscipline.contents (ticked 20).timers).map key).Nodup :=
  ⟨⟨_, _, ticked_run⟩, rfl, rfl, by decide⟩

end Kernel

end ChronoScope.Sim
