import Mathlib.Data.Nat.Basic

/-!
# Programs on a device that can stop at any moment

A program calls the operations of a device one at a time. The device may answer
an operation in several ways. A program that is cut short leaves the device in
one of the states it visits, so a specification says two things: what holds in
every state visited, and what holds of the value and the state when the program
returns.

Programs that keep a state of their own and stop at the first error are stacked
on top with `StateT` and `ExceptT`; `Runs` is the same specification for these.
-/

namespace ChronoScope

/-- A program: a value, or a call and what to do with the reply. -/
inductive Prog (Op : Type → Type) (α : Type) : Type 1 where
  | pure (value : α)
  | call {β : Type} (op : Op β) (next : β → Prog Op α)

/-- How a device may answer an operation, and in which state it is then. -/
abbrev Device (Op : Type → Type) (S : Type) := ∀ {β : Type}, Op β → S → β → S → Prop

namespace Prog

variable {Op : Type → Type} {S α β : Type}

def bind : Prog Op α → (α → Prog Op β) → Prog Op β
  | .pure value, next => next value
  | .call op rest, next => .call op fun reply => bind (rest reply) next

instance : Monad (Prog Op) where
  pure := .pure
  bind := bind

def ask (op : Op α) : Prog Op α := .call op .pure

/-- Follow the answers of a device that has only one for each operation. -/
def run (answer : ∀ {β : Type}, Op β → S → β × S) : Prog Op α → S → α × S
  | .pure value, state => (value, state)
  | .call op next, state => run answer (next (answer op state).1) (answer op state).2

section Semantics

variable (device : Device Op S)

inductive Returns : Prog Op α → S → α → S → Prop where
  | pure (value : α) (state : S) : Returns (.pure value) state value state
  | call {β : Type} {op : Op β} {next : β → Prog Op α} {state after final : S} {reply : β}
      {value : α} (answers : device op state reply after)
      (rest : Returns (next reply) after value final) : Returns (.call op next) state value final

/-- The states the device can be in while the program runs, from its first to its last. -/
inductive Visits : Prog Op α → S → S → Prop where
  | here (program : Prog Op α) (state : S) : Visits program state state
  | later {β : Type} {op : Op β} {next : β → Prog Op α} {state after visited : S} {reply : β}
      (answers : device op state reply after) (rest : Visits (next reply) after visited) :
      Visits (.call op next) state visited

/-- The program returns, and whatever it returns is like this. -/
def Ends (program : Prog Op α) (post : α → Prop) (state : S) : Prop :=
  (∃ value final, Returns device program state value final) ∧
    ∀ value final, Returns device program state value final → post value

/-- Cut short or not, the program keeps a promise. -/
structure Safe (crash : S → Prop) (program : Prog Op α) (post : α → S → Prop) (state : S) :
    Prop where
  visits : ∀ visited, Visits device program state visited → crash visited
  returns : ∀ value final, Returns device program state value final → post value final

variable {device}

variable {program : Prog Op α}

theorem Returns.visits {state final : S} {value : α}
    (returns : Returns device program state value final) : Visits device program state final := by
  induction returns with
  | pure => exact .here ..
  | call answers _ ih => exact .later answers ih

theorem returns_bind {next : α → Prog Op β} {state final : S} {result : β}
    (returns : Returns device (program >>= next) state result final) :
    ∃ value between, Returns device program state value between ∧
      Returns device (next value) between result final := by
  induction program generalizing state with
  | pure value => exact ⟨value, state, .pure .., returns⟩
  | call op rest ih =>
    cases returns with
    | call answers returns =>
      rcases ih _ returns with ⟨value, between, first, second⟩
      exact ⟨value, between, .call answers first, second⟩

theorem visits_bind {next : α → Prog Op β} {state visited : S}
    (visits : Visits device (program >>= next) state visited) :
    Visits device program state visited ∨ ∃ value between,
      Returns device program state value between ∧ Visits device (next value) between visited := by
  induction program generalizing state with
  | pure value => exact Or.inr ⟨value, state, .pure .., visits⟩
  | call op rest ih =>
    cases visits with
    | here => exact Or.inl (.here ..)
    | later answers visits =>
      rcases ih _ visits with first | ⟨value, between, returns, second⟩
      · exact Or.inl (.later answers first)
      · exact Or.inr ⟨value, between, .call answers returns, second⟩

theorem returns_run {answer : ∀ {β : Type}, Op β → S → β × S}
    (allowed : ∀ {β : Type} (op : Op β) (state : S),
      device op state (answer op state).1 (answer op state).2)
    (program : Prog Op α) (state : S) :
    Returns device program state (run answer program state).1 (run answer program state).2 := by
  induction program generalizing state with
  | pure value => exact .pure ..
  | call op next ih => exact .call (allowed op state) (ih ..)

namespace Safe

variable {crash crash' : S → Prop} {state : S}

theorem crash_here {program : Prog Op α} {post : α → S → Prop}
    (safe : Safe device crash program post state) : crash state :=
  safe.visits _ (.here ..)

theorem pure {value : α} {post : α → S → Prop} (holds : crash state) (done : post value state) :
    Safe device crash (.pure value) post state := by
  refine ⟨?_, ?_⟩
  · intro visited visits
    cases visits
    exact holds
  · intro result final returns
    cases returns
    exact done

theorem ask {op : Op α} {post : α → S → Prop} (holds : crash state)
    (answered : ∀ reply after, device op state reply after → crash after ∧ post reply after) :
    Safe device crash (Prog.ask op) post state := by
  refine ⟨?_, ?_⟩
  · intro visited visits
    cases visits with
    | here => exact holds
    | later answers rest =>
      cases rest
      exact (answered _ _ answers).1
  · intro result final returns
    cases returns with
    | call answers rest =>
      cases rest
      exact (answered _ _ answers).2

theorem bind {program : Prog Op α} {next : α → Prog Op β} {post : β → S → Prop}
    (safe : Safe device crash program (fun value => Safe device crash (next value) post) state) :
    Safe device crash (program >>= next) post state := by
  refine ⟨?_, ?_⟩
  · intro visited visits
    rcases visits_bind visits with first | ⟨value, between, returns, second⟩
    · exact safe.visits visited first
    · exact (safe.returns value between returns).visits visited second
  · intro result final returns
    rcases returns_bind returns with ⟨value, between, first, second⟩
    exact (safe.returns value between first).returns result final second

theorem mono {program : Prog Op α} {post post' : α → S → Prop}
    (safe : Safe device crash program post state) (weaker : ∀ state, crash state → crash' state)
    (follows : ∀ value state, crash state → post value state → post' value state) :
    Safe device crash' program post' state :=
  ⟨fun visited visits => weaker visited (safe.visits visited visits),
    fun value final returns => follows value final (safe.visits final returns.visits)
      (safe.returns value final returns)⟩

theorem follow {program : Prog Op α} {post post' : α → S → Prop}
    (safe : Safe device crash program post state)
    (follows : ∀ value state, crash state → post value state → post' value state) :
    Safe device crash program post' state :=
  safe.mono (fun _ => id) follows

theorem except_bind {ε : Type} {program : ExceptT ε (Prog Op) α} {next : α → ExceptT ε (Prog Op) β}
    {post : Except ε β → S → Prop}
    (safe : Safe device crash program.run (fun result state =>
      match result with
      | .ok value => Safe device crash (next value).run post state
      | .error error => post (.error error) state) state) :
    Safe device crash (program >>= next).run post state := by
  refine bind (safe.mono (fun _ => id) ?_)
  intro result state holds continues
  cases result with
  | ok value => exact continues
  | error error => exact pure holds continues

theorem except_lift {ε : Type} {program : Prog Op α} {post : Except ε α → S → Prop}
    (safe : Safe device crash program (fun value => post (.ok value)) state) :
    Safe device crash (liftM program : ExceptT ε (Prog Op) α).run post state :=
  bind (safe.mono (fun _ => id) fun _ _ holds done => pure holds done)

theorem except_pure {ε : Type} {value : α} {post : Except ε α → S → Prop} (holds : crash state)
    (done : post (.ok value) state) :
    Safe device crash (Pure.pure value : ExceptT ε (Prog Op) α).run post state :=
  pure holds done

end Safe

end Semantics

end Prog

/-- A program with a state `σ` of its own that may end in an error. -/
abbrev Routine (Op : Type → Type) (σ ε α : Type) := ExceptT ε (StateT σ (Prog Op)) α

namespace Routine

variable {Op : Type → Type} {S σ ε α β : Type}

/-- A call whose reply is handed on, whatever it is. -/
def request (op : Op α) : Routine Op σ ε α := fun state => Prog.ask op >>= fun reply =>
  .pure (.ok reply, state)

/-- A call that ends the program if the reply is an error. -/
def attempt {δ : Type} (wrap : δ → ε) (op : Op (Except δ α)) : Routine Op σ ε α := fun state =>
  Prog.ask op >>= fun reply => .pure (reply.mapError wrap, state)

variable (device : Device Op S)

/-- `Safe` for a program with a state. -/
def Runs (crash : S → Prop) (routine : Routine Op σ ε α) (post : Except ε α → σ → S → Prop)
    (own : σ) (state : S) : Prop :=
  Prog.Safe device crash (routine.run.run own) (fun result => post result.1 result.2) state

/-- What a program with a state does unless it is cut short. -/
abbrev Ensures (routine : Routine Op σ ε α) (post : Except ε α → σ → S → Prop) (own : σ)
    (state : S) : Prop :=
  Runs device (fun _ => True) routine post own state

namespace Runs

variable {device} {crash crash' : S → Prop} {own : σ} {state : S}
  {post post' : Except ε α → σ → S → Prop}

theorem pure {value : α} (holds : crash state) (done : post (.ok value) own state) :
    Runs device crash (Pure.pure value : Routine Op σ ε α) post own state :=
  Prog.Safe.pure holds done

theorem throw {error : ε} (holds : crash state) (done : post (.error error) own state) :
    Runs device crash (MonadExcept.throw error : Routine Op σ ε α) post own state :=
  Prog.Safe.pure holds done

variable {routine : Routine Op σ ε α}

theorem bind {next : α → Routine Op σ ε β}
    {post : Except ε β → σ → S → Prop}
    (runs : Runs device crash routine (fun result own state =>
      match result with
      | .ok value => Runs device crash (next value) post own state
      | .error error => post (.error error) own state) own state) :
    Runs device crash (routine >>= next) post own state := by
  refine Prog.Safe.bind (runs.mono (fun _ => id) ?_)
  rintro ⟨result, own⟩ state holds continues
  cases result with
  | ok value => exact continues
  | error error => exact Prog.Safe.pure holds continues

theorem request {op : Op α} (holds : crash state)
    (answered : ∀ reply after, device op state reply after →
      crash after ∧ post (.ok reply) own after) :
    Runs device crash (Routine.request op) post own state := by
  refine Prog.Safe.bind (Prog.Safe.ask holds ?_)
  intro reply after answers
  rcases answered reply after answers with ⟨holds, done⟩
  exact ⟨holds, Prog.Safe.pure holds done⟩

theorem attempt {δ : Type} {wrap : δ → ε} {op : Op (Except δ α)} (holds : crash state)
    (answered : ∀ reply after, device op state reply after →
      crash after ∧ post (reply.mapError wrap) own after) :
    Runs device crash (Routine.attempt wrap op) post own state := by
  refine Prog.Safe.bind (Prog.Safe.ask holds ?_)
  intro reply after answers
  rcases answered reply after answers with ⟨holds, done⟩
  exact ⟨holds, Prog.Safe.pure holds done⟩

theorem attempt_bind {δ : Type} {wrap : δ → ε} {op : Op (Except δ α)} {next : α → Routine Op σ ε β}
    {post : Except ε β → σ → S → Prop} (holds : crash state)
    (answered : ∀ reply after, device op state reply after → crash after ∧
      match reply with
      | .ok value => Runs device crash (next value) post own after
      | .error error => post (.error (wrap error)) own after) :
    Runs device crash (Routine.attempt wrap op >>= next) post own state := by
  refine bind (attempt holds ?_)
  intro reply after answers
  rcases answered reply after answers with ⟨holds, continues⟩
  refine ⟨holds, ?_⟩
  cases reply with
  | ok value => exact continues
  | error error => exact continues

theorem get {post : Except ε σ → σ → S → Prop} (holds : crash state)
    (done : post (.ok own) own state) :
    Runs device crash (MonadState.get : Routine Op σ ε σ) post own state :=
  Prog.Safe.pure holds done

theorem set {post : Except ε PUnit → σ → S → Prop} {next : σ} (holds : crash state)
    (done : post (.ok ⟨⟩) next state) :
    Runs device crash (MonadStateOf.set next : Routine Op σ ε PUnit) post own state :=
  Prog.Safe.pure holds done

theorem update {post : Except ε PUnit → σ → S → Prop} {change : σ → σ} (holds : crash state)
    (done : post (.ok ⟨⟩) (change own) state) :
    Runs device crash (modify change : Routine Op σ ε PUnit) post own state :=
  Prog.Safe.pure holds done

theorem handle {handler : ε → Routine Op σ ε α}
    (runs : Runs device crash routine (fun result own state =>
      match result with
      | .ok value => post (.ok value) own state
      | .error error => Runs device crash (handler error) post own state) own state) :
    Runs device crash (tryCatch routine handler) post own state := by
  refine Prog.Safe.bind (runs.mono (fun _ => id) ?_)
  rintro ⟨result, own⟩ state holds continues
  cases result with
  | ok value => exact Prog.Safe.pure holds continues
  | error error => exact continues

theorem mono (runs : Runs device crash routine post own state)
    (weaker : ∀ state, crash state → crash' state)
    (follows : ∀ result own state, crash state → post result own state →
      post' result own state) :
    Runs device crash' routine post' own state :=
  Prog.Safe.mono runs weaker fun result => follows result.1 result.2

theorem follow (runs : Runs device crash routine post own state)
    (follows : ∀ result own state, crash state → post result own state →
      post' result own state) :
    Runs device crash routine post' own state :=
  runs.mono (fun _ => id) follows

theorem and (first : Runs device crash routine post own state)
    (second : Runs device crash' routine post' own state) :
    Runs device crash routine (fun result own state =>
      post result own state ∧ post' result own state) own state :=
  ⟨first.visits, fun value final returns =>
    ⟨first.returns value final returns, second.returns value final returns⟩⟩

theorem returned (runs : Runs device crash routine post own state)
    {result : Except ε α} {final : σ} {after : S}
    (returns : Prog.Returns device (routine.run.run own) state (result, final) after) :
    post result final after :=
  runs.returns _ _ returns

end Runs

end Routine

end ChronoScope
