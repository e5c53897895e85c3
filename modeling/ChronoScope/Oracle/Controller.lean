import Mathlib.Logic.Relation
import ChronoScope.Chronolog.Wire

/-!
# The membership controller

The controller asks for one membership change after the other. It waits for the
first thing to come out of its inbox, into which go the answers of the nodes and,
two seconds after each call, a message that stands for the timeout. Nothing in the
inbox says which call it belongs to, so what is left over from an earlier call
decides the next one.
-/

namespace ChronoScope.Oracle

open Chronolog (NodeId AdminResult)

/-- What arrives in the inbox, with the call it belongs to. -/
inductive Mail where
  /-- The answer of the node that the change was sent to. -/
  | reply (call : ℕ) (sender : NodeId) (result : AdminResult)
  | timeout (call : ℕ)

namespace Mail

def call : Mail → ℕ
  | .reply call _ _ => call
  | .timeout call => call

/-- All that the inbox holds of it. -/
def message : Mail → NodeId × AdminResult
  | .reply _ sender result => (sender, result)
  | .timeout _ => (2 ^ 32 - 1, .rejected)

def accepts (mail : Mail) : Bool :=
  match mail.message.2 with
  | .accepted _ => true
  | _ => false

end Mail

structure Controller where
  leaderHint : Option NodeId
  inbox : List Mail
  /-- How many changes have been asked for. -/
  calls : ℕ
  /-- Whether the last call has yet to return. -/
  waiting : Bool
  /-- What each call received and returned. -/
  returned : List (Mail × Bool)

namespace Controller

def initial : Controller where
  leaderHint := none
  inbox := []
  calls := 0
  waiting := false
  returned := []

/-- A call that waits takes the next message. -/
def receive (c : Controller) : Controller :=
  match c.waiting, c.inbox with
  | true, mail :: rest =>
    let hint := match mail.message.2 with
      | .accepted _ => c.leaderHint
      | .notLeader hint => hint
      | .rejected => none
    { c with
      leaderHint := hint
      inbox := rest
      waiting := false
      returned := c.returned ++ [(mail, mail.accepts)] }
  | _, _ => c

def sendChange (c : Controller) : Controller :=
  { c with calls := c.calls + 1, waiting := true }.receive

def arrive (c : Controller) (mail : Mail) : Controller :=
  { c with inbox := c.inbox ++ [mail] }.receive

/-- One call at a time; what arrives belongs to a call that was made. -/
inductive Step : Controller → Controller → Prop where
  | sendChange {c : Controller} (idle : c.waiting = false) : Step c c.sendChange
  | arrive {c : Controller} {mail : Mail} (made : mail.call ≤ c.calls) : Step c (c.arrive mail)

variable {c c' : Controller} {arrivals : List Mail}

theorem receive_calls (c : Controller) : c.receive.calls = c.calls := by
  unfold receive
  split <;> rfl

theorem mem_inbox_of_receive {mail : Mail} (present : mail ∈ c.receive.inbox) :
    mail ∈ c.inbox := by
  unfold receive at present
  split at present
  · next inbox =>
      rw [inbox]
      exact List.mem_cons_of_mem _ present
  · exact present

theorem Step.made (step : Step c c') (made : ∀ mail ∈ c.inbox, mail.call ≤ c.calls) :
    ∀ mail ∈ c'.inbox, mail.call ≤ c'.calls := by
  intro mail present
  cases step with
  | sendChange idle =>
    have old : mail ∈ c.inbox :=
      mem_inbox_of_receive (c := { c with calls := c.calls + 1, waiting := true }) present
    rw [Controller.sendChange, receive_calls]
    exact (made mail old).trans (Nat.le_succ _)
  | arrive isMade =>
    rw [Controller.arrive, receive_calls]
    rcases List.mem_append.mp (mem_inbox_of_receive present) with old | new
    · exact made mail old
    · rwa [List.mem_singleton.mp new]

theorem made_of_reachable (reachable : Relation.ReflTransGen Step initial c) :
    ∀ mail ∈ c.inbox, mail.call ≤ c.calls := by
  induction reachable with
  | refl => simp [initial]
  | tail _ step ih => exact step.made ih

theorem foldl_arrive_returned (idle : c.waiting = false) :
    (arrivals.foldl arrive c).returned = c.returned := by
  induction arrivals generalizing c with
  | nil => rfl
  | cons mail arrivals ih =>
    have same : c.arrive mail = { c with inbox := c.inbox ++ [mail] } := by
      simp [arrive, receive, idle]
    rw [List.foldl_cons, ih (by rw [same, idle]), same]

/-- What decides a call is the first message, whosever it is. -/
theorem foldl_arrive_sendChange {mail : Mail} {rest : List Mail}
    (first : c.inbox ++ arrivals = mail :: rest) :
    (arrivals.foldl arrive c.sendChange).returned = c.returned ++ [(mail, mail.accepts)] := by
  cases inbox : c.inbox with
  | cons left inbox' =>
    rw [inbox] at first
    cases first
    have received : c.sendChange.returned = c.returned ++ [(mail, mail.accepts)] := by
      simp [sendChange, receive, inbox]
    rw [← received]
    exact foldl_arrive_returned (by simp [sendChange, receive, inbox])
  | nil =>
    rw [inbox, List.nil_append] at first
    subst first
    have waits : c.sendChange = { c with calls := c.calls + 1, waiting := true } := by
      simp [sendChange, receive, inbox]
    have received : (c.sendChange.arrive mail).returned =
        c.returned ++ [(mail, mail.accepts)] := by
      simp [waits, arrive, receive, inbox]
    rw [List.foldl_cons, ← received]
    exact foldl_arrive_returned (by simp [waits, arrive, receive, inbox])

/-- The change was accepted, and the answer was there before the timeout. -/
def AcceptedInTime (call : ℕ) (arrivals : List Mail) : Prop :=
  ∃ early sender index late,
    arrivals = early ++ .reply call sender (.accepted index) :: late ∧ .timeout call ∉ early

/-- The next call, with what arrives from then on, is decided by a message of its own, and returns
whether the change was accepted in time. -/
def OwnAnswer (c : Controller) (arrivals : List Mail) : Prop :=
  ∃ mail result, (arrivals.foldl arrive c.sendChange).returned = c.returned ++ [(mail, result)] ∧
    mail.call = c.calls + 1 ∧ (result = true ↔ AcceptedInTime (c.calls + 1) arrivals)

/-- A call gets its own answer just if nothing was left in the inbox, the first message to arrive
is one of its own, and it is the acceptance if there is one in time. -/
theorem ownAnswer_iff (reachable : Relation.ReflTransGen Step initial c)
    (timesOut : .timeout (c.calls + 1) ∈ arrivals) :
    c.OwnAnswer arrivals ↔ c.inbox = [] ∧ ∃ mail rest, arrivals = mail :: rest ∧
      mail.call = c.calls + 1 ∧
        (AcceptedInTime (c.calls + 1) arrivals → mail.accepts = true) := by
  constructor
  · rintro ⟨mail, result, returned, own, correct⟩
    cases inbox : c.inbox with
    | cons left inbox' =>
      -- what is left over belongs to an earlier call
      rw [foldl_arrive_sendChange (by rw [inbox, List.cons_append])] at returned
      simp only [List.append_cancel_left_eq, List.cons.injEq, Prod.mk.injEq, and_true] at returned
      have made := made_of_reachable reachable left (by simp [inbox])
      rw [returned.1, own] at made
      omega
    | nil =>
      rcases List.exists_cons_of_ne_nil (List.ne_nil_of_mem timesOut) with ⟨first, rest, rfl⟩
      rw [foldl_arrive_sendChange (by rw [inbox, List.nil_append])] at returned
      simp only [List.append_cancel_left_eq, List.cons.injEq, Prod.mk.injEq, and_true] at returned
      rcases returned with ⟨rfl, rfl⟩
      exact ⟨rfl, first, rest, rfl, own, correct.mpr⟩
  · rintro ⟨inbox, mail, rest, rfl, own, accepted⟩
    refine ⟨mail, mail.accepts, foldl_arrive_sendChange (by rw [inbox, List.nil_append]), own,
      ?_, accepted⟩
    intro accepts
    cases mail with
    | timeout call => cases accepts
    | reply call sender result =>
      cases result with
      | accepted index =>
        cases own
        exact ⟨[], sender, index, rest, rfl, by simp⟩
      | notLeader hint => cases accepts
      | rejected => cases accepts

def accepted (call index : ℕ) : List Mail := [.reply call 0 (.accepted index), .timeout call]

/-- The first call has timed out, and the second is accepted. -/
theorem second_ownAnswer :
    let c := initial.sendChange.arrive (.timeout 1)
    c.calls = 1 ∧ c.OwnAnswer (accepted 2 5) := by
  intro c
  have reachable : Relation.ReflTransGen Step initial c :=
    (Relation.ReflTransGen.single (.sendChange rfl)).tail (.arrive (by decide))
  exact ⟨rfl, (ownAnswer_iff reachable (List.mem_pair.mpr (Or.inr rfl))).mpr
    ⟨rfl, _, _, rfl, rfl, fun _ => rfl⟩⟩

/-- The first change is accepted, and two seconds later its timeout arrives. -/
def answered : Controller := (accepted 1 2).foldl arrive initial.sendChange

/-- The second change is accepted too, but the call has already returned that it was not. -/
theorem stale_timeout_decides :
    Relation.ReflTransGen Step initial answered ∧ answered.waiting = false ∧
      AcceptedInTime 2 (accepted 2 5) ∧
      ((accepted 2 5).foldl arrive answered.sendChange).returned =
        [(.reply 1 0 (.accepted 2), true), (.timeout 1, false)] := by
  refine ⟨?_, rfl, ⟨[], 0, 5, _, rfl, by simp⟩, rfl⟩
  exact ((Relation.ReflTransGen.single (.sendChange rfl)).tail (.arrive (by decide))).tail
    (.arrive (by decide))

end Controller

end ChronoScope.Oracle
