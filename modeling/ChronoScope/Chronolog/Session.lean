import ChronoScope.Chronolog.Client

/-!
# Client sessions

A client sends a request to the leader it knows of, or else to a server drawn at
random, and waits for an answer or for its own timer. A redirect replaces the
leader it knows of, and a server that is not available makes it forget. A timer
does neither, so a leader that has stopped answering is asked again.
-/

namespace ChronoScope.Chronolog

structure Client where
  id : ℕ
  seq : ℕ
  /-- Numbers the attempts. -/
  token : ℕ
  servers : List NodeId
  leaderHint : Option NodeId
  maxAttempts : ℕ

namespace Client

inductive Event where
  | reply (resp : Response)
  /-- The timer of the attempt with this token. -/
  | deadline (token : ℕ)

/-- How the wait for one attempt ends. -/
inductive Waited where
  | closed
  | timedOut
  | redirected
  | answered (outcome : Outcome)

inductive CallResult where
  | ok (outcome : Outcome)
  | unknown

/-- Where the next attempt goes, with the draw that is made if no leader is known. Without servers
there is no answer. -/
def target (client : Client) (draw : UInt64) : Option NodeId :=
  match client.leaderHint with
  | some hint => some hint
  | none => client.servers[draw.toNat % max client.servers.length 1]?

def learn (client : Client) (hint : Option NodeId) : Client :=
  let servers := match hint with
    | some node => if node ∈ client.servers then client.servers else client.servers ++ [node]
    | none => client.servers
  { client with servers := servers, leaderHint := hint }

/-- Wait for an answer to the attempt under way, with what arrives until the inbox is closed;
`none` while there is none. -/
def wait (client : Client) (closed : Bool) : List Event → Option (Waited × Client × List Event)
  | [] => if closed then some (.closed, client, []) else none
  | .deadline token :: rest =>
    if token = client.token then some (.timedOut, client, rest) else client.wait closed rest
  | .reply resp :: rest =>
    if resp.clientId ≠ client.id ∨ resp.seq ≠ client.seq then client.wait closed rest
    else match resp.outcome with
      | .notLeader hint => some (.redirected, client.learn hint, rest)
      | .unavailable => some (.redirected, { client with leaderHint := none }, rest)
      | outcome => some (.answered outcome, client, rest)

/-- One attempt: the server it is sent to, how it ends, and what has not been received yet. -/
def attempt (client : Client) (closed : Bool) (draw : UInt64) (events : List Event) :
    Option (NodeId × Waited × Client × List Event) := do
  let node ← client.target draw
  let ended ← { client with token := client.token + 1 }.wait closed events
  pure (node, ended)

/-- The attempts of a call, with a draw for each: the servers asked, and how it ends. -/
def attempts (client : Client) (closed : Bool) (events : List Event) :
    List UInt64 → Option (List NodeId × CallResult × Client)
  | [] => some ([], .unknown, client)
  | draw :: draws => do
      let (node, waited, client, events) ← client.attempt closed draw events
      match waited with
      | .closed => pure ([node], .unknown, client)
      | .answered outcome => pure ([node], .ok outcome, client)
      | _ =>
        let (nodes, ended) ← client.attempts closed events draws
        pure (node :: nodes, ended)

/-- Issue one operation. The sequence number is fixed for the whole call. -/
def call (client : Client) (closed : Bool) (events : List Event) (draws : ℕ → UInt64) :
    Option (List NodeId × CallResult × Client) :=
  { client with seq := client.seq + 1 }.attempts closed events
    ((List.range client.maxAttempts).map draws)

theorem wait_timedOut {client client' : Client} {closed : Bool} {events rest : List Event}
    (waits : client.wait closed events = some (.timedOut, client', rest)) : client' = client := by
  induction events with
  | nil => cases closed <;> cases waits
  | cons event events ih =>
    cases event with
    | deadline token =>
      simp only [wait] at waits
      split_ifs at waits
      · cases waits
        rfl
      · exact ih waits
    | reply resp =>
      simp only [wait] at waits
      split_ifs at waits with stale
      · exact ih waits
      · cases outcome : resp.outcome <;> simp [outcome] at waits

/-- After an attempt at a known leader has timed out, every server can be drawn for the next one
just if there is no other server than that leader. -/
theorem drawn_after_timeout_iff {client client' : Client} {hint node : NodeId} {closed : Bool}
    {draw : UInt64} {events rest : List Event} (hinted : client.leaderHint = some hint)
    (timesOut : client.attempt closed draw events = some (node, .timedOut, client', rest)) :
    (∀ server ∈ client.servers, ∃ next, client'.target next = some server) ↔
      ∀ server ∈ client.servers, server = hint := by
  have isHint : client.target draw = some hint := by simp only [target, hinted]
  have waits : { client with token := client.token + 1 }.wait closed events =
      some (.timedOut, client', rest) := by
    simp only [attempt, isHint, Option.bind_eq_bind, Option.bind_some,
      Option.bind_eq_some_iff] at timesOut
    rcases timesOut with ⟨ended, waits, same⟩
    cases same
    exact waits
  have kept : client' = { client with token := client.token + 1 } := wait_timedOut waits
  have sameTarget (next : UInt64) : client'.target next = some hint := by
    simp only [kept, target, hinted]
  constructor
  · intro drawn server isServer
    rcases drawn server isServer with ⟨next, isTarget⟩
    exact Option.some.inj (isTarget.symm.trans (sameTarget next))
  · intro alone server isServer
    exact ⟨0, by rw [sameTarget, alone server isServer]⟩

def loyal : Client where
  id := 1
  seq := 0
  token := 0
  servers := [0, 1]
  leaderHint := some 0
  maxAttempts := 3

theorem loyal_drawn_iff :
    (∀ server ∈ loyal.servers, ∃ next,
        { loyal with token := 1 }.target next = some server) ↔
      ∀ server ∈ loyal.servers, server = 0 :=
  drawn_after_timeout_iff (show loyal.leaderHint = some 0 from rfl)
    (show loyal.attempt false 0 [.deadline 1] =
      some (0, .timedOut, { loyal with token := 1 }, []) from rfl)

/-- Server 0 does not answer: all attempts of the call go to it, and the next call's will, whatever
is drawn. -/
theorem dead_leader_captures_client :
    loyal.call false [.deadline 1, .deadline 2, .deadline 3] (fun _ => 1) =
        some ([0, 0, 0], .unknown, { loyal with seq := 1, token := 3 }) ∧
      1 ∈ loyal.servers ∧ ∀ next, { loyal with seq := 1, token := 3 }.target next ≠ some 1 :=
  ⟨rfl, by decide, by intro next; simp [target, loyal]⟩

end Client

end ChronoScope.Chronolog
