import ChronoScope.Chronolog.Stances

/-!
# Campaigns and leader hints

Two things about elections, over every run of a cluster with changes of membership
and crashes.

A node that was polling campaigns only upon a quorum of grants, but nothing in a
grant says which poll it answers: a grant of an earlier poll that arrives late is
counted like a new one. And the leader a node names did lead, unless the node has
learned of a later term from a reply, which any follower may have sent.
-/

namespace ChronoScope.Chronolog

variable {network : List Envelope} {id : NodeId}

namespace Raft

section

variable {heard : Option (NodeId × Message)} {start r r' : Raft}

/-- A node is known to have led a term, or leads it now. -/
def Leads (led : NodeId → ℕ → Prop) (r : Raft) (id : NodeId) (term : ℕ) : Prop :=
  led id term ∨ r.role = .leader ∧ id = r.id ∧ term = r.term

/-- Whom a node names as leader, and the terms in which it speaks as one itself, are vouched for. -/
structure Vouched (led : NodeId → ℕ → Prop) (r : Raft) : Prop where
  hint : ∀ id, r.leader = some id → r.Leads led id r.term
  mail : ∀ peer msg, (peer, msg) ∈ r.pending.messages → msg.body.fromLeader = true →
    r.Leads led r.id msg.term

variable {led : NodeId → ℕ → Prop}

theorem Leads.known {term : ℕ} (leads : r.Leads led id term)
    (known : r.role = .leader → led r.id r.term) : led id term := by
  rcases leads with led | ⟨isLeader, rfl, rfl⟩
  · exact led
  · exact known isLeader

theorem Shift.vouched (shift : Shift heard start r r') (sameId : r.id = start.id)
    (known : start.role = .leader → led start.id start.term)
    (spoken : ∀ sender msg, heard = some (sender, msg) → msg.body.fromLeader = true →
      led sender msg.term)
    (onTime : ∀ sender msg, heard = some (sender, msg) → msg.body.isReply = true →
      msg.term ≤ start.term)
    (vouched : r.Vouched led) : r'.Vouched led := by
  have leaves (kept : r.role = .leader → start.role = .leader ∧ start.term = r.term) :
      r.role = .leader → led r.id r.term := by
    intro leads
    rcases kept leads with ⟨led, sameTerm⟩
    rw [sameId, ← sameTerm]
    exact known led
  cases shift with
  | unmoved unmoved =>
    have same (id : NodeId) (term : ℕ) : r'.Leads led id term ↔ r.Leads led id term := by
      unfold Leads
      rw [unmoved.role, unmoved.id, unmoved.term]
    refine ⟨?_, ?_⟩
    · intro id named
      rw [unmoved.leader] at named
      rw [same, unmoved.term]
      exact vouched.hint id named
    · intro peer msg waits order
      rw [same, unmoved.id]
      rcases unmoved.posted peer msg waits with earlier | utters
      · exact vouched.mail peer msg earlier order
      · rcases utters.leads order with ⟨leads, sameTerm⟩
        exact Or.inr ⟨leads, rfl, sameTerm⟩
  | standDown kept announced =>
    refine ⟨?_, ?_⟩
    · intro id named
      rw [becomeFollower_leader] at named
      rcases announced id named with ⟨msg, asked, sameTerm, order | ⟨replies, later⟩⟩
      · rw [becomeFollower_term, ← sameTerm]
        exact Or.inl (spoken id msg asked order)
      · exact absurd (onTime id msg asked replies) (Nat.not_le.mpr later)
    · intro peer msg waits order
      rw [becomeFollower_pending] at waits
      rw [becomeFollower_id]
      exact Or.inl ((vouched.mail peer msg waits order).known (leaves kept))
  | defer kept asked sameTerm order =>
    refine ⟨?_, ?_⟩
    · intro id named
      rw [followLeader_leader] at named
      cases named
      rw [followLeader_term, ← sameTerm]
      exact Or.inl (spoken _ _ asked order)
    · intro peer msg waits order
      rw [followLeader_pending] at waits
      rw [followLeader_id]
      exact Or.inl ((vouched.mail peer msg waits order).known (leaves kept))
  | poll notLeader =>
    have known : r.role = .leader → led r.id r.term := fun leads => absurd leads notLeader
    exact ⟨fun id named => Or.inl ((vouched.hint id named).known known),
      fun peer msg waits order => Or.inl ((vouched.mail peer msg waits order).known known)⟩
  | count => exact ⟨vouched.hint, vouched.mail⟩
  | quit polling =>
    have known : r.role = .leader → led r.id r.term := fun leads => by simp [polling] at leads
    exact ⟨fun id named => Or.inl ((vouched.hint id named).known known),
      fun peer msg waits order => Or.inl ((vouched.mail peer msg waits order).known known)⟩
  | collect => exact ⟨vouched.hint, vouched.mail⟩
  | stand kept =>
    exact ⟨nofun, fun peer msg waits order =>
      Or.inl ((vouched.mail peer msg waits order).known (leaves kept))⟩
  | openTerm candidacy =>
    have known : r.role = .leader → led r.id r.term := fun leads => by simp [candidacy] at leads
    refine ⟨?_, fun peer msg waits order =>
      Or.inl ((vouched.mail peer msg waits order).known known)⟩
    intro id named
    exact Or.inr ⟨rfl, (Option.some.inj named).symm, rfl⟩

/-- Whoever a polling node counts, other than itself, has granted the term it polls for. -/
def Polled (network : List Envelope) (r : Raft) : Prop :=
  r.role = .preCandidate → ∀ voter, r.votes.get voter = some true →
    voter = r.id ∨ ⟨voter, r.id, ⟨r.term + 1, .preVoteResp true⟩⟩ ∈ network

/-- A term of its own, which the node stands for or leads already. -/
def Campaigns (r r' : Raft) : Prop :=
  r.term < r'.term ∧ (r'.role = .candidate ∨ r'.role = .leader)

/-- A quorum, the node itself included, has granted the term it polls for. -/
def Seconded (network : List Envelope) (r : Raft) : Prop :=
  ∃ quorum, r.log.config.hasQuorum quorum = true ∧ r.id ∈ quorum ∧
    ∀ voter ∈ quorum, voter = r.id ∨
      ⟨voter, r.id, ⟨r.term + 1, .preVoteResp true⟩⟩ ∈ network

theorem Polled.more {more : List Envelope} (polled : r.Polled network)
    (included : ∀ envelope ∈ network, envelope ∈ more) : r.Polled more :=
  fun polling voter granted => (polled polling voter granted).imp_right (included _)

theorem Shift.polled (shift : Shift heard start r r')
    (fresh : start.role = .preCandidate →
      ∀ sender term, heard = some (sender, ⟨term, .preVoteResp true⟩) → start.term ≤ term →
        ⟨sender, start.id, ⟨start.term + 1, .preVoteResp true⟩⟩ ∈ network)
    (polled : r.Polled network) : r'.Polled network := by
  intro polling voter granted
  cases shift with
  | unmoved unmoved =>
    rw [unmoved.id, unmoved.term]
    exact polled (unmoved.role.symm.trans polling) voter (unmoved.votes ▸ granted)
  | standDown =>
    rw [becomeFollower_role] at polling
    cases polling
  | defer =>
    rw [followLeader_role] at polling
    cases polling
  | poll =>
    simp only [Raft.poll, beginCampaign, BTreeMap.get_insert, BTreeMap.get_empty] at granted
    split_ifs at granted with self
    exact Or.inl self
  | @count sender term isGrant wasPolling asked inTime =>
    rw [BTreeMap.get_insert] at granted
    split_ifs at granted with isSender
    · subst isSender
      obtain rfl := Option.some.inj granted
      exact Or.inr (fresh wasPolling _ term asked inTime)
    · exact polled polling voter granted
  | quit => cases polling
  | collect _ _ candidacy => exact absurd (candidacy.symm.trans polling) (by decide)
  | stand => cases polling
  | openTerm => cases polling

theorem Polled.seconded (polled : r.Polled network) (polling : r.role = .preCandidate)
    (won : r.tally r.log.config = true) (sameId : r.id = start.id) (sameLog : r.log = start.log)
    (sameTerm : r.term = start.term) : start.Seconded network := by
  refine ⟨r.granted.insert r.id, ?_, ?_, ?_⟩
  · rw [← sameLog]
    exact Config.hasQuorum_mono (fun id voted => BTreeSet.mem_insert.mpr (Or.inr voted)) won
  · exact BTreeSet.mem_insert.mpr (Or.inl sameId.symm)
  · intro voter counted
    rw [← sameId, ← sameTerm]
    rcases BTreeSet.mem_insert.mp counted with self | voted
    · exact Or.inl self
    · exact polled polling voter (mem_granted_iff.mp voted)

theorem Shift.seconded (shift : Shift heard start r r') (polls : r.opts.preVote = true)
    (sameId : r.id = start.id)
    (unforced : ∀ sender term, heard ≠ some (sender, ⟨term, .timeoutNow⟩))
    (polled : r.Polled network) (earlier : start.Campaigns r → start.Seconded network)
    (campaigns : start.Campaigns r') : start.Seconded network := by
  rcases campaigns with ⟨later, stands⟩
  cases shift with
  | unmoved unmoved =>
    rw [unmoved.term] at later
    rw [unmoved.role] at stands
    exact earlier ⟨later, stands⟩
  | standDown => simp at stands
  | defer => simp at stands
  | poll => simp [Raft.poll] at stands
  | count => exact earlier ⟨later, stands⟩
  | quit => simp at stands
  | collect => exact earlier ⟨later, stands⟩
  | stand _ called =>
    rcases called with ⟨polling, won, sameLog, sameTerm⟩ | noPoll | ⟨sender, term, forced⟩
    · exact polled.seconded polling won sameId sameLog sameTerm
    · simp [polls] at noPoll
    · exact absurd forced (unforced sender term)
  | openTerm candidacy => exact earlier ⟨later, Or.inl candidacy⟩

end

end Raft

namespace Setup

variable {σ : Type} {setup : Setup σ}

/-- A deed changes one node, by shifts or by a crash, and may send what this node had posted. -/
structure Effect (now : Cluster σ) (deed : Deed) (next : Cluster σ) : Prop where
  others : ∀ id, id ≠ deed.actor → next.node id = now.node id
  heard : ∀ sender msg, deed.heard = some (sender, msg) → ⟨sender, deed.actor, msg⟩ ∈ now.network
  stays : ∀ envelope ∈ now.network, envelope ∈ next.network
  sent : ∀ envelope ∈ next.network, envelope ∈ now.network ∨ envelope.sender = deed.actor ∧
    (envelope.receiver, envelope.msg) ∈ (now.node deed.actor).raft.pending.messages
  raft : Raft.Shifts deed.heard (now.node deed.actor).raft (now.node deed.actor).raft
      (next.node deed.actor).raft ∨
    ∃ disk : Durable, ∃ bootstrap : Config, (next.node deed.actor).raft =
      .restore (now.node deed.actor).raft.id (now.node deed.actor).raft.opts disk.hardState
        disk.snapshot disk.entries bootstrap

theorem Effect.of_place {now : Cluster σ} {deed : Deed} {node : Node σ}
    (heard : ∀ sender msg, deed.heard = some (sender, msg) →
      ⟨sender, deed.actor, msg⟩ ∈ now.network)
    (raft : Raft.Shifts deed.heard (now.node deed.actor).raft (now.node deed.actor).raft
        node.raft ∨
      ∃ disk : Durable, ∃ bootstrap : Config, node.raft =
        .restore (now.node deed.actor).raft.id (now.node deed.actor).raft.opts disk.hardState
          disk.snapshot disk.entries bootstrap) :
    Effect now deed (place now deed.actor node) where
  others _ other := Function.update_of_ne other _ _
  heard := heard
  stays _ member := member
  sent _ member := Or.inl member
  raft := by
    simp only [place, Function.update_self]
    exact raft

theorem effect_cycle (now : Cluster σ) (id : NodeId) :
    Effect now (.act (.cycle id)) { place now id ((now.node id).cycle setup.machine) with
      network := now.network ++
        (now.node id).raft.ready.1.messages.map fun sent => ⟨id, sent.1, sent.2⟩
      handed := now.handed ++ (Node.handovers (now.node id).raft.ready.1).map (id, ·) } where
  others _ other := Function.update_of_ne other _ _
  heard := nofun
  stays _ member := List.mem_append_left _ member
  sent envelope member := by
    rcases List.mem_append.mp member with earlier | new
    · exact Or.inl earlier
    · rcases List.mem_map.mp new with ⟨sent, posted, rfl⟩
      exact Or.inr ⟨rfl, posted⟩
  raft := by
    simp only [place, Deed.actor, Action.actor, Function.update_self]
    exact Or.inl (.unmoved (.cycle _))

theorem effect_of_perform {now next : Cluster σ} {deed : Deed}
    (done : setup.perform now deed = some next) : Effect now deed next := by
  cases deed with
  | act action =>
    have event := setup.event_of_act done
    cases event with
    | @input id input delivered =>
      refine .of_place ?_ (Or.inl ?_)
      · intro sender msg heard
        cases input with
        | message =>
          cases heard
          exact of_decide_eq_true delivered
        | _ => cases heard
      · exact Raft.Shifts.feed id input
    | cycle id => exact effect_cycle now id
    | compact idle made =>
      rcases Option.map_eq_some_iff.mp made with ⟨snap, _, rfl⟩
      exact .of_place nofun (Or.inl (.unmoved (.of rfl rfl)))
    | @ship id peer node idle made =>
      unfold Node.ship at made
      split_ifs at made with leads
      rcases Option.map_eq_some_iff.mp made with ⟨snap, _, rfl⟩
      exact .of_place nofun (Or.inl (.unmoved (.sendSnapshot leads peer snap)))
    | stepDown idle => exact .of_place nofun (Or.inl Raft.Shifts.stepDown)
    | @restart id idle => exact .of_place nofun (Or.inr ⟨(now.node id).disk, setup.config, rfl⟩)
  | proposeConfig id change =>
    cases done
    exact .of_place nofun (Or.inl (.unmoved (.proposeConfig change)))
  | finishConfig id =>
    cases done
    exact .of_place nofun (Or.inl (.unmoved .maybeFinishConfigChange))
  | crash id disk =>
    cases done
    exact .of_place nofun (Or.inr ⟨disk, setup.config, rfl⟩)

/-- The node was leader of the term at one of these points. -/
def Led (states : List (Cluster σ)) (id : NodeId) (term : ℕ) : Prop :=
  ∃ point ∈ states, (point.node id).raft.role = .leader ∧ (point.node id).raft.term = term

theorem Led.later {states : List (Cluster σ)} {term : ℕ} (led : Led states id term)
    (next : Cluster σ) : Led (next :: states) id term := by
  rcases led with ⟨point, member, leads⟩
  exact ⟨point, List.mem_cons_of_mem _ member, leads⟩

/-- No reply of a later term than the receiver's is delivered. -/
def NoLaterReply (now : Cluster σ) (deed : Deed) : Prop :=
  ∀ heard ∈ deed.heard, heard.2.body.isReply = true →
    heard.2.term ≤ (now.node deed.actor).raft.term

instance (now : Cluster σ) (deed : Deed) : Decidable (NoLaterReply now deed) :=
  inferInstanceAs (Decidable (∀ heard ∈ deed.heard, _))

/-- Everything that names a leader, in a node or under way, names one that has led. -/
structure Truthful (now : Cluster σ) (past : List (Cluster σ)) : Prop where
  ids : ∀ id, (now.node id).raft.id = id
  vouched : ∀ id, (now.node id).raft.Vouched (Led (now :: past))
  spoken : ∀ envelope ∈ now.network, envelope.msg.body.fromLeader = true →
    Led (now :: past) envelope.sender envelope.msg.term

theorem truthful_initial : Truthful setup.initial [] where
  ids _ := rfl
  vouched _ := ⟨nofun, nofun⟩
  spoken := nofun

variable {past : List (Cluster σ)}

theorem vouched_later {now next : Cluster σ}
    (vouched : (next.node id).raft.Vouched (Led (now :: past))) :
    (next.node id).raft.Vouched (Led (next :: now :: past)) := by
  have later {leader : NodeId} {term : ℕ}
      (leads : (next.node id).raft.Leads (Led (now :: past)) leader term) :
      (next.node id).raft.Leads (Led (next :: now :: past)) leader term :=
    leads.imp_left fun led => led.later next
  exact ⟨fun leader named => later (vouched.hint leader named),
    fun peer msg waits order => later (vouched.mail peer msg waits order)⟩

theorem Truthful.step {now next : Cluster σ} {deed : Deed} (truthful : Truthful now past)
    (onTime : NoLaterReply now deed) (effect : Effect now deed next) :
    Truthful next (now :: past) := by
  let r := (now.node deed.actor).raft
  have isActor : r.id = deed.actor := truthful.ids deed.actor
  have known : r.role = .leader → Led (now :: past) r.id r.term := by
    intro leads
    rw [isActor]
    exact ⟨now, List.mem_cons_self, leads, rfl⟩
  have acted : (next.node deed.actor).raft.id = deed.actor ∧
      (next.node deed.actor).raft.Vouched (Led (now :: past)) := by
    rcases effect.raft with shifts | ⟨disk, bootstrap, restored⟩
    · have kept : (next.node deed.actor).raft.id = r.id ∧
          (next.node deed.actor).raft.Vouched (Led (now :: past)) := by
        refine shifts.keeps (P := fun q => q.id = r.id ∧ q.Vouched (Led (now :: past)))
          ?_ ⟨rfl, truthful.vouched deed.actor⟩
        rintro q q' shift ⟨sameId, vouched⟩
        refine ⟨shift.id_eq.trans sameId, shift.vouched sameId known ?_ ?_ vouched⟩
        · intro sender msg heard order
          exact truthful.spoken _ (effect.heard sender msg heard) order
        · intro sender msg heard replies
          exact onTime (sender, msg) heard replies
      exact ⟨kept.1.trans isActor, kept.2⟩
    · rw [restored]
      exact ⟨isActor, nofun, nofun⟩
  have everyone (id : NodeId) : (next.node id).raft.id = id ∧
      (next.node id).raft.Vouched (Led (now :: past)) := by
    by_cases acts : id = deed.actor
    · rw [acts]
      exact acted
    · rw [effect.others id acts]
      exact ⟨truthful.ids id, truthful.vouched id⟩
  refine ⟨fun id => (everyone id).1, fun id => vouched_later (everyone id).2, ?_⟩
  intro envelope member order
  rcases effect.sent envelope member with earlier | ⟨sender, posted⟩
  · exact (truthful.spoken envelope earlier order).later next
  · have leads := (truthful.vouched deed.actor).mail _ _ posted order
    rw [sender, ← isActor]
    exact (leads.known known).later next

/-- As long as no reply of a later term is delivered, a node names only leaders that have led its
term by then. -/
theorem leader_hint_truthful {now : Cluster σ} {past : List (Cluster σ)}
    (run : setup.Run NoLaterReply (now :: past)) (id leader : NodeId)
    (named : (now.node id).raft.leader = some leader) :
    ∃ point ∈ now :: past, (point.node leader).raft.role = .leader ∧
      (point.node leader).raft.term = (now.node id).raft.term := by
  have truthful : Truthful now past := run.holds truthful_initial
    fun truthful onTime done => truthful.step onTime (effect_of_perform done)
  refine ((truthful.vouched id).hint leader named).known fun leads => ?_
  rw [truthful.ids id]
  exact ⟨now, List.mem_cons_self, leads, rfl⟩

/-- Three nodes that stand for election at every tick, after a poll or without. -/
def trio (preVote : Bool) : Setup Unit where
  machine :=
    { init := (), apply := fun _ _ => (), snapshot := fun _ => [], restore := fun _ => some (),
      restore_snapshot := fun _ => rfl }
  voters := .ofList [0, 1, 2]
  learners := ∅
  opts _ := { RaftOptions.default with electionTicks := 1, preVote := preVote }

/-- Node 0 is elected leader of term 1, and node 1 hears from it. -/
def elected : List Deed :=
  [.act (.input 0 (.tick 0)), .act (.cycle 0),
    .act (.input 1 (.message 0 ⟨1, .voteReq 0 0⟩)), .act (.cycle 1),
    .act (.input 0 (.message 1 ⟨1, .voteResp true⟩)), .act (.cycle 0),
    .act (.input 1 (.message 0 ⟨1, .appendReq 0 0 [⟨1, 1, .noop⟩] 0⟩)), .act (.cycle 1)]

def hearing : Cluster Unit × List (Cluster Unit) := (trio false).trail NoLaterReply elected

/-- Node 2 stands twice, then answers the leader of term 1 from its own term. -/
def deposed : Cluster Unit × List (Cluster Unit) :=
  (trio false).trail (fun _ _ => True) (elected ++
    [.act (.input 2 (.tick 0)), .act (.input 2 (.tick 0)), .act (.cycle 2),
      .act (.input 2 (.message 0 ⟨1, .appendReq 0 0 [⟨1, 1, .noop⟩] 0⟩)), .act (.cycle 2),
      .act (.input 0 (.message 2 ⟨2, .appendResp false 0 0 0⟩))])

/-- The deposed leader takes the candidate whose reply it got for the leader. -/
theorem deposed_names_a_candidate :
    (trio false).Run (fun _ _ => True) (deposed.1 :: deposed.2) ∧
      (deposed.1.node 0).raft.leader = some 2 ∧
      ∀ point ∈ deposed.1 :: deposed.2, ¬ ((point.node 2).raft.role = .leader ∧
        (point.node 2).raft.term = (deposed.1.node 0).raft.term) :=
  ⟨(trio false).run_trail _ _, by decide +kernel, by decide +kernel⟩

theorem hearing_names_the_leader :
    ∃ point ∈ hearing.1 :: hearing.2, (point.node 0).raft.role = .leader ∧
      (point.node 0).raft.term = (hearing.1.node 1).raft.term :=
  leader_hint_truthful ((trio false).run_trail NoLaterReply elected) 1 0 (by decide +kernel)

/-- A grant that is delivered to a polling node is for the term it polls for, unless it is so old
that it is dropped. -/
def FreshGrants (now : Cluster σ) (deed : Deed) : Prop :=
  ∀ heard ∈ deed.heard, heard.2.body = .preVoteResp true →
    (now.node deed.actor).raft.role = .preCandidate →
    (now.node deed.actor).raft.term ≤ heard.2.term →
    heard.2.term = (now.node deed.actor).raft.term + 1

instance (now : Cluster σ) (deed : Deed) : Decidable (FreshGrants now deed) :=
  inferInstanceAs (Decidable (∀ heard ∈ deed.heard, _))

/-- What is known of a node that polls before it campaigns. -/
structure PollsAt (setup : Setup σ) (network : List Envelope) (id : NodeId) (r : Raft) :
    Prop where
  isId : r.id = id
  opts : r.opts = setup.opts id
  polled : r.Polled network
  /-- A grant that waits to be sent answers a poll. -/
  asked : ∀ peer msg, (peer, msg) ∈ r.pending.messages → msg.body = .preVoteResp true →
    ∃ lastIndex lastTerm, ⟨peer, id, ⟨msg.term, .preVoteReq lastIndex lastTerm⟩⟩ ∈ network

theorem PollsAt.more {more : List Envelope} {r : Raft} (polls : PollsAt setup network id r)
    (included : ∀ envelope ∈ network, envelope ∈ more) :
    PollsAt setup more id r where
  isId := polls.isId
  opts := polls.opts
  polled := polls.polled.more included
  asked peer msg waits grants := by
    rcases polls.asked peer msg waits grants with ⟨lastIndex, lastTerm, member⟩
    exact ⟨lastIndex, lastTerm, included _ member⟩

/-- Every node is as said, and every grant under way answers a poll. -/
structure Polls (setup : Setup σ) (now : Cluster σ) : Prop where
  nodes : ∀ id, PollsAt setup now.network id (now.node id).raft
  asked : ∀ envelope ∈ now.network, envelope.msg.body = .preVoteResp true →
    ∃ lastIndex lastTerm, ⟨envelope.receiver, envelope.sender,
      ⟨envelope.msg.term, .preVoteReq lastIndex lastTerm⟩⟩ ∈ now.network

theorem polls_initial : Polls setup setup.initial where
  nodes _ := ⟨rfl, rfl, nofun, nofun⟩
  asked := nofun

section

variable {now next : Cluster σ} {deed : Deed}

section

variable (polls : Polls setup now) (fresh : FreshGrants now deed) (effect : Effect now deed next)

include polls fresh effect

theorem Polls.counted (polling : (now.node deed.actor).raft.role = .preCandidate) (sender : NodeId)
    (term : ℕ) (heard : deed.heard = some (sender, ⟨term, .preVoteResp true⟩))
    (inTime : (now.node deed.actor).raft.term ≤ term) :
    ⟨sender, (now.node deed.actor).raft.id,
      ⟨(now.node deed.actor).raft.term + 1, .preVoteResp true⟩⟩ ∈ now.network := by
  obtain rfl : term = (now.node deed.actor).raft.term + 1 := fresh _ heard rfl polling inTime
  rw [(polls.nodes deed.actor).isId]
  exact effect.heard _ _ heard

theorem Polls.shift {r r' : Raft} (shift : Raft.Shift deed.heard (now.node deed.actor).raft r r')
    (pollsAt : PollsAt setup now.network deed.actor r) :
    PollsAt setup now.network deed.actor r' where
  isId := shift.id_eq.trans pollsAt.isId
  opts := shift.opts_eq.trans pollsAt.opts
  polled := shift.polled (polls.counted fresh effect) pollsAt.polled
  asked peer msg waits grants := by
    rcases shift.posted waits with earlier | utters
    · exact pollsAt.asked peer msg earlier grants
    · rcases utters.asked grants with ⟨lastIndex, lastTerm, heard⟩
      exact ⟨lastIndex, lastTerm, effect.heard _ _ heard⟩

theorem Polls.step : Polls setup next := by
  have acted : PollsAt setup now.network deed.actor (next.node deed.actor).raft := by
    rcases effect.raft with shifts | ⟨disk, bootstrap, restored⟩
    · exact shifts.keeps (polls.shift fresh effect) (polls.nodes deed.actor)
    · rw [restored]
      exact ⟨(polls.nodes _).isId, (polls.nodes _).opts, nofun, nofun⟩
  refine ⟨?_, ?_⟩
  · intro id
    by_cases acts : id = deed.actor
    · rw [acts]
      exact acted.more effect.stays
    · rw [effect.others id acts]
      exact (polls.nodes id).more effect.stays
  · intro envelope member grants
    have answers : ∃ lastIndex lastTerm, ⟨envelope.receiver, envelope.sender,
        ⟨envelope.msg.term, .preVoteReq lastIndex lastTerm⟩⟩ ∈ now.network := by
      rcases effect.sent envelope member with earlier | ⟨sender, posted⟩
      · exact polls.asked envelope earlier grants
      · rw [sender]
        exact (polls.nodes _).asked _ _ posted grants
    rcases answers with ⟨lastIndex, lastTerm, polled⟩
    exact ⟨lastIndex, lastTerm, effect.stays _ polled⟩

end

theorem Polls.seconded (polls : Polls setup now) (polling : ∀ id, (setup.opts id).preVote = true)
    (fresh : FreshGrants now deed) (effect : Effect now deed next)
    (unforced : ∀ sender term, deed.heard ≠ some (sender, ⟨term, .timeoutNow⟩))
    (campaigns : (now.node id).raft.Campaigns (next.node id).raft) :
    (now.node id).raft.Seconded now.network := by
  by_cases acts : id = deed.actor
  swap
  · rw [effect.others id acts] at campaigns
    exact absurd campaigns.1 (Nat.lt_irrefl _)
  subst acts
  rcases effect.raft with shifts | ⟨disk, bootstrap, restored⟩
  · have kept := shifts.keeps
      (P := fun q => PollsAt setup now.network deed.actor q ∧
        ((now.node deed.actor).raft.Campaigns q →
          (now.node deed.actor).raft.Seconded now.network))
      ?_ ⟨polls.nodes _, fun campaigns => absurd campaigns.1 (Nat.lt_irrefl _)⟩
    · exact kept.2 campaigns
    · rintro q q' shift ⟨pollsAt, earlier⟩
      have polls' : q.opts.preVote = true := by rw [pollsAt.opts, polling]
      have sameId : q.id = (now.node deed.actor).raft.id :=
        pollsAt.isId.trans (polls.nodes _).isId.symm
      exact ⟨polls.shift fresh effect shift pollsAt,
        shift.seconded polls' sameId unforced pollsAt.polled earlier⟩
  · rw [restored] at campaigns
    rcases campaigns.2 with stands | leads
    · cases stands
    · cases leads

end

/-- As long as no grant of another poll is delivered to a polling node, a node that polls first
campaigns only if a quorum of its configuration, itself included, has granted a poll it has sent
for the term it takes, unless it was told to campaign. -/
theorem campaign_is_seconded {now next : Cluster σ} {past : List (Cluster σ)} {deed : Deed}
    (polling : ∀ id, (setup.opts id).preVote = true)
    (run : setup.Run FreshGrants (now :: past)) (fresh : FreshGrants now deed)
    (done : setup.perform now deed = some next)
    (unforced : ∀ sender term, deed.heard ≠ some (sender, ⟨term, .timeoutNow⟩)) (id : NodeId)
    (campaigns : (now.node id).raft.Campaigns (next.node id).raft) :
    ∃ quorum, (now.node id).raft.log.config.hasQuorum quorum = true ∧ id ∈ quorum ∧
      ∀ voter ∈ quorum, voter = id ∨ ∃ lastIndex lastTerm,
        ⟨id, voter, ⟨(now.node id).raft.term + 1, .preVoteReq lastIndex lastTerm⟩⟩ ∈ now.network ∧
        ⟨voter, id, ⟨(now.node id).raft.term + 1, .preVoteResp true⟩⟩ ∈ now.network := by
  have polls : Polls setup now := run.holds (P := fun now _ => Polls setup now) polls_initial
    fun polls fresh done => polls.step fresh (effect_of_perform done)
  rcases polls.seconded polling fresh (effect_of_perform done) unforced campaigns with
    ⟨quorum, isQuorum, included, seconded⟩
  rw [(polls.nodes id).isId] at included seconded
  refine ⟨quorum, isQuorum, included, ?_⟩
  intro voter member
  refine (seconded voter member).imp_right fun granted => ?_
  rcases polls.asked _ granted rfl with ⟨lastIndex, lastTerm, polled⟩
  exact ⟨lastIndex, lastTerm, polled, granted⟩

/-- Node 0 polls for term 1, and node 1 grants it. -/
def polled : List Deed :=
  [.act (.input 0 (.tick 0)), .act (.cycle 0),
    .act (.input 1 (.message 0 ⟨1, .preVoteReq 0 0⟩)), .act (.cycle 1)]

/-- Before the grant arrives, node 2 takes term 1 and node 0 polls for term 2. -/
def overtaken : List Deed :=
  polled ++
    [.act (.input 2 (.tick 0)), .act (.cycle 2),
      .act (.input 1 (.message 2 ⟨1, .preVoteReq 0 0⟩)), .act (.cycle 1),
      .act (.input 2 (.message 1 ⟨1, .preVoteResp true⟩)), .act (.cycle 2),
      .act (.input 0 (.message 2 ⟨1, .voteReq 0 0⟩)), .act (.cycle 0),
      .act (.input 0 (.tick 0)), .act (.cycle 0)]

def polling (script : List Deed) : Cluster Unit × List (Cluster Unit) :=
  (trio true).trail FreshGrants script

def grantArrives : Deed := .act (.input 0 (.message 1 ⟨1, .preVoteResp true⟩))

theorem run_polling (script : List Deed) :
    (trio true).Run FreshGrants ((polling script).1 :: (polling script).2) :=
  (trio true).run_trail FreshGrants script

/-- The late grant makes node 0 campaign for term 2, although no quorum has granted that. -/
theorem overtaken_campaigns_unseconded :
    (trio true).Run FreshGrants ((polling overtaken).1 :: (polling overtaken).2) ∧
      ∃ next, (trio true).perform (polling overtaken).1 grantArrives = some next ∧
        ((polling overtaken).1.node 0).raft.Campaigns (next.node 0).raft ∧
        ¬ ∃ quorum, ((polling overtaken).1.node 0).raft.log.config.hasQuorum quorum = true ∧
          ∀ voter ∈ quorum, voter = 0 ∨
            ⟨voter, 0, ⟨((polling overtaken).1.node 0).raft.term + 1, .preVoteResp true⟩⟩ ∈
              (polling overtaken).1.network := by
  have nobody : ∀ envelope ∈ (polling overtaken).1.network, envelope.msg ≠
      ⟨((polling overtaken).1.node 0).raft.term + 1, .preVoteResp true⟩ := by decide +kernel
  refine ⟨run_polling overtaken, ((trio true).perform (polling overtaken).1 grantArrives).get
    (by decide +kernel), by simp, by unfold Raft.Campaigns; decide +kernel, ?_⟩
  rintro ⟨quorum, isQuorum, seconded⟩
  have alone : ((polling overtaken).1.node 0).raft.log.config.hasQuorum (.ofList [0]) = true := by
    refine Config.hasQuorum_mono ?_ isQuorum
    intro voter member
    rcases seconded voter member with rfl | granted
    · simp
    · exact absurd rfl (nobody _ granted)
  exact absurd alone (by decide +kernel)

theorem polled_campaigns_seconded :
    ∃ quorum, ((polling polled).1.node 0).raft.log.config.hasQuorum quorum = true ∧ 0 ∈ quorum ∧
      ∀ voter ∈ quorum, voter = 0 ∨ ∃ lastIndex lastTerm,
        ⟨0, voter, ⟨((polling polled).1.node 0).raft.term + 1, .preVoteReq lastIndex lastTerm⟩⟩ ∈
            (polling polled).1.network ∧
          ⟨voter, 0, ⟨((polling polled).1.node 0).raft.term + 1, .preVoteResp true⟩⟩ ∈
            (polling polled).1.network :=
  campaign_is_seconded (fun _ => rfl) (run_polling polled)
    (by decide +kernel : FreshGrants (polling polled).1 grantArrives)
    (Option.some_get (by decide +kernel)).symm nofun 0
    (by unfold Raft.Campaigns; decide +kernel)

end Setup

end ChronoScope.Chronolog
