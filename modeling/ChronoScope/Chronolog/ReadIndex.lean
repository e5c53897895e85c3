import ChronoScope.Chronolog.Lifetimes

/-!
# Linearizable reads

A leader numbers each read, notes its commit index and asks its peers, by
heartbeats with that number, whether it still leads. A peer that answers was in
the leader's term after the read was asked, so no later leader can have decided
anything with its help by then; a quorum of answers rules out all later decisions,
and earlier ones are behind the leader's own commit index as soon as it has
decided anything itself.

The counter of reads is not durable. What keeps the answers to an old process or
an old term apart from those to the present one is that a term is led at most
once: a heartbeat of a leader's term carries a number that this very process has
issued in this very term.
-/

namespace ChronoScope.Chronolog

open List

open Consensus (State Rules Invariant Steps)

variable {σ : Type}

namespace Raft

/-- What a move does to the reads of a node. -/
inductive ReadMove (heard : Option (NodeId × Message)) (r r' : Raft) : Prop where
  | rest (counter : r'.readCtx = r.readCtx)
      (pending : ∀ read ∈ r'.pendingReads, read ∈ r.pendingReads)
      (answers : r'.pending.reads = r.pending.reads)
  | alone (unprompted : heard = none) (counter : r'.readCtx = r.readCtx + 1)
      (pending : r'.pendingReads = r.pendingReads)
      (answers : r'.pending.reads =
        r.pending.reads ++ [{ ctx := r.readCtx + 1, index := r.commit }])
  | begun (unprompted : heard = none) (counter : r'.readCtx = r.readCtx + 1)
      (pending : r'.pendingReads = r.pendingReads ++
        [{ ctx := r.readCtx + 1, index := r.commit, acks := .ofList [r.id] }])
      (answers : r'.pending.reads = r.pending.reads)
  | acknowledged {sender : NodeId} {ctx : ℕ} (leads : r.role = .leader)
      (asked : heard = some (sender, ⟨r.term, .heartbeatResp ctx⟩))
      (counter : r'.readCtx = r.readCtx)
      (acked : ∀ read ∈ r'.pendingReads, r.Acked sender ctx read)
      (answers : r'.pending.reads = r.pending.reads)
  | confirmed {confirmed : List PendingRead} (counter : r'.readCtx = r.readCtx)
      (pending : ∀ read ∈ r'.pendingReads, read ∈ r.pendingReads)
      (quorum : ∀ read ∈ confirmed, read ∈ r.pendingReads ∧
        r.log.config.hasQuorum read.acks = true)
      (answers : r'.pending.reads =
        r.pending.reads ++ confirmed.map fun read => ReadState.mk read.ctx read.index)

variable {heard : Option (NodeId × Message)}

variable {r r' : Raft}

theorem Move.readMove (move : Move heard r r') : ReadMove heard r r' := by
  cases move with
  | follow term leader =>
    rcases Nat.lt_or_ge r.term term with later | notLater
    · rw [becomeFollower_of_lt later]
      exact .rest rfl (fun _ => nofun) rfl
    · rw [becomeFollower_of_le notLater]
      exact .rest rfl (fun _ => nofun) rfl
  | openTerm => exact .rest rfl (fun _ => nofun) rfl
  | decide =>
    obtain ⟨_, _, _, _, advanced⟩ := maybeAdvanceCommit_eq r
    rw [advanced]
    exact .rest rfl (fun _ member => member) rfl
  | @accept sender prevIndex prevTerm commit entries =>
    obtain ⟨_, accepted⟩ := acceptAppend_eq r sender prevIndex entries commit
    rw [accepted]
    exact .rest rfl (fun _ member => member) rfl
  | @raise _ commit =>
    obtain ⟨_, raised⟩ := raiseCommit_eq r (min commit r.log.lastIndex)
    rw [raised]
    exact .rest rfl (fun _ member => member) rfl
  | readAlone unprompted => exact .alone unprompted rfl rfl rfl
  | readBegun unprompted => exact .begun unprompted rfl rfl rfl
  | acknowledge leads asked acked => exact .acknowledged leads asked rfl acked rfl
  | confirm _ stillPending answered => exact .confirmed rfl stillPending answered rfl
  | _ => exact .rest rfl (fun _ member => member) rfl

theorem ReadMove.counter_le (move : ReadMove heard r r') : r.readCtx ≤ r'.readCtx := by
  cases move <;> omega

theorem Move.leads (move : Move heard r r') (leads : r'.role = .leader) : r'.term = r.term ∧
      (r.role = .leader ∨ r.role = .candidate ∧ r'.pendingReads = []) := by
  cases move with
  | follow term leader =>
    rw [becomeFollower_role] at leads
    cases leads
  | poll => cases leads
  | quit => cases leads
  | stand => cases leads
  | openTerm candidacy => exact ⟨rfl, Or.inr ⟨candidacy, rfl⟩⟩
  | decide led =>
    obtain ⟨_, _, _, _, advanced⟩ := maybeAdvanceCommit_eq r
    rw [advanced]
    exact ⟨rfl, Or.inl led⟩
  | @accept sender prevIndex prevTerm commit entries =>
    obtain ⟨_, accepted⟩ := acceptAppend_eq r sender prevIndex entries commit
    rw [accepted] at leads ⊢
    exact ⟨rfl, Or.inl leads⟩
  | @raise _ commit =>
    obtain ⟨_, raised⟩ := raiseCommit_eq r (min commit r.log.lastIndex)
    rw [raised] at leads ⊢
    exact ⟨rfl, Or.inl leads⟩
  | _ => exact ⟨rfl, Or.inl leads⟩

/-- Every read is numbered by the counter. -/
structure Numbered (r : Raft) : Prop where
  pending : ∀ read ∈ r.pendingReads, read.ctx ≤ r.readCtx
  answers : ∀ read ∈ r.pending.reads, read.ctx ≤ r.readCtx

theorem Numbered.readMove (numbered : r.Numbered) (move : ReadMove heard r r') : r'.Numbered := by
  have counter := move.counter_le
  have earlier : ∀ read ∈ r.pending.reads, read.ctx ≤ r'.readCtx :=
    fun read member => (numbered.answers read member).trans counter
  cases move with
  | rest _ pending answers =>
    refine ⟨fun read member => ?_, fun read member => earlier read (answers ▸ member)⟩
    exact (numbered.pending read (pending read member)).trans counter
  | alone _ counterIs pending answers =>
    refine ⟨fun read member => ?_, fun read member => ?_⟩
    · exact (numbered.pending read (pending ▸ member)).trans counter
    · rw [answers] at member
      rcases mem_append.mp member with old | new
      · exact earlier read old
      · cases mem_singleton.mp new
        exact counterIs.ge
  | begun _ counterIs pending answers =>
    refine ⟨fun read member => ?_, fun read member => earlier read (answers ▸ member)⟩
    rw [pending] at member
    rcases mem_append.mp member with old | new
    · exact (numbered.pending read old).trans counter
    · cases mem_singleton.mp new
      exact counterIs.ge
  | acknowledged _ _ _ acked answers =>
    refine ⟨fun read member => ?_, fun read member => earlier read (answers ▸ member)⟩
    rcases acked read member with ⟨old, wasPending, sameCtx, _⟩
    rw [sameCtx]
    exact (numbered.pending old wasPending).trans counter
  | confirmed _ pending quorum answers =>
    refine ⟨fun read member => ?_, fun read member => ?_⟩
    · exact (numbered.pending read (pending read member)).trans counter
    · rw [answers] at member
      rcases mem_append.mp member with old | new
      · exact earlier read old
      · rcases mem_map.mp new with ⟨read, isConfirmed, rfl⟩
        exact (numbered.pending read (quorum read isConfirmed).1).trans counter

/-- Nothing is asked of the node and nothing answered by it. -/
structure Rests (r r' : Raft) : Prop where
  id : r'.id = r.id
  leads : r'.role = .leader → r.role = .leader ∧ r'.term = r.term ∧ r'.readCtx = r.readCtx
  pending : ∀ read ∈ r'.pendingReads, read ∈ r.pendingReads ∧ r'.readCtx = r.readCtx
  answers : ∀ read ∈ r'.pending.reads, read ∈ r.pending.reads ∧ r'.readCtx = r.readCtx

theorem Rests.of_same (sameId : r'.id = r.id) (sameRole : r'.role = r.role)
    (sameTerm : r'.term = r.term) (sameCounter : r'.readCtx = r.readCtx)
    (samePending : r'.pendingReads = r.pendingReads)
    (answers : ∀ read ∈ r'.pending.reads, read ∈ r.pending.reads) : Rests r r' where
  id := sameId
  leads leads := ⟨sameRole.symm.trans leads, sameTerm, sameCounter⟩
  pending _ member := ⟨samePending ▸ member, sameCounter⟩
  answers read member := ⟨answers read member, sameCounter⟩

theorem Numbered.rests (numbered : r.Numbered) (rests : Rests r r') :
    r'.Numbered where
  pending read member := by
    rcases rests.pending read member with ⟨earlier, counter⟩
    exact (numbered.pending read earlier).trans counter.ge
  answers read member := by
    rcases rests.answers read member with ⟨earlier, counter⟩
    exact (numbered.answers read earlier).trans counter.ge

end Raft

/-- The message is on the network or waits to be sent. -/
def Cluster.Sent (cluster : Cluster σ) (sender receiver : NodeId) (msg : Message) : Prop :=
  ⟨sender, receiver, msg⟩ ∈ cluster.network ∨
    (receiver, msg) ∈ (cluster.node sender).raft.pending.messages

variable {msg : Message}

namespace Setup.Event

variable {setup : Setup σ} {cluster next : Cluster σ} {action : Action}

theorem sent (event : setup.Event cluster action next) {sender receiver : NodeId}
    (isSent : next.Sent sender receiver msg) :
    cluster.Sent sender receiver msg ∨
      sender = action.actor ∧ (receiver, msg) ∈ (next.node sender).raft.pending.messages ∧
        ((∃ input, action = .input sender input) ∨ ∃ snap, msg.body = .snapshotReq snap) := by
  rcases isSent with known | waits
  · left
    rcases event.network known with earlier | ⟨rfl, posted⟩
    · exact Or.inl earlier
    · exact Or.inr posted
  · by_cases mine : sender = action.actor
    · subst mine
      by_cases isInput : ∃ input, action = .input action.actor input
      · exact Or.inr ⟨rfl, waits, Or.inl isInput⟩
      · rcases event.waits (not_exists.mp isInput) waits with earlier | isSnapshot
        · exact Or.inl (Or.inr earlier)
        · exact Or.inr ⟨rfl, waits, Or.inr isSnapshot⟩
    · rw [event.node_eq mine] at waits
      exact Or.inl (Or.inr waits)

theorem rests (event : setup.Event cluster action next)
    (notInput : ∀ input, action ≠ .input action.actor input) :
    Raft.Rests (cluster.node action.actor).raft (next.node action.actor).raft ∧
      (action.restarts action.actor = false →
        (next.node action.actor).raft.readCtx = (cluster.node action.actor).raft.readCtx) := by
  cases event with
  | input => exact absurd rfl (notInput _)
  | cycle id =>
    simp only [Action.actor, Setup.place, Function.update_self]
    have emptied : ((cluster.node id).cycle setup.machine).raft.pending.reads = [] := by
      rw [cycle_pending]
      rfl
    have answers : ∀ read ∈ ((cluster.node id).cycle setup.machine).raft.pending.reads,
        read ∈ (cluster.node id).raft.pending.reads := by simp [emptied]
    rcases cycle_raft setup.machine (cluster.node id) with same | ⟨_, advanced⟩
    · rw [same] at answers ⊢
      exact ⟨.of_same rfl rfl rfl rfl rfl answers, fun _ => rfl⟩
    · rw [advanced] at answers ⊢
      obtain ⟨_, _, _, _, raised⟩ := maybeAdvanceCommit_eq (cluster.node id).noted
      rw [raised] at answers ⊢
      exact ⟨.of_same rfl rfl rfl rfl rfl answers, fun _ => rfl⟩
  | @compact id node idle done =>
    rcases Option.map_eq_some_iff.mp done with ⟨snap, _, rfl⟩
    simp only [Action.actor, Setup.place, Function.update_self]
    exact ⟨.of_same rfl rfl rfl rfl rfl fun _ member => member, fun _ => rfl⟩
  | @ship id peer node idle done =>
    unfold Node.ship at done
    split_ifs at done
    rcases Option.map_eq_some_iff.mp done with ⟨snap, _, rfl⟩
    simp only [Action.actor, Setup.place, Function.update_self]
    exact ⟨.of_same rfl rfl rfl rfl rfl fun _ member => member, fun _ => rfl⟩
  | @stepDown id idle =>
    simp only [Action.actor, Setup.place, Function.update_self]
    rcases stepDown_cases (cluster.node id).raft with same | ⟨_, stoodDown⟩
    · rw [same]
      exact ⟨.of_same rfl rfl rfl rfl rfl fun _ member => member, fun _ => rfl⟩
    · rw [stoodDown, becomeFollower_of_le le_rfl]
      exact ⟨⟨rfl, by simp, by simp, fun _ member => ⟨member, rfl⟩⟩, fun _ => rfl⟩
  | @restart id idle =>
    simp only [Action.actor, Setup.place, Function.update_self]
    refine ⟨⟨rfl, ?_, ?_, ?_⟩, ?_⟩
    · rintro ⟨⟩
    · rintro _ ⟨⟩
    · rintro _ ⟨⟩
    intro alive
    simp [Action.restarts] at alive

end Setup.Event

section

variable {machine : StateMachine σ} {charter : Charter} {state after : State NodeId Entry}
  {disk : Durable} {image : σ} {r r' : Raft}

/-- The node led the term, and while it does its counter has passed this number. -/
structure Issued (state : State NodeId Entry) (r : Raft) (term ctx : ℕ) : Prop where
  led : state.leader term = some r.id
  positive : 0 < ctx
  counted : r.role = .leader → r.term = term → ctx ≤ r.readCtx

theorem Issued.grows {term ctx : ℕ} (issued : Issued state r term ctx)
    (grows : state.Grows after) : Issued after r term ctx :=
  { issued with led := (grows.leader (by simp [issued.led])).trans issued.led }

theorem Issued.rests {term ctx : ℕ} (issued : Issued state r term ctx) (rests : Raft.Rests r r') :
    Issued state r' term ctx where
  led := rests.id ▸ issued.led
  positive := issued.positive
  counted leads sameTerm := by
    rcases rests.leads leads with ⟨led, kept, counter⟩
    exact (issued.counted led (kept.symm.trans sameTerm)).trans counter.ge

variable {heard : Option (NodeId × Message)}

/-- A term is led once, so a leader has not issued anything in it before its election. -/
theorem Issued.move {term ctx : ℕ} (issued : Issued state r term ctx)
    (tracks : Tracks machine charter state disk image r) (inv : Invariant charter.rules state)
    (move : Raft.Move heard r r') :
    Issued state r' term ctx where
  led := move.id_eq ▸ issued.led
  positive := issued.positive
  counted leads sameTerm := by
    rcases move.leads leads with ⟨kept, led | ⟨candidacy, _⟩⟩
    · exact (issued.counted led (kept.symm.trans sameTerm)).trans move.readMove.counter_le
    · have led := issued.led
      rw [← sameTerm, kept, ← tracks.term] at led
      exact absurd led (inv.candidate_fresh (by rw [tracks.role, candidacy]; rfl)).1

/-- A message about a read that a node posts while it is fed one: its own numbers are issued,
those of others it has just heard. -/
def Beats (heard : Option (NodeId × Message)) (state : State NodeId Entry) (r : Raft)
    (peer : NodeId) (msg : Message) : Prop :=
  match msg.body with
  | .heartbeatReq _ ctx => Issued state r msg.term ctx
  | .heartbeatResp ctx => ∃ commit, heard = some (peer, ⟨msg.term, .heartbeatReq commit ctx⟩)
  | _ => True

theorem Beats.of_sends (tracks : Tracks machine charter state disk image r)
    (inv : Invariant charter.rules state) {peer : NodeId} (sends : Raft.Sends heard r peer msg) :
    Beats heard state r peer msg := by
  cases sends with
  | heartbeat leads _ numbered => exact ⟨(tracks.leads inv leads).1, numbered, fun _ _ => le_rfl⟩
  | heartbeatResp follows asked => exact ⟨_, asked⟩
  | _ => trivial

theorem Beats.move {peer : NodeId} (beats : Beats heard state r peer msg)
    (tracks : Tracks machine charter state disk image r) (inv : Invariant charter.rules state)
    (grows : state.Grows after) (move : Raft.Move heard r r') : Beats heard after r' peer msg := by
  rcases msg with ⟨term, body⟩
  cases body with
  | heartbeatReq commit ctx => exact (Issued.move beats tracks inv move).grows grows
  | heartbeatResp ctx => exact beats
  | _ => trivial

end

/-- Every heartbeat and every answer to one carries a number that its leader has issued. -/
def Traced (cluster : Cluster σ) (state : State NodeId Entry) (sender receiver : NodeId)
    (msg : Message) : Prop :=
  match msg.body with
  | .heartbeatReq _ ctx => Issued state (cluster.node sender).raft msg.term ctx
  | .heartbeatResp ctx => Issued state (cluster.node receiver).raft msg.term ctx
  | _ => True

/-- Reads are numbered throughout the cluster. -/
structure Numbering (cluster : Cluster σ) (state : State NodeId Entry) : Prop where
  numbered : ∀ id, (cluster.node id).raft.Numbered
  traced : ∀ sender receiver msg, cluster.Sent sender receiver msg →
    Traced cluster state sender receiver msg

namespace Numbering

variable {setup : Setup σ} {cluster next : Cluster σ} {state after : State NodeId Entry}

theorem initial (setup : Setup σ) : Numbering setup.initial (State.initial NodeId Entry) where
  numbered _ := ⟨fun _ => nofun, fun _ => nofun⟩
  traced _ _ _ sent := by
    rcases sent with known | waits
    · cases known
    · cases waits

theorem carry {sender receiver : NodeId} (traced : Traced cluster state sender receiver msg)
    (carried : ∀ id term ctx, Issued state (cluster.node id).raft term ctx →
      Issued after (next.node id).raft term ctx) :
    Traced next after sender receiver msg := by
  rcases msg with ⟨term, body⟩
  cases body with
  | heartbeatReq | heartbeatResp => exact carried _ _ _ traced
  | _ => trivial

section

variable (numbering : Numbering cluster state) (simulates : Simulates setup .fixed cluster state)

include numbering simulates

theorem input {id : NodeId} {input : Input} (delivered : Setup.deliverable cluster id input = true)
    (isNext : next = Setup.place cluster id
    { cluster.node id with raft := Node.feed (cluster.node id).raft input, busy := true }) :
    ∃ after, Steps (setup.charter .fixed).rules id state after ∧ Simulates setup .fixed next after ∧
      Numbering next after := by
  have event : setup.Event cluster (.input id input) next := isNext ▸ .input delivered
  obtain ⟨after, steps, simulates', numbered, lasting, posted⟩ :=
    simulates.input (P := fun s r => r.Numbered ∧
      (∀ term ctx, Issued state (cluster.node id).raft term ctx → Issued s r term ctx) ∧
      ∀ peer msg, (peer, msg) ∈ r.pending.messages →
        (peer, msg) ∈ (cluster.node id).raft.pending.messages ∨ Beats input.heard s r peer msg)
      delivered ⟨numbering.numbered id, fun _ _ issued => issued, fun _ _ => Or.inl⟩ (by
        rintro before after r r' inv tracks steps _ _ _ move ⟨numbered, lasting, posted⟩
        have grows := steps.grows inv
        refine ⟨numbered.readMove move.readMove, ?_, ?_⟩
        · exact fun term ctx issued => ((lasting term ctx issued).move tracks inv move).grows grows
        · intro peer msg waits
          rcases move.posted waits with earlier | sends | ⟨_, grants⟩
          · exact (posted peer msg earlier).imp_right fun beats =>
              beats.move tracks inv grows move
          · exact Or.inr ((Beats.of_sends tracks inv sends).move tracks inv grows move)
          · right
            rcases msg with ⟨term, body⟩
            cases grants <;> trivial)
  rw [← isNext] at simulates'
  have grows := steps.grows simulates.inv
  have nodeIs : (next.node id).raft = Node.feed (cluster.node id).raft input := by
    simp [isNext, Setup.place]
  have carried : ∀ other term ctx, Issued state (cluster.node other).raft term ctx →
      Issued after (next.node other).raft term ctx := by
    intro other term ctx issued
    by_cases mine : other = id
    · rw [mine, nodeIs]
      exact lasting term ctx (mine ▸ issued)
    · rw [event.node_eq mine]
      exact issued.grows grows
  refine ⟨after, steps, simulates', fun other => ?_, fun sender receiver msg sent => ?_⟩
  · by_cases mine : other = id
    · rw [mine, nodeIs]
      exact numbered
    · rw [event.node_eq mine]
      exact numbering.numbered other
  · rcases event.sent sent with earlier | ⟨rfl, waits, _⟩
    · exact carry (numbering.traced _ _ _ earlier) carried
    · rw [nodeIs] at waits
      rcases posted _ _ waits with earlier | beats
      · exact carry (numbering.traced _ _ _ (Or.inr earlier)) carried
      · rcases msg with ⟨term, body⟩
        cases body with
        | heartbeatReq commit ctx =>
          simp only [Traced, nodeIs]
          exact beats
        | heartbeatResp ctx =>
          rcases beats with ⟨commit, isHeard⟩
          cases input with
          | message =>
            cases isHeard
            have known := numbering.traced _ _ _
              (Or.inl (by simpa [Setup.deliverable] using delivered))
            exact carried _ _ _ known
          | _ => cases isHeard
        | _ => trivial

theorem rest {action : Action} (event : setup.Event cluster action next)
    (notInput : ∀ input, action ≠ .input action.actor input) :
    ∃ after, Steps (setup.charter .fixed).rules action.actor state after ∧
      Simulates setup .fixed next after ∧
      Numbering next after := by
  rcases simulates.event event (Or.inl rfl) with ⟨after, steps, simulates'⟩
  have grows := steps.grows simulates.inv
  have rests := (event.rests notInput).1
  have carried : ∀ other term ctx, Issued state (cluster.node other).raft term ctx →
      Issued after (next.node other).raft term ctx := by
    intro other term ctx issued
    by_cases mine : other = action.actor
    · subst mine
      exact (issued.rests rests).grows grows
    · rw [event.node_eq mine]
      exact issued.grows grows
  refine ⟨after, steps, simulates', fun other => ?_, fun sender receiver msg sent => ?_⟩
  · by_cases mine : other = action.actor
    · subst mine
      exact (numbering.numbered _).rests rests
    · rw [event.node_eq mine]
      exact numbering.numbered other
  · rcases event.sent sent with earlier | ⟨isActor, _, ⟨input, isInput⟩ | ⟨snap, isSnapshot⟩⟩
    · exact carry (numbering.traced _ _ _ earlier) carried
    · exact absurd isInput (isActor ▸ notInput input)
    · rcases msg with ⟨term, body⟩
      cases isSnapshot
      trivial

theorem step {action : Action} (event : setup.Event cluster action next) :
    ∃ after, Steps (setup.charter .fixed).rules action.actor state after ∧
      Simulates setup .fixed next after ∧
      Numbering next after := by
  by_cases isInput : ∃ input, action = .input action.actor input
  · rcases isInput with ⟨input, isInput⟩
    generalize action.actor = id at isInput
    subst isInput
    cases event with
    | input delivered => exact numbering.input simulates delivered rfl
  · exact numbering.rest simulates event (not_exists.mp isInput)

end

theorem run {first last : Cluster σ} (numbering : Numbering first state)
    (simulates : Simulates setup .fixed first state) (reached : setup.Reaches first last) :
    ∃ after, state.Grows after ∧ Simulates setup .fixed last after ∧ Numbering last after := by
  induction reached with
  | refl => exact ⟨state, .refl state, simulates, numbering⟩
  | tail _ step ih =>
    rcases ih with ⟨between, grows, simulates', numbering'⟩
    rcases step with ⟨action, acted⟩
    rcases numbering'.step simulates' (setup.event_of_act acted) with
      ⟨after, steps, simulates'', numbering''⟩
    exact ⟨after, grows.trans (steps.grows simulates'.inv), simulates'', numbering''⟩

end Numbering

/-- A read was asked under this number in this term, when the nodes were in these terms: it will
be answered with this index, and by a quorum of nodes that were in no later term. -/
structure Awaiting (cfg : Config) (terms : NodeId → ℕ) (term ctx index : ℕ) (r : Raft) : Prop where
  counted : ctx ≤ r.readCtx
  pending : ∀ read ∈ r.pendingReads, read.ctx = ctx → read.index = index ∧
    (r.role = .leader → r.term = term) ∧ ∀ id ∈ read.acks, terms id ≤ term
  answers : ∀ read ∈ r.pending.reads, read.ctx = ctx → read.index = index ∧
    ∃ acks, cfg.hasQuorum acks = true ∧ ∀ id ∈ acks, terms id ≤ term

namespace Awaiting

variable {cfg : Config} {terms : NodeId → ℕ} {term ctx index : ℕ} {r r' : Raft}

theorem rests (awaiting : Awaiting cfg terms term ctx index r) (rests : Raft.Rests r r')
    (counter : r'.readCtx = r.readCtx) : Awaiting cfg terms term ctx index r' where
  counted := awaiting.counted.trans counter.ge
  pending read member isCtx := by
    rcases awaiting.pending read (rests.pending read member).1 isCtx with ⟨same, sameTerm, acked⟩
    refine ⟨same, fun leads => ?_, acked⟩
    rcases rests.leads leads with ⟨led, kept, _⟩
    exact kept.trans (sameTerm led)
  answers read member := awaiting.answers read (rests.answers read member).1

theorem move (awaiting : Awaiting cfg terms term ctx index r) (configIs : r.log.config = cfg)
    {heard : Option (NodeId × Message)}
    (replies : ∀ sender repliedTerm replied,
      heard = some (sender, ⟨repliedTerm, .heartbeatResp replied⟩) →
      replied ≠ 0 ∧ (repliedTerm = term → replied = ctx → terms sender ≤ term))
    (move : Raft.Move heard r r') : Awaiting cfg terms term ctx index r' := by
  have kept : ∀ read ∈ r'.pendingReads, (∃ old ∈ r.pendingReads, old.ctx = ctx) →
      r'.role = .leader → r'.term = term := by
    rintro read member ⟨old, wasPending, isCtx⟩ leads
    rcases move.leads leads with ⟨sameTerm, led | ⟨_, emptied⟩⟩
    · exact sameTerm.trans ((awaiting.pending old wasPending isCtx).2.1 led)
    · simp [emptied] at member
  have counted := awaiting.counted.trans move.readMove.counter_le
  have earlier : ∀ read ∈ r'.pendingReads, read ∈ r.pendingReads → read.ctx = ctx →
      read.index = index ∧ (r'.role = .leader → r'.term = term) ∧
        ∀ id ∈ read.acks, terms id ≤ term := by
    intro read member wasPending isCtx
    rcases awaiting.pending read wasPending isCtx with ⟨same, _, acked⟩
    exact ⟨same, kept read member ⟨read, wasPending, isCtx⟩, acked⟩
  cases move.readMove with
  | rest _ pending answers =>
    exact ⟨counted, fun read member => earlier read member (pending read member),
      answers ▸ awaiting.answers⟩
  | alone _ _ pending answers =>
    refine ⟨counted, fun read member => earlier read member (pending ▸ member), ?_⟩
    intro read member isCtx
    rw [answers] at member
    rcases mem_append.mp member with old | new
    · exact awaiting.answers read old isCtx
    · cases mem_singleton.mp new
      have := awaiting.counted
      simp only at isCtx
      omega
  | begun _ _ pending answers =>
    refine ⟨counted, fun read member isCtx => ?_, answers ▸ awaiting.answers⟩
    have listed := member
    rw [pending] at listed
    rcases mem_append.mp listed with old | new
    · exact earlier read member old isCtx
    · cases mem_singleton.mp new
      have := awaiting.counted
      simp only at isCtx
      omega
  | @acknowledged sender replied leads asked _ acked answers =>
    refine ⟨counted, fun read member isCtx => ?_, answers ▸ awaiting.answers⟩
    rcases acked read member with ⟨old, wasPending, sameCtx, sameIndex, acks⟩
    have isOld : old.ctx = ctx := sameCtx.symm.trans isCtx
    rcases awaiting.pending old wasPending isOld with ⟨same, sameTerm, oldAcks⟩
    refine ⟨sameIndex.trans same, kept read member ⟨old, wasPending, isOld⟩, ?_⟩
    intro id isAck
    rcases replies _ _ _ asked with ⟨numbered, reply⟩
    rcases acks id isAck with before | ⟨rfl, matching | zero⟩
    · exact oldAcks id before
    · exact reply (sameTerm leads) (matching.symm.trans isOld)
    · exact absurd zero numbered
  | confirmed _ pending quorum answers =>
    refine ⟨counted, fun read member => earlier read member (pending read member), ?_⟩
    intro read member isCtx
    rw [answers] at member
    rcases mem_append.mp member with old | new
    · exact awaiting.answers read old isCtx
    · rcases mem_map.mp new with ⟨asked, isConfirmed, rfl⟩
      rcases quorum asked isConfirmed with ⟨wasPending, isQuorum⟩
      rcases awaiting.pending asked wasPending isCtx with ⟨same, _, acked⟩
      exact ⟨same, asked.acks, configIs ▸ isQuorum, acked⟩

end Awaiting

theorem Simulates.term_le {setup : Setup σ} {cluster next : Cluster σ}
    {state : State NodeId Entry} (simulates : Simulates setup .fixed cluster state)
    {action : Action}
    (event : setup.Event cluster action next) (id : NodeId) :
    (cluster.node id).raft.term ≤ (next.node id).raft.term := by
  rcases simulates.event event (Or.inl rfl) with ⟨after, steps, simulates'⟩
  rw [← simulates.term_eq, ← simulates'.term_eq]
  exact steps.term_le id

/-- A read under way: the nodes have moved on from the terms they were in, and whoever has
answered the leader's heartbeat had not left its term when the read was asked. -/
structure Awaits (cfg : Config) (terms : NodeId → ℕ) (id : NodeId) (term ctx index : ℕ)
    (cluster : Cluster σ) : Prop where
  later : ∀ other, terms other ≤ (cluster.node other).raft.term
  replies : ∀ other, cluster.Sent other id ⟨term, .heartbeatResp ctx⟩ → terms other ≤ term
  awaiting : Awaiting cfg terms term ctx index (cluster.node id).raft

namespace Awaits

variable {setup : Setup σ} {cluster next : Cluster σ} {state : State NodeId Entry}
  {terms : NodeId → ℕ} {id : NodeId} {term ctx index : ℕ}

section

variable (awaits : Awaits setup.config terms id term ctx index cluster)
  (numbering : Numbering cluster state) (simulates : Simulates setup .fixed cluster state)

include awaits numbering simulates

theorem input {actor : NodeId} {input : Input}
    (delivered : Setup.deliverable cluster actor input = true) :
    Awaits setup.config terms id term ctx index (Setup.place cluster actor
      { cluster.node actor with
        raft := Node.feed (cluster.node actor).raft input, busy := true }) := by
  have event : setup.Event cluster (.input actor input) _ := .input delivered
  have replies : actor = id → ∀ sender repliedTerm replied,
      input.heard = some (sender, ⟨repliedTerm, .heartbeatResp replied⟩) →
      replied ≠ 0 ∧ (repliedTerm = term → replied = ctx → terms sender ≤ term) := by
    rintro rfl sender repliedTerm replied isHeard
    cases input with
    | message =>
      cases isHeard
      have sent : cluster.Sent sender actor ⟨repliedTerm, .heartbeatResp replied⟩ :=
        Or.inl (by simpa [Setup.deliverable] using delivered)
      refine ⟨(numbering.traced _ _ _ sent).positive.ne', ?_⟩
      rintro rfl rfl
      exact awaits.replies sender sent
    | _ => cases isHeard
  obtain ⟨_, _, _, stays, posted, awaiting⟩ :=
    simulates.input (P := fun _ r => terms actor ≤ r.term ∧
      (∀ peer msg, (peer, msg) ∈ r.pending.messages →
        (peer, msg) ∈ (cluster.node actor).raft.pending.messages ∨
          ∀ replied, msg.body = .heartbeatResp replied → terms actor ≤ msg.term) ∧
      (actor = id → Awaiting setup.config terms term ctx index r))
      delivered ⟨awaits.later actor, fun _ _ => Or.inl, fun same => same ▸ awaits.awaiting⟩ (by
        rintro before after r r' inv tracks steps tracks' _ _ move ⟨stays, posted, awaiting⟩
        have rises : r.term ≤ r'.term := by
          rw [← tracks.term, ← tracks'.term, move.id_eq]
          exact steps.term_le r.id
        refine ⟨stays.trans rises, ?_, ?_⟩
        · intro peer msg waits
          rcases move.posted waits with earlier | sends | ⟨_, grants⟩
          · exact posted peer msg earlier
          · right
            intro replied isReply
            cases sends with
            | heartbeatResp => exact stays
            | _ => cases isReply
          · right
            intro replied isReply
            rw [isReply] at grants
            cases grants
        · exact fun same => (awaiting same).move (tracks.config_of_fixed rfl inv) (replies same)
            move)
  refine ⟨fun other => ?_, fun other sent => ?_, ?_⟩
  · exact (awaits.later other).trans (simulates.term_le event other)
  · rcases event.sent sent with earlier | ⟨rfl, waits, _⟩
    · exact awaits.replies other earlier
    · simp only [Setup.place, Function.update_self] at waits
      rcases posted _ _ waits with earlier | reply
      · exact awaits.replies _ (Or.inr earlier)
      · exact reply _ rfl
  · by_cases mine : id = actor
    · subst mine
      simpa [Setup.place] using awaiting rfl
    · rw [event.node_eq mine]
      exact awaits.awaiting

theorem step {action : Action} (event : setup.Event cluster action next)
    (alive : action.restarts id = false) : Awaits setup.config terms id term ctx index next := by
  by_cases isInput : ∃ input, action = .input action.actor input
  · rcases isInput with ⟨input, isInput⟩
    generalize action.actor = actor at isInput
    subst isInput
    cases event with
    | input delivered => exact awaits.input numbering simulates delivered
  have notInput := not_exists.mp isInput
  refine ⟨fun other => ?_, fun other sent => ?_, ?_⟩
  · exact (awaits.later other).trans (simulates.term_le event other)
  · rcases event.sent sent with earlier | ⟨isActor, _, ⟨input, isInput⟩ | ⟨snap, isSnapshot⟩⟩
    · exact awaits.replies other earlier
    · exact absurd isInput (isActor ▸ notInput input)
    · cases isSnapshot
  · by_cases mine : id = action.actor
    · subst mine
      rcases event.rests notInput with ⟨rests, counter⟩
      exact awaits.awaiting.rests rests (counter alive)
    · rw [event.node_eq mine]
      exact awaits.awaiting

end

end Awaits

theorem sendHeartbeats_eq (ctx : ℕ) (r : Raft) (peers : List NodeId) :
    ∃ posted : List (NodeId × Message), peers.foldl (Raft.sendHeartbeat ctx) r =
        { r with pending := { r.pending with messages := r.pending.messages ++ posted } } := by
  induction peers generalizing r with
  | nil => exact ⟨[], by simp⟩
  | cons peer rest ih =>
    rw [foldl_cons]
    rcases ih (r.sendHeartbeat ctx peer) with ⟨posted, result⟩
    rw [result]
    unfold Raft.sendHeartbeat
    split_ifs
    · exact ⟨(peer, ⟨r.term, .heartbeatReq (min r.commit
        (((r.progress.get peer).map Progress.matched).getD 0)) ctx⟩) :: posted,
        by simp [Raft.send, Raft.post]⟩
    · exact ⟨posted, rfl⟩

theorem readIndex_of_some {r : Raft} {ctx : ℕ} (granted : r.readIndex.1 = some ctx) :
    r.role = .leader ∧ r.committedOwnTerm = true ∧ ctx = r.readCtx + 1 ∧
      ((r.log.config.hasQuorum (.ofList [r.id]) = true ∧ r.readIndex.2 = { r with
          readCtx := ctx
          pending := { r.pending with
            reads := r.pending.reads ++ [{ ctx := ctx, index := r.commit }] } }) ∨
        ∃ posted : List (NodeId × Message), r.readIndex.2 = { r with
          readCtx := ctx
          pendingReads := r.pendingReads ++
            [{ ctx := ctx, index := r.commit, acks := .ofList [r.id] }]
          pending := { r.pending with messages := r.pending.messages ++ posted } }) := by
  unfold Raft.readIndex at granted ⊢
  split_ifs at granted ⊢ with follows fresh
  simp only at granted ⊢
  split_ifs at granted ⊢ with alone
  · cases granted
    exact ⟨not_not.mp follows, by simpa using fresh, rfl, Or.inl ⟨alone, rfl⟩⟩
  · cases granted
    exact ⟨not_not.mp follows, by simpa using fresh, rfl, Or.inr (sendHeartbeats_eq ..)⟩

theorem readIndex_of_none {r : Raft} (refused : r.readIndex.1 = none) : r.readIndex.2 = r := by
  unfold Raft.readIndex at refused ⊢
  split_ifs at refused ⊢ with follows fresh
  · rfl
  · rfl
  · simp only at refused
    split_ifs at refused

/-- A read that has just been asked is awaited: nobody can have answered it before. -/
theorem Awaits.asked {setup : Setup σ} {cluster next : Cluster σ} {state : State NodeId Entry}
    (numbering : Numbering cluster state) (simulates : Simulates setup .fixed cluster state)
    {id : NodeId} (event : setup.Event cluster (.input id .readIndex) next) {ctx : ℕ}
    (granted : (cluster.node id).raft.readIndex.1 = some ctx) :
    Awaits setup.config (fun other => (cluster.node other).raft.term) id
      (cluster.node id).raft.term ctx (cluster.node id).raft.commit next := by
  rcases readIndex_of_some granted with ⟨leads, _, ctxIs, effect⟩
  have unanswered : ∀ other, ¬cluster.Sent other id
      ⟨(cluster.node id).raft.term, .heartbeatResp ctx⟩ := by
    intro other sent
    have counted := (numbering.traced _ _ _ sent).counted leads rfl
    omega
  have nodeIs : (next.node id).raft = (cluster.node id).raft.readIndex.2 := by
    cases event
    simp [Setup.place, Node.feed]
  refine ⟨fun other => simulates.term_le event other, fun other sent => ?_, ?_⟩
  · rcases event.sent sent with earlier | ⟨isActor, _⟩
    · exact absurd earlier (unanswered other)
    · exact isActor ▸ le_rfl
  · have numbered := numbering.numbered id
    have selfAcks : ∀ other ∈ BTreeSet.ofList [(cluster.node id).raft.id],
        (cluster.node other).raft.term ≤ (cluster.node id).raft.term := by
      intro other isSelf
      rw [BTreeSet.mem_ofList, mem_singleton, simulates.id id] at isSelf
      rw [isSelf]
    rw [nodeIs]
    rcases effect with ⟨alone, result⟩ | ⟨posted, result⟩
    · rw [result]
      refine ⟨le_rfl, fun read member isCtx => ?_, fun read member isCtx => ?_⟩
      · have := numbered.pending read member
        omega
      · rcases mem_append.mp member with earlier | new
        · have := numbered.answers read earlier
          omega
        · cases mem_singleton.mp new
          have configIs : (cluster.node id).raft.log.config = setup.config :=
            (simulates.tracks id).config_of_fixed rfl simulates.inv
          exact ⟨rfl, _, configIs ▸ alone, selfAcks⟩
    · rw [result]
      refine ⟨le_rfl, fun read member isCtx => ?_, fun read member isCtx => ?_⟩
      · rcases mem_append.mp member with earlier | new
        · have := numbered.pending read earlier
          omega
        · cases mem_singleton.mp new
          exact ⟨rfl, fun _ => rfl, selfAcks⟩
      · have := numbered.answers read member
        omega

/-- No decision of the cluster is beyond the commit index of a leader that has decided in its
term, if a quorum has not gone on to a later one. -/
theorem Simulates.decision_le {setup : Setup σ} {cluster : Cluster σ}
    {state : State NodeId Entry} (simulates : Simulates setup .fixed cluster state) {id : NodeId}
    (leads : (cluster.node id).raft.role = .leader)
    (committed : (cluster.node id).raft.committedOwnTerm = true) {acks : BTreeSet NodeId}
    (quorum : setup.config.hasQuorum acks = true)
    (notLater : ∀ other ∈ acks, (cluster.node other).raft.term ≤ (cluster.node id).raft.term)
    {term index : ℕ} (decided : (term, index) ∈ state.commits) :
    index ≤ (cluster.node id).raft.commit := by
  have inv := simulates.inv
  rcases (simulates.tracks id).decided leads with ⟨own, last⟩
  rcases Nat.lt_trichotomy term (cluster.node id).raft.term with earlier | rfl | later
  · exact (inv.decision_lt decided earlier (last committed)).le
  · exact own index decided
  · rcases inv.committed decided with ⟨length, decision⟩
    rcases decision.quorum with ⟨ackers, ⟨set, setQuorum, included⟩, acked⟩
    change ((setup.charter .fixed).configAfter _).hasQuorum set = true at setQuorum
    rw [configAfter_of_fixed rfl inv
      (Or.inr ⟨term, decision.led, take_prefix _ _⟩)] at setQuorum
    rcases Config.hasQuorum_meet quorum setQuorum with ⟨shared, _, inAcks, inSet⟩
    have inAckers := included shared inSet
    rcases acked shared inAckers with ⟨reach, _, ack⟩
    have entered := (inv.acked ack).2.1
    have sharedTerm := simulates.term_eq shared
    have := notLater shared inAcks
    omega

/-- The node has a read under this number, answered or not. -/
def Raft.HasRead (r : Raft) (ctx : ℕ) : Prop :=
  (∃ read ∈ r.pendingReads, read.ctx = ctx) ∨ ∃ read ∈ r.pending.reads, read.ctx = ctx

namespace Raft.HasRead

variable {r r' : Raft} {ctx : ℕ}

theorem of_rests (rests : Rests r r') (has : r'.HasRead ctx) : r.HasRead ctx := by
  rcases has with ⟨read, member, isCtx⟩ | ⟨read, member, isCtx⟩
  · exact Or.inl ⟨read, (rests.pending read member).1, isCtx⟩
  · exact Or.inr ⟨read, (rests.answers read member).1, isCtx⟩

theorem of_move {heard : Option (NodeId × Message)} (prompted : heard ≠ none)
    (move : Move heard r r') (has : r'.HasRead ctx) : r.HasRead ctx := by
  cases move.readMove with
  | rest _ pending answers =>
    rcases has with ⟨read, member, isCtx⟩ | ⟨read, member, isCtx⟩
    · exact Or.inl ⟨read, pending read member, isCtx⟩
    · exact Or.inr ⟨read, answers ▸ member, isCtx⟩
  | alone unprompted => exact absurd unprompted prompted
  | begun unprompted => exact absurd unprompted prompted
  | acknowledged _ _ _ acked answers =>
    rcases has with ⟨read, member, isCtx⟩ | ⟨read, member, isCtx⟩
    · rcases acked read member with ⟨old, wasPending, sameCtx, _⟩
      exact Or.inl ⟨old, wasPending, sameCtx.symm.trans isCtx⟩
    · exact Or.inr ⟨read, answers ▸ member, isCtx⟩
  | confirmed _ pending quorum answers =>
    rcases has with ⟨read, member, isCtx⟩ | ⟨read, member, isCtx⟩
    · exact Or.inl ⟨read, pending read member, isCtx⟩
    · rw [answers] at member
      rcases mem_append.mp member with old | new
      · exact Or.inr ⟨read, old, isCtx⟩
      · rcases mem_map.mp new with ⟨asked, isConfirmed, rfl⟩
        exact Or.inl ⟨asked, (quorum asked isConfirmed).1, isCtx⟩

theorem of_feed {input : Input} (notRead : input ≠ .readIndex)
    (has : (Node.feed r input).HasRead ctx) : r.HasRead ctx := by
  rcases feed_moves_prompted r notRead with ⟨heard, prompted, moves⟩
  revert has
  exact moves.keeps (P := fun r' => r'.HasRead ctx → r.HasRead ctx)
    (fun move earlier has => earlier (of_move prompted move has)) fun has => has

theorem of_readIndex (has : r.readIndex.2.HasRead ctx) :
    r.HasRead ctx ∨ r.readIndex.1 = some ctx := by
  cases granted : r.readIndex.1 with
  | none =>
    rw [readIndex_of_none granted] at has
    exact Or.inl has
  | some given =>
    rcases readIndex_of_some granted with ⟨_, _, _, ⟨_, result⟩ | ⟨posted, result⟩⟩
    · rw [result] at has
      rcases has with pending | ⟨read, member, isCtx⟩
      · exact Or.inl (Or.inl pending)
      · rcases mem_append.mp member with earlier | new
        · exact Or.inl (Or.inr ⟨read, earlier, isCtx⟩)
        · cases mem_singleton.mp new
          exact Or.inr (congrArg some isCtx)
    · rw [result] at has
      rcases has with ⟨read, member, isCtx⟩ | answered
      · rcases mem_append.mp member with earlier | new
        · exact Or.inl (Or.inl ⟨read, earlier, isCtx⟩)
        · cases mem_singleton.mp new
          exact Or.inr (congrArg some isCtx)
      · exact Or.inl (Or.inr answered)

end Raft.HasRead

/-- The process was asked for the read, and has lived on since. -/
def Setup.Asked (setup : Setup σ) (id : NodeId) (start now : Cluster σ) (ctx : ℕ)
    (asked : Cluster σ) : Prop :=
  setup.Lives id start asked ∧ (asked.node id).raft.readIndex.1 = some ctx ∧
    ∃ answered, setup.act asked (.input id .readIndex) = some answered ∧
      setup.Lives id answered now

variable {start now : Cluster σ}

theorem Setup.Asked.tail {setup : Setup σ} {id : NodeId} {next asked : Cluster σ} {ctx : ℕ}
    (isAsked : setup.Asked id start now ctx asked) (step : setup.StepAlive id now next) :
    setup.Asked id start next ctx asked := by
  rcases isAsked with ⟨lived, granted, answered, acted, onwards⟩
  exact ⟨lived, granted, answered, acted, .tail onwards step⟩

theorem Setup.Lives.exists_asked {setup : Setup σ} {id : NodeId} (born : setup.Born id start)
    (lived : setup.Lives id start now) {ctx : ℕ} (has : (now.node id).raft.HasRead ctx) :
    ∃ asked, setup.Asked id start now ctx asked := by
  induction lived with
  | refl =>
    rcases born with rfl | ⟨before, _, acted⟩
    · rcases has with ⟨_, member, _⟩ | ⟨_, member, _⟩ <;> cases member
    · cases setup.event_of_act acted
      simp only [Setup.place, Function.update_self] at has
      rcases has with ⟨_, member, _⟩ | ⟨_, member, _⟩ <;> cases member
  | @tail before next lived step ih =>
    have earlier : (before.node id).raft.HasRead ctx →
        ∃ asked, setup.Asked id start next ctx asked := by
      intro had
      rcases ih had with ⟨asked, isAsked⟩
      exact ⟨asked, isAsked.tail step⟩
    rcases step with ⟨action, alive, acted⟩
    have event := setup.event_of_act acted
    by_cases mine : id = action.actor
    · by_cases isInput : ∃ input, action = .input action.actor input
      · rcases isInput with ⟨input, isInput⟩
        rw [← mine] at isInput
        subst isInput
        have nodeIs : (next.node id).raft = Node.feed (before.node id).raft input := by
          cases event
          simp [Setup.place]
        rw [nodeIs] at has
        by_cases isRead : input = .readIndex
        · subst isRead
          rcases Raft.HasRead.of_readIndex has with had | granted
          · exact earlier had
          · exact ⟨before, lived, granted, next, acted, .refl⟩
        · exact earlier (.of_feed isRead has)
      · have rests := (event.rests (not_exists.mp isInput)).1
        rw [← mine] at rests
        exact earlier (.of_rests rests has)
    · rw [event.node_eq mine] at has
      exact earlier has

theorem Setup.Asked.awaits {setup : Setup σ} {id : NodeId} {asked : Cluster σ} {ctx : ℕ}
    (born : setup.Born id start) (isAsked : setup.Asked id start now ctx asked) :
    Awaits setup.config (fun other => (asked.node other).raft.term) id
      (asked.node id).raft.term ctx (asked.node id).raft.commit now := by
  rcases isAsked with ⟨lived, granted, answered, acted, onwards⟩
  rcases (Numbering.initial setup).run (.initial setup .fixed)
    (born.reached.trans lived.reaches) with
    ⟨state, _, simulates, numbering⟩
  have event := setup.event_of_act acted
  have reached := (born.reached.trans lived.reaches).tail ⟨_, acted⟩
  induction onwards with
  | refl => exact .asked numbering simulates event granted
  | tail onwards step ih =>
    rcases step with ⟨action, alive, acted⟩
    rcases (Numbering.initial setup).run (.initial setup .fixed)
      (reached.trans (Setup.Lives.reaches onwards)) with ⟨_, _, simulates', numbering'⟩
    exact ih.step numbering' simulates' (setup.event_of_act acted) alive

/-- When a read is answered, no node had committed anything beyond its index before it was
asked. -/
theorem Setup.Asked.commit_le {setup : Setup σ} {id : NodeId} {asked : Cluster σ}
    {read : ReadState} (born : setup.Born id start)
    (isAsked : setup.Asked id start now read.ctx asked)
    (answered : read ∈ (now.node id).raft.pending.reads) {earlier : Cluster σ}
    (reached : setup.Reaches setup.initial earlier) (onwards : setup.Reaches earlier asked)
    (other : NodeId) : (earlier.node other).raft.commit ≤ read.index := by
  rcases (isAsked.awaits born).awaiting.answers read answered rfl with
    ⟨indexIs, acks, quorum, notLater⟩
  rcases readIndex_of_some isAsked.2.1 with ⟨leads, committed, _⟩
  rcases (Simulates.initial setup .fixed).run reached with ⟨state, _, simulates⟩
  rcases simulates.run onwards with ⟨after, grows, simulates'⟩
  have bound := (simulates.tracks other).commit_le simulates.inv
  rw [indexIs]
  rcases (simulates.tracks other).certified simulates.inv with
    none | ⟨term, index, decided, _, covered⟩
  · have length := congrArg List.length none
    simp only [length_take, length_nil] at length
    omega
  · have reaches := simulates'.decision_le leads committed quorum notLater (grows.commits decided)
    have length := covered.length_le
    rw [length_take, length_take] at length
    omega

theorem Setup.Asked.index_le_commit {setup : Setup σ} {id : NodeId} {asked : Cluster σ}
    {read : ReadState} (born : setup.Born id start)
    (isAsked : setup.Asked id start now read.ctx asked)
    (answered : read ∈ (now.node id).raft.pending.reads) :
    read.index ≤ (now.node id).raft.commit := by
  rw [((isAsked.awaits born).awaiting.answers read answered rfl).1]
  rcases isAsked with ⟨lived, _, answered, acted, onwards⟩
  exact lived.commit_le born (.head ⟨_, rfl, acted⟩ onwards)

/-- Reads are linearizable: whatever index a process answers a read with, the process was asked
for that read; no node of the cluster had committed beyond the index when it was; and what the
process has handed to its application by the end of this cycle reaches the index. -/
theorem reads_linearizable (setup : Setup σ) {id : NodeId} {start now next : Cluster σ}
    (born : setup.Born id start) (lived : setup.Lives id start now)
    (cycled : setup.act now (.cycle id) = some next) {read : ReadState}
    (emitted : read ∈ (now.node id).raft.ready.1.reads) :
    (∃ asked, setup.Asked id start now read.ctx asked) ∧
      (∀ asked, setup.Asked id start now read.ctx asked →
        ∀ earlier, setup.Reaches setup.initial earlier → setup.Reaches earlier asked →
          ∀ other, (earlier.node other).raft.commit ≤ read.index) ∧
      ∃ position, follow (start.node id).raft.log.snapshotIndex (start.handedSince next id) =
        some position ∧ read.index ≤ position := by
  have answered : read ∈ (now.node id).raft.pending.reads := emitted
  have isAsked := lived.exists_asked born (Or.inr ⟨read, answered, rfl⟩)
  refine ⟨isAsked, ?_, ?_⟩
  · intro asked isAsked earlier reached onwards
    exact isAsked.commit_le born answered reached onwards
  · have reached := born.reached.trans lived.reaches
    rcases (Simulates.initial setup .fixed).run reached with ⟨state, _, simulates⟩
    have alive : setup.StepAlive id now next := ⟨.cycle id, rfl, cycled⟩
    have onwards : setup.Lives id start next := .tail lived alive
    rcases onwards.handedUpTo born with ⟨given, position, givenIs, led, handed⟩
    refine ⟨position, ?_, ?_⟩
    · rw [Cluster.handedSince, givenIs, drop_left]
      exact led
    · have nodeIs : (next.node id).raft = ((now.node id).cycle setup.machine).raft := by
        cases cycled
        simp [Setup.place]
      have tracks := simulates.tracks id
      have emptied : (next.node id).raft.pending.snapshot = none := by
        rw [nodeIs, cycle_pending]
        rfl
      rw [handed.applied emptied, nodeIs, applied_cycle, tracks.applied_after simulates.inv]
      rcases isAsked with ⟨asked, isAsked⟩
      exact isAsked.index_le_commit born answered

/-- Node 0 is asked for a read, and node 1 confirms that it still leads. -/
def ThreeNodes.afterRead : Cluster Bytes :=
  setup.play afterCommit
    [.input 0 .readIndex, .cycle 0,
      .input 1 (.message 0 ⟨1, .heartbeatReq 1 1⟩), .cycle 1,
      .input 0 (.message 1 ⟨1, .heartbeatResp 1⟩)]

theorem reads_linearizable_threeNodes :
    (⟨1, 1⟩ : ReadState) ∈ (ThreeNodes.afterRead.node 0).raft.ready.1.reads ∧
      (∃ asked, ThreeNodes.setup.Asked 0 ThreeNodes.setup.initial ThreeNodes.afterRead 1 asked) ∧
      ∃ next position, ThreeNodes.setup.act ThreeNodes.afterRead (.cycle 0) = some next ∧
        follow 0 (ThreeNodes.setup.initial.handedSince next 0) = some position ∧ 1 ≤ position := by
  have emitted : (⟨1, 1⟩ : ReadState) ∈ (ThreeNodes.afterRead.node 0).raft.ready.1.reads := by
    decide +kernel
  have elected : ThreeNodes.setup.Lives 0 ThreeNodes.setup.initial
      ThreeNodes.afterFirstElection := Setup.lives_play _ (by decide)
  have committed : ThreeNodes.setup.Lives 0 ThreeNodes.afterFirstElection
      ThreeNodes.afterCommit := Setup.lives_play _ (by decide)
  have read : ThreeNodes.setup.Lives 0 ThreeNodes.afterCommit ThreeNodes.afterRead :=
    Setup.lives_play _ (by decide)
  have linearizable := reads_linearizable ThreeNodes.setup (Or.inl rfl)
    (elected.trans (committed.trans read)) rfl emitted
  rcases linearizable.2.2 with ⟨position, led, reaches⟩
  exact ⟨emitted, linearizable.1, _, position, rfl, led, reaches⟩

end ChronoScope.Chronolog
