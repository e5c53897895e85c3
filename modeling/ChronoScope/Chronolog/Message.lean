import ChronoScope.Chronolog.Types

/-!
# The messages of the protocol

Every message carries the term of its sender, because comparing terms is the
first thing a node does with it. Pre-vote traffic is the exception: a poll is
sent at the term after the sender's.
-/

namespace ChronoScope.Chronolog

inductive Body where
  | preVoteReq (lastIndex lastTerm : ℕ)
  | preVoteResp (granted : Bool)
  | voteReq (lastIndex lastTerm : ℕ)
  | voteResp (granted : Bool)
  | appendReq (prevIndex prevTerm : ℕ) (entries : List Entry) (commit : ℕ)
  | appendResp (success : Bool) (matchIndex conflictIndex conflictTerm : ℕ)
  | snapshotReq (snapshot : Snapshot)
  | snapshotResp (success : Bool) (index : ℕ)
  | heartbeatReq (commit ctx : ℕ)
  | heartbeatResp (ctx : ℕ)
  | timeoutNow
  deriving DecidableEq

structure Message where
  term : ℕ
  body : Body
  deriving DecidableEq

/-- Pre-vote messages do not make their receiver adopt their term. -/
def Message.isPreVote (msg : Message) : Bool :=
  match msg.body with
  | .preVoteReq .. => true
  | .preVoteResp .. => true
  | _ => false

end ChronoScope.Chronolog
