import ChronoScope.Chronolog.Codec
import ChronoScope.Collections

/-!
# The types Raft persists and replicates

Terms, indices and node ids are natural numbers; `Fits` states the machine range
of each type, which is what the fixed-width encoding needs to be invertible.

Quorums are counted under a `Config`. During a membership change both the
incoming voters and the outgoing ones have to agree.
-/

namespace ChronoScope.Chronolog

open List

abbrev NodeId := ℕ

/-- How one is added to a term or an index. The protocol is about numbers that do not run out;
those of a build are `u64`. -/
class Counting where
  next : ℕ → ℕ

namespace Counting

instance unbounded : Counting where
  next count := count + 1

/-- Addition in a release build. -/
abbrev wrapping : Counting where
  next count := (count + 1) % 2 ^ 64

end Counting

inductive ConfigChange where
  /-- Step into the joint configuration: `incoming` becomes the voter set while
  the current voters become `outgoing`. -/
  | enterJoint (incoming learners : BTreeSet NodeId)
  /-- Step out of joint consensus. -/
  | leaveJoint
  deriving DecidableEq

inductive EntryKind where
  | normal (data : Bytes)
  | config (change : ConfigChange)
  | noop
  deriving DecidableEq

structure Entry where
  term : ℕ
  index : ℕ
  kind : EntryKind
  deriving DecidableEq

/-- Whether the entry changes the membership. -/
def Entry.isConfig (entry : Entry) : Bool :=
  match entry.kind with
  | .config _ => true
  | _ => false

/-- Whether the entry steps into a joint configuration. -/
def Entry.isEnterJoint (entry : Entry) : Bool :=
  match entry.kind with
  | .config (.enterJoint ..) => true
  | _ => false

/-- The membership of the cluster, possibly in the middle of a change. -/
structure Config where
  voters : BTreeSet NodeId
  /-- Non-empty exactly while in joint consensus. -/
  outgoing : BTreeSet NodeId
  learners : BTreeSet NodeId
  deriving DecidableEq

/-- What has to be on stable storage before any message is answered. -/
structure HardState where
  term : ℕ
  vote : Option NodeId
  commit : ℕ
  deriving DecidableEq

/-- An image of the state machine, replacing the log prefix it covers. -/
structure Snapshot where
  lastIndex : ℕ
  lastTerm : ℕ
  config : Config
  data : Bytes
  deriving DecidableEq

def HardState.default : HardState := { term := 0, vote := none, commit := 0 }

namespace Config

def default : Config := { voters := ∅, outgoing := ∅, learners := ∅ }

def simple (voters : List NodeId) : Config :=
  { voters := .ofList voters, outgoing := ∅, learners := ∅ }

def isJoint (cfg : Config) : Bool := !cfg.outgoing.isEmpty

/-- Every node that must be replicated to, voters and learners alike. -/
def allNodes (cfg : Config) : BTreeSet NodeId :=
  .ofList (cfg.voters.toList ++ cfg.outgoing.toList ++ cfg.learners.toList)

def isVoter (cfg : Config) (id : NodeId) : Bool :=
  decide (id ∈ cfg.voters) || decide (id ∈ cfg.outgoing)

/-- An empty group does not constrain; otherwise more than half must be among `votes`. -/
def majority (group votes : BTreeSet NodeId) : Bool :=
  if group.isEmpty then true
  else
    let got := (group.toList.filter (fun id => decide (id ∈ votes))).length
    decide (got * 2 > group.len)

/-- Does this set of nodes constitute a quorum? In joint consensus it must be a
majority of both configurations. -/
def hasQuorum (cfg : Config) (votes : BTreeSet NodeId) : Bool :=
  if cfg.voters.isEmpty && cfg.outgoing.isEmpty then false
  else majority cfg.voters votes && (!cfg.isJoint || majority cfg.outgoing votes)

/-- The highest index replicated on a majority of one group. -/
def quorumOf (group : BTreeSet NodeId) (matched : NodeId → ℕ) : Option ℕ :=
  if group.isEmpty then none
  else
    let indices := (group.toList.map matched).insertionSort (fun left right => left ≥ right)
    some (indices.getD (group.len / 2) 0)

/-- The highest index replicated on a quorum. -/
def quorumIndex (cfg : Config) (matched : NodeId → ℕ) : ℕ :=
  match quorumOf cfg.voters matched, quorumOf cfg.outgoing matched with
  | some incoming, some outgoing => min incoming outgoing
  | some incoming, none => incoming
  | none, some outgoing => outgoing
  | none, none => 0

end Config

def encodeNodes (nodes : BTreeSet NodeId) : Bytes := Writer.seq Writer.u32 nodes.toList

def decodeNodes : Decoder (BTreeSet NodeId) := Reader.map .ofList (Reader.seq Reader.u32)

def ConfigChange.encode : ConfigChange → Bytes
  | .enterJoint incoming learners => Writer.u8 0 ++ (encodeNodes incoming ++ encodeNodes learners)
  | .leaveJoint => Writer.u8 1

def ConfigChange.decode : Decoder ConfigChange :=
  Reader.bind Reader.u8 fun tag =>
    if tag = 0 then
      Reader.bind decodeNodes fun incoming =>
        Reader.map (fun learners => .enterJoint incoming learners) decodeNodes
    else if tag = 1 then Reader.pure .leaveJoint
    else Reader.fail (.badTag tag)

def EntryKind.encode : EntryKind → Bytes
  | .normal data => Writer.u8 0 ++ Writer.bytes data
  | .config change => Writer.u8 1 ++ change.encode
  | .noop => Writer.u8 2

def EntryKind.decode : Decoder EntryKind :=
  Reader.bind Reader.u8 fun tag =>
    if tag = 0 then Reader.map .normal Reader.bytes
    else if tag = 1 then Reader.map .config ConfigChange.decode
    else if tag = 2 then Reader.pure .noop
    else Reader.fail (.badTag tag)

def Entry.encode (entry : Entry) : Bytes :=
  Writer.u64 entry.term ++ (Writer.u64 entry.index ++ entry.kind.encode)

def Entry.decode : Decoder Entry :=
  Reader.bind Reader.u64 fun term =>
    Reader.bind Reader.u64 fun index =>
      Reader.map (fun kind => { term, index, kind }) EntryKind.decode

def Entry.toBytes (entry : Entry) : Bytes := entry.encode

def Config.encode (cfg : Config) : Bytes :=
  encodeNodes cfg.voters ++ (encodeNodes cfg.outgoing ++ encodeNodes cfg.learners)

def Config.decode : Decoder Config :=
  Reader.bind decodeNodes fun voters =>
    Reader.bind decodeNodes fun outgoing =>
      Reader.map (fun learners => { voters, outgoing, learners }) decodeNodes

def Snapshot.encode (snapshot : Snapshot) : Bytes :=
  Writer.u64 snapshot.lastIndex ++
    (Writer.u64 snapshot.lastTerm ++ (snapshot.config.encode ++ Writer.bytes snapshot.data))

def Snapshot.decode : Decoder Snapshot :=
  Reader.bind Reader.u64 fun lastIndex =>
    Reader.bind Reader.u64 fun lastTerm =>
      Reader.bind Config.decode fun config =>
        Reader.map (fun data => { lastIndex, lastTerm, config, data }) Reader.bytes

/-- Node ids are 32-bit, and so is the count of a sequence. -/
structure NodesFit (nodes : BTreeSet NodeId) : Prop where
  count : nodes.toList.length < 2 ^ 32
  ids : ∀ id ∈ nodes, id < 2 ^ 32

def ConfigChange.Fits : ConfigChange → Prop
  | .enterJoint incoming learners => NodesFit incoming ∧ NodesFit learners
  | .leaveJoint => True

def EntryKind.Fits : EntryKind → Prop
  | .normal data => data.length < 2 ^ 32
  | .config change => change.Fits
  | .noop => True

structure Entry.Fits (entry : Entry) : Prop where
  term : entry.term < 2 ^ 64
  index : entry.index < 2 ^ 64
  kind : entry.kind.Fits

structure Config.Fits (cfg : Config) : Prop where
  voters : NodesFit cfg.voters
  outgoing : NodesFit cfg.outgoing
  learners : NodesFit cfg.learners

structure Snapshot.Fits (snapshot : Snapshot) : Prop where
  lastIndex : snapshot.lastIndex < 2 ^ 64
  lastTerm : snapshot.lastTerm < 2 ^ 64
  config : snapshot.config.Fits
  data : snapshot.data.length < 2 ^ 32

/-! What is encoded in fewer than `2 ^ 32` bytes fits if its integers are in the range of their
types. -/

def NodesInRange (nodes : BTreeSet NodeId) : Prop := ∀ id ∈ nodes, id < 2 ^ 32

def ConfigChange.InRange : ConfigChange → Prop
  | .enterJoint incoming learners => NodesInRange incoming ∧ NodesInRange learners
  | .leaveJoint => True

def EntryKind.InRange : EntryKind → Prop
  | .config change => change.InRange
  | _ => True

structure Entry.InRange (entry : Entry) : Prop where
  term : entry.term < 2 ^ 64
  index : entry.index < 2 ^ 64
  kind : entry.kind.InRange

structure Config.InRange (cfg : Config) : Prop where
  voters : NodesInRange cfg.voters
  outgoing : NodesInRange cfg.outgoing
  learners : NodesInRange cfg.learners

structure Snapshot.InRange (snapshot : Snapshot) : Prop where
  lastIndex : snapshot.lastIndex < 2 ^ 64
  lastTerm : snapshot.lastTerm < 2 ^ 64
  config : snapshot.config.InRange

theorem length_encodeNodes (nodes : BTreeSet NodeId) :
    (encodeNodes nodes).length = 4 + nodes.toList.length * 4 := by
  have encoded (ids : List NodeId) : (ids.flatMap Writer.u32).length = ids.length * 4 := by
    induction ids with
    | nil => rfl
    | cons head tail ih =>
      rw [flatMap_cons, length_append, ih, length_cons, Writer.u32,
        length_leBytes]
      omega
  rw [encodeNodes, Writer.seq, length_append, encoded, Writer.u32, length_leBytes]

theorem NodesInRange.fits {nodes : BTreeSet NodeId} (inRange : NodesInRange nodes)
    (short : (encodeNodes nodes).length < 2 ^ 32) : NodesFit nodes := by
  rw [length_encodeNodes] at short
  exact ⟨by omega, inRange⟩

theorem ConfigChange.InRange.fits {change : ConfigChange} (inRange : change.InRange)
    (short : change.encode.length < 2 ^ 32) : change.Fits := by
  cases change with
  | enterJoint incoming learners =>
    simp only [ConfigChange.encode, length_append] at short
    exact ⟨inRange.1.fits (by omega), inRange.2.fits (by omega)⟩
  | leaveJoint => trivial

theorem EntryKind.InRange.fits {kind : EntryKind} (inRange : kind.InRange)
    (short : kind.encode.length < 2 ^ 32) : kind.Fits := by
  cases kind with
  | normal data =>
    simp only [EntryKind.encode, Writer.bytes, length_append] at short
    rw [EntryKind.Fits]
    omega
  | config change =>
    simp only [EntryKind.encode, length_append] at short
    exact ConfigChange.InRange.fits inRange (by omega)
  | noop => trivial

theorem Entry.InRange.fits {entry : Entry} (inRange : entry.InRange)
    (short : entry.encode.length < 2 ^ 32) : entry.Fits := by
  simp only [Entry.encode, length_append] at short
  exact ⟨inRange.term, inRange.index, inRange.kind.fits (by omega)⟩

theorem Config.InRange.fits {cfg : Config} (inRange : cfg.InRange)
    (short : cfg.encode.length < 2 ^ 32) : cfg.Fits := by
  simp only [Config.encode, length_append] at short
  exact ⟨inRange.voters.fits (by omega), inRange.outgoing.fits (by omega),
    inRange.learners.fits (by omega)⟩

theorem Snapshot.InRange.fits {snapshot : Snapshot} (inRange : snapshot.InRange)
    (short : snapshot.encode.length < 2 ^ 32) : snapshot.Fits := by
  simp only [Snapshot.encode, Writer.bytes, length_append] at short
  exact ⟨inRange.lastIndex, inRange.lastTerm, inRange.config.fits (by omega), by omega⟩

theorem decodeNodes_inverts {nodes : BTreeSet NodeId} (fits : NodesFit nodes) :
    Inverts decodeNodes (encodeNodes nodes) nodes := by
  have decoded : Inverts (Reader.seq Reader.u32) (encodeNodes nodes) nodes.toList := by
    apply Inverts.seq fits.count
    · intro id member
      exact Inverts.u32 (fits.ids id member)
    · intro id _
      simp [Writer.u32]
  have collected : BTreeSet.ofList nodes.toList = nodes := by
    apply BTreeSet.ext
    intro id
    exact BTreeSet.mem_ofList
  simpa only [decodeNodes, collected] using decoded.map BTreeSet.ofList

theorem ConfigChange.decode_inverts {change : ConfigChange} (fits : change.Fits) :
    Inverts ConfigChange.decode change.encode change := by
  cases change with
  | enterJoint incoming learners =>
    apply Inverts.u8.bind
    exact (decodeNodes_inverts fits.1).bind ((decodeNodes_inverts fits.2).map _)
  | leaveJoint => exact Inverts.u8.bind (Inverts.pure _)

theorem EntryKind.decode_inverts {kind : EntryKind} (fits : kind.Fits) :
    Inverts EntryKind.decode kind.encode kind := by
  cases kind with
  | normal data => exact Inverts.u8.bind ((Inverts.bytes fits).map _)
  | config change => exact Inverts.u8.bind ((ConfigChange.decode_inverts fits).map _)
  | noop => exact Inverts.u8.bind (Inverts.pure _)

theorem Entry.decode_inverts {entry : Entry} (fits : entry.Fits) :
    Inverts Entry.decode entry.encode entry := by
  apply (Inverts.u64 fits.term).bind
  apply (Inverts.u64 fits.index).bind
  exact (EntryKind.decode_inverts fits.kind).map _

theorem Config.decode_inverts {cfg : Config} (fits : cfg.Fits) :
    Inverts Config.decode cfg.encode cfg := by
  apply (decodeNodes_inverts fits.voters).bind
  apply (decodeNodes_inverts fits.outgoing).bind
  exact (decodeNodes_inverts fits.learners).map _

theorem Snapshot.decode_inverts {snapshot : Snapshot} (fits : snapshot.Fits) :
    Inverts Snapshot.decode snapshot.encode snapshot := by
  apply (Inverts.u64 fits.lastIndex).bind
  apply (Inverts.u64 fits.lastTerm).bind
  apply (Config.decode_inverts fits.config).bind
  exact (Inverts.bytes fits.data).map _

theorem decodeNodes_accepts : Accepts decodeNodes fun nodes used =>
    NodesFit nodes ∧ (encodeNodes nodes).length ≤ used := by
  have each : Accepts Reader.u32 fun id used => id < 2 ^ 32 ∧ 4 ≤ used :=
    Accepts.u32.mono fun _ _ counted => ⟨counted.1, counted.2.ge⟩
  refine Accepts.map ((Accepts.seq each).mono ?_)
  rintro ids used ⟨areIds, count, atLeast⟩
  have shorter := BTreeSet.length_ofList_le ids
  refine ⟨⟨shorter.trans_lt count, ?_⟩, ?_⟩
  · intro id member
    exact areIds id (BTreeSet.mem_ofList.mp member)
  · rw [map_const', sum_replicate_nat] at atLeast
    rw [length_encodeNodes]
    omega

theorem ConfigChange.decode_accepts : Accepts ConfigChange.decode fun change used =>
    change.Fits ∧ change.encode.length ≤ used := by
  refine Accepts.bind (Accepts.u8.mono ?_)
  rintro tag _ rfl
  split_ifs
  · refine Accepts.bind (decodeNodes_accepts.mono ?_)
    rintro incoming _ ⟨incomingFit, shorter⟩
    refine Accepts.map (decodeNodes_accepts.mono ?_)
    rintro learners _ ⟨learnersFit, shorter'⟩
    refine ⟨⟨incomingFit, learnersFit⟩, ?_⟩
    simp only [ConfigChange.encode, Writer.u8, length_append, length_singleton]
    omega
  · exact Accepts.pure ⟨trivial, by simp [ConfigChange.encode, Writer.u8]⟩
  · exact Accepts.fail

theorem EntryKind.decode_accepts : Accepts EntryKind.decode fun kind used =>
    kind.Fits ∧ kind.encode.length ≤ used := by
  refine Accepts.bind (Accepts.u8.mono ?_)
  rintro tag _ rfl
  split_ifs
  · refine Accepts.map (Accepts.bytes.mono ?_)
    rintro data _ ⟨fits, rfl⟩
    refine ⟨fits, ?_⟩
    simp only [EntryKind.encode, Writer.u8, Writer.bytes, Writer.u32, length_append,
      length_singleton, length_leBytes]
    omega
  · refine Accepts.map (ConfigChange.decode_accepts.mono ?_)
    rintro change used ⟨fits, shorter⟩
    refine ⟨fits, ?_⟩
    simp only [EntryKind.encode, Writer.u8, length_append, length_singleton]
    omega
  · exact Accepts.pure ⟨trivial, by simp [EntryKind.encode, Writer.u8]⟩
  · exact Accepts.fail

theorem Entry.decode_accepts : Accepts Entry.decode fun entry used =>
    entry.Fits ∧ entry.encode.length ≤ used := by
  refine Accepts.bind (Accepts.u64.mono ?_)
  rintro term _ ⟨termFits, rfl⟩
  refine Accepts.bind (Accepts.u64.mono ?_)
  rintro index _ ⟨indexFits, rfl⟩
  refine Accepts.map (EntryKind.decode_accepts.mono ?_)
  rintro kind used ⟨kindFits, shorter⟩
  refine ⟨⟨termFits, indexFits, kindFits⟩, ?_⟩
  simp only [Entry.encode, Writer.u64, length_append, length_leBytes]
  omega

theorem Config.decode_accepts : Accepts Config.decode fun cfg used =>
    cfg.Fits ∧ cfg.encode.length ≤ used := by
  refine Accepts.bind (decodeNodes_accepts.mono ?_)
  rintro voters _ ⟨votersFit, shorter⟩
  refine Accepts.bind (decodeNodes_accepts.mono ?_)
  rintro outgoing _ ⟨outgoingFit, shorter'⟩
  refine Accepts.map (decodeNodes_accepts.mono ?_)
  rintro learners _ ⟨learnersFit, shorter''⟩
  refine ⟨⟨votersFit, outgoingFit, learnersFit⟩, ?_⟩
  simp only [Config.encode, length_append]
  omega

theorem Snapshot.decode_accepts : Accepts Snapshot.decode fun snapshot used =>
    snapshot.Fits ∧ snapshot.encode.length ≤ used := by
  refine Accepts.bind (Accepts.u64.mono ?_)
  rintro lastIndex _ ⟨indexFits, rfl⟩
  refine Accepts.bind (Accepts.u64.mono ?_)
  rintro lastTerm _ ⟨termFits, rfl⟩
  refine Accepts.bind (Config.decode_accepts.mono ?_)
  rintro config _ ⟨configFits, shorter⟩
  refine Accepts.map (Accepts.bytes.mono ?_)
  rintro data _ ⟨dataFits, rfl⟩
  refine ⟨⟨indexFits, termFits, configFits, dataFits⟩, ?_⟩
  simp only [Snapshot.encode, Writer.u64, Writer.bytes, Writer.u32, length_append,
    length_leBytes]
  omega

end ChronoScope.Chronolog
