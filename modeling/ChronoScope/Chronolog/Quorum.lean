import ChronoScope.Chronolog.Types
import Mathlib.Order.Bounds.Defs

/-!
# Quorums

Any two quorums of one configuration share a voter, joint or not. The quorum
index, which sorts each group and picks a position, and the quorum test, which
counts, are two views of one thing: an index is at most the quorum index just if
the nodes that have reached it form a quorum.
-/

namespace ChronoScope.Chronolog

open List

namespace Config

@[simp]
theorem majority_empty (votes : BTreeSet NodeId) : majority ∅ votes = true := rfl

/-- The members of a group that are among the votes. -/
private def counted (group votes : BTreeSet NodeId) : Finset NodeId :=
  group.toList.toFinset.filter (· ∈ votes)

variable {group left right votes : BTreeSet NodeId} {cfg : Config} {matched : NodeId → ℕ}

private theorem majority_iff (nonempty : group ≠ ∅) :
    majority group votes = true ↔
      group.toList.toFinset.card < (counted group votes).card * 2 := by
  have notEmpty : ¬group.isEmpty = true := by simpa using nonempty
  simp only [majority, if_neg notEmpty, decide_eq_true_eq, BTreeSet.length_filter_eq_card,
    BTreeSet.len_eq_card, counted]

theorem majority_meet (nonempty : group ≠ ∅)
    (leftMajority : majority group left = true) (rightMajority : majority group right = true) :
    ∃ id ∈ group, id ∈ left ∧ id ∈ right := by
  rw [majority_iff nonempty] at leftMajority rightMajority
  have crowded : group.toList.toFinset.card <
      (counted group left).card + (counted group right).card := by omega
  have shared := Finset.inter_nonempty_of_card_lt_card_add_card
    (Finset.filter_subset _ _) (Finset.filter_subset _ _) crowded
  rcases shared with ⟨id, inBoth⟩
  rcases Finset.mem_inter.mp inBoth with ⟨inLeft, inRight⟩
  rcases Finset.mem_filter.mp inLeft with ⟨inGroup, votedLeft⟩
  exact ⟨id, mem_toFinset.mp inGroup, votedLeft, (Finset.mem_filter.mp inRight).2⟩

theorem isJoint_iff : cfg.isJoint = true ↔ cfg.outgoing ≠ ∅ := by
  simp only [isJoint, Bool.not_eq_true', ← Bool.not_eq_true, BTreeSet.isEmpty_iff]

theorem hasQuorum_iff :
    cfg.hasQuorum votes = true ↔
      (cfg.voters ≠ ∅ ∨ cfg.outgoing ≠ ∅) ∧ majority cfg.voters votes = true ∧
        majority cfg.outgoing votes = true := by
  by_cases noVoters : cfg.voters = ∅ <;> by_cases simple : cfg.outgoing = ∅
  · simp [hasQuorum, noVoters, simple]
  · simp [hasQuorum, noVoters, simple, isJoint]
  · simp [hasQuorum, noVoters, simple, isJoint]
  · simp [hasQuorum, noVoters, simple, isJoint]

theorem isVoter_iff {id : NodeId} :
    cfg.isVoter id = true ↔ id ∈ cfg.voters ∨ id ∈ cfg.outgoing := by
  simp [isVoter]

theorem hasQuorum_meet
    (leftQuorum : cfg.hasQuorum left = true) (rightQuorum : cfg.hasQuorum right = true) :
    ∃ id, cfg.isVoter id = true ∧ id ∈ left ∧ id ∈ right := by
  rcases hasQuorum_iff.mp leftQuorum with ⟨constrained, leftVoters, leftOutgoing⟩
  rcases hasQuorum_iff.mp rightQuorum with ⟨_, rightVoters, rightOutgoing⟩
  rcases constrained with someVoters | joint
  · rcases majority_meet someVoters leftVoters rightVoters with ⟨id, votes, shared⟩
    exact ⟨id, isVoter_iff.mpr (Or.inl votes), shared⟩
  · rcases majority_meet joint leftOutgoing rightOutgoing with ⟨id, votes, shared⟩
    exact ⟨id, isVoter_iff.mpr (Or.inr votes), shared⟩

theorem majority_mono {more : BTreeSet NodeId} (included : ∀ id ∈ votes, id ∈ more)
    (enough : majority group votes = true) : majority group more = true := by
  by_cases empty : group = ∅
  · simp [empty]
  · rw [majority_iff empty] at enough ⊢
    refine enough.trans_le (Nat.mul_le_mul_right 2 (Finset.card_le_card ?_))
    intro id member
    rcases Finset.mem_filter.mp member with ⟨inGroup, voted⟩
    exact Finset.mem_filter.mpr ⟨inGroup, included id voted⟩

theorem hasQuorum_mono {more : BTreeSet NodeId}
    (included : ∀ id ∈ votes, id ∈ more) (quorum : cfg.hasQuorum votes = true) :
    cfg.hasQuorum more = true := by
  rcases hasQuorum_iff.mp quorum with ⟨constrained, voters, outgoing⟩
  exact hasQuorum_iff.mpr
    ⟨constrained, majority_mono included voters, majority_mono included outgoing⟩

variable {target : ℕ}

private theorem le_getElem_iff {indices : List ℕ}
    (sorted : indices.Pairwise (fun left right => left ≥ right)) {position : ℕ}
    (bound : position < indices.length) :
    target ≤ indices[position] ↔
      position < indices.countP (fun index => decide (target ≤ index)) := by
  have descends : ∀ slot (inside : slot < indices.length), position ≤ slot →
      indices[slot] ≤ indices[position] := by
    intro slot inside notBefore
    rcases notBefore.eq_or_lt with rfl | before
    · exact le_rfl
    · exact pairwise_iff_getElem.mp sorted position slot bound inside before
  constructor
  · intro reached
    have all : (indices.take (position + 1)).countP (fun index => decide (target ≤ index)) =
        (indices.take (position + 1)).length := by
      rw [countP_eq_length]
      intro index member
      rcases getElem_of_mem member with ⟨slot, inTake, rfl⟩
      rw [length_take] at inTake
      rw [getElem_take, decide_eq_true_eq]
      rcases Nat.lt_or_ge slot position with before | notBefore
      · exact reached.trans
          (pairwise_iff_getElem.mp sorted slot position (by omega) bound before)
      · obtain rfl : slot = position := by omega
        exact reached
    have counts := (take_sublist (position + 1) indices).countP_le
      (p := fun index => decide (target ≤ index))
    rw [all, length_take] at counts
    omega
  · intro counts
    by_contra short
    have none : (indices.drop position).countP (fun index => decide (target ≤ index)) = 0 := by
      rw [countP_eq_zero]
      intro index member reached
      rcases getElem_of_mem member with ⟨slot, inDrop, rfl⟩
      rw [length_drop] at inDrop
      rw [getElem_drop, decide_eq_true_eq] at reached
      exact short (reached.trans (descends (position + slot) (by omega) (by omega)))
    rw [← take_append_drop position indices, countP_append, none] at counts
    have atMost := countP_le_length (p := fun index => decide (target ≤ index))
      (l := indices.take position)
    rw [length_take] at atMost
    omega

/-- Counting and sorting agree: those of a group that have reached an index are a majority just if
the group's quorum index is no lower. -/
theorem majority_iff_le_quorumOf {index : ℕ} (reaches : quorumOf group matched = some index)
    (reached : ∀ id ∈ group, id ∈ votes ↔ target ≤ matched id) :
    majority group votes = true ↔ target ≤ index := by
  unfold quorumOf at reaches
  split_ifs at reaches with empty
  have positive : 0 < group.toList.length := by
    apply length_pos_of_ne_nil
    simpa [BTreeSet.isEmpty] using empty
  let indices := (group.toList.map matched).insertionSort (fun left right => left ≥ right)
  have permuted : indices.Perm (group.toList.map matched) := perm_insertionSort _ _
  have length : indices.length = group.toList.length := by
    rw [permuted.length_eq, length_map]
  have inRange : group.len / 2 < indices.length := by
    rw [length, BTreeSet.len]
    omega
  have indexIs : indices[group.len / 2] = index := by
    rw [← Option.some.inj reaches, getD_eq_getElem?_getD, getElem?_eq_getElem inRange]
    rfl
  have counted : indices.countP (fun index => decide (target ≤ index)) =
      (group.toList.filter (fun id => decide (id ∈ votes))).length := by
    rw [permuted.countP_eq, countP_map, ← countP_eq_length_filter]
    apply countP_congr
    intro id member
    simpa using (reached id member).symm
  rw [← indexIs, le_getElem_iff (pairwise_insertionSort _ _) inRange, counted]
  simp only [majority, if_neg empty, decide_eq_true_eq]
  omega

theorem majority_of_quorumOf
    {index : ℕ} (reaches : quorumOf group matched = some index)
    (included : ∀ id ∈ group, index ≤ matched id → id ∈ votes) :
    majority group votes = true := by
  have enough : majority group (group.filter fun id => decide (index ≤ matched id)) = true := by
    refine (majority_iff_le_quorumOf reaches fun id member => ?_).mpr le_rfl
    simp [member]
  refine majority_mono ?_ enough
  intro id member
  rcases BTreeSet.mem_filter.mp member with ⟨inGroup, reached⟩
  exact included id inGroup (of_decide_eq_true reached)

theorem hasQuorum_iff_le_quorumIndex (manned : cfg.voters ≠ ∅ ∨ cfg.outgoing ≠ ∅)
    (reached : ∀ id, cfg.isVoter id = true → (id ∈ votes ↔ target ≤ matched id)) :
    cfg.hasQuorum votes = true ↔ target ≤ cfg.quorumIndex matched := by
  have counts : ∀ {group : BTreeSet NodeId}, (∀ id ∈ group, cfg.isVoter id = true) →
      group = ∅ ∧ quorumOf group matched = none ∧ majority group votes = true ∨
      ∃ index, quorumOf group matched = some index ∧
        (majority group votes = true ↔ target ≤ index) := by
    intro group votersOnly
    by_cases empty : group = ∅
    · left
      subst empty
      exact ⟨rfl, rfl, rfl⟩
    · right
      have notEmpty : ¬ group.isEmpty = true := by simpa using empty
      refine ⟨_, if_neg notEmpty, majority_iff_le_quorumOf (if_neg notEmpty) ?_⟩
      exact fun id member => reached id (votersOnly id member)
  rw [hasQuorum_iff]
  rcases counts fun id member => isVoter_iff.mpr (Or.inl member) with
    ⟨noVoters, noIndex, vacuous⟩ | ⟨first, firstIs, firstIff⟩ <;>
  rcases counts fun id member => isVoter_iff.mpr (Or.inr member) with
    ⟨simple, noOutgoing, vacuous'⟩ | ⟨second, secondIs, secondIff⟩
  · simp [noVoters, simple] at manned
  · simp [quorumIndex, noIndex, secondIs, vacuous, secondIff, manned]
  · simp [quorumIndex, firstIs, noOutgoing, vacuous', firstIff, manned]
  · simp [quorumIndex, firstIs, secondIs, firstIff, secondIff, manned]

theorem hasQuorum_congr
    (same : ∀ id, cfg.isVoter id = true → (id ∈ left ↔ id ∈ right)) :
    cfg.hasQuorum left = cfg.hasQuorum right := by
  have counts : ∀ {group : BTreeSet NodeId}, (∀ id ∈ group, cfg.isVoter id = true) →
      majority group left = majority group right := by
    intro group votersOnly
    have sameCount : group.toList.filter (fun id => decide (id ∈ left)) =
        group.toList.filter (fun id => decide (id ∈ right)) := by
      apply filter_congr
      intro id member
      simp [same id (votersOnly id member)]
    simp [majority, sameCount]
  rw [hasQuorum, hasQuorum, counts fun id member => isVoter_iff.mpr (Or.inl member),
    counts fun id member => isVoter_iff.mpr (Or.inr member)]

theorem quorumIndex_congr {left right : NodeId → ℕ}
    (same : ∀ id, cfg.isVoter id = true → left id = right id) :
    cfg.quorumIndex left = cfg.quorumIndex right := by
  have counts : ∀ {group : BTreeSet NodeId}, (∀ id ∈ group, cfg.isVoter id = true) →
      quorumOf group left = quorumOf group right := by
    intro group votersOnly
    have sameIndices : group.toList.map left = group.toList.map right :=
      map_congr_left fun id member => same id (votersOnly id member)
    simp [quorumOf, sameIndices]
  rw [quorumIndex, quorumIndex, counts fun id member => isVoter_iff.mpr (Or.inl member),
    counts fun id member => isVoter_iff.mpr (Or.inr member)]

/-- The two quorum computations agree. Whatever the nodes have reached, the quorum index is the
greatest index reached by a quorum, and neither depends on the learners: not on who they are, nor
on what they have reached or voted. -/
theorem quorumIndex_isGreatest (cfg : Config) (manned : cfg.voters ≠ ∅ ∨ cfg.outgoing ≠ ∅)
    (matched : NodeId → ℕ) :
    (∀ reached : ℕ → BTreeSet NodeId,
      (∀ target id, cfg.isVoter id = true → (id ∈ reached target ↔ target ≤ matched id)) →
      IsGreatest {target | cfg.hasQuorum (reached target) = true} (cfg.quorumIndex matched)) ∧
    (∀ learners : BTreeSet NodeId,
      Config.quorumIndex { cfg with learners := learners } matched = cfg.quorumIndex matched ∧
      ∀ votes, Config.hasQuorum { cfg with learners := learners } votes = cfg.hasQuorum votes) ∧
    (∀ other : NodeId → ℕ, (∀ id, cfg.isVoter id = true → other id = matched id) →
      cfg.quorumIndex other = cfg.quorumIndex matched) ∧
    ∀ left right : BTreeSet NodeId,
      (∀ id, cfg.isVoter id = true → (id ∈ left ↔ id ∈ right)) →
      cfg.hasQuorum left = cfg.hasQuorum right := by
  refine ⟨?_, fun _ => ⟨rfl, fun _ => rfl⟩, fun _ same => quorumIndex_congr same,
    fun _ _ same => hasQuorum_congr same⟩
  intro reached isReached
  constructor
  · exact (hasQuorum_iff_le_quorumIndex manned (isReached _)).mpr le_rfl
  · intro target quorum
    exact (hasQuorum_iff_le_quorumIndex manned (isReached target)).mp quorum

/-- In the middle of a change, with a learner that is ahead of everyone. -/
theorem quorumIndex_isGreatest_joint :
    let cfg : Config := ⟨.ofList [1, 2, 3], .ofList [3, 4], .ofList [5]⟩
    let matched : NodeId → ℕ := fun id => if id = 5 then 100 else 10 * id
    cfg.quorumIndex matched = 20 ∧
      IsGreatest {target | cfg.hasQuorum
        (cfg.allNodes.filter fun id => decide (target ≤ matched id)) = true} 20 := by
  intro cfg matched
  have known : cfg.quorumIndex matched = 20 := by decide
  have greatest := (quorumIndex_isGreatest cfg (Or.inl (by decide)) matched).1
    (fun target => cfg.allNodes.filter fun id => decide (target ≤ matched id)) ?_
  · exact ⟨known, known ▸ greatest⟩
  · intro target id isVoter
    have member : id ∈ cfg.allNodes := by
      rcases isVoter_iff.mp isVoter with incoming | outgoing
      · simp [allNodes, BTreeSet.mem_ofList, BTreeSet.mem_def.mp incoming]
      · simp [allNodes, BTreeSet.mem_ofList, BTreeSet.mem_def.mp outgoing]
    simp [member]

theorem hasQuorum_of_quorumIndex (positive : 0 < cfg.quorumIndex matched)
    (included : ∀ id, cfg.isVoter id = true → cfg.quorumIndex matched ≤ matched id → id ∈ votes) :
    cfg.hasQuorum votes = true := by
  have vacuous : ∀ {group : BTreeSet NodeId}, quorumOf group matched = none →
      group = ∅ ∧ majority group votes = true := by
    intro group noIndex
    have empty : group.isEmpty = true := by
      by_contra notEmpty
      simp [quorumOf, notEmpty] at noIndex
    exact ⟨BTreeSet.isEmpty_iff.mp empty, by simp [majority, empty]⟩
  have occupied : ∀ {group : BTreeSet NodeId} {index}, quorumOf group matched = some index →
      group ≠ ∅ := by
    rintro group index reaches rfl
    simp [quorumOf, BTreeSet.isEmpty] at reaches
  have voter : ∀ id ∈ cfg.voters, cfg.isVoter id = true := by
    intro id member
    simp [isVoter, member]
  have outgoer : ∀ id ∈ cfg.outgoing, cfg.isVoter id = true := by
    intro id member
    simp [isVoter, member]
  rw [hasQuorum_iff]
  cases incoming : quorumOf cfg.voters matched with
  | none =>
    cases outgoing : quorumOf cfg.outgoing matched with
    | none => simp [quorumIndex, incoming, outgoing] at positive
    | some index =>
      simp only [quorumIndex, incoming, outgoing] at included
      refine ⟨Or.inr (occupied outgoing), (vacuous incoming).2, ?_⟩
      exact majority_of_quorumOf outgoing fun id member => included id (outgoer id member)
  | some first =>
    cases outgoing : quorumOf cfg.outgoing matched with
    | none =>
      simp only [quorumIndex, incoming, outgoing] at included
      refine ⟨Or.inl (occupied incoming), ?_, (vacuous outgoing).2⟩
      exact majority_of_quorumOf incoming fun id member => included id (voter id member)
    | some second =>
      simp only [quorumIndex, incoming, outgoing] at included
      refine ⟨Or.inl (occupied incoming), ?_, ?_⟩
      · exact majority_of_quorumOf incoming fun id member reached =>
          included id (voter id member) ((min_le_left _ _).trans reached)
      · exact majority_of_quorumOf outgoing fun id member reached =>
          included id (outgoer id member) ((min_le_right _ _).trans reached)

/-- The members of two groups, each once. -/
def merged (group other : BTreeSet NodeId) : BTreeSet NodeId :=
  .ofList (group.toList ++ other.toList)

/-- What the other group adds to the first. -/
def added (group other : BTreeSet NodeId) : BTreeSet NodeId :=
  other.filter fun id => decide (id ∉ group)

/-- The second group adds so little to the first that no majority of both can do without a
majority of the first. -/
def Covers (group other : BTreeSet NodeId) : Prop :=
  group = ∅ ∨ (added group other).len = 0 ∨ (added group other).len = 1 ∧ group.len % 2 = 1

@[simp]
theorem mem_merged {id : NodeId} : id ∈ merged left right ↔ id ∈ left ∨ id ∈ right := by
  rw [merged, BTreeSet.mem_ofList, mem_append]
  rfl

theorem merged_comm (left right : BTreeSet NodeId) : merged left right = merged right left := by
  apply BTreeSet.ext
  intro id
  simp [or_comm]

theorem merged_ne_empty (someMember : left ≠ ∅ ∨ right ≠ ∅) : merged left right ≠ ∅ := by
  intro none
  have absent (id : NodeId) : id ∉ left ∧ id ∉ right := by
    rw [← not_or, ← mem_merged, none]
    exact BTreeSet.not_mem_empty id
  rcases someMember with isSome | isSome
  · exact isSome (BTreeSet.ext fun id => by simp [(absent id).1])
  · exact isSome (BTreeSet.ext fun id => by simp [(absent id).2])

private theorem toFinset_merged :
    (merged left right).toList.toFinset =
      left.toList.toFinset ∪ (added left right).toList.toFinset := by
  ext id
  have inAdded : id ∈ added left right ↔ id ∈ right ∧ id ∉ left := by
    simp [added]
  simp only [mem_toFinset, Finset.mem_union, ← BTreeSet.mem_def, mem_merged, inAdded]
  tauto

private theorem disjoint_added (left right : BTreeSet NodeId) :
    Disjoint left.toList.toFinset (added left right).toList.toFinset := by
  rw [Finset.disjoint_left]
  intro id inLeft inAdded
  have fresh : id ∈ added left right := mem_toFinset.mp inAdded
  simp only [added, BTreeSet.mem_filter, decide_eq_true_eq] at fresh
  exact fresh.2 (mem_toFinset.mp inLeft)

private theorem majority_merged_iff (nonempty : left ≠ ∅) :
    majority (merged left right) votes = true ↔
      left.len + (added left right).len <
        ((counted left votes).card + (counted (added left right) votes).card) * 2 := by
  have someMerged : merged left right ≠ ∅ := merged_ne_empty (.inl nonempty)
  have apart := disjoint_added left right
  simp only [majority_iff someMerged, counted, toFinset_merged, Finset.filter_union,
    Finset.card_union_of_disjoint apart, BTreeSet.len_eq_card,
    Finset.card_union_of_disjoint (Finset.disjoint_filter_filter apart)]

private theorem exists_half (left right : BTreeSet NodeId) :
    ∃ votes, (counted left votes).card = left.len / 2 ∧
      (counted (added left right) votes).card = (added left right).len := by
  let half := left.toList.take (left.len / 2)
  have within : ∀ id ∈ half, id ∈ left := fun id inHalf => mem_of_mem_take inHalf
  refine ⟨.ofList (half ++ (added left right).toList), ?_, ?_⟩
  · have same : counted left (.ofList (half ++ (added left right).toList)) = half.toFinset := by
      ext id
      have fresh : id ∈ (added left right).toList → id ∉ left := by
        intro inAdded
        simpa using (BTreeSet.mem_filter.mp (BTreeSet.mem_def.mpr inAdded)).2
      simp only [counted, Finset.mem_filter, mem_toFinset, BTreeSet.mem_ofList,
        mem_append]
      constructor
      · rintro ⟨inLeft, inHalf | inAdded⟩
        · exact inHalf
        · exact absurd inLeft (fresh inAdded)
      · exact fun inHalf => ⟨within id inHalf, .inl inHalf⟩
    rw [same, toFinset_card_of_nodup (left.nodup.sublist (take_sublist _ _)),
      length_take, ← BTreeSet.len]
    omega
  · have all : counted (added left right) (.ofList (half ++ (added left right).toList)) =
        (added left right).toList.toFinset := by
      apply Finset.filter_true_of_mem
      intro id inAdded
      simpa using Or.inr (mem_toFinset.mp inAdded)
    rw [all, BTreeSet.len_eq_card]

theorem majority_of_merged_iff :
    (∀ votes, majority (merged left right) votes = true → majority left votes = true) ↔
      Covers left right := by
  by_cases empty : left = ∅
  · simp [Covers, empty]
  · simp only [Covers, empty, false_or, majority_merged_iff empty, majority_iff empty,
      ← BTreeSet.len_eq_card]
    constructor
    · intro sound
      rcases exists_half left right with ⟨votes, halved, all⟩
      have := sound votes
      omega
    · intro covers votes merged
      have atMost : (counted (added left right) votes).card ≤ (added left right).len := by
        rw [BTreeSet.len_eq_card]
        exact Finset.card_filter_le _ _
      omega

end Config

end ChronoScope.Chronolog
