import ChronoScope.Chronolog.SegmentFile

/-!
# The segments on a disk

`Laid` describes the segment files at any moment, in order of their first
indices, by what each can yield after a power loss. Files never overlap, but
between two of them indices may be missing: recovery goes from one segment to
the next only if the indices connect, or if it has found nothing yet. `secure`
collects the entries it finds in any case.
-/

namespace ChronoScope.Chronolog

open List

open Function (update update_apply update_of_ne update_self)

open Sim

def segmentFiles (disk : Disk FileName) (first : ℕ) : Option FileState := disk.get (.segment first)

def slotFiles (disk : Disk FileName) (slot : ℕ) : Option FileState := disk.get (.snapshot slot)

section Files

variable (disk : Disk FileName) (file : FileState) (index : ℕ)

@[simp]
theorem segmentFiles_insert_segment : segmentFiles (disk.insert (.segment index) file) =
    update (segmentFiles disk) index (some file) := by
  funext first
  simp [segmentFiles, update_apply]

@[simp]
theorem segmentFiles_insert_snapshot :
    segmentFiles (disk.insert (.snapshot index) file) = segmentFiles disk := by
  funext first
  simp [segmentFiles]

@[simp]
theorem segmentFiles_insert_state :
    segmentFiles (disk.insert .state file) = segmentFiles disk := by
  funext first
  simp [segmentFiles]

@[simp]
theorem segmentFiles_remove : segmentFiles (BTreeMap.remove disk (.segment index)) =
    update (segmentFiles disk) index none := by
  funext first
  simp [segmentFiles, update_apply]

@[simp]
theorem slotFiles_insert_segment :
    slotFiles (disk.insert (.segment index) file) = slotFiles disk := by
  funext slot
  simp [slotFiles]

@[simp]
theorem slotFiles_insert_snapshot : slotFiles (disk.insert (.snapshot index) file) =
    update (slotFiles disk) index (some file) := by
  funext slot
  simp [slotFiles, update_apply]

@[simp]
theorem slotFiles_insert_state : slotFiles (disk.insert .state file) = slotFiles disk := by
  funext slot
  simp [slotFiles]

@[simp]
theorem slotFiles_remove : slotFiles (BTreeMap.remove disk (.segment index)) = slotFiles disk := by
  funext slot
  simp [slotFiles]

end Files

/-- A segment file: its first index, the records a power loss cannot take, and all its records. -/
structure Part where
  first : ℕ
  firm : List Entry
  all : List Entry

/-- The indices of the second part are above those of the first. -/
def Part.Below (part other : Part) : Prop :=
  part.first < other.first ∧ part.first + part.all.length ≤ other.first

structure Laid (files : ℕ → Option FileState) (parts : List Part) : Prop where
  exact : ∀ first, (files first).isSome = true ↔ first ∈ parts.map Part.first
  yields : ∀ part ∈ parts, ∃ file, files part.first = some file ∧
    Yields file part.first part.firm part.all
  rising : parts.Pairwise Part.Below
  positive : ∀ part ∈ parts, 0 < part.first
  numbered : ∀ part ∈ parts, Numbered part.first part.all
  storable : ∀ part ∈ parts, ∀ entry ∈ part.all, entry.Storable

variable {other : Part}

namespace Laid

variable {files : ℕ → Option FileState} {parts before after : List Part} {part : Part}

theorem nil (empty : ∀ first, files first = none) : Laid files [] :=
  ⟨by simp [empty], by simp, .nil, by simp, by simp, by simp⟩

section

variable (laid : Laid files (before ++ part :: after))

include laid

theorem first_ne (member : other ∈ before ++ after) : other.first ≠ part.first := by
  have rising := laid.rising
  rw [pairwise_append, pairwise_cons] at rising
  rcases mem_append.mp member with isBefore | isAfter
  · exact (rising.2.2 other isBefore part (mem_cons_self ..)).1.ne
  · exact (rising.2.1.1 other isAfter).1.ne'

theorem set {file : FileState} {firm all : List Entry} (yields : Yields file part.first firm all)
    (numbered : Numbered part.first all) (storable : ∀ entry ∈ all, entry.Storable)
    (fits : after = [] ∨ all.length ≤ part.all.length) :
    Laid (update files part.first (some file))
      (before ++ { first := part.first, firm, all } :: after) := by
  have others {other : Part}
      (member : other ∈ before ++ { first := part.first, firm, all } :: after) :
      other = { first := part.first, firm, all } ∨
        other.first ≠ part.first ∧ other ∈ before ++ part :: after := by
    rcases mem_append.mp member with isBefore | isAfter
    · exact Or.inr ⟨laid.first_ne (mem_append_left _ isBefore), by simp [isBefore]⟩
    · rcases mem_cons.mp isAfter with same | isAfter
      · exact Or.inl same
      · exact Or.inr ⟨laid.first_ne (mem_append_right _ isAfter), by simp [isAfter]⟩
  refine ⟨?_, ?_, ?_, ?_, ?_, ?_⟩
  · intro first
    by_cases same : first = part.first
    · subst same
      simp
    · rw [update_of_ne same, laid.exact]
      simp
  · intro other member
    rcases others member with rfl | ⟨distinct, member⟩
    · exact ⟨file, by simp, yields⟩
    · rw [update_of_ne distinct]
      exact laid.yields other member
  · have rising := laid.rising
    rw [pairwise_append, pairwise_cons] at rising ⊢
    refine ⟨rising.1, ⟨?_, rising.2.1.2⟩, ?_⟩
    · intro other member
      have below := rising.2.1.1 other member
      refine ⟨below.1, ?_⟩
      rcases fits with rfl | shorter
      · cases member
      · exact (Nat.add_le_add_left shorter _).trans below.2
    · intro other member next isNext
      rcases mem_cons.mp isNext with rfl | later
      · exact rising.2.2 other member part (mem_cons_self ..)
      · exact rising.2.2 other member next (mem_cons_of_mem _ later)
  · intro other member
    rcases others member with rfl | ⟨_, member⟩
    · exact laid.positive part (by simp)
    · exact laid.positive other member
  · intro other member
    rcases others member with rfl | ⟨_, member⟩
    · exact numbered
    · exact laid.numbered other member
  · intro other member
    rcases others member with rfl | ⟨_, member⟩
    · exact storable
    · exact laid.storable other member

theorem remove : Laid (update files part.first none) (before ++ after) := by
  have still {other : Part} (member : other ∈ before ++ after) :
      other ∈ before ++ part :: after := by
    simp only [mem_append, mem_cons] at member ⊢
    tauto
  refine ⟨?_, ?_, ?_, ?_, ?_, ?_⟩
  · intro first
    by_cases same : first = part.first
    · subst same
      simp only [update_self, Option.isSome_none, Bool.false_eq_true, false_iff]
      intro member
      rcases mem_map.mp member with ⟨other, member, sameFirst⟩
      exact laid.first_ne member sameFirst
    · rw [update_of_ne same, laid.exact]
      simp [same]
  · intro other member
    rw [update_of_ne (laid.first_ne member)]
    exact laid.yields other (still member)
  · exact laid.rising.sublist ((sublist_cons_self ..).append_left before)
  · exact fun other member => laid.positive other (still member)
  · exact fun other member => laid.numbered other (still member)
  · exact fun other member => laid.storable other (still member)

end

end Laid

/-- The segment may follow: nothing was found yet, or it starts with the index expected. -/
def Connects (expected : Option ℕ) (first : ℕ) : Prop := expected = none ∨ expected = some first

instance (expected : Option ℕ) (first : ℕ) : Decidable (Connects expected first) :=
  inferInstanceAs (Decidable (_ ∨ _))

/-- The index expected after these entries of a segment. -/
def expectNext (expected : Option ℕ) (first : ℕ) (entries : List Entry) : Option ℕ :=
  if entries = [] then expected else some (first + entries.length)

def secure : Option ℕ → List Part → List Entry
  | _, [] => []
  | expected, part :: rest =>
    if Connects expected part.first then
      part.firm ++
        if part.firm = part.all then secure (expectNext expected part.first part.all) rest else []
    else []

/-- Every segment connects to those before it. -/
def Chain : Option ℕ → List Part → Prop
  | _, [] => True
  | expected, part :: rest =>
    Connects expected part.first ∧ Chain (expectNext expected part.first part.all) rest

/-- The index expected after a number of segments. -/
def expectAfter : Option ℕ → List Part → Option ℕ
  | expected, [] => expected
  | expected, part :: rest => expectAfter (expectNext expected part.first part.all) rest

theorem secure_nil (expected : Option ℕ) : secure expected [] = [] := rfl

variable {entry : Entry} {expected : Option ℕ}

theorem secure_cons {part : Part} (connects : Connects expected part.first)
    (rest : List Part) : secure expected (part :: rest) = part.firm ++
      if part.firm = part.all then secure (expectNext expected part.first part.all) rest else [] :=
  if_pos connects

theorem mem_secure_none {parts : List Part}
    (member : entry ∈ secure expected parts) : entry ∈ secure none parts := by
  induction parts generalizing expected with
  | nil => cases member
  | cons part rest ih =>
    unfold secure at member
    split_ifs at member with connects whole
    · rw [secure_cons (Or.inl rfl), if_pos whole]
      rcases mem_append.mp member with isFirm | later
      · exact mem_append_left _ isFirm
      · apply mem_append_right
        by_cases empty : part.all = []
        · simp only [expectNext, if_pos empty] at later ⊢
          exact ih later
        · simpa only [expectNext, if_neg empty] using later
    · rw [secure_cons (Or.inl rfl), if_neg whole]
      exact member
    · cases member

theorem mem_secure_append {parts : List Part}
    (member : entry ∈ secure expected parts) (more : List Part) :
    entry ∈ secure expected (parts ++ more) := by
  induction parts generalizing expected with
  | nil => cases member
  | cons part rest ih =>
    unfold secure at member
    split_ifs at member with connects whole
    · rw [cons_append, secure_cons connects, if_pos whole]
      rcases mem_append.mp member with isFirm | later
      · exact mem_append_left _ isFirm
      · exact mem_append_right _ (ih later)
    · rw [cons_append, secure_cons connects, if_neg whole]
      exact member
    · cases member

theorem mem_of_mem_secure_append {parts more : List Part}
    (member : entry ∈ secure expected (parts ++ more)) :
    entry ∈ secure expected parts ∨ entry ∈ secure none more := by
  induction parts generalizing expected with
  | nil => exact Or.inr (mem_secure_none member)
  | cons part rest ih =>
    rw [cons_append] at member
    unfold secure at member
    split_ifs at member with connects whole
    · rw [secure_cons connects, if_pos whole]
      rcases mem_append.mp member with isFirm | later
      · exact Or.inl (mem_append_left _ isFirm)
      · rcases ih later with here | there
        · exact Or.inl (mem_append_right _ here)
        · exact Or.inr there
    · rw [secure_cons connects, if_neg whole]
      exact Or.inl member
    · cases member

theorem mem_secure_last {parts : List Part} {part : Part} (sameFirst : other.first = part.first)
    (firm : entry ∈ part.firm → entry ∈ other.firm)
    (member : entry ∈ secure expected (parts ++ [part])) :
    entry ∈ secure expected (parts ++ [other]) := by
  induction parts generalizing expected with
  | nil =>
    rw [nil_append] at member ⊢
    unfold secure at member
    split_ifs at member with connects
    · rw [secure_cons (sameFirst ▸ connects)]
      exact mem_append_left _ (firm (by simpa [secure] using member))
    · rw [secure_cons (sameFirst ▸ connects)]
      exact mem_append_left _ (firm (by simpa using member))
    · cases member
  | cons head rest ih =>
    rw [cons_append] at member ⊢
    unfold secure at member
    split_ifs at member with connects whole
    · rw [secure_cons connects, if_pos whole]
      rcases mem_append.mp member with isFirm | later
      · exact mem_append_left _ isFirm
      · exact mem_append_right _ (ih later)
    · rw [secure_cons connects, if_neg whole]
      exact member
    · cases member

theorem exists_of_mem_secure {parts : List Part}
    (member : entry ∈ secure expected parts) : ∃ part ∈ parts, entry ∈ part.firm := by
  induction parts generalizing expected with
  | nil => cases member
  | cons part rest ih =>
    unfold secure at member
    split_ifs at member
    · rcases mem_append.mp member with isFirm | later
      · exact ⟨part, mem_cons_self .., isFirm⟩
      · rcases ih later with ⟨other, isPart, isFirm⟩
        exact ⟨other, mem_cons_of_mem _ isPart, isFirm⟩
    · exact ⟨part, mem_cons_self .., by simpa using member⟩
    · cases member

/-- More is firm in the second. -/
def Part.Raises (part raised : Part) : Prop :=
  raised.first = part.first ∧ raised.all = part.all ∧ part.firm <+: raised.firm ∧
    raised.firm <+: raised.all

theorem Part.Raises.refl {part : Part} (isPrefix : part.firm <+: part.all) : part.Raises part :=
  ⟨rfl, rfl, prefix_rfl, isPrefix⟩

theorem mem_secure_raises {parts raised : List Part}
    (raises : List.Forall₂ Part.Raises parts raised)
    (member : entry ∈ secure expected parts) : entry ∈ secure expected raised := by
  induction raises generalizing expected with
  | nil => exact member
  | cons one _ ih =>
    rcases one with ⟨sameFirst, sameAll, grows, bounded⟩
    unfold secure at member
    split_ifs at member with connects whole
    · rw [secure_cons (sameFirst ▸ connects)]
      have wholeToo := bounded.eq_of_length_le (by
        rw [sameAll, ← whole]
        exact grows.length_le)
      rw [if_pos wholeToo, sameAll, sameFirst]
      rcases mem_append.mp member with isFirm | later
      · exact mem_append_left _ (grows.subset isFirm)
      · exact mem_append_right _ (ih later)
    · rw [secure_cons (sameFirst ▸ connects)]
      exact mem_append_left _ (grows.subset (by simpa using member))
    · cases member

theorem secure_append_of_whole {parts : List Part}
    (chain : Chain expected parts) (whole : ∀ part ∈ parts, part.firm = part.all)
    (more : List Part) :
    secure expected (parts ++ more) =
      parts.flatMap Part.all ++ secure (expectAfter expected parts) more := by
  induction parts generalizing expected with
  | nil => rfl
  | cons part rest ih =>
    have isWhole := whole part (mem_cons_self ..)
    rw [cons_append, secure_cons chain.1, if_pos isWhole,
      ih chain.2 fun other member => whole other (mem_cons_of_mem _ member), isWhole]
    simp [expectAfter]

theorem chain_append {parts more : List Part} :
    Chain expected (parts ++ more) ↔
      Chain expected parts ∧ Chain (expectAfter expected parts) more := by
  induction parts generalizing expected with
  | nil => simp [Chain, expectAfter]
  | cons part rest ih => simp [Chain, expectAfter, ih, and_assoc]

theorem Chain.set {before after : List Part} {part : Part}
    (chain : Chain expected (before ++ part :: after)) (sameFirst : other.first = part.first)
    (sameAll : after = [] ∨ other.all = part.all) : Chain expected (before ++ other :: after) := by
  rw [chain_append] at chain ⊢
  refine ⟨chain.1, sameFirst ▸ chain.2.1, ?_⟩
  rcases sameAll with rfl | sameAll
  · trivial
  · rw [sameFirst, sameAll]
    exact chain.2.2

theorem Chain.none {parts : List Part} (chain : Chain expected parts) :
    Chain none parts := by
  induction parts generalizing expected with
  | nil => trivial
  | cons part rest ih =>
    refine ⟨Or.inl rfl, ?_⟩
    by_cases empty : part.all = []
    · have later := chain.2
      simp only [expectNext, if_pos empty] at later ⊢
      exact ih later
    · simpa only [expectNext, if_neg empty] using chain.2

end ChronoScope.Chronolog
