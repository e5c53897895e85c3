import Mathlib.Algebra.GroupWithZero.Nat
import Mathlib.Data.Finset.Card
import Mathlib.Data.List.Lex
import Mathlib.Data.List.Sort

/-!
# Ordered collections

Sets and maps kept as strictly sorted lists. Iteration is in key order and two
collections with the same members are equal, so they can stand for the ordered
collections of the source in definitions that iterate, compare and evaluate.
-/

namespace ChronoScope

open List

universe u v

/-- Byte strings are keys in lexicographic order. -/
instance instLinearOrderByte : LinearOrder UInt8 where
  le_refl := UInt8.le_refl
  le_trans _ _ _ := UInt8.le_trans
  le_antisymm _ _ := UInt8.le_antisymm
  le_total := UInt8.le_total
  lt_iff_le_not_ge _ _ := by
    rw [UInt8.not_le]
    exact ⟨fun less => ⟨UInt8.le_of_lt less, less⟩, And.right⟩
  toDecidableLE := inferInstance

/-- A finite set stored as its strictly increasing list of members. -/
structure BTreeSet (κ : Type u) [LinearOrder κ] where
  toList : List κ
  sorted : toList.Pairwise (· < ·)

namespace BTreeSet

variable {κ : Type u} [LinearOrder κ]

instance : DecidableEq (BTreeSet κ) := fun left right =>
  decidable_of_iff (left.toList = right.toList) (by
    cases left; cases right; simp)

instance : Membership κ (BTreeSet κ) := ⟨fun set key => key ∈ set.toList⟩

instance (key : κ) (set : BTreeSet κ) : Decidable (key ∈ set) :=
  inferInstanceAs (Decidable (key ∈ set.toList))

instance : EmptyCollection (BTreeSet κ) := ⟨⟨[], .nil⟩⟩

instance : Inhabited (BTreeSet κ) := ⟨∅⟩

variable {set : BTreeSet κ} {members : List κ}

theorem mem_def {key : κ} : key ∈ set ↔ key ∈ set.toList := Iff.rfl

@[simp]
theorem toList_empty : (∅ : BTreeSet κ).toList = [] := rfl

@[simp]
theorem not_mem_empty (key : κ) : key ∉ (∅ : BTreeSet κ) := by
  simp [mem_def]

theorem nodup (set : BTreeSet κ) : set.toList.Nodup :=
  set.sorted.imp ne_of_lt

def isEmpty (set : BTreeSet κ) : Bool := set.toList.isEmpty

@[simp]
theorem isEmpty_iff : set.isEmpty = true ↔ set = ∅ := by
  cases set with
  | mk members sorted =>
    cases members with
    | nil => exact ⟨fun _ => rfl, fun _ => rfl⟩
    | cons head tail =>
      constructor
      · intro impossible
        simp [isEmpty] at impossible
      · intro equal
        exact absurd (congrArg toList equal) (by simp)

def len (set : BTreeSet κ) : ℕ := set.toList.length

/-- Sorted insertion into a list; an element already present is left alone. -/
def insertList (key : κ) : List κ → List κ
  | [] => [key]
  | head :: tail =>
    if key < head then key :: head :: tail
    else if key = head then head :: tail
    else head :: insertList key tail

theorem mem_insertList {key other : κ} :
    other ∈ insertList key members ↔ other = key ∨ other ∈ members := by
  induction members with
  | nil => simp [insertList]
  | cons head tail ih =>
    simp only [insertList]
    split_ifs with below equal
    · simp
    · subst equal
      simp
    · simp only [mem_cons, ih]
      tauto

theorem insertList_sorted (key : κ)
    (sorted : members.Pairwise (· < ·)) : (insertList key members).Pairwise (· < ·) := by
  induction members with
  | nil => simp [insertList]
  | cons head tail ih =>
    rcases pairwise_cons.mp sorted with ⟨headBelow, tailSorted⟩
    simp only [insertList]
    split_ifs with below equal
    · refine pairwise_cons.mpr ⟨?_, sorted⟩
      intro other otherMem
      rcases mem_cons.mp otherMem with rfl | otherTail
      · exact below
      · exact below.trans (headBelow other otherTail)
    · exact sorted
    · refine pairwise_cons.mpr ⟨?_, ih tailSorted⟩
      intro other otherMem
      rcases mem_insertList.mp otherMem with rfl | otherTail
      · exact lt_of_le_of_ne (not_lt.mp below) (Ne.symm equal)
      · exact headBelow other otherTail

def insert (set : BTreeSet κ) (key : κ) : BTreeSet κ :=
  ⟨insertList key set.toList, insertList_sorted key set.sorted⟩

@[simp]
theorem mem_insert {key other : κ} :
    other ∈ set.insert key ↔ other = key ∨ other ∈ set :=
  mem_insertList

def ofList : List κ → BTreeSet κ
  | [] => ∅
  | head :: tail => (ofList tail).insert head

@[simp]
theorem mem_ofList {key : κ} : key ∈ ofList members ↔ key ∈ members := by
  induction members with
  | nil => simp [ofList]
  | cons head tail ih => simp [ofList, ih]

theorem length_insertList_le (key : κ) (members : List κ) :
    (insertList key members).length ≤ members.length + 1 := by
  induction members with
  | nil => simp [insertList]
  | cons head tail ih =>
    simp only [insertList]
    split_ifs
    · simp
    · simp
    · simpa using ih

theorem length_ofList_le (members : List κ) : (ofList members).toList.length ≤ members.length := by
  induction members with
  | nil => simp [ofList]
  | cons head tail ih =>
    have longer := length_insertList_le head (ofList tail).toList
    rw [length_cons]
    exact longer.trans (Nat.succ_le_succ ih)

theorem ext {left right : BTreeSet κ} (same : ∀ key, key ∈ left ↔ key ∈ right) :
    left = right := by
  have equal : left.toList = right.toList :=
    List.Perm.eq_of_pairwise (fun _ _ _ _ lt gt => absurd lt (lt_asymm gt))
      left.sorted right.sorted
      ((perm_ext_iff_of_nodup left.nodup right.nodup).mpr same)
  cases left
  cases right
  simpa using equal

def filter (set : BTreeSet κ) (keep : κ → Bool) : BTreeSet κ :=
  ⟨set.toList.filter keep, set.sorted.filter _⟩

@[simp]
theorem mem_filter {keep : κ → Bool} {key : κ} :
    key ∈ set.filter keep ↔ key ∈ set ∧ keep key = true := by
  simp [mem_def, filter]

@[simp]
theorem filter_filter (set : BTreeSet κ) (keep : κ → Bool) :
    (set.filter keep).filter keep = set.filter keep := by
  simp [filter]

theorem length_filter_eq_card (set : BTreeSet κ) (test : κ → Bool) :
    (set.toList.filter test).length = (set.toList.toFinset.filter (test · = true)).card := by
  rw [← toFinset_filter, toFinset_card_of_nodup (set.nodup.filter _)]

theorem len_eq_card (set : BTreeSet κ) : set.len = set.toList.toFinset.card :=
  (toFinset_card_of_nodup set.nodup).symm

end BTreeSet

/-- A finite map stored as its list of bindings with strictly increasing keys. -/
structure BTreeMap (κ : Type u) (ν : Type v) [LinearOrder κ] where
  toList : List (κ × ν)
  sorted : toList.Pairwise (fun left right => left.1 < right.1)

namespace BTreeMap

variable {κ : Type u} {ν : Type v} [LinearOrder κ]

instance [DecidableEq ν] : DecidableEq (BTreeMap κ ν) := fun left right =>
  decidable_of_iff (left.toList = right.toList) (by
    cases left; cases right; simp)

instance : EmptyCollection (BTreeMap κ ν) := ⟨⟨[], .nil⟩⟩

instance : Inhabited (BTreeMap κ ν) := ⟨∅⟩

@[simp]
theorem toList_empty : (∅ : BTreeMap κ ν).toList = [] := rfl

/-- First binding of a key in a list of bindings. -/
def lookup (key : κ) : List (κ × ν) → Option ν
  | [] => none
  | (head, value) :: tail => if key = head then some value else lookup key tail

def get (map : BTreeMap κ ν) (key : κ) : Option ν := lookup key map.toList

@[simp]
theorem get_empty (key : κ) : (∅ : BTreeMap κ ν).get key = none := rfl

variable {map : BTreeMap κ ν} {bindings : List (κ × ν)} {binding : κ × ν}

theorem lookup_eq_some_iff
    (sorted : bindings.Pairwise (fun left right => left.1 < right.1)) {key : κ} {value : ν} :
    lookup key bindings = some value ↔ (key, value) ∈ bindings := by
  induction bindings with
  | nil => simp [lookup]
  | cons head tail ih =>
    rcases head with ⟨headKey, headValue⟩
    rcases pairwise_cons.mp sorted with ⟨headBelow, tailSorted⟩
    simp only [lookup]
    split_ifs with equal
    · subst equal
      constructor
      · rintro ⟨⟩
        simp
      · intro present
        rcases mem_cons.mp present with same | inTail
        · cases same
          rfl
        · exact absurd (headBelow _ inTail) (lt_irrefl _)
    · rw [ih tailSorted]
      simp [equal]

theorem mem_toList {key : κ} {value : ν} :
    (key, value) ∈ map.toList ↔ map.get key = some value :=
  (lookup_eq_some_iff map.sorted).symm

def insertList (key : κ) (value : ν) : List (κ × ν) → List (κ × ν)
  | [] => [(key, value)]
  | head :: tail =>
    if key < head.1 then (key, value) :: head :: tail
    else if key = head.1 then (key, value) :: tail
    else head :: insertList key value tail

theorem lookup_insertList {key other : κ} {value : ν} :
    lookup other (insertList key value bindings) =
      if other = key then some value else lookup other bindings := by
  induction bindings with
  | nil => simp [insertList, lookup]
  | cons head tail ih =>
    rcases head with ⟨headKey, headValue⟩
    by_cases below : key < headKey
    · simp [insertList, lookup, below]
    · by_cases same : key = headKey
      · subst same
        by_cases equal : other = key <;> simp [insertList, lookup, equal]
      · by_cases equal : other = key
        · subst equal
          simp [insertList, lookup, below, same, ih]
        · simp [insertList, lookup, below, same, ih, equal]

theorem key_mem_insertList {key : κ} {value : ν}
    (present : binding ∈ insertList key value bindings) :
    binding.1 = key ∨ binding ∈ bindings := by
  induction bindings with
  | nil =>
    simp only [insertList, mem_singleton] at present
    exact Or.inl (by rw [present])
  | cons head tail ih =>
    simp only [insertList] at present
    split_ifs at present with below equal
    · rcases mem_cons.mp present with rfl | old
      · exact Or.inl rfl
      · exact Or.inr old
    · rcases mem_cons.mp present with rfl | old
      · exact Or.inl rfl
      · exact Or.inr (mem_cons_of_mem _ old)
    · rcases mem_cons.mp present with rfl | rest
      · exact Or.inr (mem_cons_self ..)
      · rcases ih rest with same | old
        · exact Or.inl same
        · exact Or.inr (mem_cons_of_mem _ old)

theorem insertList_sorted (key : κ) (value : ν)
    (sorted : bindings.Pairwise (fun left right => left.1 < right.1)) :
    (insertList key value bindings).Pairwise (fun left right => left.1 < right.1) := by
  induction bindings with
  | nil => simp [insertList]
  | cons head tail ih =>
    rcases pairwise_cons.mp sorted with ⟨headBelow, tailSorted⟩
    simp only [insertList]
    split_ifs with below equal
    · refine pairwise_cons.mpr ⟨?_, sorted⟩
      intro other otherMem
      rcases mem_cons.mp otherMem with rfl | otherTail
      · exact below
      · exact below.trans (headBelow other otherTail)
    · refine pairwise_cons.mpr ⟨?_, tailSorted⟩
      intro other otherMem
      rw [equal]
      exact headBelow other otherMem
    · refine pairwise_cons.mpr ⟨?_, ih tailSorted⟩
      intro other otherMem
      rcases key_mem_insertList otherMem with same | otherTail
      · rw [same]
        exact lt_of_le_of_ne (not_lt.mp below) (Ne.symm equal)
      · exact headBelow other otherTail

def insert (map : BTreeMap κ ν) (key : κ) (value : ν) : BTreeMap κ ν :=
  ⟨insertList key value map.toList, insertList_sorted key value map.sorted⟩

@[simp]
theorem get_insert {key other : κ} {value : ν} :
    (map.insert key value).get other = if other = key then some value else map.get other :=
  lookup_insertList

theorem mem_insert {key : κ} {value : ν}
    (present : binding ∈ (map.insert key value).toList) :
    binding = (key, value) ∨ binding ∈ map.toList := by
  rcases binding with ⟨other, found⟩
  rw [mem_toList, get_insert] at present
  split_ifs at present with same
  · cases present
    exact Or.inl (by rw [same])
  · exact Or.inr (mem_toList.mpr present)

def collect (bindings : List (κ × ν)) : BTreeMap κ ν :=
  bindings.foldl (fun map binding => map.insert binding.1 binding.2) ∅

theorem mem_collect
    (present : binding ∈ (collect bindings).toList) : binding ∈ bindings := by
  have inserted (rest : List (κ × ν)) (sofar : BTreeMap κ ν)
      (present : binding ∈
        (rest.foldl (fun map binding => map.insert binding.1 binding.2) sofar).toList) :
      binding ∈ sofar.toList ∨ binding ∈ rest := by
    induction rest generalizing sofar with
    | nil => exact Or.inl present
    | cons head rest ih =>
      rcases ih _ present with early | late
      · rcases mem_insert early with rfl | old
        · exact Or.inr (mem_cons_self ..)
        · exact Or.inl old
      · exact Or.inr (mem_cons_of_mem _ late)
  exact (inserted bindings ∅ present).resolve_left (by simp)

theorem insertList_of_greater {key : κ} {value : ν}
    (greater : ∀ binding ∈ bindings, binding.1 < key) :
    insertList key value bindings = bindings ++ [(key, value)] := by
  induction bindings with
  | nil => rfl
  | cons head tail ih =>
    have less := greater head (mem_cons_self ..)
    rw [insertList, if_neg less.asymm, if_neg less.ne',
      ih fun binding member => greater binding (mem_cons_of_mem _ member), cons_append]

theorem collect_toList (map : BTreeMap κ ν) : collect map.toList = map := by
  have inserted (rest : List (κ × ν)) (sofar : BTreeMap κ ν)
      (sorted : (sofar.toList ++ rest).Pairwise (fun left right => left.1 < right.1)) :
      (rest.foldl (fun map binding => map.insert binding.1 binding.2) sofar).toList =
        sofar.toList ++ rest := by
    induction rest generalizing sofar with
    | nil => simp
    | cons binding rest ih =>
      have below : ∀ other ∈ sofar.toList, other.1 < binding.1 := fun other member =>
        (pairwise_append.mp sorted).2.2 other member binding (mem_cons_self ..)
      have next : (sofar.insert binding.1 binding.2).toList = sofar.toList ++ [binding] :=
        insertList_of_greater below
      rw [foldl_cons, ih _ (by rw [next]; simpa using sorted), next]
      simp
  have same := inserted map.toList ∅ (by simpa using map.sorted)
  rw [toList_empty, nil_append] at same
  cases map
  rw [collect]
  generalize List.foldl _ _ _ = collected at same
  cases collected
  cases same
  rfl

def keys (map : BTreeMap κ ν) : List κ := map.toList.map Prod.fst

theorem keys_sorted (map : BTreeMap κ ν) : map.keys.Pairwise (· < ·) :=
  pairwise_map.mpr map.sorted

theorem mem_keys {key : κ} : key ∈ map.keys ↔ (map.get key).isSome = true := by
  rw [Option.isSome_iff_exists]
  simp only [← mem_toList, keys, mem_map, Prod.exists]
  exact ⟨fun ⟨_, value, member, same⟩ => ⟨value, same ▸ member⟩,
    fun ⟨value, member⟩ => ⟨key, value, member, rfl⟩⟩

def retain (map : BTreeMap κ ν) (keep : κ → ν → Bool) : BTreeMap κ ν :=
  ⟨map.toList.filter (fun binding => keep binding.1 binding.2), map.sorted.filter _⟩

theorem get_retain_eq_some {keep : κ → ν → Bool} {key : κ} {value : ν} :
    (map.retain keep).get key = some value ↔ map.get key = some value ∧ keep key value = true := by
  rw [← mem_toList, ← mem_toList]
  simp [retain]

def remove (map : BTreeMap κ ν) (key : κ) : BTreeMap κ ν :=
  map.retain fun other _ => decide (other ≠ key)

@[simp]
theorem get_remove {key other : κ} :
    (map.remove key).get other = if other = key then none else map.get other := by
  apply Option.ext
  intro value
  rw [remove, get_retain_eq_some]
  split_ifs with same <;> simp [same]

/-- Rewrite every value in place. -/
def mapValues (map : BTreeMap κ ν) (change : κ → ν → ν) : BTreeMap κ ν :=
  ⟨map.toList.map (fun binding => (binding.1, change binding.1 binding.2)),
    pairwise_map.mpr map.sorted⟩

theorem lookup_mapValues {change : κ → ν → ν} {key : κ} :
    lookup key (bindings.map (fun binding => (binding.1, change binding.1 binding.2))) =
      (lookup key bindings).map (change key) := by
  induction bindings with
  | nil => rfl
  | cons head tail ih =>
    simp only [map_cons, lookup]
    split_ifs with equal
    · simp [equal]
    · exact ih

@[simp]
theorem get_mapValues {change : κ → ν → ν} {key : κ} :
    (map.mapValues change).get key = (map.get key).map (change key) :=
  lookup_mapValues

/-- Change the value of one key, if it is bound. -/
def modify (map : BTreeMap κ ν) (key : κ) (change : ν → ν) : BTreeMap κ ν :=
  map.mapValues (fun other value => if other = key then change value else value)

theorem get_modify {key other : κ} {change : ν → ν} :
    (map.modify key change).get other =
      if other = key then (map.get other).map change else map.get other := by
  simp only [modify, get_mapValues]
  split_ifs with equal
  · simp [equal]
  · cases map.get other <;> simp

/-- The sum of a weight over all values. -/
def total (map : BTreeMap κ ν) (weight : ν → ℕ) : ℕ :=
  (map.toList.map fun binding => weight binding.2).sum

theorem toList_nodup (map : BTreeMap κ ν) : map.toList.Nodup :=
  map.sorted.imp fun below same => below.ne (congrArg Prod.fst same)

theorem total_of_get {other : BTreeMap κ ν} (key : κ) (value : ν)
    (fresh : other.get key = none)
    (same : ∀ found, map.get found = if found = key then some value else other.get found)
    (weight : ν → ℕ) : map.total weight = weight value + other.total weight := by
  have isNew : (key, value) ∉ other.toList := by simp [mem_toList, fresh]
  have perm : map.toList.Perm ((key, value) :: other.toList) := by
    refine (perm_ext_iff_of_nodup map.toList_nodup
      (nodup_cons.mpr ⟨isNew, other.toList_nodup⟩)).mpr ?_
    rintro ⟨found, stored⟩
    rw [mem_cons, mem_toList, mem_toList, same]
    split_ifs with isKey
    · simp [isKey, fresh, eq_comm]
    · simp [isKey]
  rw [total, (perm.map _).sum_nat, map_cons, sum_cons]
  rfl

theorem total_insert (map : BTreeMap κ ν) (weight : ν → ℕ) (key : κ) (value : ν) :
    (map.insert key value).total weight = weight value + (map.remove key).total weight := by
  refine total_of_get key value (by simp) ?_ weight
  intro found
  rw [get_insert, get_remove]
  split_ifs <;> rfl

theorem total_remove {key : κ} {value : ν} (found : map.get key = some value) (weight : ν → ℕ) :
    map.total weight = weight value + (map.remove key).total weight := by
  refine total_of_get key value (by simp) ?_ weight
  intro other
  rw [get_remove]
  split_ifs with isKey
  · rw [isKey, found]
  · rfl

theorem remove_of_none {key : κ} (missing : map.get key = none) : map.remove key = map := by
  have all : map.toList.filter (fun binding => decide (binding.1 ≠ key)) = map.toList := by
    refine filter_eq_self.mpr ?_
    rintro ⟨other, value⟩ present
    have bound := mem_toList.mp present
    simp only [ne_eq, decide_eq_true_eq]
    rintro rfl
    cases missing.symm.trans bound
  rcases map with ⟨bindings, sorted⟩
  simp only [remove, retain, mk.injEq]
  exact all

end BTreeMap

end ChronoScope
