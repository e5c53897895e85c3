import ChronoScope.Oracle.Soundness

/-!
# Key by key

The checker looks at the operations of one key at a time. Nothing is lost by that
and nothing is gained: a history is linearizable exactly if the sub-history of
every key is (`linearizable_iff_byKey`). One direction restricts an order to a
key; the other merges the orders of the keys, which real time permits because
every operation takes effect at some point between its invocation and its return.
-/

namespace ChronoScope.Oracle

theorem isSome_of_execute {order : List Event} {registers : Registers}
    (accepted : (order.foldlM Registers.step registers).isSome = true) (key : Key) :
    ((order.filter fun event => decide (event.op.key = key)).foldlM Model.step
      { value := registers key }).isSome = true := by
  induction order generalizing registers with
  | nil => rfl
  | cons event rest ih =>
    rw [List.foldlM_cons, Registers.step] at accepted
    cases stepped : Model.step { value := registers event.op.key } event with
    | none => simp [stepped] at accepted
    | some model =>
      have later := ih (by simpa [stepped] using accepted)
      by_cases isKey : event.op.key = key
      · subst isKey
        rw [List.filter_cons_of_pos (by simp), List.foldlM_cons, stepped]
        simpa using later
      · rw [List.filter_cons_of_neg (by simpa using isKey)]
        rwa [Function.update_of_ne (fun same => isKey same.symm)] at later

theorem Linearization.onKey {history : History} {order : List Event}
    (linearizes : Linearization history.events order) (key : Key) :
    KeyLinearization (history.keyEvents key)
      (order.filter fun event => decide (event.op.key = key)) := by
  rcases linearizes with ⟨⟨skipped, perm, unknown⟩, realTime, accepted⟩
  refine ⟨⟨skipped.filter fun event => decide (event.op.key = key), ?_, ?_⟩, realTime.filter _,
    isSome_of_execute accepted key⟩
  · rw [← List.filter_append]
    exact (perm.filter _).trans (history.onKey key).sorted_perm.symm
  · exact fun event member => unknown event (List.mem_of_mem_filter member)

variable {history : History}

theorem mem_byKey {key : Key} {sub : History} :
    (key, sub) ∈ history.byKey.toList ↔
      (history.onKey key).events ≠ [] ∧ sub = (history.onKey key).sorted := by
  rw [BTreeMap.mem_toList, History.get_byKey]
  split_ifs with empty
  · simp [empty]
  · simp [empty, eq_comm]

theorem byKey_keys_nodup (history : History) : history.byKey.keys.Nodup :=
  history.byKey.keys_sorted.imp fun below => below.ne

theorem key_mem_byKey {event : Event} (member : event ∈ history.events) :
    event.op.key ∈ history.byKey.keys := by
  have occurs : (history.onKey event.op.key).events ≠ [] :=
    List.ne_nil_of_mem (List.mem_filter.mpr ⟨member, by simp⟩)
  exact List.mem_map_of_mem (mem_byKey.mpr ⟨occurs, rfl⟩)

theorem perm_byKey (history : History) :
    (history.byKey.toList.flatMap fun binding => binding.2.events).Perm history.events := by
  have parts : (history.byKey.toList.flatMap fun binding => binding.2.events).Perm
      (history.byKey.toList.flatMap fun binding => (history.onKey binding.1).events) := by
    apply List.Perm.flatMap_left
    rintro ⟨key, sub⟩ member
    rw [(mem_byKey.mp member).2]
    exact (history.onKey key).sorted_perm
  have whole := perm_flatMap_filter (byKey_keys_nodup history) fun _ => key_mem_byKey
  rw [BTreeMap.keys, List.flatMap_map] at whole
  exact parts.trans whole

theorem linearizable_iff_of_key {key : Key} (own : ∀ event ∈ history.events, event.op.key = key)
    (proper : ∀ event ∈ history.events, event.invoked ≤ event.returned) :
    history.Linearizable ↔ ∃ order, KeyLinearization history.events order := by
  have all : history.onKey key = history := by
    rw [History.onKey, List.filter_eq_self.mpr fun event member => by simpa using own event member]
  constructor
  · rintro ⟨order, linearizes⟩
    have restricted := linearizes.onKey key
    rw [History.keyEvents, all] at restricted
    exact ⟨_, restricted.covers.perm history.sorted_perm, restricted.realTime, restricted.accepted⟩
  · intro each
    apply linearizable_of_keys proper (List.nodup_singleton key)
    · intro event member
      simpa using own event member
    · intro other isKey
      rw [List.mem_singleton.mp isKey, all]
      exact each

/-- A history is linearizable exactly if the sub-history of every key is, and the sub-histories
together have every event once. -/
theorem linearizable_iff_byKey (history : History)
    (proper : ∀ event ∈ history.events, event.invoked ≤ event.returned) :
    (history.Linearizable ↔ ∀ binding ∈ history.byKey.toList, binding.2.Linearizable) ∧
      (history.byKey.toList.flatMap fun binding => binding.2.events).Perm history.events := by
  refine ⟨?_, perm_byKey history⟩
  have perKey (key : Key) : (history.onKey key).sorted.Linearizable ↔
      ∃ order, KeyLinearization (history.keyEvents key) order :=
    linearizable_iff_of_key (fun event member => (mem_keyEvents.mp member).2)
      fun event member => proper event (mem_keyEvents.mp member).1
  constructor
  · rintro ⟨order, linearizes⟩ ⟨key, sub⟩ member
    rw [(mem_byKey.mp member).2]
    exact (perKey key).mpr ⟨_, linearizes.onKey key⟩
  · intro each
    apply linearizable_of_keys proper (byKey_keys_nodup history) fun _ => key_mem_byKey
    intro key inKeys
    rcases List.mem_map.mp inKeys with ⟨⟨_, sub⟩, member, rfl⟩
    have linearizable := each _ member
    rw [(mem_byKey.mp member).2] at linearizable
    rcases (perKey _).mp linearizable with ⟨order, linearizes⟩
    exact ⟨order, linearizes.covers.perm (History.sorted_perm _), linearizes.realTime,
      linearizes.accepted⟩

def twoKeys : History :=
  { events := [⟨1, .write [97] [1], .ok, 0, 3⟩, ⟨2, .write [98] [2], .ok, 1, 2⟩,
      ⟨1, .read [98], .value (some [2]), 4, 5⟩] }

theorem twoKeys_linearizable_iff :
    (twoKeys.Linearizable ↔ ∀ binding ∈ twoKeys.byKey.toList, binding.2.Linearizable) ∧
      (twoKeys.byKey.toList.flatMap fun binding => binding.2.events).Perm twoKeys.events :=
  linearizable_iff_byKey twoKeys (by decide)

end ChronoScope.Oracle
