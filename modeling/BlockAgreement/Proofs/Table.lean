import BlockAgreement.Engine.RoundChanges
import BlockAgreement.Engine.Backlog

/-! What the entries of a table are after an insertion or a filter, and with that which votes are
gathered for a round and which are held for it. -/

namespace BlockAgreement

namespace Table

variable {κ α : Type} [Ranked κ] {t : Table κ α} {k : κ} {a : α} {x : κ × α}

theorem mem_of_mem_insert (h : x ∈ (t.insert k a).entries) : x = (k, a) ∨ x ∈ t.entries :=
  mem_insertEntry h

theorem length_le_insertEntry (k : κ) (a : α) (es : List (κ × α)) :
    es.length ≤ (insertEntry k a es).length := by
  induction es with
  | nil => simp
  | cons e es ih =>
    rw [insertEntry]
    split
    · simp
    · split <;> simp [ih]

theorem size_le_insert (t : Table κ α) (k : κ) (a : α) : t.size ≤ (t.insert k a).size :=
  length_le_insertEntry k a t.entries

theorem length_insertEntry_le (k : κ) (a : α) (es : List (κ × α)) :
    (insertEntry k a es).length ≤ es.length + 1 := by
  induction es with
  | nil => exact Nat.le_refl 1
  | cons e es ih =>
    rw [insertEntry]
    split
    · simp
    · split
      · simpa using ih
      · simp

theorem size_insert_le (t : Table κ α) (k : κ) (a : α) : (t.insert k a).size ≤ t.size + 1 :=
  length_insertEntry_le k a t.entries

theorem size_filter_le (t : Table κ α) (keep : κ → α → Bool) : (t.filter keep).size ≤ t.size :=
  List.length_filter_le ..

theorem size_pos_of_contains (h : t.contains k = true) : 0 < t.size := by
  obtain ⟨a, ha⟩ := Option.isSome_iff_exists.1 h
  exact List.length_pos_of_mem (find?_eq_some_iff.1 ha)

theorem nodup_keys (t : Table κ α) : t.keys.Nodup := by
  refine (List.pairwise_map.2 ?_ : (t.entries.map (·.1)).Pairwise (· ≠ ·))
  apply t.sorted.imp
  intro a b hab he
  rw [he] at hab
  exact Nat.lt_irrefl _ hab

@[simp] theorem length_keys (t : Table κ α) : t.keys.length = t.size := by simp [keys, size]

theorem mem_filter {keep : κ → α → Bool} :
    x ∈ (t.filter keep).entries ↔ x ∈ t.entries ∧ keep x.1 x.2 = true := by
  simp [filter]

theorem find?_filter (t : Table κ α) (keep : κ → α → Bool) (k : κ) :
    (t.filter keep).find? k = (t.find? k).filter (keep k) := by
  ext a
  rw [find?_eq_some_iff, mem_filter, Option.filter_eq_some_iff, find?_eq_some_iff]

end Table

namespace RoundChanges

variable (p : RoundChanges) (round k : UInt32)

theorem gathering_store (g : Gathering) :
    (p.store round g).gathering k = if k = round then g else p.gathering k := by
  simp only [gathering, store, Table.find?_insert]
  split <;> simp

@[simp] theorem gathering_announce (a : Address) :
    (p.announce a round).gathering k = p.gathering k := rfl

theorem gathering_discardBefore :
    (p.discardBefore round).gathering k = if round ≤ k then p.gathering k else ⟨[], false⟩ := by
  simp only [gathering, discardBefore, Table.find?_filter]
  cases p.gatherings.find? k <;> by_cases h : round ≤ k <;> simp [Option.filter, h]

end RoundChanges

namespace Backlog

variable {κ : Type} [Ranked κ] {b : Backlog κ} {limit : Nat} {k k' : κ} {m x : Message}

theorem queue_of_mem {q : List Message} (h : (k, q) ∈ b.queues.entries) : b.queue k = q := by
  rw [queue, Table.find?_eq_some_iff.2 h]
  rfl

theorem mem_keys_of_queue (h : b.queue k ≠ []) : k ∈ b.queues.keys := by
  cases hq : b.queues.find? k with
  | none => simp [queue, hq] at h
  | some q => exact List.mem_map_of_mem (Table.find?_eq_some_iff.1 hq)

theorem push_of_full (h : limit ≤ b.held) (k : κ) (m : Message) : b.push limit k m = b := if_pos h

theorem push_of_room (h : b.held < limit) (k : κ) (m : Message) :
    b.push limit k m = ⟨b.queues.insert k (b.queue k ++ [m]), b.held + 1⟩ :=
  if_neg (Nat.not_le.2 h)

theorem queue_push [DecidableEq κ] (h : b.held < limit) (k k' : κ) :
    (b.push limit k m).queue k' = if k' = k then b.queue k ++ [m] else b.queue k' := by
  rw [push_of_room h, queue, Table.find?_insert]
  split <;> rfl

theorem mem_queue_push [DecidableEq κ] (h : x ∈ (b.push limit k m).queue k') :
    x ∈ b.queue k' ∨ k' = k ∧ x = m := by
  rcases Nat.lt_or_ge b.held limit with hroom | hfull
  · rw [queue_push hroom] at h
    split at h
    · next hk =>
      subst hk
      simpa using h
    · exact .inl h
  · rw [push_of_full hfull] at h
    exact .inl h

theorem queue_discardThrough (k k' : κ) :
    (b.discardThrough k).queue k' = if rank k < rank k' then b.queue k' else [] := by
  rw [queue, discardThrough, Table.find?_filter, queue]
  by_cases hk : rank k < rank k' <;> cases b.queues.find? k' <;> simp [Option.filter, hk]

theorem mem_queue_discardThrough (h : x ∈ (b.discardThrough k).queue k') : x ∈ b.queue k' := by
  rw [queue_discardThrough] at h
  split at h
  · exact h
  · cases h

end Backlog

end BlockAgreement
