import BlockAgreement.Proofs.Table
import Mathlib.Data.List.Perm.Basic

/-! What a backlog holds, as one list of messages in the order in which they came. Its queues,
sorted by key, and the number that is kept beside them are read off this list; one more message goes
to the end of it, and where a key is passed all that was up to it is taken out. -/

namespace BlockAgreement

/-- A list split up by some keys, and what is not for one of these left out. -/
theorem flatMap_filter_perm {κ α : Type} [DecidableEq κ] (key : α → κ) (ms : List α) {ks : List κ}
    (hks : ks.Nodup) :
    (ks.flatMap fun k => ms.filter (key · = k)).Perm (ms.filter (key · ∈ ks)) := by
  induction ks with
  | nil => simp
  | cons k ks ih =>
    obtain ⟨hk, hks⟩ := List.nodup_cons.1 hks
    have hfirst : (ms.filter (key · ∈ k :: ks)).filter (key · = k) = ms.filter (key · = k) := by
      rw [List.filter_filter]
      refine List.filter_congr fun m _ => ?_
      by_cases hm : key m = k <;> simp [hm]
    have hrest : (ms.filter (key · ∈ k :: ks)).filter (fun m => !decide (key m = k)) =
        ms.filter (key · ∈ ks) := by
      rw [List.filter_filter]
      refine List.filter_congr fun m _ => ?_
      by_cases hm : key m = k <;> simp [hm, hk]
    have hsplit := List.filter_append_perm (key · = k) (ms.filter (key · ∈ k :: ks))
    rw [hfirst, hrest] at hsplit
    exact ((ih hks).append_left _).trans hsplit

theorem filter_filter_of_imp {α : Type} {p q : α → Prop} [DecidablePred p] [DecidablePred q]
    (h : ∀ x, q x → p x) (xs : List α) : (xs.filter (p ·)).filter (q ·) = xs.filter (q ·) := by
  rw [List.filter_filter]
  refine List.filter_congr fun x _ => ?_
  by_cases hq : q x <;> simp [hq, h x]

/-- The order of the keys is that of their ranks. -/
class RankOrdered (κ : Type) [Ranked κ] [LT κ] : Prop where
  lt_iff_rank_lt (a b : κ) : a < b ↔ rank a < rank b

instance : RankOrdered UInt32 := ⟨fun _ _ => UInt32.lt_iff_toNat_lt⟩

instance : RankOrdered UInt64 := ⟨fun _ _ => UInt64.lt_iff_toNat_lt⟩

namespace Backlog

variable {κ : Type} [Ranked κ] [DecidableEq κ]

/-- The backlog holds these messages and no others, for each key in this order. -/
structure Stores (key : Message → κ) (limit : Nat) (ms : List Message) (b : Backlog κ) :
    Prop where
  held : b.held = ms.length
  count : b.queues.values.flatten.Perm ms
  room : ms.length ≤ limit
  queue : ∀ k, b.queue k = ms.filter (key · = k)
  keys : ∀ k ∈ b.queues.keys, ∃ m ∈ ms, key m = k

variable {key : Message → κ} {limit : Nat} {ms : List Message} {m : Message} {b : Backlog κ} {k : κ}

/-- Each message waits in one queue only, the one for its key. -/
theorem perm_of_queue (hqueue : ∀ k, b.queue k = ms.filter (key · = k)) :
    b.queues.values.flatten.Perm ms := by
  have hvalues : b.queues.values.flatten =
      b.queues.keys.flatMap fun k => ms.filter (key · = k) := by
    rw [List.flatMap_def, Table.values, Table.keys, List.map_map]
    exact congrArg List.flatten <| List.map_congr_left fun x hx =>
      (queue_of_mem hx).symm.trans (hqueue x.1)
  have hall : ms.filter (key · ∈ b.queues.keys) = ms := by
    refine List.filter_eq_self.2 fun m hm => decide_eq_true (mem_keys_of_queue ?_)
    rw [hqueue]
    exact List.ne_nil_of_mem (List.mem_filter.2 ⟨hm, decide_eq_true rfl⟩)
  have hperm := flatMap_filter_perm key ms b.queues.nodup_keys
  rwa [← hvalues, hall] at hperm

/-- The next message comes last. -/
theorem Stores.push (h : b.Stores key limit ms) (hroom : b.held < limit) :
    (b.push limit (key m) m).Stores key limit (ms ++ [m]) := by
  have hqueue : ∀ k, (b.push limit (key m) m).queue k = (ms ++ [m]).filter (key · = k) := by
    intro k
    rw [queue_push hroom, List.filter_append]
    split
    · next hk => rw [h.queue, hk]; simp
    · next hk => rw [h.queue]; simp [eq_comm, hk]
  refine ⟨?_, perm_of_queue hqueue, ?_, hqueue, fun k hk => ?_⟩
  · rw [push_of_room hroom, List.length_append, ← h.held]
    rfl
  · rw [List.length_append, ← h.held]
    exact hroom
  · rw [push_of_room hroom] at hk
    obtain ⟨x, hx, rfl⟩ := List.mem_map.1 hk
    rcases Table.mem_of_mem_insert hx with rfl | hx
    · exact ⟨m, by simp, rfl⟩
    · obtain ⟨m', hm', hkey⟩ := h.keys x.1 (List.mem_map_of_mem hx)
      exact ⟨m', List.mem_append_left _ hm', hkey⟩

/-- What is for later keys stays, in its order. -/
theorem Stores.discardThrough [LT κ] [DecidableLT κ] [RankOrdered κ] (h : b.Stores key limit ms)
    (k : κ) : (b.discardThrough k).Stores key limit (ms.filter (k < key ·)) := by
  simp only [RankOrdered.lt_iff_rank_lt]
  have hqueue : ∀ k', (b.discardThrough k).queue k' =
      (ms.filter fun m => rank k < rank (key m)).filter (key · = k') := by
    intro k'
    rw [queue_discardThrough, h.queue, List.filter_filter]
    split
    · next hk => exact List.filter_congr fun m _ => by by_cases hm : key m = k' <;> simp [hm, hk]
    · next hk =>
      refine (List.filter_eq_nil_iff.2 fun m _ => ?_).symm
      by_cases hm : key m = k' <;> simp [hm, hk]
  have hperm := perm_of_queue hqueue
  have hroom := Nat.le_trans (List.length_filter_le (fun m => rank k < rank (key m)) ms) h.room
  refine ⟨hperm.length_eq, hperm, hroom, hqueue, fun k' hk => ?_⟩
  obtain ⟨x, hx, rfl⟩ := List.mem_map.1 hk
  obtain ⟨hx, hlater⟩ := Table.mem_filter.1 hx
  obtain ⟨m, hm, hkey⟩ := h.keys x.1 (List.mem_map_of_mem hx)
  exact ⟨m, List.mem_filter.2 ⟨hm, by rwa [hkey]⟩, hkey⟩

/-- The number that is kept is that of the messages held and within the limit, and each key is
beyond `now` and has messages of its own only. -/
structure Orderly (key : Message → κ) (limit : Nat) (now : κ) (valid : Message → Prop)
    (b : Backlog κ) : Prop where
  held : b.held = b.queues.values.flatten.length
  room : b.held ≤ limit
  later : ∀ k ∈ b.queues.keys, rank now < rank k
  own : ∀ k, ∀ m ∈ b.queue k, key m = k ∧ valid m

theorem Stores.orderly [LT κ] [DecidableLT κ] [RankOrdered κ] {now : κ} {valid : Message → Prop}
    (h : b.Stores key limit (ms.filter (now < key ·)))
    (hvalid : ∀ m ∈ ms, valid m) : b.Orderly key limit now valid where
  held := h.held.trans h.count.length_eq.symm
  room := h.held ▸ h.room
  later k hk := by
    obtain ⟨m, hm, rfl⟩ := h.keys k hk
    exact (RankOrdered.lt_iff_rank_lt ..).1 (of_decide_eq_true (List.mem_filter.1 hm).2)
  own k m hm := by
    rw [h.queue] at hm
    obtain ⟨hm, hk⟩ := List.mem_filter.1 hm
    exact ⟨of_decide_eq_true hk, hvalid m (List.mem_filter.1 hm).1⟩

end Backlog

end BlockAgreement
