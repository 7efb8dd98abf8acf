import BlockAgreement.Proofs.Ballots
import Mathlib.Data.Finset.Card
import Mathlib.Data.List.Dedup

/-! Quorums as sets of validators. One is larger than the faulty validators, and what two of them
share is larger still than these. -/

namespace BlockAgreement

namespace Committee

variable {S : Scheme} {C : Committee} {P Q : Type} [Statement P] [Statement Q]
  {ms : List (Signed P)} {ns : List (Signed Q)} {faulty : Finset Address}

theorem faultTolerance_lt_quorum (C : Committee) : C.faultTolerance < C.quorum := by
  have := BlockAgreement.faultTolerance_lt (List.length_pos_iff.2 C.validators_ne_nil)
  unfold quorum BlockAgreement.quorum faultTolerance
  omega

/-- A quorum is not made up of faulty validators. -/
theorem exists_notMem_of_quorum {s : Finset Address} (hf : faulty.card ≤ C.faultTolerance)
    (hs : C.quorum ≤ s.card) : ∃ a ∈ s, a ∉ faulty := by
  have := C.faultTolerance_lt_quorum
  exact Finset.exists_mem_notMem_of_card_lt_card (by omega)

theorem Quorate.exists_authors (h : C.Quorate S ms) : ∃ s ⊆ C.validators.toFinset,
    C.quorum ≤ s.card ∧ ∀ a ∈ s, ∃ m ∈ ms, C.author S m = .ok a := by
  obtain ⟨authors, hm, hn, hq⟩ := h
  have hauthor : ∀ a ∈ authors, ∃ m ∈ ms, C.author S m = .ok a := by
    intro a ha
    have : .ok a ∈ ms.map (C.author S) := hm ▸ List.mem_map_of_mem ha
    simpa using this
  refine ⟨authors.toFinset, fun a ha => ?_, ?_, fun a ha => hauthor a (List.mem_toFinset.1 ha)⟩
  · obtain ⟨m, -, hm⟩ := hauthor a (List.mem_toFinset.1 ha)
    have hmember := (author_eq_ok_iff.1 hm).2
    rw [contains, List.contains_iff_mem] at hmember
    exact List.mem_toFinset.2 hmember
  · rwa [List.toFinset_card_of_nodup hn]

/-- Two quorums share more validators than may be faulty. -/
theorem Quorate.exists_overlap (h : C.Quorate S ms) (h' : C.Quorate S ns) :
    ∃ s ⊆ C.validators.toFinset, C.faultTolerance + 1 ≤ s.card ∧
      ∀ a ∈ s, (∃ m ∈ ms, C.author S m = .ok a) ∧ ∃ m ∈ ns, C.author S m = .ok a := by
  obtain ⟨s, hs, hqs, has⟩ := h.exists_authors
  obtain ⟨t, ht, hqt, hat⟩ := h'.exists_authors
  have hall := C.validators.toFinset_card_le
  have hunion := Finset.card_le_card (Finset.union_subset hs ht)
  have hinter := Finset.card_union_add_card_inter s t
  have hoverlap := faultTolerance_lt_quorum_overlap (List.length_pos_iff.2 C.validators_ne_nil)
  refine ⟨s ∩ t, fun a ha => hs (Finset.mem_inter.1 ha).1, ?_, fun a ha => ?_⟩
  · unfold quorum faultTolerance at *
    omega
  · obtain ⟨has', hat'⟩ := Finset.mem_inter.1 ha
    exact ⟨has a has', hat a hat'⟩

/-- Two quorums share a validator that is not faulty. -/
theorem Quorate.exists_common
    (hf : (C.validators.toFinset ∩ faulty).card ≤ C.faultTolerance)
    (h : C.Quorate S ms) (h' : C.Quorate S ns) :
    ∃ a ∉ faulty, (∃ m ∈ ms, C.author S m = .ok a) ∧ ∃ m ∈ ns, C.author S m = .ok a := by
  obtain ⟨s, hs, hcard, hsaid⟩ := h.exists_overlap h'
  have hlt : (C.validators.toFinset ∩ faulty).card < s.card := by omega
  obtain ⟨a, ha, hna⟩ := Finset.exists_mem_notMem_of_card_lt_card hlt
  exact ⟨a, fun hfa => hna (Finset.mem_inter.2 ⟨hs ha, hfa⟩), hsaid a ha⟩

end Committee

end BlockAgreement
