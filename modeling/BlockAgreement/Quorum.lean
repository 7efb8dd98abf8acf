/-! How many of `n` validators may be faulty, and how many have to agree. Two quorums share more
validators than may be faulty. -/

namespace BlockAgreement

/-- The greatest `f` with `3 * f < n`, and zero when there is nobody. -/
def faultTolerance (n : Nat) : Nat := (n - 1) / 3

def quorum (n : Nat) : Nat := n - faultTolerance n

theorem faultTolerance_lt {n : Nat} (h : 0 < n) : 3 * faultTolerance n < n := by
  unfold faultTolerance
  omega

/-- What two quorums share is more than the faulty ones. -/
theorem faultTolerance_lt_quorum_overlap {n : Nat} (h : 0 < n) :
    faultTolerance n < 2 * quorum n - n := by
  unfold quorum faultTolerance
  omega

theorem one_lt_quorum {n : Nat} (h : 1 < n) : 1 < quorum n := by
  unfold quorum faultTolerance
  omega

end BlockAgreement
