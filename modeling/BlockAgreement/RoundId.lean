import BlockAgreement.Table

/-! A round is named by the height it decides and its number at that height. Rounds are ordered by
height first. -/

namespace BlockAgreement

structure RoundId where
  height : UInt64
  number : UInt32
deriving DecidableEq, Inhabited

namespace RoundId

instance : Ranked RoundId where
  rank r := UInt32.size * r.height.toNat + r.number.toNat
  rank_injective {a b} h := by
    have ha := a.number.toNat_lt
    have hb := b.number.toNat_lt
    obtain ⟨ah, an⟩ := a
    obtain ⟨bh, bn⟩ := b
    simp only [mk.injEq, UInt32.size, ← UInt64.toNat_inj, ← UInt32.toNat_inj] at *
    omega

instance : Ord RoundId :=
  ⟨fun a b => (compare a.height b.height).then (compare a.number b.number)⟩

instance : LE RoundId := leOfOrd

instance (a b : RoundId) : Decidable (a ≤ b) := inferInstanceAs (Decidable (_ = true))

instance : Max RoundId := maxOfLe

instance : Min RoundId := minOfLe

instance : ToString RoundId := ⟨fun r => s!"{r.height}/{r.number}"⟩

end RoundId

/-- The number after `n`, where the last one follows itself. -/
def nextNumber (n : UInt32) : UInt32 := if n.toNat + 1 < UInt32.size then n + 1 else n

/-- The height after `h`, where the last one follows itself. -/
def nextHeight (h : UInt64) : UInt64 := if h.toNat + 1 < UInt64.size then h + 1 else h

def RoundId.next (r : RoundId) : RoundId := { r with number := nextNumber r.number }

end BlockAgreement
