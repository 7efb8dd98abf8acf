/-! The settings of a node and the length of a round's timer. -/

namespace BlockAgreement

structure Config where
  /-- The timer of round 0 in milliseconds. -/
  baseTimeout : UInt64 := 10000
  /-- Timers double from round to round up to this power of two. -/
  maxExponent : UInt32 := 6
  /-- Messages for heights farther ahead are dropped, and round changes for rounds farther ahead
  are not collected. -/
  horizon : UInt64 := 10
  /-- The most messages held for later rounds, and for later heights. -/
  bufferLimit : UInt64 := 1000
  /-- Whether to move on once more validators than may be faulty are ahead. -/
  earlyRoundChange : Bool := true
deriving DecidableEq

namespace Config

/-- Doubles with the round until the exponent reaches its bound, and stops at the largest word. -/
def timeout (c : Config) (round : UInt32) : UInt64 :=
  let exponent := min (min round.toNat c.maxExponent.toNat) 63
  UInt64.ofNat (min (c.baseTimeout.toNat <<< exponent) (UInt64.size - 1))

/-- How far ahead of the current round a round change is still collected. -/
def roundHorizon (c : Config) : Nat := min c.horizon.toNat (UInt32.size - 1)

end Config

end BlockAgreement
