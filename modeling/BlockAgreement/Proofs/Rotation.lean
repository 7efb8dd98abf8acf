import BlockAgreement.Proofs.Range
import Mathlib.Data.List.Rotate

/-! Turns are shared out evenly. Wherever a rotation starts, as many rounds in a row as there are
validators are the list of validators, rotated; so each of them has one turn in these rounds. The
position is worked out in words of 64 bits and then is an index, and none of the steps wraps. -/

namespace BlockAgreement

namespace Checked

/-- A number that is one of so many values of a word. -/
def word (values a : Nat) : Option Nat := if a < values then some a else none

theorem word_eq {values a : Nat} (h : a < values) : word values a = some a := if_pos h

end Checked

namespace Rotation

open Checked

/-- Where in the list the turn is, worked out in words. `size` is how many values an index has. -/
def place? (size length start number : Nat) : Option Nat := do
  let n ← word UInt64.size length
  let base ← mod (← word UInt64.size start) n
  let steps ← mod number n
  let position ← mod (← word UInt64.size (base + steps)) n
  word size position

/-- Both remainders are below the length, and twice the length is still a word. -/
theorem place?_eq {size length start number : Nat} (hsize : size ≤ UInt64.size)
    (hpos : 0 < length) (hlength : 2 * length ≤ size) (hstart : start < size) :
    place? size length start number = some ((start + number) % length) := by
  have hbase : start % length < length := Nat.mod_lt _ hpos
  have hsteps : number % length < length := Nat.mod_lt _ hpos
  have hplace : (start + number) % length < length := Nat.mod_lt _ hpos
  have hsum : start % length + number % length < UInt64.size := by omega
  have hn : word UInt64.size length = some length := word_eq (by omega)
  have hs : word UInt64.size start = some start := word_eq (by omega)
  have hp : word size ((start + number) % length) = some ((start + number) % length) :=
    word_eq (by omega)
  simp only [place?, hn, hs, mod_eq hpos.ne', word_eq hsum, ← Nat.add_mod, hp,
    Option.bind_eq_bind, Option.bind_some]

variable {R : Rotation} {validators : List Address} {height : UInt64} {number : UInt32}
  {a : Address}

theorem proposer_eq_ok_iff : R.proposer validators ⟨height, number⟩ = .ok a ↔
    validators[(R.start height validators + number.toNat) % validators.length]? = some a := by
  rw [proposer]
  dsimp only
  cases validators[(R.start height validators + number.toNat) % validators.length]? with
  | none => constructor <;> intro h <;> cases h
  | some b => rw [Except.ok.injEq, Option.some.injEq]

theorem exists_proposer (hne : validators ≠ []) :
    ∃ a ∈ validators, R.proposer validators ⟨height, number⟩ = .ok a := by
  have hlt := Nat.mod_lt (R.start height validators + number.toNat) (List.length_pos_of_ne_nil hne)
  exact ⟨_, List.getElem_mem hlt, proposer_eq_ok_iff.2 (List.getElem?_eq_getElem hlt)⟩

/-! ### As many rounds as validators -/

/-- The turns from a round on, read off the list of validators. -/
theorem proposer_eq_ok_iff_rotate {first i : Nat} (hi : i < validators.length)
    (hnumber : number.toNat = first + i) : R.proposer validators ⟨height, number⟩ = .ok a ↔
      (validators.rotate (R.start height validators + first))[i]? = some a := by
  rw [proposer_eq_ok_iff, List.getElem?_rotate hi, hnumber,
    show R.start height validators + (first + i) = i + (R.start height validators + first) by omega]

theorem exists_turn (R : Rotation) (height : UInt64) {first : Nat}
    (hfirst : first + validators.length ≤ UInt32.size) (ha : a ∈ validators) : ∃ number : UInt32,
      (first ≤ number.toNat ∧ number.toNat < first + validators.length) ∧
        R.proposer validators ⟨height, number⟩ = .ok a := by
  have hmem : a ∈ validators.rotate (R.start height validators + first) := List.mem_rotate.2 ha
  obtain ⟨i, hi, hget⟩ := List.mem_iff_getElem.1 hmem
  rw [List.length_rotate] at hi
  have hnumber : (UInt32.ofNat (first + i)).toNat = first + i :=
    UInt32.toNat_ofNat_of_lt' (by omega)
  refine ⟨.ofNat (first + i), by omega, (proposer_eq_ok_iff_rotate hi hnumber).2 ?_⟩
  rw [← hget]
  exact List.getElem?_eq_getElem _

theorem turn_unique (hnodup : validators.Nodup) {first : Nat} {number number' : UInt32}
    (h : first ≤ number.toNat ∧ number.toNat < first + validators.length)
    (h' : first ≤ number'.toNat ∧ number'.toNat < first + validators.length)
    (ha : R.proposer validators ⟨height, number⟩ = .ok a)
    (ha' : R.proposer validators ⟨height, number'⟩ = .ok a) : number = number' := by
  obtain ⟨i, hi⟩ := Nat.exists_eq_add_of_le h.1
  obtain ⟨j, hj⟩ := Nat.exists_eq_add_of_le h'.1
  rw [proposer_eq_ok_iff_rotate (by omega) hi] at ha
  rw [proposer_eq_ok_iff_rotate (by omega) hj] at ha'
  have hi' : i < (validators.rotate (R.start height validators + first)).length := by
    rw [List.length_rotate]
    omega
  have hij : i = j := (List.getElem?_inj hi' (List.nodup_rotate.2 hnodup)).1 (ha.trans ha'.symm)
  exact UInt32.toNat_inj.1 (by rw [hi, hj, hij])

/-! ### Where rotations start -/

theorem byHeight_start_lt (hne : validators ≠ []) :
    byHeight.start height validators < validators.length := by
  rw [byHeight]
  dsimp only
  rw [if_neg (by simpa using hne)]
  exact Nat.mod_lt _ (List.length_pos_of_ne_nil hne)

variable {history : UInt64 → Option Address}

theorem afterPrevious_start_le :
    (afterPrevious history).start height validators ≤ validators.length := by
  rw [afterPrevious]
  dsimp only
  split
  · exact Nat.zero_le _
  · split
    · next i hi =>
      obtain ⟨b, -, hb⟩ := Option.bind_eq_some_iff.1 hi
      exact (List.idxOf?_eq_some_iff.1 hb).1
    · exact Nat.zero_le _

theorem afterPrevious_start (hheight : height ≠ 0) (hprevious : history (height - 1) = some a)
    (ha : a ∈ validators) : ∃ i < validators.length, validators[i]? = some a ∧
      (afterPrevious history).start height validators = i + 1 := by
  have hsome : (validators.idxOf? a).isSome := List.isSome_idxOf?.2 ha
  obtain ⟨i, hi⟩ := Option.isSome_iff_exists.1 hsome
  obtain ⟨hlt, hget, -⟩ := List.idxOf?_eq_some_iff.1 hi
  refine ⟨i, hlt, hget ▸ List.getElem?_eq_getElem hlt, ?_⟩
  rw [afterPrevious]
  dsimp only
  rw [if_neg hheight, hprevious, Option.bind_some, hi]

/-- The turn passes on from the proposer of the block before, to another if there is one. -/
theorem afterPrevious_ne_previous (hnodup : validators.Nodup) (htwo : 2 ≤ validators.length)
    (hheight : height ≠ 0) (hprevious : history (height - 1) = some a) (ha : a ∈ validators) :
    (afterPrevious history).proposer validators ⟨height, 0⟩ ≠ .ok a := by
  intro hturn
  obtain ⟨i, hi, hget, hstart⟩ := afterPrevious_start hheight hprevious ha
  rw [proposer_eq_ok_iff, hstart, ← hget, UInt32.toNat_zero, Nat.add_zero] at hturn
  have hlt : (i + 1) % validators.length < validators.length := Nat.mod_lt _ (by omega)
  have hfix : (i + 1) % validators.length = i := (List.getElem?_inj hlt hnodup).1 hturn
  rcases Nat.lt_or_ge (i + 1) validators.length with hnext | hlast
  · rw [Nat.mod_eq_of_lt hnext] at hfix
    omega
  · rw [show i + 1 = validators.length by omega, Nat.mod_self] at hfix
    omega

/-! ### Fair shares -/

/-- In every round someone has the turn, at the position that is counted from the start. Words do
for a list that fits in memory, which has at most half as many entries as an index has values. In as
many rounds as there are validators each has the turn once. -/
structure Fair (R : Rotation) (validators : List Address) : Prop where
  exists_turn : ∀ height number,
    ∃ a ∈ validators, R.proposer validators ⟨height, number⟩ = .ok a
  position : ∀ height number a, R.proposer validators ⟨height, number⟩ = .ok a ↔
    validators[(R.start height validators + number.toNat) % validators.length]? = some a
  in_words : ∀ size ≤ UInt64.size, 2 * validators.length ≤ size → ∀ height,
    R.start height validators < size → ∀ number : UInt32,
      place? size validators.length (R.start height validators) number.toNat =
        some ((R.start height validators + number.toNat) % validators.length)
  once : ∀ height first, first + validators.length ≤ UInt32.size → ∀ a ∈ validators,
    ∃! number : UInt32, (first ≤ number.toNat ∧ number.toNat < first + validators.length) ∧
      R.proposer validators ⟨height, number⟩ = .ok a

/-- Every rotation is fair, wherever it starts. The two that are given start in the list or just
past its end; and the one that goes on from the proposer of the block before does not start with the
same validator again, unless there is no other. -/
theorem fair_of_nodup (hne : validators ≠ []) (hnodup : validators.Nodup) :
    (∀ R : Rotation, R.Fair validators) ∧
    (∀ height, byHeight.start height validators < validators.length) ∧
    ∀ (history : UInt64 → Option Address) (height : UInt64),
      (afterPrevious history).start height validators ≤ validators.length ∧
      ∀ a ∈ validators, height ≠ 0 → history (height - 1) = some a → 2 ≤ validators.length →
        (afterPrevious history).proposer validators ⟨height, 0⟩ ≠ .ok a := by
  have hpos : 0 < validators.length := List.length_pos_of_ne_nil hne
  refine ⟨fun R => ?_, fun height => byHeight_start_lt hne, fun history height =>
    ⟨afterPrevious_start_le, fun a ha hheight hprevious htwo =>
      afterPrevious_ne_previous hnodup htwo hheight hprevious ha⟩⟩
  constructor
  case exists_turn => exact fun height number => exists_proposer hne
  case position => exact fun height number a => proposer_eq_ok_iff
  case in_words =>
    exact fun size hsize hlength height hstart number => place?_eq hsize hpos hlength hstart
  case once =>
    intro height first hfirst a ha
    obtain ⟨number, hwindow, hturn⟩ := R.exists_turn height hfirst ha
    exact ⟨number, ⟨hwindow, hturn⟩, fun other hother =>
      turn_unique hnodup hother.1 hwindow hother.2 hturn⟩

/-- After a block of the last of four validators, in the last four rounds that a word can count. -/
theorem fair_of_nodup_last :
    let validators : List Address := [.ofNat 1, .ofNat 2, .ofNat 3, .ofNat 4]
    let R := afterPrevious fun _ => some (.ofNat 4)
    let last : UInt32 := 0xffffffff
    validators ≠ [] ∧ validators.Nodup ∧ R.start 7 validators = 4 ∧
      place? UInt64.size 4 4 last.toNat = some 3 ∧
      R.proposer validators ⟨7, last⟩ = .ok (.ofNat 4) ∧
      (∃! number : UInt32, (0xfffffffc ≤ number.toNat ∧ number.toNat < 0xfffffffc + 4) ∧
        R.proposer validators ⟨7, number⟩ = .ok (.ofNat 2)) ∧
      R.proposer validators ⟨7, 0⟩ ≠ .ok (.ofNat 4) := by
  intro validators R last
  have hne : validators ≠ [] := List.cons_ne_nil _ _
  have hnodup : validators.Nodup := by decide
  have hstart : R.start 7 validators = 4 := by decide
  obtain ⟨hfair, -, hafter⟩ := fair_of_nodup hne hnodup
  have hlength : validators.length = 4 := rfl
  have hplace := (hfair R).in_words UInt64.size le_rfl (by decide) 7 (hstart ▸ by decide) last
  have hturn := ((hfair R).position 7 last (.ofNat 4)).2
  rw [hstart, hlength] at hplace hturn
  exact ⟨hne, hnodup, hstart, hplace.trans (by decide), hturn (by decide),
    (hfair R).once 7 0xfffffffc (by decide) (.ofNat 2) (by decide),
    (hafter _ 7).2 (.ofNat 4) (by decide) (by decide) rfl (by decide)⟩

end Rotation

end BlockAgreement
