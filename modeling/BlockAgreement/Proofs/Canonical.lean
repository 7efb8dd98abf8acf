import BlockAgreement.Proofs.Rlp
import Mathlib.Data.List.Induction

/-! No value is written in two ways. Whatever a reader gives a value for starts with the written
form of that value, and the reader takes just this much of it. Readers that are put together from
such readers are such readers again: where a reader gives up a part of the law, by a number with a
leading zero or a list that is not read to its end, the law fails at once for all that is built on
it. -/

namespace BlockAgreement

namespace Bytes

theorem toNat_lt (b : Bytes) : toNat b < 256 ^ b.length := by
  induction b using List.reverseRecOn with
  | nil => decide
  | append_singleton b x ih =>
    have hx := x.toNat_lt
    rw [toNat_concat, List.length_append, List.length_singleton, Nat.pow_succ]
    omega

/-- Digits without a leading zero are those of their number. -/
theorem minimal_toNat {b : Bytes} (h : b.head? ≠ some 0) : minimal (toNat b) = b := by
  induction b using List.reverseRecOn with
  | nil => exact minimal_zero
  | append_singleton b x ih =>
    have hx := x.toNat_lt
    have hb : minimal (toNat b) = b := by
      apply ih
      intro hz
      rw [List.head?_append, hz] at h
      exact h rfl
    -- A number that is zero has no digits, so its only byte would be a leading zero.
    have hne : toNat (b ++ [x]) ≠ 0 := by
      rw [toNat_concat]
      intro hz
      have hnil : b = [] := by rw [← hb, minimal_eq_nil_iff]; omega
      have hx0 : x = 0 := UInt8.toNat_inj.1 (by rw [UInt8.toNat_zero]; omega)
      rw [hnil, hx0] at h
      exact h rfl
    have hq : toNat (b ++ [x]) / 256 = toNat b := by rw [toNat_concat]; omega
    have hr : toNat (b ++ [x]) % 256 = x.toNat := by rw [toNat_concat]; omega
    rw [minimal_of_ne_zero hne, hq, hr, hb, UInt8.ofNat_toNat]

end Bytes

theorem ByteVec.ofList?_eq_some {n : Nat} {b : Bytes} {v : ByteVec n} (h : ofList? b = some v) :
    v.toList = b := by
  rw [ofList?] at h
  split at h
  · cases h
    rfl
  · cases h

namespace Reader

variable {ε ε' α β : Type} {r : Reader ε α} {f : α → Reader ε β} {p b rest : Bytes}
  {write : α → Bytes} {write' : β → Bytes}

theorem run_bind_eq_ok_iff {d : β} : (r >>= f).run b = .ok (d, rest) ↔
    ∃ a c, r.run b = .ok (a, c) ∧ (f a).run c = .ok (d, rest) := by
  rw [StateT.run_bind]
  cases r.run b with
  | error e => exact ⟨nofun, fun ⟨_, _, h, _⟩ => nomatch h⟩
  | ok x => exact ⟨fun h => ⟨x.1, x.2, rfl, h⟩, fun ⟨_, _, hx, h⟩ => by cases hx; exact h⟩

/-- A test that fails with `e`, before the rest. -/
theorem run_guard_eq_ok_iff {c : Prop} [Decidable c] {e : ε} {f : PUnit → Reader ε β}
    {x : β × Bytes} : (if c then throw e >>= f else f ⟨⟩).run b = .ok x ↔
      ¬ c ∧ (f ⟨⟩).run b = .ok x := by
  by_cases hc : c
  · rw [if_pos hc]
    exact ⟨nofun, fun h => absurd hc h.1⟩
  · rw [if_neg hc, and_iff_right hc]

theorem run_mapError_eq_ok_iff {g : ε → ε'} {x : α × Bytes} :
    (r.mapError g).run b = .ok x ↔ r.run b = .ok x := by
  show (r.run b).mapError g = _ ↔ _
  cases r.run b <;> simp [Except.mapError]

/-- When `p` was taken before, what the reader takes completes the written form of the value that it
gives. -/
def Completes (r : Reader ε α) (p : Bytes) (write : α → Bytes) : Prop :=
  ∀ b a rest, r.run b = .ok (a, rest) → p ++ b = write a ++ rest

/-- What the reader takes is the written form of the value that it gives. -/
def Spells (r : Reader ε α) (write : α → Bytes) : Prop := r.Completes [] write

theorem Spells.eq {a : α} (h : r.Spells write) (hr : r.run b = .ok (a, rest)) :
    b = write a ++ rest :=
  h b a rest hr

/-- A reader that spells its values takes something, if they are all written as something. -/
theorem Spells.length_lt {a : α} (h : r.Spells write) (hne : ∀ a, write a ≠ [])
    (hr : r.run b = .ok (a, rest)) : rest.length < b.length := by
  have hpos := List.length_pos_iff.2 (hne a)
  rw [h.eq hr, List.length_append]
  omega

namespace Completes

protected theorem pure {a : α} (h : write a = p) : (pure a : Reader ε α).Completes p write := by
  intro b d rest hr
  cases hr
  rw [h]

protected theorem throw {e : ε} : (throw e : Reader ε α).Completes p write :=
  fun _ _ _ hr => nomatch hr

/-- A test stops the reader, or tells something about what was taken. -/
protected theorem guard {c : Prop} [Decidable c] {e : ε} {f : PUnit → Reader ε β}
    (h : ¬ c → (f ⟨⟩).Completes p write') :
    (if c then throw e >>= f else f ⟨⟩).Completes p write' := by
  intro b d rest hr
  obtain ⟨hc, hr⟩ := run_guard_eq_ok_iff.1 hr
  exact h hc b d rest hr

protected theorem liftM {x : Except ε α} (h : ∀ a, x = .ok a → write a = p) :
    (liftM x : Reader ε α).Completes p write := by
  intro b a rest hr
  cases x with
  | error e => cases hr
  | ok =>
    cases hr
    rw [h a rfl]

end Completes

namespace Spells

protected theorem bind (h : r.Spells write) (hf : ∀ a, (f a).Completes (p ++ write a) write') :
    (r >>= f).Completes p write' := by
  intro b d rest hr
  obtain ⟨a, c, ha, hd⟩ := run_bind_eq_ok_iff.1 hr
  rw [h.eq ha, ← List.append_assoc, hf a c d rest hd]

protected theorem map {g : α → β} (h : r.Spells write) (hg : ∀ b a rest, r.run b = .ok (a, rest) →
    write' (g a) = write a) : (g <$> r).Spells write' := by
  intro b d rest hr
  rw [map_eq_pure_bind] at hr
  obtain ⟨a, c, ha, hd⟩ := run_bind_eq_ok_iff.1 hr
  cases hd
  rw [hg b a rest ha]
  exact h.eq ha

protected theorem mapError (h : r.Spells write) (g : ε → ε') : (r.mapError g).Spells write :=
  fun _ _ _ hr => h.eq (run_mapError_eq_ok_iff.1 hr)

/-- Values read one after the other until nothing is left. -/
protected theorem many {as : List α} (h : r.Spells write) (hne : ∀ a, write a ≠ [])
    (hr : r.many b = .ok as) : b = as.flatMap write := by
  induction b using many.induct r generalizing as with
  | case1 b hb =>
    rw [many, if_pos hb] at hr
    cases hr
    simpa using hb
  | case2 b hb e he =>
    rw [many, if_neg hb, he] at hr
    cases hr
  | case3 b hb a rest ha hlt ih =>
    rw [many, if_neg hb, ha] at hr
    simp only [if_pos hlt] at hr
    cases hm : r.many rest with
    | error e => rw [hm] at hr; cases hr
    | ok ds =>
      rw [hm] at hr
      cases hr
      rw [List.flatMap_cons, ← ih hm]
      exact h.eq ha
  | case4 b hb a rest ha hle => exact absurd (h.length_lt hne ha) hle

end Spells

end Reader

namespace Rlp

open Reader

/-! ### Items -/

/-- The written form of an item. -/
def Kind.write (kind : Kind) (p : Bytes) : Bytes :=
  match kind with
  | .string => encodeBytes p
  | .list => encodeList p

theorem encodeBytes_of_length_ne_one {p : Bytes} (h : p.length ≠ 1) :
    encodeBytes p = header .string p.length ++ p := by
  unfold encodeBytes
  split
  · exact absurd rfl h
  · rfl

theorem encodeBytes_singleton (x : UInt8) :
    encodeBytes [x] = if x < 0x80 then [x] else [0x81, x] :=
  rfl

variable {kind kind' : Kind} {n : Nat} {x : UInt8} {b c p rest : Bytes}

theorem short_eq_ok (h : (item.short kind n b).run c = .ok ((kind', p), rest)) :
    kind' = kind ∧ b = p ++ rest ∧ p.length = n := by
  rw [item.short] at h
  split at h
  · cases h
  · next hle =>
    cases h
    exact ⟨rfl, (List.take_append_drop n b).symm, List.length_take_of_le (Nat.not_lt.1 hle)⟩

/-- The digits of the length are those that are written for it. -/
theorem long_eq_ok (h : (item.long kind n b).run c = .ok ((kind', p), rest)) :
    kind' = kind ∧ b = Bytes.minimal p.length ++ (p ++ rest) ∧ 56 ≤ p.length ∧
      (Bytes.minimal p.length).length = n := by
  rw [item.long] at h
  split at h
  · cases h
  next hle =>
  split at h
  · cases h
  next hhead =>
  dsimp only at h
  split at h
  · cases h
  next hlong =>
  obtain ⟨hk, hb, hlen⟩ := short_eq_ok h
  have hn : (b.take n).length = n := List.length_take_of_le (Nat.not_lt.1 hle)
  have hdigits : Bytes.minimal p.length = b.take n := by
    rw [hlen]
    apply Bytes.minimal_toNat
    cases n with
    | zero => simp
    | succ n => rwa [List.head?_take, if_neg (Nat.succ_ne_zero n)]
  refine ⟨hk, ?_, ?_, ?_⟩
  · rw [hdigits, ← hb, List.take_append_drop]
  · rw [hlen]
    exact Nat.not_lt.1 hlong
  · rw [hdigits, hn]

theorem header_of_short (hn : p.length < 56) (hx : x.toNat = kind.code + p.length) :
    header kind p.length = [x] := by
  rw [header, if_pos hn, ← hx, UInt8.ofNat_toNat]

theorem header_of_long (hn : 56 ≤ p.length)
    (hx : x.toNat = kind.code + 55 + (Bytes.minimal p.length).length) :
    header kind p.length = x :: Bytes.minimal p.length := by
  rw [header, if_neg (Nat.not_lt.2 hn)]
  dsimp only
  rw [← hx, UInt8.ofNat_toNat]

/-- Behind `0x81` stands one byte that is no item of its own. -/
theorem item_0x81_eq_ok (h : item.run (0x81 :: b) = .ok ((kind, p), rest)) :
    kind = .string ∧ b = p ++ rest ∧ encodeBytes p = 0x81 :: p := by
  have hcode : (0x81 : UInt8).toNat = 0x81 := rfl
  rw [item, run_get_bind] at h
  simp only [hcode, Nat.reduceLT, Nat.reduceSub, if_false, if_true] at h
  cases b with
  | nil => cases h
  | cons y b =>
    simp only at h
    split at h
    · cases h
    · next hy =>
      obtain ⟨hk, hb, hlen⟩ := short_eq_ok h
      obtain ⟨z, rfl⟩ := List.length_eq_one_iff.1 hlen
      obtain rfl : y = z := (List.cons.inj hb).1
      exact ⟨hk, hb, by rw [encodeBytes_singleton, if_neg hy]⟩

/-- Each item has one written form: a small byte stands for itself, and of all else the header
tells the length in the shortest way. -/
theorem item_spells : item.Spells fun x => x.1.write x.2 := by
  intro b ⟨kind, p⟩ rest h
  show b = kind.write p ++ rest
  cases b with
  | nil => cases h
  | cons x b =>
  by_cases hbyte : x.toNat < 0x80
  · rw [item_byte hbyte] at h
    cases h
    have hx : x < 0x80 := UInt8.lt_iff_toNat_lt.2 hbyte
    rw [Kind.write, encodeBytes_singleton, if_pos hx]
    rfl
  by_cases hone : x.toNat = 0x81
  · obtain rfl : x = 0x81 := UInt8.toNat_inj.1 hone
    obtain ⟨rfl, rfl, hp⟩ := item_0x81_eq_ok h
    rw [Kind.write, hp]
    rfl
  by_cases hshort : x.toNat < 0xb8
  · rw [item_shortString (by omega) hshort hone] at h
    obtain ⟨rfl, rfl, hlen⟩ := short_eq_ok h
    rw [Kind.write, encodeBytes_of_length_ne_one (by omega),
      header_of_short (x := x) (by omega) (by rw [Kind.code]; omega)]
    rfl
  by_cases hlong : x.toNat < 0xc0
  · rw [item_longString (by omega) hlong] at h
    obtain ⟨rfl, rfl, hp, hlen⟩ := long_eq_ok h
    rw [Kind.write, encodeBytes_of_length_ne_one (by omega),
      header_of_long (x := x) hp (by rw [Kind.code]; omega), List.cons_append, List.cons_append,
      List.append_assoc]
  by_cases hshort : x.toNat < 0xf8
  · rw [item_shortList (by omega) hshort] at h
    obtain ⟨rfl, rfl, hlen⟩ := short_eq_ok h
    rw [Kind.write, encodeList, header_of_short (x := x) (by omega) (by rw [Kind.code]; omega)]
    rfl
  · rw [item_longList (by omega)] at h
    obtain ⟨rfl, rfl, hp, hlen⟩ := long_eq_ok h
    rw [Kind.write, encodeList, header_of_long (x := x) hp (by rw [Kind.code]; omega),
      List.cons_append, List.cons_append, List.append_assoc]

/-! ### Values -/

theorem string_spells : string.Spells encodeBytes := by
  refine item_spells.bind ?_
  rintro ⟨_ | _, p⟩
  · exact .pure rfl
  · exact .throw

theorem list_spells : list.Spells encodeList := by
  refine item_spells.bind ?_
  rintro ⟨_ | _, p⟩
  · exact .throw
  · exact .pure rfl

theorem nat_spells (width : Nat) : (nat width).Spells encodeNat := by
  refine string_spells.bind fun digits => .guard fun _ => .guard fun hhead => .pure ?_
  rw [encodeNat, Bytes.minimal_toNat hhead]
  rfl

theorem lt_of_nat {width k : Nat} (h : (nat width).run b = .ok (k, rest)) : k < 256 ^ width := by
  obtain ⟨digits, c, -, h⟩ := run_bind_eq_ok_iff.1 h
  obtain ⟨hle, h⟩ := run_guard_eq_ok_iff.1 h
  obtain ⟨-, h⟩ := run_guard_eq_ok_iff.1 h
  cases h
  exact (Bytes.toNat_lt digits).trans_le (Nat.pow_le_pow_right (by decide) (Nat.not_lt.1 hle))

theorem uint64_spells : uint64.Spells fun n => encodeNat n.toNat := by
  refine (nat_spells 8).map fun b k rest h => ?_
  have hlt : k < 2 ^ 64 := lt_of_nat h
  rw [UInt64.toNat_ofNat', Nat.mod_eq_of_lt hlt]

theorem uint32_spells : uint32.Spells fun n => encodeNat n.toNat := by
  refine (nat_spells 4).map fun b k rest h => ?_
  have hlt : k < 2 ^ 32 := lt_of_nat h
  rw [UInt32.toNat_ofNat', Nat.mod_eq_of_lt hlt]

theorem fixed_spells (n : Nat) : (fixed n).Spells fun v => encodeBytes v.toList := by
  refine string_spells.bind fun payload => ?_
  cases hv : ByteVec.ofList? payload with
  | none => exact .throw
  | some v =>
    refine .pure ?_
    rw [ByteVec.ofList?_eq_some hv]
    rfl

theorem listOf_spells {α : Type} {each : Reader Fault α} {write : α → Bytes}
    (h : each.Spells write) (hne : ∀ a, write a ≠ []) :
    (listOf each).Spells fun as => encodeList (as.flatMap write) := by
  refine list_spells.bind fun payload => .liftM fun as has => ?_
  rw [h.many hne has]
  rfl

/-- The fields may be read on into what follows the record, but then their length shows it. -/
theorem record_spells {α : Type} {fields : Reader Fault α} {write : α → Bytes}
    (h : fields.Spells write) : (record fields).Spells fun a => encodeList (write a) := by
  intro b a rest hr
  obtain ⟨payload, c, hp, hr⟩ := run_bind_eq_ok_iff.1 hr
  rw [run_get_bind, run_set_bind] at hr
  obtain ⟨d, e, hf, hr⟩ := run_bind_eq_ok_iff.1 hr
  rw [run_get_bind] at hr
  obtain ⟨htaken, hr⟩ := run_guard_eq_ok_iff.1 hr
  cases hr
  have hall := h.eq hf
  have hlen := congrArg List.length hall
  simp only [List.length_append, ne_eq, not_not] at hlen htaken
  obtain ⟨rfl, rfl⟩ := List.append_inj hall (by omega)
  exact list_spells.eq hp

end Rlp

end BlockAgreement
