import BlockAgreement.Rlp.Reader
import Mathlib.Algebra.Order.Ring.Nat

/-! What was written is read back. A reader takes the written form of a value from the front of any
byte string, gives the value and leaves the rest as it is. Readers that are put together from such
readers are such readers again, and so the law goes from single items up to lists and records. -/

namespace BlockAgreement

namespace Bytes

theorem toNat_concat (b : Bytes) (x : UInt8) : toNat (b ++ [x]) = 256 * toNat b + x.toNat := by
  rw [toNat, List.foldl_append]
  rfl

@[simp] theorem minimal_zero : minimal 0 = [] := by
  rw [minimal, if_pos rfl]

theorem minimal_of_ne_zero {k : Nat} (h : k ≠ 0) :
    minimal k = minimal (k / 256) ++ [UInt8.ofNat (k % 256)] := by
  rw [minimal, if_neg h]

theorem minimal_eq_nil_iff {k : Nat} : minimal k = [] ↔ k = 0 := by
  by_cases h : k = 0
  · simp [h]
  · simp [minimal_of_ne_zero h, h]

@[simp] theorem toNat_minimal (k : Nat) : toNat (minimal k) = k := by
  induction k using Nat.strong_induction_on with
  | _ k ih =>
    by_cases h : k = 0
    · rw [h, minimal_zero]
      rfl
    · rw [minimal_of_ne_zero h, toNat_concat, ih _ (by omega), UInt8.toNat_ofNat']
      omega

theorem head?_minimal (k : Nat) : (minimal k).head? ≠ some 0 := by
  induction k using Nat.strong_induction_on with
  | _ k ih =>
    by_cases h : k = 0
    · simp [h]
    rw [minimal_of_ne_zero h, List.head?_append]
    by_cases hq : k / 256 = 0
    · rw [hq, minimal_zero]
      intro h0
      have := congrArg UInt8.toNat (Option.some.inj h0)
      rw [UInt8.toNat_ofNat', UInt8.toNat_zero] at this
      omega
    · have := ih (k / 256) (by omega)
      cases hm : minimal (k / 256) with
      | nil => exact absurd (minimal_eq_nil_iff.1 hm) hq
      | cons x b => rwa [hm] at this

theorem length_minimal_le {k n : Nat} (h : k < 256 ^ n) : (minimal k).length ≤ n := by
  induction n generalizing k with
  | zero => simp [show k = 0 by simpa using h]
  | succ n ih =>
    by_cases hk : k = 0
    · simp [hk]
    · rw [minimal_of_ne_zero hk, List.length_append]
      exact Nat.succ_le_succ (ih (by rwa [Nat.div_lt_iff_lt_mul (by decide)]))

end Bytes

namespace Reader

variable {ε ε' α β : Type} {r : Reader ε α} {f : α → Reader ε β} {a : α} {d : β} {b c : Bytes}

theorem run_bind_of_ok (h : r.run b = .ok (a, c)) : (r >>= f).run b = (f a).run c := by
  rw [StateT.run_bind, h]
  rfl

theorem run_get_bind {f : Bytes → Reader ε β} : (get >>= f).run b = (f b).run b := rfl

theorem run_set_bind {f : PUnit → Reader ε β} : (set c >>= f).run b = (f ⟨⟩).run c := rfl

/-- The reader takes `b`, and nothing of what comes after it, for `a`. -/
def Takes (r : Reader ε α) (b : Bytes) (a : α) : Prop :=
  ∀ rest, r.run (b ++ rest) = .ok (a, rest)

namespace Takes

theorem all (h : r.Takes b a) : r.run b = .ok (a, []) := by
  simpa using h []

/-- What a reader takes is told apart from what follows it. -/
theorem unique {a' : α} {c x y : Bytes} (h : r.Takes b a) (h' : r.Takes c a')
    (heq : b ++ x = c ++ y) : a = a' ∧ x = y := by
  have hread := h x
  rw [heq, h' y] at hread
  simpa [eq_comm] using hread

/-- A text is read as one value. -/
theorem inj {a' : α} {c : Bytes} (h : r.Takes b a) (h' : r.Takes c a') (heq : b = c) : a = a' := by
  have htext : b ++ [] = c ++ [] := by rw [heq]
  exact (h.unique h' htext).1

protected theorem pure (a : α) : (pure a : Reader ε α).Takes [] a := fun _ => rfl

protected theorem bind (h : r.Takes b a) (hf : (f a).Takes c d) : (r >>= f).Takes (b ++ c) d := by
  intro rest
  rw [List.append_assoc, run_bind_of_ok (h _), hf rest]

/-- A last step that takes nothing. -/
protected theorem bind_nil (h : r.Takes b a) (hf : (f a).Takes [] d) : (r >>= f).Takes b d := by
  simpa using h.bind hf

protected theorem map (h : r.Takes b a) (g : α → β) : (g <$> r).Takes b (g a) := by
  intro rest
  rw [StateT.run_map, h rest]
  rfl

protected theorem liftM {x : Except ε α} (hx : x = .ok a) : (liftM x : Reader ε α).Takes [] a := by
  intro rest
  rw [hx]
  rfl

protected theorem mapError (h : r.Takes b a) (g : ε → ε') : (r.mapError g).Takes b a := by
  intro rest
  show (r.run (b ++ rest)).mapError g = _
  rw [h rest]
  rfl

/-- Values written one after the other, none of them as nothing. -/
protected theorem many {write : α → Bytes} {as : List α} (h : ∀ a ∈ as, r.Takes (write a) a)
    (hne : ∀ a ∈ as, write a ≠ []) : r.many (as.flatMap write) = .ok as := by
  induction as with
  | nil =>
    rw [many]
    rfl
  | cons a as ih =>
    obtain ⟨ha, has⟩ := List.forall_mem_cons.1 h
    obtain ⟨hne, hnes⟩ := List.forall_mem_cons.1 hne
    have hpos := List.length_pos_iff.2 hne
    have hlt : (as.flatMap write).length < (write a ++ as.flatMap write).length := by
      rw [List.length_append]
      omega
    rw [many, List.flatMap_cons, if_neg (by simp [hne]), ha _]
    simp only [if_pos hlt, ih has hnes]
    rfl

end Takes

end Reader

namespace Rlp

open Reader

/-! ### Items -/

theorem short_append (kind : Kind) (p rest b : Bytes) :
    (item.short kind p.length (p ++ rest)).run b = .ok ((kind, p), rest) := by
  have hlen : ¬ (p ++ rest).length < p.length := by simp
  rw [item.short, if_neg hlen, List.take_left, List.drop_left]
  rfl

theorem long_append (kind : Kind) (p rest b : Bytes) (h : 56 ≤ p.length) :
    (item.long kind (Bytes.minimal p.length).length
      (Bytes.minimal p.length ++ (p ++ rest))).run b = .ok ((kind, p), rest) := by
  have hlen : ¬ (Bytes.minimal p.length ++ (p ++ rest)).length <
      (Bytes.minimal p.length).length := by simp
  have hhead : (Bytes.minimal p.length ++ (p ++ rest)).head? ≠ some 0 := by
    have hmin := Bytes.head?_minimal p.length
    cases hd : Bytes.minimal p.length with
    | nil =>
      have := Bytes.minimal_eq_nil_iff.1 hd
      omega
    | cons x d => rwa [hd] at hmin
  rw [item.long, if_neg hlen, if_neg hhead]
  simp only [List.take_left, List.drop_left, Bytes.toNat_minimal, if_neg (Nat.not_lt.2 h)]
  exact short_append ..

section Item

variable {x y : UInt8} {b : Bytes}

theorem item_byte (h : x.toNat < 0x80) : item.run (x :: b) = .ok ((.string, [x]), b) := by
  rw [item, run_get_bind]
  simp only [if_pos h]
  rfl

theorem item_shortString (h : 0x80 ≤ x.toNat) (h' : x.toNat < 0xb8) (h1 : x.toNat ≠ 0x81) :
    item.run (x :: b) = (item.short .string (x.toNat - 0x80) b).run (x :: b) := by
  rw [item, run_get_bind]
  simp only [if_neg (Nat.not_lt.2 h), if_pos h']
  split
  · omega
  · omega
  · rfl

/-- A single byte has a header of its own only where it would be taken for one. -/
theorem item_singleton (h : ¬ y < 0x80) : item.run (0x81 :: y :: b) = .ok ((.string, [y]), b) := by
  have hcode : (0x81 : UInt8).toNat = 0x81 := rfl
  rw [item, run_get_bind]
  simp only [hcode, Nat.reduceLT, Nat.reduceSub, if_false, if_true, if_neg h]
  exact short_append .string [y] b _

theorem item_longString (h : 0xb8 ≤ x.toNat) (h' : x.toNat < 0xc0) :
    item.run (x :: b) = (item.long .string (x.toNat - 0xb7) b).run (x :: b) := by
  rw [item, run_get_bind]
  simp only
  rw [if_neg (by omega), if_neg (by omega), if_pos h']

theorem item_shortList (h : 0xc0 ≤ x.toNat) (h' : x.toNat < 0xf8) :
    item.run (x :: b) = (item.short .list (x.toNat - 0xc0) b).run (x :: b) := by
  rw [item, run_get_bind]
  simp only
  rw [if_neg (by omega), if_neg (by omega), if_neg (by omega), if_pos h']

theorem item_longList (h : 0xf8 ≤ x.toNat) :
    item.run (x :: b) = (item.long .list (x.toNat - 0xf7) b).run (x :: b) := by
  rw [item, run_get_bind]
  simp only
  rw [if_neg (by omega), if_neg (by omega), if_neg (by omega), if_neg (by omega)]

end Item

theorem toNat_ofNat_code {n : Nat} (h : n < 256) : (UInt8.ofNat n).toNat = n := by
  rw [UInt8.toNat_ofNat', Nat.mod_eq_of_lt h]

variable {kind : Kind} {p : Bytes}

theorem item_header_short (rest : Bytes) (h : p.length < 56)
    (h1 : kind = .string → p.length ≠ 1) :
    item.run (UInt8.ofNat (kind.code + p.length) :: (p ++ rest)) = .ok ((kind, p), rest) := by
  cases kind with
  | string =>
    have hne := h1 rfl
    have hcode := toNat_ofNat_code (n := 0x80 + p.length) (by omega)
    rw [Kind.code, item_shortString (by omega) (by omega) (by omega), hcode,
      Nat.add_sub_cancel_left]
    exact short_append ..
  | list =>
    have hcode := toNat_ofNat_code (n := 0xc0 + p.length) (by omega)
    rw [Kind.code, item_shortList (by omega) (by omega), hcode, Nat.add_sub_cancel_left]
    exact short_append ..

theorem length_minimal_pos {k : Nat} (h : 0 < k) : 0 < (Bytes.minimal k).length := by
  rw [List.length_pos_iff, Ne, Bytes.minimal_eq_nil_iff]
  omega

theorem length_minimal_word {k : Nat} (h : k < 2 ^ 64) : (Bytes.minimal k).length ≤ 8 :=
  Bytes.length_minimal_le (by simpa using h)

theorem item_header_long (rest : Bytes) (h : 56 ≤ p.length) (hlt : p.length < 2 ^ 64) :
    item.run (UInt8.ofNat (kind.code + 55 + (Bytes.minimal p.length).length) ::
      (Bytes.minimal p.length ++ (p ++ rest))) = .ok ((kind, p), rest) := by
  have hle := length_minimal_word hlt
  have hpos := length_minimal_pos (k := p.length) (by omega)
  cases kind with
  | string =>
    have hcode := toNat_ofNat_code (n := 0x80 + 55 + (Bytes.minimal p.length).length) (by omega)
    rw [Kind.code, item_longString (by omega) (by omega), hcode, Nat.add_sub_cancel_left]
    exact long_append _ _ _ _ h
  | list =>
    have hcode := toNat_ofNat_code (n := 0xc0 + 55 + (Bytes.minimal p.length).length) (by omega)
    rw [Kind.code, item_longList (by omega), hcode, Nat.add_sub_cancel_left]
    exact long_append _ _ _ _ h

theorem item_header (h : p.length < 2 ^ 64) (h1 : kind = .string → p.length ≠ 1) :
    item.Takes (header kind p.length ++ p) (kind, p) := by
  intro rest
  rw [header, List.append_assoc]
  split
  · next hs => exact item_header_short rest hs h1
  · next hl => exact item_header_long rest (Nat.not_lt.1 hl) h

theorem item_encodeBytes (h : p.length < 2 ^ 64) : item.Takes (encodeBytes p) (.string, p) := by
  unfold encodeBytes
  split
  · next x =>
    intro rest
    split
    · next hx => exact item_byte (by simpa [UInt8.lt_iff_toNat_lt] using hx)
    · next hx => exact item_singleton hx
  · next hne =>
    refine item_header h fun _ hl => ?_
    obtain ⟨x, rfl⟩ := List.length_eq_one_iff.1 hl
    exact hne x rfl

theorem item_encodeList (h : p.length < 2 ^ 64) : item.Takes (encodeList p) (.list, p) :=
  item_header h nofun

/-! ### Values -/

theorem string_takes (h : p.length < 2 ^ 64) : string.Takes (encodeBytes p) p :=
  (item_encodeBytes h).bind_nil (.pure p)

theorem list_takes (h : p.length < 2 ^ 64) : list.Takes (encodeList p) p :=
  (item_encodeList h).bind_nil (.pure p)

theorem nat_takes {k : Nat} (width : Nat) (h : k < 256 ^ width) (hw : width ≤ 8) :
    (nat width).Takes (encodeNat k) k := by
  have hlen := Bytes.length_minimal_le h
  refine (string_takes (by omega)).bind_nil ?_
  rw [if_neg (Nat.not_lt.2 hlen), if_neg (Bytes.head?_minimal k), Bytes.toNat_minimal]
  exact .pure k

theorem uint64_takes (n : UInt64) : uint64.Takes (encodeNat n.toNat) n := by
  have h := (nat_takes 8 n.toNat_lt (by decide)).map UInt64.ofNat
  rwa [UInt64.ofNat_toNat] at h

theorem uint32_takes (n : UInt32) : uint32.Takes (encodeNat n.toNat) n := by
  have h := (nat_takes 4 n.toNat_lt (by decide)).map UInt32.ofNat
  rwa [UInt32.ofNat_toNat] at h

theorem fixed_takes {n : Nat} (v : ByteVec n) (h : n < 2 ^ 64) :
    (fixed n).Takes (encodeBytes v.toList) v := by
  refine (string_takes (by rwa [v.length_toList])).bind_nil ?_
  rw [ByteVec.ofList?_toList]
  exact .pure v

theorem listOf_takes {α : Type} {each : Reader Fault α} {write : α → Bytes} {as : List α}
    (h : ∀ a ∈ as, each.Takes (write a) a) (hne : ∀ a ∈ as, write a ≠ [])
    (hlen : (as.flatMap write).length < 2 ^ 64) :
    (listOf each).Takes (encodeList (as.flatMap write)) as :=
  (list_takes hlen).bind_nil (.liftM (Takes.many h hne))

/-- The fields of a record take all of its payload, and what follows the record stays. -/
theorem record_takes {α : Type} {fields : Reader Fault α} {a : α} (h : fields.Takes p a)
    (hlen : p.length < 2 ^ 64) : (record fields).Takes (encodeList p) a := by
  intro rest
  rw [record, run_bind_of_ok (list_takes hlen rest), run_get_bind, run_set_bind,
    run_bind_of_ok (h rest), run_get_bind, if_neg (by omega)]
  rfl

/-! ### Written forms -/

theorem encodeBytes_ne_nil (b : Bytes) : encodeBytes b ≠ [] := by
  unfold encodeBytes
  split
  · split <;> simp
  · rw [header]
    split <;> simp

theorem length_header_le {k : Nat} (h : k < 2 ^ 64) : (header kind k).length ≤ 9 := by
  have hlen := length_minimal_word h
  rw [header]
  split
  · simp
  · exact Nat.succ_le_succ hlen

theorem length_encodeBytes_le (h : p.length < 2 ^ 64) : (encodeBytes p).length ≤ 9 + p.length := by
  unfold encodeBytes
  split
  · split <;> simp
  · rw [List.length_append]
    exact Nat.add_le_add_right (length_header_le h) _

theorem length_encodeNat_le {k : Nat} (h : k < 2 ^ 64) : (encodeNat k).length ≤ 17 := by
  have hle := length_minimal_word h
  have := length_encodeBytes_le (p := Bytes.minimal k) (by omega)
  rw [encodeNat]
  omega

theorem length_encodeList_le (h : p.length < 2 ^ 64) : (encodeList p).length ≤ 9 + p.length := by
  rw [encodeList, List.length_append]
  exact Nat.add_le_add_right (length_header_le h) _

theorem length_le_encodeBytes (p : Bytes) : p.length ≤ (encodeBytes p).length := by
  unfold encodeBytes
  split
  · split <;> simp
  · simp

theorem length_le_encodeList (p : Bytes) : p.length ≤ (encodeList p).length := by
  rw [encodeList, List.length_append]
  omega

theorem encodeList_ne_nil (p : Bytes) : encodeList p ≠ [] := by
  rw [encodeList, header]
  split <;> simp

/-- Only the empty list starts like the empty list. -/
theorem head?_encodeList (hne : p ≠ []) (h : p.length < 2 ^ 64) :
    (encodeList p).head? ≠ some 0xc0 := by
  have hpos := List.length_pos_iff.2 hne
  have hle := length_minimal_word h
  have hcode : UInt8.toNat 0xc0 = 0xc0 := rfl
  rw [encodeList, header]
  intro h0
  split at h0
  · have := congrArg UInt8.toNat (Option.some.inj h0)
    rw [Kind.code, toNat_ofNat_code (by omega), hcode] at this
    omega
  · have := congrArg UInt8.toNat (Option.some.inj h0)
    rw [Kind.code, toNat_ofNat_code (by omega), hcode] at this
    omega

end Rlp

end BlockAgreement
