import BlockAgreement.Bytes

/-! Tables sorted by key. Keys are compared by a rank, a number that tells them apart, and the
entries stand in the order of their ranks, so two tables with the same look-ups are equal. -/

namespace BlockAgreement

/-- Keys with a number of their own. -/
class Ranked (κ : Type) where
  rank : κ → Nat
  rank_injective {a b : κ} : rank a = rank b → a = b

export Ranked (rank rank_injective)

instance : Ranked UInt32 := ⟨UInt32.toNat, UInt32.toNat_inj.1⟩

instance : Ranked UInt64 := ⟨UInt64.toNat, UInt64.toNat_inj.1⟩

instance {n : Nat} : Ranked (ByteVec n) where
  rank := ByteVec.toNat
  rank_injective := ByteVec.toNat_injective

structure Table (κ α : Type) [Ranked κ] where
  entries : List (κ × α)
  sorted : entries.Pairwise fun a b => rank a.1 < rank b.1
deriving DecidableEq

namespace Table

variable {κ α : Type} [Ranked κ]

def empty : Table κ α := ⟨[], .nil⟩

instance : Inhabited (Table κ α) := ⟨empty⟩

def size (t : Table κ α) : Nat := t.entries.length

def keys (t : Table κ α) : List κ := t.entries.map (·.1)

def values (t : Table κ α) : List α := t.entries.map (·.2)

def lookup (k : κ) : List (κ × α) → Option α
  | [] => none
  | e :: es => if rank e.1 = rank k then some e.2 else lookup k es

def find? (t : Table κ α) (k : κ) : Option α := lookup k t.entries

def contains (t : Table κ α) (k : κ) : Bool := (t.find? k).isSome

/-- Puts an entry at its place, in the stead of one with the same key. -/
def insertEntry (k : κ) (a : α) : List (κ × α) → List (κ × α)
  | [] => [(k, a)]
  | e :: es =>
    if rank k < rank e.1 then (k, a) :: e :: es
    else if rank e.1 < rank k then e :: insertEntry k a es
    else (k, a) :: es

theorem mem_insertEntry {k : κ} {a : α} {x : κ × α} {es : List (κ × α)} :
    x ∈ insertEntry k a es → x = (k, a) ∨ x ∈ es := by
  induction es with
  | nil => simp [insertEntry]
  | cons e es ih => rw [insertEntry]; grind

theorem sorted_insertEntry (k : κ) (a : α) {es : List (κ × α)}
    (h : es.Pairwise fun a b => rank a.1 < rank b.1) :
    (insertEntry k a es).Pairwise fun a b => rank a.1 < rank b.1 := by
  induction es with
  | nil => simp [insertEntry]
  | cons e es ih =>
    obtain ⟨he, hs⟩ := List.pairwise_cons.1 h
    rw [insertEntry]
    split
    · next hk => exact h.cons fun x hx => (List.mem_cons.1 hx).elim (· ▸ hk) fun hx =>
        Nat.lt_trans hk (he x hx)
    · split
      · next hk => exact (ih hs).cons fun x hx => (mem_insertEntry hx).elim (· ▸ hk) (he x)
      · next h₁ h₂ => exact hs.cons fun x hx => by have := he x hx; simp only; omega

def insert (t : Table κ α) (k : κ) (a : α) : Table κ α :=
  ⟨insertEntry k a t.entries, sorted_insertEntry k a t.sorted⟩

def filter (t : Table κ α) (keep : κ → α → Bool) : Table κ α :=
  ⟨t.entries.filter fun e => keep e.1 e.2, t.sorted.sublist List.filter_sublist⟩

def erase (t : Table κ α) (k : κ) : Table κ α := t.filter fun k' _ => rank k' != rank k

@[simp] theorem find?_empty (k : κ) : (empty : Table κ α).find? k = none := rfl

theorem find?_insert [DecidableEq κ] (t : Table κ α) (k k' : κ) (a : α) :
    (t.insert k a).find? k' = if k' = k then some a else t.find? k' := by
  have hr : rank k = rank k' ↔ k' = k := ⟨fun h => (rank_injective h).symm, (· ▸ rfl)⟩
  obtain ⟨es, hs⟩ := t
  simp only [find?, insert]
  clear hs
  induction es with
  | nil => grind [insertEntry, lookup]
  | cons e es ih => rw [insertEntry]; grind [lookup]

theorem lookup_eq_some_iff {k : κ} {a : α} {es : List (κ × α)}
    (h : es.Pairwise fun a b => rank a.1 < rank b.1) : lookup k es = some a ↔ (k, a) ∈ es := by
  induction es with
  | nil => simp [lookup]
  | cons e es ih =>
    obtain ⟨he, hs⟩ := List.pairwise_cons.1 h
    rw [lookup, List.mem_cons]
    split
    · next hk =>
      have : (k, a) ∉ es := fun hm => by have := he _ hm; simp only at this; omega
      rw [← rank_injective hk]
      grind
    · next hk => rw [ih hs]; grind

theorem find?_eq_some_iff {t : Table κ α} {k : κ} {a : α} :
    t.find? k = some a ↔ (k, a) ∈ t.entries :=
  lookup_eq_some_iff t.sorted

theorem ext_find? {t u : Table κ α} (h : ∀ k, t.find? k = u.find? k) : t = u := by
  have hm : ∀ x, x ∈ t.entries ↔ x ∈ u.entries := fun x => by
    rw [← find?_eq_some_iff, ← find?_eq_some_iff, h]
  obtain ⟨es, hs⟩ := t
  obtain ⟨fs, ht⟩ := u
  have key : es = fs := by
    clear h
    simp only at hm
    induction es generalizing fs with
    | nil => exact (List.eq_nil_iff_forall_not_mem.2 fun x hx => by simpa using (hm x).2 hx).symm
    | cons e es ih =>
      obtain _ | ⟨f, fs⟩ := fs
      · simpa using (hm e).1
      obtain ⟨he, hs⟩ := List.pairwise_cons.1 hs
      obtain ⟨hf, hfs⟩ := List.pairwise_cons.1 ht
      have hef : e = f := by
        have h₁ := (hm e).1 (List.mem_cons_self ..)
        have h₂ := (hm f).2 (List.mem_cons_self ..)
        obtain h₁ | h₁ := List.mem_cons.1 h₁
        · exact h₁
        obtain h₂ | h₂ := List.mem_cons.1 h₂
        · exact h₂.symm
        exact absurd (hf _ h₁) (Nat.lt_asymm (he _ h₂))
      subst hef
      rw [ih hs fs hfs fun x => ?_]
      have := hm x
      simp only [List.mem_cons] at this
      refine ⟨fun hx => (this.1 (.inr hx)).resolve_left fun hxe => ?_,
        fun hx => (this.2 (.inr hx)).resolve_left fun hxe => ?_⟩
      · exact Nat.lt_irrefl _ (hxe ▸ he x hx)
      · exact Nat.lt_irrefl _ (hxe ▸ hf x hx)
  subst key
  rfl

end Table

end BlockAgreement
