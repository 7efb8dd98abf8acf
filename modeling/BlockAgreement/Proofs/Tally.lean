import BlockAgreement.Engine.Tally
import BlockAgreement.Message.Frame
import BlockAgreement.Proofs.Certificates
import BlockAgreement.Proofs.Failures
import BlockAgreement.Proofs.Table

/-! What a tally holds at all times: votes of members for its round, under their authors, and with a
proposal only votes for its block. From this come the proofs that a tally hands on, the lock of a
prepared block and the seals of a decided one. Where its messages come from is left open: whatever
is true of all that may come from outside is true of all that is held. -/

namespace BlockAgreement

/-- What may come to a node from outside: signed statements, standing alone or inside another
message, blocks made for its own proposals, and the end of the last round while it is running. -/
structure Outside where
  prepare : Prepare → Prop
  commit : Commit → Prop
  roundChange : Signed RoundChangeStatement → Prop
  block : Block → Prop
  lastExpires : Prop

namespace Outside

/-- A message may come when the votes and round changes in it may. -/
def Admits (A : Outside) : Message → Prop
  | .proposal p => (∀ rc ∈ p.roundChanges, A.roundChange rc) ∧ ∀ m ∈ p.prepares, A.prepare m
  | .prepare m => A.prepare m
  | .commit m => A.commit m
  | .roundChange rc => A.roundChange rc.signed ∧ ∀ m ∈ rc.prepares, A.prepare m

/-- Its own votes and round changes a node may hear as well. -/
def AdmitsOwn (A : Outside) : Effect → Prop
  | .multicast (.prepare m) => A.prepare m
  | .multicast (.commit m) => A.commit m
  | .multicast (.roundChange rc) => A.roundChange rc.signed
  | _ => True

/-- A block that was made for a proposal, or checked in a message of another. -/
def Fits (A : Outside) (C : Committee) (b : Block) : Prop := A.block b ∨ b.number = C.height

end Outside

variable (S : Scheme) (C : Committee) (A : Outside)

/-- A quorum of different members sealed the block. -/
def Committee.Sealed (b : Block) (seals : List Signature) : Prop :=
  ∃ authors : List Address, seals.map (S.recover (S.digest b)) = authors.map .ok ∧
    authors.Nodup ∧ (∀ a ∈ authors, C.contains a = true) ∧ C.quorum ≤ authors.length

/-- A proposal that a node may hold in a round, its own or that of another. -/
structure Proposal.Backed (p : Proposal) : Prop where
  digest : S.digest p.block = p.digest
  fits : A.Fits C p.block
  admits : A.Admits (.proposal p)
  justified : C.checkJustification S p = .ok ()

structure Lock.Backed (l : Lock) : Prop where
  digest : S.digest l.block = l.digest
  fits : A.Fits C l.block
  admits : ∀ m ∈ l.prepares, A.prepare m
  proved : C.checkPrepares S l.prepares ⟨C.height, l.round⟩ l.digest = .ok ()

theorem exists_eq_ok_of_isOk {ε α : Type} {x : Except ε α} (h : x.isOk = true) :
    ∃ a, x = .ok a := by
  cases x with
  | error => cases h
  | ok a => exact ⟨a, rfl⟩

namespace Tally

/-- The votes that are held were sent by members, under whom they stand, for the round, and with a
proposal for its block. -/
structure Sifted (t : Tally) : Prop where
  prepares : ∀ e ∈ t.prepares.entries, C.voter S t.round e.2 = .ok e.1
  commits : ∀ e ∈ t.commits.entries, C.voter S t.round e.2 = .ok e.1
  preparesFor : ∀ p, t.proposal = some p → ∀ e ∈ t.prepares.entries,
    e.2.statement.digest = p.digest
  commitsFor : ∀ p, t.proposal = some p → ∀ e ∈ t.commits.entries,
    e.2.statement.digest = p.digest ∧ S.recover p.digest e.2.statement.blockSeal = .ok e.1

structure Backed (t : Tally) : Prop where
  height : t.round.height = C.height
  quorum : t.quorum = C.quorum
  prepares : ∀ e ∈ t.prepares.entries, C.voter S t.round e.2 = .ok e.1 ∧ A.prepare e.2
  commits : ∀ e ∈ t.commits.entries, C.voter S t.round e.2 = .ok e.1 ∧ A.commit e.2
  proposal : ∀ p, t.proposal = some p → p.round = t.round ∧ p.Backed S C A
  preparesFor : ∀ p, t.proposal = some p → ∀ e ∈ t.prepares.entries,
    e.2.statement.digest = p.digest
  commitsFor : ∀ p, t.proposal = some p → ∀ e ∈ t.commits.entries,
    e.2.statement.digest = p.digest ∧ S.recover p.digest e.2.statement.blockSeal = .ok e.1

variable {S C A} {t u : Tally} {p : Proposal}

theorem pure_ite_eq_ok {ε α : Type} {c : Bool} {a b x : α}
    (h : (pure (if c then a else b) : Except ε α) = .ok x) : x = a ∨ c = false ∧ x = b := by
  cases h
  cases c <;> simp

theorem addPrepare_cases {m : Prepare} (h : t.addPrepare S C m = .ok u) :
    ∃ a, C.voter S t.round m = .ok a ∧
      (∀ p, t.proposal = some p → m.statement.digest = p.digest) ∧
      (u = t ∨ t.prepares.contains a = false ∧ u = { t with prepares := t.prepares.insert a m }) := by
  rw [addPrepare] at h
  split at h
  · next p hp =>
    obtain ⟨a, ha, hu⟩ := bind_eq_ok_iff.1 h
    obtain ⟨hv, hd⟩ := Committee.checkPrepare_eq_ok_iff.1 ha
    exact ⟨a, hv, fun q hq => by cases hp.symm.trans hq; exact hd, pure_ite_eq_ok hu⟩
  · next hp =>
    obtain ⟨a, ha, hu⟩ := bind_eq_ok_iff.1 h
    exact ⟨a, ha, fun q hq => (by cases hp.symm.trans hq), pure_ite_eq_ok hu⟩

theorem addCommit_cases {m : Commit} (h : t.addCommit S C m = .ok u) :
    ∃ a, C.voter S t.round m = .ok a ∧
      (∀ p, t.proposal = some p → m.statement.digest = p.digest ∧
        S.recover p.digest m.statement.blockSeal = .ok a) ∧
      (u = t ∨ t.commits.contains a = false ∧ u = { t with commits := t.commits.insert a m }) := by
  rw [addCommit] at h
  split at h
  · next p hp =>
    obtain ⟨a, ha, hu⟩ := bind_eq_ok_iff.1 h
    obtain ⟨hv, hd⟩ := Committee.checkCommit_eq_ok_iff.1 ha
    exact ⟨a, hv, fun q hq => by cases hp.symm.trans hq; exact hd, pure_ite_eq_ok hu⟩
  · next hp =>
    obtain ⟨a, ha, hu⟩ := bind_eq_ok_iff.1 h
    exact ⟨a, ha, fun q hq => (by cases hp.symm.trans hq), pure_ite_eq_ok hu⟩

theorem setProposal?_eq_some (h : t.setProposal? S C p = some u) :
    t.proposal = none ∧ u = { t with
      proposal := some p
      prepares := t.prepares.filter fun _ m => (C.checkPrepare S t.round p.digest m).isOk
      commits := t.commits.filter fun _ m => (C.checkCommit S t.round p.digest m).isOk } := by
  rw [setProposal?] at h
  split at h
  · cases h
  · next hp => exact ⟨hp, (Option.some.inj h).symm⟩

/-! ### Votes keep their authors and their block -/

theorem sifted_new (round : RoundId) (quorum : Nat) : (new round quorum).Sifted S C where
  prepares := nofun
  commits := nofun
  preparesFor := nofun
  commitsFor := nofun

theorem Sifted.addPrepare {m : Prepare} (ht : t.Sifted S C) (h : t.addPrepare S C m = .ok u) :
    u.Sifted S C := by
  obtain ⟨a, ha, hd, rfl | ⟨-, rfl⟩⟩ := addPrepare_cases h
  · exact ht
  · exact { ht with
      prepares := fun e he => by
        rcases Table.mem_of_mem_insert he with rfl | he
        · exact ha
        · exact ht.prepares e he
      preparesFor := fun p hp e he => by
        rcases Table.mem_of_mem_insert he with rfl | he
        · exact hd p hp
        · exact ht.preparesFor p hp e he }

theorem Sifted.addCommit {m : Commit} (ht : t.Sifted S C) (h : t.addCommit S C m = .ok u) :
    u.Sifted S C := by
  obtain ⟨a, ha, hd, rfl | ⟨-, rfl⟩⟩ := addCommit_cases h
  · exact ht
  · exact { ht with
      commits := fun e he => by
        rcases Table.mem_of_mem_insert he with rfl | he
        · exact ha
        · exact ht.commits e he
      commitsFor := fun p hp e he => by
        rcases Table.mem_of_mem_insert he with rfl | he
        · exact hd p hp
        · exact ht.commitsFor p hp e he }

/-- What is left was checked again, now against the proposal. -/
theorem Sifted.setProposal? (ht : t.Sifted S C) (h : t.setProposal? S C p = some u) :
    u.Sifted S C := by
  obtain ⟨-, rfl⟩ := setProposal?_eq_some h
  constructor
  case prepares => exact fun e he => ht.prepares e (Table.mem_filter.1 he).1
  case commits => exact fun e he => ht.commits e (Table.mem_filter.1 he).1
  case preparesFor =>
    rintro _ ⟨⟩ e he
    obtain ⟨a, ha⟩ := exists_eq_ok_of_isOk (Table.mem_filter.1 he).2
    exact (Committee.checkPrepare_eq_ok_iff.1 ha).2
  case commitsFor =>
    rintro _ ⟨⟩ e he
    obtain ⟨he, hok⟩ := Table.mem_filter.1 he
    obtain ⟨a, ha⟩ := exists_eq_ok_of_isOk hok
    obtain ⟨hv, hd, hs⟩ := Committee.checkCommit_eq_ok_iff.1 ha
    cases (ht.commits e he).symm.trans hv
    exact ⟨hd, hs⟩

theorem Backed.sifted (ht : t.Backed S C A) : t.Sifted S C where
  prepares e he := (ht.prepares e he).1
  commits e he := (ht.commits e he).1
  preparesFor := ht.preparesFor
  commitsFor := ht.commitsFor

theorem backed_new (n : UInt32) : (new ⟨C.height, n⟩ C.quorum).Backed S C A where
  height := rfl
  quorum := rfl
  prepares := nofun
  commits := nofun
  proposal := nofun
  preparesFor := nofun
  commitsFor := nofun

theorem Backed.addPrepare {m : Prepare} (ht : t.Backed S C A) (hm : A.prepare m)
    (h : t.addPrepare S C m = .ok u) : u.Backed S C A := by
  have hu := ht.sifted.addPrepare h
  obtain ⟨a, -, -, rfl | ⟨-, rfl⟩⟩ := addPrepare_cases h
  · exact ht
  · exact { ht with
      prepares := fun e he => ⟨hu.prepares e he, by
        rcases Table.mem_of_mem_insert he with rfl | he
        · exact hm
        · exact (ht.prepares e he).2⟩
      preparesFor := hu.preparesFor }

theorem Backed.addCommit {m : Commit} (ht : t.Backed S C A) (hm : A.commit m)
    (h : t.addCommit S C m = .ok u) : u.Backed S C A := by
  have hu := ht.sifted.addCommit h
  obtain ⟨a, -, -, rfl | ⟨-, rfl⟩⟩ := addCommit_cases h
  · exact ht
  · exact { ht with
      commits := fun e he => ⟨hu.commits e he, by
        rcases Table.mem_of_mem_insert he with rfl | he
        · exact hm
        · exact (ht.commits e he).2⟩
      commitsFor := hu.commitsFor }

theorem Backed.setProposal? (ht : t.Backed S C A) (hr : p.round = t.round)
    (hp : p.Backed S C A) (h : t.setProposal? S C p = some u) : u.Backed S C A := by
  have hu := ht.sifted.setProposal? h
  obtain ⟨-, rfl⟩ := setProposal?_eq_some h
  exact { ht with
    prepares := fun e he => ht.prepares e (Table.mem_filter.1 he).1
    commits := fun e he => ht.commits e (Table.mem_filter.1 he).1
    proposal := by rintro _ ⟨⟩; exact ⟨hr, hp⟩
    preparesFor := hu.preparesFor
    commitsFor := hu.commitsFor }

/-! ### Votes are never lost once there is a proposal -/

theorem isPrepared_iff : t.isPrepared = true ↔
    (∃ p, t.proposal = some p) ∧ t.quorum ≤ t.prepares.size := by
  simp [isPrepared, Option.isSome_iff_exists]

theorem isCommitted_iff : t.isCommitted = true ↔
    (∃ p, t.proposal = some p) ∧ t.quorum ≤ t.commits.size := by
  simp [isCommitted, Option.isSome_iff_exists]

/-- The tally goes on with the votes of another and its proposal, if that had one. -/
structure Extends (u t : Tally) : Prop where
  round : u.round = t.round
  proposal : ∀ p, t.proposal = some p → u.proposal = some p
  isPrepared : t.isPrepared = true → u.isPrepared = true
  isCommitted : t.isCommitted = true → u.isCommitted = true

theorem Extends.refl (t : Tally) : t.Extends t := ⟨rfl, fun _ => id, id, id⟩

theorem Extends.trans {v : Tally} (h : v.Extends u) (h' : u.Extends t) : v.Extends t where
  round := h.round.trans h'.round
  proposal p := h.proposal p ∘ h'.proposal p
  isPrepared := h.isPrepared ∘ h'.isPrepared
  isCommitted := h.isCommitted ∘ h'.isCommitted

theorem setProposal?_extends (h : t.setProposal? S C p = some u) :
    t.proposal = none ∧ u.Extends t ∧ u.proposal = some p := by
  obtain ⟨hn, rfl⟩ := setProposal?_eq_some h
  exact ⟨hn, ⟨rfl, by simp [hn], by simp [isPrepared, hn], by simp [isCommitted, hn]⟩, rfl⟩

theorem addPrepare_extends {m : Prepare} (h : t.addPrepare S C m = .ok u) :
    u.Extends t ∧ u.proposal = t.proposal := by
  obtain ⟨a, -, -, rfl | ⟨-, rfl⟩⟩ := addPrepare_cases h
  · exact ⟨.refl u, rfl⟩
  · refine ⟨⟨rfl, fun _ => id, fun hp => ?_, id⟩, rfl⟩
    rw [isPrepared_iff] at hp ⊢
    exact ⟨hp.1, Nat.le_trans hp.2 (Table.size_le_insert ..)⟩

theorem addCommit_extends {m : Commit} (h : t.addCommit S C m = .ok u) :
    u.Extends t ∧ u.proposal = t.proposal := by
  obtain ⟨a, -, -, rfl | ⟨-, rfl⟩⟩ := addCommit_cases h
  · exact ⟨.refl u, rfl⟩
  · refine ⟨⟨rfl, fun _ => id, id, fun hp => ?_⟩, rfl⟩
    rw [isCommitted_iff] at hp ⊢
    exact ⟨hp.1, Nat.le_trans hp.2 (Table.size_le_insert ..)⟩

theorem quorum_of_addPrepare {m : Prepare} (h : t.addPrepare S C m = .ok u) :
    u.quorum = t.quorum := by
  obtain ⟨a, -, -, rfl | ⟨-, rfl⟩⟩ := addPrepare_cases h <;> rfl

theorem quorum_of_addCommit {m : Commit} (h : t.addCommit S C m = .ok u) :
    u.quorum = t.quorum := by
  obtain ⟨a, -, -, rfl | ⟨-, rfl⟩⟩ := addCommit_cases h <;> rfl

theorem setProposal?_keeps (h : t.setProposal? S C p = some u) :
    u.round = t.round ∧ u.quorum = t.quorum ∧ u.proposal = some p := by
  obtain ⟨-, rfl⟩ := setProposal?_eq_some h
  exact ⟨rfl, rfl, rfl⟩

/-! ### What a prepared and a decided block come with -/

theorem quorate_values {P : Type} [Statement P] {round : RoundId} {ms : Table Address (Signed P)}
    (hms : ∀ e ∈ ms.entries, C.voter S round e.2 = .ok e.1) (hq : C.quorum ≤ ms.size) :
    C.Quorate S ms.values := by
  refine ⟨ms.keys, ?_, ms.nodup_keys, by rwa [Table.length_keys]⟩
  simp only [Table.values, Table.keys, List.map_map]
  exact List.map_congr_left fun e he => (Committee.voter_eq_ok_iff.1 (hms e he)).1

theorem Backed.quorate_commits (ht : t.Backed S C A) (h : t.isCommitted = true) :
    C.Quorate S t.commits.values :=
  quorate_values (fun e he => (ht.commits e he).1) (ht.quorum ▸ (isCommitted_iff.1 h).2)

theorem exists_lock (h : t.isPrepared = true) :
    ∃ l p, t.lock? = some l ∧ l.round = t.round.number ∧ t.proposal = some p ∧
      l.digest = p.digest := by
  obtain ⟨p, hp⟩ := (isPrepared_iff.1 h).1
  rw [Tally.lock?, if_pos h, hp]
  exact ⟨_, p, rfl, rfl, rfl, rfl⟩

theorem lock?_eq_some {l : Lock} (h : t.lock? = some l) : t.isPrepared = true ∧
    ∃ p, t.proposal = some p ∧ l = ⟨p.block, p.digest, t.prepares.values, t.round.number⟩ := by
  rw [Tally.lock?] at h
  split at h
  · next hprepared =>
    obtain ⟨p, hp, hl⟩ := Option.map_eq_some_iff.1 h
    exact ⟨hprepared, p, hp, hl.symm⟩
  · cases h

/-- Prepares of a quorum prove that the block was prepared. -/
theorem Sifted.checkPrepares_lock? (ht : t.Sifted S C) (hq : C.quorum ≤ t.quorum) {l : Lock}
    (h : t.lock? = some l) : C.checkPrepares S l.prepares t.round l.digest = .ok () := by
  obtain ⟨hprepared, p, hp, rfl⟩ := lock?_eq_some h
  refine Committee.checkPrepares_eq_ok_iff.2 ⟨fun m hm => ?_, quorate_values ht.prepares
    (Nat.le_trans hq (isPrepared_iff.1 hprepared).2)⟩
  obtain ⟨e, he, rfl⟩ := List.mem_map.1 hm
  have hround := (Committee.voter_eq_ok_iff.1 (ht.prepares e he)).2
  have hdigest := ht.preparesFor p hp e he
  rw [← hdigest, ← hround]
  rfl

/-- The lock of a prepared block proves that it was prepared. -/
theorem Backed.lock? (ht : t.Backed S C A) {l : Lock} (h : t.lock? = some l) :
    l.Backed S C A ∧ l.round = t.round.number ∧ ∃ p, t.proposal = some p ∧ l.digest = p.digest := by
  have hproved := ht.sifted.checkPrepares_lock? (Nat.le_of_eq ht.quorum.symm) h
  obtain ⟨-, p, hp, rfl⟩ := lock?_eq_some h
  obtain ⟨-, hb⟩ := ht.proposal p hp
  refine ⟨⟨hb.digest, hb.fits, fun m hm => ?_, ?_⟩, rfl, p, hp, rfl⟩
  · obtain ⟨e, he, rfl⟩ := List.mem_map.1 hm
    exact (ht.prepares e he).2
  · rw [← ht.height]
    exact hproved

theorem decision?_eq_some {b : Block} {seals : List Signature}
    (h : t.decision? = some (b, seals)) : t.isCommitted = true ∧
      ∃ p, t.proposal = some p ∧ b = p.block ∧
        seals = t.commits.values.map (·.statement.blockSeal) := by
  rw [decision?] at h
  split at h
  · next hc =>
    obtain ⟨p, hp, hb⟩ := Option.map_eq_some_iff.1 h
    cases hb
    exact ⟨hc, p, hp, rfl, rfl⟩
  · cases h

theorem Backed.sealed (ht : t.Backed S C A) {b : Block} {seals : List Signature}
    (h : t.decision? = some (b, seals)) : C.Sealed S b seals := by
  obtain ⟨hc, p, hp, rfl, rfl⟩ := decision?_eq_some h
  refine ⟨t.commits.keys, ?_, t.commits.nodup_keys, ?_, ?_⟩
  · rw [((ht.proposal p hp).2).digest]
    simp only [Table.values, Table.keys, List.map_map]
    exact List.map_congr_left fun e he => (ht.commitsFor p hp e he).2
  · intro a ha
    obtain ⟨e, he, rfl⟩ := List.mem_map.1 ha
    have hv := (Committee.voter_eq_ok_iff.1 (ht.commits e he).1).1
    exact (Committee.author_eq_ok_iff.1 hv).2
  · rw [Table.length_keys, ← ht.quorum]
    exact (isCommitted_iff.1 hc).2

end Tally

end BlockAgreement
