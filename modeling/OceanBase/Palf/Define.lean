import Mathlib

/-!
# Proposal ids and config versions

The identifiers that the modules of the log service share. Proposal ids are `int64_t` in the
source, with `INT64_MAX` for an invalid one.
-/

namespace OceanBase.Palf

/-- `ObAddr`; only validity, equality and the order matter. -/
abbrev Addr := ℕ

/-- `ObAddr::is_valid`; zero stands for the address that has not been set. -/
def Addr.isValid (a : Addr) : Prop := a ≠ 0
  deriving Decidable

/-- `LSN`, a 64-bit position in the log that is compared by value. -/
abbrev LSN := Fin (2 ^ 64)

instance neZeroTwoPow64 : NeZero (2 ^ 64) := ⟨by decide⟩

/-- `LOG_INVALID_LSN_VAL`, which is `UINT64_MAX`. -/
def invalidLsn : LSN := Fin.last _

def palfInitialLsn : LSN := 0

theorem le_invalidLsn (x : LSN) : x ≤ invalidLsn := Fin.le_last x

theorem palfInitialLsn_le (x : LSN) : palfInitialLsn ≤ x := Fin.zero_le x

inductive ObErr
  | invalidArgument | errUnexpected | notInit | notSupported | sizeOverflow | eagain
  | entryExist | entryNotExist | itemNotMatch | stateNotMatch | notAllowRemovingLeader
  | tryLockConfigChangeConflict
  deriving DecidableEq

/-- `INVALID_PROPOSAL_ID`, the largest `int64_t`. -/
def invalidProposalId : ℤ := 2 ^ 63 - 1

/-- `max_proposal_id`: an invalid proposal id gives way to any other. -/
def maxProposalId (a b : ℤ) : ℤ :=
  if a = invalidProposalId then b else if b = invalidProposalId then a else max a b

theorem bind_eq_ok {ε α β : Type} {x} {f : α → Except ε β} {b} :
    x >>= f = .ok b ↔ ∃ a, x = .ok a ∧ f a = .ok b := by
  cases x <;> simp [bind, Except.bind]

structure LogConfigVersion where
  proposalId : ℤ
  configSeq : ℤ
  deriving DecidableEq

namespace LogConfigVersion

variable (v w : LogConfigVersion)

def isValid : Prop := v.proposalId ≠ invalidProposalId ∧ 0 ≤ v.configSeq
  deriving Decidable

/-- `operator<`: an invalid version is below every valid one and above none. -/
def lt : Prop :=
  if v.isValid ∧ w.isValid then
    v.proposalId < w.proposalId ∨ v.proposalId = w.proposalId ∧ v.configSeq < w.configSeq
  else w.isValid

instance : LT LogConfigVersion := ⟨lt⟩
instance : Decidable (v < w) := inferInstanceAs (Decidable (ite _ _ _))

/-- `inc_update_version`: the proposal id may stay or grow, the sequence number grows by one. -/
def incUpdateVersion (proposalId : ℤ) : Except ObErr LogConfigVersion :=
  if v.proposalId = invalidProposalId ∨ v.configSeq < 0 then .error .notInit
  else if proposalId = invalidProposalId ∨ proposalId < v.proposalId then .error .invalidArgument
  else .ok ⟨proposalId, v.configSeq + 1⟩

variable {v w}

theorem isValid_of_incUpdateVersion {proposalId}
    (h : v.incUpdateVersion proposalId = .ok w) : w.isValid := by
  unfold incUpdateVersion at h
  split_ifs at h with hinit harg
  cases h
  refine ⟨fun hp => harg (.inl hp), ?_⟩
  show 0 ≤ v.configSeq + 1
  omega

theorem lt_of_incUpdateVersion {proposalId} (h : v.incUpdateVersion proposalId = .ok w) :
    v < w := by
  have hw := isValid_of_incUpdateVersion h
  unfold incUpdateVersion at h
  split_ifs at h with hinit harg
  cases h
  have hv : v.isValid := ⟨fun hp => hinit (.inl hp), by omega⟩
  show lt _ _
  rw [lt, if_pos ⟨hv, hw⟩]
  show v.proposalId < proposalId ∨ v.proposalId = proposalId ∧ v.configSeq < v.configSeq + 1
  omega

end LogConfigVersion

end OceanBase.Palf
