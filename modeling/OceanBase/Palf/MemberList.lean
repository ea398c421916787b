import OceanBase.Palf.Define

/-!
# Member lists and learner lists

`ObMemberList` keeps at most seven members, ordered by address and without two members of one
address. The learner lists (`GlobalLearnerList`) are longer and compare whole members, so one
address may occur in them twice. Both reject members with an invalid address.

## Main results

* `mem_addMember`, `length_addMember`, `mem_removeServer`, `length_removeServer`: what the
  changes of a member list do to its members
-/

namespace OceanBase.Palf

open List

def invalidTimestamp : ℤ := -1

/-! ## Members -/

/-- `ObMember`; two members are equal if all three fields are. -/
structure ObMember where
  server : Addr
  timestamp : ℤ
  flag : BitVec 64
  deriving DecidableEq

namespace ObMember

def ofServer (server : Addr) (timestamp : ℤ) : ObMember := ⟨server, timestamp, 0⟩

/-- `ObMember()`, the member that `reset` leaves behind. -/
def empty : ObMember := ofServer 0 invalidTimestamp

/-- The timestamp of a valid member may be invalid. -/
def isValid (m : ObMember) : Prop := m.server.isValid
  deriving Decidable

/-- Clears `MIGRATING_FLAG_BIT`, the bit of value two. -/
def resetMigrating (m : ObMember) : ObMember :=
  { m with flag := m.flag &&& ~~~2#64 }

end ObMember

/-! ## Member lists -/

def obMaxMemberNumber : ℕ := 7

structure ObMemberList where
  members : List ObMember
  valid : ∀ m ∈ members, m.isValid
  nodup : (members.map ObMember.server).Nodup
  length_le : members.length ≤ obMaxMemberNumber

namespace ObMemberList

variable {l l' : ObMemberList} {m : ObMember} {a : Addr}

/-- The addresses of the members, in the order of `get_server_by_index`. -/
def servers (l : ObMemberList) : List Addr := l.members.map ObMember.server

def memberNumber (l : ObMemberList) : ℕ := l.members.length

@[simp] theorem length_servers (l : ObMemberList) : l.servers.length = l.memberNumber :=
  length_map _

def empty : ObMemberList := ⟨[], by simp, by simp, by simp⟩

def isValid (l : ObMemberList) : Prop := 0 < l.memberNumber
  deriving Decidable

def containsServer (l : ObMemberList) (a : Addr) : Prop := a ∈ l.servers
  deriving Decidable

def contains (l : ObMemberList) (m : ObMember) : Prop := m ∈ l.members
  deriving Decidable

/-- As many members, and all addresses of `l` in `l'`. -/
def memberAddrEqual (l l' : ObMemberList) : Prop :=
  l.memberNumber = l'.memberNumber ∧ ∀ a ∈ l.servers, l'.containsServer a
  deriving Decidable

/-- The new member goes in front of the first one with a larger address. -/
def addMember (l : ObMemberList) (m : ObMember) : Except ObErr ObMemberList :=
  if hm : ¬ m.isValid then .error .invalidArgument
  else if hlen : obMaxMemberNumber ≤ l.memberNumber then .error .sizeOverflow
  else if hex : l.containsServer m.server then .error .entryExist
  else .ok
    { members := l.members.orderedInsert (fun a b => a.server < b.server) m
      valid := by
        intro x hx
        rcases (mem_orderedInsert _).mp hx with rfl | hx
        · exact not_not.mp hm
        · exact l.valid x hx
      nodup := by
        have hperm := (perm_orderedInsert (fun a b : ObMember => a.server < b.server) m
          l.members).map ObMember.server
        rw [hperm.nodup_iff, map_cons, nodup_cons]
        exact ⟨hex, l.nodup⟩
      length_le := by
        rw [orderedInsert_length]
        exact Nat.lt_of_not_le hlen }

section

variable (h : l.addMember m = .ok l')
include h

theorem perm_addMember : l'.members.Perm (m :: l.members) := by
  unfold addMember at h
  split_ifs at h
  cases h
  exact perm_orderedInsert _ _ _

theorem mem_addMember :
    a ∈ l'.servers ↔ a = m.server ∨ a ∈ l.servers := by
  rw [servers, ((perm_addMember h).map ObMember.server).mem_iff, map_cons, mem_cons, servers]

theorem length_addMember : l'.memberNumber = l.memberNumber + 1 :=
  (perm_addMember h).length_eq

end

def removeServer (l : ObMemberList) (a : Addr) : Except ObErr ObMemberList :=
  if ¬ a.isValid then .error .invalidArgument
  else if ¬ l.containsServer a then .error .entryNotExist
  else .ok
    { members := l.members.eraseP (·.server = a)
      valid := fun x hx => l.valid x (mem_of_mem_eraseP hx)
      nodup := l.nodup.sublist ((eraseP_sublist).map _)
      length_le := (eraseP_sublist).length_le.trans l.length_le }

section

variable (h : l.removeServer a = .ok l')
include h

theorem members_removeServer :
    l.containsServer a ∧ l'.members = l.members.eraseP (·.server = a) := by
  unfold removeServer at h
  split_ifs at h with ha hc
  cases h
  exact ⟨hc, rfl⟩

theorem mem_removeServer {b} (hb : b ∈ l'.servers) : b ∈ l.servers := by
  rw [servers, (members_removeServer h).2] at hb
  exact (eraseP_sublist.map _).subset hb

theorem not_containsServer_removeServer : ¬ l'.containsServer a := by
  have hs : l'.servers = l.servers.erase a := by
    rw [servers, servers, (members_removeServer h).2, erase_eq_eraseP', eraseP_map]
    rfl
  rw [containsServer, hs]
  exact l.nodup.not_mem_erase

theorem mem_of_removeServer {b} (hb : b ∈ l.servers) (hne : b ≠ a) : b ∈ l'.servers := by
  obtain ⟨m, hm, rfl⟩ := mem_map.mp hb
  rw [servers, (members_removeServer h).2]
  exact mem_map_of_mem ((mem_eraseP_of_neg (by simpa using hne)).mpr hm)

theorem length_removeServer : l.memberNumber = l'.memberNumber + 1 := by
  obtain ⟨hc, hl⟩ := members_removeServer h
  obtain ⟨m, hm, rfl⟩ := mem_map.mp hc
  have hpos := length_pos_of_mem hm
  rw [memberNumber, memberNumber, hl, length_eraseP_of_mem hm (by simp)]
  omega

end

end ObMemberList

def trioList : ObMemberList :=
  ⟨[.ofServer 1 0, .ofServer 2 0, .ofServer 3 0], by decide, by decide, by decide⟩

/-! ## Learner lists -/

def obMaxGlobalLearnerNumber : ℕ := 2000

structure LearnerList where
  learners : List ObMember
  valid : ∀ m ∈ learners, m.isValid
  length_le : learners.length ≤ obMaxGlobalLearnerNumber

namespace LearnerList

variable {l l' : LearnerList} {m : ObMember}

def servers (l : LearnerList) : List Addr := l.learners.map ObMember.server

def memberNumber (l : LearnerList) : ℕ := l.learners.length

def empty : LearnerList := ⟨[], by simp, by simp⟩

/-- `contains(learner)`; an invalid learner is in no list. -/
def contains (l : LearnerList) (m : ObMember) : Prop := m ∈ l.learners
  deriving Decidable

def addLearner (l : LearnerList) (m : ObMember) : Except ObErr LearnerList :=
  if hm : ¬ m.isValid then .error .invalidArgument
  else if hlen : obMaxGlobalLearnerNumber ≤ l.memberNumber then .error .sizeOverflow
  else if l.contains m then .error .entryExist
  else .ok
    { learners := l.learners.orderedInsert (fun a b => a.server < b.server) m
      valid := by
        intro x hx
        rcases (mem_orderedInsert _).mp hx with rfl | hx
        · exact not_not.mp hm
        · exact l.valid x hx
      length_le := by
        rw [orderedInsert_length]
        exact Nat.lt_of_not_le hlen }

def containsServer (l : LearnerList) (a : Addr) : Prop := a ∈ l.servers
  deriving Decidable

theorem perm_addLearner (h : l.addLearner m = .ok l') : l'.learners.Perm (m :: l.learners) := by
  unfold addLearner at h
  split_ifs at h
  cases h
  exact perm_orderedInsert _ _ _

/-- `append`: adds the learners one by one and stops at the first error. -/
def append (l : LearnerList) (l' : LearnerList) : Except ObErr LearnerList :=
  l'.learners.foldlM addLearner l

def removeLearner (l : LearnerList) (m : ObMember) : Except ObErr LearnerList :=
  if ¬ m.isValid then .error .invalidArgument
  else if ¬ l.contains m then .error .entryNotExist
  else .ok
    { learners := l.learners.erase m
      valid := fun x hx => l.valid x (mem_of_mem_erase hx)
      length_le := (erase_sublist).length_le.trans l.length_le }

end LearnerList

end OceanBase.Palf
