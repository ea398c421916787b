import OceanBase.Tx.Participant

/-!
# The participants of one transaction

The participants of a transaction form a tree, the root of which is the participant the client
commits through. Mails travel along its edges. A mail once posted may be delivered any number of
times, at any later moment and in any order, or never. A participant whose clear log is durable
may be forgotten; mails to it are then answered by the orphan handlers.
-/

namespace OceanBase.Tx

/-- The participants of a transaction and the list of downstreams of each. The list of the root
holds the root itself. -/
structure CommitTree where
  members : Finset Addr
  root : Addr
  participants : Addr → List Addr
  root_mem : root ∈ participants root
  nodup : ∀ p, (participants p).Nodup
  subset : ∀ p q, q ∈ participants p → q ∈ members
  /-- a participant is in the list of one other participant only, the root in none -/
  parent_unique : ∀ p p' q, q ∈ participants p → q ≠ p → q ∈ participants p' → q ≠ p' → p = p'
  root_orphan : ∀ p, root ∈ participants p → p = root
  connected : ∀ p ∈ members, Relation.ReflTransGen (fun p q => q ∈ participants p ∧ q ≠ p) root p

namespace CommitTree

variable (T : CommitTree)

def Child (p q : Addr) : Prop := q ∈ T.participants p ∧ q ≠ p

/-- `Below p q`: `q` is in the subtree of `p`. -/
def Below : Addr → Addr → Prop := Relation.ReflTransGen T.Child

/-- Who a participant takes for its coordinator: the root itself, the others their parent. -/
def Coordinates (q p : Addr) : Prop := p = T.root ∧ q = T.root ∨ T.Child q p

variable {T} {p q r : Addr}

theorem root_mem_members : T.root ∈ T.members := T.subset _ _ T.root_mem

theorem below_root (h : p ∈ T.members) : T.Below T.root p := T.connected p h

theorem Below.cases (h : T.Below p r) : r = p ∨ ∃ q, T.Child p q ∧ T.Below q r := by
  rcases Relation.ReflTransGen.cases_head h with h | ⟨q, hq, hr⟩
  · exact .inl h.symm
  · exact .inr ⟨q, hq, hr⟩

theorem not_child_root : ¬ T.Child p T.root := fun h => h.2 (T.root_orphan p h.1).symm

theorem child_unique {p'} (h : T.Child p q) (h' : T.Child p' q) : p = p' :=
  T.parent_unique p p' q h.1 h.2 h'.1 h'.2

theorem Coordinates.eq_of_child {p'} (h : T.Coordinates q p) (h' : T.Child p' p) : q = p' := by
  rcases h with ⟨rfl, -⟩ | h
  · exact absurd h' not_child_root
  · exact child_unique h h'

end CommitTree

/-- The contexts of all participants, and which of them have been forgotten. -/
structure System where
  ctx : Addr → Ctx
  forgotten : Addr → Bool

namespace System

def set (s : System) (p : Addr) (c : Ctx) : System :=
  { s with ctx := Function.update s.ctx p c }

@[simp] theorem set_ctx_self (s : System) (p : Addr) (c : Ctx) : (s.set p c).ctx p = c := by
  simp [set]

theorem set_ctx_of_ne (s : System) {p q} (h : q ≠ p) (c : Ctx) : (s.set p c).ctx q = s.ctx q := by
  simp [set, h]

@[simp] theorem set_self (s : System) (p : Addr) : s.set p (s.ctx p) = s := by
  simp [set]

@[simp] theorem set_set (s : System) (p : Addr) (c c' : Ctx) :
    (s.set p c).set p c' = s.set p c' := by
  simp [set]

def InFlight (s : System) (m : Mail) : Prop := m ∈ (s.ctx m.src).outbox
  deriving Decidable

end System

/-- **The events of the protocol.** No event but a mail reaches a forgotten participant. -/
inductive SystemStep (T : CommitTree) : System → System → Prop
  | commit {s : System} (env : Env) (hf : s.forgotten T.root = false) :
      SystemStep T s (s.set T.root ((s.ctx T.root).commit env).2)
  | abort {s : System} (env : Env) {p} (hp : p ∈ T.members) (hf : s.forgotten p = false) :
      SystemStep T s (s.set p ((s.ctx p).twoPhaseAbort env).2)
  | deliver {s : System} (env : Env) {m} (hm : s.InFlight m) (hp : m.dst ∈ T.members)
      (hf : s.forgotten m.dst = false) :
      SystemStep T s (s.set m.dst ((s.ctx m.dst).handle env m).2)
  | orphan {s : System} {m} {t : MsgType} (hm : s.InFlight m) (hp : m.dst ∈ T.members)
      (hf : s.forgotten m.dst = true) (ht : handleOrphan m.type = some t) :
      SystemStep T s (s.set m.dst { s.ctx m.dst with
        outbox := ⟨t, m.dst, m.src⟩ :: (s.ctx m.dst).outbox })
  | applyLog {s : System} (env : Env) {p} (hp : p ∈ T.members)
      (hf : s.forgotten p = false) : SystemStep T s (s.set p ((s.ctx p).apply env).2)
  | timeout {s : System} (env : Env) {p} (hp : p ∈ T.members)
      (hf : s.forgotten p = false) : SystemStep T s (s.set p ((s.ctx p).handleTimeout env).2)
  | forget {s : System} {p} (hp : p ∈ T.members)
      (hc : (s.ctx p).downstreamState = .clear) :
      SystemStep T s { s with forgotten := Function.update s.forgotten p true }

/-- Every participant has its context from the start, at its place in the tree; it may know its
coordinator already or learn it from the first request. -/
structure System.IsInit (T : CommitTree) (s : System) : Prop where
  ctx : ∀ p, (s.ctx p).IsInit
  addr : ∀ p, (s.ctx p).addr = p
  participants : ∀ p, (s.ctx p).participants = T.participants p
  isSub2pc : ∀ p, (s.ctx p).isSub2pc = false
  coordinator : ∀ p q, (s.ctx p).coordinator = some q → T.Coordinates q p
  forgotten : ∀ p, s.forgotten p = false

/-- The cycle two phase commit of the transaction with participants `T`. -/
def twoPhaseCommit (T : CommitTree) : Machine System where
  init := System.IsInit T
  step := SystemStep T

/-! ## Durable states -/

/-- The durable outcome is commit; after the clear log it is the recorded final state. -/
def DurablyCommitted (c : Ctx) : Prop :=
  c.downstreamState = .commit ∨ c.downstreamState = .clear ∧ c.txState = .commit

def DurablyAborted (c : Ctx) : Prop :=
  c.downstreamState = .abort ∨ c.downstreamState = .clear ∧ c.txState = .abort

/-- In pre-commit or durably committed: such a participant can no longer abort. -/
def Committing (c : Ctx) : Prop := c.downstreamState = .preCommit ∨ c.txState = .commit

def Final (c : Ctx) : Prop :=
  c.downstreamState = .commit ∨ c.downstreamState = .abort ∨ c.downstreamState = .clear

variable {inc : Option Mail} {c c' : Ctx}

theorem LocalInv.not_aborted_of_committing (hi : LocalInv c) (h : Committing c) :
    ¬ DurablyAborted c := by
  have ho := hi.outcome
  rintro (hd | ⟨hd, hx⟩) <;> rw [hd] at ho
  · rcases h with h | h
    · rw [hd] at h; cases h
    · rw [h] at ho; cases ho
  · rcases h with h | h
    · rw [hd] at h; cases h
    · rw [hx] at h; cases h

theorem LocalInv.txState_of_committed (hi : LocalInv c) (h : DurablyCommitted c) :
    c.txState = .commit := by
  rcases h with h | ⟨-, h⟩
  · have ho := hi.outcome
    rw [h] at ho
    exact ho
  · exact h

theorem LocalInv.downstream_of_committing (hi : LocalInv c) (h : Committing c) :
    c.downstreamState = .preCommit ∨ c.downstreamState = .commit ∨ c.downstreamState = .clear := by
  rcases h with h | h
  · exact .inl h
  have ho := hi.outcome
  rw [h] at ho
  cases hd : c.downstreamState <;> rw [hd] at ho <;> simp_all [OutcomeRecorded]

theorem LocalInv.pending (hi : LocalInv c) {t : LogType} {rest : List LogType}
    (hq : c.logQueue = t :: rest) : Pending t c.upstreamState c.downstreamState := by
  rcases hi.queue with h | ⟨t', h, hp⟩
  · rw [hq] at h; cases h
  rw [hq] at h
  exact (List.cons.inj h).1 ▸ hp

theorem Move.committing (h : Move inc c c') (hi : LocalInv c) (hc : Committing c) :
    Committing c' := by
  cases h with
  | enterPreCommit hq hdown hs => exact .inl rfl
  | @applied t rest hq ht =>
    have hp := hi.pending hq
    have hd := hi.downstream_of_committing hc
    cases t with
    | commitInfo =>
      have hs := hi.states
      rw [hp] at hs
      rcases hs with h | h <;> simp [h] at hd
    | prepare => rcases hp.2 with h | h <;> simp [h] at hd
    | commit => exact .inr rfl
    | abort => rcases hp.2 with h | h | h <;> simp [h] at hd
    | clear =>
      refine .inr (hc.resolve_left fun h => ?_)
      rcases hp.2 with h' | h' <;> rw [h] at h' <;> cases h'
  | collect | drive | redo | submit | post | pop => exact hc

theorem Move.final (h : Move inc c c') (hi : LocalInv c) (hf : Final c) : Final c' := by
  cases h with
  | enterPreCommit hq hdown hs => simp [Final, hdown] at hf
  | @applied t rest hq ht =>
    have hp := hi.pending hq
    cases t with
    | commitInfo =>
      have hs := hi.states
      rw [hp] at hs
      rcases hs with h | h <;> simp [Final, h] at hf
    | prepare => rcases hp.2 with h | h <;> simp [Final, h] at hf
    | commit => exact .inl rfl
    | abort => exact .inr (.inl rfl)
    | clear => exact .inr (.inr rfl)
  | collect | drive | redo | submit | post | pop => exact hf

end OceanBase.Tx
