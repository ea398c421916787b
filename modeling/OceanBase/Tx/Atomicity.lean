import OceanBase.Tx.System

/-!
# Atomic commitment and forgetting safety

The invariant of the protocol relates every mail in flight and every collected response to the
durable states of a whole subtree:

* a pre-commit response speaks for a subtree all of which is committing, and a committing
  participant can no longer abort;
* a commit or abort response speaks for a subtree all of which has a durable outcome;
* a participant in the commit state, or a commit request, means that everyone is committing;
* a participant in the clear state, or a clear request, means that everyone's outcome is durable.

Nothing is asked of prepare responses: a stale one can let a participant enter pre-commit too
early, but the responses that lead on to commit are given by durable states only.

## Main results

* `atomic_commitment`, `forgetting_safety`
-/

namespace OceanBase.Tx

open Tx.System SystemStep CommitTree Option Finset Ctx

variable {T : CommitTree} {s : System} {p q : Addr} {inc : Option Mail} {c' : Ctx}

/-! ## The invariant -/

section

variable (T : CommitTree)

def SubtreeCommitting (s : System) (p : Addr) : Prop :=
  ∀ r, T.Below p r → Committing (s.ctx r)

def SubtreeFinal (s : System) (p : Addr) : Prop :=
  ∀ r, T.Below p r → Final (s.ctx r)

/-- What a mail in flight says about the durable states. -/
def MailMeans (s : System) (m : Mail) : Prop :=
  match m.type with
  | .preCommitResp => SubtreeCommitting T s m.src
  | .commitResp | .abortResp => SubtreeFinal T s m.src
  | .commitReq => SubtreeCommitting T s T.root
  | .clearReq => SubtreeFinal T s T.root
  | _ => True

/-- Requests travel down an edge, responses up. -/
def MailEdge (m : Mail) : Prop :=
  if m.type.is2pcRequestMsg then T.Child m.src m.dst else T.Child m.dst m.src

/-- What a collected response of a downstream says in an in-memory state. -/
def CollectedMeans (s : System) (u : ObTxState) (q : Addr) : Prop :=
  (u = .preCommit → SubtreeCommitting T s q) ∧ (u = .commit ∨ u = .abort → SubtreeFinal T s q)

end

/-- **The invariant of the protocol.** -/
structure SystemInv (T : CommitTree) (s : System) : Prop where
  addr : ∀ p, (s.ctx p).addr = p
  participants : ∀ p, (s.ctx p).participants = T.participants p
  coordinator : ∀ p q, (s.ctx p).coordinator = some q → T.Coordinates q p
  states : ∀ p, LocalInv (s.ctx p)
  mail : ∀ p, ∀ m ∈ (s.ctx p).outbox, m.src = p ∧ MailEdge T m ∧ MailMeans T s m
  collected : ∀ p, ∀ i ∈ (s.ctx p).collected, some i ≠ (s.ctx p).getSelfId ∧
    ∃ q, (s.ctx p).participants[i]? = some q ∧ CollectedMeans T s (s.ctx p).upstreamState q
  commit : ∀ p, (s.ctx p).upstreamState = .commit ∨ (s.ctx p).txState = .commit →
    SubtreeCommitting T s T.root
  clear : ∀ p, (s.ctx p).upstreamState = .clear → SubtreeFinal T s T.root
  forgotten : ∀ p, s.forgotten p = true → (s.ctx p).downstreamState = .clear

/-! ## Replacing one context

The invariant speaks of durable states only through two facts that no move undoes, so what was
known of the other participants stays known. -/

section Replace

/-- The new context of `p` keeps what the invariant relies on. -/
structure Extends (s : System) (p : Addr) (c' : Ctx) : Prop where
  addr : c'.addr = (s.ctx p).addr
  participants : c'.participants = (s.ctx p).participants
  states : LocalInv c'
  committing : Committing (s.ctx p) → Committing c'
  final : Final (s.ctx p) → Final c'

/-- What holds of the new context, and of every old one, holds of all. -/
theorem forall_set {P : Addr → Ctx → Prop} (hp : P p c') (h : ∀ r, P r (s.ctx r)) (r : Addr) :
    P r ((s.set p c').ctx r) := by
  by_cases hr : r = p
  · subst hr
    rw [set_ctx_self]
    exact hp
  · rw [set_ctx_of_ne s hr]
    exact h r

theorem Extends.subtreeCommitting (he : Extends s p c') (h : SubtreeCommitting T s q) :
    SubtreeCommitting T (s.set p c') q :=
  forall_set (P := fun r c => T.Below q r → Committing c) (fun hr => he.committing (h p hr)) h

theorem Extends.subtreeFinal (he : Extends s p c') (h : SubtreeFinal T s q) :
    SubtreeFinal T (s.set p c') q :=
  forall_set (P := fun r c => T.Below q r → Final c) (fun hr => he.final (h p hr)) h

theorem Extends.mailMeans {m} (he : Extends s p c') (h : MailMeans T s m) :
    MailMeans T (s.set p c') m := by
  unfold MailMeans at h ⊢
  split at h
  · exact he.subtreeCommitting h
  · exact he.subtreeFinal h
  · exact he.subtreeFinal h
  · exact he.subtreeCommitting h
  · exact he.subtreeFinal h
  · trivial

theorem Extends.collectedMeans {u} (he : Extends s p c')
    (h : CollectedMeans T s u q) : CollectedMeans T (s.set p c') u q :=
  ⟨fun hu => he.subtreeCommitting (h.1 hu), fun hu => he.subtreeFinal (h.2 hu)⟩

/-- **Replacing the context of one participant**: it suffices to justify, in the old system, the
mails, the collected responses and the states that are new. -/
theorem SystemInv.replace (hi : SystemInv T s) (he : Extends s p c')
    (hcoord : ∀ q, c'.coordinator = some q → T.Coordinates q p)
    (hmail : ∀ m ∈ c'.outbox, m ∈ (s.ctx p).outbox ∨ m.src = p ∧ MailEdge T m ∧ MailMeans T s m)
    (hcoll : ∀ i ∈ c'.collected, some i ≠ c'.getSelfId ∧
      ∃ q, c'.participants[i]? = some q ∧ CollectedMeans T s c'.upstreamState q)
    (hcommit : c'.upstreamState = .commit ∨ c'.txState = .commit → SubtreeCommitting T s T.root)
    (hclear : c'.upstreamState = .clear → SubtreeFinal T s T.root)
    (hforgot : s.forgotten p = true → c'.downstreamState = .clear) : SystemInv T (s.set p c') where
  addr := forall_set (P := fun r c => c.addr = r) (he.addr.trans (hi.addr p)) hi.addr
  participants := forall_set (P := fun r c => c.participants = T.participants r)
    (he.participants.trans (hi.participants p)) hi.participants
  coordinator := forall_set (P := fun r c => ∀ q, c.coordinator = some q → T.Coordinates q r) hcoord
    hi.coordinator
  states := forall_set (P := fun _ => LocalInv) he.states hi.states
  mail := by
    have hold r m (hm : m ∈ (s.ctx r).outbox) :
        m.src = r ∧ MailEdge T m ∧ MailMeans T (s.set p c') m :=
      ⟨(hi.mail r m hm).1, (hi.mail r m hm).2.1, he.mailMeans (hi.mail r m hm).2.2⟩
    refine forall_set (P := fun r c => ∀ m ∈ c.outbox, m.src = r ∧ MailEdge T m ∧
      MailMeans T _ m) ?_ hold
    intro m hm
    rcases hmail m hm with h | ⟨hsrc, hedge, hmeans⟩
    · exact hold p m h
    · exact ⟨hsrc, hedge, he.mailMeans hmeans⟩
  collected := by
    refine forall_set (P := fun _ c => ∀ i ∈ c.collected, some i ≠ c.getSelfId ∧ ∃ q,
      c.participants[i]? = some q ∧ CollectedMeans T _ c.upstreamState q) (fun i hmem => ?_)
      fun r i hmem => ?_
    · obtain ⟨hself, q, hq, hmeans⟩ := hcoll i hmem
      exact ⟨hself, q, hq, he.collectedMeans hmeans⟩
    · obtain ⟨hself, q, hq, hmeans⟩ := hi.collected r i hmem
      exact ⟨hself, q, hq, he.collectedMeans hmeans⟩
  commit := forall_set (P := fun _ c => c.upstreamState = .commit ∨ c.txState = .commit → _)
    (fun h => he.subtreeCommitting (hcommit h)) fun r h => he.subtreeCommitting (hi.commit r h)
  clear := forall_set (P := fun _ c => c.upstreamState = .clear → _)
    (fun h => he.subtreeFinal (hclear h)) fun r h => he.subtreeFinal (hi.clear r h)
  forgotten := forall_set (P := fun r c => s.forgotten r = true → c.downstreamState = .clear)
    hforgot hi.forgotten

end Replace

/-! ## Collecting every downstream -/

section

variable (hi : SystemInv T s)
include hi

theorem SystemInv.eq_root_of_isRoot (h : (s.ctx p).isRoot) : p = T.root := by
  unfold isRoot role at h
  split at h
  · cases h
  rename_i q hq
  split at h
  · rename_i haddr
    rw [hi.addr] at haddr
    rcases hi.coordinator p q hq with ⟨hp, -⟩ | hchild
    · exact hp
    · exact absurd haddr hchild.2
  · split at h <;> cases h

theorem SystemInv.collected_subset (p : Addr) :
    (s.ctx p).collected ⊆ range (s.ctx p).participants.length := by
  intro i hmem
  obtain ⟨-, q, hq, -⟩ := hi.collected p i hmem
  exact mem_range.mpr (List.getElem?_eq_some_iff.mp hq).1

section

variable (hall : (s.ctx p).allDownstreamCollected = true)
include hall

/-- **When the count says that all downstreams have responded, they have**: the bit set then
holds the index of every child, and a collected index means that the child has moved. -/
theorem SystemInv.child_collected (hq : T.Child p q) :
    CollectedMeans T s (s.ctx p).upstreamState q := by
  obtain ⟨j, hj, hjq⟩ := List.mem_iff_getElem.mp ((hi.participants p).symm ▸ hq.1)
  have hjq' : (s.ctx p).participants[j]? = some q := by rw [List.getElem?_eq_getElem hj, hjq]
  suffices hmem : j ∈ (s.ctx p).collected by
    obtain ⟨-, q', hq', hmeans⟩ := hi.collected p j hmem
    obtain rfl : q = q' := some.inj (hjq'.symm.trans hq')
    exact hmeans
  have hsub := hi.collected_subset p
  have hrange : j ∈ range (s.ctx p).participants.length := mem_range.mpr hj
  unfold allDownstreamCollected at hall
  cases hrole : (s.ctx p).role with
  | root =>
    rw [hrole] at hall
    have hcount : (s.ctx p).collected.card + 1 = (s.ctx p).participants.length :=
      of_decide_eq_true hall
    -- the root finds itself in its own list, at an index that is never collected
    have hroot := hi.eq_root_of_isRoot hrole
    have hmem : p ∈ (s.ctx p).participants := by
      rw [hi.participants p]
      exact hroot ▸ T.root_mem
    obtain ⟨k, hk⟩ := isSome_iff_exists.mp (List.isSome_idxOf?.mpr hmem)
    have hself : (s.ctx p).getSelfId = some k := by
      unfold getSelfId findParticipantId
      rw [hi.addr p, hk]
    have hkp := getElem?_of_findParticipantId hk
    have hsub' : (s.ctx p).collected ⊆
        (range (s.ctx p).participants.length).erase k := by
      intro i hmem
      refine mem_erase.mpr ⟨?_, hsub hmem⟩
      rintro rfl
      exact (hi.collected p i hmem).1 hself.symm
    have hkrange : k ∈ range (s.ctx p).participants.length :=
      mem_range.mpr (List.getElem?_eq_some_iff.mp hkp).1
    have hcard := card_erase_of_mem hkrange
    rw [card_range] at hcard
    rw [eq_of_subset_of_card_le hsub' (by omega)]
    refine mem_erase.mpr ⟨?_, hrange⟩
    rintro rfl
    rw [hkp] at hjq'
    exact hq.2 (some.inj hjq').symm
  | internal =>
    rw [hrole] at hall
    have hcount : (s.ctx p).collected.card = (s.ctx p).participants.length :=
      of_decide_eq_true hall
    rw [eq_of_subset_of_card_le hsub (by rw [card_range]; omega)]
    exact hrange
  | leaf =>
    -- a leaf has no downstream at all
    unfold role at hrole
    split at hrole
    · cases hrole
    split at hrole
    · cases hrole
    split at hrole
    · rename_i hnil
      simp [hnil] at hj
    · cases hrole
  | unknown => simp [hrole] at hall

theorem SystemInv.subtreeCommitting_of_collected (hup : (s.ctx p).upstreamState = .preCommit) :
    SubtreeCommitting T s p := by
  intro r hr
  rcases hr.cases with rfl | ⟨q, hq, hr⟩
  · have hs := (hi.states r).states
    rw [hup] at hs
    exact .inl hs
  exact (hi.child_collected hall hq).1 hup r hr

theorem SystemInv.subtreeFinal_of_collected (hup : (s.ctx p).upstreamState = .commit ∨
    (s.ctx p).upstreamState = .abort) (hf : Final (s.ctx p)) : SubtreeFinal T s p := by
  intro r hr
  rcases hr.cases with rfl | ⟨q, hq, hr⟩
  · exact hf
  exact (hi.child_collected hall hq).2 hup r hr

end

theorem SystemInv.below_of_single (hroot : (s.ctx p).isRoot)
    (hsize : (s.ctx p).getDownstreamSize = 1) {r} (hr : T.Below p r) : r = p := by
  rcases hr.cases with h | ⟨q, hq, -⟩
  · exact h
  obtain rfl := hi.eq_root_of_isRoot hroot
  unfold getDownstreamSize at hsize
  rw [hi.participants] at hsize
  obtain ⟨a, ha⟩ := List.length_eq_one_iff.mp hsize
  have hroot := T.root_mem
  have hchild := hq.1
  rw [ha, List.mem_singleton] at hroot hchild
  exact absurd (hchild.trans hroot.symm) hq.2

end

/-! ## Moves keep the invariant -/

/-- What is known while `p` handles `inc`. -/
structure EventAt (T : CommitTree) (s : System) (p : Addr) (inc : Option Mail) : Prop where
  mem : p ∈ T.members
  live : s.forgotten p = false
  sender : (s.ctx p).sender = inc.map Mail.src
  mail : ∀ m, inc = some m → m.dst = p ∧ MailEdge T m ∧ MailMeans T s m
  coordinator : ∀ m, inc = some m → m.type.is2pcRequestMsg = true →
    (s.ctx p).coordinator ≠ none

variable {m : Mail}

theorem MailEdge.request (h : MailEdge T m) (ht : m.type.is2pcRequestMsg = true) :
    T.Child m.src m.dst := by
  unfold MailEdge at h
  rwa [if_pos ht] at h

theorem EventAt.not_fakeUpstream (hev : EventAt T s p inc) (hi : SystemInv T s) :
    ¬ FakeUpstream inc (s.ctx p) := by
  rintro ⟨hreal, m, rfl, ht⟩
  obtain ⟨hdst, hedge, -⟩ := hev.mail m rfl
  obtain ⟨q, hq⟩ := ne_none_iff_exists'.mp (hev.coordinator m rfl ht)
  have hcoord := (hi.coordinator p q hq).eq_of_child (hdst ▸ hedge.request ht)
  refine hreal (.inr ?_)
  rw [hev.sender, hq, hcoord]
  rfl

theorem EventAt.responseDst (hev : EventAt T s p inc) (hi : SystemInv T s) {dst}
    (hne : dst ≠ p) (h : ResponseDst inc (s.ctx p) dst) : T.Child dst p := by
  rcases h with h | ⟨m, rfl, ht, rfl⟩
  · rcases hi.coordinator p dst h with ⟨hp, hd⟩ | hchild
    · exact absurd (hd.trans hp.symm) hne
    · exact hchild
  · obtain ⟨hdst, hedge, -⟩ := hev.mail m rfl
    exact hdst ▸ hedge.request ht

theorem collectedMeans_of_ack {u} (hack : AckOf u m.type)
    (hmeans : MailMeans T s m) : CollectedMeans T s u m.src := by
  unfold MailMeans at hmeans
  cases u <;> cases ht : m.type <;> rw [ht] at hack hmeans <;>
    simp only [AckOf] at hack <;> simp_all [CollectedMeans]

section

variable (hi : SystemInv T s)
include hi

/-- A durably committed or committing state of one participant speaks for everyone. -/
theorem SystemInv.subtreeCommitting (hp : p ∈ T.members)
    (h : (s.ctx p).upstreamState = .commit ∨ (s.ctx p).txState = .commit) :
    SubtreeCommitting T s p := fun r hr =>
  hi.commit p h r ((below_root hp).trans hr)

theorem SystemInv.subtreeFinal (hp : p ∈ T.members)
    (h : (s.ctx p).upstreamState = .clear) : SubtreeFinal T s p := fun r hr =>
  hi.clear p h r ((below_root hp).trans hr)

section

variable (hev : EventAt T s p inc)
include hev

theorem SystemInv.subtreeFinal_of_final (hf : Final (s.ctx p))
    (hall : (s.ctx p).allDownstreamCollected) : SubtreeFinal T s p := by
  have hs := (hi.states p).states
  cases hup : (s.ctx p).upstreamState with
  | commit => exact hi.subtreeFinal_of_collected hall (.inl hup) hf
  | abort => exact hi.subtreeFinal_of_collected hall (.inr hup) hf
  | clear => exact hi.subtreeFinal hev.mem hup
  | unknown | init | redoComplete | prepare | preCommit | max =>
  rw [hup] at hs
  rcases hf with hd | hd | hd <;> simp [hd, StatesAllowed] at hs

theorem SystemInv.response_means (hsrc : m.src = p) (ht : ¬ m.type.is2pcRequestMsg = true)
    (hg : ResponseGuard inc (s.ctx p) m.type) : MailMeans T s m := by
  have hfake := hev.not_fakeUpstream hi
  have hs := (hi.states p).states
  unfold MailMeans
  cases htype : m.type with
  | preCommitResp =>
    rw [htype] at hg
    rw [hsrc]
    rcases hg with ⟨hd, hall⟩ | ⟨hup, hall⟩ | hd
    · rw [hd] at hs
      cases hup : (s.ctx p).upstreamState with
      | preCommit => exact hi.subtreeCommitting_of_collected (hall.resolve_right hfake) hup
      | commit => exact hi.subtreeCommitting hev.mem (.inl hup)
      | unknown | init | redoComplete | prepare | abort | clear | max =>
      rw [hup] at hs
      simp [StatesAllowed] at hs
    · exact hi.subtreeCommitting_of_collected hall hup
    · have ho := (hi.states p).outcome
      rw [hd] at ho
      exact hi.subtreeCommitting hev.mem (.inr ho)
  | commitResp | abortResp =>
    rw [htype] at hg
    rw [hsrc]
    rcases hg with ⟨hd, hall⟩ | ⟨hup, hd⟩
    · exact hi.subtreeFinal_of_final hev (by simp [Final, hd]) (hall.resolve_right hfake)
    · rw [hup, hd] at hs
      simp [StatesAllowed] at hs
  | prepareRedoResp | prepareResp | clearResp => trivial
  | prepareRedoReq | prepareReq | preCommitReq | commitReq | abortReq | clearReq =>
    rw [htype] at ht
    exact absurd rfl ht

theorem SystemInv.committing_of_driveGuard (hg : DriveGuard inc (s.ctx p) .commit) :
    SubtreeCommitting T s T.root := by
  rcases hg with ⟨hroot, hup, hall⟩ | ⟨⟨m, hinc, ht⟩, -⟩ | ⟨hroot, hsize, hdown⟩
  · rw [← hi.eq_root_of_isRoot hroot]
    exact hi.subtreeCommitting_of_collected hall hup
  · obtain ⟨-, -, hmeans⟩ := hev.mail m hinc
    unfold MailMeans at hmeans
    rw [ht] at hmeans
    exact hmeans
  · rw [← hi.eq_root_of_isRoot hroot]
    intro r hr
    rw [hi.below_of_single hroot hsize hr]
    exact .inl hdown

theorem SystemInv.final_of_driveGuard (hg : DriveGuard inc (s.ctx p) .clear) :
    SubtreeFinal T s T.root := by
  obtain ⟨hdown, hg⟩ := hg
  have hfinal : Final (s.ctx p) := hdown.imp_right .inl
  rcases hg with ⟨hroot, hall⟩ | ⟨m, hinc, ht⟩ | ⟨hroot, hsize⟩
  · rw [← hi.eq_root_of_isRoot hroot]
    exact hi.subtreeFinal_of_final hev hfinal hall
  · obtain ⟨-, -, hmeans⟩ := hev.mail m hinc
    unfold MailMeans at hmeans
    rw [ht] at hmeans
    exact hmeans
  · rw [← hi.eq_root_of_isRoot hroot]
    intro r hr
    rw [hi.below_of_single hroot hsize hr]
    exact hfinal

theorem SystemInv.post_means (hsrc : m.src = p) (hdst : m.dst ≠ p)
    (hg : PostGuard inc (s.ctx p) m) : MailEdge T m ∧ MailMeans T s m := by
  unfold MailEdge
  rcases hg with ⟨ht, hmem, hcommit, hclear⟩ | ⟨ht, hd, hg⟩
  · rw [if_pos ht]
    refine ⟨⟨?_, hsrc ▸ hdst⟩, ?_⟩
    · rw [hsrc, ← hi.participants p]
      exact hmem
    unfold MailMeans
    cases htype : m.type with
    | commitReq => exact hi.commit p (.inl (hcommit htype))
    | clearReq => exact hi.clear p (hclear htype)
    | prepareRedoReq | prepareReq | preCommitReq | abortReq => trivial
    | prepareRedoResp | prepareResp | preCommitResp | commitResp | abortResp | clearResp =>
    rw [htype] at ht
    cases ht
  · rw [if_neg ht]
    refine ⟨?_, hi.response_means hev hsrc ht hg⟩
    rw [hsrc]
    exact hev.responseDst hi hdst hd

theorem SystemInv.move (hm : Move inc (s.ctx p) c') : SystemInv T (s.set p c') := by
  have he : Extends s p c' :=
    ⟨hm.sameFrame.addr, hm.sameFrame.participants, hm.localInv (hi.states p),
      hm.committing (hi.states p), hm.final (hi.states p)⟩
  have hcoord : ∀ q, c'.coordinator = some q → T.Coordinates q p := fun q h =>
    hi.coordinator p q (hm.sameFrame.coordinator ▸ h)
  have hlive : ∀ d : ObTxState, s.forgotten p = true → d = .clear := fun d h => by
    rw [hev.live] at h
    cases h
  cases hm with
  | @collect i m hinc hi' hself hack =>
    refine hi.replace he hcoord (fun _ h => .inl h) ?_ (hi.commit p) (hi.clear p) (hlive _)
    intro j hj
    rcases mem_insert.mp hj with rfl | hj
    · exact ⟨hself, m.src, hi', collectedMeans_of_ack hack (hev.mail m hinc).2.2⟩
    · exact hi.collected p j hj
  | @drive next hq hne hg =>
    refine hi.replace he hcoord (fun _ h => .inl h) (fun i h => absurd h (notMem_empty i)) ?_ ?_
      (hlive _)
    · rintro (rfl | h)
      · exact hi.committing_of_driveGuard hev hg
      · exact hi.commit p (.inr h)
    · rintro rfl
      exact hi.final_of_driveGuard hev hg
  | redo hup =>
    refine hi.replace he hcoord (fun _ h => .inl h) (fun i h => absurd h (notMem_empty i)) ?_ ?_
      (hlive _)
    · rintro (h | h)
      · cases h
      · exact hi.commit p (.inr h)
    · intro h
      cases h
  | @enterPreCommit t hq hdown hs =>
    refine hi.replace he hcoord (fun _ h => .inl h) ?_ ?_ ?_ (hlive _)
    · intro i hmem
      rcases hs with rfl | ⟨hup, rfl⟩
      · exact absurd hmem (notMem_empty i)
      obtain ⟨hself, q, hq, hmeans⟩ := hi.collected p i hmem
      rw [hup] at hmeans
      exact ⟨hself, q, hq, hmeans⟩
    · rintro (h | h)
      · cases h
      · exact hi.commit p (.inr h)
    · intro h
      cases h
  | submit hq ht | pop hq =>
    exact hi.replace he hcoord (fun _ h => .inl h) (hi.collected p) (hi.commit p) (hi.clear p)
      (hlive _)
  | @post m hsrc hdst hg =>
    rw [hi.addr] at hsrc hdst
    refine hi.replace he hcoord ?_ (hi.collected p) (hi.commit p) (hi.clear p) (hlive _)
    intro m' hm'
    rcases List.mem_cons.mp hm' with rfl | h
    · exact .inr ⟨hsrc, hi.post_means hev hsrc hdst hg⟩
    · exact .inl h
  | @applied t rest hq ht =>
    refine hi.replace he hcoord (fun _ h => .inl h) (hi.collected p) ?_ (hi.clear p) (hlive _)
    rintro (h | h)
    · exact hi.commit p (.inl h)
    have hp := (hi.states p).pending hq
    cases t with
    | commit => exact hi.commit p (.inl hp.1)
    | abort => cases h
    | commitInfo | prepare | clear => exact hi.commit p (.inr h)

end

end

theorem EventAt.move (hev : EventAt T s p inc) (hi : SystemInv T s)
    (hm : Move inc (s.ctx p) c') : EventAt T (s.set p c') p inc := by
  have he : Extends s p c' :=
    ⟨hm.sameFrame.addr, hm.sameFrame.participants, hm.localInv (hi.states p),
      hm.committing (hi.states p), hm.final (hi.states p)⟩
  refine ⟨hev.mem, hev.live, ?_, fun m h => ?_, fun m h ht => ?_⟩
  · rw [set_ctx_self, hm.sameFrame.sender, hev.sender]
  · obtain ⟨hdst, hedge, hmeans⟩ := hev.mail m h
    exact ⟨hdst, hedge, he.mailMeans hmeans⟩
  · rw [set_ctx_self, hm.sameFrame.coordinator]
    exact hev.coordinator m h ht

theorem SystemInv.moves (hi : SystemInv T s) (hev : EventAt T s p inc)
    (hm : Moves inc (s.ctx p) c') : SystemInv T (s.set p c') := by
  suffices h : SystemInv T (s.set p c') ∧ EventAt T (s.set p c') p inc from h.1
  induction hm with
  | refl =>
    rw [set_self]
    exact ⟨hi, hev⟩
  | @tail c₁ c₂ _ hmove ih =>
  obtain ⟨hi₁, hev₁⟩ := ih
  have hmove : Move inc ((s.set p c₁).ctx p) c₂ := by rwa [set_ctx_self]
  rw [← set_set s p c₁ c₂]
  exact ⟨hi₁.move hev₁ hmove, hev₁.move hi₁ hmove⟩

/-! ## Events keep the invariant -/

theorem SystemInv.reframe (hi : SystemInv T s) (sender coordinator : Option Addr)
    (hcoord : ∀ q, coordinator = some q → T.Coordinates q p) :
    SystemInv T (s.set p { s.ctx p with sender := sender, coordinator := coordinator }) := by
  refine hi.replace ⟨rfl, rfl, (hi.states p).congr rfl rfl rfl rfl, id, id⟩ hcoord
    (fun _ h => .inl h) (hi.collected p) (hi.commit p) (hi.clear p) (hi.forgotten p)

/-- The system as it stands between events. -/
def BetweenEvents (T : CommitTree) (s : System) : Prop :=
  SystemInv T s ∧ ∀ p, (s.ctx p).sender = none

section

variable (hb : BetweenEvents T s) (hp : p ∈ T.members) (hf : s.forgotten p = false)
include hb hp hf

theorem BetweenEvents.eventAt_none : EventAt T s p none :=
  ⟨hp, hf, hb.2 p, fun _ h => (nomatch h), fun _ h => (nomatch h)⟩

theorem BetweenEvents.moves (hm : Moves none (s.ctx p) c') : BetweenEvents T (s.set p c') := by
  refine ⟨hb.1.moves (hb.eventAt_none hp hf) hm, fun r => ?_⟩
  by_cases hr : r = p
  · subst hr
    rw [set_ctx_self, (sameFrame_of_moves hm).sender, hb.2]
  · rw [set_ctx_of_ne s hr, hb.2]

end

theorem BetweenEvents.commit (hb : BetweenEvents T s) (env : Env)
    (hf : s.forgotten T.root = false) :
    BetweenEvents T (s.set T.root ((s.ctx T.root).commit env).2) := by
  have hb₀ : BetweenEvents T
      (s.set T.root { s.ctx T.root with coordinator := some (s.ctx T.root).addr }) := by
    refine ⟨hb.1.reframe (s.ctx T.root).sender _ fun q h => .inl ⟨rfl, ?_⟩, fun r => ?_⟩
    · rw [hb.1.addr] at h
      exact (some.inj h).symm
    by_cases hr : r = T.root
    · subst hr
      rw [set_ctx_self]
      exact hb.2 T.root
    · rw [set_ctx_of_ne s hr, hb.2]
  have hm : Moves none
      ((s.set T.root { s.ctx T.root with coordinator := some (s.ctx T.root).addr }).ctx T.root)
      ((s.ctx T.root).commit env).2 := by
    rw [set_ctx_self]
    exact twoPhaseCommit_moves env _
  have h := hb₀.moves root_mem_members hf hm
  rwa [set_set] at h

/-- The context in which a mail is dispatched: it knows the sender, and its coordinator too if the
mail is a request. -/
def receiving (m : Mail) (c : Ctx) : Ctx :=
  if m.type.is2pcRequestMsg then { c with sender := some m.src }.learnCoordinator m
  else { c with sender := some m.src }

theorem receiving_eq (m : Mail) (c : Ctx) :
    receiving m c = { c with
      sender := some m.src
      coordinator := if m.type.is2pcRequestMsg ∧ c.coordinator = none then some m.src
        else c.coordinator } := by
  unfold receiving learnCoordinator
  by_cases ht : m.type.is2pcRequestMsg = true <;> by_cases hc : c.coordinator = none <;>
    simp [ht, hc]

theorem BetweenEvents.deliver (hb : BetweenEvents T s) (env : Env)
    (hm : s.InFlight m) (hp : m.dst ∈ T.members) (hf : s.forgotten m.dst = false) :
    BetweenEvents T (s.set m.dst ((s.ctx m.dst).handle env m).2) := by
  obtain ⟨-, hedge, hmeans⟩ := hb.1.mail m.src m hm
  -- the context that knows its sender and its coordinator
  have hi₀ : SystemInv T (s.set m.dst (receiving m (s.ctx m.dst))) := by
    rw [receiving_eq]
    refine hb.1.reframe _ _ fun q hq => ?_
    split at hq
    · rename_i h
      obtain rfl := some.inj hq
      exact .inr (hedge.request h.1)
    · exact hb.1.coordinator m.dst q hq
  have he₀ : Extends s m.dst (receiving m (s.ctx m.dst)) := by
    rw [receiving_eq]
    exact ⟨rfl, rfl, (hb.1.states m.dst).congr rfl rfl rfl rfl, id, id⟩
  have hev₀ : EventAt T (s.set m.dst (receiving m (s.ctx m.dst))) m.dst (some m) := by
    refine ⟨hp, hf, ?_, ?_, ?_⟩
    · rw [set_ctx_self, receiving_eq]
      rfl
    · intro m' h
      obtain rfl := some.inj h
      exact ⟨rfl, hedge, he₀.mailMeans hmeans⟩
    intro m' h ht
    obtain rfl := some.inj h
    rw [set_ctx_self, receiving_eq]
    split
    · simp
    rename_i hn
    exact fun hc => hn ⟨ht, hc⟩
  obtain ⟨c₀, hc₀, hmoves⟩ := dispatch_moves env (m := m)
    (c := { s.ctx m.dst with sender := some m.src }) rfl
  have hmoves' : Moves (some m) ((s.set m.dst (receiving m (s.ctx m.dst))).ctx m.dst)
      (({ s.ctx m.dst with sender := some m.src } : Ctx).dispatch env m).2 := by
    rw [set_ctx_self]
    rwa [hc₀] at hmoves
  have hi₁ := hi₀.moves hev₀ hmoves'
  rw [set_set] at hi₁
  -- the sender is forgotten when the event ends
  have hi₂ := hi₁.reframe (p := m.dst) none _ (hi₁.coordinator m.dst)
  rw [set_set, set_ctx_self] at hi₂
  refine ⟨hi₂, fun r => ?_⟩
  by_cases hr : r = m.dst
  · subst hr
    rw [set_ctx_self]
    rfl
  · rw [set_ctx_of_ne s hr, hb.2]

theorem SystemInv.upstream_of_forgotten (hi : SystemInv T s) (hf : s.forgotten p = true) :
    (s.ctx p).upstreamState = .clear := by
  have hs := (hi.states p).states
  rw [hi.forgotten p hf] at hs
  cases hu : (s.ctx p).upstreamState <;> rw [hu] at hs <;> simp [StatesAllowed] at hs

theorem BetweenEvents.orphan (hb : BetweenEvents T s) {t : MsgType}
    (hm : s.InFlight m) (hp : m.dst ∈ T.members) (hf : s.forgotten m.dst = true)
    (ht : handleOrphan m.type = some t) :
    BetweenEvents T (s.set m.dst { s.ctx m.dst with
      outbox := ⟨t, m.dst, m.src⟩ :: (s.ctx m.dst).outbox }) := by
  obtain ⟨-, hedge, -⟩ := hb.1.mail m.src m hm
  have hup := hb.1.upstream_of_forgotten hf
  have hmeans : MailEdge T ⟨t, m.dst, m.src⟩ ∧ MailMeans T s ⟨t, m.dst, m.src⟩ := by
    have hclear := hb.1.clear m.dst hup
    have hsub := hb.1.subtreeFinal hp hup
    unfold handleOrphan handleOrphan2pcReq handleOrphan2pcResp at ht
    cases htype : m.type <;> simp only [htype, MsgType.is2pcRequestMsg] at ht <;>
      simp at ht <;> subst ht <;>
      simp_all [MailEdge, MailMeans, MsgType.is2pcRequestMsg]
  refine ⟨hb.1.replace ⟨rfl, rfl, (hb.1.states m.dst).congr rfl rfl rfl rfl, id, id⟩
    (hb.1.coordinator m.dst) ?_ (hb.1.collected m.dst) (hb.1.commit m.dst) (hb.1.clear m.dst)
    (hb.1.forgotten m.dst), fun r => ?_⟩
  · intro m' hm'
    rcases List.mem_cons.mp hm' with rfl | h
    · exact .inr ⟨rfl, hmeans⟩
    · exact .inl h
  by_cases hr : r = m.dst
  · subst hr
    rw [set_ctx_self]
    exact hb.2 m.dst
  · rw [set_ctx_of_ne s hr, hb.2]

theorem BetweenEvents.forget (hb : BetweenEvents T s) (hc : (s.ctx p).downstreamState = .clear) :
    BetweenEvents T { s with forgotten := Function.update s.forgotten p true } := by
  obtain ⟨⟨haddr, hparts, hcoord, hstates, hmail, hcoll, hcommit, hclear, hforgot⟩, hsender⟩ := hb
  refine ⟨⟨haddr, hparts, hcoord, hstates, hmail, hcoll, hcommit, hclear, fun r hr => ?_⟩, hsender⟩
  by_cases hrp : r = p
  · subst hrp
    exact hc
  · exact hforgot r (by simpa [Function.update_of_ne hrp] using hr)

theorem SystemStep.betweenEvents {s'} (h : SystemStep T s s') (hb : BetweenEvents T s) :
    BetweenEvents T s' := by
  cases h with
  | commit env hf => exact hb.commit env hf
  | abort env hp hf => exact hb.moves hp hf (twoPhaseAbort_moves env _)
  | deliver env hm hp hf => exact hb.deliver env hm hp hf
  | orphan hm hp hf ht => exact hb.orphan hm hp hf ht
  | applyLog env hp hf => exact hb.moves hp hf (apply_moves env _)
  | timeout env hp hf => exact hb.moves hp hf (handleTimeout_moves rfl (hb.2 _))
  | forget hp hc => exact hb.forget hc

theorem System.IsInit.betweenEvents (h : s.IsInit T) : BetweenEvents T s where
  left :=
    { addr := h.addr
      participants := h.participants
      coordinator := h.coordinator
      states := fun p => (h.ctx p).localInv
      mail := fun p m hm => by simp [(h.ctx p).outbox] at hm
      collected := fun p i hi => by simp [(h.ctx p).collected] at hi
      commit := fun p hc => by simp [(h.ctx p).upstreamState, (h.ctx p).txState] at hc
      clear := fun p hc => by simp [(h.ctx p).upstreamState] at hc
      forgotten := fun p hp => by simp [h.forgotten p] at hp }
  right p := (h.ctx p).sender

theorem systemInv_of_reachable (h : (twoPhaseCommit T).Reachable s) : SystemInv T s :=
  (Machine.Reachable.of_keeps (M := twoPhaseCommit T) (I := BetweenEvents T)
    (fun _ h => h.betweenEvents) (fun _ _ hb hs => betweenEvents hs hb) h).1

/-! ## A run that commits -/

def pairTree : CommitTree where
  members := {0, 1}
  root := 0
  participants p := if p = 0 then [0, 1] else []
  root_mem := by decide
  nodup p := by split <;> decide
  subset p q h := by
    split at h <;> simp_all
  parent_unique p p' q h hne h' hne' := by
    split at h <;> split at h' <;> simp_all
  root_orphan p h := by
    split at h <;> simp_all
  connected p h := by
    obtain rfl | rfl : p = 0 ∨ p = 1 := by simpa using h
    · exact .refl
    · exact .single (by decide)

def pairInit : System where
  ctx p := Ctx.initial p none (pairTree.participants p)
  forgotten _ := false

theorem pairInit_isInit : pairInit.IsInit pairTree where
  ctx p := initial_isInit p none _
  addr _ := rfl
  participants _ := rfl
  isSub2pc _ := rfl
  coordinator _ _ h := nomatch h
  forgotten _ := rfl

/-- The run in which both participants prepare and enter pre-commit and the root commits, and its
continuation until the root is in the clear state. -/
theorem pair_run : ∃ s s', (twoPhaseCommit pairTree).Reachable s ∧
    (twoPhaseCommit pairTree).Reachable s' ∧ DurablyCommitted (s.ctx 0) ∧
    (s.ctx 1).downstreamState = .preCommit ∧ (s'.ctx 0).upstreamState = .clear := by
  have h₀ : (twoPhaseCommit pairTree).Reachable pairInit := .init pairInit_isInit
  have h₁ := h₀.step (commit .agreeable rfl)
  have h₂ := h₁.step (deliver .agreeable (m := ⟨.prepareReq, 0, 1⟩) (by decide) (by decide) rfl)
  have h₃ := h₂.step (applyLog .agreeable (p := 1) (by decide) rfl)
  have h₄ := h₃.step (applyLog .agreeable (p := 0) (by decide) rfl)
  have h₅ := h₄.step (deliver .agreeable (m := ⟨.prepareResp, 1, 0⟩) (by decide) (by decide) rfl)
  have h₆ := h₅.step (deliver .agreeable (m := ⟨.preCommitReq, 0, 1⟩) (by decide) (by decide) rfl)
  have h₇ := h₆.step (deliver .agreeable (m := ⟨.preCommitResp, 1, 0⟩) (by decide) (by decide) rfl)
  have h₈ := h₇.step (applyLog .agreeable (p := 0) (by decide) rfl)
  have h₉ := h₈.step (deliver .agreeable (m := ⟨.commitReq, 0, 1⟩) (by decide) (by decide) rfl)
  have h₁₀ := h₉.step (applyLog .agreeable (p := 1) (by decide) rfl)
  have h₁₁ := h₁₀.step (deliver .agreeable (m := ⟨.commitResp, 1, 0⟩) (by decide) (by decide) rfl)
  exact ⟨_, _, h₈, h₁₁, .inl (by decide), by decide, by decide⟩

/-! ## The properties -/

theorem SystemInv.committing (hi : SystemInv T s)
    (hc : (s.ctx p).upstreamState = .commit ∨ DurablyCommitted (s.ctx p)) (hq : q ∈ T.members) :
    Committing (s.ctx q) := by
  have hroot : SubtreeCommitting T s T.root :=
    hi.commit p (hc.imp_right (hi.states p).txState_of_committed)
  exact hroot q (below_root hq)

theorem LocalInv.handle2pcAbortRequest_of_committing {c} (hi : LocalInv c)
    (h : Committing c) (env : Env) : (c.handle2pcAbortRequest env).2 = c := by
  unfold handle2pcAbortRequest
  rcases hi.downstream_of_committing h with hd | hd | hd <;> rw [hd]

theorem LocalInv.handle_abortReq_of_committing {c} (hi : LocalInv c) (h : Committing c)
    (env : Env) (hm : m.type = .abortReq) : (c.handle env m).2.upstreamState = c.upstreamState ∧
      (c.handle env m).2.downstreamState = c.downstreamState := by
  have hreq : m.type.is2pcRequestMsg = true := by rw [hm]; rfl
  obtain ⟨sender, coordinator, hlearn⟩ : ∃ sender coordinator,
      ({ c with sender := some m.src } : Ctx).learnCoordinator m =
        { c with sender := sender, coordinator := coordinator } := by
    unfold learnCoordinator
    split <;> exact ⟨_, _, rfl⟩
  have hi' : LocalInv { c with sender := sender, coordinator := coordinator } :=
    hi.congr rfl rfl rfl rfl
  have hstep : ({ c with sender := some m.src } : Ctx).dispatch env m =
      ({ c with sender := sender, coordinator := coordinator } : Ctx).handle2pcAbortRequest
        env := by
    unfold dispatch handle2pcReq
    rw [if_pos hreq, hlearn, hm]
  unfold handle
  rw [hstep]
  dsimp only
  rw [hi'.handle2pcAbortRequest_of_committing h env]
  exact ⟨rfl, rfl⟩

/-- **Atomic commitment.** In no state of any run is one participant durably committed and another
durably aborted. -/
theorem atomic_commitment (T : CommitTree) {s : System} (h : (twoPhaseCommit T).Reachable s)
    {p q : Addr} (hq : q ∈ T.members) :
    ¬ (DurablyCommitted (s.ctx p) ∧ DurablyAborted (s.ctx q)) := by
  rintro ⟨hc, ha⟩
  have hi := systemInv_of_reachable h
  exact (hi.states q).not_aborted_of_committing (hi.committing (.inr hc) hq) ha

theorem pair_committed_not_aborted : ∃ s, (twoPhaseCommit pairTree).Reachable s ∧
    DurablyCommitted (s.ctx 0) ∧ ¬ (DurablyCommitted (s.ctx 0) ∧ DurablyAborted (s.ctx 1)) := by
  obtain ⟨s, -, h, -, hc, -⟩ := pair_run
  exact ⟨s, h, hc, atomic_commitment pairTree h (by decide)⟩

/-- **Forgetting safety.** When the root is in the clear state, and when any participant has been
forgotten, every participant has a durable outcome; and in a committed transaction an abort
request leaves both states of every participant as they are. -/
theorem forgetting_safety (T : CommitTree) {s : System} (h : (twoPhaseCommit T).Reachable s) :
    ((s.ctx T.root).upstreamState = .clear → ∀ p ∈ T.members, Final (s.ctx p)) ∧
    (∀ q, s.forgotten q = true → ∀ p ∈ T.members, Final (s.ctx p)) ∧
    ∀ p, (s.ctx p).upstreamState = .commit ∨ DurablyCommitted (s.ctx p) →
      ∀ (env : Env) (m : Mail), m.type = .abortReq → m.dst ∈ T.members →
        ((s.ctx m.dst).handle env m).2.upstreamState = (s.ctx m.dst).upstreamState ∧
        ((s.ctx m.dst).handle env m).2.downstreamState = (s.ctx m.dst).downstreamState := by
  have hi := systemInv_of_reachable h
  refine ⟨fun hc p hp => ?_, fun q hf p hp => ?_, fun p hc env m hm hdst => ?_⟩
  · exact hi.clear T.root hc p (below_root hp)
  · exact hi.clear q (hi.upstream_of_forgotten hf) p (below_root hp)
  · exact (hi.states m.dst).handle_abortReq_of_committing (hi.committing hc hdst) env hm

/-- In the run above the leaf in pre-commit is not moved by an abort request, and both outcomes are
durable when the root is in the clear state. -/
theorem pair_forgetting_safe : ∃ s s', (twoPhaseCommit pairTree).Reachable s ∧
    (twoPhaseCommit pairTree).Reachable s' ∧ (s.ctx 1).downstreamState = .preCommit ∧
    ((s.ctx 1).handle .agreeable ⟨.abortReq, 0, 1⟩).2.downstreamState = .preCommit ∧
    (s'.ctx 0).upstreamState = .clear ∧ Final (s'.ctx 1) := by
  obtain ⟨s, s', h, h', hc, hd, hu⟩ := pair_run
  obtain ⟨-, -, habort⟩ := forgetting_safety pairTree h
  obtain ⟨hclear, -, -⟩ := forgetting_safety pairTree h'
  exact ⟨s, s', h, h', hd,
    (habort 0 (.inr hc) .agreeable ⟨.abortReq, 0, 1⟩ rfl (by decide)).2.trans hd, hu,
    hclear hu 1 (by decide)⟩

end OceanBase.Tx
