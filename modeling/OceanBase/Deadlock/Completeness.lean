import OceanBase.Deadlock.Soundness

/-!
# An isolated cycle is detected in one period

A period has two phases. In the first one (LCLP) a node takes one more than the highest level it
hears of. Nodes on a cycle push each other up without end, while the level of a node that no cycle
reaches stays below the number of nodes. In the second one (LCLS) a node takes over higher levels as
they are, and smaller labels that come with a level at least its own. By then the nodes outside of
the cycle are too low to be heard on it. The highest level goes round the cycle, then the smallest
label does, and the node it belongs to gets it back.

A round delivers a message along every edge. The order is arbitrary, a message may be delivered
several times, and it may show any state that its sender has had since the round began.

## Main results

* `isolated_cycle_detected`
-/

namespace OceanBase.Deadlock

open Relation Nat List Function

variable {V : Type} (g : WaitGraph V)

/-! ## Rounds -/

inductive LclPhase
  | lclp
  | lcls

/-- A node and whether it has set `detected_flag`. -/
abbrev Flagged := ObLCLNode × Bool

open LclPhase

/-- A node processes the state of another one, as a message of the phase. -/
def LclPhase.process (ph : LclPhase) (v : V) (n from' : Flagged) : Flagged :=
  let m : ObLCLMessage := ⟨g.resource v, from'.1.lclv, from'.1.publicLabel, 0⟩
  match ph with
  | .lclp => (n.1.processMsgAsLclp m, n.2)
  | .lcls =>
    let r := n.1.processMsgAsLcls (g.privateLabel v) m
    (r.1, n.2 || r.2)

section Rounds

variable [DecidableEq V]

/-- The states of a round so far, the last one first, and the edges along which a message was
delivered. -/
inductive RoundRun (ph : LclPhase) (s₀ : V → Flagged) : List (V → Flagged) → List (V × V) → Prop
  | start : RoundRun ph s₀ [s₀] []
  | deliver {s past : V → Flagged} {hist : List (V → Flagged)} {done} {u v : V}
      (h : RoundRun ph s₀ (s :: hist) done) (hpast : past ∈ s :: hist) (hw : g.Waits u v) :
      RoundRun ph s₀ (Function.update s v (ph.process g v (s v) (past u)) :: s :: hist)
        ((u, v) :: done)

/-- A round: a message was delivered along every edge. -/
def Round (ph : LclPhase) (s s' : V → Flagged) : Prop :=
  ∃ hist done, RoundRun g ph s (s' :: hist) done ∧ ∀ u v, g.Waits u v → (u, v) ∈ done

def Rounds (ph : LclPhase) : ℕ → (V → Flagged) → (V → Flagged) → Prop
  | 0, s, s' => s = s'
  | k + 1, s, s' => ∃ s₁, Rounds ph k s s₁ ∧ Round g ph s₁ s'

variable {g} {ph : LclPhase} {s s' : V → Flagged} {u v : V}

theorem Rounds.split {a b} (h : Rounds g ph (a + b) s s') :
    ∃ s₁, Rounds g ph a s s₁ ∧ Rounds g ph b s₁ s' := by
  induction b generalizing s' with
  | zero => exact ⟨s', h, rfl⟩
  | succ b ih =>
  obtain ⟨s₂, h₂, hround⟩ := h
  obtain ⟨s₁, h₁, h₁₂⟩ := ih h₂
  exact ⟨s₁, h₁, s₂, h₁₂, hround⟩

theorem exists_rounds [Finite V] (ph : LclPhase) (r : ℕ) (s : V → Flagged) :
    ∃ s', Rounds g ph r s s' := by
  induction r with
  | zero => exact ⟨s, rfl⟩
  | succ r ih =>
  obtain ⟨s₁, h₁⟩ := ih
  have key : ∀ l : List (V × V), (∀ e ∈ l, g.Waits e.1 e.2) →
      ∃ s' hist, RoundRun g ph s₁ (s' :: hist) l := by
    intro l hl
    induction l with
    | nil => exact ⟨s₁, [], .start⟩
    | cons e l ih =>
    obtain ⟨s', hist, hrun⟩ := ih fun e he => hl e (mem_cons_of_mem _ he)
    exact ⟨_, _, hrun.deliver mem_cons_self (hl e mem_cons_self)⟩
  have hfin := Set.toFinite {e : V × V | g.Waits e.1 e.2}
  obtain ⟨s', hist, hrun⟩ := key hfin.toFinset.toList (by simp)
  exact ⟨s', s₁, h₁, hist, _, hrun, by simp⟩

/-- **What a message along an edge brings about, in a round.** A property of all nodes that
processing keeps holds throughout; and one of the receiving node that processing keeps, and that a
message along the edge brings about, holds in the end. -/
theorem Round.gain {N : V → Flagged → Prop} {Q : Flagged → Prop}
    (hN : ∀ u v, g.Waits u v → ∀ n n', N v n → N u n' → N v (ph.process g v n n'))
    (hkeep : ∀ u', g.Waits u' v → ∀ n n', N v n → N u' n' → Q n → Q (ph.process g v n n'))
    (hgain : ∀ n n', N v n → N u n' → Q (ph.process g v n n'))
    (hw : g.Waits u v) (h : Round g ph s s') (hs : ∀ w, N w (s w)) :
    (∀ w, N w (s' w)) ∧ Q (s' v) := by
  obtain ⟨hist, done, hrun, hall⟩ := h
  have key : ∀ {l : List (V → Flagged)} {d : List (V × V)}, RoundRun g ph s l d →
      (∀ x ∈ l, ∀ w, N w (x w)) ∧ ((u, v) ∈ d → ∀ x ∈ l.head?, Q (x v)) := by
    intro l d hl
    induction hl with
    | start => exact ⟨by simpa using hs, by simp⟩
    | @deliver x past hist done u' v' _ hpast hw' ih =>
    have hnew := hN u' v' hw' (x v') (past u') (ih.1 x mem_cons_self v') (ih.1 past hpast u')
    refine ⟨forall_mem_cons.mpr ⟨fun w => ?_, ih.1⟩, fun hmem y hy => ?_⟩
    · by_cases hwv : w = v'
      · subst hwv
        simpa using hnew
      · rw [update_of_ne hwv]
        exact ih.1 x mem_cons_self w
    obtain rfl : _ = y := Option.some.inj hy
    by_cases hv : v = v'
    · subst hv
      rw [update_self]
      by_cases hu : u = u'
      · subst hu
        exact hgain _ _ (ih.1 x mem_cons_self v) (ih.1 past hpast u)
      have hmem' : (u, v) ∈ done := by simpa [hu] using hmem
      exact hkeep u' hw' _ _ (ih.1 x mem_cons_self v) (ih.1 past hpast u')
        (ih.2 hmem' x rfl)
    · rw [update_of_ne hv]
      exact ih.2 (by simpa [hv] using hmem) x rfl
  obtain ⟨hN', hQ'⟩ := key hrun
  exact ⟨hN' s' mem_cons_self, hQ' (hall u v hw) s' rfl⟩

end Rounds

/-! ## Cycles -/

/-- The nodes of a cycle of length `k`, in order, again and again. -/
structure IsCycle (g : WaitGraph V) (c : ℕ → V) (k : ℕ) : Prop where
  pos : 0 < k
  periodic : Function.Periodic c k
  inj : ∀ i j, i < k → j < k → c i = c j → i = j
  waits : ∀ i, g.Waits (c i) (c (i + 1))

/-- **No other cycle reaches the cycle**: a node on a cycle that reaches it is one of its nodes,
and they wait for each other only along it, since any other edge between them would close another
cycle. -/
structure Isolated (g : WaitGraph V) (c : ℕ → V) : Prop where
  on_cycle : ∀ u, TransGen g.Waits u u → ∀ i, ReflTransGen g.Waits u (c i) → ∃ j, u = c j
  chordless : ∀ i j, g.Waits (c j) (c (i + 1)) → c j = c i

/-- A node before the cycle. -/
def Upstream (g : WaitGraph V) (c : ℕ → V) (u : V) : Prop :=
  (∀ j, u ≠ c j) ∧ ∃ i, ReflTransGen g.Waits u (c i)

def Walk (g : WaitGraph V) : ℕ → V → Prop
  | 0, _ => True
  | k + 1, v => ∃ u, g.Waits u v ∧ Walk g k u

variable {g} {c : ℕ → V} {k : ℕ} {u v : V}

theorem IsCycle.exists_add (hc : IsCycle g c k) (a i : ℕ) : ∃ j < k, c (a + j) = c i := by
  refine ⟨(i + (k - a % k)) % k, mod_lt _ hc.pos, ?_⟩
  rw [← hc.periodic.map_mod_nat, ← hc.periodic.map_mod_nat i]
  congr 1
  have hlt := mod_lt a hc.pos
  rw [add_mod, mod_mod, ← add_mod, ← add_mod_left (x := k) (z := i),
    ← mul_add_mod k (a / k) (k + i)]
  congr 1
  have := div_add_mod a k
  omega

theorem IsCycle.reaches (hc : IsCycle g c k) (i j : ℕ) : ReflTransGen g.Waits (c i) (c j) := by
  obtain ⟨t, -, ht⟩ := hc.exists_add i j
  rw [← ht]
  clear ht
  induction t with
  | zero => exact .refl
  | succ t ih => exact ih.tail (hc.waits (i + t))

namespace Isolated

theorem upstream_pred (hi : Isolated g c) (hc : IsCycle g c k) (hv : Upstream g c v)
    (hw : g.Waits u v) : Upstream g c u := by
  obtain ⟨hoff, i, hreach⟩ := hv
  refine ⟨fun j hj => ?_, i, .head hw hreach⟩
  subst hj
  obtain ⟨j', hj'⟩ := hi.on_cycle v (.tail' (hreach.trans (hc.reaches i j)) hw) i hreach
  exact hoff j' hj'

theorem waiter (hi : Isolated g c) {i} (hw : g.Waits u (c (i + 1))) : u = c i ∨ Upstream g c u := by
  by_cases hon : ∃ j, u = c j
  · obtain ⟨j, rfl⟩ := hon
    exact .inl (hi.chordless i j hw)
  · exact .inr ⟨fun j hj => hon ⟨j, hj⟩, i + 1, .single hw⟩

/-- **No long walk ends at a node before the cycle**, or it would pass some node twice. -/
theorem walk_lt [Fintype V] (hi : Isolated g c) (hc : IsCycle g c k) {j} (hv : Upstream g c v)
    (hwalk : Walk g j v) : j < Fintype.card V := by
  obtain ⟨f, -, hup, hf⟩ : ∃ f : ℕ → V, f 0 = v ∧ (∀ i ≤ j, Upstream g c (f i)) ∧
      ∀ i < j, g.Waits (f (i + 1)) (f i) := by
    induction j generalizing v with
    | zero => exact ⟨fun _ => v, rfl, fun _ _ => hv, by simp⟩
    | succ j ih =>
    obtain ⟨u, hw, hwalk⟩ := hwalk
    obtain ⟨f, rfl, hup, hf⟩ := ih (hi.upstream_pred hc hv hw) hwalk
    refine ⟨fun i => i.casesOn v f, rfl, fun i hij => ?_, fun i hij => ?_⟩
    · cases i with
      | zero => exact hv
      | succ i => exact hup i (by omega)
    · cases i with
      | zero => exact hw
      | succ i => exact hf i (by omega)
  have hpath : ∀ i d, i + d < j → TransGen g.Waits (f (i + d + 1)) (f i) := by
    intro i d hd
    induction d with
    | zero => exact .single (hf i hd)
    | succ d ih => exact .head (hf _ hd) (ih (by omega))
  -- a node that occurs twice lies on a cycle
  have hno : ∀ x y : ℕ, x < y → y ≤ j → f x ≠ f y := by
    intro x y hxy hy heq
    have hcycle := hpath x (y - x - 1) (by omega)
    rw [show x + (y - x - 1) + 1 = y by omega, ← heq] at hcycle
    obtain ⟨hoff, i, hreach⟩ := hup x (by omega)
    obtain ⟨j', hj'⟩ := hi.on_cycle _ hcycle i hreach
    exact hoff j' hj'
  by_contra hle
  obtain ⟨x, y, hne, hxy⟩ := Fintype.exists_ne_map_eq_of_card_lt (fun i : Fin (j + 1) => f i)
    (by rw [Fintype.card_fin]; omega)
  rcases lt_or_gt_of_ne (Fin.val_ne_of_ne hne) with h | h
  · exact hno x y h (by omega) hxy
  · exact hno y x h (by omega) hxy.symm

end Isolated

/-! ## Processing -/

open ObLCLLabel

theorem ObLCLLabel.lt_asymm {a b : ObLCLLabel} (h : a.lt b = true) : b.lt a = false := by
  simp only [lt, ObDetectorPriority.lt] at h ⊢
  grind

theorem WaitGraph.privateLabel_inj {u v : V} (h : g.privateLabel u = g.privateLabel v) : u = v := by
  obtain ⟨haddr, hid, -⟩ := ObLCLLabel.mk.inj h
  exact g.resourceId_inj u v haddr hid

variable {n n' : Flagged}

theorem process_lclp : lclp.process g v n n'
    = ({ n.1 with lclv := max n.1.lclv (n'.1.lclv + 1) }, n.2) := by
  simp only [process, ObLCLNode.processMsgAsLclp]
  split
  · next h => rw [Nat.max_eq_right (Nat.le_of_lt h)]
  · next h => rw [Nat.max_eq_left (Nat.le_of_not_lt h)]

theorem process_lcls_of_lt (h : n'.1.lclv < n.1.lclv) : lcls.process g v n n' = n := by
  simp [process, ObLCLNode.processMsgAsLcls, not_le.mpr h]

theorem process_lcls_of_le (h : n.1.lclv ≤ n'.1.lclv) :
    (lcls.process g v n n').1.lclv = n'.1.lclv ∧
    (lcls.process g v n n').1.publicLabel =
      (if n'.1.publicLabel ≠ g.privateLabel v ∧ n'.1.publicLabel.lt n.1.publicLabel = true then
        n'.1.publicLabel else n.1.publicLabel) ∧ (n'.1.publicLabel = g.privateLabel v →
      n.2 = true ∨ n.1.lastSendCollectInfoPeriod ≠ n.1.lclPeriod →
      (lcls.process g v n n').2 = true) ∧
    (n'.1.publicLabel ≠ g.privateLabel v → (lcls.process g v n n').2 = n.2 ∧
      (lcls.process g v n n').1.lastSendCollectInfoPeriod = n.1.lastSendCollectInfoPeriod ∧
      (lcls.process g v n n').1.lclPeriod = n.1.lclPeriod) := by
  simp only [process, ObLCLNode.processMsgAsLcls, ge_iff_le, h, if_true]
  by_cases hlabel : n'.1.publicLabel = g.privateLabel v
  · by_cases hsent : n.1.lastSendCollectInfoPeriod = n.1.lclPeriod <;> simp [hlabel, hsent]
  · by_cases hlt : n'.1.publicLabel.lt n.1.publicLabel = true <;> simp [hlabel, hlt]

theorem process_lcls_flag (h : n.2 = true) : (lcls.process g v n n').2 = true := by
  simp [process, h]

theorem le_process_lcls : n.1.lclv ≤ (lcls.process g v n n').1.lclv := by
  rcases lt_or_ge n'.1.lclv n.1.lclv with h | h
  · rw [process_lcls_of_lt h]
  rw [(process_lcls_of_le h).1]
  exact h

/-! ## The first phase -/

/-- A node after `r` rounds that began at level `L`: its level comes from a walk, on the cycle it is
at least as many higher, and the node has not detected a cycle in this period. -/
def Rising (g : WaitGraph V) (c : ℕ → V) (L r : ℕ) (v : V) (n : Flagged) : Prop :=
  (∃ j, n.1.lclv = L + j ∧ Walk g j v) ∧ (∀ i, v = c i → L + r ≤ n.1.lclv) ∧
    n.1.publicLabel = g.privateLabel v ∧ n.1.lastSendCollectInfoPeriod ≠ n.1.lclPeriod

theorem Rising.process {L r} (hw : g.Waits u v) (hn : Rising g c L r v n)
    (hn' : Rising g c L r u n') : Rising g c L r v (lclp.process g v n n') := by
  obtain ⟨⟨j, hj, hwalk⟩, hcycle, hlabel, hsent⟩ := hn
  obtain ⟨⟨j', hj', hwalk'⟩, -⟩ := hn'
  rw [process_lclp]
  refine ⟨?_, fun i hi => le_trans (hcycle i hi) (le_max_left _ _), hlabel, hsent⟩
  dsimp only
  rcases le_total n.1.lclv (n'.1.lclv + 1) with h | h
  · exact ⟨j' + 1, by rw [max_eq_right h]; omega, u, hw, hwalk'⟩
  · exact ⟨j, by rw [max_eq_left h]; exact hj, hwalk⟩

section Rounds

variable [DecidableEq V] {s s' : V → Flagged} {ph : LclPhase}

theorem Rising.rounds {L p} (hc : IsCycle g c k) (hs : ∀ w, Rising g c L 0 w (s w))
    (h : Rounds g .lclp p s s') : ∀ w, Rising g c L p w (s' w) := by
  induction p generalizing s' with
  | zero => exact h ▸ hs
  | succ p ih =>
  obtain ⟨s₁, h₁, hround⟩ := h
  have hgain : ∀ i, (∀ w, Rising g c L p w (s' w)) ∧
    L + (p + 1) ≤ (s' (c (i + 1))).1.lclv := fun i =>
    Round.gain (Q := fun n => L + (p + 1) ≤ n.1.lclv) (fun _ _ hw _ _ => Rising.process hw)
      (fun _ _ n n' _ _ hn => by
        rw [process_lclp]
        exact le_trans hn (le_max_left _ _))
      (fun n n' _ hn' => by
        have := hn'.2.1 i rfl
        rw [process_lclp]
        exact le_trans (by omega) (le_max_right _ _))
      (hc.waits i) hround (ih h₁)
  intro w
  obtain ⟨hwalk, -, hlabel, hsent⟩ := (hgain 0).1 w
  refine ⟨hwalk, ?_, hlabel, hsent⟩
  rintro i rfl
  -- every node of the cycle comes after another one
  obtain ⟨j, -, hj⟩ := hc.exists_add 1 i
  rw [← hj, add_comm 1 j]
  exact (hgain j).2

/-- **What goes round the cycle.** If processing keeps `I`, and `Q` on the nodes of the cycle, and a
message passes `Q` on along the next `r` edges of the cycle, then so many rounds bring it along
them. -/
theorem Rounds.carry {I : V → Flagged → Prop} {Q : Flagged → Prop} {a r} (hc : IsCycle g c k)
    (hI : ∀ u v, g.Waits u v → ∀ n n', I v n → I u n' → I v (ph.process g v n n'))
    (hkeep : ∀ u i, g.Waits u (c i) → ∀ n n', I (c i) n → I u n' → Q n →
      Q (ph.process g (c i) n n'))
    (hpass : ∀ i < r, ∀ n n', I (c (a + i + 1)) n → I (c (a + i)) n' → Q n' →
      Q (ph.process g (c (a + i + 1)) n n'))
    (hs : ∀ w, I w (s w)) (ha : Q (s (c a))) (h : Rounds g ph r s s') :
    (∀ w, I w (s' w)) ∧ ∀ i ≤ r, Q (s' (c (a + i))) := by
  induction r generalizing s' with
  | zero =>
    obtain rfl := h
    refine ⟨hs, fun i hi => ?_⟩
    obtain rfl : i = 0 := by omega
    exact ha
  | succ r ih =>
  obtain ⟨s₁, h₁, hround⟩ := h
  obtain ⟨hs₁, hQ₁⟩ := ih (fun i hi => hpass i (by omega)) h₁
  -- the nodes that have it keep it, and the next one hears of it
  have hnext := hround.gain (Q := Q) (N := fun w n => I w n ∧ ∀ i ≤ r, w = c (a + i) → Q n)
    (fun u v hw n n' hn hn' => ⟨hI u v hw n n' hn.1 hn'.1, fun i hi hv => by
      subst hv
      exact hkeep u _ hw n n' hn.1 hn'.1 (hn.2 i hi rfl)⟩)
    (fun u hw n n' hn hn' => hkeep u _ hw n n' hn.1 hn'.1)
    (fun n n' hn hn' => hpass r (by omega) n n' hn.1 hn'.1 (hn'.2 r (le_refl r) rfl))
    (hc.waits (a + r)) (fun w => ⟨hs₁ w, fun i hi hw => hw ▸ hQ₁ i hi⟩)
  refine ⟨fun w => (hnext.1 w).1, fun i hi => ?_⟩
  rcases lt_or_ge i (r + 1) with hlt | hge
  · exact (hnext.1 _).2 i (by omega) rfl
  obtain rfl : i = r + 1 := by omega
  exact hnext.2

end Rounds

/-! ## The second phase -/

/-- A node in the second phase: before the cycle levels are below `T`, on the cycle between `T` and
`M`, with labels of the cycle. The node `c b` keeps its own label, and has detected the cycle or is
still to do so. -/
def Spreading (g : WaitGraph V) (c : ℕ → V) (T M b : ℕ) (v : V) (n : Flagged) : Prop :=
  (Upstream g c v → n.1.lclv < T) ∧
  (∀ i, v = c i → T ≤ n.1.lclv ∧ n.1.lclv ≤ M ∧ ∃ j, n.1.publicLabel = g.privateLabel (c j)) ∧
  (v = c b → n.1.publicLabel = g.privateLabel v ∧
    (n.2 = true ∨ n.1.lastSendCollectInfoPeriod ≠ n.1.lclPeriod))

section Second

variable {T M b : ℕ} (hi : Isolated g c) (hc : IsCycle g c k)
  (hmin : ∀ i, c i ≠ c b → (g.privateLabel (c b)).lt (g.privateLabel (c i)) = true)

section

include hmin

theorem not_lt_smallest (j : ℕ) : (g.privateLabel (c j)).lt (g.privateLabel (c b)) = false := by
  by_cases hj : c j = c b
  · rw [hj]
    exact Bool.eq_false_iff.mpr fun h => by simp [lt_asymm h] at h
  · exact lt_asymm (hmin j hj)

end

include hi hc

theorem Spreading.heard {i} (hw : g.Waits u v) (hv : v = c i) (hn : Spreading g c T M b v n)
    (hn' : Spreading g c T M b u n') :
    lcls.process g v n n' = n ∨ (n.1.lclv ≤ n'.1.lclv ∧ ∃ j, u = c j) := by
  rcases lt_or_ge n'.1.lclv n.1.lclv with h | h
  · exact .inl (process_lcls_of_lt h)
  obtain ⟨j, -, hj⟩ := hc.exists_add 1 i
  have hw' : g.Waits u (c (j + 1)) := by
    rw [add_comm j 1, hj, ← hv]
    exact hw
  rcases hi.waiter hw' with hu | hup
  · exact .inr ⟨h, j, hu⟩
  have := hn'.1 hup
  have := (hn.2.1 i hv).1
  omega

include hmin

theorem Spreading.process (hw : g.Waits u v) (hn : Spreading g c T M b v n)
    (hn' : Spreading g c T M b u n') : Spreading g c T M b v (lcls.process g v n n') := by
  refine ⟨fun hup => ?_, fun i hv => ?_, fun hv => ?_⟩
  · have hup' := hn'.1 (hi.upstream_pred hc hup hw)
    rcases lt_or_ge n'.1.lclv n.1.lclv with h | h
    · rw [process_lcls_of_lt h]
      exact hn.1 hup
    · rw [(process_lcls_of_le h).1]
      exact hup'
  · rcases hn.heard hi hc hw hv hn' with heq | ⟨hle, j, hu⟩
    · rw [heq]
      exact hn.2.1 i hv
    obtain ⟨hlevel, hlabel, -⟩ := process_lcls_of_le (g := g) (v := v) hle
    obtain ⟨hT, hM, hlabels⟩ := hn'.2.1 j hu
    rw [hlevel, hlabel]
    refine ⟨hT, hM, ?_⟩
    split
    · exact hlabels
    · exact (hn.2.1 i hv).2.2
  rcases hn.heard hi hc hw hv hn' with heq | ⟨hle, j, hu⟩
  · rw [heq]
    exact hn.2.2 hv
  obtain ⟨-, hlabel, hflag, hkeep⟩ := process_lcls_of_le (g := g) (v := v) hle
  obtain ⟨hown, hpending⟩ := hn.2.2 hv
  obtain ⟨j', hj'⟩ := (hn'.2.1 j hu).2.2
  refine ⟨?_, ?_⟩
  · rw [hlabel, if_neg, hown]
    rintro ⟨-, hlt⟩
    rw [hj', hown, hv, not_lt_smallest hmin j'] at hlt
    cases hlt
  by_cases heq : n'.1.publicLabel = g.privateLabel v
  · exact .inl (hflag heq hpending)
  obtain ⟨h₁, h₂, h₃⟩ := hkeep heq
  rw [h₁, h₂, h₃]
  exact hpending

variable [DecidableEq V] {s s' : V → Flagged}

/-- **The highest level goes round the cycle.** -/
theorem Spreading.levels {a} (hs : ∀ w, Spreading g c T M b w (s w)) (ha : (s (c a)).1.lclv = M)
    (h : Rounds g .lcls (k - 1) s s') :
    (∀ w, Spreading g c T M b w (s' w)) ∧ ∀ i, (s' (c i)).1.lclv = M := by
  have hlast : ∀ i n, Spreading g c T M b (c i) n → M ≤ n.1.lclv → n.1.lclv = M :=
    fun i n hn hle => le_antisymm (hn.2.1 i rfl).2.1 hle
  have hcarry := h.carry (Q := fun n => n.1.lclv = M) hc
    (fun u v hw n n' hn hn' => hn.process hi hc hmin hw hn')
    (fun u i hw n n' hn hn' hM => hlast i _ (hn.process hi hc hmin hw hn') (hM ▸ le_process_lcls))
    (fun i _ n n' hn _ hM => by
      rw [(process_lcls_of_le (hM ▸ (hn.2.1 _ rfl).2.1)).1]
      exact hM)
    hs ha
  refine ⟨hcarry.1, fun i => ?_⟩
  obtain ⟨j, hj, hji⟩ := hc.exists_add a i
  rw [← hji]
  exact hcarry.2 j (by omega)

/-- **The smallest label goes round the cycle**, once the levels are equal, and its node gets it
back. -/
theorem Spreading.detects (hs : ∀ w, Spreading g c M M b w (s w)) (h : Rounds g .lcls k s s') :
    (s' (c b)).2 = true := by
  obtain ⟨s₁, h₁, s₂, rfl, hround⟩ := Rounds.split (a := k - 1) (b := 1)
    (by rw [Nat.sub_add_cancel hc.pos]; exact h)
  have hI : ∀ u v, g.Waits u v → ∀ n n', Spreading g c M M b v n → Spreading g c M M b u n' →
      Spreading g c M M b v (lcls.process g v n n') :=
    fun u v hw n n' hn hn' => hn.process hi hc hmin hw hn'
  -- no label of the cycle is smaller
  have hkeep : ∀ u i, g.Waits u (c i) → ∀ n n', Spreading g c M M b (c i) n →
      Spreading g c M M b u n' → n.1.publicLabel = g.privateLabel (c b) →
      (lcls.process g (c i) n n').1.publicLabel = g.privateLabel (c b) := by
    intro u i hw n n' hn hn' hlabel
    rcases hn.heard hi hc hw rfl hn' with heq | ⟨hle, j, hu⟩
    · rw [heq]
      exact hlabel
    · obtain ⟨j', hj'⟩ := (hn'.2.1 j hu).2.2
      rw [(process_lcls_of_le hle).2.1, hlabel, hj', not_lt_smallest hmin, if_neg (by simp)]
  have hequal : ∀ i j n n', Spreading g c M M b (c i) n → Spreading g c M M b (c j) n' →
      n.1.lclv ≤ n'.1.lclv :=
    fun i j n n' hn hn' => Nat.le_trans (hn.2.1 i rfl).2.1 (hn'.2.1 j rfl).1
  obtain ⟨hs₁, hlabels⟩ :=
    h₁.carry (Q := fun n => n.1.publicLabel = g.privateLabel (c b)) (a := b) hc hI hkeep
    (fun i _ n n' hn hn' hlabel => by
      rw [(process_lcls_of_le (hequal _ _ n n' hn hn')).2.1, hlabel]
      by_cases hb : c (b + i + 1) = c b
      · rw [(hn.2.2 hb).1, hb, ite_self]
      obtain ⟨j, hj⟩ := (hn.2.1 _ rfl).2.2
      by_cases hjb : c j = c b
      · rw [hj, hjb, ite_self]
      · exact if_pos ⟨fun h => hb (g.privateLabel_inj h).symm, hj ▸ hmin j hjb⟩)
    hs ((hs _).2.2 rfl).1
  have hback : c (b + (k - 1) + 1) = c b := by
    rw [Nat.add_assoc, Nat.sub_add_cancel hc.pos]
    exact hc.periodic b
  refine (hround.gain (Q := fun n => n.2 = true) (u := c (b + (k - 1)))
    (N := fun w n => Spreading g c M M b w n ∧
      (w = c (b + (k - 1)) → n.1.publicLabel = g.privateLabel (c b)))
    (fun u v hw n n' hn hn' => ⟨hI u v hw n n' hn.1 hn'.1, fun hv => ?_⟩)
    (fun _ _ n n' _ _ => process_lcls_flag)
    (fun n n' hn hn' => (process_lcls_of_le (hequal _ _ n n' hn.1 hn'.1)).2.2.1 (hn'.2 rfl)
    (hn.1.2.2 rfl).2) (hback ▸ hc.waits (b + (k - 1)))
    (fun w => ⟨hs₁ w, fun hw => hw ▸ hlabels _ (Nat.le_refl _)⟩)).2
  subst hv
  exact hkeep u _ hw n n' hn.1 hn'.1 (hn.2 rfl)

end Second

/-- **An isolated cycle is detected in one period.** All nodes begin at the same level, each with
its own label and with nothing detected in this period. After more rounds of the first phase than
there are nodes, and twice the length of the cycle of the second, the node with the smallest label
of the cycle has set its flag. -/
theorem isolated_cycle_detected [Fintype V] [DecidableEq V] {s₀ s₁ s₂ : V → Flagged} {L p q b : ℕ}
    (hc : IsCycle g c k) (hi : Isolated g c)
    (hmin : ∀ i, c i ≠ c b → (g.privateLabel (c b)).lt (g.privateLabel (c i)) = true)
    (hstart : ∀ v, (s₀ v).1.lclv = L ∧ (s₀ v).1.publicLabel = g.privateLabel v ∧
      (s₀ v).1.lastSendCollectInfoPeriod ≠ (s₀ v).1.lclPeriod)
    (hp : Fintype.card V + 1 ≤ p) (hq : 2 * k ≤ q) (h₁ : Rounds g .lclp p s₀ s₁)
    (h₂ : Rounds g .lcls q s₁ s₂) : (s₂ (c b)).2 = true := by
  have hrise := Rising.rounds hc
    (fun w => ⟨⟨0, (hstart w).1, trivial⟩, fun _ _ => Nat.le_of_eq (hstart w).1.symm,
      (hstart w).2⟩) h₁
  obtain ⟨a, -, hmax⟩ := (Finset.range k).exists_max_image (fun i => (s₁ (c i)).1.lclv)
    ⟨0, Finset.mem_range.mpr hc.pos⟩
  have hspread : ∀ w, Spreading g c (L + Fintype.card V) (s₁ (c a)).1.lclv b w (s₁ w) := by
    intro w
    obtain ⟨⟨j, hj, hwalk⟩, hlow, hlabel, hsent⟩ := hrise w
    refine ⟨fun hup => ?_, fun i hw => ⟨?_, ?_, i, hw ▸ hlabel⟩, fun _ => ⟨hlabel, .inr hsent⟩⟩
    · have := hi.walk_lt hc hup hwalk
      omega
    · have := hlow i hw
      omega
    · rw [hw, ← hc.periodic.map_mod_nat i]
      exact hmax _ (Finset.mem_range.mpr (Nat.mod_lt _ hc.pos))
  obtain ⟨t, ht, hrest⟩ := Rounds.split (a := k - 1 + k) (b := q - (k - 1 + k))
    (by rw [Nat.add_sub_cancel' (by omega)]; exact h₂)
  obtain ⟨t', ht', hlast⟩ := ht.split
  obtain ⟨hs, hlevel⟩ := Spreading.levels hi hc hmin hspread rfl ht'
  have heven : ∀ w, Spreading g c (s₁ (c a)).1.lclv (s₁ (c a)).1.lclv b w (t' w) := by
    refine fun w => ⟨fun hup => ?_, fun i hw => ?_, (hs w).2.2⟩
    · exact Nat.lt_of_lt_of_le ((hs w).1 hup) ((hspread _).2.1 a rfl).1
    obtain ⟨-, hM, hlabels⟩ := (hs w).2.1 i hw
    exact ⟨Nat.le_of_eq (hw ▸ hlevel i).symm, hM, hlabels⟩
  have hset := Spreading.detects hi hc hmin heven hlast
  -- further rounds keep the flag
  exact (hrest.carry (I := fun w n => w = c b → n.2 = true) (Q := fun _ => True) (a := b) hc
    (fun _ _ _ _ _ hn _ hv => process_lcls_flag (hn hv)) (by simp) (by simp) (fun w hw => hw ▸ hset)
    trivial).1 _ rfl

/-- Two nodes that wait for each other, from level 5 on: the first one detects the cycle. -/
theorem isolated_cycle_detected_two_nodes : ∃ s₁ s₂,
    Rounds twoNodes .lclp 3 (fun v => (⟨5, twoNodes.privateLabel v, 8, 7, []⟩, false)) s₁ ∧
    Rounds twoNodes .lcls 4 s₁ s₂ ∧ (s₂ 0).2 = true := by
  obtain ⟨s₁, h₁⟩ := exists_rounds (g := twoNodes) .lclp 3
    (fun v => (⟨5, twoNodes.privateLabel v, 8, 7, []⟩, false))
  obtain ⟨s₂, h₂⟩ := exists_rounds (g := twoNodes) .lcls 4 s₁
  have hwaits : ∀ u v : Fin 2, twoNodes.Waits u v ↔ v = u + 1 := by
    unfold WaitGraph.Waits
    decide
  have hsucc : ∀ i, Fin.ofNat 2 (i + 1) = Fin.ofNat 2 i + 1 := fun i => (Fin.ofNat_add i 1).symm
  have hc : IsCycle twoNodes (Fin.ofNat 2) 2 := by
    refine ⟨by decide, fun i => ?_, fun i j hi hj h => ?_, fun i => (hwaits _ _).mpr (hsucc i)⟩
    · rw [hsucc, hsucc, add_assoc]
      exact add_zero _
    · have h := congrArg Fin.val h
      rwa [Fin.val_ofNat, Fin.val_ofNat, mod_eq_of_lt hi, mod_eq_of_lt hj] at h
  refine ⟨s₁, s₂, h₁, h₂, isolated_cycle_detected (L := 5) (b := 0) hc
    ⟨fun u _ _ _ => ⟨u, by simp⟩, fun i j h => ?_⟩ (fun i => ?_) (fun v => ⟨rfl, rfl, ?_⟩) ?_
      ?_ h₁ h₂⟩
  · rw [hwaits, hsucc] at h
    exact (add_right_cancel h).symm
  · generalize Fin.ofNat 2 i = v
    revert v
    decide
  all_goals simp

end OceanBase.Deadlock
