import Mathlib

/-!
# Doubly linked chains

A chain of nodes is reached from its head along `prev`, the pointer to the node below; `next` leads
back to the node above. Pushing a node, popping the head and unlinking a node anywhere change a few
pointers. Against the list of nodes the chain stands for they are the operations one expects.

## Main definitions

* `Links`: the pointers, and `Links.push`, `Links.pop`, `Links.unlink`
* `Links.Rep`: the pointers represent a list of nodes

## Main results

* `Links.Rep.push`, `Links.Rep.pop`, `Links.Rep.unlink`: the operations on the represented list
-/

universe u

/-- The pointers of a chain. -/
structure Links (ι : Type u) where
  head : Option ι
  prev : ι → Option ι
  next : ι → Option ι

namespace Links

open List Function Option

variable {ι : Type u} [DecidableEq ι]

/-- The node `n` becomes the head. -/
def push (L : Links ι) (n : ι) : Links ι where
  head := some n
  prev := update L.prev n L.head
  next := match L.head with
    | none => update L.next n none
    | some h => update (update L.next n none) h (some n)

/-- The head is taken off. -/
def pop (L : Links ι) : Links ι :=
  match L.head with
  | none => L
  | some h =>
    { L with
      head := L.prev h
      next := match L.prev h with
        | none => L.next
        | some p => update L.next p none }

/-- The node below `n` is linked back to the node above it. -/
def linkBelow (L : Links ι) (n : ι) : Links ι :=
  { L with
    next := match L.prev n with
      | none => L.next
      | some p => update L.next p (L.next n) }

/-- The node `n` is taken out. A node that is not the head and has nothing above it is none of the
chain's. -/
def unlink (L : Links ι) (n : ι) : Option (Links ι) :=
  if L.head = some n then some (linkBelow { L with head := L.prev n } n)
  else if L.head = none then none
  else match L.next n with
    | none => none
    | some up => some (linkBelow { L with prev := update L.prev up (L.prev n) } n)

/-- The pointers of the nodes of `l` lead from one to the next, with `up` above the first and
`down` below the last. -/
def Seg (L : Links ι) : Option ι → List ι → Option ι → Prop
  | _, [], _ => True
  | up, n :: l, down => L.next n = up ∧ L.prev n = l.head?.or down ∧ L.Seg (some n) l down

/-- The chain is the list `l`, newest node first. -/
structure Rep (L : Links ι) (l : List ι) : Prop where
  nodup : l.Nodup
  head : L.head = l.head?
  seg : L.Seg none l none

variable {L L' : Links ι} {a b l : List ι} {n : ι} {up down : Option ι}

omit [DecidableEq ι] in
theorem seg_append : L.Seg up (a ++ b) down ↔
    L.Seg up a (b.head?.or down) ∧ L.Seg (a.getLast?.or up) b down := by
  induction a generalizing up with
  | nil => simp [Seg]
  | cons x a ih =>
  have hhead : (a ++ b).head?.or down = a.head?.or (b.head?.or down) := by
    rw [List.head?_append, Option.or_assoc]
  have hlast : (x :: a).getLast?.or up = a.getLast?.or (some x) := by
    cases a with
    | nil => rfl
    | cons y a => simp [List.getLast?_cons]
  rw [cons_append, Seg, Seg, ih, hhead, hlast]
  simp only [and_assoc]

omit [DecidableEq ι] in
/-- Only the pointers of the nodes of the list matter. -/
theorem Seg.congr (h : L.Seg up l down) (hprev : ∀ n ∈ l, L'.prev n = L.prev n)
    (hnext : ∀ n ∈ l, L'.next n = L.next n) : L'.Seg up l down := by
  induction l generalizing up with
  | nil => trivial
  | cons x l ih =>
  obtain ⟨h1, h2, h3⟩ := h
  rw [forall_mem_cons] at hprev hnext
  exact ⟨hnext.1.trans h1, hprev.1.trans h2, ih h3 hprev.2 hnext.2⟩

omit [DecidableEq ι] in
/-- The node above a list is another one: only the first node's `next` changes. -/
theorem Seg.above {up'} (h : L.Seg up l down) (hprev : ∀ n ∈ l, L'.prev n = L.prev n)
    (hfirst : ∀ n ∈ l.head?, L'.next n = up') (hrest : ∀ n ∈ l.tail, L'.next n = L.next n) :
    L'.Seg up' l down := by
  cases l with
  | nil => trivial
  | cons x l =>
  obtain ⟨-, h2, h3⟩ := h
  rw [forall_mem_cons] at hprev
  exact ⟨hfirst x rfl, hprev.1.trans h2, h3.congr hprev.2 hrest⟩

omit [DecidableEq ι] in
/-- The node below a list is another one: only the last node's `prev` changes. -/
theorem Seg.below {down' x} (h : L.Seg up (l ++ [x]) down)
    (hnext : ∀ n ∈ l ++ [x], L'.next n = L.next n) (hlast : L'.prev x = down')
    (hrest : ∀ n ∈ l, L'.prev n = L.prev n) : L'.Seg up (l ++ [x]) down' := by
  obtain ⟨h1, h2⟩ := seg_append.mp h
  rw [forall_mem_append, forall_mem_singleton] at hnext
  exact seg_append.mpr ⟨h1.congr hrest hnext.1, hnext.2.trans h2.1, hlast, trivial⟩

open Links

theorem Rep.push (h : L.Rep l) (hn : n ∉ l) : (L.push n).Rep (n :: l) := by
  have hne : ∀ m ∈ l, m ≠ n := fun m hm heq => hn (heq ▸ hm)
  have hprev : ∀ m ∈ l, (L.push n).prev m = L.prev m := fun m hm =>
    update_of_ne (hne m hm) _ _
  refine ⟨nodup_cons.mpr ⟨hn, h.nodup⟩, rfl, ?_, ?_, h.seg.above hprev ?_ ?_⟩
  · cases l with
    | nil => simp [push, h.head]
    | cons x l => simp [Links.push, h.head, update_of_ne (hne x mem_cons_self).symm]
  · simp [Links.push, h.head]
  · intro m hm
    have hhead : L.head = some m := h.head.trans hm
    simp [Links.push, hhead]
  intro m hm
  cases l with
  | nil => exact absurd hm not_mem_nil
  | cons x l =>
  have hmx : m ≠ x := fun heq => (nodup_cons.mp h.nodup).1 (heq ▸ hm)
  simp [push, h.head, update_of_ne hmx, update_of_ne (hne m (mem_cons_of_mem _ hm))]

theorem Rep.pop (h : L.Rep (n :: l)) : L.pop.Rep l := by
  obtain ⟨hnext, hprev, hseg⟩ := h.seg
  rw [or_none] at hprev
  obtain ⟨-, hnd⟩ := nodup_cons.mp h.nodup
  unfold Links.pop
  simp only [h.head, List.head?_cons]
  refine ⟨hnd, hprev, hseg.above (fun _ _ => rfl) ?_ ?_⟩
  · intro m hm
    simp [hprev.trans hm]
  intro m hm
  cases l with
  | nil => exact absurd hm not_mem_nil
  | cons x l =>
  have hmx : m ≠ x := fun heq => (nodup_cons.mp hnd).1 (heq ▸ hm)
  simp [hprev, update_of_ne hmx]

theorem Rep.unlink (h : L.Rep l) (hn : n ∈ l) :
    ∃ L', L.unlink n = some L' ∧ L'.Rep (l.erase n) := by
  obtain ⟨a, b, rfl⟩ := append_of_mem hn
  obtain ⟨hna, hnb, hdisj⟩ := nodup_append.mp h.nodup
  obtain ⟨hnotb, hnb⟩ := nodup_cons.mp hnb
  have hnota : n ∉ a := fun hmem => hdisj n hmem n mem_cons_self rfl
  have hab : ∀ x ∈ a, ∀ y ∈ b, x ≠ y := fun x hx y hy => hdisj x hx y (mem_cons_of_mem _ hy)
  rw [erase_append_right _ hnota, erase_cons_head]
  have hnd : (a ++ b).Nodup := nodup_append.mpr ⟨hna, hnb, hab⟩
  obtain ⟨hsa, hnextn, hprevn, hsb⟩ := seg_append.mp h.seg
  rw [or_none] at hnextn hprevn
  -- the part below: its first node is linked to what was above `n`
  have hbelow : ∀ M : Links ι, M.next = L.next → M.prev n = L.prev n →
      (∀ m ∈ b.head?, (M.linkBelow n).next m = a.getLast?) ∧
      (∀ m ∈ b.tail, (M.linkBelow n).next m = L.next m) ∧
      ∀ m ∈ a, (M.linkBelow n).next m = L.next m := by
    intro M hM hMn
    cases b with
    | nil => exact ⟨nofun, nofun, fun m _ => by simp [linkBelow, hMn, hprevn, hM]⟩
    | cons p b =>
    have hp : M.prev n = some p := hMn.trans hprevn
    refine ⟨fun m hm => ?_, fun m hm => ?_, fun m hm => ?_⟩
    · obtain rfl : p = m := by simpa using hm
      simp [linkBelow, hp, hM, hnextn]
    · have hmp : m ≠ p := fun heq => (nodup_cons.mp hnb).1 (heq ▸ hm)
      simp [linkBelow, hp, hM, update_of_ne hmp]
    · simp [linkBelow, hp, hM, update_of_ne (hab m hm p mem_cons_self)]
  unfold unlink
  rcases eq_nil_or_concat' a with rfl | ⟨a, u, rfl⟩
  · rw [if_pos (by simpa using h.head)]
    obtain ⟨hfirst, hrest, -⟩ := hbelow { L with head := L.prev n } rfl rfl
    exact ⟨_, rfl, hnd, hprevn, hsb.above (fun _ _ => rfl) hfirst hrest⟩
  have hu : a ++ [u] ++ n :: b = a ++ u :: n :: b := by simp
  have hhead : L.head ≠ some n ∧ L.head ≠ none := by
    rw [h.head, hu]
    cases a with
    | nil | cons x a => exact ⟨fun heq => hnota (by simp_all), by simp⟩
  have hnext : L.next n = some u := by simpa using hnextn
  rw [if_neg hhead.1, if_neg hhead.2, hnext]
  have hun : n ≠ u := fun heq => hnota (by simp [heq])
  obtain ⟨hfirst, hrest, hnexta⟩ := hbelow
    { L with prev := update L.prev u (L.prev n) } rfl (update_of_ne hun _ _)
  have hub : ∀ m ∈ b, m ≠ u := fun m hm heq => hab u (by simp) m hm heq.symm
  refine ⟨_, rfl, hnd, ?_, seg_append.mpr ⟨hsa.below hnexta ?_ ?_, ?_⟩⟩
  · change L.head = _
    rw [h.head]
    cases a <;> simp
  · change update L.prev u (L.prev n) u = _
    rw [update_self, hprevn, or_none]
  · intro m hm
    have hmu : m ≠ u := fun heq => (nodup_append.mp hna).2.2 m hm u (by simp) heq
    exact update_of_ne hmu _ _
  · rw [or_none]
    exact hsb.above (fun m hm => update_of_ne (hub m hm) _ _) hfirst hrest

omit [DecidableEq ι] in
theorem Rep.prev_eq (h : L.Rep (a ++ n :: b)) : L.prev n = b.head? := by
  obtain ⟨-, -, hprev, -⟩ := seg_append.mp h.seg
  rw [hprev, or_none]

/-- A node that is taken out still points to the node below it. -/
theorem Rep.unlink_prev (h : L.Rep (a ++ n :: b)) (hL : L.unlink n = some L') :
    L'.prev n = b.head? := by
  rw [← h.prev_eq]
  have hnext : L.next n ≠ some n := by
    obtain ⟨-, hnext, -⟩ := seg_append.mp h.seg
    rw [hnext, or_none]
    intro hlast
    have hmem := mem_of_getLast? hlast
    exact (nodup_append.mp h.nodup).2.2 n hmem n mem_cons_self rfl
  unfold Links.unlink at hL
  split at hL
  · obtain ⟨⟩ := hL
    rfl
  split at hL
  · exact nomatch hL
  split at hL
  · exact nomatch hL
  rename_i up hup
  obtain ⟨⟩ := hL
  have hne : n ≠ up := fun heq => hnext (hup.trans (congrArg some heq.symm))
  exact update_of_ne hne _ _

end Links
