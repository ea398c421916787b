import OceanBase.Autoinc.Cache

/-!
# Auto-increment values of a server are unique

The intervals of the handles follow each other, because `next_value_` is past the end of every
interval handed out. It is stored as `needed_interval + increment`, and the next value of a handle
is stored in the same way. Both sums stay below `2 ^ 64` if the maximum of the column leaves room
for one increment, and then no value is returned twice. If the maximum leaves no room, `next_value_`
can wrap: the next statement then starts at the beginning of the cached range again.

## Main results

* `autoinc_unique_iff`
-/

namespace OceanBase.Autoinc

open List Option Nat TableNode Except State

def InFetched (fetched : List CacheNode) (v : ℕ) : Prop :=
  ∃ r ∈ fetched, r.cacheStart ≤ v ∧ v ≤ r.cacheEnd

def CacheHandle.HasOffset (handle : CacheHandle) (v : ℕ) : Prop :=
  v % handle.increment = realOffset handle.offset handle.increment % handle.increment

/-- **What is expected of the values**: they are distinct, lie inside the ranges fetched, have the
offset of their handle, and exceed what `local_sync_` was set to before the handle was allocated. -/
structure Sound (s : State) : Prop where
  nodup : (s.values.map Prod.snd).Nodup
  value : ∀ p ∈ s.values, InFetched s.fetched p.2 ∧
    ∃ x, s.handles[p.1]? = some x ∧ x.handle.HasOffset p.2 ∧ ∀ y ∈ x.syncs, y < p.2

/-! ## Allocation -/

section Alloc

variable {maxValue offset increment count : ℕ} {node : TableNode}

theorem calcNextValue_ok {last n} (hroom : last + increment ≤ 2 ^ 64) (hinc : 1 ≤ increment)
    (h : calcNextValue last offset increment = .ok n) :
    last ≤ n ∧ n % increment = realOffset offset increment % increment := by
  unfold calcNextValue at h
  rw [if_neg (by omega)] at h
  have h := ok.inj h
  generalize realOffset offset increment = real at h ⊢
  by_cases hle : last ≤ real
  · rw [if_pos hle, if_neg (by omega)] at h
    subst h
    exact ⟨hle, rfl⟩
  rw [if_neg hle] at h
  have hmod : (last - real + increment - 1) % 2 ^ 64 = last - real + increment - 1 :=
    mod_eq_of_lt (by omega)
  rw [hmod] at h
  -- rounding up to a multiple of the increment
  have hdiv := div_add_mod' (last - real + increment - 1) increment
  have hlt := mod_lt (last - real + increment - 1) (show increment > 0 by omega)
  have hadd : add64 ((last - real + increment - 1) / increment * increment) real =
      (last - real + increment - 1) / increment * increment + real :=
    mod_eq_of_lt (by omega)
  rw [hadd, if_neg (by omega)] at h
  subst h
  exact ⟨by omega, by rw [mul_comm, mul_add_mod]⟩

theorem TableNode.minValue_ok (h : node.minValue maxValue < maxValue) :
    node.nextValue ≤ node.minValue maxValue ∧ node.localSync < node.minValue maxValue ∧
      node.currNode.cacheStart ≤ node.minValue maxValue := by
  unfold minValue at *
  dsimp only at *
  split_ifs at * <;> omega

section

variable (hroom : maxValue + 65535 < 2 ^ 64) (hinc : 1 ≤ increment ∧ increment ≤ 65535)
  (hend : node.currNode.cacheEnd ≤ maxValue)
include hroom hinc hend

/-- **The interval of a new handle**: it starts past everything handed out and past the synced
value, and lies in the cached range; or there are no values left. -/
theorem TableNode.interval_ok {n e}
    (h : node.interval offset increment count maxValue = .ok (n, e)) : n ≤ e ∧ e ≤ maxValue ∧
      (n < maxValue → node.nextValue ≤ n ∧ node.localSync < n ∧ node.currNode.cacheStart ≤ n ∧
        e ≤ node.currNode.cacheEnd ∧ n % increment = realOffset offset increment % increment) := by
  have hnone (h : (maxValue, maxValue) = (n, e)) : n ≤ e ∧ e ≤ maxValue ∧ (n < maxValue →
      node.nextValue ≤ n ∧ node.localSync < n ∧ node.currNode.cacheStart ≤ n ∧
        e ≤ node.currNode.cacheEnd ∧ n % increment = realOffset offset increment % increment) := by
    cases h
    exact ⟨le_refl _, le_refl _, fun hlt => absurd hlt (lt_irrefl _)⟩
  unfold interval at h
  dsimp only at h
  have hpending : node.currNodeStateIsPending = false := by
    by_contra hp
    rw [if_pos (by simpa using hp)] at h
    cases h
  rw [hpending, if_neg Bool.false_ne_true] at h
  by_cases hmax : maxValue ≤ node.minValue maxValue
  · rw [if_pos hmax] at h
    exact hnone (ok.inj h)
  rw [if_neg hmax] at h
  by_cases hshort : node.currNode.cacheEnd < node.minValue maxValue
  · rw [if_pos hshort] at h
    cases h
  rw [if_neg hshort] at h
  have hmin := minValue_ok (not_le.mp hmax)
  cases hcalc : calcNextValue (node.minValue maxValue) offset increment with
  | error err => simp [hcalc] at h
  | ok m =>
  obtain ⟨hle, hoffset⟩ := calcNextValue_ok (by omega) hinc.1 hcalc
  simp only [hcalc] at h
  generalize hneeded : (if add64 m (increment * (count - 1)) < m then uint64Max
    else add64 m (increment * (count - 1))) = needed at h
  have hle' (hm : m ≤ maxValue) : m ≤ needed := by
    unfold uint64Max at hneeded
    split_ifs at hneeded <;> omega
  split_ifs at h with hpast hreach hover hreach
  · exact hnone (ok.inj h)
  · -- cut at the maximum, which is the end of the range
    obtain ⟨rfl, rfl⟩ := Prod.mk.inj (ok.inj h)
    exact ⟨by omega, by omega, fun _ => ⟨by omega, by omega, by omega, by omega, hoffset⟩⟩
  · obtain ⟨rfl, rfl⟩ := Prod.mk.inj (ok.inj h)
    exact ⟨hle' (by omega), by omega, fun _ => ⟨by omega, by omega, by omega, by omega, hoffset⟩⟩

/-- **Allocation** of a handle. -/
theorem TableNode.allocHandle_ok (hprefetch : node.prefetchNode.cacheStart = 0) {node' handle}
    (h : node.allocHandle offset increment count maxValue = (node', .ok handle)) :
    ∃ n e, node.interval offset increment count maxValue = .ok (n, e) ∧
      handle = ⟨n, e, n, offset, increment, maxValue, 0, false⟩ ∧
      node' = { node with nextValue := e + increment } := by
  unfold allocHandle tryAlloc at h
  rw [if_neg (by omega)] at h
  cases hint : node.interval offset increment count maxValue with
  | error err => cases err <;> simp [hint] at h
  | ok p =>
  obtain ⟨n, e⟩ := p
  obtain ⟨-, hle, -⟩ := interval_ok hroom hinc hend hint
  have hadd : add64 e increment = e + increment := mod_eq_of_lt (by omega)
  have hne : e ≠ uint64Max := by
    unfold uint64Max
    omega
  simp only [hint, if_neg hne, hadd] at h
  obtain ⟨hnode, hhandle⟩ := Prod.mk.inj h
  exact ⟨n, e, rfl, (ok.inj hhandle).symm, hnode.symm⟩

end

theorem TableNode.allocHandle_error (hprefetch : node.prefetchNode.cacheStart = 0) {node' err}
    (h : node.allocHandle offset increment count maxValue = (node', .error err)) :
    node' = node := by
  unfold allocHandle at h
  rw [if_neg (by omega)] at h
  cases htry : node.tryAlloc offset increment count maxValue with
  | ok p => simp [htry] at h
  | error e =>
    cases e <;> simp only [htry] at h <;> exact (Prod.mk.inj h).1.symm

end Alloc

/-! ## The invariant -/

/-- A handle, while the sums do not wrap. -/
structure HandleOk (maxValue : ℕ) (fetched : List CacheNode) (x : Issued) : Prop where
  maxValue_eq : x.handle.maxValue = maxValue
  increment : 1 ≤ x.handle.increment ∧ x.handle.increment ≤ 65535
  start_le : x.handle.prefetchStart ≤ x.handle.nextValue
  end_le : x.handle.prefetchEnd ≤ maxValue
  /-- a handle that starts at the maximum has no value -/
  covered : x.handle.prefetchStart < maxValue → ∀ v, x.handle.prefetchStart ≤ v →
    v ≤ x.handle.prefetchEnd → InFetched fetched v
  syncs : x.handle.prefetchStart < maxValue → ∀ y ∈ x.syncs, y < x.handle.prefetchStart
  offset : x.handle.prefetchStart < maxValue → x.handle.HasOffset x.handle.nextValue

structure Returned (maxValue : ℕ) (x : Issued) (v : ℕ) : Prop where
  start_lt : x.handle.prefetchStart < maxValue
  start_le : x.handle.prefetchStart ≤ v
  le_end : v ≤ x.handle.prefetchEnd
  lt_next : v < x.handle.nextValue
  offset : x.handle.HasOffset v

structure Inv (maxValue : ℕ) (s : State) : Prop where
  end_le : s.node.currNode.cacheEnd ≤ maxValue
  covered : ∀ v, 1 ≤ v → s.node.currNode.cacheStart ≤ v → v ≤ s.node.currNode.cacheEnd →
    InFetched s.fetched v
  prefetch : s.node.prefetchNode.cacheStart = 0
  syncs : ∀ y ∈ s.syncs, y ≤ s.node.localSync
  handle : ∀ x ∈ s.handles, HandleOk maxValue s.fetched x
  /-- `next_value_` is past every interval -/
  end_lt : ∀ x ∈ s.handles, x.handle.prefetchEnd < s.node.nextValue
  apart : ∀ (i j : ℕ) (x y : Issued), i < j → s.handles[i]? = some x → s.handles[j]? = some y →
    y.handle.prefetchStart < maxValue → x.handle.prefetchEnd < y.handle.prefetchStart
  value : ∀ p ∈ s.values, ∃ x, s.handles[p.1]? = some x ∧ Returned maxValue x p.2
  order : s.values.Pairwise fun new old => new.1 = old.1 → old.2 < new.2

structure Advances (x x' : Issued) : Prop where
  start : x'.handle.prefetchStart = x.handle.prefetchStart
  stop : x'.handle.prefetchEnd = x.handle.prefetchEnd
  offset : x'.handle.offset = x.handle.offset
  increment : x'.handle.increment = x.handle.increment
  maxValue : x'.handle.maxValue = x.handle.maxValue
  syncs : x'.syncs = x.syncs
  next_le : x.handle.nextValue ≤ x'.handle.nextValue
  next_mod : x'.handle.nextValue % x.handle.increment = x.handle.nextValue % x.handle.increment

section Invariant

variable {maxValue : ℕ} {s : State} {x x' : Issued}

variable {syncValue startInclusive endInclusive : ℕ} {fetched : List CacheNode} {v : ℕ}

theorem InFetched.cons (r : CacheNode) (h : InFetched fetched v) : InFetched (r :: fetched) v := by
  obtain ⟨r', hr', h⟩ := h
  exact ⟨r', mem_cons_of_mem _ hr', h⟩

theorem Advances.refl (x : Issued) : Advances x x :=
  ⟨rfl, rfl, rfl, rfl, rfl, rfl, le_refl _, rfl⟩

theorem Advances.hasOffset (h : Advances x x') : x'.handle.HasOffset v ↔ x.handle.HasOffset v := by
  unfold CacheHandle.HasOffset
  rw [h.offset, h.increment]

theorem HandleOk.advances (hx : HandleOk maxValue fetched x)
    (h : Advances x x') : HandleOk maxValue fetched x' := by
  refine ⟨h.maxValue.trans hx.maxValue_eq, ?_, ?_, ?_, ?_, ?_, ?_⟩
  · rw [h.increment]
    exact hx.increment
  · rw [h.start]
    exact le_trans hx.start_le h.next_le
  · rw [h.stop]
    exact hx.end_le
  · rw [h.start, h.stop]
    exact hx.covered
  · rw [h.start, h.syncs]
    exact hx.syncs
  · rw [h.start]
    intro hlt
    have hoffset := hx.offset hlt
    rw [h.hasOffset]
    unfold CacheHandle.HasOffset at *
    rw [h.next_mod]
    exact hoffset

theorem Returned.advances (hx : Returned maxValue x v) (h : Advances x x') :
    Returned maxValue x' v := by
  refine ⟨?_, ?_, ?_, lt_of_lt_of_le hx.lt_next h.next_le, h.hasOffset.mpr hx.offset⟩
  · rw [h.start]
    exact hx.start_lt
  · rw [h.start]
    exact hx.start_le
  · rw [h.stop]
    exact hx.le_end

section

variable {i j : ℕ} {z : Issued} {l : List Issued} (hi : l[i]? = some x) (h : Advances x x')
include hi h

theorem exists_of_getElem?_set (hj : (l.set i x')[j]? = some z) :
    ∃ z₀, l[j]? = some z₀ ∧ Advances z₀ z := by
  by_cases hij : i = j
  · subst hij
    rw [List.getElem?_set_self'] at hj
    rw [hi] at hj
    cases hj
    exact ⟨x, hi, h⟩
  · rw [List.getElem?_set_ne hij] at hj
    exact ⟨z, hj, .refl z⟩

theorem exists_getElem?_set (hj : l[j]? = some z) :
    ∃ z', (l.set i x')[j]? = some z' ∧ Advances z z' := by
  by_cases hij : i = j
  · subst hij
    rw [List.getElem?_set_self', hi]
    cases hi.symm.trans hj
    exact ⟨x', rfl, h⟩
  · rw [List.getElem?_set_ne hij]
    exact ⟨z, hj, .refl z⟩

end

theorem Inv.advance (h : Inv maxValue s) {i} (hi : s.handles[i]? = some x)
    (hx : Advances x x') : Inv maxValue { s with handles := s.handles.set i x' } := { h with
  handle := by
    intro z hz
    obtain ⟨j, hj⟩ := mem_iff_getElem?.mp hz
    obtain ⟨z₀, hj₀, hadv⟩ := exists_of_getElem?_set hi hx hj
    exact (h.handle z₀ (mem_of_getElem? hj₀)).advances hadv
  end_lt := by
    intro z hz
    obtain ⟨j, hj⟩ := mem_iff_getElem?.mp hz
    obtain ⟨z₀, hj₀, hadv⟩ := exists_of_getElem?_set hi hx hj
    rw [hadv.stop]
    exact h.end_lt z₀ (mem_of_getElem? hj₀)
  apart := by
    intro j k y z hjk hj hk
    obtain ⟨y₀, hj₀, hy⟩ := exists_of_getElem?_set hi hx hj
    obtain ⟨z₀, hk₀, hz⟩ := exists_of_getElem?_set hi hx hk
    rw [hy.stop, hz.start]
    exact h.apart j k y₀ z₀ hjk hj₀ hk₀
  value := by
    intro p hp
    obtain ⟨y, hy, hret⟩ := h.value p hp
    obtain ⟨y', hy', hadv⟩ := exists_getElem?_set hi hx hy
    exact ⟨y', hy', hret.advances hadv⟩ }

theorem Inv.addValue (h : Inv maxValue s) {i} (hi : s.handles[i]? = some x)
    (hret : Returned maxValue x v) (hnew : ∀ p ∈ s.values, p.1 = i → p.2 < v) :
    Inv maxValue { s with values := (i, v) :: s.values } := { h with
  value := by
    intro p hp
    rcases mem_cons.mp hp with rfl | hp
    · exact ⟨x, hi, hret⟩
    · exact h.value p hp
  order := pairwise_cons.mpr ⟨fun p hp heq => hnew p hp heq.symm, h.order⟩ }

theorem Inv.next (hroom : maxValue + 65535 < 2 ^ 64) (h : Inv maxValue s) {i}
    (hi : s.handles[i]? = some x) : Inv maxValue (s.next i x) := by
  have hx := h.handle x (mem_of_getElem? hi)
  have hinc := hx.increment
  have hmax := hx.maxValue_eq
  unfold State.next nextValue
  by_cases hdup : x.handle.lastRowDupFlag = true ∧ x.handle.lastValueToConfirm ≠ 0
  · have hfresh : ¬x.handle.Fresh := fun hfresh => hfresh.1 hdup
    simp only [if_pos hdup, if_neg hfresh]
    exact h.advance hi ⟨rfl, rfl, rfl, rfl, rfl, rfl, le_refl _, rfl⟩
  rw [if_neg hdup]
  by_cases hlt : x.handle.nextValue < x.handle.maxValue
  · rw [if_neg (not_le.mpr hlt)]
    by_cases hend : x.handle.prefetchEnd < x.handle.nextValue
    · rw [if_pos hend]
      exact h.advance hi (.refl x)
    have hfresh : x.handle.Fresh := ⟨hdup, hlt⟩
    have hadd : add64 x.handle.nextValue x.handle.increment =
        x.handle.nextValue + x.handle.increment := mod_eq_of_lt (by omega)
    simp only [if_neg hend, if_pos hfresh, hadd]
    have hstart : x.handle.prefetchStart < maxValue := by
      have := hx.start_le
      omega
    have hadv : Advances x ⟨{ x.handle with
          lastValueToConfirm := x.handle.nextValue
          lastRowDupFlag := false
          nextValue := x.handle.nextValue + x.handle.increment }, x.syncs⟩ :=
      ⟨rfl, rfl, rfl, rfl, rfl, rfl, le_add_right _ _, add_mod_right _ _⟩
    refine (h.advance hi hadv).addValue (by rw [List.getElem?_set_self', hi]; rfl) ?_ ?_
    · exact ⟨hstart, hx.start_le, Nat.not_lt.mp hend, Nat.lt_add_of_pos_right hinc.1,
        hx.offset hstart⟩
    -- older values of the handle are below its next value
    intro p hp hpi
    obtain ⟨y, hy, hret⟩ := h.value p hp
    rw [hpi, hi] at hy
    cases hy
    exact hret.lt_next
  · have hfresh : ¬x.handle.Fresh := fun hfresh => hlt hfresh.2
    simp only [if_pos (not_lt.mp hlt), if_neg hfresh]
    cases calcPrevValue x.handle.maxValue x.handle.offset x.handle.increment with
    | error e | ok v => exact h.advance hi (.refl x)

/-- **A handle is allocated**: its interval is past all others. -/
theorem Inv.alloc (hroom : maxValue + 65535 < 2 ^ 64) (h : Inv maxValue s)
    {offset increment count} (hinc : 1 ≤ increment ∧ increment ≤ 65535) {node handle}
    (halloc : s.node.allocHandle offset increment count maxValue = (node, .ok handle)) :
    Inv maxValue { s with node, handles := s.handles ++ [⟨handle, s.syncs⟩] } := by
  obtain ⟨n, e, hint, rfl, rfl⟩ := allocHandle_ok hroom hinc h.end_le h.prefetch halloc
  obtain ⟨hne, hemax, hlive⟩ := interval_ok hroom hinc h.end_le hint
  have hold {i : ℕ} {y : Issued} (hi : (s.handles ++
      [⟨⟨n, e, n, offset, increment, maxValue, 0, false⟩, s.syncs⟩])[i]? = some y) :
      s.handles[i]? = some y ∨ i = s.handles.length ∧
        y = ⟨⟨n, e, n, offset, increment, maxValue, 0, false⟩, s.syncs⟩ := by
    rcases lt_trichotomy i s.handles.length with hlt | rfl | hgt
    · rw [List.getElem?_append_left hlt] at hi
      exact .inl hi
    · rw [List.getElem?_concat_length] at hi
      exact .inr ⟨rfl, (some.inj hi).symm⟩
    · rw [List.getElem?_eq_none (by rw [length_append, length_singleton]; omega)] at hi
      cases hi
  refine ⟨h.end_le, h.covered, h.prefetch, h.syncs, fun x hx => ?_, fun x hx => ?_, ?_,
    fun p hp => ?_, h.order⟩
  · rcases mem_append.mp hx with hx | hx
    · exact h.handle x hx
    rw [mem_singleton.mp hx]
    refine ⟨rfl, hinc, le_refl _, hemax, fun hlt v hv hve => ?_, fun hlt y hy => ?_,
      fun hlt => (hlive hlt).2.2.2.2⟩
    · have hlive := hlive hlt
      dsimp only at hv hve
      exact h.covered v (by omega) (by omega) (by omega)
    · exact lt_of_le_of_lt (h.syncs y hy) (hlive hlt).2.1
  · dsimp only
    rcases mem_append.mp hx with hx | hx
    · have hend := h.end_lt x hx
      have hle := (h.handle x hx).end_le
      by_cases hlt : n < maxValue
      · have := hlive hlt
        omega
      · omega
    · rw [mem_singleton.mp hx]
      exact Nat.lt_add_of_pos_right hinc.1
  · intro i j x y hij hi hj hlt
    rcases hold hj with hj | ⟨rfl, rfl⟩
    · rcases hold hi with hi | ⟨rfl, -⟩
      · exact h.apart i j x y hij hi hj hlt
      have := List.getElem?_eq_some_iff.mp hj |>.1
      omega
    · rcases hold hi with hi | ⟨rfl, -⟩
      · have hend := h.end_lt x (mem_of_getElem? hi)
        exact lt_of_lt_of_le hend (hlive hlt).1
      · exact absurd hij (lt_irrefl _)
  · obtain ⟨x, hx, hret⟩ := h.value p hp
    have hlen := (List.getElem?_eq_some_iff.mp hx).1
    exact ⟨x, (List.getElem?_append_left hlen).trans hx, hret⟩

theorem Inv.updateLocalSync (h : Inv maxValue s) (value : ℕ) :
    Inv maxValue { s with
      node := s.node.updateLocalSync value, syncs := value :: s.syncs } := { h with
  syncs := by
    intro y hy
    rcases mem_cons.mp hy with rfl | hy
    · exact le_max_right _ _
    · exact le_trans (h.syncs y hy) (le_max_left _ _) }

theorem TableNode.fetchTableNode_ok {mock}
    (h : fetchTableNode maxValue syncValue startInclusive endInclusive = .ok mock) :
    mock = ⟨startInclusive, min maxValue endInclusive⟩ ∨ mock = {} ∧ startInclusive = 0 := by
  unfold fetchTableNode CacheNode.combineCacheNode at h
  split_ifs at h with hmax hpos hbad hadj
  · exact absurd hadj.1 (lt_irrefl 0)
  · exact .inl (ok.inj h).symm
  · exact .inr ⟨(ok.inj h).symm, by simpa using hpos⟩

/-- **A range arrives**: it extends the cached one, or takes its place. -/
theorem Inv.refill (hroom : maxValue + 65535 < 2 ^ 64) (h : Inv maxValue s) {mock}
    (hfetch : fetchTableNode maxValue syncValue startInclusive endInclusive = .ok mock) :
    Inv maxValue { s with
      node := s.node.refill syncValue mock
      fetched := ⟨startInclusive, min maxValue endInclusive⟩ :: s.fetched
      syncs := syncValue :: s.syncs } := by
  have hsync := h.updateLocalSync syncValue
  have hend := h.end_le
  have hadd : add64 s.node.currNode.cacheEnd 1 = s.node.currNode.cacheEnd + 1 :=
    mod_eq_of_lt (by omega)
  have hmock := fetchTableNode_ok hfetch
  refine ⟨?_, ?_, rfl, hsync.syncs, fun x hx => ?_, h.end_lt, h.apart, h.value, h.order⟩
  · unfold TableNode.refill
    rw [hadd]
    rcases hmock with rfl | ⟨rfl, -⟩
    · split_ifs
      · exact min_le_left _ _
      · exact min_le_left _ _
    · rw [if_neg (by simp)]
      exact zero_le _
  · intro v hpos
    unfold TableNode.refill
    rw [hadd]
    rcases hmock with rfl | ⟨rfl, -⟩
    · have hnew (hv : startInclusive ≤ v ∧ v ≤ min maxValue endInclusive) :
          InFetched (⟨startInclusive, min maxValue endInclusive⟩ :: s.fetched) v :=
        ⟨_, mem_cons_self, hv⟩
      split_ifs with hadj
      · intro hstart hle
        by_cases hv : v ≤ s.node.currNode.cacheEnd
        · exact (h.covered v hpos hstart hv).cons _
        · exact hnew ⟨by dsimp only at hadj; omega, hle⟩
      · exact fun hstart hle => hnew ⟨hstart, hle⟩
    · -- a range from 0 on is ignored
      rw [if_neg (by simp)]
      intro _ hle
      exact absurd (le_trans hpos hle) (by simp)
  · have hx := h.handle x hx
    exact { hx with covered := fun hlt v hv hve => (hx.covered hlt v hv hve).cons _ }

/-- **A step** keeps the invariant. -/
theorem Inv.step (hroom : maxValue + 65535 < 2 ^ 64) (h : Inv maxValue s) {a s'}
    (hstep : s.step maxValue a = some s') : Inv maxValue s' := by
  cases a with
  | alloc offset increment count =>
    obtain ⟨⟨-, hinc, -⟩, hstep⟩ := ite_none_right_eq_some.mp hstep
    split at hstep
    next node handle halloc =>
      cases hstep
      exact h.alloc hroom hinc halloc
    next node e halloc =>
    cases hstep
    rw [allocHandle_error h.prefetch halloc]
    exact h
  | next i =>
    obtain ⟨x, hi, rfl⟩ := map_eq_some_iff.mp hstep
    exact h.next hroom hi
  | dupRow i =>
    obtain ⟨x, hi, rfl⟩ := map_eq_some_iff.mp hstep
    exact h.advance hi ⟨rfl, rfl, rfl, rfl, rfl, rfl, le_refl _, rfl⟩
  | sync value =>
    obtain ⟨-, ⟨⟩⟩ := ite_none_right_eq_some.mp hstep
    exact h.updateLocalSync value
  | refill syncValue startInclusive endInclusive =>
    obtain ⟨-, hstep⟩ := ite_none_right_eq_some.mp hstep
    split at hstep
    next mock hfetch =>
      cases hstep
      exact h.refill hroom hfetch
    next =>
      cases hstep
      exact h

theorem Inv.init : Inv maxValue {} where
  end_le := zero_le _
  covered := fun v hpos _ hle => absurd (le_trans hpos hle) (by simp)
  prefetch := rfl
  syncs := by simp
  handle := by simp
  end_lt := by simp
  apart := by simp
  value := by simp
  order := .nil

theorem Inv.sound (h : Inv maxValue s) : Sound s := by
  refine ⟨pairwise_map.mpr (h.order.imp_of_mem fun {p q} hp hq horder heq => ?_), fun p hp => ?_⟩
  · obtain ⟨x, hx, hpx⟩ := h.value p hp
    obtain ⟨y, hy, hqy⟩ := h.value q hq
    have hpl := hpx.le_end
    have hps := hpx.start_le
    have hql := hqy.le_end
    have hqs := hqy.start_le
    -- the intervals of two handles are apart
    rcases lt_trichotomy p.1 q.1 with hlt | heq' | hgt
    · have := h.apart _ _ x y hlt hx hy hqy.start_lt
      omega
    · have := horder heq'
      omega
    · have := h.apart _ _ y x hgt hy hx hpx.start_lt
      omega
  · obtain ⟨x, hx, hret⟩ := h.value p hp
    have hok := h.handle x (mem_of_getElem? hx)
    refine ⟨hok.covered hret.start_lt _ hret.start_le hret.le_end, x, hx, hret.offset,
      fun y hy => ?_⟩
    exact lt_of_lt_of_le (hok.syncs hret.start_lt y hy) hret.start_le

theorem inv_of_reachable (hroom : maxValue + 65535 < 2 ^ 64)
    (hs : (autoincCache maxValue).Reachable s) : Inv maxValue s := by
  refine hs.of_keeps ?_ ?_
  · rintro s rfl
    exact .init
  · rintro s s' h ⟨a, hstep⟩
    exact h.step hroom hstep

end Invariant

/-! ## Where the sums wrap -/

section Wrap

variable {maxValue : ℕ}

def run (maxValue : ℕ) : State → List Act → Option State
  | s, [] => some s
  | s, a :: as => (s.step maxValue a).bind fun s' => run maxValue s' as

theorem run_reachable {s s' as} (hs : (autoincCache maxValue).Reachable s)
    (h : run maxValue s as = some s') : (autoincCache maxValue).Reachable s' :=
  hs.of_run h (fun _ => rfl) (fun _ _ _ => rfl) fun _ a _ ha => ⟨a, ha⟩

/-- On an unsigned 64-bit column a statement takes the value 10 below `2 ^ 64` with increment 10.
The sum is 0, and the next statement takes the same value. -/
theorem run_uint64Max : (run uint64Max {} [.alloc 6 10 1, .refill 0 (2 ^ 64 - 10) uint64Max,
    .alloc 6 10 1, .next 0, .alloc 6 10 1, .next 1]).map values =
      some [(1, 2 ^ 64 - 10), (0, 2 ^ 64 - 10)] := by
  decide

variable {first : ℕ}

/-- A range of `first` to the maximum, of which nothing is known to be used. -/
def lastRange (first maxValue next : ℕ) : TableNode :=
  { nextValue := next, currNode := ⟨first, maxValue⟩ }

/-- The handle with the first and the last value of that range. -/
def lastHandle (first maxValue : ℕ) : CacheHandle :=
  ⟨first, maxValue, first, first % 65535, 65535, maxValue, 0, false⟩

theorem allocHandle_lastRange (hfirst : first + 65535 = maxValue)
    (hwrap : 2 ^ 64 ≤ maxValue + 65535)
    (hmax : maxValue < uint64Max) {next} (hnext : next < 65535) :
    (lastRange first maxValue next).allocHandle (first % 65535) 65535 2 maxValue =
      (lastRange first maxValue (maxValue + 65535 - 2 ^ 64), .ok (lastHandle first maxValue)) := by
  have hne : maxValue ≠ uint64Max := Nat.ne_of_lt hmax
  unfold uint64Max at hmax
  have hmin : (lastRange first maxValue next).minValue maxValue = first := by
    unfold minValue lastRange
    dsimp only
    split_ifs <;> omega
  have hreal : realOffset (first % 65535) 65535 = first % 65535 := by
    unfold realOffset
    rw [if_neg (by omega)]
  have hcalc : calcNextValue first (first % 65535) 65535 = .ok first := by
    have hround : add64 ((first - first % 65535 + 65535 - 1) % 2 ^ 64 / 65535 * 65535)
        (first % 65535) = first := by
      unfold add64
      omega
    unfold calcNextValue
    dsimp only
    rw [hreal, hround, if_neg (by omega), if_neg (show ¬first ≤ first % 65535 by omega),
      if_neg (lt_irrefl _)]
  have hsum : add64 first (65535 * (2 - 1)) = maxValue := by
    unfold add64
    omega
  have hint : (lastRange first maxValue next).interval (first % 65535) 65535 2 maxValue =
      .ok (first, maxValue) := by
    have hlt : ¬maxValue < first := by omega
    unfold interval
    rw [hmin]
    simp only [hcalc, hsum, lastRange, if_neg hlt, Bool.false_eq_true, if_false, lt_irrefl]
    rw [if_neg (by omega)]
  have hadd : add64 maxValue 65535 = maxValue + 65535 - 2 ^ 64 := by
    unfold add64
    omega
  unfold allocHandle tryAlloc
  simp only [hint, hadd, if_neg hne]
  rfl

theorem next_lastHandle (i : ℕ) (s : State) (syncs : List ℕ) (hfirst : first < maxValue) :
    ∃ handles, s.next i ⟨lastHandle first maxValue, syncs⟩ =
      { s with handles := s.handles.set i handles, values := (i, first) :: s.values } := by
  have hfresh : (lastHandle first maxValue).Fresh :=
    ⟨fun h => absurd h.1 Bool.false_ne_true, hfirst⟩
  have hvalue : (nextValue (lastHandle first maxValue)).2 = .ok first := by
    have hend : ¬(lastHandle first maxValue).prefetchEnd < (lastHandle first maxValue).nextValue :=
      not_lt.mpr (le_of_lt hfirst)
    unfold nextValue
    rw [if_neg hfresh.1, if_neg (not_le.mpr hfresh.2), if_neg hend]
    rfl
  unfold State.next
  simp only [hvalue, if_pos hfresh]
  exact ⟨_, rfl⟩

section

variable (hfirst : first + 65535 = maxValue) (hwrap : 2 ^ 64 ≤ maxValue + 65535)
  (hmax : maxValue < uint64Max)
include hfirst hwrap hmax

theorem exists_take {next} (hnext : next < 65535) {s}
    (hs : (autoincCache maxValue).Reachable s) (hnode : s.node = lastRange first maxValue next) :
    ∃ s' i, (autoincCache maxValue).Reachable s' ∧
      s'.node = lastRange first maxValue (maxValue + 65535 - 2 ^ 64) ∧
      s'.values = (i, first) :: s.values := by
  have halloc := allocHandle_lastRange hfirst hwrap hmax hnext
  rw [← hnode] at halloc
  have hstep : s.step maxValue (.alloc (first % 65535) 65535 2) = some { s with
      node := lastRange first maxValue (maxValue + 65535 - 2 ^ 64)
      handles := s.handles ++ [⟨lastHandle first maxValue, s.syncs⟩] } := by
    simp only [step]
    rw [if_pos (by omega), halloc]
  generalize hs₁ : ({ s with
      node := lastRange first maxValue (maxValue + 65535 - 2 ^ 64)
      handles := s.handles ++ [⟨lastHandle first maxValue, s.syncs⟩] } : State) = s₁ at hstep
  have hnext₁ : s₁.step maxValue (.next s.handles.length) =
      some (s₁.next s.handles.length ⟨lastHandle first maxValue, s.syncs⟩) := by
    simp only [step, ← hs₁]
    rw [List.getElem?_concat_length, map_some]
  refine ⟨_, s.handles.length, (hs.step ⟨_, hstep⟩).step ⟨_, hnext₁⟩, ?_⟩
  obtain ⟨x, hx⟩ := next_lastHandle s.handles.length s₁ s.syncs (show first < maxValue by omega)
  rw [hx, ← hs₁]
  exact ⟨rfl, rfl⟩

/-- The same value twice, on a column whose maximum leaves no room. -/
theorem exists_twice :
    ∃ s i j, (autoincCache maxValue).Reachable s ∧ s.values = [(i, first), (j, first)] := by
  have hlt : maxValue < 2 ^ 64 - 1 := hmax
  have hfetch : fetchTableNode maxValue 0 first maxValue = .ok ⟨first, maxValue⟩ := by
    unfold fetchTableNode CacheNode.combineCacheNode
    rw [if_neg (by omega), if_pos (by simp only; omega), if_neg (by simp only; omega),
      if_neg (by simp), min_self]
  have hrefill : refill {} 0 ⟨first, maxValue⟩ = lastRange first maxValue 0 := by
    unfold refill
    rw [if_neg (by simp only [add64]; omega)]
    rfl
  have hstep : step maxValue {} (.refill 0 first maxValue) =
      some ⟨lastRange first maxValue 0, [], [⟨first, maxValue⟩], [0], []⟩ := by
    simp only [step, hfetch, hrefill, min_self]
    rw [if_pos ⟨by omega, by simp⟩]
  have hs : (autoincCache maxValue).Reachable
      ⟨lastRange first maxValue 0, [], [⟨first, maxValue⟩], [0], []⟩ :=
    (Machine.Reachable.init rfl).step ⟨_, hstep⟩
  obtain ⟨s₁, j, hs₁, hnode₁, hvalues₁⟩ := exists_take hfirst hwrap hmax (by decide) hs rfl
  obtain ⟨s₂, i, hs₂, -, hvalues₂⟩ := exists_take hfirst hwrap hmax (by omega) hs₁ hnode₁
  exact ⟨s₂, i, j, hs₂, hvalues₂.trans (by rw [hvalues₁])⟩

end

end Wrap

/-- **Auto-increment values of a server are unique just if the maximum leaves room for an
increment**: in every run the values are distinct, inside the ranges fetched, at the offset of their
handle, and past what was synced before it. -/
theorem autoinc_unique_iff {maxValue : ℕ} (hmax : maxValue ≤ uint64Max) :
    (∀ s, (autoincCache maxValue).Reachable s → Sound s) ↔ maxValue + 65535 < 2 ^ 64 := by
  refine ⟨fun h => ?_, fun hroom s hs => (inv_of_reachable hroom hs).sound⟩
  by_contra hwrap
  rcases eq_or_lt_of_le hmax with rfl | hlt
  · obtain ⟨s, hrun, hvalues⟩ := map_eq_some_iff.mp run_uint64Max
    have hnodup := (h s (run_reachable (.init rfl) hrun)).nodup
    rw [hvalues] at hnodup
    simp at hnodup
  obtain ⟨first, hfirst⟩ := Nat.exists_eq_add_of_le' (show 65535 ≤ maxValue by omega)
  obtain ⟨s, i, j, hs, hvalues⟩ := exists_twice hfirst.symm (Nat.not_lt.mp hwrap) hlt
  have hnodup := (h s hs).nodup
  rw [hvalues] at hnodup
  simp at hnodup

theorem autoinc_unique_bigint : (2 ^ 63 - 1 ≤ uint64Max) ∧
    ∀ s, (autoincCache (2 ^ 63 - 1)).Reachable s → Sound s :=
  ⟨by decide, (autoinc_unique_iff (by decide)).mpr (by decide)⟩

theorem autoinc_repeats : ∃ s, (autoincCache uint64Max).Reachable s ∧
    s.values = [(1, 2 ^ 64 - 10), (0, 2 ^ 64 - 10)] ∧ ¬Sound s := by
  obtain ⟨s, hrun, hvalues⟩ := map_eq_some_iff.mp run_uint64Max
  refine ⟨s, run_reachable (.init rfl) hrun, hvalues, fun h => ?_⟩
  have hnodup := h.nodup
  rw [hvalues] at hnodup
  simp at hnodup

end OceanBase.Autoinc
