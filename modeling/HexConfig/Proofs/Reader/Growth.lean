import HexConfig.Diagnostic
import HexConfig.Reader.Tally

/-!
# How a tally grows

Reading something written, which nests so deep and counts so much, changes a tally in one way,
whatever it is: the most containers open at once reaches as deep as it nests from here, and the count
of values goes up by what it counts, both up to the greatest number there is. That is `Tally.grow`.
Growing by one thing and then by another is growing by both (`Tally.grow_grow`), and a container
grows a tally by one more in each direction than what is in it (`Limits.leave_grow_open`).

The limits allow something to be read where the grown tally is within them. It is the same to check
the limits after each part as to check them once for all (`Limits.Allow.max`,
`Limits.Exceeded.max_right`), since what is counted only grows. Stopping at the greatest number does not
get in the way, as long as the containers that are really open stay below it.
-/

namespace HexConfig

/-- Adding up to the greatest number, bit by bit or at once. -/
theorem sumUpTo_sumUpTo (a b c : Nat) : sumUpTo (sumUpTo a b) c = sumUpTo a (b + c) := by
  unfold sumUpTo
  omega

theorem sumUpTo_le_sumUpTo {a b c d : Nat} (hac : a ≤ c) (hbd : b ≤ d) :
    sumUpTo a b ≤ sumUpTo c d := by
  unfold sumUpTo
  omega

/-- Counting up to the greatest number goes along with taking the larger of two. -/
theorem sumUpTo_max (a b c : Nat) : sumUpTo a (max b c) = max (sumUpTo a b) (sumUpTo a c) := by
  unfold sumUpTo
  omega

theorem sumUpTo_zero {a : Nat} (h : a ≤ Limits.greatest) : sumUpTo a 0 = a := by
  unfold sumUpTo
  omega

theorem sumUpTo_succ_left (a b : Nat) : sumUpTo (a + 1) b = sumUpTo a (b + 1) := by
  unfold sumUpTo
  omega

theorem le_sumUpTo {a b : Nat} (h : a ≤ Limits.greatest) : a ≤ sumUpTo a b := by
  unfold sumUpTo
  omega

/-- What a count answers for, it goes on answering for when as much is added to both, up to the
greatest number. -/
theorem add_le_sumUpTo {a n c k : Nat} (h : a ≤ n ∨ Limits.greatest ≤ n) (hck : c ≤ k) :
    a + c ≤ sumUpTo n k ∨ Limits.greatest ≤ sumUpTo n k := by
  unfold sumUpTo
  omega

theorem sumUpTo_le_greatest (a b : Nat) : sumUpTo a b ≤ Limits.greatest := Nat.min_le_right _ _

theorem sumUpTo_le (a b : Nat) : sumUpTo a b ≤ a + b := Nat.min_le_left _ _

/-- Counting two numbers at once is counting the one and then the other. -/
theorem sumUpTo_zero_add (a b : Nat) : sumUpTo 0 (a + b) = sumUpTo a b := by
  rw [sumUpTo, sumUpTo, Nat.zero_add]

/-- A sum is more than a limit if it really is, unless the limit is where counting stops. -/
theorem lt_sumUpTo_iff {limit a b : Nat} :
    limit < sumUpTo a b ↔ limit < a + b ∧ limit < Limits.greatest :=
  Nat.lt_min

namespace Tally

/-- What becomes of a tally when something is read that nests `nest` deep and counts `cost`. -/
def grow (t : Tally) (nest cost : Nat) : Tally where
  depth := t.depth
  peak := max t.peak (t.reach nest)
  nodes := sumUpTo t.nodes cost

@[simp]
theorem depth_grow (t : Tally) (nest cost : Nat) : (t.grow nest cost).depth = t.depth := rfl

@[simp]
theorem nodes_grow (t : Tally) (nest cost : Nat) :
    (t.grow nest cost).nodes = sumUpTo t.nodes cost := rfl

/-- Growing by one thing and by the next is growing by both. -/
theorem grow_grow (t : Tally) (n c n' c' : Nat) :
    (t.grow n c).grow n' c' = t.grow (max n n') (c + c') := by
  have hpeak : max (max t.peak (t.reach n)) (t.reach n') = max t.peak (t.reach (max n n')) := by
    rw [reach, reach, reach, sumUpTo_max, Nat.max_assoc]
  show Tally.mk t.depth (max (max t.peak (t.reach n)) (t.reach n')) (sumUpTo (sumUpTo t.nodes c) c')
    = Tally.mk t.depth (max t.peak (t.reach (max n n'))) (sumUpTo t.nodes (c + c'))
  rw [hpeak, sumUpTo_sumUpTo]

end Tally

namespace Limits

variable {limits : Limits} {t : Tally} {n c n' c' : Nat} {fault : Fault}

/-- A tally in good order: within the limits, and with no more containers open than were ever open. -/
structure Steady (limits : Limits) (t : Tally) : Prop where
  depth_le_peak : t.depth ≤ t.peak
  depth_le : t.depth ≤ limits.maxDepth
  nodes_le : t.nodes ≤ limits.maxNodes
  nodes_le_greatest : t.nodes ≤ greatest

/-- The limits have room for something that nests and counts so much. -/
def Allow (limits : Limits) (t : Tally) (nest cost : Nat) : Prop :=
  t.reach nest ≤ limits.maxDepth ∧ sumUpTo t.nodes cost ≤ limits.maxNodes

/-- The fault is that of a limit that is too low for something that nests and counts so much. -/
def Exceeded (limits : Limits) (t : Tally) (nest cost : Nat) (fault : Fault) : Prop :=
  fault = .nestingTooDeep limits.maxDepth ∧ limits.maxDepth < t.reach nest ∨
    fault = .tooManyNodes limits.maxNodes ∧ limits.maxNodes < sumUpTo t.nodes cost

/-- What exceeds the limits is not allowed by them. -/
theorem Exceeded.not_allow (h : limits.Exceeded t n c fault) : ¬ limits.Allow t n c := by
  rintro ⟨hdepth, hnodes⟩
  rcases h with ⟨-, h⟩ | ⟨-, h⟩
  · exact Nat.not_lt_of_le hdepth h
  · exact Nat.not_lt_of_le hnodes h

/-- What exceeds a limit exceeds it all the more with something more to read. -/
theorem Exceeded.mono {t' : Tally} (h : limits.Exceeded t n c fault)
    (hreach : t.reach n ≤ t'.reach n') (hsum : sumUpTo t.nodes c ≤ sumUpTo t'.nodes c') :
    limits.Exceeded t' n' c' fault :=
  h.imp (fun h => ⟨h.1, Nat.lt_of_lt_of_le h.2 hreach⟩)
    (fun h => ⟨h.1, Nat.lt_of_lt_of_le h.2 hsum⟩)

/-- What exceeds the limits does so with anything more beside it. -/
theorem Exceeded.max_left (h : limits.Exceeded t n c fault) :
    limits.Exceeded t (max n n') (max c c') fault :=
  h.mono (sumUpTo_le_sumUpTo (Nat.le_refl _) (Nat.le_max_left _ _))
    (sumUpTo_le_sumUpTo (Nat.le_refl _) (Nat.le_max_left _ _))

variable {t' : Tally} {kept : Nat}

/-- What exceeds a limit after something of which `kept` values stay counted. -/
theorem Exceeded.max_right (h : limits.Exceeded t' n' c' fault) (hdepth : t'.depth = t.depth)
    (hnodes : t'.nodes = sumUpTo t.nodes kept) :
    limits.Exceeded t (max n n') (max c (kept + c')) fault := by
  refine h.mono ?_ ?_
  · rw [Tally.reach, hdepth]
    exact sumUpTo_le_sumUpTo (Nat.le_refl _) (Nat.le_max_right _ _)
  · rw [hnodes, sumUpTo_sumUpTo]
    exact sumUpTo_le_sumUpTo (Nat.le_refl _) (Nat.le_max_right _ _)

/-- The limits allow two things one after the other if they allow each in its turn, where `kept`
values of the first stay counted. -/
theorem Allow.max (h : limits.Allow t n c) (hdepth : t'.depth = t.depth)
    (hnodes : t'.nodes = sumUpTo t.nodes kept) (h' : limits.Allow t' n' c') :
    limits.Allow t (max n n') (max c (kept + c')) := by
  obtain ⟨hreach, hsum⟩ := h
  obtain ⟨hreach', hsum'⟩ := h'
  rw [Tally.reach, hdepth] at hreach'
  rw [hnodes, sumUpTo_sumUpTo] at hsum'
  refine ⟨?_, ?_⟩
  · rw [Tally.reach, sumUpTo_max]
    exact Nat.max_le.mpr ⟨hreach, hreach'⟩
  · rw [sumUpTo_max]
    exact Nat.max_le.mpr ⟨hsum, hsum'⟩

/-- A tally that grows by what the limits allow stays in good order. -/
theorem Steady.grow (h : limits.Steady t) (hallow : limits.Allow t n c) :
    limits.Steady (t.grow n c) where
  depth_le_peak := Nat.le_trans h.depth_le_peak (Nat.le_max_left _ _)
  depth_le := h.depth_le
  nodes_le := hallow.2
  nodes_le_greatest := sumUpTo_le_greatest _ _

/-- Reading nothing changes nothing, as long as the open containers can be counted. -/
theorem Steady.grow_zero (h : limits.Steady t) (hroom : t.depth ≤ greatest) : t.grow 0 0 = t := by
  obtain ⟨depth, peak, nodes⟩ := t
  have hpeak : max peak (sumUpTo depth 0) = peak := by
    rw [sumUpTo_zero hroom]
    exact Nat.max_eq_left h.depth_le_peak
  show Tally.mk depth (max peak (sumUpTo depth 0)) (sumUpTo nodes 0) = ⟨depth, peak, nodes⟩
  rw [hpeak, sumUpTo_zero h.nodes_le_greatest]

/-- The limits always have room for nothing. -/
theorem Steady.allow_zero (h : limits.Steady t) (hroom : t.depth ≤ greatest) :
    limits.Allow t 0 0 := by
  refine ⟨?_, ?_⟩
  · rw [Tally.reach, sumUpTo_zero hroom]
    exact h.depth_le
  · rw [sumUpTo_zero h.nodes_le_greatest]
    exact h.nodes_le

/-- A value that is no container. -/
theorem Steady.charge_eq_grow (h : limits.Steady t) (hroom : t.depth ≤ greatest) (n : Nat) :
    t.charge n = t.grow 0 n := by
  have hpeak : max t.peak (t.reach 0) = t.peak := by
    rw [Tally.reach, sumUpTo_zero hroom]
    exact Nat.max_eq_left h.depth_le_peak
  show Tally.mk t.depth t.peak (sumUpTo t.nodes n) =
    Tally.mk t.depth (max t.peak (t.reach 0)) (sumUpTo t.nodes n)
  rw [hpeak]

/-! ## Containers -/

/-- The inside of a container reaches one deeper, and the container counts as well. -/
theorem sumUpTo_open (t : Tally) (n c : Nat) :
    (t.enter.charge 1).reach n = t.reach (n + 1) ∧
      sumUpTo (t.enter.charge 1).nodes c = sumUpTo t.nodes (c + 1) := by
  refine ⟨sumUpTo_succ_left t.depth n, ?_⟩
  show sumUpTo (sumUpTo t.nodes 1) c = sumUpTo t.nodes (c + 1)
  rw [sumUpTo_sumUpTo, Nat.add_comm]

/-- What exceeds the limits inside a container exceeds them with the container. -/
theorem Exceeded.open (h : limits.Exceeded (t.enter.charge 1) n c fault) :
    limits.Exceeded t (n + 1) (c + 1) fault :=
  h.mono (Nat.le_of_eq (sumUpTo_open t n c).1) (Nat.le_of_eq (sumUpTo_open t n c).2)

/-- What is allowed inside a container is allowed with the container. -/
theorem Allow.open (h : limits.Allow (t.enter.charge 1) n c) : limits.Allow t (n + 1) (c + 1) := by
  obtain ⟨hdepth, hnodes⟩ := h
  exact ⟨(sumUpTo_open t n c).1 ▸ hdepth, (sumUpTo_open t n c).2 ▸ hnodes⟩

/-- A container that may not be opened is too deep, whatever is in it. -/
theorem exceeded_of_le_depth (hroom : t.depth + 1 ≤ greatest) (h : limits.maxDepth ≤ t.depth)
    (n c : Nat) : limits.Exceeded t (n + 1) c (.nestingTooDeep limits.maxDepth) := by
  refine .inl ⟨rfl, ?_⟩
  unfold Tally.reach sumUpTo
  omega

/-- What counts too much already counts too much with what is in it. -/
theorem exceeded_of_lt_nodes {k : Nat} (h : limits.maxNodes < sumUpTo t.nodes k) (hk : k ≤ c) :
    limits.Exceeded t n c (.tooManyNodes limits.maxNodes) :=
  .inr ⟨rfl, Nat.lt_of_lt_of_le h (sumUpTo_le_sumUpTo (Nat.le_refl _) hk)⟩

/-- A tally is in good order once a container is opened within the limits. -/
theorem steady_open (hdepth : t.depth < limits.maxDepth)
    (hnodes : (t.enter.charge 1).nodes ≤ limits.maxNodes) : limits.Steady (t.enter.charge 1) where
  depth_le_peak := Nat.le_max_right _ _
  depth_le := hdepth
  nodes_le := hnodes
  nodes_le_greatest := sumUpTo_le_greatest _ _

/-- When a container is closed again, the tally has grown by what was in it and by itself. -/
theorem leave_grow_open (hroom : t.depth + 1 ≤ greatest) (n c : Nat) :
    ((t.enter.charge 1).grow n c).leave = t.grow (n + 1) (c + 1) := by
  have hpeak : max (max t.peak (t.depth + 1)) (sumUpTo (t.depth + 1) n)
      = max t.peak (sumUpTo t.depth (n + 1)) := by
    unfold sumUpTo
    omega
  show Tally.mk (t.depth + 1 - 1) (max (max t.peak (t.depth + 1)) (sumUpTo (t.depth + 1) n))
    (sumUpTo (sumUpTo t.nodes 1) c) = Tally.mk t.depth (max t.peak (sumUpTo t.depth (n + 1)))
    (sumUpTo t.nodes (c + 1))
  rw [hpeak, sumUpTo_sumUpTo, Nat.add_sub_cancel, Nat.add_comm 1 c]

end Limits

end HexConfig
