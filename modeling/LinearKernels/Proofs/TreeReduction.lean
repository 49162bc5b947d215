import LinearKernels.Proofs.WorkGroups

/-!
Sums by a work group. Each item first adds up the terms at its own indices, in strides of the
group, and stores its sum in a shared array. Then the group halves the array again and again,
with a barrier before each round, until the first item delivers the first element. At each
point of its run an item relies on a few facts only, and no action of another item can break
them, so the order of the items does not matter.
-/

namespace LinearKernels

variable {V : Type}

/-! ### Sums in strides -/

section

variable [AddCommMonoid V] (f : Nat → V) {n stride i : Nat}

/-- The sum of the terms at `i`, `i + stride` and so on, below `n`. -/
def strideSum (n stride i : Nat) : V :=
  if i < n ∧ 0 < stride then f i + strideSum n stride (i + stride) else 0
termination_by n - i

theorem strideSum_of_lt (hstride : 0 < stride) (hi : i < n) :
    strideSum f n stride i = f i + strideSum f n stride (i + stride) := by
  rw [strideSum, if_pos ⟨hi, hstride⟩]

theorem strideSum_of_le (hi : n ≤ i) : strideSum f n stride i = 0 := by
  rw [strideSum, if_neg (by omega)]

/-- Every other term belongs to one of two sums with twice the stride. -/
theorem strideSum_double (hstride : 0 < stride) :
    strideSum f n stride i =
      strideSum f n (2 * stride) i + strideSum f n (2 * stride) (i + stride) := by
  induction hk : n - i using Nat.strong_induction_on generalizing i with
  | _ k ih =>
    by_cases hi : i < n
    · have hrest := ih (n - (i + stride)) (by omega) rfl
      have hsame : i + stride + stride = i + 2 * stride := by omega
      rw [hsame] at hrest
      rw [strideSum_of_lt f hstride hi, strideSum_of_lt f (by omega : 0 < 2 * stride) hi, hrest]
      rw [add_comm (strideSum f n (2 * stride) (i + stride)), add_assoc]
    · rw [strideSum_of_le f (by omega), strideSum_of_le f (by omega),
        strideSum_of_le f (by omega), add_zero]

theorem strideSum_one (n : Nat) : strideSum f n 1 0 = ∑ i ∈ Finset.range n, f i := by
  have hprefix : ∀ i ≤ n, ∑ k ∈ Finset.range i, f k + strideSum f n 1 i = strideSum f n 1 0 := by
    intro i
    induction i with
    | zero => simp
    | succ i ih =>
      intro hi
      rw [← ih (by omega), strideSum_of_lt f Nat.one_pos (by omega : i < n),
        Finset.sum_range_succ, add_assoc]
  rw [← hprefix n le_rfl, strideSum_of_le f le_rfl, add_zero]

end

/-! ### The actions of an item -/

/-- A sum over `length` terms by a group of `2 ^ levels` items: how an item acts, the terms, and
the cell that is to hold the sum. -/
structure GroupSum (V : Type) where
  act? : Nat → GroupState V → ItemAction → Option (GroupState V)
  levels : Nat
  length : Nat
  term : Memory V → Nat → V
  result : Handle
  waits : ∀ t s, act? t s .barrier = none

namespace GroupSum

variable (R : GroupSum V) (t : Nat)

/-- What the others see of an action of item `t` with `j` barriers to come. -/
structure Touches (j : Nat) (s s' : GroupState V) : Prop where
  own : ∀ u, u ≠ t → s'.own u = s.own u
  shared : ∀ u, u ≠ t → s'.shared bufferName u = s.shared bufferName u
  lower : j < R.levels → s'.shared = s.shared ∨ t < 2 ^ j
  memory : s'.memory = s.memory ∨ t = 0 ∧ j = 0

section

variable {R t} {j : Nat} (s : GroupState V)

theorem touches_setOwn (name : String) (v : V) : R.Touches t j s (s.setOwn t name v) where
  own _ hu := s.own_setOwn_ne t name v hu
  shared _ _ := rfl
  lower _ := .inl rfl
  memory := .inl rfl

theorem touches_setShared (v : V) (hlower : j < R.levels → t < 2 ^ j) :
    R.Touches t j s (s.setShared bufferName t v) where
  own _ _ := rfl
  shared _ hu := s.shared_setShared_ne t bufferName v hu
  lower hj := .inr (hlower hj)
  memory := .inl rfl

end

variable [AddCommMonoid V]

def Zeroes (a : ItemAction) : Prop :=
  ∀ s, R.act? t s a = some (s.setOwn t totalName 0)

/-- The term at `i` is added to the item's own sum. -/
def Adds (i : Nat) (a : ItemAction) : Prop :=
  ∀ s, R.act? t s a = some (s.setOwn t totalName (s.own t totalName + R.term s.memory i))

/-- The item's own sum is stored where others find it. -/
def Parks (a : ItemAction) : Prop :=
  ∀ s, R.act? t s a = some (s.setShared bufferName t (s.own t totalName))

/-- The partner's element is added to the item's own. -/
def Folds (j : Nat) (a : ItemAction) : Prop :=
  ∀ s, R.act? t s a =
    some (s.setShared bufferName t (s.shared bufferName t + s.shared bufferName (t + 2 ^ j)))

def Delivers (a : ItemAction) : Prop :=
  ∀ s, R.act? t s a =
    some { s with memory := s.memory.write R.result (0, 0) (s.shared bufferName 0) }

/-- What is left to do with `j` barriers to come, if this round is over. -/
inductive Folding : Nat → List ItemAction → Prop
  | deliver {a : ItemAction} (ht : t = 0) (ha : R.Delivers t a) : Folding 0 [a]
  | rest (ht : t ≠ 0) : Folding 0 []
  | fold {j : Nat} {a : ItemAction} {acts : List ItemAction} (ht : t < 2 ^ j) (ha : R.Folds t j a)
      (h : Folding j acts) : Folding (j + 1) (.barrier :: a :: acts)
  | idle {j : Nat} {acts : List ItemAction} (ht : ¬ t < 2 ^ j) (h : Folding j acts) :
      Folding (j + 1) (.barrier :: acts)

/-- What is left to do if the next index is `i`. -/
inductive Adding : Nat → List ItemAction → Prop
  | add {i : Nat} {a : ItemAction} {acts : List ItemAction} (hi : i < R.length)
      (ha : R.Adds t i a) (h : Adding (i + 2 ^ R.levels) acts) : Adding i (a :: acts)
  | park {i : Nat} {a : ItemAction} {acts : List ItemAction} (hi : R.length ≤ i)
      (ha : R.Parks t a) (h : R.Folding t R.levels acts) : Adding i (a :: acts)

/-- All that an item does. -/
inductive Reducing : List ItemAction → Prop
  | start {a : ItemAction} {acts : List ItemAction} (ha : R.Zeroes t a) (h : R.Adding t t acts) :
      Reducing (a :: acts)

/-! ### What an item relies on -/

/-- The terms of a memory that belong to an item when the group has `2 ^ j` items. -/
def sum (μ : Memory V) (j i : Nat) : V :=
  strideSum (R.term μ) R.length (2 ^ j) i

theorem sum_succ (μ : Memory V) (j i : Nat) :
    R.sum μ j i = R.sum μ (j + 1) i + R.sum μ (j + 1) (i + 2 ^ j) := by
  have hpower : 2 ^ (j + 1) = 2 * 2 ^ j := by rw [Nat.pow_succ, Nat.mul_comm]
  rw [sum, sum, sum, hpower]
  exact strideSum_double _ (Nat.two_pow_pos j)

/-- The memory with the sum in the result's cell. -/
def outcome (μ : Memory V) : Memory V :=
  μ.write R.result (0, 0) (R.sum μ 0 0)

/-- What item `t` can rely on with `j` barriers to come and the actions left to do. -/
inductive At (μ : Memory V) (s : GroupState V) : Nat → List ItemAction → Prop
  | fresh {acts : List ItemAction} (h : R.Reducing t acts) (hmemory : s.memory = μ) :
      At μ s R.levels acts
  | adding {i : Nat} {acts : List ItemAction} (h : R.Adding t i acts)
      (hsum : s.own t totalName + R.sum μ R.levels i = R.sum μ R.levels t)
      (hmemory : s.memory = μ) :
      At μ s R.levels acts
  | folding {j : Nat} {a : ItemAction} {acts : List ItemAction}
      (hj : j < R.levels) (ht : t < 2 ^ j) (ha : R.Folds t j a)
      (h : R.Folding t j acts) (hown : s.shared bufferName t = R.sum μ (j + 1) t)
      (hpartner : s.shared bufferName (t + 2 ^ j) = R.sum μ (j + 1) (t + 2 ^ j))
      (hmemory : t = 0 → s.memory = μ) : At μ s j (a :: acts)
  | folded {j : Nat} {acts : List ItemAction} (h : R.Folding t j acts)
      (hsum : t < 2 ^ j → s.shared bufferName t = R.sum μ j t)
      (hmemory : t = 0 ∨ j = R.levels → s.memory = μ) : At μ s j acts
  | delivered (ht : t = 0) (hmemory : s.memory = R.outcome μ) : At μ s 0 []

variable {R t} {μ : Memory V} {s s' : GroupState V} {j : Nat} {a : ItemAction}
  {acts : List ItemAction}

/-- An action leads to the item's next point. -/
theorem At.act (h : R.At t μ s j (a :: acts)) (hact : R.act? t s a = some s') :
    R.At t μ s' j acts ∧ R.Touches t j s s' := by
  cases h with
  | fresh h hmemory =>
    cases h with
    | start ha h =>
      obtain rfl := Option.some.inj ((ha s).symm.trans hact)
      exact ⟨.adding h (by simp) hmemory, touches_setOwn _ _ _⟩
  | @adding i _ h hsum hmemory =>
    cases h with
    | add hi ha h =>
      obtain rfl := Option.some.inj ((ha s).symm.trans hact)
      refine ⟨.adding h ?_ hmemory, touches_setOwn _ _ _⟩
      rw [← hsum, GroupState.own_setOwn_same, hmemory, add_assoc, sum, sum,
        strideSum_of_lt _ (Nat.two_pow_pos R.levels) hi]
    | park hi ha h =>
      obtain rfl := Option.some.inj ((ha s).symm.trans hact)
      refine ⟨.folded h (fun _ => ?_) fun _ => hmemory, touches_setShared _ _ fun hlt =>
        absurd hlt (Nat.lt_irrefl _)⟩
      rw [← hsum, GroupState.shared_setShared_same, sum, strideSum_of_le _ hi, add_zero]
  | folding hj ht ha h hown hpartner hmemory =>
    obtain rfl := Option.some.inj ((ha s).symm.trans hact)
    refine ⟨.folded h (fun _ => ?_) fun hcase => ?_, touches_setShared _ _ fun _ => ht⟩
    · rw [GroupState.shared_setShared_same, hown, hpartner, ← R.sum_succ]
    · exact hmemory (hcase.resolve_right hj.ne)
  | folded h hsum hmemory =>
    cases h with
    | deliver ht ha =>
      obtain rfl := Option.some.inj ((ha s).symm.trans hact)
      subst ht
      refine ⟨.delivered rfl ?_, ⟨fun _ _ => rfl, fun _ _ => rfl,
        fun _ => .inl rfl, .inr ⟨rfl, rfl⟩⟩⟩
      rw [outcome, ← hsum (Nat.two_pow_pos 0), ← hmemory (.inl rfl)]
    | fold | idle =>
      rw [R.waits] at hact
      cases hact

/-- Others do not break what an item relies on. -/
theorem At.stable {u : Nat} (hu : u < 2 ^ R.levels) (hut : u ≠ t) (htouch : R.Touches t j s s')
    (h : R.At u μ s j acts) : R.At u μ s' j acts := by
  -- With no barrier to come, the memory changes at item 0, which is the only one if there were
  -- none at all.
  have hmemory : u = 0 ∨ j = R.levels → s'.memory = s.memory := by
    intro hcase
    rcases htouch.memory with hsame | ⟨rfl, rfl⟩
    · exact hsame
    · rcases hcase with rfl | hlevels
      · exact absurd rfl hut
      · rw [← hlevels] at hu
        omega
  cases h with
  | fresh h hμ => exact .fresh h ((hmemory (.inr rfl)).trans hμ)
  | adding h hsum hμ =>
    rw [← htouch.own u hut] at hsum
    exact .adding h hsum ((hmemory (.inr rfl)).trans hμ)
  | folding hj ht ha h hown hpartner hμ =>
    rw [← htouch.shared u hut] at hown
    have hother : s'.shared bufferName (u + 2 ^ j) = s.shared bufferName (u + 2 ^ j) := by
      rcases htouch.lower hj with hsame | hlower
      · rw [hsame]
      · exact htouch.shared _ (by omega)
    rw [← hother] at hpartner
    exact .folding hj ht ha h hown hpartner fun hzero => (hmemory (.inl hzero)).trans (hμ hzero)
  | folded h hsum hμ =>
    rw [← htouch.shared u hut] at hsum
    exact .folded h hsum fun hcase => (hmemory hcase).trans (hμ hcase)
  | delivered ht hμ => exact .delivered ht ((hmemory (.inl ht)).trans hμ)

/-- An item that does not wait can act, and one that neither waits nor acts has finished. -/
theorem At.progress (h : R.At t μ s j acts) :
    (∃ a rest s', acts = a :: rest ∧ R.act? t s a = some s') ∨ (∃ i, j = i + 1 ∧
      acts.head? = some .barrier) ∨ j = 0 ∧ acts = [] ∧ (t = 0 → s.memory = R.outcome μ) := by
  cases h with
  | fresh h hmemory =>
    cases h with
    | start ha h => exact .inl ⟨_, _, _, rfl, ha s⟩
  | adding h hsum hmemory =>
    cases h with
    | add hi ha h => exact .inl ⟨_, _, _, rfl, ha s⟩
    | park hi ha h => exact .inl ⟨_, _, _, rfl, ha s⟩
  | folding hj ht ha h hown hpartner hmemory => exact .inl ⟨_, _, _, rfl, ha s⟩
  | folded h hsum hmemory =>
    cases h with
    | deliver ht ha => exact .inl ⟨_, _, _, rfl, ha s⟩
    | rest ht => exact .inr (.inr ⟨rfl, rfl, fun hzero => absurd hzero ht⟩)
    | fold | idle => exact .inr (.inl ⟨_, rfl, rfl⟩)
  | delivered ht hmemory => exact .inr (.inr ⟨rfl, rfl, fun _ => hmemory⟩)

/-- An item that waits has done its part of the round. -/
theorem At.waiting (h : R.At t μ s j acts) (hhead : acts.head? = some .barrier) :
    ∃ i, j = i + 1 ∧ R.Folding t (i + 1) acts ∧ (t < 2 ^ j →
      s.shared bufferName t = R.sum μ j t) ∧ (t = 0 ∨ j = R.levels → s.memory = μ) := by
  have acts_first : ∀ {a : ItemAction} {rest : List ItemAction} {s' : GroupState V},
      R.act? t s a = some s' → (a :: rest).head? ≠ some .barrier := by
    intro a rest s' hact hbarrier
    obtain rfl : a = .barrier := Option.some.inj hbarrier
    rw [R.waits] at hact
    cases hact
  cases h with
  | fresh h hmemory =>
    cases h with
    | start ha h => exact absurd hhead (acts_first (ha s))
  | adding h hsum hmemory =>
    cases h with
    | add hi ha h => exact absurd hhead (acts_first (ha s))
    | park hi ha h => exact absurd hhead (acts_first (ha s))
  | folding hj ht ha h hown hpartner hmemory => exact absurd hhead (acts_first (ha s))
  | folded h hsum hmemory =>
    cases h with
    | deliver ht ha => exact absurd hhead (acts_first (ha s))
    | rest ht => cases hhead
    | fold ht ha h => exact ⟨_, rfl, .fold ht ha h, hsum, hmemory⟩
    | idle ht h => exact ⟨_, rfl, .idle ht h, hsum, hmemory⟩
  | delivered ht hmemory => cases hhead

/-! ### All items together -/

/-- All items have the same number of barriers to come, and each has what it relies on. -/
def Inv (R : GroupSum V) (μ : Memory V) (c : GroupRun (GroupState V)) : Prop :=
  ∃ j ≤ R.levels, ∀ t < 2 ^ R.levels, R.At t μ c.state j (c.todo t)

variable {c c' : GroupRun (GroupState V)}

theorem Inv.progress (h : R.Inv μ c) :
    (c.Finished (2 ^ R.levels) ∧ c.state.memory = R.outcome μ) ∨
    ∃ c', c.Step R.act? (2 ^ R.levels) c' := by
  obtain ⟨j, -, hat⟩ := h
  by_cases hacts : ∃ t < 2 ^ R.levels, ∃ a rest s', c.todo t = a :: rest ∧
    R.act? t c.state a = some s'
  · obtain ⟨t, ht, a, rest, s', htodo, hs'⟩ := hacts
    exact .inr ⟨_, .act ht htodo hs'⟩
  · have hwaits : ∀ t < 2 ^ R.levels, (∃ i, j = i + 1 ∧ (c.todo t).head? = some .barrier) ∨
        j = 0 ∧ c.todo t = [] ∧ (t = 0 → c.state.memory = R.outcome μ) := fun t ht =>
      (hat t ht).progress.resolve_left fun ⟨a, rest, s', htodo, hs'⟩ =>
        hacts ⟨t, ht, a, rest, s', htodo, hs'⟩
    cases j with
    | zero =>
      have hdone : ∀ t < 2 ^ R.levels, c.todo t = [] ∧
          (t = 0 → c.state.memory = R.outcome μ) := by
        intro t ht
        rcases hwaits t ht with ⟨i, hi, -⟩ | ⟨-, hdone⟩
        · cases hi
        · exact hdone
      exact .inl ⟨fun t ht => (hdone t ht).1, (hdone 0 (Nat.two_pow_pos _)).2 rfl⟩
    | succ i =>
      refine .inr ⟨_, .sync fun t ht => ?_⟩
      rcases hwaits t ht with ⟨-, -, hhead⟩ | ⟨hzero, -⟩
      · exact hhead
      · cases hzero

theorem Inv.step (h : R.Inv μ c) (hstep : c.Step R.act? (2 ^ R.levels) c') : R.Inv μ c' := by
  obtain ⟨j, hj, hat⟩ := h
  cases hstep with
  | @act t a rest s' ht htodo hs' =>
    have hown := hat t ht
    rw [htodo] at hown
    obtain ⟨hnext, htouch⟩ := hown.act hs'
    refine ⟨j, hj, fun u hu => ?_⟩
    by_cases hut : u = t
    · subst hut
      simpa using hnext
    · simpa [hut] using (hat u hu).stable hu hut htouch
  | sync hbarrier =>
    obtain ⟨j, rfl, -⟩ := (hat 0 (Nat.two_pow_pos _)).waiting (hbarrier 0 (Nat.two_pow_pos _))
    refine ⟨j, by omega, fun t ht => ?_⟩
    obtain ⟨_, hsame, hfolding, hsum, hmemory⟩ := (hat t ht).waiting (hbarrier t ht)
    obtain rfl := Nat.succ.inj hsame
    change R.At t μ c.state j (c.todo t).tail
    generalize c.todo t = acts at hfolding ⊢
    cases hfolding with
    | fold hlower ha h =>
      have hwidth : 2 ^ (j + 1) ≤ 2 ^ R.levels := Nat.pow_le_pow_right (by omega) hj
      have hpartner : t + 2 ^ j < 2 ^ R.levels := by omega
      obtain ⟨-, -, -, hother, -⟩ := (hat _ hpartner).waiting (hbarrier _ hpartner)
      exact .folding (by omega) hlower ha h (hsum (by omega)) (hother (by omega)) fun hzero =>
        hmemory (.inl hzero)
    | idle hupper h =>
      refine .folded h (fun hlower => absurd hlower hupper) fun hcase => ?_
      rcases hcase with rfl | hlevels
      · exact absurd (Nat.two_pow_pos j) hupper
      · omega

/-- In whatever order the items act, the group ends with the sum of all terms in the result's
cell, and with all else in memory as it was. -/
theorem settles (h : ∀ t < 2 ^ R.levels, R.Reducing t (c.todo t)) :
    c.Settles R.act? (2 ^ R.levels) fun s => s.memory =
      c.state.memory.write R.result (0, 0) (∑ i ∈ Finset.range R.length,
        R.term c.state.memory i) := by
  have hinv : R.Inv c.state.memory c := ⟨R.levels, le_rfl, fun t ht => .fresh (h t ht) rfl⟩
  have houtcome : R.outcome c.state.memory =
      c.state.memory.write R.result (0, 0) (∑ i ∈ Finset.range R.length,
        R.term c.state.memory i) := by
    rw [outcome, sum, Nat.pow_zero, strideSum_one]
  rw [← houtcome]
  exact GroupRun.settles_of_invariant (Nat.two_pow_pos _) (fun c hc => hc.progress)
    (fun c c' hc => hc.step) hinv

end GroupSum

end LinearKernels
