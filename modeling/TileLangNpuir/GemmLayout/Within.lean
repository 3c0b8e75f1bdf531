import TileLangNpuir.GemmLayout.Distinct

/-!
# Indices within the output shape

An index the interval analysis can bound is within the shape, whatever the layout. Only
the column of the matrix-core swizzle is beyond it, and takes the extent of the row for
its dimension.
-/

namespace TileLangNpuir.GemmLayout

/-- A bounded index is below its dimension. -/
theorem eval_lt_outputDim (S : Analyzer) {L : Layout} {i j : ℕ} {e : Expr}
    (he : e.unbounded = false) (hi : i < L.stride) (hj : j < L.continuous) (d : ℕ) :
    e.eval i j < L.outputDim S e d := by
  rw [Layout.outputDim]
  cases hmax : S.intSetMax L.stride L.continuous (.add e (.const 1)) with
  | none =>
    have := (S.everything_iff _ _ _).mp hmax
    simp [Expr.unbounded, he] at this
  | some max => exact S.sound hmax i hi j hj

theorem within_of_bounded (S : Analyzer) {L : Layout}
    (h : ∀ e ∈ L.forwardIndex, e.unbounded = false) : L.Within S := by
  intro i hi j hj
  rw [Layout.forward, Layout.outputShape]
  generalize 0 = d
  generalize L.forwardIndex = es at h
  induction es generalizing d with
  | nil => exact .nil
  | cons e es ih =>
    rw [List.map_cons, List.zipIdx_cons, List.map_cons]
    refine .cons (eval_lt_outputDim S (h e List.mem_cons_self) hi hj d) ?_
    exact ih (d + 1) fun e' he' => h e' (List.mem_cons_of_mem _ he')

/-! ## The matrix-core swizzle -/

/-- The number of phases some row has. -/
def phases (stride continuous elementSize kPack : ℕ) : ℕ :=
  min (maxPhase continuous elementSize kPack)
    ((stride + perPhase continuous elementSize - 1) / perPhase continuous elementSize)

/-- The swizzle of the rows keeps the columns in their row. -/
def Swizzles (stride continuous elementSize kPack : ℕ) : Prop :=
  phases stride continuous elementSize kPack ≤ 1 ∨
    vecSize kPack ∣ continuous ∧
      2 ^ Nat.clog 2 (phases stride continuous elementSize kPack) ∣ continuous / vecSize kPack

theorem perPhase_pos (continuous elementSize : ℕ) : 0 < perPhase continuous elementSize :=
  Nat.lt_of_lt_of_le Nat.zero_lt_one (Nat.le_max_left _ _)

/-- The rows go through the phases from `0` on. -/
theorem forall_phase_iff {stride continuous elementSize kPack : ℕ}
    (hmax : 0 < maxPhase continuous elementSize kPack) (P : ℕ → Prop) :
    (∀ i < stride, P (i / perPhase continuous elementSize % maxPhase continuous elementSize kPack)) ↔
      ∀ p < phases stride continuous elementSize kPack, P p := by
  have hper := perPhase_pos continuous elementSize
  rw [phases]
  generalize perPhase continuous elementSize = per at hper
  generalize maxPhase continuous elementSize kPack = n at hmax
  refine ⟨fun h p hp => ?_, fun h i hi => h _ ?_⟩
  · obtain ⟨hpn, hpr⟩ := Nat.lt_min.mp hp
    have hrow : p * per < stride := by
      have := (Nat.le_div_iff_mul_le hper).mp hpr
      rw [Nat.succ_mul] at this
      omega
    have := h (p * per) hrow
    rwa [Nat.mul_div_cancel _ hper, Nat.mod_eq_of_lt hpn] at this
  · refine Nat.lt_min.mpr ⟨Nat.mod_lt _ hmax, Nat.lt_of_le_of_lt (Nat.mod_le _ _) ?_⟩
    refine (Nat.le_div_iff_mul_le hper).mpr ?_
    have := Nat.div_mul_le_self i per
    rw [Nat.succ_mul]
    omega

theorem matrixCore_spec {stride continuous elementSize kPack : ℕ} {L : Layout}
    (h : makeMatrixCoreSwizzleLayout stride continuous elementSize kPack = some L) :
    0 < vecSize kPack ∧ 0 < maxPhase continuous elementSize kPack ∧
      L = ⟨stride, continuous, [.row, .add (.mul (.xor (.floorDiv .col (vecSize kPack))
        (.floorMod (.floorDiv .row (perPhase continuous elementSize))
          (maxPhase continuous elementSize kPack))) (vecSize kPack))
        (.floorMod .col (vecSize kPack))]⟩ := by
  obtain ⟨_, hcheck, h⟩ := Option.bind_eq_some_iff.mp h
  obtain ⟨_, hmax, h⟩ := Option.bind_eq_some_iff.mp h
  have hpack := (icheck_eq_some.mp hcheck).2.2
  refine ⟨?_, icheck_eq_some.mp hmax, (Option.some.inj h).symm⟩
  rw [vecSize]
  omega

theorem distinct_matrixCore {stride continuous elementSize kPack : ℕ} {L : Layout}
    (h : makeMatrixCoreSwizzleLayout stride continuous elementSize kPack = some L) : L.Distinct := by
  obtain ⟨hvec, -, rfl⟩ := matrixCore_spec h
  intro i _ j _ i' _ j' _ h
  simp only [Layout.forward, List.map_cons, List.map_nil, Expr.eval, List.cons.injEq, and_true] at h
  obtain ⟨rfl, hcol⟩ := h
  rw [Nat.add_comm, Nat.add_comm (_ * _)] at hcol
  obtain ⟨hmod, hswizzled⟩ := digits_inj (Nat.mod_lt j hvec) (Nat.mod_lt j' hvec) hcol
  exact ⟨rfl, eq_of_div_of_mod (Nat.xor_left_injective hswizzled) hmod⟩

/-- A swizzled column is in its row exactly when the exclusive or keeps the blocks of it. -/
theorem within_matrixCore_iff (S : Analyzer) {stride continuous elementSize kPack : ℕ} {L : Layout}
    (h : makeMatrixCoreSwizzleLayout stride continuous elementSize kPack = some L) :
    L.Within S ↔ Swizzles stride continuous elementSize kPack := by
  obtain ⟨hvec, hmax, rfl⟩ := matrixCore_spec h
  rw [Swizzles, ← forall_digit_xor_lt_iff hvec,
    ← forall_phase_iff hmax fun p => ∀ c < continuous,
      (c / vecSize kPack ^^^ p) * vecSize kPack + c % vecSize kPack < continuous]
  refine forall₂_congr fun i hi => forall₂_congr fun j hj => ?_
  have hcol : ∀ L : Layout, ∀ e : Expr, e.unbounded = true → L.outputDim S e 1 = L.continuous := by
    intro L e he
    have hnone := (S.everything_iff L.stride L.continuous (.add e (.const 1))).mpr
      (by rw [Expr.unbounded, he, Bool.true_or])
    rw [Layout.outputDim, hnone]
    rfl
  simp only [Layout.forward, Layout.outputShape, List.map_cons, List.map_nil, List.zipIdx_cons,
    List.zipIdx_nil, List.forall₂_cons, List.forall₂_nil_left_iff, and_true, Nat.zero_add]
  rw [hcol _ _ rfl]
  exact ⟨fun hlt => hlt.2, fun hlt => ⟨eval_lt_outputDim S rfl hi hj 0, hlt⟩⟩

/-! ## Every layout -/

/-- No element is lost: distinct elements have distinct indices within the shape. -/
def Layout.Keeps (S : Analyzer) (L : Layout) : Prop := L.Distinct ∧ L.Within S

theorem keeps_padded (S : Analyzer) (stride continuous elementSize : ℕ) :
    (makeGemmABLayoutPadded stride continuous elementSize).Keeps S := by
  refine ⟨distinct_padded _ _ _, within_of_bounded S ?_⟩
  intro e he
  obtain rfl := List.mem_singleton.mp he
  rfl

theorem keeps_of_makeGemmVoltaABLayout (S : Analyzer) {stride continuous kfactor : ℕ} {isA : Bool}
    {L : Layout} (h : makeGemmVoltaABLayout stride continuous isA kfactor = some L) : L.Keeps S := by
  rw [makeGemmVoltaABLayout] at h
  split at h
  · refine ⟨distinct_crosswise h, within_of_bounded S fun e he => ?_⟩
    obtain ⟨_, -, h⟩ := Option.bind_eq_some_iff.mp h
    obtain rfl := Option.some.inj h
    obtain rfl := List.mem_singleton.mp he
    rfl
  · split at h
    · refine ⟨distinct_congruousA h, within_of_bounded S fun e he => ?_⟩
      obtain ⟨_, -, h⟩ := Option.bind_eq_some_iff.mp h
      obtain rfl := Option.some.inj h
      obtain rfl := List.mem_singleton.mp he
      rfl
    · split at h
      · refine ⟨distinct_congruousB h, within_of_bounded S fun e he => ?_⟩
        obtain ⟨_, -, h⟩ := Option.bind_eq_some_iff.mp h
        obtain rfl := Option.some.inj h
        obtain rfl := List.mem_singleton.mp he
        rfl
      · obtain rfl := Option.some.inj h
        exact keeps_padded S _ _ _

/-- The layouts of three indices. -/
theorem within_of_three (S : Analyzer) {stride continuous : ℕ} {e₁ e₂ e₃ : Expr}
    (h₁ : e₁.unbounded = false) (h₂ : e₂.unbounded = false) (h₃ : e₃.unbounded = false) :
    Layout.Within S ⟨stride, continuous, [e₁, e₂, e₃]⟩ := by
  refine within_of_bounded S fun e he => ?_
  simp only [List.mem_cons, List.not_mem_nil, or_false] at he
  obtain rfl | rfl | rfl := he
  · exact h₁
  · exact h₂
  · exact h₃

theorem keeps_of_makeGemmABLayout (S : Analyzer)
    {matStride matContinuous continuity elementSize kfactor : ℕ} {L : Layout}
    (h : makeGemmABLayout matStride matContinuous continuity elementSize kfactor = some L) :
    L.Keeps S := by
  rw [makeGemmABLayout] at h
  split at h
  · split at h
    · obtain rfl := Option.some.inj h
      exact ⟨distinct_f64Kouter _ _, within_of_three S rfl rfl rfl⟩
    · split at h
      · obtain rfl := Option.some.inj h
        exact ⟨distinct_f64Kinner _ _, within_of_three S rfl rfl rfl⟩
      · obtain rfl := Option.some.inj h
        exact keeps_padded S _ _ _
  · obtain ⟨v, hv, h⟩ := Option.bind_eq_some_iff.mp h
    split at h
    · obtain rfl := Option.some.inj h
      exact keeps_padded S _ _ _
    · split at h
      · refine ⟨distinct_fullBankSwizzle h, ?_⟩
        obtain ⟨v, -, h⟩ := Option.bind_eq_some_iff.mp h
        obtain ⟨_, -, h⟩ := Option.bind_eq_some_iff.mp h
        obtain ⟨_, -, h⟩ := Option.bind_eq_some_iff.mp h
        obtain rfl := Option.some.inj h
        refine within_of_three S rfl rfl ?_
        simp [Expr.unbounded, xor8x8, xor4x4, xor2x2]
      · split at h
        · refine ⟨distinct_halfBankSwizzle h, ?_⟩
          obtain ⟨v, -, h⟩ := Option.bind_eq_some_iff.mp h
          obtain ⟨_, -, h⟩ := Option.bind_eq_some_iff.mp h
          obtain ⟨_, -, h⟩ := Option.bind_eq_some_iff.mp h
          obtain rfl := Option.some.inj h
          refine within_of_three S rfl rfl ?_
          simp [Expr.unbounded, xor4x4, xor2x2]
        · obtain rfl := Option.some.inj h
          exact keeps_padded S _ _ _

/-- What a request has to meet: only the matrix-core swizzle asks for anything. -/
def Request.Fits : Request → Prop
  | .ab _ _ _ _ _ => True
  | .volta _ _ _ _ => True
  | .cdna stride continuous elementSize kPack =>
    continuous % (128 / elementSize * 4) = 0 → Swizzles stride continuous elementSize kPack

/-- A layout loses no element exactly when it is not a matrix-core swizzle, or one that
swizzles a number of vectors of which the phases fill whole blocks. -/
theorem make_keeps_iff (S : Analyzer) (r : Request) {L : Layout} (h : r.make = some L) :
    L.Keeps S ↔ r.Fits := by
  cases r with
  | ab matStride matContinuous continuity elementSize kfactor =>
    exact iff_of_true (keeps_of_makeGemmABLayout S h) trivial
  | volta stride continuous isA kfactor =>
    exact iff_of_true (keeps_of_makeGemmVoltaABLayout S h) trivial
  | cdna stride continuous elementSize kPack =>
    obtain ⟨v, hv, h⟩ := Option.bind_eq_some_iff.mp h
    rw [vectorSize] at hv
    split at hv
    · obtain rfl := Option.some.inj hv
      rw [Request.Fits]
      split at h
      · rename_i hswizzled
        rw [Layout.Keeps, within_matrixCore_iff S h]
        exact ⟨fun hk _ => hk.2, fun hfits => ⟨distinct_matrixCore h, hfits hswizzled⟩⟩
      · rename_i hpadded
        obtain rfl := Option.some.inj h
        exact iff_of_true (keeps_padded S _ _ _) fun hswizzled => absurd hswizzled hpadded
    · cases hv

/-! ## Intervals -/

/-- The upper end of the interval of an expression. -/
def intervalMax (stride continuous : ℕ) : Expr → Option ℕ
  | .row => some (stride - 1)
  | .col => some (continuous - 1)
  | .const n => some n
  | .add a b =>
    (intervalMax stride continuous a).bind fun x =>
      (intervalMax stride continuous b).map fun y => x + y
  | .mul a k => (intervalMax stride continuous a).map fun x => x * k
  | .floorDiv a k => (intervalMax stride continuous a).map fun x => x / k
  | .floorMod a k => if k = 0 then intervalMax stride continuous a else some (k - 1)
  | .xor _ _ => none

theorem eval_le_intervalMax {stride continuous i j : ℕ} (hi : i < stride) (hj : j < continuous) :
    ∀ {e : Expr} {max : ℕ}, intervalMax stride continuous e = some max → e.eval i j ≤ max := by
  intro e
  induction e with
  | row =>
    intro max h
    obtain rfl := Option.some.inj h
    exact Nat.le_sub_one_of_lt hi
  | col =>
    intro max h
    obtain rfl := Option.some.inj h
    exact Nat.le_sub_one_of_lt hj
  | const n =>
    intro max h
    obtain rfl := Option.some.inj h
    exact le_rfl
  | add a b iha ihb =>
    intro max h
    obtain ⟨x, hx, h⟩ := Option.bind_eq_some_iff.mp h
    obtain ⟨y, hy, rfl⟩ := Option.map_eq_some_iff.mp h
    exact Nat.add_le_add (iha hx) (ihb hy)
  | mul a k ih =>
    intro max h
    obtain ⟨x, hx, rfl⟩ := Option.map_eq_some_iff.mp h
    exact Nat.mul_le_mul_right k (ih hx)
  | floorDiv a k ih =>
    intro max h
    obtain ⟨x, hx, rfl⟩ := Option.map_eq_some_iff.mp h
    exact Nat.div_le_div_right (ih hx)
  | floorMod a k ih =>
    intro max h
    rw [intervalMax] at h
    split at h
    · exact (Nat.mod_le _ _).trans (ih h)
    · rename_i hk
      obtain rfl := Option.some.inj h
      exact Nat.le_sub_one_of_lt (Nat.mod_lt _ (Nat.pos_of_ne_zero hk))
  | xor a b => exact nofun

theorem intervalMax_eq_none_iff (stride continuous : ℕ) (e : Expr) :
    intervalMax stride continuous e = none ↔ e.unbounded = true := by
  induction e with
  | row => exact ⟨nofun, nofun⟩
  | col => exact ⟨nofun, nofun⟩
  | const n => exact ⟨nofun, nofun⟩
  | add a b iha ihb =>
    rw [intervalMax, Expr.unbounded, Bool.or_eq_true, ← iha, ← ihb]
    cases intervalMax stride continuous a <;> simp
  | mul a k ih => rw [intervalMax, Option.map_eq_none_iff, ih, Expr.unbounded]
  | floorDiv a k ih => rw [intervalMax, Option.map_eq_none_iff, ih, Expr.unbounded]
  | floorMod a k ih =>
    rw [intervalMax, Expr.unbounded, Bool.and_eq_true, decide_eq_true_eq, ← ih]
    split <;> simp [*]
  | xor a b => exact ⟨fun _ => rfl, fun _ => rfl⟩

/-- Interval arithmetic is an analysis of the kind the layouts rely on. -/
def intervals : Analyzer where
  intSetMax := intervalMax
  sound h _ hi _ hj := eval_le_intervalMax hi hj h
  everything_iff := intervalMax_eq_none_iff

/-- A tile of 16 rows of 64 halves. -/
theorem tile64_keeps :
    ∃ L, (Request.cdna 16 64 16 1).make = some L ∧ L.Keeps intervals :=
  ⟨_, rfl, (make_keeps_iff intervals (.cdna 16 64 16 1) rfl).mpr fun _ => .inr (by decide)⟩

/-- In a tile of 16 rows of 96 halves, the last vector of row `8` is sent to column `124`. -/
theorem tile96_loses :
    ∃ L, (Request.cdna 16 96 16 1).make = some L ∧ L.forward 8 92 = [8, 124] ∧
      L.outputShape intervals = [16, 96] ∧ ¬ L.Keeps intervals := by
  refine ⟨_, rfl, by decide, by decide, fun h => ?_⟩
  have hlast := h.2 8 (by decide) 92 (by decide)
  rw [List.forall₂_iff_get] at hlast
  exact absurd (hlast.2 1 (by decide) (by decide)) (by decide)

end TileLangNpuir.GemmLayout
