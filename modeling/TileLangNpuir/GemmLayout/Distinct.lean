import TileLangNpuir.GemmLayout.Layouts
import TileLangNpuir.Lib.XorRange

/-!
# No element is lost

Every layout sends distinct elements to distinct indices: the digits an index is made
of can be read back one after another, and the swizzled digit can be unswizzled once
the others are known. The indices stay within the shape as long as the exclusive or
of the matrix-core swizzle does not lead out of a row.
-/

namespace TileLangNpuir.GemmLayout

/-! ## Digits -/

/-- The two digits of a number. -/
theorem digits_inj {n a a' b b' : ℕ} (ha : a < n) (ha' : a' < n) (h : a + b * n = a' + b' * n) :
    a = a' ∧ b = b' := by
  have hn : 0 < n := by omega
  have hmod : (a + b * n) % n = (a' + b' * n) % n := by rw [h]
  have hdiv : (a + b * n) / n = (a' + b' * n) / n := by rw [h]
  rw [Nat.add_mul_mod_self_right, Nat.add_mul_mod_self_right, Nat.mod_eq_of_lt ha,
    Nat.mod_eq_of_lt ha'] at hmod
  rw [Nat.add_mul_div_right _ _ hn, Nat.add_mul_div_right _ _ hn, Nat.div_eq_of_lt ha,
    Nat.div_eq_of_lt ha', Nat.zero_add, Nat.zero_add] at hdiv
  exact ⟨hmod, hdiv⟩

theorem eq_of_div_of_mod {n a b : ℕ} (hdiv : a / n = b / n) (hmod : a % n = b % n) : a = b := by
  rw [← Nat.div_add_mod a n, ← Nat.div_add_mod b n, hdiv, hmod]

/-- The values of `xor4x4`. -/
def xor4 (a b : ℕ) : ℕ := (a / 2 + b / 2) % 2 * 2 + (a % 2 + b % 2) % 2

/-- The values of `xor8x8`. -/
def xor8 (a b : ℕ) : ℕ := xor4 (a / 2) (b / 2) * 2 + (a % 2 + b % 2) % 2

theorem xor4_lt (a b : ℕ) : xor4 a b < 4 := by
  rw [xor4]
  omega

theorem xor8_lt (a b : ℕ) : xor8 a b < 8 := by
  have := xor4_lt (a / 2) (b / 2)
  rw [xor8]
  omega

theorem xor4_inj {a a' b : ℕ} (ha : a < 4) (ha' : a' < 4) (h : xor4 a b = xor4 a' b) : a = a' := by
  rw [xor4, xor4] at h
  omega

theorem xor8_inj {a a' b : ℕ} (ha : a < 8) (ha' : a' < 8) (h : xor8 a b = xor8 a' b) : a = a' := by
  rw [xor8, xor8] at h
  have hhigh : xor4 (a / 2) (b / 2) = xor4 (a' / 2) (b / 2) := by omega
  have hdiv := xor4_inj (by omega) (by omega) hhigh
  omega

section

variable (i j : ℕ) (a b : Expr)

theorem eval_xor4x4 : (xor4x4 a b).eval i j = xor4 (a.eval i j) (b.eval i j) := rfl

theorem eval_xor8x8 : (xor8x8 a b).eval i j = xor8 (a.eval i j) (b.eval i j) := rfl

end

/-! ## Distinct indices -/

theorem distinct_f64Kinner (stride continuous : ℕ) :
    (makeGemmABLayoutF64Kinner stride continuous).Distinct := by
  intro i _ j _ i' _ j' _ h
  simp only [makeGemmABLayoutF64Kinner, Layout.forward, List.map_cons, List.map_nil, Expr.eval,
    eval_xor4x4, List.cons.injEq, and_true] at h
  obtain ⟨htc, hts, hindex⟩ := h
  have hx := xor4_lt (j % 16 % 4) (i % 4)
  have hx' := xor4_lt (j' % 16 % 4) (i' % 4)
  have hs : i % 4 = i' % 4 := by omega
  have hc : j % 16 / 4 = j' % 16 / 4 := by omega
  have hswizzled : xor4 (j % 16 % 4) (i % 4) = xor4 (j' % 16 % 4) (i' % 4) := by omega
  rw [hs] at hswizzled
  have hvec := xor4_inj (Nat.mod_lt _ (by omega)) (Nat.mod_lt _ (by omega)) hswizzled
  omega

theorem distinct_f64Kouter (stride continuous : ℕ) :
    (makeGemmABLayoutF64Kouter stride continuous).Distinct := by
  intro i _ j _ i' _ j' _ h
  simp only [makeGemmABLayoutF64Kouter, Layout.forward, List.map_cons, List.map_nil, Expr.eval,
    eval_xor4x4, List.cons.injEq, and_true] at h
  obtain ⟨htc, hts, hindex⟩ := h
  have hx := xor4_lt (j % 16 / 4) (i % 4)
  have hx' := xor4_lt (j' % 16 / 4) (i' % 4)
  have hs : i % 4 = i' % 4 := by omega
  have hc : j % 16 % 4 = j' % 16 % 4 := by omega
  have hswizzled : xor4 (j % 16 / 4) (i % 4) = xor4 (j' % 16 / 4) (i' % 4) := by omega
  rw [hs] at hswizzled
  have hvec := xor4_inj (by omega) (by omega) hswizzled
  omega

theorem icheck_eq_some {c : Prop} [Decidable c] {u : Unit} : icheck c = some u ↔ c := by
  rw [icheck]
  split <;> simp [*]

theorem vectorSize_pos {elementSize v : ℕ} (h : vectorSize elementSize = some v) : 0 < v := by
  rw [vectorSize] at h
  split at h
  · rename_i hsize
    obtain rfl := Option.some.inj h
    exact Nat.div_pos hsize.2 hsize.1
  · cases h

/-- A bank swizzle: the column within a vector, then a digit that only the row within its
group of eight is needed to read back. -/
theorem distinct_bankSwizzle {stride continuous v : ℕ} (hv : 0 < v) (n : ℕ) {cSwizzle : Expr}
    (swizzle : ℕ → ℕ → ℕ) (hn : 0 < n)
    (heval : ∀ i j, cSwizzle.eval i j = swizzle (j / v % n) (i % 8))
    (hlt : ∀ a s, a < n → s < 8 → swizzle a s < n)
    (hinj : ∀ a a' s, a < n → a' < n → swizzle a s = swizzle a' s → a = a') :
    Layout.Distinct ⟨stride, continuous, [.floorDiv (.floorDiv .col v) n, .floorDiv .row 8,
      .add (.floorMod .col v) (.mul (.add cSwizzle (.mul (.floorMod .row 8) n)) v)]⟩ := by
  intro i _ j _ i' _ j' _ h
  simp only [Layout.forward, List.map_cons, List.map_nil, Expr.eval, heval, List.cons.injEq,
    and_true] at h
  obtain ⟨htc, hts, hindex⟩ := h
  obtain ⟨hvec, hrest⟩ := digits_inj (Nat.mod_lt j hv) (Nat.mod_lt j' hv) hindex
  have hc : j / v % n < n := Nat.mod_lt _ hn
  have hc' : j' / v % n < n := Nat.mod_lt _ hn
  obtain ⟨hswizzled, hs⟩ := digits_inj (hlt _ _ hc (Nat.mod_lt i (by omega)))
    (hlt _ _ hc' (Nat.mod_lt i' (by omega))) hrest
  rw [hs] at hswizzled
  have hdigit := hinj _ _ _ hc hc' hswizzled
  exact ⟨by omega, eq_of_div_of_mod (eq_of_div_of_mod htc hdigit) hvec⟩

theorem distinct_halfBankSwizzle {stride continuous elementSize : ℕ} {L : Layout}
    (h : makeHalfBankSwizzleLayout stride continuous elementSize = some L) : L.Distinct := by
  obtain ⟨v, hv, h⟩ := Option.bind_eq_some_iff.mp h
  obtain ⟨-, -, h⟩ := Option.bind_eq_some_iff.mp h
  obtain ⟨-, -, h⟩ := Option.bind_eq_some_iff.mp h
  obtain rfl := Option.some.inj h
  exact distinct_bankSwizzle (vectorSize_pos hv) 4 (fun c s => xor4 c (s / 2)) (by omega)
    (fun _ _ => rfl) (fun _ _ _ _ => xor4_lt _ _) fun _ _ _ => xor4_inj

theorem distinct_fullBankSwizzle {stride continuous elementSize : ℕ} {L : Layout}
    (h : makeFullBankSwizzleLayout stride continuous elementSize = some L) : L.Distinct := by
  obtain ⟨v, hv, h⟩ := Option.bind_eq_some_iff.mp h
  obtain ⟨-, -, h⟩ := Option.bind_eq_some_iff.mp h
  obtain ⟨-, -, h⟩ := Option.bind_eq_some_iff.mp h
  obtain rfl := Option.some.inj h
  exact distinct_bankSwizzle (vectorSize_pos hv) 8 xor8 (by omega) (fun _ _ => rfl)
    (fun _ _ _ _ => xor8_lt _ _) fun _ _ _ => xor8_inj

theorem le_paddedExtent (continuous elementSize : ℕ) :
    continuous ≤ paddedExtent continuous elementSize := by
  rw [paddedExtent]
  split
  · exact Nat.le_add_right _ _
  · exact le_rfl

theorem distinct_padded (stride continuous elementSize : ℕ) :
    (makeGemmABLayoutPadded stride continuous elementSize).Distinct := by
  intro i _ j hj i' _ j' hj' h
  simp only [makeGemmABLayoutPadded, Layout.forward, List.map_cons, List.map_nil, Expr.eval,
    List.cons.injEq, and_true] at h
  have hle := le_paddedExtent continuous elementSize
  rw [Nat.add_comm, Nat.add_comm (_ * _)] at h
  exact (digits_inj (lt_of_lt_of_le hj hle) (lt_of_lt_of_le hj' hle) h).symm

/-- The row can be read back from the permuted position, given the vector of the column. -/
theorem crosswise_inj {i i' w : ℕ}
    (h : i / 16 * 16 + i % 4 * 4 + (i % 32 / 16 + i % 16 / 8 + w / 4) % 2 * 2 +
      (i % 8 / 4 + w % 4 / 2) % 2 =
      i' / 16 * 16 + i' % 4 * 4 + (i' % 32 / 16 + i' % 16 / 8 + w / 4) % 2 * 2 +
      (i' % 8 / 4 + w % 4 / 2) % 2) : i = i' := by
  have hhigh : i / 16 = i' / 16 := by omega
  have hlow : i % 4 = i' % 4 := by omega
  have hbit1 : (i % 8 / 4 + w % 4 / 2) % 2 = (i' % 8 / 4 + w % 4 / 2) % 2 := by omega
  have hbit2 : (i % 32 / 16 + i % 16 / 8 + w / 4) % 2 = (i' % 32 / 16 + i' % 16 / 8 + w / 4) % 2 := by
    omega
  clear h
  have htile : i % 32 / 16 = i' % 32 / 16 := by omega
  have height : i % 16 / 8 = i' % 16 / 8 := by omega
  have hfour : i % 8 / 4 = i' % 8 / 4 := by omega
  omega

theorem distinct_crosswise {stride continuous : ℕ} {L : Layout}
    (h : makeGemmVoltaABLayoutCrosswise stride continuous = some L) : L.Distinct := by
  obtain ⟨_, hcheck, h⟩ := Option.bind_eq_some_iff.mp h
  obtain ⟨hstride, -⟩ := icheck_eq_some.mp hcheck
  obtain rfl := Option.some.inj h
  intro i hi j _ i' hi' j' _ h
  simp only [Layout.forward, List.map_cons, List.map_nil, Expr.eval, xor2x2, List.cons.injEq,
    and_true] at h
  dsimp only at hi hi'
  have hj : j % 4 = j' % 4 := by omega
  have hrest : i / 16 * 16 + i % 4 * 4 + (i % 32 / 16 + i % 16 / 8 + j / 4 % 8 / 4) % 2 * 2 +
      (i % 8 / 4 + j / 4 % 8 % 4 / 2) % 2 + j / 4 * stride =
      i' / 16 * 16 + i' % 4 * 4 + (i' % 32 / 16 + i' % 16 / 8 + j' / 4 % 8 / 4) % 2 * 2 +
      (i' % 8 / 4 + j' / 4 % 8 % 4 / 2) % 2 + j' / 4 * stride := by omega
  obtain ⟨hpermuted, hvec⟩ := digits_inj (by omega) (by omega) hrest
  rw [hvec] at hpermuted
  exact ⟨crosswise_inj hpermuted, by omega⟩

/-- The digits of an element of a congruous layout. -/
theorem distinct_congruous {split : Expr → Expr × Expr} {stride continuous : ℕ} {L : Layout}
    (hlt : ∀ i j e, e.eval i j < 8 → (split e).1.eval i j < 4 ∧ (split e).2.eval i j < 2)
    (hinj : ∀ i j i' j' e, e.eval i j < 8 → e.eval i' j' < 8 →
      (split e).1.eval i j = (split e).1.eval i' j' → (split e).2.eval i j = (split e).2.eval i' j' →
        e.eval i j = e.eval i' j')
    (h : makeGemmVoltaLayoutCongruous split stride continuous = some L) : L.Distinct := by
  obtain ⟨_, hcheck, h⟩ := Option.bind_eq_some_iff.mp h
  obtain ⟨-, hcont⟩ := icheck_eq_some.mp hcheck
  obtain rfl := Option.some.inj h
  intro i _ j hj i' _ j' hj' h
  simp only [Layout.forward, List.map_cons, List.map_nil, Expr.eval, eval_xor4x4, List.cons.injEq,
    and_true] at h
  dsimp only at hj hj'
  set residual := Expr.floorMod (.floorDiv .col 8) 8
  have hres : ∀ i j, residual.eval i j = j / 8 % 8 := fun _ _ => rfl
  have hres8 : ∀ i j, residual.eval i j < 8 := fun i j => by
    rw [hres]
    omega
  obtain ⟨hrow, hhalf⟩ := hlt i j residual (hres8 i j)
  obtain ⟨hrow', hhalf'⟩ := hlt i' j' residual (hres8 i' j')
  have hx := xor4_lt (i % 4) ((split residual).1.eval i j)
  have hx' := xor4_lt (i' % 4) ((split residual).1.eval i' j')
  rw [Nat.add_comm, Nat.add_comm (_ * continuous)] at h
  obtain ⟨hcol, hstrided⟩ := digits_inj (by omega) (by omega) h
  have hsame : (split residual).1.eval i j = (split residual).1.eval i' j' := by omega
  have hresidual := hinj i j i' j' residual (hres8 i j) (hres8 i' j') hsame (by omega)
  rw [hres, hres] at hresidual
  have hswizzled : xor4 (i % 4) ((split residual).1.eval i j) =
      xor4 (i' % 4) ((split residual).1.eval i' j') := by omega
  rw [hsame] at hswizzled
  have hmod := xor4_inj (Nat.mod_lt _ (by omega)) (Nat.mod_lt _ (by omega)) hswizzled
  exact ⟨by omega, by omega⟩

theorem distinct_congruousA {stride continuous : ℕ} {L : Layout}
    (h : makeGemmVoltaALayoutCongruous stride continuous = some L) : L.Distinct := by
  refine distinct_congruous (fun i j e he => ?_) (fun i j i' j' e _ _ hrow hhalf => ?_) h
  · simp only [Expr.eval]
    omega
  · simp only [Expr.eval] at hrow hhalf
    omega

theorem distinct_congruousB {stride continuous : ℕ} {L : Layout}
    (h : makeGemmVoltaBLayoutCongruous stride continuous = some L) : L.Distinct := by
  refine distinct_congruous (fun i j e he => ?_) (fun i j i' j' e _ _ hrow hhalf => ?_) h
  · simp only [Expr.eval]
    omega
  · simp only [Expr.eval] at hrow hhalf
    omega

end TileLangNpuir.GemmLayout
