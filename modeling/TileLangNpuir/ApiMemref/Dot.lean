import Mathlib.Algebra.BigOperators.Ring.Finset
import TileLangNpuir.ApiMemref.Align

/-!
# Matrix products in both modes

`DotCodegen` of `src/target/codegen_npuir_dev.cc` and of `src/target/codegen_npuir_api.cc`, down to
the `mmadL1` op. Developer mode takes slices of the sources and all of the destination, and reads
the three sizes off the regions as they stand, transposed or not. Expert mode turns the sizes with
the transpose flags; it takes a region of rank two as the whole buffer, and one of higher rank as
a view.
-/

namespace TileLangNpuir.ApiMemref

open RowMajor DevTensor

variable {R : Type}

/-! ## The op -/

/-- A matrix with at least so many rows and columns. -/
def covers : List ℤ → ℤ → ℤ → Bool
  | [x, y], rows, cols => rows ≤ x ∧ cols ≤ y
  | _, _, _ => false

/-- The element of a matrix, transposed or not. -/
def entry (transposed : Bool) (elem : List ℤ → R) (i j : ℤ) : R :=
  if transposed then elem [j, i] else elem [i, j]

/-- One of two sizes, the other one where the matrix is transposed. -/
def turned (transposed : Bool) (x y : ℤ) : ℤ := if transposed then y else x

/-- The sum over the inner dimension. -/
def product [Semiring R] (realK : ℤ) (a b : ℤ → ℤ → R) (i j : ℤ) : R :=
  ∑ t ∈ Finset.range realK.toNat, a i t * b t j

/-- `mmadL1`: the product is added to the part of the output of the real size, or put there. -/
def mmadL1 [Semiring R] (a b c : Tensor R) (init : Bool) (realM realK realN : ℤ)
    (aTranspose bTranspose : Bool) : Option (Tensor R) :=
  if covers a.shape (turned aTranspose realM realK) (turned aTranspose realK realM) ∧
      covers b.shape (turned bTranspose realK realN) (turned bTranspose realN realK) ∧
      covers c.shape realM realN then
    some ⟨c.shape, fun p =>
      match p with
      | [i, j] =>
        if InBox [realM, realN] p then
          (if init then 0 else c.elem p) +
            product realK (entry aTranspose a.elem) (entry bTranspose b.elem) i j
        else c.elem p
      | _ => c.elem p⟩
  else none

/-! ## The generators -/

/-- A product of regions. -/
structure DotCall : Type where
  src0 : Region
  src1 : Region
  dst : Region
  initC : Bool
  aTranspose : Bool
  bTranspose : Bool

/-- The op with its operands, and the destination after it. -/
structure EmittedDot (R : Type) : Type where
  a : Tensor R
  b : Tensor R
  c : Tensor R
  realM : ℤ
  realK : ℤ
  realN : ℤ
  result : Tensor R

inductive Mode : Type where
  | dev
  | api
  deriving DecidableEq

namespace DotCall

variable (call : DotCall) (aElem bElem cElem : List ℤ → R)

/-- `DotCodegen` in developer mode. -/
def devCodegen [Semiring R] : Option (EmittedDot R) := do
  let a ← genExtractSliceFromRegion (call.src0.tensor aElem) call.src0.range
  let b ← genExtractSliceFromRegion (call.src1.tensor bElem) call.src1.range
  let c := call.dst.tensor cElem
  let realM ← call.src0.size[0]?
  let realK ← call.src1.size[0]?
  let realN ← call.src1.size[1]?
  let result ← mmadL1 a b c call.initC realM realK realN call.aTranspose call.bTranspose
  return ⟨a, b, c, realM, realK, realN, result⟩

/-- An operand in expert mode. -/
def apiOperand (r : Region) (elem : List ℤ → R) : Option (Tensor R) :=
  if 2 < r.range.length then
    extractSlice (r.tensor elem) r.range ((reducedDims r.size 2).map Prod.fst)
  else some (r.tensor elem)

/-- `extract_region_shape`. -/
def regionShape (r : Region) : List ℤ := r.size.drop (r.size.length - 2)

/-- The destination after its operand got a new value: the buffer itself, or seen through a view. -/
def writeBack (value : Tensor R) : Option (Tensor R) :=
  if 2 < call.dst.range.length then
    insertSlice value (call.dst.tensor cElem) call.dst.range
  else some value

/-- `DotCodegen` in expert mode. -/
def apiCodegen [Semiring R] : Option (EmittedDot R) := do
  let a ← apiOperand call.src0 aElem
  let b ← apiOperand call.src1 bElem
  let c ← apiOperand call.dst cElem
  let realM ← (regionShape call.src0)[if call.aTranspose then 1 else 0]?
  let realK ← (regionShape call.src0)[if call.aTranspose then 0 else 1]?
  let inner ← (regionShape call.src1)[if call.bTranspose then 1 else 0]?
  let realN ← (regionShape call.src1)[if call.bTranspose then 0 else 1]?
  if realK = inner then
    let value ← mmadL1 a b c call.initC realM realK realN call.aTranspose call.bTranspose
    let result ← call.writeBack cElem value
    return ⟨a, b, c, realM, realK, realN, result⟩
  else none

def codegen [Semiring R] : Mode → Option (EmittedDot R)
  | .dev => call.devCodegen aElem bElem cElem
  | .api => call.apiCodegen aElem bElem cElem

/-! ## What is to be computed -/

/-- The region is a matrix of the given size, under dimensions of extent one. -/
def IsMatrix (r : Region) (rows cols : ℤ) : Prop :=
  Within r.shape r.range ∧ ∃ l, r.size = List.replicate l 1 ++ [rows, cols]

/-- The regions are matrices that can be multiplied; in developer mode they have rank two. -/
structure WellFormed (mode : Mode) (m k n : ℤ) : Prop where
  src0 : IsMatrix call.src0 (turned call.aTranspose m k) (turned call.aTranspose k m)
  src1 : IsMatrix call.src1 (turned call.bTranspose k n) (turned call.bTranspose n k)
  dst : IsMatrix call.dst m n
  rank : mode = .dev →
    call.src0.size.length = 2 ∧ call.src1.size.length = 2 ∧ call.dst.size.length = 2

/-- The point of a region at a place of its matrix. -/
def place (r : Region) (p : List ℤ) : List ℤ := List.replicate (r.size.length - 2) 0 ++ p

/-- The operand holds the region, in its first rows and columns. -/
def Holds (r : Region) (elem : List ℤ → R) (t : Tensor R) : Prop :=
  ∀ p, InBox (regionShape r) p → t.elem p = r.read elem (place r p)

/-- The new value of an element of the destination region. -/
def value [Semiring R] (k : ℤ) (q : List ℤ) : R :=
  let a := entry call.aTranspose fun p => call.src0.read aElem (place call.src0 p)
  let b := entry call.bTranspose fun p => call.src1.read bElem (place call.src1 p)
  let l := q.length - 2
  (if call.initC then 0 else call.dst.read cElem q) + product k a b (q.getD l 0) (q.getD (l + 1) 0)

/-- Whatever the buffers hold, the op gets the sizes of the product and the regions, and the
destination region becomes the product. -/
def Lowers (R : Type) [Semiring R] (mode : Mode) (m k n : ℤ) : Prop :=
  ∀ aElem bElem cElem : List ℤ → R, ∃ e, call.codegen aElem bElem cElem mode = some e ∧
    e.realM = m ∧ e.realK = k ∧ e.realN = n ∧
    Holds call.src0 aElem e.a ∧ Holds call.src1 bElem e.b ∧ Holds call.dst cElem e.c ∧
    RegionCall.Replaces call.dst cElem (call.value aElem bElem cElem k) e.result

/-- The region lies at the origin of its buffer. -/
def AtOrigin (r : Region) : Prop := ∀ x ∈ r.range, x.1 = 0

instance (r : Region) : Decidable (AtOrigin r) := inferInstanceAs (Decidable (∀ _ ∈ _, _))

/-- Developer mode: transposed sources are square and the destination is at the origin. Expert
mode: regions of rank two are at the origin. -/
def Exact (m k n : ℤ) : Mode → Prop
  | .dev => (call.aTranspose = true → m = k) ∧ (call.bTranspose = true → k = n) ∧
      AtOrigin call.dst
  | .api => ∀ r ∈ [call.src0, call.src1, call.dst], r.size.length = 2 → AtOrigin r

/-! ## Leading ones -/

section Leading

variable {e p q : List ℤ} {l : ℕ}

theorem inBox_leading_iff :
    InBox (List.replicate l 1 ++ e) q ↔ ∃ p, InBox e p ∧ q = List.replicate l 0 ++ p := by
  induction l generalizing q with
  | zero => exact ⟨fun h => ⟨q, h, rfl⟩, fun ⟨p, hp, hq⟩ => hq ▸ hp⟩
  | succ l ih =>
    rw [List.replicate_succ, List.cons_append]
    constructor
    · intro h
      obtain ⟨x, xs, hx, hxs, rfl⟩ := List.forall₂_cons_left_iff.mp h
      obtain ⟨p, hp, rfl⟩ := ih.mp hxs
      obtain rfl : x = 0 := by omega
      exact ⟨p, hp, rfl⟩
    · rintro ⟨p, hp, rfl⟩
      exact .cons ⟨le_rfl, Int.one_pos⟩ (ih.mpr ⟨p, hp, rfl⟩)

theorem flatten_leading (l : ℕ) (e p : List ℤ) :
    flatten (List.replicate l 1 ++ e) (List.replicate l 0 ++ p) = flatten e p := by
  induction l with
  | zero => rfl
  | succ l ih =>
    rw [List.replicate_succ, List.replicate_succ, List.cons_append, List.cons_append, flatten,
      zero_mul, zero_add, ih]

theorem dropFirst_leading (l : ℕ) (e : List ℤ) :
    dropFirst (fun n => n = 1) l (List.replicate l 1 ++ e) = e := by
  induction l with
  | zero => exact dropFirst_zero _ _
  | succ l ih =>
    rw [List.replicate_succ, List.cons_append, dropFirst_cons_pos (by simp), ih]

theorem length_backbone_leading (l : ℕ) (e : List ℤ) :
    (backbone (List.replicate l 1 ++ e)).length ≤ e.length := by
  induction l with
  | zero => exact length_backbone_le e
  | succ l ih => rwa [List.replicate_succ, List.cons_append, backbone_cons, if_pos rfl]

end Leading

/-! ## Matrices -/

section Matrices

variable {r : Region} {rows cols : ℤ}

theorem IsMatrix.regionShape_eq (h : IsMatrix r rows cols) : regionShape r = [rows, cols] := by
  obtain ⟨-, l, hsize⟩ := h
  rw [regionShape, hsize]
  simp

theorem IsMatrix.leading (h : IsMatrix r rows cols) :
    ∃ l, r.size = List.replicate l 1 ++ [rows, cols] ∧
      ∀ p, place r p = List.replicate l 0 ++ p := by
  obtain ⟨-, l, hsize⟩ := h
  refine ⟨l, hsize, fun p => ?_⟩
  rw [place, hsize, List.length_append, List.length_replicate]
  rfl

theorem IsMatrix.inBox_iff (h : IsMatrix r rows cols) {q : List ℤ} :
    InBox r.size q ↔ ∃ p, InBox [rows, cols] p ∧ q = place r p := by
  obtain ⟨l, hsize, hplace⟩ := h.leading
  simp only [hsize, inBox_leading_iff, hplace]

theorem IsMatrix.flatten_place (h : IsMatrix r rows cols) (p : List ℤ) :
    flatten r.size (place r p) = flatten [rows, cols] p := by
  obtain ⟨l, hsize, hplace⟩ := h.leading
  rw [hsize, hplace, flatten_leading]

/-- The place with the number of a place of the matrix. -/
theorem IsMatrix.unflatten_flatten (h : IsMatrix r rows cols) {p : List ℤ}
    (hp : InBox [rows, cols] p) : unflatten r.size (flatten [rows, cols] p) = place r p := by
  rw [← h.flatten_place, RowMajor.unflatten_flatten (h.inBox_iff.mpr ⟨p, hp, rfl⟩)]

/-- The view of a matrix under dimensions of extent one. -/
theorem IsMatrix.reduced (h : IsMatrix r rows cols) (hrank : r.size.length ≠ 2) :
    (reducedDims r.size 2).map Prod.fst = [rows, cols] ∧
      rankReduced r.size [rows, cols] = true := by
  obtain ⟨-, l, hsize⟩ := h
  have hlen : r.size.length = l + 2 := by
    rw [hsize]
    simp
  have hback : (backbone r.size).length ≤ 2 := by
    rw [hsize]
    exact length_backbone_leading l [rows, cols]
  have hview : viewShape 2 r.size = [rows, cols] := by
    rw [viewShape_eq (by omega) hback (by omega), hlen, hsize]
    exact dropFirst_leading l [rows, cols]
  have hred := rankReduced_viewShape (by omega : 2 ≤ r.size.length) hback
  rw [hview] at hred
  rw [viewShape, viewDims, if_neg hrank.symm] at hview
  exact ⟨hview, hred⟩

theorem length_range (r : Region) : r.range.length = r.size.length := by
  rw [Region.size, extents, List.length_map]

theorem IsMatrix.two_le (h : IsMatrix r rows cols) : 2 ≤ r.size.length := by
  obtain ⟨l, hsize, -⟩ := h.leading
  rw [hsize, List.length_append]
  exact Nat.le_add_left _ _

/-- A region of rank two: its buffer, its offsets and its extents. -/
theorem IsMatrix.rank_two (h : IsMatrix r rows cols) (hrank : r.size.length = 2) :
    ∃ x y u v, r.shape = [x, y] ∧ r.range = [(u, rows), (v, cols)] ∧ 0 ≤ u ∧ u + rows ≤ x ∧
      0 ≤ v ∧ v + cols ≤ y ∧ 0 < rows ∧ 0 < cols ∧ ∀ p, place r p = p := by
  obtain ⟨l, hsize, hplace⟩ := h.leading
  obtain rfl : l = 0 := by
    rw [hsize, List.length_append, List.length_replicate] at hrank
    simpa using hrank
  obtain ⟨⟨u, rows'⟩, ⟨v, cols'⟩, hrange⟩ : ∃ a b, r.range = [a, b] := by
    rw [← length_range, List.length_eq_two] at hrank
    exact hrank
  have hin := h.1
  rw [Region.size, hrange] at hsize
  obtain ⟨rfl, rfl⟩ : rows' = rows ∧ cols' = cols := by simpa [extents] using hsize
  rw [hrange] at hin
  obtain ⟨x, xs, hx, hxs, hshape⟩ := List.forall₂_cons_right_iff.mp hin
  obtain ⟨y, ys, hy, hys, rfl⟩ := List.forall₂_cons_right_iff.mp hxs
  cases hys
  exact ⟨x, y, u, v, hshape, hrange, hx.1, hx.2.2, hy.1, hy.2.2, hx.2.1, hy.2.1, hplace⟩

theorem IsMatrix.size_two (h : IsMatrix r rows cols) (hrank : r.size.length = 2) :
    r.size = [rows, cols] := by
  obtain ⟨-, -, u, v, -, hrange, -⟩ := h.rank_two hrank
  rw [Region.size, hrange]
  rfl

variable (r) in
/-- A region at the origin is read as its buffer. -/
theorem AtOrigin.toGlobal_eq (h : AtOrigin r) {p : List ℤ} (hlen : p.length = r.size.length) :
    toGlobal r.range p = p := by
  have hwhole : IsWhole r.size r.range := ⟨rfl, h⟩
  exact toGlobal_of_isWhole hwhole hlen

theorem holds_tensor (h : IsMatrix r rows cols) (hrank : r.size.length = 2)
    (horigin : AtOrigin r) (elem : List ℤ → R) : Holds r elem (r.tensor elem) := by
  obtain ⟨-, -, -, -, -, -, -, -, -, -, -, -, hplace⟩ := h.rank_two hrank
  intro p hp
  have hlen := (List.Forall₂.length_eq hp).symm
  rw [h.regionShape_eq] at hlen
  rw [hplace, Region.read, horigin.toGlobal_eq r (by rw [hlen, hrank]; rfl)]
  rfl

/-- The buffer holds a region of rank two exactly when the region is at the origin. -/
theorem holds_tensor_iff [Semiring R] [Nontrivial R] (h : IsMatrix r rows cols)
    (hrank : r.size.length = 2) :
    (∀ elem : List ℤ → R, Holds r elem (r.tensor elem)) ↔ AtOrigin r := by
  obtain ⟨x, y, u, v, hshape, hrange, -, -, -, -, hrows, hcols, hplace⟩ := h.rank_two hrank
  constructor
  · intro hholds
    have hread := hholds (fun z => if z = [0, 0] then 1 else 0) [0, 0] (by
      rw [h.regionShape_eq]
      exact .cons ⟨le_rfl, hrows⟩ (.cons ⟨le_rfl, hcols⟩ .nil))
    rw [hplace, Region.read, hrange] at hread
    change (if [(0 : ℤ), 0] = [0, 0] then (1 : R) else 0) = if [u + 0, v + 0] = [0, 0] then 1 else 0
      at hread
    rw [if_pos rfl] at hread
    have hzero : [u + 0, v + 0] = [0, 0] := by
      by_contra hne
      rw [if_neg hne] at hread
      exact one_ne_zero hread
    simp only [add_zero, List.cons.injEq, and_true] at hzero
    rw [AtOrigin, hrange]
    simpa using hzero
  · exact holds_tensor h hrank

/-- An operand of higher rank is a view that holds the region. -/
theorem apiOperand_view (h : IsMatrix r rows cols) (hrank : r.size.length ≠ 2)
    (elem : List ℤ → R) :
    ∃ t, apiOperand r elem = some t ∧ t.shape = [rows, cols] ∧ Holds r elem t := by
  obtain ⟨hdims, hred⟩ := h.reduced hrank
  have htwo := h.two_le
  rw [apiOperand, if_pos (by rw [length_range]; omega), hdims]
  refine ⟨_, if_pos ⟨h.1, hred⟩, rfl, fun p hp => ?_⟩
  rw [h.regionShape_eq] at hp
  change r.read elem (unflatten r.size (flatten [rows, cols] p)) = _
  rw [h.unflatten_flatten hp]

theorem apiOperand_tensor (hrank : r.size.length = 2) (elem : List ℤ → R) :
    apiOperand r elem = some (r.tensor elem) := by
  rw [apiOperand, if_neg (by rw [length_range]; omega)]

theorem covers_tensor (h : IsMatrix r rows cols) (hrank : r.size.length = 2) :
    covers r.shape rows cols = true := by
  obtain ⟨x, y, u, v, hshape, -, hu, hx, hv, hy, -⟩ := h.rank_two hrank
  rw [hshape]
  simp only [covers, decide_eq_true_eq]
  omega

/-- An operand of expert mode. -/
theorem apiOperand_spec (h : IsMatrix r rows cols) (horigin : r.size.length = 2 → AtOrigin r)
    (elem : List ℤ → R) :
    ∃ t, apiOperand r elem = some t ∧ Holds r elem t ∧ covers t.shape rows cols = true := by
  by_cases hrank : r.size.length = 2
  · exact ⟨_, apiOperand_tensor hrank elem, holds_tensor h hrank (horigin hrank) elem,
      covers_tensor h hrank⟩
  · obtain ⟨t, ht, hshape, hholds⟩ := apiOperand_view h hrank elem
    refine ⟨t, ht, hholds, ?_⟩
    rw [hshape]
    simp [covers]

/-- A slice of developer mode. -/
theorem slice_holds (h : IsMatrix r rows cols) (hrank : r.size.length = 2) (elem : List ℤ → R) :
    ∃ t, genExtractSliceFromRegion (r.tensor elem) r.range = some t ∧ Holds r elem t ∧
      covers t.shape rows cols = true := by
  obtain ⟨s, hs, hshape, helem⟩ := genExtractSliceFromRegion_spec (t := r.tensor elem) h.1
  obtain ⟨-, -, -, -, -, -, -, -, -, -, -, -, hplace⟩ := h.rank_two hrank
  have hext : extents r.range = [rows, cols] := h.size_two hrank
  refine ⟨s, hs, fun p hp => ?_, ?_⟩
  · rw [h.regionShape_eq] at hp
    rw [helem p (hext ▸ hp), hplace]
    rfl
  · rw [hshape, hext]
    simp [covers]

end Matrices

/-! ## Products -/

section Products

variable {m k n : ℤ} {call : DotCall} {aElem bElem cElem : List ℤ → R} {a b c : Tensor R}

theorem entry_congr {transposed : Bool} {x y : List ℤ → R} {rows cols i j : ℤ}
    (h : ∀ p, InBox [turned transposed rows cols, turned transposed cols rows] p → x p = y p)
    (hi : 0 ≤ i ∧ i < rows) (hj : 0 ≤ j ∧ j < cols) :
    entry transposed x i j = entry transposed y i j := by
  rw [entry, entry]
  cases transposed with
  | true => exact h [j, i] (.cons hj (.cons hi .nil))
  | false => exact h [i, j] (.cons hi (.cons hj .nil))

variable [Semiring R]

/-- The value at a place of the destination matrix. -/
theorem value_place (r : Region) (i j : ℤ) :
    call.value aElem bElem cElem k (place r [i, j]) =
      (if call.initC then 0 else call.dst.read cElem (place r [i, j])) +
        product k (entry call.aTranspose fun p => call.src0.read aElem (place call.src0 p))
          (entry call.bTranspose fun p => call.src1.read bElem (place call.src1 p)) i j := by
  have hlen : (place r [i, j]).length - 2 = r.size.length - 2 := by
    rw [place, List.length_append, List.length_replicate]
    rfl
  have hi : (place r [i, j]).getD (r.size.length - 2) 0 = i := by
    simp [place]
  have hj : (place r [i, j]).getD (r.size.length - 2 + 1) 0 = j := by
    simp [place]
  simp only [value, hlen, hi, hj]

/-- The op on operands that hold the regions. -/
theorem mmadL1_spec {mode : Mode} (hwf : call.WellFormed mode m k n)
    (ha : Holds call.src0 aElem a) (hb : Holds call.src1 bElem b) (hc : Holds call.dst cElem c)
    (hca : covers a.shape (turned call.aTranspose m k) (turned call.aTranspose k m) = true)
    (hcb : covers b.shape (turned call.bTranspose k n) (turned call.bTranspose n k) = true)
    (hcc : covers c.shape m n = true) :
    ∃ r, mmadL1 a b c call.initC m k n call.aTranspose call.bTranspose = some r ∧
      r.shape = c.shape ∧
      (∀ p, InBox [m, n] p → r.elem p = call.value aElem bElem cElem k (place call.dst p)) ∧
      ∀ p, ¬InBox [m, n] p → r.elem p = c.elem p := by
  refine ⟨_, if_pos ⟨hca, hcb, hcc⟩, rfl, fun p hp => ?_, fun p hp => ?_⟩
  · obtain ⟨i, xs, hi, hxs, rfl⟩ := List.forall₂_cons_left_iff.mp hp
    obtain ⟨j, ys, hj, hys, rfl⟩ := List.forall₂_cons_left_iff.mp hxs
    cases hys
    simp only [if_pos hp]
    rw [value_place, hc [i, j] (hwf.dst.regionShape_eq ▸ hp)]
    congr 1
    refine Finset.sum_congr rfl fun t ht => ?_
    have ht' : 0 ≤ (t : ℤ) ∧ (t : ℤ) < k := by
      have := Finset.mem_range.mp ht
      omega
    rw [entry_congr (fun p hp => ha p (hwf.src0.regionShape_eq ▸ hp)) hi ht',
      entry_congr (fun p hp => hb p (hwf.src1.regionShape_eq ▸ hp)) ht' hj]
  · change (match p with
      | [i, j] => _
      | _ => _) = _
    split
    · rw [if_neg hp]
    · rfl

/-- The destination of rank two at the origin, after the op. -/
theorem replaces_tensor (h : IsMatrix call.dst m n) (hrank : call.dst.size.length = 2)
    (horigin : AtOrigin call.dst) {r : Tensor R} (hshape : r.shape = call.dst.shape)
    (hin : ∀ p, InBox [m, n] p → r.elem p = call.value aElem bElem cElem k (place call.dst p))
    (hout : ∀ p, ¬InBox [m, n] p → r.elem p = cElem p) :
    RegionCall.Replaces call.dst cElem (call.value aElem bElem cElem k) r := by
  refine ⟨hshape, fun q hq => ?_, fun p _ hnot => hout p fun hp => hnot ?_⟩
  · obtain ⟨p, hp, rfl⟩ := h.inBox_iff.mp hq
    rw [horigin.toGlobal_eq _ (List.Forall₂.length_eq hq).symm, ← hin p hp]
    obtain ⟨-, -, -, -, -, -, -, -, -, -, -, -, hplace⟩ := h.rank_two hrank
    rw [hplace]
  · obtain ⟨-, -, -, -, -, -, -, -, -, -, -, -, hplace⟩ := h.rank_two hrank
    have hbox : InBox call.dst.size p := h.inBox_iff.mpr ⟨p, hp, (hplace p).symm⟩
    rw [← horigin.toGlobal_eq _ (List.Forall₂.length_eq hbox).symm]
    exact inRanges_toGlobal hbox

/-- The destination of higher rank, after the op through a view. -/
theorem replaces_view (h : IsMatrix call.dst m n) (hrank : call.dst.size.length ≠ 2) {r : Tensor R}
    (hshape : r.shape = [m, n])
    (hin : ∀ p, InBox [m, n] p → r.elem p = call.value aElem bElem cElem k (place call.dst p)) :
    ∃ res, insertSlice r (call.dst.tensor cElem) call.dst.range = some res ∧
      RegionCall.Replaces call.dst cElem (call.value aElem bElem cElem k) res := by
  have hred : rankReduced (extents call.dst.range) r.shape = true := hshape ▸ (h.reduced hrank).2
  obtain ⟨res, hres, hresShape, hresIn, hresOut⟩ :=
    insertSlice_of_within (call.dst.tensor cElem) h.1 hred
  refine ⟨res, hres, hresShape, fun q hq => ?_, fun p _ => hresOut p⟩
  obtain ⟨p, hp, rfl⟩ := h.inBox_iff.mp hq
  rw [hresIn _ (inRanges_toGlobal hq), toLocal_toGlobal hq, ← hin p hp, Tensor.nth, hshape]
  change r.elem (unflatten [m, n] (flatten call.dst.size _)) = _
  rw [h.flatten_place, RowMajor.unflatten_flatten hp]

end Products

/-! ## The two modes -/

section Modes

variable [Semiring R] {m k n : ℤ} {call : DotCall}

theorem dev_lowers (hwf : call.WellFormed .dev m k n) (hexact : call.Exact m k n .dev) :
    call.Lowers R .dev m k n := by
  intro aElem bElem cElem
  obtain ⟨hA, hB, horigin⟩ := hexact
  obtain ⟨hrank0, hrank1, hrank⟩ := hwf.rank rfl
  obtain ⟨a, ha, haHolds, hca⟩ := slice_holds hwf.src0 hrank0 aElem
  obtain ⟨b, hb, hbHolds, hcb⟩ := slice_holds hwf.src1 hrank1 bElem
  have hcHolds := holds_tensor hwf.dst hrank horigin cElem
  obtain ⟨r, hr, hshape, hin, hout⟩ := mmadL1_spec hwf haHolds hbHolds hcHolds hca hcb
    (covers_tensor hwf.dst hrank)
  have hM : call.src0.size[0]? = some m := by
    rw [hwf.src0.size_two hrank0, turned]
    split
    case isTrue h => rw [hA h]; rfl
    case isFalse => rfl
  have hK : call.src1.size[0]? = some k := by
    rw [hwf.src1.size_two hrank1, turned]
    split
    case isTrue h => rw [hB h]; rfl
    case isFalse => rfl
  have hN : call.src1.size[1]? = some n := by
    rw [hwf.src1.size_two hrank1, turned, turned]
    split
    case isTrue h => rw [hB h]; rfl
    case isFalse => rfl
  refine ⟨⟨a, b, call.dst.tensor cElem, m, k, n, r⟩, ?_, rfl, rfl, rfl, haHolds, hbHolds, hcHolds,
    replaces_tensor hwf.dst hrank horigin hshape hin hout⟩
  simp only [codegen, devCodegen, ha, hb, hM, hK, hN, hr, Option.bind_eq_bind, Option.bind_some]
  rfl

/-- The sizes that developer mode takes, and the buffer it writes. -/
theorem exact_of_dev_lowers [Nontrivial R] (hwf : call.WellFormed .dev m k n)
    (h : call.Lowers R .dev m k n) : call.Exact m k n .dev := by
  obtain ⟨hrank0, hrank1, hrank⟩ := hwf.rank rfl
  -- what holds of the op for any contents
  have hop : ∀ cElem : List ℤ → R, call.src0.size[0]? = some m ∧ call.src1.size[0]? = some k ∧
      call.src1.size[1]? = some n ∧ Holds call.dst cElem (call.dst.tensor cElem) := by
    intro cElem
    obtain ⟨e, he, hM, hK, hN, -, -, hc, -⟩ := h (fun _ => 0) (fun _ => 0) cElem
    rw [codegen, devCodegen] at he
    obtain ⟨a, -, he⟩ := Option.bind_eq_some_iff.mp he
    obtain ⟨b, -, he⟩ := Option.bind_eq_some_iff.mp he
    obtain ⟨realM, hrealM, he⟩ := Option.bind_eq_some_iff.mp he
    obtain ⟨realK, hrealK, he⟩ := Option.bind_eq_some_iff.mp he
    obtain ⟨realN, hrealN, he⟩ := Option.bind_eq_some_iff.mp he
    obtain ⟨r, -, he⟩ := Option.bind_eq_some_iff.mp he
    obtain rfl := Option.some.inj he
    exact ⟨hM ▸ hrealM, hK ▸ hrealK, hN ▸ hrealN, hc⟩
  obtain ⟨hM, hK, hN, -⟩ := hop fun _ => 0
  rw [hwf.src0.size_two hrank0] at hM
  rw [hwf.src1.size_two hrank1] at hK
  refine ⟨fun ht => ?_, fun ht => ?_, ?_⟩
  · rw [turned, if_pos ht] at hM
    exact (Option.some.inj hM).symm
  · rw [turned, if_pos ht] at hK
    exact (Option.some.inj hK).symm
  · exact (holds_tensor_iff (R := R) hwf.dst hrank).mp fun cElem => (hop cElem).2.2.2

/-- The sizes that expert mode takes. -/
theorem api_sizes (hwf : call.WellFormed .api m k n) :
    (regionShape call.src0)[if call.aTranspose then 1 else 0]? = some m ∧
      (regionShape call.src0)[if call.aTranspose then 0 else 1]? = some k ∧
      (regionShape call.src1)[if call.bTranspose then 1 else 0]? = some k ∧
      (regionShape call.src1)[if call.bTranspose then 0 else 1]? = some n := by
  rw [hwf.src0.regionShape_eq, hwf.src1.regionShape_eq]
  cases call.aTranspose <;> cases call.bTranspose <;> exact ⟨rfl, rfl, rfl, rfl⟩

theorem api_lowers (hwf : call.WellFormed .api m k n) (hexact : call.Exact m k n .api) :
    call.Lowers R .api m k n := by
  intro aElem bElem cElem
  have horigin : ∀ r ∈ [call.src0, call.src1, call.dst], r.size.length = 2 → AtOrigin r := hexact
  simp only [List.forall_mem_cons] at horigin
  obtain ⟨hA, hB, hC, -⟩ := horigin
  obtain ⟨a, ha, haHolds, hca⟩ := apiOperand_spec hwf.src0 hA aElem
  obtain ⟨b, hb, hbHolds, hcb⟩ := apiOperand_spec hwf.src1 hB bElem
  obtain ⟨c, hc, hcHolds, hcc⟩ := apiOperand_spec hwf.dst hC cElem
  obtain ⟨r, hr, hshape, hin, hout⟩ := mmadL1_spec hwf haHolds hbHolds hcHolds hca hcb hcc
  obtain ⟨hM, hK, hK', hN⟩ := api_sizes hwf
  -- the destination, written directly or through its view
  obtain ⟨res, hres, hrep⟩ : ∃ res, call.writeBack cElem r = some res ∧
      RegionCall.Replaces call.dst cElem (call.value aElem bElem cElem k) res := by
    by_cases hrank : call.dst.size.length = 2
    · rw [writeBack, if_neg (by rw [length_range]; omega)]
      rw [apiOperand_tensor hrank] at hc
      obtain rfl := Option.some.inj hc
      exact ⟨r, rfl, replaces_tensor hwf.dst hrank (hC hrank) hshape hin hout⟩
    · have htwo := hwf.dst.two_le
      rw [writeBack, if_pos (by rw [length_range]; omega)]
      obtain ⟨c', hc', hcShape, -⟩ := apiOperand_view hwf.dst hrank cElem
      obtain rfl := Option.some.inj (hc.symm.trans hc')
      exact replaces_view hwf.dst hrank (hshape.trans hcShape) hin
  refine ⟨⟨a, b, c, m, k, n, res⟩, ?_, rfl, rfl, rfl, haHolds, hbHolds, hcHolds, hrep⟩
  simp only [codegen, apiCodegen, ha, hb, hc, hM, hK, hK', hN, hr, Option.bind_eq_bind,
    Option.bind_some, if_true, hres]
  rfl

/-- The buffers that expert mode takes whole. -/
theorem exact_of_api_lowers [Nontrivial R] (hwf : call.WellFormed .api m k n)
    (h : call.Lowers R .api m k n) : call.Exact m k n .api := by
  -- an operand of rank two is its buffer
  have hop : ∀ aElem bElem cElem : List ℤ → R, ∃ a b c,
      apiOperand call.src0 aElem = some a ∧ apiOperand call.src1 bElem = some b ∧
      apiOperand call.dst cElem = some c ∧ Holds call.src0 aElem a ∧ Holds call.src1 bElem b ∧
      Holds call.dst cElem c := by
    intro aElem bElem cElem
    obtain ⟨e, he, -, -, -, ha, hb, hc, -⟩ := h aElem bElem cElem
    rw [codegen, apiCodegen] at he
    obtain ⟨a, ha', he⟩ := Option.bind_eq_some_iff.mp he
    obtain ⟨b, hb', he⟩ := Option.bind_eq_some_iff.mp he
    obtain ⟨c, hc', he⟩ := Option.bind_eq_some_iff.mp he
    obtain ⟨realM, -, he⟩ := Option.bind_eq_some_iff.mp he
    obtain ⟨realK, -, he⟩ := Option.bind_eq_some_iff.mp he
    obtain ⟨inner, -, he⟩ := Option.bind_eq_some_iff.mp he
    obtain ⟨realN, -, he⟩ := Option.bind_eq_some_iff.mp he
    split at he
    · obtain ⟨value, -, he⟩ := Option.bind_eq_some_iff.mp he
      obtain ⟨result, -, he⟩ := Option.bind_eq_some_iff.mp he
      obtain rfl := Option.some.inj he
      exact ⟨a, b, c, ha', hb', hc', ha, hb, hc⟩
    · cases he
  intro r hr hrank
  simp only [List.mem_cons, List.not_mem_nil, or_false] at hr
  rcases hr with rfl | rfl | rfl
  · refine (holds_tensor_iff (R := R) hwf.src0 hrank).mp fun elem => ?_
    obtain ⟨a, b, c, ha, -, -, hholds, -⟩ := hop elem (fun _ => 0) fun _ => (0 : R)
    rwa [← Option.some.inj ((apiOperand_tensor hrank elem).symm.trans ha)] at hholds
  · refine (holds_tensor_iff (R := R) hwf.src1 hrank).mp fun elem => ?_
    obtain ⟨a, b, c, -, hb, -, -, hholds, -⟩ := hop (fun _ => 0) elem fun _ => (0 : R)
    rwa [← Option.some.inj ((apiOperand_tensor hrank elem).symm.trans hb)] at hholds
  · refine (holds_tensor_iff (R := R) hwf.dst hrank).mp fun elem => ?_
    obtain ⟨a, b, c, -, -, hc, -, -, hholds⟩ := hop (fun _ => 0) (fun _ => (0 : R)) elem
    rwa [← Option.some.inj ((apiOperand_tensor hrank elem).symm.trans hc)] at hholds

/-- A matrix product is lowered to the product of the regions exactly when, in developer mode, the
transposed sources are square and the destination region is at the origin of its buffer, and, in
expert mode, the regions of rank two are at the origin of theirs. -/
theorem lowers_iff [Nontrivial R] {mode : Mode} (hwf : call.WellFormed mode m k n) :
    call.Lowers R mode m k n ↔ call.Exact m k n mode := by
  cases mode with
  | dev => exact ⟨exact_of_dev_lowers hwf, dev_lowers hwf⟩
  | api => exact ⟨exact_of_api_lowers hwf, api_lowers hwf⟩

end Modes

/-- A slice of a batch in expert mode, with the second source transposed. -/
theorem lowers_batch :
    (DotCall.mk ⟨[4, 8, 16], [(3, 1), (2, 4), (0, 16)]⟩ ⟨[32, 16], [(0, 32), (0, 16)]⟩
      ⟨[4, 8, 32], [(3, 1), (2, 4), (0, 32)]⟩ false false true).Lowers ℤ .api 4 16 32 := by
  apply (lowers_iff ⟨⟨by decide, 1, rfl⟩, ⟨by decide, 0, rfl⟩, ⟨by decide, 1, rfl⟩, by nofun⟩).mpr
  unfold Exact
  decide

/-- A transposed first source in developer mode: the inner extent is taken for the number of
rows. -/
theorem lowers_transposed :
    ¬(DotCall.mk ⟨[4, 16], [(0, 4), (0, 16)]⟩ ⟨[4, 32], [(0, 4), (0, 32)]⟩
      ⟨[16, 32], [(0, 16), (0, 32)]⟩ true true false).Lowers ℤ .dev 16 4 32 := by
  intro h
  obtain ⟨e, he, hM, -⟩ := h (fun _ => 0) (fun _ => 0) fun _ => 0
  obtain rfl := Option.some.inj he
  cases hM

end DotCall

end TileLangNpuir.ApiMemref
