import Mathlib.Data.Rat.Defs
import TileLangNpuir.Lib.Box
import TileLangNpuir.Lib.Layers

/-!
# Operands of the tile language

`_get_extent` and `_to_region` of `tilelang/language/customize_npuir.py`, the two helpers of
`tilelang/language/copy.py` that they end in, and `RegionOp` of `src/op/op.cc`, which reads the
`tl.region` they build. The extents of a load are collected index by index; an index that is
neither a variable, a number nor a ramp is passed over, and ones are put in front for what is
missing.
-/

namespace TileLangNpuir.Frontend

open RowMajor

variable {V : Type}

/-! ## Expressions -/

inductive BinaryOp : Type where
  | add
  | sub
  | mul
  | floorDiv
  | floorMod
  | min
  | max
  deriving DecidableEq

def BinaryOp.eval : BinaryOp → ℤ → ℤ → ℤ
  | .add, a, b => a + b
  | .sub, a, b => a - b
  | .mul, a, b => a * b
  | .floorDiv, a, b => Int.fdiv a b
  | .floorMod, a, b => Int.fmod a b
  | .min, a, b => Min.min a b
  | .max, a, b => Max.max a b

/-- Integer expressions over variables. -/
inductive PrimExpr (V : Type) : Type where
  | var (x : V)
  | intImm (n : ℤ)
  | binary (op : BinaryOp) (a b : PrimExpr V)
  deriving DecidableEq

def PrimExpr.eval (σ : V → ℤ) : PrimExpr V → ℤ
  | .var x => σ x
  | .intImm n => n
  | .binary op a b => op.eval (a.eval σ) (b.eval σ)

/-- An extent in a `tl.region`: an integer expression, or a `FloatImm`. -/
inductive Extent (V : Type) : Type where
  | expr (e : PrimExpr V)
  | floatImm (q : ℚ)
  deriving DecidableEq

/-- The number an extent is; a float is no extent. -/
def Extent.eval (σ : V → ℤ) : Extent V → Option ℤ
  | .expr e => some (e.eval σ)
  | .floatImm _ => none

/-- Extents that are numbers. -/
def ofSize (size : List ℤ) : List (Extent V) := size.map fun n => .expr (.intImm n)

/-- An index of a load. -/
inductive Index (V : Type) : Type where
  | expr (e : PrimExpr V)
  | ramp (base stride : PrimExpr V) (lanes : ℕ)

structure Buffer (V : Type) : Type where
  name : ℕ
  shape : List (PrimExpr V)

/-- What a tile operation can be applied to. -/
inductive Operand (V : Type) : Type where
  | buffer (b : Buffer V)
  | region (b : Buffer V) (ranges : List (PrimExpr V × PrimExpr V))
  | load (b : Buffer V) (indices : List (Index V))

def Operand.data : Operand V → Buffer V
  | .buffer b | .region b _ | .load b _ => b

def Operand.isRegion : Operand V → Bool
  | .region _ _ => true
  | _ => false

/-! ## Errors and lists of the front end -/

inductive PyError : Type where
  | assertionError
  | indexError
  | typeError
  | valueError
  | zeroDivisionError
  deriving DecidableEq

/-- `assert`, and checks that raise another error. -/
def ensure (condition : Prop) [Decidable condition] (e : PyError) : Except PyError Unit :=
  if condition then .ok () else .error e

@[simp]
theorem ok_bind {α β : Type} (a : α) (f : α → Except PyError β) : (Except.ok a >>= f) = f a := rfl

theorem bind_eq_ok_iff {α β : Type} {x : Except PyError α} {f : α → Except PyError β} {b : β} :
    (x >>= f) = .ok b ↔ ∃ a, x = .ok a ∧ f a = .ok b := by
  cases x with
  | error e => exact iff_of_false nofun fun ⟨_, h, _⟩ => by cases h
  | ok a => exact ⟨fun h => ⟨a, rfl, h⟩, fun ⟨_, h, h'⟩ => by cases h; exact h'⟩

theorem map_eq_ok_iff {α β : Type} {x : Except PyError α} {f : α → β} {b : β} :
    (f <$> x) = .ok b ↔ ∃ a, x = .ok a ∧ f a = b := by
  cases x with
  | error e => exact iff_of_false nofun fun ⟨_, h, _⟩ => by cases h
  | ok a => exact ⟨fun h => ⟨a, rfl, Except.ok.inj h⟩, fun ⟨_, h, h'⟩ => by cases h; exact h' ▸ rfl⟩

theorem ensure_of {condition : Prop} [Decidable condition] (h : condition) (e : PyError) :
    ensure condition e = .ok () := if_pos h

theorem ensure_eq_ok_iff {condition : Prop} [Decidable condition] {e : PyError} :
    ensure condition e = .ok () ↔ condition := by
  rw [ensure]
  split
  case isTrue h => exact iff_of_true rfl h
  case isFalse h => exact iff_of_false nofun h

/-- `xs[-n:]`. -/
def lastItems {α : Type} (xs : List α) (n : ℕ) : List α :=
  if n = 0 then xs else xs.drop (xs.length - n)

/-! ## Regions -/

inductive Access : Type where
  | r
  | w
  deriving DecidableEq

/-- A call of `tl.region`. -/
structure TileRegion (V : Type) : Type where
  buffer : Buffer V
  mins : List (PrimExpr V)
  access : Access
  extents : List (Extent V)

/-- What `_get_extent` adds for an index. -/
def Index.extent : Index V → Option ℤ
  | .expr (.var _) => some 1
  | .expr (.intImm _) => some 1
  | .expr (.binary _ _ _) => none
  | .ramp _ _ lanes => some lanes

/-- `_get_extent`. -/
def getExtent : Operand V → List (Extent V)
  | .buffer b => b.shape.map .expr
  | .region _ ranges => ranges.map fun r => .expr r.2
  | .load _ indices => ofSize (indices.filterMap Index.extent)

/-- The first element that an index addresses. -/
def Index.head : Index V → PrimExpr V
  | .expr e => e
  | .ramp base _ _ => base

/-- `_buffer_to_tile_region_with_extent`. -/
def bufferToTileRegionWithExtent (b : Buffer V) (access : Access) (extent : List (Extent V)) :
    TileRegion V :=
  ⟨b, b.shape.map fun _ => .intImm 0, access, extent⟩

/-- `buffer_region_to_tile_region`: the extents of the region, not those that are given. -/
def bufferRegionToTileRegion (b : Buffer V) (ranges : List (PrimExpr V × PrimExpr V))
    (access : Access) (extents : List (Extent V)) : Except PyError (TileRegion V) := do
  ensure (extents.length ≤ ranges.length) .assertionError
  return ⟨b, ranges.map Prod.fst, access, ranges.map fun r => .expr r.2⟩

/-- `buffer_load_to_tile_region`. -/
def bufferLoadToTileRegion (b : Buffer V) (indices : List (Index V)) (access : Access)
    (extents : List (Extent V)) : Except PyError (TileRegion V) := do
  let extents :=
    if extents.length < indices.length then
      ofSize (List.replicate (indices.length - extents.length) 1) ++ extents
    else extents
  ensure (indices.length = extents.length) .assertionError
  return ⟨b, indices.map Index.head, access, extents⟩

/-- `_to_region`. -/
def toRegion (o : Operand V) (access : Access) (extent : List (Extent V)) :
    Except PyError (TileRegion V) :=
  match o with
  | .buffer b => .ok (bufferToTileRegionWithExtent b access extent)
  | .region b ranges => bufferRegionToTileRegion b ranges access (lastItems extent b.shape.length)
  | .load b indices => bufferLoadToTileRegion b indices access (lastItems extent b.shape.length)

/-- `RegionOp`: the ranges of a region. There are as many extents as indices, and the extents are
integers. -/
def regionOp (σ : V → ℤ) (r : TileRegion V) : Option (List (ℤ × ℤ)) :=
  if r.mins.length = r.extents.length then
    (r.extents.mapM (Extent.eval σ)).map (List.zip (r.mins.map (PrimExpr.eval σ)))
  else none

/-! ## What operands denote -/

/-- The places that an index addresses. -/
def Index.Addresses (σ : V → ℤ) : Index V → ℤ → Prop
  | .expr e, x => x = e.eval σ
  | .ramp base stride lanes, x => ∃ k : ℕ, k < lanes ∧ x = base.eval σ + stride.eval σ * k

def Index.lanes : Index V → ℤ
  | .expr _ => 1
  | .ramp _ _ lanes => lanes

namespace Operand

/-- The elements that an operand addresses. -/
def Addresses (σ : V → ℤ) : Operand V → List ℤ → Prop
  | .buffer b, p => InBox (b.shape.map (PrimExpr.eval σ)) p
  | .region _ ranges, p =>
    List.Forall₂ (fun r x => r.1.eval σ ≤ x ∧ x < r.1.eval σ + r.2.eval σ) ranges p
  | .load _ indices, p => List.Forall₂ (Index.Addresses σ) indices p

/-- The low ends of an operand. -/
def mins (σ : V → ℤ) : Operand V → List ℤ
  | .buffer b => b.shape.map fun _ => 0
  | .region _ ranges => ranges.map fun r => r.1.eval σ
  | .load _ indices => indices.map fun i => i.head.eval σ

/-- The extents of an operand. -/
def extents (σ : V → ℤ) : Operand V → List ℤ
  | .buffer b => b.shape.map (PrimExpr.eval σ)
  | .region _ ranges => ranges.map fun r => r.2.eval σ
  | .load _ indices => indices.map Index.lanes

/-- The extents that an operand gets: its own, or those of the indices that count. -/
def exposed (σ : V → ℤ) : Operand V → List ℤ
  | .load _ indices =>
    List.replicate (indices.length - (indices.filterMap Index.extent).length) 1 ++
      indices.filterMap Index.extent
  | o => o.extents σ

/-- A region has a range and a load an index for each dimension, and ramps have unit stride. -/
def WellFormed : Operand V → Prop
  | .buffer _ => True
  | .region b ranges => ranges.length = b.shape.length
  | .load b indices => indices.length = b.shape.length ∧
      ∀ i ∈ indices, match i with
        | .expr _ => True
        | .ramp _ stride lanes => stride = .intImm 1 ∧ 0 < lanes

/-- The region built from an operand has the rank of the buffer and the elements of the
operand. -/
def Denotes (σ : V → ℤ) (o : Operand V) (access : Access) : Prop :=
  ∃ r ranges, toRegion o access (getExtent o) = .ok r ∧ r.buffer = o.data ∧
    regionOp σ r = some ranges ∧ ranges.length = o.data.shape.length ∧
    ∀ p, InRanges ranges p ↔ o.Addresses σ p

/-- The region starts where the operand does, and has the given extents under dimensions of
extent one. -/
def Places (σ : V → ℤ) (o : Operand V) (size : List ℤ) (r : TileRegion V) : Prop :=
  r.buffer = o.data ∧ ∃ l, o.data.shape.length = l + size.length ∧
    regionOp σ r = some ((o.mins σ).zip (List.replicate l 1 ++ size))

/-- No index that is passed over comes after a ramp with several lanes. -/
def Recovered : Operand V → Prop
  | .buffer _ => True
  | .region _ _ => True
  | .load _ indices => indices.Pairwise fun i j => i.lanes ≠ 1 → j.extent ≠ none

/-- A size that the operand can have: one of full length for a buffer, its own for a region, and
one of at most full length for a load. -/
def Fits (σ : V → ℤ) (size : List ℤ) : Operand V → Prop
  | .buffer b => size.length = b.shape.length
  | .region _ ranges =>
    ∃ l, (ranges.map fun r => r.2.eval σ) = List.replicate l 1 ++ size
  | .load _ indices => size.length ≤ indices.length

/-! ## Ranges -/

section Ranges

variable {σ : V → ℤ} {o : Operand V}

theorem length_mins (hwf : o.WellFormed) : (o.mins σ).length = o.data.shape.length := by
  cases o with
  | buffer b => exact List.length_map _
  | region b ranges => exact (List.length_map _).trans hwf
  | load b indices => exact (List.length_map _).trans hwf.1

theorem length_extents (hwf : o.WellFormed) : (o.extents σ).length = o.data.shape.length := by
  cases o with
  | buffer b => exact List.length_map _
  | region b ranges => exact (List.length_map _).trans hwf
  | load b indices => exact (List.length_map _).trans hwf.1

/-- A unit-stride ramp addresses an interval. -/
theorem ramp_addresses_iff {base : PrimExpr V} {lanes : ℕ} {x : ℤ} :
    (Index.ramp base (.intImm 1) lanes).Addresses σ x ↔
      base.eval σ ≤ x ∧ x < base.eval σ + lanes := by
  constructor
  · rintro ⟨k, hk, rfl⟩
    simp only [PrimExpr.eval]
    omega
  · rintro ⟨hlow, hhigh⟩
    refine ⟨(x - base.eval σ).toNat, by omega, ?_⟩
    simp only [PrimExpr.eval]
    omega

/-- An operand addresses a box. -/
theorem addresses_iff (hwf : o.WellFormed) {p : List ℤ} :
    o.Addresses σ p ↔ InRanges ((o.mins σ).zip (o.extents σ)) p := by
  cases o with
  | buffer b =>
    rw [mins, extents, List.zip_map', InRanges, List.forall₂_map_left_iff, Addresses, InBox,
      List.forall₂_map_left_iff]
    simp only [zero_add]
  | region b ranges =>
    rw [mins, extents, List.zip_map', InRanges, List.forall₂_map_left_iff, Addresses]
  | load b indices =>
    rw [mins, extents, List.zip_map', InRanges, List.forall₂_map_left_iff, Addresses]
    have hunit := hwf.2
    clear hwf
    induction indices generalizing p with
    | nil => simp only [List.forall₂_nil_left_iff]
    | cons i indices ih =>
      rw [List.forall_mem_cons] at hunit
      simp only [List.forall₂_cons_left_iff, ih hunit.2]
      refine exists_congr fun x => exists_congr fun xs => and_congr_left fun _ => ?_
      cases i with
      | expr e =>
        simp only [Index.Addresses, Index.head, Index.lanes]
        omega
      | ramp base stride lanes =>
        obtain ⟨rfl, -⟩ := hunit.1
        exact ramp_addresses_iff

end Ranges

end Operand

/-! ## Extents that are passed over -/

/-- Filling up with ones in front for the items passed over gives back the whole list exactly when
nothing is passed over after an item that is not one. -/
theorem replicate_append_filterMap_iff {α : Type} {g : α → Option ℤ} {f : α → ℤ}
    (h : ∀ x, g x = some (f x) ∨ g x = none ∧ f x = 1) (xs : List α) :
    List.replicate (xs.length - (xs.filterMap g).length) 1 ++ xs.filterMap g = xs.map f ↔
      xs.Pairwise fun x y => f x ≠ 1 → g y ≠ none := by
  induction xs with
  | nil => simp
  | cons x xs ih =>
    have hle : (xs.filterMap g).length ≤ xs.length := List.length_filterMap_le _ _
    rw [List.pairwise_cons, ← ih]
    rcases h x with hx | ⟨hx, hone⟩
    · rw [List.filterMap_cons_some hx, List.length_cons, List.length_cons, Nat.add_sub_add_right,
        List.map_cons]
      cases hd : xs.length - (xs.filterMap g).length with
      | zero =>
        -- nothing is passed over
        have hall : ∀ y ∈ xs, f x ≠ 1 → g y ≠ none := by
          intro y hy _ hnone
          have := List.length_filterMap_lt_length_iff_exists.mpr ⟨y, hy, hnone⟩
          omega
        rw [and_iff_right hall]
        exact List.cons_inj_right _
      | succ d =>
        -- an item is passed over, so the first one has to be one
        have hlt : (xs.filterMap g).length < xs.length := by omega
        obtain ⟨y, hy, hnone⟩ := List.length_filterMap_lt_length_iff_exists.mp hlt
        have hshift : List.replicate d 1 ++ 1 :: xs.filterMap g =
            List.replicate (d + 1) 1 ++ xs.filterMap g := by
          rw [List.replicate_succ', List.append_assoc]
          rfl
        constructor
        · intro heq
          rw [List.replicate_succ, List.cons_append, List.cons.injEq] at heq
          obtain ⟨hone, heq⟩ := heq
          rw [← hone, hshift] at heq
          exact ⟨fun _ _ hne => absurd hone.symm hne, heq⟩
        · rintro ⟨hfirst, heq⟩
          have hone : f x = 1 := by
            by_contra hne
            exact hfirst y hy hne hnone
          rw [hone, List.replicate_succ, List.cons_append, hshift, heq]
    · rw [List.filterMap_cons_none hx, List.length_cons, Nat.sub_add_comm hle, List.replicate_succ,
        List.cons_append, List.map_cons, hone, List.cons_inj_right]
      simp

theorem Index.extent_or (i : Index V) :
    i.extent = some i.lanes ∨ i.extent = none ∧ i.lanes = 1 := by
  match i with
  | .expr (.var _) => exact .inl rfl
  | .expr (.intImm _) => exact .inl rfl
  | .expr (.binary _ _ _) => exact .inr ⟨rfl, rfl⟩
  | .ramp _ _ _ => exact .inl rfl

/-! ## Building regions -/

section Building

variable {σ : V → ℤ} {o : Operand V} {access : Access}

theorem mapM_eval {α : Type} {f : α → Extent V} {g : α → ℤ}
    (h : ∀ x, (f x).eval σ = some (g x)) (xs : List α) :
    (xs.map f).mapM (Extent.eval σ) = some (xs.map g) := by
  induction xs with
  | nil => rfl
  | cons x xs ih => simp [h x, ih]

theorem eval_ne_none {extents : List (Extent V)} {es : List ℤ}
    (h : extents.mapM (Extent.eval σ) = some es) : ∀ x ∈ extents, x.eval σ ≠ none := by
  intro x hx hnone
  obtain ⟨i, hi, rfl⟩ := List.getElem_of_mem hx
  obtain ⟨n, -, hn⟩ := exists_getElem?_of_forall₂ (mapM_eq_some_iff.mp h)
    (List.getElem?_eq_getElem hi)
  cases hnone.symm.trans hn

theorem mapM_ofSize (size : List ℤ) :
    (ofSize size : List (Extent V)).mapM (Extent.eval σ) = some size := by
  rw [ofSize, mapM_eval (fun _ => rfl)]
  exact congrArg some (List.map_id' size)

@[simp]
theorem length_ofSize (size : List ℤ) : (ofSize size : List (Extent V)).length = size.length :=
  List.length_map _

theorem ofSize_append (xs ys : List ℤ) :
    (ofSize xs ++ ofSize ys : List (Extent V)) = ofSize (xs ++ ys) := List.map_append.symm

/-- Ones in front of extents. -/
theorem ofSize_append_map (k : ℕ) (es : List (PrimExpr V)) :
    ofSize (List.replicate k 1) ++ es.map Extent.expr =
      (List.replicate k (PrimExpr.intImm 1) ++ es).map Extent.expr := by
  rw [List.map_append, ofSize, List.map_replicate, List.map_replicate]

theorem regionOp_map {b : Buffer V} {mins es : List (PrimExpr V)} :
    regionOp σ ⟨b, mins, access, es.map .expr⟩ =
      if mins.length = es.length then
        some ((mins.map (PrimExpr.eval σ)).zip (es.map (PrimExpr.eval σ))) else none := by
  have heval : (es.map Extent.expr).mapM (Extent.eval σ) = some (es.map (PrimExpr.eval σ)) :=
    mapM_eval (fun _ => rfl) es
  simp only [regionOp, List.length_map, heval, Option.map_some]

theorem regionOp_ofSize {b : Buffer V} {mins : List (PrimExpr V)} {size : List ℤ} :
    regionOp σ ⟨b, mins, access, ofSize size⟩ =
      if mins.length = size.length then some ((mins.map (PrimExpr.eval σ)).zip size) else none := by
  simp only [regionOp, length_ofSize, mapM_ofSize, Option.map_some]

theorem lastItems_of_length_le {α : Type} {xs : List α} {n : ℕ} (h : xs.length ≤ n) :
    lastItems xs n = xs := by
  rw [lastItems]
  split
  · rfl
  · rw [Nat.sub_eq_zero_of_le h, List.drop_zero]

/-- The region of a load. -/
theorem toRegion_load {b : Buffer V} {indices : List (Index V)} {extent : List (Extent V)}
    (hlen : indices.length = b.shape.length) (hle : extent.length ≤ indices.length) :
    toRegion (.load b indices) access extent = .ok ⟨b, indices.map Index.head, access,
      ofSize (List.replicate (indices.length - extent.length) 1) ++ extent⟩ := by
  have hfill : (if extent.length < indices.length then
      ofSize (List.replicate (indices.length - extent.length) 1) ++ extent else extent) =
      ofSize (List.replicate (indices.length - extent.length) 1) ++ extent := by
    split
    · rfl
    · rw [Nat.sub_eq_zero_of_le (by omega)]
      rfl
  rw [toRegion, lastItems_of_length_le (by omega), bufferLoadToTileRegion, hfill, ensure,
    if_pos (by simp; omega)]
  rfl

theorem toRegion_load_ofSize {b : Buffer V} {indices : List (Index V)} {size : List ℤ}
    (hlen : indices.length = b.shape.length) (hle : size.length ≤ indices.length) :
    toRegion (.load b indices) access (ofSize size) = .ok ⟨b, indices.map Index.head, access,
      ofSize (List.replicate (indices.length - size.length) 1 ++ size)⟩ := by
  rw [toRegion_load hlen (by rwa [length_ofSize]), length_ofSize, ofSize_append]

/-- Unless the operand is a region, it gets the extents that are given. -/
theorem toRegion_extents (hwf : o.WellFormed) (hnot : o.isRegion = false)
    {extent : List (Extent V)} (hle : extent.length ≤ o.data.shape.length) {r : TileRegion V}
    (hr : toRegion o access extent = .ok r) :
    ∃ l, r.extents = ofSize (List.replicate l 1) ++ extent := by
  cases o with
  | buffer b =>
    obtain rfl := Except.ok.inj hr
    exact ⟨0, rfl⟩
  | region b ranges => cases hnot
  | load b indices =>
    rw [toRegion_load hwf.1 (hwf.1 ▸ hle)] at hr
    obtain rfl := Except.ok.inj hr
    exact ⟨_, rfl⟩

/-- A region gets its own extents, whatever is given. -/
theorem toRegion_congr (hregion : o.isRegion = true) {extent extent' : List (Extent V)}
    (hlen : extent.length = extent'.length) :
    toRegion o access extent = toRegion o access extent' := by
  cases o with
  | buffer b => cases hregion
  | load b indices => cases hregion
  | region b ranges =>
    have hlast : (lastItems extent b.shape.length).length =
        (lastItems extent' b.shape.length).length := by
      rw [lastItems, lastItems, hlen]
      split
      · exact hlen
      · rw [List.length_drop, List.length_drop, hlen]
    simp only [toRegion, bufferRegionToTileRegion, hlast]

/-- The extents of a region of the given size. -/
theorem mapM_of_places (hwf : o.WellFormed) {size : List ℤ} {r : TileRegion V}
    (h : o.Places σ size r) :
    ∃ l, o.data.shape.length = l + size.length ∧
      r.extents.mapM (Extent.eval σ) = some (List.replicate l 1 ++ size) := by
  obtain ⟨-, l, hlen, hranges⟩ := h
  refine ⟨l, hlen, ?_⟩
  rw [regionOp] at hranges
  split at hranges
  case isFalse => cases hranges
  case isTrue hcount =>
    obtain ⟨es, hes, hzip⟩ := Option.map_eq_some_iff.mp hranges
    have hlen' := (mapM_eq_some_iff.mp hes).length_eq
    have hsnd := congrArg (List.map Prod.snd) hzip
    rw [List.map_snd_zip (by rw [List.length_map]; omega), List.map_snd_zip] at hsnd
    · rw [hes, hsnd]
    · rw [Operand.length_mins hwf, List.length_append, List.length_replicate]
      exact hlen.ge

/-- A region that is built from a size has no other size of the same length. -/
theorem size_unique (hwf : o.WellFormed) (hnot : o.isRegion = false) {size size' : List ℤ}
    (hlen : size'.length = size.length) {r : TileRegion V}
    (hr : toRegion o access (ofSize size) = .ok r) (h : o.Places σ size' r) : size' = size := by
  obtain ⟨l, hrank, heval⟩ := mapM_of_places hwf h
  obtain ⟨l', hextents⟩ := toRegion_extents hwf hnot (by rw [length_ofSize]; omega) hr
  rw [hextents, ofSize_append, mapM_ofSize] at heval
  exact (List.append_inj_right' (Option.some.inj heval) hlen.symm).symm

theorem length_exposed (hwf : o.WellFormed) : (o.exposed σ).length = o.data.shape.length := by
  cases o with
  | buffer b => exact Operand.length_extents hwf
  | region b ranges => exact Operand.length_extents hwf
  | load b indices =>
    have hle : (indices.filterMap Index.extent).length ≤ indices.length :=
      List.length_filterMap_le _ _
    rw [Operand.exposed, List.length_append, List.length_replicate, Nat.sub_add_cancel hle]
    exact hwf.1

theorem exposed_eq_iff : o.exposed σ = o.extents σ ↔ o.Recovered := by
  cases o with
  | buffer b => exact iff_of_true rfl trivial
  | region b ranges => exact iff_of_true rfl trivial
  | load b indices => exact replicate_append_filterMap_iff Index.extent_or indices

/-- The region built from an operand and its extents. -/
theorem toRegion_getExtent (σ : V → ℤ) (access : Access) (hwf : o.WellFormed) :
    ∃ r, toRegion o access (getExtent o) = .ok r ∧ r.buffer = o.data ∧
      regionOp σ r = some ((o.mins σ).zip (o.exposed σ)) := by
  cases o with
  | buffer b =>
    refine ⟨_, rfl, rfl, ?_⟩
    rw [regionOp, bufferToTileRegionWithExtent, getExtent, if_pos (by simp), mapM_eval fun _ => rfl]
    simp only [Option.map_some, List.map_map]
    rfl
  | region b ranges =>
    have hlast : lastItems (getExtent (.region b ranges)) b.shape.length =
        ranges.map fun r => .expr r.2 := by
      apply lastItems_of_length_le
      rw [getExtent, List.length_map]
      exact hwf.le
    refine ⟨⟨b, ranges.map Prod.fst, access, ranges.map fun r => .expr r.2⟩, ?_, rfl, ?_⟩
    · rw [toRegion, hlast, bufferRegionToTileRegion, ensure, if_pos (by simp)]
      rfl
    · rw [regionOp, if_pos (by simp), mapM_eval fun _ => rfl]
      simp only [Option.map_some, List.map_map]
      rfl
  | load b indices =>
    refine ⟨_, toRegion_load_ofSize hwf.1 (List.length_filterMap_le _ _), rfl, ?_⟩
    have hlen : ((Operand.load b indices).exposed σ).length = b.shape.length := length_exposed hwf
    rw [regionOp_ofSize, if_pos]
    · rw [List.map_map]
      rfl
    · rw [List.length_map]
      exact hwf.1.trans hlen.symm

theorem lanes_pos {b : Buffer V} {indices : List (Index V)}
    (hwf : (Operand.load b indices).WellFormed) :
    ∀ n ∈ (Operand.load b indices).extents σ, 0 < n := by
  intro n hn
  obtain ⟨i, hi, rfl⟩ := List.mem_map.mp hn
  have hunit := hwf.2 i hi
  cases i with
  | expr e => exact Int.one_pos
  | ramp base stride lanes => exact Int.natCast_pos.mpr hunit.2

/-- Extents that give the elements of the operand are its own. -/
theorem exposed_eq_of_same (hwf : o.WellFormed)
    (hsame : ∀ p, InRanges ((o.mins σ).zip (o.exposed σ)) p ↔ o.Addresses σ p) :
    o.exposed σ = o.extents σ := by
  cases o with
  | buffer b => rfl
  | region b ranges => rfl
  | load b indices =>
    have hmins : ((Operand.load b indices).mins σ).length = b.shape.length :=
      Operand.length_mins hwf
    apply eq_of_zip_inRanges (lanes_pos hwf) (hmins.trans (Operand.length_extents hwf).symm)
      (hmins.trans (length_exposed hwf).symm)
    exact fun p => (hsame p).trans (Operand.addresses_iff hwf)

/-- The region built from an operand denotes the operand exactly when no index of a load that is
an arithmetic expression comes after a ramp with several lanes. -/
theorem denotes_iff_recovered (hwf : o.WellFormed) : o.Denotes σ access ↔ o.Recovered := by
  obtain ⟨r, hr, hbuffer, hranges⟩ := toRegion_getExtent σ access hwf
  have hiff : o.exposed σ = o.extents σ ↔ o.Recovered := exposed_eq_iff
  rw [← hiff]
  constructor
  · rintro ⟨r', ranges, hr', -, hranges', -, hsame⟩
    obtain rfl := Except.ok.inj (hr.symm.trans hr')
    obtain rfl := Option.some.inj (hranges.symm.trans hranges')
    exact exposed_eq_of_same hwf hsame
  · intro heq
    rw [heq] at hranges
    refine ⟨r, _, hr, hbuffer, hranges, ?_, fun p => (Operand.addresses_iff hwf).symm⟩
    rw [List.length_zip, Operand.length_mins hwf, Operand.length_extents hwf, min_self]

/-- The region built from an operand and a size has that size exactly when the operand can have
it. -/
theorem toRegion_places_expr_iff (σ : V → ℤ) (access : Access) (size : List (PrimExpr V))
    (hwf : o.WellFormed) :
    (∃ r, toRegion o access (size.map .expr) = .ok r ∧
      o.Places σ (size.map (PrimExpr.eval σ)) r) ↔ o.Fits σ (size.map (PrimExpr.eval σ)) := by
  have hsize : (size.map (PrimExpr.eval σ)).length = size.length := List.length_map _
  have hexpr : (size.map Extent.expr).length = size.length := List.length_map _
  cases o with
  | buffer b =>
    have hregion : regionOp σ (bufferToTileRegionWithExtent b access (size.map .expr)) =
        if b.shape.length = size.length then
          some (((Operand.buffer b).mins σ).zip (size.map (PrimExpr.eval σ))) else none := by
      simp only [bufferToTileRegionWithExtent, regionOp_map, List.length_map, List.map_map]
      rfl
    constructor
    · rintro ⟨r, hr, -, l, -, hranges⟩
      obtain rfl := Except.ok.inj hr
      rw [hregion] at hranges
      split at hranges
      case isTrue h => exact hsize.trans h.symm
      case isFalse => cases hranges
    · intro hlen
      rw [Operand.Fits, hsize] at hlen
      refine ⟨_, rfl, rfl, 0, ?_, ?_⟩
      · rw [zero_add, hsize]
        exact hlen.symm
      · rw [hregion, if_pos hlen.symm]
        rfl
  | region b ranges =>
    have hregion : regionOp σ ⟨b, ranges.map Prod.fst, access, ranges.map fun r => .expr r.2⟩ =
        some (((Operand.region b ranges).mins σ).zip (ranges.map fun r => r.2.eval σ)) := by
      rw [regionOp, if_pos (by simp), mapM_eval fun _ => rfl]
      simp only [Option.map_some, List.map_map]
      rfl
    have hwf' : ranges.length = b.shape.length := hwf
    constructor
    · rintro ⟨r, hr, -, l, hlen, hranges⟩
      rw [toRegion, bufferRegionToTileRegion, ensure] at hr
      split at hr
      · obtain rfl := Except.ok.inj hr
        rw [hregion] at hranges
        refine ⟨l, ?_⟩
        have hsnd := congrArg (List.map Prod.snd) (Option.some.inj hranges)
        rwa [List.map_snd_zip, List.map_snd_zip] at hsnd
        · rw [Operand.length_mins hwf, List.length_append, List.length_replicate]
          exact hlen.ge
        · rw [Operand.length_mins hwf, List.length_map, hwf']
          exact le_rfl
      · cases hr
    · rintro ⟨l, hext⟩
      have hlen : ranges.length = l + size.length := by
        rw [← List.length_map (fun r => r.2.eval σ), hext, List.length_append,
          List.length_replicate, hsize]
      refine ⟨⟨b, ranges.map Prod.fst, access, ranges.map fun r => .expr r.2⟩, ?_, rfl, l, ?_, ?_⟩
      · rw [toRegion, lastItems_of_length_le (by omega), bufferRegionToTileRegion, ensure,
          if_pos (by omega)]
        rfl
      · rw [hsize]
        exact hwf'.symm.trans hlen
      · rw [← hext]
        exact hregion
  | load b indices =>
    obtain ⟨hlen, -⟩ := hwf
    constructor
    · rintro ⟨r, -, -, l, hrank, -⟩
      rw [Operand.data] at hrank
      rw [Operand.Fits]
      omega
    · intro hle
      rw [Operand.Fits, hsize] at hle
      refine ⟨_, toRegion_load hlen (hexpr ▸ hle), rfl, indices.length - size.length, ?_, ?_⟩
      · rw [Operand.data]
        omega
      · rw [ofSize_append_map, regionOp_map, if_pos (by simp; omega), List.map_map, List.map_append,
          List.map_replicate, hexpr]
        rfl

theorem toRegion_places_iff (σ : V → ℤ) (access : Access) (size : List ℤ) (hwf : o.WellFormed) :
    (∃ r, toRegion o access (ofSize size) = .ok r ∧ o.Places σ size r) ↔ o.Fits σ size := by
  have h := toRegion_places_expr_iff σ access (size.map .intImm) hwf
  simp only [List.map_map] at h
  have hid : size.map (PrimExpr.eval σ ∘ .intImm) = size := List.map_id' size
  rwa [hid] at h

end Building

end TileLangNpuir.Frontend
