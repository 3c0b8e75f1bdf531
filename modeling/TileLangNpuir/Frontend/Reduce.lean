import TileLangNpuir.Frontend.Tile

/-!
# Reductions

`npuir_reduce` of `tilelang/language/customize_npuir.py`, with the calls it composes: `abs` of the
source in place for the absolute modes, the reduction itself, and, where the destination is not
cleared, a reduction to a temporary of the shape of the whole destination buffer and an elementwise
combination. The size of the caller is set to one in place at the reduced dimensions.
-/

namespace TileLangNpuir.Frontend

open RowMajor

variable {V : Type}

/-! ## The front end -/

/-- The extents of an operand, or the size where one is given. -/
def sizedExtent (o : Operand V) : Option (List (PrimExpr V)) → List (Extent V)
  | none => getExtent o
  | some size => size.map .expr

/-- `valid_reduce_abs_mode`. -/
def ReduceMode.isAbs : ReduceMode → Bool
  | .abssum | .absmax => true
  | _ => false

/-- `reduce_abs_mode_map`. -/
def ReduceMode.ofAbs : ReduceMode → ReduceMode
  | .abssum => .sum
  | .absmax => .max
  | mode => mode

/-- `redeuce_op_for_clear_map`, behind the check for the modes that it has. -/
def ReduceMode.opForClear : ReduceMode → Except PyError Reduction
  | .sum => .ok .sum
  | .max => .ok .max
  | .min => .ok .min
  | _ => .error .assertionError

/-- `AscendUnaryOp("abs", src, dst).buildTirCall()`. -/
def buildAbs (src dst : Operand V) : Except PyError (TileStmt V) := do
  return .abs (← toRegion src .r (getExtent src)) (← toRegion dst .w (getExtent dst))

/-- `AscendBinaryOp(op, src0, src1, dst).buildTirCall()`. -/
def buildBinary (op : Reduction) (src0 src1 dst : Operand V) : Except PyError (TileStmt V) := do
  return .binary op (← toRegion src0 .r (getExtent src0)) (← toRegion src1 .r (getExtent src1))
    (← toRegion dst .w (getExtent dst))

/-- `_get_tmp_buffer_exp`. -/
def getTmpBufferExp (name : ℕ) : Operand V → Except PyError (Buffer V)
  | .buffer b | .load b _ => .ok ⟨name, b.shape⟩
  | .region _ _ => .error .typeError

/-- `_get_tmp_buffer_dev`. -/
def getTmpBufferDev (name : ℕ) : Operand V → Except PyError (Buffer V)
  | .buffer b | .load b _ | .region b _ => .ok ⟨name, b.shape⟩

/-- Expert mode is the default of `TILELANG_ASCEND_MODE`. -/
def getTmpBuffer (expert : Bool) (name : ℕ) (dst : Operand V) : Except PyError (Buffer V) :=
  if expert then getTmpBufferExp name dst else getTmpBufferDev name dst

/-- The call on absolute values. -/
def absCalls (src : Operand V) (mode : ReduceMode) : Except PyError (List (TileStmt V)) :=
  if mode.isAbs then do return [← buildAbs src src] else return []

/-- A reduction. -/
structure ReduceCall (V : Type) : Type where
  src : Operand V
  dst : Operand V
  dims : List ℤ
  mode : ReduceMode
  size : Option (List (PrimExpr V))
  clear : Bool

namespace ReduceCall

variable (call : ReduceCall V)

/-- The calls after the regions of the source and the destination. `name` is the name of a
buffer that is allocated. -/
def emit (expert : Bool) (name : ℕ) (srcRegion dstRegion : TileRegion V)
    (dstExtent : List (Extent V)) : Except PyError (List (TileStmt V)) :=
  if call.clear then
    .ok [.reduce srcRegion dstRegion call.dims call.mode.ofAbs]
  else do
    let tmp ← getTmpBuffer expert name call.dst
    let tmpExtent := getExtent (.buffer tmp)
    ensure (dstExtent.length = tmpExtent.length) .assertionError
    let op ← call.mode.ofAbs.opForClear
    let tmpRegion ← toRegion (.buffer tmp) .w tmpExtent
    let binary ← buildBinary op call.dst (.buffer tmp) call.dst
    return [.reduce srcRegion tmpRegion call.dims call.mode.ofAbs, binary]

/-- `npuir_reduce`: the tile calls, and the size of the caller after it. -/
def npuirReduce (expert : Bool) (name : ℕ) :
    Except PyError (List (TileStmt V) × Option (List (PrimExpr V))) := do
  let abs ← absCalls call.src call.mode
  let srcExtent := sizedExtent call.src call.size
  let size ← call.size.mapM fun s => call.dims.foldlM (fun s d => setItem s d (.intImm 1)) s
  let dstExtent := sizedExtent call.dst size
  ensure (srcExtent.length = dstExtent.length) .assertionError
  ensure (call.dims ≠ []) .assertionError
  let srcRegion ← toRegion call.src .r srcExtent
  let dstRegion ← toRegion call.dst .w dstExtent
  let calls ← call.emit expert name srcRegion dstRegion dstExtent
  return (abs ++ calls, size)

end ReduceCall

/-- `_legalize_dim`. -/
def legalizeDim (buffer : Buffer V) (dim : ℤ) : ℤ :=
  if dim < 0 then buffer.shape.length + dim else dim

/-- The calls of one mode along one dimension. -/
def reduceAlong (mode : ReduceMode) (buffer out : Buffer V) (dim : ℤ)
    (size : Option (List (PrimExpr V))) (clear : Bool) : ReduceCall V :=
  ⟨.buffer buffer, .buffer out, [legalizeDim buffer dim], mode, size, clear⟩

/-- `reduce_max`. -/
def reduceMax (buffer out : Buffer V) (dim : ℤ) (size : Option (List (PrimExpr V))) (clear : Bool) :
    ReduceCall V := reduceAlong .max buffer out dim size clear

/-- `reduce_min`. -/
def reduceMin (buffer out : Buffer V) (dim : ℤ) (size : Option (List (PrimExpr V))) (clear : Bool) :
    ReduceCall V := reduceAlong .min buffer out dim size clear

/-- `reduce_sum`. -/
def reduceSum (buffer out : Buffer V) (dim : ℤ) (size : Option (List (PrimExpr V))) (clear : Bool) :
    ReduceCall V := reduceAlong .sum buffer out dim size clear

/-- `reduce_abssum`. -/
def reduceAbssum (buffer out : Buffer V) (dim : ℤ) : ReduceCall V :=
  reduceAlong .abssum buffer out dim none true

/-- `reduce_absmax`. -/
def reduceAbsmax (buffer out : Buffer V) (dim : ℤ) (clear : Bool) : ReduceCall V :=
  reduceAlong .absmax buffer out dim none clear

/-! ## What is to be computed -/

namespace ReduceCall

section Spec

variable (σ : V → ℤ) (call : ReduceCall V)

/-- The dimensions that are reduced. -/
def flags : List Bool := axes call.src.data.shape.length call.dims

/-- The extents of the source. -/
def srcExtents : List ℤ :=
  match call.size with
  | none => call.src.extents σ
  | some size => size.map (PrimExpr.eval σ)

/-- The extents of the destination. -/
def dstExtents : List ℤ := collapse call.flags (call.srcExtents σ)

def srcPart : Part := ⟨call.src.data.name, (call.src.mins σ).zip (call.srcExtents σ)⟩

def dstPart : Part := ⟨call.dst.data.name, (call.dst.mins σ).zip (call.dstExtents σ)⟩

variable {R : Type} [Ring R] [LinearOrder R]

/-- The source values, absolute in the absolute modes. -/
def srcValue (mem : Memory R) (p : List ℤ) : R :=
  if call.mode.isAbs then |(call.srcPart σ).read mem p| else (call.srcPart σ).read mem p

/-- The value of a destination element. -/
def value (k : Reduction) (mem : Memory R) (q : List ℤ) : R :=
  let reduced := k.reduce ((fiber call.flags (call.srcExtents σ) q).map (call.srcValue σ mem))
  if call.clear then reduced else k.combine ((call.dstPart σ).read mem q) reduced

/-- The destination gets its values and nothing else changes; the buffer `name` is not one of the
user's. -/
def Effect (name : ℕ) (k : Reduction) (mem mem' : Memory R) : Prop :=
  (∀ q, InBox (call.dstExtents σ) q → (call.dstPart σ).read mem' q = call.value σ k mem q) ∧
    ∀ b p, b ≠ name → ¬(b = call.dst.data.name ∧ InRanges (call.dstPart σ).ranges p) →
      mem' b p = mem b p

/-- The calls that are emitted do what is documented from any memory, and the size of the caller
stays as it is. -/
def Computes (R : Type) [Ring R] [LinearOrder R] (expert : Bool) (name : ℕ) (k : Reduction) :
    Prop :=
  ∃ calls, call.npuirReduce expert name = .ok (calls, call.size) ∧
    ∀ mem : Memory R, ∃ mem', execAll σ calls mem = some mem' ∧ call.Effect σ name k mem mem'

/-- Operands of one rank with elements, dimensions of that rank, and a temporary that is new. The
extents of the destination are those of the source at the dimensions that stay. -/
structure WellFormed (name : ℕ) (k : Reduction) : Prop where
  src : call.src.WellFormed
  dst : call.dst.WellFormed
  rank : call.dst.data.shape.length = call.src.data.shape.length
  pos : ∀ n ∈ call.src.extents σ, 0 < n
  dims : call.dims ≠ []
  inRank : ∀ d ∈ call.dims, -call.src.data.shape.length ≤ d ∧ d < call.src.data.shape.length
  mode : call.mode.ofAbs.reduction = some k
  size : ∀ s, call.size = some s →
    s.length = call.src.data.shape.length ∧ ∀ e ∈ s, 0 < e.eval σ
  extents : call.size = none → call.dst.extents σ = collapse call.flags (call.src.extents σ)
  srcName : call.src.data.name ≠ name
  dstName : call.dst.data.name ≠ name

/-- The mode is not absolute, the size is one already where it is set to one, and the operands get
the regions that they are to have. Where the destination is not cleared, it is a whole buffer and
in expert mode not a region. -/
def Exact (expert : Bool) : Prop :=
  call.mode.isAbs = false ∧
    (call.clear = false → expert = true → call.dst.isRegion = false) ∧
    match call.size with
    | none => call.src.Recovered ∧ call.dst.Recovered ∧
        (getExtent call.src).length = (getExtent call.dst).length ∧
        (call.clear = false → (getExtent call.dst).length = call.dst.data.shape.length ∧
          call.dst.data.shape.map (PrimExpr.eval σ) = call.dst.extents σ)
    | some s => (∀ d ∈ call.dims, getItem s d = .ok (.intImm 1)) ∧
        call.src.Fits σ (s.map (PrimExpr.eval σ)) ∧
        (call.clear = true → call.dst.Fits σ (s.map (PrimExpr.eval σ))) ∧
        (call.clear = false → call.dst.exposed σ = s.map (PrimExpr.eval σ) ∧
          call.dst.data.shape.map (PrimExpr.eval σ) = s.map (PrimExpr.eval σ))

end Spec

/-! ## Lists of ones -/

section Ones

variable {α : Type} {xs ys : List α} {x : α} {d : ℤ} {dims : List ℤ}

theorem getItem_setItem (h : setItem xs d x = .ok ys) : getItem ys d = .ok x := by
  simp only [setItem, bind_eq_ok_iff] at h
  obtain ⟨k, hk, h⟩ := h
  obtain rfl := Except.ok.inj h
  have hlt : k < xs.length := lt_of_place hk
  simp only [getItem, List.length_set, hk, ok_bind, List.getElem?_set_self hlt]

/-- Assigning the same item elsewhere keeps it. -/
theorem getItem_setItem_same {e : ℤ} (hd : getItem xs d = .ok x) (h : setItem xs e x = .ok ys) :
    getItem ys d = .ok x := by
  simp only [setItem, bind_eq_ok_iff] at h
  obtain ⟨k, hk, h⟩ := h
  obtain rfl := Except.ok.inj h
  simp only [getItem, bind_eq_ok_iff] at hd ⊢
  obtain ⟨i, hi, hget⟩ := hd
  refine ⟨i, by rwa [List.length_set], ?_⟩
  by_cases hik : k = i
  · subst hik
    rw [List.getElem?_set_self (lt_of_place hk)]
  · rw [List.getElem?_set_ne hik]
    exact hget

theorem setItem_self (h : getItem xs d = .ok x) : setItem xs d x = .ok xs := by
  simp only [getItem, bind_eq_ok_iff] at h
  obtain ⟨k, hk, hget⟩ := h
  have hlt := lt_of_place hk
  rw [List.getElem?_eq_getElem hlt] at hget
  obtain rfl := Except.ok.inj hget
  simp only [setItem, hk, ok_bind, List.set_getElem_self hlt]
  rfl

theorem getItem_foldlM (h : dims.foldlM (fun s d => setItem s d x) xs = .ok ys) :
    (∀ d ∈ dims, getItem ys d = .ok x) ∧ ∀ d, getItem xs d = .ok x → getItem ys d = .ok x := by
  induction dims generalizing xs with
  | nil =>
    obtain rfl := Except.ok.inj h
    exact ⟨nofun, fun _ h => h⟩
  | cons d dims ih =>
    rw [List.foldlM_cons] at h
    obtain ⟨zs, hzs, h⟩ := bind_eq_ok_iff.mp h
    obtain ⟨hdims, hkeep⟩ := ih h
    rw [List.forall_mem_cons]
    exact ⟨⟨hkeep d (getItem_setItem hzs), hdims⟩,
      fun e he => hkeep e (getItem_setItem_same he hzs)⟩

/-- Assigning an item at some places leaves the list alone exactly when it is there already. -/
theorem foldlM_setItem_self_iff :
    dims.foldlM (fun s d => setItem s d x) xs = .ok xs ↔ ∀ d ∈ dims, getItem xs d = .ok x := by
  refine ⟨fun h => (getItem_foldlM h).1, fun h => ?_⟩
  induction dims with
  | nil => rfl
  | cons d dims ih =>
    rw [List.forall_mem_cons] at h
    rw [List.foldlM_cons, setItem_self h.1, ok_bind, ih h.2]

theorem place_of_axis {n i : ℕ} (hi : i < n) (h : (if d < 0 then d + n else d) = i) :
    place n d = .ok i := by
  rw [place]
  split at h
  · rw [if_neg (by omega), if_pos (by omega), h, Int.toNat_natCast]
  · rw [h, if_pos (by omega), Int.toNat_natCast]

theorem length_axes (rank : ℕ) (dims : List ℤ) : (axes rank dims).length = rank := by
  rw [axes, List.length_map, List.length_range]

/-- A size that is one at the reduced dimensions is left alone. -/
theorem collapse_axes {σ : V → ℤ} {size : List (PrimExpr V)}
    (h : ∀ d ∈ dims, getItem size d = .ok (.intImm 1)) :
    collapse (axes size.length dims) (size.map (PrimExpr.eval σ)) =
      size.map (PrimExpr.eval σ) := by
  have hlen : (axes size.length dims).length = (size.map (PrimExpr.eval σ)).length := by
    rw [length_axes, List.length_map]
  apply List.ext_getElem (length_collapse hlen)
  intro i hi hi'
  rw [List.length_map] at hi'
  simp only [collapse, List.getElem_zipWith, List.getElem_map, axes, List.getElem_range]
  split
  case isFalse => rfl
  case isTrue hflag =>
    obtain ⟨d, hd, haxis⟩ := List.any_eq_true.mp hflag
    have hone := h d hd
    rw [getItem, place_of_axis hi' (of_decide_eq_true haxis), ok_bind,
      List.getElem?_eq_getElem hi'] at hone
    rw [Except.ok.inj hone]
    rfl

end Ones

/-! ## The regions of the calls -/

section Regions

variable {o : Operand V}

/-- The extents that an operand gets. -/
def taken (σ : V → ℤ) (o : Operand V) : Option (List (PrimExpr V)) → List ℤ
  | none => o.exposed σ
  | some size => if o.isRegion then o.extents σ else size.map (PrimExpr.eval σ)

/-- The region built from an operand. -/
theorem toRegion_taken (σ : V → ℤ) (access : Access) (size : Option (List (PrimExpr V)))
    (hwf : o.WellFormed)
    (hsize : ∀ s, size = some s → s.length = o.data.shape.length) :
    ∃ r, toRegion o access (sizedExtent o size) = .ok r ∧ r.buffer = o.data ∧
      r.part σ = some ⟨o.data.name, (o.mins σ).zip (taken σ o size)⟩ := by
  cases size with
  | none =>
    obtain ⟨r, hr, hbuffer, hranges⟩ := toRegion_getExtent σ access hwf
    refine ⟨r, hr, hbuffer, ?_⟩
    rw [TileRegion.part, hranges, hbuffer]
    rfl
  | some s =>
    have hs := hsize s rfl
    by_cases hregion : o.isRegion = true
    · -- a region gets its own extents
      have hlen : (s.map Extent.expr).length = (getExtent o).length := by
        cases o with
        | region b ranges =>
          rw [List.length_map, getExtent, List.length_map]
          exact hs.trans hwf.symm
        | buffer b => cases hregion
        | load b indices => cases hregion
      obtain ⟨r, hr, hbuffer, hranges⟩ := toRegion_getExtent σ access hwf
      refine ⟨r, (toRegion_congr hregion hlen).trans hr, hbuffer, ?_⟩
      have hexposed : o.exposed σ = o.extents σ := by
        cases o with
        | region b ranges => rfl
        | buffer b => cases hregion
        | load b indices => cases hregion
      rw [TileRegion.part, hranges, hbuffer, taken, if_pos hregion, hexposed]
      rfl
    · have hfits : o.Fits σ (s.map (PrimExpr.eval σ)) := by
        cases o with
        | region b ranges => exact absurd rfl hregion
        | buffer b => exact (List.length_map _).trans hs
        | load b indices => exact ((List.length_map _).trans (hs.trans hwf.1.symm)).le
      obtain ⟨r, hr, hbuffer, l, hl, hranges⟩ :=
        (toRegion_places_expr_iff σ access s hwf).mpr hfits
      obtain rfl : l = 0 := by
        rw [List.length_map] at hl
        omega
      refine ⟨r, hr, hbuffer, ?_⟩
      rw [TileRegion.part, hranges, hbuffer, taken, if_neg hregion]
      rfl

end Regions

/-! ## The calls as a whole -/

section Calls

/-- The part that an operand gets. -/
def takenPart (σ : V → ℤ) (o : Operand V) (size : Option (List (PrimExpr V))) : Part :=
  ⟨o.data.name, (o.mins σ).zip (taken σ o size)⟩

variable (σ : V → ℤ) (call : ReduceCall V) {R : Type} [Ring R] [LinearOrder R]

/-- The temporary. -/
def tmp (name : ℕ) : Operand V := .buffer ⟨name, call.dst.data.shape⟩

/-- The call does not raise and leaves the size alone. -/
def Accepted (expert : Bool) : Prop :=
  (call.clear = false → expert = true → call.dst.isRegion = false) ∧
    match call.size with
    | none => (getExtent call.src).length = (getExtent call.dst).length ∧
        (call.clear = false → (getExtent call.dst).length = call.dst.data.shape.length)
    | some s => ∀ d ∈ call.dims, getItem s d = .ok (.intImm 1)

/-- What the call on absolute values does. -/
def absEffect (mem : Memory R) : Option (Memory R) :=
  if call.mode.isAbs then
    absStep (takenPart σ call.src none) (takenPart σ call.src none) mem
  else some mem

/-- What the calls after it do. -/
def reduceEffect (name : ℕ) (k : Reduction) (mem : Memory R) : Option (Memory R) :=
  if call.clear then
    reduceStep k call.flags (takenPart σ call.src call.size) (takenPart σ call.dst call.size) mem
  else do
    let mem ← reduceStep k call.flags (takenPart σ call.src call.size)
      (takenPart σ (call.tmp name) none) mem
    binaryStep k (takenPart σ call.dst none) (takenPart σ (call.tmp name) none)
      (takenPart σ call.dst none) mem

variable {σ call} {expert : Bool} {name : ℕ} {k : Reduction}

theorem getTmpBuffer_eq_ok_iff {dst : Operand V} {b : Buffer V} :
    getTmpBuffer expert name dst = .ok b ↔
      (expert = true → dst.isRegion = false) ∧ b = ⟨name, dst.data.shape⟩ := by
  cases expert with
  | false =>
    cases dst <;> exact ⟨fun h => ⟨fun htrue => Bool.noConfusion htrue, (Except.ok.inj h).symm⟩, fun h => congrArg _ h.2.symm⟩
  | true =>
    cases dst with
    | region b ranges => exact iff_of_false (fun h => by cases h) fun h => by cases h.1 rfl
    | buffer b =>
      exact ⟨fun h => ⟨fun _ => rfl, (Except.ok.inj h).symm⟩, fun h => congrArg _ h.2.symm⟩
    | load b indices =>
      exact ⟨fun h => ⟨fun _ => rfl, (Except.ok.inj h).symm⟩, fun h => congrArg _ h.2.symm⟩

theorem accepted_of_npuirReduce {calls : List (TileStmt V)}
    (h : call.npuirReduce expert name = .ok (calls, call.size)) : call.Accepted expert := by
  simp only [npuirReduce, bind_eq_ok_iff] at h
  obtain ⟨abs, -, size, hsize, _, hlen, _, -, srcRegion, -, dstRegion, -, calls', hemit, heq⟩ := h
  obtain ⟨-, rfl⟩ := Prod.mk.inj (Except.ok.inj heq)
  rw [ensure_eq_ok_iff] at hlen
  have htmp (hclear : call.clear = false) : (expert = true → call.dst.isRegion = false) ∧
      (sizedExtent call.dst call.size).length = call.dst.data.shape.length := by
    simp only [emit, hclear, Bool.false_eq_true, if_false, bind_eq_ok_iff] at hemit
    obtain ⟨tmp, htmp, _, hcount, -⟩ := hemit
    rw [ensure_eq_ok_iff] at hcount
    obtain ⟨hregion, rfl⟩ := getTmpBuffer_eq_ok_iff.mp htmp
    refine ⟨hregion, ?_⟩
    rw [hcount, getExtent, List.length_map]
  refine ⟨fun hclear => (htmp hclear).1, ?_⟩
  cases hs : call.size with
  | none =>
    rw [hs] at hlen htmp
    exact ⟨hlen, fun hclear => (htmp hclear).2⟩
  | some s =>
    simp only [hs, Option.mapM_some, map_eq_ok_iff] at hsize
    obtain ⟨s', hs', heq⟩ := hsize
    obtain rfl := Option.some.inj heq
    exact foldlM_setItem_self_iff.mp hs'

theorem execAll_append (xs ys : List (TileStmt V)) (mem : Memory R) :
    execAll σ (xs ++ ys) mem = (execAll σ xs mem).bind (execAll σ ys) := List.foldlM_append

theorem execAll_singleton (x : TileStmt V) (mem : Memory R) : execAll σ [x] mem = x.exec σ mem :=
  bind_pure _

theorem absCalls_spec (hwf : call.WellFormed σ name k) :
    ∃ calls, absCalls call.src call.mode = .ok calls ∧
      ∀ mem : Memory R, execAll σ calls mem = call.absEffect σ mem := by
  rw [absCalls]
  cases hmode : call.mode.isAbs with
  | false => exact ⟨[], rfl, fun mem => by rw [absEffect, hmode]; rfl⟩
  | true =>
    obtain ⟨r, hr, -, hrPart⟩ := toRegion_taken σ .r none hwf.src nofun
    obtain ⟨w, hw, -, hwPart⟩ := toRegion_taken σ .w none hwf.src nofun
    rw [sizedExtent] at hr hw
    refine ⟨[.abs r w], ?_, fun mem => ?_⟩
    · simp only [if_true, buildAbs, hr, hw, ok_bind]
      rfl
    · rw [execAll_singleton, absEffect, hmode, if_pos rfl, TileStmt.exec, hrPart, hwPart]
      rfl

/-- The reduction of the source to a destination. -/
theorem exec_reduce (hwf : call.WellFormed σ name k) {src dst : TileRegion V} {p q : Part}
    (hbuffer : src.buffer = call.src.data) (hsrc : src.part σ = some p) (hdst : dst.part σ = some q)
    (mem : Memory R) :
    (TileStmt.reduce src dst call.dims call.mode.ofAbs).exec σ mem =
      reduceStep k call.flags p q mem := by
  rw [TileStmt.exec, hwf.mode, hsrc, hdst, hbuffer]
  rfl

theorem emit_spec (hwf : call.WellFormed σ name k)
    (hregion : call.clear = false → expert = true → call.dst.isRegion = false)
    {src dst : TileRegion V} {extent : List (Extent V)}
    (hcount : call.clear = false → extent.length = call.dst.data.shape.length)
    (hbuffer : src.buffer = call.src.data)
    (hsrc : src.part σ = some (takenPart σ call.src call.size))
    (hdst : dst.part σ = some (takenPart σ call.dst call.size)) :
    ∃ calls, call.emit expert name src dst extent = .ok calls ∧
      ∀ mem : Memory R, execAll σ calls mem = call.reduceEffect σ name k mem := by
  cases hclear : call.clear with
  | true =>
    refine ⟨_, by rw [emit, hclear, if_pos rfl], fun mem => ?_⟩
    rw [execAll_singleton, exec_reduce hwf hbuffer hsrc hdst, reduceEffect, hclear, if_pos rfl]
  | false =>
    have htmp : getTmpBuffer expert name call.dst = .ok ⟨name, call.dst.data.shape⟩ :=
      getTmpBuffer_eq_ok_iff.mpr ⟨hregion hclear, rfl⟩
    have hlen : extent.length = (getExtent (call.tmp name)).length := by
      rw [hcount hclear, tmp, getExtent, List.length_map]
    have hop : call.mode.ofAbs.opForClear = .ok k := by
      have hmode := hwf.mode
      revert hmode
      cases call.mode.ofAbs <;> intro hmode <;> cases hmode <;> rfl
    have htmpWf : (call.tmp name).WellFormed := trivial
    obtain ⟨t, ht, -, htPart⟩ := toRegion_taken σ .w none htmpWf (by rintro _ ⟨⟩)
    obtain ⟨t', ht', -, htPart'⟩ := toRegion_taken σ .r none htmpWf (by rintro _ ⟨⟩)
    obtain ⟨d, hd, -, hdPart⟩ := toRegion_taken σ .r none hwf.dst (by rintro _ ⟨⟩)
    obtain ⟨d', hd', -, hdPart'⟩ := toRegion_taken σ .w none hwf.dst (by rintro _ ⟨⟩)
    rw [sizedExtent] at ht ht' hd hd'
    refine ⟨[.reduce src t call.dims call.mode.ofAbs, .binary k d t' d'], ?_, fun mem => ?_⟩
    · simp only [emit, hclear, Bool.false_eq_true, if_false, htmp, ok_bind]
      change (ensure (extent.length = (getExtent (call.tmp name)).length) .assertionError >>= _) = _
      rw [ensure_of hlen, ok_bind, hop, ok_bind]
      change (toRegion (call.tmp name) .w (getExtent (call.tmp name)) >>= fun r =>
        buildBinary k call.dst (call.tmp name) call.dst >>= _) = _
      simp only [ht, ok_bind, buildBinary, hd, ht', hd']
      rfl
    · change (TileStmt.exec σ mem _ >>= fun m => execAll σ [_] m) = _
      rw [exec_reduce hwf hbuffer hsrc htPart, reduceEffect, hclear]
      simp only [execAll_singleton, TileStmt.exec, hdPart, htPart', hdPart']
      rfl

/-- A call that is accepted emits calls with the effect of the steps on the parts. -/
theorem npuirReduce_of_accepted (hwf : call.WellFormed σ name k) (h : call.Accepted expert) :
    ∃ calls, call.npuirReduce expert name = .ok (calls, call.size) ∧
      ∀ mem : Memory R, execAll σ calls mem =
        (call.absEffect σ mem).bind (call.reduceEffect σ name k) := by
  obtain ⟨hregion, hsize⟩ := h
  have hrank : ∀ s, call.size = some s → s.length = call.src.data.shape.length :=
    fun s hs => (hwf.size s hs).1
  have hrank' : ∀ s, call.size = some s → s.length = call.dst.data.shape.length :=
    fun s hs => (hrank s hs).trans hwf.rank.symm
  obtain ⟨src, hsrc, hbuffer, hsrcPart⟩ := toRegion_taken σ .r call.size hwf.src hrank
  obtain ⟨dst, hdst, -, hdstPart⟩ := toRegion_taken σ .w call.size hwf.dst hrank'
  obtain ⟨abs, habs, habsEffect⟩ := absCalls_spec (R := R) hwf
  have hsame : (call.size.mapM fun s =>
      call.dims.foldlM (fun s d => setItem s d (.intImm 1)) s) = .ok call.size := by
    cases hs : call.size with
    | none => rfl
    | some s =>
      rw [hs] at hsize
      rw [Option.mapM_some, foldlM_setItem_self_iff.mpr hsize]
      rfl
  have hlen : (sizedExtent call.src call.size).length = (sizedExtent call.dst call.size).length := by
    cases hs : call.size with
    | none =>
      rw [hs] at hsize
      exact hsize.1
    | some s => rfl
  have hcount (hclear : call.clear = false) :
      (sizedExtent call.dst call.size).length = call.dst.data.shape.length := by
    cases hs : call.size with
    | none =>
      rw [hs] at hsize
      exact hsize.2 hclear
    | some s => exact (List.length_map _).trans (hrank' s hs)
  obtain ⟨calls, hcalls, hcallsEffect⟩ := emit_spec (R := R) hwf hregion hcount hbuffer hsrcPart
    hdstPart
  refine ⟨abs ++ calls, ?_, fun mem => ?_⟩
  · simp only [npuirReduce, habs, hsame, ok_bind, ensure_of hlen, ensure_of hwf.dims, hsrc, hdst,
      hcalls]
    rfl
  · rw [execAll_append, habsEffect]
    exact congrArg _ (funext hcallsEffect)

theorem computes_iff_accepted (hwf : call.WellFormed σ name k) :
    call.Computes σ R expert name k ↔ call.Accepted expert ∧ ∀ mem : Memory R, ∃ mem',
      (call.absEffect σ mem).bind (call.reduceEffect σ name k) = some mem' ∧
        call.Effect σ name k mem mem' := by
  constructor
  · rintro ⟨calls, hcalls, heffect⟩
    have haccepted := accepted_of_npuirReduce hcalls
    obtain ⟨calls', hcalls', hexec⟩ := npuirReduce_of_accepted (R := R) hwf haccepted
    obtain ⟨rfl, -⟩ := Prod.mk.inj (Except.ok.inj (hcalls.symm.trans hcalls'))
    refine ⟨haccepted, fun mem => ?_⟩
    rw [← hexec]
    exact heffect mem
  · rintro ⟨haccepted, heffect⟩
    obtain ⟨calls, hcalls, hexec⟩ := npuirReduce_of_accepted (R := R) hwf haccepted
    refine ⟨calls, hcalls, fun mem => ?_⟩
    rw [hexec]
    exact heffect mem

end Calls

/-! ## The steps on memory -/

section Memory

variable {σ : V → ℤ} {call : ReduceCall V} {R : Type} [Ring R] [LinearOrder R] {name : ℕ}
  {k : Reduction}

/-- The extents that the destination gets. -/
def written (σ : V → ℤ) (call : ReduceCall V) : List ℤ :=
  if call.clear then taken σ call.dst call.size else call.dst.exposed σ

/-- The part that is written. -/
def writtenPart (σ : V → ℤ) (call : ReduceCall V) : Part :=
  ⟨call.dst.data.name, (call.dst.mins σ).zip (call.written σ)⟩

/-- The value that is written. -/
def writtenValue (σ : V → ℤ) (call : ReduceCall V) (k : Reduction) (mem : Memory R)
    (q : List ℤ) : R :=
  let reduced := k.reduce ((fiber call.flags (taken σ call.src call.size) q).map
    ((takenPart σ call.src call.size).read mem))
  if call.clear then reduced else k.combine ((call.writtenPart σ).read mem q) reduced

/-- The extents fit, so that the steps are defined. -/
def Fitting (σ : V → ℤ) (call : ReduceCall V) : Prop :=
  call.written σ = collapse call.flags (taken σ call.src call.size) ∧
    (call.clear = false → call.dst.data.shape.map (PrimExpr.eval σ) = call.written σ)

theorem length_taken {o : Operand V} {size : Option (List (PrimExpr V))} (hwf : o.WellFormed)
    (hsize : ∀ s, size = some s → s.length = o.data.shape.length) :
    (taken σ o size).length = o.data.shape.length := by
  cases size with
  | none => exact length_exposed hwf
  | some s =>
    rw [taken]
    split
    · exact Operand.length_extents hwf
    · exact (List.length_map _).trans (hsize s rfl)

theorem extents_takenPart {o : Operand V} {size : Option (List (PrimExpr V))} (hwf : o.WellFormed)
    (hsize : ∀ s, size = some s → s.length = o.data.shape.length) :
    (takenPart σ o size).extents = taken σ o size := by
  rw [Part.extents, takenPart, extents, List.map_snd_zip]
  rw [length_taken hwf hsize, Operand.length_mins hwf]

theorem size_src (hwf : call.WellFormed σ name k) :
    ∀ s, call.size = some s → s.length = call.src.data.shape.length :=
  fun s hs => (hwf.size s hs).1

theorem size_dst (hwf : call.WellFormed σ name k) :
    ∀ s, call.size = some s → s.length = call.dst.data.shape.length :=
  fun s hs => (size_src hwf s hs).trans hwf.rank.symm

theorem length_srcExtents (hwf : call.WellFormed σ name k) :
    (call.srcExtents σ).length = call.src.data.shape.length := by
  rw [srcExtents]
  cases hs : call.size with
  | none => exact Operand.length_extents hwf.src
  | some s => exact (List.length_map _).trans (size_src hwf s hs)

theorem length_dstExtents (hwf : call.WellFormed σ name k) :
    (call.dstExtents σ).length = call.dst.data.shape.length := by
  have hlen := length_srcExtents hwf
  rw [dstExtents, length_collapse, hlen, hwf.rank]
  rw [flags, length_axes, hlen]

theorem extents_dstPart (hwf : call.WellFormed σ name k) :
    (call.dstPart σ).extents = call.dstExtents σ := by
  rw [Part.extents, dstPart, extents, List.map_snd_zip]
  rw [Operand.length_mins hwf.dst, length_dstExtents hwf]

theorem length_written (hwf : call.WellFormed σ name k) :
    (call.written σ).length = call.dst.data.shape.length := by
  rw [written]
  split
  · exact length_taken hwf.dst (size_dst hwf)
  · exact length_exposed hwf.dst

theorem extents_ownPart {o : Operand V} (hwf : o.WellFormed) :
    (takenPart σ o none).extents = o.exposed σ := extents_takenPart hwf nofun

theorem extents_tmpPart :
    (takenPart σ (call.tmp name) none).extents = call.dst.data.shape.map (PrimExpr.eval σ) :=
  extents_ownPart (o := call.tmp name) trivial

theorem fitting_of_reduceEffect (hwf : call.WellFormed σ name k) {mem mem' : Memory R}
    (h : call.reduceEffect σ name k mem = some mem') : call.Fitting σ := by
  rw [reduceEffect] at h
  rw [Fitting, written]
  cases hclear : call.clear with
  | true =>
    rw [hclear, if_pos rfl, reduceStep, extents_takenPart hwf.src (size_src hwf),
      extents_takenPart hwf.dst (size_dst hwf)] at h
    split at h
    case isTrue hfit => exact ⟨hfit, nofun⟩
    case isFalse => cases h
  | false =>
    rw [hclear, if_neg (by decide)] at h
    obtain ⟨mem₁, hreduce, hbinary⟩ := Option.bind_eq_some_iff.mp h
    rw [reduceStep, extents_takenPart hwf.src (size_src hwf), extents_tmpPart] at hreduce
    rw [binaryStep, extents_ownPart hwf.dst, extents_tmpPart] at hbinary
    split at hreduce
    case isFalse => cases hreduce
    case isTrue hfit =>
      split at hbinary
      case isFalse => cases hbinary
      case isTrue hsame => exact ⟨hsame.2.symm.trans hfit, fun _ => hsame.2⟩

theorem reduceEffect_of_fitting (hwf : call.WellFormed σ name k) (h : call.Fitting σ)
    (mem : Memory R) :
    ∃ mem', call.reduceEffect σ name k mem = some mem' ∧
      ∀ b, b ≠ name → mem' b = (call.writtenPart σ).write mem (call.writtenValue σ k mem) b := by
  obtain ⟨hfit, hshape⟩ := h
  rw [reduceEffect]
  cases hclear : call.clear with
  | true =>
    rw [written, hclear, if_pos rfl] at hfit
    rw [if_pos rfl, reduceStep, extents_takenPart hwf.src (size_src hwf),
      extents_takenPart hwf.dst (size_dst hwf), if_pos hfit]
    refine ⟨_, rfl, fun b _ => ?_⟩
    have hvalue : call.writtenValue σ k mem = fun q =>
        k.reduce ((fiber call.flags (taken σ call.src call.size) q).map
          ((takenPart σ call.src call.size).read mem)) := by
      funext q
      rw [writtenValue, hclear]
      rfl
    rw [hvalue, writtenPart, written, hclear]
    rfl
  | false =>
    have hexposed : call.written σ = call.dst.exposed σ := by
      rw [written, hclear, if_neg (by decide)]
    have hshape := hshape hclear
    rw [if_neg (by decide), reduceStep, extents_takenPart hwf.src (size_src hwf), extents_tmpPart,
      if_pos (hshape.trans hfit), Option.bind_eq_bind, Option.bind_some, binaryStep,
      extents_ownPart hwf.dst, extents_tmpPart, if_pos ⟨rfl, hshape.trans hexposed⟩]
    refine ⟨_, rfl, fun b hb => funext fun p => ?_⟩
    have hpart : takenPart σ call.dst none = call.writtenPart σ := by
      rw [writtenPart, hexposed]
      rfl
    rw [hpart]
    by_cases hin : b = (call.writtenPart σ).buffer ∧ InRanges (call.writtenPart σ).ranges p
    · -- the temporary holds the reduced value
      have hextents : (call.writtenPart σ).extents =
          (takenPart σ (call.tmp name) none).extents := by
        rw [← hpart, extents_ownPart hwf.dst, extents_tmpPart, hshape, hexposed]
      have hbox : InBox (takenPart σ (call.tmp name) none).extents
          (toLocal (call.writtenPart σ).ranges p) := hextents ▸ inBox_toLocal hin.2
      have hold : (call.writtenPart σ).read ((takenPart σ (call.tmp name) none).write mem fun q =>
          k.reduce ((fiber call.flags (taken σ call.src call.size) q).map
            ((takenPart σ call.src call.size).read mem))) = (call.writtenPart σ).read mem :=
        Part.read_congr (Part.write_of_ne hwf.dstName)
      rw [Part.write, if_pos hin, Part.write, if_pos hin, Part.read_write hbox, hold, writtenValue,
        hclear]
      rfl
    · rw [Part.write_of_not_inRanges hin, Part.write_of_not_inRanges hin, Part.write_of_ne hb]

/-- The operands get the extents they are to have. -/
def Right (σ : V → ℤ) (call : ReduceCall V) : Prop :=
  taken σ call.src call.size = call.srcExtents σ ∧ call.written σ = call.dstExtents σ ∧
    (call.clear = false → call.dst.data.shape.map (PrimExpr.eval σ) = call.dstExtents σ)

/-- With the right extents the steps do what is to be done. -/
theorem effect_of_right (hwf : call.WellFormed σ name k) (habs : call.mode.isAbs = false)
    (h : call.Right σ) (mem : Memory R) :
    ∃ mem', call.reduceEffect σ name k mem = some mem' ∧ call.Effect σ name k mem mem' := by
  obtain ⟨hsrc, hdst, hshape⟩ := h
  have hfit : call.Fitting σ := by
    refine ⟨?_, fun hclear => (hshape hclear).trans hdst.symm⟩
    rw [hdst, hsrc]
    rfl
  obtain ⟨mem', hmem', heq⟩ := reduceEffect_of_fitting hwf hfit mem
  have hpart : call.writtenPart σ = call.dstPart σ := by
    rw [writtenPart, hdst]
    rfl
  have hsrcPart : takenPart σ call.src call.size = call.srcPart σ := by
    rw [takenPart, hsrc]
    rfl
  have hvalue : call.writtenValue σ k mem = call.value σ k mem := by
    funext q
    have hread : call.srcValue σ mem = (call.srcPart σ).read mem := by
      funext p
      rw [srcValue, habs]
      rfl
    rw [writtenValue, value, hread, hpart, hsrcPart, hsrc]
  rw [hpart, hvalue] at heq
  refine ⟨mem', hmem', fun q hq => ?_, fun b p hb hout => ?_⟩
  · rw [← extents_dstPart hwf] at hq
    rw [Part.read_congr (heq _ hwf.dstName), Part.read_write hq]
  · rw [heq b hb, Part.write_of_not_inRanges hout]

end Memory

/-! ## What the memory tells -/

section Tells

variable {σ : V → ℤ} {call : ReduceCall V} {R : Type} [Ring R] [LinearOrder R]
  [IsStrictOrderedRing R] {name : ℕ} {k : Reduction}

theorem srcExtents_pos (hwf : call.WellFormed σ name k) : ∀ n ∈ call.srcExtents σ, 0 < n := by
  rw [srcExtents]
  cases hs : call.size with
  | none => exact hwf.pos
  | some s =>
    intro n hn
    obtain ⟨e, he, rfl⟩ := List.mem_map.mp hn
    exact (hwf.size s hs).2 e he

theorem exposed_pos {o : Operand V} (hwf : o.WellFormed) (hpos : ∀ n ∈ o.extents σ, 0 < n) :
    ∀ n ∈ o.exposed σ, 0 < n := by
  cases o with
  | buffer b => exact hpos
  | region b ranges => exact hpos
  | load b indices =>
    intro n hn
    rcases List.mem_append.mp hn with hn | hn
    · rw [List.eq_of_mem_replicate hn]
      exact Int.one_pos
    · obtain ⟨i, hi, hin⟩ := List.mem_filterMap.mp hn
      rcases i.extent_or with hsome | ⟨hnone, -⟩
      · obtain rfl := Option.some.inj (hsome.symm.trans hin)
        exact hpos _ (List.mem_map_of_mem hi)
      · cases hnone.symm.trans hin

theorem taken_src_pos (hwf : call.WellFormed σ name k) :
    ∀ n ∈ taken σ call.src call.size, 0 < n := by
  cases hs : call.size with
  | none => exact exposed_pos hwf.src hwf.pos
  | some s =>
    rw [taken]
    split
    · exact hwf.pos
    · intro n hn
      obtain ⟨e, he, rfl⟩ := List.mem_map.mp hn
      exact (hwf.size s hs).2 e he

/-- Zeros in the destination show what goes into a value. -/
theorem value_ne_zero (hwf : call.WellFormed σ name k) (habs : call.mode.isAbs = false)
    {mem : Memory R} {q : List ℤ} (hold : (call.dstPart σ).read mem q = 0)
    (hsign : ∀ p, 0 ≤ k.sign * mem call.src.data.name p) :
    call.value σ k mem q ≠ 0 ↔
      ∃ p ∈ fiber call.flags (call.srcExtents σ) q, (call.srcPart σ).read mem p ≠ 0 := by
  have hread : call.srcValue σ mem = (call.srcPart σ).read mem := by
    funext p
    rw [srcValue, habs]
    rfl
  obtain ⟨p, hp⟩ : ∃ p, p ∈ fiber call.flags (call.srcExtents σ) q :=
    exists_mem_fiber (srcExtents_pos hwf)
  rw [value, hread, hold, k.finish_ne_zero call.clear]
  · simp only [List.mem_map, exists_exists_and_eq_and]
  · simp only [List.forall_mem_map]
    exact fun p _ => hsign _
  · exact List.ne_nil_of_mem (List.mem_map_of_mem hp)

theorem writtenValue_ne_zero (hwf : call.WellFormed σ name k) {mem : Memory R} {q : List ℤ}
    (hold : (call.writtenPart σ).read mem q = 0)
    (hsign : ∀ p, 0 ≤ k.sign * mem call.src.data.name p) :
    call.writtenValue σ k mem q ≠ 0 ↔ ∃ p ∈ fiber call.flags (taken σ call.src call.size) q,
      (takenPart σ call.src call.size).read mem p ≠ 0 := by
  obtain ⟨p, hp⟩ : ∃ p, p ∈ fiber call.flags (taken σ call.src call.size) q :=
    exists_mem_fiber (taken_src_pos hwf)
  rw [writtenValue, hold, k.finish_ne_zero call.clear]
  · simp only [List.mem_map, exists_exists_and_eq_and]
  · simp only [List.forall_mem_map]
    exact fun p _ => hsign _
  · exact List.ne_nil_of_mem (List.mem_map_of_mem hp)

/-- Memory that is zero but for some elements of the source. -/
def marked (call : ReduceCall V) (k : Reduction) (P : List ℤ → Prop) [DecidablePred P] :
    Memory R := fun b p => if b = call.src.data.name ∧ P p then k.sign else 0

section Marked

variable {P : List ℤ → Prop} [DecidablePred P]

theorem marked_sign (p : List ℤ) :
    0 ≤ (k.sign : R) * marked call k P call.src.data.name p := by
  rw [marked]
  split
  · exact k.sign_mul_sign.le
  · rw [mul_zero]

theorem marked_ne_zero {p : List ℤ} :
    (marked call k P call.src.data.name p : R) ≠ 0 ↔ P p := by
  have hsign : (k.sign : R) ≠ 0 := by
    intro h
    have := k.sign_mul_sign (R := R)
    rw [h, mul_zero] at this
    exact lt_irrefl _ this
  rw [marked]
  split
  case isTrue h => exact iff_of_true hsign h.2
  case isFalse h => exact iff_of_false (fun h0 => h0 rfl) fun hP => h ⟨rfl, hP⟩

omit [LinearOrder R] [IsStrictOrderedRing R] in
theorem marked_dst (hne : call.src.data.name ≠ call.dst.data.name) (p : List ℤ) :
    (marked call k P call.dst.data.name p : R) = 0 := if_neg fun h => hne h.1.symm

omit [LinearOrder R] [IsStrictOrderedRing R] in
theorem marked_read (hne : call.src.data.name ≠ call.dst.data.name) {part : Part}
    (hpart : part.buffer = call.dst.data.name) (q : List ℤ) :
    part.read (marked call k P : Memory R) q = 0 := by
  rw [Part.read, hpart, marked_dst hne]

end Marked

/-- The part that is written is the destination. -/
theorem written_eq (hwf : call.WellFormed σ name k) (habs : call.mode.isAbs = false)
    (hne : call.src.data.name ≠ call.dst.data.name) {mem' : Memory R}
    (heq : ∀ b, b ≠ name → mem' b = (call.writtenPart σ).write (marked call k fun _ => True)
      (call.writtenValue σ k (marked call k fun _ => True)) b)
    (heffect : call.Effect σ name k (marked call k fun _ => True) mem') :
    call.written σ = call.dstExtents σ := by
  have hmins : (call.dst.mins σ).length = call.dst.data.shape.length :=
    Operand.length_mins hwf.dst
  apply eq_of_zip_inRanges (collapse_pos (srcExtents_pos hwf))
    (hmins.trans (length_dstExtents hwf).symm) (hmins.trans (length_written hwf).symm)
  intro p
  -- both are where the memory is not zero any more
  trans mem' call.dst.data.name p ≠ 0
  · rw [heq _ hwf.dstName]
    by_cases hin : InRanges (call.writtenPart σ).ranges p
    · refine iff_of_true hin ?_
      rw [Part.write, if_pos ⟨rfl, hin⟩, writtenValue_ne_zero hwf (marked_read hne rfl _) marked_sign]
      obtain ⟨p', hp'⟩ := exists_mem_fiber (taken_src_pos hwf)
      exact ⟨p', hp', marked_ne_zero.mpr trivial⟩
    · refine iff_of_false hin ?_
      rw [Part.write_of_not_inRanges fun h => hin h.2, marked_dst hne]
      exact fun h => h rfl
  · by_cases hin : InRanges (call.dstPart σ).ranges p
    · refine iff_of_true ?_ hin
      have hbox : InBox (call.dstPart σ).extents (toLocal (call.dstPart σ).ranges p) :=
        inBox_toLocal hin
      rw [extents_dstPart hwf] at hbox
      have hvalue := heffect.1 _ hbox
      rw [Part.read, toGlobal_toLocal hin] at hvalue
      change mem' (call.dstPart σ).buffer p ≠ 0
      rw [hvalue, value_ne_zero hwf habs (marked_read hne rfl _) marked_sign]
      obtain ⟨p', hp'⟩ := exists_mem_fiber (srcExtents_pos hwf)
      exact ⟨p', hp', marked_ne_zero.mpr trivial⟩
    · refine iff_of_false ?_ hin
      rw [heffect.2 _ p hwf.dstName fun h => hin h.2, marked_dst hne]
      exact fun h => h rfl

/-- The part that is read is the source. -/
theorem taken_eq (hwf : call.WellFormed σ name k) (habs : call.mode.isAbs = false)
    (hne : call.src.data.name ≠ call.dst.data.name) (hfit : call.Fitting σ)
    (hwritten : call.written σ = call.dstExtents σ)
    (h : ∀ P : List ℤ, ∃ mem' : Memory R,
      (∀ b, b ≠ name → mem' b = (call.writtenPart σ).write (marked call k fun p => p = P)
        (call.writtenValue σ k (marked call k fun p => p = P)) b) ∧
      call.Effect σ name k (marked call k fun p => p = P) mem') :
    taken σ call.src call.size = call.srcExtents σ := by
  set q : List ℤ := List.replicate call.src.data.shape.length 0 with hq
  have hqlen : q.length = call.src.data.shape.length := List.length_replicate
  have hflags : call.flags.length = q.length := (length_axes _ _).trans hqlen.symm
  have hsrc : (call.srcExtents σ).length = q.length := (length_srcExtents hwf).trans hqlen.symm
  have htaken : (taken σ call.src call.size).length = q.length :=
    (length_taken hwf.src (size_src hwf)).trans hqlen.symm
  have hmins : (call.src.mins σ).length = q.length :=
    (Operand.length_mins hwf.src).trans hqlen.symm
  have hbox : InBox (call.dstExtents σ) q := by
    rw [hq, ← hwf.rank, ← length_dstExtents hwf]
    exact inBox_zeros (collapse_pos (srcExtents_pos hwf))
  -- an element goes into the value that is written when it goes into the one that is to be
  have hsame (P : List ℤ) :
      (∃ p ∈ fiber call.flags (taken σ call.src call.size) q,
        (takenPart σ call.src call.size).read (marked call k fun p => p = P : Memory R) p ≠ 0) ↔
      ∃ p ∈ fiber call.flags (call.srcExtents σ) q,
        (call.srcPart σ).read (marked call k fun p => p = P : Memory R) p ≠ 0 := by
    obtain ⟨mem', heq, heffect⟩ := h P
    have hpart : call.writtenPart σ = call.dstPart σ := by
      rw [writtenPart, hwritten]
      rfl
    rw [← writtenValue_ne_zero hwf (marked_read hne rfl _) marked_sign,
      ← value_ne_zero hwf habs (marked_read hne rfl _) marked_sign]
    have hvalue := heffect.1 q hbox
    rw [Part.read_congr (heq _ hwf.dstName), hpart, Part.read_write (extents_dstPart hwf ▸ hbox)]
      at hvalue
    rw [hvalue]
  have hmem (es : List ℤ) (hlen : es.length = q.length) (P : List ℤ) :
      (∃ p ∈ fiber call.flags es q, (⟨call.src.data.name, (call.src.mins σ).zip es⟩ : Part).read
        (marked call k fun p => p = P : Memory R) p ≠ 0) ↔
      ∃ p ∈ fiber call.flags es q, List.zipWith (fun l x => l + x) (call.src.mins σ) p = P := by
    simp only [Part.read, marked_ne_zero, toGlobal_zip (hmins.trans hlen.symm)]
  have hinj {es es' : List ℤ} (hlen : es.length = q.length) (hlen' : es'.length = q.length)
      {p : List ℤ} (hp : p ∈ fiber call.flags es q)
      (h : ∃ p' ∈ fiber call.flags es' q, List.zipWith (fun l x => l + x) (call.src.mins σ) p' =
        List.zipWith (fun l x => l + x) (call.src.mins σ) p) : p ∈ fiber call.flags es' q := by
    obtain ⟨p', hp', heq⟩ := h
    have hplen := length_of_mem_fiber hflags hlen hp
    have hplen' := length_of_mem_fiber hflags hlen' hp'
    rwa [← zipWith_add_inj (hplen'.trans hmins.symm) (hplen.trans hmins.symm) heq]
  have hiff (P : List ℤ) :=
    (hmem _ htaken P).symm.trans ((hsame P).trans (hmem _ hsrc P))
  apply eq_of_fiber hflags htaken hsrc (taken_src_pos hwf) (srcExtents_pos hwf)
  · intro p
    exact ⟨fun hp => hinj htaken hsrc hp ((hiff _).mp ⟨p, hp, rfl⟩),
      fun hp => hinj hsrc htaken hp ((hiff _).mpr ⟨p, hp, rfl⟩)⟩
  · exact hfit.1.symm.trans hwritten

/-- The extents are right if the memory always is. -/
theorem right_of_effect (hwf : call.WellFormed σ name k) (habs : call.mode.isAbs = false)
    (hne : call.src.data.name ≠ call.dst.data.name)
    (h : ∀ mem : Memory R, ∃ mem', call.reduceEffect σ name k mem = some mem' ∧
      call.Effect σ name k mem mem') : call.Right σ := by
  obtain ⟨_, hzero, -⟩ := h fun _ _ => 0
  have hfit := fitting_of_reduceEffect hwf hzero
  have hboth (mem : Memory R) : ∃ mem',
      (∀ b, b ≠ name → mem' b = (call.writtenPart σ).write mem (call.writtenValue σ k mem) b) ∧
      call.Effect σ name k mem mem' := by
    obtain ⟨mem', hmem', heq⟩ := reduceEffect_of_fitting hwf hfit mem
    obtain ⟨mem'', hmem'', heffect⟩ := h mem
    obtain rfl := Option.some.inj (hmem'.symm.trans hmem'')
    exact ⟨mem', heq, heffect⟩
  obtain ⟨mem', heq, heffect⟩ := hboth (marked call k fun _ => True)
  have hwritten := written_eq hwf habs hne heq heffect
  exact ⟨taken_eq hwf habs hne hfit hwritten fun P => hboth _, hwritten,
    fun hclear => (hfit.2 hclear).trans hwritten⟩

/-- An absolute mode changes the source. -/
theorem isAbs_of_effect (hwf : call.WellFormed σ name k)
    (hne : call.src.data.name ≠ call.dst.data.name)
    (h : ∀ mem : Memory R, ∃ mem',
      (call.absEffect σ mem).bind (call.reduceEffect σ name k) = some mem' ∧
        call.Effect σ name k mem mem') : call.mode.isAbs = false := by
  by_contra habs
  rw [Bool.not_eq_false] at habs
  obtain ⟨mem', hmem', -, hframe⟩ := h fun _ _ => -1
  rw [absEffect, habs, if_pos rfl, absStep, if_pos rfl, Option.bind_some] at hmem'
  have hfit := fitting_of_reduceEffect hwf hmem'
  obtain ⟨mem'', hmem'', heq⟩ := reduceEffect_of_fitting hwf hfit
    ((takenPart σ call.src none).write (fun _ _ => -1 : Memory R)
      fun q => |(takenPart σ call.src none).read (fun _ _ => -1) q|)
  obtain rfl := Option.some.inj (hmem'.symm.trans hmem'')
  -- the first element of the source
  have hlow : InRanges (takenPart σ call.src none).ranges
      ((takenPart σ call.src none).ranges.map Prod.fst) := by
    apply inRanges_lows
    intro r hr
    apply exposed_pos hwf.src hwf.pos
    rw [← extents_ownPart hwf.src]
    exact List.mem_map_of_mem hr
  have hold := hframe _ ((takenPart σ call.src none).ranges.map Prod.fst) hwf.srcName
    fun hdst => hne hdst.1
  rw [heq _ hwf.srcName, Part.write_of_ne hne, Part.write, if_pos ⟨rfl, hlow⟩, Part.read] at hold
  have hnonneg : (0 : R) ≤ -1 := (abs_nonneg (-1 : R)).trans_eq hold
  exact absurd hnonneg (by simp)

end Tells

/-! ## The condition -/

section Condition

variable {σ : V → ℤ} {call : ReduceCall V} {name : ℕ} {k : Reduction} {expert : Bool}

theorem taken_some_iff {o : Operand V} {s : List (PrimExpr V)} (hwf : o.WellFormed)
    (hs : s.length = o.data.shape.length) :
    taken σ o (some s) = s.map (PrimExpr.eval σ) ↔ o.Fits σ (s.map (PrimExpr.eval σ)) := by
  have hlen : (s.map (PrimExpr.eval σ)).length = o.data.shape.length :=
    (List.length_map _).trans hs
  cases o with
  | buffer b => exact iff_of_true rfl hlen
  | load b indices => exact iff_of_true rfl (hlen.trans hwf.1.symm).le
  | region b ranges =>
    have hext : ((Operand.region b ranges).extents σ).length = b.shape.length :=
      Operand.length_extents hwf
    constructor
    · exact fun h => ⟨0, h⟩
    · rintro ⟨l, h⟩
      obtain rfl : l = 0 := by
        have := congrArg List.length h
        rw [List.length_append, List.length_replicate, hlen] at this
        rw [Operand.extents] at hext
        rw [Operand.data] at this
        omega
      exact h

/-- The condition on the call says that it is accepted and has the right extents. -/
theorem exact_iff (hwf : call.WellFormed σ name k) :
    call.Exact σ expert ↔ call.mode.isAbs = false ∧ call.Accepted expert ∧ call.Right σ := by
  rw [Exact, Accepted, Right, and_assoc]
  refine and_congr_right fun _ => and_congr_right fun _ => ?_
  rw [written, dstExtents, srcExtents]
  cases hs : call.size with
  | none =>
    have hdst := hwf.extents hs
    simp only [taken, ite_self, ← hdst, exposed_eq_iff]
    tauto
  | some s =>
    have hlen := size_src hwf s hs
    have hlen' := size_dst hwf s hs
    refine and_congr_right fun hones => ?_
    have hcollapse : collapse call.flags (s.map (PrimExpr.eval σ)) = s.map (PrimExpr.eval σ) := by
      rw [flags, ← hlen]
      exact collapse_axes hones
    simp only [hcollapse, taken_some_iff hwf.src hlen]
    refine and_congr_right fun _ => ?_
    cases call.clear with
    | true => simp [taken_some_iff hwf.dst hlen']
    | false => simp

/-- The calls that a reduction emits do what is documented if the mode is not absolute, the size
of the caller is one where it is set, and the operands get the regions they are to have; and only
then, where the source and the destination are different buffers. -/
theorem computes_iff {R : Type} [Ring R] [LinearOrder R] [IsStrictOrderedRing R]
    (hwf : call.WellFormed σ name k) :
    (call.Exact σ expert → call.Computes σ R expert name k) ∧
      (call.src.data.name ≠ call.dst.data.name →
        (call.Computes σ R expert name k ↔ call.Exact σ expert)) := by
  have hto (h : call.Exact σ expert) : call.Computes σ R expert name k := by
    obtain ⟨habs, haccepted, hright⟩ := (exact_iff hwf).mp h
    refine (computes_iff_accepted hwf).mpr ⟨haccepted, fun mem => ?_⟩
    rw [absEffect, habs]
    exact effect_of_right hwf habs hright mem
  refine ⟨hto, fun hne => ⟨fun h => ?_, hto⟩⟩
  obtain ⟨haccepted, heffect⟩ := (computes_iff_accepted hwf).mp h
  have habs := isAbs_of_effect hwf hne heffect
  refine (exact_iff hwf).mpr ⟨habs, haccepted, ?_⟩
  apply right_of_effect (R := R) hwf habs hne
  intro mem
  have hmem := heffect mem
  rw [absEffect, habs] at hmem
  exact hmem

end Condition

/-- Sums of rows, added to what is there. -/
theorem computes_rows :
    (reduceSum ⟨0, [.intImm 4, .intImm 8]⟩ ⟨1, [.intImm 4, .intImm 1]⟩ (-1) none false).Computes
      (fun _ : Unit => 0) ℤ true 2 .sum := by
  have hwf : (reduceSum ⟨0, [.intImm 4, .intImm 8]⟩ ⟨1, [.intImm 4, .intImm 1]⟩ (-1) none
      false).WellFormed (fun _ : Unit => 0) 2 .sum := by
    refine ⟨trivial, trivial, rfl, ?_, ?_, ?_, rfl, nofun, fun _ => rfl, ?_, ?_⟩ <;> decide
  apply ((computes_iff hwf).2 (by decide)).mpr
  exact ⟨rfl, fun _ _ => rfl, trivial, trivial, rfl, fun _ => ⟨rfl, rfl⟩⟩

/-- The absolute modes change the source, and a size is changed at the reduced dimension. -/
theorem computes_absolute :
    ¬(reduceAbssum ⟨0, [.intImm 4, .intImm 8]⟩ ⟨1, [.intImm 4, .intImm 1]⟩ (-1)).Computes
      (fun _ : Unit => 0) ℤ true 2 .sum ∧
    ¬(reduceSum ⟨0, [.intImm 4, .intImm 8]⟩ ⟨1, [.intImm 4, .intImm 1]⟩ (-1)
      (some [.intImm 4, .intImm 8]) true).Computes (fun _ : Unit => 0) ℤ true 2 .sum := by
  constructor
  · intro h
    have hwf : (reduceAbssum ⟨0, [.intImm 4, .intImm 8]⟩ ⟨1, [.intImm 4, .intImm 1]⟩
        (-1)).WellFormed (fun _ : Unit => 0) 2 .sum := by
      refine ⟨trivial, trivial, rfl, ?_, ?_, ?_, rfl, nofun, fun _ => rfl, ?_, ?_⟩ <;> decide
    have habs := isAbs_of_effect hwf (by decide) ((computes_iff_accepted hwf).mp h).2
    cases habs
  · rintro ⟨calls, hcalls, -⟩
    have hone := (accepted_of_npuirReduce hcalls).2 1 List.mem_cons_self
    cases hone

end ReduceCall

end TileLangNpuir.Frontend
