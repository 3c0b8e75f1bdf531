import TileLangNpuir.Frontend.Operand

/-!
# Operations that change shapes

`npuir_interleave`, `npuir_deinterleave`, `npuir_transpose`, `npuir_concat` and `npuir_pad` of
`tilelang/language/customize_npuir.py`. With an explicit size, each derives the extents of its
destinations from the size with a loop of its own. Lists of the caller are threaded through, since
a call can assign to their items.
-/

namespace TileLangNpuir.Frontend

variable {V : Type}

/-! ## Lists -/

/-- The place of `xs[i]` in a list of length `n`; negative indices count from the end. -/
def place (n : ℕ) (i : ℤ) : Except PyError ℕ :=
  if 0 ≤ i ∧ i < n then .ok i.toNat
  else if i < 0 ∧ 0 ≤ i + n then .ok (i + n).toNat
  else .error .indexError

theorem lt_of_place {n k : ℕ} {i : ℤ} (h : place n i = .ok k) : k < n := by
  rw [place] at h
  split at h
  · obtain rfl := Except.ok.inj h
    omega
  · split at h
    · obtain rfl := Except.ok.inj h
      omega
    · cases h

/-- `xs[i]`. -/
def getItem {α : Type} (xs : List α) (i : ℤ) : Except PyError α := do
  let k ← place xs.length i
  match xs[k]? with
  | some x => .ok x
  | none => .error .indexError

/-- `xs[i] = x`. -/
def setItem {α : Type} (xs : List α) (i : ℤ) (x : α) : Except PyError (List α) := do
  let k ← place xs.length i
  return xs.set k x

/-! ## The operations -/

inductive IndexMode : Type where
  | channel0
  | channel1
  | allChannels
  deriving DecidableEq

/-- The calls of tile operations that are built. The lists that are joined to a text for the call
stay lists. -/
inductive TileCall (V : Type) : Type where
  | interleave (channelNums : ℤ) (dst : TileRegion V) (srcs : List (TileRegion V))
  | deinterleave (channelNums : ℤ) (indexMode : IndexMode) (src : TileRegion V)
    (dsts : List (TileRegion V))
  | transpose (src dst : TileRegion V) (permutation : List ℤ)
  | concat (dim : ℤ) (dst : TileRegion V) (srcs : List (TileRegion V))
  | pad (src dst : TileRegion V) (padValue : PrimExpr V) (padDim : ℤ)
    (staticLow staticHigh : List (PrimExpr V)) (numDynamicLow : ℕ) (dynamic : List (PrimExpr V))

def TileCall.srcs : TileCall V → List (TileRegion V)
  | .interleave _ _ srcs | .concat _ _ srcs => srcs
  | .deinterleave _ _ src _ | .transpose src _ _ | .pad src _ _ _ _ _ _ _ => [src]

def TileCall.dsts : TileCall V → List (TileRegion V)
  | .interleave _ dst _ | .concat _ dst _ => [dst]
  | .deinterleave _ _ _ dsts => dsts
  | .transpose _ dst _ | .pad _ dst _ _ _ _ _ _ => [dst]

/-- The extents of an operand, or the size where one is given. -/
def extentOr (o : Operand V) : Option (List ℤ) → List (Extent V)
  | none => getExtent o
  | some size => ofSize size

/-- `npuir_interleave`. -/
def npuirInterleave (srcs : List (Operand V)) (dst : Operand V) (channelNums : ℤ)
    (size : Option (List ℤ)) : Except PyError (TileCall V) := do
  let dstSize ← size.mapM fun s => do
    let last ← getItem s (-1)
    return s.dropLast ++ [last * 2]
  let dstExtent := extentOr dst dstSize
  let dst ← toRegion dst .w dstExtent
  let srcs ← srcs.mapM fun src => do
    let srcExtent := extentOr src size
    ensure (srcExtent.length = dstExtent.length) .assertionError
    toRegion src .r srcExtent
  return .interleave channelNums dst srcs

/-- `src_extent[-1] % channel_nums == 0`; an extent that is not a number is not found equal. -/
def isMultiple (extent : Extent V) (channelNums : ℤ) : Except PyError Bool :=
  match extent with
  | .expr (.intImm n) =>
    if channelNums = 0 then .error .zeroDivisionError else .ok (n % channelNums = 0)
  | _ => .ok false

/-- `npuir_deinterleave`: the size is halved as a float. -/
def npuirDeinterleave (src : Operand V) (dsts : List (Operand V)) (channelNums : ℤ)
    (indexMode : IndexMode) (size : Option (List ℤ)) : Except PyError (TileCall V) := do
  let srcExtent := extentOr src size
  ensure (← isMultiple (← getItem srcExtent (-1)) channelNums) .assertionError
  let src ← toRegion src .r srcExtent
  let dstSize ← size.mapM fun s => do
    let last ← getItem s (-1)
    return ofSize s.dropLast ++ [.floatImm ((last : ℚ) * (1 / 2))]
  let dsts ← dsts.mapM fun dst => do
    let dstExtent := dstSize.getD (getExtent dst)
    ensure (srcExtent.length = dstExtent.length) .assertionError
    toRegion dst .w dstExtent
  return .deinterleave channelNums indexMode src dsts

/-- `npuir_transpose`: the destination size is assigned item by item to an empty list. -/
def npuirTranspose (src dst : Operand V) (permutation : List ℤ) (size : Option (List ℤ)) :
    Except PyError (TileCall V) := do
  let srcExtent := extentOr src size
  let dstSize ← size.mapM fun s =>
    (List.range s.length).foldlM (fun dstSize (i : ℕ) => do
      let x ← getItem s (← getItem permutation i)
      setItem dstSize i x) []
  let dstExtent := extentOr dst dstSize
  ensure (srcExtent.length = dstExtent.length) .assertionError
  let src ← toRegion src .r srcExtent
  let dst ← toRegion dst .w dstExtent
  return .transpose src dst permutation

/-- One turn of the loop of `npuir_concat`: the region of a source, and the size of the caller,
multiplied in place when the number of the source is that of the dimension. -/
def concatTurn (dst : Operand V) (dim : ℤ) (count : ℕ)
    (state : List (TileRegion V) × Option (List ℤ)) (turn : Operand V × ℕ) :
    Except PyError (List (TileRegion V) × Option (List ℤ)) := do
  let (srcs, size) := state
  let (src, i) := turn
  let srcExtent := extentOr src size
  match size with
  | none => ensure (srcExtent.length = (getExtent dst).length) .assertionError
  | some _ => pure ()
  let src ← toRegion src .r srcExtent
  let size ← size.mapM fun s =>
    if (i : ℤ) = dim then do setItem s i ((← getItem s i) * (count : ℤ)) else return s
  return (srcs ++ [src], size)

/-- `npuir_concat`, with the list of the caller. -/
def npuirConcat (srcs : List (Operand V)) (dst : Operand V) (dim : ℤ) (size : Option (List ℤ)) :
    Except PyError (TileCall V × Option (List ℤ)) := do
  let (regions, size) ← srcs.zipIdx.foldlM (concatTurn dst dim srcs.length) ([], size)
  let dst ← toRegion dst .w (extentOr dst size)
  return (.concat dim dst regions, size)

/-- Sums of numbers and expressions. -/
def pyAdd : PrimExpr V → PrimExpr V → PrimExpr V
  | .intImm a, .intImm b => .intImm (a + b)
  | a, b => .binary .add a b

def isVar : PrimExpr V → Bool
  | .var _ => true
  | _ => false

/-- `x != 0`: only the number zero is found equal to it. -/
def notZero : PrimExpr V → Bool
  | .intImm n => n ≠ 0
  | _ => true

/-- One turn of the loop that derives the destination size of `npuir_pad`. -/
def padTurn (size : List ℤ) (low high : List (PrimExpr V)) (dstSize : List (PrimExpr V)) (i : ℕ) :
    Except PyError (List (PrimExpr V)) := do
  let x := pyAdd (pyAdd (.intImm (← getItem size i)) (← getItem low i)) (← getItem high i)
  let dstSize ← setItem dstSize i x
  match x with
  | .intImm n => ensure (0 ≤ n) .assertionError
  | _ => .error .valueError
  return dstSize

/-- The dimension that is padded. -/
structure PadState (V : Type) : Type where
  padDim : ℤ
  staticLow : List (PrimExpr V)
  staticHigh : List (PrimExpr V)
  numDynamicLow : ℕ
  dynamic : List (PrimExpr V)

/-- One turn of the loop over the amounts of padding. -/
def amountTurn (state : PadState V) (turn : (PrimExpr V × PrimExpr V) × ℕ) :
    Except PyError (PadState V) := do
  let ((l, h), idx) := turn
  let padDim ←
    if isVar l || isVar h || notZero l || notZero h then
      if state.padDim < 0 then pure (idx : ℤ) else .error .valueError
    else pure state.padDim
  return {
    padDim := padDim
    staticLow := state.staticLow ++ [if isVar l then .intImm 0 else l]
    staticHigh := state.staticHigh ++ [if isVar h then .intImm 0 else h]
    numDynamicLow := state.numDynamicLow + if isVar l then 1 else 0
    dynamic := state.dynamic ++ (if isVar l then [l] else []) ++ (if isVar h then [h] else []) }

/-- `npuir_pad`: the destination size is assigned item by item to an empty list. -/
def npuirPad (src dst : Operand V) (padValue : PrimExpr V)
    (low high : List (PrimExpr V)) (size : Option (List ℤ)) : Except PyError (TileCall V) := do
  let srcExtent := extentOr src size
  let dstSize ← size.mapM fun s => (List.range s.length).foldlM (padTurn s low high) []
  let dstExtent := match dstSize with
    | none => getExtent dst
    | some d => d.map .expr
  ensure (srcExtent.length = dstExtent.length) .assertionError
  ensure (srcExtent.length = low.length) .assertionError
  ensure (srcExtent.length = high.length) .assertionError
  let src ← toRegion src .r srcExtent
  let dst ← toRegion dst .w dstExtent
  let state ← (low.zip high).zipIdx.foldlM amountTurn ⟨-1, [], [], 0, []⟩
  return .pad src dst padValue state.padDim state.staticLow state.staticHigh state.numDynamicLow
    state.dynamic

/-! ## What is to be built -/

/-- A call of an operation that changes shapes. -/
inductive ShapeCall (V : Type) : Type where
  | interleave (srcs : List (Operand V)) (dst : Operand V) (channelNums : ℤ)
  | deinterleave (src : Operand V) (dsts : List (Operand V)) (channelNums : ℤ)
    (indexMode : IndexMode)
  | transpose (src dst : Operand V) (permutation : List ℤ)
  | concat (srcs : List (Operand V)) (dst : Operand V) (dim : ℤ)
  | pad (src dst : Operand V) (padValue : PrimExpr V) (low high : List (PrimExpr V))

namespace ShapeCall

/-- The call with an explicit size: the tile operation, and the list of the caller after it. -/
def run (size : List ℤ) : ShapeCall V → Except PyError (TileCall V × Option (List ℤ))
  | .interleave srcs dst channelNums => do
    return (← npuirInterleave srcs dst channelNums (some size), some size)
  | .deinterleave src dsts channelNums indexMode => do
    return (← npuirDeinterleave src dsts channelNums indexMode (some size), some size)
  | .transpose src dst permutation => do
    return (← npuirTranspose src dst permutation (some size), some size)
  | .concat srcs dst dim => npuirConcat srcs dst dim (some size)
  | .pad src dst padValue low high => do
    return (← npuirPad src dst padValue low high (some size), some size)

def srcs : ShapeCall V → List (Operand V)
  | .interleave srcs _ _ | .concat srcs _ _ => srcs
  | .deinterleave src _ _ _ | .transpose src _ _ | .pad src _ _ _ _ => [src]

def dsts : ShapeCall V → List (Operand V)
  | .deinterleave _ dsts _ _ => dsts
  | .interleave _ dst _ | .concat _ dst _ | .transpose _ dst _ | .pad _ dst _ _ _ => [dst]

/-- The extents that the operation makes of the extents of its sources. -/
def produced (σ : V → ℤ) (size : List ℤ) : ShapeCall V → List ℤ
  | .interleave _ _ _ => size.dropLast ++ [size.getLastD 0 * 2]
  | .deinterleave _ _ _ _ => size.dropLast ++ [size.getLastD 0 / 2]
  | .transpose _ _ permutation => permutation.map fun i => size.getD i.toNat 0
  | .concat srcs _ dim => size.modify dim.toNat (· * srcs.length)
  | .pad _ _ _ low high =>
    List.zipWith (· + ·) size (List.zipWith (fun l h => l.eval σ + h.eval σ) low high)

/-- The operation is defined on sources of the given extents. -/
def Defined (σ : V → ℤ) (size : List ℤ) : ShapeCall V → Prop
  | .interleave srcs _ _ => size ≠ [] ∧ srcs.length = 2
  | .deinterleave _ dsts channelNums _ =>
    size ≠ [] ∧ dsts ≠ [] ∧ channelNums = 2 ∧ size.getLastD 0 % 2 = 0
  | .transpose _ _ permutation =>
    permutation.Perm ((List.range size.length).map fun (i : ℕ) => (i : ℤ))
  | .concat srcs _ dim => srcs ≠ [] ∧ 0 ≤ dim ∧ dim < size.length
  | .pad src dst padValue low high =>
    low.length = size.length ∧ high.length = size.length ∧
      (∀ n ∈ produced σ size (.pad src dst padValue low high), 0 ≤ n) ∧
      (low.zip high).countP (fun a => notZero a.1 || notZero a.2) ≤ 1

/-- The operands and the size make sense. -/
structure WellFormed (σ : V → ℤ) (size : List ℤ) (call : ShapeCall V) : Prop where
  srcs : ∀ src ∈ call.srcs, src.WellFormed
  dsts : ∀ dst ∈ call.dsts, dst.WellFormed
  pos : ∀ n ∈ size, 0 < n
  defined : call.Defined σ size

/-- Nothing is raised, the list of the caller stays, the sources have the size, and the
destinations the extents that the operation makes of it. -/
def Builds (σ : V → ℤ) (size : List ℤ) (call : ShapeCall V) : Prop :=
  ∃ t, call.run size = .ok (t, some size) ∧
    List.Forall₂ (fun src r => src.Places σ size r) call.srcs t.srcs ∧
    List.Forall₂ (fun dst r => dst.Places σ (call.produced σ size) r) call.dsts t.dsts

/-- The calls that get their extents right. A transposition or a padding has no extents; there is
one source to concatenate, or the dimension is not the number of a source and the destination
is a region; the destinations of a deinterleaving are regions. -/
def Regular (size : List ℤ) : ShapeCall V → Prop
  | .interleave _ _ _ => True
  | .deinterleave _ dsts _ _ => ∀ dst ∈ dsts, dst.isRegion = true
  | .transpose _ _ _ | .pad _ _ _ _ _ => size = []
  | .concat srcs dst dim => srcs.length = 1 ∨ srcs.length ≤ dim ∧ dst.isRegion = true

/-- The operands can have the sizes of the sources and the destinations. -/
def Fits (σ : V → ℤ) (size : List ℤ) (call : ShapeCall V) : Prop :=
  (∀ src ∈ call.srcs, src.Fits σ size) ∧ ∀ dst ∈ call.dsts, dst.Fits σ (call.produced σ size)

/-! ## Lists of operands -/

section Lists

theorem getItem_last {α : Type} {xs : List α} (h : xs ≠ []) :
    getItem xs (-1) = .ok (xs.getLast h) := by
  have hpos := List.length_pos_iff.mpr h
  have hplace : place xs.length (-1) = .ok (xs.length - 1) := by
    rw [place, if_neg (by omega), if_pos (by omega)]
    exact congrArg Except.ok (by omega)
  have hget : xs[xs.length - 1]? = some (xs.getLast h) := by
    rw [← List.getLast?_eq_getElem?, List.getLast?_eq_some_getLast h]
  simp only [getItem, hplace, ok_bind, hget]

theorem getLastD_eq {size : List ℤ} (h : size ≠ []) : size.getLastD 0 = size.getLast h := by
  rw [List.getLastD_eq_getLast?, List.getLast?_eq_some_getLast h]
  rfl

theorem setItem_nil {α : Type} (i : ℤ) (x : α) : setItem [] i x = .error .indexError := by
  rw [setItem, place, if_neg (by simp), if_neg (by simp)]
  rfl

theorem mapM_congr {os : List (Operand V)} {f g : Operand V → Except PyError (TileRegion V)}
    (h : ∀ o ∈ os, f o = g o) : os.mapM f = os.mapM g := by
  induction os with
  | nil => rfl
  | cons o os ih =>
    rw [List.forall_mem_cons] at h
    rw [List.mapM_cons, List.mapM_cons, h.1, ih h.2]

theorem exists_of_mapM {os : List (Operand V)} {f : Operand V → Except PyError (TileRegion V)}
    {P : Operand V → TileRegion V → Prop} {rs : List (TileRegion V)} (h : os.mapM f = .ok rs)
    (hP : List.Forall₂ P os rs) : ∀ o ∈ os, ∃ r, f o = .ok r ∧ P o r := by
  induction os generalizing rs with
  | nil => nofun
  | cons o os ih =>
    simp only [List.mapM_cons, bind_eq_ok_iff] at h
    obtain ⟨r, hr, rs', hrs', heq⟩ := h
    obtain rfl := Except.ok.inj heq
    obtain ⟨hfirst, hrest⟩ := List.forall₂_cons.mp hP
    rw [List.forall_mem_cons]
    exact ⟨⟨r, hr, hfirst⟩, ih hrs' hrest⟩

/-- Regions for a list of operands. -/
theorem mapM_places_iff (σ : V → ℤ) (access : Access) (size : List ℤ) (os : List (Operand V))
    (hwf : ∀ o ∈ os, o.WellFormed) :
    (∃ rs, os.mapM (fun o => toRegion o access (ofSize size)) = .ok rs ∧
      List.Forall₂ (fun o r => o.Places σ size r) os rs) ↔ ∀ o ∈ os, o.Fits σ size := by
  induction os with
  | nil => exact iff_of_true ⟨[], rfl, .nil⟩ nofun
  | cons o os ih =>
    rw [List.forall_mem_cons] at hwf
    rw [List.forall_mem_cons, ← toRegion_places_iff σ access size hwf.1, ← ih hwf.2]
    simp only [List.mapM_cons, bind_eq_ok_iff]
    constructor
    · rintro ⟨rs, ⟨r, hr, rs', hrs', heq⟩, hplaces⟩
      obtain rfl := Except.ok.inj heq
      obtain ⟨h, hs⟩ := List.forall₂_cons.mp hplaces
      exact ⟨⟨r, hr, h⟩, rs', hrs', hs⟩
    · rintro ⟨⟨r, hr, h⟩, rs', hrs', hs⟩
      exact ⟨r :: rs', ⟨r, hr, rs', hrs', rfl⟩, .cons h hs⟩

end Lists

/-! ## The operations one by one -/

section Operations

variable {σ : V → ℤ} {size : List ℤ} {call : ShapeCall V}

/-- A call that builds a region of the right size for each operand. -/
theorem builds_iff_fits (hwf : call.WellFormed σ size)
    (hto : ∀ t, call.run size = .ok (t, some size) →
      call.srcs.mapM (fun o => toRegion o .r (ofSize size)) = .ok t.srcs ∧
        call.dsts.mapM (fun o => toRegion o .w (ofSize (call.produced σ size))) = .ok t.dsts)
    (hfrom : ∀ ss ds, call.srcs.mapM (fun o => toRegion o .r (ofSize size)) = .ok ss →
      call.dsts.mapM (fun o => toRegion o .w (ofSize (call.produced σ size))) = .ok ds →
      ∃ t, call.run size = .ok (t, some size) ∧ t.srcs = ss ∧ t.dsts = ds) :
    call.Builds σ size ↔ call.Fits σ size := by
  rw [Fits, ← mapM_places_iff σ .r size call.srcs hwf.srcs,
    ← mapM_places_iff σ .w (call.produced σ size) call.dsts hwf.dsts]
  constructor
  · rintro ⟨t, ht, hsrcs, hdsts⟩
    obtain ⟨hss, hds⟩ := hto t ht
    exact ⟨⟨t.srcs, hss, hsrcs⟩, t.dsts, hds, hdsts⟩
  · rintro ⟨⟨ss, hss, hsrcs⟩, ds, hds, hdsts⟩
    obtain ⟨t, ht, rfl, rfl⟩ := hfrom ss ds hss hds
    exact ⟨t, ht, hsrcs, hdsts⟩

theorem mapM_singleton_iff {o : Operand V} {access : Access} {rs : List (TileRegion V)} :
    [o].mapM (fun o => toRegion o access (ofSize size)) = .ok rs ↔
      ∃ r, toRegion o access (ofSize size) = .ok r ∧ rs = [r] := by
  simp only [List.mapM_cons, List.mapM_nil, bind_eq_ok_iff]
  constructor
  · rintro ⟨r, hr, _, hnil, heq⟩
    obtain rfl := Except.ok.inj hnil
    exact ⟨r, hr, (Except.ok.inj heq).symm⟩
  · rintro ⟨r, hr, rfl⟩
    exact ⟨r, hr, [], rfl, rfl⟩

theorem interleave_builds_iff {srcs : List (Operand V)} {dst : Operand V} {channelNums : ℤ}
    (hwf : (ShapeCall.interleave srcs dst channelNums).WellFormed σ size) :
    (ShapeCall.interleave srcs dst channelNums).Builds σ size ↔
      (ShapeCall.interleave srcs dst channelNums).Fits σ size := by
  have hsize : size ≠ [] := hwf.defined.1
  have hlast := getLastD_eq hsize
  have hlen : size.length = (size.dropLast ++ [size.getLast hsize * 2]).length := by
    have := List.length_pos_iff.mpr hsize
    rw [List.length_append, List.length_dropLast, List.length_singleton]
    omega
  have hrun : npuirInterleave srcs dst channelNums (some size) = do
      let dst ← toRegion dst .w (ofSize (size.dropLast ++ [size.getLast hsize * 2]))
      let srcs ← srcs.mapM fun src => toRegion src .r (ofSize size)
      return .interleave channelNums dst srcs := by
    simp only [npuirInterleave, Option.mapM_some, getItem_last hsize, ok_bind]
    change (toRegion dst .w (ofSize _) >>= fun dst => _) = _
    simp only [extentOr, length_ofSize, ensure_of hlen, ok_bind]
  apply builds_iff_fits hwf
  · intro t ht
    simp only [run, hrun, bind_eq_ok_iff] at ht
    obtain ⟨t', ⟨d, hd, ss, hss, ht'⟩, heq⟩ := ht
    obtain rfl := Except.ok.inj ht'
    obtain ⟨rfl, -⟩ := Prod.mk.inj (Except.ok.inj heq)
    rw [produced, hlast]
    exact ⟨hss, mapM_singleton_iff.mpr ⟨d, hd, rfl⟩⟩
  · intro ss ds hss hds
    obtain ⟨d, hd, rfl⟩ := mapM_singleton_iff.mp hds
    refine ⟨.interleave channelNums d ss, ?_, rfl, rfl⟩
    rw [produced, hlast] at hd
    rw [ShapeCall.srcs] at hss
    simp only [run, hrun, hd, hss, ok_bind]
    rfl

/-- A loop that assigns to the items of an empty list raises in its first turn. -/
theorem foldlM_setItem {α : Type} {f : List α → ℕ → Except PyError (List α)} {n : ℕ} (hn : n ≠ 0)
    (hf : ∀ ys, f [] 0 ≠ .ok ys) {xs : List α} : (List.range n).foldlM f [] ≠ .ok xs := by
  obtain ⟨n, rfl⟩ := Nat.exists_eq_succ_of_ne_zero hn
  rw [List.range_succ_eq_map, List.foldlM_cons]
  intro h
  obtain ⟨ys, hys, -⟩ := bind_eq_ok_iff.mp h
  exact hf ys hys

theorem transpose_builds_iff {src dst : Operand V} {permutation : List ℤ}
    (hwf : (ShapeCall.transpose src dst permutation).WellFormed σ size) :
    (ShapeCall.transpose src dst permutation).Builds σ size ↔
      size = [] ∧ (ShapeCall.transpose src dst permutation).Fits σ size := by
  by_cases hsize : size = []
  · subst hsize
    have hperm : permutation = [] := List.perm_nil.mp hwf.defined
    subst hperm
    have hrun : npuirTranspose src dst [] (some []) = do
        let src ← toRegion src .r (ofSize [])
        let dst ← toRegion dst .w (ofSize [])
        return .transpose src dst [] := rfl
    rw [and_iff_right rfl]
    apply builds_iff_fits hwf
    · intro t ht
      simp only [run, hrun, bind_eq_ok_iff] at ht
      obtain ⟨t', ⟨s, hs, d, hd, ht'⟩, heq⟩ := ht
      obtain rfl := Except.ok.inj ht'
      obtain ⟨rfl, -⟩ := Prod.mk.inj (Except.ok.inj heq)
      exact ⟨mapM_singleton_iff.mpr ⟨s, hs, rfl⟩, mapM_singleton_iff.mpr ⟨d, hd, rfl⟩⟩
    · intro ss ds hss hds
      obtain ⟨s, hs, rfl⟩ := mapM_singleton_iff.mp hss
      obtain ⟨d, hd, rfl⟩ := mapM_singleton_iff.mp hds
      refine ⟨.transpose s d [], ?_, rfl, rfl⟩
      rw [produced, List.map_nil] at hd
      simp only [run, hrun, hs, hd, ok_bind]
      rfl
  · refine iff_of_false ?_ fun h => hsize h.1
    rintro ⟨t, ht, -⟩
    simp only [run, npuirTranspose, Option.mapM_some, bind_eq_ok_iff, map_eq_ok_iff] at ht
    obtain ⟨t', ⟨d, ⟨xs, hxs, -⟩, -⟩, -⟩ := ht
    apply foldlM_setItem (List.length_eq_zero_iff.not.mpr hsize) _ hxs
    intro ys hys
    simp only [bind_eq_ok_iff, setItem_nil] at hys
    obtain ⟨_, _, _, _, h⟩ := hys
    cases h

theorem pad_builds_iff {src dst : Operand V} {padValue : PrimExpr V} {low high : List (PrimExpr V)}
    (hwf : (ShapeCall.pad src dst padValue low high).WellFormed σ size) :
    (ShapeCall.pad src dst padValue low high).Builds σ size ↔
      size = [] ∧ (ShapeCall.pad src dst padValue low high).Fits σ size := by
  by_cases hsize : size = []
  · subst hsize
    obtain ⟨hlow, hhigh, -⟩ := hwf.defined
    obtain rfl := List.length_eq_zero_iff.mp hlow
    obtain rfl := List.length_eq_zero_iff.mp hhigh
    have hrun : npuirPad src dst padValue [] [] (some []) = do
        let src ← toRegion src .r (ofSize [])
        let dst ← toRegion dst .w (ofSize [])
        return .pad src dst padValue (-1) [] [] 0 [] := rfl
    rw [and_iff_right rfl]
    apply builds_iff_fits hwf
    · intro t ht
      simp only [run, hrun, bind_eq_ok_iff] at ht
      obtain ⟨t', ⟨s, hs, d, hd, ht'⟩, heq⟩ := ht
      obtain rfl := Except.ok.inj ht'
      obtain ⟨rfl, -⟩ := Prod.mk.inj (Except.ok.inj heq)
      exact ⟨mapM_singleton_iff.mpr ⟨s, hs, rfl⟩, mapM_singleton_iff.mpr ⟨d, hd, rfl⟩⟩
    · intro ss ds hss hds
      obtain ⟨s, hs, rfl⟩ := mapM_singleton_iff.mp hss
      obtain ⟨d, hd, rfl⟩ := mapM_singleton_iff.mp hds
      refine ⟨.pad s d padValue (-1) [] [] 0 [], ?_, rfl, rfl⟩
      rw [produced, List.zipWith_nil_left] at hd
      simp only [run, hrun, hs, hd, ok_bind]
      rfl
  · refine iff_of_false ?_ fun h => hsize h.1
    rintro ⟨t, ht, -⟩
    simp only [run, npuirPad, Option.mapM_some, bind_eq_ok_iff, map_eq_ok_iff] at ht
    obtain ⟨t', ⟨d, ⟨xs, hxs, -⟩, -⟩, -⟩ := ht
    apply foldlM_setItem (List.length_eq_zero_iff.not.mpr hsize) _ hxs
    intro ys hys
    simp only [padTurn, bind_eq_ok_iff, setItem_nil] at hys
    obtain ⟨_, _, _, _, _, _, _, h, _⟩ := hys
    cases h

/-- A turn of the loop over the sources. -/
theorem concatTurn_eq {dst src : Operand V} {dim : ℤ} {count i : ℕ} {acc : List (TileRegion V)}
    (hdim : dim < size.length) :
    concatTurn dst dim count (acc, some size) (src, i) = do
      let r ← toRegion src .r (ofSize size)
      return (acc ++ [r], some (if (i : ℤ) = dim then size.modify i (· * count) else size)) := by
  have hsize : (some size).mapM (fun s : List ℤ =>
      if (i : ℤ) = dim then do setItem s i ((← getItem s i) * (count : ℤ)) else return s) =
      (.ok (some (if (i : ℤ) = dim then size.modify i (· * count) else size)) :
        Except PyError _) := by
    split
    case isTrue h =>
      have hi : i < size.length := by omega
      have hplace : place size.length i = .ok i := by
        rw [place, if_pos (by omega), Int.toNat_natCast]
      have hget : getItem size i = .ok (size.get ⟨i, hi⟩) := by
        simp only [getItem, hplace, ok_bind, List.getElem?_eq_getElem hi, List.get_eq_getElem]
      have hset : size.modify i (· * (count : ℤ)) = size.set i (size.get ⟨i, hi⟩ * count) := by
        rw [List.modify_eq_set_getElem?, List.getElem?_eq_getElem hi]
        rfl
      simp only [Option.mapM_some, hget, ok_bind, setItem, hplace, hset]
      rfl
    case isFalse => rfl
  simp only [concatTurn, extentOr, hsize, ok_bind]

/-- The size after the loop over the sources. -/
theorem concat_size {dst : Operand V} {dim : ℤ} {count k : ℕ} {srcs : List (Operand V)}
    {acc : List (TileRegion V)} {result : List (TileRegion V) × Option (List ℤ)}
    (hdim : dim < size.length)
    (h : (srcs.zipIdx k).foldlM (concatTurn dst dim count) (acc, some size) = .ok result) :
    result.2 = some (if k ≤ dim ∧ dim < k + srcs.length then size.modify dim.toNat (· * count)
      else size) := by
  induction srcs generalizing k size acc with
  | nil =>
    rw [if_neg (by simp)]
    exact congrArg Prod.snd (Except.ok.inj h).symm
  | cons src srcs ih =>
    rw [List.zipIdx_cons, List.foldlM_cons, concatTurn_eq hdim] at h
    simp only [bind_eq_ok_iff] at h
    obtain ⟨_, ⟨r, -, heq⟩, h⟩ := h
    obtain rfl := Except.ok.inj heq
    rw [List.length_cons]
    by_cases hk : (k : ℤ) = dim
    · rw [if_pos hk] at h
      rw [ih (by rwa [List.length_modify]) h, if_neg (by omega), if_pos (by omega), ← hk,
        Int.toNat_natCast]
    · rw [if_neg hk] at h
      rw [ih hdim h]
      congr 2
      exact propext (by omega)

/-- The regions after the loop over the sources, when it leaves the size alone. -/
theorem concat_regions {dst : Operand V} {dim : ℤ} {count k : ℕ} {srcs : List (Operand V)}
    {acc : List (TileRegion V)} (hdim : dim < size.length)
    (hkeep : k ≤ dim → dim < k + srcs.length → count = 1) :
    (srcs.zipIdx k).foldlM (concatTurn dst dim count) (acc, some size) = do
      let rs ← srcs.mapM fun src => toRegion src .r (ofSize size)
      return (acc ++ rs, some size) := by
  induction srcs generalizing k acc with
  | nil =>
    rw [List.mapM_nil]
    change Except.ok _ = Except.ok _
    rw [List.append_nil]
  | cons src srcs ih =>
    have hsame : (if (k : ℤ) = dim then size.modify k (· * (count : ℤ)) else size) = size := by
      split
      case isTrue hk =>
        obtain rfl := hkeep (by omega) (by rw [List.length_cons]; omega)
        simp only [Nat.cast_one, mul_one]
        exact List.modify_id k size
      case isFalse => rfl
    rw [List.zipIdx_cons, List.foldlM_cons, concatTurn_eq hdim, hsame, List.mapM_cons]
    cases hr : toRegion src .r (ofSize size) with
    | error e => rfl
    | ok r =>
      simp only [ok_bind, pure_bind, bind_assoc]
      rw [ih fun hlow hhigh => hkeep (by omega) (by rw [List.length_cons]; omega)]
      simp only [List.append_assoc, List.singleton_append]

theorem modify_ne {i n : ℕ} (hi : i < size.length) (hpos : ∀ x ∈ size, 0 < x) (hn : n ≠ 1) :
    size.modify i (· * (n : ℤ)) ≠ size := by
  intro heq
  have hget : size[i] * n = size[i] := by
    have h := congrArg (·[i]?) heq
    simpa [List.getElem?_eq_getElem hi] using h
  have hx := hpos _ (List.getElem_mem hi)
  exact hn (by exact_mod_cast mul_left_cancel₀ hx.ne' (hget.trans (mul_one _).symm))

theorem concat_builds_iff {srcs : List (Operand V)} {dst : Operand V} {dim : ℤ}
    (hwf : (ShapeCall.concat srcs dst dim).WellFormed σ size) :
    (ShapeCall.concat srcs dst dim).Builds σ size ↔
      (srcs.length = 1 ∨ srcs.length ≤ dim ∧ dst.isRegion = true) ∧
        (ShapeCall.concat srcs dst dim).Fits σ size := by
  obtain ⟨-, hlow, hdim⟩ := hwf.defined
  have hchanged (hn : srcs.length ≠ 1) : size.modify dim.toNat (· * (srcs.length : ℤ)) ≠ size :=
    modify_ne (by omega) hwf.pos hn
  by_cases hkeep : dim < srcs.length → srcs.length = 1
  · -- the list of the caller stays
    have hrun : npuirConcat srcs dst dim (some size) = do
        let rs ← srcs.mapM fun src => toRegion src .r (ofSize size)
        let dst ← toRegion dst .w (ofSize size)
        return (.concat dim dst rs, some size) := by
      rw [npuirConcat, concat_regions hdim fun _ h => hkeep (by simpa using h)]
      simp only [bind_assoc, pure_bind, List.nil_append, extentOr]
    by_cases hregular : srcs.length = 1 ∨ srcs.length ≤ dim ∧ dst.isRegion = true
    · have hdst : toRegion dst .w (ofSize size) =
          toRegion dst .w (ofSize ((ShapeCall.concat srcs dst dim).produced σ size)) := by
        rcases hregular with hone | ⟨-, hregion⟩
        · have hid : (ShapeCall.concat srcs dst dim).produced σ size = size := by
            simp only [produced, hone, Nat.cast_one, mul_one]
            exact List.modify_id _ size
          rw [hid]
        · apply toRegion_congr hregion
          rw [length_ofSize, length_ofSize, produced, List.length_modify]
      rw [and_iff_right hregular]
      apply builds_iff_fits hwf
      · intro t ht
        simp only [run, hrun, bind_eq_ok_iff] at ht
        obtain ⟨rs, hrs, d, hd, heq⟩ := ht
        obtain ⟨rfl, -⟩ := Prod.mk.inj (Except.ok.inj heq)
        exact ⟨hrs, mapM_singleton_iff.mpr ⟨d, hdst ▸ hd, rfl⟩⟩
      · intro ss ds hss hds
        obtain ⟨d, hd, rfl⟩ := mapM_singleton_iff.mp hds
        rw [← hdst] at hd
        rw [ShapeCall.srcs] at hss
        refine ⟨.concat dim d ss, ?_, rfl, rfl⟩
        simp only [run, hrun, hss, hd, ok_bind]
        rfl
    · -- the destination gets the extents of a source
      refine iff_of_false ?_ fun h => hregular h.1
      rintro ⟨t, ht, -, hdplaces⟩
      simp only [run, hrun, bind_eq_ok_iff] at ht
      obtain ⟨rs, -, d, hd, heq⟩ := ht
      obtain ⟨rfl, -⟩ := Prod.mk.inj (Except.ok.inj heq)
      push Not at hregular
      obtain ⟨hone, hregion⟩ := hregular
      have hnot : dst.isRegion = false := by
        apply Bool.eq_false_iff.mpr
        apply hregion
        by_contra hlt
        exact hone (hkeep (by omega))
      apply hchanged hone
      exact size_unique (hwf.dsts dst List.mem_cons_self) hnot (List.length_modify _ _ _) hd
        (List.forall₂_cons.mp hdplaces).1
  · -- the list of the caller is changed
    push Not at hkeep
    obtain ⟨hlt, hone⟩ := hkeep
    refine iff_of_false ?_ fun h => h.1.elim hone fun h => by omega
    rintro ⟨t, ht, -⟩
    simp only [run, npuirConcat, bind_eq_ok_iff] at ht
    obtain ⟨⟨rs, s⟩, hfold, d, -, heq⟩ := ht
    have hs := concat_size hdim hfold
    rw [if_pos (by simp; omega)] at hs
    obtain ⟨-, rfl⟩ := Prod.mk.inj (Except.ok.inj heq)
    exact hchanged hone (Option.some.inj hs).symm

/-- No region with a float among its extents has a size. -/
theorem not_places_float {dst : Operand V} (hwf : dst.WellFormed) (hnot : dst.isRegion = false)
    {extent : List (Extent V)} {q : ℚ} {size' : List ℤ} {access : Access} {r : TileRegion V}
    (hlen : size'.length = extent.length + 1)
    (hr : toRegion dst access (extent ++ [.floatImm q]) = .ok r) : ¬dst.Places σ size' r := by
  intro h
  obtain ⟨l, hrank, heval⟩ := mapM_of_places hwf h
  obtain ⟨l', hextents⟩ := toRegion_extents hwf hnot
    (by rw [List.length_append, List.length_singleton]; omega) hr
  apply eval_ne_none heval (.floatImm q) _ rfl
  rw [hextents]
  simp

theorem deinterleave_builds_iff {src : Operand V} {dsts : List (Operand V)} {channelNums : ℤ}
    {indexMode : IndexMode}
    (hwf : (ShapeCall.deinterleave src dsts channelNums indexMode).WellFormed σ size) :
    (ShapeCall.deinterleave src dsts channelNums indexMode).Builds σ size ↔
      (∀ dst ∈ dsts, dst.isRegion = true) ∧
        (ShapeCall.deinterleave src dsts channelNums indexMode).Fits σ size := by
  obtain ⟨hsize, -, rfl, heven⟩ := hwf.defined
  have hlast := getLastD_eq hsize
  have hpos := List.length_pos_iff.mpr hsize
  set half : Extent V := .floatImm ((size.getLast hsize : ℚ) * (1 / 2))
  have hhalf : (ofSize size.dropLast ++ [half]).length = size.length := by
    rw [List.length_append, length_ofSize, List.length_dropLast, List.length_singleton]
    omega
  have hrun : npuirDeinterleave src dsts 2 indexMode (some size) = do
      let src ← toRegion src .r (ofSize size)
      let dsts ← dsts.mapM fun dst => toRegion dst .w (ofSize size.dropLast ++ [half])
      return .deinterleave 2 indexMode src dsts := by
    have hne : (ofSize size : List (Extent V)) ≠ [] := by
      rw [ofSize, Ne, List.map_eq_nil_iff]
      exact hsize
    have hmultiple : isMultiple ((ofSize size : List (Extent V)).getLast hne) 2 = .ok true := by
      simp only [ofSize, List.getLast_map]
      rw [isMultiple, if_neg (by decide), ← hlast, heven]
      rfl
    have hdst : (some size).mapM (fun s => do
        let last ← getItem s (-1)
        return ofSize s.dropLast ++ [.floatImm ((last : ℚ) * (1 / 2))]) =
        (.ok (some (ofSize size.dropLast ++ [half])) : Except PyError (Option (List (Extent V)))) := by
      simp only [Option.mapM_some, getItem_last hsize, ok_bind]
      rfl
    simp only [npuirDeinterleave, extentOr, getItem_last hne, ok_bind, hmultiple, hdst,
      Option.getD_some, length_ofSize, ensure_of hhalf.symm, ensure_of trivial]
  have hproduced : ((ShapeCall.deinterleave src dsts 2 indexMode).produced σ size).length =
      size.length := by
    rw [produced, List.length_append, List.length_dropLast, List.length_singleton]
    omega
  by_cases hregular : ∀ dst ∈ dsts, dst.isRegion = true
  · have hdsts : (dsts.mapM fun dst => toRegion dst .w (ofSize size.dropLast ++ [half])) =
        dsts.mapM fun dst => toRegion dst .w
          (ofSize ((ShapeCall.deinterleave src dsts 2 indexMode).produced σ size)) := by
      apply mapM_congr
      intro dst hdst
      apply toRegion_congr (hregular dst hdst)
      rw [hhalf, length_ofSize, hproduced]
    rw [and_iff_right hregular]
    apply builds_iff_fits hwf
    · intro t ht
      simp only [run, hrun, bind_eq_ok_iff] at ht
      obtain ⟨t', ⟨s, hs, ds, hds, ht'⟩, heq⟩ := ht
      obtain rfl := Except.ok.inj ht'
      obtain ⟨rfl, -⟩ := Prod.mk.inj (Except.ok.inj heq)
      exact ⟨mapM_singleton_iff.mpr ⟨s, hs, rfl⟩, hdsts ▸ hds⟩
    · intro ss ds hss hds
      obtain ⟨s, hs, rfl⟩ := mapM_singleton_iff.mp hss
      rw [ShapeCall.dsts, ← hdsts] at hds
      refine ⟨.deinterleave 2 indexMode s ds, ?_, rfl, rfl⟩
      simp only [run, hrun, hs, hds, ok_bind]
      rfl
  · -- a destination that is no region gets a float
    refine iff_of_false ?_ fun h => hregular h.1
    rintro ⟨t, ht, -, hdplaces⟩
    simp only [run, hrun, bind_eq_ok_iff] at ht
    obtain ⟨t', ⟨s, -, ds, hds, ht'⟩, heq⟩ := ht
    obtain rfl := Except.ok.inj ht'
    obtain ⟨rfl, -⟩ := Prod.mk.inj (Except.ok.inj heq)
    push Not at hregular
    obtain ⟨dst, hdst, hnot⟩ := hregular
    obtain ⟨r, hr, hplaces⟩ := exists_of_mapM hds hdplaces dst hdst
    refine not_places_float (hwf.dsts dst hdst) (Bool.eq_false_iff.mpr hnot) ?_ hr hplaces
    rw [hproduced, length_ofSize, List.length_dropLast]
    omega

/-- A call with an explicit size gets its regions right exactly when it is one of the regular
ones and its operands can have the sizes. -/
theorem builds_iff (hwf : call.WellFormed σ size) :
    call.Builds σ size ↔ call.Regular size ∧ call.Fits σ size := by
  cases call with
  | interleave srcs dst channelNums => exact (interleave_builds_iff hwf).trans (and_iff_right trivial).symm
  | deinterleave src dsts channelNums indexMode => exact deinterleave_builds_iff hwf
  | transpose src dst permutation => exact transpose_builds_iff hwf
  | concat srcs dst dim => exact concat_builds_iff hwf
  | pad src dst padValue low high => exact pad_builds_iff hwf

end Operations

end ShapeCall

/-- Operands become the regions they denote exactly when no arithmetic expression among the
indices of a load comes after a ramp, and calls with an explicit size get their regions right
exactly when they are regular and their operands can have the sizes. -/
theorem regions_iff (σ : V → ℤ) :
    (∀ (o : Operand V) (access : Access), o.WellFormed → (o.Denotes σ access ↔ o.Recovered)) ∧
      ∀ (call : ShapeCall V) (size : List ℤ), call.WellFormed σ size →
        (call.Builds σ size ↔ call.Regular size ∧ call.Fits σ size) :=
  ⟨fun _ _ hwf => denotes_iff_recovered hwf, fun _ _ hwf => ShapeCall.builds_iff hwf⟩

/-- A load at row `i + 1`, and two buffers that are interleaved. -/
theorem regions_row :
    (Operand.load ⟨0, [.intImm 16, .intImm 8]⟩
      [.expr (.binary .add (.var ()) (.intImm 1)), .ramp (.intImm 0) (.intImm 1) 8]).Denotes
        (fun _ => 2) .r ∧
    (ShapeCall.interleave [.buffer ⟨0, [.intImm 16, .intImm 8]⟩, .buffer ⟨1, [.intImm 16, .intImm 8]⟩]
      (.buffer ⟨2, [.intImm 16, .intImm 16]⟩) 2).Builds (fun _ : Unit => 2) [4, 8] := by
  constructor
  · apply ((regions_iff _).1 _ _ _).mpr
    · simp [Operand.Recovered, Index.lanes]
    · simp [Operand.WellFormed]
  · apply ((regions_iff _).2 _ _ ⟨_, _, _, _⟩).mpr
    · refine ⟨trivial, ?_, ?_⟩ <;> simp [ShapeCall.srcs, ShapeCall.dsts, Operand.Fits,
        ShapeCall.produced]
    · simp [ShapeCall.srcs, Operand.WellFormed]
    · simp [ShapeCall.dsts, Operand.WellFormed]
    · decide
    · exact ⟨by decide, rfl⟩

/-- A load of column `i + 1` becomes a row, and a transposition with a size raises. -/
theorem regions_column :
    ¬(Operand.load ⟨0, [.intImm 8, .intImm 16]⟩
      [.ramp (.intImm 0) (.intImm 1) 8, .expr (.binary .add (.var ()) (.intImm 1))]).Denotes
        (fun _ => 2) .r ∧
    ¬(ShapeCall.transpose (.buffer ⟨0, [.intImm 4, .intImm 8]⟩) (.buffer ⟨1, [.intImm 8, .intImm 4]⟩)
      [1, 0]).Builds (fun _ : Unit => 2) [4, 8] := by
  constructor
  · intro h
    have hrecovered := (denotes_iff_recovered (by simp [Operand.WellFormed])).mp h
    simp [Operand.Recovered, Index.lanes, Index.extent] at hrecovered
  · rintro ⟨t, ht, -⟩
    cases ht


end TileLangNpuir.Frontend
