import TileLangNpuir.Lib.Reduction
import TileLangNpuir.Frontend.Shape

/-!
# Tile calls on memory

What the tile calls that `npuir_reduce` emits do to memory: `tl.npuir_abs`, `tl.npuir_reduce` and
the elementwise combinations. A call reads its sources in full before it writes its destination,
and is not well formed where the extents of its regions do not fit.
-/

namespace TileLangNpuir.Frontend

open RowMajor

variable {V R : Type}

/-! ## Memory -/

/-- The contents of the buffers. -/
abbrev Memory (R : Type) : Type := ℕ → List ℤ → R

/-- A part of a buffer. -/
structure Part : Type where
  buffer : ℕ
  ranges : List (ℤ × ℤ)

namespace Part

def extents (part : Part) : List ℤ := RowMajor.extents part.ranges

def read (part : Part) (mem : Memory R) (q : List ℤ) : R :=
  mem part.buffer (toGlobal part.ranges q)

def write (part : Part) (mem : Memory R) (f : List ℤ → R) : Memory R := fun b p =>
  if b = part.buffer ∧ InRanges part.ranges p then f (toLocal part.ranges p) else mem b p

section

variable {part : Part} {mem : Memory R} {f : List ℤ → R}

theorem write_of_ne {b : ℕ} (h : b ≠ part.buffer) : part.write mem f b = mem b :=
  funext fun _ => if_neg fun hb => h hb.1

theorem write_of_not_inRanges {b : ℕ} {p : List ℤ} (h : ¬(b = part.buffer ∧ InRanges part.ranges p)) :
    part.write mem f b p = mem b p := if_neg h

theorem read_write {q : List ℤ} (h : InBox part.extents q) :
    part.read (part.write mem f) q = f q := by
  rw [read, write, if_pos ⟨rfl, inRanges_toGlobal h⟩, toLocal_toGlobal h]

theorem read_congr {mem' : Memory R} (h : mem part.buffer = mem' part.buffer) :
    part.read mem = part.read mem' := by
  funext q
  rw [read, read, h]

end

end Part

/-- The part that a region of a call is. -/
def TileRegion.part (σ : V → ℤ) (r : TileRegion V) : Option Part :=
  (regionOp σ r).map fun ranges => ⟨r.buffer.name, ranges⟩

/-! ## Calls -/

inductive ReduceMode : Type where
  | sum
  | prod
  | max
  | min
  | maxWithIndexLeft
  | maxWithIndexRight
  | minWithIndexLeft
  | minWithIndexRight
  | any
  | all
  | xori
  | ori
  | abssum
  | absmax
  | none
  deriving DecidableEq

/-- The modes whose value is given here. -/
def ReduceMode.reduction : ReduceMode → Option Reduction
  | .sum => some .sum
  | .max => some .max
  | .min => some .min
  | _ => Option.none

/-- The tile calls; the elementwise ones are `npuir_add`, `npuir_max` and `npuir_min`. -/
inductive TileStmt (V : Type) : Type where
  | abs (src dst : TileRegion V)
  | reduce (src dst : TileRegion V) (dims : List ℤ) (mode : ReduceMode)
  | binary (op : Reduction) (src0 src1 dst : TileRegion V)

/-- The dimensions that `NpuirReduce` reads, as flags; negative ones count from the end. -/
def axes (rank : ℕ) (dims : List ℤ) : List Bool :=
  (List.range rank).map fun (i : ℕ) => dims.any fun d => (if d < 0 then d + rank else d) = (i : ℤ)

section Steps

variable [Ring R] [LinearOrder R]

def absStep (src dst : Part) (mem : Memory R) : Option (Memory R) :=
  if src.extents = dst.extents then some (dst.write mem fun q => |src.read mem q|) else none

def reduceStep (k : Reduction) (flags : List Bool) (src dst : Part) (mem : Memory R) :
    Option (Memory R) :=
  if dst.extents = collapse flags src.extents then
    some (dst.write mem fun q => k.reduce ((fiber flags src.extents q).map (src.read mem)))
  else none

def binaryStep (k : Reduction) (src0 src1 dst : Part) (mem : Memory R) : Option (Memory R) :=
  if src0.extents = dst.extents ∧ src1.extents = dst.extents then
    some (dst.write mem fun q => k.combine (src0.read mem q) (src1.read mem q))
  else none

def TileStmt.exec (σ : V → ℤ) (mem : Memory R) : TileStmt V → Option (Memory R)
  | .abs src dst => do
    absStep (← src.part σ) (← dst.part σ) mem
  | .reduce src dst dims mode => do
    reduceStep (← mode.reduction) (axes src.buffer.shape.length dims) (← src.part σ)
      (← dst.part σ) mem
  | .binary op src0 src1 dst => do
    binaryStep op (← src0.part σ) (← src1.part σ) (← dst.part σ) mem

/-- The calls one after the other. -/
def execAll (σ : V → ℤ) (calls : List (TileStmt V)) (mem : Memory R) : Option (Memory R) :=
  calls.foldlM (TileStmt.exec σ) mem

end Steps

end TileLangNpuir.Frontend
