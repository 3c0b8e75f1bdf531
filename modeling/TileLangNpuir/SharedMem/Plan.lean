import Mathlib.Data.List.Sort
import TileLangNpuir.SharedMem.Coverage

/-!
# The memory plan

`PlanMemory`, `FindAlloc` and `Free` in `src/transform/merge_shared_memory_allocations.cc`, and the
offsets that the rewriter then gives to the buffers.

A storage entry is a list of layers of buffers. The buffers of one layer stand one after the other,
and every layer begins where the entry does, so that two layers share their memory.

`PlanMemory` walks along the sequence; what it does there is a list of events, each with its index.
-/

namespace TileLangNpuir.SharedMem

/-- `AllocateNode`: the extent, whether it is a constant, and the element type. An extent that is
not a constant is what it comes to when the kernel runs. -/
structure Alloc : Type where
  extent : ℕ
  isConst : Bool
  bits : ℕ
  lanes : ℕ
  bits_pos : 0 < bits
  lanes_pos : 0 < lanes

/-- `dtype.bytes() * dtype.lanes()`. -/
def Alloc.elemBytes (a : Alloc) : ℕ := (a.bits + 7) / 8 * a.lanes

/-- `extents[0] * dtype.bytes() * dtype.lanes()`. -/
def Alloc.bytes (a : Alloc) : ℕ := a.extent * a.elemBytes

/-- `ConstantAllocationSize() * dtype.bits() * dtype.lanes()`, which is 0 without a constant. -/
def Alloc.constNbits (a : Alloc) : ℕ := if a.isConst then a.extent * (a.bits * a.lanes) else 0

theorem Alloc.elemBytes_pos (a : Alloc) : 0 < a.elemBytes := by
  have := a.bits_pos
  exact Nat.mul_pos (Nat.div_pos (by omega) (by omega)) a.lanes_pos

/-- `StorageEntry`. -/
structure StorageEntry : Type where
  constNbits : ℕ
  allocs : List (List ℕ)
  deriving DecidableEq

/-- The state of `PlanMemory`. Entries are held by value: they do not change while they are in use
or in a free list. -/
structure Planner : Type where
  /-- `alloc_map_`, newest first -/
  allocMap : List (ℕ × StorageEntry)
  /-- `const_free_map_`, by size and then by age -/
  constFree : List StorageEntry
  /-- `sym_free_list_` -/
  symFree : List StorageEntry
  deriving DecidableEq

/-! ## FindAlloc -/

/-- `match_range`. -/
def matchRange : ℕ := 16

/-- Smaller entries, the largest first, until they come to `nbits`; and those left. -/
def collect (nbits : ℕ) : ℕ → List StorageEntry → List StorageEntry × List StorageEntry
  | _, [] => ([], [])
  | memCt, e :: rest =>
    let memCt := memCt + e.constNbits
    if nbits ≤ memCt then ([e], rest)
    else (e :: (collect nbits memCt rest).1, (collect nbits memCt rest).2)

/-- The free entries that a constant allocation takes, and those left: the smallest one that is
large enough, if it is not too large, else several smaller ones. -/
def take (nbits : ℕ) (free : List StorageEntry) : List StorageEntry × List StorageEntry :=
  let smaller := free.takeWhile fun e => e.constNbits < nbits
  let larger := free.dropWhile fun e => e.constNbits < nbits
  let several := collect nbits 0 smaller.reverse
  match larger with
  | [] => (several.1, several.2.reverse)
  | e :: rest =>
    if e.constNbits ≤ nbits * matchRange then ([e], smaller ++ rest)
    else (several.1, several.2.reverse ++ larger)

/-- The layers of two entries, side by side. -/
def zipLayers : List (List ℕ) → List (List ℕ) → List (List ℕ)
  | [], bs => bs
  | a :: as, [] => a :: as
  | a :: as, b :: bs => (a ++ b) :: zipLayers as bs

/-- `reuse_allocs`. -/
def reuseAllocs (picked : List StorageEntry) : List (List ℕ) :=
  picked.foldl (fun layers e => zipLayers layers e.allocs) []

/-- `NewAlloc`. -/
def newAlloc (b nbits : ℕ) : StorageEntry := ⟨nbits, [[b]]⟩

/-- `FindAlloc`. A larger entry gets one more layer, and several smaller ones are merged under the
new one. -/
def Planner.findAlloc (allocs : ℕ → Alloc) (p : Planner) (b : ℕ) : StorageEntry × Planner :=
  let nbits := (allocs b).constNbits
  if 0 < nbits ∧ nbits ≤ 32 then (newAlloc b nbits, p)
  else if nbits ≠ 0 then
    match take nbits p.constFree with
    | ([], _) => (newAlloc b nbits, p)
    | (picked, rest) =>
      (⟨max nbits (picked.map (·.constNbits)).sum, reuseAllocs picked ++ [[b]]⟩,
        { p with constFree := rest })
  else match p.symFree with
    | [] => (newAlloc b nbits, p)
    | e :: rest => (e, { p with symFree := rest })

/-- `Free`. The checks that stop the compiler are `none`. -/
def Planner.free (p : Planner) (b : ℕ) : Option Planner :=
  match p.allocMap.lookup b with
  | none => none
  | some e =>
    if e.allocs = [] then none
    else if 0 < e.constNbits ∧ e.constNbits ≤ 32 then some p
    else if e.constNbits ≠ 0 then
      some { p with
        constFree := p.constFree.orderedInsert (fun e e' => e.constNbits < e'.constNbits) e }
    else some { p with symFree := p.symFree ++ [e] }

/-! ## PlanMemory -/

/-- What is done at an index of the sequence. -/
inductive Event : Type where
  | free (pos b : ℕ)
  | alloc (pos b : ℕ)
  deriving DecidableEq

/-- The events of an entry. A buffer that a leaf both generates and kills is freed last. -/
def eventsAt (gen kill : List (ℕ × ℕ)) (e : Entry) : List Event :=
  let gens := (gen.filter fun p => p.1 = e.stmt).map (·.2)
  let kills := (kill.filter fun p => p.1 = e.stmt).map (·.2)
  let isLeafAlloc := fun b => decide (e.scopePairOffset = 0 ∧ b ∈ gens)
  (if e.scopePairOffset ≤ 0 then (kills.filter fun b => !isLeafAlloc b).map (.free e.pos)
    else []) ++
    (if 0 ≤ e.scopePairOffset then gens.map (.alloc e.pos) else []) ++
    (if e.scopePairOffset ≤ 0 then (kills.filter isLeafAlloc).map (.free e.pos) else [])

def events (seq : List Entry) (order : List ℕ) : List Event :=
  seq.flatMap (eventsAt (genPoints seq) (reorder seq order))

def Planner.step (allocs : ℕ → Alloc) (p : Planner) : Event → Option Planner
  | .free _ b => p.free b
  | .alloc _ b =>
    let (e, p') := p.findAlloc allocs b
    some { p' with allocMap := (b, e) :: p'.allocMap }

def Planner.init : Planner := ⟨[], [], []⟩

def planMemory (allocs : ℕ → Alloc) (seq : List Entry) (order : List ℕ) : Option Planner :=
  (events seq order).foldlM (Planner.step allocs) Planner.init

/-! ## Offsets -/

/-- `all_entry`: what is in the free lists in the end. -/
def Planner.allEntry (p : Planner) : List StorageEntry := p.constFree ++ p.symFree

/-- `align[i]`: the largest element in layer `i` of any entry. -/
def alignOf (allocs : ℕ → Alloc) (all : List StorageEntry) (i : ℕ) : ℕ :=
  (all.flatMap fun e => e.allocs.getD i []).foldl (fun m b => max m (allocs b).elemBytes) 0

/-- The next multiple of the alignment. -/
def pad (align n : ℕ) : ℕ := n + (align - n % align) % align

/-- The buffers of a layer with their offsets, from `inner` on. -/
def placeLayer (allocs : ℕ → Alloc) (align base : ℕ) : ℕ → List ℕ → List (ℕ × ℕ)
  | _, [] => []
  | inner, b :: bs =>
    (b, base + inner) :: placeLayer allocs align base (pad align (inner + (allocs b).bytes)) bs

/-- `inner_offset` at the end of a layer. -/
def layerEnd (allocs : ℕ → Alloc) (align : ℕ) (layer : List ℕ) : ℕ :=
  layer.foldl (fun inner b => pad align (inner + (allocs b).bytes)) 0

/-- `max_inner_offset`. -/
def entryEnd (allocs : ℕ → Alloc) (align : ℕ → ℕ) (e : StorageEntry) : ℕ :=
  e.allocs.zipIdx.foldl (fun m layer => max m (layerEnd allocs (align layer.2) layer.1)) 0

def placeEntry (allocs : ℕ → Alloc) (align : ℕ → ℕ) (base : ℕ) (e : StorageEntry) :
    List (ℕ × ℕ) :=
  e.allocs.zipIdx.flatMap fun layer => placeLayer allocs (align layer.2) base 0 layer.1

/-- The offsets of the buffers of some entries, from `base` on, in the order they are assigned. -/
def placeAll (allocs : ℕ → Alloc) (align : ℕ → ℕ) : ℕ → List StorageEntry → List (ℕ × ℕ)
  | _, [] => []
  | base, e :: es =>
    placeEntry allocs align base e ++ placeAll allocs align (base + entryEnd allocs align e) es

/-- `merged_alloc_size_`, for the entries before. -/
def sizeOf (allocs : ℕ → Alloc) (align : ℕ → ℕ) (es : List StorageEntry) : ℕ :=
  (es.map (entryEnd allocs align)).sum

/-- `buffer_byte_offsets_`. -/
def Planner.bufferByteOffset (allocs : ℕ → Alloc) (p : Planner) (b : ℕ) : Option ℕ :=
  (placeAll allocs (alignOf allocs p.allEntry) 0 p.allEntry).reverse.lookup b

/-- `merged_alloc_size_`. -/
def Planner.mergedAllocSize (allocs : ℕ → Alloc) (p : Planner) : ℕ :=
  sizeOf allocs (alignOf allocs p.allEntry) p.allEntry

end TileLangNpuir.SharedMem
