import TileLangNpuir.Lib.Box

/-!
# `LegalizeNpuirBF16`

The rewriting of bf16 tile operations into fp32 ones (`src/transform/legalize_npuir_bf16.cc`):
operands are cast into fp32 temporaries, the operation runs on these, and the result is
cast back. The temporaries are remembered, a destination's for the whole function and a
source's for the block.
-/

namespace TileLangNpuir.Bf16

/-- The data types that matter here. -/
inductive DType : Type where
  | bfloat16
  | float32
  | other (name : String)
  deriving DecidableEq

/-- The binary operations that are rewritten. -/
inductive BinaryOp : Type where
  | add | mul | max | min | div | sub | cmp
  deriving DecidableEq

/-- The unary operations that are rewritten. -/
inductive UnaryOp : Type where
  | exp | relu | sigmoid | ln | sqrt | rsqrt | abs | recip | reduce
  deriving DecidableEq

variable (E : Type)

/-- A buffer of the function. Buffers are told apart by `id`, as by their address. -/
structure Buffer : Type where
  id : ℕ
  dtype : DType
  shape : List E
  scope : String

/-- A temporary of the pass, always fp32. -/
structure Temp : Type where
  id : ℕ
  shape : List E
  scope : String

/-- A `Range`. -/
structure Range : Type where
  min : E
  extent : E
  deriving DecidableEq

/-- A `tl.region` of the function: its indices and extents have one length. -/
structure Region : Type where
  buffer : Buffer E
  ranges : List (Range E)

/-- An argument of a tile operation. -/
inductive Arg : Type where
  | region (r : Region E)
  | other (e : E)

/-- Where an emitted region lies. -/
inductive Place : Type where
  | buffer (b : Buffer E)
  | temp (t : Temp E)

/-- A `tl.region` that the pass emits. -/
structure NewRegion : Type where
  place : Place E
  ranges : List (Range E)

/-- `CachedSourceCast`. -/
structure CachedSourceCast : Type where
  srcBuffer : ℕ
  ranges : List (Range E)
  scope : String
  temp : Temp E
  shape_eq : temp.shape = ranges.map Range.extent

/-- What the pass remembers in a block: `block_temp_buffers_` and
`block_source_cast_cache_`. -/
structure Frame : Type where
  temps : List (Temp E)
  casts : List (CachedSourceCast E)

/-- The members of the mutator. -/
structure Mutator : Type where
  /-- `bf16_to_fp32_alias_` -/
  bf16Alias : ℕ → Option (Temp E)
  /-- the innermost block first -/
  frames : List (Frame E)
  nextId : ℕ

/-- `CreateCastStmt`. -/
structure Cast : Type where
  src : NewRegion E
  dst : NewRegion E

/-- `PreparedRegion`. `castBack` is the cast that follows where `needs_cast_back`. -/
structure PreparedRegion : Type where
  region : NewRegion E
  before : List (Cast E)
  castBack : List (Cast E)

variable {E} [DecidableEq E] [Zero E]

/-- `IsBF16`. -/
def Buffer.isBF16 (b : Buffer E) : Bool := b.dtype = .bfloat16

namespace Mutator

/-- `CreateTempBuffer`. -/
def createTempBuffer (m : Mutator E) (ranges : List (Range E)) (scope : String) :
    Temp E × Mutator E :=
  let t : Temp E := ⟨m.nextId, ranges.map Range.extent, scope⟩
  (t, { m with
    frames := m.frames.modifyHead fun f => { f with temps := f.temps ++ [t] }
    nextId := m.nextId + 1 })

end Mutator

/-- `CreateRegion`: the indices are zero, whatever the ranges start at. -/
def createRegion (place : Place E) (ranges : List (Range E)) : NewRegion E :=
  ⟨place, ranges.map fun r => ⟨0, r.extent⟩⟩

namespace Mutator

/-- The temporary of an earlier cast of the same region in this block. -/
def findCast (m : Mutator E) (r : Region E) (scope : String) : Option (CachedSourceCast E) :=
  (m.frames.head?.map Frame.casts |>.getD []).find? fun c =>
    c.srcBuffer = r.buffer.id ∧ c.scope = scope ∧ c.ranges = r.ranges

/-- `PrepareSourceRegion`. -/
def prepareSourceRegion (m : Mutator E) (src : Region E) (scope : String) :
    PreparedRegion E × Mutator E :=
  match m.bf16Alias src.buffer.id with
  | some t => (⟨createRegion (.temp t) src.ranges, [], []⟩, m)
  | none =>
    let region := createRegion (.buffer src.buffer) src.ranges
    if !src.buffer.isBF16 then (⟨region, [], []⟩, m)
    else match m.findCast src scope with
      | some c => (⟨createRegion (.temp c.temp) src.ranges, [], []⟩, m)
      | none =>
        let (t, m') := m.createTempBuffer src.ranges scope
        let cached : CachedSourceCast E := ⟨src.buffer.id, src.ranges, scope,
          ⟨m.nextId, src.ranges.map Range.extent, scope⟩, rfl⟩
        (⟨createRegion (.temp t) src.ranges,
            [⟨region, createRegion (.temp t) src.ranges⟩], []⟩,
          { m' with frames := m'.frames.modifyHead fun f => { f with casts := f.casts ++ [cached] } })

/-- `PrepareDestinationRegion`, with the cast back that the callers emit for it. -/
def prepareDestinationRegion (m : Mutator E) (dst : Region E) : PreparedRegion E × Mutator E :=
  let real := createRegion (.buffer dst.buffer) dst.ranges
  if !dst.buffer.isBF16 then (⟨real, [], []⟩, m)
  else match m.bf16Alias dst.buffer.id with
    | some t =>
      let region := createRegion (.temp t) dst.ranges
      (⟨region, [], [⟨region, real⟩]⟩, m)
    | none =>
      let (t, m') := m.createTempBuffer dst.ranges dst.buffer.scope
      let region := createRegion (.temp t) dst.ranges
      (⟨region, [], [⟨region, real⟩]⟩,
        { m' with bf16Alias := Function.update m'.bf16Alias dst.buffer.id (some t) })

end Mutator

/-- A call of one of the rewritten operations, by the arguments the pass looks at;
further arguments are passed through. -/
inductive Call (E : Type) : Type where
  | binary (op : BinaryOp) (src0 src1 dst : Arg E)
  | unary (op : UnaryOp) (src dst : Arg E)

/-- What becomes of a call: it stays, or its operands are prepared. A second source that
is not a bf16 region is passed through. -/
inductive Outcome (E : Type) : Type where
  | unchanged
  | rewritten (src0 : PreparedRegion E) (src1 : Option (PreparedRegion E)) (dst : PreparedRegion E)

/-- The region, where it is one of a bf16 buffer. -/
def Arg.bf16Region : Arg E → Option (Region E)
  | .region r => if r.buffer.isBF16 then some r else none
  | .other _ => none

/-- An argument of an emitted operation. -/
inductive NewArg (E : Type) : Type where
  | new (r : NewRegion E)
  | kept (a : Arg E)

/-- An emitted statement. -/
inductive Instr (E : Type) : Type where
  | cast (c : Cast E)
  | call (srcs : List (NewArg E)) (dst : NewArg E)

/-- The statements of an outcome, in order. -/
def Outcome.instrs (call : Call E) : Outcome E → List (Instr E)
  | .unchanged => match call with
    | .binary _ src0 src1 dst => [.call [.kept src0, .kept src1] (.kept dst)]
    | .unary _ src dst => [.call [.kept src] (.kept dst)]
  | .rewritten p0 p1 pd =>
    let srcs := match call, p1 with
      | .binary _ _ src1 _, none => [.new p0.region, .kept src1]
      | .binary .., some p1 => [.new p0.region, .new p1.region]
      | .unary .., _ => [.new p0.region]
    p0.before.map .cast ++ (p1.map PreparedRegion.before |>.getD []).map .cast ++
      .call srcs (.new pd.region) :: pd.castBack.map .cast

namespace Mutator

/-- `processBinaryOp`. The destination is prepared before the second source. -/
def processBinaryOp (m : Mutator E) (src0 src1 dst : Arg E) : Outcome E × Mutator E :=
  match src0, dst with
  | .region src0, .region dst =>
    if !src0.buffer.isBF16 && src1.bf16Region.isNone && !dst.buffer.isBF16 then (.unchanged, m)
    else
      let (p0, m) := m.prepareSourceRegion src0 dst.buffer.scope
      let (pd, m) := m.prepareDestinationRegion dst
      match src1.bf16Region with
      | none => (.rewritten p0 none pd, m)
      | some src1 =>
        let (p1, m) := m.prepareSourceRegion src1 dst.buffer.scope
        (.rewritten p0 (some p1) pd, m)
  | _, _ => (.unchanged, m)

/-- `processUnaryOp`. -/
def processUnaryOp (m : Mutator E) (src dst : Arg E) : Outcome E × Mutator E :=
  match src, dst with
  | .region src, .region dst =>
    if !src.buffer.isBF16 && !dst.buffer.isBF16 then (.unchanged, m)
    else
      let (p0, m) := m.prepareSourceRegion src dst.buffer.scope
      let (pd, m) := m.prepareDestinationRegion dst
      (.rewritten p0 none pd, m)
  | _, _ => (.unchanged, m)

/-- `VisitStmt_(EvaluateNode)`. Outside of blocks nothing is rewritten. -/
def visitCall (m : Mutator E) (call : Call E) : Outcome E × Mutator E :=
  if m.frames.isEmpty then (.unchanged, m)
  else match call with
    | .binary _ src0 src1 dst => m.processBinaryOp src0 src1 dst
    | .unary _ src dst => m.processUnaryOp src dst

end Mutator

/-! ## What preparing an operand remembers -/

namespace Mutator

variable {m : Mutator E} {r : Region E} {scope : String}

omit [Zero E] in
theorem findCast_key {c : CachedSourceCast E} (h : m.findCast r scope = some c) :
    c.srcBuffer = r.buffer.id ∧ c.scope = scope ∧ c.ranges = r.ranges := by
  simpa using List.find?_some h

omit [Zero E] in
theorem findCast_shape {c : CachedSourceCast E} (h : m.findCast r scope = some c) :
    c.temp.shape = r.ranges.map Range.extent := by
  rw [c.shape_eq, (findCast_key h).2.2]

@[simp]
theorem prepareSourceRegion_bf16Alias :
    (m.prepareSourceRegion r scope).2.bf16Alias = m.bf16Alias := by
  unfold prepareSourceRegion createTempBuffer
  split
  · rfl
  · dsimp only
    split
    · rfl
    · split <;> rfl

omit [DecidableEq E] in
theorem prepareDestinationRegion_bf16Alias_self (hbf16 : r.buffer.isBF16 = true) :
    (m.prepareDestinationRegion r).2.bf16Alias r.buffer.id =
      some ((m.bf16Alias r.buffer.id).getD ⟨m.nextId, r.ranges.map Range.extent, r.buffer.scope⟩) := by
  unfold prepareDestinationRegion createTempBuffer
  cases halias : m.bf16Alias r.buffer.id <;> simp [hbf16, halias]

omit [DecidableEq E] in
theorem prepareDestinationRegion_bf16Alias_of_not {b : ℕ}
    (h : ¬(r.buffer.isBF16 = true ∧ b = r.buffer.id)) :
    (m.prepareDestinationRegion r).2.bf16Alias b = m.bf16Alias b := by
  unfold prepareDestinationRegion createTempBuffer
  dsimp only
  split
  · rfl
  · rename_i hbf16
    have hne : b ≠ r.buffer.id := fun hb => h ⟨by simpa using hbf16, hb⟩
    split
    · rfl
    · exact Function.update_of_ne hne ..

/-- A destination adds no cast. -/
@[simp]
theorem prepareDestinationRegion_findCast {dst : Region E} :
    (m.prepareDestinationRegion dst).2.findCast r scope = m.findCast r scope := by
  unfold prepareDestinationRegion createTempBuffer
  dsimp only
  split
  · rfl
  · split
    · rfl
    · unfold findCast
      cases m.frames <;> rfl

variable (m scope) in
/-- The casts that are remembered after a source. -/
theorem prepareSourceRegion_frames (src : Region E) :
    (m.prepareSourceRegion src scope).2.frames = m.frames ∨
      (m.bf16Alias src.buffer.id = none ∧ src.buffer.isBF16 = true ∧ m.findCast src scope = none) ∧
        ∃ temps : List (Temp E), ∃ c : CachedSourceCast E,
          c.srcBuffer = src.buffer.id ∧ c.scope = scope ∧ c.ranges = src.ranges ∧
          (m.prepareSourceRegion src scope).2.frames =
            m.frames.modifyHead fun f => ⟨f.temps ++ temps, f.casts ++ [c]⟩ := by
  unfold prepareSourceRegion createTempBuffer
  cases halias : m.bf16Alias src.buffer.id with
  | some t => exact .inl rfl
  | none =>
    dsimp only
    by_cases hbf16 : src.buffer.isBF16 = true
    · cases hfind : m.findCast src scope with
      | some c => simp [hbf16]
      | none =>
        right
        refine ⟨⟨rfl, hbf16, rfl⟩, [⟨m.nextId, src.ranges.map Range.extent, scope⟩],
          ⟨src.buffer.id, src.ranges, scope, ⟨m.nextId, src.ranges.map Range.extent, scope⟩, rfl⟩,
          rfl, rfl, rfl, ?_⟩
        simp only [hbf16]
        cases m.frames <;> rfl
    · simp [hbf16]

theorem findCast_prepareSourceRegion {src : Region E} (h : (m.findCast r scope).isSome = true) :
    ((m.prepareSourceRegion src scope).2.findCast r scope).isSome = true := by
  rcases prepareSourceRegion_frames m scope src with
    hframes | ⟨-, temps, c, -, -, -, hframes⟩
  · rwa [findCast, hframes]
  · rw [findCast, hframes]
    rw [findCast] at h
    cases hfr : m.frames with
    | nil =>
      rw [hfr] at h
      cases h
    | cons f fs =>
      rw [hfr] at h
      simp only [List.modifyHead_cons, List.head?_cons, Option.map_some, Option.getD_some] at h ⊢
      rw [List.find?_isSome] at h ⊢
      obtain ⟨d, hd, hkey⟩ := h
      exact ⟨d, List.mem_append_left _ hd, hkey⟩

theorem findCast_of_prepareSourceRegion {src : Region E}
    (h : ((m.prepareSourceRegion src scope).2.findCast r scope).isSome = true) :
    (m.findCast r scope).isSome = true ∨
      src.buffer.id = r.buffer.id ∧ src.ranges = r.ranges ∧ m.bf16Alias src.buffer.id = none ∧
        m.findCast src scope = none := by
  rcases prepareSourceRegion_frames m scope src with
    hframes | ⟨⟨halias, -, hmiss⟩, temps, c, hbuffer, -, hranges, hframes⟩
  · left
    rwa [findCast, hframes] at h
  · rw [findCast, hframes] at h
    cases hfr : m.frames with
    | nil =>
      rw [hfr] at h
      cases h
    | cons f fs =>
      rw [hfr] at h
      simp only [List.modifyHead_cons, List.head?_cons, Option.map_some, Option.getD_some] at h
      rw [List.find?_isSome] at h
      obtain ⟨d, hd, hkey⟩ := h
      rcases List.mem_append.mp hd with hd | hd
      · left
        rw [findCast, hfr]
        simp only [List.head?_cons, Option.map_some, Option.getD_some]
        rw [List.find?_isSome]
        exact ⟨d, hd, hkey⟩
      · right
        obtain rfl := List.mem_singleton.mp hd
        simp only [decide_eq_true_eq] at hkey
        exact ⟨hbuffer.symm.trans hkey.1, hranges.symm.trans hkey.2.2, halias, hmiss⟩

variable (m r scope) in
/-- A source is cast into a temporary. -/
theorem prepareSourceRegion_casts : (m.prepareSourceRegion r scope).1.castBack = [] ∧
    ∀ c ∈ (m.prepareSourceRegion r scope).1.before, ∃ t, c.dst.place = .temp t := by
  unfold prepareSourceRegion createTempBuffer
  split
  · simp
  · dsimp only
    split
    · simp
    · split
      · simp
      · simp [createRegion]

omit [DecidableEq E] in
variable (m r) in
/-- A destination is written as it is, or in a temporary and cast back. -/
theorem prepareDestinationRegion_casts :
    (m.prepareDestinationRegion r).1.before = [] ∧
      ((m.prepareDestinationRegion r).1.region = createRegion (.buffer r.buffer) r.ranges ∧
          (m.prepareDestinationRegion r).1.castBack = [] ∨
        (∃ t, (m.prepareDestinationRegion r).1.region.place = .temp t) ∧
          ∃ src, (m.prepareDestinationRegion r).1.castBack =
            [⟨src, createRegion (.buffer r.buffer) r.ranges⟩]) := by
  unfold prepareDestinationRegion createTempBuffer
  dsimp only
  split
  · simp
  · split
    · simp [createRegion]
    · simp [createRegion]

end Mutator

end TileLangNpuir.Bf16
