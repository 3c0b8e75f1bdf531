import TileLangNpuir.Bf16.Legalize
import TileLangNpuir.Lib.Structured

/-!
# The walk over a function

Statements on whole buffers, visited in the order of the text. The mutator goes through both
branches of an `if`, once through the body of a loop, and forgets the destinations of the whole
function where a block is left that has gained temporaries.

Every temporary is made for one buffer, its owner: whatever is remembered stands for its owner
only (`walk_owned`).
-/

namespace TileLangNpuir.Bf16

variable {E : Type} [DecidableEq E] [Zero E]

/-- The region of a whole buffer. -/
def Buffer.whole (b : Buffer E) : Region E := ⟨b, b.shape.map fun n => ⟨0, n⟩⟩

variable (E) in
/-- An operand of a statement. -/
inductive Operand : Type where
  | whole (b : Buffer E)
  | other (e : E)

def Operand.arg : Operand E → Arg E
  | .whole b => .region b.whole
  | .other e => .other e

omit [DecidableEq E] in
@[simp]
theorem Operand.arg_whole (b : Buffer E) : (Operand.whole b).arg = .region b.whole := rfl

omit [DecidableEq E] in
@[simp]
theorem Operand.arg_other (e : E) : (Operand.other e).arg = .other e := rfl

variable (E) in
/-- A statement. `other` is one that the pass leaves alone: another tile operation, a copy, a
cast, the store of a buffer. -/
inductive Stmt : Type where
  | binary (op : BinaryOp) (src0 src1 dst : Operand E)
  | unary (op : UnaryOp) (src dst : Operand E)
  | other (name : String) (srcs : List (Operand E)) (dst : Operand E)

namespace Stmt

def call : Stmt E → Option (Call E)
  | .binary op src0 src1 dst => some (.binary op src0.arg src1.arg dst.arg)
  | .unary op src dst => some (.unary op src.arg dst.arg)
  | .other .. => none

def dst : Stmt E → Operand E
  | .binary _ _ _ dst => dst
  | .unary _ _ dst => dst
  | .other _ _ dst => dst

end Stmt

namespace Mutator

/-- `VisitStmt_(BlockNode)`, before the body. -/
def enterBlock (m : Mutator E) : Mutator E := { m with frames := ⟨[], []⟩ :: m.frames }

/-- `VisitStmt_(BlockNode)`, after the body: the temporaries of the block, and what is
remembered from there on. -/
def leaveBlock (m : Mutator E) : List (Temp E) × Mutator E :=
  match m.frames with
  | [] => ([], m)
  | f :: frames =>
    (f.temps, ⟨if f.temps.isEmpty then m.bf16Alias else fun _ => none, frames, m.nextId⟩)

end Mutator

variable (E) in
/-- A statement where the walk meets it, with what the pass remembers there. -/
structure Site : Type where
  memory : Mutator E
  stmt : Stmt E

variable (E) in
/-- The leaves of the legalized program: a block that is entered allocates the temporaries it
has gained, a statement is the emitted instead of the written one. -/
inductive Event : Type where
  | enter (temps : List (Temp E))
  | visit (s : Site E)

namespace Site

/-- What becomes of the statement. -/
def outcome (s : Site E) : Outcome E :=
  match s.stmt.call with
  | some call => (s.memory.visitCall call).1
  | none => .unchanged

/-- What the pass remembers after the statement. -/
def next (s : Site E) : Mutator E :=
  match s.stmt.call with
  | some call => (s.memory.visitCall call).2
  | none => s.memory

/-- The emitted instructions. -/
def emit (s : Site E) : List (Instr E) :=
  match s.stmt with
  | .binary op src0 src1 dst => s.outcome.instrs (.binary op src0.arg src1.arg dst.arg)
  | .unary op src dst => s.outcome.instrs (.unary op src.arg dst.arg)
  | .other _ srcs dst => [.call (srcs.map fun o => .kept o.arg) (.kept dst.arg)]

end Site

/-- The walk. -/
def walk : Prog (Stmt E) → Mutator E → Prog (Event E) × Mutator E
  | .skip, m => (.skip, m)
  | .leaf stmt, m => (.leaf (.visit ⟨m, stmt⟩), Site.next ⟨m, stmt⟩)
  | .seq p q, m =>
    let (p, m) := walk p m
    let (q, m) := walk q m
    (.seq p q, m)
  | .ite p q, m =>
    let (p, m) := walk p m
    let (q, m) := walk q m
    (.ite p q, m)
  | .loop p, m =>
    let (p, m) := walk p m
    (.loop p, m)
  | .block p, m =>
    let (p, m) := walk p m.enterBlock
    let (temps, m) := m.leaveBlock
    (.block (.seq (.leaf (.enter temps)) p), m)

/-- The mutator that `Substitute` starts with. -/
def Mutator.start : Mutator E := ⟨fun _ => none, [], 0⟩

/-- The legalized program. -/
def legalize (body : Prog (Stmt E)) : Prog (Event E) := (walk body Mutator.start).1

/-! ## Owners -/

/-- What is remembered stands for the owner. -/
structure Mutator.Remembers (owners : List ℕ) (m : Mutator E) : Prop where
  destinations : ∀ b t, m.bf16Alias b = some t → owners[t.id]? = some b
  sources : ∀ f ∈ m.frames, ∀ c ∈ f.casts, owners[c.temp.id]? = some c.srcBuffer

/-- The temporaries that were made are the ones with an owner. -/
structure Mutator.Owned (owners : List ℕ) (m : Mutator E) : Prop extends m.Remembers owners where
  nextId : m.nextId = owners.length

/-- A prepared source is the buffer, or a temporary of it. -/
structure PreparedRegion.SourceOf (owners : List ℕ) (p : PreparedRegion E) (b : Buffer E) : Prop where
  place : ∀ t, p.region.place = .temp t → owners[t.id]? = some b.id
  before : ∀ c ∈ p.before, b.isBF16 = true ∧ c.src.place = .buffer b ∧
    ∃ t, c.dst.place = .temp t ∧ owners[t.id]? = some b.id

/-- A prepared destination is the buffer, or a temporary of it that is cast back. -/
def PreparedRegion.DestinationOf (owners : List ℕ) (p : PreparedRegion E) (b : Buffer E) : Prop :=
  b.isBF16 = false ∧ p.region.place = .buffer b ∧ p.castBack = [] ∨
    b.isBF16 = true ∧ ∃ t c, p.region.place = .temp t ∧ owners[t.id]? = some b.id ∧
      p.castBack = [c] ∧ c.src.place = .temp t ∧ c.dst.place = .buffer b

/-- The operands of a rewritten statement are prepared. -/
def Outcome.Owned (owners : List ℕ) (stmt : Stmt E) : Outcome E → Prop
  | .unchanged => True
  | .rewritten p0 p1 pd =>
    match stmt with
    | .binary _ (.whole a) src1 (.whole d) =>
      p0.SourceOf owners a ∧ (∀ p, p1 = some p → ∃ b, src1 = .whole b ∧ p.SourceOf owners b) ∧
        pd.DestinationOf owners d
    | .unary _ (.whole a) (.whole d) =>
      p0.SourceOf owners a ∧ p1 = none ∧ pd.DestinationOf owners d
    | _ => False

section

variable {owners owners' : List ℕ} {m : Mutator E}

theorem owner_mono (h : owners <+: owners') {t b : ℕ} (ht : owners[t]? = some b) :
    owners'[t]? = some b := by
  obtain ⟨rest, rfl⟩ := h
  obtain ⟨hlt, -⟩ := List.getElem?_eq_some_iff.mp ht
  rwa [List.getElem?_append_left hlt]

omit [DecidableEq E] [Zero E] in
theorem PreparedRegion.SourceOf.mono (h : owners <+: owners') {p : PreparedRegion E} {b : Buffer E}
    (hp : p.SourceOf owners b) : p.SourceOf owners' b := by
  refine ⟨fun t ht => owner_mono h (hp.place t ht), fun c hc => ?_⟩
  obtain ⟨hbf16, hsrc, t, hdst, hown⟩ := hp.before c hc
  exact ⟨hbf16, hsrc, t, hdst, owner_mono h hown⟩

omit [DecidableEq E] [Zero E] in
theorem PreparedRegion.DestinationOf.mono (h : owners <+: owners') {p : PreparedRegion E}
    {b : Buffer E} (hp : p.DestinationOf owners b) : p.DestinationOf owners' b := by
  rcases hp with hp | ⟨hbf16, t, c, hplace, hown, hback⟩
  · exact .inl hp
  · exact .inr ⟨hbf16, t, c, hplace, owner_mono h hown, hback⟩

omit [DecidableEq E] [Zero E] in
theorem Outcome.Owned.mono (h : owners <+: owners') {stmt : Stmt E} {o : Outcome E}
    (ho : o.Owned owners stmt) : o.Owned owners' stmt := by
  cases o with
  | unchanged => trivial
  | rewritten p0 p1 pd =>
    match stmt, ho with
    | .binary _ (.whole a) src1 (.whole d), ⟨h0, h1, hd⟩ =>
      refine ⟨h0.mono h, fun p hp => ?_, hd.mono h⟩
      obtain ⟨b, hb, hsource⟩ := h1 p hp
      exact ⟨b, hb, hsource.mono h⟩
    | .unary _ (.whole a) (.whole d), ⟨h0, h1, hd⟩ => exact ⟨h0.mono h, h1, hd.mono h⟩

omit [DecidableEq E] [Zero E] in
theorem Mutator.Remembers.mono (h : owners <+: owners') (hm : m.Remembers owners) :
    m.Remembers owners' :=
  ⟨fun b t ht => owner_mono h (hm.destinations b t ht), fun f hf c hc => owner_mono h (hm.sources f hf c hc)⟩

theorem owner_self (owners : List ℕ) (b : ℕ) : (owners ++ [b])[owners.length]? = some b :=
  List.getElem?_concat_length

omit [DecidableEq E] [Zero E] in
/-- A new temporary may be given to any buffer. -/
theorem Mutator.Owned.createTempBuffer (h : m.Owned owners) (ranges : List (Range E))
    (scope : String) (b : ℕ) : (m.createTempBuffer ranges scope).2.Owned (owners ++ [b]) := by
  have hprefix : owners <+: owners ++ [b] := List.prefix_append ..
  refine ⟨⟨fun b' t ht => owner_mono hprefix (h.destinations b' t ht), fun f hf c hc => ?_⟩, ?_⟩
  · simp only [Mutator.createTempBuffer] at hf
    cases hframes : m.frames with
    | nil =>
      rw [hframes] at hf
      cases hf
    | cons g gs =>
      rw [hframes] at hf
      simp only [List.modifyHead_cons, List.mem_cons] at hf
      rcases hf with rfl | hf
      · exact owner_mono hprefix (h.sources g (by simp [hframes]) c hc)
      · exact owner_mono hprefix (h.sources f (by simp [hframes, hf]) c hc)
  · simp [Mutator.createTempBuffer, h.nextId]

omit [DecidableEq E] [Zero E] in
theorem Mutator.Owned.addCast (h : m.Owned owners) {c : CachedSourceCast E}
    (hc : owners[c.temp.id]? = some c.srcBuffer) :
    { m with frames := m.frames.modifyHead fun f => { f with casts := f.casts ++ [c] } }.Owned
      owners := by
  refine ⟨⟨h.destinations, fun f hf d hd => ?_⟩, h.nextId⟩
  cases hframes : m.frames with
  | nil =>
    simp only [hframes] at hf
    cases hf
  | cons g gs =>
    simp only [hframes, List.modifyHead_cons, List.mem_cons] at hf
    rcases hf with rfl | hf
    · rcases List.mem_append.mp hd with hd | hd
      · exact h.sources g (by simp [hframes]) d hd
      · rwa [List.mem_singleton.mp hd]
    · exact h.sources f (by simp [hframes, hf]) d hd

omit [DecidableEq E] [Zero E] in
theorem Mutator.Owned.setAlias (h : m.Owned owners) {b : ℕ} {t : Temp E}
    (ht : owners[t.id]? = some b) :
    { m with bf16Alias := Function.update m.bf16Alias b (some t) }.Owned owners := by
  refine ⟨⟨fun b' t' ht' => ?_, h.sources⟩, h.nextId⟩
  by_cases hb : b' = b
  · subst hb
    simp only [Function.update_self, Option.some.injEq] at ht'
    rwa [← ht']
  · simp only [Function.update_of_ne hb] at ht'
    exact h.destinations b' t' ht'

omit [Zero E] in
theorem Mutator.Owned.findCast (h : m.Owned owners) {r : Region E} {scope : String}
    {c : CachedSourceCast E} (hfind : m.findCast r scope = some c) :
    owners[c.temp.id]? = some r.buffer.id := by
  rw [← (findCast_key hfind).1]
  have hmem := List.mem_of_find?_eq_some hfind
  -- the casts of the innermost block are searched
  cases hframes : m.frames with
  | nil =>
    rw [hframes] at hmem
    cases hmem
  | cons f fs =>
    rw [hframes] at hmem
    exact h.sources f (by simp [hframes]) c hmem

/-- A source is read through a temporary it owns, which may be new. -/
theorem Mutator.Owned.prepareSourceRegion (h : m.Owned owners) (src : Region E) (scope : String) :
    ∃ owners', owners <+: owners' ∧ (m.prepareSourceRegion src scope).2.Owned owners' ∧
      (m.prepareSourceRegion src scope).1.SourceOf owners' src.buffer := by
  unfold Mutator.prepareSourceRegion
  cases halias : m.bf16Alias src.buffer.id with
  | some t =>
    refine ⟨owners, List.prefix_rfl, h, ?_, fun c hc => absurd hc List.not_mem_nil⟩
    intro t' ht'
    obtain rfl := Place.temp.inj ht'
    exact h.destinations _ _ halias
  | none =>
    dsimp only
    by_cases hbf16 : src.buffer.isBF16 = true
    · simp only [hbf16, Bool.not_true, Bool.false_eq_true, if_false]
      cases hfind : m.findCast src scope with
      | some c =>
        refine ⟨owners, List.prefix_rfl, h, ?_, fun c hc => absurd hc List.not_mem_nil⟩
        intro t ht
        obtain rfl := Place.temp.inj ht
        exact h.findCast hfind
      | none =>
        have hself := owner_self owners src.buffer.id
        rw [← h.nextId] at hself
        refine ⟨owners ++ [src.buffer.id], List.prefix_append ..,
          (h.createTempBuffer src.ranges scope src.buffer.id).addCast hself, ?_, ?_⟩
        · intro t ht
          obtain rfl := Place.temp.inj ht
          exact hself
        · intro c hc
          obtain rfl := List.mem_singleton.mp hc
          exact ⟨hbf16, rfl, _, rfl, hself⟩
    · simp only [hbf16, Bool.not_false, if_true]
      refine ⟨owners, List.prefix_rfl, h, ?_, fun c hc => absurd hc List.not_mem_nil⟩
      intro t ht
      cases ht

omit [DecidableEq E] in
/-- A bf16 destination is written through a temporary it owns, which may be new. -/
theorem Mutator.Owned.prepareDestinationRegion (h : m.Owned owners) (dst : Region E) :
    ∃ owners', owners <+: owners' ∧ (m.prepareDestinationRegion dst).2.Owned owners' ∧
      (m.prepareDestinationRegion dst).1.DestinationOf owners' dst.buffer := by
  unfold Mutator.prepareDestinationRegion
  dsimp only
  by_cases hbf16 : dst.buffer.isBF16 = true
  · simp only [hbf16, Bool.not_true, Bool.false_eq_true, if_false]
    cases halias : m.bf16Alias dst.buffer.id with
    | some t =>
      exact ⟨owners, List.prefix_rfl, h,
        .inr ⟨hbf16, t, _, rfl, h.destinations _ _ halias, rfl, rfl, rfl⟩⟩
    | none =>
      have hself := owner_self owners dst.buffer.id
      rw [← h.nextId] at hself
      exact ⟨owners ++ [dst.buffer.id], List.prefix_append ..,
        (h.createTempBuffer dst.ranges dst.buffer.scope dst.buffer.id).setAlias hself,
        .inr ⟨hbf16, _, _, rfl, hself, rfl, rfl, rfl⟩⟩
  · simp only [hbf16, Bool.not_false, if_true]
    exact ⟨owners, List.prefix_rfl, h, .inl ⟨by simpa using hbf16, rfl, rfl⟩⟩

/-- The operands of a statement are prepared for the buffers it names. -/
theorem Mutator.Owned.next (h : m.Owned owners) (stmt : Stmt E) :
    ∃ owners', owners <+: owners' ∧ (Site.next ⟨m, stmt⟩).Owned owners' ∧
      (Site.outcome ⟨m, stmt⟩).Owned owners' stmt := by
  have hunchanged : ∃ owners', owners <+: owners' ∧ m.Owned owners' ∧
      (Outcome.unchanged : Outcome E).Owned owners' stmt :=
    ⟨owners, List.prefix_rfl, h, trivial⟩
  unfold Site.next Site.outcome
  cases stmt with
  | other name srcs dst => exact hunchanged
  | binary op src0 src1 dst =>
    simp only [Stmt.call, Mutator.visitCall]
    split
    · exact hunchanged
    · match src0, dst with
      | .other e, _ => exact hunchanged
      | .whole a, .other e => exact hunchanged
      | .whole a, .whole d =>
        simp only [Operand.arg_whole, Mutator.processBinaryOp]
        split
        · exact hunchanged
        · obtain ⟨o₁, hp₁, hm₁, h0⟩ := h.prepareSourceRegion a.whole d.whole.buffer.scope
          obtain ⟨o₂, hp₂, hm₂, hd⟩ := hm₁.prepareDestinationRegion d.whole
          cases hsrc1 : src1.arg.bf16Region with
          | none =>
            refine ⟨o₂, hp₁.trans hp₂, hm₂, h0.mono hp₂, fun p hp => ?_, hd⟩
            cases hp
          | some r =>
            obtain ⟨o₃, hp₃, hm₃, h1⟩ := hm₂.prepareSourceRegion r d.whole.buffer.scope
            refine ⟨o₃, (hp₁.trans hp₂).trans hp₃, hm₃, h0.mono (hp₂.trans hp₃), fun p hp => ?_,
              hd.mono hp₃⟩
            obtain rfl := Option.some.inj hp
            cases src1 with
            | other e => cases hsrc1
            | whole b =>
              simp only [Operand.arg_whole, Arg.bf16Region] at hsrc1
              split at hsrc1
              · obtain rfl := Option.some.inj hsrc1
                exact ⟨b, rfl, h1⟩
              · cases hsrc1
  | unary op src dst =>
    simp only [Stmt.call, Mutator.visitCall]
    split
    · exact hunchanged
    · match src, dst with
      | .other e, _ => exact hunchanged
      | .whole a, .other e => exact hunchanged
      | .whole a, .whole d =>
        simp only [Operand.arg_whole, Mutator.processUnaryOp]
        split
        · exact hunchanged
        · obtain ⟨o₁, hp₁, hm₁, h0⟩ := h.prepareSourceRegion a.whole d.whole.buffer.scope
          obtain ⟨o₂, hp₂, hm₂, hd⟩ := hm₁.prepareDestinationRegion d.whole
          exact ⟨o₂, hp₁.trans hp₂, hm₂, h0.mono hp₂, rfl, hd⟩

omit [DecidableEq E] [Zero E] in
theorem Mutator.Owned.enterBlock (h : m.Owned owners) : m.enterBlock.Owned owners := by
  refine ⟨⟨h.destinations, fun f hf c hc => ?_⟩, h.nextId⟩
  rcases List.mem_cons.mp hf with rfl | hf
  · cases hc
  · exact h.sources f hf c hc

omit [DecidableEq E] [Zero E] in
theorem Mutator.Owned.leaveBlock (h : m.Owned owners) : m.leaveBlock.2.Owned owners := by
  unfold Mutator.leaveBlock
  cases hframes : m.frames with
  | nil => exact h
  | cons f fs =>
    refine ⟨⟨fun b t ht => ?_, fun g hg => h.sources g (by simp [hframes, hg])⟩, h.nextId⟩
    dsimp only at ht
    split at ht
    · exact h.destinations b t ht
    · cases ht

omit [DecidableEq E] [Zero E] in
theorem Mutator.start_owned : (Mutator.start : Mutator E).Owned [] :=
  ⟨⟨fun _ _ ht => (nomatch ht), fun _ hf => (nomatch hf)⟩, rfl⟩

/-- The operands of the statement are prepared for the buffers it names. -/
def Event.Owned (owners : List ℕ) : Event E → Prop
  | .enter _ => True
  | .visit s => s.outcome.Owned owners s.stmt

theorem Event.Owned.mono (h : owners <+: owners') {e : Event E} (he : e.Owned owners) :
    e.Owned owners' := by
  cases e with
  | enter temps => trivial
  | visit s => exact Outcome.Owned.mono h he

/-- The temporaries of a walk have owners. -/
theorem walk_owned (p : Prog (Stmt E)) :
    ∀ {m : Mutator E} {owners : List ℕ}, m.Owned owners →
      ∃ owners', owners <+: owners' ∧ (walk p m).2.Owned owners' ∧
        ∀ e ∈ (walk p m).1.leaves, e.Owned owners' := by
  induction p with
  | skip =>
    intro m owners h
    exact ⟨owners, List.prefix_rfl, h, fun _ he => nomatch he⟩
  | leaf stmt =>
    intro m owners h
    obtain ⟨owners', hprefix, hnext, houtcome⟩ := h.next stmt
    refine ⟨owners', hprefix, hnext, fun e he => ?_⟩
    obtain rfl := List.mem_singleton.mp he
    exact houtcome
  | seq p q ihp ihq =>
    intro m owners h
    obtain ⟨o₁, hp₁, hm₁, he₁⟩ := ihp h
    obtain ⟨o₂, hp₂, hm₂, he₂⟩ := ihq hm₁
    refine ⟨o₂, hp₁.trans hp₂, hm₂, fun e he => ?_⟩
    rcases List.mem_append.mp he with he | he
    · exact (he₁ e he).mono hp₂
    · exact he₂ e he
  | ite p q ihp ihq =>
    intro m owners h
    obtain ⟨o₁, hp₁, hm₁, he₁⟩ := ihp h
    obtain ⟨o₂, hp₂, hm₂, he₂⟩ := ihq hm₁
    refine ⟨o₂, hp₁.trans hp₂, hm₂, fun e he => ?_⟩
    rcases List.mem_append.mp he with he | he
    · exact (he₁ e he).mono hp₂
    · exact he₂ e he
  | loop p ih =>
    intro m owners h
    exact ih h
  | block p ih =>
    intro m owners h
    obtain ⟨o₁, hp₁, hm₁, he₁⟩ := ih h.enterBlock
    refine ⟨o₁, hp₁, hm₁.leaveBlock, fun e he => ?_⟩
    rcases List.mem_cons.mp he with rfl | he
    · trivial
    · exact he₁ e he

/-- The leaves of a legalized program have owners. -/
theorem legalize_owned (body : Prog (Stmt E)) :
    ∃ owners, ∀ e ∈ (legalize body).leaves, e.Owned owners := by
  obtain ⟨owners, -, -, hleaves⟩ := walk_owned body Mutator.start_owned
  exact ⟨owners, hleaves⟩

end

end TileLangNpuir.Bf16
