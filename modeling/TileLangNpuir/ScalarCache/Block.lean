import TileLangNpuir.ScalarCache.Transparent

/-!
# Blocks

From expressions to the statements of a block, and from there to whole blocks: for both code
generators, the calls of `MakeValue` return what the expressions mean exactly when the block is
steady. A store that changes what a remembered expression reads breaks it.
-/

namespace TileLangNpuir.ScalarCache

variable {C U V : Type} [Inhabited V]
variable {cfg : Codegen} {L : Lang C U V} {ρ : ℕ → V} {m₀ : Mem V}
variable {m : Mem V} {g g' : Gen C U V} {T : Remembered C U V}

/-! ## Statements -/

/-- An operation whose result is the new tensor of a buffer. -/
theorem Inv.emit_tensor (h : Inv cfg L ρ m₀ g m T) {b : ℕ} (hb : cfg.isTensor b = true)
    {i : Instr C U V} (hi : i.writes = false) {t : List ℤ → V}
    (ht : ((run L ρ m₀ g.instrs).step L ρ m₀ i).results
      = (run L ρ m₀ g.instrs).results ++ [.tensor t]) :
    Inv cfg L ρ m₀ { (g.emit i).2 with varMap := Function.update (g.emit i).2.varMap b (g.emit i).1 }
      (Function.update m b t) T := by
  have hl := emit_later h.wf i
  refine h.emit_of_mem i (setTensor_later h.wf b i).wf.tensor fun b' => ?_
  by_cases hbb : b' = b
  · subst hbb
    simp only [bufferSrc, hb, if_true, Function.update_self]
    exact congrArg Value.toTensor (val_emit g ht)
  · rw [Function.update_of_ne hbb, ← h.mem b']
    unfold bufferSrc
    split
    · simp only [Function.update_of_ne hbb]
      exact congrArg Value.toTensor (val_mono hl.pre (h.wf.tensor b'))
    · simp only [Machine.contents, Gen.emit, run_concat]
      rw [step_mem hi]

/-- An operation that writes to a memref. -/
theorem Inv.emit_memref (h : Inv cfg L ρ m₀ g m T) {b : ℕ} (hb : cfg.isTensor b = false)
    {i : Instr C U V} {t : List ℤ → V}
    (ht : ((run L ρ m₀ g.instrs).step L ρ m₀ i).mem
      = Function.update (run L ρ m₀ g.instrs).mem b t) :
    Inv cfg L ρ m₀ (g.emit i).2 (Function.update m b t) T := by
  have hl := emit_later h.wf i
  refine h.emit_of_mem i hl.wf.tensor fun b' => ?_
  have hmem : (run L ρ m₀ (g.emit i).2.instrs).mem
      = Function.update (run L ρ m₀ g.instrs).mem b t := by
    simp only [Gen.emit, run_concat]
    exact ht
  by_cases hbb : b' = b
  · subst hbb
    simp only [bufferSrc, hb, Machine.contents, Function.update_self]
    exact (congrFun hmem b').trans (Function.update_self _ _ _)
  · rw [Function.update_of_ne hbb, ← h.mem b']
    unfold bufferSrc
    split
    · exact congrArg Value.toTensor (val_mono hl.pre (h.wf.tensor b'))
    · exact (congrFun hmem b').trans (Function.update_of_ne hbb _ _)

/-- The operands of a tile operation. -/
theorem Inv.sources (h : Inv cfg L ρ m₀ g m T) (srcs : List ℕ) :
    (srcs.map (bufferSrc cfg g)).map ((run L ρ m₀ g.instrs).contents ρ m₀) = srcs.map m := by
  rw [List.map_map]
  exact List.map_congr_left fun b _ => h.mem b

variable [DecidableEq C] [DecidableEq U]

omit [Inhabited V] in
theorem callsOfStmt_bound (s : Stmt C U V) (h : g.Wf) :
    CallsBound (callsOfStmt cfg s g) (lowerStmt cfg s g).instrs.length := by
  cases s with
  | store b is e =>
    have he := (makeValue_later cfg e h).1
    have hi := makeIndices_later cfg is he.wf
    have hle : (makeIndices cfg is (makeValue cfg e g).2).2.instrs.length
        ≤ (lowerStmt cfg (.store b is e) g).instrs.length := by
      simp only [lowerStmt]
      split
      · exact (setTensor_later hi.wf b _).le
      · exact (emit_later hi.wf _).le
    rw [callsOfStmt, callsBound_append]
    exact ⟨(calls_bound cfg e h).mono (hi.le.trans hle),
      (callsOfIndices_bound cfg is he.wf).mono hle⟩
  | eval e => exact calls_bound cfg e h
  | tile dst srcs es f =>
    have hs := makeValues_later cfg es h
    refine (callsOfValues_bound cfg es h).mono ?_
    simp only [lowerStmt]
    split
    · exact (setTensor_later hs.wf dst _).le
    · exact (emit_later hs.wf _).le

/-- Lowering a statement: its calls are right exactly when it is steady, and then the block has
come to the memory after it. -/
theorem lowerStmt_spec (s : Stmt C U V) (h : Inv cfg L ρ m₀ g m T) :
    (Right L ρ m₀ m (lowerStmt cfg s g) (callsOfStmt cfg s g) ↔ s.Steady cfg.recheck L ρ m T) ∧
    (s.Steady cfg.recheck L ρ m T →
      Inv cfg L ρ m₀ (lowerStmt cfg s g) (s.exec L ρ m) (s.table cfg.recheck L ρ m T)) := by
  cases s with
  | store b is e =>
    obtain ⟨hre, hoke⟩ := makeValue_spec e h
    have hle := (makeValue_later cfg e h.wf).1
    have hli := makeIndices_later cfg is hle.wf
    have hl : Later (makeIndices cfg is (makeValue cfg e g).2).2 (lowerStmt cfg (.store b is e) g) := by
      simp only [lowerStmt]
      split
      · exact setTensor_later hli.wf b _
      · exact emit_later hli.wf _
    rw [callsOfStmt, right_append, right_later (hli.trans hl) (calls_bound cfg e h.wf), hre,
      right_later hl (callsOfIndices_bound cfg is hle.wf)]
    simp only [Stmt.Steady, Stmt.table, Stmt.exec]
    refine ⟨and_congr_right fun he => (makeIndices_spec is (hoke he).1).1, ?_⟩
    rintro ⟨he, his⟩
    obtain ⟨hinv, hidx⟩ := (makeIndices_spec is (hoke he).1).2 his
    have hval : ((makeIndices cfg is (makeValue cfg e g).2).2.val L ρ m₀ (makeValue cfg e g).1).toScalar
        = e.eval L ρ m := by
      rw [val_mono hli.pre (bound_of_val (hoke he).2), (hoke he).2]
      rfl
    have hmem := hinv.mem b
    rw [← hmem, ← hidx, ← hval]
    simp only [lowerStmt]
    cases hb : cfg.isTensor b with
    | true =>
      simp only [bufferSrc, hb, if_true]
      exact hinv.emit_tensor hb rfl rfl
    | false =>
      simp only [bufferSrc, hb]
      exact hinv.emit_memref hb rfl
  | eval e => exact ⟨(makeValue_spec e h).1, fun he => ((makeValue_spec e h).2 he).1⟩
  | tile dst srcs es f =>
    obtain ⟨hrs, hoks⟩ := makeValues_spec es h
    have hls := makeValues_later cfg es h.wf
    have hl : Later (makeValues cfg es g).2 (lowerStmt cfg (.tile dst srcs es f) g) := by
      simp only [lowerStmt]
      split
      · exact setTensor_later hls.wf dst _
      · exact emit_later hls.wf _
    rw [callsOfStmt, right_later hl (callsOfValues_bound cfg es h.wf), hrs]
    refine ⟨Iff.rfl, fun hs => ?_⟩
    simp only [Stmt.table, Stmt.exec]
    obtain ⟨hinv, hval⟩ := hoks hs
    rw [← hinv.sources srcs, ← hval]
    simp only [lowerStmt]
    cases hb : cfg.isTensor dst with
    | true =>
      simp only [if_true]
      exact hinv.emit_tensor hb rfl rfl
    | false => exact hinv.emit_memref hb rfl

/-! ## Blocks -/

/-- Every call of `MakeValue` in the rest of a block returns what its expression means in the
memory it stands in. -/
def RightFrom (cfg : Codegen) (L : Lang C U V) (ρ : ℕ → V) (m₀ : Mem V) (g : Gen C U V) (m : Mem V)
    (prog : List (Stmt C U V)) : Prop :=
  ∀ pre s post, prog = pre ++ s :: post →
    Right L ρ m₀ (execAll L ρ pre m) (lower cfg prog g) (callsOfStmt cfg s (lower cfg pre g))

theorem rightFrom_cons (s : Stmt C U V) (prog : List (Stmt C U V)) (h : g.Wf) :
    RightFrom cfg L ρ m₀ g m (s :: prog) ↔
      Right L ρ m₀ m (lowerStmt cfg s g) (callsOfStmt cfg s g) ∧
        RightFrom cfg L ρ m₀ (lowerStmt cfg s g) (s.exec L ρ m) prog := by
  have hfirst : Right L ρ m₀ m (lower cfg (s :: prog) g) (callsOfStmt cfg s g) ↔
      Right L ρ m₀ m (lowerStmt cfg s g) (callsOfStmt cfg s g) :=
    right_later (lower_later cfg prog (lowerStmt_later cfg s h).wf) (callsOfStmt_bound s h)
  constructor
  · intro hr
    refine ⟨hfirst.1 (hr [] s prog rfl), ?_⟩
    intro pre s' post heq
    exact hr (s :: pre) s' post (by rw [heq, List.cons_append])
  · rintro ⟨hs, hr⟩ pre s' post heq
    cases pre with
    | nil =>
      obtain ⟨rfl, rfl⟩ := List.cons.inj heq
      exact hfirst.2 hs
    | cons p pre =>
      rw [List.cons_append] at heq
      obtain ⟨rfl, rfl⟩ := List.cons.inj heq
      exact hr pre s' post rfl

theorem lower_spec (prog : List (Stmt C U V)) : ∀ {g : Gen C U V} {m : Mem V} {T : Remembered C U V},
    Inv cfg L ρ m₀ g m T →
    (RightFrom cfg L ρ m₀ g m prog ↔ SteadyProg cfg.recheck L ρ prog m T) ∧
    (SteadyProg cfg.recheck L ρ prog m T →
      ∃ T', Inv cfg L ρ m₀ (lower cfg prog g) (execAll L ρ prog m) T') := by
  induction prog with
  | nil =>
    intro g m T h
    refine ⟨iff_of_true ?_ trivial, fun _ => ⟨T, h⟩⟩
    intro pre s post heq
    exact absurd heq.symm (by simp)
  | cons s prog ih =>
    intro g m T h
    obtain ⟨hrs, hoks⟩ := lowerStmt_spec s h
    rw [rightFrom_cons s prog h.wf, hrs, SteadyProg]
    refine ⟨and_congr_right fun hs => (ih (hoks hs)).1, ?_⟩
    rintro ⟨hs, hprog⟩
    exact (ih (hoks hs)).2 hprog

/-- The value `MakeValue` returns denotes its expression, everywhere in a block. -/
def Transparent (cfg : Codegen) (L : Lang C U V) (ρ : ℕ → V) (m₀ : Mem V)
    (prog : List (Stmt C U V)) : Prop :=
  ∀ pre s post, prog = pre ++ s :: post →
    ∀ c ∈ callsOfStmt cfg s (lower cfg pre .start),
      (lower cfg prog .start).val L ρ m₀ c.2 = .scalar (c.1.eval L ρ (execAll L ρ pre m₀))

theorem transparent_iff_steady (prog : List (Stmt C U V)) :
    Transparent cfg L ρ m₀ prog ↔ Steady cfg.recheck L ρ m₀ prog :=
  (lower_spec prog Inv.start).1

theorem contents_of_steady (prog : List (Stmt C U V)) (h : Steady cfg.recheck L ρ m₀ prog) (b : ℕ) :
    (run L ρ m₀ (lower cfg prog .start).instrs).contents ρ m₀
      (bufferSrc cfg (lower cfg prog .start) b) = execAll L ρ prog m₀ b := by
  obtain ⟨T', hinv⟩ := (lower_spec prog Inv.start).2 h
  exact hinv.mem b

/-! ## The expert mode -/

/-- The operators with one operand in the expert mode. -/
inductive ApiOp : Type where
  | not
  deriving DecidableEq

/-- `CodeGenTileLangNPUIRAPI`: all buffers are memrefs. -/
def api : Codegen := ⟨false, fun _ => false⟩

/-- In the expert mode the operations give every expression its value and end in the memory of
the source exactly when no expression that is met again has changed, and every operation means
what its operator does on the operands it gets. -/
theorem api_transparent_iff (L : Lang C ApiOp V) (ρ : ℕ → V) (m₀ : Mem V)
    (prog : List (Stmt C ApiOp V)) :
    Transparent api L ρ m₀ prog ∧
        (run L ρ m₀ (lower api prog .start).instrs).mem = execAll L ρ prog m₀ ↔
      Steady api.recheck L ρ m₀ prog := by
  rw [transparent_iff_steady]
  refine ⟨fun h => h.1, fun h => ⟨h, funext fun b => ?_⟩⟩
  exact contents_of_steady prog h b

/-! ## The developer mode -/

/-- The operators with one operand in the developer mode. -/
inductive DevOp : Type where
  | not | exp | exp2 | log | log2
  deriving DecidableEq

/-- `CodeGenTileLangNPUIRDEV`. -/
def dev (isTensor : ℕ → Bool) : Codegen := ⟨true, isTensor⟩

/-- In the developer mode `MakeValue` returns what expressions mean exactly when no operator with
one operand that is met again has changed, and every operation means what its operator does on
the operands it gets. -/
theorem dev_transparent_iff (isTensor : ℕ → Bool) (L : Lang C DevOp V) (ρ : ℕ → V) (m₀ : Mem V)
    (prog : List (Stmt C DevOp V)) :
    Transparent (dev isTensor) L ρ m₀ prog ↔ Steady (dev isTensor).recheck L ρ m₀ prog :=
  transparent_iff_steady prog

/-! ## Integers -/

/-- The operators on integers. -/
def intBin (floorDiv floorMod : ℤ → ℤ → ℤ) : BinOp → TypeClass → ℤ → ℤ → ℤ
  | .add, _, x, y => x + y
  | .sub, _, x, y => x - y
  | .mul, _, x, y => x * y
  | .div, _, x, y => x.tdiv y
  | .floorDiv, _, x, y => floorDiv x y
  | .floorMod, _, x, y => floorMod x y
  | .mod, _, x, y => x.tmod y
  | .min, _, x, y => min x y
  | .max, _, x, y => max x y
  | .lt, _, x, y => if x < y then 1 else 0
  | .le, _, x, y => if x ≤ y then 1 else 0
  | .gt, _, x, y => if y < x then 1 else 0
  | .ge, _, x, y => if y ≤ x then 1 else 0
  | .eq, _, x, y => if x = y then 1 else 0
  | .ne, _, x, y => if x = y then 0 else 1
  | .and, _, x, y => if x = 0 then 0 else y
  | .or, _, x, y => if x = 0 then y else x

/-- Integers. `FloorDiv` and `FloorMod` become `DivSIOp` and `RemSIOp`, which round to zero. -/
def ints (un : U → ℤ → ℤ) : Lang ℤ U ℤ where
  const c := c
  index x := x
  src := ⟨un, intBin Int.fdiv Int.fmod⟩
  tgt := ⟨un, intBin Int.tdiv Int.tmod⟩

/-- `A[i]`, where `A` is buffer `b`. -/
def cell (b : ℕ) (i : ℤ) : Expr ℤ U := .load b (.cons (.imm i) .nil)

/-- `B[0] = A[0] + 1; A[0] = 5; B[1] = A[0] + 1`. -/
def addTwice : List (Stmt ℤ ApiOp ℤ) :=
  [.store 1 (.cons (.imm 0) .nil) (.bin .add .int (cell 0 0) (.imm 1)),
   .store 0 (.cons (.imm 0) .nil) (.imm 5),
   .store 1 (.cons (.imm 1) .nil) (.bin .add .int (cell 0 0) (.imm 1))]

/-- `B[0] = not A[0]; A[0] = 1; B[1] = not A[0]`. -/
def notTwice : List (Stmt ℤ DevOp ℤ) :=
  [.store 1 (.cons (.imm 0) .nil) (.un .not (cell 0 0)),
   .store 0 (.cons (.imm 0) .nil) (.imm 1),
   .store 1 (.cons (.imm 1) .nil) (.un .not (cell 0 0))]

/-- `not`, on 0 and 1. -/
def notInt (x : ℤ) : ℤ := if x = 0 then 1 else 0

/-- The second sum is the first one: it is 1 where the source has 6. -/
theorem addTwice_not_transparent :
    ¬ (Transparent api (ints fun _ => notInt) (fun _ => 0) (fun _ _ => 0) addTwice ∧
      (run (ints fun _ => notInt) (fun _ => 0) (fun _ _ => 0) (lower api addTwice .start).instrs).mem
        = execAll (ints fun _ => notInt) (fun _ => 0) addTwice fun _ _ => 0) := by
  rintro ⟨-, h⟩
  have hcell := congrFun (congrFun h 1) [1]
  revert hcell
  decide

/-- The second negation is the first one, though its operand is loaded from elsewhere. -/
theorem notTwice_not_transparent :
    ¬ Transparent (dev fun _ => true) (ints fun _ => notInt) (fun _ => 0) (fun _ _ => 0)
      notTwice := by
  intro h
  have hcall := h (notTwice.take 2) (.store 1 (.cons (.imm 1) .nil) (.un .not (cell 0 0))) [] rfl
    (.un .not (cell 0 0), .res 3) (by decide)
  have hscalar := congrArg Value.toScalar hcall
  revert hscalar
  decide

end TileLangNpuir.ScalarCache
