import TileLangNpuir.Codegen.Tir
import TileLangNpuir.Lib.CountedLoop
import Mathlib.Data.List.Forall2

/-!
# The MLIR the developer-mode generator emits

A small SSA language with the structured ops of the `scf` dialect, and two
meanings over one set of opaque tile operations: `Stmt.run` runs a TIR statement
on a store of buffer contents, `Mlir.exec` runs emitted code on SSA values. A
tensor value *is* its contents; a memref value only names the memory that holds
them.

`scf.for` is run on its `iter_args`: they start as the initial values, every
iteration ends by assigning them the yielded values, and the results are what
they hold at the end.
-/

namespace TileLangNpuir.Codegen

/-- What the program computes with: loop counters, conditions, and the opaque
effect of storing to a buffer and of each tile op. `tile op k` is the new
contents of the `k`-th destination of `op`, from the values of all operands. -/
structure Sem (V : Type) : Type where
  /-- the integer a scalar holds -/
  toInt : V → ℤ
  /-- an integer as a scalar -/
  ofInt : ℤ → V
  /-- the condition a scalar holds -/
  toBool : V → Bool
  /-- contents of a buffer nobody has written -/
  undef : Var → V
  /-- contents after storing a value at indices -/
  insert : V → V → List V → V
  /-- contents a tile op gives its `k`-th destination -/
  tile : TileOp → ℕ → List V → V
  toInt_ofInt : ∀ i, toInt (ofInt i) = i

/-- Emitted code. Numbers are SSA value identities. -/
inductive Mlir (V : Type) : Type where
  | nil
  | seq (a b : Mlir V)
  /-- a scalar computed from operands -/
  | eval (res : ℕ) (f : List V → V) (operands : List ℕ)
  /-- `arith.addi` -/
  | addi (res a b : ℕ)
  /-- `tensor.empty` for a buffer -/
  | empty (res : ℕ) (buf : Var)
  /-- `tensor.insert` -/
  | insert (res tensor value : ℕ) (indices : List ℕ)
  /-- `memref.store` -/
  | store (memref value : ℕ) (indices : List ℕ)
  /-- a tile op with tensor results -/
  | tile (res : List ℕ) (op : TileOp) (operands : List ℕ)
  /-- a tile op that writes a memref -/
  | inPlace (op : TileOp) (memref : ℕ) (operands : List ℕ)
  /-- `scf.for` -/
  | forOp (iv lb ub : ℕ) (inits iterArgs : List ℕ) (body : Mlir V)
      (yields results : List ℕ)
  /-- `scf.if` -/
  | ifOp (cond : ℕ) (thenCase : Mlir V) (thenYields : List ℕ) (elseCase : Mlir V)
      (elseYields results : List ℕ)

/-- A run-time value: data, or a reference to the memory of a buffer. -/
inductive MVal (V : Type) : Type where
  | data (x : V)
  | ref (buf : Var)

/-- The state of emitted code: SSA values and memory. -/
structure Machine (V : Type) : Type where
  /-- SSA values -/
  env : ℕ → MVal V
  /-- memory behind memrefs -/
  mem : Var → V

namespace Machine

variable {V : Type}

/-- The contents a value stands for. -/
def deref (m : Machine V) (id : ℕ) : V :=
  match m.env id with
  | .data x => x
  | .ref buf => m.mem buf

/-- Define one SSA value. -/
def define (m : Machine V) (id : ℕ) (x : MVal V) : Machine V :=
  { m with env := Function.update m.env id x }

/-- Define a list of SSA values, one after the other. -/
def defineAll (m : Machine V) : List (ℕ × MVal V) → Machine V
  | [] => m
  | p :: ps => (m.define p.1 p.2).defineAll ps

/-- Give `targets` the values of `sources`, all read before any is written. -/
def assign (m : Machine V) (targets sources : List ℕ) : Machine V :=
  m.defineAll (targets.zip (sources.map m.env))

/-- Write the memory of a buffer. -/
def write (m : Machine V) (buf : Var) (x : V) : Machine V :=
  { m with mem := Function.update m.mem buf x }

@[simp] theorem env_define_self (m : Machine V) (id : ℕ) (x : MVal V) :
    (m.define id x).env id = x :=
  Function.update_self _ _ _

theorem env_define_of_ne {m : Machine V} {id id' : ℕ} {x : MVal V} (h : id' ≠ id) :
    (m.define id x).env id' = m.env id' :=
  Function.update_of_ne h _ _

@[simp] theorem mem_define (m : Machine V) (id : ℕ) (x : MVal V) :
    (m.define id x).mem = m.mem := rfl

@[simp] theorem mem_defineAll (m : Machine V) (ps : List (ℕ × MVal V)) :
    (m.defineAll ps).mem = m.mem := by
  induction ps generalizing m with
  | nil => rfl
  | cons p ps ih => rw [defineAll, ih, mem_define]

theorem env_defineAll_of_notMem {ps : List (ℕ × MVal V)} :
    ∀ {m : Machine V} {id : ℕ}, id ∉ ps.map Prod.fst → (m.defineAll ps).env id = m.env id := by
  induction ps with
  | nil =>
    intro m id _
    rfl
  | cons p ps ih =>
    intro m id h
    rw [List.map_cons, List.mem_cons, not_or] at h
    rw [defineAll, ih h.2, env_define_of_ne h.1]

/-- Defining distinct values gives each of them what it was defined as. -/
theorem env_defineAll {ids : List ℕ} :
    ∀ {m : Machine V} {xs : List (MVal V)}, ids.Nodup → ids.length = xs.length →
      List.Forall₂ (fun id x => (m.defineAll (ids.zip xs)).env id = x) ids xs := by
  induction ids with
  | nil =>
    intro m xs _ hlen
    obtain rfl := List.length_eq_zero_iff.mp hlen.symm
    exact .nil
  | cons id ids ih =>
    intro m xs hnd hlen
    cases xs with
    | nil => cases hlen
    | cons x xs =>
      rw [List.nodup_cons] at hnd
      refine .cons ?_ (ih hnd.2 (Nat.succ.inj hlen))
      have hid : id ∉ (ids.zip xs).map Prod.fst := by
        rw [List.map_fst_zip (Nat.le_of_eq (Nat.succ.inj hlen))]
        exact hnd.1
      rw [List.zip_cons_cons, defineAll, env_defineAll_of_notMem hid, env_define_self]

@[simp] theorem mem_assign (m : Machine V) (targets sources : List ℕ) :
    (m.assign targets sources).mem = m.mem :=
  mem_defineAll _ _

theorem env_assign_of_notMem {m : Machine V} {targets sources : List ℕ} {id : ℕ}
    (h : id ∉ targets) : (m.assign targets sources).env id = m.env id := by
  refine env_defineAll_of_notMem fun hid => h ?_
  obtain ⟨p, hp, rfl⟩ := List.mem_map.mp hid
  exact (List.of_mem_zip hp).1

/-- An assignment copies each source to its target. -/
theorem env_assign {m : Machine V} {targets sources : List ℕ} (hnd : targets.Nodup)
    (hlen : targets.length = sources.length) :
    List.Forall₂ (fun t s => (m.assign targets sources).env t = m.env s) targets sources := by
  have hlen' : targets.length = (sources.map m.env).length := by rw [List.length_map, hlen]
  exact List.forall₂_map_right_iff.mp (env_defineAll hnd hlen')

theorem mem_write (m : Machine V) (buf : Var) (x : V) (v : Var) :
    (m.write buf x).mem v = if v = buf then x else m.mem v :=
  Function.update_apply _ _ _ _

end Machine

variable {V : Type}

/-- Run emitted code. -/
def Mlir.exec (S : Sem V) : Mlir V → Machine V → Machine V
  | .nil, m => m
  | .seq a b, m => b.exec S (a.exec S m)
  | .eval res f operands, m => m.define res (.data (f (operands.map m.deref)))
  | .addi res a b, m =>
    m.define res (.data (S.ofInt (S.toInt (m.deref a) + S.toInt (m.deref b))))
  | .empty res buf, m => m.define res (.data (S.undef buf))
  | .insert res tensor value indices, m =>
    m.define res (.data (S.insert (m.deref tensor) (m.deref value) (indices.map m.deref)))
  | .store memref value indices, m =>
    match m.env memref with
    | .ref buf => m.write buf (S.insert (m.mem buf) (m.deref value) (indices.map m.deref))
    | .data _ => m
  | .tile res op operands, m =>
    m.defineAll (res.zipIdx.map fun p =>
      (p.1, .data (S.tile op p.2 (operands.map m.deref))))
  | .inPlace op memref operands, m =>
    match m.env memref with
    | .ref buf => m.write buf (S.tile op 0 (operands.map m.deref))
    | .data _ => m
  | .forOp iv lb ub inits iterArgs body yields results, m =>
    let trips := (S.toInt (m.deref ub) - S.toInt (m.deref lb)).toNat
    let step (i : ℤ) (m : Machine V) : Machine V :=
      (body.exec S (m.define iv (.data (S.ofInt i)))).assign iterArgs yields
    (countLoop step trips (S.toInt (m.deref lb)) (m.assign iterArgs inits)).assign
      results iterArgs
  | .ifOp cond thenCase thenYields elseCase elseYields results, m =>
    if S.toBool (m.deref cond) then (thenCase.exec S m).assign results thenYields
    else (elseCase.exec S m).assign results elseYields

/-- Buffer contents and scalar values, by variable. -/
abbrev Store (V : Type) : Type := Var → V

/-- The value of a scalar expression. -/
def PrimExpr.value (e : PrimExpr V) (σ : Store V) : V := e.eval (e.vars.map σ)

/-- The operand values of one call argument: the buffer of a region and its
bounds, or the scalar. -/
def Arg.values (σ : Store V) : Arg V → List V
  | .region buf bounds => σ buf :: bounds.map fun e => e.value σ
  | .scalar e => [e.value σ]
  | .str _ => []

/-- The buffers a tile call updates, in the order of its results. -/
def TileOp.updates (op : TileOp) (args : List (Arg V)) : List Var :=
  buffersAt args <|
    match op, op.inPlaceArg? with
    | .copy, _ => [1]
    | _, some p => [p]
    | _, none => op.rebindArgs args.length

/-- Run a TIR statement imperatively. -/
def Stmt.run (S : Sem V) : Stmt V → Store V → Store V
  | .seq s t, σ => t.run S (s.run S σ)
  | .forLoop x min extent body, σ =>
    countLoop (fun i σ => body.run S (Function.update σ x (S.ofInt i)))
      (S.toInt (extent.value σ)).toNat (S.toInt (min.value σ)) σ
  | .ifThen cond thenCase, σ =>
    if S.toBool (cond.value σ) then thenCase.run S σ else σ
  | .ifThenElse cond thenCase elseCase, σ =>
    if S.toBool (cond.value σ) then thenCase.run S σ else elseCase.run S σ
  | .allocate buf _ body, σ => body.run S (Function.update σ buf (S.undef buf))
  | .letStmt x value body, σ => body.run S (Function.update σ x (value.value σ))
  | .bufferStore buf value indices, σ =>
    Function.update σ buf
      (S.insert (σ buf) (value.value σ) (indices.map fun e => e.value σ))
  | .evaluate op args, σ =>
    let vals := args.flatMap (Arg.values σ)
    (op.updates args).zipIdx.foldl
      (fun σ p => Function.update σ p.1 (S.tile op p.2 vals)) σ

end TileLangNpuir.Codegen
