import TileLangNpuir.LoopVectorize.Emission

/-!
# Floor division and modulo

`LoopDecompose` turns a floor division into one `Div` and a floor modulo into `Div`, `Mul` and
`Sub`, through two temporaries. What the last of these statements puts into the output is read
off here for every mix of scalar and vector operands (`decompose_floor`), whatever the operands
are decomposed into. The scalar lowering of the same two nodes in
`src/target/codegen_npuir_dev.cc` is `arith.divsi` and `arith.remsi`.
-/

namespace TileLangNpuir.LoopVectorize

variable {V : Type}

/-! ## Buffers that exist -/

section Created

variable {base : ℕ} {loops : List Loop} {S : Simplifier} {out : Access}

/-- The buffers of the program and the registered temporaries are older than the next one. -/
structure Emitter.Created (base : ℕ) (st : Emitter V) : Prop where
  base_le : base ≤ st.next
  tmpBufs : ∀ a ∈ st.tmpBufs, a.buffer.id < st.next

/-- A later state of the emitter. -/
structure Later (base : ℕ) (st st' : Emitter V) : Prop where
  created : st'.Created base
  next_le : st.next ≤ st'.next

/-- A resolved operand: a later state, and a buffer that exists there. -/
structure Resolved (base : ℕ) (st : Emitter V) (r : Option Access × Emitter V) : Prop
    extends Later base st r.2 where
  access : ∀ a, r.1 = some a → a.buffer.id < r.2.next

variable {st st₁ st₂ : Emitter V}

theorem Later.refl (h : st.Created base) : Later base st st := ⟨h, le_rfl⟩

theorem Later.trans (h : Later base st st₁) (h' : Later base st₁ st₂) : Later base st st₂ :=
  ⟨h'.created, h.next_le.trans h'.next_le⟩

theorem Later.stmt (h : Later base st st₁) (c : TileCall V) : Later base st (st₁.stmt c) :=
  ⟨⟨h.created.base_le, h.created.tmpBufs⟩, h.next_le⟩

/-- Registering a temporary that takes the next identities. -/
theorem Later.push (h : Later base st st₁) {st' : Emitter V} {a : Access}
    (hn : st₁.next ≤ st'.next) (ha : a.buffer.id < st'.next) (ht : st'.tmpBufs = st₁.tmpBufs) :
    Later base st (st'.pushTmp a) := by
  refine ⟨⟨h.created.base_le.trans hn, ?_⟩, h.next_le.trans hn⟩
  intro b hb
  rw [Emitter.pushTmp, ht] at hb
  rcases List.mem_append.mp hb with hb | hb
  · exact lt_of_lt_of_le (h.created.tmpBufs b hb) hn
  · obtain rfl := List.mem_singleton.mp hb
    exact ha

theorem Later.temp (h : Later base st st₁) (ref : Access) (t : DType) :
    Later base st (st₁.temp ref t).2 :=
  h.push (Nat.le_succ _) (Nat.lt_succ_self _) rfl

theorem Later.resultAccess (h : Later base st st₁) (depth : ℕ) (ref : Access) (t : DType) :
    Later base st (resultAccess depth out ref t st₁).2 := by
  rw [LoopVectorize.resultAccess]
  split
  · exact h.temp ref t
  · exact h

theorem emitReshapeAndBroadcast_next {buf : Buffer} {indices : List Index} {next : ℕ}
    {cs : List (TileCall V)} {a : Access} {n : ℕ}
    (hr : emitReshapeAndBroadcast loops buf indices out next = (cs, a, n)) :
    next ≤ n ∧ a.buffer.id < n := by
  rw [emitReshapeAndBroadcast] at hr
  split at hr
  · obtain ⟨-, rfl, rfl⟩ := by simpa only [Prod.mk.injEq] using hr
    exact ⟨by omega, Nat.lt_succ_self _⟩
  · obtain ⟨-, rfl, rfl⟩ := by simpa only [Prod.mk.injEq] using hr
    exact ⟨by omega, Nat.lt_succ_self _⟩

theorem resolveWith_resolved {e : Expr V} {decomp : Emitter V → Bool × Emitter V}
    (hdecomp : Later base st (decomp st).2) (hst : st.Created base)
    (hloads : ∀ l ∈ e.loads, l.1.id < base) :
    Resolved base st (resolveWith loops S out e decomp st) := by
  have hnone : Resolved base st (none, st) := ⟨.refl hst, nofun⟩
  unfold resolveWith
  split
  · exact hnone
  · split
    · -- a loop variable, or one that is not a loop variable
      split
      · exact ⟨(Later.refl hst).push (Nat.le_succ _) (Nat.lt_succ_self _) rfl, fun a ha => by
          obtain rfl := Option.some.inj ha
          exact Nat.lt_succ_self _⟩
      · exact hnone
    · rename_i buf indices _
      split
      · split
        · rename_i indices' _
          split
          · obtain ⟨cs, a, n, hc⟩ : ∃ cs a n, emitReshapeAndBroadcast (V := V) loops buf indices'
              out st.next = (cs, a, n) := ⟨_, _, _, rfl⟩
            obtain ⟨hn, ha⟩ := emitReshapeAndBroadcast_next hc
            rw [hc]
            refine ⟨(Later.refl hst).push hn ha rfl, fun a' ha' => ?_⟩
            obtain rfl := Option.some.inj ha'
            exact ha
          · refine ⟨.refl hst, fun a ha => ?_⟩
            obtain rfl := Option.some.inj ha
            exact lt_of_lt_of_le (hloads (buf, indices) List.mem_cons_self) hst.base_le
        · exact hnone
      · exact hnone
    · obtain ⟨b, st', hd⟩ : ∃ b st', decomp st = (b, st') := ⟨_, _, rfl⟩
      rw [hd] at hdecomp
      cases b with
      | true =>
        simp only [hd]
        exact ⟨hdecomp, fun a ha => hdecomp.created.tmpBufs a (List.mem_of_getLast? ha)⟩
      | false =>
        simp only [hd]
        exact ⟨hdecomp, nofun⟩

theorem handleUnary_later {op : UnaryOp} {a : Expr V} {depth : ℕ}
    {resolve : Emitter V → Option Access × Emitter V} (hst : st.Created base)
    (hresolve : Resolved base st (resolve st)) :
    Later base st (handleUnary out depth op a resolve st).2 := by
  rw [handleUnary]
  split
  · exact .refl hst
  · obtain ⟨ra, st₁, hr⟩ : ∃ ra st₁, resolve st = (ra, st₁) := ⟨_, _, rfl⟩
    rw [hr] at hresolve
    rw [hr]
    cases ra with
    | none => exact hresolve.toLater
    | some src => exact (hresolve.toLater.resultAccess depth src _).stmt _

theorem scalarArg_later {e : Expr V} {ref : Access} {t : DType} (h : Later base st st₁) :
    Later base st (scalarArg e ref t st₁).2 := by
  rw [scalarArg]
  split
  · exact h
  · exact (h.temp ref t).stmt _

theorem binaryArgs_later {op op₂ : BinaryOp} {a b : Expr V} {ra rb : Option Access} {t : DType}
    {argA argB : Arg V} {ref : Access} (h : Later base st st₁)
    (hargs : binaryArgs op a b ra rb t st₁ = some (op₂, argA, argB, ref, st₂)) :
    Later base st st₂ := by
  rcases ra with _ | x <;> rcases rb with _ | y
  · cases hargs
  · rw [binaryArgs] at hargs
    split at hargs
    · cases hargs
      exact h
    · cases hargs
      exact scalarArg_later h
  · cases hargs
    exact scalarArg_later h
  · cases hargs
    exact h

theorem handleBinary_later {op : BinaryOp} {a b : Expr V} {depth : ℕ}
    {resolveA resolveB : Emitter V → Option Access × Emitter V} (hst : st.Created base)
    (hA : Resolved base st (resolveA st))
    (hB : ∀ st₁ : Emitter V, st₁.Created base → Resolved base st₁ (resolveB st₁)) :
    Later base st (handleBinary out depth op a b resolveA resolveB st).2 := by
  rw [handleBinary]
  split
  · obtain ⟨ra, st₁, hra⟩ : ∃ ra st₁, resolveA st = (ra, st₁) := ⟨_, _, rfl⟩
    obtain ⟨rb, st₂, hrb⟩ : ∃ rb st₂, resolveB st₁ = (rb, st₂) := ⟨_, _, rfl⟩
    rw [hra] at hA
    have hB₁ := hB st₁ hA.created
    rw [hrb] at hB₁
    have hlater : Later base st st₂ := hA.toLater.trans hB₁.toLater
    simp only [hra, hrb]
    split
    · exact hlater
    · rename_i op₂ argA argB ref st₃ hargs
      have hlater₃ := binaryArgs_later hlater hargs
      split
      · apply Later.stmt
        apply Later.resultAccess
        exact ((((hlater₃.temp _ _).stmt _).temp _ _).stmt _)
      · exact (hlater₃.resultAccess depth ref _).stmt _
  · exact .refl hst

theorem resolveTernaryOperand_resolved (loops : List Loop) (out : Access) (e : Expr V) (t : DType)
    {resolve : Emitter V → Option Access × Emitter V} (hst : st.Created base)
    (hresolve : Resolved base st (resolve st)) :
    Resolved base st (resolveTernaryOperand loops out e resolve t st) := by
  rw [resolveTernaryOperand]
  split
  · refine ⟨((Later.refl hst).temp out t).stmt _, fun a ha => ?_⟩
    obtain rfl := Option.some.inj ha
    exact Nat.lt_succ_self _
  · obtain ⟨ra, st₁, hr⟩ : ∃ ra st₁, resolve st = (ra, st₁) := ⟨_, _, rfl⟩
    rw [hr] at hresolve
    rw [hr]
    cases ra with
    | some a => exact hresolve
    | none =>
      simp only
      split
      · exact ⟨hresolve.toLater, nofun⟩
      · have htemp := hresolve.toLater.temp out t
        refine ⟨⟨⟨htemp.created.base_le, htemp.created.tmpBufs⟩, htemp.next_le⟩, fun a ha => ?_⟩
        obtain rfl := Option.some.inj ha
        exact Nat.lt_succ_self _

theorem handleTernary_later {c t f : Expr V}
    {resolveC resolveT resolveF : Emitter V → Option Access × Emitter V} (hst : st.Created base)
    (hC : Resolved base st (resolveC st))
    (hT : ∀ st₁ : Emitter V, st₁.Created base → Resolved base st₁ (resolveT st₁))
    (hF : ∀ st₁ : Emitter V, st₁.Created base → Resolved base st₁ (resolveF st₁)) :
    Later base st (handleTernary loops out c t f resolveC resolveT resolveF st).2 := by
  obtain ⟨rc, st₁, hrc⟩ : ∃ rc st₁,
      resolveTernaryOperand loops out c resolveC .bool st = (rc, st₁) := ⟨_, _, rfl⟩
  obtain ⟨rt, st₂, hrt⟩ : ∃ rt st₂,
      resolveTernaryOperand loops out t resolveT out.buffer.dtype st₁ = (rt, st₂) := ⟨_, _, rfl⟩
  obtain ⟨rf, st₃, hrf⟩ : ∃ rf st₃,
      resolveTernaryOperand loops out f resolveF out.buffer.dtype st₂ = (rf, st₃) := ⟨_, _, rfl⟩
  have h₁ := (resolveTernaryOperand_resolved loops out c .bool hst hC).toLater
  rw [hrc] at h₁
  have h₂ := (resolveTernaryOperand_resolved loops out t out.buffer.dtype h₁.created
    (hT st₁ h₁.created)).toLater
  rw [hrt] at h₂
  have h₃ := (resolveTernaryOperand_resolved loops out f out.buffer.dtype h₂.created
    (hF st₂ h₂.created)).toLater
  rw [hrf] at h₃
  have hlater : Later base st st₃ := (h₁.trans h₂).trans h₃
  simp only [handleTernary, hrc, hrt, hrf]
  split
  · exact hlater.stmt _
  · exact hlater

/-- Decomposing an expression only adds buffers. -/
theorem decompose_later {e : Expr V} {depth : ℕ} (hloads : ∀ l ∈ e.loads, l.1.id < base)
    (hst : st.Created base) : Later base st (decompose loops S out depth e st).2 := by
  induction e generalizing depth st with
  | imm x t => exact (Later.refl hst).stmt _
  | load buf indices => exact (Later.refl hst).stmt _
  | var x =>
    rw [decompose]
    have h : Resolved base st (resolveWith loops S out (.var x) (fun st => (false, st)) st) :=
      resolveWith_resolved (Later.refl hst) hst nofun
    revert h
    generalize resolveWith loops S out (.var x) (fun st => (false, st)) st = r
    obtain ⟨ra, st₁⟩ := r
    intro h
    cases ra with
    | none => exact h.toLater
    | some src => exact h.toLater.stmt _
  | unary op a ih =>
    rw [decompose]
    exact handleUnary_later hst (resolveWith_resolved (ih hloads hst) hst hloads)
  | binary op a b iha ihb =>
    simp only [Expr.loads, List.mem_append] at hloads
    have hla : ∀ l ∈ a.loads, l.1.id < base := fun l hl => hloads l (.inl hl)
    have hlb : ∀ l ∈ b.loads, l.1.id < base := fun l hl => hloads l (.inr hl)
    rw [decompose]
    exact handleBinary_later hst (resolveWith_resolved (iha hla hst) hst hla)
      fun st₁ h₁ => resolveWith_resolved (ihb hlb h₁) h₁ hlb
  | ifThenElse c t f ihc iht ihf =>
    simp only [Expr.loads, List.mem_append] at hloads
    have hlc : ∀ l ∈ c.loads, l.1.id < base := fun l hl => hloads l (.inl (.inl hl))
    have hlt : ∀ l ∈ t.loads, l.1.id < base := fun l hl => hloads l (.inl (.inr hl))
    have hlf : ∀ l ∈ f.loads, l.1.id < base := fun l hl => hloads l (.inr hl)
    rw [decompose]
    exact handleTernary_later hst (resolveWith_resolved (ihc hlc hst) hst hlc)
      (fun st₁ h₁ => resolveWith_resolved (iht hlt h₁) h₁ hlt)
      fun st₁ h₁ => resolveWith_resolved (ihf hlf h₁) h₁ hlf
  | other t xs ls g => exact .refl hst

theorem resolveOperand_resolved {e : Expr V} {depth : ℕ} (hloads : ∀ l ∈ e.loads, l.1.id < base)
    (hst : st.Created base) : Resolved base st (resolveOperand loops S out depth e st) :=
  resolveWith_resolved (decompose_later hloads hst) hst hloads

end Created

/-! ## What the statements store -/

section Values

variable {base : ℕ} {loops : List Loop} {S : Simplifier} {out : Access} {A : Alg V} {env : Env V}
  {m : Mem V} {st st₁ st₂ : Emitter V} {arg : Arg V} {v : V}

/-- The operand is worth `v` after the statements emitted so far, and stays so: it reads nothing
that is still to be created. -/
structure Holds (A : Alg V) (env : Env V) (m : Mem V) (st : Emitter V) (arg : Arg V) (v : V) :
    Prop where
  reads : ∀ b ∈ arg.reads, b < st.next
  read : ∀ p, arg.read A env (execAll A env st.stmts m) p = v

/-- What an operand is worth: the element of its access, or the scalar itself. -/
def operandValue (A : Alg V) (env : Env V) (m : Mem V) (e : Expr V) : Option Access → V
  | some x => A.load env m x.buffer x.indices
  | none => e.eval A env m

theorem execAll_temp_stmt {ref : Access} {t : DType} (c : TileCall V) :
    execAll A env ((st.temp ref t).2.stmt c).stmts m = c.exec A env (execAll A env st.stmts m) := by
  change execAll A env (st.stmts ++ [c]) m = _
  rw [execAll_append]
  rfl

/-- A statement that fills a new temporary. -/
theorem holds_temp {ref : Access} {t : DType} {c : TileCall V}
    (hdst : c.dst = buildRegionCall (st.temp ref t).1)
    (hv : ∀ p, c.value A env (execAll A env st.stmts m) p = v) :
    Holds A env m ((st.temp ref t).2.stmt c) (.region (buildRegionCall (st.temp ref t).1)) v := by
  refine ⟨fun b hb => ?_, fun p => ?_⟩
  · obtain rfl := List.mem_singleton.mp hb
    exact Nat.lt_succ_self _
  · rw [execAll_temp_stmt, exec_single hdst hv, read_single, Alg.load, storeAt, if_pos ⟨rfl, rfl⟩]

theorem Holds.temp_stmt (h : Holds A env m st arg v) {ref : Access} {t : DType} {c : TileCall V}
    (hdst : c.dst = buildRegionCall (st.temp ref t).1) :
    Holds A env m ((st.temp ref t).2.stmt c) arg v := by
  refine ⟨fun b hb => Nat.lt_succ_of_lt (h.reads b hb), fun p => ?_⟩
  rw [execAll_temp_stmt, ← h.read p]
  refine Arg.read_congr (fun _ _ => rfl) fun b hb => TileCall.exec_of_ne ?_
  rw [hdst]
  exact Nat.ne_of_lt (h.reads b hb)

theorem holds_access {x : Access} {e : Expr V} (hx : x.buffer.id < st.next) :
    Holds A env m st (.region (buildRegionCall x))
      (operandValue A env (execAll A env st.stmts m) e (some x)) := by
  refine ⟨fun b hb => ?_, fun p => read_single⟩
  obtain rfl := List.mem_singleton.mp hb
  exact hx

theorem scalarArg_holds {e : Expr V} {ref : Access} {t : DType}
    (hloads : ∀ l ∈ e.loads, l.1.id < st.next) :
    Holds A env m (scalarArg e ref t st).2 (scalarArg e ref t st).1
      (operandValue A env (execAll A env st.stmts m) e none) := by
  rw [scalarArg]
  split
  · refine ⟨fun b hb => ?_, fun p => rfl⟩
    obtain ⟨l, hl, rfl⟩ := List.mem_map.mp hb
    exact hloads l hl
  · exact holds_temp rfl fun p => rfl

theorem Holds.scalarArg (h : Holds A env m st arg v) {e : Expr V} {ref : Access} {t : DType} :
    Holds A env m (scalarArg e ref t st).2 arg v := by
  rw [LoopVectorize.scalarArg]
  split
  · exact h
  · exact h.temp_stmt rfl

variable (A env m) in
/-- Both operands of the emitted call have their values, on whichever side a scalar is. -/
theorem binaryArgs_holds {op op₂ : BinaryOp} {a b : Expr V} {ra rb : Option Access} {t : DType}
    {argA argB : Arg V} {ref : Access} (hswap : swapsOperands op = false)
    (hra : ∀ x, ra = some x → x.buffer.id < st.next)
    (hrb : ∀ y, rb = some y → y.buffer.id < st.next)
    (hla : ∀ l ∈ a.loads, l.1.id < st.next) (hlb : ∀ l ∈ b.loads, l.1.id < st.next)
    (hargs : binaryArgs op a b ra rb t st = some (op₂, argA, argB, ref, st₁)) :
    op₂ = op ∧
      Holds A env m st₁ argA (operandValue A env (execAll A env st.stmts m) a ra) ∧
      Holds A env m st₁ argB (operandValue A env (execAll A env st.stmts m) b rb) := by
  rcases ra with _ | x <;> rcases rb with _ | y
  · cases hargs
  · rw [binaryArgs, if_neg (by simp [hswap])] at hargs
    cases hargs
    exact ⟨rfl, scalarArg_holds hla, (holds_access (hrb _ rfl)).scalarArg⟩
  · cases hargs
    exact ⟨rfl, (holds_access (hra _ rfl)).scalarArg, scalarArg_holds hlb⟩
  · cases hargs
    exact ⟨rfl, holds_access (hra _ rfl), holds_access (hrb _ rfl)⟩

/-- Where the value of an expression is: in the output at the top, else in the last temporary. -/
def resultOf (depth : ℕ) (out : Access) (st : Emitter V) : Option Access :=
  if 0 < depth then st.tmpBufs.getLast? else some out

/-- The last statement of a handler stores its value where the result is. -/
theorem resultAccess_stores {depth : ℕ} {ref : Access} {t : DType} (call : Region → TileCall V)
    (hdst : ∀ r, (call r).dst = r)
    (hv : ∀ r p, (call r).value A env (execAll A env st.stmts m) p = v) :
    ∃ r, resultOf depth out ((resultAccess (depth + 1) out ref t st).2.stmt
        (call (buildRegionCall (resultAccess (depth + 1) out ref t st).1))) = some r ∧
      A.load env (execAll A env ((resultAccess (depth + 1) out ref t st).2.stmt
        (call (buildRegionCall (resultAccess (depth + 1) out ref t st).1))).stmts m)
        r.buffer r.indices = v := by
  rw [resultAccess, resultOf]
  by_cases hdepth : 0 < depth
  · rw [if_pos hdepth, if_pos (Nat.succ_lt_succ hdepth)]
    refine ⟨(st.temp ref t).1, ?_, ?_⟩
    · exact List.getLast?_concat
    · rw [execAll_temp_stmt, exec_single (hdst _) (hv _), Alg.load, storeAt, if_pos ⟨rfl, rfl⟩]
  · rw [if_neg hdepth, if_neg (by omega)]
    refine ⟨out, rfl, ?_⟩
    change A.load env (execAll A env (st.stmts ++ [call (buildRegionCall out)]) m) _ _ = v
    rw [execAll_append]
    change A.load env ((call (buildRegionCall out)).exec A env _) _ _ = v
    rw [exec_single (hdst _) (hv _), Alg.load, storeAt, if_pos ⟨rfl, rfl⟩]

/-- What is emitted for a floor operator, on the values of its operands. -/
def floorSequence (A : Alg V) (op : BinaryOp) (x y : V) : V :=
  if op = .floorMod then A.binary .sub x (A.binary .mul (A.binary .div x y) y)
  else A.binary .div x y

variable (A env m) in
/-- The statements for a floor operator, at any depth and for any operands. -/
theorem decompose_floor {op : BinaryOp} (hop : op = .floorDiv ∨ op = .floorMod) {a b : Expr V}
    {depth : ℕ} {st' : Emitter V} {ra rb : Option Access} (hst : st.Created base)
    (hloads : ∀ l ∈ (Expr.binary op a b).loads, l.1.id < base)
    (hra : resolveOperand loops S out (depth + 1) a st = (ra, st₁))
    (hrb : resolveOperand loops S out (depth + 1) b st₁ = (rb, st₂))
    (h : decompose loops S out depth (.binary op a b) st = (true, st')) :
    ∃ r, resultOf depth out st' = some r ∧
      A.load env (execAll A env st'.stmts m) r.buffer r.indices =
        floorSequence A op (operandValue A env (execAll A env st₂.stmts m) a ra)
          (operandValue A env (execAll A env st₂.stmts m) b rb) := by
  simp only [Expr.loads, List.mem_append] at hloads
  have hA : Resolved base st (resolveOperand loops S out (depth + 1) a st) :=
    resolveOperand_resolved (fun l hl => hloads l (.inl hl)) hst
  rw [hra] at hA
  have hB : Resolved base st₁ (resolveOperand loops S out (depth + 1) b st₁) :=
    resolveOperand_resolved (fun l hl => hloads l (.inr hl)) hA.created
  rw [hrb] at hB
  rw [resolveOperand] at hra hrb
  rw [decompose, handleBinary] at h
  split at h
  case isFalse => cases h
  case isTrue =>
    simp only [hra, hrb] at h
    split at h
    case h_1 => cases h
    case h_2 op₂ argA argB ref st₃ hargs =>
      -- the operator that is looked at is `Div` or `FloorMod`; neither swaps its operands
      have hswap : swapsOperands (if op = .floorDiv then .div else op) = false := by
        rcases hop with rfl | rfl <;> rfl
      have hold : ∀ {n : ℕ}, n < base → n < st₂.next :=
        fun hn => lt_of_lt_of_le hn hB.created.base_le
      obtain ⟨rfl, hholdA, hholdB⟩ := binaryArgs_holds A env m hswap
        (fun x hx => lt_of_lt_of_le (hA.access x hx) hB.next_le) hB.access
        (fun l hl => hold (hloads l (.inl hl))) (fun l hl => hold (hloads l (.inr hl))) hargs
      rcases hop with rfl | rfl
      · simp only [reduceCtorEq, if_false] at h
        obtain ⟨-, rfl⟩ := Prod.mk.inj h
        refine resultAccess_stores (fun r => .binary .div argA argB r) (fun _ => rfl)
          fun r p => ?_
        rw [TileCall.value, hholdA.read, hholdB.read]
        rfl
      · simp only [if_true] at h
        generalize inferBinaryComputeDType _ _ _ _ _ = t at h
        obtain ⟨-, rfl⟩ := Prod.mk.inj h
        -- the quotient and the product are new temporaries, so the operands keep their values
        have hquotient : Holds A env m
            ((st₃.temp ref t).2.stmt (.binary .div argA argB (buildRegionCall (st₃.temp ref t).1)))
            (.region (buildRegionCall (st₃.temp ref t).1)) _ :=
          holds_temp rfl fun p => by rw [TileCall.value, hholdA.read, hholdB.read]
        have hholdA₄ : Holds A env m
            ((st₃.temp ref t).2.stmt (.binary .div argA argB (buildRegionCall (st₃.temp ref t).1)))
            argA _ := hholdA.temp_stmt rfl
        have hholdB₄ : Holds A env m
            ((st₃.temp ref t).2.stmt (.binary .div argA argB (buildRegionCall (st₃.temp ref t).1)))
            argB _ := hholdB.temp_stmt rfl
        generalize (st₃.temp ref t).2.stmt _ = st₄ at hquotient hholdA₄ hholdB₄ ⊢
        have hproduct : Holds A env m
            ((st₄.temp ref t).2.stmt (.binary .mul (.region (buildRegionCall (st₃.temp ref t).1)) argB
              (buildRegionCall (st₄.temp ref t).1)))
            (.region (buildRegionCall (st₄.temp ref t).1)) _ :=
          holds_temp rfl fun p => by rw [TileCall.value, hquotient.read, hholdB₄.read]
        refine resultAccess_stores
          (fun r => .binary .sub argA (.region (buildRegionCall (st₄.temp ref t).1)) r)
          (fun _ => rfl) fun r p => ?_
        rw [TileCall.value, hproduct.read, (hholdA₄.temp_stmt rfl).read]
        rfl

end Values

/-! ## 64-bit integers -/

/-- The signed 64-bit integers. -/
def InInt64 (x : ℤ) : Prop := -2 ^ 63 ≤ x ∧ x < 2 ^ 63

/-- The signed 64-bit integer that is congruent to `x`. -/
def wrap64 (x : ℤ) : ℤ := Int.bmod x (2 ^ 64)

theorem wrap64_of_inInt64 {x : ℤ} (h : InInt64 x) : wrap64 x = x := by
  obtain ⟨hlo, hhi⟩ := h
  refine Int.bmod_eq_of_le_mul_two ?_ ?_
  · norm_num at hlo ⊢
    omega
  · norm_num at hhi ⊢
    omega

/-- Signed 64-bit arithmetic. `vdiv` truncates toward zero; the floor operators are what the
program asks for. -/
def int64Alg : Alg ℤ where
  unary := intAlg.unary
  binary
    | .add, a, b => wrap64 (a + b)
    | .mul, a, b => wrap64 (a * b)
    | .sub, a, b => wrap64 (a - b)
    | .div, a, b => wrap64 (a.tdiv b)
    | op, a, b => intAlg.binary op a b
  select := intAlg.select
  ofInt := id
  toInt := id
  toInt_ofInt := @id_eq ℤ
  add_comm a b := congrArg wrap64 (Int.add_comm a b)
  mul_comm a b := congrArg wrap64 (Int.mul_comm a b)
  min_comm := intAlg.min_comm
  max_comm := intAlg.max_comm
  eq_comm := intAlg.eq_comm
  ne_comm := intAlg.ne_comm
  lt_swap := intAlg.lt_swap
  le_swap := intAlg.le_swap

/-- The `arith` operations a floor operator is lowered to. -/
inductive ArithOp : Type where
  | divSI | remSI | divF | remF
  deriving DecidableEq

/-- `VisitExpr_(const FloorDivNode *)`; no operation is made for the other types. -/
def visitFloorDiv (t : DType) : Option ArithOp :=
  if t.code = .int ∨ t.code = .uint then some .divSI
  else if t.isFloat then some .divF
  else none

/-- `VisitExpr_(const FloorModNode *)`. -/
def visitFloorMod (t : DType) : Option ArithOp :=
  if t.code = .int ∨ t.code = .uint then some .remSI
  else if t.isFloat then some .remF
  else none

/-- The integer operations on 64 bits: the quotient is truncated, the remainder takes the sign of
the dividend. -/
def ArithOp.eval64 : ArithOp → ℤ → ℤ → Option ℤ
  | divSI, a, b => some (wrap64 (a.tdiv b))
  | remSI, a, b => some (wrap64 (a.tmod b))
  | divF, _, _ => none
  | remF, _, _ => none

/-- The scalar lowering of a floor operator on 64-bit integers. -/
def scalarFloor (op : BinaryOp) (a b : ℤ) : Option ℤ :=
  (if op = .floorMod then visitFloorMod ⟨.int, 64⟩ else visitFloorDiv ⟨.int, 64⟩).bind
    fun o => o.eval64 a b

/-- The quotient rounded down, and the remainder that goes with it. -/
def floorValue (op : BinaryOp) (a b : ℤ) : ℤ :=
  if op = .floorMod then a - b * a.fdiv b else a.fdiv b

section

variable {a b : ℤ}

theorem tdiv_eq_fdiv_iff (hb : b ≠ 0) : a.tdiv b = a.fdiv b ↔ b ∣ a ∨ (0 ≤ a ↔ 0 ≤ b) := by
  rw [Int.fdiv_eq_tdiv]
  by_cases hdvd : b ∣ a
  · simp [hdvd]
  · rcases lt_or_gt_of_ne hb with hneg | hpos
    · have hsign := Int.sign_eq_neg_one_of_neg hneg
      by_cases ha : 0 ≤ a
      · simp [hdvd, ha, not_le.mpr hneg]
        omega
      · simp [hdvd, ha, not_le.mpr hneg, hsign]
    · have hsign := Int.sign_eq_one_of_pos hpos
      by_cases ha : 0 ≤ a
      · simp [hdvd, ha, hpos.le]
      · simp [hdvd, ha, hpos.le, hsign]
        omega

theorem inInt64_tdiv (ha : InInt64 a) (hb : b ≠ 0) (hover : ¬(a = -2 ^ 63 ∧ b = -1)) :
    InInt64 (a.tdiv b) := by
  have hle := Int.natAbs_tdiv_le_natAbs a b
  by_cases htwo : 2 ≤ b.natAbs
  · have hhalf : (a.tdiv b).natAbs ≤ a.natAbs / 2 := by
      rw [Int.natAbs_tdiv]
      exact Nat.div_le_div_left htwo Nat.two_pos
    simp only [InInt64] at ha ⊢
    omega
  · obtain rfl | rfl : b = 1 ∨ b = -1 := by omega
    · rwa [Int.tdiv_one]
    · have hneg : a.tdiv (-1) = -a := by rw [Int.tdiv_neg, Int.tdiv_one]
      have hmin : a ≠ -2 ^ 63 := fun h => hover ⟨h, rfl⟩
      obtain ⟨hlo, hhi⟩ := ha
      rw [hneg]
      exact ⟨by omega, by omega⟩

/-- The remainder lies between zero and the dividend. -/
theorem tmod_between (a b : ℤ) : (0 ≤ a ∧ 0 ≤ a.tmod b ∧ a.tmod b ≤ a) ∨
    (a ≤ 0 ∧ a ≤ a.tmod b ∧ a.tmod b ≤ 0) := by
  have habs : (a.tmod b).natAbs ≤ a.natAbs := by
    rw [Int.natAbs_tmod]
    exact Nat.mod_le _ _
  rcases le_total 0 a with ha | ha
  · have := Int.tmod_nonneg b ha
    exact .inl ⟨ha, this, by omega⟩
  · have hneg := Int.tmod_nonneg b (Int.neg_nonneg_of_nonpos ha)
    rw [Int.neg_tmod] at hneg
    exact .inr ⟨ha, by omega, by omega⟩

/-- Without overflow the sequence leaves the truncated quotient and its remainder. -/
theorem floorSequence_int64 {op : BinaryOp} (ha : InInt64 a) (hb : b ≠ 0)
    (hover : ¬(a = -2 ^ 63 ∧ b = -1)) :
    floorSequence int64Alg op a b = if op = .floorMod then a.tmod b else a.tdiv b := by
  have hquotient : int64Alg.binary .div a b = a.tdiv b :=
    wrap64_of_inInt64 (inInt64_tdiv ha hb hover)
  rw [floorSequence, hquotient]
  split
  · have hsplit := Int.mul_tdiv_add_tmod a b
    have hbetween := tmod_between a b
    have hproduct : int64Alg.binary .mul (a.tdiv b) b = b * a.tdiv b := by
      rw [int64Alg.mul_comm]
      refine wrap64_of_inInt64 ?_
      simp only [InInt64] at ha ⊢
      omega
    have hdiff : a - b * a.tdiv b = a.tmod b := by omega
    rw [hproduct]
    change wrap64 (a - b * a.tdiv b) = _
    rw [hdiff]
    refine wrap64_of_inInt64 ?_
    simp only [InInt64] at ha ⊢
    omega
  · rfl

theorem scalarFloor_int64 {op : BinaryOp} (ha : InInt64 a) (hb : b ≠ 0)
    (hover : ¬(a = -2 ^ 63 ∧ b = -1)) :
    scalarFloor op a b = some (if op = .floorMod then a.tmod b else a.tdiv b) := by
  have hrem : wrap64 (a.tmod b) = a.tmod b := by
    have hbetween := tmod_between a b
    refine wrap64_of_inInt64 ?_
    simp only [InInt64] at ha ⊢
    omega
  have hquotient := wrap64_of_inInt64 (inInt64_tdiv ha hb hover)
  rw [scalarFloor]
  split
  · exact congrArg some hrem
  · exact congrArg some hquotient

/-- Truncation and floor agree on both results for the same operands. -/
theorem truncated_eq_floorValue_iff (op : BinaryOp) (hb : b ≠ 0) :
    (if op = .floorMod then a.tmod b else a.tdiv b) = floorValue op a b ↔
      b ∣ a ∨ (0 ≤ a ↔ 0 ≤ b) := by
  rw [floorValue, ← tdiv_eq_fdiv_iff hb]
  split
  · rw [Int.tmod_def, sub_right_inj, mul_right_inj' hb]
  · rfl

end

/-- The emitted statements for a floor operator store the floor of the quotient, or the remainder
that goes with it, exactly when the division leaves no remainder or the operands are of one sign;
so does the scalar lowering. -/
theorem floor_kept_iff {base : ℕ} {loops : List Loop} {S : Simplifier} {out : Access} {depth : ℕ}
    {op : BinaryOp} {x y : Expr ℤ} {st st₁ st₂ st' : Emitter ℤ} {rx ry : Option Access}
    {env : Env ℤ} {m : Mem ℤ} {a b : ℤ} (hop : op = .floorDiv ∨ op = .floorMod)
    (hst : st.Created base) (hloads : ∀ l ∈ (Expr.binary op x y).loads, l.1.id < base)
    (hx : resolveOperand loops S out (depth + 1) x st = (rx, st₁))
    (hy : resolveOperand loops S out (depth + 1) y st₁ = (ry, st₂))
    (h : decompose loops S out depth (.binary op x y) st = (true, st'))
    (hxa : operandValue int64Alg env (execAll int64Alg env st₂.stmts m) x rx = a)
    (hyb : operandValue int64Alg env (execAll int64Alg env st₂.stmts m) y ry = b)
    (ha : InInt64 a) (hb : b ≠ 0) (hover : ¬(a = -2 ^ 63 ∧ b = -1)) :
    ((∃ r, resultOf depth out st' = some r ∧
        int64Alg.load env (execAll int64Alg env st'.stmts m) r.buffer r.indices =
          floorValue op a b) ↔ b ∣ a ∨ (0 ≤ a ↔ 0 ≤ b)) ∧
      (scalarFloor op a b = some (floorValue op a b) ↔ b ∣ a ∨ (0 ≤ a ↔ 0 ≤ b)) := by
  obtain ⟨r, hr, hstored⟩ := decompose_floor int64Alg env m hop hst hloads hx hy h
  rw [hxa, hyb, floorSequence_int64 ha hb hover] at hstored
  rw [scalarFloor_int64 ha hb hover, Option.some_inj, ← truncated_eq_floorValue_iff op hb]
  refine ⟨⟨?_, fun hsame => ⟨r, hr, hstored.trans hsame⟩⟩, Iff.rfl⟩
  rintro ⟨r', hr', hfloor⟩
  obtain rfl : r = r' := Option.some.inj (hr.symm.trans hr')
  exact hstored.symm.trans hfloor

section Examples

/-- `i`. -/
def rowVar : Var := ⟨0, .int32⟩

/-- Element `i` of a vector of four 64-bit integers. -/
def int64Row (id : ℕ) : Access := ⟨⟨id, [.const 4], ⟨.int, 64⟩⟩, [.var rowVar]⟩

/-- The load of it. -/
def Access.asLoad (x : Access) : Expr ℤ := .load x.buffer x.indices

/-- Before anything is emitted. -/
def startState : Emitter ℤ := ⟨[], [], [], 3, []⟩

/-- `c[i] = a[i] op b[i]` for four elements, decomposed. -/
def vectorFloor (op : BinaryOp) : Emitter ℤ :=
  (decompose [⟨rowVar, .const 0, 4⟩] ⟨id, fun _ _ => rfl⟩ (int64Row 2) 0
    (.binary op (int64Row 0).asLoad (int64Row 1).asLoad) startState).2

/-- The memory with `a` all over the one vector and `b` over the other. -/
def twoVectors (a b : ℤ) : Mem ℤ := fun id _ => if id = 0 then a else b

theorem floor_kept_negatives :
    ∃ r, resultOf 0 (int64Row 2) (vectorFloor .floorMod) = some r ∧
      int64Alg.load (fun _ => 0)
        (execAll int64Alg (fun _ => 0) (vectorFloor .floorMod).stmts (twoVectors (-7) (-2)))
        r.buffer r.indices = floorValue .floorMod (-7) (-2) := by
  have hrange : InInt64 (-7) := ⟨by norm_num, by norm_num⟩
  have hkept := @floor_kept_iff 3 [⟨rowVar, .const 0, 4⟩] ⟨id, fun _ _ => rfl⟩ (int64Row 2) 0
    .floorMod (int64Row 0).asLoad (int64Row 1).asLoad startState _ _ (vectorFloor .floorMod) _ _
    (fun _ => 0) (twoVectors (-7) (-2)) (-7) (-2) (.inr rfl) ⟨le_rfl, by simp [startState]⟩
    (by simp [Expr.loads, Access.asLoad, int64Row]) rfl rfl rfl rfl rfl hrange (by decide)
    (by decide)
  exact hkept.1.mpr (.inr (by decide))

/-- Minus one over two is rounded up, by the vector statements and by the scalar lowering. -/
theorem floor_not_kept :
    ¬(∃ r, resultOf 0 (int64Row 2) (vectorFloor .floorDiv) = some r ∧
        int64Alg.load (fun _ => 0)
          (execAll int64Alg (fun _ => 0) (vectorFloor .floorDiv).stmts (twoVectors (-1) 2))
          r.buffer r.indices = floorValue .floorDiv (-1) 2) ∧
      scalarFloor .floorDiv (-1) 2 ≠ some (floorValue .floorDiv (-1) 2) := by
  refine ⟨?_, by decide⟩
  rintro ⟨r, hr, hfloor⟩
  obtain rfl : int64Row 2 = r := Option.some.inj hr
  revert hfloor
  decide

end Examples

end TileLangNpuir.LoopVectorize
