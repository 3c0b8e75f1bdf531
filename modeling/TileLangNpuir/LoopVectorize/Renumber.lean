import TileLangNpuir.LoopVectorize.Bounds
import TileLangNpuir.LoopVectorize.Floor

/-!
# Temporaries under other numbers

What decomposing a store emits does not depend on what was emitted before it, up to the numbers
of its temporaries: two runs from different states take the same branches, and every buffer
the one creates is a buffer of the other under another number.
-/

namespace TileLangNpuir.LoopVectorize

variable {V : Type}

/-! ## Renumbering -/

section

variable (g : ℕ → ℕ)

def Buffer.renumber (b : Buffer) : Buffer := { b with id := g b.id }

def Region.renumber (r : Region) : Region := { r with buf := r.buf.renumber g }

def Access.renumber (a : Access) : Access := { a with buffer := a.buffer.renumber g }

/-- A scalar operand only mentions buffers of the program. -/
def Arg.renumber : Arg V → Arg V
  | .region r => .region (r.renumber g)
  | .scalar e => .scalar e

def TileCall.renumber : TileCall V → TileCall V
  | unary op src dst => unary op (src.renumber g) (dst.renumber g)
  | binary op a b dst => binary op (a.renumber g) (b.renumber g) (dst.renumber g)
  | select c t f dst => select (c.renumber g) (t.renumber g) (f.renumber g) (dst.renumber g)
  | copy src dst => copy (src.renumber g) (dst.renumber g)
  | brc src dst => brc (src.renumber g) (dst.renumber g)
  | reshape src dst => reshape (src.renumber g) (dst.renumber g)
  | arange dst strides offset => arange (dst.renumber g) strides offset

end

section

variable {g g' : ℕ → ℕ} {n n' : ℕ}

theorem Access.renumber_of_eq {a : Access} (h : g a.buffer.id = a.buffer.id) : a.renumber g = a := by
  rw [Access.renumber, Buffer.renumber, h]

theorem renumber_buildRegionCall {a : Access} (h : g a.buffer.id = a.buffer.id) :
    (buildRegionCall a).renumber g = buildRegionCall a := by
  rw [Region.renumber, Buffer.renumber, buildRegionCall, h]

/-- Every buffer of the call has a smaller number. -/
def Arg.Older (n : ℕ) (a : Arg V) : Prop := ∀ r ∈ a.regions, r.buf.id < n

def TileCall.Older (n : ℕ) (c : TileCall V) : Prop := ∀ r ∈ c.regions, r.buf.id < n

theorem TileCall.Older.mono {c : TileCall V} (h : c.Older n) (hn : n ≤ n') : c.Older n' :=
  fun r hr => lt_of_lt_of_le (h r hr) hn

theorem Arg.Older.mono {a : Arg V} (h : a.Older n) (hn : n ≤ n') : a.Older n' :=
  fun r hr => lt_of_lt_of_le (h r hr) hn

theorem Arg.older_region {a : Access} : (Arg.region (buildRegionCall a) : Arg V).Older n ↔
    a.buffer.id < n :=
  List.forall_mem_singleton

theorem Arg.older_scalar (e : Expr V) : (Arg.scalar e).Older n := nofun

theorem Arg.renumber_congr {a : Arg V} (h : a.Older n) (hg : ∀ i < n, g' i = g i) :
    a.renumber g' = a.renumber g := by
  cases a with
  | region r =>
    rw [Arg.renumber, Arg.renumber, Region.renumber, Region.renumber, Buffer.renumber,
      Buffer.renumber, hg _ (h r List.mem_cons_self)]
  | scalar e => rfl

theorem Region.renumber_congr {r : Region} (h : r.buf.id < n) (hg : ∀ i < n, g' i = g i) :
    r.renumber g' = r.renumber g := by
  rw [Region.renumber, Region.renumber, Buffer.renumber, Buffer.renumber, hg _ h]

theorem TileCall.older_iff {c : TileCall V} :
    c.Older n ↔ match c with
      | unary _ src dst => src.Older n ∧ dst.buf.id < n
      | binary _ a b dst => a.Older n ∧ b.Older n ∧ dst.buf.id < n
      | select c t f dst => c.Older n ∧ t.Older n ∧ f.Older n ∧ dst.buf.id < n
      | copy src dst => src.Older n ∧ dst.buf.id < n
      | brc src dst => src.Older n ∧ dst.buf.id < n
      | reshape src dst => src.buf.id < n ∧ dst.buf.id < n
      | arange dst _ _ => dst.buf.id < n := by
  cases c <;>
    simp only [TileCall.Older, TileCall.regions, Arg.Older, List.forall_mem_append,
      List.forall_mem_cons, and_assoc, List.not_mem_nil, false_implies, implies_true, and_true]

theorem TileCall.renumber_congr {c : TileCall V} (h : c.Older n) (hg : ∀ i < n, g' i = g i) :
    c.renumber g' = c.renumber g := by
  rw [TileCall.older_iff] at h
  cases c with
  | unary op src dst =>
    rw [TileCall.renumber, TileCall.renumber, Arg.renumber_congr h.1 hg, Region.renumber_congr h.2 hg]
  | binary op a b dst =>
    rw [TileCall.renumber, TileCall.renumber, Arg.renumber_congr h.1 hg, Arg.renumber_congr h.2.1 hg,
      Region.renumber_congr h.2.2 hg]
  | select c t f dst =>
    rw [TileCall.renumber, TileCall.renumber, Arg.renumber_congr h.1 hg, Arg.renumber_congr h.2.1 hg,
      Arg.renumber_congr h.2.2.1 hg, Region.renumber_congr h.2.2.2 hg]
  | copy src dst =>
    rw [TileCall.renumber, TileCall.renumber, Arg.renumber_congr h.1 hg, Region.renumber_congr h.2 hg]
  | brc src dst =>
    rw [TileCall.renumber, TileCall.renumber, Arg.renumber_congr h.1 hg, Region.renumber_congr h.2 hg]
  | reshape src dst =>
    rw [TileCall.renumber, TileCall.renumber, Region.renumber_congr h.1 hg,
      Region.renumber_congr h.2 hg]
  | arange dst strides offset => rw [TileCall.renumber, TileCall.renumber, Region.renumber_congr h hg]

theorem map_renumber_congr {cs : List (TileCall V)} (h : ∀ c ∈ cs, c.Older n)
    (hg : ∀ i < n, g' i = g i) : cs.map (TileCall.renumber g') = cs.map (TileCall.renumber g) :=
  List.map_congr_left fun c hc => TileCall.renumber_congr (h c hc) hg

end

/-! ## Two runs -/

section

variable {base : ℕ} {g : ℕ → ℕ} {hs ks : List (TileCall V)} {st st' : Emitter V}

/-- A state and its twin: the buffers the two runs have created correspond, and so do all
that are still to be created. Before the two runs, `hs` and `ks` had been hoisted. -/
structure Twin (base : ℕ) (g : ℕ → ℕ) (hs ks : List (TileCall V)) (st st' : Emitter V) : Prop where
  base_le : base ≤ st.next
  next : ∀ k, g (st.next + k) = st'.next + k
  stmts : st'.stmts = st.stmts.map (TileCall.renumber g)
  tmpBufs : st'.tmpBufs = st.tmpBufs.map (Access.renumber g)
  hoisted : ∃ cs, st.hoisted = hs ++ cs ∧ st'.hoisted = ks ++ cs.map (TileCall.renumber g) ∧
    ∀ c ∈ cs, c.Older st.next
  older : ∀ c ∈ st.stmts, c.Older st.next
  tmpOlder : ∀ a ∈ st.tmpBufs, a.buffer.id < st.next

/-- Two answers of a handler. -/
structure TwinAnswer (base : ℕ) (g : ℕ → ℕ) (hs ks : List (TileCall V)) (st : Emitter V)
    (r r' : Bool × Emitter V) : Prop where
  answer : r'.1 = r.1
  twin : Twin base g hs ks r.2 r'.2
  next_le : st.next ≤ r.2.next

/-- Two resolved operands. -/
structure TwinOperand (base : ℕ) (g : ℕ → ℕ) (hs ks : List (TileCall V)) (st : Emitter V)
    (r r' : Option Access × Emitter V) : Prop where
  access : r'.1 = r.1.map (Access.renumber g)
  twin : Twin base g hs ks r.2 r'.2
  next_le : st.next ≤ r.2.next
  older : ∀ a, r.1 = some a → a.buffer.id < r.2.next

theorem Twin.stmt (h : Twin base g hs ks st st') {c : TileCall V} (hc : c.Older st.next) :
    Twin base g hs ks (st.stmt c) (st'.stmt (c.renumber g)) := by
  refine ⟨h.base_le, h.next, ?_, h.tmpBufs, h.hoisted, ?_, h.tmpOlder⟩
  · rw [Emitter.stmt, Emitter.stmt, h.stmts, List.map_append, List.map_cons, List.map_nil]
  · exact List.forall_mem_append.mpr ⟨h.older, List.forall_mem_singleton.mpr hc⟩

theorem Twin.next_zero (h : Twin base g hs ks st st') : g st.next = st'.next := h.next 0

/-- The next temporary. -/
theorem Twin.temp (h : Twin base g hs ks st st') (ref : Access) (t : DType) :
    (st'.temp (ref.renumber g) t).1 = (st.temp ref t).1.renumber g ∧
      Twin base g hs ks (st.temp ref t).2 (st'.temp (ref.renumber g) t).2 := by
  have haccess : (st'.temp (ref.renumber g) t).1 = (st.temp ref t).1.renumber g := by
    simp only [Emitter.temp, createTempBuffer, Access.renumber, Buffer.renumber, h.next_zero]
  refine ⟨haccess, Nat.le_succ_of_le h.base_le, fun k => ?_, h.stmts, ?_, ?_, ?_, ?_⟩
  · have := h.next (1 + k)
    rwa [← Nat.add_assoc, ← Nat.add_assoc] at this
  · have hpush (st : Emitter V) (ref : Access) :
        (st.temp ref t).2.tmpBufs = st.tmpBufs ++ [(st.temp ref t).1] := rfl
    rw [hpush, hpush, haccess, h.tmpBufs, List.map_append]
    rfl
  · obtain ⟨cs, hcs, hcs', holder⟩ := h.hoisted
    exact ⟨cs, hcs, hcs', fun c hc => (holder c hc).mono (Nat.le_succ _)⟩
  · exact fun c hc => (h.older c hc).mono (Nat.le_succ _)
  · exact List.forall_mem_append.mpr ⟨fun a ha => Nat.lt_succ_of_lt (h.tmpOlder a ha),
      List.forall_mem_singleton.mpr (Nat.lt_succ_self _)⟩

theorem Twin.pushTmp (h : Twin base g hs ks st st') {a : Access} (ha : a.buffer.id < st.next) :
    Twin base g hs ks (st.pushTmp a) (st'.pushTmp (a.renumber g)) := by
  refine ⟨h.base_le, h.next, h.stmts, ?_, h.hoisted, h.older, ?_⟩
  · rw [Emitter.pushTmp, Emitter.pushTmp, h.tmpBufs, List.map_append]
    rfl
  · exact List.forall_mem_append.mpr ⟨h.tmpOlder, List.forall_mem_singleton.mpr ha⟩

/-- Hoisted statements, with the buffers they create. -/
theorem Twin.hoist (h : Twin base g hs ks st st') {cs : List (TileCall V)} (a a' : Access) (e : Expr V)
    {n n' : ℕ} (hn : st.next ≤ n) (hnext : ∀ k, g (n + k) = n' + k) (hcs : ∀ c ∈ cs, c.Older n) :
    Twin base g hs ks (st.hoist cs a e n) (st'.hoist (cs.map (TileCall.renumber g)) a' e n') := by
  refine ⟨h.base_le.trans hn, hnext, h.stmts, h.tmpBufs, ?_, ?_, ?_⟩
  · obtain ⟨ds, hds, hds', holder⟩ := h.hoisted
    refine ⟨ds ++ cs, ?_, ?_, ?_⟩
    · rw [Emitter.hoist, hds, List.append_assoc]
    · rw [Emitter.hoist, hds', List.append_assoc, List.map_append]
    · exact List.forall_mem_append.mpr ⟨fun c hc => (holder c hc).mono hn, hcs⟩
  · exact fun c hc => (h.older c hc).mono hn
  · exact fun a ha => lt_of_lt_of_le (h.tmpOlder a ha) hn

variable {loops : List Loop} {S : Simplifier} {out : Access}

/-! ## Hoisted loads -/

section

variable (loops out) {buf : Buffer} {n n' : ℕ}

theorem emitReshapeAndBroadcast_renumber (hbuf : g buf.id = buf.id) (hnext : ∀ k, g (n + k) = n' + k)
    (indices : List Index) :
    ∃ k, (emitReshapeAndBroadcast (V := V) loops buf indices out n).2.2 = n + k ∧
      emitReshapeAndBroadcast loops buf indices out n' =
        ((emitReshapeAndBroadcast (V := V) loops buf indices out n).1.map (TileCall.renumber g),
          (emitReshapeAndBroadcast (V := V) loops buf indices out n).2.1.renumber g, n' + k) := by
  have h₀ : g n = n' := hnext 0
  have h₁ : g (n + 1) = n' + 1 := hnext 1
  have h₂ : g (n + 2) = n' + 2 := hnext 2
  simp only [emitReshapeAndBroadcast]
  split
  · refine ⟨2, rfl, ?_⟩
    simp [TileCall.renumber, Arg.renumber, Region.renumber, Buffer.renumber, Access.renumber,
      regionND, h₀, h₁, hbuf]
  · refine ⟨3, rfl, ?_⟩
    simp [TileCall.renumber, Arg.renumber, Region.renumber, Buffer.renumber, Access.renumber,
      regionND, h₀, h₁, h₂, hbuf]

theorem emitReshapeAndBroadcast_older (hbuf : buf.id < n) (indices : List Index) :
    (∀ c ∈ (emitReshapeAndBroadcast (V := V) loops buf indices out n).1,
      c.Older (emitReshapeAndBroadcast (V := V) loops buf indices out n).2.2) ∧
      (emitReshapeAndBroadcast (V := V) loops buf indices out n).2.1.buffer.id <
        (emitReshapeAndBroadcast (V := V) loops buf indices out n).2.2 := by
  simp only [emitReshapeAndBroadcast]
  split
  · simp [TileCall.Older, TileCall.regions, Arg.regions, regionND]
    omega
  · simp [TileCall.Older, TileCall.regions, Arg.regions, regionND]
    omega

theorem emitLoopVarArange_renumber (hnext : g n = n') (j : ℕ) :
    emitLoopVarArange loops j out n' =
      ((emitLoopVarArange (V := V) loops j out n).1.renumber g,
        (emitLoopVarArange (V := V) loops j out n).2.renumber g) := by
  simp [emitLoopVarArange, TileCall.renumber, Region.renumber, Buffer.renumber, Access.renumber,
    regionND, hnext]

theorem emitLoopVarArange_older (j : ℕ) :
    (emitLoopVarArange (V := V) loops j out n).1.Older (n + 1) ∧
      (emitLoopVarArange (V := V) loops j out n).2.buffer.id < n + 1 := by
  simp [emitLoopVarArange, TileCall.Older, TileCall.regions, regionND]

end

/-! ## Handlers -/

theorem TwinOperand.none (h : Twin base g hs ks st st') :
    TwinOperand base g hs ks st (none, st) (none, st') :=
  ⟨rfl, h, le_rfl, nofun⟩

/-- Two operands of a call. -/
structure TwinArg (base : ℕ) (g : ℕ → ℕ) (hs ks : List (TileCall V)) (st : Emitter V)
    (r r' : Arg V × Emitter V) : Prop where
  arg : r'.1 = r.1.renumber g
  twin : Twin base g hs ks r.2 r'.2
  next_le : st.next ≤ r.2.next
  older : r.1.Older r.2.next

theorem scalarArg_twin (h : Twin base g hs ks st st') (e : Expr V) (ref : Access) (t : DType) :
    TwinArg base g hs ks st (scalarArg e ref t st) (scalarArg e (ref.renumber g) t st') := by
  simp only [scalarArg]
  split
  · exact ⟨rfl, h, le_rfl, Arg.older_scalar e⟩
  · obtain ⟨haccess, htwin⟩ := h.temp ref t
    refine ⟨?_, ?_, Nat.le_succ _, Arg.older_region.mpr (Nat.lt_succ_self _)⟩
    · rw [haccess]
      rfl
    · have hstmt := htwin.stmt (c := .brc (.scalar e) (buildRegionCall (st.temp ref t).1))
        (TileCall.older_iff.mpr ⟨Arg.older_scalar e, Nat.lt_succ_self _⟩)
      rw [haccess]
      exact hstmt

theorem binaryArgs_twin (h : Twin base g hs ks st st') {op : BinaryOp} {a b : Expr V}
    {ra rb : Option Access} {t : DType} (ha : ∀ x, ra = some x → x.buffer.id < st.next)
    (hb : ∀ x, rb = some x → x.buffer.id < st.next) :
    (binaryArgs op a b ra rb t st = none ∧
      binaryArgs op a b (ra.map (Access.renumber g)) (rb.map (Access.renumber g)) t st' = none) ∨
    ∃ op₂ argA argB ref st₁ st₁', binaryArgs op a b ra rb t st = some (op₂, argA, argB, ref, st₁) ∧
      binaryArgs op a b (ra.map (Access.renumber g)) (rb.map (Access.renumber g)) t st' =
        some (op₂, argA.renumber g, argB.renumber g, ref.renumber g, st₁') ∧
      Twin base g hs ks st₁ st₁' ∧ st.next ≤ st₁.next ∧ argA.Older st₁.next ∧ argB.Older st₁.next := by
  rcases ra with _ | x <;> rcases rb with _ | y
  · exact .inl ⟨rfl, rfl⟩
  · have hy := hb y rfl
    simp only [Option.map_some, Option.map_none, binaryArgs]
    split
    · exact .inr ⟨_, _, _, _, _, _, rfl, rfl, h, le_rfl, Arg.older_region.mpr hy,
        Arg.older_scalar a⟩
    · have harg := scalarArg_twin h a y t
      refine .inr ⟨_, _, _, _, _, _, rfl, ?_, harg.twin, harg.next_le, harg.older,
        Arg.older_region.mpr (lt_of_lt_of_le hy harg.next_le)⟩
      rw [← harg.arg]
      rfl
  · have hx := ha x rfl
    have harg := scalarArg_twin h b x t
    simp only [Option.map_some, Option.map_none, binaryArgs]
    refine .inr ⟨_, _, _, _, _, _, rfl, ?_, harg.twin, harg.next_le,
      Arg.older_region.mpr (lt_of_lt_of_le hx harg.next_le), harg.older⟩
    rw [← harg.arg]
    rfl
  · exact .inr ⟨_, _, _, _, _, _, rfl, rfl, h, le_rfl, Arg.older_region.mpr (ha x rfl),
      Arg.older_region.mpr (hb y rfl)⟩

theorem inferBinaryComputeDType_renumber (op : BinaryOp) (result : DType) (ra rb : Option Access)
    (operands : List DType) :
    inferBinaryComputeDType op result (ra.map (Access.renumber g)) (rb.map (Access.renumber g))
      operands = inferBinaryComputeDType op result ra rb operands := by
  cases ra <;> cases rb <;> rfl

variable (hfix : ∀ i < base, g i = i)

include hfix

theorem resolveWith_twin {e : Expr V} {decomp : Emitter V → Bool × Emitter V}
    (h : Twin base g hs ks st st') (hloads : ∀ l ∈ e.loads, l.1.id < base)
    (hdecomp : TwinAnswer base g hs ks st (decomp st) (decomp st')) :
    TwinOperand base g hs ks st (resolveWith loops S out e decomp st)
      (resolveWith loops S out e decomp st') := by
  unfold resolveWith
  split
  · exact .none h
  · split
    · split
      · rename_i j _
        obtain ⟨hcall, haccess⟩ := emitLoopVarArange_older (V := V) loops out (n := st.next) j
        rw [emitLoopVarArange_renumber (V := V) loops out h.next_zero]
        refine ⟨rfl, (h.hoist _ _ _ (Nat.le_succ _) (fun k => ?_)
          (List.forall_mem_singleton.mpr hcall)).pushTmp haccess, Nat.le_succ _, fun a ha => ?_⟩
        · have := h.next (1 + k)
          rwa [← Nat.add_assoc, ← Nat.add_assoc] at this
        · obtain rfl := Option.some.inj ha
          exact haccess
      · exact .none h
    · rename_i buf indices _
      have hbuf : buf.id < base := hloads (buf, indices) List.mem_cons_self
      split
      · split
        · rename_i indices' _
          split
          · obtain ⟨hcalls, haccess⟩ := emitReshapeAndBroadcast_older (V := V) loops out
              (lt_of_lt_of_le hbuf h.base_le) indices'
            obtain ⟨k, hk, hemit⟩ := emitReshapeAndBroadcast_renumber (V := V) loops out
              (hfix _ hbuf) h.next indices'
            rw [hemit]
            refine ⟨rfl, (h.hoist _ _ _ ?_ (fun i => ?_) hcalls).pushTmp haccess, ?_, fun a ha => ?_⟩
            · rw [hk]
              exact Nat.le_add_right _ _
            · rw [hk, Nat.add_assoc, h.next, Nat.add_assoc]
            · exact le_trans (Nat.le_add_right _ k) (le_of_eq hk.symm)
            · obtain rfl := Option.some.inj ha
              exact haccess
          · refine ⟨?_, h, le_rfl, fun a ha => ?_⟩
            · rw [Option.map_some, Access.renumber_of_eq (hfix _ hbuf)]
            · obtain rfl := Option.some.inj ha
              exact lt_of_lt_of_le hbuf h.base_le
        · exact .none h
      · exact .none h
    · obtain ⟨b, st₁, hd⟩ : ∃ b st₁, decomp st = (b, st₁) := ⟨_, _, rfl⟩
      obtain ⟨b', st₁', hd'⟩ : ∃ b' st₁', decomp st' = (b', st₁') := ⟨_, _, rfl⟩
      rw [hd, hd'] at hdecomp
      obtain rfl : b' = b := hdecomp.answer
      cases b' with
      | true =>
        simp only [hd, hd']
        refine ⟨?_, hdecomp.twin, hdecomp.next_le, fun a ha =>
          hdecomp.twin.tmpOlder a (List.mem_of_getLast? ha)⟩
        rw [hdecomp.twin.tmpBufs, List.getLast?_map]
      | false =>
        simp only [hd, hd']
        exact ⟨rfl, hdecomp.twin, hdecomp.next_le, nofun⟩

variable (hout : out.buffer.id < base)

include hout

theorem resultAccess_twin (h : Twin base g hs ks st st') (depth : ℕ) (ref : Access) (t : DType) :
    TwinOperand base g hs ks st
      (some (resultAccess depth out ref t st).1, (resultAccess depth out ref t st).2)
      (some (resultAccess depth out (ref.renumber g) t st').1,
        (resultAccess depth out (ref.renumber g) t st').2) := by
  simp only [resultAccess]
  split
  · obtain ⟨haccess, htwin⟩ := h.temp ref t
    refine ⟨?_, htwin, Nat.le_succ _, fun a ha => ?_⟩
    · rw [haccess, Option.map_some]
    · obtain rfl := Option.some.inj ha
      exact Nat.lt_succ_self _
  · refine ⟨?_, h, le_rfl, fun a ha => ?_⟩
    · rw [Option.map_some, Access.renumber_of_eq (hfix _ hout)]
    · obtain rfl := Option.some.inj ha
      exact lt_of_lt_of_le hout h.base_le

/-- A call that writes the result. -/
theorem result_twin (h : Twin base g hs ks st st') (depth : ℕ) (ref : Access) (t : DType)
    (call call' : Region → TileCall V)
    (hcall : ∀ r, call' (r.renumber g) = (call r).renumber g)
    (holder : ∀ n r, st.next ≤ n → r.buf.id < n → (call r).Older n) :
    TwinAnswer base g hs ks st
      (true, (resultAccess depth out ref t st).2.stmt
        (call (buildRegionCall (resultAccess depth out ref t st).1)))
      (true, (resultAccess depth out (ref.renumber g) t st').2.stmt
        (call' (buildRegionCall (resultAccess depth out (ref.renumber g) t st').1))) := by
  obtain ⟨haccess, htwin, hnext, hid⟩ := resultAccess_twin hfix hout h depth ref t
  refine ⟨rfl, ?_, hnext⟩
  have haccess : (resultAccess depth out (ref.renumber g) t st').1 =
      (resultAccess depth out ref t st).1.renumber g := Option.some.inj haccess
  rw [haccess]
  have hstmt := htwin.stmt (holder _ (buildRegionCall (resultAccess depth out ref t st).1) hnext
    (hid _ rfl))
  rwa [← hcall] at hstmt

theorem handleUnary_twin {op : UnaryOp} {a : Expr V} {depth : ℕ}
    {resolve : Emitter V → Option Access × Emitter V} (h : Twin base g hs ks st st')
    (hresolve : TwinOperand base g hs ks st (resolve st) (resolve st')) :
    TwinAnswer base g hs ks st (handleUnary out depth op a resolve st)
      (handleUnary out depth op a resolve st') := by
  rw [handleUnary, handleUnary]
  split
  · exact ⟨rfl, h, le_rfl⟩
  · obtain ⟨ra, st₁, hr⟩ : ∃ ra st₁, resolve st = (ra, st₁) := ⟨_, _, rfl⟩
    obtain ⟨ra', st₁', hr'⟩ : ∃ ra' st₁', resolve st' = (ra', st₁') := ⟨_, _, rfl⟩
    rw [hr, hr'] at hresolve
    rw [hr, hr']
    obtain rfl : ra' = ra.map (Access.renumber g) := hresolve.access
    cases ra with
    | none => exact ⟨rfl, hresolve.twin, hresolve.next_le⟩
    | some src =>
      have hsrc := hresolve.older src rfl
      have hres := result_twin hfix hout hresolve.twin depth src (Expr.unary op a).dtype
        (fun r => .unary op (.region (buildRegionCall src)) r)
        (fun r => .unary op (.region (buildRegionCall (src.renumber g))) r) (fun _ => rfl)
        fun n r hn hid =>
          TileCall.older_iff.mpr ⟨Arg.older_region.mpr (lt_of_lt_of_le hsrc hn), hid⟩
      exact ⟨rfl, hres.twin, le_trans hresolve.next_le hres.next_le⟩

omit hfix hout in
/-- A temporary and the call that fills it. -/
theorem Twin.temp_stmt (h : Twin base g hs ks st st') (ref : Access) (t : DType)
    (call call' : Region → TileCall V) (hcall : ∀ r, call' (r.renumber g) = (call r).renumber g)
    (holder : ∀ n r, st.next ≤ n → r.buf.id < n → (call r).Older n) :
    Twin base g hs ks ((st.temp ref t).2.stmt (call (buildRegionCall (st.temp ref t).1)))
      ((st'.temp (ref.renumber g) t).2.stmt
        (call' (buildRegionCall (st'.temp (ref.renumber g) t).1))) := by
  obtain ⟨haccess, htwin⟩ := h.temp ref t
  have hstmt := htwin.stmt (holder _ (buildRegionCall (st.temp ref t).1) (Nat.le_succ _)
    (Nat.lt_succ_self _))
  rwa [← hcall, ← show buildRegionCall (st'.temp (ref.renumber g) t).1 =
    (buildRegionCall (st.temp ref t).1).renumber g from by rw [haccess]; rfl] at hstmt

/-- The three calls of a floor modulo. -/
theorem floorMod_twin (h : Twin base g hs ks st st') (depth : ℕ) (ref : Access) (t : DType)
    {argA argB : Arg V} (hA : argA.Older st.next) (hB : argB.Older st.next) :
    TwinAnswer base g hs ks st
      (let (quotient, st) := st.temp ref t
        let st := st.stmt (.binary .div argA argB (buildRegionCall quotient))
        let (product, st) := st.temp ref t
        let st := st.stmt
          (.binary .mul (.region (buildRegionCall quotient)) argB (buildRegionCall product))
        let (dst, st) := resultAccess depth out ref t st
        (true, st.stmt (.binary .sub argA (.region (buildRegionCall product)) (buildRegionCall dst))))
      (let (quotient, st) := st'.temp (ref.renumber g) t
        let st := st.stmt
          (.binary .div (argA.renumber g) (argB.renumber g) (buildRegionCall quotient))
        let (product, st) := st.temp (ref.renumber g) t
        let st := st.stmt
          (.binary .mul (.region (buildRegionCall quotient)) (argB.renumber g)
            (buildRegionCall product))
        let (dst, st) := resultAccess depth out (ref.renumber g) t st
        (true, st.stmt (.binary .sub (argA.renumber g) (.region (buildRegionCall product))
          (buildRegionCall dst)))) := by
  have hquotient := (h.temp ref t).1
  have h₁ := h.temp_stmt ref t (fun r => .binary .div argA argB r)
    (fun r => .binary .div (argA.renumber g) (argB.renumber g) r) (fun _ => rfl)
    fun n r hn hid => TileCall.older_iff.mpr ⟨hA.mono hn, hB.mono hn, hid⟩
  have hproduct := (h₁.temp ref t).1
  have h₂ := h₁.temp_stmt ref t
    (fun r => .binary .mul (.region (buildRegionCall (st.temp ref t).1)) argB r)
    (fun r => .binary .mul (.region (buildRegionCall (st'.temp (ref.renumber g) t).1))
      (argB.renumber g) r)
    (fun r => by rw [hquotient]; rfl) fun n r hn hid => TileCall.older_iff.mpr
      ⟨Arg.older_region.mpr (lt_of_lt_of_le (Nat.lt_succ_self _) hn),
        hB.mono (le_trans (Nat.le_succ _) hn), hid⟩
  have hres := result_twin hfix hout h₂ depth ref t
    (fun r => .binary .sub argA (.region (buildRegionCall
      (((st.temp ref t).2.stmt (.binary .div argA argB (buildRegionCall (st.temp ref t).1))).temp
        ref t).1)) r)
    (fun r => .binary .sub (argA.renumber g) (.region (buildRegionCall
      (((st'.temp (ref.renumber g) t).2.stmt (.binary .div (argA.renumber g) (argB.renumber g)
        (buildRegionCall (st'.temp (ref.renumber g) t).1))).temp (ref.renumber g) t).1)) r)
    (fun r => by rw [hproduct]; rfl) fun n r hn hid => TileCall.older_iff.mpr
      ⟨hA.mono (le_trans (Nat.le_succ_of_le (Nat.le_succ _)) hn),
        Arg.older_region.mpr (lt_of_lt_of_le (Nat.lt_succ_self _) hn), hid⟩
  exact ⟨rfl, hres.twin, le_trans (Nat.le_succ_of_le (Nat.le_succ _)) hres.next_le⟩

theorem handleBinary_twin {op : BinaryOp} {a b : Expr V} {depth : ℕ}
    {resolveA resolveB : Emitter V → Option Access × Emitter V} (h : Twin base g hs ks st st')
    (hA : TwinOperand base g hs ks st (resolveA st) (resolveA st'))
    (hB : ∀ st₁ st₁' : Emitter V, Twin base g hs ks st₁ st₁' →
      TwinOperand base g hs ks st₁ (resolveB st₁) (resolveB st₁')) :
    TwinAnswer base g hs ks st (handleBinary out depth op a b resolveA resolveB st)
      (handleBinary out depth op a b resolveA resolveB st') := by
  rw [handleBinary, handleBinary]
  split
  · obtain ⟨ra, st₁, hra⟩ : ∃ ra st₁, resolveA st = (ra, st₁) := ⟨_, _, rfl⟩
    obtain ⟨ra', st₁', hra'⟩ : ∃ ra' st₁', resolveA st' = (ra', st₁') := ⟨_, _, rfl⟩
    obtain ⟨rb, st₂, hrb⟩ : ∃ rb st₂, resolveB st₁ = (rb, st₂) := ⟨_, _, rfl⟩
    obtain ⟨rb', st₂', hrb'⟩ : ∃ rb' st₂', resolveB st₁' = (rb', st₂') := ⟨_, _, rfl⟩
    rw [hra, hra'] at hA
    have hB := hB st₁ st₁' hA.twin
    rw [hrb, hrb'] at hB
    obtain rfl : ra' = ra.map (Access.renumber g) := hA.access
    obtain rfl : rb' = rb.map (Access.renumber g) := hB.access
    simp only [hra, hra', hrb, hrb', inferBinaryComputeDType_renumber]
    generalize inferBinaryComputeDType (if op = .floorDiv then .div else op) (Expr.binary op a b).dtype
      ra rb [a.dtype, b.dtype] = t
    have hnext : st.next ≤ st₂.next := le_trans hA.next_le hB.next_le
    rcases binaryArgs_twin hB.twin
      (fun x hx => lt_of_lt_of_le (hA.older x hx) hB.next_le) (fun x hx => hB.older x hx) with
      ⟨hnone, hnone'⟩ | ⟨op₂, argA, argB, ref, st₃, st₃', hargs, hargs', htwin, hle, holderA, holderB⟩
    · rw [hnone, hnone']
      exact ⟨rfl, hB.twin, hnext⟩
    · rw [hargs, hargs']
      simp only
      split
      · have hmod := floorMod_twin hfix hout htwin depth ref t holderA holderB
        exact ⟨hmod.answer, hmod.twin, le_trans hnext (le_trans hle hmod.next_le)⟩
      · have hres := result_twin hfix hout htwin depth ref t (fun r => .binary op₂ argA argB r)
          (fun r => .binary op₂ (argA.renumber g) (argB.renumber g) r) (fun _ => rfl)
          fun n r hn hid => TileCall.older_iff.mpr ⟨holderA.mono hn, holderB.mono hn, hid⟩
        exact ⟨rfl, hres.twin, le_trans hnext (le_trans hle hres.next_le)⟩
  · exact ⟨rfl, h, le_rfl⟩

theorem resolveTernaryOperand_twin (loops : List Loop) (e : Expr V) (t : DType)
    {resolve : Emitter V → Option Access × Emitter V} (h : Twin base g hs ks st st')
    (hresolve : TwinOperand base g hs ks st (resolve st) (resolve st')) :
    TwinOperand base g hs ks st (resolveTernaryOperand loops out e resolve t st)
      (resolveTernaryOperand loops out e resolve t st') := by
  have hout' : out.renumber g = out := Access.renumber_of_eq (hfix _ hout)
  rw [resolveTernaryOperand, resolveTernaryOperand]
  split
  · have hcall := h.temp_stmt out t (fun r => .brc (.scalar e) r) (fun r => .brc (.scalar e) r)
      (fun _ => rfl) fun n r _ hid => TileCall.older_iff.mpr ⟨Arg.older_scalar e, hid⟩
    have haccess := (h.temp out t).1
    rw [hout'] at hcall haccess
    refine ⟨congrArg some haccess, hcall, Nat.le_succ _, fun a ha => ?_⟩
    obtain rfl := Option.some.inj ha
    exact Nat.lt_succ_self _
  · obtain ⟨ra, st₁, hr⟩ : ∃ ra st₁, resolve st = (ra, st₁) := ⟨_, _, rfl⟩
    obtain ⟨ra', st₁', hr'⟩ : ∃ ra' st₁', resolve st' = (ra', st₁') := ⟨_, _, rfl⟩
    rw [hr, hr'] at hresolve
    rw [hr, hr']
    obtain rfl : ra' = ra.map (Access.renumber g) := hresolve.access
    cases ra with
    | some a => exact ⟨rfl, hresolve.twin, hresolve.next_le, hresolve.older⟩
    | none =>
      simp only [Option.map_none]
      split
      · exact ⟨rfl, hresolve.twin, hresolve.next_le, by rintro _ ⟨⟩⟩
      · obtain ⟨haccess, htwin⟩ := hresolve.twin.temp out t
        rw [hout'] at haccess htwin
        rw [haccess]
        refine ⟨rfl, htwin.hoist _ _ e le_rfl htwin.next (List.forall_mem_singleton.mpr ?_),
          le_trans hresolve.next_le (Nat.le_succ _), fun a ha => ?_⟩
        · exact TileCall.older_iff.mpr ⟨Arg.older_scalar e, Nat.lt_succ_self _⟩
        · obtain rfl := Option.some.inj ha
          exact Nat.lt_succ_self _

theorem handleTernary_twin {c t f : Expr V}
    {resolveC resolveT resolveF : Emitter V → Option Access × Emitter V}
    (h : Twin base g hs ks st st')
    (hC : TwinOperand base g hs ks st (resolveC st) (resolveC st'))
    (hT : ∀ st₁ st₁' : Emitter V, Twin base g hs ks st₁ st₁' →
      TwinOperand base g hs ks st₁ (resolveT st₁) (resolveT st₁'))
    (hF : ∀ st₁ st₁' : Emitter V, Twin base g hs ks st₁ st₁' →
      TwinOperand base g hs ks st₁ (resolveF st₁) (resolveF st₁')) :
    TwinAnswer base g hs ks st (handleTernary loops out c t f resolveC resolveT resolveF st)
      (handleTernary loops out c t f resolveC resolveT resolveF st') := by
  obtain ⟨rc, st₁, hrc⟩ : ∃ rc st₁,
      resolveTernaryOperand loops out c resolveC .bool st = (rc, st₁) := ⟨_, _, rfl⟩
  obtain ⟨rc', st₁', hrc'⟩ : ∃ rc' st₁',
      resolveTernaryOperand loops out c resolveC .bool st' = (rc', st₁') := ⟨_, _, rfl⟩
  have h₁ := resolveTernaryOperand_twin hfix hout loops c .bool h hC
  rw [hrc, hrc'] at h₁
  obtain ⟨rt, st₂, hrt⟩ : ∃ rt st₂,
      resolveTernaryOperand loops out t resolveT out.buffer.dtype st₁ = (rt, st₂) := ⟨_, _, rfl⟩
  obtain ⟨rt', st₂', hrt'⟩ : ∃ rt' st₂',
      resolveTernaryOperand loops out t resolveT out.buffer.dtype st₁' = (rt', st₂') := ⟨_, _, rfl⟩
  have h₂ := resolveTernaryOperand_twin hfix hout loops t out.buffer.dtype h₁.twin (hT _ _ h₁.twin)
  rw [hrt, hrt'] at h₂
  obtain ⟨rf, st₃, hrf⟩ : ∃ rf st₃,
      resolveTernaryOperand loops out f resolveF out.buffer.dtype st₂ = (rf, st₃) := ⟨_, _, rfl⟩
  obtain ⟨rf', st₃', hrf'⟩ : ∃ rf' st₃',
      resolveTernaryOperand loops out f resolveF out.buffer.dtype st₂' = (rf', st₃') := ⟨_, _, rfl⟩
  have h₃ := resolveTernaryOperand_twin hfix hout loops f out.buffer.dtype h₂.twin (hF _ _ h₂.twin)
  rw [hrf, hrf'] at h₃
  have hnext : st.next ≤ st₃.next := le_trans h₁.next_le (le_trans h₂.next_le h₃.next_le)
  obtain rfl : rc' = rc.map (Access.renumber g) := h₁.access
  obtain rfl : rt' = rt.map (Access.renumber g) := h₂.access
  obtain rfl : rf' = rf.map (Access.renumber g) := h₃.access
  simp only [handleTernary, hrc, hrt, hrf, hrc', hrt', hrf']
  rcases rc with _ | xc
  · exact ⟨rfl, h₃.twin, hnext⟩
  rcases rt with _ | xt
  · exact ⟨rfl, h₃.twin, hnext⟩
  rcases rf with _ | xf
  · exact ⟨rfl, h₃.twin, hnext⟩
  have hc : xc.buffer.id < st₃.next :=
    lt_of_lt_of_le (h₁.older xc rfl) (le_trans h₂.next_le h₃.next_le)
  have ht : xt.buffer.id < st₃.next := lt_of_lt_of_le (h₂.older xt rfl) h₃.next_le
  have hf : xf.buffer.id < st₃.next := h₃.older xf rfl
  have hstmt := h₃.twin.stmt (c := .select (.region (buildRegionCall xc)) (.region (buildRegionCall xt))
    (.region (buildRegionCall xf)) (buildRegionCall out)) (TileCall.older_iff.mpr
      ⟨Arg.older_region.mpr hc, Arg.older_region.mpr ht, Arg.older_region.mpr hf,
        lt_of_lt_of_le hout h₃.twin.base_le⟩)
  rw [TileCall.renumber, renumber_buildRegionCall (hfix _ hout)] at hstmt
  exact ⟨rfl, hstmt, hnext⟩

omit hfix in
theorem Twin.copy_out (hg : g out.buffer.id = out.buffer.id) (h : Twin base g hs ks st st')
    (src : Access) (hsrc : src.buffer.id < st.next) :
    Twin base g hs ks
      (st.stmt (.copy (.region (buildRegionCall src)) (buildRegionCall out)))
      (st'.stmt (.copy (.region (buildRegionCall (src.renumber g))) (buildRegionCall out))) := by
  have hstmt := h.stmt (c := .copy (.region (buildRegionCall src)) (buildRegionCall out))
    (TileCall.older_iff.mpr ⟨Arg.older_region.mpr hsrc, lt_of_lt_of_le hout h.base_le⟩)
  rwa [TileCall.renumber, renumber_buildRegionCall hg] at hstmt

/-- Decomposing an expression in two states that correspond. -/
theorem decompose_twin {e : Expr V} {depth : ℕ} (hloads : ∀ l ∈ e.loads, l.1.id < base)
    (h : Twin base g hs ks st st') :
    TwinAnswer base g hs ks st (decompose loops S out depth e st)
      (decompose loops S out depth e st') := by
  induction e generalizing depth st st' with
  | imm x t =>
    have hstmt := h.stmt (c := .brc (.scalar (.imm x t)) (buildRegionCall out))
      (TileCall.older_iff.mpr ⟨Arg.older_scalar _, lt_of_lt_of_le hout h.base_le⟩)
    rw [TileCall.renumber, renumber_buildRegionCall (hfix _ hout)] at hstmt
    exact ⟨rfl, hstmt, le_rfl⟩
  | load buf indices =>
    have hbuf : buf.id < base := hloads (buf, indices) List.mem_cons_self
    have hcopy := h.copy_out hout (hfix _ hout) ⟨buf, indices⟩ (lt_of_lt_of_le hbuf h.base_le)
    rw [Access.renumber_of_eq (hfix _ hbuf)] at hcopy
    exact ⟨rfl, hcopy, le_rfl⟩
  | var x =>
    rw [decompose, decompose]
    have hvar : TwinOperand base g hs ks st (resolveWith loops S out (.var x) (fun st => (false, st)) st)
        (resolveWith loops S out (.var x) (fun st => (false, st)) st') :=
      resolveWith_twin hfix h (fun _ hl => absurd hl List.not_mem_nil) ⟨rfl, h, le_rfl⟩
    obtain ⟨ra, st₁, hr⟩ : ∃ ra st₁, resolveWith loops S out (.var x) (fun st => (false, st)) st =
      (ra, st₁) := ⟨_, _, rfl⟩
    obtain ⟨ra', st₁', hr'⟩ : ∃ ra' st₁',
      resolveWith loops S out (.var x) (fun st => (false, st)) st' = (ra', st₁') := ⟨_, _, rfl⟩
    rw [hr, hr'] at hvar
    rw [hr, hr']
    obtain rfl : ra' = ra.map (Access.renumber g) := hvar.access
    cases ra with
    | none => exact ⟨rfl, hvar.twin, hvar.next_le⟩
    | some src =>
      exact ⟨rfl, hvar.twin.copy_out hout (hfix _ hout) src (hvar.older src rfl), hvar.next_le⟩
  | unary op a ih =>
    rw [decompose, decompose]
    exact handleUnary_twin hfix hout h (resolveWith_twin hfix h hloads (ih hloads h))
  | binary op a b iha ihb =>
    simp only [Expr.loads, List.mem_append] at hloads
    have hla : ∀ l ∈ a.loads, l.1.id < base := fun l hl => hloads l (.inl hl)
    have hlb : ∀ l ∈ b.loads, l.1.id < base := fun l hl => hloads l (.inr hl)
    rw [decompose, decompose]
    exact handleBinary_twin hfix hout h (resolveWith_twin hfix h hla (iha hla h))
      fun st₁ st₁' h₁ => resolveWith_twin hfix h₁ hlb (ihb hlb h₁)
  | ifThenElse c t f ihc iht ihf =>
    simp only [Expr.loads, List.mem_append] at hloads
    have hlc : ∀ l ∈ c.loads, l.1.id < base := fun l hl => hloads l (.inl (.inl hl))
    have hlt : ∀ l ∈ t.loads, l.1.id < base := fun l hl => hloads l (.inl (.inr hl))
    have hlf : ∀ l ∈ f.loads, l.1.id < base := fun l hl => hloads l (.inr hl)
    rw [decompose, decompose]
    exact handleTernary_twin hfix hout h (resolveWith_twin hfix h hlc (ihc hlc h))
      (fun st₁ st₁' h₁ => resolveWith_twin hfix h₁ hlt (iht hlt h₁))
      fun st₁ st₁' h₁ => resolveWith_twin hfix h₁ hlf (ihf hlf h₁)
  | other t xs ls k => exact ⟨rfl, h, le_rfl⟩

end

end TileLangNpuir.LoopVectorize
